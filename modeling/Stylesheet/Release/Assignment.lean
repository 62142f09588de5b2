import Stylesheet.Release.Template

/-!
# Version assignments

A source file states its version by an assignment of a quoted text on one line. The quotes at the two
ends need not be the same, and the first quote after the opening one closes.
-/

namespace Stylesheet.Release

namespace Assignment

/-! ## Matches -/

/-- How an assignment begins, up to the opening quote. -/
def head : Text := "__version__ = ".toList

def isQuote (c : Char) : Bool := c == '"' || c == '\''

/-- The quoted text at the beginning of a text, with its quotes. -/
def quoted? : Text → Option Text
  | [] => none
  | q :: rest =>
    if isQuote q then
      let body := rest.takeWhile fun c => !isQuote c && c != '\n'
      match (rest.drop body.length).head? with
      | some c => if isQuote c then some (q :: body ++ [c]) else none
      | none => none
    else none

/-- The assignment at the beginning of a text. -/
def match? (t : Text) : Option Text :=
  if head.isPrefixOf t then (quoted? (t.drop head.length)).map (head ++ ·) else none

/-! ## Segments -/

/-- A text cut at its assignments. -/
inductive Segment
  | other (c : Char)
  | assignment (t : Text)
deriving DecidableEq

namespace Segment

def text : Segment → Text
  | other c => [c]
  | assignment t => t

def isAssignment : Segment → Bool
  | assignment _ => true
  | other _ => false

end Segment

/-- The segments of a text after skipping so many characters. Assignments are found from left to
right. -/
def segmentsFrom : Nat → Text → List Segment
  | _, [] => []
  | n + 1, _ :: cs => segmentsFrom n cs
  | 0, c :: cs =>
    match match? (c :: cs) with
    | some t => .assignment t :: segmentsFrom (t.length - 1) cs
    | none => .other c :: segmentsFrom 0 cs

def segments (t : Text) : List Segment := segmentsFrom 0 t

/-- Whether a text has an assignment. -/
def occurs (t : Text) : Bool := (segments t).any Segment.isAssignment

/-! ## Replacing -/

/-- The text with the expansion of a template in place of every assignment. -/
def replaced (ps : List Part) (t : Text) : Text :=
  (segments t).flatMap fun
    | .other c => [c]
    | .assignment m => Template.expand ps m

/-- The template of an assignment of a version. -/
def template (version : Text) : Text := head ++ '"' :: version ++ ['"']

end Assignment

end Stylesheet.Release
