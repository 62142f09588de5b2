import Stylesheet.Sheet

/-!
# Layouts

Three written forms of a rule, each made of the selector and one `name: value` pair per declaration:
the compact form for traces, the block, which can be read again, and the listing. A sheet is a
sequence of blocks or of listings.
-/

namespace Stylesheet

namespace Layout

/-! ## Forms of a rule -/

/-- The pair `name: value`. -/
def pair (name value : Text) : Text := name ++ [':', ' '] ++ value

/-- All pairs between braces, one a line after a tab. -/
def compact (selector : Text) (pairs : List Text) : Text :=
  selector ++ [' ', '{', '\n', '\t'] ++ List.intercalate ['\n', '\t'] pairs ++ ['\n', '}']

def indent : Text := [' ', ' ', ' ', ' ']

/-- One line of a block. -/
def blockLine (pair : Text) : Text := indent ++ pair ++ [';', '\n']

/-- Each pair on an indented line of its own, ended by a semicolon. -/
def block (selector : Text) (pairs : List Text) : Text :=
  selector ++ [' ', '{', '\n'] ++ pairs.flatMap blockLine ++ ['}', '\n']

/-- The selector and the pairs, a line each, and a blank line. -/
def listing (selector : Text) (pairs : List Text) : Text :=
  "selector: ".toList ++ selector ++ ['\n'] ++ pairs.flatMap (fun p => ' ' :: p ++ ['\n']) ++ ['\n']

end Layout

/-! ## Typed values -/

def Declaration.pair (d : Declaration) : Text := Layout.pair d.kind.name d.value.text

namespace Rule

def pairs (r : Rule) : List Text := r.declarations.map Declaration.pair

def compact (r : Rule) : Text := Layout.compact r.selector.text r.pairs

def block (r : Rule) : Text := Layout.block r.selector.text r.pairs

def listing (r : Rule) : Text := Layout.listing r.selector.text r.pairs

end Rule

namespace Sheet

/-- The blocks of the rules with a blank line between neighbours. -/
def text (s : Sheet) : Text := List.intercalate ['\n'] (s.rules.map Rule.block)

def listing (s : Sheet) : Text := s.rules.flatMap Rule.listing

/-- The form of a sheet that stands for `n` rules in traces. -/
def describedSize (n : Nat) : Text := "CSSSheet(".toList ++ Text.ofInt n ++ " rules)".toList

def described (s : Sheet) : Text := describedSize s.size

end Sheet

end Stylesheet
