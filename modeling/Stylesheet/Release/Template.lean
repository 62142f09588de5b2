import Stylesheet.Text

/-!
# Templates

A template says what takes the place of a match. A backslash begins an escape: a control character, an
octal number, or the whole match. There are no numbered groups to refer to.
-/

namespace Stylesheet.Release

inductive Part
  | text (t : Text)
  /-- The whole match. -/
  | whole
deriving DecidableEq

inductive TemplateFault
  /-- An escape that means nothing, or a reference to a group that does not exist. -/
  | malformed
  /-- A reference to a group by a name that no group has. -/
  | unknownName
deriving DecidableEq

namespace Template

/-! ## Escapes -/

/-- The control characters that have a letter. -/
def control? : Char → Option Char
  | 'a' => some '\x07'
  | 'b' => some '\x08'
  | 'f' => some '\x0c'
  | 'n' => some '\n'
  | 'r' => some '\r'
  | 't' => some '\t'
  | 'v' => some '\x0b'
  | '\\' => some '\\'
  | _ => none

def isOctal (c : Char) : Bool := '0' ≤ c && c ≤ '7'

def isAsciiLetter (c : Char) : Bool := ('a' ≤ c && c ≤ 'z') || ('A' ≤ c && c ≤ 'Z')

def octalValue (ds : Text) : Nat := ds.foldl (fun n c => 8 * n + (c.toNat - '0'.toNat)) 0

/-- The number of a group, which must be the number of the whole match. -/
def group (name : Text) : Except TemplateFault Part :=
  if name ≠ [] ∧ name.all (fun c => c == '0') then .ok .whole
  else match name with
    | c :: cs =>
      if (isAsciiLetter c || c == '_') && cs.all (fun d => isAsciiLetter d || d.isDigit || d == '_')
      then .error .unknownName
      else .error .malformed
    | [] => .error .malformed

/-- The part that an escape stands for and how many characters it takes after the backslash. -/
def escape : Text → Except TemplateFault (Part × Nat)
  | [] => .error .malformed
  | 'g' :: rest =>
    match rest with
    | '<' :: name =>
      let inner := name.takeWhile (· ≠ '>')
      if inner.length = name.length then .error .malformed
      else (group inner).map (·, inner.length + 3)
    | _ => .error .malformed
  | '0' :: rest =>
    let ds := (rest.take 2).takeWhile isOctal
    .ok (.text [Char.ofNat (octalValue ds)], ds.length + 1)
  | c :: rest =>
    if c.isDigit then
      match rest with
      | d :: e :: _ =>
        if isOctal c && isOctal d && isOctal e && octalValue [c, d, e] ≤ 0o377 then
          .ok (.text [Char.ofNat (octalValue [c, d, e])], 3)
        else .error .malformed
      | _ => .error .malformed
    else match control? c with
      | some x => .ok (.text [x], 1)
      | none => if isAsciiLetter c then .error .malformed else .ok (.text ['\\', c], 1)

/-! ## Whole templates -/

/-- Reads a template after skipping so many characters. -/
def partsFrom : Nat → Text → Except TemplateFault (List Part)
  | _, [] => .ok []
  | n + 1, _ :: cs => partsFrom n cs
  | 0, c :: cs =>
    if c = '\\' then do
      let (p, used) ← escape cs
      return p :: (← partsFrom used cs)
    else return .text [c] :: (← partsFrom 0 cs)

def parts (t : Text) : Except TemplateFault (List Part) := partsFrom 0 t

/-- What the parts give for a match. -/
def expand (ps : List Part) (whole : Text) : Text :=
  ps.flatMap fun
    | .text t => t
    | .whole => whole

theorem expand_append (ps qs : List Part) (whole : Text) :
    expand (ps ++ qs) whole = expand ps whole ++ expand qs whole := by simp [expand]

/-- A text without backslashes stands for itself. -/
theorem parts_of_not_mem {t : Text} (h : '\\' ∉ t) : parts t = .ok (t.map fun c => .text [c]) := by
  unfold parts
  induction t with
  | nil => rfl
  | cons c cs ih =>
    simp only [List.mem_cons, not_or] at h
    simp [partsFrom, Ne.symm h.1, ih h.2, bind, Except.bind, pure, Except.pure]

end Template

end Stylesheet.Release
