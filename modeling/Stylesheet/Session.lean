import Stylesheet.Parser
import Stylesheet.Value

/-!
# Sessions

A session works with any number of parsers, each known by a number and made when it is first used. It
can keep sheets in named slots to look at them again and to compare them.
-/

namespace Stylesheet

/-! ## Comparing sheets -/

namespace Sheet

/-- Whether two sheets have the same content. -/
def same (a b : Sheet) : Bool := (Value.ofSheet a).same (Value.ofSheet b)

/-- How many members the set of two sheets has. -/
def distinct (a b : Sheet) : Nat :=
  (Value.distinct? (Value.ofSheet a) (Value.ofSheet b)).getD 2

end Sheet

/-! ## Steps -/

inductive Step
  /-- Replaces the parser by a fresh one. -/
  | renew
  | register (event : Text) (id : Text) (action : Action)
  | parse (text : Text)
  | report (text : Text)
  /-- Looks at the parser's sheet. -/
  | look
  /-- Asks for the short forms of the parser and its sheet. -/
  | describe
  /-- Keeps the parser's sheet in a slot. -/
  | save (slot : Text)
  | recall (slot : Text)
  | compare (a b : Text)
deriving DecidableEq

inductive Answer
  | done
  | rules (s : Sheet)
  | looked (s : Sheet)
  | described (s : Sheet)
  | compared (same : Bool) (distinct : Nat)
  | raised (error : Raised)
  /-- No sheet is kept in the slot. -/
  | emptySlot
deriving DecidableEq

structure Session where
  parsers : List (Int × Parser)
  slots : List (Text × Sheet)
deriving DecidableEq

namespace Session

def fresh : Session := ⟨[], []⟩

/-- The parser of a number. -/
def parser (s : Session) (key : Int) : Parser := (s.parsers.lookup key).getD .fresh

def setParser (s : Session) (key : Int) (p : Parser) : Session :=
  { s with parsers := (key, p) :: s.parsers.eraseP (·.1 == key) }

theorem lookup_cons_of_ne {key key' : Int} (h : key' ≠ key) (p : Parser)
    (ps : List (Int × Parser)) : ((key, p) :: ps).lookup key' = ps.lookup key' := by
  rw [List.lookup_cons, beq_eq_false_iff_ne.2 h]

theorem lookup_eraseP_of_ne {key key' : Int} (h : key' ≠ key) (ps : List (Int × Parser)) :
    (ps.eraseP (·.1 == key)).lookup key' = ps.lookup key' := by
  induction ps with
  | nil => rfl
  | cons q qs ih =>
    obtain ⟨k, v⟩ := q
    by_cases hk : k = key
    · rw [List.eraseP_cons_of_pos (by simpa using hk), lookup_cons_of_ne (hk ▸ h)]
    · rw [List.eraseP_cons_of_neg (by simpa using hk), List.lookup_cons, List.lookup_cons, ih]

theorem parser_setParser (s : Session) (key key' : Int) (p : Parser) :
    (s.setParser key p).parser key' = if key' = key then p else s.parser key' := by
  unfold setParser parser
  split
  · rename_i h
    rw [h, List.lookup_cons, beq_self_eq_true]
    rfl
  · rename_i h
    rw [lookup_cons_of_ne h, lookup_eraseP_of_ne h]

/-- Takes a step on the parser of a number, which gives the answer and the moments of the step. -/
def step (s : Session) (key : Int) : Step → Session × Answer × List Moment
  | .renew => (s.setParser key .fresh, .done, [])
  | .register event id action =>
    let w := (s.parser key).register event ⟨id, action⟩
    (s.setParser key w.parser, .done, w.moments)
  | .parse text =>
    match (s.parser key).parse text with
    | (.ok sheet, w) => (s.setParser key w.parser, .rules sheet, w.moments)
    | (.error e, w) => (s.setParser key w.parser, .raised e, w.moments)
  | .report text =>
    match (s.parser key).report text with
    | (.ok (), w) => (s.setParser key w.parser, .done, w.moments)
    | (.error e, w) => (s.setParser key w.parser, .raised e, w.moments)
  | .look => (s, .looked (s.parser key).sheet, [])
  | .describe => (s, .described (s.parser key).sheet, [])
  | .save slot => ({ s with slots := (slot, (s.parser key).sheet) :: s.slots }, .done, [])
  | .recall slot =>
    match s.slots.lookup slot with
    | some sheet => (s, .rules sheet, [])
    | none => (s, .emptySlot, [])
  | .compare a b =>
    match s.slots.lookup a, s.slots.lookup b with
    | some x, some y => (s, .compared (x.same y) (x.distinct y), [])
    | _, _ => (s, .emptySlot, [])

/-- Takes steps one after another. -/
def run : Session → List (Int × Step) → List (Answer × List Moment)
  | _, [] => []
  | s, (key, step) :: steps =>
    let (s', answer, moments) := s.step key step
    (answer, moments) :: run s' steps

end Session

end Stylesheet
