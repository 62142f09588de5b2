import Stylesheet.Proofs.Effects
import Stylesheet.Proofs.Reading

/-!
# Work step by step

What a sequence of work does, from what its parts do. A parse opens with the sheet of its text, tells
what there is to tell, and ends with what reading the text gives, unless a listener raises.
-/

namespace Stylesheet

namespace World

variable (w : World)

def note (m : Moment) : World := { w with history := m :: w.history }

def noteAll (ms : List Moment) : World := { w with history := ms.reverse ++ w.history }

def setRoster (f : Roster → Roster) : World :=
  { w with parser := { w.parser with roster := f w.parser.roster } }

end World

namespace Work

variable {w w' : World}

theorem logAll_run (entries : List Entry) (w : World) :
    (logAll entries).run.run w = (.ok (), w.noteAll (entries.map .logged)) := by
  induction entries generalizing w with
  | nil => rfl
  | cons entry entries ih =>
    have hrest := ih (w.note (.logged entry))
    rw [logAll, List.forM, run_bind_of_ok (by rfl)]
    simp only [World.noteAll, World.note, List.map_cons, List.reverse_cons, List.append_assoc,
      List.singleton_append] at hrest ⊢
    exact hrest

end Work

/-! ## Parsing -/

namespace Sheet

/-- The sheet that a text leads to. A rejected text leads to the empty one. -/
def outcome (text : Text) : Sheet :=
  match parse? text with
  | .ok s => s
  | .error _ => empty

/-- What reading a text gives, as the end of a parse. -/
def ending (text : Text) : Except Raised Sheet :=
  match parse? text with
  | .ok s => .ok s
  | .error e => .error (.rejected e)

theorem ending_eq_ok {text : Text} {s : Sheet} :
    ending text = .ok s ↔ parse? text = .ok s := by
  unfold ending
  split <;> rename_i h <;> simp [h]

theorem ending_eq_error {text : Text} {r : Raised} :
    ending text = .error r ↔ ∃ e, parse? text = .error e ∧ r = .rejected e := by
  unfold ending
  split <;> rename_i h <;> simp [h, eq_comm]

/-- What a parser tells of the rules of a sheet. -/
def ruleNotices (s : Sheet) : List (Event × Notice) := s.rules.map fun r => (.ruleAdded, .rule r)

/-- The events that a parse tells, each with its notice. -/
def notices (text : Text) : List (Event × Notice) :=
  match parse? text with
  | .ok s => s.ruleNotices ++ [(.parseCompleted, .completed)]
  | .error e => [(.errorFound, .error e.diagnostic.render)]

/-- What a parser writes down before it tells. -/
def opening (text : Text) : List Entry :=
  (read text).1.map Entry.ofRule ++
    match parse? text with
    | .ok _ => []
    | .error e => [.ofError e, .errorReported e.diagnostic.render]

/-- What a parser writes down behind all that it tells. -/
def closing (text : Text) : List Entry :=
  match parse? text with
  | .ok s => [.parsingCompleted s.size]
  | .error _ => []

end Sheet

/-- The world in which the parse of a text begins to tell. -/
def World.opened (text : Text) (w : World) : World :=
  ⟨⟨Sheet.outcome text, w.parser.roster⟩,
    ((Sheet.opening text).map .logged).reverse ++ .began text :: w.history⟩

/-- The world after a parse that told everything. -/
def World.closed (text : Text) (w : World) : World :=
  w.noteAll ((Sheet.closing text).map .logged)

namespace Work

def tellAll (tell : Telling) (ns : List (Event × Notice)) : Work Unit :=
  ns.forM fun n => tell n.1 n.2

theorem tellAll_cons (tell : Telling) (n : Event × Notice) (ns : List (Event × Notice)) :
    tellAll tell (n :: ns) = (do tell n.1 n.2; tellAll tell ns) := rfl

theorem tellAll_singleton (tell : Telling) (n : Event × Notice) :
    tellAll tell [n] = tell n.1 n.2 := by simp [tellAll]

theorem tellAll_append (tell : Telling) (ns ns' : List (Event × Notice)) :
    tellAll tell (ns ++ ns') = (do tellAll tell ns; tellAll tell ns') := by
  induction ns with
  | nil => simp [tellAll]
  | cons n ns ih => rw [List.cons_append, tellAll_cons, ih, tellAll_cons, bind_assoc]

theorem tellAll_ruleNotices (tell : Telling) (s : Sheet) :
    tellAll tell s.ruleNotices = s.rules.forM fun r => tell .ruleAdded (.rule r) := by
  rw [tellAll, Sheet.ruleNotices]
  induction s.rules with
  | nil => rfl
  | cons r rs ih => rw [List.map_cons, List.forM, ih, List.forM]

/-- A parse opens, tells, and closes. -/
theorem parse_run (tell : Telling) (text : Text) (w : World) :
    (Work.parse tell text).run.run w =
      match (tellAll tell (Sheet.notices text)).run.run (w.opened text) with
      | (.ok (), w₁) => (Sheet.ending text, w₁.closed text)
      | (.error error, w₁) => (.error error, w₁) := by
  rcases hr : (tellAll tell (Sheet.notices text)).run.run (w.opened text) with ⟨r, w₁⟩
  unfold Work.parse
  rw [run_bind_of_ok (by rfl), run_bind_of_ok (by rfl)]
  cases hread : Sheet.read text with
  | mk rs f? =>
    cases f? with
    | none =>
      have hparse : Sheet.parse? text = .ok ⟨rs⟩ := parse?_eq_ok.mpr hread
      simp only [Sheet.notices, World.opened, Sheet.outcome, Sheet.opening, hread, hparse,
        List.append_nil] at hr
      simp only []
      rw [run_bind_of_ok (logAll_run _ _), run_bind_of_ok (by rfl), ← bind_assoc,
        ← tellAll_ruleNotices tell ⟨rs⟩, ← tellAll_singleton tell (.parseCompleted, .completed),
        ← tellAll_append]
      simp only [World.noteAll, run_bind, hr, World.closed, Sheet.closing, Sheet.ending, hparse]
      cases r <;> rfl
    | some f =>
      have hparse : Sheet.parse? text = .error (f.error text) := by rw [Sheet.parse?, hread]
      have hlog := logAll_run (rs.map Entry.ofRule ++ [.ofError (f.error text)])
        ⟨⟨.empty, w.parser.roster⟩, .began text :: w.history⟩
      simp only [Sheet.notices, World.opened, Sheet.outcome, Sheet.opening, hread, hparse,
        tellAll_singleton, List.map_append, List.reverse_append, List.map_cons, List.map_nil,
        List.reverse_cons, List.reverse_nil, List.nil_append, List.cons_append] at hr
      simp only [report, bind_assoc]
      rw [run_bind_of_ok hlog, run_bind_of_ok (by rfl)]
      simp only [World.noteAll, List.map_append, List.reverse_append, List.map_cons, List.map_nil,
        List.reverse_cons, List.reverse_nil, List.nil_append, List.cons_append, run_bind, hr,
        World.closed, Sheet.closing, Sheet.ending, hparse]
      cases r <;> rfl

theorem parse_ok {tell : Telling} {text : Text} {s : Sheet}
    (h : (Work.parse tell text).run.run w = (.ok s, w')) : Sheet.parse? text = .ok s := by
  rw [parse_run] at h
  split at h
  · simp only [Sheet.ending] at h
    split at h
    · rename_i hs
      cases h
      exact hs
    · cases h
  · cases h

/-- Without listeners, telling does nothing. -/
theorem tell_of_empty (e : Event) (notice : Notice) (s : Sheet) (history : List Moment) :
    (tell e notice).run.run ⟨⟨s, .empty⟩, history⟩ = (.ok (), ⟨⟨s, .empty⟩, history⟩) := by
  cases e <;> rfl

theorem tellAll_of_empty (ns : List (Event × Notice)) (s : Sheet) (history : List Moment) :
    (tellAll tell ns).run.run ⟨⟨s, .empty⟩, history⟩ = (.ok (), ⟨⟨s, .empty⟩, history⟩) := by
  induction ns with
  | nil => rfl
  | cons n ns ih => rw [tellAll_cons, run_bind_of_ok (tell_of_empty n.1 n.2 s history), ih]

/-- Without listeners, a text that can be read is accepted, and its sheet is kept. -/
theorem parse_of_empty {text : Text} {s : Sheet} (h : Sheet.parse? text = .ok s) (kept : Sheet)
    (history : List Moment) :
    ∃ history', (Work.parse tell text).run.run ⟨⟨kept, .empty⟩, history⟩ =
      (.ok s, ⟨⟨s, .empty⟩, history'⟩) := by
  rw [parse_run, World.opened, tellAll_of_empty]
  simp only [Sheet.ending, Sheet.outcome, h, World.closed, World.noteAll]
  exact ⟨_, rfl⟩

end Work

namespace Parser

theorem parse?_of_parse {p : Parser} {text : Text} {s : Sheet} (h : (p.parse text).1 = .ok s) :
    Sheet.parse? text = .ok s := by
  cases hp : p.parse text with
  | mk r w =>
    rw [hp] at h
    cases h
    exact Work.parse_ok hp

/-- Without listeners, a parse ends with what reading the text gives. -/
theorem fresh_parse_ending (text : Text) : (fresh.parse text).1 = Sheet.ending text := by
  change ((Work.parse Work.tell text).run.run ⟨fresh, []⟩).1 = _
  rw [Work.parse_run, World.opened]
  simp only [fresh, Work.tellAll_of_empty]

theorem fresh_parse {text : Text} {s : Sheet} (h : Sheet.parse? text = .ok s) :
    (fresh.parse text).1 = .ok s ∧ (fresh.parse text).2.parser.sheet = s := by
  obtain ⟨history, hp⟩ := Work.parse_of_empty h .empty []
  have hrun : fresh.parse text = (.ok s, ⟨⟨s, .empty⟩, history⟩) := hp
  rw [hrun]
  exact ⟨rfl, rfl⟩

end Parser

end Stylesheet
