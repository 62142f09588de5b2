import Stylesheet.Proofs.Endings

/-!
# Listeners that only take note

Where all listeners only take note of their calls, telling an event calls each of them once and does nothing
else. No error can come out of such a call, so a parse ends with what reading the text gives.
-/

namespace Stylesheet

/-! ## Rosters of recorders -/

namespace Roster

def OnlyRecords (r : Roster) : Prop := ∀ e, ∀ l ∈ r.of e, l.action = .record

variable {r : Roster}

theorem modify_afterCall {ls : List Listener} (h : ∀ l ∈ ls, l.action = .record) (place : Nat) :
    ls.modify place Listener.afterCall = ls := by
  apply List.ext_getElem?
  intro i
  rw [List.getElem?_modify]
  cases hl : ls[i]? with
  | none => simp
  | some l =>
    have hrest : l.afterCall = l := by
      unfold Listener.afterCall
      rw [show l.action.rest = l.action by rw [h l (List.mem_of_getElem? hl)]; rfl]
    simp [hrest]

/-- A recorder is ready for its next call as it was for this one. -/
theorem OnlyRecords.advance (h : r.OnlyRecords) (e : Event) (place : Nat) : r.advance e place = r := by
  have hsame := modify_afterCall (h e) place
  cases e <;> simp [Roster.advance, Roster.modify, Roster.of] at hsame ⊢ <;> rw [hsame]

end Roster

/-! ## Telling recorders -/

namespace World

variable (depth : Nat) (e : Event) (notice : Notice)

/-- The calls of all listeners of an event, in the order of registration. -/
def calls (w : World) : List Moment :=
  (w.parser.roster.of e).zipIdx.map fun l => .called ⟨depth, e, l.2, l.1.id, notice, w.parser.sheet⟩

variable {e} in
theorem calls_at {w : World} {place : Nat} {l : Listener} (h : (w.parser.roster.of e)[place]? = some l) :
    (w.calls depth e notice)[place]? =
      some (.called ⟨depth, e, place, l.id, notice, w.parser.sheet⟩) := by simp [calls, h]

theorem noteAll_cons (w : World) (m : Moment) (ms : List Moment) :
    w.noteAll (m :: ms) = (w.note m).noteAll ms := by simp [noteAll, note]

theorem noteAll_append (w : World) (ms ms' : List Moment) :
    w.noteAll (ms ++ ms') = (w.noteAll ms).noteAll ms' := by simp [noteAll]

theorem called_of_onlyRecords {w : World} (h : w.parser.roster.OnlyRecords) (place : Nat) (l : Listener) :
    w.called depth e notice place l = w.note (.called ⟨depth, e, place, l.id, notice, w.parser.sheet⟩) := by
  simp only [called, note, setRoster, h.advance]

end World

namespace Work

open World

variable {depth : Nat} {e : Event} {notice : Notice} {w : World}

theorem turns_of_onlyRecords (h : w.parser.roster.OnlyRecords) {place n : Nat}
    (hn : (w.parser.roster.of e).length ≤ place + n) :
    (turns depth e notice place n).run.run w = (.ok (), w.noteAll ((w.calls depth e notice).drop place)) := by
  -- On the turns left. A call changes the history only, so the list of calls stays the same.
  induction n generalizing place w with
  | zero =>
    have hbehind : (w.parser.roster.of e).length ≤ place := hn
    rw [turns_of_none (List.getElem?_eq_none hbehind), List.drop_eq_nil_of_le (by simpa [calls] using hbehind)]
    rfl
  | succ n ih =>
    cases hl : (w.parser.roster.of e)[place]? with
    | none =>
      have hbehind := List.getElem?_eq_none_iff.mp hl
      rw [turns_of_none hl, List.drop_eq_nil_of_le (by simpa [calls] using hbehind)]
      rfl
    | some l =>
      let c : Call := ⟨depth, e, place, l.id, notice, w.parser.sheet⟩
      have hact : l.action = .record := h e l (List.mem_of_getElem? hl)
      obtain ⟨hplace, hcall⟩ := List.getElem?_eq_some_iff.mp (calls_at depth notice hl)
      have hleft : (w.parser.roster.of e).length ≤ place + 1 + n := by omega
      have hrest := ih (w := w.note (.called c)) h hleft
      rw [turns_succ_run hl, hact, called_of_onlyRecords depth e notice h]
      simp only [perform, Action.record]
      rw [List.drop_eq_getElem_cons hplace, hcall, noteAll_cons]
      exact hrest

theorem tellAt_of_onlyRecords (h : w.parser.roster.OnlyRecords) :
    (tellAt depth e notice).run.run w = (.ok (), w.noteAll (w.calls depth e notice)) := by
  rw [tellAt_run_turns, turns_of_onlyRecords h (by omega), List.drop_zero]

theorem tellAll_of_onlyRecords (h : w.parser.roster.OnlyRecords) (ns : List (Event × Notice)) :
    (tellAll (tellAt depth) ns).run.run w =
      (.ok (), w.noteAll (ns.flatMap fun n => w.calls depth n.1 n.2)) := by
  induction ns generalizing w with
  | nil => rfl
  | cons n ns ih =>
    have hrest := ih (w := w.noteAll (w.calls depth n.1 n.2)) h
    rw [tellAll_cons, run_bind_of_ok (tellAt_of_onlyRecords h), hrest, List.flatMap_cons, noteAll_append]
    rfl

/-- A parse with recorders logs, calls each of them for everything there is to tell, and ends as the
text is read. -/
theorem parse_of_onlyRecords (h : w.parser.roster.OnlyRecords) (text : Text) :
    (Work.parse (tellAt depth) text).run.run w =
      (Sheet.ending text, ((w.opened text).noteAll
        ((Sheet.notices text).flatMap fun n => (w.opened text).calls depth n.1 n.2)).closed text) := by
  rw [parse_run, tellAll_of_onlyRecords (w := w.opened text) h]

end Work

end Stylesheet
