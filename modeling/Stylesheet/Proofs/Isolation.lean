import Stylesheet.Proofs.Trim
import Stylesheet.Session

/-!
# Parsers side by side

A step works on one parser and leaves all others alone. So a parser of a session answers, tells, writes down
and keeps what it would if the session had no other parsers, and registrations under names of no event can be
left out of the session as out of what listeners do.
-/

namespace Stylesheet

/-! ## Steps of one parser -/

namespace Step

/-- Whether a step has to do with its parser alone. The other steps have to do with slots, which are there for
all parsers. -/
def isOwn : Step → Bool
  | .renew | .register _ _ _ | .parse _ | .report _ | .look | .describe => true
  | .save _ | .recall _ | .compare _ _ => false

/-- The step without registrations under names of no event. If it is one itself, nothing is left. -/
def trim? : Step → Option Step
  | register event id action =>
    if (Event.ofName? event).isNone then none else some (register event id action.trim)
  | step => some step

variable {step step' : Step}

theorem trim?_eq_none (h : step.trim? = none) :
    ∃ event id action, step = register event id action ∧ (Event.ofName? event).isNone := by
  unfold trim? at h
  split at h
  · rename_i event id action
    split at h
    · exact ⟨event, id, action, rfl, ‹_›⟩
    · cases h
  · cases h

theorem isOwn_of_trim? (h : step.trim? = some step') : step'.isOwn = step.isOwn := by
  unfold trim? at h
  split at h
  · split at h <;> cases h
    rfl
  · cases h
    rfl

end Step

def Answer.ofEnd {α : Type} (answer : α → Answer) : Except Raised α → Answer
  | .ok a => answer a
  | .error error => .raised error

namespace Parser

variable {p : Parser} {step step' : Step}

/-- What a step makes of its parser, and what it gives to see if it has to do with nothing else. -/
def take (p : Parser) : Step → Parser × Answer × List Moment
  | .renew => (fresh, .done, [])
  | .register event id action =>
    ((p.register event ⟨id, action⟩).parser, .done, (p.register event ⟨id, action⟩).moments)
  | .parse text => ((p.parse text).2.parser, .ofEnd .rules (p.parse text).1, (p.parse text).2.moments)
  | .report text =>
    ((p.report text).2.parser, .ofEnd (fun _ => .done) (p.report text).1, (p.report text).2.moments)
  | .look => (p, .looked p.sheet, [])
  | .describe => (p, .described p.sheet, [])
  | .save _ | .recall _ | .compare _ _ => (p, .done, [])

theorem take_trim (h : step.trim? = some step') :
    p.trim.take step' = ((p.take step).1.trim, (p.take step).2) := by
  cases step with
  | register event id action =>
    simp only [Step.trim?] at h
    split at h
    · cases h
    · cases h
      have hregister : p.trim.register event ⟨id, action.trim⟩ = (p.register event ⟨id, action⟩).trim :=
        p.register_trim event ⟨id, action⟩
      simp only [take, hregister]
      rfl
  | parse text =>
    cases h
    simp only [take, parse_trim]
    rfl
  | report text =>
    cases h
    simp only [take, report_trim]
    rfl
  | renew | look | describe | save | «recall» | compare =>
    cases h
    rfl

theorem take_of_trim?_eq_none (h : step.trim? = none) : p.take step = (p, .done, []) := by
  obtain ⟨event, id, action, rfl, hevent⟩ := Step.trim?_eq_none h
  have hrun := Work.register_run event ⟨id, action⟩ ⟨p, []⟩
  rw [World.registered_of_isNone hevent] at hrun
  have hregister : p.register event ⟨id, action⟩ = ⟨p, []⟩ := congrArg Prod.snd hrun
  simp only [take, hregister]
  rfl

end Parser

/-! ## Steps of a session -/

namespace Session

variable {s s' : Session} {key : Int} {step step' : Step}

theorem parser_ite (s : Session) (key key' : Int) :
    (if key' = key then s.parser key else s.parser key') = s.parser key' := by
  by_cases hkey : key' = key
  · rw [if_pos hkey, hkey]
  · rw [if_neg hkey]

/-- What a step does that has to do with its parser alone. -/
theorem step_of_isOwn (s : Session) (key : Int) (h : step.isOwn) :
    (s.step key step).2 = ((s.parser key).take step).2 ∧ (s.step key step).1.slots = s.slots ∧
    ∀ key', (s.step key step).1.parser key' =
      if key' = key then ((s.parser key).take step).1 else s.parser key' := by
  cases step with
  | renew | register => exact ⟨rfl, rfl, fun key' => parser_setParser s key key' _⟩
  | parse text =>
    simp only [Session.step, Parser.take]
    rcases (s.parser key).parse text with ⟨error | sheet, w⟩ <;>
      exact ⟨rfl, rfl, fun key' => parser_setParser s key key' _⟩
  | report text =>
    simp only [Session.step, Parser.take]
    rcases (s.parser key).report text with ⟨error | _, w⟩ <;>
      exact ⟨rfl, rfl, fun key' => parser_setParser s key key' _⟩
  | look | describe => exact ⟨rfl, rfl, fun key' => (parser_ite s key key').symm⟩
  | save | «recall» | compare => cases h

theorem parser_step_of_slots (h : ¬step.isOwn) (key' : Int) :
    (s.step key step).1.parser key' = s.parser key' := by
  cases step with
  | save => rfl
  | «recall» slot =>
    simp only [Session.step]
    split <;> rfl
  | compare a b =>
    simp only [Session.step]
    split <;> rfl
  | renew | register | parse | report | look | describe => exact absurd rfl h

/-! ## Runs -/

/-- Every step with what it gave to see. -/
def record (s : Session) (steps : List (Int × Step)) : List ((Int × Step) × Answer × List Moment) :=
  steps.zip (s.run steps)

/-- The session behind some steps. -/
def after (s : Session) (steps : List (Int × Step)) : Session :=
  steps.foldl (fun s x => (s.step x.1 x.2).1) s

theorem record_cons (s : Session) (x : Int × Step) (steps : List (Int × Step)) :
    s.record (x :: steps) = (x, (s.step x.1 x.2).2) :: (s.step x.1 x.2).1.record steps := rfl

theorem after_cons (s : Session) (x : Int × Step) (steps : List (Int × Step)) :
    s.after (x :: steps) = (s.step x.1 x.2).1.after steps := rfl

/-! ## The steps of one parser -/

/-- Whether a step has to do with the parser of a number and nothing else. -/
def isOwn (key : Int) (x : Int × Step) : Bool := x.1 = key && x.2.isOwn

theorem parser_step_of_not_isOwn {x : Int × Step} (h : ¬isOwn key x) :
    (s.step x.1 x.2).1.parser key = s.parser key := by
  by_cases hstep : x.2.isOwn
  · have hkey : key ≠ x.1 := by simpa [isOwn, hstep, eq_comm] using h
    obtain ⟨-, -, hparser⟩ := step_of_isOwn s x.1 hstep
    rw [hparser, if_neg hkey]
  · exact parser_step_of_slots hstep key

/-- A run of the own steps of a parser, in a session with the same parser under its number. -/
theorem record_filter_isOwn (h : s'.parser key = s.parser key) (steps : List (Int × Step)) :
    s'.record (steps.filter (isOwn key)) = (s.record steps).filter (fun r => isOwn key r.1) ∧
    (s'.after (steps.filter (isOwn key))).parser key = (s.after steps).parser key := by
  -- On the steps of the whole run. The ones that are not taken in both leave the parser as it was.
  induction steps generalizing s s' with
  | nil => exact ⟨rfl, h⟩
  | cons x steps ih =>
    by_cases hown : isOwn key x
    · have hx : x.1 = key ∧ x.2.isOwn := by simpa [isOwn] using hown
      obtain ⟨hkey, hstep⟩ := hx
      obtain ⟨hanswer, -, hparser⟩ := step_of_isOwn s x.1 hstep
      obtain ⟨hanswer', -, hparser'⟩ := step_of_isOwn s' x.1 hstep
      have hsame : s'.parser x.1 = s.parser x.1 := hkey ▸ h
      have hnext : (s'.step x.1 x.2).1.parser key = (s.step x.1 x.2).1.parser key := by
        rw [hparser, hparser', hsame, h]
      obtain ⟨hrecord, hafter⟩ := ih hnext
      rw [List.filter_cons_of_pos hown, record_cons, record_cons, List.filter_cons_of_pos (by exact hown),
        hrecord, hanswer, hanswer', hsame]
      exact ⟨rfl, hafter⟩
    · have hnext : s'.parser key = (s.step x.1 x.2).1.parser key := by
        rw [parser_step_of_not_isOwn hown, h]
      obtain ⟨hrecord, hafter⟩ := ih hnext
      rw [List.filter_cons_of_neg hown, record_cons, List.filter_cons_of_neg (by exact hown)]
      exact ⟨hrecord, hafter⟩

/-! ## Steps without names of no event -/

/-- A session with the same slots whose parsers are trimmed. -/
structure TrimsTo (s s' : Session) : Prop where
  parser : ∀ key, s'.parser key = (s.parser key).trim
  slots : s'.slots = s.slots

theorem TrimsTo.step_some (h : TrimsTo s s') (key : Int) (hstep : step.trim? = some step') :
    (s'.step key step').2 = (s.step key step).2 ∧
      TrimsTo (s.step key step).1 (s'.step key step').1 := by
  have hown' := Step.isOwn_of_trim? hstep
  by_cases hown : step.isOwn
  · obtain ⟨hanswer, hslots, hparser⟩ := step_of_isOwn s key hown
    obtain ⟨hanswer', hslots', hparser'⟩ := step_of_isOwn s' key (hown'.trans hown)
    rw [h.parser, Parser.take_trim hstep] at hanswer' hparser'
    refine ⟨hanswer'.trans hanswer.symm, fun key' => ?_, ?_⟩
    · rw [hparser, hparser', h.parser]
      split <;> rfl
    · rw [hslots, hslots', h.slots]
  · -- Of a parser the slots take the sheet at most.
    have hsheet : (s'.parser key).sheet = (s.parser key).sheet := by rw [h.parser]; rfl
    cases step with
    | renew | register | parse | report | look | describe => exact absurd rfl hown
    | save slot =>
      cases hstep
      refine ⟨rfl, h.parser, ?_⟩
      simp only [Session.step, hsheet, h.slots]
    | «recall» slot =>
      cases hstep
      simp only [Session.step, h.slots]
      split <;> exact ⟨rfl, h⟩
    | compare a b =>
      cases hstep
      simp only [Session.step, h.slots]
      split <;> exact ⟨rfl, h⟩

theorem TrimsTo.step_none (h : TrimsTo s s') (key : Int) (hstep : step.trim? = none) :
    (s.step key step).2 = (.done, []) ∧ TrimsTo (s.step key step).1 s' := by
  have hown : step.isOwn := by
    obtain ⟨_, _, _, rfl, -⟩ := Step.trim?_eq_none hstep
    rfl
  obtain ⟨hanswer, hslots, hparser⟩ := step_of_isOwn s key hown
  rw [Parser.take_of_trim?_eq_none hstep] at hanswer hparser
  refine ⟨hanswer, fun key' => ?_, h.slots.trans hslots.symm⟩
  rw [h.parser, hparser, parser_ite]

def trim? (x : Int × Step) : Option (Int × Step) := x.2.trim?.map (x.1, ·)

theorem TrimsTo.run (h : TrimsTo s s') (steps : List (Int × Step)) :
    s'.record (steps.filterMap trim?) = (s.record steps).filterMap (fun r => (trim? r.1).map (·, r.2)) ∧
    (∀ r ∈ s.record steps, trim? r.1 = none → r.2 = (.done, [])) ∧
    TrimsTo (s.after steps) (s'.after (steps.filterMap trim?)) := by
  induction steps generalizing s s' with
  | nil => exact ⟨rfl, by simp [record], h⟩
  | cons x steps ih =>
    rw [record_cons, after_cons]
    rcases hstep : x.2.trim? with _ | step'
    · have hx : trim? x = none := by rw [trim?, hstep]; rfl
      obtain ⟨hanswer, hnext⟩ := h.step_none x.1 hstep
      obtain ⟨hrecord, hdropped, hafter⟩ := ih hnext
      rw [List.filterMap_cons_none hx, List.filterMap_cons_none (by simp [hx])]
      refine ⟨hrecord, ?_, hafter⟩
      exact List.forall_mem_cons.mpr ⟨fun _ => hanswer, hdropped⟩
    · have hx : trim? x = some (x.1, step') := by rw [trim?, hstep]; rfl
      obtain ⟨hanswer, hnext⟩ := h.step_some x.1 hstep
      obtain ⟨hrecord, hdropped, hafter⟩ := ih hnext
      rw [List.filterMap_cons_some hx, record_cons, List.filterMap_cons_some (by simp [hx]; rfl), hrecord,
        hanswer]
      refine ⟨rfl, List.forall_mem_cons.mpr ⟨fun hnone => ?_, hdropped⟩, hafter⟩
      cases hx.symm.trans hnone

theorem trimsTo_fresh : TrimsTo fresh fresh := ⟨fun _ => rfl, rfl⟩

/-- In every session a parser does what it does if only its own steps are taken, and ends as it ends then.
Without the registrations under names of no event, also those that listeners make, the steps that are left
give the same to see. Those that are left out give nothing, and no parser ends otherwise. -/
theorem parsers_independent (steps : List (Int × Step)) :
    (∀ key : Int,
      fresh.record (steps.filter (isOwn key)) = (fresh.record steps).filter (fun r => isOwn key r.1) ∧
      (fresh.after (steps.filter (isOwn key))).parser key = (fresh.after steps).parser key) ∧
    fresh.record (steps.filterMap trim?) =
      (fresh.record steps).filterMap (fun r => (trim? r.1).map (·, r.2)) ∧
    (∀ r ∈ fresh.record steps, trim? r.1 = none → r.2 = (.done, [])) ∧
    ∀ key : Int, (fresh.after (steps.filterMap trim?)).parser key = ((fresh.after steps).parser key).trim := by
  obtain ⟨hrecord, hdropped, hafter⟩ := trimsTo_fresh.run steps
  exact ⟨fun key => record_filter_isOwn rfl steps, hrecord, hdropped, hafter.parser⟩

end Session

end Stylesheet
