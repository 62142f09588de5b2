import Stylesheet.Proofs.Endings

/-!
# Names of no event

A registration under a name of no event is passed over, so everything goes as if it were not made: not by the
session, and not by any listener at any call. Trimming takes all such registrations out of what listeners are
going to do.
-/

namespace Stylesheet

/-! ## Trimmed scripts -/

/-- Whether a deed comes to a registration under a name of no event. -/
def Deed.isVoid : Deed → Bool
  | .register event => (Event.ofName? event).isNone
  | .quietly deed => deed.isVoid
  | .look | .raise _ | .report _ | .parse _ _ => false

namespace Action

/-- The action without registrations under names of no event. -/
def trim : Action → Action
  | always habit => always habit
  | perform deed next => if deed.isVoid then next.trim else perform deed next.trim
  | enlist event suffix action next =>
    if (Event.ofName? event).isNone then next.trim else enlist event suffix action.trim next.trim
  | pause next => pause next.trim

theorem rest_trim (a : Action) : a.trim.rest = a.rest.trim := by
  induction a with
  | always habit => rfl
  | perform deed next ih =>
    simp only [trim, rest, ← ih]
    split <;> rfl
  | enlist event suffix action next _ ih =>
    simp only [trim, rest, ← ih]
    split <;> rfl
  | pause next => rfl

end Action

def Listener.trim (l : Listener) : Listener := { l with action := l.action.trim }

theorem Listener.afterCall_trim (l : Listener) : l.trim.afterCall = l.afterCall.trim := by
  simp only [trim, afterCall, Action.rest_trim]

namespace Roster

def trim (r : Roster) : Roster :=
  ⟨r.ruleAdded.map .trim, r.errorFound.map .trim, r.parseCompleted.map .trim⟩

variable (r : Roster) (e : Event)

theorem of_trim : r.trim.of e = (r.of e).map .trim := by cases e <;> rfl

theorem trim_modify {f : List Listener → List Listener} {g : List Listener → List Listener}
    (h : ∀ ls, (f ls).map .trim = g (ls.map .trim)) : (r.modify f e).trim = r.trim.modify g e := by
  cases e <;> simp [modify, trim, h]

theorem trim_add (l : Listener) : (r.add e l).trim = r.trim.add e l.trim := by
  apply trim_modify
  intro ls
  rw [List.map_append, List.map_singleton]

theorem trim_advance (place : Nat) : (r.advance e place).trim = r.trim.advance e place := by
  apply trim_modify
  intro ls
  apply List.ext_getElem?
  intro i
  simp only [List.getElem?_map, List.getElem?_modify]
  split <;> cases ls[i]? <;> simp [Listener.afterCall_trim]

end Roster

def Parser.trim (p : Parser) : Parser := { p with roster := p.roster.trim }

/-! ## Trimmed worlds -/

namespace World

def trim (w : World) : World := { w with parser := w.parser.trim }

variable {depth place : Nat} {e : Event} {notice : Notice} {event : Text} {l : Listener} {w : World}

theorem registered_trim : (w.registered event l).trim = w.trim.registered event l.trim := by
  unfold registered
  cases Event.ofName? event with
  | none => rfl
  | some e => simp only [trim, Parser.trim, note, setRoster, Roster.trim_add]

theorem registered_of_isNone (h : (Event.ofName? event).isNone) : w.registered event l = w := by
  rw [registered, Option.isNone_iff_eq_none.mp h]

theorem called_trim :
    (w.called depth e notice place l).trim = w.trim.called depth e notice place l.trim := by
  simp only [called, trim, Parser.trim, note, setRoster, Roster.trim_advance, Listener.trim]

theorem getElem?_trim (h : (w.parser.roster.of e)[place]? = some l) :
    (w.trim.parser.roster.of e)[place]? = some l.trim := by
  simp [trim, Parser.trim, Roster.of_trim, h]

end World

/-- The end of work on a trimmed parser. -/
def trimmedEnd {α : Type} (ended : Except Raised α × World) : Except Raised α × World :=
  (ended.1, ended.2.trim)

theorem keptBy_trim (id : Text) (ended : Except Raised Unit × World) :
    keptBy id (trimmedEnd ended) = trimmedEnd (keptBy id ended) := by
  rcases ended with ⟨(_ | _) | _, w⟩ <;> rfl

/-! ## Trimmed runs -/

def Task.trim : Task → Task
  | .perform id action => .perform id action.trim
  | task => task

variable {limit depth : Nat} {id : Text} {deed : Deed} {task : Task} {w : World}
  {ended : Except Raised Unit × World}

theorem Finishes.of_isVoid (hvoid : deed.isVoid) (h : Finishes limit depth (.deed id deed) w ended) :
    ended = (.ok (), w) := by
  induction deed generalizing ended with
  | register event =>
    cases h with
    | register => rw [World.registered_of_isNone hvoid]
  | quietly deed ih =>
    cases h with
    | quietly h => rw [ih hvoid h]
  | look | raise | report | parse => cases hvoid

theorem Finishes.trim (h : Finishes limit depth task w ended) :
    Finishes limit depth task.trim w.trim (trimmedEnd ended) := by
  induction h with
  | report _ ih => exact .report ih
  | @parse depth text w w₁ _ ih =>
    have htold : Finishes limit depth (.tellAll (Sheet.notices text)) (w.trim.opened text)
      (.ok (), w₁.trim) := ih
    exact .parse htold
  | parseBroken _ ih => exact .parseBroken ih
  | told => exact .told
  | tell _ _ ih ihrest => exact .tell ih ihrest
  | tellBroken _ ih => exact .tellBroken ih
  | roundOver hl =>
    apply Finishes.roundOver
    simpa [World.trim, Parser.trim, Roster.of_trim] using hl
  | call hl hdepth _ _ ih ihrest =>
    rw [World.called_trim] at ih
    exact .call (World.getElem?_trim hl) hdepth ih ihrest
  | callBroken hl hdepth _ ih =>
    rw [World.called_trim] at ih
    exact .callBroken (World.getElem?_trim hl) hdepth ih
  | record => exact .record
  | look => exact .look
  | raise => exact .raise
  | pause => exact .pause
  | perform hdeed _ ih ihrest =>
    simp only [Task.trim, Action.trim] at ih ihrest ⊢
    split
    · -- A void deed leaves the world as it was, so what comes next begins where the deed began.
      rename_i hvoid
      cases hdeed.of_isVoid hvoid
      exact ihrest
    · exact .perform ih ihrest
  | performBroken hdeed ih =>
    simp only [Task.trim, Action.trim] at ih ⊢
    split
    · rename_i hvoid
      cases hdeed.of_isVoid hvoid
    · exact .performBroken ih
  | enlist _ ih =>
    simp only [Task.trim, Action.trim] at ih ⊢
    split
    · rename_i hevent
      rwa [World.registered_of_isNone hevent] at ih
    · rw [World.registered_trim] at ih
      exact .enlist ih
  | lookOnce => exact .lookOnce
  | raiseOnce => exact .raiseOnce
  | register =>
    simp only [trimmedEnd, World.registered_trim]
    exact .register
  | reportOnce _ ih => exact .reportOnce ih
  | parseOnce _ ih => exact .parseOnce ih
  | parseAndKeep _ ih =>
    rw [← keptBy_trim]
    exact .parseAndKeep ih
  | quietly _ ih => exact .quietly ih

/-! ## What trimming keeps -/

namespace Parser

variable (p : Parser) (text : Text)

/-- The value of a parse is read off the text alone, so it tells no ends apart. -/
theorem eq_of_withoutValue {text : Text} {ended ended' : Except Raised Sheet × World}
    (h : ∀ s, ended.1 = .ok s → Sheet.parse? text = .ok s)
    (h' : ∀ s, ended'.1 = .ok s → Sheet.parse? text = .ok s)
    (hsame : withoutValue ended = withoutValue ended') : ended = ended' := by
  rcases ended with ⟨error | s, w⟩ <;> rcases ended' with ⟨error' | s', w'⟩ <;> cases hsame
  · rfl
  · cases (h s rfl).symm.trans (h' s' rfl)
    rfl

theorem register_trim (event : Text) (l : Listener) :
    p.trim.register event l.trim = (p.register event l).trim := by
  have h := Work.register_run event l ⟨p, []⟩
  have h' := Work.register_run event l.trim ⟨p.trim, []⟩
  simp only [register, Work.runOn, h, h', World.registered_trim]
  rfl

theorem report_trim : p.trim.report text = trimmedEnd (p.report text) := by
  have h : Finishes (p.roster.pending + 1) 0 (.report text) ⟨p, []⟩ (p.report text) :=
    Work.finishes_report (fun _ _ _ => Work.finishes_tellAt) text (by simp)
  have h' : Finishes (p.trim.roster.pending + 1) 0 (.report text) ⟨p.trim, []⟩ (p.trim.report text) :=
    Work.finishes_report (fun _ _ _ => Work.finishes_tellAt) text (by simp)
  exact h'.unique h.trim

theorem parse_trim : p.trim.parse text = trimmedEnd (p.parse text) := by
  have h : Finishes (p.roster.pending + 1) 0 (.parse text) ⟨p, []⟩ (withoutValue (p.parse text)) :=
    Work.finishes_parse (fun _ _ _ => Work.finishes_tellAt) text (by simp)
  have h' : Finishes (p.trim.roster.pending + 1) 0 (.parse text) ⟨p.trim, []⟩
      (withoutValue (p.trim.parse text)) :=
    Work.finishes_parse (fun _ _ _ => Work.finishes_tellAt) text (by simp)
  have hsame : withoutValue (p.trim.parse text) = withoutValue (trimmedEnd (p.parse text)) := h'.unique h.trim
  exact eq_of_withoutValue (fun _ => parse?_of_parse) (fun _ => parse?_of_parse (p := p)) hsame

end Parser

end Stylesheet
