import Stylesheet.Proofs.Rounds

/-!
# Runs that come to an end

What a parser does, rule by rule. No rule bounds how long a round goes on while listeners are added to
it, or how deep calls nest. A derivation is finite, so what can be derived comes to an end. Every run
does, and its end is the one that the parser computes.
-/

namespace Stylesheet

/-! ## Tasks -/

/-- What a parser can be busy with. -/
inductive Task
  | report (text : Text)
  | parse (text : Text)
  | tellAll (ns : List (Event × Notice))
  /-- The round of an event, from a place on. -/
  | round (e : Event) (notice : Notice) (place : Nat)
  | deed (id : Text) (deed : Deed)
  | perform (id : Text) (action : Action)

namespace World

/-- The world in which a listener begins with its deeds. -/
def called (depth : Nat) (e : Event) (notice : Notice) (place : Nat) (l : Listener) (w : World) :
    World :=
  (w.note (.called ⟨depth, e, place, l.id, notice, w.parser.sheet⟩)).setRoster (·.advance e place)

def registered (event : Text) (l : Listener) (w : World) : World :=
  match Event.ofName? event with
  | none => w
  | some e => (w.setRoster (·.add e l)).note (.logged (.listenerRegistered event))

end World

/-- An end of work without its value. -/
def withoutValue {α : Type} (ended : Except Raised α × World) : Except Raised Unit × World :=
  (ended.1.map fun _ => (), ended.2)

/-- What a listener that keeps rejections to itself makes of the end of a parse. -/
def keptBy (id : Text) : Except Raised Unit × World → Except Raised Unit × World
  | (.ok (), w) => (.ok (), w)
  | (.error (.rejected e), w) => (.ok (), w.note (.caught id e.kind))
  | (.error (.byListener other), w) => (.error (.byListener other), w)

/-- Inside of `depth` calls of listeners, a task that is begun in a world comes to this end, and at no
time there are more than `limit` calls under way. -/
inductive Finishes (limit : Nat) : Nat → Task → World → Except Raised Unit × World → Prop
  | report {depth : Nat} {text : Text} {w : World} {ended : Except Raised Unit × World} :
      Finishes limit depth (.round .errorFound (.error text) 0)
        (w.note (.logged (.errorReported text))) ended →
      Finishes limit depth (.report text) w ended
  | parse {depth : Nat} {text : Text} {w w₁ : World} :
      Finishes limit depth (.tellAll (Sheet.notices text)) (w.opened text) (.ok (), w₁) →
      Finishes limit depth (.parse text) w (withoutValue (Sheet.ending text, w₁.closed text))
  | parseBroken {depth : Nat} {text : Text} {w w₁ : World} {error : Raised} :
      Finishes limit depth (.tellAll (Sheet.notices text)) (w.opened text) (.error error, w₁) →
      Finishes limit depth (.parse text) w (.error error, w₁)
  | told {depth : Nat} {w : World} : Finishes limit depth (.tellAll []) w (.ok (), w)
  | tell {depth : Nat} {n : Event × Notice} {ns : List (Event × Notice)} {w w₁ : World}
      {ended : Except Raised Unit × World} :
      Finishes limit depth (.round n.1 n.2 0) w (.ok (), w₁) →
      Finishes limit depth (.tellAll ns) w₁ ended → Finishes limit depth (.tellAll (n :: ns)) w ended
  | tellBroken {depth : Nat} {n : Event × Notice} {ns : List (Event × Notice)} {w w₁ : World}
      {error : Raised} :
      Finishes limit depth (.round n.1 n.2 0) w (.error error, w₁) →
      Finishes limit depth (.tellAll (n :: ns)) w (.error error, w₁)
  /-- A round is over where the list ends, as long as the list is then. -/
  | roundOver {depth place : Nat} {e : Event} {notice : Notice} {w : World} :
      (w.parser.roster.of e)[place]? = none →
      Finishes limit depth (.round e notice place) w (.ok (), w)
  | call {depth place : Nat} {e : Event} {notice : Notice} {l : Listener} {w w₁ : World}
      {ended : Except Raised Unit × World} :
      (w.parser.roster.of e)[place]? = some l → depth < limit →
      Finishes limit (depth + 1) (.perform l.id l.action) (w.called depth e notice place l)
        (.ok (), w₁) →
      Finishes limit depth (.round e notice (place + 1)) w₁ ended →
      Finishes limit depth (.round e notice place) w ended
  | callBroken {depth place : Nat} {e : Event} {notice : Notice} {l : Listener} {w w₁ : World}
      {error : Raised} :
      (w.parser.roster.of e)[place]? = some l → depth < limit →
      Finishes limit (depth + 1) (.perform l.id l.action) (w.called depth e notice place l)
        (.error error, w₁) →
      Finishes limit depth (.round e notice place) w (.error error, w₁.note (.escaped depth error))
  | record {depth : Nat} {id : Text} {w : World} :
      Finishes limit depth (.perform id (.always .record)) w (.ok (), w)
  | look {depth : Nat} {id : Text} {w : World} :
      Finishes limit depth (.perform id (.always .look)) w
        (.ok (), w.note (.shown id w.parser.sheet.text))
  | raise {depth : Nat} {id : Text} {w : World} :
      Finishes limit depth (.perform id (.always .raise)) w (.error (.byListener id), w)
  | pause {depth : Nat} {id : Text} {next : Action} {w : World} :
      Finishes limit depth (.perform id (.pause next)) w (.ok (), w)
  | perform {depth : Nat} {id : Text} {deed : Deed} {next : Action} {w w₁ : World}
      {ended : Except Raised Unit × World} :
      Finishes limit depth (.deed id deed) w (.ok (), w₁) →
      Finishes limit depth (.perform id next) w₁ ended →
      Finishes limit depth (.perform id (.perform deed next)) w ended
  | performBroken {depth : Nat} {id : Text} {deed : Deed} {next : Action} {w w₁ : World}
      {error : Raised} :
      Finishes limit depth (.deed id deed) w (.error error, w₁) →
      Finishes limit depth (.perform id (.perform deed next)) w (.error error, w₁)
  | enlist {depth : Nat} {id event suffix : Text} {action next : Action} {w : World}
      {ended : Except Raised Unit × World} :
      Finishes limit depth (.perform id next) (w.registered event ⟨id ++ suffix, action⟩) ended →
      Finishes limit depth (.perform id (.enlist event suffix action next)) w ended
  | lookOnce {depth : Nat} {id : Text} {w : World} :
      Finishes limit depth (.deed id .look) w (.ok (), w.note (.seen id w.parser.sheet))
  | raiseOnce {depth : Nat} {id : Text} {error : Raised} {w : World} :
      Finishes limit depth (.deed id (.raise error)) w (.error error, w)
  | register {depth : Nat} {id event : Text} {w : World} :
      Finishes limit depth (.deed id (.register event)) w
        (.ok (), w.registered event ⟨id ++ ['+'], .record⟩)
  | reportOnce {depth : Nat} {id text : Text} {w : World} {ended : Except Raised Unit × World} :
      Finishes limit depth (.report text) w ended →
      Finishes limit depth (.deed id (.report text)) w ended
  | parseOnce {depth : Nat} {id text : Text} {w : World} {ended : Except Raised Unit × World} :
      Finishes limit depth (.parse text) w ended →
      Finishes limit depth (.deed id (.parse text false)) w ended
  | parseAndKeep {depth : Nat} {id text : Text} {w : World} {ended : Except Raised Unit × World} :
      Finishes limit depth (.parse text) w ended →
      Finishes limit depth (.deed id (.parse text true)) w (keptBy id ended)
  | quietly {depth : Nat} {id : Text} {deed : Deed} {w : World} {ended : Except Raised Unit × World} :
      Finishes limit depth (.deed id deed) w ended →
      Finishes limit depth (.deed id (.quietly deed)) w (.ok (), ended.2)

variable {limit depth place : Nat} {e : Event} {notice : Notice} {l : Listener} {w : World}

/-! ## The parser's own run -/

namespace Work

theorem register_run (event : Text) (l : Listener) (w : World) :
    (register event l).run.run w = (.ok (), w.registered event l) := by
  unfold register World.registered
  cases Event.ofName? event <;> rfl

theorem report_run (tell : Telling) (text : Text) (w : World) :
    (report tell text).run.run w =
      (tell .errorFound (.error text)).run.run (w.note (.logged (.errorReported text))) := rfl

theorem parse_run_withoutValue (tell : Telling) (text : Text) (w : World) :
    (do let _ ← Work.parse tell text : Work Unit).run.run w =
      withoutValue ((Work.parse tell text).run.run w) := by
  rw [run_bind]
  rcases (Work.parse tell text).run.run w with ⟨error | s, w₁⟩ <;> rfl

theorem doDeed_keep_run (tell : Telling) (id text : Text) (w : World) :
    (doDeed tell id (.parse text true)).run.run w =
      keptBy id (withoutValue ((Work.parse tell text).run.run w)) := by
  simp only [doDeed, run_tryCatch, parse_run_withoutValue]
  rcases (Work.parse tell text).run.run w with ⟨(e | other) | s, w₁⟩ <;> rfl

theorem doDeed_quietly_run (tell : Telling) (id : Text) (deed : Deed) (w : World) :
    (doDeed tell id (.quietly deed)).run.run w = (.ok (), ((doDeed tell id deed).run.run w).2) := by
  simp only [doDeed, run_tryCatch]
  rcases (doDeed tell id deed).run.run w with ⟨error | ⟨⟩, w₁⟩ <;> rfl

/-- So many turns of a round, from a place on. -/
def turns (depth : Nat) (e : Event) (notice : Notice) (place n : Nat) : Work Unit :=
  (List.range' place n).forM (call (tellAt (depth + 1)) depth e notice)

theorem tellAt_run_turns (depth : Nat) (e : Event) (notice : Notice) (w : World) :
    (tellAt depth e notice).run.run w =
      (turns depth e notice 0 ((w.parser.roster.of e).length + w.parser.roster.pending)).run.run w := by
  rw [tellAt_eq, visit_run, List.range_eq_range', turns]

theorem turns_succ_run (h : (w.parser.roster.of e)[place]? = some l) (n : Nat) :
    (turns depth e notice place (n + 1)).run.run w =
      match (perform (tellAt (depth + 1)) l.id l.action).run.run (w.called depth e notice place l) with
      | (.ok (), w₁) => (turns depth e notice (place + 1) n).run.run w₁
      | (.error error, w₁) => (.error error, w₁.note (.escaped depth error)) := by
  rw [turns, List.range'_succ, List.forM, run_bind, call_run h, act_run, World.called]
  generalize (perform _ _ _).run.run _ = ended
  rcases ended with ⟨error | ⟨⟩, w₁⟩ <;> rfl

theorem turns_of_none (h : (w.parser.roster.of e)[place]? = none) (n : Nat) :
    (turns depth e notice place n).run.run w = (.ok (), w) :=
  forM_call_of_length_le n (List.getElem?_eq_none_iff.mp h)

/-- A call pays for all that it does. -/
theorem gauge_called (g : Gauge) (depth : Nat) (notice : Notice)
    (h : (w.parser.roster.of e)[place]? = some l) :
    g.value ((perform (tellAt (depth + 1)) l.id l.action).run.run
      (w.called depth e notice place l)).2.parser.roster ≤ g.value w.parser.roster := by
  have hturn := g.law.perform (g.law.tellAt (Nat.zero_le (depth + 1))) l.id l.action
    (w.called depth e notice place l)
  exact Nat.le_trans hturn (g.advance w.parser.roster e place l h)

/-! ## Every run comes to an end -/

section

variable (htell : ∀ e notice w, depth + w.parser.roster.pending < limit →
  Finishes limit depth (.round e notice 0) w ((tellAt depth e notice).run.run w))
include htell

theorem finishes_report (text : Text) (h : depth + w.parser.roster.pending < limit) :
    Finishes limit depth (.report text) w ((report (tellAt depth) text).run.run w) := by
  rw [report_run]
  exact .report (htell .errorFound (.error text) (w.note (.logged (.errorReported text))) h)

theorem finishes_tellAll (ns : List (Event × Notice))
    (h : depth + w.parser.roster.pending < limit) :
    Finishes limit depth (.tellAll ns) w ((tellAll (tellAt depth) ns).run.run w) := by
  induction ns generalizing w with
  | nil => exact .told
  | cons n ns ih =>
    have hfirst := htell n.1 n.2 w h
    have hcost := Gauge.pending.law.tellAt (Nat.zero_le depth) n.1 n.2 w
    rw [tellAll_cons, run_bind]
    rcases hrun : (tellAt depth n.1 n.2).run.run w with ⟨error | ⟨⟩, w₁⟩ <;>
      rw [hrun] at hfirst hcost
    · exact .tellBroken hfirst
    · have hleft : w₁.parser.roster.pending ≤ w.parser.roster.pending := hcost
      exact .tell hfirst (ih (by omega))

theorem finishes_parse (text : Text) (h : depth + w.parser.roster.pending < limit) :
    Finishes limit depth (.parse text) w
      (withoutValue ((Work.parse (tellAt depth) text).run.run w)) := by
  have htold := finishes_tellAll htell (w := w.opened text) (Sheet.notices text) h
  rw [parse_run]
  rcases hrun : (tellAll (tellAt depth) (Sheet.notices text)).run.run (w.opened text) with
    ⟨error | ⟨⟩, w₁⟩ <;> rw [hrun] at htold
  · exact .parseBroken htold
  · exact .parse htold

theorem finishes_deed (id : Text) (deed : Deed) (h : depth + w.parser.roster.pending < limit) :
    Finishes limit depth (.deed id deed) w ((doDeed (tellAt depth) id deed).run.run w) := by
  induction deed with
  | look => exact .lookOnce
  | raise error => exact .raiseOnce
  | register event =>
    rw [doDeed, register_run]
    exact .register
  | report text => exact .reportOnce (finishes_report htell text h)
  | parse text catching =>
    have hparse := finishes_parse htell text h
    cases catching with
    | false =>
      rw [doDeed, parse_run_withoutValue]
      exact .parseOnce hparse
    | true =>
      rw [doDeed_keep_run]
      exact .parseAndKeep hparse
  | quietly deed ih =>
    rw [doDeed_quietly_run]
    exact .quietly ih

/-- A call that is under way has the deeds of its turn in hand. -/
theorem finishes_perform (id : Text) (action : Action)
    (h : depth + w.parser.roster.pending + action.turn ≤ limit) :
    Finishes limit depth (.perform id action) w
      ((perform (tellAt depth) id action).run.run w) := by
  induction action generalizing w with
  | always habit =>
    cases habit with
    | record => exact .record
    | look => exact .look
    | raise => exact .raise
  | perform deed next ih =>
    simp only [Action.turn] at h
    have hdeed := finishes_deed htell (w := w) id deed (by omega)
    have hcost := Gauge.pending.law.doDeed (Gauge.pending.law.tellAt (Nat.zero_le depth)) id deed w
    rw [Work.perform, run_bind]
    rcases hrun : (doDeed (tellAt depth) id deed).run.run w with ⟨error | ⟨⟩, w₁⟩ <;>
      rw [hrun] at hdeed hcost
    · exact .performBroken hdeed
    · have hleft : w₁.parser.roster.pending ≤ w.parser.roster.pending + 1 := hcost
      exact .perform hdeed (ih (by omega))
  | enlist event suffix action next _ ih =>
    simp only [Action.turn] at h
    have hcost := costs_register (g := .pending) event ⟨id ++ suffix, action⟩ w
    rw [register_run] at hcost
    have hleft : (w.registered event ⟨id ++ suffix, action⟩).parser.roster.pending ≤
      w.parser.roster.pending + (action.size + 1) := hcost
    rw [Work.perform, run_bind_of_ok (register_run _ _ w)]
    exact .enlist (ih (by omega))
  | pause next => exact .pause

end

theorem finishes_turns
    (hperform : ∀ id action w, depth + 1 + w.parser.roster.pending + action.turn ≤ limit →
      Finishes limit (depth + 1) (.perform id action) w
        ((perform (tellAt (depth + 1)) id action).run.run w))
    {n : Nat} (h : depth + w.parser.roster.pending < limit)
    (hplaces : (w.parser.roster.of e).length + w.parser.roster.pending ≤ place + n) :
    Finishes limit depth (.round e notice place) w ((turns depth e notice place n).run.run w) := by
  -- On the turns left. A round that has none left has come behind the last place.
  induction n generalizing place w with
  | zero => exact .roundOver (List.getElem?_eq_none (by omega))
  | succ n ih =>
    cases hl : (w.parser.roster.of e)[place]? with
    | none =>
      rw [turns_of_none hl]
      exact .roundOver hl
    | some l =>
      have hturn : (w.called depth e notice place l).parser.roster.pending + l.action.turn =
        w.parser.roster.pending := Roster.pending_advance hl
      have hcalled := hperform l.id l.action (w.called depth e notice place l) (by omega)
      have hpending := gauge_called .pending depth notice hl
      have hlength := gauge_called (.places e) depth notice hl
      rw [turns_succ_run hl]
      rcases hrun : (perform (tellAt (depth + 1)) l.id l.action).run.run
        (w.called depth e notice place l) with ⟨error | ⟨⟩, w₁⟩ <;>
        rw [hrun] at hcalled hpending hlength
      · exact .callBroken hl (by omega) hcalled
      · simp only [Gauge.pending, Gauge.places] at hpending hlength
        exact .call hl (by omega) hcalled (ih (by omega) (by omega))

theorem finishes_tellAt (h : depth + w.parser.roster.pending < limit) :
    Finishes limit depth (.round e notice 0) w ((tellAt depth e notice).run.run w) := by
  -- On the calls that can still begin inside of each other.
  induction hlevels : limit - depth generalizing depth e notice w with
  | zero => omega
  | succ levels ih =>
    have hinner : ∀ e notice w, depth + 1 + w.parser.roster.pending < limit →
        Finishes limit (depth + 1) (.round e notice 0) w
          ((tellAt (depth + 1) e notice).run.run w) :=
      fun e notice w hw => ih hw (by omega)
    rw [tellAt_run_turns]
    exact finishes_turns (fun id action _ => finishes_perform hinner id action) h (by omega)

end Work

/-! ## A run has one end -/

/-- What a task comes to does not depend on how many calls may be under way. -/
theorem Finishes.unique {limit' : Nat} {task : Task} {ended ended' : Except Raised Unit × World}
    (h : Finishes limit depth task w ended) (h' : Finishes limit' depth task w ended') :
    ended = ended' := by
  -- The world in which a rule begins settles which rule it is, up to how its first part ends, and this is
  -- the same in both runs by the induction.
  induction h generalizing ended' with
  | report _ ih =>
    cases h' with
    | report h => exact ih h
  | parse _ ih =>
    cases h' with
    | parse h =>
      cases ih h
      rfl
    | parseBroken h => cases ih h
  | parseBroken _ ih =>
    cases h' with
    | parse h => cases ih h
    | parseBroken h =>
      cases ih h
      rfl
  | told =>
    cases h'
    rfl
  | tell _ _ ih ihrest =>
    cases h' with
    | tell h hrest =>
      cases ih h
      exact ihrest hrest
    | tellBroken h => cases ih h
  | tellBroken _ ih =>
    cases h' with
    | tell h => cases ih h
    | tellBroken h =>
      cases ih h
      rfl
  | roundOver hl =>
    cases h' with
    | roundOver => rfl
    | call hl' | callBroken hl' => cases hl.symm.trans hl'
  | call hl _ _ _ ih ihrest =>
    cases h' with
    | roundOver hl' => cases hl.symm.trans hl'
    | call hl' _ h hrest =>
      cases hl.symm.trans hl'
      cases ih h
      exact ihrest hrest
    | callBroken hl' _ h =>
      cases hl.symm.trans hl'
      cases ih h
  | callBroken hl _ _ ih =>
    cases h' with
    | roundOver hl' => cases hl.symm.trans hl'
    | call hl' _ h =>
      cases hl.symm.trans hl'
      cases ih h
    | callBroken hl' _ h =>
      cases hl.symm.trans hl'
      cases ih h
      rfl
  | record | look | raise | pause | lookOnce | raiseOnce | register =>
    cases h'
    rfl
  | perform _ _ ih ihrest =>
    cases h' with
    | perform h hrest =>
      cases ih h
      exact ihrest hrest
    | performBroken h => cases ih h
  | performBroken _ ih =>
    cases h' with
    | perform h => cases ih h
    | performBroken h =>
      cases ih h
      rfl
  | enlist _ ih =>
    cases h' with
    | enlist h => exact ih h
  | reportOnce _ ih =>
    cases h' with
    | reportOnce h => exact ih h
  | parseOnce _ ih =>
    cases h' with
    | parseOnce h => exact ih h
  | parseAndKeep _ ih =>
    cases h' with
    | parseAndKeep h => rw [ih h]
  | quietly _ ih =>
    cases h' with
    | quietly h => rw [ih h]

/-! ## Calls on record -/

namespace World

variable {c : Call}

theorem called_mem_note {m : Moment} (h : .called c ∈ (w.note m).history) (hm : .called c ≠ m) :
    .called c ∈ w.history := List.mem_of_ne_of_mem hm h

theorem called_mem_opened (h : .called c ∈ (w.opened text).history) : .called c ∈ w.history := by
  simpa [opened] using h

theorem called_mem_closed (h : .called c ∈ (w.closed text).history) : .called c ∈ w.history := by
  simpa [closed, noteAll] using h

theorem called_mem_registered {event : Text} (h : .called c ∈ (w.registered event l).history) :
    .called c ∈ w.history := by
  unfold registered at h
  split at h
  · exact h
  · exact called_mem_note h nofun

theorem called_mem_called (h : .called c ∈ (w.called depth e notice place l).history) :
    .called c ∈ w.history ∨ c.depth = depth := by
  rcases List.mem_cons.mp h with h | h
  · cases h
    exact .inr rfl
  · exact .inl h

end World

theorem called_mem_keptBy {id : Text} {ended : Except Raised Unit × World} {c : Call}
    (h : .called c ∈ (keptBy id ended).2.history) : .called c ∈ ended.2.history := by
  rcases ended with ⟨(e | other) | ⟨⟩, w⟩
  · exact World.called_mem_note h nofun
  · exact h
  · exact h

/-- Every call that is on record by the end was there before, or began with fewer calls than the limit
under way. -/
theorem Finishes.depth_lt {task : Task} {ended : Except Raised Unit × World}
    (h : Finishes limit depth task w ended) {c : Call} (hc : .called c ∈ ended.2.history) :
    .called c ∈ w.history ∨ c.depth < limit := by
  induction h with
  | report _ ih => exact (ih hc).elim (fun h => .inl (World.called_mem_note h nofun)) .inr
  | parse _ ih => exact (ih (World.called_mem_closed hc)).imp_left World.called_mem_opened
  | parseBroken _ ih => exact (ih hc).imp_left World.called_mem_opened
  | told | roundOver | record | raise | pause | raiseOnce => exact .inl hc
  | tell _ _ ih ihrest => exact (ihrest hc).elim ih .inr
  | tellBroken _ ih => exact ih hc
  | call _ hdepth _ _ ih ihrest =>
    rcases (ihrest hc).elim ih .inr with hc | hc
    · exact (World.called_mem_called hc).imp_right fun h => by omega
    · exact .inr hc
  | callBroken _ hdepth _ ih =>
    rcases ih (World.called_mem_note hc nofun) with hc | hc
    · exact (World.called_mem_called hc).imp_right fun h => by omega
    · exact .inr hc
  | look | lookOnce => exact .inl (World.called_mem_note hc nofun)
  | perform _ _ ih ihrest => exact (ihrest hc).elim ih .inr
  | performBroken _ ih => exact ih hc
  | enlist _ ih => exact (ih hc).imp_left World.called_mem_registered
  | register => exact .inl (World.called_mem_registered hc)
  | reportOnce _ ih | parseOnce _ ih => exact ih hc
  | parseAndKeep _ ih => exact ih (called_mem_keptBy hc)
  | quietly _ ih => exact ih hc

end Stylesheet
