import Stylesheet.Proofs.Endings
import Stylesheet.Proofs.Latest

/-!
# How deep calls nest

Some listeners register, report or parse in their first call only. Such a listener is out of the way
once its first call begins, so each call that stands inside of another has used up one of those that
had still to act, the innermost one excepted.
-/

namespace Stylesheet

/-! ## Listeners that act once -/

/-- Whether a deed makes the parser do something. -/
def Deed.acts : Deed → Bool
  | look => false
  | raise _ => false
  | register _ => true
  | report _ => true
  | parse _ _ => true
  | quietly deed => deed.acts

namespace Action

/-- Whether any call makes the parser do something. -/
def acts : Action → Bool
  | always _ => false
  | perform deed next => deed.acts || next.acts
  | enlist _ _ _ _ => true
  | pause next => next.acts

/-- Only the first call acts, and the listeners that it registers never do. -/
def ActsOnce : Action → Prop
  | always _ => True
  | perform _ next => next.ActsOnce
  | enlist _ _ action next => action.acts = false ∧ next.ActsOnce
  | pause next => next.acts = false

variable {a : Action}

theorem actsOnce_of_acts (h : a.acts = false) : a.ActsOnce := by
  induction a with
  | always habit => trivial
  | perform deed next ih =>
    simp only [acts, Bool.or_eq_false_iff] at h
    exact ih h.2
  | enlist event suffix action next _ ih => cases h
  | pause next => exact h

theorem ActsOnce.rest_acts (h : a.ActsOnce) : a.rest.acts = false := by
  induction a with
  | always habit => rfl
  | perform deed next ih => exact ih h
  | enlist event suffix action next _ ih => exact ih h.2
  | pause next => exact h

end Action

namespace Roster

variable {r : Roster} {e : Event} {l : Listener} {place : Nat}

/-- Every listener has only its next call to act in. -/
def ActOnce (r : Roster) : Prop := ∀ e, ∀ l ∈ r.of e, l.action.ActsOnce

/-- How many listeners have still to act. -/
def acting (r : Roster) : Nat :=
  r.ruleAdded.countP (·.action.acts) + r.errorFound.countP (·.action.acts) +
    r.parseCompleted.countP (·.action.acts)

theorem acting_modify (r : Roster) (f : List Listener → List Listener) (e : Event) :
    (r.modify f e).acting + (r.of e).countP (·.action.acts) =
      r.acting + (f (r.of e)).countP (·.action.acts) := by
  cases e <;> simp only [acting, modify, of] <;> omega

theorem acting_add (h : l.action.acts = false) (r : Roster) (e : Event) :
    (r.add e l).acting = r.acting := by
  have hmodify := acting_modify r (· ++ [l]) e
  rw [List.countP_append, List.countP_singleton, h] at hmodify
  simpa [add] using hmodify

theorem countP_modify {ls : List Listener} (h : ls[place]? = some l) (hl : l.action.ActsOnce) :
    (ls.modify place Listener.afterCall).countP (·.action.acts) + l.action.acts.toNat =
      ls.countP (·.action.acts) := by
  induction ls generalizing place with
  | nil => simp at h
  | cons m ls ih =>
    cases place with
    | zero =>
      obtain rfl : m = l := by simpa using h
      have hrest : m.afterCall.action.acts = false := hl.rest_acts
      simp only [List.modify_zero_cons, List.countP_cons, hrest]
      cases m.action.acts <;> rfl
    | succ place =>
      have hls : ls[place]? = some l := by simpa using h
      have hplace := ih hls
      simp only [List.modify_succ_cons, List.countP_cons]
      omega

/-- A listener that is called has acted. -/
theorem acting_advance (h : (r.of e)[place]? = some l) (hl : l.action.ActsOnce) :
    (r.advance e place).acting + l.action.acts.toNat = r.acting := by
  have hmodify := acting_modify r (·.modify place Listener.afterCall) e
  have hcount := countP_modify h hl
  rw [advance]
  omega

theorem ActOnce.add (h : r.ActOnce) (hl : l.action.ActsOnce) (e : Event) : (r.add e l).ActOnce := by
  intro e' m hm
  rw [of_add] at hm
  split at hm
  · rcases List.mem_append.mp hm with hm | hm
    · exact h e m hm
    · rwa [List.mem_singleton.mp hm]
  · exact h e' m hm

theorem ActOnce.advance (h : r.ActOnce) (e : Event) (place : Nat) : (r.advance e place).ActOnce := by
  intro e' m hm
  rw [of_advance] at hm
  split at hm
  · obtain ⟨i, hi⟩ := List.mem_iff_getElem?.mp hm
    rw [List.getElem?_modify, Option.map_eq_map, Option.map_eq_some_iff] at hi
    obtain ⟨l, hl, rfl⟩ := hi
    have honce := h e l (List.mem_of_getElem? hl)
    split
    · exact Action.actsOnce_of_acts honce.rest_acts
    · exact honce
  · exact h e' m hm

end Roster

/-! ## Tasks among listeners that act once -/

namespace Task

/-- Whether the parser may have to call listeners for a task. -/
def acts : Task → Bool
  | report _ => true
  | parse _ => true
  | tellAll _ => true
  | round _ _ _ => true
  | deed _ d => d.acts
  | perform _ action => action.acts

def ActsOnce : Task → Prop
  | perform _ action => action.ActsOnce
  | _ => True

end Task

variable {limit depth place : Nat} {e : Event} {notice : Notice} {l : Listener}
  {task task₁ task₂ : Task} {w w₁ : World} {ended ended' : Except Raised Unit × World}

/-- A task has left no more listeners to act than there were, and came to its end within every limit
that has a call for each of these and one more. -/
structure Settled (limit depth : Nat) (task : Task) (w : World)
    (ended : Except Raised Unit × World) : Prop where
  actOnce : ended.2.parser.roster.ActOnce
  acting_le : ended.2.parser.roster.acting ≤ w.parser.roster.acting
  finishes : (task.acts → depth + w.parser.roster.acting < limit) → Finishes limit depth task w ended

namespace Settled

theorem still (hw : w.parser.roster.ActOnce) (hroster : ended.2.parser.roster = w.parser.roster)
    (h : Finishes limit depth task w ended) : Settled limit depth task w ended :=
  ⟨hroster ▸ hw, Nat.le_of_eq (congrArg Roster.acting hroster), fun _ => h⟩

theorem wrap (h : Settled limit depth task₁ w₁ ended')
    (hw : w₁.parser.roster.acting = w.parser.roster.acting)
    (hended : ended.2.parser.roster = ended'.2.parser.roster) (hacts : task₁.acts → task.acts)
    (hfinishes : Finishes limit depth task₁ w₁ ended' → Finishes limit depth task w ended) :
    Settled limit depth task w ended := by
  refine ⟨hended ▸ h.actOnce, ?_, fun hroom => hfinishes (h.finishes fun ht => ?_)⟩
  · rw [hended, ← hw]
    exact h.acting_le
  · rw [hw]
    exact hroom (hacts ht)

theorem trans (h₁ : Settled limit depth task₁ w (.ok (), w₁))
    (h₂ : Settled limit depth task₂ w₁ ended) (hacts₁ : task₁.acts → task.acts)
    (hacts₂ : task₂.acts → task.acts)
    (hfinishes : Finishes limit depth task₁ w (.ok (), w₁) → Finishes limit depth task₂ w₁ ended →
      Finishes limit depth task w ended) : Settled limit depth task w ended := by
  have hle : w₁.parser.roster.acting ≤ w.parser.roster.acting := h₁.acting_le
  refine ⟨h₂.actOnce, Nat.le_trans h₂.acting_le hle, fun hroom => hfinishes ?_ ?_⟩
  · exact h₁.finishes fun ht => hroom (hacts₁ ht)
  · refine h₂.finishes fun ht => ?_
    have hroom := hroom (hacts₂ ht)
    omega

/-- A listener has acted as soon as its call begins. What it does has one call less for itself, and one
listener less that has still to act. -/
theorem called (h : Settled limit (depth + 1) (.perform l.id l.action)
      (w.called depth e notice place l) ended)
    (hl : (w.parser.roster.of e)[place]? = some l) (honce : l.action.ActsOnce) :
    ended.2.parser.roster.acting ≤ w.parser.roster.acting ∧
      (depth + w.parser.roster.acting < limit →
        Finishes limit (depth + 1) (.perform l.id l.action) (w.called depth e notice place l)
          ended) := by
  have hacted : (w.called depth e notice place l).parser.roster.acting + l.action.acts.toNat =
    w.parser.roster.acting := Roster.acting_advance hl honce
  have hle := h.acting_le
  refine ⟨by omega, fun hroom => h.finishes fun hacts => ?_⟩
  have hone : l.action.acts.toNat = 1 := congrArg Bool.toNat hacts
  omega

/-- Within the limit, only one end is possible. -/
theorem finishes_iff (h : Settled (depth + w.parser.roster.acting + 1) depth task w ended) :
    Finishes (depth + w.parser.roster.acting + 1) depth task w ended' ↔ ended' = ended := by
  have hfinishes := h.finishes fun _ => Nat.lt_succ_self _
  constructor
  · exact fun h' => h'.unique hfinishes
  · rintro rfl
    exact hfinishes

theorem depth_lt (h : Settled limit depth task w ended)
    (hroom : depth + w.parser.roster.acting < limit) {c : Call} (hc : .called c ∈ ended.2.history) :
    .called c ∈ w.history ∨ c.depth < limit :=
  (h.finishes fun _ => hroom).depth_lt hc

end Settled

theorem actOnce_registered {id : Text} {action : Action} (hw : w.parser.roster.ActOnce)
    (hl : action.ActsOnce) (event : Text) :
    (w.registered event ⟨id, action⟩).parser.roster.ActOnce := by
  unfold World.registered
  split
  · exact hw
  · exact hw.add hl _

theorem acting_registered {id : Text} {action : Action} (hl : action.acts = false) (event : Text)
    (w : World) :
    (w.registered event ⟨id, action⟩).parser.roster.acting = w.parser.roster.acting := by
  unfold World.registered
  split
  · rfl
  · exact Roster.acting_add hl w.parser.roster _

theorem roster_keptBy (id : Text) (ended : Except Raised Unit × World) :
    (keptBy id ended).2.parser.roster = ended.2.parser.roster := by
  rcases ended with ⟨(e | other) | ⟨⟩, w⟩ <;> rfl

theorem Finishes.settled {limit' : Nat} (h : Finishes limit' depth task w ended)
    (hw : w.parser.roster.ActOnce) (htask : task.ActsOnce) : Settled limit depth task w ended := by
  -- On the derivation. All along, who is on the roster acts once, so every call that acts takes one from
  -- those that had still to act, and leaves room for one call fewer.
  induction h with
  | report _ ih => exact (ih hw trivial).wrap rfl rfl id .report
  | parse _ ih => exact (ih hw trivial).wrap rfl rfl id .parse
  | parseBroken _ ih => exact (ih hw trivial).wrap rfl rfl id .parseBroken
  | told => exact .still hw rfl .told
  | tell _ _ ih ihrest =>
    have hfirst := ih hw trivial
    exact hfirst.trans (ihrest hfirst.actOnce trivial) id id .tell
  | tellBroken _ ih => exact (ih hw trivial).wrap rfl rfl id .tellBroken
  | roundOver hl => exact .still hw rfl (.roundOver hl)
  | call hl _ _ _ ih ihrest =>
    have honce := hw _ _ (List.mem_of_getElem? hl)
    have hcall := ih (hw.advance _ _) honce
    have hrest := ihrest hcall.actOnce trivial
    obtain ⟨hle, hcalled⟩ := hcall.called hl honce
    simp only at hle
    refine ⟨hrest.actOnce, Nat.le_trans hrest.acting_le hle, fun hroom => ?_⟩
    have hroom := hroom rfl
    exact .call hl (by omega) (hcalled hroom) (hrest.finishes fun _ => by omega)
  | callBroken hl _ _ ih =>
    have honce := hw _ _ (List.mem_of_getElem? hl)
    have hcall := ih (hw.advance _ _) honce
    obtain ⟨hle, hcalled⟩ := hcall.called hl honce
    refine ⟨hcall.actOnce, hle, fun hroom => ?_⟩
    have hroom := hroom rfl
    exact .callBroken hl (by omega) (hcalled hroom)
  | record => exact .still hw rfl .record
  | look => exact .still hw rfl .look
  | raise => exact .still hw rfl .raise
  | pause => exact .still hw rfl .pause
  | perform _ _ ih ihrest =>
    have hdeed := ih hw trivial
    refine hdeed.trans (ihrest hdeed.actOnce htask) ?_ ?_ .perform <;>
      simp +contextual [Task.acts, Action.acts]
  | performBroken _ ih =>
    refine (ih hw trivial).wrap rfl rfl ?_ .performBroken
    simp +contextual [Task.acts, Action.acts]
  | enlist _ ih =>
    obtain ⟨hnever, hnext⟩ := htask
    have hlater := ih (actOnce_registered hw (Action.actsOnce_of_acts hnever) _) hnext
    exact hlater.wrap (acting_registered hnever _ _) rfl (fun _ => rfl) .enlist
  | lookOnce => exact .still hw rfl .lookOnce
  | raiseOnce => exact .still hw rfl .raiseOnce
  | register =>
    have hnever : Action.record.acts = false := rfl
    refine ⟨?_, ?_, fun _ => .register⟩
    · exact actOnce_registered hw (Action.actsOnce_of_acts hnever) _
    · exact Nat.le_of_eq (acting_registered hnever _ _)
  | reportOnce _ ih => exact (ih hw trivial).wrap rfl rfl id .reportOnce
  | parseOnce _ ih => exact (ih hw trivial).wrap rfl rfl id .parseOnce
  | parseAndKeep _ ih => exact (ih hw trivial).wrap rfl (roster_keptBy _ _) id .parseAndKeep
  | quietly _ ih => exact (ih hw trivial).wrap rfl rfl id .quietly

/-! ## Parses and reports -/

namespace Work

variable (h : w.parser.roster.ActOnce)
include h

theorem settled_parse (limit depth : Nat) (text : Text) :
    Settled limit depth (.parse text) w
      (withoutValue ((Work.parse (tellAt depth) text).run.run w)) :=
  (finishes_parse (fun _ _ _ => finishes_tellAt) text (Nat.lt_succ_self _)).settled h trivial

theorem settled_report (limit depth : Nat) (text : Text) :
    Settled limit depth (.report text) w ((report (tellAt depth) text).run.run w) :=
  (finishes_report (fun _ _ _ => finishes_tellAt) text (Nat.lt_succ_self _)).settled h trivial

end Work

/-- A request that registers nobody who acts later than in the first call. -/
def Request.ActsOnce : Request → Prop
  | .register _ l => l.action.ActsOnce
  | .report _ => True
  | .parse _ => True

namespace Parser

theorem actOnce_serve {p : Parser} {r : Request} (hp : p.roster.ActOnce) (hr : r.ActsOnce) :
    (p.serve r).parser.roster.ActOnce := by
  cases r with
  | register event l =>
    rw [serve, register, Work.runOn, Work.register_run]
    exact actOnce_registered hp hr event
  | report text => exact (Work.settled_report (w := ⟨p, []⟩) hp 0 0 text).actOnce
  | parse text => exact (Work.settled_parse (w := ⟨p, []⟩) hp 0 0 text).actOnce

theorem actOnce_serveAll {p : Parser} {rs : List Request} (hp : p.roster.ActOnce)
    (hrs : ∀ r ∈ rs, r.ActsOnce) : (p.serveAll rs).parser.roster.ActOnce := by
  induction rs generalizing p with
  | nil => exact hp
  | cons r rs ih =>
    have hfirst := actOnce_serve hp (hrs r List.mem_cons_self)
    exact ih hfirst fun r' hr' => hrs r' (List.mem_cons_of_mem r hr')

end Parser

namespace Work

/-- Wherever listeners act once, a parse and a report come to an end, and this is the end that the
parser computes. Inside of the calls that were under way before, there are at no time more calls than
one for each listener that had still to act, and one more. Afterwards listeners act once again, and so
they do after all requests that register no others. -/
theorem finishes_of_actOnce (depth : Nat) (w : World) (text : Text)
    (h : w.parser.roster.ActOnce) :
    let limit := depth + w.parser.roster.acting + 1
    let parsed := (Work.parse (tellAt depth) text).run.run w
    let reported := (report (tellAt depth) text).run.run w
    (∀ ended, Finishes limit depth (.parse text) w ended ↔ ended = withoutValue parsed) ∧
    (∀ ended, Finishes limit depth (.report text) w ended ↔ ended = reported) ∧
    (∀ c, .called c ∈ parsed.2.history → .called c ∈ w.history ∨ c.depth < limit) ∧
    (∀ c, .called c ∈ reported.2.history → .called c ∈ w.history ∨ c.depth < limit) ∧
    parsed.2.parser.roster.ActOnce ∧ reported.2.parser.roster.ActOnce ∧
    ∀ rs : List Request, (∀ r ∈ rs, r.ActsOnce) →
      (w.parser.serveAll rs).parser.roster.ActOnce := by
  intro limit parsed reported
  have hparsed := settled_parse h limit depth text
  have hreported := settled_report h limit depth text
  have hroom : depth + w.parser.roster.acting < limit := Nat.lt_succ_self _
  exact ⟨fun ended => hparsed.finishes_iff, fun ended => hreported.finishes_iff,
    fun c hc => hparsed.depth_lt hroom hc, fun c hc => hreported.depth_lt hroom hc, hparsed.actOnce,
    hreported.actOnce, fun rs hrs => Parser.actOnce_serveAll h hrs⟩

/-- A listener that parses a rejected text the first time it is told of an error is called again from
inside this call. -/
theorem finishes_of_own_call :
    let l : Listener := ⟨['a'], .once (.parse ['}'] false)⟩
    let w : World := ⟨⟨.empty, ⟨[], [l], []⟩⟩, []⟩
    let reported := (report tell ['b']).run.run w
    w.parser.roster.ActOnce ∧ w.parser.roster.acting = 1 ∧
    (∀ ended, Finishes 2 0 (.report ['b']) w ended ↔ ended = reported) ∧
    (∀ c, .called c ∈ reported.2.history → .called c ∈ w.history ∨ c.depth < 2) ∧
    ∃ m ∈ reported.2.history, m.depth? = some 1 := by
  intro l w reported
  have honce : w.parser.roster.ActOnce := by
    rintro (_ | _ | _) l hl
    · cases hl
    · obtain rfl := List.mem_singleton.mp hl
      trivial
    · cases hl
  obtain ⟨-, hreported, -, hcalls, -⟩ := finishes_of_actOnce 0 w ['b'] honce
  exact ⟨honce, rfl, hreported, hcalls, by decide +kernel⟩

end Work

end Stylesheet
