import Stylesheet.Proofs.Moves

/-!
# Deeds are used up

A call takes the deeds of its turn out of the roster before it does them, and a deed puts back no more
than it took: the listener it registers, with that listener's own deeds. So no telling raises the
number of deeds that are pending, nor this number together with the places of an event.
-/

namespace Stylesheet

theorem Action.turn_add_rest (a : Action) : a.turn + a.rest.size = a.size := by
  induction a with
  | always habit => rfl
  | perform deed next ih =>
    simp only [turn, rest, size]
    omega
  | enlist event suffix action next _ ih =>
    simp only [turn, rest, size]
    omega
  | pause next => simp [turn, rest, size]

namespace Roster

variable {r : Roster} {e : Event} {l : Listener} {place : Nat}

theorem of_add (r : Roster) (e e' : Event) (l : Listener) :
    (r.add e l).of e' = if e' = e then r.of e ++ [l] else r.of e' := of_modify r _ e e'

theorem of_advance (r : Roster) (e e' : Event) (place : Nat) :
    (r.advance e place).of e' =
      if e' = e then (r.of e).modify place Listener.afterCall else r.of e' := of_modify r _ e e'

theorem deeds_append (ls ms : List Listener) : deeds (ls ++ ms) = deeds ls + deeds ms := by
  induction ls with
  | nil => simp [deeds]
  | cons l ls ih =>
    simp only [deeds, List.cons_append, List.foldr_cons] at ih ⊢
    omega

theorem pending_modify (r : Roster) (f : List Listener → List Listener) (e : Event) :
    (r.modify f e).pending + deeds (r.of e) = r.pending + deeds (f (r.of e)) := by
  cases e <;> simp only [pending, modify, of] <;> omega

theorem pending_add (r : Roster) (e : Event) (l : Listener) :
    (r.add e l).pending = r.pending + l.action.size := by
  have := pending_modify r (· ++ [l]) e
  have hone : deeds [l] = l.action.size := rfl
  rw [deeds_append, hone] at this
  rw [add]
  omega

theorem deeds_modify {ls : List Listener} (h : ls[place]? = some l) :
    deeds (ls.modify place Listener.afterCall) + l.action.turn = deeds ls := by
  induction ls generalizing place with
  | nil => simp at h
  | cons m ls ih =>
    cases place with
    | zero =>
      obtain rfl : m = l := by simpa using h
      have := m.action.turn_add_rest
      simp only [deeds, Listener.afterCall, List.modify_zero_cons, List.foldr_cons]
      omega
    | succ place =>
      have hrest : ls[place]? = some l := by simpa using h
      have := ih hrest
      simp only [deeds, List.modify_succ_cons, List.foldr_cons] at this ⊢
      omega

theorem pending_advance (h : (r.of e)[place]? = some l) :
    (r.advance e place).pending + l.action.turn = r.pending := by
  have := pending_modify r (·.modify place Listener.afterCall) e
  have := deeds_modify h
  rw [advance]
  omega

theorem length_of_advance (r : Roster) (e e' : Event) (place : Nat) :
    ((r.advance e place).of e').length = (r.of e').length := by
  rw [of_advance]
  split
  · rename_i h
    rw [List.length_modify, h]
  · rfl

end Roster

/-! ## Gauges -/

/-- A number that registering a listener raises by no more than a deed and the listener's own deeds,
and that a call lowers by the deeds of its turn. -/
structure Gauge where
  value : Roster → Nat
  add : ∀ r e l, value (r.add e l) ≤ value r + (l.action.size + 1)
  advance : ∀ r e place l, (r.of e)[place]? = some l →
    value (r.advance e place) + l.action.turn ≤ value r

namespace Gauge

def pending : Gauge where
  value := Roster.pending
  add r e l := by
    rw [Roster.pending_add]
    omega
  advance r e place l h := Nat.le_of_eq (Roster.pending_advance h)

/-- The places that an event can ever have, if every pending deed adds one. -/
def places (e : Event) : Gauge where
  value r := (r.of e).length + r.pending
  add r e' l := by
    rw [Roster.pending_add, Roster.of_add]
    split
    · rename_i h
      rw [List.length_append, List.length_singleton, h]
      omega
    · omega
  advance r e' place l h := by
    have := Roster.pending_advance h
    rw [Roster.length_of_advance]
    omega

end Gauge

/-! ## What work costs -/

namespace Work

variable {α β : Type} {g : Gauge} {m n : Nat}

/-- The work raises a gauge by no more than `n`. -/
def Costs (g : Gauge) (n : Nat) (x : Work α) : Prop :=
  ∀ w, g.value (x.run.run w).2.parser.roster ≤ g.value w.parser.roster + n

theorem Costs.mono {x : Work α} (hx : x.Costs g m) (h : m ≤ n) : x.Costs g n :=
  fun w => Nat.le_trans (hx w) (Nat.add_le_add_left h _)

theorem costs_pure (a : α) : (pure a : Work α).Costs g 0 := fun _ => Nat.le_refl _

theorem Costs.bind {x : Work α} {f : α → Work β} (hx : x.Costs g m) (hf : ∀ a, (f a).Costs g n) :
    (x >>= f).Costs g (m + n) := by
  intro w
  have hw := hx w
  rw [run_bind]
  split
  · rename_i a w₁ h
    rw [h] at hw
    have := hf a w₁
    simp only at hw
    omega
  · rename_i error w₁ h
    rw [h] at hw
    simp only at hw ⊢
    omega

theorem Costs.tryCatch {x : Work α} {f : Raised → Work α} (hx : x.Costs g n)
    (hf : ∀ error, (f error).Costs g 0) : (tryCatch x f).Costs g n := by
  intro w
  have hw := hx w
  rw [run_tryCatch]
  split
  · rename_i a w₁ h
    rwa [h] at hw
  · rename_i error w₁ h
    rw [h] at hw
    exact Nat.le_trans (hf error w₁) hw

theorem costs_register (event : Text) (l : Listener) :
    (register event l).Costs g (l.action.size + 1) := by
  intro w
  unfold register
  split
  · exact Nat.le_add_right _ _
  · rename_i e _
    exact g.add w.parser.roster e l

theorem costs_parse {tell : Telling} (text : Text) (htell : ∀ ns, (tellAll tell ns).Costs g 0) :
    (Work.parse tell text).Costs g 0 := by
  intro w
  have htold := htell (Sheet.notices text) (w.opened text)
  rw [parse_run]
  split <;> rename_i h <;> rw [h] at htold <;> exact htold

/-- The turn of a call is paid for before it begins. -/
theorem costs_call {tell : Telling} {depth : Nat}
    (hperform : ∀ id action, (perform tell id action).Costs g action.turn) (e : Event)
    (notice : Notice) (place : Nat) : (call tell depth e notice place).Costs g 0 := by
  intro w
  cases hl : (w.parser.roster.of e)[place]? with
  | none =>
    rw [call_run_of_none hl]
    exact Nat.le_refl _
  | some l =>
    have hpaid := g.advance w.parser.roster e place l hl
    have hturn := hperform l.id l.action
      ((w.note (.called ⟨depth, e, place, l.id, notice, w.parser.sheet⟩)).setRoster
        (·.advance e place))
    rw [call_run hl, act_run]
    simp only [World.setRoster, World.note] at hturn ⊢
    split <;> rename_i h <;> rw [h] at hturn <;> simp only at hturn ⊢ <;> omega

end Work

/-- Nothing that a parser does raises a gauge beyond its price. -/
def Gauge.law (g : Gauge) : Work.Law where
  Keeps n x := x.Costs g n
  floor := 0
  mono h hx := hx.mono h
  ofPure := Work.costs_pure
  ofThrow _ _ := Nat.le_refl _
  ofBind := Work.Costs.bind
  ofTryCatch := Work.Costs.tryCatch
  ofParser _ := Nat.le_refl _
  ofLog _ _ := Nat.le_refl _
  ofLook _ _ := Nat.le_refl _
  ofAsk _ _ := Nat.le_refl _
  ofKeep _ _ _ := Nat.le_refl _
  ofRegister := Work.costs_register
  ofParse := Work.costs_parse
  ofCall _ := Work.costs_call

end Stylesheet
