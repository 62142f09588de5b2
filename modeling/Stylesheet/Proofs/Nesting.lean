import Stylesheet.Proofs.Deeds

/-!
# Nested telling

Calls nest no deeper than there are deeds to nest them, so telling never comes to the bottom of its
levels. What a listener tells is told like everything else, from one call further inside.
-/

namespace Stylesheet

namespace Work

variable {α β : Type} {k m n : Nat}

/-- Two pieces of work do the same wherever no more than `n` deeds are pending, with `k` more in hand. -/
def Alike (n k : Nat) (x y : Work α) : Prop :=
  ∀ w, w.parser.roster.pending + k ≤ n → x.run.run w = y.run.run w

theorem alike_refl (x : Work α) : Alike n k x x := fun _ _ => rfl

theorem Alike.mono {x y : Work α} (h : Alike n k x y) (hk : k ≤ m) : Alike n m x y :=
  fun w hw => h w (by omega)

/-- What is in hand pays for the first part of the work, and the rest has what is left. -/
theorem Alike.bind {x y : Work α} {f g : α → Work β} {c : Nat} (h : Alike n m x y)
    (hcost : x.Costs .pending c) (hf : ∀ a, Alike n k (f a) (g a)) (hm : c + k ≤ m) :
    Alike n m (x >>= f) (y >>= g) := by
  intro w hw
  have hpaid := hcost w
  rw [run_bind, run_bind, ← h w hw]
  split
  · rename_i a w₁ hx
    rw [hx] at hpaid
    have hleft : w₁.parser.roster.pending ≤ w.parser.roster.pending + c := hpaid
    exact hf a w₁ (by omega)
  · rfl

theorem Alike.tryCatch {x y : Work α} (h : Alike n k x y) (f : Raised → Work α) :
    Alike n k (tryCatch x f) (tryCatch y f) := by
  intro w hw
  rw [run_tryCatch, run_tryCatch, h w hw]

theorem Alike.forM {as : List β} {f g : β → Work Unit} (h : ∀ a, Alike n 0 (f a) (g a))
    (hcost : ∀ a, (f a).Costs .pending 0) : Alike n 0 (as.forM f) (as.forM g) := by
  induction as with
  | nil => exact alike_refl _
  | cons a as ih => exact Alike.bind (h a) (hcost a) (fun _ => ih) (Nat.le_refl _)

/-! ## Listeners that are told alike -/

section

variable {tell tell' : Telling} (htell : ∀ e notice, Alike n 1 (tell e notice) (tell' e notice))
  (hcost : ∀ e notice, (tell e notice).Costs .pending 0)
include htell

theorem alike_report (text : Text) : Alike n 1 (report tell text) (report tell' text) :=
  fun w hw => htell .errorFound (.error text) (w.note (.logged (.errorReported text))) hw

include hcost

theorem alike_tellAll (ns : List (Event × Notice)) : Alike n 1 (tellAll tell ns) (tellAll tell' ns) := by
  induction ns with
  | nil => exact alike_refl _
  | cons a ns ih => exact Alike.bind (htell a.1 a.2) (hcost a.1 a.2) (fun _ => ih) (by omega)

theorem alike_parse (text : Text) : Alike n 1 (Work.parse tell text) (Work.parse tell' text) := by
  intro w hw
  rw [parse_run, parse_run, alike_tellAll htell hcost (Sheet.notices text) (w.opened text) hw]

theorem alike_doDeed (id : Text) (deed : Deed) :
    Alike n 1 (doDeed tell id deed) (doDeed tell' id deed) := by
  have hparse : ∀ text, Alike n 1 (do let _ ← Work.parse tell text : Work Unit)
      (do let _ ← Work.parse tell' text) :=
    fun text => Alike.bind (k := 1) (alike_parse htell hcost text) (Gauge.pending.law.parse hcost text)
      (fun _ => alike_refl _) (Nat.le_refl 1)
  induction deed with
  | look | raise | register => exact alike_refl _
  | report text => exact alike_report htell text
  | parse text catching =>
    cases catching with
    | false => exact hparse text
    | true => exact (hparse text).tryCatch _
  | quietly deed ih => exact ih.tryCatch _

theorem alike_perform (id : Text) (action : Action) :
    Alike n action.turn (perform tell id action) (perform tell' id action) := by
  induction action with
  | always habit => cases habit <;> exact alike_refl _
  | perform deed next ih =>
    have hdeed := (alike_doDeed htell hcost id deed).mono (Nat.le_add_left 1 next.turn)
    refine Alike.bind hdeed (Gauge.pending.law.doDeed hcost id deed) (fun _ => ih) ?_
    simp only [Action.turn]
    omega
  | enlist event suffix action next _ ih =>
    refine Alike.bind (alike_refl _) (costs_register event _) (fun _ => ih) ?_
    simp only [Action.turn]
    omega
  | pause next => exact alike_refl _

/-- The deeds of a call are the deeds that the listener has no longer before it. -/
theorem alike_call (depth : Nat) (e : Event) (notice : Notice) (place : Nat) :
    Alike n 0 (call tell depth e notice place) (call tell' depth e notice place) := by
  intro w hw
  cases hl : (w.parser.roster.of e)[place]? with
  | none => rw [call_run_of_none hl, call_run_of_none hl]
  | some l =>
    have hturn := Roster.pending_advance hl
    rw [call_run hl, call_run hl, act_run, act_run, alike_perform htell hcost l.id l.action _]
    simp only [World.setRoster, World.note] at hw ⊢
    omega

theorem alike_visit (depth : Nat) (e : Event) (notice : Notice) :
    Alike n 0 (visit tell depth e notice) (visit tell' depth e notice) := by
  intro w hw
  rw [visit_run, visit_run]
  have hcalls := Gauge.pending.law.call hcost (Nat.zero_le depth) e notice
  exact Alike.forM (alike_call htell hcost depth e notice) hcalls w hw

end

/-! ## Levels -/

/-- Levels beyond the number of deeds make no difference. -/
theorem alike_tellWithin (h : n ≤ m) (depth : Nat) (e : Event) (notice : Notice) :
    Alike n 1 (tellWithin n depth e notice) (tellWithin m depth e notice) := by
  induction n generalizing m depth e notice with
  | zero => exact fun w hw => by omega
  | succ n ih =>
    cases m with
    | zero => omega
    | succ m =>
      have hinner : ∀ e notice,
          Alike n 1 (tellWithin n (depth + 1) e notice) (tellWithin m (depth + 1) e notice) :=
        fun e notice => ih (by omega) (depth + 1) e notice
      exact fun w hw =>
        alike_visit hinner (Gauge.pending.law.tellWithin n (Nat.zero_le (depth + 1))) depth e notice
          w (by omega)

theorem alike_tellAt (n depth : Nat) (e : Event) (notice : Notice) :
    Alike n 1 (tellWithin n depth e notice) (tellAt depth e notice) := by
  intro w hw
  rw [tellAt_run]
  exact (alike_tellWithin hw depth e notice w (Nat.le_refl _)).symm

/-- Telling calls the listeners one after another, and what they tell is told in the same way from one
call further inside, without end of levels. -/
theorem tellAt_eq (depth : Nat) : tellAt depth = visit (tellAt (depth + 1)) depth := by
  funext e notice
  refine ExceptT.ext (StateT.ext fun w => ?_)
  exact (tellAt_run depth e notice w).trans
    (alike_visit (alike_tellAt w.parser.roster.pending (depth + 1))
      (Gauge.pending.law.tellWithin _ (Nat.zero_le (depth + 1))) depth e notice w (Nat.le_refl _))

end Work

end Stylesheet
