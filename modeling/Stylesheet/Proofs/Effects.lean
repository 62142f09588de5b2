import Stylesheet.Text

/-!
# Work that may fail

Work changes a state and may end with an error, which keeps the changes made before it. What a sequence
of work does follows from what its parts do.
-/

namespace Stylesheet

variable {ε σ α β : Type} {x : ExceptT ε (StateM σ) α} {f : α → ExceptT ε (StateM σ) β} {s s' : σ}

theorem run_bind (x : ExceptT ε (StateM σ) α) (f : α → ExceptT ε (StateM σ) β) (s : σ) :
    (x >>= f).run.run s =
      match x.run.run s with
      | (.ok a, s₁) => (f a).run.run s₁
      | (.error error, s₁) => (.error error, s₁) := by
  rw [ExceptT.run_bind, StateT.run_bind]
  cases x.run.run s with
  | mk r s₁ => cases r <;> rfl

theorem run_tryCatch (x : ExceptT ε (StateM σ) α) (f : ε → ExceptT ε (StateM σ) α) (s : σ) :
    (tryCatch x f).run.run s =
      match x.run.run s with
      | (.ok a, s₁) => (.ok a, s₁)
      | (.error error, s₁) => (f error).run.run s₁ := by
  rw [ExceptT.run_tryCatch, StateT.run_bind]
  cases x.run.run s with
  | mk r s₁ => cases r <;> rfl

theorem run_bind_of_ok {a : α} (h : x.run.run s = (.ok a, s')) :
    (x >>= f).run.run s = (f a).run.run s' := by
  rw [run_bind, h]

/-- Work that came to its end did so in every part. -/
theorem exists_of_run_bind {b : β} (h : (x >>= f).run.run s = (.ok b, s')) :
    ∃ a s₁, x.run.run s = (.ok a, s₁) ∧ (f a).run.run s₁ = (.ok b, s') := by
  rw [run_bind] at h
  split at h
  · rename_i a s₁ hx
    exact ⟨a, s₁, hx, h⟩
  · cases h

end Stylesheet
