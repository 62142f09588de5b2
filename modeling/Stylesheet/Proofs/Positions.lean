import Stylesheet.Proofs.Report

/-!
# Reading at positions

What comes out of a token or a production at a position is what its cursor gives. Two outcomes correspond
if both give values that do, or both stop for reasons that do.
-/

namespace Stylesheet

/-! ## Outcomes that correspond -/

inductive Corresponds {ε δ α β : Type} (reasons : ε → δ → Prop) (values : α → β → Prop) :
    Except ε α → Except δ β → Prop
  | ok {a : α} {b : β} : values a b → Corresponds reasons values (.ok a) (.ok b)
  | error {e : ε} {d : δ} : reasons e d → Corresponds reasons values (.error e) (.error d)

namespace Corresponds

variable {ε δ α β γ κ : Type} {reasons : ε → δ → Prop} {values : α → β → Prop}
  {values' : γ → κ → Prop} {r : Except ε α} {r' : Except δ β}

theorem bind {k : α → Except ε γ} {k' : β → Except δ κ} (h : Corresponds reasons values r r')
    (hk : ∀ a b, r = .ok a → values a b → Corresponds reasons values' (k a) (k' b)) :
    Corresponds reasons values' (r >>= k) (r' >>= k') := by
  cases h with
  | ok h => exact hk _ _ rfl h
  | error h => exact .error h

theorem exists_of_ok {a : α} (h : Corresponds reasons values (.ok a) r') :
    ∃ b, r' = .ok b ∧ values a b := by
  cases h with
  | ok h => exact ⟨_, rfl, h⟩

end Corresponds

/-- Both are rejections, with errors that correspond. -/
inductive Stop.Rejects (errors : ParseError → ParseError → Prop) : Stop → Stop → Prop
  | mk {e e' : ParseError} : errors e e' → Rejects errors (.rejected e) (.rejected e')

/-! ## Cursors at positions -/

namespace Cursor

variable {source : Text} {pos : Int} {c : Cursor}

theorem ofPos?_of_nonneg (h : 0 ≤ pos) : ofPos? source pos = some ⟨pos, source.drop pos.toNat⟩ :=
  if_pos h

theorem ofPos?_of_neg (h : pos < 0) (hle : -source.length ≤ pos) :
    ofPos? source pos = some ⟨pos, source.drop (pos + source.length).toNat ++ source⟩ := by
  rw [ofPos?, if_neg (by omega), if_pos (by omega)]

theorem ofPos?_eq_none : ofPos? source pos = none ↔ pos < -source.length := by
  by_cases h : 0 ≤ pos
  · simp only [ofPos?_of_nonneg h, reduceCtorEq, false_iff]
    omega
  · by_cases hle : -source.length ≤ pos
    · simp only [ofPos?_of_neg (Int.not_le.mp h) hle, reduceCtorEq, false_iff]
      omega
    · simp only [ofPos?, if_neg h, if_neg (show ¬0 ≤ pos + source.length by omega), true_iff]
      omega

theorem pos_of_ofPos? (h : ofPos? source pos = some c) : c.pos = pos := by
  unfold ofPos? at h
  split at h
  · cases h
    rfl
  · split at h <;> cases h
    rfl

theorem in_of_ofPos? (h : ofPos? source pos = some c) (h₀ : 0 ≤ pos) (hle : pos ≤ source.length) :
    c.In source := by
  rw [ofPos?_of_nonneg h₀] at h
  cases h
  have hlength : (source.take pos.toNat).length = pos.toNat := by simp; omega
  exact ⟨source.take pos.toNat, (List.take_append_drop _ _).symm, by simp only [hlength]; omega⟩

end Cursor

/-! ## What comes out -/

namespace Report

variable {α β : Type} {source : Text} {listening : Bool}

/-- What shows of reading: what is made of the value, or the error that reports the failure. -/
def shown (source : Text) (give : α → β) : Except Failure α → Except Stop β
  | .ok a => .ok (give a)
  | .error f => .error (.rejected (f.error source))

/-- What shows of reading at a position. -/
def outcomeAt (source : Text) (read : Cursor → Except Failure α) (give : α → β) (pos : Int) :
    Except Stop β :=
  match Cursor.ofPos? source pos with
  | none => .error .outside
  | some c => shown source give (read c)

theorem outcomeAt_eq_ok {read : Cursor → Except Failure α} {give : α → β} {b : β} {pos : Int} :
    outcomeAt source read give pos = .ok b ↔
      ∃ c a, Cursor.ofPos? source pos = some c ∧ read c = .ok a ∧ give a = b := by
  unfold outcomeAt
  cases Cursor.ofPos? source pos with
  | none => simp
  | some c => cases hr : read c <;> simp [shown, hr]

theorem token_outcome (r : Except Failure α) :
    (token source listening r).outcome = shown source id r := by
  cases r with
  | error f => cases listening <;> rfl
  | ok a => rfl

theorem record_outcome (r : Except Failure (Rule × Cursor)) :
    (token source listening r >>= record).outcome = shown source id r := by
  cases r with
  | error f => cases listening <;> rfl
  | ok a => rfl

theorem bind_pure_outcome (r : Report α) (f : α → β) :
    (r >>= fun a => pure (f a)).outcome = r.outcome.map f := by
  rw [bind_pure_eq]
  rfl

theorem map_shown {γ : Type} (give : α → β) (f : β → γ) (r : Except Failure α) :
    (shown source give r).map f = shown source (f ∘ give) r := by
  cases r <;> rfl

theorem blanks_outcome (pos : Int) : (blanks source listening pos).outcome =
    outcomeAt source (fun c => .ok c.skip) Cursor.pos pos := by
  unfold blanks seek outcomeAt
  cases Cursor.ofPos? source pos <;> rfl

theorem mark_outcome (pos : Int) (m : Text) : (mark source listening pos m).outcome =
    outcomeAt source (Cursor.mark m) Cursor.pos pos := by
  unfold mark seek outcomeAt
  cases Cursor.ofPos? source pos with
  | none => rfl
  | some c =>
    change (token source listening (c.mark m) >>= fun next => pure next.pos).outcome = _
    rw [bind_pure_outcome, token_outcome, map_shown]
    rfl

theorem readAt_outcome {report : Cursor → Report (α × Cursor)}
    {read : Cursor → Except Failure (α × Cursor)}
    (h : ∀ c, (report c).outcome = shown source id (read c)) (pos : Int) :
    (readAt source report pos).outcome = outcomeAt source read (Prod.map id Cursor.pos) pos := by
  unfold readAt seek outcomeAt
  cases Cursor.ofPos? source pos with
  | none => rfl
  | some c =>
    change (report c >>= fun x => pure (x.1, x.2.pos)).outcome = _
    rw [bind_pure_outcome, h, map_shown]
    rfl

theorem word_outcome (pos : Int) : (word source listening pos).outcome =
    outcomeAt source (Cursor.word source) (Prod.map id Cursor.pos) pos :=
  readAt_outcome (fun _ => token_outcome _) pos

theorem declaration_outcome (pos : Int) : (declaration source listening pos).outcome =
    outcomeAt source (Cursor.declaration source) (Prod.map id Cursor.pos) pos :=
  readAt_outcome (fun c => by rw [declarationAt_eq, token_outcome]) pos

theorem rule_outcome (pos : Int) : (rule source listening pos).outcome =
    outcomeAt source (Cursor.rule source) (Prod.map id Cursor.pos) pos :=
  readAt_outcome (fun c => by rw [ruleAt_eq, record_outcome]) pos

end Report

end Stylesheet
