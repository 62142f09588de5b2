import Stylesheet.Reading

/-!
# Reports

Reading one production at a position of a source, with everything that shows: the outcome, the
journal, and what an error listener is told. What is written down and told is so where it happens: a
failure at the token that is missing or at the name that is unknown, a rule behind its closing brace.
-/

namespace Stylesheet

/-- Why reading gives no value. -/
inductive Stop
  /-- The position is not one of the source. -/
  | outside
  | rejected (e : ParseError)
deriving DecidableEq

structure Report (α : Type) where
  outcome : Except Stop α
  journal : List Entry
  /-- The rendered diagnostics an error listener receives. -/
  told : List Text

namespace Report

variable {α β γ : Type}

/-! ## One report after another -/

/-- Goes on with the value of a report. Nothing follows a stop. -/
def andThen (r : Report α) (k : (a : α) → r.outcome = .ok a → Report β) : Report β :=
  match h : r.outcome with
  | .ok a => ⟨(k a h).outcome, r.journal ++ (k a h).journal, r.told ++ (k a h).told⟩
  | .error stop => ⟨.error stop, r.journal, r.told⟩

instance : Monad Report where
  pure a := ⟨.ok a, [], []⟩
  bind r k := r.andThen fun a _ => k a

/-- The same report with another value. -/
def map (f : α → β) (r : Report α) : Report β := { r with outcome := r.outcome.map f }

def stop (s : Stop) : Report α := ⟨.error s, [], []⟩

def write (entry : Entry) : Report Unit := ⟨.ok (), [entry], []⟩

def tell (text : Text) : Report Unit := ⟨.ok (), [], [text]⟩

/-- Writes a complete rule down. -/
def record (read : Rule × Cursor) : Report (Rule × Cursor) := do
  write (.ofRule read.1)
  pure read

/-! ## Tokens -/

section
variable (source : Text) (listening : Bool)

/-- Writes a failure down, tells it to the listener if there is one, and stops. -/
def fail (f : Failure) : Report α := do
  let e := f.error source
  write (.ofError e)
  if listening then tell e.diagnostic.render
  stop (.rejected e)

/-- The value of a token, or the report of its failure. -/
def token : Except Failure α → Report α
  | .ok a => pure a
  | .error f => fail source listening f

variable {source listening}

theorem token_bind {r : Except Failure α} {k : α → Except Failure β} {k' : α → Report β}
    (h : ∀ a, k' a = token source listening (k a)) :
    (token source listening r >>= k') = token source listening (r >>= k) := by
  obtain rfl : k' = fun a => token source listening (k a) := funext h
  cases r with
  | error f => cases listening <;> rfl
  | ok a => rfl

theorem token_bind_then {r : Except Failure α} {k : α → Except Failure β} {m : β → Report γ}
    {k' : α → Report γ} (h : ∀ a, k' a = token source listening (k a) >>= m) :
    (token source listening r >>= k') = token source listening (r >>= k) >>= m := by
  cases r with
  | error f => cases listening <;> rfl
  | ok a => exact h a

theorem eq_ok_of_token {r : Except Failure α} {a : α}
    (h : (token source listening r).outcome = .ok a) : r = .ok a := by
  cases r with
  | error f => cases listening <;> cases h
  | ok b =>
    cases h
    rfl

theorem eq_ok_of_record {r : Except Failure (Rule × Cursor)} {read : Rule × Cursor}
    (h : (token source listening r >>= record).outcome = .ok read) : r = .ok read := by
  cases r with
  | error f => cases listening <;> cases h
  | ok a =>
    cases h
    rfl

variable (source listening)

/-! ## Declarations -/

/-- Reads a declaration. An unknown name has no token that is missing, and is reported by itself. -/
def declarationAt (c : Cursor) : Report (Declaration × Cursor) := do
  let (name, c₁) ← token source listening (c.skip.word source)
  let c₂ ← token source listening (c₁.skip.mark [':'])
  match PropertyKind.ofName? name.text with
  | none => fail source listening ⟨.unknownProperty name.text, c.pos⟩
  | some kind =>
    let (value, c₃) ← token source listening (c₂.skip.word source)
    let c₄ ← token source listening (c₃.skip.mark [';'])
    pure (⟨kind, value⟩, c₄)

/-- Whatever fails in a declaration is reported once. -/
theorem declarationAt_eq (c : Cursor) :
    declarationAt source listening c = token source listening (c.declaration source) := by
  unfold declarationAt Cursor.declaration
  refine token_bind fun ⟨name, c₁⟩ => token_bind fun c₂ => ?_
  cases PropertyKind.ofName? name.text with
  | none => rfl
  | some kind =>
    simp only []
    exact token_bind fun ⟨value, c₃⟩ => token_bind fun c₄ => rfl

/-- Reads declarations up to a closing brace or the end. -/
def declarationsAt (c : Cursor) : Report (List Declaration × Cursor) :=
  if c.skip.inBlock then
    (declarationAt source listening c.skip).andThen fun read _h => do
      let (ds, last) ← declarationsAt read.2
      pure (read.1 :: ds, last)
  else pure ([], c.skip)
termination_by c.rest.length
decreasing_by
  rw [declarationAt_eq] at _h
  have := Cursor.length_of_declaration (eq_ok_of_token _h)
  have := Cursor.length_skip_le c
  omega

theorem declarationsAt_eq (c : Cursor) :
    declarationsAt source listening c = token source listening (c.declarations source) := by
  fun_induction Cursor.declarations source c with
  | case1 c hin f hf =>
    rw [declarationsAt, if_pos hin, declarationAt_eq, hf]
    cases listening <;> rfl
  | case2 c hin p next hp f hps ih =>
    rw [declarationsAt, if_pos hin, declarationAt_eq, hp]
    rw [hps] at ih
    change (declarationsAt source listening next >>= _) = _
    rw [ih]
    cases listening <;> rfl
  | case3 c hin p next hp ps last hps ih =>
    rw [declarationsAt, if_pos hin, declarationAt_eq, hp]
    rw [hps] at ih
    change (declarationsAt source listening next >>= _) = _
    rw [ih]
    rfl
  | case4 c hin =>
    rw [declarationsAt, if_neg hin]
    rfl

/-! ## Rules -/

/-- Reads a rule. -/
def ruleAt (c : Cursor) : Report (Rule × Cursor) := do
  let (selector, c₁) ← token source listening (c.skip.word source)
  let c₂ ← token source listening (c₁.skip.mark ['{'])
  let (ds, c₃) ← declarationsAt source listening c₂
  let c₄ ← token source listening (c₃.skip.mark ['}'])
  record (⟨selector, ds⟩, c₄)

theorem ruleAt_eq (c : Cursor) :
    ruleAt source listening c = token source listening (c.rule source) >>= record := by
  unfold ruleAt Cursor.rule
  refine token_bind_then fun ⟨selector, c₁⟩ => token_bind_then fun c₂ => ?_
  simp only [declarationsAt_eq]
  exact token_bind_then fun ⟨ds, c₃⟩ => token_bind_then fun c₄ => rfl

/-! ## Sheets -/

/-- Reads rules up to the end. -/
def rulesAt (c : Cursor) : Report (List Rule) :=
  if c.skip.rest = [] then pure []
  else
    (ruleAt source listening c.skip).andThen fun read _h => do
      let rs ← rulesAt read.2
      pure (read.1 :: rs)
termination_by c.rest.length
decreasing_by
  rw [ruleAt_eq] at _h
  have := Cursor.length_of_rule (eq_ok_of_record _h)
  have := Cursor.length_skip_le c
  omega

/-! ## Reading at a position -/

/-- The cursor at a position. -/
def seek (pos : Int) : Report Cursor :=
  match Cursor.ofPos? source pos with
  | none => stop .outside
  | some c => pure c

/-- Reads at a position and gives the position behind what was read. -/
def readAt (read : Cursor → Report (α × Cursor)) (pos : Int) : Report (α × Int) := do
  let c ← seek source pos
  let (a, next) ← read c
  pure (a, next.pos)

/-- Skips blanks, which nobody hears of. -/
def blanks (_listening : Bool) (pos : Int) : Report Int := do
  let c ← seek source pos
  pure c.skip.pos

def mark (pos : Int) (m : Text) : Report Int := do
  let c ← seek source pos
  let next ← token source listening (c.mark m)
  pure next.pos

def word (pos : Int) : Report (Span × Int) :=
  readAt source (fun c => token source listening (c.word source)) pos

def declaration (pos : Int) : Report (Declaration × Int) :=
  readAt source (declarationAt source listening) pos

def rule (pos : Int) : Report (Rule × Int) := readAt source (ruleAt source listening) pos

def sheet : Report Sheet := do
  let rs ← rulesAt source listening (.start source)
  pure ⟨rs⟩

end

end Report

end Stylesheet
