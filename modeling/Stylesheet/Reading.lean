import Stylesheet.Cursor
import Stylesheet.Journal

/-!
# Reading

The productions of the stylesheet language: a declaration is `name : value ;`, a rule a selector with
a block of declarations in braces, a sheet a sequence of rules. Blanks may stand before every token.
Reading stops at the first fault.
-/

namespace Stylesheet

namespace Cursor

/-! ## Declarations -/

/-- Reads a declaration. The name is looked up after its colon is read, and an unknown name is
reported where the declaration begins. -/
def declaration (source : Text) (c : Cursor) : Except Failure (Declaration × Cursor) := do
  let (name, c₁) ← c.skip.word source
  let c₂ ← c₁.skip.mark [':']
  match PropertyKind.ofName? name.text with
  | none => .error ⟨.unknownProperty name.text, c.pos⟩
  | some kind =>
    let (value, c₃) ← c₂.skip.word source
    let c₄ ← c₃.skip.mark [';']
    .ok (⟨kind, value⟩, c₄)

theorem length_of_declaration {source : Text} {c d : Cursor} {p : Declaration}
    (h : c.declaration source = .ok (p, d)) : d.rest.length < c.rest.length := by
  unfold declaration at h
  cases h₁ : c.skip.word source with
  | error f => simp [h₁, bind, Except.bind] at h
  | ok r₁ =>
    obtain ⟨name, c₁⟩ := r₁
    cases h₂ : c₁.skip.mark [':'] with
    | error f => simp [h₁, h₂, bind, Except.bind] at h
    | ok c₂ =>
      cases hk : PropertyKind.ofName? name.text with
      | none => simp [h₁, h₂, hk, bind, Except.bind] at h
      | some kind =>
        cases h₃ : c₂.skip.word source with
        | error f => simp [h₁, h₂, h₃, hk, bind, Except.bind] at h
        | ok r₃ =>
          obtain ⟨value, c₃⟩ := r₃
          cases h₄ : c₃.skip.mark [';'] with
          | error f => simp [h₁, h₂, h₃, h₄, hk, bind, Except.bind] at h
          | ok c₄ =>
            simp [h₁, h₂, h₃, h₄, hk, bind, Except.bind] at h
            obtain ⟨-, rfl⟩ := h
            have := length_skip_le c
            have := length_of_word h₁
            have := length_skip_le c₁
            have := length_of_mark h₂
            have := length_skip_le c₂
            have := length_of_word h₃
            have := length_skip_le c₃
            have := length_of_mark h₄
            omega

/-- Whether a block goes on: something other than the closing brace is left. -/
def inBlock (c : Cursor) : Bool :=
  match c.rest with
  | [] => false
  | x :: _ => x ≠ '}'

/-- Reads declarations up to a closing brace or the end. -/
def declarations (source : Text) (c : Cursor) : Except Failure (List Declaration × Cursor) :=
  if c.skip.inBlock then
    match _h : c.skip.declaration source with
    | .error f => .error f
    | .ok (d, next) =>
      match declarations source next with
      | .error f => .error f
      | .ok (ds, last) => .ok (d :: ds, last)
  else .ok ([], c.skip)
termination_by c.rest.length
decreasing_by
  have := length_of_declaration ‹_›
  have := length_skip_le c
  omega

theorem length_of_declarations {source : Text} {c : Cursor} :
    ∀ {d : Cursor} {ds : List Declaration}, c.declarations source = .ok (ds, d) →
      d.rest.length ≤ c.rest.length := by
  fun_induction declarations source c with
  | case1 => intro d ds h; cases h
  | case2 => intro d ds h; cases h
  | case3 c _ p next hp ps last hps ih =>
    intro d ds h
    cases h
    have := length_of_declaration hp
    have := length_skip_le c
    have := ih hps
    omega
  | case4 c _ =>
    intro d ds h
    cases h
    exact length_skip_le c

/-! ## Rules -/

/-- Reads a rule. -/
def rule (source : Text) (c : Cursor) : Except Failure (Rule × Cursor) := do
  let (selector, c₁) ← c.skip.word source
  let c₂ ← c₁.skip.mark ['{']
  let (ds, c₃) ← c₂.declarations source
  let c₄ ← c₃.skip.mark ['}']
  .ok (⟨selector, ds⟩, c₄)

theorem length_of_rule {source : Text} {c d : Cursor} {r : Rule}
    (h : c.rule source = .ok (r, d)) : d.rest.length < c.rest.length := by
  unfold rule at h
  cases h₁ : c.skip.word source with
  | error f => simp [h₁, bind, Except.bind] at h
  | ok r₁ =>
    obtain ⟨selector, c₁⟩ := r₁
    cases h₂ : c₁.skip.mark ['{'] with
    | error f => simp [h₁, h₂, bind, Except.bind] at h
    | ok c₂ =>
      cases h₃ : c₂.declarations source with
      | error f => simp [h₁, h₂, h₃, bind, Except.bind] at h
      | ok r₃ =>
        obtain ⟨ds, c₃⟩ := r₃
        cases h₄ : c₃.skip.mark ['}'] with
        | error f => simp [h₁, h₂, h₃, h₄, bind, Except.bind] at h
        | ok c₄ =>
          simp [h₁, h₂, h₃, h₄, bind, Except.bind] at h
          obtain ⟨-, rfl⟩ := h
          have := length_skip_le c
          have := length_of_word h₁
          have := length_skip_le c₁
          have := length_of_mark h₂
          have := length_of_declarations h₃
          have := length_skip_le c₃
          have := length_of_mark h₄
          omega

/-! ## Sheets -/

/-- The rules up to the end or the first failure, and that failure. -/
def rules (source : Text) (c : Cursor) : List Rule × Option Failure :=
  if c.skip.rest = [] then ([], none)
  else
    match _h : c.skip.rule source with
    | .error f => ([], some f)
    | .ok (r, next) =>
      let (rs, end?) := rules source next
      (r :: rs, end?)
termination_by c.rest.length
decreasing_by
  have := length_of_rule ‹_›
  have := length_skip_le c
  omega

end Cursor

/-- The rules of a source up to its end or the first failure, and that failure. -/
def Sheet.read (source : Text) : List Rule × Option Failure := (Cursor.start source).rules source

/-- The sheet of a source, or the error that reports the first failure. -/
def Sheet.parse? (source : Text) : Except ParseError Sheet :=
  match Sheet.read source with
  | (rs, none) => .ok ⟨rs⟩
  | (_, some f) => .error (f.error source)

end Stylesheet
