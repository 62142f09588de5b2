import Stylesheet.Session

/-!
# What a sheet says

The content of a sheet is its texts in order, without the places they were read from. Pure
definitions first. Then two sheets are the same exactly if they have the same content.
-/

namespace Stylesheet

/-! ## Words -/

/-- A run of letters that is not empty. -/
def IsWord (t : Text) : Prop := t ≠ [] ∧ ∀ c ∈ t, isLetter c = true

instance : DecidablePred IsWord := fun t =>
  decidable_of_iff ((!t.isEmpty && t.all isLetter) = true) (by simp [IsWord])

/-- The words that may stand as the names of declarations. -/
structure Vocabulary where
  Has : Text → Prop
  decidable : DecidablePred Has
  isWord : ∀ {n : Text}, Has n → IsWord n

namespace Vocabulary

instance (names : Vocabulary) : DecidablePred names.Has := names.decidable

/-- The names of the recognised properties. -/
def properties : Vocabulary where
  Has n := ∃ k ∈ PropertyKind.recognised, k.name = n
  decidable _ := inferInstance
  isWord := by
    rintro n ⟨k, hk, rfl⟩
    revert k
    decide

/-- Every word. -/
def words : Vocabulary where
  Has := IsWord
  decidable := inferInstance
  isWord := id

end Vocabulary

/-! ## Contents -/

structure DeclarationContent where
  name : Text
  value : Text
deriving DecidableEq

structure RuleContent where
  selector : Text
  declarations : List DeclarationContent
deriving DecidableEq

abbrev SheetContent := List RuleContent

/-- The kind of a declaration counts by its name. -/
def Declaration.content (d : Declaration) : DeclarationContent := ⟨d.kind.name, d.value.text⟩

def Rule.content (r : Rule) : RuleContent :=
  ⟨r.selector.text, r.declarations.map Declaration.content⟩

def Sheet.content (s : Sheet) : SheetContent := s.rules.map Rule.content

/-! ## Well-formedness -/

def DeclarationContent.WellFormed (names : Vocabulary) (d : DeclarationContent) : Prop :=
  names.Has d.name ∧ IsWord d.value

def RuleContent.WellFormed (names : Vocabulary) (r : RuleContent) : Prop :=
  IsWord r.selector ∧ ∀ d ∈ r.declarations, d.WellFormed names

/-- Selectors and values are words, and kinds are recognised ones. -/
def Sheet.WellFormed (s : Sheet) : Prop :=
  ∀ r ∈ s.rules, IsWord r.selector.text ∧
    ∀ d ∈ r.declarations, d.kind ∈ PropertyKind.recognised ∧ IsWord d.value.text

theorem PropertyKind.name_injective {k l : PropertyKind} (h : k.name = l.name) : k = l := by
  revert h
  cases k <;> cases l <;> decide

theorem has_name_iff (k : PropertyKind) :
    Vocabulary.properties.Has k.name ↔ k ∈ PropertyKind.recognised := by
  constructor
  · rintro ⟨l, hl, hn⟩
    rwa [← PropertyKind.name_injective hn]
  · intro hk
    exact ⟨k, hk, rfl⟩

/-- A sheet is well-formed if its content is. -/
theorem Sheet.wellFormed_iff (s : Sheet) :
    s.WellFormed ↔ ∀ r ∈ s.content, r.WellFormed Vocabulary.properties := by
  simp only [WellFormed, content, RuleContent.WellFormed, DeclarationContent.WellFormed,
    Rule.content, Declaration.content, List.forall_mem_map, has_name_iff]

/-! ## Sameness -/

/-- Lists of values are the same if what decides each pair of members is equal. -/
theorem Value.sameAll_map {α β : Type} {f : α → Value} {g : α → β}
    (h : ∀ x y, (f x).same (f y) = true ↔ g x = g y) (xs ys : List α) :
    Value.sameAll (xs.map f) (ys.map f) = true ↔ xs.map g = ys.map g := by
  induction xs generalizing ys with
  | nil => cases ys <;> simp [Value.sameAll]
  | cons x xs ih =>
    cases ys with
    | nil => simp [Value.sameAll]
    | cons y ys => simp [Value.sameAll, h, ih]

theorem Declaration.same_iff (d e : Declaration) :
    (Value.ofDeclaration d).same (.ofDeclaration e) = true ↔ d.content = e.content := by
  simp only [Value.ofDeclaration, Value.same, content, DeclarationContent.mk.injEq,
    Bool.and_eq_true, decide_eq_true_eq]
  constructor
  · rintro ⟨hk, hv⟩
    exact ⟨congrArg _ hk, hv⟩
  · rintro ⟨hk, hv⟩
    exact ⟨PropertyKind.name_injective hk, hv⟩

theorem Rule.same_iff (r q : Rule) :
    (Value.ofRule r).same (.ofRule q) = true ↔ r.content = q.content := by
  simp only [Value.ofRule, Value.same, content, RuleContent.mk.injEq, Bool.and_eq_true,
    decide_eq_true_eq, Value.sameAll_map Declaration.same_iff]

theorem Sheet.same_iff (a b : Sheet) : a.same b = true ↔ a.content = b.content := by
  simp only [Sheet.same, Value.ofSheet, Value.same, content, Value.sameAll_map Rule.same_iff]

end Stylesheet
