import Stylesheet.Proofs.Content

/-!
# The grammar

The stylesheet language as a grammar, with no cursor in it. A production relates a text to what it
says. Which words may stand as the names of declarations is a parameter: the names of the recognised
properties give the language itself, all words the relaxed language.
-/

namespace Stylesheet

/-- `ws*` -/
def Blanks (t : Text) : Prop := ∀ c ∈ t, isBlank c = true

instance : DecidablePred Blanks := fun t =>
  decidable_of_iff (t.all isBlank = true) List.all_eq_true

/-- `(item ws*)*` -/
inductive Spaced {α : Type} (item : Text → α → Prop) : Text → List α → Prop
  | nil : Spaced item [] []
  | cons {t b ts : Text} {a : α} {as : List α} :
      item t a → Blanks b → Spaced item ts as → Spaced item (t ++ b ++ ts) (a :: as)

/-- `name ws* ':' ws* word ws* ';'` -/
inductive DerivesDeclaration (names : Vocabulary) : Text → DeclarationContent → Prop
  | mk {name b₁ b₂ value b₃ : Text} :
      names.Has name → Blanks b₁ → Blanks b₂ → IsWord value → Blanks b₃ →
      DerivesDeclaration names (name ++ b₁ ++ [':'] ++ b₂ ++ value ++ b₃ ++ [';']) ⟨name, value⟩

/-- `word ws* '{' ws* (decl ws*)* '}'` -/
inductive DerivesRule (names : Vocabulary) : Text → RuleContent → Prop
  | mk {selector b₁ b₂ body : Text} {ds : List DeclarationContent} :
      IsWord selector → Blanks b₁ → Blanks b₂ → Spaced (DerivesDeclaration names) body ds →
      DerivesRule names (selector ++ b₁ ++ ['{'] ++ b₂ ++ body ++ ['}']) ⟨selector, ds⟩

/-- `ws* (rule ws*)*` -/
inductive DerivesSheet (names : Vocabulary) : Text → SheetContent → Prop
  | mk {b body : Text} {rs : List RuleContent} :
      Blanks b → Spaced (DerivesRule names) body rs → DerivesSheet names (b ++ body) rs

/-- The texts of the language whose declarations may have any word as their name. -/
def Relaxed (t : Text) : Prop := ∃ c, DerivesSheet .words t c

/-! ## Blanks -/

theorem Blanks.nil : Blanks [] := by simp [Blanks]

theorem Blanks.append {b b' : Text} (hb : Blanks b) (hb' : Blanks b') : Blanks (b ++ b') :=
  fun c hc => (List.mem_append.mp hc).elim (hb c) (hb' c)

theorem blanks_takeWhile (t : Text) : Blanks (t.takeWhile isBlank) :=
  fun _ hc => List.all_eq_true.mp List.all_takeWhile _ hc

theorem not_isBlank_dropWhile (t : Text) : ∀ c ∈ (t.dropWhile isBlank).head?, isBlank c = false := by
  intro c hc
  have := List.head?_dropWhile_not isBlank t
  rw [hc] at this
  simpa using this

end Stylesheet
