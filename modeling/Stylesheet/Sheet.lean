import Stylesheet.Span

/-!
# Sheets

A sheet is a list of rules, a rule a selector with declarations, a declaration one of the recognised
properties with a value. Selectors and values are spans of the text they were read from.
-/

namespace Stylesheet

/-! ## Properties -/

/-- What a declaration sets. `unknown` is a placeholder that no text spells. -/
inductive PropertyKind
  | unknown
  | color
  | background
deriving DecidableEq

namespace PropertyKind

def name : PropertyKind → Text
  | unknown => "unknown".toList
  | color => "color".toList
  | background => "background".toList

/-- The kinds that a text can spell. -/
def recognised : List PropertyKind := [color, background]

/-- Every kind, the placeholder first. -/
def all : List PropertyKind := unknown :: recognised

/-- The recognised kind of a name. -/
def ofName? (t : Text) : Option PropertyKind := recognised.find? (·.name = t)

/-- The kind of a name, the placeholder included. -/
def ofLabel? (t : Text) : Option PropertyKind := all.find? (·.name = t)

theorem ofName?_name {k : PropertyKind} (h : k ∈ recognised) : ofName? k.name = some k := by
  simp only [recognised, List.mem_cons, List.not_mem_nil, or_false] at h
  rcases h with rfl | rfl <;> rfl

theorem ofName?_eq_some {t : Text} {k : PropertyKind} (h : ofName? t = some k) :
    k ∈ recognised ∧ k.name = t :=
  ⟨List.mem_of_find?_eq_some h, by simpa using List.find?_some h⟩

end PropertyKind

/-! ## Declarations, rules and sheets -/

structure Declaration where
  kind : PropertyKind
  value : Span
deriving DecidableEq

structure Rule where
  selector : Span
  declarations : List Declaration
deriving DecidableEq

structure Sheet where
  rules : List Rule
deriving DecidableEq

namespace Sheet

/-- The sheet of a parser that has read nothing. -/
def empty : Sheet := ⟨[]⟩

def size (s : Sheet) : Nat := s.rules.length

end Sheet

end Stylesheet
