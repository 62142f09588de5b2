import Stylesheet.Proofs.Cursor

/-!
# Steps of the productions

What a production did when it came to its end, token by token, and one turn of each loop. Reading
from a cursor of a source leads to cursors of this source.
-/

namespace Stylesheet

theorem bind_eq_ok {ε α β : Type} {r : Except ε α} {k : α → Except ε β} {b : β} :
    (r >>= k) = .ok b ↔ ∃ a, r = .ok a ∧ k a = .ok b := by
  cases r <;> simp [bind, Except.bind]

namespace Cursor

variable {source m : Text} {c d : Cursor} {s : Span} {p : Declaration} {r : Rule}

/-! ## Tokens -/

theorem mark_eq_ok : c.mark m = .ok d ↔ ∃ a, m = [a] ∧ c.rest = a :: d.rest ∧ d.pos = c.pos + 1 := by
  obtain ⟨pos, rest⟩ := c
  obtain ⟨pos', rest'⟩ := d
  cases rest with
  | nil => simp [mark]
  | cons a rest =>
    by_cases h : m = [a]
    · simp [mark, h, eq_comm, and_comm]
    · simp only [mark, h, if_false, reduceCtorEq, false_iff]
      rintro ⟨b, rfl, hrest, -⟩
      cases hrest
      exact h rfl

theorem word_eq_ok : c.word source = .ok (s, d) ↔
    (c.past isLetter).pos ≠ c.pos ∧ s = ⟨source, c.pos, d.pos⟩ ∧ d = c.past isLetter := by
  unfold word
  split
  · rename_i h
    simp [h]
  · rename_i h
    simp only [Except.ok.injEq, Prod.mk.injEq, ne_eq, h, not_false_eq_true, true_and]
    constructor
    · rintro ⟨rfl, rfl⟩
      exact ⟨rfl, rfl⟩
    · rintro ⟨rfl, rfl⟩
      exact ⟨rfl, rfl⟩

theorem text_of_word (hc : c.In source) (h : c.word source = .ok (s, d)) :
    s.text = c.rest.takeWhile isLetter := by
  obtain ⟨-, rfl, rfl⟩ := word_eq_ok.mp h
  exact text_between hc (takeWhile_append_past isLetter c).symm rfl

/-! ## Productions -/

theorem declaration_eq_ok : c.declaration source = .ok (p, d) ↔
    ∃ name c₁ c₂ c₃, c.skip.word source = .ok (name, c₁) ∧ c₁.skip.mark [':'] = .ok c₂ ∧
      PropertyKind.ofName? name.text = some p.kind ∧ c₂.skip.word source = .ok (p.value, c₃) ∧
      c₃.skip.mark [';'] = .ok d := by
  unfold declaration
  constructor
  · intro h
    obtain ⟨⟨name, c₁⟩, hname, h⟩ := bind_eq_ok.mp h
    obtain ⟨c₂, hcolon, h⟩ := bind_eq_ok.mp h
    cases hkind : PropertyKind.ofName? name.text with
    | none =>
      simp only [hkind] at h
      cases h
    | some kind =>
      simp only [hkind] at h
      obtain ⟨⟨value, c₃⟩, hvalue, h⟩ := bind_eq_ok.mp h
      obtain ⟨c₄, hend, h⟩ := bind_eq_ok.mp h
      cases h
      exact ⟨name, c₁, c₂, c₃, hname, hcolon, hkind, hvalue, hend⟩
  · rintro ⟨name, c₁, c₂, c₃, hname, hcolon, hkind, hvalue, hend⟩
    simp only [hname, hcolon, hkind, hvalue, hend, bind, Except.bind]

theorem rule_eq_ok : c.rule source = .ok (r, d) ↔
    ∃ c₁ c₂ c₃, c.skip.word source = .ok (r.selector, c₁) ∧ c₁.skip.mark ['{'] = .ok c₂ ∧
      c₂.declarations source = .ok (r.declarations, c₃) ∧ c₃.skip.mark ['}'] = .ok d := by
  unfold rule
  constructor
  · intro h
    obtain ⟨⟨selector, c₁⟩, hselector, h⟩ := bind_eq_ok.mp h
    obtain ⟨c₂, hopen, h⟩ := bind_eq_ok.mp h
    obtain ⟨⟨ps, c₃⟩, hblock, h⟩ := bind_eq_ok.mp h
    obtain ⟨c₄, hclose, h⟩ := bind_eq_ok.mp h
    cases h
    exact ⟨c₁, c₂, c₃, hselector, hopen, hblock, hclose⟩
  · rintro ⟨c₁, c₂, c₃, hselector, hopen, hblock, hclose⟩
    simp only [hselector, hopen, hblock, hclose, bind, Except.bind]

theorem declarations_eq (source : Text) (c : Cursor) : c.declarations source =
    if c.skip.inBlock then do
      let (p, next) ← c.skip.declaration source
      let (ps, last) ← next.declarations source
      .ok (p :: ps, last)
    else .ok ([], c.skip) := by
  rw [declarations]
  split
  · split
    · rename_i f hf
      rw [hf]
      rfl
    · rename_i p next hp
      rw [hp]
      simp only [bind, Except.bind]
      split <;> rename_i h <;> rw [h]
  · rfl

theorem rules_eq (source : Text) (c : Cursor) : c.rules source =
    if c.skip.rest = [] then ([], none)
    else
      match c.skip.rule source with
      | .error f => ([], some f)
      | .ok (r, next) => (r :: (next.rules source).1, (next.rules source).2) := by
  rw [rules]
  split
  · rfl
  · split <;> rename_i h <;> rw [h]

/-- Rules do not depend on the blanks before them. -/
theorem rules_of_skip (h : c.skip = d.skip) : c.rules source = d.rules source := by
  rw [rules_eq, h, ← rules_eq]

/-! ## Cursors of a source -/

theorem In.mark (hc : c.In source) (h : c.mark m = .ok d) : d.In source := by
  obtain ⟨a, -, hrest, hpos⟩ := mark_eq_ok.mp h
  exact hc.advance (t := [a]) hrest hpos

theorem In.word (hc : c.In source) (h : c.word source = .ok (s, d)) : d.In source := by
  obtain ⟨-, -, rfl⟩ := word_eq_ok.mp h
  exact hc.past isLetter

theorem In.declaration (hc : c.In source) (h : c.declaration source = .ok (p, d)) :
    d.In source := by
  obtain ⟨name, c₁, c₂, c₃, hname, hcolon, -, hvalue, hend⟩ := declaration_eq_ok.mp h
  exact ((((hc.skip.word hname).skip.mark hcolon).skip.word hvalue).skip.mark hend)

theorem In.declarations {ps : List Declaration} (hc : c.In source)
    (h : c.declarations source = .ok (ps, d)) : d.In source := by
  fun_induction Cursor.declarations source c generalizing ps with
  | case1 => cases h
  | case2 => cases h
  | case3 c hin p next hp ps last hps ih =>
    cases h
    exact ih (hc.skip.declaration hp) hps
  | case4 c hin =>
    cases h
    exact hc.skip

theorem In.rule (hc : c.In source) (h : c.rule source = .ok (r, d)) : d.In source := by
  obtain ⟨c₁, c₂, c₃, hselector, hopen, hblock, hclose⟩ := rule_eq_ok.mp h
  exact (((hc.skip.word hselector).skip.mark hopen).declarations hblock).skip.mark hclose

end Cursor

end Stylesheet
