import Stylesheet.Proofs.Lexeme

/-!
# Cursors and lexemes

What is left at a cursor as lexemes. Blanks are skipped without a loss, and a mark or a word that is
read is the first lexeme.
-/

namespace Stylesheet

namespace Cursor

variable {source : Text} {c d : Cursor}

/-! ## Cursors of a source -/

/-- What was read up to a cursor and what is left make up the source. -/
def In (source : Text) (c : Cursor) : Prop :=
  ∃ before, source = before ++ c.rest ∧ c.pos = before.length

theorem in_start (source : Text) : (start source).In source := ⟨[], rfl, rfl⟩

theorem In.advance (hc : c.In source) {t : Text} (hrest : c.rest = t ++ d.rest)
    (hpos : d.pos = c.pos + t.length) : d.In source := by
  obtain ⟨before, rfl, hp⟩ := hc
  refine ⟨before ++ t, by rw [hrest, List.append_assoc], ?_⟩
  rw [hpos, hp, List.length_append]
  omega

theorem In.past (hc : c.In source) (test : Char → Bool) : (c.past test).In source :=
  hc.advance (takeWhile_append_past test c).symm rfl

theorem In.skip (hc : c.In source) : c.skip.In source := hc.past isBlank

/-- A span between two cursors of a source covers what was read between them. -/
theorem text_between (hc : c.In source) {t : Text} (hrest : c.rest = t ++ d.rest)
    (hpos : d.pos = c.pos + t.length) : Span.text ⟨source, c.pos, d.pos⟩ = t := by
  obtain ⟨before, rfl, hp⟩ := hc
  have hd : d.pos = (before.length + t.length : Nat) := by
    rw [hpos, hp]
    omega
  rw [Span.text, hp, hd, Text.slice_of_nat _ (by simp) (by simp [hrest]), hrest,
    ← List.append_assoc, List.take_append_of_le_length (by simp),
    List.take_of_length_le (by simp), List.drop_left]

/-! ## Tokens at a cursor -/

def lexemes (c : Cursor) : List Lexeme := Stylesheet.lexemes c.pos c.rest

theorem lexemes_skip (c : Cursor) : c.skip.lexemes = c.lexemes := by
  rw [lexemes, lexemes, ← takeWhile_append_past isBlank c, lexemes_blanks (blanks_takeWhile _)]
  rfl

theorem not_isBlank_skip {x : Char} {t : Text} (h : c.skip.rest = x :: t) : isBlank x = false := by
  apply not_isBlank_dropWhile c.rest
  exact congrArg List.head? h

theorem skip_skip (c : Cursor) : c.skip.skip = c.skip := by
  have hnil : c.skip.rest.takeWhile isBlank = [] := by
    cases h : c.skip.rest with
    | nil => rfl
    | cons x t => rw [List.takeWhile_cons_of_neg (by simp [not_isBlank_skip h])]
  have hrest : c.skip.rest.dropWhile isBlank = c.skip.rest := by
    have := List.takeWhile_append_dropWhile (p := isBlank) (l := c.skip.rest)
    rwa [hnil, List.nil_append] at this
  rw [skip, past, hnil, hrest]
  simp

theorem skip_pos_of_nil (hc : c.In source) (h : c.skip.rest = []) :
    c.skip.pos = source.length := by
  obtain ⟨before, hs, hp⟩ := hc.skip
  rw [hs, h, List.append_nil, hp]

theorem lexemes_of_nil (h : c.skip.rest = []) : c.lexemes = [] := by
  rw [← lexemes_skip, lexemes, h, lexemes_nil]

theorem lexemes_of_cons {x : Char} {t : Text} (h : c.skip.rest = x :: t) :
    ∃ token rest, c.lexemes = ⟨token, c.skip.pos⟩ :: rest ∧ token.Begins x := by
  rw [← lexemes_skip, lexemes, h]
  exact lexemes_of_not_blank (not_isBlank_skip h) _ t

theorem lexemes_of_mark {x : Char} (hc : c.In source) (hb : isBlank x = false)
    (hl : isLetter x = false) (h : c.skip.mark [x] = .ok d) :
    c.lexemes = ⟨.mark x, c.skip.pos⟩ :: d.lexemes ∧ d.In source := by
  unfold mark at h
  split at h
  · cases h
  · rename_i y rest hy
    split at h
    · rename_i hxy
      cases hxy
      cases h
      refine ⟨?_, hc.skip.advance (t := [x]) hy rfl⟩
      rw [← lexemes_skip, lexemes, hy, lexemes_mark hb hl]
      rfl
    · cases h

theorem lexemes_of_word {s : Span} (hc : c.In source) (h : c.skip.word source = .ok (s, d)) :
    c.lexemes = ⟨.word s.text, c.skip.pos⟩ :: d.lexemes ∧ IsWord s.text ∧ d.In source := by
  unfold word at h
  split at h
  · cases h
  · rename_i hne
    cases h
    have hrest := (takeWhile_append_past isLetter c.skip).symm
    have hword : IsWord (c.skip.rest.takeWhile isLetter) := by
      refine ⟨?_, fun x hx => List.all_eq_true.mp List.all_takeWhile x hx⟩
      intro hnil
      exact hne (by rw [past, hnil]; simp)
    rw [text_between hc.skip hrest rfl]
    refine ⟨?_, hword, hc.skip.past isLetter⟩
    have hlex := lexemes_word hword (noLetter_dropWhile c.skip.rest) c.skip.pos
    rw [List.takeWhile_append_dropWhile] at hlex
    rw [← lexemes_skip]
    exact hlex

end Cursor

end Stylesheet
