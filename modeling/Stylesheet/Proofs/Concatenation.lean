import Stylesheet.Proofs.Context
import Stylesheet.Proofs.Failure
import Stylesheet.Proofs.Language
import Stylesheet.Proofs.Lines

/-!
# Concatenation

Behind an accepted text, any text is read as it is read alone. So the language is closed under
concatenation, the rules of the two texts follow each other, and an error of the second text is the
error of both, at its place behind the first.
-/

namespace Stylesheet

/-! ## Derivations -/

/-- Items with blanks behind them, and more items behind these. -/
theorem spaced_append {α : Type} {item : Text → α → Prop} {t b u : Text} {as bs : List α}
    (ht : Spaced item t as) (hb : Blanks b) (hu : Spaced item u bs) :
    ∃ b' v, t ++ b ++ u = b' ++ v ∧ Blanks b' ∧ Spaced item v (as ++ bs) := by
  induction ht with
  | nil => exact ⟨b, u, rfl, hb, hu⟩
  | @cons t b₁ ts a as ha hb₁ _ ih =>
    obtain ⟨b', v, hv, hb', hspaced⟩ := ih
    refine ⟨[], t ++ (b₁ ++ b') ++ v, ?_, .nil, .cons ha (hb₁.append hb') hspaced⟩
    simp only [List.append_assoc, List.nil_append] at hv ⊢
    rw [hv]

theorem derivesSheet_append {names : Vocabulary} {t u : Text} {c e : SheetContent}
    (ht : DerivesSheet names t c) (hu : DerivesSheet names u e) :
    DerivesSheet names (t ++ u) (c ++ e) := by
  cases ht with
  | @mk b body _ hb hrs =>
    cases hu with
    | @mk b' body' _ hb' hqs =>
      obtain ⟨b'', v, hv, hb'', hspaced⟩ := spaced_append hrs hb' hqs
      have happend : b ++ body ++ (b' ++ body') = b ++ b'' ++ v := by
        rw [List.append_assoc, List.append_assoc, ← hv, List.append_assoc]
      rw [happend]
      exact .mk (hb.append hb'') hspaced

/-! ## Accepted texts -/

theorem Accepted.append {t u : Text} (ht : Accepted t) (hu : Accepted u) : Accepted (t ++ u) := by
  rw [accepted_iff_derives] at ht hu ⊢
  obtain ⟨c, hc⟩ := ht
  obtain ⟨e, he⟩ := hu
  exact ⟨c ++ e, derivesSheet_append hc he⟩

theorem accepted_of_blanks {b : Text} (hb : Blanks b) : Accepted b := by
  rw [accepted_iff_derives]
  exact ⟨[], by simpa using DerivesSheet.mk hb .nil⟩

theorem accepted_of_rule {b t : Text} {r : RuleContent} (hb : Blanks b)
    (ht : DerivesRule .properties t r) : Accepted (b ++ t) := by
  rw [accepted_iff_derives]
  exact ⟨[r], by simpa using DerivesSheet.mk hb (.cons ht .nil .nil)⟩

/-! ## Reading -/

section

variable {x y : Text} {s t : Sheet} {f : Failure} {e : ParseError}

theorem read_append (hx : Sheet.parse? x = .ok s) (y : Text) :
    Sheet.read (x ++ y) =
      (s.rules.map (Rule.mapSpans (Span.before y)) ++
          (Sheet.read y).1.map (Rule.mapSpans (Span.behind x)),
        (Sheet.read y).2.map (Failure.behind x)) := by
  have hrules : (Cursor.start x).rules x = (s.rules, none) := parse?_eq_ok.mp hx
  have hboth := Cursor.rules_before (Cursor.in_start x) (by rw [hrules])
    (Cursor.rules_behind (Cursor.in_start y) x)
  rwa [hrules] at hboth

theorem verdict_append (hx : Sheet.parse? x = .ok s) (y : Text) :
    verdict .properties (x ++ y) = (verdict .properties y).map (Failure.behind x) := by
  rw [← read_failure, ← read_failure, read_append hx]

theorem parse?_append_ok (hx : Sheet.parse? x = .ok s) (hy : Sheet.parse? y = .ok t) :
    ∃ u, Sheet.parse? (x ++ y) = .ok u ∧ u.content = s.content ++ t.content ∧
      u.rules = s.rules.map (Rule.mapSpans (Span.before y)) ++
        t.rules.map (Rule.mapSpans (Span.behind x)) := by
  have hread := read_append hx y
  rw [parse?_eq_ok.mp hy] at hread
  have hu := (parse?_eq_ok (s := ⟨_⟩)).mpr hread
  have happend := derivesSheet_append (derives_content_of_parse? hx) (derives_content_of_parse? hy)
  exact ⟨_, hu, content_eq_of_derivesSheet (derives_content_of_parse? hu) happend, rfl⟩

/-- The same error at its place behind `x`. The lines of `x` come first, and what stands on its last line
moves the columns of the first line behind it. -/
structure ParseError.Behind (x : Text) (e e' : ParseError) : Prop where
  kind : e'.kind = e.kind
  message : e'.diagnostic.message = e.diagnostic.message
  offset : e'.diagnostic.offset = x.length + e.diagnostic.offset
  line : e'.diagnostic.line = e.diagnostic.line + (x.count '\n' : Nat)
  column : e'.diagnostic.column = e.diagnostic.column +
    if e.diagnostic.line = 1 then (x.lastLine.length : Int) else 0

theorem error_behind_of_pos {o : Nat} (ho : o ≤ y.length) (hpos : f.pos = o) (x : Text) :
    (f.error y).Behind x ((f.behind x).error (x ++ y)) := by
  have hpos' : (f.behind x).pos = (x.length + o : Nat) := by simp [Failure.behind, hpos]
  simp only [Failure.error, hpos, hpos']
  refine ⟨rfl, rfl, ?_, Diagnostic.locate_line_append _ x ho,
    Diagnostic.locate_column_append _ x ho⟩
  rw [Diagnostic.locate_offset _ ho, Diagnostic.locate_offset _ (by simp [ho])]
  omega

theorem error_behind (hf : verdict .properties y = some f) (x : Text) :
    (f.error y).Behind x ((f.behind x).error (x ++ y)) := by
  obtain ⟨o, ho, hpos⟩ := exists_pos_of_verdict hf
  exact error_behind_of_pos ho hpos x

theorem parse?_append_error (hx : Sheet.parse? x = .ok s) (hy : Sheet.parse? y = .error e) :
    ∃ e', Sheet.parse? (x ++ y) = .error e' ∧ e.Behind x e' := by
  obtain ⟨f, hf, rfl⟩ := parse?_eq_error.mp hy
  refine ⟨_, parse?_eq_error.mpr ⟨f.behind x, ?_, rfl⟩, error_behind hf x⟩
  rw [verdict_append hx, hf]
  rfl

end

/-- Behind a text that is accepted, a second text is accepted exactly if it is accepted alone. Then the
rules of the first are followed by those of the second, whose spans move by the length of the first.
Otherwise the error is that of the second text, at its place behind the first. -/
theorem parse?_append (x y : Text) (s : Sheet) (hx : Sheet.parse? x = .ok s) :
    (Accepted (x ++ y) ↔ Accepted y) ∧
    (∀ t, Sheet.parse? y = .ok t →
      ∃ u, Sheet.parse? (x ++ y) = .ok u ∧ u.content = s.content ++ t.content ∧
        u.rules = s.rules.map (Rule.mapSpans (Span.before y)) ++
          t.rules.map (Rule.mapSpans (Span.behind x))) ∧
    ∀ e, Sheet.parse? y = .error e → ∃ e', Sheet.parse? (x ++ y) = .error e' ∧ e.Behind x e' := by
  refine ⟨?_, fun t ht => parse?_append_ok hx ht, fun e he => parse?_append_error hx he⟩
  rw [accepted_iff_verdict, accepted_iff_verdict, verdict_append hx, Option.map_eq_none_iff]

/-- A rule and a new line, and behind them a rule without its opening brace. -/
theorem parse?_append_of_line :
    ∃ s e, Sheet.parse? ['a', '{', '}', '\n', ' '] = .ok s ∧
      Sheet.parse? ['a', '{', '}', '\n', ' ', 'b', ';'] = .error e ∧ e.kind = .missingMark ∧
      e.diagnostic.offset = 6 ∧ e.diagnostic.line = 2 ∧ e.diagnostic.column = 2 := by
  have hx : verdict .properties ['a', '{', '}', '\n', ' '] = none := by
    rw [verdict, lexemes_letter (by decide) (.cons (by decide) _), lexemes_mark (by decide) (by decide),
      lexemes_mark (by decide) (by decide), lexemes_blank (by decide), lexemes_blank (by decide),
      lexemes_nil]
    rfl
  have hy : verdict .properties ['b', ';'] = some ⟨.missingMark ['{'], 1⟩ := by
    rw [verdict, lexemes_letter (by decide) (.cons (by decide) _), lexemes_mark (by decide) (by decide),
      lexemes_nil]
    rfl
  obtain ⟨s, hs⟩ := accepted_iff_verdict.mpr hx
  obtain ⟨e, he, hbehind⟩ :=
    (parse?_append _ ['b', ';'] s hs).2.2 _ (parse?_eq_error.mpr ⟨_, hy, rfl⟩)
  exact ⟨s, e, hs, he, hbehind.kind, hbehind.offset, hbehind.line, hbehind.column⟩

end Stylesheet
