import Stylesheet.Command.Bump
import Stylesheet.Proofs.Pieces

/-!
# Version numbers

A version number is three runs of digits with dots between them. The check of a version lets all of these
pass, but not these alone: digits may be of any script, and a line feed may follow.
-/

namespace Stylesheet

theorem Text.intercalate_pieces (sep : Char) (t : Text) :
    List.intercalate [sep] (pieces sep t) = t := by
  induction t with
  | nil => rfl
  | cons c t ih =>
    obtain ⟨p, ps, h⟩ := exists_pieces sep t
    rw [h] at ih
    by_cases hc : c = sep
    · rw [hc, pieces_cons_sep, h, List.intercalate_cons_cons, ih]
      rfl
    · rw [pieces_cons_of_ne hc h]
      cases ps with
      | nil => rw [List.intercalate_singleton, ← ih, List.intercalate_singleton]
      | cons q ps =>
        rw [List.intercalate_cons_cons] at ih ⊢
        simp [← ih]

namespace Release

/-! ## Runs of digits -/

def Run (digit : Char → Bool) (t : Text) : Prop := t ≠ [] ∧ ∀ c ∈ t, digit c

/-- Three runs of digits with dots between them. -/
def Dotted (digit : Char → Bool) (t : Text) : Prop :=
  ∃ major minor patch, Run digit major ∧ Run digit minor ∧ Run digit patch ∧
    t = major ++ '.' :: minor ++ '.' :: patch

/-- A version number in ASCII digits. -/
def IsPlain (t : Text) : Prop := Dotted Char.isDigit t

variable {digit digit' : Char → Bool} {t : Text}

theorem Run.not_mem (h : Run digit t) {c : Char} (hc : digit c = false) : c ∉ t := by
  intro hmem
  have := h.2 c hmem
  simp [hc] at this

theorem Dotted.char (h : Dotted digit t) {c : Char} (hc : c ∈ t) : digit c ∨ c = '.' := by
  obtain ⟨a, b, p, ha, hb, hp, rfl⟩ := h
  simp only [List.mem_append, List.mem_cons] at hc
  rcases hc with (hc | rfl | hc) | rfl | hc
  · exact .inl (ha.2 c hc)
  · exact .inr rfl
  · exact .inl (hb.2 c hc)
  · exact .inr rfl
  · exact .inl (hp.2 c hc)

theorem Dotted.mono (h : Dotted digit t) (hdigits : ∀ c ∈ t, digit c → digit' c) : Dotted digit' t := by
  obtain ⟨a, b, p, ha, hb, hp, rfl⟩ := h
  refine ⟨a, b, p, ⟨ha.1, fun c hc => ?_⟩, ⟨hb.1, fun c hc => ?_⟩, ⟨hp.1, fun c hc => ?_⟩, rfl⟩
  · exact hdigits c (by simp [hc]) (ha.2 c hc)
  · exact hdigits c (by simp [hc]) (hb.2 c hc)
  · exact hdigits c (by simp [hc]) (hp.2 c hc)

/-- The dots cut a version number into its runs. -/
theorem dotted_iff_pieces (hdot : digit '.' = false) :
    Dotted digit t ↔ (Text.pieces '.' t).length = 3 ∧ ∀ run ∈ Text.pieces '.' t, Run digit run := by
  constructor
  · rintro ⟨a, b, c, ha, hb, hc, rfl⟩
    rw [Text.pieces_append_sep, Text.pieces_append_sep, Text.pieces_of_not_mem (ha.not_mem hdot),
      Text.pieces_of_not_mem (hb.not_mem hdot), Text.pieces_of_not_mem (hc.not_mem hdot)]
    exact ⟨rfl, by simp [ha, hb, hc]⟩
  · rintro ⟨hlength, hruns⟩
    obtain ⟨a, b, c, hpieces⟩ := List.length_eq_three.mp hlength
    rw [hpieces] at hruns
    refine ⟨a, b, c, hruns a (by simp), hruns b (by simp), hruns c (by simp), ?_⟩
    rw [← Text.intercalate_pieces '.' t, hpieces]
    simp [List.intercalate]

instance (digit : Char → Bool) (t : Text) : Decidable (Run digit t) :=
  decidable_of_iff (t ≠ [] ∧ t.all digit) (and_congr_right' List.all_eq_true)

instance : DecidablePred IsPlain := fun _ =>
  decidable_of_iff _ (dotted_iff_pieces (by decide)).symm

/-! ## The check -/

theorem isVersion_iff_dotted :
    isVersion t ↔ Dotted isDigit (if t.getLast? = some '\n' then t.dropLast else t) := by
  rw [dotted_iff_pieces (by decide), isVersion]
  generalize Text.pieces '.' (if t.getLast? = some '\n' then t.dropLast else t) = runs
  have hrun (run : Text) : (!run.isEmpty && run.all isDigit) = true ↔ Run isDigit run := by
    simp [Run]
  constructor
  · intro h
    split at h
    case h_2 => cases h
    case h_1 a b c => exact ⟨rfl, fun run hmem => (hrun run).mp (List.all_eq_true.mp h run hmem)⟩
  · rintro ⟨hlength, hruns⟩
    obtain ⟨a, b, c, rfl⟩ := List.length_eq_three.mp hlength
    exact List.all_eq_true.mpr fun run hmem => (hrun run).mpr (hruns run hmem)

theorem isVersion_iff : isVersion t ↔ Dotted isDigit t ∨ ∃ v, Dotted isDigit v ∧ t = v ++ ['\n'] := by
  rw [isVersion_iff_dotted]
  split
  case isTrue hlast =>
    have ht := List.dropLast_append_getLast? _ hlast
    constructor
    · intro h
      exact .inr ⟨_, h, ht.symm⟩
    · rintro (h | ⟨v, hv, rfl⟩)
      · -- A line feed is no digit.
        rcases h.char (List.mem_of_getLast? hlast) with hfeed | hfeed <;> exact absurd hfeed (by decide)
      · rwa [List.dropLast_concat]
  case isFalse hlast =>
    constructor
    · exact .inl
    · rintro (h | ⟨v, -, rfl⟩)
      · exact h
      · exact absurd List.getLast?_concat hlast

theorem char_of_isVersion (h : isVersion t) {c : Char} (hc : c ∈ t) :
    isDigit c ∨ c = '.' ∨ c = '\n' := by
  rcases isVersion_iff.mp h with hdotted | ⟨v, hv, rfl⟩
  · exact (hdotted.char hc).imp_right .inl
  · rcases List.mem_append.mp hc with hc | hc
    · exact (hv.char hc).imp_right .inl
    · exact .inr (.inr (List.mem_singleton.mp hc))

theorem IsPlain.isVersion (h : IsPlain t) : isVersion t :=
  isVersion_iff.mpr (.inl (h.mono fun c _ hc => by
    simp only [Char.isDigit, Bool.and_eq_true, decide_eq_true_eq] at hc
    exact isDigit_of_ascii hc.1 hc.2))

/-- What passes the check and is no version number in ASCII digits: a line feed follows, or there is a
digit of another script. -/
def IsLoose (t : Text) : Prop :=
  (∃ v, Dotted isDigit v ∧ t = v ++ ['\n']) ∨ Dotted isDigit t ∧ ∃ c ∈ t, isDigit c ∧ ¬c.isDigit

theorem IsLoose.not_isPlain (h : IsLoose t) : ¬IsPlain t := by
  intro hplain
  rcases h with ⟨v, -, rfl⟩ | ⟨-, c, hc, hdigit, hascii⟩
  · rcases hplain.char (c := '\n') (by simp) with hfeed | hfeed <;> exact absurd hfeed (by decide)
  · rcases hplain.char hc with h | rfl
    · exact hascii h
    · exact absurd hdigit (by decide)

theorem isVersion_iff_isPlain_or_isLoose : isVersion t ↔ IsPlain t ∨ IsLoose t := by
  constructor
  · intro h
    rcases isVersion_iff.mp h with hdotted | hfeed
    · by_cases hascii : ∀ c ∈ t, isDigit c → c.isDigit
      · exact .inl (hdotted.mono hascii)
      · push Not at hascii
        exact .inr (.inr ⟨hdotted, hascii⟩)
    · exact .inr (.inl hfeed)
  · rintro (h | h | ⟨h, -⟩)
    · exact h.isVersion
    · exact isVersion_iff.mpr (.inr h)
    · exact isVersion_iff.mpr (.inl h)

end Release

namespace Command.Bump

open Release

theorem run_checkVersion (version : Text) (d : Desk) :
    (checkVersion version).run.run d =
      (if isVersion version then .ok () else .error .badVersion, d) := by
  unfold checkVersion
  split <;> rfl

/-- Every version number in ASCII digits passes the check. What else passes has a line feed behind it or
a digit of another script, and all other texts are refused. -/
theorem checkVersion_cases (version : Text) (d : Desk) :
    (IsPlain version → (checkVersion version).run.run d = (.ok (), d)) ∧
    (IsLoose version → ¬IsPlain version ∧ (checkVersion version).run.run d = (.ok (), d)) ∧
    (¬IsPlain version → ¬IsLoose version →
      (checkVersion version).run.run d = (.error .badVersion, d)) := by
  rw [run_checkVersion]
  refine ⟨fun h => ?_, fun h => ⟨h.not_isPlain, ?_⟩, fun hplain hloose => ?_⟩
  · rw [if_pos h.isVersion]
  · rw [if_pos (isVersion_iff_isPlain_or_isLoose.mpr (.inr h))]
  · rw [if_neg (mt isVersion_iff_isPlain_or_isLoose.mp (not_or.mpr ⟨hplain, hloose⟩))]

/-- A line feed gets through at the end. -/
theorem not_isPlain_of_checkVersion :
    ¬∀ (version : Text) (d : Desk),
      (checkVersion version).run.run d = (.ok (), d) → IsPlain version := by
  intro h
  have hplain := h "1.2.3\n".toList ⟨⟨[], []⟩, []⟩ (by rw [run_checkVersion]; rfl)
  rcases hplain.char (c := '\n') (by decide) with hfeed | hfeed <;> exact absurd hfeed (by decide)

end Command.Bump

end Stylesheet
