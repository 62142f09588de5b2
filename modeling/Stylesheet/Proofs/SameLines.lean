import Stylesheet.Files.Newlines

/-!
# Texts with the same lines

A line ends with a line feed, a carriage return, or both. Texts are read as the same text exactly if they
differ in their line ends only.
-/

namespace Stylesheet.Text

/-! ## Line ends -/

inductive LineEnd
  | feed
  | carriage
  | both
deriving DecidableEq

def LineEnd.text : LineEnd → Text
  | feed => ['\n']
  | carriage => ['\r']
  | both => ['\r', '\n']

/-- A carriage return is no line end of its own before a line feed. -/
def LineEnd.Fits (b : LineEnd) (behind : Text) : Prop := b = .carriage → behind.head? ≠ some '\n'

inductive SameLines : Text → Text → Prop
  | nil : SameLines [] []
  | char {c : Char} {s t : Text} (hc : c ≠ '\r' ∧ c ≠ '\n') (h : SameLines s t) :
      SameLines (c :: s) (c :: t)
  | lineEnd {b b' : LineEnd} {s t : Text} (hs : b.Fits s) (ht : b'.Fits t) (h : SameLines s t) :
      SameLines (b.text ++ s) (b'.text ++ t)

variable {b b' : LineEnd} {c : Char} {s t u : Text}

/-! ## How texts are read -/

theorem withLineFeeds_cons (hc : c ≠ '\r') (t : Text) : withLineFeeds (c :: t) = c :: withLineFeeds t := by
  simp [withLineFeeds, hc]

theorem withLineFeeds_lineEnd (h : b.Fits t) : withLineFeeds (b.text ++ t) = '\n' :: withLineFeeds t := by
  cases b with
  | feed => exact withLineFeeds_cons (by decide) t
  | both => rfl
  | carriage =>
    have hnext := h rfl
    cases t with
    | nil => rfl
    | cons c t =>
      have hc : c ≠ '\n' := by simpa using hnext
      simp [LineEnd.text, withLineFeeds, hc]

/-- A text begins with a line end or with another character. -/
theorem cases_of_text (t : Text) :
    t = [] ∨ (∃ c u, (c ≠ '\r' ∧ c ≠ '\n') ∧ t = c :: u) ∨ ∃ (b : LineEnd) (u : Text), b.Fits u ∧ t = b.text ++ u := by
  rcases t with _ | ⟨c, u⟩
  · exact .inl rfl
  refine .inr ?_
  by_cases hfeed : c = '\n'
  · exact .inr ⟨.feed, u, nofun, by simp [LineEnd.text, hfeed]⟩
  by_cases hreturn : c = '\r'
  · subst hreturn
    -- The next character settles whether the carriage return stands alone.
    by_cases hnext : u.head? = some '\n'
    · obtain ⟨rest, rfl⟩ := List.head?_eq_some_iff.mp hnext
      exact .inr ⟨.both, rest, nofun, rfl⟩
    · exact .inr ⟨.carriage, u, fun _ => hnext, rfl⟩
  · exact .inl ⟨c, u, ⟨hreturn, hfeed⟩, rfl⟩

theorem eq_nil_of_withLineFeeds (h : withLineFeeds t = []) : t = [] := by
  rcases cases_of_text t with rfl | ⟨c, u, hc, rfl⟩ | ⟨b, u, hb, rfl⟩
  · rfl
  · rw [withLineFeeds_cons hc.1] at h
    cases h
  · rw [withLineFeeds_lineEnd hb] at h
    cases h

theorem exists_char_of_withLineFeeds (h : withLineFeeds t = c :: u) (hc : c ≠ '\n') :
    c ≠ '\r' ∧ ∃ rest, t = c :: rest ∧ withLineFeeds rest = u := by
  rcases cases_of_text t with rfl | ⟨d, rest, hd, rfl⟩ | ⟨b, rest, hb, rfl⟩
  · cases h
  · rw [withLineFeeds_cons hd.1] at h
    cases h
    exact ⟨hd.1, rest, rfl, rfl⟩
  · rw [withLineFeeds_lineEnd hb] at h
    cases h
    exact absurd rfl hc

theorem exists_lineEnd_of_withLineFeeds (h : withLineFeeds t = '\n' :: u) :
    ∃ (b : LineEnd) (rest : Text), b.Fits rest ∧ t = b.text ++ rest ∧ withLineFeeds rest = u := by
  rcases cases_of_text t with rfl | ⟨d, rest, hd, rfl⟩ | ⟨b, rest, hb, rfl⟩
  · cases h
  · rw [withLineFeeds_cons hd.1] at h
    cases h
    exact absurd rfl hd.2
  · rw [withLineFeeds_lineEnd hb] at h
    cases h
    exact ⟨b, rest, hb, rfl, rfl⟩

/-! ## Texts that are read alike -/

theorem SameLines.withLineFeeds_eq (h : SameLines s t) : withLineFeeds s = withLineFeeds t := by
  induction h with
  | nil => rfl
  | char hc _ ih => rw [withLineFeeds_cons hc.1, withLineFeeds_cons hc.1, ih]
  | lineEnd hs ht _ ih => rw [withLineFeeds_lineEnd hs, withLineFeeds_lineEnd ht, ih]

theorem sameLines_iff : SameLines s t ↔ withLineFeeds s = withLineFeeds t := by
  constructor
  · exact SameLines.withLineFeeds_eq
  · intro h
    -- On the text that both are read as.
    induction hu : withLineFeeds t generalizing s t with
    | nil =>
      rw [eq_nil_of_withLineFeeds (h.trans hu), eq_nil_of_withLineFeeds hu]
      exact .nil
    | cons c u ih =>
      rw [hu] at h
      by_cases hc : c = '\n'
      · subst hc
        obtain ⟨b, s, hs, rfl, hsu⟩ := exists_lineEnd_of_withLineFeeds h
        obtain ⟨b', t, ht, rfl, htu⟩ := exists_lineEnd_of_withLineFeeds hu
        apply SameLines.lineEnd hs ht
        exact ih (hsu.trans htu.symm) htu
      · obtain ⟨hreturn, s, rfl, hsu⟩ := exists_char_of_withLineFeeds h hc
        obtain ⟨-, t, rfl, htu⟩ := exists_char_of_withLineFeeds hu hc
        apply SameLines.char ⟨hreturn, hc⟩
        exact ih (hsu.trans htu.symm) htu

/-! ## One line end throughout -/

/-- A text with the same line end for each of its line feeds. -/
def spelled (b : LineEnd) (t : Text) : Text := t.flatMap fun c => if c = '\n' then b.text else [c]

theorem not_mem_spelled (t : Text) : '\n' ∉ spelled .carriage t := by
  unfold spelled
  simp only [List.mem_flatMap, not_exists, not_and]
  intro c _
  by_cases hc : c = '\n'
  · simp [hc, LineEnd.text]
  · simp [hc, Ne.symm hc]

theorem fits_spelled (b : LineEnd) (t : Text) : b.Fits (spelled b t) := by
  rintro rfl hnext
  exact not_mem_spelled t (List.mem_of_head? hnext)

theorem withLineFeeds_spelled (b : LineEnd) (h : '\r' ∉ t) : withLineFeeds (spelled b t) = t := by
  induction t with
  | nil => rfl
  | cons c t ih =>
    simp only [List.mem_cons, not_or] at h
    have hrest := ih h.2
    have hcons : spelled b (c :: t) = (if c = '\n' then b.text else [c]) ++ spelled b t := List.flatMap_cons
    rw [hcons]
    by_cases hc : c = '\n'
    · rw [if_pos hc, withLineFeeds_lineEnd (fits_spelled b t), hrest, hc]
    · rw [if_neg hc, List.singleton_append, withLineFeeds_cons (Ne.symm h.1), hrest]

/-- The three spellings of a text have the same lines. -/
theorem sameLines_spelled (b b' : LineEnd) (h : '\r' ∉ t) : SameLines (spelled b t) (spelled b' t) := by
  rw [sameLines_iff, withLineFeeds_spelled b h, withLineFeeds_spelled b' h]

end Stylesheet.Text
