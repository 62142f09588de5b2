import Stylesheet.Text

/-!
# Ends of lines

A line of a file may end with a line feed, a carriage return, or both. Texts have line feeds only.
-/

namespace Stylesheet.Text

/-- The text with a line feed for every end of a line. -/
def withLineFeeds : Text → Text
  | [] => []
  | '\r' :: '\n' :: cs => '\n' :: withLineFeeds cs
  | c :: cs => (if c = '\r' then '\n' else c) :: withLineFeeds cs

theorem not_mem_withLineFeeds (t : Text) : '\r' ∉ withLineFeeds t := by
  fun_induction withLineFeeds t with
  | case1 => simp
  | case2 cs ih => simp [ih]
  | case3 c cs _ ih =>
    by_cases h : c = '\r'
    · simp [h, ih]
    · simp [h, Ne.symm h, ih]

/-- A text with line feeds only stays as it is. -/
theorem withLineFeeds_of_not_mem {t : Text} (h : '\r' ∉ t) : withLineFeeds t = t := by
  fun_induction withLineFeeds t with
  | case1 => rfl
  | case2 cs ih => simp at h
  | case3 c cs _ ih =>
    simp only [List.mem_cons, not_or] at h
    rw [if_neg (Ne.symm h.1), ih h.2]

theorem withLineFeeds_withLineFeeds (t : Text) :
    withLineFeeds (withLineFeeds t) = withLineFeeds t :=
  withLineFeeds_of_not_mem (not_mem_withLineFeeds t)

end Stylesheet.Text
