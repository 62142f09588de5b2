import Stylesheet.Text

/-!
# The characters of a stylesheet

Blanks separate, letters make words. All other characters stand for themselves.
-/

namespace Stylesheet

/-- Space and the five control characters from tab to carriage return. -/
def blanks : List Char := ['\t', '\n', '\x0b', '\x0c', '\r', ' ']

def isBlank (c : Char) : Bool := blanks.contains c

/-- The ASCII letters, and no others. -/
def isLetter (c : Char) : Bool := ('A' ≤ c && c ≤ 'Z') || ('a' ≤ c && c ≤ 'z')

/-- All letters, in the order of their code points. -/
def letters : List Char := ((List.range 128).map Char.ofNat).filter isLetter

theorem isBlank_iff (c : Char) : isBlank c = true ↔ c ∈ blanks := by simp [isBlank]

/-- No character is both. -/
theorem not_isLetter_of_isBlank {c : Char} (h : isBlank c = true) : isLetter c = false := by
  simp only [isBlank_iff, blanks, List.mem_cons, List.not_mem_nil, or_false] at h
  rcases h with rfl | rfl | rfl | rfl | rfl | rfl <;> rfl

end Stylesheet
