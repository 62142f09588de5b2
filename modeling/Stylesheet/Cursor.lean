import Stylesheet.Alphabet
import Stylesheet.Fault
import Stylesheet.Sheet

/-!
# Cursors

A cursor is a position in a source with the characters that are read from there on. Tokens are read
at a cursor and give the cursor behind them: runs of blanks, single marks, and words, which are runs
of letters as long as possible.
-/

namespace Stylesheet

structure Cursor where
  pos : Int
  rest : Text
deriving DecidableEq

namespace Cursor

/-- The cursor at a position of a source. Behind the end nothing is left to read. A negative position
counts from the end, and reading from it goes on with the source from its beginning once the end is
reached. Before that there is no position. -/
def ofPos? (source : Text) (pos : Int) : Option Cursor :=
  if 0 ≤ pos then some ⟨pos, source.drop pos.toNat⟩
  else if 0 ≤ pos + source.length then
    some ⟨pos, source.drop (pos + source.length).toNat ++ source⟩
  else none

/-- The cursor at the beginning of a source. -/
def start (source : Text) : Cursor := ⟨0, source⟩

/-- The cursor behind the leading characters that pass a test. -/
def past (test : Char → Bool) (c : Cursor) : Cursor :=
  ⟨c.pos + (c.rest.takeWhile test).length, c.rest.dropWhile test⟩

/-! ## Tokens -/

/-- The cursor behind the blanks. -/
def skip (c : Cursor) : Cursor := c.past isBlank

/-- Reads a mark. Only a mark of one character can be there. -/
def mark (m : Text) (c : Cursor) : Except Failure Cursor :=
  match c.rest with
  | [] => .error ⟨.missingMark m, c.pos⟩
  | x :: rest => if m = [x] then .ok ⟨c.pos + 1, rest⟩ else .error ⟨.missingMark m, c.pos⟩

/-- Reads a word of `source`. -/
def word (source : Text) (c : Cursor) : Except Failure (Span × Cursor) :=
  if (c.past isLetter).pos = c.pos then .error ⟨.missingWord, c.pos⟩
  else .ok (⟨source, c.pos, (c.past isLetter).pos⟩, c.past isLetter)

/-! ## How much is left -/

/-- Nothing is lost between a cursor and the cursor past a run. -/
theorem takeWhile_append_past (test : Char → Bool) (c : Cursor) :
    c.rest.takeWhile test ++ (c.past test).rest = c.rest := List.takeWhile_append_dropWhile

theorem length_past_le (test : Char → Bool) (c : Cursor) :
    (c.past test).rest.length ≤ c.rest.length := (List.dropWhile_sublist test).length_le

theorem length_skip_le (c : Cursor) : c.skip.rest.length ≤ c.rest.length := length_past_le _ c

theorem length_of_mark {m : Text} {c d : Cursor} (h : c.mark m = .ok d) :
    c.rest.length = d.rest.length + 1 := by
  unfold mark at h
  split at h
  · cases h
  · rename_i x rest hx
    split at h
    · cases h; simp [hx]
    · cases h

theorem length_of_word {source : Text} {c d : Cursor} {s : Span} (h : c.word source = .ok (s, d)) :
    d.rest.length ≤ c.rest.length := by
  unfold word at h
  split at h
  · cases h
  · cases h; exact length_past_le _ c

end Cursor

end Stylesheet
