/-!
# Text

A text is a list of characters, so positions count characters and a reader recurses on what is
left of its text.
-/

namespace Stylesheet

abbrev Text := List Char

namespace Text

/-! ## Numerals -/

/-- The decimal numeral of an integer. -/
def ofInt : Int → Text
  | .ofNat n => Nat.toDigits 10 n
  | .negSucc n => '-' :: Nat.toDigits 10 (n + 1)

/-! ## Cutting -/

/-- Where a bound falls in a text of `n` characters. A negative bound counts from the end, once, and
what still lies outside moves to the nearer edge. -/
def bound (n : Nat) (i : Int) : Nat := min (if i < 0 then i + n else i).toNat n

/-- The characters between two bounds, none if the bounds cross. -/
def slice (t : Text) (start stop : Int) : Text :=
  (t.take (bound t.length stop)).drop (bound t.length start)

theorem bound_le (n : Nat) (i : Int) : bound n i ≤ n := Nat.min_le_right _ _

theorem bound_of_nat {n k : Nat} (h : k ≤ n) : bound n k = k := by simp [bound]; omega

theorem slice_of_nat (t : Text) {a b : Nat} (ha : a ≤ t.length) (hb : b ≤ t.length) :
    slice t a b = (t.take b).drop a := by
  simp only [slice, bound_of_nat ha, bound_of_nat hb]

/-! ## Searching -/

/-- Whether `part` occurs in a text. -/
def contains (part : Text) : Text → Bool
  | [] => part.isEmpty
  | c :: cs => part.isPrefixOf (c :: cs) || contains part cs

/-- A text without the occurrences of `part`, found from left to right. What is left is not searched
again. The counter says how many characters of the last occurrence are still to be dropped. -/
def dropOccurrences (part : Text) : Nat → Text → Text
  | _, [] => []
  | n + 1, _ :: cs => dropOccurrences part n cs
  | 0, c :: cs =>
    if part.isPrefixOf (c :: cs) then dropOccurrences part (part.length - 1) cs
    else c :: dropOccurrences part 0 cs

/-- A text without `part`. -/
def without (part t : Text) : Text := dropOccurrences part 0 t

/-- The pieces between the occurrences of a character, one more than there are occurrences. -/
def pieces (sep : Char) : Text → List Text
  | [] => [[]]
  | c :: cs =>
    if c = sep then [] :: pieces sep cs
    else match pieces sep cs with
      | [] => [[c]]
      | p :: ps => (c :: p) :: ps

end Text

end Stylesheet
