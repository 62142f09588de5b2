import Mathlib.Data.List.DropRight
import Stylesheet.Diagnostic

/-!
# Lines and columns

Where a diagnostic stands, from the text before its offset: the line feeds of that text count the
lines, and what comes behind the last one counts the columns.
-/

namespace Stylesheet

/-- What stands behind the last line feed, or all of a text without one. -/
def Text.lastLine (t : Text) : Text := t.rtakeWhile (· ≠ '\n')

theorem Text.lastLine_concat (t : Text) (c : Char) :
    lastLine (t ++ [c]) = if c = '\n' then [] else lastLine t ++ [c] := by
  rw [lastLine, List.rtakeWhile_concat]
  by_cases hc : c = '\n' <;> simp [hc, lastLine]

theorem Text.lastLine_append (a b : Text) :
    lastLine (a ++ b) = if '\n' ∈ b then lastLine b else lastLine a ++ b := by
  induction b using List.reverseRecOn with
  | nil => simp
  | append_singleton b c ih =>
    rw [← List.append_assoc, lastLine_concat, lastLine_concat, ih]
    by_cases hc : c = '\n'
    · simp [hc]
    · have hne : '\n' ≠ c := fun h => hc h.symm
      by_cases hb : '\n' ∈ b <;> simp [hc, hne, hb]

theorem Text.length_lastLine_le (t : Text) : (lastLine t).length ≤ t.length :=
  (List.rtakeWhile_suffix _ t).length_le

namespace Diagnostic

theorem lineAfter_append (line start pos : Nat) (a b : Text) :
    lineAfter line start pos (a ++ b) =
      lineAfter (lineAfter line start pos a).1 (lineAfter line start pos a).2 (pos + a.length) b := by
  induction a generalizing line start pos with
  | nil => rfl
  | cons c a ih =>
    rw [List.cons_append, List.length_cons, lineAfter, lineAfter]
    have hpos : pos + (a.length + 1) = pos + 1 + a.length := by omega
    split <;> rw [ih, hpos]

/-- The current line behind a text, and where it starts. -/
theorem lineAfter_eq (t : Text) :
    lineAfter 1 0 0 t = (1 + t.count '\n', t.length - t.lastLine.length) := by
  induction t using List.reverseRecOn with
  | nil => rfl
  | append_singleton t c ih =>
    have := Text.length_lastLine_le t
    rw [lineAfter_append, ih, Text.lastLine_concat]
    by_cases hc : c = '\n' <;> simp [lineAfter, hc, Nat.add_assoc]

variable {source : Text} {o : Nat} (message : Text)

theorem locate_message (source : Text) (offset : Int) :
    (locate source offset message).message = message := rfl

theorem locate_offset (h : o ≤ source.length) : (locate source o message).offset = o := by
  simp only [locate, Int.toNat_natCast, Nat.min_eq_left h]

theorem locate_line (h : o ≤ source.length) :
    (locate source o message).line = 1 + ((source.take o).count '\n' : Nat) := by
  simp only [locate, Int.toNat_natCast, Nat.min_eq_left h, lineAfter_eq]
  omega

theorem locate_column (h : o ≤ source.length) :
    (locate source o message).column = ((Text.lastLine (source.take o)).length : Nat) := by
  have hle := Text.length_lastLine_le (source.take o)
  have hlen : (source.take o).length = o := by simp [h]
  simp only [locate, Int.toNat_natCast, Nat.min_eq_left h, lineAfter_eq, hlen]
  rw [hlen] at hle
  omega

theorem locate_lineStart (h : o ≤ source.length) :
    (locate source o message).lineStart = (o - (Text.lastLine (source.take o)).length : Nat) := by
  have hlen : (source.take o).length = o := by simp [h]
  simp only [locate, Int.toNat_natCast, Nat.min_eq_left h, lineAfter_eq, hlen]

theorem locate_lineEnd (h : o ≤ source.length) :
    (locate source o message).lineEnd =
      (o + ((source.drop o).takeWhile (· ≠ '\n')).length : Nat) := by
  simp only [locate, Int.toNat_natCast, Nat.min_eq_left h]

/-- The line of an offset is what stands before it on the line and what is left of the line. -/
theorem drop_take_line (h : o ≤ source.length) :
    (source.take (o + ((source.drop o).takeWhile (· ≠ '\n')).length)).drop
        (o - (Text.lastLine (source.take o)).length) =
      Text.lastLine (source.take o) ++ (source.drop o).takeWhile (· ≠ '\n') := by
  have hlen : (source.take o).length = o := by simp [h]
  have hbefore := List.suffix_iff_eq_drop.mp (List.rtakeWhile_suffix (· ≠ '\n') (source.take o))
  have hbehind := List.prefix_iff_eq_take.mp (List.takeWhile_prefix (· ≠ '\n') (l := source.drop o))
  rw [hlen] at hbefore
  rw [List.take_add, ← hbehind, List.drop_append_of_le_length (by omega)]
  exact congrArg (· ++ _) hbefore.symm

theorem locate_sourceLine (h : o ≤ source.length) :
    (locate source o message).sourceLine =
      withoutReturn (Text.lastLine (source.take o) ++ (source.drop o).takeWhile (· ≠ '\n')) := by
  have hlen : (source.take o).length = o := by simp [h]
  simp only [locate, Int.toNat_natCast, Nat.min_eq_left h, lineAfter_eq, hlen]
  rw [drop_take_line h]

/-! ## Where other text stands before -/

theorem locate_line_append (x : Text) (h : o ≤ source.length) :
    (locate (x ++ source) (x.length + o : Nat) message).line =
      (locate source o message).line + (x.count '\n' : Nat) := by
  rw [locate_line _ h, locate_line _ (by simp [h]), List.take_length_add_append, List.count_append]
  omega

/-- Only the first line begins where the text before it ends. -/
theorem locate_column_append (x : Text) (h : o ≤ source.length) :
    (locate (x ++ source) (x.length + o : Nat) message).column =
      (locate source o message).column +
        if (locate source o message).line = 1 then (x.lastLine.length : Int) else 0 := by
  rw [locate_line _ h, locate_column _ h, locate_column _ (by simp [h]),
    List.take_length_add_append, Text.lastLine_append]
  by_cases hb : '\n' ∈ source.take o
  · have hcount : 0 < (source.take o).count '\n' := List.count_pos_iff.mpr hb
    rw [if_pos hb, if_neg (by omega), Int.add_zero]
  · have hwhole : Text.lastLine (source.take o) = source.take o := by
      simpa [Text.lastLine, hb] using Text.lastLine_append [] (source.take o)
    rw [if_neg hb, if_pos (by simp [List.count_eq_zero.mpr hb]), hwhole, List.length_append]
    omega

end Diagnostic

end Stylesheet
