import Stylesheet.Proofs.Pieces

/-!
# The grid of lines and columns

Every offset of a source has a line and a column of its own, and in the order of reading they come as the
offsets do. Together they are all columns of all lines, the end of each line included.
-/

namespace Stylesheet

/-! ## Beginnings of lines -/

/-- A line begins at the beginning of a text and behind each line feed. -/
theorem Text.exists_lineStart {t : Text} {k : Nat} (h : k ≤ t.count '\n') :
    ∃ a b, t = a ++ b ∧ a.count '\n' = k ∧ lastLine a = [] := by
  induction t using List.reverseRecOn with
  | nil => exact ⟨[], [], rfl, (Nat.le_zero.mp h).symm, rfl⟩
  | append_singleton t c ih =>
    by_cases hk : k ≤ t.count '\n'
    · obtain ⟨a, b, rfl, hcount, hlast⟩ := ih hk
      exact ⟨a, b ++ [c], List.append_assoc a b [c], hcount, hlast⟩
    · -- The last character is the line feed before this line.
      rw [List.count_append, List.count_singleton] at h
      split at h
      · rename_i hc
        obtain rfl : c = '\n' := by simpa using hc
        refine ⟨t ++ ['\n'], [], (List.append_nil _).symm, ?_, by rw [lastLine_concat, if_pos rfl]⟩
        rw [List.count_append, List.count_singleton_self]
        omega
      · omega

namespace Diagnostic

/-! ## The order of reading -/

/-- An earlier line comes first, and on the same line an earlier column. -/
def Before (d d' : Diagnostic) : Prop :=
  d.line < d'.line ∨ d.line = d'.line ∧ d.column < d'.column

instance (d d' : Diagnostic) : Decidable (d.Before d') := inferInstanceAs (Decidable (_ ∨ _))

variable {source : Text} {o o' : Nat}

theorem before_of_lt (message message' : Text) (h : o < o') (h' : o' ≤ source.length) :
    (locate source o message).Before (locate source o' message') := by
  obtain ⟨k, rfl⟩ := Nat.exists_eq_add_of_lt h
  have hlength : 0 < ((source.drop o).take (k + 1)).length := by
    rw [List.length_take, List.length_drop]
    omega
  rw [Before, locate_line _ (by omega), locate_line _ h', locate_column _ (by omega),
    locate_column _ h', Nat.add_assoc, List.take_add, List.count_append, Text.lastLine_append]
  -- Between the two offsets a line ends, or all that stands there is on the same line.
  generalize (source.drop o).take (k + 1) = between at hlength
  by_cases hmem : '\n' ∈ between
  · have := List.count_pos_iff.mpr hmem
    omega
  · rw [List.count_eq_zero.mpr hmem, if_neg hmem, List.length_append]
    omega

theorem lt_iff_before (message message' : Text) (h : o ≤ source.length) (h' : o' ≤ source.length) :
    o < o' ↔ (locate source o message).Before (locate source o' message') := by
  refine ⟨fun hlt => before_of_lt message message' hlt h', fun hbefore => ?_⟩
  rcases Nat.lt_trichotomy o o' with hlt | rfl | hlt
  · exact hlt
  · rw [Before, locate_line _ h, locate_line _ h, locate_column _ h, locate_column _ h] at hbefore
    omega
  · have hback := before_of_lt message' message hlt h
    rw [Before] at hbefore hback
    omega

/-! ## Columns of lines -/

/-- The end of a line is no further than the end of its piece. -/
theorem exists_piece_of_offset (source : Text) (o : Nat) :
    ∃ piece, (Text.pieces '\n' source)[(source.take o).count '\n']? = some piece ∧
      (Text.lastLine (source.take o)).length ≤ piece.length := by
  obtain ⟨before, behind, hpieces, hlength, -⟩ :=
    Text.exists_pieces_append (source.take o) (source.drop o)
  rw [List.take_append_drop] at hpieces
  refine ⟨Text.lastLine (source.take o) ++ (source.drop o).takeWhile (· ≠ '\n'), ?_, by simp⟩
  rw [hpieces, List.getElem?_append_right (Nat.le_of_eq hlength), hlength, Nat.sub_self,
    List.getElem?_cons_zero]

/-- Every column of a line is that of some offset. -/
theorem exists_offset_of_piece {piece : Text} {k c : Nat} (message : Text)
    (hpiece : (Text.pieces '\n' source)[k]? = some piece) (hc : c ≤ piece.length) :
    ∃ o ≤ source.length, (locate source o message).line = 1 + (k : Int) ∧
      (locate source o message).column = c := by
  have hk : k ≤ source.count '\n' := by
    have := (List.getElem?_eq_some_iff.mp hpiece).1
    rw [Text.length_pieces] at this
    omega
  obtain ⟨a, b, rfl, rfl, hlast⟩ := Text.exists_lineStart hk
  obtain ⟨before, behind, hpieces, hlength, -⟩ := Text.exists_pieces_append a b
  obtain rfl : b.takeWhile (· ≠ '\n') = piece := by
    rwa [hpieces, List.getElem?_append_right (Nat.le_of_eq hlength), hlength, Nat.sub_self,
      List.getElem?_cons_zero, hlast, List.nil_append, Option.some.injEq] at hpiece
  have hprefix := List.takeWhile_prefix (· ≠ '\n') (l := b)
  have hle : c ≤ b.length := Nat.le_trans hc hprefix.length_le
  -- Up to this column, the line has not ended.
  have hno : '\n' ∉ b.take c := fun hmem => by
    have htake : b.take c <+: b.takeWhile (· ≠ '\n') :=
      List.prefix_of_prefix_length_le (List.take_prefix c b) hprefix
        (by rwa [List.length_take_of_le hle])
    simpa using List.mem_takeWhile_imp (htake.subset hmem)
  have ho : a.length + c ≤ (a ++ b).length := by
    rw [List.length_append]
    omega
  refine ⟨a.length + c, ho, ?_, ?_⟩
  · rw [locate_line _ ho, List.take_length_add_append, List.count_append,
      List.count_eq_zero.mpr hno, Nat.add_zero]
  · rw [locate_column _ ho, List.take_length_add_append, Text.lastLine_append, if_neg hno, hlast,
      List.nil_append, List.length_take_of_le hle]

/-- Lines and columns come in the order of the offsets, so no two offsets share both. They are the
columns of all lines, from the first character of a line to the end behind its last one. -/
theorem lines_and_columns (source : Text) :
    (∀ (o o' : Fin (source.length + 1)) (message message' : Text),
      o < o' ↔ (locate source o.val message).Before (locate source o'.val message')) ∧
    ∀ (message : Text) (line column : Int),
      (∃ o : Fin (source.length + 1),
        (locate source o.val message).line = line ∧
          (locate source o.val message).column = column) ↔
      1 ≤ line ∧ line ≤ 1 + source.count '\n' ∧ 0 ≤ column ∧
        ∃ piece, (Text.pieces '\n' source)[(line - 1).toNat]? = some piece ∧
          column ≤ piece.length := by
  refine ⟨fun o o' message message' => ?_, fun message line column => ⟨?_, ?_⟩⟩
  · exact lt_iff_before message message' (Nat.le_of_lt_succ o.isLt) (Nat.le_of_lt_succ o'.isLt)
  · rintro ⟨⟨o, ho⟩, rfl, rfl⟩
    have hle : o ≤ source.length := Nat.le_of_lt_succ ho
    obtain ⟨piece, hpiece, hcolumn⟩ := exists_piece_of_offset source o
    have hcount := (List.take_sublist o source).count_le '\n'
    rw [locate_line _ hle, locate_column _ hle]
    have hindex : (1 + ((source.take o).count '\n' : Int) - 1).toNat = (source.take o).count '\n' := by
      omega
    exact ⟨by omega, by omega, by omega, piece, by rwa [hindex], by omega⟩
  · rintro ⟨hline, -, hcolumn, piece, hpiece, hle⟩
    have hend : column.toNat ≤ piece.length := by omega
    obtain ⟨o, ho, hl, hc⟩ := exists_offset_of_piece message hpiece hend
    exact ⟨⟨o, Nat.lt_succ_of_le ho⟩, by rw [hl]; omega, by rw [hc]; omega⟩

/-- The end of a line and the beginning of the next one. -/
example : (locate ['a', '\n', 'b'] 1 []).Before (locate ['a', '\n', 'b'] 2 []) := by decide

end Diagnostic

end Stylesheet
