import Stylesheet.Proofs.Lines

/-!
# Lines as pieces

A source cut at its line feeds. The piece that an offset falls in is the line of its diagnostic, and the
pieces before it tell where that line starts.
-/

namespace Stylesheet

/-! ## Pieces -/

namespace Text

variable {sep : Char}

theorem exists_pieces (sep : Char) (t : Text) : ∃ p ps, pieces sep t = p :: ps := by
  induction t with
  | nil => exact ⟨[], [], rfl⟩
  | cons c t ih =>
    obtain ⟨p, ps, h⟩ := ih
    by_cases hc : c = sep
    · exact ⟨[], p :: ps, by rw [pieces, if_pos hc, h]⟩
    · exact ⟨c :: p, ps, by rw [pieces, if_neg hc, h]⟩

theorem pieces_cons_sep (sep : Char) (t : Text) : pieces sep (sep :: t) = [] :: pieces sep t := by
  rw [pieces, if_pos rfl]

theorem pieces_cons_of_ne {c : Char} {t p : Text} {ps : List Text} (hc : c ≠ sep)
    (h : pieces sep t = p :: ps) : pieces sep (c :: t) = (c :: p) :: ps := by
  rw [pieces, if_neg hc, h]

theorem pieces_append_sep (x y : Text) :
    pieces sep (x ++ sep :: y) = pieces sep x ++ pieces sep y := by
  induction x with
  | nil => exact pieces_cons_sep sep y
  | cons c x ih =>
    by_cases hc : c = sep
    · rw [hc, List.cons_append, pieces_cons_sep, pieces_cons_sep, ih, List.cons_append]
    · obtain ⟨p, ps, h⟩ := exists_pieces sep x
      rw [h, List.cons_append] at ih
      rw [List.cons_append, pieces_cons_of_ne hc ih, pieces_cons_of_ne hc h, List.cons_append]

theorem pieces_of_not_mem {t : Text} (h : sep ∉ t) : pieces sep t = [t] := by
  induction t with
  | nil => rfl
  | cons c t ih =>
    obtain ⟨hc, ht⟩ := not_or.mp fun hmem => h (List.mem_cons.mpr hmem)
    exact pieces_cons_of_ne (Ne.symm hc) (ih ht)

theorem length_pieces (t : Text) : (pieces sep t).length = t.count sep + 1 := by
  induction t with
  | nil => rfl
  | cons c t ih =>
    by_cases hc : c = sep
    · rw [hc, pieces_cons_sep, List.length_cons, ih, List.count_cons_self]
    · obtain ⟨p, ps, h⟩ := exists_pieces sep t
      rw [pieces_cons_of_ne hc h, List.count_cons_of_ne hc, ← ih, h]
      rfl

/-- Cutting loses nothing but the separators. -/
theorem length_flatten_pieces (sep : Char) (t : Text) :
    (pieces sep t).flatten.length + t.count sep = t.length := by
  induction t with
  | nil => rfl
  | cons c t ih =>
    by_cases hc : c = sep
    · rw [hc, pieces_cons_sep, List.count_cons_self, List.length_cons, ← ih]
      rfl
    · obtain ⟨p, ps, h⟩ := exists_pieces sep t
      rw [h] at ih
      rw [pieces_cons_of_ne hc h, List.count_cons_of_ne hc, List.length_cons, ← ih]
      simp only [List.flatten_cons, List.length_append, List.length_cons]
      omega

/-- The first piece reaches up to the first separator. -/
theorem exists_pieces_takeWhile (sep : Char) (t : Text) :
    ∃ ps, pieces sep t = t.takeWhile (· ≠ sep) :: ps := by
  induction t with
  | nil => exact ⟨[], rfl⟩
  | cons c t ih =>
    by_cases hc : c = sep
    · exact ⟨pieces sep t, by simp [hc, pieces_cons_sep]⟩
    · obtain ⟨ps, h⟩ := ih
      exact ⟨ps, by rw [pieces_cons_of_ne hc h]; simp [hc]⟩

/-- The piece in which two parts of a text meet, and the pieces before it. -/
theorem exists_pieces_append (a b : Text) :
    ∃ before behind,
      pieces '\n' (a ++ b) = before ++ (lastLine a ++ b.takeWhile (· ≠ '\n')) :: behind ∧
      before.length = a.count '\n' ∧
      before.flatten.length + a.count '\n' + (lastLine a).length = a.length := by
  induction a using List.reverseRecOn generalizing b with
  | nil =>
    obtain ⟨behind, h⟩ := exists_pieces_takeWhile '\n' b
    exact ⟨[], behind, h, rfl, rfl⟩
  | append_singleton a c ih =>
    rw [List.append_assoc, List.singleton_append, lastLine_concat, List.count_append]
    by_cases hc : c = '\n'
    · obtain ⟨behind, h⟩ := exists_pieces_takeWhile '\n' b
      have hsum := length_flatten_pieces '\n' a
      refine ⟨pieces '\n' a, behind, ?_, ?_, ?_⟩
      · rw [hc, pieces_append_sep, h, if_pos rfl, List.nil_append]
      · rw [length_pieces, hc]
        rfl
      · simp [hc, -List.length_flatten]
        omega
    · -- The character behind the first part still belongs to its last line.
      obtain ⟨before, behind, h, hlength, hsum⟩ := ih (c :: b)
      rw [List.takeWhile_cons_of_pos (by simpa using hc)] at h
      rw [if_neg hc]
      refine ⟨before, behind, ?_, ?_, ?_⟩
      · rw [h, List.append_assoc, List.singleton_append]
      · simpa [hc] using hlength
      · simp [hc, -List.length_flatten]
        omega

end Text

/-! ## Diagnostics -/

namespace Diagnostic

/-- What a diagnostic of an offset says about the pieces of its source. -/
structure InPieces (source : Text) (o : Nat) (d : Diagnostic) : Prop where
  offset : d.offset = o
  line : d.line - 1 = (source.take o).count '\n'
  lineStart : d.lineStart =
    ((Text.pieces '\n' source).take ((source.take o).count '\n')).flatten.length +
      (source.take o).count '\n'
  piece : (Text.pieces '\n' source)[(source.take o).count '\n']? =
    some (Text.slice source d.lineStart d.lineEnd)
  start_le : d.lineStart ≤ o
  le_end : o ≤ d.lineEnd
  column : d.column = o - d.lineStart
  sourceLine : (Text.slice source d.lineStart d.lineEnd).getLast? ≠ some '\r' ∧
      d.sourceLine = Text.slice source d.lineStart d.lineEnd ∨
    Text.slice source d.lineStart d.lineEnd = d.sourceLine ++ ['\r']

theorem withoutReturn_spec (line : Text) :
    line.getLast? ≠ some '\r' ∧ withoutReturn line = line ∨ line = withoutReturn line ++ ['\r'] := by
  unfold withoutReturn
  split
  · rename_i h
    exact .inr (List.dropLast_append_getLast? _ h).symm
  · rename_i h
    exact .inl ⟨h, rfl⟩

variable {source : Text} {o : Nat} (message : Text)

theorem locate_slice (h : o ≤ source.length) :
    Text.slice source (locate source o message).lineStart (locate source o message).lineEnd =
      Text.lastLine (source.take o) ++ (source.drop o).takeWhile (· ≠ '\n') := by
  have hrest := (List.takeWhile_prefix (· ≠ '\n') (l := source.drop o)).length_le
  rw [List.length_drop] at hrest
  rw [locate_lineStart _ h, locate_lineEnd _ h, Text.slice_of_nat _ (by omega) (by omega),
    drop_take_line h]

theorem inPieces_locate (h : o ≤ source.length) :
    (locate source o message).InPieces source o := by
  have hlast := Text.length_lastLine_le (source.take o)
  obtain ⟨before, behind, hpieces, hlength, hsum⟩ :=
    Text.exists_pieces_append (source.take o) (source.drop o)
  rw [List.take_append_drop] at hpieces
  rw [List.length_take_of_le h] at hlast hsum
  have hslice := locate_slice message h
  refine ⟨locate_offset _ h, ?_, ?_, ?_, ?_, ?_, ?_, ?_⟩
  · rw [locate_line _ h]
    omega
  · rw [locate_lineStart _ h, hpieces, List.take_left' hlength]
    omega
  · rw [hslice, hpieces, List.getElem?_append_right (by omega), hlength, Nat.sub_self]
    rfl
  · rw [locate_lineStart _ h]
    omega
  · rw [locate_lineEnd _ h]
    omega
  · rw [locate_column _ h, locate_lineStart _ h]
    omega
  · rw [hslice, locate_sourceLine _ h]
    exact withoutReturn_spec _

/-- Locating an offset agrees with cutting the source at its line feeds. Before the beginning and behind
the end of the source, the nearer end is meant. -/
theorem locate_agrees_with_pieces (source : Text) (offset : Int) (message : Text) :
    ∃ o : Nat, (o : Int) = max 0 (min offset source.length) ∧
      (locate source offset message).InPieces source o ∧
      (locate source offset message).message = message := by
  have hclamped : locate source (min offset.toNat source.length : Nat) message =
      locate source offset message := by
    simp only [locate, Int.toNat_natCast, Nat.min_assoc, Nat.min_self]
  refine ⟨min offset.toNat source.length, by omega, ?_, rfl⟩
  rw [← hclamped]
  exact inPieces_locate message (Nat.min_le_right _ _)

/-- Behind the end, on an empty last line: the offset is the length, and the line has no characters. -/
example : (locate ['a', '\r', '\n'] 9 []).offset = 3 ∧ (locate ['a', '\r', '\n'] 9 []).line = 2 ∧
    (locate ['a', '\r', '\n'] 9 []).sourceLine = [] := by decide

end Diagnostic

end Stylesheet
