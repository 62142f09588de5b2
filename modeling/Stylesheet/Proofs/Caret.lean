import Stylesheet.Proofs.Failure
import Stylesheet.Proofs.Pieces
import Stylesheet.Proofs.Rounds

/-!
# Where the caret points

An error is written on four lines: a header, nothing, the line of the source, and the caret. The caret
stands under the character that is to blame, which is never a blank, or behind the end of the last line.
-/

namespace Stylesheet

/-! ## The four lines -/

namespace Diagnostic

/-- The first line of a written diagnostic. -/
def header (d : Diagnostic) : Text :=
  "Error at line ".toList ++ Text.ofInt d.line ++ ", column ".toList ++ Text.ofInt d.column
    ++ ". ".toList ++ d.message

theorem not_mem_ofInt (n : Int) : '\n' ∉ Text.ofInt n := by
  have hdigits (m : Nat) : '\n' ∉ Nat.toDigits 10 m := fun h => by
    have := Nat.isDigit_of_mem_toDigits (by decide) (by decide) h
    simp at this
  cases n with
  | ofNat m => exact hdigits m
  | negSucc m => simpa [Text.ofInt] using hdigits (m + 1)

theorem not_mem_header {d : Diagnostic} (h : '\n' ∉ d.message) : '\n' ∉ d.header := by
  have hline : '\n' ∉ "Error at line ".toList := by decide
  have hcolumn : '\n' ∉ ", column ".toList := by decide
  have hdot : '\n' ∉ ". ".toList := by decide
  exact List.not_mem_append (List.not_mem_append (List.not_mem_append (List.not_mem_append
    (List.not_mem_append hline (not_mem_ofInt _)) hcolumn) (not_mem_ofInt _)) hdot) h

theorem pieces_render {d : Diagnostic} (hmessage : '\n' ∉ d.message) (hline : '\n' ∉ d.sourceLine) :
    Text.pieces '\n' d.render =
      [d.header, [], d.sourceLine, List.replicate d.column.toNat ' ' ++ caret] := by
  have hmark : '\n' ∉ caret := by decide
  have hspaces : '\n' ∉ List.replicate d.column.toNat ' ' := fun h => by
    cases List.eq_of_mem_replicate h
  have hcaret := List.not_mem_append hspaces hmark
  have hrender : d.render = d.header ++ '\n' :: ([] ++ '\n' :: (d.sourceLine ++ '\n' ::
      (List.replicate d.column.toNat ' ' ++ caret))) := by
    change d.header ++ ['\n', '\n'] ++ d.sourceLine ++ ['\n'] ++
      List.replicate d.column.toNat ' ' ++ caret = _
    simp only [List.append_assoc, List.cons_append, List.nil_append]
  rw [hrender, Text.pieces_append_sep, Text.pieces_append_sep, Text.pieces_append_sep,
    Text.pieces_of_not_mem (not_mem_header hmessage), Text.pieces_of_not_mem hline,
    Text.pieces_of_not_mem hcaret]
  rfl

/-! ## The line of the source -/

theorem withoutReturn_cons {c : Char} {line : Text} (hc : c ≠ '\r') :
    withoutReturn (c :: line) = c :: withoutReturn line := by
  cases line with
  | nil => simp [withoutReturn, hc]
  | cons x line =>
    unfold withoutReturn
    rw [List.getLast?_cons_cons]
    split <;> rfl

theorem withoutReturn_append {a b : Text} (hb : b ≠ []) :
    withoutReturn (a ++ b) = a ++ withoutReturn b := by
  unfold withoutReturn
  rw [List.getLast?_append_of_ne_nil _ hb]
  split
  · exact List.dropLast_append_of_ne_nil hb
  · rfl

theorem length_withoutReturn (line : Text) :
    line.length = (withoutReturn line).length + if line.getLast? = some '\r' then 1 else 0 := by
  unfold withoutReturn
  split
  · rename_i h
    have := List.length_pos_of_ne_nil (List.ne_nil_of_mem (List.mem_of_getLast? h))
    rw [List.length_dropLast]
    omega
  · rfl

theorem not_mem_withoutReturn {line : Text} (h : '\n' ∉ line) : '\n' ∉ withoutReturn line := by
  unfold withoutReturn
  split
  · exact fun hmem => h (List.dropLast_subset _ hmem)
  · exact h

theorem not_mem_lastLine (t : Text) : '\n' ∉ t.lastLine := fun hmem => by
  simpa using List.mem_rtakeWhile_imp hmem

theorem not_mem_sourceLine {source : Text} {o : Nat} (message : Text) (h : o ≤ source.length) :
    '\n' ∉ (locate source o message).sourceLine := by
  rw [locate_sourceLine _ h]
  refine not_mem_withoutReturn fun hmem => ?_
  rcases List.mem_append.mp hmem with hmem | hmem
  · exact not_mem_lastLine _ hmem
  · simpa using List.mem_takeWhile_imp hmem

/-- A character that is no blank stands on its line at its column. -/
theorem sourceLine_at_column {source : Text} {o : Nat} {c : Char} (message : Text)
    (h : source[o]? = some c) (hc : isBlank c = false) :
    (locate source o message).sourceLine[(Text.lastLine (source.take o)).length]? = some c := by
  obtain ⟨ho, hget⟩ := List.getElem?_eq_some_iff.mp h
  have hne : c ≠ '\n' ∧ c ≠ '\r' := by
    constructor <;> rintro rfl <;> cases hc
  rw [locate_sourceLine _ (Nat.le_of_lt ho), List.drop_eq_getElem_cons ho, hget,
    List.takeWhile_cons_of_pos (by simpa using hne.1),
    withoutReturn_append (List.cons_ne_nil _ _), withoutReturn_cons hne.2,
    List.getElem?_append_right (Nat.le_refl _), Nat.sub_self, List.getElem?_cons_zero]

/-- The end of a source stands behind its last line, with the carriage return that is not shown. -/
theorem column_at_end (source message : Text) :
    (locate source source.length message).column =
      ((locate source source.length message).sourceLine.length +
        if source.lastLine.getLast? = some '\r' then 1 else 0 : Nat) := by
  rw [locate_column _ (Nat.le_refl _), locate_sourceLine _ (Nat.le_refl _), List.take_length,
    List.drop_length, List.takeWhile_nil, List.append_nil, ← length_withoutReturn]

end Diagnostic

/-! ## What is to blame -/

variable {names : Vocabulary} {t : Text} {f : Failure}

theorem exists_char_of_lexemes {before after : List Lexeme} {l : Lexeme}
    (h : lexemes 0 t = before ++ l :: after) :
    ∃ (n : Nat) (c : Char), l.pos = n ∧ t[n]? = some c ∧ isBlank c = false := by
  obtain ⟨start, x, rest, rfl, -, hx, -, hl⟩ := exists_cut h
  refine ⟨start.length, x, ?_, by simp, hx⟩
  rw [(begins_of_lexemes hx hl).1, Int.zero_add]

/-- A failure stands at a character that is no blank, or at the end. -/
theorem exists_char_of_verdict (h : verdict names t = some f) :
    f.pos = t.length ∨ ∃ (n : Nat) (c : Char), f.pos = n ∧ t[n]? = some c ∧ isBlank c = false := by
  rcases fails_of_verdict h with ⟨-, ⟨q, -, -, hpos⟩ | ⟨before, l, after, q, hlex, -, -, hpos⟩⟩ |
    ⟨name, pos, rfl, before, pos', after, hlex, -, -⟩
  · exact .inl hpos
  · rw [hpos]
    exact .inr (exists_char_of_lexemes hlex)
  · exact .inr (exists_char_of_lexemes hlex)

theorem Fault.not_mem_message_of_mark {c : Char} (hc : '\n' ≠ c) :
    '\n' ∉ (missingMark [c]).message := by
  have hbefore : '\n' ∉ "Expected syntax: '".toList := by decide
  have hbehind : '\n' ∉ "'.".toList := by decide
  exact List.not_mem_append (List.not_mem_append hbefore (fun h => hc (List.mem_singleton.mp h))) hbehind

theorem Fault.not_mem_message_of_word : '\n' ∉ missingWord.message := by decide

theorem Fault.not_mem_message_of_name {name : Text} (h : IsWord name) :
    '\n' ∉ (unknownProperty name).message := by
  have hname : '\n' ∉ name := fun hmem => by cases h.2 _ hmem
  have hbefore : '\n' ∉ "Unknown property: '".toList := by decide
  have hbehind : '\n' ∉ "'.".toList := by decide
  exact List.not_mem_append (List.not_mem_append hbefore hname) hbehind

theorem State.not_mem_message_of_atEnd {q : State} {fault : Fault} (h : q.atEnd = some fault) :
    '\n' ∉ fault.message := by
  cases q with
  | sheet => cases h
  | afterSelector | block | afterName | afterValue =>
    cases h
    exact Fault.not_mem_message_of_mark (by decide)
  | afterColon =>
    cases h
    exact Fault.not_mem_message_of_word

theorem not_mem_message_of_verdict (h : verdict names t = some f) : '\n' ∉ f.fault.message := by
  rcases fails_of_verdict h with ⟨hfault, ⟨q, -, hend, -⟩ | ⟨before, l, after, q, -, -, hstep, -⟩⟩ |
    ⟨name, pos, rfl, before, pos', after, hlex, -, -⟩
  · exact State.not_mem_message_of_atEnd hend
  · cases State.step_eq_error.mp hstep with
    | selector | name | value => exact Fault.not_mem_message_of_word
    | opening | colon | semicolon => exact Fault.not_mem_message_of_mark (by decide)
    | unknown => exact absurd rfl (hfault _)
  · have hmem : ⟨.word name, pos⟩ ∈ lexemes 0 t := by simp [hlex]
    exact Fault.not_mem_message_of_name (isWord_of_mem_lexemes hmem rfl)

/-! ## The caret -/

/-- How the written form of an error points into its text. -/
structure ParseError.PointsInto (text : Text) (e : ParseError) : Prop where
  lines : Text.pieces '\n' e.diagnostic.render =
    [e.diagnostic.header, [], e.diagnostic.sourceLine,
      List.replicate e.diagnostic.column.toNat ' ' ++ Diagnostic.caret]
  within : e.diagnostic.offset ≤ text.length
  char : e.diagnostic.offset < text.length → ∃ (pos column : Nat) (c : Char),
    e.diagnostic.offset = pos ∧ e.diagnostic.column = column ∧
      column < e.diagnostic.sourceLine.length ∧ e.diagnostic.sourceLine[column]? = some c ∧
      text[pos]? = some c ∧ isBlank c = false
  atEnd : e.diagnostic.offset = text.length →
    e.diagnostic.column = (e.diagnostic.sourceLine.length +
      if text.lastLine.getLast? = some '\r' then 1 else 0 : Nat)

theorem pointsInto_of_verdict (h : verdict names t = some f) : (f.error t).PointsInto t := by
  obtain ⟨o, ho, hpos⟩ := exists_pos_of_verdict h
  have hmessage := not_mem_message_of_verdict h
  have hchar := exists_char_of_verdict h
  rw [hpos] at hchar
  simp only [Failure.error, hpos]
  refine ⟨?_, ?_, fun hlt => ?_, fun hend => ?_⟩
  · exact Diagnostic.pieces_render hmessage (Diagnostic.not_mem_sourceLine _ ho)
  · rw [Diagnostic.locate_offset _ ho]
    exact Int.ofNat_le.mpr ho
  · rw [Diagnostic.locate_offset _ ho] at hlt
    obtain hend | ⟨n, c, hn, hc, hblank⟩ := hchar
    · omega
    · obtain rfl : o = n := Int.ofNat_inj.mp hn
      have hcolumn := Diagnostic.sourceLine_at_column f.fault.message hc hblank
      exact ⟨o, _, c, Diagnostic.locate_offset _ ho, Diagnostic.locate_column _ ho,
        (List.getElem?_eq_some_iff.mp hcolumn).1, hcolumn, hc, hblank⟩
  · rw [Diagnostic.locate_offset _ ho] at hend
    obtain rfl : o = t.length := Int.ofNat_inj.mp hend
    exact Diagnostic.column_at_end t f.fault.message

/-! ## Errors of the parse itself -/

namespace Parser

/-- If no listener lets an error escape, a parse ends with what reading the text gives. -/
theorem parse_of_escapes_nil {p : Parser} {text : Text}
    (h : World.escapes 0 ⟨p, []⟩ (p.parse text).2 = []) : (p.parse text).1 = Sheet.ending text := by
  change World.escapes 0 _ ((Work.parse Work.tell text).run.run ⟨p, []⟩).2 = [] at h
  rcases Work.parse_rounds 0 text ⟨p, []⟩ with ⟨hread, -, -⟩ | ⟨error, i, n, m, -, -, -, -, htells⟩
  · exact congrArg Prod.fst hread
  · rw [Work.tell, htells.escapes] at h
    cases h

/-- Without listeners, no error escapes. -/
theorem escapes_of_empty (kept : Sheet) (text : Text) :
    World.escapes 0 ⟨⟨kept, .empty⟩, []⟩ ((⟨kept, .empty⟩ : Parser).parse text).2 = [] := by
  let w : World := ⟨⟨kept, .empty⟩, []⟩
  have hopened : Moves 1 w (w.opened text) := .single (.parse text w)
  have hclosed : Moves 1 (w.opened text) ((w.opened text).closed text) := moves_noteAll _ _ _
  have hmoves : Moves 1 w ((w.opened text).closed text) := hopened.trans hclosed
  have hrun : ((⟨kept, .empty⟩ : Parser).parse text).2 = (w.opened text).closed text := by
    change ((Work.parse Work.tell text).run.run w).2 = _
    rw [Work.parse_run, World.opened, Work.tellAll_of_empty]
  rw [hrun, World.escapes, hmoves.direct_inside]
  rfl

/-- The caret points at what is to blame, for every text that a parser rejects itself: not because a
listener let an error escape, which may be that of another text. -/
theorem caret_at_offender (p : Parser) (text : Text) (e : ParseError)
    (h : (p.parse text).1 = .error (.rejected e))
    (hown : World.escapes 0 ⟨p, []⟩ (p.parse text).2 = []) : e.PointsInto text := by
  rw [parse_of_escapes_nil hown, Sheet.ending_eq_error] at h
  obtain ⟨e', he, hraised⟩ := h
  cases hraised
  obtain ⟨f, hf, rfl⟩ := parse?_eq_error.mp he
  exact pointsInto_of_verdict hf

/-- An open block before a carriage return at the end: the caret stands two places behind the brace. -/
theorem caret_at_offender_behind_return :
    ∃ e, (fresh.parse ['a', '\n', '{', '\r']).1 = .error (.rejected e) ∧
      e.PointsInto ['a', '\n', '{', '\r'] ∧ e.diagnostic.sourceLine = ['{'] ∧
      e.diagnostic.column = 2 := by
  have hv : verdict .properties ['a', '\n', '{', '\r'] = some ⟨.missingMark ['}'], 4⟩ := by
    rw [verdict, lexemes_letter (by decide) (.cons (by decide) _), lexemes_blank (by decide),
      lexemes_mark (by decide) (by decide), lexemes_blank (by decide), lexemes_nil]
    rfl
  have hparse : (fresh.parse ['a', '\n', '{', '\r']).1 =
      .error (.rejected (Failure.error ['a', '\n', '{', '\r'] ⟨.missingMark ['}'], 4⟩)) := by
    rw [fresh_parse_ending, Sheet.ending_eq_error]
    exact ⟨_, parse?_eq_error.mpr ⟨_, hv, rfl⟩, rfl⟩
  exact ⟨_, hparse, caret_at_offender _ _ _ hparse (escapes_of_empty _ _), by decide, by decide⟩

end Parser

end Stylesheet
