import Stylesheet.Proofs.Placement
import Stylesheet.Proofs.Reads

/-!
# Positions before the beginning

A negative position counts from the end, and reading goes on with the source from its beginning. So tokens
are read as in the doubled source. The span of a word is cut from the source as it is, and what was read is
its text only if the word ends before position 0.
-/

namespace Stylesheet

variable {source : Text} {pos next : Int}

/-! ## Characters and cuts -/

/-- A text has the characters at the indices from `start` up to `stop`. -/
structure Text.Scanned (source : Text) (start stop : Int) (t : Text) : Prop where
  length : (t.length : Int) = stop - start
  char : ∀ k, k < t.length → source.at? (start + k) = t[k]?

theorem Cursor.at?_add {c : Cursor} {k : Nat} (h : ofPos? source pos = some c)
    (hk : k < c.rest.length) : source.at? (pos + k) = c.rest[k]? := by
  induction k generalizing c pos with
  | zero =>
    cases hc : c.rest with
    | nil => simp [hc] at hk
    | cons x t => simpa using (step_of_rest_cons h hc).2.1
  | succ k ih =>
    cases hc : c.rest with
    | nil => simp [hc] at hk
    | cons x t =>
      have hnext := ih (step_of_rest_cons h hc).2.2 (by simpa [hc] using hk)
      rw [List.getElem?_cons_succ, ← hnext]
      congr 1
      omega

/-- What a cursor goes past are the characters at the indices between. -/
theorem Cursor.scanned_past {c : Cursor} (test : Char → Bool) (h : ofPos? source pos = some c) :
    source.Scanned pos (c.past test).pos (c.rest.takeWhile test) := by
  obtain rfl := pos_of_ofPos? h
  refine ⟨by simp only [past]; omega, fun k hk => ?_⟩
  have hrest := takeWhile_append_past test c
  have hlength := congrArg List.length hrest
  rw [List.length_append] at hlength
  rw [at?_add h (by omega), ← List.getElem?_append_left hk, hrest]

section
variable (hneg : pos < 0) (hle : -source.length ≤ pos)
include hneg hle

/-- A cut that ends before position 0 is the same in the doubled source. -/
theorem Text.slice_doubled (hlt : pos ≤ next) (hnext : next < 0) :
    slice (source ++ source) (source.length + pos) (source.length + next) = slice source pos next := by
  obtain ⟨a, ha⟩ := Int.eq_ofNat_of_zero_le (a := source.length + pos) (by omega)
  obtain ⟨b, hb⟩ := Int.eq_ofNat_of_zero_le (a := source.length + next) (by omega)
  have hpos : bound source.length pos = a := by
    simp only [bound, if_pos hneg]
    omega
  have hstop : bound source.length next = b := by
    simp only [bound, if_pos hnext]
    omega
  rw [ha, hb, slice_of_nat _ (by simp; omega) (by simp; omega), slice, hpos, hstop,
    List.take_append_of_le_length (by omega)]

/-- A cut across position 0 is shorter than the distance of its bounds. -/
theorem Text.length_slice_lt (hnext : 0 ≤ next) :
    ((slice source pos next).length : Int) < next - pos := by
  simp only [slice, List.length_drop, List.length_take, bound, if_pos hneg,
    if_neg (Int.not_lt.mpr hnext)]
  omega

theorem Cursor.ofPos?_doubled :
    ofPos? (source ++ source) (source.length + pos) = (ofPos? source pos).map (behind source) := by
  rw [ofPos?_of_neg hneg hle, ofPos?_of_nonneg (by omega), Option.map_some, behind,
    List.drop_append_of_le_length (by omega), Int.add_comm]

end

/-! ## Tokens -/

/-- The same kind of error with the same message. -/
structure ParseError.SameFault (e e' : ParseError) : Prop where
  kind : e'.kind = e.kind
  message : e'.diagnostic.message = e.diagnostic.message

/-- A word at a position of a source, and the word at this place of the doubled source. -/
structure WordDoubled (source : Text) (pos : Int) (a b : Span × Int) : Prop where
  span : a.1 = ⟨source, pos, a.2⟩
  next : PositionBehind source a.2 b.2
  scanned : source.Scanned pos a.2 b.1.text
  text_eq_iff : a.1.text = b.1.text ↔ a.2 < 0
  length_lt : 0 ≤ a.2 → (a.1.text.length : Int) < a.2 - pos

/-- What comes out, as in the doubled source. -/
abbrev ComesOutDoubled {α : Type} (values : α → α → Prop) : Except Stop α → Except Stop α → Prop :=
  Corresponds (Stop.Rejects ParseError.SameFault) values

theorem Failure.sameFault (f : Failure) (x source' : Text) :
    (f.error source).SameFault ((f.behind x).error source') := ⟨rfl, rfl⟩

namespace Report

variable {listening : Bool} (hneg : pos < 0) (hle : -source.length ≤ pos)
include hneg hle

theorem comesOutDoubled {α β : Type} {values : β → β → Prop}
    {read read' : Cursor → Except Failure α} {give : α → β} {g : α → α}
    (hread : ∀ c : Cursor, read' (c.behind source) = behind source g (read c))
    (hvalue : ∀ c a, Cursor.ofPos? source pos = some c → read c = .ok a →
      values (give a) (give (g a))) :
    ComesOutDoubled values (outcomeAt source read give pos)
      (outcomeAt (source ++ source) read' give (source.length + pos)) := by
  have hat : Cursor.ofPos? source pos = _ := Cursor.ofPos?_of_neg hneg hle
  have hat' : Cursor.ofPos? (source ++ source) (source.length + pos) = _ :=
    Cursor.ofPos?_doubled hneg hle
  rw [hat] at hat'
  exact corresponds_outcomeAt hat hat' (hread _) (fun f _ => f.sameFault _ _)
    (fun a ha => hvalue _ a hat ha)

theorem wordDoubled {c d : Cursor} {s : Span} (hc : Cursor.ofPos? source pos = some c)
    (hword : c.word source = .ok (s, d)) :
    WordDoubled source pos (s, d.pos) (s.behind source, (d.behind source).pos) := by
  have hdoubled := Cursor.word_behind source source c
  rw [hword] at hdoubled
  have hat : Cursor.ofPos? (source ++ source) (source.length + pos) = some (c.behind source) := by
    rw [Cursor.ofPos?_doubled hneg hle, hc]
    rfl
  have hin := Cursor.in_of_ofPos? hat (by omega) (by simp; omega)
  have htext := Cursor.text_of_word hin hdoubled
  obtain ⟨hne, rfl, rfl⟩ := Cursor.word_eq_ok.mp hword
  obtain rfl := Cursor.pos_of_ofPos? hc
  have hlt (hnext : 0 ≤ (c.past isLetter).pos) := Text.length_slice_lt hneg hle hnext
  have hscanned := Cursor.scanned_past isLetter hc
  refine ⟨rfl, rfl, ?_, ⟨fun heq => ?_, fun hnext => ?_⟩, hlt⟩
  · rw [htext]
    exact hscanned
  · by_contra hnext
    have := hlt (Int.not_lt.mp hnext)
    have hlength := hscanned.length
    rw [htext] at heq
    change Text.slice source c.pos _ = c.rest.takeWhile isLetter at heq
    rw [heq] at this
    omega
  · have hlength := hscanned.length
    exact (Text.slice_doubled hneg hle (by omega) hnext).symm

theorem blanks_doubled : ComesOutDoubled (PositionBehind source)
    (blanks source listening pos).outcome
    (blanks (source ++ source) listening (source.length + pos)).outcome := by
  rw [blanks_outcome, blanks_outcome]
  refine comesOutDoubled hneg hle (g := Cursor.behind source) (fun c => ?_) ?_
  · rw [Cursor.skip_behind]
    rfl
  · intro c d _ _
    rfl

theorem mark_doubled (m : Text) : ComesOutDoubled (PositionBehind source)
    (mark source listening pos m).outcome
    (mark (source ++ source) listening (source.length + pos) m).outcome := by
  rw [mark_outcome, mark_outcome]
  refine comesOutDoubled hneg hle (Cursor.mark_behind source m) ?_
  intro c d _ _
  rfl

theorem word_doubled : ComesOutDoubled (WordDoubled source pos)
    (word source listening pos).outcome
    (word (source ++ source) listening (source.length + pos)).outcome := by
  rw [word_outcome, word_outcome]
  refine comesOutDoubled hneg hle (Cursor.word_behind source source) ?_
  rintro c ⟨s, d⟩ hc hs
  exact wordDoubled hneg hle hc hs

omit hneg hle

/-- At a position before position 0, a token comes out of a source as it does of the doubled source: the
same position, less the length of the source, or the same kind of error with the same message. The text of
a word is what was read if the word ends before position 0, and is shorter than the word otherwise. -/
theorem outcome_doubled (source : Text) (listening : Bool) (pos : Int) (hneg : pos < 0)
    (hle : -source.length ≤ pos) :
    ComesOutDoubled (PositionBehind source) (blanks source listening pos).outcome
      (blanks (source ++ source) listening (source.length + pos)).outcome ∧
    (∀ m, ComesOutDoubled (PositionBehind source) (mark source listening pos m).outcome
      (mark (source ++ source) listening (source.length + pos) m).outcome) ∧
    ComesOutDoubled (WordDoubled source pos) (word source listening pos).outcome
      (word (source ++ source) listening (source.length + pos)).outcome :=
  ⟨blanks_doubled hneg hle, mark_doubled hneg hle, word_doubled hneg hle⟩

/-- A source of letters only is read to its end a second time, and half of the word is cut. -/
theorem word_of_letters :
    let t : Text := ['a', 'b']
    ∃ s s', (word t true (-1)).outcome = .ok (s, 2) ∧
      (word (t ++ t) true 1).outcome = .ok (s', 4) ∧ s'.text = ['b', 'a', 'b'] ∧
      t.Scanned (-1) 2 s'.text ∧ s.text ≠ s'.text ∧ s.text.length = 1 := by
  intro t
  have hword : (word t true (-1)).outcome = .ok (⟨t, -1, 2⟩, 2) := by decide +kernel
  have hword' : (word (t ++ t) true 1).outcome = .ok (⟨t ++ t, 1, 4⟩, 4) := by decide +kernel
  obtain ⟨-, -, hdoubled⟩ := outcome_doubled t true (-1) (by decide) (by decide)
  rw [hword] at hdoubled
  obtain ⟨_, hb, h⟩ := hdoubled.exists_of_ok
  cases hword'.symm.trans hb
  exact ⟨_, _, hword, hword', by decide +kernel, h.scanned, mt h.text_eq_iff.mp (by decide),
    by decide +kernel⟩

end Report

end Stylesheet
