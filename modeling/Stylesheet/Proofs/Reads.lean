import Stylesheet.Proofs.Indexed

/-!
# Every look is inside

A cursor holds what the indices from its position on lead to, also where the position is negative and the
source is read again from its beginning. So reading by index gives what the productions give, and of all
the looks that a production takes at its source, only the first one can be outside.
-/

namespace Stylesheet

namespace Cursor

variable {source : Text} {pos : Int} {c : Cursor} {x : Char} {t : Text}

/-! ## Cursors and indices -/

theorem length_le_of_rest_nil (h : ofPos? source pos = some c) (hc : c.rest = []) :
    source.length ≤ pos := by
  by_cases hpos : 0 ≤ pos
  · rw [ofPos?_of_nonneg hpos] at h
    cases h
    have := List.drop_eq_nil_iff.mp hc
    omega
  · by_cases hle : -source.length ≤ pos
    · rw [ofPos?_of_neg (Int.not_le.mp hpos) hle] at h
      cases h
      obtain ⟨-, rfl⟩ := List.append_eq_nil_iff.mp hc
      simp at hle
      omega
    · rw [ofPos?_eq_none.mpr (Int.not_le.mp hle)] at h
      cases h

theorem getElem?_of_drop {n : Nat} (h : source.drop n = x :: t) :
    source[n]? = some x ∧ source.drop (n + 1) = t := by
  constructor
  · rw [← List.head?_drop, h, List.head?_cons]
  · rw [← List.tail_drop, h, List.tail_cons]

/-- What is left at a cursor begins with the character at its index, and the rest is what is left at the
next index. -/
theorem step_of_rest_cons (h : ofPos? source pos = some c) (hc : c.rest = x :: t) :
    pos < source.length ∧ source.at? pos = some x ∧
      ofPos? source (pos + 1) = some ⟨pos + 1, t⟩ := by
  by_cases hpos : 0 ≤ pos
  · rw [ofPos?_of_nonneg hpos] at h
    cases h
    obtain ⟨hx, ht⟩ := getElem?_of_drop hc
    obtain ⟨hlt, -⟩ := List.getElem?_eq_some_iff.mp hx
    refine ⟨by omega, by rw [Text.at?, if_pos hpos, hx], ?_⟩
    rw [ofPos?_of_nonneg (by omega), ← ht]
    congr 3
    omega
  · have hle : -source.length ≤ pos := by
      by_contra hlt
      rw [ofPos?_eq_none.mpr (Int.not_le.mp hlt)] at h
      cases h
    rw [ofPos?_of_neg (Int.not_le.mp hpos) hle] at h
    cases h
    have hlt : (pos + source.length).toNat < source.length := by omega
    rw [List.drop_eq_getElem_cons hlt, List.cons_append] at hc
    obtain ⟨rfl, rfl⟩ := List.cons.inj hc
    refine ⟨by omega, ?_, ?_⟩
    · rw [Text.at?, if_neg hpos, if_pos (by omega), List.getElem?_eq_getElem hlt]
    · have hnext : (pos + source.length).toNat + 1 = (pos + 1 + source.length).toNat := by omega
      rw [hnext]
      -- Behind the last character the source begins again.
      by_cases hlast : pos + 1 = 0
      · simp [hlast, ofPos?_of_nonneg]
      · exact ofPos?_of_neg (by omega) (by omega)

theorem past_of_stop {test : Char → Bool} (h : ∀ x ∈ c.rest.head?, test x = false) :
    c.past test = c := by
  obtain ⟨pos, rest⟩ := c
  cases rest with
  | nil => simp [past]
  | cons x t => simp [past, h x (by simp)]

theorem past_of_cons {test : Char → Bool} (hc : c.rest = x :: t) (hx : test x = true) :
    c.past test = past test ⟨c.pos + 1, t⟩ := by
  simp only [past, hc, List.takeWhile_cons_of_pos hx, List.dropWhile_cons_of_pos hx, List.length_cons]
  congr 1
  omega

/-- The rules up to the end, or the first failure. -/
def allRules (source : Text) (c : Cursor) : Except Failure (List Rule) :=
  match c.rules source with
  | (rs, none) => .ok rs
  | (_, some f) => .error f

theorem allRules_eq (source : Text) (c : Cursor) : c.allRules source =
    if c.skip.rest = [] then .ok []
    else c.skip.rule source >>= fun x => x.2.allRules source >>= fun rs => .ok (x.1 :: rs) := by
  unfold allRules
  rw [rules_eq]
  by_cases hnil : c.skip.rest = []
  · simp only [if_pos hnil]
  · simp only [if_neg hnil]
    rcases c.skip.rule source with f | ⟨r, next⟩
    · rfl
    · change _ = ((match next.rules source with
        | (rs, none) => Except.ok rs
        | (_, some f) => .error f) >>= _)
      dsimp only
      rcases next.rules source with ⟨rs, _ | f⟩ <;> rfl

end Cursor

theorem parse?_eq_allRules (source : Text) : Sheet.parse? source =
    match (Cursor.start source).allRules source with
    | .ok rs => .ok ⟨rs⟩
    | .error f => .error (f.error source) := by
  unfold Sheet.parse? Sheet.read Cursor.allRules
  rcases (Cursor.start source).rules source with ⟨rs, _ | f⟩ <;> rfl

/-! ## Tokens -/

namespace Indexed

variable {source : Text} {pos : Int} {c : Cursor} {m : Text}

/-- Reading by index gives what a cursor reads, or the error of its failure. -/
abbrev Agrees {α β : Type} (source : Text) (values : α → β → Prop) :
    Except Failure α → Except Stop β → Prop :=
  Corresponds (fun f stop => stop = .rejected (f.error source)) values

/-- A value with the cursor at a position, and the value with this position. -/
structure ReadTo {α : Type} (source : Text) (a : α × Cursor) (b : α × Int) : Prop where
  value : a.1 = b.1
  at_pos : Cursor.ofPos? source b.2 = some a.2

theorem charAt_of_cons {x : Char} {t : Text} (h : Cursor.ofPos? source pos = some c)
    (hc : c.rest = x :: t) : charAt source pos = .ok x := by
  rw [charAt, (Cursor.step_of_rest_cons h hc).2.1]

theorem runEnd_eq {test : Char → Bool} (h : Cursor.ofPos? source pos = some c) :
    runEnd source test pos = .ok (c.past test).pos ∧
      Cursor.ofPos? source (c.past test).pos = some (c.past test) := by
  -- On what is left at the cursor, one character with each look.
  induction hc : c.rest generalizing c pos with
  | nil =>
    have := Cursor.length_le_of_rest_nil h hc
    rw [Cursor.past_of_stop (by simp [hc]), Cursor.pos_of_ofPos? h, runEnd, if_neg (by omega)]
    exact ⟨rfl, h⟩
  | cons x t ih =>
    obtain ⟨hlt, -, hnext⟩ := Cursor.step_of_rest_cons h hc
    rw [runEnd, if_pos hlt, charAt_of_cons h hc]
    cases hx : test x with
    | true =>
      rw [Cursor.past_of_cons hc hx, Cursor.pos_of_ofPos? h]
      simpa [bind, Except.bind, hx] using ih hnext rfl
    | false =>
      rw [Cursor.past_of_stop (by simp [hc, hx]), Cursor.pos_of_ofPos? h]
      simpa [bind, Except.bind, pure, Except.pure, hx] using h

theorem blanks_eq (h : Cursor.ofPos? source pos = some c) :
    blanks source pos = .ok c.skip.pos ∧ Cursor.ofPos? source c.skip.pos = some c.skip :=
  runEnd_eq h

theorem agrees_blanks (h : Cursor.ofPos? source pos = some c) :
    Agrees source (fun d q => Cursor.ofPos? source q = some d) (.ok c.skip) (blanks source pos) := by
  obtain ⟨hskip, hend⟩ := blanks_eq h
  rw [hskip]
  exact .ok hend

theorem agrees_mark (h : Cursor.ofPos? source pos = some c) :
    Agrees source (fun d q => Cursor.ofPos? source q = some d) (c.mark m) (mark source pos m) := by
  have hpos := Cursor.pos_of_ofPos? h
  unfold Cursor.mark mark
  split
  · rename_i hc
    have := Cursor.length_le_of_rest_nil h hc
    rw [if_neg (by omega), hpos]
    exact .error rfl
  · rename_i x t hc
    obtain ⟨hlt, -, hnext⟩ := Cursor.step_of_rest_cons h hc
    rw [if_pos hlt, charAt_of_cons h hc, hpos]
    split
    · rename_i hm
      simp only [bind, Except.bind, hm, if_true]
      exact .ok hnext
    · rename_i hm
      simp only [bind, Except.bind, hm, if_false]
      exact .error rfl

theorem agrees_word (h : Cursor.ofPos? source pos = some c) :
    Agrees source (ReadTo source) (c.word source) (word source pos) := by
  obtain ⟨hrun, hend⟩ : runEnd source isLetter pos = _ ∧ _ := runEnd_eq h
  have hpos := Cursor.pos_of_ofPos? h
  unfold Cursor.word word
  rw [hrun, hpos]
  split
  · rename_i hstop
    simp only [bind, Except.bind, hstop, if_true]
    exact .error rfl
  · rename_i hstop
    simp only [bind, Except.bind, hstop, if_false]
    exact .ok ⟨rfl, hend⟩

/-! ## Productions -/

/-- Blanks are skipped without a failure, on either side. -/
theorem agrees_of_skip {α β : Type} {values : α → β → Prop} {r : Except Failure α}
    {k : Int → Except Stop β} (h : Cursor.ofPos? source pos = some c)
    (hk : ∀ q, Cursor.ofPos? source q = some c.skip → Agrees source values r (k q)) :
    Agrees source values r (blanks source pos >>= k) := by
  obtain ⟨hskip, hend⟩ := blanks_eq h
  rw [hskip]
  exact hk _ hend

theorem agrees_declaration (h : Cursor.ofPos? source pos = some c) :
    Agrees source (ReadTo source) (c.declaration source) (declaration source pos) := by
  have hpos := Cursor.pos_of_ofPos? h
  unfold Cursor.declaration declaration
  refine agrees_of_skip h fun q h₀ => (agrees_word h₀).bind ?_
  rintro ⟨name, c₁⟩ ⟨_, p₁⟩ - ⟨rfl, h₁⟩
  refine agrees_of_skip h₁ fun q h => (agrees_mark h).bind fun c₂ p₂ _ h₂ => ?_
  simp only []
  cases PropertyKind.ofName? name.text with
  | none =>
    rw [hpos]
    exact .error rfl
  | some kind =>
    refine agrees_of_skip h₂ fun q h => (agrees_word h).bind ?_
    rintro ⟨value, c₃⟩ ⟨_, p₃⟩ - ⟨rfl, h₃⟩
    exact agrees_of_skip h₃ fun q h => (agrees_mark h).bind fun c₄ p₄ _ h₄ => .ok ⟨rfl, h₄⟩

theorem blockTurn_of_not_inBlock (h : Cursor.ofPos? source pos = some c)
    (hin : c.skip.inBlock = false) : blockTurn source pos = .ok (.done c.skip.pos) := by
  obtain ⟨hskip, hend⟩ := blanks_eq h
  unfold blockTurn
  rw [hskip]
  change (if c.skip.pos < source.length then _ else _) = _
  cases hc : c.skip.rest with
  | nil =>
    have := Cursor.length_le_of_rest_nil hend hc
    rw [if_neg (by omega)]
    rfl
  | cons x t =>
    obtain ⟨hlt, -, -⟩ := Cursor.step_of_rest_cons hend hc
    obtain rfl : x = '}' := by simpa [Cursor.inBlock, hc] using hin
    rw [if_pos hlt, charAt_of_cons hend hc]
    rfl

theorem blockTurn_of_inBlock (h : Cursor.ofPos? source pos = some c) (hin : c.skip.inBlock = true) :
    blockTurn source pos =
      declaration source c.skip.pos >>= fun x => .ok (.read x.1 x.2) := by
  obtain ⟨hskip, hend⟩ := blanks_eq h
  unfold blockTurn
  rw [hskip]
  change (if c.skip.pos < source.length then _ else _) = _
  cases hc : c.skip.rest with
  | nil => simp [Cursor.inBlock, hc] at hin
  | cons x t =>
    obtain ⟨hlt, -, -⟩ := Cursor.step_of_rest_cons hend hc
    have hx : x ≠ '}' := by simpa [Cursor.inBlock, hc] using hin
    rw [if_pos hlt, charAt_of_cons hend hc]
    change (if x = '}' then _ else _) = _
    rw [if_neg hx]
    rfl

theorem agrees_block {c : Cursor} {pos : Int} (h : Cursor.ofPos? source pos = some c) :
    Agrees source (ReadTo source) (c.declarations source) ((block source).run pos) := by
  obtain ⟨-, hend⟩ := blanks_eq h
  rw [Cursor.declarations_eq, Loop.run_eq]
  cases hin : c.skip.inBlock with
  | false =>
    have hturn : (block source).turn pos = .ok (.done c.skip.pos) := blockTurn_of_not_inBlock h hin
    rw [hturn]
    exact .ok ⟨rfl, hend⟩
  | true =>
    have hturn : (block source).turn pos = _ := blockTurn_of_inBlock h hin
    rw [hturn, bind_assoc]
    refine (agrees_declaration hend).bind ?_
    rintro ⟨d, c₁⟩ ⟨_, p₁⟩ hd ⟨rfl, h₁⟩
    have := Cursor.length_of_declaration hd
    have := Cursor.length_skip_le c
    refine (agrees_block h₁).bind ?_
    rintro ⟨ds, c₂⟩ ⟨_, p₂⟩ - ⟨rfl, h₂⟩
    exact .ok ⟨rfl, h₂⟩
termination_by c.rest.length

theorem agrees_rule (h : Cursor.ofPos? source pos = some c) :
    Agrees source (ReadTo source) (c.rule source) (rule source pos) := by
  unfold Cursor.rule rule
  refine agrees_of_skip h fun q h => (agrees_word h).bind ?_
  rintro ⟨selector, c₁⟩ ⟨_, p₁⟩ - ⟨rfl, h₁⟩
  refine agrees_of_skip h₁ fun q h => (agrees_mark h).bind fun c₂ p₂ _ h₂ => ?_
  refine (agrees_block h₂).bind ?_
  rintro ⟨ds, c₃⟩ ⟨_, p₃⟩ - ⟨rfl, h₃⟩
  exact agrees_of_skip h₃ fun q h => (agrees_mark h).bind fun c₄ p₄ _ h₄ => .ok ⟨rfl, h₄⟩

theorem agrees_rules {c : Cursor} {pos : Int} (h : Cursor.ofPos? source pos = some c) :
    Agrees source (fun rs x => rs = x.1) (c.allRules source) ((rules source).run c.skip.pos) := by
  obtain ⟨-, hend⟩ := blanks_eq h
  rw [Cursor.allRules_eq, Loop.run_eq]
  change Agrees source _ _ (sheetTurn source c.skip.pos >>= _)
  unfold sheetTurn
  cases hc : c.skip.rest with
  | nil =>
    have := Cursor.length_le_of_rest_nil hend hc
    rw [if_pos rfl, if_neg (by omega)]
    exact .ok rfl
  | cons x t =>
    obtain ⟨hlt, -, -⟩ := Cursor.step_of_rest_cons hend hc
    rw [if_neg (by simp), if_pos hlt, bind_assoc]
    refine (agrees_rule hend).bind ?_
    rintro ⟨r, c₁⟩ ⟨_, p₁⟩ hr ⟨rfl, h₁⟩
    have := Cursor.length_of_rule hr
    have := Cursor.length_skip_le c
    simp only [(blanks_eq h₁).1]
    exact (agrees_rules h₁).bind fun rs x _ hrs => .ok (congrArg _ hrs)
termination_by c.rest.length

end Indexed

/-! ## The outcome by index -/

/-- A position before the source, counted from its end, is outside of it. -/
theorem Text.at?_of_lt {source : Text} {pos : Int} (h : pos < -source.length) :
    source.at? pos = none := by
  rw [at?, if_neg (by omega), if_neg (by omega)]

namespace Indexed

variable {source : Text} {pos : Int} (h : pos < -source.length)
include h

theorem charAt_of_lt : charAt source pos = .error .outside := by
  rw [charAt, Text.at?_of_lt h]

theorem runEnd_of_lt (test : Char → Bool) : runEnd source test pos = .error .outside := by
  rw [runEnd, if_pos (by omega), charAt_of_lt h]
  rfl

theorem blanks_of_lt : blanks source pos = .error .outside := runEnd_of_lt h isBlank

theorem mark_of_lt (m : Text) : mark source pos m = .error .outside := by
  rw [mark, if_pos (by omega), charAt_of_lt h]
  rfl

theorem word_of_lt : word source pos = .error .outside := by
  rw [word, runEnd_of_lt h]
  rfl

theorem declaration_of_lt : declaration source pos = .error .outside := by
  rw [declaration, blanks_of_lt h]
  rfl

theorem rule_of_lt : rule source pos = .error .outside := by
  rw [rule, blanks_of_lt h]
  rfl

end Indexed

namespace Report

variable {source : Text} {listening : Bool}

/-- Reading at a position is what reading by index is, and is outside only before the source. -/
structure Settles {α : Type} (source : Text) (pos : Int) (o byIndex : Except Stop α) : Prop where
  by_index : o = byIndex
  outside_iff : o = .error .outside ↔ pos < -source.length
  settled : -source.length ≤ pos → (∃ a, o = .ok a) ∨ ∃ e, o = .error (.rejected e)

theorem settles_outcomeAt {α β : Type} {values : α → β → Prop} {read : Cursor → Except Failure α}
    {give : α → β} {pos : Int} {byIndex : Except Stop β}
    (hout : pos < -source.length → byIndex = .error .outside)
    (hagrees : ∀ c, Cursor.ofPos? source pos = some c →
      Indexed.Agrees source values (read c) byIndex)
    (hvalues : ∀ a b, values a b → give a = b) :
    Settles source pos (outcomeAt source read give pos) byIndex := by
  unfold outcomeAt
  cases hc : Cursor.ofPos? source pos with
  | none =>
    have hlt := Cursor.ofPos?_eq_none.mp hc
    exact ⟨(hout hlt).symm, by simp [hlt], fun hle => by omega⟩
  | some c =>
    have hle : ¬ pos < -source.length := fun hlt => by
      rw [Cursor.ofPos?_eq_none.mpr hlt] at hc
      cases hc
    have h := hagrees c hc
    change Settles source pos (shown source give (read c)) byIndex
    generalize read c = r at h
    cases h with
    | error he => exact ⟨by rw [he]; rfl, by simpa [shown] using hle, fun _ => .inr ⟨_, rfl⟩⟩
    | ok hv => exact ⟨congrArg _ (hvalues _ _ hv), by simpa [shown] using hle, fun _ => .inl ⟨_, rfl⟩⟩

theorem blanks_settles (pos : Int) :
    Settles source pos (blanks source listening pos).outcome (Indexed.blanks source pos) := by
  rw [blanks_outcome]
  exact settles_outcomeAt Indexed.blanks_of_lt (fun c => Indexed.agrees_blanks)
    fun _ _ => Cursor.pos_of_ofPos?

theorem mark_settles (pos : Int) (m : Text) :
    Settles source pos (mark source listening pos m).outcome (Indexed.mark source pos m) := by
  rw [mark_outcome]
  exact settles_outcomeAt (Indexed.mark_of_lt · m) (fun c => Indexed.agrees_mark)
    fun _ _ => Cursor.pos_of_ofPos?

theorem readTo_settles {α : Type} {pos : Int} {o : Except Stop (α × Int)}
    {read : Cursor → Except Failure (α × Cursor)} {byIndex : Except Stop (α × Int)}
    (ho : o = outcomeAt source read (Prod.map id Cursor.pos) pos)
    (hout : pos < -source.length → byIndex = .error .outside)
    (hagrees : ∀ c, Cursor.ofPos? source pos = some c →
      Indexed.Agrees source (Indexed.ReadTo source) (read c) byIndex) :
    Settles source pos o byIndex := by
  rw [ho]
  exact settles_outcomeAt hout hagrees
    fun _ _ h => Prod.ext h.value (Cursor.pos_of_ofPos? h.at_pos)

theorem word_settles (pos : Int) :
    Settles source pos (word source listening pos).outcome (Indexed.word source pos) :=
  readTo_settles (word_outcome pos) Indexed.word_of_lt fun _ => Indexed.agrees_word

theorem declaration_settles (pos : Int) :
    Settles source pos (declaration source listening pos).outcome (Indexed.declaration source pos) :=
  readTo_settles (declaration_outcome pos) Indexed.declaration_of_lt
    fun _ => Indexed.agrees_declaration

theorem rule_settles (pos : Int) :
    Settles source pos (rule source listening pos).outcome (Indexed.rule source pos) :=
  readTo_settles (rule_outcome pos) Indexed.rule_of_lt fun _ => Indexed.agrees_rule

theorem sheet_eq_indexed : (sheet source listening).outcome = Indexed.sheet source := by
  have hstart : Cursor.ofPos? source 0 = some (.start source) := Cursor.ofPos?_of_nonneg (Int.le_refl 0)
  have hagrees := Indexed.agrees_rules hstart
  rw [sheet_outcome, parse?_eq_allRules, Indexed.sheet, (Indexed.blanks_eq hstart).1]
  change _ = ((Indexed.rules source).run _ >>= _)
  generalize (Cursor.start source).allRules source = rs at hagrees
  generalize (Indexed.rules source).run _ = byIndex at hagrees
  cases hagrees with
  | error he =>
    rw [he]
    rfl
  | ok hrs =>
    rw [hrs]
    rfl

/-- Reading is outside of the source exactly at the positions that, counted from the end, come before its
first character. At every other position, also where a negative one runs into the source from its
beginning, each token and each production comes to a value or to a rejection, and each look that it takes
is at a character of the source. A sheet is accepted or rejected. -/
theorem every_look_inside (source : Text) (listening : Bool) :
    (∀ pos, Settles source pos (blanks source listening pos).outcome (Indexed.blanks source pos)) ∧
    (∀ pos m, Settles source pos (mark source listening pos m).outcome
      (Indexed.mark source pos m)) ∧
    (∀ pos, Settles source pos (word source listening pos).outcome (Indexed.word source pos)) ∧
    (∀ pos, Settles source pos (declaration source listening pos).outcome
      (Indexed.declaration source pos)) ∧
    (∀ pos, Settles source pos (rule source listening pos).outcome (Indexed.rule source pos)) ∧
    (sheet source listening).outcome = Indexed.sheet source ∧
    ((∃ s, (sheet source listening).outcome = .ok s) ∨
      ∃ e, (sheet source listening).outcome = .error (.rejected e)) := by
  refine ⟨blanks_settles, mark_settles, word_settles, declaration_settles, rule_settles,
    sheet_eq_indexed, ?_⟩
  rw [sheet_outcome]
  cases Sheet.parse? source with
  | ok s => exact .inl ⟨s, rfl⟩
  | error e => exact .inr ⟨e, rfl⟩

end Report

end Stylesheet
