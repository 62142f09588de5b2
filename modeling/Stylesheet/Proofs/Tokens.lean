import Mathlib.Data.List.TakeWhile
import Stylesheet.Toml.Token

/-!
# Tokens in a row

Whether a token is read depends on the token and the one character behind it. So tokens can be written
in a row and read again, if no token goes on into the next.
-/

namespace Stylesheet.Toml.Token

variable {c : Char} {t : Token} {w m rest after : Text}

theorem ne_of_test {test : Char → Bool} {x : Char} (hx : test x) (hc : test c = false) : x ≠ c := by
  rintro rfl
  cases hx.symm.trans hc

/-! ## Strings -/

theorem basicRest_escape {x : Char} (hx : escape? c = some x) :
    basicRest ('\\' :: c :: rest) =
      (basicRest rest).map fun r => ('\\' :: c :: r.1, x :: r.2.1, r.2.2) := by
  have hu : c ≠ 'u' := by rintro rfl; cases hx
  have hU : c ≠ 'U' := by rintro rfl; cases hx
  rw [basicRest.eq_5 _ _ (by simp [hu]) (by simp [hU]), hx]
  rcases basicRest rest with _ | ⟨w, m, after⟩ <;> rfl

theorem basicRest_plain (hquote : c ≠ '"') (hslash : c ≠ '\\') (hcontrol : isControl c = false) :
    basicRest (c :: rest) = (basicRest rest).map fun r => (c :: r.1, c :: r.2.1, r.2.2) := by
  rw [basicRest.eq_6 _ _ (by simp [hquote]) (by simp [hslash]) (by simp [hslash]) (by simp [hslash]),
    hcontrol]
  rcases basicRest rest with _ | ⟨w, m, after⟩ <;> rfl

/-- A string is read up to its end, whatever comes behind it. -/
theorem basicRest_append_of_some (h : basicRest rest = some (w, m, after)) (after' : Text) :
    basicRest (w ++ after') = some (w, m, after') := by
  fun_induction basicRest rest generalizing w m after with
  | case1 => cases h
  | case2 => cases h; rfl
  | case3 a b c d rest ih | case4 a b c d e f g i rest ih =>
    simp only [bind, Option.bind_eq_some_iff, Prod.exists, Option.some.injEq, Prod.mk.injEq] at h
    obtain ⟨x, hx, w', m', r, hr, rfl, rfl, rfl⟩ := h
    simp [basicRest, hx, ih hr]
  | case5 a rest _ _ ih =>
    simp only [bind, Option.bind_eq_some_iff, Prod.exists, Option.some.injEq, Prod.mk.injEq] at h
    obtain ⟨x, hx, w', m', r, hr, rfl, rfl, rfl⟩ := h
    simp [basicRest_escape hx, ih hr]
  | case6 => cases h
  | case7 c rest hquote _ _ hslash hcontrol ih =>
    simp only [bind, Option.bind_eq_some_iff, Prod.exists, Option.some.injEq, Prod.mk.injEq] at h
    obtain ⟨w', m', r, hr, rfl, rfl, rfl⟩ := h
    -- A backslash comes here only as the last character, and then nothing closes the string.
    have hc : c ≠ '\\' := fun hc => by
      rcases rest with _ | ⟨x, rest⟩
      · cases hr
      · exact hslash x rest hc rfl
    rw [List.cons_append, basicRest_plain hquote hc (by simpa using hcontrol), ih hr]
    rfl

theorem literalRest_append_of_some (h : literalRest rest = some (w, m, after)) (after' : Text) :
    literalRest (w ++ after') = some (w, m, after') := by
  induction rest generalizing w m after with
  | nil => cases h
  | cons c rest ih =>
    simp only [literalRest] at h
    split at h
    · cases h
      simp [literalRest, *]
    split at h
    · cases h
    simp only [bind, Option.bind_eq_some_iff, Prod.exists, Option.some.injEq, Prod.mk.injEq] at h
    obtain ⟨w', m', r, hr, rfl, rfl, rfl⟩ := h
    simp [literalRest, ih hr, *]

/-! ## One token -/

/-- The token at the beginning of a text. -/
def first? : Text → Option (Token × Text)
  | [] => none
  | c :: rest => next? c rest

/-- A token is read as such before a text. -/
def Fits (t : Token) (after : Text) : Prop := first? (t.written ++ after) = some (t, after)

/-- What a token is written as. -/
def Sound : Token → Prop
  | newline => True
  | mark c => c ∈ marks
  | blank w => w ≠ [] ∧ ∀ c ∈ w, isBlank c
  | comment w => ∃ w', w = '#' :: w' ∧ ∀ c ∈ w', c ≠ '\n'
  | word w => w ≠ [] ∧ ∀ c ∈ w, isWordChar c
  | quoted w m =>
    (∃ w', w = '"' :: w' ∧ basicRest w' = some (w', m, [])) ∨
      ∃ w', w = '\'' :: w' ∧ literalRest w' = some (w', m, [])

/-- Whether a token would go on into a character. -/
def takes : Token → Char → Bool
  | newline, _ => false
  | mark _, _ => false
  | blank _, c => isBlank c
  | comment _, c => c ≠ '\n'
  | word _, c => isWordChar c
  | quoted w _, c => w = [c, c]

theorem head?_dropWhile {p : Char → Bool} (h : c ∈ (rest.dropWhile p).head?) : ¬p c := by
  rw [Option.mem_def] at h
  have := List.head?_dropWhile_not p rest
  rw [h] at this
  simpa using this

/-! ### Strings of either kind -/

/-- A string behind its opening quote. Two quotes more would begin a string of several lines. -/
def string? (q : Char) (read : Text → Option (Text × Text × Text)) (rest : Text) :
    Option (Token × Text) :=
  if [q, q].isPrefixOf rest then none
  else (read rest).map fun r => (quoted (q :: r.1) r.2.1, r.2.2)

/-- Strings are read up to a closing quote, whatever comes behind it. -/
structure Closes (q : Char) (read : Text → Option (Text × Text × Text)) : Prop where
  nil : read [] = none
  quote : ∀ r, read (q :: r) = some ([q], [], r)
  append : ∀ {s w m r}, read s = some (w, m, r) → w ++ r = s
  append_of_some : ∀ {s w m r}, read s = some (w, m, r) → ∀ r', read (w ++ r') = some (w, m, r')

theorem closes_basicRest : Closes '"' basicRest :=
  ⟨rfl, fun _ => rfl, basicRest_append, basicRest_append_of_some⟩

theorem closes_literalRest : Closes '\'' literalRest :=
  ⟨rfl, fun _ => rfl, literalRest_append, literalRest_append_of_some⟩

section

variable {q : Char} {read : Text → Option (Text × Text × Text)} (hread : Closes q read)
include hread

theorem exists_of_string? (h : string? q read rest = some (t, after)) :
    ∃ w m, t = quoted (q :: w) m ∧ read w = some (w, m, []) ∧ ∀ c ∈ after.head?, ¬takes t c := by
  unfold string? at h
  split at h
  · cases h
  rename_i hempty
  obtain ⟨⟨w, m, r⟩, hr, he⟩ := Option.map_eq_some_iff.mp h
  cases he
  refine ⟨w, m, rfl, by simpa using hread.append_of_some hr [], fun c hc htakes => ?_⟩
  obtain ⟨rfl, rfl⟩ : q = c ∧ w = [c] := by simpa [takes] using htakes
  obtain ⟨after, rfl⟩ := List.head?_eq_some_iff.mp hc
  exact hempty (by simp [← hread.append hr])

theorem string?_append (hw : read w = some (w, m, []))
    (hafter : ∀ c ∈ after.head?, ¬takes (quoted (q :: w) m) c) :
    string? q read (w ++ after) = some (quoted (q :: w) m, after) := by
  have hempty : ¬[q, q].isPrefixOf (w ++ after) := by
    intro hprefix
    cases w with
    | nil => cases hread.nil.symm.trans hw
    | cons c w =>
      obtain ⟨rfl, hprefix⟩ : q = c ∧ [q].isPrefixOf (w ++ after) := by simpa using hprefix
      cases (hread.quote w).symm.trans hw
      obtain ⟨r, hr⟩ := List.isPrefixOf_iff_prefix.mp hprefix
      obtain rfl : after = q :: r := by simpa using hr.symm
      exact hafter q rfl (by simp [takes])
  rw [string?, if_neg hempty, hread.append_of_some hw]
  rfl

end

/-! ### Any token -/

theorem sound_of_next? (h : next? c rest = some (t, after)) :
    Sound t ∧ ∀ x ∈ after.head?, ¬takes t x := by
  have hrun {test : Char → Bool} {c : Char} (hc : test c) : ∀ x ∈ c :: rest.takeWhile test, test x :=
    List.forall_mem_cons.mpr ⟨hc, fun x hx => List.mem_takeWhile_imp hx⟩
  unfold next? at h
  split at h
  · cases h
    exact ⟨trivial, fun x _ => Bool.false_ne_true⟩
  split at h
  · rename_i hmark
    cases h
    exact ⟨List.contains_iff_mem.mp hmark, fun x _ => Bool.false_ne_true⟩
  split at h
  · rename_i hblank
    cases h
    exact ⟨⟨List.cons_ne_nil _ _, hrun hblank⟩, fun x hx => head?_dropWhile hx⟩
  split at h
  · rename_i hcomment
    cases h
    refine ⟨⟨_, by rw [hcomment], fun x hx => ?_⟩, fun x hx => head?_dropWhile hx⟩
    simpa using List.mem_takeWhile_imp hx
  split at h
  · rename_i hword
    cases h
    exact ⟨⟨List.cons_ne_nil _ _, hrun hword⟩, fun x hx => head?_dropWhile hx⟩
  split at h
  · rename_i hquote
    subst hquote
    have h : string? '"' basicRest rest = some (t, after) := h
    obtain ⟨w, m, rfl, hw, hafter⟩ := exists_of_string? closes_basicRest h
    exact ⟨.inl ⟨w, rfl, hw⟩, hafter⟩
  split at h
  · rename_i hquote
    subst hquote
    have h : string? '\'' literalRest rest = some (t, after) := h
    obtain ⟨w, m, rfl, hw, hafter⟩ := exists_of_string? closes_literalRest h
    exact ⟨.inr ⟨w, rfl, hw⟩, hafter⟩
  · cases h

theorem run_append {test : Char → Bool} (make : Text → Token) (hw : ∀ x ∈ w, test x)
    (hafter : ∀ x ∈ after.head?, ¬test x) : run test make c (w ++ after) = (make (c :: w), after) := by
  have hnone : after.takeWhile test = [] ∧ after.dropWhile test = after := by
    rcases after with _ | ⟨x, after⟩
    · exact ⟨rfl, rfl⟩
    · have hx : ¬test x := hafter x rfl
      exact ⟨List.takeWhile_cons_of_neg hx, List.dropWhile_cons_of_neg hx⟩
  rw [run, List.takeWhile_append_of_pos hw, List.dropWhile_append_of_pos hw, hnone.1, hnone.2,
    List.append_nil]

theorem next?_of_isWordChar (hc : isWordChar c) :
    next? c rest = some (run isWordChar word c rest) := by
  have hmark : ¬marks.contains c := fun hmem => by
    have hall : marks.all (!isWordChar ·) := by decide
    have := List.all_eq_true.mp hall c (List.contains_iff_mem.mp hmem)
    simp [hc] at this
  have hblank : ¬isBlank c := fun hblank => by
    rcases Bool.or_eq_true_iff.mp hblank with he | he <;> rw [beq_iff_eq.mp he] at hc <;> cases hc
  rw [next?, if_neg (ne_of_test hc rfl), if_neg hmark, if_neg hblank, if_neg (ne_of_test hc rfl),
    if_pos hc]

theorem fits_of_sound (ht : Sound t) (hafter : ∀ c ∈ after.head?, ¬takes t c) : Fits t after := by
  unfold Fits
  cases t with
  | newline => rfl
  | mark c =>
    have hne : c ≠ '\n' := fun he => by
      have hmem : '\n' ∉ marks := by decide
      exact hmem (he ▸ ht)
    rw [written, List.singleton_append, first?, next?, if_neg hne, if_pos (List.contains_iff_mem.mpr ht)]
  | blank w =>
    obtain ⟨hne, hw⟩ := ht
    obtain ⟨c, w, rfl⟩ := List.exists_cons_of_ne_nil hne
    obtain ⟨hc, hw⟩ := List.forall_mem_cons.mp hw
    have hnot : c ≠ '\n' ∧ ¬marks.contains c := by
      rcases Bool.or_eq_true_iff.mp hc with he | he <;> rw [beq_iff_eq.mp he] <;> decide
    rw [written, List.cons_append, first?, next?, if_neg hnot.1, if_neg hnot.2, if_pos hc,
      run_append _ hw hafter]
  | comment w =>
    obtain ⟨w, rfl, hw⟩ := ht
    have hw : ∀ x ∈ w, decide (x ≠ '\n') := by simpa using hw
    change some (run (· ≠ '\n') comment '#' (w ++ after)) = _
    rw [run_append _ hw (by exact hafter)]
  | word w =>
    obtain ⟨hne, hw⟩ := ht
    obtain ⟨c, w, rfl⟩ := List.exists_cons_of_ne_nil hne
    obtain ⟨hc, hw⟩ := List.forall_mem_cons.mp hw
    rw [written, List.cons_append, first?, next?_of_isWordChar hc, run_append _ hw hafter]
  | quoted w m =>
    rcases ht with ⟨w, rfl, hw⟩ | ⟨w, rfl, hw⟩
    · exact string?_append closes_basicRest hw hafter
    · exact string?_append closes_literalRest hw hafter

theorem fits_iff : Fits t after ↔ Sound t ∧ ∀ c ∈ after.head?, ¬takes t c := by
  refine ⟨fun h => ?_, fun h => fits_of_sound h.1 h.2⟩
  unfold Fits at h
  generalize t.written ++ after = s at h
  cases s with
  | nil => cases h
  | cons c rest => exact sound_of_next? h

theorem Sound.written_ne_nil (ht : Sound t) : t.written ≠ [] := by
  cases t with
  | newline => exact List.cons_ne_nil _ _
  | mark c => exact List.cons_ne_nil _ _
  | blank w => exact ht.1
  | comment w =>
    obtain ⟨w, rfl, -⟩ := ht
    exact List.cons_ne_nil _ _
  | word w => exact ht.1
  | quoted w m => rcases ht with ⟨w, rfl, -⟩ | ⟨w, rfl, -⟩ <;> exact List.cons_ne_nil _ _

/-! ## Tokens in a row -/

@[simp] theorem text_cons (t : Token) (ts : List Token) : text (t :: ts) = t.written ++ text ts := rfl

theorem text_append (ts us : List Token) : text (ts ++ us) = text ts ++ text us :=
  List.flatMap_append

/-- Every token is read as such before those behind it and a text. -/
def Reads : List Token → Text → Prop
  | [], _ => True
  | t :: ts, after => Fits t (text ts ++ after) ∧ Reads ts after

theorem reads_append {ts us : List Token} :
    Reads (ts ++ us) after ↔ Reads ts (text us ++ after) ∧ Reads us after := by
  induction ts with
  | nil => simp [Reads]
  | cons t ts ih => simp [Reads, ih, text_append, and_assoc]

theorem Reads.sound {ts : List Token} (h : Reads ts after) : ∀ t ∈ ts, Sound t := by
  induction ts with
  | nil => exact fun t ht => nomatch ht
  | cons t ts ih => exact List.forall_mem_cons.mpr ⟨(fits_iff.mp h.1).1, ih h.2⟩

theorem all?_of_first? {s : Text} (h : first? s = some (t, after)) :
    all? s = (all? after).map (t :: ·) := by
  cases s with
  | nil => cases h
  | cons c rest =>
    have h : next? c rest = some (t, after) := h
    rw [all?]
    split
    · rename_i hnone
      cases hnone.symm.trans h
    · rename_i hsome
      cases hsome.symm.trans h
      rfl

theorem all?_text {ts : List Token} (h : Reads ts []) : all? (text ts) = some ts := by
  induction ts with
  | nil => simp [text, all?]
  | cons t ts ih =>
    have hfirst : first? (t.written ++ text ts) = some (t, text ts) := by simpa [Fits] using h.1
    rw [text_cons, all?_of_first? hfirst, ih h.2]
    rfl

theorem reads_of_all? {s : Text} {ts : List Token} (h : all? s = some ts) : Reads ts [] := by
  fun_induction all? s generalizing ts with
  | case1 => cases h; trivial
  | case2 => cases h
  | case3 c rest t after hn ih =>
    obtain ⟨us, hu, rfl⟩ := Option.map_eq_some_iff.mp h
    refine ⟨fits_iff.mpr ?_, ih hu⟩
    rw [List.append_nil, text_of_all? hu]
    exact sound_of_next? hn

theorem all?_eq_some_iff {s : Text} {ts : List Token} :
    all? s = some ts ↔ text ts = s ∧ Reads ts [] :=
  ⟨fun h => ⟨text_of_all? h, reads_of_all? h⟩, fun h => h.1 ▸ all?_text h.2⟩

/-- Only the last token of a row sees what comes behind it. -/
theorem Reads.of_last {ts : List Token} {after' : Text} (h : Reads ts after)
    (hlast : ∀ t, ts.getLast? = some t → ∀ c ∈ after'.head?, ¬takes t c) : Reads ts after' := by
  induction ts with
  | nil => trivial
  | cons t ts ih =>
    obtain ⟨ht, hafter⟩ := fits_iff.mp h.1
    cases ts with
    | nil => exact ⟨fits_iff.mpr ⟨ht, hlast t rfl⟩, trivial⟩
    | cons u us =>
      obtain ⟨x, w, hw⟩ := List.exists_cons_of_ne_nil (h.2.sound u List.mem_cons_self).written_ne_nil
      refine ⟨fits_iff.mpr ⟨ht, ?_⟩, ih h.2 fun v hv => hlast v (by rw [List.getLast?_cons_cons, hv])⟩
      rw [text_cons, hw, List.cons_append] at hafter ⊢
      exact hafter

/-! ## Written strings -/

theorem charOfHex?_hex {n : Nat} (h : n < 0x80) :
    ∃ a b c d, Text.hex 4 n = [a, b, c, d] ∧ charOfHex? [a, b, c, d] = some (Char.ofNat n) := by
  have hlength : (Text.hex 4 n).length = 4 := by
    revert n
    decide
  have hchar : charOfHex? (Text.hex 4 n) = some (Char.ofNat n) := by
    revert n
    decide
  generalize Text.hex 4 n = ds at hlength hchar ⊢
  rcases ds with _ | ⟨a, _ | ⟨b, _ | ⟨c, _ | ⟨d, _ | ⟨_, _⟩⟩⟩⟩⟩ <;> cases hlength
  exact ⟨a, b, c, d, rfl, hchar⟩

/-- A character is written with a letter, with its number, or as it is. -/
theorem cases_of_escaped (c : Char) :
    (∃ e, escape? e = some c ∧ escaped c = ['\\', e]) ∨
      (c.toNat < 0x80 ∧ escaped c = '\\' :: 'u' :: Text.hex 4 c.toNat) ∨
      (c ≠ '"' ∧ c ≠ '\\' ∧ isControl c = false ∧ escaped c = [c]) := by
  unfold escaped
  split
  · rename_i h
    rcases h with rfl | rfl <;> exact .inl ⟨_, rfl, rfl⟩
  split
  · exact .inl ⟨'b', by simp [escape?, *], rfl⟩
  split
  · exact .inl ⟨'t', by simp [escape?, *], rfl⟩
  split
  · exact .inl ⟨'n', by simp [escape?, *], rfl⟩
  split
  · exact .inl ⟨'f', by simp [escape?, *], rfl⟩
  split
  · exact .inl ⟨'r', by simp [escape?, *], rfl⟩
  split
  · exact .inr (.inl ⟨by omega, rfl⟩)
  · rename_i hquote _ _ _ _ _ hcontrol
    rw [not_or] at hquote hcontrol
    exact .inr (.inr ⟨hquote.1, hquote.2, by simp [isControl]; omega, rfl⟩)

theorem basicRest_escaped (c : Char) (rest : Text) :
    basicRest (escaped c ++ rest) =
      (basicRest rest).map fun r => (escaped c ++ r.1, c :: r.2.1, r.2.2) := by
  rcases cases_of_escaped c with ⟨e, he, h⟩ | ⟨hcode, h⟩ | ⟨hquote, hslash, hcontrol, h⟩ <;> rw [h]
  · exact basicRest_escape he
  · obtain ⟨a, b, d, e, hhex, hchar⟩ := charOfHex?_hex hcode
    rw [Char.ofNat_toNat] at hchar
    rw [hhex]
    simp only [List.cons_append, List.nil_append, basicRest, hchar, bind, Option.bind_some]
    rcases basicRest rest with _ | ⟨w, m, after⟩ <;> rfl
  · exact basicRest_plain hquote hslash hcontrol

theorem not_mem_written_ofText (v : Text) : '\r' ∉ (ofText v).written := by
  have hhex {n : Nat} (h : n < 0x80) : '\r' ∉ Text.hex 4 n := by
    revert n
    decide
  have hescaped (c : Char) : '\r' ∉ escaped c := by
    rcases cases_of_escaped c with ⟨e, he, h⟩ | ⟨hcode, h⟩ | ⟨-, -, hcontrol, h⟩ <;> rw [h]
    · have hne : '\r' ≠ e := by rintro rfl; cases he
      simp [hne]
    · simp [hhex hcode]
    · have hne : '\r' ≠ c := by rintro rfl; cases hcontrol
      simp [hne]
  simp [ofText, written, hescaped]

theorem sound_ofText (v : Text) : Sound (ofText v) := by
  refine .inl ⟨v.flatMap escaped ++ ['"'], rfl, ?_⟩
  induction v with
  | nil => rfl
  | cons c v ih =>
    rw [List.flatMap_cons, List.append_assoc, basicRest_escaped, ih]
    rfl

theorem fits_ofText {v : Text} (hafter : after.head? ≠ some '"') : Fits (ofText v) after := by
  refine fits_iff.mpr ⟨sound_ofText v, fun c hc htakes => hafter ?_⟩
  have hwritten : '"' :: (v.flatMap escaped ++ ['"']) = [c, c] := by simpa [ofText, takes] using htakes
  obtain ⟨rfl, -⟩ := List.cons.inj hwritten
  exact hc

def isQuoted : Token → Bool
  | quoted _ _ => true
  | _ => false

theorem Sound.head_written (ht : Sound t) {x : Char} (hx : t.written.head? = some x) :
    (t ≠ newline → x ≠ '\n') ∧ (t.isQuoted = false → x ≠ '"') := by
  have hmarks : '\n' ∉ marks ∧ '"' ∉ marks := by decide
  cases t with
  | newline => cases hx; exact ⟨fun h => absurd rfl h, fun _ => by decide⟩
  | mark c =>
    cases hx
    exact ⟨fun _ h => hmarks.1 (h ▸ ht), fun _ h => hmarks.2 (h ▸ ht)⟩
  | blank w =>
    have hblank := ht.2 x (List.mem_of_head? hx)
    exact ⟨fun _ => ne_of_test hblank rfl, fun _ => ne_of_test hblank rfl⟩
  | comment w =>
    obtain ⟨w, rfl, -⟩ := ht
    cases hx
    exact ⟨fun _ => by decide, fun _ => by decide⟩
  | word w =>
    have hword := ht.2 x (List.mem_of_head? hx)
    exact ⟨fun _ => ne_of_test hword rfl, fun _ => ne_of_test hword rfl⟩
  | quoted w m =>
    rcases ht with ⟨w, rfl, -⟩ | ⟨w, rfl, -⟩ <;> cases hx <;>
      exact ⟨fun _ => by decide, fun h => nomatch h⟩

theorem Reads.fits_last {ts : List Token} (h : Reads ts after) (ht : ts.getLast? = some t) :
    Fits t after := by
  obtain ⟨ts, rfl⟩ := List.getLast?_eq_some_iff.mp ht
  simpa [Reads, text] using (reads_append.mp h).2

/-- A string in the place of other tokens is read, if there are no strings directly beside it. -/
theorem Reads.put {before old behind : List Token} (v : Text)
    (h : Reads (before ++ (old ++ behind)) []) (hold : ∃ t ts, old = t :: ts ∧ t ≠ newline)
    (hbefore : ∀ t ∈ before.getLast?, t.isQuoted = false)
    (hbehind : ∀ t ∈ behind.head?, t.isQuoted = false) :
    Reads (before ++ ofText v :: behind) [] := by
  obtain ⟨hfirst, hrest⟩ := reads_append.mp h
  have hlast := (reads_append.mp hrest).2
  refine reads_append.mpr ⟨hfirst.of_last fun t ht c hc htakes => ?_, fits_ofText fun hquote => ?_, hlast⟩
  · cases hc
    cases t with
    | newline | mark | blank | word => cases htakes
    | comment w =>
      -- A comment reaches up to the end of its line, so no value stands right behind it.
      obtain ⟨t, ts, rfl, hne⟩ := hold
      have ht₀ := hrest.sound t List.mem_cons_self
      obtain ⟨x, w', hw⟩ := List.exists_cons_of_ne_nil ht₀.written_ne_nil
      refine (fits_iff.mp (hfirst.fits_last ht)).2 x ?_ ?_
      · rw [List.cons_append, text_cons, hw]
        rfl
      · simpa [takes] using (ht₀.head_written (by rw [hw]; rfl)).1 hne
    | quoted w m => cases hbefore _ ht
  · rw [List.append_nil] at hquote
    cases behind with
    | nil => cases hquote
    | cons t behind =>
      have ht := hlast.sound t List.mem_cons_self
      obtain ⟨x, w', hw⟩ := List.exists_cons_of_ne_nil ht.written_ne_nil
      rw [text_cons, hw] at hquote
      cases hquote
      exact (ht.head_written (by rw [hw]; rfl)).2 (hbehind t rfl) rfl

end Stylesheet.Toml.Token
