import Stylesheet.Proofs.Grammar

/-!
# Lexemes

A text as a list of tokens with their positions: the runs of letters, each as long as possible, and
every other character that is not blank. A text may be cut in two between its lexemes, and the
lexemes of the parts are those of the whole.
-/

namespace Stylesheet

inductive Token
  | word (t : Text)
  | mark (c : Char)
deriving DecidableEq

/-- A token and the position it begins at. -/
structure Lexeme where
  token : Token
  pos : Int
deriving DecidableEq

/-- The lexemes of a text that begins at a position. -/
def lexemes (pos : Int) : Text → List Lexeme
  | [] => []
  | c :: cs =>
    if isBlank c then lexemes (pos + 1) cs
    else if isLetter c then
      ⟨.word (c :: cs.takeWhile isLetter), pos⟩
        :: lexemes (pos + (c :: cs.takeWhile isLetter).length) (cs.dropWhile isLetter)
    else ⟨.mark c, pos⟩ :: lexemes (pos + 1) cs
termination_by t => t.length
decreasing_by
  · simp
  · have := (List.dropWhile_sublist isLetter (l := cs)).length_le
    simp; omega
  · simp

/-- The tokens of a text. -/
def tokens (t : Text) : List Token := (lexemes 0 t).map Lexeme.token

/-! ## Positions -/

theorem pos_cons (pos : Int) (c : Char) (t : Text) :
    pos + 1 + t.length = pos + (c :: t).length := by
  simp only [List.length_cons]
  omega

theorem pos_append (pos : Int) (a b : Text) :
    pos + a.length + b.length = pos + (a ++ b).length := by
  simp only [List.length_append]
  omega

/-! ## One step -/

theorem lexemes_nil (pos : Int) : lexemes pos [] = [] := by rw [lexemes]

theorem lexemes_blank {c : Char} (hc : isBlank c = true) (pos : Int) (t : Text) :
    lexemes pos (c :: t) = lexemes (pos + 1) t := by
  rw [lexemes, if_pos hc]

theorem lexemes_mark {c : Char} (hb : isBlank c = false) (hl : isLetter c = false) (pos : Int)
    (t : Text) : lexemes pos (c :: t) = ⟨.mark c, pos⟩ :: lexemes (pos + 1) t := by
  rw [lexemes, if_neg (by simp [hb]), if_neg (by simp [hl])]

theorem not_isBlank_of_isLetter {c : Char} (h : isLetter c = true) : isBlank c = false := by
  cases hb : isBlank c with
  | false => rfl
  | true => rw [not_isLetter_of_isBlank hb] at h; cases h

/-- No letter stands at the beginning of a text. -/
def NoLetter (t : Text) : Prop := ∀ c ∈ t.head?, isLetter c = false

theorem NoLetter.cons {c : Char} (h : isLetter c = false) (t : Text) : NoLetter (c :: t) := by
  simpa [NoLetter] using h

theorem noLetter_dropWhile (t : Text) : NoLetter (t.dropWhile isLetter) := by
  intro c hc
  have := List.head?_dropWhile_not isLetter t
  rw [hc] at this
  simpa using this

/-- A run of letters ends where the next character is no letter. -/
theorem takeWhile_run {w t : Text} (hw : ∀ c ∈ w, isLetter c = true) (ht : NoLetter t) :
    (w ++ t).takeWhile isLetter = w ∧ (w ++ t).dropWhile isLetter = t := by
  rw [List.takeWhile_append_of_pos hw, List.dropWhile_append_of_pos hw]
  cases t with
  | nil => simp
  | cons x t => simp [ht x (by simp)]

theorem lexemes_word {w t : Text} (hw : IsWord w) (ht : NoLetter t) (pos : Int) :
    lexemes pos (w ++ t) = ⟨.word w, pos⟩ :: lexemes (pos + w.length) t := by
  obtain ⟨hne, hl⟩ := hw
  cases w with
  | nil => exact absurd rfl hne
  | cons c w =>
    have hc := hl c List.mem_cons_self
    obtain ⟨htake, hdrop⟩ := takeWhile_run (fun x hx => hl x (List.mem_cons_of_mem c hx)) ht
    rw [List.cons_append, lexemes, if_neg (by simp [not_isBlank_of_isLetter hc]), if_pos hc]
    rw [htake, hdrop]

theorem lexemes_letter {c : Char} {t : Text} (hc : isLetter c = true) (ht : NoLetter t)
    (pos : Int) : lexemes pos (c :: t) = ⟨.word [c], pos⟩ :: lexemes (pos + 1) t :=
  lexemes_word (w := [c]) ⟨List.cons_ne_nil _ _, by simpa using hc⟩ ht pos

theorem lexemes_blanks {b : Text} (hb : Blanks b) (pos : Int) (t : Text) :
    lexemes pos (b ++ t) = lexemes (pos + b.length) t := by
  induction b generalizing pos with
  | nil => simp
  | cons c b ih =>
    have hb' : Blanks b := fun x hx => hb x (List.mem_cons_of_mem c hx)
    rw [List.cons_append, lexemes_blank (hb c List.mem_cons_self), ih hb', pos_cons pos c b]

/-- A token by its first character. -/
def Token.Begins (c : Char) (token : Token) : Prop :=
  if isLetter c then ∃ w, token = .word w else token = .mark c

theorem Token.Begins.eq_of_mark {c x : Char} (h : (Token.mark x).Begins c) : x = c := by
  unfold Token.Begins at h
  split at h
  · obtain ⟨w, hw⟩ := h
    cases hw
  · cases h
    rfl

theorem lexemes_of_not_blank {c : Char} (hb : isBlank c = false) (pos : Int) (t : Text) :
    ∃ token rest, lexemes pos (c :: t) = ⟨token, pos⟩ :: rest ∧ token.Begins c := by
  unfold Token.Begins
  cases hl : isLetter c with
  | true =>
    rw [lexemes, if_neg (by simp [hb]), if_pos hl]
    exact ⟨_, _, rfl, _, rfl⟩
  | false =>
    rw [lexemes_mark hb hl]
    exact ⟨_, _, rfl, rfl⟩

theorem begins_of_lexemes {c : Char} (hb : isBlank c = false) {pos : Int} {t : Text} {l : Lexeme}
    {ls : List Lexeme} (h : lexemes pos (c :: t) = l :: ls) : l.pos = pos ∧ l.token.Begins c := by
  obtain ⟨token, rest, hl, hbegins⟩ := lexemes_of_not_blank hb pos t
  rw [hl, List.cons.injEq] at h
  obtain ⟨rfl, -⟩ := h
  exact ⟨rfl, hbegins⟩

/-! ## Cutting -/

/-- No run of letters goes on from one text into the next. -/
def Apart (a b : Text) : Prop := ∀ x ∈ a.getLast?, isLetter x = true → NoLetter b

theorem Apart.of_append {w a b : Text} (h : Apart (w ++ a) b) : Apart a b := by
  intro x hx
  apply h x
  rw [List.getLast?_append, hx]
  rfl

theorem Apart.append_left {w a b : Text} (h : Apart a b) (hne : a ≠ []) : Apart (w ++ a) b := by
  intro x hx
  apply h x
  rw [List.getLast?_append, List.getLast?_eq_some_getLast hne] at hx
  rwa [List.getLast?_eq_some_getLast hne]

theorem Apart.cons {c : Char} {a b : Text} (hc : isLetter c = false) (h : Apart a b) :
    Apart (c :: a) b := by
  cases a with
  | nil =>
    intro x hx hl
    obtain rfl : c = x := by simpa using hx
    rw [hc] at hl
    cases hl
  | cons y a => exact h.append_left (w := [c]) (List.cons_ne_nil y a)

theorem apart_of_noLetter {b : Text} (h : NoLetter b) (a : Text) : Apart a b := fun _ _ _ => h

theorem noLetter_append {r b : Text} (hr : NoLetter r) (hb : r = [] → NoLetter b) :
    NoLetter (r ++ b) := by
  cases r with
  | nil => exact hb rfl
  | cons x r => exact hr

theorem exists_run {c : Char} (hc : isLetter c = true) (t : Text) :
    IsWord (c :: t.takeWhile isLetter) ∧
      c :: t = (c :: t.takeWhile isLetter) ++ t.dropWhile isLetter := by
  refine ⟨⟨List.cons_ne_nil _ _, ?_⟩, ?_⟩
  · intro x hx
    rcases List.mem_cons.mp hx with rfl | hx
    · exact hc
    · exact List.all_eq_true.mp List.all_takeWhile x hx
  · rw [List.cons_append, List.takeWhile_append_dropWhile]

theorem lexemes_append {a b : Text} (h : Apart a b) (pos : Int) :
    lexemes pos (a ++ b) = lexemes pos a ++ lexemes (pos + a.length) b := by
  induction pos, a using lexemes.induct with
  | case1 pos => simp [lexemes_nil]
  | case2 pos c cs hb ih =>
    rw [List.cons_append, lexemes_blank hb, lexemes_blank hb, ih (h.of_append (w := [c])),
      pos_cons pos c cs]
  | case3 pos c cs hb hc ih =>
    obtain ⟨hw, hsplit⟩ := exists_run hc cs
    -- A run that reaches the end of the first text must not go on in the second.
    have hend : cs.dropWhile isLetter = [] → NoLetter b := by
      intro hnil
      rw [hsplit, hnil, List.append_nil] at h
      have hlast := List.getLast?_eq_some_getLast hw.1
      exact h _ hlast (hw.2 _ (List.getLast_mem hw.1))
    have hrest := noLetter_dropWhile cs
    rw [hsplit] at h ⊢
    rw [List.append_assoc, lexemes_word hw (noLetter_append hrest hend), lexemes_word hw hrest,
      ih h.of_append, List.cons_append, pos_append]
  | case4 pos c cs hb hc ih =>
    simp only [Bool.not_eq_true] at hb hc
    rw [List.cons_append, lexemes_mark hb hc, lexemes_mark hb hc, ih (h.of_append (w := [c])),
      List.cons_append, pos_cons pos c cs]

/-- A text can be cut before each of its lexemes. -/
theorem exists_cut {pos : Int} {t : Text} {ls rest : List Lexeme} {l : Lexeme}
    (h : lexemes pos t = ls ++ l :: rest) :
    ∃ before x after, t = before ++ x :: after ∧ (∀ u, Apart before (x :: u)) ∧ isBlank x = false ∧
      lexemes pos before = ls ∧ lexemes (pos + before.length) (x :: after) = l :: rest := by
  induction pos, t using lexemes.induct generalizing ls with
  | case1 pos => simp [lexemes_nil] at h
  | case2 pos c cs hb ih =>
    rw [lexemes_blank hb] at h
    obtain ⟨before, x, after, rfl, hap, hx, hls, hl⟩ := ih h
    refine ⟨c :: before, x, after, rfl, fun u => (hap u).cons (not_isLetter_of_isBlank hb), hx, ?_, ?_⟩
    · rw [lexemes_blank hb, hls]
    · rw [← pos_cons, hl]
  | case3 pos c cs hb hc ih =>
    obtain ⟨hw, hsplit⟩ := exists_run hc cs
    have hrest := noLetter_dropWhile cs
    cases ls with
    | nil =>
      simp only [Bool.not_eq_true] at hb
      exact ⟨[], c, cs, rfl, by simp [Apart], hb, lexemes_nil pos, by simpa using h⟩
    | cons l' ls =>
      rw [hsplit, lexemes_word hw hrest, List.cons_append, List.cons.injEq] at h
      obtain ⟨rfl, h⟩ := h
      obtain ⟨before, x, after, hcut, hap, hx, hls, hl⟩ := ih h
      rw [hcut] at hrest
      -- The cut is behind the whole run, as no lexeme begins inside of it.
      have hno : NoLetter before := by
        cases before with
        | nil => simp [NoLetter]
        | cons y before => exact hrest
      refine ⟨c :: cs.takeWhile isLetter ++ before, x, after, ?_, ?_, hx, ?_, ?_⟩
      · rw [hsplit, hcut, List.append_assoc]
      · intro u
        cases before with
        | nil => exact apart_of_noLetter (.cons (hrest x rfl) u) _
        | cons y before => exact (hap u).append_left (List.cons_ne_nil _ _)
      · rw [lexemes_word hw hno, hls]
      · rw [← pos_append, hl]
  | case4 pos c cs hb hc ih =>
    simp only [Bool.not_eq_true] at hb hc
    cases ls with
    | nil => exact ⟨[], c, cs, rfl, by simp [Apart], hb, lexemes_nil pos, by simpa using h⟩
    | cons l' ls =>
      rw [lexemes_mark hb hc, List.cons_append, List.cons.injEq] at h
      obtain ⟨rfl, h⟩ := h
      obtain ⟨before, x, after, rfl, hap, hx, hls, hl⟩ := ih h
      refine ⟨c :: before, x, after, rfl, fun u => (hap u).cons hc, hx, ?_, ?_⟩
      · rw [lexemes_mark hb hc, hls]
      · rw [← pos_cons, hl]

/-! ## Tokens -/

theorem isWord_of_mem_lexemes {pos : Int} {t w : Text} {l : Lexeme} (h : l ∈ lexemes pos t)
    (hw : l.token = .word w) : IsWord w := by
  induction pos, t using lexemes.induct with
  | case1 pos => simp [lexemes_nil] at h
  | case2 pos c cs hb ih =>
    rw [lexemes_blank hb] at h
    exact ih h
  | case3 pos c cs hb hc ih =>
    obtain ⟨hrun, hsplit⟩ := exists_run hc cs
    rw [hsplit, lexemes_word hrun (noLetter_dropWhile cs)] at h
    rcases List.mem_cons.mp h with rfl | h
    · cases hw
      exact hrun
    · exact ih h
  | case4 pos c cs hb hc ih =>
    simp only [Bool.not_eq_true] at hb hc
    rw [lexemes_mark hb hc] at h
    rcases List.mem_cons.mp h with rfl | h
    · cases hw
    · exact ih h

theorem map_token_lexemes (p q : Int) (t : Text) :
    (lexemes p t).map Lexeme.token = (lexemes q t).map Lexeme.token := by
  induction p, t using lexemes.induct generalizing q with
  | case1 p => rw [lexemes_nil, lexemes_nil]
  | case2 p c cs hb ih => rw [lexemes_blank hb, lexemes_blank hb, ih]
  | case3 p c cs hb hc ih =>
    obtain ⟨hw, hsplit⟩ := exists_run hc cs
    have hrest := noLetter_dropWhile cs
    rw [hsplit, lexemes_word hw hrest, lexemes_word hw hrest, List.map_cons, List.map_cons, ih]
  | case4 p c cs hb hc ih =>
    simp only [Bool.not_eq_true] at hb hc
    rw [lexemes_mark hb hc, lexemes_mark hb hc, List.map_cons, List.map_cons, ih]

theorem map_token_eq_tokens (pos : Int) (t : Text) :
    (lexemes pos t).map Lexeme.token = tokens t := map_token_lexemes pos 0 t

theorem tokens_nil : tokens [] = [] := by rw [tokens, lexemes_nil, List.map_nil]

theorem tokens_blank {c : Char} (hc : isBlank c = true) (t : Text) :
    tokens (c :: t) = tokens t := by
  rw [tokens, lexemes_blank hc, map_token_eq_tokens]

theorem tokens_mark {c : Char} (hb : isBlank c = false) (hl : isLetter c = false) (t : Text) :
    tokens (c :: t) = .mark c :: tokens t := by
  rw [tokens, lexemes_mark hb hl, List.map_cons, map_token_eq_tokens]

theorem tokens_word {w t : Text} (hw : IsWord w) (ht : NoLetter t) :
    tokens (w ++ t) = .word w :: tokens t := by
  rw [tokens, lexemes_word hw ht, List.map_cons, map_token_eq_tokens]

theorem tokens_blanks {b : Text} (hb : Blanks b) (t : Text) : tokens (b ++ t) = tokens t := by
  rw [tokens, lexemes_blanks hb, map_token_eq_tokens]

theorem tokens_append {a b : Text} (h : Apart a b) : tokens (a ++ b) = tokens a ++ tokens b := by
  rw [tokens, lexemes_append h, List.map_append, map_token_eq_tokens, map_token_eq_tokens]

theorem mark_mem_tokens {x : Char} (hb : isBlank x = false) (hl : isLetter x = false) {t : Text}
    (h : x ∈ t) : .mark x ∈ tokens t := by
  obtain ⟨a, b, rfl⟩ := List.append_of_mem h
  rw [tokens_append (apart_of_noLetter (.cons hl b) a), tokens_mark hb hl]
  simp

/-- What a text with tokens begins with. -/
theorem exists_of_tokens {t : Text} :
    (tokens t = [] ∧ Blanks t) ∨
    (∃ b w t', t = b ++ w ++ t' ∧ Blanks b ∧ IsWord w ∧ tokens t = .word w :: tokens t') ∨
    (∃ b c t', t = b ++ c :: t' ∧ Blanks b ∧ tokens t = .mark c :: tokens t') := by
  induction t with
  | nil => exact .inl ⟨tokens_nil, .nil⟩
  | cons c cs ih =>
    cases hb : isBlank c with
    | true =>
      have hcons : ∀ {b}, Blanks b → Blanks (c :: b) := by
        intro b h x hx
        rcases List.mem_cons.mp hx with rfl | hx
        · exact hb
        · exact h x hx
      rw [tokens_blank hb]
      rcases ih with ⟨h, hbs⟩ | ⟨b, w, t', rfl, hbs, hw, h⟩ | ⟨b, d, t', rfl, hbs, h⟩
      · exact .inl ⟨h, hcons hbs⟩
      · exact .inr (.inl ⟨c :: b, w, t', rfl, hcons hbs, hw, h⟩)
      · exact .inr (.inr ⟨c :: b, d, t', rfl, hcons hbs, h⟩)
    | false =>
      cases hl : isLetter c with
      | true =>
        obtain ⟨hw, hsplit⟩ := exists_run hl cs
        rw [hsplit]
        exact .inr (.inl ⟨[], _, _, rfl, .nil, hw, tokens_word hw (noLetter_dropWhile cs)⟩)
      | false => exact .inr (.inr ⟨[], c, cs, rfl, .nil, tokens_mark hb hl cs⟩)

theorem blanks_of_tokens_nil {t : Text} (h : tokens t = []) : Blanks t := by
  rcases exists_of_tokens (t := t) with ⟨-, hb⟩ | ⟨_, _, _, -, -, -, h'⟩ | ⟨_, _, _, -, -, h'⟩
  · exact hb
  all_goals rw [h] at h'; cases h'

theorem exists_of_tokens_word {t w : Text} {ts : List Token} (h : tokens t = .word w :: ts) :
    ∃ b t', t = b ++ w ++ t' ∧ Blanks b ∧ IsWord w ∧ tokens t' = ts := by
  rcases exists_of_tokens (t := t) with ⟨h', -⟩ | ⟨b, w, t', ht, hb, hw, h'⟩ | ⟨_, _, _, -, -, h'⟩
  · rw [h] at h'; cases h'
  · rw [h] at h'
    cases h'
    exact ⟨b, t', ht, hb, hw, rfl⟩
  · rw [h] at h'; cases h'

theorem exists_of_tokens_mark {t : Text} {c : Char} {ts : List Token}
    (h : tokens t = .mark c :: ts) : ∃ b t', t = b ++ c :: t' ∧ Blanks b ∧ tokens t' = ts := by
  rcases exists_of_tokens (t := t) with ⟨h', -⟩ | ⟨_, _, _, -, -, -, h'⟩ | ⟨b, c, t', ht, hb, h'⟩
  · rw [h] at h'; cases h'
  · rw [h] at h'; cases h'
  · rw [h] at h'
    cases h'
    exact ⟨b, t', ht, hb, rfl⟩

end Stylesheet
