import Stylesheet.Proofs.Lexeme

/-!
# Derivations and tokens

A text derives a content exactly if its tokens are those of the content. Blanks play no part in it,
and different contents have different tokens, so a text derives one content at most.
-/

namespace Stylesheet

/-! ## The tokens of a content -/

def DeclarationContent.tokens (d : DeclarationContent) : List Token :=
  [.word d.name, .mark ':', .word d.value, .mark ';']

def RuleContent.tokens (r : RuleContent) : List Token :=
  .word r.selector :: .mark '{' :: (r.declarations.flatMap DeclarationContent.tokens ++ [.mark '}'])

/-- A mark ends the declarations, and the tokens before it determine them. -/
theorem declarations_eq_of_tokens {ds es : List DeclarationContent} {c : Char} {ts us : List Token}
    (h : ds.flatMap DeclarationContent.tokens ++ .mark c :: ts =
      es.flatMap DeclarationContent.tokens ++ .mark c :: us) : ds = es ∧ ts = us := by
  induction ds generalizing es with
  | nil =>
    cases es with
    | nil => simpa using h
    | cons e es => simp [DeclarationContent.tokens] at h
  | cons d ds ih =>
    cases es with
    | nil => simp [DeclarationContent.tokens] at h
    | cons e es =>
      simp only [List.flatMap_cons, DeclarationContent.tokens, List.cons_append, List.nil_append,
        List.cons.injEq, Token.word.injEq, true_and] at h
      obtain ⟨hn, hv, h⟩ := h
      obtain ⟨rfl, hts⟩ := ih h
      cases d
      cases e
      simp_all

theorem content_eq_of_tokens {c e : SheetContent}
    (h : c.flatMap RuleContent.tokens = e.flatMap RuleContent.tokens) : c = e := by
  induction c generalizing e with
  | nil =>
    cases e with
    | nil => rfl
    | cons q e => simp [RuleContent.tokens] at h
  | cons r c ih =>
    cases e with
    | nil => simp [RuleContent.tokens] at h
    | cons q e =>
      simp only [List.flatMap_cons, RuleContent.tokens, List.cons_append, List.append_assoc,
        List.nil_append, List.cons.injEq, Token.word.injEq, true_and] at h
      obtain ⟨hs, h⟩ := h
      obtain ⟨hd, h⟩ := declarations_eq_of_tokens h
      rw [ih h]
      cases r
      cases q
      simp_all

/-! ## From derivations to tokens -/

theorem noLetter_blanks {b t : Text} (hb : Blanks b) (ht : NoLetter t) : NoLetter (b ++ t) := by
  cases b with
  | nil => exact ht
  | cons c b => exact NoLetter.cons (not_isLetter_of_isBlank (hb c List.mem_cons_self)) _

theorem apart_of_getLast {a : Text} {c : Char} (hc : isLetter c = false) (b : Text) :
    Apart (a ++ [c]) b := by
  intro x hx hl
  obtain rfl : c = x := by simpa using hx
  rw [hc] at hl
  cases hl

/-- Items that end with a mark and have their own tokens have them also with blanks in between. -/
theorem tokens_of_spaced {α : Type} {item : Text → α → Prop} {t : Text} {as : List α}
    (h : Spaced item t as) {f : α → List Token} {P : α → Prop}
    (hitem : ∀ t a, item t a → tokens t = f a ∧ P a ∧ ∀ b, Apart t b) :
    tokens t = as.flatMap f ∧ ∀ a ∈ as, P a := by
  induction h with
  | nil => exact ⟨tokens_nil, by simp⟩
  | cons ha hb _ ih =>
    obtain ⟨ht, hp, hap⟩ := hitem _ _ ha
    refine ⟨?_, ?_⟩
    · rw [List.append_assoc, tokens_append (hap _), tokens_blanks hb, ht, ih.1, List.flatMap_cons]
    · intro x hx
      rcases List.mem_cons.mp hx with rfl | hx
      · exact hp
      · exact ih.2 x hx

theorem tokens_of_derivesDeclaration {names : Vocabulary} {t : Text} {d : DeclarationContent}
    (h : DerivesDeclaration names t d) :
    tokens t = d.tokens ∧ d.WellFormed names ∧ ∀ b, Apart t b := by
  cases h with
  | @mk name b₁ b₂ value b₃ hn hb₁ hb₂ hv hb₃ =>
    refine ⟨?_, ⟨hn, hv⟩, fun b => apart_of_getLast (by decide) b⟩
    simp only [List.append_assoc, List.cons_append, List.nil_append]
    rw [tokens_word (names.isWord hn) (noLetter_blanks hb₁ (.cons (by decide) _)),
      tokens_blanks hb₁, tokens_mark (by decide) (by decide), tokens_blanks hb₂,
      tokens_word hv (noLetter_blanks hb₃ (.cons (by decide) _)), tokens_blanks hb₃,
      tokens_mark (by decide) (by decide), tokens_nil]
    rfl

theorem tokens_of_derivesRule {names : Vocabulary} {t : Text} {r : RuleContent}
    (h : DerivesRule names t r) : tokens t = r.tokens ∧ r.WellFormed names ∧ ∀ b, Apart t b := by
  cases h with
  | @mk selector b₁ b₂ body ds hs hb₁ hb₂ hds =>
    obtain ⟨hbody, hwf⟩ := tokens_of_spaced hds fun _ _ => tokens_of_derivesDeclaration
    refine ⟨?_, ⟨hs, hwf⟩, fun b => apart_of_getLast (by decide) b⟩
    simp only [List.append_assoc, List.cons_append, List.nil_append]
    rw [tokens_word hs (noLetter_blanks hb₁ (.cons (by decide) _)), tokens_blanks hb₁,
      tokens_mark (by decide) (by decide), tokens_blanks hb₂,
      tokens_append (apart_of_noLetter (.cons (by decide) _) _), hbody,
      tokens_mark (by decide) (by decide), tokens_nil]
    rfl

/-! ## From tokens to derivations -/

/-- A text begins with blanks, and the rest does not. -/
theorem exists_blanks (t : Text) :
    ∃ b t', t = b ++ t' ∧ Blanks b ∧ ∀ c ∈ t'.head?, isBlank c = false := by
  refine ⟨t.takeWhile isBlank, t.dropWhile isBlank, ?_, blanks_takeWhile t, not_isBlank_dropWhile t⟩
  exact List.takeWhile_append_dropWhile.symm

/-- Items that can be found by their tokens can be found one after another. The blanks behind the last
one belong to it, so what is left begins with no blank. -/
theorem exists_spaced {α : Type} {item : Text → α → Prop} {f : α → List Token} {as : List α}
    (hitem : ∀ a ∈ as, ∀ {t ts}, tokens t = f a ++ ts →
      ∃ b u t', t = b ++ u ++ t' ∧ Blanks b ∧ item u a ∧ tokens t' = ts)
    {t : Text} {ts : List Token} (h : tokens t = as.flatMap f ++ ts) :
    ∃ b body t', t = b ++ body ++ t' ∧ Blanks b ∧ Spaced item body as ∧ tokens t' = ts ∧
      ∀ c ∈ t'.head?, isBlank c = false := by
  induction as generalizing t with
  | nil =>
    obtain ⟨b, t', rfl, hb, hno⟩ := exists_blanks t
    rw [tokens_blanks hb] at h
    exact ⟨b, [], t', by simp, hb, .nil, h, hno⟩
  | cons a as ih =>
    rw [List.flatMap_cons, List.append_assoc] at h
    obtain ⟨b, u, t₁, rfl, hb, hu, h⟩ := hitem a List.mem_cons_self h
    obtain ⟨b', body, t', rfl, hb', hbody, h, hno⟩ :=
      ih (fun x hx => hitem x (List.mem_cons_of_mem a hx)) h
    exact ⟨b, u ++ b' ++ body, t', by simp, hb, .cons hu hb' hbody, h, hno⟩

theorem exists_derivesDeclaration {names : Vocabulary} {d : DeclarationContent}
    (hd : d.WellFormed names) {t : Text} {ts : List Token} (h : tokens t = d.tokens ++ ts) :
    ∃ b u t', t = b ++ u ++ t' ∧ Blanks b ∧ DerivesDeclaration names u d ∧ tokens t' = ts := by
  obtain ⟨b, t₁, rfl, hb, -, h⟩ := exists_of_tokens_word h
  obtain ⟨b₁, t₂, rfl, hb₁, h⟩ := exists_of_tokens_mark h
  obtain ⟨b₂, t₃, rfl, hb₂, -, h⟩ := exists_of_tokens_word h
  obtain ⟨b₃, t₄, rfl, hb₃, h⟩ := exists_of_tokens_mark h
  exact ⟨b, _, t₄, by simp, hb, .mk hd.1 hb₁ hb₂ hd.2 hb₃, h⟩

theorem exists_derivesRule {names : Vocabulary} {r : RuleContent} (hr : r.WellFormed names)
    {t : Text} {ts : List Token} (h : tokens t = r.tokens ++ ts) :
    ∃ b u t', t = b ++ u ++ t' ∧ Blanks b ∧ DerivesRule names u r ∧ tokens t' = ts := by
  obtain ⟨b, t₁, rfl, hb, -, h⟩ := exists_of_tokens_word h
  obtain ⟨b₁, t₂, rfl, hb₁, h⟩ := exists_of_tokens_mark h
  rw [List.append_eq, List.append_assoc] at h
  obtain ⟨b₂, body, t₃, rfl, hb₂, hbody, h, hno⟩ :=
    exists_spaced (fun d hd => exists_derivesDeclaration (hr.2 d hd)) h
  obtain ⟨b₃, t₄, rfl, hb₃, hrest⟩ := exists_of_tokens_mark h
  cases b₃ with
  | nil => exact ⟨b, _, t₄, by simp, hb, .mk hr.1 hb₁ hb₂ hbody, hrest⟩
  | cons c b₃ =>
    have := hno c rfl
    rw [hb₃ c List.mem_cons_self] at this
    cases this

/-! ## Derivable sheets -/

theorem derivesSheet_iff {names : Vocabulary} {t : Text} {c : SheetContent} :
    DerivesSheet names t c ↔
      tokens t = c.flatMap RuleContent.tokens ∧ ∀ r ∈ c, r.WellFormed names := by
  constructor
  · rintro ⟨hb, hbody⟩
    obtain ⟨ht, hwf⟩ := tokens_of_spaced hbody fun _ _ => tokens_of_derivesRule
    exact ⟨by rw [tokens_blanks hb, ht], hwf⟩
  · rintro ⟨ht, hwf⟩
    rw [← List.append_nil (c.flatMap RuleContent.tokens)] at ht
    obtain ⟨b, body, t', rfl, hb, hbody, h, hno⟩ :=
      exists_spaced (fun r hr => exists_derivesRule (hwf r hr)) ht
    have hnil : t' = [] := by
      cases t' with
      | nil => rfl
      | cons x t' =>
        have hx := hno x rfl
        rw [blanks_of_tokens_nil h x List.mem_cons_self] at hx
        cases hx
    rw [hnil, List.append_nil]
    exact .mk hb hbody

theorem content_eq_of_derivesSheet {names : Vocabulary} {t : Text} {c e : SheetContent}
    (hc : DerivesSheet names t c) (he : DerivesSheet names t e) : c = e := by
  rw [derivesSheet_iff] at hc he
  exact content_eq_of_tokens (hc.1.symm.trans he.1)

end Stylesheet
