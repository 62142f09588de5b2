import Mathlib.Tactic.TFAE
import Stylesheet.Proofs.RoundTrip

/-!
# The canonical form

Without its blanks, an accepted text still derives its content, and the content determines what is left
of the text. So two accepted texts give the same sheet exactly if they are equal up to blanks.
-/

namespace Stylesheet

/-- A text without its blanks. -/
def Text.squeeze (t : Text) : Text := t.filter fun c => !isBlank c

namespace Text

theorem squeeze_append (a b : Text) : squeeze (a ++ b) = squeeze a ++ squeeze b :=
  List.filter_append a b

theorem squeeze_blanks {b : Text} (hb : Blanks b) : squeeze b = [] := by
  rw [squeeze, List.filter_eq_nil_iff]
  intro c hc
  simp [hb c hc]

theorem squeeze_eq_self {t : Text} (h : ∀ c ∈ t, isBlank c = false) : squeeze t = t := by
  rw [squeeze, List.filter_eq_self]
  intro c hc
  simp [h c hc]

theorem squeeze_word {w : Text} (hw : IsWord w) : squeeze w = w :=
  squeeze_eq_self fun c hc => not_isBlank_of_isLetter (hw.2 c hc)

theorem squeeze_mark {c : Char} (hc : isBlank c = false) : squeeze [c] = [c] :=
  squeeze_eq_self (by simpa using hc)

end Text

/-! ## Blanks can be left out -/

section
variable {names : Vocabulary} {t : Text}

theorem spaced_squeeze {α : Type} {item : Text → α → Prop} {as : List α} (h : Spaced item t as)
    (hitem : ∀ t a, item t a → item t.squeeze a) : Spaced item t.squeeze as := by
  induction h with
  | nil => exact .nil
  | @cons t b ts a as ha hb _ ih =>
    have hcons := Spaced.cons (hitem t a ha) .nil ih
    rwa [Text.squeeze_append, Text.squeeze_append, Text.squeeze_blanks hb]

theorem derivesDeclaration_squeeze {d : DeclarationContent} (h : DerivesDeclaration names t d) :
    DerivesDeclaration names t.squeeze d := by
  cases h with
  | @mk name b₁ b₂ value b₃ hn hb₁ hb₂ hv hb₃ =>
    simp only [Text.squeeze_append, Text.squeeze_blanks hb₁, Text.squeeze_blanks hb₂,
      Text.squeeze_blanks hb₃, Text.squeeze_word (names.isWord hn), Text.squeeze_word hv]
    exact .mk hn .nil .nil hv .nil

theorem derivesRule_squeeze {r : RuleContent} (h : DerivesRule names t r) :
    DerivesRule names t.squeeze r := by
  cases h with
  | @mk selector b₁ b₂ body ds hs hb₁ hb₂ hds =>
    have hbody := spaced_squeeze hds fun _ _ => derivesDeclaration_squeeze
    simp only [Text.squeeze_append, Text.squeeze_blanks hb₁, Text.squeeze_blanks hb₂,
      Text.squeeze_word hs]
    exact .mk hs .nil .nil hbody

theorem derivesSheet_squeeze {c : SheetContent} (h : DerivesSheet names t c) :
    DerivesSheet names t.squeeze c := by
  cases h with
  | mk hb hbody =>
    rw [Text.squeeze_append, Text.squeeze_blanks hb]
    exact .mk .nil (spaced_squeeze hbody fun _ _ => derivesRule_squeeze)

end

theorem parse?_squeeze {t : Text} {s : Sheet} (h : Sheet.parse? t = .ok s) :
    ∃ s', Sheet.parse? t.squeeze = .ok s' ∧ s'.content = s.content :=
  parse?_of_derives (derivesSheet_squeeze (derives_content_of_parse? h))

/-! ## What is left of a text -/

def Token.text : Token → Text
  | .word w => w
  | .mark c => [c]

theorem squeeze_eq (pos : Int) (t : Text) :
    t.squeeze = ((lexemes pos t).map Lexeme.token).flatMap Token.text := by
  induction pos, t using lexemes.induct with
  | case1 pos => rw [lexemes_nil]; rfl
  | case2 pos c cs hb ih =>
    rw [lexemes_blank hb, ← ih, Text.squeeze, List.filter_cons_of_neg (by simp [hb]), Text.squeeze]
  | case3 pos c cs hb hc ih =>
    obtain ⟨hw, hsplit⟩ := exists_run hc cs
    rw [hsplit, lexemes_word hw (noLetter_dropWhile cs), List.map_cons, List.flatMap_cons, ← ih,
      Text.squeeze_append, Text.squeeze_word hw, Token.text]
  | case4 pos c cs hb hc ih =>
    simp only [Bool.not_eq_true] at hb hc
    rw [lexemes_mark hb hc, List.map_cons, List.flatMap_cons, ← ih, ← List.singleton_append,
      Text.squeeze_append, Text.squeeze_mark hb, Token.text]

section
variable {t₁ t₂ : Text} {c₁ c₂ : SheetContent}

theorem squeeze_eq_iff (h₁ : DerivesSheet .properties t₁ c₁) (h₂ : DerivesSheet .properties t₂ c₂) :
    t₁.squeeze = t₂.squeeze ↔ c₁ = c₂ := by
  constructor
  · -- One text derives both contents.
    intro h
    have hone := derivesSheet_squeeze h₁
    rw [h] at hone
    exact content_eq_of_derivesSheet hone (derivesSheet_squeeze h₂)
  · rintro rfl
    rw [squeeze_eq 0, squeeze_eq 0, map_token_eq_tokens, map_token_eq_tokens,
      (derivesSheet_iff.mp h₁).1, (derivesSheet_iff.mp h₂).1]

theorem text_eq_iff {s₁ s₂ : Sheet} (h₁ : s₁.WellFormed) (h₂ : s₂.WellFormed) :
    s₁.text = s₂.text ↔ s₁.content = s₂.content := by
  constructor
  · intro h
    have hone := derives_text h₁
    rw [h] at hone
    exact content_eq_of_derivesSheet hone (derives_text h₂)
  · exact Sheet.text_eq_of_content

end

/-- Of two texts that are accepted, by whatever parsers, the sheets are the same exactly if the texts are
equal up to blanks, and exactly if the sheets are written as the same text. -/
theorem parse_same_tfae (p₁ p₂ : Parser) (t₁ t₂ : Text) (s₁ s₂ : Sheet)
    (h₁ : (p₁.parse t₁).1 = .ok s₁) (h₂ : (p₂.parse t₂).1 = .ok s₂) :
    [s₁.same s₂ = true, t₁.squeeze = t₂.squeeze, s₁.text = s₂.text].TFAE := by
  have hparse₁ := Parser.parse?_of_parse h₁
  have hparse₂ := Parser.parse?_of_parse h₂
  have hsqueeze := squeeze_eq_iff (derives_content_of_parse? hparse₁)
    (derives_content_of_parse? hparse₂)
  have htext := text_eq_iff (wellFormed_of_parse? hparse₁) (wellFormed_of_parse? hparse₂)
  have hsame := Sheet.same_iff s₁ s₂
  tfae_have 1 ↔ 2 := hsame.trans hsqueeze.symm
  tfae_have 1 ↔ 3 := hsame.trans htext.symm
  tfae_finish

/-- An empty rule with new lines wherever they may stand, and without them. -/
theorem parse_same_of_newlines :
    ∃ s₁ s₂, (Parser.fresh.parse ['a', '{', '}']).1 = .ok s₁ ∧
      (Parser.fresh.parse ['\n', 'a', '\n', '{', '\n', '}', '\n']).1 = .ok s₂ ∧
      s₁.same s₂ = true ∧ s₁.text = s₂.text := by
  have hderives (b : Text) (hb : Blanks b) :
      DerivesSheet .properties (b ++ (['a'] ++ b ++ ['{'] ++ b ++ [] ++ ['}'] ++ b ++ []))
        [⟨['a'], []⟩] := .mk hb (.cons (.mk (by decide) hb hb .nil) hb .nil)
  obtain ⟨s₁, hs₁, -⟩ := parse?_of_derives (hderives [] .nil)
  obtain ⟨s₂, hs₂, -⟩ := parse?_of_derives (hderives ['\n'] (by decide))
  have hfresh₁ := (Parser.fresh_parse hs₁).1
  have hfresh₂ := (Parser.fresh_parse hs₂).1
  have htfae := parse_same_tfae _ _ _ _ s₁ s₂ hfresh₁ hfresh₂
  have hsame := (htfae.out 0 1).mpr (by decide)
  exact ⟨s₁, s₂, hfresh₁, hfresh₂, hsame, (htfae.out 0 2).mp hsame⟩

end Stylesheet
