import Stylesheet.Proofs.Language
import Stylesheet.Proofs.Work

/-!
# Writing and reading again

The text of a sheet depends on its content only, and a well-formed content is derived from its text.
So a sheet is read back from its text exactly if it is well-formed, and every sheet that a parser
gives is.
-/

namespace Stylesheet

/-! ## The text of a content -/

def DeclarationContent.pair (d : DeclarationContent) : Text := Layout.pair d.name d.value

def RuleContent.block (r : RuleContent) : Text :=
  Layout.block r.selector (r.declarations.map DeclarationContent.pair)

theorem Rule.block_eq (r : Rule) : r.block = r.content.block := by
  rw [Rule.block, Rule.content, RuleContent.block, Rule.pairs, List.map_map]
  rfl

theorem Sheet.text_eq (s : Sheet) :
    s.text = List.intercalate ['\n'] (s.content.map RuleContent.block) := by
  rw [Sheet.text, Sheet.content, List.map_map]
  congr 2
  funext r
  exact r.block_eq

theorem Sheet.text_eq_of_content {a b : Sheet} (h : a.content = b.content) : a.text = b.text := by
  rw [Sheet.text_eq, Sheet.text_eq, h]

/-! ## The tokens of a text -/

section
variable {names : Vocabulary}

theorem tokens_blockLine {d : DeclarationContent} (hd : d.WellFormed names) :
    tokens (Layout.blockLine d.pair) = d.tokens ∧ ∀ b, Apart (Layout.blockLine d.pair) b := by
  refine ⟨?_, fun b => .append_left (apart_of_getLast (a := [';']) (by decide) b) (by decide)⟩
  have hline : Layout.blockLine d.pair =
      Layout.indent ++ (d.name ++ ':' :: ' ' :: (d.value ++ [';', '\n'])) := by
    simp [Layout.blockLine, DeclarationContent.pair, Layout.pair]
  rw [hline, tokens_blanks (by decide), tokens_word (names.isWord hd.1) (.cons (by decide) _),
    tokens_mark (by decide) (by decide), tokens_blank (by decide),
    tokens_word hd.2 (.cons (by decide) _), tokens_mark (by decide) (by decide),
    tokens_blank (by decide), tokens_nil]
  rfl

/-- Texts that can be told apart have their tokens one after another. -/
theorem tokens_flatMap {α : Type} {f : α → Text} {g : α → List Token} {as : List α}
    (h : ∀ a ∈ as, tokens (f a) = g a ∧ ∀ b, Apart (f a) b) :
    tokens (as.flatMap f) = as.flatMap g := by
  induction as with
  | nil => exact tokens_nil
  | cons a as ih =>
    obtain ⟨ha, hap⟩ := h a List.mem_cons_self
    rw [List.flatMap_cons, tokens_append (hap _), ha, List.flatMap_cons,
      ih fun b hb => h b (List.mem_cons_of_mem a hb)]

theorem tokens_block {r : RuleContent} (hr : r.WellFormed names) :
    tokens r.block = r.tokens ∧ ∀ b, Apart r.block b := by
  have hbody : tokens ((r.declarations.map DeclarationContent.pair).flatMap Layout.blockLine) =
      r.declarations.flatMap DeclarationContent.tokens := by
    rw [List.flatMap_map]
    exact tokens_flatMap fun d hd => tokens_blockLine (hr.2 d hd)
  refine ⟨?_, fun b => .append_left (apart_of_getLast (a := ['}']) (by decide) b) (by decide)⟩
  have hblock : r.block = r.selector ++ ' ' :: '{' :: '\n' ::
      ((r.declarations.map DeclarationContent.pair).flatMap Layout.blockLine ++ ['}', '\n']) := by
    simp [RuleContent.block, Layout.block]
  rw [hblock, tokens_word hr.1 (.cons (by decide) _), tokens_blank (by decide),
    tokens_mark (by decide) (by decide), tokens_blank (by decide),
    tokens_append (apart_of_noLetter (.cons (by decide) _) _), hbody,
    tokens_mark (by decide) (by decide), tokens_blank (by decide), tokens_nil]
  rfl

theorem tokens_blocks {c : SheetContent} (hc : ∀ r ∈ c, r.WellFormed names) :
    tokens (List.intercalate ['\n'] (c.map RuleContent.block)) = c.flatMap RuleContent.tokens := by
  induction c with
  | nil => exact tokens_nil
  | cons r c ih =>
    obtain ⟨hr, hap⟩ := tokens_block (hc r List.mem_cons_self)
    have hrest := ih fun q hq => hc q (List.mem_cons_of_mem r hq)
    cases c with
    | nil => simp [List.intercalate, hr]
    | cons q c =>
      have hcut : List.intercalate ['\n'] ((r :: q :: c).map RuleContent.block) =
          r.block ++ '\n' :: List.intercalate ['\n'] ((q :: c).map RuleContent.block) := by
        simp [List.intercalate]
      rw [hcut, tokens_append (hap _), tokens_blank (by decide), hr, hrest]
      exact List.flatMap_cons.symm

end

/-! ## Reading again -/

theorem derives_text {s : Sheet} (h : s.WellFormed) :
    DerivesSheet .properties s.text s.content := by
  rw [Sheet.wellFormed_iff] at h
  rw [derivesSheet_iff, Sheet.text_eq]
  exact ⟨tokens_blocks h, h⟩

theorem wellFormed_of_parse? {text : Text} {s : Sheet} (h : Sheet.parse? text = .ok s) :
    s.WellFormed := by
  rw [Sheet.wellFormed_iff]
  exact (derivesSheet_iff.mp (derives_content_of_parse? h)).2

theorem fresh_parse_text {s : Sheet} (h : s.WellFormed) :
    ∃ t, (Parser.fresh.parse s.text).1 = .ok t ∧ t.same s = true ∧ t.text = s.text := by
  obtain ⟨t, ht, hcontent⟩ := parse?_of_derives (derives_text h)
  refine ⟨t, (Parser.fresh_parse ht).1, ?_, Sheet.text_eq_of_content hcontent⟩
  rw [Sheet.same_iff, hcontent]

/-- Exactly the well-formed sheets are read back from their texts. All sheets that a parser gives are
well-formed, whatever its listeners do, and writing such a sheet and reading it again changes neither
the sheet nor the text. A parser without listeners keeps the sheet it gives. -/
theorem parse_text_same_iff_wellFormed :
    (∀ s : Sheet, (∃ t, (Parser.fresh.parse s.text).1 = .ok t ∧ t.same s = true) ↔ s.WellFormed) ∧
    (∀ (p : Parser) (text : Text) (s : Sheet), (p.parse text).1 = .ok s →
      s.WellFormed ∧ ∃ t, (Parser.fresh.parse s.text).1 = .ok t ∧ t.same s = true ∧
        t.text = s.text) ∧
    ∀ (text : Text) (s : Sheet), (Parser.fresh.parse text).1 = .ok s →
      (Parser.fresh.parse text).2.parser.sheet = s := by
  refine ⟨fun s => ⟨?_, ?_⟩, ?_, ?_⟩
  · rintro ⟨t, ht, hsame⟩
    have hwf := wellFormed_of_parse? (Parser.parse?_of_parse ht)
    rw [Sheet.same_iff] at hsame
    rwa [Sheet.wellFormed_iff, ← hsame, ← Sheet.wellFormed_iff]
  · intro h
    obtain ⟨t, ht, hsame, -⟩ := fresh_parse_text h
    exact ⟨t, ht, hsame⟩
  · intro p text s h
    have hwf := wellFormed_of_parse? (Parser.parse?_of_parse h)
    exact ⟨hwf, fresh_parse_text hwf⟩
  · intro text s h
    exact (Parser.fresh_parse (Parser.parse?_of_parse h)).2

end Stylesheet
