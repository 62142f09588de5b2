import Stylesheet.Proofs.Concatenation

/-!
# Where rules stand

What was read between two cursors is derived from the text between them. So an accepted source is
made of the texts of its rules, each from its selector to its closing brace, with blanks in between.
-/

namespace Stylesheet

/-! ## Spans inside of their sources -/

/-- A span of a source that is not empty. -/
def Span.Inside (source : Text) (s : Span) : Prop :=
  s.source = source ∧ 0 ≤ s.start ∧ s.start < s.stop ∧ s.stop ≤ source.length

def Rule.Inside (source : Text) (r : Rule) : Prop :=
  r.selector.Inside source ∧ ∀ d ∈ r.declarations, d.value.Inside source

theorem Span.Inside.text_before {source : Text} {s : Span} (h : s.Inside source) (y : Text) :
    (s.before y).text = s.text := by
  obtain ⟨_, start, stop⟩ := s
  obtain ⟨rfl, hstart, hlt, hstop⟩ := h
  simp only at hstart hlt hstop
  obtain ⟨a, rfl⟩ := Int.eq_ofNat_of_zero_le hstart
  obtain ⟨b, rfl⟩ := Int.eq_ofNat_of_zero_le (a := stop) (by omega)
  simp only [before, text]
  rw [Text.slice_of_nat _ (by simp; omega) (by simp; omega),
    Text.slice_of_nat _ (by omega) (by omega), List.take_append_of_le_length (by omega)]

theorem Rule.Inside.content_before {source : Text} {r : Rule} (h : r.Inside source) (y : Text) :
    (r.mapSpans (Span.before y)).content = r.content := by
  simp only [Rule.content, Rule.mapSpans, h.1.text_before, List.map_map]
  congr 1
  apply List.map_congr_left
  intro d hd
  simp [Declaration.content, Declaration.mapSpan, (h.2 d hd).text_before]

/-! ## The end of a rule -/

/-- The position behind the first closing brace from the selector on. -/
def Rule.stop (r : Rule) : Int :=
  r.selector.start +
    ((r.selector.source.drop r.selector.start.toNat).takeWhile (· ≠ '}')).length + 1

/-- The only closing brace of a rule is its last character. -/
theorem exists_brace {names : Vocabulary} {t : Text} {r : RuleContent}
    (h : DerivesRule names t r) : ∃ v, t = v ++ ['}'] ∧ '}' ∉ v := by
  have htokens := (tokens_of_derivesRule h).1
  cases h with
  | @mk selector b₁ b₂ body ds _ _ _ _ =>
    refine ⟨_, rfl, fun hmem => ?_⟩
    have hmark := mark_mem_tokens (by decide) (by decide) hmem
    rw [tokens_append (apart_of_noLetter (.cons (by decide) _) _),
      tokens_mark (by decide) (by decide), tokens_nil] at htokens
    have hbefore : tokens (selector ++ b₁ ++ ['{'] ++ b₂ ++ body) =
        .word selector :: .mark '{' :: ds.flatMap DeclarationContent.tokens :=
      List.append_cancel_right htokens
    rw [hbefore] at hmark
    simp [DeclarationContent.tokens] at hmark

theorem Rule.stop_eq {r : Rule} {x t y : Text} (hsource : r.selector.source = x ++ t ++ y)
    (hstart : r.selector.start = x.length) (ht : DerivesRule .properties t r.content) :
    r.stop = x.length + t.length := by
  obtain ⟨v, rfl, hv⟩ := exists_brace ht
  have hrun : ((x ++ (v ++ ['}']) ++ y).drop x.length).takeWhile (· ≠ '}') = v := by
    rw [List.append_assoc, List.drop_left, List.append_assoc, List.takeWhile_append_of_pos]
    · simp
    · intro a ha
      simpa using fun h : a = '}' => hv (h ▸ ha)
  rw [stop, hsource, hstart, Int.toNat_natCast, hrun]
  simp
  omega

theorem Rule.Inside.stop_before {source : Text} {r : Rule} (h : r.Inside source)
    (hstop : r.stop ≤ source.length) (y : Text) :
    (r.mapSpans (Span.before y)).stop = r.stop := by
  obtain ⟨⟨rfl, hstart, hlt, hle⟩, -⟩ := h
  simp only [stop, mapSpans, Span.before] at hstop ⊢
  rw [List.drop_append_of_le_length (by omega), List.takeWhile_append, if_neg]
  simp only [List.length_drop]
  omega

namespace Cursor

variable {source : Text} {c d e : Cursor} {s : Span} {p : Declaration} {r : Rule}

/-! ## Between two cursors -/

/-- The text that was read from one cursor to another. -/
def Covers (c d : Cursor) (t : Text) : Prop := c.rest = t ++ d.rest ∧ d.pos = c.pos + t.length

theorem Covers.trans {t u : Text} (h : c.Covers d t) (h' : d.Covers e u) :
    c.Covers e (t ++ u) := by
  obtain ⟨hrest, hpos⟩ := h
  obtain ⟨hrest', hpos'⟩ := h'
  refine ⟨by rw [hrest, hrest', List.append_assoc], ?_⟩
  rw [hpos', hpos, List.length_append]
  omega

theorem covers_skip (c : Cursor) : ∃ b, Blanks b ∧ c.Covers c.skip b :=
  ⟨_, blanks_takeWhile c.rest, (takeWhile_append_past isBlank c).symm, rfl⟩

theorem covers_mark {x : Char} (h : c.skip.mark [x] = .ok d) :
    ∃ b, Blanks b ∧ c.Covers d (b ++ [x]) := by
  obtain ⟨b, hb, hskip⟩ := covers_skip c
  obtain ⟨a, ha, hrest, hpos⟩ := mark_eq_ok.mp h
  cases ha
  exact ⟨b, hb, hskip.trans ⟨hrest, hpos⟩⟩

theorem covers_word (hc : c.In source) (h : c.skip.word source = .ok (s, d)) :
    IsWord s.text ∧ s.Inside source ∧ ∃ b, Blanks b ∧ s.start = c.pos + b.length ∧
      c.Covers d (b ++ s.text) := by
  obtain ⟨b, hb, hskip⟩ := covers_skip c
  obtain ⟨-, hword, -⟩ := lexemes_of_word hc h
  have htext := text_of_word hc.skip h
  obtain ⟨before, hsource, hp⟩ := hc.skip
  obtain ⟨-, rfl, rfl⟩ := word_eq_ok.mp h
  have hrest := takeWhile_append_past isLetter c.skip
  have hpos : (c.skip.past isLetter).pos = c.skip.pos + (c.skip.rest.takeWhile isLetter).length := rfl
  rw [← htext] at hrest hpos
  refine ⟨hword, ?_, b, hb, hskip.2, hskip.trans ⟨hrest.symm, hpos⟩⟩
  have hlen := congrArg List.length hsource
  have hrest' := congrArg List.length hrest
  have hpositive := List.length_pos_iff.mpr hword.1
  simp only [List.length_append] at hlen hrest'
  refine ⟨rfl, ?_, ?_, ?_⟩ <;> simp only <;> omega

/-! ## Productions -/

theorem covers_declaration (hc : c.In source) (h : c.declaration source = .ok (p, d)) :
    p.value.Inside source ∧ ∃ b t, Blanks b ∧ DerivesDeclaration .properties t p.content ∧
      c.Covers d (b ++ t) := by
  obtain ⟨name, c₁, c₂, c₃, hname, hcolon, hkind, hvalue, hend⟩ := declaration_eq_ok.mp h
  have hc₂ := (hc.skip.word hname).skip.mark hcolon
  obtain ⟨-, -, b, hb, -, h₁⟩ := covers_word hc hname
  obtain ⟨b₁, hb₁, h₂⟩ := covers_mark hcolon
  obtain ⟨hv, hin, b₂, hb₂, -, h₃⟩ := covers_word hc₂ hvalue
  obtain ⟨b₃, hb₃, h₄⟩ := covers_mark hend
  obtain ⟨hmem, hspelled⟩ := PropertyKind.ofName?_eq_some hkind
  rw [← hspelled] at h₁
  have hcovers := h₁.trans (h₂.trans (h₃.trans h₄))
  exact ⟨hin, b, _, hb, .mk ⟨_, hmem, rfl⟩ hb₁ hb₂ hv hb₃, by simpa using hcovers⟩

/-- The blanks behind a declaration are read with it, so nothing is left to skip behind a block. -/
theorem covers_declarations {c : Cursor} {ps : List Declaration} (hc : c.In source)
    (h : c.declarations source = .ok (ps, d)) :
    (∀ p ∈ ps, p.value.Inside source) ∧ d.skip = d ∧
      ∃ b body, Blanks b ∧
        Spaced (DerivesDeclaration .properties) body (ps.map Declaration.content) ∧
        c.Covers d (b ++ body) := by
  obtain ⟨b₀, hb₀, h₀⟩ := covers_skip c
  rw [declarations_eq] at h
  split at h
  · obtain ⟨⟨p, next⟩, hp, h⟩ := bind_eq_ok.mp h
    obtain ⟨⟨ps', last⟩, hps, h⟩ := bind_eq_ok.mp h
    cases h
    have := length_of_declaration hp
    have := length_skip_le c
    obtain ⟨hin, b, t, hb, ht, h₁⟩ := covers_declaration hc.skip hp
    obtain ⟨hins, hskip, b', body, hb', hbody, h₂⟩ :=
      covers_declarations (hc.skip.declaration hp) hps
    have hcovers := h₀.trans (h₁.trans h₂)
    refine ⟨?_, hskip, b₀ ++ b, t ++ b' ++ body, hb₀.append hb, .cons ht hb' hbody,
      by simpa using hcovers⟩
    simpa using ⟨hin, hins⟩
  · cases h
    exact ⟨by simp, skip_skip c, b₀, [], hb₀, .nil, by simpa using h₀⟩
termination_by c.rest.length

theorem covers_rule (hc : c.In source) (h : c.rule source = .ok (r, d)) :
    r.Inside source ∧ r.stop = d.pos ∧
      ∃ b t, Blanks b ∧ DerivesRule .properties t r.content ∧
        r.selector.start = c.pos + b.length ∧ c.Covers d (b ++ t) := by
  obtain ⟨c₁, c₂, c₃, hselector, hopen, hblock, hclose⟩ := rule_eq_ok.mp h
  have hc₂ := (hc.skip.word hselector).skip.mark hopen
  obtain ⟨hw, hin, b, hb, hstart, h₁⟩ := covers_word hc hselector
  obtain ⟨b₁, hb₁, h₂⟩ := covers_mark hopen
  obtain ⟨hins, hskip, b₂, body, hb₂, hbody, h₃⟩ := covers_declarations hc₂ hblock
  obtain ⟨a, ha, hrest, hpos⟩ := mark_eq_ok.mp hclose
  cases ha
  rw [hskip] at hrest hpos
  have h₄ : c₃.Covers d ['}'] := ⟨hrest, hpos⟩
  have ht : DerivesRule .properties _ r.content := .mk hw hb₁ hb₂ hbody
  have hcovers := h₁.trans (h₂.trans (h₃.trans h₄))
  have hcovers' : c.Covers d (b ++ (r.selector.text ++ b₁ ++ ['{'] ++ b₂ ++ body ++ ['}'])) := by
    simpa using hcovers
  refine ⟨⟨hin, hins⟩, ?_, b, _, hb, ht, hstart, hcovers'⟩
  obtain ⟨before, hbefore, hp⟩ := hc
  obtain ⟨hrest', hpos'⟩ := hcovers'
  rw [Rule.stop_eq (x := before ++ b) (y := d.rest) _ _ ht, hpos', hp]
  · simp only [List.length_append]
    omega
  · rw [hin.1, hbefore, hrest']
    simp
  · rw [hstart, hp]
    simp

end Cursor

/-! ## The rules of a source -/

/-- A text that begins at a position consists of some rules. -/
inductive Extents : Int → Text → List Rule → Prop
  | nil {p : Int} {b : Text} : Blanks b → Extents p b []
  | cons {p : Int} {b t u : Text} {r : Rule} {rs : List Rule} :
      Blanks b → DerivesRule .properties t r.content → r.selector.start = p + b.length →
      r.stop = p + b.length + t.length → Extents (p + b.length + t.length) u rs →
      Extents p (b ++ t ++ u) (r :: rs)

theorem Cursor.extents_of_rules {source : Text} {c : Cursor} {rs : List Rule} (hc : c.In source)
    (h : c.rules source = (rs, none)) : Extents c.pos c.rest rs ∧ ∀ r ∈ rs, r.Inside source := by
  obtain ⟨b, hb, hskip⟩ := covers_skip c
  rw [rules_eq] at h
  split at h
  · rename_i hnil
    cases h
    rw [hskip.1, hnil, List.append_nil]
    exact ⟨.nil hb, by simp⟩
  · split at h
    · cases h
    · rename_i r next hr
      have := length_of_rule hr
      have := length_skip_le c
      obtain ⟨hin, hstop, b', t, hb', ht, hstart, hcovers⟩ := covers_rule hc.skip hr
      obtain ⟨hrest, hpos⟩ := hskip.trans hcovers
      obtain ⟨rfl, hnone⟩ := Prod.mk.inj h
      have hrules : next.rules source = ((next.rules source).1, none) := by rw [← hnone]
      obtain ⟨hextents, hins⟩ := extents_of_rules (hc.skip.rule hr) hrules
      have hpos' := hskip.2
      simp only [List.length_append] at hpos
      refine ⟨?_, by simpa using ⟨hin, hins⟩⟩
      rw [hrest, ← List.append_assoc]
      refine .cons (hb.append hb') ht ?_ ?_ ?_
      · rw [hstart, hpos', List.length_append]
        omega
      · rw [hstop, hpos, List.length_append]
        omega
      · have hnext : c.pos + (b ++ b').length + t.length = next.pos := by
          rw [hpos, List.length_append]
          omega
        rwa [hnext]
termination_by c.rest.length

/-- Up to the end of its first rule, a text is accepted, whatever comes then. -/
theorem exists_accepted_of_read {source : Text} {r : Rule} {rs : List Rule}
    (h : (Sheet.read source).1 = r :: rs) :
    ∃ t u, source = t ++ u ∧ t ≠ [] ∧ Accepted t := by
  have hstart := Cursor.in_start source
  obtain ⟨b, hb, hskip⟩ := Cursor.covers_skip (.start source)
  rw [Sheet.read, Cursor.rules_eq] at h
  split at h
  · cases h
  · split at h
    · cases h
    · rename_i r' next hr
      obtain ⟨-, -, b', t, hb', ht, -, hcovers⟩ := Cursor.covers_rule hstart.skip hr
      obtain ⟨v, hv, -⟩ := exists_brace ht
      refine ⟨(b ++ b') ++ t, next.rest, ?_, by simp [hv], accepted_of_rule (hb.append hb') ht⟩
      have hrest := (hskip.trans hcovers).1
      rwa [← List.append_assoc b] at hrest

theorem extents_of_parse? {source : Text} {s : Sheet} (h : Sheet.parse? source = .ok s) :
    Extents 0 source s.rules ∧ ∀ r ∈ s.rules, r.Inside source :=
  Cursor.extents_of_rules (Cursor.in_start source) (parse?_eq_ok.mp h)

theorem Extents.bounds {p : Int} {t : Text} {rs : List Rule} (h : Extents p t rs) :
    ∀ r ∈ rs, p ≤ r.selector.start ∧ r.selector.start < r.stop ∧ r.stop ≤ p + t.length := by
  induction h with
  | nil => simp
  | @cons p b t u r rs _ ht hstart hstop _ ih =>
    obtain ⟨v, rfl, -⟩ := exists_brace ht
    simp only [List.length_append, List.length_singleton] at hstop ih ⊢
    intro q hq
    rcases List.mem_cons.mp hq with rfl | hq
    · omega
    · have := ih q hq
      omega

/-- From its selector to its brace, a rule is derived by the grammar. -/
theorem Extents.derives {p : Int} {x t : Text} {rs : List Rule} (h : Extents p t rs)
    (hp : p = x.length) : ∀ r ∈ rs,
      DerivesRule .properties (Text.slice (x ++ t) r.selector.start r.stop) r.content := by
  induction h generalizing x with
  | nil => simp
  | @cons p b t u r rs _ ht hstart hstop _ ih =>
    intro q hq
    rcases List.mem_cons.mp hq with rfl | hq
    · have hs : q.selector.start = ((x ++ b).length : Nat) := by simp [hstart, hp]
      have he : q.stop = ((x ++ b ++ t).length : Nat) := by
        simp only [hstop, hp, List.length_append]
        omega
      rw [hs, he, Text.slice_of_nat _ (by simp) (by simp)]
      have hcut : x ++ (b ++ t ++ u) = x ++ b ++ t ++ u := by simp
      rwa [hcut, List.take_left, List.drop_left]
    · have hrest := ih (x := x ++ (b ++ t)) (by simp [hp]; omega) q hq
      rwa [List.append_assoc] at hrest

end Stylesheet
