import Stylesheet.Proofs.Automaton
import Stylesheet.Proofs.Cursor

/-!
# Reading follows the automaton

Each production either reads the tokens of what it gives, or fails where and as the automaton does.
So the first failure of a source is the automaton's, and a source without one has the tokens of its
sheet.
-/

namespace Stylesheet

namespace Cursor

variable {source : Text} {c d e : Cursor} {f : Failure}

/-! ## What a production does -/

/-- The automaton's verdict on what is left at a cursor. -/
def verdict (source : Text) (q : State) (c : Cursor) : Option Failure :=
  q.verdict .properties source.length c.lexemes

/-- Between two cursors of a source stand these tokens. -/
def Reads (source : Text) (c d : Cursor) (ts : List Token) : Prop :=
  d.In source ∧ ∃ ls, c.lexemes = ls ++ d.lexemes ∧ ls.map Lexeme.token = ts

/-- A production gives a good value and reads its tokens, or fails as the automaton does. -/
def Follows {α : Type} (source : Text) (q : State) (c : Cursor) (ts : α → List Token)
    (Good : α → Prop) : Except Failure (α × Cursor) → Prop
  | .error f => c.verdict source q = some f
  | .ok (a, d) => c.Reads source d (ts a) ∧ Good a

theorem Reads.skip (hc : c.In source) : c.Reads source c.skip [] :=
  ⟨hc.skip, [], by rw [lexemes_skip, List.nil_append], rfl⟩

theorem Reads.cons {l : Lexeme} {ts : List Token} (hl : c.lexemes = l :: d.lexemes)
    (h : d.Reads source e ts) : c.Reads source e (l.token :: ts) := by
  obtain ⟨he, ls, hls, hts⟩ := h
  exact ⟨he, l :: ls, by rw [hl, hls, List.cons_append], by rw [List.map_cons, hts]⟩

theorem Reads.trans {ts us : List Token} (h₁ : c.Reads source d ts) (h₂ : d.Reads source e us) :
    c.Reads source e (ts ++ us) := by
  obtain ⟨-, ls, hls, hts⟩ := h₁
  obtain ⟨he, ms, hms, hus⟩ := h₂
  refine ⟨he, ls ++ ms, ?_, ?_⟩
  · rw [hls, hms, List.append_assoc]
  · rw [List.map_append, hts, hus]

theorem verdict_skip (q : State) : c.skip.verdict source q = c.verdict source q := by
  rw [verdict, lexemes_skip, verdict]

theorem verdict_of_step {l : Lexeme} {q q' : State} (hl : c.lexemes = l :: d.lexemes)
    (h : q.step .properties l = .ok q') : c.verdict source q = d.verdict source q' := by
  rw [verdict, hl, State.verdict_cons_ok h, verdict]

/-! ## Failures of tokens -/

theorem verdict_of_nil (hc : c.In source) (h : c.skip.rest = []) (q : State) :
    c.verdict source q = q.atEnd.map (⟨·, c.skip.pos⟩) := by
  rw [verdict, lexemes_of_nil h, State.verdict_nil, skip_pos_of_nil hc h]

/-- Where a state wants a word, a missing word is its failure. -/
theorem verdict_of_word_error {q : State} (hc : c.In source)
    (hmark : ∀ x t pos, c.skip.rest = x :: t →
      q.step .properties ⟨.mark x, pos⟩ = .error ⟨.missingWord, pos⟩)
    (hend : c.skip.rest = [] → q.atEnd = some .missingWord)
    (h : c.skip.word source = .error f) : c.verdict source q = some f := by
  unfold word at h
  split at h
  · rename_i hpos
    cases h
    cases hrest : c.skip.rest with
    | nil => rw [verdict_of_nil hc hrest, hend hrest, Option.map_some]
    | cons x t =>
      obtain ⟨token, rest, hl, htoken⟩ := lexemes_of_cons hrest
      have hx : isLetter x = false := by
        cases hx : isLetter x with
        | false => rfl
        | true =>
          rw [past, hrest, List.takeWhile_cons_of_pos hx] at hpos
          simp at hpos
          omega
      rw [Token.Begins, if_neg (by simp [hx])] at htoken
      rw [verdict, hl, htoken, State.verdict_cons_error (hmark x t _ hrest)]
  · cases h

/-- Where a state wants a mark, a missing mark is its failure. -/
theorem verdict_of_mark_error {q : State} {x : Char} (hc : c.In source)
    (hstep : ∀ l : Lexeme, l.token ≠ .mark x →
      q.step .properties l = .error ⟨.missingMark [x], l.pos⟩)
    (hend : q.atEnd = some (.missingMark [x])) (h : c.skip.mark [x] = .error f) :
    c.verdict source q = some f := by
  unfold mark at h
  split at h
  · rename_i hrest
    cases h
    rw [verdict_of_nil hc hrest, hend, Option.map_some]
  · rename_i y t hrest
    split at h
    · cases h
    · rename_i hxy
      cases h
      obtain ⟨token, rest, hl, htoken⟩ := lexemes_of_cons hrest
      have hne : token ≠ .mark x := by
        rintro rfl
        exact hxy (by rw [htoken.eq_of_mark])
      rw [verdict, hl, State.verdict_cons_error (hstep _ hne)]

/-- A block that is not closed lacks its brace at the end of the source. -/
theorem verdict_of_brace_error (hc : c.In source) (hin : c.skip.inBlock = false)
    (h : c.skip.mark ['}'] = .error f) : c.verdict source .block = some f := by
  unfold mark at h
  split at h
  · rename_i hrest
    cases h
    exact verdict_of_nil hc hrest _
  · rename_i x t hrest
    obtain rfl : x = '}' := by simpa [inBlock, hrest] using hin
    cases h

/-! ## Declarations -/

/-- A declaration that begins in a block, where something other than its end is left. -/
theorem declaration_follows (hc : c.In source) (hin : c.skip.inBlock = true) :
    Follows source .block c (fun d : Declaration => d.content.tokens)
      (fun d => d.content.WellFormed .properties) (c.skip.declaration source) := by
  unfold declaration
  rw [skip_skip]
  -- Token by token: a failure is that of the state the lexemes so far lead to.
  cases h₁ : c.skip.word source with
  | error f =>
    refine verdict_of_word_error hc ?_ ?_ h₁
    · intro x t pos hrest
      have hx : x ≠ '}' := by simpa [inBlock, hrest] using hin
      exact if_neg hx
    · intro hrest
      simp [inBlock, hrest] at hin
  | ok r₁ =>
    obtain ⟨name, c₁⟩ := r₁
    obtain ⟨hl₁, hname, hc₁⟩ := lexemes_of_word hc h₁
    simp only [bind, Except.bind]
    cases h₂ : c₁.skip.mark [':'] with
    | error f =>
      simp only [Follows]
      rw [verdict_of_step hl₁ (State.step_block_word rfl)]
      exact verdict_of_mark_error hc₁ (fun _ => State.step_afterName_error) rfl h₂
    | ok c₂ =>
      obtain ⟨hl₂, hc₂⟩ := lexemes_of_mark hc₁ (by decide) (by decide) h₂
      cases hk : PropertyKind.ofName? name.text with
      | none =>
        simp only [Follows]
        have hno : ¬ Vocabulary.properties.Has name.text := by
          rintro ⟨k, hk', hn⟩
          rw [← hn, PropertyKind.ofName?_name hk'] at hk
          cases hk
        rw [verdict_of_step hl₁ (State.step_block_word rfl), verdict, hl₂,
          State.verdict_cons_error (State.step_afterName_unknown rfl hno)]
      | some kind =>
        obtain ⟨hkind, hname'⟩ := PropertyKind.ofName?_eq_some hk
        have hhas : Vocabulary.properties.Has name.text := ⟨kind, hkind, hname'⟩
        simp only []
        cases h₃ : c₂.skip.word source with
        | error f =>
          simp only [Follows]
          rw [verdict_of_step hl₁ (State.step_block_word rfl),
            verdict_of_step hl₂ (State.step_afterName rfl hhas)]
          exact verdict_of_word_error hc₂ (fun _ _ _ _ => rfl) (fun _ => rfl) h₃
        | ok r₃ =>
          obtain ⟨value, c₃⟩ := r₃
          obtain ⟨hl₃, hvalue, hc₃⟩ := lexemes_of_word hc₂ h₃
          cases h₄ : c₃.skip.mark [';'] with
          | error f =>
            simp only [h₄, Follows]
            rw [verdict_of_step hl₁ (State.step_block_word rfl),
              verdict_of_step hl₂ (State.step_afterName rfl hhas),
              verdict_of_step hl₃ (State.step_afterColon rfl)]
            exact verdict_of_mark_error hc₃ (fun _ h => if_neg h) rfl h₄
          | ok c₄ =>
            obtain ⟨hl₄, hc₄⟩ := lexemes_of_mark hc₃ (by decide) (by decide) h₄
            simp only [h₄, Follows]
            refine ⟨?_, ⟨kind, hkind, rfl⟩, hvalue⟩
            have hread : c.Reads source c₄ [.word name.text, .mark ':', .word value.text, .mark ';'] :=
              .cons hl₁ (.cons hl₂ (.cons hl₃ (.cons hl₄ ⟨hc₄, [], rfl, rfl⟩)))
            rw [← hname'] at hread
            exact hread

theorem declarations_follows (hc : c.In source) :
    Follows source .block c
      (fun ds : List Declaration => (ds.map Declaration.content).flatMap DeclarationContent.tokens)
      (fun ds => ∀ d ∈ ds.map Declaration.content, d.WellFormed .properties)
      (c.declarations source) := by
  fun_induction declarations source c with
  | case1 c hin f hf =>
    have := declaration_follows hc hin
    rwa [hf] at this
  | case2 c hin d next hd f hf ih =>
    -- The tokens of a good declaration lead from the block back to the block.
    have hfirst := declaration_follows hc hin
    rw [hd] at hfirst
    obtain ⟨⟨hnext, ls, hls, hts⟩, hgood⟩ := hfirst
    have hrest := ih hnext
    rw [hf] at hrest
    simp only [Follows] at hrest ⊢
    rw [verdict, hls, State.verdict_append (State.run_declaration hgood.1 hts)]
    exact hrest
  | case3 c hin d next hd ds last hds ih =>
    have hfirst := declaration_follows hc hin
    rw [hd] at hfirst
    obtain ⟨hread, hgood⟩ := hfirst
    have hrest := ih hread.1
    rw [hds] at hrest
    obtain ⟨hreads, hgoods⟩ := hrest
    refine ⟨hread.trans hreads, ?_⟩
    intro e he
    rcases List.mem_cons.mp he with rfl | he
    · exact hgood
    · exact hgoods e he
  | case4 c hin => exact ⟨.skip hc, by simp⟩

/-- Declarations are read up to the end of their block or of the source. -/
theorem inBlock_declarations {ds : List Declaration} (h : c.declarations source = .ok (ds, d)) :
    d.skip.inBlock = false := by
  fun_induction declarations source c generalizing ds with
  | case1 => cases h
  | case2 => cases h
  | case3 c hin p next hp ps last hps ih =>
    cases h
    exact ih hps
  | case4 c hin =>
    cases h
    rw [skip_skip]
    simpa using hin

/-! ## Rules -/

/-- A rule that begins where something is left. -/
theorem rule_follows (hc : c.In source) (hne : c.skip.rest ≠ []) :
    Follows source .sheet c (fun r : Rule => r.content.tokens)
      (fun r => r.content.WellFormed .properties) (c.skip.rule source) := by
  unfold rule
  rw [skip_skip]
  cases h₁ : c.skip.word source with
  | error f => exact verdict_of_word_error hc (fun _ _ _ _ => rfl) (fun h => absurd h hne) h₁
  | ok r₁ =>
    obtain ⟨selector, c₁⟩ := r₁
    obtain ⟨hl₁, hselector, hc₁⟩ := lexemes_of_word hc h₁
    simp only [bind, Except.bind]
    cases h₂ : c₁.skip.mark ['{'] with
    | error f =>
      simp only [Follows]
      rw [verdict_of_step hl₁ (State.step_sheet rfl)]
      exact verdict_of_mark_error hc₁ (fun _ h => if_neg h) rfl h₂
    | ok c₂ =>
      obtain ⟨hl₂, hc₂⟩ := lexemes_of_mark hc₁ (by decide) (by decide) h₂
      have hbody := declarations_follows hc₂
      cases h₃ : c₂.declarations source with
      | error f =>
        rw [h₃] at hbody
        simp only [h₃, Follows]
        rw [verdict_of_step hl₁ (State.step_sheet rfl),
          verdict_of_step hl₂ (State.step_afterSelector rfl)]
        exact hbody
      | ok r₃ =>
        obtain ⟨ds, c₃⟩ := r₃
        rw [h₃] at hbody
        obtain ⟨⟨hc₃, ls, hls, hts⟩, hgood⟩ := hbody
        cases h₄ : c₃.skip.mark ['}'] with
        | error f =>
          -- The declarations end before something other than a brace only at the end of the source.
          simp only [h₃, h₄, Follows]
          rw [verdict_of_step hl₁ (State.step_sheet rfl),
            verdict_of_step hl₂ (State.step_afterSelector rfl), verdict, hls,
            State.verdict_append (State.run_declarations hgood hts)]
          exact verdict_of_brace_error hc₃ (inBlock_declarations h₃) h₄
        | ok c₄ =>
          obtain ⟨hl₄, hc₄⟩ := lexemes_of_mark hc₃ (by decide) (by decide) h₄
          simp only [h₃, h₄, Follows]
          have hclose : c₃.Reads source c₄ [.mark '}'] := .cons hl₄ ⟨hc₄, [], rfl, rfl⟩
          have hblock : c₂.Reads source c₃ _ := ⟨hc₃, ls, hls, hts⟩
          exact ⟨.cons hl₁ (.cons hl₂ (hblock.trans hclose)), hselector, hgood⟩

/-! ## Sheets -/

/-- Rules are read up to a cursor where nothing is left or where the automaton fails. -/
theorem rules_follow (hc : c.In source) :
    ∃ d, c.Reads source d (((c.rules source).1.map Rule.content).flatMap RuleContent.tokens) ∧
      (∀ r ∈ (c.rules source).1.map Rule.content, r.WellFormed .properties) ∧
      d.verdict source .sheet = (c.rules source).2 ∧
      ((c.rules source).2 = none → d.lexemes = []) := by
  fun_induction rules source c with
  | case1 c hnil =>
    refine ⟨c.skip, .skip hc, by simp, ?_, fun _ => ?_⟩
    · rw [verdict_skip, verdict_of_nil hc hnil]
      rfl
    · rw [lexemes_skip, lexemes_of_nil hnil]
  | case2 c hne f hf =>
    have hrule := rule_follows hc hne
    rw [hf] at hrule
    exact ⟨c.skip, .skip hc, by simp, by rw [verdict_skip]; exact hrule, by simp⟩
  | case3 c hne r next hr rs end? hrs ih =>
    have hrule := rule_follows hc hne
    rw [hr] at hrule
    obtain ⟨hread, hgood⟩ := hrule
    obtain ⟨d, hreads, hgoods, hverdict, hnil⟩ := ih hread.1
    rw [hrs] at hreads hgoods hverdict hnil
    refine ⟨d, hread.trans hreads, ?_, hverdict, hnil⟩
    intro q hq
    rcases List.mem_cons.mp hq with rfl | hq
    · exact hgood
    · exact hgoods q hq

end Cursor

theorem read_failure (source : Text) : (Sheet.read source).2 = verdict .properties source := by
  obtain ⟨d, ⟨-, ls, hls, hts⟩, hgood, hverdict, -⟩ := Cursor.rules_follow (Cursor.in_start source)
  have hlex : lexemes 0 source = ls ++ d.lexemes := hls
  rw [verdict, hlex, State.verdict_append (State.run_rules hgood hts)]
  exact hverdict.symm

theorem tokens_of_read {source : Text} {rs : List Rule} (h : Sheet.read source = (rs, none)) :
    tokens source = (rs.map Rule.content).flatMap RuleContent.tokens ∧
      ∀ r ∈ rs.map Rule.content, r.WellFormed .properties := by
  obtain ⟨d, ⟨-, ls, hls, hts⟩, hgood, -, hnil⟩ := Cursor.rules_follow (Cursor.in_start source)
  change (Cursor.start source).rules source = _ at h
  rw [h] at hts hgood hnil
  have hlex : lexemes 0 source = ls ++ d.lexemes := hls
  rw [hnil rfl, List.append_nil] at hlex
  exact ⟨by rw [tokens, hlex, hts], hgood⟩

theorem parse?_eq_error {source : Text} {e : ParseError} :
    Sheet.parse? source = .error e ↔
      ∃ f, verdict .properties source = some f ∧ e = f.error source := by
  rw [← read_failure]
  unfold Sheet.parse?
  split
  · rename_i rs h
    simp [h]
  · rename_i rs f h
    simp [h, eq_comm]

theorem parse?_eq_ok {source : Text} {s : Sheet} :
    Sheet.parse? source = .ok s ↔ Sheet.read source = (s.rules, none) := by
  unfold Sheet.parse?
  split
  · rename_i rs h
    rw [h]
    constructor
    · intro hs
      cases hs
      rfl
    · intro hs
      cases hs
      rfl
  · rename_i rs f h
    simp [h]

end Stylesheet
