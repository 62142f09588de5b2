import Stylesheet.Proofs.Derivation

/-!
# The automaton

A finite automaton over the lexemes of a text. It stops at the first lexeme that it has no transition
for. It accepts exactly the texts that the grammar derives.
-/

namespace Stylesheet

/-! ## States and steps -/

inductive State
  /-- Outside of rules. -/
  | sheet
  | afterSelector
  /-- In a block, outside of declarations. -/
  | block
  /-- Behind a name that begins at a position. -/
  | afterName (name : Text) (pos : Int)
  | afterColon
  | afterValue
deriving DecidableEq

namespace State

/-- The transition where only one mark is allowed. -/
def require (c : Char) (next : State) (l : Lexeme) : Except Failure State :=
  if l.token = .mark c then .ok next else .error ⟨.missingMark [c], l.pos⟩

/-- The state behind a lexeme, or the failure if there is no transition. A name is looked up when its
colon is there, and an unknown one is reported where it begins. -/
def step (names : Vocabulary) : State → Lexeme → Except Failure State
  | sheet, ⟨.word _, _⟩ => .ok afterSelector
  | sheet, ⟨.mark _, pos⟩ => .error ⟨.missingWord, pos⟩
  | afterSelector, l => require '{' block l
  | block, ⟨.word name, pos⟩ => .ok (afterName name pos)
  | block, ⟨.mark c, pos⟩ => if c = '}' then .ok sheet else .error ⟨.missingWord, pos⟩
  | afterName name pos, l => do
    let next ← require ':' afterColon l
    if names.Has name then .ok next else .error ⟨.unknownProperty name, pos⟩
  | afterColon, ⟨.word _, _⟩ => .ok afterValue
  | afterColon, ⟨.mark _, pos⟩ => .error ⟨.missingWord, pos⟩
  | afterValue, l => require ';' block l

/-- What is missing where the text ends. -/
def atEnd : State → Option Fault
  | sheet => none
  | afterSelector => some (.missingMark ['{'])
  | block => some (.missingMark ['}'])
  | afterName _ _ => some (.missingMark [':'])
  | afterColon => some .missingWord
  | afterValue => some (.missingMark [';'])

/-- The state behind lexemes, or the first failure. -/
def run (names : Vocabulary) (q : State) (ls : List Lexeme) : Except Failure State :=
  ls.foldlM (step names) q

/-- The failure of a text that ends at a position, if there is one. -/
def verdict (names : Vocabulary) (stop : Int) (q : State) (ls : List Lexeme) : Option Failure :=
  match run names q ls with
  | .error f => some f
  | .ok q' => q'.atEnd.map (⟨·, stop⟩)

end State

/-- The failure of a source, if there is one. -/
def verdict (names : Vocabulary) (source : Text) : Option Failure :=
  State.verdict names source.length .sheet (lexemes 0 source)

namespace State

variable {names : Vocabulary} {stop : Int} {q q' : State} {l : Lexeme} {ls ms : List Lexeme}
  {f : Failure}

/-! ## Runs -/

theorem run_nil : run names q [] = .ok q := rfl

theorem run_cons_ok (h : q.step names l = .ok q') :
    run names q (l :: ls) = run names q' ls := by
  rw [run, List.foldlM_cons, h]
  rfl

theorem run_cons_error (h : q.step names l = .error f) : run names q (l :: ls) = .error f := by
  rw [run, List.foldlM_cons, h]
  rfl

theorem run_append (h : run names q ls = .ok q') : run names q (ls ++ ms) = run names q' ms := by
  rw [run] at h
  rw [run, List.foldlM_append, h]
  rfl

theorem exists_of_run_cons (h : run names q (l :: ls) = .ok q') :
    ∃ p, q.step names l = .ok p ∧ run names p ls = .ok q' := by
  cases hs : q.step names l with
  | error f =>
    rw [run_cons_error hs] at h
    cases h
  | ok p => exact ⟨p, rfl, by rw [← run_cons_ok hs, h]⟩

theorem exists_of_run_append (h : run names q (ls ++ ms) = .ok q') :
    ∃ p, run names q ls = .ok p ∧ run names p ms = .ok q' := by
  induction ls generalizing q with
  | nil => exact ⟨q, rfl, h⟩
  | cons l ls ih =>
    obtain ⟨r, hs, h⟩ := exists_of_run_cons h
    rw [run_cons_ok hs]
    exact ih h

theorem verdict_nil : verdict names stop q [] = q.atEnd.map (⟨·, stop⟩) := rfl

theorem verdict_cons_ok (h : q.step names l = .ok q') :
    verdict names stop q (l :: ls) = verdict names stop q' ls := by
  rw [verdict, verdict, run_cons_ok h]

theorem verdict_cons_error (h : q.step names l = .error f) :
    verdict names stop q (l :: ls) = some f := by
  rw [verdict, run_cons_error h]

theorem verdict_append (h : run names q ls = .ok q') :
    verdict names stop q (ls ++ ms) = verdict names stop q' ms := by
  rw [verdict, verdict, run_append h]

/-- Only outside of rules may a text end. -/
theorem verdict_eq_none : verdict names stop q ls = none ↔ run names q ls = .ok sheet := by
  unfold verdict
  cases hr : run names q ls with
  | error f => simp
  | ok q' => cases q' <;> simp [atEnd]

/-- A run either fails at one of the lexemes or comes to its state through all of them. -/
theorem run_error (h : run names q ls = .error f) :
    ∃ before l after q', ls = before ++ l :: after ∧ run names q before = .ok q' ∧
      q'.step names l = .error f := by
  induction ls generalizing q with
  | nil => cases h
  | cons l ls ih =>
    cases hs : q.step names l with
    | error g =>
      rw [run_cons_error hs] at h
      cases h
      exact ⟨[], l, ls, q, rfl, rfl, hs⟩
    | ok q' =>
      rw [run_cons_ok hs] at h
      obtain ⟨before, m, after, p, rfl, hrun, hm⟩ := ih h
      exact ⟨l :: before, m, after, p, rfl, by rw [run_cons_ok hs, hrun], hm⟩

/-! ## Transitions -/

theorem step_sheet {w : Text} (h : l.token = .word w) : sheet.step names l = .ok afterSelector := by
  obtain ⟨_, _⟩ := l
  cases h
  rfl

theorem step_afterSelector (h : l.token = .mark '{') : afterSelector.step names l = .ok block :=
  if_pos h

theorem step_block_word {w : Text} (h : l.token = .word w) :
    block.step names l = .ok (afterName w l.pos) := by
  obtain ⟨_, _⟩ := l
  cases h
  rfl

theorem step_block_mark (h : l.token = .mark '}') : block.step names l = .ok sheet := by
  obtain ⟨_, _⟩ := l
  cases h
  rfl

theorem step_afterName {name : Text} {pos : Int} (h : l.token = .mark ':') (hn : names.Has name) :
    (afterName name pos).step names l = .ok afterColon := by
  simp only [step, require, if_pos h, if_pos hn, bind, Except.bind]

theorem step_afterName_error {name : Text} {pos : Int} (h : l.token ≠ .mark ':') :
    (afterName name pos).step names l = .error ⟨.missingMark [':'], l.pos⟩ := by
  simp only [step, require, if_neg h, bind, Except.bind]

theorem step_afterName_unknown {name : Text} {pos : Int} (h : l.token = .mark ':')
    (hn : ¬ names.Has name) :
    (afterName name pos).step names l = .error ⟨.unknownProperty name, pos⟩ := by
  simp only [step, require, if_pos h, if_neg hn, bind, Except.bind]

theorem step_afterColon {w : Text} (h : l.token = .word w) :
    afterColon.step names l = .ok afterValue := by
  obtain ⟨_, _⟩ := l
  cases h
  rfl

theorem step_afterValue (h : l.token = .mark ';') : afterValue.step names l = .ok block :=
  if_pos h

/-- The transitions, one by one. -/
inductive Goes (names : Vocabulary) : State → Lexeme → State → Prop
  | selector (w : Text) (pos : Int) : Goes names sheet ⟨.word w, pos⟩ afterSelector
  | opening (pos : Int) : Goes names afterSelector ⟨.mark '{', pos⟩ block
  | name (w : Text) (pos : Int) : Goes names block ⟨.word w, pos⟩ (afterName w pos)
  | closing (pos : Int) : Goes names block ⟨.mark '}', pos⟩ sheet
  | colon {w : Text} {start pos : Int} : names.Has w →
      Goes names (afterName w start) ⟨.mark ':', pos⟩ afterColon
  | value (w : Text) (pos : Int) : Goes names afterColon ⟨.word w, pos⟩ afterValue
  | semicolon (pos : Int) : Goes names afterValue ⟨.mark ';', pos⟩ block

/-- The failing steps, one by one. Only the last one depends on the vocabulary. -/
inductive Stops (names : Vocabulary) : State → Lexeme → Failure → Prop
  | selector (c : Char) (pos : Int) : Stops names sheet ⟨.mark c, pos⟩ ⟨.missingWord, pos⟩
  | opening {l : Lexeme} : l.token ≠ .mark '{' →
      Stops names afterSelector l ⟨.missingMark ['{'], l.pos⟩
  | name {c : Char} {pos : Int} : c ≠ '}' → Stops names block ⟨.mark c, pos⟩ ⟨.missingWord, pos⟩
  | colon {w : Text} {start : Int} {l : Lexeme} : l.token ≠ .mark ':' →
      Stops names (afterName w start) l ⟨.missingMark [':'], l.pos⟩
  | value (c : Char) (pos : Int) : Stops names afterColon ⟨.mark c, pos⟩ ⟨.missingWord, pos⟩
  | semicolon {l : Lexeme} : l.token ≠ .mark ';' →
      Stops names afterValue l ⟨.missingMark [';'], l.pos⟩
  | unknown {w : Text} {start pos : Int} : ¬ names.Has w →
      Stops names (afterName w start) ⟨.mark ':', pos⟩ ⟨.unknownProperty w, start⟩

theorem step_spec (names : Vocabulary) (q : State) (l : Lexeme) :
    (∃ q', q.step names l = .ok q' ∧ Goes names q l q') ∨
    ∃ f, q.step names l = .error f ∧ Stops names q l f := by
  obtain ⟨token, pos⟩ := l
  cases q with
  | sheet =>
    cases token with
    | word w => exact .inl ⟨_, rfl, .selector w pos⟩
    | mark c => exact .inr ⟨_, rfl, .selector c pos⟩
  | afterSelector =>
    by_cases hl : token = .mark '{'
    · subst hl
      exact .inl ⟨_, rfl, .opening pos⟩
    · exact .inr ⟨_, if_neg hl, .opening hl⟩
  | block =>
    cases token with
    | word w => exact .inl ⟨_, rfl, .name w pos⟩
    | mark c =>
      by_cases hc : c = '}'
      · subst hc
        exact .inl ⟨_, rfl, .closing pos⟩
      · exact .inr ⟨_, if_neg hc, .name hc⟩
  | afterName w start =>
    by_cases hl : token = .mark ':'
    · subst hl
      by_cases hn : names.Has w
      · exact .inl ⟨_, step_afterName rfl hn, .colon hn⟩
      · exact .inr ⟨_, step_afterName_unknown rfl hn, .unknown hn⟩
    · exact .inr ⟨_, step_afterName_error hl, .colon hl⟩
  | afterColon =>
    cases token with
    | word w => exact .inl ⟨_, rfl, .value w pos⟩
    | mark c => exact .inr ⟨_, rfl, .value c pos⟩
  | afterValue =>
    by_cases hl : token = .mark ';'
    · subst hl
      exact .inl ⟨_, rfl, .semicolon pos⟩
    · exact .inr ⟨_, if_neg hl, .semicolon hl⟩

theorem step_eq_ok : q.step names l = .ok q' ↔ Goes names q l q' := by
  constructor
  · intro h
    rcases step_spec names q l with ⟨p, hp, hgoes⟩ | ⟨f, hf, -⟩
    · rw [h] at hp
      cases hp
      exact hgoes
    · rw [h] at hf
      cases hf
  · intro h
    cases h with
    | selector | opening | name | closing | value | semicolon => rfl
    | colon hn => exact step_afterName rfl hn

theorem step_eq_error : q.step names l = .error f ↔ Stops names q l f := by
  constructor
  · intro h
    rcases step_spec names q l with ⟨p, hp, -⟩ | ⟨g, hg, hstops⟩
    · rw [h] at hp
      cases hp
    · rw [h] at hg
      cases hg
      exact hstops
  · intro h
    cases h with
    | selector | value => rfl
    | opening hl | semicolon hl | name hl => exact if_neg hl
    | colon hl => exact step_afterName_error hl
    | unknown hn => exact step_afterName_unknown rfl hn

/-! ## From contents to runs -/

theorem run_declaration {d : DeclarationContent} (hd : names.Has d.name)
    (h : ls.map Lexeme.token = d.tokens) : run names block ls = .ok block := by
  simp only [DeclarationContent.tokens, List.map_eq_cons_iff, List.map_eq_nil_iff] at h
  obtain ⟨_, _, rfl, h₁, _, _, rfl, h₂, _, _, rfl, h₃, _, _, rfl, h₄, rfl⟩ := h
  rw [run_cons_ok (step_block_word h₁), run_cons_ok (step_afterName h₂ hd),
    run_cons_ok (step_afterColon h₃), run_cons_ok (step_afterValue h₄), run_nil]

theorem run_declarations {ds : List DeclarationContent} (hds : ∀ d ∈ ds, d.WellFormed names)
    (h : ls.map Lexeme.token = ds.flatMap DeclarationContent.tokens) :
    run names block ls = .ok block := by
  induction ds generalizing ls with
  | nil =>
    obtain rfl : ls = [] := by simpa using h
    rfl
  | cons d ds ih =>
    rw [List.flatMap_cons, List.map_eq_append_iff] at h
    obtain ⟨ls₁, ls₂, rfl, h₁, h₂⟩ := h
    rw [run_append (run_declaration (hds d List.mem_cons_self).1 h₁)]
    exact ih (fun e he => hds e (List.mem_cons_of_mem d he)) h₂

theorem run_rule {r : RuleContent} (hr : r.WellFormed names)
    (h : ls.map Lexeme.token = r.tokens) : run names sheet ls = .ok sheet := by
  simp only [RuleContent.tokens, List.map_eq_cons_iff, List.map_eq_append_iff,
    List.map_eq_nil_iff] at h
  obtain ⟨_, _, rfl, h₁, _, _, rfl, h₂, ds, _, rfl, hds, _, _, rfl, h₃, rfl⟩ := h
  rw [run_cons_ok (step_sheet h₁), run_cons_ok (step_afterSelector h₂),
    run_append (run_declarations hr.2 hds), run_cons_ok (step_block_mark h₃), run_nil]

theorem run_rules {c : SheetContent} (hc : ∀ r ∈ c, r.WellFormed names)
    (h : ls.map Lexeme.token = c.flatMap RuleContent.tokens) : run names sheet ls = .ok sheet := by
  induction c generalizing ls with
  | nil =>
    obtain rfl : ls = [] := by simpa using h
    rfl
  | cons r c ih =>
    rw [List.flatMap_cons, List.map_eq_append_iff] at h
    obtain ⟨ls₁, ls₂, rfl, h₁, h₂⟩ := h
    rw [run_append (run_rule (hc r List.mem_cons_self) h₁)]
    exact ih (fun q hq => hc q (List.mem_cons_of_mem r hq)) h₂

/-! ## From runs to contents -/

/-- The rest of a block and the rules behind it. -/
def Closes (names : Vocabulary) (ts : List Token) : Prop :=
  ∃ (ds : List DeclarationContent) (c : SheetContent),
    (∀ d ∈ ds, d.WellFormed names) ∧ (∀ r ∈ c, r.WellFormed names) ∧
      ts = ds.flatMap DeclarationContent.tokens ++ .mark '}' :: c.flatMap RuleContent.tokens

/-- What a state still needs of the tokens behind it. -/
def Completes (names : Vocabulary) : State → List Token → Prop
  | sheet, ts => ∃ c : SheetContent, (∀ r ∈ c, r.WellFormed names) ∧
      ts = c.flatMap RuleContent.tokens
  | afterSelector, ts => ∃ us, ts = .mark '{' :: us ∧ Closes names us
  | block, ts => Closes names ts
  | afterName name _, ts => ∃ value us, ts = .mark ':' :: .word value :: .mark ';' :: us ∧
      names.Has name ∧ IsWord value ∧ Closes names us
  | afterColon, ts => ∃ value us, ts = .word value :: .mark ';' :: us ∧ IsWord value ∧
      Closes names us
  | afterValue, ts => ∃ us, ts = .mark ';' :: us ∧ Closes names us

/-- One step back: what the state behind a lexeme needs, with the lexeme in front. -/
theorem completes_of_step {ts : List Token} (h : q.step names l = .ok q')
    (hw : ∀ w, l.token = .word w → IsWord w) (hq : Completes names q' ts) :
    Completes names q (l.token :: ts) := by
  cases step_eq_ok.mp h with
  | selector w pos =>
    -- The selector and the block behind it are one more rule.
    obtain ⟨us, rfl, ds, c, hds, hc, rfl⟩ := hq
    refine ⟨⟨w, ds⟩ :: c, ?_, by simp [RuleContent.tokens]⟩
    intro r hr
    rcases List.mem_cons.mp hr with rfl | hr
    · exact ⟨hw w rfl, hds⟩
    · exact hc r hr
  | opening pos => exact ⟨ts, rfl, hq⟩
  | name w pos =>
    -- The name and what it still needs are one more declaration.
    obtain ⟨value, us, rfl, hname, hvalue, ds, c, hds, hc, rfl⟩ := hq
    refine ⟨⟨w, value⟩ :: ds, c, ?_, hc, by simp [DeclarationContent.tokens]⟩
    intro d hd
    rcases List.mem_cons.mp hd with rfl | hd
    · exact ⟨hname, hvalue⟩
    · exact hds d hd
  | closing pos =>
    obtain ⟨c, hc, rfl⟩ := hq
    exact ⟨[], c, by simp, hc, rfl⟩
  | colon hn =>
    obtain ⟨value, us, rfl, hvalue, hus⟩ := hq
    exact ⟨value, us, rfl, hn, hvalue, hus⟩
  | value w pos =>
    obtain ⟨us, rfl, hus⟩ := hq
    exact ⟨w, us, rfl, hw w rfl, hus⟩
  | semicolon pos => exact ⟨ts, rfl, hq⟩

theorem completes_of_run (h : run names q ls = .ok sheet)
    (hw : ∀ l ∈ ls, ∀ w, l.token = .word w → IsWord w) :
    Completes names q (ls.map Lexeme.token) := by
  induction ls generalizing q with
  | nil =>
    cases h
    exact ⟨[], by simp, rfl⟩
  | cons l ls ih =>
    obtain ⟨q', hs, h⟩ := exists_of_run_cons h
    have hrest := ih h fun m hm => hw m (List.mem_cons_of_mem l hm)
    exact completes_of_step hs (hw l List.mem_cons_self) hrest

end State

/-! ## The language of the automaton -/

theorem verdict_eq_none_iff {names : Vocabulary} {t : Text} :
    verdict names t = none ↔ ∃ c, DerivesSheet names t c := by
  simp only [derivesSheet_iff]
  rw [verdict, State.verdict_eq_none]
  constructor
  · intro h
    obtain ⟨c, hc, ht⟩ := State.completes_of_run h fun l hl w hw => isWord_of_mem_lexemes hl hw
    exact ⟨c, ht, hc⟩
  · rintro ⟨c, ht, hc⟩
    exact State.run_rules hc ht

end Stylesheet
