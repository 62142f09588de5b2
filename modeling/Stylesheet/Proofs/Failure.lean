import Stylesheet.Proofs.Reading

/-!
# Failures

Where the automaton fails: at the end of the text, at a lexeme it has no transition for, or at the
name of an unknown property. The error of a rejected source reports exactly this failure.
-/

namespace Stylesheet

namespace State

variable {names : Vocabulary} {q q' : State} {l : Lexeme} {ls ms : List Lexeme} {f : Failure}

/-! ## Failing steps -/

/-- A step fails at its lexeme, or behind an unknown name at its colon. -/
theorem step_error (h : q.step names l = .error f) :
    (f.pos = l.pos ∧ ∀ name, f.fault ≠ .unknownProperty name) ∨
    ∃ name pos, q = afterName name pos ∧ l.token = .mark ':' ∧ ¬ names.Has name ∧
      f = ⟨.unknownProperty name, pos⟩ := by
  cases step_eq_error.mp h with
  | unknown hn => exact .inr ⟨_, _, rfl, rfl, hn, rfl⟩
  | selector | opening | name | colon | value | semicolon =>
    exact .inl ⟨rfl, fun _ hf => by cases hf⟩

/-! ## Names -/

/-- Only a word in a block leads behind a name. -/
theorem eq_block_of_step {name : Text} {pos : Int} (h : q.step names l = .ok (afterName name pos)) :
    q = block ∧ l = ⟨.word name, pos⟩ := by
  cases step_eq_ok.mp h
  exact ⟨rfl, rfl⟩

/-- Behind a name, the name is the last lexeme. -/
theorem exists_of_run_afterName {name : Text} {pos : Int}
    (h : run names sheet ls = .ok (afterName name pos)) :
    ∃ before, ls = before ++ [⟨.word name, pos⟩] ∧ run names sheet before = .ok block := by
  rcases List.eq_nil_or_concat ls with rfl | ⟨before, l, rfl⟩
  · cases h
  · rw [List.concat_eq_append] at h ⊢
    obtain ⟨p, hrun, hlast⟩ := exists_of_run_append h
    obtain ⟨q, hstep, hnil⟩ := exists_of_run_cons hlast
    cases hnil
    obtain ⟨rfl, rfl⟩ := eq_block_of_step hstep
    exact ⟨before, rfl, hrun⟩

end State

/-! ## Where a text fails -/

/-- At the end, nothing but the text is left to blame. -/
def FailsAtEnd (names : Vocabulary) (t : Text) (f : Failure) : Prop :=
  ∃ q, State.run names .sheet (lexemes 0 t) = .ok q ∧ q.atEnd = some f.fault ∧ f.pos = t.length

/-- A lexeme has no transition. -/
def FailsAtLexeme (names : Vocabulary) (t : Text) (f : Failure) : Prop :=
  ∃ before l after q, lexemes 0 t = before ++ l :: after ∧
    State.run names .sheet before = .ok q ∧ q.step names l = .error f ∧ f.pos = l.pos

/-- A name with its colon is unknown. -/
def FailsAtName (names : Vocabulary) (t name : Text) (pos : Int) : Prop :=
  ∃ before pos' after,
    lexemes 0 t = before ++ ⟨.word name, pos⟩ :: ⟨.mark ':', pos'⟩ :: after ∧
      State.run names .sheet before = .ok .block ∧ ¬ names.Has name

theorem fails_of_verdict {names : Vocabulary} {t : Text} {f : Failure}
    (h : verdict names t = some f) :
    ((∀ name, f.fault ≠ .unknownProperty name) ∧
      (FailsAtEnd names t f ∨ FailsAtLexeme names t f)) ∨
    ∃ name pos, f = ⟨.unknownProperty name, pos⟩ ∧ FailsAtName names t name pos := by
  unfold verdict State.verdict at h
  split at h
  · rename_i g hrun
    cases h
    obtain ⟨before, l, after, q, hlex, hbefore, hstep⟩ := State.run_error hrun
    rcases State.step_error hstep with ⟨hpos, hfault⟩ | ⟨name, pos, rfl, hl, hn, rfl⟩
    · exact .inl ⟨hfault, .inr ⟨before, l, after, q, hlex, hbefore, hstep, hpos⟩⟩
    · obtain ⟨start, rfl, hblock⟩ := State.exists_of_run_afterName hbefore
      obtain ⟨token, pos'⟩ := l
      cases hl
      refine .inr ⟨name, pos, rfl, start, pos', after, ?_, hblock, hn⟩
      rw [hlex, List.append_assoc]
      rfl
  · rename_i q hrun
    obtain ⟨fault, hq, rfl⟩ := Option.map_eq_some_iff.mp h
    refine .inl ⟨?_, .inl ⟨q, hrun, hq, rfl⟩⟩
    rintro name rfl
    cases q <;> cases hq

/-! ## Positions -/

theorem exists_pos_of_lexemes {t : Text} {before after : List Lexeme} {l : Lexeme}
    (h : lexemes 0 t = before ++ l :: after) : ∃ n : Nat, n < t.length ∧ l.pos = n := by
  obtain ⟨start, x, rest, rfl, -, hx, -, hl⟩ := exists_cut h
  refine ⟨start.length, by simp, ?_⟩
  rw [(begins_of_lexemes hx hl).1, Int.zero_add]

theorem exists_pos_of_verdict {names : Vocabulary} {t : Text} {f : Failure}
    (h : verdict names t = some f) : ∃ n : Nat, n ≤ t.length ∧ f.pos = n := by
  rcases fails_of_verdict h with ⟨-, ⟨q, -, -, hpos⟩ | ⟨before, l, after, q, hlex, -, -, hpos⟩⟩ |
    ⟨name, pos, rfl, before, pos', after, hlex, -, -⟩
  · exact ⟨t.length, Nat.le_refl _, hpos⟩
  · obtain ⟨n, hn, hl⟩ := exists_pos_of_lexemes hlex
    exact ⟨n, Nat.le_of_lt hn, hpos.trans hl⟩
  · obtain ⟨n, hn, hl⟩ := exists_pos_of_lexemes hlex
    exact ⟨n, Nat.le_of_lt hn, hl⟩

theorem offset_of_verdict {names : Vocabulary} {t : Text} {f : Failure}
    (h : verdict names t = some f) : (f.error t).diagnostic.offset = f.pos := by
  obtain ⟨n, hn, hpos⟩ := exists_pos_of_verdict h
  simp only [Failure.error, Diagnostic.locate, hpos]
  omega

/-! ## The error of a source -/

/-- A source is rejected exactly if the automaton fails, with the kind, the message and the position of
the automaton's failure. -/
theorem parse?_error_iff_verdict (source : Text) (e : ParseError) :
    Sheet.parse? source = .error e ↔
      ∃ f, verdict .properties source = some f ∧ e = f.error source ∧ e.kind = f.fault.kind ∧
        e.diagnostic.message = f.fault.message ∧ e.diagnostic.offset = f.pos := by
  rw [parse?_eq_error]
  constructor
  · rintro ⟨f, hf, rfl⟩
    exact ⟨f, hf, rfl, rfl, rfl, offset_of_verdict hf⟩
  · rintro ⟨f, hf, he, -⟩
    exact ⟨f, hf, he⟩

end Stylesheet
