import Stylesheet.Proofs.Failure
import Stylesheet.Proofs.Language

/-!
# Errors stand as early as possible

Every state of the automaton can be completed, so the text in front of a failure can be. Which
transition a lexeme has depends on its first character only, so behind a failure nothing helps. For an
unknown name this holds from its colon on.
-/

namespace Stylesheet

/-! ## Completions -/

/-- A text that goes on to a text of the relaxed language. -/
def Viable (t : Text) : Prop := ∃ z, Relaxed (t ++ z)

namespace State

/-- What leads out of all rules from a state. -/
def wayOut : State → Text
  | sheet => []
  | afterSelector => ['{', '}']
  | block => ['}']
  | afterName _ _ => [':', 'a', ';', '}']
  | afterColon => ['a', ';', '}']
  | afterValue => [';', '}']

theorem run_wayOut {q : State} (hq : ∀ name pos, q = afterName name pos → IsWord name)
    (pos : Int) : run .words q (lexemes pos q.wayOut) = .ok sheet := by
  cases q with
  | sheet =>
    rw [wayOut, lexemes_nil, run_nil]
  | afterSelector =>
    rw [wayOut, lexemes_mark (by decide) (by decide), lexemes_mark (by decide) (by decide),
      lexemes_nil]
    rfl
  | block =>
    rw [wayOut, lexemes_mark (by decide) (by decide), lexemes_nil]
    rfl
  | afterName name p =>
    rw [wayOut, lexemes_mark (by decide) (by decide), lexemes_letter (by decide) (.cons (by decide) _),
      lexemes_mark (by decide) (by decide), lexemes_mark (by decide) (by decide), lexemes_nil,
      run_cons_ok (step_afterName rfl (hq name p rfl))]
    rfl
  | afterColon =>
    rw [wayOut, lexemes_letter (by decide) (.cons (by decide) _), lexemes_mark (by decide) (by decide),
      lexemes_mark (by decide) (by decide), lexemes_nil]
    rfl
  | afterValue =>
    rw [wayOut, lexemes_mark (by decide) (by decide), lexemes_mark (by decide) (by decide),
      lexemes_nil]
    rfl

/-! ## Larger vocabularies -/

variable {names others : Vocabulary} {q q' : State} {l : Lexeme} {ls : List Lexeme} {f : Failure}

theorem step_of_subset (hsub : ∀ n, names.Has n → others.Has n) (h : q.step names l = .ok q') :
    q.step others l = .ok q' := by
  rw [step_eq_ok] at h ⊢
  cases h with
  | colon hn => exact .colon (hsub _ hn)
  | selector | opening | name | closing | value | semicolon => constructor

theorem run_of_subset (hsub : ∀ n, names.Has n → others.Has n) (h : run names q ls = .ok q') :
    run others q ls = .ok q' := by
  induction ls generalizing q with
  | nil => exact h
  | cons l ls ih =>
    obtain ⟨p, hs, h⟩ := exists_of_run_cons h
    rw [run_cons_ok (step_of_subset hsub hs)]
    exact ih h

theorem run_words (h : run .properties q ls = .ok q') : run .words q ls = .ok q' :=
  run_of_subset (fun _ => Vocabulary.properties.isWord) h

theorem step_error_of_fault (hf : ∀ name, f.fault ≠ .unknownProperty name)
    (h : q.step names l = .error f) : q.step others l = .error f := by
  rw [step_eq_error] at h ⊢
  cases h with
  | selector c pos => exact .selector c pos
  | opening hl => exact .opening hl
  | name hc => exact .name hc
  | colon hl => exact .colon hl
  | value c pos => exact .value c pos
  | semicolon hl => exact .semicolon hl
  | unknown => exact absurd rfl (hf _)

/-! ## First characters -/

/-- A lexeme that begins with the same character fails in the same way. -/
theorem step_error_of_begins {x : Char} {a b : Token} {pos : Int} (ha : a.Begins x)
    (hb : b.Begins x) (h : q.step names ⟨a, pos⟩ = .error f) :
    q.step names ⟨b, pos⟩ = .error f := by
  unfold Token.Begins at ha hb
  split at ha
  · rename_i hx
    rw [if_pos hx] at hb
    obtain ⟨v, rfl⟩ := ha
    obtain ⟨w, rfl⟩ := hb
    cases q with
    | sheet | block | afterColon => cases h
    | afterSelector | afterName | afterValue => exact h
  · rename_i hx
    rw [if_neg hx] at hb
    rw [hb, ← ha]
    exact h

end State

/-! ## The text in front of a failure -/

/-- A text that the automaton reads to its end goes on to a text of the relaxed language. -/
theorem viable_of_run {t : Text} {q : State}
    (h : State.run .properties .sheet (lexemes 0 t) = .ok q) : Viable t := by
  have hq : ∀ name pos, q = .afterName name pos → IsWord name := by
    rintro name pos rfl
    obtain ⟨before, hls, -⟩ := State.exists_of_run_afterName h
    have hmem : ⟨.word name, pos⟩ ∈ lexemes 0 t := by simp [hls]
    exact isWord_of_mem_lexemes hmem rfl
  have hwords := State.run_words h
  -- The blank keeps a word at the end of the text apart from what follows.
  refine ⟨' ' :: q.wayOut, ?_⟩
  rw [Relaxed, ← verdict_eq_none_iff, verdict, State.verdict_eq_none,
    lexemes_append (apart_of_noLetter (.cons (by decide) _) _), lexemes_blank (by decide),
    State.run_append hwords]
  exact State.run_wayOut hq _

theorem failsAtLexeme_cut {t : Text} {f : Failure} (h : FailsAtLexeme .properties t f)
    (hf : ∀ name, f.fault ≠ .unknownProperty name) :
    ∃ start x rest, t = start ++ x :: rest ∧ f.pos = start.length ∧ Viable start ∧
      ¬ Viable (start ++ [x]) := by
  obtain ⟨before, l, after, q, hlex, hrun, hstep, hpos⟩ := h
  obtain ⟨start, x, rest, rfl, hap, hx, rfl, hl⟩ := exists_cut hlex
  obtain ⟨token, pos⟩ := l
  obtain ⟨rfl, hbegins⟩ := begins_of_lexemes hx hl
  refine ⟨start, x, rest, rfl, hpos.trans (Int.zero_add _), viable_of_run hrun, ?_⟩
  rintro ⟨z, hz⟩
  -- With another rest the lexeme may be a longer word, but it begins with the same character.
  obtain ⟨b, _, hb, hbegins'⟩ := lexemes_of_not_blank hx (0 + start.length) z
  have hfail : q.step .words ⟨b, 0 + start.length⟩ = .error f :=
    State.step_error_of_fault hf (State.step_error_of_begins hbegins hbegins' hstep)
  rw [Relaxed, ← verdict_eq_none_iff, verdict, List.append_assoc, List.singleton_append,
    lexemes_append (hap z), hb, State.verdict_append (State.run_words hrun), State.verdict_cons_error hfail] at hz
  cases hz

theorem failsAtName_cut {t name : Text} {pos : Int} (h : FailsAtName .properties t name pos) :
    ∃ start mid rest, t = start ++ mid ++ ':' :: rest ∧ pos = start.length ∧ ':' ∉ mid ∧
      Accepted (start ++ ['}']) ∧
      ∀ z, ¬ Accepted (start ++ mid ++ ':' :: z) := by
  obtain ⟨before, pos', after, hlex, hrun, hname⟩ := h
  obtain ⟨start, x, rest, rfl, hap, hx, rfl, hl⟩ := exists_cut hlex
  -- The second cut stands before the colon.
  have hname' : lexemes (0 + start.length) (x :: rest) =
      [⟨.word name, pos⟩] ++ ⟨.mark ':', pos'⟩ :: after := hl
  obtain ⟨mid, y, rest', hcut, hap', hy, hmid, hcolon⟩ := exists_cut hname'
  obtain rfl : ':' = y := (begins_of_lexemes hy hcolon).2.eq_of_mark
  have hpos : pos = start.length := (begins_of_lexemes hx hl).1.trans (Int.zero_add _)
  have hno : ':' ∉ mid := by
    intro hmem
    have := mark_mem_tokens (by decide) (by decide) hmem
    rw [← map_token_eq_tokens (0 + start.length), hmid] at this
    simp at this
  refine ⟨start, mid, rest', by rw [hcut, List.append_assoc], hpos, hno, ?_, ?_⟩
  · rw [accepted_iff_verdict, verdict, State.verdict_eq_none,
      lexemes_append (apart_of_noLetter (.cons (by decide) _) _), State.run_append hrun,
      lexemes_mark (by decide) (by decide), lexemes_nil, State.run_cons_ok (State.step_block_mark rfl),
      State.run_nil]
  · intro z
    have hstart : Apart start (mid ++ ':' :: z) := by
      cases mid with
      | nil => cases (lexemes_nil _).symm.trans hmid
      | cons m mid =>
        obtain rfl : x = m := by simpa using congrArg List.head? hcut
        exact hap _
    rw [accepted_iff_verdict, verdict, List.append_assoc, lexemes_append hstart,
      lexemes_append (hap' z), hmid, lexemes_mark (by decide) (by decide),
      State.verdict_append hrun, List.singleton_append,
      State.verdict_cons_ok (State.step_block_word rfl),
      State.verdict_cons_error (State.step_afterName_unknown rfl hname)]
    simp

/-! ## The earliest position -/

/-- Up to a position a text can go on, with one character more it cannot. -/
def LastViable (source : Text) (p : Nat) : Prop :=
  Viable (source.take p) ∧ (p < source.length → ¬ Viable (source.take (p + 1)))

/-- At a position a block can be closed, but nothing helps behind the next colon. -/
def LastClosable (source : Text) (p : Nat) : Prop :=
  Accepted (source.take p ++ ['}']) ∧
    ∃ c, p ≤ c ∧ source[c]? = some ':' ∧ (∀ i, p ≤ i → i < c → source[i]? ≠ some ':') ∧
      ∀ z, ¬ Accepted (source.take (c + 1) ++ z)

/-- What is earliest about the position of an error. -/
def ErrorKind.Earliest (source : Text) (p : Nat) : ErrorKind → Prop
  | general => False
  | missingMark | missingWord => LastViable source p
  | unknownProperty _ => LastClosable source p

theorem lastViable_of_fails {t : Text} {f : Failure} {p : Nat} (hp : f.pos = p)
    (hf : ∀ name, f.fault ≠ .unknownProperty name)
    (h : FailsAtEnd .properties t f ∨ FailsAtLexeme .properties t f) : LastViable t p := by
  rcases h with ⟨q, hrun, -, hpos⟩ | h
  · obtain rfl : p = t.length := by omega
    refine ⟨?_, fun hlt => absurd hlt (Nat.lt_irrefl _)⟩
    rw [List.take_length]
    exact viable_of_run hrun
  · obtain ⟨start, x, rest, rfl, hpos, hviable, hnot⟩ := failsAtLexeme_cut h hf
    obtain rfl : p = start.length := by omega
    refine ⟨by rwa [List.take_left], fun _ => ?_⟩
    rwa [List.take_length_add_append]

theorem lastClosable_of_fails {t name : Text} {pos : Int} {p : Nat} (hp : pos = p)
    (h : FailsAtName .properties t name pos) : LastClosable t p := by
  obtain ⟨start, mid, rest, rfl, hpos, hno, haccept, hreject⟩ := failsAtName_cut h
  obtain rfl : p = start.length := by omega
  refine ⟨?_, start.length + mid.length, Nat.le_add_right _ _, ?_, ?_, ?_⟩
  · rwa [List.append_assoc, List.take_left]
  · rw [← List.length_append, List.getElem?_append_right (Nat.le_refl _), Nat.sub_self]
    rfl
  · intro i hi hlt hcolon
    rw [List.append_assoc, List.getElem?_append_right hi,
      List.getElem?_append_left (by omega)] at hcolon
    exact hno (List.mem_of_getElem? hcolon)
  · intro z
    have htake : (start ++ mid ++ ':' :: rest).take (start.length + mid.length + 1) =
        start ++ mid ++ [':'] := by
      rw [← List.length_append, List.take_length_add_append]
      rfl
    rw [htake, List.append_assoc, List.singleton_append]
    exact hreject z

/-- Every error stands at the earliest position that allows its kind. -/
theorem error_at_earliest (source : Text) (e : ParseError) (h : Sheet.parse? source = .error e) :
    ∃ p : Nat, p ≤ source.length ∧ e.diagnostic.offset = p ∧ e.kind.Earliest source p := by
  obtain ⟨f, hf, rfl⟩ := parse?_eq_error.mp h
  obtain ⟨p, hp, hpos⟩ := exists_pos_of_verdict hf
  refine ⟨p, hp, (offset_of_verdict hf).trans hpos, ?_⟩
  rcases fails_of_verdict hf with ⟨hfault, hfails⟩ | ⟨name, pos, rfl, hfails⟩
  · have hlast := lastViable_of_fails hpos hfault hfails
    obtain ⟨fault, pos⟩ := f
    cases fault with
    | missingMark | missingWord => exact hlast
    | unknownProperty name => exact absurd rfl (hfault name)
  · exact lastClosable_of_fails hpos hfails

/-- A name behind which the colon is missing, and the same name with its colon. -/
theorem error_at_earliest_of_name :
    (∃ e, Sheet.parse? ['a', '{', 'b', ';'] = .error e ∧ LastViable ['a', '{', 'b', ';'] 3) ∧
    ∃ e, Sheet.parse? ['a', '{', 'b', ':'] = .error e ∧ LastClosable ['a', '{', 'b', ':'] 2 := by
  have hlex : ∀ c, isBlank c = false → isLetter c = false → lexemes 0 ['a', '{', 'b', c] =
      [⟨.word ['a'], 0⟩, ⟨.mark '{', 1⟩, ⟨.word ['b'], 2⟩, ⟨.mark c, 3⟩] := by
    intro c hb hl
    rw [lexemes_letter (by decide) (.cons (by decide) _), lexemes_mark (by decide) (by decide),
      lexemes_letter (by decide) (.cons hl _), lexemes_mark hb hl, lexemes_nil]
    rfl
  constructor
  · have hv : verdict .properties ['a', '{', 'b', ';'] = some ⟨.missingMark [':'], 3⟩ := by
      rw [verdict, hlex ';' (by decide) (by decide)]
      rfl
    have h := parse?_eq_error.mpr ⟨_, hv, rfl⟩
    obtain ⟨p, -, hp, hlast⟩ := error_at_earliest _ _ h
    simp only [offset_of_verdict hv] at hp
    obtain rfl : p = 3 := by omega
    exact ⟨_, h, hlast⟩
  · have hv : verdict .properties ['a', '{', 'b', ':'] = some ⟨.unknownProperty ['b'], 2⟩ := by
      rw [verdict, hlex ':' (by decide) (by decide)]
      rfl
    have h := parse?_eq_error.mpr ⟨_, hv, rfl⟩
    obtain ⟨p, -, hp, hlast⟩ := error_at_earliest _ _ h
    simp only [offset_of_verdict hv] at hp
    obtain rfl : p = 2 := by omega
    exact ⟨_, h, hlast⟩

end Stylesheet
