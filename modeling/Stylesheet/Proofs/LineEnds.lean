import Stylesheet.Proofs.Failure
import Stylesheet.Proofs.Language
import Stylesheet.Proofs.Lines
import Stylesheet.Proofs.Work

/-!
# Line ends

Carriage returns before the line feeds of a text are blanks before blanks. The lexemes stay the same and
only move, and so does the failure of the text. On its line, nothing moves.
-/

namespace Stylesheet

/-! ## Carriage returns -/

namespace Text

/-- A text with a carriage return before each of its line feeds. -/
def withReturns (t : Text) : Text := t.flatMap fun c => if c = '\n' then ['\r', '\n'] else [c]

theorem withReturns_append (a b : Text) : withReturns (a ++ b) = withReturns a ++ withReturns b :=
  List.flatMap_append

theorem pos_withReturns (a b : Text) :
    ((a ++ b).withReturns.length : Int) = a.withReturns.length + b.withReturns.length := by
  rw [withReturns_append, List.length_append]
  omega

theorem withReturns_cons (c : Char) (t : Text) :
    withReturns (c :: t) = withReturns [c] ++ withReturns t :=
  withReturns_append [c] t

theorem withReturns_singleton (c : Char) :
    withReturns [c] = if c = '\n' then ['\r', '\n'] else [c] := by
  simp [withReturns]

theorem withReturns_eq_self {t : Text} (h : '\n' ∉ t) : withReturns t = t := by
  induction t with
  | nil => rfl
  | cons c t ih =>
    obtain ⟨hc, ht⟩ := not_or.mp (fun hmem => h (List.mem_cons.mpr hmem))
    rw [withReturns_cons, ih ht, withReturns_singleton, if_neg (Ne.symm hc)]
    rfl

theorem length_withReturns (t : Text) : (withReturns t).length = t.length + t.count '\n' := by
  induction t with
  | nil => rfl
  | cons c t ih =>
    rw [withReturns_cons, List.length_append, ih, withReturns_singleton]
    by_cases hc : c = '\n' <;> simp [hc] <;> omega

theorem count_withReturns (t : Text) : (withReturns t).count '\n' = t.count '\n' := by
  induction t with
  | nil => rfl
  | cons c t ih =>
    rw [withReturns_cons, List.count_append, ih, withReturns_singleton]
    by_cases hc : c = '\n' <;> simp [hc, Nat.add_comm]

theorem lastLine_withReturns (t : Text) : lastLine (withReturns t) = lastLine t := by
  induction t using List.reverseRecOn with
  | nil => rfl
  | append_singleton t c ih =>
    rw [withReturns_append, withReturns_singleton, lastLine_concat]
    by_cases hc : c = '\n'
    · simp [hc, lastLine_append]
      decide
    · rw [if_neg hc, if_neg hc, lastLine_concat, if_neg hc, ih]

/-- The carriage return before a line feed is the end of the line. -/
theorem takeWhile_withReturns (t : Text) :
    (withReturns t).takeWhile (· ≠ '\n') =
      t.takeWhile (· ≠ '\n') ++ if '\n' ∈ t then ['\r'] else [] := by
  induction t with
  | nil => rfl
  | cons c t ih =>
    rw [withReturns_cons, withReturns_singleton]
    by_cases hc : c = '\n'
    · simp [hc]
    · have hne : '\n' ≠ c := Ne.symm hc
      simpa [hc, hne] using ih

/-- Where a position of a text goes when the line feeds before it get their carriage returns. -/
def place (t : Text) (pos : Int) : Int := (withReturns (t.take pos.toNat)).length

theorem place_eq {t before after : Text} {pos : Int} (h : t = before ++ after)
    (hpos : pos = before.length) : place t pos = (withReturns before).length := by
  rw [place, hpos, h, Int.toNat_natCast, List.take_left]

end Text

/-! ## On its line -/

namespace Diagnostic

theorem withoutReturn_eq_self {line : Text} (h : '\r' ∉ line) : withoutReturn line = line := by
  rw [withoutReturn, if_neg]
  exact fun hlast => h (List.mem_of_getLast? hlast)

theorem withoutReturn_concat (line : Text) : withoutReturn (line ++ ['\r']) = line := by
  simp [withoutReturn]

/-- What is written does not depend on offsets. -/
theorem render_congr {d d' : Diagnostic} (hmessage : d'.message = d.message)
    (hline : d'.line = d.line) (hcolumn : d'.column = d.column)
    (hsource : d'.sourceLine = d.sourceLine) : d'.render = d.render := by
  unfold render
  rw [hmessage, hline, hcolumn, hsource]

/-- The same diagnostic in the text with carriage returns, of which there is one for each line before. -/
structure WithReturns (d d' : Diagnostic) : Prop where
  message : d'.message = d.message
  line : d'.line = d.line
  column : d'.column = d.column
  sourceLine : d'.sourceLine = d.sourceLine
  render : d'.render = d.render
  offset : d'.offset = d.offset + (d.line - 1)

theorem locate_withReturns {t : Text} {o : Nat} (message : Text) (h : o ≤ t.length) (hr : '\r' ∉ t) :
    (locate t o message).WithReturns (locate t.withReturns (t.place o) message) := by
  obtain ⟨a, b, rfl, rfl⟩ : ∃ a b, t = a ++ b ∧ o = a.length :=
    ⟨t.take o, t.drop o, (List.take_append_drop o t).symm, (List.length_take_of_le h).symm⟩
  have h' : a.withReturns.length ≤ (a.withReturns ++ b.withReturns).length := by simp
  rw [Text.place_eq rfl rfl, Text.withReturns_append]
  have hmessage : (locate (a.withReturns ++ b.withReturns) a.withReturns.length message).message =
      (locate (a ++ b) a.length message).message := by
    rw [locate_message, locate_message]
  have hline : (locate (a.withReturns ++ b.withReturns) a.withReturns.length message).line =
      (locate (a ++ b) a.length message).line := by
    rw [locate_line _ h, locate_line _ h', List.take_left, List.take_left, Text.count_withReturns]
  have hcolumn : (locate (a.withReturns ++ b.withReturns) a.withReturns.length message).column =
      (locate (a ++ b) a.length message).column := by
    rw [locate_column _ h, locate_column _ h', List.take_left, List.take_left,
      Text.lastLine_withReturns]
  have hsource : (locate (a.withReturns ++ b.withReturns) a.withReturns.length message).sourceLine =
      (locate (a ++ b) a.length message).sourceLine := by
    have hno : '\r' ∉ a.lastLine ++ b.takeWhile (· ≠ '\n') := by
      intro hmem
      refine hr ?_
      rcases List.mem_append.mp hmem with hmem | hmem
      · exact List.mem_append_left _ ((List.rtakeWhile_suffix _ a).subset hmem)
      · exact List.mem_append_right _ ((List.takeWhile_prefix _).subset hmem)
    rw [locate_sourceLine _ h, locate_sourceLine _ h', List.take_left, List.take_left,
      List.drop_left, List.drop_left, Text.lastLine_withReturns, Text.takeWhile_withReturns,
      ← List.append_assoc, withoutReturn_eq_self hno]
    -- The last line of the text has no carriage return to be dropped.
    split
    · exact withoutReturn_concat _
    · rw [List.append_nil, withoutReturn_eq_self hno]
  refine ⟨hmessage, hline, hcolumn, hsource, render_congr hmessage hline hcolumn hsource, ?_⟩
  rw [locate_offset _ h, locate_offset _ h', locate_line _ h, List.take_left,
    Text.length_withReturns]
  omega

end Diagnostic

/-! ## Moving positions -/

def Lexeme.move (g : Int → Int) (l : Lexeme) : Lexeme := { l with pos := g l.pos }

def Failure.move (g : Int → Int) (f : Failure) : Failure := { f with pos := g f.pos }

namespace State

variable {names : Vocabulary} {g : Int → Int} {q q' : State} {l : Lexeme} {f : Failure}

/-- Only behind a name does a state hold a position. -/
def move (g : Int → Int) : State → State
  | afterName name pos => afterName name (g pos)
  | q => q

theorem atEnd_move (q : State) : (q.move g).atEnd = q.atEnd := by cases q <;> rfl

theorem Goes.move (h : Goes names q l q') : Goes names (q.move g) (l.move g) (q'.move g) := by
  cases h with
  | selector w pos => exact .selector w (g pos)
  | opening pos => exact .opening (g pos)
  | name w pos => exact .name w (g pos)
  | closing pos => exact .closing (g pos)
  | colon hn => exact .colon hn
  | value w pos => exact .value w (g pos)
  | semicolon pos => exact .semicolon (g pos)

theorem Stops.move (h : Stops names q l f) : Stops names (q.move g) (l.move g) (f.move g) := by
  cases h with
  | selector c pos => exact .selector c (g pos)
  | opening hl => exact .opening hl
  | name hc => exact .name hc
  | colon hl => exact .colon hl
  | value c pos => exact .value c (g pos)
  | semicolon hl => exact .semicolon hl
  | unknown hn => exact .unknown hn

/-- The automaton only hands positions on, so it fails at the same lexeme wherever that stands. -/
theorem verdict_move (g : Int → Int) (stop : Int) (q : State) (ls : List Lexeme) :
    verdict names (g stop) (q.move g) (ls.map (Lexeme.move g)) =
      (verdict names stop q ls).map (Failure.move g) := by
  induction ls generalizing q with
  | nil =>
    rw [List.map_nil, verdict_nil, verdict_nil, atEnd_move, Option.map_map]
    rfl
  | cons l ls ih =>
    rw [List.map_cons]
    rcases step_spec names q l with ⟨q', hs, hgoes⟩ | ⟨f, hs, hstops⟩
    · rw [verdict_cons_ok hs, verdict_cons_ok (step_eq_ok.mpr hgoes.move), ih]
    · rw [verdict_cons_error hs, verdict_cons_error (step_eq_error.mpr hstops.move), Option.map_some]

end State

/-! ## Lexemes -/

theorem blanks_withReturns {c : Char} (hc : isBlank c = true) : Blanks (Text.withReturns [c]) := by
  rw [Text.withReturns_singleton]
  split
  · decide
  · simpa [Blanks] using hc

theorem withReturns_of_not_blank {c : Char} (hc : isBlank c = false) : Text.withReturns [c] = [c] := by
  rw [Text.withReturns_singleton, if_neg]
  rintro rfl
  cases hc

theorem withReturns_of_isWord {w : Text} (hw : IsWord w) : w.withReturns = w :=
  Text.withReturns_eq_self fun hmem => by cases hw.2 _ hmem

theorem noLetter_withReturns {t : Text} (ht : NoLetter t) : NoLetter t.withReturns := by
  cases t with
  | nil => exact ht
  | cons c t =>
    have hc := ht c rfl
    rw [Text.withReturns_cons, Text.withReturns_singleton]
    split
    · exact .cons (by decide) _
    · exact .cons hc _

/-- Behind the text before it, a text has its lexemes where their places are. -/
theorem lexemes_withReturns (before : Text) {t source : Text} {pos : Int}
    (hsource : source = before ++ t) (hpos : pos = before.length) :
    lexemes before.withReturns.length t.withReturns =
      (lexemes pos t).map (Lexeme.move source.place) := by
  -- What has been read moves over to the text before.
  induction pos, t using lexemes.induct generalizing before with
  | case1 pos =>
    rw [lexemes_nil]
    exact lexemes_nil _
  | case2 pos c cs hb ih =>
    have hrest := ih (before ++ [c]) (by simp [hsource]) (by simp [hpos])
    rw [Text.pos_withReturns] at hrest
    rw [lexemes_blank hb, ← hrest, Text.withReturns_cons, lexemes_blanks (blanks_withReturns hb)]
  | case3 pos c cs hb hc ih =>
    obtain ⟨hw, hsplit⟩ := exists_run hc cs
    have hno := noLetter_dropWhile cs
    have hrest := ih (before ++ (c :: cs.takeWhile isLetter))
      (by rw [hsource, hsplit, List.append_assoc]) (by rw [hpos, List.length_append]; omega)
    rw [Text.pos_withReturns, withReturns_of_isWord hw] at hrest
    rw [hsplit, Text.withReturns_append, withReturns_of_isWord hw,
      lexemes_word hw (noLetter_withReturns hno), lexemes_word hw hno, List.map_cons, ← hrest,
      Lexeme.move, Text.place_eq hsource hpos]
  | case4 pos c cs hb hc ih =>
    simp only [Bool.not_eq_true] at hb hc
    have hrest := ih (before ++ [c]) (by simp [hsource]) (by simp [hpos])
    rw [Text.pos_withReturns, withReturns_of_not_blank hb] at hrest
    rw [Text.withReturns_cons, withReturns_of_not_blank hb, List.singleton_append,
      lexemes_mark hb hc, lexemes_mark hb hc, List.map_cons, ← hrest, Lexeme.move,
      Text.place_eq hsource hpos]
    rfl

theorem tokens_withReturns (t : Text) : tokens t.withReturns = tokens t := by
  have hlexemes := lexemes_withReturns [] (t := t) rfl rfl
  have htokens := congrArg (List.map Lexeme.token) hlexemes
  rw [List.map_map] at htokens
  exact htokens

theorem verdict_withReturns (names : Vocabulary) (t : Text) :
    verdict names t.withReturns = (verdict names t).map (Failure.move t.place) := by
  have hstop : (t.withReturns.length : Int) = t.place t.length := by
    rw [Text.place, Int.toNat_natCast, List.take_length]
  have hlexemes := lexemes_withReturns [] (t := t) rfl rfl
  rw [verdict, verdict, hstop, ← State.verdict_move]
  exact congrArg _ hlexemes

/-! ## Reading with carriage returns -/

section
variable {t : Text} {s s' : Sheet} {f : Failure} {e : ParseError}

theorem accepted_withReturns : Accepted t.withReturns ↔ Accepted t := by
  rw [accepted_iff_verdict, accepted_iff_verdict, verdict_withReturns, Option.map_eq_none_iff]

theorem content_withReturns (h : Sheet.parse? t = .ok s)
    (h' : Sheet.parse? t.withReturns = .ok s') : s'.content = s.content := by
  have htokens := (derivesSheet_iff.mp (derives_content_of_parse? h)).1
  have htokens' := (derivesSheet_iff.mp (derives_content_of_parse? h')).1
  rw [tokens_withReturns] at htokens'
  exact content_eq_of_tokens (htokens'.symm.trans htokens)

theorem error_withReturns (hr : '\r' ∉ t) (hf : verdict .properties t = some f) :
    (f.error t).diagnostic.WithReturns ((f.move t.place).error t.withReturns).diagnostic := by
  obtain ⟨o, ho, hpos⟩ := exists_pos_of_verdict hf
  simp only [Failure.error, Failure.move, hpos]
  exact Diagnostic.locate_withReturns f.fault.message ho hr

theorem parse?_withReturns_error (hr : '\r' ∉ t) (h : Sheet.parse? t = .error e) :
    ∃ e', Sheet.parse? t.withReturns = .error e' ∧ e'.kind = e.kind ∧
      e.diagnostic.WithReturns e'.diagnostic := by
  obtain ⟨f, hf, rfl⟩ := parse?_eq_error.mp h
  refine ⟨_, parse?_eq_error.mpr ⟨f.move t.place, ?_, rfl⟩, rfl, error_withReturns hr hf⟩
  rw [verdict_withReturns, hf]
  rfl

end

/-- Whether the lines of a text end with a line feed or with a carriage return and a line feed makes no
difference to the sheet. An error is of the same kind, at the same place of the same line, with the same
written form. Its offset counts the carriage returns of the lines before. -/
theorem parse_withReturns (t : Text) (hr : '\r' ∉ t) :
    ((∃ s, (Parser.fresh.parse t.withReturns).1 = .ok s) ↔
      ∃ s, (Parser.fresh.parse t).1 = .ok s) ∧
    (∀ s s', (Parser.fresh.parse t).1 = .ok s → (Parser.fresh.parse t.withReturns).1 = .ok s' →
      s'.same s = true) ∧
    ∀ r, (Parser.fresh.parse t).1 = .error r → ∃ e e', r = .rejected e ∧
      (Parser.fresh.parse t.withReturns).1 = .error (.rejected e') ∧ e'.kind = e.kind ∧
        e.diagnostic.WithReturns e'.diagnostic := by
  simp only [Parser.fresh_parse_ending, Sheet.ending_eq_ok, Sheet.ending_eq_error]
  refine ⟨accepted_withReturns, fun s s' h h' => ?_, ?_⟩
  · rw [Sheet.same_iff]
    exact content_withReturns h h'
  · rintro r ⟨e, he, rfl⟩
    obtain ⟨e', he', hsame⟩ := parse?_withReturns_error hr he
    exact ⟨e, e', rfl, ⟨e', he', rfl⟩, hsame⟩

/-- On the second line, behind one carriage return. -/
theorem parse_withReturns_second_line :
    ∃ e e', (Parser.fresh.parse ['a', '\n', ';']).1 = .error (.rejected e) ∧
      (Parser.fresh.parse ['a', '\r', '\n', ';']).1 = .error (.rejected e') ∧
      e'.diagnostic.render = e.diagnostic.render ∧
      e.diagnostic.offset = 2 ∧ e'.diagnostic.offset = 3 := by
  have hv : verdict .properties ['a', '\n', ';'] = some ⟨.missingMark ['{'], 2⟩ := by
    rw [verdict, lexemes_letter (by decide) (.cons (by decide) _), lexemes_blank (by decide),
      lexemes_mark (by decide) (by decide), lexemes_nil]
    rfl
  have hparse : (Parser.fresh.parse ['a', '\n', ';']).1 =
      .error (.rejected (Failure.error ['a', '\n', ';'] ⟨.missingMark ['{'], 2⟩)) := by
    rw [Parser.fresh_parse_ending, Sheet.ending_eq_error]
    exact ⟨_, parse?_eq_error.mpr ⟨_, hv, rfl⟩, rfl⟩
  obtain ⟨e, e', he, hfails, -, hsame⟩ :=
    (parse_withReturns ['a', '\n', ';'] (by decide)).2.2 _ hparse
  cases he
  exact ⟨_, e', hparse, hfails, hsame.render, rfl, hsame.offset⟩

end Stylesheet
