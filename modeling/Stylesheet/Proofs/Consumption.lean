import Stylesheet.Proofs.Canonical
import Stylesheet.Proofs.Reads

/-!
# Nothing is left out

From its position to the one behind it, a declaration or a rule is read character by character: without
blanks, what stands between the positions is what it is written as. So every turn of a loop gets further
on, and the turns come to an end.
-/

namespace Stylesheet

/-! ## What is between two positions -/

def Declaration.written (d : Declaration) : Text := d.kind.name ++ [':'] ++ d.value.text ++ [';']

def Rule.written (r : Rule) : Text :=
  r.selector.text ++ ['{'] ++ r.declarations.flatMap Declaration.written ++ ['}']

/-- From one position up to another, where `last` is the character before it, a source without its blanks
is a text. -/
structure Consumes (source : Text) (pos next : Int) (last : Char) (written : Text) : Prop where
  lt : pos < next
  le_length : next ≤ source.length
  last_eq : source.at? (next - 1) = some last
  squeeze_eq : (source.slice pos next).squeeze = written

section
variable {names : Vocabulary} {t : Text}

theorem squeeze_eq_of_tokens {ts : List Token} (h : tokens t = ts) :
    t.squeeze = ts.flatMap Token.text := by
  rw [squeeze_eq 0, map_token_eq_tokens, h]

theorem text_of_tokens (d : Declaration) : d.content.tokens.flatMap Token.text = d.written := by
  simp [DeclarationContent.tokens, Declaration.content, Declaration.written, Token.text]

theorem Declaration.squeeze_of_derives {d : Declaration}
    (h : DerivesDeclaration names t d.content) : t.squeeze = d.written := by
  rw [squeeze_eq_of_tokens (tokens_of_derivesDeclaration h).1, text_of_tokens]

theorem Rule.squeeze_of_derives {r : Rule} (h : DerivesRule names t r.content) :
    t.squeeze = r.written := by
  rw [squeeze_eq_of_tokens (tokens_of_derivesRule h).1]
  simp [RuleContent.tokens, Rule.content, Rule.written, Token.text, List.flatMap_assoc,
    List.flatMap_map, text_of_tokens]

theorem exists_semicolon {d : DeclarationContent} (h : DerivesDeclaration names t d) :
    ∃ v, t = v ++ [';'] := by
  cases h with
  | mk => exact ⟨_, rfl⟩

end

section
variable {source : Text} {pos next : Int}

theorem Cursor.Covers.consumes {c d : Cursor} {b v written : Text} {x : Char} (h₀ : 0 ≤ pos)
    (hle : pos ≤ source.length) (hc : Cursor.ofPos? source pos = some c)
    (hcovers : c.Covers d (b ++ (v ++ [x]))) (hb : Blanks b)
    (hwritten : (v ++ [x]).squeeze = written) : Consumes source pos d.pos x written := by
  obtain ⟨before, rfl, hpos⟩ := in_of_ofPos? hc h₀ hle
  obtain ⟨hrest, hnext⟩ := hcovers
  obtain rfl := pos_of_ofPos? hc
  have hsource : before ++ c.rest = before ++ (b ++ (v ++ [x])) ++ d.rest := by
    simp [hrest]
  have hend : d.pos = ((before ++ (b ++ (v ++ [x]))).length : Nat) := by
    rw [hnext, hpos]
    simp only [List.length_append]
    omega
  rw [hsource]
  refine ⟨?_, ?_, ?_, ?_⟩
  · simp only [hnext, List.length_append, List.length_singleton]
    omega
  · simp only [hend, List.length_append]
    omega
  · have hlast : d.pos - 1 = ((before ++ (b ++ v)).length : Nat) := by
      simp only [hend, List.length_append, List.length_singleton]
      omega
    rw [hlast, Text.at?, if_pos (by omega), Int.toNat_natCast]
    simp
  · rw [hpos, hend, Text.slice_of_nat _ (by simp) (by simp), List.take_left, List.drop_left,
      Text.squeeze_append, Text.squeeze_blanks hb, hwritten, List.nil_append]

end

/-! ## Turns -/

/-- The turns of a loop from a position on, one after another, up to the end or a stop. -/
inductive Turns {α : Type} (turn : Int → Except Stop (Turn α)) :
    Int → Except Stop (List α × Int) → Prop
  | done {pos last : Int} : turn pos = .ok (.done last) → Turns turn pos (.ok ([], last))
  | stop {pos : Int} {stop : Stop} : turn pos = .error stop → Turns turn pos (.error stop)
  | read {pos next : Int} {a : α} {o : Except Stop (List α × Int)} :
      turn pos = .ok (.read a next) → Turns turn next o →
      Turns turn pos (o >>= fun x => .ok (a :: x.1, x.2))

namespace Loop

variable {source : Text} {α : Type} {l : Loop source α} {pos : Int} {o : Except Stop (List α × Int)}

theorem turns_run (l : Loop source α) (pos : Int) : Turns l.turn pos (l.run pos) := by
  fun_induction Loop.run l pos with
  | case1 pos stop hturn => exact .stop hturn
  | case2 pos last hturn => exact .done hturn
  | case3 pos a next hturn ih => exact .read hturn ih

theorem run_eq_of_turns (h : Turns l.turn pos o) : l.run pos = o := by
  induction h with
  | done hturn =>
    rw [run_eq, hturn]
    rfl
  | stop hturn =>
    rw [run_eq, hturn]
    rfl
  | read hturn _ ih =>
    rw [run_eq, hturn, ← ih]
    rfl

end Loop

/-- Each turn that reads something gets further on, and whatever they read, the turns come to an end. -/
structure Progresses {α : Type} (source : Text) (turn : Int → Except Stop (Turn α))
    (run : Int → Except Stop (List α × Int)) : Prop where
  advances : ∀ pos a next, turn pos = .ok (.read a next) → pos < next ∧ next ≤ source.length
  turns_iff : ∀ pos o, Turns turn pos o ↔ run pos = o

theorem Loop.progresses {source : Text} {α : Type} (l : Loop source α) :
    Progresses source l.turn l.run where
  advances _ _ _ := l.advances
  turns_iff pos _ := ⟨l.run_eq_of_turns, fun h => h ▸ l.turns_run pos⟩

namespace Report

variable {source : Text} {listening : Bool} {pos next : Int} (h₀ : 0 ≤ pos) (hle : pos ≤ source.length)
include h₀ hle

theorem consumes_of_declaration {d : Declaration}
    (h : (declaration source listening pos).outcome = .ok (d, next)) :
    Consumes source pos next ';' d.written := by
  rw [declaration_outcome] at h
  obtain ⟨c, ⟨_, e⟩, hc, hread, hgive⟩ := outcomeAt_eq_ok.mp h
  cases hgive
  obtain ⟨-, b, t, hb, ht, hcovers⟩ := Cursor.covers_declaration (Cursor.in_of_ofPos? hc h₀ hle) hread
  have hsqueeze := Declaration.squeeze_of_derives ht
  obtain ⟨v, rfl⟩ := exists_semicolon ht
  exact hcovers.consumes h₀ hle hc hb hsqueeze

theorem consumes_of_rule {r : Rule} (h : (rule source listening pos).outcome = .ok (r, next)) :
    Consumes source pos next '}' r.written := by
  rw [rule_outcome] at h
  obtain ⟨c, ⟨_, e⟩, hc, hread, hgive⟩ := outcomeAt_eq_ok.mp h
  cases hgive
  obtain ⟨-, -, b, t, hb, ht, -, hcovers⟩ := Cursor.covers_rule (Cursor.in_of_ofPos? hc h₀ hle) hread
  have hsqueeze := Rule.squeeze_of_derives ht
  obtain ⟨v, rfl, -⟩ := exists_brace ht
  exact hcovers.consumes h₀ hle hc hb hsqueeze

omit h₀ hle

/-- A declaration and a rule are what stands between their two positions, up to blanks, to the last
character. So each turn of the loop in a rule and of the loop over the rules gets further on, and from
every position, on accepted texts and on others, the turns come to the end that reading has. -/
theorem nothing_left_out (source : Text) (listening : Bool) :
    (∀ pos : Int, 0 ≤ pos → pos ≤ source.length →
      (∀ d next, (declaration source listening pos).outcome = .ok (d, next) →
        Consumes source pos next ';' d.written) ∧
      ∀ r next, (rule source listening pos).outcome = .ok (r, next) →
        Consumes source pos next '}' r.written) ∧
    Progresses source (Indexed.blockTurn source) (Indexed.block source).run ∧
    Progresses source (Indexed.sheetTurn source) (Indexed.rules source).run ∧
    (∀ pos, (rule source listening pos).outcome = Indexed.rule source pos) ∧
    (sheet source listening).outcome = Indexed.sheet source :=
  ⟨fun _ h₀ hle => ⟨fun _ _ => consumes_of_declaration h₀ hle, fun _ _ => consumes_of_rule h₀ hle⟩,
    (Indexed.block source).progresses, (Indexed.rules source).progresses,
    fun pos => (rule_settles pos).by_index, sheet_eq_indexed⟩

/-- A rule with blanks in it, and the declaration in its block. -/
theorem between_blanks :
    let t : Text := [' ', 'a', '{', '\n', 'c', 'o', 'l', 'o', 'r', ':', ' ', 'b', ' ', ';', '}', ' ']
    (∃ d, (declaration t true 3).outcome = .ok (d, 14) ∧ Consumes t 3 14 ';' d.written) ∧
    ∃ r, (rule t true 0).outcome = .ok (r, 15) ∧ Consumes t 0 15 '}' r.written := by
  intro t
  have hd : (declaration t true 3).outcome = .ok (⟨.color, ⟨t, 11, 12⟩⟩, 14) := by decide +kernel
  have hr : (rule t true 0).outcome = .ok (⟨⟨t, 1, 2⟩, [⟨.color, ⟨t, 11, 12⟩⟩]⟩, 15) := by
    decide +kernel
  obtain ⟨hbetween, -⟩ := nothing_left_out t true
  exact ⟨⟨_, hd, (hbetween 3 (by decide) (by decide)).1 _ _ hd⟩,
    ⟨_, hr, (hbetween 0 (by decide) (by decide)).2 _ _ hr⟩⟩

end Report

end Stylesheet
