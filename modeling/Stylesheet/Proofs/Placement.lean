import Mathlib.Data.List.Forall2
import Stylesheet.Proofs.Positions

/-!
# Productions in context

Other text in front of a source moves what is read there, and what fails there, and changes nothing else.
Behind the last mark of a declaration or a rule, nothing is looked at: any text may follow.
-/

namespace Stylesheet

/-! ## The same values behind other text -/

variable {x y z source source' : Text}

/-- The same text, as many places further on as `x` is long. -/
structure Span.Behind (x : Text) (s s' : Span) : Prop where
  start : s'.start = x.length + s.start
  stop : s'.stop = x.length + s.stop
  text : s'.text = s.text

structure Declaration.Behind (x : Text) (d d' : Declaration) : Prop where
  kind : d'.kind = d.kind
  value : d.value.Behind x d'.value

structure Rule.Behind (x : Text) (r r' : Rule) : Prop where
  selector : r.selector.Behind x r'.selector
  declarations : List.Forall₂ (Declaration.Behind x) r.declarations r'.declarations

def PositionBehind (x : Text) (p q : Int) : Prop := q = x.length + p

/-- A value with the position behind it. -/
structure PlacedBehind {α β : Type} (x : Text) (values : α → β → Prop) (a : α × Int) (b : β × Int) :
    Prop where
  value : values a.1 b.1
  next : PositionBehind x a.2 b.2

/-- What comes out, as many places further on as `x` is long. -/
abbrev ComesOutBehind {α β : Type} (x : Text) (values : α → β → Prop) :
    Except Stop α → Except Stop β → Prop :=
  Corresponds (Stop.Rejects (ParseError.Behind x)) values

theorem Span.Inside.behind {s : Span} (h : s.Inside source) (x : Text) :
    (s.behind x).Inside (x ++ source) := by
  obtain ⟨rfl, hstart, hlt, hstop⟩ := h
  refine ⟨rfl, ?_, ?_, ?_⟩ <;> simp only [Span.behind, List.length_append] <;> omega

theorem Rule.Inside.behind {r : Rule} (h : r.Inside source) (x : Text) :
    (r.mapSpans (Span.behind x)).Inside (x ++ source) := by
  refine ⟨h.1.behind x, ?_⟩
  simp only [Rule.mapSpans, List.forall_mem_map]
  exact fun d hd => (h.2 d hd).behind x

theorem Span.Inside.behind_span {s : Span} (h : s.Inside source) (x : Text) :
    s.Behind x (s.behind x) := by
  refine ⟨rfl, rfl, ?_⟩
  obtain ⟨_, start, stop⟩ := s
  obtain ⟨rfl, hstart, hlt, hstop⟩ := h
  simp only at hstart hlt hstop
  obtain ⟨a, rfl⟩ := Int.eq_ofNat_of_zero_le hstart
  obtain ⟨b, rfl⟩ := Int.eq_ofNat_of_zero_le (a := stop) (by omega)
  simp only [Span.behind, text, ← Int.natCast_add]
  rw [Text.slice_of_nat _ (by simp; omega) (by simp; omega),
    Text.slice_of_nat _ (by omega) (by omega), List.take_length_add_append, List.drop_length_add_append]

theorem Span.Behind.before {s s' : Span} (h : s.Behind x s') (hin : s'.Inside source) (z : Text) :
    s.Behind x (s'.before z) :=
  ⟨h.start, h.stop, (hin.text_before z).trans h.text⟩

theorem Rule.behind_mapSpans {r : Rule} {f : Span → Span} (hr : r.Inside source)
    (hf : ∀ s : Span, s.Inside source → s.Behind x (f s)) : r.Behind x (r.mapSpans f) := by
  refine ⟨hf _ hr.1, ?_⟩
  simp only [Rule.mapSpans, List.forall₂_map_right_iff]
  exact List.forall₂_same.mpr fun d hd => ⟨rfl, hf _ (hr.2 d hd)⟩

namespace Cursor

variable {c d : Cursor} {pos : Int}

/-! ## Where productions fail -/

/-- A failure is reported at a cursor of the source. -/
def FailsIn {α : Type} (source : Text) (r : Except Failure α) : Prop :=
  ∀ f, r = .error f → ∃ d : Cursor, d.In source ∧ f.pos = d.pos

theorem failsIn_ok {α : Type} (a : α) : FailsIn source (.ok a) := by
  intro f h
  cases h

theorem FailsIn.bind {α β : Type} {r : Except Failure α} {k : α → Except Failure β}
    (h : FailsIn source r) (hk : ∀ a, r = .ok a → FailsIn source (k a)) :
    FailsIn source (r >>= k) := by
  cases r with
  | error f =>
    intro g hg
    cases hg
    exact h f rfl
  | ok a => exact hk a rfl

theorem failsIn_mark (hc : c.In source) (m : Text) : FailsIn source (c.mark m) := by
  intro f h
  unfold mark at h
  split at h
  · cases h
    exact ⟨c, hc, rfl⟩
  · split at h <;> cases h
    exact ⟨c, hc, rfl⟩

theorem failsIn_word (hc : c.In source) : FailsIn source (c.word source) := by
  intro f h
  unfold word at h
  split at h <;> cases h
  exact ⟨c, hc, rfl⟩

theorem failsIn_declaration (hc : c.In source) : FailsIn source (c.declaration source) := by
  unfold declaration
  refine (failsIn_word hc.skip).bind fun ⟨name, c₁⟩ hname => ?_
  have hc₁ := hc.skip.word hname
  refine (failsIn_mark hc₁.skip _).bind fun c₂ hcolon => ?_
  have hc₂ := hc₁.skip.mark hcolon
  cases PropertyKind.ofName? name.text with
  | none =>
    intro f h
    cases h
    exact ⟨c, hc, rfl⟩
  | some kind =>
    refine (failsIn_word hc₂.skip).bind fun ⟨value, c₃⟩ hvalue => ?_
    have hc₃ := hc₂.skip.word hvalue
    exact (failsIn_mark hc₃.skip _).bind fun c₄ _ => failsIn_ok _

theorem failsIn_declarations {c : Cursor} (hc : c.In source) : FailsIn source (c.declarations source) := by
  rw [declarations_eq]
  split
  · refine (failsIn_declaration hc.skip).bind fun ⟨p, next⟩ hp => ?_
    have := length_of_declaration hp
    have := length_skip_le c
    exact (failsIn_declarations (hc.skip.declaration hp)).bind fun ⟨ps, last⟩ _ => failsIn_ok _
  · exact failsIn_ok _
termination_by c.rest.length

theorem failsIn_rule (hc : c.In source) : FailsIn source (c.rule source) := by
  unfold rule
  refine (failsIn_word hc.skip).bind fun ⟨selector, c₁⟩ hselector => ?_
  have hc₁ := hc.skip.word hselector
  refine (failsIn_mark hc₁.skip _).bind fun c₂ hopen => ?_
  have hc₂ := hc₁.skip.mark hopen
  refine (failsIn_declarations hc₂).bind fun ⟨ps, c₃⟩ hblock => ?_
  have hc₃ := hc₂.declarations hblock
  exact (failsIn_mark hc₃.skip _).bind fun c₄ _ => failsIn_ok _

theorem In.exists_pos (hc : c.In source) : ∃ o : Nat, o ≤ source.length ∧ c.pos = o := by
  obtain ⟨before, rfl, hp⟩ := hc
  exact ⟨before.length, by simp, hp⟩

theorem FailsIn.error_behind {α : Type} {r : Except Failure α} (h : FailsIn source r) {f : Failure}
    (hf : r = .error f) (x : Text) : (f.error source).Behind x ((f.behind x).error (x ++ source)) := by
  obtain ⟨d, hd, hpos⟩ := h f hf
  obtain ⟨o, ho, hd⟩ := hd.exists_pos
  exact error_behind_of_pos ho (hpos.trans hd) x

/-! ## Cursors behind other text -/

theorem ofPos?_behind (x : Text) (h : 0 ≤ pos) :
    ofPos? (x ++ source) (x.length + pos) = (ofPos? source pos).map (behind x) := by
  obtain ⟨n, rfl⟩ := Int.eq_ofNat_of_zero_le h
  rw [ofPos?_of_nonneg h, ofPos?_of_nonneg (by omega), ← Int.natCast_add, Int.toNat_natCast,
    Int.toNat_natCast, List.drop_length_add_append]
  rfl

end Cursor

/-! ## Outcomes behind other text -/

namespace Report

variable {α α' β β' : Type} {c : Cursor} {pos pos' : Int} {listening : Bool}

/-- Where a cursor reads what another one does, further on, the outcomes correspond. -/
theorem corresponds_outcomeAt {errors : ParseError → ParseError → Prop} {values : β → β' → Prop}
    {read : Cursor → Except Failure α} {read' : Cursor → Except Failure α'} {give : α → β}
    {give' : α' → β'} {g : α → α'} (h : Cursor.ofPos? source pos = some c)
    (h' : Cursor.ofPos? source' pos' = some (c.behind x))
    (hread : read' (c.behind x) = behind x g (read c))
    (herror : ∀ f, read c = .error f → errors (f.error source) ((f.behind x).error source'))
    (hvalue : ∀ a, read c = .ok a → values (give a) (give' (g a))) :
    Corresponds (Stop.Rejects errors) values (outcomeAt source read give pos)
      (outcomeAt source' read' give' pos') := by
  simp only [outcomeAt, h, h', hread]
  cases hr : read c with
  | error f => exact .error (.mk (herror f hr))
  | ok a => exact .ok (hvalue a hr)

section

variable (h₀ : 0 ≤ pos) (h : pos ≤ y.length)
include h₀ h

theorem comesOutBehind {values : β → β' → Prop} {read : Cursor → Except Failure α}
    {read' : Cursor → Except Failure α'} {give : α → β} {give' : α' → β'} {g : α → α'}
    (hread : ∀ c : Cursor, c.In y → read' (c.behind x) = behind x g (read c))
    (hfails : ∀ c : Cursor, c.In y → Cursor.FailsIn y (read c))
    (hvalue : ∀ c a, c.In y → read c = .ok a → values (give a) (give' (g a))) :
    ComesOutBehind x values (outcomeAt y read give pos)
      (outcomeAt (x ++ y) read' give' (x.length + pos)) := by
  have hat : Cursor.ofPos? y pos = _ := Cursor.ofPos?_of_nonneg h₀
  have hin := Cursor.in_of_ofPos? hat h₀ h
  have hat' : Cursor.ofPos? (x ++ y) (x.length + pos) = _ := Cursor.ofPos?_behind x h₀
  rw [hat] at hat'
  exact corresponds_outcomeAt hat hat' (hread _ hin) (fun f hf => (hfails _ hin).error_behind hf x)
    (fun a ha => hvalue _ a hin ha)

theorem blanks_behind : ComesOutBehind x (PositionBehind x)
    (blanks y listening pos).outcome (blanks (x ++ y) listening (x.length + pos)).outcome := by
  rw [blanks_outcome, blanks_outcome]
  refine comesOutBehind h₀ h (g := Cursor.behind x) (fun c _ => ?_) (fun _ _ => Cursor.failsIn_ok _) ?_
  · rw [Cursor.skip_behind]
    rfl
  · intro c d _ _
    rfl

theorem mark_behind (m : Text) : ComesOutBehind x (PositionBehind x)
    (mark y listening pos m).outcome (mark (x ++ y) listening (x.length + pos) m).outcome := by
  rw [mark_outcome, mark_outcome]
  refine comesOutBehind h₀ h (fun c _ => Cursor.mark_behind x m c)
    (fun c hc => Cursor.failsIn_mark hc m) ?_
  intro c d _ _
  rfl

theorem word_behind : ComesOutBehind x (PlacedBehind x (Span.Behind x))
    (word y listening pos).outcome (word (x ++ y) listening (x.length + pos)).outcome := by
  rw [word_outcome, word_outcome]
  refine comesOutBehind h₀ h (fun c _ => Cursor.word_behind x y c) (fun c hc => Cursor.failsIn_word hc) ?_
  rintro c ⟨s, d⟩ hc hs
  exact ⟨⟨rfl, rfl, Cursor.text_behind hc hs x⟩, rfl⟩

theorem declaration_behind : ComesOutBehind x (PlacedBehind x (Declaration.Behind x))
    (declaration y listening pos).outcome
    (declaration (x ++ y) listening (x.length + pos)).outcome := by
  rw [declaration_outcome, declaration_outcome]
  refine comesOutBehind h₀ h (fun c hc => Cursor.declaration_behind hc x)
    (fun c hc => Cursor.failsIn_declaration hc) ?_
  rintro c ⟨p, d⟩ hc hp
  exact ⟨⟨rfl, (Cursor.covers_declaration hc hp).1.behind_span x⟩, rfl⟩

theorem rule_behind : ComesOutBehind x (PlacedBehind x (Rule.Behind x))
    (rule y listening pos).outcome (rule (x ++ y) listening (x.length + pos)).outcome := by
  rw [rule_outcome, rule_outcome]
  refine comesOutBehind h₀ h (fun c hc => Cursor.rule_behind hc x)
    (fun c hc => Cursor.failsIn_rule hc) ?_
  rintro c ⟨r, d⟩ hc hr
  exact ⟨Rule.behind_mapSpans (Cursor.covers_rule hc hr).1 fun s hs => hs.behind_span x, rfl⟩

/-! ## Between two texts -/

/-- What is complete in `y` is complete between `x` and `z`. -/
theorem exists_between {read : Text → Cursor → Except Failure (α × Cursor)} {move extend : α → α}
    {a : α} {next : Int}
    (hbehind : ∀ c : Cursor, c.In y →
      read (x ++ y) (c.behind x) = behind x (Prod.map move (Cursor.behind x)) (read y c))
    (hbefore : ∀ c d b, c.In (x ++ y) → read (x ++ y) c = .ok (b, d) →
      read (x ++ y ++ z) (c.before z) = .ok (extend b, d.before z))
    (hread : outcomeAt y (read y) (Prod.map id Cursor.pos) pos = .ok (a, next)) :
    ∃ c d, c.In y ∧ read y c = .ok (a, d) ∧
      outcomeAt (x ++ y ++ z) (read (x ++ y ++ z)) (Prod.map id Cursor.pos) (x.length + pos) =
        .ok (extend (move a), x.length + next) := by
  obtain ⟨c, ⟨b, d⟩, hat, hb, hgive⟩ := outcomeAt_eq_ok.mp hread
  obtain ⟨rfl, rfl⟩ := Prod.mk.inj hgive
  have hin := Cursor.in_of_ofPos? hat h₀ h
  have hmoved := hbehind c hin
  rw [hb] at hmoved
  have hlonger := hbefore _ _ _ (hin.behind x) hmoved
  rw [Cursor.ofPos?_of_nonneg h₀] at hat
  cases hat
  refine ⟨_, d, hin, hb, outcomeAt_eq_ok.mpr ⟨_, _, ?_, hlonger, rfl⟩⟩
  have hplace : Cursor.ofPos? (x ++ (y ++ z)) (x.length + pos) = _ := Cursor.ofPos?_behind x h₀
  rw [Cursor.ofPos?_of_nonneg h₀, List.drop_append_of_le_length (by omega), ← List.append_assoc]
    at hplace
  exact hplace

end

/-- At a position of `y`, every token and every production comes out of `x ++ y` as it does of `y`, as many
places further on as `x` is long: the same values with their texts, or the same kind of error with the
same message. What is complete in `y` is so whatever follows. -/
theorem outcome_in_context (x y z : Text) (listening : Bool) (pos : Int) (h₀ : 0 ≤ pos)
    (h : pos ≤ y.length) :
    ComesOutBehind x (PositionBehind x) (blanks y listening pos).outcome
      (blanks (x ++ y) listening (x.length + pos)).outcome ∧
    (∀ m, ComesOutBehind x (PositionBehind x) (mark y listening pos m).outcome
      (mark (x ++ y) listening (x.length + pos) m).outcome) ∧
    ComesOutBehind x (PlacedBehind x (Span.Behind x)) (word y listening pos).outcome
      (word (x ++ y) listening (x.length + pos)).outcome ∧
    ComesOutBehind x (PlacedBehind x (Declaration.Behind x)) (declaration y listening pos).outcome
      (declaration (x ++ y) listening (x.length + pos)).outcome ∧
    ComesOutBehind x (PlacedBehind x (Rule.Behind x)) (rule y listening pos).outcome
      (rule (x ++ y) listening (x.length + pos)).outcome ∧
    (∀ d next, (declaration y listening pos).outcome = .ok (d, next) →
      ∃ d', (declaration (x ++ y ++ z) listening (x.length + pos)).outcome =
        .ok (d', x.length + next) ∧ d.Behind x d') ∧
    ∀ r next, (rule y listening pos).outcome = .ok (r, next) →
      ∃ r', (rule (x ++ y ++ z) listening (x.length + pos)).outcome =
        .ok (r', x.length + next) ∧ r.Behind x r' := by
  refine ⟨blanks_behind h₀ h, mark_behind h₀ h, word_behind h₀ h, declaration_behind h₀ h,
    rule_behind h₀ h, fun d next hd => ?_, fun r next hr => ?_⟩
  · rw [declaration_outcome] at hd
    obtain ⟨c, e, hc, hread, hbetween⟩ := exists_between (x := x) (z := z) h₀ h
      (fun c hc => Cursor.declaration_behind hc x)
      (fun c e p hc hp => Cursor.declaration_before hc hp z) hd
    refine ⟨_, (declaration_outcome _).trans hbetween, rfl, ?_⟩
    have hin := (Cursor.covers_declaration hc hread).1
    exact (hin.behind_span x).before (hin.behind x) z
  · rw [rule_outcome] at hr
    obtain ⟨c, e, hc, hread, hbetween⟩ := exists_between (x := x) (z := z) h₀ h
      (fun c hc => Cursor.rule_behind hc x)
      (fun c e p hc hp => Cursor.rule_before hc hp z) hr
    refine ⟨_, (rule_outcome _).trans hbetween, ?_⟩
    have hin := (Cursor.covers_rule hc hread).1
    have hmap : (r.mapSpans (Span.behind x)).mapSpans (Span.before z) =
        r.mapSpans fun s => (s.behind x).before z := by
      simp [Rule.mapSpans, Declaration.mapSpan, Function.comp_def]
    rw [hmap]
    exact Rule.behind_mapSpans hin fun s hs => (hs.behind_span x).before (hs.behind x) z

/-- A declaration with a line feed in front of it and text right behind it, alone and in a rule. -/
theorem declaration_in_rule :
    let y : Text := ['\n', 'c', 'o', 'l', 'o', 'r', ':', 'b', ';', 'c']
    ∃ d d', (declaration y true 0).outcome = .ok (d, 9) ∧
      (declaration (['a', '{'] ++ y ++ ['}']) true 2).outcome = .ok (d', 11) ∧
      d'.kind = .color ∧ d'.value.text = ['b'] ∧ d'.value.start = 9 := by
  intro y
  have hread : (declaration y true 0).outcome = .ok (⟨.color, ⟨y, 7, 8⟩⟩, 9) := by decide +kernel
  obtain ⟨-, -, -, -, -, hbetween, -⟩ :=
    outcome_in_context ['a', '{'] y ['}'] true 0 (by decide) (by decide)
  obtain ⟨d', hd', hbehind⟩ := hbetween _ _ hread
  exact ⟨_, d', hread, hd', hbehind.kind, hbehind.value.text, hbehind.value.start⟩

end Report

end Stylesheet
