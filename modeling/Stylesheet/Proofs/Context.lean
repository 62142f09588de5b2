import Stylesheet.Proofs.Steps

/-!
# Sources in context

What is read from a source is read in the same way when other text stands before it: only positions
move. A declaration or a rule that is read to its end is also read in the same way when other text
follows.
-/

namespace Stylesheet

/-! ## Moving spans -/

/-- The same span where `x` stands before its source. -/
def Span.behind (x : Text) (s : Span) : Span :=
  ⟨x ++ s.source, x.length + s.start, x.length + s.stop⟩

/-- The same span where its source goes on with `y`. -/
def Span.before (y : Text) (s : Span) : Span := { s with source := s.source ++ y }

def Declaration.mapSpan (f : Span → Span) (d : Declaration) : Declaration :=
  { d with value := f d.value }

def Rule.mapSpans (f : Span → Span) (r : Rule) : Rule :=
  ⟨f r.selector, r.declarations.map (·.mapSpan f)⟩

def Failure.behind (x : Text) (f : Failure) : Failure := { f with pos := x.length + f.pos }

/-- What is read, or the failure to read it, where `x` stands before the source. -/
def behind {α β : Type} (x : Text) (g : α → β) : Except Failure α → Except Failure β
  | .error f => .error (f.behind x)
  | .ok a => .ok (g a)

theorem behind_bind {α β γ δ : Type} {x : Text} {g : α → β} {g' : γ → δ} {r : Except Failure α}
    {k : α → Except Failure γ} {k' : β → Except Failure δ}
    (h : ∀ a, r = .ok a → k' (g a) = behind x g' (k a)) :
    (behind x g r >>= k') = behind x g' (r >>= k) := by
  cases r with
  | error f => rfl
  | ok a => exact h a rfl

namespace Cursor

variable {source m : Text} {c d : Cursor} {s : Span} {p : Declaration} {r : Rule}

/-- The same cursor where `x` stands before the source. -/
def behind (x : Text) (c : Cursor) : Cursor := ⟨x.length + c.pos, c.rest⟩

/-- The same cursor where the source goes on with `y`. -/
def before (y : Text) (c : Cursor) : Cursor := ⟨c.pos, c.rest ++ y⟩

theorem In.behind (hc : c.In source) (x : Text) : (c.behind x).In (x ++ source) := by
  obtain ⟨text, rfl, hp⟩ := hc
  exact ⟨x ++ text, (List.append_assoc x text c.rest).symm, by simp [Cursor.behind, hp]⟩

theorem In.before (hc : c.In source) (y : Text) : (c.before y).In (source ++ y) := by
  obtain ⟨text, rfl, hp⟩ := hc
  exact ⟨text, List.append_assoc text c.rest y, hp⟩

/-! ## Behind other text -/

theorem past_behind (x : Text) (test : Char → Bool) (c : Cursor) :
    (c.behind x).past test = (c.past test).behind x := by
  simp [past, behind, Int.add_assoc]

theorem skip_behind (x : Text) (c : Cursor) : (c.behind x).skip = c.skip.behind x :=
  past_behind x isBlank c

theorem mark_behind (x m : Text) (c : Cursor) :
    (c.behind x).mark m = Stylesheet.behind x (behind x) (c.mark m) := by
  obtain ⟨pos, rest⟩ := c
  cases rest with
  | nil => rfl
  | cons a rest =>
    by_cases h : m = [a] <;>
      simp [mark, behind, Stylesheet.behind, Failure.behind, h, Int.add_assoc]

theorem word_behind (x source : Text) (c : Cursor) :
    (c.behind x).word (x ++ source) =
      Stylesheet.behind x (Prod.map (Span.behind x) (behind x)) (c.word source) := by
  unfold word
  rw [past_behind]
  by_cases h : (c.past isLetter).pos = c.pos <;>
    simp [behind, Stylesheet.behind, Failure.behind, Span.behind, h]

theorem text_behind (hc : c.In source) (h : c.word source = .ok (s, d)) (x : Text) :
    (s.behind x).text = s.text := by
  have hmoved : (c.behind x).word (x ++ source) = .ok (s.behind x, d.behind x) := by
    rw [word_behind, h]
    rfl
  rw [text_of_word hc h, text_of_word (hc.behind x) hmoved]
  rfl

theorem declaration_behind (hc : c.In source) (x : Text) :
    (c.behind x).declaration (x ++ source) =
      Stylesheet.behind x (Prod.map (Declaration.mapSpan (Span.behind x)) (behind x))
        (c.declaration source) := by
  unfold declaration
  rw [skip_behind, word_behind]
  refine behind_bind fun ⟨name, c₁⟩ hname => ?_
  simp only [Prod.map, skip_behind, mark_behind]
  refine behind_bind fun c₂ _ => ?_
  rw [text_behind hc.skip hname x]
  cases PropertyKind.ofName? name.text with
  | none => rfl
  | some kind =>
    simp only [skip_behind, word_behind]
    refine behind_bind fun ⟨value, c₃⟩ _ => ?_
    simp only [Prod.map, skip_behind, mark_behind]
    exact behind_bind fun c₄ _ => rfl

theorem declarations_behind {c : Cursor} (hc : c.In source) (x : Text) :
    (c.behind x).declarations (x ++ source) =
      Stylesheet.behind x (Prod.map (List.map (Declaration.mapSpan (Span.behind x))) (behind x))
        (c.declarations source) := by
  -- Both sides take a turn of the loop together.
  rw [declarations_eq, declarations_eq, skip_behind]
  by_cases hin : c.skip.inBlock = true
  · have hin' : (c.skip.behind x).inBlock = true := hin
    rw [if_pos hin, if_pos hin', declaration_behind hc.skip]
    refine behind_bind fun ⟨p, next⟩ hp => ?_
    have := length_of_declaration hp
    have := length_skip_le c
    simp only [Prod.map]
    rw [declarations_behind (hc.skip.declaration hp)]
    exact behind_bind fun ⟨ps, last⟩ _ => rfl
  · have hin' : ¬ (c.skip.behind x).inBlock = true := hin
    rw [if_neg hin, if_neg hin']
    rfl
termination_by c.rest.length

theorem rule_behind (hc : c.In source) (x : Text) :
    (c.behind x).rule (x ++ source) =
      Stylesheet.behind x (Prod.map (Rule.mapSpans (Span.behind x)) (behind x)) (c.rule source) := by
  unfold rule
  rw [skip_behind, word_behind]
  refine behind_bind fun ⟨selector, c₁⟩ hselector => ?_
  simp only [Prod.map, skip_behind, mark_behind]
  refine behind_bind fun c₂ hopen => ?_
  rw [declarations_behind ((hc.skip.word hselector).skip.mark hopen)]
  refine behind_bind fun ⟨ps, c₃⟩ _ => ?_
  simp only [Prod.map, skip_behind, mark_behind]
  exact behind_bind fun c₄ _ => rfl

theorem rules_behind {c : Cursor} (hc : c.In source) (x : Text) :
    (c.behind x).rules (x ++ source) =
      ((c.rules source).1.map (Rule.mapSpans (Span.behind x)),
        (c.rules source).2.map (Failure.behind x)) := by
  rw [rules_eq, rules_eq, skip_behind, rule_behind hc.skip]
  by_cases hnil : c.skip.rest = []
  · rw [if_pos hnil, if_pos (show (c.skip.behind x).rest = [] from hnil)]
    rfl
  · rw [if_neg hnil, if_neg (show (c.skip.behind x).rest ≠ [] from hnil)]
    cases hr : c.skip.rule source with
    | error f => rfl
    | ok out =>
      obtain ⟨r, next⟩ := out
      have := length_of_rule hr
      have := length_skip_le c
      simp only [Stylesheet.behind, Prod.map]
      rw [rules_behind (hc.skip.rule hr)]
      rfl
termination_by c.rest.length

/-! ## Before other text -/

theorem takeWhile_before {test : Char → Bool} (h : (c.past test).rest ≠ []) (y : Text) :
    (c.before y).rest.takeWhile test = c.rest.takeWhile test := by
  rw [before, List.takeWhile_append, if_neg]
  intro hall
  have := congrArg List.length (takeWhile_append_past test c)
  rw [List.length_append] at this
  exact h (List.length_eq_zero_iff.mp (by omega))

/-- A run that ends before the end of a source ends in the same place when the source goes on. -/
theorem past_before {test : Char → Bool} (h : (c.past test).rest ≠ []) (y : Text) :
    (c.before y).past test = (c.past test).before y := by
  have hdrop : c.rest.dropWhile test ≠ [] := h
  rw [past, takeWhile_before h]
  simp [past, before, List.dropWhile_append, hdrop]

theorem rest_ne_nil_of_skip (h : c.skip.rest ≠ []) : c.rest ≠ [] := by
  intro hnil
  exact h (by rw [skip, past, hnil]; rfl)

theorem rest_ne_nil_of_mark (h : c.mark m = .ok d) : c.rest ≠ [] := by
  obtain ⟨a, -, hrest, -⟩ := mark_eq_ok.mp h
  rw [hrest]
  exact List.cons_ne_nil a d.rest

theorem rest_ne_nil_of_word (h : c.word source = .ok (s, d)) (hd : d.rest ≠ []) : c.rest ≠ [] := by
  have := length_of_word h
  exact List.ne_nil_of_length_pos (Nat.lt_of_lt_of_le (List.length_pos_iff.mpr hd) this)

theorem mark_before (h : c.skip.mark m = .ok d) (y : Text) :
    (c.before y).skip.mark m = .ok (d.before y) := by
  obtain ⟨a, hm, hrest, hpos⟩ := mark_eq_ok.mp h
  rw [skip, past_before (rest_ne_nil_of_mark h)]
  exact mark_eq_ok.mpr ⟨a, hm, congrArg (· ++ y) hrest, hpos⟩

theorem word_before (h : c.skip.word source = .ok (s, d)) (hd : d.rest ≠ []) (y : Text) :
    (c.before y).skip.word (source ++ y) = .ok (s.before y, d.before y) := by
  rw [skip, past_before (rest_ne_nil_of_word h hd)]
  obtain ⟨hne, rfl, rfl⟩ := word_eq_ok.mp h
  refine word_eq_ok.mpr ⟨?_, rfl, (past_before hd y).symm⟩
  rwa [← skip, past_before hd]

theorem text_before (hc : c.In source) (h : c.skip.word source = .ok (s, d)) (hd : d.rest ≠ [])
    (y : Text) : (s.before y).text = s.text := by
  have hmoved := word_before h hd y
  rw [text_of_word hc.skip h, text_of_word (hc.before y).skip hmoved, skip,
    past_before (rest_ne_nil_of_word h hd)]
  obtain ⟨-, -, rfl⟩ := word_eq_ok.mp h
  exact takeWhile_before hd y

theorem declaration_before (hc : c.In source) (h : c.declaration source = .ok (p, d)) (y : Text) :
    (c.before y).declaration (source ++ y) = .ok (p.mapSpan (Span.before y), d.before y) := by
  obtain ⟨name, c₁, c₂, c₃, hname, hcolon, hkind, hvalue, hend⟩ := declaration_eq_ok.mp h
  have h₁ := rest_ne_nil_of_skip (rest_ne_nil_of_mark hcolon)
  have h₃ := rest_ne_nil_of_skip (rest_ne_nil_of_mark hend)
  refine declaration_eq_ok.mpr ⟨_, _, _, _, word_before hname h₁ y, mark_before hcolon y, ?_,
    word_before hvalue h₃ y, mark_before hend y⟩
  rw [text_before hc hname h₁]
  exact hkind

theorem rest_ne_nil_of_inBlock (h : c.inBlock = true) : c.rest ≠ [] := by
  intro hnil
  simp [inBlock, hnil] at h

theorem inBlock_before (h : c.rest ≠ []) (y : Text) : (c.before y).inBlock = c.inBlock := by
  obtain ⟨a, rest, hrest⟩ := List.exists_cons_of_ne_nil h
  simp [inBlock, before, hrest]

theorem declarations_before {c : Cursor} {ps : List Declaration} (hc : c.In source)
    (h : c.declarations source = .ok (ps, d)) (hd : d.rest ≠ []) (y : Text) :
    (c.before y).declarations (source ++ y) =
      .ok (ps.map (Declaration.mapSpan (Span.before y)), d.before y) := by
  rw [declarations_eq] at h ⊢
  split at h
  · rename_i hin
    obtain ⟨⟨p, next⟩, hp, h⟩ := bind_eq_ok.mp h
    obtain ⟨⟨ps', last⟩, hps, h⟩ := bind_eq_ok.mp h
    cases h
    have := length_of_declaration hp
    have := length_skip_le c
    have hne := rest_ne_nil_of_inBlock hin
    rw [skip, past_before hne, ← skip, inBlock_before hne, if_pos hin,
      declaration_before hc.skip hp]
    exact bind_eq_ok.mpr ⟨_, rfl, bind_eq_ok.mpr
      ⟨_, declarations_before (hc.skip.declaration hp) hps hd y, rfl⟩⟩
  · rename_i hin
    cases h
    rw [skip, past_before hd, ← skip, inBlock_before hd, if_neg hin]
    rfl
termination_by c.rest.length

/-- A rule is read up to its closing brace and no further. -/
theorem rule_before (hc : c.In source) (h : c.rule source = .ok (r, d)) (y : Text) :
    (c.before y).rule (source ++ y) = .ok (r.mapSpans (Span.before y), d.before y) := by
  obtain ⟨c₁, c₂, c₃, hselector, hopen, hblock, hclose⟩ := rule_eq_ok.mp h
  have h₁ := rest_ne_nil_of_skip (rest_ne_nil_of_mark hopen)
  have h₃ := rest_ne_nil_of_skip (rest_ne_nil_of_mark hclose)
  have hc₂ := (hc.skip.word hselector).skip.mark hopen
  exact rule_eq_ok.mpr ⟨_, _, _, word_before hselector h₁ y, mark_before hopen y,
    declarations_before hc₂ hblock h₃ y, mark_before hclose y⟩

/-! ## Between two texts -/

/-- At the end of a source, reading goes on with what follows. -/
theorem skip_before_of_nil (hc : c.In source) (h : c.skip.rest = []) (y : Text) :
    (c.before y).skip = ((start y).behind source).skip := by
  obtain ⟨text, rfl, hp⟩ := hc
  have hall := takeWhile_append_past isBlank c
  rw [← skip, h, List.append_nil] at hall
  have hblank : Blanks c.rest := hall ▸ blanks_takeWhile c.rest
  have hdrop : c.rest.dropWhile isBlank = [] := h
  rw [skip, skip, past, past, before, behind, start, List.takeWhile_append_of_pos hblank,
    List.dropWhile_append, hdrop, hp]
  simp [Int.add_assoc]

/-- Behind its rules, a source is read as what follows it. -/
theorem rules_before {c : Cursor} (hc : c.In source) (h : (c.rules source).2 = none) {y : Text}
    {qs : List Rule} {f? : Option Failure}
    (hy : ((start y).behind source).rules (source ++ y) = (qs, f?)) :
    (c.before y).rules (source ++ y) =
      ((c.rules source).1.map (Rule.mapSpans (Span.before y)) ++ qs, f?) := by
  rw [rules_eq source c] at h ⊢
  by_cases hnil : c.skip.rest = []
  · rw [if_pos hnil, rules_of_skip (skip_before_of_nil hc hnil y), hy]
    rfl
  · rw [if_neg hnil] at h ⊢
    cases hr : c.skip.rule source with
    | error f =>
      rw [hr] at h
      cases h
    | ok out =>
      obtain ⟨r, next⟩ := out
      have := length_of_rule hr
      have := length_skip_le c
      have hne : (c.skip.before y).rest ≠ [] := by simp [before, hnil]
      rw [hr] at h
      rw [rules_eq, skip, past_before hnil, ← skip, if_neg hne, rule_before hc.skip hr]
      simp only [rules_before (hc.skip.rule hr) h hy, List.map_cons, List.cons_append]
termination_by c.rest.length

end Cursor

end Stylesheet
