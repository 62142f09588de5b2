import Stylesheet.Proofs.Extent

/-!
# Cutting a text short

The automaton reads whatever an accepted text begins with. So a text that is cut short is accepted,
or something is missing exactly where it was cut. Which of the two depends on whether a rule was cut.
-/

namespace Stylesheet

/-! ## The automaton on a cut text -/

namespace State

variable {names : Vocabulary} {q q' : State}

/-- Which letters a word has does not matter where it stands. -/
theorem exists_step_word {v : Text} {pos : Int} (h : q.step names ⟨.word v, pos⟩ = .ok q')
    (w : Text) : ∃ p, q.step names ⟨.word w, pos⟩ = .ok p := by
  cases step_eq_ok.mp h <;> exact ⟨_, rfl⟩

theorem exists_run_of_append {pos : Int} {t u : Text}
    (h : run names q (lexemes pos (t ++ u)) = .ok q') :
    ∃ p, run names q (lexemes pos t) = .ok p := by
  induction pos, t using lexemes.induct generalizing q with
  | case1 pos => exact ⟨q, by rw [lexemes_nil, run_nil]⟩
  | case2 pos c cs hb ih =>
    rw [List.cons_append, lexemes_blank hb] at h
    rw [lexemes_blank hb]
    exact ih h
  | case3 pos c cs hb hc ih =>
    obtain ⟨hw, hsplit⟩ := exists_run hc cs
    have hrest := noLetter_dropWhile cs
    cases hend : cs.dropWhile isLetter with
    | nil =>
      -- The cut may be inside of the word, which is a longer one then.
      rw [List.cons_append, lexemes, if_neg (by simpa using hb), if_pos hc] at h
      obtain ⟨p, hs, -⟩ := exists_of_run_cons h
      obtain ⟨p', hs'⟩ := exists_step_word hs (c :: cs.takeWhile isLetter)
      rw [hsplit, lexemes_word hw hrest, hend, lexemes_nil, run_cons_ok hs', run_nil]
      exact ⟨p', rfl⟩
    | cons x rest =>
      rw [hsplit, List.append_assoc, lexemes_word hw (noLetter_append hrest (by simp [hend]))] at h
      obtain ⟨p, hs, h⟩ := exists_of_run_cons h
      rw [hsplit, lexemes_word hw hrest, run_cons_ok hs]
      exact ih h
  | case4 pos c cs hb hc ih =>
    simp only [Bool.not_eq_true] at hb hc
    rw [List.cons_append, lexemes_mark hb hc] at h
    obtain ⟨p, hs, h⟩ := exists_of_run_cons h
    rw [lexemes_mark hb hc, run_cons_ok hs]
    exact ih h

end State

/-- What a text begins with fails at its end, if it fails. -/
theorem verdict_of_append {names : Vocabulary} {t u : Text} (h : verdict names (t ++ u) = none) :
    verdict names t = none ∨
      ∃ fault, verdict names t = some ⟨fault, t.length⟩ ∧
        (fault.kind = .missingMark ∨ fault.kind = .missingWord) := by
  rw [verdict, State.verdict_eq_none] at h
  obtain ⟨q, hq⟩ := State.exists_run_of_append h
  simp only [verdict, State.verdict, hq]
  cases q <;> simp [State.atEnd, Fault.kind]

/-! ## Cutting between rules -/

/-- A position is inside of a rule: behind the beginning of its selector and before the end. -/
def Rule.Spans (r : Rule) (k : Nat) : Prop := r.selector.start < k ∧ k < r.stop

/-- Behind an accepted text, rules can be cut off anywhere but inside of one of them. -/
theorem Extents.accepted_take {p : Int} {t x : Text} {rs : List Rule} (h : Extents p t rs)
    (hp : p = x.length) (hx : Accepted x) {k : Nat} (hk : k ≤ t.length)
    (hno : ∀ r ∈ rs, ¬ r.Spans (x.length + k)) : Accepted (x ++ t.take k) := by
  induction h generalizing x k with
  | nil hb => exact hx.append (accepted_of_blanks fun c hc => hb c (List.mem_of_mem_take hc))
  | @cons p b t u r rs hb ht hstart hstop _ ih =>
    by_cases hcut : k ≤ b.length
    · rw [List.append_assoc, List.take_append_of_le_length hcut]
      exact hx.append (accepted_of_blanks fun c hc => hb c (List.mem_of_mem_take hc))
    · have hout := hno r List.mem_cons_self
      simp only [Rule.Spans] at hout
      obtain ⟨j, rfl⟩ : ∃ j, k = (b ++ t).length + j :=
        Nat.exists_eq_add_of_le (by simp only [List.length_append]; omega)
      rw [List.take_length_add_append, ← List.append_assoc]
      simp only [List.length_append] at hk hno
      apply ih
      · simp only [List.length_append]
        omega
      · exact hx.append (accepted_of_rule hb ht)
      · omega
      · intro q hq
        have := hno q (List.mem_cons_of_mem r hq)
        rwa [List.length_append, List.length_append, Nat.add_assoc]

section
variable {source : Text} {s t : Sheet} {k : Nat}

/-- The rules of a text fall in two where an accepted text ends. -/
theorem rules_of_take (h : Sheet.parse? source = .ok s)
    (ht : Sheet.parse? (source.take k) = .ok t) (hk : k ≤ source.length) :
    ∃ rest, s.rules = t.rules.map (Rule.mapSpans (Span.before (source.drop k))) ++ rest ∧
      (∀ r ∈ t.rules.map (Rule.mapSpans (Span.before (source.drop k))), r.stop ≤ k) ∧
      ∀ r ∈ rest, k ≤ r.selector.start ∧ k < r.stop := by
  have hlen := List.length_take_of_le hk
  have hread := read_append ht (source.drop k)
  rw [List.take_append_drop, parse?_eq_ok.mp h] at hread
  obtain ⟨hrules, hnone⟩ := Prod.mk.inj hread
  have hdrop : Sheet.parse? (source.drop k) = .ok ⟨(Sheet.read (source.drop k)).1⟩ :=
    parse?_eq_ok.mpr (Prod.ext rfl (by simpa using hnone.symm))
  refine ⟨_, hrules, ?_, ?_⟩
  · obtain ⟨hextents, hinside⟩ := extents_of_parse? ht
    intro r hr
    obtain ⟨q, hq, rfl⟩ := List.mem_map.mp hr
    have hbounds := hextents.bounds q hq
    rw [(hinside q hq).stop_before (by omega)]
    omega
  · intro r hr
    have hlt := (extents_of_parse? h).1.bounds r (hrules ▸ List.mem_append_right _ hr)
    obtain ⟨q, hq, rfl⟩ := List.mem_map.mp hr
    have hbounds := (extents_of_parse? hdrop).1.bounds q hq
    have hstart : (q.mapSpans (Span.behind (source.take k))).selector.start =
        k + q.selector.start := by rw [← hlen]; simp [Rule.mapSpans, Span.behind]
    omega

theorem accepted_take_iff (h : Sheet.parse? source = .ok s) (hk : k ≤ source.length) :
    Accepted (source.take k) ↔ ∀ r ∈ s.rules, ¬ r.Spans k := by
  constructor
  · rintro ⟨t, ht⟩ r hr ⟨hstart, hstop⟩
    obtain ⟨rest, hrules, hdone, hrest⟩ := rules_of_take h ht hk
    rw [hrules] at hr
    rcases List.mem_append.mp hr with hr | hr
    · have := hdone r hr
      omega
    · have := hrest r hr
      omega
  · intro hno
    have hnil : Accepted [] := accepted_of_blanks .nil
    exact (extents_of_parse? h).1.accepted_take rfl hnil hk (by simpa using hno)

/-- The rules that end at a position or before it. -/
def Sheet.rulesUpTo (s : Sheet) (k : Nat) : List Rule := s.rules.filter fun r => r.stop ≤ (k : Int)

theorem rulesUpTo_eq (h : Sheet.parse? source = .ok s) (ht : Sheet.parse? (source.take k) = .ok t)
    (hk : k ≤ source.length) :
    t.rules.map (Rule.mapSpans (Span.before (source.drop k))) = s.rulesUpTo k ∧
      s.rulesUpTo k <+: s.rules := by
  obtain ⟨rest, hrules, hdone, hrest⟩ := rules_of_take h ht hk
  rw [Sheet.rulesUpTo, hrules, List.filter_append, List.filter_eq_self.mpr,
    List.filter_eq_nil_iff.mpr, List.append_nil]
  · exact ⟨rfl, List.prefix_append _ rest⟩
  · intro r hr
    have := hrest r hr
    simp only [decide_eq_true_eq]
    omega
  · intro r hr
    exact decide_eq_true (hdone r hr)

end

/-- The rules of an accepted text are derived from the stretches that they span. Where the text is cut
inside of such a stretch, a mark or a word is missing at the cut. Where it is cut anywhere else, it is
accepted, and its rules are the first rules of the whole, those that end before the cut. -/
theorem parse?_take (source : Text) (s : Sheet) (h : Sheet.parse? source = .ok s) (k : Nat)
    (hk : k ≤ source.length) :
    (∀ r ∈ s.rules,
      DerivesRule .properties (Text.slice source r.selector.start r.stop) r.content) ∧
    ((∃ r ∈ s.rules, r.Spans k) → ∃ e, Sheet.parse? (source.take k) = .error e ∧
      (e.kind = .missingMark ∨ e.kind = .missingWord) ∧ e.diagnostic.offset = k) ∧
    ((∀ r ∈ s.rules, ¬ r.Spans k) → ∃ t, Sheet.parse? (source.take k) = .ok t ∧
      t.content = (s.rulesUpTo k).map Rule.content ∧
      t.rules.map (Rule.mapSpans (Span.before (source.drop k))) = s.rulesUpTo k ∧
      s.rulesUpTo k <+: s.rules) := by
  obtain ⟨hextents, -⟩ := extents_of_parse? h
  refine ⟨hextents.derives (x := []) rfl, ?_, ?_⟩
  · rintro ⟨r, hr, hspans⟩
    have hnone : verdict .properties (source.take k ++ source.drop k) = none := by
      rw [List.take_append_drop]
      exact accepted_iff_verdict.mp ⟨s, h⟩
    rcases verdict_of_append hnone with hv | ⟨fault, hv, hkind⟩
    · exact absurd hspans ((accepted_take_iff h hk).mp (accepted_iff_verdict.mpr hv) r hr)
    · refine ⟨_, parse?_eq_error.mpr ⟨_, hv, rfl⟩, hkind, ?_⟩
      rw [offset_of_verdict hv, List.length_take_of_le hk]
  · intro hno
    obtain ⟨t, ht⟩ := (accepted_take_iff h hk).mpr hno
    obtain ⟨hdone, hprefix⟩ := rulesUpTo_eq h ht hk
    refine ⟨t, ht, ?_, hdone, hprefix⟩
    rw [← hdone, List.map_map, Sheet.content]
    apply List.map_congr_left
    intro r hr
    exact ((extents_of_parse? ht).2 r hr).content_before _ |>.symm

/-- Half of a name is not looked up: behind it the colon is missing. -/
theorem parse?_take_in_name :
    ∃ s e, Sheet.parse? ['a', '{', 'c', 'o', 'l', 'o', 'r', ':', 'b', ';', '}'] = .ok s ∧
      (∃ r ∈ s.rules, r.Spans 4) ∧ Sheet.parse? ['a', '{', 'c', 'o'] = .error e ∧
      (e.kind = .missingMark ∨ e.kind = .missingWord) ∧ e.diagnostic.offset = 4 := by
  let source : Text := ['a', '{', 'c', 'o', 'l', 'o', 'r', ':', 'b', ';', '}']
  let color : Declaration := ⟨.color, ⟨source, 8, 9⟩⟩
  let close : Cursor := ⟨10, ['}']⟩
  have hdeclaration : Cursor.declaration source ⟨2, source.drop 2⟩ = .ok (color, close) := by decide
  have hblock : Cursor.declarations source ⟨2, source.drop 2⟩ = .ok ([color], close) := by
    rw [Cursor.declarations_eq, if_pos (by decide)]
    refine bind_eq_ok.mpr ⟨_, hdeclaration, bind_eq_ok.mpr ⟨([], close), ?_, rfl⟩⟩
    rw [Cursor.declarations_eq, if_neg (by decide)]
    decide
  have hrule : Cursor.rule source (Cursor.start source).skip =
      .ok (⟨⟨source, 0, 1⟩, [color]⟩, ⟨11, []⟩) :=
    Cursor.rule_eq_ok.mpr ⟨⟨1, source.drop 1⟩, _, close, by decide, by decide, hblock, by decide⟩
  have hparse : Sheet.parse? source = .ok ⟨[⟨⟨source, 0, 1⟩, [color]⟩]⟩ := by
    rw [parse?_eq_ok, Sheet.read, Cursor.rules_eq, if_neg (by decide), hrule]
    simp only
    rw [Cursor.rules_eq, if_pos (by decide)]
  have hspans : ∃ r ∈ [(⟨⟨source, 0, 1⟩, [color]⟩ : Rule)], r.Spans 4 :=
    ⟨_, List.mem_singleton_self _, by decide, by decide⟩
  obtain ⟨e, he, hkind, hoffset⟩ := (parse?_take source _ hparse 4 (by decide)).2.1 hspans
  exact ⟨_, e, hparse, hspans, he, hkind, hoffset⟩

end Stylesheet
