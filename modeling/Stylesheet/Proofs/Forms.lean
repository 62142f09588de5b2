import Stylesheet.Proofs.RoundTrip

/-!
# Forms that lose nothing

A form that says where it ends can be followed by anything and is still told apart from every other one.
The lines of a listing are such forms, and so are whole listings: the separators alone give back which
rules and declarations a well-formed sheet has, however they are spelled.
-/

namespace Stylesheet

/-! ## Forms that say where they end -/

/-- What comes behind a text makes no difference to what it is read as. -/
def SelfDelimiting {α : Type} (P : α → Prop) (f : α → Text) : Prop :=
  ∀ ⦃a b : α⦄ ⦃x y : Text⦄, P a → P b → f a ++ x = f b ++ y → a = b ∧ x = y

/-- A row of such texts ends where something stands that begins none of them. -/
theorem SelfDelimiting.flatMap {α : Type} {P : α → Prop} {f : α → Text} (hf : SelfDelimiting P f)
    {R : Text → Prop} (hrest : ∀ a, P a → ∀ x, ¬R (f a ++ x)) {as bs : List α} {x y : Text}
    (ha : ∀ a ∈ as, P a) (hb : ∀ b ∈ bs, P b) (hx : R x) (hy : R y)
    (h : as.flatMap f ++ x = bs.flatMap f ++ y) : as = bs ∧ x = y := by
  induction as generalizing bs with
  | nil =>
    cases bs with
    | nil => exact ⟨rfl, h⟩
    | cons b bs =>
      have hbegin : x = f b ++ (bs.flatMap f ++ y) := by simpa using h
      exact absurd (hbegin ▸ hx) (hrest b (hb b List.mem_cons_self) _)
  | cons a as ih =>
    cases bs with
    | nil =>
      have hbegin : y = f a ++ (as.flatMap f ++ x) := by simpa using h.symm
      exact absurd (hbegin ▸ hy) (hrest a (ha a List.mem_cons_self) _)
    | cons b bs =>
      simp only [List.flatMap_cons, List.append_assoc] at h
      obtain ⟨hab, hrows⟩ := hf (ha a List.mem_cons_self) (hb b List.mem_cons_self) h
      obtain ⟨hrow, hxy⟩ := ih (fun a' h' => ha a' (List.mem_cons_of_mem _ h'))
        (fun b' h' => hb b' (List.mem_cons_of_mem _ h')) hrows
      exact ⟨by rw [hab, hrow], hxy⟩

/-! ## Words and pairs -/

theorem word_append_inj {v w x y : Text} (hv : IsWord v) (hw : IsWord w) (hx : NoLetter x)
    (hy : NoLetter y) (h : v ++ x = w ++ y) : v = w ∧ x = y := by
  have hvx := takeWhile_run hv.2 hx
  have hwy := takeWhile_run hw.2 hy
  rw [h] at hvx
  exact ⟨hvx.1.symm.trans hwy.1, hvx.2.symm.trans hwy.2⟩

section

variable {names : Vocabulary}

theorem pair_append_inj {d e : DeclarationContent} (hd : d.WellFormed names) (he : e.WellFormed names)
    {x y : Text} (hx : NoLetter x) (hy : NoLetter y) (h : d.pair ++ x = e.pair ++ y) :
    d = e ∧ x = y := by
  simp only [DeclarationContent.pair, Layout.pair, List.append_assoc, List.cons_append,
    List.nil_append] at h
  obtain ⟨hname, hrest⟩ := word_append_inj (names.isWord hd.1) (names.isWord he.1)
    (.cons (by decide) _) (.cons (by decide) _) h
  obtain ⟨hvalue, hxy⟩ := word_append_inj hd.2 he.2 hx hy (by simpa using hrest)
  cases d
  cases e
  exact ⟨by simp_all, hxy⟩

/-- The line of a declaration, which begins with a character of the form. -/
def DeclarationContent.line (lead : Char) (d : DeclarationContent) : Text := lead :: (d.pair ++ ['\n'])

theorem selfDelimiting_line (lead : Char) :
    SelfDelimiting (DeclarationContent.WellFormed names) (DeclarationContent.line lead) := by
  intro d e x y hd he h
  simp only [DeclarationContent.line, List.cons_append, List.append_assoc, List.cons.injEq,
    true_and] at h
  obtain ⟨hde, hrest⟩ := pair_append_inj hd he (.cons (by decide) _) (.cons (by decide) _) h
  exact ⟨hde, by simpa using hrest⟩

/-- The lines of declarations end where another character stands than the one they begin with. -/
theorem lines_append_inj {lead stop : Char} (hstop : lead ≠ stop) {ds es : List DeclarationContent}
    (hds : ∀ d ∈ ds, d.WellFormed names) (hes : ∀ e ∈ es, e.WellFormed names) {x y : Text}
    (h : ds.flatMap (DeclarationContent.line lead) ++ stop :: x =
      es.flatMap (DeclarationContent.line lead) ++ stop :: y) : ds = es ∧ x = y := by
  obtain ⟨hlines, hrest⟩ := (selfDelimiting_line lead).flatMap (R := (·.head? = some stop))
    (fun d _ x => by simpa [DeclarationContent.line] using hstop) hds hes rfl rfl h
  exact ⟨hlines, (List.cons.inj hrest).2⟩

/-! ## Listings -/

def RuleContent.listing (r : RuleContent) : Text :=
  Layout.listing r.selector (r.declarations.map DeclarationContent.pair)

theorem Sheet.listing_eq (s : Sheet) : s.listing = s.content.flatMap RuleContent.listing := by
  rw [listing, content, List.flatMap_map]
  congr 1
  funext r
  rw [Rule.listing, Rule.pairs, RuleContent.listing, Rule.content, List.map_map]
  rfl

theorem RuleContent.listing_append (r : RuleContent) (x : Text) :
    r.listing ++ x = "selector: ".toList ++ (r.selector ++ '\n' ::
      (r.declarations.flatMap (DeclarationContent.line ' ') ++ '\n' :: x)) := by
  have hline (d : DeclarationContent) : ' ' :: (d.pair ++ ['\n']) = d.line ' ' := rfl
  unfold listing Layout.listing
  -- The label is left folded, as it is the same in front of every rule.
  generalize "selector: ".toList = label
  simp [List.flatMap_map, hline]

/-- The empty line ends a listing, as every line of a declaration begins with a space. -/
theorem selfDelimiting_listing :
    SelfDelimiting (RuleContent.WellFormed names) RuleContent.listing := by
  intro r q x y hr hq h
  rw [RuleContent.listing_append, RuleContent.listing_append] at h
  obtain ⟨hselector, hrest⟩ := word_append_inj hr.1 hq.1 (.cons (by decide) _) (.cons (by decide) _)
    (List.append_cancel_left h)
  obtain ⟨hlines, hxy⟩ := lines_append_inj (by decide) hr.2 hq.2 (List.cons.inj hrest).2
  cases r
  cases q
  exact ⟨by simp_all, hxy⟩

theorem listings_inj {c e : SheetContent} (hc : ∀ r ∈ c, r.WellFormed names)
    (he : ∀ r ∈ e, r.WellFormed names)
    (h : c.flatMap RuleContent.listing = e.flatMap RuleContent.listing) : c = e := by
  refine (selfDelimiting_listing.flatMap (R := (· = [])) (fun r _ x hnil => ?_) hc he rfl rfl ?_).1
  · rw [RuleContent.listing_append] at hnil
    cases hnil
  · rw [List.append_nil, List.append_nil, h]

/-! ## Compact forms -/

def RuleContent.compact (r : RuleContent) : Text :=
  Layout.compact r.selector (r.declarations.map DeclarationContent.pair)

theorem Rule.compact_eq (r : Rule) : r.compact = r.content.compact := by
  rw [Rule.compact, Rule.pairs, RuleContent.compact, Rule.content, List.map_map]
  rfl

theorem intercalate_pairs (d : DeclarationContent) (ds : List DeclarationContent) :
    '\t' :: (List.intercalate ['\n', '\t'] ((d :: ds).map DeclarationContent.pair) ++ ['\n']) =
      (d :: ds).flatMap (DeclarationContent.line '\t') := by
  induction ds generalizing d with
  | nil => simp [DeclarationContent.line, List.intercalate_singleton]
  | cons e ds ih =>
    rw [List.map_cons, List.map_cons, List.intercalate_cons_cons, List.flatMap_cons, ← ih e]
    simp [DeclarationContent.line]

/-- What stands between the first line of a compact form and its brace. -/
def DeclarationContent.body : List DeclarationContent → Text
  | [] => ['\t', '\n']
  | d :: ds => (d :: ds).flatMap (line '\t')

theorem RuleContent.compact_eq_body (r : RuleContent) :
    r.compact = r.selector ++ ' ' :: '{' :: '\n' :: (DeclarationContent.body r.declarations ++ ['}']) := by
  obtain ⟨selector, ds⟩ := r
  cases ds with
  | nil => simp [compact, Layout.compact, DeclarationContent.body, List.intercalate]
  | cons d ds =>
    rw [DeclarationContent.body, ← intercalate_pairs]
    simp [compact, Layout.compact]

/-- Where a pair begins there is a letter, so no pair is taken for an empty body. -/
theorem line_append_ne {d : DeclarationContent} (hd : d.WellFormed names) (x y : Text) :
    d.line '\t' ++ x ≠ '\t' :: '\n' :: y := by
  intro h
  obtain ⟨hne, hletters⟩ := names.isWord hd.1
  obtain ⟨c, n, hname⟩ := List.exists_cons_of_ne_nil hne
  simp only [DeclarationContent.line, DeclarationContent.pair, Layout.pair, hname, List.cons_append,
    List.cons.injEq, true_and] at h
  have hc := hletters c (by simp [hname])
  rw [h.1] at hc
  exact absurd hc (by decide)

theorem body_inj {ds es : List DeclarationContent} (hds : ∀ d ∈ ds, d.WellFormed names)
    (hes : ∀ e ∈ es, e.WellFormed names)
    (h : DeclarationContent.body ds ++ ['}'] = DeclarationContent.body es ++ ['}']) : ds = es := by
  cases ds with
  | nil =>
    cases es with
    | nil => rfl
    | cons e es =>
      simp only [DeclarationContent.body, List.flatMap_cons, List.append_assoc] at h
      exact absurd h.symm (line_append_ne (hes e List.mem_cons_self) _ _)
  | cons d ds =>
    cases es with
    | nil =>
      simp only [DeclarationContent.body, List.flatMap_cons, List.append_assoc] at h
      exact absurd h (line_append_ne (hds d List.mem_cons_self) _ _)
    | cons e es => exact (lines_append_inj (by decide) hds hes h).1

theorem compact_inj {r q : RuleContent} (hr : r.WellFormed names) (hq : q.WellFormed names)
    (h : r.compact = q.compact) : r = q := by
  rw [RuleContent.compact_eq_body, RuleContent.compact_eq_body] at h
  obtain ⟨hselector, hrest⟩ := word_append_inj hr.1 hq.1 (.cons (by decide) _) (.cons (by decide) _) h
  simp only [List.cons.injEq, true_and] at hrest
  have hdeclarations := body_inj hr.2 hq.2 hrest
  cases r
  cases q
  simp_all

end

/-! ## Sheets and rules -/

/-- The selector and the values are words, and the kinds are recognised ones. -/
def Rule.WellFormed (r : Rule) : Prop :=
  IsWord r.selector.text ∧ ∀ d ∈ r.declarations, d.kind ∈ PropertyKind.recognised ∧ IsWord d.value.text

theorem Rule.wellFormed_iff (r : Rule) : r.WellFormed ↔ r.content.WellFormed .properties := by
  simp only [WellFormed, content, RuleContent.WellFormed, DeclarationContent.WellFormed,
    Declaration.content, List.forall_mem_map, has_name_iff]

/-- Two well-formed sheets have one listing exactly if they are the same, and two well-formed rules have
one compact form exactly if they are. -/
theorem listing_eq_iff_same :
    (∀ s t : Sheet, s.WellFormed → t.WellFormed → (s.listing = t.listing ↔ s.same t = true)) ∧
    ∀ r q : Rule, r.WellFormed → q.WellFormed →
      (r.compact = q.compact ↔ (Value.ofRule r).same (Value.ofRule q) = true) := by
  refine ⟨fun s t hs ht => ?_, fun r q hr hq => ?_⟩
  · rw [Sheet.wellFormed_iff] at hs ht
    rw [Sheet.same_iff, Sheet.listing_eq, Sheet.listing_eq]
    exact ⟨listings_inj hs ht, congrArg _⟩
  · rw [Rule.wellFormed_iff] at hr hq
    rw [Rule.same_iff, Rule.compact_eq, Rule.compact_eq]
    exact ⟨compact_inj hr hq, congrArg _⟩

/-- Two empty rules, and one rule that has the second selector as a value. The first selector is spelled
like the name of a property. -/
theorem listing_ne_of_value :
    let word (t : Text) : Span := ⟨t, 0, t.length⟩
    let rules : Sheet := ⟨[⟨word "color".toList, []⟩, ⟨word "red".toList, []⟩]⟩
    let values : Sheet := ⟨[⟨word "color".toList, [⟨.color, word "red".toList⟩]⟩]⟩
    rules.WellFormed ∧ values.WellFormed ∧ rules.listing ≠ values.listing := by
  intro word rules values
  have hrules : rules.WellFormed := by unfold Sheet.WellFormed; decide
  have hvalues : values.WellFormed := by unfold Sheet.WellFormed; decide
  refine ⟨hrules, hvalues, fun h => ?_⟩
  have hsame := (listing_eq_iff_same.1 rules values hrules hvalues).mp h
  exact absurd hsame (by decide)

end Stylesheet
