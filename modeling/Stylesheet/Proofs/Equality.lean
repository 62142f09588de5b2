import Stylesheet.Proofs.RoundTrip

/-!
# Equality of values

Two values are the same exactly if they are one value once every span is replaced by the text it covers.
So sameness is an equivalence across all kinds of values, and what depends on the content only, digests
and written forms, is equal for values that are the same.
-/

namespace Stylesheet

namespace Value

/-! ## Values without spans -/

mutual

/-- The value with the text of every span in its place. -/
def plain : Value → Value
  | absent => absent
  | text t => text t
  | span s => text s.text
  | declaration k v => declaration k (plain v)
  | rule s ds => rule (plain s) (plainAll ds)
  | sheet rs => sheet (plainAll rs)

def plainAll : List Value → List Value
  | [] => []
  | v :: vs => plain v :: plainAll vs

end

mutual

/-- The value with other spans in the place of its own. -/
def mapSpans (f : Span → Span) : Value → Value
  | absent => absent
  | text t => text t
  | span s => span (f s)
  | declaration k v => declaration k (mapSpans f v)
  | rule s ds => rule (mapSpans f s) (mapSpansAll f ds)
  | sheet rs => sheet (mapSpansAll f rs)

def mapSpansAll (f : Span → Span) : List Value → List Value
  | [] => []
  | v :: vs => mapSpans f v :: mapSpansAll f vs

end

mutual

/-- Declared values and selectors are spans. -/
def Spanned : Value → Prop
  | absent | text _ | span _ => True
  | declaration _ v => ∃ s, v = span s
  | rule s ds => (∃ t, s = span t) ∧ AllSpanned ds
  | sheet rs => AllSpanned rs

def AllSpanned : List Value → Prop
  | [] => True
  | v :: vs => v.Spanned ∧ AllSpanned vs

end

theorem plainAll_eq_map (vs : List Value) : plainAll vs = vs.map plain := by
  induction vs with
  | nil => rfl
  | cons v vs ih => rw [plainAll, ih, List.map_cons]

/-! ## Sameness -/

mutual

theorem same_iff_plain : (a b : Value) → (a.same b = true ↔ a.plain = b.plain)
  | absent, absent => by simp [same]
  | text a, text b | text a, span b | span a, text b | span a, span b => by simp [same, plain]
  | declaration k a, declaration l b => by simp [same, plain, same_iff_plain a b]
  | rule s ds, rule t es => by simp [same, plain, same_iff_plain s t, sameAll_iff_plain ds es]
  | sheet rs, sheet qs => by simp [same, plain, sameAll_iff_plain rs qs]
  | absent, text _ | absent, span _ | absent, declaration _ _ | absent, rule _ _ | absent, sheet _
  | text _, absent | text _, declaration _ _ | text _, rule _ _ | text _, sheet _
  | span _, absent | span _, declaration _ _ | span _, rule _ _ | span _, sheet _
  | declaration _ _, absent | declaration _ _, text _ | declaration _ _, span _
  | declaration _ _, rule _ _ | declaration _ _, sheet _
  | rule _ _, absent | rule _ _, text _ | rule _ _, span _ | rule _ _, declaration _ _
  | rule _ _, sheet _
  | sheet _, absent | sheet _, text _ | sheet _, span _ | sheet _, declaration _ _
  | sheet _, rule _ _ => by simp [same, plain]

theorem sameAll_iff_plain : (as bs : List Value) → (sameAll as bs = true ↔ plainAll as = plainAll bs)
  | [], [] => by simp [sameAll]
  | a :: as, b :: bs => by simp [sameAll, plainAll, same_iff_plain a b, sameAll_iff_plain as bs]
  | [], _ :: _ | _ :: _, [] => by simp [sameAll, plainAll]

end

theorem same_equivalence : Equivalence fun a b : Value => a.same b = true where
  refl a := (same_iff_plain a a).mpr rfl
  symm {a b} h := (same_iff_plain b a).mpr ((same_iff_plain a b).mp h).symm
  trans {a b c} h h' :=
    (same_iff_plain a c).mpr (((same_iff_plain a b).mp h).trans ((same_iff_plain b c).mp h'))

theorem same_comm (a b : Value) : a.same b = b.same a :=
  Bool.eq_iff_iff.mpr ⟨same_equivalence.symm, same_equivalence.symm⟩

/-- Who is asked first makes no difference to the answer. -/
theorem same_of_answer? {a b : Value} {r : Bool} (h : a.answer? b = some r) : a.same b = r := by
  cases a <;> cases b <;> simp_all [answer?, same]

theorem not_same_of_answer? {a b : Value} (h : a.answer? b = none) (h' : b.answer? a = none) :
    a.same b = false := by
  cases a <;> cases b <;> simp_all [answer?, same]

/-- Sameness is what the first value says, or else the second one. Where neither knows the other, they
are not the same. -/
theorem same_eq_answer (a b : Value) :
    a.same b = ((a.answer? b).or (b.answer? a)).getD false ∧ a.differ b = !a.same b := by
  unfold differ
  cases h : a.answer? b with
  | some r => simp [same_of_answer? h]
  | none =>
    cases h' : b.answer? a with
    | some r => simp [same_comm a b, same_of_answer? h']
    | none => simp [not_same_of_answer? h h']

/-! ## Sources and offsets -/

mutual

/-- Other spans of the same texts leave nothing else behind. -/
theorem plain_mapSpans {f : Span → Span} (hf : ∀ s, (f s).text = s.text) :
    (v : Value) → (v.mapSpans f).plain = v.plain
  | absent | text _ => rfl
  | span s => by simp [mapSpans, plain, hf]
  | declaration k v => by simp [mapSpans, plain, plain_mapSpans hf v]
  | rule s ds => by simp [mapSpans, plain, plain_mapSpans hf s, plainAll_mapSpansAll hf ds]
  | sheet rs => by simp [mapSpans, plain, plainAll_mapSpansAll hf rs]

theorem plainAll_mapSpansAll {f : Span → Span} (hf : ∀ s, (f s).text = s.text) :
    (vs : List Value) → plainAll (mapSpansAll f vs) = plainAll vs
  | [] => rfl
  | v :: vs => by simp [mapSpansAll, plainAll, plain_mapSpans hf v, plainAll_mapSpansAll hf vs]

end

theorem same_mapSpans {f g : Span → Span} (hf : ∀ s, (f s).text = s.text)
    (hg : ∀ s, (g s).text = s.text) (a b : Value) :
    (a.mapSpans f).same (b.mapSpans g) = a.same b := by
  rw [Bool.eq_iff_iff, same_iff_plain, same_iff_plain, plain_mapSpans hf, plain_mapSpans hg]

/-! ## Digests -/

section

variable (h : Hashing)

mutual

/-- The digest of a value, from its content alone. -/
def contentDigest : Value → Nat
  | absent => h.absent
  | text t => h.text t
  | span s => h.text s.text
  | declaration k v => h.tuple [h.kind k, contentDigest v]
  | rule s ds => h.tuple [contentDigest s, h.tuple (contentDigestAll ds)]
  | sheet rs => h.tuple (contentDigestAll rs)

def contentDigestAll : List Value → List Nat
  | [] => []
  | v :: vs => contentDigest v :: contentDigestAll vs

end

mutual

theorem digest?_of_spanned : (v : Value) → v.Spanned → v.digest? h = some (v.plain.contentDigest h)
  | absent, _ | text _, _ | span _, _ => rfl
  | declaration k v, hv => by
    obtain ⟨s, rfl⟩ := hv
    rfl
  | rule s ds, hv => by
    obtain ⟨⟨t, rfl⟩, hds⟩ := hv
    simp [digest?, plain, contentDigest, digestAll?_of_spanned ds hds]
  | sheet rs, hv => by
    simp only [Spanned] at hv
    simp [digest?, plain, contentDigest, digestAll?_of_spanned rs hv]

theorem digestAll?_of_spanned :
    (vs : List Value) → AllSpanned vs → digestAll? h vs = some (contentDigestAll h (plainAll vs))
  | [], _ => rfl
  | v :: vs, hvs => by
    simp [digestAll?, plainAll, contentDigestAll, digest?_of_spanned v hvs.1,
      digestAll?_of_spanned vs hvs.2]

end

/-- Values that are the same have the same digest, so a set has one member for them. -/
theorem distinctBy?_of_spanned {a b : Value} (ha : a.Spanned) (hb : b.Spanned) :
    ∃ d e, a.digest? h = some d ∧ b.digest? h = some e ∧ (a.same b = true → d = e) ∧
      a.distinctBy? h b = some (if a.same b then 1 else 2) := by
  have hdigest : a.same b = true → a.plain.contentDigest h = b.plain.contentDigest h :=
    fun hsame => congrArg (contentDigest h) ((same_iff_plain a b).mp hsame)
  refine ⟨_, _, digest?_of_spanned h a ha, digest?_of_spanned h b hb, hdigest, ?_⟩
  simp only [distinctBy?, digest?_of_spanned h a ha, digest?_of_spanned h b hb, Option.bind_eq_bind,
    Option.bind_some]
  by_cases hsame : a.same b = true <;> simp [hsame, hdigest]

end

/-! ## Written forms -/

mutual

theorem written_plain : (v : Value) → v.plain.written = v.written
  | absent | text _ | span _ => rfl
  | declaration k v => by simp [plain, written, written_plain v]
  | rule s ds => by simp [plain, written, written_plain s, writtenAll_plainAll ds]
  | sheet rs => by simp [plain, written, plainAll_eq_map]

theorem writtenAll_plainAll : (vs : List Value) → writtenAll (plainAll vs) = writtenAll vs
  | [] => rfl
  | v :: vs => by simp [plainAll, writtenAll, written_plain v, writtenAll_plainAll vs]

end

theorem pair?_plain (v : Value) : v.plain.pair? = v.pair? := by
  cases v <;> simp [plain, pair?, written_plain]

/-- What looks at the content of each value sees no spans. -/
theorem mapM_plain {α : Type} {f : Value → Option α} (hf : ∀ v, f v.plain = f v)
    (vs : List Value) : (vs.map plain).mapM f = vs.mapM f := by
  have hcomp : f ∘ plain = f := funext hf
  rw [List.mapM_map, hcomp]

theorem laidOut?_plain (form : Text → List Text → Text) (v : Value) :
    v.plain.laidOut? form = v.laidOut? form := by
  cases v with
  | rule s ds => rw [plain, laidOut?, laidOut?, written_plain, plainAll_eq_map, mapM_plain pair?_plain]
  | absent | text | span | declaration | sheet => rfl

/-- Sheets that are the same are laid out alike. -/
theorem laidOut?_of_same {rs qs : List Value} (h : (sheet rs).same (sheet qs) = true)
    (form : Text → List Text → Text) : rs.mapM (laidOut? form) = qs.mapM (laidOut? form) := by
  have hplain : plainAll rs = plainAll qs := (sameAll_iff_plain rs qs).mp h
  rw [plainAll_eq_map, plainAll_eq_map] at hplain
  rw [← mapM_plain (laidOut?_plain form) rs, hplain, mapM_plain (laidOut?_plain form) qs]

/-! ## Sheets with their types -/

theorem mapM_of_eq_some {α β γ : Type} {f : α → β} {g : β → Option γ} {k : α → γ}
    (h : ∀ a, g (f a) = some (k a)) (as : List α) : (as.map f).mapM g = some (as.map k) := by
  induction as with
  | nil => rfl
  | cons a as ih => simp [List.mapM_cons, h, ih]

theorem laidOut?_ofRule (form : Text → List Text → Text) (r : Rule) :
    (ofRule r).laidOut? form = some (form r.selector.text r.pairs) := by
  have hpairs := mapM_of_eq_some (f := ofDeclaration) (g := pair?) (k := Declaration.pair)
    (fun _ => rfl) r.declarations
  rw [ofRule, laidOut?, hpairs]
  rfl

theorem allSpanned_map {α : Type} {f : α → Value} (h : ∀ a, (f a).Spanned) (as : List α) :
    AllSpanned (as.map f) := by
  induction as with
  | nil => trivial
  | cons a as ih => exact ⟨h a, ih⟩

theorem spanned_ofSheet (s : Sheet) : (ofSheet s).Spanned := by
  have hdeclaration (d : Declaration) : (ofDeclaration d).Spanned := ⟨d.value, rfl⟩
  have hrule (r : Rule) : (ofRule r).Spanned :=
    ⟨⟨r.selector, rfl⟩, allSpanned_map hdeclaration r.declarations⟩
  exact allSpanned_map hrule s.rules

end Value

theorem Sheet.distinct_eq (s t : Sheet) : s.distinct t = if s.same t then 1 else 2 := by
  obtain ⟨-, -, -, -, -, h⟩ :=
    Value.distinctBy?_of_spanned .mixed (Value.spanned_ofSheet s) (Value.spanned_ofSheet t)
  rw [distinct, Value.distinct?, h]
  rfl

/-- The written forms of a sheet are those of its rules as values. -/
theorem Sheet.written_ofSheet (s : Sheet) :
    Value.blocks? (s.rules.map Value.ofRule) = some s.text ∧
      Value.listings? (s.rules.map Value.ofRule) = some s.listing := by
  have hforms (form : Text → List Text → Text) :=
    Value.mapM_of_eq_some (Value.laidOut?_ofRule form) s.rules
  constructor
  · rw [Value.blocks?, hforms]
    rfl
  · rw [Value.listings?, hforms, listing, List.flatMap_def]
    rfl

namespace Value

/-- Two values are the same exactly if they are one value once every span is replaced by its text. This
is an equivalence, whichever of the two is asked, and values differ exactly if they are not the same. Spans
count by their texts alone. Values whose selectors and declared values are spans have equal digests if
they are the same, however digests are made, and a set of two of them has one member exactly then. Sheets
that are the same have the same written forms. -/
theorem same_iff_content_eq :
    (∀ a b : Value, a.same b = true ↔ a.plain = b.plain) ∧
    (Equivalence fun a b : Value => a.same b = true) ∧
    (∀ a b : Value,
      a.same b = ((a.answer? b).or (b.answer? a)).getD false ∧ a.differ b = !a.same b) ∧
    (∀ f g : Span → Span, (∀ s, (f s).text = s.text) → (∀ s, (g s).text = s.text) →
      ∀ a b : Value, (a.mapSpans f).same (b.mapSpans g) = a.same b) ∧
    (∀ (h : Hashing) (a b : Value), a.Spanned → b.Spanned →
      ∃ d e, a.digest? h = some d ∧ b.digest? h = some e ∧ (a.same b = true → d = e) ∧
        a.distinctBy? h b = some (if a.same b then 1 else 2)) ∧
    (∀ rs qs, (sheet rs).same (sheet qs) = true →
      blocks? rs = blocks? qs ∧ listings? rs = listings? qs) ∧
    ∀ s t : Sheet, (ofSheet s).Spanned ∧ s.distinct t = (if s.same t then 1 else 2) ∧
      (s.same t = true → s.text = t.text ∧ s.listing = t.listing) := by
  have hforms (rs qs : List Value) (h : (sheet rs).same (sheet qs) = true) :
      blocks? rs = blocks? qs ∧ listings? rs = listings? qs := by
    rw [blocks?, blocks?, listings?, listings?, laidOut?_of_same h, laidOut?_of_same h]
    exact ⟨rfl, rfl⟩
  refine ⟨same_iff_plain, same_equivalence, same_eq_answer, fun f g hf hg => same_mapSpans hf hg,
    fun h a b => distinctBy?_of_spanned h, hforms, fun s t => ⟨spanned_ofSheet s, s.distinct_eq t, ?_⟩⟩
  intro h
  obtain ⟨hblocks, hlistings⟩ := hforms _ _ h
  rw [s.written_ofSheet.1, t.written_ofSheet.1] at hblocks
  rw [s.written_ofSheet.2, t.written_ofSheet.2] at hlistings
  exact ⟨Option.some.inj hblocks, Option.some.inj hlistings⟩

/-- A span with bounds that count from the end, and a text. -/
example : (span ⟨['r', 'e', 'd'], -2, 9⟩).same (text ['e', 'd']) = true := by decide

end Value

end Stylesheet
