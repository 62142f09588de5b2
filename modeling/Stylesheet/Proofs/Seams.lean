import Stylesheet.Proofs.Canonical
import Stylesheet.Proofs.Extent

/-!
# Between the spans

The spans of a sheet in the order of the source: each is a run of letters as long as possible, and all
that stands between two of them, up to blanks, is what the sheet says is there.
-/

namespace Stylesheet

/-! ## The spans of a sheet -/

def Rule.spans (r : Rule) : List Span := r.selector :: r.declarations.map (·.value)

def Sheet.spans (s : Sheet) : List Span := s.rules.flatMap Rule.spans

/-- A span with its seam: what stands between the span before and this one, without blanks. -/
structure Link where
  seam : Text
  span : Span
deriving DecidableEq

/-- The values of some declarations. In front of a value stand the name, its colon, and what is left of
the part before. -/
def Declaration.links (left : Text) : List Declaration → List Link
  | [] => []
  | d :: ds => ⟨left ++ d.kind.name ++ [':'], d.value⟩ :: links [';'] ds

/-- What is left behind the last value of some declarations. -/
def Declaration.left (left : Text) (ds : List Declaration) : Text := if ds = [] then left else [';']

def Rule.links (left : Text) (r : Rule) : List Link :=
  ⟨left, r.selector⟩ :: Declaration.links ['{'] r.declarations

/-- What is left behind the last span of a rule: `{}` if there are no declarations, and `;}` if there
are. -/
def Rule.left (r : Rule) : Text := Declaration.left ['{'] r.declarations ++ ['}']

def Rule.allLinks (left : Text) : List Rule → List Link
  | [] => []
  | r :: rs => r.links left ++ allLinks r.left rs

def Sheet.links (s : Sheet) : List Link := Rule.allLinks [] s.rules

theorem Declaration.map_span_links (left : Text) (ds : List Declaration) :
    (links left ds).map (·.span) = ds.map (·.value) := by
  induction ds generalizing left with
  | nil => rfl
  | cons d ds ih => rw [links, List.map_cons, ih, List.map_cons]

theorem Rule.map_span_allLinks (left : Text) (rs : List Rule) :
    (allLinks left rs).map (·.span) = rs.flatMap spans := by
  induction rs generalizing left with
  | nil => rfl
  | cons r rs ih =>
    rw [allLinks, List.map_append, ih, links, List.map_cons, Declaration.map_span_links,
      List.flatMap_cons, spans]

/-! ## Seams -/

/-- Up to blanks, this is what stands between two positions of a source. -/
structure Seam (source : Text) (p q : Int) (t : Text) : Prop where
  nonneg : 0 ≤ p
  le : p ≤ q
  le_length : q ≤ source.length
  squeeze : (Text.slice source p q).squeeze = t

variable {source t u : Text} {p q r : Int}

theorem Text.slice_append (hp : 0 ≤ p) (hpq : p ≤ q) (hqr : q ≤ r) (hr : r ≤ source.length) :
    slice source p r = slice source p q ++ slice source q r := by
  obtain ⟨a, rfl⟩ := Int.eq_ofNat_of_zero_le hp
  obtain ⟨b, rfl⟩ := Int.eq_ofNat_of_zero_le (Int.le_trans hp hpq)
  obtain ⟨k, rfl⟩ := Int.le.dest hqr
  rw [← Int.natCast_add] at hr ⊢
  rw [slice_of_nat _ (by omega) (by omega), slice_of_nat _ (by omega) (by omega),
    slice_of_nat _ (by omega) (by omega), List.take_add,
    List.drop_append_of_le_length (by rw [List.length_take]; omega),
    List.drop_left' (by rw [List.length_take]; omega)]

theorem Seam.trans (h : Seam source p q t) (h' : Seam source q r u) : Seam source p r (t ++ u) where
  nonneg := h.nonneg
  le := Int.le_trans h.le h'.le
  le_length := h'.le_length
  squeeze := by
    rw [Text.slice_append h.nonneg h.le h'.le h'.le_length, Text.squeeze_append, h.squeeze, h'.squeeze]

/-- Only blanks in between change nothing. -/
theorem Seam.blank (h : Seam source p q t) (h' : Seam source q r []) : Seam source p r t := by
  have hboth := h.trans h'
  rwa [List.append_nil] at hboth

/-- Where something stands between two positions, they are not the same. -/
theorem Seam.lt (h : Seam source p q t) (ht : t ≠ []) : p < q := by
  refine Int.lt_iff_le_and_ne.mpr ⟨h.le, fun heq => ht ?_⟩
  have hnil : Text.slice source p q = [] := by
    rw [heq, Text.slice, List.drop_eq_nil_of_le]
    rw [List.length_take]
    omega
  rw [← h.squeeze, hnil]
  rfl

theorem Cursor.Covers.seam {c d : Cursor} (hc : c.In source) (h : c.Covers d t) :
    Seam source c.pos d.pos t.squeeze := by
  have htext : Text.slice source c.pos d.pos = t := text_between hc h.1 h.2
  obtain ⟨before, hsource, hp⟩ := hc
  have hlength := congrArg List.length hsource
  have hrest := congrArg List.length h.1
  have hd := h.2
  simp only [List.length_append] at hlength hrest
  exact ⟨by omega, by omega, by omega, by rw [htext]⟩

/-! ## Whole words -/

/-- A span that covers a run of letters which goes on on neither side. The size of the span is that of
its text, as far as sizes go. -/
structure Span.WholeWord (source : Text) (s : Span) : Prop where
  inside : s.Inside source
  isWord : IsWord s.text
  noLetterBefore : ∀ c ∈ (source.take s.start.toNat).getLast?, isLetter c = false
  noLetterBehind : NoLetter (source.drop s.stop.toNat)
  size : s.size =
    if (s.text.length : Int) < sizeLimit then .ok s.text.length else .error .tooLarge

theorem Span.Inside.length_text {s : Span} (h : s.Inside source) :
    (s.text.length : Int) = s.stop - s.start := by
  obtain ⟨_, start, stop⟩ := s
  obtain ⟨rfl, hstart, hlt, hstop⟩ := h
  simp only at hstart hlt hstop
  obtain ⟨a, rfl⟩ := Int.eq_ofNat_of_zero_le hstart
  obtain ⟨b, rfl⟩ := Int.eq_ofNat_of_zero_le (a := stop) (by omega)
  simp only [text]
  rw [Text.slice_of_nat _ (by omega) (by omega), List.length_drop, List.length_take]
  omega

theorem Span.Inside.size_eq {s : Span} (h : s.Inside source) : s.size =
    if (s.text.length : Int) < sizeLimit then .ok s.text.length else .error .tooLarge := by
  have hlength := h.length_text
  have hlt := h.2.2.1
  have hlimit : 0 < sizeLimit := by decide
  simp only [size, hlength]
  split
  · rw [if_neg (by omega)]
  · rw [if_neg (by omega), if_pos (by omega)]

namespace Cursor

variable {c d : Cursor} {s : Span}

/-- No letter stands right before a cursor of the source. -/
structure Clear (source : Text) (c : Cursor) : Prop where
  inSource : c.In source
  noLetter : ∀ x ∈ (source.take c.pos.toNat).getLast?, isLetter x = false

theorem clear_start (source : Text) : (start source).Clear source :=
  ⟨in_start source, by simp [start]⟩

theorem clear_of_covers {a : Text} {x : Char} (hc : c.In source) (h : c.Covers d (a ++ [x]))
    (hx : isLetter x = false) : d.Clear source := by
  refine ⟨hc.advance h.1 h.2, ?_⟩
  obtain ⟨before, rfl, hp⟩ := hc
  have hpos : d.pos.toNat = (before ++ a ++ [x]).length := by
    rw [h.2, hp]
    simp only [List.length_append]
    omega
  have hcut : before ++ c.rest = before ++ a ++ [x] ++ d.rest := by simp [h.1]
  rw [hcut, hpos, List.take_left]
  simpa using hx

theorem Clear.skip (hc : c.Clear source) : c.skip.Clear source := by
  obtain ⟨b, hb, hcovers⟩ := covers_skip c
  rcases List.eq_nil_or_concat b with rfl | ⟨a, x, rfl⟩
  · have hpos : c.skip.pos = c.pos := by simpa using hcovers.2
    exact ⟨hc.inSource.skip, by rw [hpos]; exact hc.noLetter⟩
  · rw [List.concat_eq_append] at hcovers hb
    exact clear_of_covers hc.inSource hcovers (not_isLetter_of_isBlank (hb x (by simp)))

/-! ## Tokens -/

theorem seam_skip (hc : c.In source) : Seam source c.pos c.skip.pos [] := by
  obtain ⟨b, hb, hcovers⟩ := covers_skip c
  have hseam := hcovers.seam hc
  rwa [Text.squeeze_blanks hb] at hseam

theorem seam_mark {x : Char} (hc : c.In source) (hb : isBlank x = false) (hl : isLetter x = false)
    (h : c.skip.mark [x] = .ok d) : Seam source c.pos d.pos [x] ∧ d.Clear source := by
  obtain ⟨b, hblanks, hcovers⟩ := covers_mark h
  have hseam := hcovers.seam hc
  rw [Text.squeeze_append, Text.squeeze_blanks hblanks, Text.squeeze_mark hb] at hseam
  exact ⟨hseam, clear_of_covers hc hcovers hl⟩

/-- A word that is read is a whole word, with only blanks in front of it. -/
theorem seam_word (hc : c.Clear source) (h : c.skip.word source = .ok (s, d)) :
    Seam source c.pos s.start [] ∧ s.stop = d.pos ∧ s.WholeWord source := by
  obtain ⟨hword, hin, -⟩ := covers_word hc.inSource h
  obtain ⟨before, hsource, hp⟩ := hc.inSource.skip.word h
  obtain ⟨-, rfl, rfl⟩ := word_eq_ok.mp h
  refine ⟨seam_skip hc.inSource, rfl, hin, hword, hc.skip.noLetter, ?_, hin.size_eq⟩
  have hbehind : source.drop (c.skip.past isLetter).pos.toNat = (c.skip.past isLetter).rest := by
    rw [hp, Int.toNat_natCast]
    conv_lhs => rw [hsource, List.drop_left]
  simp only [hbehind]
  exact noLetter_dropWhile _

end Cursor

/-! ## Spans one after another -/

/-- From a position on, each span is a whole word, with its seam in front of it. -/
def Strung (source : Text) : Int → List Link → Prop
  | _, [] => True
  | p, x :: xs =>
    Seam source p x.span.start x.seam ∧ x.span.WholeWord source ∧ Strung source x.span.stop xs

namespace Cursor

variable {c d : Cursor} {p : Declaration} {r : Rule} {left : Text} {q : Int} {xs : List Link}

theorem seam_declaration (hc : c.Clear source) (h : c.declaration source = .ok (p, d)) :
    Seam source c.pos p.value.start (p.kind.name ++ [':']) ∧ p.value.WholeWord source ∧
      Seam source p.value.stop d.pos [';'] ∧ d.Clear source := by
  obtain ⟨name, c₁, c₂, c₃, hname, hcolon, hkind, hvalue, hend⟩ := declaration_eq_ok.mp h
  obtain ⟨-, hspelled⟩ := PropertyKind.ofName?_eq_some hkind
  have hc₁ := hc.inSource.skip.word hname
  obtain ⟨hword, -, b, hb, -, hcovers⟩ := covers_word hc.inSource hname
  have hbefore := hcovers.seam hc.inSource
  rw [Text.squeeze_append, Text.squeeze_blanks hb, Text.squeeze_word hword, List.nil_append,
    ← hspelled] at hbefore
  obtain ⟨hmark, hclear⟩ := seam_mark hc₁ (by decide) (by decide) hcolon
  obtain ⟨hgap, hstop, hwhole⟩ := seam_word hclear hvalue
  have hc₃ := hclear.inSource.skip.word hvalue
  obtain ⟨hclose, hclear'⟩ := seam_mark hc₃ (by decide) (by decide) hend
  exact ⟨(hbefore.trans hmark).blank hgap, hwhole, hstop ▸ hclose, hclear'⟩

theorem strung_declarations {c : Cursor} {ps : List Declaration} {left : Text} {q : Int}
    (hc : c.Clear source) (h : c.declarations source = .ok (ps, d)) (hleft : Seam source q c.pos left)
    (hxs : ∀ p, d.Clear source → Seam source p d.pos (Declaration.left left ps) →
      Strung source p xs) :
    Strung source q (Declaration.links left ps ++ xs) := by
  -- On the source that is left. What follows the block is told where the block ends, and what is left of
  -- the last declaration in front of it.
  rw [declarations_eq] at h
  split at h
  · obtain ⟨⟨p, next⟩, hp, h⟩ := bind_eq_ok.mp h
    obtain ⟨⟨ps', last⟩, hps, h⟩ := bind_eq_ok.mp h
    cases h
    have := length_of_declaration hp
    have := length_skip_le c
    obtain ⟨hbefore, hwhole, hbehind, hclear⟩ := seam_declaration hc.skip hp
    have hseam := (hleft.blank (seam_skip hc.inSource)).trans hbefore
    rw [← List.append_assoc] at hseam
    refine ⟨hseam, hwhole, strung_declarations hclear hps hbehind fun p hlast hend => hxs p hlast ?_⟩
    rw [Declaration.left, if_neg (List.cons_ne_nil _ _)]
    rw [Declaration.left, ite_self] at hend
    exact hend
  · cases h
    exact hxs q hc.skip (hleft.blank (seam_skip hc.inSource))
termination_by c.rest.length

theorem strung_rule (hc : c.Clear source) (h : c.rule source = .ok (r, d))
    (hleft : Seam source q c.pos left)
    (hxs : ∀ p, d.Clear source → Seam source p d.pos r.left → Strung source p xs) :
    Strung source q (r.links left ++ xs) := by
  obtain ⟨c₁, c₂, c₃, hselector, hopen, hblock, hclose⟩ := rule_eq_ok.mp h
  obtain ⟨hgap, hstop, hwhole⟩ := seam_word hc hselector
  obtain ⟨hmark, hclear⟩ := seam_mark (hc.inSource.skip.word hselector) (by decide) (by decide) hopen
  rw [← hstop] at hmark
  refine ⟨hleft.blank hgap, hwhole,
    strung_declarations hclear hblock hmark fun p hc₃ hbehind => ?_⟩
  obtain ⟨hbrace, hend⟩ := seam_mark hc₃.inSource (by decide) (by decide) hclose
  exact hxs p hend (hbehind.trans hbrace)

theorem strung_rules {c : Cursor} {rs : List Rule} {left : Text} {q : Int}
    (hc : c.Clear source) (h : c.rules source = (rs, none)) (hleft : Seam source q c.pos left) :
    Strung source q (Rule.allLinks left rs) := by
  -- On the source that is left. A seam can begin in one rule and end in the next.
  rw [rules_eq] at h
  split at h
  · cases h
    trivial
  · split at h
    · cases h
    · rename_i r next hr
      have := length_of_rule hr
      have := length_skip_le c
      obtain ⟨rfl, hnone⟩ := Prod.mk.inj h
      have hrules : next.rules source = ((next.rules source).1, none) := by rw [← hnone]
      have hseam := hleft.blank (seam_skip hc.inSource)
      exact strung_rule hc.skip hr hseam fun p hnext hend => strung_rules hnext hrules hend
termination_by c.rest.length

end Cursor

/-! ## The spans of an accepted source -/

/-- A span stands before another one, and between the two there is only the seam of the second one. -/
def Link.Precedes (source : Text) (x y : Link) : Prop :=
  x.span.stop < y.span.start ∧ (Text.slice source x.span.stop y.span.start).squeeze = y.seam

theorem Declaration.seam_ne_nil {left : Text} {ds : List Declaration} :
    ∀ x ∈ links left ds, x.seam ≠ [] := by
  induction ds generalizing left with
  | nil => simp [links]
  | cons d ds ih =>
    intro x hx
    rcases List.mem_cons.mp hx with rfl | hx
    · simp
    · exact ih x hx

/-- Only the first span of a sheet can have nothing in front of it. -/
theorem Rule.seam_ne_nil (left : Text) (rs : List Rule) :
    ∀ x ∈ (allLinks left rs).tail, x.seam ≠ [] := by
  induction rs generalizing left with
  | nil => simp [allLinks]
  | cons r rs ih =>
    intro x hx
    rcases List.mem_append.mp (show x ∈ Declaration.links ['{'] r.declarations ++ allLinks r.left rs
      from hx) with hx | hx
    · exact Declaration.seam_ne_nil x hx
    · cases rs with
      | nil => cases hx
      | cons q rs =>
        rcases List.mem_cons.mp hx with rfl | hx
        · simp [Rule.left]
        · exact ih [] x hx

theorem Strung.isChain {xs : List Link} (h : Strung source p xs)
    (hseams : ∀ x ∈ xs.tail, x.seam ≠ []) : xs.IsChain (Link.Precedes source) := by
  induction xs generalizing p with
  | nil => exact .nil
  | cons x xs ih =>
    obtain ⟨-, -, hrest⟩ := h
    have hchain := ih hrest fun y hy => hseams y (List.mem_of_mem_tail hy)
    cases xs with
    | nil => exact .singleton x
    | cons y ys =>
      exact .cons_cons ⟨hrest.1.lt (hseams y List.mem_cons_self), hrest.1.squeeze⟩ hchain

theorem Strung.wholeWord {xs : List Link} (h : Strung source p xs) :
    ∀ x ∈ xs, x.span.WholeWord source := by
  induction xs generalizing p with
  | nil => simp
  | cons x xs ih =>
    obtain ⟨-, hwhole, hrest⟩ := h
    intro y hy
    rcases List.mem_cons.mp hy with rfl | hy
    · exact hwhole
    · exact ih hrest y hy

/-- The spans of an accepted source are whole words of it, one behind the other: with blanks in front of
the first one, and between two of them, up to blanks, what the sheet says is there. -/
theorem spans_of_parse? (source : Text) (s : Sheet) (h : Sheet.parse? source = .ok s) :
    s.links.map (·.span) = s.spans ∧ (∀ span ∈ s.spans, span.WholeWord source) ∧
      (∀ x ∈ s.links.head?, (Text.slice source 0 x.span.start).squeeze = x.seam) ∧
      s.links.IsChain (Link.Precedes source) := by
  have hnil : Seam source 0 0 [] :=
    ⟨by omega, by omega, by omega, by simp [Text.slice, Text.squeeze]⟩
  have hstrung : Strung source 0 s.links :=
    Cursor.strung_rules (Cursor.clear_start source) (parse?_eq_ok.mp h) hnil
  have hspans : s.links.map (·.span) = s.spans := Rule.map_span_allLinks [] s.rules
  refine ⟨hspans, ?_, ?_, hstrung.isChain (Rule.seam_ne_nil [] s.rules)⟩
  · rw [← hspans, List.forall_mem_map]
    exact hstrung.wholeWord
  · intro x hx
    cases hlinks : s.links with
    | nil => simp [hlinks] at hx
    | cons y ys =>
      obtain rfl : y = x := by simpa [hlinks] using hx
      rw [hlinks] at hstrung
      exact hstrung.1.squeeze

/-- A rule with two declarations of the same property, and an empty one behind it. -/
theorem spans_of_two_rules :
    let source : Text := ['a', '{', 'c', 'o', 'l', 'o', 'r', ':', 'b', ' ', ';', 'c', 'o', 'l', 'o', 'r',
      ':', 'd', ';', '}', '\n', 'e', '{', '}']
    ∃ s, Sheet.parse? source = .ok s ∧ (∀ span ∈ s.spans, span.WholeWord source) ∧
      s.links.IsChain (Link.Precedes source) ∧
      s.links.map (·.seam) = [[], ['{', 'c', 'o', 'l', 'o', 'r', ':'],
        [';', 'c', 'o', 'l', 'o', 'r', ':'], [';', '}']] := by
  intro source
  let first : Rule := ⟨⟨source, 0, 1⟩, [⟨.color, ⟨source, 8, 9⟩⟩, ⟨.color, ⟨source, 17, 18⟩⟩]⟩
  let s : Sheet := ⟨[first, ⟨⟨source, 21, 22⟩, []⟩]⟩
  have hparse : Sheet.parse? source = .ok s := by decide +kernel
  obtain ⟨-, hwhole, -, hchain⟩ := spans_of_parse? source s hparse
  exact ⟨s, hparse, hwhole, hchain, by decide⟩

end Stylesheet
