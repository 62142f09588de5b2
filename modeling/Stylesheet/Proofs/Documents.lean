import Mathlib.Data.List.Pairwise
import Stylesheet.Proofs.Items
import Stylesheet.Proofs.Values

/-!
# Setting a value in a document

A string in the place of a value is written between the tokens that stood around the value. What is
written is read as the document with the string.
-/

namespace Stylesheet.Toml

/-! ## Holes -/

/-- Items with a place that is left open: among the items, or between the brackets of one of them. -/
inductive Hole
  | outer (P S : List Item)
  | inner (P : List Item) (b : Bracket) (P' S' S : List Item)

namespace Hole

def fill : Hole → Item → List Item
  | outer P S, i => P ++ i :: S
  | inner P b P' S' S, i => P ++ .group b (P' ++ i :: S') :: S

def site : Hole → Document.Site
  | outer P _ => ⟨P.length, none⟩
  | inner P _ P' _ _ => ⟨P.length, some P'.length⟩

/-- No string stands right beside the hole. -/
def Apart : Hole → Prop
  | outer P S => Item.Apart P S
  | inner _ _ P' S' _ => Item.Apart P' S'

/-- The tokens before the hole. -/
def before : Hole → List Token
  | outer P _ => Item.tokensOf P
  | inner P b P' _ _ => Item.tokensOf P ++ .mark b.opening :: Item.tokensOf P'

/-- The tokens behind the hole. -/
def behind : Hole → List Token
  | outer _ S => Item.tokensOf S
  | inner _ b _ S' S => Item.tokensOf S' ++ .mark b.closing :: Item.tokensOf S

theorem setItem_fill (h : Hole) (i j : Item) : Document.setItem (h.fill i) h.site j = h.fill j := by
  cases h with
  | outer P S => simp [Document.setItem, fill, site]
  | inner P b P' S' S => simp [Document.setItem, fill, site, List.modify_eq_take_drop]

theorem tokensOf_fill (h : Hole) (i : Item) :
    Item.tokensOf (h.fill i) = h.before ++ (Item.tokens i ++ h.behind) := by
  cases h with
  | outer P S => rw [fill, Item.tokensOf_append, Item.tokensOf]; rfl
  | inner P b P' S' S => simp [fill, before, behind, Item.tokensOf_append, Item.tokensOf, Item.tokens]

theorem allPlain_fill {h : Hole} {i j : Item} (hi : Item.AllPlain (h.fill i)) (hj : Item.Plain j) :
    Item.AllPlain (h.fill j) := by
  cases h with
  | outer P S =>
    simp only [fill, Item.allPlain_iff, List.forall_mem_append, List.forall_mem_cons] at hi ⊢
    exact ⟨hi.1, hj, hi.2.2⟩
  | inner P b P' S' S =>
    simp only [fill, Item.allPlain_iff, List.forall_mem_append, List.forall_mem_cons, Item.Plain]
      at hi ⊢
    exact ⟨hi.1, ⟨hi.2.1.1, hj, hi.2.1.2.2⟩, hi.2.2⟩

end Hole

namespace Item

/-- Items that are read from their text. -/
structure Written (is : List Item) : Prop where
  reads : Token.Reads (tokensOf is) []
  plain : AllPlain is

theorem ofTokens?_bind_eq_some_iff {t : Text} {is : List Item} :
    (Token.all? t).bind ofTokens? = some is ↔ text is = t ∧ Written is := by
  simp only [Option.bind_eq_some_iff, Token.all?_eq_some_iff, ofTokens?_eq_some_iff]
  constructor
  · rintro ⟨ts, ⟨ht, hreads⟩, rfl, hplain⟩
    exact ⟨ht, hreads, hplain⟩
  · rintro ⟨ht, hreads, hplain⟩
    exact ⟨_, ⟨ht, hreads⟩, rfl, hplain⟩

theorem Apart.before_isQuoted {P S : List Item} (h : Apart P S) (ts : List Token) :
    ∀ t ∈ (ts ++ tokensOf P).getLast?, t.isQuoted = false := by
  obtain ⟨P', i, rfl, t, rfl, ht⟩ := h.before
  rw [tokensOf_append, tokensOf_singleton, tokens, ← List.append_assoc, List.getLast?_concat]
  rintro _ ⟨⟩
  exact ht

theorem Apart.behind_isQuoted {P S : List Item} (h : Apart P S) {ts : List Token}
    (hts : ∀ t ∈ ts.head?, t.isQuoted = false) : ∀ t ∈ (tokensOf S ++ ts).head?, t.isQuoted = false := by
  cases S with
  | nil => exact hts
  | cons s S =>
    obtain ⟨t, rfl, ht⟩ := h.behind s rfl
    rintro _ ⟨⟩
    exact ht

/-- A string fits into a hole that a value was in. -/
theorem Written.fill {h : Hole} {i : Item} {l : Literal} (hw : Written (h.fill i)) (ha : h.Apart)
    (hi : literal? i = some l) (v : Text) : Written (h.fill (token (Token.ofText v))) := by
  refine ⟨?_, h.allPlain_fill hw.plain rfl⟩
  have hreads := hw.reads
  rw [h.tokensOf_fill] at hreads ⊢
  refine hreads.put v ?_ ?_ ?_
  · rcases cases_of_literal? hi with ⟨w, rfl⟩ | ⟨w, m, rfl⟩ | ⟨b, inner, rfl⟩ <;>
      exact ⟨_, _, rfl, fun he => nomatch he⟩
  · cases h with
    | outer P S => exact ha.before_isQuoted []
    | inner P b P' S' S =>
      rw [Hole.before, List.append_cons]
      exact ha.before_isQuoted _
  · cases h with
    | outer P S =>
      have hnone : ∀ t ∈ ([] : List Token).head?, t.isQuoted = false := fun t ht => nomatch ht
      simpa [Hole.behind] using ha.behind_isQuoted hnone
    | inner P b P' S' S =>
      refine ha.behind_isQuoted ?_
      rintro _ ⟨⟩
      rfl

/-- Words mean truth values and numbers. -/
theorem cases_of_wordLiteral? {w : Text} {l : Literal} (h : wordLiteral? w = some l) :
    (∃ b, l = .boolean b) ∨ ∃ n, l = .integer n := by
  unfold wordLiteral? at h
  split at h
  · cases h
    exact .inl ⟨_, rfl⟩
  split at h
  · cases h
    exact .inl ⟨_, rfl⟩
  split at h <;> obtain ⟨n, -, hn⟩ := Option.map_eq_some_iff.mp h <;> exact .inr ⟨_, hn.symm⟩

/-- Only quoted tokens mean strings. -/
theorem quoted_of_literal?_text {i : Item} {t : Text} (h : literal? i = some (.text t)) :
    ∃ w, i = token (.quoted w t) := by
  rcases cases_of_literal? h with ⟨w, rfl⟩ | ⟨w, m, rfl⟩ | ⟨b, inner, rfl⟩
  · obtain ⟨b, hb⟩ | ⟨n, hn⟩ := cases_of_wordLiteral? h
    · cases hb
    · cases hn
  · cases h
    exact ⟨w, rfl⟩
  · cases b with
    | square =>
      obtain ⟨ls, -, hls⟩ := Option.map_eq_some_iff.mp (show Cell.array? _ = _ from h)
      cases hls
    | curly =>
      have htable : Cell.table? (cellsFrom 0 inner) = some (.text t) := h
      unfold Cell.table? at htable
      split at htable
      · cases htable
      · obtain ⟨entries, -, hentries⟩ := Option.bind_eq_some_iff.mp htable
        split at hentries <;> cases hentries

theorem group_of_literal?_table {i : Item} {entries : List (List Text × Nat × Literal)}
    (h : literal? i = some (.table entries)) :
    ∃ inner, i = group .curly inner ∧ Cell.table? (cellsFrom 0 inner) = some (.table entries) := by
  rcases cases_of_literal? h with ⟨w, rfl⟩ | ⟨w, m, rfl⟩ | ⟨b, inner, rfl⟩
  · obtain ⟨b, hb⟩ | ⟨n, hn⟩ := cases_of_wordLiteral? h
    · cases hb
    · cases hn
  · cases h
  · cases b with
    | square =>
      obtain ⟨ls, -, hls⟩ := Option.map_eq_some_iff.mp (show Cell.array? _ = _ from h)
      cases hls
    | curly => exact ⟨inner, rfl, h⟩

end Item

theorem Registry.path_ne_nil {r r' : Registry} {table p : Path} {key : List Text}
    (h : r.bind? table key = some (r', p)) : p ≠ [] := by
  obtain ⟨last, -, h⟩ := Option.bind_eq_some_iff.mp h
  obtain ⟨⟨r₁, at'⟩, -, h⟩ := Option.bind_eq_some_iff.mp h
  simp only at h
  split at h
  · cases h
    exact List.concat_ne_nil _ _
  · cases h

namespace Document

theorem setLiteral_none (v : Text) (l : Literal) : setLiteral none v l = .text v := by
  cases l <;> rfl

theorem Binding.find?_eq_some {names : Path} {b : Binding} {s : Site} {l : Literal}
    (h : Binding.find? names b = some (s, l)) :
    (b.path = names ∧ s = ⟨b.place, none⟩ ∧ l = b.value) ∨
      (b.path ≠ names ∧ ∃ entries key place, b.value = .table entries ∧ (key, place, l) ∈ entries ∧
        b.path ++ Path.ofNames key = names ∧ s = ⟨b.place, some place⟩) := by
  unfold Binding.find? at h
  split at h
  · cases h
    exact .inl ⟨‹_›, rfl, rfl⟩
  · split at h
    · rename_i hne _ entries hvalue
      obtain ⟨⟨key, place, v⟩, hmem, hentry⟩ := List.exists_of_findSome?_eq_some h
      simp only at hentry
      split at hentry
      · cases hentry
        exact .inr ⟨hne, entries, key, place, hvalue, hmem, ‹_›, rfl⟩
      · cases hentry
    · cases h

theorem Binding.outer_of_find? {names : Path} {b : Binding} {s : Site} {l : Literal}
    (h : Binding.find? names b = some (s, l)) : s.outer = b.place := by
  rcases Binding.find?_eq_some h with ⟨-, rfl, -⟩ | ⟨-, -, -, -, -, -, -, rfl⟩ <;> rfl

/-- A value that is found stands in a hole, and a string in the hole is read in its place. -/
theorem exists_hole {is : List Item} {lines : List Line} {key : List Text} {b : Binding}
    {names : Path} {s : Site} {l : Literal} (h : Line.all? is = some lines)
    (hb : .binding key b.place b.value ∈ lines) (hf : Binding.find? names b = some (s, l)) :
    ∃ (hole : Hole) (i : Item), is = hole.fill i ∧ hole.site = s ∧ hole.Apart ∧
      Item.literal? i = some l ∧ ∀ v, Line.all? (hole.fill (.token (Token.ofText v))) =
        some (lines.map (Line.put b.place (setLiteral s.inner v b.value))) := by
  obtain ⟨P, i, S, rfl, hP⟩ := Line.exists_around_of_mem h hb
  rw [← hP] at hb
  obtain ⟨hvalue, hapart, hput⟩ := Line.put_of_mem h hb
  rcases Binding.find?_eq_some hf with ⟨-, rfl, rfl⟩ |
    ⟨-, entries, key', place, htable, hmem, -, rfl⟩
  · refine ⟨.outer P S, i, rfl, ?_, hapart, hvalue, fun v => ?_⟩
    · rw [Hole.site, hP]
    · rw [setLiteral_none, ← hP]
      exact hput _ _ rfl
  · rw [htable] at hvalue
    obtain ⟨inner, rfl, hinner⟩ := Item.group_of_literal?_table hvalue
    obtain ⟨P', j, S', rfl, hP'⟩ := Cell.exists_around_of_mem_table hinner hmem
    rw [← hP'] at hmem
    obtain ⟨hvalue', hapart', hput'⟩ := Cell.table?_put_of_mem hinner hmem
    refine ⟨.inner P .curly P' S' S, j, rfl, ?_, hapart', hvalue', fun v => ?_⟩
    · rw [Hole.site, hP, hP']
    · rw [htable, ← hP, ← hP']
      exact hput _ _ (hput' _ _ rfl)

/-! ## Reading again -/

def Binding.put (place : Nat) (new : Literal) (b : Binding) : Binding :=
  if b.place = place then { b with value := new } else b

theorem bind?_put (place : Nat) (new : Literal) (r : Registry) (table : Path) (lines : List Line) :
    bind? r table (lines.map (Line.put place new)) =
      (bind? r table lines).map fun (r, bs) => (r, bs.map (Binding.put place new)) := by
  induction lines generalizing r table with
  | nil => rfl
  | cons line lines ih =>
    rw [List.map_cons]
    cases line with
    | empty => exact ih r table
    | table key =>
      rw [show Line.put place new (.table key) = .table key from rfl, bind?, bind?]
      rcases r.openTable? key with _ | ⟨r', p⟩
      · rfl
      · exact ih r' p
    | tables key =>
      rw [show Line.put place new (.tables key) = .tables key from rfl, bind?, bind?]
      rcases r.openNext? key with _ | ⟨r', p⟩
      · rfl
      · exact ih r' p
    | binding key p value =>
      rw [Line.put, bind?, bind?]
      rcases r.bind? table key with _ | ⟨r', q⟩
      · rfl
      · simp only [bind, Option.bind_some, ih]
        rcases bind? r' table lines with _ | ⟨r'', bs⟩
        · rfl
        · by_cases hp : p = place <;> simp [Binding.put, hp]

/-- A binding comes from a line. -/
theorem exists_line_of_bind? {r r' : Registry} {table : Path} {lines : List Line} {bs : List Binding}
    {b : Binding} (h : bind? r table lines = some (r', bs)) (hb : b ∈ bs) :
    ∃ key, .binding key b.place b.value ∈ lines ∧ b.path ≠ [] := by
  induction lines generalizing r table bs with
  | nil =>
    cases h
    cases hb
  | cons line lines ih =>
    have hrest {r : Registry} {table : Path} {bs : List Binding} (h : bind? r table lines = some (r', bs))
        (hb : b ∈ bs) : ∃ key, .binding key b.place b.value ∈ line :: lines ∧ b.path ≠ [] := by
      obtain ⟨key, hmem, hpath⟩ := ih h hb
      exact ⟨key, List.mem_cons_of_mem _ hmem, hpath⟩
    cases line with
    | empty => exact hrest h hb
    | table key | tables key =>
      obtain ⟨⟨r₁, p⟩, -, h⟩ := Option.bind_eq_some_iff.mp h
      exact hrest h hb
    | binding key place value =>
      obtain ⟨⟨r₁, p⟩, hp, h⟩ := Option.bind_eq_some_iff.mp h
      obtain ⟨⟨r₂, bs'⟩, hbind, h⟩ := Option.bind_eq_some_iff.mp h
      cases h
      rcases List.mem_cons.mp hb with rfl | hb
      · exact ⟨key, List.mem_cons_self, Registry.path_ne_nil hp⟩
      · exact hrest hbind hb

theorem ofItems?_eq_ok {is : List Item} {d : Document} :
    ofItems? is = .ok d ↔ d.items = is ∧ ∃ lines, Line.all? is = some lines ∧
      bind? [] [] lines = some (d.registry, d.bindings) := by
  obtain ⟨items, registry, bindings⟩ := d
  unfold ofItems?
  rcases Line.all? is with _ | lines
  · simp
  · rcases hbind : bind? [] [] lines with _ | ⟨r, bs⟩
    · simp [hbind]
    · simp [hbind, eq_comm]

theorem ofText?_eq_ok {t : Text} {d : Document} :
    ofText? t = .ok d ↔ d.text = t ∧ Item.Written d.items ∧ ofItems? d.items = .ok d := by
  unfold ofText? text
  rcases hread : (Token.all? t).bind Item.ofTokens? with _ | is
  · refine ⟨(fun h => nomatch h), fun ⟨ht, hw, _⟩ => ?_⟩
    cases hread.symm.trans (Item.ofTokens?_bind_eq_some_iff.mpr ⟨ht, hw⟩)
  · obtain ⟨ht, hw⟩ := Item.ofTokens?_bind_eq_some_iff.mp hread
    constructor
    · intro h
      obtain ⟨rfl, -⟩ := ofItems?_eq_ok.mp h
      exact ⟨ht, hw, h⟩
    · rintro ⟨ht', hw', h⟩
      cases hread.symm.trans (Item.ofTokens?_bind_eq_some_iff.mpr ⟨ht', hw'⟩)
      exact h

/-- A document comes from lines. -/
theorem exists_lines {t : Text} {d : Document} (h : ofText? t = .ok d) :
    ∃ lines, Line.all? d.items = some lines ∧ bind? [] [] lines = some (d.registry, d.bindings) :=
  (ofItems?_eq_ok.mp (ofText?_eq_ok.mp h).2.2).2

theorem exists_binding_of_find? {d : Document} {names : List Text} {s : Site} {l : Literal}
    (h : d.find? names = some (s, l)) :
    ∃ b ∈ d.bindings, Binding.find? (Path.ofNames names) b = some (s, l) :=
  List.exists_of_findSome?_eq_some h

/-- A document in which a value was set is read from its text. -/
theorem ofText?_set {t : Text} {d : Document} {names : List Text} {s : Site} {l : Literal}
    (h : ofText? t = .ok d) (hf : d.find? names = some (s, l)) (v : Text) :
    ofText? (d.set s v).text = .ok (d.set s v) := by
  obtain ⟨-, hw, -⟩ := ofText?_eq_ok.mp h
  obtain ⟨lines, hlines, hbind⟩ := exists_lines h
  obtain ⟨b, hb, hfb⟩ := exists_binding_of_find? hf
  obtain ⟨key, hline, -⟩ := exists_line_of_bind? hbind hb
  -- The lines are changed by place and the bindings by what they hold; a place holds one value.
  have hbindings (b') (hb' : b' ∈ d.bindings) :
      Binding.put b.place (setLiteral s.inner v b.value) b' = Binding.set s v b' := by
    unfold Binding.put Binding.set
    rw [Binding.outer_of_find? hfb]
    by_cases hplace : b'.place = b.place
    · obtain ⟨key', hline', -⟩ := exists_line_of_bind? hbind hb'
      rw [if_pos hplace, if_pos hplace, Line.value_unique hlines hline (hplace ▸ hline')]
    · rw [if_neg hplace, if_neg hplace]
  obtain ⟨hole, i, hfill, rfl, hapart, hvalue, hput⟩ := exists_hole hlines hline hfb
  have hset : (d.set hole.site v).items = hole.fill (.token (Token.ofText v)) := by
    rw [set, hfill, hole.setItem_fill]
  rw [ofText?_eq_ok, hset, ofItems?_eq_ok]
  refine ⟨rfl, (hfill ▸ hw).fill hapart hvalue v, hset, _, hput v, ?_⟩
  rw [bind?_put, hbind]
  exact congrArg (fun bs => some (d.registry, bs)) (List.map_congr_left hbindings)

/-- Only the characters of the value change. -/
theorem exists_text_set {t : Text} {d : Document} {names : List Text} {s : Site} {l : Literal}
    (h : ofText? t = .ok d) (hf : d.find? names = some (s, l)) :
    ∃ a i b, Item.literal? i = some l ∧ (∀ t ∈ Item.tokens i, t.Sound) ∧ t = a ++ Item.text [i] ++ b ∧
      ∀ v, (d.set s v).text = a ++ (Token.ofText v).written ++ b := by
  obtain ⟨ht, hw, -⟩ := ofText?_eq_ok.mp h
  obtain ⟨lines, hlines, hbind⟩ := exists_lines h
  obtain ⟨b, hb, hfb⟩ := exists_binding_of_find? hf
  obtain ⟨key, hline, -⟩ := exists_line_of_bind? hbind hb
  obtain ⟨hole, i, hfill, rfl, -, hvalue, -⟩ := exists_hole hlines hline hfb
  refine ⟨Token.text hole.before, i, Token.text hole.behind, hvalue, fun t ht => ?_, ?_, fun v => ?_⟩
  · refine hw.reads.sound t ?_
    rw [hfill, hole.tokensOf_fill]
    exact List.mem_append_right _ (List.mem_append_left _ ht)
  · rw [← ht, text, hfill, Item.text, hole.tokensOf_fill, Token.text_append, Token.text_append,
      Item.text, Item.tokensOf_singleton, List.append_assoc]
  · rw [text, set, hfill, hole.setItem_fill, Item.text, hole.tokensOf_fill, Item.tokens,
      Token.text_append, Token.text_append, List.append_assoc]
    simp [Token.text]

/-! ## Finding again -/

theorem pairwise_of_bind? {r r' : Registry} {table : Path} {lines : List Line} {bs : List Binding}
    (h : bind? r table lines = some (r', bs))
    (hlines : lines.Pairwise fun l l' => ∀ key key' place old old',
      l = .binding key place old → l' ≠ .binding key' place old') :
    bs.Pairwise (·.place ≠ ·.place) := by
  induction lines generalizing r table bs with
  | nil =>
    cases h
    exact List.Pairwise.nil
  | cons line lines ih =>
    obtain ⟨hline, hrest⟩ := List.pairwise_cons.mp hlines
    cases line with
    | empty => exact ih h hrest
    | table key | tables key =>
      obtain ⟨⟨r₁, p⟩, -, h⟩ := Option.bind_eq_some_iff.mp h
      exact ih h hrest
    | binding key place value =>
      obtain ⟨⟨r₁, p⟩, -, h⟩ := Option.bind_eq_some_iff.mp h
      obtain ⟨⟨r₂, bs'⟩, hbind, h⟩ := Option.bind_eq_some_iff.mp h
      cases h
      refine List.pairwise_cons.mpr ⟨fun b hb hplace => ?_, ih hbind hrest⟩
      obtain ⟨key', hmem, -⟩ := exists_line_of_bind? hbind hb
      exact hline _ hmem key key' place value b.value rfl (by rw [← hplace])

theorem exists_findSome?_map {β γ : Type} {f : β → Option γ} {g : β → β} {bs : List β} {a : γ}
    {Q : γ → Prop} (hnone : ∀ b ∈ bs, f b = none → f (g b) = none)
    (hsome : ∀ b ∈ bs, f b = some a → ∃ a', f (g b) = some a' ∧ Q a') (h : bs.findSome? f = some a) :
    ∃ a', (bs.map g).findSome? f = some a' ∧ Q a' := by
  induction bs with
  | nil => cases h
  | cons b bs ih =>
    rw [List.map_cons]
    rcases hb : f b with _ | a₁
    · rw [List.findSome?_cons, hb] at h
      rw [List.findSome?_cons, hnone b List.mem_cons_self hb]
      exact ih (fun b hb => hnone b (List.mem_cons_of_mem _ hb))
        (fun b hb => hsome b (List.mem_cons_of_mem _ hb)) h
    · rw [List.findSome?_cons, hb] at h
      cases h
      obtain ⟨a', ha', hQ⟩ := hsome b List.mem_cons_self hb
      exact ⟨a', by rw [List.findSome?_cons, ha'], hQ⟩

/-- An entry of a binding that leads along names. -/
def Binding.entry? (names : Path) (b : Binding) (entry : List Text × Nat × Literal) :
    Option (Site × Literal) :=
  if b.path ++ Path.ofNames entry.1 = names then some (⟨b.place, some entry.2.1⟩, entry.2.2) else none

theorem Binding.find?_of_ne {names : Path} {b : Binding} (h : b.path ≠ names) :
    Binding.find? names b =
      match b.value with
      | .table entries => entries.findSome? (Binding.entry? names b)
      | _ => none := by
  rw [Binding.find?, if_neg h]
  rfl

variable {names : Path} {b : Binding} {s : Site} {l : Literal}

@[simp] theorem Binding.path_set (s : Site) (v : Text) (b : Binding) :
    (Binding.set s v b).path = b.path := by
  unfold Binding.set
  split <;> rfl

@[simp] theorem Binding.place_set (s : Site) (v : Text) (b : Binding) :
    (Binding.set s v b).place = b.place := by
  unfold Binding.set
  split <;> rfl

theorem Binding.value_set (s : Site) (v : Text) (b : Binding) :
    (Binding.set s v b).value = if b.place = s.outer then setLiteral s.inner v b.value else b.value := by
  unfold Binding.set
  split <;> rfl

theorem Binding.set_of_ne (h : b.place ≠ s.outer) (v : Text) : Binding.set s v b = b := if_neg h

theorem Binding.entry?_putEntry (place : Nat) (new : Literal) (entry : List Text × Nat × Literal) :
    Binding.entry? names b (Cell.putEntry place new entry) =
      (Binding.entry? names b entry).map fun r =>
        (r.1, if r.1.inner = some place then new else r.2) := by
  by_cases hkey : b.path ++ Path.ofNames entry.1 = names
  · simp [Binding.entry?, Cell.putEntry, hkey]
  · simp [Binding.entry?, Cell.putEntry, hkey]

/-- Inside braces only the entry at the place is another. -/
theorem Binding.find?_set_table {entries : List (List Text × Nat × Literal)} {place : Nat}
    (hpath : b.path ≠ names) (hvalue : b.value = .table entries) (v : Text) :
    Binding.find? names (Binding.set ⟨b.place, some place⟩ v b) =
      (Binding.find? names b).map fun r => (r.1, if r.1.inner = some place then .text v else r.2) := by
  have hset : (Binding.set ⟨b.place, some place⟩ v b).value =
      .table (entries.map (Cell.putEntry place (.text v))) := by
    rw [Binding.value_set, if_pos rfl, hvalue]
    rfl
  have hentry : Binding.entry? names (Binding.set ⟨b.place, some place⟩ v b) = Binding.entry? names b := by
    unfold Binding.entry?
    rw [Binding.path_set, Binding.place_set]
  rw [Binding.find?_of_ne (by rwa [Binding.path_set]), Binding.find?_of_ne hpath, hset, hvalue]
  simp only
  rw [hentry, List.findSome?_map, List.map_findSome?]
  congr 1
  funext entry
  exact Binding.entry?_putEntry place (.text v) entry

theorem Binding.find?_set_eq_none (h : Binding.find? names b = none) (s : Site) (v : Text) :
    Binding.find? names (Binding.set s v b) = none := by
  by_cases hplace : b.place = s.outer
  case neg => rwa [Binding.set_of_ne hplace]
  have hpath : b.path ≠ names := fun hpath => by
    rw [Binding.find?, if_pos hpath] at h
    cases h
  have hpath' : (Binding.set s v b).path ≠ names := by rwa [Binding.path_set]
  rcases hinner : s.inner with _ | place
  · -- The value is a string now, so no path leads into it.
    rw [Binding.find?_of_ne hpath', Binding.value_set, if_pos hplace, hinner, setLiteral_none]
  · rcases hvalue : b.value with _ | _ | _ | _ | entries
    case table =>
      have hs : s = ⟨b.place, some place⟩ := by rw [hplace, ← hinner]
      rw [hs, Binding.find?_set_table hpath hvalue, h]
      rfl
    all_goals
      rw [Binding.find?_of_ne hpath', Binding.value_set, if_pos hplace, hinner, hvalue]
      rfl

theorem Binding.find?_set (h : Binding.find? names b = some (s, l)) (v : Text) :
    Binding.find? names (Binding.set s v b) = some (s, .text v) := by
  rcases Binding.find?_eq_some h with ⟨hpath, rfl, rfl⟩ | ⟨hpath, entries, _, place, hvalue, -, -, rfl⟩
  · rw [Binding.find?, if_pos (by rwa [Binding.path_set]), Binding.place_set, Binding.value_set,
      if_pos rfl, setLiteral_none]
  · rw [Binding.find?_set_table hpath hvalue, h]
    simp

variable {t : Text} {d : Document} {names : List Text}

theorem find?_set (hf : d.find? names = some (s, l)) (v : Text) :
    (d.set s v).find? names = some (s, .text v) := by
  obtain ⟨a, ha, rfl⟩ := exists_findSome?_map (f := Binding.find? (Path.ofNames names))
    (g := Binding.set s v) (Q := (· = (s, .text v)))
    (fun b _ hb => Binding.find?_set_eq_none hb s v)
    (fun b _ hb => ⟨_, Binding.find?_set hb v, rfl⟩) hf
  exact ha

theorem eq_of_place {b' : Binding} (h : ofText? t = .ok d) (hb : b ∈ d.bindings) (hb' : b' ∈ d.bindings)
    (hplace : b.place = b'.place) : b = b' := by
  obtain ⟨lines, hlines, hbind⟩ := exists_lines h
  have hpairwise := pairwise_of_bind? hbind (Line.pairwise_of_all? hlines)
  have : Std.Symm fun b b' : Binding => b.place ≠ b'.place := ⟨fun _ _ hne he => hne he.symm⟩
  by_contra hne
  exact hpairwise.forall hb hb' hne hplace

theorem path_ne_nil (h : ofText? t = .ok d) (hb : b ∈ d.bindings) : b.path ≠ [] := by
  obtain ⟨lines, -, hbind⟩ := exists_lines h
  obtain ⟨_, -, hpath⟩ := exists_line_of_bind? hbind hb
  exact hpath

/-- A table stays a table when the value of one of its keys is set. -/
theorem node_set {table key : Text} (h : ofText? t = .ok d) (hnode : d.node [table] = .table)
    (hf : d.find? [table, key] = some (s, l)) (v : Text) : (d.set s v).node [table] = .table := by
  have htable {s₀ : Site} {entries : List (List Text × Nat × Literal)}
      (hf₀ : d.find? [table] = some (s₀, .table entries)) :
      ∃ r, (d.set s v).find? [table] = some r ∧ ∃ entries', r.2 = .table entries' := by
    refine exists_findSome?_map (f := Binding.find? (Path.ofNames [table])) (g := Binding.set s v)
      (fun b _ hb => Binding.find?_set_eq_none hb s v) (fun b₀ hb₀ hfb₀ => ?_) hf₀
    by_cases hplace : b₀.place = s.outer
    case neg => exact ⟨_, (Binding.set_of_ne hplace v).symm ▸ hfb₀, entries, rfl⟩
    -- The table is written in braces, and the value that is set stands between them.
    obtain ⟨b, hb, hfb⟩ := exists_binding_of_find? hf
    obtain rfl := eq_of_place h hb hb₀ ((Binding.outer_of_find? hfb).symm.trans hplace.symm)
    rcases Binding.find?_eq_some hfb₀ with ⟨hpath, -, hvalue⟩ | ⟨hpath, -, key', -, -, -, hkey, -⟩
    · rcases Binding.find?_eq_some hfb with ⟨hpath', -, -⟩ | ⟨-, -, -, place, -, -, -, rfl⟩
      · cases hpath.symm.trans hpath'
      · refine ⟨(⟨b.place, none⟩, .table (entries.map (Cell.putEntry place (.text v)))), ?_, _, rfl⟩
        rw [Binding.find?, if_pos (by rwa [Binding.path_set]), Binding.place_set, Binding.value_set,
          if_pos rfl, ← hvalue]
        rfl
    · rcases hcons : b.path with _ | ⟨step, path⟩
      · exact absurd hcons (path_ne_nil h hb)
      · rw [hcons] at hkey hpath
        simp [Path.ofNames] at hkey hpath
        exact absurd hkey.2.1 (hpath hkey.1)
  have hrole : (d.set s v).registry = d.registry := rfl
  unfold node at hnode ⊢
  rw [hrole]
  generalize d.registry.role? (Path.ofNames [table]) = role at hnode ⊢
  rcases role with _ | _ | _ | _ | _ | _
  case none | some.sequence => cases hnode
  case some.value =>
    simp only at hnode ⊢
    split at hnode
    · rename_i hf₀
      obtain ⟨⟨s', _⟩, hr, entries', rfl⟩ := htable hf₀
      rw [hr]
    · cases hnode
    · cases hnode
  all_goals rfl

end Document

end Stylesheet.Toml
