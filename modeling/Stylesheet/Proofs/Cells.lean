import Mathlib.Data.List.TakeWhile
import Stylesheet.Toml.Document

/-!
# One cell among others

A cell with a value stands in one piece of its row. Another cell in its place changes the meaning of
this piece, and there only the value, while all other pieces mean what they meant.
-/

namespace Stylesheet.Toml

/-! ## Places -/

namespace Item

theorem cellsFrom_append (n : Nat) (is js : List Item) :
    cellsFrom n (is ++ js) = cellsFrom n is ++ cellsFrom (n + is.length) js := by
  induction is generalizing n with
  | nil => rfl
  | cons i is ih =>
    rw [List.cons_append, cellsFrom, cellsFrom, ih, List.cons_append, List.length_cons,
      Nat.add_right_comm, Nat.add_assoc]

theorem map_item_cellsFrom (n : Nat) (is : List Item) : (cellsFrom n is).map Cell.item = is := by
  induction is generalizing n with
  | nil => rfl
  | cons i is ih => rw [cellsFrom, List.map_cons, ih]

theorem place_of_mem_cellsFrom {n : Nat} {is : List Item} {x : Cell} (h : x ∈ cellsFrom n is) :
    n ≤ x.place ∧ x.place < n + is.length := by
  induction is generalizing n with
  | nil => cases h
  | cons i is ih =>
    rw [cellsFrom] at h
    rw [List.length_cons]
    rcases List.mem_cons.mp h with rfl | h
    · exact ⟨Nat.le_refl _, by simp only; omega⟩
    · have := ih h
      omega

theorem pairwise_cellsFrom (n : Nat) (is : List Item) :
    (cellsFrom n is).Pairwise (·.place ≠ ·.place) := by
  induction is generalizing n with
  | nil => exact List.Pairwise.nil
  | cons i is ih =>
    refine List.Pairwise.cons (fun y hy => ?_) (ih (n + 1))
    have := place_of_mem_cellsFrom hy
    simp only
    omega

end Item

namespace Cell

/-! ## Pieces -/

variable {isEnd : Cell → Bool} {x : Cell} {X Y M N : List Cell}

theorem exists_pieces (isEnd : Cell → Bool) (X : List Cell) : ∃ p ps, pieces isEnd X = p :: ps := by
  induction X with
  | nil => exact ⟨[], [], rfl⟩
  | cons x X ih =>
    obtain ⟨p, ps, h⟩ := ih
    cases hx : isEnd x
    · exact ⟨x :: p, ps, by simp [pieces, hx, h]⟩
    · exact ⟨[], p :: ps, by simp [pieces, hx, h]⟩

theorem pieces_cons_of_isEnd (h : isEnd x) : pieces isEnd (x :: X) = [] :: pieces isEnd X := by
  rw [pieces, if_pos h]

theorem pieces_cons_of_not {p : List Cell} {ps : List (List Cell)} (hx : isEnd x = false)
    (h : pieces isEnd X = p :: ps) : pieces isEnd (x :: X) = (x :: p) :: ps := by
  rw [pieces, if_neg (by simp [hx]), h]

theorem subset_of_mem_pieces {p : List Cell} (h : p ∈ pieces isEnd X) : p ⊆ X := by
  induction X generalizing p with
  | nil =>
    rw [List.mem_singleton.mp h]
    exact List.Subset.refl _
  | cons x X ih =>
    obtain ⟨q, qs, hpieces⟩ := exists_pieces isEnd X
    cases hx : isEnd x
    · rw [pieces_cons_of_not hx hpieces] at h
      rcases List.mem_cons.mp h with rfl | h
      · exact List.cons_subset_cons _ (ih (hpieces ▸ List.mem_cons_self))
      · exact List.subset_cons_of_subset _ (ih (hpieces ▸ List.mem_cons_of_mem _ h))
    · rw [pieces_cons_of_isEnd hx] at h
      rcases List.mem_cons.mp h with rfl | h
      · exact List.nil_subset _
      · exact List.subset_cons_of_subset _ (ih h)

theorem pairwise_pieces (h : X.Pairwise (·.place ≠ ·.place)) :
    (pieces isEnd X).Pairwise fun p q => ∀ y ∈ p, ∀ z ∈ q, y.place ≠ z.place := by
  induction X with
  | nil => exact List.pairwise_singleton _ _
  | cons x X ih =>
    obtain ⟨hx, hX⟩ := List.pairwise_cons.mp h
    obtain ⟨p, ps, hpieces⟩ := exists_pieces isEnd X
    have hsubset {q : List Cell} (hq : q ∈ p :: ps) : q ⊆ X := subset_of_mem_pieces (hpieces ▸ hq)
    have hrest := ih hX
    rw [hpieces] at hrest
    cases hend : isEnd x
    · rw [pieces_cons_of_not hend hpieces]
      obtain ⟨hp, hps⟩ := List.pairwise_cons.mp hrest
      refine List.pairwise_cons.mpr ⟨fun q hq y hy z hz => ?_, hps⟩
      rcases List.mem_cons.mp hy with rfl | hy
      · exact hx z (hsubset (List.mem_cons_of_mem _ hq) hz)
      · exact hp q hq y hy z hz
    · rw [pieces_cons_of_isEnd hend, hpieces]
      exact List.pairwise_cons.mpr ⟨(fun q hq y hy => nomatch hy), hrest⟩

/-- How a row is cut around a cell between `X` and `Y`: the pieces before and behind the piece of the
cell, and what stands in that piece. -/
structure Around (isEnd : Cell → Bool) (X Y : List Cell) (before : List (List Cell)) (M N : List Cell)
    (behind : List (List Cell)) : Prop where
  pieces_eq : ∀ x, isEnd x = false → pieces isEnd (X ++ x :: Y) = before ++ (M ++ x :: N) :: behind
  suffix : M <:+ X
  whole : before = [] → M = X
  ends : ∃ Z, Y = N ++ Z ∧ ∀ z ∈ Z.head?, isEnd z
  before_subset : ∀ p ∈ before, p ⊆ X
  behind_subset : ∀ p ∈ behind, p ⊆ Y

theorem exists_first_piece (isEnd : Cell → Bool) (Y : List Cell) :
    ∃ N ps Z, pieces isEnd Y = N :: ps ∧ Y = N ++ Z ∧ ∀ z ∈ Z.head?, isEnd z := by
  induction Y with
  | nil => exact ⟨[], [], [], rfl, rfl, (fun z hz => nomatch hz)⟩
  | cons y Y ih =>
    obtain ⟨N, ps, Z, hpieces, hY, hZ⟩ := ih
    cases hy : isEnd y
    · exact ⟨y :: N, ps, Z, pieces_cons_of_not hy hpieces, congrArg (y :: ·) hY, hZ⟩
    · refine ⟨[], pieces isEnd Y, y :: Y, pieces_cons_of_isEnd hy, rfl, fun z hz => ?_⟩
      cases hz
      exact hy

theorem exists_around (isEnd : Cell → Bool) (X Y : List Cell) :
    ∃ before M N behind, Around isEnd X Y before M N behind := by
  induction X with
  | nil =>
    obtain ⟨N, behind, Z, hpieces, hY, hZ⟩ := exists_first_piece isEnd Y
    refine ⟨[], [], N, behind, fun x hx => pieces_cons_of_not hx hpieces, List.suffix_refl _,
      fun _ => rfl, ⟨Z, hY, hZ⟩, (fun p hp => nomatch hp), fun p hp => ?_⟩
    exact subset_of_mem_pieces (hpieces ▸ List.mem_cons_of_mem _ hp)
  | cons c X ih =>
    obtain ⟨before, M, N, behind, h⟩ := ih
    cases hc : isEnd c
    · rcases before with _ | ⟨p, before⟩
      · obtain rfl := h.whole rfl
        exact ⟨[], c :: M, N, behind, fun x hx => pieces_cons_of_not hc (h.pieces_eq x hx),
          List.suffix_refl _, fun _ => rfl, h.ends, (fun p hp => nomatch hp), h.behind_subset⟩
      · obtain ⟨hp, hbefore⟩ := List.forall_mem_cons.mp h.before_subset
        refine ⟨(c :: p) :: before, M, N, behind,
          fun x hx => pieces_cons_of_not hc (h.pieces_eq x hx), h.suffix.trans (List.suffix_cons c X),
          (fun hnil => nomatch hnil), h.ends, ?_, h.behind_subset⟩
        exact List.forall_mem_cons.mpr ⟨List.cons_subset_cons _ hp,
          fun q hq => List.subset_cons_of_subset _ (hbefore q hq)⟩
    · refine ⟨[] :: before, M, N, behind, fun x hx => ?_, h.suffix.trans (List.suffix_cons c X),
        (fun hnil => nomatch hnil), h.ends, ?_, h.behind_subset⟩
      · rw [List.cons_append, pieces_cons_of_isEnd hc, h.pieces_eq x hx, List.cons_append]
      · exact List.forall_mem_cons.mpr ⟨List.nil_subset _,
          fun q hq => List.subset_cons_of_subset _ (h.before_subset q hq)⟩

theorem mapM_append_cons {α : Type} {f : List Cell → Option α} {before behind : List (List Cell)}
    {p : List Cell} {ls : List α} :
    (before ++ p :: behind).mapM f = some ls ↔ ∃ l₁ l l₂, ls = l₁ ++ l :: l₂ ∧
      before.mapM f = some l₁ ∧ f p = some l ∧ behind.mapM f = some l₂ := by
  simp only [List.mapM_append, List.mapM_cons, bind, Option.bind_eq_some_iff, pure, Option.some.injEq]
  constructor
  · rintro ⟨l₁, h₁, _, ⟨l, hl, l₂, h₂, rfl⟩, rfl⟩
    exact ⟨l₁, l, l₂, rfl, h₁, hl, h₂⟩
  · rintro ⟨l₁, l, l₂, rfl, h₁, hl, h₂⟩
    exact ⟨l₁, h₁, _, ⟨l, hl, l₂, h₂, rfl⟩, rfl⟩

theorem exists_of_mem_mapM {α : Type} {f : List Cell → Option α} {ps : List (List Cell)} {ls : List α}
    {l : α} (h : ps.mapM f = some ls) (hl : l ∈ ls) : ∃ p ∈ ps, f p = some l := by
  induction ps generalizing ls with
  | nil =>
    cases h
    cases hl
  | cons p ps ih =>
    simp only [List.mapM_cons, bind, Option.bind_eq_some_iff, pure, Option.some.injEq] at h
    obtain ⟨l', hl', ls', hls', rfl⟩ := h
    rcases List.mem_cons.mp hl with rfl | hl
    · exact ⟨p, List.mem_cons_self, hl'⟩
    · obtain ⟨q, hq, hlq⟩ := ih hls' hl
      exact ⟨q, List.mem_cons_of_mem _ hq, hlq⟩

/-! ## Bindings -/

theorem binding?_append {ks : List Cell} {e : Cell} (hks : ∀ k ∈ ks, isMark '=' k = false)
    (he : isMark '=' e) (x : Cell) :
    binding? (ks ++ [e, x]) =
      (key? ks).bind fun key => x.value.map fun value => (key, x.place, value) := by
  have hnot : ∀ k ∈ ks, (!isMark '=' k) = true := fun k hk => by rw [hks k hk]; rfl
  have hdrop : [e, x].dropWhile (!isMark '=' ·) = [e, x] := List.dropWhile_cons_of_neg (by simp [he])
  have htake : [e, x].takeWhile (!isMark '=' ·) = [] := List.takeWhile_cons_of_neg (by simp [he])
  rw [binding?, List.dropWhile_append_of_pos hnot, List.takeWhile_append_of_pos hnot, hdrop, htake,
    List.append_nil]
  rcases key? ks with _ | key
  · rfl
  · rcases hvalue : x.value with _ | value <;> simp [hvalue]

theorem exists_of_binding? {xs : List Cell} {key : List Text} {place : Nat} {value : Literal}
    (h : binding? xs = some (key, place, value)) :
    ∃ ks e x, xs = ks ++ [e, x] ∧ (∀ k ∈ ks, isMark '=' k = false) ∧ isMark '=' e ∧
      key? ks = some key ∧ x.place = place ∧ x.value = some value := by
  unfold binding? at h
  split at h
  case h_2 => cases h
  case h_1 e x hxs =>
    simp only [bind, Option.bind_eq_some_iff, Option.some.injEq, Prod.mk.injEq] at h
    obtain ⟨key', hkey, value', hvalue, rfl, rfl, rfl⟩ := h
    refine ⟨xs.takeWhile (!isMark '=' ·), e, x, ?_, fun k hk => ?_, ?_, hkey, rfl, hvalue⟩
    · rw [← hxs, List.takeWhile_append_dropWhile]
    · simpa using List.mem_takeWhile_imp hk
    · have := List.head?_dropWhile_not (!isMark '=' ·) xs
      rw [hxs] at this
      simpa using this

/-- The bound value stands last, behind the equals sign. -/
theorem binding?_of_place {key : List Text} {value : Literal}
    (h : binding? (M ++ x :: N) = some (key, x.place, value))
    (hN : ∀ y ∈ N, y.place ≠ x.place) :
    N = [] ∧ x.value = some value ∧ (∃ ks e, M = ks ++ [e] ∧ isMark '=' e) ∧
      ∀ x', binding? (M ++ [x']) = x'.value.map fun value' => (key, x'.place, value') := by
  obtain ⟨ks, e, y, hxs, hks, he, hkey, hplace, hvalue⟩ := exists_of_binding? h
  rcases List.eq_nil_or_concat N with rfl | ⟨N, z, rfl⟩
  · obtain ⟨hM, hx⟩ := List.append_inj' (hxs.trans (List.append_cons ks e [y])) rfl
    cases hx
    refine ⟨rfl, hvalue, ⟨ks, e, hM, he⟩, fun x' => ?_⟩
    rw [hM, List.append_assoc, List.singleton_append, binding?_append hks he, hkey, Option.bind_some]
  · have hz : [z] = [y] := by
      rw [List.append_cons ks, List.concat_eq_append, ← List.cons_append, ← List.append_assoc] at hxs
      exact (List.append_inj' hxs rfl).2
    cases hz
    exact absurd hplace (hN y (by simp))

theorem exists_last_of_filter {p : Cell → Bool} {ks : List Cell} {e : Cell}
    (h : X.filter p = ks ++ [e]) : ∃ X' z, X = X' ++ [z] ∧ (p z = false ∨ z = e) := by
  rcases List.eq_nil_or_concat X with rfl | ⟨X', z, rfl⟩
  · simp at h
  · refine ⟨X', z, List.concat_eq_append, ?_⟩
    cases hz : p z
    · exact .inl rfl
    · rw [List.concat_eq_append, List.filter_append, List.filter_cons_of_pos hz, List.filter_nil] at h
      exact .inr (List.cons.inj (List.append_inj' h rfl).2).1

/-! ## Rows of bindings -/

/-- How pieces are read that may bind keys. -/
structure Kind (α : Type) where
  read : List Cell → Option α
  binding : List Text × Nat × Literal → α
  /-- The cells that are not skipped. -/
  content : Cell → Bool
  read_eq_binding : ∀ {xs b}, read xs = some (binding b) ↔ binding? (xs.filter content) = some b
  /-- What was read with another value at a place. -/
  put : Nat → Literal → α → α
  put_binding : ∀ key place old new, put place new (binding (key, place, old)) = binding (key, place, new)
  put_of_ne : ∀ {l place} new, (∀ key old, l ≠ binding (key, place, old)) → put place new l = l

namespace Kind

variable {α : Type} (K : Kind α) {ps : List (List Cell)} {ls : List α} {key : List Text}
  {value : Literal}

theorem exists_cell_of_mem {place : Nat} (h : ps.mapM K.read = some ls)
    (hb : K.binding (key, place, value) ∈ ls) :
    ∃ p ∈ ps, ∃ y ∈ p, y.place = place ∧ y.value = some value := by
  obtain ⟨p, hp, hread⟩ := exists_of_mem_mapM h hb
  obtain ⟨ks, e, y, hxs, -, -, -, hplace, hvalue⟩ := exists_of_binding? (K.read_eq_binding.mp hread)
  have hy : y ∈ p.filter K.content := by rw [hxs]; simp
  exact ⟨p, hp, y, (List.mem_filter.mp hy).1, hplace, hvalue⟩

theorem map_put_of_subset {place : Nat} (h : ps.mapM K.read = some ls) (hsubset : ∀ p ∈ ps, p ⊆ X)
    (hX : ∀ y ∈ X, y.place ≠ place) (new : Literal) :
    (∀ key old, K.binding (key, place, old) ∉ ls) ∧ ls.map (K.put place new) = ls := by
  have hnot (key old) : K.binding (key, place, old) ∉ ls := fun hb => by
    obtain ⟨p, hp, y, hy, hplace, -⟩ := K.exists_cell_of_mem h hb
    exact hX y (hsubset p hp hy) hplace
  refine ⟨hnot, (List.map_congr_left fun l hl => ?_).trans (List.map_id ls)⟩
  exact K.put_of_ne new fun key old he => hnot key old (he ▸ hl)

/-- No place is bound twice. -/
theorem pairwise_of_mapM (h : ps.mapM K.read = some ls)
    (hps : ps.Pairwise fun p q => ∀ y ∈ p, ∀ z ∈ q, y.place ≠ z.place) :
    ls.Pairwise fun l l' => ∀ key key' place old old',
      l = K.binding (key, place, old) → l' ≠ K.binding (key', place, old') := by
  induction ps generalizing ls with
  | nil =>
    cases h
    exact List.Pairwise.nil
  | cons p ps ih =>
    simp only [List.mapM_cons, bind, Option.bind_eq_some_iff, pure, Option.some.injEq] at h
    obtain ⟨l, hl, ls, hls, rfl⟩ := h
    obtain ⟨hp, hps⟩ := List.pairwise_cons.mp hps
    refine List.pairwise_cons.mpr ⟨fun l' hl' key key' place old old' he he' => ?_, ih hls hps⟩
    have hone : [p].mapM K.read = some [l] := by simp [hl]
    have hmem : K.binding (key, place, old) ∈ [l] := by rw [he]; exact List.mem_singleton_self _
    obtain ⟨q, hq, y, hy, hplace, -⟩ := K.exists_cell_of_mem hone hmem
    obtain ⟨q', hq', z, hz, hplace', -⟩ := K.exists_cell_of_mem hls (he' ▸ hl')
    cases List.mem_singleton.mp hq
    exact hp q' hq' y hy z hz (hplace.trans hplace'.symm)

/-- Another cell in the place of a bound value binds its own value. Before it stands an equals sign, and
behind it the piece ends, with skipped cells between. -/
theorem put_of_mem (h : (pieces isEnd (X ++ x :: Y)).mapM K.read = some ls)
    (hb : K.binding (key, x.place, value) ∈ ls) (hX : ∀ y ∈ X, y.place ≠ x.place)
    (hY : ∀ y ∈ Y, y.place ≠ x.place) (hend : isEnd x = false) (hcontent : K.content x) :
    (∃ X' z, X = X' ++ [z] ∧ (K.content z = false ∨ isMark '=' z)) ∧
      (∀ y ∈ Y.head?, isEnd y ∨ K.content y = false) ∧
      ∀ x' new, x'.place = x.place → isEnd x' = false → K.content x' → x'.value = some new →
        (pieces isEnd (X ++ x' :: Y)).mapM K.read = some (ls.map (K.put x.place new)) := by
  obtain ⟨before, M, N, behind, hcut⟩ := exists_around isEnd X Y
  obtain ⟨W, rfl⟩ := hcut.suffix
  obtain ⟨Z, rfl, hends⟩ := hcut.ends
  rw [hcut.pieces_eq x hend] at h
  obtain ⟨l₁, l, l₂, rfl, h₁, hl, h₂⟩ := mapM_append_cons.mp h
  have hput₁ := K.map_put_of_subset h₁ hcut.before_subset hX
  have hput₂ := K.map_put_of_subset h₂ hcut.behind_subset hY
  -- No other piece has a cell at this place, so the binding is what the piece of the cell means.
  obtain rfl : K.binding (key, x.place, value) = l := by
    rcases List.mem_append.mp hb with hb | hb
    · exact absurd hb ((hput₁ value).1 key value)
    rcases List.mem_cons.mp hb with hb | hb
    · exact hb
    · exact absurd hb ((hput₂ value).1 key value)
  have hfilter {y : Cell} (hy : K.content y) : (M ++ y :: N).filter K.content =
      M.filter K.content ++ y :: N.filter K.content := by
    rw [List.filter_append, List.filter_cons_of_pos hy]
  rw [K.read_eq_binding, hfilter hcontent] at hl
  obtain ⟨hN, -, ⟨ks, e, hM, he⟩, hbinding⟩ := binding?_of_place hl fun y hy =>
    hY y (List.mem_append_left _ (List.mem_filter.mp hy).1)
  refine ⟨?_, fun y hy => ?_, fun x' new hplace hend' hcontent' hvalue => ?_⟩
  · obtain ⟨M', z, rfl, hz⟩ := exists_last_of_filter hM
    refine ⟨W ++ M', z, (List.append_assoc _ _ _).symm, ?_⟩
    rcases hz with hz | rfl
    · exact .inl hz
    · exact .inr he
  · rcases N with _ | ⟨y', N⟩
    · exact .inl (hends y hy)
    · cases hy
      refine .inr (Bool.eq_false_iff.mpr fun hy => ?_)
      rw [List.filter_cons_of_pos hy] at hN
      cases hN
  · rw [hcut.pieces_eq x' hend', mapM_append_cons]
    refine ⟨l₁, K.binding (key, x.place, new), l₂, ?_, h₁, ?_, h₂⟩
    · rw [List.map_append, List.map_cons, (hput₁ new).2, (hput₂ new).2, K.put_binding]
    · rw [K.read_eq_binding, hfilter hcontent', hN, hbinding, hvalue, hplace]
      rfl

end Kind

end Cell

end Stylesheet.Toml
