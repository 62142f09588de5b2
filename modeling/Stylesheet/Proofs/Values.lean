import Stylesheet.Proofs.Cells
import Stylesheet.Proofs.Tokens

/-!
# Another value in a row

Another item in the place of a value is read in the same line, or in the same table in braces, with all
other lines and entries as they were. No string stands right beside the value.
-/

namespace Stylesheet.Toml

/-! ## Items -/

namespace Item

variable {P S : List Item} {i : Item} {x : Cell} {v : Literal}

/-- The cell of an item behind others. -/
def cellBehind (P : List Item) (i : Item) : Cell := ⟨P.length, i, literal? i⟩

theorem cellsFrom_around (P : List Item) (i : Item) (S : List Item) :
    cellsFrom 0 (P ++ i :: S) =
      cellsFrom 0 P ++ cellBehind P i :: cellsFrom (P.length + 1) S := by
  rw [cellsFrom_append, Nat.zero_add, cellsFrom]
  rfl

theorem place_ne_of_mem_before (hx : x ∈ cellsFrom 0 P) : x.place ≠ P.length := by
  have := place_of_mem_cellsFrom hx
  omega

theorem place_ne_of_mem_behind (hx : x ∈ cellsFrom (P.length + 1) S) : x.place ≠ P.length := by
  have := place_of_mem_cellsFrom hx
  omega

theorem exists_around_of_mem_cellsFrom {is : List Item} (hx : x ∈ cellsFrom 0 is) :
    ∃ P i S, is = P ++ i :: S ∧ P.length = x.place := by
  have hplace : x.place < is.length := by
    have := place_of_mem_cellsFrom hx
    omega
  refine ⟨is.take x.place, is[x.place], is.drop (x.place + 1), ?_, List.length_take_of_le (by omega)⟩
  rw [← List.drop_eq_getElem_cons hplace, List.take_append_drop]

theorem eq_of_place (hx : x ∈ cellsFrom 0 (P ++ i :: S)) (hplace : x.place = P.length) :
    x = cellBehind P i := by
  rw [cellsFrom_around] at hx
  rcases List.mem_append.mp hx with hx | hx
  · exact absurd hplace (place_ne_of_mem_before hx)
  rcases List.mem_cons.mp hx with hx | hx
  · exact hx
  · exact absurd hplace (place_ne_of_mem_behind hx)

/-- Only words, strings and brackets can be values. -/
theorem cases_of_literal? (h : literal? i = some v) :
    (∃ w, i = token (.word w)) ∨ (∃ w m, i = token (.quoted w m)) ∨ ∃ b inner, i = group b inner := by
  cases i with
  | group b inner => exact .inr (.inr ⟨b, inner, rfl⟩)
  | token t =>
    cases t with
    | word w => exact .inl ⟨w, rfl⟩
    | quoted w m => exact .inr (.inl ⟨w, m, rfl⟩)
    | _ => cases h

/-- A token that is no string. -/
def IsOther (i : Item) : Prop := ∃ t, i = token t ∧ t.isQuoted = false

/-- What stands before is no string, and neither is what comes behind, if anything does. -/
structure Apart (P S : List Item) : Prop where
  before : ∃ P' i, P = P' ++ [i] ∧ IsOther i
  behind : ∀ i ∈ S.head?, IsOther i

theorem isOther_of_test {test : Cell → Bool} (h : test x)
    (hgroup : ∀ n b inner v, test ⟨n, group b inner, v⟩ = false)
    (hquoted : ∀ n w m v, test ⟨n, token (.quoted w m), v⟩ = false) : IsOther x.item := by
  obtain ⟨n, item, v⟩ := x
  rcases item with t | ⟨b, inner⟩
  · refine ⟨t, rfl, ?_⟩
    cases t with
    | quoted w m => cases h.symm.trans (hquoted n w m v)
    | _ => rfl
  · cases h.symm.trans (hgroup n b inner v)

theorem apart_of_cells (hbefore : ∃ X z, cellsFrom 0 P = X ++ [z] ∧ IsOther z.item)
    (hbehind : ∀ y ∈ (cellsFrom (P.length + 1) S).head?, IsOther y.item) : Apart P S := by
  constructor
  · obtain ⟨X, z, hX, hz⟩ := hbefore
    refine ⟨X.map Cell.item, z.item, ?_, hz⟩
    rw [← map_item_cellsFrom 0 P, hX, List.map_append, List.map_singleton]
  · intro i hi
    obtain ⟨S, rfl⟩ := List.head?_eq_some_iff.mp hi
    exact hbehind _ rfl

end Item

/-! ## Lines -/

namespace Line

open Item

/-- A cell that says something on its line. -/
def isContent (x : Cell) : Bool := !(x.isBlank || x.isComment)

theorem ofCells?_eq_binding {xs : List Cell} {key : List Text} {place : Nat} {value : Literal} :
    ofCells? xs = some (.binding key place value) ↔
      Cell.binding? (xs.filter isContent) = some (key, place, value) := by
  have hnone {x : Cell} : Cell.binding? [x] = none := by
    cases he : Cell.isMark '=' x <;> simp [Cell.binding?, he]
  have hfilter : xs.filter (fun x => !(x.isBlank || x.isComment)) = xs.filter isContent := rfl
  unfold ofCells?
  rw [hfilter]
  split
  · simp [Cell.binding?, *]
  · rename_i n inner v hxs
    rw [hxs, hnone]
    refine ⟨fun h => ?_, fun h => by cases h⟩
    unfold header? at h
    split at h <;> obtain ⟨_, -, hline⟩ := Option.map_eq_some_iff.mp h <;> cases hline
  · simp only [Option.map_eq_some_iff, Prod.exists, binding.injEq]
    constructor
    · rintro ⟨_, _, _, h, rfl, rfl, rfl⟩
      exact h
    · exact fun h => ⟨_, _, _, h, rfl, rfl, rfl⟩

/-- A line with another value at a place. -/
def put (place : Nat) (new : Literal) : Line → Line
  | binding key p old => binding key p (if p = place then new else old)
  | l => l

def kind : Cell.Kind Line where
  read := ofCells?
  binding b := binding b.1 b.2.1 b.2.2
  content := isContent
  read_eq_binding := ofCells?_eq_binding
  put := put
  put_binding key place old new := by rw [put, if_pos rfl]
  put_of_ne {l place} new h := by
    cases l with
    | binding key p old =>
      have hp : p ≠ place := fun hp => h key old (hp ▸ rfl)
      rw [put, if_neg hp]
    | _ => rfl

variable {P S : List Item} {i : Item} {lines : List Line} {key : List Text} {value : Literal}

theorem exists_around_of_mem {is : List Item} {place : Nat} (h : all? is = some lines)
    (hb : .binding key place value ∈ lines) : ∃ P i S, is = P ++ i :: S ∧ P.length = place := by
  obtain ⟨p, hp, y, hy, rfl, -⟩ := kind.exists_cell_of_mem h hb
  exact exists_around_of_mem_cellsFrom (Cell.subset_of_mem_pieces hp hy)

theorem put_of_mem (h : all? (P ++ i :: S) = some lines) (hb : .binding key P.length value ∈ lines) :
    literal? i = some value ∧ Apart P S ∧ ∀ i' new, literal? i' = some new →
      all? (P ++ i' :: S) = some (lines.map (put P.length new)) := by
  have hpieces (j : Item) : all? (P ++ j :: S) = (Cell.pieces Cell.isNewline
      (cellsFrom 0 P ++ cellBehind P j :: cellsFrom (P.length + 1) S)).mapM kind.read := by
    rw [all?, cells, cellsFrom_around]
    rfl
  have hcell {j : Item} {v : Literal} (hj : literal? j = some v) :
      Cell.isNewline (cellBehind P j) = false ∧ isContent (cellBehind P j) := by
    rcases cases_of_literal? hj with ⟨w, rfl⟩ | ⟨w, m, rfl⟩ | ⟨b, inner, rfl⟩ <;> exact ⟨rfl, rfl⟩
  have hvalue : literal? i = some value := by
    obtain ⟨p, hp, y, hy, hplace, hvalue⟩ := kind.exists_cell_of_mem h hb
    rw [← hvalue, eq_of_place (Cell.subset_of_mem_pieces hp hy) hplace]
    rfl
  rw [hpieces] at h
  obtain ⟨hbefore, hbehind, hput⟩ := kind.put_of_mem h hb (fun y hy => place_ne_of_mem_before hy)
    (fun y hy => place_ne_of_mem_behind hy) (hcell hvalue).1 (hcell hvalue).2
  have hskipped {x : Cell} (hx : isContent x = false) : IsOther x.item :=
    @isOther_of_test x (!isContent ·) (by simp [hx]) (fun _ _ _ _ => rfl) fun _ _ _ _ => rfl
  refine ⟨hvalue, apart_of_cells ?_ fun y hy => ?_, fun i' new hi' => ?_⟩
  · obtain ⟨X, z, hX, hz⟩ := hbefore
    refine ⟨X, z, hX, ?_⟩
    rcases hz with hz | hz
    · exact hskipped hz
    · exact isOther_of_test hz (fun _ _ _ _ => rfl) fun _ _ _ _ => rfl
  · rcases hbehind y hy with hy | hy
    · exact isOther_of_test hy (fun _ _ _ _ => rfl) fun _ _ _ _ => rfl
    · exact hskipped hy
  · rw [hpieces]
    exact hput (cellBehind P i') new rfl (hcell hi').1 (hcell hi').2 hi'

theorem pairwise_of_all? {is : List Item} (h : all? is = some lines) :
    lines.Pairwise fun l l' => ∀ key key' place old old',
      l = .binding key place old → l' ≠ .binding key' place old' :=
  kind.pairwise_of_mapM h (Cell.pairwise_pieces (pairwise_cellsFrom 0 is))

theorem value_unique {is : List Item} {place : Nat} {key' : List Text} {value' : Literal}
    (h : all? is = some lines) (hb : .binding key place value ∈ lines)
    (hb' : .binding key' place value' ∈ lines) : value = value' := by
  obtain ⟨P, i, S, rfl, rfl⟩ := exists_around_of_mem h hb
  have hvalue := (put_of_mem h hb).1
  have hvalue' := (put_of_mem h hb').1
  exact Option.some.inj (hvalue.symm.trans hvalue')

end Line

/-! ## Tables in braces -/

namespace Cell

open Item

/-- An entry with another value at a place. -/
def putEntry (place : Nat) (new : Literal) :
    List Text × Nat × Literal → List Text × Nat × Literal
  | (key, p, old) => (key, p, if p = place then new else old)

def entryKind : Kind (List Text × Nat × Literal) where
  read := binding?
  binding := id
  content _ := true
  read_eq_binding {xs b} := by rw [List.filter_eq_self.mpr fun _ _ => rfl, id]
  put := putEntry
  put_binding key place old new := by rw [id, putEntry, if_pos rfl, id]
  put_of_ne {l place} new h := by
    obtain ⟨key, p, old⟩ := l
    have hp : p ≠ place := fun hp => h key old (hp ▸ rfl)
    rw [putEntry, if_neg hp]

theorem table?_eq_some {xs : List Cell} {entries : List (List Text × Nat × Literal)}
    (hxs : xs.filter (!isBlank ·) ≠ []) : table? xs = some (.table entries) ↔
      (pieces (isMark ',') (xs.filter (!isBlank ·))).mapM binding? = some entries ∧
        clashFree (entries.map (·.1)) := by
  unfold table?
  split
  · contradiction
  · simp only [bind, Option.bind_eq_some_iff]
    constructor
    · rintro ⟨entries', hentries, h⟩
      split at h
      · cases h
        exact ⟨hentries, ‹_›⟩
      · cases h
    · rintro ⟨hentries, hfree⟩
      exact ⟨entries, hentries, by rw [if_pos hfree]⟩

variable {P S : List Item} {i : Item} {key : List Text} {value : Literal}
  {entries : List (List Text × Nat × Literal)}

theorem mapM_of_table? {xs : List Cell} (h : table? xs = some (.table entries)) (hentries : entries ≠ []) :
    xs.filter (!isBlank ·) ≠ [] ∧
      (pieces (isMark ',') (xs.filter (!isBlank ·))).mapM binding? = some entries ∧
        clashFree (entries.map (·.1)) := by
  have hne : xs.filter (!isBlank ·) ≠ [] := fun hnil => by
    simp only [table?, hnil, Option.some.injEq, Literal.table.injEq] at h
    exact hentries h.symm
  exact ⟨hne, (table?_eq_some hne).mp h⟩

theorem exists_around_of_mem_table {is : List Item} {place : Nat}
    (h : table? (cellsFrom 0 is) = some (.table entries)) (hb : (key, place, value) ∈ entries) :
    ∃ P i S, is = P ++ i :: S ∧ P.length = place := by
  obtain ⟨p, hp, y, hy, rfl, -⟩ :=
    entryKind.exists_cell_of_mem (mapM_of_table? h (List.ne_nil_of_mem hb)).2.1 hb
  exact exists_around_of_mem_cellsFrom (List.mem_filter.mp (subset_of_mem_pieces hp hy)).1

theorem table?_put_of_mem (h : table? (cellsFrom 0 (P ++ i :: S)) = some (.table entries))
    (hb : (key, P.length, value) ∈ entries) :
    literal? i = some value ∧ Apart P S ∧ ∀ i' new, literal? i' = some new →
      table? (cellsFrom 0 (P ++ i' :: S)) = some (.table (entries.map (putEntry P.length new))) := by
  obtain ⟨-, hentries, hfree⟩ := mapM_of_table? h (List.ne_nil_of_mem hb)
  have hvalue : literal? i = some value := by
    obtain ⟨p, hp, y, hy, hplace, hvalue⟩ := entryKind.exists_cell_of_mem hentries hb
    rw [← hvalue, eq_of_place (List.mem_filter.mp (subset_of_mem_pieces hp hy)).1 hplace]
    rfl
  have hcell {j : Item} {v : Literal} (hj : literal? j = some v) :
      isMark ',' (cellBehind P j) = false ∧ (!isBlank (cellBehind P j)) = true := by
    rcases cases_of_literal? hj with ⟨w, rfl⟩ | ⟨w, m, rfl⟩ | ⟨b, inner, rfl⟩ <;> exact ⟨rfl, rfl⟩
  have hrow {j : Item} {v : Literal} (hj : literal? j = some v) :
      (cellsFrom 0 (P ++ j :: S)).filter (!isBlank ·) = (cellsFrom 0 P).filter (!isBlank ·) ++
        cellBehind P j :: (cellsFrom (P.length + 1) S).filter (!isBlank ·) := by
    rw [cellsFrom_around, List.filter_append, List.filter_cons_of_pos (p := (!isBlank ·)) (hcell hj).2]
  rw [hrow hvalue] at hentries
  obtain ⟨⟨X', z, hX', hz⟩, hbehind, hput⟩ := entryKind.put_of_mem hentries hb
    (fun y hy => place_ne_of_mem_before (List.mem_filter.mp hy).1)
    (fun y hy => place_ne_of_mem_behind (List.mem_filter.mp hy).1) (hcell hvalue).1 rfl
  have hblank {x : Cell} (hx : (!isBlank x) = false) : IsOther x.item :=
    @isOther_of_test x isBlank (by simpa using hx) (fun _ _ _ _ => rfl) fun _ _ _ _ => rfl
  have hmark {c : Char} {x : Cell} (hx : isMark c x) : IsOther x.item :=
    isOther_of_test hx (fun _ _ _ _ => rfl) fun _ _ _ _ => rfl
  refine ⟨hvalue, apart_of_cells ?_ fun y hy => ?_, fun i' new hi' => ?_⟩
  · obtain ⟨X, z', hX, hz'⟩ := exists_last_of_filter hX'
    refine ⟨X, z', hX, ?_⟩
    rcases hz' with hz' | rfl
    · exact hblank hz'
    · exact hz.elim (fun hz => nomatch hz) hmark
  · cases hy' : !isBlank y
    · exact hblank hy'
    · obtain ⟨Y, hY⟩ := List.head?_eq_some_iff.mp hy
      have hhead := hbehind y (by rw [hY, List.filter_cons_of_pos (p := (!isBlank ·)) hy']; rfl)
      exact hhead.elim hmark fun hhead => nomatch hhead
  · have hne' : (cellsFrom 0 (P ++ i' :: S)).filter (!isBlank ·) ≠ [] := by
      rw [hrow hi']
      exact List.append_ne_nil_of_right_ne_nil _ (List.cons_ne_nil _ _)
    rw [table?_eq_some hne', hrow hi']
    refine ⟨hput (cellBehind P i') new rfl (hcell hi').1 rfl hi', ?_⟩
    have hkeys : (entries.map (putEntry P.length new)).map (·.1) = entries.map (·.1) := by
      rw [List.map_map]
      rfl
    rw [hkeys]
    exact hfree

end Cell

end Stylesheet.Toml
