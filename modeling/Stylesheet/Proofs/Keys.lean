import Stylesheet.Proofs.Library

/-!
# What the paths of a document lead to

A path leads to a table, a sequence or a value, which may stand in braces or in an array. Setting a string
in the place of a string changes what one path leads to and no other.
-/

namespace Stylesheet.Toml

/-! ## Paths into values -/

def Literal.node : Literal → Node Literal
  | .table _ => .table
  | l => .value l

namespace Literal

mutual

/-- What a path from a value on leads to. -/
def nodeAt? : Literal → Path → Option (Node Literal)
  | l, [] => some l.node
  | .array ls, .element n :: q => elementAt? ls n q
  | .table es, q => entryAt? es q
  | _, _ => none

def elementAt? : List Literal → Nat → Path → Option (Node Literal)
  | [], _, _ => none
  | l :: _, 0, q => l.nodeAt? q
  | _ :: ls, n + 1, q => elementAt? ls n q

def entryAt? : List (List Text × Nat × Literal) → Path → Option (Node Literal)
  | [], _ => none
  | (key, _, l) :: es, q => ((q.dropPrefix? (Path.ofNames key)).bind l.nodeAt?).or (entryAt? es q)

end

@[simp] theorem nodeAt?_nil (l : Literal) : l.nodeAt? [] = some l.node := by cases l <;> rfl

@[simp] theorem nodeAt?_table_cons (entries : List (List Text × Nat × Literal)) (step : Step)
    (q : Path) : (table entries).nodeAt? (step :: q) = entryAt? entries (step :: q) := by
  cases step <;> rfl

@[simp] theorem nodeAt?_text_cons (t : Text) (step : Step) (q : Path) :
    (text t).nodeAt? (step :: q) = none := by
  cases step <;> rfl

theorem entryAt?_eq (entries : List (List Text × Nat × Literal)) (q : Path) :
    entryAt? entries q =
      entries.findSome? fun e => (q.dropPrefix? (Path.ofNames e.1)).bind e.2.2.nodeAt? := by
  induction entries with
  | nil => rfl
  | cons e entries ih =>
    rw [entryAt?, ih, List.findSome?_cons]
    cases (q.dropPrefix? (Path.ofNames e.1)).bind e.2.2.nodeAt? <;> rfl

end Literal

theorem dropPrefix?_eq_some {q way r : Path} : q.dropPrefix? way = some r ↔ q = way ++ r := by
  simp [List.dropPrefix?_eq_some_iff]

/-- A string is what its own path leads to, and its path goes no further. -/
theorem dropPrefix?_bind_text {q way : Path} (hq : q ≠ way) (t : Text) :
    (q.dropPrefix? way).bind (Literal.text t).nodeAt? = none := by
  refine Option.bind_eq_none_iff.mpr fun r hr => ?_
  cases r with
  | nil => exact absurd (by simpa using dropPrefix?_eq_some.mp hr) hq
  | cons step r => exact Literal.nodeAt?_text_cons t step r

theorem findSome?_congr {β γ : Type} {f g : β → Option γ} {bs : List β} (h : ∀ b ∈ bs, f b = g b) :
    bs.findSome? f = bs.findSome? g := by
  induction bs with
  | nil => rfl
  | cons b bs ih =>
    obtain ⟨hb, hbs⟩ := List.forall_mem_cons.mp h
    rw [List.findSome?_cons, List.findSome?_cons, hb, ih hbs]

/-! ## Entries of a table in braces -/

namespace Cell

variable {is : List Item} {entries : List (List Text × Nat × Literal)}
  {e e' : List Text × Nat × Literal}

theorem key?_ne_nil {xs : List Cell} {key : List Text} (h : key? xs = some key) : key ≠ [] := by
  obtain ⟨p, ps, hpieces⟩ := exists_pieces (isMark '.') xs
  rw [key?, hpieces] at h
  simp only [List.mapM_cons, bind, Option.bind_eq_some_iff, pure, Option.some.injEq] at h
  obtain ⟨n, -, ns, -, rfl⟩ := h
  exact List.cons_ne_nil n ns

theorem key_ne_nil_of_mem_table (h : table? (Item.cellsFrom 0 is) = some (.table entries))
    (he : e ∈ entries) : e.1 ≠ [] := by
  obtain ⟨-, hentries, -⟩ := mapM_of_table? h (List.ne_nil_of_mem he)
  obtain ⟨p, -, hp⟩ := exists_of_mem_mapM hentries he
  obtain ⟨ks, -, -, -, -, -, hkey, -⟩ := exists_of_binding? hp
  exact key?_ne_nil hkey

/-- No two entries stand in one place. -/
theorem eq_of_place_of_table (h : table? (Item.cellsFrom 0 is) = some (.table entries))
    (he : e ∈ entries) (he' : e' ∈ entries) (hplace : e.2.1 = e'.2.1) : e = e' := by
  obtain ⟨-, hentries, -⟩ := mapM_of_table? h (List.ne_nil_of_mem he)
  have hpairwise := entryKind.pairwise_of_mapM hentries
    (pairwise_pieces ((Item.pairwise_cellsFrom 0 is).filter _))
  have hplaces : entries.Pairwise (·.2.1 ≠ ·.2.1) := hpairwise.imp fun {e e'} hne hplace =>
    hne e.1 e'.1 e.2.1 e.2.2 e'.2.2 rfl (by rw [hplace]; rfl)
  have : Std.Symm fun e e' : List Text × Nat × Literal => e.2.1 ≠ e'.2.1 :=
    ⟨fun _ _ hne hplace => hne hplace.symm⟩
  by_contra hne
  exact hplaces.forall he he' hne hplace

end Cell

namespace Document

/-! ## Paths into documents -/

def Binding.nodeAt? (q : Path) (b : Binding) : Option (Node Literal) :=
  (q.dropPrefix? b.path).bind b.value.nodeAt?

/-- What a path leads to. Of tables and sequences with lines of their own the registry knows. -/
def nodeAt (d : Document) (q : Path) : Node Literal :=
  match d.bindings.findSome? (Binding.nodeAt? q) with
  | some n => n
  | none =>
    match d.registry.role? q with
    | none => .absent
    | some .value => .absent
    | some (.sequence _) => .sequence
    | some _ => .table

variable {t v w : Text} {d : Document} {b : Binding} {s : Site} {q : Path}
  {entries : List (List Text × Nat × Literal)}

theorem exists_cells_of_table (h : ofText? t = .ok d) (hb : b ∈ d.bindings)
    (hvalue : b.value = .table entries) :
    ∃ is, Cell.table? (Item.cellsFrom 0 is) = some (.table entries) := by
  obtain ⟨lines, hlines, hbind⟩ := exists_lines h
  obtain ⟨key, hline, -⟩ := exists_line_of_bind? hbind hb
  obtain ⟨P, i, S, hP, hlength⟩ := Line.exists_around_of_mem hlines hline
  rw [hP] at hlines
  rw [← hlength] at hline
  obtain ⟨hliteral, -⟩ := Line.put_of_mem hlines hline
  rw [hvalue] at hliteral
  obtain ⟨is, -, his⟩ := Item.group_of_literal?_table hliteral
  exact ⟨is, his⟩

/-! ## What is left as it was -/

theorem entryAt?_put {is : List Item} {key : List Text} {place : Nat} {old : Text}
    (h : Cell.table? (Item.cellsFrom 0 is) = some (.table entries))
    (he : (key, place, .text old) ∈ entries) (hq : q ≠ Path.ofNames key) (v : Text) :
    Literal.entryAt? (entries.map (Cell.putEntry place (.text v))) q = Literal.entryAt? entries q := by
  rw [Literal.entryAt?_eq, Literal.entryAt?_eq, List.findSome?_map]
  refine findSome?_congr fun e' he' => ?_
  by_cases hplace : e'.2.1 = place
  · obtain rfl := Cell.eq_of_place_of_table h he' he hplace
    simp [Cell.putEntry, dropPrefix?_bind_text hq]
  · simp [Cell.putEntry, hplace]

/-- A string in the place of another is met on its own path only. -/
theorem Binding.nodeAt?_set {names : List Text} {old : Text} (h : ofText? t = .ok d)
    (hf : d.find? names = some (s, .text old)) (hb : b ∈ d.bindings) (hq : q ≠ Path.ofNames names)
    (v : Text) : Binding.nodeAt? q (Binding.set s v b) = Binding.nodeAt? q b := by
  by_cases hplace : b.place = s.outer
  case neg => rw [Binding.set_of_ne hplace]
  obtain ⟨b', hb', hfb⟩ := exists_binding_of_find? hf
  obtain rfl := eq_of_place h hb' hb ((Binding.outer_of_find? hfb).symm.trans hplace.symm)
  rw [Binding.nodeAt?, Binding.nodeAt?, Binding.path_set, Binding.value_set, if_pos hplace]
  rcases Binding.find?_eq_some hfb with ⟨hpath, rfl, hvalue⟩ |
    ⟨-, entries, key, place, hvalue, hentry, hpath, rfl⟩
  · rw [setLiteral_none, ← hvalue, hpath, dropPrefix?_bind_text hq, dropPrefix?_bind_text hq]
  · obtain ⟨is, his⟩ := exists_cells_of_table h hb hvalue
    rw [hvalue]
    rcases hr : q.dropPrefix? b'.path with _ | r
    · rfl
    · have hq' : r ≠ Path.ofNames key := fun hr' => hq <| by
        rw [dropPrefix?_eq_some.mp hr, hr', hpath]
      cases r with
      | nil => simp [setLiteral, Literal.node]
      | cons step r =>
        rw [Option.bind_some, Option.bind_some, Literal.nodeAt?_table_cons]
        exact (Literal.nodeAt?_table_cons _ step r).trans (entryAt?_put his hentry hq' v)

/-- Every other path leads to what it led to. -/
theorem nodeAt_set {names : List Text} {old : Text} (h : ofText? t = .ok d)
    (hf : d.find? names = some (s, .text old)) (hq : q ≠ Path.ofNames names) (v : Text) :
    (d.set s v).nodeAt q = d.nodeAt q := by
  have hbindings : (d.set s v).bindings.findSome? (Binding.nodeAt? q) =
      d.bindings.findSome? (Binding.nodeAt? q) := by
    rw [set, List.findSome?_map]
    exact findSome?_congr fun b hb => Binding.nodeAt?_set h hf hb hq v
  rw [nodeAt, nodeAt, hbindings]
  rfl

/-! ## The key of a table -/

/-- Behind the name of a table there is one name left, so it spells the key of an entry as a whole. -/
theorem entryAt?_name (hkeys : ∀ e ∈ entries, e.1 ≠ []) (key : Text) :
    Literal.entryAt? entries [.name key] =
      entries.findSome? fun e => if e.1 = [key] then some e.2.2.node else none := by
  rw [Literal.entryAt?_eq]
  refine findSome?_congr fun e he => ?_
  obtain ⟨n, ns, hcons⟩ := List.exists_cons_of_ne_nil (hkeys e he)
  by_cases hkey : e.1 = [key]
  · rw [if_pos hkey, hkey, Option.bind_eq_some_iff]
    exact ⟨[], dropPrefix?_eq_some.mpr (List.append_nil _).symm, Literal.nodeAt?_nil _⟩
  · rw [if_neg hkey, Option.bind_eq_none_iff]
    intro r hr
    have := dropPrefix?_eq_some.mp hr
    simp_all [Path.ofNames]

theorem Binding.path_eq_of_dropPrefix? {table key : Text} {step : Step} {r : Path} (hpath : b.path ≠ [])
    (hr : (Path.ofNames [table, key]).dropPrefix? b.path = some (step :: r)) :
    b.path = [.name table] ∧ step :: r = [.name key] := by
  have hnames := dropPrefix?_eq_some.mp hr
  obtain ⟨first, path, hcons⟩ := List.exists_cons_of_ne_nil hpath
  rw [hcons, Path.ofNames] at hnames
  rw [hcons]
  cases path with
  | nil => simpa [eq_comm] using hnames
  | cons second path => simp at hnames

theorem Binding.nodeAt?_key (h : ofText? t = .ok d) (hb : b ∈ d.bindings) (table key : Text) :
    Binding.nodeAt? (Path.ofNames [table, key]) b =
      (Binding.find? (Path.ofNames [table, key]) b).map (·.2.node) := by
  rw [Binding.nodeAt?]
  rcases hr : (Path.ofNames [table, key]).dropPrefix? b.path with _ | _ | ⟨step, r⟩
  · -- The binding is on another way.
    have hnot (r : Path) : b.path ++ r ≠ Path.ofNames [table, key] := fun he => by
      cases hr.symm.trans (dropPrefix?_eq_some.mpr he.symm)
    rcases hf : Binding.find? (Path.ofNames [table, key]) b with _ | ⟨s, l⟩
    · rfl
    · rcases Binding.find?_eq_some hf with ⟨hpath, -⟩ | ⟨-, -, key', -, -, -, hpath, -⟩
      · exact absurd (by rw [hpath, List.append_nil]) (hnot [])
      · exact absurd hpath (hnot _)
  · have hpath := dropPrefix?_eq_some.mp hr
    simp [Binding.find?, hpath]
  · obtain ⟨hpath, hrest⟩ := Binding.path_eq_of_dropPrefix? (path_ne_nil h hb) hr
    rw [Option.bind_some, Binding.find?_of_ne (by simp [hpath, Path.ofNames])]
    rcases hvalue : b.value with _ | _ | _ | _ | entries
    case table =>
      obtain ⟨is, his⟩ := exists_cells_of_table h hb hvalue
      have hkeys : ∀ e ∈ entries, e.1 ≠ [] := fun e he => Cell.key_ne_nil_of_mem_table his he
      rw [Literal.nodeAt?_table_cons, hrest, entryAt?_name hkeys, List.map_findSome?]
      refine findSome?_congr fun e _ => ?_
      simp only [Function.comp, Binding.entry?, hpath]
      by_cases hkey : e.1 = [key]
      · simp [hkey, Path.ofNames]
      · simp [hkey, Path.ofNames, List.map_eq_singleton_iff]
    all_goals
      rw [hrest]
      rfl

theorem nodeAt_key {table key : Text} {l : Literal} (h : ofText? t = .ok d)
    (hvalue : d.value? [table, key] = some l) : d.nodeAt (Path.ofNames [table, key]) = l.node := by
  obtain ⟨⟨s, l⟩, hf, rfl⟩ := Option.map_eq_some_iff.mp hvalue
  have hfind : d.bindings.findSome? (Binding.nodeAt? (Path.ofNames [table, key])) = some l.node := by
    rw [findSome?_congr fun b hb => Binding.nodeAt?_key h hb table key]
    exact List.map_findSome?.symm.trans (congrArg (Option.map (·.2.node)) hf)
  rw [nodeAt, hfind]

/-! ## Setting twice -/

theorem setItem_setItem (is : List Item) (s : Site) (i j : Item) :
    setItem (setItem is s i) s j = setItem is s j := by
  obtain ⟨outer, _ | place⟩ := s
  · exact List.set_set i
  · simp only [setItem, List.modify_modify_eq]
    congr 1
    funext k
    cases k with
    | token => rfl
    | group b inner => exact congrArg (Item.group b) (List.set_set i)

theorem setLiteral_setLiteral (inner : Option Nat) (v w : Text) (l : Literal) :
    setLiteral inner w (setLiteral inner v l) = setLiteral inner w l := by
  rcases inner with _ | place
  · rw [setLiteral_none, setLiteral_none]
  · cases l with
    | table entries =>
      simp only [setLiteral, List.map_map, Literal.table.injEq]
      refine List.map_congr_left fun e _ => ?_
      by_cases hplace : e.2.1 = place <;> simp [hplace]
    | _ => rfl

theorem set_set (d : Document) (s : Site) (v w : Text) : (d.set s v).set s w = d.set s w := by
  simp only [set, setItem_setItem, List.map_map]
  congr 1
  refine List.map_congr_left fun b _ => ?_
  simp only [Function.comp, Binding.set]
  by_cases hplace : b.place = s.outer <;> simp [hplace, setLiteral_setLiteral]

theorem setValue_setValue (d : Document) (names : List Text) (v w : Text) :
    (d.setValue names v).setValue names w = d.setValue names w := by
  rcases hf : d.find? names with _ | ⟨s, l⟩
  · have hsame : d.setValue names v = d := by rw [setValue, hf]
    rw [hsame]
  · simp only [setValue, hf, find?_set hf v, set_set]

end Document

end Stylesheet.Toml
