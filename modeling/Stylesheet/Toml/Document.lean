import Stylesheet.Toml.Literal

/-!
# Settings documents

A document is a sequence of lines that open tables and bind keys to values. Every name leads to a
value, a table or a sequence of tables, and no name may be bound or opened twice. The document keeps
its items, so that one value can be replaced and all else stays as it is written.
-/

namespace Stylesheet.Toml

/-! ## Lines -/

inductive Line
  | empty
  /-- Opens a table. -/
  | table (key : List Text)
  /-- Opens the next table of a sequence. -/
  | tables (key : List Text)
  /-- Binds a key to the value at a place. -/
  | binding (key : List Text) (place : Nat) (value : Literal)

namespace Line

/-- The key between brackets. -/
def headerKey? (inner : List Item) : Option (List Text) :=
  Cell.key? ((Item.cells inner).filter (!Cell.isBlank ·))

/-- What is between the brackets of a header: a key, or a key between brackets of its own. -/
def header? : List Item → Option Line
  | [.group .square inner] => (headerKey? inner).map tables
  | inner => (headerKey? inner).map table

def ofCells? (xs : List Cell) : Option Line :=
  match xs.filter fun x => !(x.isBlank || x.isComment) with
  | [] => some empty
  | [⟨_, .group .square inner, _⟩] => header? inner
  | ys => (Cell.binding? ys).map fun (key, place, value) => binding key place value

/-- The lines of a document. -/
def all? (is : List Item) : Option (List Line) :=
  (Cell.pieces Cell.isNewline (Item.cells is)).mapM ofCells?

end Line

/-! ## Names -/

/-- One step of the way to a value. -/
inductive Step
  | name (t : Text)
  | element (n : Nat)
deriving DecidableEq

abbrev Path := List Step

def Path.ofNames (names : List Text) : Path := names.map .name

/-- What a path leads to. -/
inductive Role
  | value
  /-- A table with a header of its own. -/
  | opened
  /-- A table that is only named on the way to others. -/
  | passed
  /-- A table that a dotted key makes. -/
  | dotted
  /-- A sequence of so many tables. -/
  | sequence (size : Nat)
deriving DecidableEq

/-- The paths that lead somewhere, the last one first. -/
abbrev Registry := List (Path × Role)

namespace Registry

def role? (r : Registry) (p : Path) : Option Role := r.lookup p

/-- Goes along names to a table, which a header may do through any tables. The last table of a sequence
is the one meant. -/
def pass? (r : Registry) : Path → List Text → Option (Registry × Path)
  | at', [] => some (r, at')
  | at', n :: ns =>
    let p := at' ++ [.name n]
    match r.role? p with
    | none => pass? ((p, .passed) :: r) p ns
    | some .value => none
    | some (.sequence k) => pass? r (p ++ [.element (k - 1)]) ns
    | some _ => pass? r p ns

/-- Goes along the names of a dotted key, which may not go into tables with a header of their own. -/
def descend? (r : Registry) : Path → List Text → Option (Registry × Path)
  | at', [] => some (r, at')
  | at', n :: ns =>
    let p := at' ++ [.name n]
    match r.role? p with
    | none => descend? ((p, .dotted) :: r) p ns
    | some .dotted => descend? r p ns
    | some .passed => descend? r p ns
    | some _ => none

/-- Opens a table. -/
def openTable? (r : Registry) (key : List Text) : Option (Registry × Path) := do
  let last ← key.getLast?
  let (r, at') ← r.pass? [] key.dropLast
  let p := at' ++ [.name last]
  match r.role? p with
  | none => some ((p, .opened) :: r, p)
  | some .passed => some ((p, .opened) :: r, p)
  | some _ => none

/-- Opens the next table of a sequence. -/
def openNext? (r : Registry) (key : List Text) : Option (Registry × Path) := do
  let last ← key.getLast?
  let (r, at') ← r.pass? [] key.dropLast
  let p := at' ++ [.name last]
  match r.role? p with
  | none => some ((p, .sequence 1) :: r, p ++ [.element 0])
  | some (.sequence k) => some ((p, .sequence (k + 1)) :: r, p ++ [.element k])
  | some _ => none

/-- Binds a key in the table at a path. -/
def bind? (r : Registry) (table : Path) (key : List Text) : Option (Registry × Path) := do
  let last ← key.getLast?
  let (r, at') ← r.descend? table key.dropLast
  let p := at' ++ [.name last]
  match r.role? p with
  | none => some ((p, .value) :: r, p)
  | some _ => none

end Registry

/-! ## Documents -/

/-- What a name leads to. -/
inductive Node (V : Type)
  | absent
  | value (v : V)
  | table
  | sequence

/-- A value, the path to it, and the place of its item. -/
structure Binding where
  path : Path
  place : Nat
  value : Literal

structure Document where
  items : List Item
  registry : Registry
  bindings : List Binding

/-- Why a text is no document. -/
inductive Fault
  | malformed
  | duplicate
deriving DecidableEq

namespace Document

/-- Reads lines in the table at a path. -/
def bind? (r : Registry) (table : Path) : List Line → Option (Registry × List Binding)
  | [] => some (r, [])
  | .empty :: ls => bind? r table ls
  | .table key :: ls => do
    let (r, p) ← r.openTable? key
    bind? r p ls
  | .tables key :: ls => do
    let (r, p) ← r.openNext? key
    bind? r p ls
  | .binding key place value :: ls => do
    let (r, p) ← r.bind? table key
    let (r, bs) ← bind? r table ls
    some (r, ⟨p, place, value⟩ :: bs)

/-- The document of items. -/
def ofItems? (is : List Item) : Except Fault Document :=
  match Line.all? is with
  | none => .error .malformed
  | some lines =>
    match bind? [] [] lines with
    | none => .error .duplicate
    | some (r, bs) => .ok ⟨is, r, bs⟩

/-- Reads a document. -/
def ofText? (t : Text) : Except Fault Document :=
  match (Token.all? t).bind Item.ofTokens? with
  | none => .error .malformed
  | some is => ofItems? is

def text (d : Document) : Text := Item.text d.items

/-! ## Finding -/

/-- Where a value is written: the place of an item, and the place inside it if it is a table in
braces. -/
structure Site where
  outer : Nat
  inner : Option Nat
deriving DecidableEq

/-- The value that a binding gives to a path, if it does. -/
def Binding.find? (names : Path) (b : Binding) : Option (Site × Literal) :=
  if b.path = names then some (⟨b.place, none⟩, b.value)
  else match b.value with
    | .table entries =>
      entries.findSome? fun (key, place, v) =>
        if b.path ++ Path.ofNames key = names then some (⟨b.place, some place⟩, v) else none
    | _ => none

/-- The value of a key that is spelled by names, and where it is written. -/
def find? (d : Document) (names : List Text) : Option (Site × Literal) :=
  d.bindings.findSome? (Binding.find? (Path.ofNames names))

/-- What a key leads to. A table in braces is a table. -/
def node (d : Document) (names : List Text) : Node Literal :=
  match d.registry.role? (Path.ofNames names) with
  | some (.sequence _) => .sequence
  | some .value =>
    match d.find? names with
    | some (_, .table _) => .table
    | some (_, v) => .value v
    | none => .absent
  | some _ => .table
  | none => .absent

/-! ## Replacing -/

/-- The items with another item at a site. -/
def setItem (is : List Item) (s : Site) (i : Item) : List Item :=
  match s.inner with
  | none => is.set s.outer i
  | some place => is.modify s.outer fun
    | .group b inner => .group b (inner.set place i)
    | .token t => .token t

/-- A value with a string in its place, or in a place between its braces. -/
def setLiteral (inner : Option Nat) (t : Text) : Literal → Literal
  | .table entries =>
    match inner with
    | none => .text t
    | some place => .table (entries.map fun (key, p, v) => (key, p, if p = place then .text t else v))
  | v => if inner.isNone then .text t else v

def Binding.set (s : Site) (t : Text) (b : Binding) : Binding :=
  if b.place = s.outer then { b with value := setLiteral s.inner t b.value } else b

/-- The document with a string in place of the value at a site. -/
def set (d : Document) (s : Site) (t : Text) : Document :=
  { d with
    items := setItem d.items s (.token (Token.ofText t))
    bindings := d.bindings.map (Binding.set s t) }

end Document

end Stylesheet.Toml
