import Stylesheet.Toml.Item

/-!
# Literals

What items mean as values: strings, integers, truth values, arrays, and tables written in braces. The
keys of a table are dotted: each is a list of names.
-/

namespace Stylesheet.Toml

inductive Literal
  | text (t : Text)
  | integer (n : Int)
  | boolean (b : Bool)
  | array (elements : List Literal)
  /-- Each entry has its key, the place of its value between the braces, and its value. -/
  | table (entries : List (List Text × Nat × Literal))

/-- An item with its place among its neighbours and what it means as a value. -/
structure Cell where
  place : Nat
  item : Item
  value : Option Literal

namespace Cell

/-! ## Kinds of cells -/

def isMark (c : Char) (x : Cell) : Bool :=
  match x.item with
  | .token (.mark d) => c == d
  | _ => false

def isNewline (x : Cell) : Bool :=
  match x.item with
  | .token .newline => true
  | _ => false

def isBlank (x : Cell) : Bool :=
  match x.item with
  | .token (.blank _) => true
  | _ => false

def isComment (x : Cell) : Bool :=
  match x.item with
  | .token (.comment _) => true
  | _ => false

/-- The name that a cell spells as part of a key. -/
def name? (x : Cell) : Option Text :=
  match x.item with
  | .token (.word w) => if w.all Token.isKeyChar then some w else none
  | .token (.quoted _ t) => some t
  | _ => none

/-! ## Sequences of cells -/

/-- The pieces between the cells that pass a test, one more than there are such cells. -/
def pieces (isEnd : Cell → Bool) : List Cell → List (List Cell)
  | [] => [[]]
  | x :: xs =>
    if isEnd x then [] :: pieces isEnd xs
    else match pieces isEnd xs with
      | [] => [[x]]
      | p :: ps => (x :: p) :: ps

/-- The one cell of a piece. -/
def only? : List Cell → Option Cell
  | [x] => some x
  | _ => none

/-- A dotted key. Blanks must have been dropped. -/
def key? (xs : List Cell) : Option (List Text) :=
  (pieces (isMark '.') xs).mapM fun p => (only? p).bind name?

/-- A key, an equals sign and a value. Blanks must have been dropped. -/
def binding? (xs : List Cell) : Option (List Text × Nat × Literal) :=
  match xs.dropWhile (!isMark '=' ·) with
  | [_, x] => do
    let key ← key? (xs.takeWhile (!isMark '=' ·))
    some (key, x.place, ← x.value)
  | _ => none

/-- Elements between commas. Lines can end anywhere, and a comma may follow the last element. -/
def array? (xs : List Cell) : Option Literal :=
  let ps := pieces (isMark ',') (xs.filter fun x => !(x.isBlank || x.isNewline || x.isComment))
  let ps := if ps.getLast?.any List.isEmpty then ps.dropLast else ps
  (ps.mapM fun p => (only? p).bind Cell.value).map .array

/-- Whether two keys cannot stand in one table: one leads to the other. -/
def clash (a b : List Text) : Bool := a.isPrefixOf b || b.isPrefixOf a

def clashFree : List (List Text) → Bool
  | [] => true
  | k :: ks => ks.all (!clash k ·) && clashFree ks

/-- Bindings between commas. Everything stands on one line, and no comma follows the last binding. -/
def table? (xs : List Cell) : Option Literal :=
  match xs.filter (!isBlank ·) with
  | [] => some (.table [])
  | ys => do
    let entries ← (pieces (isMark ',') ys).mapM binding?
    if clashFree (entries.map (·.1)) then some (.table entries) else none

end Cell

/-! ## Single words -/

/-- The digits of a number, without the underscores that may stand between two of them. -/
def digits? : Text → Option Text
  | [] => none
  | [c] => if c.isDigit then some [c] else none
  | c :: '_' :: cs => if c.isDigit then (digits? cs).map (c :: ·) else none
  | c :: cs => if c.isDigit then (digits? cs).map (c :: ·) else none

/-- A number without sign, and without leading zeros. -/
def natural? (t : Text) : Option Nat := do
  let ds ← digits? t
  if 1 < ds.length ∧ ds.head? = some '0' then none
  else some (ds.foldl (fun n c => 10 * n + (c.toNat - '0'.toNat)) 0)

/-- What a word means as a value. -/
def wordLiteral? (w : Text) : Option Literal :=
  if w = "true".toList then some (.boolean true)
  else if w = "false".toList then some (.boolean false)
  else match w with
    | '-' :: t => (natural? t).map fun n => .integer (-n)
    | '+' :: t => (natural? t).map fun n => .integer n
    | t => (natural? t).map fun n => .integer n

/-! ## Items -/

namespace Item

mutual

/-- What an item means as a value. -/
def literal? : Item → Option Literal
  | token (.word w) => wordLiteral? w
  | token (.quoted _ t) => some (.text t)
  | token _ => none
  | group .square inner => Cell.array? (cellsFrom 0 inner)
  | group .curly inner => Cell.table? (cellsFrom 0 inner)

/-- The cells of items, with places from a number on. -/
def cellsFrom : Nat → List Item → List Cell
  | _, [] => []
  | n, i :: is => ⟨n, i, literal? i⟩ :: cellsFrom (n + 1) is

end

/-- The cells of items. -/
def cells (is : List Item) : List Cell := cellsFrom 0 is

end Item

end Stylesheet.Toml
