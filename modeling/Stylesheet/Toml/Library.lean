import Stylesheet.Toml.Document

/-!
# Libraries for settings documents

What the commands need of a library that reads and writes settings documents. They know a document and
its values only through this. The documents of this project are such a library.
-/

namespace Stylesheet.Toml

class Library where
  Document : Type
  /-- Values of any kind. -/
  Value : Type
  parse : Text → Except Fault Document
  text : Document → Text
  /-- What a name leads to at the top of a document. -/
  node : Document → Text → Node Value
  /-- The value of a key in the table that a name leads to. -/
  value? : Document → Text → Text → Option Value
  /-- The document with a string as the value of a key in the table that a name leads to. -/
  set : Document → Text → Text → Text → Document
  /-- The text of a value that is a string. -/
  string? : Value → Option Text
  /-- Whether a text is found in a value that is no table, if the value can be searched: a string for a
  stretch of it, an array for an element. -/
  search? : Text → Value → Option Bool

namespace Literal

def string? : Literal → Option Text
  | .text t => some t
  | _ => none

def search? (t : Text) : Literal → Option Bool
  | .text s => some (Text.contains t s)
  | .array ls => some (ls.any fun l => l.string? = some t)
  | _ => none

end Literal

namespace Document

/-- The value of a key that is spelled by names. -/
def value? (d : Document) (names : List Text) : Option Literal := (d.find? names).map (·.2)

/-- The document with a string as the value of a key that has one. -/
def setValue (d : Document) (names : List Text) (t : Text) : Document :=
  match d.find? names with
  | some (site, _) => d.set site t
  | none => d

end Document

/-- The documents of this project. -/
instance : Library where
  Document := Document
  Value := Literal
  parse := Document.ofText?
  text := Document.text
  node d name := d.node [name]
  value? d table key := d.value? [table, key]
  set d table key := d.setValue [table, key]
  string? := Literal.string?
  search? := Literal.search?

end Stylesheet.Toml
