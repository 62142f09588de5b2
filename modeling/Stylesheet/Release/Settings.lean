import Stylesheet.Toml.Library

/-!
# The version in a settings document

A project states its version under the key `version` of its table `project`.
-/

namespace Stylesheet.Release

def projectKey : Text := "project".toList

def versionKey : Text := "version".toList

/-- Why a document has no version to read or to set. -/
inductive FieldFault
  /-- There is no such field. -/
  | missing
  /-- The project is no table, so it has no fields to read. -/
  | unreadable
  /-- The project is no table, and what it is cannot be given a field. -/
  | unwritable
deriving DecidableEq

namespace Settings

open Toml

variable [Library]

/-- The version that a document states, if any. -/
def version (d : Library.Document) : Except FieldFault (Option Library.Value) :=
  match Library.node d projectKey with
  | .absent => .ok none
  | .table => .ok (Library.value? d projectKey versionKey)
  | .value _ => .error .unreadable
  | .sequence => .error .unreadable

/-- The text of the document with another version in the place of the one it states. A project that is
no table is searched for the key as far as it can be searched. -/
def withVersion (d : Library.Document) (version : Text) : Except FieldFault Text :=
  match Library.node d projectKey with
  | .absent => .error .missing
  | .sequence => .error .missing
  | .table =>
    if (Library.value? d projectKey versionKey).isSome then
      .ok (Library.text (Library.set d projectKey versionKey version))
    else .error .missing
  | .value v =>
    .error (if Library.search? versionKey v = some false then .missing else .unwritable)

end Settings

end Stylesheet.Release
