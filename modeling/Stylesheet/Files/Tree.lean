import Stylesheet.Files.Newlines
import Stylesheet.Files.Utf8

/-!
# Files

A tree of files as seen from its top folder. A place is a list of names from the top down. Programs name
files by texts with slashes, which are followed name by name.
-/

namespace Stylesheet

/-- The names from the top folder down. -/
abbrev Place := List Text

structure Files where
  files : List (Place × ByteArray)
  /-- Folders besides those that the files need. -/
  folders : List Place

namespace Files

/-! ## Places -/

/-- What is at a place. -/
inductive Node
  | file (bytes : ByteArray)
  | folder

/-- Whether something lies at a place or below it. -/
def isFolder (fs : Files) (p : Place) : Bool :=
  p.isEmpty || (fs.files.map (·.1) ++ fs.folders).any fun q => p.isPrefixOf q

/-- What is at a place. The top is a folder. -/
def node? (fs : Files) (p : Place) : Option Node :=
  match fs.files.lookup p with
  | some bytes => some (.file bytes)
  | none => if fs.isFolder p then some .folder else none

/-- The files with other bytes in the file at a place. -/
def write (fs : Files) (p : Place) (bytes : ByteArray) : Files :=
  { fs with files := fs.files.map fun (q, old) => (q, if q = p then bytes else old) }

/-! ## Following names -/

/-- What a text names. -/
inductive Target
  | file (p : Place) (bytes : ByteArray)
  | folder
  | missing
  /-- The way leads through a file. -/
  | throughFile

/-- Follows names from a place on. A dot stays and two dots go up. What lies outside the tree is not
known: above the top there is nothing to find. -/
def follow (fs : Files) (p : Place) : List Text → Target
  | [] =>
    match fs.node? p with
    | some (.file bytes) => .file p bytes
    | some .folder => .folder
    | none => .missing
  | n :: ns =>
    match fs.node? p with
    | none => .missing
    | some (.file _) => .throughFile
    | some .folder =>
      if n = [] ∨ n = ['.'] then follow fs p ns
      else if n = ['.', '.'] then
        if p.isEmpty then if ns.isEmpty then .folder else .missing
        else follow fs p.dropLast ns
      else follow fs (p ++ [n]) ns

/-- What a text names. Slashes separate names, so one at the end asks for a folder. -/
def find (fs : Files) (t : Text) : Target :=
  match t with
  | [] => .missing
  | '/' :: rest => if rest.all (· = '/') then .folder else .missing
  | _ => fs.follow [] (Text.pieces '/' t)

/-! ## Paths -/

/-- The plain spelling of a path: without empty names and dots. -/
def plainPath (t : Text) : Text :=
  let names := (Text.pieces '/' t).filter fun n => !(n.isEmpty || n = ['.'])
  let path := List.intercalate ['/'] names
  match t with
  | '/' :: '/' :: c :: _ => if c = '/' then '/' :: path else '/' :: '/' :: path
  | ['/', '/'] => ['/', '/']
  | '/' :: _ => '/' :: path
  | _ => if names.isEmpty then ['.'] else path

/-! ## Reading -/

/-- Why a file cannot be opened. -/
inductive OpenFault
  | missing
  | throughFile
  | folder
  /-- The name has a character that no name can have. -/
  | badName
deriving DecidableEq

/-- The place and bytes of the file that a text names. -/
def openFile (fs : Files) (t : Text) : Except OpenFault (Place × ByteArray) :=
  if '\x00' ∈ t then .error .badName
  else match fs.find t with
    | .file p bytes => .ok (p, bytes)
    | .folder => .error .folder
    | .missing => .error .missing
    | .throughFile => .error .throughFile

/-- The text of bytes with line feeds as ends of lines. -/
def textOf (bytes : ByteArray) : Except Utf8.Fault Text :=
  (Utf8.decode bytes).map Text.withLineFeeds

end Files

end Stylesheet
