import Stylesheet.Files.Tree
import Stylesheet.Release.Settings
import Stylesheet.Release.Template

/-!
# Work on files

Commands read and write files and print. A command that fails leaves what it did before.
-/

namespace Stylesheet.Command

/-- The files and what has been printed. -/
structure Desk where
  files : Files
  output : Text

/-- Why a command fails. -/
inductive Fault
  | badVersion
  | fileMissing (path : Text)
  | folder
  | undecodable (f : Utf8.Fault)
  | malformedSettings (f : Toml.Fault)
  | field (f : Release.FieldFault)
  | assignmentMissing (path : Text)
  | template (f : Release.TemplateFault)
deriving DecidableEq

namespace Fault

def message : Fault → Text
  | badVersion => "Version must be in MAJOR.MINOR.PATCH format (e.g., 0.1.0)".toList
  | fileMissing path => "File not found: ".toList ++ path
  | folder => "Is a directory".toList
  | undecodable f => f.message
  | malformedSettings .malformed => "TOML parse error".toList
  | malformedSettings .duplicate => "TOML key already exists".toList
  | field .missing => "\"Invalid pyproject.toml: missing 'project.version' field\"".toList
  | field .unreadable => "Invalid pyproject.toml: 'project' is not a table".toList
  | field .unwritable => "Invalid pyproject.toml: 'project' is not a table".toList
  | assignmentMissing path => "No __version__ found in ".toList ++ path
  | template _ => "Invalid replacement".toList

/-- Whether a command reports the fault itself. Folders in the place of files, duplicate keys, projects
that are no tables, and versions that make no template are left to the caller. -/
def isReported : Fault → Bool
  | badVersion => true
  | fileMissing _ => true
  | folder => false
  | undecodable _ => true
  | malformedSettings f => f = .malformed
  | field f => f = .missing
  | assignmentMissing _ => true
  | template _ => false

end Fault

/-- Work that changes the desk and may fail. -/
abbrev Errand := ExceptT Fault (StateM Desk)

namespace Errand

/-- Does an errand on some files, with nothing printed yet. -/
def runOn {α : Type} (errand : Errand α) (fs : Files) : Except Fault α × Desk :=
  errand.run.run ⟨fs, []⟩

def printLine (t : Text) : Errand Unit :=
  modify fun d => { d with output := d.output ++ t ++ ['\n'] }

/-- Work that only gives a value or fails. -/
def given {α : Type} : Except Fault α → Errand α
  | .ok a => pure a
  | .error fault => throw fault

/-- The place and text of the file that a path names, if anything is there. The path must be plain. Ends
of lines become line feeds. -/
def reading (fs : Files) (path : Text) : Except Fault (Option (Place × Text)) :=
  match fs.find path with
  | .file p bytes =>
    match Files.textOf bytes with
    | .ok t => .ok (some (p, t))
    | .error f => .error (.undecodable f)
  | .folder => .error .folder
  | .missing => .ok none
  | .throughFile => .ok none

/-- The place and text of the file at a path, if anything is there. -/
def readFile? (path : Text) : Errand (Option (Place × Text)) := do
  given (reading (← get).files path)

/-- The place and text of the file at a path. -/
def readFile (path : Text) : Errand (Place × Text) := do
  match ← readFile? path with
  | some found => return found
  | none => throw (.fileMissing path)

/-- Writes a text as it is. -/
def writeFile (p : Place) (t : Text) : Errand Unit :=
  modify fun d => { d with files := d.files.write p (Utf8.encode t) }

end Errand

end Stylesheet.Command
