import Stylesheet.Command.Desk
import Stylesheet.Release.Assignment
import Stylesheet.Release.Version

/-!
# Setting a new version

A project states its version in its settings and in a source file. Setting a new version writes both,
the settings first. Each file is written only when its new text is known.
-/

namespace Stylesheet.Command.Bump

open Errand

variable [Toml.Library]

/-! ## One file -/

def checkVersion (version : Text) : Errand Unit :=
  if Release.isVersion version then pure () else throw .badVersion

/-- The line that tells of a written file. -/
def updated (path version : Text) : Text :=
  "Updated ".toList ++ path ++ " to version ".toList ++ version

/-- Rewrites the file at a path and tells of it. Nothing is written before the new text is known. -/
def revise (path version : Text) (edit : Text → Except Fault Text) : Errand Unit := do
  let (p, t) ← readFile path
  let new ← given (edit t)
  writeFile p new
  printLine (updated path version)

/-- The version that a text of settings states, if there is any. -/
def stated (t : Text) : Except Fault (Option Toml.Library.Value) := do
  let d ← (Toml.Library.parse t).mapError .malformedSettings
  (Release.Settings.version d).mapError .field

/-- A text of settings with another version. -/
def editSettings (version t : Text) : Except Fault Text := do
  let d ← (Toml.Library.parse t).mapError .malformedSettings
  (Release.Settings.withVersion d version).mapError .field

/-- The text of the source file at a path with another version in every assignment. -/
def editSource (path version t : Text) : Except Fault Text :=
  if Release.Assignment.occurs t then do
    let ps ← (Release.Template.parts (Release.Assignment.template version)).mapError .template
    .ok (Release.Assignment.replaced ps t)
  else .error (.assignmentMissing path)

/-- The version that the settings at a path state, if there are any. -/
def currentVersion (path : Text) : Errand (Option Toml.Library.Value) := do
  match ← readFile? (Files.plainPath path) with
  | none => return none
  | some (_, t) => given (stated t)

/-- Sets the version in the settings at a path. -/
def setInSettings (path version : Text) : Errand Unit :=
  revise (Files.plainPath path) version (editSettings version)

/-- Sets the version in every assignment of the source file at a path. -/
def setInSource (path version : Text) : Errand Unit :=
  revise (Files.plainPath path) version (editSource (Files.plainPath path) version)

/-! ## Both files -/

def settingsPath : Text := "pyproject.toml".toList

def sourcePath : Text := "src/minicss_parser/__init__.py".toList

/-- The line that tells of a version that needs no setting. -/
def alreadySet (version : Text) : Text :=
  "Version ".toList ++ version ++ " already set in pyproject.toml, skipping update".toList

/-- Sets a new version unless the settings state it already. -/
def set (version : Text) : Errand Unit := do
  checkVersion version
  let current ← currentVersion settingsPath
  if current.bind Toml.Library.string? = some version then
    printLine (alreadySet version)
  else
    setInSettings settingsPath version
    setInSource sourcePath version

def usage : Text := "Usage: python update_version.py <new_version>".toList

/-- The whole command, which gives an exit status. -/
def run (args : List Text) : Errand Nat :=
  match args with
  | [version] =>
    tryCatch (do set version; return 0) fun fault => do
      if fault.isReported then
        printLine ("Error: ".toList ++ fault.message)
        return 1
      else throw fault
  | _ => do
    printLine usage
    return 1

end Stylesheet.Command.Bump
