import Stylesheet.Command.Bump

/-!
# Settings of the documentation

The documentation shows the version of the project, leaves out members unless told otherwise, and
shortens qualified names.
-/

namespace Stylesheet.Command.Docs

open Errand

def project : Text := "Mini CSS Parser".toList

/-! ## Versions -/

/-- The version of a project that states none. -/
def noVersion : Text := "0.0.0".toList

/-- The first two parts of a version. -/
def shortVersion (release : Text) : Text :=
  List.intercalate ['.'] ((Text.pieces '.' release).take 2)

/-- The version that the project states in full. It must be a string. -/
def release [Toml.Library] : Errand Text := do
  match ← Bump.currentVersion Bump.settingsPath with
  | none => return noVersion
  | some v =>
    match Toml.Library.string? v with
    | some t => return t
    | none => throw (.field .unreadable)

/-! ## Members and names -/

/-- Whether a member is left out. Constructors never are. -/
def leavesOut (name : Text) (otherwise : Bool) : Bool :=
  if name = "__init__".toList then false else otherwise

/-- The qualifier that names are shown without. -/
def qualifier : Text := "minicss_parser.minicss_parser.".toList

def shortened (line : Text) : Text := Text.without qualifier line

/-- The events that the documentation listens to, with the rule for each. -/
def connected : List (Text × Text) :=
  [("autodoc-skip-member".toList, "skip".toList),
   ("autodoc-process-docstring".toList, "process_docstring".toList)]

end Stylesheet.Command.Docs
