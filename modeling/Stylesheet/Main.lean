import Stylesheet.Command.Bump
import Stylesheet.Command.Listing

/-!
# The command line

`list <file>` lists the rules of a stylesheet, `bump <version>` sets a new version in the files of the
current folder. Only reading, writing and printing happen here.
-/

namespace Stylesheet.Main

/-! ## Files -/

/-- What a system error says about opening a file. -/
def openFault : IO.Error → Files.OpenFault
  | .inappropriateType _ 20 _ => .throughFile
  | .inappropriateType _ _ _ => .folder
  | .invalidArgument _ _ _ => .badName
  | _ => .missing

def openFile (name : Text) : IO (Except Files.OpenFault ByteArray) := do
  try return .ok (← IO.FS.readBinFile (String.ofList name))
  catch e => return .error (openFault e)

/-- A tree with the files at some paths, as far as they are there. -/
def load (paths : List Text) : IO Files := do
  let mut fs : Files := ⟨[], []⟩
  for path in paths do
    let place := Text.pieces '/' path
    match ← openFile path with
    | .ok bytes => fs := { fs with files := (place, bytes) :: fs.files }
    | .error .folder => fs := { fs with folders := place :: fs.folders }
    | .error _ => pure ()
  return fs

/-- Writes the files of a tree that differ from those of another. -/
def save (old new : Files) : IO Unit :=
  new.files.forM fun (place, bytes) => do
    if (old.files.lookup place).map (·.data) ≠ some bytes.data then
      IO.FS.writeBinFile (String.ofList (List.intercalate ['/'] place)) bytes

/-! ## Commands -/

def list (args : List Text) : IO UInt32 := do
  let printed ← match args with
    | [name] => pure (Command.Listing.ofOpened name (← openFile name))
    | _ => pure (.ok Command.Listing.usage)
  match printed with
  | .ok p =>
    IO.eprint (String.ofList p.stderr)
    IO.print (String.ofList p.stdout)
    return UInt32.ofNat p.status
  | .error .badName => throw (IO.userError "embedded null byte")
  | .error (.undecodable f) => throw (IO.userError (String.ofList f.message))

def bump (args : List Text) : IO UInt32 := do
  let fs ← load [Command.Bump.settingsPath, Command.Bump.sourcePath]
  let (outcome, desk) := (Command.Bump.run args).runOn fs
  save fs desk.files
  IO.print (String.ofList desk.output)
  match outcome with
  | .ok status => return UInt32.ofNat status
  | .error fault => throw (IO.userError (String.ofList fault.message))

end Stylesheet.Main

def main (args : List String) : IO UInt32 :=
  match args with
  | "list" :: rest => Stylesheet.Main.list (rest.map String.toList)
  | "bump" :: rest => Stylesheet.Main.bump (rest.map String.toList)
  | _ => do
    IO.eprintln "Usage: stylesheet list <file> | stylesheet bump <version>"
    return 2
