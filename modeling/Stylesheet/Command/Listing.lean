import Stylesheet.Files.Tree
import Stylesheet.Parser

/-!
# Listing a stylesheet

The command reads a file and lists its rules. What happens on the way goes to the error stream: every
rule, or the error with its warning.
-/

namespace Stylesheet.Command.Listing

structure Printed where
  status : Nat
  stdout : Text
  stderr : Text
deriving DecidableEq

/-- What the command does not answer. -/
inductive Fault
  | badName
  | undecodable (f : Utf8.Fault)
deriving DecidableEq

/-! ## Telling of a parse -/

/-- A parser with a listener for rules and one for errors. -/
def watched : Parser :=
  ⟨.empty, ⟨[⟨"rule".toList, .record⟩], [⟨"error".toList, .record⟩], []⟩⟩

def line (t : Text) : Text := t ++ ['\n']

/-- What a moment puts on the error stream. Of the journal only warnings show. -/
def told : Moment → Text
  | .called ⟨_, _, _, _, .rule r, _⟩ => line ("New rule parsed: ".toList ++ r.selector.text)
  | .called ⟨_, _, _, _, .error report, _⟩ => line report
  | .logged entry => if entry.level = .warning then line entry.text else []
  | _ => []

/-- Lists the rules of a text. -/
def ofText (t : Text) : Printed :=
  let (outcome, w) := watched.parse t
  let stderr := w.moments.flatMap told
  match outcome with
  | .ok s => ⟨0, s.listing, stderr⟩
  | .error _ => ⟨1, [], stderr⟩

/-! ## Files -/

/-- The error of a system that cannot open a file. -/
def systemError : Files.OpenFault → Text
  | .missing => "[Errno 2] No such file or directory".toList
  | .throughFile => "[Errno 20] Not a directory".toList
  | .folder => "[Errno 21] Is a directory".toList
  | .badName => []

def unreadable (name : Text) (f : Files.OpenFault) : Printed :=
  ⟨1, [], line ("Error: cannot read ".toList ++ name ++ ": ".toList ++ systemError f ++ ": ".toList
    ++ Text.quoted name)⟩

def usage : Printed := ⟨2, [], line "Usage: python examples/main.py <stylesheet.css>".toList⟩

/-- Lists the rules of the file with a name, which was opened or not. -/
def ofOpened (name : Text) : Except Files.OpenFault ByteArray → Except Fault Printed
  | .error .badName => .error .badName
  | .error f => .ok (unreadable name f)
  | .ok bytes =>
    match Files.textOf bytes with
    | .ok t => .ok (ofText t)
    | .error f => .error (.undecodable f)

/-- The whole command. -/
def run (args : List Text) (fs : Files) : Except Fault Printed :=
  match args with
  | [name] => ofOpened name ((fs.openFile name).map (·.2))
  | _ => .ok usage

end Stylesheet.Command.Listing
