import Stylesheet.Diagnostic

/-!
# Faults

What can be wrong with a stylesheet: a mark is missing, a word is missing, or a declaration names no
recognised property. A parse error is a kind of fault with the diagnostic that reports it.
-/

namespace Stylesheet

inductive Fault
  /-- Another character, or the end, stands where a mark is required. -/
  | missingMark (mark : Text)
  /-- No letter stands where a word is required. -/
  | missingWord
  /-- A declaration names no recognised property. -/
  | unknownProperty (name : Text)
deriving DecidableEq

namespace Fault

def message : Fault → Text
  | missingMark mark => "Expected syntax: '".toList ++ mark ++ "'.".toList
  | missingWord => "Expected valid identifier.".toList
  | unknownProperty name => "Unknown property: '".toList ++ name ++ "'.".toList

end Fault

/-- A fault and the position it is reported at. -/
structure Failure where
  fault : Fault
  pos : Int
deriving DecidableEq

/-- The kind of a parse error. `general` is for errors that are made by hand. -/
inductive ErrorKind
  | general
  | missingMark
  | missingWord
  | unknownProperty (name : Text)
deriving DecidableEq

def Fault.kind : Fault → ErrorKind
  | missingMark _ => .missingMark
  | missingWord => .missingWord
  | unknownProperty name => .unknownProperty name

structure ParseError where
  kind : ErrorKind
  diagnostic : Diagnostic
deriving DecidableEq

/-- The error that reports a failure in a source. -/
def Failure.error (source : Text) (f : Failure) : ParseError :=
  ⟨f.fault.kind, Diagnostic.locate source f.pos f.fault.message⟩

end Stylesheet
