import Stylesheet.Parser.Listener

/-!
# Parsers and their history

A parser keeps the sheet that it read last and its listeners. Its history is the list of everything
that happened to it: texts it began to parse, journal entries, calls of listeners and what they did.
-/

namespace Stylesheet

structure Parser where
  sheet : Sheet
  roster : Roster
deriving DecidableEq

/-- A parser that has read nothing and has no listeners. -/
def Parser.fresh : Parser := ⟨.empty, .empty⟩

/-! ## Moments -/

/-- A call of a listener. -/
structure Call where
  /-- How many calls of listeners were under way. -/
  depth : Nat
  event : Event
  /-- The place of the listener among those of the event. -/
  place : Nat
  id : Text
  notice : Notice
  /-- The parser's sheet at the time of the call. -/
  sheet : Sheet
deriving DecidableEq

inductive Moment
  | began (text : Text)
  | logged (entry : Entry)
  | called (call : Call)
  /-- The call of a listener at this depth ended with an error. -/
  | escaped (depth : Nat) (error : Raised)
  /-- A listener looked at the sheet. -/
  | seen (id : Text) (sheet : Sheet)
  /-- A listener asked for the text of the sheet and was shown this one. -/
  | shown (id : Text) (text : Text)
  /-- A listener kept a rejection to itself. -/
  | caught (id : Text) (kind : ErrorKind)
deriving DecidableEq

/-- A parser at work. The history has the newest moment first. -/
structure World where
  parser : Parser
  history : List Moment
deriving DecidableEq

namespace World

/-- The moments in order. -/
def moments (w : World) : List Moment := w.history.reverse

/-- The journal entries in order. -/
def journal (w : World) : List Entry :=
  w.moments.filterMap fun
    | .logged entry => some entry
    | _ => none

end World

/-! ## Work on a parser -/

/-- Work that changes a parser, adds to its history and may end with an error. What was done before the
error stays done. -/
abbrev Work := ExceptT Raised (StateM World)

namespace Work

def note (m : Moment) : Work Unit := modify fun w => { w with history := m :: w.history }

def log (entry : Entry) : Work Unit := note (.logged entry)

def logAll (entries : List Entry) : Work Unit := entries.forM log

def parser : Work Parser := return (← get).parser

/-- Keeps a sheet as the parser's own. -/
def store (s : Sheet) : Work Unit := modify fun w => { w with parser := { w.parser with sheet := s } }

def setRoster (f : Roster → Roster) : Work Unit :=
  modify fun w => { w with parser := { w.parser with roster := f w.parser.roster } }

/-- Does the work on a parser, from an empty history. -/
def runOn {α : Type} (work : Work α) (p : Parser) : Except Raised α × World := work.run.run ⟨p, []⟩

end Work

end Stylesheet
