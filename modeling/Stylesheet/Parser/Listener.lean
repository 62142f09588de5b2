import Stylesheet.Journal

/-!
# Listeners

A listener is registered for one event and told of it. What it does is a script that is fixed when it
is registered: the deeds of its first call, those of its second call, and so on, and at last a habit
that it keeps without end. Up to any moment of a run, a listener that decides as it goes has done
finitely many deeds, so a script can say what it does up to there.
-/

namespace Stylesheet

/-! ## Events -/

inductive Event
  | ruleAdded
  | errorFound
  | parseCompleted
deriving DecidableEq

namespace Event

def all : List Event := [ruleAdded, errorFound, parseCompleted]

def name : Event → Text
  | ruleAdded => "rule_added".toList
  | errorFound => "error_found".toList
  | parseCompleted => "parse_completed".toList

def ofName? (t : Text) : Option Event := all.find? (·.name = t)

theorem ofName?_name (e : Event) : ofName? e.name = some e := by cases e <;> decide

theorem name_of_ofName? {t : Text} {e : Event} (h : ofName? t = some e) : e.name = t := by
  simpa using List.find?_some h

end Event

/-- What a listener is told. -/
inductive Notice
  | rule (r : Rule)
  | error (report : Text)
  | completed
deriving DecidableEq

/-! ## Actions -/

/-- An error that goes out through all listeners under way, unless one keeps it to itself. -/
inductive Raised
  | rejected (e : ParseError)
  | byListener (id : Text)
deriving DecidableEq

inductive Deed
  /-- Looks at the parser's sheet. -/
  | look
  | raise (error : Raised)
  /-- Registers a recording listener under the name of an event. -/
  | register (event : Text)
  /-- Reports an error. -/
  | report (text : Text)
  /-- Parses a text, and keeps a rejection to itself if `catching`. -/
  | parse (text : Text) (catching : Bool)
  /-- Does a deed and keeps every error to itself. -/
  | quietly (deed : Deed)
deriving DecidableEq

/-- What a listener can do at every call without end, as it leaves the parser as it is. -/
inductive Habit
  /-- Only takes note of the call. -/
  | record
  /-- Asks for the text of the parser's sheet. -/
  | look
  /-- Raises an error of its own. -/
  | raise
deriving DecidableEq

inductive Action
  | always (habit : Habit)
  | perform (deed : Deed) (next : Action)
  /-- Registers a listener with an action of its own, known by the id of this one and a suffix. -/
  | enlist (event suffix : Text) (action next : Action)
  /-- Ends a call. The next call goes on from here. -/
  | pause (next : Action)
deriving DecidableEq

namespace Action

def record : Action := always .record

def look : Action := always .look

def raise : Action := always .raise

/-- A deed at the first call, and nothing later. -/
def once (deed : Deed) : Action := perform deed record

/-- What is left of an action after a call, however the call ends. -/
def rest : Action → Action
  | always habit => always habit
  | perform _ next => next.rest
  | enlist _ _ _ next => next.rest
  | pause next => next

/-- The deeds of an action, those of the listeners it registers included. -/
def size : Action → Nat
  | always _ => 0
  | perform _ next => next.size + 1
  | enlist _ _ action next => action.size + next.size + 1
  | pause next => next.size

end Action

/-! ## Listeners and rosters -/

structure Listener where
  id : Text
  action : Action
deriving DecidableEq

/-- The listener after a call. -/
def Listener.afterCall (l : Listener) : Listener := { l with action := l.action.rest }

/-- The listeners of each event, in the order of registration. -/
structure Roster where
  ruleAdded : List Listener
  errorFound : List Listener
  parseCompleted : List Listener
deriving DecidableEq

namespace Roster

def empty : Roster := ⟨[], [], []⟩

/-- The listeners of an event. -/
def of (r : Roster) : Event → List Listener
  | .ruleAdded => r.ruleAdded
  | .errorFound => r.errorFound
  | .parseCompleted => r.parseCompleted

def modify (r : Roster) (f : List Listener → List Listener) : Event → Roster
  | .ruleAdded => { r with ruleAdded := f r.ruleAdded }
  | .errorFound => { r with errorFound := f r.errorFound }
  | .parseCompleted => { r with parseCompleted := f r.parseCompleted }

theorem of_modify (r : Roster) (f : List Listener → List Listener) (e e' : Event) :
    (r.modify f e).of e' = if e' = e then f (r.of e) else r.of e' := by
  cases e <;> cases e' <;> rfl

def add (r : Roster) (e : Event) (l : Listener) : Roster := r.modify (· ++ [l]) e

/-- Goes on to the next call of the listener at a place. -/
def advance (r : Roster) (e : Event) (place : Nat) : Roster :=
  r.modify (·.modify place Listener.afterCall) e

/-- The deeds of some listeners. -/
def deeds (ls : List Listener) : Nat := ls.foldr (fun l n => l.action.size + n) 0

/-- How many deeds the listeners have still to do. -/
def pending (r : Roster) : Nat := deeds r.ruleAdded + deeds r.errorFound + deeds r.parseCompleted

end Roster

end Stylesheet
