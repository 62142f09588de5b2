import Stylesheet.Parser.History
import Stylesheet.Reading
import Stylesheet.Sheet.Layout

/-!
# Parsing with listeners

A parser tells its listeners of every rule of a text it accepts, of the end of the text, and of
errors. Listeners are called in the order of registration, and one that is registered while its event
is being told is called too. A listener may itself make the parser register, report or parse, so
telling nests. Every level of nesting uses up a deed of a listener, and this bounds the depth.
-/

namespace Stylesheet

/-- Telling an event to its listeners. -/
abbrev Telling := Event → Notice → Work Unit

namespace Work

/-! ## What a parser does -/

/-- Registers a listener under the name of an event. Other names are passed over. -/
def register (event : Text) (l : Listener) : Work Unit := do
  match Event.ofName? event with
  | none => pure ()
  | some e =>
    setRoster (·.add e l)
    log (.listenerRegistered event)

/-- Reports an error. -/
def report (tell : Telling) (text : Text) : Work Unit := do
  log (.errorReported text)
  tell .errorFound (.error text)

/-- Parses a text. The sheet is empty until the whole text is accepted, and an error is reported before
it is raised. The sheet that comes out is the one of this text, whatever listeners do. -/
def parse (tell : Telling) (text : Text) : Work Sheet := do
  note (.began text)
  store .empty
  match Sheet.read text with
  | (rs, none) =>
    logAll (rs.map Entry.ofRule)
    store ⟨rs⟩
    rs.forM fun r => tell .ruleAdded (.rule r)
    tell .parseCompleted .completed
    log (.parsingCompleted rs.length)
    return ⟨rs⟩
  | (rs, some f) =>
    let e := f.error text
    logAll (rs.map Entry.ofRule ++ [.ofError e])
    report tell e.diagnostic.render
    throw (.rejected e)

/-! ## What a listener does -/

/-- Does a deed of the listener `id`. -/
def doDeed (tell : Telling) (id : Text) : Deed → Work Unit
  | .look => do note (.seen id (← parser).sheet)
  | .raise error => throw error
  | .register event => register event ⟨id ++ ['+'], .record⟩
  | .report text => report tell text
  | .parse text false => do let _ ← parse tell text
  | .parse text true =>
    tryCatch (do let _ ← parse tell text) fun
      | .rejected e => note (.caught id e.kind)
      | .byListener other => throw (.byListener other)
  | .quietly deed => tryCatch (doDeed tell id deed) fun _ => pure ()

/-- Does what an action says for one call of the listener `id`. -/
def perform (tell : Telling) (id : Text) : Action → Work Unit
  | .always .record => pure ()
  | .always .look => do note (.shown id (← parser).sheet.text)
  | .always .raise => throw (.byListener id)
  | .perform deed next => do
    doDeed tell id deed
    perform tell id next
  | .enlist event suffix action next => do
    register event ⟨id ++ suffix, action⟩
    perform tell id next
  | .pause _ => pure ()

/-- What the listener at a place does when it is called. Its next call is fixed before it begins, as it
may be called again before it ends. -/
def act (tell : Telling) (e : Event) (place : Nat) (l : Listener) : Work Unit := do
  setRoster (·.advance e place)
  perform tell l.id l.action

/-- Calls the listener at a place, if there is one. -/
def call (tell : Telling) (depth : Nat) (e : Event) (notice : Notice) (place : Nat) : Work Unit := do
  let p ← parser
  match (p.roster.of e)[place]? with
  | none => pure ()
  | some l =>
    note (.called ⟨depth, e, place, l.id, notice, p.sheet⟩)
    tryCatch (act tell e place l) fun error => do
      note (.escaped depth error)
      throw error

/-! ## Telling -/

/-- Calls every listener of an event, place by place. Every deed that is still to be done can add one
listener at most, and there are no more places than that. -/
def visit (tell : Telling) (depth : Nat) : Telling := fun e notice => do
  let roster := (← parser).roster
  (List.range ((roster.of e).length + roster.pending)).forM (call tell depth e notice)

/-- Telling from inside `depth` calls, where calls can nest to `levels` more levels. -/
def tellWithin : Nat → Nat → Telling
  | 0, _ => fun _ _ => pure ()
  | levels + 1, depth => visit (tellWithin levels (depth + 1)) depth

/-- Telling from inside `depth` calls. Below the listeners called first, every level takes a deed. -/
def tellAt (depth : Nat) : Telling := fun e notice => do
  tellWithin ((← parser).roster.pending + 1) depth e notice

/-- Telling from outside all calls. -/
def tell : Telling := tellAt 0

end Work

namespace Parser

/-- A parser with one recording listener for every event, known by the name of its event. -/
def attended : Parser :=
  ⟨.empty, Event.all.foldl (fun r e => r.add e ⟨e.name, .record⟩) .empty⟩

/-- Registers a listener. -/
def register (p : Parser) (event : Text) (l : Listener) : World :=
  ((Work.register event l).runOn p).2

/-- Reports an error to the listeners. -/
def report (p : Parser) (text : Text) : Except Raised Unit × World :=
  (Work.report Work.tell text).runOn p

/-- Parses a text. -/
def parse (p : Parser) (text : Text) : Except Raised Sheet × World :=
  (Work.parse Work.tell text).runOn p

end Parser

end Stylesheet
