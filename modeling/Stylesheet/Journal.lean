import Stylesheet.Fault
import Stylesheet.Sheet

/-!
# The journal

What a parser writes down about its work, in order.
-/

namespace Stylesheet

inductive Level
  | debug
  | warning
deriving DecidableEq

inductive Entry
  | parseFailed (offset : Int) (message : Text)
  | ruleParsed (selector : Text) (count : Nat)
  | errorReported (report : Text)
  | listenerRegistered (event : Text)
  | parsingCompleted (count : Nat)
deriving DecidableEq

namespace Entry

/-- Only a reported error is a warning. -/
def level : Entry → Level
  | errorReported _ => .warning
  | _ => .debug

def text : Entry → Text
  | parseFailed offset message =>
    "Parse failed at offset ".toList ++ Text.ofInt offset ++ ": ".toList ++ message
  | ruleParsed selector count =>
    "Parsed rule '".toList ++ selector ++ "' with ".toList ++ Text.ofInt count
      ++ " properties".toList
  | errorReported report => "Error: ".toList ++ report
  | listenerRegistered event => "Registered handler for event: ".toList ++ event
  | parsingCompleted count =>
    "Parsing completed with ".toList ++ Text.ofInt count
      ++ " rules and parse_completed event dispatched".toList

/-- The entry for a rule that has been read. -/
def ofRule (r : Rule) : Entry := ruleParsed r.selector.text r.declarations.length

/-- The entry for an error. -/
def ofError (e : ParseError) : Entry := parseFailed e.diagnostic.offset e.diagnostic.message

end Entry

end Stylesheet
