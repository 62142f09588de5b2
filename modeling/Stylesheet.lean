import Stylesheet.About
import Stylesheet.Alphabet
import Stylesheet.Command.Bump
import Stylesheet.Command.Desk
import Stylesheet.Command.Docs
import Stylesheet.Command.Listing
import Stylesheet.Cursor
import Stylesheet.Diagnostic
import Stylesheet.Fault
import Stylesheet.Files.Newlines
import Stylesheet.Files.Tree
import Stylesheet.Files.Utf8
import Stylesheet.Journal
import Stylesheet.Main
import Stylesheet.Parser
import Stylesheet.Parser.History
import Stylesheet.Parser.Listener
import Stylesheet.Reading
import Stylesheet.Release.Assignment
import Stylesheet.Release.Digit
import Stylesheet.Release.Settings
import Stylesheet.Release.Template
import Stylesheet.Release.Version
import Stylesheet.Report
import Stylesheet.Session
import Stylesheet.Sheet
import Stylesheet.Sheet.Layout
import Stylesheet.Span
import Stylesheet.Text
import Stylesheet.Text.Printable
import Stylesheet.Text.Quoted
import Stylesheet.Toml.Document
import Stylesheet.Toml.Item
import Stylesheet.Toml.Library
import Stylesheet.Toml.Literal
import Stylesheet.Toml.Token
import Stylesheet.Value
import Stylesheet.Walk
import Stylesheet.Proofs.Content
import Stylesheet.Proofs.Grammar
import Stylesheet.Proofs.Lexeme
import Stylesheet.Proofs.Derivation
import Stylesheet.Proofs.Automaton
import Stylesheet.Proofs.Cursor
import Stylesheet.Proofs.Reading
import Stylesheet.Proofs.Failure
import Stylesheet.Proofs.Language
import Stylesheet.Proofs.Effects
import Stylesheet.Proofs.Work
import Stylesheet.Proofs.RoundTrip
import Stylesheet.Proofs.Earliest
import Stylesheet.Proofs.Law
import Stylesheet.Proofs.Moves
import Stylesheet.Proofs.Latest
import Stylesheet.Proofs.Deeds
import Stylesheet.Proofs.Nesting
import Stylesheet.Proofs.Direct
import Stylesheet.Proofs.Rounds
import Stylesheet.Proofs.Steps
import Stylesheet.Proofs.Context
import Stylesheet.Proofs.Lines
import Stylesheet.Proofs.Pieces
import Stylesheet.Proofs.Concatenation
import Stylesheet.Proofs.Extent
import Stylesheet.Proofs.Truncation
import Stylesheet.Proofs.Report
import Stylesheet.Proofs.LineEnds
import Stylesheet.Proofs.Canonical
import Stylesheet.Proofs.Caret
import Stylesheet.Proofs.Files
import Stylesheet.Proofs.Bump
import Stylesheet.Proofs.Assignments
import Stylesheet.Proofs.Library
import Stylesheet.Proofs.Agreement
import Stylesheet.Proofs.Cells
import Stylesheet.Proofs.Items
import Stylesheet.Proofs.Tokens
import Stylesheet.Proofs.Values
import Stylesheet.Proofs.Equality
import Stylesheet.Proofs.Grid
import Stylesheet.Proofs.Seams
import Stylesheet.Proofs.Endings
import Stylesheet.Proofs.Depth
import Stylesheet.Proofs.Forms
import Stylesheet.Proofs.Versions
import Stylesheet.Proofs.Replacement
import Stylesheet.Proofs.Keys
import Stylesheet.Proofs.Preservation
import Stylesheet.Proofs.Recorders
import Stylesheet.Proofs.SameLines
import Stylesheet.Proofs.Listing
import Stylesheet.Proofs.Updates
import Stylesheet.Proofs.Trim
import Stylesheet.Proofs.Isolation
import Stylesheet.Proofs.Positions
import Stylesheet.Proofs.Placement
import Stylesheet.Proofs.Indexed
import Stylesheet.Proofs.Reads
import Stylesheet.Proofs.Consumption
import Stylesheet.Proofs.Wraparound
