import Stylesheet.Text.Quoted

/-!
# Diagnostics

A diagnostic says what is wrong and where: the offset, the line and column of that offset, and the
text of the line with a caret under the column. Only a line feed ends a line. A line feed belongs to
the line it ends, and the end of the text to the last line.
-/

namespace Stylesheet

structure Diagnostic where
  message : Text
  /-- Offset of the offending character. -/
  offset : Int
  /-- Number of the line, from one. -/
  line : Int
  /-- Column within the line, from zero. -/
  column : Int
  /-- Offset of the first character of the line. -/
  lineStart : Int
  /-- Offset of the line feed that ends the line, or the length of the text. -/
  lineEnd : Int
  /-- The line without its end. -/
  sourceLine : Text
deriving DecidableEq

namespace Diagnostic

/-! ## Lines -/

/-- Number and start of the current line after a text that begins at offset `pos`, on line `line`,
which starts at `start`. -/
def lineAfter (line start pos : Nat) : Text → Nat × Nat
  | [] => (line, start)
  | c :: cs =>
    if c = '\n' then lineAfter (line + 1) (pos + 1) (pos + 1) cs
    else lineAfter line start (pos + 1) cs

/-- A line without the carriage return before its end, if there is one. -/
def withoutReturn (line : Text) : Text :=
  if line.getLast? = some '\r' then line.dropLast else line

/-- The diagnostic of an offset. An offset outside the text moves to the nearer end. -/
def locate (source : Text) (offset : Int) (message : Text) : Diagnostic :=
  let o := min offset.toNat source.length
  let (line, start) := lineAfter 1 0 0 (source.take o)
  let stop := o + ((source.drop o).takeWhile (· ≠ '\n')).length
  { message, offset := o, line, column := (o - start : Nat), lineStart := start, lineEnd := stop,
    sourceLine := withoutReturn ((source.take stop).drop start) }

/-! ## Written forms -/

def caret : Text := "^ Near here.".toList

/-- A header, a blank line, the line, and the caret under the column. -/
def render (d : Diagnostic) : Text :=
  "Error at line ".toList ++ Text.ofInt d.line ++ ", column ".toList ++ Text.ofInt d.column
    ++ ". ".toList ++ d.message ++ ['\n', '\n'] ++ d.sourceLine ++ ['\n']
    ++ List.replicate d.column.toNat ' ' ++ caret

/-- The diagnostic written out for a reader of traces. -/
def described (d : Diagnostic) : Text :=
  "Diagnostic(line=".toList ++ Text.ofInt d.line ++ ", column=".toList ++ Text.ofInt d.column
    ++ ", message=".toList ++ Text.quoted d.message ++ ")".toList

end Diagnostic

end Stylesheet
