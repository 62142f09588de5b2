import Stylesheet.Text
import Stylesheet.Text.Printable

/-!
# Quoted text

A text between quotes, on one line and with every character visible. Single quotes are used unless
the text has a single quote and no double quote.
-/

namespace Stylesheet.Text

/-! ## Hexadecimal -/

/-- The number in base sixteen, in small letters, with leading zeros up to `width` digits. -/
def hex (width n : Nat) : Text :=
  let digits := Nat.toDigits 16 n
  List.replicate (width - digits.length) '0' ++ digits

/-! ## Escapes -/

/-- The escape of a character that is not printed: two, four or eight hexadecimal digits. -/
def numericEscape (c : Char) : Text :=
  if c.toNat < 0x100 then '\\' :: 'x' :: hex 2 c.toNat
  else if c.toNat < 0x10000 then '\\' :: 'u' :: hex 4 c.toNat
  else '\\' :: 'U' :: hex 8 c.toNat

/-- A character as it stands between two marks `quote`. -/
def quotedChar (quote c : Char) : Text :=
  if c = quote ∨ c = '\\' then ['\\', c]
  else if c = '\n' then ['\\', 'n']
  else if c = '\r' then ['\\', 'r']
  else if c = '\t' then ['\\', 't']
  else if isPrintable c then [c]
  else numericEscape c

/-- The mark that saves escapes. -/
def quoteMark (t : Text) : Char := if '\'' ∈ t ∧ '"' ∉ t then '"' else '\''

def quoted (t : Text) : Text := quoteMark t :: t.flatMap (quotedChar (quoteMark t)) ++ [quoteMark t]

end Stylesheet.Text
