import Stylesheet.Release.Digit
import Stylesheet.Text

/-!
# Release numbers
-/

namespace Stylesheet.Release

/-- Whether a text is a release number: three runs of digits between dots. One line feed may follow. -/
def isVersion (t : Text) : Bool :=
  let plain := if t.getLast? = some '\n' then t.dropLast else t
  match Text.pieces '.' plain with
  | [a, b, c] => [a, b, c].all fun run => !run.isEmpty && run.all isDigit
  | _ => false

end Stylesheet.Release
