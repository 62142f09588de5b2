import Stylesheet.Text

/-!
# About this library
-/

namespace Stylesheet

/-- The version of the stylesheet language tools. -/
def version : Text := "0.1.0".toList

end Stylesheet
