import Stylesheet.Report
import Stylesheet.Sheet.Layout

/-!
# Walks

A walk reads a source in steps, each from where the step before it ended.
-/

namespace Stylesheet

inductive WalkStep
  | blanks
  | word
  | declaration
  | rule
  | mark (m : Text)

namespace WalkStep

/-- Takes a step with a listener. The value is what was read, written out, and the position behind
it. Blanks and marks leave nothing. -/
def report (source : Text) (pos : Int) : WalkStep → Report (Option Text × Int)
  | blanks => (Report.blanks source true pos).map (none, ·)
  | mark m => (Report.mark source true pos m).map (none, ·)
  | word => (Report.word source true pos).map fun (s, p) => (some s.text, p)
  | declaration => (Report.declaration source true pos).map fun (d, p) => (some d.pair, p)
  | rule => (Report.rule source true pos).map fun (r, p) => (some r.compact, p)

/-- The position after a step that began at `pos`. A step that fails stays where it is. -/
def positionAfter (pos : Int) (r : Report (Option Text × Int)) : Int :=
  match r.outcome with
  | .ok (_, next) => next
  | .error _ => pos

end WalkStep

/-- The reports of a walk from a position, each with the position after its step. -/
def walk (source : Text) : Int → List WalkStep → List (Report (Option Text × Int) × Int)
  | _, [] => []
  | pos, s :: steps =>
    let r := s.report source pos
    let next := WalkStep.positionAfter pos r
    (r, next) :: walk source next steps

end Stylesheet
