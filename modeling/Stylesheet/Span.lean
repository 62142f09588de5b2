import Stylesheet.Text.Quoted

/-!
# Spans

A span names a stretch of a source by its bounds and keeps no copy of it. Bounds are kept as given;
which characters they cover is the rule of `Text.slice`.
-/

namespace Stylesheet

structure Span where
  source : Text
  start : Int
  stop : Int
deriving DecidableEq

namespace Span

/-- The characters that the bounds cover. -/
def text (s : Span) : Text := Text.slice s.source s.start s.stop

/-- Why a span has no size. -/
inductive SizeFault
  | negative
  | tooLarge
deriving DecidableEq

/-- The number of signed words of 64 bits that are not negative. -/
def sizeLimit : Int := 0x8000000000000000

/-- The distance of the bounds, where it is the size of something: not negative and below the limit.
A distance that fits no signed word is too large even if it is negative. -/
def size (s : Span) : Except SizeFault Int :=
  let d := s.stop - s.start
  if sizeLimit ≤ d ∨ d < -sizeLimit then .error .tooLarge
  else if d < 0 then .error .negative
  else .ok d

/-- The span written out for a reader of traces. -/
def described (s : Span) : Text :=
  "TextSpan(".toList ++ Text.quoted s.text ++ ", ".toList ++ Text.ofInt s.start ++ ", ".toList
    ++ Text.ofInt s.stop ++ ")".toList

end Span

end Stylesheet
