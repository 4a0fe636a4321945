/-!
# Locations in a source text

Offsets count the bytes of the UTF-8 text.
-/

namespace HygienicLisp

/-- The range of bytes from `start` up to `stop` of a source text. -/
structure Span where
  start : Nat
  stop : Nat
  deriving DecidableEq, Repr, Inhabited

/-- A source text and the name it has in reports. -/
structure Source where
  name : String
  text : String
  deriving DecidableEq, Repr, Inhabited

end HygienicLisp
