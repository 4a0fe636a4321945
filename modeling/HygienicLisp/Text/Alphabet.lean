/-!
# Character classes of the notation
-/

namespace HygienicLisp

/-- An ASCII decimal digit. -/
def isDecimalDigit (c : Char) : Bool := '0' ≤ c && c ≤ '9'

/-- A character that may begin a symbol. -/
def isSymbolStart (c : Char) : Bool :=
  ('a' ≤ c && c ≤ 'z') || ('A' ≤ c && c ≤ 'Z') || "_!?*<>=+-/%&$^~.#|".toList.contains c

/-- A character that may continue a symbol. -/
def isSymbolChar (c : Char) : Bool := isSymbolStart c || isDecimalDigit c

/-- A character that separates forms; a comma counts as one. -/
def isBlank (c : Char) : Bool :=
  c == ' ' || c == '\t' || c == '\r' || c == '\n' || c == ','

/-- The number written by a run of decimal digits. -/
def digitsValue (digits : List Char) : Nat :=
  digits.foldl (fun value c => 10 * value + (c.toNat - '0'.toNat)) 0

end HygienicLisp
