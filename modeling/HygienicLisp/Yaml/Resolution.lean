import HygienicLisp.Number.Binary64
import HygienicLisp.Number.Numeral

/-!
# What plain scalars denote

A scalar that is written plainly may denote nothing, a truth value or a number instead of
its text.  Integers are written in base ten without leading zeros, or after one of the
marks `0x`, `0o` and `0b`; other numbers are decimal fractions.
-/

namespace HygienicLisp.Yaml

/-- A word for nothing. -/
def isNull (text : List Char) : Bool :=
  ["~", "null", "Null", "NULL"].contains (String.ofList text)

/-- A word for a truth value. -/
def isTruthValue (text : List Char) : Bool :=
  ["true", "True", "TRUE", "false", "False", "FALSE"].contains (String.ofList text)

/-- Digits with a zero in front, after a sign or not: a text, and no number. -/
def hasLeadingZero (text : List Char) : Bool :=
  let unsigned := match text with
    | '+' :: rest => rest
    | '-' :: rest => rest
    | _ => text
  match unsigned with
  | '0' :: rest => !rest.isEmpty && rest.all isDecimalDigit
  | _ => false

/-- The magnitude that a text without a sign denotes. -/
def magnitude? (unsigned : List Char) : Option Nat :=
  match unsigned with
  | '0' :: 'x' :: rest => numeral? 16 rest
  | '0' :: 'o' :: rest => numeral? 8 rest
  | '0' :: 'b' :: rest => numeral? 2 rest
  | _ => if hasLeadingZero unsigned then none else numeral? 10 unsigned

/-- The natural number that a text denotes; it may have a plus sign, but no other. -/
def natural? (text : List Char) : Option Nat :=
  match text with
  | '+' :: rest => magnitude? rest
  | _ => magnitude? text

/-- The largest natural number that is read as an integer, `2 ^ 128 - 1`. -/
def maxNatural : Nat := 340282366920938463463374607431768211455

/-- The magnitude of the least integer that is read as one, `2 ^ 127`. -/
def maxNegative : Nat := 170141183460469231731687303715884105728

/-- A text that denotes an integer of at most 128 bits. -/
def isInteger (text : List Char) : Bool :=
  match text with
  | '-' :: rest =>
    match magnitude? rest with
    | some n => n ≤ maxNegative
    | none => false
  | _ =>
    match natural? text with
    | some n => n ≤ maxNatural
    | none => false

/-- The mantissa's digits and the exponent of a decimal fraction without its sign. -/
def decimal? (unsigned : List Char) : Option (List Char × Int) :=
  let whole := unsigned.takeWhile isDecimalDigit
  let rest := unsigned.dropWhile isDecimalDigit
  let (places, rest) := match rest with
    | '.' :: rest => (rest.takeWhile isDecimalDigit, rest.dropWhile isDecimalDigit)
    | _ => ([], rest)
  let exponent : Option Int := match rest with
    | [] => some 0
    | c :: rest =>
      let (negative, digits) := match rest with
        | '+' :: digits => (false, digits)
        | '-' :: digits => (true, digits)
        | digits => (false, digits)
      if (c == 'e' || c == 'E') && !digits.isEmpty && digits.all isDecimalDigit then
        some (if negative then -(digitsValue digits : Int) else digitsValue digits)
      else none
  if whole.isEmpty && places.isEmpty then none
  else exponent.map fun e => (whole ++ places, e - places.length)

/-- A text that denotes a finite double. -/
def isFinite (text : List Char) : Bool :=
  let unsigned := match text with
    | '+' :: rest => rest
    | '-' :: rest => rest
    | _ => text
  match decimal? unsigned with
  | some (digits, exponent) =>
    (Binary64.decode (Binary64.ofDecimal false (digitsValue digits) exponent)).isSome
  | none => false

/-- A word for an infinity or for no number. -/
def isNotFinite (text : List Char) : Bool :=
  [".inf", ".Inf", ".INF", "+.inf", "+.Inf", "+.INF", "-.inf", "-.Inf", "-.INF",
    ".nan", ".NaN", ".NAN"].contains (String.ofList text)

/-- A text that denotes something else than itself when it is written plainly, or is a
number to other readers. -/
def isAmbiguous (text : List Char) : Bool :=
  text.isEmpty || isNull text || isTruthValue text || isInteger text || hasLeadingZero text ||
    isFinite text || isNotFinite text

end HygienicLisp.Yaml
