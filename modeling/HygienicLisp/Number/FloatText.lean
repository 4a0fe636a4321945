import HygienicLisp.Number.Shortest

/-!
# The text of a double

A double without a fractional part is written with all digits of its exact value
and one decimal place, any other finite double as its shortest decimal.  No
exponent is ever written.
-/

namespace HygienicLisp

/-- The decimal in positional notation. -/
def Decimal.positional (d : Decimal) : String :=
  let digits := Nat.toDigits 10 d.digits
  if 0 ≤ d.exponent then String.ofList (digits ++ List.replicate d.exponent.toNat '0')
  else
    let places := d.exponent.natAbs
    let padded := List.replicate (places + 1 - digits.length) '0' ++ digits
    let whole := padded.length - places
    String.ofList (padded.take whole ++ '.' :: padded.drop whole)

/-- The magnitude of a finite double as text. -/
def Binary64.text (x : Binary64) : String :=
  let scale := Nat.pow 2 (-x.exponent).toNat
  if x.mantissa % scale = 0 then
    toString (x.mantissa * Nat.pow 2 x.exponent.toNat / scale) ++ ".0"
  else x.shortest.positional

/-- The text of a double as the language prints it. -/
def floatText (x : Float) : String :=
  let sign := if Binary64.isNegative x then "-" else ""
  match Binary64.decode x with
  | some magnitude => sign ++ magnitude.text
  | none => if x.isNaN then "NaN" else sign ++ "inf"

end HygienicLisp
