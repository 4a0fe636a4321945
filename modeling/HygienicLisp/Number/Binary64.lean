/-!
# Double-precision numbers as exact fractions

A finite double is an integer multiple of a power of two.  `Binary64.decode`
reads that form off the bits, and `Binary64.nearest` goes back: it rounds an
exact fraction to the nearest double, a tie going to the even neighbour.
-/

namespace HygienicLisp

/-- The magnitude `mantissa * 2 ^ exponent` of a finite double. -/
structure Binary64 where
  mantissa : Nat
  exponent : Int
  deriving DecidableEq, Repr

namespace Binary64

/-- The weight of the sign bit, `2 ^ 63`. -/
def signBit : Nat := 9223372036854775808

/-- The weight of the lowest bit of the exponent, `2 ^ 52`.  Mantissas of doubles that are
not subnormal begin here. -/
def exponentBit : Nat := 4503599627370496

/-- The bits of infinity. -/
def infinityBits : Nat := 2047 * exponentBit

/-- Whether the sign bit is set; it is for `-0.0`. -/
def isNegative (x : Float) : Bool := signBit ≤ x.toBits.toNat

/-- The magnitude of a finite double, and nothing for an infinity or a NaN. -/
def decode (x : Float) : Option Binary64 :=
  let bits : Nat := x.toBits.toNat % signBit
  let biased : Nat := bits / exponentBit
  let fraction : Nat := bits % exponentBit
  if biased = 2047 then none
  else if biased = 0 then some ⟨fraction, -1074⟩
  else some ⟨fraction + exponentBit, (biased : Int) - 1075⟩

/-- The exponent of the last place kept when `num / den` is rounded to 53 bits,
or to the subnormal grid when that is coarser. -/
def lastPlace (num den : Nat) : Int :=
  let guess : Int := (num.log2 : Int) - den.log2 - 53
  let scaled :=
    if guess < 0 then num * Nat.pow 2 guess.natAbs / den else num / (den * Nat.pow 2 guess.natAbs)
  max (if scaled < 2 * exponentBit then guess else guess + 1) (-1074)

/-- The quotient `num / den` rounded to an integer, a tie going to the even neighbour. -/
def roundDiv (num den : Nat) : Nat :=
  let quotient := num / den
  let twice := 2 * (num % den)
  if twice > den ∨ (twice = den ∧ quotient % 2 = 1) then quotient + 1 else quotient

/-- The bits of the nonnegative double nearest to `num / den`; infinity's bits
when the fraction rounds past the largest finite double. -/
def nearestBits (num den : Nat) : Nat :=
  if num = 0 then 0
  else
    let place := lastPlace num den
    let mantissa :=
      if place < 0 then roundDiv (num * Nat.pow 2 place.natAbs) den
      else roundDiv num (den * Nat.pow 2 place.natAbs)
    min ((place + 1074).toNat * exponentBit + mantissa) infinityBits

/-- The double nearest to an integer. -/
def ofInt (n : Int) : Float :=
  let bits := nearestBits n.natAbs 1
  Float.ofBits (UInt64.ofNat (if n < 0 then bits + signBit else bits))

/-- The double nearest to the decimal `±mantissa * 10 ^ exponent`.  Exponents far
outside the range of doubles are settled by their size alone. -/
def ofDecimal (negative : Bool) (mantissa : Nat) (exponent : Int) : Float :=
  let magnitude := (Nat.toDigits 10 mantissa).length + exponent
  let bits :=
    if mantissa = 0 ∨ magnitude < -340 then 0
    else if magnitude > 320 then infinityBits
    else if exponent < 0 then nearestBits mantissa (Nat.pow 10 exponent.natAbs)
    else nearestBits (mantissa * Nat.pow 10 exponent.natAbs) 1
  Float.ofBits (UInt64.ofNat (if negative then bits + signBit else bits))

end Binary64

end HygienicLisp
