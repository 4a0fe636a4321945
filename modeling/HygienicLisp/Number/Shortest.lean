import HygienicLisp.Number.Binary64

/-!
# Shortest decimals

The decimals that read back as a given double fill an interval around it.
`Binary64.shortest` takes the coarsest decimal grid that meets this interval and
of its points there the nearest one, the larger of two equally near.
-/

namespace HygienicLisp

/-- The decimal `digits * 10 ^ exponent`. -/
structure Decimal where
  digits : Nat
  exponent : Int
  deriving DecidableEq, Repr

namespace Binary64

/-- Compares `a * 2 ^ p` with `b * 10 ^ k` by bringing both to integers. -/
def scaledCompare (a : Nat) (p : Int) (b : Nat) (k : Int) : Ordering :=
  compare (a * Nat.pow 2 p.toNat * Nat.pow 10 (-k).toNat)
    (b * Nat.pow 10 k.toNat * Nat.pow 2 (-p).toNat)

/-- Whether the decimal `c * 10 ^ k` reads back as this double.  The ends of the
interval are half way to the neighbours and count when the mantissa is even. -/
def readsBack (x : Binary64) (c : Nat) (k : Int) : Bool :=
  let lower := 4 * x.mantissa - (if x.mantissa = exponentBit ∧ x.exponent > -1074 then 1 else 2)
  let upper := 4 * x.mantissa + 2
  let low := scaledCompare lower (x.exponent - 2) c k
  let high := scaledCompare upper (x.exponent - 2) c k
  if x.mantissa % 2 = 0 then low != .gt && high != .lt else low == .lt && high == .gt

/-- The integer part of this double on the grid of multiples of `10 ^ k`. -/
def floorOn (x : Binary64) (k : Int) : Nat :=
  x.mantissa * Nat.pow 2 x.exponent.toNat * Nat.pow 10 (-k).toNat /
    (Nat.pow 10 k.toNat * Nat.pow 2 (-x.exponent).toNat)

/-- The point of the grid `10 ^ k` nearest to this double among those that read
back as it, if there is one. -/
def onGrid (x : Binary64) (k : Int) : Option Decimal :=
  let c := x.floorOn k
  match x.readsBack c k, x.readsBack (c + 1) k with
  | true, false => some ⟨c, k⟩
  | false, true => some ⟨c + 1, k⟩
  | false, false => none
  | true, true =>
    -- Twice the double against the middle of the two grid points.
    match scaledCompare (2 * x.mantissa) x.exponent (2 * c + 1) k with
    | .lt => some ⟨c, k⟩
    | _ => some ⟨c + 1, k⟩

/-- Tries the grids `10 ^ k`, `10 ^ (k - 1)`, … and takes the first hit. -/
def firstGrid (x : Binary64) : Nat → Int → Decimal
  | 0, k => ⟨x.floorOn k, k⟩
  | steps + 1, k =>
    match x.onGrid k with
    | some d => d
    | none => x.firstGrid steps (k - 1)

/-- The shortest decimal that reads back as this double.  The search starts above
the double's own magnitude, and seventeen digits always suffice. -/
def shortest (x : Binary64) : Decimal :=
  let magnitude : Int := ((x.mantissa.log2 : Int) + x.exponent) * 30103 / 100000
  x.firstGrid 22 (magnitude + 2)

end Binary64

end HygienicLisp
