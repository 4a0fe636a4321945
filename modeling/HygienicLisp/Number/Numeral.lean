import HygienicLisp.Text.Alphabet

/-!
# Numerals

Natural numbers written by digits of a base up to sixteen, without sign or mark.
-/

namespace HygienicLisp

/-- The value of a hexadecimal digit. -/
def hexDigit? (c : Char) : Option Nat :=
  if isDecimalDigit c then some (c.toNat - '0'.toNat)
  else if 'a' ≤ c ∧ c ≤ 'f' then some (c.toNat - 'a'.toNat + 10)
  else if 'A' ≤ c ∧ c ≤ 'F' then some (c.toNat - 'A'.toNat + 10)
  else none

/-- The number written by digits of the given base; there is at least one digit. -/
def numeral? (base : Nat) (digits : List Char) : Option Nat :=
  match digits with
  | [] => none
  | _ => digits.foldlM (fun value c => do
      let d ← hexDigit? c
      if d < base then some (base * value + d) else none) 0

/-- The digits of a number in base sixteen, at least `width` of them. -/
def hexNumeral (width n : Nat) : List Char :=
  let digits := (Nat.toDigits 16 n).map Char.toUpper
  List.replicate (width - digits.length) '0' ++ digits

end HygienicLisp
