import HygienicLisp.Number.Binary64
import HygienicLisp.Number.Exact
import HygienicLisp.Value.Equality
import HygienicLisp.Value.Names

/-!
# Arithmetic

Integer arithmetic is exact or fails; a float operand makes the result a float.  Numbers
are combined from left to right, and the type of every argument is checked before any of
them is used.
-/

namespace HygienicLisp

/-- A numeric argument. -/
inductive Number where
  | int (i : Int64)
  | float (x : Float)
  deriving Repr

namespace Number

/-- The number as a double; an integer is rounded to the nearest one. -/
def toFloat : Number → Float
  | int i => Binary64.ofInt i.toInt
  | float x => x

/-- The number as a value. -/
def toValue : Number → Value
  | int i => .atom (.int i)
  | float x => .atom (.float x)

/-- The number that a value is. -/
def ofValue? : Value → Option Number
  | .atom (.int i) => some (int i)
  | .atom (.float x) => some (float x)
  | _ => none

end Number

/-- The failure for an argument of the wrong type. -/
def typeError (names : Names) (who expected : String) (position : Nat) (found : Value) : Error :=
  .of (.argType who expected position (found.text names))

/-- The arguments from a position on as numbers. -/
def numbersFrom (names : Names) (who : String) (position : Nat) :
    List Value → Except Error (List Number)
  | [] => .ok []
  | v :: rest =>
    match Number.ofValue? v with
    | none => .error (typeError names who "number" position v)
    | some n => (numbersFrom names who (position + 1) rest).map (n :: ·)

/-- All arguments as numbers. -/
def numbers (names : Names) (who : String) (args : List Value) : Except Error (List Number) :=
  numbersFrom names who 0 args

/-- Combines numbers from left to right. -/
def foldNumbers (who : String) (exactly : Int → Int → Int) (nearly : Float → Float → Float) :
    Number → List Number → Except Error Number
  | acc, [] => .ok acc
  | .int a, .int b :: rest =>
    match machineInt? (exactly a.toInt b.toInt) with
    | some c => foldNumbers who exactly nearly (.int c) rest
    | none => .error (.of (.contract (.integerOverflow who)))
  | acc, n :: rest => foldNumbers who exactly nearly (.float (nearly acc.toFloat n.toFloat)) rest

/-- Divides a number by others from left to right.  Integers that do not divide evenly
give a float. -/
def divideBy : Number → List Number → Except Error Number
  | acc, [] => .ok acc
  | acc, divisor :: rest =>
    if divisor.toFloat == 0 then .error (.of (.contract .divisionByZero))
    else
      match acc, divisor with
      | .int a, .int b =>
        if Int.tmod a.toInt b.toInt = 0 then
          match machineInt? (Int.tdiv a.toInt b.toInt) with
          | some q => divideBy (.int q) rest
          | none => .error (.of (.contract (.integerOverflow "/")))
        else divideBy (.float ((Number.int a).toFloat / (Number.int b).toFloat)) rest
      | a, b => divideBy (.float (a.toFloat / b.toFloat)) rest

/-- Whether a relation holds between each item of a list and the next. -/
def chained {α : Type} (holds : α → α → Bool) : List α → Bool
  | a :: b :: rest => holds a b && chained holds (b :: rest)
  | _ => true

/-- An ordering as a double: `-1`, `0` or `1`. -/
def orderingSign : Ordering → Float
  | .lt => -1
  | .eq => 0
  | .gt => 1

/-- Compares two numbers.  Integers beyond `2 ^ 53` lose precision as doubles, so two
integers are compared through the sign of their ordering. -/
def compareNumbers (holds : Float → Float → Bool) (a b : Number) : Bool :=
  match a, b with
  | .int a, .int b => holds (orderingSign (compare a.toInt b.toInt)) 0
  | a, b => holds a.toFloat b.toFloat

/-- Equality of arguments: an integer and a float are compared as doubles. -/
def argumentsEqual (a b : Value) : Bool :=
  match a, b with
  | .atom (.int i), .atom (.float x) => (Number.int i).toFloat == x
  | .atom (.float x), .atom (.int i) => (Number.int i).toFloat == x
  | a, b => a.equal b

namespace Arithmetic

/-- The sum of the arguments. -/
def add (names : Names) (args : List Value) : Except Error Value := do
  let ns ← numbers names "+" args
  let sum ← foldNumbers "+" (· + ·) (· + ·) (.int 0) ns
  return sum.toValue

/-- The first argument less the others; a single argument is negated. -/
def sub (names : Names) (args : List Value) : Except Error Value := do
  match ← numbers names "-" args with
  | [] => return .atom (.int 0)
  | [n] => return (← foldNumbers "-" (· - ·) (· - ·) (.int 0) [n]).toValue
  | n :: rest => return (← foldNumbers "-" (· - ·) (· - ·) n rest).toValue

/-- The product of the arguments. -/
def mul (names : Names) (args : List Value) : Except Error Value := do
  let ns ← numbers names "*" args
  let product ← foldNumbers "*" (· * ·) (· * ·) (.int 1) ns
  return product.toValue

/-- The first argument divided by the others. -/
def div (names : Names) (args : List Value) : Except Error Value := do
  match ← numbers names "/" args with
  | [] => return .atom (.int 1)
  | n :: rest => return (← divideBy n rest).toValue

/-- Whether each argument compares to the next as the primitive `who` says. -/
def compare (names : Names) (who : String) (holds : Float → Float → Bool)
    (args : List Value) : Except Error Value := do
  let ns ← numbers names who args
  return .atom (.bool (chained (compareNumbers holds) ns))

/-- Whether the arguments increase. -/
def less (names : Names) (args : List Value) : Except Error Value :=
  compare names "<" (fun a b => a < b) args

/-- Whether the arguments decrease. -/
def greater (names : Names) (args : List Value) : Except Error Value :=
  compare names ">" (fun a b => b < a) args

/-- Whether the arguments never decrease. -/
def lessEqual (names : Names) (args : List Value) : Except Error Value :=
  compare names "<=" (fun a b => a ≤ b) args

/-- Whether the arguments never increase. -/
def greaterEqual (names : Names) (args : List Value) : Except Error Value :=
  compare names ">=" (fun a b => b ≤ a) args

/-- Whether all arguments are equal. -/
def equal (args : List Value) : Value := .atom (.bool (chained argumentsEqual args))

end Arithmetic

end HygienicLisp
