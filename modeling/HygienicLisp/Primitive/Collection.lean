import HygienicLisp.Primitive.Arithmetic
import HygienicLisp.Syntax.Fields

/-!
# Sequences and records

Sexps and lists share their accessors.  The first item of an empty sequence, and what
follows it, do not exist; a field that a record does not have is `null`.
-/

namespace HygienicLisp.Collection

/-- The items of a sequence. -/
def items (names : Names) (who : String) (position : Nat) (v : Value) : Except Error (List Value) :=
  match v with
  | .group _ items => .ok items
  | v => .error (typeError names who "sexp or list" position v)

/-- The name of a field, written as a string or a symbol. -/
def fieldName (names : Names) (who : String) (position : Nat) (v : Value) : Except Error String :=
  match v with
  | .atom (.str s) => .ok s
  | .atom (.symbol s) => .ok s
  | v => .error (typeError names who "string or symbol" position v)

/-- Sets the fields given by alternating names and values, from a position on. -/
def fieldsFrom (names : Names) (position : Nat) :
    List (String × Value) → List Value → Except Error (List (String × Value))
  | fields, name :: v :: rest => do
    let key ← fieldName names "struct" position name
    fieldsFrom names (position + 2) (Fields.insert key v fields) rest
  | fields, _ => .ok fields

/-- The fields of the record with the given names and values; a repeated field keeps its
last value. -/
def structFields (names : Names) (args : List Value) : Except Error (List (String × Value)) :=
  if args.length % 2 ≠ 0 then .error (.of (.contract .unpairedFields))
  else fieldsFrom names 0 [] args

/-- The number of items of a sequence, fields of a record or characters of a string. -/
def size (names : Names) (v : Value) : Except Error Value :=
  let count (n : Nat) : Except Error Value := .ok (.atom (.int (Int64.ofNat n)))
  match v with
  | .group _ items => count items.length
  | .record _ fields => count fields.length
  | .atom (.str s) => count s.length
  | v => .error (typeError names "size" "sequence, struct or string" 0 v)

/-- The field of a record, or the item of a sequence at an index that counts from zero. -/
def elt (names : Names) (v key : Value) : Except Error Value :=
  match v with
  | .record _ fields => do
    let name ← fieldName names "elt" 1 key
    return (Fields.get? name fields).getD (.atom .null)
  | v => do
    let items ← items names "elt" 0 v
    match key with
    | .atom (.int i) =>
      let index := i.toInt
      match if index < 0 then none else items[index.toNat]? with
      | some item => return item
      | none => throw (.of (.contract (.indexRange index items.length)))
    | key => throw (typeError names "elt" "int" 1 key)

/-- The first item of a sequence. -/
def head (names : Names) (v : Value) : Except Error Value := do
  match ← items names "head" 0 v with
  | first :: _ => return first
  | [] => throw (.of (.contract (.emptySequence "head")))

/-- The sequence, of the same kind, of the items after the first. -/
def tail (names : Names) (v : Value) : Except Error Value :=
  match v with
  | .group shape (_ :: rest) => .ok (.group shape rest)
  | .group _ [] => .error (.of (.contract (.emptySequence "tail")))
  | v => .error (typeError names "tail" "sexp or list" 0 v)

/-- Whether a sequence, record or string has nothing in it. -/
def isEmpty (names : Names) (v : Value) : Except Error Value :=
  match v with
  | .group _ items => .ok (.atom (.bool items.isEmpty))
  | .record _ fields => .ok (.atom (.bool fields.isEmpty))
  | .atom (.str s) => .ok (.atom (.bool s.isEmpty))
  | v => .error (typeError names "is_empty" "sequence, struct or string" 0 v)

/-- The failure raised by the program: its arguments, strings without quotes, separated by
blanks. -/
def raised (names : Names) (args : List Value) : Error :=
  let shown := args.map fun
    | .atom (.str s) => s
    | v => v.text names
  .of (.eval (.said (" ".intercalate shown)))

end HygienicLisp.Collection
