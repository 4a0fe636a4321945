import HygienicLisp.Value.Basic

/-!
# Equality of values

Data are equal when they have the same structure and equal atoms; an integer and a
float are never equal here, and a NaN differs from itself.  A record equals itself
whatever is in it, and two records with different labels are equal when their fields
are.  So a record that holds a NaN equals itself but no other record, while a list that
holds one does not even equal itself.  Syntax objects, procedures and transformers are
equal only to themselves.
-/

namespace HygienicLisp

/-- Equality of atoms. -/
def Atom.equal : Atom → Atom → Bool
  | .null, .null => true
  | .bool a, .bool b => a == b
  | .int a, .int b => a == b
  | .float a, .float b => a == b
  | .str a, .str b => a == b
  | .symbol a, .symbol b => a == b
  | _, _ => false

namespace Value

mutual

/-- Equality of values. -/
def equal : Value → Value → Bool
  | void, void => true
  | atom a, atom b => a.equal b
  | group s as, group t bs => s == t && equalAll as bs
  | record l as, record m bs => (l ≠ 0 && l == m) || equalFields as bs
  | stx a, stx b => a.same b
  | procedure a _, procedure b _ => a == b
  | transformer a _ _, transformer b _ _ => a == b
  | form a, form b => a == b
  | _, _ => false

/-- Equality of two sequences, item by item. -/
def equalAll : List Value → List Value → Bool
  | [], [] => true
  | a :: as, b :: bs => equal a b && equalAll as bs
  | _, _ => false

/-- Equality of two records, field by field. -/
def equalFields : List (String × Value) → List (String × Value) → Bool
  | [], [] => true
  | (k, a) :: as, (l, b) :: bs => k == l && equal a b && equalFields as bs
  | _, _ => false

end

/-- A labelled record equals itself, whatever its fields are. -/
theorem equal_record_self {label : Nat} (h : label ≠ 0) (fields : List (String × Value)) :
    equal (record label fields) (record label fields) = true := by
  simp [equal, h]

end Value

end HygienicLisp
