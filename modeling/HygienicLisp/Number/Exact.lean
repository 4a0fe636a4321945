/-!
# Exact integers

Integers of the language are the signed 64-bit ones.  Arithmetic is carried out
on unbounded integers and brought back by `machineInt?`, which refuses what does not
fit, so a result is either exact or absent.
-/

namespace HygienicLisp

/-- The machine integer with the value `n`, if `n` lies in the signed 64-bit range. -/
def machineInt? (n : Int) : Option Int64 :=
  if -9223372036854775808 ≤ n ∧ n ≤ 9223372036854775807 then some (Int64.ofInt n) else none

/-- `machineInt?` never changes a value: what it returns has exactly the value it was given. -/
theorem toInt_of_machineInt? {n : Int} {i : Int64} (h : machineInt? n = some i) : i.toInt = n := by
  unfold machineInt? at h
  split at h
  · next hn =>
    cases h
    exact Int64.toInt_ofInt_of_le (by simpa using hn.1) (by omega)
  · cases h

/-- Every machine integer is recovered from its value. -/
theorem machineInt?_toInt (i : Int64) : machineInt? i.toInt = some i := by
  have hlo := i.le_toInt
  have hhi := i.toInt_lt
  unfold machineInt?
  rw [if_pos ⟨by omega, by omega⟩, Int64.ofInt_toInt]

/-! ## The range -/

/-- Whether an integer has 64 bits. -/
def InInt64 (n : Int) : Prop := -9223372036854775808 ≤ n ∧ n ≤ 9223372036854775807

instance : DecidablePred InInt64 := fun n =>
  inferInstanceAs (Decidable (-9223372036854775808 ≤ n ∧ n ≤ 9223372036854775807))

theorem inInt64_toInt (i : Int64) : InInt64 i.toInt := by
  have hlo := i.le_toInt
  have hhi := i.toInt_lt
  exact ⟨by omega, by omega⟩

theorem machineInt?_of_inInt64 {n : Int} (h : InInt64 n) :
    ∃ i : Int64, machineInt? n = some i ∧ i.toInt = n := by
  have hsome : machineInt? n = some (Int64.ofInt n) := if_pos h
  exact ⟨_, hsome, toInt_of_machineInt? hsome⟩

theorem machineInt?_eq_none {n : Int} (h : ¬InInt64 n) : machineInt? n = none := if_neg h

end HygienicLisp
