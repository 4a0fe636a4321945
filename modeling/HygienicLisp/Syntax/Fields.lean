/-!
# Fields of a record

A record is kept as a list of fields in strictly increasing order of their keys.
Keys are compared character by character by code point, which is also the byte order
of their UTF-8 texts.
-/

namespace HygienicLisp.Fields

variable {α : Type}

/-- The value of a field. -/
def get? (key : String) : List (String × α) → Option α
  | [] => none
  | (k, v) :: rest => if k = key then some v else get? key rest

/-- Sets a field, replacing the value it has. -/
def insert (key : String) (value : α) : List (String × α) → List (String × α)
  | [] => [(key, value)]
  | (k, v) :: rest =>
    if key < k then (key, value) :: (k, v) :: rest
    else if key = k then (key, value) :: rest
    else (k, v) :: insert key value rest

variable {key : String} {value : α} {fields : List (String × α)} {P : α → Prop}

theorem get?_insert (key key' : String) (value : α) (fields : List (String × α)) :
    get? key' (insert key value fields) = if key = key' then some value else get? key' fields := by
  induction fields with
  | nil => rfl
  | cons first rest ih =>
      obtain ⟨k, v⟩ := first
      rw [insert]
      split
      · rfl
      · split
        · rename_i heq
          subst heq
          simp only [get?]
          split <;> rfl
        · rename_i hne
          rw [get?, get?, ih]
          by_cases hk : k = key'
          · rw [if_pos hk, if_pos hk, if_neg (hk ▸ hne)]
          · rw [if_neg hk, if_neg hk]

theorem get?_insert_eq_none {key' : String} :
    get? key' (insert key value fields) = none ↔ key ≠ key' ∧ get? key' fields = none := by
  rw [get?_insert]
  by_cases hkey : key = key' <;> simp [hkey]

/-- What holds of all values still does when a value of which it holds is set. -/
theorem forall_insert (hvalue : P value) (h : ∀ field ∈ fields, P field.2) :
    ∀ field ∈ insert key value fields, P field.2 := by
  induction fields with
  | nil => simpa [insert] using hvalue
  | cons first rest ih =>
      obtain ⟨hfirst, hrest⟩ := List.forall_mem_cons.1 h
      rw [insert]
      split
      · exact List.forall_mem_cons.2 ⟨hvalue, h⟩
      · split
        · exact List.forall_mem_cons.2 ⟨hvalue, hrest⟩
        · exact List.forall_mem_cons.2 ⟨hfirst, ih hrest⟩

theorem of_get?_eq_some (h : ∀ field ∈ fields, P field.2) (hvalue : get? key fields = some value) :
    P value := by
  induction fields with
  | nil => cases hvalue
  | cons first rest ih =>
      obtain ⟨hfirst, hrest⟩ := List.forall_mem_cons.1 h
      rw [get?] at hvalue
      split at hvalue
      · obtain rfl := Option.some.inj hvalue
        exact hfirst
      · exact ih hrest hvalue

end HygienicLisp.Fields
