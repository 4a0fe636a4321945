import HygienicLisp.Module.Registry
import Mathlib.Data.List.TakeWhile

/-!
# What a registry keeps

A registry changes in two ways: a declaration is recorded for a module without an instance, or the
instance of the declaration on record is added.  Both keep the instances that are there, with the
declarations that they were made from (`Registry.Keeps`).  So every instance of a registry that
started empty is that of the declaration on record (`Registry.Sound`).
-/

namespace HygienicLisp

namespace Registry

variable {r r' : Registry} {d : Declaration} {id : ModuleId}

/-! ## Looking up -/

theorem id_of_declaration? (h : r.declaration? id = some d) : d.id = id := by
  simpa using List.find?_some h

theorem instance?_addInstance (i : Instance) :
    (r.addInstance i).instance? id = if i.id = id then some i else r.instance? id := by
  by_cases h : i.id = id <;> simp [instance?, addInstance, h]

@[simp] theorem declaration?_addInstance (i : Instance) :
    (r.addInstance i).declaration? id = r.declaration? id := rfl

/-- The registry with a declaration recorded. -/
def record (r : Registry) (d : Declaration) : Registry :=
  { r with declarations := d :: r.declarations }

theorem declaration?_record :
    (r.record d).declaration? id = if d.id = id then some d else r.declaration? id := by
  by_cases h : d.id = id <;> simp [declaration?, record, h]

@[simp] theorem instance?_record : (r.record d).instance? id = r.instance? id := rfl

theorem declare_of_none (h : r.instance? d.id = none) : r.declare d = .ok (r.record d) := by
  rw [declare, h]
  rfl

theorem declare_of_some {i : Instance} (h : r.instance? d.id = some i) :
    r.declare d = .error (.of (.contract (.alreadyInstantiated d.id))) := by
  rw [declare, h]

theorem install_of_none (h : r.instance? d.id = none) :
    r.install d = .ok (.ofDeclaration d, (r.record d).addInstance (.ofDeclaration d)) := by
  rw [install, declare_of_none h]
  rfl

theorem install_of_some {i : Instance} (h : r.instance? d.id = some i) :
    r.install d = .error (.of (.contract (.alreadyInstantiated d.id))) := by
  rw [install, declare_of_some h]
  rfl

/-! ## What stays -/

/-- The later registry keeps the instances of the earlier one, the declarations that they were
made from, and the other modules declared.  It has no instances besides but those of declarations
on record. -/
structure Keeps (before after : Registry) : Prop where
  instances : ∀ {id i}, before.instance? id = some i →
    after.instance? id = some i ∧ after.declaration? id = before.declaration? id
  declared : ∀ {id}, before.declaration? id ≠ none → after.declaration? id ≠ none
  made : ∀ {id i}, after.instance? id = some i →
    before.instance? id = some i ∨
      ∃ d, after.declaration? id = some d ∧ i = Instance.ofDeclaration d

theorem Keeps.refl (r : Registry) : r.Keeps r := ⟨fun h => ⟨h, rfl⟩, fun h => h, fun h => .inl h⟩

theorem Keeps.trans {r'' : Registry} (h : r.Keeps r') (h' : r'.Keeps r'') : r.Keeps r'' where
  instances := by
    intro id i hi
    obtain ⟨hi', hd⟩ := h.instances hi
    obtain ⟨hi'', hd'⟩ := h'.instances hi'
    exact ⟨hi'', hd'.trans hd⟩
  declared hd := h'.declared (h.declared hd)
  made := by
    intro id i hi
    obtain hi | hmade := h'.made hi
    · obtain hi' | ⟨d, hd, rfl⟩ := h.made hi
      · exact .inl hi'
      · exact .inr ⟨d, (h'.instances hi).2.trans hd, rfl⟩
    · exact .inr hmade

theorem Keeps.none_of_none (h : r.Keeps r') (id : ModuleId) (hnone : r'.instance? id = none) :
    r.instance? id = none := by
  by_contra hsome
  obtain ⟨i, hi⟩ := Option.ne_none_iff_exists'.1 hsome
  rw [(h.instances hi).1] at hnone
  cases hnone

theorem Keeps.of_eq (h : r' = r) : r.Keeps r' := h ▸ .refl r

/-- Only modules without an instance are declared. -/
theorem keeps_record (h : r.instance? d.id = none) : r.Keeps (r.record d) where
  instances := by
    intro id i hi
    have hne : d.id ≠ id := by
      rintro rfl
      rw [h] at hi
      cases hi
    exact ⟨hi, by rw [declaration?_record, if_neg hne]⟩
  declared := by
    intro id hd
    rw [declaration?_record]
    split
    · exact Option.some_ne_none d
    · exact hd
  made hi := .inl hi

/-- An instance is made from the declaration on record, and only where there is none. -/
theorem keeps_addInstance (hd : r.declaration? id = some d) (h : r.instance? id = none) :
    r.Keeps (r.addInstance (.ofDeclaration d)) := by
  have hid : (Instance.ofDeclaration d).id = id := id_of_declaration? hd
  refine ⟨?_, fun h => h, ?_⟩
  · intro other i hi
    have hne : (Instance.ofDeclaration d).id ≠ other := by
      rintro rfl
      rw [hid, h] at hi
      cases hi
    exact ⟨by rw [instance?_addInstance, if_neg hne, hi], rfl⟩
  · intro other i hi
    rw [instance?_addInstance] at hi
    split at hi
    · rename_i hsame
      cases hi
      exact .inr ⟨d, by rw [declaration?_addInstance, ← hsame, hid, hd], rfl⟩
    · exact .inl hi

theorem keeps_install (h : r.instance? d.id = none) :
    r.Keeps ((r.record d).addInstance (.ofDeclaration d)) :=
  (keeps_record h).trans
    (keeps_addInstance (by rw [declaration?_record, if_pos rfl]) (by rw [instance?_record, h]))

/-- Every instance is that of the declaration on record. -/
def Sound (r : Registry) : Prop :=
  ∀ id i, r.instance? id = some i → ∃ d, r.declaration? id = some d ∧ i = Instance.ofDeclaration d

theorem sound_empty : Sound {} := fun _ _ h => by cases h

theorem Keeps.sound (h : r.Keeps r') (hsound : r.Sound) : r'.Sound := by
  intro id i hi
  obtain hi' | hmade := h.made hi
  · obtain ⟨d, hd, rfl⟩ := hsound id i hi'
    exact ⟨d, (h.instances hi').2.trans hd, rfl⟩
  · exact hmade

end Registry

/-! ## The stack of modules being loaded -/

/-- The cycle goes from the place of the module on the stack to its end, and back. -/
theorem enterLoading_of_mem {loading : List ModuleId} {id : ModuleId} (h : id ∈ loading) :
    ∃ outside inside, loading = outside ++ id :: inside ∧
      enterLoading loading id
        = .error (.of (.contract (.dependencyCycle (id :: inside ++ [id])))) := by
  obtain ⟨outside, inside, rfl, hout⟩ := List.eq_append_cons_of_mem h
  refine ⟨outside, inside, rfl, ?_⟩
  have hall : ∀ other ∈ outside, decide (other ≠ id) = true := by
    intro other hother
    rw [decide_eq_true_iff]
    rintro rfl
    exact hout hother
  rw [enterLoading, List.dropWhile_append_of_pos hall, List.dropWhile_cons_of_neg (by simp)]

theorem enterLoading_of_notMem {loading : List ModuleId} {id : ModuleId} (h : id ∉ loading) :
    enterLoading loading id = .ok (loading ++ [id]) := by
  have hall : loading.dropWhile (· ≠ id) = [] := by
    rw [List.dropWhile_eq_nil_iff]
    intro other hother
    rw [decide_eq_true_iff]
    rintro rfl
    exact h hother
  rw [enterLoading, hall]

end HygienicLisp
