import HygienicLisp.Proofs.Labels

/-!
# What the contexts of a form carry

`Syntax.Carries Q B` says that every wrap on a form or inside it satisfies `Q` and every binding
recorded there satisfies `B`.  Wrapping a form and taking it apart keep this: wraps only move
from containers to their parts, and recorded bindings only get lost.
-/

namespace HygienicLisp

open Syntax (pushWrap)

/-- The form carries only wraps that satisfy `Q` and recorded bindings that satisfy `B`. -/
inductive Syntax.Carries (Q : Wrap → Prop) (B : Binding → Prop) : Syntax → Prop
  | atom {c : Context} {a : Atom} (hwraps : ∀ wrap ∈ c.wraps, Q wrap)
      (hbinding : ∀ b ∈ c.binding, B b) : Carries Q B (.atom c a)
  | group {c : Context} {shape : Shape} {items : List Syntax} (hwraps : ∀ wrap ∈ c.wraps, Q wrap)
      (hbinding : ∀ b ∈ c.binding, B b) (hitems : ∀ stx ∈ items, Carries Q B stx) :
      Carries Q B (.group c shape items)
  | record {c : Context} {fields : List (String × Syntax)} (hwraps : ∀ wrap ∈ c.wraps, Q wrap)
      (hbinding : ∀ b ∈ c.binding, B b) (hfields : ∀ field ∈ fields, Carries Q B field.2) :
      Carries Q B (.record c fields)

namespace Syntax

/-- Induction on forms, with a hypothesis for each part of a container. -/
theorem partsInduction {motive : Syntax → Prop} (atom : ∀ c a, motive (.atom c a))
    (group : ∀ c shape items, (∀ stx ∈ items, motive stx) → motive (.group c shape items))
    (record : ∀ c fields, (∀ field ∈ fields, motive field.2) → motive (.record c fields))
    (stx : Syntax) : motive stx := by
  cases stx with
  | atom c a => exact atom c a
  | group c shape items =>
      exact group c shape items fun stx _ => partsInduction atom group record stx
  | record c fields =>
      exact record c fields fun field _ => partsInduction atom group record field.2
termination_by stx
decreasing_by
  · have hstx := List.sizeOf_lt_of_mem ‹stx ∈ items›
    simp only [Syntax.group.sizeOf_spec]
    omega
  · have hfield := List.sizeOf_lt_of_mem ‹field ∈ fields›
    obtain ⟨key, stx⟩ := field
    simp only [Syntax.record.sizeOf_spec, Prod.mk.sizeOf_spec] at hfield ⊢
    omega

variable {Q Q' : Wrap → Prop} {B B' : Binding → Prop} {stx found : Syntax}

theorem Carries.wraps (h : stx.Carries Q B) : ∀ wrap ∈ stx.wraps, Q wrap := by
  cases h <;> assumption

theorem Carries.binding (h : stx.Carries Q B) : ∀ b ∈ stx.context.binding, B b := by
  cases h <;> assumption

theorem Carries.mono (h : stx.Carries Q B) (hQ : ∀ wrap, Q wrap → Q' wrap) (hB : ∀ b, B b → B' b) :
    stx.Carries Q' B' := by
  induction h with
  | atom hwraps hbinding =>
      exact .atom (fun wrap hwrap => hQ _ (hwraps wrap hwrap)) fun b hb => hB _ (hbinding b hb)
  | group hwraps hbinding _ ih =>
      exact .group (fun wrap hwrap => hQ _ (hwraps wrap hwrap)) (fun b hb => hB _ (hbinding b hb)) ih
  | record hwraps hbinding _ ih =>
      exact .record (fun wrap hwrap => hQ _ (hwraps wrap hwrap)) (fun b hb => hB _ (hbinding b hb))
        ih

theorem mem_of_mem_pushWrap {wrap other : Wrap} {wraps : List Wrap}
    (h : other ∈ pushWrap wrap wraps) : other = wrap ∨ other ∈ wraps := by
  rcases pushWrap_cases wrap wraps with hcons | ⟨m, -, hcons⟩
  · rw [hcons] at h
    exact List.mem_cons.1 h
  · rw [hcons]
    exact .inr (List.mem_cons_of_mem _ h)

theorem Carries.addWrap (h : stx.Carries Q B) {wrap : Wrap} (hwrap : Q wrap) :
    (stx.addWrap wrap).Carries Q B := by
  have hpush {wraps : List Wrap} (hwraps : ∀ wrap ∈ wraps, Q wrap) :
      ∀ other ∈ pushWrap wrap wraps, Q other := by
    intro other hother
    rcases mem_of_mem_pushWrap hother with rfl | hmem
    · exact hwrap
    · exact hwraps other hmem
  cases h with
  | atom hwraps _ => exact .atom (hpush hwraps) (by simp)
  | group hwraps _ hitems => exact .group (hpush hwraps) (by simp) hitems
  | record hwraps _ hfields => exact .record (hpush hwraps) (by simp) hfields

theorem Carries.addWraps (h : stx.Carries Q B) {newer : List Wrap} (hnewer : ∀ wrap ∈ newer, Q wrap) :
    (stx.addWraps newer).Carries Q B := by
  induction newer with
  | nil => exact h
  | cons wrap newer ih =>
      obtain ⟨hwrap, hnewer⟩ := List.forall_mem_cons.1 hnewer
      exact (ih hnewer).addWrap hwrap

theorem Carries.raw (h : stx.Carries Q B) {part : Part} (hfound : part.raw? stx = some found) :
    found.Carries Q B := by
  cases h with
  | atom => cases part <;> simp [Part.raw?] at hfound
  | @group c shape items _ _ hitems =>
      cases shape <;> cases part <;> simp only [Part.raw?, reduceCtorEq] at hfound
      · exact hitems found (List.mem_of_getElem? hfound)
      · exact hitems found (List.mem_of_getElem? hfound)
  | @record c fields _ _ hfields =>
      cases part <;> simp only [Part.raw?, reduceCtorEq] at hfound
      obtain ⟨field, hfield, rfl⟩ := Option.map_eq_some_iff.1 hfound
      exact hfields field (List.mem_of_getElem? hfield)

theorem Carries.part (h : stx.Carries Q B) {part : Part} (hfound : part.of? stx = some found) :
    found.Carries Q B := by
  rw [Part.of?_eq] at hfound
  obtain ⟨raw, hraw, rfl⟩ := Option.map_eq_some_iff.1 hfound
  exact (h.raw hraw).addWraps h.wraps

theorem Carries.subforms? (h : stx.Carries Q B) {parts : List Syntax}
    (hparts : stx.subforms? = some parts) : ∀ part ∈ parts, part.Carries Q B := by
  intro part hpart
  obtain ⟨i, hi⟩ := List.getElem?_of_mem hpart
  have hof : (Part.subform i).of? stx = some part := by simp [Part.of?, hparts, hi]
  exact h.part hof

theorem Carries.elements? (h : stx.Carries Q B) {parts : List Syntax}
    (hparts : stx.elements? = some parts) : ∀ part ∈ parts, part.Carries Q B := by
  intro part hpart
  obtain ⟨i, hi⟩ := List.getElem?_of_mem hpart
  have hof : (Part.element i).of? stx = some part := by simp [Part.of?, hparts, hi]
  exact h.part hof

theorem Carries.fields? (h : stx.Carries Q B) {fields : List (String × Syntax)}
    (hfields : stx.fields? = some fields) : ∀ field ∈ fields, field.2.Carries Q B := by
  intro field hfield
  obtain ⟨i, hi⟩ := List.getElem?_of_mem hfield
  have hof : (Part.field i).of? stx = some field.2 := by simp [Part.of?, hfields, hi]
  exact h.part hof

theorem Carries.subforms (h : stx.Carries Q B) : ∀ part ∈ stx.subforms, part.Carries Q B := by
  rw [Syntax.subforms]
  cases hparts : stx.subforms? with
  | none => simp
  | some parts => exact h.subforms? hparts

/-- What a form carries does not depend on labels. -/
theorem Carries.of_unlabelled (h : stx.unlabelled.Carries Q B) : stx.Carries Q B := by
  induction stx using partsInduction with
  | atom c a =>
      rw [unlabelled_atom] at h
      cases h with
      | atom hwraps hbinding => exact .atom hwraps hbinding
  | group c shape items ih =>
      rw [unlabelled_group] at h
      cases h with
      | group hwraps hbinding hitems =>
          refine .group hwraps hbinding fun stx hstx => ih stx hstx ?_
          exact hitems _ (List.mem_map_of_mem hstx)
  | record c fields ih =>
      rw [unlabelled_record] at h
      cases h with
      | record hwraps hbinding hfields =>
          refine .record hwraps hbinding fun field hfield => ih field hfield ?_
          exact hfields _ (List.mem_map.2 ⟨field, hfield, rfl⟩)

theorem Carries.unlabelled (h : stx.Carries Q B) : stx.unlabelled.Carries Q B := by
  induction h with
  | atom hwraps hbinding =>
      rw [unlabelled_atom]
      exact .atom hwraps hbinding
  | group hwraps hbinding _ ih =>
      rw [unlabelled_group]
      exact .group hwraps hbinding (by simpa using ih)
  | record hwraps hbinding _ ih =>
      rw [unlabelled_record]
      refine .record hwraps hbinding fun field hfield => ?_
      obtain ⟨field, hmem, rfl⟩ := List.mem_map.1 hfield
      exact ih field hmem

theorem Carries.stamp (h : stx.Carries Q B) (next : Nat) : (stx.stamp next).1.Carries Q B := by
  refine .of_unlabelled ?_
  rw [unlabelled_stamp]
  exact h.unlabelled

end Syntax

end HygienicLisp
