import HygienicLisp.Namespace.Basic
import Mathlib.Data.List.Sort

/-!
# Definitions by address

A namespace goes through its cells, takes the definitions that are seen under names without marks
and puts them in the order of their addresses.  The cells have no order of their own, so what comes
out must not depend on the order in which they are visited (`Namespace.definitionsSeen`).

Main statements: definitions with distinct addresses end in strictly increasing order
(`Namespace.pairwise_lt_byAddress`), the same one wherever they start
(`Namespace.byAddress_eq_of_perm`).
-/

namespace HygienicLisp

theorem MarkSet.isEmpty_iff {marks : MarkSet} : marks.isEmpty = true ↔ marks = .empty := by
  obtain ⟨ms, hsorted⟩ := marks
  simp [isEmpty, empty]

namespace Namespace

/-- Definitions in the order of their addresses. -/
def byAddress (ds : List Definition) : List Definition := ds.foldr insertByAddress []

/-- The definitions that are seen under names without marks, where the cells are visited in the
given order. -/
def definitionsSeen (order : List Entry) : List Definition :=
  byAddress (order.filterMap unmarkedDefinition?)

theorem unmarkedDefinitions_eq (space : Namespace) :
    space.unmarkedDefinitions = definitionsSeen space.entries.toList := rfl

variable {ds ds' : List Definition} {d : Definition}

/-! ## Order -/

theorem insertByAddress_eq (d : Definition) (ds : List Definition) :
    insertByAddress d ds = ds.orderedInsert (Order.Preimage Definition.address (· ≤ ·)) d := by
  induction ds with
  | nil => rfl
  | cons first rest ih =>
      rw [insertByAddress, ih, List.orderedInsert_cons]
      rfl

theorem byAddress_eq (ds : List Definition) :
    byAddress ds = ds.insertionSort (Order.Preimage Definition.address (· ≤ ·)) := by
  induction ds with
  | nil => rfl
  | cons d rest ih =>
      rw [List.insertionSort_cons, ← insertByAddress_eq, ← ih]
      rfl

theorem perm_byAddress (ds : List Definition) : (byAddress ds).Perm ds := by
  rw [byAddress_eq]
  exact List.perm_insertionSort _ ds

theorem pairwise_le_byAddress (ds : List Definition) :
    (byAddress ds).Pairwise (·.address ≤ ·.address) := by
  rw [byAddress_eq]
  exact List.pairwise_insertionSort _ ds

theorem pairwise_lt_byAddress (h : ds.Pairwise (·.address ≠ ·.address)) :
    (byAddress ds).Pairwise (·.address < ·.address) := by
  have hne : (byAddress ds).Pairwise (·.address ≠ ·.address) :=
    (perm_byAddress ds).symm.pairwise h Ne.symm
  exact (pairwise_le_byAddress ds).imp₂ (fun _ _ => Nat.lt_of_le_of_ne) hne

/-- There is one way only to put definitions with distinct addresses in order. -/
theorem byAddress_eq_of_perm (h : ds.Pairwise (·.address ≠ ·.address)) (hperm : ds.Perm ds') :
    byAddress ds = byAddress ds' := by
  have h' : ds'.Pairwise (·.address ≠ ·.address) := hperm.pairwise h Ne.symm
  refine List.Perm.eq_of_pairwise (fun _ _ _ _ hlt hlt' => absurd hlt (Nat.lt_asymm hlt'))
    (pairwise_lt_byAddress h) (pairwise_lt_byAddress h') ?_
  exact ((perm_byAddress ds).trans hperm).trans (perm_byAddress ds').symm

/-! ## What is seen -/

theorem unmarkedDefinition?_eq_some_iff {e : Entry} :
    unmarkedDefinition? e = some d ↔
      e.key.marks = .empty ∧ (∃ name, e.key.origin = .free name) ∧ e.content = .defined d := by
  obtain ⟨⟨name, origin, marks⟩, content⟩ := e
  cases origin with
  | free x => cases content <;> simp [unmarkedDefinition?, MarkSet.isEmpty_iff]
  | lexical v => simp [unmarkedDefinition?]
  | cell c => simp [unmarkedDefinition?]

/-- What is seen are the definitions in the cells that are filed without marks and under a free
origin. -/
theorem mem_definitionsSeen {order : List Entry} :
    d ∈ definitionsSeen order ↔ ∃ e ∈ order,
      e.key.marks = .empty ∧ (∃ name, e.key.origin = .free name) ∧ e.content = .defined d := by
  simp only [definitionsSeen, (perm_byAddress _).mem_iff, List.mem_filterMap,
    unmarkedDefinition?_eq_some_iff]

end Namespace

end HygienicLisp
