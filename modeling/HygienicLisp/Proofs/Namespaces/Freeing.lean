import HygienicLisp.Proofs.Namespaces.Growth

/-!
# Freed namespaces

A namespace is freed when nothing holds on to it any more.  That may happen between any two things
that are done to a world, and which namespace it is depends on all that was done before.  Here any
namespace may be freed at any time, so what is shown of such a history holds in whatever order they
are freed.

Main statement: a relation that every act and every freeing respects holds between the ends of a
history (`World.afterHistory_of_step`).  Freeing a namespace takes nothing out of it: it only is not
found through identifiers and definitions any more.
-/

namespace HygienicLisp

namespace Spaces

variable {spaces : Spaces}

theorem getElem?_free (spaces : Spaces) (ns other : NamespaceId) :
    (spaces.free ns)[other]? =
      (spaces[other]?).map fun space => if ns = other then { space with freed := true } else space := by
  rw [free, Array.getElem?_modify]
  by_cases hsame : ns = other <;> simp [hsame]

/-- What is in a namespace stays, whether it is freed or not. -/
theorem exists_space_free {ns : NamespaceId} {space : Namespace} (hspace : spaces[ns]? = some space)
    (other : NamespaceId) :
    ∃ freed, (spaces.free other)[ns]? = some { space with freed } := by
  rw [getElem?_free, hspace, Option.map_some]
  by_cases hsame : other = ns
  · exact ⟨true, by rw [if_pos hsame]⟩
  · exact ⟨space.freed, by rw [if_neg hsame]⟩

/-- What is in a namespace afterwards was in it before. -/
theorem exists_space_of_free {ns other : NamespaceId} {space' : Namespace}
    (hspace' : (spaces.free other)[ns]? = some space') :
    ∃ space freed, spaces[ns]? = some space ∧ space' = { space with freed } := by
  rw [getElem?_free] at hspace'
  obtain ⟨space, hspace, rfl⟩ := Option.map_eq_some_iff.1 hspace'
  split
  · exact ⟨space, true, hspace, rfl⟩
  · exact ⟨space, space.freed, hspace, rfl⟩

end Spaces

/-! ## Histories -/

/-- What happens to a world: somebody acts on it, or a namespace is freed. -/
inductive Occurrence (α : Type) where
  | act (a : α)
  | free (ns : NamespaceId)

/-- The world without what holds on to a namespace. -/
def World.free (w : World) (ns : NamespaceId) : World := { w with spaces := w.spaces.free ns }

/-- The world after a history, if the acts have the given effects. -/
def World.afterHistory {α : Type} (act : α → World → World) (w : World) : List (Occurrence α) → World
  | [] => w
  | .act a :: rest => World.afterHistory act (act a w) rest
  | .free ns :: rest => World.afterHistory act (w.free ns) rest

/-- What holds between the ends of each occurrence holds between the ends of a history. -/
theorem World.afterHistory_of_step {α : Type} {act : α → World → World} {R : World → World → Prop}
    (hrefl : ∀ w, R w w) (htrans : ∀ {w w' w''}, R w w' → R w' w'' → R w w'')
    (hact : ∀ a w, R w (act a w)) (hfree : ∀ ns w, R w (w.free ns)) (w : World)
    (history : List (Occurrence α)) : R w (w.afterHistory act history) := by
  induction history generalizing w with
  | nil => exact hrefl w
  | cons occurrence rest ih =>
      cases occurrence with
      | act a => exact htrans (hact a w) (ih _)
      | free ns => exact htrans (hfree ns w) (ih _)

/-- The world after operations and freed namespaces. -/
abbrev World.afterOperations (w : World) (history : List (Occurrence Operation)) : World :=
  w.afterHistory (fun op => op.run.leaves) history

/-- A namespace stays what it is. -/
theorem World.kind_afterOperations {w : World} {ns : NamespaceId} {space : Namespace}
    (hspace : w.spaces[ns]? = some space) (history : List (Occurrence Operation)) :
    ∃ space', (w.afterOperations history).spaces[ns]? = some space' ∧ space'.kind = space.kind := by
  refine World.afterHistory_of_step (R := fun w w' => ∀ space, w.spaces[ns]? = some space →
      ∃ space', w'.spaces[ns]? = some space' ∧ space'.kind = space.kind)
    (fun w space hspace => ⟨space, hspace, rfl⟩) (fun h h' space hspace => ?_)
    (fun op w space hspace => ?_) (fun other w space hspace => ?_) w history space hspace
  · obtain ⟨space', hspace', hkind⟩ := h space hspace
    obtain ⟨space'', hspace'', hkind'⟩ := h' space' hspace'
    exact ⟨space'', hspace'', hkind'.trans hkind⟩
  · obtain ⟨space', hspace', hgrows⟩ := op.growing w ns space hspace
    exact ⟨space', hspace', hgrows.kind⟩
  · obtain ⟨freed, hspace'⟩ := Spaces.exists_space_free hspace other
    exact ⟨_, hspace', rfl⟩

end HygienicLisp
