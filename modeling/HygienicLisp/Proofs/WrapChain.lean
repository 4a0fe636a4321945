import HygienicLisp.Namespace.Resolve
import Mathlib.Data.List.Chain

/-!
# Chains of wraps up to cancellation

A mark that is put on a chain whose newest wrap is the same mark takes that one off, so
the chains of syntax objects never hold the same mark twice in a row.  `cancelled` brings
any chain into this form.  Two chains with the same cancelled form are the same context:
they have the same marks and resolve every name alike, whatever wraps come in front of
them and whatever the namespaces hold.

Main statements: cancellation commutes with putting wraps in front (`cancelled_pushWrap`,
`cancelled_append`) and is not seen by resolution (`resolveWraps_cancelled`).
-/

namespace HygienicLisp

open Syntax (pushWrap)

/-- The chain with every pair of adjacent equal marks taken out. -/
def cancelled (wraps : List Wrap) : List Wrap := wraps.foldr pushWrap []

/-- A chain in which no mark stands next to itself. -/
def Reduced (wraps : List Wrap) : Prop :=
  wraps.IsChain fun newer older => ∀ m, newer = .mark m → older ≠ .mark m

@[simp] theorem pushWrap_rename (rib : Rib) (wraps : List Wrap) :
    pushWrap (.rename rib) wraps = .rename rib :: wraps := rfl

@[simp] theorem pushWrap_space (ns : NamespaceId) (wraps : List Wrap) :
    pushWrap (.space ns) wraps = .space ns :: wraps := rfl

@[simp] theorem pushWrap_moduleRename (ns : NamespaceId) (wraps : List Wrap) :
    pushWrap (.moduleRename ns) wraps = .moduleRename ns :: wraps := rfl

/-- A mark that meets itself cancels. -/
@[simp] theorem pushWrap_mark_self (m : Mark) (older : List Wrap) :
    pushWrap (.mark m) (.mark m :: older) = older := by
  simp [pushWrap]

/-- A mark in front of anything but itself stays. -/
theorem pushWrap_mark_of_head? {m : Mark} {wraps : List Wrap}
    (h : wraps.head? ≠ some (.mark m)) : pushWrap (.mark m) wraps = .mark m :: wraps := by
  cases wraps with
  | nil => rfl
  | cons top older =>
      cases top with
      | mark n =>
          have hne : m ≠ n := by
            rintro rfl
            exact h rfl
          simp [pushWrap, hne]
      | rename rib => rfl
      | space ns => rfl
      | moduleRename ns => rfl

/-- Whatever is pushed, the result is the chain with the wrap in front, or the chain was
headed by that very mark and has lost it. -/
theorem pushWrap_cases (wrap : Wrap) (wraps : List Wrap) :
    pushWrap wrap wraps = wrap :: wraps ∨
      ∃ m, wrap = .mark m ∧ wraps = .mark m :: pushWrap wrap wraps := by
  cases wrap with
  | mark m =>
      by_cases h : wraps.head? = some (.mark m)
      · obtain ⟨older, rfl⟩ := List.head?_eq_some_iff.1 h
        exact .inr ⟨m, rfl, by simp⟩
      · exact .inl (pushWrap_mark_of_head? h)
  | rename rib => exact .inl rfl
  | space ns => exact .inl rfl
  | moduleRename ns => exact .inl rfl

/-! ## The cancelled form -/

theorem Reduced.tail {wrap : Wrap} {wraps : List Wrap} (h : Reduced (wrap :: wraps)) :
    Reduced wraps :=
  List.IsChain.tail h

theorem Reduced.pushWrap {wraps : List Wrap} (h : Reduced wraps) (wrap : Wrap) :
    Reduced (pushWrap wrap wraps) := by
  rcases pushWrap_cases wrap wraps with hcons | ⟨m, -, hcons⟩
  · by_cases hhead : ∃ m, wrap = .mark m ∧ wraps.head? = some (.mark m)
    · obtain ⟨m, rfl, hhead⟩ := hhead
      obtain ⟨older, rfl⟩ := List.head?_eq_some_iff.1 hhead
      simpa using h.tail
    · rw [hcons, Reduced, List.isChain_cons]
      refine ⟨fun older holder m hmark hsame => hhead ⟨m, hmark, ?_⟩, h⟩
      rw [← hsame]
      exact holder
  · rw [hcons] at h
    exact h.tail

theorem reduced_cancelled (wraps : List Wrap) : Reduced (cancelled wraps) := by
  induction wraps with
  | nil => exact List.IsChain.nil
  | cons wrap older ih => exact ih.pushWrap wrap

/-- On a reduced chain the same mark twice is no change. -/
theorem pushWrap_mark_pushWrap_mark {wraps : List Wrap} (h : Reduced wraps) (m : Mark) :
    pushWrap (.mark m) (pushWrap (.mark m) wraps) = wraps := by
  by_cases hhead : wraps.head? = some (.mark m)
  · obtain ⟨older, rfl⟩ := List.head?_eq_some_iff.1 hhead
    have holder : older.head? ≠ some (.mark m) := by
      intro hsame
      obtain ⟨rest, rfl⟩ := List.head?_eq_some_iff.1 hsame
      exact (List.isChain_cons_cons.1 h).1 m rfl rfl
    rw [pushWrap_mark_self, pushWrap_mark_of_head? holder]
  · rw [pushWrap_mark_of_head? hhead, pushWrap_mark_self]

@[simp] theorem cancelled_nil : cancelled [] = [] := rfl

@[simp] theorem cancelled_cons (wrap : Wrap) (wraps : List Wrap) :
    cancelled (wrap :: wraps) = pushWrap wrap (cancelled wraps) := rfl

theorem cancelled_append (newer older : List Wrap) :
    cancelled (newer ++ older) = newer.foldr pushWrap (cancelled older) := by
  simp [cancelled]

/-- Pushing a wrap and putting it in front are the same up to cancellation. -/
@[simp] theorem cancelled_pushWrap (wrap : Wrap) (wraps : List Wrap) :
    cancelled (pushWrap wrap wraps) = pushWrap wrap (cancelled wraps) := by
  rcases pushWrap_cases wrap wraps with hcons | ⟨m, rfl, hcons⟩
  · rw [hcons, cancelled_cons]
  · conv_rhs => rw [hcons, cancelled_cons]
    rw [pushWrap_mark_pushWrap_mark (reduced_cancelled _)]

theorem cancelled_foldr_pushWrap (newer wraps : List Wrap) :
    cancelled (newer.foldr pushWrap wraps) = cancelled (newer ++ wraps) := by
  induction newer with
  | nil => rfl
  | cons wrap newer ih => simp [ih]

/-- Cancellation in the older part of a chain is no change up to cancellation. -/
theorem cancelled_append_congr {older older' : List Wrap} (newer : List Wrap)
    (h : cancelled older = cancelled older') :
    cancelled (newer ++ older) = cancelled (newer ++ older') := by
  rw [cancelled_append, cancelled_append, h]

/-- Cancellation in the newer part of a chain is no change up to cancellation. -/
theorem cancelled_cancelled_append (newer older : List Wrap) :
    cancelled (cancelled newer ++ older) = cancelled (newer ++ older) := by
  induction newer with
  | nil => rfl
  | cons wrap newer ih =>
      rw [List.cons_append, cancelled_cons wrap (newer ++ older), ← ih, cancelled_cons]
      rcases pushWrap_cases wrap (cancelled newer) with hcons | ⟨m, rfl, hcons⟩
      · rw [hcons, List.cons_append, cancelled_cons]
      · conv_rhs => rw [hcons, List.cons_append, cancelled_cons]
        rw [pushWrap_mark_pushWrap_mark (reduced_cancelled _)]

theorem cancelled_cancelled (wraps : List Wrap) : cancelled (cancelled wraps) = cancelled wraps := by
  simpa using cancelled_cancelled_append wraps []

/-! ## Resolution does not see cancellation -/

theorem wrapMarks_pushWrap (wrap : Wrap) (wraps : List Wrap) :
    wrapMarks (pushWrap wrap wraps) = wrapMarks (wrap :: wraps) := by
  rcases pushWrap_cases wrap wraps with hcons | ⟨m, rfl, hcons⟩
  · rw [hcons]
  · conv_rhs => rw [hcons]
    simp only [wrapMarks, MarkSet.toggle_toggle]

/-- A chain and its cancelled form have the same marks. -/
theorem wrapMarks_cancelled (wraps : List Wrap) : wrapMarks (cancelled wraps) = wrapMarks wraps := by
  induction wraps with
  | nil => rfl
  | cons wrap older ih =>
      rw [cancelled_cons, wrapMarks_pushWrap]
      cases wrap with
      | mark m => simp only [wrapMarks, ih]
      | rename rib => exact ih
      | space ns => exact ih
      | moduleRename ns => exact ih

namespace Spaces

variable (spaces : Spaces) (name : String) (skip : Option NamespaceId) (total : MarkSet)

theorem foldr_resolveStep_pushWrap (wrap : Wrap) (wraps : List Wrap) :
    (pushWrap wrap wraps).foldr (spaces.resolveStep name skip total) (none, .empty) =
      (wrap :: wraps).foldr (spaces.resolveStep name skip total) (none, .empty) := by
  rcases pushWrap_cases wrap wraps with hcons | ⟨m, rfl, hcons⟩
  · rw [hcons]
  · conv_rhs => rw [hcons]
    simp only [List.foldr_cons, resolveStep, MarkSet.toggle_toggle]

theorem foldr_resolveStep_cancelled (wraps : List Wrap) :
    (cancelled wraps).foldr (spaces.resolveStep name skip total) (none, .empty) =
      wraps.foldr (spaces.resolveStep name skip total) (none, .empty) := by
  induction wraps with
  | nil => rfl
  | cons wrap older ih =>
      rw [cancelled_cons, foldr_resolveStep_pushWrap, List.foldr_cons, ih, List.foldr_cons]

/-- A name has the same binding and marks under a chain and under its cancelled form. -/
theorem resolveWraps_cancelled (wraps : List Wrap) :
    spaces.resolveWraps name skip (cancelled wraps) = spaces.resolveWraps name skip wraps := by
  rw [resolveWraps, wrapMarks_cancelled, foldr_resolveStep_cancelled]
  rfl

theorem resolveWraps_congr {wraps wraps' : List Wrap} (h : cancelled wraps = cancelled wraps') :
    spaces.resolveWraps name skip wraps = spaces.resolveWraps name skip wraps' := by
  rw [← resolveWraps_cancelled, h, resolveWraps_cancelled]

/-- A rib in front of a chain substitutes its variable for what the chain gives. -/
theorem resolveWraps_rename_cons (rib : Rib) (wraps : List Wrap) :
    spaces.resolveWraps name skip (.rename rib :: wraps) =
      match rib.substitute? ⟨name, (spaces.resolveWraps name skip wraps).1.getD (.free name),
        (spaces.resolveWraps name skip wraps).2⟩ with
      | some v => (some (.lexical v), (spaces.resolveWraps name skip wraps).2)
      | none => spaces.resolveWraps name skip wraps := rfl

/-- Without a recorded binding an identifier has the one that its wraps give it. -/
theorem resolve_of_binding_eq_none {spaces : Spaces} {stx : Syntax}
    (h : stx.context.binding = none) : spaces.resolve stx = (spaces.resolveWithMarks stx).1 := by
  rw [resolve, h]
  rfl

end Spaces

theorem wrapMarks_congr {wraps wraps' : List Wrap} (h : cancelled wraps = cancelled wraps') :
    wrapMarks wraps = wrapMarks wraps' := by
  rw [← wrapMarks_cancelled, h, wrapMarks_cancelled]

end HygienicLisp
