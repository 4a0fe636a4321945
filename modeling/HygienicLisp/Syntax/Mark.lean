/-!
# Hygiene marks

Every invocation of a transformer draws a fresh mark and puts it on its input and
on its output.  Putting a mark on twice takes it off again, so a collection of
marks is a finite set under symmetric difference.  It is kept as a strictly
increasing list: equal sets are equal values.

Main statements: toggling is described by membership (`mem_toggle`), a mark put on twice
cancels (`toggle_toggle`), and marks commute (`toggle_comm`).
-/

namespace HygienicLisp

/-- A hygiene mark; marks are numbered in the order in which they were drawn. -/
abbrev Mark := Nat

/-- A finite set of marks. -/
structure MarkSet where
  toList : List Mark
  sorted : toList.Pairwise (· < ·)
  deriving DecidableEq, Repr

namespace MarkSet

/-- Inserts `m` into an increasing list, or removes it if it is there. -/
def toggleList (m : Mark) : List Mark → List Mark
  | [] => [m]
  | x :: xs => if m < x then m :: x :: xs else if m = x then xs else x :: toggleList m xs

theorem mem_of_mem_toggleList {m y : Mark} {xs : List Mark} (h : y ∈ toggleList m xs) :
    y = m ∨ y ∈ xs := by
  induction xs with
  | nil => simpa [toggleList] using h
  | cons x xs ih => grind [toggleList]

theorem pairwise_toggleList {m : Mark} {xs : List Mark} (h : xs.Pairwise (· < ·)) :
    (toggleList m xs).Pairwise (· < ·) := by
  induction xs with
  | nil => simp [toggleList]
  | cons x xs ih =>
    have htail := List.pairwise_cons.1 h
    unfold toggleList
    split
    · next hlt =>
      refine List.pairwise_cons.2 ⟨fun y hy => ?_, h⟩
      rcases List.mem_cons.1 hy with rfl | hy
      · exact hlt
      · exact Nat.lt_trans hlt (htail.1 y hy)
    · next hle =>
      split
      · exact htail.2
      · next hne =>
        refine List.pairwise_cons.2 ⟨fun y hy => ?_, ih htail.2⟩
        rcases mem_of_mem_toggleList hy with rfl | hy
        · exact Nat.lt_of_le_of_ne (Nat.not_lt.1 hle) (Ne.symm hne)
        · exact htail.1 y hy

theorem mem_toggleList {m y : Mark} {xs : List Mark} (h : xs.Pairwise (· < ·)) :
    y ∈ toggleList m xs ↔ (y ∈ xs ↔ y ≠ m) := by
  induction xs with
  | nil => simp [toggleList]
  | cons x xs ih =>
    obtain ⟨hx, hxs⟩ := List.pairwise_cons.1 h
    have hm : m ∈ xs → x < m := hx m
    have hy : y ∈ xs → x < y := hx y
    have ih := ih hxs
    grind [toggleList]

/-- Increasing lists with the same members are equal. -/
theorem eq_of_mem_iff {xs ys : List Mark} (hxs : xs.Pairwise (· < ·)) (hys : ys.Pairwise (· < ·))
    (h : ∀ m, m ∈ xs ↔ m ∈ ys) : xs = ys := by
  induction xs generalizing ys with
  | nil => exact (List.eq_nil_iff_forall_not_mem.2 fun m hm => by simpa using (h m).2 hm).symm
  | cons x xs ih =>
    cases ys with
    | nil => simpa using (h x).1 List.mem_cons_self
    | cons y ys =>
      obtain ⟨hx, hxs'⟩ := List.pairwise_cons.1 hxs
      obtain ⟨hy, hys'⟩ := List.pairwise_cons.1 hys
      have hxy : x = y := by
        have h₁ := List.mem_cons.1 ((h x).1 List.mem_cons_self)
        have h₂ := List.mem_cons.1 ((h y).2 List.mem_cons_self)
        grind
      subst hxy
      refine congrArg (x :: ·) (ih hxs' hys' fun m => ?_)
      have := h m
      grind

/-- The set without marks. -/
def empty : MarkSet := ⟨[], .nil⟩

instance : Inhabited MarkSet := ⟨empty⟩

instance : Membership Mark MarkSet := ⟨fun marks m => m ∈ marks.toList⟩

instance (m : Mark) (marks : MarkSet) : Decidable (m ∈ marks) :=
  inferInstanceAs (Decidable (m ∈ marks.toList))

/-- Puts the mark `m` on, or takes it off if it is on. -/
def toggle (m : Mark) (marks : MarkSet) : MarkSet :=
  ⟨toggleList m marks.toList, pairwise_toggleList marks.sorted⟩

/-- A mark is on after toggling `m` if it was on and is not `m`, or was off and is `m`. -/
theorem mem_toggle {m y : Mark} {marks : MarkSet} :
    y ∈ marks.toggle m ↔ (y ∈ marks ↔ y ≠ m) :=
  mem_toggleList marks.sorted

/-- Sets with the same marks are equal. -/
theorem ext_mem {s t : MarkSet} (h : ∀ m, m ∈ s ↔ m ∈ t) : s = t := by
  obtain ⟨xs, hxs⟩ := s
  obtain ⟨ys, hys⟩ := t
  have : xs = ys := eq_of_mem_iff hxs hys h
  subst this
  rfl

/-- Toggling a mark twice changes nothing. -/
theorem toggle_toggle (m : Mark) (marks : MarkSet) : (marks.toggle m).toggle m = marks :=
  ext_mem fun y => by simp only [mem_toggle]; grind

/-- The order in which marks are toggled does not matter. -/
theorem toggle_comm (m n : Mark) (marks : MarkSet) :
    (marks.toggle m).toggle n = (marks.toggle n).toggle m :=
  ext_mem fun y => by simp only [mem_toggle]; grind

/-- The number of marks in the set. -/
def size (marks : MarkSet) : Nat := marks.toList.length

/-- Whether no mark is on. -/
def isEmpty (marks : MarkSet) : Bool := marks.toList.isEmpty

/-- The set of the marks that occur an odd number of times in a list. -/
def ofList (ms : List Mark) : MarkSet := ms.foldr toggle empty

end MarkSet

end HygienicLisp
