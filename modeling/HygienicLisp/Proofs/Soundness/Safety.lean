import HygienicLisp.Proofs.Cells
import HygienicLisp.Proofs.Runs
import HygienicLisp.Proofs.Soundness.Layout

/-!
# Safe computations

A world is sound for a layout if the layout describes it and everything it holds is sound.  A
computation is safe if from every sound world it ends in a sound world, for a layout that has
only grown, and never fails because of an internal fault.  `Safe I L P x` says this of the
computation `x` for worlds that satisfy `I` as well; a result satisfies `P`, and `I` holds again.

The rules of this file let safety be shown along the text of a computation (`Safe.bind`).
-/

namespace HygienicLisp

/-- The world is as the layout says, and all that it holds is sound. -/
structure World.Sound (L : Layout) (w : World) : Prop where
  frames : ∀ i : Nat, L.frames[i]? = (w.frames[i]?).map fun f => (f.slots.size, f.parent)
  imports : ∀ ns : NamespaceId, L.imports[ns]? = (w.spaces[ns]?).map fun space => space.imports.size
  slots : ∀ (i : Nat) (f : Frame), w.frames[i]? = some f →
    ∀ (slot : Nat) (v : Value), f.slots[slot]? = some (some v) → v.Sound L
  values : ∀ (ns : NamespaceId) (space : Namespace), w.spaces[ns]? = some space →
    ∀ (address : Nat) (v : Value), space.value? address = some v → v.Sound L
  owners : ∀ (ns : NamespaceId) (space : Namespace), w.spaces[ns]? = some space →
    ∀ (i : Nat) (entry : ModuleId × NamespaceId), space.imports[i]? = some entry →
      L.HasSpace entry.2
  targets : ∀ (ns : NamespaceId) (space : Namespace), w.spaces[ns]? = some space →
    ∀ (i : Nat) (entry : Entry), space.entries[i]? = some entry →
      L.HasSpace entry.content.target.owner
  dynamic : ∀ p ∈ w.dynamic, p.2.Sound L
  ribs : ∀ rib size, L.ribs rib = some size → rib < w.nextRib

/-- Not a failure of the kind that no program ought to see. -/
def Error.External (e : Error) : Prop := e.kind ≠ .internal

/-- From the world the computation ends in a sound one, and does not fail because of an internal
fault. -/
def SafeAt {α : Type} (I : World → Prop) (L : Layout) (P : Layout → α → Prop) (x : RunM α)
    (w : World) : Prop :=
  match x w with
  | .ok a w' => I w' ∧ ∃ L', L ≤ L' ∧ w'.Sound L' ∧ P L' a
  | .error halt w' => (∃ L', L ≤ L' ∧ w'.Sound L') ∧ ∀ e, halt = .error e → e.External

/-- From every sound world the computation ends in one, and does not fail because of an internal
fault. -/
def Safe {α : Type} (I : World → Prop) (L : Layout) (P : Layout → α → Prop) (x : RunM α) : Prop :=
  ∀ w, I w → w.Sound L → SafeAt I L P x w

section

variable {α β : Type} {I : World → Prop} {L : Layout} {P : Layout → α → Prop}
  {Q : Layout → β → Prop}

theorem SafeAt.getSpaces_bind {f : Spaces → RunM α} {w : World}
    (h : SafeAt I L P (f w.spaces) w) : SafeAt I L P (getSpaces >>= f) w := h

theorem SafeAt.bind {x : RunM α} {f : α → RunM β} {w : World} (hx : SafeAt I L P x w)
    (hf : ∀ L' a, L ≤ L' → P L' a → Safe I L' Q (f a)) : SafeAt I L Q (x >>= f) w := by
  rw [SafeAt, RunM.bind_apply]
  rw [SafeAt] at hx
  cases hrun : x w with
  | error halt w' =>
      rw [hrun] at hx
      exact hx
  | ok a w' =>
      rw [hrun] at hx
      obtain ⟨hI', L', hL, hw', ha⟩ := hx
      have hf := hf L' a hL ha w' hI' hw'
      rw [SafeAt] at hf
      cases hrun' : f a w' with
      | error halt w'' =>
          simp only [hrun'] at hf ⊢
          obtain ⟨⟨L'', hL', hw''⟩, he⟩ := hf
          exact ⟨⟨L'', hL.trans hL', hw''⟩, he⟩
      | ok b w'' =>
          simp only [hrun'] at hf ⊢
          obtain ⟨hI'', L'', hL', hw'', hb⟩ := hf
          exact ⟨hI'', L'', hL.trans hL', hw'', hb⟩

end

namespace Safe

variable {α β : Type} {I : World → Prop} {L : Layout} {P : Layout → α → Prop}
  {Q : Layout → β → Prop}

theorem pure {a : α} (h : P L a) : Safe I L P (pure a) :=
  fun _ hI hw => ⟨hI, L, le_rfl, hw, h⟩

theorem fail {e : Error} (h : e.External) : Safe I L P (RunM.fail e) := by
  intro w hI hw
  refine ⟨⟨L, le_rfl, hw⟩, fun e' he => ?_⟩
  cases he
  exact h

theorem failAt {stx : Syntax} {fault : SyntaxFault} : Safe I L P (RunM.failAt stx fault) :=
  fail (by simp [Error.External, Error.kind, Error.atForm, Fault.kind])

theorem exhausted : Safe I L P RunM.exhausted := by
  intro w hI hw
  refine ⟨⟨L, le_rfl, hw⟩, fun e' he => ?_⟩
  cases he

theorem bind {x : RunM α} {f : α → RunM β} (hx : Safe I L P x)
    (hf : ∀ L' a, L ≤ L' → P L' a → Safe I L' Q (f a)) : Safe I L Q (x >>= f) :=
  fun w hI hw => (hx w hI hw).bind hf

/-- What is read from the world is what a sound world has. -/
theorem get_bind {f : World → RunM β} (h : ∀ w, I w → w.Sound L → Safe I L Q (f w)) :
    Safe I L Q (get >>= f) :=
  fun w hI hw => h w hI hw w hI hw

theorem getSpaces_bind {f : Spaces → RunM β}
    (h : ∀ w, I w → w.Sound L → Safe I L Q (f w.spaces)) : Safe I L Q (getSpaces >>= f) :=
  fun w hI hw => h w hI hw w hI hw

theorem modifyGet {f : World → α × World}
    (h : ∀ w, I w → w.Sound L → I (f w).2 ∧ ∃ L', L ≤ L' ∧ (f w).2.Sound L' ∧ P L' (f w).1) :
    Safe I L P (modifyGet f) :=
  fun w hI hw => h w hI hw

theorem modify {f : World → World} {P : Layout → PUnit → Prop}
    (h : ∀ w, I w → w.Sound L → I (f w) ∧ ∃ L', L ≤ L' ∧ (f w).Sound L' ∧ P L' ⟨⟩) :
    Safe I L P (modify f) :=
  fun w hI hw => h w hI hw

theorem mapError {x : RunM α} {f : Error → Error} (hf : ∀ e, e.External → (f e).External)
    (hx : Safe I L P x) : Safe I L P (x.mapError f) := by
  intro w hI hw
  have hx := hx w hI hw
  rw [SafeAt] at hx
  rw [SafeAt, RunM.mapError]
  cases hrun : x w with
  | ok a w' => simpa only [hrun] using hx
  | error halt w' =>
      simp only [hrun] at hx
      cases halt with
      | outOfFuel => exact hx
      | error e =>
          refine ⟨hx.1, fun e' he => ?_⟩
          cases he
          exact hf e (hx.2 e rfl)

theorem ofExcept {r : Except Error α} (hok : ∀ a, r = .ok a → P L a)
    (herror : ∀ e, r = .error e → e.External) : Safe I L P (RunM.ofExcept r) := by
  cases r with
  | ok a => exact pure (hok a rfl)
  | error e => exact fail (herror e rfl)

end Safe

end HygienicLisp
