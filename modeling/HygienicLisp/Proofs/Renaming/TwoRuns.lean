import HygienicLisp.Proofs.Runs

/-!
# Two runs side by side

`Agree T R x y` compares two computations that start in worlds related by `T`: either both end
well, in worlds that are related by `T` again and with results related by `R`, or both fail, or both
run out of steps.  How they fail is not compared, since the texts of failures show the names of
identifiers.

The lemmas go through the steps of both computations together, so a proof about two runs has
the shape of the program that is run.
-/

namespace HygienicLisp

/-- Two outcomes: both are results related by `R` in worlds related by `T`, or both are failures, or in
both cases the steps have not been enough. -/
inductive Outcomes {α β : Type} (T : World → World → Prop) (R : α → β → Prop) :
    EStateM.Result Halt World α → EStateM.Result Halt World β → Prop
  | ok {a : α} {b : β} {w₁ w₂ : World} (hw : T w₁ w₂) (h : R a b) : Outcomes T R (.ok a w₁) (.ok b w₂)
  | error (e₁ e₂ : Error) (w₁ w₂ : World) :
      Outcomes T R (.error (.error e₁) w₁) (.error (.error e₂) w₂)
  | outOfFuel (w₁ w₂ : World) : Outcomes T R (.error .outOfFuel w₁) (.error .outOfFuel w₂)

namespace Outcomes

variable {α β α' β' : Type} {T T' : World → World → Prop} {R : α → β → Prop} {Q : α' → β' → Prop}

theorem of_ok {a : α} {b : β} {w₁ w₂ : World} (h : Outcomes T R (.ok a w₁) (.ok b w₂)) :
    T w₁ w₂ ∧ R a b := by
  cases h with
  | ok hw h => exact ⟨hw, h⟩

/-- If one computation has ended well, so has the other. -/
theorem exists_of_ok {a : α} {w₁ : World} {r₂ : EStateM.Result Halt World β}
    (h : Outcomes T R (.ok a w₁) r₂) : ∃ b w₂, r₂ = .ok b w₂ ∧ T w₁ w₂ ∧ R a b := by
  cases h with
  | ok hw h => exact ⟨_, _, rfl, hw, h⟩

theorem mono {r₁ : EStateM.Result Halt World α} {r₂ : EStateM.Result Halt World β}
    (h : Outcomes T R r₁ r₂) (hT : ∀ w₁ w₂, T w₁ w₂ → T' w₁ w₂) : Outcomes T' R r₁ r₂ := by
  cases h with
  | ok hw h => exact .ok (hT _ _ hw) h
  | error => exact .error ..
  | outOfFuel => exact .outOfFuel ..

/-- Two computations that go on from the outcomes of others. -/
theorem bind {x : RunM α} {y : RunM β} {f : α → RunM α'} {g : β → RunM β'} {w₁ w₂ : World}
    (h : Outcomes T R (x w₁) (y w₂))
    (hfg : ∀ a b w₁' w₂', T w₁' w₂' → R a b → Outcomes T' Q (f a w₁') (g b w₂')) :
    Outcomes T' Q ((x >>= f) w₁) ((y >>= g) w₂) := by
  rw [RunM.bind_apply, RunM.bind_apply]
  generalize x w₁ = r₁ at h
  generalize y w₂ = r₂ at h
  cases h with
  | ok hw h => exact hfg _ _ _ _ hw h
  | error => exact .error ..
  | outOfFuel => exact .outOfFuel ..

end Outcomes

/-- From related worlds the computations both end well with related results, or both fail, or both run
out of steps. -/
def Agree {α β : Type} (T : World → World → Prop) (R : α → β → Prop) (x : RunM α) (y : RunM β) : Prop :=
  ∀ w₁ w₂, T w₁ w₂ → Outcomes T R (x w₁) (y w₂)

/-- The computation fails in every world. -/
def Fails {α : Type} (x : RunM α) : Prop := ∀ w, ∃ e w', x w = .error (.error e) w'

theorem Fails.failAt {α : Type} (stx : Syntax) (fault : SyntaxFault) :
    Fails (RunM.failAt stx fault : RunM α) :=
  fun w => ⟨_, w, rfl⟩

theorem Fails.bind {α β : Type} {x : RunM α} (h : Fails x) (f : α → RunM β) : Fails (x >>= f) := by
  intro w
  obtain ⟨e, w', hrun⟩ := h w
  exact ⟨e, w', by rw [RunM.bind_apply, hrun]⟩

namespace Agree

variable {α β α' β' : Type} {T : World → World → Prop} {R : α → β → Prop} {Q : α' → β' → Prop}

theorem pure {a : α} {b : β} (h : R a b) : Agree T R (pure a) (pure b) :=
  fun _ _ hT => .ok hT h

theorem fail (e₁ e₂ : Error) : Agree T R (RunM.fail e₁) (RunM.fail e₂) := fun _ _ _ => .error ..

theorem failAt (stx₁ stx₂ : Syntax) (fault₁ fault₂ : SyntaxFault) :
    Agree T R (RunM.failAt stx₁ fault₁) (RunM.failAt stx₂ fault₂) := fun _ _ _ => .error ..

theorem exhausted : Agree T R RunM.exhausted RunM.exhausted := fun _ _ _ => .outOfFuel ..

theorem bind {x : RunM α} {y : RunM β} {f : α → RunM α'} {g : β → RunM β'} (hxy : Agree T R x y)
    (hfg : ∀ a b, R a b → Agree T Q (f a) (g b)) : Agree T Q (x >>= f) (y >>= g) := by
  intro w₁ w₂ hT
  exact Outcomes.bind (hxy w₁ w₂ hT) fun a b w₁' w₂' hT' hR => hfg a b hR w₁' w₂' hT'

/-- Related results are results of runs from related worlds. -/
theorem runs {x : RunM α} {y : RunM β} (h : Agree T R x y) :
    Agree T (fun a b => R a b ∧ ∃ w₁ w₂ w₁' w₂', T w₁ w₂ ∧ x w₁ = .ok a w₁' ∧ y w₂ = .ok b w₂') x y := by
  intro w₁ w₂ hT
  have h := h w₁ w₂ hT
  generalize hx : x w₁ = r₁ at h
  generalize hy : y w₂ = r₂ at h
  cases h with
  | ok hw h => exact .ok hw ⟨h, _, _, _, _, hT, hx, hy⟩
  | error => exact .error ..
  | outOfFuel => exact .outOfFuel ..

/-- Runs that both fail agree. -/
theorem of_fails {x : RunM α} {y : RunM β} (hx : Fails x) (hy : Fails y) : Agree T R x y := by
  intro w₁ w₂ _
  obtain ⟨e₁, w₁', h₁⟩ := hx w₁
  obtain ⟨e₂, w₂', h₂⟩ := hy w₂
  rw [h₁, h₂]
  exact .error ..

theorem get_bind {f : World → RunM α} {g : World → RunM β}
    (h : ∀ w₁ w₂, T w₁ w₂ → Agree T R (f w₁) (g w₂)) : Agree T R (get >>= f) (get >>= g) :=
  fun w₁ w₂ hT => h w₁ w₂ hT w₁ w₂ hT

theorem getSpaces_bind {f : Spaces → RunM α} {g : Spaces → RunM β}
    (h : ∀ w₁ w₂, T w₁ w₂ → Agree T R (f w₁.spaces) (g w₂.spaces)) :
    Agree T R (getSpaces >>= f) (getSpaces >>= g) :=
  fun w₁ w₂ hT => h w₁ w₂ hT w₁ w₂ hT

theorem mapError {x : RunM α} {y : RunM β} (f g : Error → Error) (h : Agree T R x y) :
    Agree T R (x.mapError f) (y.mapError g) := by
  intro w₁ w₂ hT
  have h := h w₁ w₂ hT
  rw [RunM.mapError, RunM.mapError]
  generalize x w₁ = r₁ at h
  generalize y w₂ = r₂ at h
  cases h with
  | ok hw h => exact .ok hw h
  | error => exact .error ..
  | outOfFuel => exact .outOfFuel ..

end Agree

end HygienicLisp
