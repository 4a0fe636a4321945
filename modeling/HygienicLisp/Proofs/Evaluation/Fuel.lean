import HygienicLisp.Proofs.Evaluation.Surroundings

/-!
# More steps keep a finished answer

`eval` takes the number of steps it may make.  A run that has not used them up ends in the
same way, with the same world, whenever it may make more steps.  So "how the evaluation of
this code ends" does not depend on the number: `EndsIn`, which says that some number of
steps is enough, has at most one answer (`endsIn_unique`).

The proof orders computations by what they have finished: `Approximates x y` if `y` ends as
`x` does wherever `x` does not run out of steps.  Each combinator is monotone in this order,
hence so is one step in the evaluation of subforms, and `eval` in the number of steps.
-/

namespace HygienicLisp

variable {α β : Type}

/-- Whether a computation has come to an end of its own. -/
def Finished : EStateM.Result Halt World α → Prop
  | .ok _ _ => True
  | .error (.error _) _ => True
  | .error .outOfFuel _ => False

/-- `y` ends as `x` does wherever `x` does not run out of steps. -/
def Approximates (x y : RunM α) : Prop := ∀ w, Finished (x w) → y w = x w

namespace Approximates

theorem refl (x : RunM α) : Approximates x x := fun _ _ => rfl

theorem exhausted (y : RunM α) : Approximates RunM.exhausted y := fun _ h => h.elim

theorem trans {x y z : RunM α} (hxy : Approximates x y) (hyz : Approximates y z) :
    Approximates x z := by
  intro w hw
  have hy : y w = x w := hxy w hw
  rw [hyz w (hy ▸ hw), hy]

/-- `bind`, where the rest of the computation has to be compared for results of the first part
only. -/
theorem bind_of_ok {x y : RunM α} {f g : α → RunM β} (hx : Approximates x y)
    (hf : ∀ w a w', x w = .ok a w' → Approximates (f a) (g a)) :
    Approximates (x >>= f) (y >>= g) := by
  intro w hw
  rw [RunM.bind_apply] at hw ⊢
  rw [RunM.bind_apply]
  have hxw := hx w
  cases hrun : x w with
  | ok a w₁ =>
      rw [hrun] at hw hxw
      rw [hxw trivial]
      exact hf w a w₁ hrun w₁ hw
  | error halt w₁ =>
      rw [hrun] at hw hxw
      cases halt with
      | error e => rw [hxw trivial]
      | outOfFuel => exact hw.elim

theorem bind {x y : RunM α} {f g : α → RunM β} (hx : Approximates x y)
    (hf : ∀ a, Approximates (f a) (g a)) : Approximates (x >>= f) (y >>= g) :=
  hx.bind_of_ok fun _ a _ _ => hf a

/-- `bind` where only the rest of the computation differs. -/
theorem rest {f g : α → RunM β} (x : RunM α) (hf : ∀ a, Approximates (f a) (g a)) :
    Approximates (x >>= f) (x >>= g) :=
  (refl x).bind hf

theorem ite {c : Prop} [Decidable c] {x x' y y' : RunM α} (hx : Approximates x x')
    (hy : Approximates y y') : Approximates (if c then x else y) (if c then x' else y') := by
  by_cases h : c
  · rw [if_pos h, if_pos h]
    exact hx
  · rw [if_neg h, if_neg h]
    exact hy

theorem andThen {x y : RunM α} (hx : Approximates x y) (leave : World → World) :
    Approximates (x.andThen leave) (y.andThen leave) := by
  intro w hw
  have hxw := hx w
  unfold RunM.andThen at hw ⊢
  cases hrun : x w with
  | ok a w₁ =>
      rw [hrun] at hxw
      simp only [hxw trivial]
  | error halt w₁ =>
      rw [hrun] at hw hxw
      cases halt with
      | error e => simp only [hxw trivial]
      | outOfFuel => exact hw.elim

theorem mapError {x y : RunM α} (hx : Approximates x y) (f : Error → Error) :
    Approximates (x.mapError f) (y.mapError f) := by
  intro w hw
  have hxw := hx w
  unfold RunM.mapError at hw ⊢
  cases hrun : x w with
  | ok a w₁ =>
      rw [hrun] at hxw
      simp only [hxw trivial]
  | error halt w₁ =>
      rw [hrun] at hw hxw
      cases halt with
      | error e => simp only [hxw trivial]
      | outOfFuel => exact hw.elim

end Approximates

theorem Approximates.pushing {x y : RunM α} (hx : Approximates x y)
    (clauses : List (ObjectId × Value)) : Approximates (x.pushing clauses) (y.pushing clauses) :=
  .rest _ fun _ => .rest _ fun _ => hx.andThen _

/-- Computations compared by what they have finished. -/
def Congruence.approximates : Congruence where
  Rel := Approximates
  basic {_ x} _ := .refl x
  bind := .bind

/-! ## Runs -/

theorem eval_approximates_succ (steps : Nat) :
    ∀ (code : Code) (env : Env), Approximates (eval steps code env) (eval (steps + 1) code env) := by
  induction steps with
  | zero => exact fun _ _ => .exhausted _
  | succ steps ih =>
      intro code env
      have hstep : Approximates (step (eval steps) code env) (step (eval (steps + 1)) code env) :=
        step_related .approximates ih code env fun _ body _ clauses => (ih body env).pushing clauses
      refine hstep.bind fun next => ?_
      cases next with
      | value v => exact .refl _
      | tail code env => exact ih code env

/-- A run that finishes ends in the same way if it may make more steps. -/
theorem eval_mono {steps more : Nat} (hle : steps ≤ more) (code : Code) (env : Env) :
    Approximates (eval steps code env) (eval more code env) := by
  induction hle with
  | refl => exact .refl _
  | step _ ih => exact ih.trans (eval_approximates_succ _ code env)

theorem applyProcedure_mono {steps more : Nat} (hle : steps ≤ more) (procedure : Value)
    (args : List Value) :
    Approximates (applyProcedure steps procedure args) (applyProcedure more procedure args) := by
  refine .rest _ fun next => ?_
  cases next with
  | value v => exact .refl _
  | tail code env => exact eval_mono hle code env

/-- Some number of steps is enough for the computation to end, and it ends so. -/
def EndsIn (x : Nat → RunM α) (w : World) (r : EStateM.Result Halt World α) : Prop :=
  Finished r ∧ ∃ steps, x steps w = r

/-- If more steps keep a finished answer, there is at most one. -/
theorem endsIn_unique {x : Nat → RunM α}
    (hmono : ∀ {steps more : Nat}, steps ≤ more → Approximates (x steps) (x more))
    {w : World} {r r' : EStateM.Result Halt World α} (h : EndsIn x w r) (h' : EndsIn x w r') :
    r = r' := by
  obtain ⟨hr, steps, hsteps⟩ := h
  obtain ⟨hr', steps', hsteps'⟩ := h'
  calc r = x steps w := hsteps.symm
    _ = x (max steps steps') w := (hmono (Nat.le_max_left _ _) w (hsteps ▸ hr)).symm
    _ = x steps' w := hmono (Nat.le_max_right _ _) w (hsteps' ▸ hr')
    _ = r' := hsteps'

end HygienicLisp
