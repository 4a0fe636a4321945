import HygienicLisp.World

/-!
# Runs of computations

A computation maps a world to a result or a halt, each with the world afterwards.  The
lemmas of this file say what the basic computations do to a world, so that no proof has to
open the monad.
-/

namespace HygienicLisp

namespace RunM

variable {α β : Type}

@[simp] theorem pure_apply (a : α) (w : World) : (pure a : RunM α) w = .ok a w := rfl

@[simp] theorem get_apply (w : World) : (get : RunM World) w = .ok w w := rfl

@[simp] theorem modify_apply (f : World → World) (w : World) :
    (modify f : RunM PUnit) w = .ok ⟨⟩ (f w) := rfl

@[simp] theorem fail_apply (e : Error) (w : World) : (fail e : RunM α) w = .error (.error e) w := rfl

@[simp] theorem failAt_apply (stx : Syntax) (fault : SyntaxFault) (w : World) :
    (failAt stx fault : RunM α) w = .error (.error (.atForm (.badSyntax fault) stx)) w := rfl

@[simp] theorem exhausted_apply (w : World) : (exhausted : RunM α) w = .error .outOfFuel w := rfl

@[simp] theorem ofExcept_ok (a : α) : ofExcept (.ok a) = (pure a : RunM α) := rfl

@[simp] theorem ofExcept_error (e : Error) : (ofExcept (.error e) : RunM α) = fail e := rfl

@[simp] theorem getSpaces_apply (w : World) : getSpaces w = .ok w.spaces w := rfl

theorem bind_apply (x : RunM α) (f : α → RunM β) (w : World) :
    (x >>= f) w = match x w with
      | .ok a w' => f a w'
      | .error halt w' => .error halt w' := by
  cases h : x w <;> simp [bind, EStateM.bind, h]

/-- A sequence of two computations ends well exactly if both do. -/
theorem bind_eq_ok {x : RunM α} {f : α → RunM β} {w w₂ : World} {b : β} :
    (x >>= f) w = .ok b w₂ ↔ ∃ a w₁, x w = .ok a w₁ ∧ f a w₁ = .ok b w₂ := by
  rw [bind_apply]
  cases x w with
  | ok a w₁ =>
      refine ⟨fun h => ⟨a, w₁, rfl, h⟩, ?_⟩
      rintro ⟨a', w', hrun, h⟩
      cases hrun
      exact h
  | error halt w₁ => simp

theorem mapError_eq_ok {f : Error → Error} {x : RunM α} {w w' : World} {a : α} :
    mapError f x w = .ok a w' ↔ x w = .ok a w' := by
  rw [mapError]
  cases x w with
  | ok b w₁ => simp
  | error halt w₁ => cases halt <;> simp

theorem andThen_eq_ok {x : RunM α} {leave : World → World} {w w' : World} {a : α} :
    x.andThen leave w = .ok a w' ↔ ∃ w₁, x w = .ok a w₁ ∧ leave w₁ = w' := by
  rw [andThen]
  cases x w with
  | ok b w₁ =>
      constructor
      · rintro ⟨⟩
        exact ⟨w₁, rfl, rfl⟩
      · rintro ⟨_, ⟨⟩, rfl⟩
        rfl
  | error halt w₁ => simp

end RunM

theorem Except.bind_eq_ok {ε α β : Type} {r : Except ε α} {f : α → Except ε β} {b : β} :
    (r >>= f) = .ok b ↔ ∃ a, r = .ok a ∧ f a = .ok b := by
  cases r with
  | error e => simp [bind, Except.bind]
  | ok a => simp [bind, Except.bind]

theorem Except.bind_eq_error {ε α β : Type} {r : Except ε α} {f : α → Except ε β} {e : ε} :
    (r >>= f) = .error e ↔ r = .error e ∨ ∃ a, r = .ok a ∧ f a = .error e := by
  cases r with
  | error e' => simp [bind, Except.bind]
  | ok a => simp [bind, Except.bind]

theorem Except.map_eq_ok {ε α β : Type} {r : Except ε α} {f : α → β} {b : β} :
    r.map f = .ok b ↔ ∃ a, r = .ok a ∧ f a = b := by
  cases r <;> simp [Except.map]

theorem Except.map_eq_error {ε α β : Type} {r : Except ε α} {f : α → β} {e : ε} :
    r.map f = .error e ↔ r = .error e := by
  cases r <;> simp [Except.map]

/-- Whether the run has a result of which `check` holds. -/
def endsWith {α : Type} (check : α → World → Bool) : EStateM.Result Halt World α → Bool
  | .ok a w => check a w
  | .error _ _ => false

theorem exists_of_endsWith {α : Type} {check : α → World → Bool}
    {result : EStateM.Result Halt World α} (h : endsWith check result) :
    ∃ a w, result = .ok a w ∧ check a w := by
  cases result with
  | ok a w => exact ⟨a, w, rfl, h⟩
  | error halt w => cases h

/-! ## Fresh names -/

@[simp] theorem freshMark_apply (w : World) :
    freshMark w = .ok w.nextMark { w with nextMark := w.nextMark + 1 } := rfl

@[simp] theorem freshRib_apply (w : World) :
    freshRib w = .ok w.nextRib { w with nextRib := w.nextRib + 1 } := rfl

@[simp] theorem freshObject_apply (name : Option String) (w : World) :
    freshObject name w = .ok w.names.size { w with names := w.names.push name } := rfl

@[simp] theorem stampSyntax_apply (stx : Syntax) (w : World) :
    stampSyntax stx w = .ok (stx.stamp w.nextLabel).1
      { w with nextLabel := (stx.stamp w.nextLabel).2 } := rfl

@[simp] theorem stampValue_apply (v : Value) (w : World) :
    stampValue v w = .ok (v.stamp w.nextLabel).1 { w with nextLabel := (v.stamp w.nextLabel).2 } := rfl

@[simp] theorem newRecord_apply (fields : List (String × Value)) (w : World) :
    newRecord fields w = .ok (.record w.nextLabel fields) { w with nextLabel := w.nextLabel + 1 } :=
  rfl

/-! ## Short names -/

theorem importId_apply (ns : NamespaceId) (target : Definition) (w : World) :
    importId ns target w = match w.spaces.importId ns target with
      | .ok (id, spaces) => .ok id { w with spaces }
      | .error e => .error (.error e) w := by
  rw [importId, RunM.bind_apply, RunM.getSpaces_apply]
  dsimp only
  cases w.spaces.importId ns target <;> rfl

theorem importId_eq_ok {ns : NamespaceId} {target : Definition} {id : Nat} {w w' : World} :
    importId ns target w = .ok id w' ↔
      ∃ spaces, w.spaces.importId ns target = .ok (id, spaces) ∧ w' = { w with spaces } := by
  rw [importId_apply]
  cases w.spaces.importId ns target with
  | error e => simp
  | ok result =>
      obtain ⟨known, spaces⟩ := result
      constructor
      · rintro ⟨⟩
        exact ⟨spaces, rfl, rfl⟩
      · rintro ⟨_, ⟨⟩, rfl⟩
        rfl

end HygienicLisp
