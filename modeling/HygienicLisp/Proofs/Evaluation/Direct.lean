import HygienicLisp.Proofs.Evaluation.Fuel

/-!
# Direct evaluation

`step` hands the branches of a conditional, the last form of a sequence, the bodies of `let`
and `letrec` and the bodies of closures back to a loop.  The plain evaluator of this file
evaluates all of them by an ordinary nested call, as it does every other subform.  The two
agree (`eval_eq_direct`): on the same number of steps they end with the same value or the
same failure, in the same world.  Hence one of them ends exactly if the other does, and then
in the same way (`trampoline_refines_direct`).

The place of a failure is where the two could differ.  A call puts its place on a failure to
start the procedure, and on no failure of the body, which is evaluated after the call has
handed it back: `Direct.call` therefore locates the failures of its parts and leaves those of
the nested evaluation alone.
-/

namespace HygienicLisp

namespace Direct

section

variable (eval : Code → Env → RunM Value)

/-- Applies a procedure; the body of a closure is evaluated by a nested call.  What fails
before that is located by `locate`. -/
def call (locate : Error → Error) (procedure : Value) (args : List Value) : RunM Value := do
  match procedure with
  | .procedure id p =>
    let who := (← get).names.identifyProcedure id
    (RunM.ofExcept (p.arity.check who args.length)).mapError locate
    match p with
    | .native _ primitive => (primitive.call args).mapError locate
    | .parameter default => return parameterValue (← get).dynamic id default
    | .closure required rest body env =>
      let inner ← pushFrame env (argumentSlots required rest args).toArray
      eval body inner
  | v => RunM.fail (locate (.of (.eval (.notApplicable v.typeName (← showValue v)))))

/-- The value of the last form, all being evaluated in order. -/
def evalBody (env : Env) : List Code → RunM Value
  | [] => return .void
  | [last] => eval last env
  | code :: rest => do
    let _ ← eval code env
    evalBody env rest

/-- The value of code by that of its subforms. -/
def evalForm (code : Code) (env : Env) : RunM Value := do
  match code with
  | .constant v => return v
  | .void => return .void
  | .localRef depth slot name => getLocal env depth slot name
  | .topRef address name => RunM.ofExcept ((← getSpaces).valueAt env.space address name)
  | .importRef id address name => RunM.ofExcept ((← getSpaces).lookupImport env.space id address name)
  | .freeRef name origin =>
    (RunM.ofExcept ((← getSpaces).lookupName env.space name)).mapError (atOrigin origin)
  | .localSet depth slot value =>
    let v ← eval value env
    setSlot (← frameAt env depth) slot v
    return .void
  | .topSet address value =>
    let v ← eval value env
    setValue env.space address v
    return .void
  | .define name address value =>
    let v ← eval value env
    inferName v name
    setValue env.space address v
    return .void
  | .defineSyntax name address value origin =>
    let v ← eval value env
    let transformer ← asTransformer origin v
    inferName transformer name
    setValue env.space address transformer
    return .void
  | .branch test consequent alternative =>
    if (← eval test env).isTruthy then eval consequent env else eval alternative env
  | .sequence forms => evalBody eval env forms
  | .lambda name required rest body => newProcedure name (.closure required rest body env)
  | .letIn inits body =>
    let vs ← evalAll eval env inits
    let inner ← pushFrame env (vs.map some).toArray
    eval body inner
  | .letrec inits body =>
    let inner ← pushFrame env (Array.replicate inits.length none)
    let frame ← frameAt inner 0
    evalSlots eval inner frame 0 inits
    eval body inner
  | .apply operator operands form =>
    let procedure ← eval operator env
    let args ← evalAll eval env operands
    call eval (atCall form) procedure args
  | .parameterize bindings body =>
    let clauses ← evalClauses eval env bindings
    let size := (← get).dynamic.length
    modify fun w => { w with dynamic := clauses.reverse ++ w.dynamic }
    (eval body env).andThen fun w => { w with dynamic := truncate size w.dynamic }
  | .listLiteral elements => return .list (← evalAll eval env elements)
  | .recordLiteral fields => newRecord (← evalFields eval env fields [])

end

/-- Evaluates code by nested calls, at most `depth` one inside another. -/
def eval : Nat → Code → Env → RunM Value
  | 0, _, _ => RunM.exhausted
  | depth + 1, code, env => evalForm (eval depth) code env

/-- Applies a procedure to arguments by a nested call. -/
def applyProcedure (depth : Nat) (procedure : Value) (args : List Value) : RunM Value :=
  call (eval depth) id procedure args

end Direct

/-! ## One step and what follows it -/

namespace RunM

variable {α β : Type}

@[simp] theorem mapError_pure (f : Error → Error) (a : α) :
    mapError f (pure a : RunM α) = pure a := rfl

@[simp] theorem mapError_fail (f : Error → Error) (e : Error) :
    mapError f (fail e : RunM α) = fail (f e) := rfl

@[simp] theorem mapError_get (f : Error → Error) : mapError f (get : RunM World) = get := rfl

@[simp] theorem mapError_pushFrame (f : Error → Error) (env : Env) (slots : Array (Option Value)) :
    mapError f (pushFrame env slots) = pushFrame env slots := rfl

@[simp] theorem fail_bind (e : Error) (g : α → RunM β) : (fail e >>= g) = fail e := rfl

theorem mapError_bind (f : Error → Error) (x : RunM α) (g : α → RunM β) :
    mapError f (x >>= g) = mapError f x >>= fun a => mapError f (g a) := by
  funext w
  rw [bind_apply, mapError, bind_apply, mapError]
  cases x w with
  | ok a w₁ => rfl
  | error halt w₁ => cases halt <;> rfl

theorem mapError_id (x : RunM α) : mapError id x = x := by
  funext w
  rw [mapError]
  cases x w with
  | ok a w₁ => rfl
  | error halt w₁ => cases halt <;> rfl

end RunM

/-- What the loop does after a step: a value is the result, a tail form is evaluated. -/
def Next.finish (eval : Code → Env → RunM Value) : Next → RunM Value
  | .value v => pure v
  | .tail code env => eval code env

section

variable (eval : Code → Env → RunM Value)

/-- Starting a procedure and finishing it is calling it. -/
theorem applyStep_finish (locate : Error → Error) (procedure : Value) (args : List Value) :
    (applyStep procedure args).mapError locate >>= Next.finish eval
      = Direct.call eval locate procedure args := by
  cases procedure with
  | procedure id p =>
      cases p with
      | native arity primitive =>
          simp only [applyStep, Direct.call, RunM.mapError_bind, RunM.mapError_get,
            RunM.mapError_pure, bind_assoc, pure_bind, Next.finish, bind_pure]
      | parameter default =>
          simp only [applyStep, Direct.call, RunM.mapError_bind, RunM.mapError_get,
            RunM.mapError_pure, bind_assoc, pure_bind, Next.finish]
      | closure required rest body env =>
          simp only [applyStep, Direct.call, RunM.mapError_bind, RunM.mapError_get,
            RunM.mapError_pure, RunM.mapError_pushFrame, bind_assoc, pure_bind, Next.finish]
  | _ =>
      simp only [applyStep, Direct.call, showValue, RunM.mapError_bind, RunM.mapError_get,
        RunM.mapError_fail, RunM.fail_bind, bind_assoc, pure_bind]

/-- Evaluating all forms but the last and finishing with the last. -/
theorem evalInit_finish (env : Env) (forms : List Code) :
    evalInit eval env forms >>= Next.finish eval = Direct.evalBody eval env forms := by
  induction forms with
  | nil => rfl
  | cons code rest ih =>
      cases rest with
      | nil => rfl
      | cons next rest =>
          simp only [evalInit, Direct.evalBody, bind_assoc]
          exact congrArg _ (funext fun _ => ih)

/-- A step and what follows it is the plain evaluation of the form. -/
theorem step_finish (code : Code) (env : Env) :
    step eval code env >>= Next.finish eval = Direct.evalForm eval code env := by
  cases code with
  | sequence forms => exact evalInit_finish eval env forms
  | apply operator operands form =>
      simp only [step, Direct.evalForm, bind_assoc, applyStep_finish]
  | branch test consequent alternative =>
      simp only [step, Direct.evalForm, bind_assoc, pure_bind, Next.finish]
      refine congrArg _ (funext fun v => ?_)
      split <;> rfl
  | _ => simp only [step, Direct.evalForm, bind_assoc, pure_bind, bind_pure, Next.finish]

end

/-! ## Runs -/

/-- The loop and the nested calls give the same run on the same number of steps. -/
theorem eval_eq_direct (steps : Nat) : eval steps = Direct.eval steps := by
  induction steps with
  | zero => rfl
  | succ steps ih =>
      funext code env
      calc eval (steps + 1) code env
          = step (eval steps) code env >>= Next.finish (eval steps) := rfl
        _ = Direct.evalForm (eval steps) code env := step_finish (eval steps) code env
        _ = Direct.eval (steps + 1) code env := by rw [ih]; rfl

theorem applyProcedure_eq_direct (steps : Nat) (procedure : Value) (args : List Value) :
    applyProcedure steps procedure args = Direct.applyProcedure steps procedure args := by
  calc applyProcedure steps procedure args
      = (applyStep procedure args).mapError id >>= Next.finish (eval steps) := by
        rw [RunM.mapError_id]; rfl
    _ = Direct.call (eval steps) id procedure args := applyStep_finish _ id procedure args
    _ = Direct.applyProcedure steps procedure args := by rw [eval_eq_direct]; rfl

/-- Two ways to compute come to an end in the same worlds, and then with the same value or
the same failure and the same world afterwards. -/
structure SameRuns {α : Type} (x y : Nat → RunM α) (w : World) : Prop where
  terminates : (∃ r, EndsIn x w r) ↔ ∃ r, EndsIn y w r
  agrees : ∀ r r', EndsIn x w r → EndsIn y w r' → r = r'

/-- Two ways to compute that are the same for each number of steps have the same runs. -/
theorem SameRuns.of_eq {α : Type} {x y : Nat → RunM α} (heq : ∀ steps, x steps = y steps)
    (hmono : ∀ {steps more : Nat}, steps ≤ more → Approximates (x steps) (x more)) (w : World) :
    SameRuns x y w := by
  obtain rfl : x = y := funext heq
  exact ⟨Iff.rfl, fun r r' h h' => endsIn_unique hmono h h'⟩

/-- The loop of steps refines direct evaluation, and application through it refines direct
application: for all code and all procedures, in every environment and world. -/
theorem trampoline_refines_direct (w : World) :
    (∀ (code : Code) (env : Env),
      SameRuns (fun steps => eval steps code env) (fun depth => Direct.eval depth code env) w) ∧
    ∀ (procedure : Value) (args : List Value),
      SameRuns (fun steps => applyProcedure steps procedure args)
        (fun depth => Direct.applyProcedure depth procedure args) w := by
  constructor
  · intro code env
    have heq : ∀ steps, eval steps code env = Direct.eval steps code env := fun steps => by
      rw [eval_eq_direct]
    exact .of_eq heq (fun hle => eval_mono hle code env) w
  · intro procedure args
    exact .of_eq (fun steps => applyProcedure_eq_direct steps procedure args)
      (fun hle => applyProcedure_mono hle procedure args) w

end HygienicLisp
