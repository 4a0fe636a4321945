import HygienicLisp.Proofs.Evaluation.Surroundings

/-!
# The scope of dynamic parameters

The values given to parameters are one stack.  What a program should see is said without the
stack: the `parameterize` forms whose bodies are being evaluated (`Activations`), innermost
first, and the last clause for the parameter in the first of them that has one
(`Activations.value`).

`Watched.eval` is the evaluator with an observer.  It keeps account of the activations in an
argument, next to the stack and without looking at it, and calls the observer with them
whenever the evaluation of a form begins or ends, with a value or not.  The main theorem
(`parameters_scoped`) says that a run leaves the stack as it was, and that an observer which
does nothing as long as each parameter has the value it should have is never heard of: the
watched run is the run, for every code, number of steps and way to end.
-/

namespace HygienicLisp

/-! ## The values that parameters should have -/

/-- The clauses of the `parameterize` forms whose bodies are being evaluated, those of the
innermost form first.  The clauses of a form are in order. -/
abbrev Activations := List (List (ObjectId × Value))

/-- The value that the last clause for a parameter gives it. -/
def lastClause? (id : ObjectId) (clauses : List (ObjectId × Value)) : Option Value :=
  ((clauses.filter fun clause => clause.1 = id).getLast?).map (·.2)

namespace Activations

/-- The value of a parameter: the one that the innermost form with a clause for it gives it, or
its default. -/
def value (active : Activations) (id : ObjectId) (default : Value) : Value :=
  (active.findSome? (lastClause? id)).getD default

/-- The values that the clauses give, most recent first. -/
def stack (active : Activations) : List (ObjectId × Value) :=
  (active.map List.reverse).flatten

end Activations

theorem lastClause?_eq (id : ObjectId) (clauses : List (ObjectId × Value)) :
    lastClause? id clauses = (clauses.reverse.find? fun p => p.1 = id).map (·.2) := by
  rw [lastClause?, List.getLast?_eq_head?_reverse, ← List.filter_reverse, List.head?_filter]

theorem parameterValue_append (clauses dynamic : List (ObjectId × Value)) (id : ObjectId)
    (default : Value) :
    parameterValue (clauses.reverse ++ dynamic) id default
      = (lastClause? id clauses).getD (parameterValue dynamic id default) := by
  rw [lastClause?_eq, parameterValue, List.find?_append]
  cases clauses.reverse.find? fun p => p.1 = id <;> rfl

/-- The stack gives each parameter the value that it should have. -/
theorem parameterValue_stack (active : Activations) (id : ObjectId) (default : Value) :
    parameterValue active.stack id default = active.value id default := by
  induction active with
  | nil => rfl
  | cons clauses active ih =>
      calc parameterValue (Activations.stack (clauses :: active)) id default
          = parameterValue (clauses.reverse ++ Activations.stack active) id default := rfl
        _ = (lastClause? id clauses).getD (Activations.value active id default) := by
            rw [parameterValue_append, ih]
        _ = Activations.value (clauses :: active) id default := by
            simp only [Activations.value, List.findSome?_cons]
            cases lastClause? id clauses <;> rfl

/-! ## The watched evaluator -/

namespace Watched

/-- Looks at the world after a computation, however it ends. -/
def after {α : Type} (look : RunM Unit) (x : RunM α) : RunM α := try x finally look

/-- Looks at the world before and after a computation. -/
def around {α : Type} (look : RunM Unit) (x : RunM α) : RunM α := do
  look
  after look x

theorem after_apply {α : Type} (look : RunM Unit) (x : RunM α) (w : World) :
    after look x w = match x w with
      | .ok a w' => match look w' with
        | .ok _ w'' => .ok a w''
        | .error halt w'' => .error halt w''
      | .error halt w' => match look w' with
        | .ok _ w'' => .error halt w''
        | .error halt w'' => .error halt w'' := by
  simp only [after, tryFinally, tryFinally', Functor.map, EStateM.map]
  cases x w with
  | ok a w' => cases hlook : look w' <;> simp only [hlook]
  | error halt w' => cases hlook : look w' <;> simp only [hlook]

variable (watch : Activations → RunM Unit)

/-- Evaluates code while the bodies of the given forms are being evaluated.  The clauses of a
`parameterize` are evaluated among the same forms, its body inside one more. -/
def eval : Nat → Activations → Code → Env → RunM Value
  | 0, _, _, _ => RunM.exhausted
  | fuel + 1, active, code, env => around (watch active) do
    match code with
    | .parameterize bindings body =>
      let clauses ← evalClauses (eval fuel active) env bindings
      (eval fuel (clauses :: active) body env).pushing clauses
    | code =>
      match ← step (eval fuel active) code env with
      | .value v => return v
      | .tail code env => eval fuel active code env

theorem eval_succ_of_ne {fuel : Nat} {active : Activations} {code : Code} {env : Env}
    (h : ∀ bindings body, code ≠ .parameterize bindings body) :
    eval watch (fuel + 1) active code env = around (watch active) (do
      match ← step (eval watch fuel active) code env with
      | .value v => return v
      | .tail code env => eval watch fuel active code env) := by
  rw [eval]
  exact h

/-- Applies a procedure while the bodies of the given forms are being evaluated. -/
def applyProcedure (fuel : Nat) (active : Activations) (procedure : Value) (args : List Value) :
    RunM Value := around (watch active) do
  match ← applyStep procedure args with
  | .value v => return v
  | .tail body env => eval watch fuel active body env

end Watched

/-- The observer does nothing as long as each parameter has the value it should have. -/
def Discreet (watch : Activations → RunM Unit) : Prop :=
  ∀ (active : Activations) (w : World),
    (∀ id default, parameterValue w.dynamic id default = active.value id default) →
      watch active w = .ok () w

open Classical in
/-- The observer that fails as soon as some parameter has another value than it should have. -/
noncomputable def alarm (e : Error) (active : Activations) : RunM Unit := fun w =>
  if ∀ id default, parameterValue w.dynamic id default = active.value id default then .ok () w
  else .error (.error e) w

theorem discreet_alarm (e : Error) : Discreet (alarm e) := fun _ _ h => if_pos h

/-! ## Watching changes nothing -/

/-- The first computation is the second one in worlds with the given stack, which the second
one leaves alone. -/
structure SameOn {α : Type} (dynamic : List (ObjectId × Value)) (x y : RunM α) : Prop where
  same : ∀ w : World, w.dynamic = dynamic → x w = y w
  stays : y.Stays

variable {α β : Type} {dynamic : List (ObjectId × Value)}

theorem SameOn.bind {x y : RunM α} {f g : α → RunM β} (hx : SameOn dynamic x y)
    (hf : ∀ a, SameOn dynamic (f a) (g a)) : SameOn dynamic (x >>= f) (y >>= g) := by
  refine ⟨fun w hw => ?_, hx.stays.bind fun a => (hf a).stays⟩
  have hleaves := World.dynamic_eq (hx.stays w)
  rw [RunM.bind_apply, RunM.bind_apply, hx.same w hw]
  rw [RunM.leaves] at hleaves
  cases hrun : y w with
  | ok a w' =>
      rw [hrun] at hleaves
      exact (hf a).same w' (hleaves.trans hw)
  | error halt w' => rfl

/-- Computations compared on worlds with a given stack. -/
def Congruence.sameOn (dynamic : List (ObjectId × Value)) : Congruence where
  Rel := SameOn dynamic
  basic h := ⟨fun _ _ => rfl, h⟩
  bind := .bind

theorem SameOn.pushing {clauses : List (ObjectId × Value)} {x y : RunM α}
    (h : SameOn (clauses.reverse ++ dynamic) x y) :
    SameOn dynamic (x.pushing clauses) (y.pushing clauses) := by
  refine ⟨fun w hw => ?_, h.stays.pushing clauses⟩
  rw [RunM.pushing_apply, RunM.pushing_apply, RunM.andThen, RunM.andThen,
    h.same _ (congrArg (clauses.reverse ++ ·) hw)]

variable {watch : Activations → RunM Unit}

/-- A discreet observer is not heard of where the stack is that of the activations. -/
theorem SameOn.around (hwatch : Discreet watch) {active : Activations} {x y : RunM α}
    (h : SameOn active.stack x y) : SameOn active.stack (Watched.around (watch active) x) y := by
  have hquiet {w : World} (hw : w.dynamic = active.stack) : watch active w = .ok () w := by
    apply hwatch
    intro id default
    rw [hw, parameterValue_stack]
  refine ⟨fun w hw => ?_, h.stays⟩
  have hafter : (y.leaves w).dynamic = active.stack := (World.dynamic_eq (h.stays w)).trans hw
  rw [RunM.leaves] at hafter
  rw [Watched.around, RunM.bind_apply, hquiet hw]
  change Watched.after (watch active) x w = y w
  rw [Watched.after_apply, h.same w hw]
  cases hrun : y w with
  | ok a w' => rw [hrun] at hafter; simp only [hquiet hafter]
  | error halt w' => rw [hrun] at hafter; simp only [hquiet hafter]

/-- Evaluation with a discreet observer is evaluation. -/
theorem sameOn_watchedEval (hwatch : Discreet watch) (fuel : Nat) :
    ∀ (active : Activations) (code : Code) (env : Env),
      SameOn active.stack (Watched.eval watch fuel active code env) (eval fuel code env) := by
  induction fuel with
  | zero => exact fun _ _ _ => ⟨fun _ _ => rfl, .exhausted⟩
  | succ fuel ih =>
      intro active code env
      -- Only a `parameterize` changes the activations, so it is compared on its own.
      by_cases hcode : ∃ bindings body, code = .parameterize bindings body
      · obtain ⟨bindings, body, rfl⟩ := hcode
        rw [Watched.eval, eval, step_parameterize, bind_assoc]
        refine SameOn.around hwatch ?_
        refine (evalClauses_related (.sameOn active.stack) (ih active) env bindings).bind
          fun clauses => ?_
        have hbody : SameOn active.stack
            ((Watched.eval watch fuel (clauses :: active) body env).pushing clauses)
            ((eval fuel body env).pushing clauses) := (ih (clauses :: active) body env).pushing
        simpa only [bind_assoc, pure_bind, bind_pure] using hbody
      · have hother (bindings : List (Code × Code)) (body : Code) :
            code ≠ .parameterize bindings body := fun h => hcode ⟨bindings, body, h⟩
        rw [Watched.eval_succ_of_ne watch hother]
        have hstep : SameOn active.stack (step (Watched.eval watch fuel active) code env)
            (step (eval fuel) code env) :=
          step_related (.sameOn active.stack) (ih active) code env
            fun bindings body h => (hother bindings body h).elim
        refine SameOn.around hwatch (hstep.bind fun next => ?_)
        cases next with
        | value v => exact ⟨fun _ _ => rfl, .pure v⟩
        | tail code env => exact ih active code env

theorem sameOn_watchedApply (hwatch : Discreet watch) (fuel : Nat) (active : Activations)
    (procedure : Value) (args : List Value) :
    SameOn active.stack (Watched.applyProcedure watch fuel active procedure args)
      (applyProcedure fuel procedure args) := by
  refine SameOn.around hwatch (SameOn.bind ⟨fun _ _ => rfl, applyStep_stays procedure args⟩ ?_)
  intro next
  cases next with
  | value v => exact ⟨fun _ _ => rfl, .pure v⟩
  | tail code env => exact sameOn_watchedEval hwatch fuel active code env

/-! ## Main theorem -/

/-- Dynamic parameters are properly scoped.  A run leaves the stack as it was, whether it ends
with a value, with a failure or by running out of steps.  And at every point of it each
parameter has the value that the innermost form around that point with a clause for it gives
it: an observer that would only act on a wrong value does not change the run.  Every stack is
that of some activations, for instance of one with all its values as clauses. -/
theorem parameters_scoped (fuel : Nat) (w : World) :
    (∀ code env, ((eval fuel code env).leaves w).dynamic = w.dynamic) ∧
    (∀ procedure args, ((applyProcedure fuel procedure args).leaves w).dynamic = w.dynamic) ∧
    ∀ (watch : Activations → RunM Unit) (active : Activations),
      Discreet watch → active.stack = w.dynamic →
        (∀ code env, Watched.eval watch fuel active code env w = eval fuel code env w) ∧
        ∀ procedure args, Watched.applyProcedure watch fuel active procedure args w
          = applyProcedure fuel procedure args w := by
  refine ⟨fun code env => ?_, fun procedure args => ?_, fun watch active hwatch hactive => ?_⟩
  · exact World.dynamic_eq (eval_stays fuel code env w)
  · exact World.dynamic_eq (applyProcedure_stays fuel procedure args w)
  · exact ⟨fun code env => (sameOn_watchedEval hwatch fuel active code env).same w hactive.symm,
      fun procedure args =>
        (sameOn_watchedApply hwatch fuel active procedure args).same w hactive.symm⟩

/-- A parameter with the default 0. -/
private def level : Code := .constant (.procedure 0 (.parameter (.int 0)))

/-- The value of the parameter. -/
private def readLevel : Code := .apply level [] (.ident "level")

/-- `(parameterize ((level 5)) [(level) (parameterize ((level 1) (level (level))) (level))])`: the
second clause for the parameter is the one that counts, and it is evaluated where the first
has not been entered. -/
private def nestedLevels : Code :=
  .parameterize [(level, .constant (.int 5))] <|
    .listLiteral [readLevel,
      .parameterize [(level, .constant (.int 1)), (level, readLevel)] readLevel]

/-- What an observer says of a wrong value. -/
private def wrongLevel : Error := .of (.eval (.beforeInitialization "level"))

theorem nestedLevels_scoped :
    Discreet (alarm wrongLevel) ∧ Activations.stack [] = ({} : World).dynamic ∧
      Watched.eval (alarm wrongLevel) 5 [] nestedLevels ⟨0, none⟩ {}
        = .ok (.list [.int 5, .int 5]) {} := by
  have hdiscreet := discreet_alarm wrongLevel
  have hscoped := (parameters_scoped 5 {}).2.2 (alarm wrongLevel) [] hdiscreet rfl
  exact ⟨hdiscreet, rfl, (hscoped.1 nestedLevels ⟨0, none⟩).trans rfl⟩

end HygienicLisp
