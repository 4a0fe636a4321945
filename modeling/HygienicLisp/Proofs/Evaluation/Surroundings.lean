import HygienicLisp.Eval
import HygienicLisp.Proofs.Cells
import HygienicLisp.Proofs.Namespaces.Growth

/-!
# What evaluation leaves alone

Running code stores values, makes frames and objects, gives names and draws labels.  All the
rest of the world, its `surroundings`, is after a run what it was before, however the run
ends: the cells and kinds of the namespaces, the marks and ribs drawn so far, the modules
being loaded and the values given to parameters (`eval_stays`).

The parameters are the one part that a run changes on its way.  `parameterize` pushes values
and later cuts the stack back to a length that it has remembered; since the body leaves the
stack as it found it, that length is where the pushed values begin (`Stays.pushing`).

Several facts about evaluation compare a step whose subforms are evaluated in one way with
the step whose subforms are evaluated in another.  `Congruence` says what such a comparison
needs: whatever leaves the surroundings alone compares with itself, and sequences compare if
their parts do.  The walk through the forms of code is then made once (`step_related`).
-/

namespace HygienicLisp

/-- A namespace without the values of its definitions. -/
def Namespace.bare (space : Namespace) : Namespace := { space with values := #[] }

/-- What evaluation does not change. -/
def World.surroundings (w : World) : World :=
  { w with spaces := w.spaces.map Namespace.bare, frames := #[], names := #[], nextLabel := 0 }

namespace World

variable {w w' : World}

theorem dynamic_eq (h : w.surroundings = w'.surroundings) : w.dynamic = w'.dynamic := by
  have h := congrArg dynamic h
  exact h

theorem nextRib_eq (h : w.surroundings = w'.surroundings) : w.nextRib = w'.nextRib := by
  have h := congrArg nextRib h
  exact h

theorem cells_eq (h : w.surroundings = w'.surroundings) : w.spaces.cells = w'.spaces.cells := by
  have hbare : w.spaces.map Namespace.bare = w'.spaces.map Namespace.bare := congrArg spaces h
  funext ns
  have hns := congrArg (fun spaces : Spaces => spaces.cells ns) hbare
  simpa [Spaces.cells, Namespace.bare, Function.comp_def] using hns

theorem surroundings_setDynamic (h : w.surroundings = w'.surroundings)
    (dynamic : List (ObjectId × Value)) :
    ({ w with dynamic } : World).surroundings = ({ w' with dynamic } : World).surroundings :=
  congrArg (fun w : World => { w with dynamic }) h

end World

/-- Runs a computation with values given to parameters, as `parameterize` runs its body. -/
def RunM.pushing {α : Type} (clauses : List (ObjectId × Value)) (x : RunM α) : RunM α := do
  let size := (← get).dynamic.length
  modify fun w => { w with dynamic := clauses.reverse ++ w.dynamic }
  x.andThen fun w => { w with dynamic := truncate size w.dynamic }

theorem RunM.pushing_apply {α : Type} (clauses : List (ObjectId × Value)) (x : RunM α) (w : World) :
    x.pushing clauses w
      = x.andThen (fun w' => { w' with dynamic := truncate w.dynamic.length w'.dynamic })
          { w with dynamic := clauses.reverse ++ w.dynamic } := rfl

/-- Whatever the world is, the computation leaves its surroundings as they are. -/
def RunM.Stays {α : Type} (x : RunM α) : Prop :=
  ∀ w, (x.leaves w).surroundings = w.surroundings

namespace RunM.Stays

variable {α β : Type}

theorem pure (a : α) : (pure a : RunM α).Stays := fun _ => rfl

theorem get : (get : RunM World).Stays := fun _ => rfl

theorem getSpaces : getSpaces.Stays := fun _ => rfl

theorem fail (e : Error) : (fail e : RunM α).Stays := fun _ => rfl

theorem exhausted : (exhausted : RunM α).Stays := fun _ => rfl

theorem ofExcept (r : Except Error α) : (ofExcept r).Stays := by
  cases r with
  | ok a => exact pure a
  | error e => exact fail e

theorem modify {f : World → World} (h : ∀ w, (f w).surroundings = w.surroundings) :
    (modify f : RunM PUnit).Stays := h

theorem modifyGet {f : World → α × World} (h : ∀ w, (f w).2.surroundings = w.surroundings) :
    (modifyGet f : RunM α).Stays := h

theorem bind {x : RunM α} {f : α → RunM β} (hx : x.Stays) (hf : ∀ a, (f a).Stays) :
    (x >>= f).Stays :=
  leaves_bind_of_trans (R := fun w w' => w'.surroundings = w.surroundings) (fun h h' => h'.trans h)
    hx hf

theorem mapError {x : RunM α} (hx : x.Stays) (f : Error → Error) : (mapError f x).Stays := by
  intro w
  rw [leaves_mapError]
  exact hx w

theorem ite {c : Prop} [Decidable c] {x y : RunM α} (hx : x.Stays) (hy : y.Stays) :
    (if c then x else y).Stays := by
  split
  · exact hx
  · exact hy

theorem mapM {f : α → RunM β} (hf : ∀ a, (f a).Stays) (items : List α) : (items.mapM f).Stays := by
  induction items with
  | nil => exact pure []
  | cons a rest ih =>
      rw [List.mapM_cons]
      exact (hf a).bind fun _ => ih.bind fun _ => pure _

/-- A computation with values pushed leaves the surroundings alone if it does so itself. -/
theorem pushing {x : RunM α} (hx : x.Stays) (clauses : List (ObjectId × Value)) :
    (x.pushing clauses).Stays := by
  intro w
  -- Whatever world the computation leaves, its stack is the pushed one.
  have hcut {w' : World}
      (h : w'.surroundings = ({ w with dynamic := clauses.reverse ++ w.dynamic } : World).surroundings) :
      ({ w' with dynamic := truncate w.dynamic.length w'.dynamic } : World).surroundings
        = w.surroundings := by
    have hdynamic : w'.dynamic = clauses.reverse ++ w.dynamic := World.dynamic_eq h
    have hlength : (clauses.reverse ++ w.dynamic).length - w.dynamic.length
        = clauses.reverse.length := by
      rw [List.length_append]; omega
    rw [hdynamic, truncate, hlength, List.drop_left]
    exact World.surroundings_setDynamic h w.dynamic
  rw [leaves, pushing_apply, ← leaves, leaves_andThen]
  exact hcut (hx _)

end RunM.Stays

open RunM (Stays)

/-! ## Values, frames and names -/

theorem surroundings_setValue (w : World) (ns : NamespaceId) (address : Nat) (v : Value) :
    ({ w with spaces := w.spaces.setValue ns address v } : World).surroundings
      = w.surroundings := by
  have hspaces : (w.spaces.setValue ns address v).map Namespace.bare
      = w.spaces.map Namespace.bare := by
    apply Array.ext_getElem?
    intro other
    rw [Array.getElem?_map, Array.getElem?_map, Spaces.setValue, Array.getElem?_modify]
    by_cases hsame : ns = other
    · rw [if_pos hsame, Option.map_map]
      rfl
    · rw [if_neg hsame]
  rw [World.surroundings, World.surroundings, hspaces]

theorem setValue_stays (ns : NamespaceId) (address : Nat) (v : Value) :
    (setValue ns address v).Stays :=
  .modify fun w => surroundings_setValue w ns address v

theorem inferName_stays (v : Value) (name : String) : (inferName v name).Stays :=
  .modify fun _ => rfl

theorem newProcedure_stays (name : Option String) (p : Procedure) : (newProcedure name p).Stays :=
  Stays.bind (.modifyGet fun _ => rfl) fun _ => .pure _

theorem newRecord_stays (fields : List (String × Value)) : (newRecord fields).Stays :=
  .modifyGet fun _ => rfl

theorem asTransformer_stays (origin : Syntax) (v : Value) : (asTransformer origin v).Stays := by
  cases v with
  | procedure id p =>
      refine Stays.get.bind fun w => ?_
      exact Stays.bind (.modifyGet fun _ => rfl) fun _ => .pure _
  | transformer | form => exact .pure _
  | _ => exact .fail _

theorem stampSyntax_stays (stx : Syntax) : (stampSyntax stx).Stays := .modifyGet fun _ => rfl

theorem pushFrame_stays (env : Env) (slots : Array (Option Value)) : (pushFrame env slots).Stays :=
  .modifyGet fun _ => rfl

theorem frameAt_stays (env : Env) (depth : Nat) : (frameAt env depth).Stays := by
  refine Stays.get.bind fun w => ?_
  split
  · exact .pure _
  · exact .fail _

theorem getLocal_stays (env : Env) (depth slot : Nat) (name : String) :
    (getLocal env depth slot name).Stays := by
  refine (frameAt_stays env depth).bind fun frame => Stays.get.bind fun w => ?_
  split
  · exact .pure _
  · exact .fail _
  · exact .fail _

theorem setSlot_stays (frame slot : Nat) (v : Value) : (setSlot frame slot v).Stays := by
  refine Stays.get.bind fun w => ?_
  exact Stays.ite (.modify fun _ => rfl) (.fail _)

/-! ## Primitives -/

theorem argument_stays (args : List Value) (position : Nat) : (argument args position).Stays := by
  rw [argument]
  split
  · exact .pure _
  · exact .fail _

theorem wrongType_stays {α : Type} (who expected : String) (position : Nat) (found : Value) :
    (wrongType who expected position found : RunM α).Stays :=
  Stays.get.bind fun _ => .fail _

theorem identifierArgument_stays (args : List Value) (position : Nat) (who : String) :
    (identifierArgument args position who).Stays := by
  refine (argument_stays args position).bind fun v => ?_
  split
  · split
    · exact .pure _
    · exact wrongType_stays _ _ _ _
  · exact wrongType_stays _ _ _ _

theorem syntaxArgument_stays (args : List Value) (position : Nat) (who : String) :
    (syntaxArgument args position who).Stays := by
  refine (argument_stays args position).bind fun v => ?_
  split
  · exact .pure _
  · exact wrongType_stays _ _ _ _

theorem syntaxSubforms_stays (args : List Value) : (syntaxSubforms args).Stays := by
  refine (syntaxArgument_stays args 0 _).bind fun stx => ?_
  split
  · exact wrongType_stays _ _ _ _
  · exact (Stays.mapM stampSyntax_stays _).bind fun _ => .pure _

theorem datumToSyntax_stays (args : List Value) : (datumToSyntax args).Stays := by
  refine (argument_stays args 0).bind fun datum => ?_
  refine Stays.bind ?_ fun context => (Stays.ofExcept _).bind fun stx => ?_
  · unfold contextArgument
    split
    · exact .pure _
    · exact wrongType_stays _ _ _ _
    · exact .pure _
  · exact (stampSyntax_stays stx).bind fun _ => .pure _

theorem call_stays (p : Primitive) (args : List Value) : (p.call args).Stays := by
  refine Stays.get.bind fun w => ?_
  cases p with
  | add | sub | mul | div | less | greater | lessEqual | greaterEqual => exact .ofExcept _
  | equal | list | sexp | void => exact .pure _
  | error => exact .fail _
  | not => exact (argument_stays args 0).bind fun _ => .pure _
  | struct => exact (Stays.ofExcept _).bind fun fields => newRecord_stays fields
  | size | head | tail | isEmpty => exact (argument_stays args 0).bind fun _ => .ofExcept _
  | elt =>
      exact (argument_stays args 0).bind fun _ => (argument_stays args 1).bind fun _ => .ofExcept _
  | isNull | isVoid | isIdentifier =>
      refine (argument_stays args 0).bind fun v => ?_
      split <;> exact .pure _
  | makeParameter => exact (argument_stays args 0).bind fun v => newProcedure_stays none _
  | syntaxSubforms => exact syntaxSubforms_stays args
  | syntaxToDatum =>
      exact (syntaxArgument_stays args 0 _).bind fun stx => Stays.modifyGet fun _ => rfl
  | datumToSyntax => exact datumToSyntax_stays args
  | boundIdentifierEqual | freeIdentifierEqual =>
      refine (identifierArgument_stays args 0 _).bind fun a => ?_
      refine (identifierArgument_stays args 1 _).bind fun b => ?_
      exact Stays.getSpaces.bind fun _ => .pure _

theorem applyStep_stays (procedure : Value) (args : List Value) :
    (applyStep procedure args).Stays := by
  cases procedure with
  | procedure id p =>
      refine Stays.get.bind fun w => (Stays.ofExcept _).bind fun _ => ?_
      cases p with
      | native arity primitive => exact (call_stays primitive args).bind fun _ => .pure _
      | parameter default => exact Stays.get.bind fun _ => .pure _
      | closure required rest body env => exact (pushFrame_stays env _).bind fun _ => .pure _
  | _ => exact Stays.bind (Stays.get.bind fun _ => .pure _) fun _ => .fail _

/-! ## Steps with two ways to evaluate subforms -/

/-- A relation between computations that sequences inherit from their parts, and that a
computation has to itself if it leaves the surroundings alone. -/
structure Congruence where
  Rel : {α : Type} → RunM α → RunM α → Prop
  basic : ∀ {α : Type} {x : RunM α}, x.Stays → Rel x x
  bind : ∀ {α β : Type} {x y : RunM α} {f g : α → RunM β}, Rel x y →
    (∀ a, Rel (f a) (g a)) → Rel (x >>= f) (y >>= g)

theorem step_parameterize (eval : Code → Env → RunM Value) (bindings : List (Code × Code))
    (body : Code) (env : Env) :
    step eval (.parameterize bindings body) env = do
      let clauses ← evalClauses eval env bindings
      let v ← (eval body env).pushing clauses
      return .value v := rfl

section

variable (R : Congruence) {eval eval' : Code → Env → RunM Value}
  (heval : ∀ code env, R.Rel (eval code env) (eval' code env))
include heval

theorem evalAll_related (env : Env) (codes : List Code) :
    R.Rel (evalAll eval env codes) (evalAll eval' env codes) := by
  induction codes with
  | nil => exact R.basic (.pure _)
  | cons code rest ih =>
      exact R.bind (heval code env) fun _ => R.bind ih fun _ => R.basic (.pure _)

theorem evalFields_related (env : Env) (fields : List (String × Code))
    (done : List (String × Value)) :
    R.Rel (evalFields eval env fields done) (evalFields eval' env fields done) := by
  induction fields generalizing done with
  | nil => exact R.basic (.pure _)
  | cons field rest ih => exact R.bind (heval field.2 env) fun _ => ih _

theorem evalInit_related (env : Env) (codes : List Code) :
    R.Rel (evalInit eval env codes) (evalInit eval' env codes) := by
  induction codes with
  | nil => exact R.basic (.pure _)
  | cons code rest ih =>
      cases rest with
      | nil => exact R.basic (.pure _)
      | cons next rest => exact R.bind (heval code env) fun _ => ih

theorem evalSlots_related (env : Env) (frame slot : Nat) (codes : List Code) :
    R.Rel (evalSlots eval env frame slot codes) (evalSlots eval' env frame slot codes) := by
  induction codes generalizing slot with
  | nil => exact R.basic (.pure _)
  | cons code rest ih =>
      exact R.bind (heval code env) fun v =>
        R.bind (R.basic (setSlot_stays frame slot v)) fun _ => ih _

theorem evalClauses_related (env : Env) (bindings : List (Code × Code)) :
    R.Rel (evalClauses eval env bindings) (evalClauses eval' env bindings) := by
  induction bindings with
  | nil => exact R.basic (.pure _)
  | cons binding rest ih =>
      refine R.bind (heval binding.1 env) fun parameter => ?_
      split
      · exact R.bind (heval binding.2 env) fun _ => R.bind ih fun _ => R.basic (.pure _)
      · exact R.basic (.fail _)

/-- Steps compare if the evaluations of subforms do, also of the body of a `parameterize`
with the values of its clauses pushed. -/
theorem step_related (code : Code) (env : Env)
    (hbody : ∀ bindings body, code = .parameterize bindings body → ∀ clauses,
      R.Rel ((eval body env).pushing clauses) ((eval' body env).pushing clauses)) :
    R.Rel (step eval code env) (step eval' code env) := by
  cases code with
  | constant | void => exact R.basic (.pure _)
  | localRef depth slot name =>
      exact R.basic ((getLocal_stays env depth slot name).bind fun _ => .pure _)
  | topRef | importRef =>
      exact R.basic (Stays.getSpaces.bind fun _ => (Stays.ofExcept _).bind fun _ => .pure _)
  | freeRef name origin =>
      refine R.basic (Stays.getSpaces.bind fun spaces => ?_)
      exact ((Stays.ofExcept _).mapError _).bind fun _ => .pure _
  | localSet depth slot value =>
      refine R.bind (heval value env) fun v => R.basic ((frameAt_stays env depth).bind fun frame => ?_)
      exact (setSlot_stays frame slot v).bind fun _ => .pure _
  | topSet address value =>
      exact R.bind (heval value env) fun v =>
        R.basic ((setValue_stays _ address v).bind fun _ => .pure _)
  | define name address value =>
      refine R.bind (heval value env) fun v => R.basic ((inferName_stays v name).bind fun _ => ?_)
      exact (setValue_stays _ address v).bind fun _ => .pure _
  | defineSyntax name address value origin =>
      refine R.bind (heval value env) fun v => R.basic ?_
      refine (asTransformer_stays origin v).bind fun t => (inferName_stays t name).bind fun _ => ?_
      exact (setValue_stays _ address t).bind fun _ => .pure _
  | branch test consequent alternative =>
      exact R.bind (heval test env) fun _ => R.basic (.pure _)
  | sequence forms => exact evalInit_related R heval env forms
  | lambda name required rest body =>
      exact R.basic ((newProcedure_stays name _).bind fun _ => .pure _)
  | letIn inits body =>
      exact R.bind (evalAll_related R heval env inits) fun _ =>
        R.basic ((pushFrame_stays env _).bind fun _ => .pure _)
  -- The frame is pushed first, and the slots are filled while the others are evaluated.
  | letrec inits body =>
      refine R.bind (R.basic (pushFrame_stays env _)) fun inner => ?_
      refine R.bind (R.basic (frameAt_stays inner 0)) fun frame => ?_
      exact R.bind (evalSlots_related R heval inner frame 0 inits) fun _ => R.basic (.pure _)
  | apply operator operands call =>
      refine R.bind (heval operator env) fun procedure => ?_
      exact R.bind (evalAll_related R heval env operands) fun args =>
        R.basic ((applyStep_stays procedure args).mapError _)
  | parameterize bindings body =>
      rw [step_parameterize, step_parameterize]
      refine R.bind (evalClauses_related R heval env bindings) fun clauses => ?_
      exact R.bind (hbody bindings body rfl clauses) fun _ => R.basic (.pure _)
  | listLiteral elements =>
      exact R.bind (evalAll_related R heval env elements) fun _ => R.basic (.pure _)
  | recordLiteral fields =>
      exact R.bind (evalFields_related R heval env fields []) fun fields =>
        R.basic ((newRecord_stays fields).bind fun _ => .pure _)

end

/-! ## Runs -/

/-- The comparison that only asks whether the first computation leaves the surroundings
alone. -/
def Congruence.stays : Congruence where
  Rel x _ := x.Stays
  basic h := h
  bind hx hf := hx.bind hf

/-- Evaluation leaves the surroundings alone, however many steps it may make. -/
theorem eval_stays (fuel : Nat) : ∀ (code : Code) (env : Env), (eval fuel code env).Stays := by
  induction fuel with
  | zero => exact fun _ _ => .exhausted
  | succ fuel ih =>
      intro code env
      have hstep : (step (eval fuel) code env).Stays :=
        @step_related .stays (eval fuel) (eval fuel) ih code env
          fun _ body _ clauses => (ih body env).pushing clauses
      refine hstep.bind fun next => ?_
      cases next with
      | value v => exact .pure v
      | tail code env => exact ih code env

theorem applyProcedure_stays (fuel : Nat) (procedure : Value) (args : List Value) :
    (applyProcedure fuel procedure args).Stays := by
  refine (applyStep_stays procedure args).bind fun next => ?_
  cases next with
  | value v => exact .pure v
  | tail code env => exact eval_stays fuel code env

end HygienicLisp
