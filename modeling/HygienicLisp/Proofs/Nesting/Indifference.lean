import HygienicLisp.Proofs.Evaluation.Fuel
import HygienicLisp.Session

/-!
# What does not depend on the expansion limit

The limit of the settings is read in one place, where expansion goes one level deeper.  Everything
else runs in the same way whatever the limit is (`Indifferent`): evaluation, the invocation of a
transformer, compilation, the operations on namespaces and on the registry of modules.

An indifferent computation keeps the limit (`Indifferent.keeps_limit`).  Those that take no steps
besides, such as the checks of the shape of a form, are `Basic`.
-/

namespace HygienicLisp

/-- The world with another limit of expansion. -/
def World.withLimit (limit : Option Nat) (w : World) : World :=
  { w with
    runtime := { w.runtime with config := { w.runtime.config with maxExpansionDepth := limit } } }

/-- The limit of expansion. -/
def World.limit (w : World) : Option Nat := w.runtime.config.maxExpansionDepth

/-- The run with its last world changed. -/
def mapWorld {α : Type} (f : World → World) :
    EStateM.Result Halt World α → EStateM.Result Halt World α
  | .ok a w => .ok a (f w)
  | .error halt w => .error halt (f w)

/-- The computation runs in the same way under every limit of expansion. -/
def Indifferent {α : Type} (x : RunM α) : Prop :=
  ∀ w limit, x (w.withLimit limit) = mapWorld (World.withLimit limit) (x w)

namespace Indifferent

variable {α β : Type}

theorem pure (a : α) : Indifferent (pure a : RunM α) := fun _ _ => rfl

theorem fail (e : Error) : Indifferent (RunM.fail e : RunM α) := fun _ _ => rfl

theorem failAt (stx : Syntax) (fault : SyntaxFault) : Indifferent (RunM.failAt stx fault : RunM α) :=
  fun _ _ => rfl

theorem exhausted : Indifferent (RunM.exhausted : RunM α) := fun _ _ => rfl

theorem getSpaces : Indifferent getSpaces := fun _ _ => rfl

theorem ofExcept (r : Except Error α) : Indifferent (RunM.ofExcept r) := by
  cases r with
  | ok a => exact pure a
  | error e => exact fail e

theorem modify {f : World → World} (h : ∀ w limit, f (w.withLimit limit) = (f w).withLimit limit) :
    Indifferent (modify f : RunM PUnit) := by
  intro w limit
  rw [RunM.modify_apply, RunM.modify_apply, h]
  rfl

theorem modifyGet {f : World → α × World}
    (h : ∀ w limit, f (w.withLimit limit) = ((f w).1, (f w).2.withLimit limit)) :
    Indifferent (modifyGet f : RunM α) := by
  intro w limit
  change (EStateM.Result.ok _ _ : EStateM.Result Halt World α) = _
  rw [h]
  rfl

theorem bind {x : RunM α} {f : α → RunM β} (hx : Indifferent x) (hf : ∀ a, Indifferent (f a)) :
    Indifferent (x >>= f) := by
  intro w limit
  rw [RunM.bind_apply, RunM.bind_apply, hx w limit]
  cases x w with
  | ok a w' => exact hf a w' limit
  | error halt w' => rfl

/-- Reading the world, all but the limit. -/
theorem get_bind {f : World → RunM β} (h : ∀ w limit, f (w.withLimit limit) = f w)
    (hf : ∀ w, Indifferent (f w)) : Indifferent (get >>= f) := by
  intro w limit
  rw [RunM.bind_apply, RunM.bind_apply]
  change f (w.withLimit limit) (w.withLimit limit) = mapWorld _ (f w w)
  rw [h, hf w w limit]

theorem mapError {x : RunM α} (hx : Indifferent x) (f : Error → Error) :
    Indifferent (RunM.mapError f x) := by
  intro w limit
  rw [RunM.mapError, RunM.mapError, hx w limit]
  cases x w with
  | ok a w' => rfl
  | error halt w' => cases halt <;> rfl

theorem andThen {x : RunM α} {leave : World → World} (hx : Indifferent x)
    (hleave : ∀ w limit, leave (w.withLimit limit) = (leave w).withLimit limit) :
    Indifferent (x.andThen leave) := by
  intro w limit
  rw [RunM.andThen, RunM.andThen, hx w limit]
  cases x w with
  | ok a w' => exact congrArg (EStateM.Result.ok a) (hleave w' limit)
  | error halt w' => exact congrArg (EStateM.Result.error halt) (hleave w' limit)

theorem ite {c : Prop} [Decidable c] {x y : RunM α} (hx : Indifferent x) (hy : Indifferent y) :
    Indifferent (if c then x else y) := by
  split
  · exact hx
  · exact hy

theorem mapM {f : α → RunM β} (hf : ∀ a, Indifferent (f a)) (items : List α) :
    Indifferent (items.mapM f) := by
  induction items with
  | nil => exact pure []
  | cons a rest ih =>
      rw [List.mapM_cons]
      exact (hf a).bind fun _ => ih.bind fun _ => pure _

theorem runEach {f : α → RunM Unit} (hf : ∀ a, Indifferent (f a)) (items : List α) :
    Indifferent (runEach f items) := by
  induction items with
  | nil => exact pure ()
  | cons a rest ih => exact (hf a).bind fun _ => ih

theorem pushing {x : RunM α} (hx : Indifferent x) (clauses : List (ObjectId × Value)) :
    Indifferent (x.pushing clauses) :=
  get_bind (fun _ _ => rfl) fun _ => (modify fun _ _ => rfl).bind fun _ => hx.andThen fun _ _ => rfl

/-- An indifferent computation keeps the limit: it would do the same under the limit that it leaves. -/
theorem keeps_limit {x : RunM α} (hx : Indifferent x) (w : World) :
    (x.leaves w).limit = w.limit := by
  have hsame : w.withLimit w.limit = w := rfl
  have hrun := hx w w.limit
  rw [hsame] at hrun
  rw [RunM.leaves]
  cases hx : x w with
  | ok a w' =>
      rw [hx] at hrun
      rw [EStateM.Result.ok.inj hrun |>.2]
      rfl
  | error halt w' =>
      rw [hx] at hrun
      rw [EStateM.Result.error.inj hrun |>.2]
      rfl

theorem limit_of_ok {x : RunM α} (hx : Indifferent x) {w w' : World} {a : α}
    (h : x w = .ok a w') : w'.limit = w.limit := by
  have hkeeps := hx.keeps_limit w
  rwa [RunM.leaves, h] at hkeeps

end Indifferent

theorem World.limit_leave {leave : World → World}
    (hleave : ∀ w limit, leave (w.withLimit limit) = (leave w).withLimit limit) (w : World) :
    (leave w).limit = w.limit := by
  have hsame : leave w = (leave w).withLimit w.limit := hleave w w.limit
  rw [hsame]
  rfl

/-! ## Values, frames and names -/

namespace Indifferent

theorem freshObject (name : Option String) : Indifferent (freshObject name) :=
  modifyGet fun _ _ => rfl

theorem stampSyntax (stx : Syntax) : Indifferent (stampSyntax stx) := modifyGet fun _ _ => rfl

theorem newRecord (fields : List (String × Value)) : Indifferent (newRecord fields) :=
  modifyGet fun _ _ => rfl

theorem newProcedure (name : Option String) (p : Procedure) : Indifferent (newProcedure name p) :=
  (freshObject name).bind fun _ => pure _

theorem asTransformer (origin : Syntax) (v : Value) : Indifferent (asTransformer origin v) := by
  cases v with
  | procedure id p =>
      exact get_bind (fun _ _ => rfl) fun _ => (freshObject _).bind fun _ => pure _
  | transformer | form => exact pure _
  | _ => exact fail _

theorem pushFrame (env : Env) (slots : Array (Option Value)) : Indifferent (pushFrame env slots) :=
  modifyGet fun _ _ => rfl

theorem frameAt (env : Env) (depth : Nat) : Indifferent (frameAt env depth) := by
  refine get_bind (fun _ _ => rfl) fun w => ?_
  split
  · exact pure _
  · exact fail _

theorem getLocal (env : Env) (depth slot : Nat) (name : String) :
    Indifferent (getLocal env depth slot name) := by
  refine (frameAt env depth).bind fun frame => get_bind (fun _ _ => rfl) fun w => ?_
  split
  · exact pure _
  · exact fail _
  · exact fail _

theorem setSlot (frame slot : Nat) (v : Value) : Indifferent (setSlot frame slot v) :=
  get_bind (fun _ _ => rfl) fun _ => ite (modify fun _ _ => rfl) (fail _)

theorem setValue (ns : NamespaceId) (address : Nat) (v : Value) :
    Indifferent (setValue ns address v) :=
  modify fun _ _ => rfl

theorem inferName (v : Value) (name : String) : Indifferent (inferName v name) :=
  modify fun _ _ => rfl

end Indifferent

/-! ## Primitives -/

namespace Indifferent

theorem argument (args : List Value) (position : Nat) : Indifferent (argument args position) := by
  rw [HygienicLisp.argument]
  split
  · exact pure _
  · exact fail _

theorem wrongType {α : Type} (who expected : String) (position : Nat) (found : Value) :
    Indifferent (wrongType who expected position found : RunM α) :=
  get_bind (fun _ _ => rfl) fun _ => fail _

theorem identifierArgument (args : List Value) (position : Nat) (who : String) :
    Indifferent (identifierArgument args position who) := by
  refine (argument args position).bind fun v => ?_
  split
  · exact ite (pure _) (wrongType _ _ _ _)
  · exact wrongType _ _ _ _

theorem syntaxArgument (args : List Value) (position : Nat) (who : String) :
    Indifferent (syntaxArgument args position who) := by
  refine (argument args position).bind fun v => ?_
  split
  · exact pure _
  · exact wrongType _ _ _ _

theorem syntaxSubforms (args : List Value) : Indifferent (syntaxSubforms args) := by
  refine (syntaxArgument args 0 _).bind fun stx => ?_
  split
  · exact wrongType _ _ _ _
  · exact (mapM stampSyntax _).bind fun _ => pure _

theorem datumToSyntax (args : List Value) : Indifferent (datumToSyntax args) := by
  refine (argument args 0).bind fun datum => ?_
  refine Indifferent.bind ?_ fun context => (ofExcept _).bind fun stx => ?_
  · unfold contextArgument
    split
    · exact pure _
    · exact wrongType _ _ _ _
    · exact pure _
  · exact (stampSyntax stx).bind fun _ => pure _

theorem call (p : Primitive) (args : List Value) : Indifferent (p.call args) := by
  refine get_bind (fun _ _ => rfl) fun w => ?_
  cases p with
  | add | sub | mul | div | less | greater | lessEqual | greaterEqual => exact ofExcept _
  | equal | list | sexp | void => exact pure _
  | error => exact fail _
  | not => exact (argument args 0).bind fun _ => pure _
  | struct => exact (ofExcept _).bind fun fields => newRecord fields
  | size | head | tail | isEmpty => exact (argument args 0).bind fun _ => ofExcept _
  | elt => exact (argument args 0).bind fun _ => (argument args 1).bind fun _ => ofExcept _
  | isNull | isVoid | isIdentifier =>
      refine (argument args 0).bind fun v => ?_
      split <;> exact pure _
  | makeParameter => exact (argument args 0).bind fun v => newProcedure none _
  | syntaxSubforms => exact syntaxSubforms args
  | syntaxToDatum =>
      exact (syntaxArgument args 0 _).bind fun stx => modifyGet fun _ _ => rfl
  | datumToSyntax => exact datumToSyntax args
  | boundIdentifierEqual | freeIdentifierEqual =>
      refine (identifierArgument args 0 _).bind fun a => ?_
      refine (identifierArgument args 1 _).bind fun b => ?_
      exact getSpaces.bind fun _ => pure _

theorem applyStep (procedure : Value) (args : List Value) :
    Indifferent (applyStep procedure args) := by
  cases procedure with
  | procedure id p =>
      refine get_bind (fun _ _ => rfl) fun w => (ofExcept _).bind fun _ => ?_
      cases p with
      | native arity primitive => exact (call primitive args).bind fun _ => pure _
      | parameter default => exact get_bind (fun _ _ => rfl) fun _ => pure _
      | closure required rest body env => exact (pushFrame env _).bind fun _ => pure _
  | _ => exact Indifferent.bind (get_bind (fun _ _ => rfl) fun _ => pure _) fun _ => fail _

end Indifferent

/-! ## Evaluation -/

namespace Indifferent

section

variable {eval : Code → Env → RunM Value} (heval : ∀ code env, Indifferent (eval code env))
include heval

theorem evalAll (env : Env) (codes : List Code) : Indifferent (evalAll eval env codes) := by
  induction codes with
  | nil => exact pure _
  | cons code rest ih => exact (heval code env).bind fun _ => ih.bind fun _ => pure _

theorem evalFields (env : Env) (fields : List (String × Code)) (done : List (String × Value)) :
    Indifferent (evalFields eval env fields done) := by
  induction fields generalizing done with
  | nil => exact pure _
  | cons field rest ih => exact (heval field.2 env).bind fun _ => ih _

theorem evalInit (env : Env) (codes : List Code) : Indifferent (evalInit eval env codes) := by
  induction codes with
  | nil => exact pure _
  | cons code rest ih =>
      cases rest with
      | nil => exact pure _
      | cons next rest => exact (heval code env).bind fun _ => ih

theorem evalSlots (env : Env) (frame slot : Nat) (codes : List Code) :
    Indifferent (evalSlots eval env frame slot codes) := by
  induction codes generalizing slot with
  | nil => exact pure _
  | cons code rest ih =>
      exact (heval code env).bind fun v => (setSlot frame slot v).bind fun _ => ih _

theorem evalClauses (env : Env) (bindings : List (Code × Code)) :
    Indifferent (evalClauses eval env bindings) := by
  induction bindings with
  | nil => exact pure _
  | cons binding rest ih =>
      refine (heval binding.1 env).bind fun parameter => ?_
      split
      · exact (heval binding.2 env).bind fun _ => ih.bind fun _ => pure _
      · exact fail _

/-- One case for each kind of code. -/
theorem step (code : Code) (env : Env) : Indifferent (step eval code env) := by
  cases code with
  | constant | void => exact pure _
  | localRef depth slot name => exact (getLocal env depth slot name).bind fun _ => pure _
  | topRef | importRef => exact getSpaces.bind fun _ => (ofExcept _).bind fun _ => pure _
  | freeRef name origin =>
      exact getSpaces.bind fun spaces => ((ofExcept _).mapError _).bind fun _ => pure _
  | localSet depth slot value =>
      refine (heval value env).bind fun v => (frameAt env depth).bind fun frame => ?_
      exact (setSlot frame slot v).bind fun _ => pure _
  | topSet address value =>
      exact (heval value env).bind fun v => (setValue _ address v).bind fun _ => pure _
  | define name address value =>
      refine (heval value env).bind fun v => (inferName v name).bind fun _ => ?_
      exact (setValue _ address v).bind fun _ => pure _
  | defineSyntax name address value origin =>
      refine (heval value env).bind fun v => (asTransformer origin v).bind fun t => ?_
      exact (inferName t name).bind fun _ => (setValue _ address t).bind fun _ => pure _
  | branch test consequent alternative => exact (heval test env).bind fun _ => pure _
  | sequence forms => exact evalInit heval env forms
  | lambda name required rest body => exact (newProcedure name _).bind fun _ => pure _
  | letIn inits body =>
      exact (evalAll heval env inits).bind fun _ => (pushFrame env _).bind fun _ => pure _
  | letrec inits body =>
      refine (pushFrame env _).bind fun inner => (frameAt inner 0).bind fun frame => ?_
      exact (evalSlots heval inner frame 0 inits).bind fun _ => pure _
  | apply operator operands call =>
      refine (heval operator env).bind fun procedure => ?_
      exact (evalAll heval env operands).bind fun args => (applyStep procedure args).mapError _
  | parameterize bindings body =>
      rw [step_parameterize]
      refine (evalClauses heval env bindings).bind fun clauses => ?_
      exact ((heval body env).pushing clauses).bind fun _ => pure _
  | listLiteral elements => exact (evalAll heval env elements).bind fun _ => pure _
  | recordLiteral fields =>
      exact (evalFields heval env fields []).bind fun fields =>
        (newRecord fields).bind fun _ => pure _

end

theorem eval (fuel : Nat) : ∀ (code : Code) (env : Env), Indifferent (eval fuel code env) := by
  induction fuel with
  | zero => exact fun _ _ => exhausted
  | succ fuel ih =>
      intro code env
      refine (step ih code env).bind fun next => ?_
      cases next with
      | value v => exact pure v
      | tail code env => exact ih code env

theorem applyProcedure (fuel : Nat) (procedure : Value) (args : List Value) :
    Indifferent (applyProcedure fuel procedure args) := by
  refine (applyStep procedure args).bind fun next => ?_
  cases next with
  | value v => exact pure v
  | tail code env => exact eval fuel code env

theorem invoke (fuel : Nat) (id procedureId : ObjectId) (p : Procedure) (form : Syntax) :
    Indifferent (invoke fuel id procedureId p form) := by
  refine Indifferent.bind (modifyGet fun _ _ => rfl) fun mark => get_bind (fun _ _ => rfl) fun w => ?_
  refine (stampSyntax _).bind fun input => ((applyProcedure _ _ _).mapError _).bind fun output => ?_
  split
  · exact pure _
  · exact failAt _ _

end Indifferent

/-! ## Compilation -/

namespace Indifferent

open Compile

theorem depthOf (scopes : Scopes) (rib : RibId) (stx : Syntax) :
    Indifferent (depthOf scopes rib stx) := by
  unfold Compile.depthOf
  split
  · exact pure _
  · exact failAt _ _

theorem operand (form : Syntax) (parts : List Syntax) (position : Nat) :
    Indifferent (operand form parts position) := by
  unfold Compile.operand
  split
  · exact pure _
  · exact failAt _ _

theorem importId (ns : NamespaceId) (d : Definition) : Indifferent (importId ns d) :=
  getSpaces.bind fun _ => (ofExcept _).bind fun _ => (modify fun _ _ => rfl).bind fun _ => pure _

theorem definitionRef (ns : NamespaceId) (d : Definition) (name : String) :
    Indifferent (definitionRef ns d name) :=
  ite (pure _) ((importId ns d).bind fun _ => pure _)

theorem reference (ns : NamespaceId) (scopes : Scopes) (stx : Syntax) (name : String) :
    Indifferent (reference ns scopes stx name) := by
  refine getSpaces.bind fun spaces => ?_
  split
  · split
    · exact ite (pure _) (fail _)
    · exact fail _
  · exact (depthOf _ _ _).bind fun _ => pure _
  · exact definitionRef _ _ _
  · exact definitionRef _ _ _

theorem definedAddress (ns : NamespaceId) (stx : Syntax) : Indifferent (definedAddress ns stx) := by
  refine getSpaces.bind fun spaces => ?_
  split
  · exact ite (pure _) (failAt _ _)
  · exact failAt _ _

theorem enterScope (scopes : Scopes) (binders : List Syntax) :
    Indifferent (enterScope scopes binders) := by
  unfold Compile.enterScope
  split
  · exact pure _
  · refine getSpaces.bind fun spaces => ?_
    split
    · exact pure _
    · exact failAt _ _

theorem clauses (fault : SyntaxFault) (items : List Syntax) :
    Indifferent (clauses fault items) := by
  induction items with
  | nil => exact pure _
  | cons clause rest ih =>
      rw [Compile.clauses]
      split
      · exact ih.bind fun _ => pure _
      · exact failAt _ _

section

variable {ns : NamespaceId} {compile : Scopes → Syntax → RunM Code}
  (hcompile : ∀ scopes stx, Indifferent (compile scopes stx))
include hcompile

theorem all (scopes : Scopes) (forms : List Syntax) : Indifferent (all compile scopes forms) := by
  induction forms with
  | nil => exact pure _
  | cons stx rest ih => exact (hcompile scopes stx).bind fun _ => ih.bind fun _ => pure _

theorem fields (scopes : Scopes) (items : List (String × Syntax)) :
    Indifferent (fields compile scopes items) := by
  induction items with
  | nil => exact pure _
  | cons field rest ih => exact (hcompile scopes field.2).bind fun _ => ih.bind fun _ => pure _

theorem pairs (scopes : Scopes) (items : List Syntax) : Indifferent (pairs compile scopes items) := by
  induction items with
  | nil => exact pure _
  | cons clause rest ih =>
      rw [Compile.pairs]
      split
      · refine (hcompile scopes _).bind fun _ => (hcompile scopes _).bind fun _ => ?_
        exact ih.bind fun _ => pure _
      · exact failAt _ _

theorem body (scopes : Scopes) (forms : List Syntax) : Indifferent (body compile scopes forms) := by
  unfold Compile.body
  split
  · exact pure _
  · exact hcompile _ _
  · exact (all hcompile scopes _).bind fun _ => pure _

theorem lambdaCode (scopes : Scopes) (form : Syntax) (parts : List Syntax) (name : Option String) :
    Indifferent (Compile.lambda compile scopes form parts name) := by
  refine (operand form parts 1).bind fun formals => (enterScope scopes _).bind fun inner => ?_
  exact (body hcompile inner _).bind fun _ => pure _

theorem binding (scopes : Scopes) (form : Syntax) (parts : List Syntax) (recursive : Bool) :
    Indifferent (binding compile scopes form parts recursive) := by
  refine (operand form parts 1).bind fun _ => (clauses _ _).bind fun pairs => ite ?_ ?_
  · refine (enterScope scopes _).bind fun inner => (all hcompile inner _).bind fun inits => ?_
    exact (body hcompile inner _).bind fun _ => pure _
  · refine (all hcompile scopes _).bind fun inits => (enterScope scopes _).bind fun inner => ?_
    exact (body hcompile inner _).bind fun _ => pure _

theorem assignment (scopes : Scopes) (form : Syntax) (parts : List Syntax) :
    Indifferent (assignment ns compile scopes form parts) := by
  refine (operand form parts 1).bind fun target => (operand form parts 2).bind fun value => ?_
  refine (hcompile scopes value).bind fun code => ?_
  split
  · exact failAt _ _
  · refine getSpaces.bind fun spaces => ?_
    split
    · exact (depthOf _ _ _).bind fun _ => pure _
    · exact ite (pure _) (fail _)
    · exact fail _
    · exact fail _

theorem definition (scopes : Scopes) (form : Syntax) (parts : List Syntax) :
    Indifferent (definition ns compile scopes form parts) := by
  refine (operand form parts 1).bind fun target => (definedAddress ns target).bind fun found => ?_
  refine (operand form parts 2).bind fun value => getSpaces.bind fun spaces => ?_
  split
  · exact (lambdaCode hcompile _ _ _ _).bind fun _ => pure _
  · exact (hcompile _ _).bind fun _ => pure _

/-- One case for each core form. -/
theorem coreCode (scopes : Scopes) (f : CoreForm) (form : Syntax) (parts : List Syntax) :
    Indifferent (Compile.core ns compile scopes f form parts) := by
  cases f with
  | quote => exact (operand _ _ _).bind fun _ => Indifferent.bind (modifyGet fun _ _ => rfl) fun _ => pure _
  | quoteSyntax => exact (operand _ _ _).bind fun _ => (stampSyntax _).bind fun _ => pure _
  | ifForm =>
      refine (operand _ _ _).bind fun _ => (hcompile _ _).bind fun _ => ?_
      refine (operand _ _ _).bind fun _ => (hcompile _ _).bind fun _ => ?_
      exact (operand _ _ _).bind fun _ => (hcompile _ _).bind fun _ => pure _
  | begin => exact body hcompile _ _
  | lambda => exact lambdaCode hcompile _ _ _ _
  | letForm | letrec => exact binding hcompile _ _ _ _
  | set => exact assignment hcompile _ _ _
  | define => exact definition hcompile _ _ _
  | defineSyntax =>
      refine (operand _ _ _).bind fun _ => (definedAddress _ _).bind fun found => ?_
      exact (operand _ _ _).bind fun _ => (hcompile _ _).bind fun _ => pure _
  | parameterize =>
      refine (operand _ _ _).bind fun _ => (pairs hcompile _ _).bind fun _ => ?_
      exact (body hcompile _ _).bind fun _ => pure _
  | moduleForm | require | provide => exact pure _

theorem form (scopes : Scopes) (stx : Syntax) :
    Indifferent (form ns compile scopes stx) := by
  unfold Compile.form
  split
  · exact reference _ _ _ _
  · exact pure _
  · exact (all hcompile _ _).bind fun _ => pure _
  · exact (fields hcompile _ _).bind fun _ => pure _
  · split
    · exact failAt _ _
    · refine getSpaces.bind fun spaces => ?_
      split
      · exact coreCode hcompile _ _ _ _
      · exact (hcompile _ _).bind fun _ => (all hcompile _ _).bind fun _ => pure _

end

theorem compileAt (ns : NamespaceId) (fuel : Nat) :
    ∀ (scopes : Scopes) (stx : Syntax), Indifferent (compileAt ns fuel scopes stx) := by
  induction fuel with
  | zero => exact fun _ _ => exhausted
  | succ fuel ih => exact fun scopes stx => form ih scopes stx

theorem compile (ns : NamespaceId) (stx : Syntax) : Indifferent (compile ns stx) :=
  compileAt ns _ _ _

end Indifferent

theorem Indifferent.newNamespace (home : ModuleId) (kind : NamespaceKind) :
    Indifferent (newNamespace home kind) :=
  modifyGet fun _ _ => rfl

theorem Indifferent.runBody (fuel : Nat) (d : Declaration) : Indifferent (runBody fuel d) := by
  refine get_bind (fun _ _ => rfl) fun _ => (modify fun _ _ => rfl).bind fun _ => ?_
  refine andThen (runEach (fun code => ?_) d.body) fun _ _ => rfl
  exact (eval fuel code _).bind fun _ => pure _

/-! ## Computations without steps -/

/-- The computation is indifferent and comes to an end of its own, for it takes no steps. -/
structure Basic {α : Type} (x : RunM α) : Prop where
  indifferent : Indifferent x
  finished : ∀ w, Finished (x w)

namespace Basic

variable {α β : Type}

theorem pure (a : α) : Basic (pure a : RunM α) := ⟨.pure a, fun _ => trivial⟩

theorem fail (e : Error) : Basic (RunM.fail e : RunM α) := ⟨.fail e, fun _ => trivial⟩

theorem failAt (stx : Syntax) (fault : SyntaxFault) : Basic (RunM.failAt stx fault : RunM α) :=
  ⟨.failAt stx fault, fun _ => trivial⟩

theorem getSpaces : Basic getSpaces := ⟨.getSpaces, fun _ => trivial⟩

theorem ofExcept (r : Except Error α) : Basic (RunM.ofExcept r) := by
  cases r with
  | ok a => exact pure a
  | error e => exact fail e

theorem modify {f : World → World} (h : ∀ w limit, f (w.withLimit limit) = (f w).withLimit limit) :
    Basic (modify f : RunM PUnit) :=
  ⟨.modify h, fun _ => trivial⟩

theorem modifyGet {f : World → α × World}
    (h : ∀ w limit, f (w.withLimit limit) = ((f w).1, (f w).2.withLimit limit)) :
    Basic (modifyGet f : RunM α) :=
  ⟨.modifyGet h, fun _ => trivial⟩

theorem bind {x : RunM α} {f : α → RunM β} (hx : Basic x) (hf : ∀ a, Basic (f a)) :
    Basic (x >>= f) := by
  refine ⟨hx.indifferent.bind fun a => (hf a).indifferent, fun w => ?_⟩
  have hfinished := hx.finished w
  rw [RunM.bind_apply]
  cases hrun : x w with
  | ok a w' => exact (hf a).finished w'
  | error halt w' =>
      rw [hrun] at hfinished
      cases halt with
      | error e => trivial
      | outOfFuel => exact hfinished.elim

theorem get_bind {f : World → RunM β} (h : ∀ w limit, f (w.withLimit limit) = f w)
    (hf : ∀ w, Basic (f w)) : Basic (get >>= f) :=
  ⟨.get_bind h fun w => (hf w).indifferent, fun w => (hf w).finished w⟩

theorem ite {c : Prop} [Decidable c] {x y : RunM α} (hx : Basic x) (hy : Basic y) :
    Basic (if c then x else y) := by
  split
  · exact hx
  · exact hy

theorem runEach {f : α → RunM Unit} (hf : ∀ a, Basic (f a)) (items : List α) :
    Basic (runEach f items) := by
  induction items with
  | nil => exact pure ()
  | cons a rest ih => exact (hf a).bind fun _ => ih

end Basic

/-! ## Namespaces and modules -/

namespace Basic

theorem newRib (binders : List Syntax) : Basic (newRib binders) :=
  Basic.bind (modifyGet fun _ _ => rfl) fun _ => getSpaces.bind fun _ => ofExcept _

theorem predefine (ns : NamespaceId) (stx : Syntax) : Basic (predefine ns stx) :=
  getSpaces.bind fun _ => (ofExcept _).bind fun _ => (modify fun _ _ => rfl).bind fun _ => pure _

theorem require (ns : NamespaceId) (stx : Syntax) (provided : Provided) (shadowable : Bool) :
    Basic (require ns stx provided shadowable) :=
  getSpaces.bind fun _ => (ofExcept _).bind fun _ => modify fun _ _ => rfl

theorem requireAll (ns : NamespaceId) (identifier : Provided → Except Error Syntax)
    (shadowable : Bool) (provided : List Provided) :
    Basic (requireAll ns identifier shadowable provided) := by
  induction provided with
  | nil => exact pure ()
  | cons p rest ih => exact (ofExcept _).bind fun stx => (require ns stx p shadowable).bind fun _ => ih

theorem requireKernel (ns : NamespaceId) : Basic (requireKernel ns) :=
  get_bind (fun _ _ => rfl) fun _ => requireAll _ _ _ _

theorem resolveModule (path : String) (requester : Option ModuleId) :
    Basic (resolveModule path requester) :=
  get_bind (fun _ _ => rfl) fun _ => ite (pure _) (ofExcept _)

theorem kernelIdentifier (name : String) (site : Syntax) :
    Basic (kernelIdentifier name site) :=
  get_bind (fun _ _ => rfl) fun _ => pure _

theorem updateRegistry (f : Registry → Except Error Registry) : Basic (updateRegistry f) :=
  get_bind (fun _ _ => rfl) fun _ => (ofExcept _).bind fun _ => modify fun _ _ => rfl

end Basic

/-! ## Shapes of core forms -/

namespace Basic

open Expansion

theorem expectCount (form : Syntax) (parts : List Syntax) (count : Nat) (expected : Operands) :
    Basic (expectCount form parts count expected) :=
  ite (pure _) (failAt _ _)

theorem expectBody (form : Syntax) (parts : List Syntax) (first : Nat) :
    Basic (expectBody form parts first) :=
  ite (pure _) (failAt _ _)

theorem expectDefinitions (form : Syntax) (context : ExpandContext) (what : String) :
    Basic (expectDefinitions form context what) :=
  ite (pure _) (failAt _ _)

theorem parseClauses (items : List Syntax) : Basic (parseClauses items) := by
  induction items with
  | nil => exact pure _
  | cons clause rest ih =>
      rw [Expansion.parseClauses]
      split
      · exact ite (ih.bind fun _ => pure _) (failAt _ _)
      · exact failAt _ _

theorem bindingClauses (clauses : Syntax) : Basic (bindingClauses clauses) := by
  unfold Expansion.bindingClauses
  split
  · exact failAt _ _
  · exact parseClauses _

theorem procedureParts (form signature : Syntax) (body : List Syntax) :
    Basic (procedureParts form signature body) := by
  refine ite ?_ (failAt _ _)
  split
  · exact failAt _ _
  · refine ite ((failAt _ _).bind fun _ => ?_) ?_
    all_goals exact (kernelIdentifier _ _).bind fun _ => pure _

theorem definitionParts (form : Syntax) (parts : List Syntax) :
    Basic (definitionParts form parts) := by
  unfold Expansion.definitionParts
  split
  · exact ite (pure _) (procedureParts _ _ _)
  · exact ite (pure _) (procedureParts _ _ _)
  · exact procedureParts _ _ _
  · exact failAt _ _

theorem predefineForm (ns : NamespaceId) (form : Syntax) :
    Basic (predefineForm ns form) := by
  refine (definitionParts _ _).bind fun found => ite ((failAt _ _).bind fun _ => ?_) ?_
  all_goals exact (predefine ns _).bind fun _ => pure _

theorem modulePath (spec : Syntax) : Basic (modulePath spec) := by
  unfold Expansion.modulePath
  split
  · exact pure _
  · exact pure _
  · exact failAt _ _

theorem requireOnly (ns : NamespaceId) (i : Instance) (items : List Syntax) :
    Basic (requireOnly ns i items) := by
  induction items with
  | nil => exact pure ()
  | cons stx rest ih =>
      refine ite ((failAt _ _).bind fun _ => ?_) ?_
      all_goals exact (ofExcept _).bind fun p => (require ns stx p false).bind fun _ => ih

theorem requireRenamed (ns : NamespaceId) (i : Instance) (items : List Syntax) :
    Basic (requireRenamed ns i items) := by
  induction items with
  | nil => exact pure ()
  | cons pair rest ih =>
      rw [Expansion.requireRenamed]
      split
      · refine ite ((failAt _ _).bind fun _ => ?_) ?_
        all_goals exact (ofExcept _).bind fun p => (require ns _ p false).bind fun _ => ih
      · exact failAt _ _

theorem recordProvided (p : Provided) : Basic (recordProvided p) := modify fun _ _ => rfl

theorem provideSpec (ns : NamespaceId) (spec : Syntax) : Basic (provideSpec ns spec) := by
  refine getSpaces.bind fun spaces => ?_
  split
  · split
    · exact recordProvided _
    · exact fail _
  · split
    · exact ite (runEach (fun _ => recordProvided _) _) (failAt _ _)
    · exact failAt _ _

end Basic

end HygienicLisp
