import HygienicLisp.Module.Declare

/-!
# Sessions

A runtime holds settings, the kernel and the sources of modules.  Hosts open top-level
sessions on it; each has a namespace of its own and sees the kernel as its language.  A
session is known by its namespace.

Functions that evaluate or expand take the number of steps they may make.
-/

namespace HygienicLisp

/-! ## Runtimes -/

/-- Starts a runtime without modules. -/
def startRuntime (config : Config) : RunM Unit := do
  modify fun w => { w with runtime := { config }, registry := {} }
  let declaration ← buildKernel ⟨config.kernelModule⟩
  let kernel ← installModule declaration
  modify fun w => { w with runtime := { w.runtime with kernel } }

/-- Adds the source of a module, in place of an earlier one. -/
def addSource (path text : String) : RunM ModuleId := do
  let id ← RunM.ofExcept (ModulePath.normalize path none)
  modify fun w =>
    { w with runtime := { w.runtime with sources := (id, text) :: w.runtime.sources } }
  return id

/-- The instance of a module, which is loaded and run on the first request. -/
def instantiate (fuel : Nat) (id : ModuleId) : RunM Instance := (loaderAt fuel).instantiate id

/-- Opens a session. -/
def openSession : RunM NamespaceId := do
  let runtime := (← get).runtime
  let home : ModuleId := ⟨"/" ++ runtime.config.topLevelName ++ "-" ++ toString runtime.sessions⟩
  modify fun w => { w with runtime := { w.runtime with sessions := runtime.sessions + 1 } }
  let ns ← newNamespace home .topLevel
  requireKernel ns
  return ns

/-! ## Evaluation -/

/-- Evaluates forms in order, splicing `begin`: each form has been evaluated before the next
is expanded.  The result is that of the last form, or `result` if there is none. -/
def evalQueue (loader : Loader) (ns : NamespaceId) : Nat → Value → List Syntax → RunM Value
  | 0, _, _ => RunM.exhausted
  | _ + 1, result, [] => return result
  | fuel + 1, result, form :: queue => do
    match ← partialExpand fuel 0 form with
    | .splice forms => evalQueue loader ns fuel result (forms ++ queue)
    | .form form _ =>
      let v ← runForm loader fuel ns .topLevel form
      evalQueue loader ns fuel v queue

/-- Evaluates a form that has the context of the session already. -/
def evalInContext (fuel : Nat) (ns : NamespaceId) (form : Syntax) : RunM Value :=
  evalQueue (loaderAt fuel) ns fuel .void [form]

/-- Evaluates a form in the context of the session. -/
def evalForm (fuel : Nat) (ns : NamespaceId) (form : Syntax) : RunM Value :=
  evalInContext fuel ns (form.introduce ns)

/-- Evaluates forms in order. -/
def evalForms (fuel : Nat) (ns : NamespaceId) : Value → List Syntax → RunM Value
  | result, [] => return result
  | _, form :: rest => do
    let v ← evalForm fuel ns form
    evalForms fuel ns v rest

/-- Reads and evaluates every form of a text. -/
def evalText (fuel : Nat) (ns : NamespaceId) (text : String) : RunM Value :=
  let source : Source := ⟨"<top-level>", text⟩
  RunM.mapError (Error.withSource source) do
    let forms ← RunM.ofExcept source.read
    evalForms fuel ns .void forms

/-- Expands the one form of a text. -/
def expandText (fuel : Nat) (ns : NamespaceId) (text : String) : RunM Syntax := do
  let form ← RunM.ofExcept (readOne text)
  Expansion.expand (loaderAt fuel) ns fuel 0 .topLevel (form.introduce ns)

/-! ## The host's view of a session -/

/-- The value of a name. -/
def lookupName (ns : NamespaceId) (name : String) : RunM Value := do
  RunM.ofExcept ((← getSpaces).lookupName ns name)

/-- Applies the procedure that a name denotes. -/
def callName (fuel : Nat) (ns : NamespaceId) (name : String) (args : List Value) : RunM Value := do
  applyProcedure fuel (← lookupName ns name) args

/-- Imports everything that a module provides. -/
def requireModule (fuel : Nat) (ns : NamespaceId) (path : String) : RunM Unit := do
  let home := ((← getSpaces)[ns]?).map (·.home)
  let id ← resolveModule path home
  let i ← instantiate fuel id
  requireAll ns (fun p => .ok ((Syntax.ident p.name).introduce ns)) false i.provided

end HygienicLisp
