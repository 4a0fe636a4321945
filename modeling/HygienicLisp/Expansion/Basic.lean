import HygienicLisp.Eval
import HygienicLisp.Head
import HygienicLisp.Module.Path

/-!
# Expansion: contexts and transformers

Each invocation of a transformer draws a fresh mark, puts it on the input and again on the
output.  What came from the input carries the mark twice, which cancels; what the transformer
added carries it once and stays apart from everything the caller wrote.
-/

namespace HygienicLisp

/-- Where a form is expanded. -/
inductive ExpandContext where
  | topLevel
  | moduleBody
  | expression
  deriving DecidableEq, Repr, Inhabited

/-- Whether definitions are allowed. -/
def ExpandContext.allowsDefinitions : ExpandContext → Bool
  | .expression => false
  | _ => true

/-- How expansion gets at modules: their instances, and the declaration of a body. -/
structure Loader where
  instantiate : ModuleId → RunM Instance
  declare : ModuleId → List Syntax → RunM Declaration

/-- A loader that has no steps left. -/
def Loader.exhausted : Loader := ⟨fun _ => RunM.exhausted, fun _ _ => RunM.exhausted⟩

/-- The module that a path names. -/
def resolveModule (path : String) (requester : Option ModuleId) : RunM ModuleId := do
  let runtime := (← get).runtime
  if path = runtime.config.kernelModule then return runtime.kernel.id
  else RunM.ofExcept (ModulePath.normalize path requester)

/-- The identifier for a kernel name, whatever the context around it. -/
def kernelIdentifier (name : String) (site : Syntax) : RunM Syntax := do
  let kernel := (← get).runtime.kernel
  return (Syntax.atom { span := site.span } (.symbol name)).addWrap (.moduleRename kernel.space)

/-- Goes one level deeper, unless the limit is reached. -/
def descend (depth : Nat) (form : Syntax) : RunM Nat := do
  match (← get).runtime.config.maxExpansionDepth with
  | some limit =>
    if limit < depth + 1 then RunM.failAt form (.depthLimit limit) else return depth + 1
  | none => return depth + 1

/-- The failure of a transformer at a form.  A syntax failure passes with the form added to
its trail, any other becomes the cause of one. -/
def transformerError (who : String) (form : Syntax) (e : Error) : Error :=
  match e.fault with
  | .badSyntax _ => e.withContext form
  | _ =>
    { Error.atForm (.badSyntax (.transformerFailed who e.message)) form with cause := some e }

/-- Runs a transformer on a form under a fresh mark. -/
def invoke (fuel : Nat) (id procedureId : ObjectId) (p : Procedure) (form : Syntax) :
    RunM Syntax := do
  let mark ← freshMark
  let who := (← get).names.identifyTransformer id
  let input ← stampSyntax (form.addWrap (.mark mark))
  let output ← (applyProcedure fuel (.procedure procedureId p) [.stx input]).mapError
    (transformerError who form)
  match output with
  | .stx s => return s.addWrap (.mark mark)
  | v => RunM.failAt form (.notSyntaxResult who v.typeName)

/-- What a form of a body is once its head is expanded. -/
inductive Partial where
  /-- A core `begin`; its parts replace it. -/
  | splice (forms : List Syntax)
  /-- Anything else, with the core form it is if it is one. -/
  | form (stx : Syntax) (core : Option CoreForm)

/-- Invokes transformers at the head of a form until there is none. -/
def partialExpand : Nat → Nat → Syntax → RunM Partial
  | 0, _, _ => RunM.exhausted
  | fuel + 1, depth, form => do
    match form.subforms with
    | [] => return .form form none
    | head :: rest =>
      match headValue? (← getSpaces) head with
      | some (.transformer id procedureId p) =>
        let depth ← descend depth form
        let form ← invoke fuel id procedureId p form
        partialExpand fuel depth form
      | some (.form .begin) => return .splice rest
      | some (.form core) => return .form form (some core)
      | _ => return .form form none

end HygienicLisp
