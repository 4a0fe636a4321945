import HygienicLisp.Compile
import HygienicLisp.Expansion.Expand
import HygienicLisp.Kernel

/-!
# Declaring and loading modules

The body of a module is expanded in two passes.  The first expands the heads of the forms:
it splices `begin`, takes the addresses of definitions, and carries out `require` and
`define_syntax` at once.  The second expands and compiles what is left, so that definitions
may refer to each other in any order.
-/

namespace HygienicLisp

/-- Runs a computation with parameters of its own. -/
def withOwnParameters {α : Type} (x : RunM α) : RunM α := do
  let outer := (← get).dynamic
  modify fun w => { w with dynamic := [] }
  x.andThen fun w => { w with dynamic := outer }

/-- Runs a computation with a list of provided bindings of its own. -/
def withOwnProvides {α : Type} (x : RunM α) : RunM α := do
  let outer := (← get).provides
  modify fun w => { w with provides := [] }
  x.andThen fun w => { w with provides := outer }

/-- Expands, compiles and evaluates a form in the top environment of a namespace. -/
def runForm (loader : Loader) (fuel : Nat) (ns : NamespaceId) (context : ExpandContext)
    (form : Syntax) : RunM Value := do
  let expanded ← Expansion.expand loader ns fuel 0 context form
  let code ← compile ns expanded
  eval fuel code ⟨ns, none⟩

/-- The first pass over a module body.  The result is what is left for the second one. -/
def firstPass (loader : Loader) (ns : NamespaceId) : Nat → List Syntax → RunM (List Syntax)
  | 0, _ => RunM.exhausted
  | _ + 1, [] => return []
  | fuel + 1, form :: queue => do
    match ← partialExpand fuel 0 form with
    | .splice forms => firstPass loader ns fuel (forms ++ queue)
    | .form form (some .define) =>
      let form ← Expansion.predefineForm ns form
      let rest ← firstPass loader ns fuel queue
      return form :: rest
    | .form form (some .defineSyntax) =>
      let _ ← runForm loader fuel ns .moduleBody form
      firstPass loader ns fuel queue
    | .form form (some .require) =>
      let _ ← Expansion.expand loader ns fuel 0 .moduleBody form
      firstPass loader ns fuel queue
    | .form form _ =>
      let rest ← firstPass loader ns fuel queue
      return form :: rest

/-- The second pass over a module body: expands and compiles each form in turn. -/
def secondPass (loader : Loader) (ns : NamespaceId) (fuel : Nat) : List Syntax → RunM (List Code)
  | [] => return []
  | form :: rest => do
    let expanded ← Expansion.expand loader ns fuel 0 .moduleBody form
    let code ← compile ns expanded
    let codes ← secondPass loader ns fuel rest
    return code :: codes

/-- Expands and compiles a module body, whose language is the kernel. -/
def declareModule (loader : Loader) (fuel : Nat) (id : ModuleId) (body : List Syntax) :
    RunM Declaration := do
  let ns ← newNamespace id .module
  requireKernel ns
  withOwnParameters <| withOwnProvides do
    let pending ← firstPass loader ns fuel (body.map (Syntax.introduce ns))
    let codes ← secondPass loader ns fuel pending
    return ⟨id, ns, codes, (← get).provides⟩

/-- Reads the source of a module and declares it. -/
def loadDeclaration (loader : Loader) (fuel : Nat) (id : ModuleId) : RunM Declaration := do
  match (← get).runtime.sources.find? fun s => s.1 = id with
  | none => RunM.fail (.of (.moduleNotFound id.path))
  | some (_, text) =>
    let source : Source := ⟨id.path, text⟩
    RunM.mapError (Error.withSource source) do
      let body ← RunM.ofExcept source.read
      declareModule loader fuel id body

/-- Runs the body of a module. -/
def runBody (fuel : Nat) (d : Declaration) : RunM Unit :=
  withOwnParameters (runEach (fun code => do let _ ← eval fuel code ⟨d.space, none⟩) d.body)

/-- The loader that allows modules to be nested less than the given number deep. -/
def loaderAt : Nat → Loader
  | 0 => .exhausted
  | fuel + 1 =>
    { instantiate := fun id =>
        instantiateWith id (loadDeclaration (loaderAt fuel) fuel id) (runBody fuel)
      declare := fun id body => declareModule (loaderAt fuel) fuel id body }

end HygienicLisp
