import HygienicLisp.World

/-!
# Instantiating modules

A module is instantiated on the first request: if it has no declaration it is loaded, then
its body is run.  A failed load leaves it undeclared, a failed run leaves it declared, and in
both cases the next request tries again.  A module that is requested while it is being
loaded closes a cycle, which is a failure.
-/

namespace HygienicLisp

/-- Changes the registry, or fails. -/
def updateRegistry (f : Registry → Except Error Registry) : RunM Unit := do
  let registry ← RunM.ofExcept (f (← get).registry)
  modify fun w => { w with registry }

/-- Runs a computation while a module counts as being loaded. -/
def whileLoading {α : Type} (id : ModuleId) (x : RunM α) : RunM α := do
  let outer := (← get).loading
  let loading ← RunM.ofExcept (enterLoading outer id)
  modify fun w => { w with loading }
  x.andThen fun w => { w with loading := outer }

/-- The declaration of a module, which is loaded if there is none. -/
def declarationOf (id : ModuleId) (load : RunM Declaration) : RunM Declaration := do
  match (← get).registry.declaration? id with
  | some d => return d
  | none =>
    modify fun w => { w with loads := w.loads + 1 }
    let d ← load
    updateRegistry fun r => r.declare d
    return d

/-- The instance of a module.  The first request loads the module with `load`, unless it is
declared, and runs its body with `run`. -/
def instantiateWith (id : ModuleId) (load : RunM Declaration) (run : Declaration → RunM Unit) :
    RunM Instance := do
  match (← get).registry.instance? id with
  | some i => return i
  | none => whileLoading id do
    let d ← declarationOf id load
    modify fun w => { w with runs := w.runs + 1 }
    run d
    let i := Instance.ofDeclaration d
    modify fun w => { w with registry := w.registry.addInstance i }
    return i

/-- Records a module that needs no loading. -/
def installModule (d : Declaration) : RunM Instance := do
  let (i, registry) ← RunM.ofExcept ((← get).registry.install d)
  modify fun w => { w with registry }
  return i

/-! ## Dependency graphs -/

/-- What each module depends on, in order. -/
abbrev DependencyGraph := List (ModuleId × List ModuleId)

/-- The dependencies of a module. -/
def DependencyGraph.of (graph : DependencyGraph) (id : ModuleId) : List ModuleId :=
  match graph.find? fun entry => entry.1 = id with
  | some (_, deps) => deps
  | none => []

/-- The declaration of a module without a body. -/
def emptyDeclaration (id : ModuleId) : RunM Declaration := do
  let space ← newNamespace id .module
  return ⟨id, space, [], []⟩

/-- Runs computations in order for their effects. -/
def runEach {α : Type} (f : α → RunM Unit) : List α → RunM Unit
  | [] => return
  | a :: rest => do
    f a
    runEach f rest

/-- Instantiates a module without a body, whose run instantiates its dependencies in order
by the same procedure. -/
def DependencyGraph.instantiate (graph : DependencyGraph) : Nat → ModuleId → RunM Instance
  | 0, _ => RunM.exhausted
  | fuel + 1, id =>
    instantiateWith id (emptyDeclaration id) fun _ =>
      runEach (fun dep => do let _ ← graph.instantiate fuel dep) (graph.of id)

end HygienicLisp
