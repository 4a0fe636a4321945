import HygienicLisp.Config.Basic
import HygienicLisp.Module.Registry
import HygienicLisp.Namespace.Store
import HygienicLisp.Value.Names

/-!
# The state of a program

Everything that a running program can change is one value, the world.  Computations are
functions on it that end with a result, with a failure, or by running out of the number of
steps they were allowed; in each case there is a world afterwards.
-/

namespace HygienicLisp

/-- One activation of a `lambda`, `let` or `letrec`.  A slot is empty until its variable is
initialised. -/
structure Frame where
  slots : Array (Option Value)
  parent : Option Nat
  deriving Inhabited

/-- The shared part of all sessions: settings, kernel and module sources. -/
structure Runtime where
  config : Config := {}
  kernel : Instance := default
  sources : List (ModuleId × String) := []
  sessions : Nat := 0
  deriving Inhabited

/-- The state of a program. -/
structure World where
  spaces : Spaces := #[]
  frames : Array Frame := #[]
  /-- The names of procedures and transformers. -/
  names : Names := #[]
  nextMark : Mark := 1
  nextRib : RibId := 1
  /-- The next label of a syntax object or a record. -/
  nextLabel : Nat := 1
  /-- The values given to parameters, most recent first. -/
  dynamic : List (ObjectId × Value) := []
  /-- The modules that are being loaded, outermost first. -/
  loading : List ModuleId := []
  /-- How often a module was loaded, or was tried to be. -/
  loads : Nat := 0
  /-- How often the body of a module was run, or was tried to be. -/
  runs : Nat := 0
  /-- What the module that is being expanded provides so far. -/
  provides : List Provided := []
  registry : Registry := {}
  runtime : Runtime := {}
  deriving Inhabited

/-- Why a computation has no result. -/
inductive Halt where
  | error (e : Error)
  | outOfFuel
  deriving Repr

/-- Computations on the world. -/
abbrev RunM := EStateM Halt World

namespace RunM

variable {α : Type}

/-- Fails. -/
def fail (e : Error) : RunM α := throw (.error e)

/-- Fails at a form. -/
def failAt (stx : Syntax) (fault : SyntaxFault) : RunM α := fail (.atForm (.badSyntax fault) stx)

/-- Stops because no steps are left. -/
def exhausted : RunM α := throw .outOfFuel

/-- Continues with a result that may be a failure. -/
def ofExcept : Except Error α → RunM α
  | .ok a => pure a
  | .error e => fail e

/-- Changes the failure of a computation. -/
def mapError (f : Error → Error) (x : RunM α) : RunM α := fun w =>
  match x w with
  | .ok a w => .ok a w
  | .error (.error e) w => .error (.error (f e)) w
  | .error .outOfFuel w => .error .outOfFuel w

/-- Adds a form to the trail of a failure. -/
def inContext (stx : Syntax) (x : RunM α) : RunM α := mapError (Error.withContext stx) x

/-- Runs a computation and changes the world afterwards, however it ended. -/
def andThen (x : RunM α) (leave : World → World) : RunM α := fun w =>
  match x w with
  | .ok a w => .ok a (leave w)
  | .error halt w => .error halt (leave w)

end RunM

/-! ## Fresh names -/

/-- Draws a fresh mark. -/
def freshMark : RunM Mark := modifyGet fun w => (w.nextMark, { w with nextMark := w.nextMark + 1 })

/-- Draws a fresh rib number. -/
def freshRib : RunM RibId := modifyGet fun w => (w.nextRib, { w with nextRib := w.nextRib + 1 })

/-- Draws a fresh object number for an object with the given name. -/
def freshObject (name : Option String) : RunM ObjectId :=
  modifyGet fun w => (w.names.size, { w with names := w.names.push name })

/-- Labels a syntax object that becomes a value. -/
def stampSyntax (stx : Syntax) : RunM Syntax := modifyGet fun w =>
  let (stx, next) := stx.stamp w.nextLabel
  (stx, { w with nextLabel := next })

/-- Labels the records of data that become a value. -/
def stampValue (v : Value) : RunM Value := modifyGet fun w =>
  let (v, next) := v.stamp w.nextLabel
  (v, { w with nextLabel := next })

/-- A new record with the given fields. -/
def newRecord (fields : List (String × Value)) : RunM Value := modifyGet fun w =>
  (.record w.nextLabel fields, { w with nextLabel := w.nextLabel + 1 })

/-- Creates a namespace. -/
def newNamespace (home : ModuleId) (kind : NamespaceKind) : RunM NamespaceId := modifyGet fun w =>
  (w.spaces.size, { w with spaces := w.spaces.push { home, kind } })

/-! ## Namespaces -/

/-- All namespaces as they are now. -/
def getSpaces : RunM Spaces := return (← get).spaces

/-- The rib that binds the identifiers, under a fresh number. -/
def newRib (binders : List Syntax) : RunM Rib := do
  let id ← freshRib
  RunM.ofExcept (Rib.ofBinders (← getSpaces) id binders)

/-- Takes a fresh address for an identifier. -/
def predefine (ns : NamespaceId) (stx : Syntax) : RunM Syntax := do
  let (stx, spaces) ← RunM.ofExcept ((← getSpaces).predefine ns stx)
  modify fun w => { w with spaces }
  return stx

/-- Imports a provided definition under an identifier. -/
def require (ns : NamespaceId) (stx : Syntax) (provided : Provided) (shadowable : Bool) :
    RunM Unit := do
  let spaces ← RunM.ofExcept ((← getSpaces).require ns stx provided shadowable)
  modify fun w => { w with spaces }

/-- Stores a value at an address of a namespace. -/
def setValue (ns : NamespaceId) (address : Nat) (v : Value) : RunM Unit :=
  modify fun w => { w with spaces := w.spaces.setValue ns address v }

/-- Names a value after the variable it is stored in, unless it has a name. -/
def inferName (v : Value) (name : String) : RunM Unit :=
  modify fun w => { w with names := w.names.infer v name }

/-- Stores the value of a definition, which must be one of the namespace. -/
def bindDefinition (ns : NamespaceId) (d : Definition) (v : Value) : RunM Unit := do
  if d.owner ≠ ns then RunM.fail (.of (.contract (.foreignBind d.name d.home)))
  inferName v d.name
  setValue ns d.address v

/-- Defines a name without marks, as `(define name value)` does. -/
def defineValue (ns : NamespaceId) (name : String) (v : Value) : RunM Unit := do
  let stx ← predefine ns ((Syntax.ident name).introduce ns)
  match (← getSpaces).denoted stx name with
  | .defined d => bindDefinition ns d v
  | _ => RunM.fail (.of (.internal (.noDefinition name)))

/-- The short name under which a namespace refers to the owner of a definition. -/
def importId (ns : NamespaceId) (target : Definition) : RunM Nat := do
  let (id, spaces) ← RunM.ofExcept ((← getSpaces).importId ns target)
  modify fun w => { w with spaces }
  return id

/-- Imports provided definitions in order. -/
def requireAll (ns : NamespaceId) (identifier : Provided → Except Error Syntax)
    (shadowable : Bool) : List Provided → RunM Unit
  | [] => return
  | p :: rest => do
    let stx ← RunM.ofExcept (identifier p)
    require ns stx p shadowable
    requireAll ns identifier shadowable rest

/-- A procedure object with the given name. -/
def newProcedure (name : Option String) (p : Procedure) : RunM Value :=
  return .procedure (← freshObject name) p

/-- A transformer made from a procedure; it takes over the procedure's name. -/
def newTransformer (procedureId : ObjectId) (p : Procedure) : RunM Value := do
  let id ← freshObject ((← get).names.nameOf? procedureId)
  return .transformer id procedureId p

/-- The text of a value. -/
def showValue (v : Value) : RunM String := return v.text (← get).names

end HygienicLisp
