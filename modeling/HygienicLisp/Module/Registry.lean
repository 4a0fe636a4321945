import HygienicLisp.Value.Basic

/-!
# Declared and instantiated modules

A module is declared when its body has been expanded and compiled, and instantiated when
the body has run.  A module is instantiated once, and from then on it can neither be
redeclared nor be installed again.
-/

namespace HygienicLisp

/-- An expanded and compiled module body that has not run. -/
structure Declaration where
  id : ModuleId
  space : NamespaceId
  body : List Code
  provides : List Provided
  deriving Inhabited

/-- A module whose body has run.  Its provided bindings have distinct names. -/
structure Instance where
  id : ModuleId
  space : NamespaceId
  provided : List Provided
  deriving DecidableEq, Repr, Inhabited

/-- Adds a provided binding.  A name provided before keeps its place and gets the new
target. -/
def addProvided (provided : List Provided) (p : Provided) : List Provided :=
  if provided.any fun q => q.name = p.name then
    provided.map fun q => if q.name = p.name then p else q
  else provided ++ [p]

/-- The instance of a declaration. -/
def Instance.ofDeclaration (d : Declaration) : Instance :=
  ⟨d.id, d.space, d.provides.foldl addProvided []⟩

/-- The binding that a module provides under a name. -/
def Instance.provided? (i : Instance) (name : String) : Option Provided :=
  i.provided.find? fun p => p.name = name

/-- The declarations and instances of a runtime, most recent first. -/
structure Registry where
  declarations : List Declaration := []
  instances : List Instance := []
  deriving Inhabited

namespace Registry

/-- The declaration of a module. -/
def declaration? (r : Registry) (id : ModuleId) : Option Declaration :=
  r.declarations.find? fun d => d.id = id

/-- The instance of a module. -/
def instance? (r : Registry) (id : ModuleId) : Option Instance :=
  r.instances.find? fun i => i.id = id

/-- Records a declaration, in place of an earlier one. -/
def declare (r : Registry) (d : Declaration) : Except Error Registry :=
  match r.instance? d.id with
  | some _ => .error (.of (.contract (.alreadyInstantiated d.id)))
  | none => .ok { r with declarations := d :: r.declarations }

/-- Records the instance of a module. -/
def addInstance (r : Registry) (i : Instance) : Registry := { r with instances := i :: r.instances }

/-- Records a module that needs no loading, such as the kernel. -/
def install (r : Registry) (d : Declaration) : Except Error (Instance × Registry) :=
  let i := Instance.ofDeclaration d
  (r.declare d).map fun r => (i, r.addInstance i)

end Registry

/-! ## Cycles -/

/-- The stack of modules that are being loaded, outermost first, after `id` has been
entered.  A module that is being loaded already closes a cycle. -/
def enterLoading (loading : List ModuleId) (id : ModuleId) : Except Error (List ModuleId) :=
  match loading.dropWhile (· ≠ id) with
  | [] => .ok (loading ++ [id])
  | cycle => .error (.of (.contract (.dependencyCycle (cycle ++ [id]))))

end HygienicLisp
