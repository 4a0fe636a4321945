import HygienicLisp.Expansion.Basic
import HygienicLisp.Module.Loading
import HygienicLisp.Value.Datum

/-!
# Expansion of `module`, `require` and `provide`

| form | shape |
|---|---|
| `module` | `(module NAME FORM...)`, at top level only |
| `require` | `(require SPEC...)` |
| `provide` | `(provide SPEC...)`, in a module only |

What is required is a path, `(only_in PATH ID...)` or `(rename_in PATH (EXPORTED LOCAL)...)`; what
is provided is an identifier or `(all_defined_out)`.
-/

namespace HygienicLisp.Expansion

/-- Declares a module written at top level.  Its body gets a namespace of its own. -/
def declareForm (loader : Loader) (form : Syntax) (parts : List Syntax) : RunM Syntax := do
  match (parts[1]?).bind Syntax.symbol? with
  | none => RunM.failAt form .moduleName
  | some name =>
    let id ← resolveModule name none
    whileLoading id do
      let declaration ← loader.declare id (Syntax.stripAll (parts.drop 2))
      updateRegistry fun r => r.declare declaration
    return form

/-- The path written as a module specification. -/
def modulePath (spec : Syntax) : RunM String :=
  match spec with
  | .atom _ (.str path) => pure path
  | .atom _ (.symbol path) => pure path
  | _ => RunM.failAt spec .modulePath

/-- The instance of the module that a path names, seen from a namespace. -/
def requiredInstance (loader : Loader) (ns : NamespaceId) (spec : Syntax) : RunM Instance := do
  let path ← modulePath spec
  let home := ((← getSpaces)[ns]?).map (·.home)
  let id ← (resolveModule path home).inContext spec
  (loader.instantiate id).inContext spec

/-- What a module provides under an identifier. -/
def exported (i : Instance) (stx : Syntax) : Except Error Provided :=
  let name := stx.symbol?.getD ""
  match i.provided? name with
  | some p => .ok p
  | none =>
    .error ((Error.atForm (.unbound name) stx).withHelp
      ("module " ++ i.id.path ++ s!" does not provide `{name}`"))

/-- Imports what a module provides under the given identifiers. -/
def requireOnly (ns : NamespaceId) (i : Instance) : List Syntax → RunM Unit
  | [] => return
  | stx :: rest => do
    if !stx.isIdentifier then RunM.failAt stx .onlyInItem
    let p ← RunM.ofExcept (exported i stx)
    require ns stx p false
    requireOnly ns i rest

/-- Imports what a module provides under other names. -/
def requireRenamed (ns : NamespaceId) (i : Instance) : List Syntax → RunM Unit
  | [] => return
  | pair :: rest => do
    match pair.subforms with
    | [name, target] =>
      if !target.isIdentifier then RunM.failAt target .renameInLocal
      let p ← RunM.ofExcept (exported i name)
      require ns target p false
      requireRenamed ns i rest
    | _ => RunM.failAt pair .renameInPair

/-- One specification of a `require`. -/
def requireSpec (loader : Loader) (ns : NamespaceId) (spec : Syntax) : RunM Unit := do
  match spec.subforms? with
  | none =>
    let i ← requiredInstance loader ns spec
    requireAll ns (fun p => Syntax.ofDatum (.atom (.symbol p.name)) (some spec)) false i.provided
  | some (keyword :: path :: rest) =>
    if keyword.symbol? = some "only_in" then
      let i ← requiredInstance loader ns path
      requireOnly ns i rest
    else if keyword.symbol? = some "rename_in" then
      let i ← requiredInstance loader ns path
      requireRenamed ns i rest
    else RunM.failAt spec .requireSpec
  | some _ => RunM.failAt spec .requireSpec

/-- Records what the module that is being expanded provides. -/
def recordProvided (p : Provided) : RunM Unit :=
  modify fun w => { w with provides := w.provides ++ [p] }

/-- One specification of a `provide`. -/
def provideSpec (ns : NamespaceId) (spec : Syntax) : RunM Unit := do
  let spaces ← getSpaces
  match spec.symbol? with
  | some name =>
    match (spaces.resolve spec).bind fun b => (spaces.denote b).target? with
    | some target => recordProvided ⟨name, target⟩
    | none => RunM.fail (.atForm (.unbound name) spec)
  | none =>
    match spec.subforms with
    | [keyword] =>
      if keyword.symbol? = some "all_defined_out" then
        let definitions := match spaces[ns]? with
          | some space => space.unmarkedDefinitions
          | none => []
        runEach (fun d : Definition => recordProvided ⟨d.name, d⟩) definitions
      else RunM.failAt spec .provideSpec
    | _ => RunM.failAt spec .provideSpec

end HygienicLisp.Expansion
