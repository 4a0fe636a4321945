import HygienicLisp.Head
import HygienicLisp.Value.Datum
import HygienicLisp.World

/-!
# Compilation

Turns a fully expanded form into code, in which every identifier has become an address: a
local variable the number of frames to go up and a slot, a definition of the namespace an
address, a definition of another namespace that namespace's short name and an address.  A
free identifier is left to run time at top level and is a failure in a module.

Assignments to definitions of other namespaces are refused here, before anything runs.
-/

namespace HygienicLisp

/-- The ribs of the frames around a place, innermost first; a frame without variables has
none. -/
abbrev Scopes := List (Option RibId)

mutual

/-- The number of nodes of a form. -/
def Syntax.weight : Syntax → Nat
  | .atom _ _ => 1
  | .group _ _ items => 1 + Syntax.weightAll items
  | .record _ fields => 1 + Syntax.weightFields fields

/-- The number of nodes of the forms of a sequence. -/
def Syntax.weightAll : List Syntax → Nat
  | [] => 0
  | stx :: rest => stx.weight + Syntax.weightAll rest

/-- The number of nodes of the fields of a record. -/
def Syntax.weightFields : List (String × Syntax) → Nat
  | [] => 0
  | (_, stx) :: rest => stx.weight + Syntax.weightFields rest

end

namespace Compile

/-- The number of frames to go up from a place to the frame of a rib. -/
def depthOf (scopes : Scopes) (rib : RibId) (stx : Syntax) : RunM Nat :=
  match scopes.findIdx? (· = some rib) with
  | some depth => pure depth
  | none => RunM.failAt stx .outsideScope

/-- The operand of a form at a position. -/
def operand (form : Syntax) (parts : List Syntax) (position : Nat) : RunM Syntax :=
  match parts[position]? with
  | some stx => pure stx
  | none => RunM.failAt form .malformedCore

/-- A reference to a definition. -/
def definitionRef (ns : NamespaceId) (d : Definition) (name : String) : RunM Code := do
  if d.owner = ns then return .topRef d.address name
  else return .importRef (← importId ns d) d.address name

/-- A reference to a variable. -/
def reference (ns : NamespaceId) (scopes : Scopes) (stx : Syntax) (name : String) : RunM Code := do
  let spaces ← getSpaces
  match spaces.denoted stx name with
  | .free name =>
    match spaces[ns]? with
    | some space =>
      if space.allowsFree then return .freeRef name stx
      else RunM.fail (.atForm (.unbound name) stx)
    | none => RunM.fail (.atForm (.unbound name) stx)
  | .lexical v => return .localRef (← depthOf scopes v.rib stx) v.slot name
  | .defined d => definitionRef ns d name
  | .required i => definitionRef ns i.provided.target name

/-- The address that was taken for a defined identifier. -/
def definedAddress (ns : NamespaceId) (stx : Syntax) : RunM (String × Nat) := do
  match (← getSpaces).denoted stx "" with
  | .defined d =>
    if d.owner = ns then return (d.name, d.address) else RunM.failAt stx .foreignDefinition
  | _ => RunM.failAt stx .foreignDefinition

/-- The scopes inside a frame for the given binders.  Binders share one rib. -/
def enterScope (scopes : Scopes) (binders : List Syntax) : RunM Scopes := do
  match binders with
  | [] => return none :: scopes
  | first :: _ =>
    match (← getSpaces).resolve first with
    | some (.lexical v) => return some v.rib :: scopes
    | _ => RunM.failAt first .binderNotRenamed

/-- The two parts of each clause. -/
def clauses (fault : SyntaxFault) : List Syntax → RunM (List (Syntax × Syntax))
  | [] => return []
  | clause :: rest => do
    match clause.subforms with
    | [first, second] =>
      let pairs ← clauses fault rest
      return (first, second) :: pairs
    | _ => RunM.failAt clause fault

section

/-! The functions of this section take the compilation of subforms as an argument. -/

variable (ns : NamespaceId) (compile : Scopes → Syntax → RunM Code)

/-- The code of forms, in order. -/
def all (scopes : Scopes) : List Syntax → RunM (List Code)
  | [] => return []
  | stx :: rest => do
    let code ← compile scopes stx
    let codes ← all scopes rest
    return code :: codes

/-- The code of fields, in order. -/
def fields (scopes : Scopes) : List (String × Syntax) → RunM (List (String × Code))
  | [] => return []
  | (key, stx) :: rest => do
    let code ← compile scopes stx
    let codes ← fields scopes rest
    return (key, code) :: codes

/-- The code of parameters and values, in order. -/
def pairs (scopes : Scopes) : List Syntax → RunM (List (Code × Code))
  | [] => return []
  | clause :: rest => do
    match clause.subforms with
    | [parameter, value] =>
      let parameter ← compile scopes parameter
      let value ← compile scopes value
      let codes ← pairs scopes rest
      return (parameter, value) :: codes
    | _ => RunM.failAt clause .parameterizeClause

/-- A body: every form but the last for effect. -/
def body (scopes : Scopes) (forms : List Syntax) : RunM Code := do
  match forms with
  | [] => return .void
  | [stx] => compile scopes stx
  | forms => return .sequence (← all compile scopes forms)

/-- A `lambda` with the given parts. -/
def lambda (scopes : Scopes) (form : Syntax) (parts : List Syntax) (name : Option String) :
    RunM Code := do
  let formals ← operand form parts 1
  let rest := formals.isIdentifier
  let binders := if rest then [formals] else formals.subforms
  let inner ← enterScope scopes binders
  let code ← body compile inner (parts.drop 2)
  return .lambda name (if rest then 0 else binders.length) rest code

/-- A `let` or `letrec`. -/
def binding (scopes : Scopes) (form : Syntax) (parts : List Syntax) (recursive : Bool) :
    RunM Code := do
  let pairs ← clauses .bindingClause (← operand form parts 1).subforms
  let binders := pairs.map (·.1)
  let inits := pairs.map (·.2)
  if recursive then
    let inner ← enterScope scopes binders
    let inits ← all compile inner inits
    let code ← body compile inner (parts.drop 2)
    return .letrec inits code
  else
    let inits ← all compile scopes inits
    let inner ← enterScope scopes binders
    let code ← body compile inner (parts.drop 2)
    return .letIn inits code

/-- An assignment. -/
def assignment (scopes : Scopes) (form : Syntax) (parts : List Syntax) : RunM Code := do
  let target ← operand form parts 1
  let value ← compile scopes (← operand form parts 2)
  match target.symbol? with
  | none => RunM.failAt target .setTarget
  | some name =>
    match (← getSpaces).denoted target name with
    | .lexical v => return .localSet (← depthOf scopes v.rib target) v.slot value
    | .defined d =>
      if d.owner = ns then return .topSet d.address value
      else RunM.fail (.atForm (.contract (.importMutation name)) form)
    | .required _ => RunM.fail (.atForm (.contract (.importMutation name)) form)
    | .free _ => RunM.fail (.atForm (.unbound name) target)

/-- The parts of a form that is a `lambda`. -/
def lambdaParts? (spaces : Spaces) (form : Syntax) : Option (List Syntax) :=
  match form.subforms with
  | head :: rest => if coreForm? spaces head = some .lambda then some (head :: rest) else none
  | [] => none

/-- A definition.  A `lambda` that is defined takes the name of the variable. -/
def definition (scopes : Scopes) (form : Syntax) (parts : List Syntax) : RunM Code := do
  let (name, address) ← definedAddress ns (← operand form parts 1)
  let value ← operand form parts 2
  match lambdaParts? (← getSpaces) value with
  | some inner => return .define name address (← lambda compile scopes value inner (some name))
  | none => return .define name address (← compile scopes value)

/-- A core form. -/
def core (scopes : Scopes) (f : CoreForm) (form : Syntax) (parts : List Syntax) : RunM Code := do
  match f with
  | .quote => return .constant (← stampValue (← operand form parts 1).toDatum)
  | .quoteSyntax => return .constant (.stx (← stampSyntax (← operand form parts 1)))
  | .ifForm =>
    let test ← compile scopes (← operand form parts 1)
    let consequent ← compile scopes (← operand form parts 2)
    let alternative ← compile scopes (← operand form parts 3)
    return .branch test consequent alternative
  | .begin => body compile scopes (parts.drop 1)
  | .lambda => lambda compile scopes form parts none
  | .letForm => binding compile scopes form parts false
  | .letrec => binding compile scopes form parts true
  | .set => assignment ns compile scopes form parts
  | .define => definition ns compile scopes form parts
  | .defineSyntax =>
    let (name, address) ← definedAddress ns (← operand form parts 1)
    return .defineSyntax name address (← compile scopes (← operand form parts 2)) form
  | .parameterize =>
    let bindings ← pairs compile scopes (← operand form parts 1).subforms
    return .parameterize bindings (← body compile scopes (parts.drop 2))
  -- These have done all they do when they were expanded.
  | .moduleForm | .require | .provide => return .void

/-- A form. -/
def form (scopes : Scopes) (stx : Syntax) : RunM Code := do
  match stx with
  | .atom _ (.symbol name) => reference ns scopes stx name
  | .atom _ a => return .constant (.atom a)
  | .group _ .list _ => return .listLiteral (← all compile scopes (stx.elements?.getD []))
  | .record _ _ => return .recordLiteral (← fields compile scopes (stx.fields?.getD []))
  | .group _ .sexp _ =>
    match stx.subforms with
    | [] => RunM.failAt stx .emptyForm
    | head :: operands =>
      match coreForm? (← getSpaces) head with
      | some f => core ns compile scopes f stx (head :: operands)
      | none =>
        let operator ← compile scopes head
        let args ← all compile scopes operands
        return .apply operator args stx

end

/-- The code of a form inside the given scopes, for forms nested less than `fuel` deep. -/
def compileAt (ns : NamespaceId) : Nat → Scopes → Syntax → RunM Code
  | 0, _, _ => RunM.exhausted
  | fuel + 1, scopes, stx => form ns (compileAt ns fuel) scopes stx

end Compile

/-- Compiles a fully expanded form in a namespace.  The number of nodes of the form bounds
its nesting. -/
def compile (ns : NamespaceId) (stx : Syntax) : RunM Code :=
  Compile.compileAt ns (stx.weight + 1) [] stx

end HygienicLisp
