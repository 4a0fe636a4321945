import HygienicLisp.Value.Basic

/-!
# Namespaces

A namespace is the environment of one top-level session or one module.  It owns

* an address space that only grows: every definition takes the next address, a
  redefinition too;
* a value store indexed by address;
* a table of cells, each filed under a key and holding a definition or an import;
* a list of the namespaces it refers to, whose positions serve as short names.

What syntax and definitions say of a namespace does not hold on to it.  When nothing else does it is
freed, and is not found through them any more.  Its number is not given to another one, and a cell
that an identifier records is still there.

A cell never moves and keeps its key, so its position in the table identifies it.

|                               | top level   | module    |
|-------------------------------|-------------|-----------|
| define over a definition      | new address | conflict  |
| define over a language import | new address | new address |
| define over another import    | new address | conflict  |

In both kinds an import over a definition, or over an import of another definition, is a
conflict, unless the import that is there is one of the language.
-/

namespace HygienicLisp

/-- The two kinds of namespace. -/
inductive NamespaceKind where
  | topLevel
  | module
  deriving DecidableEq, Repr, Inhabited

/-- A cell and the key it is filed under. -/
structure Entry where
  key : Key
  content : Content
  deriving DecidableEq, Repr

/-- The bindings and values of one top-level session or module. -/
structure Namespace where
  home : ModuleId
  kind : NamespaceKind
  entries : Array Entry := #[]
  definitionCount : Nat := 0
  values : Array (Option Value) := #[]
  imports : Array (ModuleId × NamespaceId) := #[]
  /-- Whether nothing holds on to the namespace any more. -/
  freed : Bool := false
  deriving Inhabited

namespace Namespace

/-- Whether references to names without a binding are left to run time. -/
def allowsFree (space : Namespace) : Bool := space.kind = .topLevel

/-! ## Cells -/

/-- The position of the cell filed under a key. -/
def find? (space : Namespace) (key : Key) : Option Nat :=
  space.entries.findIdx? fun e => e.key = key

/-- The content of a cell. -/
def content? (space : Namespace) (index : Nat) : Option Content :=
  (space.entries[index]?).map (·.content)

/-- What a cell comes to hold. -/
def swing (space : Namespace) (index : Nat) (content : Content) : Namespace :=
  { space with entries := space.entries.modify index fun e => { e with content } }

/-- Files a new cell. -/
def file (space : Namespace) (key : Key) (content : Content) : Namespace :=
  { space with entries := space.entries.push ⟨key, content⟩ }

/-- Why a definition over what a cell holds is refused. -/
def redefinitionConflict? (kind : NamespaceKind) (content : Content) : Option Conflict :=
  match kind, content with
  | .topLevel, _ => none
  | .module, .defined _ => some .duplicateDefinition
  | .module, .required i =>
    if i.shadowable then none else some (.definitionOverImport i.provided.target.home)

/-- Takes the next address for the identifier with the given key.  The result is the
position of its cell.  `self` is the number of this namespace. -/
def predefine (space : Namespace) (self : NamespaceId) (key : Key) :
    Except Conflict (Nat × Namespace) :=
  let content := .defined ⟨key.name, space.definitionCount, self, space.home⟩
  let grown := { space with definitionCount := space.definitionCount + 1 }
  match space.find? key with
  | none => .ok (space.entries.size, grown.file key content)
  | some index =>
    match (space.content? index).bind (redefinitionConflict? space.kind) with
    | some conflict => .error conflict
    | none => .ok (index, grown.swing index content)

/-- What an import does to a cell that exists: a conflict, a new content, or nothing. -/
def importOver (content : Content) (i : Import) : Except Conflict (Option Content) :=
  match content with
  | .defined d => .error (.importOverDefinition i.provided.target.home d.home)
  | .required there =>
    if there.provided.target = i.provided.target then
      .ok (if there.shadowable && !i.shadowable then some (.required i) else none)
    else if there.shadowable then .ok (some (.required i))
    else .error (.distinctImports there.provided.target.home i.provided.target.home)

/-- Imports a provided definition under the given key. -/
def require (space : Namespace) (key : Key) (provided : Provided) (shadowable : Bool) :
    Except Conflict Namespace :=
  let i : Import := ⟨key.name, provided, shadowable⟩
  match space.find? key with
  | none => .ok (space.file key (.required i))
  | some index =>
    match space.content? index with
    | none => .ok space
    | some content =>
      match importOver content i with
      | .error conflict => .error conflict
      | .ok none => .ok space
      | .ok (some content) => .ok (space.swing index content)

/-- Puts a definition in front of the first one with a larger address. -/
def insertByAddress (d : Definition) : List Definition → List Definition
  | [] => [d]
  | e :: rest => if d.address ≤ e.address then d :: e :: rest else e :: insertByAddress d rest

/-- The definition that a cell filed without marks and under a free origin holds. -/
def unmarkedDefinition? (e : Entry) : Option Definition :=
  match e.key.origin, e.content with
  | .free _, .defined d => if e.key.marks.isEmpty then some d else none
  | _, _ => none

/-- The definitions that are seen under names without marks, by address. -/
def unmarkedDefinitions (space : Namespace) : List Definition :=
  (space.entries.toList.filterMap unmarkedDefinition?).foldr insertByAddress []

/-! ## Values -/

/-- The value at an address, if there is one. -/
def value? (space : Namespace) (address : Nat) : Option Value := (space.values[address]?).join

/-- Stores a value at an address; the store grows as needed. -/
def setValue (space : Namespace) (address : Nat) (v : Value) : Namespace :=
  let missing := address + 1 - space.values.size
  let values := space.values ++ Array.replicate missing none
  { space with values := values.setIfInBounds address (some v) }

/-- The value at an address; it is a failure if the definition of `name` there has not
been evaluated. -/
def valueAt (space : Namespace) (address : Nat) (name : String) : Except Error Value :=
  match space.value? address with
  | some v => .ok v
  | none => .error (.of (.eval (.beforeDefinition name space.home)))

/-! ## Imported namespaces -/

/-- The short name under which the module `home` is referred to. -/
def importId? (space : Namespace) (home : ModuleId) : Option Nat :=
  space.imports.findIdx? fun i => i.1 = home

end Namespace

end HygienicLisp
