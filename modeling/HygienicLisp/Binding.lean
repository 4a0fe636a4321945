import HygienicLisp.Syntax.Mark

/-!
# What identifiers denote

An identifier is free, names a local variable, or names a cell of a namespace.
A cell holds a definition or an import, and what it holds may change while the
cell stays the same; `Denotation` is what a binding means at one moment.

Definitions, local variables and cells are identified by where they live: a
definition by its namespace and address, a local variable by its rib and slot, a
cell by its namespace and position.
-/

namespace HygienicLisp

/-- Namespaces are numbered in the order of their creation. -/
abbrev NamespaceId := Nat

/-- Ribs are numbered in the order of their creation. -/
abbrev RibId := Nat

/-- The identity of a module or of a top-level session. -/
structure ModuleId where
  path : String
  deriving DecidableEq, Repr, Inhabited, Hashable

/-- A definition: slot `address` of the value store of the namespace `owner`. -/
structure Definition where
  name : String
  address : Nat
  owner : NamespaceId
  home : ModuleId
  deriving DecidableEq, Repr, Inhabited

/-- A definition that a module exports under the name `name`. -/
structure Provided where
  name : String
  target : Definition
  deriving DecidableEq, Repr, Inhabited

/-- An import of a provided definition.  Imports of the language itself are
shadowable: later definitions and imports may replace them. -/
structure Import where
  name : String
  provided : Provided
  shadowable : Bool
  deriving DecidableEq, Repr, Inhabited

/-- What a cell of a namespace holds. -/
inductive Content where
  | defined (d : Definition)
  | required (i : Import)
  deriving DecidableEq, Repr, Inhabited

/-- The definition a cell leads to, directly or through an import. -/
def Content.target : Content → Definition
  | .defined d => d
  | .required i => i.provided.target

/-- A local variable: slot `slot` of the frame that is made for the rib `rib`. -/
structure LocalVar where
  name : String
  rib : RibId
  slot : Nat
  deriving DecidableEq, Repr, Inhabited

/-- A cell of a namespace, by its position in the namespace's table. -/
structure CellRef where
  owner : NamespaceId
  index : Nat
  deriving DecidableEq, Repr, Inhabited

/-- What an identifier resolves to. -/
inductive Binding where
  | free (name : String)
  | lexical (v : LocalVar)
  | cell (c : CellRef)
  deriving DecidableEq, Repr, Inhabited

/-- What a binding means once namespace cells are looked through. -/
inductive Denotation where
  | free (name : String)
  | lexical (v : LocalVar)
  | defined (d : Definition)
  | required (i : Import)
  deriving DecidableEq, Repr, Inhabited

/-- The definition ultimately denoted, for namespace-level bindings. -/
def Denotation.target? : Denotation → Option Definition
  | .free _ => none
  | .lexical _ => none
  | .defined d => some d
  | .required i => some i.provided.target

/-- Whether two denotations lead to the same free name, variable or definition. -/
def Denotation.sameTarget (a b : Denotation) : Bool :=
  match a, b with
  | .free x, .free y => x = y
  | .lexical x, .lexical y => x = y
  | a, b =>
    match a.target?, b.target? with
    | some x, some y => x = y
    | _, _ => false

/-- The key under which an identifier is bound: its name, its marks, and what it
denotes outside the binding form or namespace. -/
structure Key where
  name : String
  origin : Binding
  marks : MarkSet
  deriving DecidableEq, Repr

/-- The rename table of one binding form.  The key at position `i` belongs to slot `i`
of the frame that the form makes at run time. -/
structure Rib where
  id : RibId
  keys : List Key
  deriving DecidableEq, Repr

namespace Rib

/-- The local variable bound under the given key. -/
def substitute? (rib : Rib) (key : Key) : Option LocalVar :=
  (rib.keys.findIdx? (· = key)).map fun slot => ⟨key.name, rib.id, slot⟩

/-- The local variables of a rib, slot by slot. -/
def locals (rib : Rib) : List LocalVar :=
  rib.keys.zipIdx.map fun (key, slot) => ⟨key.name, rib.id, slot⟩

end Rib

end HygienicLisp
