import HygienicLisp.Namespace.Basic

/-!
# Resolution of identifiers

An identifier is resolved by replaying its wraps from the oldest to the newest.  A mark
toggles its membership in the marks collected so far.  A rib substitutes a local variable
when its key matches the name, the binding found so far and the marks collected so far.  A
namespace first tries all marks of the identifier, which is how definitions made by
transformers stay apart from those of the user, and falls back to the marks collected so
far.  A module rename applies only to identifiers that are still free.

Main statement: the marks collected on the way are the marks of the whole chain,
`resolveWraps_marks`.
-/

namespace HygienicLisp

/-- All namespaces, by number. -/
abbrev Spaces := Array Namespace

/-- The marks of a chain of wraps. -/
def wrapMarks : List Wrap → MarkSet
  | [] => .empty
  | .mark m :: older => (wrapMarks older).toggle m
  | _ :: older => wrapMarks older

namespace Spaces

/-- Whether a namespace has been freed. -/
def isFreed (spaces : Spaces) (ns : NamespaceId) : Bool :=
  match spaces[ns]? with
  | some space => space.freed
  | none => false

/-- The cell that a namespace has filed under a key. -/
def filed? (spaces : Spaces) (ns : NamespaceId) (key : Key) : Option CellRef :=
  match spaces[ns]? with
  | some space => (space.find? key).map fun index => ⟨ns, index⟩
  | none => none

/-- The cell that is found in a namespace under a key.  In one that has been freed none is. -/
def cell? (spaces : Spaces) (ns : NamespaceId) (key : Key) : Option CellRef :=
  if spaces.isFreed ns then none else spaces.filed? ns key

/-- What a cell holds. -/
def content? (spaces : Spaces) (c : CellRef) : Option Content :=
  match spaces[c.owner]? with
  | some space => space.content? c.index
  | none => none

/-- What a binding means now. -/
def denote (spaces : Spaces) : Binding → Denotation
  | .free name => .free name
  | .lexical v => .lexical v
  | .cell c =>
    match spaces.content? c with
    | some (.defined d) => .defined d
    | some (.required i) => .required i
    | none => .free ""

/-- The cell that a namespace has for an identifier: the one filed under all its marks, or
else the one filed under the marks collected at the namespace's wrap. -/
def substitute? (spaces : Spaces) (ns : NamespaceId) (name : String) (origin : Option Binding)
    (total here : MarkSet) : Option CellRef :=
  let origin := origin.getD (.free name)
  spaces.cell? ns ⟨name, origin, total⟩ <|> spaces.cell? ns ⟨name, origin, here⟩

/-- The effect of one wrap on the binding and the marks found so far.  The namespace
`skip` is passed over. -/
def resolveStep (spaces : Spaces) (name : String) (skip : Option NamespaceId) (total : MarkSet)
    (wrap : Wrap) (found : Option Binding × MarkSet) : Option Binding × MarkSet :=
  let (binding, marks) := found
  match wrap with
  | .mark m => (binding, marks.toggle m)
  | .rename rib =>
    match rib.substitute? ⟨name, binding.getD (.free name), marks⟩ with
    | some v => (some (.lexical v), marks)
    | none => found
  | .space ns =>
    if skip = some ns then found
    else
      match spaces.substitute? ns name binding total marks with
      | some c => (some (.cell c), marks)
      | none => found
  | .moduleRename ns =>
    match binding with
    | some _ => found
    | none => ((spaces.substitute? ns name none .empty .empty).map .cell, marks)

/-- The binding that a chain of wraps, newest first, gives to a name, and its marks. -/
def resolveWraps (spaces : Spaces) (name : String) (skip : Option NamespaceId)
    (wraps : List Wrap) : Option Binding × MarkSet :=
  wraps.foldr (spaces.resolveStep name skip (wrapMarks wraps)) (none, .empty)

/-- What the wraps of an identifier make of it, and its marks. -/
def resolveWithMarks (spaces : Spaces) (stx : Syntax) : Option Binding × MarkSet :=
  match stx.symbol? with
  | some name => spaces.resolveWraps name none stx.wraps
  | none => (none, .empty)

/-- The binding of an identifier: the recorded one, or else what its wraps make of it. -/
def resolve (spaces : Spaces) (stx : Syntax) : Option Binding :=
  stx.context.binding <|> (spaces.resolveWithMarks stx).1

/-- What an identifier denotes now; without a binding it is free. -/
def denoted (spaces : Spaces) (stx : Syntax) (name : String) : Denotation :=
  spaces.denote ((spaces.resolve stx).getD (.free name))

/-- The key under which a binding form binds an identifier. -/
def bindingKey (spaces : Spaces) (stx : Syntax) (name : String) : Key :=
  let (binding, marks) := spaces.resolveWithMarks stx
  ⟨name, binding.getD (.free name), marks⟩

/-- The key under which a namespace files an identifier: what it denotes when the
namespace's own bindings are passed over. -/
def filingKey (spaces : Spaces) (ns : NamespaceId) (stx : Syntax) (name : String) : Key :=
  let (binding, marks) := spaces.resolveWraps name (some ns) stx.wraps
  ⟨name, binding.getD (.free name), marks⟩

/-- Whether a binding of one identifier would capture the other. -/
def boundIdentifierEq (spaces : Spaces) (a b : Syntax) : Bool :=
  match a.symbol?, b.symbol? with
  | some x, some y => spaces.bindingKey a x = spaces.bindingKey b y
  | _, _ => false

/-- Whether two identifiers denote the same thing now. -/
def freeIdentifierEq (spaces : Spaces) (a b : Syntax) : Bool :=
  match a.symbol?, b.symbol? with
  | some x, some y => (spaces.denoted a x).sameTarget (spaces.denoted b y)
  | _, _ => false

/-- The binding of an identifier without marks in a namespace. -/
def resolveName (spaces : Spaces) (ns : NamespaceId) (name : String) : Option Binding :=
  (spaces.substitute? ns name none .empty .empty).map .cell

theorem resolveStep_marks (spaces : Spaces) (name : String) (skip : Option NamespaceId)
    (total : MarkSet) (wrap : Wrap) (found : Option Binding × MarkSet) :
    (spaces.resolveStep name skip total wrap found).2 =
      match wrap with
      | .mark m => found.2.toggle m
      | _ => found.2 := by
  cases wrap <;> simp only [resolveStep] <;> (try split) <;> (try split) <;> rfl

theorem foldr_resolveStep_marks (spaces : Spaces) (name : String) (skip : Option NamespaceId)
    (total : MarkSet) (wraps : List Wrap) :
    (wraps.foldr (spaces.resolveStep name skip total) (none, .empty)).2 = wrapMarks wraps := by
  induction wraps with
  | nil => rfl
  | cons wrap older ih =>
    rw [List.foldr_cons, resolveStep_marks, ih]
    cases wrap <;> rfl

/-- The marks found by resolution are the marks of the chain. -/
theorem resolveWraps_marks (spaces : Spaces) (name : String) (skip : Option NamespaceId)
    (wraps : List Wrap) : (spaces.resolveWraps name skip wraps).2 = wrapMarks wraps :=
  foldr_resolveStep_marks spaces name skip _ wraps

end Spaces

/-! ## Ribs -/

/-- Adds the keys of further binders to the keys of a rib. -/
def Rib.extend (spaces : Spaces) (keys : List Key) : List Syntax → Except Error (List Key)
  | [] => .ok keys
  | binder :: rest =>
    match binder.symbol? with
    | none => .error (.atForm (.badSyntax .bindNonIdentifier) binder)
    | some name =>
      let key := spaces.bindingKey binder name
      if keys.contains key then .error (.atForm (.badSyntax (.duplicateBinder name)) binder)
      else Rib.extend spaces (keys ++ [key]) rest

/-- The rib that binds each of the identifiers to consecutive slots. -/
def Rib.ofBinders (spaces : Spaces) (id : RibId) (binders : List Syntax) : Except Error Rib :=
  (Rib.extend spaces [] binders).map fun keys => ⟨id, keys⟩

end HygienicLisp
