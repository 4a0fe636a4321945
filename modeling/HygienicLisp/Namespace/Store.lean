import HygienicLisp.Namespace.Resolve

/-!
# Definitions, imports and look-ups

The operations on all namespaces together.  Each changes at most the one namespace it is
asked to change, and a failing one changes nothing.
-/

namespace HygienicLisp

/-- The wrap that gives a form the bindings of a namespace. -/
def Syntax.introduce (ns : NamespaceId) (stx : Syntax) : Syntax := stx.addWrap (.space ns)

namespace Spaces

/-! ## Bindings -/

/-- Takes a fresh address for an identifier.  The result is the identifier with its binding
recorded. -/
def predefine (spaces : Spaces) (ns : NamespaceId) (stx : Syntax) :
    Except Error (Syntax × Spaces) :=
  match stx.symbol?, spaces[ns]? with
  | none, _ => .error (.atForm (.badSyntax .defineNonIdentifier) stx)
  | some _, none => .error (.of (.internal (.noNamespace ns)))
  | some name, some space =>
    match space.predefine ns (spaces.filingKey ns stx name) with
    | .error conflict => .error (.atForm (.ambiguous name conflict) stx)
    | .ok (index, space) =>
      .ok (stx.withBinding (.cell ⟨ns, index⟩), spaces.setIfInBounds ns space)

/-- Imports a provided definition under an identifier. -/
def require (spaces : Spaces) (ns : NamespaceId) (stx : Syntax) (provided : Provided)
    (shadowable : Bool) : Except Error Spaces :=
  match stx.symbol?, spaces[ns]? with
  | none, _ => .error (.atForm (.badSyntax .importNonIdentifier) stx)
  | some _, none => .error (.of (.internal (.noNamespace ns)))
  | some name, some space =>
    match space.require (spaces.filingKey ns stx name) provided shadowable with
    | .error conflict => .error (.atForm (.ambiguous name conflict) stx)
    | .ok space => .ok (spaces.setIfInBounds ns space)

/-! ## Values -/

/-- The value at an address of a namespace, if there is one. -/
def value? (spaces : Spaces) (ns : NamespaceId) (address : Nat) : Option Value :=
  match spaces[ns]? with
  | some space => space.value? address
  | none => none

/-- The value at an address of a namespace; it is a failure if there is none. -/
def valueAt (spaces : Spaces) (ns : NamespaceId) (address : Nat) (name : String) :
    Except Error Value :=
  match spaces[ns]? with
  | some space => space.valueAt address name
  | none => .error (.of (.internal (.noNamespace ns)))

/-- Stores a value at an address of a namespace. -/
def setValue (spaces : Spaces) (ns : NamespaceId) (address : Nat) (v : Value) : Spaces :=
  spaces.modify ns fun space => space.setValue address v

/-- The value of the definition that a binding leads to, if it has one.  The value is gone when the
owner of the definition has been freed. -/
def lookup? (spaces : Spaces) (binding : Binding) : Option Value :=
  match (spaces.denote binding).target? with
  | some d => if spaces.isFreed d.owner then none else spaces.value? d.owner d.address
  | none => none

/-- The value that the name has in a namespace when the program runs. -/
def lookupName (spaces : Spaces) (ns : NamespaceId) (name : String) : Except Error Value :=
  match (spaces.resolveName ns name).bind fun b => (spaces.denote b).target? with
  | none => .error (.of (.unbound name))
  | some d =>
    if spaces.isFreed d.owner then .error (.of (.eval (.ownerFreed name)))
    else spaces.valueAt d.owner d.address name

/-! ## Imported namespaces -/

/-- The short name under which a namespace refers to the owner of a definition.  The first
reference to a module settles it; it is a failure if the owner has been freed by then. -/
def importId (spaces : Spaces) (ns : NamespaceId) (target : Definition) :
    Except Error (Nat × Spaces) :=
  match spaces[ns]? with
  | none => .error (.of (.internal (.noNamespace ns)))
  | some space =>
    match space.importId? target.home with
    | some id => .ok (id, spaces)
    | none =>
      if spaces.isFreed target.owner then .error (.of (.contract (.moduleFreed target.home)))
      else
        .ok (space.imports.size,
          spaces.modify ns fun space =>
            { space with imports := space.imports.push (target.home, target.owner) })

/-- The value at an address of the namespace with the given short name. -/
def lookupImport (spaces : Spaces) (ns : NamespaceId) (id address : Nat) (name : String) :
    Except Error Value :=
  match spaces[ns]? with
  | none => .error (.of (.internal (.noNamespace ns)))
  | some space =>
    match space.imports[id]? with
    | some (_, owner) => spaces.valueAt owner address name
    | none => .error (.of (.internal (.noImport id space.home)))

/-! ## Freed namespaces -/

/-- Frees a namespace. -/
def free (spaces : Spaces) (ns : NamespaceId) : Spaces :=
  spaces.modify ns fun space => { space with freed := true }

end Spaces

end HygienicLisp
