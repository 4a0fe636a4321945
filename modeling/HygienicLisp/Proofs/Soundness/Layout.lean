import HygienicLisp.Proofs.Contexts
import HygienicLisp.World
import Mathlib.Order.Defs.PartialOrder

/-!
# Layouts and well-scoped code

Code refers to frames by their depth and to their slots by number, so it is only as good as the
chain of frames it runs in.  A layout records what such references rely on: the size and the
parent of every frame, the number of imports of every namespace, and the number of variables of
every rib.  A running program only adds to it.

`Code.Scoped` says that code stays, at each of its places, within the frames around that place;
`Value.Sound` that all code reachable from a value is scoped for the frames it was closed over.
Main statement: both survive every addition to the layout (`Value.Sound.mono`,
`Code.Scoped.mono`).
-/

namespace HygienicLisp

/-- What references in code rely on. -/
structure Layout where
  /-- The size and the parent of every frame. -/
  frames : List (Nat × Option Nat)
  /-- The number of imports of every namespace. -/
  imports : List Nat
  /-- The number of variables of the ribs that have been made. -/
  ribs : RibId → Option Nat

namespace Layout

/-- The second layout has everything that the first has. -/
structure Extended (L L' : Layout) : Prop where
  frames : ∀ (i : Nat) (frame : Nat × Option Nat), L.frames[i]? = some frame → L'.frames[i]? = some frame
  imports : ∀ (ns : NamespaceId) (count : Nat), L.imports[ns]? = some count →
    ∃ count', L'.imports[ns]? = some count' ∧ count ≤ count'
  ribs : ∀ rib size, L.ribs rib = some size → L'.ribs rib = some size

instance : Preorder Layout where
  le := Extended
  le_refl _ := ⟨fun _ _ h => h, fun _ count h => ⟨count, h, le_rfl⟩, fun _ _ h => h⟩
  le_trans _ _ _ h₁ h₂ :=
    { frames := fun i frame h => h₂.frames i frame (h₁.frames i frame h)
      imports := fun ns count h => by
        obtain ⟨count₁, hcount₁, hle₁⟩ := h₁.imports ns count h
        obtain ⟨count₂, hcount₂, hle₂⟩ := h₂.imports ns count₁ hcount₁
        exact ⟨count₂, hcount₂, hle₁.trans hle₂⟩
      ribs := fun rib size h => h₂.ribs rib size (h₁.ribs rib size h) }

/-- The sizes of the frames of a chain, innermost first. -/
inductive Chain (L : Layout) : Option Nat → List Nat → Prop
  | top : Chain L none []
  | frame {i size : Nat} {parent : Option Nat} {sizes : List Nat}
      (hframe : L.frames[i]? = some (size, parent)) (hparent : Chain L parent sizes) :
      Chain L (some i) (size :: sizes)

/-- The slot is one of the frame at the depth. -/
def InFrame (sizes : List Nat) (depth slot : Nat) : Prop :=
  ∃ size, sizes[depth]? = some size ∧ slot < size

/-- The number is the short name of an import. -/
def HasImport (L : Layout) (ns : NamespaceId) (id : Nat) : Prop :=
  ∃ count, L.imports[ns]? = some count ∧ id < count

/-- The layout knows the namespace. -/
def HasSpace (L : Layout) (ns : NamespaceId) : Prop := ns < L.imports.length

/-- The variable is one of a rib that has been made. -/
def HasLocal (L : Layout) (v : LocalVar) : Prop := ∃ size, L.ribs v.rib = some size ∧ v.slot < size

/-- A rib in the wrap is one that has been made. -/
def KnowsWrap (L : Layout) (wrap : Wrap) : Prop :=
  ∀ rib, wrap = .rename rib → L.ribs rib.id = some rib.keys.length

/-- A local variable is one of a rib that has been made. -/
def KnowsBinding (L : Layout) (b : Binding) : Prop := ∀ v, b = .lexical v → L.HasLocal v

variable {L L' : Layout}

theorem Chain.mono (hL : L ≤ L') {frame : Option Nat} {sizes : List Nat} (h : L.Chain frame sizes) :
    L'.Chain frame sizes := by
  induction h with
  | top => exact .top
  | frame hframe _ ih => exact .frame (hL.frames _ _ hframe) ih

theorem HasImport.mono (hL : L ≤ L') {ns : NamespaceId} {id : Nat} (h : L.HasImport ns id) :
    L'.HasImport ns id := by
  obtain ⟨count, hcount, hid⟩ := h
  obtain ⟨count', hcount', hle⟩ := hL.imports ns count hcount
  exact ⟨count', hcount', by omega⟩

theorem HasSpace.mono (hL : L ≤ L') {ns : NamespaceId} (h : L.HasSpace ns) : L'.HasSpace ns := by
  obtain ⟨count, hcount, -⟩ := hL.imports ns _ (List.getElem?_eq_getElem h)
  exact (List.getElem?_eq_some_iff.1 hcount).1

theorem HasLocal.mono (hL : L ≤ L') {v : LocalVar} (h : L.HasLocal v) : L'.HasLocal v := by
  obtain ⟨size, hsize, hslot⟩ := h
  exact ⟨size, hL.ribs _ _ hsize, hslot⟩

end Layout

/-- Every rib in the form is one that has been made. -/
def Syntax.Known (L : Layout) (stx : Syntax) : Prop := stx.Carries L.KnowsWrap L.KnowsBinding

theorem Syntax.Known.mono {L L' : Layout} (hL : L ≤ L') {stx : Syntax} (h : stx.Known L) :
    stx.Known L' :=
  Syntax.Carries.mono h (fun _ hwrap rib heq => hL.ribs _ _ (hwrap rib heq))
    fun _ hb v heq => (hb v heq).mono hL

theorem Syntax.Known.subforms? {L : Layout} {stx : Syntax} (h : stx.Known L) {parts : List Syntax}
    (hparts : stx.subforms? = some parts) : ∀ part ∈ parts, part.Known L :=
  Syntax.Carries.subforms? h hparts

theorem Syntax.Known.subforms {L : Layout} {stx : Syntax} (h : stx.Known L) :
    ∀ part ∈ stx.subforms, part.Known L :=
  Syntax.Carries.subforms h

mutual

/-- All code reachable from the value is scoped. -/
inductive Value.Sound (L : Layout) : Value → Prop
  | void : Value.Sound L .void
  | atom {a : Atom} : Value.Sound L (.atom a)
  | group {shape : Shape} {items : List Value} (hitems : ∀ v ∈ items, Value.Sound L v) :
      Value.Sound L (.group shape items)
  | record {label : Nat} {fields : List (String × Value)}
      (hfields : ∀ field ∈ fields, Value.Sound L field.2) : Value.Sound L (.record label fields)
  | stx {s : Syntax} (hs : s.Known L) : Value.Sound L (.stx s)
  | procedure {id : ObjectId} {p : Procedure} (hp : Procedure.Sound L p) :
      Value.Sound L (.procedure id p)
  | transformer {id procedureId : ObjectId} {p : Procedure} (hp : Procedure.Sound L p) :
      Value.Sound L (.transformer id procedureId p)
  | form {f : CoreForm} : Value.Sound L (.form f)

/-- All code reachable from the procedure is scoped.  A closure's code runs in a frame for its
arguments, with a slot for the list of the rest if it takes them. -/
inductive Procedure.Sound (L : Layout) : Procedure → Prop
  | native {p : Primitive} : Procedure.Sound L (.native p.arity p)
  | closure {required : Nat} {rest : Bool} {body : Code} {env : Env} {sizes : List Nat}
      (hspace : L.HasSpace env.space) (hchain : L.Chain env.frame sizes)
      (hbody : Code.Scoped L env.space ((required + rest.toNat) :: sizes) body) :
      Procedure.Sound L (.closure required rest body env)
  | parameter {default : Value} (hdefault : Value.Sound L default) :
      Procedure.Sound L (.parameter default)

/-- Every reference of the code is within the frames around its place, whose sizes are given
innermost first, or is an import of the namespace. -/
inductive Code.Scoped (L : Layout) : NamespaceId → List Nat → Code → Prop
  | constant {ns : NamespaceId} {sizes : List Nat} {v : Value} (hv : Value.Sound L v) :
      Code.Scoped L ns sizes (.constant v)
  | void {ns : NamespaceId} {sizes : List Nat} : Code.Scoped L ns sizes .void
  | localRef {ns : NamespaceId} {sizes : List Nat} {depth slot : Nat} {name : String}
      (hslot : Layout.InFrame sizes depth slot) :
      Code.Scoped L ns sizes (.localRef depth slot name)
  | topRef {ns : NamespaceId} {sizes : List Nat} {address : Nat} {name : String} :
      Code.Scoped L ns sizes (.topRef address name)
  | importRef {ns : NamespaceId} {sizes : List Nat} {id address : Nat} {name : String}
      (hid : L.HasImport ns id) : Code.Scoped L ns sizes (.importRef id address name)
  | freeRef {ns : NamespaceId} {sizes : List Nat} {name : String} {origin : Syntax} :
      Code.Scoped L ns sizes (.freeRef name origin)
  | localSet {ns : NamespaceId} {sizes : List Nat} {depth slot : Nat} {value : Code}
      (hslot : Layout.InFrame sizes depth slot) (hvalue : Code.Scoped L ns sizes value) :
      Code.Scoped L ns sizes (.localSet depth slot value)
  | topSet {ns : NamespaceId} {sizes : List Nat} {address : Nat} {value : Code}
      (hvalue : Code.Scoped L ns sizes value) : Code.Scoped L ns sizes (.topSet address value)
  | define {ns : NamespaceId} {sizes : List Nat} {name : String} {address : Nat} {value : Code}
      (hvalue : Code.Scoped L ns sizes value) :
      Code.Scoped L ns sizes (.define name address value)
  | defineSyntax {ns : NamespaceId} {sizes : List Nat} {name : String} {address : Nat}
      {value : Code} {origin : Syntax} (hvalue : Code.Scoped L ns sizes value) :
      Code.Scoped L ns sizes (.defineSyntax name address value origin)
  | branch {ns : NamespaceId} {sizes : List Nat} {test consequent alternative : Code}
      (htest : Code.Scoped L ns sizes test) (hconsequent : Code.Scoped L ns sizes consequent)
      (halternative : Code.Scoped L ns sizes alternative) :
      Code.Scoped L ns sizes (.branch test consequent alternative)
  | sequence {ns : NamespaceId} {sizes : List Nat} {forms : List Code}
      (hforms : ∀ code ∈ forms, Code.Scoped L ns sizes code) :
      Code.Scoped L ns sizes (.sequence forms)
  | lambda {ns : NamespaceId} {sizes : List Nat} {name : Option String} {required : Nat}
      {rest : Bool} {body : Code}
      (hbody : Code.Scoped L ns ((required + rest.toNat) :: sizes) body) :
      Code.Scoped L ns sizes (.lambda name required rest body)
  | letIn {ns : NamespaceId} {sizes : List Nat} {inits : List Code} {body : Code}
      (hinits : ∀ code ∈ inits, Code.Scoped L ns sizes code)
      (hbody : Code.Scoped L ns (inits.length :: sizes) body) :
      Code.Scoped L ns sizes (.letIn inits body)
  | letrec {ns : NamespaceId} {sizes : List Nat} {inits : List Code} {body : Code}
      (hinits : ∀ code ∈ inits, Code.Scoped L ns (inits.length :: sizes) code)
      (hbody : Code.Scoped L ns (inits.length :: sizes) body) :
      Code.Scoped L ns sizes (.letrec inits body)
  | apply {ns : NamespaceId} {sizes : List Nat} {operator : Code} {operands : List Code}
      {call : Syntax} (hoperator : Code.Scoped L ns sizes operator)
      (hoperands : ∀ code ∈ operands, Code.Scoped L ns sizes code) :
      Code.Scoped L ns sizes (.apply operator operands call)
  | parameterize {ns : NamespaceId} {sizes : List Nat} {bindings : List (Code × Code)} {body : Code}
      (hparameters : ∀ binding ∈ bindings, Code.Scoped L ns sizes binding.1)
      (hvalues : ∀ binding ∈ bindings, Code.Scoped L ns sizes binding.2)
      (hbody : Code.Scoped L ns sizes body) :
      Code.Scoped L ns sizes (.parameterize bindings body)
  | listLiteral {ns : NamespaceId} {sizes : List Nat} {elements : List Code}
      (helements : ∀ code ∈ elements, Code.Scoped L ns sizes code) :
      Code.Scoped L ns sizes (.listLiteral elements)
  | recordLiteral {ns : NamespaceId} {sizes : List Nat} {fields : List (String × Code)}
      (hfields : ∀ field ∈ fields, Code.Scoped L ns sizes field.2) :
      Code.Scoped L ns sizes (.recordLiteral fields)

end

section

variable {L L' : Layout}

mutual

theorem Value.Sound.mono (hL : L ≤ L') {v : Value} : v.Sound L → v.Sound L'
  | .void => .void
  | .atom => .atom
  | .group hitems => .group fun v hv => (hitems v hv).mono hL
  | .record hfields => .record fun field hfield => (hfields field hfield).mono hL
  | .stx hs => .stx (hs.mono hL)
  | .procedure hp => .procedure (hp.mono hL)
  | .transformer hp => .transformer (hp.mono hL)
  | .form => .form

theorem Procedure.Sound.mono (hL : L ≤ L') {p : Procedure} : p.Sound L → p.Sound L'
  | .native => .native
  | .closure hspace hchain hbody => .closure (hspace.mono hL) (hchain.mono hL) (hbody.mono hL)
  | .parameter hdefault => .parameter (hdefault.mono hL)

theorem Code.Scoped.mono (hL : L ≤ L') {ns : NamespaceId} {sizes : List Nat} {code : Code} :
    code.Scoped L ns sizes → code.Scoped L' ns sizes
  | .constant hv => .constant (hv.mono hL)
  | .void => .void
  | .localRef hslot => .localRef hslot
  | .topRef => .topRef
  | .importRef hid => .importRef (hid.mono hL)
  | .freeRef => .freeRef
  | .localSet hslot hvalue => .localSet hslot (hvalue.mono hL)
  | .topSet hvalue => .topSet (hvalue.mono hL)
  | .define hvalue => .define (hvalue.mono hL)
  | .defineSyntax hvalue => .defineSyntax (hvalue.mono hL)
  | .branch htest hconsequent halternative =>
      .branch (htest.mono hL) (hconsequent.mono hL) (halternative.mono hL)
  | .sequence hforms => .sequence fun code hcode => (hforms code hcode).mono hL
  | .lambda hbody => .lambda (hbody.mono hL)
  | .letIn hinits hbody => .letIn (fun code hcode => (hinits code hcode).mono hL) (hbody.mono hL)
  | .letrec hinits hbody => .letrec (fun code hcode => (hinits code hcode).mono hL) (hbody.mono hL)
  | .apply hoperator hoperands =>
      .apply (hoperator.mono hL) fun code hcode => (hoperands code hcode).mono hL
  | .parameterize hparameters hvalues hbody =>
      .parameterize (fun binding hbinding => (hparameters binding hbinding).mono hL)
        (fun binding hbinding => (hvalues binding hbinding).mono hL) (hbody.mono hL)
  | .listLiteral helements => .listLiteral fun code hcode => (helements code hcode).mono hL
  | .recordLiteral hfields => .recordLiteral fun field hfield => (hfields field hfield).mono hL

end

end

end HygienicLisp
