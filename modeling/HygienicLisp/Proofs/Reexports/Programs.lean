import HygienicLisp.Proofs.Isolation.Sessions
import HygienicLisp.Proofs.Reexports.Names

/-!
# Programs of modules

The modules of this file consist of `require`, `define`, `define_syntax` and `provide`, written with
these names and with identifiers without context, as they are in a text, and of expressions.  What is
defined is any expression.  `Runtime.items?` reads the source of a module in this way.  If an expression
in the body of a module begins with an identifier, that is a name of the language, so that it is not the
use of a transformer that expands to something else.

These names must keep their meaning in the module (`Runtime.Untouched`): neither the module nor one that
it has the name from may give it another.  Nothing is asked of the other modules of the runtime.

`Runtime.Exports` follows the chains by which such modules pass definitions on: a module provides what
it defines, what it has imported from a module that provides it, under the name that it is known by in
the importing module, and what the language gives it.
-/

namespace HygienicLisp

/-! ## Items -/

/-- The name of an identifier that carries no context. -/
def Syntax.bareName? (stx : Syntax) : Option String :=
  if stx.wraps.isEmpty && stx.context.binding.isNone then stx.symbol? else none

/-- The path that is written as a module specification. -/
def Syntax.writtenPath? : Syntax → Option String
  | .atom _ (.str path) => some path
  | .atom _ (.symbol path) => some path
  | _ => none

/-- What is required: a module, some of its names, or some of its names under others. -/
inductive ImportSpec where
  | whole (path : String)
  | only (path : String) (names : List String)
  | renamed (path : String) (pairs : List (String × String))
  deriving DecidableEq, Repr

/-- What is provided: a name, or all that the module defines. -/
inductive ExportSpec where
  | name (name : String)
  | allDefined
  deriving DecidableEq, Repr

/-- One form of a module. -/
inductive Item where
  | require (specs : List ImportSpec)
  | define (name : String)
  | defineSyntax (name : String)
  | provide (specs : List ExportSpec)
  | expression (head : Option String)
  deriving DecidableEq, Repr

/-- The exported and the local name of a pair. -/
def readRenaming? (pair : Syntax) : Option (String × String) :=
  match pair.subforms with
  | [name, target] => do
    let exported ← name.symbol?
    let here ← target.bareName?
    return (exported, here)
  | _ => none

namespace ImportSpec

/-- Reads a specification of a `require`. -/
def read? (spec : Syntax) : Option ImportSpec :=
  match spec.subforms? with
  | none => if spec.wraps.isEmpty then spec.writtenPath?.map .whole else none
  | some (keyword :: path :: rest) =>
    if keyword.symbol? = some "only_in" then do
      return .only (← path.writtenPath?) (← rest.mapM Syntax.bareName?)
    else if keyword.symbol? = some "rename_in" then do
      return .renamed (← path.writtenPath?) (← rest.mapM readRenaming?)
    else none
  | some _ => none

/-- The path of the required module. -/
def path : ImportSpec → String
  | whole path => path
  | only path _ => path
  | renamed path _ => path

/-- What the module provides under the one name is imported under the other. -/
def Brings : ImportSpec → String → String → Prop
  | whole _, exported, here => exported = here
  | only _ names, exported, here => exported = here ∧ here ∈ names
  | renamed _ pairs, exported, here => (exported, here) ∈ pairs

/-- The names that are given afresh. -/
def newNames : ImportSpec → List String
  | renamed _ pairs => pairs.map (·.2)
  | _ => []

end ImportSpec

/-- Reads a specification of a `provide`. -/
def ExportSpec.read? (spec : Syntax) : Option ExportSpec :=
  match spec.symbol? with
  | some _ => spec.bareName?.map .name
  | none =>
    match spec.subforms with
    | [keyword] => if keyword.symbol? = some "all_defined_out" then some .allDefined else none
    | _ => none

/-- The name that a `define` defines: its first operand, or the first part of that. -/
def definedName? (target : Syntax) : Option String :=
  if target.isIdentifier then target.bareName? else (target.subforms.head?).bind Syntax.bareName?

namespace Item

/-- The core forms that are more than an expression in the body of a module. -/
def bodyForms : List CoreForm := [.require, .provide, .define, .defineSyntax, .begin, .moduleForm]

/-- Reads a form that begins with the name. -/
def readOperands? (name : String) (operands : List Syntax) : Option Item :=
  if name = CoreForm.require.name then (operands.mapM ImportSpec.read?).map .require
  else if name = CoreForm.provide.name then (operands.mapM ExportSpec.read?).map .provide
  else if name = CoreForm.define.name then ((operands.head?).bind definedName?).map .define
  else if name = CoreForm.defineSyntax.name then
    ((operands.head?).bind Syntax.bareName?).map .defineSyntax
  else if name ∈ bodyForms.map CoreForm.name then none
  else some (.expression name)

/-- Reads a form of a module. -/
def read? (form : Syntax) : Option Item :=
  match form.subforms with
  | [] => if form.isSexp then none else some (.expression none)
  | head :: operands =>
    if head.isIdentifier then (head.bareName?).bind fun name => readOperands? name operands
    else some (.expression none)

/-- The name of the language that the item begins with. -/
def head? : Item → Option String
  | require _ => some CoreForm.require.name
  | define _ => some CoreForm.define.name
  | defineSyntax _ => some CoreForm.defineSyntax.name
  | provide _ => some CoreForm.provide.name
  | expression head => head

/-- The name that the item defines. -/
def defines? : Item → Option String
  | define name => some name
  | defineSyntax name => some name
  | _ => none

/-- The names that the item gives afresh, by defining or renaming. -/
def newNames : Item → List String
  | require specs => specs.flatMap ImportSpec.newNames
  | define name => [name]
  | defineSyntax name => [name]
  | _ => []

/-- What the item requires. -/
def importSpecs : Item → List ImportSpec
  | require specs => specs
  | _ => []

end Item

/-! ## Programs -/

/-- A name that a module defines or that the language has. -/
structure Original where
  module : ModuleId
  name : String
  deriving DecidableEq, Repr

namespace Runtime

variable (runtime : Runtime)

/-- The items of a module, if its source consists of such. -/
def items? (id : ModuleId) : Option (List Item) :=
  if id = runtime.kernel.id then none
  else
    match runtime.sources.find? fun s => s.1 = id with
    | none => none
    | some (_, text) =>
      match (Source.mk id.path text).read with
      | .ok forms => forms.mapM Item.read?
      | .error _ => none

/-- The module that a path in another module names. -/
def required? (path : String) (requester : ModuleId) : Option ModuleId :=
  if path = runtime.config.kernelModule then some runtime.kernel.id
  else (ModulePath.normalize path (some requester)).toOption

/-- If names are kept as given, the text of the module keeps the name of the language: it consists of
items that begin with names that are kept there, it gives the name no other meaning, and the modules that
it imports the name from keep it. -/
structure Keeps (kept : ModuleId → String → Prop) (id : ModuleId) (name : String) : Prop where
  language : (runtime.kernel.provided? name).isSome = true
  read : ∀ source ∈ runtime.sources, source.1 = id → id = runtime.kernel.id ∨
    (runtime.items? id).isSome = true
  fresh : ∀ item ∈ (runtime.items? id).getD [], name ∉ item.newNames
  heads : ∀ item ∈ (runtime.items? id).getD [], ∀ head ∈ item.head?, kept id head
  imports : ∀ item ∈ (runtime.items? id).getD [], ∀ spec ∈ item.importSpecs, spec.Brings name name →
    ∀ dep ∈ runtime.required? spec.path id, kept dep name

/-- The name of the language keeps its meaning in the module.  This is the largest relation of modules
and names in which each text keeps what is said of it, so that modules may require each other in a
circle. -/
def Untouched (id : ModuleId) (name : String) : Prop :=
  ∃ kept, (∀ id name, kept id name → runtime.Keeps kept id name) ∧ kept id name

/-- The source of the module consists of the items, and the names of the language that these begin with
keep their meaning in it. -/
structure Modular (id : ModuleId) (items : List Item) : Prop where
  read : runtime.items? id = some items
  heads : ∀ item ∈ items, ∀ name ∈ item.head?, runtime.Untouched id name

/-- The items provide the name by itself. -/
def Provides (items : List Item) (name : String) : Prop :=
  ∃ specs, .provide specs ∈ items ∧ .name name ∈ specs

/-- The items provide all that is defined. -/
def ProvidesDefined (items : List Item) : Prop :=
  ∃ specs, .provide specs ∈ items ∧ .allDefined ∈ specs

/-- By a chain of any length, a module provides under a name what another one defines, or what the
language has. -/
inductive Exports : ModuleId → String → Original → Prop
  | language {name : String} (hname : (runtime.kernel.provided? name).isSome = true) :
      Exports runtime.kernel.id name ⟨runtime.kernel.id, name⟩
  | definition {id : ModuleId} {items : List Item} {item : Item} {name : String}
      (hmodule : runtime.Modular id items) (hitem : item ∈ items)
      (hdefines : item.defines? = some name)
      (hprovides : Provides items name ∨ ProvidesDefined items) : Exports id name ⟨id, name⟩
  | untouched {id : ModuleId} {items : List Item} {name : String}
      (hmodule : runtime.Modular id items) (hname : runtime.Untouched id name)
      (hprovides : Provides items name) : Exports id name ⟨runtime.kernel.id, name⟩
  | reexport {id dep : ModuleId} {items : List Item} {specs : List ImportSpec} {spec : ImportSpec}
      {exported name : String} {origin : Original} (hmodule : runtime.Modular id items)
      (hrequire : .require specs ∈ items) (hspec : spec ∈ specs)
      (hdep : runtime.required? spec.path id = some dep) (hbrings : spec.Brings exported name)
      (hexports : Exports dep exported origin) (hprovides : Provides items name) :
      Exports id name origin

/-- The slots that hold the language. -/
def languageSlots (slot : Slot) : Prop :=
  ∃ p ∈ runtime.kernel.provided, slot = ⟨p.target.owner, p.target.address⟩

/-- Guards the language. -/
def languageGuard : Guard := .sparing runtime.languageSlots

end Runtime

/-! ## Worlds -/

/-- The value is the core form of the name, or a procedure if there is no such core form. -/
def Value.Fits (name : String) : Value → Prop
  | .form f => f.name = name
  | .procedure _ _ => name ∉ CoreForm.all.map CoreForm.name
  | _ => False

namespace World

/-- The origin is a name of a declared module, where it stands for the definition. -/
def Defines (w : World) (origin : Original) (d : Definition) : Prop :=
  ∃ declaration, w.registry.declaration? origin.module = some declaration ∧
    w.spaces.named? declaration.space origin.name = some (.defined d)

/-- A module that has been instantiated provides the definition of the origin, under some name. -/
def Offers (w : World) (origin : Original) (p : Provided) : Prop :=
  ∃ id name i, w.runtime.Exports id name origin ∧ w.registry.instance? id = some i ∧
    i.provided? name = some p

/-- The language is in place: the kernel has been installed and provides its own definitions, each of
which is a core form or a procedure.  No namespace has been freed. -/
structure Language (w : World) : Prop where
  live : w.spaces.Live
  instance_kernel : w.registry.instance? w.runtime.kernel.id = some w.runtime.kernel
  declared : ∃ d, w.registry.declaration? w.runtime.kernel.id = some d ∧
    d.space = w.runtime.kernel.space
  module : w.spaces.IsModule w.runtime.kernel.space
  names : ∀ p ∈ w.runtime.kernel.provided,
    w.spaces.named? w.runtime.kernel.space p.name = some (.defined p.target)
  values : ∀ p ∈ w.runtime.kernel.provided, ∃ v,
    w.spaces.value? p.target.owner p.target.address = some v ∧ v.Fits p.name

/-- The language is in place, no code that is there assigns to it, and no other module has been
declared. -/
structure Primed (w : World) : Prop where
  language : w.Language
  guarded : w.Guarded w.runtime.languageGuard
  declarations : ∀ d ∈ w.registry.declarations, d.id = w.runtime.kernel.id
  instances : ∀ i ∈ w.registry.instances, i.id = w.runtime.kernel.id

end World

/-! ## Reading -/

namespace Syntax

variable {ns : NamespaceId}

theorem subforms?_introduce (stx : Syntax) :
    (stx.introduce ns).subforms? = stx.subforms?.map (·.map (introduce ns)) := by
  cases stx with
  | atom | record => rfl
  | group c shape items =>
      cases shape with
      | list => rfl
      | sexp =>
          simp only [introduce, addWrap, setContext, context, subforms?, Option.map_some, pushWrap_space,
            List.map_map]
          rfl

theorem subforms_introduce (stx : Syntax) :
    (stx.introduce ns).subforms = stx.subforms.map (introduce ns) := by
  rw [subforms, subforms?_introduce, subforms]
  cases stx.subforms? <;> rfl

@[simp] theorem symbol?_introduce (stx : Syntax) : (stx.introduce ns).symbol? = stx.symbol? :=
  symbol?_addWrap _ stx

theorem isSexp_introduce (ns : NamespaceId) (stx : Syntax) : (stx.introduce ns).isSexp = stx.isSexp := by
  cases stx with
  | atom | record => rfl
  | group c shape items => cases shape <;> rfl

theorem wraps_introduce (ns : NamespaceId) {stx : Syntax} (h : stx.wraps = []) :
    (stx.introduce ns).wraps = [.space ns] := by
  rw [introduce, addWrap]
  cases stx <;> simp_all [setContext, wraps, context, pushWrap]

/-- A bare name is written in a namespace by putting it there. -/
theorem names_introduce (ns : NamespaceId) {stx : Syntax} {name : String}
    (h : stx.bareName? = some name) :
    (stx.introduce ns).Names ns name := by
  rw [bareName?] at h
  split at h
  · rename_i hplain
    rw [Bool.and_eq_true, List.isEmpty_iff, Option.isNone_iff_eq_none] at hplain
    refine ⟨(symbol?_introduce stx).trans h, wraps_introduce ns hplain.1, ?_⟩
    cases stx <;> rfl
  · cases h

end Syntax

theorem forall₂_of_mapM {α β : Type} {f : α → Option β} {items : List α} {results : List β}
    (h : items.mapM f = some results) : List.Forall₂ (fun a b => f a = some b) items results := by
  induction items generalizing results with
  | nil =>
      cases h
      exact .nil
  | cons a rest ih =>
      rw [List.mapM_cons] at h
      obtain ⟨b, hb, h⟩ := Option.bind_eq_some_iff.1 h
      obtain ⟨bs, hbs, h⟩ := Option.bind_eq_some_iff.1 h
      cases h
      exact .cons hb (ih hbs)

/-- What is read as an item. -/
inductive Item.Reads (form : Syntax) : Item → Prop
  | require {head : Syntax} {operands : List Syntax} {specs : List ImportSpec}
      (hparts : form.subforms = head :: operands)
      (hhead : head.bareName? = some CoreForm.require.name)
      (hspecs : List.Forall₂ (fun stx spec => ImportSpec.read? stx = some spec) operands specs) :
      Reads form (.require specs)
  | provide {head : Syntax} {operands : List Syntax} {specs : List ExportSpec}
      (hparts : form.subforms = head :: operands)
      (hhead : head.bareName? = some CoreForm.provide.name)
      (hspecs : List.Forall₂ (fun stx spec => ExportSpec.read? stx = some spec) operands specs) :
      Reads form (.provide specs)
  | define {head target : Syntax} {rest : List Syntax} {name : String}
      (hparts : form.subforms = head :: target :: rest)
      (hhead : head.bareName? = some CoreForm.define.name)
      (hname : definedName? target = some name) : Reads form (.define name)
  | defineSyntax {head target : Syntax} {rest : List Syntax} {name : String}
      (hparts : form.subforms = head :: target :: rest)
      (hhead : head.bareName? = some CoreForm.defineSyntax.name)
      (hname : target.bareName? = some name) : Reads form (.defineSyntax name)
  | expression {head : Syntax} {operands : List Syntax} {name : String}
      (hparts : form.subforms = head :: operands) (hhead : head.bareName? = some name)
      (hname : name ∉ bodyForms.map CoreForm.name) : Reads form (.expression name)
  | application {head : Syntax} {operands : List Syntax} (hparts : form.subforms = head :: operands)
      (hhead : head.isIdentifier = false) : Reads form (.expression none)
  | datum (hparts : form.isSexp = false) : Reads form (.expression none)

theorem Item.reads_of_read? {form : Syntax} {item : Item} (h : Item.read? form = some item) :
    item.Reads form := by
  unfold Item.read? at h
  split at h
  · split at h
    · cases h
    · rename_i hsexp
      cases h
      exact .datum (by simpa using hsexp)
  · rename_i head operands hparts
    split at h
    case isFalse hidentifier =>
      cases h
      exact .application hparts (by simpa using hidentifier)
    obtain ⟨name, hhead, h⟩ := Option.bind_eq_some_iff.1 h
    unfold readOperands? at h
    split at h
    · rename_i hname
      subst hname
      obtain ⟨specs, hspecs, rfl⟩ := Option.map_eq_some_iff.1 h
      exact .require hparts hhead (forall₂_of_mapM hspecs)
    split at h
    · rename_i hname
      subst hname
      obtain ⟨specs, hspecs, rfl⟩ := Option.map_eq_some_iff.1 h
      exact .provide hparts hhead (forall₂_of_mapM hspecs)
    split at h
    · rename_i hname
      subst hname
      obtain ⟨defined, hdefined, rfl⟩ := Option.map_eq_some_iff.1 h
      obtain ⟨target, htarget, hdefined⟩ := Option.bind_eq_some_iff.1 hdefined
      obtain ⟨rest, rfl⟩ := List.head?_eq_some_iff.1 htarget
      exact .define hparts hhead hdefined
    split at h
    · rename_i hname
      subst hname
      obtain ⟨defined, hdefined, rfl⟩ := Option.map_eq_some_iff.1 h
      obtain ⟨target, htarget, hdefined⟩ := Option.bind_eq_some_iff.1 hdefined
      obtain ⟨rest, rfl⟩ := List.head?_eq_some_iff.1 htarget
      exact .defineSyntax hparts hhead hdefined
    split at h
    · cases h
    · rename_i hname
      cases h
      exact .expression hparts hhead hname

namespace Runtime

variable {runtime : Runtime} {id : ModuleId} {items : List Item}

/-- The source of a module with items. -/
theorem exists_source_of_items? (h : runtime.items? id = some items) :
    ∃ text forms, runtime.sources.find? (fun s => s.1 = id) = some (id, text) ∧
      (Source.mk id.path text).read = .ok forms ∧
      List.Forall₂ (fun form item => Item.read? form = some item) forms items := by
  unfold items? at h
  split at h
  · cases h
  · split at h
    · cases h
    · rename_i found text hfind
      split at h
      · rename_i forms hforms
        obtain rfl : found = id := by simpa using List.find?_some hfind
        exact ⟨text, forms, hfind, hforms, forall₂_of_mapM h⟩
      · cases h

theorem Keeps.mono {kept kept' : ModuleId → String → Prop} {name : String}
    (h : ∀ id name, kept id name → kept' id name) (hname : runtime.Keeps kept id name) :
    runtime.Keeps kept' id name where
  language := hname.language
  read := hname.read
  fresh := hname.fresh
  heads item hitem head hhead := h id head (hname.heads item hitem head hhead)
  imports item hitem spec hspec hbrings dep hdep :=
    h dep name (hname.imports item hitem spec hspec hbrings dep hdep)

/-- A module whose source has been read keeps the name. -/
theorem keeps_of_items? {kept : ModuleId → String → Prop} {name : String}
    (hlanguage : (runtime.kernel.provided? name).isSome = true)
    (hitems : runtime.items? id = some items) (hfresh : ∀ item ∈ items, name ∉ item.newNames)
    (hheads : ∀ item ∈ items, ∀ head ∈ item.head?, kept id head)
    (himports : ∀ item ∈ items, ∀ spec ∈ item.importSpecs, spec.Brings name name →
      ∀ dep ∈ runtime.required? spec.path id, kept dep name) : runtime.Keeps kept id name := by
  refine ⟨hlanguage, fun _ _ _ => .inr (by rw [hitems]; rfl), ?_, ?_, ?_⟩ <;>
    rw [hitems, Option.getD_some] <;> assumption

namespace Untouched

variable {name : String}

/-- A name that is kept is kept by the text, if all that are do. -/
theorem keeps (h : runtime.Untouched id name) : runtime.Keeps runtime.Untouched id name := by
  obtain ⟨kept, hkeeps, hname⟩ := h
  exact (hkeeps id name hname).mono fun id name hkept => ⟨kept, hkeeps, hkept⟩

theorem notMem (h : runtime.Untouched id name) (hitems : runtime.items? id = some items) {item : Item}
    (hitem : item ∈ items) : name ∉ item.newNames :=
  h.keeps.fresh item (by rwa [hitems])

theorem imported (h : runtime.Untouched id name) (hitems : runtime.items? id = some items)
    {specs : List ImportSpec} (hitem : .require specs ∈ items) {spec : ImportSpec} (hspec : spec ∈ specs)
    (hbrings : spec.Brings name name) {dep : ModuleId} (hdep : runtime.required? spec.path id = some dep) :
    runtime.Untouched dep name :=
  h.keeps.imports (.require specs) (by rwa [hitems]) spec hspec hbrings dep hdep

/-- A module with a source that keeps a name consists of items. -/
theorem modular (h : runtime.Untouched id name) {source : ModuleId × String}
    (hsource : source ∈ runtime.sources) (hid : source.1 = id) (hkernel : id ≠ runtime.kernel.id) :
    ∃ items, runtime.Modular id items := by
  obtain ⟨items, hitems⟩ := Option.isSome_iff_exists.1
    ((h.keeps.read source hsource hid).resolve_left hkernel)
  refine ⟨items, hitems, fun item hitem => h.keeps.heads item ?_⟩
  rwa [hitems]

end Untouched

theorem items?_kernel : runtime.items? runtime.kernel.id = none := by
  rw [items?, if_pos rfl]

/-- The language is not written in the language. -/
theorem Modular.ne_kernel (h : runtime.Modular id items) : id ≠ runtime.kernel.id := by
  rintro rfl
  have hitems := h.read
  rw [items?_kernel] at hitems
  cases hitems

/-- What a module other than the language exports is told by its items. -/
theorem Exports.modular {name : String} {origin : Original} (h : runtime.Exports id name origin)
    (hid : id ≠ runtime.kernel.id) : ∃ items, runtime.Modular id items := by
  cases h with
  | language => exact absurd rfl hid
  | definition hmodule | untouched hmodule | reexport hmodule => exact ⟨_, hmodule⟩

/-- What the kernel exports is its own. -/
theorem Exports.of_kernel {name : String} {origin : Original}
    (h : runtime.Exports runtime.kernel.id name origin) :
    origin = ⟨runtime.kernel.id, name⟩ ∧ (runtime.kernel.provided? name).isSome = true := by
  cases h with
  | language hname => exact ⟨rfl, hname⟩
  | definition hmodule | untouched hmodule | reexport hmodule => exact absurd rfl hmodule.ne_kernel

end Runtime

end HygienicLisp
