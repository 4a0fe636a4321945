import HygienicLisp.Proofs.ModuleScope.SecondPass

/-!
# The order of definitions

A module whose body consists of definitions of procedures is declared in one order exactly if it is in
any other.  Every name of the module leads to the address that is reserved for it, wherever in the body
it stands, so that both orders have the same code up to the addresses.

Both passes are followed for one order first.  The second pass compiles each definition by itself, from
a world that has the reserved addresses (`OpenedModule.Midway`), so it does not matter which
definitions have been compiled before.  Then the definitions of two orders are compared one by one.

Main statement: `declareModule_perm`.
-/

namespace HygienicLisp

open Expansion

/-- A module whose namespace has imported the language, and how it is going to be declared. -/
structure OpenedModule where
  loader : Loader
  fuel : Nat
  runtime : Runtime
  /-- All namespaces when the body begins. -/
  spaces : Spaces
  ns : NamespaceId
  /-- The namespace of the module when the body begins. -/
  base : Namespace

namespace OpenedModule

/-- The namespace of the language. -/
abbrev kernel (m : OpenedModule) : NamespaceId := m.runtime.kernel.space

/-- The namespaces after the first pass has left the namespace of the module as it is there. -/
abbrev reserved (m : OpenedModule) (space : Namespace) : Spaces := m.spaces.put m.ns space

/-- The world is one of the second pass: since the first has ended, only short names have been given. -/
structure Midway (m : OpenedModule) (space : Namespace) (w : World) : Prop where
  runtime : w.runtime = m.runtime
  spaces : (m.reserved space).SameButImports m.kernel m.ns w.spaces

/-- The second pass compiles the definition to the code, from some world of the pass. -/
def Compiled (m : OpenedModule) (space : Namespace) (form : Syntax) (code : Code) : Prop :=
  ∃ pending w w', PendingDefinition m.kernel m.ns space form pending ∧ m.Midway space w ∧
    compiledForm m.loader m.fuel m.ns .moduleBody pending w = .ok code w'

variable {m : OpenedModule} {names names' : List String} {space space' : Namespace} {w w' : World}

/-- The numbers that a run of the second order gives from `w'` on, for those that a run of the first
gives from `w` on. -/
abbrev reorder (m : OpenedModule) (names names' : List String) (space space' : Namespace)
    (w w' : World) : Renumbering :=
  .reorder m.ns names names' space space' w.nextRib w'.nextRib

/-- The namespaces after the first pass, in two orders. -/
abbrev sides (m : OpenedModule) (space space' : Namespace) : Sides :=
  ⟨m.runtime, m.reserved space, m.reserved space'⟩

section

variable (hm : m.spaces.Begun m.kernel m.ns m.base) (hspace : m.base.Reserved m.ns names space)

include hm hspace

theorem midway (hruntime : w.runtime = m.runtime) (hspaces : w.spaces = m.reserved space) :
    m.Midway space w := by
  refine ⟨hruntime, ⟨space.imports, ?_⟩, fun own hown => ?_⟩
  · rw [hspaces]
    refine Array.ext_getElem? fun o => ?_
    rw [Array.getElem?_modify]
    split
    · rename_i ho
      rw [← ho, Spaces.own_put hm.space]
      rfl
    · rfl
  · rw [hspaces, Spaces.own_put hm.space] at hown
    cases hown
    exact hspace.refersTo hm.blank _

/-- What the first pass leaves of a definition has the cell in which its name is defined. -/
theorem content_pending {name : String} {index : Nat} (hname : name ∈ names)
    (hfind : space.find? (plainKey name) = some index) :
    (m.reserved space).content? ⟨m.ns, index⟩ =
      some (.defined ⟨name, names.idxOf name, m.ns, m.base.home⟩) := by
  have hholding := hspace.holding name
  rw [if_pos hname, Namespace.holding?, hfind] at hholding
  rw [Spaces.content?_put hm.space]
  exact hholding

end

/-! ## Two orders -/

section

variable (hm : m.spaces.Begun m.kernel m.ns m.base) (hspace : m.base.Reserved m.ns names space)
  (hspace' : m.base.Reserved m.ns names' space') (hperm : names.Perm names')

include hm hspace

theorem reserves (space' : Namespace) {ρ : Renumbering} (hρ : ρ.space = m.ns) :
    (m.sides space space').Reserves ρ names := by
  refine ⟨hρ ▸ Spaces.reserves_reserved hm.space hm.blank hm.apart hspace, fun name hname c hc => ?_⟩
  have hform : ∃ f : CoreForm, name = f.name := by
    rcases List.mem_cons.1 hname with rfl | hname
    · exact ⟨.lambda, rfl⟩
    · exact ⟨.letrec, List.mem_singleton.1 hname⟩
  obtain ⟨f, rfl⟩ := hform
  obtain ⟨c', hc', hlookup⟩ := hm.keyword hspace f
  cases hc.symm.trans hc'
  exact ⟨f, hlookup⟩

theorem procedure (hdefine : CoreForm.define.name ∉ names) (hlambda : CoreForm.lambda.name ∉ names)
    (space' : Namespace) {form : Syntax} {name : String} {n : Syntax.Normal}
    (h : Syntax.Prepared m.kernel m.ns name form n) : n.Procedure (m.sides space space') m.ns := by
  refine ⟨h.head, h.unexpanded, hm.headValue_names hspace hdefine h.head, ?_⟩
  obtain ⟨first, rest, hparts, hfirst⟩ := h.lambda
  refine ⟨first, rest, hparts, ?_⟩
  rcases hfirst with hfirst | ⟨site, rfl⟩
  · exact hm.headValue_names hspace hlambda hfirst
  · exact hm.headValue_ofKernel hspace .lambda site

include hspace' hperm

theorem Midway.twins (hw : m.Midway space w) (hw' : m.Midway space' w') :
    World.Twins (m.sides space space') (m.reorder names names' space space' w w') w w' where
  runtime := hw.runtime
  runtime' := hw'.runtime
  ribs := ⟨0, rfl, rfl⟩
  base := Spaces.twins_reserved hm.space hm.blank hm.apart hm.definitions hspace hspace' hperm
  first := hw.spaces
  second := hw'.spaces

/-- The cell of a name in the second order. -/
theorem renumber_cell {name : String} {index index' : Nat}
    (hfind : space.find? (plainKey name) = some index)
    (hfind' : space'.find? (plainKey name) = some index') (w w' : World) :
    (⟨m.ns, index⟩ : CellRef).renumber (m.reorder names names' space space' w w') = ⟨m.ns, index'⟩ := by
  have htwins : Namespace.Twins (m.reorder names names' space space' w w') space space' :=
    hspace.twins hm.blank hm.apart hspace' hperm
  have hsame := htwins.find (plainKey name)
  rw [Key.renumber_eq_plainKey_iff.2 rfl, hfind, hfind', Option.map_some, Option.some.injEq] at hsame
  exact (if_pos rfl).trans (congrArg (CellRef.mk m.ns) hsame.symm)

/-- A definition is compiled alike from any two worlds of the second pass, in either order. -/
theorem outcomes_pending (hdefine : CoreForm.define.name ∉ names)
    (hlambda : CoreForm.lambda.name ∉ names) {form pending pending' : Syntax}
    (hname : form.definedName ∈ names) (hpending : PendingDefinition m.kernel m.ns space form pending)
    (hpending' : PendingDefinition m.kernel m.ns space' form pending') (hw : m.Midway space w)
    (hw' : m.Midway space' w') :
    Outcomes (fun w w' => m.Midway space w ∧ m.Midway space' w')
      (Code.SameProcedure (m.reorder names names' space space' w w') names form.definedName
        (names.idxOf form.definedName))
      (compiledForm m.loader m.fuel m.ns .moduleBody pending w)
      (compiledForm m.loader m.fuel m.ns .moduleBody pending' w') := by
  obtain ⟨n, index, hprepared, hfind, rfl⟩ := hpending
  obtain ⟨n', index', hprepared', hfind', rfl⟩ := hpending'
  cases hprepared.normal.symm.trans hprepared'.normal
  have hagree := agree_compiledForm (ρ := m.reorder names names' space space' w w')
    (procedure hm hspace hdefine hlambda space' hprepared) (reserves hm hspace space' rfl) rfl rfl
    (content_pending hm hspace hname hfind) m.loader m.fuel (form.introduce m.ns)
  rw [renumber_cell hm hspace hspace' hperm hfind hfind' w w'] at hagree
  refine (hagree w w' (hw.twins hm hspace hspace' hperm hw')).mono fun w₁ w₁' hw₁ => ?_
  exact ⟨⟨hw₁.runtime, hw₁.first⟩, ⟨hw₁.runtime', hw₁.second⟩⟩

end

/-! ## The second pass -/

theorem secondPass_cons (loader : Loader) (ns : NamespaceId) (fuel : Nat) (form : Syntax)
    (rest : List Syntax) :
    secondPass loader ns fuel (form :: rest) =
      (do
        let code ← compiledForm loader fuel ns .moduleBody form
        let codes ← secondPass loader ns fuel rest
        return code :: codes) := by
  rw [secondPass, compiledForm, bind_assoc]

section

variable (hm : m.spaces.Begun m.kernel m.ns m.base) (hspace : m.base.Reserved m.ns names space)
  (hdefine : CoreForm.define.name ∉ names) (hlambda : CoreForm.lambda.name ∉ names)

include hm hspace hdefine hlambda

/-- Compiling a definition leaves a world of the second pass. -/
theorem Midway.compiledForm (hw : m.Midway space w) {form pending : Syntax} {code : Code}
    (hname : form.definedName ∈ names) (hpending : PendingDefinition m.kernel m.ns space form pending)
    (h : HygienicLisp.compiledForm m.loader m.fuel m.ns .moduleBody pending w = .ok code w') :
    m.Midway space w' := by
  have hself := outcomes_pending hm hspace hspace (List.Perm.refl names) hdefine hlambda hname hpending
    hpending hw hw
  rw [h] at hself
  exact hself.of_ok.1.1

/-- If the second pass ends well, it has compiled each definition. -/
theorem compiled_of_secondPass {body pending : List Syntax} {codes : List Code}
    (hbody : ∀ form ∈ body, form.definedName ∈ names)
    (hpending : List.Forall₂ (PendingDefinition m.kernel m.ns space) body pending)
    (hw : m.Midway space w)
    (h : secondPass m.loader m.ns m.fuel pending w = .ok codes w') :
    m.Midway space w' ∧ List.Forall₂ (m.Compiled space) body codes := by
  induction hpending generalizing w codes with
  | nil =>
      cases h
      exact ⟨hw, .nil⟩
  | @cons form pending body rest hform _ ih =>
      obtain ⟨hname, hbody⟩ := List.forall_mem_cons.1 hbody
      rw [secondPass_cons] at h
      obtain ⟨code, w₁, hcode, h⟩ := RunM.bind_eq_ok.1 h
      obtain ⟨others, w₂, hothers, h⟩ := RunM.bind_eq_ok.1 h
      cases h
      obtain ⟨hw', hcodes⟩ := ih hbody
        (hw.compiledForm hm hspace hdefine hlambda hname hform hcode) hothers
      exact ⟨hw', .cons ⟨pending, w, w₁, hform, hw, hcode⟩ hcodes⟩

variable (hspace' : m.base.Reserved m.ns names' space') (hperm : names.Perm names')

include hspace' hperm

/-- What each order compiles a definition to. -/
theorem Compiled.same {form : Syntax} {code code' : Code} (hname : form.definedName ∈ names)
    (h : m.Compiled space form code) (h' : m.Compiled space' form code') :
    ∃ oldRib newRib,
      code.SameProcedure (.reorder m.ns names names' space space' oldRib newRib) names
        form.definedName (names.idxOf form.definedName) code' := by
  obtain ⟨pending, w, w₁, hpending, hw, hrun⟩ := h
  obtain ⟨pending', w', w₁', hpending', hw', hrun'⟩ := h'
  have houtcomes := outcomes_pending hm hspace hspace' hperm hdefine hlambda hname hpending hpending'
    hw hw'
  rw [hrun, hrun'] at houtcomes
  exact ⟨_, _, houtcomes.of_ok.2⟩

/-- If each definition has been compiled in one order, the second pass ends well in the other. -/
theorem secondPass_of_compiled {body pending : List Syntax}
    (hbody : ∀ form ∈ body, form.definedName ∈ names ∧ ∃ code, m.Compiled space form code)
    (hpending : List.Forall₂ (PendingDefinition m.kernel m.ns space') body pending)
    (hw : m.Midway space' w) :
    ∃ codes w', secondPass m.loader m.ns m.fuel pending w = .ok codes w' := by
  induction hpending generalizing w with
  | nil => exact ⟨[], w, rfl⟩
  | @cons form pending body rest hform _ ih =>
      obtain ⟨⟨hname, code, pending₁, w₁, w₁', hpending₁, hw₁, hrun⟩, hbody⟩ :=
        List.forall_mem_cons.1 hbody
      have houtcomes := outcomes_pending hm hspace hspace' hperm hdefine hlambda hname hpending₁ hform
        hw₁ hw
      rw [hrun] at houtcomes
      obtain ⟨code', w', hrun', hmidway, -⟩ := houtcomes.exists_of_ok
      obtain ⟨codes, w'', hcodes⟩ := ih hbody hmidway.2
      refine ⟨code' :: codes, w'', ?_⟩
      rw [secondPass_cons]
      exact RunM.bind_eq_ok.2 ⟨code', w', hrun', RunM.bind_eq_ok.2 ⟨codes, w'', hcodes, rfl⟩⟩

end

end OpenedModule

/-! ## Bodies -/

/-- The forms are definitions of procedures under different names, none of which is one of the two by
which such a definition is written. -/
structure Syntax.AreProcedures (body : List Syntax) : Prop where
  unscoped : ∀ form ∈ body, form.Unscoped
  procedures : ∀ form ∈ body, form.procedureName?.isSome = true
  distinct : (body.map Syntax.definedName).Nodup
  define : CoreForm.define.name ∉ body.map Syntax.definedName
  lambda : CoreForm.lambda.name ∉ body.map Syntax.definedName

namespace Syntax.AreProcedures

variable {body body' : List Syntax}

theorem perm (h : AreProcedures body) (hperm : body.Perm body') : AreProcedures body' where
  unscoped form hform := h.unscoped form (hperm.mem_iff.2 hform)
  procedures form hform := h.procedures form (hperm.mem_iff.2 hform)
  distinct := (hperm.map _).nodup_iff.1 h.distinct
  define hmem := h.define ((hperm.map _).mem_iff.2 hmem)
  lambda hmem := h.lambda ((hperm.map _).mem_iff.2 hmem)

theorem definesProcedure (h : AreProcedures body) :
    ∀ form ∈ body, form.Unscoped ∧ form.DefinesProcedure form.definedName := by
  intro form hform
  obtain ⟨name, hname⟩ := Option.isSome_iff_exists.1 (h.procedures form hform)
  refine ⟨h.unscoped form hform, definesProcedure_of_name ?_⟩
  rw [definedName, hname, Option.getD_some]

end Syntax.AreProcedures

namespace OpenedModule

variable {m : OpenedModule} {body body' : List Syntax} {w w' : World}

/-- The two passes over the body of the module. -/
def passes (m : OpenedModule) (body : List Syntax) : RunM (List Code) := do
  let pending ← firstPass m.loader m.ns m.fuel (body.map (Syntax.introduce m.ns))
  secondPass m.loader m.ns m.fuel pending

/-- The module has been declared: addresses have been reserved for the names, in their order, and every
definition has been compiled. -/
structure Declares (m : OpenedModule) (body : List Syntax) (space : Namespace) (codes : List Code)
    (w : World) : Prop where
  reserved : m.base.Reserved m.ns (body.map Syntax.definedName) space
  compiled : List.Forall₂ (m.Compiled space) body codes
  midway : m.Midway space w

/-- The code of a definition stands where its name stands among the names. -/
theorem Declares.code {space : Namespace} {codes : List Code} (h : m.Declares body space codes w)
    (hbody : Syntax.AreProcedures body) {form : Syntax} (hform : form ∈ body) :
    ∃ code, codes[(body.map Syntax.definedName).idxOf form.definedName]? = some code ∧
      m.Compiled space form code := by
  obtain ⟨hlength, hcompiled⟩ := List.forall₂_iff_get.1 h.compiled
  obtain ⟨i, hi, rfl⟩ := List.getElem_of_mem hform
  have hindex : (body.map Syntax.definedName).idxOf body[i].definedName = i := by
    have hi' : i < (body.map Syntax.definedName).length := by rwa [List.length_map]
    have hfound := hbody.distinct.idxOf_getElem i hi'
    rwa [List.getElem_map] at hfound
  have hi' : i < codes.length := hlength ▸ hi
  rw [hindex]
  exact ⟨codes[i], List.getElem?_eq_getElem hi', hcompiled i hi hi'⟩

variable (hm : m.spaces.Begun m.kernel m.ns m.base) (hbody : Syntax.AreProcedures body)
  (hruntime : w.runtime = m.runtime) (hspaces : w.spaces = m.spaces)

include hm hbody hruntime hspaces

theorem declares_of_passes {codes : List Code} (h : m.passes body w = .ok codes w') :
    (body.length < m.fuel ∧ ∀ form ∈ body, ∃ n,
      Syntax.Prepared m.kernel m.ns form.definedName (form.introduce m.ns) n) ∧
      ∃ space, m.Declares body space codes w' := by
  obtain ⟨pending, w₁, hfirst, hsecond⟩ := RunM.bind_eq_ok.1 h
  have hstart : w.spaces = m.reserved m.base := hspaces.trans (Spaces.put_self hm.space).symm
  have hkernel : w.runtime.kernel.space = m.kernel := by rw [hruntime]
  have hnone : m.base.Reserved m.ns [] m.base := hm.blank.reserved
  obtain ⟨hlength, hprepared⟩ := prepared_of_firstPass hm hbody.definesProcedure hnone hbody.distinct
    hbody.define hstart hkernel hfirst
  refine ⟨⟨hlength, hprepared⟩, ?_⟩
  obtain ⟨space, pending', hspace, -, hpending, hrun⟩ := firstPass_prepared hm hprepared hnone
    hbody.distinct hbody.define hstart hkernel hlength m.loader
  cases hfirst.symm.trans hrun
  obtain ⟨hmidway, hcompiled⟩ := compiled_of_secondPass hm hspace hbody.define hbody.lambda
    (fun form hform => List.mem_map_of_mem hform) hpending
    (midway hm hspace (w := { w with spaces := m.reserved space }) hruntime rfl) hsecond
  exact ⟨space, hspace, hcompiled, hmidway⟩

/-- What ends well in one order does in the other. -/
theorem passes_perm (hperm : body.Perm body') {codes : List Code}
    (h : m.passes body w = .ok codes w') : ∃ codes' w'', m.passes body' w = .ok codes' w'' := by
  obtain ⟨⟨hlength, hprepared⟩, space, hdeclares⟩ := declares_of_passes hm hbody hruntime hspaces h
  have hbody' := hbody.perm hperm
  have hnames := hperm.map Syntax.definedName
  have hprepared' : ∀ form ∈ body', ∃ n,
      Syntax.Prepared m.kernel m.ns form.definedName (form.introduce m.ns) n :=
    fun form hform => hprepared form (hperm.mem_iff.2 hform)
  obtain ⟨space', pending', hspace', -, hpending', hfirst⟩ := firstPass_prepared hm (w := w) hprepared'
    hm.blank.reserved hbody'.distinct hbody'.define (hspaces.trans (Spaces.put_self hm.space).symm)
    (by rw [hruntime]) (hperm.length_eq ▸ hlength) m.loader
  have hcompiled : ∀ form ∈ body', form.definedName ∈ body.map Syntax.definedName ∧
      ∃ code, m.Compiled space form code := by
    intro form hform
    have hmem := hperm.mem_iff.2 hform
    refine ⟨List.mem_map_of_mem hmem, ?_⟩
    obtain ⟨code, -, hcode⟩ := hdeclares.code hbody hmem
    exact ⟨code, hcode⟩
  obtain ⟨codes', w'', hsecond⟩ := secondPass_of_compiled hm hdeclares.reserved hbody.define
    hbody.lambda hspace' hnames hcompiled hpending'
    (midway hm hspace' (w := { w with spaces := m.reserved space' }) hruntime rfl)
  exact ⟨codes', w'', RunM.bind_eq_ok.2 ⟨pending', _, hfirst, hsecond⟩⟩

end OpenedModule

/-! ## Declarations -/

theorem withOwnParameters_eq_ok_iff {α : Type} {x : RunM α} {w w' : World} {a : α} :
    withOwnParameters x w = .ok a w' ↔
      ∃ w₁, x { w with dynamic := [] } = .ok a w₁ ∧ { w₁ with dynamic := w.dynamic } = w' :=
  RunM.andThen_eq_ok

theorem withOwnProvides_eq_ok_iff {α : Type} {x : RunM α} {w w' : World} {a : α} :
    withOwnProvides x w = .ok a w' ↔
      ∃ w₁, x { w with provides := [] } = .ok a w₁ ∧ { w₁ with provides := w.provides } = w' :=
  RunM.andThen_eq_ok

/-- A declaration opens the module and goes through the two passes. -/
theorem declareModule_opens {w : World} (h : w.LanguageIntact) (loader : Loader) (fuel : Nat)
    (id : ModuleId) :
    ∃ (m : OpenedModule) (start : World), m.spaces.Begun m.kernel m.ns m.base ∧ m.base.home = id ∧
      start.runtime = m.runtime ∧ start.spaces = m.spaces ∧
      ∀ body d w', declareModule loader fuel id body w = .ok d w' ↔
        ∃ codes w₁, m.passes body start = .ok codes w₁ ∧ d = ⟨id, m.ns, codes, w₁.provides⟩ ∧
          w' = { w₁ with provides := w.provides, dynamic := w.dynamic } := by
  obtain ⟨spaces, base, hbegun, hhome, hrun⟩ := requireKernel_intact h id
  refine ⟨⟨loader, fuel, w.runtime, spaces, w.spaces.size, base⟩,
    { w with spaces, dynamic := [], provides := [] }, hbegun, hhome, rfl, rfl, fun body d w' => ?_⟩
  rw [declareModule, hrun, withOwnParameters_eq_ok_iff]
  constructor
  · rintro ⟨w₁, hprovides, rfl⟩
    obtain ⟨w₂, hpasses, rfl⟩ := withOwnProvides_eq_ok_iff.1 hprovides
    obtain ⟨pending, w₃, hfirst, hrest⟩ := RunM.bind_eq_ok.1 hpasses
    obtain ⟨codes, w₄, hsecond, hend⟩ := RunM.bind_eq_ok.1 hrest
    cases hend
    exact ⟨codes, w₂, RunM.bind_eq_ok.2 ⟨pending, w₃, hfirst, hsecond⟩, rfl, rfl⟩
  · rintro ⟨codes, w₁, hpasses, rfl, rfl⟩
    obtain ⟨pending, w₂, hfirst, hsecond⟩ := RunM.bind_eq_ok.1 hpasses
    refine ⟨_, withOwnProvides_eq_ok_iff.2 ⟨w₁, ?_, rfl⟩, rfl⟩
    exact RunM.bind_eq_ok.2 ⟨pending, w₂, hfirst, RunM.bind_eq_ok.2 ⟨codes, w₁, hsecond, rfl⟩⟩

/-- A name that the wraps of a namespace and of binding forms around stand on is bound by one of the
binding forms, or leads to the cell that the namespace has for it. -/
theorem Spaces.resolveWraps_renames {spaces : Spaces} {ns : NamespaceId} {name : String} {c : CellRef}
    (h : spaces.cell? ns (plainKey name) = some c) (ribs : List Rib) :
    (∃ v, (spaces.resolveWraps name none (ribs.map .rename ++ [.space ns])).1 = some (.lexical v)) ∨
      (spaces.resolveWraps name none (ribs.map .rename ++ [.space ns])).1 = some (.cell c) := by
  have hmarks : wrapMarks (ribs.map .rename ++ [.space ns]) = .empty := by
    induction ribs with
    | nil => rfl
    | cons rib ribs ih => exact ih
  rw [resolveWraps, hmarks]
  induction ribs with
  | nil =>
      right
      show (spaces.resolveStep name none .empty (.space ns) (none, .empty)).1 = _
      simp only [resolveStep, reduceCtorEq, if_false, substitute?_plain, h]
  | cons rib ribs ih =>
      replace ih := ih hmarks
      rw [List.map_cons, List.cons_append, List.foldr_cons]
      generalize (ribs.map Wrap.rename ++ [Wrap.space ns]).foldr
        (spaces.resolveStep name none .empty) (none, .empty) = found at ih ⊢
      obtain ⟨binding, marks⟩ := found
      simp only [resolveStep]
      cases rib.substitute? ⟨name, binding.getD (.free name), marks⟩ with
      | some v => exact .inl ⟨v, rfl⟩
      | none => exact ih

/-- The module defines the names, each at the address that is reserved for it.  Wherever one of the names
stands in the body, it is bound there or leads to that address. -/
structure Declaration.Scoped (d : Declaration) (names : List String) (spaces : Spaces) : Prop where
  reserved : ∀ name ∈ names, spaces.named? d.space name =
    some (.defined ⟨name, names.idxOf name, d.space, d.id⟩)
  length : d.body.length = names.length
  body : ∀ name ∈ names, ∃ code template, d.body[names.idxOf name]? = some code ∧
    code.DefinesProcedure name (names.idxOf name) template ∧ template.All (Code.Reaches names)
  occurrences : ∀ (stx : Syntax) (name : String) (ribs : List Rib), name ∈ names →
    stx.symbol? = some name → stx.context.binding = none →
    stx.wraps = ribs.map .rename ++ [.space d.space] →
    (∃ v, spaces.denoted stx name = .lexical v) ∨
      spaces.denoted stx name = .defined ⟨name, names.idxOf name, d.space, d.id⟩

/-- The renumbering takes the address and the cell of each name in the first order to those in the
second. -/
structure Renumbering.Reorders (ρ : Renumbering) (names names' : List String)
    (spaces spaces' : Spaces) : Prop where
  address : ∀ name ∈ names, ρ.address (names.idxOf name) = names'.idxOf name
  cell : ∀ name c, spaces.cell? ρ.space (plainKey name) = some c →
    spaces'.cell? ρ.space (plainKey name) = some (c.renumber ρ)

/-- The modules define the same procedures, in two orders: the templates for a name are the same up to
the numbers. -/
structure Declaration.Reordered (d d' : Declaration) (names names' : List String)
    (spaces spaces' : Spaces) : Prop where
  space : d'.space = d.space
  templates : ∀ name ∈ names, ∃ (ρ : Renumbering) (template template' : Code),
    ρ.space = d.space ∧ ρ.Reorders names names' spaces spaces' ∧
    d.body[names.idxOf name]? = some (.define name (names.idxOf name) template) ∧
    d'.body[names'.idxOf name]? = some (.define name (names'.idxOf name) template') ∧
    template.Twin ρ template'

namespace OpenedModule

variable {m : OpenedModule} {body body' : List Syntax} {space space' : Namespace}
  {codes codes' : List Code} {w w' : World}

section

variable (hm : m.spaces.Begun m.kernel m.ns m.base) (hbody : Syntax.AreProcedures body)
  (h : m.Declares body space codes w)

include hm h

theorem Declares.live : w.spaces.isFreed m.ns = false := by
  rw [Spaces.isFreed_congr h.midway.spaces.cells, Spaces.isFreed, Spaces.own_put hm.space space]
  exact h.reserved.freed.trans hm.blank.live

theorem Declares.named {name : String} (hname : name ∈ body.map Syntax.definedName) :
    w.spaces.named? m.ns name = some (.defined
      ⟨name, (body.map Syntax.definedName).idxOf name, m.ns, m.base.home⟩) := by
  have hcells := congrFun h.midway.spaces.cells m.ns
  rw [Spaces.named?_congr hcells, Spaces.named?_of_space (Spaces.own_put hm.space space),
    h.reserved.holding, if_pos hname]

include hbody

theorem Declares.scoped (provides : List Provided) :
    Declaration.Scoped ⟨m.base.home, m.ns, codes, provides⟩ (body.map Syntax.definedName) w.spaces where
  reserved name hname := h.named hm hname
  length := h.compiled.length_eq.symm.trans (List.length_map _).symm
  body name hname := by
    obtain ⟨form, hform, rfl⟩ := List.mem_map.1 hname
    obtain ⟨code, hcode, hcompiled⟩ := h.code hbody hform
    obtain ⟨_, _, template, template', hdefines, -, hpaired⟩ := hcompiled.same hm h.reserved
      hbody.define hbody.lambda h.reserved (List.Perm.refl _) hname hcompiled
    exact ⟨code, template, hcode, hdefines, hpaired.reaches⟩
  occurrences stx name ribs hname hsymbol hbinding hwraps := by
    have hnamed := h.named hm hname
    rw [Spaces.named?_eq] at hnamed
    obtain ⟨c, hc, hcontent⟩ := Option.bind_eq_some_iff.1 hnamed
    rw [Spaces.denoted, Spaces.resolve_of_binding_eq_none hbinding, Spaces.resolveWithMarks, hsymbol]
    dsimp only
    rw [hwraps]
    have hcell : w.spaces.cell? m.ns (plainKey name) = some c := by
      rw [Spaces.cell?, h.live hm]
      exact hc
    rcases Spaces.resolveWraps_renames hcell ribs with ⟨v, hv⟩ | hcell
    · exact .inl ⟨v, by rw [hv]; rfl⟩
    · right
      rw [hcell, Option.getD_some, Spaces.denote, hcontent]

/-- Two orders of the same definitions. -/
theorem Declares.reordered (hperm : body.Perm body') (h' : m.Declares body' space' codes' w')
    (provides provides' : List Provided) :
    Declaration.Reordered ⟨m.base.home, m.ns, codes, provides⟩ ⟨m.base.home, m.ns, codes', provides'⟩
      (body.map Syntax.definedName) (body'.map Syntax.definedName) w.spaces w'.spaces where
  space := rfl
  templates name hname := by
    have hbody' := hbody.perm hperm
    have hnames := hperm.map Syntax.definedName
    obtain ⟨form, hform, rfl⟩ := List.mem_map.1 hname
    obtain ⟨code, hcode, hcompiled⟩ := h.code hbody hform
    obtain ⟨code', hcode', hcompiled'⟩ := h'.code hbody' (hperm.mem_iff.1 hform)
    obtain ⟨oldRib, newRib, template, template', ⟨rfl, -⟩, ⟨rfl, -⟩, hpaired⟩ :=
      hcompiled.same hm h.reserved hbody.define hbody.lambda h'.reserved hnames hname hcompiled'
    have haddress : ∀ name ∈ body.map Syntax.definedName,
        relocate (body.map Syntax.definedName) (body'.map Syntax.definedName)
          ((body.map Syntax.definedName).idxOf name) = (body'.map Syntax.definedName).idxOf name :=
      fun name hname => relocate_idxOf hname
    have htwins : Spaces.Twins (.reorder m.ns _ _ space space' oldRib newRib) m.kernel
        (m.reserved space) (m.reserved space') :=
      Spaces.twins_reserved hm.space hm.blank hm.apart hm.definitions h.reserved h'.reserved hnames
    refine ⟨_, template, template', rfl, ⟨haddress, fun name c hc => ?_⟩, hcode, ?_, hpaired.twin⟩
    · rw [Spaces.cell?_congr h.midway.spaces.cells] at hc
      have hsame := htwins.cell?_own (plainKey name)
      rw [Key.renumber_eq_plainKey_iff.2 rfl] at hsame
      rw [Spaces.cell?_congr h'.midway.spaces.cells]
      exact hsame.trans (congrArg _ hc)
    · rw [hcode']
      exact congrArg (some <| Code.define _ · _) (haddress _ hname)

end

end OpenedModule

theorem unscoped_ident (name : String) : (Syntax.ident name).Unscoped := .atom nofun nofun

theorem unscoped_sexp {parts : List Syntax} {span : Option Span} :
    (Syntax.sexp parts span).Unscoped ↔ ∀ part ∈ parts, part.Unscoped := by
  refine ⟨fun h => ?_, fun h => .group nofun nofun h⟩
  cases h with
  | group _ _ hparts => exact hparts

/-- Two procedures that call each other, and one under the name `if` that assigns to one of them.  Each
name is mentioned before and after it is defined, in one order or the other. -/
def mutualCalls : List Syntax :=
  let name := Syntax.ident
  let call (parts : List Syntax) := Syntax.sexp parts none
  [ call [name "define", call [name "even", name "n"],
      call [name "if", name "n", call [name "odd", name "n"], name "even"]],
    call [name "define", name "odd",
      call [name "lambda", call [name "n"], call [name "even", name "n"]]],
    call [name "define", call [name "if", name "test", name "yes", name "no"],
      call [name "set!", name "odd", name "yes"], name "test"] ]

theorem mutualCalls_areProcedures : Syntax.AreProcedures mutualCalls where
  unscoped := by simp [mutualCalls, unscoped_sexp, unscoped_ident]
  procedures := by decide +kernel
  distinct := by decide +kernel
  define := by decide +kernel
  lambda := by decide +kernel

end HygienicLisp
