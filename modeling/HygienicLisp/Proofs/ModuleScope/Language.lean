import HygienicLisp.Proofs.ModuleScope.Reservations
import HygienicLisp.Proofs.Reexports.Bodies
import HygienicLisp.Proofs.Reexports.Start

/-!
# A module that begins with the language

The namespace of a new module imports everything that the kernel provides, so that each name leads to
what it stands for in the language, until the module defines it.

Main statements: `requireKernel_intact`, and `languageIntact_start` by which the language is in place
once a runtime has been started.
-/

namespace HygienicLisp

/-- The language is in place: it has all core forms, and the namespace of the kernel has nothing but
definitions of its own, none of which is a transformer. -/
structure World.LanguageIntact (w : World) : Prop where
  language : w.Language
  forms : ∀ f : CoreForm, (w.runtime.kernel.provided? f.name).isSome = true
  definitions : ∀ i content, w.spaces.content? ⟨w.runtime.kernel.space, i⟩ = some content →
    w.spaces.OfKernel w.runtime.kernel.space content.target

variable {w : World} {ns : NamespaceId}

namespace World.LanguageIntact

variable (h : w.LanguageIntact)

include h

theorem native {p : Provided} (hp : p ∈ w.runtime.kernel.provided) :
    w.spaces.Native w.runtime.kernel.space p.name p.target := by
  have hnamed := h.language.names p hp
  refine ⟨hnamed, ?_⟩
  rw [Spaces.named?_eq] at hnamed
  obtain ⟨⟨owner, i⟩, hc, hcontent⟩ := Option.bind_eq_some_iff.1 hnamed
  obtain ⟨rfl, -⟩ := Spaces.filed?_eq_some_iff.1 hc
  exact h.definitions i _ hcontent

/-- The name of a core form stands for it. -/
theorem form (f : CoreForm) : ∃ p ∈ w.runtime.kernel.provided, p.name = f.name ∧
    w.spaces.value? w.runtime.kernel.space p.target.address = some (.form f) := by
  obtain ⟨p, hp⟩ := Option.isSome_iff_exists.1 (h.forms f)
  have hmem := List.mem_of_find?_eq_some hp
  have hname := Instance.name_of_provided? hp
  obtain ⟨v, hv, hfits⟩ := h.language.values p hmem
  rw [(h.native hmem).ofKernel.owner] at hv
  refine ⟨p, hmem, hname, hv.trans ?_⟩
  rw [hname] at hfits
  cases v with
  | form g => rw [CoreForm.name_injective hfits]
  | procedure procedureId p => exact absurd (List.mem_map_of_mem f.mem_all) hfits
  | _ => exact hfits.elim

theorem kernel_lt_size : w.runtime.kernel.space < w.spaces.size := by
  obtain ⟨space, hspace, -⟩ := h.language.module
  exact (Array.getElem?_eq_some_iff.1 hspace).1

end World.LanguageIntact

/-! ## Importing the language -/

theorem requireAll_native {kernel : NamespaceId} {space : Namespace} {provided : List Provided}
    (hspace : w.spaces[ns]? = some space) (hapart : kernel ≠ ns)
    (hblank : space.Blank w.spaces kernel ns)
    (hnative : ∀ p ∈ provided, w.spaces.Native kernel p.name p.target) :
    ∃ space', space'.Blank w.spaces kernel ns ∧ space.Grows space' ∧
      (∀ p ∈ provided, plainKey p.name ∈ space'.keys) ∧
      requireAll ns (fun p => .ok ((Syntax.ident p.name).introduce ns)) true provided w =
        .ok ⟨⟩ { w with spaces := w.spaces.put ns space' } := by
  induction provided generalizing w space with
  | nil =>
      refine ⟨space, hblank, .refl space, nofun, ?_⟩
      rw [Spaces.put_self hspace]
      rfl
  | cons p rest ih =>
      obtain ⟨hp, hrest⟩ := List.forall_mem_cons.1 hnative
      obtain ⟨space₁, hrequire, hblank₁, hgrows₁, hkey⟩ := hblank.require hp
      have hstx := Syntax.names_introduce ns
        (show (Syntax.ident p.name).bareName? = some p.name from rfl)
      have hrun : require ns ((Syntax.ident p.name).introduce ns) p true w =
          .ok ⟨⟩ { w with spaces := w.spaces.put ns space₁ } := by
        rw [require_apply, Spaces.require, hstx.symbol, hspace]
        dsimp only
        rw [Spaces.filingKey_names hstx, hrequire]
        rfl
      have hkernel := Spaces.other_put hspace space₁ hapart
      obtain ⟨space', hblank', hgrows, hkeys, hrest⟩ := ih
        (w := { w with spaces := w.spaces.put ns space₁ }) (Spaces.own_put hspace space₁)
        (hblank₁.congr hkernel) fun q hq => (hrest q hq).congr hkernel
      refine ⟨space', hblank'.congr hkernel.symm, hgrows₁.trans hgrows, ?_, ?_⟩
      · exact List.forall_mem_cons.2 ⟨hgrows.keys.subset hkey, hkeys⟩
      · rw [requireAll, RunM.ofExcept_ok, pure_bind, RunM.bind_apply, hrun]
        dsimp only
        rw [hrest, Spaces.put_put]

/-- The namespace has everything that the language has, and the module has not begun. -/
structure Spaces.Begun (spaces : Spaces) (kernel ns : NamespaceId) (base : Namespace) : Prop where
  space : spaces[ns]? = some base
  apart : kernel ≠ ns
  blank : base.Blank spaces kernel ns
  forms : ∀ f : CoreForm, ∃ d, spaces.Native kernel f.name d ∧
    spaces.value? kernel d.address = some (.form f) ∧ plainKey f.name ∈ base.keys
  definitions : ∀ i content, spaces.content? ⟨kernel, i⟩ = some content →
    spaces.OfKernel kernel content.target

/-- A new namespace that has imported the language. -/
theorem requireKernel_intact (h : w.LanguageIntact) (id : ModuleId) :
    ∃ spaces base, spaces.Begun w.runtime.kernel.space w.spaces.size base ∧ base.home = id ∧
      ∀ {α : Type} (f : NamespaceId → RunM α),
        (do
          let ns ← newNamespace id .module
          requireKernel ns
          f ns) w = f w.spaces.size { w with spaces } := by
  let fresh : Namespace := { home := id, kind := .module }
  let opened : World := { w with spaces := w.spaces.push fresh }
  have hfresh : opened.spaces[w.spaces.size]? = some fresh := Array.getElem?_push_size
  have hapart : w.runtime.kernel.space ≠ w.spaces.size := Nat.ne_of_lt h.kernel_lt_size
  -- Only the new namespace grows, so the kernel stays as the world has it.
  have hkernel : opened.spaces[w.runtime.kernel.space]? = w.spaces[w.runtime.kernel.space]? := by
    rw [Array.getElem?_push, if_neg hapart]
  have hnative : ∀ p ∈ w.runtime.kernel.provided,
      opened.spaces.Native w.runtime.kernel.space p.name p.target :=
    fun p hp => (h.native hp).congr hkernel
  obtain ⟨base, hblank, hgrows, hkeys, hrun⟩ := requireAll_native hfresh hapart
    (Namespace.blank_new _ _ _ id) hnative
  have hkernel' := Spaces.other_put hfresh base hapart
  refine ⟨opened.spaces.put w.spaces.size base, base, ⟨Spaces.own_put hfresh base, hapart,
    hblank.congr hkernel', fun f => ?_, fun i content hcontent => ?_⟩, hgrows.home, fun f => ?_⟩
  · obtain ⟨p, hp, hname, hvalue⟩ := h.form f
    refine ⟨p.target, hname ▸ (hnative p hp).congr hkernel', ?_, hname ▸ hkeys p hp⟩
    rw [Spaces.value?, hkernel', hkernel, ← hvalue]
    rfl
  · have hsame : (opened.spaces.put w.spaces.size base).content? ⟨w.runtime.kernel.space, i⟩ =
        w.spaces.content? ⟨w.runtime.kernel.space, i⟩ := by
      rw [Spaces.content?, Spaces.content?, hkernel', hkernel]
    exact ((h.definitions i content (hsame ▸ hcontent)).congr hkernel).congr hkernel'
  · have hnew : newNamespace id .module w = .ok w.spaces.size opened := rfl
    have hrequire : requireKernel w.spaces.size opened =
        .ok ⟨⟩ { w with spaces := opened.spaces.put w.spaces.size base } := hrun
    rw [RunM.bind_apply, hnew]
    dsimp only
    rw [RunM.bind_apply, hrequire]

namespace Spaces

variable {spaces : Spaces} {kernel : NamespaceId} {base space : Namespace} {names : List String}

/-- A name of the language leads to its value there. -/
theorem Native.lookup? {name : String} {d : Definition} (h : spaces.Native kernel name d) :
    ∃ c, spaces.cell? kernel (plainKey name) = some c ∧
      spaces.lookup? (.cell c) = spaces.value? kernel d.address := by
  have hnamed := h.named
  rw [named?_of_live h.ofKernel.live] at hnamed
  obtain ⟨c, hc, hcontent⟩ := Option.bind_eq_some_iff.1 hnamed
  refine ⟨c, hc, ?_⟩
  rw [Spaces.lookup?, target?_cell, hcontent, Option.map_some]
  simp only [Content.target, h.ofKernel.owner, h.ofKernel.live, Bool.false_eq_true, if_false]

namespace Begun

variable (h : spaces.Begun kernel ns base)

include h

theorem put (hspace : base.Reserved ns names space) (f : CoreForm) :
    ∃ d, (spaces.put ns space).Native kernel f.name d ∧
      (spaces.put ns space).value? kernel d.address = some (.form f) ∧
      (f.name ∉ names → ∃ i : Import, space.holding? (plainKey f.name) = some (.required i) ∧
        i.provided.target = d) := by
  have hkernel := other_put h.space space h.apart
  obtain ⟨d, hnative, hvalue, hkey⟩ := h.forms f
  refine ⟨d, hnative.congr hkernel, ?_, fun hname => ?_⟩
  · rw [Spaces.value?, hkernel, ← hvalue]
    rfl
  · rw [hspace.holding, if_neg hname]
    exact h.blank.native hkey hnative

/-- What a module does not define anew stands for what it stands for in the language. -/
theorem headValue_names (hspace : base.Reserved ns names space) {f : CoreForm} (hname : f.name ∉ names)
    {head : Syntax} (hhead : head.Names ns f.name) :
    headValue? (spaces.put ns space) head = some (.form f) := by
  obtain ⟨d, hnative, hvalue, hheld⟩ := h.put hspace f
  obtain ⟨i, hi, rfl⟩ := hheld hname
  have hnamed : (spaces.put ns space).named? ns f.name = some (.required i) :=
    (named?_of_space (own_put h.space space) f.name).trans hi
  have hlive : (spaces.put ns space).isFreed ns = false := by
    rw [isFreed, own_put h.space]
    exact hspace.freed.trans h.blank.live
  obtain ⟨c, hresolve, hc⟩ := exists_cell_of_named hlive hhead hnamed
  have hident : head.isIdentifier = true := by
    rw [Syntax.isIdentifier, hhead.symbol]
    rfl
  rw [headValue?, if_pos hident, hresolve]
  dsimp only
  refine lookup?_eq_some.2 ⟨i.provided.target, ?_, ?_, ?_⟩
  · rw [target?_cell, hc]
    rfl
  · rw [hnative.ofKernel.owner]
    exact hnative.ofKernel.live
  · rw [hnative.ofKernel.owner]
    exact hvalue

/-- What expansion puts into forms by itself is a core form. -/
theorem keyword (hspace : base.Reserved ns names space) (f : CoreForm) :
    ∃ c, (spaces.put ns space).cell? kernel (plainKey f.name) = some c ∧
      (spaces.put ns space).lookup? (.cell c) = some (.form f) := by
  obtain ⟨d, hnative, hvalue, -⟩ := h.put hspace f
  obtain ⟨c, hc, hlookup⟩ := hnative.lookup?
  exact ⟨c, hc, hlookup.trans hvalue⟩

end Begun

end Spaces

/-! ## A runtime that has been started -/

theorem growing_defineAll (ns : NamespaceId) {definitions : List (String × RunM Value)}
    (h : ∀ definition ∈ definitions, definition.2.Growing) : (defineAll ns definitions).Growing := by
  induction definitions with
  | nil => exact .pure _
  | cons definition rest ih =>
      obtain ⟨hfirst, hrest⟩ := List.forall_mem_cons.1 h
      exact hfirst.bind fun v => (growing_defineValue ns definition.1 v).bind fun _ => ih hrest

theorem filed?_defineValue {name : String} {v : Value} {w' : World}
    (h : defineValue ns name v w = .ok ⟨⟩ w') :
    ∃ c, w'.spaces.filed? ns (plainKey name) = some c := by
  have hstx := Syntax.names_introduce ns (show (Syntax.ident name).bareName? = some name from rfl)
  rw [defineValue_apply] at h
  cases hpredefine : w.spaces.predefine ns ((Syntax.ident name).introduce ns) with
  | error e => simp [hpredefine] at h
  | ok result =>
      obtain ⟨stx, spaces⟩ := result
      obtain ⟨_, _, index, hname, -, -, hcell, -⟩ := Spaces.predefine_spec hpredefine
      cases hname.symm.trans hstx.symbol
      rw [Spaces.filingKey_names hstx] at hcell
      rw [hpredefine] at h
      dsimp only at h
      split at h
      · rename_i d _
        have hgrows := growing_bindDefinition ns d v { w with spaces }
        rw [RunM.leaves, h] at hgrows
        exact ⟨_, hgrows.filed?_eq_some hcell⟩
      · cases h

/-- Whatever is defined in a row has a cell in the end. -/
theorem filed?_defineAll {definitions : List (String × RunM Value)} {w' : World}
    (hgrowing : ∀ definition ∈ definitions, definition.2.Growing)
    (h : defineAll ns definitions w = .ok ⟨⟩ w') :
    ∀ name ∈ definitions.map (·.1), ∃ c, w'.spaces.filed? ns (plainKey name) = some c := by
  induction definitions generalizing w with
  | nil => exact nofun
  | cons definition rest ih =>
      obtain ⟨name, x⟩ := definition
      obtain ⟨-, hrest⟩ := List.forall_mem_cons.1 hgrowing
      obtain ⟨v, w₁, -, h⟩ := RunM.bind_eq_ok.1 h
      obtain ⟨_, w₂, hdefine, h⟩ := RunM.bind_eq_ok.1 h
      refine List.forall_mem_cons.2 ⟨?_, ih hrest h⟩
      obtain ⟨c, hc⟩ := filed?_defineValue hdefine
      have hgrows := growing_defineAll ns hrest w₂
      rw [RunM.leaves, h] at hgrows
      exact ⟨c, hgrows.filed?_eq_some hc⟩

theorem growing_kernelDefinitions : ∀ definition ∈ kernelDefinitions, definition.2.Growing := by
  intro definition hdefinition
  rcases List.mem_append.1 hdefinition with hform | hprimitive
  · obtain ⟨f, -, rfl⟩ := List.mem_map.1 hform
    exact .pure _
  · obtain ⟨p, -, rfl⟩ := List.mem_map.1 hprimitive
    exact fun w => .refl w.spaces

/-- A kernel that has been built has a cell for each of its names. -/
theorem filed?_buildKernel {id : ModuleId} {d : Declaration} {w' : World}
    (h : buildKernel id w = .ok d w') :
    ∀ name ∈ kernelDefinitions.map (·.1), ∃ c, w'.spaces.filed? w.spaces.size (plainKey name) = some c := by
  obtain ⟨ns, w₁, hnew, h⟩ := RunM.bind_eq_ok.1 h
  cases hnew
  obtain ⟨_, w₂, hdefine, h⟩ := RunM.bind_eq_ok.1 h
  cases h
  exact filed?_defineAll growing_kernelDefinitions hdefine

theorem Namespace.Filled.languageIntact {space : Namespace} {names : List String}
    (h : space.Filled 0 names) (hnames : ∀ f : CoreForm, plainKey f.name ∈ space.keys)
    {config : Config} {objects : Names} {sources : List (ModuleId × String)}
    (hconsistent : (World.started config space objects sources).Consistent) :
    (World.started config space objects sources).LanguageIntact := by
  have hspace : (World.started config space objects sources).spaces[0]? = some space := rfl
  have hvalid := hconsistent.spaces.valid hspace
  refine ⟨(h.primed hconsistent).language, fun f => ?_, fun i content hcontent => ?_⟩
  · -- What the kernel defines it provides.
    cases hheld : space.holding? (plainKey f.name) with
    | none => exact absurd (hnames f) (Namespace.holding?_eq_none_iff.1 hheld)
    | some content =>
        obtain ⟨d, v, rfl, -⟩ := h.values f.name content hheld
        have hname := Namespace.name_of_holding? hvalid hheld
        have hmem := (Namespace.mem_unmarkedDefinitions h.bare.freeNames hvalid).2 (hname ▸ hheld)
        have hprovided : ∃ p ∈ (kernelDeclaration ⟨config.kernelModule⟩ space).provides,
            p.name = f.name := ⟨⟨d.name, d⟩, List.mem_map_of_mem hmem, hname⟩
        obtain ⟨q, hq, hsame⟩ := @exists_foldl_addProvided _ [] _ (.inr hprovided)
        exact List.find?_isSome.2 ⟨q, hq, by simpa using hsame⟩
  · have hcontent : space.content? i = some content := hcontent
    obtain ⟨key, hkey, hheld⟩ := Option.bind_eq_some_iff.1
      ((Namespace.content?_eq_bind hvalid.keys i).symm.trans hcontent)
    rw [h.bare key (List.mem_of_getElem? hkey)] at hheld
    obtain ⟨d, v, rfl, howner, -⟩ := h.values key.name content hheld
    obtain ⟨⟨key', content'⟩, hentry, hsame⟩ := Option.map_eq_some_iff.1 hcontent
    cases hsame
    refine ⟨h.live, howner, ⟨space, hspace, ?_⟩, fun id procedureId p hvalue => ?_⟩
    · exact (hvalid.owned hentry).2.1.symm
    · exact h.native _ _ hvalue

/-- Starting a runtime files the name of every core form in the namespace of the kernel. -/
theorem mem_keys_startRuntime {config : Config} {space : Namespace} {objects : Names}
    {sources : List (ModuleId × String)}
    (h : startRuntime config {} = .ok ⟨⟩ (.started config space objects sources)) (f : CoreForm) :
    plainKey f.name ∈ space.keys := by
  obtain ⟨_, w₁, hmodify, h⟩ := RunM.bind_eq_ok.1 h
  cases hmodify
  obtain ⟨d, w₂, hbuild, h⟩ := RunM.bind_eq_ok.1 h
  have hmem : f.name ∈ kernelDefinitions.map (·.1) := by
    rw [kernelDefinitions, List.map_append, List.map_map]
    exact List.mem_append_left _ (List.mem_map_of_mem f.mem_all)
  obtain ⟨c, hc⟩ := filed?_buildKernel hbuild f.name hmem
  -- Installing the kernel as a module leaves its namespace alone.
  have hspaces : w₂.spaces = #[space] := by
    rw [RunM.bind_apply, installModule, RunM.bind_apply, RunM.get_apply] at h
    dsimp only at h
    cases hinstall : w₂.registry.install d with
    | error e =>
        rw [hinstall] at h
        cases h
    | ok result =>
        rw [hinstall] at h
        exact congrArg World.spaces (EStateM.Result.ok.inj h).2
  obtain ⟨-, found, hfound, hfind⟩ := Spaces.filed?_eq_some_iff.1 hc
  rw [hspaces] at hfound
  cases hfound
  by_contra hnone
  cases (Namespace.find?_eq_none_iff.2 hnone).symm.trans hfind

/-- Once a runtime has been started and given any sources, the language is in place. -/
theorem languageIntact_start (config : Config) (texts : List (String × String)) :
    (({} : World).after
      (.start config :: texts.map fun s => .addSource s.1 s.2)).LanguageIntact := by
  obtain ⟨space, names, objects, sources, hfilled, hrun, hafter, hconsistent⟩ :=
    after_start config texts
  rw [hafter]
  exact hfilled.languageIntact (mem_keys_startRuntime hrun) hconsistent

end HygienicLisp
