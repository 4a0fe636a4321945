import HygienicLisp.Proofs.Namespaces.Representation
import HygienicLisp.Proofs.Reexports.Loading
import HygienicLisp.Session

/-!
# A runtime that has been started

When a runtime is started, its kernel is defined name by name in a namespace of its own.  Each name
comes to stand for a core form or a primitive, and nothing else is there.  So the language is in place,
whatever sources are added then.

Main statement: `primed_start`.
-/

namespace HygienicLisp

variable {space : Namespace} {ns : NamespaceId} {names : List String} {w : World}

/-! ## Definitions with values -/

/-- A core form or a primitive. -/
def Value.IsNative : Value → Prop
  | .form _ => True
  | .procedure _ (.native _ _) => True
  | _ => False

theorem Value.IsNative.obeys {guard : Guard} {v : Value} (h : v.IsNative) : v.Obeys guard := by
  unfold IsNative at h
  split at h
  · exact .form
  · exact .procedure .native
  · exact h.elim

namespace Namespace

/-- A namespace that holds definitions of the names, with core forms and primitives for values. -/
structure Filled (ns : NamespaceId) (names : List String) (space : Namespace) : Prop where
  kind : space.kind = .module
  live : space.freed = false
  bare : space.Bare
  names : ∀ name content, space.holding? (plainKey name) = some content → name ∈ names
  values : ∀ name content, space.holding? (plainKey name) = some content →
    ∃ d v, content = .defined d ∧ d.owner = ns ∧ d.address < space.definitionCount ∧
      space.value? d.address = some v ∧ v.Fits name
  native : ∀ address v, space.value? address = some v → v.IsNative

theorem filled_new (ns : NamespaceId) (home : ModuleId) :
    Filled ns [] { home, kind := .module } := by
  refine ⟨rfl, rfl, bare_new home .module, fun name content h => ?_, fun name content h => ?_,
    fun address v h => ?_⟩
  · simp [holding?, find?] at h
  · simp [holding?, find?] at h
  · simp [value?] at h

/-- The namespace with one more name defined, and its value. -/
def define (space : Namespace) (ns : NamespaceId) (name : String) (v : Value) : Namespace :=
  (space.takeAddress.file (plainKey name) (.defined (space.nextDefinition ns name))).setValue
    space.definitionCount v

theorem Filled.find?_eq_none (h : space.Filled ns names) {name : String} (hname : name ∉ names) :
    space.find? (plainKey name) = none := by
  cases hfind : space.find? (plainKey name) with
  | none => rfl
  | some index =>
      -- A name that is there holds something.
      obtain ⟨entry, hentry, -⟩ := exists_entry_of_find? hfind
      refine absurd (h.names name entry.content ?_) hname
      rw [holding?, hfind, Option.bind_some, content?, hentry]
      rfl

theorem Filled.define (h : space.Filled ns names) {name : String} (hname : name ∉ names)
    {v : Value} (hfits : v.Fits name) (hnative : v.IsNative) :
    (space.define ns name v).Filled ns (name :: names) := by
  have hholding (other : String) : (space.define ns name v).holding? (plainKey other) =
      if other = name then some (.defined (space.nextDefinition ns name))
      else space.holding? (plainKey other) := by
    have hfiled := @holding?_file space.takeAddress _ (h.find?_eq_none hname)
      (.defined (space.nextDefinition ns name)) (plainKey other)
    simp only [Spaces.plainKey_inj] at hfiled
    exact hfiled
  have hvalue (address : Nat) : (space.define ns name v).value? address =
      if address = space.definitionCount then some v else space.value? address :=
    value?_setValue_eq _ _ _ _
  refine ⟨h.kind, h.live, ?_, fun other content hother => ?_, fun other content hother => ?_,
    fun address u hu => ?_⟩
  · intro key hkey
    have hkeys : (space.define ns name v).keys = space.keys ++ [plainKey name] :=
      keys_file space.takeAddress _ _
    rw [hkeys, List.mem_append, List.mem_singleton] at hkey
    rcases hkey with hkey | rfl
    · exact h.bare key hkey
    · rfl
  · rw [hholding] at hother
    split at hother
    · rename_i hsame
      exact hsame ▸ List.mem_cons_self
    · exact List.mem_cons_of_mem _ (h.names other content hother)
  · rw [hholding] at hother
    split at hother
    · rename_i hsame
      subst hsame
      cases hother
      exact ⟨_, v, rfl, rfl, Nat.lt_succ_self _, (hvalue _).trans (if_pos rfl), hfits⟩
    · obtain ⟨d, u, hd, howner, haddress, hu, hfits⟩ := h.values other content hother
      refine ⟨d, u, hd, howner, Nat.lt_succ_of_lt haddress, ?_, hfits⟩
      rw [hvalue, if_neg (Nat.ne_of_lt haddress)]
      exact hu
  · rw [hvalue] at hu
    split at hu
    · cases hu
      exact hnative
    · exact h.native address u hu

end Namespace

/-! ## Building the kernel -/

/-- The only namespace is given one more definition. -/
theorem defineValue_of_filled (h : space.Filled 0 names) (hspaces : w.spaces = #[space])
    {name : String} (hname : name ∉ names) (v : Value) :
    ∃ objects, defineValue 0 name v w =
      .ok ⟨⟩ { w with spaces := #[space.define 0 name v], names := objects } := by
  have hstx := Syntax.names_introduce 0 (show (Syntax.ident name).bareName? = some name from rfl)
  let filed := space.takeAddress.file (plainKey name) (.defined (space.nextDefinition 0 name))
  let stx := ((Syntax.ident name).introduce 0).withBinding (.cell ⟨0, space.entries.size⟩)
  have hpredefine : w.spaces.predefine 0 ((Syntax.ident name).introduce 0) =
      .ok (stx, #[filed]) := by
    rw [hspaces, Spaces.predefine, hstx.symbol]
    simp [Spaces.filingKey_names hstx, Namespace.predefine, h.find?_eq_none hname]
    exact ⟨rfl, rfl⟩
  have hdenoted : Spaces.denoted #[filed] stx name = .defined (space.nextDefinition 0 name) := by
    have hcontent : Spaces.content? #[filed] ⟨0, space.entries.size⟩ =
        some (.defined (space.nextDefinition 0 name)) := by
      show (filed.entries[space.entries.size]?).map (·.content) = _
      rw [show filed.entries = space.entries.push _ from rfl, Array.getElem?_push_size]
      rfl
    show Spaces.denote #[filed] (.cell ⟨0, space.entries.size⟩) = _
    rw [Spaces.denote, hcontent]
  refine ⟨w.names.infer v name, ?_⟩
  rw [defineValue_apply, hpredefine]
  dsimp only
  rw [hdenoted]
  rfl

/-- The computation makes a core form of the name or a primitive, and draws no more than an object
number. -/
def MakesNative (name : String) (x : RunM Value) : Prop :=
  ∀ w : World, ∃ v objects, x w = .ok v { w with names := objects } ∧ v.Fits name ∧ v.IsNative

theorem defineAll_of_filled {definitions : List (String × RunM Value)}
    (hnodup : (definitions.map (·.1)).Nodup)
    (hnew : ∀ name ∈ definitions.map (·.1), name ∉ names)
    (hmakes : ∀ definition ∈ definitions, MakesNative definition.1 definition.2)
    (h : space.Filled 0 names) (hspaces : w.spaces = #[space]) :
    ∃ space' names' objects, space'.Filled 0 names' ∧
      defineAll 0 definitions w = .ok ⟨⟩ { w with spaces := #[space'], names := objects } := by
  induction definitions generalizing space names w with
  | nil => exact ⟨space, names, w.names, h, by rw [← hspaces]; rfl⟩
  | cons definition rest ih =>
      obtain ⟨name, x⟩ := definition
      obtain ⟨hx, hmakes⟩ := List.forall_mem_cons.1 hmakes
      obtain ⟨hname, hnodup⟩ := List.nodup_cons.1 hnodup
      obtain ⟨v, objects, hrun, hfits, hnative⟩ := hx w
      obtain ⟨hfresh, hrestNew⟩ := List.forall_mem_cons.1 hnew
      obtain ⟨objects', hdefine⟩ := defineValue_of_filled (w := { w with names := objects }) h hspaces
        hfresh v
      -- The other names are neither there nor the one that has just been defined.
      have hnew' : ∀ other ∈ rest.map (·.1), other ∉ name :: names := by
        intro other hother hmem
        rcases List.mem_cons.1 hmem with rfl | hmem
        · exact hname hother
        · exact hrestNew other hother hmem
      obtain ⟨space', names', objects'', hfilled, hrest⟩ := ih hnodup
        (w := { w with spaces := #[space.define 0 name v], names := objects' })
        hnew' hmakes (h.define hfresh hfits hnative) rfl
      refine ⟨space', names', objects'', hfilled, ?_⟩
      rw [defineAll, RunM.bind_apply, show x w = _ from hrun]
      dsimp only
      rw [RunM.bind_apply, hdefine]
      exact hrest

theorem makesNative_form (f : CoreForm) : MakesNative f.name (pure (.form f)) :=
  fun w => ⟨.form f, w.names, rfl, rfl, trivial⟩

theorem makesNative_primitive (p : Primitive) :
    MakesNative p.name (newProcedure (some p.name) (.native p.arity p)) := by
  have hall : ∀ p ∈ Primitive.all, p.name ∉ CoreForm.all.map CoreForm.name := by decide
  exact fun w => ⟨_, _, rfl, hall p (by cases p <;> decide), trivial⟩

/-- The kernel can be built, and provides what it defines. -/
theorem buildKernel_of_new (id : ModuleId) (hspaces : w.spaces = #[]) :
    ∃ space names objects, space.Filled 0 names ∧ buildKernel id w =
      .ok ⟨id, 0, [], space.unmarkedDefinitions.map fun d => ⟨d.name, d⟩⟩
        { w with spaces := #[space], names := objects } := by
  have hnodup : (kernelDefinitions.map (·.1)).Nodup := by decide +kernel
  have hmakes : ∀ definition ∈ kernelDefinitions, MakesNative definition.1 definition.2 := by
    intro definition hdefinition
    rcases List.mem_append.1 hdefinition with hform | hprimitive
    · obtain ⟨f, -, rfl⟩ := List.mem_map.1 hform
      exact makesNative_form f
    · obtain ⟨p, -, rfl⟩ := List.mem_map.1 hprimitive
      exact makesNative_primitive p
  obtain ⟨space, names, objects, hfilled, hrun⟩ := defineAll_of_filled
    (w := { w with spaces := #[{ home := id, kind := .module }] }) hnodup (by simp) hmakes
    (Namespace.filled_new 0 id) rfl
  refine ⟨space, names, objects, hfilled, ?_⟩
  have hnew : newNamespace id .module w =
      .ok 0 { w with spaces := #[{ home := id, kind := .module }] } := by
    show EStateM.Result.ok w.spaces.size
      { w with spaces := w.spaces.push { home := id, kind := .module } } = _
    rw [hspaces]
    rfl
  rw [buildKernel, RunM.bind_apply, hnew]
  dsimp only
  rw [RunM.bind_apply, hrun]
  rfl

/-! ## Starting -/

/-- A declaration that provides what the namespace defines. -/
def kernelDeclaration (id : ModuleId) (space : Namespace) : Declaration :=
  ⟨id, 0, [], space.unmarkedDefinitions.map fun d => ⟨d.name, d⟩⟩

/-- The world of a runtime with nothing but a kernel. -/
def World.started (config : Config) (space : Namespace) (objects : Names)
    (sources : List (ModuleId × String)) : World :=
  let d := kernelDeclaration ⟨config.kernelModule⟩ space
  { spaces := #[space]
    names := objects
    registry := (({} : Registry).record d).addInstance (.ofDeclaration d)
    runtime := { config, kernel := .ofDeclaration d, sources } }

theorem startRuntime_empty (config : Config) :
    ∃ space names objects, Namespace.Filled 0 names space ∧
      startRuntime config {} = .ok ⟨⟩ (.started config space objects []) := by
  obtain ⟨space, names, objects, hfilled, hrun⟩ := buildKernel_of_new
    (w := { runtime := { config } }) ⟨config.kernelModule⟩ rfl
  refine ⟨space, names, objects, hfilled, ?_⟩
  rw [startRuntime, RunM.bind_apply, RunM.modify_apply]
  dsimp only
  rw [RunM.bind_apply, hrun]
  rfl

/-- Sources are all that is added to a runtime by adding sources. -/
theorem after_addSources (config : Config) (space : Namespace) (objects : Names)
    (sources : List (ModuleId × String)) (texts : List (String × String)) :
    ∃ sources', (World.started config space objects sources).after
      (texts.map fun s => .addSource s.1 s.2) = .started config space objects sources' := by
  induction texts generalizing sources with
  | nil => exact ⟨sources, rfl⟩
  | cons source rest ih =>
      rw [List.map_cons, World.after]
      cases hid : ModulePath.normalize source.1 none with
      | error e =>
          have hrun : (Action.addSource source.1 source.2).perform.leaves
              (.started config space objects sources) = .started config space objects sources := by
            simp [Action.perform, addSource, hid, RunM.leaves, RunM.bind_apply]
          rw [hrun]
          exact ih sources
      | ok id =>
          have hrun : (Action.addSource source.1 source.2).perform.leaves
              (.started config space objects sources) =
                .started config space objects ((id, source.2) :: sources) := by
            simp [Action.perform, addSource, hid, RunM.leaves, RunM.bind_apply]
            rfl
          rw [hrun]
          exact ih _

theorem Namespace.Filled.primed (h : space.Filled 0 names) {config : Config} {objects : Names}
    {sources : List (ModuleId × String)}
    (hconsistent : (World.started config space objects sources).Consistent) :
    (World.started config space objects sources).Primed := by
  have hspace : (World.started config space objects sources).spaces[0]? = some space := rfl
  have hprovided : ∀ p ∈ (World.started config space objects sources).runtime.kernel.provided,
      ∃ d, p = ⟨d.name, d⟩ ∧ space.holding? (plainKey d.name) = some (.defined d) := by
    intro p hp
    rcases mem_of_mem_foldl_addProvided hp with hp | hp
    · obtain ⟨d, hd, rfl⟩ := List.mem_map.1 hp
      exact ⟨d, rfl,
        (mem_unmarkedDefinitions h.bare.freeNames (hconsistent.spaces.valid hspace)).1 hd⟩
    · cases hp
  have hvalues : ∀ p ∈ (World.started config space objects sources).runtime.kernel.provided,
      p.target.owner = 0 ∧ ∃ v, space.value? p.target.address = some v ∧ v.Fits p.name := by
    intro p hp
    obtain ⟨d, rfl, hd⟩ := hprovided p hp
    obtain ⟨d', v, hsame, howner, -, hv, hfits⟩ := h.values d.name _ hd
    cases hsame
    exact ⟨howner, v, hv, hfits⟩
  refine ⟨⟨?_, ?_, ?_, ?_, ?_, ?_⟩, ⟨hconsistent, ?_, ?_⟩, ?_, ?_⟩
  · rintro (_ | ns)
    · exact h.live
    · rfl
  · exact (Registry.instance?_addInstance _).trans (if_pos rfl)
  · exact ⟨_, Registry.declaration?_record.trans (if_pos rfl), rfl⟩
  · exact ⟨space, hspace, h.kind⟩
  · intro p hp
    obtain ⟨d, rfl, hd⟩ := hprovided p hp
    exact (Spaces.named?_of_space hspace d.name).trans hd
  · intro p hp
    obtain ⟨howner, v, hv, hfits⟩ := hvalues p hp
    refine ⟨v, ?_, hfits⟩
    rw [howner]
    exact hv
  · refine ⟨fun {ns address v} hv => ?_, fun i f hf => ?_, fun p hp => ?_, fun d hd code hcode => ?_⟩
    · rw [Spaces.value?] at hv
      split at hv
      · rename_i space' hspace'
        obtain rfl : space' = space :=
          List.mem_singleton.1 (Array.mem_def.1 (Array.mem_of_getElem? hspace'))
        exact (h.native address v hv).obeys
      · cases hv
    · simp [World.started] at hf
    · simp [World.started] at hp
    · obtain rfl := List.mem_singleton.1 hd
      cases hcode
  · rintro slot ⟨p, hp, rfl⟩
    rw [(hvalues p hp).1]
    exact Nat.one_pos
  · intro d hd
    obtain rfl := List.mem_singleton.1 hd
    rfl
  · intro i hi
    obtain rfl := List.mem_singleton.1 hi
    rfl

/-- The world of a runtime that has been started and given any sources. -/
theorem after_start (config : Config) (texts : List (String × String)) :
    ∃ space names objects sources, Namespace.Filled 0 names space ∧
      startRuntime config {} = .ok ⟨⟩ (.started config space objects []) ∧
      ({} : World).after (.start config :: texts.map fun s => .addSource s.1 s.2) =
        .started config space objects sources ∧
      (World.started config space objects sources).Consistent := by
  obtain ⟨space, names, objects, hfilled, hrun⟩ := startRuntime_empty config
  have hstart : (Action.start config).perform.leaves {} = .started config space objects [] := by
    rw [RunM.leaves, show (Action.start config).perform = startRuntime config from rfl, hrun]
  obtain ⟨sources, hsources⟩ := after_addSources config space objects [] texts
  have hconsistent := consistent_after (.start config :: texts.map fun s => .addSource s.1 s.2)
  rw [World.after, hstart, hsources] at hconsistent
  refine ⟨space, names, objects, sources, hfilled, hrun, ?_, hconsistent⟩
  rw [World.after, hstart, hsources]

/-- A runtime that has been started and given any sources has the language in place, and nothing
else. -/
theorem primed_start (config : Config) (texts : List (String × String)) :
    (({} : World).after
      (.start config :: texts.map fun s => .addSource s.1 s.2)).Primed := by
  obtain ⟨space, names, objects, sources, hfilled, -, hafter, hconsistent⟩ := after_start config texts
  rw [hafter]
  exact hfilled.primed hconsistent

end HygienicLisp
