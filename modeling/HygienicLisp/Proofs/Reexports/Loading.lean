import HygienicLisp.Proofs.Modules.Callbacks
import HygienicLisp.Proofs.Reexports.Others

/-!
# Loading modules

A module that is instantiated is loaded with what it requires, so by induction on how deep modules may
be nested all of them provide what they export.

Main statement: `faithful_loaderAt`, and from it `faithful_after`: any number of requests for modules
lead from a world with the language in place to one in which every instance is faithful.
-/

namespace HygienicLisp

variable {runtime : Runtime} {w w' : World} {id : ModuleId}

/-! ## Registries -/

theorem World.Faithful.setLoading (hw : w.Faithful runtime) (loading : List ModuleId) :
    (w.setLoading loading).Faithful runtime where
  hosted := hw.hosted
  language := { hw.language with }
  guarded := hw.guarded.quiet ⟨rfl, rfl, rfl, rfl, rfl, rfl⟩
  modules := hw.modules
  declared id d hd hid := ⟨(hw.declared id d hd hid).exports, (hw.declared id d hd hid).language⟩
  instances id i hi := ⟨(hw.instances id i hi).exports, (hw.instances id i hi).language⟩

/-- A faithful declaration is recorded for a module that has none. -/
theorem World.Faithful.record (hw : w.Faithful runtime) {d : Declaration}
    (hd : IsDeclaration runtime id w d) (hnone : w.registry.declaration? id = none)
    (hguarded : (w.setRegistry (w.registry.record d)).Guarded runtime.languageGuard) :
    (w.setRegistry (w.registry.record d)).Faithful runtime ∧
      w.Advances runtime { module := some id } (w.setRegistry (w.registry.record d)) := by
  obtain rfl := hd.module
  have hkept (other : ModuleId) (old : Declaration) (hold : w.registry.declaration? other = some old) :
      (w.registry.record d).declaration? other = some old := by
    rw [Registry.declaration?_record, if_neg]
    · exact hold
    · rintro rfl
      rw [hnone] at hold
      cases hold
  have hadvances : w.Advances runtime { module := some d.id }
      (w.setRegistry (w.registry.record d)) := by
    refine ⟨.refl _ _, fun _ _ _ => rfl, rfl, rfl, hkept, fun _ _ h => h, fun other _ hother => ?_⟩
    show (w.registry.record d).declaration? other = _
    rw [Registry.declaration?_record, if_neg fun hsame => hother (congrArg some hsame)]
  -- Whatever is declared afterwards was declared before or is the new one.
  have hcases (other : ModuleId) (d' : Declaration)
      (h : (w.registry.record d).declaration? other = some d') :
      d' = d ∨ w.registry.declaration? other = some d' := by
    rw [Registry.declaration?_record] at h
    split at h
    · exact .inl (Option.some.inj h).symm
    · exact .inr h
  refine ⟨⟨hw.hosted, hw.language.advance hw.hosted hadvances, hguarded, ?_, ?_, ?_⟩, hadvances⟩
  · intro other d' h
    rcases hcases other d' h with rfl | h
    · exact hd.space
    · exact hw.modules other d' h
  · intro other d' h hother
    rcases hcases other d' h with rfl | h
    · exact hd.faithful.advance hd.space hadvances hw.modules
    · exact (hw.declared other d' h hother).advance (hw.modules other d' h) hadvances hw.modules
  · exact fun other i hi => (hw.instances other i hi).advance hadvances hw.modules

/-- A name stays provided when another binding is added. -/
theorem exists_addProvided {provided : List Provided} {p : Provided} {name : String}
    (h : (∃ q ∈ provided, q.name = name) ∨ p.name = name) :
    ∃ q ∈ addProvided provided p, q.name = name := by
  unfold addProvided
  split
  · rename_i hany
    obtain ⟨q, hq, hname⟩ : ∃ q ∈ provided, q.name = name := by
      rcases h with h | rfl
      · exact h
      · simpa using hany
    refine ⟨if q.name = p.name then p else q, List.mem_map_of_mem hq, ?_⟩
    split
    · rename_i hsame
      exact hsame.symm.trans hname
    · exact hname
  · rcases h with ⟨q, hq, hname⟩ | hname
    · exact ⟨q, List.mem_append_left _ hq, hname⟩
    · exact ⟨p, List.mem_append_right _ (List.mem_singleton_self p), hname⟩

theorem exists_foldl_addProvided {added provided : List Provided} {name : String}
    (h : (∃ q ∈ provided, q.name = name) ∨ ∃ q ∈ added, q.name = name) :
    ∃ q ∈ added.foldl addProvided provided, q.name = name := by
  induction added generalizing provided with
  | nil => simpa using h
  | cons p rest ih =>
      refine ih ?_
      rcases h with h | ⟨q, hq, hname⟩
      · exact .inl (exists_addProvided (.inl h))
      · rcases List.mem_cons.1 hq with rfl | hq
        · exact .inl (exists_addProvided (.inr hname))
        · exact .inr ⟨q, hq, hname⟩

/-- What a declaration provides under a name is what its instance does, if all of it leads to one
definition. -/
theorem provided?_ofDeclaration {d : Declaration} {name : String} {t : Definition}
    (hsome : ∃ p ∈ d.provides, p.name = name)
    (hall : ∀ p ∈ d.provides, p.name = name → p.target = t) :
    ∃ p, (Instance.ofDeclaration d).provided? name = some p ∧ p.target = t := by
  obtain ⟨q, hq, hname⟩ := @exists_foldl_addProvided _ [] _ (.inr hsome)
  have hfound : ((Instance.ofDeclaration d).provided? name).isSome = true :=
    List.find?_isSome.2 ⟨q, hq, by simpa using hname⟩
  obtain ⟨p, hp⟩ := Option.isSome_iff_exists.1 hfound
  refine ⟨p, hp, hall p ?_ (Instance.name_of_provided? hp)⟩
  rcases mem_of_mem_foldl_addProvided (List.mem_of_find?_eq_some hp) with hmem | hmem
  · exact hmem
  · cases hmem

/-- The instance of a faithful declaration is faithful. -/
theorem Declaration.Faithful.instance {d : Declaration} (h : d.Faithful runtime w)
    (hd : w.registry.declaration? d.id = some d) :
    (Instance.ofDeclaration d).Faithful runtime w := by
  refine ⟨fun name origin hexports => ?_, fun p hp => ?_⟩
  · obtain ⟨t, hsome, hall, horigin⟩ := h.exports name origin hexports
    obtain ⟨p, hp, rfl⟩ := provided?_ofDeclaration hsome hall
    refine ⟨p, hp, ?_⟩
    rcases horigin with ⟨rfl, hname⟩ | hdefines
    · exact ⟨d, hd, hname⟩
    · exact hdefines
  · rcases mem_of_mem_foldl_addProvided hp with hp | hp
    · exact h.language p hp
    · cases hp

/-- The instance of a faithful declaration is added for a module that has none. -/
theorem World.Faithful.addInstance (hw : w.Faithful runtime) {d : Declaration}
    (hd : w.registry.declaration? id = some d) (hnone : w.registry.instance? id = none)
    (hguarded : (w.setRegistry (w.registry.addInstance (.ofDeclaration d))).Guarded
      runtime.languageGuard) :
    (w.setRegistry (w.registry.addInstance (.ofDeclaration d))).Faithful runtime ∧
      w.Advances runtime {} (w.setRegistry (w.registry.addInstance (.ofDeclaration d))) := by
  have hid : d.id = id := Registry.id_of_declaration? hd
  -- The language has had its instance from the start.
  have hkernel : id ≠ runtime.kernel.id := by
    rintro rfl
    have hinstance := hw.language.instance_kernel
    rw [hw.hosted, hnone] at hinstance
    cases hinstance
  have hadvances : w.Advances runtime {}
      (w.setRegistry (w.registry.addInstance (.ofDeclaration d))) := by
    refine ⟨.refl _ _, fun _ _ _ => rfl, rfl, rfl, fun _ _ h => h, fun other i hi => ?_,
      fun _ _ _ => rfl⟩
    show (w.registry.addInstance _).instance? other = _
    rw [Registry.instance?_addInstance, if_neg]
    · exact hi
    · rintro rfl
      rw [← hid] at hnone
      rw [show (Instance.ofDeclaration d).id = d.id from rfl, hnone] at hi
      cases hi
  refine ⟨⟨hw.hosted, hw.language.advance hw.hosted hadvances, hguarded, hw.modules, ?_, ?_⟩,
    hadvances⟩
  · intro other d' h hother
    exact (hw.declared other d' h hother).advance (hw.modules other d' h) hadvances hw.modules
  · intro other i hi
    have hi : (w.registry.addInstance (.ofDeclaration d)).instance? other = some i := hi
    rw [Registry.instance?_addInstance] at hi
    split at hi
    · cases hi
      refine ((hw.declared id d hd hkernel).instance ?_).advance hadvances hw.modules
      rwa [hid]
    · exact (hw.instances other i hi).advance hadvances hw.modules

/-! ## The steps of loading -/

section

variable {α : Type} {P : World → α → Prop}

/-- While a module is being loaded, it may be declared. -/
theorem proceeds_whileLoading {x : RunM α}
    (hx : id ∉ w.loading →
      Proceeds runtime { module := some id } P x (w.setLoading (w.loading ++ [id])))
    (hP : ∀ w' a, P w' a → P (w'.setLoading w.loading) a) :
    Proceeds runtime {} P (whileLoading id x) w := by
  intro hw
  rw [whileLoading_apply]
  by_cases hid : id ∈ w.loading
  · obtain ⟨outside, inside, -, hcycle⟩ := enterLoading_of_mem hid
    rw [hcycle]
    exact ⟨hw, .refl _ _ w⟩
  · rw [enterLoading_of_notMem hid]
    dsimp only
    have hrun := hx hid (hw.setLoading _)
    -- Of the modules that were being loaded before, none is the one that may be declared.
    have hleave {w' : World}
        (h : (w.setLoading (w.loading ++ [id])).Advances runtime { module := some id } w') :
        w.Advances runtime {} (w'.setLoading w.loading) := by
      refine ⟨h.later, fun ns hns _ => h.cells ns hns (by simp), h.sameRuntime, rfl, h.declared,
        h.instances, fun other hother _ => h.pending other ?_ ?_⟩
      · exact List.mem_append_left _ hother
      · intro hsame
        exact hid (Option.some.inj hsame ▸ hother)
    rw [RunM.andThen]
    cases hresult : x (w.setLoading (w.loading ++ [id])) with
    | ok a w' =>
        rw [hresult] at hrun
        exact ⟨hrun.1.setLoading _, hleave hrun.2.1, hP w' a hrun.2.2⟩
    | error halt w' =>
        rw [hresult] at hrun
        exact ⟨hrun.1.setLoading _, hleave hrun.2⟩

/-- What may change nothing does not declare a module that is being loaded. -/
theorem Proceeds.pending {x : RunM α} (hx : Proceeds runtime {} P x w) (hid : id ∈ w.loading) :
    Proceeds runtime { module := some id }
      (fun w' a => w'.registry.declaration? id = w.registry.declaration? id ∧ P w' a) x w := by
  intro hw
  have hx := hx hw
  cases hrun : x w with
  | error halt w' =>
      rw [hrun] at hx
      exact ⟨hx.1, hx.2.within _⟩
  | ok a w' =>
      rw [hrun] at hx
      obtain ⟨hw', hadvances, ha⟩ := hx
      exact ⟨hw', hadvances.within _, hadvances.pending id hid (by simp), ha⟩

end

/-- A declaration is recorded unless the module has an instance. -/
theorem proceeds_record_declaration {d : Declaration} (hd : IsDeclaration runtime id w d)
    (hobeys : d.Obeys runtime.languageGuard w) (hnone : w.registry.declaration? id = none) :
    Proceeds runtime { module := some id }
      (fun w' _ => w'.registry.declaration? id = some d ∧ w'.registry.instance? id = none ∧
        w'.provides = w.provides)
      (updateRegistry fun r => r.declare d) w := by
  intro hw
  have hguard := respects_declare hobeys hw.guarded
  rw [updateRegistry_apply] at hguard ⊢
  cases hinstance : w.registry.instance? d.id with
  | some i =>
      rw [Registry.declare_of_some hinstance]
      exact ⟨hw, .refl _ _ w⟩
  | none =>
      rw [Registry.declare_of_none hinstance] at hguard ⊢
      obtain ⟨hw', hadvances⟩ := hw.record hd hnone hguard.1
      refine ⟨hw', hadvances, ?_, ?_, rfl⟩
      · exact Registry.declaration?_record.trans (if_pos hd.module)
      · exact hd.module ▸ hinstance

/-- A module that is loaded is declared. -/
theorem proceeds_declarationOf {load : RunM Declaration} (hid : id ∈ w.loading)
    (hnone : w.registry.instance? id = none)
    (hload : ∀ w, Proceeds runtime {} (fun w' d => IsDeclaration runtime id w' d ∧
      w'.provides = w.provides) load w)
    (hobeys : ∀ w, Respects runtime.languageGuard (fun w' d => d.Obeys runtime.languageGuard w')
      load w) :
    Proceeds runtime { module := some id }
      (fun w' d => w'.registry.declaration? id = some d ∧ w'.registry.instance? id = none ∧
        w'.provides = w.provides)
      (declarationOf id load) w := by
  refine .get_bind fun hw => ?_
  cases hdeclaration : w.registry.declaration? id with
  | some d => exact .pure ⟨hdeclaration, hnone, rfl⟩
  | none =>
      dsimp only
      refine (Proceeds.modify fun hw => ?_).bind ?_
      · have hsame : w.Advances runtime { module := some id } w.countLoad :=
          .of_same rfl rfl rfl rfl
        exact ⟨hw.advance hsame (hw.guarded.quiet ⟨rfl, rfl, rfl, rfl, rfl, rfl⟩) rfl, hsame⟩
      rintro _ _ - - rfl
      refine (((hload w.countLoad).and_respects (hobeys _)).pending hid).bind ?_
      rintro d w₂ - - ⟨hsame, ⟨hd, hprovides⟩, hobeys⟩
      refine (proceeds_record_declaration hd hobeys (hsame.trans hdeclaration)).bind ?_
      rintro _ w₃ - - ⟨hdeclared, hinstance, hprovides'⟩
      exact .pure ⟨hdeclared, hinstance, hprovides'.trans hprovides⟩

/-- Running the body of a module leaves the world undisturbed. -/
theorem tidy_runBody (fuel : Nat) (d : Declaration) : (runBody fuel d).Tidy := by
  have heach (codes : List Code) :
      (runEach (fun code => do let _ ← eval fuel code ⟨d.space, none⟩) codes).Tidy := by
    induction codes with
    | nil => exact .pure _
    | cons code rest ih =>
        refine RunM.Tidy.bind ?_ fun _ => ih
        exact RunM.Tidy.bind (.of_stays (eval_stays fuel code _)) fun _ => .pure _
  refine RunM.Tidy.get.bind fun w => RunM.Tidy.bind ?_ fun _ => ?_
  · exact .modifyGet fun w => ⟨rfl, rfl, rfl, rfl, rfl⟩
  · exact RunM.Tidy.andThen (heach d.body) fun w => ⟨rfl, rfl, rfl, rfl, rfl⟩

/-- A module is loaded and run. -/
theorem proceeds_instantiateWith {load : RunM Declaration} {fuel : Nat}
    (hload : id ≠ runtime.kernel.id → ∀ w, Proceeds runtime {} (fun w' d => IsDeclaration runtime id w' d ∧
      w'.provides = w.provides) load w)
    (hobeys : ∀ w, Respects runtime.languageGuard (fun w' d => d.Obeys runtime.languageGuard w')
      load w) :
    Proceeds runtime {}
      (fun w' i => w'.registry.instance? id = some i ∧ w'.provides = w.provides)
      (instantiateWith id load (runBody fuel)) w := by
  refine .get_bind fun hw => ?_
  cases hinstance : w.registry.instance? id with
  | some i => exact .pure ⟨hinstance, rfl⟩
  | none =>
      -- The language has had its instance from the start, so it is never loaded.
      have hkernel : id ≠ runtime.kernel.id := by
        rintro rfl
        have hkernel := hw.language.instance_kernel
        rw [hw.hosted, hinstance] at hkernel
        cases hkernel
      refine proceeds_whileLoading (fun _ => ?_) fun w' i hi => hi
      have hid : id ∈ (w.setLoading (w.loading ++ [id])).loading := by simp [World.setLoading]
      refine (proceeds_declarationOf hid hinstance (hload hkernel) hobeys).bind ?_
      rintro d w₁ hw₁ - ⟨hd, hnone, hprovides⟩
      refine (Proceeds.modify fun hw => ?_).bind ?_
      · have hsame : w₁.Advances runtime { module := some id } w₁.countRun :=
          .of_same rfl rfl rfl rfl
        exact ⟨hw.advance hsame (hw.guarded.quiet ⟨rfl, rfl, rfl, rfl, rfl, rfl⟩) rfl, hsame⟩
      rintro _ _ hw₂ - rfl
      have hbody := hw₂.guarded.declarations d (List.mem_of_find?_eq_some hd)
      refine ((Proceeds.of_tidy (tidy_runBody fuel d) (respects_runBody hbody.body fuel))).bind ?_
      rintro _ w₃ hw₃ - ⟨hundisturbed, -⟩
      have hd₃ : w₃.registry.declaration? id = some d := hundisturbed.registry ▸ hd
      have hnone₃ : w₃.registry.instance? id = none := hundisturbed.registry ▸ hnone
      refine (Proceeds.modify fun hw => ?_).bind ?_
      · have hknown := (hw.guarded.declarations d (List.mem_of_find?_eq_some hd₃)).known
        obtain ⟨hw', hadvances⟩ := hw.addInstance hd₃ hnone₃ (respects_addInstance hknown hw.guarded).1
        exact ⟨hw', hadvances.within _⟩
      rintro _ _ - - rfl
      refine .pure ⟨?_, hundisturbed.provides.trans hprovides⟩
      have hsame : (Instance.ofDeclaration d).id = id := Registry.id_of_declaration? hd
      exact (Registry.instance?_addInstance _).trans (if_pos hsame)

/-! ## The loader -/

/-- A module is declared when it is loaded, whether it consists of items or not. -/
theorem proceeds_loadDeclaration {loader : Loader} (hobedient : loader.Obedient runtime.languageGuard)
    (hloader : loader.Faithful runtime) (hid : id ≠ runtime.kernel.id) (fuel : Nat) :
    Proceeds runtime {} (fun w' d => IsDeclaration runtime id w' d ∧ w'.provides = w.provides)
      (loadDeclaration loader fuel id) w := by
  refine .get_bind fun hw => ?_
  rw [hw.hosted]
  cases hfind : runtime.sources.find? fun s => s.1 = id with
  | none => exact .fail _
  | some source =>
      obtain ⟨found, text⟩ := source
      obtain rfl : found = id := by simpa using List.find?_some hfind
      refine .mapError ?_
      refine Proceeds.bind (P := fun w' body => w' = w ∧ (Source.mk found.path text).read = .ok body)
        (.ofExcept fun _ hread => ⟨rfl, hread⟩) ?_
      rintro forms _ - - ⟨rfl, hread⟩
      refine proceeds_declareModule fun ns w₁ h hnone => ?_
      by_cases hmodule : ∃ items, runtime.Modular found items
      · obtain ⟨items, hmodule⟩ := hmodule
        obtain ⟨text', forms', hfind', hread', hforms⟩ := Runtime.exists_source_of_items? hmodule.read
        cases hfind.symm.trans hfind'
        cases hread.symm.trans hread'
        exact proceeds_passes hobedient hloader hmodule hforms h hnone fuel
      · exact proceeds_passes_of_any hobedient hloader (List.mem_of_find?_eq_some hfind) rfl hid
          hmodule h fuel forms

/-- The loader leads to faithful instances, however deep modules may be nested. -/
theorem faithful_loaderAt (runtime : Runtime) (fuel : Nat) : (loaderAt fuel).Faithful runtime := by
  induction fuel with
  | zero => exact fun _ _ => .exhausted
  | succ fuel ih =>
      intro id w
      have hobedient := obedient_loaderAt runtime.languageGuard fuel
      refine proceeds_instantiateWith (fun hid w => ?_) fun w => ?_
      · exact proceeds_loadDeclaration hobedient ih hid fuel
      · exact respects_loadDeclaration hobedient fuel id

/-! ## Requests -/

theorem Proceeds.leaves {α : Type} {reach : Reach} {P : World → α → Prop} {x : RunM α}
    (hx : Proceeds runtime reach P x w) (hw : w.Faithful runtime) :
    (x.leaves w).Faithful runtime ∧ w.Advances runtime reach (x.leaves w) := by
  have hx := hx hw
  rw [RunM.leaves]
  cases hrun : x w with
  | ok a w' =>
      rw [hrun] at hx
      exact ⟨hx.1, hx.2.1⟩
  | error halt w' =>
      rw [hrun] at hx
      exact hx

/-- The world after modules have been requested, each with a number of steps. -/
def World.requested (w : World) (requests : List (Nat × ModuleId)) : World :=
  w.after (requests.map fun r => .instantiate r.1 r.2)

/-- Any number of requests for modules keep the world faithful. -/
theorem World.Faithful.requested (hw : w.Faithful runtime)
    (requests : List (Nat × ModuleId)) :
    (w.requested requests).Faithful runtime ∧ w.Advances runtime {} (w.requested requests) := by
  induction requests generalizing w with
  | nil => exact ⟨hw, .refl _ _ w⟩
  | cons request rest ih =>
      have hrun : Proceeds runtime {} (fun _ _ => True)
          (Action.instantiate request.1 request.2).perform w :=
        (faithful_loaderAt runtime request.1 request.2 w).bind fun _ _ _ _ _ => .pure trivial
      obtain ⟨hw₁, hadvances⟩ := hrun.leaves hw
      obtain ⟨hw₂, hadvances'⟩ := ih hw₁
      exact ⟨hw₂, hadvances.trans hadvances'⟩

/-- At the start only the language is there. -/
theorem World.Primed.faithful (hw : w.Primed) : w.Faithful w.runtime where
  hosted := rfl
  language := hw.language
  guarded := hw.guarded
  modules id d hd := by
    obtain ⟨d', hd', hspace⟩ := hw.language.declared
    have hid := Registry.id_of_declaration? hd
    rw [← hid, hw.declarations d (List.mem_of_find?_eq_some hd), hd'] at hd
    cases hd
    exact hspace ▸ hw.language.module
  declared id d hd hid := by
    rw [← Registry.id_of_declaration? hd] at hid
    exact absurd (hw.declarations d (List.mem_of_find?_eq_some hd)) hid
  instances id i hi := by
    have hid := instance_id hi
    rw [← hid, hw.instances i (List.mem_of_find?_eq_some hi), hw.language.instance_kernel] at hi
    cases hi
    refine ⟨fun name origin hexports => ?_, fun p hp _ q hq => ?_⟩
    · obtain ⟨rfl, hprovided⟩ := hexports.of_kernel
      obtain ⟨p, hp⟩ := Option.isSome_iff_exists.1 hprovided
      exact ⟨p, hp, hw.language.defines hp⟩
    · refine hw.language.target_unique hp (List.mem_of_find?_eq_some hq) ?_
      exact (Instance.name_of_provided? hq).symm

end HygienicLisp
