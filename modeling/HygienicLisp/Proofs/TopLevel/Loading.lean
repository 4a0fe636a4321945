import HygienicLisp.Proofs.TopLevel.Allotment

/-!
# Addresses that modules and sessions hand out

A module is loaded with what it requires, so that what it provides has been handed out is shown by
induction on how deep modules may be nested.  With the kernel, which provides what it has defined,
all that hosts may ask of a runtime is covered.

Main statements: `allotting_loaderAt` for modules, `Action.allots` for what hosts ask, and
`allotted_after`: in every world that a run leads to, all definitions have addresses that have been
handed out.
-/

namespace HygienicLisp

open RunM.Logic

variable {w : World} {loader : Loader} {ns : NamespaceId}

/-! ## Module bodies -/

theorem allots_withOwnParameters {α : Type} {P : World → α → Prop} {x : RunM α}
    (hx : ∀ w, Allots P x w) (hP : ∀ w dynamic a, P w a → P { w with dynamic } a) :
    Allots P (withOwnParameters x) w := by
  refine .get_bind fun hw _ => ?_
  refine Allots.bind (P := fun _ _ => True) (.of_respects (respects_setDynamic (by simp))
    fun _ ha _ => { ha with }) fun _ w₁ _ _ => ?_
  refine Allots.mono (.andThen (hx w₁) fun w' hw' ha' _ =>
    ⟨hw'.setDynamic fun p _ => p.2.obeys_of_allows Guard.lax_allows, { ha' with }, rfl⟩) ?_
  rintro _ a - - - ⟨w', rfl, -, h⟩
  exact hP w' _ a h

theorem World.Allotted.setProvides (h : w.Allotted) {provides : List Provided}
    (hp : w.spaces.AllotsAll provides) : ({ w with provides } : World).Allotted :=
  { h with provides := hp }

theorem Spaces.Offers.allotsAll {spaces : Spaces} {provided : List Provided}
    (h : spaces.Offers provided) : spaces.AllotsAll provided := fun p hp => (h p hp).2

theorem World.Allotted.offers_provides (h : w.Allotted) (hw : w.Consistent) :
    w.spaces.Offers w.provides := fun p hp => ⟨hw.provides p hp, h.provides p hp⟩

theorem allots_withOwnProvides {α : Type} {P : World → α → Prop} {x : RunM α}
    (hx : ∀ w, Allots P x w) (hP : ∀ w provides a, P w a → P { w with provides } a) :
    Allots P (withOwnProvides x) w := by
  refine .get_bind fun hw ha => ?_
  have houter := ha.offers_provides hw.consistent
  have hnone : Respects .lax (fun _ _ => True) (modify fun w => { w with provides := [] }) w :=
    .modify fun hw => ⟨hw.setProvides (by simp), .refl _ _⟩
  refine Allots.bind (P := fun _ _ => True) (.of_respects hnone
    fun _ ha _ => ha.setProvides (by simp [Spaces.AllotsAll])) fun _ w₁ hlater₁ _ => ?_
  -- What was provided outside is still known when it is put back.
  refine Allots.mono (.andThen (hx w₁) fun w' hw' ha' hlater => ?_) ?_
  · have houter := houter.mono (hlater₁.trans hlater)
    exact ⟨hw'.setProvides fun p hp => (houter p hp).1, ha'.setProvides houter.allotsAll, rfl⟩
  · rintro _ a - - - ⟨w', rfl, -, h⟩
    exact hP w' _ a h

/-- A new namespace has no imports. -/
theorem allots_newNamespace (home : ModuleId) (kind : NamespaceKind) :
    Allots (fun _ _ => True) (newNamespace home kind) w := by
  refine .of_respects ((respects_newNamespace home kind).mono fun _ _ _ => trivial)
    fun _ ha hlasts => ?_
  refine ha.setSpaces hlasts fun c i hc => ?_
  refine (ha.imports c i ?_).mono hlasts
  rw [Spaces.content?, Array.getElem?_push] at hc
  split at hc
  · rename_i howner
    split at howner
    · cases howner
      simp [Namespace.content?] at hc
    · rw [Spaces.content?, howner]
      exact hc
  · cases hc

theorem allots_requireKernel (ns : NamespaceId) :
    Allots (fun _ _ => True) (requireKernel ns) w :=
  .get_bind fun hw ha => allots_requireAll
    (fun p hp => ⟨hw.consistent.kernel p hp, ha.kernel p hp⟩) ns _ true

theorem allots_declareModule (hloader : loader.Allotting) (fuel : Nat) (id : ModuleId)
    (body : List Syntax) :
    Allots (fun w' d => w'.spaces.Offers d.provides) (declareModule loader fuel id body) w := by
  refine (allots_newNamespace id .module).bind fun ns w₁ _ _ => ?_
  refine (allots_requireKernel ns).bind fun _ w₂ _ _ => ?_
  refine allots_withOwnParameters (fun w => ?_) fun _ _ _ h => h
  refine allots_withOwnProvides (fun w => ?_) fun _ _ _ h => h
  have hsteps := allotSteps hloader ns .moduleBody
  have hns := Guard.lax_outside ns
  refine Allots.bind (always_firstPass hloader.obedient hsteps hns fuel _ w)
    fun pending w₃ _ _ => ?_
  refine Allots.bind (always_secondPass hloader.obedient hsteps hns fuel pending w₃)
    fun codes w₄ _ _ => ?_
  exact .get_bind fun hw₄ ha₄ => .pure (ha₄.offers_provides hw₄.consistent)

theorem allots_loadDeclaration (hloader : loader.Allotting) (fuel : Nat) (id : ModuleId) :
    Allots (fun w' d => w'.spaces.Offers d.provides) (loadDeclaration loader fuel id) w := by
  refine .get_bind fun _ _ => ?_
  split
  · exact .fail _
  · refine Allots.mapError ?_
    refine Allots.bind (P := fun _ _ => True) (.ofExcept fun _ _ => trivial) fun body _ _ _ => ?_
    exact allots_declareModule hloader fuel id body

/-! ## Instances -/

theorem allots_runBody (fuel : Nat) (d : Declaration) :
    Allots (fun _ _ => True) (runBody fuel d) w :=
  .of_tidy (tidy_runBody fuel d) (respects_runBody (fun code _ => code.obeys_lax d.space) fuel)

/-- An instance offers what its declaration does. -/
theorem Spaces.Offers.instance {spaces : Spaces} {d : Declaration} (h : spaces.Offers d.provides) :
    spaces.Offers (Instance.ofDeclaration d).provided := by
  intro p hp
  rcases mem_of_mem_foldl_addProvided hp with hp | hp
  · exact h p hp
  · cases hp

theorem allots_declarationOf {load : RunM Declaration}
    (hload : ∀ w, Allots (fun w' d => w'.spaces.Offers d.provides) load w) (id : ModuleId) :
    Allots (fun w' d => w'.spaces.Offers d.provides) (declarationOf id load) w := by
  refine .get_bind fun hw ha => ?_
  split
  · rename_i d hd
    have hmem := List.mem_of_find?_eq_some hd
    exact .pure fun p hp =>
      ⟨(hw.declarations d hmem).known p hp, ha.declarations d hmem p hp⟩
  · refine Allots.bind (P := fun _ _ => True) (.of_respects
      (Respects.modify_quiet ⟨rfl, rfl, rfl, rfl, rfl, rfl⟩) fun _ ha _ => { ha with })
      fun _ w₁ _ _ => ?_
    refine (hload w₁).bind fun d w₂ _ hd => ?_
    exact (allots_declare hd).bind fun _ w₃ hlater _ => .pure (hd.mono hlater)

theorem allots_addInstance {d : Declaration} (hd : w.spaces.Offers d.provides) :
    Allots (fun _ _ => True) (modify fun w =>
      { w with registry := w.registry.addInstance (Instance.ofDeclaration d) }) w := by
  refine .of_respects (respects_addInstance fun p hp => (hd p hp).1) fun _ ha _ => ?_
  exact { ha with instances := List.forall_mem_cons.2 ⟨hd.instance.allotsAll, ha.instances⟩ }

theorem allots_instantiateWith {load : RunM Declaration} {run : Declaration → RunM Unit}
    (hload : ∀ w, Allots (fun w' d => w'.spaces.Offers d.provides) load w)
    (hrun : ∀ d, allotLogic.Always (run d)) (id : ModuleId) :
    Allots (fun w' i => w'.spaces.Offers i.provided) (instantiateWith id load run) w := by
  refine .get_bind fun hw ha => ?_
  split
  · rename_i i hi
    have hmem := List.mem_of_find?_eq_some hi
    exact .pure fun p hp => ⟨hw.consistent.instances i hmem p hp, ha.instances i hmem p hp⟩
  · refine allots_whileLoading (fun w => ?_) (fun _ _ _ h => h) id
    refine (allots_declarationOf hload id).bind fun d w₁ _ hd₁ => ?_
    refine Allots.bind (P := fun _ _ => True) (.of_respects
      (Respects.modify_quiet ⟨rfl, rfl, rfl, rfl, rfl, rfl⟩) fun _ ha _ => { ha with })
      fun _ w₂ hlater₂ _ => ?_
    refine (hrun d w₂).bind fun _ w₃ hlater₃ _ => ?_
    have hd₃ := hd₁.mono (hlater₂.trans hlater₃)
    exact (allots_addInstance hd₃).bind fun _ w₄ hlater₄ _ => .pure (hd₃.instance.mono hlater₄)

/-- The loader keeps addresses handed out, however deep modules are nested. -/
theorem allotting_loaderAt (fuel : Nat) : (loaderAt fuel).Allotting := by
  induction fuel with
  | zero =>
      exact ⟨obedient_loaderAt .lax 0, fun _ _ => .exhausted, fun _ _ _ => .exhausted⟩
  | succ fuel ih =>
      refine ⟨obedient_loaderAt .lax (fuel + 1), fun id w => ?_, fun id body w => ?_⟩
      · exact allots_instantiateWith (fun w => allots_loadDeclaration ih fuel id)
          (fun d w => allots_runBody fuel d) id
      · exact allots_declareModule ih fuel id body

/-! ## The kernel -/

theorem allots_defineAll {definitions : List (String × RunM Value)}
    (h : ∀ definition ∈ definitions, allotLogic.Always definition.2) :
    allotLogic.Always (defineAll ns definitions) := by
  induction definitions with
  | nil => exact .pure ()
  | cons definition rest ih =>
      obtain ⟨hvalue, hrest⟩ := List.forall_mem_cons.1 h
      refine hvalue.bind fun v => ?_
      exact Always.bind (fun _ => allots_defineValue ns definition.1 v) fun _ => ih hrest

theorem allotting_kernelDefinitions :
    ∀ definition ∈ kernelDefinitions, allotLogic.Always definition.2 := by
  intro definition hdefinition
  rcases List.mem_append.1 hdefinition with h | h
  · obtain ⟨f, -, rfl⟩ := List.mem_map.1 h
    exact .pure _
  · obtain ⟨p, -, rfl⟩ := List.mem_map.1 h
    refine .of_tidy (.bind (.modifyGet fun w => ⟨rfl, rfl, rfl, rfl, rfl⟩) fun _ => .pure _) ?_
    exact fun w => (respects_newProcedure .native).mono fun _ _ _ => trivial

theorem allots_buildKernel (id : ModuleId) :
    Allots (fun w' d => w'.spaces.Offers d.provides) (buildKernel id) w := by
  refine (allots_newNamespace id .module).bind fun ns w₁ _ _ => ?_
  refine (allots_defineAll allotting_kernelDefinitions w₁).bind fun _ w₂ _ _ => ?_
  refine .getSpaces_bind fun hw₂ _ => .pure fun p hp => ?_
  obtain ⟨d, hd, rfl⟩ := List.mem_map.1 hp
  cases hspace : w₂.spaces[ns]? with
  | none =>
      rw [hspace] at hd
      cases hd
  | some space =>
      rw [hspace] at hd
      exact hw₂.consistent.offers_unmarkedDefinitions hspace d hd

theorem allots_installModule {d : Declaration} (hd : w.spaces.Offers d.provides) :
    Allots (fun w' i => w'.spaces.Offers i.provided) (installModule d) w := by
  refine .get_bind fun hw ha => ?_
  rw [Registry.install, Registry.declare]
  split
  · exact Allots.bind (P := fun _ _ => False) (.fail _) fun _ _ _ h => h.elim
  · intro hw ha
    have hknown : d.Obeys .lax w := Declaration.obeys_of_offers hd
    refine ⟨hw.setDeclarations ?_ ?_, ?_, .refl _ w.spaces, hd.instance⟩
    · exact List.forall_mem_cons.2 ⟨hknown, hw.declarations⟩
    · exact List.forall_mem_cons.2 ⟨hknown.known.instance, hw.consistent.instances⟩
    · exact { ha with
        declarations := List.forall_mem_cons.2 ⟨hd.allotsAll, ha.declarations⟩
        instances := List.forall_mem_cons.2 ⟨hd.instance.allotsAll, ha.instances⟩ }

/-! ## Sessions -/

theorem allots_startRuntime (config : Config) :
    Allots (fun _ _ => True) (startRuntime config) w := by
  have hclear : Allots (fun _ _ => True)
      (modify fun w => { w with runtime := { config }, registry := {} }) w := by
    intro hw ha
    refine ⟨⟨?_, ?_, hw.there⟩, ?_, .refl _ w.spaces, trivial⟩
    · refine { hw.consistent with declarations := ?_, instances := ?_, kernel := ?_ } <;>
        rintro _ ⟨⟩
    · refine { hw.obeys with bodies := ?_ }
      rintro _ ⟨⟩
    · refine { ha with declarations := ?_, instances := ?_, kernel := ?_ } <;> rintro _ ⟨⟩
  refine hclear.bind fun _ w₁ _ _ => ?_
  refine (allots_buildKernel _).bind fun d w₂ _ hd => ?_
  refine (allots_installModule hd).bind fun kernel w₃ _ hkernel hw₃ ha₃ => ?_
  refine ⟨hw₃.setRuntime fun p hp => (hkernel p hp).1, ?_, .refl _ w₃.spaces, trivial⟩
  exact { ha₃ with kernel := hkernel.allotsAll }

theorem allots_addSource (path text : String) :
    Allots (fun _ _ => True) (addSource path text) w := by
  refine Allots.bind (P := fun _ _ => True) (.ofExcept fun _ _ => trivial) fun id w₁ _ _ => ?_
  refine Allots.bind (P := fun _ _ => True) (.of_respects
    (Respects.modify_quiet ⟨rfl, rfl, rfl, rfl, rfl, rfl⟩) fun _ ha _ => { ha with })
    fun _ _ _ _ => .pure trivial

theorem allots_openSession : Allots (fun _ _ => True) openSession w := by
  refine .get_bind fun _ _ => ?_
  refine Allots.bind (P := fun _ _ => True) (.of_respects
    (Respects.modify_quiet ⟨rfl, rfl, rfl, rfl, rfl, rfl⟩) fun _ ha _ => { ha with })
    fun _ w₁ _ _ => ?_
  refine (allots_newNamespace _ .topLevel).bind fun ns w₂ _ _ => ?_
  exact (allots_requireKernel ns).bind fun _ w₃ _ _ => .pure trivial

theorem allotting_evalQueue (hloader : loader.Allotting) (ns : NamespaceId) (fuel : Nat)
    (result : Value) (queue : List Syntax) :
    allotLogic.Always (evalQueue loader ns fuel result queue) := by
  induction fuel generalizing result queue with
  | zero => exact .exhausted
  | succ fuel ih =>
      cases queue with
      | nil => exact .pure _
      | cons form queue =>
          refine Always.bind (.of_tidy (tidy_partialExpand fuel 0 form)
            (harmless_partialExpand fuel 0 form)) fun part => ?_
          split
          · exact ih _ _
          · refine Always.bind ?_ fun v => ih v queue
            exact always_runForm hloader.obedient (allotSteps hloader ns _) (Guard.lax_outside ns) fuel _

theorem allotting_evalForms (fuel : Nat) (ns : NamespaceId) (result : Value)
    (forms : List Syntax) : allotLogic.Always (evalForms fuel ns result forms) := by
  induction forms generalizing result with
  | nil => exact .pure _
  | cons form rest ih =>
      refine Always.bind (allotting_evalQueue (allotting_loaderAt fuel) ns fuel .void _) ?_
      exact fun v => ih v

theorem allotting_applyProcedure (fuel : Nat) (procedure : Value) (args : List Value) :
    allotLogic.Always (applyProcedure fuel procedure args) :=
  .of_tidy (.of_stays (applyProcedure_stays fuel procedure args)) fun _ =>
    (respects_applyProcedure (procedure.obeys_of_allows Guard.lax_allows)
      fun v _ => v.obeys_of_allows Guard.lax_allows).mono fun _ _ _ => trivial

theorem allots_requireModule (fuel : Nat) (ns : NamespaceId) (path : String) :
    Allots (fun _ _ => True) (requireModule fuel ns path) w := by
  refine .getSpaces_bind fun _ _ => ?_
  refine Allots.bind (.of_tidy (tidy_resolveModule path _) (harmless_resolveModule path _ w))
    fun id w₁ _ _ => ?_
  refine ((allotting_loaderAt fuel).instantiate id w₁).bind fun i w₂ _ hi => ?_
  exact allots_requireAll hi ns _ false

/-- Whatever a host asks, addresses stay handed out. -/
theorem Action.allots (action : Action) : Allots (fun _ _ => True) action.perform w := by
  have hloader := allotting_loaderAt
  have hdrop {α : Type} {P : World → α → Prop} {x : RunM α} (hx : Allots P x w) :
      Allots (fun _ _ => True) (do let _ ← x : RunM Unit) w :=
    hx.bind fun _ _ _ _ => .pure trivial
  cases action with
  | start config => exact allots_startRuntime config
  | addSource path text => exact hdrop (allots_addSource path text)
  | openSession => exact hdrop allots_openSession
  | evalText fuel ns text =>
      refine hdrop (Allots.mapError (P := fun _ _ => True) ?_)
      refine Allots.bind (P := fun _ _ => True) (.ofExcept fun _ _ => trivial) fun forms w' _ _ => ?_
      exact allotting_evalForms fuel ns .void forms w'
  | evalForm fuel ns form =>
      exact hdrop (allotting_evalQueue (hloader fuel) ns fuel .void [form.introduce ns] w)
  | evalInContext fuel ns form =>
      exact hdrop (allotting_evalQueue (hloader fuel) ns fuel .void [form] w)
  | expand fuel ns context form =>
      have hsteps := allotSteps (hloader fuel) ns context
      exact hdrop (always_expand (hloader fuel).obedient hsteps fuel 0 form w)
  | compile ns form =>
      exact hdrop (always_compile (L := allotLogic) (Guard.lax_outside ns) form w)
  | run fuel ns code =>
      refine hdrop (P := fun _ _ => True) (.of_tidy (.of_stays (eval_stays fuel code _)) ?_)
      exact (respects_eval fuel code ⟨ns, none⟩ w (code.obeys_lax ns)).mono fun _ _ _ => trivial
  | apply fuel procedure args => exact hdrop (allotting_applyProcedure fuel procedure args w)
  | define ns name v => exact allots_defineValue ns name v
  | require fuel ns path => exact allots_requireModule fuel ns path
  | call fuel ns name args =>
      refine hdrop (P := fun _ _ => True) (Allots.bind (P := fun _ _ => True) ?_
        fun v w' _ _ => allotting_applyProcedure fuel v args w')
      exact .getSpaces_bind fun _ _ => .ofExcept fun _ _ => trivial
  | instantiate fuel id => exact hdrop ((hloader fuel).instantiate id w)

/-! ## Runs -/

theorem Allots.leaves {α : Type} {P : World → α → Prop} {x : RunM α} (hx : Allots P x w)
    (hw : w.Guarded .lax) (ha : w.Allotted) :
    (x.leaves w).Guarded .lax ∧ (x.leaves w).Allotted := by
  have hx := hx hw ha
  rw [RunM.leaves]
  cases hrun : x w with
  | ok a w' =>
      rw [hrun] at hx
      exact ⟨hx.1, hx.2.1⟩
  | error halt w' =>
      rw [hrun] at hx
      exact ⟨hx.1, hx.2.1⟩

/-- Any number of actions keep addresses handed out. -/
theorem World.Allotted.after (hw : w.Guarded .lax) (ha : w.Allotted) (actions : List Action) :
    (w.after actions).Allotted := by
  induction actions generalizing w with
  | nil => exact ha
  | cons action rest ih =>
      obtain ⟨hw₁, ha₁⟩ := action.allots.leaves hw ha
      exact ih hw₁ ha₁

/-- In every world that a run leads to, all definitions have addresses that have been handed out. -/
theorem allotted_after (actions : List Action) : (({} : World).after actions).Allotted := by
  have hempty : ({} : World).Allotted := by
    refine ⟨fun c i hc => ?_, ?_, ?_, ?_, ?_⟩
    · simp [Spaces.content?] at hc
    all_goals rintro _ ⟨⟩
  exact hempty.after (World.guarded_empty fun _ => not_false) actions

end HygienicLisp
