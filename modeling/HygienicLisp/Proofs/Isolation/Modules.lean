import HygienicLisp.Module.Declare
import HygienicLisp.Proofs.Isolation.Compile
import HygienicLisp.Proofs.Isolation.Expand

/-!
# Modules and the kernel respect guards

A module is compiled and run in a namespace that is new when its declaration begins, so none of the
guarded slots is in it and its code obeys the guard.  The kernel is built in a new namespace as
well.

Main statement: `obedient_loaderAt`, by induction on how deep modules may be nested.
-/

namespace HygienicLisp

variable {guard : Guard} {w : World} {loader : Loader} {ns : NamespaceId}

theorem Respects.of_run {α : Type} {P : World → α → Prop} {x : RunM α} {a : α} {w' : World}
    (hx : Respects guard P x w) (hw : w.Guarded guard) (hrun : x w = .ok a w') :
    w'.Guarded guard ∧ P w' a := by
  have hx := hx hw
  rw [hrun] at hx
  exact ⟨hx.1, hx.2.2⟩

/-! ## Forms -/

/-- What is compiled in a namespace without guarded slots obeys the guard. -/
theorem respects_compile_outside (hns : guard.Outside ns) (stx : Syntax) :
    Respects guard (fun _ code => code.Obeys guard ns) (compile ns stx) w :=
  (respects_compile ns stx).mono fun _ _ h => h.2.2 hns

/-- A form that is expanded and compiled in the namespace. -/
def compiledForm (loader : Loader) (fuel : Nat) (ns : NamespaceId) (context : ExpandContext)
    (form : Syntax) : RunM Code :=
  Expansion.expand loader ns fuel 0 context form >>= compile ns

/-- A form is run as its code is.  Its constants are data, so that only its instructions matter. -/
theorem respects_runForm (hloader : loader.Obedient guard) {fuel : Nat} {context : ExpandContext}
    {form : Syntax}
    (hcode : ∀ code w', compiledForm loader fuel ns context form w = .ok code w' →
      ∀ c, code.Contains c → guard.allows ns c) :
    Respects guard (fun _ v => v.Obeys guard) (runForm loader fuel ns context form) w := by
  rw [runForm]
  have hexpansion := harmless_expand hloader ns fuel 0 context form w
  refine hexpansion.bind_run fun expanded w₁ hexpand _ _ => ?_
  refine (respects_compile ns expanded).bind_run fun code w₂ hcompile _ h => ?_
  refine respects_eval fuel code ⟨ns, none⟩ w₂ (h.2.1.obeys (hcode code w₂ ?_))
  exact RunM.bind_eq_ok.2 ⟨expanded, w₁, hexpand, hcompile⟩

/-- In a namespace without guarded slots all that is compiled is allowed. -/
theorem allows_of_compiledForm (hloader : loader.Obedient guard) (hns : guard.Outside ns)
    (hw : w.Guarded guard) {fuel : Nat} {context : ExpandContext} {form : Syntax} {code : Code}
    {w' : World} (h : compiledForm loader fuel ns context form w = .ok code w') :
    ∀ c, code.Contains c → guard.allows ns c := by
  intro c hc
  -- The form is compiled in a world that expansion has left guarded, hence a consistent one.
  obtain ⟨expanded, w₁, hexpand, hcompile⟩ := RunM.bind_eq_ok.1 h
  have hw₁ := ((harmless_expand hloader ns fuel 0 context form w).of_run hw hexpand).1
  exact guard.compiled hns hw₁.consistent hcompile hc

theorem respects_runForm_outside (hloader : loader.Obedient guard) (hns : guard.Outside ns)
    (fuel : Nat) (context : ExpandContext) (form : Syntax) :
    Respects guard (fun _ v => v.Obeys guard) (runForm loader fuel ns context form) w := by
  intro hw
  exact respects_runForm hloader (fun code w' h => allows_of_compiledForm hloader hns hw h) hw

/-! ## Module bodies -/

theorem harmless_firstPass (hloader : loader.Obedient guard) (hns : guard.Outside ns) (fuel : Nat)
    (forms : List Syntax) : Harmless guard (firstPass loader ns fuel forms) := by
  induction fuel generalizing forms with
  | zero => exact .exhausted
  | succ fuel ih =>
      cases forms with
      | nil => exact .pure _
      | cons form queue =>
          refine (harmless_partialExpand fuel 0 form).bind fun part => ?_
          split
          · exact ih _
          · exact (harmless_predefineForm ns _).bind fun _ => (ih queue).bind fun _ => .pure _
          · refine Harmless.bind (fun w => ?_) fun _ => ih queue
            exact (respects_runForm_outside hloader hns fuel _ _).mono fun _ _ _ => trivial
          · exact (harmless_expand hloader ns fuel 0 _ _).bind fun _ => ih queue
          · exact (ih queue).bind fun _ => .pure _

theorem respects_secondPass (hloader : loader.Obedient guard) (hns : guard.Outside ns) (fuel : Nat)
    (forms : List Syntax) :
    Respects guard (fun _ codes => ∀ code ∈ codes, code.Obeys guard ns)
      (secondPass loader ns fuel forms) w := by
  induction forms generalizing w with
  | nil => exact .pure (by simp)
  | cons form rest ih =>
      refine (harmless_expand hloader ns fuel 0 .moduleBody form w).bind fun expanded _ _ _ => ?_
      refine (respects_compile_outside hns expanded).bind fun code _ _ hcode => ?_
      exact ih.bind fun codes _ _ hcodes => .pure (List.forall_mem_cons.2 ⟨hcode, hcodes⟩)

theorem respects_withOwnParameters {α : Type} {P : World → α → Prop} {x : RunM α}
    (hx : ∀ w, Respects guard P x w) (hP : ∀ w dynamic a, P w a → P { w with dynamic } a) :
    Respects guard P (withOwnParameters x) w := by
  refine .get_bind fun hw => ?_
  refine (respects_setDynamic (by simp)).bind fun _ w₁ _ _ => ?_
  exact (hx w₁).andThen (fun w' hw' _ => ⟨hw'.setDynamic hw.obeys.dynamic, rfl⟩)
    fun w' a => hP w' _ a

theorem World.Guarded.setProvides (hw : w.Guarded guard) {provides : List Provided}
    (h : ∀ p ∈ provides, w.spaces.Knows p.target) : ({ w with provides } : World).Guarded guard :=
  ⟨{ hw.consistent with provides := h }, { hw.obeys with }, hw.there⟩

theorem respects_withOwnProvides {α : Type} {P : World → α → Prop} {x : RunM α}
    (hx : ∀ w, Respects guard P x w) (hP : ∀ w provides a, P w a → P { w with provides } a) :
    Respects guard P (withOwnProvides x) w := by
  refine .get_bind fun hw => ?_
  have hnone : Respects guard (fun _ _ => True) (modify fun w => { w with provides := [] }) w :=
    .modify fun hw => ⟨hw.setProvides (by simp), .refl _ _⟩
  refine Respects.bind (P := fun w' _ => w.spaces.Extends w'.spaces) ?_ fun _ w₁ _ hextends => ?_
  · exact fun hw => ⟨(hnone hw).1, (hnone hw).2.1, (hnone hw).2.1.extension⟩
  -- What was provided outside is still known when it is put back.
  refine (hx w₁).andThen (fun w' hw' hlater => ⟨hw'.setProvides fun p hp => ?_, rfl⟩)
    fun w' a => hP w' _ a
  exact (hw.consistent.provides p hp).mono (hextends.trans hlater.extension)

theorem respects_requireKernel (ns : NamespaceId) :
    Respects guard (fun _ _ => True) (requireKernel ns) w :=
  .get_bind fun hw => respects_requireAll hw.consistent.kernel ns _ true

theorem Declaration.Obeys.mono {w w' : World} (hextends : w.spaces.Extends w'.spaces)
    {d : Declaration} (h : d.Obeys guard w) : d.Obeys guard w' :=
  ⟨h.known.mono hextends, h.body⟩

/-- A module is declared in a new namespace. -/
theorem respects_declareModule (hloader : loader.Obedient guard) (fuel : Nat) (id : ModuleId)
    (body : List Syntax) :
    Respects guard (fun w' d => d.Obeys guard w') (declareModule loader fuel id body) w := by
  -- The namespaces of the guarded slots are there already, so the new one has none of them.
  refine (respects_newNamespace id .module).bind fun ns w₁ _ hns => ?_
  refine (respects_requireKernel ns).bind fun _ w₂ _ _ => ?_
  refine respects_withOwnParameters (fun w => ?_) fun _ _ _ h => ⟨h.known, h.body⟩
  refine respects_withOwnProvides (fun w => ?_) fun _ _ _ h => ⟨h.known, h.body⟩
  refine (harmless_firstPass hloader hns fuel _ w).bind fun pending w₃ _ _ => ?_
  refine (respects_secondPass hloader hns fuel pending).bind fun codes w₄ _ hcodes => ?_
  exact .get_bind fun hw₄ => .pure ⟨hw₄.consistent.provides, hcodes⟩

theorem respects_loadDeclaration (hloader : loader.Obedient guard) (fuel : Nat) (id : ModuleId) :
    Respects guard (fun w' d => d.Obeys guard w') (loadDeclaration loader fuel id) w := by
  refine .get_bind fun _ => ?_
  split
  · exact .fail _
  · refine Respects.mapError ?_
    refine (Harmless.ofExcept _ w).bind fun body w' _ _ => ?_
    exact respects_declareModule hloader fuel id body

theorem respects_runBody {d : Declaration} (hd : ∀ code ∈ d.body, code.Obeys guard d.space)
    (fuel : Nat) : Respects guard (fun _ _ => True) (runBody fuel d) w := by
  refine respects_withOwnParameters (fun w => ?_) fun _ _ _ _ => trivial
  refine respects_runEach fun code hcode w => ?_
  exact (respects_eval fuel code ⟨d.space, none⟩ w (hd code hcode)).bind
    fun _ _ _ _ => .pure trivial

/-! ## Instances -/

theorem mem_of_mem_addProvided {provided : List Provided} {p q : Provided}
    (h : q ∈ addProvided provided p) : q = p ∨ q ∈ provided := by
  unfold addProvided at h
  split at h
  · obtain ⟨r, hr, hq⟩ := List.mem_map.1 h
    split at hq
    · exact .inl hq.symm
    · exact .inr (hq ▸ hr)
  · rcases List.mem_append.1 h with h | h
    · exact .inr h
    · exact .inl (List.mem_singleton.1 h)

theorem mem_of_mem_foldl_addProvided {added provided : List Provided} {q : Provided}
    (h : q ∈ added.foldl addProvided provided) : q ∈ added ∨ q ∈ provided := by
  induction added generalizing provided with
  | nil => exact .inr h
  | cons p rest ih =>
      rcases ih h with h | h
      · exact .inl (List.mem_cons_of_mem p h)
      · rcases mem_of_mem_addProvided h with rfl | h
        · exact .inl List.mem_cons_self
        · exact .inr h

/-- The instance of a declaration provides what the declaration does. -/
theorem Declaration.Known.instance {spaces : Spaces} {d : Declaration} (h : d.Known spaces) :
    (Instance.ofDeclaration d).Known spaces := by
  intro p hp
  rcases mem_of_mem_foldl_addProvided hp with hp | hp
  · exact h p hp
  · cases hp

theorem respects_declarationOf {load : RunM Declaration}
    (hload : ∀ w, Respects guard (fun w' d => d.Obeys guard w') load w) (id : ModuleId) :
    Respects guard (fun w' d => d.Obeys guard w') (declarationOf id load) w := by
  refine .get_bind fun hw => ?_
  split
  · rename_i d hd
    exact .pure (hw.declarations d (List.mem_of_find?_eq_some hd))
  · refine (Respects.modify_quiet ⟨rfl, rfl, rfl, rfl, rfl, rfl⟩).bind fun _ w₁ _ _ => ?_
    refine (hload w₁).bind fun d w₂ _ hd => ?_
    exact (respects_declare hd).bind fun _ w₃ hlater _ => .pure (hd.mono hlater.extension)

theorem respects_addInstance {d : Declaration} (hd : d.Known w.spaces) :
    Respects guard (fun _ _ => True) (modify fun w =>
      { w with registry := w.registry.addInstance (Instance.ofDeclaration d) }) w := by
  refine .modify fun hw => ⟨hw.setDeclarations hw.declarations ?_, .refl _ _⟩
  exact List.forall_mem_cons.2 ⟨hd.instance, hw.consistent.instances⟩

/-- A module is loaded unless it is declared, and run. -/
theorem respects_instantiateWith {load : RunM Declaration} {run : Declaration → RunM Unit}
    (hload : ∀ w, Respects guard (fun w' d => d.Obeys guard w') load w)
    (hrun : ∀ d w, d.Obeys guard w → Respects guard (fun _ _ => True) (run d) w) (id : ModuleId) :
    Respects guard (fun w' i => i.Known w'.spaces) (instantiateWith id load run) w := by
  refine .get_bind fun hw => ?_
  split
  · rename_i i hi
    exact .pure (hw.consistent.instances i (List.mem_of_find?_eq_some hi))
  · refine respects_whileLoading (fun w => ?_) (fun _ _ _ h => h) id
    refine (respects_declarationOf hload id).bind fun d w₁ _ hd₁ => ?_
    refine (Respects.modify_quiet ⟨rfl, rfl, rfl, rfl, rfl, rfl⟩).bind fun _ w₂ hlater₂ _ => ?_
    have hd₂ := hd₁.mono hlater₂.extension
    refine (hrun d w₂ hd₂).bind fun _ w₃ hlater₃ _ => ?_
    have hd₃ := hd₂.known.mono hlater₃.extension
    refine (respects_addInstance hd₃).bind fun _ w₄ hlater₄ _ => .pure ?_
    exact hd₃.instance.mono hlater₄.extension

/-- The loader respects the guard, however deep modules are nested. -/
theorem obedient_loaderAt (guard : Guard) (fuel : Nat) : (loaderAt fuel).Obedient guard := by
  induction fuel with
  | zero => exact ⟨fun _ _ => .exhausted, fun _ _ _ => .exhausted⟩
  | succ fuel ih =>
      refine ⟨fun id w => ?_, fun id body w => respects_declareModule ih fuel id body⟩
      exact respects_instantiateWith (fun w => respects_loadDeclaration ih fuel id)
        (fun d w hd => respects_runBody hd.body fuel) id

/-! ## The kernel -/

theorem respects_defineAll (hns : guard.Outside ns) {definitions : List (String × RunM Value)}
    (h : ∀ definition ∈ definitions, ∀ w,
      Respects guard (fun _ v => v.Obeys guard) definition.2 w) :
    Respects guard (fun _ _ => True) (defineAll ns definitions) w := by
  induction definitions generalizing w with
  | nil => exact .pure trivial
  | cons definition rest ih =>
      obtain ⟨hvalue, hrest⟩ := List.forall_mem_cons.1 h
      refine (hvalue w).bind fun v w₁ _ hv => ?_
      exact (respects_defineValue hv hns definition.1).bind fun _ w₂ _ _ => ih hrest

theorem respects_buildKernel (id : ModuleId) :
    Respects guard (fun w' d => d.Obeys guard w') (buildKernel id) w := by
  refine (respects_newNamespace id .module).bind fun ns w₁ _ hns => ?_
  refine (respects_defineAll hns ?_).bind fun _ w₂ _ _ => .getSpaces_bind fun hw₂ => .pure ?_
  · intro definition hdefinition w
    rcases List.mem_append.1 hdefinition with h | h
    · obtain ⟨f, -, rfl⟩ := List.mem_map.1 h
      exact .pure .form
    · obtain ⟨p, -, rfl⟩ := List.mem_map.1 h
      exact respects_newProcedure .native
  · refine ⟨fun p hp => ?_, by simp⟩
    obtain ⟨d, hd, rfl⟩ := List.mem_map.1 hp
    cases hspace : w₂.spaces[ns]? with
    | none =>
        rw [hspace] at hd
        cases hd
    | some space =>
        rw [hspace] at hd
        exact hw₂.consistent.spaces.knows_unmarkedDefinitions hspace d hd

theorem respects_installModule {d : Declaration} (hd : d.Obeys guard w) :
    Respects guard (fun w' i => i.Known w'.spaces) (installModule d) w := by
  refine .get_bind fun hw => ?_
  rw [Registry.install, Registry.declare]
  split
  · exact Respects.bind (P := fun _ _ => False) (.fail _) fun _ _ _ h => h.elim
  · intro hw
    refine ⟨hw.setDeclarations ?_ ?_, .refl _ w.spaces, hd.known.instance⟩
    · exact List.forall_mem_cons.2 ⟨hd, hw.declarations⟩
    · exact List.forall_mem_cons.2 ⟨hd.known.instance, hw.consistent.instances⟩

end HygienicLisp
