import HygienicLisp.Expansion.Expand
import HygienicLisp.Proofs.Isolation.Eval

/-!
# Expansion respects guards

Expansion takes addresses, imports what modules provide, and runs transformers, which are values of
the world.  None of this stores a value in a guarded slot.  How expansion gets at modules is an
argument of it, of which `Loader.Obedient` says what is needed.

Main statements: `harmless_partialExpand` and `harmless_expand`, by one lemma for each core form.
-/

namespace HygienicLisp

open Expansion

variable {guard : Guard}

/-! ## Computations with any result -/

/-- The computation respects the guard in every world. -/
def Harmless {α : Type} (guard : Guard) (x : RunM α) : Prop :=
  ∀ w, Respects guard (fun _ _ => True) x w

namespace Harmless

variable {α β : Type}

theorem pure (a : α) : Harmless guard (pure a : RunM α) := fun _ => .pure trivial

theorem fail (e : Error) : Harmless guard (RunM.fail e : RunM α) := fun _ => .fail e

theorem exhausted : Harmless guard (RunM.exhausted : RunM α) := fun _ => .exhausted

theorem ofExcept (r : Except Error α) : Harmless guard (RunM.ofExcept r) :=
  fun _ => .ofExcept fun _ _ => trivial

theorem bind {x : RunM α} {f : α → RunM β} (hx : Harmless guard x)
    (hf : ∀ a, Harmless guard (f a)) : Harmless guard (x >>= f) :=
  fun w => (hx w).bind fun a w' _ _ => hf a w'

theorem get_bind {f : World → RunM β} (h : ∀ w, Harmless guard (f w)) :
    Harmless guard (get >>= f) :=
  fun w => .get_bind fun _ => h w w

theorem mapError {f : Error → Error} {x : RunM α} (hx : Harmless guard x) :
    Harmless guard (RunM.mapError f x) :=
  fun w => (hx w).mapError

/-- A check before the rest. -/
theorem check {c : Prop} {_ : Decidable c} {stx : Syntax} {fault : SyntaxFault} {x : RunM α}
    (hx : Harmless guard x) :
    Harmless guard (if c then (RunM.failAt stx fault : RunM PUnit) >>= fun _ => x else x) := by
  split
  · exact (fail _).bind fun _ => hx
  · exact hx

end Harmless

theorem respects_runEach {α : Type} {w : World} {f : α → RunM Unit} {items : List α}
    (h : ∀ a ∈ items, Harmless guard (f a)) :
    Respects guard (fun _ _ => True) (runEach f items) w := by
  induction items generalizing w with
  | nil => exact .pure trivial
  | cons a rest ih =>
      obtain ⟨ha, hrest⟩ := List.forall_mem_cons.1 h
      exact (ha w).bind fun _ w' _ _ => ih hrest

/-! ## Transformers -/

theorem harmless_resolveModule (path : String) (requester : Option ModuleId) :
    Harmless guard (resolveModule path requester) := by
  refine .get_bind fun w => ?_
  dsimp only
  split
  · exact .pure _
  · exact .ofExcept _

theorem harmless_kernelIdentifier (name : String) (site : Syntax) :
    Harmless guard (kernelIdentifier name site) :=
  .get_bind fun _ => .pure _

theorem harmless_descend (depth : Nat) (form : Syntax) : Harmless guard (descend depth form) := by
  refine .get_bind fun w => ?_
  split
  · split
    · exact .fail _
    · exact .pure _
  · exact .pure _

theorem harmless_invoke {p : Procedure} (hp : p.Obeys guard) (fuel : Nat)
    (id procedureId : ObjectId) (form : Syntax) :
    Harmless guard (invoke fuel id procedureId p form) := by
  refine Harmless.bind (fun _ => respects_freshMark) fun mark => .get_bind fun w => ?_
  refine Harmless.bind (fun _ => respects_stampSyntax _) fun input => ?_
  have hargs : ∀ v ∈ [Value.stx input], v.Obeys guard := List.forall_mem_singleton.2 .stx
  refine Harmless.bind (.mapError fun w => ?_) fun output => ?_
  · exact (respects_applyProcedure (.procedure hp) hargs).mono fun _ _ _ => trivial
  · cases output with
    | stx s => exact .pure _
    | _ => exact .fail _

/-- What an identifier denotes is a value that the world holds. -/
theorem World.Guarded.headValue? {w : World} (hw : w.Guarded guard) {head : Syntax} {v : Value}
    (hv : headValue? w.spaces head = some v) : v.Obeys guard := by
  obtain ⟨_, _, hvalue⟩ := exists_value?_of_headValue? hv
  exact hw.obeys.values hvalue

theorem World.Guarded.transformer {w : World} (hw : w.Guarded guard) {head : Syntax}
    {id procedureId : ObjectId} {p : Procedure}
    (hv : HygienicLisp.headValue? w.spaces head = some (.transformer id procedureId p)) :
    p.Obeys guard := by
  cases hw.headValue? hv with
  | transformer hp => exact hp

theorem harmless_partialExpand (fuel depth : Nat) (form : Syntax) :
    Harmless guard (partialExpand fuel depth form) := by
  induction fuel generalizing depth form with
  | zero => exact .exhausted
  | succ fuel ih =>
      rw [partialExpand]
      split
      · exact .pure _
      · refine fun w => .getSpaces_bind fun hw => ?_
        split
        · rename_i hhead
          refine (harmless_descend depth form).bind (fun depth => ?_) w
          exact (harmless_invoke (hw.transformer hhead) _ _ _ form).bind fun form => ih depth form
        · exact .pure trivial
        · exact .pure trivial
        · exact .pure trivial

/-! ## Modules -/

/-- A declaration that the world may come to hold. -/
structure Declaration.Obeys (guard : Guard) (w : World) (d : Declaration) : Prop where
  known : d.Known w.spaces
  body : ∀ code ∈ d.body, code.Obeys guard d.space

/-- The loader respects the guard, and gives instances and declarations of known definitions. -/
structure Loader.Obedient (guard : Guard) (loader : Loader) : Prop where
  instantiate : ∀ id w,
    Respects guard (fun w' i => i.Known w'.spaces) (loader.instantiate id) w
  declare : ∀ id body w, Respects guard (fun w' d => d.Obeys guard w') (loader.declare id body) w

theorem World.Guarded.setDeclarations {w : World} (hw : w.Guarded guard) {registry : Registry}
    (hdeclarations : ∀ d ∈ registry.declarations, d.Obeys guard w)
    (hinstances : ∀ i ∈ registry.instances, i.Known w.spaces) :
    ({ w with registry } : World).Guarded guard :=
  ⟨{ hw.consistent with
      declarations := fun d hd => (hdeclarations d hd).known
      instances := hinstances },
    { hw.obeys with bodies := fun d hd => (hdeclarations d hd).body }, hw.there⟩

theorem World.Guarded.declarations {w : World} (hw : w.Guarded guard) :
    ∀ d ∈ w.registry.declarations, d.Obeys guard w :=
  fun d hd => ⟨hw.consistent.declarations d hd, hw.obeys.bodies d hd⟩

/-- Recording a declaration. -/
theorem respects_declare {w : World} {d : Declaration} (hd : d.Obeys guard w) :
    Respects guard (fun _ _ => True) (updateRegistry fun r => r.declare d) w := by
  refine .get_bind fun hw => ?_
  dsimp only
  rw [Registry.declare]
  split
  · exact Respects.bind (P := fun _ _ => False) (.fail _) fun _ _ _ h => h.elim
  · refine .modify fun _ => ⟨hw.setDeclarations ?_ hw.consistent.instances, .refl _ _⟩
    exact List.forall_mem_cons.2 ⟨hd, hw.declarations⟩

/-- A computation while a module counts as being loaded. -/
theorem respects_whileLoading {α : Type} {w : World} {P : World → α → Prop} {x : RunM α}
    (hx : ∀ w, Respects guard P x w) (hP : ∀ w loading a, P w a → P { w with loading } a)
    (id : ModuleId) : Respects guard P (whileLoading id x) w := by
  refine .get_bind fun hw => ?_
  refine Respects.bind (P := fun _ _ => True) (.ofExcept fun _ _ => trivial) fun _ _ _ _ => ?_
  refine (Respects.modify_quiet ⟨rfl, rfl, rfl, rfl, rfl, rfl⟩).bind fun _ w' _ _ => ?_
  refine (hx w').andThen (fun w' hw' _ => ⟨hw'.quiet ⟨rfl, rfl, rfl, rfl, rfl, rfl⟩, rfl⟩) ?_
  exact fun w' a => hP w' _ a

theorem harmless_declareForm {loader : Loader} (hloader : loader.Obedient guard) (form : Syntax)
    (parts : List Syntax) : Harmless guard (declareForm loader form parts) := by
  unfold declareForm
  split
  · exact .fail _
  · refine (harmless_resolveModule _ none).bind fun id => ?_
    refine Harmless.bind (fun w => ?_) fun _ => .pure form
    refine respects_whileLoading (fun w => ?_) (fun _ _ _ _ => trivial) id
    exact (hloader.declare id _ w).bind fun d w' _ hd => respects_declare hd

theorem harmless_modulePath (spec : Syntax) : Harmless guard (modulePath spec) := by
  unfold modulePath
  split
  · exact .pure _
  · exact .pure _
  · exact .fail _

theorem respects_requiredInstance {w : World} {loader : Loader} (hloader : loader.Obedient guard)
    (ns : NamespaceId) (spec : Syntax) :
    Respects guard (fun w' i => i.Known w'.spaces) (requiredInstance loader ns spec) w := by
  refine (harmless_modulePath spec w).bind fun path w₁ _ _ => .getSpaces_bind fun _ => ?_
  refine (Harmless.mapError (harmless_resolveModule path _) w₁).bind fun id w₂ _ _ => ?_
  exact (hloader.instantiate id w₂).mapError

theorem exported_mem {i : Instance} {stx : Syntax} {p : Provided} (h : exported i stx = .ok p) :
    p ∈ i.provided := by
  unfold exported at h
  dsimp only at h
  split at h
  · rename_i hfind
    cases h
    exact List.mem_of_find?_eq_some hfind
  · cases h

/-- What is imported under an identifier is known if the instance is. -/
theorem respects_exported_require {w : World} {i : Instance} (hi : i.Known w.spaces)
    (ns : NamespaceId) (name stx : Syntax) {rest : RunM Unit}
    (hrest : ∀ w', i.Known w'.spaces → Respects guard (fun _ _ => True) rest w') :
    Respects guard (fun _ _ => True) (do
      let p ← RunM.ofExcept (exported i name)
      require ns stx p false
      rest) w := by
  refine Respects.bind (P := fun w' p => w'.spaces.Knows p.target)
    (.ofExcept fun p hp => hi p (exported_mem hp)) fun p w₁ hlater₁ hknown => ?_
  refine (respects_require hknown ns stx false).bind fun _ w₂ hlater₂ _ => ?_
  exact hrest w₂ (hi.mono (hlater₁.trans hlater₂).extension)

theorem respects_check {α : Type} {w : World} {P : World → α → Prop} {c : Prop} {_ : Decidable c}
    {stx : Syntax} {fault : SyntaxFault} {x : RunM α} (hx : Respects guard P x w) :
    Respects guard P (if c then (RunM.failAt stx fault : RunM PUnit) >>= fun _ => x else x) w := by
  split
  · exact Respects.bind (P := fun _ _ => False) (.fail _) fun _ _ _ h => h.elim
  · exact hx

theorem respects_requireOnly {w : World} {i : Instance} (hi : i.Known w.spaces) (ns : NamespaceId)
    (names : List Syntax) : Respects guard (fun _ _ => True) (requireOnly ns i names) w := by
  induction names generalizing w with
  | nil => exact .pure trivial
  | cons stx rest ih =>
      exact respects_check (respects_exported_require hi ns stx stx fun w' hi' => ih hi')

theorem respects_requireRenamed {w : World} {i : Instance} (hi : i.Known w.spaces)
    (ns : NamespaceId) (pairs : List Syntax) :
    Respects guard (fun _ _ => True) (requireRenamed ns i pairs) w := by
  induction pairs generalizing w with
  | nil => exact .pure trivial
  | cons pair rest ih =>
      rw [requireRenamed]
      split
      · exact respects_check (respects_exported_require hi ns _ _ fun w' hi' => ih hi')
      · exact .fail _

theorem harmless_requireSpec {loader : Loader} (hloader : loader.Obedient guard) (ns : NamespaceId)
    (spec : Syntax) : Harmless guard (requireSpec loader ns spec) := by
  intro w
  unfold requireSpec
  split
  · exact (respects_requiredInstance hloader ns spec).bind fun i w' _ hi =>
      respects_requireAll hi ns _ false
  · split
    · exact (respects_requiredInstance hloader ns _).bind fun i w' _ hi =>
        respects_requireOnly hi ns _
    · split
      · exact (respects_requiredInstance hloader ns _).bind fun i w' _ hi =>
          respects_requireRenamed hi ns _
      · exact .fail _
  · exact .fail _

theorem respects_recordProvided {w : World} {p : Provided} (hp : w.spaces.Knows p.target) :
    Respects guard (fun w' _ => w'.spaces = w.spaces) (recordProvided p) w := by
  intro hw
  refine ⟨⟨{ hw.consistent with provides := fun q hq => ?_ }, { hw.obeys with }, hw.there⟩,
    .refl _ w.spaces, rfl⟩
  rcases List.mem_append.1 hq with hq | hq
  · exact hw.consistent.provides q hq
  · obtain rfl := List.mem_singleton.1 hq
    exact hp

theorem respects_recordEach {w : World} {ds : List Definition} (hds : ∀ d ∈ ds, w.spaces.Knows d) :
    Respects guard (fun _ _ => True)
      (runEach (fun d : Definition => recordProvided ⟨d.name, d⟩) ds) w := by
  induction ds generalizing w with
  | nil => exact .pure trivial
  | cons d rest ih =>
      obtain ⟨hd, hrest⟩ := List.forall_mem_cons.1 hds
      refine (respects_recordProvided hd).bind fun _ w' _ hspaces => ih ?_
      rw [hspaces]
      exact hrest

theorem harmless_provideSpec (ns : NamespaceId) (spec : Syntax) :
    Harmless guard (provideSpec ns spec) := by
  refine fun w => .getSpaces_bind fun hw => ?_
  have hspaces := hw.consistent.spaces
  split
  · split
    · rename_i target htarget
      obtain ⟨b, -, htarget⟩ := Option.bind_eq_some_iff.1 htarget
      exact (respects_recordProvided (hspaces.knows_target htarget)).mono fun _ _ _ => trivial
    · exact .fail _
  · split
    · split
      · refine respects_recordEach ?_
        cases hspace : w.spaces[ns]? with
        | none => simp
        | some space => exact hspaces.knows_unmarkedDefinitions hspace
      · exact .fail _
    · exact .fail _

/-! ## Core forms -/

theorem harmless_expectCount (form : Syntax) (parts : List Syntax) (count : Nat)
    (expected : Operands) : Harmless guard (expectCount form parts count expected) := by
  rw [expectCount]
  split
  · exact .pure ()
  · exact .fail _

theorem harmless_expectBody (form : Syntax) (parts : List Syntax) (first : Nat) :
    Harmless guard (expectBody form parts first) := by
  rw [expectBody]
  split
  · exact .pure ()
  · exact .fail _

theorem harmless_expectDefinitions (form : Syntax) (context : ExpandContext) (what : String) :
    Harmless guard (expectDefinitions form context what) := by
  rw [expectDefinitions]
  split
  · exact .pure ()
  · exact .fail _

theorem harmless_bindingClauses (clauses : Syntax) : Harmless guard (bindingClauses clauses) := by
  have hparse (items : List Syntax) : Harmless guard (parseClauses items) := by
    induction items with
    | nil => exact .pure _
    | cons clause rest ih =>
        rw [parseClauses]
        split
        · split
          · exact ih.bind fun _ => .pure _
          · exact .fail _
        · exact .fail _
  rw [bindingClauses]
  split
  · exact .fail _
  · exact hparse _

theorem harmless_newRib (binders : List Syntax) : Harmless guard (newRib binders) :=
  fun _ => respects_newRib binders

theorem harmless_predefine (ns : NamespaceId) (stx : Syntax) : Harmless guard (predefine ns stx) :=
  fun _ => respects_predefine ns stx

section

variable {expand : ExpandContext → Syntax → RunM Syntax}

theorem harmless_expandEach (hexpand : ∀ context stx, Harmless guard (expand context stx))
    (context : ExpandContext) (stxs : List Syntax) :
    Harmless guard (expandEach expand context stxs) := by
  induction stxs with
  | nil => exact .pure _
  | cons stx rest ih => exact (hexpand context stx).bind fun _ => ih.bind fun _ => .pure _

theorem harmless_expandFields (hexpand : ∀ context stx, Harmless guard (expand context stx))
    (fields : List (String × Syntax)) : Harmless guard (expandFields expand fields) := by
  induction fields with
  | nil => exact .pure _
  | cons field rest ih => exact (hexpand .expression field.2).bind fun _ => ih.bind fun _ => .pure _

theorem harmless_lambda (hexpand : ∀ context stx, Harmless guard (expand context stx))
    (form : Syntax) (parts : List Syntax) :
    Harmless guard (Expansion.lambda expand form parts) := by
  unfold Expansion.lambda
  split
  · refine (harmless_expectBody form _ 2).bind fun _ => ?_
    split
    · exact .fail _
    · refine (harmless_newRib _).bind fun rib => ?_
      exact (harmless_expandEach hexpand _ _).bind fun _ => .pure _
  · exact .fail _

theorem harmless_namedLet (hexpand : ∀ context stx, Harmless guard (expand context stx))
    (form : Syntax) (parts : List Syntax) : Harmless guard (namedLet expand form parts) := by
  unfold namedLet
  split
  · refine (harmless_expectBody form _ 3).bind fun _ => ?_
    refine (harmless_bindingClauses _).bind fun pairs => ?_
    refine (harmless_kernelIdentifier "lambda" form).bind fun lambdaHead => ?_
    refine (harmless_kernelIdentifier "letrec" form).bind fun letrecHead => ?_
    exact hexpand .expression _
  · exact .fail _

theorem harmless_letForm (hexpand : ∀ context stx, Harmless guard (expand context stx))
    (form : Syntax) (parts : List Syntax) : Harmless guard (letForm expand form parts) := by
  unfold letForm
  split
  · split
    · exact harmless_namedLet hexpand form _
    · refine (harmless_expectBody form _ 2).bind fun _ => ?_
      refine (harmless_bindingClauses _).bind fun pairs => ?_
      refine (harmless_expandEach hexpand _ _).bind fun inits => ?_
      refine (harmless_newRib _).bind fun rib => ?_
      exact (harmless_expandEach hexpand _ _).bind fun _ => .pure _
  · exact .fail _

theorem harmless_letrec (hexpand : ∀ context stx, Harmless guard (expand context stx))
    (form : Syntax) (parts : List Syntax) : Harmless guard (letrec expand form parts) := by
  unfold letrec
  split
  · refine (harmless_expectBody form _ 2).bind fun _ => ?_
    refine (harmless_bindingClauses _).bind fun pairs => ?_
    refine (harmless_newRib _).bind fun rib => ?_
    refine (harmless_expandEach hexpand _ _).bind fun inits => ?_
    exact (harmless_expandEach hexpand _ _).bind fun _ => .pure _
  · exact .fail _

theorem harmless_parameterClauses (hexpand : ∀ context stx, Harmless guard (expand context stx))
    (items : List Syntax) : Harmless guard (parameterClauses expand items) := by
  induction items with
  | nil => exact .pure _
  | cons clause rest ih =>
      rw [parameterClauses]
      split
      · refine (hexpand .expression _).bind fun parameter => ?_
        exact (hexpand .expression _).bind fun value => ih.bind fun _ => .pure _
      · exact .fail _

theorem harmless_parameterize (hexpand : ∀ context stx, Harmless guard (expand context stx))
    (form : Syntax) (parts : List Syntax) : Harmless guard (parameterize expand form parts) := by
  unfold parameterize
  split
  · refine (harmless_expectBody form _ 2).bind fun _ => ?_
    split
    · exact .fail _
    · refine (harmless_parameterClauses hexpand _).bind fun items => ?_
      exact (harmless_expandEach hexpand _ _).bind fun _ => .pure _
  · exact .fail _

theorem harmless_procedureParts (form signature : Syntax) (body : List Syntax) :
    Harmless guard (procedureParts form signature body) := by
  unfold procedureParts
  split
  · split
    · exact .fail _
    · exact .check ((harmless_kernelIdentifier "lambda" form).bind fun _ => .pure _)
  · exact .fail _

theorem harmless_definitionParts (form : Syntax) (parts : List Syntax) :
    Harmless guard (definitionParts form parts) := by
  unfold definitionParts
  split
  · split
    · exact .pure _
    · exact harmless_procedureParts form _ _
  · split
    · exact .pure _
    · exact harmless_procedureParts form _ _
  · exact harmless_procedureParts form _ _
  · exact .fail _

theorem harmless_predefineForm (ns : NamespaceId) (form : Syntax) :
    Harmless guard (predefineForm ns form) :=
  (harmless_definitionParts form _).bind fun _ =>
    .check ((harmless_predefine ns _).bind fun _ => .pure _)

theorem harmless_define (hexpand : ∀ context stx, Harmless guard (expand context stx))
    (ns : NamespaceId) (form : Syntax) (context : ExpandContext) :
    Harmless guard (define expand ns form context) := by
  refine (harmless_expectDefinitions form context _).bind fun _ => ?_
  split
  on_goal 1 => refine (Harmless.pure form).bind fun normal => ?_
  on_goal 2 => refine (harmless_predefineForm ns form).bind fun normal => ?_
  -- Both ways, what is left to do is the expansion of the value.
  all_goals
    dsimp only
    split
    · exact (hexpand .expression _).bind fun _ => .pure _
    · exact .fail _

/-- One case for each core form. -/
theorem harmless_core (hexpand : ∀ context stx, Harmless guard (expand context stx))
    {loader : Loader} (hloader : loader.Obedient guard) (ns : NamespaceId) (f : CoreForm)
    (form : Syntax) (parts : List Syntax) (context : ExpandContext) :
    Harmless guard (core expand loader ns f form parts context) := by
  cases f with
  | quote | quoteSyntax => exact (harmless_expectCount form parts 2 _).bind fun _ => .pure _
  | ifForm =>
      refine (harmless_expectCount form parts 4 _).bind fun _ => ?_
      exact (harmless_expandEach hexpand _ _).bind fun _ => .pure _
  | begin => exact (harmless_expandEach hexpand _ _).bind fun _ => .pure _
  | lambda => exact harmless_lambda hexpand form parts
  | letForm => exact harmless_letForm hexpand form parts
  | letrec => exact harmless_letrec hexpand form parts
  | set =>
      refine (harmless_expectCount form parts 3 _).bind fun _ => ?_
      split
      · exact .check ((hexpand .expression _).bind fun _ => .pure _)
      · exact .fail _
  | define => exact harmless_define hexpand ns form context
  | defineSyntax =>
      refine (harmless_expectDefinitions form context _).bind fun _ => ?_
      refine (harmless_expectCount form parts 3 _).bind fun _ => ?_
      split
      · exact (harmless_predefine ns _).bind fun _ => (hexpand .expression _).bind fun _ => .pure _
      · exact .fail _
  | parameterize => exact harmless_parameterize hexpand form parts
  | moduleForm => exact .check (harmless_declareForm hloader form parts)
  | require =>
      refine (harmless_expectDefinitions form context _).bind fun _ => ?_
      refine Harmless.bind (fun _ => respects_runEach fun spec _ => ?_) fun _ => .pure _
      exact harmless_requireSpec hloader ns spec
  | provide =>
      refine .check (Harmless.bind (fun _ => respects_runEach fun spec _ => ?_) fun _ => .pure _)
      exact harmless_provideSpec ns spec

end

/-! ## Full expansion -/

section

variable {expand : Nat → ExpandContext → Syntax → RunM Syntax}

theorem harmless_expandPlain
    (hexpand : ∀ depth context stx, Harmless guard (expand depth context stx))
    (depth : Nat) (form : Syntax) : Harmless guard (expandPlain expand depth form) := by
  unfold expandPlain
  split
  · refine .get_bind fun w => ?_
    split
    · exact .fail _
    · exact .fail _
    · exact .pure _
  · exact .pure _
  · exact (harmless_expandEach (hexpand depth) _ _).bind fun _ => .pure _
  · exact (harmless_expandFields (hexpand depth) _).bind fun _ => .pure _

/-- A sexp, by induction on the number of transformers that may be run at its head. -/
theorem harmless_expandSexp
    (hexpand : ∀ depth context stx, Harmless guard (expand depth context stx))
    {loader : Loader} (hloader : loader.Obedient guard) (ns : NamespaceId) (fuel depth : Nat)
    (context : ExpandContext) (form : Syntax) :
    Harmless guard (expandSexp ns expand loader fuel depth context form) := by
  induction fuel generalizing depth form with
  | zero => exact .exhausted
  | succ fuel ih =>
      rw [expandSexp]
      split
      · exact .fail _
      · refine fun w => .getSpaces_bind fun hw => ?_
        split
        · rename_i hhead
          refine (harmless_descend depth form).bind (fun depth => ?_) w
          refine (harmless_invoke (hw.transformer hhead) _ _ _ form).bind fun form => ?_
          split
          · exact ih depth form
          · exact harmless_expandPlain hexpand depth form
        · exact harmless_core (hexpand depth) hloader ns _ form _ context w
        · exact (harmless_expandEach (hexpand depth) _ _).bind (fun _ => .pure _) w

end

theorem harmless_expand {loader : Loader} (hloader : loader.Obedient guard) (ns : NamespaceId)
    (fuel depth : Nat) (context : ExpandContext) (form : Syntax) :
    Harmless guard (expand loader ns fuel depth context form) := by
  induction fuel generalizing depth context form with
  | zero => exact .exhausted
  | succ fuel ih =>
      refine (harmless_descend depth form).bind fun depth => .mapError ?_
      split
      · exact harmless_expandSexp ih hloader ns fuel depth context form
      · exact harmless_expandPlain ih depth form

end HygienicLisp
