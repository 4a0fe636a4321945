import HygienicLisp.Proofs.Isolation.Modules
import HygienicLisp.Proofs.Reexports.Expressions

/-!
# Expansion by its parts

Expressions leave namespaces and modules as they are.  So what matters, when forms are expanded where
definitions are allowed, are the steps that define, import, provide or declare something.

A logic of computations says what holds of a computation and of its result, and is closed under
sequences (`RunM.Logic`).  If those steps keep to it (`RunM.Logic.Steps`), expansion does, and so do both
passes over the body of a module.

Main statements: `RunM.Logic.always_expand`, `RunM.Logic.always_firstPass` and
`RunM.Logic.always_secondPass`.
-/

namespace HygienicLisp

open Expansion

/-! ## Logics -/

/-- A way to say what holds of a computation, with its result, and of the worlds that it leads to. -/
structure RunM.Logic (guard : Guard) where
  later : World → World → Prop
  Holds : {α : Type} → (World → α → Prop) → RunM α → World → Prop
  bind : ∀ {α β : Type} {P : World → α → Prop} {Q : World → β → Prop} {x : RunM α}
    {f : α → RunM β} {w : World}, Holds P x w →
    (∀ a w', later w w' → P w' a → Holds Q (f a) w') → Holds Q (x >>= f) w
  getSpaces_bind : ∀ {β : Type} {Q : World → β → Prop} {f : Spaces → RunM β} {w : World},
    (w.Guarded guard → Holds Q (f w.spaces) w) → Holds Q (getSpaces >>= f) w
  mapError : ∀ {α : Type} {P : World → α → Prop} {f : Error → Error} {x : RunM α} {w : World},
    Holds P x w → Holds P (RunM.mapError f x) w
  of_tidy : ∀ {α : Type} {P : World → α → Prop} {x : RunM α} {w : World}, x.Tidy →
    Respects guard P x w → Holds P x w

namespace RunM.Logic

variable {guard : Guard} (L : RunM.Logic guard)

/-- The computation keeps to the logic from every world, whatever its result is. -/
def Always {α : Type} (x : RunM α) : Prop := ∀ w, L.Holds (fun _ _ => True) x w

section

variable {L} {α β : Type}

theorem Always.bind {x : RunM α} {f : α → RunM β} (hx : L.Always x) (hf : ∀ a, L.Always (f a)) :
    L.Always (x >>= f) :=
  fun w => L.bind (hx w) fun a w' _ _ => hf a w'

theorem Always.of_tidy {x : RunM α} (hx : x.Tidy) (h : Harmless guard x) : L.Always x :=
  fun w => L.of_tidy hx (h w)

theorem Always.pure (a : α) : L.Always (pure a : RunM α) := .of_tidy (.pure a) (.pure a)

theorem Always.fail (e : Error) : L.Always (RunM.fail e : RunM α) := .of_tidy (.fail e) (.fail e)

theorem Always.exhausted : L.Always (RunM.exhausted : RunM α) := .of_tidy .exhausted .exhausted

/-- A check before the rest. -/
theorem Always.check {c : Prop} {_ : Decidable c} {stx : Syntax} {fault : SyntaxFault} {x : RunM α}
    (hx : ¬c → L.Always x) :
    L.Always (if c then (RunM.failAt stx fault : RunM PUnit) >>= fun _ => x else x) := by
  split
  · exact .of_tidy .fail_bind fun _ => Respects.bind (P := fun _ _ => False) (.fail _)
      fun _ _ _ h => h.elim
  · rename_i hc
    exact hx hc

theorem Always.runEach {f : α → RunM Unit} (hf : ∀ a, L.Always (f a)) (items : List α) :
    L.Always (runEach f items) := by
  induction items with
  | nil => exact .pure ()
  | cons a rest ih => exact (hf a).bind fun _ => ih

theorem holds_ofExcept {P : World → α → Prop} {r : Except Error α} {w : World}
    (h : ∀ a, r = .ok a → P w a) : L.Holds P (RunM.ofExcept r) w :=
  L.of_tidy (.ofExcept r) (.ofExcept h)

end

/-! ## Imports -/

section

variable {L} {loader : Loader} {ns : NamespaceId} {offered : World → Instance → Prop}

/-- The instance that a specification names. -/
theorem holds_requiredInstance
    (hinstance : ∀ id w, L.Holds offered (loader.instantiate id) w) (ns : NamespaceId) (spec : Syntax)
    (w : World) : L.Holds offered (requiredInstance loader ns spec) w := by
  have hpath : (modulePath spec).Tidy := by
    unfold modulePath
    split
    · exact .pure _
    · exact .pure _
    · exact .fail _
  refine L.bind (L.of_tidy hpath (harmless_modulePath spec w)) fun path w₁ _ _ => ?_
  refine L.getSpaces_bind fun _ => ?_
  refine L.bind (L.mapError (L.of_tidy (tidy_resolveModule path _) (harmless_resolveModule path _ w₁)))
    fun id w₂ _ _ => ?_
  exact L.mapError (hinstance id w₂)

variable (offered) (hlater : ∀ w w' i, L.later w w' → offered w i → offered w' i)
  (hrequire : ∀ i p stx shadowable w, offered w i → p ∈ i.provided →
    L.Holds (fun _ _ => True) (require ns stx p shadowable) w)

include hlater hrequire

theorem holds_requireAll {identifier : Provided → Except Error Syntax} {shadowable : Bool}
    {i : Instance} (ps : List Provided) (hps : ∀ p ∈ ps, p ∈ i.provided) {w : World}
    (hi : offered w i) :
    L.Holds (fun _ _ => True) (requireAll ns identifier shadowable ps) w := by
  induction ps generalizing w with
  | nil => exact Always.pure () w
  | cons p rest ih =>
      obtain ⟨hp, hrest⟩ := List.forall_mem_cons.1 hps
      refine L.bind (P := fun _ _ => True) (holds_ofExcept fun _ _ => trivial)
        fun stx w₁ hlater₁ _ => ?_
      have hi₁ := hlater w w₁ i hlater₁ hi
      refine L.bind (hrequire i p stx shadowable w₁ hi₁ hp) fun _ w₂ hlater₂ _ => ?_
      exact ih hrest (hlater w₁ w₂ i hlater₂ hi₁)

/-- What an instance provides under one identifier is imported under another. -/
theorem holds_exported_require {i : Instance} (name stx : Syntax) {rest : RunM Unit}
    (hrest : ∀ w, offered w i → L.Holds (fun _ _ => True) rest w) {w : World} (hi : offered w i) :
    L.Holds (fun _ _ => True) (do
      let p ← RunM.ofExcept (exported i name)
      require ns stx p false
      rest) w := by
  refine L.bind (P := fun _ p => p ∈ i.provided) (holds_ofExcept fun p hp => exported_mem hp)
    fun p w₁ hlater₁ hp => ?_
  have hi₁ := hlater w w₁ i hlater₁ hi
  refine L.bind (hrequire i p stx false w₁ hi₁ hp) fun _ w₂ hlater₂ _ => ?_
  exact hrest w₂ (hlater w₁ w₂ i hlater₂ hi₁)

theorem holds_requireOnly {i : Instance} (names : List Syntax) {w : World} (hi : offered w i) :
    L.Holds (fun _ _ => True) (requireOnly ns i names) w := by
  induction names generalizing w with
  | nil => exact Always.pure () w
  | cons stx rest ih =>
      rw [requireOnly]
      split
      · exact L.bind (Always.fail _ w) fun _ w₁ hlater₁ _ =>
          holds_exported_require offered hlater hrequire stx stx (fun w hi => ih hi)
            (hlater w w₁ i hlater₁ hi)
      · exact holds_exported_require offered hlater hrequire stx stx (fun w hi => ih hi) hi

theorem holds_requireRenamed {i : Instance} (pairs : List Syntax) {w : World} (hi : offered w i) :
    L.Holds (fun _ _ => True) (requireRenamed ns i pairs) w := by
  induction pairs generalizing w with
  | nil => exact Always.pure () w
  | cons pair rest ih =>
      rw [requireRenamed]
      split
      · split
        · exact L.bind (Always.fail _ w) fun _ w₁ hlater₁ _ =>
            holds_exported_require offered hlater hrequire _ _ (fun w hi => ih hi)
              (hlater w w₁ i hlater₁ hi)
        · exact holds_exported_require offered hlater hrequire _ _ (fun w hi => ih hi) hi
      · exact Always.fail _ w

theorem always_requireSpec (hinstance : ∀ id w, L.Holds offered (loader.instantiate id) w)
    (spec : Syntax) : L.Always (requireSpec loader ns spec) := by
  intro w
  have hbring (path : Syntax) {f : Instance → RunM Unit}
      (hf : ∀ i w, offered w i → L.Holds (fun _ _ => True) (f i) w) :
      L.Holds (fun _ _ => True) (requiredInstance loader ns path >>= f) w :=
    L.bind (holds_requiredInstance hinstance ns path w) fun i w' _ hi => hf i w' hi
  unfold requireSpec
  split
  · exact hbring _ fun i w hi => holds_requireAll offered hlater hrequire i.provided (fun p hp => hp) hi
  · split
    · exact hbring _ fun i w hi => holds_requireOnly offered hlater hrequire _ hi
    · split
      · exact hbring _ fun i w hi => holds_requireRenamed offered hlater hrequire _ hi
      · exact Always.fail _ w
  · exact Always.fail _ w

end

/-! ## Expansion -/

/-- What matters of expansion keeps to the logic. -/
structure Steps (loader : Loader) (ns : NamespaceId) (context : ExpandContext) : Prop where
  predefine : ∀ stx, L.Always (predefine ns stx)
  require : ∀ spec, L.Always (requireSpec loader ns spec)
  provide : ∀ spec, L.Always (provideSpec ns spec)
  declare : context = .topLevel → ∀ form parts, L.Always (declareForm loader form parts)

section

variable {L} {loader : Loader} {ns : NamespaceId} {context : ExpandContext}
  (hobedient : loader.Obedient guard) (hsteps : L.Steps loader ns context)

include hsteps in
theorem always_predefineForm (form : Syntax) : L.Always (predefineForm ns form) := by
  refine Always.bind (.of_tidy (tidy_definitionParts form _) (harmless_definitionParts form _))
    fun parts => .check fun _ => ?_
  exact (hsteps.predefine _).bind fun _ => .pure _

theorem always_expectDefinitions (form : Syntax) (context : ExpandContext) (what : String) :
    L.Always (expectDefinitions form context what) := by
  rw [expectDefinitions]
  split
  · exact .pure ()
  · exact .fail _

section

variable {expand : ExpandContext → Syntax → RunM Syntax}

theorem always_expandEach (hexpand : ∀ stx, L.Always (expand context stx)) (stxs : List Syntax) :
    L.Always (expandEach expand context stxs) := by
  induction stxs with
  | nil => exact .pure _
  | cons stx rest ih => exact (hexpand stx).bind fun _ => ih.bind fun _ => .pure _

include hobedient hsteps in
/-- A core form where definitions are allowed.  Those that stand for expressions are expanded as
everywhere. -/
theorem always_core (hexpand : ∀ stx, L.Always (expand context stx))
    (htidy : ∀ stx, (expand .expression stx).Tidy)
    (hharmless : ∀ context stx, Harmless guard (expand context stx)) (f : CoreForm) (form : Syntax)
    (parts : List Syntax) : L.Always (core expand loader ns f form parts context) := by
  have hvalue (stx : Syntax) : L.Always (expand .expression stx) :=
    .of_tidy (htidy stx) (hharmless .expression stx)
  have hexpression (h : core expand loader ns f form parts context =
      core expand loader ns f form parts .expression) :
      L.Always (core expand loader ns f form parts context) := by
    rw [h]
    exact .of_tidy (tidy_core htidy loader ns f form parts)
      (harmless_core hharmless hobedient ns f form parts .expression)
  cases f with
  | quote | quoteSyntax | ifForm | lambda | letForm | letrec | set | parameterize =>
      exact hexpression rfl
  | begin => exact (always_expandEach hexpand _).bind fun _ => .pure _
  | define =>
      refine (always_expectDefinitions form context _).bind fun _ => ?_
      split
      on_goal 1 => refine (Always.pure form).bind fun normal => ?_
      on_goal 2 => refine (always_predefineForm hsteps form).bind fun normal => ?_
      -- Both ways, what is left to do is the expansion of the value.
      all_goals
        dsimp only
        split
        · exact (hvalue _).bind fun _ => .pure _
        · exact .fail _
  | defineSyntax =>
      refine (always_expectDefinitions form context _).bind fun _ => ?_
      refine Always.bind
        (.of_tidy (tidy_expectCount form parts 3 _) (harmless_expectCount form parts 3 _)) fun _ => ?_
      split
      · exact (hsteps.predefine _).bind fun _ => (hvalue _).bind fun _ => .pure _
      · exact .fail _
  | moduleForm => exact .check fun hcontext => hsteps.declare (not_not.1 hcontext) form parts
  | require =>
      refine (always_expectDefinitions form context _).bind fun _ => ?_
      exact (Always.runEach hsteps.require _).bind fun _ => .pure _
  | provide =>
      exact .check fun _ => (Always.runEach hsteps.provide _).bind fun _ => .pure _

end

include hobedient hsteps

theorem always_expand (fuel depth : Nat) (form : Syntax) :
    L.Always (expand loader ns fuel depth context form) := by
  induction fuel generalizing depth form with
  | zero => exact .exhausted
  | succ fuel ih =>
      have hharmless := harmless_expand hobedient ns fuel
      have hplain (depth : Nat) (form : Syntax) :
          L.Always (expandPlain (expand loader ns fuel) depth form) :=
        .of_tidy (tidy_expandPlain (tidy_expand loader ns fuel) depth form)
          (harmless_expandPlain hharmless depth form)
      -- The inner induction is on the number of transformers run at the head of the form.
      have hsexp (steps depth : Nat) (form : Syntax) :
          L.Always (expandSexp ns (expand loader ns fuel) loader steps depth context form) := by
        induction steps generalizing depth form with
        | zero => exact .exhausted
        | succ steps ihsteps =>
            rw [expandSexp]
            split
            · exact .fail _
            · refine fun w => L.getSpaces_bind fun hw => ?_
              split
              · rename_i hhead
                refine Always.bind (.of_tidy (tidy_descend depth form)
                  (harmless_descend depth form)) (fun depth => ?_) w
                refine Always.bind (.of_tidy (tidy_invoke _ _ _ _ form)
                  (harmless_invoke (hw.transformer hhead) _ _ _ form)) fun form => ?_
                split
                · exact ihsteps depth form
                · exact hplain depth form
              · exact always_core hobedient hsteps (ih depth) (tidy_expand loader ns fuel depth)
                  (hharmless depth) _ form _ w
              · refine Always.bind ?_ (fun _ => .pure _) w
                exact .of_tidy (tidy_expandEach (tidy_expand loader ns fuel depth) _)
                  (harmless_expandEach (hharmless depth) .expression _)
      refine Always.bind (.of_tidy (tidy_descend depth form) (harmless_descend depth form))
        fun depth => fun w => L.mapError ?_
      split
      · exact hsexp fuel depth form w
      · exact hplain depth form w

/-! ## The body of a module -/

variable (hns : guard.Outside ns)
include hns

omit hobedient hsteps in
theorem always_compile (stx : Syntax) : L.Always (compile ns stx) :=
  .of_tidy (tidy_compile ns stx) fun _ => (respects_compile_outside hns stx).mono fun _ _ _ => trivial

theorem always_runForm (fuel : Nat) (form : Syntax) :
    L.Always (runForm loader fuel ns context form) := by
  refine (always_expand hobedient hsteps fuel 0 form).bind fun expanded => ?_
  refine fun w => L.of_tidy ((tidy_compile ns expanded).bind fun code => ?_) ?_
  · exact .of_stays (eval_stays fuel code _)
  · refine (respects_compile_outside hns expanded).bind fun code w₁ _ hcode => ?_
    exact (respects_eval fuel code ⟨ns, none⟩ w₁ hcode).mono fun _ _ _ => trivial

end

section

variable {L} {loader : Loader} {ns : NamespaceId} (hobedient : loader.Obedient guard)
  (hsteps : L.Steps loader ns .moduleBody) (hns : guard.Outside ns)

include hobedient hsteps hns

theorem always_firstPass (fuel : Nat) (forms : List Syntax) :
    L.Always (firstPass loader ns fuel forms) := by
  induction fuel generalizing forms with
  | zero => exact .exhausted
  | succ fuel ih =>
      cases forms with
      | nil => exact .pure _
      | cons form queue =>
          refine Always.bind (.of_tidy (tidy_partialExpand fuel 0 form)
            (harmless_partialExpand fuel 0 form)) fun part => ?_
          split
          · exact ih _
          · exact (always_predefineForm hsteps _).bind fun _ => (ih queue).bind fun _ => .pure _
          · exact (always_runForm hobedient hsteps hns fuel _).bind fun _ => ih queue
          · exact (always_expand hobedient hsteps fuel 0 _).bind fun _ => ih queue
          · exact (ih queue).bind fun _ => .pure _

theorem always_secondPass (fuel : Nat) (forms : List Syntax) :
    L.Always (secondPass loader ns fuel forms) := by
  induction forms with
  | nil => exact .pure _
  | cons form rest ih =>
      refine (always_expand hobedient hsteps fuel 0 form).bind fun expanded => ?_
      exact (always_compile hns expanded).bind fun _ => ih.bind fun _ => .pure _

end

end RunM.Logic

end HygienicLisp
