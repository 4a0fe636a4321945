import HygienicLisp.Proofs.Nesting.Indifference
import HygienicLisp.Proofs.Nesting.Places

/-!
# Comparing expansions under different rules

Expansions that follow different rules do the same but where the rules come in.  `Comparison` says
what a statement about such runs needs to be carried through expansion: it holds of what does not
depend on the limit, and of a sequence if it holds of the parts.  The walk through the core forms and
through the passes over a module body is then made once (`Comparison.core`, `Comparison.evalForm`,
`Comparison.declareModule`).
-/

namespace HygienicLisp

/-- A statement about runs, one for each index, with what their results satisfy. -/
structure Comparison (ι : Type) where
  Holds : {α : Type} → (α → Prop) → (ι → RunM α) → Prop
  pure : ∀ {α : Type} {S : α → Prop} {a : α}, S a → Holds S fun _ => pure a
  basic : ∀ {α : Type} {x : RunM α}, Basic x → Holds (fun _ => True) fun _ => x
  bind : ∀ {α β : Type} {S : α → Prop} {S' : β → Prop} {x : ι → RunM α} {f : ι → α → RunM β},
    Holds S x → (∀ a, S a → Holds S' fun i => f i a) → Holds S' fun i => x i >>= f i
  get_bind : ∀ {β : Type} {S : β → Prop} {f : ι → World → RunM β},
    (∀ i w limit, f i (w.withLimit limit) = f i w) → (∀ w, Holds S fun i => f i w) →
      Holds S fun i => get >>= f i
  mapError : ∀ {α : Type} {S : α → Prop} {x : ι → RunM α} {f : Error → Error},
    (∀ e, (f e).fault = e.fault) → Holds S x → Holds S fun i => RunM.mapError f (x i)
  andThen : ∀ {α : Type} {S : α → Prop} {x : ι → RunM α} {leave : World → World},
    (∀ w limit, leave (w.withLimit limit) = (leave w).withLimit limit) → Holds S x →
      Holds S fun i => (x i).andThen leave

namespace Comparison

variable {ι : Type} {α β : Type} (C : Comparison ι)

/-- The statement holds of the runs, whatever their results are. -/
def Agrees (x : ι → RunM α) : Prop := C.Holds (fun _ => True) x

variable {C}

theorem Agrees.basic {x : RunM α} (h : Basic x) : C.Agrees fun _ => x := C.basic h

theorem Agrees.bind {x : ι → RunM α} {f : ι → α → RunM β} (hx : C.Agrees x)
    (hf : ∀ a, C.Agrees fun i => f i a) : C.Agrees fun i => x i >>= f i :=
  C.bind hx fun a _ => hf a

theorem Agrees.pure (a : α) : C.Agrees fun _ => (Pure.pure a : RunM α) := C.pure trivial

/-- `bind` where the runs begin with the same basic computation. -/
theorem Agrees.after {x : RunM α} (hx : Basic x) {f : ι → α → RunM β}
    (hf : ∀ a, C.Agrees fun i => f i a) : C.Agrees fun i => x >>= f i :=
  (Agrees.basic hx).bind hf

theorem Agrees.get_bind {f : ι → World → RunM β}
    (h : ∀ i w limit, f i (w.withLimit limit) = f i w) (hf : ∀ w, C.Agrees fun i => f i w) :
    C.Agrees fun i => get >>= f i :=
  C.get_bind h hf

theorem Agrees.andThen {x : ι → RunM α} {leave : World → World} (hx : C.Agrees x)
    (h : ∀ w limit, leave (w.withLimit limit) = (leave w).withLimit limit) :
    C.Agrees fun i => (x i).andThen leave :=
  C.andThen h hx

theorem Agrees.ite {c : Prop} [Decidable c] {x y : ι → RunM α} (hx : C.Agrees x)
    (hy : C.Agrees y) : C.Agrees fun i => if c then x i else y i := by
  split
  · exact hx
  · exact hy

theorem Agrees.inContext {x : ι → RunM α} (hx : C.Agrees x) (stx : Syntax) :
    C.Agrees fun i => RunM.inContext stx (x i) :=
  C.mapError (fun _ => rfl) hx

theorem Agrees.runEach {f : ι → α → RunM Unit} (hf : ∀ a, C.Agrees fun i => f i a)
    (items : List α) : C.Agrees fun i => runEach (f i) items := by
  induction items with
  | nil => exact .pure ()
  | cons a rest ih => exact (hf a).bind fun _ => ih

/-! ## Core forms -/

section

open Expansion

variable {expand : ι → ExpandContext → Syntax → RunM Syntax}
  (hexpand : ∀ context stx, C.Agrees fun i => expand i context stx)
include hexpand

theorem expandEach (context : ExpandContext) (forms : List Syntax) :
    C.Agrees fun i => expandEach (expand i) context forms := by
  induction forms with
  | nil => exact .pure _
  | cons stx rest ih => exact (hexpand context stx).bind fun _ => ih.bind fun _ => .pure _

theorem expandFields (fields : List (String × Syntax)) :
    C.Agrees fun i => expandFields (expand i) fields := by
  induction fields with
  | nil => exact .pure _
  | cons field rest ih =>
      exact (hexpand .expression field.2).bind fun _ => ih.bind fun _ => .pure _

theorem lambda (form : Syntax) (parts : List Syntax) :
    C.Agrees fun i => Expansion.lambda (expand i) form parts := by
  unfold Expansion.lambda
  split
  · refine .after (.expectBody _ _ _) fun _ => ?_
    split
    · exact .basic (.failAt _ _)
    · refine .after (.newRib _) fun rib => ?_
      exact (expandEach hexpand _ _).bind fun _ => .pure _
  · exact .basic (.failAt _ _)

theorem namedLet (form : Syntax) (parts : List Syntax) :
    C.Agrees fun i => namedLet (expand i) form parts := by
  unfold Expansion.namedLet
  split
  · refine .after (.expectBody _ _ _) fun _ => .after (.bindingClauses _) fun pairs => ?_
    refine .after (.kernelIdentifier _ _) fun lambdaHead => ?_
    exact .after (.kernelIdentifier _ _) fun letrecHead => hexpand .expression _
  · exact .basic (.failAt _ _)

theorem letForm (form : Syntax) (parts : List Syntax) :
    C.Agrees fun i => letForm (expand i) form parts := by
  unfold Expansion.letForm
  split
  · refine .ite (namedLet hexpand form _) ?_
    refine .after (.expectBody _ _ _) fun _ => .after (.bindingClauses _) fun pairs => ?_
    refine (expandEach hexpand _ _).bind fun inits => .after (.newRib _) fun rib => ?_
    exact (expandEach hexpand _ _).bind fun _ => .pure _
  · exact .basic (.failAt _ _)

theorem letrec (form : Syntax) (parts : List Syntax) :
    C.Agrees fun i => letrec (expand i) form parts := by
  unfold Expansion.letrec
  split
  · refine .after (.expectBody _ _ _) fun _ => .after (.bindingClauses _) fun pairs => ?_
    refine .after (.newRib _) fun rib => (expandEach hexpand _ _).bind fun inits => ?_
    exact (expandEach hexpand _ _).bind fun _ => .pure _
  · exact .basic (.failAt _ _)

theorem parameterClauses (items : List Syntax) :
    C.Agrees fun i => parameterClauses (expand i) items := by
  induction items with
  | nil => exact .pure _
  | cons clause rest ih =>
      simp only [Expansion.parameterClauses]
      split
      · refine (hexpand .expression _).bind fun parameter => ?_
        exact (hexpand .expression _).bind fun value => ih.bind fun _ => .pure _
      · exact .basic (.failAt _ _)

theorem parameterize (form : Syntax) (parts : List Syntax) :
    C.Agrees fun i => parameterize (expand i) form parts := by
  unfold Expansion.parameterize
  split
  · refine .after (.expectBody _ _ _) fun _ => ?_
    split
    · exact .basic (.failAt _ _)
    · refine (parameterClauses hexpand _).bind fun items => ?_
      exact (expandEach hexpand _ _).bind fun _ => .pure _
  · exact .basic (.failAt _ _)

theorem define (ns : NamespaceId) (form : Syntax) (context : ExpandContext) :
    C.Agrees fun i => define (expand i) ns form context := by
  refine .after (.expectDefinitions _ _ _) fun _ => .ite (.after (.pure form) fun normal => ?_)
    (.after (.predefineForm ns form) fun normal => ?_)
  all_goals
    dsimp only
    split
    · exact (hexpand .expression _).bind fun _ => .pure _
    · exact .basic (.failAt _ _)

theorem expandPlain (depth : Nat) (form : Syntax) :
    C.Agrees fun i => expandPlain (fun _ => expand i) depth form := by
  unfold Expansion.expandPlain
  split
  · refine .basic (.get_bind (fun _ _ => rfl) fun w => ?_)
    split
    · exact .failAt _ _
    · exact .failAt _ _
    · exact .pure _
  · exact .pure _
  · exact (expandEach hexpand _ _).bind fun _ => .pure _
  · exact (expandFields hexpand _).bind fun _ => .pure _

end

theorem whileLoading (id : ModuleId) {x : ι → RunM α} (hx : C.Agrees x) :
    C.Agrees fun i => whileLoading id (x i) := by
  refine Agrees.get_bind (fun _ _ _ => rfl) fun w => ?_
  refine Agrees.after (.ofExcept _) fun loading => .after (.modify fun _ _ => rfl) fun _ => ?_
  exact hx.andThen fun _ _ => rfl

section

open Expansion

variable {loader : ι → Loader}

theorem declareForm
    (hdeclare : ∀ id body, C.Agrees fun i => (loader i).declare id body) (form : Syntax)
    (parts : List Syntax) : C.Agrees fun i => declareForm (loader i) form parts := by
  unfold Expansion.declareForm
  split
  · exact .basic (.failAt _ _)
  · refine .after (.resolveModule _ _) fun id => ?_
    have hrecord : C.Agrees fun i => HygienicLisp.whileLoading id (do
        let declaration ← (loader i).declare id (Syntax.stripAll (parts.drop 2))
        updateRegistry fun r => r.declare declaration) :=
      whileLoading id ((hdeclare id _).bind fun _ => .basic (.updateRegistry _))
    exact hrecord.bind fun _ => .pure _

variable (hinstantiate : ∀ id, C.Agrees fun i => (loader i).instantiate id)
include hinstantiate

theorem requiredInstance (ns : NamespaceId) (spec : Syntax) :
    C.Agrees fun i => requiredInstance (loader i) ns spec := by
  refine .after (.modulePath _) fun path => .after .getSpaces fun spaces => ?_
  exact ((Agrees.basic (.resolveModule _ _)).inContext spec).bind fun id =>
    (hinstantiate id).inContext spec

theorem requireSpec (ns : NamespaceId) (spec : Syntax) :
    C.Agrees fun i => requireSpec (loader i) ns spec := by
  have hfound {found : Instance → RunM Unit} (hbasic : ∀ i, Basic (found i)) (path : Syntax) :
      C.Agrees fun i => Expansion.requiredInstance (loader i) ns path >>= found :=
    (requiredInstance hinstantiate ns path).bind fun i => .basic (hbasic i)
  unfold Expansion.requireSpec
  split
  · exact hfound (fun i => .requireAll _ _ _ _) spec
  · refine .ite (hfound (fun i => .requireOnly _ _ _) _) ?_
    exact .ite (hfound (fun i => .requireRenamed _ _ _) _) (.basic (.failAt _ _))
  · exact .basic (.failAt _ _)

/-- One case for each core form. -/
theorem core (hdeclare : ∀ id body, C.Agrees fun i => (loader i).declare id body)
    {expand : ι → ExpandContext → Syntax → RunM Syntax}
    (hexpand : ∀ context stx, C.Agrees fun i => expand i context stx) (ns : NamespaceId)
    (f : CoreForm) (form : Syntax) (parts : List Syntax) (context : ExpandContext) :
    C.Agrees fun i => core (expand i) (loader i) ns f form parts context := by
  cases f with
  | quote | quoteSyntax => exact .after (.expectCount _ _ _ _) fun _ => .pure _
  | ifForm =>
      refine .after (.expectCount _ _ _ _) fun _ => ?_
      exact (expandEach hexpand _ _).bind fun _ => .pure _
  | begin => exact (expandEach hexpand _ _).bind fun _ => .pure _
  | lambda => exact lambda hexpand form parts
  | letForm => exact letForm hexpand form parts
  | letrec => exact letrec hexpand form parts
  | set =>
      refine .after (.expectCount _ _ _ _) fun _ => ?_
      split
      · have hvalue (head id value : Syntax) : C.Agrees fun i => (do
            let value ← expand i .expression value
            return form.rebuildSexp [head, id, value]) :=
          (hexpand .expression value).bind fun _ => .pure _
        exact .ite (.after (.failAt _ _) fun _ => hvalue _ _ _) (hvalue _ _ _)
      · exact .basic (.failAt _ _)
  | define => exact define hexpand ns form context
  | defineSyntax =>
      refine .after (.expectDefinitions _ _ _) fun _ => .after (.expectCount _ _ _ _) fun _ => ?_
      split
      · refine .after (.predefine _ _) fun _ => ?_
        exact (hexpand .expression _).bind fun _ => .pure _
      · exact .basic (.failAt _ _)
  | parameterize => exact parameterize hexpand form parts
  | moduleForm =>
      refine .ite (.after (.failAt _ _) fun _ => ?_) ?_
      all_goals exact declareForm hdeclare form parts
  | require =>
      refine .after (.expectDefinitions _ _ _) fun _ => ?_
      exact (Agrees.runEach (requireSpec hinstantiate ns) _).bind fun _ => .pure _
  | provide =>
      refine .ite (.after (.failAt _ _) fun _ => ?_) ?_
      all_goals exact .after (.runEach (fun _ => .provideSpec _ _) _) fun _ => .pure _

end

/-! ## Expansion -/

/-- What a statement about runs under the rules needs: it holds of all that does not depend on the
limit, and where the rules come in; from places with the property they lead to such places. -/
structure Governs (C : Comparison ι) (rules : ι → Rules) (P : Place → Prop) : Prop where
  start : P {}
  release : ∀ place, P place → P place.release
  down : ∀ descent place form, P place →
    C.Holds P fun i => Tracked.down (rules i) descent place form
  call : ∀ fuel id procedureId p form,
    C.Agrees fun i => (rules i).call fuel id procedureId p form
  indifferent : ∀ {α : Type} {x : RunM α}, Indifferent x → C.Agrees fun _ => x

/-- The statement holds of the loading of modules. -/
structure Loads (C : Comparison ι) (P : Place → Prop) (loader : ι → PlacedLoader) : Prop where
  instantiate : ∀ id, C.Agrees fun i => (loader i).instantiate id
  declare : ∀ place id body, P place → C.Agrees fun i => (loader i).declare place id body

section

variable {rules : ι → Rules} {P : Place → Prop} {place : Place} {loader : ι → PlacedLoader}

theorem Governs.exhausted (h : C.Governs rules P) (S : α → Prop) :
    C.Holds S fun _ => (RunM.exhausted : RunM α) :=
  C.bind (f := fun _ => Empty.elim) (h.indifferent .exhausted) fun a _ => a.elim

theorem Governs.released {queue : List (Place × Syntax)} (h : C.Governs rules P)
    (hqueue : ∀ item ∈ queue, P item.1) (hplace : P place) (forms : List Syntax) :
    ∀ item ∈ forms.map (place.release, ·) ++ queue, P item.1 :=
  List.forall_mem_append.2 ⟨List.forall_mem_map.2 fun _ _ => h.release place hplace, hqueue⟩

theorem partialExpand (h : C.Governs rules P) (fuel : Nat) (hplace : P place) (form : Syntax) :
    C.Holds (fun found => P found.2) fun i => Tracked.partialExpand (rules i) fuel place form := by
  induction fuel generalizing place form with
  | zero => exact h.exhausted _
  | succ fuel ih =>
      simp only [Tracked.partialExpand]
      cases form.subforms with
      | nil => exact C.pure hplace
      | cons head rest =>
          refine C.bind (C.basic .getSpaces) fun spaces _ => ?_
          cases headValue? spaces head with
          | none => exact C.pure hplace
          | some v =>
              cases v with
              | transformer id procedureId p =>
                  refine C.bind (h.down .invocation place form hplace) fun place hplace => ?_
                  exact C.bind (h.call fuel id procedureId p form) fun form _ => ih hplace form
              | form f => cases f <;> exact C.pure hplace
              | _ => exact C.pure hplace

variable (h : C.Governs rules P) (hloader : C.Loads P loader)
include h hloader

theorem expandSexp {ns : NamespaceId} {expand : ι → Place → ExpandContext → Syntax → RunM Syntax}
    (hexpand : ∀ place, P place → ∀ context stx, C.Agrees fun i => expand i place context stx)
    (fuel : Nat) (hplace : P place) (context : ExpandContext) (form : Syntax) :
    C.Agrees fun i =>
      Tracked.expandSexp (rules i) ns (expand i) (loader i) fuel place context form := by
  induction fuel generalizing place form with
  | zero => exact h.exhausted _
  | succ fuel ih =>
      simp only [Tracked.expandSexp]
      cases form.subforms with
      | nil => exact .basic (.failAt _ _)
      | cons head rest =>
          refine .after .getSpaces fun spaces => ?_
          cases headValue? spaces head with
          | none => exact (expandEach (hexpand place hplace) _ _).bind fun _ => .pure _
          | some v =>
              cases v with
              | transformer id procedureId p =>
                  refine C.bind (h.down .invocation place form hplace) fun place hplace => ?_
                  refine (h.call fuel id procedureId p form).bind fun form => ?_
                  exact .ite (ih hplace form) (expandPlain (hexpand place hplace) place.depth form)
              | form f =>
                  exact core hloader.instantiate (fun id body => hloader.declare place id body hplace)
                    (hexpand place hplace) ns f form _ context
              | _ => exact (expandEach (hexpand place hplace) _ _).bind fun _ => .pure _

theorem expand (ns : NamespaceId) (fuel : Nat) : ∀ place, P place → ∀ context form,
    C.Agrees fun i => Tracked.expand (rules i) (loader i) ns fuel place context form := by
  induction fuel with
  | zero => exact fun _ _ _ _ => h.exhausted _
  | succ fuel ih =>
      intro place hplace context form
      refine C.bind (h.down .expansion place form hplace) fun place hplace => ?_
      refine Agrees.inContext (.ite ?_ ?_) form
      · exact expandSexp h hloader ih fuel hplace context form
      · exact expandPlain (ih place hplace) place.depth form

theorem runForm (ns : NamespaceId) (fuel : Nat) (context : ExpandContext) (hplace : P place)
    (form : Syntax) :
    C.Agrees fun i => Tracked.runForm (rules i) (loader i) fuel ns context place form := by
  refine (expand h hloader ns fuel place hplace context form).bind fun expanded => ?_
  exact (h.indifferent (.compile ns expanded)).bind fun code => h.indifferent (.eval fuel code _)

theorem firstPass (ns : NamespaceId) (fuel : Nat) (queue : List (Place × Syntax))
    (hqueue : ∀ item ∈ queue, P item.1) :
    C.Holds (fun pending => ∀ item ∈ pending, P item.1) fun i =>
      Tracked.firstPass (rules i) (loader i) ns fuel queue := by
  induction fuel generalizing queue with
  | zero => exact h.exhausted _
  | succ fuel ih =>
      cases queue with
      | nil => exact C.pure (by simp)
      | cons item queue =>
          obtain ⟨place, form⟩ := item
          obtain ⟨hplace, hqueue⟩ := List.forall_mem_cons.1 hqueue
          have hleft (form : Syntax) (place : Place) (hplace : P place) :
              C.Holds (fun pending => ∀ item ∈ pending, P item.1) fun i => (do
                let rest ← Tracked.firstPass (rules i) (loader i) ns fuel queue
                return (place.release, form) :: rest) :=
            C.bind (ih queue hqueue) fun rest hrest =>
              C.pure (List.forall_mem_cons.2 ⟨h.release place hplace, hrest⟩)
          refine C.bind (partialExpand h fuel hplace form) fun found hplace => ?_
          obtain ⟨part, place⟩ := found
          cases part with
          | splice forms => exact ih _ (h.released hqueue hplace forms)
          | form form core =>
              cases core with
              | none => exact hleft form place hplace
              | some f =>
                  cases f with
                  | define =>
                      exact C.bind (C.basic (.predefineForm ns form)) fun form _ =>
                        hleft form place hplace
                  | defineSyntax =>
                      exact C.bind (runForm h hloader ns fuel .moduleBody
                        (h.release place hplace) form) fun _ _ => ih queue hqueue
                  | require =>
                      exact C.bind (expand h hloader ns fuel _ (h.release place hplace)
                        .moduleBody form) fun _ _ => ih queue hqueue
                  | _ => exact hleft form place hplace

theorem secondPass (ns : NamespaceId) (fuel : Nat) (pending : List (Place × Syntax))
    (hpending : ∀ item ∈ pending, P item.1) :
    C.Agrees fun i => Tracked.secondPass (rules i) (loader i) ns fuel pending := by
  induction pending with
  | nil => exact .pure _
  | cons item rest ih =>
      obtain ⟨hplace, hrest⟩ := List.forall_mem_cons.1 hpending
      refine (expand h hloader ns fuel _ hplace .moduleBody item.2).bind fun expanded => ?_
      exact (h.indifferent (.compile ns expanded)).bind fun _ => (ih hrest).bind fun _ => .pure _

theorem declareModule (fuel : Nat) (hplace : P place) (id : ModuleId) (body : List Syntax) :
    C.Agrees fun i => Tracked.declareModule (rules i) (loader i) fuel place id body := by
  refine (h.indifferent (.newNamespace id .module)).bind fun ns => ?_
  refine .after (.requireKernel ns) fun _ => ?_
  -- The parameters and the list of what is provided are set aside, and put back at the end.
  refine Agrees.get_bind (fun _ _ _ => rfl) fun _ => Agrees.after (.modify fun _ _ => rfl) fun _ => ?_
  refine Agrees.andThen ?_ fun _ _ => rfl
  refine Agrees.get_bind (fun _ _ _ => rfl) fun _ => Agrees.after (.modify fun _ _ => rfl) fun _ => ?_
  refine Agrees.andThen ?_ fun _ _ => rfl
  refine C.bind (firstPass h hloader ns fuel _ (List.forall_mem_map.2 fun _ _ => hplace))
    fun pending hpending => ?_
  refine (secondPass h hloader ns fuel pending hpending).bind fun codes => ?_
  exact Agrees.get_bind (fun _ _ _ => rfl) fun _ => .pure _

theorem loadDeclaration (fuel : Nat) (id : ModuleId) :
    C.Agrees fun i => Tracked.loadDeclaration (rules i) (loader i) fuel id := by
  refine Agrees.get_bind (fun _ _ _ => rfl) fun w => ?_
  split
  · exact .basic (.fail _)
  · refine C.mapError (fun _ => rfl) ?_
    exact Agrees.after (.ofExcept _) fun body => declareModule h hloader fuel h.start id body

theorem evalQueue (ns : NamespaceId) (fuel : Nat) (result : Value) (queue : List (Place × Syntax))
    (hqueue : ∀ item ∈ queue, P item.1) :
    C.Agrees fun i => Tracked.evalQueue (rules i) (loader i) ns fuel result queue := by
  induction fuel generalizing result queue with
  | zero => exact h.exhausted _
  | succ fuel ih =>
      cases queue with
      | nil => exact .pure _
      | cons item queue =>
          obtain ⟨place, form⟩ := item
          obtain ⟨hplace, hqueue⟩ := List.forall_mem_cons.1 hqueue
          refine C.bind (partialExpand h fuel hplace form) fun found hplace => ?_
          obtain ⟨part, place⟩ := found
          cases part with
          | splice forms => exact ih result _ (h.released hqueue hplace forms)
          | form form core =>
              refine (runForm h hloader ns fuel .topLevel (h.release place hplace) form).bind ?_
              exact fun v => ih v queue hqueue

end

theorem instantiateWith (id : ModuleId) {load : ι → RunM Declaration}
    {run : Declaration → RunM Unit} (hload : C.Agrees load) (hrun : ∀ d, C.Agrees fun _ => run d) :
    C.Agrees fun i => instantiateWith id (load i) run := by
  refine Agrees.get_bind (fun _ _ _ => rfl) fun w => ?_
  split
  · exact .pure _
  · refine whileLoading id ?_
    have hdeclaration : C.Agrees fun i => declarationOf id (load i) := by
      refine Agrees.get_bind (fun _ _ _ => rfl) fun w => ?_
      split
      · exact .pure _
      · refine Agrees.after (.modify fun _ _ => rfl) fun _ => hload.bind fun d => ?_
        exact .after (.updateRegistry _) fun _ => .pure _
    refine hdeclaration.bind fun d => .after (.modify fun _ _ => rfl) fun _ => ?_
    exact (hrun d).bind fun _ => .after (.modify fun _ _ => rfl) fun _ => .pure _

variable {rules : ι → Rules} {P : Place → Prop}

theorem loaderAt (h : C.Governs rules P) (fuel : Nat) :
    C.Loads P fun i => Tracked.loaderAt (rules i) fuel := by
  induction fuel with
  | zero => exact ⟨fun _ => h.exhausted _, fun _ _ _ _ => h.exhausted _⟩
  | succ fuel ih =>
      refine ⟨fun id => ?_, fun place id body hplace => ?_⟩
      · exact instantiateWith id (loadDeclaration h ih fuel id) fun d =>
          h.indifferent (.runBody fuel d)
      · exact declareModule h ih fuel (h.release place hplace) id body

/-- The statement holds of evaluations of a form in a session. -/
theorem evalForm (h : C.Governs rules P) (fuel : Nat) (ns : NamespaceId) (form : Syntax) :
    C.Agrees fun i => Tracked.evalForm (rules i) fuel ns form :=
  evalQueue h (loaderAt h fuel) ns fuel .void _ (List.forall_mem_singleton.2 h.start)

end Comparison

end HygienicLisp
