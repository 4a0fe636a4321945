import HygienicLisp.Proofs.Evaluation.Fuel
import HygienicLisp.Proofs.Nesting.Comparison

/-!
# More steps keep a finished answer, in all that a session does

Expansion, the passes over a module body, the loading of modules and the queue of a session all
get a number of steps.  A run that has not used them up ends in the same way, with the same world,
whenever it may make more steps, and whenever the loader that it loads modules with may.

Main statements: `expand_mono`, `loaderAt_mono` and `evalInContext_mono`.
-/

namespace HygienicLisp

/-- Two computations compared by what they have finished, with what the results of the first
satisfy. -/
def Comparison.approximates : Comparison Bool where
  Holds S x := Approximates (x false) (x true) ∧ ∀ w a w', x false w = .ok a w' → S a
  pure ha := ⟨.refl _, fun _ _ _ hrun => by
    cases hrun
    exact ha⟩
  basic _ := ⟨.refl _, fun _ _ _ _ => trivial⟩
  bind hx hf := by
    refine ⟨hx.1.bind_of_ok fun w a w' hrun => (hf a (hx.2 w a w' hrun)).1, fun w b w' hrun => ?_⟩
    obtain ⟨a, w₁, ha, hb⟩ := RunM.bind_eq_ok.1 hrun
    exact (hf a (hx.2 w a w₁ ha)).2 w₁ b w' hb
  get_bind _ hf := ⟨fun w => (hf w).1 w, fun w a w' hrun => (hf w).2 w a w' hrun⟩
  mapError _ hx := ⟨hx.1.mapError _, fun w a w' hrun => hx.2 w a w' (RunM.mapError_eq_ok.1 hrun)⟩
  andThen _ hx := by
    refine ⟨hx.1.andThen _, fun w a w' hrun => ?_⟩
    obtain ⟨w₁, ha, -⟩ := RunM.andThen_eq_ok.1 hrun
    exact hx.2 w a w₁ ha

theorem Comparison.agrees_of_approximates {α : Type} {x : Bool → RunM α}
    (h : Approximates (x false) (x true)) : Comparison.approximates.Agrees x :=
  ⟨h, fun _ _ _ _ => trivial⟩

/-- What one loader finishes another finishes alike. -/
structure Loader.Approximates (loader loader' : Loader) : Prop where
  instantiate : ∀ id, HygienicLisp.Approximates (loader.instantiate id) (loader'.instantiate id)
  declare : ∀ id body, HygienicLisp.Approximates (loader.declare id body) (loader'.declare id body)

theorem Loader.Approximates.refl (loader : Loader) : loader.Approximates loader :=
  ⟨fun _ => .refl _, fun _ _ => .refl _⟩

/-! ## Expansion -/

section

variable {expand expand' : ExpandContext → Syntax → RunM Syntax}
  (hexpand : ∀ context stx, Approximates (expand context stx) (expand' context stx))
include hexpand

theorem agrees_expand (context : ExpandContext) (stx : Syntax) :
    Comparison.approximates.Agrees fun i => (bif i then expand' else expand) context stx :=
  Comparison.agrees_of_approximates (hexpand context stx)

theorem expandEach_mono (context : ExpandContext) (forms : List Syntax) :
    Approximates (Expansion.expandEach expand context forms)
      (Expansion.expandEach expand' context forms) :=
  (Comparison.expandEach (agrees_expand hexpand) context forms).1

theorem core_mono {loader loader' : Loader} (hloader : loader.Approximates loader')
    (ns : NamespaceId) (f : CoreForm) (form : Syntax) (parts : List Syntax)
    (context : ExpandContext) :
    Approximates (Expansion.core expand loader ns f form parts context)
      (Expansion.core expand' loader' ns f form parts context) := by
  have hinstantiate (id : ModuleId) : Comparison.approximates.Agrees fun i =>
      (bif i then loader' else loader).instantiate id :=
    Comparison.agrees_of_approximates (hloader.instantiate id)
  have hdeclare (id : ModuleId) (body : List Syntax) : Comparison.approximates.Agrees fun i =>
      (bif i then loader' else loader).declare id body :=
    Comparison.agrees_of_approximates (hloader.declare id body)
  exact (Comparison.core hinstantiate hdeclare (agrees_expand hexpand) ns f form parts context).1

end

theorem expandPlain_mono {expand expand' : Nat → ExpandContext → Syntax → RunM Syntax}
    (hexpand : ∀ depth context stx,
      Approximates (expand depth context stx) (expand' depth context stx))
    (depth : Nat) (form : Syntax) :
    Approximates (Expansion.expandPlain expand depth form)
      (Expansion.expandPlain expand' depth form) :=
  (Comparison.expandPlain (agrees_expand (hexpand depth)) depth form).1

section

variable {fuel more : Nat} (hle : fuel ≤ more)
include hle

theorem invoke_mono (id procedureId : ObjectId) (p : Procedure) (form : Syntax) :
    Approximates (invoke fuel id procedureId p form) (invoke more id procedureId p form) := by
  refine .rest _ fun mark => .rest _ fun w => .rest _ fun input => ?_
  exact ((applyProcedure_mono hle _ _).mapError _).bind fun _ => .refl _

theorem partialExpand_mono (depth : Nat) (form : Syntax) :
    Approximates (partialExpand fuel depth form) (partialExpand more depth form) := by
  induction fuel generalizing more depth form with
  | zero => exact .exhausted _
  | succ fuel ih =>
      obtain ⟨more, rfl⟩ := Nat.exists_eq_add_of_lt hle
      rw [partialExpand, partialExpand]
      cases form.subforms with
      | nil => exact .refl _
      | cons head rest =>
          refine .rest _ fun spaces => ?_
          cases headValue? spaces head with
          | none => exact .refl _
          | some v =>
              cases v with
              | transformer id procedureId p =>
                  refine .rest _ fun depth => (invoke_mono (by omega) id procedureId p form).bind ?_
                  exact fun form => ih (by omega) depth form
              | form f => cases f <;> exact .refl _
              | _ => exact .refl _

variable {loader loader' : Loader} (hloader : loader.Approximates loader')
include hloader

theorem expandSexp_mono {expand expand' : Nat → ExpandContext → Syntax → RunM Syntax}
    (hexpand : ∀ depth context stx,
      Approximates (expand depth context stx) (expand' depth context stx))
    (ns : NamespaceId) (depth : Nat) (context : ExpandContext) (form : Syntax) :
    Approximates (Expansion.expandSexp ns expand loader fuel depth context form)
      (Expansion.expandSexp ns expand' loader' more depth context form) := by
  induction fuel generalizing more depth form with
  | zero => exact .exhausted _
  | succ fuel ih =>
      obtain ⟨more, rfl⟩ := Nat.exists_eq_add_of_lt hle
      rw [Expansion.expandSexp, Expansion.expandSexp]
      cases form.subforms with
      | nil => exact .refl _
      | cons head rest =>
          refine .rest _ fun spaces => ?_
          cases headValue? spaces head with
          | none => exact (expandEach_mono (hexpand depth) _ _).bind fun _ => .refl _
          | some v =>
              cases v with
              | transformer id procedureId p =>
                  refine .rest _ fun depth => (invoke_mono (by omega) id procedureId p form).bind ?_
                  intro form
                  refine .ite (ih (by omega) depth form) ?_
                  exact expandPlain_mono hexpand depth form
              | form f => exact core_mono (hexpand depth) hloader ns f form _ context
              | _ => exact (expandEach_mono (hexpand depth) _ _).bind fun _ => .refl _

/-- A form is expanded alike with more steps, and with a loader that finishes more. -/
theorem expand_mono (ns : NamespaceId) (depth : Nat) (context : ExpandContext) (form : Syntax) :
    Approximates (Expansion.expand loader ns fuel depth context form)
      (Expansion.expand loader' ns more depth context form) := by
  induction fuel generalizing more depth context form with
  | zero => exact .exhausted _
  | succ fuel ih =>
      obtain ⟨more, rfl⟩ := Nat.exists_eq_add_of_lt hle
      have hexpand (depth : Nat) (context : ExpandContext) (stx : Syntax) :
          Approximates (Expansion.expand loader ns fuel depth context stx)
            (Expansion.expand loader' ns (fuel + more) depth context stx) :=
        ih (by omega) depth context stx
      refine .rest _ fun depth => Approximates.mapError (.ite ?_ ?_) _
      · exact expandSexp_mono (by omega) hloader hexpand ns depth context form
      · exact expandPlain_mono hexpand depth form

theorem runForm_mono (ns : NamespaceId) (context : ExpandContext) (form : Syntax) :
    Approximates (runForm loader fuel ns context form) (runForm loader' more ns context form) :=
  (expand_mono hle hloader ns 0 context form).bind fun _ => .rest _ fun code => eval_mono hle code _

/-! ## Modules -/

theorem firstPass_mono (ns : NamespaceId) (queue : List Syntax) :
    Approximates (firstPass loader ns fuel queue) (firstPass loader' ns more queue) := by
  induction fuel generalizing more queue with
  | zero => exact .exhausted _
  | succ fuel ih =>
      obtain ⟨more, rfl⟩ := Nat.exists_eq_add_of_lt hle
      cases queue with
      | nil => exact .refl _
      | cons form queue =>
          have hrest (queue : List Syntax) : Approximates (firstPass loader ns fuel queue)
              (firstPass loader' ns (fuel + more) queue) := ih (by omega) queue
          rw [firstPass, firstPass]
          refine (partialExpand_mono (by omega) 0 form).bind fun part => ?_
          cases part with
          | splice forms => exact hrest _
          | form form core =>
              have hleft (form : Syntax) : Approximates
                  (do let rest ← firstPass loader ns fuel queue; return form :: rest)
                  (do let rest ← firstPass loader' ns (fuel + more) queue; return form :: rest) :=
                (hrest queue).bind fun _ => .refl _
              cases core with
              | none => exact hleft form
              | some f =>
                  cases f with
                  | define => exact .rest _ fun form => hleft form
                  | defineSyntax =>
                      exact (runForm_mono (by omega) hloader ns .moduleBody form).bind fun _ =>
                        hrest queue
                  | require =>
                      exact (expand_mono (by omega) hloader ns 0 .moduleBody form).bind fun _ =>
                        hrest queue
                  | _ => exact hleft form

theorem secondPass_mono (ns : NamespaceId) (pending : List Syntax) :
    Approximates (secondPass loader ns fuel pending) (secondPass loader' ns more pending) := by
  induction pending with
  | nil => exact .refl _
  | cons form rest ih =>
      refine (expand_mono hle hloader ns 0 .moduleBody form).bind fun expanded => ?_
      exact .rest _ fun code => ih.bind fun _ => .refl _

theorem declareModule_mono (id : ModuleId) (body : List Syntax) :
    Approximates (declareModule loader fuel id body) (declareModule loader' more id body) := by
  refine .rest _ fun ns => .rest _ fun _ => ?_
  -- The parameters and the list of what is provided are set aside, and put back at the end.
  refine .rest _ fun _ => .rest _ fun _ => Approximates.andThen ?_ _
  refine .rest _ fun _ => .rest _ fun _ => Approximates.andThen ?_ _
  refine (firstPass_mono hle hloader ns _).bind fun pending => ?_
  exact (secondPass_mono hle hloader ns pending).bind fun codes => .refl _

theorem loadDeclaration_mono (id : ModuleId) :
    Approximates (loadDeclaration loader fuel id) (loadDeclaration loader' more id) := by
  refine .rest _ fun w => ?_
  split
  · exact .refl _
  · exact Approximates.mapError (.rest _ fun body => declareModule_mono hle hloader id body) _

end

theorem runBody_mono {fuel more : Nat} (hle : fuel ≤ more) (d : Declaration) :
    Approximates (runBody fuel d) (runBody more d) := by
  refine .rest _ fun _ => .rest _ fun _ => Approximates.andThen ?_ _
  induction d.body with
  | nil => exact .refl _
  | cons code rest ih => exact ((eval_mono hle code _).bind fun _ => .refl _).bind fun _ => ih

theorem instantiateWith_mono {load load' : RunM Declaration} {run run' : Declaration → RunM Unit}
    (hload : Approximates load load') (hrun : ∀ d, Approximates (run d) (run' d)) (id : ModuleId) :
    Approximates (instantiateWith id load run) (instantiateWith id load' run') := by
  refine .rest _ fun w => ?_
  split
  · exact .refl _
  · have hdeclaration : Approximates (declarationOf id load) (declarationOf id load') := by
      refine .rest _ fun w => ?_
      split
      · exact .refl _
      · exact .rest _ fun _ => hload.bind fun _ => .refl _
    refine .rest _ fun _ => .rest _ fun _ => .rest _ fun _ => Approximates.andThen ?_ _
    exact hdeclaration.bind fun d => .rest _ fun _ => (hrun d).bind fun _ => .refl _

/-- The loader that allows modules to be nested deeper finishes all that another does. -/
theorem loaderAt_mono {fuel more : Nat} (hle : fuel ≤ more) :
    (loaderAt fuel).Approximates (loaderAt more) := by
  induction fuel generalizing more with
  | zero => exact ⟨fun _ => .exhausted _, fun _ _ => .exhausted _⟩
  | succ fuel ih =>
      obtain ⟨more, rfl⟩ := Nat.exists_eq_add_of_lt hle
      have hloader : (loaderAt fuel).Approximates (loaderAt (fuel + more)) := ih (by omega)
      refine ⟨fun id => ?_, fun id body => ?_⟩
      · exact instantiateWith_mono (loadDeclaration_mono (by omega) hloader id)
          (runBody_mono (by omega)) id
      · exact declareModule_mono (by omega) hloader id body

/-! ## Sessions -/

/-- The forms that are waiting are evaluated alike with more steps. -/
theorem evalQueue_mono {fuel more : Nat} (hle : fuel ≤ more) {loader loader' : Loader}
    (hloader : loader.Approximates loader') (ns : NamespaceId) (result : Value)
    (queue : List Syntax) :
    Approximates (evalQueue loader ns fuel result queue) (evalQueue loader' ns more result queue) := by
  induction fuel generalizing more result queue with
  | zero => exact .exhausted _
  | succ fuel ih =>
      obtain ⟨more, rfl⟩ := Nat.exists_eq_add_of_lt hle
      cases queue with
      | nil => exact .refl _
      | cons form queue =>
          rw [evalQueue, evalQueue]
          refine (partialExpand_mono (by omega) 0 form).bind fun part => ?_
          cases part with
          | splice forms => exact ih (by omega) result _
          | form form core =>
              exact (runForm_mono (by omega) hloader ns .topLevel form).bind fun v =>
                ih (by omega) v queue

/-- How the evaluation of a form in a session ends does not depend on the number of steps. -/
theorem evalInContext_mono {fuel more : Nat} (hle : fuel ≤ more) (ns : NamespaceId) (form : Syntax) :
    Approximates (evalInContext fuel ns form) (evalInContext more ns form) :=
  evalQueue_mono hle (loaderAt_mono hle) ns .void [form]

end HygienicLisp
