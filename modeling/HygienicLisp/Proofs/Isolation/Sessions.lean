import HygienicLisp.Proofs.Isolation.Modules
import HygienicLisp.Session

/-!
# Whole runs respect guards

A run is a sequence of what hosts may ask of a runtime (`Action`), each of which may fail.  The only
code that an action brings into a namespace with guarded slots is what it compiles there, and the
only values are those that the host hands in; `Action.Fits` says that these obey the guard.

Main statements: `World.Guarded.after` for any sequence of actions, and `consistent_after`, by which
every world that a run leads to is consistent.  To the namespaces a run does what some calls do
(`exists_calls_of_after`).
-/

namespace HygienicLisp

variable {guard : Guard} {w : World} {loader : Loader} {ns : NamespaceId}

/-! ## Evaluation in a session -/

/-- The evaluation of the forms in the namespace compiles the code, now or later on. -/
inductive QueueCompiles (loader : Loader) (ns : NamespaceId) :
    Nat → List Syntax → World → Code → Prop
  | now {fuel : Nat} {form form' : Syntax} {queue : List Syntax} {f : Option CoreForm} {code : Code}
      {w w₁ w₂ : World} (hpartial : partialExpand fuel 0 form w = .ok (.form form' f) w₁)
      (hcode : compiledForm loader fuel ns .topLevel form' w₁ = .ok code w₂) :
      QueueCompiles loader ns (fuel + 1) (form :: queue) w code
  | splice {fuel : Nat} {form : Syntax} {queue forms : List Syntax} {code : Code} {w w₁ : World}
      (hpartial : partialExpand fuel 0 form w = .ok (.splice forms) w₁)
      (hlater : QueueCompiles loader ns fuel (forms ++ queue) w₁ code) :
      QueueCompiles loader ns (fuel + 1) (form :: queue) w code
  | next {fuel : Nat} {form form' : Syntax} {queue : List Syntax} {f : Option CoreForm}
      {code : Code} {v : Value} {w w₁ w₂ : World}
      (hpartial : partialExpand fuel 0 form w = .ok (.form form' f) w₁)
      (hrun : runForm loader fuel ns .topLevel form' w₁ = .ok v w₂)
      (hlater : QueueCompiles loader ns fuel queue w₂ code) :
      QueueCompiles loader ns (fuel + 1) (form :: queue) w code

/-- The evaluation of the forms one by one in the namespace compiles the code. -/
inductive FormsCompile (fuel : Nat) (ns : NamespaceId) : List Syntax → World → Code → Prop
  | head {form : Syntax} {rest : List Syntax} {w : World} {code : Code}
      (h : QueueCompiles (loaderAt fuel) ns fuel [form.introduce ns] w code) :
      FormsCompile fuel ns (form :: rest) w code
  | tail {form : Syntax} {rest : List Syntax} {w w' : World} {code : Code} {v : Value}
      (hrun : evalForm fuel ns form w = .ok v w') (h : FormsCompile fuel ns rest w' code) :
      FormsCompile fuel ns (form :: rest) w code

theorem respects_evalQueue (hloader : loader.Obedient guard) {fuel : Nat} {result : Value}
    {queue : List Syntax} (hresult : result.Obeys guard)
    (hcode : ∀ code, QueueCompiles loader ns fuel queue w code →
      ∀ c, code.Contains c → guard.allows ns c) :
    Respects guard (fun _ v => v.Obeys guard) (evalQueue loader ns fuel result queue) w := by
  induction fuel generalizing result queue w with
  | zero => exact .exhausted
  | succ fuel ih =>
      cases queue with
      | nil => exact .pure hresult
      | cons form queue =>
          refine (harmless_partialExpand fuel 0 form w).bind_run fun part w₁ hpartial _ _ => ?_
          cases part with
          | splice forms => exact ih hresult fun code h => hcode code (.splice hpartial h)
          | form form' f =>
              have hform : Respects guard (fun _ v => v.Obeys guard)
                  (runForm loader fuel ns .topLevel form') w₁ :=
                respects_runForm hloader fun code w₂ h => hcode code (.now hpartial h)
              exact hform.bind_run fun v w₂ hrun _ hv =>
                ih hv fun code h => hcode code (.next hpartial hrun h)

/-- In a namespace without guarded slots all code that the queue compiles is allowed. -/
theorem QueueCompiles.allows (hloader : loader.Obedient guard) (hns : guard.Outside ns) {fuel : Nat}
    {queue : List Syntax} {code : Code} (h : QueueCompiles loader ns fuel queue w code)
    (hw : w.Guarded guard) : ∀ c, code.Contains c → guard.allows ns c := by
  induction h with
  | @now fuel form form' _ _ _ w w₁ _ hpartial hcode =>
      have hw₁ := ((harmless_partialExpand fuel 0 form w).of_run hw hpartial).1
      exact allows_of_compiledForm hloader hns hw₁ hcode
  | @splice fuel form _ _ _ w _ hpartial _ ih =>
      exact ih ((harmless_partialExpand fuel 0 form w).of_run hw hpartial).1
  | @next fuel form form' _ _ _ _ w w₁ _ hpartial hrun _ ih =>
      have hw₁ := ((harmless_partialExpand fuel 0 form w).of_run hw hpartial).1
      have hform := respects_runForm_outside (w := w₁) hloader hns fuel .topLevel form'
      exact ih (hform.of_run hw₁ hrun).1

/-- Evaluation in a session respects the guard if what is compiled in the namespace of the session
is allowed there, where that namespace has guarded slots. -/
theorem respects_evalInContext {fuel : Nat} {form : Syntax}
    (hcode : ¬guard.Outside ns → ∀ code, QueueCompiles (loaderAt fuel) ns fuel [form] w code →
      ∀ c, code.Contains c → guard.allows ns c) :
    Respects guard (fun _ v => v.Obeys guard) (evalInContext fuel ns form) w := by
  have hloader := obedient_loaderAt guard fuel
  intro hw
  refine respects_evalQueue hloader .void (fun code h => ?_) hw
  by_cases hns : guard.Outside ns
  · exact h.allows hloader hns hw
  · exact hcode hns code h

theorem respects_evalForms {fuel : Nat} {result : Value} {forms : List Syntax}
    (hresult : result.Obeys guard)
    (hcode : ¬guard.Outside ns → ∀ code, FormsCompile fuel ns forms w code →
      ∀ c, code.Contains c → guard.allows ns c) :
    Respects guard (fun _ v => v.Obeys guard) (evalForms fuel ns result forms) w := by
  induction forms generalizing result w with
  | nil => exact .pure hresult
  | cons form rest ih =>
      have hform : Respects guard (fun _ v => v.Obeys guard) (evalForm fuel ns form) w :=
        respects_evalInContext fun hns code h => hcode hns code (.head h)
      exact hform.bind_run fun v w' hrun _ hv =>
        ih hv fun hns code h => hcode hns code (.tail hrun h)

/-! ## Actions -/

/-- What a host may ask of a runtime. -/
inductive Action
  | start (config : Config)
  | addSource (path text : String)
  | openSession
  | evalText (fuel : Nat) (ns : NamespaceId) (text : String)
  | evalForm (fuel : Nat) (ns : NamespaceId) (form : Syntax)
  | evalInContext (fuel : Nat) (ns : NamespaceId) (form : Syntax)
  | expand (fuel : Nat) (ns : NamespaceId) (context : ExpandContext) (form : Syntax)
  | compile (ns : NamespaceId) (form : Syntax)
  | run (fuel : Nat) (ns : NamespaceId) (code : Code)
  | apply (fuel : Nat) (procedure : Value) (args : List Value)
  | define (ns : NamespaceId) (name : String) (v : Value)
  | require (fuel : Nat) (ns : NamespaceId) (path : String)
  | call (fuel : Nat) (ns : NamespaceId) (name : String) (args : List Value)
  | instantiate (fuel : Nat) (id : ModuleId)

namespace Action

/-- The computation that carries out an action. -/
def perform : Action → RunM Unit
  | .start config => startRuntime config
  | .addSource path text => do let _ ← HygienicLisp.addSource path text
  | .openSession => do let _ ← HygienicLisp.openSession
  | .evalText fuel ns text => do let _ ← HygienicLisp.evalText fuel ns text
  | .evalForm fuel ns form => do let _ ← HygienicLisp.evalForm fuel ns form
  | .evalInContext fuel ns form => do let _ ← HygienicLisp.evalInContext fuel ns form
  | .expand fuel ns context form => do
      let _ ← Expansion.expand (loaderAt fuel) ns fuel 0 context form
  | .compile ns form => do let _ ← HygienicLisp.compile ns form
  | .run fuel ns code => do let _ ← eval fuel code ⟨ns, none⟩
  | .apply fuel procedure args => do let _ ← applyProcedure fuel procedure args
  | .define ns name v => defineValue ns name v
  | .require fuel ns path => requireModule fuel ns path
  | .call fuel ns name args => do let _ ← callName fuel ns name args
  | .instantiate fuel id => do let _ ← HygienicLisp.instantiate fuel id

/-- The action compiles the code in the namespace and runs it there. -/
def Compiles (w : World) (ns : NamespaceId) (code : Code) : Action → Prop
  | .evalText fuel ns' text => ns' = ns ∧ ∃ forms,
      (⟨"<top-level>", text⟩ : Source).read = .ok forms ∧ FormsCompile fuel ns forms w code
  | .evalForm fuel ns' form =>
      ns' = ns ∧ QueueCompiles (loaderAt fuel) ns fuel [form.introduce ns] w code
  | .evalInContext fuel ns' form => ns' = ns ∧ QueueCompiles (loaderAt fuel) ns fuel [form] w code
  | _ => False

/-- The values that the host hands in. -/
def values : Action → List Value
  | .apply _ procedure args => procedure :: args
  | .define _ _ v => [v]
  | .call _ _ _ args => args
  | _ => []

/-- The code that the host hands in, and the namespace to run it in. -/
def code? : Action → Option (NamespaceId × Code)
  | .run _ ns code => some (ns, code)
  | _ => none

/-- The namespace in which the host defines a value. -/
def definesIn? : Action → Option NamespaceId
  | .define ns _ _ => some ns
  | _ => none

/-- What the action brings with it obeys the guard: the code that it compiles in namespaces with
guarded slots, and the values and the code that the host hands in.  The host defines nothing in a
namespace with guarded slots. -/
structure Fits (guard : Guard) (w : World) (action : Action) : Prop where
  compiled : ∀ ns code, ¬guard.Outside ns → action.Compiles w ns code →
    ∀ c, code.Contains c → guard.allows ns c
  values : ∀ v ∈ action.values, v.Obeys guard
  code : ∀ ns code, action.code? = some (ns, code) → code.Obeys guard ns
  define : ∀ ns, action.definesIn? = some ns → guard.Outside ns

end Action

/-! ## What actions do -/

theorem World.Guarded.setRuntime (hw : w.Guarded guard) {runtime : Runtime}
    (h : runtime.kernel.Known w.spaces) : ({ w with runtime } : World).Guarded guard :=
  ⟨{ hw.consistent with kernel := h }, { hw.obeys with }, hw.there⟩

theorem respects_startRuntime (config : Config) :
    Respects guard (fun _ _ => True) (startRuntime config) w := by
  have hclear : Respects guard (fun _ _ => True)
      (modify fun w => { w with runtime := { config }, registry := {} }) w := by
    refine .modify fun hw => ⟨⟨?_, ?_, hw.there⟩, .refl _ w.spaces⟩
    · refine { hw.consistent with declarations := ?_, instances := ?_, kernel := ?_ } <;>
        rintro _ ⟨⟩
    · refine { hw.obeys with bodies := ?_ }
      rintro _ ⟨⟩
  refine hclear.bind fun _ w₁ _ _ => ?_
  refine (respects_buildKernel _).bind fun d w₂ _ hd => ?_
  refine (respects_installModule hd).bind fun kernel w₃ _ hkernel => ?_
  exact .modify fun hw₃ => ⟨hw₃.setRuntime hkernel, .refl _ w₃.spaces⟩

theorem respects_addSource (path text : String) :
    Respects guard (fun _ _ => True) (addSource path text) w := by
  refine (Harmless.ofExcept _ w).bind fun id w₁ _ _ => ?_
  refine (Respects.modify_quiet ⟨rfl, rfl, rfl, rfl, rfl, rfl⟩).bind fun _ _ _ _ => ?_
  exact .pure trivial

theorem respects_openSession : Respects guard (fun _ _ => True) openSession w := by
  refine .get_bind fun _ => ?_
  refine (Respects.modify_quiet ⟨rfl, rfl, rfl, rfl, rfl, rfl⟩).bind fun _ w₁ _ _ => ?_
  refine (respects_newNamespace _ .topLevel).bind fun ns w₂ _ _ => ?_
  exact (respects_requireKernel ns).bind fun _ w₃ _ _ => .pure trivial

theorem respects_callName {fuel : Nat} {name : String} {args : List Value}
    (hargs : ∀ v ∈ args, v.Obeys guard) :
    Respects guard (fun _ v => v.Obeys guard) (callName fuel ns name args) w := by
  refine Respects.bind (P := fun _ v => v.Obeys guard) ?_ fun v w' _ hv =>
    respects_applyProcedure hv hargs
  exact .getSpaces_bind fun hw => (hw.ifOk_lookupName ns name).respects

theorem respects_requireModule (fuel : Nat) (ns : NamespaceId) (path : String) :
    Respects guard (fun _ _ => True) (requireModule fuel ns path) w := by
  refine .getSpaces_bind fun _ => ?_
  refine (harmless_resolveModule path _ w).bind fun id w₁ _ _ => ?_
  refine ((obedient_loaderAt guard fuel).instantiate id w₁).bind fun i w₂ _ hi => ?_
  exact respects_requireAll hi ns _ false

/-- One action respects the guard. -/
theorem Action.Fits.respects {action : Action} (h : action.Fits guard w) :
    Respects guard (fun _ _ => True) action.perform w := by
  have hloader := obedient_loaderAt guard
  have hdrop {α : Type} {P : World → α → Prop} {x : RunM α} (hx : Respects guard P x w) :
      Respects guard (fun _ _ => True) (do let _ ← x : RunM Unit) w :=
    hx.bind fun _ _ _ _ => .pure trivial
  cases action with
  | start config => exact respects_startRuntime config
  | addSource path text => exact hdrop (respects_addSource path text)
  | openSession => exact hdrop respects_openSession
  | evalText fuel ns text =>
      refine hdrop (P := fun _ _ => True) (Respects.mapError ?_)
      refine Respects.bind (P := fun w' forms => w' = w ∧
        (⟨"<top-level>", text⟩ : Source).read = .ok forms) ?_ fun forms w' _ hforms => ?_
      · exact .ofExcept fun forms hforms => ⟨rfl, hforms⟩
      -- Reading changes nothing: the forms are evaluated in the world that the action finds.
      obtain ⟨rfl, hforms⟩ := hforms
      refine (respects_evalForms .void fun hns code hcode => ?_).mono fun _ _ _ => trivial
      exact h.compiled ns code hns ⟨rfl, forms, hforms, hcode⟩
  | evalForm fuel ns form =>
      exact hdrop (respects_evalInContext fun hns code hcode => h.compiled ns code hns ⟨rfl, hcode⟩)
  | evalInContext fuel ns form =>
      exact hdrop (respects_evalInContext fun hns code hcode => h.compiled ns code hns ⟨rfl, hcode⟩)
  | expand fuel ns context form =>
      exact hdrop (harmless_expand (hloader fuel) ns fuel 0 context form w)
  | compile ns form => exact hdrop (respects_compile ns form)
  | run fuel ns code => exact hdrop (respects_eval fuel code ⟨ns, none⟩ w (h.code ns code rfl))
  | apply fuel procedure args =>
      obtain ⟨hprocedure, hargs⟩ := List.forall_mem_cons.1 h.values
      exact hdrop (respects_applyProcedure hprocedure hargs)
  | define ns name v =>
      exact respects_defineValue (h.values v List.mem_cons_self) (h.define ns rfl) name
  | require fuel ns path => exact respects_requireModule fuel ns path
  | call fuel ns name args => exact hdrop (respects_callName h.values)
  | instantiate fuel id => exact hdrop ((hloader fuel).instantiate id w)

/-! ## Runs -/

/-- The world after actions, each of which may fail. -/
def World.after (w : World) : List Action → World
  | [] => w
  | action :: rest => World.after (action.perform.leaves w) rest

/-- Each action fits when it is its turn. -/
def World.AllFit (guard : Guard) (w : World) : List Action → Prop
  | [] => True
  | action :: rest => action.Fits guard w ∧ World.AllFit guard (action.perform.leaves w) rest

/-- Any number of actions respect the guard. -/
theorem World.Guarded.after (hw : w.Guarded guard) {actions : List Action}
    (hfit : w.AllFit guard actions) :
    (w.after actions).Guarded guard ∧ w.spaces.Later guard (w.after actions).spaces := by
  induction actions generalizing w with
  | nil => exact ⟨hw, .refl _ w.spaces⟩
  | cons action rest ih =>
      obtain ⟨hw₁, hlater₁⟩ := hfit.1.respects.leaves hw
      obtain ⟨hw₂, hlater₂⟩ := ih hw₁ hfit.2
      exact ⟨hw₂, hlater₁.trans hlater₂⟩

/-- A consistent world is guarded where there is nothing to guard. -/
theorem World.Consistent.guarded (hw : w.Consistent) : w.Guarded (.sparing fun _ => False) := by
  have hallows (ns : NamespaceId) (code : Code) : (Guard.sparing fun _ => False).allows ns code :=
    fun _ _ _ => not_false
  refine ⟨hw, ⟨?_, ?_, ?_, ?_⟩, fun _ h => h.elim⟩
  · exact fun _ => Value.obeys_of_allows hallows _
  · exact fun _ _ _ _ v _ => v.obeys_of_allows hallows
  · exact fun p _ => p.2.obeys_of_allows hallows
  · exact fun d _ code _ => code.obeys_of_allows hallows d.space

/-- At the start there is nothing that could break a guard of no slots. -/
theorem World.guarded_empty (hguard : ∀ slot, ¬guard.slots slot) : ({} : World).Guarded guard where
  consistent := by
    refine ⟨⟨?_, ?_, ?_⟩, ?_, ?_, ?_, ?_⟩
    · exact fun h => by simp at h
    · exact fun h => by simp at h
    · exact fun h => by simp at h
    all_goals rintro _ ⟨⟩
  obeys := by
    refine ⟨?_, ?_, ?_, ?_⟩
    · exact fun h => by simp [Spaces.value?] at h
    · exact fun _ _ h => by simp at h
    · rintro _ ⟨⟩
    · rintro _ ⟨⟩
  there slot hslot := absurd hslot (hguard slot)

/-- Where everything is allowed, all actions fit. -/
theorem World.allFit_of_allows (hslots : ∀ slot, ¬guard.slots slot)
    (hallows : ∀ ns code, guard.allows ns code) (w : World) (actions : List Action) :
    w.AllFit guard actions := by
  induction actions generalizing w with
  | nil => trivial
  | cons action rest ih =>
      refine ⟨⟨?_, ?_, ?_, ?_⟩, ih _⟩
      · exact fun ns code hns => absurd (fun slot hslot => absurd hslot (hslots slot)) hns
      · exact fun v _ => v.obeys_of_allows hallows
      · exact fun ns code _ => code.obeys_of_allows hallows ns
      · exact fun ns _ slot hslot => absurd hslot (hslots slot)

/-- Whatever is done in a consistent world, it stays consistent and its namespaces are extended. -/
theorem World.Consistent.after (hw : w.Consistent) (actions : List Action) :
    (w.after actions).Consistent ∧ w.spaces.Extends (w.after actions).spaces := by
  have hfit : w.AllFit (.sparing fun _ => False) actions :=
    World.allFit_of_allows (fun _ => not_false) (fun _ _ _ _ _ => not_false) w actions
  obtain ⟨hw', hlater⟩ := hw.guarded.after hfit
  exact ⟨hw'.consistent, hlater.extension⟩

/-- A run does to the namespaces what some calls do. -/
theorem World.Consistent.called_after (hw : w.Consistent) (actions : List Action) :
    w.spaces.Called (w.after actions).spaces := by
  have hfit : w.AllFit (.sparing fun _ => False) actions :=
    World.allFit_of_allows (fun _ => not_false) (fun _ _ _ _ _ => not_false) w actions
  exact (hw.guarded.after hfit).2.called

/-- Every world that a run leads to is consistent. -/
theorem consistent_after (actions : List Action) : (({} : World).after actions).Consistent := by
  have hempty : ({} : World).Guarded (.sparing fun _ => False) :=
    World.guarded_empty fun _ => not_false
  exact (hempty.consistent.after actions).1

/-- The namespaces of every run are those that some calls lead to from the start.  So what holds
after any calls holds of them. -/
theorem exists_calls_of_after (actions : List Action) : ∃ calls,
    (({} : World).after actions).spaces = (({} : World).afterCalls calls).spaces := by
  obtain ⟨calls, hcalls⟩ := (consistent_after []).called_after actions
  exact ⟨calls, (hcalls {} rfl).symm⟩

/-- After actions alone no namespace has been freed. -/
theorem live_after (actions : List Action) : (({} : World).after actions).spaces.Live := by
  obtain ⟨calls, hcalls⟩ := exists_calls_of_after actions
  exact hcalls ▸ live_afterCalls calls

end HygienicLisp
