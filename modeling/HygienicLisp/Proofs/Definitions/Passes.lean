import HygienicLisp.Proofs.Definitions.Bodies
import HygienicLisp.Proofs.Isolation.Sessions

/-!
# The definitions of a module

The first pass over a module body takes the addresses of the definitions that it finds and compiles
the transformers; the second pass compiles the rest.  `Logged` goes through a body in the same way
and reports what was compiled.

Main statement: `module_definitions_distinct`.  Two definitions of a module write different
addresses, if every form is met as what it is when it is compiled, and the second pass comes to no
`define` that the first has not found.
-/

namespace HygienicLisp

open Expansion

/-! ## The passes with a log -/

/-- A form that the first pass leaves to the second.  It is reserved if its address was taken. -/
structure Pending where
  reserved : Bool
  form : Syntax

/-- A form of a module body from its expansion to its code. -/
structure FormRun where
  fuel : Nat
  pending : Pending
  before : World
  expanded : Syntax
  after : World
  code : Code

/-- A declaration, with the forms that were compiled in the first pass and in the second. -/
structure ModuleRun where
  declaration : Declaration
  evaluated : List FormRun
  compiled : List FormRun

/-- The forms that were compiled, in order. -/
def ModuleRun.forms (run : ModuleRun) : List FormRun := run.evaluated ++ run.compiled

namespace Logged

variable (loader : Loader) (ns : NamespaceId)

/-- Expands and compiles a form. -/
def compileForm (fuel : Nat) (pending : Pending) : RunM FormRun := do
  let before ← get
  let expanded ← expand loader ns fuel 0 .moduleBody pending.form
  let after ← get
  let code ← compile ns expanded
  return { fuel, pending, before, expanded, after, code }

/-- `firstPass`, which reports the forms that it has compiled. -/
def firstPass : Nat → List Syntax → RunM (List Pending × List FormRun)
  | 0, _ => RunM.exhausted
  | _ + 1, [] => return ([], [])
  | fuel + 1, form :: queue => do
    match ← partialExpand fuel 0 form with
    | .splice forms => firstPass fuel (forms ++ queue)
    | .form form (some .define) =>
      let form ← predefineForm ns form
      let (rest, runs) ← firstPass fuel queue
      return (⟨true, form⟩ :: rest, runs)
    | .form form (some .defineSyntax) =>
      let run ← compileForm loader ns fuel ⟨false, form⟩
      let _ ← eval fuel run.code ⟨ns, none⟩
      let (rest, runs) ← firstPass fuel queue
      return (rest, run :: runs)
    | .form form (some .require) =>
      let _ ← expand loader ns fuel 0 .moduleBody form
      firstPass fuel queue
    | .form form _ =>
      let (rest, runs) ← firstPass fuel queue
      return (⟨false, form⟩ :: rest, runs)

/-- `secondPass`, which reports the forms that it has compiled. -/
def secondPass (fuel : Nat) : List Pending → RunM (List FormRun)
  | [] => return []
  | pending :: rest => do
    let run ← compileForm loader ns fuel pending
    let runs ← secondPass fuel rest
    return run :: runs

end Logged

/-- `declareModule`, which reports the forms that it has compiled. -/
def Logged.declareModule (loader : Loader) (fuel : Nat) (id : ModuleId) (body : List Syntax) :
    RunM ModuleRun := do
  let ns ← newNamespace id .module
  requireKernel ns
  withOwnParameters <| withOwnProvides do
    let (pending, evaluated) ← firstPass loader ns fuel (body.map (Syntax.introduce ns))
    let compiled ← secondPass loader ns fuel pending
    return ⟨⟨id, ns, compiled.map (·.code), (← get).provides⟩, evaluated, compiled⟩

section

variable {α β : Type}

theorem andThen_map (x : RunM α) (leave : World → World) (f : α → β) :
    (do return f (← x) : RunM β).andThen leave = (do return f (← x.andThen leave)) := by
  funext w
  rw [RunM.andThen, RunM.bind_apply, RunM.bind_apply, RunM.andThen]
  cases x w <;> rfl

theorem withOwnParameters_map (x : RunM α) (f : α → β) :
    withOwnParameters (do return f (← x)) = (do return f (← withOwnParameters x)) := by
  simp only [withOwnParameters, andThen_map, bind_assoc]

theorem withOwnProvides_map (x : RunM α) (f : α → β) :
    withOwnProvides (do return f (← x)) = (do return f (← withOwnProvides x)) := by
  simp only [withOwnProvides, andThen_map, bind_assoc]

end

section

variable (loader : Loader) (ns : NamespaceId)

theorem runForm_eq (fuel : Nat) (pending : Pending) :
    runForm loader fuel ns .moduleBody pending.form =
      (do
        let run ← Logged.compileForm loader ns fuel pending
        eval fuel run.code ⟨ns, none⟩) := by
  simp only [Logged.compileForm, bind_assoc, pure_bind]
  rfl

theorem firstPass_eq (fuel : Nat) (forms : List Syntax) :
    firstPass loader ns fuel forms =
      (do return (← Logged.firstPass loader ns fuel forms).1.map Pending.form) := by
  induction fuel generalizing forms with
  | zero => rfl
  | succ fuel ih =>
      cases forms with
      | nil => rfl
      | cons form queue =>
          rw [firstPass, Logged.firstPass, bind_assoc]
          refine bind_congr fun part => ?_
          -- What is left to the second pass is left by both.
          have hleft (reserved : Bool) (form : Syntax) :
              (do return form :: (← firstPass loader ns fuel queue)) = (do
                let left ← Logged.firstPass loader ns fuel queue
                return (⟨reserved, form⟩ :: left.1 : List Pending).map Pending.form) := by
            simp only [ih, bind_assoc, pure_bind, List.map_cons]
          cases part with
          | splice forms => exact ih _
          | form form core =>
              cases core with
              | none => simpa only [bind_assoc, pure_bind] using hleft false form
              | some f =>
                  cases f with
                  | define =>
                      simp only [bind_assoc, pure_bind]
                      exact bind_congr fun form => hleft true form
                  | defineSyntax =>
                      simp only [runForm_eq loader ns fuel ⟨false, form⟩, ih, bind_assoc, pure_bind]
                  | require => simp only [ih, bind_assoc]
                  | _ => simpa only [bind_assoc, pure_bind] using hleft false form

theorem secondPass_eq (fuel : Nat) (pending : List Pending) :
    secondPass loader ns fuel (pending.map Pending.form) =
      (do return (← Logged.secondPass loader ns fuel pending).map (·.code)) := by
  induction pending with
  | nil => rfl
  | cons first rest ih =>
      simp only [List.map_cons, secondPass, Logged.secondPass, Logged.compileForm, ih, bind_assoc,
        pure_bind]
      rfl

/-- Reporting the forms changes nothing. -/
theorem declareModule_eq (fuel : Nat) (id : ModuleId) (body : List Syntax) :
    declareModule loader fuel id body =
      (do return (← Logged.declareModule loader fuel id body).declaration) := by
  simp only [declareModule, Logged.declareModule, bind_assoc]
  refine bind_congr fun ns => bind_congr fun _ => ?_
  rw [← withOwnParameters_map, ← withOwnProvides_map]
  simp only [firstPass_eq, secondPass_eq, bind_assoc, pure_bind]

end

/-! ## The addresses of the passes -/

/-- The addresses that the definitions in the code of the forms write. -/
def definitionsOf (runs : List FormRun) : List Nat := runs.flatMap (·.code.definitions)

theorem definitionsOf_cons (run : FormRun) (runs : List FormRun) :
    definitionsOf (run :: runs) = run.code.definitions ++ definitionsOf runs :=
  List.flatMap_cons

/-- The forms that were reserved record the addresses. -/
inductive Awaits (S : Spaces) (ns : NamespaceId) : List Pending → List Nat → Prop
  | nil : Awaits S ns [] []
  | plain {form : Syntax} {rest : List Pending} {addresses : List Nat}
      (hrest : Awaits S ns rest addresses) : Awaits S ns (⟨false, form⟩ :: rest) addresses
  | reserved {form : Syntax} {rest : List Pending} {address : Nat} {addresses : List Nat}
      (hform : Reserved S ns form address) (hrest : Awaits S ns rest addresses) :
      Awaits S ns (⟨true, form⟩ :: rest) (address :: addresses)

section

variable {ns : NamespaceId}

theorem Reserved.mono {before after : Spaces} (h : before.Lasts after) (hns : before.IsModule ns)
    {form : Syntax} {address : Nat} (hform : Reserved before ns form address) :
    Reserved after ns form address := by
  obtain ⟨head, target, value, hparts, htarget⟩ := hform
  exact ⟨head, target, value, hparts, htarget.mono h hns⟩

theorem Awaits.mono {before after : Spaces} (h : before.Lasts after) (hns : before.IsModule ns)
    {pending : List Pending} {addresses : List Nat} (hpending : Awaits before ns pending addresses) :
    Awaits after ns pending addresses := by
  induction hpending with
  | nil => exact .nil
  | plain _ ih => exact .plain ih
  | reserved hform _ ih => exact .reserved (hform.mono h hns) ih

end

/-- In the expansion of the form every form is met as what it is when it is compiled, and no `define`
of the module body is met but one that the first pass has found. -/
def FormRun.Lawful (loader : Loader) (ns : NamespaceId) (run : FormRun) : Prop :=
  Finished (Watched.expand (lawful run.pending.reserved run.after.spaces) loader ns run.fuel 0
    .moduleBody run.pending.form run.before)

section

variable {guard : Guard} {loader : Loader} {ns : NamespaceId} {w w' : World} {fuel : Nat}

theorem compileForm_eq_ok {pending : Pending} {run : FormRun}
    (h : Logged.compileForm loader ns fuel pending w = .ok run w') :
    run.fuel = fuel ∧ run.pending = pending ∧ run.before = w ∧
      expand loader ns fuel 0 .moduleBody pending.form w = .ok run.expanded run.after ∧
      compile ns run.expanded run.after = .ok run.code w' := by
  obtain ⟨_, _, hbefore, h⟩ := RunM.bind_eq_ok.1 h
  cases hbefore
  obtain ⟨expanded, after, hexpand, h⟩ := RunM.bind_eq_ok.1 h
  obtain ⟨_, _, hafter, h⟩ := RunM.bind_eq_ok.1 h
  cases hafter
  obtain ⟨code, w₁, hcompile, h⟩ := RunM.bind_eq_ok.1 h
  cases h
  exact ⟨rfl, rfl, rfl, hexpand, hcompile⟩

/-- A `define` whose address is taken records it. -/
theorem predefineForm_reserves {form form' : Syntax} (h : predefineForm ns form w = .ok form' w')
    (hw : InModule guard ns w) :
    ∃ address, Reserved w'.spaces ns form' address ∧
      FreshBetween (w.spaces.taken ns) (w'.spaces.taken ns) [address] := by
  obtain ⟨⟨target, value⟩, w₁, hdefinition, h⟩ := RunM.bind_eq_ok.1 h
  obtain ⟨-, hlasts₁⟩ := hw.after (harmless_definitionParts form _ w) hdefinition
  cases hidentifier : target.isIdentifier with
  | false =>
      simp only [hidentifier] at h
      cases h
  | true =>
      simp only [hidentifier] at h
      obtain ⟨target', w₂, htarget, h⟩ := RunM.bind_eq_ok.1 h
      cases h
      obtain ⟨hrecords, htaken⟩ := predefine_records htarget
      cases hparts : form.subforms with
      | nil =>
          rw [hparts] at hdefinition
          cases hdefinition
      | cons head rest =>
          refine ⟨w₁.spaces.taken ns, ⟨head, target', value, ?_, hrecords⟩, ?_⟩
          · exact Syntax.subforms?_rebuildSexp _ _
          · exact (FreshBetween.next (htaken ▸ Nat.lt_succ_self _)).from_start (hlasts₁.taken ns)

variable (hloader : loader.Obedient guard)
include hloader

/-- The code of a form writes addresses that its expansion has taken, or the one that was taken
before. -/
theorem compileForm_definitions {pending : Pending} {run : FormRun}
    (h : Logged.compileForm loader ns fuel pending w = .ok run w') (hw : InModule guard ns w)
    (hlawful : run.Lawful loader ns) :
    FreshBetween (w.spaces.taken ns) (w'.spaces.taken ns) run.code.definitions ∨
      pending.reserved ∧ ∀ address, Reserved w.spaces ns pending.form address →
        run.code.definitions = [address] := by
  obtain ⟨rfl, rfl, rfl, hexpand, hcompile⟩ := compileForm_eq_ok h
  obtain ⟨hafter, hlasts⟩ := hw.after (harmless_expand hloader ns run.fuel 0 _ _ _) hexpand
  obtain ⟨-, hlasts'⟩ := hafter.after (respects_compile ns run.expanded) hcompile
  have hwatched := hexpand
  rw [Watched.expand_approximates run.fuel 0 _ _ _ hlawful] at hwatched
  -- Compilation reads the namespaces as expansion has left them.
  have hcode {addresses : List Nat} (he : Declares run.after.spaces ns run.expanded addresses) :
      run.code.definitions = addresses :=
    (gives_declares he _ _ run.after ⟨rfl, fun _ _ => rfl⟩ _ _ hcompile).2
  rcases declares_expand hloader hw (.refl _) hwatched with
    ⟨addresses, he, hfresh⟩ | ⟨hreserved, -, he⟩
  · refine .inl ?_
    rw [hcode he, ← List.append_nil addresses]
    exact hfresh.append (.nil (hlasts'.taken ns))
  · refine .inr ⟨hreserved, fun address haddress => hcode (he address ?_)⟩
    exact haddress.mono hlasts hw.module

variable (hns : guard.Outside ns)
include hns

theorem compileForm_inModule {pending : Pending} {run : FormRun}
    (h : Logged.compileForm loader ns fuel pending w = .ok run w') (hw : InModule guard ns w) :
    InModule guard ns w' ∧ w.spaces.Lasts w'.spaces ∧ run.code.Obeys guard ns := by
  obtain ⟨-, -, -, hexpand, hcompile⟩ := compileForm_eq_ok h
  obtain ⟨hafter, hlasts⟩ := hw.after (harmless_expand hloader ns fuel 0 _ _ _) hexpand
  have hcompiled := respects_compile_outside (w := run.after) hns run.expanded
  obtain ⟨hw', hlasts'⟩ := hafter.after hcompiled hcompile
  exact ⟨hw', hlasts.trans hlasts', (hcompiled.of_run hafter.guarded hcompile).2⟩

theorem firstPass_inModule {forms : List Syntax} {left : List Pending × List FormRun}
    (h : Logged.firstPass loader ns fuel forms w = .ok left w') (hw : InModule guard ns w) :
    InModule guard ns w' ∧ w.spaces.Lasts w'.spaces := by
  refine hw.after (harmless_firstPass hloader hns fuel forms w) (a := left.1.map Pending.form) ?_
  rw [firstPass_eq]
  exact RunM.bind_eq_ok.2 ⟨left, w', h, rfl⟩

/-- The definitions that the first pass compiles write addresses that it takes, and the ones that it
leaves to the second pass are at other addresses that it takes. -/
theorem firstPass_definitions {forms : List Syntax} {pending : List Pending} {runs : List FormRun}
    (h : Logged.firstPass loader ns fuel forms w = .ok (pending, runs) w')
    (hw : InModule guard ns w) (hlawful : ∀ run ∈ runs, run.Lawful loader ns) :
    ∃ addresses, Awaits w'.spaces ns pending addresses ∧
      FreshBetween (w.spaces.taken ns) (w'.spaces.taken ns) (definitionsOf runs ++ addresses) := by
  induction fuel generalizing forms pending runs w with
  | zero => cases h
  | succ fuel ih =>
      rcases forms with _ | ⟨form, queue⟩
      · cases h
        exact ⟨[], .nil, .nil le_rfl⟩
      obtain ⟨part, w₁, hpart, h⟩ := RunM.bind_eq_ok.1 h
      obtain ⟨hw₁, hlasts₁⟩ := hw.after (harmless_partialExpand fuel 0 form w) hpart
      have hle₁ := hlasts₁.taken ns
      -- A form that is left to the second pass as it is.
      have hplain {form : Syntax} (h : (do
          let left ← Logged.firstPass loader ns fuel queue
          return ((⟨false, form⟩ :: left.1, left.2) : List Pending × List FormRun)) w₁ =
            .ok (pending, runs) w') :
          ∃ addresses, Awaits w'.spaces ns pending addresses ∧
            FreshBetween (w.spaces.taken ns) (w'.spaces.taken ns)
              (definitionsOf runs ++ addresses) := by
        obtain ⟨⟨rest, runs⟩, w₂, hrest, h⟩ := RunM.bind_eq_ok.1 h
        cases h
        obtain ⟨addresses, hawaits, hfresh⟩ := ih hrest hw₁ hlawful
        exact ⟨addresses, .plain hawaits, hfresh.from_start hle₁⟩
      cases part with
      | splice forms =>
          obtain ⟨addresses, hawaits, hfresh⟩ := ih h hw₁ hlawful
          exact ⟨addresses, hawaits, hfresh.from_start hle₁⟩
      | form form core =>
          cases core with
          | none => exact hplain h
          | some f =>
              cases f with
              | define =>
                  obtain ⟨form', w₂, hform, h⟩ := RunM.bind_eq_ok.1 h
                  obtain ⟨⟨rest, runs⟩, w₃, hrest, h⟩ := RunM.bind_eq_ok.1 h
                  cases h
                  obtain ⟨address, hreserved, hfirst⟩ := predefineForm_reserves hform hw₁
                  obtain ⟨hw₂, -⟩ := hw₁.after (harmless_predefineForm ns form w₁) hform
                  obtain ⟨-, hlasts₃⟩ := firstPass_inModule hloader hns hrest hw₂
                  obtain ⟨addresses, hawaits, hfresh⟩ := ih hrest hw₂ hlawful
                  refine ⟨address :: addresses, .reserved ?_ hawaits, ?_⟩
                  · exact hreserved.mono hlasts₃ hw₂.module
                  · have hperm : (address :: (definitionsOf runs ++ addresses)).Perm
                        (definitionsOf runs ++ address :: addresses) := List.perm_middle.symm
                    exact ((hfirst.append hfresh).from_start hle₁).perm hperm
              | defineSyntax =>
                  obtain ⟨run, w₂, hrun, h⟩ := RunM.bind_eq_ok.1 h
                  obtain ⟨v, w₃, heval, h⟩ := RunM.bind_eq_ok.1 h
                  obtain ⟨⟨rest, runs⟩, w₄, hrest, h⟩ := RunM.bind_eq_ok.1 h
                  cases h
                  obtain ⟨hlawful₁, hlawful⟩ := List.forall_mem_cons.1 hlawful
                  obtain ⟨hw₂, -, hcode⟩ := compileForm_inModule hloader hns hrun hw₁
                  obtain ⟨hw₃, hlasts₃⟩ :=
                    hw₂.after (respects_eval fuel run.code ⟨ns, none⟩ w₂ hcode) heval
                  obtain ⟨addresses, hawaits, hfresh⟩ := ih hrest hw₃ hlawful
                  refine ⟨addresses, hawaits, ?_⟩
                  rcases compileForm_definitions hloader hrun hw₁ hlawful₁ with hfirst | ⟨hno, -⟩
                  · rw [definitionsOf_cons, List.append_assoc]
                    exact (hfirst.append (hfresh.from_start (hlasts₃.taken ns))).from_start hle₁
                  · cases hno
              | require =>
                  obtain ⟨_, w₂, hrequire, h⟩ := RunM.bind_eq_ok.1 h
                  obtain ⟨hw₂, hlasts₂⟩ :=
                    hw₁.after (harmless_expand hloader ns fuel 0 .moduleBody form w₁) hrequire
                  obtain ⟨addresses, hawaits, hfresh⟩ := ih h hw₂ hlawful
                  exact ⟨addresses, hawaits, hfresh.from_start (hle₁.trans (hlasts₂.taken ns))⟩
              | _ => exact hplain h

theorem secondPass_definitions {pending : List Pending} {runs : List FormRun} {addresses : List Nat}
    (h : Logged.secondPass loader ns fuel pending w = .ok runs w') (hw : InModule guard ns w)
    (hawaits : Awaits w.spaces ns pending addresses)
    (hlawful : ∀ run ∈ runs, run.Lawful loader ns) :
    ∃ used fresh, used.Sublist addresses ∧
      FreshBetween (w.spaces.taken ns) (w'.spaces.taken ns) fresh ∧
      (definitionsOf runs).Perm (used ++ fresh) := by
  induction pending generalizing runs addresses w with
  | nil =>
      cases h
      exact ⟨[], [], List.nil_sublist _, .nil le_rfl, .nil⟩
  | cons first rest ih =>
      obtain ⟨run, w₁, hrun, h⟩ := RunM.bind_eq_ok.1 h
      obtain ⟨runs, w₂, hrest, h⟩ := RunM.bind_eq_ok.1 h
      cases h
      obtain ⟨hlawful₁, hlawful⟩ := List.forall_mem_cons.1 hlawful
      obtain ⟨hw₁, hlasts₁, -⟩ := compileForm_inModule hloader hns hrun hw
      have hdefinitions := compileForm_definitions hloader hrun hw hlawful₁
      -- Addresses that were taken by the first form come before those of the rest.
      have htaken {others : List Nat}
          (hfirst : FreshBetween (w.spaces.taken ns) (w₁.spaces.taken ns) run.code.definitions)
          (hothers : Awaits w.spaces ns rest others) (hsub : others.Sublist addresses) :
          ∃ used fresh, used.Sublist addresses ∧
            FreshBetween (w.spaces.taken ns) (w'.spaces.taken ns) fresh ∧
            (definitionsOf (run :: runs)).Perm (used ++ fresh) := by
        obtain ⟨used, fresh, hused, hfresh, hperm⟩ :=
          ih hrest hw₁ (hothers.mono hlasts₁ hw.module) hlawful
        refine ⟨used, run.code.definitions ++ fresh, hused.trans hsub, hfirst.append hfresh, ?_⟩
        rw [definitionsOf_cons]
        exact (hperm.append_left _).trans (List.perm_append_comm_assoc _ _ _)
      cases hawaits with
      | plain hothers =>
          rcases hdefinitions with hfirst | ⟨hno, -⟩
          · exact htaken hfirst hothers (.refl _)
          · cases hno
      | @reserved form rest address others hform hothers =>
          rcases hdefinitions with hfirst | ⟨-, hreserved⟩
          · exact htaken hfirst hothers (List.sublist_cons_self _ _)
          · obtain ⟨used, fresh, hused, hfresh, hperm⟩ :=
              ih hrest hw₁ (hothers.mono hlasts₁ hw.module) hlawful
            refine ⟨address :: used, fresh, hused.cons_cons _,
              hfresh.from_start (hlasts₁.taken ns), ?_⟩
            rw [definitionsOf_cons, hreserved address hform]
            exact hperm.cons address

end

/-! ## Modules -/

section

variable {guard : Guard} {loader : Loader} {ns : NamespaceId} {w w' : World} {fuel : Nat}

theorem andThen_eq_ok {α : Type} {x : RunM α} {leave : World → World} {a : α}
    (h : x.andThen leave w = .ok a w') : ∃ w₁, x w = .ok a w₁ := by
  rw [RunM.andThen] at h
  cases hx : x w with
  | ok b w₁ =>
      rw [hx] at h
      cases h
      exact ⟨w₁, rfl⟩
  | error halt w₁ =>
      rw [hx] at h
      cases h

theorem withOwnParameters_eq_ok {α : Type} {x : RunM α} {a : α}
    (h : withOwnParameters x w = .ok a w') : ∃ w₁, x { w with dynamic := [] } = .ok a w₁ :=
  andThen_eq_ok h

theorem withOwnProvides_eq_ok {α : Type} {x : RunM α} {a : α}
    (h : withOwnProvides x w = .ok a w') : ∃ w₁, x { w with provides := [] } = .ok a w₁ :=
  andThen_eq_ok h

/-- What is run for a body, in the namespace that is made for it. -/
theorem loggedDeclareModule_eq_ok {id : ModuleId} {body : List Syntax} {run : ModuleRun}
    (hw : w.Guarded guard) (h : Logged.declareModule loader fuel id body w = .ok run w') :
    ∃ ns w₀ pending w₁ w₂, guard.Outside ns ∧ InModule guard ns w₀ ∧
      Logged.firstPass loader ns fuel (body.map (Syntax.introduce ns)) w₀ =
        .ok (pending, run.evaluated) w₁ ∧
      Logged.secondPass loader ns fuel pending w₁ = .ok run.compiled w₂ ∧
      run.declaration.space = ns ∧ run.declaration.body = run.compiled.map (·.code) := by
  obtain ⟨ns, w₀, hnew, hrest⟩ := RunM.bind_eq_ok.1 h
  obtain ⟨_, w₁, hkernel, hown⟩ := RunM.bind_eq_ok.1 hrest
  obtain ⟨hw₀, hns⟩ := (respects_newNamespace id .module).of_run hw hnew
  cases hnew
  have hspace : InModule guard w.spaces.size _ := ⟨hw₀, ⟨_, Array.getElem?_push_size, rfl⟩⟩
  obtain ⟨hw₁, -⟩ := hspace.after (respects_requireKernel _) hkernel
  obtain ⟨_, h⟩ := withOwnParameters_eq_ok hown
  obtain ⟨_, h⟩ := withOwnProvides_eq_ok h
  obtain ⟨⟨pending, evaluated⟩, w₂, hfirst, h⟩ := RunM.bind_eq_ok.1 h
  obtain ⟨compiled, w₃, hsecond, h⟩ := RunM.bind_eq_ok.1 h
  obtain ⟨_, _, hget, h⟩ := RunM.bind_eq_ok.1 h
  cases h
  refine ⟨_, { w₁ with dynamic := [], provides := [] }, pending, w₂, w₃, hns,
    ⟨?_, hw₁.module⟩, hfirst, hsecond, rfl, rfl⟩
  have hdynamic : ({ w₁ with dynamic := [] } : World).Guarded guard :=
    hw₁.guarded.setDynamic fun _ hp => (List.not_mem_nil hp).elim
  exact hdynamic.setProvides fun _ hp => (List.not_mem_nil hp).elim

/-- The definitions of a module write different addresses, if every form is met as what it is when it
is compiled and the second pass comes to no `define` that the first has not found. -/
theorem definitions_nodup (hloader : loader.Obedient guard) (hw : w.Guarded guard) {id : ModuleId}
    {body : List Syntax} {run : ModuleRun}
    (h : Logged.declareModule loader fuel id body w = .ok run w')
    (hlawful : ∀ form ∈ run.forms, form.Lawful loader run.declaration.space) :
    (definitionsOf run.forms).Nodup := by
  obtain ⟨ns, w₀, pending, w₁, w₂, hns, hw₀, hfirst, hsecond, rfl, -⟩ :=
    loggedDeclareModule_eq_ok hw h
  obtain ⟨hevaluated, hcompiled⟩ := List.forall_mem_append.1 hlawful
  obtain ⟨hw₁, -⟩ := firstPass_inModule hloader hns hfirst hw₀
  obtain ⟨addresses, hawaits, hfresh₁⟩ := firstPass_definitions hloader hns hfirst hw₀ hevaluated
  obtain ⟨used, fresh, hused, hfresh₂, hperm⟩ :=
    secondPass_definitions hloader hns hsecond hw₁ hawaits hcompiled
  rw [definitionsOf, ModuleRun.forms, List.flatMap_append]
  refine (List.Perm.append_left _ hperm).nodup_iff.2 ?_
  rw [← List.append_assoc]
  exact (hfresh₁.append hfresh₂).nodup.sublist ((hused.append_left _).append_right _)

end

/-! ## A second definition -/

/-- The module has taken an address for an identifier of the name that was filed as this one is. -/
def DefinedBefore (ns : NamespaceId) (stx : Syntax) (name : String) (w : World) : Prop :=
  stx.symbol? = some name ∧ ∃ first first' w₀ w₁, first.symbol? = some name ∧
    predefine ns first w₀ = .ok first' w₁ ∧ w₁.spaces.IsModule ns ∧ w₁.spaces.Lasts w.spaces ∧
    w.spaces.filingKey ns stx name = w₀.spaces.filingKey ns first name

section

variable {ns : NamespaceId} {w w' : World} {name : String}

theorem RunM.bind_of_ok {α β : Type} {x : RunM α} {f : α → RunM β} {a : α}
    (h : x w = .ok a w') : (x >>= f) w = f a w' := by
  rw [bind_apply, h]

theorem RunM.bind_of_error {α β : Type} {x : RunM α} {f : α → RunM β} {halt : Halt}
    (h : x w = .error halt w') : (x >>= f) w = .error halt w' := by
  rw [bind_apply, h]

/-- No second address is taken for an identifier. -/
theorem DefinedBefore.predefine {stx : Syntax} (h : DefinedBefore ns stx name w) :
    HygienicLisp.predefine ns stx w =
      .error (.error (.atForm (.ambiguous name .duplicateDefinition) stx)) w := by
  obtain ⟨hname, first, first', w₀, w₁, hfirst, hrun, hns, hlasts, hkey⟩ := h
  obtain ⟨d, hd⟩ := held?_of_predefine hfirst hrun hns hlasts hkey
  exact predefine_defined (hlasts.module ns hns) hname hd

/-- The first pass refuses a second `define`. -/
theorem DefinedBefore.predefineForm {form target value : Syntax} (h : DefinedBefore ns target name w')
    (hform : definitionParts form form.subforms w = .ok (target, value) w') :
    Expansion.predefineForm ns form w =
      .error (.error (.atForm (.ambiguous name .duplicateDefinition) target)) w' := by
  have hidentifier : target.isIdentifier = true := by
    rw [Syntax.isIdentifier, h.1]
    rfl
  refine (RunM.bind_of_ok hform).trans ?_
  simp only [hidentifier]
  exact RunM.bind_of_error h.predefine

/-- Expansion refuses a second `define_syntax`. -/
theorem DefinedBefore.core {target : Syntax} (h : DefinedBefore ns target name w)
    (expand : ExpandContext → Syntax → RunM Syntax) (loader : Loader) (form head value : Syntax)
    {context : ExpandContext} (hcontext : context.allowsDefinitions) :
    Expansion.core expand loader ns .defineSyntax form [head, target, value] context w =
      .error (.error (.atForm (.ambiguous name .duplicateDefinition) target)) w := by
  refine (RunM.bind_of_ok (expectDefinitions_eq_ok.2 ⟨hcontext, rfl⟩)).trans ?_
  refine (RunM.bind_of_ok (expectCount_eq_ok.2 ⟨rfl, rfl⟩)).trans ?_
  exact RunM.bind_of_error h.predefine

end

/-- A module is declared as the log says.  Its definitions write different addresses, if every form is
met as what it is when it is compiled and the second pass comes to no `define` that the first has not
found.  Where a definition takes an address, a second one of the same identifier is refused. -/
theorem module_definitions_distinct (fuel : Nat) (id : ModuleId) (body : List Syntax) :
    (∀ loader : Loader, declareModule loader fuel id body =
        (do return (← Logged.declareModule loader fuel id body).declaration)) ∧
    (∀ (depth : Nat) (w : World) (run : ModuleRun) (w' : World), w.Consistent →
      Logged.declareModule (loaderAt depth) fuel id body w = .ok run w' →
      run.declaration.body = run.compiled.map (·.code) ∧
      ((∀ form ∈ run.forms, form.Lawful (loaderAt depth) run.declaration.space) →
        (definitionsOf run.forms).Nodup)) ∧
    ∀ (ns : NamespaceId) (target : Syntax) (name : String) (w : World),
      DefinedBefore ns target name w →
      (∀ (form value : Syntax) (w₀ : World),
        definitionParts form form.subforms w₀ = .ok (target, value) w →
        predefineForm ns form w₀ =
          .error (.error (.atForm (.ambiguous name .duplicateDefinition) target)) w) ∧
      ∀ (expand : ExpandContext → Syntax → RunM Syntax) (loader : Loader)
        (form head value : Syntax) (context : ExpandContext), context.allowsDefinitions →
        core expand loader ns .defineSyntax form [head, target, value] context w =
          .error (.error (.atForm (.ambiguous name .duplicateDefinition) target)) w := by
  refine ⟨fun loader => declareModule_eq loader fuel id body,
    fun depth w run w' hw h => ⟨?_, fun hlawful => ?_⟩, fun ns target name w h => ⟨?_, ?_⟩⟩
  · obtain ⟨_, _, _, _, _, -, -, -, -, -, hbody⟩ := loggedDeclareModule_eq_ok hw.guarded h
    exact hbody
  · exact definitions_nodup (obedient_loaderAt _ depth) hw.guarded h hlawful
  · exact fun form value w₀ hform => h.predefineForm hform
  · exact fun expand loader form head value context => h.core expand loader form head value

/-! ## Two modules -/

/-- A world with the kernel. -/
def kernelWorld : World := ({} : World).after [.start {}]

/-- A form of a module body. -/
def formOf (items : List Syntax) : Syntax := .sexp items none

/-- `(define NAME VALUE)` -/
def definitionOf (name : String) (value : Int64) : Syntax :=
  formOf [.ident "define", .ident name, .atom {} (.int value)]

/-- A module in which `define` occurs on its own, in a `begin` and in what a transformer returns. -/
def smallModule : List Syntax :=
  [formOf [.ident "define_syntax", .ident "two", formOf [.ident "lambda", formOf [.ident "stx"],
      formOf [.ident "quote_syntax", definitionOf "y" 2]]],
    definitionOf "x" 1,
    formOf [.ident "begin", formOf [.ident "two"],
      formOf [.ident "define", formOf [.ident "f", .ident "y"], .ident "x"]]]

/-- A module that imports `define` under the name `d` after it has used it: `(define x 1) (d x 2)`. -/
def lateModule : List Syntax :=
  [definitionOf "x" 1, formOf [.ident "d", .ident "x", .atom {} (.int 2)],
    formOf [.ident "require", formOf [.ident "rename_in", .atom {} (.str "#%kernel"),
      formOf [.ident "define", .ident "d"]]]]

/-- An identifier of the namespace of `emptyModule`. -/
def definedName : Syntax := (Syntax.ident "x").introduce 0

/-- A module that defines nothing. -/
def emptyModule : World where
  spaces := #[{ home := ⟨"/m"⟩, kind := .module }]

/-- `(define x 2)` in the module. -/
def secondDefinition : Syntax := (definitionOf "x" 2).introduce 0

/-- Four definitions at four addresses; a second definition of `x` is refused. -/
theorem smallModule_distinct :
    (∃ run w', Logged.declareModule (loaderAt 0) 30 ⟨"/m"⟩ smallModule kernelWorld = .ok run w' ∧
      (∀ form ∈ run.forms, form.Lawful (loaderAt 0) run.declaration.space) ∧
      definitionsOf run.forms = [0, 1, 2, 3] ∧ (definitionsOf run.forms).Nodup) ∧
    ∃ w, DefinedBefore 0 definedName "x" w ∧
      (∃ value, definitionParts secondDefinition secondDefinition.subforms w =
        .ok (definedName, value) w) ∧
      predefineForm 0 secondDefinition w =
        .error (.error (.atForm (.ambiguous "x" .duplicateDefinition) definedName)) w := by
  obtain ⟨-, hdistinct, hrefused⟩ := module_definitions_distinct 30 ⟨"/m"⟩ smallModule
  constructor
  · have hrun : endsWith (fun run _ => run.forms.all (fun form => endsWith (fun _ _ => true)
        (Watched.expand (lawful form.pending.reserved form.after.spaces) (loaderAt 0)
          run.declaration.space form.fuel 0 .moduleBody form.pending.form form.before)) &&
          definitionsOf run.forms = [0, 1, 2, 3])
        (Logged.declareModule (loaderAt 0) 30 ⟨"/m"⟩ smallModule kernelWorld) := by decide +kernel
    obtain ⟨run, w', hrun, hchecked⟩ := exists_of_endsWith hrun
    obtain ⟨hall, haddresses⟩ := Bool.and_eq_true_iff.1 hchecked
    have hlawful : ∀ form ∈ run.forms, form.Lawful (loaderAt 0) run.declaration.space := by
      intro form hform
      obtain ⟨e, w₁, hwatched, -⟩ := exists_of_endsWith (List.all_eq_true.1 hall form hform)
      rw [FormRun.Lawful, hwatched]
      trivial
    have hkernel : kernelWorld.Consistent := consistent_after _
    exact ⟨run, w', hrun, hlawful, of_decide_eq_true haddresses,
      (hdistinct 0 kernelWorld run w' hkernel hrun).2 hlawful⟩
  · have hfirst : endsWith (fun _ w => (w.spaces[0]?).map (·.kind) = some .module &&
        w.spaces.filingKey 0 definedName "x" = emptyModule.spaces.filingKey 0 definedName "x")
        (predefine 0 definedName emptyModule) := by decide +kernel
    obtain ⟨first, w, hfirst, hchecked⟩ := exists_of_endsWith hfirst
    obtain ⟨hkind, hkey⟩ := Bool.and_eq_true_iff.1 hchecked
    obtain ⟨space, hspace, hkind⟩ := Option.map_eq_some_iff.1 (of_decide_eq_true hkind)
    have hdefined : DefinedBefore 0 definedName "x" w :=
      ⟨rfl, definedName, first, emptyModule, w, rfl, hfirst, ⟨space, hspace, hkind⟩, .refl _,
        of_decide_eq_true hkey⟩
    exact ⟨w, hdefined, ⟨_, rfl⟩, (hrefused 0 definedName "x" w hdefined).1 _ _ _ rfl⟩

/-- The first pass takes `(d x 2)` for an application; the second takes it for a `define` whose
address was taken, and so it finds the address of `x`. -/
theorem lateModule_not_distinct :
    ∃ run w', Logged.declareModule (loaderAt 1) 30 ⟨"/m"⟩ lateModule kernelWorld = .ok run w' ∧
      definitionsOf run.forms = [0, 0] := by
  have hrun : endsWith (fun run _ => definitionsOf run.forms = [0, 0])
      (Logged.declareModule (loaderAt 1) 30 ⟨"/m"⟩ lateModule kernelWorld) := by decide +kernel
  obtain ⟨run, w', hrun, hchecked⟩ := exists_of_endsWith hrun
  exact ⟨run, w', hrun, of_decide_eq_true hchecked⟩

end HygienicLisp
