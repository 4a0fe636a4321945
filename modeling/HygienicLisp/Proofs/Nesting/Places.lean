import HygienicLisp.Proofs.Evaluation.Fuel
import HygienicLisp.Session

/-!
# Places in expansion

The limit of expansion is compared with a depth, which is kept while a form is expanded and begins
anew when partial expansion gives a form back.  `Place` says of a form besides its depth in how many
invocations it is nested, one in what the other has made, and how often depth that invocations had
contributed to was given back on the way.

`Tracked` expands, compiles and runs as the program does and keeps the places of forms.  What is done
where expansion goes one level deeper, and how a transformer is called, are its `Rules`; under the
rules of the program the tracked functions are the functions of the program (`Tracked.evalForm_plain`,
`Tracked.declareModule_plain`).
-/

namespace HygienicLisp

/-- What a form stands in. -/
structure Place where
  /-- The expansions and invocations around the form, as the limit counts them. -/
  depth : Nat := 0
  /-- The invocations that made the form, each from what the one before has made. -/
  nested : Nat := 0
  /-- How often the depth began anew for a form that was made by invocations. -/
  returns : Nat := 0

/-- The two ways to go one level deeper. -/
inductive Descent where
  | expansion
  | invocation

namespace Place

/-- The place one level deeper. -/
def deeper (place : Place) : Descent → Place
  | .expansion => { place with depth := place.depth + 1 }
  | .invocation => { place with depth := place.depth + 1, nested := place.nested + 1 }

/-- The place of a form that is given back: its depth begins anew. -/
def release (place : Place) : Place :=
  { place with
    depth := 0
    returns := if place.depth = 0 ∨ place.nested = 0 then place.returns else place.returns + 1 }

@[simp] theorem depth_deeper (place : Place) (descent : Descent) :
    (place.deeper descent).depth = place.depth + 1 := by
  cases descent <;> rfl

@[simp] theorem depth_release (place : Place) : place.release.depth = 0 := rfl

end Place

/-- What expansion does where it goes one level deeper, and how it calls a transformer. -/
structure Rules where
  descend : Descent → Place → Syntax → RunM Unit
  call : Nat → ObjectId → ObjectId → Procedure → Syntax → RunM Syntax

/-- The rules of the program: the depth is compared with the limit, and a call is an invocation. -/
def Rules.plain : Rules where
  descend _ place form := do
    let _ ← HygienicLisp.descend place.depth form
  call := invoke

/-- A loader that knows the place of the form that declares a module. -/
structure PlacedLoader where
  instantiate : ModuleId → RunM Instance
  declare : Place → ModuleId → List Syntax → RunM Declaration

/-- The loader for the forms at a place. -/
def PlacedLoader.at (loader : PlacedLoader) (place : Place) : Loader :=
  ⟨loader.instantiate, loader.declare place⟩

namespace Tracked

variable (rules : Rules)

/-- Goes one level deeper. -/
def down (descent : Descent) (place : Place) (form : Syntax) : RunM Place := do
  rules.descend descent place form
  return place.deeper descent

/-- `partialExpand`, with the place of what is left. -/
def partialExpand : Nat → Place → Syntax → RunM (Partial × Place)
  | 0, _, _ => RunM.exhausted
  | fuel + 1, place, form => do
    match form.subforms with
    | [] => return (.form form none, place)
    | head :: rest =>
      match headValue? (← getSpaces) head with
      | some (.transformer id procedureId p) =>
        let place ← down rules .invocation place form
        let form ← rules.call fuel id procedureId p form
        partialExpand fuel place form
      | some (.form .begin) => return (.splice rest, place)
      | some (.form core) => return (.form form (some core), place)
      | _ => return (.form form none, place)

section

variable (ns : NamespaceId) (expand : Place → ExpandContext → Syntax → RunM Syntax)

/-- `expandPlain` at a place. -/
def expandPlain (place : Place) (form : Syntax) : RunM Syntax :=
  Expansion.expandPlain (fun _ => expand place) place.depth form

/-- `expandSexp` at a place. -/
def expandSexp (loader : PlacedLoader) : Nat → Place → ExpandContext → Syntax → RunM Syntax
  | 0, _, _, _ => RunM.exhausted
  | fuel + 1, place, context, form => do
    match form.subforms with
    | [] => RunM.failAt form .emptyForm
    | head :: rest =>
      match headValue? (← getSpaces) head with
      | some (.transformer id procedureId p) =>
        let place ← down rules .invocation place form
        let form ← rules.call fuel id procedureId p form
        if form.isSexp then expandSexp loader fuel place context form
        else expandPlain expand place form
      | some (.form f) =>
        Expansion.core (expand place) (loader.at place) ns f form (head :: rest) context
      | _ =>
        return form.rebuildSexp
          (← Expansion.expandEach (expand place) .expression (head :: rest))

end

/-- `expand` at a place. -/
def expand (loader : PlacedLoader) (ns : NamespaceId) :
    Nat → Place → ExpandContext → Syntax → RunM Syntax
  | 0, _, _, _ => RunM.exhausted
  | fuel + 1, place, context, form => do
    let place ← down rules .expansion place form
    RunM.inContext form <|
      if form.isSexp then
        expandSexp rules ns (expand loader ns fuel) loader fuel place context form
      else expandPlain (expand loader ns fuel) place form

/-- `runForm` at a place. -/
def runForm (loader : PlacedLoader) (fuel : Nat) (ns : NamespaceId) (context : ExpandContext)
    (place : Place) (form : Syntax) : RunM Value := do
  let expanded ← expand rules loader ns fuel place context form
  let code ← compile ns expanded
  eval fuel code ⟨ns, none⟩

/-- `firstPass` over forms with their places. -/
def firstPass (loader : PlacedLoader) (ns : NamespaceId) :
    Nat → List (Place × Syntax) → RunM (List (Place × Syntax))
  | 0, _ => RunM.exhausted
  | _ + 1, [] => return []
  | fuel + 1, (place, form) :: queue => do
    match ← partialExpand rules fuel place form with
    | (.splice forms, place) =>
      firstPass loader ns fuel (forms.map (place.release, ·) ++ queue)
    | (.form form (some .define), place) =>
      let form ← Expansion.predefineForm ns form
      let rest ← firstPass loader ns fuel queue
      return (place.release, form) :: rest
    | (.form form (some .defineSyntax), place) =>
      let _ ← runForm rules loader fuel ns .moduleBody place.release form
      firstPass loader ns fuel queue
    | (.form form (some .require), place) =>
      let _ ← expand rules loader ns fuel place.release .moduleBody form
      firstPass loader ns fuel queue
    | (.form form _, place) =>
      let rest ← firstPass loader ns fuel queue
      return (place.release, form) :: rest

/-- `secondPass` over forms with their places. -/
def secondPass (loader : PlacedLoader) (ns : NamespaceId) (fuel : Nat) :
    List (Place × Syntax) → RunM (List Code)
  | [] => return []
  | (place, form) :: rest => do
    let expanded ← expand rules loader ns fuel place .moduleBody form
    let code ← compile ns expanded
    let codes ← secondPass loader ns fuel rest
    return code :: codes

/-- `declareModule` for a body at a place. -/
def declareModule (loader : PlacedLoader) (fuel : Nat) (place : Place) (id : ModuleId)
    (body : List Syntax) : RunM Declaration := do
  let ns ← newNamespace id .module
  requireKernel ns
  withOwnParameters <| withOwnProvides do
    let pending ← firstPass rules loader ns fuel (body.map fun form => (place, form.introduce ns))
    let codes ← secondPass rules loader ns fuel pending
    return ⟨id, ns, codes, (← get).provides⟩

/-- `loadDeclaration`; no invocation has made the text of a module. -/
def loadDeclaration (loader : PlacedLoader) (fuel : Nat) (id : ModuleId) : RunM Declaration := do
  match (← get).runtime.sources.find? fun s => s.1 = id with
  | none => RunM.fail (.of (.moduleNotFound id.path))
  | some (_, text) =>
    let source : Source := ⟨id.path, text⟩
    RunM.mapError (Error.withSource source) do
      let body ← RunM.ofExcept source.read
      declareModule rules loader fuel {} id body

/-- `loaderAt`, which keeps the places of the bodies that are declared. -/
def loaderAt : Nat → PlacedLoader
  | 0 => ⟨fun _ => RunM.exhausted, fun _ _ _ => RunM.exhausted⟩
  | fuel + 1 =>
    { instantiate := fun id =>
        instantiateWith id (loadDeclaration rules (loaderAt fuel) fuel id) (runBody fuel)
      declare := fun place id body =>
        declareModule rules (loaderAt fuel) fuel place.release id body }

/-- `evalQueue` over forms with their places. -/
def evalQueue (loader : PlacedLoader) (ns : NamespaceId) :
    Nat → Value → List (Place × Syntax) → RunM Value
  | 0, _, _ => RunM.exhausted
  | _ + 1, result, [] => return result
  | fuel + 1, result, (place, form) :: queue => do
    match ← partialExpand rules fuel place form with
    | (.splice forms, place) =>
      evalQueue loader ns fuel result (forms.map (place.release, ·) ++ queue)
    | (.form form _, place) =>
      let v ← runForm rules loader fuel ns .topLevel place.release form
      evalQueue loader ns fuel v queue

/-- `evalForm`. -/
def evalForm (fuel : Nat) (ns : NamespaceId) (form : Syntax) : RunM Value :=
  evalQueue rules (loaderAt rules fuel) ns fuel .void [({}, form.introduce ns)]

end Tracked

/-! ## Under the rules of the program -/

theorem descend_bind {α : Type} (depth : Nat) (form : Syntax) (f : Nat → RunM α) :
    descend depth form >>= f = (do let _ ← descend depth form; f (depth + 1)) := by
  funext w
  rw [RunM.bind_apply, RunM.bind_apply]
  simp only [descend, RunM.bind_apply, RunM.get_apply]
  cases w.runtime.config.maxExpansionDepth with
  | none => rfl
  | some limit => by_cases h : limit < depth + 1 <;> simp [h]

namespace Tracked

theorem down_plain_bind {α : Type} {descent : Descent} {place : Place} {form : Syntax}
    {f : Place → RunM α} {g : Nat → RunM α}
    (h : f (place.deeper descent) = g (place.deeper descent).depth) :
    down .plain descent place form >>= f = descend place.depth form >>= g := by
  rw [descend_bind _ _ g, ← Place.depth_deeper place descent, ← h]
  simp only [down, Rules.plain, bind_assoc, pure_bind]

theorem partialExpand_plain (fuel : Nat) (place : Place) (form : Syntax) :
    (do return (← partialExpand .plain fuel place form).1) =
      HygienicLisp.partialExpand fuel place.depth form := by
  induction fuel generalizing place form with
  | zero => rfl
  | succ fuel ih =>
      rw [partialExpand, HygienicLisp.partialExpand]
      cases form.subforms with
      | nil => rfl
      | cons head rest =>
          simp only [bind_assoc]
          refine bind_congr fun spaces => ?_
          match headValue? spaces head with
          | some (.transformer id procedureId p) =>
              dsimp only
              rw [bind_assoc]
              refine down_plain_bind ?_
              rw [bind_assoc]
              exact bind_congr fun form => ih _ form
          | some (.form f) => cases f <;> rfl
          | none | some .void | some (.atom _) | some (.group _ _) | some (.record _ _)
          | some (.stx _) | some (.procedure _ _) => rfl

/-- Partial expansion of a form whose depth begins anew, and what follows it. -/
theorem partialExpand_plain_bind {α : Type} (fuel : Nat) (place : Place) (hplace : place.depth = 0)
    (form : Syntax) {f : Partial × Place → RunM α} {g : Partial → RunM α}
    (h : ∀ part place, f (part, place) = g part) :
    partialExpand .plain fuel place form >>= f = HygienicLisp.partialExpand fuel 0 form >>= g := by
  rw [← hplace, ← partialExpand_plain, bind_assoc]
  exact bind_congr fun found => h found.1 found.2

theorem map_snd_released (place : Place) (forms : List Syntax) (queue : List (Place × Syntax)) :
    (forms.map (place.release, ·) ++ queue).map (·.2) = forms ++ queue.map (·.2) := by
  simp [Function.comp_def]

theorem depth_released {queue : List (Place × Syntax)} (h : ∀ item ∈ queue, item.1.depth = 0)
    (forms : List Syntax) (place : Place) :
    ∀ item ∈ forms.map (place.release, ·) ++ queue, item.1.depth = 0 :=
  List.forall_mem_append.2 ⟨List.forall_mem_map.2 fun _ _ => rfl, h⟩

section

variable {ns : NamespaceId} {loader : Loader} {placed : PlacedLoader}
  (hloader : ∀ place, placed.at place = loader)
include hloader

theorem expandSexp_plain {expand : Place → ExpandContext → Syntax → RunM Syntax}
    {expand' : Nat → ExpandContext → Syntax → RunM Syntax}
    (hexpand : ∀ place, expand place = expand' place.depth) (fuel : Nat) (place : Place)
    (context : ExpandContext) (form : Syntax) :
    expandSexp .plain ns expand placed fuel place context form =
      Expansion.expandSexp ns expand' loader fuel place.depth context form := by
  induction fuel generalizing place form with
  | zero => rfl
  | succ fuel ih =>
      rw [expandSexp, Expansion.expandSexp]
      cases form.subforms with
      | nil => rfl
      | cons head rest =>
          refine bind_congr fun spaces => ?_
          match headValue? spaces head with
          | some (.transformer id procedureId p) =>
              refine down_plain_bind (bind_congr fun form => ?_)
              rw [ih, expandPlain, hexpand]
              rfl
          | some (.form f) => simp only [hloader, hexpand]
          | none | some .void | some (.atom _) | some (.group _ _) | some (.record _ _)
          | some (.stx _) | some (.procedure _ _) => simp only [hexpand]

theorem expand_plain (fuel : Nat) (place : Place) :
    expand .plain placed ns fuel place = Expansion.expand loader ns fuel place.depth := by
  induction fuel generalizing place with
  | zero => rfl
  | succ fuel ih =>
      funext context form
      rw [expand, Expansion.expand]
      refine down_plain_bind ?_
      rw [expandSexp_plain hloader ih, expandPlain, ih]
      rfl

theorem runForm_plain (fuel : Nat) (context : ExpandContext) (place : Place)
    (hplace : place.depth = 0) (form : Syntax) :
    runForm .plain placed fuel ns context place form =
      HygienicLisp.runForm loader fuel ns context form := by
  rw [runForm, expand_plain hloader, hplace]
  rfl

theorem firstPass_plain_bind {α : Type} (fuel : Nat) (queue : List (Place × Syntax))
    (hqueue : ∀ item ∈ queue, item.1.depth = 0) {f : List (Place × Syntax) → RunM α}
    {g : List Syntax → RunM α}
    (h : ∀ pending, (∀ item ∈ pending, item.1.depth = 0) → f pending = g (pending.map (·.2))) :
    firstPass .plain placed ns fuel queue >>= f =
      HygienicLisp.firstPass loader ns fuel (queue.map (·.2)) >>= g := by
  induction fuel generalizing queue f g with
  | zero => rfl
  | succ fuel ih =>
      cases queue with
      | nil =>
          rw [firstPass, pure_bind, h [] (by simp)]
          rfl
      | cons item queue =>
          obtain ⟨place, form⟩ := item
          obtain ⟨hplace, hqueue⟩ := List.forall_mem_cons.1 hqueue
          rw [firstPass, List.map_cons, HygienicLisp.firstPass, bind_assoc, bind_assoc]
          -- What is left to the second pass is left by both.
          have hleft (form : Syntax) (place : Place) :
              (do let rest ← firstPass .plain placed ns fuel queue
                  f ((place.release, form) :: rest)) =
                (do let rest ← HygienicLisp.firstPass loader ns fuel (queue.map (·.2))
                    g (form :: rest)) := by
            refine ih queue hqueue fun pending hpending => ?_
            rw [h _ (List.forall_mem_cons.2 ⟨rfl, hpending⟩), List.map_cons]
          refine partialExpand_plain_bind fuel place hplace form fun part place => ?_
          cases part with
          | splice forms =>
              dsimp only
              rw [← map_snd_released place]
              exact ih _ (depth_released hqueue forms place) h
          | form form core =>
              cases core with
              | none => simpa only [bind_assoc, pure_bind] using hleft form place
              | some f =>
                  cases f with
                  | define =>
                      simp only [bind_assoc, pure_bind]
                      exact bind_congr fun form => hleft form place
                  | defineSyntax =>
                      simp only [bind_assoc, runForm_plain hloader fuel .moduleBody place.release rfl]
                      exact bind_congr fun _ => ih queue hqueue h
                  | require =>
                      simp only [bind_assoc, expand_plain hloader, Place.depth_release]
                      exact bind_congr fun _ => ih queue hqueue h
                  | _ => simpa only [bind_assoc, pure_bind] using hleft form place

theorem secondPass_plain (fuel : Nat) (pending : List (Place × Syntax))
    (hpending : ∀ item ∈ pending, item.1.depth = 0) :
    secondPass .plain placed ns fuel pending =
      HygienicLisp.secondPass loader ns fuel (pending.map (·.2)) := by
  induction pending with
  | nil => rfl
  | cons item rest ih =>
      obtain ⟨place, form⟩ := item
      obtain ⟨hplace, hrest⟩ := List.forall_mem_cons.1 hpending
      rw [secondPass, List.map_cons, HygienicLisp.secondPass, expand_plain hloader, hplace, ih hrest]

theorem declareModule_plain_of_loader (fuel : Nat) (place : Place) (hplace : place.depth = 0)
    (id : ModuleId) (body : List Syntax) :
    declareModule .plain placed fuel place id body =
      HygienicLisp.declareModule loader fuel id body := by
  refine bind_congr fun ns => bind_congr fun _ => ?_
  refine congrArg (fun x => withOwnParameters (withOwnProvides x)) ?_
  have hbody : (body.map fun form => (place, form.introduce ns)).map (·.2) =
      body.map (Syntax.introduce ns) := by
    rw [List.map_map]
    rfl
  rw [← hbody]
  refine firstPass_plain_bind hloader fuel _ (List.forall_mem_map.2 fun _ _ => hplace)
    fun pending hpending => ?_
  rw [secondPass_plain hloader fuel pending hpending]

theorem evalQueue_plain (fuel : Nat) (result : Value) (queue : List (Place × Syntax))
    (hqueue : ∀ item ∈ queue, item.1.depth = 0) :
    evalQueue .plain placed ns fuel result queue =
      HygienicLisp.evalQueue loader ns fuel result (queue.map (·.2)) := by
  induction fuel generalizing result queue with
  | zero => rfl
  | succ fuel ih =>
      cases queue with
      | nil => rfl
      | cons item queue =>
          obtain ⟨place, form⟩ := item
          obtain ⟨hplace, hqueue⟩ := List.forall_mem_cons.1 hqueue
          rw [evalQueue, List.map_cons, HygienicLisp.evalQueue]
          refine partialExpand_plain_bind fuel place hplace form fun part place => ?_
          cases part with
          | splice forms =>
              dsimp only
              rw [← map_snd_released place]
              exact ih result _ (depth_released hqueue forms place)
          | form form core =>
              dsimp only
              rw [runForm_plain hloader fuel .topLevel place.release rfl]
              exact bind_congr fun v => ih v queue hqueue

end

theorem loaderAt_plain (fuel : Nat) (place : Place) :
    (loaderAt .plain fuel).at place = HygienicLisp.loaderAt fuel := by
  induction fuel generalizing place with
  | zero => rfl
  | succ fuel ih =>
      have hdeclare (place : Place) (hplace : place.depth = 0) (id : ModuleId)
          (body : List Syntax) : declareModule .plain (loaderAt .plain fuel) fuel place id body =
            HygienicLisp.declareModule (HygienicLisp.loaderAt fuel) fuel id body :=
        declareModule_plain_of_loader ih fuel place hplace id body
      rw [HygienicLisp.loaderAt, loaderAt, PlacedLoader.at]
      congr 1
      · funext id
        refine congrArg (fun load => instantiateWith id load (runBody fuel)) (bind_congr fun w => ?_)
        generalize w.runtime.sources.find? _ = found
        obtain _ | ⟨_, text⟩ := found
        · rfl
        · exact congrArg (RunM.mapError (Error.withSource ⟨id.path, text⟩))
            (bind_congr fun body => hdeclare {} rfl id body)
      · funext id body
        exact hdeclare place.release rfl id body

/-- Under the rules of the program a tracked evaluation is the evaluation of the program. -/
theorem evalForm_plain (fuel : Nat) (ns : NamespaceId) (form : Syntax) :
    evalForm .plain fuel ns form = HygienicLisp.evalForm fuel ns form := by
  rw [evalForm, evalQueue_plain (loaderAt_plain fuel) fuel .void _ (by simp)]
  rfl

/-- Under the rules of the program a tracked declaration is the declaration of the program. -/
theorem declareModule_plain (fuel : Nat) (id : ModuleId) (body : List Syntax) :
    declareModule .plain (loaderAt .plain fuel) fuel {} id body =
      HygienicLisp.declareModule (HygienicLisp.loaderAt fuel) fuel id body :=
  declareModule_plain_of_loader (loaderAt_plain fuel) fuel {} rfl id body

end Tracked

end HygienicLisp
