import HygienicLisp.Proofs.Modules.DependencyGraphs

/-!
# Cycles are found exactly

The procedure that instantiates the modules of a graph is a depth-first traversal: the stack of
modules being loaded is a path of dependencies whose modules have no instance, and an instance is
added when the instances of all dependencies are there.  So the new instances are always settled
(`DependencyGraph.Settled`), and a failure has found a path that comes back to itself
(`DependencyGraph.Stuck`).  The path is never longer than the graph, which bounds the steps.

Main statement: `cycles_found`.
-/

namespace HygienicLisp

open Relation

/-- Whether a runner is called on the body of the module. -/
def Moment.starts (id : ModuleId) (m : Moment) : Bool :=
  match m.event with
  | .begins (.run _) => m.id = id
  | _ => false

/-- How many runners have been called on the body of the module. -/
def Account.starts (s : Account) (id : ModuleId) : Nat := s.moments.countP (·.starts id)

/-- As many runners have been called since then as have ended well. -/
def Account.Balanced (s s' : Account) : Prop :=
  ∀ id, s'.starts id + s.successes id = s.starts id + s'.successes id

theorem Account.Balanced.trans {s s' s'' : Account} (h : s.Balanced s') (h' : s'.Balanced s'') :
    s.Balanced s'' := by
  intro id
  have hfirst := h id
  have hsecond := h' id
  omega

/-! ## One module is entered -/

section Entering

variable {s s' : Account} {id other : ModuleId} {active : List ModuleId} {supplier : Supplier}

@[simp] theorem Account.starts_update (f : World → World) :
    (s.update f).starts id = s.starts id := rfl

@[simp] theorem Account.successes_update (f : World → World) :
    (s.update f).successes id = s.successes id := rfl

theorem Account.starts_note (event : Event) :
    (s.note id active event).starts other
      = s.starts other + if Moment.starts other ⟨id, active, event, s.world⟩ then 1 else 0 := by
  rw [starts, note, List.countP_append, List.countP_singleton, starts]

theorem Account.successes_note (event : Event) :
    (s.note id active event).successes other
      = s.successes other + if Moment.succeeds other ⟨id, active, event, s.world⟩ then 1 else 0 := by
  rw [successes, note, List.countP_append, List.countP_singleton, successes]

theorem Noted.ofRun_ok {α : Type} {x : RunM α} {a : α} {w : World} (h : x s.world = .ok a w) :
    ofRun x s = .ok a (s.update fun _ => w) := by
  rw [ofRun, h]
  rfl

/-- A supplied module gets its declaration, and no instance is added. -/
theorem noted_declarationOf (supplier : Supplier) (active : List ModuleId)
    (hi : s.world.registry.instance? id = none) :
    ∃ d s', Noted.declarationOf id active
        (Noted.declaring id (Noted.ofRun (supplier.load id))) s = .ok d s' ∧
      s'.world.registry.declaration? id = some d ∧
      s'.world.loading = s.world.loading ∧
      (∀ x, s'.world.registry.instance? x = s.world.registry.instance? x) ∧
      ∀ x, s'.starts x = s.starts x ∧ s'.successes x = s.successes x := by
  cases hd : s.world.registry.declaration? id with
  | some d =>
      refine ⟨d, s, ?_, hd, rfl, fun _ => rfl, fun _ => ⟨rfl, rfl⟩⟩
      simp only [Noted.declarationOf, hd]
  | none =>
      obtain ⟨d, w, hload, rfl⟩ := supplier.succeeds id s.world.countLoad
      have hspares := supplier.spares d.id s.world.countLoad
      rw [RunM.leaves, hload] at hspares
      obtain ⟨hregistry, hloading⟩ : w.registry = s.world.registry ∧ w.loading = s.world.loading :=
        hspares
      -- The account around the call of the loader.
      let begun := (s.update .countLoad).note d.id active (.begins .load)
      let loaded := (begun.update fun _ => w).note d.id active (.ends .load true)
      have hdeclaring : Noted.declaring d.id (Noted.ofRun (supplier.load d.id)) begun
          = .ok d (begun.update fun _ => w) := by
        rw [Noted.declaring, Noted.bind_apply, Noted.ofRun_ok hload]
        rfl
      have hdeclare : loaded.world.registry.declare d = .ok (w.registry.record d) :=
        Registry.declare_of_none (hregistry ▸ hi)
      refine ⟨d, loaded.update (·.setRegistry (w.registry.record d)), ?_,
        Registry.declaration?_record.trans (if_pos rfl), hloading, fun x => ?_, fun x => ?_⟩
      · simp only [Noted.declarationOf, hd, Noted.during, begun] at hdeclaring hdeclare ⊢
        simp only [hdeclaring]
        simp only [loaded, begun] at hdeclare
        simp only [hdeclare]
        rfl
      · exact congrArg (·.instance? x) hregistry
      · simp [loaded, begun, Account.starts_note, Account.successes_note, Moment.starts,
          Moment.succeeds]

end Entering

namespace DependencyGraph

variable {graph : DependencyGraph} {supplier : Supplier} {r₀ : Registry} {s s' : Account}
  {id : ModuleId} {active : List ModuleId} {fuel : Nat}

/-- A module without an instance is entered with an account in which its runner has been called,
and left by adding an instance or not. -/
theorem noted_visit_pending (graph : DependencyGraph) (supplier : Supplier) (fuel : Nat)
    (active : List ModuleId) (hi : s.world.registry.instance? id = none)
    (hid : id ∉ s.world.loading) :
    ∃ d b, b.world.registry.declaration? id = some d ∧
      b.world.loading = s.world.loading ++ [id] ∧
      (∀ x, b.world.registry.instance? x = s.world.registry.instance? x) ∧
      (∀ x, b.starts x = s.starts x + (if id = x then 1 else 0) ∧
        b.successes x = s.successes x) ∧
      match (requestEach (graph.visit supplier fuel) (graph.of id)).noted (active ++ [id]) b with
      | .ok _ s' => ∃ f, (graph.visit supplier (fuel + 1) id).noted active s
            = .ok (.ofDeclaration d) f ∧
          f.world.registry = s'.world.registry.addInstance (.ofDeclaration d) ∧
          ∀ x, f.starts x = s'.starts x ∧ f.successes x = s'.successes x + if id = x then 1 else 0
      | .error halt s' => ∃ f, (graph.visit supplier (fuel + 1) id).noted active s = .error halt f ∧
          f.world.registry = s'.world.registry ∧ s'.moments ⊆ f.moments := by
  obtain ⟨d, loaded, hdeclaration, hd, hloading, hinstances, hcounts⟩ := noted_declarationOf
    (s := s.update (·.setLoading (s.world.loading ++ [id]))) supplier (active ++ [id]) hi
  obtain ⟨b, hb⟩ : ∃ b : Account,
      b = (loaded.update .countRun).note id (active ++ [id]) (.begins (.run d)) := ⟨_, rfl⟩
  refine ⟨d, b, hb ▸ hd, hb ▸ hloading, hb ▸ hinstances, fun x => ?_, ?_⟩
  · obtain ⟨hstarts, hsuccesses⟩ := hcounts x
    rw [hb, Account.starts_note, Account.successes_note]
    simp only [Account.starts_update, Account.successes_update, Moment.starts, Moment.succeeds,
      decide_eq_true_eq] at hstarts hsuccesses ⊢
    exact ⟨by rw [hstarts], by rw [hsuccesses]; rfl⟩
  · simp only [visit, Script.noted, Noted.instantiateWith, hi, enterLoading_of_notMem hid,
      hdeclaration, Noted.during, ← hb]
    cases (requestEach (graph.visit supplier fuel) (graph.of id)).noted (active ++ [id]) b with
    | ok _ s' =>
        refine ⟨_, rfl, rfl, fun x => ?_⟩
        simp [Account.starts_note, Account.successes_note, Moment.starts, Moment.succeeds]
    | error halt s' =>
        refine ⟨_, rfl, rfl, ?_⟩
        intro m hm
        simp [Account.note, Account.update, hm]

/-! ## The traversal -/

/-- A path of modules without an instance has come back to itself. -/
def Stuck (graph : DependencyGraph) (first : Option ModuleId) (halt : Halt) (s : Account) : Prop :=
  ∃ outside a inside w,
    (outside ++ a :: inside).head? = first ∧
    (outside ++ a :: inside ++ [a]).IsChain (fun a b => b ∈ graph.of a) ∧
    (∀ x ∈ outside ++ a :: inside, s.world.registry.instance? x = none) ∧
    halt = .error (.of (.contract (.dependencyCycle (a :: inside ++ [a])))) ∧
    ⟨a, outside ++ a :: inside, .answers w .cyclic, w⟩ ∈ s.moments

/-- Where the traversal is: the stack is a path of modules without an instance, and the new
instances are settled. -/
structure Underway (graph : DependencyGraph) (r₀ : Registry) (active : List ModuleId) (s : Account) :
    Prop where
  stack : s.world.loading = active
  distinct : active.Nodup
  pending : ∀ x ∈ active, s.world.registry.instance? x = none
  grows : ∀ x, s.world.registry.instance? x = none → r₀.instance? x = none
  settled : graph.Settled r₀ s.world.registry

theorem Underway.next (h : graph.Underway r₀ active s) (hpassage : Passage [] s.world.loading s s')
    (hsettled : graph.Settled r₀ s'.world.registry) : graph.Underway r₀ active s' where
  stack := hpassage.loading.trans h.stack
  distinct := h.distinct
  pending := by
    intro x hx
    rw [(hpassage.busy x (h.stack ▸ hx)).1]
    exact h.pending x hx
  grows x hx := h.grows x (hpassage.keeps.none_of_none x hx)
  settled := hsettled

theorem Underway.passage (h : graph.Underway r₀ active s) {α : Type} (x : Script α) :
    Passage [] s.world.loading s ((x.noted active).leaves s) :=
  x.passes [] active s h.stack (h.stack ▸ h.distinct)

/-- What a visit with the given fuel comes to, wherever the traversal is. -/
def VisitsWell (graph : DependencyGraph) (supplier : Supplier) (r₀ : Registry) (fuel : Nat) : Prop :=
  ∀ active id s, graph.Underway r₀ active s →
    (active ++ [id]).IsChain (fun a b => b ∈ graph.of a) → graph.length < fuel + active.length →
    match (graph.visit supplier fuel id).noted active s with
    | .ok i s' => s'.world.registry.instance? id = some i ∧
        graph.Settled r₀ s'.world.registry ∧ s.Balanced s'
    | .error halt s' => graph.Stuck (active ++ [id]).head? halt s'

/-- The dependencies of the module entered last are visited in order. -/
theorem VisitsWell.each (h : graph.VisitsWell supplier r₀ fuel) (hne : active ≠ [])
    (hfuel : graph.length < fuel + active.length) (deps : List ModuleId)
    (hdeps : ∀ dep ∈ deps, (active ++ [dep]).IsChain fun a b => b ∈ graph.of a)
    (hs : graph.Underway r₀ active s) :
    match (requestEach (graph.visit supplier fuel) deps).noted active s with
    | .ok _ s' => graph.Underway r₀ active s' ∧ s.Balanced s' ∧
        ∀ dep ∈ deps, s'.world.registry.instance? dep ≠ none
    | .error halt s' => graph.Stuck active.head? halt s' := by
  induction deps generalizing s with
  | nil => exact ⟨hs, fun _ => rfl, by simp⟩
  | cons dep rest ih =>
      obtain ⟨hdep, hrest⟩ := List.forall_mem_cons.1 hdeps
      -- The visit of `dep` leaves the account underway, so the rest starts from a fit account.
      have hvisit := h active dep s hs hdep hfuel
      have hpassage := hs.passage (graph.visit supplier fuel dep)
      rw [requestEach, Script.noted, Noted.bind_apply]
      rw [Noted.leaves] at hpassage
      cases hrun : (graph.visit supplier fuel dep).noted active s with
      | error halt s' =>
          rw [hrun] at hvisit
          rwa [List.head?_append_of_ne_nil _ hne] at hvisit
      | ok i s' =>
          rw [hrun] at hvisit hpassage
          obtain ⟨hi, hsettled, hbalanced⟩ := hvisit
          have hs' := hs.next hpassage hsettled
          have hlater := ih hrest hs'
          have hpassage' := hs'.passage (requestEach (graph.visit supplier fuel) rest)
          rw [Noted.leaves] at hpassage'
          dsimp only
          cases hrun' : (requestEach (graph.visit supplier fuel) rest).noted active s' with
          | error halt s'' =>
              rw [hrun'] at hlater
              exact hlater
          | ok _ s'' =>
              rw [hrun'] at hlater hpassage'
              obtain ⟨hs'', hbalanced', hinstances⟩ := hlater
              refine ⟨hs'', hbalanced.trans hbalanced', List.forall_mem_cons.2 ⟨?_, hinstances⟩⟩
              rw [(hpassage'.keeps.instances hi).1]
              exact Option.some_ne_none i

theorem Settled.congr {r r' : Registry} (h : graph.Settled r₀ r)
    (hr : ∀ x, r'.instance? x = r.instance? x) : graph.Settled r₀ r' := by
  refine ⟨fun {a b} ha ha' hdep => ?_, fun {a} ha => ?_⟩
  · rw [hr] at ha' ⊢
    exact h.closed ha ha' hdep
  · rw [hr] at ha
    exact h.acyclic ha

theorem Underway.enter (h : graph.Underway r₀ active s)
    (hi : s.world.registry.instance? id = none) (hid : id ∉ active)
    (hloading : s'.world.loading = s.world.loading ++ [id])
    (hinstances : ∀ x, s'.world.registry.instance? x = s.world.registry.instance? x) :
    graph.Underway r₀ (active ++ [id]) s' where
  stack := h.stack ▸ hloading
  distinct := by
    rw [← List.concat_eq_append]
    exact List.Nodup.concat hid h.distinct
  pending := by
    intro x hx
    rw [hinstances]
    obtain hx | rfl := List.mem_append.1 hx |>.imp_right List.mem_singleton.1
    · exact h.pending x hx
    · exact hi
  grows := by
    intro x hx
    exact h.grows x (hinstances x ▸ hx)
  settled := h.settled.congr hinstances

/-- A module on the stack closes a cycle. -/
theorem stuck_of_mem (supplier : Supplier) (fuel : Nat) (hs : graph.Underway r₀ active s) (hid : id ∈ active)
    (hpath : (active ++ [id]).IsChain fun a b => b ∈ graph.of a)
    (hi : s.world.registry.instance? id = none) :
    ∃ halt s', (graph.visit supplier (fuel + 1) id).noted active s = .error halt s' ∧
      graph.Stuck (active ++ [id]).head? halt s' := by
  obtain ⟨outside, inside, hactive, hcycle⟩ := enterLoading_of_mem hid
  have hvisit : (graph.visit supplier (fuel + 1) id).noted active s
      = .error (.error (.of (.contract (.dependencyCycle (id :: inside ++ [id])))))
          (s.note id active (.answers s.world .cyclic)) := by
    simp only [visit, Script.noted, Noted.instantiateWith, hi, hs.stack, hcycle]
    rw [← hs.stack]
    rfl
  refine ⟨_, _, hvisit, outside, id, inside, s.world, ?_, hactive ▸ hpath, ?_, rfl, ?_⟩
  · rw [← hactive, List.head?_append_of_ne_nil _ (List.ne_nil_of_mem hid)]
  · rw [← hactive]
    exact hs.pending
  · rw [← hactive]
    exact List.mem_append_right _ List.mem_cons_self

/-- A visit with enough fuel finds an instance or a cycle. -/
theorem visitsWell (graph : DependencyGraph) (supplier : Supplier) (r₀ : Registry) (fuel : Nat) :
    graph.VisitsWell supplier r₀ fuel := by
  induction fuel with
  | zero =>
      intro active id s hs hpath hfuel
      have hlength := length_path hpath hs.distinct
      omega
  | succ fuel ih =>
      intro active id s hs hpath hfuel
      cases hi : s.world.registry.instance? id with
      | some i =>
          simp only [visit, Script.noted, Noted.instantiateWith, hi]
          refine ⟨hi, hs.settled, fun x => ?_⟩
          simp [Account.starts_note, Account.successes_note, Moment.starts, Moment.succeeds]
      | none =>
          by_cases hid : id ∈ active
          · obtain ⟨halt, s', hvisit, hstuck⟩ :=
              stuck_of_mem supplier fuel hs hid hpath hi
            rw [hvisit]
            exact hstuck
          · obtain ⟨d, b, hd, hloading, hinstances, hcounts, hvisit⟩ :=
              noted_visit_pending graph supplier fuel active hi (hs.stack.symm ▸ hid)
            have hb : graph.Underway r₀ (active ++ [id]) b := hs.enter hi hid hloading hinstances
            -- The module is pushed, which makes up for the step of fuel that the visit has used.
            have heach := ih.each (by simp) (by simp; omega) (graph.of id) ?_ hb
            · cases hrun : (requestEach (graph.visit supplier fuel) (graph.of id)).noted
                  (active ++ [id]) b with
              | error halt s' =>
                  rw [hrun] at hvisit heach
                  obtain ⟨f, hf, hregistry, hmoments⟩ := hvisit
                  rw [hf]
                  obtain ⟨outside, a, inside, w, hfirst, hchain, hnone, rfl, hm⟩ := heach
                  refine ⟨outside, a, inside, w, hfirst, hchain, ?_, rfl, hmoments hm⟩
                  rw [hregistry]
                  exact hnone
              | ok _ s' =>
                  rw [hrun] at hvisit heach
                  obtain ⟨f, hf, hregistry, hfinal⟩ := hvisit
                  obtain ⟨hs', hbalanced, hdeps⟩ := heach
                  rw [hf]
                  have hid' : (Instance.ofDeclaration d).id = id := Registry.id_of_declaration? hd
                  have hadded (x : ModuleId) : f.world.registry.instance? x
                      = if id = x then some (.ofDeclaration d) else s'.world.registry.instance? x := by
                    rw [hregistry, Registry.instance?_addInstance, hid']
                  refine ⟨(hadded id).trans (if_pos rfl), hs'.settled.add id (fun x => ?_)
                    (hs'.pending id (by simp)) hdeps, fun x => ?_⟩
                  · rw [hadded]
                    by_cases hx : id = x <;> simp [hx, eq_comm]
                  · have hbegun := hcounts x
                    have hbody := hbalanced x
                    have hended := hfinal x
                    omega
            · intro dep hdep
              rw [List.isChain_append]
              refine ⟨hpath, .singleton dep, ?_⟩
              simpa using hdep

/-- A path that has come back to itself is a way to a cycle. -/
theorem Stuck.cycleFrom {halt : Halt} (h : graph.Stuck (some id) halt s)
    (hgrows : ∀ x, s.world.registry.instance? x = none → r₀.instance? x = none) :
    graph.CycleFrom r₀ id := by
  obtain ⟨outside, a, inside, w, hfirst, hchain, hnone, -, -⟩ := h
  have hpending : (outside ++ a :: inside ++ [a]).IsChain (graph.Pending r₀) := by
    refine isChain_pending hchain fun x hx => hgrows x (hnone x ?_)
    obtain hx | rfl := List.mem_append.1 hx |>.imp_right List.mem_singleton.1
    · exact hx
    · exact List.mem_append_right _ List.mem_cons_self
  refine ⟨a, ?_, transGen_of_isChain inside ?_⟩
  · cases outside with
    | nil =>
        obtain rfl : a = id := by simpa using hfirst
        exact .refl
    | cons b outside =>
        obtain rfl : b = id := by simpa using hfirst
        refine (transGen_of_isChain outside ?_).to_reflTransGen
        rw [List.append_assoc] at hpending
        exact (List.isChain_split.1 hpending).1
  · rw [List.append_assoc] at hpending
    exact hpending.right_of_append

/-- Cycles are found exactly.  Let a module of a graph be requested while no module is being
loaded, whatever instances there are, and let the loader always succeed.  A number of steps
that depends on the size of the graph alone is enough, and more of them make no difference.  The
request succeeds just if no cycle can be reached through modules without an instance, and then all
modules that can be reached so have been run once.  Otherwise the failure lists a cycle of the
graph; the modules on the path to it have no instance, and those whose run was over have one.
Either way the instances from before are kept and no module is left on the stack. -/
theorem cycles_found (graph : DependencyGraph) (supplier : Supplier) (w : World) (id : ModuleId)
    (extra : Nat) :
    let start : World := { w with loading := [] }
    let steps := graph.length + 1
    graph.instantiateBy supplier (steps + extra) id start
        = graph.instantiateBy supplier steps id start ∧
      match (graph.visit supplier steps id).noted [] ⟨start, []⟩ with
      | .ok i s => graph.instantiateBy supplier steps id start = .ok i s.world ∧
          ¬ graph.CycleFrom w.registry id ∧
          s.world.registry.instance? id = some i ∧
          (w.registry.instance? id = none → ∀ x, ReflTransGen (graph.Pending w.registry) id x →
            s.world.registry.instance? x ≠ none ∧ s.starts x = 1 ∧ s.successes x = 1) ∧
          w.registry.Keeps s.world.registry ∧ s.world.loading = []
      | .error halt s => graph.instantiateBy supplier steps id start = .error halt s.world ∧
          graph.CycleFrom w.registry id ∧ graph.Stuck (some id) halt s ∧
          (∀ x, s.successes x ≠ 0 → s.world.registry.instance? x ≠ none) ∧
          w.registry.Keeps s.world.registry ∧ s.world.loading = [] := by
  intro start steps
  have hs : graph.Underway w.registry [] ⟨start, []⟩ :=
    ⟨rfl, List.nodup_nil, by simp, fun _ h => h, .refl graph w.registry⟩
  have hvisit := visitsWell graph supplier w.registry steps [] id _ hs (.singleton id)
    (by simp [steps])
  have hpassage := hs.passage (graph.visit supplier steps id)
  have houtcome : Noted.outcome ((graph.visit supplier steps id).noted [] ⟨start, []⟩)
      = graph.instantiateBy supplier steps id start := by
    rw [← run_visit]
    exact (graph.visit supplier steps id).accounts [] ⟨start, []⟩
  have hmore := graph.approximates_instantiateBy supplier (Nat.le_add_right steps extra) id start
  rw [Noted.leaves] at hpassage
  cases hrun : (graph.visit supplier steps id).noted [] ⟨start, []⟩ with
  | ok i s =>
      rw [hrun] at hvisit hpassage houtcome
      replace hpassage : Passage [] start.loading ⟨start, []⟩ s := hpassage
      obtain ⟨hi, hsettled, hbalanced⟩ := hvisit
      have hsome : s.world.registry.instance? id ≠ none := by
        rw [hi]
        exact Option.some_ne_none i
      refine ⟨hmore (houtcome ▸ trivial), houtcome.symm, hsettled.not_cycleFrom hsome, hi, ?_,
        hpassage.keeps, hpassage.loading⟩
      intro hnone x hreach
      have hx : s.world.registry.instance? x ≠ none := hsettled.reaches hsome hreach
      have hpending : w.registry.instance? x = none := by
        cases hreach with
        | refl => exact hnone
        | tail _ hstep => exact hstep.2.1
      -- There was no instance and now there is one, so one run has succeeded, and as many began.
      have hmade := hpassage.successes x
      have hruns := hbalanced x
      rw [show Account.successes ⟨start, []⟩ x = 0 from rfl] at hmade hruns
      rw [show Account.starts ⟨start, []⟩ x = 0 from rfl] at hruns
      rw [Registry.made_of_none hpending, Registry.made_of_ne_none hx] at hmade
      exact ⟨hx, by omega, by omega⟩
  | error halt s =>
      rw [hrun] at hvisit hpassage houtcome
      replace hpassage : Passage [] start.loading ⟨start, []⟩ s := hpassage
      have hstuck : graph.Stuck (some id) halt s := hvisit
      have hfinished : Finished (graph.instantiateBy supplier steps id start) := by
        rw [← houtcome]
        obtain ⟨outside, a, inside, w', -, -, -, rfl, -⟩ := hstuck
        trivial
      refine ⟨hmore hfinished, houtcome.symm, hstuck.cycleFrom (hpassage.keeps.none_of_none ·),
        hstuck, fun x hx hnone => ?_, hpassage.keeps, hpassage.loading⟩
      have hmade := hpassage.successes x
      rw [show Account.successes ⟨start, []⟩ x = 0 from rfl, Registry.made_of_none hnone] at hmade
      omega

end DependencyGraph

end HygienicLisp
