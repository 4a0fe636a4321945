import HygienicLisp.Proofs.Evaluation.Fuel
import HygienicLisp.Proofs.Modules.Instances
import Mathlib.Data.List.Chain
import Mathlib.Data.List.Perm.Subperm
import Mathlib.Logic.Relation

/-!
# Dependency graphs

Modules whose bodies do nothing but request other modules form a graph.  This file has what is said
of such a graph without a run: which dependencies are pending (`DependencyGraph.Pending`), when a
set of instances is closed under them and free of cycles (`DependencyGraph.Settled`), and how a
chain of pending dependencies that comes back to where it has been makes a cycle.  The procedure
that instantiates a module of the graph is given with an arbitrary loader that always succeeds, and
as a script, so that an account of it can be kept.
-/

namespace HygienicLisp

open Relation

/-- A loader that always succeeds. -/
structure Supplier where
  load : ModuleId → RunM Declaration
  succeeds : ∀ id w, ∃ d w', load id w = .ok d w' ∧ d.id = id
  spares : ∀ id, (load id).Spares

/-- Modules without a body need no sources. -/
def Supplier.empty : Supplier where
  load := emptyDeclaration
  succeeds _ _ := ⟨_, _, rfl, rfl⟩
  spares _ _ := ⟨rfl, rfl⟩

namespace DependencyGraph

variable (graph : DependencyGraph) (supplier : Supplier)

/-! ## The procedure -/

/-- Instantiates a module whose run instantiates its dependencies in order by the same
procedure. -/
def instantiateBy : Nat → ModuleId → RunM Instance
  | 0, _ => RunM.exhausted
  | fuel + 1, id => instantiateWith id (supplier.load id) fun _ =>
      runEach (fun dep => do let _ ← instantiateBy fuel dep) (graph.of id)

theorem instantiateBy_empty : graph.instantiateBy .empty = graph.instantiate := by
  funext fuel
  induction fuel with
  | zero => rfl
  | succ fuel ih =>
      funext id
      rw [instantiateBy, ih]
      rfl

/-- The requests of a body, one after the other. -/
def requestEach (visit : ModuleId → Script Instance) : List ModuleId → Script Unit
  | [] => .act (pure ()) (RunM.spares_pure ())
  | dep :: rest => .bind (visit dep) fun _ => requestEach visit rest

/-- The procedure as a script. -/
def visit : Nat → ModuleId → Script Instance
  | 0, _ => .act RunM.exhausted RunM.spares_exhausted
  | fuel + 1, id => .instantiate id (.act (supplier.load id) (supplier.spares id)) fun _ =>
      requestEach (visit fuel) (graph.of id)

theorem declaring_load (id : ModuleId) :
    declaring id (supplier.load id) = supplier.load id := by
  funext w
  obtain ⟨d, w', hload, rfl⟩ := supplier.succeeds id w
  rw [declaring, RunM.bind_apply, hload]
  rfl

theorem run_requestEach {visit : ModuleId → Script Instance} {request : ModuleId → RunM Instance}
    (h : ∀ id, (visit id).run = request id) (deps : List ModuleId) :
    (requestEach visit deps).run = runEach (fun dep => do let _ ← request dep) deps := by
  induction deps with
  | nil => rfl
  | cons dep rest ih =>
      rw [requestEach, Script.run, runEach, h dep, ih, bind_assoc]
      simp only [pure_bind]

theorem run_visit (fuel : Nat) (id : ModuleId) :
    (graph.visit supplier fuel id).run = graph.instantiateBy supplier fuel id := by
  induction fuel generalizing id with
  | zero => rfl
  | succ fuel ih =>
      rw [visit, Script.run, instantiateBy, run_requestEach ih]
      congr 1
      exact declaring_load supplier id

/-! ## Steps that are left over make no difference -/

theorem approximates_whileLoading {α : Type} {x y : RunM α} (h : Approximates x y)
    (id : ModuleId) : Approximates (whileLoading id x) (whileLoading id y) :=
  .rest _ fun _ => .rest _ fun _ => .rest _ fun _ => h.andThen _

theorem approximates_instantiateWith {run run' : Declaration → RunM Unit}
    (h : ∀ d, Approximates (run d) (run' d)) (id : ModuleId) (load : RunM Declaration) :
    Approximates (instantiateWith id load run) (instantiateWith id load run') := by
  refine .rest _ fun w => ?_
  cases w.registry.instance? id with
  | some i => exact .refl _
  | none =>
      refine approximates_whileLoading ?_ id
      exact .rest _ fun d => .rest _ fun _ => (h d).bind fun _ => .refl _

theorem approximates_runEach {α : Type} {f g : α → RunM Unit} (h : ∀ a, Approximates (f a) (g a))
    (items : List α) : Approximates (runEach f items) (runEach g items) := by
  induction items with
  | nil => exact .refl _
  | cons a rest ih => exact (h a).bind fun _ => ih

theorem approximates_instantiateBy {fuel fuel' : Nat} (h : fuel ≤ fuel') (id : ModuleId) :
    Approximates (graph.instantiateBy supplier fuel id) (graph.instantiateBy supplier fuel' id) := by
  induction fuel generalizing fuel' id with
  | zero => exact .exhausted _
  | succ fuel ih =>
      obtain ⟨fuel', rfl⟩ := Nat.exists_eq_add_of_lt h
      refine approximates_instantiateWith (fun _ => approximates_runEach (fun dep => ?_) _) id _
      exact (ih (by omega) dep).bind fun _ => .refl _

/-! ## Pending dependencies -/

/-- A direct dependency, where neither module has an instance. -/
def Pending (r : Registry) (a b : ModuleId) : Prop :=
  r.instance? a = none ∧ r.instance? b = none ∧ b ∈ graph.of a

/-- A cycle of pending dependencies can be reached from the module. -/
def CycleFrom (r : Registry) (id : ModuleId) : Prop :=
  ∃ a, ReflTransGen (graph.Pending r) id a ∧ TransGen (graph.Pending r) a a

variable {graph} {r₀ r r' : Registry} {id : ModuleId}

theorem mem_keys {a b : ModuleId} (h : b ∈ graph.of a) : a ∈ graph.map (·.1) := by
  rw [of] at h
  cases hfind : graph.find? fun entry => entry.1 = a with
  | none => simp [hfind] at h
  | some entry =>
      have hmem : entry ∈ graph := List.mem_of_find?_eq_some hfind
      have hkey : entry.1 = a := by simpa using List.find?_some hfind
      exact hkey ▸ List.mem_map_of_mem hmem

/-- A path of dependencies without repetitions, and one more step, is no longer than the graph. -/
theorem length_path {path : List ModuleId}
    (hpath : (path ++ [id]).IsChain fun a b => b ∈ graph.of a) (hnodup : path.Nodup) :
    path.length ≤ graph.length := by
  have hkeys : path ⊆ graph.map (·.1) := by
    intro a ha
    obtain ⟨before, after, rfl⟩ := List.append_of_mem ha
    -- What comes next on the path is a dependency.
    cases after with
    | nil =>
        rw [List.append_assoc, List.singleton_append, List.isChain_append_cons_cons] at hpath
        exact mem_keys hpath.2.1
    | cons b after =>
        rw [List.append_assoc, List.cons_append, List.cons_append,
          List.isChain_append_cons_cons] at hpath
        exact mem_keys hpath.2.1
  simpa using (List.subperm_of_subset hnodup hkeys).length_le

/-- A chain from one module to another is a sequence of steps. -/
theorem transGen_of_isChain {R : ModuleId → ModuleId → Prop} {a b : ModuleId}
    (inside : List ModuleId) (h : (a :: inside ++ [b]).IsChain R) : TransGen R a b := by
  induction inside generalizing a with
  | nil => exact .single (List.isChain_pair.1 h)
  | cons c inside ih =>
      obtain ⟨hac, hrest⟩ := List.isChain_cons_cons.1 h
      exact .head hac (ih hrest)

theorem isChain_pending {path : List ModuleId} (h : path.IsChain fun a b => b ∈ graph.of a)
    (hnone : ∀ x ∈ path, r.instance? x = none) : path.IsChain (graph.Pending r) :=
  h.imp_of_mem_imp fun a b ha hb hab => ⟨hnone a ha, hnone b hb, hab⟩

/-! ## Settled instances -/

/-- The new instances have instances of what they depend on, and are on no cycle. -/
structure Settled (graph : DependencyGraph) (r₀ r : Registry) : Prop where
  closed : ∀ {a b}, r₀.instance? a = none → r.instance? a ≠ none → b ∈ graph.of a →
    r.instance? b ≠ none
  acyclic : ∀ {a}, r.instance? a ≠ none → ¬ TransGen (graph.Pending r₀) a a

theorem Settled.refl (graph : DependencyGraph) (r : Registry) : graph.Settled r r := by
  refine ⟨fun hnone hsome => (hsome hnone).elim, fun hsome hcycle => ?_⟩
  obtain ⟨b, hstep, -⟩ := TransGen.head'_iff.1 hcycle
  exact hsome hstep.1

theorem Settled.reaches (h : graph.Settled r₀ r) {a b : ModuleId} (ha : r.instance? a ≠ none)
    (hab : ReflTransGen (graph.Pending r₀) a b) : r.instance? b ≠ none := by
  induction hab with
  | refl => exact ha
  | tail _ hstep ih => exact h.closed hstep.1 ih hstep.2.2

theorem Settled.not_cycleFrom (h : graph.Settled r₀ r) (hid : r.instance? id ≠ none) :
    ¬ graph.CycleFrom r₀ id := by
  rintro ⟨a, hreach, hcycle⟩
  exact h.acyclic (h.reaches hid hreach) hcycle

/-- An instance is added whose dependencies have instances. -/
theorem Settled.add (h : graph.Settled r₀ r) (id : ModuleId)
    (hr : ∀ x, r'.instance? x ≠ none ↔ r.instance? x ≠ none ∨ x = id)
    (hnone : r.instance? id = none) (hdeps : ∀ dep ∈ graph.of id, r.instance? dep ≠ none) :
    graph.Settled r₀ r' := by
  refine ⟨fun {a b} ha ha' hb => (hr b).2 (.inl ?_), fun {a} ha hcycle => ?_⟩
  · obtain ha' | rfl := (hr a).1 ha'
    · exact h.closed ha ha' hb
    · exact hdeps b hb
  · obtain ha | rfl := (hr a).1 ha
    · exact h.acyclic ha hcycle
    · -- The first step leads to an older instance, and from there is no way back.
      obtain ⟨b, hstep, hback⟩ := TransGen.head'_iff.1 hcycle
      exact h.reaches (hdeps b hstep.2.2) hback hnone

end DependencyGraph

end HygienicLisp
