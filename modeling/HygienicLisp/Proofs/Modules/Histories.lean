import HygienicLisp.Proofs.Modules.Instances

/-!
# What a host may ask of a registry

A host declares, installs and instantiates modules in any order, and each of these calls may fail.
`registry_history` says what holds after any sequence of calls and at every moment on the way, where
the callbacks of a request are any scripts.
-/

namespace HygienicLisp

/-- A call of a registry. -/
inductive RegistryCall where
  | declare (d : Declaration)
  | install (d : Declaration)
  | instantiate (id : ModuleId) (load : Script Declaration) (run : Declaration → Script Unit)

namespace RegistryCall

/-- Carries out a call. -/
def perform : RegistryCall → RunM Unit
  | .declare d => updateRegistry fun r => r.declare d
  | .install d => do let _ ← installModule d
  | .instantiate id load run => do let _ ← (Script.instantiate id load run).run

/-- Carries out a call and keeps an account of it. -/
def noted : RegistryCall → Noted Unit
  | .declare d => .ofRun (perform (.declare d))
  | .install d => .ofRun (perform (.install d))
  | .instantiate id load run => do let _ ← (Script.instantiate id load run).noted []

end RegistryCall

/-- The account of calls one after the other, each of which may fail. -/
def history (calls : List RegistryCall) (s : Account) : Account :=
  calls.foldl (fun s call => call.noted.leaves s) s

theorem Noted.Accounts.leaves {α : Type} {y : Noted α} {x : RunM α} (h : y.Accounts x)
    (s : Account) : (y.leaves s).world = x.leaves s.world := by
  rw [Noted.leaves, RunM.leaves, ← h s]
  cases y s <;> rfl

theorem RegistryCall.accounts (call : RegistryCall) : call.noted.Accounts call.perform := by
  cases call with
  | declare d => exact .ofRun _
  | install d => exact .ofRun _
  | instantiate id load run => exact ((Script.instantiate id load run).accounts []).bind fun _ => .pure ()

/-- The account is of the calls themselves. -/
theorem world_history (calls : List RegistryCall) (s : Account) :
    (history calls s).world = calls.foldl (fun w call => call.perform.leaves w) s.world := by
  induction calls generalizing s with
  | nil => rfl
  | cons call calls ih =>
      calc (history calls (call.noted.leaves s)).world
          = calls.foldl (fun w call => call.perform.leaves w) (call.noted.leaves s).world := ih _
        _ = calls.foldl (fun w call => call.perform.leaves w) (call.perform.leaves s.world) := by
            rw [call.accounts.leaves s]

theorem installModule_apply (d : Declaration) (w : World) :
    installModule d w = match w.registry.install d with
      | .error e => .error (.error e) w
      | .ok (i, registry) => .ok i (w.setRegistry registry) := by
  rw [installModule, RunM.bind_apply, RunM.get_apply]
  dsimp only
  cases w.registry.install d <;> rfl

/-! ## What a call keeps -/

variable {base : List ModuleId} {s : Account} {id : ModuleId}

theorem Noted.leaves_ofRun {α : Type} (x : RunM α) (s : Account) :
    (ofRun x).leaves s = s.update fun w => x.leaves w := by
  rw [leaves, ofRun, Account.update, RunM.leaves]
  cases x s.world <;> rfl

theorem Registry.Keeps.made_le {r r' : Registry} (h : r.Keeps r') (id : ModuleId) :
    r.made id ≤ r'.made id := by
  unfold Registry.made
  cases hi : r.instance? id with
  | none => simp
  | some i => rw [(h.instances hi).1]

/-- How a call may go: each runner that ends well makes an instance. -/
structure RegistryCall.Goes (s s' : Account) : Prop extends Course s.world.loading s s' where
  successes : ∀ id, s'.successes id + s.world.registry.made id
    ≤ s.successes id + s'.world.registry.made id

theorem RegistryCall.Goes.of_setRegistry {x : RunM Unit} {r : Registry}
    (hx : x.leaves s.world = s.world.setRegistry r) (h : s.world.registry.Keeps r) :
    Goes s ((Noted.ofRun x).leaves s) := by
  have hleaves : (Noted.ofRun x).leaves s = s.update (·.setRegistry r) := by
    rw [Noted.leaves_ofRun, Account.update, hx]
    rfl
  rw [hleaves]
  refine ⟨⟨rfl, h, [], (List.append_nil _).symm, .nil⟩, fun id => ?_⟩
  exact Nat.add_le_add_left (h.made_le id) _

/-- Every call goes well, whether it fails or not. -/
theorem RegistryCall.goes (call : RegistryCall) (s : Account) (hnodup : s.world.loading.Nodup) :
    Goes s (call.noted.leaves s) := by
  cases call with
  | declare d =>
      cases hi : s.world.registry.instance? d.id with
      | none =>
          refine .of_setRegistry (r := s.world.registry.record d) ?_ (Registry.keeps_record hi)
          rw [RunM.leaves, perform, updateRegistry_apply, Registry.declare_of_none hi]
      | some i =>
          refine .of_setRegistry (r := s.world.registry) ?_ (.refl _)
          rw [RunM.leaves, perform, updateRegistry_apply, Registry.declare_of_some hi]
          rfl
  | install d =>
      cases hi : s.world.registry.instance? d.id with
      | none =>
          refine .of_setRegistry (r := (s.world.registry.record d).addInstance (.ofDeclaration d)) ?_
            (Registry.keeps_install hi)
          rw [RunM.leaves, perform, RunM.bind_apply, installModule_apply,
            Registry.install_of_none hi]
          rfl
      | some i =>
          refine .of_setRegistry (r := s.world.registry) ?_ (.refl _)
          rw [RunM.leaves, perform, RunM.bind_apply, installModule_apply,
            Registry.install_of_some hi]
          rfl
  | instantiate id load run =>
      have hpassage : Passage s.world.loading s.world.loading s
          ((RegistryCall.instantiate id load run).noted.leaves s) :=
        ((Script.passes (.instantiate id load run) s.world.loading []).bind fun _ => .pure ()) s
          (List.append_nil _).symm hnodup
      exact ⟨hpassage.toCourse, fun id => (hpassage.successes id).le⟩

theorem goes_history (calls : List RegistryCall) (s : Account) (hnodup : s.world.loading.Nodup) :
    RegistryCall.Goes s (history calls s) := by
  induction calls generalizing s with
  | nil => exact ⟨.refl s, fun _ => le_rfl⟩
  | cons call calls ih =>
      have hfirst := call.goes s hnodup
      have hrest := ih (call.noted.leaves s) (hfirst.loading ▸ hnodup)
      have hcourse : Course s.world.loading (call.noted.leaves s) (history (call :: calls) s) := by
        rw [← hfirst.loading]
        exact hrest.toCourse
      refine ⟨hfirst.toCourse.trans hcourse, fun id => ?_⟩
      have hcount := hfirst.successes id
      have hcount' := hrest.successes id
      rw [show history (call :: calls) s = history calls (call.noted.leaves s) from rfl]
      omega

/-! ## Main theorem -/

/-- A callback for the module begins. -/
def Moment.CallsBack (id : ModuleId) (m : Moment) : Prop := m.id = id ∧ ∃ c, m.event = .begins c

/-- The loader of the module is called. -/
def Moment.Loads (id : ModuleId) (m : Moment) : Prop := m.id = id ∧ m.event = .begins .load

theorem Moment.Orderly.not_callsBack {m : Moment} (h : m.Orderly base)
    (hid : m.registry.instance? id ≠ none) : ¬ m.CallsBack id := by
  rintro ⟨rfl, c, hc⟩
  have hfits := h.fits
  rw [hc] at hfits
  exact hid hfits.2.1

theorem Moment.Orderly.not_loads {m : Moment} (h : m.Orderly base)
    (hid : m.registry.declaration? id ≠ none) : ¬ m.Loads id := by
  rintro ⟨rfl, hload⟩
  have hfits := h.fits
  rw [hload] at hfits
  exact hid hfits.2.2

/-- What is kept is kept out of reach of later callbacks. -/
theorem Story.callbacks {moments : List Moment} {r r' : Registry}
    (h : Story base r moments r') :
    moments.Pairwise fun m m' => ∀ id, (m.registry.instance? id ≠ none → ¬ m'.CallsBack id) ∧
      (m.registry.declaration? id ≠ none → ¬ m'.Loads id) := by
  refine h.ordered.imp_of_mem fun {m m'} _ hm' hkeeps id => ⟨fun hi => ?_, fun hd => ?_⟩
  · refine (h.orderly m' hm').not_callsBack ?_
    obtain ⟨i, hi⟩ := Option.ne_none_iff_exists'.1 hi
    rw [(hkeeps.instances hi).1]
    exact Option.some_ne_none i
  · exact (h.orderly m' hm').not_loads (hkeeps.declared hd)

/-- The registries along a story, with those before and after it, keep one another. -/
theorem Story.pairwise {moments : List Moment} {r r' : Registry} (h : Story base r moments r')
    (hkeeps : r.Keeps r') :
    (r :: moments.map Moment.registry ++ [r']).Pairwise Registry.Keeps := by
  have hlater : ∀ r₁ ∈ r :: moments.map Moment.registry, r₁.Keeps r' := by
    simpa only [List.forall_mem_cons, List.forall_mem_map] using ⟨hkeeps, h.later⟩
  have hordered : (r :: moments.map Moment.registry).Pairwise Registry.Keeps := by
    refine List.pairwise_cons.2 ⟨?_, List.pairwise_map.2 h.ordered⟩
    simpa only [List.forall_mem_map] using h.earlier
  exact List.pairwise_append.2 ⟨hordered, List.pairwise_singleton _ _, by simpa using hlater⟩

/-- A module that is declared, without an instance and not being loaded, is run without being
loaded. -/
theorem moments_retry {d : Declaration} (hnodup : s.world.loading.Nodup)
    (hd : s.world.registry.declaration? id = some d) (hi : s.world.registry.instance? id = none)
    (hid : id ∉ s.world.loading) (load : Script Declaration) (run : Declaration → Script Unit) :
    ∃ w rest, (((Script.instantiate id load run).noted []).leaves s).moments
      = s.moments ++ ⟨id, [id], .begins (.run d), w⟩ :: rest := by
  have hdeclaration (loading : List ModuleId) (load : Noted Declaration) :
      Noted.declarationOf id [id] load (s.update (·.setLoading loading))
        = .ok d (s.update (·.setLoading loading)) := by
    simp only [Noted.declarationOf, Account.update, World.setLoading, hd]
  -- The account when the runner is called.
  obtain ⟨begun, hbegun⟩ : ∃ begun : Account, begun = ((s.update
    (·.setLoading (s.world.loading ++ [id]))).update .countRun).note id [id] (.begins (.run d)) :=
    ⟨_, rfl⟩
  have hstack : begun.world.loading = s.world.loading ++ [id] := by rw [hbegun]; rfl
  have hdistinct : begun.world.loading.Nodup := by
    rw [hstack, ← List.concat_eq_append]
    exact List.Nodup.concat hid hnodup
  obtain ⟨new, hnew, -⟩ := ((run d).passes s.world.loading [id] begun hstack hdistinct).moments
  have hends : ∃ more, (((Script.instantiate id load run).noted []).leaves s).moments
      = (((run d).noted [id]).leaves begun).moments ++ more := by
    simp only [Noted.leaves, Script.noted, Noted.instantiateWith, hi, enterLoading_of_notMem hid,
      List.nil_append, hdeclaration, Noted.during, ← hbegun]
    cases (run d).noted [id] begun <;> exact ⟨_, List.append_assoc _ [_] [_]⟩
  obtain ⟨more, hmore⟩ := hends
  refine ⟨begun.world, new ++ more, ?_⟩
  rw [hmore, hnew]
  simp [hbegun, Account.note, Account.update]

/-- The registry of a runtime, through any calls.  The start is arbitrary as long as its instances
are those of the declarations on record; a registry that is empty, or that other calls have led to,
is such a start. -/
theorem registry_history (calls : List RegistryCall) (w : World) (hsound : w.registry.Sound)
    (hdistinct : w.loading.Nodup) :
    let s := history calls ⟨w, []⟩
    let r := s.world.registry
    -- the account is of the calls themselves
    s.world = calls.foldl (fun w call => call.perform.leaves w) w ∧
    -- the stack is restored, and holds no module twice
    s.world.loading = w.loading ∧ (∀ m ∈ s.moments, m.Orderly w.loading) ∧
    -- an instance is made from the declaration on record and never replaced
    (w.registry :: s.moments.map Moment.registry ++ [r]).Pairwise Registry.Keeps ∧
    (∀ m ∈ s.moments, m.registry.Sound) ∧ r.Sound ∧
    -- runners succeed once, and are not called again; declared modules are not loaded again
    (∀ id, s.successes id ≤ 1) ∧
    (s.moments.Pairwise fun m m' => ∀ id,
      (m.registry.instance? id ≠ none → ¬ m'.CallsBack id) ∧
      (m.registry.declaration? id ≠ none → ¬ m'.Loads id)) ∧
    -- a module with an instance
    (∀ id i, r.instance? id = some i →
      (∀ d, d.id = id → ∀ call ∈ [RegistryCall.declare d, .install d], call.perform s.world
        = .error (.error (.of (.contract (.alreadyInstantiated id)))) s.world) ∧
      ∀ load run, instantiateWith id load run s.world = .ok i s.world) ∧
    -- a declared module without an instance
    ∀ id d, r.instance? id = none → r.declaration? id = some d → id ∉ w.loading → ∀ load run,
      ∃ w' rest, (((Script.instantiate id load run).noted []).leaves s).moments
        = s.moments ++ ⟨id, [id], .begins (.run d), w'⟩ :: rest := by
  intro s r
  have hgoes : RegistryCall.Goes ⟨w, []⟩ s := goes_history calls ⟨w, []⟩ hdistinct
  obtain ⟨new, hnew, hstory⟩ := hgoes.moments
  have hmoments : s.moments = new := hnew
  have hloading : s.world.loading = w.loading := hgoes.loading
  refine ⟨world_history calls ⟨w, []⟩, hloading, ?_, ?_, ?_, hgoes.keeps.sound hsound, ?_, ?_, ?_, ?_⟩
  · rw [hmoments]
    exact hstory.orderly
  · rw [hmoments]
    exact hstory.pairwise hgoes.keeps
  · rw [hmoments]
    exact fun m hm => (hstory.earlier m hm).sound hsound
  · intro id
    have hcount := hgoes.successes id
    have hmade := r.made_le id
    have hnone : Account.successes ⟨w, []⟩ id = 0 := rfl
    change s.successes id + w.registry.made id ≤ Account.successes ⟨w, []⟩ id + r.made id at hcount
    omega
  · rw [hmoments]
    exact hstory.callbacks
  · intro id i hi
    refine ⟨?_, fun load run => ?_⟩
    · rintro d rfl call hcall
      simp only [List.mem_cons, List.not_mem_nil, or_false] at hcall
      obtain rfl | rfl := hcall
      · rw [RegistryCall.perform, updateRegistry_apply, Registry.declare_of_some hi]
      · rw [RegistryCall.perform, RunM.bind_apply, installModule_apply,
          Registry.install_of_some hi]
    · rw [instantiateWith_apply, hi]
  · intro id d hi hd hid load run
    exact moments_retry (hloading ▸ hdistinct) hd hi (hloading ▸ hid) load run

/-- Loads a module without a body. -/
private def loadsEmpty (id : ModuleId) : Script Declaration :=
  .act (pure ⟨id, 0, [], []⟩) (RunM.spares_pure _)

/-- Fails, as a loader or as a runner. -/
private def failing {α : Type} : Script α :=
  .act (RunM.fail (.of (.moduleNotFound "/nowhere"))) (RunM.spares_fail _)

/-- Requests a module and forgets its instance. -/
private def requests (id : ModuleId) (run : Script Unit) : Script Unit :=
  .bind (.instantiate id (loadsEmpty id) fun _ => run) fun _ =>
    .act (pure ()) (RunM.spares_pure ())

/-- `/top` fails to load, then it fails to run because `/part` requests it again, and then it needs
no loader and can be instantiated.  The attempt to redeclare it fails. -/
private def troubledCalls : List RegistryCall :=
  let top : ModuleId := ⟨"/top"⟩
  let part : ModuleId := ⟨"/part"⟩
  let done : Script Unit := .act (pure ()) (RunM.spares_pure ())
  [.instantiate top failing fun _ => done,
    .instantiate top (loadsEmpty top) fun _ => requests part (requests top done),
    .instantiate top failing fun _ => requests part done,
    .declare ⟨top, 1, [], []⟩]

theorem troubledCalls_history :
    Registry.Sound {} ∧ ({} : World).loading.Nodup ∧
      let s := history troubledCalls ⟨{}, []⟩
      s.world.loading = [] ∧ s.world.loads = 3 ∧ s.world.runs = 4 ∧ s.moments.length = 20 ∧
      s.successes ⟨"/top"⟩ = 1 ∧ s.successes ⟨"/part"⟩ = 1 ∧
      ∀ load run, instantiateWith ⟨"/top"⟩ load run s.world = .ok ⟨⟨"/top"⟩, 0, []⟩ s.world := by
  have hempty : Registry.Sound {} := Registry.sound_empty
  have hdistinct : ({} : World).loading.Nodup := List.nodup_nil
  obtain ⟨-, hloading, -, -, -, -, -, -, hinstance, -⟩ :=
    registry_history troubledCalls {} hempty hdistinct
  refine ⟨hempty, hdistinct, hloading, by rfl, by rfl, by rfl, by rfl, by rfl, ?_⟩
  exact (hinstance ⟨"/top"⟩ ⟨⟨"/top"⟩, 0, []⟩ (by rfl)).2

end HygienicLisp
