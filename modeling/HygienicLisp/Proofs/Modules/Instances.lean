import HygienicLisp.Proofs.Modules.Callbacks
import HygienicLisp.Proofs.Modules.Keeping
import Mathlib.Data.List.Nodup

/-!
# Modules are instantiated once

Three separate structures are updated around callbacks that may request modules themselves: the
instances, the declarations and the stack of modules being loaded.  `Moment.Orderly` says how they
fit together whenever a callback begins or ends and whenever a request has been answered, and
`Passage` what a script may do from one account to a later one.  What carries the argument is that
a module on the stack is out of reach: nothing that is called back while it is there changes its
declaration or gives it an instance (`Passage.busy`).

The main theorem (`registry_history`) is about any sequence of what a host may ask of a registry.
-/

namespace HygienicLisp

/-! ## Orderly moments -/

/-- The number of instances of a module, which is at most one. -/
def Registry.made (r : Registry) (id : ModuleId) : Nat := if (r.instance? id).isSome then 1 else 0

theorem Registry.made_le (r : Registry) (id : ModuleId) : r.made id ≤ 1 := by
  unfold made
  split <;> omega

theorem Registry.made_of_none {r : Registry} {id : ModuleId} (h : r.instance? id = none) :
    r.made id = 0 := by
  rw [made, h]
  rfl

theorem Registry.made_of_ne_none {r : Registry} {id : ModuleId} (h : r.instance? id ≠ none) :
    r.made id = 1 := by
  rw [made, if_pos (Option.isSome_iff_ne_none.2 h)]

/-- A loader is called where there is no declaration, a runner on the declaration on record. -/
def Callback.Fits (id : ModuleId) (r : Registry) : Callback → Prop
  | .load => r.declaration? id = none
  | .run d => r.declaration? id = some d

/-- What the world was before a request, and what it is after the answer. -/
def Answer.Fits (id : ModuleId) (before after : World) : Answer → Prop
  | .known i => before.registry.instance? id = some i ∧ after = before
  | .cyclic => before.registry.instance? id = none ∧ id ∈ before.loading ∧ after = before
  | .unloaded => before.registry.declaration? id = none ∧
      after.registry.declaration? id = none ∧ after.registry.instance? id = none
  | .broken d => after.registry.declaration? id = some d ∧ after.registry.instance? id = none
  | .made d => before.registry.instance? id = none ∧ after.registry.declaration? id = some d ∧
      after.registry.instance? id = some (.ofDeclaration d)

/-- Callbacks are for the module entered last, which has no instance yet.  A request leaves the
stack of modules being loaded as it was. -/
def Event.Fits (id : ModuleId) (active : List ModuleId) (w : World) : Event → Prop
  | .begins c | .ends c _ =>
    active.getLast? = some id ∧ w.registry.instance? id = none ∧ c.Fits id w.registry
  | .answers before a =>
    before.loading = w.loading ∧ before.registry.Keeps w.registry ∧ a.Fits id before w

namespace Moment

/-- The registry at a moment. -/
def registry (m : Moment) : Registry := m.world.registry

/-- The stack holds what it held to begin with and the active initialisers, each module once. -/
structure Orderly (base : List ModuleId) (m : Moment) : Prop where
  stack : m.world.loading = base ++ m.active
  distinct : m.world.loading.Nodup
  fits : m.event.Fits m.id m.active m.world

/-- Whether a runner ends well on the body of the module. -/
def succeeds (id : ModuleId) (m : Moment) : Bool :=
  match m.event with
  | .ends (.run _) true => m.id = id
  | _ => false

end Moment

/-- How many runners have ended well on the body of the module. -/
def Account.successes (s : Account) (id : ModuleId) : Nat := s.moments.countP (·.succeeds id)

/-- The moments between two registries, in order. -/
structure Story (base : List ModuleId) (before : Registry) (moments : List Moment)
    (after : Registry) : Prop where
  orderly : ∀ m ∈ moments, m.Orderly base
  earlier : ∀ m ∈ moments, before.Keeps m.registry
  later : ∀ m ∈ moments, m.registry.Keeps after
  ordered : moments.Pairwise fun m m' => m.registry.Keeps m'.registry

/-- What may happen between two accounts. -/
structure Course (base : List ModuleId) (s s' : Account) : Prop where
  loading : s'.world.loading = s.world.loading
  keeps : s.world.registry.Keeps s'.world.registry
  moments : ∃ new, s'.moments = s.moments ++ new ∧
    Story base s.world.registry new s'.world.registry

/-- What a script may do while the given modules are being loaded: it leaves them alone, and each
runner that ends well makes one instance. -/
structure Passage (base busy : List ModuleId) (s s' : Account) : Prop
    extends Course base s s' where
  busy : ∀ id ∈ busy, s'.world.registry.instance? id = s.world.registry.instance? id ∧
    s'.world.registry.declaration? id = s.world.registry.declaration? id
  successes : ∀ id, s'.successes id + s.world.registry.made id
    = s.successes id + s'.world.registry.made id

variable {base busy : List ModuleId} {s s' s'' : Account} {id : ModuleId} {active : List ModuleId}

theorem Story.nil {r r' : Registry} : Story base r [] r' := ⟨by simp, by simp, by simp, .nil⟩

theorem Story.single {r r' : Registry} {m : Moment} (h : m.Orderly base) (hr : r.Keeps m.registry)
    (hr' : m.registry.Keeps r') : Story base r [m] r' :=
  ⟨by simpa using h, by simpa using hr, by simpa using hr', by simp⟩

theorem Story.append {r r' r'' : Registry} {moments moments' : List Moment} (hr : r.Keeps r')
    (hr' : r'.Keeps r'') (h : Story base r moments r') (h' : Story base r' moments' r'') :
    Story base r (moments ++ moments') r'' where
  orderly := List.forall_mem_append.2 ⟨h.orderly, h'.orderly⟩
  earlier := List.forall_mem_append.2 ⟨h.earlier, fun m hm => hr.trans (h'.earlier m hm)⟩
  later := List.forall_mem_append.2 ⟨fun m hm => (h.later m hm).trans hr', h'.later⟩
  ordered := List.pairwise_append.2
    ⟨h.ordered, h'.ordered, fun m hm m' hm' => (h.later m hm).trans (h'.earlier m' hm')⟩

theorem Course.refl (s : Account) : Course base s s :=
  ⟨rfl, .refl _, [], (List.append_nil _).symm, .nil⟩

theorem Course.trans (h : Course base s s') (h' : Course base s' s'') : Course base s s'' := by
  obtain ⟨new, hnew, hstory⟩ := h.moments
  obtain ⟨new', hnew', hstory'⟩ := h'.moments
  refine ⟨h'.loading.trans h.loading, h.keeps.trans h'.keeps, new ++ new', ?_, ?_⟩
  · rw [hnew', hnew, List.append_assoc]
  · exact hstory.append h.keeps h'.keeps hstory'

namespace Passage

theorem refl (s : Account) : Passage base busy s s := ⟨.refl s, fun _ _ => ⟨rfl, rfl⟩, fun _ => rfl⟩

theorem trans (h : Passage base busy s s') (h' : Passage base busy s' s'') :
    Passage base busy s s'' := by
  refine ⟨h.toCourse.trans h'.toCourse, fun id hid => ?_, fun id => ?_⟩
  · exact ⟨(h'.busy id hid).1.trans (h.busy id hid).1, (h'.busy id hid).2.trans (h.busy id hid).2⟩
  · have hfirst := h.successes id
    have hsecond := h'.successes id
    omega

theorem mono {busy' : List ModuleId} (h : Passage base busy s s') (hsub : busy' ⊆ busy) :
    Passage base busy' s s' :=
  ⟨h.toCourse, fun id hid => h.busy id (hsub hid), h.successes⟩

/-- Nothing happens to the registry, and nothing is noted. -/
theorem silent (hmoments : s'.moments = s.moments)
    (hregistry : s'.world.registry = s.world.registry)
    (hloading : s'.world.loading = s.world.loading) : Passage base busy s s' := by
  refine ⟨⟨hloading, .of_eq hregistry, [], ?_, .nil⟩, fun id _ => ?_, fun id => ?_⟩
  · rw [hmoments, List.append_nil]
  · rw [hregistry]
    exact ⟨rfl, rfl⟩
  · rw [hregistry, Account.successes, Account.successes, hmoments]

/-- An orderly moment other than the success of a runner is noted. -/
theorem note {event : Event} (h : Moment.Orderly base ⟨id, active, event, s.world⟩)
    (hsuccess : ∀ other, Moment.succeeds other ⟨id, active, event, s.world⟩ = false) :
    Passage base busy s (s.note id active event) := by
  refine ⟨⟨rfl, .refl _, [_], rfl, .single h (.refl _) (.refl _)⟩, fun _ _ => ⟨rfl, rfl⟩, ?_⟩
  intro other
  simp [Account.successes, Account.note, hsuccess other]

/-- A declaration is recorded for a module that is not busy. -/
theorem record {d : Declaration} (hbusy : d.id ∉ busy)
    (hnone : s.world.registry.instance? d.id = none) :
    Passage base busy s (s.update (·.setRegistry (s.world.registry.record d))) := by
  refine ⟨⟨rfl, Registry.keeps_record hnone, [], ?_, .nil⟩, fun id hid => ⟨rfl, ?_⟩, fun _ => rfl⟩
  · exact (List.append_nil _).symm
  · have hne : d.id ≠ id := by
      rintro rfl
      exact hbusy hid
    exact Registry.declaration?_record.trans (if_neg hne)

/-- The success of a runner is noted, and the instance is added. -/
theorem finish {d : Declaration} (hbusy : id ∉ busy)
    (h : Moment.Orderly base ⟨id, active, .ends (.run d) true, s.world⟩) :
    Passage base busy s ((s.note id active (.ends (.run d) true)).update fun w =>
      w.setRegistry (w.registry.addInstance (.ofDeclaration d))) := by
  obtain ⟨-, hnone, hd⟩ := h.fits
  have hid : (Instance.ofDeclaration d).id = id := Registry.id_of_declaration? hd
  have hkeeps := Registry.keeps_addInstance hd hnone
  have hothers {other : ModuleId} (hne : id ≠ other) :
      (s.world.registry.addInstance (.ofDeclaration d)).instance? other
        = s.world.registry.instance? other := by
    rw [Registry.instance?_addInstance, hid, if_neg hne]
  refine ⟨⟨rfl, hkeeps, [_], rfl, .single h (.refl _) hkeeps⟩,
    fun other hother => ⟨hothers ?_, rfl⟩, fun other => ?_⟩
  · rintro rfl
    exact hbusy hother
  · by_cases hsame : id = other
    · subst hsame
      have hmade : (s.world.registry.addInstance (.ofDeclaration d)).made id = 1 := by
        rw [Registry.made, Registry.instance?_addInstance, if_pos hid]
        rfl
      have hunmade : s.world.registry.made id = 0 := Registry.made_of_none hnone
      simp [Account.successes, Account.note, Account.update, World.setRegistry, Moment.succeeds,
        hmade, hunmade]
    · simp [Account.successes, Account.note, Account.update, World.setRegistry, Moment.succeeds,
        Registry.made, hothers hsame, hsame]

/-- A module is on the stack for a while. -/
theorem inside {loading : List ModuleId}
    (h : Passage base busy (s.update (·.setLoading loading)) s') :
    Passage base busy s (s'.update (·.setLoading s.world.loading)) :=
  ⟨⟨rfl, h.keeps, h.moments⟩, h.busy, h.successes⟩

end Passage

/-! ## Scripts -/

/-- The account that a computation leaves, however it ends. -/
def Noted.leaves {α : Type} (y : Noted α) (s : Account) : Account :=
  match y s with
  | .ok _ s' => s'
  | .error _ s' => s'

/-- Wherever the given initialisers are active, the computation does what a script may do. -/
def Noted.Passes {α : Type} (base active : List ModuleId) (y : Noted α) : Prop :=
  ∀ s : Account, s.world.loading = base ++ active → s.world.loading.Nodup →
    Passage base s.world.loading s (y.leaves s)

namespace Noted.Passes

variable {α β : Type} {y : Noted α}

theorem pure (a : α) : Passes base active (pure a) := fun s _ _ => .refl s

theorem ofRun {x : RunM α} (h : x.Spares) : Passes base active (ofRun x) := by
  intro s _ _
  obtain ⟨hregistry, hloading⟩ := h s.world
  rw [RunM.leaves] at hregistry hloading
  rw [Noted.leaves, Noted.ofRun]
  cases hrun : x s.world with
  | ok a w =>
      rw [hrun] at hregistry hloading
      exact .silent rfl hregistry hloading
  | error halt w =>
      rw [hrun] at hregistry hloading
      exact .silent rfl hregistry hloading

/-- A computation goes on where another one has ended. -/
theorem next {g : Noted β} (h : Passage base s.world.loading s s') (hg : Passes base active g)
    (hstack : s.world.loading = base ++ active) (hnodup : s.world.loading.Nodup) :
    Passage base s.world.loading s (g.leaves s') := by
  have hsame := h.loading
  refine h.trans ?_
  rw [← hsame] at hstack hnodup ⊢
  exact hg s' hstack hnodup

theorem bind {g : α → Noted β} (h : Passes base active y) (hg : ∀ a, Passes base active (g a)) :
    Passes base active (y >>= g) := by
  intro s hstack hnodup
  have hy := h s hstack hnodup
  rw [leaves] at hy
  rw [leaves, bind_apply]
  cases hrun : y s with
  | ok a s' =>
      rw [hrun] at hy
      exact next hy (hg a) hstack hnodup
  | error halt s' =>
      rw [hrun] at hy
      exact hy

theorem rescue {g : Halt → Noted α} (h : Passes base active y)
    (hg : ∀ halt, Passes base active (g halt)) : Passes base active (tryCatch y g) := by
  intro s hstack hnodup
  have hy := h s hstack hnodup
  rw [leaves] at hy
  rw [leaves, tryCatch_apply]
  cases hrun : y s with
  | ok a s' =>
      rw [hrun] at hy
      exact hy
  | error halt s' =>
      rw [hrun] at hy
      exact next hy (hg halt) hstack hnodup

/-- Begins a callback. -/
theorem called {c : Callback} (h : Passes base active y)
    (hbegin : Moment.Orderly base ⟨id, active, .begins c, s.world⟩) :
    Passage base s.world.loading s (y.leaves (s.note id active (.begins c))) :=
  next (.note hbegin fun _ => rfl) h hbegin.stack hbegin.distinct

end Noted.Passes

/-- What a callback fits when it begins, it fits when it ends: its module is on the stack. -/
theorem Passage.ends {c : Callback} (h : Passage base s.world.loading s s')
    (hbegin : Moment.Orderly base ⟨id, active, .begins c, s.world⟩) (well : Bool) :
    Moment.Orderly base ⟨id, active, .ends c well, s'.world⟩ := by
  obtain ⟨hlast, hnone, hc⟩ := hbegin.fits
  have hmem : id ∈ s.world.loading := by
    rw [hbegin.stack]
    exact List.mem_append_right base (List.mem_of_getLast? hlast)
  obtain ⟨hinstance, hdeclaration⟩ := h.busy id hmem
  refine ⟨h.loading.trans hbegin.stack, h.loading ▸ hbegin.distinct, hlast, hinstance.trans hnone, ?_⟩
  cases c with
  | load => exact hdeclaration.trans hc
  | run d => exact hdeclaration.trans hc

/-- After its module has been on the stack, a request is answered. -/
theorem Passage.answered {inner : List ModuleId} {a : Answer}
    (hstack : s.world.loading = base ++ active) (hnodup : s.world.loading.Nodup)
    (h : Passage base s.world.loading (s.update (·.setLoading inner)) s')
    (ha : a.Fits id s.world (s'.world.setLoading s.world.loading)) :
    Passage base s.world.loading s
      ((s'.update (·.setLoading s.world.loading)).note id active (.answers s.world a)) :=
  h.inside.trans (.note ⟨hstack, hnodup, rfl, h.keeps, ha⟩ fun _ => rfl)

section Requests

variable {load : Noted Declaration} {run : Declaration → Noted Unit}

/-- A module gets a declaration, from its loader if there is none, or is left without one. -/
theorem declarationOf_passage (hload : load.Passes base active)
    (hid : ∀ s d s', load s = .ok d s' → d.id = id) (hstack : s.world.loading = base ++ active)
    (hnodup : s.world.loading.Nodup) (hlast : active.getLast? = some id)
    (hnone : s.world.registry.instance? id = none) (hbusy : busy ⊆ s.world.loading)
    (hout : id ∉ busy) :
    match Noted.declarationOf id active load s with
    | .ok d s' => Passage base busy s s' ∧ s'.world.registry.declaration? id = some d ∧
        s'.world.registry.instance? id = none
    | .error _ s' => Passage base busy s s' ∧ s.world.registry.declaration? id = none ∧
        s'.world.registry.declaration? id = none ∧ s'.world.registry.instance? id = none := by
  simp only [Noted.declarationOf]
  cases hd : s.world.registry.declaration? id with
  | some d => exact ⟨.refl s, hd, hnone⟩
  | none =>
      have hbegin : Moment.Orderly base ⟨id, active, .begins .load, (s.update .countLoad).world⟩ :=
        ⟨hstack, hnodup, hlast, hnone, hd⟩
      have hcount : Passage base busy s (s.update .countLoad) := .silent rfl rfl rfl
      have hcalled := hload.called hbegin
      simp only [Noted.during]
      rw [Noted.leaves] at hcalled
      cases hrun : load ((s.update .countLoad).note id active (.begins .load)) with
      | error halt s' =>
          rw [hrun] at hcalled
          have hends := hcalled.ends hbegin false
          have hpassage := (hcalled.mono hbusy).trans (.note hends fun _ => rfl)
          exact ⟨hcount.trans hpassage, trivial, hends.fits.2.2, hends.fits.2.1⟩
      | ok d s' =>
          rw [hrun] at hcalled
          -- A loader declares the module it is asked for, and none has been declared meanwhile.
          obtain rfl := hid _ _ _ hrun
          have hends := hcalled.ends hbegin true
          obtain ⟨-, hnone', -⟩ := hends.fits
          have hpassage : Passage base busy s (s'.note d.id active (.ends .load true)) :=
            hcount.trans ((hcalled.mono hbusy).trans (.note hends fun _ => rfl))
          have hdeclare : (s'.note d.id active (.ends .load true)).world.registry.declare d
              = .ok (s'.world.registry.record d) := Registry.declare_of_none hnone'
          simp only [hdeclare]
          exact ⟨hpassage.trans (.record hout hnone'),
            Registry.declaration?_record.trans (if_pos rfl), hnone'⟩

/-- A request does what a script may do if its callbacks do. -/
theorem Noted.Passes.instantiateWith (hload : load.Passes base (active ++ [id]))
    (hid : ∀ s d s', load s = .ok d s' → d.id = id)
    (hrun : ∀ d, (run d).Passes base (active ++ [id])) :
    (Noted.instantiateWith id active load run).Passes base active := by
  intro s hstack hnodup
  simp only [Noted.leaves, Noted.instantiateWith]
  cases hi : s.world.registry.instance? id with
  | some i => exact .note ⟨hstack, hnodup, rfl, .refl _, hi, rfl⟩ fun _ => rfl
  | none =>
      by_cases hmem : id ∈ s.world.loading
      · obtain ⟨outside, inside, -, hcycle⟩ := enterLoading_of_mem hmem
        simp only [hcycle]
        exact .note ⟨hstack, hnodup, rfl, .refl _, hi, hmem, rfl⟩ fun _ => rfl
      · have hstack' : s.world.loading ++ [id] = base ++ (active ++ [id]) := by
          rw [hstack, List.append_assoc]
        have hnodup' : (s.world.loading ++ [id]).Nodup := by
          rw [← List.concat_eq_append]
          exact List.Nodup.concat hmem hnodup
        have hlast : (active ++ [id]).getLast? = some id := List.getLast?_concat
        simp only [enterLoading_of_notMem hmem]
        -- From here on the callbacks run with the module as the last on the stack.
        have hdeclared := declarationOf_passage
          (s := s.update (·.setLoading (s.world.loading ++ [id]))) hload hid hstack' hnodup' hlast hi
          (List.subset_append_left s.world.loading [id]) hmem
        cases hdeclaration : Noted.declarationOf id (active ++ [id]) load
            (s.update (·.setLoading (s.world.loading ++ [id]))) with
        | error halt s₁ =>
            rw [hdeclaration] at hdeclared
            obtain ⟨hpassage, hbefore, hd, hnone⟩ := hdeclared
            exact hpassage.answered hstack hnodup ⟨hbefore, hd, hnone⟩
        | ok d s₁ =>
            rw [hdeclaration] at hdeclared
            obtain ⟨hpassage, hd, hnone⟩ := hdeclared
            have hloading : s₁.world.loading = s.world.loading ++ [id] := hpassage.loading
            have hbegin : Moment.Orderly base
                ⟨id, active ++ [id], .begins (.run d), (s₁.update .countRun).world⟩ :=
              ⟨hloading.trans hstack', hloading ▸ hnodup', hlast, hnone, hd⟩
            have hcount : Passage base s.world.loading s₁ (s₁.update .countRun) := .silent rfl rfl rfl
            have hcalled := (hrun d).called hbegin
            have hbusy : s.world.loading ⊆ (s₁.update .countRun).world.loading := by
              rw [show (s₁.update .countRun).world.loading = s.world.loading ++ [id] from hloading]
              exact List.subset_append_left _ _
            simp only [Noted.during]
            rw [Noted.leaves] at hcalled
            cases hran : run d ((s₁.update .countRun).note id (active ++ [id]) (.begins (.run d))) with
            | error halt s₂ =>
                rw [hran] at hcalled
                have hends := hcalled.ends hbegin false
                have hbody := hcount.trans ((hcalled.mono hbusy).trans (.note hends fun _ => rfl))
                exact (hpassage.trans hbody).answered hstack hnodup ⟨hends.fits.2.2, hends.fits.2.1⟩
            | ok _ s₂ =>
                rw [hran] at hcalled
                have hends := hcalled.ends hbegin true
                have hbody := hcount.trans ((hcalled.mono hbusy).trans (.finish hmem hends))
                have hd' : s₂.world.registry.declaration? id = some d := hends.fits.2.2
                refine (hpassage.trans hbody).answered hstack hnodup ⟨hi, hd', ?_⟩
                exact Registry.instance?_addInstance _ |>.trans
                  (if_pos (Registry.id_of_declaration? hd'))

end Requests

/-- A script leaves the stack and what is on it alone, keeps instances, and makes one instance for
each runner that ends well; and every moment on its way is orderly. -/
theorem Script.passes {α : Type} (x : Script α) (base active : List ModuleId) :
    (x.noted active).Passes base active := by
  induction x generalizing active with
  | act x spares => exact .ofRun spares
  | bind x f ihx ihf => exact (ihx active).bind fun a => ihf a active
  | rescue x f ihx ihf => exact (ihx active).rescue fun halt => ihf halt active
  | instantiate id load run ihload ihrun =>
      refine .instantiateWith ((ihload _).bind fun _ => .pure _) ?_ fun d => ihrun d _
      intro s d s' hload
      rw [Noted.declaring, Noted.bind_apply] at hload
      cases hrun : load.noted (active ++ [id]) s with
      | error halt s₁ =>
          rw [hrun] at hload
          cases hload
      | ok d₁ s₁ =>
          rw [hrun] at hload
          cases hload
          rfl

end HygienicLisp
