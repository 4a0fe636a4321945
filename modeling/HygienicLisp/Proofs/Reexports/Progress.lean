import HygienicLisp.Proofs.Modules.Keeping
import HygienicLisp.Proofs.Reexports.Expressions
import HygienicLisp.Proofs.Reexports.Programs

/-!
# Worlds that modules are loaded into

A world is faithful to the modules of its runtime if every module that is declared provides what it
exports, and every instance as well.  Loading keeps a world faithful and takes nothing back
(`World.Advances`): namespaces keep their cells, apart from the one that is being filled, and
declarations and instances stay.

`Proceeds` says this of a computation, however it ends, together with what holds of its result.  This
file has the rules for sequences of computations, for what leaves the world undisturbed, and for
definitions and imports.
-/

namespace HygienicLisp

variable {runtime : Runtime} {w w' : World}

/-! ## Faithful modules -/

/-- The declared module provides what it exports, and nothing else under names of the language that
are left alone. -/
structure Declaration.Faithful (runtime : Runtime) (w : World) (d : Declaration) : Prop where
  exports : ∀ name origin, runtime.Exports d.id name origin →
    ∃ t, (∃ p ∈ d.provides, p.name = name) ∧ (∀ p ∈ d.provides, p.name = name → p.target = t) ∧
      (origin = ⟨d.id, name⟩ ∧ w.spaces.named? d.space name = some (.defined t) ∨
        w.Defines origin t)
  language : ∀ p ∈ d.provides, runtime.Untouched d.id p.name →
    ∀ q, runtime.kernel.provided? p.name = some q → p.target = q.target

/-- The instance provides what its module exports. -/
structure Instance.Faithful (runtime : Runtime) (w : World) (i : Instance) : Prop where
  exports : ∀ name origin, runtime.Exports i.id name origin →
    ∃ p, i.provided? name = some p ∧ w.Defines origin p.target
  language : ∀ p ∈ i.provided, runtime.Untouched i.id p.name →
    ∀ q, runtime.kernel.provided? p.name = some q → p.target = q.target

/-- The world has the runtime with its language in place, and all that has been loaded is faithful. -/
structure World.Faithful (runtime : Runtime) (w : World) : Prop where
  hosted : w.runtime = runtime
  language : w.Language
  guarded : w.Guarded runtime.languageGuard
  modules : ∀ id d, w.registry.declaration? id = some d → w.spaces.IsModule d.space
  declared : ∀ id d, w.registry.declaration? id = some d → id ≠ runtime.kernel.id →
    d.Faithful runtime w
  instances : ∀ id i, w.registry.instance? id = some i → i.Faithful runtime w

/-! ## What is not taken back -/

/-- What a computation may change besides values and what is new: the cells of a namespace and whether
a module is declared. -/
structure Reach where
  space : Option NamespaceId := none
  module : Option ModuleId := none

/-- The later world is the earlier one with more in it, as far as the reach allows. -/
structure World.Advances (runtime : Runtime) (reach : Reach) (w w' : World) : Prop where
  later : w.spaces.Later runtime.languageGuard w'.spaces
  cells : ∀ ns < w.spaces.size, reach.space ≠ some ns → w'.spaces.cells ns = w.spaces.cells ns
  sameRuntime : w'.runtime = w.runtime
  loading : w'.loading = w.loading
  declared : ∀ id d, w.registry.declaration? id = some d → w'.registry.declaration? id = some d
  instances : ∀ id i, w.registry.instance? id = some i → w'.registry.instance? id = some i
  pending : ∀ id ∈ w.loading, reach.module ≠ some id →
    w'.registry.declaration? id = w.registry.declaration? id

namespace World.Advances

variable {reach : Reach} {w₁ w₂ : World}

theorem refl (runtime : Runtime) (reach : Reach) (w : World) : w.Advances runtime reach w where
  later := .refl _ _
  cells _ _ _ := rfl
  sameRuntime := rfl
  loading := rfl
  declared _ _ h := h
  instances _ _ h := h
  pending _ _ _ := rfl

theorem trans (h : w.Advances runtime reach w₁) (h' : w₁.Advances runtime reach w₂) :
    w.Advances runtime reach w₂ where
  later := h.later.trans h'.later
  cells ns hns hreach :=
    (h'.cells ns (hns.trans_le h.later.extension.size_le) hreach).trans (h.cells ns hns hreach)
  sameRuntime := h'.sameRuntime.trans h.sameRuntime
  loading := h'.loading.trans h.loading
  declared id d hd := h'.declared id d (h.declared id d hd)
  instances id i hi := h'.instances id i (h.instances id i hi)
  pending id hid hreach :=
    (h'.pending id (h.loading ▸ hid) hreach).trans (h.pending id hid hreach)

/-- What changes neither namespaces nor modules takes nothing back. -/
theorem of_same (hspaces : w₁.spaces = w.spaces) (hregistry : w₁.registry = w.registry)
    (hloading : w₁.loading = w.loading) (hruntime : w₁.runtime = w.runtime) :
    w.Advances runtime reach w₁ where
  later := hspaces ▸ .refl _ _
  cells ns _ _ := by rw [hspaces]
  sameRuntime := hruntime
  loading := hloading
  declared _ _ h := hregistry ▸ h
  instances _ _ h := hregistry ▸ h
  pending id _ _ := by rw [hregistry]

/-- The cells of a new namespace are no matter. -/
theorem of_fresh {ns : NamespaceId} (h : w.Advances runtime { space := some ns } w₁)
    (hfresh : w.spaces.size ≤ ns) : w.Advances runtime {} w₁ :=
  { h with
    cells := fun other hother _ =>
      h.cells other hother fun hsame => by
        rw [Option.some.inj hsame] at hfresh
        exact absurd hother (Nat.not_lt.2 hfresh) }

/-- A computation that may change nothing may be run where something may be changed. -/
theorem within (h : w.Advances runtime {} w₁) (reach : Reach) : w.Advances runtime reach w₁ :=
  { h with
    cells := fun ns hns _ => h.cells ns hns (by simp)
    pending := fun id hid _ => h.pending id hid (by simp) }

/-- What leaves the world undisturbed takes nothing back. -/
theorem of_undisturbed (h : w.Undisturbed w₁)
    (hlater : w.spaces.Later runtime.languageGuard w₁.spaces) : w.Advances runtime reach w₁ where
  later := hlater
  cells ns _ _ := congrFun h.cells ns
  sameRuntime := h.runtime
  loading := h.loading
  declared _ _ hd := h.registry ▸ hd
  instances _ _ hi := h.registry ▸ hi
  pending id _ _ := congrArg (·.declaration? id) h.registry

end World.Advances

/-- In a module, a name that is defined stands for its definition from then on. -/
theorem Spaces.Lasts.named? {before after : Spaces} (h : before.Lasts after) {ns : NamespaceId}
    (hns : before.IsModule ns) {name : String} {d : Definition}
    (hd : before.named? ns name = some (.defined d)) : after.named? ns name = some (.defined d) := by
  rw [named?_eq] at hd ⊢
  obtain ⟨c, hc, hcontent⟩ := Option.bind_eq_some_iff.1 hd
  obtain ⟨howner, -⟩ := filed?_eq_some_iff.1 hc
  rw [h.filed _ _ _ hc, Option.bind_some]
  exact h.content _ _ (howner ▸ hns) hcontent

section

variable {reach : Reach}

theorem World.Advances.defines (h : w.Advances runtime reach w')
    (hmodules : ∀ id d, w.registry.declaration? id = some d → w.spaces.IsModule d.space)
    {origin : Original} {t : Definition} (ht : w.Defines origin t) : w'.Defines origin t := by
  obtain ⟨d, hd, hname⟩ := ht
  exact ⟨d, h.declared _ _ hd, h.later.lasting.named? (hmodules _ _ hd) hname⟩

theorem Declaration.Faithful.advance {d : Declaration} (hd : d.Faithful runtime w)
    (hspace : w.spaces.IsModule d.space) (h : w.Advances runtime reach w')
    (hmodules : ∀ id d, w.registry.declaration? id = some d → w.spaces.IsModule d.space) :
    d.Faithful runtime w' where
  exports name origin hexports := by
    obtain ⟨t, hsome, hall, horigin⟩ := hd.exports name origin hexports
    refine ⟨t, hsome, hall, ?_⟩
    rcases horigin with ⟨hself, hname⟩ | hdefines
    · exact .inl ⟨hself, h.later.lasting.named? hspace hname⟩
    · exact .inr (h.defines hmodules hdefines)
  language := hd.language

theorem Instance.Faithful.advance {i : Instance} (hi : i.Faithful runtime w)
    (h : w.Advances runtime reach w')
    (hmodules : ∀ id d, w.registry.declaration? id = some d → w.spaces.IsModule d.space) :
    i.Faithful runtime w' where
  exports name origin hexports := by
    obtain ⟨p, hp, hdefines⟩ := hi.exports name origin hexports
    exact ⟨p, hp, h.defines hmodules hdefines⟩
  language := hi.language

theorem World.Language.advance (hw : w.Language) (hruntime : w.runtime = runtime)
    (h : w.Advances runtime reach w') : w'.Language := by
  refine ⟨hw.live.called h.later.called, ?_, ?_, ?_, ?_, ?_⟩ <;> rw [h.sameRuntime]
  · exact h.instances _ _ hw.instance_kernel
  · obtain ⟨d, hd, hspace⟩ := hw.declared
    exact ⟨d, h.declared _ _ hd, hspace⟩
  · exact h.later.lasting.module _ hw.module
  · exact fun p hp => h.later.lasting.named? hw.module (hw.names p hp)
  · intro p hp
    obtain ⟨v, hv, hfits⟩ := hw.values p hp
    refine ⟨v, (h.later.kept ⟨p.target.owner, p.target.address⟩ ?_).trans hv, hfits⟩
    exact ⟨p, hruntime ▸ hp, rfl⟩

/-- A world stays faithful as long as no module is declared or instantiated. -/
theorem World.Faithful.advance (hw : w.Faithful runtime) (h : w.Advances runtime reach w')
    (hguarded : w'.Guarded runtime.languageGuard) (hregistry : w'.registry = w.registry) :
    w'.Faithful runtime where
  hosted := h.sameRuntime.trans hw.hosted
  language := hw.language.advance hw.hosted h
  guarded := hguarded
  modules id d hd := h.later.lasting.module _ (hw.modules id d (hregistry ▸ hd))
  declared id d hd hid := by
    rw [hregistry] at hd
    exact (hw.declared id d hd hid).advance (hw.modules id d hd) h hw.modules
  instances id i hi := (hw.instances id i (hregistry ▸ hi)).advance h hw.modules

end

/-! ## Computations -/

/-- From a faithful world the computation goes on to a faithful world, however it ends, takes nothing
back, and its result, if it has one, is as given. -/
def Proceeds {α : Type} (runtime : Runtime) (reach : Reach) (P : World → α → Prop) (x : RunM α)
    (w : World) : Prop :=
  w.Faithful runtime →
    match x w with
    | .ok a w' => w'.Faithful runtime ∧ w.Advances runtime reach w' ∧ P w' a
    | .error _ w' => w'.Faithful runtime ∧ w.Advances runtime reach w'

namespace Proceeds

variable {α β : Type} {reach : Reach} {P : World → α → Prop} {Q : World → β → Prop}

theorem pure {a : α} (h : P w a) : Proceeds runtime reach P (pure a) w :=
  fun hw => ⟨hw, .refl _ _ w, h⟩

theorem fail (e : Error) : Proceeds runtime reach P (RunM.fail e) w := fun hw => ⟨hw, .refl _ _ w⟩

theorem faithful {x : RunM α} (h : w.Faithful runtime → Proceeds runtime reach P x w) :
    Proceeds runtime reach P x w :=
  fun hw => h hw hw

theorem exhausted : Proceeds runtime reach P RunM.exhausted w := fun hw => ⟨hw, .refl _ _ w⟩

theorem ofExcept {r : Except Error α} (h : ∀ a, r = .ok a → P w a) :
    Proceeds runtime reach P (RunM.ofExcept r) w := by
  cases r with
  | ok a => exact .pure (h a rfl)
  | error e => exact .fail e

theorem bind {x : RunM α} {f : α → RunM β} (hx : Proceeds runtime reach P x w)
    (hf : ∀ a w', w'.Faithful runtime → w.Advances runtime reach w' → P w' a →
      Proceeds runtime reach Q (f a) w') :
    Proceeds runtime reach Q (x >>= f) w := by
  intro hw
  have hx := hx hw
  rw [RunM.bind_apply]
  cases hrun : x w with
  | error halt w' =>
      rw [hrun] at hx
      exact hx
  | ok a w' =>
      rw [hrun] at hx
      obtain ⟨hw', hadvances, ha⟩ := hx
      have hf := hf a w' hw' hadvances ha hw'
      dsimp only
      cases hrun' : f a w' with
      | ok b w'' =>
          rw [hrun'] at hf
          exact ⟨hf.1, hadvances.trans hf.2.1, hf.2.2⟩
      | error halt w'' =>
          rw [hrun'] at hf
          exact ⟨hf.1, hadvances.trans hf.2⟩

theorem get_bind {f : World → RunM β} (h : w.Faithful runtime → Proceeds runtime reach Q (f w) w) :
    Proceeds runtime reach Q (get >>= f) w :=
  fun hw => h hw hw

theorem getSpaces_bind {f : Spaces → RunM β}
    (h : w.Faithful runtime → Proceeds runtime reach Q (f w.spaces) w) :
    Proceeds runtime reach Q (getSpaces >>= f) w :=
  fun hw => h hw hw

theorem fail_bind {e : Error} {f : α → RunM β} :
    Proceeds runtime reach Q (RunM.fail e >>= f) w :=
  fun hw => ⟨hw, .refl _ _ w⟩

/-- A check before the rest. -/
theorem check {c : Prop} {_ : Decidable c} {stx : Syntax} {fault : SyntaxFault} {x : RunM α}
    (hx : ¬c → Proceeds runtime reach P x w) :
    Proceeds runtime reach P
      (if c then (RunM.failAt stx fault : RunM PUnit) >>= fun _ => x else x) w := by
  split
  · exact fail_bind
  · rename_i hc
    exact hx hc

theorem mapError {f : Error → Error} {x : RunM α} (hx : Proceeds runtime reach P x w) :
    Proceeds runtime reach P (RunM.mapError f x) w := by
  intro hw
  have hx := hx hw
  rw [RunM.mapError]
  cases hrun : x w with
  | ok a w' =>
      rw [hrun] at hx
      exact hx
  | error halt w' =>
      rw [hrun] at hx
      cases halt <;> exact hx

theorem modify {f : World → World}
    (h : w.Faithful runtime → (f w).Faithful runtime ∧ w.Advances runtime reach (f w)) :
    Proceeds runtime reach (fun w' _ => w' = f w) (modify f) w :=
  fun hw => ⟨(h hw).1, (h hw).2, rfl⟩

/-- What is done afterwards is done however the computation ends. -/
theorem andThen {x : RunM α} {leave : World → World} (hx : Proceeds runtime reach P x w)
    (hleave : ∀ w', w'.Faithful runtime → w.Advances runtime reach w' →
      (leave w').Faithful runtime ∧ w'.Advances runtime reach (leave w')) :
    Proceeds runtime reach (fun w' a => ∃ w₁, w' = leave w₁ ∧ P w₁ a) (x.andThen leave) w := by
  intro hw
  have hx := hx hw
  rw [RunM.andThen]
  cases hrun : x w with
  | ok a w' =>
      rw [hrun] at hx
      obtain ⟨hw', hadvances, ha⟩ := hx
      obtain ⟨hleft, hadvances'⟩ := hleave w' hw' hadvances
      exact ⟨hleft, hadvances.trans hadvances', w', rfl, ha⟩
  | error halt w' =>
      rw [hrun] at hx
      obtain ⟨hw', hadvances⟩ := hx
      obtain ⟨hleft, hadvances'⟩ := hleave w' hw' hadvances
      exact ⟨hleft, hadvances.trans hadvances'⟩

/-- What is known of a computation that respects the guard holds besides. -/
theorem and_respects {R : World → α → Prop} {x : RunM α} (hx : Proceeds runtime reach P x w)
    (hguard : Respects runtime.languageGuard R x w) :
    Proceeds runtime reach (fun w' a => P w' a ∧ R w' a) x w := by
  intro hw
  have hx := hx hw
  have hguard := hguard hw.guarded
  cases hrun : x w with
  | ok a w' =>
      rw [hrun] at hx hguard
      exact ⟨hx.1, hx.2.1, hx.2.2, hguard.2.2⟩
  | error halt w' =>
      rw [hrun] at hx
      exact hx

theorem mono {P' : World → α → Prop} {x : RunM α} (hx : Proceeds runtime reach P x w)
    (h : ∀ w' a, w'.Faithful runtime → w.Advances runtime reach w' → P w' a → P' w' a) :
    Proceeds runtime reach P' x w := by
  intro hw
  have hx := hx hw
  cases hrun : x w with
  | ok a w' =>
      rw [hrun] at hx
      exact ⟨hx.1, hx.2.1, h w' a hx.1 hx.2.1 hx.2.2⟩
  | error halt w' =>
      rw [hrun] at hx
      exact hx

theorem within {x : RunM α} (hx : Proceeds runtime {} P x w) (reach : Reach) :
    Proceeds runtime reach P x w := by
  intro hw
  have hx := hx hw
  cases hrun : x w with
  | ok a w' =>
      rw [hrun] at hx
      exact ⟨hx.1, hx.2.1.within reach, hx.2.2⟩
  | error halt w' =>
      rw [hrun] at hx
      exact ⟨hx.1, hx.2.within reach⟩

/-- What leaves the world undisturbed and respects the guard. -/
theorem of_tidy {x : RunM α} (hx : x.Tidy) (hguard : Respects runtime.languageGuard P x w) :
    Proceeds runtime reach (fun w' a => w.Undisturbed w' ∧ P w' a) x w := by
  intro hw
  have hx := hx w
  have hguard := hguard hw.guarded
  rw [RunM.leaves] at hx
  cases hrun : x w with
  | ok a w' =>
      rw [hrun] at hx hguard
      obtain ⟨hguarded, hlater, ha⟩ := hguard
      have hadvances : w.Advances runtime reach w' := .of_undisturbed hx hlater
      exact ⟨hw.advance hadvances hguarded hx.registry, hadvances, hx, ha⟩
  | error halt w' =>
      rw [hrun] at hx hguard
      obtain ⟨hguarded, hlater⟩ := hguard
      have hadvances : w.Advances runtime reach w' := .of_undisturbed hx hlater
      exact ⟨hw.advance hadvances hguarded hx.registry, hadvances⟩

end Proceeds

end HygienicLisp
