import HygienicLisp.Proofs.Isolation.Writes
import HygienicLisp.Proofs.Namespaces.Lasting
import HygienicLisp.Proofs.Runs

/-!
# Guarded worlds

A world is guarded if it is consistent and all code that it holds obeys the guard.  A computation
respects the guard if it leads from such a world to such a world in which the guarded slots have the
values that they had, however it ends.

`Respects` says this of a computation together with what holds of its result, and this file has the
rules for sequences of computations and for the basic ones.
-/

namespace HygienicLisp

/-! ## Worlds -/

/-- The values of the frame obey the guard. -/
def Frame.Obeys (guard : Guard) (f : Frame) : Prop :=
  ∀ (slot : Nat) (v : Value), f.slots[slot]? = some (some v) → v.Obeys guard

/-- All code that the world holds obeys the guard: in the stores of the namespaces, in frames, as
values of parameters, and as bodies of modules that are still to be run. -/
structure World.Obeys (guard : Guard) (w : World) : Prop where
  values : ∀ {ns : NamespaceId} {address : Nat} {v : Value},
    w.spaces.value? ns address = some v → v.Obeys guard
  frames : ∀ (i : Nat) (f : Frame), w.frames[i]? = some f → f.Obeys guard
  dynamic : ∀ p ∈ w.dynamic, p.2.Obeys guard
  bodies : ∀ d ∈ w.registry.declarations, ∀ code ∈ d.body, code.Obeys guard d.space

/-- The world is consistent and its code obeys the guard.  The namespaces of the slots are there. -/
structure World.Guarded (guard : Guard) (w : World) : Prop where
  consistent : w.Consistent
  obeys : w.Obeys guard
  there : ∀ slot, guard.slots slot → slot.space < w.spaces.size

/-- Calls have made the later namespaces of the earlier ones.  They are extensions of them, in which
definitions last, with the same values in the guarded slots. -/
structure Spaces.Later (guard : Guard) (before after : Spaces) : Prop where
  called : before.Called after
  extension : before.Extends after
  lasting : before.Lasts after
  kept : ∀ slot, guard.slots slot →
    after.value? slot.space slot.address = before.value? slot.space slot.address

variable {guard : Guard}

theorem Spaces.Later.refl (guard : Guard) (spaces : Spaces) : spaces.Later guard spaces :=
  ⟨.refl spaces, .refl spaces, .refl spaces, fun _ _ => rfl⟩

theorem Spaces.Later.trans {first second third : Spaces} (h : first.Later guard second)
    (h' : second.Later guard third) : first.Later guard third :=
  ⟨h.called.trans h'.called, h.extension.trans h'.extension, h.lasting.trans h'.lasting,
    fun slot hslot => (h'.kept slot hslot).trans (h.kept slot hslot)⟩

namespace World

variable {w w' : World}

/-- The worlds differ in fresh names, the names of objects, sources and counters at most. -/
structure Quiet (w w' : World) : Prop where
  spaces : w'.spaces = w.spaces
  frames : w'.frames = w.frames
  dynamic : w'.dynamic = w.dynamic
  provides : w'.provides = w.provides
  registry : w'.registry = w.registry
  kernel : w'.runtime.kernel = w.runtime.kernel

theorem Guarded.quiet (h : w.Guarded guard) (hquiet : w.Quiet w') : w'.Guarded guard := by
  obtain ⟨hspaces, hframes, hdynamic, hprovides, hregistry, hkernel⟩ := hquiet
  refine ⟨⟨?_, ?_, ?_, ?_, ?_⟩, ⟨?_, ?_, ?_, ?_⟩, ?_⟩
  · exact hspaces ▸ h.consistent.spaces
  · exact hspaces ▸ hprovides ▸ h.consistent.provides
  · exact hspaces ▸ hregistry ▸ h.consistent.declarations
  · exact hspaces ▸ hregistry ▸ h.consistent.instances
  · exact hspaces ▸ hkernel ▸ h.consistent.kernel
  · exact hspaces ▸ h.obeys.values
  · exact hframes ▸ h.obeys.frames
  · exact hdynamic ▸ h.obeys.dynamic
  · exact hregistry ▸ h.obeys.bodies
  · exact hspaces ▸ h.there

/-- A change of the namespaces keeps the guard if it brings in known definitions and stores values
that obey, outside the slots. -/
theorem Guarded.change (h : w.Guarded guard) {spaces' : Spaces}
    (hchange : w.spaces.Change w.spaces.Knows
      (fun slot v => v.Obeys guard ∧ ¬guard.slots slot) spaces')
    (hcalled : w.spaces.Called spaces') :
    ({ w with spaces := spaces' } : World).Guarded guard ∧ w.spaces.Later guard spaces' := by
  have hextends := hchange.extends
  refine ⟨⟨⟨?_, ?_, ?_, ?_, ?_⟩, ⟨?_, h.obeys.frames, h.obeys.dynamic, h.obeys.bodies⟩, ?_⟩,
    hcalled, hextends, hchange.lasts, ?_⟩
  · exact h.consistent.spaces.change hchange
  · exact fun p hp => (h.consistent.provides p hp).mono hextends
  · exact fun d hd => (h.consistent.declarations d hd).mono hextends
  · exact fun i hi => (h.consistent.instances i hi).mono hextends
  · exact h.consistent.kernel.mono hextends
  · intro ns address v hv
    -- A value that was not there before has been stored by the change, so it obeys.
    rcases hchange.value? ns address with hsame | ⟨v', hv', hstored⟩
    · exact h.obeys.values (hsame.symm.trans hv)
    · cases hstored.symm.trans hv
      exact hv'.1
  · exact fun slot hslot => Nat.lt_of_lt_of_le (h.there slot hslot) hextends.size_le
  · intro slot hslot
    rcases hchange.value? slot.space slot.address with hsame | ⟨v, hv, -⟩
    · exact hsame
    · exact absurd hslot hv.2

theorem Guarded.change_or_same (h : w.Guarded guard) {spaces' : Spaces}
    (hchange : spaces' = w.spaces ∨
      w.spaces.Change w.spaces.Knows (fun slot v => v.Obeys guard ∧ ¬guard.slots slot) spaces')
    (hcalled : w.spaces.Called spaces') :
    ({ w with spaces := spaces' } : World).Guarded guard ∧ w.spaces.Later guard spaces' := by
  rcases hchange with rfl | hchange
  · exact ⟨h, .refl _ w.spaces⟩
  · exact h.change hchange hcalled

end World

/-! ## Computations -/

/-- The computation respects the guard, and its result, if it has one, is as given. -/
def Respects {α : Type} (guard : Guard) (P : World → α → Prop) (x : RunM α) (w : World) : Prop :=
  w.Guarded guard →
    match x w with
    | .ok a w' => w'.Guarded guard ∧ w.spaces.Later guard w'.spaces ∧ P w' a
    | .error _ w' => w'.Guarded guard ∧ w.spaces.Later guard w'.spaces

namespace Respects

variable {α β : Type} {P : World → α → Prop} {Q : World → β → Prop} {w : World}

theorem pure {a : α} (h : P w a) : Respects guard P (pure a) w :=
  fun hw => ⟨hw, .refl _ w.spaces, h⟩

theorem fail (e : Error) : Respects guard P (RunM.fail e) w := fun hw => ⟨hw, .refl _ w.spaces⟩

theorem exhausted : Respects guard P RunM.exhausted w := fun hw => ⟨hw, .refl _ w.spaces⟩

theorem ofExcept {r : Except Error α} (h : ∀ a, r = .ok a → P w a) :
    Respects guard P (RunM.ofExcept r) w := by
  cases r with
  | ok a => exact .pure (h a rfl)
  | error e => exact .fail e

/-- A sequence of computations, where the second may use how the first has ended. -/
theorem bind_run {x : RunM α} {f : α → RunM β} (hx : Respects guard P x w)
    (hf : ∀ a w', x w = .ok a w' → w.spaces.Later guard w'.spaces → P w' a →
      Respects guard Q (f a) w') :
    Respects guard Q (x >>= f) w := by
  intro hw
  have hx := hx hw
  rw [RunM.bind_apply]
  cases hrun : x w with
  | error halt w' =>
      rw [hrun] at hx
      exact hx
  | ok a w' =>
      rw [hrun] at hx
      obtain ⟨hw', hlater, ha⟩ := hx
      have hf := hf a w' hrun hlater ha hw'
      dsimp only
      cases hrun' : f a w' with
      | ok b w'' =>
          rw [hrun'] at hf
          exact ⟨hf.1, hlater.trans hf.2.1, hf.2.2⟩
      | error halt w'' =>
          rw [hrun'] at hf
          exact ⟨hf.1, hlater.trans hf.2⟩

theorem bind {x : RunM α} {f : α → RunM β} (hx : Respects guard P x w)
    (hf : ∀ a w', w.spaces.Later guard w'.spaces → P w' a → Respects guard Q (f a) w') :
    Respects guard Q (x >>= f) w :=
  hx.bind_run fun a w' _ => hf a w'

theorem get_bind {f : World → RunM β} (h : w.Guarded guard → Respects guard Q (f w) w) :
    Respects guard Q (get >>= f) w :=
  fun hw => h hw hw

theorem getSpaces_bind {f : Spaces → RunM β}
    (h : w.Guarded guard → Respects guard Q (f w.spaces) w) :
    Respects guard Q (getSpaces >>= f) w :=
  fun hw => h hw hw

/-- A change of the world that touches neither code nor namespaces. -/
theorem modifyGet_quiet {f : World → α × World} (hquiet : w.Quiet (f w).2)
    (h : P (f w).2 (f w).1) : Respects guard P (modifyGet f) w := by
  intro hw
  refine ⟨hw.quiet hquiet, ?_, h⟩
  rw [hquiet.spaces]
  exact .refl _ w.spaces

theorem modify_quiet {f : World → World} (hquiet : w.Quiet (f w)) :
    Respects guard (fun _ _ => True) (modify f) w :=
  modifyGet_quiet hquiet trivial

theorem modify {f : World → World}
    (h : w.Guarded guard → (f w).Guarded guard ∧ w.spaces.Later guard (f w).spaces) :
    Respects guard (fun _ _ => True) (modify f) w :=
  fun hw => ⟨(h hw).1, (h hw).2, trivial⟩

theorem mapError {f : Error → Error} {x : RunM α} (hx : Respects guard P x w) :
    Respects guard P (RunM.mapError f x) w := by
  intro hw
  have hx := hx hw
  rw [RunM.mapError]
  cases hrun : x w with
  | ok a w' =>
      rw [hrun] at hx
      exact hx
  | error halt w' =>
      rw [hrun] at hx
      cases halt <;> exact hx

theorem mono {P' : World → α → Prop} {x : RunM α} (hx : Respects guard P x w)
    (h : ∀ w' a, P w' a → P' w' a) : Respects guard P' x w := by
  intro hw
  have hx := hx hw
  cases hrun : x w with
  | ok a w' =>
      rw [hrun] at hx
      exact ⟨hx.1, hx.2.1, h w' a hx.2.2⟩
  | error halt w' =>
      rw [hrun] at hx
      exact hx

/-- A computation after which part of the world is put back. -/
theorem andThen {x : RunM α} {leave : World → World} (hx : Respects guard P x w)
    (hleave : ∀ w', w'.Guarded guard → w.spaces.Later guard w'.spaces →
      (leave w').Guarded guard ∧ (leave w').spaces = w'.spaces)
    (h : ∀ w' a, P w' a → P (leave w') a) : Respects guard P (x.andThen leave) w := by
  intro hw
  have hx := hx hw
  rw [RunM.andThen]
  cases hrun : x w with
  | ok a w' =>
      rw [hrun] at hx
      obtain ⟨hw', hlater, ha⟩ := hx
      obtain ⟨hguarded, hspaces⟩ := hleave w' hw' hlater
      exact ⟨hguarded, hspaces ▸ hlater, h w' a ha⟩
  | error halt w' =>
      rw [hrun] at hx
      obtain ⟨hguarded, hspaces⟩ := hleave w' hx.1 hx.2
      exact ⟨hguarded, hspaces ▸ hx.2⟩

/-- However a computation ends, it leaves a world in which the slots are guarded and have the values
that they had. -/
theorem leaves {x : RunM α} (hx : Respects guard P x w) (hw : w.Guarded guard) :
    (x.leaves w).Guarded guard ∧ w.spaces.Later guard (x.leaves w).spaces := by
  have hx := hx hw
  rw [RunM.leaves]
  cases hrun : x w with
  | ok a w' =>
      rw [hrun] at hx
      exact ⟨hx.1, hx.2.1⟩
  | error halt w' =>
      rw [hrun] at hx
      exact hx

end Respects

/-! ## Fresh names and namespaces -/

section

variable {w : World}

theorem respects_freshMark : Respects guard (fun _ _ => True) freshMark w :=
  .modifyGet_quiet ⟨rfl, rfl, rfl, rfl, rfl, rfl⟩ trivial

theorem respects_freshRib : Respects guard (fun _ _ => True) freshRib w :=
  .modifyGet_quiet ⟨rfl, rfl, rfl, rfl, rfl, rfl⟩ trivial

theorem respects_freshObject (name : Option String) :
    Respects guard (fun _ _ => True) (freshObject name) w :=
  .modifyGet_quiet ⟨rfl, rfl, rfl, rfl, rfl, rfl⟩ trivial

theorem respects_stampSyntax (stx : Syntax) :
    Respects guard (fun _ _ => True) (stampSyntax stx) w :=
  .modifyGet_quiet ⟨rfl, rfl, rfl, rfl, rfl, rfl⟩ trivial

theorem respects_stampValue {v : Value} (hv : v.Obeys guard) :
    Respects guard (fun _ v => v.Obeys guard) (stampValue v) w :=
  .modifyGet_quiet ⟨rfl, rfl, rfl, rfl, rfl, rfl⟩ (Value.byParts_obeys.stamp hv _)

theorem respects_newRecord {fields : List (String × Value)}
    (hfields : ∀ field ∈ fields, field.2.Obeys guard) :
    Respects guard (fun _ v => v.Obeys guard) (newRecord fields) w :=
  .modifyGet_quiet ⟨rfl, rfl, rfl, rfl, rfl, rfl⟩ (.record hfields)

theorem respects_newProcedure {name : Option String} {p : Procedure} (hp : p.Obeys guard) :
    Respects guard (fun _ v => v.Obeys guard) (newProcedure name p) w :=
  (respects_freshObject name).bind fun _ _ _ _ => .pure (.procedure hp)

theorem respects_newTransformer {procedureId : ObjectId} {p : Procedure} (hp : p.Obeys guard) :
    Respects guard (fun _ v => v.Obeys guard) (newTransformer procedureId p) w :=
  .get_bind fun _ => (respects_freshObject _).bind fun _ _ _ _ => .pure (.transformer hp)

theorem respects_inferName (v : Value) (name : String) :
    Respects guard (fun _ _ => True) (inferName v name) w :=
  .modify_quiet ⟨rfl, rfl, rfl, rfl, rfl, rfl⟩

theorem respects_newRib (binders : List Syntax) :
    Respects guard (fun _ _ => True) (newRib binders) w :=
  respects_freshRib.bind fun _ _ _ _ => .getSpaces_bind fun _ => .ofExcept fun _ _ => trivial

/-- None of the slots is in a new namespace, because theirs are there already. -/
theorem respects_newNamespace (home : ModuleId) (kind : NamespaceKind) :
    Respects guard (fun _ ns => guard.Outside ns) (newNamespace home kind) w := by
  intro hw
  obtain ⟨hw', hlater⟩ := hw.change (.create home kind) (.create w.spaces home kind)
  exact ⟨hw', hlater, fun slot hslot => Nat.ne_of_lt (hw.there slot hslot)⟩

/-! ## Operations on namespaces -/

theorem respects_predefine (ns : NamespaceId) (stx : Syntax) :
    Respects guard (fun _ _ => True) (predefine ns stx) w := by
  intro hw
  rw [predefine_apply]
  cases h : w.spaces.predefine ns stx with
  | error e => exact ⟨hw, .refl _ w.spaces⟩
  | ok result =>
      obtain ⟨hw', hlater⟩ := hw.change (Spaces.change_of_predefine h) (.of_predefine h)
      exact ⟨hw', hlater, trivial⟩

theorem respects_require {provided : Provided} (hknown : w.spaces.Knows provided.target)
    (ns : NamespaceId) (stx : Syntax) (shadowable : Bool) :
    Respects guard (fun _ _ => True) (require ns stx provided shadowable) w := by
  intro hw
  rw [require_apply]
  cases h : w.spaces.require ns stx provided shadowable with
  | error e => exact ⟨hw, .refl _ w.spaces⟩
  | ok spaces =>
      obtain ⟨hw', hlater⟩ := hw.change_or_same (Spaces.change_of_require hknown h) (.of_require h)
      exact ⟨hw', hlater, trivial⟩

theorem respects_setValue {ns : NamespaceId} {address : Nat} {v : Value} (hv : v.Obeys guard)
    (hfree : ¬guard.slots ⟨ns, address⟩) :
    Respects guard (fun _ _ => True) (setValue ns address v) w :=
  .modify fun hw => hw.change_or_same (Spaces.change_setValue w.spaces ⟨hv, hfree⟩)
    (.store w.spaces ns address v)

theorem respects_bindDefinition {ns : NamespaceId} {v : Value} (hv : v.Obeys guard)
    (hns : guard.Outside ns) (d : Definition) :
    Respects guard (fun _ _ => True) (bindDefinition ns d v) w := by
  have hrest {w : World} : Respects guard (fun _ _ => True)
      (do inferName v d.name; setValue ns d.address v : RunM Unit) w :=
    (respects_inferName v d.name).bind fun _ _ _ _ =>
      respects_setValue hv fun hslot => hns _ hslot rfl
  rw [bindDefinition]
  split
  · exact Respects.bind (P := fun _ _ => True) (.fail _) fun _ _ _ _ => hrest
  · exact hrest

theorem respects_defineValue {ns : NamespaceId} {v : Value} (hv : v.Obeys guard)
    (hns : guard.Outside ns) (name : String) :
    Respects guard (fun _ _ => True) (defineValue ns name v) w := by
  refine (respects_predefine ns _).bind fun stx w₁ _ _ => .getSpaces_bind fun _ => ?_
  split
  · exact respects_bindDefinition hv hns _
  · exact .fail _

theorem respects_importId {d : Definition} (hknown : w.spaces.Knows d) (ns : NamespaceId) :
    Respects guard (fun _ _ => True) (importId ns d) w := by
  intro hw
  rw [importId_apply]
  cases h : w.spaces.importId ns d with
  | error e => exact ⟨hw, .refl _ w.spaces⟩
  | ok result =>
      obtain ⟨hw', hlater⟩ := hw.change_or_same (Spaces.change_of_importId hknown h)
        (.of_importId h)
      exact ⟨hw', hlater, trivial⟩

theorem respects_requireAll {provided : List Provided}
    (hknown : ∀ p ∈ provided, w.spaces.Knows p.target) (ns : NamespaceId)
    (identifier : Provided → Except Error Syntax) (shadowable : Bool) :
    Respects guard (fun _ _ => True) (requireAll ns identifier shadowable provided) w := by
  induction provided generalizing w with
  | nil => exact .pure trivial
  | cons p rest ih =>
      obtain ⟨hp, hrest⟩ := List.forall_mem_cons.1 hknown
      refine Respects.bind (P := fun _ _ => True) (.ofExcept fun _ _ => trivial)
        fun stx w₁ hlater₁ _ => ?_
      refine (respects_require (hp.mono hlater₁.extension) ns stx shadowable).bind
        fun _ w₂ hlater₂ _ => ?_
      exact ih fun q hq => (hrest q hq).mono (hlater₁.trans hlater₂).extension

end

end HygienicLisp
