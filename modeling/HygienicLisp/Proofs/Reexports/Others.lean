import HygienicLisp.Proofs.Isolation.Composition
import HygienicLisp.Proofs.Reexports.Declarations

/-!
# Modules of any kind

A runtime may have modules besides those that consist of items.  What they export is not followed.  But
they may be loaded while others are, so they must take nothing back: whatever the body of a module is,
its expansion changes the cells of its own namespace only, and loads what it requires.

Main statement: `proceeds_passes_of_any`.
-/

namespace HygienicLisp

open Expansion

variable {runtime : Runtime} {w : World} {ns : NamespaceId} {id : ModuleId} {loader : Loader}

/-- Whatever leads from faithful worlds to faithful ones, changing the cells of one namespace. -/
def fillingLogic (runtime : Runtime) (ns : NamespaceId) : RunM.Logic runtime.languageGuard where
  later := World.Advances runtime { space := some ns }
  Holds := Proceeds runtime { space := some ns }
  bind hx hf := hx.bind fun a w' _ => hf a w'
  getSpaces_bind h := .getSpaces_bind fun hw => h hw.guarded
  mapError := Proceeds.mapError
  of_tidy hx hguard := (Proceeds.of_tidy hx hguard).mono fun _ _ _ _ h => h.2

/-! ## The steps -/

theorem Spaces.elsewhere_predefine {spaces spaces' : Spaces} {stx stx' : Syntax}
    (h : spaces.predefine ns stx = .ok (stx', spaces')) {other : NamespaceId} (hother : other ≠ ns) :
    spaces'[other]? = spaces[other]? := by
  obtain ⟨_, space, index, space', -, -, -, -, rfl⟩ := predefine_eq_ok.1 h
  exact Array.getElem?_setIfInBounds_ne hother.symm

theorem Spaces.elsewhere_require {spaces spaces' : Spaces} {stx : Syntax} {p : Provided}
    {shadowable : Bool} (h : spaces.require ns stx p shadowable = .ok spaces') {other : NamespaceId}
    (hother : other ≠ ns) : spaces'[other]? = spaces[other]? := by
  obtain ⟨_, space, space', -, -, -, rfl⟩ := require_eq_ok.1 h
  exact Array.getElem?_setIfInBounds_ne hother.symm

/-- Any identifier may be defined. -/
theorem proceeds_predefine_any (ns : NamespaceId) (stx : Syntax) (w : World) :
    Proceeds runtime { space := some ns } (fun _ _ => True) (predefine ns stx) w := by
  intro hw
  rw [predefine_apply]
  cases hresult : w.spaces.predefine ns stx with
  | error e => exact ⟨hw, .refl _ _ w⟩
  | ok result =>
      obtain ⟨hguarded, hlater⟩ := hw.guarded.change (Spaces.change_of_predefine hresult)
        (.of_predefine hresult)
      obtain ⟨hw', hadvances⟩ :=
        hw.change (fun _ => Spaces.elsewhere_predefine hresult) hguarded hlater
      exact ⟨hw', hadvances, trivial⟩

/-- Any known definition may be imported under any identifier. -/
theorem proceeds_require_any {p : Provided} (hknown : w.spaces.Knows p.target) (ns : NamespaceId)
    (stx : Syntax) (shadowable : Bool) :
    Proceeds runtime { space := some ns } (fun _ _ => True) (require ns stx p shadowable) w := by
  intro hw
  rw [require_apply]
  cases hresult : w.spaces.require ns stx p shadowable with
  | error e => exact ⟨hw, .refl _ _ w⟩
  | ok spaces' =>
      obtain ⟨hguarded, hlater⟩ := hw.guarded.change_or_same
        (Spaces.change_of_require hknown hresult) (.of_require hresult)
      obtain ⟨hw', hadvances⟩ :=
        hw.change (fun _ => Spaces.elsewhere_require hresult) hguarded hlater
      exact ⟨hw', hadvances, trivial⟩

/-- What a loader gives is known. -/
theorem proceeds_instantiate_known (hloader : loader.Faithful runtime) (id : ModuleId) (w : World) :
    Proceeds runtime { space := some ns } (fun w' i => i.Known w'.spaces) (loader.instantiate id) w :=
  ((hloader id w).within _).mono fun _ _ hw' _ h => hw'.knows h.1

theorem proceeds_recordEach_any {reach : Reach} {ds : List Definition}
    (hds : ∀ d ∈ ds, w.spaces.Knows d) :
    Proceeds runtime reach (fun _ _ => True)
      (runEach (fun d : Definition => recordProvided ⟨d.name, d⟩) ds) w := by
  induction ds generalizing w with
  | nil => exact .pure trivial
  | cons d rest ih =>
      obtain ⟨hd, hrest⟩ := List.forall_mem_cons.1 hds
      refine (proceeds_recordProvided hd).bind ?_
      rintro _ _ - - rfl
      exact ih hrest

/-- Any specification of a `provide`. -/
theorem proceeds_provideSpec_any {reach : Reach} (ns : NamespaceId) (spec : Syntax) (w : World) :
    Proceeds runtime reach (fun _ _ => True) (provideSpec ns spec) w := by
  refine .getSpaces_bind fun hw => ?_
  have hspaces := hw.guarded.consistent.spaces
  split
  · split
    · rename_i target htarget
      obtain ⟨b, -, htarget⟩ := Option.bind_eq_some_iff.1 htarget
      exact (proceeds_recordProvided (hspaces.knows_target htarget)).mono fun _ _ _ _ _ => trivial
    · exact .fail _
  · split
    · split
      · refine proceeds_recordEach_any ?_
        cases hspace : w.spaces[ns]? with
        | none => simp
        | some space => exact hspaces.knows_unmarkedDefinitions hspace
      · exact .fail _
    · exact .fail _

theorem steps_moduleBody (hloader : loader.Faithful runtime) (ns : NamespaceId) :
    (fillingLogic runtime ns).Steps loader ns .moduleBody where
  predefine := proceeds_predefine_any ns
  require := RunM.Logic.always_requireSpec (L := fillingLogic runtime ns)
    (fun w i => i.Known w.spaces) (fun _ _ _ hadvances hi => hi.mono hadvances.later.extension)
    (fun _ p stx shadowable _ hi hp => proceeds_require_any (hi p hp) ns stx shadowable)
    (proceeds_instantiate_known hloader)
  provide := proceeds_provideSpec_any ns
  declare hcontext := nomatch hcontext

/-! ## Bodies -/

/-- A module that does not consist of items may be declared as anything. -/
theorem proceeds_passes_of_any (hobedient : loader.Obedient runtime.languageGuard)
    (hloader : loader.Faithful runtime) {source : ModuleId × String}
    (hsource : source ∈ runtime.sources) (hid : source.1 = id) (hkernel : id ≠ runtime.kernel.id)
    (hother : ¬∃ items, runtime.Modular id items) (h : Underway runtime ns id w) (fuel : Nat)
    (forms : List Syntax) :
    Proceeds runtime { space := some ns } (IsDeclaration runtime id) (passes loader fuel id ns forms)
      w := by
  have hsteps := steps_moduleBody hloader ns
  obtain ⟨space, hspace, hkind, -⟩ := h.bare
  have hmodule : w.spaces.IsModule ns := ⟨space, hspace, hkind⟩
  refine Proceeds.bind (RunM.Logic.always_firstPass hobedient hsteps h.outside fuel _ w) ?_
  intro pending w₁ _ hadvances₁ _
  refine Proceeds.bind (RunM.Logic.always_secondPass hobedient hsteps h.outside fuel pending w₁) ?_
  intro codes w₂ _ hadvances₂ _
  -- Nothing is known of what such a module exports, and it keeps no names.
  refine .get_bind fun _ => .pure ⟨rfl, ?_, fun name origin hexports => ?_, fun p _ huntouched => ?_⟩
  · exact (hadvances₁.trans hadvances₂).later.lasting.module _ hmodule
  · exact absurd (hexports.modular hkernel) hother
  · exact absurd (huntouched.modular hsource hid hkernel) hother

end HygienicLisp
