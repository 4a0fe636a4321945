import HygienicLisp.Proofs.Isolation.Composition
import HygienicLisp.Proofs.Isolation.Sessions
import HygienicLisp.Proofs.Reexports.Loading

/-!
# Addresses that are handed out

A definition comes into the world with an address that its namespace has just handed out.  Imports,
what modules provide and what is recorded in the registry only pass definitions on.  So wherever a
definition is found, its address has been handed out, and a new definition takes an address that
nothing refers to.

`Allots` says that a computation keeps it so, however it ends.  Expressions change nothing that
matters here, so only the forms that define, import, provide or load are looked at.

Main statement: `allotted_after`, for every world that a run leads to.
-/

namespace HygienicLisp

/-- The guard of no slots, which everything obeys. -/
def Guard.lax : Guard := .sparing fun _ => False

theorem Guard.lax_allows (ns : NamespaceId) (code : Code) : Guard.lax.allows ns code :=
  fun _ _ _ => not_false

theorem Guard.lax_outside (ns : NamespaceId) : Guard.lax.Outside ns := fun _ h => h.elim

theorem Code.obeys_lax (code : Code) (ns : NamespaceId) : code.Obeys .lax ns :=
  code.obeys_of_allows Guard.lax_allows ns

/-! ## Worlds -/

/-- The address of the definition has been handed out. -/
def Spaces.Allots (spaces : Spaces) (d : Definition) : Prop := d.address < spaces.taken d.owner

theorem Spaces.Allots.mono {before after : Spaces} (h : before.Lasts after) {d : Definition}
    (hd : before.Allots d) : after.Allots d :=
  Nat.lt_of_lt_of_le hd (h.taken d.owner)

/-- The addresses of all that is provided have been handed out. -/
def Spaces.AllotsAll (spaces : Spaces) (provided : List Provided) : Prop :=
  ∀ p ∈ provided, spaces.Allots p.target

theorem Spaces.AllotsAll.mono {before after : Spaces} (h : before.Lasts after)
    {provided : List Provided} (hp : before.AllotsAll provided) : after.AllotsAll provided :=
  fun p hmem => (hp p hmem).mono h

/-- The addresses of all definitions that are imported, provided or recorded have been handed
out. -/
structure World.Allotted (w : World) : Prop where
  imports : ∀ c i, w.spaces.content? c = some (.required i) → w.spaces.Allots i.provided.target
  provides : w.spaces.AllotsAll w.provides
  declarations : ∀ d ∈ w.registry.declarations, w.spaces.AllotsAll d.provides
  instances : ∀ i ∈ w.registry.instances, w.spaces.AllotsAll i.provided
  kernel : w.spaces.AllotsAll w.runtime.kernel.provided

/-- What a namespace defines has an address that it has handed out. -/
theorem Spaces.Consistent.allots_defined {spaces : Spaces} (h : spaces.Consistent) {c : CellRef}
    {d : Definition} (hc : spaces.content? c = some (.defined d)) : spaces.Allots d := by
  rw [content?] at hc
  split at hc
  · rename_i space hspace
    obtain ⟨⟨key, content⟩, hentry, hcontent⟩ := Option.map_eq_some_iff.1 hc
    obtain rfl : content = .defined d := hcontent
    obtain ⟨howner, -, haddress⟩ := (h.valid hspace).owned hentry
    rw [Allots, taken, howner, hspace]
    exact haddress
  · cases hc

theorem World.Allotted.content {w : World} (h : w.Allotted) (hw : w.Consistent) {c : CellRef}
    {content : Content} (hc : w.spaces.content? c = some content) :
    w.spaces.Allots content.target := by
  cases content with
  | defined d => exact hw.spaces.allots_defined hc
  | required i => exact h.imports c i hc

theorem World.Allotted.target {w : World} (h : w.Allotted) (hw : w.Consistent) {b : Binding}
    {d : Definition} (hd : (w.spaces.denote b).target? = some d) : w.spaces.Allots d := by
  cases b with
  | free name => cases hd
  | lexical v => cases hd
  | cell c =>
      rw [Spaces.denote] at hd
      split at hd
      · rename_i hc
        cases hd
        exact h.content hw hc
      · rename_i hc
        cases hd
        exact h.content hw hc
      · cases hd

/-- The worlds differ in values, fresh names and what else no definition is found in. -/
theorem World.Allotted.undisturbed {w w' : World} (h : w.Allotted) (hw : w.Undisturbed w')
    (hlasts : w.spaces.Lasts w'.spaces) : w'.Allotted where
  imports c i hc := by
    rw [Spaces.content?_congr hw.cells] at hc
    exact (h.imports c i hc).mono hlasts
  provides := hw.provides ▸ h.provides.mono hlasts
  declarations d hd := (h.declarations d (hw.registry ▸ hd)).mono hlasts
  instances i hi := (h.instances i (hw.registry ▸ hi)).mono hlasts
  kernel := hw.runtime ▸ h.kernel.mono hlasts

/-! ## Computations -/

/-- The computation keeps the world consistent and its addresses handed out, however it ends, and its
result, if it has one, is as given. -/
def Allots {α : Type} (P : World → α → Prop) (x : RunM α) (w : World) : Prop :=
  w.Guarded .lax → w.Allotted →
    match x w with
    | .ok a w' => w'.Guarded .lax ∧ w'.Allotted ∧ w.spaces.Later .lax w'.spaces ∧ P w' a
    | .error _ w' => w'.Guarded .lax ∧ w'.Allotted ∧ w.spaces.Later .lax w'.spaces

namespace Allots

variable {α β : Type} {P : World → α → Prop} {Q : World → β → Prop} {w : World}

theorem pure {a : α} (h : P w a) : Allots P (pure a) w := fun hw ha => ⟨hw, ha, .refl _ _, h⟩

theorem fail (e : Error) : Allots P (RunM.fail e) w := fun hw ha => ⟨hw, ha, .refl _ _⟩

theorem exhausted : Allots P RunM.exhausted w := fun hw ha => ⟨hw, ha, .refl _ _⟩

theorem ofExcept {r : Except Error α} (h : ∀ a, r = .ok a → P w a) :
    Allots P (RunM.ofExcept r) w := by
  cases r with
  | ok a => exact .pure (h a rfl)
  | error e => exact .fail e

theorem bind {x : RunM α} {f : α → RunM β} (hx : Allots P x w)
    (hf : ∀ a w', w.spaces.Later .lax w'.spaces → P w' a → Allots Q (f a) w') :
    Allots Q (x >>= f) w := by
  intro hw ha
  have hx := hx hw ha
  rw [RunM.bind_apply]
  cases hrun : x w with
  | error halt w' =>
      rw [hrun] at hx
      exact hx
  | ok a w' =>
      rw [hrun] at hx
      obtain ⟨hw', ha', hlater, hP⟩ := hx
      have hf := hf a w' hlater hP hw' ha'
      dsimp only
      cases hrun' : f a w' with
      | ok b w'' =>
          rw [hrun'] at hf
          exact ⟨hf.1, hf.2.1, hlater.trans hf.2.2.1, hf.2.2.2⟩
      | error halt w'' =>
          rw [hrun'] at hf
          exact ⟨hf.1, hf.2.1, hlater.trans hf.2.2⟩

theorem get_bind {f : World → RunM β}
    (h : w.Guarded .lax → w.Allotted → Allots Q (f w) w) : Allots Q (get >>= f) w :=
  fun hw ha => h hw ha hw ha

theorem getSpaces_bind {f : Spaces → RunM β}
    (h : w.Guarded .lax → w.Allotted → Allots Q (f w.spaces) w) :
    Allots Q (getSpaces >>= f) w :=
  fun hw ha => h hw ha hw ha

theorem mapError {f : Error → Error} {x : RunM α} (hx : Allots P x w) :
    Allots P (RunM.mapError f x) w := by
  intro hw ha
  have hx := hx hw ha
  rw [RunM.mapError]
  cases hrun : x w with
  | ok a w' =>
      rw [hrun] at hx
      exact hx
  | error halt w' =>
      rw [hrun] at hx
      cases halt <;> exact hx

theorem mono {P' : World → α → Prop} {x : RunM α} (hx : Allots P x w)
    (h : ∀ w' a, w'.Guarded .lax → w'.Allotted → w.spaces.Later .lax w'.spaces → P w' a → P' w' a) :
    Allots P' x w := by
  intro hw ha
  have hx := hx hw ha
  cases hrun : x w with
  | ok a w' =>
      rw [hrun] at hx
      exact ⟨hx.1, hx.2.1, hx.2.2.1, h w' a hx.1 hx.2.1 hx.2.2.1 hx.2.2.2⟩
  | error halt w' =>
      rw [hrun] at hx
      exact hx

/-- A computation after which part of the world is put back. -/
theorem andThen {x : RunM α} {leave : World → World} (hx : Allots P x w)
    (hleave : ∀ w', w'.Guarded .lax → w'.Allotted → w.spaces.Later .lax w'.spaces →
      (leave w').Guarded .lax ∧ (leave w').Allotted ∧ (leave w').spaces = w'.spaces) :
    Allots (fun w' a => ∃ w₁, w' = leave w₁ ∧ w₁.spaces = w'.spaces ∧ P w₁ a) (x.andThen leave) w := by
  intro hw ha
  have hx := hx hw ha
  rw [RunM.andThen]
  cases hrun : x w with
  | ok a w' =>
      rw [hrun] at hx
      obtain ⟨hw', ha', hlater, hP⟩ := hx
      obtain ⟨hguarded, hallotted, hspaces⟩ := hleave w' hw' ha' hlater
      exact ⟨hguarded, hallotted, hspaces ▸ hlater, w', rfl, hspaces.symm, hP⟩
  | error halt w' =>
      rw [hrun] at hx
      obtain ⟨hw', ha', hlater⟩ := hx
      obtain ⟨hguarded, hallotted, hspaces⟩ := hleave w' hw' ha' hlater
      exact ⟨hguarded, hallotted, hspaces ▸ hlater⟩

/-- What leaves the world undisturbed and respects the guard. -/
theorem of_tidy {x : RunM α} (hx : x.Tidy) (hguard : Respects .lax P x w) : Allots P x w := by
  intro hw ha
  have hx := hx w
  have hguard := hguard hw
  rw [RunM.leaves] at hx
  cases hrun : x w with
  | ok a w' =>
      rw [hrun] at hx hguard
      obtain ⟨hguarded, hlater, hP⟩ := hguard
      exact ⟨hguarded, ha.undisturbed hx hlater.lasting, hlater, hP⟩
  | error halt w' =>
      rw [hrun] at hx hguard
      obtain ⟨hguarded, hlater⟩ := hguard
      exact ⟨hguarded, ha.undisturbed hx hlater.lasting, hlater⟩

/-- What respects the guard, with what it does to the addresses shown apart. -/
theorem of_respects {x : RunM α} (hguard : Respects .lax P x w)
    (h : w.Guarded .lax → w.Allotted → w.spaces.Lasts (x.leaves w).spaces → (x.leaves w).Allotted) :
    Allots P x w := by
  intro hw ha
  have hguard := hguard hw
  have h := h hw ha
  rw [RunM.leaves] at h
  cases hrun : x w with
  | ok a w' =>
      rw [hrun] at h hguard
      exact ⟨hguard.1, h hguard.2.1.lasting, hguard.2.1, hguard.2.2⟩
  | error halt w' =>
      rw [hrun] at h hguard
      exact ⟨hguard.1, h hguard.2.lasting, hguard.2⟩

end Allots

/-- Whatever keeps addresses handed out. -/
def allotLogic : RunM.Logic .lax where
  later w w' := w.spaces.Later .lax w'.spaces
  Holds := Allots
  bind := Allots.bind
  getSpaces_bind h := .getSpaces_bind fun hw _ => h hw
  mapError := Allots.mapError
  of_tidy := Allots.of_tidy

/-! ## Definitions and imports -/

namespace Namespace

variable {space space' : Namespace} {key : Key} {index i : Nat} {imported : Import}

theorem required_of_file {content : Content}
    (h : (space.file key content).content? i = some (.required imported)) :
    space.content? i = some (.required imported) ∨ content = .required imported := by
  obtain ⟨entry, hentry, hcontent⟩ := Option.map_eq_some_iff.1 h
  rcases entry_of_file hentry with ⟨-, rfl⟩ | ⟨-, hold⟩
  · exact .inr hcontent
  · exact .inl (by rw [content?, hold]; exact congrArg some hcontent)

theorem required_of_swing {content : Content} (hfind : space.find? key = some index)
    (h : (space.swing index content).content? i = some (.required imported)) :
    space.content? i = some (.required imported) ∨ content = .required imported := by
  obtain ⟨old, hold, -⟩ := exists_entry_of_find? hfind
  obtain ⟨entry, hentry, hcontent⟩ := Option.map_eq_some_iff.1 h
  rcases entry_of_swing hold hentry with ⟨-, rfl⟩ | ⟨-, hsame⟩
  · exact .inr hcontent
  · exact .inl (by rw [content?, hsame]; exact congrArg some hcontent)

/-- A definition brings no import with it. -/
theorem required_of_predefine {self : NamespaceId}
    (h : space.predefine self key = .ok (index, space'))
    (hi : space'.content? i = some (.required imported)) :
    space.content? i = some (.required imported) := by
  obtain ⟨-, -, rfl⟩ | ⟨old, hfind, -, -, rfl⟩ := predefine_eq_ok.1 h
  · exact (required_of_file hi).resolve_right nofun
  · exact (@required_of_swing space.takeAddress _ _ _ _ _ hfind hi).resolve_right nofun

/-- An import brings itself with it. -/
theorem required_of_require {provided : Provided} {shadowable : Bool}
    (h : space.require key provided shadowable = .ok space')
    (hi : space'.content? i = some (.required imported)) :
    space.content? i = some (.required imported) ∨ imported.provided = provided := by
  obtain ⟨-, rfl⟩ | ⟨index, there, hfind, -, ⟨-, -, rfl⟩ | ⟨-, -, rfl⟩⟩ := require_eq_ok.1 h
  · refine (required_of_file hi).imp_right fun hnew => ?_
    cases hnew
    rfl
  · exact .inl hi
  · refine (required_of_swing hfind hi).imp_right fun hnew => ?_
    cases hnew
    rfl

end Namespace

namespace Spaces

variable {spaces spaces' : Spaces} {ns : NamespaceId} {stx : Syntax} {c : CellRef} {i : Import}

theorem content?_setIfInBounds {space space' : Namespace} (hspace : spaces[ns]? = some space) :
    Spaces.content? (spaces.setIfInBounds ns space') c =
      if c.owner = ns then space'.content? c.index else spaces.content? c := by
  rw [content?, content?, getElem?_setIfInBounds_of_some hspace]
  by_cases howner : c.owner = ns
  · rw [if_pos howner, if_pos howner]
  · rw [if_neg howner, if_neg howner]

theorem required_of_predefine {stx' : Syntax} (h : spaces.predefine ns stx = .ok (stx', spaces'))
    (hc : spaces'.content? c = some (.required i)) : spaces.content? c = some (.required i) := by
  obtain ⟨name, space, index, space', -, hspace, hdefined, -, rfl⟩ := predefine_eq_ok.1 h
  rw [content?_setIfInBounds hspace] at hc
  split at hc
  · rename_i howner
    rw [content?, howner, hspace]
    exact Namespace.required_of_predefine hdefined hc
  · exact hc

theorem required_of_require {provided : Provided} {shadowable : Bool}
    (h : spaces.require ns stx provided shadowable = .ok spaces')
    (hc : spaces'.content? c = some (.required i)) :
    spaces.content? c = some (.required i) ∨ i.provided = provided := by
  obtain ⟨name, space, space', -, hspace, hrequired, rfl⟩ := require_eq_ok.1 h
  rw [content?_setIfInBounds hspace] at hc
  split at hc
  · rename_i howner
    rw [content?, howner, hspace]
    exact Namespace.required_of_require hrequired hc
  · exact .inl hc

end Spaces

section

variable {w : World} {ns : NamespaceId}

/-- A world with other namespaces in which no import is new. -/
theorem World.Allotted.setSpaces (h : w.Allotted) {spaces : Spaces}
    (hlasts : w.spaces.Lasts spaces)
    (himports : ∀ c i, spaces.content? c = some (.required i) → spaces.Allots i.provided.target) :
    ({ w with spaces } : World).Allotted where
  imports := himports
  provides := h.provides.mono hlasts
  declarations d hd := (h.declarations d hd).mono hlasts
  instances i hi := (h.instances i hi).mono hlasts
  kernel := h.kernel.mono hlasts

theorem allots_predefine (ns : NamespaceId) (stx : Syntax) :
    Allots (fun _ _ => True) (predefine ns stx) w := by
  refine .of_respects (respects_predefine ns stx) fun hw ha hlasts => ?_
  rw [RunM.leaves, predefine_apply] at hlasts ⊢
  cases h : w.spaces.predefine ns stx with
  | error e => exact ha
  | ok result =>
      rw [h] at hlasts
      exact ha.setSpaces hlasts fun c i hc =>
        (ha.imports c i (Spaces.required_of_predefine h hc)).mono hlasts

theorem allots_require {p : Provided} (hknown : w.spaces.Knows p.target)
    (hp : w.spaces.Allots p.target) (ns : NamespaceId) (stx : Syntax) (shadowable : Bool) :
    Allots (fun _ _ => True) (require ns stx p shadowable) w := by
  refine .of_respects (respects_require hknown ns stx shadowable) fun hw ha hlasts => ?_
  rw [RunM.leaves, require_apply] at hlasts ⊢
  cases h : w.spaces.require ns stx p shadowable with
  | error e => exact ha
  | ok spaces =>
      rw [h] at hlasts
      refine ha.setSpaces hlasts fun c i hc => ?_
      rcases Spaces.required_of_require h hc with hold | hnew
      · exact (ha.imports c i hold).mono hlasts
      · exact hnew ▸ hp.mono hlasts

/-- What is provided is known, and its address has been handed out. -/
def Spaces.Offers (spaces : Spaces) (provided : List Provided) : Prop :=
  ∀ p ∈ provided, spaces.Knows p.target ∧ spaces.Allots p.target

theorem Spaces.Offers.mono {before after : Spaces} (h : before.Later .lax after)
    {provided : List Provided} (hp : before.Offers provided) : after.Offers provided :=
  fun p hmem => ⟨(hp p hmem).1.mono h.extension, (hp p hmem).2.mono h.lasting⟩

/-- What is offered is imported. -/
theorem allots_offered {provided : List Provided} (hoffers : w.spaces.Offers provided) {p : Provided}
    (hp : p ∈ provided) (ns : NamespaceId) (stx : Syntax) (shadowable : Bool) :
    Allots (fun _ _ => True) (require ns stx p shadowable) w :=
  allots_require (hoffers p hp).1 (hoffers p hp).2 ns stx shadowable

theorem allots_requireAll {i : Instance} (hi : w.spaces.Offers i.provided) (ns : NamespaceId)
    (identifier : Provided → Except Error Syntax) (shadowable : Bool) :
    Allots (fun _ _ => True) (requireAll ns identifier shadowable i.provided) w :=
  RunM.Logic.holds_requireAll (L := allotLogic) (fun w i => w.spaces.Offers i.provided)
    (fun _ _ _ h hi => hi.mono h)
    (fun _ _ stx shadowable _ hi hp => allots_offered hi hp ns stx shadowable) i.provided
    (fun _ hp => hp) hi

theorem tidy_bindDefinition (ns : NamespaceId) (d : Definition) (v : Value) :
    (bindDefinition ns d v).Tidy := by
  have hrest : (do inferName v d.name; setValue ns d.address v : RunM Unit).Tidy :=
    .of_stays ((inferName_stays v d.name).bind fun _ => setValue_stays ns d.address v)
  rw [bindDefinition]
  split
  · exact .fail_bind
  · exact hrest

theorem allots_defineValue (ns : NamespaceId) (name : String) (v : Value) :
    Allots (fun _ _ => True) (defineValue ns name v) w := by
  refine (allots_predefine ns _).bind fun stx w₁ _ _ => .getSpaces_bind fun _ _ => ?_
  split
  · exact .of_tidy (tidy_bindDefinition ns _ v)
      (respects_bindDefinition (v.obeys_of_allows Guard.lax_allows) (Guard.lax_outside ns) _)
  · exact .fail _

end

/-! ## Modules as seen by expansion -/

/-- The loader keeps addresses handed out, and offers what it gives. -/
structure Loader.Allotting (loader : Loader) : Prop where
  obedient : loader.Obedient .lax
  instantiate : ∀ id w, Allots (fun w' i => w'.spaces.Offers i.provided) (loader.instantiate id) w
  declare : ∀ id body w,
    Allots (fun w' d => w'.spaces.Offers d.provides) (loader.declare id body) w

theorem Declaration.obeys_of_offers {w : World} {d : Declaration}
    (h : w.spaces.Offers d.provides) : d.Obeys .lax w :=
  ⟨fun p hp => (h p hp).1, fun code _ => code.obeys_lax d.space⟩

section

variable {w : World} {loader : Loader} {ns : NamespaceId}

/-- Recording a declaration. -/
theorem allots_declare {d : Declaration} (hd : w.spaces.Offers d.provides) :
    Allots (fun _ _ => True) (updateRegistry fun r => r.declare d) w := by
  refine .of_respects (respects_declare (Declaration.obeys_of_offers hd)) fun hw ha _ => ?_
  have hrecorded : ({ w with registry := { w.registry with
      declarations := d :: w.registry.declarations } } : World).Allotted :=
    { ha with
      declarations := List.forall_mem_cons.2 ⟨fun p hp => (hd p hp).2, ha.declarations⟩ }
  rw [RunM.leaves, updateRegistry_apply, Registry.declare]
  cases w.registry.instance? d.id with
  | some i => exact ha
  | none => exact hrecorded

/-- A computation while a module counts as being loaded. -/
theorem allots_whileLoading {α : Type} {P : World → α → Prop} {x : RunM α}
    (hx : ∀ w, Allots P x w) (hP : ∀ w loading a, P w a → P { w with loading } a)
    (id : ModuleId) : Allots P (whileLoading id x) w := by
  refine .get_bind fun hw _ => ?_
  refine Allots.bind (P := fun _ _ => True) (.ofExcept fun _ _ => trivial) fun _ w₁ _ _ => ?_
  refine Allots.bind (P := fun _ _ => True) ?_ fun _ w₂ _ _ => ?_
  · exact .of_respects (Respects.modify_quiet ⟨rfl, rfl, rfl, rfl, rfl, rfl⟩)
      fun _ ha _ => { ha with }
  · refine Allots.mono (.andThen (hx w₂) fun w' hw' ha' _ => ?_) ?_
    · exact ⟨hw'.quiet ⟨rfl, rfl, rfl, rfl, rfl, rfl⟩, { ha' with }, rfl⟩
    · rintro _ a - - - ⟨w', rfl, -, h⟩
      exact hP w' _ a h

namespace Expansion

theorem allots_declareForm (hloader : loader.Allotting) (form : Syntax) (parts : List Syntax) :
    Allots (fun _ _ => True) (declareForm loader form parts) w := by
  unfold declareForm
  split
  · exact .fail _
  · refine Allots.bind (.of_tidy (tidy_resolveModule _ none) (harmless_resolveModule _ none w))
      fun id w₁ _ _ => ?_
    refine Allots.bind (P := fun _ _ => True) ?_ fun _ _ _ _ => .pure trivial
    refine allots_whileLoading (fun w => ?_) (fun _ _ _ _ => trivial) id
    exact (hloader.declare id _ w).bind fun d w' _ hd => allots_declare hd

theorem allots_requireSpec (hloader : loader.Allotting) (ns : NamespaceId) (spec : Syntax) :
    Allots (fun _ _ => True) (requireSpec loader ns spec) w :=
  RunM.Logic.always_requireSpec (L := allotLogic) (fun w i => w.spaces.Offers i.provided)
    (fun _ _ _ h hi => hi.mono h)
    (fun _ _ stx shadowable _ hi hp => allots_offered hi hp ns stx shadowable) hloader.instantiate
    spec w

theorem allots_recordProvided {p : Provided} (hknown : w.spaces.Knows p.target)
    (hp : w.spaces.Allots p.target) :
    Allots (fun w' _ => w'.spaces = w.spaces) (recordProvided p) w :=
  .of_respects (respects_recordProvided hknown) fun _ ha _ =>
    { ha with
      provides := List.forall_mem_append.2 ⟨ha.provides, List.forall_mem_singleton.2 hp⟩ }

theorem allots_recordEach {ds : List Definition}
    (hds : ∀ d ∈ ds, w.spaces.Knows d ∧ w.spaces.Allots d) :
    Allots (fun _ _ => True) (runEach (fun d : Definition => recordProvided ⟨d.name, d⟩) ds) w := by
  induction ds generalizing w with
  | nil => exact .pure trivial
  | cons d rest ih =>
      obtain ⟨⟨hknown, hd⟩, hrest⟩ := List.forall_mem_cons.1 hds
      refine Allots.bind (allots_recordProvided (p := ⟨d.name, d⟩) hknown hd)
        fun _ w' _ hspaces => ih ?_
      rw [hspaces]
      exact hrest

end Expansion

/-- The definitions of a namespace that are seen under names without marks are offered. -/
theorem World.Consistent.offers_unmarkedDefinitions (hw : w.Consistent) {space : Namespace}
    (hspace : w.spaces[ns]? = some space) :
    ∀ d ∈ space.unmarkedDefinitions, w.spaces.Knows d ∧ w.spaces.Allots d := by
  intro d hd
  refine ⟨hw.spaces.knows_unmarkedDefinitions hspace d hd, ?_⟩
  obtain ⟨i, e, he, hcontent⟩ := Namespace.exists_entry_of_mem_unmarkedDefinitions hd
  refine hw.spaces.allots_defined (c := ⟨ns, i⟩) ?_
  rw [Spaces.content?, hspace]
  exact (congrArg (Option.map (·.content)) he).trans (congrArg some hcontent)

theorem Expansion.allots_provideSpec (ns : NamespaceId) (spec : Syntax) :
    Allots (fun _ _ => True) (provideSpec ns spec) w := by
  refine .getSpaces_bind fun hw ha => ?_
  split
  · split
    · rename_i target htarget
      obtain ⟨b, -, htarget⟩ := Option.bind_eq_some_iff.1 htarget
      refine Allots.mono (allots_recordProvided (p := ⟨_, target⟩)
        (hw.consistent.spaces.knows_target htarget) (ha.target hw.consistent htarget)) ?_
      exact fun _ _ _ _ _ _ => trivial
    · exact .fail _
  · split
    · split
      · refine allots_recordEach ?_
        cases hspace : w.spaces[ns]? with
        | none => simp
        | some space => exact hw.consistent.offers_unmarkedDefinitions hspace
      · exact .fail _
    · exact .fail _

/-- Wherever a form is expanded, addresses stay handed out. -/
theorem allotSteps (hloader : loader.Allotting) (ns : NamespaceId) (context : ExpandContext) :
    allotLogic.Steps loader ns context where
  predefine stx _ := allots_predefine ns stx
  require spec _ := Expansion.allots_requireSpec hloader ns spec
  provide spec _ := Expansion.allots_provideSpec ns spec
  declare _ form parts _ := Expansion.allots_declareForm hloader form parts

end

end HygienicLisp
