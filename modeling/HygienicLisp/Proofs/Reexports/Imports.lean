import HygienicLisp.Proofs.Isolation.Expand
import HygienicLisp.Proofs.Reexports.Progress

/-!
# Filling the namespace of a module

While a module is declared its namespace holds nothing but bare names, and the names of the language
that keep their meaning in it stand for what they are in the language (`Underway`).  Definitions
and imports keep this and never replace what is fixed (`Builds`).

Main statements: `proceeds_predefine`, `proceeds_require` and, for what a `require` form names,
`proceeds_requireSpec`.
-/

namespace HygienicLisp

open Expansion

variable {runtime : Runtime} {w w' : World} {ns : NamespaceId} {id : ModuleId}

/-- The namespace is that of the module, which is being declared. -/
structure Underway (runtime : Runtime) (ns : NamespaceId) (id : ModuleId) (w : World) : Prop where
  outside : runtime.languageGuard.Outside ns
  home : w.spaces.IsHome ns id
  bare : w.spaces.BareModule ns
  untouched : ∀ name, runtime.Untouched id name → ∃ content p,
    w.spaces.named? ns name = some content ∧ runtime.kernel.provided? name = some p ∧
      content.target = p.target

/-- The declaration of the module has gone on from the one world to the other. -/
structure Builds (runtime : Runtime) (ns : NamespaceId) (id : ModuleId) (w w' : World) : Prop where
  underway : Underway runtime ns id w'
  fixed : ∀ name content, w.spaces.named? ns name = some content → content.Fixed →
    w'.spaces.named? ns name = some content
  provides : w'.provides = w.provides

/-- The name is imported for good, and leads to the definition. -/
def Spaces.Imports (spaces : Spaces) (ns : NamespaceId) (name : String) (t : Definition) : Prop :=
  ∃ i : Import, spaces.named? ns name = some (.required i) ∧ i.shadowable = false ∧
    i.provided.target = t

theorem Builds.refl (h : Underway runtime ns id w) : Builds runtime ns id w w :=
  ⟨h, fun _ _ hname _ => hname, rfl⟩

theorem Builds.trans {w'' : World} (h : Builds runtime ns id w w')
    (h' : Builds runtime ns id w' w'') : Builds runtime ns id w w'' where
  underway := h'.underway
  fixed name content hname hfixed :=
    h'.fixed name content (h.fixed name content hname hfixed) hfixed
  provides := h'.provides.trans h.provides

theorem Builds.imports (h : Builds runtime ns id w w') {name : String} {t : Definition}
    (hname : w.spaces.Imports ns name t) : w'.spaces.Imports ns name t := by
  obtain ⟨i, hi, hexplicit, ht⟩ := hname
  exact ⟨i, h.fixed name _ hi hexplicit, hexplicit, ht⟩

theorem Underway.lt_size (h : Underway runtime ns id w) : ns < w.spaces.size := by
  obtain ⟨space, hspace, -⟩ := h.home
  exact (Array.getElem?_eq_some_iff.1 hspace).1

theorem Spaces.bareModule_congr {spaces spaces' : Spaces} (h : spaces'.cells ns = spaces.cells ns)
    (hbare : spaces.BareModule ns) : spaces'.BareModule ns := by
  obtain ⟨space, hspace, hkind, hkeys⟩ := hbare
  rw [cells, cells, hspace, Option.map_some, Option.map_eq_some_iff] at h
  obtain ⟨space', hspace', hsame⟩ := h
  refine ⟨space', hspace', (congrArg Prod.fst hsame).trans hkind, ?_⟩
  have hentries : space'.entries = space.entries := congrArg (·.2.2) hsame
  rw [Namespace.Bare, Namespace.keys, hentries]
  exact hkeys

/-- What leaves the cells of the namespace alone. -/
theorem Underway.congr (h : Underway runtime ns id w) (hextends : w.spaces.Extends w'.spaces)
    (hcells : w'.spaces.cells ns = w.spaces.cells ns) : Underway runtime ns id w' := by
  refine ⟨h.outside, h.home.mono hextends, Spaces.bareModule_congr hcells h.bare, ?_⟩
  intro name hname
  rw [Spaces.named?_congr hcells]
  exact h.untouched name hname

theorem Underway.builds (h : Underway runtime ns id w)
    (hextends : w.spaces.Extends w'.spaces) (hcells : w'.spaces.cells ns = w.spaces.cells ns)
    (hprovides : w'.provides = w.provides) : Builds runtime ns id w w' := by
  refine ⟨h.congr hextends hcells, fun name content hcontent _ => ?_, hprovides⟩
  rwa [Spaces.named?_congr hcells]

/-- What writes one name in the namespace. -/
theorem Underway.writes (h : Underway runtime ns id w) {name : String} {content : Content}
    {spaces' : Spaces} (hwrites : w.spaces.Writes ns name content spaces')
    (hextends : w.spaces.Extends spaces')
    (hsafe : runtime.Untouched id name → ∀ p, runtime.kernel.provided? name = some p →
      content.target = p.target) :
    Builds runtime ns id w { w with spaces := spaces' } := by
  refine ⟨⟨h.outside, h.home.mono hextends, hwrites.bare h.bare, ?_⟩, ?_, rfl⟩
  · intro other hother
    obtain ⟨old, p, hold, hp, htarget⟩ := h.untouched other hother
    by_cases hsame : other = name
    · subst hsame
      exact ⟨content, p, by rw [hwrites.here, if_pos rfl], hp, hsafe hother p hp⟩
    · exact ⟨old, p, by rw [hwrites.here, if_neg hsame]; exact hold, hp, htarget⟩
  · intro other old hold hfixed
    show spaces'.named? ns other = some old
    rw [hwrites.here]
    by_cases hsame : other = name
    · subst hsame
      rw [if_pos rfl, hwrites.fixed h.bare old hold hfixed]
    · rw [if_neg hsame, hold]

/-- A change of one namespace takes nothing back. -/
theorem World.Faithful.change (hw : w.Faithful runtime) {spaces' : Spaces}
    (helsewhere : ∀ other, other ≠ ns → spaces'[other]? = w.spaces[other]?)
    (hguarded : ({ w with spaces := spaces' } : World).Guarded runtime.languageGuard)
    (hlater : w.spaces.Later runtime.languageGuard spaces') :
    ({ w with spaces := spaces' } : World).Faithful runtime ∧
      w.Advances runtime { space := some ns } { w with spaces := spaces' } := by
  have hadvances : w.Advances runtime { space := some ns } { w with spaces := spaces' } := by
    refine ⟨hlater, ?_, rfl, rfl, fun _ _ h => h, fun _ _ h => h, fun _ _ _ => rfl⟩
    intro other _ hother
    rw [Spaces.cells, Spaces.cells]
    rw [helsewhere other fun hsame => hother (congrArg some hsame.symm)]
  exact ⟨hw.advance hadvances hguarded rfl, hadvances⟩

/-- What may change nothing may be done while the module is being declared. -/
theorem Underway.proceeds {α : Type} (h : Underway runtime ns id w) {P : World → α → Prop}
    {x : RunM α} (hx : Proceeds runtime {} P x w)
    (hprovides : ∀ w' a, P w' a → w'.provides = w.provides) :
    Proceeds runtime { space := some ns } (fun w' a => Builds runtime ns id w w' ∧ P w' a) x w := by
  intro hw
  have hx := hx hw
  cases hrun : x w with
  | error halt w' =>
      rw [hrun] at hx
      exact ⟨hx.1, hx.2.within _⟩
  | ok a w' =>
      rw [hrun] at hx
      obtain ⟨hw', hadvances, ha⟩ := hx
      have hcells := hadvances.cells ns h.lt_size (by simp)
      have hbuilds := h.builds hadvances.later.extension hcells (hprovides w' a ha)
      exact ⟨hw', hadvances.within _, hbuilds, ha⟩

/-- What leaves the world undisturbed may be done, too. -/
theorem Underway.tidy {α : Type} (h : Underway runtime ns id w) {P : World → α → Prop}
    {x : RunM α} (hx : x.Tidy) (hguard : Respects runtime.languageGuard P x w) :
    Proceeds runtime { space := some ns } (fun w' a => Builds runtime ns id w w' ∧ P w' a) x w := by
  refine (h.proceeds (.of_tidy hx hguard) fun w' a ha => ha.1.provides).mono ?_
  rintro w' a - - ⟨hbuilds, -, ha⟩
  exact ⟨hbuilds, ha⟩

/-! ## Definitions and imports -/

/-- A name that is not left to the language is defined. -/
theorem proceeds_predefine (h : Underway runtime ns id w) {stx : Syntax} {name : String}
    (hstx : stx.Names ns name) (hname : ¬runtime.Untouched id name) :
    Proceeds runtime { space := some ns }
      (fun w' _ => Builds runtime ns id w w' ∧ ∃ d, w'.spaces.named? ns name = some (.defined d))
      (predefine ns stx) w := by
  intro hw
  rw [predefine_apply]
  cases hresult : w.spaces.predefine ns stx with
  | error e => exact ⟨hw, .refl _ _ w⟩
  | ok result =>
      obtain ⟨stx', spaces'⟩ := result
      obtain ⟨d, -, hwrites⟩ := Spaces.writes_predefine hstx hresult
      obtain ⟨hguarded, hlater⟩ := hw.guarded.change (Spaces.change_of_predefine hresult)
        (.of_predefine hresult)
      obtain ⟨hw', hadvances⟩ := hw.change hwrites.elsewhere hguarded hlater
      refine ⟨hw', hadvances, ?_, d, (hwrites.here name).trans (if_pos rfl)⟩
      exact h.writes hwrites hlater.extension fun huntouched => absurd huntouched hname

/-- An import writes one name. -/
theorem proceeds_writes {stx : Syntax} {name : String} (hstx : stx.Names ns name) {p : Provided}
    (hknown : w.spaces.Knows p.target) (shadowable : Bool) :
    Proceeds runtime { space := some ns }
      (fun w' _ => ∃ (i : Import) (spaces' : Spaces), w' = { w with spaces := spaces' } ∧
        i.provided.target = p.target ∧ (shadowable = false → i.shadowable = false) ∧
        w.spaces.Writes ns name (.required i) spaces' ∧ w.spaces.Extends spaces')
      (require ns stx p shadowable) w := by
  intro hw
  rw [require_apply]
  cases hresult : w.spaces.require ns stx p shadowable with
  | error e => exact ⟨hw, .refl _ _ w⟩
  | ok spaces' =>
      obtain ⟨i, htarget, hexplicit, hwrites⟩ := Spaces.writes_require hstx hresult
      obtain ⟨hguarded, hlater⟩ := hw.guarded.change_or_same
        (Spaces.change_of_require hknown hresult) (.of_require hresult)
      obtain ⟨hw', hadvances⟩ := hw.change hwrites.elsewhere hguarded hlater
      exact ⟨hw', hadvances, i, spaces', rfl, htarget, hexplicit, hwrites, hlater.extension⟩

/-- A provided definition is imported, if it is not one that would hide a name of the language. -/
theorem proceeds_require (h : Underway runtime ns id w) {stx : Syntax} {name : String}
    (hstx : stx.Names ns name) {p : Provided} (hknown : w.spaces.Knows p.target)
    (hsafe : runtime.Untouched id name → ∀ q, runtime.kernel.provided? name = some q →
      p.target = q.target) :
    Proceeds runtime { space := some ns }
      (fun w' _ => Builds runtime ns id w w' ∧ w'.spaces.Imports ns name p.target)
      (require ns stx p false) w := by
  refine (proceeds_writes hstx hknown false).mono ?_
  rintro _ _ - - ⟨i, spaces', rfl, htarget, hexplicit, hwrites, hextends⟩
  refine ⟨h.writes hwrites hextends ?_, i, ?_, hexplicit rfl, htarget⟩
  · intro huntouched q hq
    exact htarget.trans (hsafe huntouched q hq)
  · exact (hwrites.here name).trans (if_pos rfl)

/-! ## What a `require` names -/

/-- The loader leads to faithful instances. -/
def Loader.Faithful (runtime : Runtime) (loader : Loader) : Prop :=
  ∀ id w, Proceeds runtime {}
    (fun w' i => w'.registry.instance? id = some i ∧ w'.provides = w.provides)
    (loader.instantiate id) w

theorem World.Faithful.knows (hw : w.Faithful runtime) {dep : ModuleId} {i : Instance}
    (hi : w.registry.instance? dep = some i) : i.Known w.spaces :=
  hw.guarded.consistent.instances i (List.mem_of_find?_eq_some hi)

theorem instance_id {dep : ModuleId} {i : Instance} (hi : w.registry.instance? dep = some i) :
    i.id = dep := by
  simpa using List.find?_some hi

theorem Instance.name_of_provided? {i : Instance} {name : String} {p : Provided}
    (hp : i.provided? name = some p) : p.name = name := by
  simpa using List.find?_some hp

/-- A name of an instance is imported under a name that need not be the same.  If it keeps its meaning,
it does in the module that it comes from. -/
theorem proceeds_import (h : Underway runtime ns id w) (hw : w.Faithful runtime) {dep : ModuleId}
    {i : Instance} (hi : w.registry.instance? dep = some i) {p : Provided} (hp : p ∈ i.provided)
    {stx : Syntax} {name : String} (hstx : stx.Names ns name)
    (hname : runtime.Untouched id name → name = p.name ∧ runtime.Untouched dep name) :
    Proceeds runtime { space := some ns }
      (fun w' _ => Builds runtime ns id w w' ∧ w'.spaces.Imports ns name p.target)
      (require ns stx p false) w := by
  refine proceeds_require h hstx (hw.knows hi p hp) ?_
  intro huntouched q hq
  obtain ⟨rfl, hdep⟩ := hname huntouched
  rw [← instance_id hi] at hdep
  exact (hw.instances dep i hi).language p hp hdep q hq

theorem proceeds_requireAll {dep : ModuleId} {i : Instance} {spec : Syntax}
    (hspec : spec.wraps = [.space ns])
    (hkept : ∀ name, runtime.Untouched id name → runtime.Untouched dep name) (ps : List Provided)
    (hps : ∀ p ∈ ps, p ∈ i.provided)
    (h : Underway runtime ns id w) (hw : w.Faithful runtime)
    (hi : w.registry.instance? dep = some i) :
    Proceeds runtime { space := some ns }
      (fun w' _ => Builds runtime ns id w w' ∧ ∀ p ∈ ps, w'.spaces.Imports ns p.name p.target)
      (requireAll ns (fun p => Syntax.ofDatum (.atom (.symbol p.name)) (some spec)) false ps) w := by
  induction ps generalizing w with
  | nil => exact .pure ⟨.refl h, by simp⟩
  | cons p rest ih =>
      obtain ⟨hp, hrest⟩ := List.forall_mem_cons.1 hps
      refine Proceeds.bind (P := fun w' stx => w' = w ∧ stx.Names ns p.name)
        (.ofExcept fun stx hstx => ⟨rfl, ?_⟩) ?_
      · cases hstx
        rw [hspec]
        exact ⟨rfl, rfl, rfl⟩
      rintro stx w₁ hw₁ - ⟨rfl, hstx⟩
      refine (proceeds_import h hw hi hp hstx fun hname => ⟨rfl, hkept p.name hname⟩).bind ?_
      intro _ w₂ hw₂ hadvances hw₂'
      obtain ⟨hbuilds, hname⟩ := hw₂'
      refine (ih hrest hbuilds.underway hw₂ (hadvances.instances _ _ hi)).mono ?_
      rintro w₃ - - - ⟨hbuilds', hnames⟩
      exact ⟨hbuilds.trans hbuilds', List.forall_mem_cons.2 ⟨hbuilds'.imports hname, hnames⟩⟩

/-- What an instance provides is found under its name. -/
theorem exported_eq_ok {i : Instance} {stx : Syntax} {name : String} (hname : stx.symbol? = some name)
    {p : Provided} (hp : exported i stx = .ok p) : i.provided? name = some p := by
  unfold exported at hp
  rw [hname] at hp
  dsimp only [Option.getD_some] at hp
  split at hp
  · rename_i hfind
    cases hp
    exact hfind
  · cases hp

/-- The imports that a specification brings have been made. -/
def Brought (ns : NamespaceId) (i : Instance) (spaces : Spaces) (exported here : String) : Prop :=
  ∀ p, i.provided? exported = some p → spaces.Imports ns here p.target

theorem proceeds_requireOnly {dep : ModuleId} {i : Instance} {stxs : List Syntax}
    {names : List String} (hnames : List.Forall₂ (fun stx name => stx.bareName? = some name) stxs names)
    (hkept : ∀ name ∈ names, runtime.Untouched id name → runtime.Untouched dep name)
    (h : Underway runtime ns id w) (hw : w.Faithful runtime)
    (hi : w.registry.instance? dep = some i) :
    Proceeds runtime { space := some ns }
      (fun w' _ => Builds runtime ns id w w' ∧ ∀ name ∈ names, Brought ns i w'.spaces name name)
      (requireOnly ns i (stxs.map (Syntax.introduce ns))) w := by
  induction hnames generalizing w with
  | nil => exact .pure ⟨.refl h, by simp⟩
  | @cons stx name stxs names hname _ ih =>
      obtain ⟨hhere, hrest⟩ := List.forall_mem_cons.1 hkept
      have hstx := Syntax.names_introduce ns hname
      rw [List.map_cons, requireOnly]
      refine .check fun _ => ?_
      refine Proceeds.bind (P := fun w' p => w' = w ∧ i.provided? name = some p)
        (.ofExcept fun p hp => ⟨rfl, exported_eq_ok hstx.symbol hp⟩) ?_
      rintro p w₁ hw₁ - ⟨rfl, hp⟩
      have hmem := List.mem_of_find?_eq_some hp
      have hsame : name = p.name := (Instance.name_of_provided? hp).symm
      refine (proceeds_import h hw hi hmem hstx fun hname => ⟨hsame, hhere hname⟩).bind ?_
      rintro _ w₂ hw₂ hadvances ⟨hbuilds, himport⟩
      refine (ih hrest hbuilds.underway hw₂ (hadvances.instances _ _ hi)).mono ?_
      rintro w₃ - - - ⟨hbuilds', hbrought⟩
      refine ⟨hbuilds.trans hbuilds', List.forall_mem_cons.2 ⟨fun q hq => ?_, hbrought⟩⟩
      cases hp.symm.trans hq
      exact hbuilds'.imports himport

/-- The parts of a pair of names. -/
theorem readRenaming?_eq_some {pair : Syntax} {names : String × String}
    (h : readRenaming? pair = some names) :
    ∃ name target, pair.subforms = [name, target] ∧ name.symbol? = some names.1 ∧
      target.bareName? = some names.2 := by
  unfold readRenaming? at h
  split at h
  · rename_i name target hparts
    obtain ⟨exported, hexported, h⟩ := Option.bind_eq_some_iff.1 h
    obtain ⟨here, hhere, h⟩ := Option.bind_eq_some_iff.1 h
    cases h
    exact ⟨name, target, hparts, hexported, hhere⟩
  · cases h

theorem proceeds_requireRenamed {dep : ModuleId} {i : Instance} {stxs : List Syntax}
    {pairs : List (String × String)}
    (hpairs : List.Forall₂ (fun stx pair => readRenaming? stx = some pair) stxs pairs)
    (hnew : ∀ pair ∈ pairs, ¬runtime.Untouched id pair.2)
    (h : Underway runtime ns id w) (hw : w.Faithful runtime)
    (hi : w.registry.instance? dep = some i) :
    Proceeds runtime { space := some ns }
      (fun w' _ => Builds runtime ns id w w' ∧
        ∀ pair ∈ pairs, Brought ns i w'.spaces pair.1 pair.2)
      (requireRenamed ns i (stxs.map (Syntax.introduce ns))) w := by
  induction hpairs generalizing w with
  | nil => exact .pure ⟨.refl h, by simp⟩
  | @cons stx pair stxs pairs hpair _ ih =>
      obtain ⟨hhere, hrest⟩ := List.forall_mem_cons.1 hnew
      obtain ⟨name, target, hparts, hname, htarget⟩ := readRenaming?_eq_some hpair
      have hstx := Syntax.names_introduce ns htarget
      rw [List.map_cons, requireRenamed, Syntax.subforms_introduce, hparts]
      refine .check fun _ => ?_
      refine Proceeds.bind (P := fun w' p => w' = w ∧ i.provided? pair.1 = some p)
        (.ofExcept fun p hp => ⟨rfl, exported_eq_ok ((Syntax.symbol?_introduce _).trans hname) hp⟩)
        ?_
      rintro p w₁ hw₁ - ⟨rfl, hp⟩
      have hmem := List.mem_of_find?_eq_some hp
      refine (proceeds_import h hw hi hmem hstx fun hname => absurd hname hhere).bind ?_
      rintro _ w₂ hw₂ hadvances ⟨hbuilds, himport⟩
      refine (ih hrest hbuilds.underway hw₂ (hadvances.instances _ _ hi)).mono ?_
      rintro w₃ - - - ⟨hbuilds', hbrought⟩
      refine ⟨hbuilds.trans hbuilds', List.forall_mem_cons.2 ⟨fun q hq => ?_, hbrought⟩⟩
      cases hp.symm.trans hq
      exact hbuilds'.imports himport

/-! ## Specifications -/

/-- The instance of the module that a path names. -/
theorem proceeds_requiredInstance {loader : Loader} (hloader : loader.Faithful runtime)
    (h : Underway runtime ns id w) {stx : Syntax} {path : String}
    (hpath : stx.writtenPath? = some path) :
    Proceeds runtime { space := some ns }
      (fun w' i => Builds runtime ns id w w' ∧ ∃ dep, runtime.required? path id = some dep ∧
        w'.registry.instance? dep = some i)
      (requiredInstance loader ns (stx.introduce ns)) w := by
  have hwritten : modulePath (stx.introduce ns) = pure path := by
    unfold Syntax.writtenPath? at hpath
    split at hpath
    · cases hpath
      rfl
    · cases hpath
      rfl
    · cases hpath
  unfold requiredInstance
  rw [hwritten, pure_bind]
  refine .getSpaces_bind fun hw => ?_
  obtain ⟨space, hspace, hhome⟩ := h.home
  dsimp only
  rw [hspace, Option.map_some, hhome]
  refine Proceeds.bind (P := fun w' dep => w' = w ∧ runtime.required? path id = some dep)
    (.mapError ?_) ?_
  · refine .get_bind fun _ => ?_
    dsimp only
    rw [hw.hosted]
    split
    · rename_i hkernel
      exact .pure ⟨rfl, by rw [Runtime.required?, if_pos hkernel]⟩
    · rename_i hkernel
      refine .ofExcept fun dep hdep => ⟨rfl, ?_⟩
      rw [Runtime.required?, if_neg hkernel, hdep]
      rfl
  · rintro dep w₁ - - ⟨rfl, hdep⟩
    refine (h.proceeds (hloader dep w₁).mapError fun w' i hi => hi.2).mono ?_
    rintro w' i - - ⟨hbuilds, hi, -⟩
    exact ⟨hbuilds, dep, hdep, hi⟩

/-- What the specification names has been imported: under each name that it brings in there is what
its module exports. -/
def ImportSpec.Done (runtime : Runtime) (ns : NamespaceId) (id : ModuleId) (w : World)
    (spec : ImportSpec) : Prop :=
  ∀ dep exported here origin, runtime.required? spec.path id = some dep → spec.Brings exported here →
    runtime.Exports dep exported origin → ∃ t, w.spaces.Imports ns here t ∧ w.Defines origin t

theorem ImportSpec.Done.of_brought {spec : ImportSpec} {dep : ModuleId} {i : Instance}
    (hw : w.Faithful runtime) (hdep : runtime.required? spec.path id = some dep)
    (hi : w.registry.instance? dep = some i)
    (hbrought : ∀ exported here, spec.Brings exported here → Brought ns i w.spaces exported here) :
    spec.Done runtime ns id w := by
  intro dep' exported here origin hdep' hbrings hexports
  cases hdep.symm.trans hdep'
  rw [← instance_id hi] at hexports
  obtain ⟨p, hp, hdefines⟩ := (hw.instances dep i hi).exports exported origin hexports
  exact ⟨p.target, hbrought exported here hbrings p hp, hdefines⟩

/-- The specification gives no name of the language that is kept a new meaning, and brings it from where
it is kept only. -/
structure ImportSpec.Fits (runtime : Runtime) (id : ModuleId) (spec : ImportSpec) : Prop where
  newNames : ∀ name ∈ spec.newNames, ¬runtime.Untouched id name
  kept : ∀ dep name, runtime.required? spec.path id = some dep → spec.Brings name name →
    runtime.Untouched id name → runtime.Untouched dep name

/-- A specification of a `require`. -/
theorem proceeds_requireSpec {loader : Loader} (hloader : loader.Faithful runtime) {stx : Syntax}
    {spec : ImportSpec} (hspec : ImportSpec.read? stx = some spec)
    (hfits : spec.Fits runtime id) (h : Underway runtime ns id w) :
    Proceeds runtime { space := some ns }
      (fun w' _ => Builds runtime ns id w w' ∧ spec.Done runtime ns id w')
      (requireSpec loader ns (stx.introduce ns)) w := by
  unfold requireSpec
  rw [Syntax.subforms?_introduce]
  unfold ImportSpec.read? at hspec
  split at hspec
  · rename_i hparts
    split at hspec
    -- A bare path imports all that the module provides.
    · rename_i hplain
      obtain ⟨path, hpath, rfl⟩ := Option.map_eq_some_iff.1 hspec
      rw [hparts]
      refine (proceeds_requiredInstance hloader h hpath).bind ?_
      rintro i w₁ hw₁ - ⟨hbuilds, dep, hdep, hi⟩
      have hwraps := Syntax.wraps_introduce ns (List.isEmpty_iff.1 hplain)
      refine (proceeds_requireAll hwraps (fun name => hfits.kept dep name hdep rfl) i.provided
        (fun p hp => hp) hbuilds.underway hw₁ hi).mono ?_
      rintro w₂ - hw₂ hadvances ⟨hbuilds', hnames⟩
      refine ⟨hbuilds.trans hbuilds', .of_brought hw₂ hdep (hadvances.instances _ _ hi) ?_⟩
      rintro exported _ rfl p hp
      exact Instance.name_of_provided? hp ▸ hnames p (List.mem_of_find?_eq_some hp)
    · cases hspec
  · rename_i keyword path operands hparts
    rw [hparts, Option.map_some, List.map_cons, List.map_cons]
    dsimp only
    rw [Syntax.symbol?_introduce]
    split at hspec
    · rename_i hkeyword
      obtain ⟨path, hpath, hspec⟩ := Option.bind_eq_some_iff.1 hspec
      obtain ⟨names, hnames, hspec⟩ := Option.bind_eq_some_iff.1 hspec
      cases hspec
      rw [if_pos hkeyword]
      refine (proceeds_requiredInstance hloader h hpath).bind ?_
      rintro i w₁ hw₁ - ⟨hbuilds, dep, hdep, hi⟩
      have hkept : ∀ name ∈ names, runtime.Untouched id name → runtime.Untouched dep name :=
        fun name hname => hfits.kept dep name hdep ⟨rfl, hname⟩
      refine (proceeds_requireOnly (forall₂_of_mapM hnames) hkept hbuilds.underway hw₁ hi).mono ?_
      rintro w₂ - hw₂ hadvances ⟨hbuilds', hbrought⟩
      refine ⟨hbuilds.trans hbuilds', .of_brought hw₂ hdep (hadvances.instances _ _ hi) ?_⟩
      rintro exported _ ⟨rfl, hmem⟩
      exact hbrought exported hmem
    split at hspec
    · rename_i hkeyword hrename
      obtain ⟨path, hpath, hspec⟩ := Option.bind_eq_some_iff.1 hspec
      obtain ⟨pairs, hpairs, hspec⟩ := Option.bind_eq_some_iff.1 hspec
      cases hspec
      rw [if_neg hkeyword, if_pos hrename]
      refine (proceeds_requiredInstance hloader h hpath).bind ?_
      rintro i w₁ hw₁ - ⟨hbuilds, dep, hdep, hi⟩
      refine (proceeds_requireRenamed (forall₂_of_mapM hpairs) ?_ hbuilds.underway hw₁ hi).mono ?_
      · intro pair hpair
        exact hfits.newNames pair.2 (List.mem_map_of_mem hpair)
      rintro w₂ - hw₂ hadvances ⟨hbuilds', hbrought⟩
      refine ⟨hbuilds.trans hbuilds', .of_brought hw₂ hdep (hadvances.instances _ _ hi) ?_⟩
      intro exported here hmem
      exact hbrought (exported, here) hmem
    · cases hspec
  · cases hspec

end HygienicLisp
