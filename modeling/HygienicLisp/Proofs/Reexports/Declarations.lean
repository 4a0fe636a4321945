import HygienicLisp.Proofs.Reexports.Bodies

/-!
# The second pass, and declarations

The second pass expands and compiles what the first has left.  Nothing in the namespace changes any
more, so what is provided is what the names stand for at the end of the first pass.  From that, a
declared module provides what it exports.

Main statements: `proceeds_secondPass`, `proceeds_passes` for a module that consists of items, and
`proceeds_declareModule`, which leads any module to its passes.
-/

namespace HygienicLisp

open Expansion

variable {runtime : Runtime} {w w' : World} {ns : NamespaceId} {id : ModuleId} {loader : Loader}

/-! ## What has been provided -/

/-- What the specification names has been provided. -/
def ExportSpec.Recorded (ns : NamespaceId) (w : World) : ExportSpec → Prop
  | .name exported => ∃ p ∈ w.provides, p.name = exported
  | .allDefined => ∀ name d, w.spaces.named? ns name = some (.defined d) →
      ∃ p ∈ w.provides, p.name = name

/-- What has been provided leads to what its name stands for. -/
def World.Publishes (w : World) (ns : NamespaceId) : Prop :=
  ∀ p ∈ w.provides, ∃ content, w.spaces.named? ns p.name = some content ∧
    content.target = p.target

/-- What the item provides. -/
def Item.exportSpecs : Item → List ExportSpec
  | .provide specs => specs
  | _ => []

/-- The later world provides what the specifications name, too. -/
structure Published (ns : NamespaceId) (specs : List ExportSpec) (w w' : World) : Prop where
  cells : w'.spaces.cells ns = w.spaces.cells ns
  kept : ∀ p ∈ w.provides, p ∈ w'.provides
  publishes : w.Publishes ns → w'.Publishes ns
  recorded : ∀ spec ∈ specs, spec.Recorded ns w'

theorem ExportSpec.Recorded.later {spec : ExportSpec} (h : spec.Recorded ns w)
    (hcells : w'.spaces.cells ns = w.spaces.cells ns) (hkept : ∀ p ∈ w.provides, p ∈ w'.provides) :
    spec.Recorded ns w' := by
  cases spec with
  | name exported =>
      obtain ⟨p, hp, hname⟩ := h
      exact ⟨p, hkept p hp, hname⟩
  | allDefined =>
      intro name d hd
      rw [Spaces.named?_congr hcells] at hd
      obtain ⟨p, hp, hname⟩ := h name d hd
      exact ⟨p, hkept p hp, hname⟩

theorem Published.refl (ns : NamespaceId) (w : World) : Published ns [] w w :=
  ⟨rfl, fun _ hp => hp, id, by simp⟩

theorem Published.trans {w'' : World} {specs specs' : List ExportSpec}
    (h : Published ns specs w w') (h' : Published ns specs' w' w'') :
    Published ns (specs ++ specs') w w'' where
  cells := h'.cells.trans h.cells
  kept p hp := h'.kept p (h.kept p hp)
  publishes hw := h'.publishes (h.publishes hw)
  recorded := by
    intro spec hspec
    rcases List.mem_append.1 hspec with hspec | hspec
    · exact (h.recorded spec hspec).later h'.cells h'.kept
    · exact h'.recorded spec hspec

theorem Published.of_undisturbed (h : w.Undisturbed w') : Published ns [] w w' := by
  have hcells := congrFun h.cells ns
  refine ⟨hcells, fun p hp => h.provides ▸ hp, fun hw p hp => ?_, by simp⟩
  rw [h.provides] at hp
  rw [Spaces.named?_congr hcells]
  exact hw p hp

/-! ## Providing -/

theorem proceeds_recordProvided {reach : Reach} {p : Provided} (hp : w.spaces.Knows p.target) :
    Proceeds runtime reach (fun w' _ => w' = { w with provides := w.provides ++ [p] })
      (recordProvided p) w := by
  intro hw
  have hadvances : w.Advances runtime reach { w with provides := w.provides ++ [p] } :=
    ⟨.refl _ _, fun _ _ _ => rfl, rfl, rfl, fun _ _ h => h, fun _ _ h => h, fun _ _ _ => rfl⟩
  exact ⟨hw.advance hadvances (respects_recordProvided hp hw.guarded).1 rfl, hadvances, rfl⟩

/-- A name is provided as what it stands for. -/
theorem proceeds_record (ns : NamespaceId) {reach : Reach} {p : Provided} {content : Content}
    (hp : w.spaces.Knows p.target) (hname : w.spaces.named? ns p.name = some content)
    (htarget : content.target = p.target) :
    Proceeds runtime reach (fun w' _ => Published ns [.name p.name] w w') (recordProvided p) w := by
  refine (proceeds_recordProvided hp).mono ?_
  rintro _ _ - - rfl
  refine ⟨rfl, fun q hq => List.mem_append_left _ hq, fun hw q hq => ?_, ?_⟩
  · rcases List.mem_append.1 hq with hq | hq
    · exact hw q hq
    · obtain rfl := List.mem_singleton.1 hq
      exact ⟨content, hname, htarget⟩
  · rw [List.forall_mem_singleton]
    exact ⟨p, List.mem_append_right _ (List.mem_singleton_self p), rfl⟩

theorem proceeds_recordEach (ns : NamespaceId) {reach : Reach} (ds : List Definition)
    (hds : ∀ d ∈ ds, w.spaces.Knows d ∧ w.spaces.named? ns d.name = some (.defined d)) :
    Proceeds runtime reach
      (fun w' _ => Published ns (ds.map fun d => .name d.name) w w')
      (runEach (fun d : Definition => recordProvided ⟨d.name, d⟩) ds) w := by
  induction ds generalizing w with
  | nil => exact .pure (.refl ns w)
  | cons d rest ih =>
      obtain ⟨⟨hd, hname⟩, hrest⟩ := List.forall_mem_cons.1 hds
      refine (proceeds_record ns hd hname rfl).bind ?_
      rintro _ w₁ - hadvances hpublished
      refine (ih fun e he => ?_).mono fun w₂ _ _ _ h => hpublished.trans h
      obtain ⟨hknown, hdefined⟩ := hrest e he
      rw [Spaces.named?_congr hpublished.cells]
      exact ⟨hknown.mono hadvances.later.extension, hdefined⟩

/-- A specification of a `provide`. -/
theorem proceeds_provideSpec {reach : Reach} {stx : Syntax} {spec : ExportSpec}
    (hspec : ExportSpec.read? stx = some spec) (h : Underway runtime ns id w) :
    Proceeds runtime reach (fun w' _ => Published ns [spec] w w')
      (provideSpec ns (stx.introduce ns)) w := by
  refine .getSpaces_bind fun hw => ?_
  have hconsistent := hw.guarded.consistent.spaces
  rw [Syntax.symbol?_introduce]
  unfold ExportSpec.read? at hspec
  cases hsymbol : stx.symbol? with
  | some name =>
      rw [hsymbol] at hspec
      obtain ⟨exported, hbare, rfl⟩ := Option.map_eq_some_iff.1 hspec
      have hstx := Syntax.names_introduce ns hbare
      obtain rfl : name = exported := by
        have hsame := hstx.symbol
        rw [Syntax.symbol?_introduce, hsymbol] at hsame
        exact Option.some.inj hsame
      dsimp only
      split
      · rename_i target htarget
        obtain ⟨b, -, hb⟩ := Option.bind_eq_some_iff.1 htarget
        rw [Spaces.target?_names (hw.language.live ns) hstx] at htarget
        obtain ⟨content, hcontent, rfl⟩ := Option.map_eq_some_iff.1 htarget
        have hknown : w.spaces.Knows (Provided.mk name content.target).target :=
          hconsistent.knows_target hb
        exact proceeds_record ns hknown hcontent rfl
      · exact .fail _
  | none =>
      rw [hsymbol] at hspec
      dsimp only at hspec ⊢
      split at hspec
      · rename_i keyword hparts
        split at hspec
        · rename_i hkeyword
          cases hspec
          rw [Syntax.subforms_introduce, hparts, List.map_singleton]
          dsimp only
          rw [Syntax.symbol?_introduce, if_pos hkeyword]
          obtain ⟨space, hspace, -, hbare⟩ := h.bare
          rw [hspace]
          dsimp only
          -- The keys are bare, so the definitions without marks are those that a name finds.
          have hmem (d : Definition) := Namespace.mem_unmarkedDefinitions (d := d)
            hbare.freeNames (hconsistent.valid hspace)
          refine (proceeds_recordEach ns _ fun d hd => ⟨?_, ?_⟩).mono ?_
          · exact hconsistent.knows_unmarkedDefinitions hspace d hd
          · rw [Spaces.named?_of_space hspace]
            exact (hmem d).1 hd
          rintro w₁ _ - - hpublished
          refine ⟨hpublished.cells, hpublished.kept, hpublished.publishes, ?_⟩
          rw [List.forall_mem_singleton]
          intro name d hd
          rw [Spaces.named?_congr hpublished.cells, Spaces.named?_of_space hspace] at hd
          obtain rfl := Namespace.name_of_holding? (hconsistent.valid hspace) hd
          exact hpublished.recorded _ (List.mem_map_of_mem ((hmem d).2 hd))
        · cases hspec
      · cases hspec

theorem proceeds_provideSpecs {reach : Reach} {stxs : List Syntax} {specs : List ExportSpec}
    (hspecs : List.Forall₂ (fun stx spec => ExportSpec.read? stx = some spec) stxs specs)
    (h : Underway runtime ns id w) :
    Proceeds runtime reach (fun w' _ => Published ns specs w w')
      (runEach (provideSpec ns) (stxs.map (Syntax.introduce ns))) w := by
  induction hspecs generalizing w with
  | nil => exact .pure (.refl ns w)
  | cons hspec _ ih =>
      refine (proceeds_provideSpec hspec h).bind ?_
      rintro _ w₁ - hadvances hpublished
      refine (ih (h.congr hadvances.later.extension hpublished.cells)).mono ?_
      exact fun w₂ _ _ _ hrest => hpublished.trans hrest

/-! ## The second pass -/

/-- What leaves the world undisturbed provides nothing. -/
theorem proceeds_nothing (ns : NamespaceId) {α : Type} {reach : Reach} {x : RunM α} (hx : x.Tidy)
    (hguard : Respects runtime.languageGuard (fun _ _ => True) x w) :
    Proceeds runtime reach (fun w' _ => Published ns [] w w') x w :=
  (Proceeds.of_tidy hx hguard).mono fun _ _ _ _ h => .of_undisturbed h.1

/-- In the body of a module a definition takes no address. -/
theorem tidy_define {expand : ExpandContext → Syntax → RunM Syntax}
    (hexpand : ∀ stx, (expand .expression stx).Tidy) (form : Syntax) :
    (define expand ns form .moduleBody).Tidy := by
  refine RunM.Tidy.bind (.pure ()) fun _ => RunM.Tidy.bind (.pure form) fun normal => ?_
  dsimp only
  split
  · exact (hexpand _).bind fun _ => .pure _
  · exact .fail _

/-- The expansion of what is left of an item provides what the item does. -/
theorem proceeds_expandPending (hobedient : loader.Obedient runtime.languageGuard) {item : Item}
    {form : Syntax} (hform : item.Pending ns form)
    (hhead : ∀ name, item.head? = some name → runtime.Untouched id name)
    (h : Underway runtime ns id w) (fuel depth : Nat) :
    Proceeds runtime {} (fun w' _ => Published ns item.exportSpecs w w')
      (expand loader ns fuel depth .moduleBody form) w := by
  -- What does not begin with a keyword is an expression, and those provide nothing.
  have hexpression (hbegins : w.Faithful runtime → form.isSexp = false ∨
      ∃ head rest, form.subforms = head :: rest ∧ BeginsExpression w.spaces head) :
      Proceeds runtime {} (fun w' _ => Published ns [] w w')
        (expand loader ns fuel depth .moduleBody form) w := by
    refine .faithful fun hw => .congr (expand_eq_expression loader (hbegins hw) fuel depth _) ?_
    exact proceeds_nothing ns (tidy_expand _ _ _ _ _) (harmless_expand hobedient ns _ _ _ form w)
  cases hform with
  | define hparts hdefine =>
      refine proceeds_expand_core hparts (fun hw => headValue_core hw h hdefine (hhead _ rfl)) ?_
        fuel depth
      intro fuel depth
      have hexpand (context : ExpandContext) := harmless_expand hobedient ns fuel depth context
      exact proceeds_nothing ns (tidy_define (tidy_expand _ _ _ _) form)
        (harmless_core hexpand hobedient ns .define form _ .moduleBody w)
  | provide hparts hprovide hspecs =>
      refine proceeds_expand_core hparts (fun hw => headValue_core hw h hprovide (hhead _ rfl)) ?_
        fuel depth
      intro fuel depth
      refine (proceeds_provideSpecs hspecs h).bind ?_
      intro _ w₁ _ _ hpublished
      exact .pure hpublished
  | expression hparts hnames hname =>
      refine hexpression fun hw => .inr ⟨_, _, hparts, ?_⟩
      exact beginsExpression hw h hnames (hhead _ rfl) hname
  | application hparts hident =>
      exact hexpression fun _ => .inr ⟨_, _, hparts, .other (headValue?_of_isIdentifier _ hident)⟩
  | datum hsexp => exact hexpression fun _ => .inl hsexp

theorem proceeds_secondPass (hobedient : loader.Obedient runtime.languageGuard) {items : List Item}
    {pending : List Syntax} (hpending : List.Forall₂ (Item.Pending ns) items pending)
    (hheads : ∀ item ∈ items, ∀ name, item.head? = some name → runtime.Untouched id name)
    (h : Underway runtime ns id w) (fuel : Nat) :
    Proceeds runtime {} (fun w' _ => Published ns (items.flatMap Item.exportSpecs) w w')
      (secondPass loader ns fuel pending) w := by
  induction hpending generalizing w with
  | nil => exact .pure (.refl ns w)
  | @cons item form items pending hform _ ih =>
      obtain ⟨hhead, hheads⟩ := List.forall_mem_cons.1 hheads
      refine (proceeds_expandPending hobedient hform hhead h fuel 0).bind ?_
      intro expanded w₁ _ hadvances hexpanded
      have h₁ := h.congr hadvances.later.extension hexpanded.cells
      have hcompile := (respects_compile_outside (w := w₁) h.outside expanded).mono
        fun _ _ _ => trivial
      refine (proceeds_nothing ns (tidy_compile ns expanded) hcompile).bind ?_
      intro code w₂ _ hadvances' hcompiled
      have h₂ := h₁.congr hadvances'.later.extension hcompiled.cells
      refine (ih hheads h₂).bind ?_
      intro codes w₃ _ _ hrest
      exact .pure (hexpanded.trans (hcompiled.trans hrest))

/-! ## A new namespace -/

/-- The namespace of a module in which the given bindings of the language have been imported. -/
structure Opened (ns : NamespaceId) (id : ModuleId) (ps : List Provided) (w : World) : Prop where
  home : w.spaces.IsHome ns id
  bare : w.spaces.BareModule ns
  names : ∀ p ∈ ps, ∃ content, w.spaces.named? ns p.name = some content ∧
    content.target = p.target

/-- The language has one definition for each name. -/
theorem World.Language.target_unique (hw : w.Language) {p q : Provided}
    (hp : p ∈ w.runtime.kernel.provided) (hq : q ∈ w.runtime.kernel.provided)
    (hname : p.name = q.name) : p.target = q.target := by
  have hdefined := (hw.names p hp).symm.trans (hname ▸ hw.names q hq)
  simpa using hdefined

theorem proceeds_requireLanguage (before ps : List Provided)
    (hps : ∀ p ∈ before ++ ps, p ∈ runtime.kernel.provided) (h : Opened ns id before w) :
    Proceeds runtime { space := some ns }
      (fun w' _ => Opened ns id (before ++ ps) w' ∧ w'.provides = w.provides)
      (requireAll ns (fun p => .ok ((Syntax.ident p.name).introduce ns)) true ps) w := by
  induction ps generalizing w before with
  | nil => exact .pure ⟨by simpa using h, rfl⟩
  | cons p rest ih =>
      refine .faithful fun hw => ?_
      have hkernel : ∀ q ∈ runtime.kernel.provided, w.spaces.Knows q.target :=
        hw.hosted ▸ hw.guarded.consistent.kernel
      have hp : p ∈ runtime.kernel.provided := hps p (by simp)
      have hstx := Syntax.names_introduce ns (show (Syntax.ident p.name).bareName? = some p.name from rfl)
      refine Proceeds.bind (P := fun w' stx => w' = w ∧ stx = (Syntax.ident p.name).introduce ns)
        (.pure ⟨rfl, rfl⟩) ?_
      rintro _ w₁ - - ⟨rfl, rfl⟩
      refine (proceeds_writes hstx (hkernel p hp) true).bind ?_
      rintro _ _ - - ⟨i, spaces', rfl, htarget, -, hwrites, hextends⟩
      refine (ih (before ++ [p]) (by simpa using hps) ⟨h.home.mono hextends,
        hwrites.bare h.bare, ?_⟩).mono fun w₂ _ _ _ h₂ => by simpa using h₂
      intro q hq
      rw [hwrites.here]
      -- Another binding of the same name would be the same one.
      by_cases hsame : q.name = p.name
      · have hq : q ∈ runtime.kernel.provided := hps q (by simp at hq ⊢; tauto)
        rw [← hw.hosted] at hp hq
        exact ⟨_, if_pos hsame, htarget.trans (hw.language.target_unique hp hq hsame.symm)⟩
      · rw [if_neg hsame]
        refine h.names q ?_
        rcases List.mem_append.1 hq with hq | hq
        · exact hq
        · exact absurd (congrArg Provided.name (List.mem_singleton.1 hq)) hsame

/-- A module gets a namespace of its own, in which the language is put. -/
theorem proceeds_newNamespace_bind {α : Type} {P : World → α → Prop} {f : NamespaceId → RunM α}
    (hf : ∀ ns w₁, runtime.languageGuard.Outside ns → Opened ns id [] w₁ →
      w₁.provides = w.provides → Proceeds runtime { space := some ns } P (f ns) w₁) :
    Proceeds runtime {} P (newNamespace id .module >>= f) w := by
  intro hw
  obtain ⟨w₁, hw₁⟩ : ∃ w₁ : World, w₁ =
      { w with spaces := w.spaces.push { home := id, kind := .module } } := ⟨_, rfl⟩
  have hstart : (newNamespace id .module >>= f) w = f w.spaces.size w₁ := by
    rw [hw₁]
    rfl
  obtain ⟨hguarded, hlater⟩ := hw.guarded.change (.create id .module) (.create w.spaces id .module)
  have hadvances : w.Advances runtime { space := some w.spaces.size } w₁ := by
    rw [hw₁]
    refine ⟨hlater, fun ns hns _ => ?_, rfl, rfl, fun _ _ h => h, fun _ _ h => h, fun _ _ _ => rfl⟩
    rw [Spaces.cells, Spaces.cells, Array.getElem?_push, if_neg (Nat.ne_of_lt hns)]
  have hself : w₁.spaces[w.spaces.size]? = some { home := id, kind := .module } := by
    rw [hw₁]
    exact Array.getElem?_push_size
  have hopened : Opened w.spaces.size id [] w₁ :=
    ⟨⟨_, hself, rfl⟩, ⟨_, hself, rfl, Namespace.bare_new id .module⟩, by simp⟩
  have hfaithful := hw.advance hadvances (hw₁ ▸ hguarded) (by rw [hw₁])
  have hrun := hf w.spaces.size w₁ (fun slot hslot => Nat.ne_of_lt (hw.guarded.there slot hslot))
    hopened (by rw [hw₁]) hfaithful
  rw [hstart]
  cases hresult : f w.spaces.size w₁ with
  | ok a w' =>
      rw [hresult] at hrun
      -- What happens in the new namespace does not count for the world before it was there.
      exact ⟨hrun.1, (hadvances.trans hrun.2.1).of_fresh le_rfl, hrun.2.2⟩
  | error halt w' =>
      rw [hresult] at hrun
      exact ⟨hrun.1, (hadvances.trans hrun.2).of_fresh le_rfl⟩

/-- With the language in place the module is under way. -/
theorem Opened.underway (h : Opened ns id runtime.kernel.provided w)
    (houtside : runtime.languageGuard.Outside ns) : Underway runtime ns id w := by
  refine ⟨houtside, h.home, h.bare, fun name hname => ?_⟩
  obtain ⟨p, hp⟩ := Option.isSome_iff_exists.1 hname.keeps.language
  obtain ⟨content, hcontent, htarget⟩ := h.names p (List.mem_of_find?_eq_some hp)
  rw [Instance.name_of_provided? hp] at hcontent
  exact ⟨content, p, hcontent, hp, htarget⟩

/-! ## Parameters and what is provided -/

theorem proceeds_withOwnParameters {α : Type} {reach : Reach} {P : World → α → Prop} {x : RunM α}
    (hx : Proceeds runtime reach P x { w with dynamic := [] })
    (hP : ∀ w dynamic a, P w a → P { w with dynamic } a) :
    Proceeds runtime reach P (withOwnParameters x) w := by
  refine .get_bind fun hw => ?_
  refine (Proceeds.modify fun hw => ?_).bind ?_
  · have hsame : w.Advances runtime reach { w with dynamic := [] } := .of_same rfl rfl rfl rfl
    exact ⟨hw.advance hsame (hw.guarded.setDynamic (by simp)) rfl, hsame⟩
  rintro _ w₁ - - rfl
  refine (hx.andThen fun w' hw' _ => ?_).mono ?_
  · have hsame : w'.Advances runtime reach { w' with dynamic := w.dynamic } :=
      .of_same rfl rfl rfl rfl
    exact ⟨hw'.advance hsame (hw'.guarded.setDynamic hw.guarded.obeys.dynamic) rfl, hsame⟩
  · rintro _ a - - ⟨w', rfl, ha⟩
    exact hP w' _ a ha

theorem proceeds_withOwnProvides {α : Type} {reach : Reach} {P : World → α → Prop} {x : RunM α}
    (hx : Proceeds runtime reach P x { w with provides := [] })
    (hP : ∀ w provides a, P w a → P { w with provides } a) :
    Proceeds runtime reach (fun w' a => P w' a ∧ w'.provides = w.provides) (withOwnProvides x) w := by
  refine .get_bind fun hw => ?_
  refine (Proceeds.modify fun hw => ?_).bind ?_
  · have hsame : w.Advances runtime reach { w with provides := [] } := .of_same rfl rfl rfl rfl
    exact ⟨hw.advance hsame (hw.guarded.setProvides (by simp)) rfl, hsame⟩
  rintro _ w₁ - - rfl
  refine (hx.andThen fun w' hw' hadvances => ?_).mono ?_
  · have hsame : w'.Advances runtime reach { w' with provides := w.provides } :=
      .of_same rfl rfl rfl rfl
    refine ⟨hw'.advance hsame (hw'.guarded.setProvides fun p hp => ?_) rfl, hsame⟩
    exact (hw.guarded.consistent.provides p hp).mono hadvances.later.extension
  · rintro _ a - - ⟨w', rfl, ha⟩
    exact ⟨hP w' _ a ha, rfl⟩

/-! ## Declarations -/

theorem Runtime.Modular.fits {items : List Item} (h : runtime.Modular id items) :
    runtime.Fits id items where
  heads := h.heads
  newNames _ hitem _ hname huntouched := huntouched.notMem h.read hitem hname
  imports item hitem spec hspec := by
    cases item with
    | require specs =>
        refine ⟨fun name hname huntouched => huntouched.notMem h.read hitem ?_, ?_⟩
        · exact List.mem_flatMap.2 ⟨spec, hspec, hname⟩
        · exact fun dep name hdep hbrings huntouched =>
            huntouched.imported h.read hitem hspec hbrings hdep
    | _ => cases hspec

/-- The declaration is one of the module and provides what it exports. -/
structure IsDeclaration (runtime : Runtime) (id : ModuleId) (w : World) (d : Declaration) : Prop where
  module : d.id = id
  space : w.spaces.IsModule d.space
  faithful : d.Faithful runtime w

theorem Item.Done.exists_defined {item : Item} (h : item.Done runtime ns id w) {name : String}
    (hdefines : item.defines? = some name) :
    ∃ d, w.spaces.named? ns name = some (.defined d) := by
  cases item with
  | define defined | defineSyntax defined =>
      cases hdefines
      exact h
  | _ => cases hdefines

/-- A name of the language stands for its definition in the kernel. -/
theorem World.Language.defines (hw : w.Language) {name : String} {p : Provided}
    (hp : w.runtime.kernel.provided? name = some p) :
    w.Defines ⟨w.runtime.kernel.id, name⟩ p.target := by
  obtain ⟨d, hd, hspace⟩ := hw.declared
  have hname := hw.names p (List.mem_of_find?_eq_some hp)
  rw [Instance.name_of_provided? hp] at hname
  exact ⟨d, hd, hspace ▸ hname⟩

/-- What has been provided after both passes is what the module exports. -/
theorem Underway.declares (hw : w.Faithful runtime) (h : Underway runtime ns id w)
    {items : List Item} (hmodule : runtime.Modular id items)
    (hdone : ∀ item ∈ items, item.Done runtime ns id w) (hpublishes : w.Publishes ns)
    (hrecorded : ∀ item ∈ items, ∀ spec ∈ item.exportSpecs, spec.Recorded ns w)
    (codes : List Code) : IsDeclaration runtime id w ⟨id, ns, codes, w.provides⟩ := by
  obtain ⟨space, hspace, hkind, -⟩ := h.bare
  refine ⟨rfl, ⟨space, hspace, hkind⟩, fun name origin hexports => ?_, fun p hp huntouched q hq => ?_⟩
  -- Whatever has been provided under the name leads to what the name stands for.
  · have hprovided {content : Content} (hcontent : w.spaces.named? ns name = some content) :
        ∀ p ∈ w.provides, p.name = name → p.target = content.target := by
      rintro p hp rfl
      obtain ⟨content', hcontent', htarget⟩ := hpublishes p hp
      cases hcontent.symm.trans hcontent'
      exact htarget.symm
    have hsame {items' : List Item} (hmodule' : runtime.Modular id items') : items' = items :=
      Option.some.inj (hmodule'.read.symm.trans hmodule.read)
    have hbyName (hprovides : Runtime.Provides items name) : ∃ p ∈ w.provides, p.name = name := by
      obtain ⟨specs, hitem, hspec⟩ := hprovides
      exact hrecorded _ hitem _ hspec
    cases hexports with
    | language => exact absurd rfl hmodule.ne_kernel
    | definition hmodule' hitem hdefines hprovides =>
        obtain rfl := hsame hmodule'
        obtain ⟨d, hd⟩ := (hdone _ hitem).exists_defined hdefines
        refine ⟨d, ?_, hprovided hd, .inl ⟨rfl, hd⟩⟩
        rcases hprovides with hprovides | ⟨specs, hitem', hspec⟩
        · exact hbyName hprovides
        · exact hrecorded _ hitem' _ hspec name d hd
    | untouched hmodule' hname hprovides =>
        obtain rfl := hsame hmodule'
        obtain ⟨content, p, hcontent, hp, htarget⟩ := h.untouched name hname
        refine ⟨content.target, hbyName hprovides, hprovided hcontent, .inr ?_⟩
        rw [htarget, ← hw.hosted]
        exact hw.language.defines (hw.hosted ▸ hp)
    | reexport hmodule' hrequire hspec hdep hbrings hexports hprovides =>
        obtain rfl := hsame hmodule'
        obtain ⟨t, ⟨i, hi, -, rfl⟩, hdefines⟩ :=
          hdone _ hrequire _ hspec _ _ _ _ hdep hbrings hexports
        exact ⟨_, hbyName hprovides, hprovided hi, .inr hdefines⟩
  · obtain ⟨content, hcontent, htarget⟩ := hpublishes p hp
    obtain ⟨content', q', hcontent', hq', htarget'⟩ := h.untouched p.name huntouched
    cases hcontent.symm.trans hcontent'
    cases hq.symm.trans hq'
    exact htarget.symm.trans htarget'

/-- Both passes over the body of a module. -/
def passes (loader : Loader) (fuel : Nat) (id : ModuleId) (ns : NamespaceId) (forms : List Syntax) :
    RunM Declaration := do
  let pending ← firstPass loader ns fuel (forms.map (Syntax.introduce ns))
  let codes ← secondPass loader ns fuel pending
  return ⟨id, ns, codes, (← get).provides⟩

/-- A module that consists of items provides what it exports. -/
theorem proceeds_passes (hobedient : loader.Obedient runtime.languageGuard)
    (hloader : loader.Faithful runtime) {forms : List Syntax} {items : List Item}
    (hmodule : runtime.Modular id items)
    (hforms : List.Forall₂ (fun form item => Item.read? form = some item) forms items)
    (h : Underway runtime ns id w) (hnone : w.provides = []) (fuel : Nat) :
    Proceeds runtime { space := some ns } (IsDeclaration runtime id) (passes loader fuel id ns forms)
      w := by
  have hfits := hmodule.fits
  refine (proceeds_firstPass hobedient hloader hforms hfits h fuel).bind ?_
  intro pending w₃ hw₃ _ hpassed
  have hheads : ∀ item ∈ items.filter Item.waits, ∀ name, item.head? = some name →
      runtime.Untouched id name :=
    fun item hitem => hfits.heads item (List.mem_of_mem_filter hitem)
  have h₃ := hpassed.builds.underway
  refine ((proceeds_secondPass hobedient hpassed.pending hheads h₃ fuel).within _).bind ?_
  intro codes w₄ hw₄ hadvances hpublished
  refine .get_bind fun _ => .pure ?_
  refine Underway.declares hw₄ (h₃.congr hadvances.later.extension hpublished.cells) hmodule
    (fun item hitem => ?_) (hpublished.publishes ?_) (fun item hitem spec hspec => ?_) codes
  · refine (hpassed.done item hitem).later hw₃ (fun name content hcontent _ => ?_) hadvances
    rwa [Spaces.named?_congr hpublished.cells]
  · intro p hp
    rw [hpassed.builds.provides, hnone] at hp
    cases hp
  · refine hpublished.recorded spec (List.mem_flatMap.2 ⟨item, ?_, hspec⟩)
    cases item with
    | provide specs => exact List.mem_filter.2 ⟨hitem, rfl⟩
    | _ => cases hspec

/-- A module is declared by passes over its body, in a namespace of its own. -/
theorem proceeds_declareModule {forms : List Syntax} {fuel : Nat}
    (hpasses : ∀ ns w, Underway runtime ns id w → w.provides = [] →
      Proceeds runtime { space := some ns } (IsDeclaration runtime id) (passes loader fuel id ns forms)
        w) :
    Proceeds runtime {}
      (fun w' d => IsDeclaration runtime id w' d ∧ w'.provides = w.provides)
      (declareModule loader fuel id forms) w := by
  refine proceeds_newNamespace_bind fun ns w₁ houtside hopened hprovides => ?_
  refine Proceeds.bind (P := fun w' _ =>
    Opened ns id runtime.kernel.provided w' ∧ w'.provides = w₁.provides) ?_ ?_
  · refine .get_bind fun hw₁ => ?_
    rw [hw₁.hosted]
    exact proceeds_requireLanguage [] runtime.kernel.provided (fun p hp => hp) hopened
  rintro _ w₂ - - ⟨hopened, hprovides'⟩
  have h := hopened.underway houtside
  refine (proceeds_withOwnParameters (proceeds_withOwnProvides
    (P := fun w' d => IsDeclaration runtime id w' d) ?_ ?_) ?_).mono ?_
  · exact hpasses ns _ (h.congr (.refl _) rfl) rfl
  · exact fun w provides d hd =>
      ⟨hd.module, hd.space, hd.faithful.exports, hd.faithful.language⟩
  · exact fun w dynamic d hd =>
      ⟨⟨hd.1.module, hd.1.space, hd.1.faithful.exports, hd.1.faithful.language⟩, hd.2⟩
  · rintro w' d - - ⟨hd, hsame⟩
    exact ⟨hd, hsame.trans (hprovides'.trans hprovides)⟩

end HygienicLisp
