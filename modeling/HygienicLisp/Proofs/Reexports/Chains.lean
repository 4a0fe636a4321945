import HygienicLisp.Proofs.Reexports.Start
import HygienicLisp.Proofs.ReadPaths

/-!
# Re-exports

A module may provide what it has imported, under the name that it is known by there.  However long the
chain of such modules is and whatever names are given on the way, what is provided at its end is the
definition at its beginning.  So it may be imported along several chains under one name, and what is
imported is the one variable.

Main statement: `reexports_transparent`.
-/

namespace HygienicLisp

open Compile

variable {w : World} {ns : NamespaceId}

/-! ## What an imported name leads to -/

namespace Spaces

variable {spaces : Spaces} {name : String} {stx : Syntax} {content : Content} {t : Definition}

theorem target?_denoted (hlive : spaces.isFreed ns = false) (h : stx.Names ns name)
    (hname : spaces.named? ns name = some content) :
    (spaces.denoted stx name).target? = some content.target := by
  obtain ⟨c, hresolve, hcontent⟩ := exists_cell_of_named hlive h hname
  rw [denoted, hresolve, Option.getD_some, target?_cell, hcontent]
  rfl

theorem lt_size_of_named (hname : spaces.named? ns name = some content) : ns < spaces.size := by
  obtain ⟨space, hspace, -⟩ := Option.bind_eq_some_iff.1 hname
  exact (Array.getElem?_eq_some_iff.1 hspace).1

/-- What a name stands for leads to a namespace that is there. -/
theorem Consistent.knows_named (h : spaces.Consistent)
    (hname : spaces.named? ns name = some content) : spaces.Knows content.target := by
  rw [named?_eq] at hname
  obtain ⟨c, -, hcontent⟩ := Option.bind_eq_some_iff.1 hname
  refine h.knows_target (b := .cell c) ?_
  rw [target?_cell, hcontent]
  rfl

end Spaces

/-- What leads to one definition is the same. -/
theorem Denotation.sameTarget_of_target? {a b : Denotation} {t : Definition}
    (ha : a.target? = some t) (hb : b.target? = some t) : a.sameTarget b = true := by
  cases a with
  | free | lexical => cases ha
  | defined | required =>
      cases b with
      | free | lexical => cases hb
      | defined | required => simp_all [sameTarget, target?]

/-- In the world, and as far as compiled code is concerned at all later times, whatever way the
identifier of the name is read gives the value of the definition.  Compiled code refers to the owner of
the definition by its module, so for that no other namespace may have it. -/
structure World.Reads (w : World) (ns : NamespaceId) (name : String) (stx : Syntax)
    (t : Definition) : Prop where
  expansion : ∃ b, w.spaces.resolve stx = some b ∧
    w.spaces.lookup? b = w.spaces.value? t.owner t.address
  byName : seen (w.spaces.lookupName ns name) = readSlot (w.spaces.value? t.owner t.address)
  compiled : ∃ code w', compile ns stx w = .ok code w' ∧ SameReads w.spaces w' ∧
    ((∀ other, w.spaces.IsHome other t.home → other = t.owner) → ∀ future fuel frame,
      outcome (eval (fuel + 1) code ⟨ns, frame⟩ (w'.after future)) =
        readSlot ((w'.after future).spaces.value? t.owner t.address))

theorem World.Consistent.reads (hw : w.Consistent) (hlive : w.spaces.Live) {name : String} {stx : Syntax}
    (hstx : stx.Names ns name) {content : Content}
    (hname : w.spaces.named? ns name = some content) : w.Reads ns name stx content.target := by
  have ht := Spaces.target?_denoted (hlive ns) hstx hname
  have hknown := hw.spaces.knows_named hname
  obtain ⟨b, hresolve, hb⟩ := Spaces.exists_binding_of_denoted ht
  refine ⟨⟨b, hresolve, ?_⟩, ?_, ?_⟩
  · rw [Spaces.lookup?, hb]
    simp only [hlive content.target.owner, Bool.false_eq_true, if_false]
  · rw [Spaces.lookupName, Spaces.target?_resolveName (hlive ns), hname, Option.map_some]
    simp only [hlive content.target.owner, Bool.false_eq_true, if_false]
    exact Spaces.seen_valueAt hknown _ name
  · obtain ⟨space, hspace, -⟩ := Option.bind_eq_some_iff.1 hname
    obtain ⟨code, w', hrun, hw', hreads, heval⟩ :=
      hw.definitionRef_reads hspace hknown (.inr (.inl (hlive content.target.owner))) name
    refine ⟨code, w', (compile_identifier hstx.symbol ht).trans hrun, hreads, ?_⟩
    intro honly future fuel frame
    have howner := honly _ (hw.spaces.isHome_reached hknown ns)
    rw [heval _ (hw'.after future).2.persists, howner]

/-! ## Importing along several chains -/

/-- Imports bindings under identifiers, in order. -/
def importEach (ns : NamespaceId) (imports : List (Syntax × Provided)) : RunM Unit :=
  runEach (fun e => require ns e.1 e.2 false) imports

/-- A definition is imported under a name that is free, is left to the language, or leads to that
definition already. -/
theorem require_succeeds {name : String} {t : Definition} (hns : ns < w.spaces.size)
    (hname : ∀ content, w.spaces.named? ns name = some content → ¬content.Excludes t)
    {stx : Syntax} (hstx : stx.Names ns name) {p : Provided} (hp : p.target = t) :
    ∃ w', require ns stx p false w = .ok ⟨⟩ w' ∧ w'.spaces.Imports ns name t := by
  subst hp
  have hspace := Array.getElem?_eq_getElem hns
  rcases require_cases hspace hstx.symbol p false with ⟨w', hrun, -⟩ | ⟨conflict, -, hconflict⟩
  · refine ⟨w', hrun, ?_⟩
    rw [require_apply] at hrun
    cases hresult : w.spaces.require ns stx p false with
    | error e =>
        rw [hresult] at hrun
        cases hrun
    | ok spaces' =>
        rw [hresult] at hrun
        cases hrun
        obtain ⟨i, htarget, hexplicit, hwrites⟩ := Spaces.writes_require hstx hresult
        exact ⟨i, (hwrites.here name).trans (if_pos rfl), hexplicit rfl, htarget⟩
  · rw [Spaces.filingKey_names hstx] at hconflict
    obtain ⟨content, hcontent, hexcludes⟩ := Namespace.require_refused_iff.1 ⟨conflict, hconflict⟩
    exact absurd hexcludes (hname content ((Spaces.named?_of_space hspace name).trans hcontent))

/-- So any number of imports of one definition succeed, -/
theorem importEach_succeeds {name : String} {t : Definition} {imports : List (Syntax × Provided)}
    (himports : ∀ e ∈ imports, e.1.Names ns name ∧ e.2.target = t)
    (hname : w.spaces.Imports ns name t) :
    ∃ w', importEach ns imports w = .ok ⟨⟩ w' ∧ w'.spaces.Imports ns name t := by
  induction imports generalizing w with
  | nil => exact ⟨w, rfl, hname⟩
  | cons e rest ih =>
      obtain ⟨⟨hstx, hp⟩, hrest⟩ := List.forall_mem_cons.1 himports
      obtain ⟨i, hi, hexplicit, hit⟩ := hname
      have hsame : ∀ content, w.spaces.named? ns name = some content → ¬content.Excludes t := by
        intro content h
        cases hi.symm.trans h
        exact fun hexcludes => hexcludes.2 hit
      obtain ⟨w₁, hrun, hname₁⟩ := require_succeeds (Spaces.lt_size_of_named hi) hsame hstx hp
      obtain ⟨w₂, hrun', hname₂⟩ := ih hrest hname₁
      exact ⟨w₂, RunM.bind_eq_ok.2 ⟨_, w₁, hrun, hrun'⟩, hname₂⟩

/-- also where the name was free or left to the language before. -/
theorem importEach_succeeds_of_free {name : String} {t : Definition}
    {imports : List (Syntax × Provided)} (hsome : imports ≠ []) (hns : ns < w.spaces.size)
    (himports : ∀ e ∈ imports, e.1.Names ns name ∧ e.2.target = t)
    (hfree : ∀ content, w.spaces.named? ns name = some content → ¬content.Fixed) :
    ∃ w', importEach ns imports w = .ok ⟨⟩ w' ∧ w'.spaces.Imports ns name t := by
  cases imports with
  | nil => exact absurd rfl hsome
  | cons e rest =>
      obtain ⟨⟨hstx, hp⟩, hrest⟩ := List.forall_mem_cons.1 himports
      have hopen : ∀ content, w.spaces.named? ns name = some content → ¬content.Excludes t := by
        intro content h hexcludes
        refine hfree content h ?_
        cases content with
        | defined d => trivial
        | required i => exact hexcludes.1
      obtain ⟨w₁, hrun, hname₁⟩ := require_succeeds hns hopen hstx hp
      obtain ⟨w₂, hrun', hname₂⟩ := importEach_succeeds hrest hname₁
      exact ⟨w₂, RunM.bind_eq_ok.2 ⟨_, w₁, hrun, hrun'⟩, hname₂⟩

/-! ## Transparency -/

theorem World.Defines.unique {origin : Original} {t t' : Definition} (h : w.Defines origin t)
    (h' : w.Defines origin t') : t = t' := by
  obtain ⟨d, hd, hname⟩ := h
  obtain ⟨d', hd', hname'⟩ := h'
  cases hd.symm.trans hd'
  simpa using hname.symm.trans hname'

/-- What is offered for an origin leads to its definition. -/
theorem World.Faithful.target_offered {runtime : Runtime} (hw : w.Faithful runtime)
    {origin : Original} {t : Definition} (ht : w.Defines origin t) {p : Provided}
    (hp : w.Offers origin p) : p.target = t := by
  obtain ⟨id, name, i, hexports, hi, hname⟩ := hp
  rw [hw.hosted, ← instance_id hi] at hexports
  obtain ⟨p', hp', hdefines⟩ := (hw.instances id i hi).exports name origin hexports
  cases hname.symm.trans hp'
  exact hdefines.unique ht

/-- After any requests for modules, whatever they led to and whatever other modules there are:

* an instance provides each name that its module exports, and what it provides is the definition at
  the beginning of the chain;
* any number of such definitions with one origin can be imported in any order, whatever happens in
  between, under a name that is free or left to the language, and the name is then imported for good;
* identifiers that are imports of the definition are the same as free identifiers;
* and reading them is reading the definition. -/
theorem reexports_transparent (hw : w.Primed) (requests : List (Nat × ModuleId)) :
    let loaded := w.requested requests
    (∀ id i name origin, loaded.registry.instance? id = some i → w.runtime.Exports id name origin →
      ∃ p, i.provided? name = some p ∧ loaded.Defines origin p.target) ∧
    ∀ origin t, loaded.Defines origin t → ∀ future,
      let later := loaded.after future
      (∀ ns name imports, ns < later.spaces.size → imports ≠ [] →
        (∀ content, later.spaces.named? ns name = some content → ¬content.Fixed) →
        (∀ e ∈ imports, e.1.Names ns name ∧ loaded.Offers origin e.2) →
        ∃ w', importEach ns imports later = .ok ⟨⟩ w' ∧ w'.spaces.Imports ns name t) ∧
      (∀ ns ns' name name' stx stx', stx.Names ns name → stx'.Names ns' name' →
        later.spaces.Imports ns name t → later.spaces.Imports ns' name' t →
        later.spaces.freeIdentifierEq stx stx' = true) ∧
      ∀ ns name stx, stx.Names ns name → later.spaces.Imports ns name t →
        later.Reads ns name stx t := by
  intro loaded
  obtain ⟨hloaded, -⟩ := hw.faithful.requested requests
  have hlive (future : List Action) : (loaded.after future).spaces.Live :=
    hloaded.language.live.called (hloaded.guarded.consistent.called_after future)
  refine ⟨fun id i name origin hi hexports => ?_, fun origin t ht future => ⟨?_, ?_, ?_⟩⟩
  · rw [← instance_id hi] at hexports
    exact (hloaded.instances id i hi).exports name origin hexports
  · intro ns name imports hns hsome hfree himports
    refine importEach_succeeds_of_free hsome hns (fun e he => ?_) hfree
    exact ⟨(himports e he).1, hloaded.target_offered ht (himports e he).2⟩
  · rintro ns ns' name name' stx stx' hstx hstx' ⟨i, hi, -, rfl⟩ ⟨i', hi', -, hsame⟩
    rw [Spaces.freeIdentifierEq, hstx.symbol, hstx'.symbol]
    refine Denotation.sameTarget_of_target? (Spaces.target?_denoted (hlive future ns) hstx hi) ?_
    rw [Spaces.target?_denoted (hlive future ns') hstx' hi']
    exact congrArg some hsame
  · rintro ns name stx hstx ⟨i, hi, -, rfl⟩
    exact (hloaded.guarded.consistent.after future).1.reads (hlive future) hstx hi

/-! ## Two sides -/

/-- Two modules provide the definition of a first one, one of them under another name.  A fourth one,
which begins with a form of another kind, has nothing to do with them. -/
def sides : World :=
  ({} : World).after (.start {} :: [("/a", "(define x 1) (provide x)"),
    ("/b", "(require \"/a\") (provide x)"),
    ("/c", "(require (rename_in \"/a\" (x y))) (provide y)"),
    ("/d", "(begin (define define 2)) (provide define)")].map fun s => .addSource s.1 s.2)

theorem sides_items :
    sides.runtime.items? ⟨"/a"⟩ = some [.define "x", .provide [.name "x"]] ∧
    sides.runtime.items? ⟨"/b"⟩ = some [.require [.whole "/a"], .provide [.name "x"]] ∧
    sides.runtime.items? ⟨"/c"⟩ =
      some [.require [.renamed "/a" [("x", "y")]], .provide [.name "y"]] ∧
    (∀ path ∈ ["/b", "/c"], sides.runtime.required? "/a" ⟨path⟩ = some ⟨"/a"⟩) ∧
    ∀ name ∈ ["define", "provide", "require"], (sides.runtime.kernel.provided? name).isSome = true := by
  decide +kernel

/-- The three modules keep the names that they begin with. -/
theorem sides_untouched {path name : String} (hpath : path ∈ ["/a", "/b", "/c"])
    (hname : name ∈ ["define", "provide", "require"]) : sides.runtime.Untouched ⟨path⟩ name := by
  obtain ⟨ha, hb, hc, hrequired, hlanguage⟩ := sides_items
  refine ⟨fun id name => id ∈ [⟨"/a"⟩, ⟨"/b"⟩, ⟨"/c"⟩] ∧ name ∈ ["define", "provide", "require"],
    fun id name hkept => ?_, by simpa using hpath, hname⟩
  obtain ⟨hid, hname⟩ := hkept
  have hfresh : name ≠ "x" ∧ name ≠ "y" := by
    constructor <;> rintro rfl <;> simp at hname
  -- The two sides require the first module only, where the names are kept as well.
  have hfirst : ∀ path ∈ ["/b", "/c"], ∀ dep ∈ sides.runtime.required? "/a" ⟨path⟩,
      dep ∈ [⟨"/a"⟩, ⟨"/b"⟩, ⟨"/c"⟩] ∧ name ∈ ["define", "provide", "require"] := by
    intro path hpath dep hdep
    rw [hrequired path hpath, Option.mem_some_iff] at hdep
    exact ⟨by simp [← hdep], hname⟩
  simp only [List.mem_cons, List.not_mem_nil, or_false] at hid
  rcases hid with rfl | rfl | rfl
  · refine Runtime.keeps_of_items? (hlanguage name hname) ha ?_ ?_ ?_ <;>
      simp [Item.newNames, Item.head?, CoreForm.name, Item.importSpecs, hfresh]
  · refine Runtime.keeps_of_items? (hlanguage name hname) hb ?_ ?_ ?_
    · simp [Item.newNames, ImportSpec.newNames]
    · simp [Item.head?, CoreForm.name]
    · simp only [List.forall_mem_cons, Item.importSpecs]
      exact ⟨⟨fun _ => hfirst "/b" (by simp), by simp⟩, by simp⟩
  · refine Runtime.keeps_of_items? (hlanguage name hname) hc ?_ ?_ ?_
    · simp [Item.newNames, ImportSpec.newNames, hfresh]
    · simp [Item.head?, CoreForm.name]
    · simp only [List.forall_mem_cons, Item.importSpecs]
      exact ⟨⟨fun _ => hfirst "/c" (by simp), by simp⟩, by simp⟩

theorem sides_modular {path : String} (hpath : path ∈ ["/a", "/b", "/c"]) {items : List Item}
    (hitems : sides.runtime.items? ⟨path⟩ = some items)
    (hheads : ∀ item ∈ items, ∀ name ∈ item.head?, name ∈ ["define", "provide", "require"]) :
    sides.runtime.Modular ⟨path⟩ items :=
  ⟨hitems, fun item hitem name hname => sides_untouched hpath (hheads item hitem name hname)⟩

theorem sides_exports :
    sides.runtime.Exports ⟨"/b"⟩ "x" ⟨⟨"/a"⟩, "x"⟩ ∧
    sides.runtime.Exports ⟨"/c"⟩ "y" ⟨⟨"/a"⟩, "x"⟩ := by
  obtain ⟨ha, hb, hc, hrequired, -⟩ := sides_items
  have provides (name : String) (first : Item) :
      Runtime.Provides [first, .provide [.name name]] name :=
    ⟨[.name name], by simp, List.mem_singleton_self _⟩
  have ha := sides_modular (by simp) ha (by simp [Item.head?, CoreForm.name])
  have hb := sides_modular (by simp) hb (by simp [Item.head?, CoreForm.name])
  have hc := sides_modular (by simp) hc (by simp [Item.head?, CoreForm.name])
  have hax := Runtime.Exports.definition ha List.mem_cons_self rfl (.inl (provides "x" _))
  have hbx := Runtime.Exports.reexport hb List.mem_cons_self List.mem_cons_self
    (hrequired "/b" (by decide)) rfl hax (provides "x" _)
  have hcy := Runtime.Exports.reexport hc List.mem_cons_self List.mem_cons_self
    (hrequired "/c" (by decide))
    (List.mem_singleton_self ("x", "y")) hax (provides "y" _)
  exact ⟨hbx, hcy⟩

/-- The name `z` in the session that is opened next. -/
def sessionZ : Syntax := (Syntax.ident "z").introduce 4

/-- What both sides provide is imported under one name into a session. -/
theorem sides_transparent :
    let loaded := sides.requested [(8, ⟨"/b"⟩), (8, ⟨"/c"⟩)]
    sides.Primed ∧
    ∃ left right w', left.name = "x" ∧ right.name = "y" ∧
      loaded.Defines ⟨⟨"/a"⟩, "x"⟩ left.target ∧
      importEach 4 [(sessionZ, left), (sessionZ, right)] (loaded.after [.openSession]) = .ok ⟨⟩ w' ∧
      w'.spaces.Imports 4 "z" left.target := by
  intro loaded
  have hprimed : sides.Primed := primed_start {} _
  obtain ⟨hb, hc⟩ := sides_exports
  obtain ⟨hexports, himports⟩ := reexports_transparent hprimed [(8, ⟨"/b"⟩), (8, ⟨"/c"⟩)]
  have hrun : 4 < (loaded.after [.openSession]).spaces.size ∧
      ((loaded.after [.openSession]).spaces.named? 4 "z").isNone = true ∧
      ∀ path ∈ ["/b", "/c"], (loaded.registry.instance? ⟨path⟩).isSome = true := by
    decide +kernel
  obtain ⟨hsize, hfree, hsome⟩ := hrun
  obtain ⟨leftModule, hleft⟩ := Option.isSome_iff_exists.1 (hsome "/b" (by decide))
  obtain ⟨rightModule, hright⟩ := Option.isSome_iff_exists.1 (hsome "/c" (by decide))
  obtain ⟨left, hleftName, hdefines⟩ := hexports _ _ _ _ hleft hb
  obtain ⟨right, hrightName, -⟩ := hexports _ _ _ _ hright hc
  have hruntime : loaded.runtime = sides.runtime := (hprimed.faithful.requested _).1.hosted
  have hnames : sessionZ.Names 4 "z" := ⟨rfl, rfl, rfl⟩
  have himport : ∀ e ∈ [(sessionZ, left), (sessionZ, right)],
      e.1.Names 4 "z" ∧ loaded.Offers ⟨⟨"/a"⟩, "x"⟩ e.2 := by
    intro e he
    rcases List.mem_pair.1 he with rfl | rfl
    · exact ⟨hnames, _, _, leftModule, hruntime ▸ hb, hleft, hleftName⟩
    · exact ⟨hnames, _, _, rightModule, hruntime ▸ hc, hright, hrightName⟩
  have hunbound : ∀ content, (loaded.after [.openSession]).spaces.named? 4 "z" = some content →
      ¬content.Fixed := by
    intro content hcontent
    rw [Option.isNone_iff_eq_none.1 hfree] at hcontent
    cases hcontent
  obtain ⟨w', himported, hz⟩ := (himports _ _ hdefines [.openSession]).1 4 "z" _ hsize
    (List.cons_ne_nil _ _) hunbound himport
  exact ⟨hprimed, left, right, w', Instance.name_of_provided? hleftName,
    Instance.name_of_provided? hrightName, hdefines, himported, hz⟩

end HygienicLisp
