import HygienicLisp.Proofs.Isolation.Consistency
import HygienicLisp.Proofs.Namespaces.LateReferences
import HygienicLisp.Proofs.Namespaces.Policy
import Mathlib.Data.List.Nodup

/-!
# Names in a namespace

The identifiers that a program text writes in a namespace carry the wrap of the namespace and nothing
else.  They are filed, resolved and looked up under one key, that of the bare name, so that what a name
stands for is a function of the namespace and the name (`Spaces.named?`).

Main statements: a definition and an import change what one name stands for in one namespace and
nothing else (`Spaces.writes_predefine`, `Spaces.writes_require`).
-/

namespace HygienicLisp

/-! ## Cells by their keys -/

namespace Namespace

variable {space space' : Namespace} {key : Key} {index : Nat} {content : Content}

/-- What the cell that is filed under a key holds, if there is one. -/
def holding? (space : Namespace) (key : Key) : Option Content :=
  (space.find? key).bind space.content?

theorem holding?_eq_none_iff : space.holding? key = none ↔ key ∉ space.keys := by
  rw [← find?_eq_none_iff, holding?]
  cases hfind : space.find? key with
  | none => simp
  | some index =>
      obtain ⟨entry, hentry, -⟩ := exists_entry_of_find? hfind
      simp [content?, hentry]

/-- With distinct keys, a cell is found under its key. -/
theorem find?_of_getElem?_keys (hnodup : space.keys.Nodup) (h : space.keys[index]? = some key) :
    space.find? key = some index := by
  obtain ⟨hlt, hkey⟩ := List.getElem?_eq_some_iff.1 h
  rw [find?_eq_findIdx?_keys, List.findIdx?_eq_some_iff_getElem]
  refine ⟨hlt, decide_eq_true hkey, fun j hj => ?_⟩
  rw [Bool.not_eq_true, decide_eq_false_iff_not]
  intro hsame
  exact hj.ne ((hnodup.getElem_inj_iff).1 (hsame.trans hkey.symm))

/-- With distinct keys, a key leads to the one cell that is filed under it. -/
theorem holding?_eq_some_iff (hnodup : space.keys.Nodup) :
    space.holding? key = some content ↔ (⟨key, content⟩ : Entry) ∈ space.entries.toList := by
  constructor
  · intro h
    obtain ⟨i, hfind, hcontent⟩ := Option.bind_eq_some_iff.1 h
    obtain ⟨⟨_, _⟩, hentry, rfl⟩ := exists_entry_of_find? hfind
    rw [content?, hentry] at hcontent
    cases hcontent
    exact List.mem_of_getElem? (Array.getElem?_toList.trans hentry)
  · intro hmem
    obtain ⟨i, hi⟩ := List.mem_iff_getElem?.1 hmem
    have hkey : space.keys[i]? = some key := by
      rw [keys, List.getElem?_map, hi]
      rfl
    rw [Array.getElem?_toList] at hi
    rw [holding?, find?_of_getElem?_keys hnodup hkey, Option.bind_some, content?, hi]
    rfl

theorem holding?_file (hnew : space.find? key = none) (content : Content) (other : Key) :
    (space.file key content).holding? other =
      if other = key then some content else space.holding? other := by
  rw [holding?, holding?, find?_eq_findIdx?_keys, keys_file, List.findIdx?_append,
    ← find?_eq_findIdx?_keys]
  by_cases hother : other = key
  · subst hother
    rw [if_pos rfl, hnew]
    simp [length_keys, content?, file]
  · rw [if_neg hother]
    cases hfind : space.find? other with
    | none => simp [Ne.symm hother]
    | some i =>
        obtain ⟨there, hcontent⟩ := exists_content_of_find? hfind
        rw [Option.some_or, Option.bind_some, Option.bind_some, hcontent]
        exact content?_file hcontent key content

theorem holding?_swing (hfind : space.find? key = some index) (content : Content) (other : Key) :
    (space.swing index content).holding? other =
      if other = key then some content else space.holding? other := by
  have hkept : (space.swing index content).find? other = space.find? other := by
    rw [find?_eq_findIdx?_keys, keys_swing, ← find?_eq_findIdx?_keys]
  rw [holding?, holding?, hkept]
  obtain ⟨entry, hentry, hkey⟩ := exists_entry_of_find? hfind
  by_cases hother : other = key
  · have hcontent : space.content? index = some entry.content := by rw [content?, hentry]; rfl
    rw [if_pos hother, hother, hfind, Option.bind_some, content?_swing hcontent, if_pos rfl]
  · rw [if_neg hother]
    cases hfind' : space.find? other with
    | none => rfl
    | some i =>
        obtain ⟨entry', hentry', hkey'⟩ := exists_entry_of_find? hfind'
        have hcontent : space.content? i = some entry'.content := by rw [content?, hentry']; rfl
        have hi : i ≠ index := by
          rintro rfl
          cases hentry.symm.trans hentry'
          exact hother (hkey'.symm.trans hkey)
        rw [Option.bind_some, Option.bind_some, content?_swing hcontent, if_neg hi, hcontent]

/-- What a key leads to after a definition, which a module makes over nothing that is fixed. -/
theorem holding?_predefine {self : NamespaceId} (h : space.predefine self key = .ok (index, space')) :
    (∀ other, space'.holding? other =
      if other = key then some (.defined (space.nextDefinition self key.name))
      else space.holding? other) ∧
    (space.kind = .module → ∀ old, space.holding? key = some old → ¬old.Fixed) := by
  refine ⟨fun other => ?_, fun hkind old hold hfixed => ?_⟩
  · obtain ⟨hnone, -, rfl⟩ | ⟨old, hfind, -, -, rfl⟩ := predefine_eq_ok.1 h
    · exact @holding?_file space.takeAddress _ hnone _ other
    · exact @holding?_swing space.takeAddress _ _ hfind _ other
  · obtain ⟨conflict, hconflict⟩ := predefine_refused_iff.2 ⟨hkind, old, hold, hfixed⟩
    cases h.symm.trans hconflict

/-- What a key leads to after an import, which is made over nothing that excludes it. -/
theorem holding?_require {provided : Provided} {shadowable : Bool}
    (h : space.require key provided shadowable = .ok space') :
    ∃ i : Import, i.provided.target = provided.target ∧ (shadowable = false → i.shadowable = false) ∧
      (∀ other, space'.holding? other =
        if other = key then some (.required i) else space.holding? other) ∧
      ∀ old, space.holding? key = some old → old.Fixed → old = .required i := by
  obtain ⟨hnone, rfl⟩ | ⟨index, there, hfind, hthere, hcases⟩ := require_eq_ok.1 h
  · refine ⟨_, rfl, id, holding?_file hnone _, fun old hold => ?_⟩
    rw [holding?, hnone] at hold
    cases hold
  · have hhere : space.holding? key = some (.required there) := by
      rw [holding?, hfind, Option.bind_some, hthere]
    rw [hhere]
    obtain ⟨htarget, hkeeps, rfl⟩ | ⟨hallowed, -, rfl⟩ := hcases
    · refine ⟨there, htarget, fun hshadowable => ?_, fun other => ?_, fun old hold _ => ?_⟩
      · rw [hshadowable] at hkeeps
        simpa using hkeeps
      · split
        · rename_i hother
          rw [hother, hhere]
        · rfl
      · exact (Option.some.inj hold).symm
    · refine ⟨_, rfl, id, holding?_swing hfind _, fun old hold hfixed => ?_⟩
      cases hold
      exact absurd hallowed (by simp [show there.shadowable = false from hfixed])

/-- Everything in the namespace is filed under a bare name. -/
def Bare (space : Namespace) : Prop := ∀ key ∈ space.keys, key = plainKey key.name

theorem bare_new (home : ModuleId) (kind : NamespaceKind) : Bare { home, kind } := by
  intro key hkey
  cases hkey

theorem Bare.predefine {self : NamespaceId} {name : String} (hbare : space.Bare)
    (h : space.predefine self (plainKey name) = .ok (index, space')) : space'.Bare := by
  intro key hkey
  rcases mem_keys_of_predefine h hkey with hkey | rfl
  · exact hbare key hkey
  · rfl

theorem Bare.require {name : String} {provided : Provided} {shadowable : Bool} (hbare : space.Bare)
    (h : space.require (plainKey name) provided shadowable = .ok space') : space'.Bare := by
  intro key hkey
  rcases mem_keys_of_require h hkey with hkey | rfl
  · exact hbare key hkey
  · rfl

/-- What a key leads to has the name of the key. -/
theorem Valid.name_of_holding? {self : NamespaceId} (hvalid : space.Valid self)
    (h : space.holding? key = some content) : content.name = key.name := by
  obtain ⟨i, hi⟩ := List.mem_iff_getElem?.1 ((holding?_eq_some_iff hvalid.keys).1 h)
  rw [Array.getElem?_toList] at hi
  exact hvalid.named hi

/-- What is seen under names without marks is what keys without marks and with a free origin lead
to. -/
theorem mem_unmarkedDefinitions_iff (hnodup : space.keys.Nodup) {d : Definition} :
    d ∈ space.unmarkedDefinitions ↔ ∃ key : Key, key.marks = .empty ∧
      (∃ name, key.origin = .free name) ∧ space.holding? key = some (.defined d) := by
  rw [unmarkedDefinitions_eq, mem_definitionsSeen]
  constructor
  · rintro ⟨⟨key, content⟩, hmem, hmarks, horigin, hcontent⟩
    obtain rfl : content = .defined d := hcontent
    exact ⟨key, hmarks, horigin, (holding?_eq_some_iff hnodup).2 hmem⟩
  · rintro ⟨key, hmarks, horigin, hholding⟩
    exact ⟨⟨key, .defined d⟩, (holding?_eq_some_iff hnodup).1 hholding, hmarks, horigin, rfl⟩

/-- A key with a free origin is that of the name that is free. -/
def FreeNames (space : Namespace) : Prop :=
  ∀ key ∈ space.keys, ∀ name, key.origin = .free name → name = key.name

theorem Bare.freeNames (hbare : space.Bare) : space.FreeNames := by
  intro key hkey name horigin
  rw [hbare key hkey] at horigin
  cases horigin
  rfl

theorem FreeNames.eq_plainKey (hfree : space.FreeNames) (hkey : key ∈ space.keys)
    (hmarks : key.marks = .empty) (horigin : ∃ name, key.origin = .free name) :
    key = plainKey key.name := by
  obtain ⟨name, horigin⟩ := horigin
  obtain rfl := hfree key hkey name horigin
  calc key = ⟨key.name, key.origin, key.marks⟩ := rfl
    _ = plainKey key.name := by rw [horigin, hmarks]; rfl

/-- What is seen under names without marks is what the bare names stand for. -/
theorem mem_unmarkedDefinitions {self : NamespaceId} (hfree : space.FreeNames)
    (hvalid : space.Valid self) {d : Definition} :
    d ∈ space.unmarkedDefinitions ↔ space.holding? (plainKey d.name) = some (.defined d) := by
  rw [mem_unmarkedDefinitions_iff hvalid.keys]
  constructor
  · rintro ⟨key, hmarks, horigin, hholding⟩
    have hname : d.name = key.name := hvalid.name_of_holding? hholding
    have hmem := (holding?_eq_some_iff hvalid.keys).1 hholding
    have hplain := hfree.eq_plainKey (List.mem_map_of_mem (f := Entry.key) hmem) hmarks horigin
    rwa [hname, ← hplain]
  · exact fun hholding => ⟨plainKey d.name, rfl, ⟨d.name, rfl⟩, hholding⟩

/-- A definition has the name that it is found under. -/
theorem name_of_holding? {self : NamespaceId} (hvalid : space.Valid self) {name : String}
    {d : Definition} (h : space.holding? (plainKey name) = some (.defined d)) : d.name = name :=
  hvalid.name_of_holding? h

end Namespace

/-! ## Identifiers -/

/-- The identifier `name` as a text writes it in the namespace. -/
structure Syntax.Names (ns : NamespaceId) (name : String) (stx : Syntax) : Prop where
  symbol : stx.symbol? = some name
  wraps : stx.wraps = [.space ns]
  unrecorded : stx.context.binding = none

namespace Spaces

variable {spaces spaces' : Spaces} {ns : NamespaceId} {name : String} {stx : Syntax}

/-- What a name stands for in a namespace. -/
def named? (spaces : Spaces) (ns : NamespaceId) (name : String) : Option Content :=
  (spaces[ns]?).bind fun space => space.holding? (plainKey name)

theorem named?_of_space {space : Namespace} (hspace : spaces[ns]? = some space) (name : String) :
    spaces.named? ns name = space.holding? (plainKey name) := by
  rw [named?, hspace, Option.bind_some]

theorem named?_eq (spaces : Spaces) (ns : NamespaceId) (name : String) :
    spaces.named? ns name = (spaces.filed? ns (plainKey name)).bind spaces.content? := by
  rw [named?, filed?]
  cases hspace : spaces[ns]? with
  | none => rfl
  | some space =>
      dsimp only [Option.bind_some]
      rw [Namespace.holding?]
      cases space.find? (plainKey name) with
      | none => rfl
      | some index =>
          show _ = spaces.content? ⟨ns, index⟩
          rw [content?, hspace]
          rfl

theorem named?_congr (h : spaces'.cells ns = spaces.cells ns) (name : String) :
    spaces'.named? ns name = spaces.named? ns name := by
  rw [cells, cells] at h
  rw [named?, named?]
  cases hspace : spaces[ns]? with
  | none =>
      rw [hspace, Option.map_none, Option.map_eq_none_iff] at h
      rw [h]
  | some space =>
      rw [hspace, Option.map_some, Option.map_eq_some_iff] at h
      obtain ⟨space', hspace', hsame⟩ := h
      have hentries : space'.entries = space.entries := congrArg (·.2.2) hsame
      rw [hspace', Option.bind_some, Option.bind_some, Namespace.holding?, Namespace.holding?,
        Namespace.find?, Namespace.find?, hentries]
      congr 1
      funext index
      rw [Namespace.content?, Namespace.content?, hentries]

/-- In a namespace that has not been freed, what a name stands for is found. -/
theorem named?_of_live (hlive : spaces.isFreed ns = false) (name : String) :
    spaces.named? ns name = (spaces.cell? ns (plainKey name)).bind spaces.content? := by
  rw [named?_eq, cell?, hlive]
  rfl

theorem filingKey_names (h : stx.Names ns name) : spaces.filingKey ns stx name = plainKey name := by
  rw [filingKey, h.wraps]
  simp [resolveWraps, resolveStep, plainKey]

theorem resolve_names (h : stx.Names ns name) :
    spaces.resolve stx = (spaces.cell? ns (plainKey name)).map .cell := by
  rw [resolve_of_binding_eq_none h.unrecorded, resolveWithMarks, h.symbol]
  simp only [resolveWraps, h.wraps, wrapMarks, List.foldr_cons, List.foldr_nil, resolveStep,
    reduceCtorEq, if_false, substitute?_plain]
  cases spaces.cell? ns (plainKey name) <;> rfl

/-- What a binding of a cell leads to. -/
theorem target?_cell (c : CellRef) :
    (spaces.denote (.cell c)).target? = (spaces.content? c).map Content.target := by
  rw [denote]
  cases spaces.content? c with
  | none => rfl
  | some content => cases content <;> rfl

/-- An identifier leads to what its name stands for, -/
theorem target?_names (hlive : spaces.isFreed ns = false) (h : stx.Names ns name) :
    ((spaces.resolve stx).bind fun b => (spaces.denote b).target?) =
      (spaces.named? ns name).map Content.target := by
  rw [resolve_names h, named?_of_live hlive]
  cases spaces.cell? ns (plainKey name) with
  | none => rfl
  | some c => exact target?_cell c

/-- and so does the name by itself. -/
theorem target?_resolveName (hlive : spaces.isFreed ns = false) :
    ((spaces.resolveName ns name).bind fun b => (spaces.denote b).target?) =
      (spaces.named? ns name).map Content.target := by
  rw [resolveName, substitute?_plain, named?_of_live hlive]
  cases spaces.cell? ns (plainKey name) with
  | none => rfl
  | some c => exact target?_cell c

theorem exists_cell_of_named (hlive : spaces.isFreed ns = false) {content : Content}
    (h : stx.Names ns name)
    (hname : spaces.named? ns name = some content) :
    ∃ c, spaces.resolve stx = some (.cell c) ∧ spaces.content? c = some content := by
  rw [named?_of_live hlive] at hname
  obtain ⟨c, hc, hcontent⟩ := Option.bind_eq_some_iff.1 hname
  refine ⟨c, ?_, hcontent⟩
  rw [resolve_names h, hc]
  rfl

/-! ## Writing a name -/

/-- The namespace is there, is one of a module, and has nothing but bare names. -/
def BareModule (spaces : Spaces) (ns : NamespaceId) : Prop :=
  ∃ space, spaces[ns]? = some space ∧ space.kind = .module ∧ space.Bare

/-- The later namespaces differ in what the name stands for in the namespace, which is no longer
replaced in a module once it is fixed. -/
structure Writes (ns : NamespaceId) (name : String) (content : Content) (before after : Spaces) :
    Prop where
  here : ∀ other, after.named? ns other =
    if other = name then some content else before.named? ns other
  elsewhere : ∀ other, other ≠ ns → after[other]? = before[other]?
  bare : before.BareModule ns → after.BareModule ns
  fixed : before.BareModule ns → ∀ old, before.named? ns name = some old → old.Fixed → old = content

theorem plainKey_inj {x y : String} : plainKey x = plainKey y ↔ x = y :=
  ⟨fun h => congrArg Key.name h, fun h => h ▸ rfl⟩

/-- A name is written if it is in the one namespace that is changed. -/
theorem writes_setIfInBounds {space space' : Namespace} {content : Content}
    (hspace : spaces[ns]? = some space) (hgrows : space.Grows space')
    (hbare : space.Bare → space'.Bare)
    (hholding : ∀ other, space'.holding? other =
      if other = plainKey name then some content else space.holding? other)
    (hfixed : space.kind = .module → ∀ old, space.holding? (plainKey name) = some old →
      old.Fixed → old = content) :
    spaces.Writes ns name content (spaces.setIfInBounds ns space') := by
  have hself := getElem?_setIfInBounds_of_some hspace space' ns
  rw [if_pos rfl] at hself
  refine ⟨fun other => ?_, fun other hother => ?_, ?_, ?_⟩
  · rw [named?_of_space hself, named?_of_space hspace, hholding]
    simp only [plainKey_inj]
  · rw [getElem?_setIfInBounds_of_some hspace, if_neg hother]
  · rintro ⟨_, hspace', hkind, hwasBare⟩
    cases hspace.symm.trans hspace'
    exact ⟨space', hself, hgrows.kind.trans hkind, hbare hwasBare⟩
  · rintro ⟨_, hspace', hkind, -⟩ old hold
    cases hspace.symm.trans hspace'
    rw [named?_of_space hspace] at hold
    exact hfixed hkind old hold

theorem writes_predefine {stx' : Syntax} (hstx : stx.Names ns name)
    (h : spaces.predefine ns stx = .ok (stx', spaces')) :
    ∃ d : Definition, d.name = name ∧ spaces.Writes ns name (.defined d) spaces' := by
  obtain ⟨_, space, index, space', hname, hspace, hdefined, -, rfl⟩ := predefine_eq_ok.1 h
  cases hstx.symbol.symm.trans hname
  rw [filingKey_names hstx] at hdefined
  obtain ⟨hholding, hfixed⟩ := Namespace.holding?_predefine hdefined
  exact ⟨space.nextDefinition ns name, rfl, writes_setIfInBounds hspace
    (Namespace.grows_predefine hdefined) (·.predefine hdefined) hholding
    fun hkind old hold hold' => absurd hold' (hfixed hkind old hold)⟩

theorem writes_require {provided : Provided} {shadowable : Bool} (hstx : stx.Names ns name)
    (h : spaces.require ns stx provided shadowable = .ok spaces') :
    ∃ i : Import, i.provided.target = provided.target ∧ (shadowable = false → i.shadowable = false) ∧
      spaces.Writes ns name (.required i) spaces' := by
  obtain ⟨_, space, space', hname, hspace, hrequired, rfl⟩ := require_eq_ok.1 h
  cases hstx.symbol.symm.trans hname
  rw [filingKey_names hstx] at hrequired
  obtain ⟨i, htarget, hexplicit, hholding, hfixed⟩ := Namespace.holding?_require hrequired
  exact ⟨i, htarget, hexplicit, writes_setIfInBounds hspace (Namespace.grows_require hrequired)
    (·.require hrequired) hholding fun _ => hfixed⟩

end Spaces

end HygienicLisp
