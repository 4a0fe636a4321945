import HygienicLisp.Expansion.Modules
import HygienicLisp.Proofs.Namespaces.DefinitionLog
import HygienicLisp.Proofs.Namespaces.FilingKeys

/-!
# What a namespace exports

A module can provide all that it has defined.  What it provides then is read off its table: the
definitions in the cells that are filed without marks and under a free origin.  Nothing in the table
says that these have distinct names, or which of the definitions of a name is the last one; both
follow from how the table has come about.

Main statement: `unmarkedDefinitions_exact`.  After any calls, and in whatever order the cells are
visited, what is exported are the definitions that were made last under their keys, where the key
has no marks and a free origin, each name once and in the order of the addresses.
-/

namespace HygienicLisp

/-! ## Free origins -/

namespace Spaces

variable {spaces before after : Spaces} {ns : NamespaceId} {name : String}
  {binders : List (NamespaceId × Syntax)}

/-- An identifier that is filed under a free origin means nothing outside of the namespace, so what
is free is its own name. -/
theorem filingKey_free {stx : Syntax} {late : String}
    (h : (spaces.filingKey ns stx name).origin = .free late) : late = name := by
  rw [filingKey_eq] at h
  dsimp only at h
  rcases @outside_cases spaces ns name (wrapMarks stx.wraps) stx.wraps with
    hnone | ⟨v, hlexical⟩ | ⟨c, hcell, -⟩
  · rw [hnone] at h
    cases h
    rfl
  · rw [hlexical] at h
    cases h
  · rw [hcell] at h
    cases h

/-- In every namespace, a key with a free origin is that of the name that is free. -/
def FreeNames (spaces : Spaces) : Prop :=
  ∀ (ns : NamespaceId) (space : Namespace), spaces[ns]? = some space → space.FreeNames

theorem FreeNames.files (h : before.FreeNames) (hfiles : before.Files binders after) :
    after.FreeNames := by
  intro ns space' hspace' key hkey late horigin
  rcases hfiles ns space' hspace' with hempty | ⟨space, hspace, hkeys⟩
  · rw [hempty] at hkey
    cases hkey
  · rcases hkeys key hkey with hold | ⟨stx, name, -, -, rfl⟩
    · exact h ns space hspace key hold late horigin
    · exact filingKey_free horigin

end Spaces

/-- After any calls, keys with a free origin are those of the names that are free. -/
theorem World.freeNames_afterCalls (calls : List Call) :
    (({} : World).afterCalls calls).spaces.FreeNames := by
  induction calls using List.reverseRecOn with
  | nil => exact fun ns space hspace => by cases hspace
  | append_singleton calls call ih =>
      rw [World.afterCalls_append]
      exact ih.files (call.files _)

/-! ## One namespace -/

namespace Namespace

variable {space : Namespace} {ns : NamespaceId} {d : Definition}

/-- The definitions in the cells of a namespace have distinct addresses. -/
theorem Valid.pairwise_address_ne (h : space.Valid ns) :
    (space.entries.toList.filterMap unmarkedDefinition?).Pairwise (·.address ≠ ·.address) := by
  rw [List.pairwise_filterMap, List.pairwise_iff_getElem]
  intro i j hi hj hlt d hd d' hd' haddress
  have hentry : ∀ {k} (hk : k < space.entries.toList.length) {e : Definition},
      unmarkedDefinition? space.entries.toList[k] = some e →
      ∃ key, space.entries[k]? = some ⟨key, .defined e⟩ := by
    intro k hk e he
    obtain ⟨-, -, hcontent⟩ := unmarkedDefinition?_eq_some_iff.1 he
    refine ⟨space.entries.toList[k].key, ?_⟩
    rw [← Array.getElem?_toList, List.getElem?_eq_getElem hk, ← hcontent]
  obtain ⟨key, hfirst⟩ := hentry hi hd
  obtain ⟨key', hsecond⟩ := hentry hj hd'
  exact hlt.ne (h.apart hfirst hsecond haddress)

theorem Valid.pairwise_unmarkedDefinitions (h : space.Valid ns) :
    space.unmarkedDefinitions.Pairwise (·.address < ·.address) :=
  pairwise_lt_byAddress h.pairwise_address_ne

/-- The order in which the cells are visited makes no difference. -/
theorem Valid.definitionsSeen_perm (h : space.Valid ns) {order : List Entry}
    (hperm : order.Perm space.entries.toList) :
    definitionsSeen order = space.unmarkedDefinitions :=
  (byAddress_eq_of_perm h.pairwise_address_ne (hperm.symm.filterMap unmarkedDefinition?)).symm

/-- A name is exported once. -/
theorem FreeNames.nodup_names (hfree : space.FreeNames) (h : space.Valid ns) :
    (space.unmarkedDefinitions.map (·.name)).Nodup := by
  have hnodup : space.unmarkedDefinitions.Nodup :=
    h.pairwise_unmarkedDefinitions.imp fun hlt hsame => hlt.ne (congrArg Definition.address hsame)
  refine List.Nodup.map_on (fun d hd d' hd' hname => ?_) hnodup
  -- Both are what the name stands for.
  have hholding := (mem_unmarkedDefinitions hfree h).1 hd
  have hholding' := (mem_unmarkedDefinitions hfree h).1 hd'
  rw [hname, hholding'] at hholding
  cases hholding
  rfl

/-- The name of an import is not exported. -/
theorem FreeNames.name_ne_of_required (hfree : space.FreeNames) (h : space.Valid ns) {key : Key}
    {i : Import} (hmem : (⟨key, .required i⟩ : Entry) ∈ space.entries.toList)
    (hmarks : key.marks = .empty) (horigin : ∃ name, key.origin = .free name)
    (hd : d ∈ space.unmarkedDefinitions) : d.name ≠ key.name := by
  intro hname
  have hplain := hfree.eq_plainKey (List.mem_map_of_mem (f := Entry.key) hmem) hmarks horigin
  have hrequired := (holding?_eq_some_iff h.keys).2 hmem
  have hdefined := (mem_unmarkedDefinitions hfree h).1 hd
  rw [hname, ← hplain, hrequired] at hdefined
  cases hdefined

end Namespace

/-! ## The definitions that are exported -/

namespace Spaces

variable {spaces : Spaces} {ns : NamespaceId} {space : Namespace}
  {made earlier later : List (Key × Definition)} {key : Key} {d : Definition}

/-- There is one definition for every address that has been taken. -/
theorem Made.addresses_eq (h : Made ns #[] spaces made) (hspace : spaces[ns]? = some space) :
    made.map (·.2.address) = List.range space.definitionCount := by
  have hcount : space.definitionCount = made.length := by
    calc space.definitionCount = spaces.taken ns := by rw [Spaces.taken, hspace]; rfl
      _ = 0 + made.length := h.taken
      _ = made.length := Nat.zero_add _
  rw [hcount, List.range_eq_range']
  exact h.addresses

/-- What is exported of a namespace are the definitions that were made last under keys without marks
and with a free origin. -/
theorem Made.mem_unmarkedDefinitions (h : Made ns #[] spaces made)
    (hspace : spaces[ns]? = some space) (hvalid : space.Valid ns) :
    d ∈ space.unmarkedDefinitions ↔ ∃ key : Key, key.marks = .empty ∧
      (∃ name, key.origin = .free name) ∧ lastMade? key made = some d := by
  have hdefined : ∀ key, space.holding? key = some (.defined d) ↔ lastMade? key made = some d := by
    intro key
    have hkey : space.defined? key = lastMade? key made := by
      calc space.defined? key = spaces.defined? ns key := by rw [defined?, hspace]; rfl
        _ = (lastMade? key made).or none := h.defined key
        _ = lastMade? key made := Option.or_none
    rw [← hkey, Namespace.defined?_eq_some_iff]
  simp only [Namespace.mem_unmarkedDefinitions_iff hvalid.keys, hdefined]

/-- Of the definitions that were made, those are exported that were filed without marks and under a
free origin, unless another one was filed under the same key later. -/
theorem Made.exported_iff (h : Made ns #[] spaces (earlier ++ (key, d) :: later))
    (hspace : spaces[ns]? = some space) (hvalid : space.Valid ns) :
    d ∈ space.unmarkedDefinitions ↔
      key.marks = .empty ∧ (∃ name, key.origin = .free name) ∧ ∀ e ∈ later, e.1 ≠ key := by
  rw [h.mem_unmarkedDefinitions hspace hvalid]
  constructor
  · rintro ⟨key', hmarks, horigin, hlast⟩
    obtain ⟨earlier', later', hmade, hlater⟩ := lastMade?_eq_some_iff.1 hlast
    -- The address of a definition says when it was made.
    have hlength : earlier.length = earlier'.length := by
      have haddress := h.address_eq
      rw [hmade] at h
      have haddress' := h.address_eq
      omega
    obtain ⟨-, hrest⟩ := List.append_inj hmade hlength
    cases hrest
    exact ⟨hmarks, horigin, hlater⟩
  · rintro ⟨hmarks, horigin, hlater⟩
    exact ⟨key, hmarks, horigin, lastMade?_eq_some_iff.2 ⟨earlier, later, rfl, hlater⟩⟩

end Spaces

/-! ## Providing all that is defined -/

namespace Expansion

theorem recordEach_apply (ds : List Definition) (w : World) :
    runEach (fun d : Definition => recordProvided ⟨d.name, d⟩) ds w =
      .ok () { w with provides := w.provides ++ ds.map fun d => ⟨d.name, d⟩ } := by
  induction ds generalizing w with
  | nil => simp [runEach]
  | cons d rest ih =>
      rw [runEach, RunM.bind_apply, recordProvided, RunM.modify_apply]
      dsimp only
      rw [ih]
      simp

/-- Providing all that is defined records what the namespace exports, under its own names. -/
theorem provideSpec_allDefined {ns : NamespaceId} {w : World} {space : Namespace}
    (hspace : w.spaces[ns]? = some space) {spec keyword : Syntax}
    (hform : spec.subforms = [keyword]) (hkeyword : keyword.symbol? = some "all_defined_out") :
    provideSpec ns spec w = .ok ()
      { w with provides := w.provides ++ space.unmarkedDefinitions.map fun d => ⟨d.name, d⟩ } := by
  have hsymbol : spec.symbol? = none := by
    cases spec with
    | atom => cases hform
    | group | record => rfl
  rw [provideSpec, RunM.bind_apply, RunM.getSpaces_apply]
  simp only [hsymbol, hform, hkeyword, if_true, hspace]
  exact recordEach_apply space.unmarkedDefinitions w

end Expansion

/-- After any calls, a namespace exports its definitions in strictly increasing order of their
addresses and every name at most once, and the order in which its cells are visited makes no
difference.  What it exports is what the cells hold that are filed without marks and under a free
origin, as far as they hold definitions.  Of all the definitions that have been made in it, one for
every address, it exports those that were filed in this way and over which no other one has been
made.  All that it exports is its own, and it exports no name that it imports.  This is what a
module provides that provides all it has defined. -/
theorem unmarkedDefinitions_exact {ns : NamespaceId} {calls : List Call} {space : Namespace}
    (hspace : (({} : World).afterCalls calls).spaces[ns]? = some space) :
    space.unmarkedDefinitions.Pairwise (·.address < ·.address) ∧
    (space.unmarkedDefinitions.map (·.name)).Nodup ∧
    (∀ order, order.Perm space.entries.toList →
      Namespace.definitionsSeen order = space.unmarkedDefinitions) ∧
    (∀ d, d ∈ space.unmarkedDefinitions ↔ ∃ e ∈ space.entries.toList,
      e.key.marks = .empty ∧ (∃ name, e.key.origin = .free name) ∧ e.content = .defined d) ∧
    (({} : World).made ns calls).map (·.2.address) = List.range space.definitionCount ∧
    (∀ earlier key d later, ({} : World).made ns calls = earlier ++ (key, d) :: later →
      (d ∈ space.unmarkedDefinitions ↔
        key.marks = .empty ∧ (∃ name, key.origin = .free name) ∧ ∀ e ∈ later, e.1 ≠ key)) ∧
    (∀ d ∈ space.unmarkedDefinitions,
      d.owner = ns ∧ ∃ key, (key, d) ∈ ({} : World).made ns calls) ∧
    (∀ key i, (⟨key, .required i⟩ : Entry) ∈ space.entries.toList → key.marks = .empty →
      (∃ name, key.origin = .free name) → ∀ d ∈ space.unmarkedDefinitions, d.name ≠ key.name) ∧
    ∀ w spec keyword, w.spaces[ns]? = some space → spec.subforms = [keyword] →
      keyword.symbol? = some "all_defined_out" →
      Expansion.provideSpec ns spec w = .ok () { w with
        provides := w.provides ++ space.unmarkedDefinitions.map fun d => ⟨d.name, d⟩ } := by
  have hvalid : space.Valid ns := World.valid_afterCalls calls hspace
  have hfree : space.FreeNames := World.freeNames_afterCalls calls ns space hspace
  have hmade : Spaces.Made ns #[] (({} : World).afterCalls calls).spaces
      (({} : World).made ns calls) := World.made_afterCalls ns {} calls
  refine ⟨hvalid.pairwise_unmarkedDefinitions, hfree.nodup_names hvalid,
    fun order hperm => hvalid.definitionsSeen_perm hperm, fun d => ?_, hmade.addresses_eq hspace,
    fun earlier key d later hlog => ?_, fun d hd => ⟨?_, ?_⟩,
    fun key i hmem hmarks horigin d hd => hfree.name_ne_of_required hvalid hmem hmarks horigin hd,
    fun w spec keyword hw hform hkeyword => Expansion.provideSpec_allDefined hw hform hkeyword⟩
  · rw [Namespace.unmarkedDefinitions_eq, Namespace.mem_definitionsSeen]
  · rw [hlog] at hmade
    exact hmade.exported_iff hspace hvalid
  · obtain ⟨i, ⟨key, content⟩, he, hcontent⟩ :=
      Namespace.exists_entry_of_mem_unmarkedDefinitions hd
    obtain rfl : content = .defined d := hcontent
    exact (hvalid.owned he).1
  · obtain ⟨key, -, -, hlast⟩ := (hmade.mem_unmarkedDefinitions hspace hvalid).1 hd
    obtain ⟨earlier, later, hlog, -⟩ := lastMade?_eq_some_iff.1 hlast
    exact ⟨key, hlog ▸ List.mem_append_right _ List.mem_cons_self⟩

/-! ## A session that exports -/

/-- The name `x` in the context of a session. -/
def exportedName : Syntax := (Syntax.ident "x").introduce 1

/-- A session that imports `f`, defines `x` and `y`, has another `x` defined by a transformer, and
defines `x` again. -/
def exportingSession : List Call :=
  [.operation (.create ⟨"/library"⟩ .module),
    .operation (.create ⟨"/session"⟩ .topLevel),
    .operation (.defineValue 0 "f" .void),
    .operation (.require 1 importedName ⟨"f", libraryDefinition⟩ false),
    .operation (.predefine 1 exportedName),
    .operation (.predefine 1 ((Syntax.ident "y").introduce 1)),
    .operation (.predefine 1 (exportedName.addWrap (.mark 1))),
    .operation (.predefine 1 exportedName)]

/-- The definition of a name that takes an address in the session. -/
def sessionDefinition (name : String) (address : Nat) : Definition :=
  ⟨name, address, 1, ⟨"/session"⟩⟩

theorem made_exportingSession :
    ({} : World).made 1 exportingSession =
      [(plainKey "x", sessionDefinition "x" 0), (plainKey "y", sessionDefinition "y" 1),
        (⟨"x", .free "x", MarkSet.empty.toggle 1⟩, sessionDefinition "x" 2),
        (plainKey "x", sessionDefinition "x" 3)] := by
  decide +kernel

/-- The session exports `y` and its last `x`, also if its cells are visited backwards.  It exports
neither the `x` that it has defined again nor the `x` of the transformer. -/
theorem exportingSession_exports :
    ∃ space, (({} : World).afterCalls exportingSession).spaces[1]? = some space ∧
      space.unmarkedDefinitions = [sessionDefinition "y" 1, sessionDefinition "x" 3] ∧
      Namespace.definitionsSeen space.entries.toList.reverse = space.unmarkedDefinitions ∧
      sessionDefinition "x" 0 ∉ space.unmarkedDefinitions ∧
      sessionDefinition "x" 2 ∉ space.unmarkedDefinitions := by
  have hexports : ((({} : World).afterCalls exportingSession).spaces[1]?).map
      (·.unmarkedDefinitions) = some [sessionDefinition "y" 1, sessionDefinition "x" 3] := by
    decide +kernel
  obtain ⟨space, hspace, hexports⟩ := Option.map_eq_some_iff.1 hexports
  obtain ⟨-, -, horder, -, -, hmade, -⟩ := unmarkedDefinitions_exact hspace
  refine ⟨space, hspace, hexports, horder _ (List.reverse_perm _), ?_, ?_⟩
  · -- The last definition is filed under the same key.
    rw [hmade [] _ _ _ made_exportingSession]
    simp
  · rw [hmade [_, _] _ _ [_] made_exportingSession]
    exact fun hfiled => absurd hfiled.1 (by decide)

end HygienicLisp
