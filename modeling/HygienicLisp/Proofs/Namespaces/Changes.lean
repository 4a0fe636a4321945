import HygienicLisp.Proofs.Namespaces.Growth

/-!
# What may happen to a namespace

A namespace changes in six ways: it takes an address for a new or for an existing cell, imports a
definition into a new or over an existing cell, stores a value, or takes a short name for another
namespace.  `Namespace.Change` lists them with the conditions under which they happen, and every
operation on namespaces is shown to be made of such changes.  What is to hold of a namespace at all
times is then proved change by change.

Main statement: the changes keep the table in order (`Namespace.Valid.change`).  Its keys are
distinct, what a cell holds has the name it is filed under, and the definitions of the namespace are
its own, with distinct addresses that have been taken.
-/

namespace HygienicLisp

/-- A slot of the value store of a namespace. -/
structure Slot where
  space : NamespaceId
  address : Nat
  deriving DecidableEq, Repr

/-- The name under which a cell leads to its definition. -/
def Content.name : Content → String
  | .defined d => d.name
  | .required i => i.name

namespace Namespace

variable {target : Definition → Prop} {stored : Slot → Value → Prop} {self : NamespaceId}
  {space space' : Namespace}

/-- One change of the namespace with the number `self`.  The definitions that it comes to refer to
and the values that it comes to hold are as given. -/
inductive Change (target : Definition → Prop) (stored : Slot → Value → Prop) (self : NamespaceId)
    (space : Namespace) : Namespace → Prop
  | newDefinition {key : Key} (hnew : key ∉ space.keys) :
      Change target stored self space
        (space.takeAddress.file key (.defined (space.nextDefinition self key.name)))
  | redefinition {index : Nat} {entry : Entry} (hentry : space.entries[index]? = some entry)
      (hallowed : redefinitionConflict? space.kind entry.content = none) :
      Change target stored self space
        (space.takeAddress.swing index (.defined (space.nextDefinition self entry.key.name)))
  | newImport {key : Key} {i : Import} (hnew : key ∉ space.keys) (hname : i.name = key.name)
      (htarget : target i.provided.target) :
      Change target stored self space (space.file key (.required i))
  | reimport {index : Nat} {entry : Entry} {there i : Import}
      (hentry : space.entries[index]? = some entry) (hthere : entry.content = .required there)
      (hallowed : there.shadowable = true) (hname : i.name = entry.key.name)
      (htarget : target i.provided.target) :
      Change target stored self space (space.swing index (.required i))
  | store {address : Nat} {v : Value} (hstored : stored ⟨self, address⟩ v) :
      Change target stored self space (space.setValue address v)
  | refer {d : Definition} (htarget : target d) :
      Change target stored self space (space.addImport d)

/-! ## Operations are changes -/

theorem find?_eq_none_iff {key : Key} : space.find? key = none ↔ key ∉ space.keys := by
  rw [find?_eq_findIdx?_keys, List.findIdx?_eq_none_iff]
  constructor
  · intro h hmem
    simpa using h key hmem
  · intro h key' hmem
    rw [decide_eq_false_iff_not]
    rintro rfl
    exact h hmem

theorem change_of_predefine {key : Key} {index : Nat}
    (h : space.predefine self key = .ok (index, space')) :
    space.Change target stored self space' := by
  obtain ⟨hnone, -, rfl⟩ | ⟨old, hfind, hold, hallowed, rfl⟩ := predefine_eq_ok.1 h
  · exact .newDefinition (find?_eq_none_iff.1 hnone)
  · obtain ⟨entry, hentry, rfl⟩ := exists_entry_of_find? hfind
    obtain rfl : entry.content = old := by
      rw [content?, hentry] at hold
      exact Option.some.inj hold
    exact .redefinition hentry hallowed

theorem change_of_require {key : Key} {provided : Provided} {shadowable : Bool}
    (htarget : target provided.target) (h : space.require key provided shadowable = .ok space') :
    space' = space ∨ space.Change target stored self space' := by
  obtain ⟨hnone, rfl⟩ | ⟨index, there, hfind, hthere, ⟨-, -, rfl⟩ | ⟨hallowed, -, rfl⟩⟩ :=
    require_eq_ok.1 h
  · exact .inr (.newImport (find?_eq_none_iff.1 hnone) rfl htarget)
  · exact .inl rfl
  · obtain ⟨entry, hentry, rfl⟩ := exists_entry_of_find? hfind
    rw [content?, hentry] at hthere
    exact .inr (.reimport hentry (Option.some.inj hthere) hallowed rfl htarget)

/-! ## Entries after a change -/

theorem entry_of_file {key : Key} {content : Content} {i : Nat} {e : Entry}
    (h : (space.file key content).entries[i]? = some e) :
    i = space.entries.size ∧ e = ⟨key, content⟩ ∨
      i ≠ space.entries.size ∧ space.entries[i]? = some e := by
  rw [file, Array.getElem?_push] at h
  split at h
  · rename_i hi
    exact .inl ⟨hi, (Option.some.inj h).symm⟩
  · rename_i hi
    exact .inr ⟨hi, h⟩

theorem entry_of_swing {index : Nat} {content : Content} {old : Entry}
    (hold : space.entries[index]? = some old) {i : Nat} {e : Entry}
    (h : (space.swing index content).entries[i]? = some e) :
    i = index ∧ e = ⟨old.key, content⟩ ∨ i ≠ index ∧ space.entries[i]? = some e := by
  rw [swing, Array.getElem?_modify] at h
  split at h
  · rename_i hi
    subst hi
    rw [hold] at h
    exact .inl ⟨rfl, (Option.some.inj h).symm⟩
  · rename_i hi
    exact .inr ⟨Ne.symm hi, h⟩

theorem value?_setValue_eq (space : Namespace) (address other : Nat) (v : Value) :
    (space.setValue address v).value? other =
      if other = address then some v else space.value? other := by
  rw [value?, setValue]
  dsimp only
  rw [Array.getElem?_setIfInBounds]
  by_cases hsame : address = other
  · subst hsame
    have hlt : address < (space.values ++
        Array.replicate (address + 1 - space.values.size) none).size := by
      rw [Array.size_append, Array.size_replicate]
      omega
    rw [if_pos rfl, if_pos hlt, if_pos rfl]
    rfl
  · rw [if_neg hsame, if_neg (Ne.symm hsame), Array.getElem?_append, value?]
    split
    · rfl
    · rename_i hge
      rw [Array.getElem?_eq_none (Nat.not_lt.1 hge), Array.getElem?_replicate]
      split <;> rfl

/-! ## The table stays in order -/

/-- The table of the namespace with the number `ns` is in order. -/
structure Valid (ns : NamespaceId) (space : Namespace) : Prop where
  keys : space.keys.Nodup
  named : ∀ {i : Nat} {key : Key} {content : Content},
    space.entries[i]? = some ⟨key, content⟩ → content.name = key.name
  owned : ∀ {i : Nat} {key : Key} {d : Definition}, space.entries[i]? = some ⟨key, .defined d⟩ →
    d.owner = ns ∧ d.home = space.home ∧ d.address < space.definitionCount
  apart : ∀ {i j : Nat} {key key' : Key} {d d' : Definition},
    space.entries[i]? = some ⟨key, .defined d⟩ → space.entries[j]? = some ⟨key', .defined d'⟩ →
      d.address = d'.address → i = j

theorem valid_new (self : NamespaceId) (home : ModuleId) (kind : NamespaceKind) :
    Valid self { home, kind } where
  keys := List.nodup_nil
  named h := by simp at h
  owned h := by simp at h
  apart h := by simp at h

theorem Valid.congr (h : space.Valid self) (hentries : space'.entries = space.entries)
    (hcount : space'.definitionCount = space.definitionCount) (hhome : space'.home = space.home) :
    space'.Valid self where
  keys := by
    have hkeys : space'.keys = space.keys := by rw [Namespace.keys, hentries, Namespace.keys]
    rw [hkeys]
    exact h.keys
  named hentry := h.named (hentries ▸ hentry)
  owned hentry := by
    rw [hcount, hhome]
    exact h.owned (hentries ▸ hentry)
  apart hi hj := h.apart (hentries ▸ hi) (hentries ▸ hj)

/-- The table stays in order if one cell comes to hold an import or the definition that takes the
next address. -/
theorem Valid.put (h : space.Valid self) {index : Nat} {key : Key} {content : Content}
    (hput : ∀ {i : Nat} {e : Entry}, space'.entries[i]? = some e →
      i = index ∧ e = ⟨key, content⟩ ∨ i ≠ index ∧ space.entries[i]? = some e)
    (hkeys : space'.keys.Nodup) (hname : content.name = key.name) (hhome : space'.home = space.home)
    (hcount : space.definitionCount ≤ space'.definitionCount)
    (hdefined : ∀ d, content = .defined d → d.owner = self ∧ d.home = space.home ∧
      d.address = space.definitionCount ∧ space.definitionCount < space'.definitionCount) :
    space'.Valid self where
  keys := hkeys
  named hentry := by
    rcases hput hentry with ⟨-, heq⟩ | ⟨-, hold⟩
    · cases heq
      exact hname
    · exact h.named hold
  owned hentry := by
    rw [hhome]
    rcases hput hentry with ⟨-, heq⟩ | ⟨-, hold⟩
    · cases heq
      obtain ⟨howner, hd, haddress, hlt⟩ := hdefined _ rfl
      exact ⟨howner, hd, haddress ▸ hlt⟩
    · obtain ⟨howner, hd, hlt⟩ := h.owned hold
      exact ⟨howner, hd, Nat.lt_of_lt_of_le hlt hcount⟩
  apart hi hj heq := by
    -- The address taken last is larger than all that were taken before.
    rcases hput hi with ⟨rfl, hnew⟩ | ⟨-, hold⟩ <;> rcases hput hj with ⟨rfl, hnew'⟩ | ⟨-, hold'⟩
    · rfl
    · cases hnew
      have hlt := (h.owned hold').2.2
      have haddress := (hdefined _ rfl).2.2.1
      omega
    · cases hnew'
      have hlt := (h.owned hold).2.2
      have haddress := (hdefined _ rfl).2.2.1
      omega
    · exact h.apart hold hold' heq

theorem nodup_keys_file (h : space.keys.Nodup) {key : Key} (hnew : key ∉ space.keys)
    (content : Content) : (space.file key content).keys.Nodup := by
  rw [keys_file]
  refine List.nodup_append.2 ⟨h, List.pairwise_singleton _ key, ?_⟩
  intro a ha b hb hab
  rw [List.mem_singleton] at hb
  exact hnew (hb ▸ hab ▸ ha)

/-- Every change keeps the table in order. -/
theorem Valid.change (h : space.Valid self) (hchange : space.Change target stored self space') :
    space'.Valid self := by
  cases hchange with
  | newDefinition hnew =>
      refine h.put (fun he => entry_of_file he) ?_ rfl rfl (Nat.le_succ _) ?_
      · exact nodup_keys_file (show space.takeAddress.keys.Nodup from h.keys) hnew _
      · rintro d ⟨⟩
        exact ⟨rfl, rfl, rfl, Nat.lt_succ_self _⟩
  | @redefinition index entry hentry hallowed =>
      refine h.put (fun he => entry_of_swing hentry he) ?_ rfl rfl (Nat.le_succ _) ?_
      · rw [keys_swing]
        exact h.keys
      · rintro d ⟨⟩
        exact ⟨rfl, rfl, rfl, Nat.lt_succ_self _⟩
  | newImport hnew hname htarget =>
      exact h.put entry_of_file (nodup_keys_file h.keys hnew _) hname rfl le_rfl nofun
  | reimport hentry hthere hallowed hname htarget =>
      refine h.put (entry_of_swing hentry) ?_ hname rfl le_rfl nofun
      rw [keys_swing]
      exact h.keys
  | store hstored => exact h.congr rfl rfl rfl
  | refer htarget => exact h.congr rfl rfl rfl

/-- Every change makes the namespace grow. -/
theorem Change.grows (h : space.Change target stored self space') : space.Grows space' := by
  cases h with
  | newDefinition hnew => exact ⟨rfl, rfl, ⟨[_], (keys_file _ _ _).symm⟩, rfl⟩
  | redefinition hentry hallowed =>
      exact ⟨rfl, rfl, ⟨[], (List.append_nil _).trans (keys_swing _ _ _).symm⟩, rfl⟩
  | newImport hnew hname htarget => exact ⟨rfl, rfl, ⟨[_], (keys_file _ _ _).symm⟩, rfl⟩
  | reimport hentry hthere hallowed hname htarget =>
      exact ⟨rfl, rfl, ⟨[], (List.append_nil _).trans (keys_swing _ _ _).symm⟩, rfl⟩
  | store hstored => exact ⟨rfl, rfl, List.prefix_rfl, rfl⟩
  | refer htarget => exact ⟨rfl, rfl, List.prefix_rfl, rfl⟩

end Namespace

/-! ## All namespaces -/

namespace Spaces

variable {target : Definition → Prop} {stored : Slot → Value → Prop} {spaces spaces' : Spaces}

/-- One change of the namespaces: there is a new one, or one of them changes. -/
inductive Change (target : Definition → Prop) (stored : Slot → Value → Prop) (spaces : Spaces) :
    Spaces → Prop
  | create (home : ModuleId) (kind : NamespaceKind) :
      Change target stored spaces (spaces.push { home, kind })
  | within {ns : NamespaceId} {space space' : Namespace} (hspace : spaces[ns]? = some space)
      (h : space.Change target stored ns space') :
      Change target stored spaces (spaces.setIfInBounds ns space')

theorem getElem?_setIfInBounds_of_some {ns : NamespaceId} {space : Namespace}
    (hspace : spaces[ns]? = some space) (space' : Namespace) (other : NamespaceId) :
    (spaces.setIfInBounds ns space')[other]? =
      if other = ns then some space' else spaces[other]? := by
  by_cases hsame : other = ns
  · subst hsame
    rw [if_pos rfl, Array.getElem?_setIfInBounds_self_of_lt (Array.getElem?_eq_some_iff.1 hspace).1]
  · rw [if_neg hsame, Array.getElem?_setIfInBounds_ne (Ne.symm hsame)]

theorem setIfInBounds_eq_self {ns : NamespaceId} {space : Namespace}
    (hspace : spaces[ns]? = some space) : spaces.setIfInBounds ns space = spaces := by
  apply Array.ext_getElem?
  intro other
  rw [getElem?_setIfInBounds_of_some hspace]
  split
  · rename_i hsame
    rw [hsame, hspace]
  · rfl

theorem modify_eq_setIfInBounds {ns : NamespaceId} {space : Namespace}
    (hspace : spaces[ns]? = some space) (f : Namespace → Namespace) :
    spaces.modify ns f = spaces.setIfInBounds ns (f space) := by
  apply Array.ext_getElem?
  intro other
  rw [getElem?_setIfInBounds_of_some hspace, Array.getElem?_modify]
  by_cases hsame : other = ns
  · subst hsame
    rw [if_pos rfl, if_pos rfl, hspace]
    rfl
  · rw [if_neg hsame, if_neg (Ne.symm hsame)]

theorem modify_eq_self {ns : NamespaceId} (hspace : spaces[ns]? = none)
    (f : Namespace → Namespace) :
    spaces.modify ns f = spaces := by
  apply Array.ext_getElem?
  intro other
  rw [Array.getElem?_modify]
  split
  · rename_i hsame
    subst hsame
    rw [hspace]
    rfl
  · rfl

/-- Seen from one namespace, a change of the namespaces is one of its own changes or none. -/
theorem Change.at (h : spaces.Change target stored spaces') {ns : NamespaceId} {space : Namespace}
    (hspace : spaces[ns]? = some space) :
    ∃ space', spaces'[ns]? = some space' ∧
      (space' = space ∨ space.Change target stored ns space') := by
  cases h with
  | create home kind =>
      have hlt := (Array.getElem?_eq_some_iff.1 hspace).1
      refine ⟨space, ?_, .inl rfl⟩
      rw [Array.getElem?_push, if_neg (Nat.ne_of_lt hlt), hspace]
  | @within changed _ space' hthere hchange =>
      rw [getElem?_setIfInBounds_of_some hthere]
      by_cases hsame : ns = changed
      · subst hsame
        cases hspace.symm.trans hthere
        exact ⟨space', if_pos rfl, .inr hchange⟩
      · exact ⟨space, (if_neg hsame).trans hspace, .inl rfl⟩

/-- A change frees nothing. -/
theorem Change.isFreed (h : spaces.Change target stored spaces') :
    spaces'.isFreed = spaces.isFreed := by
  funext other
  cases h with
  | create home kind =>
      rw [Spaces.isFreed, Spaces.isFreed, Array.getElem?_push]
      by_cases hnew : other = spaces.size
      · rw [if_pos hnew, Array.getElem?_eq_none (Nat.le_of_eq hnew.symm)]
      · rw [if_neg hnew]
  | @within ns _ _ hspace hchange =>
      rw [Spaces.isFreed, Spaces.isFreed, getElem?_setIfInBounds_of_some hspace]
      by_cases hsame : other = ns
      · rw [if_pos hsame, hsame, hspace]
        exact hchange.grows.freed
      · rw [if_neg hsame]

theorem change_of_predefine {ns : NamespaceId} {stx stx' : Syntax}
    (h : spaces.predefine ns stx = .ok (stx', spaces')) : spaces.Change target stored spaces' := by
  obtain ⟨name, space, index, space', -, hspace, hdefined, -, rfl⟩ := predefine_eq_ok.1 h
  exact .within hspace (Namespace.change_of_predefine hdefined)

theorem change_of_require {ns : NamespaceId} {stx : Syntax} {provided : Provided}
    {shadowable : Bool} (htarget : target provided.target)
    (h : spaces.require ns stx provided shadowable = .ok spaces') :
    spaces' = spaces ∨ spaces.Change target stored spaces' := by
  obtain ⟨name, space, space', -, hspace, hrequired, rfl⟩ := require_eq_ok.1 h
  rcases Namespace.change_of_require htarget hrequired with rfl | hchange
  · exact .inl (setIfInBounds_eq_self hspace)
  · exact .inr (.within hspace hchange)

theorem change_setValue (spaces : Spaces) {ns : NamespaceId} {address : Nat} {v : Value}
    (hstored : stored ⟨ns, address⟩ v) :
    spaces.setValue ns address v = spaces ∨
      spaces.Change target stored (spaces.setValue ns address v) := by
  rw [setValue]
  cases hspace : spaces[ns]? with
  | none => exact .inl (modify_eq_self hspace _)
  | some space =>
      rw [modify_eq_setIfInBounds hspace]
      exact .inr (.within hspace (.store hstored))

theorem change_of_importId {ns : NamespaceId} {d : Definition} {id : Nat} (htarget : target d)
    (h : spaces.importId ns d = .ok (id, spaces')) :
    spaces' = spaces ∨ spaces.Change target stored spaces' := by
  obtain ⟨space, hspace, ⟨-, rfl⟩ | ⟨-, -, -, rfl⟩⟩ := importId_eq_ok.1 h
  · exact .inl rfl
  · rw [addImport, modify_eq_setIfInBounds hspace]
    exact .inr (.within hspace (.refer htarget))

end Spaces

/-! ## Computations -/

theorem predefine_apply (ns : NamespaceId) (stx : Syntax) (w : World) :
    predefine ns stx w = match w.spaces.predefine ns stx with
      | .ok (stx', spaces) => .ok stx' { w with spaces }
      | .error e => .error (.error e) w := by
  rw [predefine, RunM.bind_apply, RunM.getSpaces_apply]
  dsimp only
  cases w.spaces.predefine ns stx <;> rfl

theorem predefine_eq_ok {ns : NamespaceId} {stx stx' : Syntax} {w w' : World} :
    predefine ns stx w = .ok stx' w' ↔
      ∃ spaces, w.spaces.predefine ns stx = .ok (stx', spaces) ∧ w' = { w with spaces } := by
  rw [predefine_apply]
  cases w.spaces.predefine ns stx with
  | error e => simp
  | ok result =>
      obtain ⟨made, spaces⟩ := result
      simp [@eq_comm _ w']

theorem require_apply (ns : NamespaceId) (stx : Syntax) (provided : Provided) (shadowable : Bool)
    (w : World) :
    require ns stx provided shadowable w =
      match w.spaces.require ns stx provided shadowable with
      | .ok spaces => .ok () { w with spaces }
      | .error e => .error (.error e) w := by
  rw [require, RunM.bind_apply, RunM.getSpaces_apply]
  dsimp only
  cases w.spaces.require ns stx provided shadowable <;> rfl

theorem bindDefinition_apply (ns : NamespaceId) (d : Definition) (v : Value) (w : World) :
    bindDefinition ns d v w =
      if d.owner = ns then
        .ok ()
          { w with names := w.names.infer v d.name, spaces := w.spaces.setValue ns d.address v }
      else .error (.error (.of (.contract (.foreignBind d.name d.home)))) w := by
  rw [bindDefinition]
  by_cases howner : d.owner = ns
  · rw [if_neg (not_not_intro howner), if_pos howner]
    rfl
  · rw [if_pos howner, if_neg howner]
    rfl

end HygienicLisp
