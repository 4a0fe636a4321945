import HygienicLisp.Proofs.Namespaces.ByAddress
import HygienicLisp.Proofs.Namespaces.Changes
import HygienicLisp.Proofs.Namespaces.Freeing

/-!
# Consistent worlds

In a consistent world the tables of all namespaces are in order, and everything that leads to
another namespace leads to one that is there and has the module it is recorded with: the targets of
cells, the short names of imported namespaces, and what modules provide.

Main statement: a change of the namespaces that brings in known definitions only keeps them
consistent (`Spaces.Consistent.change`), and so does freeing a namespace (`World.Consistent.free`).
-/

namespace HygienicLisp

/-! ## Extensions -/

/-- The later namespace is the earlier one with more in it, and its short names stand for what they
stood for. -/
structure Namespace.Extends (before after : Namespace) : Prop
    extends Namespace.Grows before after where
  imports : ∀ (i : Nat) (entry : ModuleId × NamespaceId), before.imports[i]? = some entry →
    after.imports[i]? = some entry

namespace Namespace

variable {target : Definition → Prop} {stored : Slot → Value → Prop} {self : NamespaceId}
  {space space' : Namespace}

theorem Extends.refl (space : Namespace) : space.Extends space := ⟨.refl space, fun _ _ h => h⟩

theorem Extends.trans {first second third : Namespace} (h : first.Extends second)
    (h' : second.Extends third) : first.Extends third :=
  ⟨h.toGrows.trans h'.toGrows, fun i entry hi => h'.imports i entry (h.imports i entry hi)⟩

theorem Change.extends (h : space.Change target stored self space') : space.Extends space' := by
  refine ⟨h.grows, fun i entry hi => ?_⟩
  cases h with
  | refer htarget =>
      have hlt := (Array.getElem?_eq_some_iff.1 hi).1
      rw [addImport, Array.getElem?_push, if_neg (Nat.ne_of_lt hlt), hi]
  | newDefinition | redefinition | newImport | reimport | store => exact hi

/-- What a cell leads to after a change it has led to before, or it is a definition of the
namespace, or the change has brought it in. -/
theorem Change.entry (h : space.Change target stored self space') {i : Nat} {e : Entry}
    (he : space'.entries[i]? = some e) :
    space.entries[i]? = some e ∨
      (e.content.target.owner = self ∧ e.content.target.home = space.home) ∨
      target e.content.target := by
  cases h with
  | newDefinition hnew =>
      rcases entry_of_file he with ⟨-, rfl⟩ | ⟨-, hold⟩
      · exact .inr (.inl ⟨rfl, rfl⟩)
      · exact .inl hold
  | redefinition hentry hallowed =>
      rcases entry_of_swing hentry he with ⟨-, rfl⟩ | ⟨-, hold⟩
      · exact .inr (.inl ⟨rfl, rfl⟩)
      · exact .inl hold
  | newImport hnew hname htarget =>
      rcases entry_of_file he with ⟨-, rfl⟩ | ⟨-, hold⟩
      · exact .inr (.inr htarget)
      · exact .inl hold
  | reimport hentry hthere hallowed hname htarget =>
      rcases entry_of_swing hentry he with ⟨-, rfl⟩ | ⟨-, hold⟩
      · exact .inr (.inr htarget)
      · exact .inl hold
  | store hstored => exact .inl he
  | refer htarget => exact .inl he

/-- A short name that a change has brought in is that of the owner of a definition. -/
theorem Change.import (h : space.Change target stored self space') {i : Nat}
    {entry : ModuleId × NamespaceId} (hentry : space'.imports[i]? = some entry) :
    space.imports[i]? = some entry ∨ ∃ d, target d ∧ entry = (d.home, d.owner) := by
  cases h with
  | @refer d htarget =>
      rw [addImport, Array.getElem?_push] at hentry
      split at hentry
      · exact .inr ⟨d, htarget, (Option.some.inj hentry).symm⟩
      · exact .inl hentry
  | newDefinition | redefinition | newImport | reimport | store => exact .inl hentry

/-- The value at an address after a change is the one that was there before, or has been stored. -/
theorem Change.value? (h : space.Change target stored self space') (address : Nat) :
    space'.value? address = space.value? address ∨
      ∃ v, stored ⟨self, address⟩ v ∧ space'.value? address = some v := by
  cases h with
  | @store written v hstored =>
      rw [value?_setValue_eq]
      by_cases hsame : address = written
      · exact .inr ⟨v, hsame ▸ hstored, if_pos hsame⟩
      · exact .inl (if_neg hsame)
  | newDefinition | redefinition | newImport | reimport | refer => exact .inl rfl

theorem exists_entry_of_mem_unmarkedDefinitions {d : Definition}
    (h : d ∈ space.unmarkedDefinitions) :
    ∃ (i : Nat) (e : Entry), space.entries[i]? = some e ∧ e.content = .defined d := by
  rw [unmarkedDefinitions_eq, mem_definitionsSeen] at h
  obtain ⟨e, he, -, -, hcontent⟩ := h
  obtain ⟨i, hi⟩ := List.mem_iff_getElem?.1 he
  exact ⟨i, e, Array.getElem?_toList ▸ hi, hcontent⟩

end Namespace

namespace Spaces

variable {target : Definition → Prop} {stored : Slot → Value → Prop} {spaces spaces' : Spaces}

/-- Every namespace is still there, and has been extended. -/
def Extends (before after : Spaces) : Prop :=
  ∀ (ns : NamespaceId) (space : Namespace), before[ns]? = some space →
    ∃ space', after[ns]? = some space' ∧ space.Extends space'

theorem Extends.refl (spaces : Spaces) : spaces.Extends spaces :=
  fun _ space hspace => ⟨space, hspace, .refl space⟩

theorem Extends.trans {before after later : Spaces} (h : before.Extends after)
    (h' : after.Extends later) : before.Extends later := by
  intro ns space hspace
  obtain ⟨space', hspace', hextends⟩ := h ns space hspace
  obtain ⟨space'', hspace'', hextends'⟩ := h' ns space' hspace'
  exact ⟨space'', hspace'', hextends.trans hextends'⟩

theorem Change.extends (h : spaces.Change target stored spaces') : spaces.Extends spaces' := by
  intro ns space hspace
  obtain ⟨space', hspace', rfl | hchange⟩ := h.at hspace
  · exact ⟨space', hspace', .refl space'⟩
  · exact ⟨space', hspace', hchange.extends⟩

theorem Extends.size_le {before after : Spaces} (h : before.Extends after) :
    before.size ≤ after.size := by
  by_contra hlt
  obtain ⟨space, hspace, -⟩ := h after.size _ (Array.getElem?_eq_getElem (Nat.not_le.1 hlt))
  simp at hspace

/-- A namespace after a change is new and empty, or it is one from before that may have changed. -/
theorem Change.space (h : spaces.Change target stored spaces') {ns : NamespaceId}
    {space' : Namespace} (hspace' : spaces'[ns]? = some space') :
    (∃ home kind, space' = { home, kind } ∧ ns = spaces.size) ∨
      ∃ space, spaces[ns]? = some space ∧
        (space' = space ∨ space.Change target stored ns space') := by
  cases hspace : spaces[ns]? with
  | some space =>
      obtain ⟨space₁, hspace₁, hchange⟩ := h.at hspace
      obtain rfl : space₁ = space' := Option.some.inj (hspace₁.symm.trans hspace')
      exact .inr ⟨space, rfl, hchange⟩
  | none =>
      -- A change inside a namespace is one of a namespace that is there, so this one is new.
      left
      cases h with
      | create home kind =>
          rw [Array.getElem?_push] at hspace'
          split at hspace'
          · rename_i hns
            exact ⟨home, kind, (Option.some.inj hspace').symm, hns⟩
          · cases hspace.symm.trans hspace'
      | within hthere hchange =>
          rw [getElem?_setIfInBounds_of_some hthere] at hspace'
          split at hspace'
          · rename_i hns
            subst hns
            cases hspace.symm.trans hthere
          · cases hspace.symm.trans hspace'

/-- The value in a slot after a change is the one that was there before, or has been stored. -/
theorem Change.value? (h : spaces.Change target stored spaces') (ns : NamespaceId) (address : Nat) :
    spaces'.value? ns address = spaces.value? ns address ∨
      ∃ v, stored ⟨ns, address⟩ v ∧ spaces'.value? ns address = some v := by
  cases hspace' : spaces'[ns]? with
  | none =>
      left
      cases hspace : spaces[ns]? with
      | none => rw [Spaces.value?, hspace', Spaces.value?, hspace]
      | some space =>
          obtain ⟨_, hthere, -⟩ := h.at hspace
          cases hspace'.symm.trans hthere
  | some space' =>
      rw [Spaces.value?, hspace', Spaces.value?]
      rcases h.space hspace' with ⟨home, kind, rfl, hns⟩ | ⟨space, hspace, rfl | hchange⟩
      · have hnone : spaces[ns]? = none := Array.getElem?_eq_none (Nat.le_of_eq hns.symm)
        rw [hnone]
        exact .inl (by simp [Namespace.value?])
      · rw [hspace]
        exact .inl rfl
      · rw [hspace]
        exact hchange.value? address

/-! ## Known definitions -/

/-- The namespace is there and belongs to the module. -/
def IsHome (spaces : Spaces) (ns : NamespaceId) (home : ModuleId) : Prop :=
  ∃ space, spaces[ns]? = some space ∧ space.home = home

/-- The owner of the definition is there and is the one it is recorded with. -/
def Knows (spaces : Spaces) (d : Definition) : Prop := spaces.IsHome d.owner d.home

theorem IsHome.mono {before after : Spaces} (h : before.Extends after) {ns : NamespaceId}
    {home : ModuleId} (hhome : before.IsHome ns home) : after.IsHome ns home := by
  obtain ⟨space, hspace, rfl⟩ := hhome
  obtain ⟨space', hspace', hextends⟩ := h ns space hspace
  exact ⟨space', hspace', hextends.home⟩

theorem Knows.mono {before after : Spaces} (h : before.Extends after) {d : Definition}
    (hd : before.Knows d) : after.Knows d :=
  IsHome.mono h hd

/-! ## Consistency -/

/-- The tables are in order, and what leads to another namespace leads to one that is there. -/
structure Consistent (spaces : Spaces) : Prop where
  valid : ∀ {ns : NamespaceId} {space : Namespace}, spaces[ns]? = some space → space.Valid ns
  targets : ∀ {ns : NamespaceId} {space : Namespace}, spaces[ns]? = some space →
    ∀ {i : Nat} {e : Entry}, space.entries[i]? = some e → spaces.Knows e.content.target
  imports : ∀ {ns : NamespaceId} {space : Namespace}, spaces[ns]? = some space →
    ∀ {i : Nat} {entry : ModuleId × NamespaceId}, space.imports[i]? = some entry →
      spaces.IsHome entry.2 entry.1

/-- A change that brings in known definitions keeps the namespaces consistent. -/
theorem Consistent.change (h : spaces.Consistent)
    (hchange : spaces.Change spaces.Knows stored spaces') : spaces'.Consistent where
  valid hspace' := by
    rcases hchange.space hspace' with ⟨home, kind, rfl, -⟩ | ⟨space, hspace, rfl | hwithin⟩
    · exact Namespace.valid_new _ home kind
    · exact h.valid hspace
    · exact (h.valid hspace).change hwithin
  targets {ns space'} hspace' i e he := by
    have hextends := hchange.extends
    rcases hchange.space hspace' with ⟨home, kind, rfl, -⟩ | ⟨space, hspace, rfl | hwithin⟩
    · simp at he
    · exact (h.targets hspace he).mono hextends
    · rcases hwithin.entry he with hold | ⟨howner, hhome⟩ | hknown
      · exact (h.targets hspace hold).mono hextends
      · -- A definition of the namespace itself is recorded with the module of the namespace.
        rw [Knows, howner, hhome]
        exact ⟨space', hspace', hwithin.grows.home⟩
      · exact hknown.mono hextends
  imports {ns space'} hspace' i entry hentry := by
    have hextends := hchange.extends
    rcases hchange.space hspace' with ⟨home, kind, rfl, -⟩ | ⟨space, hspace, rfl | hwithin⟩
    · simp at hentry
    · exact (h.imports hspace hentry).mono hextends
    · rcases hwithin.import hentry with hold | ⟨d, hknown, rfl⟩
      · exact (h.imports hspace hold).mono hextends
      · exact hknown.mono hextends

theorem Consistent.knows_content (h : spaces.Consistent) {c : CellRef} {content : Content}
    (hc : spaces.content? c = some content) : spaces.Knows content.target := by
  rw [content?] at hc
  split at hc
  · rename_i space hspace
    obtain ⟨e, he, rfl⟩ := Option.map_eq_some_iff.1 hc
    exact h.targets hspace he
  · cases hc

/-- What a binding leads to is known. -/
theorem Consistent.knows_target (h : spaces.Consistent) {b : Binding} {d : Definition}
    (hd : (spaces.denote b).target? = some d) : spaces.Knows d := by
  cases b with
  | free name => cases hd
  | lexical v => cases hd
  | cell c =>
      rw [denote] at hd
      split at hd
      · rename_i hc
        cases hd
        exact h.knows_content hc
      · rename_i hc
        cases hd
        exact h.knows_content hc
      · cases hd

/-- The definitions of a namespace are known. -/
theorem Consistent.knows_unmarkedDefinitions (h : spaces.Consistent) {ns : NamespaceId}
    {space : Namespace} (hspace : spaces[ns]? = some space) :
    ∀ d ∈ space.unmarkedDefinitions, spaces.Knows d := by
  intro d hd
  obtain ⟨i, e, he, hcontent⟩ := Namespace.exists_entry_of_mem_unmarkedDefinitions hd
  have hknown := h.targets hspace he
  rw [hcontent] at hknown
  exact hknown

end Spaces

/-! ## Worlds -/

/-- What the instance provides is known. -/
def Instance.Known (spaces : Spaces) (i : Instance) : Prop :=
  ∀ p ∈ i.provided, spaces.Knows p.target

/-- What the declared module provides is known. -/
def Declaration.Known (spaces : Spaces) (d : Declaration) : Prop :=
  ∀ p ∈ d.provides, spaces.Knows p.target

theorem Instance.Known.mono {before after : Spaces} (h : before.Extends after) {i : Instance}
    (hi : i.Known before) : i.Known after :=
  fun p hp => (hi p hp).mono h

theorem Declaration.Known.mono {before after : Spaces} (h : before.Extends after) {d : Declaration}
    (hd : d.Known before) : d.Known after :=
  fun p hp => (hd p hp).mono h

/-- The namespaces are consistent, and all that is provided is known. -/
structure World.Consistent (w : World) : Prop where
  spaces : w.spaces.Consistent
  provides : ∀ p ∈ w.provides, w.spaces.Knows p.target
  declarations : ∀ d ∈ w.registry.declarations, d.Known w.spaces
  instances : ∀ i ∈ w.registry.instances, i.Known w.spaces
  kernel : w.runtime.kernel.Known w.spaces

/-! ## Freed namespaces -/

theorem Spaces.IsHome.free {spaces : Spaces} {ns : NamespaceId} {home : ModuleId}
    (h : spaces.IsHome ns home) (other : NamespaceId) : (spaces.free other).IsHome ns home := by
  obtain ⟨space, hspace, rfl⟩ := h
  obtain ⟨freed, hspace'⟩ := exists_space_free hspace other
  exact ⟨_, hspace', rfl⟩

theorem Spaces.Consistent.free {spaces : Spaces} (h : spaces.Consistent) (other : NamespaceId) :
    (spaces.free other).Consistent where
  valid hspace' := by
    obtain ⟨space, freed, hspace, rfl⟩ := exists_space_of_free hspace'
    exact { h.valid hspace with }
  targets hspace' i e he := by
    obtain ⟨space, freed, hspace, rfl⟩ := exists_space_of_free hspace'
    exact (h.targets hspace he).free other
  imports hspace' i entry hentry := by
    obtain ⟨space, freed, hspace, rfl⟩ := exists_space_of_free hspace'
    exact (h.imports hspace hentry).free other

/-- A world in which a namespace is freed is as consistent as it was. -/
theorem World.Consistent.free {w : World} (h : w.Consistent) (ns : NamespaceId) :
    (w.free ns).Consistent where
  spaces := h.spaces.free ns
  provides p hp := (h.provides p hp).free ns
  declarations d hd p hp := (h.declarations d hd p hp).free ns
  instances i hi p hp := (h.instances i hi p hp).free ns
  kernel p hp := (h.kernel p hp).free ns

end HygienicLisp
