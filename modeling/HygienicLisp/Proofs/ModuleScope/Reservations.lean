import HygienicLisp.Proofs.ModuleScope.Compile
import HygienicLisp.Proofs.Reexports.Names
import Mathlib.Data.List.Perm.Basic

/-!
# Reserved addresses

The namespace of a module begins with what it imports from the language.  The first pass over the body
reserves an address for every name that the module defines, in the order of the definitions.  Two
orders of the same names give the same namespace up to the numbers: a name has its position among the
names for an address, and its position among the keys for a cell.

Main statements: `Namespace.Reserved.predefine`, by which one more address is reserved, and
`Spaces.twins_reserved`, by which two orders give twins.
-/

namespace HygienicLisp

/-! ## Lists in two orders -/

/-- The position in the second list of what the first has at the position. -/
def relocate {α : Type} [DecidableEq α] (xs ys : List α) (i : Nat) : Nat :=
  match xs[i]? with
  | some x => ys.idxOf x
  | none => i

section

variable {α : Type} [DecidableEq α] {xs ys : List α}

theorem relocate_of_getElem? {i : Nat} {x : α} (h : xs[i]? = some x) :
    relocate xs ys i = ys.idxOf x := by
  rw [relocate, h]

theorem relocate_idxOf {x : α} (h : x ∈ xs) : relocate xs ys (xs.idxOf x) = ys.idxOf x :=
  relocate_of_getElem? (List.getElem?_idxOf h)

theorem getElem?_relocate (hperm : xs.Perm ys) (i : Nat) : ys[relocate xs ys i]? = xs[i]? := by
  cases hx : xs[i]? with
  | some x =>
      rw [relocate_of_getElem? hx]
      exact List.getElem?_idxOf (hperm.subset (List.mem_of_getElem? hx))
  | none =>
      rw [relocate, hx]
      dsimp only
      rw [List.getElem?_eq_none_iff] at hx ⊢
      exact hperm.length_eq ▸ hx

/-- No two positions are taken to one. -/
theorem relocate_injective (hperm : xs.Perm ys) (hnodup : xs.Nodup) :
    Function.Injective (relocate xs ys) := by
  intro i j hsame
  have hboth : xs[i]? = xs[j]? := by
    rw [← getElem?_relocate hperm i, hsame, getElem?_relocate hperm j]
  cases hx : xs[i]? with
  | some x =>
      obtain ⟨hi, rfl⟩ := List.getElem?_eq_some_iff.1 hx
      obtain ⟨hj, hget⟩ := List.getElem?_eq_some_iff.1 (hboth.symm.trans hx)
      exact ((hnodup.getElem_inj_iff).1 hget).symm
  | none =>
      -- Positions behind the list stay where they are.
      rw [relocate, relocate, ← hboth, hx] at hsame
      exact hsame

end

/-! ## The language -/

/-- The definition is the one that the name stands for in the language. -/
structure Spaces.Native (spaces : Spaces) (kernel : NamespaceId) (name : String) (d : Definition) :
    Prop where
  named : spaces.named? kernel name = some (.defined d)
  ofKernel : spaces.OfKernel kernel d

theorem Spaces.Native.congr {spaces spaces' : Spaces} {kernel : NamespaceId} {name : String}
    {d : Definition} (h : spaces.Native kernel name d) (hkernel : spaces'[kernel]? = spaces[kernel]?) :
    spaces'.Native kernel name d where
  named := by
    rw [Spaces.named?, hkernel]
    exact h.named
  ofKernel := h.ofKernel.congr hkernel

/-! ## Tables by their keys -/

namespace Namespace

variable {space space' base : Namespace} {ns : NamespaceId} {names names' : List String}

theorem find?_eq_idxOf {key : Key} (h : key ∈ space.keys) :
    space.find? key = some (space.keys.idxOf key) := by
  rw [find?_eq_findIdx?_keys, List.findIdx?_eq_some_iff_findIdx_eq]
  exact ⟨List.idxOf_lt_length_iff.2 h, rfl⟩

theorem content?_of_getElem?_keys (hkeys : space.keys.Nodup) {i : Nat} {key : Key}
    (h : space.keys[i]? = some key) : space.content? i = space.holding? key := by
  obtain ⟨hi, rfl⟩ := List.getElem?_eq_some_iff.1 h
  rw [holding?, find?_eq_idxOf (List.getElem_mem hi), Option.bind_some, hkeys.idxOf_getElem]

theorem content?_eq_bind (hkeys : space.keys.Nodup) (i : Nat) :
    space.content? i = space.keys[i]?.bind space.holding? := by
  cases h : space.keys[i]? with
  | some key => exact content?_of_getElem?_keys hkeys h
  | none =>
      rw [List.getElem?_eq_none_iff, length_keys] at h
      rw [content?, Array.getElem?_eq_none h]
      rfl

theorem Grows.find? (h : space.Grows space') {key : Key} {index : Nat}
    (hfind : space.find? key = some index) : space'.find? key = some index := by
  obtain ⟨later, hlater⟩ := h.keys
  rw [find?_eq_findIdx?_keys] at hfind ⊢
  rw [← hlater, List.findIdx?_append, hfind, Option.some_or]

/-! ## A new namespace -/

/-- A namespace of a module that has imported from the language and done nothing else. -/
structure Blank (spaces : Spaces) (kernel ns : NamespaceId) (space : Namespace) : Prop where
  kind : space.kind = .module
  live : space.freed = false
  bare : space.Bare
  valid : space.Valid ns
  count : space.definitionCount = 0
  values : space.values = #[]
  imports : space.imports = #[]
  holding : ∀ key content, space.holding? key = some content → ∃ i, content = .required i ∧
    i.shadowable = true ∧ spaces.Native kernel key.name i.provided.target

variable {spaces : Spaces} {kernel : NamespaceId}

theorem blank_new (spaces : Spaces) (kernel ns : NamespaceId) (home : ModuleId) :
    Blank spaces kernel ns { home, kind := .module } := by
  refine ⟨rfl, rfl, bare_new home .module, valid_new ns home .module, rfl, rfl, rfl, ?_⟩
  intro key content h
  simp [holding?, find?] at h

/-- A name that is there stands for what it stands for in the language. -/
theorem Blank.native (h : space.Blank spaces kernel ns) {name : String} {d : Definition}
    (hkey : plainKey name ∈ space.keys) (hd : spaces.Native kernel name d) :
    ∃ i, space.holding? (plainKey name) = some (.required i) ∧ i.provided.target = d := by
  cases hheld : space.holding? (plainKey name) with
  | none => exact absurd hkey (holding?_eq_none_iff.1 hheld)
  | some content =>
      obtain ⟨i, rfl, -, hnative⟩ := h.holding _ _ hheld
      refine ⟨i, rfl, ?_⟩
      exact Content.defined.inj (Option.some.inj (hnative.named.symm.trans hd.named))

/-- What a name stands for in the language can be imported under the name. -/
theorem Blank.require (h : space.Blank spaces kernel ns) {p : Provided}
    (hp : spaces.Native kernel p.name p.target) :
    ∃ space', space.require (plainKey p.name) p true = .ok space' ∧ space'.Blank spaces kernel ns ∧
      space.Grows space' ∧ plainKey p.name ∈ space'.keys := by
  by_cases hkey : plainKey p.name ∈ space.keys
  · -- It is there already.
    obtain ⟨i, hheld, htarget⟩ := h.native hkey hp
    obtain ⟨index, hfind, hcontent⟩ := Option.bind_eq_some_iff.1 hheld
    refine ⟨space, ?_, h, .refl space, hkey⟩
    simp [Namespace.require, hfind, hcontent, importOver, htarget]
  · have hfind := find?_eq_none_iff.2 hkey
    let i : Import := ⟨p.name, p, true⟩
    have hrequire : space.require (plainKey p.name) p true =
        .ok (space.file (plainKey p.name) (.required i)) := by
      rw [Namespace.require, hfind]
      rfl
    have hchange : space.Change (fun _ => True) (fun _ _ => True) ns
        (space.file (plainKey p.name) (.required i)) := .newImport hkey rfl trivial
    refine ⟨_, hrequire, ⟨h.kind, h.live, h.bare.require hrequire, h.valid.change hchange, h.count, h.values,
      h.imports, fun key content hheld => ?_⟩, hchange.grows, ?_⟩
    · rw [holding?_file hfind] at hheld
      split at hheld
      · rename_i hsame
        cases hheld
        exact ⟨i, rfl, rfl, hsame ▸ hp⟩
      · exact h.holding key content hheld
    · rw [keys_file]
      exact List.mem_append_right _ List.mem_cons_self

theorem Blank.congr (h : space.Blank spaces kernel ns) {spaces' : Spaces}
    (hkernel : spaces'[kernel]? = spaces[kernel]?) : space.Blank spaces' kernel ns :=
  { h with
    holding := fun key content hheld =>
      let ⟨i, hi, hshadowable, hnative⟩ := h.holding key content hheld
      ⟨i, hi, hshadowable, hnative.congr hkernel⟩ }

/-! ## Reserving addresses -/

/-- The namespace after addresses have been reserved for the names in order. -/
structure Reserved (base : Namespace) (ns : NamespaceId) (names : List String)
    (space : Namespace) : Prop where
  kind : space.kind = base.kind
  home : space.home = base.home
  freed : space.freed = base.freed
  bare : space.Bare
  valid : space.Valid ns
  count : space.definitionCount = names.length
  values : space.values = base.values
  imports : space.imports = base.imports
  holding : ∀ name, space.holding? (plainKey name) =
    if name ∈ names then some (.defined ⟨name, names.idxOf name, ns, base.home⟩)
    else base.holding? (plainKey name)

theorem Blank.reserved (h : base.Blank spaces kernel ns) : base.Reserved ns [] base :=
  ⟨rfl, rfl, rfl, h.bare, h.valid, h.count, rfl, rfl, fun name => by simp⟩

theorem imports_predefine {key : Key} {index : Nat}
    (h : space.predefine ns key = .ok (index, space')) : space'.imports = space.imports := by
  obtain ⟨-, -, rfl⟩ | ⟨old, -, -, -, rfl⟩ := predefine_eq_ok.1 h <;> rfl

/-- One more address is reserved for a name that has none. -/
theorem Reserved.predefine (h : base.Reserved ns names space)
    (hbase : base.Blank spaces kernel ns) {name : String} (hname : name ∉ names) :
    ∃ index space', space.predefine ns (plainKey name) = .ok (index, space') ∧
      space'.find? (plainKey name) = some index ∧ space.Grows space' ∧
      base.Reserved ns (names ++ [name]) space' := by
  cases hpredefine : space.predefine ns (plainKey name) with
  | error conflict =>
      -- What is imported from the language may be shadowed.
      obtain ⟨-, content, hcontent, hfixed⟩ := predefine_refused_iff.1 ⟨conflict, hpredefine⟩
      have hhere : space.holding? (plainKey name) = some content := hcontent
      rw [h.holding, if_neg hname] at hhere
      obtain ⟨i, rfl, hshadowable, -⟩ := hbase.holding _ _ hhere
      exact absurd hshadowable (by simp [show i.shadowable = false from hfixed])
  | ok result =>
      obtain ⟨index, space'⟩ := result
      obtain ⟨hfind, -⟩ := predefine_spec hpredefine
      obtain ⟨hholding, -⟩ := holding?_predefine hpredefine
      obtain ⟨hcount, hvalues⟩ := predefine_counts hpredefine
      have hgrows := grows_predefine hpredefine
      have hchange : space.Change (fun _ => True) (fun _ _ => True) ns space' :=
        change_of_predefine hpredefine
      refine ⟨index, space', rfl, hfind, hgrows, ⟨hgrows.kind.trans h.kind, hgrows.home.trans h.home,
        hgrows.freed.trans h.freed, h.bare.predefine hpredefine, h.valid.change hchange, ?_,
        hvalues.trans h.values, ?_, ?_⟩⟩
      · rw [hcount, h.count, List.length_append, List.length_singleton]
      · exact (imports_predefine hpredefine).trans h.imports
      · intro other
        rw [hholding, h.holding]
        simp only [Spaces.plainKey_inj, List.mem_append, List.mem_singleton]
        by_cases hother : other = name
        · subst hother
          have haddress : (names ++ [other]).idxOf other = names.length := by
            rw [List.idxOf_append_of_notMem hname, List.idxOf_cons_self, Nat.add_zero]
          rw [if_pos rfl, if_pos (.inr rfl), haddress, nextDefinition, h.count, h.home]
          rfl
        · simp only [hother, or_false, if_false]
          split
          · rename_i hmem
            rw [List.idxOf_append_of_mem hmem]
          · rfl

/-! ## Two orders -/

theorem Reserved.mem_keys_iff (h : base.Reserved ns names space) {key : Key} :
    key ∈ space.keys ↔ key = plainKey key.name ∧ (key.name ∈ names ∨ key ∈ base.keys) := by
  have hholding := h.holding key.name
  constructor
  · intro hkey
    have hplain := h.bare key hkey
    refine ⟨hplain, or_iff_not_imp_left.2 fun hnew => ?_⟩
    rw [if_neg hnew, ← hplain] at hholding
    by_contra hnone
    rw [← holding?_eq_none_iff, ← hholding, holding?_eq_none_iff] at hnone
    exact hnone hkey
  · rintro ⟨hplain, hmem⟩
    by_contra hnone
    rw [← hplain, holding?_eq_none_iff.2 hnone] at hholding
    split at hholding
    · cases hholding
    · rename_i hnew
      exact holding?_eq_none_iff.1 hholding.symm (hmem.resolve_left hnew)

theorem Reserved.perm (h : base.Reserved ns names space) (h' : base.Reserved ns names' space')
    (hperm : names.Perm names') : space.keys.Perm space'.keys := by
  refine (List.perm_ext_iff_of_nodup h.valid.keys h'.valid.keys).2 fun key => ?_
  rw [h.mem_keys_iff, h'.mem_keys_iff, hperm.mem_iff]

end Namespace

/-- The numbers of a module whose definitions come in the second order, for those of the first. -/
def Renumbering.reorder (ns : NamespaceId) (names names' : List String) (space space' : Namespace)
    (oldRib newRib : RibId) : Renumbering where
  space := ns
  address := relocate names names'
  cell := relocate space.keys space'.keys
  oldRib := oldRib
  newRib := newRib

section

variable {space space' base : Namespace} {ns kernel : NamespaceId} {names names' : List String}
  {spaces : Spaces} {oldRib newRib : RibId}

/-- A bare key mentions no numbers. -/
theorem Key.renumber_eq_plainKey_iff {ρ : Renumbering} {key : Key} {name : String} :
    key.renumber ρ = plainKey name ↔ key = plainKey name := by
  obtain ⟨keyName, origin, marks⟩ := key
  cases origin <;> simp [Key.renumber, Binding.renumber, plainKey]

namespace Namespace

theorem Reserved.twins (hbase : base.Blank spaces kernel ns) (hapart : kernel ≠ ns)
    (h : base.Reserved ns names space) (h' : base.Reserved ns names' space')
    (hperm : names.Perm names') :
    Namespace.Twins (.reorder ns names names' space space' oldRib newRib) space space' where
  isModule := h.kind.trans hbase.kind
  isModule' := h'.kind.trans hbase.kind
  freed := h'.freed.trans h.freed.symm
  find key := by
    have hkeys := h.perm h' hperm
    by_cases hkey : key ∈ space.keys
    · have hsame : key.renumber (.reorder ns names names' space space' oldRib newRib) = key := by
        rw [h.bare key hkey]
        exact Key.renumber_eq_plainKey_iff.2 rfl
      rw [hsame, find?_eq_idxOf hkey, find?_eq_idxOf (hkeys.subset hkey), Option.map_some]
      exact congrArg some (relocate_idxOf hkey).symm
    · rw [find?_eq_none_iff.2 hkey, Option.map_none, find?_eq_none_iff]
      intro hmem
      -- The keys are bare names, which no renumbering touches.
      have hplain := h'.bare _ hmem
      rw [hplain] at hmem
      exact hkey (Key.renumber_eq_plainKey_iff.1 hplain ▸ hkeys.symm.subset hmem)
  content i := by
    have hkeys := h.perm h' hperm
    show space'.content? (relocate space.keys space'.keys i) = _
    rw [content?_eq_bind h'.valid.keys, getElem?_relocate hkeys, content?_eq_bind h.valid.keys]
    cases hkey : space.keys[i]? with
    | none => rfl
    | some key =>
        have hplain := h.bare key (List.mem_of_getElem? hkey)
        rw [Option.bind_some, Option.bind_some, hplain, h.holding, h'.holding]
        simp only [hperm.mem_iff]
        -- A reserved name moves with its address; any other still holds its import from the kernel.
        split
        · rename_i hmem
          have haddress : relocate names names' (names.idxOf key.name) = names'.idxOf key.name :=
            relocate_idxOf (hperm.mem_iff.2 hmem)
          simp [Content.renumber, Definition.renumber, Renumbering.reorder, haddress]
        · cases hheld : base.holding? (plainKey key.name) with
          | none => rfl
          | some content =>
              obtain ⟨i, rfl, -, hi⟩ := hbase.holding _ _ hheld
              have hforeign : i.provided.target.owner ≠ ns := hi.ofKernel.owner ▸ hapart
              simp [Content.renumber, Import.renumber, Definition.renumber, Renumbering.reorder,
                hforeign]
  unset address := by rw [value?, h.values, hbase.values]; rfl
  unset' address := by rw [value?, h'.values, hbase.values]; rfl

theorem Reserved.refersTo (hbase : base.Blank spaces kernel ns) (h : base.Reserved ns names space)
    (spaces' : Spaces) : space.RefersTo spaces' kernel :=
  .inl (h.imports.trans hbase.imports)

/-- What the namespace has is a definition of its own or comes from the language. -/
theorem Reserved.content (hbase : base.Blank spaces kernel ns) (h : base.Reserved ns names space)
    {key : Key} {content : Content} (hcontent : space.holding? key = some content) :
    (key.name ∈ names ∧
        content = .defined ⟨key.name, names.idxOf key.name, ns, base.home⟩) ∨
      key.name ∉ names ∧ ∃ i, content = .required i ∧
        spaces.Native kernel key.name i.provided.target := by
  have hkey : key ∈ space.keys := by
    by_contra hnone
    rw [holding?_eq_none_iff.2 hnone] at hcontent
    cases hcontent
  rw [h.bare key hkey, h.holding] at hcontent
  split at hcontent
  · rename_i hmem
    exact .inl ⟨hmem, (Option.some.inj hcontent).symm⟩
  · rename_i hnew
    obtain ⟨i, hi, -, hnative⟩ := hbase.holding _ _ hcontent
    exact .inr ⟨hnew, i, hi, hnative⟩

end Namespace

/-! ## All namespaces -/

namespace Spaces

/-- The namespaces with one of them replaced. -/
def put (spaces : Spaces) (ns : NamespaceId) (space : Namespace) : Spaces :=
  spaces.setIfInBounds ns space

variable (hspace : spaces[ns]? = some base) (hbase : base.Blank spaces kernel ns)
  (hapart : kernel ≠ ns)

include hspace in
theorem own_put (space : Namespace) : (spaces.put ns space)[ns]? = some space :=
  (getElem?_setIfInBounds_of_some hspace space ns).trans (if_pos rfl)

include hspace in
theorem other_put (space : Namespace) {other : NamespaceId} (hother : other ≠ ns) :
    (spaces.put ns space)[other]? = spaces[other]? :=
  (getElem?_setIfInBounds_of_some hspace space other).trans (if_neg hother)

include hspace in
theorem put_self : spaces.put ns base = spaces := by
  refine Array.ext_getElem? fun other => ?_
  by_cases hother : other = ns
  · rw [hother, own_put hspace, hspace]
  · exact other_put hspace base hother

theorem put_put (spaces : Spaces) (ns : NamespaceId) (space space' : Namespace) :
    (spaces.put ns space).put ns space' = spaces.put ns space' := by
  rw [put, put, Array.setIfInBounds_setIfInBounds]
  rfl

include hspace in
theorem content?_put (space : Namespace) (i : Nat) :
    (spaces.put ns space).content? ⟨ns, i⟩ = space.content? i := by
  rw [content?, own_put hspace]

include hspace hbase hapart

/-- Two orders of the same names give the same namespaces up to the numbers. -/
theorem twins_reserved (hlanguage : ∀ i content, spaces.content? ⟨kernel, i⟩ = some content →
      spaces.OfKernel kernel content.target)
    (h : base.Reserved ns names space) (h' : base.Reserved ns names' space')
    (hperm : names.Perm names') :
    Spaces.Twins (.reorder ns names names' space space' oldRib newRib) kernel (spaces.put ns space)
      (spaces.put ns space') where
  injective := relocate_injective (h.perm h' hperm) h.valid.keys
  apart := hapart
  other _ hother := (other_put hspace space' hother).trans (other_put hspace space hother).symm
  own := ⟨space, space', own_put hspace space, own_put hspace space', h.twins hbase hapart h' hperm,
    h.refersTo hbase _, h'.refersTo hbase _⟩
  targets i content hcontent := by
    rw [Renumbering.reorder, content?_put hspace, Namespace.content?_eq_bind h.valid.keys] at hcontent
    obtain ⟨key, -, hcontent⟩ := Option.bind_eq_some_iff.1 hcontent
    rcases h.content hbase hcontent with ⟨-, rfl⟩ | ⟨-, i, rfl, hnative⟩
    · exact .inl rfl
    · exact .inr (hnative.ofKernel.congr (other_put hspace space hapart))
  language i content hcontent := by
    have hkernel := other_put hspace space hapart
    have hsame : (spaces.put ns space).content? ⟨kernel, i⟩ = spaces.content? ⟨kernel, i⟩ := by
      rw [content?, content?, hkernel]
    exact (hlanguage i content (hsame ▸ hcontent)).congr hkernel

/-- What is defined are the names, at the reserved addresses. -/
theorem reserves_reserved (h : base.Reserved ns names space) :
    (spaces.put ns space).Reserves ns names := by
  have hholding {key : Key} {c : CellRef} {content : Content}
      (hc : (spaces.put ns space).cell? ns key = some c)
      (hcontent : (spaces.put ns space).content? c = some content) :
      space.holding? key = some content := by
    obtain ⟨howner, found, hfound, -, hfind⟩ := cell?_eq_some_iff.1 hc
    rw [own_put hspace, Option.some.injEq] at hfound
    subst hfound
    rw [content?, howner, own_put hspace] at hcontent
    rw [Namespace.holding?, hfind]
    exact hcontent
  refine ⟨fun {key c d} hc hd => ?_, fun {key c i} hc hi => ?_⟩
  · rcases h.content hbase (hholding hc hd) with ⟨hmem, hsame⟩ | ⟨-, i, hsame, -⟩
    · cases hsame
      exact ⟨rfl, List.getElem?_idxOf hmem⟩
    · cases hsame
  · rcases h.content hbase (hholding hc hi) with ⟨-, hsame⟩ | ⟨hnew, i, hsame, hnative⟩
    · cases hsame
    · cases hsame
      exact ⟨hnative.ofKernel.owner ▸ hapart, hnew⟩

end Spaces

end

end HygienicLisp
