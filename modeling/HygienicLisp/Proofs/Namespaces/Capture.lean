import HygienicLisp.Proofs.Namespaces.Stability

/-!
# Definitions capture the references that are bound-identifier-equal

A namespace files a definition under what the identifier denotes when the namespace's own wraps
are passed over, and looks a reference up under what it denotes at the place of its wrap.  The two
agree as long as the wraps in front of the namespace's wrap do not bind the name (`Spaces.Exposed`).
Then a definition captures every reference that is bound-identifier-equal to the defined
identifier (`Spaces.predefine_captures`).

That equal bindings have equal origins outside the namespace is seen by going down from a
binding to what it was bound over: the keys of ribs and namespaces say what that was
(`Spaces.StandsOn`), and below the last cell of the namespace there is exactly one binding.

The condition is needed.  A rib in front of the namespace's wrap, as the identifiers of a template
have it when they are named like a local variable of the transformer, gives the definition a key
under which no reference is looked up.
-/

namespace HygienicLisp

/-- The rib of a wrap that renames. -/
def Wrap.rib? : Wrap → Option Rib
  | .rename rib => some rib
  | _ => none

/-- The ribs of a chain of wraps. -/
def ribsOf (wraps : List Wrap) : List Rib := wraps.filterMap Wrap.rib?

theorem mem_ribsOf {wraps : List Wrap} {rib : Rib} : rib ∈ ribsOf wraps ↔ .rename rib ∈ wraps := by
  rw [ribsOf, List.mem_filterMap]
  constructor
  · rintro ⟨wrap, hwrap, hrib⟩
    cases wrap <;> cases hrib
    exact hwrap
  · exact fun h => ⟨_, h, rfl⟩

theorem Rib.getElem?_of_substitute? {rib : Rib} {key : Key} {v : LocalVar}
    (h : rib.substitute? key = some v) :
    v = ⟨key.name, rib.id, v.slot⟩ ∧ rib.keys[v.slot]? = some key := by
  obtain ⟨slot, hslot, rfl⟩ := Option.map_eq_some_iff.1 h
  obtain ⟨hlt, hkey, -⟩ := List.findIdx?_eq_some_iff_getElem.1 hslot
  refine ⟨rfl, ?_⟩
  rw [List.getElem?_eq_getElem hlt, of_decide_eq_true hkey]

theorem Namespace.predefine_spec {space space' : Namespace} {self : NamespaceId} {key : Key}
    {index : Nat} (h : space.predefine self key = .ok (index, space')) :
    space'.find? key = some index ∧ space'.content? index =
      some (.defined ⟨key.name, space.definitionCount, self, space.home⟩) := by
  obtain ⟨hnone, rfl, rfl⟩ | ⟨old, hfind, hold, -, rfl⟩ := predefine_eq_ok.1 h
  · constructor
    · rw [find?_eq_findIdx?_keys] at hnone ⊢
      rw [keys_file, List.findIdx?_append, show space.takeAddress.keys = space.keys from rfl, hnone]
      simp [length_keys]
    · simp [content?, file, takeAddress, nextDefinition]
  · constructor
    · rw [find?_eq_findIdx?_keys] at hfind ⊢
      rw [keys_swing]
      exact hfind
    · obtain ⟨entry, hentry, -⟩ := exists_entry_of_find? hfind
      have hentry : space.takeAddress.entries[index]? = some entry := hentry
      rw [content?, swing, Array.getElem?_modify, if_pos rfl, hentry]
      rfl

namespace Spaces

variable {spaces : Spaces}

theorem getElem?_keys_of_cell? {ns : NamespaceId} {key : Key} {c : CellRef}
    (h : spaces.cell? ns key = some c) :
    ∃ space, spaces[c.owner]? = some space ∧ space.keys[c.index]? = some key := by
  obtain ⟨rfl, space, hspace, -, hfind⟩ := cell?_eq_some_iff.1 h
  refine ⟨space, hspace, ?_⟩
  rw [Namespace.find?_eq_findIdx?_keys, List.findIdx?_eq_some_iff_getElem] at hfind
  obtain ⟨hlt, hkey, -⟩ := hfind
  rw [List.getElem?_eq_getElem hlt, of_decide_eq_true hkey]

theorem exists_cell?_of_substitute? {ns : NamespaceId} {name : String} {origin : Option Binding}
    {total here : MarkSet} {c : CellRef}
    (h : spaces.substitute? ns name origin total here = some c) :
    ∃ marks, spaces.cell? ns ⟨name, origin.getD (.free name), marks⟩ = some c := by
  unfold substitute? at h
  simp only [Option.orElse_eq_orElse, Option.orElse_eq_or, Option.or_eq_some_iff] at h
  rcases h with h | ⟨-, h⟩
  · exact ⟨total, h⟩
  · exact ⟨here, h⟩

/-- A wrap leaves the binding of a name as it is, or a rib or a namespace binds it anew under a
key that mentions the binding. -/
theorem resolveStep_cases (spaces : Spaces) (name : String) (skip : Option NamespaceId)
    (total : MarkSet) (wrap : Wrap) (found : Option Binding × MarkSet) :
    (spaces.resolveStep name skip total wrap found).1 = found.1 ∨
      (∃ rib v, wrap = .rename rib ∧
        rib.substitute? ⟨name, found.1.getD (.free name), found.2⟩ = some v ∧
        (spaces.resolveStep name skip total wrap found).1 = some (.lexical v)) ∨
      ∃ ns key c, (wrap = .space ns ∧ skip ≠ some ns ∨ wrap = .moduleRename ns) ∧
        key.origin = found.1.getD (.free name) ∧ spaces.cell? ns key = some c ∧
        (spaces.resolveStep name skip total wrap found).1 = some (.cell c) := by
  obtain ⟨binding, marks⟩ := found
  cases wrap with
  | mark m => exact .inl rfl
  | rename rib =>
      simp only [resolveStep]
      split
      · rename_i v hv
        exact .inr (.inl ⟨rib, v, rfl, hv, rfl⟩)
      · exact .inl rfl
  | space ns =>
      by_cases hskip : skip = some ns
      · simp [resolveStep, hskip]
      · simp only [resolveStep, if_neg hskip]
        split
        · rename_i c hc
          obtain ⟨here, hc⟩ := exists_cell?_of_substitute? hc
          exact .inr (.inr ⟨ns, _, c, .inl ⟨rfl, hskip⟩, rfl, hc, rfl⟩)
        · exact .inl rfl
  | moduleRename ns =>
      cases binding with
      | some b => exact .inl rfl
      | none =>
          simp only [resolveStep]
          cases hc : spaces.substitute? ns name none .empty .empty with
          | none => exact .inl rfl
          | some c =>
              obtain ⟨here, hc⟩ := exists_cell?_of_substitute? hc
              exact .inr (.inr ⟨ns, _, c, .inr rfl, rfl, hc, rfl⟩)

/-! ## What bindings stand on -/

/-- The binding was bound over the other one: the key of its cell or of its variable says so. -/
inductive StandsOn (spaces : Spaces) (ribs : List Rib) : Binding → Binding → Prop
  | lexical {rib : Rib} {slot : Nat} {key : Key} (name : String) :
      rib ∈ ribs → rib.keys[slot]? = some key →
      StandsOn spaces ribs (.lexical ⟨name, rib.id, slot⟩) key.origin
  | cell {c : CellRef} {space : Namespace} {key : Key} :
      spaces[c.owner]? = some space → space.keys[c.index]? = some key →
      StandsOn spaces ribs (.cell c) key.origin

/-- Nothing that the binding stands on, itself included, is a cell of the namespace. -/
inductive Foreign (spaces : Spaces) (ribs : List Rib) (ns : NamespaceId) : Binding → Prop
  | free (name : String) : Foreign spaces ribs ns (.free name)
  | bound {b b' : Binding} : (∀ c, b = .cell c → c.owner ≠ ns) → StandsOn spaces ribs b b' →
      Foreign spaces ribs ns b' → Foreign spaces ribs ns b

/-- The binding stands on a cell of the namespace, the lowest of which stands on `base`. -/
inductive Over (spaces : Spaces) (ribs : List Rib) (ns : NamespaceId) : Binding → Binding → Prop
  | cell {c : CellRef} {base : Binding} : c.owner = ns → StandsOn spaces ribs (.cell c) base →
      Foreign spaces ribs ns base → Over spaces ribs ns (.cell c) base
  | step {b b' base : Binding} : StandsOn spaces ribs b b' → Over spaces ribs ns b' base →
      Over spaces ribs ns b base

/-- Ribs with the same number are the same. -/
def Numbered (ribs : List Rib) : Prop :=
  ∀ rib ∈ ribs, ∀ rib' ∈ ribs, rib.id = rib'.id → rib = rib'

variable {ribs : List Rib} {ns : NamespaceId}

theorem StandsOn.unique (hribs : Numbered ribs) {b o o' : Binding}
    (h : StandsOn spaces ribs b o) (h' : StandsOn spaces ribs b o') : o = o' := by
  cases h with
  | @lexical rib slot key name hrib hkey =>
      generalize hb : Binding.lexical ⟨name, rib.id, slot⟩ = b at h'
      cases h' with
      | @lexical rib' slot' key' name' hrib' hkey' =>
          injection hb with hv
          injection hv with _ hid hslot
          obtain rfl := hribs rib hrib rib' hrib' hid
          subst hslot
          rw [hkey] at hkey'
          rw [Option.some.inj hkey']
      | cell _ _ => cases hb
  | cell hspace hkey =>
      cases h' with
      | cell hspace' hkey' =>
          rw [hspace] at hspace'
          obtain rfl := Option.some.inj hspace'
          rw [hkey] at hkey'
          rw [Option.some.inj hkey']

theorem Foreign.not_over (hribs : Numbered ribs) {b base : Binding} (h : Foreign spaces ribs ns b) :
    ¬Over spaces ribs ns b base := by
  induction h with
  | free name =>
      intro hover
      cases hover with
      | step hstands _ => cases hstands
  | bound howner hstands _ ih =>
      intro hover
      cases hover with
      | cell hns _ _ => exact howner _ rfl hns
      | step hstands' hover =>
          obtain rfl := hstands.unique hribs hstands'
          exact ih hover

theorem Over.unique (hribs : Numbered ribs) {b base base' : Binding}
    (h : Over spaces ribs ns b base) (h' : Over spaces ribs ns b base') : base = base' := by
  induction h with
  | cell _ hstands hforeign =>
      cases h' with
      | cell _ hstands' _ => exact hstands.unique hribs hstands'
      | step hstands' hover =>
          obtain rfl := hstands.unique hribs hstands'
          exact absurd hover (hforeign.not_over hribs)
  | step hstands hover ih =>
      cases h' with
      | cell _ hstands' hforeign =>
          obtain rfl := hstands.unique hribs hstands'
          exact absurd hover (hforeign.not_over hribs)
      | step hstands' hover' =>
          obtain rfl := hstands.unique hribs hstands'
          exact ih hover'

/-! ## Inside and outside of a namespace -/

/-- What the wraps of a chain make of a name when those of the namespace are passed over. -/
def outside (spaces : Spaces) (ns : NamespaceId) (name : String) (total : MarkSet)
    (wraps : List Wrap) : Option Binding :=
  (wraps.foldr (spaces.resolveStep name (some ns) total) (none, .empty)).1

/-- What the wraps of a chain make of a name. -/
def inside (spaces : Spaces) (name : String) (total : MarkSet) (wraps : List Wrap) :
    Option Binding :=
  (wraps.foldr (spaces.resolveStep name none total) (none, .empty)).1

/-- No wrap in front of the namespace's wraps binds the name, and the namespace's cells are
reached through these wraps only. -/
structure Exposed (spaces : Spaces) (ns : NamespaceId) (name : String) (wraps : List Wrap) :
    Prop where
  reached : .moduleRename ns ∉ wraps
  settled : ∀ older ∈ wraps.tails, .space ns ∈ older →
    spaces.outside ns name (wrapMarks wraps) older = spaces.outside ns name (wrapMarks wraps) wraps

variable {name : String} {total : MarkSet}

/-- A wrap of another kind or namespace acts alike whether the namespace is passed over or not. -/
theorem resolveStep_skip {wrap : Wrap} (h : wrap ≠ .space ns) (found : Option Binding × MarkSet) :
    spaces.resolveStep name (some ns) total wrap found =
      spaces.resolveStep name none total wrap found := by
  cases wrap with
  | mark m => rfl
  | rename rib => rfl
  | space other =>
      have hne : ¬(some ns = some other) := fun hsame => h (by rw [Option.some.inj hsame])
      simp only [resolveStep, if_neg hne, reduceCtorEq, if_false]
  | moduleRename other => rfl

theorem outside_space_cons (wraps : List Wrap) :
    spaces.outside ns name total (.space ns :: wraps) = spaces.outside ns name total wraps := by
  simp [outside, resolveStep]

theorem outside_foreign {wraps : List Wrap} (hreached : .moduleRename ns ∉ wraps)
    (hribs : ∀ rib, .rename rib ∈ wraps → rib ∈ ribs) :
    Foreign spaces ribs ns ((spaces.outside ns name total wraps).getD (.free name)) := by
  induction wraps with
  | nil => exact .free name
  | cons wrap older ih =>
      have hbelow := ih (fun h => hreached (List.mem_cons_of_mem _ h))
        fun rib hrib => hribs rib (List.mem_cons_of_mem _ hrib)
      rw [outside] at hbelow ⊢
      rw [List.foldr_cons]
      rcases spaces.resolveStep_cases name (some ns) total wrap
          (older.foldr (spaces.resolveStep name (some ns) total) (none, .empty)) with
        hsame | ⟨rib, v, rfl, hv, hnew⟩ | ⟨other, key, c, hwrap, horigin, hc, hnew⟩
      · rw [hsame]
        exact hbelow
      · rw [hnew]
        obtain ⟨hv, hkey⟩ := Rib.getElem?_of_substitute? hv
        refine .bound (by simp) ?_ hbelow
        rw [Option.getD_some, hv]
        exact .lexical name (hribs rib List.mem_cons_self) hkey
      · rw [hnew]
        obtain ⟨howner, -⟩ := cell?_eq_some_iff.1 hc
        obtain ⟨space, hspace, hkey⟩ := getElem?_keys_of_cell? hc
        refine .bound (fun c' hc' => ?_) (.cell hspace hkey) (horigin ▸ hbelow)
        cases hc'
        rw [howner]
        -- The cell is not in `ns`: either wrap that leads there is skipped or does not occur.
        rintro rfl
        rcases hwrap with ⟨-, hskip⟩ | rfl
        · exact hskip rfl
        · exact hreached List.mem_cons_self

/-- The wrap of the namespace leaves a foreign binding as it is or puts a cell over it. -/
theorem Foreign.over_of_space {found : Option Binding × MarkSet}
    (h : Foreign spaces ribs ns (found.1.getD (.free name))) :
    (spaces.resolveStep name none total (.space ns) found).1 = found.1 ∨
      Over spaces ribs ns
        ((spaces.resolveStep name none total (.space ns) found).1.getD (.free name))
        (found.1.getD (.free name)) := by
  rcases spaces.resolveStep_cases name none total (.space ns) found with
    hkeep | ⟨rib, v, hrib, -⟩ | ⟨other, key, c, hother, horigin, hc, hnew⟩
  · exact .inl hkeep
  · cases hrib
  · obtain ⟨howner, -⟩ := cell?_eq_some_iff.1 hc
    obtain ⟨space, hspace, hkey⟩ := getElem?_keys_of_cell? hc
    rw [hnew, Option.getD_some]
    refine .inr (.cell ?_ (horigin ▸ .cell hspace hkey) h)
    rcases hother with ⟨hother, -⟩ | hother <;> cases hother
    exact howner

/-- Further wraps bind over the same cell of the namespace, if they bind at all. -/
theorem Over.resolveStep {found : Option Binding × MarkSet} {base : Binding} {wrap : Wrap}
    (h : Over spaces ribs ns (found.1.getD (.free name)) base)
    (hribs : ∀ rib, wrap = .rename rib → rib ∈ ribs) :
    Over spaces ribs ns ((spaces.resolveStep name none total wrap found).1.getD (.free name))
      base := by
  rcases spaces.resolveStep_cases name none total wrap found with
    hkeep | ⟨rib, v, rfl, hv, hnew⟩ | ⟨other, key, c, -, horigin, hc, hnew⟩
  · rw [hkeep]
    exact h
  · rw [hnew]
    obtain ⟨hv, hkey⟩ := Rib.getElem?_of_substitute? hv
    refine .step ?_ h
    rw [Option.getD_some, hv]
    exact .lexical name (hribs rib rfl) hkey
  · rw [hnew]
    obtain ⟨space, hspace, hkey⟩ := getElem?_keys_of_cell? hc
    refine .step ?_ h
    rw [Option.getD_some, ← horigin]
    exact .cell hspace hkey

/-- A name means the same inside and outside of the namespace, or something that was bound over a
cell of the namespace which was bound over the meaning outside. -/
theorem inside_eq_or_over {wraps : List Wrap} (hexposed : spaces.Exposed ns name wraps)
    (hribs : ∀ rib, .rename rib ∈ wraps → rib ∈ ribs) {part : List Wrap}
    (hpart : part <:+ wraps) :
    spaces.inside name (wrapMarks wraps) part = spaces.outside ns name (wrapMarks wraps) part ∨
      (.space ns ∈ part ∧
        Over spaces ribs ns ((spaces.inside name (wrapMarks wraps) part).getD (.free name))
          ((spaces.outside ns name (wrapMarks wraps) part).getD (.free name))) := by
  induction part with
  | nil => exact .inl rfl
  | cons wrap older ih =>
      have holder : older <:+ wraps := (List.suffix_cons wrap older).trans hpart
      rcases ih holder with hsame | ⟨hcarries, hover⟩
      · have hfound : older.foldr (spaces.resolveStep name none (wrapMarks wraps)) (none, .empty) =
            older.foldr (spaces.resolveStep name (some ns) (wrapMarks wraps)) (none, .empty) :=
          Prod.ext hsame (by rw [foldr_resolveStep_marks, foldr_resolveStep_marks])
        by_cases hwrap : wrap = .space ns
        · -- Outside, the wrap of the namespace is passed over; inside, it may give a cell.
          subst hwrap
          have hforeign : Foreign spaces ribs ns
              ((spaces.outside ns name (wrapMarks wraps) older).getD (.free name)) :=
            outside_foreign (fun h => hexposed.reached (holder.subset h))
              fun rib hrib => hribs rib (holder.subset hrib)
          rw [outside_space_cons, inside, List.foldr_cons, hfound]
          exact hforeign.over_of_space.imp_right fun hover => ⟨List.mem_cons_self, hover⟩
        · rw [inside, outside, List.foldr_cons, List.foldr_cons, resolveStep_skip hwrap, hfound]
          exact .inl rfl
      · -- The meaning outside is settled, so what is bound now is bound over the cell.
        have hmem : .space ns ∈ wrap :: older := List.mem_cons_of_mem wrap hcarries
        have hout : spaces.outside ns name (wrapMarks wraps) (wrap :: older) =
            spaces.outside ns name (wrapMarks wraps) older := by
          rw [hexposed.settled _ ((List.mem_tails _ _).2 hpart) hmem,
            hexposed.settled _ ((List.mem_tails _ _).2 holder) hcarries]
        refine .inr ⟨hmem, ?_⟩
        rw [hout]
        exact hover.resolveStep fun rib hrib =>
          hribs rib (hpart.subset (hrib ▸ List.mem_cons_self))

/-- What a name means inside tells what it means outside. -/
theorem outside_eq_of_inside_eq {wraps wraps' : List Wrap}
    (hribs : Numbered (ribsOf (wraps ++ wraps'))) (hexposed : spaces.Exposed ns name wraps)
    (hexposed' : spaces.Exposed ns name wraps')
    (hsame : (spaces.inside name (wrapMarks wraps) wraps).getD (.free name) =
      (spaces.inside name (wrapMarks wraps') wraps').getD (.free name)) :
    (spaces.outside ns name (wrapMarks wraps) wraps).getD (.free name) =
      (spaces.outside ns name (wrapMarks wraps') wraps').getD (.free name) := by
  have hleft : ∀ rib, Wrap.rename rib ∈ wraps → rib ∈ ribsOf (wraps ++ wraps') :=
    fun rib hrib => mem_ribsOf.2 (List.mem_append_left _ hrib)
  have hright : ∀ rib, Wrap.rename rib ∈ wraps' → rib ∈ ribsOf (wraps ++ wraps') :=
    fun rib hrib => mem_ribsOf.2 (List.mem_append_right _ hrib)
  have hforeign : Foreign spaces (ribsOf (wraps ++ wraps')) ns
      ((spaces.outside ns name (wrapMarks wraps) wraps).getD (.free name)) :=
    outside_foreign hexposed.reached hleft
  have hforeign' : Foreign spaces (ribsOf (wraps ++ wraps')) ns
      ((spaces.outside ns name (wrapMarks wraps') wraps').getD (.free name)) :=
    outside_foreign hexposed'.reached hright
  rcases inside_eq_or_over hexposed hleft List.suffix_rfl with h | ⟨-, h⟩
  · rcases inside_eq_or_over hexposed' hright List.suffix_rfl with h' | ⟨-, h'⟩
    · rw [← h, ← h', hsame]
    · rw [← hsame, h] at h'
      exact absurd h' (hforeign.not_over hribs)
  · rcases inside_eq_or_over hexposed' hright List.suffix_rfl with h' | ⟨-, h'⟩
    · rw [hsame, h'] at h
      exact absurd h (hforeign'.not_over hribs)
    · rw [hsame] at h
      exact h.unique hribs h'

/-! ## Definitions -/

/-- A definition changes no other namespace.  Its cell is filed under the key of the identifier
and holds the address that was next. -/
theorem predefine_spec {spaces' : Spaces} {stx stx' : Syntax}
    (h : spaces.predefine ns stx = .ok (stx', spaces')) :
    ∃ name space index, stx.symbol? = some name ∧ spaces[ns]? = some space ∧
      stx' = stx.withBinding (.cell ⟨ns, index⟩) ∧
      spaces'.filed? ns (spaces.filingKey ns stx name) = some ⟨ns, index⟩ ∧
      spaces'.isFreed ns = spaces.isFreed ns ∧
      spaces'.content? ⟨ns, index⟩ =
        some (.defined ⟨name, space.definitionCount, ns, space.home⟩) ∧
      ∀ other, other ≠ ns → spaces'[other]? = spaces[other]? := by
  obtain ⟨name, space, index, space', hname, hspace, hdefined, rfl, rfl⟩ := predefine_eq_ok.1 h
  obtain ⟨hfind, hcontent⟩ := Namespace.predefine_spec hdefined
  have hself : (spaces.setIfInBounds ns space')[ns]? = some space' :=
    Array.getElem?_setIfInBounds_self_of_lt (Array.getElem?_eq_some_iff.1 hspace).1
  refine ⟨name, space, index, hname, hspace, rfl, ?_, ?_, ?_, ?_⟩
  · exact filed?_eq_some_iff.2 ⟨rfl, space', hself, hfind⟩
  · rw [isFreed, isFreed, hself, hspace]
    exact (Namespace.grows_predefine hdefined).freed
  · rw [content?, hself]
    exact hcontent
  · intro other hne
    exact Array.getElem?_setIfInBounds_ne (Ne.symm hne)

/-- A namespace files an identifier under its meaning outside and all its marks. -/
theorem filingKey_eq (stx : Syntax) :
    spaces.filingKey ns stx name = ⟨name,
      (spaces.outside ns name (wrapMarks stx.wraps) stx.wraps).getD (.free name),
      wrapMarks stx.wraps⟩ := by
  simp only [filingKey, resolveWraps_marks]
  rfl

/-- The meaning outside of a namespace does not depend on what the namespace holds. -/
theorem outside_congr {spaces' : Spaces} {wraps : List Wrap}
    (hothers : ∀ other, other ≠ ns → spaces'[other]? = spaces[other]?)
    (hreached : .moduleRename ns ∉ wraps) :
    wraps.foldr (spaces'.resolveStep name (some ns) total) (none, .empty) =
      wraps.foldr (spaces.resolveStep name (some ns) total) (none, .empty) := by
  have hcell : ∀ other, other ≠ ns → ∀ key, spaces'.cell? other key = spaces.cell? other key :=
    fun other hne => cell?_of_getElem?_eq (hothers other hne)
  induction wraps with
  | nil => rfl
  | cons wrap older ih =>
      rw [List.foldr_cons, List.foldr_cons, ih fun h => hreached (List.mem_cons_of_mem wrap h)]
      cases wrap with
      | mark m => rfl
      | rename rib => rfl
      | space other =>
          by_cases hsame : other = ns
          · simp [resolveStep, hsame]
          · simp only [resolveStep, substitute?, hcell other hsame]
      | moduleRename other =>
          have hne : other ≠ ns := by
            rintro rfl
            exact hreached List.mem_cons_self
          simp only [resolveStep, substitute?, hcell other hne]

/-- The newest wrap of a chain leaves the binding of a name as it is. -/
def Leaves (spaces : Spaces) (name : String) (total : MarkSet) (b : Option Binding) :
    List Wrap → Prop
  | [] => True
  | wrap :: older => (spaces.resolveStep name none total wrap (b, wrapMarks older)).1 = b

instance (spaces : Spaces) (name : String) (total : MarkSet) (b : Option Binding)
    (wraps : List Wrap) : Decidable (spaces.Leaves name total b wraps) :=
  match wraps with
  | [] => inferInstanceAs (Decidable True)
  | wrap :: older =>
    inferInstanceAs
      (Decidable ((spaces.resolveStep name none total wrap (b, wrapMarks older)).1 = b))

theorem foldr_resolveStep_skip {wraps : List Wrap} (h : .space ns ∉ wraps) :
    wraps.foldr (spaces.resolveStep name none total) (none, .empty) =
      wraps.foldr (spaces.resolveStep name (some ns) total) (none, .empty) := by
  induction wraps with
  | nil => rfl
  | cons wrap older ih =>
      rw [List.foldr_cons, List.foldr_cons, ih fun hmem => h (List.mem_cons_of_mem wrap hmem),
        resolveStep_skip]
      rintro rfl
      exact h List.mem_cons_self

/-- Where the namespace has a cell under all marks of the name over its meaning outside, that
cell is its meaning inside. -/
theorem inside_eq_cell {wraps : List Wrap} {c : CellRef}
    (hexposed : spaces.Exposed ns name wraps)
    (hcell : spaces.cell? ns ⟨name,
      (spaces.outside ns name (wrapMarks wraps) wraps).getD (.free name), wrapMarks wraps⟩ = some c)
    (hover : ∀ part ∈ wraps.tails, .space ns ∈ part.tail →
      spaces.Leaves name (wrapMarks wraps) (some (.cell c)) part)
    {part : List Wrap} (hpart : part <:+ wraps) (hcarries : .space ns ∈ part) :
    spaces.inside name (wrapMarks wraps) part = some (.cell c) := by
  induction part with
  | nil => cases hcarries
  | cons wrap older ih =>
      have holder : older <:+ wraps := (List.suffix_cons wrap older).trans hpart
      rw [inside, List.foldr_cons]
      by_cases hbelow : .space ns ∈ older
      · have hfound : older.foldr (spaces.resolveStep name none (wrapMarks wraps)) (none, .empty) =
            (some (.cell c), wrapMarks older) :=
          Prod.ext (ih holder hbelow) (foldr_resolveStep_marks _ _ _ _ _)
        rw [hfound]
        exact hover (wrap :: older) ((List.mem_tails _ _).2 hpart) hbelow
      · -- This is the oldest wrap of the namespace, so below it inside and outside are the same.
        obtain rfl : .space ns = wrap := (List.mem_cons.1 hcarries).resolve_right hbelow
        rw [← hexposed.settled _ ((List.mem_tails _ _).2 hpart) hcarries, outside_space_cons,
          outside] at hcell
        rw [foldr_resolveStep_skip hbelow]
        simp only [resolveStep, substitute?, hcell, reduceCtorEq, if_false]
        rfl

/-- Being exposed does not depend on what the namespace holds. -/
theorem Exposed.congr {spaces' : Spaces} {wraps : List Wrap} (h : spaces.Exposed ns name wraps)
    (hothers : ∀ other, other ≠ ns → spaces'[other]? = spaces[other]?) :
    spaces'.Exposed ns name wraps := by
  refine ⟨h.reached, fun older holder hcarries => ?_⟩
  have hsub := ((List.mem_tails _ _).1 holder).subset
  rw [outside, outside, outside_congr hothers h.reached,
    outside_congr hothers fun hmem => h.reached (hsub hmem)]
  exact h.settled older holder hcarries

/-- A definition captures the references that are bound-identifier-equal to the defined
identifier: they denote the definition at the address that was next.  Both identifiers must be
exposed to the namespace, and nothing may have been bound over the cell of the definition. -/
theorem predefine_captures {spaces' : Spaces} {a a' b : Syntax} (hlive : spaces.isFreed ns = false)
    (hdef : spaces.predefine ns a = .ok (a', spaces')) (hname : b.symbol? = some name)
    (heq : spaces.boundIdentifierEq a b = true) (hplain : b.context.binding = none)
    (hcarries : .space ns ∈ b.wraps) (hribs : Numbered (ribsOf (a.wraps ++ b.wraps)))
    (ha : spaces.Exposed ns name a.wraps) (hb : spaces.Exposed ns name b.wraps)
    (hover : ∀ part ∈ b.wraps.tails, .space ns ∈ part.tail →
      spaces'.Leaves name (wrapMarks b.wraps) (spaces'.resolve a') part) :
    spaces'.resolve b = spaces'.resolve a' ∧ ∃ space, spaces[ns]? = some space ∧
      spaces'.denoted b name = .defined ⟨name, space.definitionCount, ns, space.home⟩ := by
  obtain ⟨aname, space, index, haname, hspace, rfl, hcell, hfreed, hcontent, hothers⟩ :=
    predefine_spec hdef
  -- The two identifiers have the same name and marks, and the same binding inside.
  have hkeys : spaces.bindingKey a aname = spaces.bindingKey b name := by
    rw [boundIdentifierEq, haname, hname] at heq
    exact of_decide_eq_true heq
  rw [bindingKey, bindingKey, resolveWithMarks, resolveWithMarks, haname, hname] at hkeys
  simp only [Key.mk.injEq, resolveWraps_marks] at hkeys
  obtain ⟨rfl, hinside, hmarks⟩ := hkeys
  -- So they have the same binding outside, and the reference is looked up where the cell is.
  have houtside := outside_eq_of_inside_eq hribs ha hb hinside
  have hfiled : spaces'.cell? ns ⟨aname,
      (spaces'.outside ns aname (wrapMarks b.wraps) b.wraps).getD (.free aname),
      wrapMarks b.wraps⟩ = some ⟨ns, index⟩ := by
    rw [filingKey_eq, houtside, hmarks] at hcell
    rw [outside, outside_congr hothers hb.reached, cell?, hfreed, hlive]
    exact hcell
  have hrecorded : spaces'.resolve (a.withBinding (.cell ⟨ns, index⟩)) =
      some (.cell ⟨ns, index⟩) := by
    cases a <;> rfl
  rw [hrecorded] at hover ⊢
  have hresolve : spaces'.resolve b = some (.cell ⟨ns, index⟩) := by
    rw [resolve_of_binding_eq_none hplain, resolveWithMarks, hname]
    exact inside_eq_cell (hb.congr hothers) hfiled hover List.suffix_rfl hcarries
  refine ⟨hresolve, space, hspace, ?_⟩
  rw [denoted, hresolve, Option.getD_some, denote, hcontent]

end Spaces

/-! ## A definition that a transformer makes -/

/-- The rib of a transformer `(lambda (stx) ...)` of the session. -/
def transformerRib : Rib := ⟨1, [⟨"stx", .free "stx", .empty⟩]⟩

/-- The name `helper` in what a use of the transformer gives. -/
def helperName : Syntax :=
  (((Syntax.ident "helper").introduce 0).addWrap (.rename transformerRib)).addWrap (.mark 1)

/-- The same name inside a `(lambda (y) ...)` that the transformer gives as well. -/
def helperReference : Syntax := helperName.addWrap (.rename ⟨2, [⟨"y", .free "y", .empty⟩]⟩)

/-- The session with `helper` defined. -/
def helperDefined : Syntax × Spaces :=
  ((newSession.spaces.predefine 0 helperName).toOption).getD default

theorem predefine_helperName : newSession.spaces.predefine 0 helperName = .ok helperDefined := by
  have hok : (newSession.spaces.predefine 0 helperName).toOption.isSome = true := by
    decide +kernel
  rw [helperDefined]
  cases h : newSession.spaces.predefine 0 helperName with
  | error e =>
      rw [h] at hok
      cases hok
  | ok r => rfl

/-- The definition of `helper` captures the reference. -/
theorem helperReference_captured :
    newSession.spaces.predefine 0 helperName = .ok helperDefined ∧
      helperDefined.2.resolve helperReference = helperDefined.2.resolve helperDefined.1 ∧
      ∃ space, newSession.spaces[0]? = some space ∧
        helperDefined.2.denoted helperReference "helper" =
          .defined ⟨"helper", space.definitionCount, 0, space.home⟩ :=
  ⟨predefine_helperName,
    Spaces.predefine_captures rfl predefine_helperName rfl (by decide +kernel) rfl
      (by decide +kernel) (by rw [Spaces.Numbered]; decide +kernel)
      ⟨by decide +kernel, by decide +kernel⟩
      ⟨by decide +kernel, by decide +kernel⟩ (by decide +kernel)⟩

end HygienicLisp
