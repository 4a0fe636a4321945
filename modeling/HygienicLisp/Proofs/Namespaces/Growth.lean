import HygienicLisp.Proofs.Cells
import HygienicLisp.Proofs.Runs
import Mathlib.Data.List.Infix

/-!
# How namespaces grow

Programs and hosts change the namespaces by a few operations: they create namespaces, take
addresses for identifiers, import definitions, store values and take short names.  None of them
takes a cell away or files it anew, and a failing one changes nothing.  So the keys of a namespace
are always a beginning of its later keys (`World.grows_afterAll`), and a cell that is found once is
found from then on (`Spaces.Grows.cell?_eq_some`).
-/

namespace HygienicLisp

/-! ## One namespace -/

namespace Namespace

/-- The keys of the cells, in the order in which they were filed. -/
def keys (space : Namespace) : List Key := space.entries.toList.map (·.key)

theorem find?_eq_findIdx?_keys (space : Namespace) (key : Key) :
    space.find? key = space.keys.findIdx? (· = key) := by
  rw [find?, keys, List.findIdx?_map, ← List.findIdx?_toArray]
  rfl

theorem length_keys (space : Namespace) : space.keys.length = space.entries.size := by
  simp [keys]

@[simp] theorem keys_file (space : Namespace) (key : Key) (content : Content) :
    (space.file key content).keys = space.keys ++ [key] := by
  simp [keys, file]

/-- What a cell holds does not change its key. -/
@[simp] theorem keys_swing (space : Namespace) (index : Nat) (content : Content) :
    (space.swing index content).keys = space.keys := by
  apply List.ext_getElem?
  intro i
  simp only [keys, swing, List.getElem?_map, Array.getElem?_toList, Array.getElem?_modify]
  split
  · cases space.entries[i]? <;> rfl
  · rfl

theorem exists_entry_of_find? {space : Namespace} {key : Key} {index : Nat}
    (h : space.find? key = some index) :
    ∃ entry, space.entries[index]? = some entry ∧ entry.key = key := by
  obtain ⟨hlt, hkey, -⟩ := Array.findIdx?_eq_some_iff_getElem.1 h
  exact ⟨_, Array.getElem?_eq_getElem hlt, by simpa using hkey⟩

theorem exists_content_of_find? {space : Namespace} {key : Key} {index : Nat}
    (h : space.find? key = some index) : ∃ content, space.content? index = some content := by
  obtain ⟨entry, hentry, -⟩ := exists_entry_of_find? h
  exact ⟨entry.content, by rw [content?, hentry]; rfl⟩

/-- The definition that takes the next address. -/
def nextDefinition (space : Namespace) (self : NamespaceId) (name : String) : Definition :=
  ⟨name, space.definitionCount, self, space.home⟩

/-- The namespace after its next address has been taken. -/
def takeAddress (space : Namespace) : Namespace :=
  { space with definitionCount := space.definitionCount + 1 }

/-- A definition takes the next address.  It goes into the cell that is filed under the key, if what is
there may be redefined, and otherwise into a new one. -/
theorem predefine_eq_ok {space space' : Namespace} {self : NamespaceId} {key : Key} {index : Nat} :
    space.predefine self key = .ok (index, space') ↔
      (space.find? key = none ∧ index = space.entries.size ∧
        space' = space.takeAddress.file key (.defined (space.nextDefinition self key.name))) ∨
      ∃ old, space.find? key = some index ∧ space.content? index = some old ∧
        redefinitionConflict? space.kind old = none ∧
        space' = space.takeAddress.swing index (.defined (space.nextDefinition self key.name)) := by
  rw [predefine]
  cases hfind : space.find? key with
  | none =>
      constructor
      · rintro ⟨⟩
        exact .inl ⟨rfl, rfl, rfl⟩
      · rintro (⟨-, rfl, rfl⟩ | ⟨old, hnone, -⟩)
        · rfl
        · cases hnone
  | some i =>
      obtain ⟨content, hcontent⟩ := exists_content_of_find? hfind
      dsimp only
      rw [hcontent, Option.bind_some]
      cases hconflict : redefinitionConflict? space.kind content with
      | some conflict =>
          simp only [reduceCtorEq, false_and, false_or, false_iff, not_exists, not_and]
          rintro old hi hold hallowed
          cases hi
          cases hcontent.symm.trans hold
          cases hconflict.symm.trans hallowed
      | none =>
          simp only [reduceCtorEq, false_and, false_or, Except.ok.injEq, Prod.mk.injEq,
            Option.some.injEq]
          constructor
          · rintro ⟨rfl, rfl⟩
            exact ⟨_, rfl, hcontent, hconflict, rfl⟩
          · rintro ⟨old, rfl, -, -, rfl⟩
            exact ⟨rfl, rfl⟩

theorem importOver_eq_ok {content : Content} {i : Import} {result : Option Content} :
    importOver content i = .ok result ↔ ∃ there, content = .required there ∧
      ((there.provided.target = i.provided.target ∧ (there.shadowable → i.shadowable) ∧
        result = none) ∨
      (there.shadowable ∧ (there.provided.target = i.provided.target → ¬i.shadowable) ∧
        result = some (.required i))) := by
  cases content with
  | defined d => simp [importOver]
  | required there =>
      rw [importOver]
      by_cases htarget : there.provided.target = i.provided.target <;>
        cases hthere : there.shadowable <;> cases i.shadowable <;>
          simp [htarget, hthere, @eq_comm _ result]

/-- An import goes into a new cell if none is filed under the key.  Over an import of the same
definition that is no weaker nothing happens; over another one it goes into the cell, if what is there
may be shadowed. -/
theorem require_eq_ok {space space' : Namespace} {key : Key} {provided : Provided}
    {shadowable : Bool} :
    space.require key provided shadowable = .ok space' ↔
      (space.find? key = none ∧
        space' = space.file key (.required ⟨key.name, provided, shadowable⟩)) ∨
      ∃ index there, space.find? key = some index ∧ space.content? index = some (.required there) ∧
        ((there.provided.target = provided.target ∧ (there.shadowable → shadowable) ∧
          space' = space) ∨
        (there.shadowable ∧ (there.provided.target = provided.target → ¬shadowable) ∧
          space' = space.swing index (.required ⟨key.name, provided, shadowable⟩))) := by
  rw [require]
  cases hfind : space.find? key with
  | none => simp [@eq_comm _ space']
  | some i =>
      obtain ⟨content, hcontent⟩ := exists_content_of_find? hfind
      dsimp only
      rw [hcontent]
      dsimp only
      constructor
      · intro h
        refine .inr ⟨i, ?_⟩
        split at h
        · cases h
        · rename_i hover
          cases h
          obtain ⟨there, hthere, ⟨htarget, hkeeps, -⟩ | ⟨-, -, hnew⟩⟩ := importOver_eq_ok.1 hover
          · exact ⟨there, rfl, hcontent.trans (congrArg some hthere), .inl ⟨htarget, hkeeps, rfl⟩⟩
          · cases hnew
        · rename_i hover
          cases h
          obtain ⟨there, hthere, ⟨-, -, hnew⟩ | ⟨hallowed, hother, hnew⟩⟩ := importOver_eq_ok.1 hover
          · cases hnew
          · cases hnew
            exact ⟨there, rfl, hcontent.trans (congrArg some hthere), .inr ⟨hallowed, hother, rfl⟩⟩
      · rintro (⟨hnone, -⟩ | ⟨index, there, hindex, hthere, hcases⟩)
        · cases hnone
        · cases hindex
          have hheld : content = .required there :=
            Option.some.inj (hcontent.symm.trans hthere)
          rcases hcases with ⟨htarget, hkeeps, rfl⟩ | ⟨hallowed, hother, rfl⟩
          · rw [importOver_eq_ok.2 ⟨there, hheld, .inl ⟨htarget, hkeeps, rfl⟩⟩]
          · rw [importOver_eq_ok.2 ⟨there, hheld, .inr ⟨hallowed, hother, rfl⟩⟩]

/-- The later namespace is the earlier one with more in it. -/
structure Grows (before after : Namespace) : Prop where
  home : after.home = before.home
  kind : after.kind = before.kind
  keys : before.keys <+: after.keys
  freed : after.freed = before.freed

theorem Grows.refl (space : Namespace) : space.Grows space := ⟨rfl, rfl, List.prefix_rfl, rfl⟩

theorem Grows.trans {first second third : Namespace} (h : first.Grows second)
    (h' : second.Grows third) : first.Grows third :=
  ⟨h'.home.trans h.home, h'.kind.trans h.kind, h.keys.trans h'.keys, h'.freed.trans h.freed⟩

theorem grows_predefine {space space' : Namespace} {self : NamespaceId} {key : Key} {index : Nat}
    (h : space.predefine self key = .ok (index, space')) : space.Grows space' := by
  obtain ⟨-, -, rfl⟩ | ⟨old, -, -, -, rfl⟩ := predefine_eq_ok.1 h
  · exact ⟨rfl, rfl, ⟨[key], (keys_file _ key _).symm⟩, rfl⟩
  · exact ⟨rfl, rfl, ⟨[], (List.append_nil _).trans (keys_swing _ _ _).symm⟩, rfl⟩

theorem grows_require {space space' : Namespace} {key : Key} {provided : Provided}
    {shadowable : Bool} (h : space.require key provided shadowable = .ok space') :
    space.Grows space' := by
  obtain ⟨-, rfl⟩ | ⟨index, there, -, -, ⟨-, -, rfl⟩ | ⟨-, -, rfl⟩⟩ := require_eq_ok.1 h
  · exact ⟨rfl, rfl, ⟨[key], (keys_file _ key _).symm⟩, rfl⟩
  · exact .refl _
  · exact ⟨rfl, rfl, ⟨[], (List.append_nil _).trans (keys_swing space _ _).symm⟩, rfl⟩

theorem mem_keys_of_predefine {space space' : Namespace} {self : NamespaceId} {key filed : Key}
    {index : Nat} (h : space.predefine self filed = .ok (index, space'))
    (hkey : key ∈ space'.keys) :
    key ∈ space.keys ∨ key = filed := by
  obtain ⟨-, -, rfl⟩ | ⟨old, -, -, -, rfl⟩ := predefine_eq_ok.1 h
  · rw [keys_file] at hkey
    exact (List.mem_append.1 hkey).imp_right List.mem_singleton.1
  · rw [keys_swing] at hkey
    exact .inl hkey

theorem mem_keys_of_require {space space' : Namespace} {key filed : Key} {provided : Provided}
    {shadowable : Bool} (h : space.require filed provided shadowable = .ok space')
    (hkey : key ∈ space'.keys) :
    key ∈ space.keys ∨ key = filed := by
  obtain ⟨-, rfl⟩ | ⟨index, there, -, -, ⟨-, -, rfl⟩ | ⟨-, -, rfl⟩⟩ := require_eq_ok.1 h
  · rw [keys_file] at hkey
    exact (List.mem_append.1 hkey).imp_right List.mem_singleton.1
  · exact .inl hkey
  · rw [keys_swing] at hkey
    exact .inl hkey

end Namespace

/-! ## All namespaces -/

namespace Spaces

/-- Every namespace is still there, and has grown. -/
def Grows (before after : Spaces) : Prop :=
  ∀ (ns : NamespaceId) (space : Namespace), before[ns]? = some space →
    ∃ space', after[ns]? = some space' ∧ space.Grows space'

variable {before after : Spaces}

theorem Grows.refl (spaces : Spaces) : spaces.Grows spaces :=
  fun _ space hspace => ⟨space, hspace, .refl space⟩

theorem Grows.trans {later : Spaces} (h : before.Grows after) (h' : after.Grows later) :
    before.Grows later := by
  intro ns space hspace
  obtain ⟨space', hspace', hgrows⟩ := h ns space hspace
  obtain ⟨space'', hspace'', hgrows'⟩ := h' ns space' hspace'
  exact ⟨space'', hspace'', hgrows.trans hgrows'⟩

theorem grows_setIfInBounds {spaces : Spaces} {ns : NamespaceId} {space space' : Namespace}
    (hspace : spaces[ns]? = some space) (h : space.Grows space') :
    spaces.Grows (spaces.setIfInBounds ns space') := by
  intro other there hthere
  by_cases hsame : ns = other
  · subst hsame
    obtain rfl : space = there := Option.some.inj (hspace.symm.trans hthere)
    refine ⟨space', ?_, h⟩
    rw [Array.getElem?_setIfInBounds_self_of_lt]
    exact (Array.getElem?_eq_some_iff.1 hspace).1
  · refine ⟨there, ?_, .refl there⟩
    rw [Array.getElem?_setIfInBounds_ne hsame, hthere]

theorem grows_modify (spaces : Spaces) (ns : NamespaceId) {f : Namespace → Namespace}
    (h : ∀ space : Namespace, space.Grows (f space)) : spaces.Grows (spaces.modify ns f) := by
  intro other there hthere
  rw [Array.getElem?_modify, hthere]
  split
  · exact ⟨f there, rfl, h there⟩
  · exact ⟨there, rfl, .refl there⟩

theorem grows_push (spaces : Spaces) (space : Namespace) : spaces.Grows (spaces.push space) := by
  intro ns there hthere
  refine ⟨there, ?_, .refl there⟩
  have hlt := (Array.getElem?_eq_some_iff.1 hthere).1
  rw [Array.getElem?_push, if_neg (Nat.ne_of_lt hlt), hthere]

theorem predefine_eq_ok {spaces spaces' : Spaces} {ns : NamespaceId} {stx stx' : Syntax} :
    spaces.predefine ns stx = .ok (stx', spaces') ↔
      ∃ name space index space', stx.symbol? = some name ∧ spaces[ns]? = some space ∧
        space.predefine ns (spaces.filingKey ns stx name) = .ok (index, space') ∧
        stx' = stx.withBinding (.cell ⟨ns, index⟩) ∧ spaces' = spaces.setIfInBounds ns space' := by
  rw [predefine]
  cases stx.symbol? with
  | none => simp
  | some name =>
      cases spaces[ns]? with
      | none => simp
      | some space =>
          dsimp only
          cases hresult : space.predefine ns (spaces.filingKey ns stx name) with
          | error conflict => simp [hresult]
          | ok result =>
              obtain ⟨index, space'⟩ := result
              simp [hresult, @eq_comm _ stx', @eq_comm _ spaces']

theorem require_eq_ok {spaces spaces' : Spaces} {ns : NamespaceId} {stx : Syntax}
    {provided : Provided} {shadowable : Bool} :
    spaces.require ns stx provided shadowable = .ok spaces' ↔
      ∃ name space space', stx.symbol? = some name ∧ spaces[ns]? = some space ∧
        space.require (spaces.filingKey ns stx name) provided shadowable = .ok space' ∧
        spaces' = spaces.setIfInBounds ns space' := by
  rw [require]
  cases stx.symbol? with
  | none => simp
  | some name =>
      cases spaces[ns]? with
      | none => simp
      | some space =>
          dsimp only
          cases hresult : space.require (spaces.filingKey ns stx name) provided shadowable with
          | error conflict => simp [hresult]
          | ok space' => simp [hresult, @eq_comm _ spaces']

theorem grows_predefine {spaces spaces' : Spaces} {ns : NamespaceId} {stx stx' : Syntax}
    (h : spaces.predefine ns stx = .ok (stx', spaces')) : spaces.Grows spaces' := by
  obtain ⟨name, space, index, space', -, hspace, hspace', -, rfl⟩ := predefine_eq_ok.1 h
  exact grows_setIfInBounds hspace (Namespace.grows_predefine hspace')

theorem grows_require {spaces spaces' : Spaces} {ns : NamespaceId} {stx : Syntax}
    {provided : Provided} {shadowable : Bool}
    (h : spaces.require ns stx provided shadowable = .ok spaces') : spaces.Grows spaces' := by
  obtain ⟨name, space, space', -, hspace, hspace', rfl⟩ := require_eq_ok.1 h
  exact grows_setIfInBounds hspace (Namespace.grows_require hspace')

theorem grows_importId {spaces spaces' : Spaces} {ns : NamespaceId} {target : Definition} {id : Nat}
    (h : spaces.importId ns target = .ok (id, spaces')) : spaces.Grows spaces' := by
  obtain ⟨space, -, ⟨-, rfl⟩ | ⟨-, -, -, rfl⟩⟩ := importId_eq_ok.1 h
  · exact .refl _
  · exact grows_modify spaces ns fun space => ⟨rfl, rfl, List.prefix_rfl, rfl⟩

/-! ## Cells stay -/

theorem filed?_eq_some_iff {spaces : Spaces} {ns : NamespaceId} {key : Key} {c : CellRef} :
    spaces.filed? ns key = some c ↔
      c.owner = ns ∧ ∃ space, spaces[ns]? = some space ∧ space.find? key = some c.index := by
  obtain ⟨owner, index⟩ := c
  rw [filed?]
  cases hspace : spaces[ns]? with
  | none => simp
  | some space =>
      simp only [Option.map_eq_some_iff, CellRef.mk.injEq, Option.some.injEq]
      constructor
      · rintro ⟨i, hi, rfl, rfl⟩
        exact ⟨rfl, space, rfl, hi⟩
      · rintro ⟨rfl, _, rfl, hi⟩
        exact ⟨index, hi, rfl, rfl⟩

theorem cell?_eq_some_iff {spaces : Spaces} {ns : NamespaceId} {key : Key} {c : CellRef} :
    spaces.cell? ns key = some c ↔
      c.owner = ns ∧ ∃ space, spaces[ns]? = some space ∧ space.freed = false ∧
        space.find? key = some c.index := by
  rw [cell?, isFreed]
  cases hspace : spaces[ns]? with
  | none => simp [filed?, hspace]
  | some space => cases hfreed : space.freed <;> simp [filed?_eq_some_iff, hspace, hfreed]

/-- A cell that is filed under a key is filed there from then on. -/
theorem Grows.filed?_eq_some (h : before.Grows after) {ns : NamespaceId} {key : Key} {c : CellRef}
    (hc : before.filed? ns key = some c) : after.filed? ns key = some c := by
  obtain ⟨howner, space, hspace, hfind⟩ := filed?_eq_some_iff.1 hc
  obtain ⟨space', hspace', hgrows⟩ := h ns space hspace
  refine filed?_eq_some_iff.2 ⟨howner, space', hspace', ?_⟩
  obtain ⟨more, hmore⟩ := hgrows.keys
  rw [Namespace.find?_eq_findIdx?_keys] at hfind ⊢
  rw [← hmore, List.findIdx?_append, hfind]
  rfl

/-- A cell that is found is found from then on. -/
theorem Grows.cell?_eq_some (h : before.Grows after) {ns : NamespaceId} {key : Key} {c : CellRef}
    (hc : before.cell? ns key = some c) : after.cell? ns key = some c := by
  obtain ⟨howner, space, hspace, hfreed, hfind⟩ := cell?_eq_some_iff.1 hc
  obtain ⟨space', hspace', hgrows⟩ := h ns space hspace
  have hfiled := h.filed?_eq_some (filed?_eq_some_iff.2 ⟨howner, space, hspace, hfind⟩)
  obtain ⟨-, space'', hspace'', hfind'⟩ := filed?_eq_some_iff.1 hfiled
  cases hspace'.symm.trans hspace''
  exact cell?_eq_some_iff.2 ⟨howner, space', hspace', hgrows.freed.trans hfreed, hfind'⟩

/-- A cell that was there is found under no key but its own. -/
theorem Grows.cell?_of_content? (h : before.Grows after) {ns : NamespaceId} {key : Key}
    {c : CellRef} (hc : after.cell? ns key = some c) (hthere : (before.content? c).isSome) :
    before.cell? ns key = some c := by
  obtain ⟨howner, space', hspace', hfreed, hfind⟩ := cell?_eq_some_iff.1 hc
  rw [content?, howner] at hthere
  cases hspace : before[ns]? with
  | none => simp [hspace] at hthere
  | some space =>
      obtain ⟨_, hsame, hgrows⟩ := h ns space hspace
      cases hspace'.symm.trans hsame
      have hlt : c.index < space.keys.length := by
        rw [hspace] at hthere
        rw [Namespace.length_keys]
        by_contra hge
        simp [Namespace.content?, Array.getElem?_eq_none (Nat.not_lt.1 hge)] at hthere
      refine cell?_eq_some_iff.2 ⟨howner, space, hspace, hgrows.freed.symm.trans hfreed, ?_⟩
      obtain ⟨more, hmore⟩ := hgrows.keys
      rw [Namespace.find?_eq_findIdx?_keys] at hfind ⊢
      rw [← hmore, List.findIdx?_append] at hfind
      cases hbefore : space.keys.findIdx? (· = key) with
      | some i =>
          rw [hbefore] at hfind
          exact hfind
      | none =>
          -- Among the new keys it would have a position that was not taken before.
          rw [hbefore, Option.none_or, Option.map_eq_some_iff] at hfind
          obtain ⟨i, -, hi⟩ := hfind
          omega

end Spaces

/-! ## Operations -/

/-- The operations that change namespaces. -/
inductive Operation where
  | create (home : ModuleId) (kind : NamespaceKind)
  | predefine (ns : NamespaceId) (stx : Syntax)
  | require (ns : NamespaceId) (stx : Syntax) (provided : Provided) (shadowable : Bool)
  | defineValue (ns : NamespaceId) (name : String) (v : Value)
  | store (ns : NamespaceId) (address : Nat) (v : Value)
  | refer (ns : NamespaceId) (target : Definition)

/-- The computation that carries out an operation. -/
def Operation.run : Operation → RunM Unit
  | .create home kind => do let _ ← newNamespace home kind
  | .predefine ns stx => do let _ ← HygienicLisp.predefine ns stx
  | .require ns stx provided shadowable => HygienicLisp.require ns stx provided shadowable
  | .defineValue ns name v => HygienicLisp.defineValue ns name v
  | .store ns address v => setValue ns address v
  | .refer ns target => do let _ ← importId ns target

/-- The world that a computation leaves, however it ends. -/
def RunM.leaves {α : Type} (x : RunM α) (w : World) : World :=
  match x w with
  | .ok _ w' => w'
  | .error _ w' => w'

/-- Asking for a short name takes one more import, or changes nothing. -/
theorem leaves_refer (ns : NamespaceId) (target : Definition) (w : World) :
    ((Operation.refer ns target).run.leaves w).spaces = w.spaces ∨
      ((Operation.refer ns target).run.leaves w).spaces = w.spaces.addImport ns target := by
  rw [RunM.leaves, Operation.run, RunM.bind_apply, importId_apply]
  cases h : w.spaces.importId ns target with
  | error e => exact .inl rfl
  | ok result =>
      obtain ⟨-, -, ⟨-, hsame⟩ | ⟨-, -, -, hadded⟩⟩ := Spaces.importId_eq_ok.1 h
      · exact .inl hsame
      · exact .inr hadded

namespace RunM

variable {α β : Type}

/-- If a transitive relation leads from every world to what each part of a sequence leaves, then also
to what the sequence leaves. -/
theorem leaves_bind_of_trans {R : World → World → Prop}
    (htrans : ∀ {w w' w'' : World}, R w w' → R w' w'' → R w w'') {x : RunM α} {f : α → RunM β}
    (hx : ∀ w, R w (x.leaves w)) (hf : ∀ a w, R w ((f a).leaves w)) (w : World) :
    R w ((x >>= f).leaves w) := by
  have hx := hx w
  rw [leaves] at hx ⊢
  rw [bind_apply]
  cases hrun : x w with
  | ok a w' =>
      rw [hrun] at hx
      exact htrans hx (hf a w')
  | error halt w' =>
      rw [hrun] at hx
      exact hx

theorem leaves_mapError (f : Error → Error) (x : RunM α) (w : World) :
    (mapError f x).leaves w = x.leaves w := by
  rw [leaves, leaves, mapError]
  cases x w with
  | ok a w' => rfl
  | error halt w' => cases halt <;> rfl

theorem leaves_andThen (x : RunM α) (leave : World → World) (w : World) :
    (x.andThen leave).leaves w = leave (x.leaves w) := by
  rw [leaves, leaves, andThen]
  cases x w <;> rfl

end RunM

/-- The world after operations, each of which may fail. -/
def World.afterAll (w : World) (ops : List Operation) : World :=
  ops.foldl (fun w op => op.run.leaves w) w

/-- Whatever the world is, the computation makes its namespaces grow. -/
def RunM.Growing {α : Type} (x : RunM α) : Prop := ∀ w : World, w.spaces.Grows (x.leaves w).spaces

namespace RunM.Growing

variable {α β : Type}

theorem pure (a : α) : (pure a : RunM α).Growing := fun w => .refl w.spaces

theorem fail (e : Error) : (fail e : RunM α).Growing := fun w => .refl w.spaces

theorem getSpaces : getSpaces.Growing := fun w => .refl w.spaces

theorem modify {f : World → World} (h : ∀ w : World, w.spaces.Grows (f w).spaces) :
    (modify f : RunM PUnit).Growing := h

theorem bind {x : RunM α} {f : α → RunM β} (hx : x.Growing) (hf : ∀ a, (f a).Growing) :
    (x >>= f).Growing :=
  leaves_bind_of_trans (R := fun w w' => w.spaces.Grows w'.spaces) Spaces.Grows.trans hx hf

end RunM.Growing

theorem growing_predefine (ns : NamespaceId) (stx : Syntax) : (predefine ns stx).Growing := by
  intro w
  rw [RunM.leaves, predefine, RunM.bind_apply, RunM.getSpaces_apply]
  cases h : w.spaces.predefine ns stx with
  | error e => simp only [h]; exact .refl w.spaces
  | ok r => simp only [h]; exact Spaces.grows_predefine h

theorem growing_require (ns : NamespaceId) (stx : Syntax) (provided : Provided)
    (shadowable : Bool) : (require ns stx provided shadowable).Growing := by
  intro w
  rw [RunM.leaves, require, RunM.bind_apply, RunM.getSpaces_apply]
  cases h : w.spaces.require ns stx provided shadowable with
  | error e => simp only [h]; exact .refl w.spaces
  | ok r => simp only [h]; exact Spaces.grows_require h

theorem growing_setValue (ns : NamespaceId) (address : Nat) (v : Value) :
    (setValue ns address v).Growing :=
  .modify fun w => w.spaces.grows_modify ns fun _ => ⟨rfl, rfl, List.prefix_rfl, rfl⟩

theorem growing_bindDefinition (ns : NamespaceId) (d : Definition) (v : Value) :
    (bindDefinition ns d v).Growing := by
  have hrest : (do inferName v d.name; setValue ns d.address v : RunM Unit).Growing :=
    .bind (.modify fun w => .refl w.spaces) fun _ => growing_setValue ns d.address v
  rw [bindDefinition]
  split
  · exact .bind (.fail _) fun _ => hrest
  · exact hrest

theorem growing_defineValue (ns : NamespaceId) (name : String) (v : Value) :
    (defineValue ns name v).Growing := by
  refine .bind (growing_predefine ns _) fun stx => .bind .getSpaces fun spaces => ?_
  split
  · exact growing_bindDefinition ns _ v
  · exact .fail _

theorem growing_importId (ns : NamespaceId) (target : Definition) : (importId ns target).Growing := by
  intro w
  rw [RunM.leaves, importId_apply]
  cases h : w.spaces.importId ns target with
  | error e => exact .refl w.spaces
  | ok result => exact Spaces.grows_importId h

/-- Every operation makes the namespaces grow. -/
theorem Operation.growing (op : Operation) : op.run.Growing := by
  cases op with
  | create home kind => exact .bind (fun w => w.spaces.grows_push _) fun _ => .pure _
  | predefine ns stx => exact .bind (growing_predefine ns stx) fun _ => .pure _
  | require ns stx provided shadowable => exact growing_require ns stx provided shadowable
  | defineValue ns name v => exact growing_defineValue ns name v
  | store ns address v => exact growing_setValue ns address v
  | refer ns target => exact .bind (growing_importId ns target) fun _ => .pure _

/-- However many operations there are, the namespaces grow. -/
theorem World.grows_afterAll (w : World) (ops : List Operation) :
    w.spaces.Grows (w.afterAll ops).spaces := by
  induction ops generalizing w with
  | nil => exact .refl w.spaces
  | cons op ops ih => exact (op.growing w).trans (ih _)

end HygienicLisp
