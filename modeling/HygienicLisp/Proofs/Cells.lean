import HygienicLisp.Head

/-!
# What resolution depends on

Resolution reads the kind and the cells of the namespaces, and which of them have been freed, and
nothing else (`Spaces.resolve_congr`).
The value at the head of a form depends on the values at the addresses as well
(`headValue?_congr`).  So compilation, which changes no more than the short names of imported
namespaces, finds in every step what it found in the first.
-/

namespace HygienicLisp

/-- The kind and the cells of each namespace that is there, and whether it has been freed. -/
abbrev CellTable := NamespaceId → Option (NamespaceKind × Bool × Array Entry)

/-- What resolution depends on. -/
def Spaces.cells (spaces : Spaces) : CellTable := fun ns =>
  (spaces[ns]?).map fun space => (space.kind, space.freed, space.entries)

/-- The namespace with one more import. -/
def Namespace.addImport (space : Namespace) (target : Definition) : Namespace :=
  { space with imports := space.imports.push (target.home, target.owner) }

namespace Spaces

variable {spaces spaces' : Spaces}

theorem owner_of_cell? {ns : NamespaceId} {key : Key} {c : CellRef}
    (h : spaces.cell? ns key = some c) : c.owner = ns := by
  rw [cell?, filed?] at h
  split at h
  · cases h
  · split at h
    · obtain ⟨index, -, rfl⟩ := Option.map_eq_some_iff.1 h
      rfl
    · cases h

theorem owner_of_substitute? {ns : NamespaceId} {name : String} {origin : Option Binding}
    {total here : MarkSet} {c : CellRef}
    (h : spaces.substitute? ns name origin total here = some c) : c.owner = ns := by
  rw [substitute?, Option.orElse_eq_orElse, Option.orElse_eq_or] at h
  rcases Option.or_eq_some_iff.1 h with h | ⟨-, h⟩
  · exact owner_of_cell? h
  · exact owner_of_cell? h

theorem isFreed_congr (h : spaces.cells = spaces'.cells) (ns : NamespaceId) :
    spaces.isFreed ns = spaces'.isFreed ns := by
  have hns := congrFun h ns
  rw [cells, cells] at hns
  rw [isFreed, isFreed]
  cases hspace : spaces[ns]? <;> cases hspace' : spaces'[ns]? <;> simp_all

theorem filed?_congr (h : spaces.cells = spaces'.cells) (ns : NamespaceId) (key : Key) :
    spaces.filed? ns key = spaces'.filed? ns key := by
  have hns := congrFun h ns
  rw [cells, cells] at hns
  rw [filed?, filed?]
  cases hspace : spaces[ns]? <;> cases hspace' : spaces'[ns]? <;>
    simp_all [Namespace.find?]

theorem cell?_congr (h : spaces.cells = spaces'.cells) (ns : NamespaceId) (key : Key) :
    spaces.cell? ns key = spaces'.cell? ns key := by
  rw [cell?, cell?, isFreed_congr h, filed?_congr h]

/-- What is found in a namespace depends on that namespace only. -/
theorem cell?_of_getElem?_eq {ns : NamespaceId} (h : spaces[ns]? = spaces'[ns]?) (key : Key) :
    spaces.cell? ns key = spaces'.cell? ns key := by
  rw [cell?, cell?, isFreed, isFreed, filed?, filed?, h]

theorem resolveStep_congr (h : spaces.cells = spaces'.cells) (name : String)
    (skip : Option NamespaceId) (total : MarkSet) (wrap : Wrap) :
    spaces.resolveStep name skip total wrap = spaces'.resolveStep name skip total wrap := by
  funext found
  cases wrap with
  | mark m => rfl
  | rename rib => rfl
  | space ns => simp only [resolveStep, substitute?, cell?_congr h]
  | moduleRename ns => simp only [resolveStep, substitute?, cell?_congr h]

theorem resolveWraps_congr_cells (h : spaces.cells = spaces'.cells) (name : String)
    (skip : Option NamespaceId) (wraps : List Wrap) :
    spaces.resolveWraps name skip wraps = spaces'.resolveWraps name skip wraps := by
  rw [resolveWraps, resolveWraps]
  congr 1
  funext wrap
  exact resolveStep_congr h name skip _ wrap

theorem resolveWithMarks_congr (h : spaces.cells = spaces'.cells) (stx : Syntax) :
    spaces.resolveWithMarks stx = spaces'.resolveWithMarks stx := by
  rw [resolveWithMarks, resolveWithMarks]
  cases stx.symbol? with
  | none => rfl
  | some name => exact resolveWraps_congr_cells h name none stx.wraps

/-- Resolution depends on the cells of the namespaces only. -/
theorem resolve_congr (h : spaces.cells = spaces'.cells) (stx : Syntax) :
    spaces.resolve stx = spaces'.resolve stx := by
  rw [resolve, resolve, resolveWithMarks_congr h]

theorem content?_congr (h : spaces.cells = spaces'.cells) (c : CellRef) :
    spaces.content? c = spaces'.content? c := by
  have hns := congrFun h c.owner
  rw [cells, cells] at hns
  rw [content?, content?]
  cases hspace : spaces[c.owner]? <;> cases hspace' : spaces'[c.owner]? <;>
    simp_all [Namespace.content?]

theorem denote_congr (h : spaces.cells = spaces'.cells) (b : Binding) :
    spaces.denote b = spaces'.denote b := by
  cases b with
  | free name => rfl
  | lexical v => rfl
  | cell c => rw [denote, denote, content?_congr h]

/-- The value of a definition is found as long as its owner has not been freed. -/
theorem lookup?_eq_some {b : Binding} {v : Value} :
    spaces.lookup? b = some v ↔ ∃ d, (spaces.denote b).target? = some d ∧
      spaces.isFreed d.owner = false ∧ spaces.value? d.owner d.address = some v := by
  rw [lookup?]
  cases (spaces.denote b).target? with
  | none => simp
  | some d =>
      dsimp only
      cases hfreed : spaces.isFreed d.owner <;> simp [hfreed]

/-! ## Imports -/

/-- The namespaces with one more import of one of them. -/
def addImport (spaces : Spaces) (ns : NamespaceId) (target : Definition) : Spaces :=
  spaces.modify ns (·.addImport target)

theorem cells_addImport (spaces : Spaces) (ns : NamespaceId) (target : Definition) :
    (spaces.addImport ns target).cells = spaces.cells := by
  funext other
  rw [cells, cells, addImport, Array.getElem?_modify]
  split
  · cases spaces[other]? <;> rfl
  · rfl

theorem value?_addImport (spaces : Spaces) (ns : NamespaceId) (target : Definition)
    (other : NamespaceId) (address : Nat) :
    (spaces.addImport ns target).value? other address = spaces.value? other address := by
  rw [value?, value?, addImport, Array.getElem?_modify]
  by_cases hsame : ns = other
  · rw [if_pos hsame]
    cases spaces[other]? <;> rfl
  · rw [if_neg hsame]

/-- A short name is one that the namespace has for the module of the definition, or it is the next
one, if the owner of the definition has not been freed. -/
theorem importId_eq_ok {ns : NamespaceId} {target : Definition} {id : Nat} :
    spaces.importId ns target = .ok (id, spaces') ↔ ∃ space, spaces[ns]? = some space ∧
      (space.importId? target.home = some id ∧ spaces' = spaces ∨
        space.importId? target.home = none ∧ spaces.isFreed target.owner = false ∧
          id = space.imports.size ∧ spaces' = spaces.addImport ns target) := by
  rw [importId]
  cases spaces[ns]? with
  | none => simp
  | some space =>
      dsimp only
      cases hid : space.importId? target.home with
      | some known => simp [hid, @eq_comm _ spaces']
      | none =>
          cases hfreed : spaces.isFreed target.owner with
          | false =>
              simp only [Bool.false_eq_true, if_false, Except.ok.injEq, Prod.mk.injEq,
                Option.some.injEq, exists_eq_left', hid, reduceCtorEq, false_and, true_and, false_or]
              rw [@eq_comm _ id, @eq_comm _ spaces']
              rfl
          | true => simp [hid]

/-- There is no short name if the first reference to a module comes when the owner of the definition
has been freed. -/
theorem importId_eq_error {ns : NamespaceId} {target : Definition} {e : Error} :
    spaces.importId ns target = .error e ↔
      spaces[ns]? = none ∧ e = .of (.internal (.noNamespace ns)) ∨
      ∃ space, spaces[ns]? = some space ∧ space.importId? target.home = none ∧
        spaces.isFreed target.owner = true ∧ e = .of (.contract (.moduleFreed target.home)) := by
  rw [importId]
  cases spaces[ns]? with
  | none => simp [@eq_comm _ e]
  | some space =>
      dsimp only
      cases hid : space.importId? target.home with
      | some known => simp [hid]
      | none => cases hfreed : spaces.isFreed target.owner <;> simp [hid, @eq_comm _ e]

/-- A short name for an import that is there, or that is taken, changes neither cells nor values. -/
theorem importId_reads {ns : NamespaceId} {target : Definition} {id : Nat}
    (h : spaces.importId ns target = .ok (id, spaces')) :
    spaces'.cells = spaces.cells ∧
      ∀ other address, spaces'.value? other address = spaces.value? other address := by
  obtain ⟨space, -, ⟨-, rfl⟩ | ⟨-, -, -, rfl⟩⟩ := importId_eq_ok.1 h
  · exact ⟨rfl, fun _ _ => rfl⟩
  · exact ⟨spaces.cells_addImport ns target, spaces.value?_addImport ns target⟩

end Spaces

/-- The value at a head depends on cells and values only. -/
theorem headValue?_congr {spaces spaces' : Spaces} (h : spaces.cells = spaces'.cells)
    (hvalues : ∀ ns address, spaces.value? ns address = spaces'.value? ns address) (head : Syntax) :
    headValue? spaces head = headValue? spaces' head := by
  rw [headValue?, headValue?, Spaces.resolve_congr h]
  simp only [Spaces.lookup?, Spaces.denote_congr h, Spaces.isFreed_congr h, hvalues]

/-- What is found at a head is a value that some namespace has. -/
theorem exists_value?_of_headValue? {spaces : Spaces} {head : Syntax} {v : Value}
    (h : headValue? spaces head = some v) : ∃ ns address, spaces.value? ns address = some v := by
  rw [headValue?] at h
  split at h
  · split at h
    · obtain ⟨d, -, -, hvalue⟩ := Spaces.lookup?_eq_some.1 h
      exact ⟨d.owner, d.address, hvalue⟩
    · cases h
  · cases h

/-- The core forms depend on cells and values only. -/
theorem coreForm?_congr {spaces spaces' : Spaces} (h : spaces.cells = spaces'.cells)
    (hvalues : ∀ ns address, spaces.value? ns address = spaces'.value? ns address) (head : Syntax) :
    coreForm? spaces head = coreForm? spaces' head := by
  rw [coreForm?, coreForm?, headValue?_congr h hvalues]

end HygienicLisp
