import HygienicLisp.Proofs.Namespaces.Policy

/-!
# What lasts

A namespace gives no address back, and a cell of a module that holds a definition holds it from then
on.  So an identifier that records such a cell stands for one address, however much is defined and
imported later.

Main statement: `predefine_records`.  Defining an identifier takes the next address, and the
identifier that comes out records it.
-/

namespace HygienicLisp

variable {target : Definition → Prop} {stored : Slot → Value → Prop} {ns : NamespaceId}

theorem Namespace.Change.definitionCount_le {self : NamespaceId} {space space' : Namespace}
    (h : space.Change target stored self space') :
    space.definitionCount ≤ space'.definitionCount := by
  cases h with
  | newDefinition | redefinition => exact Nat.le_succ _
  | newImport | reimport | store | refer => exact Nat.le_refl _

namespace Spaces

/-- How many addresses the namespace has taken. -/
def taken (spaces : Spaces) (ns : NamespaceId) : Nat :=
  ((spaces[ns]?).map (·.definitionCount)).getD 0

/-- The namespace is there and is one of a module. -/
def IsModule (spaces : Spaces) (ns : NamespaceId) : Prop :=
  ∃ space, spaces[ns]? = some space ∧ space.kind = .module

/-- No address is given back, cells stay where they are filed and found, and in modules a cell that
holds a definition holds it afterwards. -/
structure Lasts (before after : Spaces) : Prop where
  taken : ∀ ns, before.taken ns ≤ after.taken ns
  filed : ∀ ns key c, before.filed? ns key = some c → after.filed? ns key = some c
  cell : ∀ ns key c, before.cell? ns key = some c → after.cell? ns key = some c
  module : ∀ ns, before.IsModule ns → after.IsModule ns
  content : ∀ c d, before.IsModule c.owner → before.content? c = some (.defined d) →
    after.content? c = some (.defined d)

theorem Lasts.refl (spaces : Spaces) : spaces.Lasts spaces :=
  ⟨fun _ => le_rfl, fun _ _ _ h => h, fun _ _ _ h => h, fun _ h => h, fun _ _ _ h => h⟩

theorem Lasts.trans {first second third : Spaces} (h : first.Lasts second)
    (h' : second.Lasts third) : first.Lasts third where
  taken ns := (h.taken ns).trans (h'.taken ns)
  filed ns key c hc := h'.filed ns key c (h.filed ns key c hc)
  cell ns key c hc := h'.cell ns key c (h.cell ns key c hc)
  module ns hns := h'.module ns (h.module ns hns)
  content c d hns hd := h'.content c d (h.module c.owner hns) (h.content c d hns hd)

theorem Change.growth {spaces spaces' : Spaces} (h : spaces.Change target stored spaces') :
    spaces.Grows spaces' := by
  intro ns space hspace
  obtain ⟨space', hspace', rfl | hchange⟩ := h.at hspace
  · exact ⟨_, hspace', .refl _⟩
  · exact ⟨_, hspace', hchange.grows⟩

theorem Change.lasts {spaces spaces' : Spaces} (h : spaces.Change target stored spaces') :
    spaces.Lasts spaces' where
  taken ns := by
    cases hspace : spaces[ns]? with
    | none => simp [Spaces.taken, hspace]
    | some space =>
        obtain ⟨space', hspace', rfl | hchange⟩ := h.at hspace
        · simp [Spaces.taken, hspace, hspace']
        · simpa [Spaces.taken, hspace, hspace'] using hchange.definitionCount_le
  filed _ _ _ hc := h.growth.filed?_eq_some hc
  cell _ _ _ hc := h.growth.cell?_eq_some hc
  module := by
    rintro ns ⟨space, hspace, hkind⟩
    obtain ⟨space', hspace', rfl | hchange⟩ := h.at hspace
    · exact ⟨space', hspace', hkind⟩
    · exact ⟨space', hspace', hchange.grows.kind.trans hkind⟩
  content := by
    rintro ⟨ns, index⟩ d ⟨space, hspace, hkind⟩ hd
    rw [content?, hspace] at hd
    obtain ⟨space', hspace', rfl | hchange⟩ := h.at hspace
    · rw [content?, hspace']
      exact hd
    · obtain ⟨content, hcontent, hendures⟩ := hchange.endures hd
      obtain ⟨d', rfl, hsame⟩ := hendures.definition d rfl
      rw [content?, hspace']
      exact hsame hkind ▸ hcontent

/-! ## Recorded addresses -/

/-- The identifier records a cell of the namespace, which holds the definition at the address. -/
def Records (spaces : Spaces) (ns : NamespaceId) (stx : Syntax) (address : Nat) : Prop :=
  ∃ index d, stx.context.binding = some (.cell ⟨ns, index⟩) ∧
    spaces.content? ⟨ns, index⟩ = some (.defined d) ∧ d.owner = ns ∧ d.address = address

theorem Records.mono {before after : Spaces} (h : before.Lasts after) (hns : before.IsModule ns)
    {stx : Syntax} {address : Nat} (hstx : before.Records ns stx address) :
    after.Records ns stx address := by
  obtain ⟨index, d, hbinding, hd, howner, haddress⟩ := hstx
  exact ⟨index, d, hbinding, h.content _ d hns hd, howner, haddress⟩

/-- A recorded identifier denotes the definition at its address. -/
theorem Records.denotes {spaces : Spaces} {stx : Syntax} {address : Nat}
    (h : spaces.Records ns stx address) (name : String) :
    ∃ d, spaces.denoted stx name = .defined d ∧ d.owner = ns ∧ d.address = address := by
  obtain ⟨index, d, hbinding, hd, howner, haddress⟩ := h
  refine ⟨d, ?_, howner, haddress⟩
  have hresolve : spaces.resolve stx = some (.cell ⟨ns, index⟩) := by
    rw [resolve, hbinding]
    rfl
  rw [denoted, hresolve, Option.getD_some, denote, hd]

theorem taken_predefine {spaces spaces' : Spaces} {stx stx' : Syntax}
    (h : spaces.predefine ns stx = .ok (stx', spaces')) :
    spaces'.taken ns = spaces.taken ns + 1 := by
  obtain ⟨name, space, index, space', -, hspace, hdefined, -, rfl⟩ := predefine_eq_ok.1 h
  rw [taken, taken, hspace, getElem?_setIfInBounds_of_some hspace, if_pos rfl]
  exact (Namespace.predefine_counts hdefined).1

end Spaces

/-- Defining an identifier takes the next address for it, and the identifier that comes out records
it. -/
theorem predefine_records {stx stx' : Syntax} {w w' : World}
    (h : predefine ns stx w = .ok stx' w') :
    w'.spaces.Records ns stx' (w.spaces.taken ns) ∧
      w'.spaces.taken ns = w.spaces.taken ns + 1 := by
  obtain ⟨spaces, hresult, rfl⟩ := predefine_eq_ok.1 h
  obtain ⟨name, space, index, -, hspace, rfl, -, -, hcontent, -⟩ := Spaces.predefine_spec hresult
  refine ⟨⟨index, _, ?_, hcontent, rfl, ?_⟩, Spaces.taken_predefine hresult⟩
  · cases stx <;> rfl
  · simp [Spaces.taken, hspace]

/-- From then on a module holds the definition for every identifier that is filed in the same way. -/
theorem held?_of_predefine {stx stx' other : Syntax} {name : String} {w w' : World}
    (hname : stx.symbol? = some name) (h : predefine ns stx w = .ok stx' w')
    (hns : w'.spaces.IsModule ns) {after : Spaces} (hlasts : w'.spaces.Lasts after)
    (hkey : after.filingKey ns other name = w.spaces.filingKey ns stx name) :
    ∃ d, after.held? ns other name = some (.defined d) := by
  obtain ⟨spaces, hresult, rfl⟩ := predefine_eq_ok.1 h
  obtain ⟨_, space, index, hsymbol, -, -, hcell, -, hcontent, -⟩ := Spaces.predefine_spec hresult
  cases hname.symm.trans hsymbol
  refine ⟨⟨name, space.definitionCount, ns, space.home⟩, ?_⟩
  rw [Spaces.held?, hkey, hlasts.filed _ _ _ hcell]
  exact hlasts.content _ _ hns hcontent

/-- An identifier that a module has defined is not defined again. -/
theorem predefine_defined {w : World} {stx : Syntax} {name : String} {d : Definition}
    (hns : w.spaces.IsModule ns) (hname : stx.symbol? = some name)
    (hd : w.spaces.held? ns stx name = some (.defined d)) :
    predefine ns stx w =
      .error (.error (.atForm (.ambiguous name .duplicateDefinition) stx)) w := by
  obtain ⟨space, hspace, hkind⟩ := hns
  rw [Spaces.held?_eq hspace] at hd
  obtain ⟨index, hfind, hd⟩ := Option.bind_eq_some_iff.1 hd
  have hrefused : space.predefine ns (w.spaces.filingKey ns stx name) =
      .error .duplicateDefinition := by
    rw [Namespace.predefine, hfind]
    simp [hd, hkind, Namespace.redefinitionConflict?]
  rw [predefine_apply, Spaces.predefine, hname, hspace]
  simp only [hrefused]

end HygienicLisp
