import HygienicLisp.Proofs.Namespaces.Capture
import HygienicLisp.Proofs.Renaming.Resolution
import HygienicLisp.Proofs.Scoping.Lexical

/-!
# Ribs are frames

The identifiers of an expression carry the ribs of the binding forms around them, newest first, in
front of the chain that they were read with (`inScope`).  Each rib is keyed by what its binders
denote outside of it (`Frames`).  Then an identifier resolves to the variable of its nearest binder
by name, and if no enclosing form binds it, to what it denotes at top level
(`Frames.leafBinding_local`, `Frames.leafBinding_top`).

The compiler counts frames by the numbers of their ribs.  As ribs have different numbers, the frame
that it finds is the one of that binder.
-/

namespace HygienicLisp

/-- The chain of an identifier inside the given ribs, newest first. -/
def inScope (base : List Wrap) (ribs : List Rib) (a : Atom) : ContextAtom :=
  ⟨ribs.map .rename ++ base, a⟩

/-- The identifier of a name inside ribs. -/
abbrev nameIn (base : List Wrap) (ribs : List Rib) (x : String) : ContextAtom :=
  inScope base ribs (.symbol x)

theorem inScope_cons (base : List Wrap) (rib : Rib) (ribs : List Rib) (a : Atom) :
    inScope base (rib :: ribs) a = (inScope base ribs a).push (.rename rib) := rfl

/-- The chain has no marks and no ribs, and does not mention the kernel. -/
def PlainChain (kernel : NamespaceId) (base : List Wrap) : Prop :=
  ∀ wrap ∈ base, ∃ ns, ns ≠ kernel ∧ (wrap = .space ns ∨ wrap = .moduleRename ns)

/-- The ribs of binding forms with the given binders, innermost form first. -/
inductive Frames (spaces : Spaces) (base : List Wrap) : List Rib → NameScope → Prop
  | nil : Frames spaces base [] []
  | cons {rib : Rib} {ribs : List Rib} {names : List String} {scope : NameScope}
      (hkeys : rib.keys = names.map fun x => spaces.leafKey (nameIn base ribs x))
      (hnew : ∀ other ∈ ribs, other.id ≠ rib.id) (houter : Frames spaces base ribs scope) :
      Frames spaces base (rib :: ribs) (names :: scope)

/-- What the compiler keeps of a rib; one without variables has no number. -/
def scopeOf (rib : Rib) : Option RibId := if rib.keys = [] then none else some rib.id

/-- What the compiler keeps of the ribs around a place. -/
def scopesOf (ribs : List Rib) : Scopes := ribs.map scopeOf

variable {spaces : Spaces} {base : List Wrap} {ribs : List Rib} {scope : NameScope}

variable (spaces) in
/-- Outside of all ribs a name has no binding, or a cell that is there and is none of the kernel. -/
theorem leafBinding_base {kernel : NamespaceId} (h : PlainChain kernel base) (x : String) :
    spaces.leafBinding (nameIn base [] x) = none ∨
      ∃ c, spaces.leafBinding (nameIn base [] x) = some (.cell c) ∧ c.owner ≠ kernel ∧
        (spaces.content? c).isSome := by
  have hchain (total : MarkSet) : spaces.inside x total base = none ∨
      ∃ c, spaces.inside x total base = some (.cell c) ∧ c.owner ≠ kernel ∧
        (spaces.content? c).isSome := by
    -- A wrap leaves what the older ones have found, or finds a cell of its own namespace.
    induction base with
    | nil => exact .inl rfl
    | cons wrap base ih =>
        obtain ⟨hwrap, hbase⟩ := List.forall_mem_cons.1 h
        rw [Spaces.inside, List.foldr_cons]
        rcases spaces.resolveStep_cases x none total wrap
            (base.foldr (spaces.resolveStep x none total) (none, .empty)) with
          hkeep | ⟨rib, v, rfl, -, -⟩ | ⟨ns, key, c, hns, -, hc, hnew⟩
        · rw [hkeep]
          exact ih hbase
        · obtain ⟨ns, -, hrename | hrename⟩ := hwrap <;> cases hrename
        · refine .inr ⟨c, hnew, ?_, Spaces.content?_isSome_of_cell? hc⟩
          obtain ⟨howner, -⟩ := Spaces.cell?_eq_some_iff.1 hc
          obtain ⟨ns', hkernel, hwrap⟩ := hwrap
          rw [howner]
          rcases hns with ⟨rfl, -⟩ | rfl
          · rcases hwrap with hwrap | hwrap <;> cases hwrap
            exact hkernel
          · rcases hwrap with hwrap | hwrap <;> cases hwrap
            exact hkernel
  exact hchain (wrapMarks base)

/-- Names without marks have different keys. -/
theorem leafKey_nameIn_inj {x y : String} :
    spaces.leafKey (nameIn base ribs x) = spaces.leafKey (nameIn base ribs y) ↔ x = y := by
  constructor
  · exact fun h => congrArg Key.name h
  · rintro rfl
    rfl

/-- A rib has the key of a name at the slot where it binds the name. -/
theorem findIdx?_leafKey {names : List String} (x : String) :
    (names.map fun y => spaces.leafKey (nameIn base ribs y)).findIdx?
      (· = spaces.leafKey (nameIn base ribs x)) = names.findIdx? (· = x) := by
  rw [List.findIdx?_map]
  congr 1
  funext y
  simp only [Function.comp_apply, leafKey_nameIn_inj]

namespace Frames

theorem leafBinding_cons {rib : Rib} {names : List String}
    (hkeys : rib.keys = names.map fun y => spaces.leafKey (nameIn base ribs y)) (x : String) :
    spaces.leafBinding (nameIn base (rib :: ribs) x) =
      match names.findIdx? (· = x) with
      | some slot => some (.lexical ⟨x, rib.id, slot⟩)
      | none => spaces.leafBinding (nameIn base ribs x) := by
  have hpush := spaces.leafBinding_push_rename rib (a := nameIn base ribs x) rfl
  rw [hkeys, findIdx?_leafKey] at hpush
  rw [nameIn, inScope_cons]
  exact hpush

/-- A name that no enclosing form binds denotes what it denotes at top level. -/
theorem leafBinding_top (h : Frames spaces base ribs scope) {x : String}
    (hx : address? x scope = none) :
    spaces.leafBinding (nameIn base ribs x) = spaces.leafBinding (nameIn base [] x) := by
  induction h with
  | nil => rfl
  | @cons rib ribs names scope hkeys _ _ ih =>
      rw [leafBinding_cons hkeys]
      rw [address?] at hx
      cases hslot : names.findIdx? (· = x) with
      | some slot => simp [hslot] at hx
      | none =>
          rw [hslot] at hx
          exact ih (Option.map_eq_none_iff.1 hx)

/-- A name denotes the variable of its nearest binder, and the compiler finds the frame of
that binder. -/
theorem leafBinding_local (h : Frames spaces base ribs scope) {x : String} {depth slot : Nat}
    (hx : address? x scope = some (depth, slot)) :
    ∃ rib ∈ ribs, spaces.leafBinding (nameIn base ribs x) = some (.lexical ⟨x, rib.id, slot⟩) ∧
      (scopesOf ribs).findIdx? (· = some rib.id) = some depth := by
  induction h generalizing depth with
  | nil => cases hx
  | @cons rib ribs names scope hkeys hnew _ ih =>
      rw [leafBinding_cons hkeys]
      rw [address?] at hx
      cases hslot : names.findIdx? (· = x) with
      | some s =>
          rw [hslot] at hx
          cases hx
          refine ⟨rib, List.mem_cons_self, rfl, ?_⟩
          have hkept : scopeOf rib = some rib.id := by
            rw [scopeOf, if_neg]
            rw [hkeys, List.map_eq_nil_iff]
            rintro rfl
            cases hslot
          simp [scopesOf, hkept, List.findIdx?_cons]
      | none =>
          rw [hslot] at hx
          obtain ⟨⟨d, s⟩, hd, haddress⟩ := Option.map_eq_some_iff.1 hx
          cases haddress
          obtain ⟨other, hother, hbinding, hdepth⟩ := ih hd
          refine ⟨other, List.mem_cons_of_mem _ hother, hbinding, ?_⟩
          -- The search passes over this frame, as its rib has another number.
          have hne : scopeOf rib ≠ some other.id := by
            rw [scopeOf]
            split
            · rintro ⟨⟩
            · exact fun hsame => hnew other hother (Option.some.inj hsame).symm
          rw [scopesOf, List.map_cons, List.findIdx?_cons]
          simp only [hne, decide_false, Bool.false_eq_true, if_false]
          rw [← scopesOf, hdepth]
          rfl

/-- What a name inside ribs denotes is no cell of the kernel. -/
theorem leafBinding_ne_kernel (h : Frames spaces base ribs scope) {kernel : NamespaceId}
    (hbase : PlainChain kernel base) {x : String} {c : CellRef}
    (hc : spaces.leafBinding (nameIn base ribs x) = some (.cell c)) : c.owner ≠ kernel := by
  cases hx : address? x scope with
  | some a =>
      obtain ⟨rib, -, hbinding, -⟩ := h.leafBinding_local hx
      rw [hbinding] at hc
      cases hc
  | none =>
      rw [h.leafBinding_top hx] at hc
      rcases leafBinding_base spaces hbase x with hnone | ⟨c', hc', howner, -⟩
      · rw [hnone] at hc
        cases hc
      · rw [hc'] at hc
        cases hc
        exact howner

end Frames

end HygienicLisp
