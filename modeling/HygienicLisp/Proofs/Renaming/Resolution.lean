import HygienicLisp.Proofs.Invocation
import HygienicLisp.Proofs.Renaming.Views

/-!
# Resolution under two spellings

The two spellings of an expression are expanded side by side, and each binding form makes a
rib for each of them.  An identifier of the caller has the ribs made so far in front of the
namespace of the expression.  An identifier that a transformer added has a mark.  Ribs are
keyed by what a binder denotes outside and by its marks, so

* the ribs of the caller's variables tell the caller's identifiers apart by their names, in
  both spellings alike (`Setting.alike_caller`), and
* they are not seen by identifiers of a transformer (`Setting.resolveWraps_own`), whatever
  these are called.

`Setting.Pairs` describes the pairs of atoms that come up and `Setting.Pairs.resolved` says
that they resolve alike.
-/

namespace HygienicLisp

/-- A rib substitutes the variable at the first slot that has the key of the identifier. -/
theorem Spaces.leafBinding_push_rename (spaces : Spaces) (rib : Rib) {a : ContextAtom} {x : String}
    (hx : a.symbol? = some x) : spaces.leafBinding (a.push (.rename rib)) =
      match rib.keys.findIdx? (· = spaces.leafKey a) with
      | some slot => some (.lexical ⟨x, rib.id, slot⟩)
      | none => spaces.leafBinding a := by
  have hkey : spaces.leafKey a = ⟨x, (spaces.resolveWraps x none a.wraps).1.getD (.free x),
      (spaces.resolveWraps x none a.wraps).2⟩ := by
    simp only [leafKey, leafBinding, hx, Option.getD_some, resolveWraps_marks]
  have hpush : spaces.leafBinding (a.push (.rename rib)) =
      (spaces.resolveWraps x none (.rename rib :: a.wraps)).1 := by
    rw [leafBinding, ContextAtom.symbol?_push, hx]
    rfl
  have ha : spaces.leafBinding a = (spaces.resolveWraps x none a.wraps).1 := by
    rw [leafBinding, hx]
  rw [hpush, resolveWraps_rename_cons, ha, Rib.substitute?, ← hkey]
  cases rib.keys.findIdx? (· = spaces.leafKey a) with
  | none => rfl
  | some slot =>
      rw [Option.map_some, hkey]

/-! ## Names in scope -/

/-- The names `x` and `y` denote the same variable of the scope, innermost variable first, in
the first and in the second spelling; outside all scopes they are the same name. -/
def SameName : List (String × String) → String → String → Prop
  | [], x, y => x = y
  | (a, b) :: scope, x, y => (x = a ∧ y = b) ∨ (x ≠ a ∧ y ≠ b ∧ SameName scope x y)

/-- Names that denote the same variables are renamed one to one. -/
theorem SameName.eq_iff {scope : List (String × String)} {x y x' y' : String}
    (h : SameName scope x y) (h' : SameName scope x' y') : x = x' ↔ y = y' := by
  induction scope with
  | nil =>
      obtain rfl : x = y := h
      obtain rfl : x' = y' := h'
      rfl
  | cons v scope ih =>
      obtain ⟨a, b⟩ := v
      rcases h with ⟨rfl, rfl⟩ | ⟨hx, hy, h⟩
      · rcases h' with ⟨rfl, rfl⟩ | ⟨hx', hy', -⟩
        · simp
        · exact ⟨fun hsame => absurd hsame.symm hx', fun hsame => absurd hsame.symm hy'⟩
      · rcases h' with ⟨rfl, rfl⟩ | ⟨-, -, h'⟩
        · exact ⟨fun hsame => absurd hsame hx, fun hsame => absurd hsame hy⟩
        · exact ih h h'

/-- New variables whose names are those of the scope around them change nothing. -/
theorem SameName.append {scope inner : List (String × String)} {x y : String}
    (h : SameName scope x y) (hinner : ∀ n ∈ inner, SameName scope n.1 n.2) :
    SameName (inner ++ scope) x y := by
  induction inner with
  | nil => exact h
  | cons v inner ih =>
      obtain ⟨hv, hinner⟩ := List.forall_mem_cons.1 hinner
      have hiff := h.eq_iff hv
      by_cases hx : x = v.1
      · exact .inl ⟨hx, hiff.1 hx⟩
      · exact .inr ⟨hx, fun hy => hx (hiff.2 hy), ih hinner⟩

/-! ## Ribs of both spellings -/

/-- What two expressions are compared in: the world in which both are expanded, the namespace
of the caller, which names may stand for which, and the templates of procedures. -/
structure Setting where
  world : World
  home : NamespaceId
  renames : String → String → Prop
  template? : Procedure → Option Assembly

/-- The chain of an identifier of the caller under the given ribs, newest first. -/
def callerChain (ns : NamespaceId) (ribs : List Rib) : List Wrap := ribs.map .rename ++ [.space ns]

@[simp] theorem callerChain_cons (ns : NamespaceId) (rib : Rib) (ribs : List Rib) :
    callerChain ns (rib :: ribs) = .rename rib :: callerChain ns ribs := rfl

theorem wrapMarks_map_rename (ribs : List Rib) (older : List Wrap) :
    wrapMarks (ribs.map .rename ++ older) = wrapMarks older := by
  induction ribs with
  | nil => rfl
  | cons rib ribs ih => exact ih

theorem wrapMarks_callerChain (ns : NamespaceId) (ribs : List Rib) :
    wrapMarks (callerChain ns ribs) = .empty := by
  rw [callerChain, wrapMarks_map_rename]
  rfl

/-- The names of the variables of the caller that a pair of ribs binds.  Variables of a
transformer have marks. -/
def callerNames (r : Rib × Rib) : List (String × String) :=
  (r.1.keys.zip r.2.keys).filterMap fun k =>
    if k.1.marks = .empty then some (k.1.name, k.2.name) else none

/-- The names of the caller's variables that pairs of ribs bind, innermost first. -/
def scope (P : List (Rib × Rib)) : List (String × String) := P.flatMap callerNames

/-- The ribs are of the same form: at each slot the same key with marks, or keys without
marks. -/
structure Parallel (r : Rib × Rib) : Prop where
  id : r.1.id = r.2.id
  keys : List.Forall₂ (fun k₁ k₂ : Key => k₁ = k₂ ∧ k₁.marks ≠ .empty ∨
    k₁.marks = .empty ∧ k₂.marks = .empty) r.1.keys r.2.keys

namespace Setting

variable (σ : Setting)

/-- All namespaces. -/
def spaces : Spaces := σ.world.spaces

/-- The name `y` may stand where the other spelling has `x`. -/
def Names (x y : String) : Prop := x = y ∨ σ.renames x y

/-- An identifier of the caller in the first spelling. -/
def caller₁ (P : List (Rib × Rib)) (x : String) : ContextAtom :=
  ⟨callerChain σ.home (P.map Prod.fst), .symbol x⟩

/-- An identifier of the caller in the second spelling. -/
def caller₂ (P : List (Rib × Rib)) (x : String) : ContextAtom :=
  ⟨callerChain σ.home (P.map Prod.snd), .symbol x⟩

theorem caller₁_cons (r : Rib × Rib) (P : List (Rib × Rib)) (x : String) :
    σ.caller₁ (r :: P) x = (σ.caller₁ P x).push (.rename r.1) := rfl

theorem caller₂_cons (r : Rib × Rib) (P : List (Rib × Rib)) (x : String) :
    σ.caller₂ (r :: P) x = (σ.caller₂ P x).push (.rename r.2) := rfl

/-- The keys of a binder in the two spellings, inside the ribs `P`. -/
inductive KeyPair (P : List (Rib × Rib)) : Key → Key → Prop
  | own {k : Key} (hmarks : k.marks ≠ .empty) : KeyPair P k k
  | caller (x y : String) :
      KeyPair P (σ.spaces.leafKey (σ.caller₁ P x)) (σ.spaces.leafKey (σ.caller₂ P y))

/-- Pairs of ribs as expansion makes them, newest first: those of a binding form have the keys
that its binders have outside of it. -/
inductive Ribs : List (Rib × Rib) → Prop
  | nil : Ribs []
  | cons {r : Rib × Rib} {P : List (Rib × Rib)} (hid : r.1.id = r.2.id)
      (hkeys : List.Forall₂ (σ.KeyPair P) r.1.keys r.2.keys) (hP : Ribs P) : Ribs (r :: P)

theorem leafKey_caller₁ (P : List (Rib × Rib)) (x : String) :
    σ.spaces.leafKey (σ.caller₁ P x) =
      ⟨x, (σ.spaces.leafBinding (σ.caller₁ P x)).getD (.free x), .empty⟩ := by
  simp only [Spaces.leafKey, caller₁, wrapMarks_callerChain]
  rfl

theorem leafKey_caller₂ (P : List (Rib × Rib)) (x : String) :
    σ.spaces.leafKey (σ.caller₂ P x) =
      ⟨x, (σ.spaces.leafBinding (σ.caller₂ P x)).getD (.free x), .empty⟩ := by
  simp only [Spaces.leafKey, caller₂, wrapMarks_callerChain]
  rfl

theorem Ribs.parallel {r : Rib × Rib} {P : List (Rib × Rib)} (h : σ.Ribs (r :: P)) : Parallel r := by
  cases h with
  | cons hid hkeys _ =>
      refine ⟨hid, hkeys.imp fun k₁ k₂ h => ?_⟩
      cases h with
      | own hmarks => exact .inl ⟨rfl, hmarks⟩
      | caller x y =>
          rw [leafKey_caller₁, leafKey_caller₂]
          exact .inr ⟨rfl, rfl⟩

/-! ## Identifiers of the caller -/

end Setting

/-- Two bindings of names: the same binding of the same name, or the same variable. -/
def Alike (x y : String) (b₁ b₂ : Option Binding) : Prop :=
  x = y ∧ b₁ = b₂ ∨ ∃ v₁ v₂ : LocalVar, b₁ = some (.lexical v₁) ∧ b₂ = some (.lexical v₂) ∧
    v₁.rib = v₂.rib ∧ v₁.slot = v₂.slot

/-- Two searches end at the same slot, or both find nothing and `C` holds. -/
def FoundAlike (keys₁ keys₂ : List Key) (k₁ k₂ : Key) (C : Prop) : Prop :=
  (∃ i, keys₁.findIdx? (· = k₁) = some i ∧ keys₂.findIdx? (· = k₂) = some i) ∨
    keys₁.findIdx? (· = k₁) = none ∧ keys₂.findIdx? (· = k₂) = none ∧ C

theorem FoundAlike.cons {keys₁ keys₂ : List Key} {k₁ k₂ first₁ first₂ : Key} {C : Prop}
    (h : FoundAlike keys₁ keys₂ k₁ k₂ C) (hne₁ : first₁ ≠ k₁) (hne₂ : first₂ ≠ k₂) :
    FoundAlike (first₁ :: keys₁) (first₂ :: keys₂) k₁ k₂ C := by
  rcases h with ⟨i, h₁, h₂⟩ | ⟨h₁, h₂, hC⟩
  · refine .inl ⟨i + 1, ?_, ?_⟩
    · simp [List.findIdx?_cons, hne₁, h₁]
    · simp [List.findIdx?_cons, hne₂, h₂]
  · refine .inr ⟨?_, ?_, hC⟩
    · simp [List.findIdx?_cons, hne₁, h₁]
    · simp [List.findIdx?_cons, hne₂, h₂]

namespace Setting

variable {σ : Setting} {P : List (Rib × Rib)}

theorem leafKey_caller₁_inj {x y : String} :
    σ.spaces.leafKey (σ.caller₁ P x) = σ.spaces.leafKey (σ.caller₁ P y) ↔ x = y := by
  refine ⟨fun h => ?_, fun h => by rw [h]⟩
  rw [leafKey_caller₁, leafKey_caller₁] at h
  exact congrArg Key.name h

theorem leafKey_caller₂_inj {x y : String} :
    σ.spaces.leafKey (σ.caller₂ P x) = σ.spaces.leafKey (σ.caller₂ P y) ↔ x = y := by
  refine ⟨fun h => ?_, fun h => by rw [h]⟩
  rw [leafKey_caller₂, leafKey_caller₂] at h
  exact congrArg Key.name h

/-- A rib finds the variables that two names denote at the same slot, or neither. -/
theorem foundAlike_caller {keys₁ keys₂ : List Key} (hkeys : List.Forall₂ (σ.KeyPair P) keys₁ keys₂)
    {id : RibId} {outer : List (String × String)} {x y : String}
    (h : SameName (callerNames (⟨id, keys₁⟩, ⟨id, keys₂⟩) ++ outer) x y) :
    FoundAlike keys₁ keys₂ (σ.spaces.leafKey (σ.caller₁ P x)) (σ.spaces.leafKey (σ.caller₂ P y))
      (SameName outer x y) := by
  induction hkeys with
  | nil => exact .inr ⟨rfl, rfl, h⟩
  | @cons k₁ k₂ keys₁ keys₂ hkey hkeys ih =>
      rw [callerNames, List.zip_cons_cons, List.filterMap_cons] at h
      cases hkey with
      | own hmarks =>
          -- The key has marks, and the identifiers have none.
          rw [if_neg hmarks] at h
          refine (ih h).cons ?_ ?_
          · rw [leafKey_caller₁]
            rintro rfl
            exact hmarks rfl
          · rw [leafKey_caller₂]
            rintro rfl
            exact hmarks rfl
      | caller a b =>
          simp only [leafKey_caller₁, leafKey_caller₂] at h
          rcases h with ⟨rfl, rfl⟩ | ⟨hx, hy, hrest⟩
          · exact .inl ⟨0, by simp [List.findIdx?_cons], by simp [List.findIdx?_cons]⟩
          · refine (ih hrest).cons ?_ ?_
            · exact fun hkey => hx (leafKey_caller₁_inj.1 hkey).symm
            · exact fun hkey => hy (leafKey_caller₂_inj.1 hkey).symm

/-- Names of the caller that denote the same variable, or are the same name outside all scopes,
resolve alike. -/
theorem alike_caller (hP : σ.Ribs P) {x y : String} (h : SameName (scope P) x y) :
    Alike x y (σ.spaces.leafBinding (σ.caller₁ P x)) (σ.spaces.leafBinding (σ.caller₂ P y)) := by
  induction hP with
  | nil =>
      obtain rfl : x = y := h
      exact .inl ⟨rfl, rfl⟩
  | @cons r P hid hkeys hP ih =>
      obtain ⟨⟨id, keys₁⟩, id₂, keys₂⟩ := r
      obtain rfl : id = id₂ := hid
      have h₁ := σ.spaces.leafBinding_push_rename ⟨id, keys₁⟩ (a := σ.caller₁ P x) rfl
      have h₂ := σ.spaces.leafBinding_push_rename ⟨id, keys₂⟩ (a := σ.caller₂ P y) rfl
      rw [caller₁_cons, caller₂_cons, h₁, h₂]
      rcases foundAlike_caller hkeys h with ⟨slot, hslot₁, hslot₂⟩ | ⟨hnone₁, hnone₂, hsame⟩
      · simp only [hslot₁, hslot₂]
        exact .inr ⟨_, _, rfl, rfl, rfl, rfl⟩
      · simp only [hnone₁, hnone₂]
        exact ih hsame

end Setting

/-! ## Identifiers of transformers -/

/-- An atom of a transformer, under newer ribs of the first spelling. -/
def own₁ (Q : List (Rib × Rib)) (older : List Wrap) (x : String) : ContextAtom :=
  ⟨(Q.map Prod.fst).map .rename ++ older, .symbol x⟩

/-- An atom of a transformer, under newer ribs of the second spelling. -/
def own₂ (Q : List (Rib × Rib)) (older : List Wrap) (x : String) : ContextAtom :=
  ⟨(Q.map Prod.snd).map .rename ++ older, .symbol x⟩

theorem own₁_cons (r : Rib × Rib) (Q : List (Rib × Rib)) (older : List Wrap) (x : String) :
    own₁ (r :: Q) older x = (own₁ Q older x).push (.rename r.1) := rfl

theorem own₂_cons (r : Rib × Rib) (Q : List (Rib × Rib)) (older : List Wrap) (x : String) :
    own₂ (r :: Q) older x = (own₂ Q older x).push (.rename r.2) := rfl

theorem wrapMarks_own₁ (Q : List (Rib × Rib)) (older : List Wrap) (x : String) :
    wrapMarks (own₁ Q older x).wraps = wrapMarks older := wrapMarks_map_rename _ older

theorem wrapMarks_own₂ (Q : List (Rib × Rib)) (older : List Wrap) (x : String) :
    wrapMarks (own₂ Q older x).wraps = wrapMarks older := wrapMarks_map_rename _ older

/-- Parallel ribs have a key with marks at the same slot. -/
theorem Parallel.findIdx?_eq {r : Rib × Rib} (h : Parallel r) {key : Key}
    (hmarks : key.marks ≠ .empty) :
    r.1.keys.findIdx? (· = key) = r.2.keys.findIdx? (· = key) := by
  obtain ⟨⟨id₁, keys₁⟩, id₂, keys₂⟩ := r
  obtain ⟨-, hkeys⟩ := h
  simp only at hkeys ⊢
  induction hkeys with
  | nil => rfl
  | @cons k₁ k₂ keys₁ keys₂ hkey _ ih =>
      rw [List.findIdx?_cons, List.findIdx?_cons, ih]
      rcases hkey with ⟨rfl, -⟩ | ⟨hk₁, hk₂⟩
      · rfl
      · have hne₁ : k₁ ≠ key := by
          rintro rfl
          exact hmarks hk₁
        have hne₂ : k₂ ≠ key := by
          rintro rfl
          exact hmarks hk₂
        simp [hne₁, hne₂]

namespace Spaces

variable (spaces : Spaces) {Q : List (Rib × Rib)} {older : List Wrap}

/-- Identifiers of a transformer with the same binding have the same key. -/
theorem leafKey_own_of_leafBinding {x : String}
    (h : spaces.leafBinding (own₁ Q older x) = spaces.leafBinding (own₂ Q older x)) :
    spaces.leafKey (own₁ Q older x) = spaces.leafKey (own₂ Q older x) := by
  simp only [leafKey, h, wrapMarks_own₁, wrapMarks_own₂]
  rfl

/-- Ribs of the two spellings give an identifier with marks the same binding. -/
theorem leafBinding_own (hQ : ∀ r ∈ Q, Parallel r) (hmarks : wrapMarks older ≠ .empty) (x : String) :
    spaces.leafBinding (own₁ Q older x) = spaces.leafBinding (own₂ Q older x) := by
  induction Q with
  | nil => rfl
  | cons r Q ih =>
      obtain ⟨hr, hQ⟩ := List.forall_mem_cons.1 hQ
      have hbinding := ih hQ
      have hkey := spaces.leafKey_own_of_leafBinding hbinding
      have hfound : (spaces.leafKey (own₂ Q older x)).marks ≠ .empty := by
        rw [leafKey, wrapMarks_own₂]
        exact hmarks
      rw [own₁_cons, own₂_cons, spaces.leafBinding_push_rename r.1 (a := own₁ Q older x) rfl,
        spaces.leafBinding_push_rename r.2 (a := own₂ Q older x) rfl, hbinding, hkey,
        hr.findIdx?_eq hfound, hr.id]

/-- A rib hides the value of an identifier or leaves it as it is. -/
theorem leafValue?_push_rename (rib : Rib) (a : ContextAtom) :
    spaces.leafValue? (a.push (.rename rib)) = none ∨
      spaces.leafValue? (a.push (.rename rib)) = spaces.leafValue? a := by
  cases hx : a.symbol? with
  | none => simp [leafValue?, leafBinding, hx]
  | some x =>
      rw [leafValue?, leafBinding_push_rename spaces rib hx]
      cases rib.keys.findIdx? (· = spaces.leafKey a) with
      | none => exact .inr rfl
      | some slot => exact .inl rfl

end Spaces

/-! ## Pairs of atoms -/

/-- A pair of atoms that mean the same: the same data, or identifiers that resolve alike. -/
inductive Setting.Resolved (σ : Setting) : ContextAtom × ContextAtom → Prop
  | data {a₁ a₂ : ContextAtom} (hdata : a₁.data = a₂.data) (hname : a₁.symbol? = none) :
      Resolved σ (a₁, a₂)
  | name {a₁ a₂ : ContextAtom} {x y : String} (hx : a₁.symbol? = some x) (hy : a₂.symbol? = some y)
      (hnames : σ.Names x y)
      (halike : Alike x y (σ.spaces.leafBinding a₁) (σ.spaces.leafBinding a₂)) : Resolved σ (a₁, a₂)

/-- A pair of atoms with the same text, up to names that may stand for one another. -/
inductive Setting.Spelled (σ : Setting) : ContextAtom × ContextAtom → Prop
  | data {a₁ a₂ : ContextAtom} (hdata : a₁.data = a₂.data) (hname : a₁.symbol? = none) :
      Spelled σ (a₁, a₂)
  | name {a₁ a₂ : ContextAtom} {x y : String} (hx : a₁.symbol? = some x) (hy : a₂.symbol? = some y)
      (hnames : σ.Names x y) : Spelled σ (a₁, a₂)

namespace Setting

variable (σ : Setting)

/-- If the identifier denotes a transformer, it is one with a template. -/
def Permits (a : ContextAtom) : Prop :=
  ∀ id procedureId p, σ.spaces.leafValue? a = some (.transformer id procedureId p) →
    (σ.template? p).isSome

/-- The pairs of atoms that stand at the same place of both spellings, inside the ribs `P`. -/
inductive Pairs (P : List (Rib × Rib)) : ContextAtom × ContextAtom → Prop
  | data {a₁ a₂ : ContextAtom} (hdata : a₁.data = a₂.data) (hname : a₁.symbol? = none) :
      Pairs P (a₁, a₂)
  /-- Identifiers of the caller that denote the same variable or are the same name. -/
  | caller {x y : String} (hsame : SameName (scope P) x y) (hnames : σ.Names x y)
      (hpermits : σ.Permits (σ.caller₁ P x)) : Pairs P (σ.caller₁ P x, σ.caller₂ P y)
  /-- An identifier of a transformer, under the ribs made since. -/
  | own {Q : List (Rib × Rib)} {older : List Wrap} {x : String} (hQ : ∀ r ∈ Q, Parallel r)
      (hmarks : wrapMarks older ≠ .empty) (hpermits : σ.Permits (own₁ Q older x)) :
      Pairs P (own₁ Q older x, own₂ Q older x)

variable {σ} {P : List (Rib × Rib)} {a : ContextAtom × ContextAtom}

theorem Pairs.resolved (h : σ.Pairs P a) (hP : σ.Ribs P) : σ.Resolved a := by
  cases h with
  | data hdata hname => exact .data hdata hname
  | caller hsame hnames _ => exact .name rfl rfl hnames (alike_caller hP hsame)
  | own hQ hmarks _ => exact .name rfl rfl (.inl rfl) (.inl ⟨rfl, σ.spaces.leafBinding_own hQ hmarks _⟩)

theorem Resolved.spelled (h : σ.Resolved a) : σ.Spelled a := by
  cases h with
  | data hdata hname => exact .data hdata hname
  | name hx hy hnames _ => exact .name hx hy hnames

theorem Resolved.leafValue? (h : σ.Resolved a) : σ.spaces.leafValue? a.1 = σ.spaces.leafValue? a.2 := by
  cases h with
  | @data a₁ a₂ hdata hname =>
      have hname₂ : a₂.symbol? = none := by
        rw [ContextAtom.symbol?, ← hdata]
        exact hname
      simp [Spaces.leafValue?, Spaces.leafBinding, hname, hname₂]
  | name hx hy _ halike =>
      simp only [Spaces.leafValue?]
      rcases halike with ⟨-, hbinding⟩ | ⟨v₁, v₂, h₁, h₂, -, -⟩
      · rw [hbinding]
      · rw [h₁, h₂]

theorem Resolved.isSome_symbol? (h : σ.Resolved a) : a.1.symbol?.isSome = a.2.symbol?.isSome := by
  cases h with
  | data hdata hname => rw [ContextAtom.symbol?, ContextAtom.symbol?, hdata]
  | name hx hy _ _ => rw [hx, hy]; rfl

theorem Permits.push_rename {a : ContextAtom} (h : σ.Permits a) (rib : Rib) :
    σ.Permits (a.push (.rename rib)) := by
  intro id procedureId p hvalue
  rcases σ.spaces.leafValue?_push_rename rib a with hnone | hsame
  · rw [hnone] at hvalue
    cases hvalue
  · exact h id procedureId p (hsame.symm.trans hvalue)

theorem Pairs.permits (h : σ.Pairs P a) : σ.Permits a.1 := by
  cases h with
  | @data a₁ a₂ hdata hname =>
      intro id procedureId p hvalue
      simp [Spaces.leafValue?, Spaces.leafBinding, hname] at hvalue
  | caller _ _ hpermits => exact hpermits
  | own _ _ hpermits => exact hpermits

/-- Inside ribs whose variables are named as the scope around them has it, pairs are pairs
again. -/
theorem Pairs.under (h : σ.Pairs P a) {r : Rib × Rib} (hr : Parallel r)
    (hnames : ∀ n ∈ callerNames r, SameName (scope P) n.1 n.2) :
    σ.Pairs (r :: P) (a.1.push (.rename r.1), a.2.push (.rename r.2)) := by
  cases h with
  | data hdata hname => exact .data hdata hname
  | caller hsame hname hpermits => exact .caller (hsame.append hnames) hname (hpermits.push_rename _)
  | @own Q older x hQ hmarks hpermits =>
      exact .own (Q := r :: Q) (List.forall_mem_cons.2 ⟨hr, hQ⟩) hmarks (hpermits.push_rename _)

/-! ## Binders -/

variable (σ) in
/-- The pairs of identifiers that a binding form inside the ribs `P` may bind. -/
inductive Binders (P : List (Rib × Rib)) : ContextAtom × ContextAtom → Prop
  | caller {x y : String} (hnames : σ.Names x y) : Binders P (σ.caller₁ P x, σ.caller₂ P y)
  | own {Q : List (Rib × Rib)} {older : List Wrap} {x : String} (hQ : ∀ r ∈ Q, Parallel r)
      (hmarks : wrapMarks older ≠ .empty) : Binders P (own₁ Q older x, own₂ Q older x)

variable (σ) in
/-- Two binders are the same in one spelling exactly if they are in the other. -/
def KeysAlike (as : List (ContextAtom × ContextAtom)) : Prop :=
  ∀ a ∈ as, ∀ b ∈ as, σ.spaces.leafKey a.1 = σ.spaces.leafKey b.1 ↔
    σ.spaces.leafKey a.2 = σ.spaces.leafKey b.2

variable (σ) in
/-- The ribs that a binding form makes of its binders. -/
def ribs (id : RibId) (as : List (ContextAtom × ContextAtom)) : Rib × Rib :=
  (⟨id, as.map fun a => σ.spaces.leafKey a.1⟩, ⟨id, as.map fun a => σ.spaces.leafKey a.2⟩)

variable {as : List (ContextAtom × ContextAtom)}

theorem Binders.names (h : σ.Binders P a) :
    ∃ x y, a.1.symbol? = some x ∧ a.2.symbol? = some y ∧ σ.Names x y := by
  cases h with
  | caller hnames => exact ⟨_, _, rfl, rfl, hnames⟩
  | own _ _ => exact ⟨_, _, rfl, rfl, .inl rfl⟩

theorem Binders.keyPair (h : σ.Binders P a) :
    σ.KeyPair P (σ.spaces.leafKey a.1) (σ.spaces.leafKey a.2) := by
  cases h with
  | caller _ => exact .caller _ _
  | @own Q older x hQ hmarks =>
      have hkey := σ.spaces.leafKey_own_of_leafBinding (σ.spaces.leafBinding_own hQ hmarks x)
      rw [← hkey]
      refine .own ?_
      rw [Spaces.leafKey, wrapMarks_own₁]
      exact hmarks

theorem Ribs.cons_ribs (hP : σ.Ribs P) (h : ∀ a ∈ as, σ.Binders P a) (id : RibId) :
    σ.Ribs (σ.ribs id as :: P) := by
  refine .cons rfl ?_ hP
  simp only [ribs]
  induction as with
  | nil => exact .nil
  | cons a as ih =>
      obtain ⟨ha, h⟩ := List.forall_mem_cons.1 h
      exact .cons ha.keyPair (ih h)

/-- Binders have the same key in both spellings or in neither, unless two names of the caller are
made one or one is made two. -/
theorem Binders.keys_iff {b : ContextAtom × ContextAtom} (ha : σ.Binders P a) (hb : σ.Binders P b)
    (h : ∀ {x y x' y' : String}, a = (σ.caller₁ P x, σ.caller₂ P y) →
      b = (σ.caller₁ P x', σ.caller₂ P y') → (x = x' ↔ y = y')) :
    σ.spaces.leafKey a.1 = σ.spaces.leafKey b.1 ↔ σ.spaces.leafKey a.2 = σ.spaces.leafKey b.2 := by
  cases ha with
  | @caller x y _ =>
      have hempty₁ : (σ.spaces.leafKey (σ.caller₁ P x)).marks = .empty := by rw [leafKey_caller₁]
      have hempty₂ : (σ.spaces.leafKey (σ.caller₂ P y)).marks = .empty := by rw [leafKey_caller₂]
      cases hb with
      | caller _ => rw [leafKey_caller₁_inj, leafKey_caller₂_inj, h rfl rfl]
      | @own Q older z hQ hmarks =>
          -- A binder of the caller has no marks, and one of a template has some.
          refine iff_of_false (fun hkey => hmarks ?_) fun hkey => hmarks ?_
          · rw [← wrapMarks_own₁ Q older z, ← hempty₁, hkey]
            rfl
          · rw [← wrapMarks_own₂ Q older z, ← hempty₂, hkey]
            rfl
  | @own Q older z hQ hmarks =>
      have hkey := σ.spaces.leafKey_own_of_leafBinding (σ.spaces.leafBinding_own hQ hmarks z)
      cases hb with
      | @caller x y _ =>
          have hempty₁ : (σ.spaces.leafKey (σ.caller₁ P x)).marks = .empty := by rw [leafKey_caller₁]
          have hempty₂ : (σ.spaces.leafKey (σ.caller₂ P y)).marks = .empty := by rw [leafKey_caller₂]
          refine iff_of_false (fun hkey => hmarks ?_) fun hkey => hmarks ?_
          · rw [← wrapMarks_own₁ Q older z, ← hempty₁, ← hkey]
            rfl
          · rw [← wrapMarks_own₂ Q older z, ← hempty₂, ← hkey]
            rfl
      | @own Q' older' z' hQ' hmarks' =>
          have hkey' := σ.spaces.leafKey_own_of_leafBinding (σ.spaces.leafBinding_own hQ' hmarks' z')
          rw [hkey, hkey']

/-- Searches for conditions that agree on the list end at the same place. -/
theorem findIdx?_congr_of_mem {α : Type} {p q : α → Bool} {xs : List α} (h : ∀ x ∈ xs, p x = q x) :
    xs.findIdx? p = xs.findIdx? q := by
  induction xs with
  | nil => rfl
  | cons x xs ih =>
      obtain ⟨hx, hxs⟩ := List.forall_mem_cons.1 h
      rw [List.findIdx?_cons, List.findIdx?_cons, hx, ih hxs]

/-- A binder resolves, inside the ribs of its form, to the same slot in both spellings. -/
theorem Binders.resolved_under (h : σ.Binders P a) (hkeys : σ.KeysAlike as) (ha : a ∈ as)
    (id : RibId) : σ.Resolved (a.1.push (.rename (σ.ribs id as).1),
      a.2.push (.rename (σ.ribs id as).2)) := by
  obtain ⟨x, y, hx, hy, hnames⟩ := h.names
  have hsame : as.findIdx? (fun b => σ.spaces.leafKey b.1 = σ.spaces.leafKey a.1) =
      as.findIdx? fun b => σ.spaces.leafKey b.2 = σ.spaces.leafKey a.2 := by
    refine findIdx?_congr_of_mem fun b hb => ?_
    simp only [hkeys b hb a ha]
  obtain ⟨slot, hslot⟩ : ∃ slot,
      as.findIdx? (fun b => σ.spaces.leafKey b.2 = σ.spaces.leafKey a.2) = some slot := by
    rw [← Option.isSome_iff_exists, List.findIdx?_isSome, List.any_eq_true]
    exact ⟨a, ha, by simp⟩
  have h₁ := σ.spaces.leafBinding_push_rename (σ.ribs id as).1 hx
  have h₂ := σ.spaces.leafBinding_push_rename (σ.ribs id as).2 hy
  simp only [ribs, List.findIdx?_map, Function.comp_def, hsame, hslot] at h₁ h₂
  exact .name hx hy hnames (.inr ⟨_, _, h₁, h₂, rfl, rfl⟩)

/-! ## Binders that the scope around them names -/

theorem Pairs.binders (h : σ.Pairs P a) (hname : a.1.symbol?.isSome) : σ.Binders P a := by
  cases h with
  | data _ hnone =>
      rw [hnone] at hname
      cases hname
  | caller _ hnames _ => exact .caller hnames
  | own hQ hmarks _ => exact .own hQ hmarks

theorem Pairs.sameName {x y : String} (h : σ.Pairs P (σ.caller₁ P x, σ.caller₂ P y)) :
    SameName (scope P) x y := by
  generalize ha : (σ.caller₁ P x, σ.caller₂ P y) = a at h
  cases h with
  | data _ hname =>
      obtain ⟨rfl, -⟩ := Prod.mk.inj ha
      cases hname
  | caller hsame _ _ =>
      obtain ⟨h₁, h₂⟩ := Prod.mk.inj ha
      cases h₁
      cases h₂
      exact hsame
  | @own Q older x' hQ hmarks _ =>
      obtain ⟨h₁, -⟩ := Prod.mk.inj ha
      have hwraps := congrArg (fun a : ContextAtom => wrapMarks a.wraps) h₁
      simp only [wrapMarks_own₁] at hwraps
      exact absurd (hwraps.symm.trans (wrapMarks_callerChain _ _)) hmarks

theorem keysAlike_of_pairs (h : ∀ a ∈ as, σ.Pairs P a ∧ a.1.symbol?.isSome) : σ.KeysAlike as := by
  intro a ha b hb
  obtain ⟨ha, hname⟩ := h a ha
  obtain ⟨hb, hname'⟩ := h b hb
  refine (ha.binders hname).keys_iff (hb.binders hname') fun heq heq' => ?_
  subst heq heq'
  exact ha.sameName.eq_iff hb.sameName

theorem sameName_of_mem_callerNames (h : ∀ a ∈ as, σ.Pairs P a ∧ a.1.symbol?.isSome) {id : RibId} :
    ∀ n ∈ callerNames (σ.ribs id as), SameName (scope P) n.1 n.2 := by
  intro n hn
  simp only [callerNames, ribs, List.zip_map', List.filterMap_map] at hn
  obtain ⟨a, ha, hsome⟩ := List.mem_filterMap.1 hn
  obtain ⟨hpair, hname⟩ := h a ha
  simp only [Function.comp_apply] at hsome
  split at hsome
  · next hmarks =>
    cases hsome
    cases hpair with
    | data _ hnone =>
        rw [hnone] at hname
        cases hname
    | caller hsame _ _ => simpa [leafKey_caller₁, leafKey_caller₂] using hsame
    | own _ howns _ =>
        rw [Spaces.leafKey, wrapMarks_own₁] at hmarks
        exact absurd hmarks howns
  · cases hsome

end Setting

end HygienicLisp
