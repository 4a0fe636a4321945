import HygienicLisp.Head
import HygienicLisp.Compile
import HygienicLisp.Proofs.Contexts

/-!
# What expansion sees of a form

Expansion and compilation look at a form only by taking it apart and by resolving the
identifiers they come to.  So they see no more of it than `Syntax.view`: its atoms, each with
the chain of wraps that it has once everything around it is pushed down.

Two forms that differ in the spelling of their identifiers only are one tree with two atoms at
each place, a `TwinTree`.  `Spells T stx₁ stx₂` says that the forms are its two sides.
-/

namespace HygienicLisp

open Syntax (pushWrap)

namespace ContextAtom

/-- Puts a wrap in front; a mark that meets itself cancels. -/
def push (wrap : Wrap) (a : ContextAtom) : ContextAtom := ⟨pushWrap wrap a.wraps, a.data⟩

/-- The name of an identifier. -/
def symbol? (a : ContextAtom) : Option String :=
  match a.data with
  | .symbol name => some name
  | _ => none

@[simp] theorem symbol?_push (wrap : Wrap) (a : ContextAtom) : (a.push wrap).symbol? = a.symbol? := rfl

theorem data_eq_of_symbol? {a : ContextAtom} {name : String} (h : a.symbol? = some name) :
    a.data = .symbol name := by
  obtain ⟨wraps, data⟩ := a
  cases data <;> simp_all [symbol?]

end ContextAtom

namespace FormTree

variable {α β : Type}

/-- Everything that stands at an atom satisfies `p`. -/
inductive All (p : α → Prop) : FormTree α → Prop
  | leaf {a : α} (h : p a) : All p (leaf a)
  | group {shape : Shape} {items : List (FormTree α)} (h : ∀ t ∈ items, All p t) :
      All p (group shape items)
  | record {fields : List (String × FormTree α)} (h : ∀ field ∈ fields, All p field.2) :
      All p (record fields)

/-- Induction on trees, with a hypothesis for each part of a container. -/
theorem partsInduction {motive : FormTree α → Prop} (leaf : ∀ a, motive (.leaf a))
    (group : ∀ shape items, (∀ t ∈ items, motive t) → motive (.group shape items))
    (record : ∀ fields, (∀ field ∈ fields, motive field.2) → motive (.record fields))
    (t : FormTree α) : motive t := by
  cases t with
  | leaf a => exact leaf a
  | group shape items =>
      exact group shape items fun t _ => partsInduction leaf group record t
  | record fields =>
      exact record fields fun field _ => partsInduction leaf group record field.2
termination_by t
decreasing_by
  · have ht := List.sizeOf_lt_of_mem ‹t ∈ items›
    simp only [FormTree.group.sizeOf_spec]
    omega
  · have hfield := List.sizeOf_lt_of_mem ‹field ∈ fields›
    obtain ⟨key, t⟩ := field
    simp only [FormTree.record.sizeOf_spec, Prod.mk.sizeOf_spec] at hfield ⊢
    omega

theorem All.mono {p q : α → Prop} {t : FormTree α} (h : t.All p) (hpq : ∀ a, p a → q a) : t.All q := by
  induction h with
  | leaf h => exact .leaf (hpq _ h)
  | group _ ih => exact .group ih
  | record _ ih => exact .record ih

theorem All.map {p : α → Prop} {q : β → Prop} {f : α → β} {t : FormTree α} (h : t.All p)
    (hpq : ∀ a, p a → q (f a)) : (t.map f).All q := by
  induction h with
  | leaf h =>
      rw [map_leaf]
      exact .leaf (hpq _ h)
  | group _ ih =>
      rw [map_group]
      refine .group fun t ht => ?_
      obtain ⟨t, hmem, rfl⟩ := List.mem_map.1 ht
      exact ih t hmem
  | record _ ih =>
      rw [map_record]
      refine .record fun field hfield => ?_
      obtain ⟨field, hmem, rfl⟩ := List.mem_map.1 hfield
      exact ih field hmem

theorem map_id_of_all {f : α → α} {p : α → Prop} {t : FormTree α} (h : t.All p)
    (hf : ∀ a, p a → f a = a) : t.map f = t := by
  induction h with
  | leaf h => rw [map_leaf, hf _ h]
  | group _ ih =>
      rw [map_group, List.map_congr_left ih]
      simp
  | @record fields _ ih =>
      rw [map_record, List.map_congr_left (g := id)]
      · simp
      · intro field hfield
        rw [ih field hfield]
        rfl

/-- Places one newer wrap around the form; marks cancel. -/
def push (wrap : Wrap) (t : ContextTree) : ContextTree := t.map (.push wrap)

/-- Whether the tree is a sexp. -/
def isSexp : FormTree α → Bool
  | group .sexp _ => true
  | _ => false

theorem isSexp_map (f : α → β) (t : FormTree α) : (t.map f).isSexp = t.isSexp := by
  cases t with
  | leaf a => simp [isSexp]
  | group shape items => cases shape <;> simp [isSexp]
  | record fields => simp [isSexp]

theorem exists_group_of_isSexp {t : FormTree α} (h : t.isSexp = true) :
    ∃ items, t = .group .sexp items := by
  match t, h with
  | .group .sexp items, _ => exact ⟨items, rfl⟩

end FormTree

/-! ## Views -/

namespace Syntax

/-- The form with every atom in the context that it has once it is taken out. -/
def view (stx : Syntax) : ContextTree := stx.spread.settled

theorem view_addWraps (newer : List Wrap) (stx : Syntax) :
    (stx.addWraps newer).view = (stx.spread.prepend newer).settled :=
  settled_spread_addWraps newer stx

@[simp] theorem view_atom (c : Context) (a : Atom) : (atom c a).view = .leaf ⟨cancelled c.wraps, a⟩ := by
  simp [view, FormTree.settled, ContextAtom.settle]

/-- The parts of a container are seen in its context. -/
theorem view_group (c : Context) (shape : Shape) (items : List Syntax) :
    (group c shape items).view = .group shape (items.map fun stx => (stx.addWraps c.wraps).view) := by
  rw [view, spread_group, FormTree.settled, FormTree.map_group, List.map_map]
  refine congrArg _ (List.map_congr_left fun stx _ => ?_)
  rw [view_addWraps]
  rfl

theorem view_record (c : Context) (fields : List (String × Syntax)) :
    (record c fields).view =
      .record (fields.map fun field => (field.1, (field.2.addWraps c.wraps).view)) := by
  rw [view, spread_record, FormTree.settled, FormTree.map_record, List.map_map]
  refine congrArg _ (List.map_congr_left fun field _ => ?_)
  rw [view_addWraps]
  rfl

/-- A wrap on a form is seen on each of its atoms. -/
theorem view_addWrap (wrap : Wrap) (stx : Syntax) : (stx.addWrap wrap).view = stx.view.push wrap := by
  rw [view, settled_spread_addWrap, ← FormTree.settled_prepend_settled, view, FormTree.push]
  simp only [FormTree.settled, FormTree.prepend, FormTree.map_map]
  congr 1
  funext a
  simp only [Function.comp_apply, ContextAtom.settle, ContextAtom.prepend, ContextAtom.push,
    List.singleton_append, cancelled_cons, cancelled_cancelled]

/-- No mark meets itself in a view. -/
theorem view_reduced (stx : Syntax) : stx.view.All fun a => Reduced a.wraps := by
  rw [view]
  have hall : stx.spread.All fun _ => True := by
    induction stx.spread using FormTree.partsInduction with
    | leaf a => exact .leaf trivial
    | group shape items ih => exact .group ih
    | record fields ih => exact .record ih
  exact hall.map fun a _ => reduced_cancelled a.wraps

theorem view_unlabelled (stx : Syntax) : stx.unlabelled.view = stx.view := by
  have hspread : stx.unlabelled.spread = stx.spread := by
    induction stx using partsInduction with
    | atom c a => simp
    | group c shape items ih =>
        rw [unlabelled_group, spread_group, spread_group, List.map_map]
        refine congrArg _ (List.map_congr_left fun stx hstx => ?_)
        rw [Function.comp_apply, ih stx hstx]
    | record c fields ih =>
        rw [unlabelled_record, spread_record, spread_record, List.map_map]
        refine congrArg _ (List.map_congr_left fun field hfield => ?_)
        rw [Function.comp_apply, ih field hfield]
  rw [view, hspread, view]

/-- Labels are not seen. -/
theorem view_stamp (stx : Syntax) (next : Nat) : (stx.stamp next).1.view = stx.view := by
  rw [← view_unlabelled, unlabelled_stamp, view_unlabelled]

theorem view_sexp (items : List Syntax) (span : Option Span) :
    (sexp items span).view = .group .sexp (items.map view) := by
  rw [sexp, view_group]
  rfl

theorem isSexp_view (stx : Syntax) : stx.view.isSexp = stx.isSexp := by
  cases stx with
  | atom c a => simp [FormTree.isSexp, isSexp]
  | group c shape items => cases shape <;> simp [view_group, FormTree.isSexp, isSexp]
  | record c fields => simp [view_record, FormTree.isSexp, isSexp]

theorem subforms?_of_not_isSexp {stx : Syntax} (h : stx.isSexp = false) : stx.subforms? = none := by
  match stx, h with
  | atom _ _, _ => rfl
  | group _ .list _, _ => rfl
  | record _ _, _ => rfl

/-- No binding is recorded on the form or inside it. -/
def Bare (stx : Syntax) : Prop := stx.Carries (fun _ => True) fun _ => False

theorem Bare.binding {stx : Syntax} (h : stx.Bare) : stx.context.binding = none := by
  cases hbinding : stx.context.binding with
  | none => rfl
  | some b => exact (Carries.binding h b hbinding).elim

theorem Bare.addWrap {stx : Syntax} (h : stx.Bare) (wrap : Wrap) : (stx.addWrap wrap).Bare :=
  Carries.addWrap h trivial

theorem Bare.group {items : List Syntax} (span : Option Span) (shape : Shape)
    (h : ∀ stx ∈ items, stx.Bare) : (Syntax.group { span } shape items).Bare :=
  Carries.group (by simp) (by simp) h

theorem Bare.record {fields : List (String × Syntax)} (span : Option Span)
    (h : ∀ field ∈ fields, field.2.Bare) : (Syntax.record { span } fields).Bare :=
  Carries.record (by simp) (by simp) h

/-- What is seen as a sequence is one, and its parts are seen as the parts. -/
theorem Bare.exists_parts {stx : Syntax} {shape : Shape} {items : List ContextTree}
    (hbare : stx.Bare) (hview : stx.view = .group shape items) :
    ∃ c raw, stx = .group c shape raw ∧ (raw.map (addWraps c.wraps)).map view = items ∧
      ∀ part ∈ raw.map (addWraps c.wraps), part.Bare := by
  cases stx with
  | atom c a => simp at hview
  | group c shape' raw =>
      rw [view_group, FormTree.group.injEq] at hview
      obtain ⟨rfl, rfl⟩ := hview
      refine ⟨c, raw, rfl, by simp, fun part hpart => ?_⟩
      cases hbare with
      | group _ _ hitems =>
          obtain ⟨item, hitem, rfl⟩ := List.mem_map.1 hpart
          exact Carries.addWraps (hitems item hitem) fun _ _ => trivial
  | record c fields => simp [view_record] at hview

/-- What is seen as a record is one, with the fields that are seen. -/
theorem Bare.exists_fields {stx : Syntax} {items : List (String × ContextTree)}
    (hbare : stx.Bare) (hview : stx.view = .record items) :
    ∃ c raw found, stx = .record c raw ∧ stx.fields? = some found ∧
      (found.map fun field => (field.1, field.2.view)) = items ∧
      ∀ field ∈ found, field.2.Bare := by
  cases stx with
  | atom c a => simp at hview
  | group c shape raw => simp [view_group] at hview
  | record c raw =>
      rw [view_record, FormTree.record.injEq] at hview
      exact ⟨c, raw, _, rfl, rfl, by rw [← hview, List.map_map]; rfl, hbare.fields? rfl⟩

end Syntax

/-! ## Identifiers in a view -/

namespace Spaces

/-- What an atom with its whole context resolves to. -/
def leafBinding (spaces : Spaces) (a : ContextAtom) : Option Binding :=
  match a.symbol? with
  | some name => (spaces.resolveWraps name none a.wraps).1
  | none => none

/-- The value that an atom at the head of a form has. -/
def leafValue? (spaces : Spaces) (a : ContextAtom) : Option Value :=
  match spaces.leafBinding a with
  | some (.cell c) => spaces.lookup? (.cell c)
  | _ => none

/-- The key under which a binding form binds an identifier. -/
def leafKey (spaces : Spaces) (a : ContextAtom) : Key :=
  let name := a.symbol?.getD ""
  ⟨name, (spaces.leafBinding a).getD (.free name), wrapMarks a.wraps⟩

end Spaces

namespace Syntax

theorem view_eq_leaf {stx : Syntax} {a : ContextAtom} (h : stx.view = .leaf a) :
    ∃ c, stx = .atom c a.data ∧ a.wraps = cancelled c.wraps := by
  cases stx with
  | atom c d =>
      rw [view_atom, FormTree.leaf.injEq] at h
      subst h
      exact ⟨c, rfl, rfl⟩
  | group c shape items => simp [view_group] at h
  | record c fields => simp [view_record] at h

theorem symbol?_of_view {stx : Syntax} {a : ContextAtom} (h : stx.view = .leaf a) :
    stx.symbol? = a.symbol? := by
  obtain ⟨c, rfl, -⟩ := view_eq_leaf h
  cases hdata : a.data <;> simp [symbol?, ContextAtom.symbol?, hdata]

theorem isIdentifier_of_view {stx : Syntax} {a : ContextAtom} (h : stx.view = .leaf a) :
    stx.isIdentifier = a.symbol?.isSome := by
  rw [isIdentifier, symbol?_of_view h]

theorem resolveWithMarks_of_view {stx : Syntax} {a : ContextAtom} (h : stx.view = .leaf a)
    {name : String} (hname : a.symbol? = some name) (spaces : Spaces) :
    spaces.resolveWithMarks stx = spaces.resolveWraps name none a.wraps := by
  have hstx : stx.symbol? = some name := (symbol?_of_view h).trans hname
  obtain ⟨c, rfl, hwraps⟩ := view_eq_leaf h
  rw [Spaces.resolveWithMarks, hstx, hwraps, Spaces.resolveWraps_cancelled]
  rfl

/-- An identifier resolves as it is seen. -/
theorem Bare.resolve {stx : Syntax} {a : ContextAtom} (hbare : stx.Bare) (h : stx.view = .leaf a)
    (spaces : Spaces) : spaces.resolve stx = spaces.leafBinding a := by
  rw [Spaces.resolve_of_binding_eq_none hbare.binding, Spaces.leafBinding]
  cases hname : a.symbol? with
  | none => simp [Spaces.resolveWithMarks, symbol?_of_view h, hname]
  | some name => simp [resolveWithMarks_of_view h hname]

theorem bindingKey_of_view {stx : Syntax} {a : ContextAtom} (h : stx.view = .leaf a)
    {name : String} (hname : a.symbol? = some name) (spaces : Spaces) :
    spaces.bindingKey stx name = spaces.leafKey a := by
  simp only [Spaces.bindingKey, resolveWithMarks_of_view h hname, Spaces.leafKey, Spaces.leafBinding,
    hname, Option.getD_some, Spaces.resolveWraps_marks]

/-- The value of a form at the head of another, as it is seen. -/
theorem Bare.headValue? {stx : Syntax} {a : ContextAtom} (hbare : stx.Bare)
    (h : stx.view = .leaf a) (spaces : Spaces) :
    HygienicLisp.headValue? spaces stx = spaces.leafValue? a := by
  rw [HygienicLisp.headValue?, Spaces.leafValue?, hbare.resolve h spaces]
  cases hname : a.symbol? with
  | none =>
      have hbinding : spaces.leafBinding a = none := by simp [Spaces.leafBinding, hname]
      simp [isIdentifier, symbol?_of_view h, hname, hbinding]
  | some name =>
      have hid : stx.isIdentifier = true := by
        rw [isIdentifier, symbol?_of_view h, hname, Option.isSome_some]
      refine (if_pos hid).trans ?_
      rcases spaces.leafBinding a with - | (name | v | c) <;> rfl

end Syntax

/-! ## Two spellings of a form -/

/-- Two forms of the same shape, as one tree with the atoms of both. -/
abbrev TwinTree := FormTree (ContextAtom × ContextAtom)

namespace FormTree

/-- The first of the two forms. -/
def left (T : TwinTree) : ContextTree := T.map Prod.fst

/-- The second of the two forms. -/
def right (T : TwinTree) : ContextTree := T.map Prod.snd

/-- Places a rib around each of the two forms. -/
def under (r : Rib × Rib) (T : TwinTree) : TwinTree :=
  T.map fun a => (a.1.push (.rename r.1), a.2.push (.rename r.2))

theorem left_under (r : Rib × Rib) (T : TwinTree) :
    (T.under r).left = T.left.push (.rename r.1) := by
  simp only [left, under, push, map_map]
  rfl

theorem right_under (r : Rib × Rib) (T : TwinTree) :
    (T.under r).right = T.right.push (.rename r.2) := by
  simp only [right, under, push, map_map]
  rfl

end FormTree

/-- The forms are the two sides of the tree, and no binding is recorded on them. -/
structure Spells (T : TwinTree) (stx₁ stx₂ : Syntax) : Prop where
  bare₁ : stx₁.Bare
  bare₂ : stx₂.Bare
  left : stx₁.view = T.left
  right : stx₂.view = T.right

/-- The forms are, one by one, the two sides of the trees. -/
inductive SpellsAll : List TwinTree → List Syntax → List Syntax → Prop
  | nil : SpellsAll [] [] []
  | cons {T : TwinTree} {Ts : List TwinTree} {stx₁ stx₂ : Syntax} {rest₁ rest₂ : List Syntax}
      (head : Spells T stx₁ stx₂) (tail : SpellsAll Ts rest₁ rest₂) :
      SpellsAll (T :: Ts) (stx₁ :: rest₁) (stx₂ :: rest₂)

/-- The fields have the same keys and are, one by one, the two sides of the trees. -/
inductive SpellsFields :
    List (String × TwinTree) → List (String × Syntax) → List (String × Syntax) → Prop
  | nil : SpellsFields [] [] []
  | cons {key : String} {T : TwinTree} {Ts : List (String × TwinTree)} {stx₁ stx₂ : Syntax}
      {rest₁ rest₂ : List (String × Syntax)} (head : Spells T stx₁ stx₂)
      (tail : SpellsFields Ts rest₁ rest₂) :
      SpellsFields ((key, T) :: Ts) ((key, stx₁) :: rest₁) ((key, stx₂) :: rest₂)

namespace SpellsAll

variable {Ts : List TwinTree} {forms₁ forms₂ : List Syntax}

theorem of_views (hbare₁ : ∀ stx ∈ forms₁, stx.Bare) (hbare₂ : ∀ stx ∈ forms₂, stx.Bare)
    (hleft : forms₁.map Syntax.view = Ts.map .left) (hright : forms₂.map Syntax.view = Ts.map .right) :
    SpellsAll Ts forms₁ forms₂ := by
  induction Ts generalizing forms₁ forms₂ with
  | nil =>
      obtain rfl : forms₁ = [] := by simpa using hleft
      obtain rfl : forms₂ = [] := by simpa using hright
      exact .nil
  | cons T Ts ih =>
      obtain ⟨stx₁, rest₁, rfl, hstx₁, hrest₁⟩ := List.map_eq_cons_iff.1 hleft
      obtain ⟨stx₂, rest₂, rfl, hstx₂, hrest₂⟩ := List.map_eq_cons_iff.1 hright
      obtain ⟨hb₁, hbare₁⟩ := List.forall_mem_cons.1 hbare₁
      obtain ⟨hb₂, hbare₂⟩ := List.forall_mem_cons.1 hbare₂
      exact .cons ⟨hb₁, hb₂, hstx₁, hstx₂⟩ (ih hbare₁ hbare₂ hrest₁ hrest₂)

theorem length₁ (h : SpellsAll Ts forms₁ forms₂) : forms₁.length = Ts.length := by
  induction h with
  | nil => rfl
  | cons _ _ ih => simp [ih]

theorem length₂ (h : SpellsAll Ts forms₁ forms₂) : forms₂.length = Ts.length := by
  induction h with
  | nil => rfl
  | cons _ _ ih => simp [ih]

theorem views (h : SpellsAll Ts forms₁ forms₂) :
    forms₁.map Syntax.view = Ts.map .left ∧ forms₂.map Syntax.view = Ts.map .right := by
  induction h with
  | nil => exact ⟨rfl, rfl⟩
  | cons head _ ih => simp [head.left, head.right, ih]

theorem bare (h : SpellsAll Ts forms₁ forms₂) :
    (∀ stx ∈ forms₁, stx.Bare) ∧ ∀ stx ∈ forms₂, stx.Bare := by
  induction h with
  | nil => simp
  | cons head _ ih =>
      exact ⟨List.forall_mem_cons.2 ⟨head.bare₁, ih.1⟩, List.forall_mem_cons.2 ⟨head.bare₂, ih.2⟩⟩

theorem drop (h : SpellsAll Ts forms₁ forms₂) (n : Nat) :
    SpellsAll (Ts.drop n) (forms₁.drop n) (forms₂.drop n) := by
  induction h generalizing n with
  | nil => simpa using nil
  | cons head tail ih =>
      cases n with
      | zero => exact .cons head tail
      | succ n => simpa using ih n

/-- Each of the trees is spelled by a form on either side. -/
theorem exists_mem (h : SpellsAll Ts forms₁ forms₂) {T : TwinTree} (hT : T ∈ Ts) :
    ∃ stx₁ ∈ forms₁, ∃ stx₂ ∈ forms₂, Spells T stx₁ stx₂ := by
  induction h with
  | nil => cases hT
  | cons head _ ih =>
      rcases List.mem_cons.1 hT with rfl | hT
      · exact ⟨_, List.mem_cons_self, _, List.mem_cons_self, head⟩
      · obtain ⟨stx₁, h₁, stx₂, h₂, hspells⟩ := ih hT
        exact ⟨stx₁, List.mem_cons_of_mem _ h₁, stx₂, List.mem_cons_of_mem _ h₂, hspells⟩

end SpellsAll

namespace Spells

variable {T : TwinTree} {stx₁ stx₂ : Syntax}

/-- The two sides inside the scope of a pair of ribs. -/
theorem under (h : Spells T stx₁ stx₂) (r : Rib × Rib) :
    Spells (T.under r) (stx₁.addWrap (.rename r.1)) (stx₂.addWrap (.rename r.2)) where
  bare₁ := h.bare₁.addWrap _
  bare₂ := h.bare₂.addWrap _
  left := by rw [Syntax.view_addWrap, h.left, FormTree.left_under]
  right := by rw [Syntax.view_addWrap, h.right, FormTree.right_under]

theorem isSexp (h : Spells T stx₁ stx₂) : stx₁.isSexp = T.isSexp ∧ stx₂.isSexp = T.isSexp := by
  rw [← Syntax.isSexp_view, ← Syntax.isSexp_view, h.left, h.right, FormTree.left, FormTree.right,
    FormTree.isSexp_map, FormTree.isSexp_map]
  exact ⟨rfl, rfl⟩

theorem leaf {a : ContextAtom × ContextAtom} (h : Spells (.leaf a) stx₁ stx₂) :
    stx₁.view = .leaf a.1 ∧ stx₂.view = .leaf a.2 := by
  refine ⟨h.left.trans ?_, h.right.trans ?_⟩
  · rw [FormTree.left, FormTree.map_leaf]
  · rw [FormTree.right, FormTree.map_leaf]

theorem group {Ts : List TwinTree} {forms₁ forms₂ : List Syntax} (h : SpellsAll Ts forms₁ forms₂)
    (span₁ span₂ : Option Span) (shape : Shape) :
    Spells (.group shape Ts) (.group { span := span₁ } shape forms₁)
      (.group { span := span₂ } shape forms₂) where
  bare₁ := .group span₁ shape h.bare.1
  bare₂ := .group span₂ shape h.bare.2
  left := by
    rw [Syntax.view_group, FormTree.left, FormTree.map_group]
    exact congrArg _ h.views.1
  right := by
    rw [Syntax.view_group, FormTree.right, FormTree.map_group]
    exact congrArg _ h.views.2

theorem rebuildSexp {Ts : List TwinTree} {forms₁ forms₂ : List Syntax}
    (h : SpellsAll Ts forms₁ forms₂) (site₁ site₂ : Syntax) :
    Spells (.group .sexp Ts) (site₁.rebuildSexp forms₁) (site₂.rebuildSexp forms₂) :=
  group h _ _ _

theorem record {Ts : List (String × TwinTree)} {fields₁ fields₂ : List (String × Syntax)}
    (h : SpellsFields Ts fields₁ fields₂) (span₁ span₂ : Option Span) :
    Spells (.record Ts) (.record { span := span₁ } fields₁) (.record { span := span₂ } fields₂) := by
  have hviews : (fields₁.map fun field => (field.1, field.2.view)) =
        Ts.map (fun field => (field.1, field.2.left)) ∧
      (fields₂.map fun field => (field.1, field.2.view)) =
        Ts.map (fun field => (field.1, field.2.right)) ∧
      (∀ field ∈ fields₁, field.2.Bare) ∧ ∀ field ∈ fields₂, field.2.Bare := by
    induction h with
    | nil => simp
    | cons head _ ih =>
        obtain ⟨hleft, hright, hbare₁, hbare₂⟩ := ih
        simp only [List.map_cons, hleft, hright, head.left, head.right, true_and]
        exact ⟨List.forall_mem_cons.2 ⟨head.bare₁, hbare₁⟩,
          List.forall_mem_cons.2 ⟨head.bare₂, hbare₂⟩⟩
  obtain ⟨hleft, hright, hbare₁, hbare₂⟩ := hviews
  refine ⟨.record span₁ hbare₁, .record span₂ hbare₂, ?_, ?_⟩
  · rw [Syntax.view_record, FormTree.left, FormTree.map_record]
    exact congrArg _ hleft
  · rw [Syntax.view_record, FormTree.right, FormTree.map_record]
    exact congrArg _ hright

/-- The parts of two spellings of a sequence are spellings of its parts. -/
theorem parts {shape : Shape} {Ts : List TwinTree} (h : Spells (.group shape Ts) stx₁ stx₂) :
    ∃ c₁ items₁ c₂ items₂, stx₁ = .group c₁ shape items₁ ∧ stx₂ = .group c₂ shape items₂ ∧
      SpellsAll Ts (items₁.map (.addWraps c₁.wraps)) (items₂.map (.addWraps c₂.wraps)) := by
  obtain ⟨hbare₁, hbare₂, hleft, hright⟩ := h
  rw [FormTree.left, FormTree.map_group] at hleft
  rw [FormTree.right, FormTree.map_group] at hright
  obtain ⟨c₁, items₁, rfl, hviews₁, hparts₁⟩ := hbare₁.exists_parts hleft
  obtain ⟨c₂, items₂, rfl, hviews₂, hparts₂⟩ := hbare₂.exists_parts hright
  exact ⟨c₁, items₁, c₂, items₂, rfl, rfl, .of_views hparts₁ hparts₂ hviews₁ hviews₂⟩

theorem subforms {Ts : List TwinTree} (h : Spells (.group .sexp Ts) stx₁ stx₂) :
    ∃ parts₁ parts₂, stx₁.subforms? = some parts₁ ∧ stx₂.subforms? = some parts₂ ∧
      SpellsAll Ts parts₁ parts₂ := by
  obtain ⟨c₁, items₁, c₂, items₂, rfl, rfl, hall⟩ := h.parts
  exact ⟨_, _, rfl, rfl, hall⟩

/-- Spellings of a tree that is no sexp have no subforms. -/
theorem subforms?_eq_none (h : Spells T stx₁ stx₂) (hT : T.isSexp = false) :
    stx₁.subforms? = none ∧ stx₂.subforms? = none :=
  ⟨Syntax.subforms?_of_not_isSexp (h.isSexp.1.trans hT),
    Syntax.subforms?_of_not_isSexp (h.isSexp.2.trans hT)⟩

/-- Two spellings of a sexp of two trees. -/
theorem pair {first second : TwinTree} (h : Spells (.group .sexp [first, second]) stx₁ stx₂) :
    ∃ a₁ b₁ a₂ b₂, stx₁.subforms = [a₁, b₁] ∧ stx₂.subforms = [a₂, b₂] ∧
      Spells first a₁ a₂ ∧ Spells second b₁ b₂ := by
  obtain ⟨parts₁, parts₂, h₁, h₂, hall⟩ := h.subforms
  rw [Syntax.subforms, Syntax.subforms, h₁, h₂]
  cases hall with
  | cons hfirst hrest =>
      cases hrest with
      | cons hsecond hnil =>
          cases hnil with
          | nil => exact ⟨_, _, _, _, rfl, rfl, hfirst, hsecond⟩

/-- A tree with a spelling of two subforms is a sexp of two trees. -/
theorem exists_pair (h : Spells T stx₁ stx₂)
    (hlength : stx₁.subforms.length = 2 ∨ stx₂.subforms.length = 2) :
    ∃ first second, T = .group .sexp [first, second] := by
  cases hT : T.isSexp with
  | false =>
      obtain ⟨h₁, h₂⟩ := h.subforms?_eq_none hT
      rw [Syntax.subforms, Syntax.subforms, h₁, h₂] at hlength
      simp at hlength
  | true =>
      obtain ⟨Ts, rfl⟩ := FormTree.exists_group_of_isSexp hT
      obtain ⟨parts₁, parts₂, h₁, h₂, hall⟩ := h.subforms
      rw [Syntax.subforms, Syntax.subforms, h₁, h₂, Option.getD_some, Option.getD_some,
        hall.length₁, hall.length₂, or_self] at hlength
      obtain ⟨first, second, rfl⟩ := List.length_eq_two.1 hlength
      exact ⟨first, second, rfl⟩

/-- Two spellings of a record have the same keys. -/
theorem fields {Ts : List (String × TwinTree)} (h : Spells (.record Ts) stx₁ stx₂) :
    ∃ c₁ raw₁ c₂ raw₂ fields₁ fields₂, stx₁ = .record c₁ raw₁ ∧ stx₂ = .record c₂ raw₂ ∧
      stx₁.fields? = some fields₁ ∧ stx₂.fields? = some fields₂ ∧
      SpellsFields Ts fields₁ fields₂ := by
  obtain ⟨hbare₁, hbare₂, hleft, hright⟩ := h
  rw [FormTree.left, FormTree.map_record] at hleft
  rw [FormTree.right, FormTree.map_record] at hright
  obtain ⟨c₁, raw₁, fields₁, hstx₁, hfields₁, hviews₁, hb₁⟩ := hbare₁.exists_fields hleft
  obtain ⟨c₂, raw₂, fields₂, hstx₂, hfields₂, hviews₂, hb₂⟩ := hbare₂.exists_fields hright
  refine ⟨c₁, raw₁, c₂, raw₂, fields₁, fields₂, hstx₁, hstx₂, hfields₁, hfields₂, ?_⟩
  clear hfields₁ hfields₂ hleft hright hstx₁ hstx₂
  induction Ts generalizing fields₁ fields₂ with
  | nil =>
      obtain rfl : fields₁ = [] := by simpa using hviews₁
      obtain rfl : fields₂ = [] := by simpa using hviews₂
      exact .nil
  | cons T Ts ih =>
      obtain ⟨⟨key₁, f₁⟩, rest₁, rfl, hf₁, hrest₁⟩ := List.map_eq_cons_iff.1 hviews₁
      obtain ⟨⟨key₂, f₂⟩, rest₂, rfl, hf₂, hrest₂⟩ := List.map_eq_cons_iff.1 hviews₂
      obtain ⟨key, T⟩ := T
      obtain ⟨rfl, hl⟩ := Prod.mk.inj hf₁
      obtain ⟨rfl, hr⟩ := Prod.mk.inj hf₂
      obtain ⟨hbf₁, hb₁⟩ := List.forall_mem_cons.1 hb₁
      obtain ⟨hbf₂, hb₂⟩ := List.forall_mem_cons.1 hb₂
      exact .cons ⟨hbf₁, hbf₂, hl, hr⟩ (ih rest₁ hrest₁ hb₁ rest₂ hrest₂ hb₂)

end Spells

/-- The two sides of several forms inside the scope of a pair of ribs. -/
theorem SpellsAll.under {Ts : List TwinTree} {forms₁ forms₂ : List Syntax}
    (h : SpellsAll Ts forms₁ forms₂) (r : Rib × Rib) :
    SpellsAll (Ts.map (.under r)) (forms₁.map (.addWrap (.rename r.1)))
      (forms₂.map (.addWrap (.rename r.2))) := by
  induction h with
  | nil => exact .nil
  | cons head _ ih => exact .cons (head.under r) ih

end HygienicLisp
