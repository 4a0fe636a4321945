import HygienicLisp.Proofs.WrapChain

/-!
# Pushing context down late is pushing it down at once

A syntax object keeps the wraps of a container on the container until its parts are
extracted, and drops a mark that meets itself.  The plain representation does neither:
`FormTree ContextAtom` has no context on containers, every atom holds the whole chain of
wraps that were ever placed on it or around it, and nothing cancels.

`spread` writes the context of a syntax object out in this way.  Each operation on syntax
objects is the operation of the plain representation up to cancellation
(`settled_spread_addWraps`, `settled_spread_of?`), so whatever is built from forms by
wrapping, taking parts and putting parts together again (`History`) ends with
identifiers that resolve as the plain representation has it.
-/

namespace HygienicLisp

/-- The shape of a form, with something at each atom. -/
inductive FormTree (α : Type) where
  | leaf (a : α)
  | group (shape : Shape) (items : List (FormTree α))
  | record (fields : List (String × FormTree α))

namespace FormTree

variable {α β γ : Type}

mutual

/-- Changes what stands at the atoms. -/
def map (f : α → β) : FormTree α → FormTree β
  | leaf a => leaf (f a)
  | group shape items => group shape (mapAll f items)
  | record fields => record (mapFields f fields)

/-- `map` on every tree of a sequence. -/
def mapAll (f : α → β) : List (FormTree α) → List (FormTree β)
  | [] => []
  | t :: rest => t.map f :: mapAll f rest

/-- `map` on every field of a record. -/
def mapFields (f : α → β) : List (String × FormTree α) → List (String × FormTree β)
  | [] => []
  | (key, t) :: rest => (key, t.map f) :: mapFields f rest

end

theorem mapAll_eq (f : α → β) (items : List (FormTree α)) : mapAll f items = items.map (map f) := by
  induction items with
  | nil => rfl
  | cons t rest ih => simp [mapAll, ih]

theorem mapFields_eq (f : α → β) (fields : List (String × FormTree α)) :
    mapFields f fields = fields.map fun field => (field.1, field.2.map f) := by
  induction fields with
  | nil => rfl
  | cons field rest ih => simp [mapFields, ih]

@[simp] theorem map_leaf (f : α → β) (a : α) : (leaf a).map f = leaf (f a) := by
  rw [map]

@[simp] theorem map_group (f : α → β) (shape : Shape) (items : List (FormTree α)) :
    (group shape items).map f = group shape (items.map (map f)) := by
  rw [map, mapAll_eq]

@[simp] theorem map_record (f : α → β) (fields : List (String × FormTree α)) :
    (record fields).map f = record (fields.map fun field => (field.1, field.2.map f)) := by
  rw [map, mapFields_eq]

mutual

theorem map_map (g : β → γ) (f : α → β) : ∀ t : FormTree α, (t.map f).map g = t.map (g ∘ f)
  | leaf a => by simp
  | group shape items => by
      rw [map, map, map, mapAll_mapAll]
  | record fields => by
      rw [map, map, map, mapFields_mapFields]

theorem mapAll_mapAll (g : β → γ) (f : α → β) :
    ∀ items : List (FormTree α), mapAll g (mapAll f items) = mapAll (g ∘ f) items
  | [] => rfl
  | t :: rest => by rw [mapAll, mapAll, mapAll, map_map g f t, mapAll_mapAll g f rest]

theorem mapFields_mapFields (g : β → γ) (f : α → β) :
    ∀ fields : List (String × FormTree α), mapFields g (mapFields f fields) = mapFields (g ∘ f) fields
  | [] => rfl
  | (key, t) :: rest => by
      rw [mapFields, mapFields, mapFields, map_map g f t, mapFields_mapFields g f rest]

end

end FormTree

/-! ## Forms with their context written out -/

/-- An atom with its whole context, newest wrap first. -/
structure ContextAtom where
  wraps : List Wrap
  data : Atom

namespace ContextAtom

/-- Puts newer wraps in front, without cancellation. -/
def prepend (newer : List Wrap) (a : ContextAtom) : ContextAtom := ⟨newer ++ a.wraps, a.data⟩

/-- Takes out adjacent equal marks. -/
def settle (a : ContextAtom) : ContextAtom := ⟨cancelled a.wraps, a.data⟩

end ContextAtom

/-- A form in which every atom has its whole context. -/
abbrev ContextTree := FormTree ContextAtom

namespace FormTree

/-- Places newer wraps around the form. -/
def prepend (newer : List Wrap) (t : ContextTree) : ContextTree := t.map (.prepend newer)

/-- Takes out adjacent equal marks everywhere. -/
def settled (t : ContextTree) : ContextTree := t.map .settle

theorem prepend_prepend (newest newer : List Wrap) (t : ContextTree) :
    (t.prepend newer).prepend newest = t.prepend (newest ++ newer) := by
  rw [prepend, prepend, map_map, prepend]
  congr 1
  funext a
  simp [ContextAtom.prepend]

theorem settled_prepend_nil (t : ContextTree) : (t.prepend []).settled = t.settled := by
  rw [settled, prepend, map_map]
  rfl

/-- Cancellation before wraps are placed around a form makes no difference after it. -/
theorem settled_prepend_settled (newer : List Wrap) (t : ContextTree) :
    (t.settled.prepend newer).settled = (t.prepend newer).settled := by
  simp only [settled, prepend, map_map]
  congr 1
  funext a
  simp [ContextAtom.prepend, ContextAtom.settle,
    cancelled_append_congr newer (cancelled_cancelled a.wraps)]

theorem settled_prepend_congr {t u : ContextTree} (newer : List Wrap) (h : t.settled = u.settled) :
    (t.prepend newer).settled = (u.prepend newer).settled := by
  rw [← settled_prepend_settled, h, settled_prepend_settled]

/-- Chains with the same cancelled form are the same when placed around a form. -/
theorem settled_prepend_of_cancelled_eq {newer newer' : List Wrap}
    (h : cancelled newer = cancelled newer') (t : ContextTree) :
    (t.prepend newer).settled = (t.prepend newer').settled := by
  simp only [settled, prepend, map_map]
  congr 1
  funext a
  simp only [Function.comp_apply, ContextAtom.prepend, ContextAtom.settle]
  rw [← cancelled_cancelled_append, h, cancelled_cancelled_append]

end FormTree

namespace Syntax

mutual

/-- The form with its context written out at the atoms, inside containers that carry the
wraps `outer`. -/
def spreadIn (outer : List Wrap) : Syntax → ContextTree
  | atom c a => .leaf ⟨outer ++ c.wraps, a⟩
  | group c shape items => .group shape (spreadAll (outer ++ c.wraps) items)
  | record c fields => .record (spreadFields (outer ++ c.wraps) fields)

/-- `spreadIn` on every form of a sequence. -/
def spreadAll (outer : List Wrap) : List Syntax → List ContextTree
  | [] => []
  | stx :: rest => stx.spreadIn outer :: spreadAll outer rest

/-- `spreadIn` on every field of a record. -/
def spreadFields (outer : List Wrap) : List (String × Syntax) → List (String × ContextTree)
  | [] => []
  | (key, stx) :: rest => (key, stx.spreadIn outer) :: spreadFields outer rest

end

/-- The form with its context written out at the atoms. -/
def spread (stx : Syntax) : ContextTree := stx.spreadIn []

mutual

theorem spreadIn_append (newer outer : List Wrap) :
    ∀ stx : Syntax, stx.spreadIn (newer ++ outer) = (stx.spreadIn outer).prepend newer
  | atom c a => by simp [spreadIn, FormTree.prepend, ContextAtom.prepend]
  | group c shape items => by
      rw [spreadIn, spreadIn, List.append_assoc, spreadAll_append, FormTree.prepend,
        FormTree.map]
  | record c fields => by
      rw [spreadIn, spreadIn, List.append_assoc, spreadFields_append, FormTree.prepend,
        FormTree.map]

theorem spreadAll_append (newer outer : List Wrap) : ∀ items : List Syntax,
    spreadAll (newer ++ outer) items = FormTree.mapAll (.prepend newer) (spreadAll outer items)
  | [] => rfl
  | stx :: rest => by
      rw [spreadAll, spreadAll, FormTree.mapAll, spreadIn_append newer outer stx,
        spreadAll_append newer outer rest]
      rfl

theorem spreadFields_append (newer outer : List Wrap) : ∀ fields : List (String × Syntax),
    spreadFields (newer ++ outer) fields =
      FormTree.mapFields (.prepend newer) (spreadFields outer fields)
  | [] => rfl
  | (key, stx) :: rest => by
      rw [spreadFields, spreadFields, FormTree.mapFields, spreadIn_append newer outer stx,
        spreadFields_append newer outer rest]
      rfl

end

theorem spreadIn_eq (outer : List Wrap) (stx : Syntax) :
    stx.spreadIn outer = stx.spread.prepend outer := by
  rw [spread, ← spreadIn_append, List.append_nil]

theorem spreadAll_eq (outer : List Wrap) (items : List Syntax) :
    spreadAll outer items = items.map fun stx => stx.spread.prepend outer := by
  induction items with
  | nil => rfl
  | cons stx rest ih => simp [spreadAll, ih, spreadIn_eq]

theorem spreadFields_eq (outer : List Wrap) (fields : List (String × Syntax)) :
    spreadFields outer fields =
      fields.map fun field => (field.1, field.2.spread.prepend outer) := by
  induction fields with
  | nil => rfl
  | cons field rest ih => simp [spreadFields, ih, spreadIn_eq]

@[simp] theorem spread_atom (c : Context) (a : Atom) : (atom c a).spread = .leaf ⟨c.wraps, a⟩ := by
  rw [spread, spreadIn, List.nil_append]

@[simp] theorem spread_group (c : Context) (shape : Shape) (items : List Syntax) :
    (group c shape items).spread =
      .group shape (items.map fun stx => stx.spread.prepend c.wraps) := by
  rw [spread, spreadIn, List.nil_append, spreadAll_eq]

@[simp] theorem spread_record (c : Context) (fields : List (String × Syntax)) :
    (record c fields).spread =
      .record (fields.map fun field => (field.1, field.2.spread.prepend c.wraps)) := by
  rw [spread, spreadIn, List.nil_append, spreadFields_eq]

/-! ## Operations on forms, up to cancellation -/

@[simp] theorem wraps_addWrap (wrap : Wrap) (stx : Syntax) :
    (stx.addWrap wrap).wraps = pushWrap wrap stx.wraps := by
  cases stx <;> rfl

@[simp] theorem symbol?_addWrap (wrap : Wrap) (stx : Syntax) :
    (stx.addWrap wrap).symbol? = stx.symbol? := by
  cases stx with
  | atom c a => cases a <;> rfl
  | group c shape items => rfl
  | record c fields => rfl

@[simp] theorem binding_addWrap (wrap : Wrap) (stx : Syntax) :
    (stx.addWrap wrap).context.binding = none := by
  cases stx <;> rfl

theorem addWraps_cons (wrap : Wrap) (newer : List Wrap) (stx : Syntax) :
    stx.addWraps (wrap :: newer) = (stx.addWraps newer).addWrap wrap := rfl

theorem settled_spread_addWrap (wrap : Wrap) (stx : Syntax) :
    (stx.addWrap wrap).spread.settled = (stx.spread.prepend [wrap]).settled := by
  have hwraps (older : List Wrap) : cancelled (pushWrap wrap older) = cancelled ([wrap] ++ older) := by
    simp
  cases stx with
  | atom c a =>
      simp only [addWrap, context, setContext, spread_atom, FormTree.settled, FormTree.prepend,
        FormTree.map_leaf, ContextAtom.prepend, ContextAtom.settle, hwraps]
  | group c shape items =>
      simp only [addWrap, context, setContext, spread_group, FormTree.settled, FormTree.prepend,
        FormTree.map_group, List.map_map]
      refine congrArg _ (List.map_congr_left fun stx _ => ?_)
      have h := FormTree.settled_prepend_of_cancelled_eq (hwraps c.wraps) stx.spread
      rwa [← FormTree.prepend_prepend] at h
  | record c fields =>
      simp only [addWrap, context, setContext, spread_record, FormTree.settled, FormTree.prepend,
        FormTree.map_record, List.map_map]
      refine congrArg _ (List.map_congr_left fun field _ => ?_)
      have h := FormTree.settled_prepend_of_cancelled_eq (hwraps c.wraps) field.2.spread
      rw [← FormTree.prepend_prepend] at h
      exact congrArg (Prod.mk field.1) h

/-- Putting wraps on a form places them, up to cancellation, on each of its atoms. -/
theorem settled_spread_addWraps (newer : List Wrap) (stx : Syntax) :
    (stx.addWraps newer).spread.settled = (stx.spread.prepend newer).settled := by
  induction newer with
  | nil => exact (FormTree.settled_prepend_nil stx.spread).symm
  | cons wrap newer ih =>
      rw [addWraps_cons, settled_spread_addWrap, FormTree.settled_prepend_congr [wrap] ih,
        FormTree.prepend_prepend, List.singleton_append]

end Syntax

/-! ## Parts -/

/-- Which part of a container is taken: a part of a sexp, an element of a list or a field of
a record, by position. -/
inductive Part where
  | subform (i : Nat)
  | element (i : Nat)
  | field (i : Nat)

namespace Part

/-- The part of a form, with the wraps of the container pushed down. -/
def of? (part : Part) (stx : Syntax) : Option Syntax :=
  match part with
  | subform i => stx.subforms?.bind (·[i]?)
  | element i => stx.elements?.bind (·[i]?)
  | field i => stx.fields?.bind fun fields => (fields[i]?).map (·.2)

/-- The part as it sits in the container, without the wraps of the container. -/
def raw? (part : Part) (stx : Syntax) : Option Syntax :=
  match stx, part with
  | .group _ .sexp items, subform i => items[i]?
  | .group _ .list items, element i => items[i]?
  | .record _ fields, field i => (fields[i]?).map (·.2)
  | _, _ => none

/-- The part of a tree. -/
def ofTree? {α : Type} (part : Part) (t : FormTree α) : Option (FormTree α) :=
  match t, part with
  | .group .sexp items, subform i => items[i]?
  | .group .list items, element i => items[i]?
  | .record fields, field i => (fields[i]?).map (·.2)
  | _, _ => none

theorem of?_eq (part : Part) (stx : Syntax) :
    part.of? stx = (part.raw? stx).map (.addWraps stx.wraps) := by
  cases stx with
  | atom c a => cases part <;> rfl
  | group c shape items =>
      cases shape <;> cases part <;> simp [of?, raw?, Syntax.subforms?, Syntax.elements?,
        Syntax.fields?, Syntax.wraps, Syntax.context]
  | record c fields =>
      cases part <;> simp [of?, raw?, Syntax.subforms?, Syntax.elements?, Syntax.fields?,
        Syntax.wraps, Syntax.context, Function.comp_def]

/-- What sits in a container does not depend on its context. -/
theorem raw?_addWrap (part : Part) (wrap : Wrap) (stx : Syntax) :
    part.raw? (stx.addWrap wrap) = part.raw? stx := by
  cases stx with
  | atom c a => cases part <;> rfl
  | group c shape items => cases shape <;> cases part <;> rfl
  | record c fields => cases part <;> rfl

theorem ofTree?_map {α β : Type} (f : α → β) (t : FormTree α) (part : Part) :
    part.ofTree? (t.map f) = (part.ofTree? t).map (FormTree.map f) := by
  cases t with
  | leaf a => cases part <;> simp [ofTree?]
  | group shape items => cases shape <;> cases part <;> simp [ofTree?]
  | record fields => cases part <;> simp [ofTree?, Function.comp_def]

theorem ofTree?_settled (t : ContextTree) (part : Part) :
    part.ofTree? t.settled = (part.ofTree? t).map .settled :=
  ofTree?_map _ t part

theorem ofTree?_spread (stx : Syntax) (part : Part) :
    part.ofTree? stx.spread = (part.raw? stx).map (·.spread.prepend stx.wraps) := by
  cases stx with
  | atom c a => cases part <;> simp [ofTree?, raw?]
  | group c shape items =>
      cases shape <;> cases part <;> simp [ofTree?, raw?, Syntax.wraps, Syntax.context]
  | record c fields =>
      cases part <;> simp [ofTree?, raw?, Syntax.wraps, Syntax.context, Function.comp_def]

/-- Taking a part pushes the context of the container down, up to cancellation. -/
theorem settled_spread_of? (stx : Syntax) (part : Part) :
    (part.of? stx).map (·.spread.settled) = (part.ofTree? stx.spread).map .settled := by
  rw [of?_eq, ofTree?_spread, Option.map_map, Option.map_map]
  refine congrArg (Option.map · _) (funext fun found => ?_)
  exact found.settled_spread_addWraps stx.wraps

end Part

/-! ## Whole constructions -/

/-- A sequence of operations that ends with a form: wraps are placed on forms, parts are taken
out of containers, and forms are put into new containers. -/
inductive History where
  | form (stx : Syntax)
  | addWrap (wrap : Wrap) (h : History)
  | addWraps (newer : List Wrap) (h : History)
  | take (part : Part) (h : History)
  | join (span : Option Span) (shape : Shape) (items : List History)
  | joinFields (span : Option Span) (fields : List (String × History))

namespace History

mutual

/-- The form that the operations on syntax objects end with. -/
def build? : History → Option Syntax
  | form stx => some stx
  | addWrap wrap h => h.build?.map (.addWrap wrap)
  | addWraps newer h => h.build?.map (.addWraps newer)
  | take part h => h.build?.bind part.of?
  | join span shape items => (buildAll? items).map (.group { span } shape)
  | joinFields span fields => (buildFields? fields).map (.record { span })

/-- `build?` on every item of a container. -/
def buildAll? : List History → Option (List Syntax)
  | [] => some []
  | h :: rest => h.build?.bind fun stx => (buildAll? rest).map (stx :: ·)

/-- `build?` on every field of a record. -/
def buildFields? : List (String × History) → Option (List (String × Syntax))
  | [] => some []
  | (key, h) :: rest => h.build?.bind fun stx => (buildFields? rest).map ((key, stx) :: ·)

end

mutual

/-- What the same operations end with in the plain representation. -/
def plain? : History → Option ContextTree
  | form stx => some stx.spread
  | addWrap wrap h => h.plain?.map (.prepend [wrap])
  | addWraps newer h => h.plain?.map (.prepend newer)
  | take part h => h.plain?.bind part.ofTree?
  | join _ shape items => (plainAll? items).map (.group shape)
  | joinFields _ fields => (plainFields? fields).map .record

/-- `plain?` on every item of a container. -/
def plainAll? : List History → Option (List ContextTree)
  | [] => some []
  | h :: rest => h.plain?.bind fun t => (plainAll? rest).map (t :: ·)

/-- `plain?` on every field of a record. -/
def plainFields? : List (String × History) → Option (List (String × ContextTree))
  | [] => some []
  | (key, h) :: rest => h.plain?.bind fun t => (plainFields? rest).map ((key, t) :: ·)

end

/-- A syntax object stands for a tree that is its written-out context up to cancellation. -/
def StandsFor (stx : Syntax) (t : ContextTree) : Prop := stx.spread.settled = t.settled

theorem StandsFor.addWraps {stx : Syntax} {t : ContextTree} (h : StandsFor stx t)
    (newer : List Wrap) : StandsFor (stx.addWraps newer) (t.prepend newer) := by
  rw [StandsFor, Syntax.settled_spread_addWraps]
  exact FormTree.settled_prepend_congr newer h

theorem StandsFor.part {stx : Syntax} {t : ContextTree} (h : StandsFor stx t) (part : Part) :
    Option.Rel StandsFor (part.of? stx) (part.ofTree? t) := by
  have hparts : (part.of? stx).map (·.spread.settled) = (part.ofTree? t).map .settled := by
    rw [Part.settled_spread_of?, ← Part.ofTree?_settled, ← Part.ofTree?_settled]
    exact congrArg part.ofTree? h
  cases hstx : part.of? stx with
  | none =>
      cases ht : part.ofTree? t with
      | none => exact .none
      | some u => simp [hstx, ht] at hparts
  | some found =>
      cases ht : part.ofTree? t with
      | none => simp [hstx, ht] at hparts
      | some u =>
          rw [hstx, ht, Option.map_some, Option.map_some, Option.some_inj] at hparts
          exact .some hparts

/-- A new container has no context, so it stands for the container of what its items stand
for. -/
theorem StandsFor.group {items : List Syntax} {trees : List ContextTree} (span : Option Span)
    (shape : Shape) (h : List.Forall₂ StandsFor items trees) :
    StandsFor (.group { span } shape items) (.group shape trees) := by
  rw [StandsFor, Syntax.spread_group, FormTree.settled, FormTree.settled, FormTree.map_group,
    FormTree.map_group, List.map_map]
  congr 1
  induction h with
  | nil => rfl
  | @cons stx t items trees hst _ ih =>
      rw [List.map_cons, List.map_cons, ih]
      exact congrArg (· :: _) ((FormTree.settled_prepend_nil stx.spread).trans hst)

theorem StandsFor.record {fields : List (String × Syntax)} {trees : List (String × ContextTree)}
    (span : Option Span)
    (h : List.Forall₂ (fun field tree => field.1 = tree.1 ∧ StandsFor field.2 tree.2) fields trees) :
    StandsFor (.record { span } fields) (.record trees) := by
  rw [StandsFor, Syntax.spread_record, FormTree.settled, FormTree.settled, FormTree.map_record,
    FormTree.map_record, List.map_map]
  congr 1
  induction h with
  | nil => rfl
  | @cons field tree fields trees hst _ ih =>
      rw [List.map_cons, List.map_cons, ih]
      refine congrArg (· :: _) (Prod.ext hst.1 ?_)
      exact (FormTree.settled_prepend_nil field.2.spread).trans hst.2

mutual

/-- Every construction ends with a form that stands for the plain one, or fails in both
representations. -/
theorem rel_build?_plain? : ∀ h : History, Option.Rel StandsFor h.build? h.plain?
  | form stx => by
      rw [build?, plain?]
      exact .some rfl
  | addWrap wrap h => by
      rw [build?, plain?]
      match h.build?, h.plain?, rel_build?_plain? h with
      | _, _, .none => exact .none
      | _, _, .some hst => exact .some (hst.addWraps [wrap])
  | addWraps newer h => by
      rw [build?, plain?]
      match h.build?, h.plain?, rel_build?_plain? h with
      | _, _, .none => exact .none
      | _, _, .some hst => exact .some (hst.addWraps newer)
  | take part h => by
      rw [build?, plain?]
      match h.build?, h.plain?, rel_build?_plain? h with
      | _, _, .none => exact .none
      | _, _, .some hst => exact hst.part part
  | join span shape items => by
      rw [build?, plain?]
      match buildAll? items, plainAll? items, rel_buildAll?_plainAll? items with
      | _, _, .none => exact .none
      | _, _, .some hitems => exact .some (.group span shape hitems)
  | joinFields span fields => by
      rw [build?, plain?]
      match buildFields? fields, plainFields? fields, rel_buildFields?_plainFields? fields with
      | _, _, .none => exact .none
      | _, _, .some hfields => exact .some (.record span hfields)

theorem rel_buildAll?_plainAll? : ∀ items : List History,
    Option.Rel (List.Forall₂ StandsFor) (buildAll? items) (plainAll? items)
  | [] => .some .nil
  | h :: rest => by
      rw [buildAll?, plainAll?]
      match h.build?, h.plain?, rel_build?_plain? h with
      | _, _, .none => exact .none
      | _, _, .some hst =>
          match buildAll? rest, plainAll? rest, rel_buildAll?_plainAll? rest with
          | _, _, .none => exact .none
          | _, _, .some hrest => exact .some (.cons hst hrest)

theorem rel_buildFields?_plainFields? : ∀ fields : List (String × History),
    Option.Rel (List.Forall₂ fun field tree => field.1 = tree.1 ∧ StandsFor field.2 tree.2)
      (buildFields? fields) (plainFields? fields)
  | [] => .some .nil
  | (key, h) :: rest => by
      rw [buildFields?, plainFields?]
      match h.build?, h.plain?, rel_build?_plain? h with
      | _, _, .none => exact .none
      | _, _, .some hst =>
          match buildFields? rest, plainFields? rest, rel_buildFields?_plainFields? rest with
          | _, _, .none => exact .none
          | _, _, .some hrest => exact .some (.cons ⟨rfl, hst⟩ hrest)

end

/-- An identifier that stands for a tree stands for a leaf with the same name and, up to
cancellation, the same wraps. -/
theorem StandsFor.identifier {stx : Syntax} {t : ContextTree} {name : String}
    (h : StandsFor stx t) (hname : stx.symbol? = some name) :
    ∃ wraps, t = .leaf ⟨wraps, .symbol name⟩ ∧ cancelled stx.wraps = cancelled wraps := by
  obtain ⟨c, rfl⟩ : ∃ c, stx = .atom c (.symbol name) := by
    cases stx with
    | atom c a => cases a <;> simp_all [Syntax.symbol?]
    | group c shape items => simp [Syntax.symbol?] at hname
    | record c fields => simp [Syntax.symbol?] at hname
  rw [StandsFor, Syntax.spread_atom, FormTree.settled, FormTree.settled, FormTree.map_leaf] at h
  cases t with
  | leaf a =>
      obtain ⟨wraps, data⟩ := a
      rw [FormTree.map_leaf, FormTree.leaf.injEq, ContextAtom.settle, ContextAtom.settle,
        ContextAtom.mk.injEq] at h
      obtain ⟨hwraps, rfl⟩ := h
      exact ⟨wraps, rfl, hwraps⟩
  | group shape items => simp at h
  | record fields => simp at h

/-- Whatever forms were built by wrapping, taking parts and putting parts into new containers,
an identifier at the end has the marks, the binding and, outside each namespace, the binding
that it has when all wraps ever placed on it or around it are kept in its own chain and
nothing cancels.  The plain representation fails exactly where the other one does. -/
theorem resolution_eq_plain (h : History) :
    (h.build? = none ↔ h.plain? = none) ∧
      ∀ stx name, h.build? = some stx → stx.symbol? = some name →
        ∃ wraps, h.plain? = some (.leaf ⟨wraps, .symbol name⟩) ∧
          wrapMarks stx.wraps = wrapMarks wraps ∧
          ∀ spaces : Spaces,
            spaces.resolveWithMarks stx =
              spaces.resolveWithMarks (.atom { wraps } (.symbol name)) ∧
            ∀ ns, spaces.filingKey ns stx name =
              spaces.filingKey ns (.atom { wraps } (.symbol name)) name := by
  have hrel := rel_build?_plain? h
  refine ⟨?_, fun stx name hbuild hname => ?_⟩
  · cases hb : h.build? <;> cases hp : h.plain? <;> simp_all
  · cases hp : h.plain? with
    | none =>
        rw [hbuild, hp] at hrel
        cases hrel
    | some t =>
        rw [hbuild, hp] at hrel
        obtain ⟨hst⟩ := hrel
        obtain ⟨wraps, rfl, hwraps⟩ := hst.identifier hname
        refine ⟨wraps, rfl, wrapMarks_congr hwraps, fun spaces => ⟨?_, fun ns => ?_⟩⟩
        · rw [Spaces.resolveWithMarks, hname]
          exact spaces.resolveWraps_congr name none hwraps
        · rw [Spaces.filingKey, Spaces.filingKey, spaces.resolveWraps_congr name (some ns) hwraps]
          rfl

/-- An identifier whose own mark meets the same mark on the container around it: the two cancel
when it is taken out, and the plain chain keeps both. -/
theorem resolution_eq_plain_of_cancelling_marks :
    let h : History := .take (.subform 0) (.addWrap (.mark 3)
      (.join none .sexp [.addWrap (.mark 3) (.addWrap (.space 0) (.form (.ident "x")))]))
    ∃ stx, h.build? = some stx ∧ stx.wraps = [.space 0] ∧ ∃ wraps,
      h.plain? = some (.leaf ⟨wraps, .symbol "x"⟩) ∧ wraps = [.mark 3, .mark 3, .space 0] ∧
      ∀ spaces : Spaces, spaces.resolveWithMarks stx =
        spaces.resolveWithMarks (.atom { wraps } (.symbol "x")) := by
  intro h
  obtain ⟨wraps, hplain, -, hresolve⟩ := (resolution_eq_plain h).2 _ "x" rfl rfl
  refine ⟨_, rfl, rfl, wraps, hplain, ?_, fun spaces => (hresolve spaces).1⟩
  cases hplain
  rfl

end History

end HygienicLisp
