import HygienicLisp.Proofs.LazyContext

/-!
# Labels

The label of a syntax object says which object it is and nothing else.  `unlabelled` takes
all labels off a form.  Labelling a form changes nothing else about it, and wraps and parts
do not depend on labels.
-/

namespace HygienicLisp

namespace Syntax

mutual

/-- The form without labels. -/
def unlabelled : Syntax → Syntax
  | atom c a => atom { c with label := 0 } a
  | group c shape items => group { c with label := 0 } shape (unlabelledAll items)
  | record c fields => record { c with label := 0 } (unlabelledFields fields)

/-- `unlabelled` on every form of a sequence. -/
def unlabelledAll : List Syntax → List Syntax
  | [] => []
  | stx :: rest => stx.unlabelled :: unlabelledAll rest

/-- `unlabelled` on every field of a record. -/
def unlabelledFields : List (String × Syntax) → List (String × Syntax)
  | [] => []
  | (key, stx) :: rest => (key, stx.unlabelled) :: unlabelledFields rest

end

theorem unlabelledAll_eq (items : List Syntax) : unlabelledAll items = items.map unlabelled := by
  induction items with
  | nil => rfl
  | cons stx rest ih => simp [unlabelledAll, ih]

theorem unlabelledFields_eq (fields : List (String × Syntax)) :
    unlabelledFields fields = fields.map fun field => (field.1, field.2.unlabelled) := by
  induction fields with
  | nil => rfl
  | cons field rest ih => simp [unlabelledFields, ih]

@[simp] theorem unlabelled_atom (c : Context) (a : Atom) :
    (atom c a).unlabelled = atom { c with label := 0 } a := by
  rw [unlabelled]

@[simp] theorem unlabelled_group (c : Context) (shape : Shape) (items : List Syntax) :
    (group c shape items).unlabelled = group { c with label := 0 } shape (items.map unlabelled) := by
  rw [unlabelled, unlabelledAll_eq]

@[simp] theorem unlabelled_record (c : Context) (fields : List (String × Syntax)) :
    (record c fields).unlabelled =
      record { c with label := 0 } (fields.map fun field => (field.1, field.2.unlabelled)) := by
  rw [unlabelled, unlabelledFields_eq]

@[simp] theorem symbol?_unlabelled (stx : Syntax) : stx.unlabelled.symbol? = stx.symbol? := by
  cases stx with
  | atom c a => cases a <;> simp [symbol?]
  | group c shape items => simp [symbol?]
  | record c fields => simp [symbol?]

@[simp] theorem wraps_unlabelled (stx : Syntax) : stx.unlabelled.wraps = stx.wraps := by
  cases stx <;> simp [wraps, context]

@[simp] theorem binding_unlabelled (stx : Syntax) :
    stx.unlabelled.context.binding = stx.context.binding := by
  cases stx <;> simp [context]

theorem unlabelled_addWrap (wrap : Wrap) (stx : Syntax) :
    (stx.addWrap wrap).unlabelled = stx.unlabelled.addWrap wrap := by
  cases stx <;> simp [addWrap, context, setContext]

theorem unlabelled_addWraps (newer : List Wrap) (stx : Syntax) :
    (stx.addWraps newer).unlabelled = stx.unlabelled.addWraps newer := by
  induction newer with
  | nil => rfl
  | cons wrap newer ih =>
      rw [addWraps_cons, addWraps_cons, unlabelled_addWrap, ih]

mutual

/-- Labelling a form changes labels only. -/
theorem unlabelled_stamp : ∀ (stx : Syntax) (next : Nat), (stx.stamp next).1.unlabelled = stx.unlabelled
  | atom c a, next => by
      rw [stamp]
      split <;> simp
  | group c shape items, next => by
      rw [stamp]
      split
      · simp [← unlabelledAll_eq, unlabelledAll_stampAll items (next + 1)]
      · rfl
  | record c fields, next => by
      rw [stamp]
      split
      · simp [← unlabelledFields_eq, unlabelledFields_stampFields fields (next + 1)]
      · rfl

theorem unlabelledAll_stampAll : ∀ (items : List Syntax) (next : Nat),
    unlabelledAll (stampAll items next).1 = unlabelledAll items
  | [], _ => rfl
  | stx :: rest, next => by
      simp only [stampAll, unlabelledAll, unlabelled_stamp stx next,
        unlabelledAll_stampAll rest (stx.stamp next).2]

theorem unlabelledFields_stampFields : ∀ (fields : List (String × Syntax)) (next : Nat),
    unlabelledFields (stampFields fields next).1 = unlabelledFields fields
  | [], _ => rfl
  | (key, stx) :: rest, next => by
      simp only [stampFields, unlabelledFields, unlabelled_stamp stx next,
        unlabelledFields_stampFields rest (stx.stamp next).2]

end

end Syntax

theorem Part.raw?_unlabelled (part : Part) (stx : Syntax) :
    part.raw? stx.unlabelled = (part.raw? stx).map .unlabelled := by
  cases stx with
  | atom c a => cases part <;> simp [raw?]
  | group c shape items => cases shape <;> cases part <;> simp [raw?]
  | record c fields => cases part <;> simp [raw?, Function.comp_def]

theorem Part.of?_unlabelled (part : Part) (stx : Syntax) :
    part.of? stx.unlabelled = (part.of? stx).map .unlabelled := by
  rw [of?_eq, of?_eq, raw?_unlabelled, Syntax.wraps_unlabelled, Option.map_map, Option.map_map]
  refine congrArg (Option.map · _) (funext fun found => ?_)
  exact (found.unlabelled_addWraps stx.wraps).symm

end HygienicLisp
