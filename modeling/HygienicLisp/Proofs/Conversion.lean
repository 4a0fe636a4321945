import HygienicLisp.Proofs.Invocation
import HygienicLisp.Proofs.Notation.RoundTrip
import HygienicLisp.Proofs.Runs

/-!
# Data become syntax and syntax becomes data

A value becomes a form if it is put together from atoms and syntax objects: a value of any
other kind, however deep it is, makes the conversion fail.  The form has the parts of the
value at the same paths.  What is new in it has the context that was asked for on its atoms
and nothing on its containers, so that a syntax object among the data is taken out as it was
put in.

Records of values have labels, which tell one object from another and are no part of the
data; `Value.unlabelled` takes them off.

Main statement: `conversion_lossless`.
-/

namespace HygienicLisp

/-! ## Parts of values -/

/-- The part of a value.  What is inside a syntax object is no part of the value around it. -/
def Part.ofValue? (part : Part) (v : Value) : Option Value :=
  match v, part with
  | .group .sexp items, subform i => items[i]?
  | .group .list items, element i => items[i]?
  | .record _ fields, field i => (fields[i]?).map (·.2)
  | _, _ => none

namespace Value

/-- The value at the end of a path of parts. -/
def at? : List Part → Value → Option Value
  | [], v => some v
  | part :: path, v => (part.ofValue? v).bind (at? path)

/-- Whether a value has a notation, or is a container, or a syntax object. -/
def isDatum : Value → Bool
  | atom _ | group _ _ | record _ _ | stx _ => true
  | void | procedure _ _ | transformer _ _ _ | form _ => false

/-- There is no syntax object in the value. -/
def Plain (v : Value) : Prop := ∀ path s, v.at? path ≠ some (.stx s)

/-- Induction on values, with a hypothesis for each part of a container. -/
theorem partsInduction {motive : Value → Prop} (atom : ∀ a, motive (.atom a))
    (group : ∀ shape items, (∀ v ∈ items, motive v) → motive (.group shape items))
    (record : ∀ label fields, (∀ field ∈ fields, motive field.2) → motive (.record label fields))
    (stx : ∀ s, motive (.stx s)) (other : ∀ v, v.isDatum = false → motive v) (v : Value) :
    motive v := by
  cases v with
  | atom a => exact atom a
  | stx s => exact stx s
  | group shape items =>
      exact group shape items fun v _ => partsInduction atom group record stx other v
  | record label fields =>
      exact record label fields fun field _ => partsInduction atom group record stx other field.2
  | void | procedure _ _ | transformer _ _ _ | form _ => exact other _ rfl
termination_by v
decreasing_by
  · have hv := List.sizeOf_lt_of_mem ‹v ∈ items›
    simp only [Value.group.sizeOf_spec]
    omega
  · have hfield := List.sizeOf_lt_of_mem ‹field ∈ fields›
    obtain ⟨key, v⟩ := field
    simp only [Value.record.sizeOf_spec, Prod.mk.sizeOf_spec] at hfield ⊢
    omega

/-- Each item of a sequence is one of its parts. -/
theorem exists_part_of_mem {shape : Shape} {items : List Value} {v : Value} (h : v ∈ items) :
    ∃ part : Part, part.ofValue? (.group shape items) = some v := by
  obtain ⟨i, hi⟩ := List.mem_iff_getElem?.1 h
  cases shape with
  | sexp => exact ⟨.subform i, hi⟩
  | list => exact ⟨.element i, hi⟩

/-- The value of each field is a part of the record. -/
theorem exists_part_of_mem_fields {label : Nat} {fields : List (String × Value)}
    {field : String × Value} (h : field ∈ fields) :
    ∃ part : Part, part.ofValue? (.record label fields) = some field.2 := by
  obtain ⟨i, hi⟩ := List.mem_iff_getElem?.1 h
  exact ⟨.field i, by simp [Part.ofValue?, hi]⟩

theorem at?_of_part {part : Part} {v next found : Value} {path : List Part}
    (hpart : part.ofValue? v = some next) (hfound : next.at? path = some found) :
    v.at? (part :: path) = some found := by
  rw [at?, hpart]
  exact hfound

theorem Plain.part {part : Part} {v next : Value} (h : v.Plain)
    (hpart : part.ofValue? v = some next) : next.Plain :=
  fun path s hfound => h (part :: path) s (at?_of_part hpart hfound)

/-! ## Replacing the syntax objects -/

mutual

/-- The value with something in place of each syntax object, and without labels. -/
def replaceSyntax (f : Syntax → Value) : Value → Value
  | stx s => f s
  | group shape items => group shape (replaceSyntaxAll f items)
  | record _ fields => record 0 (replaceSyntaxFields f fields)
  | v => v

/-- `replaceSyntax` on every value of a sequence. -/
def replaceSyntaxAll (f : Syntax → Value) : List Value → List Value
  | [] => []
  | v :: rest => v.replaceSyntax f :: replaceSyntaxAll f rest

/-- `replaceSyntax` on every field of a record. -/
def replaceSyntaxFields (f : Syntax → Value) : List (String × Value) → List (String × Value)
  | [] => []
  | (key, v) :: rest => (key, v.replaceSyntax f) :: replaceSyntaxFields f rest

end

/-- The value without the labels of its records. -/
def unlabelled (v : Value) : Value := v.replaceSyntax .stx

variable {f g : Syntax → Value}

theorem replaceSyntaxAll_eq (items : List Value) :
    replaceSyntaxAll f items = items.map (replaceSyntax f) := by
  induction items with
  | nil => rfl
  | cons v rest ih => exact congrArg (List.cons _) ih

theorem replaceSyntaxFields_eq (fields : List (String × Value)) :
    replaceSyntaxFields f fields = fields.map fun field => (field.1, field.2.replaceSyntax f) := by
  induction fields with
  | nil => rfl
  | cons field rest ih => exact congrArg (List.cons _) ih

@[simp] theorem replaceSyntax_atom (a : Atom) : (atom a).replaceSyntax f = atom a := rfl

@[simp] theorem replaceSyntax_stx (s : Syntax) : (stx s).replaceSyntax f = f s := rfl

@[simp] theorem replaceSyntax_group (shape : Shape) (items : List Value) :
    (group shape items).replaceSyntax f = group shape (items.map (replaceSyntax f)) :=
  congrArg (group shape) (replaceSyntaxAll_eq items)

@[simp] theorem replaceSyntax_record (label : Nat) (fields : List (String × Value)) :
    (record label fields).replaceSyntax f =
      record 0 (fields.map fun field => (field.1, field.2.replaceSyntax f)) :=
  congrArg (record 0) (replaceSyntaxFields_eq fields)

theorem replaceSyntax_of_not_isDatum {v : Value} (h : v.isDatum = false) :
    v.replaceSyntax f = v := by
  cases v with
  | void | procedure _ _ | transformer _ _ _ | form _ => rfl
  | atom _ | group _ _ | record _ _ | stx _ => cases h

/-- Where there is no syntax object it does not matter what would stand in its place. -/
theorem Plain.replaceSyntax_eq {v : Value} (h : v.Plain) :
    v.replaceSyntax f = v.replaceSyntax g := by
  induction v using partsInduction with
  | atom a => simp
  | stx s => exact absurd rfl (h [] s)
  | group shape items ih =>
      rw [replaceSyntax_group, replaceSyntax_group]
      refine congrArg _ (List.map_congr_left fun v hv => ?_)
      obtain ⟨part, hpart⟩ := exists_part_of_mem hv
      exact ih v hv (h.part hpart)
  | record label fields ih =>
      rw [replaceSyntax_record, replaceSyntax_record]
      refine congrArg _ (List.map_congr_left fun field hfield => Prod.ext rfl ?_)
      obtain ⟨part, hpart⟩ := exists_part_of_mem_fields hfield
      exact ih field hfield (h.part hpart)
  | other v hv => rw [replaceSyntax_of_not_isDatum hv, replaceSyntax_of_not_isDatum hv]

/-! ## The conversion of a value and of its parts -/

theorem map_eq_map_of_forall₂ {α β γ : Type} {R : α → β → Prop} {as : List α} {bs : List β}
    (h : List.Forall₂ R as bs) {f : α → γ} {g : β → γ} (hfg : ∀ a ∈ as, ∀ b, R a b → g b = f a) :
    bs.map g = as.map f := by
  induction h with
  | nil => rfl
  | cons hfirst hrest ih =>
      rw [List.map_cons, List.map_cons, hfg _ List.mem_cons_self _ hfirst,
        ih fun a ha => hfg a (List.mem_cons_of_mem _ ha)]

variable {wraps : List Wrap} {span : Option Span}

/-- A new atom has the wraps of the context, up to marks that meet themselves. -/
@[simp] theorem toSyntax_atom (a : Atom) :
    (atom a).toSyntax wraps span = .ok (.atom { wraps := cancelled wraps, span } a) := by
  rw [toSyntax]
  refine congrArg Except.ok ?_
  induction wraps with
  | nil => rfl
  | cons wrap older ih =>
      rw [Syntax.addWraps_cons, ih]
      rfl

@[simp] theorem toSyntax_stx (s : Syntax) : (stx s).toSyntax wraps span = .ok s := rfl

theorem toSyntax_of_not_isDatum {v : Value} (h : v.isDatum = false) :
    v.toSyntax wraps span = .error (.of (.contract (.notData v.typeName))) := by
  cases v with
  | void | procedure _ _ | transformer _ _ _ | form _ => rfl
  | atom _ | group _ _ | record _ _ | stx _ => cases h

theorem toSyntaxAll_eq_ok {items : List Value} {forms : List Syntax} :
    toSyntaxAll wraps span items = .ok forms ↔
      List.Forall₂ (fun v form => v.toSyntax wraps span = .ok form) items forms := by
  induction items generalizing forms with
  | nil => simp [toSyntaxAll, eq_comm]
  | cons v rest ih =>
      simp only [toSyntaxAll, List.forall₂_cons_left_iff, Except.bind_eq_ok, ih]
      constructor
      · rintro ⟨form, hform, forms, hforms, hcons⟩
        cases hcons
        exact ⟨form, forms, hform, hforms, rfl⟩
      · rintro ⟨form, forms, hform, hforms, rfl⟩
        exact ⟨form, hform, forms, hforms, rfl⟩

theorem toSyntaxFields_eq_ok {fields : List (String × Value)} {forms : List (String × Syntax)} :
    toSyntaxFields wraps span fields = .ok forms ↔
      List.Forall₂ (fun field form => form.1 = field.1 ∧ field.2.toSyntax wraps span = .ok form.2)
        fields forms := by
  induction fields generalizing forms with
  | nil => simp [toSyntaxFields, eq_comm]
  | cons field rest ih =>
      simp only [toSyntaxFields, List.forall₂_cons_left_iff, Except.bind_eq_ok, ih]
      constructor
      · rintro ⟨form, hform, forms, hforms, hcons⟩
        cases hcons
        exact ⟨_, forms, ⟨rfl, hform⟩, hforms, rfl⟩
      · rintro ⟨⟨key, form⟩, forms, ⟨hkey, hform⟩, hforms, rfl⟩
        obtain rfl : key = field.1 := hkey
        exact ⟨form, hform, forms, hforms, rfl⟩

theorem toSyntax_group_eq_ok {shape : Shape} {items : List Value} {form : Syntax} :
    (group shape items).toSyntax wraps span = .ok form ↔
      ∃ forms, List.Forall₂ (fun v form => v.toSyntax wraps span = .ok form) items forms ∧
        form = .group { span } shape forms := by
  rw [toSyntax]
  simp only [Except.bind_eq_ok, toSyntaxAll_eq_ok]
  exact exists_congr fun forms => and_congr_right fun _ => by simp [pure, Except.pure, eq_comm]

theorem toSyntax_record_eq_ok {label : Nat} {fields : List (String × Value)} {form : Syntax} :
    (record label fields).toSyntax wraps span = .ok form ↔
      ∃ forms, List.Forall₂ (fun field form =>
          form.1 = field.1 ∧ field.2.toSyntax wraps span = .ok form.2) fields forms ∧
        form = .record { span } forms := by
  rw [toSyntax]
  simp only [Except.bind_eq_ok, toSyntaxFields_eq_ok]
  exact exists_congr fun forms => and_congr_right fun _ => by simp [pure, Except.pure, eq_comm]

/-- A part of a value becomes the part of the form: containers have no context to push down. -/
theorem of?_toSyntax {part : Part} {v next : Value} {form : Syntax}
    (h : v.toSyntax wraps span = .ok form) (hpart : part.ofValue? v = some next) :
    ∃ found, part.of? form = some found ∧ next.toSyntax wraps span = .ok found := by
  have hroot : ∀ found : Syntax, found.addWraps [] = found := fun _ => rfl
  cases v with
  | void | atom a | stx s | procedure id p | transformer id pid p | form f =>
      cases part <;> cases hpart
  | group shape items =>
      obtain ⟨forms, hforms, rfl⟩ := toSyntax_group_eq_ok.1 h
      cases shape <;> cases part <;> first
        | cases hpart
        | obtain ⟨found, hfound, hnext⟩ := Assembly.exists_getElem?_of_forall₂ hforms.flip hpart
          exact ⟨found, by simp [Part.of?_eq, Part.raw?, Syntax.wraps, Syntax.context, hfound, hroot],
            hnext⟩
  | record label fields =>
      obtain ⟨forms, hforms, rfl⟩ := toSyntax_record_eq_ok.1 h
      cases part with
      | subform i => cases hpart
      | element i => cases hpart
      | field i =>
          obtain ⟨field, hfield, rfl⟩ := Option.map_eq_some_iff.1 hpart
          obtain ⟨found, hfound, -, hnext⟩ := Assembly.exists_getElem?_of_forall₂ hforms.flip hfield
          exact ⟨found.2,
            by simp [Part.of?_eq, Part.raw?, Syntax.wraps, Syntax.context, hfound, hroot], hnext⟩

/-- What is at a path of the value becomes what is extracted at that path of the form. -/
theorem extract?_toSyntax {path : List Part} {v x : Value} {form : Syntax}
    (h : v.toSyntax wraps span = .ok form) (hx : v.at? path = some x) :
    ∃ found, extract? path form = some found ∧ x.toSyntax wraps span = .ok found := by
  induction path generalizing v form with
  | nil =>
      obtain rfl : v = x := Option.some.inj hx
      exact ⟨form, rfl, h⟩
  | cons part path ih =>
      obtain ⟨next, hpart, hx⟩ := Option.bind_eq_some_iff.1 hx
      obtain ⟨found, hfound, hnext⟩ := of?_toSyntax h hpart
      rw [extract?, hfound]
      exact ih hnext hx

/-! ## Success and failure -/

theorem exists_mem_of_toSyntaxAll_eq_error {items : List Value} {e : Error}
    (h : toSyntaxAll wraps span items = .error e) :
    ∃ v ∈ items, v.toSyntax wraps span = .error e := by
  induction items with
  | nil => cases h
  | cons v rest ih =>
      simp only [toSyntaxAll, Except.bind_eq_error] at h
      obtain hfirst | ⟨form, -, hrest | ⟨forms, -, h⟩⟩ := h
      · exact ⟨v, List.mem_cons_self, hfirst⟩
      · obtain ⟨v', hv', herror⟩ := ih hrest
        exact ⟨v', List.mem_cons_of_mem _ hv', herror⟩
      · cases h

theorem exists_mem_of_toSyntaxFields_eq_error {fields : List (String × Value)} {e : Error}
    (h : toSyntaxFields wraps span fields = .error e) :
    ∃ field ∈ fields, field.2.toSyntax wraps span = .error e := by
  induction fields with
  | nil => cases h
  | cons field rest ih =>
      simp only [toSyntaxFields, Except.bind_eq_error] at h
      obtain hfirst | ⟨form, -, hrest | ⟨forms, -, h⟩⟩ := h
      · exact ⟨field, List.mem_cons_self, hfirst⟩
      · obtain ⟨field', hfield', herror⟩ := ih hrest
        exact ⟨field', List.mem_cons_of_mem _ hfield', herror⟩
      · cases h

theorem toSyntax_group_eq_error {shape : Shape} {items : List Value} {e : Error}
    (h : (group shape items).toSyntax wraps span = .error e) :
    toSyntaxAll wraps span items = .error e := by
  rw [toSyntax, Except.bind_eq_error] at h
  obtain h | ⟨forms, -, h⟩ := h
  · exact h
  · cases h

theorem toSyntax_record_eq_error {label : Nat} {fields : List (String × Value)} {e : Error}
    (h : (record label fields).toSyntax wraps span = .error e) :
    toSyntaxFields wraps span fields = .error e := by
  rw [toSyntax, Except.bind_eq_error] at h
  obtain h | ⟨forms, -, h⟩ := h
  · exact h
  · cases h

/-- A conversion that fails does so because of a value in it that is no datum. -/
theorem exists_of_toSyntax_eq_error {v : Value} {e : Error} (h : v.toSyntax wraps span = .error e) :
    ∃ path x, v.at? path = some x ∧ x.isDatum = false ∧
      e = .of (.contract (.notData x.typeName)) := by
  induction v using partsInduction with
  | atom a => simp at h
  | stx s => simp at h
  | group shape items ih =>
      obtain ⟨v, hv, herror⟩ :=
        exists_mem_of_toSyntaxAll_eq_error (toSyntax_group_eq_error h)
      obtain ⟨part, hpart⟩ := exists_part_of_mem hv
      obtain ⟨path, x, hx, hdatum, he⟩ := ih v hv herror
      exact ⟨part :: path, x, at?_of_part hpart hx, hdatum, he⟩
  | record label fields ih =>
      obtain ⟨field, hfield, herror⟩ :=
        exists_mem_of_toSyntaxFields_eq_error (toSyntax_record_eq_error h)
      obtain ⟨part, hpart⟩ := exists_part_of_mem_fields hfield
      obtain ⟨path, x, hx, hdatum, he⟩ := ih field hfield herror
      exact ⟨part :: path, x, at?_of_part hpart hx, hdatum, he⟩
  | other v hv =>
      rw [toSyntax_of_not_isDatum hv, Except.error.injEq] at h
      exact ⟨[], v, rfl, hv, h.symm⟩

/-- What can be converted is a datum. -/
theorem isDatum_of_toSyntax_eq_ok {v : Value} {form : Syntax}
    (h : v.toSyntax wraps span = .ok form) : v.isDatum := by
  by_contra hv
  rw [Bool.not_eq_true] at hv
  rw [toSyntax_of_not_isDatum hv] at h
  cases h

/-- A value becomes a form exactly if all that is in it are data. -/
theorem exists_toSyntax_eq_ok_iff {v : Value} :
    (∃ form, v.toSyntax wraps span = .ok form) ↔ ∀ path x, v.at? path = some x → x.isDatum := by
  constructor
  · rintro ⟨form, hform⟩ path x hx
    obtain ⟨found, -, hfound⟩ := extract?_toSyntax hform hx
    exact isDatum_of_toSyntax_eq_ok hfound
  · intro hdata
    cases hrun : v.toSyntax wraps span with
    | ok form => exact ⟨form, rfl⟩
    | error e =>
        obtain ⟨path, x, hx, hdatum, -⟩ := exists_of_toSyntax_eq_error hrun
        rw [hdata path x hx] at hdatum
        cases hdatum

/-! ## The way back -/

/-- The data of the form are the value with the data of each syntax object in its place. -/
theorem toDatum_of_toSyntax {v : Value} {form : Syntax} (h : v.toSyntax wraps span = .ok form) :
    form.toDatum = v.replaceSyntax Syntax.toDatum := by
  induction v using partsInduction generalizing form with
  | atom a =>
      obtain rfl := by simpa using h
      simp [Syntax.toDatum]
  | stx s =>
      obtain rfl := by simpa using h
      simp
  | group shape items ih =>
      obtain ⟨forms, hforms, rfl⟩ := toSyntax_group_eq_ok.1 h
      rw [Syntax.toDatum, Syntax.toDatumAll_eq, replaceSyntax_group]
      exact congrArg _ (map_eq_map_of_forall₂ hforms fun v hv form hform => ih v hv hform)
  | record label fields ih =>
      obtain ⟨forms, hforms, rfl⟩ := toSyntax_record_eq_ok.1 h
      rw [Syntax.toDatum, Syntax.toDatumFields_eq, replaceSyntax_record]
      refine congrArg _ (map_eq_map_of_forall₂ hforms fun field hfield form hform => ?_)
      exact Prod.ext hform.1 (ih field hfield hform.2)
  | other v hv =>
      rw [toSyntax_of_not_isDatum hv] at h
      cases h

/-- A form that was made from plain data prints as these data. -/
theorem text_of_toSyntax {v : Value} {form : Syntax} (h : v.toSyntax wraps span = .ok form)
    (hplain : v.Plain) (names : Names) : form.text = v.text names := by
  have hnotes : ∀ s : String, notesText [] ++ s = s := fun s => by simp [notesText]
  induction v using partsInduction generalizing form with
  | atom a =>
      obtain rfl := by simpa using h
      rw [Syntax.text, hnotes, text]
  | stx s => exact absurd rfl (hplain [] s)
  | group shape items ih =>
      obtain ⟨forms, hforms, rfl⟩ := toSyntax_group_eq_ok.1 h
      rw [Syntax.text, hnotes, Syntax.textAll_eq, text, textAll_eq]
      refine congrArg _ (map_eq_map_of_forall₂ hforms fun v hv form hform => ?_)
      obtain ⟨part, hpart⟩ := exists_part_of_mem hv
      exact ih v hv hform (hplain.part hpart)
  | record label fields ih =>
      obtain ⟨forms, hforms, rfl⟩ := toSyntax_record_eq_ok.1 h
      rw [Syntax.text, hnotes, Syntax.textFields_eq, text, textFields_eq]
      refine congrArg _ (map_eq_map_of_forall₂ hforms fun field hfield form hform => ?_)
      obtain ⟨part, hpart⟩ := exists_part_of_mem_fields hfield
      exact Prod.ext hform.1 (ih field hfield hform.2 (hplain.part hpart))
  | other v hv =>
      rw [toSyntax_of_not_isDatum hv] at h
      cases h

end Value

/-! ## Chains without a mark next to itself -/

theorem Reduced.cancelled_eq {wraps : List Wrap} (h : Reduced wraps) : cancelled wraps = wraps := by
  induction wraps with
  | nil => rfl
  | cons wrap older ih =>
      rw [cancelled_cons, ih h.tail]
      rcases pushWrap_cases wrap older with hcons | ⟨m, rfl, hcons⟩
      · exact hcons
      · generalize Syntax.pushWrap (.mark m) older = rest at hcons ⊢
        subst hcons
        exact absurd rfl ((List.isChain_cons_cons.1 h).1 m rfl)

/-- No chain on the form or inside it has a mark next to itself. -/
inductive Syntax.ReducedThroughout : Syntax → Prop
  | atom {c : Context} {a : Atom} (hwraps : Reduced c.wraps) : ReducedThroughout (.atom c a)
  | group {c : Context} {shape : Shape} {items : List Syntax} (hwraps : Reduced c.wraps)
      (hitems : ∀ stx ∈ items, ReducedThroughout stx) : ReducedThroughout (.group c shape items)
  | record {c : Context} {fields : List (String × Syntax)} (hwraps : Reduced c.wraps)
      (hfields : ∀ field ∈ fields, ReducedThroughout field.2) :
      ReducedThroughout (.record c fields)

namespace Syntax

variable {stx found : Syntax}

theorem ReducedThroughout.wraps (h : stx.ReducedThroughout) : Reduced stx.wraps := by
  cases h <;> assumption

theorem ReducedThroughout.addWrap (h : stx.ReducedThroughout) (wrap : Wrap) :
    (stx.addWrap wrap).ReducedThroughout := by
  cases h with
  | atom hwraps => exact .atom (hwraps.pushWrap wrap)
  | group hwraps hitems => exact .group (hwraps.pushWrap wrap) hitems
  | record hwraps hfields => exact .record (hwraps.pushWrap wrap) hfields

theorem ReducedThroughout.addWraps (h : stx.ReducedThroughout) (newer : List Wrap) :
    (stx.addWraps newer).ReducedThroughout := by
  induction newer with
  | nil => exact h
  | cons wrap newer ih => exact ih.addWrap wrap

theorem ReducedThroughout.part (h : stx.ReducedThroughout) {part : Part}
    (hfound : part.of? stx = some found) : found.ReducedThroughout := by
  rw [Part.of?_eq] at hfound
  obtain ⟨raw, hraw, rfl⟩ := Option.map_eq_some_iff.1 hfound
  refine ReducedThroughout.addWraps ?_ _
  cases h with
  | atom _ => cases part <;> cases hraw
  | @group _ shape _ _ hitems =>
      cases shape <;> cases part <;> first
        | cases hraw
        | exact hitems _ (List.mem_of_getElem? hraw)
  | record _ hfields =>
      cases part with
      | subform i => cases hraw
      | element i => cases hraw
      | field i =>
          obtain ⟨field, hfield, rfl⟩ := Option.map_eq_some_iff.1 hraw
          exact hfields field (List.mem_of_getElem? hfield)

end Syntax

/-! ## Both ways -/

/-- A value becomes a form exactly if there is nothing but data in it, and what makes it fail is
named otherwise.  The data of the form are the value with the data of its syntax objects in their
places, which for plain data is the value itself, and the form prints as the value does.  A context
changes nothing about this: its chain of wraps, reduced as it is wherever operations on syntax objects
have made it (`Syntax.ReducedThroughout.wraps`), is found on each new atom, and each syntax object is
found as it was. -/
theorem conversion_lossless (v : Value) (span : Option Span) :
    ((∃ form, v.toSyntax [] span = .ok form) ↔ ∀ path x, v.at? path = some x → x.isDatum) ∧
      (∀ e, v.toSyntax [] span = .error e →
        ∃ path x, v.at? path = some x ∧ x.isDatum = false ∧
          e = .of (.contract (.notData x.typeName))) ∧
      (∀ form, v.toSyntax [] span = .ok form →
        form.toDatum = v.replaceSyntax Syntax.toDatum ∧
          (v.Plain → form.toDatum = v.unlabelled ∧ ∀ names, form.text = v.text names)) ∧
      ∀ context : Syntax,
        ((∃ form, Syntax.ofDatum v (some context) = .ok form) ↔
          ∃ form, v.toSyntax [] span = .ok form) ∧
        ∀ form, Syntax.ofDatum v (some context) = .ok form →
          (∀ bare, v.toSyntax [] span = .ok bare → form.toDatum = bare.toDatum) ∧
          (∀ path a, v.at? path = some (.atom a) →
            ∃ atom, extract? path form = some atom ∧
              atom = .atom { wraps := cancelled context.wraps, span := context.span } a ∧
              (Reduced context.wraps → atom.wraps = context.wraps)) ∧
          ∀ path s, v.at? path = some (.stx s) → extract? path form = some s := by
  refine ⟨Value.exists_toSyntax_eq_ok_iff, fun e he => Value.exists_of_toSyntax_eq_error he,
    fun form hform => ⟨Value.toDatum_of_toSyntax hform, fun hplain => ⟨?_, ?_⟩⟩,
    fun context => ⟨?_, fun form hform => ⟨fun bare hbare => ?_, fun path a ha => ?_,
      fun path s hs => ?_⟩⟩⟩
  · rw [Value.toDatum_of_toSyntax hform]
    exact hplain.replaceSyntax_eq
  · exact Value.text_of_toSyntax hform hplain
  · rw [Syntax.ofDatum, Value.exists_toSyntax_eq_ok_iff, Value.exists_toSyntax_eq_ok_iff]
  · rw [Value.toDatum_of_toSyntax hform, Value.toDatum_of_toSyntax hbare]
  · obtain ⟨atom, hatom, hfound⟩ := Value.extract?_toSyntax hform ha
    rw [Value.toSyntax_atom, Except.ok.injEq] at hfound
    subst hfound
    exact ⟨_, hatom, rfl, fun hreduced => hreduced.cancelled_eq⟩
  · obtain ⟨found, hfound, hs⟩ := Value.extract?_toSyntax hform hs
    rw [Value.toSyntax_stx, Except.ok.injEq] at hs
    rw [hfound, hs]

/-- A new symbol and, in a record with a label, a syntax object. -/
def mixedDatum : Value :=
  .group .sexp [.atom (.symbol "fresh"), .record 3 [("part", .stx (.ident "kept"))]]

theorem mixedDatum_converted :
    ∃ form, Syntax.ofDatum mixedDatum (some ((Syntax.ident "here").addWrap (.mark 7))) = .ok form ∧
      form.toDatum =
        .group .sexp [.atom (.symbol "fresh"), .record 0 [("part", .atom (.symbol "kept"))]] ∧
      (∃ atom, extract? [.subform 0] form = some atom ∧ atom.symbol? = some "fresh" ∧
        atom.wraps = [.mark 7]) ∧
      extract? [.subform 1, .field 0] form = some (.ident "kept") := by
  obtain ⟨-, -, -, hcontext⟩ := conversion_lossless mixedDatum none
  obtain ⟨-, hplaces⟩ := hcontext ((Syntax.ident "here").addWrap (.mark 7))
  obtain ⟨form, hform⟩ : ∃ form,
      Syntax.ofDatum mixedDatum (some ((Syntax.ident "here").addWrap (.mark 7))) = .ok form :=
    ⟨_, rfl⟩
  obtain ⟨hdatum, hatoms, hkept⟩ := hplaces form hform
  refine ⟨form, hform, ?_, ?_, hkept _ _ rfl⟩
  · rw [hdatum _ rfl]
    rfl
  · obtain ⟨atom, hatom, rfl, hwraps⟩ := hatoms [.subform 0] _ rfl
    have hreduced : (Syntax.ident "here").ReducedThroughout := .atom .nil
    exact ⟨_, hatom, rfl, hwraps (hreduced.addWrap _).wraps⟩

end HygienicLisp
