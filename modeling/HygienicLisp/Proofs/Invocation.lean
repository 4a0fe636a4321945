import HygienicLisp.Expansion.Basic
import HygienicLisp.Proofs.Contexts
import HygienicLisp.Proofs.Runs

/-!
# Hygiene of one invocation

A transformer sees its form under a fresh mark, and the mark is put on its output again.  An
output that is put together from parts of the input and from syntax that was there before
(`Assembly`) therefore has two kinds of identifiers.  Those from the input carry the mark
twice and are back in the context they had; all others carry it once.

Main statements: `Assembly.Leads.extract` says what a place of the marked output holds,
`Assembly.hasOrigins` that every identifier of it is of one of the two kinds, and
`Spaces.resolveWraps_rename_of_marks` that a rib is not seen by identifiers whose marks none of
its binders has.
-/

namespace HygienicLisp

open Syntax (pushWrap)

/-! ## Forms without a mark -/

/-- The mark is in no chain of the form. -/
def Syntax.Avoids (m : Mark) (stx : Syntax) : Prop := stx.Carries (· ≠ .mark m) fun _ => True

namespace Syntax

theorem Avoids.not_mem_wraps {m : Mark} {stx : Syntax} (h : stx.Avoids m) : .mark m ∉ stx.wraps :=
  fun hmem => Carries.wraps h _ hmem rfl

/-- The mark goes in front of a chain that does not have it. -/
theorem Avoids.pushWrap_mark {m : Mark} {stx : Syntax} (h : stx.Avoids m) :
    pushWrap (.mark m) stx.wraps = .mark m :: stx.wraps := by
  refine pushWrap_mark_of_head? fun hhead => h.not_mem_wraps ?_
  exact List.mem_of_mem_head? hhead

end Syntax

/-! ## Extraction -/

/-- The form at the end of a path of parts, with all context on the way pushed down. -/
def extract? : List Part → Syntax → Option Syntax
  | [], stx => some stx
  | part :: path, stx => (part.of? stx).bind (extract? path)

theorem extract?_append (path path' : List Part) (stx : Syntax) :
    extract? (path ++ path') stx = (extract? path stx).bind (extract? path') := by
  induction path generalizing stx with
  | nil => rfl
  | cons part path ih =>
      rw [List.cons_append, extract?, extract?, Option.bind_assoc]
      exact congrArg _ (funext fun stx => ih stx)

theorem extract?_unlabelled (path : List Part) (stx : Syntax) :
    extract? path stx.unlabelled = (extract? path stx).map .unlabelled := by
  induction path generalizing stx with
  | nil => rfl
  | cons part path ih =>
      rw [extract?, extract?, Part.of?_unlabelled]
      cases part.of? stx with
      | none => rfl
      | some found => exact ih found

theorem Syntax.Avoids.extract {m : Mark} {path : List Part} {stx found : Syntax}
    (h : stx.Avoids m) (hfound : extract? path stx = some found) : found.Avoids m := by
  induction path generalizing stx with
  | nil =>
      obtain rfl : stx = found := Option.some.inj hfound
      exact h
  | cons part path ih =>
      obtain ⟨next, hnext, hrest⟩ := Option.bind_eq_some_iff.1 hfound
      exact ih (Carries.part h hnext) hrest

/-- A part of a marked form is the marked part of the form. -/
theorem Part.of?_addWrap_mark {m : Mark} {stx : Syntax} (h : stx.Avoids m) (part : Part) :
    part.of? (stx.addWrap (.mark m)) = (part.of? stx).map (.addWrap (.mark m)) := by
  rw [of?_eq, of?_eq, raw?_addWrap, Syntax.wraps_addWrap, h.pushWrap_mark, Option.map_map]
  rfl

theorem extract?_addWrap_mark {m : Mark} {stx : Syntax} (h : stx.Avoids m) (path : List Part) :
    extract? path (stx.addWrap (.mark m)) = (extract? path stx).map (.addWrap (.mark m)) := by
  induction path generalizing stx with
  | nil => rfl
  | cons part path ih =>
      rw [extract?, extract?, Part.of?_addWrap_mark h]
      cases hpart : part.of? stx with
      | none => rfl
      | some found => exact ih (Syntax.Carries.part h hpart)

/-- `id` is `orig` in the same context; a binding that was recorded may have been dropped. -/
structure Restores (orig id : Syntax) : Prop where
  name : id.symbol? = orig.symbol?
  wraps : id.wraps = orig.wraps
  binding : id.context.binding = orig.context.binding ∨ id.context.binding = none

/-- A mark put on a form and again on what came of it is off again. -/
theorem extract?_addWrap_mark_twice {m : Mark} {stx found : Syntax} (h : stx.Avoids m)
    {path : List Part} (hfound : extract? path ((stx.addWrap (.mark m)).addWrap (.mark m)) = some found) :
    ∃ orig, extract? path stx = some orig ∧ Restores orig found := by
  have hwraps : ((stx.addWrap (.mark m)).addWrap (.mark m)).wraps = stx.wraps := by
    rw [Syntax.wraps_addWrap, Syntax.wraps_addWrap, h.pushWrap_mark, pushWrap_mark_self]
  cases path with
  | nil =>
      obtain rfl := Option.some.inj hfound
      exact ⟨stx, rfl, by simp, hwraps, .inr (by simp)⟩
  | cons part path =>
      refine ⟨found, ?_, rfl, rfl, .inl rfl⟩
      rw [extract?, Part.of?_eq, Part.raw?_addWrap, Part.raw?_addWrap, hwraps] at hfound
      rw [extract?, Part.of?_eq]
      exact hfound

/-! ## Outputs of transformers -/

/-- How the output of a transformer is put together: from parts of its input and from syntax
that was there before, joined by containers without context. -/
inductive Assembly where
  | input (path : List Part)
  | prior (stx : Syntax)
  | join (span : Option Span) (shape : Shape) (items : List Assembly)
  | joinFields (span : Option Span) (fields : List (String × Assembly))

/-- Where an identifier of an output comes from: the caller's form or a syntax object of the
transformer's own, and the path to it. -/
inductive Origin where
  | caller (path : List Part)
  | own (stx : Syntax) (path : List Part)

namespace Assembly

mutual

/-- The output for an input. -/
def output? (stx : Syntax) : Assembly → Option Syntax
  | input path => extract? path stx
  | prior old => some old
  | join span shape items => (outputAll? stx items).map (.group { span } shape)
  | joinFields span fields => (outputFields? stx fields).map (.record { span })

/-- `output?` on every item of a container. -/
def outputAll? (stx : Syntax) : List Assembly → Option (List Syntax)
  | [] => some []
  | a :: rest => (output? stx a).bind fun out => (outputAll? stx rest).map (out :: ·)

/-- `output?` on every field of a record. -/
def outputFields? (stx : Syntax) : List (String × Assembly) → Option (List (String × Syntax))
  | [] => some []
  | (key, a) :: rest =>
    (output? stx a).bind fun out => (outputFields? stx rest).map ((key, out) :: ·)

end

/-- The place in the output at the end of a path comes from the given origin. -/
inductive Leads : Assembly → List Part → Origin → Prop
  | input {path rest : List Part} : Leads (input path) rest (.caller (path ++ rest))
  | prior {stx : Syntax} {rest : List Part} : Leads (prior stx) rest (.own stx rest)
  | subform {span : Option Span} {items : List Assembly} {i : Nat} {a : Assembly}
      {rest : List Part} {origin : Origin} (ha : items[i]? = some a) (h : Leads a rest origin) :
      Leads (join span .sexp items) (.subform i :: rest) origin
  | element {span : Option Span} {items : List Assembly} {i : Nat} {a : Assembly}
      {rest : List Part} {origin : Origin} (ha : items[i]? = some a) (h : Leads a rest origin) :
      Leads (join span .list items) (.element i :: rest) origin
  | field {span : Option Span} {fields : List (String × Assembly)} {i : Nat} {key : String}
      {a : Assembly} {rest : List Part} {origin : Origin} (ha : fields[i]? = some (key, a))
      (h : Leads a rest origin) : Leads (joinFields span fields) (.field i :: rest) origin

theorem forall₂_of_outputAll? {stx : Syntax} {items : List Assembly} {outs : List Syntax}
    (h : outputAll? stx items = some outs) :
    List.Forall₂ (fun a out => a.output? stx = some out) items outs := by
  induction items generalizing outs with
  | nil =>
      obtain rfl : [] = outs := Option.some.inj h
      exact .nil
  | cons a rest ih =>
      obtain ⟨out, hout, h⟩ := Option.bind_eq_some_iff.1 h
      obtain ⟨others, hothers, rfl⟩ := Option.map_eq_some_iff.1 h
      exact .cons hout (ih hothers)

theorem forall₂_of_outputFields? {stx : Syntax} {fields : List (String × Assembly)}
    {outs : List (String × Syntax)} (h : outputFields? stx fields = some outs) :
    List.Forall₂ (fun a out => a.2.output? stx = some out.2) fields outs := by
  induction fields generalizing outs with
  | nil =>
      obtain rfl : [] = outs := Option.some.inj h
      exact .nil
  | cons field rest ih =>
      obtain ⟨out, hout, h⟩ := Option.bind_eq_some_iff.1 h
      obtain ⟨others, hothers, rfl⟩ := Option.map_eq_some_iff.1 h
      exact .cons hout (ih hothers)

theorem exists_getElem?_of_forall₂ {α β : Type} {R : α → β → Prop} {xs : List α} {ys : List β}
    (h : List.Forall₂ R xs ys) {i : Nat} {y : β} (hy : ys[i]? = some y) :
    ∃ x, xs[i]? = some x ∧ R x y := by
  induction h generalizing i with
  | nil => simp at hy
  | @cons x y' xs ys hxy _ ih =>
      cases i with
      | zero =>
          obtain rfl : y' = y := by simpa using hy
          exact ⟨x, rfl, hxy⟩
      | succ i => exact ih (by simpa using hy)

variable {m : Mark} {form : Syntax}

/-- The part of a marked container of an output is the marked item. -/
theorem part_of_join {span : Option Span} {shape : Shape} {items : List Assembly} {out part : Syntax}
    {stx : Syntax} {which : Part} (hout : (join span shape items).output? stx = some out)
    (hpart : which.of? (out.addWrap (.mark m)) = some part) :
    ∃ i a item, items[i]? = some a ∧ a.output? stx = some item ∧ part = item.addWrap (.mark m) ∧
      (shape = .sexp ∧ which = .subform i ∨ shape = .list ∧ which = .element i) := by
  obtain ⟨outs, houts, rfl⟩ := Option.map_eq_some_iff.1 hout
  rw [Part.of?_eq, Part.raw?_addWrap] at hpart
  obtain ⟨item, hitem, rfl⟩ := Option.map_eq_some_iff.1 hpart
  have hitems := forall₂_of_outputAll? houts
  cases shape <;> cases which <;> simp only [Part.raw?, reduceCtorEq] at hitem
  · obtain ⟨a, ha, haout⟩ := exists_getElem?_of_forall₂ hitems hitem
    exact ⟨_, a, item, ha, haout, rfl, .inl ⟨rfl, rfl⟩⟩
  · obtain ⟨a, ha, haout⟩ := exists_getElem?_of_forall₂ hitems hitem
    exact ⟨_, a, item, ha, haout, rfl, .inr ⟨rfl, rfl⟩⟩

theorem part_of_joinFields {span : Option Span} {fields : List (String × Assembly)}
    {out part : Syntax} {stx : Syntax} {which : Part}
    (hout : (joinFields span fields).output? stx = some out)
    (hpart : which.of? (out.addWrap (.mark m)) = some part) :
    ∃ i key a item, fields[i]? = some (key, a) ∧ a.output? stx = some item ∧
      part = item.addWrap (.mark m) ∧ which = .field i := by
  obtain ⟨outs, houts, rfl⟩ := Option.map_eq_some_iff.1 hout
  rw [Part.of?_eq, Part.raw?_addWrap] at hpart
  obtain ⟨item, hitem, rfl⟩ := Option.map_eq_some_iff.1 hpart
  cases which <;> simp only [Part.raw?, reduceCtorEq] at hitem
  obtain ⟨field, hfield, rfl⟩ := Option.map_eq_some_iff.1 hitem
  obtain ⟨⟨key, a⟩, ha, haout⟩ := exists_getElem?_of_forall₂ (forall₂_of_outputFields? houts) hfield
  exact ⟨_, key, a, field.2, ha, haout, rfl, rfl⟩

/-- What the marked output has at a place that comes from `origin`. -/
def At (m : Mark) (form : Syntax) (origin : Origin) (found : Syntax) : Prop :=
  match origin with
  | .caller path => ∃ orig, extract? path form = some orig ∧ Restores orig found
  | .own stx path => ∃ old, extract? path stx = some old ∧ found = old.addWrap (.mark m)

/-- Parts of the input are back in the context they had, and everything else is marked. -/
theorem Leads.extract {a : Assembly} {path : List Part} {origin : Origin} (h : Leads a path origin)
    (hform : form.Avoids m)
    (hprior : ∀ path stx rest, Leads a path (.own stx rest) → stx.Avoids m)
    {out found : Syntax} (hout : a.output? (form.addWrap (.mark m)) = some out)
    (hfound : extract? path (out.addWrap (.mark m)) = some found) : At m form origin found := by
  induction h generalizing out with
  | @input path rest =>
      rw [output?, extract?_addWrap_mark hform] at hout
      obtain ⟨orig, horig, rfl⟩ := Option.map_eq_some_iff.1 hout
      -- The mark was put on before the call and once more after it, and the two cancel.
      obtain ⟨orig', horig', hrestores⟩ := extract?_addWrap_mark_twice (hform.extract horig) hfound
      refine ⟨orig', ?_, hrestores⟩
      rw [extract?_append, horig]
      exact horig'
  | @prior stx rest =>
      obtain rfl : stx = out := by simpa [output?] using hout
      rw [extract?_addWrap_mark (hprior [] stx [] .prior)] at hfound
      obtain ⟨old, hold, rfl⟩ := Option.map_eq_some_iff.1 hfound
      exact ⟨old, hold, rfl⟩
  | @subform span items i a rest origin ha _ ih =>
      obtain ⟨part, hpart, hfound⟩ := Option.bind_eq_some_iff.1 hfound
      obtain ⟨j, b, item, hb, hitem, rfl, hwhich⟩ := part_of_join hout hpart
      obtain rfl : i = j := by simpa using hwhich
      obtain rfl : a = b := Option.some.inj (ha.symm.trans hb)
      exact ih (fun path stx rest h => hprior _ stx rest (.subform ha h)) hitem hfound
  | @element span items i a rest origin ha _ ih =>
      obtain ⟨part, hpart, hfound⟩ := Option.bind_eq_some_iff.1 hfound
      obtain ⟨j, b, item, hb, hitem, rfl, hwhich⟩ := part_of_join hout hpart
      obtain rfl : i = j := by simpa using hwhich
      obtain rfl : a = b := Option.some.inj (ha.symm.trans hb)
      exact ih (fun path stx rest h => hprior _ stx rest (.element ha h)) hitem hfound
  | @field span fields i key a rest origin ha _ ih =>
      obtain ⟨part, hpart, hfound⟩ := Option.bind_eq_some_iff.1 hfound
      obtain ⟨j, key', b, item, hb, hitem, rfl, hwhich⟩ := part_of_joinFields hout hpart
      obtain rfl : i = j := by simpa using hwhich
      obtain ⟨rfl, rfl⟩ : key = key' ∧ a = b := by simpa using ha.symm.trans hb
      exact ih (fun path stx rest h => hprior _ stx rest (.field ha h)) hitem hfound

/-- Every identifier of a marked output has an origin. -/
def HasOrigins (m : Mark) (stx : Syntax) (a : Assembly) : Prop :=
  ∀ out path found, a.output? stx = some out →
    extract? path (out.addWrap (.mark m)) = some found → found.isIdentifier →
      ∃ origin, Leads a path origin

theorem HasOrigins.join {stx : Syntax} {span : Option Span} {shape : Shape} {items : List Assembly}
    (h : ∀ a ∈ items, HasOrigins m stx a) : HasOrigins m stx (.join span shape items) := by
  intro out path found hout hfound hid
  cases path with
  | nil =>
      obtain ⟨outs, -, rfl⟩ := Option.map_eq_some_iff.1 hout
      obtain rfl := Option.some.inj hfound
      rw [Syntax.isIdentifier, Syntax.symbol?_addWrap] at hid
      simp [Syntax.symbol?] at hid
  | cons which path =>
      obtain ⟨part, hpart, hrest⟩ := Option.bind_eq_some_iff.1 hfound
      obtain ⟨i, b, item, hb, hitem, rfl, hwhich⟩ := part_of_join hout hpart
      obtain ⟨origin, horigin⟩ := h b (List.mem_of_getElem? hb) item path found hitem hrest hid
      rcases hwhich with ⟨rfl, rfl⟩ | ⟨rfl, rfl⟩
      · exact ⟨origin, .subform hb horigin⟩
      · exact ⟨origin, .element hb horigin⟩

theorem HasOrigins.joinFields {stx : Syntax} {span : Option Span}
    {fields : List (String × Assembly)} (h : ∀ field ∈ fields, HasOrigins m stx field.2) :
    HasOrigins m stx (.joinFields span fields) := by
  intro out path found hout hfound hid
  cases path with
  | nil =>
      obtain ⟨outs, -, rfl⟩ := Option.map_eq_some_iff.1 hout
      obtain rfl := Option.some.inj hfound
      rw [Syntax.isIdentifier, Syntax.symbol?_addWrap] at hid
      simp [Syntax.symbol?] at hid
  | cons which path =>
      obtain ⟨part, hpart, hrest⟩ := Option.bind_eq_some_iff.1 hfound
      obtain ⟨i, key, b, item, hb, hitem, rfl, rfl⟩ := part_of_joinFields hout hpart
      obtain ⟨origin, horigin⟩ :=
        h (key, b) (List.mem_of_getElem? hb) item path found hitem hrest hid
      exact ⟨origin, .field hb horigin⟩

mutual

theorem hasOrigins (stx : Syntax) : ∀ a : Assembly, HasOrigins m stx a
  | input _ => fun _ _ _ _ _ _ => ⟨_, .input⟩
  | prior _ => fun _ _ _ _ _ _ => ⟨_, .prior⟩
  | join _ _ items => .join (hasOrigins_all stx items)
  | joinFields _ fields => .joinFields (hasOrigins_fields stx fields)

theorem hasOrigins_all (stx : Syntax) : ∀ items : List Assembly, ∀ a ∈ items, HasOrigins m stx a
  | [] => by simp
  | a :: rest => List.forall_mem_cons.2 ⟨hasOrigins stx a, hasOrigins_all stx rest⟩

theorem hasOrigins_fields (stx : Syntax) :
    ∀ fields : List (String × Assembly), ∀ field ∈ fields, HasOrigins m stx field.2
  | [] => by simp
  | (_, a) :: rest => List.forall_mem_cons.2 ⟨hasOrigins stx a, hasOrigins_fields stx rest⟩

end

end Assembly

/-! ## Marks and ribs -/

theorem not_mem_wrapMarks {m : Mark} {wraps : List Wrap} (h : .mark m ∉ wraps) :
    m ∉ wrapMarks wraps := by
  induction wraps with
  | nil => exact List.not_mem_nil
  | cons wrap older ih =>
      rw [List.mem_cons, not_or] at h
      cases wrap with
      | mark n =>
          have hne : m ≠ n := fun hsame => h.1 (congrArg Wrap.mark hsame)
          rw [wrapMarks, MarkSet.mem_toggle]
          simp [ih h.2, hne]
      | rename rib => exact ih h.2
      | space ns => exact ih h.2
      | moduleRename ns => exact ih h.2

theorem mem_wrapMarks_append {m : Mark} {newer : List Wrap} (h : .mark m ∉ newer)
    (older : List Wrap) : m ∈ wrapMarks (newer ++ older) ↔ m ∈ wrapMarks older := by
  induction newer with
  | nil => rfl
  | cons wrap newer ih =>
      rw [List.mem_cons, not_or] at h
      cases wrap with
      | mark n =>
          have hne : m ≠ n := fun hsame => h.1 (congrArg Wrap.mark hsame)
          rw [List.cons_append, wrapMarks, MarkSet.mem_toggle, ih h.2]
          simp [hne]
      | rename rib => exact ih h.2
      | space ns => exact ih h.2
      | moduleRename ns => exact ih h.2

theorem wraps_addWraps (newer : List Wrap) (stx : Syntax) :
    (stx.addWraps newer).wraps = newer.foldr pushWrap stx.wraps := by
  induction newer with
  | nil => rfl
  | cons wrap newer ih => rw [Syntax.addWraps_cons, Syntax.wraps_addWrap, ih, List.foldr_cons]

theorem cancelled_wraps_addWraps (newer : List Wrap) (stx : Syntax) :
    cancelled (stx.addWraps newer).wraps = cancelled (newer ++ stx.wraps) := by
  rw [wraps_addWraps, cancelled_foldr_pushWrap]

theorem symbol?_addWraps (newer : List Wrap) (stx : Syntax) :
    (stx.addWraps newer).symbol? = stx.symbol? := by
  induction newer with
  | nil => rfl
  | cons wrap newer ih => rw [Syntax.addWraps_cons, Syntax.symbol?_addWrap, ih]

/-- The marks of the keys of a rib are the marks of its binders. -/
theorem Rib.marks_of_mem_extend {spaces : Spaces} {binders : List Syntax} {keys keys' : List Key}
    (h : Rib.extend spaces keys binders = .ok keys') {key : Key} (hkey : key ∈ keys') :
    key ∈ keys ∨ ∃ binder ∈ binders, key.marks = wrapMarks binder.wraps := by
  induction binders generalizing keys with
  | nil =>
      obtain rfl : keys = keys' := by simpa [Rib.extend] using h
      exact .inl hkey
  | cons binder rest ih =>
      rw [Rib.extend] at h
      cases hname : binder.symbol? with
      | none => simp [hname] at h
      | some name =>
          simp only [hname] at h
          split at h
          · cases h
          · rcases ih h with hmem | ⟨binder', hmem, hmarks⟩
            · rcases List.mem_append.1 hmem with hmem | hmem
              · exact .inl hmem
              · obtain rfl := List.mem_singleton.1 hmem
                refine .inr ⟨binder, List.mem_cons_self, ?_⟩
                simp [Spaces.bindingKey, Spaces.resolveWithMarks, hname, Spaces.resolveWraps_marks]
            · exact .inr ⟨binder', List.mem_cons_of_mem _ hmem, hmarks⟩

theorem Rib.marks_of_mem_ofBinders {spaces : Spaces} {id : RibId} {binders : List Syntax} {rib : Rib}
    (h : Rib.ofBinders spaces id binders = .ok rib) {key : Key} (hkey : key ∈ rib.keys) :
    ∃ binder ∈ binders, key.marks = wrapMarks binder.wraps := by
  rw [Rib.ofBinders] at h
  cases hkeys : Rib.extend spaces [] binders with
  | error e => simp [hkeys, Except.map] at h
  | ok keys =>
      obtain rfl : (⟨id, keys⟩ : Rib) = rib := by simpa [hkeys, Except.map] using h
      simpa using Rib.marks_of_mem_extend hkeys hkey

theorem Rib.substitute?_of_marks {rib : Rib} {key : Key} (h : ∀ k ∈ rib.keys, k.marks ≠ key.marks) :
    rib.substitute? key = none := by
  rw [Rib.substitute?, Option.map_eq_none_iff, List.findIdx?_eq_none_iff]
  intro k hk
  have hne : k ≠ key := fun hsame => h k hk (congrArg Key.marks hsame)
  simp [hne]

/-- A rib none of whose keys has the marks collected below it might as well not be there,
whatever wraps come in front of it. -/
theorem Spaces.resolveWraps_rename_of_marks (spaces : Spaces) (name : String)
    (skip : Option NamespaceId) {rib : Rib} {older : List Wrap}
    (h : ∀ key ∈ rib.keys, key.marks ≠ wrapMarks older) (newer : List Wrap) :
    spaces.resolveWraps name skip (newer ++ .rename rib :: older) =
      spaces.resolveWraps name skip (newer ++ older) := by
  have htotal : wrapMarks (newer ++ .rename rib :: older) = wrapMarks (newer ++ older) := by
    induction newer with
    | nil => rfl
    | cons wrap newer ih =>
        cases wrap with
        | mark m => exact congrArg (MarkSet.toggle m) ih
        | rename rib => exact ih
        | space ns => exact ih
        | moduleRename ns => exact ih
  rw [resolveWraps, resolveWraps, htotal, List.foldr_append, List.foldr_append, List.foldr_cons]
  have hmarks := spaces.foldr_resolveStep_marks name skip (wrapMarks (newer ++ older)) older
  congr 1
  rw [resolveStep, Rib.substitute?_of_marks]
  rw [hmarks]
  exact h

end HygienicLisp
