import HygienicLisp.Proofs.Notation.Containers
import HygienicLisp.Syntax.Printer
import HygienicLisp.Value.Datum
import HygienicLisp.Value.Names

/-!
# Writing and reading

The text of a form that can be written is read as that form: the same data, with the same nesting
and the same annotations.  The text of the data of such a form, which shows no annotations, is read
as these data (`readOne_text`).
-/

namespace HygienicLisp

open Grammar

/-! ## The text of a form, as characters -/

theorem toList_notesText (notes : List String) :
    (notesText notes).toList = notes.flatMap (·.toList ++ [':', ':']) := by
  rw [notesText, String.toList_join, List.flatMap_map]
  simp only [String.toList_append]
  rfl

theorem toList_bracedText (fields : List (String × String)) :
    (bracedText fields).toList =
      '\x7b' :: (List.intercalate [',', ' ']
        (fields.map fun field => fieldText (field.1, field.2.toList)) ++ ['\x7d']) := by
  simp [bracedText, fieldText, String.toList_intercalate, Function.comp_def]

namespace Syntax

theorem textAll_eq (items : List Syntax) : textAll items = items.map text := by
  induction items with
  | nil => rfl
  | cons stx rest ih => rw [textAll, ih, List.map_cons]

theorem textFields_eq (fields : List (String × Syntax)) :
    textFields fields = fields.map fun field => (field.1, field.2.text) := by
  induction fields with
  | nil => rfl
  | cons field rest ih => rw [textFields, ih, List.map_cons]

/-- The text of a form that can be written is read as the form. -/
theorem Writable.readsAs {stx : Syntax} (h : stx.Writable) :
    ReadsAs stx.text.toList stx.bare ∧ Solid stx.text.toList := by
  induction h with
  | @atom c a hnotes ha =>
      obtain ⟨hread, hsolid⟩ := ha.readsAs
      have hnoted := hread.notes hsolid hnotes
      rw [foldr_noted rfl] at hnoted
      rw [text, String.toList_append, toList_notesText]
      exact hnoted
  | @group c shape items hnotes _ ih =>
      have hparts : ∀ part ∈ items.map fun stx => (stx.text.toList, stx.bare),
          Solid part.1 ∧ ReadsAs part.1 part.2 := by
        intro part hpart
        obtain ⟨stx, hstx, rfl⟩ := List.mem_map.1 hpart
        exact (ih stx hstx).symm
      have hread := readsAs_group shape hparts
      have hsolid : Solid (shape.bracket (items.map text)).toList := by
        rw [Shape.toList_bracket]
        cases shape <;> exact ⟨by decide, by decide⟩
      rw [List.map_map, List.map_map] at hread
      have hbracket : ReadsAs (shape.bracket (items.map text)).toList
          (.group {} shape (items.map bare)) := by
        rw [Shape.toList_bracket, List.map_map]
        exact hread
      have hnoted := hbracket.notes hsolid hnotes
      rw [foldr_noted rfl] at hnoted
      rw [text, String.toList_append, toList_notesText, textAll_eq, bare, bareAll_eq]
      exact hnoted
  | @record c fields hnotes hsorted hkeys _ ih =>
      have hread := readsAs_record
        (fields.map fun field => (field.1, field.2.text.toList, field.2.bare))
        (List.pairwise_map.2 hsorted) (by
          intro part hpart
          obtain ⟨field, hfield, rfl⟩ := List.mem_map.1 hpart
          exact ⟨hkeys field hfield, (ih field hfield).symm⟩)
      rw [List.map_map, List.map_map] at hread
      let texts := fields.map fun field => (field.1, field.2.text)
      have hsolid : Solid (bracedText texts).toList := by
        rw [toList_bracedText]
        exact ⟨by decide, by decide⟩
      have hbraced : ReadsAs (bracedText texts).toList
          (.record {} (fields.map fun field => (field.1, field.2.bare))) := by
        rw [toList_bracedText, List.map_map]
        exact hread
      have hnoted := hbraced.notes hsolid hnotes
      rw [foldr_noted rfl] at hnoted
      rw [text, String.toList_append, toList_notesText, textFields_eq, bare, bareFields_eq]
      exact hnoted

end Syntax

/-! ## Whole texts -/

/-- A text that is read as a form, and nothing else, is that form. -/
theorem program_of_readsAs {text : List Char} {form : Syntax} (h : ReadsAs text form)
    (hsolid : Solid text) : ∃ t, program text = .ok [t] ∧ t.Denotes form := by
  have hparts : ∀ part ∈ formParts [(text, form)], Solid part.1 ∧ Finds tree part.1 part.2 :=
    forall_formParts (by simpa using ⟨hsolid, h⟩)
  obtain ⟨hnext, hdenote⟩ := isSeries_tree.intercalate (fuelFor text) isSeparator_comma
    endsSeries_nil hparts (by simp [formParts, fuelFor]) 0 0
  rw [map_fst_formParts, List.append_nil, List.map_singleton, List.intercalate_singleton]
    at hnext hdenote
  rw [program]
  revert hnext hdenote
  generalize series (fuelFor text) _ = found
  rintro hnext hdenote
  obtain ⟨trees, _, pos, far⟩ := found
  cases hnext
  cases hdenote with
  | cons hfirst hrest =>
      cases hrest
      exact ⟨_, rfl, hfirst⟩

/-- A source whose text is read as a form is that form. -/
theorem Source.read_of_readsAs (source : Source) {form : Syntax}
    (h : ReadsAs source.text.toList form) (hsolid : Solid source.text.toList) :
    ∃ stx, source.read = .ok [stx] ∧ stx.bare = form := by
  obtain ⟨t, hprogram, hdenotes⟩ := program_of_readsAs h hsolid
  obtain ⟨stx, hstx, hbare⟩ := hdenotes source
  refine ⟨stx, ?_, hbare⟩
  rw [Source.read, hprogram]
  simp only [SourceTree.toSyntaxAll, hstx]
  rfl

/-! ## Data -/

namespace Syntax

mutual

/-- The data of the form alone, as a form. -/
def plain : Syntax → Syntax
  | .atom _ a => .atom {} a
  | .group _ shape items => .group {} shape (plainAll items)
  | .record _ fields => .record {} (plainFields fields)

/-- `plain` on every form of a sequence. -/
def plainAll : List Syntax → List Syntax
  | [] => []
  | stx :: rest => stx.plain :: plainAll rest

/-- `plain` on every field of a record. -/
def plainFields : List (String × Syntax) → List (String × Syntax)
  | [] => []
  | (key, stx) :: rest => (key, stx.plain) :: plainFields rest

end

theorem plainAll_eq (items : List Syntax) : plainAll items = items.map plain := by
  induction items with
  | nil => rfl
  | cons stx rest ih => rw [plainAll, ih, List.map_cons]

theorem plainFields_eq (fields : List (String × Syntax)) :
    plainFields fields = fields.map fun field => (field.1, field.2.plain) := by
  induction fields with
  | nil => rfl
  | cons field rest ih => rw [plainFields, ih, List.map_cons]

theorem toDatum_bare (stx : Syntax) : stx.bare.toDatum = stx.toDatum := by
  induction stx using partsInduction with
  | atom c a => rfl
  | group c shape items ih =>
      rw [bare, bareAll_eq, toDatum, toDatum, toDatumAll_eq, toDatumAll_eq, List.map_map]
      exact congrArg _ (List.map_congr_left ih)
  | record c fields ih =>
      rw [bare, bareFields_eq, toDatum, toDatum, toDatumFields_eq, toDatumFields_eq, List.map_map]
      exact congrArg _ (List.map_congr_left fun field hfield => Prod.ext rfl (ih field hfield))

theorem toDatum_plain (stx : Syntax) : stx.plain.toDatum = stx.toDatum := by
  induction stx using partsInduction with
  | atom c a => rfl
  | group c shape items ih =>
      rw [plain, plainAll_eq, toDatum, toDatum, toDatumAll_eq, toDatumAll_eq, List.map_map]
      exact congrArg _ (List.map_congr_left ih)
  | record c fields ih =>
      rw [plain, plainFields_eq, toDatum, toDatum, toDatumFields_eq, toDatumFields_eq, List.map_map]
      exact congrArg _ (List.map_congr_left fun field hfield => Prod.ext rfl (ih field hfield))

/-- The data of a form that can be written can be written. -/
theorem Writable.plain {stx : Syntax} (h : stx.Writable) : stx.plain.Writable := by
  induction h with
  | atom _ ha => exact .atom (by simp) ha
  | group _ _ ih =>
      rw [Syntax.plain, plainAll_eq]
      exact .group (by simp) (List.forall_mem_map.2 ih)
  | record _ hsorted hkeys _ ih =>
      rw [Syntax.plain, plainFields_eq]
      exact .record (by simp) (List.pairwise_map.2 hsorted) (List.forall_mem_map.2 hkeys)
        (List.forall_mem_map.2 ih)

end Syntax

theorem Value.textAll_eq (names : Names) (items : List Value) :
    textAll names items = items.map (text names) := by
  induction items with
  | nil => rfl
  | cons v rest ih => rw [textAll, ih, List.map_cons]

theorem Value.textFields_eq (names : Names) (fields : List (String × Value)) :
    textFields names fields = fields.map fun field => (field.1, text names field.2) := by
  induction fields with
  | nil => rfl
  | cons field rest ih => rw [textFields, ih, List.map_cons]

/-- Data print as the form that they are the data of, without its annotations. -/
theorem Value.text_toDatum (names : Names) (stx : Syntax) :
    stx.toDatum.text names = stx.plain.text := by
  have hnotes : ∀ s : String, notesText [] ++ s = s := fun s => by simp [notesText]
  induction stx using Syntax.partsInduction with
  | atom c a =>
      rw [Syntax.toDatum, Syntax.plain, text, Syntax.text, hnotes]
  | group c shape items ih =>
      rw [Syntax.toDatum, Syntax.plain, text, Syntax.text, hnotes, textAll_eq, Syntax.textAll_eq,
        Syntax.toDatumAll_eq, Syntax.plainAll_eq, List.map_map, List.map_map]
      exact congrArg _ (List.map_congr_left ih)
  | record c fields ih =>
      rw [Syntax.toDatum, Syntax.plain, text, Syntax.text, hnotes, textFields_eq,
        Syntax.textFields_eq, Syntax.toDatumFields_eq, Syntax.plainFields_eq, List.map_map,
        List.map_map]
      exact congrArg _ (List.map_congr_left fun field hfield => Prod.ext rfl (ih field hfield))

/-! ## Reading what was written -/

theorem readOne_of_readsAs {text : String} {form : Syntax} (h : ReadsAs text.toList form)
    (hsolid : Solid text.toList) : ∃ stx, readOne text = .ok stx ∧ stx.bare = form := by
  obtain ⟨stx, hread, hbare⟩ := Source.read_of_readsAs ⟨"input", text⟩ h hsolid
  refine ⟨stx, ?_, hbare⟩
  rw [readOne, hread]
  rfl

theorem readData_of_readsAs {text : String} {form : Syntax} (h : ReadsAs text.toList form)
    (hsolid : Solid text.toList) : readData text = .ok [form.toDatum] := by
  obtain ⟨stx, hread, hbare⟩ := Source.read_of_readsAs ⟨"data", text⟩ h hsolid
  rw [readData, hread, ← hbare, Syntax.toDatum_bare]
  rfl

/-- The text of a form that can be written is read as that form, and the text of its data as these
data and nothing else. -/
theorem readOne_text {stx : Syntax} (h : stx.Writable) :
    (∃ found, readOne stx.text = .ok found ∧ found.bare = stx.bare) ∧
      ∀ names, readData (stx.toDatum.text names) = .ok [stx.toDatum] := by
  constructor
  · obtain ⟨hread, hsolid⟩ := h.readsAs
    exact readOne_of_readsAs hread hsolid
  · intro names
    obtain ⟨hread, hsolid⟩ := h.plain.readsAs
    rw [Value.text_toDatum, readData_of_readsAs hread hsolid]
    rw [Syntax.toDatum_bare, Syntax.toDatum_plain]

/-- Names that begin like numbers, the least int, all characters that are escaped and one that is not,
and annotations on a sequence and on a record with three fields. -/
def thornyForm : Syntax :=
  .group { notes := ["note", "-"] } .sexp
    [.ident "-5a", .ident "-1.",
      .group {} .list [.atom {} (.int (-9223372036854775808)), .atom {} (.str "\"\\\n\t\r")],
      .record { notes := ["a.b"] }
        [("#", .atom {} .null), ("-", .group {} .list []), ("x1", .record {} [])]]

theorem readOne_thornyForm :
    thornyForm.Writable ∧
      thornyForm.text = "note::-::(-5a -1. [-9223372036854775808, \"\\\"\\\\\\n\\t\r\"] " ++
        "a.b::\x7b#: null, -: [], x1: \x7b\x7d\x7d)" ∧
      (∃ found, readOne thornyForm.text = .ok found ∧ found.bare = thornyForm.bare) ∧
      ∀ names, readData (thornyForm.toDatum.text names) = .ok [thornyForm.toDatum] := by
  have hnumbers : (Syntax.group {} .list
      [.atom {} (.int (-9223372036854775808)), .atom {} (.str "\"\\\n\t\r")]).Writable := by
    refine .group (by simp) ?_
    simp only [List.forall_mem_cons]
    exact ⟨.atom (by simp) trivial, .atom (by simp) trivial, by simp⟩
  have hrecord : (Syntax.record { notes := ["a.b"] }
      [("#", .atom {} .null), ("-", .group {} .list []), ("x1", .record {} [])]).Writable := by
    refine .record ?_ (by decide) ?_ ?_ <;> simp only [List.forall_mem_cons]
    · exact ⟨by decide, by simp⟩
    · exact ⟨by decide, by decide, by decide, by simp⟩
    · exact ⟨.atom (by simp) trivial, .group (by simp) (by simp),
        .record (by simp) (by simp) (by simp) (by simp), by simp⟩
  have hform : thornyForm.Writable := by
    have hminus : IsName "-5a".toList := by decide
    have hpoint : IsName "-1.".toList := by decide
    refine .group ?_ ?_ <;> simp only [List.forall_mem_cons]
    · exact ⟨by decide, by decide, by simp⟩
    · exact ⟨.atom (by simp) hminus, .atom (by simp) hpoint, hnumbers, hrecord, by simp⟩
  obtain ⟨hread, hdata⟩ := readOne_text hform
  exact ⟨hform, by decide +kernel, hread, hdata⟩

end HygienicLisp
