import HygienicLisp.Proofs.Spans.Slices

/-!
# The characters under a range

The trees of a text are faithful to it (`SourceTree.Faithful`): the characters under the range of a
tree are read by themselves as that tree, the ranges of the trees in it lie in its own range, and
trees that follow each other do so in the text (`faithful_program`).  A quoted tree begins with its
quote character.
-/

namespace HygienicLisp

open Grammar

/-! ## Places in a text -/

/-- The place is one of the text. -/
structure Grammar.Cursor.At (text : List Char) (c : Cursor) : Prop where
  isSuffix : c.rest <:+ text
  size_eq : c.pos + byteLength c.rest = byteLength text

namespace Grammar.Cursor.At

variable {text : List Char} {c : Cursor}

/-- The characters before the place. -/
theorem exists_before (h : c.At text) :
    ∃ before, text = before ++ c.rest ∧ c.pos = byteLength before := by
  obtain ⟨before, hbefore⟩ := h.isSuffix
  have hsize := h.size_eq
  rw [← hbefore, byteLength_append] at hsize
  exact ⟨before, hbefore.symm, Nat.add_right_cancel hsize⟩

theorem start : Cursor.At text ⟨text, 0, 0⟩ := ⟨List.suffix_rfl, Nat.zero_add _⟩

theorem touch (h : c.At text) : c.touch.At text := ⟨h.isSuffix, h.size_eq⟩

theorem withFar (h : c.At text) (far : Nat) : ({ c with far } : Cursor).At text :=
  ⟨h.isSuffix, h.size_eq⟩

/-- The place after characters that stand here. -/
theorem moved (h : c.At text) {taken : List Char} {next : Cursor}
    (hrest : c.rest = taken ++ next.rest) (hpos : next.pos = c.pos + byteLength taken) :
    next.At text := by
  refine ⟨(hrest ▸ List.suffix_append taken next.rest).trans h.isSuffix, ?_⟩
  rw [← h.size_eq, hrest, byteLength_append, hpos, Nat.add_assoc]

theorem advance (h : c.At text) {taken rest : List Char} (hrest : c.rest = taken ++ rest) :
    (c.advance taken rest).At text :=
  h.moved hrest rfl

theorem isSuffix_skipFrom (comment : Bool) (rest : List Char) (pos : Nat) :
    (skipFrom comment rest pos).1 <:+ rest := by
  fun_induction skipFrom comment rest pos with
  | case1 => exact List.suffix_rfl
  | case2 | case3 | case4 =>
      rename_i ih
      exact ih.trans (List.suffix_cons _ _)
  | case5 => exact List.suffix_rfl

theorem skip (h : c.At text) : c.skip.At text :=
  ⟨(isSuffix_skipFrom false c.rest c.pos).trans h.isSuffix,
    (Within.skipFrom_eq false c.rest c.pos).2.trans h.size_eq⟩

end Grammar.Cursor.At

/-! ## Trees -/

/-- The range covers the piece of the text. -/
def Span.Covers (text piece : List Char) (span : Span) : Prop :=
  ∃ before after, text = before ++ (piece ++ after) ∧
    span = ⟨byteLength before, byteLength before + byteLength piece⟩

/-- The range lies in the other one. -/
structure Span.Inside (outer inner : Span) : Prop where
  start_le : outer.start ≤ inner.start
  stop_le : inner.stop ≤ outer.stop

namespace SourceTree

/-- The range of a tree. -/
def span : SourceTree → Span
  | token _ t => t.span
  | quoted _ span _ => span
  | group _ span _ _ => span
  | record _ span _ => span

/-- The tree without the annotations before it. -/
def unnoted : SourceTree → SourceTree
  | token _ t => token [] t
  | quoted _ span inner => quoted [] span inner
  | group _ span shape items => group [] span shape items
  | record _ span fields => record [] span fields

@[simp] theorem span_annotate (note : String) (t : SourceTree) :
    (t.annotate note).span = t.span := by
  cases t <;> rfl

@[simp] theorem span_unnoted (t : SourceTree) : t.unnoted.span = t.span := by
  cases t <;> rfl

/-- The characters under the range of the tree are read by themselves as the tree, with its ranges
moved back to the beginning. -/
def Spelled (text : List Char) (t : SourceTree) : Prop :=
  ∃ piece t₀, t.span.Covers text piece ∧ t = t₀.shift t.span.start ∧ program piece = .ok [t₀]

/-- The tree and the trees in it are spelled by the text under their ranges, which lie in each other
and follow each other as the trees do. -/
inductive Faithful (text : List Char) : SourceTree → Prop
  | token {notes : List String} {t : Token} (hself : Spelled text (token [] t)) :
      Faithful text (token notes t)
  | quoted {notes : List String} {span : Span} {inner : SourceTree}
      (hself : Spelled text (quoted [] span inner))
      (hquote : Span.Covers text ['\''] ⟨span.start, span.start + 1⟩) (hinner : Faithful text inner)
      (hstart : span.start + 1 ≤ inner.span.start) (hstop : inner.span.stop ≤ span.stop) :
      Faithful text (quoted notes span inner)
  | group {notes : List String} {span : Span} {shape : Shape} {items : List SourceTree}
      (hself : Spelled text (group [] span shape items)) (hitems : ∀ t ∈ items, Faithful text t)
      (hinside : ∀ t ∈ items, span.Inside t.span)
      (hordered : items.Pairwise fun t later => t.span.stop ≤ later.span.start) :
      Faithful text (group notes span shape items)
  | record {notes : List String} {span : Span} {fields : List (FieldHead × SourceTree)}
      (hself : Spelled text (record [] span fields)) (hfields : ∀ f ∈ fields, Faithful text f.2)
      (hinside : ∀ f ∈ fields, span.Inside f.2.span) : Faithful text (record notes span fields)

namespace Faithful

variable {text : List Char} {t : SourceTree}

theorem annotate (h : t.Faithful text) (note : String) : (t.annotate note).Faithful text := by
  cases h with
  | token hself => exact .token hself
  | quoted hself hquote hinner hstart hstop => exact .quoted hself hquote hinner hstart hstop
  | group hself hitems hinside hordered => exact .group hself hitems hinside hordered
  | record hself hfields hinside => exact .record hself hfields hinside

theorem spelled (h : t.Faithful text) : t.unnoted.Spelled text := by
  cases h <;> assumption

theorem start_le_stop (h : t.Faithful text) : t.span.start ≤ t.span.stop := by
  obtain ⟨piece, -, ⟨before, after, -, hspan⟩, -⟩ := h.spelled
  rw [← span_unnoted, hspan]
  exact Nat.le_add_right _ _

end Faithful

end SourceTree

/-- What has been found at a place is spelled by the characters under its range. -/
theorem spelled_of_found {fuel : Nat} {text : List Char} {c next : Cursor} {t : SourceTree}
    (hc : c.At text) (hfound : tree fuel c = .ok (t, next)) (hspan : t.span = ⟨c.pos, next.pos⟩) :
    t.Spelled text := by
  obtain ⟨taken, hsolid, hspelled⟩ := (spelledBelow _).tree fuel (Nat.lt_succ_self _) hfound
  obtain ⟨t₀, ht, hprogram⟩ := program_of_spelledBy hsolid hspelled
  obtain ⟨before, hbefore, hpos⟩ := hc.exists_before
  refine ⟨taken, t₀, ⟨before, next.rest, ?_, ?_⟩, ?_, hprogram⟩
  · rw [hbefore, hspelled.rest_eq]
  · rw [hspan, hspelled.pos_eq, hpos]
  · rw [hspan]
    exact ht

/-! ## Series -/

/-- Things one after the other between two offsets. -/
inductive Placed {α : Type} (P : Nat → Nat → α → Prop) : Nat → Nat → List α → Prop
  | nil {start stop : Nat} (h : start ≤ stop) : Placed P start stop []
  | cons {start first last stop : Nat} {a : α} {items : List α} (hstart : start ≤ first)
      (ha : P first last a) (hrest : Placed P last stop items) : Placed P start stop (a :: items)

namespace Placed

variable {α : Type} {P : Nat → Nat → α → Prop} {start stop : Nat} {items : List α}

/-- Everything lies between the offsets, if each thing ends after it begins. -/
theorem forall_mem (h : Placed P start stop items) (hP : ∀ m n a, P m n a → m ≤ n) :
    start ≤ stop ∧ ∀ a ∈ items, ∃ m n, start ≤ m ∧ n ≤ stop ∧ P m n a := by
  induction h with
  | nil h => exact ⟨h, by simp⟩
  | cons hstart ha _ ih =>
      have hle := hP _ _ _ ha
      refine ⟨hstart.trans (hle.trans ih.1), List.forall_mem_cons.2 ⟨⟨_, _, hstart, ih.1, ha⟩, ?_⟩⟩
      intro b hb
      obtain ⟨m, n, hm, hn, hb⟩ := ih.2 b hb
      exact ⟨m, n, hstart.trans (hle.trans hm), hn, hb⟩

/-- Of two things the first ends before the second begins. -/
theorem pairwise (h : Placed P start stop items) (hP : ∀ m n a, P m n a → m ≤ n) :
    items.Pairwise fun a b => ∃ k m n l, P k m a ∧ m ≤ n ∧ P n l b := by
  induction h with
  | nil => exact .nil
  | cons _ ha hrest ih =>
      refine List.pairwise_cons.2 ⟨fun b hb => ?_, ih⟩
      obtain ⟨n, l, hn, -, hb⟩ := (hrest.forall_mem hP).2 b hb
      exact ⟨_, _, n, l, ha, hn, hb⟩

end Placed

/-- A series of parts, by induction on the number of parts that may be looked for. -/
theorem IsSeries.placed {α : Type} {P : Nat → Nat → α → Prop} {text : List Char}
    {look : Nat → Cursor → Except Nat (α × Cursor)} {series : Nat → Cursor → List α × Cursor}
    (hseries : IsSeries look series) {fuel : Nat}
    (hlook : ∀ fuel' < fuel, ∀ {c a next}, c.At text → look fuel' c = .ok (a, next) →
      P c.pos next.pos a ∧ next.At text) {c : Cursor} (hc : c.At text) :
    Placed P c.pos (series fuel c).2.pos (series fuel c).1 ∧ (series fuel c).2.At text := by
  induction fuel generalizing c with
  | zero =>
      rw [hseries.zero]
      exact ⟨.nil le_rfl, hc⟩
  | succ fuel ih =>
      rw [hseries.succ]
      cases hlooked : look fuel c.skip with
      | error far => exact ⟨.nil le_rfl, hc.withFar far⟩
      | ok found =>
          obtain ⟨a, next⟩ := found
          obtain ⟨ha, hnext⟩ := hlook fuel (Nat.lt_succ_self fuel) hc.skip hlooked
          obtain ⟨hrest, hlast⟩ := ih (fun f hf => hlook f (Nat.lt_succ_of_lt hf)) hnext
          exact ⟨.cons c.pos_le_skip ha hrest, hlast⟩

/-! ## The search -/

theorem span_tokenAt? {c next : Cursor} {t : Token} (h : tokenAt? c = some (t, next)) :
    t.span = ⟨c.pos, next.pos⟩ := by
  obtain ⟨found, -, heq⟩ := Option.map_eq_some_iff.1 h
  cases heq
  rfl

/-- The tree is faithful and lies between the offsets. -/
structure FaithfulAt (text : List Char) (start stop : Nat) (t : SourceTree) : Prop where
  faithful : t.Faithful text
  start_le : start ≤ t.span.start
  stop_le : t.span.stop ≤ stop

theorem FaithfulAt.le {text : List Char} {start stop : Nat} {t : SourceTree}
    (h : FaithfulAt text start stop t) : start ≤ stop :=
  h.start_le.trans (h.faithful.start_le_stop.trans h.stop_le)

/-- What is found with less than the given number of steps is faithful to the text. -/
structure FaithfulBelow (text : List Char) (fuel : Nat) : Prop where
  tree : ∀ fuel' < fuel, ∀ {c t next}, c.At text → Grammar.tree fuel' c = .ok (t, next) →
    FaithfulAt text c.pos next.pos t ∧ next.At text
  field : ∀ fuel' < fuel, ∀ {c f next}, c.At text → Grammar.field fuel' c = .ok (f, next) →
    FaithfulAt text c.pos next.pos f.2 ∧ next.At text

namespace FaithfulBelow

variable {text : List Char} {fuel : Nat}

theorem of_le {fuel' : Nat} (h : FaithfulBelow text fuel) (hle : fuel' ≤ fuel) :
    FaithfulBelow text fuel' :=
  ⟨fun f hf => h.tree f (hf.trans_le hle), fun f hf => h.field f (hf.trans_le hle)⟩

/-- The form after given characters. -/
theorem after (h : FaithfulBelow text (fuel + 1)) {opening rest : List Char} {c next : Cursor}
    {t : SourceTree} (hc : c.At text) (hrest : c.rest = opening ++ rest)
    (hfound : Grammar.tree fuel (c.advance opening rest).skip = .ok (t, next)) :
    FaithfulAt text (c.pos + byteLength opening) next.pos t ∧ next.At text := by
  obtain ⟨ht, hnext⟩ := h.tree fuel (Nat.lt_succ_self fuel) (hc.advance hrest).skip hfound
  exact ⟨⟨ht.faithful, (c.advance opening rest).pos_le_skip.trans ht.start_le, ht.stop_le⟩, hnext⟩

/-- As many forms as there are at a place. -/
theorem items (h : FaithfulBelow text fuel) {c last : Cursor} {items : List SourceTree}
    (hc : c.At text) (hitems : series fuel c = (items, last)) :
    (∀ t ∈ items, t.Faithful text ∧ c.pos ≤ t.span.start ∧ t.span.stop ≤ last.pos) ∧
      items.Pairwise fun t later => t.span.stop ≤ later.span.start := by
  have hplaced := (isSeries_tree.placed h.tree hc).1
  rw [hitems] at hplaced
  have hle : ∀ m n t, FaithfulAt text m n t → m ≤ n := fun m n t ht => ht.le
  refine ⟨fun t ht => ?_, (hplaced.pairwise hle).imp ?_⟩
  · obtain ⟨m, n, hm, hn, ht⟩ := (hplaced.forall_mem hle).2 t ht
    exact ⟨ht.faithful, hm.trans ht.start_le, ht.stop_le.trans hn⟩
  · rintro t later ⟨k, m, n, l, ht, hmn, hlater⟩
    exact ht.stop_le.trans (hmn.trans hlater.start_le)

/-- As many struct fields as there are at a place. -/
theorem fields (h : FaithfulBelow text fuel) {c last : Cursor}
    {fields : List (FieldHead × SourceTree)} (hc : c.At text)
    (hfields : fieldSeries fuel c = (fields, last)) :
    ∀ f ∈ fields, f.2.Faithful text ∧ c.pos ≤ f.2.span.start ∧ f.2.span.stop ≤ last.pos := by
  let P := fun m n (f : FieldHead × SourceTree) => FaithfulAt text m n f.2
  have hplaced : Placed P _ _ _ := (isSeries_field.placed h.field hc).1
  rw [hfields] at hplaced
  intro f hf
  obtain ⟨m, n, hm, hn, hf⟩ := (hplaced.forall_mem fun m n f hf => hf.le).2 f hf
  exact ⟨hf.faithful, hm.trans hf.start_le, hf.stop_le.trans hn⟩

theorem quoted (h : FaithfulBelow text (fuel + 1)) {c next : Cursor} {rest : List Char}
    {inner : SourceTree} (hc : c.At text) (hrest : c.rest = '\'' :: rest)
    (hinner : Grammar.tree fuel (c.touch.advance ['\''] rest).skip = .ok (inner, next))
    (hself : SourceTree.Spelled text (.quoted [] ⟨c.pos, next.pos⟩ inner)) :
    SourceTree.Faithful text (.quoted [] ⟨c.pos, next.pos⟩ inner) := by
  have hopening : c.touch.rest = ['\''] ++ rest := hrest
  have ht := (h.after hc.touch hopening hinner).1
  obtain ⟨before, hbefore, hpos⟩ := hc.exists_before
  have hquote : Span.Covers text ['\''] ⟨c.pos, c.pos + 1⟩ := by
    refine ⟨before, rest, ?_, ?_⟩
    · rw [hbefore, hrest]
      rfl
    · rw [hpos]
      rfl
  exact .quoted hself hquote ht.faithful ht.start_le ht.stop_le

theorem group (h : FaithfulBelow text fuel) {c last : Cursor} {shape : Shape}
    {rest after : List Char} {items : List SourceTree} (hc : c.At text)
    (hrest : c.rest = shape.opening :: rest)
    (hitems : series fuel (c.touch.advance [shape.opening] rest) = (items, last))
    (hself : SourceTree.Spelled text
      (.group [] ⟨c.pos, (last.skip.advance [shape.closing] after).pos⟩ shape items)) :
    SourceTree.Faithful text
      (.group [] ⟨c.pos, (last.skip.advance [shape.closing] after).pos⟩ shape items) := by
  have hopening : c.touch.rest = [shape.opening] ++ rest := hrest
  obtain ⟨hmem, hordered⟩ := h.items (hc.touch.advance hopening) hitems
  refine .group hself (fun t ht => (hmem t ht).1) (fun t ht => ?_) hordered
  have hstart := c.touch.pos_le_advance [shape.opening] rest
  have hstop := last.pos_le_skip.trans (last.skip.pos_le_advance [shape.closing] after)
  exact ⟨hstart.trans (hmem t ht).2.1, (hmem t ht).2.2.trans hstop⟩

theorem record (h : FaithfulBelow text fuel) {c last : Cursor} {rest after : List Char}
    {fields : List (FieldHead × SourceTree)} (hc : c.At text) (hrest : c.rest = '\x7b' :: rest)
    (hfields : fieldSeries fuel (c.touch.advance ['\x7b'] rest) = (fields, last))
    (hself : SourceTree.Spelled text
      (.record [] ⟨c.pos, (last.skip.advance ['\x7d'] after).pos⟩ fields)) :
    SourceTree.Faithful text
      (.record [] ⟨c.pos, (last.skip.advance ['\x7d'] after).pos⟩ fields) := by
  have hopening : c.touch.rest = ['\x7b'] ++ rest := hrest
  have hmem := h.fields (hc.touch.advance hopening) hfields
  refine .record hself (fun f hf => (hmem f hf).1) fun f hf => ?_
  have hstart := c.touch.pos_le_advance ['\x7b'] rest
  have hstop := last.pos_le_skip.trans (last.skip.pos_le_advance ['\x7d'] after)
  exact ⟨hstart.trans (hmem f hf).2.1, (hmem f hf).2.2.trans hstop⟩

/-- One case for each way in which a form may begin. -/
theorem tree_next (h : FaithfulBelow text fuel) {c next : Cursor} {t : SourceTree} (hc : c.At text)
    (hfound : Grammar.tree fuel c = .ok (t, next)) :
    FaithfulAt text c.pos next.pos t ∧ next.At text := by
  cases fuel with
  | zero => cases hfound
  | succ fuel =>
      have hself := spelled_of_found hc hfound
      obtain ⟨taken, -, hspelled⟩ := (spelledBelow _).tree _ (Nat.lt_succ_self _) hfound
      refine ⟨?_, hc.moved hspelled.rest_eq hspelled.pos_eq⟩
      cases tree_eq_ok.1 hfound with
      | @noted name rest inner next hnote hinner =>
          -- An annotation is no part of the range of the form that it is put before.
          have hrest : c.touch.rest = name ++ [':', ':'] ++ rest := by
            rw [List.append_assoc]
            exact append_of_note? hnote
          have ht := (h.after hc.touch hrest hinner).1
          refine ⟨ht.faithful.annotate _, ?_, ?_⟩
          · rw [SourceTree.span_annotate]
            exact (Nat.le_add_right _ _).trans ht.start_le
          · rw [SourceTree.span_annotate]
            exact ht.stop_le
      | quoted hrest hinner => exact ⟨h.quoted hc hrest hinner (hself rfl), le_rfl, le_rfl⟩
      | group hfuel hrest hitems hclosing =>
          subst hfuel
          exact ⟨(h.of_le (by omega)).group hc hrest hitems (hself rfl), le_rfl, le_rfl⟩
      | record hrest hfields hclosing =>
          exact ⟨(h.of_le (by omega)).record hc hrest hfields (hself rfl), le_rfl, le_rfl⟩
      | token hnote hopen htoken =>
          have hspan := span_tokenAt? htoken
          refine ⟨.token (hself hspan), ?_, ?_⟩
          · exact (congrArg Span.start hspan).ge
          · exact (congrArg Span.stop hspan).le

theorem field_next (h : FaithfulBelow text fuel) {c last : Cursor} {f : FieldHead × SourceTree}
    (hc : c.At text) (hfound : Grammar.field fuel c = .ok (f, last)) :
    FaithfulAt text c.pos last.pos f.2 ∧ last.At text := by
  cases fuel with
  | zero => cases hfound
  | succ fuel =>
      obtain ⟨key, next, rest, t, hkey, hcolon, hvalue, rfl⟩ := field_eq_ok.1 hfound
      obtain ⟨opening, -, hrest, hopening, -⟩ := spelled_key hkey hcolon
      rw [hopening] at hvalue
      obtain ⟨ht, hlast⟩ := h.after hc.touch hrest hvalue
      exact ⟨⟨ht.faithful, (Nat.le_add_right _ _).trans ht.start_le, ht.stop_le⟩, hlast⟩

end FaithfulBelow

/-- What is found is faithful to the text, by induction on the number of steps. -/
theorem faithfulBelow (text : List Char) (fuel : Nat) : FaithfulBelow text fuel := by
  induction fuel using Nat.strong_induction_on with
  | _ fuel ih => exact ⟨fun f hf => (ih f hf).tree_next, fun f hf => (ih f hf).field_next⟩

/-- The trees of a text are faithful to it and follow each other in it. -/
theorem faithful_program {text : List Char} {trees : List SourceTree}
    (h : program text = .ok trees) :
    (∀ t ∈ trees, t.Faithful text) ∧
      trees.Pairwise fun t later => t.span.stop ≤ later.span.start := by
  rw [program] at h
  generalize hitems : series (fuelFor text) ⟨text, 0, 0⟩ = found at h
  obtain ⟨items, last⟩ := found
  obtain ⟨hmem, hordered⟩ := (faithfulBelow text (fuelFor text)).items Cursor.At.start hitems
  dsimp only at h
  split at h
  · cases h
    exact ⟨fun t ht => (hmem t ht).1, hordered⟩
  · cases h

end HygienicLisp
