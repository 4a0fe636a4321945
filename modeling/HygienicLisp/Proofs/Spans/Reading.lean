import HygienicLisp.Proofs.Notation.Containers
import HygienicLisp.Proofs.Spans.Traced

/-!
# Recorded ranges lie in the text

While a text is read, the bytes passed over and the bytes that are left make up the whole text, and
nothing has been looked for beyond its end (`Grammar.Cursor.Within`).  Hence the ranges of what is found
lie in the text (`SourceTree.Within`), and so do those of the forms and of the failure to read them
(`Source.Records.within`).
-/

namespace HygienicLisp

open Grammar

/-- The range lies in a text of the given number of bytes. -/
structure Span.Within (size : Nat) (span : Span) : Prop where
  start_le : span.start ≤ span.stop
  stop_le : span.stop ≤ size

/-! ## Counting bytes -/

theorem byteLength_append (first rest : List Char) :
    byteLength (first ++ rest) = byteLength first + byteLength rest := by
  induction first with
  | nil => simp [byteLength]
  | cons c first ih => rw [List.cons_append, byteLength, byteLength, ih, Nat.add_assoc]

theorem byteLength_toList (s : String) : byteLength s.toList = s.utf8ByteSize := by
  suffices h : ∀ chars : List Char, byteLength chars = (String.ofList chars).utf8ByteSize by
    rw [h, String.ofList_toList]
  intro chars
  induction chars with
  | nil => simp [byteLength]
  | cons c rest ih =>
      rw [byteLength, ih, ← List.singleton_append, String.ofList_append, String.utf8ByteSize_append]
      congr
      rw [← String.size_toByteArray, String.toByteArray_ofList, List.utf8Encode_singleton,
        List.size_toByteArray, String.length_utf8EncodeChar]

theorem string?_eq_some {text body rest : List Char} (h : string? text = some (body, rest)) :
    text = body ++ '"' :: rest := by
  fun_induction string? text generalizing body rest with
  | case1 => cases h
  | case2 rest =>
      cases h
      rfl
  | case3 => cases h
  | case4 c rest ih =>
      obtain ⟨⟨body, rest⟩, hfound, heq⟩ := Option.map_eq_some_iff.1 h
      cases heq
      rw [ih hfound]
      rfl
  | case5 c rest _ _ _ ih =>
      obtain ⟨⟨body, rest⟩, hfound, heq⟩ := Option.map_eq_some_iff.1 h
      cases heq
      rw [ih hfound]
      rfl

theorem append_of_symbol? {text name rest : List Char} (h : symbol? text = some (name, rest)) :
    text = name ++ rest := by
  cases text with
  | nil => cases h
  | cons c text =>
      rw [symbol?] at h
      split at h
      · cases h
        rw [List.cons_append, List.takeWhile_append_dropWhile]
      · cases h

theorem append_of_note? {text name rest : List Char} (h : note? text = some (name, rest)) :
    text = name ++ ':' :: ':' :: rest := by
  rw [note?] at h
  split at h
  · rename_i hsymbol
    cases h
    exact append_of_symbol? hsymbol
  · cases h

/-- A token is found at the beginning of the text. -/
theorem append_of_token? {text body taken rest : List Char} {kind : TokenKind}
    (h : token? text = some (kind, body, taken, rest)) : text = taken ++ rest := by
  unfold token? at h
  split at h
  · obtain ⟨⟨body, rest⟩, hfound, heq⟩ := Option.map_eq_some_iff.1 h
    cases heq
    rw [string?_eq_some hfound]
    simp
  · split at h
    · rename_i hnumber
      cases h
      exact (number?_eq_some hnumber).1
    · split at h
      · cases h
      · rename_i hsymbol
        have htext := append_of_symbol? hsymbol
        split at h
        · cases h
          exact htext
        · split at h
          · cases h
            exact htext
          · cases h
            exact htext

/-! ## Cursors -/

namespace Grammar

/-- What has been passed over and what is left make up a text of the given number of bytes, and nothing
has been looked for beyond its end. -/
structure Cursor.Within (size : Nat) (c : Cursor) : Prop where
  size_eq : c.pos + byteLength c.rest = size
  far_le : c.far ≤ size

variable {size : Nat}

namespace Cursor.Within

variable {c : Cursor}

theorem pos_le (h : c.Within size) : c.pos ≤ size := by
  have := h.size_eq
  omega

theorem touch (h : c.Within size) : c.touch.Within size :=
  ⟨h.size_eq, Nat.max_le.2 ⟨h.far_le, h.pos_le⟩⟩

theorem advance (h : c.Within size) (taken : List Char) {rest : List Char}
    (hrest : c.rest = taken ++ rest) : (c.advance taken rest).Within size := by
  refine ⟨?_, h.far_le⟩
  have hsize := h.size_eq
  rw [hrest, byteLength_append] at hsize
  simp only [Cursor.advance]
  omega

theorem skipFrom_eq (comment : Bool) (text : List Char) (pos : Nat) :
    pos ≤ (skipFrom comment text pos).2 ∧
      (skipFrom comment text pos).2 + byteLength (skipFrom comment text pos).1 =
        pos + byteLength text := by
  fun_induction skipFrom comment text pos with
  | case1 => exact ⟨le_rfl, rfl⟩
  | case2 | case3 | case4 =>
      rename_i ih
      exact ⟨(Nat.le_add_right _ _).trans ih.1, by rw [ih.2, byteLength, Nat.add_assoc]⟩
  | case5 => exact ⟨le_rfl, rfl⟩

theorem skip (h : c.Within size) : c.skip.Within size :=
  ⟨(skipFrom_eq false c.rest c.pos).2.trans h.size_eq, h.far_le⟩

theorem withFar (h : c.Within size) {far : Nat} (hfar : far ≤ size) :
    ({ c with far } : Cursor).Within size :=
  ⟨h.size_eq, hfar⟩

end Cursor.Within

theorem Cursor.pos_le_skip (c : Cursor) : c.pos ≤ c.skip.pos :=
  (Within.skipFrom_eq false c.rest c.pos).1

theorem Cursor.pos_le_advance (c : Cursor) (taken rest : List Char) :
    c.pos ≤ (c.advance taken rest).pos :=
  Nat.le_add_right _ _

/-- The place after a closing bracket. -/
theorem Cursor.Within.close {c : Cursor} (h : c.Within size) {closing : Char} {rest : List Char}
    (hrest : c.skip.rest = closing :: rest) :
    (c.skip.advance [closing] rest).Within size ∧ c.pos ≤ (c.skip.advance [closing] rest).pos :=
  ⟨h.skip.advance [closing] hrest, c.pos_le_skip.trans (c.skip.pos_le_advance _ _)⟩

end Grammar

/-! ## Trees -/

namespace SourceTree

/-- The ranges in the tree lie in a text of the given number of bytes; that of a quoted form begins
with the quote. -/
inductive Within (size : Nat) : SourceTree → Prop
  | token {notes : List String} {t : Token} (ht : t.span.Within size) : Within size (.token notes t)
  | quoted {notes : List String} {span : Span} {inner : SourceTree} (hspan : span.Within size)
      (hquote : span.start < span.stop) (hinner : Within size inner) :
      Within size (.quoted notes span inner)
  | group {notes : List String} {span : Span} {shape : Shape} {items : List SourceTree}
      (hspan : span.Within size) (hitems : ∀ t ∈ items, Within size t) :
      Within size (.group notes span shape items)
  | record {notes : List String} {span : Span} {fields : List (FieldHead × SourceTree)}
      (hspan : span.Within size) (hheads : ∀ field ∈ fields, field.1.span.Within size)
      (hfields : ∀ field ∈ fields, Within size field.2) : Within size (.record notes span fields)

theorem Within.annotate {size : Nat} {t : SourceTree} (h : t.Within size) (note : String) :
    (t.annotate note).Within size := by
  cases h with
  | token ht => exact .token ht
  | quoted hspan hquote hinner => exact .quoted hspan hquote hinner
  | group hspan hitems => exact .group hspan hitems
  | record hspan hheads hfields => exact .record hspan hheads hfields

end SourceTree

namespace Grammar

variable {size : Nat} {α : Type} {P : α → Prop}

/-- Something with the property is found from a place on, or nothing is; either way nothing is looked
for beyond the end of the text. -/
def Lands (size : Nat) (P : α → Prop) (start : Nat) : Except Nat (α × Cursor) → Prop
  | .ok (found, next) => P found ∧ next.Within size ∧ start ≤ next.pos
  | .error far => far ≤ size

theorem Lands.mono {start start' : Nat} {result : Except Nat (α × Cursor)}
    (h : Lands size P start result) (hstart : start' ≤ start) : Lands size P start' result := by
  rcases result with far | ⟨found, next⟩
  · exact h
  · exact ⟨h.1, h.2.1, hstart.trans h.2.2⟩

theorem lands_tokenAt? {c next : Cursor} {t : Token} (hc : c.Within size)
    (h : tokenAt? c = some (t, next)) : t.span.Within size ∧ next.Within size ∧ c.pos ≤ next.pos := by
  obtain ⟨⟨kind, body, taken, rest⟩, hfound, heq⟩ := Option.map_eq_some_iff.1 h
  cases heq
  have hnext := hc.advance taken (append_of_token? hfound)
  have hle := c.pos_le_advance taken rest
  exact ⟨⟨hle, hnext.pos_le⟩, hnext, hle⟩

theorem lands_keyAt? {c next : Cursor} {t : Token} (hc : c.Within size)
    (h : keyAt? c = some (t, next)) : next.Within size ∧ c.pos ≤ next.pos := by
  rw [keyAt?] at h
  split at h
  · exact (lands_tokenAt? hc h).2
  · obtain ⟨⟨name, rest⟩, hfound, heq⟩ := Option.map_eq_some_iff.1 h
    cases heq
    exact ⟨hc.advance name (append_of_symbol? hfound), c.pos_le_advance name rest⟩

end Grammar

section

variable {size : Nat}

/-- A series of parts, by induction on the number of parts that may be looked for. -/
theorem IsSeries.lands {α : Type} {P : α → Prop}
    {look : Nat → Cursor → Except Nat (α × Cursor)} {series : Nat → Cursor → List α × Cursor}
    (hseries : IsSeries look series) {fuel : Nat}
    (hlook : ∀ fuel' < fuel, ∀ c, c.Within size → Lands size P c.pos (look fuel' c)) {c : Cursor}
    (hc : c.Within size) :
    (∀ a ∈ (series fuel c).1, P a) ∧ (series fuel c).2.Within size ∧
      c.pos ≤ (series fuel c).2.pos := by
  induction fuel generalizing c with
  | zero =>
      rw [hseries.zero]
      exact ⟨by simp, hc, le_rfl⟩
  | succ fuel ih =>
      have hfound := hlook fuel (Nat.lt_succ_self fuel) c.skip hc.skip
      rw [hseries.succ]
      cases hlooked : look fuel c.skip with
      | error far =>
          rw [hlooked] at hfound
          exact ⟨by simp, hc.withFar hfound, le_rfl⟩
      | ok found =>
          obtain ⟨a, next⟩ := found
          rw [hlooked] at hfound
          obtain ⟨ha, hnext, hle⟩ := hfound
          obtain ⟨hrest, hlast, hle'⟩ := ih (fun f hf => hlook f (Nat.lt_succ_of_lt hf)) hnext
          exact ⟨List.forall_mem_cons.2 ⟨ha, hrest⟩, hlast,
            c.pos_le_skip.trans (hle.trans hle')⟩

/-- What is found with less than the given number of steps lies in the text. -/
structure LandsBelow (size fuel : Nat) : Prop where
  tree : ∀ fuel' < fuel, ∀ c : Cursor, c.Within size →
    Lands size (SourceTree.Within size) c.pos (Grammar.tree fuel' c)
  field : ∀ fuel' < fuel, ∀ c : Cursor, c.Within size →
    Lands size (fun f => f.1.span.Within size ∧ f.2.Within size) c.pos (Grammar.field fuel' c)

namespace LandsBelow

variable {fuel : Nat} {c : Cursor}

theorem of_le {fuel' : Nat} (h : LandsBelow size fuel) (hle : fuel' ≤ fuel) :
    LandsBelow size fuel' :=
  ⟨fun f hf => h.tree f (hf.trans_le hle), fun f hf => h.field f (hf.trans_le hle)⟩

theorem items (h : LandsBelow size fuel) (hc : c.Within size) :
    (∀ t ∈ (series fuel c).1, t.Within size) ∧ (series fuel c).2.Within size ∧
      c.pos ≤ (series fuel c).2.pos :=
  isSeries_tree.lands h.tree hc

theorem fields (h : LandsBelow size fuel) (hc : c.Within size) :
    (∀ f ∈ (fieldSeries fuel c).1, f.1.span.Within size ∧ f.2.Within size) ∧
      (fieldSeries fuel c).2.Within size ∧ c.pos ≤ (fieldSeries fuel c).2.pos :=
  isSeries_field.lands h.field hc

/-- A sequence that was opened at a place before. -/
theorem groupFrom (h : LandsBelow size fuel) (hc : c.Within size) {start : Cursor}
    (hstart : start.pos ≤ c.pos) (shape : Shape) (closing : Char) :
    Lands size (SourceTree.Within size) start.pos
      (Grammar.groupFrom fuel start shape closing c) := by
  cases fuel with
  | zero => exact hc.far_le
  | succ fuel =>
      obtain ⟨hitems, hlast, hle⟩ := (h.of_le (Nat.le_succ fuel)).items hc
      rw [Grammar.groupFrom]
      generalize series fuel c = found at hitems hlast hle ⊢
      obtain ⟨items, next⟩ := found
      dsimp only at hitems hlast hle ⊢
      split
      · exact hlast.skip.far_le
      · rename_i last rest hrest
        split
        · obtain ⟨hnext, hclosed⟩ := hlast.close hrest
          have hspan := hstart.trans (hle.trans hclosed)
          exact ⟨.group ⟨hspan, hnext.pos_le⟩ hitems, hnext, hspan⟩
        · exact hlast.skip.far_le

/-- The form after the given characters. -/
theorem after (h : LandsBelow size (fuel + 1)) (hc : c.Within size) (taken : List Char)
    {rest : List Char} (hrest : c.rest = taken ++ rest) :
    Lands size (SourceTree.Within size) (c.pos + byteLength taken)
      (Grammar.tree fuel (c.advance taken rest).skip) :=
  (h.tree fuel (Nat.lt_succ_self fuel) _ (hc.advance taken hrest).skip).mono
    (c.advance taken rest).pos_le_skip

/-- One case for each way in which a form may begin. -/
theorem tree_next (h : LandsBelow size fuel) (hc : c.Within size) :
    Lands size (SourceTree.Within size) c.pos (Grammar.tree fuel c) := by
  cases fuel with
  | zero => exact hc.far_le
  | succ fuel =>
      have hbelow := h.of_le (Nat.le_succ fuel)
      have hc := hc.touch
      rw [Grammar.tree, show c.pos = c.touch.pos from rfl]
      generalize c.touch = c at hc ⊢
      dsimp only
      split
      · -- an annotation
        rename_i name rest hnote
        have hrest : c.rest = (name ++ [':', ':']) ++ rest := by simp [append_of_note? hnote]
        have hinner := h.after hc (name ++ [':', ':']) hrest
        split
        · rename_i hfound
          rw [hfound] at hinner
          exact hinner
        · rename_i hfound
          rw [hfound] at hinner
          exact ⟨hinner.1.annotate _, hinner.2.1, (Nat.le_add_right _ _).trans hinner.2.2⟩
      · split
        · -- a quote
          rename_i rest hrest
          have hinner := h.after hc ['\''] hrest
          split
          · rename_i hfound
            rw [hfound] at hinner
            exact hinner
          · rename_i inner next hfound
            rw [hfound] at hinner
            obtain ⟨hinner, hnext, hle⟩ := hinner
            have hquote : c.pos < next.pos := (Nat.lt_succ_self c.pos).trans_le hle
            exact ⟨.quoted ⟨hquote.le, hnext.pos_le⟩ hquote hinner, hnext, hquote.le⟩
        · rename_i rest hrest
          exact hbelow.groupFrom (hc.advance ['('] hrest) (c.pos_le_advance _ _) _ _
        · rename_i rest hrest
          exact hbelow.groupFrom (hc.advance ['['] hrest) (c.pos_le_advance _ _) _ _
        · -- a struct
          rename_i rest hrest
          have hopened := c.pos_le_advance ['\x7b'] rest
          obtain ⟨hfields, hlast, hle⟩ :=
            hbelow.fields (hc.advance ['\x7b'] hrest)
          generalize fieldSeries fuel (c.advance ['\x7b'] rest) = found at hfields hlast hle ⊢
          obtain ⟨fields, next⟩ := found
          dsimp only at hfields hlast hle ⊢
          split
          · exact hlast.skip.far_le
          · rename_i last rest hrest
            split
            · obtain ⟨hnext, hclosed⟩ := hlast.close hrest
              have hspan := hopened.trans (hle.trans hclosed)
              have hheads := fun f hf => (hfields f hf).1
              exact ⟨.record ⟨hspan, hnext.pos_le⟩ hheads fun f hf => (hfields f hf).2, hnext, hspan⟩
            · exact hlast.skip.far_le
        · split
          · exact hc.far_le
          · rename_i htoken
            obtain ⟨ht, hnext, hle⟩ := lands_tokenAt? hc htoken
            exact ⟨.token ht, hnext, hle⟩

theorem field_next (h : LandsBelow size fuel) (hc : c.Within size) :
    Lands size (fun f => f.1.span.Within size ∧ f.2.Within size) c.pos (Grammar.field fuel c) := by
  cases fuel with
  | zero => exact hc.far_le
  | succ fuel =>
      have hc := hc.touch
      rw [Grammar.field, show c.pos = c.touch.pos from rfl]
      generalize c.touch = c at hc ⊢
      dsimp only
      split
      · exact hc.far_le
      · rename_i key next hkey
        obtain ⟨hnext, hle⟩ := lands_keyAt? hc hkey
        split
        · rename_i rest hrest
          have hvalue := h.after hnext.skip [':'] hrest
          split
          · rename_i hfound
            rw [hfound] at hvalue
            exact hvalue
          · rename_i t last hfound
            rw [hfound] at hvalue
            obtain ⟨ht, hlast, hle'⟩ := hvalue
            have hspan : c.pos ≤ last.pos :=
              hle.trans (next.pos_le_skip.trans ((Nat.le_add_right _ _).trans hle'))
            exact ⟨⟨⟨hspan, hlast.pos_le⟩, ht⟩, hlast, hspan⟩
        · exact hc.far_le

end LandsBelow

/-- What is found in a text lies in the text, by induction on the number of steps. -/
theorem landsBelow (size fuel : Nat) : LandsBelow size fuel := by
  induction fuel with
  | zero => exact ⟨by simp, by simp⟩
  | succ fuel ih =>
      refine ⟨fun f hf c hc => ?_, fun f hf c hc => ?_⟩
      · rcases Nat.lt_succ_iff_lt_or_eq.1 hf with hf | rfl
        · exact ih.tree f hf c hc
        · exact ih.tree_next hc
      · rcases Nat.lt_succ_iff_lt_or_eq.1 hf with hf | rfl
        · exact ih.field f hf c hc
        · exact ih.field_next hc

end

/-- The trees of a text lie in the text. -/
theorem within_of_program {text : List Char} {trees : List SourceTree}
    (h : program text = .ok trees) : ∀ t ∈ trees, t.Within (byteLength text) := by
  have hitems := ((landsBelow (byteLength text) (fuelFor text)).items (c := ⟨text, 0, 0⟩)
    ⟨Nat.zero_add _, Nat.zero_le _⟩).1
  rw [program] at h
  generalize series (fuelFor text) ⟨text, 0, 0⟩ = found at h hitems
  obtain ⟨items, last⟩ := found
  dsimp only at h hitems
  split at h
  · cases h
    exact hitems
  · cases h

/-- The place at which a text is found to be outside the grammar lies in the text. -/
theorem offset_le_of_program {text : List Char} {offset : Nat} (h : program text = .error offset) :
    offset ≤ byteLength text := by
  have hlast := ((landsBelow (byteLength text) (fuelFor text)).items (c := ⟨text, 0, 0⟩)
    ⟨Nat.zero_add _, Nat.zero_le _⟩).2.1
  rw [program] at h
  generalize series (fuelFor text) ⟨text, 0, 0⟩ = found at h hlast
  obtain ⟨items, last⟩ := found
  dsimp only at h hlast
  split at h
  · cases h
  · cases h
    exact hlast.skip.far_le

/-! ## Forms -/

/-- A result with the property, or a failure reported at a range of the text of the source. -/
def Source.Gives (source : Source) {α : Type} (P : α → Prop) : Except Error α → Prop
  | .ok a => P a
  | .error e => ∃ fault span, e = .inSource fault source span ∧
      span.Within source.text.utf8ByteSize

namespace Source.Gives

variable {source : Source} {α β : Type} {P : α → Prop} {Q : β → Prop}

theorem bind {r : Except Error α} {f : α → Except Error β} (hr : source.Gives P r)
    (hf : ∀ a, P a → source.Gives Q (f a)) : source.Gives Q (r >>= f) := by
  cases r with
  | ok a => exact hf a hr
  | error e => exact hr

theorem map {r : Except Error α} {f : α → β} (hr : source.Gives P r) (hf : ∀ a, P a → Q (f a)) :
    source.Gives Q (r.map f) := by
  cases r with
  | ok a => exact hf a hr
  | error e => exact hr

end Source.Gives

section

variable {source : Source}

theorem gives_unescape {span : Span} (hspan : span.Within source.text.utf8ByteSize)
    (body : List Char) : source.Gives (fun _ => True) (Token.unescape source span body) := by
  unfold Token.unescape
  split
  · exact trivial
  · exact ⟨_, _, rfl, hspan⟩
  · exact ⟨_, _, rfl, hspan⟩

theorem gives_atom {t : Token} (ht : t.span.Within source.text.utf8ByteSize) :
    source.Gives (fun _ => True) (t.atom source) := by
  unfold Token.atom
  split
  · exact trivial
  · exact trivial
  · exact trivial
  · split
    · exact trivial
    · exact ⟨_, _, rfl, ht⟩
  · exact (gives_unescape ht _).map fun _ _ => trivial
  · exact trivial

theorem gives_fieldKey {head : FieldHead} (h : head.span.Within source.text.utf8ByteSize) :
    source.Gives (fun _ => True) (Token.fieldKey source head) := by
  unfold Token.fieldKey
  split
  · exact gives_unescape h _
  · exact trivial

theorem Span.Within.opening {size : Nat} {span : Span} (h : span.Within size)
    (hquote : span.start < span.stop) : (⟨span.start, span.start + 1⟩ : Span).Within size :=
  ⟨Nat.le_succ _, hquote.trans_le h.stop_le⟩

/-- Every range in the form lies in a text of the given number of bytes. -/
def Syntax.Within (size : Nat) (stx : Syntax) : Prop := ∀ span ∈ stx.spans, span.Within size

namespace Syntax.Within

variable {size : Nat} {span : Span} {notes : List String}

theorem atom (h : span.Within size) (a : Atom) :
    (Syntax.atom { span := some span, notes } a).Within size := by
  simpa [Syntax.Within] using h

theorem group (h : span.Within size) (shape : Shape) {items : List Syntax}
    (hitems : ∀ stx ∈ items, stx.Within size) :
    (Syntax.group { span := some span, notes } shape items).Within size := by
  intro found hfound
  rw [spans_group, List.mem_append, List.mem_flatMap] at hfound
  rcases hfound with hfound | ⟨stx, hstx, hfound⟩
  · cases List.mem_singleton.1 hfound
    exact h
  · exact hitems stx hstx found hfound

theorem record (h : span.Within size) {fields : List (String × Syntax)}
    (hfields : ∀ field ∈ fields, field.2.Within size) :
    (Syntax.record { span := some span, notes } fields).Within size := by
  intro found hfound
  rw [spans_record, List.mem_append, List.mem_flatMap] at hfound
  rcases hfound with hfound | ⟨field, hfield, hfound⟩
  · cases List.mem_singleton.1 hfound
    exact h
  · exact hfields field hfield found hfound

end Syntax.Within

namespace SourceTree

mutual

/-- The form that a tree denotes lies where the tree does. -/
theorem gives_toSyntax : ∀ {t : SourceTree}, t.Within source.text.utf8ByteSize →
    source.Gives (Syntax.Within source.text.utf8ByteSize) (t.toSyntax source)
  | .token notes t, h => by
      cases h with
      | token ht =>
          rw [toSyntax]
          exact (gives_atom ht).bind fun a _ => Syntax.Within.atom ht a
  | .quoted notes span inner, h => by
      cases h with
      | quoted hspan hquote hinner =>
          rw [toSyntax]
          refine (gives_toSyntax hinner).bind fun stx hstx => Syntax.Within.group hspan .sexp ?_
          have hquoted : (Syntax.atom { span := some ⟨span.start, span.start + 1⟩ }
              (.symbol "quote")).Within source.text.utf8ByteSize :=
            .atom (hspan.opening hquote) _
          exact List.forall_mem_cons.2 ⟨hquoted, List.forall_mem_singleton.2 hstx⟩
  | .group notes span shape items, h => by
      cases h with
      | group hspan hitems =>
          rw [toSyntax]
          exact (gives_toSyntaxAll hitems).bind fun items hitems =>
            Syntax.Within.group hspan shape hitems
  | .record notes span fields, h => by
      cases h with
      | record hspan hheads hfields =>
          rw [toSyntax]
          exact (gives_toFields hheads hfields (by simp)).bind fun fields hfields =>
            Syntax.Within.record hspan hfields

theorem gives_toSyntaxAll : ∀ {items : List SourceTree},
    (∀ t ∈ items, t.Within source.text.utf8ByteSize) →
    source.Gives (fun forms => ∀ stx ∈ forms, stx.Within source.text.utf8ByteSize)
      (toSyntaxAll source items)
  | [], _ => by
      rw [toSyntaxAll]
      simp [Source.Gives]
  | t :: rest, h => by
      obtain ⟨ht, hrest⟩ := List.forall_mem_cons.1 h
      rw [toSyntaxAll]
      exact (gives_toSyntax ht).bind fun stx hstx => (gives_toSyntaxAll hrest).bind
        fun forms hforms => List.forall_mem_cons.2 ⟨hstx, hforms⟩

theorem gives_toFields : ∀ {fields : List (FieldHead × SourceTree)} {before : List (String × Syntax)},
    (∀ field ∈ fields, field.1.span.Within source.text.utf8ByteSize) →
    (∀ field ∈ fields, field.2.Within source.text.utf8ByteSize) →
    (∀ field ∈ before, field.2.Within source.text.utf8ByteSize) →
    source.Gives (fun found => ∀ field ∈ found, field.2.Within source.text.utf8ByteSize)
      (toFields source fields before)
  | [], _, _, _, hbefore => by
      rw [toFields]
      exact hbefore
  | (head, t) :: rest, before, hheads, hfields, hbefore => by
      obtain ⟨hhead, hheads⟩ := List.forall_mem_cons.1 hheads
      obtain ⟨ht, hfields⟩ := List.forall_mem_cons.1 hfields
      rw [toFields]
      refine (gives_fieldKey hhead).bind fun key _ => (gives_toSyntax ht).bind fun stx hstx => ?_
      split
      · exact ⟨_, _, rfl, hhead⟩
      · exact gives_toFields hheads hfields (Fields.forall_insert hstx hbefore)

end

end SourceTree

variable (source)

/-- Reading records ranges of the text. -/
theorem Source.gives_read :
    source.Gives (fun forms => ∀ stx ∈ forms, stx.Within source.text.utf8ByteSize) source.read := by
  have hsize := byteLength_toList source.text
  rw [Source.read]
  cases hfound : program source.text.toList with
  | ok trees =>
      have htrees := within_of_program hfound
      rw [hsize] at htrees
      exact SourceTree.gives_toSyntaxAll htrees
  | error offset =>
      have hoffset := offset_le_of_program hfound
      rw [hsize] at hoffset
      exact ⟨_, _, rfl, le_rfl, hoffset⟩

variable {source}

/-- A range recorded when a source was read lies in its text. -/
theorem Source.Records.within {span : Span} (h : source.Records span) :
    span.Within source.text.utf8ByteSize := by
  have hread := source.gives_read
  cases h with
  | onForm hforms hstx hspan =>
      rw [hforms] at hread
      exact hread _ hstx span hspan
  | forFailure hfailure hspan =>
      rw [hfailure] at hread
      obtain ⟨fault, found, rfl, hfound⟩ := hread
      cases hspan
      exact hfound

variable {given : Source → Prop}

/-- What is read from a given source has its ranges from there. -/
theorem Source.reports_read (hsource : given source) :
    Reports given (fun forms => ∀ stx ∈ forms, stx.Traced given) source.read := by
  have hgives := source.gives_read
  cases hread : source.read with
  | ok forms =>
      exact fun stx hstx span hspan => ⟨source, hsource, .onForm hread hstx hspan⟩
  | error e =>
      rw [hread] at hgives
      obtain ⟨fault, span, rfl, -⟩ := hgives
      have hrecorded : Recorded given span := ⟨source, hsource, .forFailure hread rfl⟩
      refine ⟨?_, ?_⟩
      · simpa [Error.inSource, Error.spans] using hrecorded
      · simpa [Error.inSource] using hsource

end

end HygienicLisp
