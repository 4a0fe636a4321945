import HygienicLisp.Proofs.Runs
import HygienicLisp.Proofs.Spans.Reading

/-!
# Moving ranges

A text that has more bytes in front is read with all ranges moved by as many (`Span.shift`).  What a
tree denotes does not depend on where it was read, but for the ranges: when the moved tree denotes a
form, the tree denotes, in any source, that form with its ranges moved back
(`SourceTree.toSyntax_shift`).
-/

namespace HygienicLisp

/-! ## Ranges and trees -/

/-- The range in a text that has `n` more bytes in front. -/
def Span.shift (n : Nat) (span : Span) : Span := ⟨span.start + n, span.stop + n⟩

@[simp] theorem Span.shift_mk (n start stop : Nat) :
    (⟨start, stop⟩ : Span).shift n = ⟨start + n, stop + n⟩ := rfl

theorem Span.shift_shift (m n : Nat) (span : Span) :
    (span.shift m).shift n = span.shift (m + n) := by
  simp [shift, Nat.add_assoc]

@[simp] theorem Span.shift_zero (span : Span) : span.shift 0 = span := rfl

/-- The token in a text that has `n` more bytes in front. -/
def Token.shift (n : Nat) (t : Token) : Token := { t with span := t.span.shift n }

/-- The field in a text that has `n` more bytes in front. -/
def FieldHead.shift (n : Nat) (head : FieldHead) : FieldHead :=
  ⟨head.span.shift n, head.key.shift n⟩

namespace SourceTree

mutual

/-- The tree in a text that has `n` more bytes in front. -/
def shift (n : Nat) : SourceTree → SourceTree
  | token notes t => token notes (t.shift n)
  | quoted notes span inner => quoted notes (span.shift n) (inner.shift n)
  | group notes span shape items => group notes (span.shift n) shape (shiftAll n items)
  | record notes span fields => record notes (span.shift n) (shiftFields n fields)

/-- `shift` on every tree of a sequence. -/
def shiftAll (n : Nat) : List SourceTree → List SourceTree
  | [] => []
  | t :: rest => t.shift n :: shiftAll n rest

/-- `shift` on every field of a record. -/
def shiftFields (n : Nat) : List (FieldHead × SourceTree) → List (FieldHead × SourceTree)
  | [] => []
  | (head, t) :: rest => (head.shift n, t.shift n) :: shiftFields n rest

end

/-- The field and its tree in a text that has `n` more bytes in front. -/
def shiftField (n : Nat) (f : FieldHead × SourceTree) : FieldHead × SourceTree :=
  (f.1.shift n, f.2.shift n)

theorem shiftAll_eq (n : Nat) (items : List SourceTree) :
    shiftAll n items = items.map (shift n) := by
  induction items with
  | nil => rfl
  | cons t rest ih => rw [shiftAll, ih, List.map_cons]

theorem shiftFields_eq (n : Nat) (fields : List (FieldHead × SourceTree)) :
    shiftFields n fields = fields.map (shiftField n) := by
  induction fields with
  | nil => rfl
  | cons f rest ih => rw [shiftFields, ih, List.map_cons, shiftField]

mutual

theorem shift_shift (m n : Nat) : ∀ t : SourceTree, (t.shift m).shift n = t.shift (m + n)
  | token notes t => by simp only [shift, Token.shift, Span.shift_shift]
  | quoted notes span inner => by simp only [shift, Span.shift_shift, shift_shift m n inner]
  | group notes span shape items => by
      simp only [shift, Span.shift_shift, shiftAll_shiftAll m n items]
  | record notes span fields => by
      simp only [shift, Span.shift_shift, shiftFields_shiftFields m n fields]

theorem shiftAll_shiftAll (m n : Nat) :
    ∀ items : List SourceTree, shiftAll n (shiftAll m items) = shiftAll (m + n) items
  | [] => rfl
  | t :: rest => by simp only [shiftAll, shift_shift m n t, shiftAll_shiftAll m n rest]

theorem shiftFields_shiftFields (m n : Nat) : ∀ fields : List (FieldHead × SourceTree),
    shiftFields n (shiftFields m fields) = shiftFields (m + n) fields
  | [] => rfl
  | (head, t) :: rest => by
      simp only [shiftFields, FieldHead.shift, Token.shift, Span.shift_shift, shift_shift m n t,
        shiftFields_shiftFields m n rest]

end

mutual

@[simp] theorem shift_zero : ∀ t : SourceTree, t.shift 0 = t
  | token notes t => rfl
  | quoted notes span inner => by simp only [shift, Span.shift_zero, shift_zero inner]
  | group notes span shape items => by simp only [shift, Span.shift_zero, shiftAll_zero items]
  | record notes span fields => by simp only [shift, Span.shift_zero, shiftFields_zero fields]

@[simp] theorem shiftAll_zero : ∀ items : List SourceTree, shiftAll 0 items = items
  | [] => rfl
  | t :: rest => by simp only [shiftAll, shift_zero t, shiftAll_zero rest]

@[simp] theorem shiftFields_zero :
    ∀ fields : List (FieldHead × SourceTree), shiftFields 0 fields = fields
  | [] => rfl
  | (head, t) :: rest => by
      simp only [shiftFields, shift_zero t, shiftFields_zero rest]
      rfl

end

theorem shiftField_shiftField (m n : Nat) (f : FieldHead × SourceTree) :
    shiftField n (shiftField m f) = shiftField (m + n) f := by
  simp only [shiftField, FieldHead.shift, Token.shift, Span.shift_shift, shift_shift]

theorem shift_annotate (n : Nat) (note : String) (t : SourceTree) :
    (t.annotate note).shift n = (t.shift n).annotate note := by
  cases t <;> simp only [annotate, shift]

end SourceTree

/-! ## Forms -/

/-- The context of a form in a text that has `n` more bytes in front. -/
def Context.shift (n : Nat) (c : Context) : Context := { c with span := c.span.map (Span.shift n) }

namespace Syntax

mutual

/-- The form in a text that has `n` more bytes in front. -/
def shift (n : Nat) : Syntax → Syntax
  | atom c a => atom (c.shift n) a
  | group c shape items => group (c.shift n) shape (shiftAll n items)
  | record c fields => record (c.shift n) (shiftFields n fields)

/-- `shift` on every form of a sequence. -/
def shiftAll (n : Nat) : List Syntax → List Syntax
  | [] => []
  | stx :: rest => stx.shift n :: shiftAll n rest

/-- `shift` on every field of a record. -/
def shiftFields (n : Nat) : List (String × Syntax) → List (String × Syntax)
  | [] => []
  | (key, stx) :: rest => (key, stx.shift n) :: shiftFields n rest

end

theorem get?_shiftFields (n : Nat) (key : String) (fields : List (String × Syntax)) :
    Fields.get? key (shiftFields n fields) = (Fields.get? key fields).map (shift n) := by
  induction fields with
  | nil => rfl
  | cons field rest ih =>
      rw [shiftFields, Fields.get?, Fields.get?]
      split
      · rfl
      · exact ih

theorem insert_shiftFields (n : Nat) (key : String) (stx : Syntax)
    (fields : List (String × Syntax)) :
    Fields.insert key (stx.shift n) (shiftFields n fields) =
      shiftFields n (Fields.insert key stx fields) := by
  induction fields with
  | nil => rfl
  | cons field rest ih =>
      rw [shiftFields, Fields.insert, Fields.insert]
      split
      · rfl
      · split
        · rfl
        · rw [ih]
          rfl

end Syntax

namespace Token

variable {n : Nat} {source : Source} (source' : Source)

theorem unescape_eq_ok {span : Span} {body : List Char} {s : String}
    (h : unescape source span body = .ok s) (span' : Span) :
    unescape source' span' body = .ok s := by
  unfold unescape at h ⊢
  cases hdecode : Quoted.decode body with
  | ok chars =>
      rw [hdecode] at h
      exact h
  | error fault =>
      rw [hdecode] at h
      cases fault <;> cases h

/-- The atom of a token does not depend on where the token was read. -/
theorem atom_eq_ok {t t' : Token} {a : Atom} (h : t.atom source = .ok a) (hkind : t'.kind = t.kind)
    (htext : t'.text = t.text) : t'.atom source' = .ok a := by
  unfold atom at h ⊢
  rw [hkind, htext]
  generalize t.kind = kind at h ⊢
  cases kind with
  | int =>
      dsimp only at h ⊢
      cases hint : machineInt? (intValue t.text) with
      | some i =>
          rw [hint] at h
          exact h
      | none =>
          rw [hint] at h
          cases h
  | string =>
      dsimp only at h ⊢
      cases hbody : unescape source t.span t.text with
      | ok s =>
          rw [hbody] at h
          rw [unescape_eq_ok source' hbody t'.span]
          exact h
      | error e =>
          rw [hbody] at h
          cases h
  | null | boolean | float | symbol => exact h

/-- The key of a field does not depend on where the field was read. -/
theorem fieldKey_eq_ok {head head' : FieldHead} {key : String} (h : fieldKey source head = .ok key)
    (hkind : head'.key.kind = head.key.kind) (htext : head'.key.text = head.key.text) :
    fieldKey source' head' = .ok key := by
  unfold fieldKey at h ⊢
  rw [hkind, htext]
  generalize head.key.kind = kind at h ⊢
  cases kind with
  | string => exact unescape_eq_ok source' h _
  | null | boolean | float | int | symbol => exact h

end Token

namespace SourceTree

variable {source : Source} (source' : Source) (n : Nat)

mutual

/-- A tree denotes what the moved tree does, with its ranges moved back. -/
theorem toSyntax_shift : ∀ (t : SourceTree) {stx : Syntax}, (t.shift n).toSyntax source = .ok stx →
    ∃ stx₀, t.toSyntax source' = .ok stx₀ ∧ stx = stx₀.shift n
  | token notes t, stx, h => by
      rw [shift, toSyntax] at h
      obtain ⟨a, ha, heq⟩ := Except.bind_eq_ok.1 h
      cases heq
      refine ⟨.atom { span := some t.span, notes } a, ?_, rfl⟩
      have ha : t.atom source' = .ok a := Token.atom_eq_ok source' ha rfl rfl
      rw [toSyntax, ha]
      rfl
  | quoted notes span inner, stx, h => by
      rw [shift, toSyntax] at h
      obtain ⟨stx, hinner, heq⟩ := Except.bind_eq_ok.1 h
      cases heq
      obtain ⟨stx₀, hinner₀, rfl⟩ := toSyntax_shift inner hinner
      have hquote : (⟨(span.shift n).start, (span.shift n).start + 1⟩ : Span) =
          Span.shift n ⟨span.start, span.start + 1⟩ := by
        rw [Span.shift_mk, Span.shift, Nat.add_right_comm]
      refine ⟨.group { span := some span, notes } .sexp
        [.atom { span := some ⟨span.start, span.start + 1⟩ } (.symbol "quote"), stx₀], ?_, ?_⟩
      · rw [toSyntax, hinner₀]
        rfl
      · rw [hquote]
        rfl
  | group notes span shape items, stx, h => by
      rw [shift, toSyntax] at h
      obtain ⟨stxs, hitems, heq⟩ := Except.bind_eq_ok.1 h
      cases heq
      obtain ⟨items₀, hitems₀, rfl⟩ := toSyntaxAll_shift items hitems
      refine ⟨.group { span := some span, notes } shape items₀, ?_, rfl⟩
      rw [toSyntax, hitems₀]
      rfl
  | record notes span fields, stx, h => by
      rw [shift, toSyntax] at h
      obtain ⟨stxs, hfields, heq⟩ := Except.bind_eq_ok.1 h
      cases heq
      obtain ⟨fields₀, hfields₀, rfl⟩ := toFields_shift fields [] hfields
      refine ⟨.record { span := some span, notes } fields₀, ?_, rfl⟩
      rw [toSyntax, hfields₀]
      rfl

theorem toSyntaxAll_shift : ∀ (items : List SourceTree) {stxs : List Syntax},
    toSyntaxAll source (shiftAll n items) = .ok stxs →
    ∃ stxs₀, toSyntaxAll source' items = .ok stxs₀ ∧ stxs = Syntax.shiftAll n stxs₀
  | [], stxs, h => by
      cases h
      exact ⟨[], rfl, rfl⟩
  | t :: rest, stxs, h => by
      rw [shiftAll, toSyntaxAll] at h
      obtain ⟨stx, hfirst, h⟩ := Except.bind_eq_ok.1 h
      obtain ⟨stxs, hrest, heq⟩ := Except.bind_eq_ok.1 h
      cases heq
      obtain ⟨stx₀, hfirst₀, rfl⟩ := toSyntax_shift t hfirst
      obtain ⟨stxs₀, hrest₀, rfl⟩ := toSyntaxAll_shift rest hrest
      refine ⟨stx₀ :: stxs₀, ?_, rfl⟩
      rw [toSyntaxAll, hfirst₀, hrest₀]
      rfl

theorem toFields_shift : ∀ (fields : List (FieldHead × SourceTree))
    (before : List (String × Syntax)) {found : List (String × Syntax)},
    toFields source (shiftFields n fields) (Syntax.shiftFields n before) = .ok found →
    ∃ found₀, toFields source' fields before = .ok found₀ ∧ found = Syntax.shiftFields n found₀
  | [], before, found, h => by
      cases h
      exact ⟨before, rfl, rfl⟩
  | (head, t) :: rest, before, found, h => by
      rw [shiftFields, toFields] at h
      obtain ⟨key, hkey, h⟩ := Except.bind_eq_ok.1 h
      obtain ⟨stx, hvalue, h⟩ := Except.bind_eq_ok.1 h
      obtain ⟨stx₀, hvalue₀, rfl⟩ := toSyntax_shift t hvalue
      rw [Syntax.get?_shiftFields] at h
      cases hget : Fields.get? key before with
      | some previous =>
          rw [hget] at h
          cases h
      | none =>
          rw [hget, Option.map_none] at h
          dsimp only at h
          rw [Syntax.insert_shiftFields] at h
          obtain ⟨found₀, hrest₀, rfl⟩ := toFields_shift rest _ h
          have hkey : Token.fieldKey source' head = .ok key :=
            Token.fieldKey_eq_ok source' hkey rfl rfl
          refine ⟨found₀, ?_, rfl⟩
          rw [toFields, hkey, hvalue₀]
          dsimp only [bind, Except.bind]
          rw [hget]
          exact hrest₀

end

end SourceTree

end HygienicLisp
