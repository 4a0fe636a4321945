import HygienicLisp.Proofs.Reader.Literals
import HygienicLisp.Proofs.Spans.Slices

/-!
# What the grammar vouches for

The texts of the tokens that the grammar finds are those of their classes: an int token is an
int literal, a string token the inside of a string literal, and annotations are symbols
(`SourceTree.Lexed`, `lexed_of_program`).  The reader checks none of this again.
-/

namespace HygienicLisp

open Grammar

/-- The text of the token is one of its class. -/
def Token.Lexed (t : Token) : Prop :=
  match t.kind with
  | .int => IsInt t.text
  | .float => IsFloat t.text
  | .string => IsBody t.text
  | .null | .boolean | .symbol => IsSymbol t.text

/-- The tokens in the tree are texts of their classes, and the annotations are symbols. -/
inductive SourceTree.Lexed : SourceTree → Prop
  | token {notes : List String} {t : Token} (hnotes : ∀ note ∈ notes, IsSymbol note.toList)
      (ht : t.Lexed) : Lexed (.token notes t)
  | quoted {notes : List String} {span : Span} {inner : SourceTree}
      (hnotes : ∀ note ∈ notes, IsSymbol note.toList) (hinner : Lexed inner) :
      Lexed (.quoted notes span inner)
  | group {notes : List String} {span : Span} {shape : Shape} {items : List SourceTree}
      (hnotes : ∀ note ∈ notes, IsSymbol note.toList) (hitems : ∀ t ∈ items, Lexed t) :
      Lexed (.group notes span shape items)
  | record {notes : List String} {span : Span} {fields : List (FieldHead × SourceTree)}
      (hnotes : ∀ note ∈ notes, IsSymbol note.toList)
      (hkeys : ∀ field ∈ fields, field.1.key.Lexed) (hfields : ∀ field ∈ fields, Lexed field.2) :
      Lexed (.record notes span fields)

theorem SourceTree.Lexed.annotate {t : SourceTree} (h : t.Lexed) {note : List Char}
    (hnote : IsSymbol note) : (t.annotate (String.ofList note)).Lexed := by
  have hfirst : IsSymbol (String.ofList note).toList := by rwa [String.toList_ofList]
  cases h with
  | token hnotes ht => exact .token (List.forall_mem_cons.2 ⟨hfirst, hnotes⟩) ht
  | quoted hnotes hinner => exact .quoted (List.forall_mem_cons.2 ⟨hfirst, hnotes⟩) hinner
  | group hnotes hitems => exact .group (List.forall_mem_cons.2 ⟨hfirst, hnotes⟩) hitems
  | record hnotes hkeys hfields =>
      exact .record (List.forall_mem_cons.2 ⟨hfirst, hnotes⟩) hkeys hfields

/-! ## Tokens -/

theorem lexed_of_token? {text body taken rest : List Char} {kind : TokenKind}
    (h : token? text = some (kind, body, taken, rest)) (span : Span) :
    Token.Lexed ⟨kind, body, span⟩ := by
  unfold token? at h
  split at h
  · obtain ⟨⟨body, rest⟩, hfound, heq⟩ := Option.map_eq_some_iff.1 h
    cases heq
    exact isBody_of_string? hfound
  · split at h
    · rename_i hnumber
      cases h
      obtain ⟨-, -, ⟨rfl, hint⟩ | ⟨rfl, hfloat⟩⟩ := number?_eq_some hnumber
      · exact hint
      · exact hfloat
    · split at h
      · cases h
      · rename_i hsymbol
        have hname := symbol?_eq_some hsymbol
        split at h
        · cases h
          exact hname
        · split at h
          · cases h
            exact hname
          · cases h
            exact hname

theorem lexed_of_tokenAt? {c next : Cursor} {t : Token} (h : tokenAt? c = some (t, next)) :
    t.Lexed := by
  obtain ⟨⟨kind, body, taken, rest⟩, hfound, heq⟩ := Option.map_eq_some_iff.1 h
  cases heq
  exact lexed_of_token? hfound _

theorem lexed_of_keyAt? {c next : Cursor} {t : Token} (h : keyAt? c = some (t, next)) :
    t.Lexed := by
  rw [keyAt?] at h
  split at h
  · exact lexed_of_tokenAt? h
  · obtain ⟨⟨name, rest⟩, hfound, heq⟩ := Option.map_eq_some_iff.1 h
    cases heq
    exact symbol?_eq_some hfound

/-! ## Trees -/

/-- What holds of everything that is looked for holds of a whole series, by induction on the number
of parts that may be looked for. -/
theorem IsSeries.forall_found {α : Type} {P : α → Prop}
    {look : Nat → Cursor → Except Nat (α × Cursor)} {series : Nat → Cursor → List α × Cursor}
    (hseries : IsSeries look series) {fuel : Nat}
    (hlook : ∀ fuel' < fuel, ∀ {c a next}, look fuel' c = .ok (a, next) → P a) (c : Cursor) :
    ∀ a ∈ (series fuel c).1, P a := by
  induction fuel generalizing c with
  | zero =>
      rw [hseries.zero]
      simp
  | succ fuel ih =>
      rw [hseries.succ]
      cases hfound : look fuel c.skip with
      | error far => simp
      | ok found =>
          obtain ⟨a, next⟩ := found
          have hrest := ih (fun f hf => hlook f (Nat.lt_succ_of_lt hf)) next
          exact List.forall_mem_cons.2 ⟨hlook fuel (Nat.lt_succ_self fuel) hfound, hrest⟩

/-- The tokens found with less than the given number of steps are texts of their classes. -/
structure LexedBelow (fuel : Nat) : Prop where
  tree : ∀ fuel' < fuel, ∀ {c t next}, Grammar.tree fuel' c = .ok (t, next) → t.Lexed
  field : ∀ fuel' < fuel, ∀ {c f next}, Grammar.field fuel' c = .ok (f, next) →
    f.1.key.Lexed ∧ f.2.Lexed

namespace LexedBelow

variable {fuel : Nat}

theorem of_le {fuel' : Nat} (h : LexedBelow fuel) (hle : fuel' ≤ fuel) : LexedBelow fuel' :=
  ⟨fun f hf => h.tree f (hf.trans_le hle), fun f hf => h.field f (hf.trans_le hle)⟩

/-- One case for each way in which a form may begin. -/
theorem tree_next (h : LexedBelow fuel) {c next : Cursor} {t : SourceTree}
    (hfound : Grammar.tree fuel c = .ok (t, next)) : t.Lexed := by
  cases fuel with
  | zero => cases hfound
  | succ fuel =>
      have hnone : ∀ note ∈ ([] : List String), IsSymbol note.toList := by simp
      cases tree_eq_ok.1 hfound with
      | noted hnote hinner =>
          exact (h.tree fuel (Nat.lt_succ_self fuel) hinner).annotate (isSymbol_of_note? hnote)
      | quoted hrest hinner =>
          exact .quoted hnone (h.tree fuel (Nat.lt_succ_self fuel) hinner)
      | @group fuel' shape rest after items last hfuel hrest hitems hclosing =>
          have hbelow : LexedBelow fuel' := h.of_le (by omega)
          have hall := isSeries_tree.forall_found hbelow.tree (c.touch.advance [shape.opening] rest)
          rw [hitems] at hall
          exact .group hnone hall
      | @record rest after fields last hrest hfields hclosing =>
          have hbelow : LexedBelow fuel := h.of_le (Nat.le_succ fuel)
          have hall := isSeries_field.forall_found hbelow.field (c.touch.advance ['\x7b'] rest)
          rw [hfields] at hall
          exact .record hnone (fun f hf => (hall f hf).1) fun f hf => (hall f hf).2
      | token hnote hopen htoken => exact .token hnone (lexed_of_tokenAt? htoken)

theorem field_next (h : LexedBelow fuel) {c last : Cursor} {f : FieldHead × SourceTree}
    (hfound : Grammar.field fuel c = .ok (f, last)) : f.1.key.Lexed ∧ f.2.Lexed := by
  cases fuel with
  | zero => cases hfound
  | succ fuel =>
      obtain ⟨key, next, rest, t, hkey, -, hvalue, rfl⟩ := field_eq_ok.1 hfound
      exact ⟨lexed_of_keyAt? hkey, h.tree fuel (Nat.lt_succ_self fuel) hvalue⟩

end LexedBelow

theorem lexedBelow (fuel : Nat) : LexedBelow fuel := by
  induction fuel using Nat.strong_induction_on with
  | _ fuel ih => exact ⟨fun f hf => (ih f hf).tree_next, fun f hf => (ih f hf).field_next⟩

/-- The tokens of a text that the grammar accepts are texts of their classes. -/
theorem lexed_of_program {text : List Char} {trees : List SourceTree}
    (h : program text = .ok trees) : ∀ t ∈ trees, t.Lexed := by
  have hall := isSeries_tree.forall_found (lexedBelow (fuelFor text)).tree ⟨text, 0, 0⟩
  rw [program] at h
  split at h
  rename_i found last hseries
  rw [hseries] at hall
  dsimp only at h
  split at h
  · cases h
    exact hall
  · cases h

end HygienicLisp
