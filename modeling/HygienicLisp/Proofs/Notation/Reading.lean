import HygienicLisp.Proofs.Contexts
import HygienicLisp.Proofs.Notation.Tokens

/-!
# Reading the text of a form

`Syntax.Writable` says which forms the notation can write: there are no floats in them, symbols,
annotations and keys are symbols of the grammar, and a symbol that stands as a value is no other token.
The grammar finds the text of such a form whole, wherever it stands, and it denotes the form again:
the same data with the same nesting and the same annotations (`Syntax.bare`).

The grammar takes a number of steps.  Three for each character are enough (`Syntax.Reads`).
-/

namespace HygienicLisp

open Grammar

/-! ## Forms that can be written -/

/-- The atom is no float, and a symbol has a name that is read as a symbol. -/
def Atom.Writable : Atom → Prop
  | .float _ => False
  | .symbol name => IsName name.toList
  | _ => True

namespace Syntax

/-- The form has no floats, its symbols are read as symbols, and its annotations and keys are symbols
of the grammar. -/
inductive Writable : Syntax → Prop
  | atom {c : Context} {a : Atom} (hnotes : ∀ note ∈ c.notes, IsSymbol note.toList)
      (ha : a.Writable) : Writable (.atom c a)
  | group {c : Context} {shape : Shape} {items : List Syntax}
      (hnotes : ∀ note ∈ c.notes, IsSymbol note.toList) (hitems : ∀ stx ∈ items, Writable stx) :
      Writable (.group c shape items)
  | record {c : Context} {fields : List (String × Syntax)}
      (hnotes : ∀ note ∈ c.notes, IsSymbol note.toList)
      (hsorted : fields.Pairwise fun field later => field.1 < later.1)
      (hkeys : ∀ field ∈ fields, IsSymbol field.1.toList)
      (hvalues : ∀ field ∈ fields, Writable field.2) : Writable (.record c fields)

mutual

/-- The data of the form with its annotations, and nothing else of its contexts. -/
def bare : Syntax → Syntax
  | .atom c a => .atom { notes := c.notes } a
  | .group c shape items => .group { notes := c.notes } shape (bareAll items)
  | .record c fields => .record { notes := c.notes } (bareFields fields)

/-- `bare` on every form of a sequence. -/
def bareAll : List Syntax → List Syntax
  | [] => []
  | stx :: rest => stx.bare :: bareAll rest

/-- `bare` on every field of a record. -/
def bareFields : List (String × Syntax) → List (String × Syntax)
  | [] => []
  | (key, stx) :: rest => (key, stx.bare) :: bareFields rest

end

theorem bareAll_eq (items : List Syntax) : bareAll items = items.map bare := by
  induction items with
  | nil => rfl
  | cons stx rest ih => rw [bareAll, ih, List.map_cons]

theorem bareFields_eq (fields : List (String × Syntax)) :
    bareFields fields = fields.map fun field => (field.1, field.2.bare) := by
  induction fields with
  | nil => rfl
  | cons field rest ih => rw [bareFields, ih, List.map_cons]

/-- The form under one more annotation. -/
def noted (note : String) (stx : Syntax) : Syntax := stx.withNotes (note :: stx.notes)

theorem bare_noted (note : String) (stx : Syntax) : (stx.noted note).bare = stx.bare.noted note := by
  cases stx <;> simp [noted, withNotes, setContext, context, notes, bare]

theorem foldr_noted {stx : Syntax} (h : stx.context = {}) (notes : List String) :
    notes.foldr noted stx = stx.setContext { notes } := by
  induction notes with
  | nil => cases stx <;> cases h <;> rfl
  | cons note rest ih =>
      rw [List.foldr_cons, ih]
      cases stx <;> rfl

end Syntax

theorem SourceTree.toSyntax_annotate {source : Source} {t : SourceTree} {stx : Syntax}
    (h : t.toSyntax source = .ok stx) (note : String) :
    (t.annotate note).toSyntax source = .ok (stx.noted note) := by
  cases t with
  | token notes token =>
      rw [toSyntax] at h
      rw [annotate, toSyntax]
      cases hatom : token.atom source with
      | error e =>
          rw [hatom] at h
          cases h
      | ok a =>
          rw [hatom] at h
          cases h
          rfl
  | quoted notes span inner =>
      rw [toSyntax] at h
      rw [annotate, toSyntax]
      cases hinner : inner.toSyntax source with
      | error e =>
          rw [hinner] at h
          cases h
      | ok a =>
          rw [hinner] at h
          cases h
          rfl
  | group notes span shape items =>
      rw [toSyntax] at h
      rw [annotate, toSyntax]
      cases hitems : toSyntaxAll source items with
      | error e =>
          rw [hitems] at h
          cases h
      | ok a =>
          rw [hitems] at h
          cases h
          rfl
  | record notes span fields =>
      rw [toSyntax] at h
      rw [annotate, toSyntax]
      cases hfields : toFields source fields [] with
      | error e =>
          rw [hfields] at h
          cases h
      | ok a =>
          rw [hfields] at h
          cases h
          rfl

/-! ## Separators -/

/-- The text goes on with something else than a separator. -/
def Grammar.Solid : List Char → Prop
  | [] => False
  | c :: _ => isBlank c = false ∧ c ≠ ';'

theorem Grammar.Solid.append {text : List Char} (h : Solid text) (rest : List Char) :
    Solid (text ++ rest) := by
  cases text with
  | nil => exact h.elim
  | cons c text => exact h

theorem Grammar.Solid.length_pos {text : List Char} (h : Solid text) : 0 < text.length := by
  cases text with
  | nil => exact h.elim
  | cons c text => exact Nat.succ_pos _

theorem Grammar.IsSymbol.solid {text : List Char} (h : IsSymbol text) : Solid text := by
  cases text with
  | nil => exact h.elim
  | cons c text =>
      have hblank : ∀ b : Char, isSymbolStart b = false → c ≠ b := by
        rintro b hb rfl
        rw [h.1] at hb
        cases hb
      refine ⟨?_, hblank ';' (by decide)⟩
      simp [isBlank, hblank ' ' (by decide), hblank '\t' (by decide), hblank '\r' (by decide),
        hblank '\n' (by decide), hblank ',' (by decide)]

/-- Blanks before something else are passed over. -/
theorem Grammar.Cursor.rest_skip {gap text : List Char} (hgap : ∀ c ∈ gap, isBlank c)
    (htext : Solid text) (pos far : Nat) :
    ∃ pos', Cursor.skip ⟨gap ++ text, pos, far⟩ = ⟨text, pos', far⟩ := by
  induction gap generalizing pos with
  | nil =>
      cases text with
      | nil => exact htext.elim
      | cons c text =>
          refine ⟨pos, ?_⟩
          simp [skip, skipFrom, htext.1, htext.2]
  | cons c gap ih =>
      obtain ⟨hc, hgap⟩ := List.forall_mem_cons.1 hgap
      obtain ⟨pos', hpos'⟩ := ih hgap (pos + c.utf8Size)
      refine ⟨pos', ?_⟩
      rw [← hpos']
      simp [skip, skipFrom, hc]

/-- Where something else than a separator stands nothing is passed over. -/
theorem Grammar.Cursor.skip_of_solid {text : List Char} (htext : Solid text) (pos far : Nat) :
    Cursor.skip ⟨text, pos, far⟩ = ⟨text, pos, far⟩ := by
  cases text with
  | nil => exact htext.elim
  | cons c text => simp [skip, skipFrom, htext.1, htext.2]

/-! ## Found trees -/

/-- What was looked for has been found with the property, up to its place, and the search has stopped
before `rest`. -/
def Found {α : Type} (P : α → Prop) (rest : List Char) : Except Nat (α × Cursor) → Prop
  | .ok (found, next) => next.rest = rest ∧ P found
  | .error _ => False

/-- Wherever the text stands before something that ends it, something with the property is found
there, in three steps for each character. -/
def Finds {α : Type} (look : Nat → Cursor → Except Nat (α × Cursor)) (text : List Char)
    (P : α → Prop) : Prop :=
  ∀ (fuel pos far : Nat) (rest : List Char), 3 * text.length ≤ fuel → Stops rest →
    Found P rest (look fuel ⟨text ++ rest, pos, far⟩)

/-- The tree denotes the form, up to the ranges it was read from. -/
def SourceTree.Denotes (form : Syntax) (t : SourceTree) : Prop :=
  ∀ source, ∃ stx, t.toSyntax source = .ok stx ∧ stx.bare = form

/-- The grammar finds the form in the text. -/
def ReadsAs (text : List Char) (form : Syntax) : Prop := Finds tree text (·.Denotes form)

/-- Annotations before a text that is read. -/
theorem ReadsAs.notes {text : List Char} {form : Syntax} (h : ReadsAs text form)
    (hsolid : Solid text) {notes : List String} (hnotes : ∀ note ∈ notes, IsSymbol note.toList) :
    ReadsAs (notes.flatMap (·.toList ++ [':', ':']) ++ text) (notes.foldr Syntax.noted form) ∧
      Solid (notes.flatMap (·.toList ++ [':', ':']) ++ text) := by
  induction notes with
  | nil => exact ⟨h, hsolid⟩
  | cons note rest ih =>
      obtain ⟨hnote, hrest⟩ := List.forall_mem_cons.1 hnotes
      obtain ⟨ihReads, ihSolid⟩ := ih hrest
      rw [List.flatMap_cons, List.append_assoc, List.append_assoc]
      refine ⟨?_, hnote.solid.append _⟩
      intro fuel pos far after hfuel hafter
      have hlength : 0 < note.toList.length := List.length_pos_iff.2 fun hnil => by
        rw [hnil] at hnote
        exact hnote
      simp only [List.length_append, List.length_cons, List.length_nil] at hfuel
      obtain _ | fuel := fuel
      · omega
      -- The first annotation is a symbol, which stops at the two colons after it.
      have hfound : note? (note.toList ++ ([':', ':'] ++
          (rest.flatMap (·.toList ++ [':', ':']) ++ text)) ++ after) =
            some (note.toList, rest.flatMap (·.toList ++ [':', ':']) ++ text ++ after) := by
        rw [List.append_assoc, note?, symbol?_append hnote (by rfl)]
        simp
      rw [tree]
      simp only [Cursor.touch, hfound]
      rw [Cursor.advance, Cursor.skip_of_solid (ihSolid.append _)]
      have hless : 3 * (rest.flatMap (·.toList ++ [':', ':']) ++ text).length ≤ fuel := by
        rw [List.length_append]
        omega
      have hinner := ihReads fuel (pos + byteLength (note.toList ++ [':', ':']))
        (max far pos) after hless hafter
      revert hinner
      generalize tree fuel _ = found
      intro hinner
      obtain _ | ⟨t, next⟩ := found
      · exact hinner.elim
      · refine ⟨hinner.1, fun source => ?_⟩
        obtain ⟨stx, hstx, hbare⟩ := hinner.2 source
        refine ⟨stx.noted note, ?_, ?_⟩
        · rw [String.ofList_toList]
          exact SourceTree.toSyntax_annotate hstx note
        · rw [Syntax.bare_noted, hbare]
          rfl

/-! ## Atoms -/

/-- A text that is no annotation and opens nothing is found as the token that it begins with. -/
theorem found_token {fuel pos far : Nat} {text body taken rest : List Char}
    {kind : TokenKind} {a : Atom} (hnote : note? text = none)
    (hopen : ∀ c ∈ text.head?, c ≠ '\'' ∧ c ≠ '(' ∧ c ≠ '[' ∧ c ≠ '\x7b')
    (htoken : token? text = some (kind, body, taken, rest))
    (hatom : ∀ source span, Token.atom source ⟨kind, body, span⟩ = .ok a) :
    Found (·.Denotes (.atom {} a)) rest (tree (fuel + 1) ⟨text, pos, far⟩) := by
  have hfound : tree (fuel + 1) ⟨text, pos, far⟩ =
      .ok (.token [] ⟨kind, body, ⟨pos, pos + byteLength taken⟩⟩,
        ⟨rest, pos + byteLength taken, max far pos⟩) := by
    rw [tree]
    simp only [Cursor.touch, hnote]
    split
    · exact absurd rfl (hopen _ rfl).1
    · exact absurd rfl (hopen _ rfl).2.1
    · exact absurd rfl (hopen _ rfl).2.2.1
    · exact absurd rfl (hopen _ rfl).2.2.2
    · simp only [tokenAt?, htoken, Option.map_some, Cursor.advance]
  rw [hfound]
  refine ⟨rfl, fun source => ⟨.atom { span := some ⟨pos, pos + byteLength taken⟩ } a, ?_, rfl⟩⟩
  rw [SourceTree.toSyntax, hatom]
  rfl

theorem Grammar.IsSymbol.opens_nothing {name : List Char} (h : IsSymbol name) (rest : List Char) :
    ∀ c ∈ (name ++ rest).head?, c ≠ '\'' ∧ c ≠ '(' ∧ c ≠ '[' ∧ c ≠ '\x7b' := by
  cases name with
  | nil => exact h.elim
  | cons c name =>
      rintro _ ⟨⟩
      refine ⟨?_, ?_, ?_, ?_⟩ <;> (rintro rfl; exact absurd h.1 (by decide))

/-- A symbol that no number begins with is found as the token it is. -/
theorem readsAs_word {name : List Char} {kind : TokenKind} {a : Atom} (h : IsSymbol name)
    (htoken : ∀ rest, endsToken rest → token? (name ++ rest) = some (kind, name, name, rest))
    (hatom : ∀ source span, Token.atom source ⟨kind, name, span⟩ = .ok a) :
    ReadsAs name (.atom {} a) := by
  intro fuel pos far rest hfuel hrest
  have hlength : 0 < name.length := List.length_pos_iff.2 fun hnil => by
    rw [hnil] at h
    exact h
  obtain _ | fuel := fuel
  · omega
  exact found_token (note?_symbol h hrest) (h.opens_nothing rest) (htoken rest hrest.endsToken)
    hatom

/-- What begins with neither a digit nor a minus is no number. -/
theorem Grammar.not_number {c : Char} (hminus : c ≠ '-') (hdigit : isDecimalDigit c = false)
    (rest : List Char) : ¬IsInt (c :: rest) ∧ ¬IsFloat (c :: rest) := by
  have hhead : ∀ {minus digits after : List Char}, (minus = [] ∨ minus = ['-']) →
      IsDigits digits → minus ++ digits ++ after ≠ c :: rest := by
    intro minus digits after hsign hdigits heq
    rcases hsign with rfl | rfl
    · cases digits with
      | nil => exact hdigits.1 rfl
      | cons d digits =>
          cases heq
          rw [hdigits.2 c List.mem_cons_self] at hdigit
          cases hdigit
    · cases heq
      exact hminus rfl
  constructor
  · generalize htext : c :: rest = text
    rintro ⟨hsign, hdigits⟩
    exact hhead hsign hdigits ((List.append_nil _).trans htext.symm)
  · generalize htext : c :: rest = text
    rintro ⟨hsign, hwhole, hplaces, hexponent⟩
    rw [List.append_assoc] at htext
    exact hhead hsign hwhole htext.symm

theorem readsAs_null : ReadsAs ['n', 'u', 'l', 'l'] (.atom {} .null) := by
  have hsymbol : IsSymbol ['n', 'u', 'l', 'l'] := by decide
  obtain ⟨hint, hfloat⟩ := not_number (c := 'n') (by decide) (by decide) ['u', 'l', 'l']
  exact readsAs_word hsymbol (fun rest hrest => token?_symbol hsymbol hint hfloat hrest)
    fun _ _ => rfl

theorem readsAs_bool (b : Bool) : ReadsAs (boolText b).toList (.atom {} (.bool b)) := by
  cases b with
  | false =>
      have hsymbol : IsSymbol ['f', 'a', 'l', 's', 'e'] := by decide
      obtain ⟨hint, hfloat⟩ := not_number (c := 'f') (by decide) (by decide) ['a', 'l', 's', 'e']
      exact readsAs_word hsymbol (fun rest hrest => token?_symbol hsymbol hint hfloat hrest)
        fun _ _ => rfl
  | true =>
      have hsymbol : IsSymbol ['t', 'r', 'u', 'e'] := by decide
      obtain ⟨hint, hfloat⟩ := not_number (c := 't') (by decide) (by decide) ['r', 'u', 'e']
      exact readsAs_word hsymbol (fun rest hrest => token?_symbol hsymbol hint hfloat hrest)
        fun _ _ => rfl

theorem readsAs_symbol {name : String} (h : IsName name.toList) :
    ReadsAs name.toList (.atom {} (.symbol name)) := by
  refine readsAs_word h.symbol (fun rest hrest => h.token? hrest) fun source span => ?_
  simp only [Token.atom, String.ofList_toList]

/-! ### Ints -/

theorem Grammar.isDigits_toDigits (n : Nat) : IsDigits (Nat.toDigits 10 n) := by
  refine ⟨Nat.toDigits_ne_nil, fun c hc => ?_⟩
  have hdigit := Nat.isDigit_of_mem_toDigits (by decide) (by decide) hc
  simpa [isDecimalDigit, Char.isDigit, Char.le_def] using hdigit

theorem digitsValue_toDigits (n : Nat) : digitsValue (Nat.toDigits 10 n) = n :=
  Nat.ofDigitChars_ten_toDigits

/-- An integer is written as an int literal, which has its value. -/
theorem int_literal (i : Int) :
    ∃ minus digits : List Char, (toString i).toList = minus ++ digits ∧
      (minus = [] ∨ minus = ['-']) ∧ IsDigits digits ∧
      (if minus.isEmpty then (digitsValue digits : Int) else -(digitsValue digits : Int)) = i := by
  cases i with
  | ofNat n =>
      refine ⟨[], Nat.toDigits 10 n, String.toList_ofList, .inl rfl, isDigits_toDigits n, ?_⟩
      rw [digitsValue_toDigits]
      rfl
  | negSucc n =>
      refine ⟨['-'], Nat.toDigits 10 (n + 1), ?_, .inr rfl, isDigits_toDigits (n + 1), ?_⟩
      · exact (String.toList_append).trans (congrArg _ String.toList_ofList)
      · rw [digitsValue_toDigits]
        rfl

theorem readsAs_int (i : Int64) : ReadsAs (toString i.toInt).toList (.atom {} (.int i)) := by
  obtain ⟨minus, digits, htext, hminus, hdigits, hvalue⟩ := int_literal i.toInt
  rw [htext]
  intro fuel pos far rest hfuel hrest
  have hlength : 0 < digits.length := List.length_pos_iff.2 hdigits.1
  rw [List.length_append] at hfuel
  obtain _ | fuel := fuel
  · omega
  refine found_token ?_ ?_ (token?_int (.intro hminus hdigits) hrest.endsToken) fun source span => ?_
  · -- A negative int is a symbol too, and the others begin like no symbol.
    rcases hminus with rfl | rfl
    · cases digits with
      | nil => exact absurd rfl hdigits.1
      | cons d digits =>
          apply note?_of_not_isSymbolStart
          exact isSymbolStart_of_isDecimalDigit (hdigits.2 d List.mem_cons_self)
    · exact note?_symbol ⟨by decide, hdigits.isSymbolChar⟩ hrest
  · rcases hminus with rfl | rfl
    · cases digits with
      | nil => exact absurd rfl hdigits.1
      | cons d digits =>
          rintro _ ⟨⟩
          have hd := hdigits.2 d List.mem_cons_self
          refine ⟨?_, ?_, ?_, ?_⟩ <;> (rintro rfl; exact absurd hd (by decide))
    · rintro _ ⟨⟩
      decide
  · have hsign : sign ['-'] (minus ++ (digits ++ [])) = _ := sign_minus_append hminus hdigits
    rw [List.append_nil] at hsign
    simp only [Token.atom, Token.intValue, hsign, hvalue, machineInt?_toInt]

theorem solid_int (i : Int) : Solid (toString i).toList := by
  obtain ⟨minus, digits, htext, hminus, hdigits, -⟩ := int_literal i
  rw [htext]
  rcases hminus with rfl | rfl
  · cases digits with
    | nil => exact absurd rfl hdigits.1
    | cons d digits =>
        have hd := hdigits.2 d List.mem_cons_self
        have hne : ∀ b : Char, isDecimalDigit b = false → d ≠ b := by
          rintro b hb rfl
          rw [hd] at hb
          cases hb
        refine ⟨?_, hne ';' (by decide)⟩
        simp [isBlank, hne ' ' (by decide), hne '\t' (by decide), hne '\r' (by decide),
          hne '\n' (by decide), hne ',' (by decide)]
  · exact ⟨by decide, by decide⟩

/-! ### Strings -/

theorem readsAs_string (s : String) :
    ReadsAs (Quoted.literal s).toList (.atom {} (.str s)) := by
  rw [Quoted.literal, String.toList_ofList]
  intro fuel pos far rest hfuel hrest
  obtain _ | fuel := fuel
  · simp at hfuel
  rw [List.append_assoc, List.singleton_append]
  refine found_token ?_ ?_ (token?_string s.toList rest) fun source span => ?_
  · exact note?_of_not_isSymbolStart _ (by decide)
  · rintro _ ⟨⟩
    decide
  · simp only [Token.atom, Token.unescape, Quoted.decode_encode, String.ofList_toList, Except.map]

/-- The text of an atom that can be written is read as the atom. -/
theorem Atom.Writable.readsAs {a : Atom} (h : a.Writable) :
    ReadsAs a.text.toList (.atom {} a) ∧ Solid a.text.toList := by
  cases a with
  | null => exact ⟨readsAs_null, by decide, by decide⟩
  | bool b => exact ⟨readsAs_bool b, by cases b <;> exact ⟨by decide, by decide⟩⟩
  | int i => exact ⟨readsAs_int i, solid_int i.toInt⟩
  | float x => exact h.elim
  | str s =>
      refine ⟨readsAs_string s, ?_⟩
      rw [text, Quoted.literal, String.toList_ofList]
      exact ⟨by decide, by decide⟩
  | symbol name => exact ⟨readsAs_symbol h, h.symbol.solid⟩

end HygienicLisp
