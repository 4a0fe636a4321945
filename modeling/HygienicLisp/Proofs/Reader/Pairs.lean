import HygienicLisp.Proofs.Reader.Lexed

/-!
# From the matches of the grammar to forms

A parser that follows the grammar hands over what each rule has matched: the rule, the range, the
characters, and the matches inside (`Pair`).  To build forms from them, they are taken apart again,
and nothing is relied on: a value is looked for after the annotations, a key and a value in a field,
the colons of an annotation and the quotes of a string are dropped, and each of these has its own
failure (`Pair.build`).

On what the grammar hands over for the trees of a text, none of these failures comes about: building
gives what the trees denote (`Pair.read_program`).
-/

namespace HygienicLisp

open Grammar

/-! ## Matches -/

/-- The rules of the grammar whose matches are handed over. -/
inductive Rule where
  | program
  | datum
  | note
  | quoted
  | group (shape : Shape)
  | record
  | field
  | token (kind : TokenKind)
  | endOfInput
  deriving DecidableEq, Repr

/-- What a rule has matched. -/
inductive Pair where
  | node (rule : Rule) (span : Span) (text : List Char) (inner : List Pair)
  deriving Repr

namespace Pair

/-- The rule that has matched. -/
def rule : Pair → Rule
  | node rule _ _ _ => rule

/-- The characters that have been matched. -/
def text : Pair → List Char
  | node _ _ text _ => text

/-- The matches inside, in the order of the text. -/
def inner : Pair → List Pair
  | node _ _ _ inner => inner

/-- The characters without the pairs of colons at their end, which are given in reverse order. -/
def dropColons : List Char → List Char
  | ':' :: ':' :: before => dropColons before
  | text => text

/-- The name of an annotation. -/
def noteName (text : List Char) : String := String.ofList (dropColons text.reverse).reverse

/-- The characters between the first and the last one. -/
def unquote (text : List Char) : List Char := (text.drop 1).dropLast

/-- A failure at a range of the source. -/
def refuse {α : Type} (source : Source) (span : Span) (message : String) : Except Error α :=
  .error (.inSource (.parse (.said message)) source span)

/-- The key of a field. -/
def key (source : Source) (field : Span) : Pair → Except Error String
  | node (.token .string) _ text _ => Token.unescape source field (unquote text)
  | node _ _ text _ => .ok (String.ofList text)

mutual

/-- The form of a match. -/
def build (source : Source) : Pair → Except Error Syntax
  | node .datum span _ inner => do
    let (notes, value) ← buildDatum source inner [] none
    match value with
    | none => refuse source span "annotation without a value"
    | some stx => return if notes.isEmpty then stx else stx.withNotes notes
  | node .quoted span _ inner => do
    let items ← buildAll source inner
    let quote := Syntax.atom { span := some ⟨span.start, span.start + 1⟩ } (.symbol "quote")
    return .group { span := some span } .sexp (quote :: items)
  | node (.group shape) span _ inner => do
    let items ← buildAll source inner
    return .group { span := some span } shape items
  | node .record span _ inner => do
    let fields ← buildFields source inner []
    return .record { span := some span } fields
  | node (.token kind) span text _ => do
    let a ← Token.atom source ⟨kind, if kind = .string then unquote text else text, span⟩
    return .atom { span := some span } a
  | node .program span _ _ => refuse source span "unexpected grammar rule program"
  | node .note span _ _ => refuse source span "unexpected grammar rule annotation"
  | node .field span _ _ => refuse source span "unexpected grammar rule field"
  | node .endOfInput span _ _ => refuse source span "unexpected grammar rule EOI"

/-- The forms of matches. -/
def buildAll (source : Source) : List Pair → Except Error (List Syntax)
  | [] => .ok []
  | pair :: rest => do
    let stx ← build source pair
    let rest ← buildAll source rest
    return stx :: rest

/-- The annotations among the matches, on top of those before, and the form of the last of the
other matches. -/
def buildDatum (source : Source) :
    List Pair → List String → Option Syntax → Except Error (List String × Option Syntax)
  | [], notes, value => .ok (notes, value)
  | pair :: rest, notes, value =>
    if pair.rule = .note then buildDatum source rest (notes ++ [noteName pair.text]) value
    else do
      let stx ← build source pair
      buildDatum source rest notes (some stx)

/-- The fields of a record, on top of those before. -/
def buildFields (source : Source) :
    List Pair → List (String × Syntax) → Except Error (List (String × Syntax))
  | [], fields => .ok fields
  | node _ span _ inner :: rest, fields => do
    let (key, stx) ← buildField source span inner
    match Fields.get? key fields with
    | some _ => .error (.inSource (.parse (.duplicateField key)) source span)
    | none => buildFields source rest (Fields.insert key stx fields)

/-- The key and the form of a field. -/
def buildField (source : Source) (span : Span) : List Pair → Except Error (String × Syntax)
  | first :: second :: _ => do
    let key ← first.key source span
    let stx ← build source second
    return (key, stx)
  | _ => refuse source span "malformed struct field"

end

/-- The forms of a whole text. -/
def read (source : Source) : List Pair → Except Error (List Syntax)
  | [] => .ok []
  | program :: _ => buildAll source (program.inner.filter (·.rule ≠ .endOfInput))

end Pair

/-! ## The matches of a tree -/

/-- The characters of a token, the quotes of a string included. -/
def Token.spelling (t : Token) : List Char :=
  if t.kind = .string then '"' :: t.text ++ ['"'] else t.text

/-- The match of a token. -/
def Token.pair (t : Token) : Pair := .node (.token t.kind) t.span t.spelling []

namespace SourceTree

/-- The match of an annotation. -/
def notePair (span : Span) (note : String) : Pair :=
  .node .note span (note.toList ++ [':', ':']) []

/-- The match of a form: those of its annotations and that of its value. -/
def datum (around : Span × List Char) (notes : List String) (value : Pair) : Pair :=
  .node .datum around.1 around.2 (notes.map (notePair around.1) ++ [value])

-- The ranges and the characters of the matches that are only taken apart.
variable (around : Rule → SourceTree → Span × List Char)

mutual

/-- The matches that the grammar hands over for a tree. -/
def pair : SourceTree → Pair
  | token notes t => datum (around .datum (token notes t)) notes t.pair
  | quoted notes span inner =>
    datum (around .datum (quoted notes span inner)) notes
      (.node .quoted span (around .quoted (quoted notes span inner)).2 [pair inner])
  | group notes span shape items =>
    datum (around .datum (group notes span shape items)) notes
      (.node (.group shape) span (around (.group shape) (group notes span shape items)).2
        (pairs items))
  | record notes span fields =>
    datum (around .datum (record notes span fields)) notes
      (.node .record span (around .record (record notes span fields)).2 (fieldPairs fields))

/-- The matches for the trees of a sequence. -/
def pairs : List SourceTree → List Pair
  | [] => []
  | t :: rest => pair t :: pairs rest

/-- The matches for the fields of a record. -/
def fieldPairs : List (FieldHead × SourceTree) → List Pair
  | [] => []
  | (head, t) :: rest =>
    .node .field head.span (around .field t).2 [head.key.pair, pair t] :: fieldPairs rest

end

theorem rule_pair (t : SourceTree) : (t.pair around).rule = .datum := by
  cases t <;> rfl

theorem forall_pairs {items : List SourceTree} : ∀ p ∈ pairs around items, p.rule = .datum := by
  induction items with
  | nil => simp [pairs]
  | cons t rest ih => exact List.forall_mem_cons.2 ⟨rule_pair around t, ih⟩

/-- The match for a whole text. -/
def programPair (trees : List SourceTree) (whole : Span × List Char) (stop : Span) : Pair :=
  .node .program whole.1 whole.2 (pairs around trees ++ [.node .endOfInput stop [] []])

end SourceTree

/-! ## Building what the grammar hands over -/

namespace Pair

theorem dropColons_of_ne {c : Char} (hc : c ≠ ':') (before : List Char) :
    dropColons (c :: before) = c :: before := by
  rw [dropColons]
  rintro _ heq
  exact hc (List.cons.inj heq).1

theorem noteName_colons {name : List Char} (h : IsSymbol name) :
    noteName (name ++ [':', ':']) = String.ofList name := by
  have hdrop : dropColons name.reverse = name.reverse := by
    cases hreverse : name.reverse with
    | nil => rfl
    | cons c before =>
        refine dropColons_of_ne ?_ before
        rintro rfl
        have hmem : ':' ∈ name := List.mem_reverse.1 (hreverse ▸ List.mem_cons_self)
        exact absurd (h.isSymbolChar ':' hmem) (by decide)
  rw [noteName, List.reverse_append]
  change String.ofList (dropColons name.reverse).reverse = _
  rw [hdrop, List.reverse_reverse]

theorem unquote_spelling (body : List Char) : unquote ('"' :: body ++ ['"']) = body := by
  simp [unquote]

theorem key_pair (source : Source) (head : FieldHead) :
    key source head.span head.key.pair = Token.fieldKey source head := by
  obtain ⟨span, kind, text, inner⟩ := head
  cases kind with
  | string =>
      change Token.unescape source span (unquote ('"' :: text ++ ['"'])) = _
      rw [unquote_spelling]
      rfl
  | null | boolean | float | int | symbol => rfl

theorem build_token (source : Source) (t : Token) :
    build source t.pair = do
      let a ← t.atom source
      return .atom { span := some t.span } a := by
  obtain ⟨kind, text, span⟩ := t
  have htext : (if kind = .string then unquote (Token.spelling ⟨kind, text, span⟩)
      else Token.spelling ⟨kind, text, span⟩) = text := by
    by_cases hkind : kind = .string
    · simp only [Token.spelling, hkind, if_true, unquote_spelling]
    · simp only [Token.spelling, hkind, if_false]
  rw [Token.pair, build, htext]

/-- The annotations are found, and then the value. -/
theorem buildDatum_notes {source : Source} {notes : List String}
    (hnotes : ∀ note ∈ notes, IsSymbol note.toList) (span : Span) {value : Pair}
    (hvalue : value.rule ≠ .note) (before : List String) :
    buildDatum source (notes.map (SourceTree.notePair span) ++ [value]) before none = do
      let stx ← build source value
      return (before ++ notes, some stx) := by
  induction notes generalizing before with
  | nil =>
      rw [List.map_nil, List.nil_append, buildDatum, if_neg hvalue, List.append_nil]
      rfl
  | cons note rest ih =>
      obtain ⟨hnote, hrest⟩ := List.forall_mem_cons.1 hnotes
      have hrule : (SourceTree.notePair span note).rule = .note := rfl
      have hname : noteName (SourceTree.notePair span note).text = note := by
        rw [SourceTree.notePair, text, noteName_colons hnote, String.ofList_toList]
      rw [List.map_cons, List.cons_append, buildDatum, if_pos hrule, ih hrest, hname,
        List.append_assoc, List.singleton_append]

/-- Building the match of a form builds the value and puts the annotations on it. -/
theorem build_datum {source : Source} {notes : List String}
    (hnotes : ∀ note ∈ notes, IsSymbol note.toList) (around : Span × List Char) {value : Pair}
    (hvalue : value.rule ≠ .note) :
    build source (SourceTree.datum around notes value) = do
      let stx ← build source value
      return if notes.isEmpty then stx else stx.withNotes notes := by
  rw [SourceTree.datum, build, buildDatum_notes hnotes around.1 hvalue, List.nil_append]
  cases build source value <;> rfl

section

variable (around : Rule → SourceTree → Span × List Char) {source : Source}

theorem buildAll_pairs {items : List SourceTree}
    (h : ∀ t ∈ items, build source (t.pair around) = t.toSyntax source) :
    buildAll source (SourceTree.pairs around items) = SourceTree.toSyntaxAll source items := by
  induction items with
  | nil => rfl
  | cons t rest ih =>
      obtain ⟨hfirst, hrest⟩ := List.forall_mem_cons.1 h
      rw [SourceTree.pairs, buildAll, SourceTree.toSyntaxAll, hfirst, ih hrest]

theorem buildFields_pairs {fields : List (FieldHead × SourceTree)}
    (h : ∀ field ∈ fields, build source (field.2.pair around) = field.2.toSyntax source)
    (before : List (String × Syntax)) :
    buildFields source (SourceTree.fieldPairs around fields) before =
      SourceTree.toFields source fields before := by
  induction fields generalizing before with
  | nil => rfl
  | cons field rest ih =>
      obtain ⟨head, t⟩ := field
      obtain ⟨hfirst, hrest⟩ := List.forall_mem_cons.1 h
      rw [SourceTree.fieldPairs, buildFields, SourceTree.toFields, buildField, key_pair, hfirst]
      cases Token.fieldKey source head with
      | error e => rfl
      | ok key =>
          cases t.toSyntax source with
          | error e => rfl
          | ok stx =>
              change (match Fields.get? key before with
                | some _ => _
                | none => _) = (match Fields.get? key before with
                | some _ => _
                | none => _)
              split
              · rfl
              · exact ih hrest _

/-- The match of a tree is built into the form that the tree denotes, by induction on the tree. -/
theorem build_pair {t : SourceTree} (h : t.Lexed) :
    build source (t.pair around) = t.toSyntax source := by
  induction h with
  | @token notes t hnotes ht =>
      rw [SourceTree.pair, build_datum hnotes _ (by rintro ⟨⟩), build_token, SourceTree.toSyntax]
      cases t.atom source with
      | error e => rfl
      | ok a => cases notes <;> rfl
  | @quoted notes span inner hnotes hinner ih =>
      rw [SourceTree.pair, build_datum hnotes _ (by rintro ⟨⟩), build, buildAll, ih,
        SourceTree.toSyntax]
      cases inner.toSyntax source with
      | error e => rfl
      | ok stx => cases notes <;> rfl
  | @group notes span shape items hnotes hitems ih =>
      rw [SourceTree.pair, build_datum hnotes _ (by rintro ⟨⟩), build, buildAll_pairs around ih,
        SourceTree.toSyntax]
      cases SourceTree.toSyntaxAll source items with
      | error e => rfl
      | ok stxs => cases notes <;> rfl
  | @record notes span fields hnotes hkeys hfields ih =>
      rw [SourceTree.pair, build_datum hnotes _ (by rintro ⟨⟩), build, buildFields_pairs around ih,
        SourceTree.toSyntax]
      cases SourceTree.toFields source fields [] with
      | error e => rfl
      | ok found => cases notes <;> rfl

/-- Reading the matches of a text that the grammar accepts is reading the text. -/
theorem read_program {trees : List SourceTree} (h : program source.text.toList = .ok trees)
    (whole : Span × List Char) (stop : Span) :
    read source [SourceTree.programPair around trees whole stop] = source.read := by
  have hforms : ∀ p ∈ SourceTree.pairs around trees, decide (p.rule ≠ .endOfInput) := by
    intro p hp
    rw [SourceTree.forall_pairs around p hp]
    rfl
  have hbuild : ∀ t ∈ trees, build source (t.pair around) = t.toSyntax source :=
    fun t ht => build_pair around (lexed_of_program h t ht)
  -- The end of the text is dropped, and nothing else.
  rw [read, SourceTree.programPair, inner, List.filter_append, List.filter_eq_self.2 hforms,
    Source.read, h]
  change buildAll source (SourceTree.pairs around trees ++ []) = _
  rw [List.append_nil, buildAll_pairs around hbuild]

end

end Pair

end HygienicLisp
