import HygienicLisp.Source.Tree

/-!
# The grammar of source texts

A text is a sequence of forms.  A form is a value after any number of annotations;
a value is a quoted form, a sexp, a list, a struct, or one of the tokens `null`,
boolean, float, int, string and symbol, tried in this order.  Blanks, commas and
comments separate forms and mean nothing.

A text outside the grammar is reported at the largest offset at which one of these
was looked for in vain.  A cursor carries this offset along, and a failure returns
it.
-/

namespace HygienicLisp.Grammar

/-- A place in a text: what is left of it, its byte offset, and the largest offset
at which something was looked for in vain so far. -/
structure Cursor where
  rest : List Char
  pos : Nat
  far : Nat
  deriving DecidableEq, Repr

/-- The number of bytes a sequence of characters takes. -/
def byteLength : List Char → Nat
  | [] => 0
  | c :: rest => c.utf8Size + byteLength rest

/-- Passes over blanks and comments.  In a comment everything is passed over up to
the end of the line. -/
def skipFrom (comment : Bool) : List Char → Nat → List Char × Nat
  | [], pos => ([], pos)
  | c :: rest, pos =>
    if comment then skipFrom (c != '\n') rest (pos + c.utf8Size)
    else if isBlank c then skipFrom false rest (pos + c.utf8Size)
    else if c == ';' then skipFrom true rest (pos + c.utf8Size)
    else (c :: rest, pos)

namespace Cursor

/-- The place after the separators that stand here. -/
def skip (c : Cursor) : Cursor :=
  let (rest, pos) := skipFrom false c.rest c.pos
  { c with rest, pos }

/-- The place where `taken` ends and `rest` begins. -/
def advance (c : Cursor) (taken rest : List Char) : Cursor :=
  { c with rest, pos := c.pos + byteLength taken }

/-- Notes that something is looked for at this place. -/
def touch (c : Cursor) : Cursor := { c with far := max c.far c.pos }

end Cursor

/-! ## Tokens -/

/-- The symbol that begins a text, and the rest of the text. -/
def symbol? : List Char → Option (List Char × List Char)
  | [] => none
  | c :: rest =>
    if isSymbolStart c then some (c :: rest.takeWhile isSymbolChar, rest.dropWhile isSymbolChar)
    else none

/-- Whether a text does not go on with a character of a symbol. -/
def endsToken : List Char → Bool
  | [] => true
  | c :: _ => !isSymbolChar c

/-- The digits that begin a text, at least one, and the rest of the text. -/
def digits? (text : List Char) : Option (List Char × List Char) :=
  match text.takeWhile isDecimalDigit with
  | [] => none
  | digits => some (digits, text.dropWhile isDecimalDigit)

/-- The sign that begins a text, if it is one of `signs`, and the rest of the text. -/
def sign (signs : List Char) : List Char → List Char × List Char
  | [] => ([], [])
  | c :: rest => if signs.contains c then ([c], rest) else ([], c :: rest)

/-- The exponent that begins a text, if a whole one does, and the rest of the text. -/
def exponent (text : List Char) : List Char × List Char :=
  match text with
  | [] => ([], [])
  | c :: rest =>
    if c == 'e' || c == 'E' then
      let (s, rest') := sign ['+', '-'] rest
      match digits? rest' with
      | some (digits, rest'') => (c :: s ++ digits, rest'')
      | none => ([], text)
    else ([], text)

/-- The float or int that begins a text. -/
def number? (text : List Char) : Option (TokenKind × List Char × List Char) :=
  let (minus, rest) := sign ['-'] text
  match digits? rest with
  | none => none
  | some (whole, rest) =>
    match rest with
    | '.' :: rest' =>
      match digits? rest' with
      | none => none
      | some (places, rest'') =>
        let (e, rest''') := exponent rest''
        if endsToken rest''' then some (.float, minus ++ whole ++ '.' :: places ++ e, rest''')
        else none
    | _ => if endsToken rest then some (.int, minus ++ whole, rest) else none

/-- What stands before the closing quote of a string literal, and what comes after
it.  The opening quote has been read. -/
def string? : List Char → Option (List Char × List Char)
  | [] => none
  | '"' :: rest => some ([], rest)
  | '\\' :: [] => none
  | '\\' :: c :: rest => (string? rest).map fun (body, rest) => ('\\' :: c :: body, rest)
  | c :: rest => (string? rest).map fun (body, rest) => (c :: body, rest)

/-- The token that begins a text: its class, its text, the characters it takes and
the rest. -/
def token? (text : List Char) : Option (TokenKind × List Char × List Char × List Char) :=
  match text with
  | '"' :: rest =>
    (string? rest).map fun (body, rest) => (.string, body, '"' :: body ++ ['"'], rest)
  | _ =>
    match number? text with
    | some (kind, taken, rest) => some (kind, taken, taken, rest)
    | none =>
      match symbol? text with
      | none => none
      | some (name, rest) =>
        if name = ['n', 'u', 'l', 'l'] then some (.null, name, name, rest)
        else if name = ['t', 'r', 'u', 'e'] ∨ name = ['f', 'a', 'l', 's', 'e'] then
          some (.boolean, name, name, rest)
        else some (.symbol, name, name, rest)

/-- The token at a place and the place after it. -/
def tokenAt? (c : Cursor) : Option (Token × Cursor) :=
  (token? c.rest).map fun (kind, text, taken, rest) =>
    let next := c.advance taken rest
    (⟨kind, text, ⟨c.pos, next.pos⟩⟩, next)

/-- The annotation that begins a text: a symbol and two colons at once. -/
def note? (text : List Char) : Option (List Char × List Char) :=
  match symbol? text with
  | some (name, ':' :: ':' :: rest) => some (name, rest)
  | _ => none

/-- The key of a struct field: a string or a symbol. -/
def keyAt? (c : Cursor) : Option (Token × Cursor) :=
  match c.rest with
  | '"' :: _ => tokenAt? c
  | _ =>
    (symbol? c.rest).map fun (name, rest) =>
      let next := c.advance name rest
      (⟨.symbol, name, ⟨c.pos, next.pos⟩⟩, next)

/-! ## Forms -/

mutual

/-- The form at a place. -/
def tree : Nat → Cursor → Except Nat (SourceTree × Cursor)
  | 0, c => .error c.far
  | fuel + 1, c =>
    let c := c.touch
    match note? c.rest with
    | some (name, rest) =>
      match tree fuel (c.advance (name ++ [':', ':']) rest).skip with
      | .error far => .error far
      | .ok (t, next) => .ok (t.annotate (String.ofList name), next)
    | none =>
      match c.rest with
      | '\'' :: rest =>
        match tree fuel (c.advance ['\''] rest).skip with
        | .error far => .error far
        | .ok (inner, next) => .ok (.quoted [] ⟨c.pos, next.pos⟩ inner, next)
      | '(' :: rest => groupFrom fuel c .sexp ')' (c.advance ['('] rest)
      | '[' :: rest => groupFrom fuel c .list ']' (c.advance ['['] rest)
      | '\x7b' :: rest =>
        let (fields, next) := fieldSeries fuel (c.advance ['\x7b'] rest)
        let next := next.skip
        match next.rest with
        | [] => .error next.far
        | closing :: rest =>
          if closing = '\x7d' then
            let next := next.advance [closing] rest
            .ok (.record [] ⟨c.pos, next.pos⟩ fields, next)
          else .error next.far
      | _ =>
        match tokenAt? c with
        | none => .error c.far
        | some (t, next) => .ok (.token [] t, next)

/-- The sequence that was opened at `start`, up to the character `closing`. -/
def groupFrom : Nat → Cursor → Shape → Char → Cursor → Except Nat (SourceTree × Cursor)
  | 0, _, _, _, c => .error c.far
  | fuel + 1, start, shape, closing, c =>
    let (items, next) := series fuel c
    let next := next.skip
    match next.rest with
    | [] => .error next.far
    | last :: rest =>
      if last = closing then
        let next := next.advance [last] rest
        .ok (.group [] ⟨start.pos, next.pos⟩ shape items, next)
      else .error next.far

/-- As many forms as there are at a place. -/
def series : Nat → Cursor → List SourceTree × Cursor
  | 0, c => ([], c)
  | fuel + 1, c =>
    match tree fuel c.skip with
    | .error far => ([], { c with far })
    | .ok (t, next) =>
      let (rest, last) := series fuel next
      (t :: rest, last)

/-- As many struct fields as there are at a place. -/
def fieldSeries : Nat → Cursor → List (FieldHead × SourceTree) × Cursor
  | 0, c => ([], c)
  | fuel + 1, c =>
    match field fuel c.skip with
    | .error far => ([], { c with far })
    | .ok (f, next) =>
      let (rest, last) := fieldSeries fuel next
      (f :: rest, last)

/-- The struct field at a place: a key, a colon and a form. -/
def field : Nat → Cursor → Except Nat ((FieldHead × SourceTree) × Cursor)
  | 0, c => .error c.far
  | fuel + 1, c =>
    let c := c.touch
    match keyAt? c with
    | none => .error c.far
    | some (key, next) =>
      let next := next.skip
      match next.rest with
      | ':' :: rest =>
        match tree fuel (next.advance [':'] rest).skip with
        | .error far => .error far
        | .ok (t, last) => .ok ((⟨⟨c.pos, last.pos⟩, key⟩, t), last)
      | _ => .error c.far

end

/-- Enough steps to read a text: between two characters at most three functions call
each other. -/
def fuelFor (text : List Char) : Nat := 3 * text.length + 3

/-- All forms of a text, or the offset to report when the text is outside the grammar. -/
def program (text : List Char) : Except Nat (List SourceTree) :=
  let (trees, last) := series (fuelFor text) ⟨text, 0, 0⟩
  let last := last.skip
  if last.rest.isEmpty then .ok trees else .error last.far

end HygienicLisp.Grammar
