import HygienicLisp.Yaml.Scalar

/-!
# The layout of a YAML text

Turns a text into tokens.  Blocks begin where a column is further right than that of the
block around it, and end where a line begins further left.  Whether a scalar or a bracket
begins a key is known only when a colon follows on the same line, so a place where a key
may have begun is remembered, and the tokens for the key are put there afterwards.

Settings have no use for directives, anchors, aliases, tags and folded blocks, so a text with
one of these is not read.
-/

namespace HygienicLisp.Yaml

/-- A token.  Blocks have no brackets in the text: that they begin and end follows from the
columns. -/
inductive Token where
  | documentStart
  | documentEnd
  | blockSequenceStart
  | blockMappingStart
  | blockEnd
  | flowSequenceStart
  | flowSequenceEnd
  | flowMappingStart
  | flowMappingEnd
  | blockEntry
  | flowEntry
  | key
  | value
  | scalar (style : Style) (text : List Char)
  deriving DecidableEq, Repr

/-- A place where a key may have begun. -/
structure KeyCandidate where
  /-- The number of tokens before the key. -/
  position : Nat
  start : Cursor
  /-- Whether the place is the column of the block around it, so that nothing but a key may
  stand there. -/
  required : Bool
  deriving DecidableEq, Repr

/-- A text that is being turned into tokens. -/
structure Layout where
  next : Cursor
  tokens : Array Token := #[]
  /-- The columns of the open blocks, innermost first. -/
  columns : List Nat := []
  /-- Where the last key may have begun. -/
  candidate : Option KeyCandidate := none
  /-- The candidates outside the open brackets and braces, innermost first. -/
  outer : List (Option KeyCandidate) := []
  /-- Whether a key may begin at the next token. -/
  keyAllowed : Bool := true
  deriving Repr

namespace Layout

/-- Whether the next token is between brackets or braces, where columns have no meaning. -/
def inFlow (s : Layout) : Bool := !s.outer.isEmpty

/-- The column from which on the lines of a scalar belong to the innermost block: 0 outside
of all blocks. -/
def indent (s : Layout) : Nat :=
  match s.columns with
  | column :: _ => column + 1
  | [] => 0

/-- Adds a token and moves on. -/
def emit (s : Layout) (token : Token) (next : Cursor) : Layout :=
  { s with tokens := s.tokens.push token, next }

/-- Closes the blocks whose columns satisfy a test, from the inside. -/
def closeWhile (s : Layout) (test : Nat → Bool) : Layout :=
  if s.inFlow then s
  else
    { s with
      tokens := s.tokens ++ ((s.columns.takeWhile test).map fun _ => Token.blockEnd)
      columns := s.columns.dropWhile test }

/-- Opens a block at a column, unless it is open already; its token is put at the given
position. -/
def openBlock (s : Layout) (column position : Nat) (token : Token) : Layout :=
  if s.inFlow || column < s.indent then s
  else
    { s with
      tokens := s.tokens.take position ++ #[token] ++ s.tokens.drop position
      columns := column :: s.columns }

/-! ## Keys -/

/-- Gives up a candidate; one that must be a key cannot be given up. -/
def abandon? : Option KeyCandidate → Option (Option KeyCandidate)
  | some k => if k.required then none else some none
  | none => some none

/-- Gives up a candidate that is on an earlier line or more than 1024 characters back. -/
def refresh? (here : Cursor) : Option KeyCandidate → Option (Option KeyCandidate)
  | some k =>
    if k.start.line < here.line ∨ k.start.index + 1024 < here.index then abandon? (some k)
    else some (some k)
  | none => some none

/-- Gives up all candidates that are too far back. -/
def refreshKeys? (s : Layout) : Option Layout := do
  let candidate ← refresh? s.next s.candidate
  let outer ← s.outer.mapM (refresh? s.next)
  return { s with candidate, outer }

/-- Gives up the candidate, and says whether a key may begin next. -/
def abandonKey? (s : Layout) (keyAllowed : Bool) : Option Layout := do
  let candidate ← abandon? s.candidate
  return { s with candidate, keyAllowed }

/-- Remembers the next token as a candidate, if a key may begin there. -/
def proposeKey? (s : Layout) : Option Layout :=
  if s.keyAllowed then do
    let _ ← abandon? s.candidate
    let required := !s.inFlow && s.indent == s.next.column + 1
    return { s with candidate := some ⟨s.tokens.size, s.next, required⟩ }
  else some s

/-! ## Blanks and comments -/

/-- Passes blanks, comments and line ends.  Outside of brackets a tab is no blank where a key
may begin, and a key may begin on each new line. -/
def skipBlanks : Nat → Layout → Layout
  | 0, s => s
  | fuel + 1, s =>
    let blank (c : Char) : Bool := c == ' ' || (c == '\t' && (s.inFlow || !s.keyAllowed))
    let here := (s.next.skipWhile blank).skipComment
    match here.lineEnd? with
    | some (_, next) => skipBlanks fuel { s with next, keyAllowed := s.keyAllowed || !s.inFlow }
    | none => { s with next := here }

/-! ## Tokens -/

/-- A mark between documents: all blocks end before it. -/
def betweenDocuments? (s : Layout) (token : Token) : Option Layout := do
  let s ← (s.closeWhile fun _ => true).abandonKey? false
  return s.emit token (s.next.advance 3)

/-- An opening bracket or brace.  It may begin a key, and a key may begin after it. -/
def openFlow? (s : Layout) (token : Token) : Option Layout := do
  let s ← s.proposeKey?
  let s := s.emit token (s.next.advance 1)
  return { s with outer := s.candidate :: s.outer, candidate := none, keyAllowed := true }

/-- A closing bracket or brace.  One too many is left to the grammar. -/
def closeFlow? (s : Layout) (token : Token) : Option Layout := do
  let s ← s.abandonKey? false
  let s := s.emit token (s.next.advance 1)
  match s.outer with
  | candidate :: outer => return { s with candidate, outer }
  | [] => return s

/-- A comma. -/
def flowEntry? (s : Layout) : Option Layout := do
  let s ← s.abandonKey? true
  return s.emit .flowEntry (s.next.advance 1)

/-- The block that a mark at the next place belongs to is opened if there is none.  Outside
of brackets the mark may stand only where a key may begin. -/
def openBlockHere? (s : Layout) (token : Token) : Option Layout :=
  if s.inFlow then some s
  else if s.keyAllowed then some (s.openBlock s.next.column s.tokens.size token)
  else none

/-- The mark of an item. -/
def blockEntry? (s : Layout) : Option Layout := do
  let s ← s.openBlockHere? .blockSequenceStart
  let s ← s.abandonKey? true
  return s.emit .blockEntry (s.next.advance 1)

/-- The mark of a key. -/
def explicitKey? (s : Layout) : Option Layout := do
  let s ← s.openBlockHere? .blockMappingStart
  let s ← s.abandonKey? (!s.inFlow)
  return s.emit .key (s.next.advance 1)

/-- A colon: if there is a candidate it is a key, and its mapping is opened if there is
none. -/
def value? (s : Layout) : Option Layout :=
  match s.candidate with
  | some k =>
    let tokens := s.tokens.take k.position ++ #[Token.key] ++ s.tokens.drop k.position
    let s := { s with tokens, candidate := none, keyAllowed := false }
    let s := s.openBlock k.start.column k.position .blockMappingStart
    some (s.emit .value (s.next.advance 1))
  | none => do
    let s ← s.openBlockHere? .blockMappingStart
    let s := { s with keyAllowed := !s.inFlow }
    return s.emit .value (s.next.advance 1)

/-- A quoted scalar; it may be a key. -/
def quotedScalar? (s : Layout) (style : Style) : Option Layout := do
  let s ← s.proposeKey?
  let (text, next) ← quoted? (style == .singleQuoted) s.next
  return { s with keyAllowed := false }.emit (.scalar style text) next

/-- A plain scalar.  If it ends with its line, a key may begin after it. -/
def plainScalar? (s : Layout) : Option Layout := do
  let s ← s.proposeKey?
  let scalar ← plain? s.inFlow s.indent s.next
  return { s with keyAllowed := scalar.crossed }.emit (.scalar .plain scalar.text) scalar.next

/-- A block scalar.  It is no key, and a key may begin after it. -/
def blockScalar? (s : Layout) : Option Layout := do
  let s ← s.abandonKey? true
  let (text, next) ← block? s.indent s.next
  return s.emit (.scalar .literal text) next

/-- A character with which no plain scalar begins, whatever follows it. -/
def isIndicator (c : Char) : Bool :=
  flowIndicators.contains c || "#&*!|>'\"%@`".toList.contains c

/-- The token that begins with the given character. -/
def token? (s : Layout) (c : Char) (rest : List Char) : Option Layout :=
  let alone := endsOr isGap rest
  match c with
  | '[' => s.openFlow? .flowSequenceStart
  | '\x7b' => s.openFlow? .flowMappingStart
  | ']' => s.closeFlow? .flowSequenceEnd
  | '\x7d' => s.closeFlow? .flowMappingEnd
  | ',' => s.flowEntry?
  | '\'' => s.quotedScalar? .singleQuoted
  | '"' => s.quotedScalar? .doubleQuoted
  | '|' => if s.inFlow then none else s.blockScalar?
  | '-' => if alone then s.blockEntry? else s.plainScalar?
  | '?' => if s.inFlow || alone then s.explicitKey? else s.plainScalar?
  | ':' => if s.inFlow || alone then s.value? else s.plainScalar?
  | c => if isGap c || isIndicator c then none else s.plainScalar?

/-- The end of the text: all blocks end, and no key is left open. -/
def finish? (s : Layout) : Option (Array Token) :=
  ((s.closeWhile fun _ => true).abandonKey? false).map (·.tokens)

/-- The tokens from a place on. -/
def run : Nat → Layout → Option (Array Token)
  | 0, _ => none
  | fuel + 1, s => do
    let s ← (skipBlanks (s.next.rest.length + 1) s).refreshKeys?
    let s := s.closeWhile fun column => s.next.column < column
    match s.next.rest with
    | [] => s.finish?
    | c :: rest =>
      if s.next.atMark ['-', '-', '-'] then
        run fuel (← s.betweenDocuments? .documentStart)
      else if s.next.atMark ['.', '.', '.'] then
        run fuel (← s.betweenDocuments? .documentEnd)
      else run fuel (← s.token? c rest)

end Layout

/-- The beginning of a text.  A byte order mark there is passed like a blank. -/
def Cursor.start (text : List Char) : Cursor :=
  match text with
  | '\ufeff' :: _ => Cursor.advance { rest := text } 1
  | _ => { rest := text }

/-- The tokens of a text. -/
def tokens? (text : List Char) : Option (List Token) :=
  if text.all isAllowed then
    (Layout.run (text.length + 1) { next := .start text }).map Array.toList
  else none

end HygienicLisp.Yaml
