import HygienicLisp.Number.Numeral
import HygienicLisp.Yaml.Cursor

/-!
# Scalars of a YAML text

A scalar is written plainly, between quotes of either kind, or as an indented block that is
taken literally.  In plain and quoted scalars a line end counts as a blank, and of several
line ends in a row the first is dropped.  Each function returns the text of the scalar and
the place after it, or nothing if the notation is broken.
-/

namespace HygienicLisp.Yaml

/-- How a scalar is written. -/
inductive Style where
  | plain
  | singleQuoted
  | doubleQuoted
  | literal
  deriving DecidableEq, Repr

/-! ## Line ends inside plain and quoted scalars -/

/-- Blanks and line ends between two words of a scalar. -/
structure Gap where
  /-- The blanks before the first line end. -/
  spaces : List Char := []
  /-- What the line ends stand for. -/
  breaks : List Char := []
  /-- Whether a line end, possibly an escaped one, has been passed. -/
  crossed : Bool := false
  next : Cursor

namespace Gap

/-- Adds all blanks and line ends that follow.  On a new line a tab to the left of column
`indent` is refused. -/
def widen (indent : Nat) : Nat → Gap → Option Gap
  | 0, gap => some gap
  | fuel + 1, gap =>
    match gap.next.rest with
    | [] => some gap
    | c :: _ =>
      if isSpace c then
        if gap.crossed then
          if c = '\t' ∧ gap.next.column < indent then none
          else widen indent fuel { gap with next := gap.next.advance 1 }
        else widen indent fuel { gap with spaces := gap.spaces ++ [c], next := gap.next.advance 1 }
      else
        match gap.next.lineEnd? with
        | some (b, next) =>
          widen indent fuel { gap with breaks := gap.breaks ++ [b], crossed := true, next }
        | none => some gap

/-- The gap at a place. -/
def at? (indent : Nat) (c : Cursor) : Option Gap := widen indent c.rest.length { next := c }

/-- What line ends in a row stand for: a single one for a blank, several for all but the
first.  A separator of lines or paragraphs in front keeps all of them. -/
def folded : List Char → List Char
  | ['\n'] => [' ']
  | '\n' :: rest => rest
  | breaks => breaks

/-- The text that a gap stands for. -/
def text (gap : Gap) : List Char := if gap.crossed then folded gap.breaks else gap.spaces

end Gap

/-! ## Plain scalars -/

/-- Characters with a meaning of their own between brackets and braces. -/
def flowIndicators : List Char := [',', '[', ']', '\x7b', '\x7d']

/-- The word at the beginning of a text, and the rest.  It ends before a blank, before a
colon that ends a key, and between brackets and braces before an indicator; there a colon
must not touch the indicator after it. -/
def plainWord (inFlow : Bool) : List Char → Option (List Char × List Char)
  | [] => some ([], [])
  | c :: rest =>
    let touches : Bool := match rest with
      | d :: _ => flowIndicators.contains d || d == '?'
      | [] => false
    if isGap c then some ([], c :: rest)
    else if inFlow ∧ c = ':' ∧ touches then none
    else if c = ':' ∧ endsOr isGap rest then some ([], c :: rest)
    else if inFlow ∧ flowIndicators.contains c then some ([], c :: rest)
    else (plainWord inFlow rest).map fun (word, rest) => (c :: word, rest)

/-- What a plain scalar turns out to be.  The place after it is after the blanks and line
ends that follow it. -/
structure Plain where
  text : List Char
  crossed : Bool
  next : Cursor

/-- The words of a plain scalar from a place on, where `before` is the text so far and `gap`
the gap after it.  On a new line the scalar goes on only at column `indent` or further
right, and ends before a comment and before a mark between documents. -/
def plainWords (inFlow : Bool) (indent : Nat) : Nat → List Char → Gap → Option Plain
  | 0, _, _ => none
  | fuel + 1, before, gap =>
    let stop : Plain := ⟨before, gap.crossed, gap.next⟩
    if gap.next.atDocumentMark ∨ gap.next.head? = some '#' then some stop
    else do
      let (word, rest) ← plainWord inFlow gap.next.rest
      if word.isEmpty then return stop
      let text := before ++ gap.text ++ word
      let here := gap.next.advanceTo rest
      if endsOr (fun c => !isGap c) rest then return ⟨text, false, here⟩
      let after ← Gap.at? indent here
      if !inFlow ∧ after.next.column < indent then return ⟨text, after.crossed, after.next⟩
      plainWords inFlow indent fuel text after

/-- The plain scalar at a place. -/
def plain? (inFlow : Bool) (indent : Nat) (c : Cursor) : Option Plain :=
  plainWords inFlow indent (c.rest.length + 1) [] { next := c }

/-! ## Quoted scalars -/

/-- The character that an escape of a single letter stands for. -/
def letterEscape? (c : Char) : Option Char :=
  match c with
  | '0' => some '\x00'
  | 'a' => some '\x07'
  | 'b' => some '\x08'
  | 't' => some '\t'
  | '\t' => some '\t'
  | 'n' => some '\n'
  | 'v' => some '\x0b'
  | 'f' => some '\x0c'
  | 'r' => some '\r'
  | 'e' => some '\x1b'
  | ' ' => some ' '
  | '"' => some '"'
  | '/' => some '/'
  | '\\' => some '\\'
  | 'N' => some '\u0085'
  | '_' => some '\u00a0'
  | 'L' => some '\u2028'
  | 'P' => some '\u2029'
  | _ => none

/-- The number of hexadecimal digits after the letter of a numeric escape. -/
def numericEscape? (c : Char) : Option Nat :=
  match c with
  | 'x' => some 2
  | 'u' => some 4
  | 'U' => some 8
  | _ => none

/-- The word at the beginning of the body of a single-quoted scalar, in which a quote is
written twice. -/
def singleQuotedWord : List Char → List Char × List Char
  | [] => ([], [])
  | '\'' :: '\'' :: rest =>
    let (word, rest) := singleQuotedWord rest
    ('\'' :: word, rest)
  | c :: rest =>
    if c = '\'' ∨ isGap c then ([], c :: rest)
    else
      let (word, rest) := singleQuotedWord rest
      (c :: word, rest)

/-- The word at the beginning of the body of a double-quoted scalar.  It ends before a
blank, before the quote and before an escaped line end. -/
def doubleQuotedWord : Nat → List Char → Option (List Char × List Char)
  | 0, rest => some ([], rest)
  | _, [] => some ([], [])
  | fuel + 1, '\\' :: c :: rest =>
    if isBreak c then some ([], '\\' :: c :: rest)
    else
      match letterEscape? c, numericEscape? c with
      | some d, _ => (doubleQuotedWord fuel rest).map fun (word, rest) => (d :: word, rest)
      | none, some width => do
        let code ← if rest.length < width then none else numeral? 16 (rest.take width)
        if code.isValidChar then
          let (word, rest) ← doubleQuotedWord fuel (rest.drop width)
          return (Char.ofNat code :: word, rest)
        else none
      | none, none => none
  | fuel + 1, c :: rest =>
    if c = '\\' then none
    else if c = '"' ∨ isGap c then some ([], c :: rest)
    else (doubleQuotedWord fuel rest).map fun (word, rest) => (c :: word, rest)

/-- The words of a quoted scalar from a place on, up to and with the closing quote.  No mark
between documents may stand in it. -/
def quotedWords (single : Bool) : Nat → List Char → Cursor → Option (List Char × Cursor)
  | 0, _, _ => none
  | fuel + 1, before, c =>
    if c.atDocumentMark then none
    else do
      let (word, rest) ←
        if single then some (singleQuotedWord c.rest)
        else doubleQuotedWord c.rest.length c.rest
      let here := c.advanceTo rest
      match rest with
      | [] => none
      | d :: _ =>
        if d = (if single then '\'' else '"') then return (before ++ word, here.advance 1)
        else if d = '\\' then
          let (_, next) ← (here.advance 1).lineEnd?
          let gap ← Gap.widen 0 next.rest.length { crossed := true, next }
          quotedWords single fuel (before ++ word ++ gap.breaks) gap.next
        else
          let gap ← Gap.at? 0 here
          quotedWords single fuel (before ++ word ++ gap.text) gap.next

/-- The quoted scalar whose opening quote is at a place. -/
def quoted? (single : Bool) (c : Cursor) : Option (List Char × Cursor) :=
  quotedWords single (c.rest.length + 1) [] (c.advance 1)

/-! ## Block scalars -/

/-- What happens to the line ends at the end of a block. -/
inductive Chomping where
  | strip
  | clip
  | keep
  deriving DecidableEq, Repr

/-- The kind of chomping that a character asks for. -/
def Chomping.ofChar? (c : Char) : Option Chomping :=
  if c = '+' then some keep else if c = '-' then some strip else none

/-- The chomping and the depth of a block, in either order, and the rest of the line.  A
depth that is not given is 0, and 0 cannot be given. -/
def blockHeader? (line : List Char) : Option (Chomping × Nat × List Char) :=
  let depth (rest : List Char) : Option (Nat × List Char) :=
    match rest with
    | d :: rest =>
      if d = '0' then none
      else if isDecimalDigit d then some (d.toNat - '0'.toNat, rest)
      else some (0, d :: rest)
    | [] => some (0, [])
  match line with
  | [] => some (.clip, 0, [])
  | c :: rest =>
    match Chomping.ofChar? c with
    | some chomping => (depth rest).map fun (depth, rest) => (chomping, depth, rest)
    | none => do
      let (depth, rest) ← depth line
      if depth = 0 then return (.clip, 0, rest)
      match rest with
      | d :: others =>
        match Chomping.ofChar? d with
        | some chomping => return (chomping, depth, others)
        | none => return (.clip, depth, rest)
      | [] => return (.clip, depth, [])

/-- Empty lines at the beginning of a block or between its lines. -/
structure EmptyLines where
  /-- What the line ends stand for. -/
  breaks : List Char := []
  /-- The rightmost column reached. -/
  deepest : Nat := 0
  next : Cursor

/-- Passes blanks up to column `indent`, or all if it is 0, and the lines that end there.
A tab in place of such a blank is refused. -/
def EmptyLines.widen (indent : Nat) : Nat → EmptyLines → Option EmptyLines
  | 0, lines => some lines
  | fuel + 1, lines =>
    let count := (lines.next.rest.takeWhile (· = ' ')).length
    let here := lines.next.advance
      (if indent = 0 then count else min count (indent - lines.next.column))
    let lines := { lines with deepest := max lines.deepest here.column, next := here }
    if (indent = 0 ∨ here.column < indent) ∧ here.head? = some '\t' then none
    else
      match here.lineEnd? with
      | some (b, next) => widen indent fuel { lines with breaks := lines.breaks ++ [b], next }
      | none => some lines

/-- The empty lines at a place. -/
def EmptyLines.at? (indent : Nat) (c : Cursor) : Option EmptyLines :=
  widen indent (c.rest.length + 1) { next := c }

/-- A block that is being read. -/
structure Block where
  text : List Char := []
  /-- The end of the last line that is not empty. -/
  lineEnd : List Char := []
  /-- The line ends after it. -/
  breaks : List Char := []
  next : Cursor

/-- The lines of a block from a place on, all at column `indent`. -/
def blockLines (indent : Nat) : Nat → Block → Option Block
  | 0, block => some block
  | fuel + 1, block =>
    let here := block.next
    if here.column ≠ indent ∨ here.rest.isEmpty then some block
    else do
      let line := here.rest.takeWhile (fun c => !isBreak c)
      let text := block.text ++ block.lineEnd ++ block.breaks ++ line
      let (lineEnd, next) := match (here.advance line.length).lineEnd? with
        | some (b, next) => ([b], next)
        | none => ([], here.advance line.length)
      let lines ← EmptyLines.at? indent next
      blockLines indent fuel ⟨text, lineEnd, lines.breaks, lines.next⟩

/-- The block scalar whose mark is at a place, inside blocks up to column `outer - 1`. -/
def block? (outer : Nat) (c : Cursor) : Option (List Char × Cursor) := do
  let (chomping, depth, rest) ← blockHeader? (c.rest.drop 1)
  let start ← (c.advanceTo rest).finishLine?
  let given := if depth = 0 then 0 else (outer - 1) + depth
  let lines ← EmptyLines.at? given start
  let indent := if depth = 0 then max lines.deepest (max outer 1) else given
  let block ← blockLines indent (c.rest.length + 1) { breaks := lines.breaks, next := lines.next }
  match chomping with
  | .strip => return (block.text, block.next)
  | .clip => return (block.text ++ block.lineEnd, block.next)
  | .keep => return (block.text ++ block.lineEnd ++ block.breaks, block.next)

end HygienicLisp.Yaml
