import HygienicLisp.Text.Alphabet

/-!
# Places in a YAML text

The notation depends on columns and on line ends, so what is left of a text is kept
together with the place where it begins.  A carriage return, a line feed, both in a row,
and the next-line character end a line and stand for a line feed; the two separators of
lines and paragraphs end a line as well and stand for themselves.
-/

namespace HygienicLisp.Yaml

/-- A blank inside a line. -/
def isSpace (c : Char) : Bool := c == ' ' || c == '\t'

/-- A character that ends a line. -/
def isBreak (c : Char) : Bool :=
  c == '\r' || c == '\n' || c == '\u0085' || c == '\u2028' || c == '\u2029'

/-- A blank or a character that ends a line. -/
def isGap (c : Char) : Bool := isSpace c || isBreak c

/-- A character that a text may have: no control characters but tabs and line ends. -/
def isAllowed (c : Char) : Bool :=
  let n := c.toNat
  n == 0x09 || n == 0x0a || n == 0x0d || (0x20 ≤ n && n ≤ 0x7e) || n == 0x85 ||
    (0xa0 ≤ n && n ≤ 0xfffd) || 0x10000 ≤ n

/-- Whether a text is at its end or goes on with a character of the given class. -/
def endsOr (test : Char → Bool) : List Char → Bool
  | [] => true
  | c :: _ => test c

/-- What is left of a text, and where it begins.  Lines and columns count from zero. -/
structure Cursor where
  rest : List Char
  index : Nat := 0
  line : Nat := 0
  column : Nat := 0
  deriving DecidableEq, Repr

namespace Cursor

/-- The place some characters further on the same line. -/
def advance (c : Cursor) (count : Nat) : Cursor :=
  { c with rest := c.rest.drop count, index := c.index + count, column := c.column + count }

/-- The place on the same line at which the given end of the text begins. -/
def advanceTo (c : Cursor) (rest : List Char) : Cursor :=
  let count := c.rest.length - rest.length
  { c with rest, index := c.index + count, column := c.column + count }

/-- The place after the characters of a class, all on the same line. -/
def skipWhile (c : Cursor) (test : Char → Bool) : Cursor := c.advanceTo (c.rest.dropWhile test)

/-- The beginning of the next line, `width` characters further. -/
def nextLine (c : Cursor) (width : Nat) : Cursor :=
  { rest := c.rest.drop width, index := c.index + width, line := c.line + 1, column := 0 }

/-- The character that the line end here stands for, and the beginning of the next line. -/
def lineEnd? (c : Cursor) : Option (Char × Cursor) :=
  match c.rest with
  | '\r' :: '\n' :: _ => some ('\n', c.nextLine 2)
  | d :: _ =>
    if !isBreak d then none
    else some (if d = '\u2028' ∨ d = '\u2029' then d else '\n', c.nextLine 1)
  | [] => none

/-- The first character here. -/
def head? (c : Cursor) : Option Char := c.rest.head?

/-- Whether the given mark, three characters long, stands alone at the beginning of the line
here. -/
def atMark (c : Cursor) (mark : List Char) : Bool :=
  c.column == 0 && c.rest.take 3 == mark && endsOr isGap (c.rest.drop 3)

/-- Whether a document begins or ends here by its mark. -/
def atDocumentMark (c : Cursor) : Bool := c.atMark ['-', '-', '-'] || c.atMark ['.', '.', '.']

/-- The place after a comment, if there is one here. -/
def skipComment (c : Cursor) : Cursor :=
  match c.rest with
  | '#' :: _ => c.skipWhile (fun d => !isBreak d)
  | _ => c

/-- The beginning of the next line, if nothing but blanks and a comment is left of this
one. -/
def finishLine? (c : Cursor) : Option Cursor :=
  let c := (c.skipWhile isSpace).skipComment
  match c.rest with
  | [] => some c
  | _ => c.lineEnd?.map (·.2)

end Cursor

end HygienicLisp.Yaml
