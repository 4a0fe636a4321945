import HygienicLisp.Yaml.Cursor
import HygienicLisp.Yaml.Resolution

/-!
# The text of a YAML scalar

A text is written plainly if it reads back as itself, otherwise between single quotes.  A
text of several lines becomes an indented block.  Where a blank stands beside a line end,
or a character cannot be printed, the text is put between double quotes with escapes.

The scalars are values of a mapping that is not inside anything, so their lines are
indented by two blanks.
-/

namespace HygienicLisp.Yaml

/-- A character that may be written as it is. -/
def isPrintable (c : Char) : Bool :=
  let n := c.toNat
  n == 0x0a || (0x20 ≤ n && n ≤ 0x7e) || (0xa0 ≤ n && n ≠ 0xfeff && n ≠ 0xfffe && n ≠ 0xffff)

/-- Whether some character and the one after it satisfy a test. -/
def anyAdjacent (test : Char → Char → Bool) : List Char → Bool
  | c :: d :: rest => test c d || anyAdjacent test (d :: rest)
  | _ => false

/-- Whether there is an indicator at the beginning of a text. -/
def beginsWithIndicator (text : List Char) : Bool :=
  text.take 3 == ['-', '-', '-'] || text.take 3 == ['.', '.', '.'] ||
    match text with
    | c :: rest =>
      "#,[]\x7b\x7d&*!|>'\"%@`".toList.contains c ||
        ((c == '?' || c == ':' || c == '-') && endsOr isGap rest)
    | [] => false

/-- Whether there is a colon that would end a key, or a mark that would begin a comment. -/
def hasInnerIndicator (text : List Char) : Bool :=
  text.getLast? == some ':' || anyAdjacent (fun c d => c == ':' && isGap d) text ||
    anyAdjacent (fun c d => isGap c && d == '#') text

/-- Whether a text may be written plainly. -/
def allowsPlain (text : List Char) : Bool :=
  text.all (fun c => isPrintable c && !isBreak c) && text.head? ≠ some ' ' &&
    text.getLast? ≠ some ' ' && !beginsWithIndicator text && !hasInnerIndicator text

/-- Whether all characters can be printed and no blank stands before a line end. -/
def isClean (text : List Char) : Bool :=
  text.all isPrintable && !anyAdjacent (fun c d => c == ' ' && isBreak d) text

/-- Whether a text may be written between single quotes. -/
def allowsSingleQuotes (text : List Char) : Bool :=
  isClean text && !anyAdjacent (fun c d => isBreak c && d == ' ') text

/-- Whether a text may be written as a block. -/
def allowsBlock (text : List Char) : Bool := isClean text && text.getLast? ≠ some ' '

/-- A character between double quotes. -/
def escapeChar (c : Char) : List Char :=
  match c with
  | '\x00' => ['\\', '0']
  | '\x07' => ['\\', 'a']
  | '\x08' => ['\\', 'b']
  | '\t' => ['\\', 't']
  | '\n' => ['\\', 'n']
  | '\x0b' => ['\\', 'v']
  | '\x0c' => ['\\', 'f']
  | '\r' => ['\\', 'r']
  | '\x1b' => ['\\', 'e']
  | '"' => ['\\', '"']
  | '\\' => ['\\', '\\']
  | '\u0085' => ['\\', 'N']
  | '\u2028' => ['\\', 'L']
  | '\u2029' => ['\\', 'P']
  | c =>
    if isPrintable c then [c]
    else if c.toNat ≤ 0xff then '\\' :: 'x' :: hexNumeral 2 c.toNat
    else if c.toNat ≤ 0xffff then '\\' :: 'u' :: hexNumeral 4 c.toNat
    else '\\' :: 'U' :: hexNumeral 8 c.toNat

/-- A text between double quotes. -/
def doubleQuotedText (text : List Char) : List Char := '"' :: text.flatMap escapeChar ++ ['"']

/-- The indentation at the beginning of a line. -/
def lineIndent (atStart : Bool) : List Char := if atStart then [' ', ' '] else []

/-- The body of a scalar between single quotes.  Line ends are written as they are. -/
def singleQuotedBody (atStart : Bool) : List Char → List Char
  | [] => lineIndent atStart
  | c :: rest =>
    if isBreak c then c :: singleQuotedBody true rest
    else
      lineIndent atStart ++ (if c = '\'' then ['\'', '\''] else [c]) ++
        singleQuotedBody false rest

/-- A text between single quotes. -/
def singleQuotedText (text : List Char) : List Char :=
  '\'' :: singleQuotedBody false text ++ ['\'']

/-- The lines of a block.  Empty lines are not indented. -/
def blockBody (atStart : Bool) : List Char → List Char
  | [] => []
  | c :: rest =>
    if isBreak c then c :: blockBody true rest
    else lineIndent atStart ++ c :: blockBody false rest

/-- The depth of a block, which is given if the text begins with a blank or a line end. -/
def depthHint (text : List Char) : List Char :=
  if endsOr (fun c => !(c == ' ' || isBreak c)) text then [] else ['2']

/-- How the text of a block ends: with no line end, one, or more. -/
def chompingHint (text : List Char) : List Char :=
  match text.reverse with
  | [] => ['-']
  | c :: rest => if !isBreak c then ['-'] else if endsOr isBreak rest then ['+'] else []

/-- A text as a block. -/
def blockText (text : List Char) : List Char :=
  '|' :: depthHint text ++ chompingHint text ++ '\n' :: blockBody true text

/-- A text as a scalar, with the line end after it.  A block that ends with a line end has
its own. -/
def scalarLine (text : List Char) : List Char :=
  if text.contains '\n' then
    if allowsBlock text then
      blockText text ++ if endsOr (fun c => !isBreak c) text.reverse then ['\n'] else []
    else doubleQuotedText text ++ ['\n']
  else if !isAmbiguous text && allowsPlain text then text ++ ['\n']
  else if allowsSingleQuotes text then singleQuotedText text ++ ['\n']
  else doubleQuotedText text ++ ['\n']

end HygienicLisp.Yaml
