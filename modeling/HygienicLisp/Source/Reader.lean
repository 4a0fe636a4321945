import HygienicLisp.Error
import HygienicLisp.Number.Exact
import HygienicLisp.Source.Grammar
import HygienicLisp.Syntax.Fields

/-!
# Reading

Turns a text into syntax objects without lexical context.  A text outside the
grammar is refused as a whole; after that, the first token or struct that denotes
nothing, in the order of the text, is reported.
-/

namespace HygienicLisp

namespace Token

/-- The double that a float token denotes. -/
def floatValue (text : List Char) : Float :=
  let (minus, rest) := Grammar.sign ['-'] text
  let whole := rest.takeWhile isDecimalDigit
  let afterPoint := (rest.dropWhile isDecimalDigit).drop 1
  let places := afterPoint.takeWhile isDecimalDigit
  let (s, digits) := Grammar.sign ['+', '-'] ((afterPoint.dropWhile isDecimalDigit).drop 1)
  let power : Int := if s = ['-'] then -(digitsValue digits : Int) else digitsValue digits
  Binary64.ofDecimal (!minus.isEmpty) (digitsValue (whole ++ places)) (power - places.length)

/-- The integer that an int token denotes. -/
def intValue (text : List Char) : Int :=
  let (minus, digits) := Grammar.sign ['-'] text
  if minus.isEmpty then digitsValue digits else -(digitsValue digits : Int)

/-- The characters that the body of a string token denotes.  Escapes are reported at
`span`. -/
def unescape (source : Source) (span : Span) (body : List Char) : Except Error String :=
  match Quoted.decode body with
  | .ok chars => .ok (String.ofList chars)
  | .error (.unknown c) => .error (.inSource (.parse (.unknownEscape c)) source span)
  | .error .dangling => .error (.inSource (.parse .danglingEscape) source span)

/-- The atom that a token denotes. -/
def atom (source : Source) (t : Token) : Except Error Atom :=
  match t.kind with
  | .null => .ok .null
  | .boolean => .ok (.bool (t.text = ['t', 'r', 'u', 'e']))
  | .float => .ok (.float (floatValue t.text))
  | .int =>
    match machineInt? (intValue t.text) with
    | some i => .ok (.int i)
    | none => .error (.inSource (.parse (.integerRange (String.ofList t.text))) source t.span)
  | .string => (unescape source t.span t.text).map .str
  | .symbol => .ok (.symbol (String.ofList t.text))

/-- The key of a struct field.  Escapes are reported at the range of the field. -/
def fieldKey (source : Source) (head : FieldHead) : Except Error String :=
  match head.key.kind with
  | .string => unescape source head.span head.key.text
  | _ => .ok (String.ofList head.key.text)

end Token

namespace SourceTree

mutual

/-- The syntax object that a source tree denotes. -/
def toSyntax (source : Source) : SourceTree → Except Error Syntax
  | token notes t => do
    let a ← t.atom source
    return .atom { span := some t.span, notes } a
  | quoted notes span inner => do
    let stx ← toSyntax source inner
    let quote := Syntax.atom { span := some ⟨span.start, span.start + 1⟩ } (.symbol "quote")
    return .group { span := some span, notes } .sexp [quote, stx]
  | group notes span shape items => do
    let items ← toSyntaxAll source items
    return .group { span := some span, notes } shape items
  | record notes span fields => do
    let fields ← toFields source fields []
    return .record { span := some span, notes } fields

/-- The syntax objects that source trees denote. -/
def toSyntaxAll (source : Source) : List SourceTree → Except Error (List Syntax)
  | [] => .ok []
  | t :: rest => do
    let stx ← toSyntax source t
    let rest ← toSyntaxAll source rest
    return stx :: rest

/-- The fields of a struct literal, on top of those read before. -/
def toFields (source : Source) :
    List (FieldHead × SourceTree) → List (String × Syntax) → Except Error (List (String × Syntax))
  | [], fields => .ok fields
  | (head, t) :: rest, fields => do
    let key ← Token.fieldKey source head
    let stx ← toSyntax source t
    match Fields.get? key fields with
    | some _ => .error (.inSource (.parse (.duplicateField key)) source head.span)
    | none => toFields source rest (Fields.insert key stx fields)

end

end SourceTree

/-- Reads every form of a source. -/
def Source.read (source : Source) : Except Error (List Syntax) :=
  match Grammar.program source.text.toList with
  | .ok trees => SourceTree.toSyntaxAll source trees
  | .error offset => .error (.inSource (.parse (.grammar offset)) source ⟨offset, offset⟩)

/-- Reads the one form of a text. -/
def readOne (text : String) : Except Error Syntax := do
  let source : Source := ⟨"input", text⟩
  match ← source.read with
  | [stx] => return stx
  | forms =>
    throw (.inSource (.parse (.formCount forms.length)) source ⟨0, text.utf8ByteSize⟩)

end HygienicLisp
