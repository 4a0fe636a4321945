import HygienicLisp.Number.FloatText
import HygienicLisp.Syntax.Basic
import HygienicLisp.Text.Quoted

/-!
# The text of a form

Forms print in the notation they are read in: sexps with blanks, lists with commas,
structs with their keys bare.  Annotations come first, lexical context is not shown.
-/

namespace HygienicLisp

/-- The text of a truth value. -/
def boolText (b : Bool) : String := if b then "true" else "false"

/-- The text of an atom. -/
def Atom.text : Atom → String
  | .null => "null"
  | .bool b => boolText b
  | .int i => toString i.toInt
  | .float x => floatText x
  | .str s => Quoted.literal s
  | .symbol name => name

/-- The items of a sequence between the brackets of its shape. -/
def Shape.bracket (shape : Shape) (items : List String) : String :=
  match shape with
  | .sexp => "(" ++ " ".intercalate items ++ ")"
  | .list => "[" ++ ", ".intercalate items ++ "]"

/-- The fields of a record between braces. -/
def bracedText (fields : List (String × String)) : String :=
  "\x7b" ++ ", ".intercalate (fields.map fun (key, value) => key ++ ": " ++ value) ++ "\x7d"

/-- The annotations of a form, each followed by two colons. -/
def notesText (notes : List String) : String := String.join (notes.map (· ++ "::"))

namespace Syntax

mutual

/-- The text of a form. -/
def text : Syntax → String
  | atom c a => notesText c.notes ++ a.text
  | group c shape items => notesText c.notes ++ shape.bracket (textAll items)
  | record c fields => notesText c.notes ++ bracedText (textFields fields)

/-- `text` of every form of a sequence. -/
def textAll : List Syntax → List String
  | [] => []
  | stx :: rest => stx.text :: textAll rest

/-- `text` of every field of a record. -/
def textFields : List (String × Syntax) → List (String × String)
  | [] => []
  | (key, stx) :: rest => (key, stx.text) :: textFields rest

end

end Syntax

end HygienicLisp
