import HygienicLisp.Source.Reader
import HygienicLisp.Value.Basic

/-!
# Data and syntax

Syntax becomes data by dropping all context.  Data become syntax by giving each new
atom the context of another form; containers stay without context, so that a syntax
object inside the data keeps its own.
-/

namespace HygienicLisp

namespace Syntax

mutual

/-- The data of a form.  Its records have no labels yet. -/
def toDatum : Syntax → Value
  | atom _ a => .atom a
  | group _ shape items => .group shape (toDatumAll items)
  | record _ fields => .record 0 (toDatumFields fields)

/-- The data of every form of a sequence. -/
def toDatumAll : List Syntax → List Value
  | [] => []
  | stx :: rest => stx.toDatum :: toDatumAll rest

/-- The data of every field of a record. -/
def toDatumFields : List (String × Syntax) → List (String × Value)
  | [] => []
  | (key, stx) :: rest => (key, stx.toDatum) :: toDatumFields rest

end

theorem toDatumAll_eq (items : List Syntax) : toDatumAll items = items.map toDatum := by
  induction items with
  | nil => rfl
  | cons stx rest ih => rw [toDatumAll, ih, List.map_cons]

theorem toDatumFields_eq (fields : List (String × Syntax)) :
    toDatumFields fields = fields.map fun field => (field.1, field.2.toDatum) := by
  induction fields with
  | nil => rfl
  | cons field rest ih => rw [toDatumFields, ih, List.map_cons]

end Syntax

namespace Value

mutual

/-- The form with the given data, whose atoms have the given wraps and range. -/
def toSyntax (wraps : List Wrap) (span : Option Span) : Value → Except Error Syntax
  | stx s => .ok s
  | atom a => .ok ((Syntax.atom { span } a).addWraps wraps)
  | group shape items => do
    let items ← toSyntaxAll wraps span items
    return .group { span } shape items
  | record _ fields => do
    let fields ← toSyntaxFields wraps span fields
    return .record { span } fields
  | v => .error (.of (.contract (.notData v.typeName)))

/-- `toSyntax` on every value of a sequence. -/
def toSyntaxAll (wraps : List Wrap) (span : Option Span) : List Value → Except Error (List Syntax)
  | [] => .ok []
  | v :: rest => do
    let stx ← toSyntax wraps span v
    let rest ← toSyntaxAll wraps span rest
    return stx :: rest

/-- `toSyntax` on every field of a record. -/
def toSyntaxFields (wraps : List Wrap) (span : Option Span) :
    List (String × Value) → Except Error (List (String × Syntax))
  | [] => .ok []
  | (key, v) :: rest => do
    let stx ← toSyntax wraps span v
    let rest ← toSyntaxFields wraps span rest
    return (key, stx) :: rest

end

end Value

/-- The form with the given data, in the context and at the place of another form. -/
def Syntax.ofDatum (v : Value) (context : Option Syntax) : Except Error Syntax :=
  match context with
  | some stx => v.toSyntax stx.wraps stx.span
  | none => v.toSyntax [] none

/-- Reads a text as data. -/
def readData (text : String) : Except Error (List Value) :=
  (Source.read ⟨"data", text⟩).map Syntax.toDatumAll

end HygienicLisp
