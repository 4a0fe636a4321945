import HygienicLisp.Value.Basic

/-!
# Names of procedures and transformers, and the text of values

An object gets its name once: naming it again changes nothing.
-/

namespace HygienicLisp

/-- The names of objects, by object number. -/
abbrev Names := Array (Option String)

namespace Names

/-- The name of an object, if it has one. -/
def nameOf? (names : Names) (id : ObjectId) : Option String := (names[id]?).join

/-- Names an object unless it has a name. -/
def give (names : Names) (id : ObjectId) (name : String) : Names :=
  match names.nameOf? id with
  | some _ => names
  | none => names.setIfInBounds id (some name)

/-- Names a value after the variable it is stored in.  A transformer passes the name on
to its procedure. -/
def infer (names : Names) (v : Value) (name : String) : Names :=
  match v with
  | .procedure id _ => names.give id name
  | .transformer id procedureId _ => (names.give id name).give procedureId name
  | _ => names

/-- How failures speak of a procedure. -/
def identifyProcedure (names : Names) (id : ObjectId) : String :=
  match names.nameOf? id with
  | some name => s!"procedure '{name}'"
  | none => "anonymous procedure"

/-- How failures speak of a transformer. -/
def identifyTransformer (names : Names) (id : ObjectId) : String :=
  match names.nameOf? id with
  | some name => s!"macro '{name}'"
  | none => "anonymous macro"

/-- A value that has no notation: what it is, and its name if it has one. -/
def bracketed (what : String) (name : Option String) : String :=
  match name with
  | some name => s!"#<{what} {name}>"
  | none => s!"#<{what}>"

end Names

namespace Value

mutual

/-- The text of a value. -/
def text (names : Names) : Value → String
  | void => "#<void>"
  | atom a => a.text
  | group shape items => shape.bracket (textAll names items)
  | record _ fields => bracedText (textFields names fields)
  | stx s => "#<syntax " ++ s.text ++ ">"
  | procedure id _ => Names.bracketed "procedure" (names.nameOf? id)
  | transformer id _ _ => Names.bracketed "macro" (names.nameOf? id)
  | form f => Names.bracketed "syntactic form" (some f.name)

/-- The text of every value of a sequence. -/
def textAll (names : Names) : List Value → List String
  | [] => []
  | v :: rest => text names v :: textAll names rest

/-- The text of every field of a record. -/
def textFields (names : Names) : List (String × Value) → List (String × String)
  | [] => []
  | (key, v) :: rest => (key, text names v) :: textFields names rest

end

end Value

end HygienicLisp
