import HygienicLisp.Primitive.Collection
import HygienicLisp.Value.Datum
import HygienicLisp.World

/-!
# Calling primitives

Primitives work on evaluated arguments only and never call back.  Their arity has been
checked before the call.
-/

namespace HygienicLisp

/-- The argument at a position. -/
def argument (args : List Value) (position : Nat) : RunM Value :=
  match args[position]? with
  | some v => pure v
  | none => RunM.fail (.of (.internal (.missingArgument position)))

/-- Fails because an argument has the wrong type. -/
def wrongType {α : Type} (who expected : String) (position : Nat) (found : Value) : RunM α := do
  RunM.fail (typeError (← get).names who expected position found)

/-- The argument at a position, which must be an identifier. -/
def identifierArgument (args : List Value) (position : Nat) (who : String) : RunM Syntax := do
  match ← argument args position with
  | .stx s => if s.isIdentifier then pure s else wrongType who "identifier" position (.stx s)
  | v => wrongType who "identifier" position v

/-- The argument at a position, which must be a syntax object. -/
def syntaxArgument (args : List Value) (position : Nat) (who : String) : RunM Syntax := do
  match ← argument args position with
  | .stx s => pure s
  | v => wrongType who "syntax object" position v

/-- The parts of a sequence of syntax, as a list of syntax objects. -/
def syntaxSubforms (args : List Value) : RunM Value := do
  let stx ← syntaxArgument args 0 "syntax_subforms"
  match stx.subforms? <|> stx.elements? with
  | none => wrongType "syntax_subforms" "sequence syntax" 0 (.stx stx)
  | some parts => return .list ((← parts.mapM stampSyntax).map .stx)

/-- The syntax object that lends its context, if there is one. -/
def contextArgument (args : List Value) : RunM (Option Syntax) :=
  match args with
  | _ :: .stx s :: _ => pure (some s)
  | _ :: v :: _ => wrongType "datum_to_syntax" "syntax object" 1 v
  | _ => pure none

/-- Syntax made from data, in the context of another syntax object if there is one. -/
def datumToSyntax (args : List Value) : RunM Value := do
  let datum ← argument args 0
  let context ← contextArgument args
  let stx ← RunM.ofExcept (Syntax.ofDatum datum context)
  return .stx (← stampSyntax stx)

/-- The result of a primitive. -/
def Primitive.call (p : Primitive) (args : List Value) : RunM Value := do
  let names := (← get).names
  match p with
  | add => RunM.ofExcept (Arithmetic.add names args)
  | sub => RunM.ofExcept (Arithmetic.sub names args)
  | mul => RunM.ofExcept (Arithmetic.mul names args)
  | div => RunM.ofExcept (Arithmetic.div names args)
  | equal => return Arithmetic.equal args
  | less => RunM.ofExcept (Arithmetic.less names args)
  | greater => RunM.ofExcept (Arithmetic.greater names args)
  | lessEqual => RunM.ofExcept (Arithmetic.lessEqual names args)
  | greaterEqual => RunM.ofExcept (Arithmetic.greaterEqual names args)
  | not => return .bool (!(← argument args 0).isTruthy)
  | list => return .group .list args
  | sexp => return .group .sexp args
  | struct => newRecord (← RunM.ofExcept (Collection.structFields names args))
  | size => RunM.ofExcept (Collection.size names (← argument args 0))
  | elt => RunM.ofExcept (Collection.elt names (← argument args 0) (← argument args 1))
  | head => RunM.ofExcept (Collection.head names (← argument args 0))
  | tail => RunM.ofExcept (Collection.tail names (← argument args 0))
  | isEmpty => RunM.ofExcept (Collection.isEmpty names (← argument args 0))
  | isNull =>
    match ← argument args 0 with
    | .atom .null => return .bool true
    | _ => return .bool false
  | isVoid =>
    match ← argument args 0 with
    | .void => return .bool true
    | _ => return .bool false
  | void => return .void
  | error => RunM.fail (Collection.raised names args)
  | makeParameter => newProcedure none (.parameter (← argument args 0))
  | syntaxSubforms => HygienicLisp.syntaxSubforms args
  | syntaxToDatum => stampValue (← syntaxArgument args 0 "syntax_to_datum").toDatum
  | datumToSyntax => HygienicLisp.datumToSyntax args
  | isIdentifier =>
    match ← argument args 0 with
    | .stx s => return .bool s.isIdentifier
    | _ => return .bool false
  | boundIdentifierEqual =>
    let a ← identifierArgument args 0 "bound_identifier_equal"
    let b ← identifierArgument args 1 "bound_identifier_equal"
    return .bool ((← getSpaces).boundIdentifierEq a b)
  | freeIdentifierEqual =>
    let a ← identifierArgument args 0 "free_identifier_equal"
    let b ← identifierArgument args 1 "free_identifier_equal"
    return .bool ((← getSpaces).freeIdentifierEq a b)

end HygienicLisp
