import HygienicLisp.Namespace.Store

/-!
# The operator of a form

Core forms and transformers are ordinary values, so which form a sexp is depends on the
value of the identifier at its head.
-/

namespace HygienicLisp

/-- The value of an identifier that denotes a definition, if it has been evaluated. -/
def headValue? (spaces : Spaces) (head : Syntax) : Option Value :=
  if head.isIdentifier then
    match spaces.resolve head with
    | some (.cell c) => spaces.lookup? (.cell c)
    | _ => none
  else none

/-- The core form that an identifier denotes. -/
def coreForm? (spaces : Spaces) (head : Syntax) : Option CoreForm :=
  match headValue? spaces head with
  | some (.form f) => some f
  | _ => none

end HygienicLisp
