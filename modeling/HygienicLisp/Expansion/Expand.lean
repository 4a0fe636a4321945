import HygienicLisp.Expansion.Forms

/-!
# Full expansion

Repeats at every level what partial expansion does at the head, until only core forms,
applications and data are left.  The depth counts the expansions and the invocations of
transformers around a form; it is compared with the limit of the settings.
-/

namespace HygienicLisp.Expansion

section

variable (ns : NamespaceId) (expand : Nat → ExpandContext → Syntax → RunM Syntax)

/-- A form that is not a sexp.  Identifiers of core forms and transformers are not
expressions. -/
def expandPlain (depth : Nat) (form : Syntax) : RunM Syntax := do
  match form with
  | .atom _ (.symbol name) =>
    let w ← get
    match headValue? w.spaces form with
    | some (.form f) => RunM.failAt form (.formAsExpression name f.name)
    | some (.transformer id _ _) =>
      RunM.failAt form (.transformerAsExpression (w.names.identifyTransformer id))
    | _ => return form
  | .atom _ _ => return form
  | .group _ _ _ =>
    return form.rebuildList (← expandEach (expand depth) .expression (form.elements?.getD []))
  | .record _ _ => return form.rebuildRecord (← expandFields (expand depth) (form.fields?.getD []))

/-- A sexp: invokes transformers until there is none at the head. -/
def expandSexp (loader : Loader) : Nat → Nat → ExpandContext → Syntax → RunM Syntax
  | 0, _, _, _ => RunM.exhausted
  | fuel + 1, depth, context, form => do
    match form.subforms with
    | [] => RunM.failAt form .emptyForm
    | head :: rest =>
      match headValue? (← getSpaces) head with
      | some (.transformer id procedureId p) =>
        let depth ← descend depth form
        let form ← invoke fuel id procedureId p form
        if form.isSexp then expandSexp loader fuel depth context form
        else expandPlain expand depth form
      | some (.form f) => core (expand depth) loader ns f form (head :: rest) context
      | _ => return form.rebuildSexp (← expandEach (expand depth) .expression (head :: rest))

end

/-- Expands a form fully. -/
def expand (loader : Loader) (ns : NamespaceId) : Nat → Nat → ExpandContext → Syntax → RunM Syntax
  | 0, _, _, _ => RunM.exhausted
  | fuel + 1, depth, context, form => do
    let depth ← descend depth form
    RunM.inContext form <|
      if form.isSexp then expandSexp ns (expand loader ns fuel) loader fuel depth context form
      else expandPlain (expand loader ns fuel) depth form

end HygienicLisp.Expansion
