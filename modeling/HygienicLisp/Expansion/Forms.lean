import HygienicLisp.Expansion.Modules

/-!
# Expansion of core forms

| form | shape |
|---|---|
| `quote`, `quote_syntax` | `(quote DATUM)` |
| `if` | `(if TEST THEN ELSE)` |
| `begin` | `(begin FORM...)` |
| `lambda` | `(lambda (ID...) BODY...+)` or `(lambda ID BODY...+)` |
| `let` | `(let ((ID EXPR)...) BODY...+)` or `(let NAME ((ID EXPR)...) BODY...+)` |
| `letrec` | `(letrec ((ID EXPR)...) BODY...+)` |
| `set!` | `(set! ID EXPR)` |
| `define` | `(define ID EXPR)`, `(define ID "doc" EXPR)`, `(define (ID ARG...) BODY...+)` |
| `define_syntax` | `(define_syntax ID EXPR)` |
| `parameterize` | `(parameterize ((PARAM EXPR)...) BODY...+)` |

The functions take the expansion of subforms as an argument.
-/

namespace HygienicLisp.Expansion

/-! ## Shapes -/

/-- The name by which a failure speaks of a form. -/
def formName (parts : List Syntax) : String := ((parts.head?).bind Syntax.symbol?).getD "form"

/-- Fails unless a form has the given number of parts. -/
def expectCount (form : Syntax) (parts : List Syntax) (count : Nat) (expected : Operands) :
    RunM Unit :=
  if parts.length = count then pure ()
  else RunM.failAt form (.operands (formName parts) expected)

/-- Fails unless a form has a part at the position where its body begins. -/
def expectBody (form : Syntax) (parts : List Syntax) (first : Nat) : RunM Unit :=
  if first < parts.length then pure ()
  else RunM.failAt form (.missingBody (formName parts))

/-- Fails unless definitions are allowed. -/
def expectDefinitions (form : Syntax) (context : ExpandContext) (what : String) : RunM Unit :=
  if context.allowsDefinitions then pure ()
  else RunM.failAt form (.definitionContext what)

/-- The identifier and the expression of each `(ID EXPR)` clause. -/
def parseClauses : List Syntax → RunM (List (Syntax × Syntax))
  | [] => return []
  | clause :: rest => do
    match clause.subforms with
    | [id, init] =>
      if id.isIdentifier then
        let pairs ← parseClauses rest
        return (id, init) :: pairs
      else RunM.failAt clause .bindingClause
    | _ => RunM.failAt clause .bindingClause

/-- The identifiers and expressions of a sequence of `(ID EXPR)` clauses. -/
def bindingClauses (clauses : Syntax) : RunM (List (Syntax × Syntax)) :=
  match clauses.subforms? with
  | none => RunM.failAt clauses .bindingClauses
  | some items => parseClauses items

/-- The forms inside the scope of a rib. -/
def renamed (rib : Rib) (forms : List Syntax) : List Syntax :=
  forms.map (Syntax.addWrap (.rename rib))

/-- The clauses of a binding form, put together again. -/
def rebuildClauses (site : Syntax) (ids inits : List Syntax) : Syntax :=
  site.rebuildSexp ((ids.zip inits).map fun (id, init) => Syntax.sexp [id, init] site.span)

section

variable (expand : ExpandContext → Syntax → RunM Syntax)

/-- Expands forms in order. -/
def expandEach (context : ExpandContext) : List Syntax → RunM (List Syntax)
  | [] => return []
  | stx :: rest => do
    let stx ← expand context stx
    let rest ← expandEach context rest
    return stx :: rest

/-- Expands the fields of a struct literal in order. -/
def expandFields : List (String × Syntax) → RunM (List (String × Syntax))
  | [] => return []
  | (key, stx) :: rest => do
    let stx ← expand .expression stx
    let rest ← expandFields rest
    return (key, stx) :: rest

/-! ## Binding forms -/

/-- `lambda`. -/
def lambda (form : Syntax) (parts : List Syntax) : RunM Syntax := do
  match parts with
  | head :: formals :: rest =>
    expectBody form parts 2
    match (if formals.isIdentifier then some [formals] else formals.subforms?) with
    | none => RunM.failAt formals .lambdaFormals
    | some binders =>
      let rib ← newRib binders
      let binders := renamed rib binders
      let formals :=
        if formals.isIdentifier then formals.addWrap (.rename rib) else formals.rebuildSexp binders
      let body ← expandEach expand .expression (renamed rib rest)
      return form.rebuildSexp (head :: formals :: body)
  | _ => RunM.failAt form .lambdaShape

/-- The named `let`, which is a call of a procedure that a `letrec` makes. -/
def namedLet (form : Syntax) (parts : List Syntax) : RunM Syntax := do
  match parts with
  | _ :: name :: clauses :: rest =>
    expectBody form parts 3
    let pairs ← bindingClauses clauses
    let lambdaHead ← kernelIdentifier "lambda" form
    let letrecHead ← kernelIdentifier "letrec" form
    let procedure := form.rebuildSexp (lambdaHead :: clauses.rebuildSexp (pairs.map (·.1)) :: rest)
    let clause := form.rebuildSexp [name, procedure]
    let operator := form.rebuildSexp [letrecHead, form.rebuildSexp [clause], name]
    expand .expression (form.rebuildSexp (operator :: pairs.map (·.2)))
  | _ => RunM.failAt form .namedLetShape

/-- `let`. -/
def letForm (form : Syntax) (parts : List Syntax) : RunM Syntax := do
  match parts with
  | head :: clauses :: rest =>
    if clauses.isIdentifier then namedLet expand form parts
    else
      expectBody form parts 2
      let pairs ← bindingClauses clauses
      let ids := pairs.map (·.1)
      let inits ← expandEach expand .expression (pairs.map (·.2))
      let rib ← newRib ids
      let body ← expandEach expand .expression (renamed rib rest)
      return form.rebuildSexp (head :: rebuildClauses clauses (renamed rib ids) inits :: body)
  | _ => RunM.failAt form .letShape

/-- `letrec`. -/
def letrec (form : Syntax) (parts : List Syntax) : RunM Syntax := do
  match parts with
  | head :: clauses :: rest =>
    expectBody form parts 2
    let pairs ← bindingClauses clauses
    let ids := pairs.map (·.1)
    let rib ← newRib ids
    let inits ← expandEach expand .expression (renamed rib (pairs.map (·.2)))
    let body ← expandEach expand .expression (renamed rib rest)
    return form.rebuildSexp (head :: rebuildClauses clauses (renamed rib ids) inits :: body)
  | _ => RunM.failAt form .letrecShape

/-- The clauses of a `parameterize`. -/
def parameterClauses : List Syntax → RunM (List Syntax)
  | [] => return []
  | clause :: rest => do
    match clause.subforms with
    | [parameter, value] =>
      let parameter ← expand .expression parameter
      let value ← expand .expression value
      let rest ← parameterClauses rest
      return clause.rebuildSexp [parameter, value] :: rest
    | _ => RunM.failAt clause .parameterizeClause

/-- `parameterize`. -/
def parameterize (form : Syntax) (parts : List Syntax) : RunM Syntax := do
  match parts with
  | head :: clauses :: rest =>
    expectBody form parts 2
    match clauses.subforms? with
    | none => RunM.failAt clauses .parameterizeClauses
    | some items =>
      let items ← parameterClauses expand items
      let body ← expandEach expand .expression rest
      return form.rebuildSexp (head :: clauses.rebuildSexp items :: body)
  | _ => RunM.failAt form .parameterizeShape

end

/-! ## Definitions -/

/-- Whether a form is a string literal. -/
def isString : Syntax → Bool
  | .atom _ (.str _) => true
  | _ => false

/-- The identifier and the value of a `define` that has a signature and a body: a procedure. -/
def procedureParts (form signature : Syntax) (body : List Syntax) : RunM (Syntax × Syntax) := do
  if signature.isSexp then
    match signature.subforms with
    | [] => RunM.failAt signature .signatureName
    | name :: formals =>
      if body.isEmpty then RunM.failAt form (.missingBody "define")
      let head ← kernelIdentifier "lambda" form
      return (name, form.rebuildSexp (head :: signature.rebuildSexp formals :: body))
  else RunM.failAt form .defineShape

/-- The identifier and the value of a `define`. -/
def definitionParts (form : Syntax) (parts : List Syntax) : RunM (Syntax × Syntax) := do
  match parts with
  | [_, id, value] =>
    if id.isIdentifier then return (id, value) else procedureParts form id [value]
  | [_, id, doc, value] =>
    if id.isIdentifier && isString doc then return (id, value)
    else procedureParts form id [doc, value]
  | _ :: id :: body => procedureParts form id body
  | _ => RunM.failAt form .defineShape

/-- Brings a `define` into the shape `(define ID EXPR)` and takes the address of ID.  The
expression is not expanded. -/
def predefineForm (ns : NamespaceId) (form : Syntax) : RunM Syntax := do
  let parts := form.subforms
  let (target, value) ← definitionParts form parts
  if !target.isIdentifier then RunM.failAt target .defineName
  let target ← predefine ns target
  return form.rebuildSexp (parts.take 1 ++ [target, value])

section

variable (expand : ExpandContext → Syntax → RunM Syntax)

/-- `define`.  In a module body the address was taken when the form was first met. -/
def define (ns : NamespaceId) (form : Syntax) (context : ExpandContext) : RunM Syntax := do
  expectDefinitions form context "define"
  let normal ← if context = .moduleBody then pure form else predefineForm ns form
  match normal.subforms with
  | [head, id, value] =>
    let value ← expand .expression value
    return normal.rebuildSexp [head, id, value]
  | _ => RunM.failAt form .defineShape

/-- A core form in the given context. -/
def core (loader : Loader) (ns : NamespaceId) (f : CoreForm) (form : Syntax) (parts : List Syntax)
    (context : ExpandContext) : RunM Syntax := do
  match f with
  | .quote | .quoteSyntax =>
    expectCount form parts 2 .oneDatum
    return form
  | .ifForm =>
    expectCount form parts 4 .testAndBranches
    let rest ← expandEach expand .expression (parts.drop 1)
    return form.rebuildSexp (parts.take 1 ++ rest)
  | .begin =>
    let rest ← expandEach expand context (parts.drop 1)
    return form.rebuildSexp (parts.take 1 ++ rest)
  | .lambda => lambda expand form parts
  | .letForm => letForm expand form parts
  | .letrec => letrec expand form parts
  | .set =>
    expectCount form parts 3 .identifierAndValue
    match parts with
    | [head, id, value] =>
      if !id.isIdentifier then RunM.failAt id .setTarget
      let value ← expand .expression value
      return form.rebuildSexp [head, id, value]
    | _ => RunM.failAt form .malformedCore
  | .define => define expand ns form context
  | .defineSyntax =>
    expectDefinitions form context "define_syntax"
    expectCount form parts 3 .identifierAndTransformer
    match parts with
    | [head, id, value] =>
      let id ← predefine ns id
      let value ← expand .expression value
      return form.rebuildSexp [head, id, value]
    | _ => RunM.failAt form .malformedCore
  | .parameterize => parameterize expand form parts
  | .moduleForm =>
    if context ≠ .topLevel then RunM.failAt form .moduleContext
    declareForm loader form parts
  | .require =>
    expectDefinitions form context "require"
    runEach (requireSpec loader ns) (parts.drop 1)
    return form
  | .provide =>
    if context ≠ .moduleBody then RunM.failAt form .provideContext
    runEach (provideSpec ns) (parts.drop 1)
    return form

end

end HygienicLisp.Expansion
