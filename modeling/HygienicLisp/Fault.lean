import HygienicLisp.Binding

/-!
# Causes of failure

Every failure has one cause, of one of ten kinds.  A cause keeps the names and
numbers it is about; its wording is settled here, once, by `Fault.detail` and
`Fault.message`.
-/

namespace HygienicLisp

/-- The kinds of failure. -/
inductive ErrorKind where
  | parse
  | badSyntax
  | unboundIdentifier
  | ambiguousBinding
  | arity
  | argType
  | contract
  | eval
  | moduleNotFound
  | internal
  deriving DecidableEq, Repr, Inhabited

/-- The name of a kind of failure. -/
def ErrorKind.name : ErrorKind → String
  | .parse => "Parse"
  | .badSyntax => "Syntax"
  | .unboundIdentifier => "UnboundIdentifier"
  | .ambiguousBinding => "AmbiguousBinding"
  | .arity => "Arity"
  | .argType => "ArgType"
  | .contract => "Contract"
  | .eval => "Eval"
  | .moduleNotFound => "ModuleNotFound"
  | .internal => "Internal"

/-! ## Causes, kind by kind -/

/-- Why a text is not a sequence of forms. -/
inductive ParseFault where
  | grammar (offset : Nat)
  | integerRange (text : String)
  | unknownEscape (c : Char)
  | danglingEscape
  | duplicateField (key : String)
  | formCount (found : Nat)
  | said (message : String)
  deriving DecidableEq, Repr

/-- What the operands of a core form ought to be. -/
inductive Operands where
  | oneDatum
  | testAndBranches
  | identifierAndValue
  | identifierAndTransformer
  deriving DecidableEq, Repr

/-- Why a form does not match the grammar of its operator. -/
inductive SyntaxFault where
  | bindNonIdentifier
  | duplicateBinder (name : String)
  | defineNonIdentifier
  | importNonIdentifier
  | depthLimit (limit : Nat)
  | notSyntaxResult (who typeName : String)
  | transformerFailed (who cause : String)
  | formAsExpression (name form : String)
  | transformerAsExpression (who : String)
  | emptyForm
  | operands (form : String) (expected : Operands)
  | missingBody (form : String)
  | definitionContext (form : String)
  | setTarget
  | defineShape
  | defineName
  | signatureName
  | moduleContext
  | provideContext
  | bindingClauses
  | bindingClause
  | lambdaShape
  | lambdaFormals
  | letShape
  | namedLetShape
  | letrecShape
  | parameterizeShape
  | parameterizeClauses
  | parameterizeClause
  | moduleName
  | modulePath
  | onlyInItem
  | renameInPair
  | renameInLocal
  | requireSpec
  | provideSpec
  | outsideScope
  | foreignDefinition
  | binderNotRenamed
  | malformedCore
  | said (message : String)
  deriving DecidableEq, Repr

/-- Why a definition or an import would conflict with a binding that exists. -/
inductive Conflict where
  | duplicateDefinition
  | definitionOverImport (source : ModuleId)
  | importOverDefinition (source definer : ModuleId)
  | distinctImports (first second : ModuleId)
  | said (message : String)
  deriving DecidableEq, Repr

/-- Which operation a caller may not ask for. -/
inductive ContractFault where
  | emptyPath
  | pathEscapes (path : String)
  | pathNamesNothing (path : String)
  | notData (typeName : String)
  | foreignBind (name : String) (home : ModuleId)
  | alreadyInstantiated (id : ModuleId)
  | dependencyCycle (path : List ModuleId)
  | notTransformer (typeName : String)
  | notParameter (typeName : String)
  | importMutation (name : String)
  | moduleFreed (home : ModuleId)
  | integerOverflow (who : String)
  | divisionByZero
  | unpairedFields
  | indexRange (index : Int) (size : Nat)
  | emptySequence (who : String)
  | invalidConfig
  | said (message : String)
  deriving DecidableEq, Repr

/-- Why an evaluation failed. -/
inductive EvalFault where
  | beforeDefinition (name : String) (home : ModuleId)
  | beforeInitialization (name : String)
  | notApplicable (typeName shown : String)
  | ownerFreed (name : String)
  | said (message : String)
  deriving DecidableEq, Repr

/-- Which internal expectation did not hold. -/
inductive InternalFault where
  | noSlot (slot : Nat) (name : String)
  | noSlotToSet (slot : Nat)
  | noFrame (depth : Nat)
  | noImport (id : Nat) (home : ModuleId)
  | noDefinition (name : String)
  | missingArgument (position : Nat)
  | noNamespace (ns : NamespaceId)
  | said (message : String)
  deriving DecidableEq, Repr

/-- How the expected number of arguments is to be read. -/
inductive Variability where
  | exact
  | atLeast
  | upTo (max : Nat)
  deriving DecidableEq, Repr

/-- The cause of a failure. -/
inductive Fault where
  | parse (cause : ParseFault)
  | badSyntax (cause : SyntaxFault)
  | unbound (name : String)
  | ambiguous (name : String) (cause : Conflict)
  | arity (who : String) (expected : Nat) (variability : Variability) (actual : Nat)
  | argType (who expected : String) (position : Nat) (actual : String)
  | contract (cause : ContractFault)
  | eval (cause : EvalFault)
  | moduleNotFound (path : String)
  | internal (cause : InternalFault)
  deriving DecidableEq, Repr

/-! ## Wording -/

/-- The text of a cause of this kind. -/
def ParseFault.text : ParseFault → String
  | .grammar _ => "the text does not match the grammar"
  | .integerRange text => s!"integer literal out of range: {text}"
  | .unknownEscape c => "unknown escape sequence \\" ++ c.toString
  | .danglingEscape => "dangling escape"
  | .duplicateField key => s!"duplicate struct field `{key}`"
  | .formCount found => s!"expected exactly one form, found {found}"
  | .said message => message

/-- What the operands ought to be, in words. -/
def Operands.text : Operands → String
  | .oneDatum => "expects exactly one datum"
  | .testAndBranches => "expects a test, a then branch and an else branch"
  | .identifierAndValue => "expects an identifier and a value"
  | .identifierAndTransformer => "expects an identifier and a transformer"

/-- The text of a cause of this kind. -/
def SyntaxFault.text : SyntaxFault → String
  | .bindNonIdentifier => "expected an identifier to bind"
  | .duplicateBinder name => s!"duplicate binding of `{name}`"
  | .defineNonIdentifier => "expected an identifier to define"
  | .importNonIdentifier => "expected an identifier to import"
  | .depthLimit limit => s!"expansion exceeded the configured depth limit of {limit}"
  | .notSyntaxResult who typeName => s!"{who} returned {typeName} instead of a syntax object"
  | .transformerFailed who cause => s!"Error expanding macro {who}: {cause}"
  | .formAsExpression name form =>
    s!"`{name}` is the syntactic form {form} and cannot be used as an expression"
  | .transformerAsExpression who => s!"{who} cannot be used as an expression"
  | .emptyForm => "empty form is not an expression"
  | .operands form expected => form ++ " " ++ expected.text
  | .missingBody form => s!"{form} requires a body"
  | .definitionContext form => s!"{form} is only allowed at top level or in a module body"
  | .setTarget => "set! expects an identifier"
  | .defineShape => "define expects an identifier and a value"
  | .defineName => "define expects an identifier"
  | .signatureName => "procedure signature needs a name"
  | .moduleContext => "module declarations are only allowed at top level"
  | .provideContext => "provide is only allowed in a module body"
  | .bindingClauses => "expected a sequence of binding clauses"
  | .bindingClause => "expected a (name value) binding clause"
  | .lambdaShape => "lambda expects formals and a body"
  | .lambdaFormals => "lambda formals must be identifiers"
  | .letShape => "let expects binding clauses and a body"
  | .namedLetShape => "named let expects a name, clauses and a body"
  | .letrecShape => "letrec expects binding clauses and a body"
  | .parameterizeShape => "parameterize expects clauses and a body"
  | .parameterizeClauses => "expected parameterize clauses"
  | .parameterizeClause => "expected a (parameter value) clause"
  | .moduleName => "module expects a name"
  | .modulePath => "expected a module path"
  | .onlyInItem => "only_in expects identifiers"
  | .renameInPair => "rename_in expects (exported local) pairs"
  | .renameInLocal => "rename_in expects a local identifier"
  | .requireSpec => "unknown require spec"
  | .provideSpec => "unknown provide spec"
  | .outsideScope => "identifier used outside the scope that binds it"
  | .foreignDefinition => "definition target is not a definition of this namespace"
  | .binderNotRenamed => "binder was not renamed by expansion"
  | .malformedCore => "malformed core form"
  | .said message => message

/-- The text of a conflict. -/
def Conflict.text : Conflict → String
  | .duplicateDefinition => "duplicate definition in module"
  | .definitionOverImport source => "definition conflicts with the import from " ++ source.path
  | .importOverDefinition source definer =>
    "import from " ++ source.path ++ " would shadow the definition in " ++ definer.path
  | .distinctImports first second => "imported from both " ++ first.path ++ " and " ++ second.path
  | .said message => message

/-- The text of a cause of this kind. -/
def ContractFault.text : ContractFault → String
  | .emptyPath => "module path must not be empty"
  | .pathEscapes path => s!"module path `{path}` escapes the root"
  | .pathNamesNothing path => s!"module path `{path}` names no module"
  | .notData typeName => s!"cannot convert {typeName} to syntax"
  | .foreignBind name home => s!"cannot bind `{name}`: it belongs to " ++ home.path
  | .alreadyInstantiated id =>
    "module " ++ id.path ++ " is already instantiated and cannot be redeclared"
  | .dependencyCycle path => "module dependency cycle: " ++ " -> ".intercalate (path.map (·.path))
  | .notTransformer typeName => s!"define_syntax value is not a transformer: {typeName}"
  | .notParameter typeName => s!"parameterize expects a parameter, got {typeName}"
  | .importMutation name => s!"Mutation of imported binding is not allowed: `{name}`"
  | .moduleFreed home => "module " ++ home.path ++ " is no longer available"
  | .integerOverflow who => s!"{who}: integer overflow"
  | .divisionByZero => "/: division by zero"
  | .unpairedFields => "struct: expects field names and values in pairs"
  | .indexRange index size => s!"elt: index {index} out of range for size {size}"
  | .emptySequence who => s!"{who}: empty sequence"
  | .invalidConfig => "invalid runtime config"
  | .said message => message

/-- The text of a cause of this kind. -/
def EvalFault.text : EvalFault → String
  | .beforeDefinition name home =>
    s!"`{name}` in " ++ home.path ++ " was referenced before its definition was evaluated"
  | .beforeInitialization name => s!"`{name}` is used before its initialization"
  | .notApplicable typeName shown => s!"cannot apply a {typeName} value: {shown}"
  | .ownerFreed name => s!"the namespace defining `{name}` is gone"
  | .said message => message

/-- The text of a cause of this kind. -/
def InternalFault.text : InternalFault → String
  | .noSlot slot name => s!"frame has no slot {slot} for `{name}`"
  | .noSlotToSet slot => s!"frame has no slot {slot}"
  | .noFrame depth => s!"no local frame at depth {depth}"
  | .noImport id home => s!"no imported namespace at id {id} in " ++ home.path
  | .noDefinition name => s!"predefine of `{name}` did not yield a definition"
  | .missingArgument position => s!"no argument at position {position}"
  | .noNamespace ns => s!"no namespace {ns}"
  | .said message => message

/-- The expected number of arguments, in words. -/
def Variability.describe (variability : Variability) (expected : Nat) : String :=
  let plural (n : Nat) := if n = 1 then "argument" else "arguments"
  match variability with
  | .exact => toString expected ++ " " ++ plural expected
  | .atLeast => "at least " ++ toString expected ++ " " ++ plural expected
  | .upTo max => toString expected ++ " to " ++ toString max ++ " " ++ plural max

namespace Fault

/-- The kind of a cause. -/
def kind : Fault → ErrorKind
  | parse _ => .parse
  | badSyntax _ => .badSyntax
  | unbound _ => .unboundIdentifier
  | ambiguous _ _ => .ambiguousBinding
  | arity _ _ _ _ => .arity
  | argType _ _ _ _ => .argType
  | contract _ => .contract
  | eval _ => .eval
  | moduleNotFound _ => .moduleNotFound
  | internal _ => .internal

/-- The message of a failure, as it is shown on a line of its own. -/
def message : Fault → String
  | parse cause => "Parse error: " ++ cause.text
  | badSyntax cause => "Bad syntax: " ++ cause.text
  | unbound name => "Unbound identifier: " ++ name
  | ambiguous name cause => s!"Ambiguous binding for `{name}`: " ++ cause.text
  | arity who expected variability actual =>
    s!"{who} expects " ++ variability.describe expected ++ s!", received {actual}"
  | argType who expected position actual =>
    s!"{who} expects {expected} as argument {position}, received {actual}"
  | contract cause => "Contract violation: " ++ cause.text
  | eval cause => "Evaluation error: " ++ cause.text
  | moduleNotFound path => "Module not found: " ++ path
  | internal cause => "Internal error: " ++ cause.text

/-- The message of a failure, as it is shown beside the place it points at. -/
def detail : Fault → String
  | parse cause => cause.text
  | badSyntax cause => cause.text
  | unbound name => s!"`{name}` is not bound"
  | ambiguous _ cause => cause.text
  | contract cause => cause.text
  | eval cause => cause.text
  | moduleNotFound path => "no module at " ++ path
  | internal cause => cause.text
  | fault => fault.message

/-- A failure of the given kind whose message comes from the host, for the kinds
that consist of a message. -/
def ofMessage? (kind : ErrorKind) (message : String) : Option Fault :=
  match kind with
  | .parse => some (parse (.said message))
  | .badSyntax => some (badSyntax (.said message))
  | .contract => some (contract (.said message))
  | .eval => some (eval (.said message))
  | .internal => some (internal (.said message))
  | _ => none

end Fault

end HygienicLisp
