import HygienicLisp.Error

/-!
# Values and code

Values are data, syntax objects, procedures, transformers and syntactic forms.
Code is what forms are compiled to: every identifier has become an address.  The two
depend on each other, because code has constants and closures have code.

Procedures and transformers are told apart by the number of the object, and their
names are kept in a table by that number: a name given to an object is seen through
every reference to it.  Records have labels, as syntax objects have: a record made by a
running program gets a label of its own, and every reference to it shows that label.
-/

namespace HygienicLisp

/-- Procedures and transformers are numbered in the order of their creation. -/
abbrev ObjectId := Nat

/-! ## Arity -/

/-- The numbers of arguments a procedure accepts. -/
structure Arity where
  min : Nat
  max : Option Nat
  deriving DecidableEq, Repr, Inhabited

namespace Arity

/-- Exactly `n` arguments. -/
def exact (n : Nat) : Arity := ⟨n, some n⟩

/-- `n` arguments or more. -/
def atLeast (n : Nat) : Arity := ⟨n, none⟩

/-- From `min` to `max` arguments. -/
def range (min max : Nat) : Arity := ⟨min, some max⟩

/-- Whether a number of arguments is accepted. -/
def accepts (a : Arity) (count : Nat) : Bool :=
  a.min ≤ count && match a.max with
    | some max => count ≤ max
    | none => true

/-- How a failure speaks of the accepted numbers. -/
def variability (a : Arity) : Variability :=
  match a.max with
  | some max => if max = a.min then .exact else .upTo max
  | none => .atLeast

/-- Fails on behalf of `who` unless the number of arguments is accepted. -/
def check (a : Arity) (who : String) (count : Nat) : Except Error Unit :=
  if a.accepts count then .ok ()
  else .error (.of (.arity who a.min a.variability count))

end Arity

/-! ## Core forms -/

/-- The special forms of the kernel. -/
inductive CoreForm where
  | begin
  | define
  | defineSyntax
  | lambda
  | letForm
  | letrec
  | ifForm
  | quote
  | quoteSyntax
  | set
  | moduleForm
  | require
  | provide
  | parameterize
  deriving DecidableEq, Repr, Inhabited

namespace CoreForm

/-- All core forms, in the order in which the kernel defines them. -/
def all : List CoreForm :=
  [begin, define, defineSyntax, lambda, letForm, letrec, ifForm, quote, quoteSyntax, set,
    moduleForm, require, provide, parameterize]

/-- The name the kernel gives a core form. -/
def name : CoreForm → String
  | begin => "begin"
  | define => "define"
  | defineSyntax => "define_syntax"
  | lambda => "lambda"
  | letForm => "let"
  | letrec => "letrec"
  | ifForm => "if"
  | quote => "quote"
  | quoteSyntax => "quote_syntax"
  | set => "set!"
  | moduleForm => "module"
  | require => "require"
  | provide => "provide"
  | parameterize => "parameterize"

end CoreForm

/-! ## Primitives -/

/-- The primitive procedures of the kernel. -/
inductive Primitive where
  | add
  | sub
  | mul
  | div
  | equal
  | less
  | greater
  | lessEqual
  | greaterEqual
  | not
  | list
  | sexp
  | struct
  | size
  | elt
  | head
  | tail
  | isEmpty
  | isNull
  | isVoid
  | void
  | error
  | makeParameter
  | syntaxSubforms
  | syntaxToDatum
  | datumToSyntax
  | isIdentifier
  | boundIdentifierEqual
  | freeIdentifierEqual
  deriving DecidableEq, Repr, Inhabited

namespace Primitive

/-- All primitives, in the order in which the kernel defines them. -/
def all : List Primitive :=
  [add, sub, mul, div, equal, less, greater, lessEqual, greaterEqual, not, list, sexp, struct,
    size, elt, head, tail, isEmpty, isNull, isVoid, void, error, makeParameter, syntaxSubforms,
    syntaxToDatum, datumToSyntax, isIdentifier, boundIdentifierEqual, freeIdentifierEqual]

/-- The name the kernel gives a primitive. -/
def name : Primitive → String
  | add => "+"
  | sub => "-"
  | mul => "*"
  | div => "/"
  | equal => "="
  | less => "<"
  | greater => ">"
  | lessEqual => "<="
  | greaterEqual => ">="
  | not => "not"
  | list => "list"
  | sexp => "sexp"
  | struct => "struct"
  | size => "size"
  | elt => "elt"
  | head => "head"
  | tail => "tail"
  | isEmpty => "is_empty"
  | isNull => "is_null"
  | isVoid => "is_void"
  | void => "void"
  | error => "error"
  | makeParameter => "make_parameter"
  | syntaxSubforms => "syntax_subforms"
  | syntaxToDatum => "syntax_to_datum"
  | datumToSyntax => "datum_to_syntax"
  | isIdentifier => "is_identifier"
  | boundIdentifierEqual => "bound_identifier_equal"
  | freeIdentifierEqual => "free_identifier_equal"

/-- The numbers of arguments a primitive accepts. -/
def arity : Primitive → Arity
  | add | mul | list | sexp | struct | void => .atLeast 0
  | sub | div | equal | less | greater | lessEqual | greaterEqual | error => .atLeast 1
  | not | size | head | tail | isEmpty | isNull | isVoid | makeParameter | syntaxSubforms
  | syntaxToDatum | isIdentifier => .exact 1
  | elt | boundIdentifierEqual | freeIdentifierEqual => .exact 2
  | datumToSyntax => .range 1 2

/-- The primitive with the given name. -/
def ofName? (name : String) : Option Primitive := all.find? (·.name = name)

end Primitive

/-! ## Values and code -/

/-- Where code finds its variables: a namespace and a chain of frames. -/
structure Env where
  space : NamespaceId
  frame : Option Nat
  deriving DecidableEq, Repr, Inhabited

mutual

/-- A value of the language. -/
inductive Value where
  /-- The result of forms evaluated for effect. -/
  | void
  | atom (a : Atom)
  | group (shape : Shape) (items : List Value)
  /-- Fields are in the order of their keys.  The label is 0 in data that no program has
  made. -/
  | record (label : Nat) (fields : List (String × Value))
  | stx (s : Syntax)
  | procedure (id : ObjectId) (p : Procedure)
  /-- A procedure installed as a transformer of syntax. -/
  | transformer (id : ObjectId) (procedureId : ObjectId) (p : Procedure)
  | form (f : CoreForm)

/-- Anything that may be applied to arguments. -/
inductive Procedure where
  | native (arity : Arity) (p : Primitive)
  | closure (required : Nat) (rest : Bool) (body : Code) (env : Env)
  /-- A dynamically scoped variable with its default. -/
  | parameter (default : Value)

/-- An executable form. -/
inductive Code where
  | constant (v : Value)
  | void
  | localRef (depth slot : Nat) (name : String)
  | topRef (address : Nat) (name : String)
  | importRef (id address : Nat) (name : String)
  | freeRef (name : String) (origin : Syntax)
  | localSet (depth slot : Nat) (value : Code)
  | topSet (address : Nat) (value : Code)
  | define (name : String) (address : Nat) (value : Code)
  | defineSyntax (name : String) (address : Nat) (value : Code) (origin : Syntax)
  | branch (test consequent alternative : Code)
  | sequence (forms : List Code)
  | lambda (name : Option String) (required : Nat) (rest : Bool) (body : Code)
  | letIn (inits : List Code) (body : Code)
  | letrec (inits : List Code) (body : Code)
  | apply (operator : Code) (operands : List Code) (call : Syntax)
  | parameterize (bindings : List (Code × Code)) (body : Code)
  | listLiteral (elements : List Code)
  | recordLiteral (fields : List (String × Code))

end

instance : Inhabited Value := ⟨.void⟩

instance : Inhabited Code := ⟨.void⟩

namespace Value

/-- A truth value. -/
abbrev bool (b : Bool) : Value := .atom (.bool b)

/-- An integer. -/
abbrev int (i : Int64) : Value := .atom (.int i)

/-- A list of values. -/
abbrev list (items : List Value) : Value := .group .list items

/-- The name of a value's type. -/
def typeName : Value → String
  | void => "void"
  | atom .null => "null"
  | atom (.bool _) => "bool"
  | atom (.int _) => "int"
  | atom (.float _) => "float"
  | atom (.str _) => "string"
  | atom (.symbol _) => "symbol"
  | group .sexp _ => "sexp"
  | group .list _ => "list"
  | record _ _ => "struct"
  | stx _ => "syntax"
  | procedure _ _ => "procedure"
  | transformer _ _ _ => "macro"
  | form _ => "syntactic form"

/-- Void, `null` and `false` are untruthy; everything else is truthy. -/
def isTruthy : Value → Bool
  | void => false
  | atom .null => false
  | atom (.bool b) => b
  | _ => true

end Value

namespace Value

mutual

/-- Labels every record in a value that has no label, counting up from `next`.  Records
inside a record that has a label have labels already. -/
def stamp : Value → Nat → Value × Nat
  | group shape items, next =>
    let (items, next) := stampAll items next
    (group shape items, next)
  | record label fields, next =>
    if label = 0 then
      let (fields, next') := stampFields fields (next + 1)
      (record next fields, next')
    else (record label fields, next)
  | v, next => (v, next)

/-- `stamp` on every value of a sequence. -/
def stampAll : List Value → Nat → List Value × Nat
  | [], next => ([], next)
  | v :: rest, next =>
    let (v, next) := stamp v next
    let (rest, next) := stampAll rest next
    (v :: rest, next)

/-- `stamp` on every field of a record. -/
def stampFields : List (String × Value) → Nat → List (String × Value) × Nat
  | [], next => ([], next)
  | (key, v) :: rest, next =>
    let (v, next) := stamp v next
    let (rest, next) := stampFields rest next
    ((key, v) :: rest, next)

end

end Value

/-- The numbers of arguments a procedure accepts. -/
def Procedure.arity : Procedure → Arity
  | native arity _ => arity
  | closure required rest _ _ => if rest then .atLeast required else .exact required
  | parameter _ => .exact 0

end HygienicLisp
