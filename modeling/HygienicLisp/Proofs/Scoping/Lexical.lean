import HygienicLisp.Proofs.LazyContext
import HygienicLisp.Value.Basic

/-!
# Lexical scope by names

What lexical scope means for expressions as they are written, before there are ribs, wraps or
frames: a name refers to the nearest enclosing form that binds it.

* `Expr` is the syntax of expressions, and `ReadAs` says which expression a form is.  Which
  form `(f a b)` is depends on what `f` means where it stands: a core form only if no enclosing
  form binds `f`.
* `address?` finds the nearest binder of a name: how many frames to go out, and which variable of
  that frame it is.
* `Addressed` says that code has the variables of an expression at these addresses.
-/

namespace HygienicLisp

/-! ## Expressions -/

/-- Expressions with names. -/
inductive Expr where
  | data (a : Atom)
  | ref (x : String)
  | list (items : List Expr)
  | record (keys : List String) (values : List Expr)
  | quoted
  | assign (x : String) (value : Expr)
  | branch (test consequent alternative : Expr)
  | sequence (forms : List Expr)
  /-- A procedure; with `rest` its only parameter takes the list of all arguments. -/
  | lambda (parameters : List String) (rest : Bool) (body : List Expr)
  | letIn (names : List String) (inits body : List Expr)
  | letrec (names : List String) (inits body : List Expr)
  | namedLet (name : String) (names : List String) (inits body : List Expr)
  | parameterize (parameters values body : List Expr)
  | apply (operator : Expr) (operands : List Expr)

/-- The names that the enclosing forms bind, innermost form first. -/
abbrev NameScope := List (List String)

/-- The nearest binder of a name: the number of frames to go out and its position there. -/
def address? (x : String) : NameScope → Option (Nat × Nat)
  | [] => none
  | names :: outer =>
    match names.findIdx? (· = x) with
    | some slot => some (0, slot)
    | none => (address? x outer).map fun a => (a.1 + 1, a.2)

theorem findIdx?_eq_none_iff_notMem {x : String} {names : List String} :
    names.findIdx? (· = x) = none ↔ x ∉ names := by
  rw [List.findIdx?_eq_none_iff]
  constructor
  · exact fun h hx => of_decide_eq_false (h x hx) rfl
  · exact fun h y hy => decide_eq_false fun hsame => h (hsame ▸ hy)

/-- A name has no address exactly if no form binds it. -/
theorem address?_eq_none_iff {x : String} {scope : NameScope} :
    address? x scope = none ↔ ∀ names ∈ scope, x ∉ names := by
  induction scope with
  | nil => simp [address?]
  | cons names outer ih =>
      rw [address?, List.forall_mem_cons, ← ih, ← findIdx?_eq_none_iff_notMem]
      cases names.findIdx? (· = x) <;> simp

/-- The address of a name is its first position in the nearest frame that has it. -/
theorem address?_eq_some_iff {x : String} {scope : NameScope} {depth slot : Nat} :
    address? x scope = some (depth, slot) ↔
      ∃ names, scope[depth]? = some names ∧ names.findIdx? (· = x) = some slot ∧
        ∀ inner ∈ scope.take depth, x ∉ inner := by
  induction scope generalizing depth with
  | nil => simp [address?]
  | cons names outer ih =>
      rw [address?]
      cases depth with
      | zero => cases hslot : names.findIdx? (· = x) <;> simp [hslot]
      | succ depth =>
          have hnot : x ∉ names ↔ names.findIdx? (· = x) = none := findIdx?_eq_none_iff_notMem.symm
          rw [List.getElem?_cons_succ, List.take_succ_cons]
          simp only [List.forall_mem_cons, hnot]
          cases hslot : names.findIdx? (· = x) with
          | some first => simp
          | none => simp [← ih]

/-! ## Forms as expressions -/

/-- Forms without context. -/
abbrev PlainTree := FormTree Atom

namespace PlainTree

/-- A name. -/
def name (x : String) : PlainTree := .leaf (.symbol x)

/-- A form in parentheses. -/
def sexp (items : List PlainTree) : PlainTree := .group .sexp items

/-- The clauses `(FIRST SECOND)...`. -/
def clauses (firsts seconds : List PlainTree) : PlainTree :=
  sexp (List.zipWith (fun first second => sexp [first, second]) firsts seconds)

end PlainTree

section

open PlainTree

variable (value? : String → Option Value)

/-- The form at the head denotes the core form: it is a name that no enclosing form binds, and
its value at top level is the core form. -/
def HeadIs (scope : NameScope) (f : CoreForm) (head : PlainTree) : Prop :=
  ∃ x, head = name x ∧ address? x scope = none ∧ value? x = some (.form f)

/-- The form at the head denotes neither a core form nor a transformer. -/
def HeadPlain (scope : NameScope) (head : PlainTree) : Prop :=
  ∀ x, head = name x → address? x scope = none →
    (∀ f, value? x ≠ some (.form f)) ∧ ∀ id procedureId p,
      value? x ≠ some (.transformer id procedureId p)

mutual

/-- The form is the expression, where the enclosing forms bind the names of the scope. -/
inductive ReadAs : NameScope → PlainTree → Expr → Prop
  | data {scope : NameScope} {a : Atom} (h : ∀ x, a ≠ .symbol x) : ReadAs scope (.leaf a) (.data a)
  | ref {scope : NameScope} (x : String) : ReadAs scope (name x) (.ref x)
  | list {scope : NameScope} {ts : List PlainTree} {es : List Expr} (h : ReadAsAll scope ts es) :
      ReadAs scope (.group .list ts) (.list es)
  | record {scope : NameScope} {keys : List String} {ts : List PlainTree} {es : List Expr}
      (hkeys : keys.length = ts.length) (h : ReadAsAll scope ts es) :
      ReadAs scope (.record (keys.zip ts)) (.record keys es)
  | quoted {scope : NameScope} {f : CoreForm} {head t : PlainTree}
      (hhead : HeadIs value? scope f head) (hf : f = .quote ∨ f = .quoteSyntax) :
      ReadAs scope (sexp [head, t]) .quoted
  | assign {scope : NameScope} {head t : PlainTree} {e : Expr} (x : String)
      (hhead : HeadIs value? scope .set head) (h : ReadAs scope t e) :
      ReadAs scope (sexp [head, name x, t]) (.assign x e)
  | branch {scope : NameScope} {head : PlainTree} {ts : List PlainTree} {e₁ e₂ e₃ : Expr}
      (hhead : HeadIs value? scope .ifForm head) (h : ReadAsAll scope ts [e₁, e₂, e₃]) :
      ReadAs scope (sexp (head :: ts)) (.branch e₁ e₂ e₃)
  | sequence {scope : NameScope} {head : PlainTree} {ts : List PlainTree} {es : List Expr}
      (hhead : HeadIs value? scope .begin head) (h : ReadAsAll scope ts es) :
      ReadAs scope (sexp (head :: ts)) (.sequence es)
  | lambda {scope : NameScope} {head : PlainTree} {names : List String} {ts : List PlainTree}
      {body : List Expr} (hhead : HeadIs value? scope .lambda head)
      (h : ReadAsAll (names :: scope) ts body) :
      ReadAs scope (sexp (head :: sexp (names.map name) :: ts)) (.lambda names false body)
  | lambdaRest {scope : NameScope} {head : PlainTree} {x : String} {ts : List PlainTree}
      {body : List Expr} (hhead : HeadIs value? scope .lambda head)
      (h : ReadAsAll ([x] :: scope) ts body) :
      ReadAs scope (sexp (head :: name x :: ts)) (.lambda [x] true body)
  | letIn {scope : NameScope} {head : PlainTree} {names : List String} {inits ts : List PlainTree}
      {es body : List Expr} (hhead : HeadIs value? scope .letForm head)
      (hnames : names.length = inits.length) (hinits : ReadAsAll scope inits es)
      (h : ReadAsAll (names :: scope) ts body) :
      ReadAs scope (sexp (head :: clauses (names.map name) inits :: ts)) (.letIn names es body)
  | letrec {scope : NameScope} {head : PlainTree} {names : List String} {inits ts : List PlainTree}
      {es body : List Expr} (hhead : HeadIs value? scope .letrec head)
      (hnames : names.length = inits.length) (hinits : ReadAsAll (names :: scope) inits es)
      (h : ReadAsAll (names :: scope) ts body) :
      ReadAs scope (sexp (head :: clauses (names.map name) inits :: ts)) (.letrec names es body)
  | namedLet {scope : NameScope} {head : PlainTree} {x : String} {names : List String}
      {inits ts : List PlainTree} {es body : List Expr} (hhead : HeadIs value? scope .letForm head)
      (hnames : names.length = inits.length) (hinits : ReadAsAll scope inits es)
      (h : ReadAsAll (names :: [x] :: scope) ts body) :
      ReadAs scope (sexp (head :: name x :: clauses (names.map name) inits :: ts))
        (.namedLet x names es body)
  | parameterize {scope : NameScope} {head : PlainTree} {parameters values ts : List PlainTree}
      {ps vs body : List Expr} (hhead : HeadIs value? scope .parameterize head)
      (hlength : parameters.length = values.length) (hparameters : ReadAsAll scope parameters ps)
      (hvalues : ReadAsAll scope values vs) (h : ReadAsAll scope ts body) :
      ReadAs scope (sexp (head :: clauses parameters values :: ts)) (.parameterize ps vs body)
  | apply {scope : NameScope} {head : PlainTree} {ts : List PlainTree} {e : Expr} {es : List Expr}
      (hhead : HeadPlain value? scope head) (hoperator : ReadAs scope head e)
      (hoperands : ReadAsAll scope ts es) : ReadAs scope (sexp (head :: ts)) (.apply e es)

/-- The forms are the expressions, one by one. -/
inductive ReadAsAll : NameScope → List PlainTree → List Expr → Prop
  | nil {scope : NameScope} : ReadAsAll scope [] []
  | cons {scope : NameScope} {t : PlainTree} {ts : List PlainTree} {e : Expr} {es : List Expr}
      (head : ReadAs scope t e) (tail : ReadAsAll scope ts es) : ReadAsAll scope (t :: ts) (e :: es)

end

end

/-! ## Code with the variables at their addresses -/

/-- A reference to a name at the level of namespaces, or one that is left to run time. -/
inductive TopLevelRef (x : String) : Code → Prop
  | top (address : Nat) : TopLevelRef x (.topRef address x)
  | imported (id address : Nat) : TopLevelRef x (.importRef id address x)
  | free (origin : Syntax) : TopLevelRef x (.freeRef x origin)

/-- The code of a body: all forms but the last for effect. -/
def bodyCode : List Code → Code
  | [] => .void
  | [code] => code
  | codes => .sequence codes

mutual

/-- In the code of the expression every variable is at the address of its nearest binder. -/
inductive Addressed : NameScope → Expr → Code → Prop
  | data {scope : NameScope} (a : Atom) : Addressed scope (.data a) (.constant (.atom a))
  | localRef {scope : NameScope} {x : String} {depth slot : Nat}
      (h : address? x scope = some (depth, slot)) :
      Addressed scope (.ref x) (.localRef depth slot x)
  | topLevelRef {scope : NameScope} {x : String} {code : Code} (h : address? x scope = none)
      (hcode : TopLevelRef x code) : Addressed scope (.ref x) code
  | list {scope : NameScope} {es : List Expr} {codes : List Code}
      (h : AddressedAll scope es codes) :
      Addressed scope (.list es) (.listLiteral codes)
  | record {scope : NameScope} {keys : List String} {es : List Expr} {codes : List Code}
      (h : AddressedAll scope es codes) :
      Addressed scope (.record keys es) (.recordLiteral (keys.zip codes))
  | quoted {scope : NameScope} (v : Value) : Addressed scope .quoted (.constant v)
  | localSet {scope : NameScope} {x : String} {depth slot : Nat} {e : Expr} {code : Code}
      (h : address? x scope = some (depth, slot)) (hvalue : Addressed scope e code) :
      Addressed scope (.assign x e) (.localSet depth slot code)
  | topSet {scope : NameScope} {x : String} {e : Expr} {code : Code} (address : Nat)
      (h : address? x scope = none) (hvalue : Addressed scope e code) :
      Addressed scope (.assign x e) (.topSet address code)
  | branch {scope : NameScope} {e₁ e₂ e₃ : Expr} {code₁ code₂ code₃ : Code}
      (h : AddressedAll scope [e₁, e₂, e₃] [code₁, code₂, code₃]) :
      Addressed scope (.branch e₁ e₂ e₃) (.branch code₁ code₂ code₃)
  | sequence {scope : NameScope} {es : List Expr} {codes : List Code}
      (h : AddressedAll scope es codes) : Addressed scope (.sequence es) (bodyCode codes)
  | lambda {scope : NameScope} {parameters : List String} {rest : Bool} {body : List Expr}
      {codes : List Code} (h : AddressedAll (parameters :: scope) body codes) :
      Addressed scope (.lambda parameters rest body)
        (.lambda none (if rest then 0 else parameters.length) rest (bodyCode codes))
  | letIn {scope : NameScope} {names : List String} {es body : List Expr} {inits codes : List Code}
      (hinits : AddressedAll scope es inits) (h : AddressedAll (names :: scope) body codes) :
      Addressed scope (.letIn names es body) (.letIn inits (bodyCode codes))
  | letrec {scope : NameScope} {names : List String} {es body : List Expr} {inits codes : List Code}
      (hinits : AddressedAll (names :: scope) es inits)
      (h : AddressedAll (names :: scope) body codes) :
      Addressed scope (.letrec names es body) (.letrec inits (bodyCode codes))
  /-- The procedure of the loop stands in a frame of its own, inside of which are its parameters;
  the initial values stand outside of both. -/
  | namedLet {scope : NameScope} {x : String} {names : List String} {es body : List Expr}
      {inits codes : List Code} (call : Syntax) (hinits : AddressedAll scope es inits)
      (h : AddressedAll (names :: [x] :: scope) body codes) :
      Addressed scope (.namedLet x names es body)
        (.apply (.letrec [.lambda none names.length false (bodyCode codes)] (.localRef 0 0 x)) inits
          call)
  | parameterize {scope : NameScope} {ps vs body : List Expr} {parameters values codes : List Code}
      (hparameters : AddressedAll scope ps parameters) (hvalues : AddressedAll scope vs values)
      (h : AddressedAll scope body codes) :
      Addressed scope (.parameterize ps vs body)
        (.parameterize (parameters.zip values) (bodyCode codes))
  | apply {scope : NameScope} {e : Expr} {es : List Expr} {operator : Code} {operands : List Code}
      (call : Syntax) (hoperator : Addressed scope e operator)
      (hoperands : AddressedAll scope es operands) :
      Addressed scope (.apply e es) (.apply operator operands call)

/-- The codes are those of the expressions, one by one. -/
inductive AddressedAll : NameScope → List Expr → List Code → Prop
  | nil {scope : NameScope} : AddressedAll scope [] []
  | cons {scope : NameScope} {e : Expr} {es : List Expr} {code : Code} {codes : List Code}
      (head : Addressed scope e code) (tail : AddressedAll scope es codes) :
      AddressedAll scope (e :: es) (code :: codes)

end

end HygienicLisp
