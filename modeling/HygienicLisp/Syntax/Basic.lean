import HygienicLisp.Binding
import HygienicLisp.Text.Span

/-!
# Syntax objects

A syntax object is a form together with the lexical context it stands in.  The
context is a chain of wraps, newest first.  A wrap on a container applies to
everything inside it; it is pushed down to the children only when these are
extracted, where it lands in front of the child's own wraps.

Two references are to the same object only if no operation made a new object in
between.  Objects that have become values carry a label for this purpose; an
operation that makes a new object leaves it unlabelled.
-/

namespace HygienicLisp

/-- One transformation of lexical context. -/
inductive Wrap where
  /-- A hygiene mark. -/
  | mark (m : Mark)
  /-- The bindings of a `lambda`, `let` or `letrec`. -/
  | rename (rib : Rib)
  /-- The bindings of a namespace, those it has now and those it will have. -/
  | space (ns : NamespaceId)
  /-- Renames free identifiers into the bindings of a module. -/
  | moduleRename (ns : NamespaceId)
  deriving DecidableEq, Repr

/-- Data without parts. -/
inductive Atom where
  | null
  | bool (b : Bool)
  | int (i : Int64)
  | float (x : Float)
  | str (s : String)
  | symbol (name : String)
  deriving Repr, Inhabited

/-- The two kinds of sequence: `(a b)` and `[a, b]`. -/
inductive Shape where
  | sexp
  | list
  deriving DecidableEq, Repr, Inhabited

/-- What a syntax object carries besides its data. -/
structure Context where
  /-- Lexical context, newest wrap first. -/
  wraps : List Wrap := []
  /-- Where the form was read. -/
  span : Option Span := none
  /-- The annotations written before the form. -/
  notes : List String := []
  /-- The binding recorded when the identifier was defined; new wraps drop it. -/
  binding : Option Binding := none
  /-- Names the object; zero when it has no name. -/
  label : Nat := 0
  deriving Repr, Inhabited

/-- A form in its lexical context.  Fields of a record are in the order of their keys. -/
inductive Syntax where
  | atom (context : Context) (a : Atom)
  | group (context : Context) (shape : Shape) (items : List Syntax)
  | record (context : Context) (fields : List (String × Syntax))
  deriving Repr

instance : Inhabited Syntax := ⟨.atom {} .null⟩

namespace Syntax

/-- The context of a syntax object. -/
def context : Syntax → Context
  | atom c _ => c
  | group c _ _ => c
  | record c _ => c

/-- The same data in another context. -/
def setContext (c : Context) : Syntax → Syntax
  | atom _ a => atom c a
  | group _ shape items => group c shape items
  | record _ fields => record c fields

/-- The wraps on this object, newest first. -/
def wraps (stx : Syntax) : List Wrap := stx.context.wraps

/-- Where the form was read, if it was. -/
def span (stx : Syntax) : Option Span := stx.context.span

/-- The annotations written before the form. -/
def notes (stx : Syntax) : List String := stx.context.notes

/-- An identifier without context. -/
def ident (name : String) : Syntax := atom {} (.symbol name)

/-- A sexp without context, read at `span`. -/
def sexp (items : List Syntax) (span : Option Span) : Syntax := group { span } .sexp items

/-- The name of an identifier, and nothing for any other form. -/
def symbol? : Syntax → Option String
  | atom _ (.symbol name) => some name
  | _ => none

/-- Whether the form is an identifier. -/
def isIdentifier (stx : Syntax) : Bool := stx.symbol?.isSome

/-- Whether the form is a sexp. -/
def isSexp : Syntax → Bool
  | group _ .sexp _ => true
  | _ => false

/-! ## Lexical context -/

/-- Puts a wrap in front of a chain.  A mark that meets itself cancels. -/
def pushWrap (wrap : Wrap) (wraps : List Wrap) : List Wrap :=
  match wrap, wraps with
  | .mark m, .mark top :: older => if m = top then older else .mark m :: .mark top :: older
  | wrap, wraps => wrap :: wraps

/-- Adds the newest wrap.  The result is a new object without a recorded binding. -/
def addWrap (wrap : Wrap) (stx : Syntax) : Syntax :=
  let c := stx.context
  stx.setContext { c with wraps := pushWrap wrap c.wraps, binding := none, label := 0 }

/-- Puts a chain of newer wraps in front of the wraps of this object.  An empty
chain leaves the object itself. -/
def addWraps (newer : List Wrap) (stx : Syntax) : Syntax := newer.foldr addWrap stx

/-- The identifier with its binding recorded. -/
def withBinding (binding : Binding) (stx : Syntax) : Syntax :=
  stx.setContext { stx.context with binding := some binding, label := 0 }

/-- The form with other annotations. -/
def withNotes (notes : List String) (stx : Syntax) : Syntax :=
  stx.setContext { stx.context with notes, label := 0 }

/-! ## Parts -/

/-- The parts of a sexp, with its wraps pushed down. -/
def subforms? : Syntax → Option (List Syntax)
  | group c .sexp items => some (items.map (addWraps c.wraps))
  | _ => none

/-- The elements of a list literal, with its wraps pushed down. -/
def elements? : Syntax → Option (List Syntax)
  | group c .list items => some (items.map (addWraps c.wraps))
  | _ => none

/-- The fields of a struct literal, with its wraps pushed down. -/
def fields? : Syntax → Option (List (String × Syntax))
  | record c fields => some (fields.map fun (key, value) => (key, value.addWraps c.wraps))
  | _ => none

/-- The parts of a sexp, and no parts for any other form. -/
def subforms (stx : Syntax) : List Syntax := stx.subforms?.getD []

/-- A sexp of `items` at the place of this form, without context. -/
def rebuildSexp (stx : Syntax) (items : List Syntax) : Syntax :=
  group { span := stx.span } .sexp items

/-- A list of `items` at the place of this form, without context. -/
def rebuildList (stx : Syntax) (items : List Syntax) : Syntax :=
  group { span := stx.span } .list items

/-- A record of `fields` at the place of this form, without context. -/
def rebuildRecord (stx : Syntax) (fields : List (String × Syntax)) : Syntax :=
  record { span := stx.span } fields

/-! ## Stripping -/

mutual

/-- The same tree without wraps; spans and annotations stay. -/
def strip : Syntax → Syntax
  | atom c a => atom { span := c.span, notes := c.notes } a
  | group c shape items => group { span := c.span, notes := c.notes } shape (stripAll items)
  | record c fields => record { span := c.span, notes := c.notes } (stripFields fields)

/-- `strip` on every form of a sequence. -/
def stripAll : List Syntax → List Syntax
  | [] => []
  | stx :: rest => stx.strip :: stripAll rest

/-- `strip` on every field of a record. -/
def stripFields : List (String × Syntax) → List (String × Syntax)
  | [] => []
  | (key, stx) :: rest => (key, stx.strip) :: stripFields rest

end

/-! ## Identity -/

mutual

/-- Labels every object of the tree that has none, counting up from `next`.
Parts of an object that has a label have labels already. -/
def stamp : Syntax → Nat → Syntax × Nat
  | atom c a, next =>
    if c.label = 0 then (atom { c with label := next } a, next + 1) else (atom c a, next)
  | group c shape items, next =>
    if c.label = 0 then
      let (items, next') := stampAll items (next + 1)
      (group { c with label := next } shape items, next')
    else (group c shape items, next)
  | record c fields, next =>
    if c.label = 0 then
      let (fields, next') := stampFields fields (next + 1)
      (record { c with label := next } fields, next')
    else (record c fields, next)

/-- `stamp` on every form of a sequence. -/
def stampAll : List Syntax → Nat → List Syntax × Nat
  | [], next => ([], next)
  | stx :: rest, next =>
    let (stx, next) := stx.stamp next
    let (rest, next) := stampAll rest next
    (stx :: rest, next)

/-- `stamp` on every field of a record. -/
def stampFields : List (String × Syntax) → Nat → List (String × Syntax) × Nat
  | [], next => ([], next)
  | (key, stx) :: rest, next =>
    let (stx, next) := stx.stamp next
    let (rest, next) := stampFields rest next
    ((key, stx) :: rest, next)

end

/-- Whether two references are to the same labelled object. -/
def same (a b : Syntax) : Bool := a.context.label ≠ 0 && a.context.label = b.context.label

end Syntax

end HygienicLisp
