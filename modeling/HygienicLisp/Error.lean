import HygienicLisp.Fault
import HygienicLisp.Syntax.Printer

/-!
# Failures

A failure is a cause with the place it was raised at and the trail of the forms
that were being processed around it.  While a failure unwinds, each enclosing form
is added to the trail; the trail is kept innermost first and shown outermost first.
-/

namespace HygienicLisp

/-- Forms are shown up to this many bytes of their text. -/
def maxFormText : Nat := 120

/-- The longest beginning of a text that takes at most `budget` bytes. -/
def takeBytes (budget : Nat) : List Char → List Char
  | [] => []
  | c :: rest => if c.utf8Size ≤ budget then c :: takeBytes (budget - c.utf8Size) rest else []

/-- The text of a form as failures show it: cut at a character boundary when too long. -/
def shownForm (stx : Syntax) : String :=
  let text := stx.text
  if maxFormText < text.utf8ByteSize then
    String.ofList (takeBytes maxFormText text.toList) ++ " ..."
  else text

/-- An enclosing form of a failure. -/
structure TrailEntry where
  form : String
  span : Option Span
  deriving DecidableEq, Repr

/-- Where a failure was raised. -/
structure ErrorPlace where
  source : Option Source := none
  span : Option Span := none
  form : Option String := none
  help : Option String := none
  /-- Enclosing forms, innermost first. -/
  trail : List TrailEntry := []
  deriving DecidableEq, Repr, Inhabited

/-- A failure, with the failure that led to it if there was one. -/
structure Error where
  fault : Fault
  place : ErrorPlace
  cause : Option Error
  deriving Repr

instance : Inhabited Error := ⟨⟨.internal (.said ""), {}, none⟩⟩

namespace Error

/-- A failure without a place. -/
def of (fault : Fault) : Error := ⟨fault, {}, none⟩

/-- A failure at a form. -/
def atForm (fault : Fault) (stx : Syntax) : Error :=
  ⟨fault, { span := stx.span, form := some (shownForm stx) }, none⟩

/-- A failure at a range of a source text. -/
def inSource (fault : Fault) (source : Source) (span : Span) : Error :=
  ⟨fault, { source := some source, span := some span }, none⟩

/-- The kind of a failure. -/
def kind (e : Error) : ErrorKind := e.fault.kind

/-- The message of a failure. -/
def message (e : Error) : String := e.fault.message

/-- Records `stx` as an enclosing form.  A failure without a range takes over that
of the form. -/
def withContext (stx : Syntax) (e : Error) : Error :=
  { e with place :=
    { e.place with
      span := e.place.span <|> stx.span
      trail := e.place.trail ++ [⟨shownForm stx, stx.span⟩] } }

/-- Attaches the text that ranges refer to, unless one is attached already. -/
def withSource (source : Source) (e : Error) : Error :=
  { e with place := { e.place with source := e.place.source <|> some source } }

/-- Sets the advice that goes with a failure. -/
def withHelp (help : String) (e : Error) : Error :=
  { e with place := { e.place with help := some help } }

/-- The enclosing forms, outermost first. -/
def trail (e : Error) : List TrailEntry := e.place.trail.reverse

/-- The messages of the failures that led to this one, nearest first. -/
def causes : Error → List String
  | ⟨_, _, none⟩ => []
  | ⟨_, _, some cause⟩ => cause.message :: causes cause

/-! ## Labels -/

/-- A marked range of a source text; an empty range is shown as one byte. -/
structure Label where
  text : String
  offset : Nat
  length : Nat
  deriving DecidableEq, Repr

/-- The label with the given text at a range. -/
def Label.over (text : String) (span : Span) : Label :=
  ⟨text, span.start, if span.start < span.stop then span.stop - span.start else 1⟩

/-- The ranges of the attached source to point at: the failure's own first, then
those of the enclosing forms, outermost first, that differ from it.  Without an
attached source, or without any range, there are none. -/
def labels? (e : Error) : Option (List Label) :=
  match e.place.source with
  | none => none
  | some _ =>
    let own := e.place.span.toList.map (Label.over e.fault.detail)
    let enclosing := e.trail.filterMap fun entry =>
      match entry.span with
      | none => none
      | some span =>
        if some span = e.place.span then none
        else some (Label.over "while expanding this form" span)
    match own ++ enclosing with
    | [] => none
    | labels => some labels

/-- The code under which a failure of this kind is documented. -/
def code (e : Error) : String := "tessera::" ++ e.kind.name

end Error

end HygienicLisp
