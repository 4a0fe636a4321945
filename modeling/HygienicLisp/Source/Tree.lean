import HygienicLisp.Syntax.Basic
import HygienicLisp.Text.Alphabet

/-!
# Source trees

A source tree is what the grammar finds in a text: tokens with their raw text,
brackets around them, and the range of bytes that each part covers.  What a token
denotes, and whether it denotes anything, is settled afterwards.
-/

namespace HygienicLisp

/-- The lexical class of a token. -/
inductive TokenKind where
  | null
  | boolean
  | float
  | int
  | string
  | symbol
  deriving DecidableEq, Repr

/-- A token; the text of a string token is what stands between the quotes. -/
structure Token where
  kind : TokenKind
  text : List Char
  span : Span
  deriving DecidableEq, Repr

/-- The range of a struct field and the token of its key. -/
structure FieldHead where
  span : Span
  key : Token
  deriving DecidableEq, Repr

/-- A form as the grammar sees it, under the annotations written before it. -/
inductive SourceTree where
  | token (notes : List String) (token : Token)
  | quoted (notes : List String) (span : Span) (inner : SourceTree)
  | group (notes : List String) (span : Span) (shape : Shape) (items : List SourceTree)
  | record (notes : List String) (span : Span) (fields : List (FieldHead × SourceTree))
  deriving Repr

/-- The tree with one more annotation in front. -/
def SourceTree.annotate (note : String) : SourceTree → SourceTree
  | token notes t => token (note :: notes) t
  | quoted notes span inner => quoted (note :: notes) span inner
  | group notes span shape items => group (note :: notes) span shape items
  | record notes span fields => record (note :: notes) span fields

end HygienicLisp
