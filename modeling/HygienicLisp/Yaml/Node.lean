import HygienicLisp.Yaml.Layout

/-!
# Nodes of a YAML document

A document is a tree of scalars, sequences and mappings.  `Node.ofText?` reads the one document
of a text.
-/

namespace HygienicLisp.Yaml

/-- A scalar and how it is written. -/
structure Scalar where
  style : Style := .plain
  text : List Char := []
  deriving DecidableEq, Repr

/-- A node of a document. -/
inductive Node where
  | scalar (s : Scalar)
  | sequence (items : List Node)
  | mapping (entries : List (Node × Node))
  deriving Repr

namespace Node

/-- The node that is left out where one is expected. -/
def empty : Node := scalar {}

/-- The scalar that a node is. -/
def scalar? : Node → Option Scalar
  | scalar s => some s
  | _ => none

/-! ## The grammar -/

/-- Whether a node is left out: the tokens go on with one of the given kinds. -/
def leftOut (stops : Token → Bool) : List Token → Bool
  | [] => false
  | token :: _ => stops token

/-- A token that ends an item of a block sequence. -/
def endsItem (token : Token) : Bool := token = .blockEntry || token = .blockEnd

/-- A token that ends a key or a value of a block mapping. -/
def endsField (token : Token) : Bool := token = .key || token = .value || token = .blockEnd

/-- A token that ends a value between brackets or braces. -/
def endsFlow (closing token : Token) : Bool := token = .flowEntry || token = closing

mutual

/-- The node at the beginning of some tokens, and the rest.  Blocks are possible only where
`block` says so, and items without a block of their own where `items` says so. -/
def read? : Nat → Bool → Bool → List Token → Option (Node × List Token)
  | 0, _, _, _ => none
  | fuel + 1, block, items, tokens =>
    match tokens with
    | .scalar style text :: rest => some (scalar ⟨style, text⟩, rest)
    | .flowSequenceStart :: rest => do
      let (items, rest) ← readFlowItems? fuel true rest
      return (sequence items, rest)
    | .flowMappingStart :: rest => do
      let (entries, rest) ← readFlowEntries? fuel true rest
      return (mapping entries, rest)
    | .blockEntry :: _ => do
      if !items then none
      let (items, rest) ← readItems? fuel endsField tokens
      return (sequence items, rest)
    | .blockSequenceStart :: rest => do
      if !block then none
      match ← readItems? fuel endsItem rest with
      | (items, .blockEnd :: rest) => return (sequence items, rest)
      | _ => none
    | .blockMappingStart :: rest => do
      if !block then none
      match ← readEntries? fuel rest with
      | (entries, .blockEnd :: rest) => return (mapping entries, rest)
      | _ => none
    | _ => none

/-- The items of a block sequence.  An item is left out before a token of the given kinds
and before another item. -/
def readItems? : Nat → (Token → Bool) → List Token → Option (List Node × List Token)
  | 0, _, _ => none
  | fuel + 1, stops, .blockEntry :: rest => do
    let (item, rest) ←
      if leftOut (fun token => stops token || token = .blockEntry) rest then some (empty, rest)
      else read? fuel true false rest
    let (items, rest) ← readItems? fuel stops rest
    return (item :: items, rest)
  | _ + 1, _, rest => some ([], rest)

/-- The entries of a block mapping. -/
def readEntries? : Nat → List Token → Option (List (Node × Node) × List Token)
  | 0, _ => none
  | fuel + 1, .key :: rest => do
    let (key, rest) ←
      if leftOut endsField rest then some (empty, rest) else read? fuel true true rest
    let (value, rest) ← readValue? fuel rest
    let (entries, rest) ← readEntries? fuel rest
    return ((key, value) :: entries, rest)
  | _ + 1, rest => some ([], rest)

/-- The value of an entry of a block mapping. -/
def readValue? : Nat → List Token → Option (Node × List Token)
  | 0, _ => none
  | fuel + 1, .value :: rest =>
    if leftOut endsField rest then some (empty, rest) else read? fuel true true rest
  | _ + 1, rest => some (empty, rest)

/-- The items between brackets, up to and with the closing one. -/
def readFlowItems? : Nat → Bool → List Token → Option (List Node × List Token)
  | 0, _, _ => none
  | _ + 1, _, .flowSequenceEnd :: rest => some ([], rest)
  | fuel + 1, first, tokens => do
    match ← afterComma? first tokens with
    | .flowSequenceEnd :: rest => return ([], rest)
    | .key :: rest =>
      let (key, rest) ← readPairKey? fuel rest
      let (value, rest) ← readFlowValue? fuel .flowSequenceEnd rest
      let (items, rest) ← readFlowItems? fuel false rest
      return (mapping [(key, value)] :: items, rest)
    | tokens =>
      let (item, rest) ← read? fuel false false tokens
      let (items, rest) ← readFlowItems? fuel false rest
      return (item :: items, rest)

/-- The key of a single entry between brackets.  If it is left out, the token after it is
passed too. -/
def readPairKey? : Nat → List Token → Option (Node × List Token)
  | 0, _ => none
  | fuel + 1, tokens =>
    if leftOut (fun token => token = .value || endsFlow .flowSequenceEnd token) tokens then
      some (empty, tokens.drop 1)
    else read? fuel false false tokens

/-- The entries between braces, up to and with the closing one. -/
def readFlowEntries? : Nat → Bool → List Token → Option (List (Node × Node) × List Token)
  | 0, _, _ => none
  | _ + 1, _, .flowMappingEnd :: rest => some ([], rest)
  | fuel + 1, first, tokens => do
    match ← afterComma? first tokens with
    | .flowMappingEnd :: rest => return ([], rest)
    | .key :: rest =>
      let (key, rest) ←
        if leftOut (fun token => token = .value || endsFlow .flowMappingEnd token) rest then
          some (empty, rest)
        else read? fuel false false rest
      let (value, rest) ← readFlowValue? fuel .flowMappingEnd rest
      let (entries, rest) ← readFlowEntries? fuel false rest
      return ((key, value) :: entries, rest)
    | tokens =>
      let (key, rest) ← read? fuel false false tokens
      let (entries, rest) ← readFlowEntries? fuel false rest
      return ((key, empty) :: entries, rest)

/-- The value of an entry between brackets or braces. -/
def readFlowValue? : Nat → Token → List Token → Option (Node × List Token)
  | 0, _, _ => none
  | fuel + 1, closing, .value :: rest =>
    if leftOut (endsFlow closing) rest then some (empty, rest)
    else read? fuel false false rest
  | _ + 1, _, rest => some (empty, rest)

/-- The tokens after the comma that stands between two items or entries. -/
def afterComma? : Bool → List Token → Option (List Token)
  | true, tokens => some tokens
  | false, .flowEntry :: rest => some rest
  | false, _ => none

end

/-! ## Documents -/

/-- Whether only marks of the document's end are left. -/
def endsText (tokens : List Token) : Bool := tokens.all (· = .documentEnd)

/-- The node that some tokens are, up to the document's end. -/
def only? (tokens : List Token) : Option Node := do
  let (node, rest) ← read? (3 * tokens.length + 3) true false tokens
  if endsText rest then return node else none

/-- The document of some tokens.  It may begin with its mark, and behind that mark its node may
be left out.  There is nothing in a text without tokens. -/
def document? : List Token → Option (Option Node)
  | [] => some none
  | .documentStart :: rest => if endsText rest then some (some empty) else (only? rest).map some
  | tokens => (only? tokens).map some

/-- The node of the one document of a text. -/
def ofText? (text : List Char) : Option (Option Node) := (tokens? text).bind document?

end Node

end HygienicLisp.Yaml
