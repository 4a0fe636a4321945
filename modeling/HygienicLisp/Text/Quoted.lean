/-!
# String literals

Writing escapes the quote, the backslash, the newline and the tab, and leaves
every other character as it is.  Reading knows two escapes more, for the carriage
return and the NUL character, and refuses all others.
-/

namespace HygienicLisp.Quoted

/-- Why the body of a string literal denotes no string. -/
inductive EscapeFault where
  | unknown (c : Char)
  | dangling
  deriving DecidableEq, Repr

/-- The body of the literal for a string. -/
def encode : List Char → List Char
  | [] => []
  | c :: rest =>
    match c with
    | '"' => '\\' :: '"' :: encode rest
    | '\\' => '\\' :: '\\' :: encode rest
    | '\n' => '\\' :: 'n' :: encode rest
    | '\t' => '\\' :: 't' :: encode rest
    | c => c :: encode rest

/-- The character that a backslash followed by `c` stands for. -/
def escaped? (c : Char) : Option Char :=
  match c with
  | 'n' => some '\n'
  | 't' => some '\t'
  | 'r' => some '\r'
  | '0' => some '\x00'
  | '"' => some '"'
  | '\\' => some '\\'
  | _ => none

/-- The string denoted by the body of a literal. -/
def decode : List Char → Except EscapeFault (List Char)
  | [] => .ok []
  | '\\' :: [] => .error .dangling
  | '\\' :: c :: rest =>
    match escaped? c with
    | none => .error (.unknown c)
    | some d => (decode rest).map (d :: ·)
  | c :: rest => (decode rest).map (c :: ·)

/-- The whole literal for a string, quotes included. -/
def literal (s : String) : String :=
  String.ofList ('"' :: encode s.toList ++ ['"'])

/-- Reading the literal of a string gives that string back. -/
theorem decode_encode (s : List Char) : decode (encode s) = .ok s := by
  induction s with
  | nil => rfl
  | cons c rest ih =>
    unfold encode
    split <;> simp_all [decode, escaped?, Except.map]

end HygienicLisp.Quoted
