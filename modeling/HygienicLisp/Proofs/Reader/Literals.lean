import HygienicLisp.Proofs.Notation.Tokens
import HygienicLisp.Proofs.Runs
import HygienicLisp.Source.Reader
import Mathlib.Data.Nat.Digits.Defs

/-!
# What literals write

An int literal writes the integer of its decimal digits and its sign.  The body of a string literal
is a sequence of plain characters and of escapes, read from left to right; an escape is a backslash
with the character after it, whatever that is.  Six escapes write a character and all others
nothing.  A backslash that is itself escaped begins no escape.

Both are stated as relations on texts, which the reader computes: `intValue_eq` for integers,
`writesString_of_decode` and `exists_unknown_of_decode` for strings.
-/

namespace HygienicLisp

open Grammar

/-! ## Integers -/

/-- The number that decimal digits write, the last one in the place of units. -/
def decimal (digits : List Char) : Nat :=
  Nat.ofDigits 10 (digits.reverse.map fun c => c.toNat - '0'.toNat)

/-- The integer that an int literal writes. -/
inductive WritesInt : List Char → Int → Prop
  | plain {digits : List Char} (h : IsDigits digits) : WritesInt digits (decimal digits)
  | minus {digits : List Char} (h : IsDigits digits) :
      WritesInt ('-' :: digits) (-(decimal digits : Int))

theorem digitsValue_eq (digits : List Char) : digitsValue digits = decimal digits := by
  rw [digitsValue, decimal, Nat.ofDigits_eq_foldr, List.foldr_map, List.foldr_reverse]
  congr 1
  funext value c
  rw [Nat.add_comm]
  rfl

theorem Grammar.IsInt.exists_writesInt {text : List Char} (h : IsInt text) :
    ∃ n, WritesInt text n := by
  obtain ⟨rfl | rfl, hdigits⟩ := h
  · exact ⟨_, .plain hdigits⟩
  · exact ⟨_, .minus hdigits⟩

/-- The reader computes what an int literal writes. -/
theorem intValue_eq {text : List Char} {n : Int} (h : WritesInt text n) :
    Token.intValue text = n := by
  cases h with
  | plain hdigits =>
      have hsign : sign ['-'] ([] ++ (text ++ [])) = _ := sign_minus_append (.inl rfl) hdigits
      rw [List.nil_append, List.append_nil] at hsign
      rw [Token.intValue, hsign, ← digitsValue_eq]
      rfl
  | @minus digits hdigits =>
      have hsign : sign ['-'] (['-'] ++ (digits ++ [])) = _ :=
        sign_minus_append (.inr rfl) hdigits
      rw [List.append_nil, List.singleton_append] at hsign
      rw [Token.intValue, hsign, ← digitsValue_eq]
      rfl

/-! ## Strings -/

/-- The text stands between the quotes of a string literal. -/
inductive IsBody : List Char → Prop
  | nil : IsBody []
  | plain {c : Char} {rest : List Char} (hquote : c ≠ '"') (hbackslash : c ≠ '\\')
      (hrest : IsBody rest) : IsBody (c :: rest)
  | escape {c : Char} {rest : List Char} (hrest : IsBody rest) : IsBody ('\\' :: c :: rest)

/-- The characters that may follow a backslash, with what they write there. -/
def escapes : List (Char × Char) :=
  [('n', '\n'), ('t', '\t'), ('r', '\r'), ('0', '\x00'), ('"', '"'), ('\\', '\\')]

/-- The characters that the body of a string literal writes. -/
inductive WritesString : List Char → List Char → Prop
  | nil : WritesString [] []
  | plain {c : Char} {body s : List Char} (hbackslash : c ≠ '\\') (hrest : WritesString body s) :
      WritesString (c :: body) (c :: s)
  | escape {c d : Char} {body s : List Char} (hescape : (c, d) ∈ escapes)
      (hrest : WritesString body s) : WritesString ('\\' :: c :: body) (d :: s)

/-- The body of a string literal contains a backslash, not escaped by the one before it, that is
followed by `c`, which is none of the characters that may follow it. -/
def HasUnknownEscape (body : List Char) (c : Char) : Prop :=
  ∃ before after, body = before ++ '\\' :: c :: after ∧ IsBody before ∧
    c ∉ ['n', 't', 'r', '0', '"', '\\']

theorem HasUnknownEscape.append {first body : List Char} {c : Char} (h : HasUnknownEscape body c)
    (hfirst : ∀ {rest}, IsBody rest → IsBody (first ++ rest)) :
    HasUnknownEscape (first ++ body) c := by
  obtain ⟨before, after, rfl, hbefore, hc⟩ := h
  exact ⟨first ++ before, after, (List.append_assoc ..).symm, hfirst hbefore, hc⟩

theorem escaped?_eq_some {c d : Char} (h : Quoted.escaped? c = some d) : (c, d) ∈ escapes := by
  unfold Quoted.escaped? at h
  split at h <;> cases h <;> decide

theorem escaped?_eq_none {c : Char} (h : Quoted.escaped? c = none) :
    c ∉ ['n', 't', 'r', '0', '"', '\\'] := by
  unfold Quoted.escaped? at h
  split at h
  any_goals cases h
  simp_all

theorem ne_backslash {c : Char} {rest : List Char} (hend : c = '\\' → rest = [] → False)
    (hescape : ∀ d after, c = '\\' → rest = d :: after → False) : c ≠ '\\' := by
  intro hc
  cases rest with
  | nil => exact hend hc rfl
  | cons d after => exact hescape d after hc rfl

/-- What the grammar takes for the inside of a string literal. -/
theorem isBody_of_string? {text body rest : List Char} (h : string? text = some (body, rest)) :
    IsBody body := by
  fun_induction string? text generalizing body rest with
  | case1 => cases h
  | case2 =>
      cases h
      exact .nil
  | case3 => cases h
  | case4 c rest ih =>
      obtain ⟨⟨body, rest⟩, hfound, heq⟩ := Option.map_eq_some_iff.1 h
      cases heq
      exact .escape (ih hfound)
  | case5 c tail hquote hend hescape ih =>
      obtain ⟨⟨body, rest⟩, hfound, heq⟩ := Option.map_eq_some_iff.1 h
      cases heq
      exact .plain hquote (ne_backslash hend hescape) (ih hfound)

theorem writesString_of_decode {body s : List Char} (h : Quoted.decode body = .ok s) :
    WritesString body s := by
  fun_induction Quoted.decode body generalizing s with
  | case1 =>
      cases h
      exact .nil
  | case2 => cases h
  | case3 => cases h
  | case4 c rest d hescaped ih =>
      obtain ⟨s, hrest, rfl⟩ := Except.map_eq_ok.1 h
      exact .escape (escaped?_eq_some hescaped) (ih hrest)
  | case5 c rest hend hescape ih =>
      obtain ⟨s, hrest, rfl⟩ := Except.map_eq_ok.1 h
      exact .plain (ne_backslash hend hescape) (ih hrest)

/-- Only an unknown escape keeps the body of a string literal from writing a string. -/
theorem exists_unknown_of_decode {body : List Char} {fault : Quoted.EscapeFault}
    (hbody : IsBody body) (h : Quoted.decode body = .error fault) :
    ∃ c, fault = .unknown c ∧ HasUnknownEscape body c := by
  induction hbody with
  | nil => cases h
  | @plain c rest hquote hbackslash hrest ih =>
      have hdecode : Quoted.decode (c :: rest) = (Quoted.decode rest).map (c :: ·) := by
        rw [Quoted.decode] <;> simp [hbackslash]
      obtain ⟨d, rfl, hunknown⟩ := ih (Except.map_eq_error.1 (hdecode.symm.trans h))
      have hmore : HasUnknownEscape ([c] ++ rest) d := hunknown.append (.plain hquote hbackslash)
      exact ⟨d, rfl, hmore⟩
  | @escape c rest hrest ih =>
      rw [Quoted.decode] at h
      -- Either this escape is the unknown one, or one after it is.
      split at h
      · rename_i hescaped
        cases h
        exact ⟨c, rfl, [], rest, rfl, .nil, escaped?_eq_none hescaped⟩
      · obtain ⟨d, rfl, hunknown⟩ := ih (Except.map_eq_error.1 h)
        have hmore : HasUnknownEscape (['\\', c] ++ rest) d := hunknown.append .escape
        exact ⟨d, rfl, hmore⟩

-- The first backslash escapes the second, so that no escape begins there.
example : Quoted.decode ['\\', '\\', 'x'] = .ok ['\\', 'x'] := by rfl

theorem WritesString.of_plain {c : Char} {body s : List Char} (h : WritesString (c :: body) s)
    (hc : c ≠ '\\') : ∃ s', s = c :: s' ∧ WritesString body s' := by
  cases h with
  | plain _ hrest => exact ⟨_, rfl, hrest⟩
  | escape => exact absurd rfl hc

theorem WritesString.of_escape {c : Char} {body s : List Char}
    (h : WritesString ('\\' :: c :: body) s) :
    ∃ d s', (c, d) ∈ escapes ∧ s = d :: s' ∧ WritesString body s' := by
  cases h with
  | plain hbackslash => exact absurd rfl hbackslash
  | escape hescape hrest => exact ⟨_, _, hescape, rfl, hrest⟩

theorem HasUnknownEscape.not_writesString {body s : List Char} {c : Char}
    (h : HasUnknownEscape body c) : ¬WritesString body s := by
  obtain ⟨before, after, rfl, hbefore, hc⟩ := h
  intro hwrites
  induction hbefore generalizing s with
  | nil =>
      obtain ⟨d, -, hescape, -⟩ := hwrites.of_escape
      exact hc (List.mem_map_of_mem (f := Prod.fst) hescape)
  | plain _ hbackslash _ ih =>
      obtain ⟨_, -, hrest⟩ := WritesString.of_plain hwrites hbackslash
      exact ih hrest
  | escape _ ih =>
      obtain ⟨_, _, -, -, hrest⟩ := WritesString.of_escape hwrites
      exact ih hrest

theorem eq_of_mem_escapes : ∀ first ∈ escapes, ∀ second ∈ escapes, first.1 = second.1 →
    first.2 = second.2 := by
  decide

/-- The body of a string literal writes one string at most. -/
theorem WritesString.unique {body s s' : List Char} (h : WritesString body s)
    (h' : WritesString body s') : s = s' := by
  induction h generalizing s' with
  | nil =>
      cases h'
      rfl
  | plain hbackslash _ ih =>
      obtain ⟨_, rfl, hrest⟩ := h'.of_plain hbackslash
      rw [ih hrest]
  | @escape c d _ _ hescape _ ih =>
      obtain ⟨d', _, hescape', rfl, hrest⟩ := h'.of_escape
      obtain rfl : d = d' := eq_of_mem_escapes (c, d) hescape (c, d') hescape' rfl
      rw [ih hrest]

end HygienicLisp
