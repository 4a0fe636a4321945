import HygienicLisp.Source.Reader

/-!
# Tokens of the notation

Which texts are symbols, ints and floats, as the grammar has them, and what the tokenizer finds at the
beginning of a text: a token that is followed by the end of the text or by a character that cannot
continue it is found whole (`token?_symbol`, `token?_int`, `token?_string`).
-/

namespace HygienicLisp

namespace Grammar

/-! ## Literals -/

/-- The text is one symbol. -/
def IsSymbol : List Char → Prop
  | [] => False
  | c :: rest => isSymbolStart c ∧ ∀ d ∈ rest, isSymbolChar d

instance : DecidablePred IsSymbol
  | [] => inferInstanceAs (Decidable False)
  | c :: rest => decidable_of_iff (isSymbolStart c ∧ rest.all isSymbolChar) (by simp [IsSymbol])

/-- The text is a run of digits, at least one. -/
def IsDigits (text : List Char) : Prop := text ≠ [] ∧ ∀ c ∈ text, isDecimalDigit c

/-- The text is an exponent, or empty. -/
inductive IsExponent : List Char → Prop
  | absent : IsExponent []
  | present {e : Char} {sign digits : List Char} (he : e = 'e' ∨ e = 'E')
      (hsign : sign = [] ∨ sign = ['+'] ∨ sign = ['-']) (hdigits : IsDigits digits) :
      IsExponent (e :: sign ++ digits)

/-- The text is an int literal. -/
inductive IsInt : List Char → Prop
  | intro {minus digits : List Char} (hminus : minus = [] ∨ minus = ['-'])
      (hdigits : IsDigits digits) : IsInt (minus ++ digits)

/-- The text is a float literal. -/
inductive IsFloat : List Char → Prop
  | intro {minus whole places exponent : List Char} (hminus : minus = [] ∨ minus = ['-'])
      (hwhole : IsDigits whole) (hplaces : IsDigits places) (hexponent : IsExponent exponent) :
      IsFloat (minus ++ whole ++ '.' :: places ++ exponent)

/-- The text ends, or goes on with a blank, a comma or a closing bracket. -/
def Stops : List Char → Prop
  | [] => True
  | c :: _ => c = ' ' ∨ c = ',' ∨ c = ')' ∨ c = ']' ∨ c = '\x7d'

/-! ## Characters -/

theorem isSymbolChar_of_isSymbolStart {c : Char} (h : isSymbolStart c) : isSymbolChar c := by
  simp [isSymbolChar, h]

theorem isSymbolChar_of_isDecimalDigit {c : Char} (h : isDecimalDigit c) : isSymbolChar c := by
  simp [isSymbolChar, h]

theorem isDecimalDigit_iff {c : Char} : isDecimalDigit c ↔ 48 ≤ c.toNat ∧ c.toNat ≤ 57 := by
  rw [isDecimalDigit, Bool.and_eq_true, decide_eq_true_eq, decide_eq_true_eq, Char.le_def,
    Char.le_def, UInt32.le_iff_toNat_le, UInt32.le_iff_toNat_le]
  rfl

theorem isSymbolStart_of_isDecimalDigit {c : Char} (h : isDecimalDigit c) :
    isSymbolStart c = false := by
  obtain ⟨hlow, hhigh⟩ := isDecimalDigit_iff.1 h
  have hletters : ∀ a b : Char, 57 < a.toNat → ¬(a ≤ c ∧ c ≤ b) := by
    intro a b ha hle
    have := UInt32.le_iff_toNat_le.1 (Char.le_def.1 hle.1)
    change a.toNat ≤ c.toNat at this
    omega
  rw [Bool.eq_false_iff]
  intro hstart
  simp only [isSymbolStart, Bool.or_eq_true, Bool.and_eq_true, decide_eq_true_eq] at hstart
  rcases hstart with (hlower | hupper) | hother
  · exact hletters 'a' 'z' (by decide) hlower
  · exact hletters 'A' 'Z' (by decide) hupper
  · have hmem := List.contains_iff_mem.1 hother
    have hall : "_!?*<>=+-/%&$^~.#|".toList.all fun d => !isDecimalDigit d := by decide
    have hc := List.all_eq_true.1 hall c hmem
    rw [h] at hc
    cases hc

theorem IsSymbol.isSymbolChar {name : List Char} (h : IsSymbol name) :
    ∀ c ∈ name, isSymbolChar c := by
  cases name with
  | nil => simp
  | cons c rest =>
      intro d hd
      rcases List.mem_cons.1 hd with rfl | hd
      · exact isSymbolChar_of_isSymbolStart h.1
      · exact h.2 d hd

theorem IsDigits.isSymbolChar {text : List Char} (h : IsDigits text) :
    ∀ c ∈ text, isSymbolChar c :=
  fun c hc => isSymbolChar_of_isDecimalDigit (h.2 c hc)

theorem isSymbolChar_minus {minus : List Char} (h : minus = [] ∨ minus = ['-']) :
    ∀ c ∈ minus, isSymbolChar c := by
  rcases h with rfl | rfl
  · simp
  · intro c hc
    rw [List.mem_singleton.1 hc]
    decide

theorem IsExponent.isSymbolChar {text : List Char} (h : IsExponent text) :
    ∀ c ∈ text, isSymbolChar c := by
  cases h with
  | absent => simp
  | present he hsign hdigits =>
      intro c hc
      rw [List.cons_append, List.mem_cons, List.mem_append] at hc
      rcases hc with rfl | hc | hc
      · rcases he with rfl | rfl <;> decide
      · rcases hsign with rfl | rfl | rfl
        · simp at hc
        · rw [List.mem_singleton.1 hc]
          decide
        · rw [List.mem_singleton.1 hc]
          decide
      · exact hdigits.isSymbolChar c hc

theorem IsInt.isSymbolChar {text : List Char} (h : IsInt text) : ∀ c ∈ text, isSymbolChar c := by
  obtain ⟨hminus, hdigits⟩ := h
  exact List.forall_mem_append.2 ⟨isSymbolChar_minus hminus, hdigits.isSymbolChar⟩

theorem IsFloat.isSymbolChar {text : List Char} (h : IsFloat text) :
    ∀ c ∈ text, isSymbolChar c := by
  obtain ⟨hminus, hwhole, hplaces, hexponent⟩ := h
  have hpoint : HygienicLisp.isSymbolChar '.' := by decide
  simp only [List.forall_mem_append, List.forall_mem_cons]
  exact ⟨⟨⟨isSymbolChar_minus hminus, hwhole.isSymbolChar⟩, hpoint, hplaces.isSymbolChar⟩,
    hexponent.isSymbolChar⟩

theorem Stops.endsToken {rest : List Char} (h : Stops rest) : endsToken rest := by
  cases rest with
  | nil => rfl
  | cons c rest => rcases h with rfl | rfl | rfl | rfl | rfl <;> rfl

theorem Stops.ne_colon {rest rest' : List Char} (h : Stops rest) : rest ≠ ':' :: rest' := by
  rintro rfl
  revert h
  simp [Stops]

/-! ## Runs of characters -/

theorem takeWhile_isSymbolChar {text rest : List Char} (h : ∀ c ∈ text, isSymbolChar c)
    (hrest : endsToken rest) : (text ++ rest).takeWhile isSymbolChar = text := by
  rw [List.takeWhile_append_of_pos h]
  cases rest with
  | nil => simp
  | cons c rest =>
      have hc : isSymbolChar c = false := by simpa [endsToken] using hrest
      simp [hc]

theorem dropWhile_isSymbolChar {text rest : List Char} (h : ∀ c ∈ text, isSymbolChar c)
    (hrest : endsToken rest) : (text ++ rest).dropWhile isSymbolChar = rest := by
  rw [List.dropWhile_append_of_pos h]
  cases rest with
  | nil => rfl
  | cons c rest =>
      have hc : isSymbolChar c = false := by simpa [endsToken] using hrest
      simp [hc]

/-- Two texts of symbol characters that end where such characters end are the same. -/
theorem eq_of_append_eq {text text' rest rest' : List Char} (h : ∀ c ∈ text, isSymbolChar c)
    (h' : ∀ c ∈ text', isSymbolChar c) (hrest : endsToken rest) (hrest' : endsToken rest')
    (heq : text ++ rest = text' ++ rest') : text = text' := by
  calc text = (text ++ rest).takeWhile isSymbolChar := (takeWhile_isSymbolChar h hrest).symm
    _ = (text' ++ rest').takeWhile isSymbolChar := by rw [heq]
    _ = text' := takeWhile_isSymbolChar h' hrest'

/-! ## Symbols -/

theorem symbol?_append {name rest : List Char} (h : IsSymbol name) (hrest : endsToken rest) :
    symbol? (name ++ rest) = some (name, rest) := by
  cases name with
  | nil => exact h.elim
  | cons c name =>
      rw [List.cons_append, symbol?, if_pos h.1, takeWhile_isSymbolChar h.2 hrest,
        dropWhile_isSymbolChar h.2 hrest]

/-- A symbol that no colon follows is no annotation. -/
theorem note?_symbol {name rest : List Char} (h : IsSymbol name) (hrest : Stops rest) :
    note? (name ++ rest) = none := by
  rw [note?, symbol?_append h hrest.endsToken]
  split
  · rename_i heq
    cases heq
    exact absurd rfl hrest.ne_colon
  · rfl

theorem note?_of_not_isSymbolStart {c : Char} (rest : List Char) (h : isSymbolStart c = false) :
    note? (c :: rest) = none := by
  rw [note?, symbol?, h]
  rfl

/-! ## Numbers -/

theorem digits?_append {digits rest : List Char} (h : IsDigits digits)
    (hrest : ∀ c ∈ rest.head?, isDecimalDigit c = false) :
    digits? (digits ++ rest) = some (digits, rest) := by
  have htake : (digits ++ rest).takeWhile isDecimalDigit = digits := by
    rw [List.takeWhile_append_of_pos h.2]
    cases rest with
    | nil => simp
    | cons c rest => simp [hrest c rfl]
  have hdrop : (digits ++ rest).dropWhile isDecimalDigit = rest := by
    rw [List.dropWhile_append_of_pos h.2]
    cases rest with
    | nil => rfl
    | cons c rest => simp [hrest c rfl]
  rw [digits?, htake, hdrop]
  cases digits with
  | nil => exact absurd rfl h.1
  | cons d digits => rfl

theorem digits?_eq_some {text digits rest : List Char} (h : digits? text = some (digits, rest)) :
    IsDigits digits ∧ text = digits ++ rest := by
  rw [digits?] at h
  split at h
  · cases h
  · rename_i hne
    cases h
    refine ⟨⟨fun hnil => hne hnil, fun c hc => ?_⟩, List.takeWhile_append_dropWhile.symm⟩
    exact List.all_eq_true.1 List.all_takeWhile c hc

theorem sign_eq (signs text : List Char) :
    text = (sign signs text).1 ++ (sign signs text).2 ∧
      ((sign signs text).1 = [] ∨ ∃ c ∈ signs, (sign signs text).1 = [c]) := by
  cases text with
  | nil => simp [sign]
  | cons c rest =>
      by_cases hc : signs.contains c
      · rw [sign, if_pos hc]
        exact ⟨rfl, .inr ⟨c, List.contains_iff_mem.1 hc, rfl⟩⟩
      · rw [sign, if_neg hc]
        exact ⟨rfl, .inl rfl⟩

theorem sign_minus {text minus rest : List Char} (h : sign ['-'] text = (minus, rest)) :
    text = minus ++ rest ∧ (minus = [] ∨ minus = ['-']) := by
  have hsign := sign_eq ['-'] text
  rw [h] at hsign
  simpa using hsign

theorem exponent_eq {text found rest : List Char} (h : exponent text = (found, rest)) :
    text = found ++ rest ∧ IsExponent found := by
  unfold exponent at h
  split at h
  · cases h
    exact ⟨rfl, .absent⟩
  · rename_i c rest
    split at h
    · rename_i hc
      have he : c = 'e' ∨ c = 'E' := by simpa using hc
      obtain ⟨htext, hsign⟩ := sign_eq ['+', '-'] rest
      split at h
      rename_i s afterSign heq
      rw [heq] at htext hsign
      split at h
      · rename_i digits rest' hdigits
        cases h
        obtain ⟨hdigits, hrest⟩ := digits?_eq_some hdigits
        refine ⟨?_, .present he (by simpa using hsign) hdigits⟩
        rw [htext, hrest, List.cons_append, List.cons_append, List.append_assoc]
      · cases h
        exact ⟨rfl, .absent⟩
    · cases h
      exact ⟨rfl, .absent⟩

/-- What is taken for a number is an int or a float literal that ends where symbols end. -/
theorem number?_eq_some {text taken rest : List Char} {kind : TokenKind}
    (h : number? text = some (kind, taken, rest)) :
    text = taken ++ rest ∧ endsToken rest ∧
      (kind = .int ∧ IsInt taken ∨ kind = .float ∧ IsFloat taken) := by
  unfold number? at h
  cases hsign : sign ['-'] text with
  | mk minus afterSign =>
      obtain ⟨rfl, hminus⟩ := sign_minus hsign
      rw [hsign] at h
      dsimp only at h
      split at h
      · cases h
      · rename_i whole afterWhole hdigits
        obtain ⟨hwhole, rfl⟩ := digits?_eq_some hdigits
        split at h
        · rename_i afterPoint _
          split at h
          · cases h
          · rename_i places afterPlaces hdigits'
            obtain ⟨hplaces, rfl⟩ := digits?_eq_some hdigits'
            cases hexponent : exponent afterPlaces with
            | mk e last =>
                obtain ⟨rfl, he⟩ := exponent_eq hexponent
                rw [hexponent] at h
                dsimp only at h
                split at h
                · rename_i hends
                  cases h
                  refine ⟨?_, hends, .inr ⟨rfl, .intro hminus hwhole hplaces he⟩⟩
                  simp only [List.append_assoc, List.cons_append]
                · cases h
        · split at h
          · rename_i hends
            cases h
            exact ⟨(List.append_assoc _ _ _).symm, hends, .inl ⟨rfl, .intro hminus hwhole⟩⟩
          · cases h

/-- A symbol that is no number is not taken for one. -/
theorem number?_symbol {name rest : List Char} (h : IsSymbol name) (hint : ¬IsInt name)
    (hfloat : ¬IsFloat name) (hrest : endsToken rest) : number? (name ++ rest) = none := by
  cases hnumber : number? (name ++ rest) with
  | none => rfl
  | some found =>
      obtain ⟨kind, taken, rest'⟩ := found
      obtain ⟨heq, hends, hkind⟩ := number?_eq_some hnumber
      have htaken : ∀ c ∈ taken, isSymbolChar c := by
        rcases hkind with ⟨-, htaken⟩ | ⟨-, htaken⟩
        · exact htaken.isSymbolChar
        · exact htaken.isSymbolChar
      obtain rfl := eq_of_append_eq h.isSymbolChar htaken hrest hends heq
      rcases hkind with ⟨-, htaken⟩ | ⟨-, htaken⟩
      · exact absurd htaken hint
      · exact absurd htaken hfloat

theorem head?_not_digit {rest : List Char} (h : endsToken rest) :
    ∀ c ∈ rest.head?, isDecimalDigit c = false := by
  cases rest with
  | nil => simp
  | cons c rest =>
      have hc : isSymbolChar c = false := by simpa [endsToken] using h
      rw [isSymbolChar, Bool.or_eq_false_iff] at hc
      simpa using hc.2

/-- A sign before digits is found, and digits are not taken for one. -/
theorem sign_append {signs found digits rest : List Char}
    (hsigns : ∀ c ∈ signs, isDecimalDigit c = false) (hfound : found = [] ∨ ∃ c ∈ signs, found = [c])
    (hdigits : IsDigits digits) : sign signs (found ++ (digits ++ rest)) = (found, digits ++ rest) := by
  rcases hfound with rfl | ⟨c, hc, rfl⟩
  · cases digits with
    | nil => exact absurd rfl hdigits.1
    | cons d digits =>
        have hd : d ∉ signs := by
          intro hmem
          have hdigit := hdigits.2 d List.mem_cons_self
          rw [hsigns d hmem] at hdigit
          cases hdigit
        rw [List.nil_append, List.cons_append, sign, if_neg (by simpa using hd)]
  · rw [List.singleton_append, sign, if_pos (List.contains_iff_mem.2 hc)]

theorem sign_minus_append {minus digits rest : List Char} (hminus : minus = [] ∨ minus = ['-'])
    (hdigits : IsDigits digits) :
    sign ['-'] (minus ++ (digits ++ rest)) = (minus, digits ++ rest) :=
  sign_append (List.forall_mem_singleton.2 rfl) (by simpa using hminus) hdigits

/-- An exponent is found whole. -/
theorem exponent_append {text rest : List Char} (h : IsExponent text) (hrest : endsToken rest) :
    exponent (text ++ rest) = (text, rest) := by
  cases h with
  | absent =>
      cases rest with
      | nil => rfl
      | cons c rest =>
          have hc : isSymbolChar c = false := by simpa [endsToken] using hrest
          have hlower : c ≠ 'e' := by
            rintro rfl
            cases hc
          have hupper : c ≠ 'E' := by
            rintro rfl
            cases hc
          simp [exponent, hlower, hupper]
  | @present e sign' digits he hsign hdigits =>
      have hfound : sign ['+', '-'] (sign' ++ (digits ++ rest)) = (sign', digits ++ rest) :=
        sign_append (List.forall_mem_cons.2 ⟨rfl, List.forall_mem_singleton.2 rfl⟩)
          (by simpa using hsign) hdigits
      have hexponent : (e == 'e' || e == 'E') = true := by simpa using he
      rw [List.cons_append, List.cons_append, List.append_assoc, exponent, if_pos hexponent, hfound]
      dsimp only
      rw [digits?_append hdigits (head?_not_digit hrest)]
      rfl

/-- An int literal is found whole. -/
theorem number?_int {text rest : List Char} (h : IsInt text) (hrest : endsToken rest) :
    number? (text ++ rest) = some (.int, text, rest) := by
  obtain ⟨hminus, hdigits⟩ := h
  rename_i minus digits
  have hpoint : ∀ rest', rest ≠ '.' :: rest' := by
    rintro rest' rfl
    cases hrest
  rw [number?, List.append_assoc, sign_minus_append hminus hdigits]
  dsimp only
  rw [digits?_append hdigits (head?_not_digit hrest)]
  dsimp only
  split
  · exact absurd rfl (hpoint _)
  · rw [if_pos hrest]

/-- A float literal is found whole. -/
theorem number?_float {text rest : List Char} (h : IsFloat text) (hrest : endsToken rest) :
    number? (text ++ rest) = some (.float, text, rest) := by
  obtain ⟨hminus, hwhole, hplaces, hexponent⟩ := h
  rename_i minus whole places e
  have hends : ∀ c ∈ (e ++ rest).head?, isDecimalDigit c = false := by
    cases hexponent with
    | absent => exact head?_not_digit hrest
    | present he _ _ =>
        rintro _ ⟨⟩
        rcases he with rfl | rfl <;> decide
  rw [number?, List.append_assoc, List.append_assoc, List.append_assoc,
    sign_minus_append hminus hwhole]
  dsimp only
  rw [List.cons_append, digits?_append hwhole (by rintro _ ⟨⟩; decide)]
  simp only
  rw [digits?_append hplaces hends]
  dsimp only
  rw [exponent_append hexponent hrest]
  dsimp only
  rw [if_pos hrest]

/-! ## Strings -/

/-- The body of a literal ends at the first quote that no backslash escapes. -/
theorem string?_encode (s rest : List Char) :
    string? (Quoted.encode s ++ '"' :: rest) = some (Quoted.encode s, rest) := by
  induction s with
  | nil => rfl
  | cons c s ih =>
      unfold Quoted.encode
      split
      · simp only [List.cons_append, string?, ih, Option.map_some]
      · simp only [List.cons_append, string?, ih, Option.map_some]
      · simp only [List.cons_append, string?, ih, Option.map_some]
      · simp only [List.cons_append, string?, ih, Option.map_some]
      · rename_i hquote hbackslash _ _
        rw [List.cons_append, string?, ih, Option.map_some]
        · exact hquote
        · exact fun h _ => hbackslash h
        · exact fun _ _ h _ => hbackslash h

/-! ## Tokens -/

theorem token?_of_ne_quote {text : List Char} (h : ∀ rest, text ≠ '"' :: rest) :
    token? text = match number? text with
      | some (kind, taken, rest) => some (kind, taken, taken, rest)
      | none =>
        match symbol? text with
        | none => none
        | some (name, rest) =>
          if name = ['n', 'u', 'l', 'l'] then some (.null, name, name, rest)
          else if name = ['t', 'r', 'u', 'e'] ∨ name = ['f', 'a', 'l', 's', 'e'] then
            some (.boolean, name, name, rest)
          else some (.symbol, name, name, rest) := by
  unfold token?
  split
  · exact absurd rfl (h _)
  · rfl

theorem IsSymbol.ne_quote {name rest : List Char} (h : IsSymbol name) (rest' : List Char) :
    name ++ rest ≠ '"' :: rest' := by
  cases name with
  | nil => exact h.elim
  | cons c name =>
      intro heq
      cases heq
      exact absurd h.1 (by decide)

/-- What a symbol that is no number is taken for. -/
theorem token?_symbol {name rest : List Char} (h : IsSymbol name) (hint : ¬IsInt name)
    (hfloat : ¬IsFloat name) (hrest : endsToken rest) :
    token? (name ++ rest) =
      if name = ['n', 'u', 'l', 'l'] then some (.null, name, name, rest)
      else if name = ['t', 'r', 'u', 'e'] ∨ name = ['f', 'a', 'l', 's', 'e'] then
        some (.boolean, name, name, rest)
      else some (.symbol, name, name, rest) := by
  rw [token?_of_ne_quote h.ne_quote, number?_symbol h hint hfloat hrest, symbol?_append h hrest]

theorem token?_int {text rest : List Char} (h : IsInt text) (hrest : endsToken rest) :
    token? (text ++ rest) = some (.int, text, text, rest) := by
  rw [token?_of_ne_quote, number?_int h hrest]
  intro rest' heq
  obtain ⟨hminus, hne, hdigits⟩ := h
  rename_i minus digits
  rcases hminus with rfl | rfl
  · cases digits with
    | nil => exact absurd rfl hne
    | cons d digits =>
        cases heq
        exact absurd (hdigits '"' List.mem_cons_self) (by decide)
  · cases heq

theorem token?_string (s rest : List Char) :
    token? ('"' :: Quoted.encode s ++ '"' :: rest) =
      some (.string, Quoted.encode s, '"' :: Quoted.encode s ++ ['"'], rest) := by
  rw [List.cons_append, token?, string?_encode]
  rfl

/-! ## Names -/

/-- The text is a symbol and no other token. -/
structure IsName (text : List Char) : Prop where
  symbol : IsSymbol text
  ne_null : text ≠ ['n', 'u', 'l', 'l']
  ne_true : text ≠ ['t', 'r', 'u', 'e']
  ne_false : text ≠ ['f', 'a', 'l', 's', 'e']
  not_int : ¬IsInt text
  not_float : ¬IsFloat text

/-- A name is found as a symbol. -/
theorem IsName.token? {name rest : List Char} (h : IsName name) (hrest : endsToken rest) :
    token? (name ++ rest) = some (.symbol, name, name, rest) := by
  have hbool : ¬(name = ['t', 'r', 'u', 'e'] ∨ name = ['f', 'a', 'l', 's', 'e']) := by
    rintro (htrue | hfalse)
    · exact h.ne_true htrue
    · exact h.ne_false hfalse
  rw [token?_symbol h.symbol h.not_int h.not_float hrest, if_neg h.ne_null, if_neg hbool]

theorem symbol?_eq_some {text name rest : List Char} (h : symbol? text = some (name, rest)) :
    IsSymbol name := by
  cases text with
  | nil => cases h
  | cons c text =>
      rw [symbol?] at h
      split at h
      · cases h
        exact ⟨‹_›, fun d hd => List.all_eq_true.1 List.all_takeWhile d hd⟩
      · cases h

/-- The names are the texts that are found as symbols. -/
theorem isName_iff {text : List Char} :
    IsName text ↔ Grammar.token? text = some (.symbol, text, text, []) := by
  constructor
  · intro h
    have hfound : Grammar.token? (text ++ []) = _ := h.token? rfl
    rwa [List.append_nil] at hfound
  · intro h
    have hquote : ∀ rest, text ≠ '"' :: rest := by
      rintro rest rfl
      rw [Grammar.token?, Option.map_eq_some_iff] at h
      obtain ⟨found, -, hfound⟩ := h
      cases hfound
    rw [token?_of_ne_quote hquote] at h
    split at h
    · -- What is taken for a number is no symbol token.
      obtain ⟨-, -, ⟨hkind, -⟩ | ⟨hkind, -⟩⟩ := number?_eq_some ‹_› <;>
        (cases h; cases hkind)
    · rename_i hnumber
      have hint : ¬IsInt text := fun hint => by
        have hfound : number? (text ++ []) = _ := number?_int hint rfl
        rw [List.append_nil, hnumber] at hfound
        cases hfound
      have hfloat : ¬IsFloat text := fun hfloat => by
        have hfound : number? (text ++ []) = _ := number?_float hfloat rfl
        rw [List.append_nil, hnumber] at hfound
        cases hfound
      split at h
      · cases h
      · rename_i hsymbol
        split at h
        · cases h
        · split at h
          · cases h
          · rename_i hnull hbool
            cases h
            exact ⟨symbol?_eq_some hsymbol, hnull, fun htrue => hbool (.inl htrue),
              fun hfalse => hbool (.inr hfalse), hint, hfloat⟩

instance : DecidablePred IsName := fun _ => decidable_of_iff _ isName_iff.symm

end Grammar

end HygienicLisp
