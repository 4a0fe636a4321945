import HygienicLisp.Proofs.Spans.Reading

/-!
# Where separators and tokens end

Separators are passed over up to the same place whatever comes after them (`Cursor.skip_append`), and
a token is found in the same characters when something else follows it, if a token may end there
(`token?_replace`).  A text that no annotation begins does not begin with one when it is cut short.
-/

namespace HygienicLisp

namespace Grammar

/-! ## Separators -/

/-- The text is passed over as a whole, and what comes next does not belong to a comment. -/
def passes : Bool → List Char → Bool
  | comment, [] => !comment
  | comment, c :: rest =>
    if comment then passes (c != '\n') rest
    else if isBlank c then passes false rest
    else if c == ';' then passes true rest
    else false

theorem skipFrom_append {comment : Bool} {gap text : List Char} (hgap : passes comment gap)
    (htext : Solid text) (pos : Nat) :
    skipFrom comment (gap ++ text) pos = (text, pos + byteLength gap) := by
  induction gap generalizing comment pos with
  | nil =>
      obtain rfl : comment = false := by simpa [passes] using hgap
      cases text with
      | nil => exact htext.elim
      | cons c text => simp [skipFrom, htext.1, htext.2, byteLength]
  | cons c gap ih =>
      rw [passes] at hgap
      rw [List.cons_append, skipFrom, byteLength, ← Nat.add_assoc]
      split
      · rename_i h
        exact ih (by simpa [h] using hgap) _
      · rename_i h
        rw [if_neg h] at hgap
        split
        · rename_i hblank
          exact ih (by simpa [hblank] using hgap) _
        · rename_i hblank
          rw [if_neg hblank] at hgap
          split
          · rename_i hsemi
            exact ih (by simpa [hsemi] using hgap) _
          · rename_i hsemi
            rw [if_neg hsemi] at hgap
            cases hgap

/-- Separators before something else are passed over. -/
theorem Cursor.skip_append {gap text : List Char} (hgap : passes false gap) (htext : Solid text)
    (pos far : Nat) :
    Cursor.skip ⟨gap ++ text, pos, far⟩ = ⟨text, pos + byteLength gap, far⟩ := by
  rw [skip]
  simp only [skipFrom_append hgap htext]

theorem exists_gap {comment : Bool} {text : List Char} {pos : Nat}
    (h : (skipFrom comment text pos).1 ≠ []) :
    ∃ gap, passes comment gap ∧ text = gap ++ (skipFrom comment text pos).1 ∧
      (skipFrom comment text pos).2 = pos + byteLength gap := by
  fun_induction skipFrom comment text pos with
  | case1 => exact absurd rfl h
  | case2 _ _ _ ih =>
      obtain ⟨gap, hgap, htext, hpos⟩ := ih h
      exact ⟨_ :: gap, hgap, congrArg (_ :: ·) htext, by rw [hpos, byteLength, Nat.add_assoc]⟩
  | case3 _ _ _ _ hcomment hblank ih =>
      obtain ⟨gap, hgap, htext, hpos⟩ := ih h
      refine ⟨_ :: gap, ?_, congrArg (_ :: ·) htext, by rw [hpos, byteLength, Nat.add_assoc]⟩
      rwa [passes, if_neg hcomment, if_pos hblank]
  | case4 _ _ _ _ hcomment hblank hsemi ih =>
      obtain ⟨gap, hgap, htext, hpos⟩ := ih h
      refine ⟨_ :: gap, ?_, congrArg (_ :: ·) htext, by rw [hpos, byteLength, Nat.add_assoc]⟩
      rwa [passes, if_neg hcomment, if_neg hblank, if_pos hsemi]
  | case5 _ _ _ _ hcomment => exact ⟨[], by simpa [passes] using hcomment, rfl, rfl⟩

/-- What is passed over before something else are separators. -/
theorem Cursor.exists_gap {c : Cursor} (h : c.skip.rest ≠ []) :
    ∃ gap, passes false gap ∧ c.rest = gap ++ c.skip.rest ∧ c.skip.pos = c.pos + byteLength gap :=
  Grammar.exists_gap h

/-! ## Tokens -/

/-- The body of a string literal ends where it does, whatever follows. -/
theorem string?_replace {text body rest : List Char} (h : string? text = some (body, rest))
    (rest' : List Char) : string? (body ++ '"' :: rest') = some (body, rest') := by
  fun_induction string? text generalizing body rest with
  | case1 => cases h
  | case2 rest =>
      cases h
      rfl
  | case3 => cases h
  | case4 c rest ih =>
      obtain ⟨⟨body, rest⟩, hfound, heq⟩ := Option.map_eq_some_iff.1 h
      cases heq
      rw [List.cons_append, List.cons_append, string?, ih hfound]
      rfl
  | case5 c tail hquote hlast hescape ih =>
      have hbackslash : c ≠ '\\' := fun hc => by
        cases tail with
        | nil => exact hlast hc rfl
        | cons d tail => exact hescape d tail hc rfl
      obtain ⟨⟨body, rest⟩, hfound, heq⟩ := Option.map_eq_some_iff.1 h
      cases heq
      rw [List.cons_append, string?, ih hfound]
      · rfl
      · exact hquote
      · exact fun hc _ => hbackslash hc
      · exact fun _ _ hc _ => hbackslash hc

/-- The characters of a token other than a string are characters of symbols, and a token ends after
them. -/
structure IsWord (taken rest : List Char) : Prop where
  ne_nil : taken ≠ []
  isSymbolChar : ∀ c ∈ taken, isSymbolChar c
  ends : endsToken rest

theorem isWord_of_number? {text taken rest : List Char} {kind : TokenKind}
    (h : number? text = some (kind, taken, rest)) : IsWord taken rest := by
  obtain ⟨-, hends, ⟨-, hint⟩ | ⟨-, hfloat⟩⟩ := number?_eq_some h
  · refine ⟨?_, hint.isSymbolChar, hends⟩
    obtain ⟨-, hdigits⟩ := hint
    exact fun hnil => hdigits.1 (List.append_eq_nil_iff.1 hnil).2
  · refine ⟨?_, hfloat.isSymbolChar, hends⟩
    obtain ⟨-, -, -, -⟩ := hfloat
    simp

theorem endsToken_of_symbol? {text name rest : List Char} (h : symbol? text = some (name, rest)) :
    endsToken rest := by
  cases text with
  | nil => cases h
  | cons c text =>
      rw [symbol?] at h
      split at h
      · cases h
        rw [endsToken.eq_def]
        split
        · rfl
        · rename_i d rest hdrop
          have hne : text.dropWhile HygienicLisp.isSymbolChar ≠ [] := by simp [hdrop]
          have hhead := List.head_dropWhile_not HygienicLisp.isSymbolChar hne
          simpa [hdrop] using hhead
      · cases h

theorem isWord_of_symbol? {text name rest : List Char} (h : symbol? text = some (name, rest)) :
    IsWord name rest := by
  have hname := symbol?_eq_some h
  refine ⟨?_, hname.isSymbolChar, endsToken_of_symbol? h⟩
  rintro rfl
  exact hname

theorem IsWord.solid {taken rest : List Char} (h : IsWord taken rest) : Solid taken := by
  cases taken with
  | nil => exact h.ne_nil rfl
  | cons c taken =>
      have hc := h.isSymbolChar c List.mem_cons_self
      have hne : ∀ d, HygienicLisp.isSymbolChar d = false → c ≠ d := by
        rintro _ hd rfl
        rw [hd] at hc
        cases hc
      refine ⟨?_, hne ';' (by decide)⟩
      simp [isBlank, hne ' ' (by decide), hne '\t' (by decide), hne '\r' (by decide),
        hne '\n' (by decide), hne ',' (by decide)]

theorem IsWord.ne_quote {taken rest : List Char} (h : IsWord taken rest)
    (after after' : List Char) :
    taken ++ after ≠ '"' :: after' := by
  cases taken with
  | nil => exact absurd rfl h.ne_nil
  | cons c taken =>
      intro heq
      cases heq
      exact absurd (h.isSymbolChar '"' List.mem_cons_self) (by decide)

/-- A number is found as before when something else follows it, if a token may end there. -/
theorem number?_replace {text taken rest rest' : List Char} {kind : TokenKind}
    (h : number? text = some (kind, taken, rest)) (hrest' : endsToken rest') :
    number? (taken ++ rest') = some (kind, taken, rest') := by
  obtain ⟨-, -, ⟨rfl, hint⟩ | ⟨rfl, hfloat⟩⟩ := number?_eq_some h
  · exact number?_int hint hrest'
  · exact number?_float hfloat hrest'

/-- The class of a symbol that is no number depends on its text alone. -/
theorem exists_kind {name : List Char} (h : IsSymbol name) (hint : ¬IsInt name)
    (hfloat : ¬IsFloat name) :
    ∃ kind, ∀ rest, endsToken rest → token? (name ++ rest) = some (kind, name, name, rest) := by
  by_cases hnull : name = ['n', 'u', 'l', 'l']
  · refine ⟨.null, fun rest hrest => ?_⟩
    rw [token?_symbol h hint hfloat hrest, if_pos hnull]
  · by_cases hbool : name = ['t', 'r', 'u', 'e'] ∨ name = ['f', 'a', 'l', 's', 'e']
    · refine ⟨.boolean, fun rest hrest => ?_⟩
      rw [token?_symbol h hint hfloat hrest, if_neg hnull, if_pos hbool]
    · refine ⟨.symbol, fun rest hrest => ?_⟩
      rw [token?_symbol h hint hfloat hrest, if_neg hnull, if_neg hbool]

/-- A token is found as before when something else follows it, if a token may end there. -/
theorem token?_replace {text body taken rest rest' : List Char} {kind : TokenKind}
    (h : token? text = some (kind, body, taken, rest)) (hrest : endsToken rest → endsToken rest') :
    token? (taken ++ rest') = some (kind, body, taken, rest') ∧ Solid taken := by
  by_cases hquote : ∃ after, text = '"' :: after
  · obtain ⟨after, rfl⟩ := hquote
    rw [token?, Option.map_eq_some_iff] at h
    obtain ⟨⟨body', rest''⟩, hfound, heq⟩ := h
    cases heq
    refine ⟨?_, by decide, by decide⟩
    rw [List.cons_append, List.cons_append, List.append_assoc, List.singleton_append, token?,
      string?_replace hfound rest']
    rfl
  · have htext := token?_of_ne_quote fun after hafter => hquote ⟨after, hafter⟩
    cases hnumber : number? text with
    | some found =>
        rw [htext, hnumber] at h
        cases h
        have hword := isWord_of_number? hnumber
        refine ⟨?_, hword.solid⟩
        rw [token?_of_ne_quote (hword.ne_quote _), number?_replace hnumber (hrest hword.ends)]
    | none =>
        cases hsymbol : symbol? text with
        | none =>
            rw [htext, hnumber, hsymbol] at h
            cases h
        | some found =>
            obtain ⟨name, after⟩ := found
            have hword := isWord_of_symbol? hsymbol
            obtain rfl := append_of_symbol? hsymbol
            -- What could be read as a number would have been found as one before.
            have hint : ¬IsInt name := fun hint => by
              rw [number?_int hint hword.ends] at hnumber
              cases hnumber
            have hfloat : ¬IsFloat name := fun hfloat => by
              rw [number?_float hfloat hword.ends] at hnumber
              cases hnumber
            obtain ⟨kind', hkind⟩ := exists_kind (symbol?_eq_some hsymbol) hint hfloat
            rw [hkind after hword.ends] at h
            cases h
            exact ⟨hkind rest' (hrest hword.ends), hword.solid⟩

theorem endsToken_of_append {rest outer : List Char} (h : endsToken (rest ++ outer)) :
    endsToken rest := by
  cases rest with
  | nil => rfl
  | cons c rest => exact h

theorem note?_colons {name : List Char} (h : IsSymbol name) (rest : List Char) :
    note? (name ++ ':' :: ':' :: rest) = some (name, rest) := by
  rw [note?, symbol?_append h (by rfl)]
  rfl

theorem isSymbol_of_note? {text name rest : List Char} (h : note? text = some (name, rest)) :
    IsSymbol name := by
  rw [note?] at h
  split at h
  · rename_i hsymbol
    cases h
    exact symbol?_eq_some hsymbol
  · cases h

/-- A text that no annotation begins does not begin with one when it is cut short. -/
theorem note?_of_append {text outer : List Char} (h : note? (text ++ outer) = none) :
    note? text = none := by
  cases hnote : note? text with
  | none => rfl
  | some found =>
      obtain ⟨name, rest⟩ := found
      rw [append_of_note? hnote, List.append_assoc, List.cons_append, List.cons_append,
        note?_colons (isSymbol_of_note? hnote)] at h
      cases h

/-! ## Places -/

theorem solid_skipFrom {comment : Bool} {text : List Char} {pos : Nat}
    (h : (skipFrom comment text pos).1 ≠ []) : Solid (skipFrom comment text pos).1 := by
  fun_induction skipFrom comment text pos with
  | case1 => exact absurd rfl h
  | case2 | case3 | case4 =>
      rename_i ih
      exact ih h
  | case5 _ _ _ _ _ hblank hsemi => exact ⟨by simpa using hblank, by simpa using hsemi⟩

theorem Cursor.solid_skip {c : Cursor} (h : c.skip.rest ≠ []) : Solid c.skip.rest :=
  solid_skipFrom h

theorem Solid.ne_nil {text : List Char} (h : Solid text) : text ≠ [] :=
  List.length_pos_iff.1 h.length_pos

end Grammar

end HygienicLisp
