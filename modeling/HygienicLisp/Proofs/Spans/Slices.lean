import HygienicLisp.Proofs.Spans.Boundaries
import HygienicLisp.Proofs.Spans.Shifts

/-!
# Slices of a text

What the grammar finds in a text depends on the characters that it passes over and on what follows
them.  A form that has been found is spelled by the characters passed over (`SpelledBy`): it is
found again wherever they stand, with its ranges moved, also when what follows is cut short
(`spelledBelow`).  So it is read when these characters stand by themselves (`program_of_spelledBy`).
-/

namespace HygienicLisp

open Grammar

/-! ## What has been found is found again -/

section

variable {α : Type} {look : Nat → Cursor → Except Nat (α × Cursor)} {shift : Nat → α → α}
  {series : Nat → Cursor → List α × Cursor}

/-- What has been found at a place is spelled by the characters passed over.  Wherever they stand,
before what is left or before a beginning of it, it is found again with its ranges moved, in three
steps for each character. -/
structure SpelledBy (look : Nat → Cursor → Except Nat (α × Cursor)) (shift : Nat → α → α)
    (taken : List Char) (c : Cursor) (a : α) (next : Cursor) : Prop where
  rest_eq : c.rest = taken ++ next.rest
  pos_eq : next.pos = c.pos + byteLength taken
  again : ∃ a₀, a = shift c.pos a₀ ∧ ∀ r outer, next.rest = r ++ outer → ∀ fuel pos far,
    3 * taken.length ≤ fuel → ∃ far', look fuel ⟨taken ++ r, pos, far⟩ =
      .ok (shift pos a₀, ⟨r, pos + byteLength taken, far'⟩)

/-- What has been found with separators before it. -/
theorem SpelledBy.skip {taken : List Char} {c next : Cursor} {a : α}
    (h : SpelledBy look shift taken c.skip a next) (hsolid : Solid taken)
    (hshift : ∀ m n a, shift n (shift m a) = shift (m + n) a) :
    ∃ gap, SpelledBy (fun fuel c => look fuel c.skip) shift (gap ++ taken) c a next := by
  have hne : c.skip.rest ≠ [] := by
    rw [h.rest_eq]
    exact (hsolid.append _).ne_nil
  obtain ⟨gap, hgap, hrest, hpos⟩ := Cursor.exists_gap hne
  obtain ⟨a₀, ha, hagain⟩ := h.again
  refine ⟨gap, ?_, ?_, shift (byteLength gap) a₀, ?_, ?_⟩
  · rw [hrest, h.rest_eq, List.append_assoc]
  · rw [h.pos_eq, hpos, byteLength_append, Nat.add_assoc]
  · rw [ha, hpos, hshift, Nat.add_comm]
  · intro r outer hr fuel pos far hfuel
    rw [List.length_append] at hfuel
    obtain ⟨far', hfound⟩ := hagain r outer hr fuel (pos + byteLength gap) far (by omega)
    refine ⟨far', ?_⟩
    rw [List.append_assoc, Cursor.skip_append hgap (hsolid.append r), hfound, hshift,
      byteLength_append, Nat.add_assoc, Nat.add_comm pos]

/-- A series of parts that have been found is spelled by the characters passed over.  It is found
again where they stand before what is left or before a beginning of it, if there is no further
part. -/
structure SeriesSpelledBy (look : Nat → Cursor → Except Nat (α × Cursor))
    (series : Nat → Cursor → List α × Cursor) (shift : Nat → α → α) (taken : List Char)
    (c : Cursor) (items : List α) (last : Cursor) : Prop where
  rest_eq : c.rest = taken ++ last.rest
  pos_eq : last.pos = c.pos + byteLength taken
  again : ∃ items₀ : List α, items = items₀.map (shift c.pos) ∧ ∀ r outer, last.rest = r ++ outer →
    (∀ fuel pos far, ∃ far', look fuel (Cursor.skip ⟨r, pos, far⟩) = .error far') →
    ∀ fuel pos far, 3 * taken.length < fuel → ∃ far', series fuel ⟨taken ++ r, pos, far⟩ =
      (items₀.map (shift pos), ⟨r, pos + byteLength taken, far'⟩)

theorem SeriesSpelledBy.nil (hseries : IsSeries look series) (c : Cursor) (far : Nat) :
    SeriesSpelledBy look series shift [] c [] { c with far } := by
  refine ⟨rfl, rfl, [], rfl, fun r outer hr hend fuel pos far hfuel => ?_⟩
  obtain _ | fuel := fuel
  · cases hfuel
  · obtain ⟨far', hfar⟩ := hend fuel pos far
    refine ⟨far', ?_⟩
    rw [hseries.succ, List.nil_append, hfar]
    rfl

theorem SeriesSpelledBy.cons (hseries : IsSeries look series) {taken used : List Char}
    {c next last : Cursor} {a : α} {items : List α}
    (h : SpelledBy (fun fuel c => look fuel c.skip) shift taken c a next)
    (hne : taken ≠ []) (hrest : SeriesSpelledBy look series shift used next items last)
    (hshift : ∀ m n a, shift n (shift m a) = shift (m + n) a) :
    SeriesSpelledBy look series shift (taken ++ used) c (a :: items) last := by
  obtain ⟨a₀, ha, hagain⟩ := h.again
  obtain ⟨items₀, hitems, hagainRest⟩ := hrest.again
  have hshifts : ∀ pos, (items₀.map (shift (byteLength taken))).map (shift pos) =
      items₀.map (shift (pos + byteLength taken)) := fun pos => by
    rw [List.map_map]
    exact List.map_congr_left fun a _ => by rw [Function.comp, hshift, Nat.add_comm]
  refine ⟨?_, ?_, a₀ :: items₀.map (shift (byteLength taken)), ?_, ?_⟩
  · rw [h.rest_eq, hrest.rest_eq, List.append_assoc]
  · rw [hrest.pos_eq, h.pos_eq, byteLength_append, Nat.add_assoc]
  · rw [List.map_cons, hshifts, ← h.pos_eq, ← hitems, ← ha]
  · intro r outer hr hend fuel pos far hfuel
    have hlength := List.length_pos_iff.2 hne
    rw [List.length_append] at hfuel
    obtain _ | fuel := fuel
    · cases hfuel
    obtain ⟨far₁, hfirst⟩ := hagain (used ++ r) outer
      (by rw [hrest.rest_eq, hr, List.append_assoc]) fuel pos far (by omega)
    obtain ⟨far₂, hothers⟩ := hagainRest r outer hr hend fuel (pos + byteLength taken) far₁
      (by omega)
    refine ⟨far₂, ?_⟩
    rw [hseries.succ, List.append_assoc, hfirst]
    dsimp only
    rw [hothers, List.map_cons, hshifts, byteLength_append, Nat.add_assoc]

/-- A series of parts, by induction on the number of parts that may be looked for. -/
theorem IsSeries.spelledBy (hseries : IsSeries look series) {fuel : Nat}
    (hlook : ∀ fuel' < fuel, ∀ {c a next}, look fuel' c = .ok (a, next) →
      ∃ taken, Solid taken ∧ SpelledBy look shift taken c a next)
    (hshift : ∀ m n a, shift n (shift m a) = shift (m + n) a) (c : Cursor) :
    ∃ taken, SeriesSpelledBy look series shift taken c (series fuel c).1 (series fuel c).2 := by
  induction fuel generalizing c with
  | zero =>
      rw [hseries.zero]
      exact ⟨[], .nil hseries c c.far⟩
  | succ fuel ih =>
      rw [hseries.succ]
      cases hlooked : look fuel c.skip with
      | error far => exact ⟨[], .nil hseries c far⟩
      | ok found =>
          obtain ⟨a, next⟩ := found
          obtain ⟨taken, hsolid, hfirst⟩ := hlook fuel (Nat.lt_succ_self fuel) hlooked
          obtain ⟨gap, hfirst⟩ := hfirst.skip hsolid hshift
          obtain ⟨used, hothers⟩ := ih (fun f hf => hlook f (Nat.lt_succ_of_lt hf)) next
          refine ⟨gap ++ taken ++ used, .cons hseries hfirst ?_ hothers hshift⟩
          exact List.append_ne_nil_of_right_ne_nil _ hsolid.ne_nil

/-- What has been found after given characters. -/
theorem SpelledBy.after {opening used rest : List Char} {c next : Cursor} {a : α}
    (h : SpelledBy look shift used (c.advance opening rest) a next)
    (hrest : c.rest = opening ++ rest) (hshift : ∀ m n a, shift n (shift m a) = shift (m + n) a) :
    c.rest = opening ++ used ++ next.rest ∧ next.pos = c.pos + byteLength (opening ++ used) ∧
      ∃ a₀, a = shift c.pos a₀ ∧ ∀ r outer, next.rest = r ++ outer → ∀ fuel pos far,
        3 * used.length ≤ fuel → ∃ far', look fuel ⟨used ++ r, pos + byteLength opening, far⟩ =
          .ok (shift pos a₀, ⟨r, pos + byteLength (opening ++ used), far'⟩) := by
  obtain ⟨a₀, ha, hagain⟩ := h.again
  have hused : rest = used ++ next.rest := h.rest_eq
  refine ⟨?_, ?_, shift (byteLength opening) a₀, ?_, ?_⟩
  · rw [hrest, hused, List.append_assoc]
  · rw [h.pos_eq, byteLength_append, ← Nat.add_assoc]
    rfl
  · rw [ha, hshift, Nat.add_comm]
    rfl
  · intro r outer hr fuel pos far hfuel
    obtain ⟨far', hfound⟩ := hagain r outer hr fuel (pos + byteLength opening) far hfuel
    refine ⟨far', ?_⟩
    rw [hfound, hshift, Nat.add_comm pos, byteLength_append, Nat.add_comm pos, Nat.add_right_comm]

/-- A series of parts between brackets. -/
theorem SeriesSpelledBy.between {opening closing : Char} {used rest after : List Char}
    {c last : Cursor} {items : List α}
    (h : SeriesSpelledBy look series shift used (c.advance [opening] rest) items last)
    (hrest : c.rest = opening :: rest) (hclosing : last.skip.rest = closing :: after)
    (hend : ∀ rest, EndsSeries look (closing :: rest))
    (hshift : ∀ m n a, shift n (shift m a) = shift (m + n) a) :
    ∃ inside, c.rest = opening :: (inside ++ after) ∧
      (last.skip.advance [closing] after).pos = c.pos + byteLength (opening :: inside) ∧
      ∃ items₀ : List α, items = items₀.map (shift c.pos) ∧ ∀ r outer, after = r ++ outer →
        ∀ fuel pos far, 3 * inside.length ≤ fuel + 2 → ∃ last',
          series fuel ⟨inside ++ r, pos + byteLength [opening], far⟩ =
            (items₀.map (shift pos), last') ∧ last'.skip.rest = closing :: r ∧
          (last'.skip.advance [closing] r).pos = pos + byteLength (opening :: inside) := by
  have hne : last.skip.rest ≠ [] := by
    rw [hclosing]
    exact List.cons_ne_nil _ _
  have hsolid : ∀ r, Solid (closing :: r) := fun r => by
    have hfound := Cursor.solid_skip hne
    rw [hclosing] at hfound
    exact hfound
  -- Between the last part and the closing bracket there may be a gap, which is skipped.
  obtain ⟨gap, hgap, hlast, hpos⟩ := Cursor.exists_gap hne
  obtain ⟨items₀, hitems, hagain⟩ := h.again
  have hused : rest = used ++ last.rest := h.rest_eq
  have hshifts : ∀ pos, (items₀.map (shift (byteLength [opening]))).map (shift pos) =
      items₀.map (shift (pos + byteLength [opening])) := fun pos => by
    rw [List.map_map]
    exact List.map_congr_left fun a _ => by rw [Function.comp, hshift, Nat.add_comm]
  rw [hclosing] at hlast
  have hlength : ∀ pos, pos + byteLength [opening] + byteLength used + byteLength gap +
      byteLength [closing] = pos + byteLength (opening :: (used ++ (gap ++ [closing]))) := by
    intro pos
    have happend : opening :: (used ++ (gap ++ [closing])) =
        [opening] ++ (used ++ (gap ++ [closing])) := rfl
    rw [happend, byteLength_append, byteLength_append, byteLength_append]
    omega
  refine ⟨used ++ (gap ++ [closing]), ?_, ?_, items₀.map (shift (byteLength [opening])), ?_, ?_⟩
  · rw [hrest, hused, hlast]
    simp
  · rw [← hlength, Cursor.advance, hpos, h.pos_eq]
    rfl
  · rw [hshifts, hitems]
    rfl
  · intro r outer hr fuel pos far hfuel
    simp only [List.length_append, List.length_singleton] at hfuel
    have hskip := fun pos far => Cursor.skip_append hgap (hsolid r) pos far
    have hstop : ∀ fuel pos far, ∃ far',
        look fuel (Cursor.skip ⟨gap ++ closing :: r, pos, far⟩) = .error far' := by
      intro fuel pos far
      rw [hskip]
      exact (hend r).not_found fuel _ far
    obtain ⟨far', hfound⟩ := hagain (gap ++ closing :: r) outer (by rw [hlast, hr]; simp) hstop fuel
      (pos + byteLength [opening]) far (by omega)
    refine ⟨⟨gap ++ closing :: r, pos + byteLength [opening] + byteLength used, far'⟩, ?_, ?_, ?_⟩
    · rw [hshifts, ← hfound]
      simp
    · rw [hskip]
    · rw [hskip, ← hlength]
      rfl

end

/-! ## Tokens at their places -/

theorem spelled_tokenAt? {c next : Cursor} {t : Token} (h : tokenAt? c = some (t, next)) :
    ∃ taken, Solid taken ∧ c.rest = taken ++ next.rest ∧ next = c.advance taken next.rest ∧
      ∃ t₀ : Token, t = t₀.shift c.pos ∧ ∀ r, (endsToken next.rest → endsToken r) → ∀ pos far,
        tokenAt? ⟨taken ++ r, pos, far⟩ =
          some (t₀.shift pos, ⟨r, pos + byteLength taken, far⟩) := by
  obtain ⟨⟨kind, body, taken, rest⟩, hfound, heq⟩ := Option.map_eq_some_iff.1 h
  cases heq
  have hsolid := (token?_replace hfound id).2
  refine ⟨taken, hsolid, append_of_token? hfound, rfl, ⟨kind, body, ⟨0, byteLength taken⟩⟩, ?_, ?_⟩
  · rw [Token.shift, Span.shift_mk, Nat.zero_add, Nat.add_comm]
    rfl
  · intro r hr pos far
    rw [tokenAt?, (token?_replace hfound hr).1, Token.shift, Span.shift_mk, Nat.zero_add,
      Nat.add_comm (byteLength taken)]
    rfl

theorem spelled_keyAt? {c next : Cursor} {t : Token} (h : keyAt? c = some (t, next)) :
    ∃ taken, Solid taken ∧ c.rest = taken ++ next.rest ∧ next = c.advance taken next.rest ∧
      ∃ t₀ : Token, t = t₀.shift c.pos ∧ ∀ r, (endsToken next.rest → endsToken r) → ∀ pos far,
        keyAt? ⟨taken ++ r, pos, far⟩ = some (t₀.shift pos, ⟨r, pos + byteLength taken, far⟩) := by
  rw [keyAt?] at h
  split at h
  · rename_i hquote
    obtain ⟨taken, hsolid, hrest, hnext, t₀, ht, hagain⟩ := spelled_tokenAt? h
    refine ⟨taken, hsolid, hrest, hnext, t₀, ht, fun r hr pos far => ?_⟩
    rw [← hagain r hr pos far, keyAt?]
    cases taken with
    | nil => exact hsolid.elim
    | cons c taken =>
        rw [hquote] at hrest
        cases hrest
        rfl
  · obtain ⟨⟨name, rest⟩, hfound, heq⟩ := Option.map_eq_some_iff.1 h
    cases heq
    have hword := isWord_of_symbol? hfound
    refine ⟨name, hword.solid, append_of_symbol? hfound, rfl, ⟨.symbol, name, ⟨0, byteLength name⟩⟩,
      ?_, fun r hr pos far => ?_⟩
    · rw [Token.shift, Span.shift_mk, Nat.zero_add, Nat.add_comm]
      rfl
    · rw [keyAt?_symbol (symbol?_eq_some hfound) (hr hword.ends), Token.shift, Span.shift_mk,
        Nat.zero_add, Nat.add_comm (byteLength name)]

/-- A key and the colon after it. -/
theorem spelled_key {c next : Cursor} {key : Token} {rest : List Char}
    (hkey : keyAt? c = some (key, next)) (hcolon : next.skip.rest = ':' :: rest) :
    ∃ opening, Solid opening ∧ c.rest = opening ++ rest ∧
      next.skip.advance [':'] rest = c.advance opening rest ∧
      ∃ key₀ : Token, key = key₀.shift c.pos ∧ ∀ r pos far, ∃ next',
        keyAt? ⟨opening ++ r, pos, far⟩ = some (key₀.shift pos, next') ∧
          next'.skip.rest = ':' :: r ∧
          next'.skip.advance [':'] r = ⟨r, pos + byteLength opening, far⟩ := by
  obtain ⟨taken, hsolid, hrest, hnext, key₀, hkey₀, hagain⟩ := spelled_keyAt? hkey
  have hne : next.skip.rest ≠ [] := by
    rw [hcolon]
    exact List.cons_ne_nil _ _
  obtain ⟨gap, hgap, hgapRest, hgapPos⟩ := Cursor.exists_gap hne
  rw [hcolon] at hgapRest
  have hlength : ∀ pos, pos + byteLength taken + byteLength gap + byteLength [':'] =
      pos + byteLength (taken ++ (gap ++ [':'])) := fun pos => by
    rw [byteLength_append, byteLength_append]
    omega
  refine ⟨taken ++ (gap ++ [':']), hsolid.append _, ?_, ?_, key₀, hkey₀, fun r pos far => ?_⟩
  · rw [hrest, hgapRest]
    simp
  · have hpos := congrArg Cursor.pos hnext
    have hfar := congrArg Cursor.far hnext
    simp only [Cursor.advance] at hpos hfar ⊢
    rw [hgapPos, hpos, hlength]
    exact congrArg (Cursor.mk rest _) hfar
  -- The key still ends where it did: what follows is the gap or the colon.
  · have hends : endsToken next.rest → endsToken (gap ++ ':' :: r) := by
      rw [hgapRest]
      cases gap with
      | nil => exact id
      | cons d gap => exact id
    have hsolidColon : Solid (':' :: r) := ⟨by decide, by decide⟩
    have hskip := Cursor.skip_append hgap hsolidColon (pos + byteLength taken) far
    refine ⟨⟨gap ++ ':' :: r, pos + byteLength taken, far⟩, ?_, ?_, ?_⟩
    · rw [← hagain _ hends pos far]
      simp
    · rw [hskip]
    · rw [hskip, ← hlength]
      rfl

/-! ## Forms -/

/-- The ways in which the search for a form succeeds. -/
inductive Grammar.TreeStep (fuel : Nat) (c : Cursor) : SourceTree → Cursor → Prop
  | noted {name rest : List Char} {inner : SourceTree} {next : Cursor}
      (hnote : note? c.rest = some (name, rest))
      (hinner : tree fuel (c.touch.advance (name ++ [':', ':']) rest).skip = .ok (inner, next)) :
      TreeStep fuel c (inner.annotate (String.ofList name)) next
  | quoted {rest : List Char} {inner : SourceTree} {next : Cursor} (hrest : c.rest = '\'' :: rest)
      (hinner : tree fuel (c.touch.advance ['\''] rest).skip = .ok (inner, next)) :
      TreeStep fuel c (.quoted [] ⟨c.pos, next.pos⟩ inner) next
  | group {fuel' : Nat} {shape : Shape} {rest after : List Char} {items : List SourceTree}
      {last : Cursor} (hfuel : fuel = fuel' + 1) (hrest : c.rest = shape.opening :: rest)
      (hitems : series fuel' (c.touch.advance [shape.opening] rest) = (items, last))
      (hclosing : last.skip.rest = shape.closing :: after) :
      TreeStep fuel c (.group [] ⟨c.pos, (last.skip.advance [shape.closing] after).pos⟩ shape items)
        (last.skip.advance [shape.closing] after)
  | record {rest after : List Char} {fields : List (FieldHead × SourceTree)} {last : Cursor}
      (hrest : c.rest = '\x7b' :: rest)
      (hfields : fieldSeries fuel (c.touch.advance ['\x7b'] rest) = (fields, last))
      (hclosing : last.skip.rest = '\x7d' :: after) :
      TreeStep fuel c (.record [] ⟨c.pos, (last.skip.advance ['\x7d'] after).pos⟩ fields)
        (last.skip.advance ['\x7d'] after)
  | token {t : Token} {next : Cursor} (hnote : note? c.rest = none)
      (hopen : ∀ d ∈ c.rest.head?, d ≠ '\'' ∧ d ≠ '(' ∧ d ≠ '[' ∧ d ≠ '\x7b')
      (htoken : tokenAt? c.touch = some (t, next)) : TreeStep fuel c (.token [] t) next

theorem Grammar.groupFrom_eq_ok (shape : Shape) {fuel : Nat} {start c next : Cursor}
    {t : SourceTree} :
    groupFrom fuel start shape shape.closing c = .ok (t, next) ↔
      ∃ fuel' items last after, fuel = fuel' + 1 ∧ series fuel' c = (items, last) ∧
        last.skip.rest = shape.closing :: after ∧ next = last.skip.advance [shape.closing] after ∧
        t = .group [] ⟨start.pos, next.pos⟩ shape items := by
  cases fuel with
  | zero => simp [groupFrom]
  | succ fuel =>
      rw [groupFrom]
      constructor
      · intro h
        split at h
        rename_i items last hitems
        dsimp only at h
        split at h
        · cases h
        · rename_i closing after hrest
          split at h
          · rename_i hclosing
            subst hclosing
            cases h
            exact ⟨fuel, items, last, after, rfl, hitems, hrest, rfl, rfl⟩
          · cases h
      · rintro ⟨_, items, last, after, ⟨⟩, hitems, hrest, rfl, rfl⟩
        simp only [hitems, hrest, if_true]

/-- What the search for a form does in one step. -/
theorem Grammar.tree_eq_ok {fuel : Nat} {c next : Cursor} {t : SourceTree} :
    tree (fuel + 1) c = .ok (t, next) ↔ TreeStep fuel c t next := by
  constructor
  · intro h
    rw [tree] at h
    dsimp only at h
    split at h
    · rename_i hnote
      split at h
      · cases h
      · cases h
        exact .noted hnote ‹_›
    · rename_i hnote
      split at h
      · rename_i hrest
        split at h
        · cases h
        · cases h
          exact .quoted hrest ‹_›
      · rename_i rest hrest
        obtain ⟨_, _, _, _, rfl, hitems, hclosing, rfl, rfl⟩ := (groupFrom_eq_ok .sexp).1 h
        exact .group rfl hrest hitems hclosing
      · rename_i rest hrest
        obtain ⟨_, _, _, _, rfl, hitems, hclosing, rfl, rfl⟩ := (groupFrom_eq_ok .list).1 h
        exact .group rfl hrest hitems hclosing
      · rename_i rest hrest
        split at h
        · cases h
        · rename_i closing after hclosing
          split at h
          · rename_i heq
            subst heq
            cases h
            exact .record hrest rfl hclosing
          · cases h
      · rename_i hquote hsexp hlist hbrace
        split at h
        · cases h
        · cases h
          refine .token hnote (fun d hd => ?_) ‹_›
          obtain ⟨after, hafter⟩ : ∃ after, c.rest = d :: after := List.head?_eq_some_iff.1 hd
          refine ⟨?_, ?_, ?_, ?_⟩ <;> rintro rfl
          · exact hquote _ hafter
          · exact hsexp _ hafter
          · exact hlist _ hafter
          · exact hbrace _ hafter
  · intro h
    obtain ⟨text, pos, far⟩ := c
    cases h with
    | noted hnote hinner =>
        simp only [Cursor.touch] at hnote hinner
        rw [tree]
        simp only [Cursor.touch, hnote, hinner]
    | quoted hrest hinner =>
        cases hrest
        simp only [Cursor.touch] at hinner
        rw [tree]
        dsimp only [Cursor.touch]
        rw [note?_of_not_isSymbolStart _ (by decide)]
        simp only [hinner]
    | @group fuel' shape rest after items last hfuel hrest hitems hclosing =>
        cases hrest
        rw [tree_opening]
        exact (groupFrom_eq_ok shape).2
          ⟨fuel', items, last, after, hfuel, hitems, hclosing, rfl, rfl⟩
    | record hrest hfields hclosing =>
        cases hrest
        simp only [Cursor.touch] at hfields
        rw [tree]
        dsimp only [Cursor.touch]
        rw [note?_of_not_isSymbolStart _ (by decide)]
        simp only [hfields, hclosing, if_true]
    | token hnote hopen htoken =>
        simp only [Cursor.touch] at hnote hopen htoken
        rw [tree]
        simp only [Cursor.touch, hnote]
        split
        · exact absurd rfl (hopen _ rfl).1
        · exact absurd rfl (hopen _ rfl).2.1
        · exact absurd rfl (hopen _ rfl).2.2.1
        · exact absurd rfl (hopen _ rfl).2.2.2
        · rw [htoken]

/-- What the search for a struct field does. -/
theorem Grammar.field_eq_ok {fuel : Nat} {c last : Cursor} {f : FieldHead × SourceTree} :
    field (fuel + 1) c = .ok (f, last) ↔ ∃ key next rest t, keyAt? c.touch = some (key, next) ∧
      next.skip.rest = ':' :: rest ∧ tree fuel (next.skip.advance [':'] rest).skip = .ok (t, last) ∧
      f = (⟨⟨c.pos, last.pos⟩, key⟩, t) := by
  rw [field]
  dsimp only
  constructor
  · intro h
    split at h
    · cases h
    · rename_i key next hkey
      split at h
      · rename_i rest hrest
        split at h
        · cases h
        · cases h
          exact ⟨key, next, rest, _, hkey, hrest, ‹_›, rfl⟩
      · cases h
  · rintro ⟨key, next, rest, t, hkey, hrest, hvalue, rfl⟩
    simp only [hkey, hrest, hvalue]
    rfl

/-- What is found with less than the given number of steps is spelled by the characters passed
over. -/
structure SpelledBelow (fuel : Nat) : Prop where
  tree : ∀ fuel' < fuel, ∀ {c t next}, Grammar.tree fuel' c = .ok (t, next) →
    ∃ taken, Solid taken ∧ SpelledBy Grammar.tree SourceTree.shift taken c t next
  field : ∀ fuel' < fuel, ∀ {c f next}, Grammar.field fuel' c = .ok (f, next) →
    ∃ taken, Solid taken ∧ SpelledBy Grammar.field SourceTree.shiftField taken c f next

namespace SpelledBelow

variable {fuel : Nat}

theorem of_le {fuel' : Nat} (h : SpelledBelow fuel) (hle : fuel' ≤ fuel) : SpelledBelow fuel' :=
  ⟨fun f hf => h.tree f (hf.trans_le hle), fun f hf => h.field f (hf.trans_le hle)⟩

/-- The form after given characters. -/
theorem after (h : SpelledBelow (fuel + 1)) {opening rest : List Char} {c next : Cursor}
    {t : SourceTree} (hrest : c.rest = opening ++ rest)
    (hfound : Grammar.tree fuel (c.advance opening rest).skip = .ok (t, next)) :
    ∃ used, c.rest = opening ++ used ++ next.rest ∧
      next.pos = c.pos + byteLength (opening ++ used) ∧
      ∃ t₀ : SourceTree, t = t₀.shift c.pos ∧ ∀ r outer, next.rest = r ++ outer →
        ∀ fuel pos far, 3 * used.length ≤ fuel → ∃ far',
          Grammar.tree fuel (Cursor.skip ⟨used ++ r, pos + byteLength opening, far⟩) =
            .ok (t₀.shift pos, ⟨r, pos + byteLength (opening ++ used), far'⟩) := by
  obtain ⟨used, hsolid, hspelled⟩ := h.tree fuel (Nat.lt_succ_self fuel) hfound
  obtain ⟨gap, hspelled⟩ := hspelled.skip hsolid SourceTree.shift_shift
  exact ⟨gap ++ used, hspelled.after hrest SourceTree.shift_shift⟩

theorem noted (h : SpelledBelow (fuel + 1)) {name rest : List Char} {c next : Cursor}
    {inner : SourceTree} (hnote : note? c.rest = some (name, rest))
    (hinner : Grammar.tree fuel (c.touch.advance (name ++ [':', ':']) rest).skip =
      .ok (inner, next)) :
    ∃ taken, Solid taken ∧ SpelledBy Grammar.tree SourceTree.shift taken c
      (inner.annotate (String.ofList name)) next := by
  have hname := isSymbol_of_note? hnote
  have hrest : c.touch.rest = name ++ [':', ':'] ++ rest := by
    rw [List.append_assoc]
    exact append_of_note? hnote
  obtain ⟨used, hrest, hpos, inner₀, hinner, hagain⟩ := h.after hrest hinner
  refine ⟨name ++ [':', ':'] ++ used, (hname.solid.append _).append _, hrest, hpos,
    inner₀.annotate (String.ofList name), ?_, ?_⟩
  · rw [SourceTree.shift_annotate, hinner]
    rfl
  · intro r outer hr fuel' pos far hfuel
    simp only [List.length_append, List.length_cons, List.length_nil] at hfuel
    obtain _ | fuel' := fuel'
    · omega
    obtain ⟨far', hfound⟩ := hagain r outer hr fuel' pos (max far pos) (by omega)
    refine ⟨far', ?_⟩
    rw [SourceTree.shift_annotate]
    have hnote : note? (name ++ [':', ':'] ++ used ++ r) = some (name, used ++ r) := by
      rw [List.append_assoc, List.append_assoc]
      exact note?_colons hname _
    exact tree_eq_ok.2 (.noted hnote hfound)

theorem quoted (h : SpelledBelow (fuel + 1)) {rest : List Char} {c next : Cursor}
    {inner : SourceTree} (hrest : c.rest = '\'' :: rest)
    (hinner : Grammar.tree fuel (c.touch.advance ['\''] rest).skip = .ok (inner, next)) :
    ∃ taken, Solid taken ∧ SpelledBy Grammar.tree SourceTree.shift taken c
      (.quoted [] ⟨c.pos, next.pos⟩ inner) next := by
  have hrest : c.touch.rest = ['\''] ++ rest := hrest
  obtain ⟨used, hrest, hpos, inner₀, hinner, hagain⟩ := h.after hrest hinner
  have hpos : next.pos = c.pos + byteLength (['\''] ++ used) := hpos
  have hsolid : Solid ['\''] := ⟨by decide, by decide⟩
  refine ⟨['\''] ++ used, hsolid.append _, hrest, hpos,
    .quoted [] ⟨0, byteLength (['\''] ++ used)⟩ inner₀, ?_, ?_⟩
  · rw [SourceTree.shift, Span.shift_mk, Nat.zero_add, Nat.add_comm, ← hpos, hinner]
    rfl
  · intro r outer hr fuel' pos far hfuel
    simp only [List.length_append, List.length_cons, List.length_nil] at hfuel
    obtain _ | fuel' := fuel'
    · omega
    obtain ⟨far', hfound⟩ := hagain r outer hr fuel' pos (max far pos) (by omega)
    refine ⟨far', ?_⟩
    rw [SourceTree.shift, Span.shift_mk, Nat.zero_add, Nat.add_comm (byteLength _)]
    have hstep : TreeStep fuel' ⟨['\''] ++ used ++ r, pos, far⟩ _ _ := .quoted rfl hfound
    exact tree_eq_ok.2 hstep

theorem group (h : SpelledBelow fuel) {shape : Shape} {rest after : List Char} {c last : Cursor}
    {items : List SourceTree} (hrest : c.rest = shape.opening :: rest)
    (hitems : series fuel (c.touch.advance [shape.opening] rest) = (items, last))
    (hclosing : last.skip.rest = shape.closing :: after) :
    ∃ taken, Solid taken ∧ SpelledBy Grammar.tree SourceTree.shift taken c
      (.group [] ⟨c.pos, (last.skip.advance [shape.closing] after).pos⟩ shape items)
      (last.skip.advance [shape.closing] after) := by
  obtain ⟨used, hspelled⟩ := isSeries_tree.spelledBy h.tree SourceTree.shift_shift
    (c.touch.advance [shape.opening] rest)
  rw [hitems] at hspelled
  obtain ⟨inside, hrest, hpos, items₀, hitems, hagain⟩ := hspelled.between (c := c.touch) hrest
    hclosing shape.endsSeries_closing SourceTree.shift_shift
  have hpos : (last.skip.advance [shape.closing] after).pos =
    c.pos + byteLength (shape.opening :: inside) := hpos
  have hitems : items = items₀.map (SourceTree.shift c.pos) := hitems
  have hsolid : Solid [shape.opening] := by cases shape <;> exact ⟨by decide, by decide⟩
  refine ⟨shape.opening :: inside, hsolid.append inside, hrest, hpos,
    .group [] ⟨0, byteLength (shape.opening :: inside)⟩ shape items₀, ?_, ?_⟩
  · rw [SourceTree.shift, Span.shift_mk, Nat.zero_add, Nat.add_comm, ← hpos, hitems,
      SourceTree.shiftAll_eq]
  · intro r outer hr fuel' pos far hfuel
    rw [List.length_cons] at hfuel
    obtain _ | _ | fuel' := fuel'
    · omega
    · omega
    obtain ⟨last', hfound, hclosing, hpos⟩ := hagain r outer hr fuel' pos (max far pos) (by omega)
    refine ⟨last'.far, ?_⟩
    rw [SourceTree.shift, Span.shift_mk, Nat.zero_add, Nat.add_comm (byteLength _), ← hpos,
      SourceTree.shiftAll_eq]
    exact tree_eq_ok.2 (.group rfl rfl hfound hclosing)

theorem record (h : SpelledBelow fuel) {rest after : List Char} {c last : Cursor}
    {fields : List (FieldHead × SourceTree)} (hrest : c.rest = '\x7b' :: rest)
    (hfields : fieldSeries fuel (c.touch.advance ['\x7b'] rest) = (fields, last))
    (hclosing : last.skip.rest = '\x7d' :: after) :
    ∃ taken, Solid taken ∧ SpelledBy Grammar.tree SourceTree.shift taken c
      (.record [] ⟨c.pos, (last.skip.advance ['\x7d'] after).pos⟩ fields)
      (last.skip.advance ['\x7d'] after) := by
  obtain ⟨used, hspelled⟩ := isSeries_field.spelledBy h.field SourceTree.shiftField_shiftField
    (c.touch.advance ['\x7b'] rest)
  rw [hfields] at hspelled
  obtain ⟨inside, hrest, hpos, fields₀, hfields, hagain⟩ := hspelled.between (c := c.touch) hrest
    hclosing endsSeries_brace SourceTree.shiftField_shiftField
  have hpos : (last.skip.advance ['\x7d'] after).pos = c.pos + byteLength ('\x7b' :: inside) := hpos
  have hfields : fields = fields₀.map (SourceTree.shiftField c.pos) := hfields
  have hsolid : Solid ['\x7b'] := ⟨by decide, by decide⟩
  refine ⟨'\x7b' :: inside, hsolid.append inside, hrest, hpos,
    .record [] ⟨0, byteLength ('\x7b' :: inside)⟩ fields₀, ?_, ?_⟩
  · rw [SourceTree.shift, Span.shift_mk, Nat.zero_add, Nat.add_comm, ← hpos, hfields,
      SourceTree.shiftFields_eq]
  · intro r outer hr fuel' pos far hfuel
    rw [List.length_cons] at hfuel
    obtain _ | fuel' := fuel'
    · omega
    obtain ⟨last', hfound, hclosing, hpos⟩ := hagain r outer hr fuel' pos (max far pos) (by omega)
    refine ⟨last'.far, ?_⟩
    rw [SourceTree.shift, Span.shift_mk, Nat.zero_add, Nat.add_comm (byteLength _), ← hpos,
      SourceTree.shiftFields_eq]
    exact tree_eq_ok.2 (.record rfl hfound hclosing)

theorem token {c next : Cursor} {t : Token} (hnote : note? c.rest = none)
    (hopen : ∀ d ∈ c.rest.head?, d ≠ '\'' ∧ d ≠ '(' ∧ d ≠ '[' ∧ d ≠ '\x7b')
    (htoken : tokenAt? c.touch = some (t, next)) :
    ∃ taken, Solid taken ∧ SpelledBy Grammar.tree SourceTree.shift taken c (.token [] t) next := by
  obtain ⟨taken, hsolid, hrest, hnext, t₀, ht, hagain⟩ := spelled_tokenAt? htoken
  refine ⟨taken, hsolid, hrest, congrArg Cursor.pos hnext, .token [] t₀, ?_, ?_⟩
  · rw [SourceTree.shift, ht]
    rfl
  · intro r outer hr fuel' pos far hfuel
    have hlength := hsolid.length_pos
    obtain _ | fuel' := fuel'
    · omega
    have hrest : c.rest = taken ++ r ++ outer := by
      rw [List.append_assoc, ← hr]
      exact hrest
    have hends : endsToken next.rest → endsToken r := fun h => endsToken_of_append (hr ▸ h)
    refine ⟨max far pos, tree_eq_ok.2 (.token ?_ ?_ (hagain r hends pos (max far pos)))⟩
    · exact note?_of_append (hrest ▸ hnote)
    · cases taken with
      | nil => exact hsolid.elim
      | cons d taken =>
          rw [hrest] at hopen
          exact hopen

/-- One case for each way in which a form may begin. -/
theorem tree_next (h : SpelledBelow fuel) {c next : Cursor} {t : SourceTree}
    (hfound : Grammar.tree fuel c = .ok (t, next)) :
    ∃ taken, Solid taken ∧ SpelledBy Grammar.tree SourceTree.shift taken c t next := by
  cases fuel with
  | zero => cases hfound
  | succ fuel =>
      cases tree_eq_ok.1 hfound with
      | noted hnote hinner => exact h.noted hnote hinner
      | quoted hrest hinner => exact h.quoted hrest hinner
      | group hfuel hrest hitems hclosing =>
          subst hfuel
          exact (h.of_le (by omega)).group hrest hitems hclosing
      | record hrest hfields hclosing => exact (h.of_le (by omega)).record hrest hfields hclosing
      | token hnote hopen htoken => exact token hnote hopen htoken

theorem field_next (h : SpelledBelow fuel) {c last : Cursor} {f : FieldHead × SourceTree}
    (hfound : Grammar.field fuel c = .ok (f, last)) :
    ∃ taken, Solid taken ∧ SpelledBy Grammar.field SourceTree.shiftField taken c f last := by
  cases fuel with
  | zero => cases hfound
  | succ fuel =>
      obtain ⟨key, next, rest, t, hkey, hcolon, hvalue, rfl⟩ := field_eq_ok.1 hfound
      obtain ⟨opening, hsolid, hrest, hopening, key₀, hkey₀, hkeyAgain⟩ := spelled_key hkey hcolon
      rw [hopening] at hvalue
      obtain ⟨used, hrest, hpos, t₀, ht, hagain⟩ := h.after hrest hvalue
      have hpos : last.pos = c.pos + byteLength (opening ++ used) := hpos
      refine ⟨opening ++ used, hsolid.append _, hrest, hpos,
        (⟨⟨0, byteLength (opening ++ used)⟩, key₀⟩, t₀), ?_, ?_⟩
      · rw [SourceTree.shiftField, FieldHead.shift, Span.shift_mk, Nat.zero_add, Nat.add_comm,
          ← hpos, ht, hkey₀]
        rfl
      · intro r outer hr fuel' pos far hfuel
        rw [List.length_append] at hfuel
        have hlength := hsolid.length_pos
        obtain _ | fuel' := fuel'
        · omega
        obtain ⟨next', hkeyFound, hcolonFound, hnext'⟩ := hkeyAgain (used ++ r) pos (max far pos)
        obtain ⟨far', hvalueFound⟩ := hagain r outer hr fuel' pos (max far pos) (by omega)
        refine ⟨far', ?_⟩
        rw [SourceTree.shiftField, FieldHead.shift, Span.shift_mk, Nat.zero_add,
          Nat.add_comm (byteLength _), List.append_assoc]
        rw [← hnext'] at hvalueFound
        exact field_eq_ok.2 ⟨_, next', used ++ r, _, hkeyFound, hcolonFound, hvalueFound, rfl⟩

end SpelledBelow

/-- What is found is spelled by the characters passed over, by induction on the number of steps. -/
theorem spelledBelow (fuel : Nat) : SpelledBelow fuel := by
  induction fuel using Nat.strong_induction_on with
  | _ fuel ih => exact ⟨fun f hf => (ih f hf).tree_next, fun f hf => (ih f hf).field_next⟩

/-- The characters that spell a form are read by themselves as that form. -/
theorem program_of_spelledBy {taken : List Char} {c next : Cursor} {t : SourceTree}
    (hsolid : Solid taken) (h : SpelledBy tree SourceTree.shift taken c t next) :
    ∃ t₀ : SourceTree, t = t₀.shift c.pos ∧ program taken = .ok [t₀] := by
  obtain ⟨t₀, ht, hagain⟩ := h.again
  obtain ⟨far, hfound⟩ := hagain [] next.rest rfl (3 * taken.length + 2) 0 0 (by omega)
  rw [List.append_nil, SourceTree.shift_zero, Nat.zero_add] at hfound
  obtain ⟨far', hstop⟩ := endsSeries_nil.not_found (3 * taken.length + 1) (byteLength taken) far
  refine ⟨t₀, ht, ?_⟩
  rw [program, fuelFor, series, Cursor.skip_of_solid hsolid, hfound]
  simp only [series, endsSeries_nil.skip, hstop, List.isEmpty_nil, if_true]

end HygienicLisp
