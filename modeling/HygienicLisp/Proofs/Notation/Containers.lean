import HygienicLisp.Proofs.Notation.Reading

/-!
# Reading the text of a container

A container is written as the texts of its parts with separators between them.  If each of these
texts is read as its part wherever it stands, then the text of the container is read as the
container (`readsAs_group`, `readsAs_record`).

Items and fields are looked for in the same way, one after the other until one is looked for in
vain (`IsSeries`).
-/

namespace HygienicLisp

open Grammar

/-! ## Series -/

/-- A separator between two parts: blanks, at which tokens end. -/
structure Grammar.IsSeparator (gap : List Char) : Prop where
  blank : ∀ c ∈ gap, isBlank c
  stops : ∀ rest, Stops (gap ++ rest)

theorem isSeparator_comma : IsSeparator [',', ' '] :=
  ⟨List.all_eq_true.1 rfl, fun _ => .inr (.inl rfl)⟩

theorem intercalate_cons {α : Type} (gap first : List α) (rest : List (List α)) :
    gap.intercalate (first :: rest) = first ++ rest.flatMap (gap ++ ·) := by
  induction rest generalizing first with
  | nil => simp
  | cons next rest ih =>
      rw [List.intercalate_cons_cons, ih, List.flatMap_cons, List.append_assoc, List.append_assoc]

section

variable {α : Type} {look : Nat → Cursor → Except Nat (α × Cursor)}
  {series : Nat → Cursor → List α × Cursor}

/-- `series` looks for as many parts as there are. -/
structure IsSeries (look : Nat → Cursor → Except Nat (α × Cursor))
    (series : Nat → Cursor → List α × Cursor) : Prop where
  zero : ∀ c, series 0 c = ([], c)
  succ : ∀ fuel c, series (fuel + 1) c =
    match look fuel c.skip with
    | .error far => ([], { c with far })
    | .ok (found, next) => (found :: (series fuel next).1, (series fuel next).2)

/-- Nothing is found here, and nothing is passed over in looking for it. -/
structure EndsSeries (look : Nat → Cursor → Except Nat (α × Cursor)) (after : List Char) :
    Prop where
  stops : Stops after
  skip : ∀ pos far, Cursor.skip ⟨after, pos, far⟩ = ⟨after, pos, far⟩
  not_found : ∀ fuel pos far, ∃ far', look fuel ⟨after, pos, far⟩ = .error far'

/-- A series of parts with the properties has been found, and the search has stopped before `rest`. -/
def FoundAll (parts : List (List Char × (α → Prop))) (rest : List Char)
    (found : List α × Cursor) : Prop :=
  found.2.rest = rest ∧ List.Forall₂ (fun part one => part.2 one) parts found.1

theorem IsSeries.nil (hseries : IsSeries look series) {after : List Char}
    (hafter : EndsSeries look after) (fuel pos far : Nat) :
    FoundAll [] after (series fuel ⟨after, pos, far⟩) := by
  cases fuel with
  | zero =>
      rw [hseries.zero]
      exact ⟨rfl, .nil⟩
  | succ fuel =>
      obtain ⟨far', hfar⟩ := hafter.not_found fuel pos far
      rw [hseries.succ, hafter.skip, hfar]
      exact ⟨rfl, .nil⟩

/-- One more part in front of a series. -/
theorem IsSeries.cons (hseries : IsSeries look series) {fuel : Nat} {gap rest after : List Char}
    {part : List Char × (α → Prop)} {parts : List (List Char × (α → Prop))}
    (hgap : ∀ c ∈ gap, isBlank c) (hsolid : Solid part.1) (hpart : Finds look part.1 part.2)
    (hfuel : 3 * part.1.length ≤ fuel) (hstops : Stops rest)
    (hrest : ∀ pos far, FoundAll parts after (series fuel ⟨rest, pos, far⟩)) (pos far : Nat) :
    FoundAll (part :: parts) after (series (fuel + 1) ⟨gap ++ (part.1 ++ rest), pos, far⟩) := by
  obtain ⟨pos', hskip⟩ := Cursor.rest_skip hgap (hsolid.append rest) pos far
  have hfirst := hpart fuel pos' far rest hfuel hstops
  rw [hseries.succ, hskip]
  revert hfirst
  generalize look fuel _ = found
  intro hfirst
  obtain _ | ⟨one, next⟩ := found
  · exact hfirst.elim
  · obtain ⟨hnext, hone⟩ := hfirst
    obtain ⟨_, nextPos, nextFar⟩ := next
    cases hnext
    obtain ⟨hlast, hall⟩ := hrest nextPos nextFar
    exact ⟨hlast, .cons hone hall⟩

/-- Parts with a separator before each of them. -/
theorem IsSeries.separated (hseries : IsSeries look series) {fuel : Nat} {gap after : List Char}
    {parts : List (List Char × (α → Prop))} (hgap : IsSeparator gap)
    (hafter : EndsSeries look after)
    (hparts : ∀ part ∈ parts, Solid part.1 ∧ Finds look part.1 part.2)
    (hfuel : 3 * (parts.flatMap fun part => gap ++ part.1).length < fuel) (pos far : Nat) :
    FoundAll parts after
      (series fuel ⟨(parts.flatMap fun part => gap ++ part.1) ++ after, pos, far⟩) := by
  induction parts generalizing fuel pos far with
  | nil => exact hseries.nil hafter fuel pos far
  | cons part parts ih =>
      obtain ⟨⟨hsolid, hpart⟩, hparts⟩ := List.forall_mem_cons.1 hparts
      have hlength := hsolid.length_pos
      rw [List.flatMap_cons, List.length_append, List.length_append] at hfuel
      rw [List.flatMap_cons, List.append_assoc, List.append_assoc]
      obtain _ | fuel := fuel
      · omega
      refine hseries.cons hgap.blank hsolid hpart (by omega) ?_ (ih hparts (by omega)) pos far
      cases parts with
      | nil => exact hafter.stops
      | cons next parts =>
          rw [List.flatMap_cons, List.append_assoc, List.append_assoc]
          exact hgap.stops _

/-- Parts with separators between them. -/
theorem IsSeries.intercalate (hseries : IsSeries look series) (fuel : Nat) {gap after : List Char}
    {parts : List (List Char × (α → Prop))} (hgap : IsSeparator gap)
    (hafter : EndsSeries look after)
    (hparts : ∀ part ∈ parts, Solid part.1 ∧ Finds look part.1 part.2)
    (hfuel : 3 * (gap.intercalate (parts.map (·.1))).length < fuel) (pos far : Nat) :
    FoundAll parts after
      (series fuel ⟨gap.intercalate (parts.map (·.1)) ++ after, pos, far⟩) := by
  cases parts with
  | nil => exact hseries.nil hafter fuel pos far
  | cons part parts =>
      obtain ⟨⟨hsolid, hpart⟩, hparts⟩ := List.forall_mem_cons.1 hparts
      have hlength := hsolid.length_pos
      rw [List.map_cons, intercalate_cons, List.flatMap_map, List.length_append] at hfuel
      rw [List.map_cons, intercalate_cons, List.flatMap_map, List.append_assoc]
      obtain _ | fuel := fuel
      · omega
      have hnone : ∀ c ∈ ([] : List Char), isBlank c := by simp
      refine hseries.cons hnone hsolid hpart (by omega) ?_
        (hseries.separated hgap hafter hparts (by omega)) pos far
      cases parts with
      | nil => exact hafter.stops
      | cons next parts =>
          rw [List.flatMap_cons, List.append_assoc, List.append_assoc]
          exact hgap.stops _

end

theorem isSeries_tree : IsSeries tree series :=
  ⟨fun _ => rfl, fun fuel c => by rw [series]; cases tree fuel c.skip <;> rfl⟩

theorem isSeries_field : IsSeries field fieldSeries :=
  ⟨fun _ => rfl, fun fuel c => by rw [fieldSeries]; cases field fuel c.skip <;> rfl⟩

theorem endsSeries_nil : EndsSeries tree [] := by
  refine ⟨trivial, fun _ _ => rfl, fun fuel pos far => ?_⟩
  cases fuel with
  | zero => exact ⟨_, rfl⟩
  | succ fuel => exact ⟨max far pos, rfl⟩

/-! ## Sexps and lists -/

/-- The bracket that opens a sequence. -/
def Shape.opening : Shape → Char
  | .sexp => '('
  | .list => '['

/-- The bracket that closes a sequence. -/
def Shape.closing : Shape → Char
  | .sexp => ')'
  | .list => ']'

/-- What stands between two items of a sequence. -/
def Shape.gap : Shape → List Char
  | .sexp => [' ']
  | .list => [',', ' ']

theorem Shape.toList_bracket (shape : Shape) (items : List String) :
    (shape.bracket items).toList =
      shape.opening :: (shape.gap.intercalate (items.map String.toList) ++ [shape.closing]) := by
  cases shape <;> simp [bracket, opening, closing, gap, String.toList_intercalate]

theorem Shape.isSeparator_gap (shape : Shape) : IsSeparator shape.gap := by
  cases shape with
  | sexp => exact ⟨List.all_eq_true.1 rfl, fun _ => .inl rfl⟩
  | list => exact isSeparator_comma

theorem Shape.endsSeries_closing (shape : Shape) (rest : List Char) :
    EndsSeries tree (shape.closing :: rest) := by
  refine ⟨?_, fun pos far => ?_, fun fuel pos far => ?_⟩
  · cases shape <;> simp [Stops, closing]
  · exact Cursor.skip_of_solid (by cases shape <;> exact ⟨by decide, by decide⟩) _ _
  · cases fuel with
    | zero => exact ⟨_, rfl⟩
    | succ fuel => cases shape <;> exact ⟨max far pos, rfl⟩

theorem tree_opening (shape : Shape) (fuel : Nat) (rest : List Char) (pos far : Nat) :
    tree (fuel + 1) ⟨shape.opening :: rest, pos, far⟩ =
      groupFrom fuel ⟨shape.opening :: rest, pos, max far pos⟩ shape shape.closing
        ⟨rest, pos + byteLength [shape.opening], max far pos⟩ := by
  cases shape <;> rfl

/-- Trees that denote forms denote the sequence of the forms. -/
theorem toSyntaxAll_of_denotes {forms : List Syntax} {trees : List SourceTree}
    (h : List.Forall₂ (fun form t => SourceTree.Denotes form t) forms trees) (source : Source) :
    ∃ items, SourceTree.toSyntaxAll source trees = .ok items ∧ items.map Syntax.bare = forms := by
  induction h with
  | nil => exact ⟨[], rfl, rfl⟩
  | cons hfirst _ ih =>
      obtain ⟨stx, hstx, hbare⟩ := hfirst source
      obtain ⟨items, hitems, hbares⟩ := ih
      refine ⟨stx :: items, ?_, ?_⟩
      · rw [SourceTree.toSyntaxAll, hstx, hitems]
        rfl
      · rw [List.map_cons, hbare, hbares]

/-- The texts of forms, each with the form that it is read as. -/
def formParts (parts : List (List Char × Syntax)) : List (List Char × (SourceTree → Prop)) :=
  parts.map fun part => (part.1, (·.Denotes part.2))

theorem forall_formParts {parts : List (List Char × Syntax)}
    (h : ∀ part ∈ parts, Solid part.1 ∧ ReadsAs part.1 part.2) :
    ∀ part ∈ formParts parts, Solid part.1 ∧ Finds tree part.1 part.2 := by
  intro part hpart
  obtain ⟨part, hmem, rfl⟩ := List.mem_map.1 hpart
  exact h part hmem

theorem map_fst_formParts (parts : List (List Char × Syntax)) :
    (formParts parts).map (·.1) = parts.map (·.1) := by
  simp [formParts]

theorem forall₂_of_formParts {parts : List (List Char × Syntax)} {trees : List SourceTree}
    (h : List.Forall₂ (fun part one => part.2 one) (formParts parts) trees) :
    List.Forall₂ (fun form t => SourceTree.Denotes form t) (parts.map (·.2)) trees := by
  rw [formParts, List.forall₂_map_left_iff] at h
  rw [List.forall₂_map_left_iff]
  exact h

/-- The texts of the items between brackets are read as the group of the items. -/
theorem readsAs_group {parts : List (List Char × Syntax)} (shape : Shape)
    (hparts : ∀ part ∈ parts, Solid part.1 ∧ ReadsAs part.1 part.2) :
    ReadsAs (shape.opening :: (shape.gap.intercalate (parts.map (·.1)) ++ [shape.closing]))
      (.group {} shape (parts.map (·.2))) := by
  intro fuel pos far rest hfuel hrest
  rw [List.length_cons, List.length_append, List.length_singleton] at hfuel
  obtain _ | _ | fuel := fuel
  · omega
  · omega
  -- A bracket ends the series, whatever stands after it.
  have hitems := isSeries_tree.intercalate fuel shape.isSeparator_gap
    (shape.endsSeries_closing rest) (forall_formParts hparts)
    (by rw [map_fst_formParts]; omega) (pos + byteLength [shape.opening]) (max far pos)
  rw [map_fst_formParts] at hitems
  rw [List.cons_append, List.append_assoc, List.singleton_append, tree_opening, groupFrom]
  revert hitems
  generalize series fuel _ = found
  rintro ⟨hnext, htrees⟩
  obtain ⟨trees, _, nextPos, nextFar⟩ := found
  cases hnext
  dsimp only
  rw [(shape.endsSeries_closing rest).skip]
  dsimp only
  rw [if_pos rfl]
  refine ⟨rfl, fun source => ?_⟩
  obtain ⟨items, hread, hbare⟩ := toSyntaxAll_of_denotes (forall₂_of_formParts htrees) source
  refine ⟨.group { span := some ⟨pos, nextPos + byteLength [shape.closing]⟩ } shape items, ?_, ?_⟩
  · rw [SourceTree.toSyntax, hread]
    rfl
  · rw [Syntax.bare, Syntax.bareAll_eq, hbare]

/-! ## Records -/

/-- A field whose key comes last is added at the end. -/
theorem Fields.insert_last {key : String} {fields : List (String × Syntax)}
    (h : ∀ field ∈ fields, field.1 < key) (stx : Syntax) :
    Fields.get? key fields = none ∧ Fields.insert key stx fields = fields ++ [(key, stx)] := by
  induction fields with
  | nil => exact ⟨rfl, rfl⟩
  | cons field fields ih =>
      obtain ⟨hfield, hfields⟩ := List.forall_mem_cons.1 h
      obtain ⟨hget, hinsert⟩ := ih hfields
      have hne : field.1 ≠ key := String.ne_of_lt hfield
      refine ⟨?_, ?_⟩
      · rw [Fields.get?, if_neg hne, hget]
      · rw [Fields.insert, if_neg (String.lt_asymm hfield), if_neg hne.symm, hinsert,
          List.cons_append]

/-- The field denotes the form under the key. -/
def FieldDenotes (key : String) (form : Syntax) (found : FieldHead × SourceTree) : Prop :=
  (∀ source, Token.fieldKey source found.1 = .ok key) ∧ found.2.Denotes form

theorem keyAt?_symbol {key rest : List Char} (hkey : IsSymbol key) (hrest : endsToken rest)
    (pos far : Nat) :
    keyAt? ⟨key ++ rest, pos, far⟩ =
      some (⟨.symbol, key, ⟨pos, pos + byteLength key⟩⟩, ⟨rest, pos + byteLength key, far⟩) := by
  unfold keyAt?
  split
  · exact absurd ‹_› (hkey.ne_quote _)
  · rw [symbol?_append hkey hrest]
    rfl

/-- A key, a colon and a text that is read are a field. -/
theorem finds_field {key : String} {text : List Char} {form : Syntax} (hkey : IsSymbol key.toList)
    (hsolid : Solid text) (htext : ReadsAs text form) :
    Finds field (key.toList ++ (':' :: ' ' :: text)) (FieldDenotes key form) := by
  intro fuel pos far rest hfuel hrest
  simp only [List.length_append, List.length_cons] at hfuel
  obtain _ | fuel := fuel
  · omega
  have hcolon : Solid (':' :: ' ' :: (text ++ rest)) := ⟨by decide, by decide⟩
  rw [List.append_assoc, List.cons_append, List.cons_append, field]
  simp only [Cursor.touch]
  rw [keyAt?_symbol hkey (by rfl)]
  dsimp only
  rw [Cursor.skip_of_solid hcolon]
  simp only [Cursor.advance]
  have hblank : ∀ c ∈ [' '], isBlank c := List.all_eq_true.1 rfl
  obtain ⟨pos', hskip⟩ := Cursor.rest_skip hblank (hsolid.append rest)
    (pos + byteLength key.toList + byteLength [':']) (max far pos)
  rw [List.singleton_append] at hskip
  rw [hskip]
  have hvalue := htext fuel pos' (max far pos) rest (by omega) hrest
  revert hvalue
  generalize tree fuel _ = found
  intro hvalue
  obtain _ | ⟨t, next⟩ := found
  · exact hvalue.elim
  · refine ⟨hvalue.1, fun source => ?_, hvalue.2⟩
    rw [Token.fieldKey, String.ofList_toList]

/-- Fields that denote forms, under keys that grow, denote the record of the forms. -/
theorem toFields_of_denotes {fields : List (String × Syntax)}
    {found : List (FieldHead × SourceTree)}
    (h : List.Forall₂ (fun field one => FieldDenotes field.1 field.2 one) fields found)
    (hsorted : fields.Pairwise fun field later => field.1 < later.1) (source : Source)
    (before : List (String × Syntax))
    (hbefore : ∀ earlier ∈ before, ∀ field ∈ fields, earlier.1 < field.1) :
    ∃ added, SourceTree.toFields source found before = .ok (before ++ added) ∧
      Syntax.bareFields added = fields := by
  induction h generalizing before with
  | nil => exact ⟨[], by rw [List.append_nil]; rfl, rfl⟩
  | @cons field one fields found hfirst _ ih =>
      obtain ⟨hfield, hsorted⟩ := List.pairwise_cons.1 hsorted
      obtain ⟨hkey, hform⟩ := hfirst
      obtain ⟨stx, hstx, hbare⟩ := hform source
      have hlast : ∀ earlier ∈ before, earlier.1 < field.1 := fun earlier hearlier =>
        hbefore earlier hearlier field List.mem_cons_self
      obtain ⟨hget, hinsert⟩ := Fields.insert_last hlast stx
      -- The keys grow, so each field is put last and none replaces another.
      have hnext : ∀ earlier ∈ before ++ [(field.1, stx)], ∀ later ∈ fields,
          earlier.1 < later.1 := by
        intro earlier hearlier later hlater
        rcases List.mem_append.1 hearlier with hearlier | hearlier
        · exact hbefore earlier hearlier later (List.mem_cons_of_mem _ hlater)
        · rw [List.mem_singleton.1 hearlier]
          exact hfield later hlater
      obtain ⟨added, hadded, hfields⟩ := ih hsorted _ hnext
      refine ⟨(field.1, stx) :: added, ?_, ?_⟩
      · obtain ⟨head, t⟩ := one
        rw [SourceTree.toFields, hkey source, hstx]
        dsimp only [bind, Except.bind]
        rw [hget]
        dsimp only
        rw [hinsert, hadded, List.append_assoc]
        rfl
      · rw [Syntax.bareFields, hbare, hfields]

/-- The text of a field. -/
def fieldText (field : String × List Char) : List Char := field.1.toList ++ (':' :: ' ' :: field.2)

theorem endsSeries_brace (rest : List Char) : EndsSeries field ('\x7d' :: rest) := by
  refine ⟨.inr (.inr (.inr (.inr rfl))), fun pos far => ?_, fun fuel pos far => ?_⟩
  · have hsolid : Solid ('\x7d' :: rest) := ⟨by decide, by decide⟩
    exact Cursor.skip_of_solid hsolid _ _
  · cases fuel with
    | zero => exact ⟨_, rfl⟩
    | succ fuel => exact ⟨max far pos, rfl⟩

theorem tree_brace {fuel pos far nextPos nextFar : Nat} {text rest : List Char}
    {fields : List (FieldHead × SourceTree)}
    (h : fieldSeries fuel ⟨text, pos + byteLength ['\x7b'], max far pos⟩ =
      (fields, ⟨'\x7d' :: rest, nextPos, nextFar⟩)) :
    tree (fuel + 1) ⟨'\x7b' :: text, pos, far⟩ =
      .ok (.record [] ⟨pos, nextPos + byteLength ['\x7d']⟩ fields,
        ⟨rest, nextPos + byteLength ['\x7d'], nextFar⟩) := by
  rw [tree]
  dsimp only [Cursor.touch]
  rw [note?_of_not_isSymbolStart _ (by decide)]
  simp only [Cursor.advance]
  rw [h]
  rfl

/-- The texts of the fields between braces are read as the record of the fields. -/
theorem readsAs_record (parts : List (String × List Char × Syntax))
    (hsorted : parts.Pairwise fun part later => part.1 < later.1)
    (hparts : ∀ part ∈ parts, IsSymbol part.1.toList ∧ Solid part.2.1 ∧ ReadsAs part.2.1 part.2.2) :
    ReadsAs ('\x7b' :: (List.intercalate [',', ' ']
        (parts.map fun part => fieldText (part.1, part.2.1)) ++ ['\x7d']))
      (.record {} (parts.map fun part => (part.1, part.2.2))) := by
  intro fuel pos far rest hfuel hrest
  rw [List.length_cons, List.length_append, List.length_singleton] at hfuel
  obtain _ | fuel := fuel
  · omega
  let found := parts.map fun part =>
    (fieldText (part.1, part.2.1), FieldDenotes part.1 part.2.2)
  have hfound : ∀ part ∈ found, Solid part.1 ∧ Finds field part.1 part.2 := by
    intro part hpart
    obtain ⟨part, hmem, rfl⟩ := List.mem_map.1 hpart
    obtain ⟨hkey, hsolid, hread⟩ := hparts part hmem
    exact ⟨hkey.solid.append _, finds_field hkey hsolid hread⟩
  have htexts : found.map (·.1) = parts.map fun part => fieldText (part.1, part.2.1) :=
    List.map_map
  rw [← htexts] at hfuel ⊢
  obtain ⟨hnext, hdenote⟩ := isSeries_field.intercalate fuel isSeparator_comma
    (endsSeries_brace rest) hfound (by omega) (pos + byteLength ['\x7b']) (max far pos)
  rw [List.cons_append, List.append_assoc, List.singleton_append]
  revert hnext hdenote
  cases hseries : fieldSeries fuel _ with
  | mk trees next =>
      obtain ⟨_, nextPos, nextFar⟩ := next
      rintro rfl hdenote
      rw [tree_brace hseries]
      refine ⟨rfl, fun source => ?_⟩
      have hforms : List.Forall₂ (fun field one => FieldDenotes field.1 field.2 one)
          (parts.map fun part => (part.1, part.2.2)) trees := by
        rw [List.forall₂_map_left_iff] at hdenote ⊢
        exact hdenote
      have hkeys : (parts.map fun part => (part.1, part.2.2)).Pairwise
          fun field later => field.1 < later.1 := List.pairwise_map.2 hsorted
      obtain ⟨added, hadded, hbare⟩ := toFields_of_denotes hforms hkeys source []
        (by simp)
      refine ⟨.record { span := some ⟨pos, nextPos + byteLength ['\x7d']⟩ } added, ?_, ?_⟩
      · rw [SourceTree.toSyntax, hadded]
        rfl
      · rw [Syntax.bare, hbare]

end HygienicLisp
