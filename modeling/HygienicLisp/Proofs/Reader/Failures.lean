import HygienicLisp.Proofs.Reader.Pairs
import HygienicLisp.Proofs.Spans.Faithful

/-!
# What keeps a text from being read

Past the grammar, three things keep a text from being read: an int literal outside the 64-bit range,
an unknown escape in a string literal or in a key, and two fields of one record under one key.
Each is a defect of some part of the text (`SourceTree.Defect`), at any depth.  A text without them
writes forms, and these are what the reader gives (`Source.read_of_program`).
-/

namespace HygienicLisp

open Grammar

/-! ## What a tree writes -/

/-- The atom that a token writes. -/
inductive Token.Writes : Token → Atom → Prop
  | null {text : List Char} {span : Span} : Writes ⟨.null, text, span⟩ .null
  | boolean {text : List Char} {span : Span} :
      Writes ⟨.boolean, text, span⟩ (.bool (text = ['t', 'r', 'u', 'e']))
  | float {text : List Char} {span : Span} : Writes ⟨.float, text, span⟩ (.float (floatValue text))
  | int {text : List Char} {span : Span} {i : Int64} (h : WritesInt text i.toInt) :
      Writes ⟨.int, text, span⟩ (.int i)
  | string {body s : List Char} {span : Span} (h : WritesString body s) :
      Writes ⟨.string, body, span⟩ (.str (String.ofList s))
  | symbol {text : List Char} {span : Span} :
      Writes ⟨.symbol, text, span⟩ (.symbol (String.ofList text))

/-- The key that a token writes in front of a field. -/
inductive Token.WritesKey : Token → String → Prop
  | string {body s : List Char} {span : Span} (h : WritesString body s) :
      WritesKey ⟨.string, body, span⟩ (String.ofList s)
  | word {kind : TokenKind} {text : List Char} {span : Span} (h : kind ≠ .string) :
      WritesKey ⟨kind, text, span⟩ (String.ofList text)

namespace SourceTree

/-- The form that a tree writes. -/
inductive Writes : SourceTree → Syntax → Prop
  | token {notes : List String} {t : Token} {a : Atom} (h : t.Writes a) :
      Writes (.token notes t) (.atom { span := some t.span, notes } a)
  | quoted {notes : List String} {span : Span} {inner : SourceTree} {stx : Syntax}
      (h : Writes inner stx) :
      Writes (.quoted notes span inner) (.group { span := some span, notes } .sexp
        [.atom { span := some ⟨span.start, span.start + 1⟩ } (.symbol "quote"), stx])
  | group {notes : List String} {span : Span} {shape : Shape} {items : List SourceTree}
      {stxs : List Syntax} (h : List.Forall₂ Writes items stxs) :
      Writes (.group notes span shape items) (.group { span := some span, notes } shape stxs)
  | record {notes : List String} {span : Span} {fields : List (FieldHead × SourceTree)}
      {keys : List String} {stxs : List Syntax}
      (hkeys : List.Forall₂ Token.WritesKey (fields.map (·.1.key)) keys)
      (hdistinct : keys.Nodup) (hvalues : List.Forall₂ Writes (fields.map (·.2)) stxs) :
      Writes (.record notes span fields) (.record { span := some span, notes }
        ((keys.zip stxs).foldl (fun found field => Fields.insert field.1 field.2 found) []))

/-- A tree and the trees inside it. -/
inductive HasPart : SourceTree → SourceTree → Prop
  | self {t : SourceTree} : HasPart t t
  | quoted {notes : List String} {span : Span} {inner part : SourceTree}
      (h : HasPart inner part) : HasPart (.quoted notes span inner) part
  | item {notes : List String} {span : Span} {shape : Shape} {items : List SourceTree}
      {t part : SourceTree} (hmem : t ∈ items) (h : HasPart t part) :
      HasPart (.group notes span shape items) part
  | field {notes : List String} {span : Span} {fields : List (FieldHead × SourceTree)}
      {field : FieldHead × SourceTree} {part : SourceTree} (hmem : field ∈ fields)
      (h : HasPart field.2 part) : HasPart (.record notes span fields) part

/-- What keeps a text from being read, in the tree itself and not in a part of it, with the fault
and the range that are reported. -/
inductive Defect : SourceTree → ParseFault → Span → Prop
  | int {notes : List String} {text : List Char} {span : Span} {n : Int} (hn : WritesInt text n)
      (hrange : ¬InInt64 n) :
      Defect (.token notes ⟨.int, text, span⟩) (.integerRange (String.ofList text)) span
  | string {notes : List String} {body : List Char} {span : Span} {c : Char}
      (h : HasUnknownEscape body c) :
      Defect (.token notes ⟨.string, body, span⟩) (.unknownEscape c) span
  | key {notes : List String} {span : Span} {fields : List (FieldHead × SourceTree)}
      {field : FieldHead × SourceTree} {c : Char} (hmem : field ∈ fields)
      (hkind : field.1.key.kind = .string) (h : HasUnknownEscape field.1.key.text c) :
      Defect (.record notes span fields) (.unknownEscape c) field.1.span
  | twice {notes : List String} {span : Span} {fields : List (FieldHead × SourceTree)}
      {first second : FieldHead × SourceTree} {key : String}
      (hfields : [first, second].Sublist fields) (hfirst : first.1.key.WritesKey key)
      (hsecond : second.1.key.WritesKey key) :
      Defect (.record notes span fields) (.duplicateField key) second.1.span

end SourceTree

/-- The failure reports a defect of a part of the tree. -/
def Source.Refuses (source : Source) (t : SourceTree) (e : Error) : Prop :=
  ∃ part fault span, t.HasPart part ∧ part.Defect fault span ∧
    e = .inSource (.parse fault) source span

/-! ## Tokens -/

namespace Token

variable {source : Source}

theorem writesString_of_unescape {span : Span} {body : List Char} {s : String}
    (h : unescape source span body = .ok s) :
    ∃ chars, s = String.ofList chars ∧ WritesString body chars := by
  unfold unescape at h
  cases hdecode : Quoted.decode body with
  | ok chars =>
      rw [hdecode] at h
      cases h
      exact ⟨chars, rfl, writesString_of_decode hdecode⟩
  | error fault =>
      rw [hdecode] at h
      cases fault <;> cases h

/-- The inside of a string literal is refused only for an unknown escape. -/
theorem unknown_of_unescape {span : Span} {body : List Char} {e : Error} (hbody : IsBody body)
    (h : unescape source span body = .error e) :
    ∃ c, HasUnknownEscape body c ∧ e = .inSource (.parse (.unknownEscape c)) source span := by
  unfold unescape at h
  cases hdecode : Quoted.decode body with
  | ok chars =>
      rw [hdecode] at h
      cases h
  | error fault =>
      obtain ⟨c, rfl, hunknown⟩ := exists_unknown_of_decode hbody hdecode
      rw [hdecode] at h
      cases h
      exact ⟨c, hunknown, rfl⟩

theorem writesKey_of_fieldKey {head : FieldHead} {key : String}
    (h : fieldKey source head = .ok key) : head.key.WritesKey key := by
  obtain ⟨outer, kind, text, span⟩ := head
  cases kind with
  | string =>
      obtain ⟨chars, rfl, hwrites⟩ := writesString_of_unescape h
      exact .string hwrites
  | null | boolean | float | int | symbol =>
      cases h
      exact .word (by rintro ⟨⟩)

theorem unknown_of_fieldKey {head : FieldHead} {e : Error} (hkey : head.key.Lexed)
    (h : fieldKey source head = .error e) :
    ∃ c, head.key.kind = .string ∧ HasUnknownEscape head.key.text c ∧
      e = .inSource (.parse (.unknownEscape c)) source head.span := by
  obtain ⟨outer, kind, text, span⟩ := head
  cases kind with
  | string =>
      obtain ⟨c, hunknown, rfl⟩ := unknown_of_unescape hkey h
      exact ⟨c, rfl, hunknown, rfl⟩
  | null | boolean | float | int | symbol => cases h

theorem writes_of_atom {t : Token} {a : Atom} (ht : t.Lexed) (h : t.atom source = .ok a) :
    t.Writes a := by
  obtain ⟨kind, text, span⟩ := t
  cases kind with
  | null =>
      cases h
      exact .null
  | boolean =>
      cases h
      exact .boolean
  | float =>
      cases h
      exact .float
  | symbol =>
      cases h
      exact .symbol
  | string =>
      obtain ⟨s, hs, rfl⟩ := Except.map_eq_ok.1 h
      obtain ⟨chars, rfl, hwrites⟩ := writesString_of_unescape hs
      exact .string hwrites
  | int =>
      -- The text of an int writes some number; it is an atom just if the number fits a machine int.
      obtain ⟨n, hn⟩ := IsInt.exists_writesInt ht
      simp only [atom, intValue_eq hn] at h
      cases hmachine : machineInt? n with
      | none =>
          rw [hmachine] at h
          cases h
      | some i =>
          rw [hmachine] at h
          cases h
          rw [← toInt_of_machineInt? hmachine] at hn
          exact .int hn

/-- A token is refused only if it is an int out of range or a string with an unknown escape. -/
theorem defect_of_atom {t : Token} {e : Error} (ht : t.Lexed) (h : t.atom source = .error e)
    (notes : List String) :
    ∃ fault, (SourceTree.token notes t).Defect fault t.span ∧
      e = .inSource (.parse fault) source t.span := by
  obtain ⟨kind, text, span⟩ := t
  cases kind with
  | null | boolean | float | symbol => cases h
  | string =>
      obtain ⟨c, hunknown, rfl⟩ := unknown_of_unescape ht (Except.map_eq_error.1 h)
      exact ⟨_, .string hunknown, rfl⟩
  | int =>
      obtain ⟨n, hn⟩ := IsInt.exists_writesInt ht
      simp only [atom, intValue_eq hn] at h
      cases hmachine : machineInt? n with
      | none =>
          rw [hmachine] at h
          cases h
          refine ⟨_, .int hn fun hrange => ?_, rfl⟩
          obtain ⟨i, hi, -⟩ := machineInt?_of_inInt64 hrange
          rw [hmachine] at hi
          cases hi
      | some i =>
          rw [hmachine] at h
          cases h

/-- A token writes one key at most. -/
theorem WritesKey.unique {t : Token} {key key' : String} (h : t.WritesKey key)
    (h' : t.WritesKey key') : key = key' := by
  cases h with
  | string hwrites =>
      cases h' with
      | string hwrites' => rw [hwrites.unique hwrites']
      | word hkind => exact absurd rfl hkind
  | word hkind =>
      cases h' with
      | string => exact absurd rfl hkind
      | word => rfl

theorem WritesKey.not_hasUnknownEscape {t : Token} {key : String} (h : t.WritesKey key)
    (hkind : t.kind = .string) {c : Char} : ¬HasUnknownEscape t.text c := by
  cases h with
  | string hwrites => exact fun hunknown => hunknown.not_writesString hwrites
  | word hne => exact absurd hkind hne

end Token

/-! ## Sequences -/

theorem exists_of_forall₂ {α β : Type} {R : α → β → Prop} {as : List α} {bs : List β}
    (h : List.Forall₂ R as bs) {a : α} (ha : a ∈ as) : ∃ b ∈ bs, R a b := by
  induction h with
  | nil => cases ha
  | cons hfirst _ ih =>
      rcases List.mem_cons.1 ha with rfl | ha
      · exact ⟨_, List.mem_cons_self, hfirst⟩
      · obtain ⟨b, hb, hab⟩ := ih ha
        exact ⟨b, List.mem_cons_of_mem _ hb, hab⟩

namespace SourceTree

variable {source : Source}

theorem exists_of_toSyntaxAll_eq_error {e : Error} : ∀ {items : List SourceTree},
    toSyntaxAll source items = .error e → ∃ t ∈ items, t.toSyntax source = .error e
  | [], h => by cases h
  | t :: rest, h => by
      rw [toSyntaxAll] at h
      rcases Except.bind_eq_error.1 h with hfirst | ⟨stx, -, h⟩
      · exact ⟨t, List.mem_cons_self, hfirst⟩
      · rcases Except.bind_eq_error.1 h with hrest | ⟨stxs, -, h⟩
        · obtain ⟨t', ht', herror⟩ := exists_of_toSyntaxAll_eq_error hrest
          exact ⟨t', List.mem_cons_of_mem _ ht', herror⟩
        · cases h

theorem toFields_eq_ok : ∀ {fields : List (FieldHead × SourceTree)}
    {before found : List (String × Syntax)}, toFields source fields before = .ok found →
    ∃ keys stxs,
      List.Forall₂ (fun field key => Token.fieldKey source field.1 = .ok key) fields keys ∧
      List.Forall₂ (fun field stx => field.2.toSyntax source = .ok stx) fields stxs ∧
      keys.Nodup ∧ (∀ key ∈ keys, Fields.get? key before = none) ∧
      found = (keys.zip stxs).foldl (fun found field => Fields.insert field.1 field.2 found) before
  | [], before, found, h => by
      cases h
      exact ⟨[], [], .nil, .nil, .nil, by simp, rfl⟩
  | (head, t) :: rest, before, found, h => by
      rw [toFields] at h
      obtain ⟨key, hkey, h⟩ := Except.bind_eq_ok.1 h
      obtain ⟨stx, hvalue, h⟩ := Except.bind_eq_ok.1 h
      split at h
      · cases h
      · rename_i hnew
        obtain ⟨keys, stxs, hkeys, hvalues, hdistinct, hbefore, rfl⟩ := toFields_eq_ok h
        have hlater := fun key hkey => Fields.get?_insert_eq_none.1 (hbefore key hkey)
        refine ⟨key :: keys, stx :: stxs, .cons hkey hkeys, .cons hvalue hvalues, ?_, ?_, rfl⟩
        · exact List.nodup_cons.2 ⟨fun hmem => (hlater key hmem).1 rfl, hdistinct⟩
        · exact List.forall_mem_cons.2 ⟨hnew, fun key hkey => (hlater key hkey).2⟩

/-- The fields are refused for one of their keys, for one of their values, or because the key of a
field is that of a field before it. -/
theorem toFields_eq_error {e : Error} : ∀ {fields : List (FieldHead × SourceTree)}
    {before : List (String × Syntax)}, toFields source fields before = .error e →
    (∃ field ∈ fields, Token.fieldKey source field.1 = .error e) ∨
    (∃ field ∈ fields, field.2.toSyntax source = .error e) ∨
    ∃ field ∈ fields, ∃ key, Token.fieldKey source field.1 = .ok key ∧
      e = .inSource (.parse (.duplicateField key)) source field.1.span ∧
      (Fields.get? key before ≠ none ∨
        ∃ earlier, [earlier, field].Sublist fields ∧ Token.fieldKey source earlier.1 = .ok key)
  | [], _, h => by cases h
  | (head, t) :: rest, before, h => by
      rw [toFields] at h
      rcases Except.bind_eq_error.1 h with hkey | ⟨key, hkey, h⟩
      · exact .inl ⟨_, List.mem_cons_self, hkey⟩
      rcases Except.bind_eq_error.1 h with hvalue | ⟨stx, -, h⟩
      · exact .inr (.inl ⟨_, List.mem_cons_self, hvalue⟩)
      split at h
      · rename_i hold
        cases h
        refine .inr (.inr ⟨_, List.mem_cons_self, key, hkey, rfl, .inl ?_⟩)
        rw [hold]
        rintro ⟨⟩
      · rcases toFields_eq_error h with ⟨field, hmem, herror⟩ | ⟨field, hmem, herror⟩ |
          ⟨field, hmem, key', hkey', he, hseen⟩
        · exact .inl ⟨field, List.mem_cons_of_mem _ hmem, herror⟩
        · exact .inr (.inl ⟨field, List.mem_cons_of_mem _ hmem, herror⟩)
        · refine .inr (.inr ⟨field, List.mem_cons_of_mem _ hmem, key', hkey', he, ?_⟩)
          rcases hseen with hseen | ⟨earlier, hfields, hearlier⟩
          · -- The key was seen at the first of these fields, or before all of them.
            by_cases heq : key = key'
            · subst heq
              exact .inr ⟨(head, t), (List.singleton_sublist.2 hmem).cons_cons _, hkey⟩
            · exact .inl fun hnone => hseen (Fields.get?_insert_eq_none.2 ⟨heq, hnone⟩)
          · exact .inr ⟨earlier, hfields.cons _, hearlier⟩

/-! ## Trees -/

/-- What reading the tree comes to: the form that it writes, or a defect of one of its parts. -/
structure Settled (source : Source) (t : SourceTree) : Prop where
  writes : ∀ stx, t.toSyntax source = .ok stx → t.Writes stx
  refuses : ∀ e, t.toSyntax source = .error e → source.Refuses t e

theorem forall₂_writes {items : List SourceTree} {stxs : List Syntax}
    (h : ∀ t ∈ items, Settled source t) (hstxs : toSyntaxAll source items = .ok stxs) :
    List.Forall₂ Writes items stxs :=
  ((List.forall₂_and_left _ _).2 ⟨h, forall₂_toSyntaxAll hstxs⟩).imp
    fun _ stx h => h.1.writes stx h.2

end SourceTree

theorem Source.Refuses.of_part {source : Source} {t t' : SourceTree} {e : Error}
    (h : source.Refuses t e) (hparts : ∀ {part}, t.HasPart part → t'.HasPart part) :
    source.Refuses t' e := by
  obtain ⟨part, fault, span, hpart, hdefect, he⟩ := h
  exact ⟨part, fault, span, hparts hpart, hdefect, he⟩

namespace SourceTree

variable {source : Source}

theorem settled_token {notes : List String} {t : Token} (ht : t.Lexed) :
    Settled source (.token notes t) where
  writes stx h := by
    rw [toSyntax] at h
    obtain ⟨a, ha, heq⟩ := Except.bind_eq_ok.1 h
    cases heq
    exact .token (Token.writes_of_atom ht ha)
  refuses e h := by
    rw [toSyntax] at h
    rcases Except.bind_eq_error.1 h with herror | ⟨a, -, h⟩
    · obtain ⟨fault, hdefect, he⟩ := Token.defect_of_atom ht herror notes
      exact ⟨_, fault, t.span, .self, hdefect, he⟩
    · cases h

theorem Settled.quoted {notes : List String} {span : Span} {inner : SourceTree}
    (h : Settled source inner) : Settled source (.quoted notes span inner) where
  writes stx hstx := by
    rw [toSyntax] at hstx
    obtain ⟨found, hfound, heq⟩ := Except.bind_eq_ok.1 hstx
    cases heq
    exact .quoted (h.writes found hfound)
  refuses e he := by
    rw [toSyntax] at he
    rcases Except.bind_eq_error.1 he with herror | ⟨found, -, he⟩
    · exact (h.refuses e herror).of_part .quoted
    · cases he

theorem settled_group {notes : List String} {span : Span} {shape : Shape}
    {items : List SourceTree} (h : ∀ t ∈ items, Settled source t) :
    Settled source (.group notes span shape items) where
  writes stx hstx := by
    rw [toSyntax] at hstx
    obtain ⟨stxs, hstxs, heq⟩ := Except.bind_eq_ok.1 hstx
    cases heq
    exact .group (forall₂_writes h hstxs)
  refuses e he := by
    rw [toSyntax] at he
    rcases Except.bind_eq_error.1 he with herror | ⟨stxs, -, he⟩
    · obtain ⟨t, ht, herror⟩ := exists_of_toSyntaxAll_eq_error herror
      exact ((h t ht).refuses e herror).of_part (.item ht)
    · cases he

theorem settled_record {notes : List String} {span : Span}
    {fields : List (FieldHead × SourceTree)} (hkeys : ∀ field ∈ fields, field.1.key.Lexed)
    (h : ∀ field ∈ fields, Settled source field.2) :
    Settled source (.record notes span fields) where
  writes stx hstx := by
    rw [toSyntax] at hstx
    obtain ⟨found, hfound, heq⟩ := Except.bind_eq_ok.1 hstx
    cases heq
    obtain ⟨keys, stxs, hnames, hvalues, hdistinct, -, rfl⟩ := toFields_eq_ok hfound
    refine .record (List.forall₂_map_left_iff.2 ?_) hdistinct (List.forall₂_map_left_iff.2 ?_)
    · exact hnames.imp fun _ _ hkey => Token.writesKey_of_fieldKey hkey
    · exact ((List.forall₂_and_left _ _).2 ⟨h, hvalues⟩).imp fun _ stx h => h.1.writes stx h.2
  refuses e he := by
    rw [toSyntax] at he
    rcases Except.bind_eq_error.1 he with herror | ⟨found, -, he⟩
    · rcases toFields_eq_error herror with ⟨field, hmem, hkey⟩ | ⟨field, hmem, hvalue⟩ |
        ⟨field, hmem, key, hkey, rfl, hseen | ⟨earlier, hfields, hearlier⟩⟩
      · obtain ⟨c, hkind, hunknown, rfl⟩ := Token.unknown_of_fieldKey (hkeys field hmem) hkey
        exact ⟨_, _, _, .self, .key hmem hkind hunknown, rfl⟩
      · exact ((h field hmem).refuses e hvalue).of_part (.field hmem)
      · exact absurd rfl hseen
      · exact ⟨_, _, _, .self, .twice hfields (Token.writesKey_of_fieldKey hearlier)
          (Token.writesKey_of_fieldKey hkey), rfl⟩
    · cases he

/-- By induction on the tree. -/
theorem Lexed.settled {t : SourceTree} (h : t.Lexed) (source : Source) : Settled source t := by
  induction h with
  | token _ ht => exact settled_token ht
  | quoted _ _ ih => exact ih.quoted
  | group _ _ ih => exact settled_group ih
  | record _ hkeys _ ih => exact settled_record hkeys ih

/-! ## Defects -/

/-- Every part of a tree that writes a form writes one. -/
theorem HasPart.exists_writes {t part : SourceTree} (h : t.HasPart part) {stx : Syntax}
    (hstx : t.Writes stx) : ∃ stx', part.Writes stx' := by
  induction h generalizing stx with
  | self => exact ⟨stx, hstx⟩
  | quoted _ ih =>
      cases hstx with
      | quoted hinner => exact ih hinner
  | item hmem _ ih =>
      cases hstx with
      | group hitems =>
          obtain ⟨stx', -, hitem⟩ := exists_of_forall₂ hitems hmem
          exact ih hitem
  | field hmem _ ih =>
      cases hstx with
      | record _ _ hvalues =>
          obtain ⟨stx', -, hvalue⟩ := exists_of_forall₂ hvalues (List.mem_map_of_mem hmem)
          exact ih hvalue

/-- Tokens that write distinct keys do not write the same key twice. -/
theorem pairwise_of_nodup {keyTokens : List Token} {keys : List String}
    (h : List.Forall₂ Token.WritesKey keyTokens keys) (hdistinct : keys.Nodup) :
    keyTokens.Pairwise fun first second => ∀ key, first.WritesKey key → ¬second.WritesKey key := by
  induction h with
  | nil => exact .nil
  | cons hfirst hrest ih =>
      obtain ⟨hnew, hdistinct⟩ := List.nodup_cons.1 hdistinct
      refine .cons (fun second hsecond key hkey hkey' => hnew ?_) (ih hdistinct)
      obtain ⟨other, hmem, hother⟩ := exists_of_forall₂ hrest hsecond
      rw [hfirst.unique hkey, hkey'.unique hother]
      exact hmem

/-- A tree with a defect of its own writes no form. -/
theorem Defect.not_writes {t : SourceTree} {fault : ParseFault} {span : Span}
    (h : t.Defect fault span) (stx : Syntax) : ¬t.Writes stx := by
  intro hstx
  cases h with
  | int hn hrange =>
      cases hstx with
      | token hatom =>
          cases hatom with
          | @int _ _ i hi =>
              -- Both are the value that the reader computes.
              rw [← intValue_eq hn, intValue_eq hi] at hrange
              exact hrange (inInt64_toInt i)
  | string hunknown =>
      cases hstx with
      | token hatom =>
          cases hatom with
          | string hwrites => exact hunknown.not_writesString hwrites
  | key hmem hkind hunknown =>
      cases hstx with
      | record hkeys _ _ =>
          obtain ⟨key, -, hkey⟩ := exists_of_forall₂ hkeys (List.mem_map_of_mem hmem)
          exact hkey.not_hasUnknownEscape hkind hunknown
  | @twice notes span fields first second key hfields hfirst hsecond =>
      cases hstx with
      | record hkeys hdistinct _ =>
          have hkeyFields := hfields.map fun field : FieldHead × SourceTree => field.1.key
          exact List.pairwise_iff_forall_sublist.1 (pairwise_of_nodup hkeys hdistinct) hkeyFields
            key hfirst hsecond

end SourceTree

/-! ## Texts -/

/-- For every text that the grammar accepts, reading fails exactly if some part of the text, at any
depth, has a defect: an int out of range, an unknown escape or a key for two fields.  A failure
reports such a defect, hence no dangling escape.  Without one, the text is read as the forms that it
writes, with the exact integers and the unescaped strings.

Building the forms from the matches of the grammar, whatever is passed over in them, comes to the
same.  Hence none of the failures to take matches apart ever comes about. -/
theorem Source.read_of_program {source : Source} {trees : List SourceTree}
    (h : program source.text.toList = .ok trees) :
    ((∃ e, source.read = .error e) ↔
      ∃ t ∈ trees, ∃ part fault span, t.HasPart part ∧ part.Defect fault span) ∧
    (∀ e, source.read = .error e → ∃ t ∈ trees, source.Refuses t e) ∧
    (∀ forms, source.read = .ok forms → List.Forall₂ SourceTree.Writes trees forms) ∧
    ∀ around whole stop,
      Pair.read source [SourceTree.programPair around trees whole stop] = source.read := by
  have hsettled := fun t ht => (lexed_of_program h t ht).settled source
  have hread : source.read = SourceTree.toSyntaxAll source trees := by rw [read, h]
  have hrefuses : ∀ e, source.read = .error e → ∃ t ∈ trees, source.Refuses t e := by
    intro e he
    rw [hread] at he
    obtain ⟨t, ht, herror⟩ := SourceTree.exists_of_toSyntaxAll_eq_error he
    exact ⟨t, ht, (hsettled t ht).refuses e herror⟩
  have hwrites : ∀ forms, source.read = .ok forms → List.Forall₂ SourceTree.Writes trees forms := by
    intro forms hforms
    rw [hread] at hforms
    exact SourceTree.forall₂_writes hsettled hforms
  refine ⟨⟨?_, ?_⟩, hrefuses, hwrites, fun around => Pair.read_program around h⟩
  · rintro ⟨e, he⟩
    obtain ⟨t, ht, part, fault, span, hpart, hdefect, -⟩ := hrefuses e he
    exact ⟨t, ht, part, fault, span, hpart, hdefect⟩
  · rintro ⟨t, ht, part, fault, span, hpart, hdefect⟩
    cases hresult : source.read with
    | error e => exact ⟨e, rfl⟩
    | ok forms =>
        -- In a text that is read every part writes something, and no defect does.
        obtain ⟨stx, -, hstx⟩ := exists_of_forall₂ (hwrites forms hresult) ht
        obtain ⟨stx', hpartStx⟩ := hpart.exists_writes hstx
        exact absurd hpartStx (hdefect.not_writes stx')

/-- A record inside a list, with a string and a symbol for the same key. -/
def twiceSource : Source := ⟨"input", "[\x7b\"a\": 1, a: 2\x7d]"⟩

theorem read_of_program_twiceSource : ∃ trees,
    program twiceSource.text.toList = .ok trees ∧ ∃ e, twiceSource.read = .error e := by
  have htext : twiceSource.text.toList =
      ['[', '\x7b', '"', 'a', '"', ':', ' ', '1', ',', ' ', 'a', ':', ' ', '2', '\x7d', ']'] := by
    decide
  have hprogram : program twiceSource.text.toList = .ok [.group [] ⟨0, 16⟩ .list
      [.record [] ⟨1, 15⟩
        [(⟨⟨2, 8⟩, .string, ['a'], ⟨2, 5⟩⟩, .token [] ⟨.int, ['1'], ⟨7, 8⟩⟩),
          (⟨⟨10, 14⟩, .symbol, ['a'], ⟨10, 11⟩⟩, .token [] ⟨.int, ['2'], ⟨13, 14⟩⟩)]]] := by
    rw [htext]
    rfl
  have hstring : WritesString ['a'] ['a'] := .plain (by decide) .nil
  exact ⟨_, hprogram, (Source.read_of_program hprogram).1.2 ⟨_, List.mem_singleton_self _, _, _, _,
    .item (List.mem_singleton_self _) .self,
    .twice (.refl _) (.string hstring) (.word (by decide))⟩⟩

end HygienicLisp
