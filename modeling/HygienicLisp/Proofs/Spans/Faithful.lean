import HygienicLisp.Proofs.Spans.Spelling

/-!
# Ranges are faithful

The range of a form covers the characters that spell it: these are read by themselves as the form,
without its annotations and with its ranges moved back to the beginning.  The ranges of the parts of
a form lie in its own range, and those of forms that follow each other do so in the text
(`Source.read_faithful`).

The quote character is no form.  It stands for the symbol `quote`, whose range it is.
-/

namespace HygienicLisp

open Grammar

namespace Syntax

/-- The forms directly inside a form. -/
def children : Syntax → List Syntax
  | atom _ _ => []
  | group _ _ items => items
  | record _ fields => fields.map (·.2)

/-- A form and the forms inside it. -/
inductive PartOf (root : Syntax) : Syntax → Prop
  | root : PartOf root root
  | child {form part : Syntax} (h : PartOf root form) (hpart : part ∈ form.children) :
      PartOf root part

/-- The forms were read one after the other. -/
def InOrder (forms : List Syntax) : Prop :=
  forms.Pairwise fun stx later => ∃ first second, stx.span = some first ∧
    later.span = some second ∧ first.stop ≤ second.start

/-- The range of the form lies in the text and covers a piece of it.  The piece is the quote
character, which stands for the symbol `quote`, or it is read by itself as the form without its
annotations, with all ranges moved back to the beginning of the piece. -/
def Readable (text : String) (stx : Syntax) : Prop :=
  ∃ before piece after : String, text = before ++ piece ++ after ∧
    stx.span = some ⟨before.utf8ByteSize, before.utf8ByteSize + piece.utf8ByteSize⟩ ∧
    (piece = "'" ∧ stx.symbol? = some "quote" ∨
      ∃ alone, readOne piece = .ok alone ∧ alone.shift before.utf8ByteSize = stx.withNotes [])

/-- The form can be read where it stands, the ranges of the forms directly inside it lie in its own,
and those of the items of a sequence follow each other. -/
structure Faithful (text : String) (stx : Syntax) : Prop where
  readable : stx.Readable text
  inside : ∀ child ∈ stx.children, ∃ outer inner, stx.span = some outer ∧
    child.span = some inner ∧ outer.Inside inner
  inOrder : ∀ c shape items, stx = .group c shape items → InOrder items

end Syntax

/-! ## From trees to forms -/

theorem Span.Covers.exists_strings {source : Source} {span : Span} {piece : List Char}
    (h : span.Covers source.text.toList piece) : ∃ before after : String,
      source.text = before ++ String.ofList piece ++ after ∧
      span = ⟨before.utf8ByteSize, before.utf8ByteSize + (String.ofList piece).utf8ByteSize⟩ := by
  obtain ⟨before, after, htext, hspan⟩ := h
  have hsize : ∀ chars : List Char, byteLength chars = (String.ofList chars).utf8ByteSize :=
    fun chars => by rw [← byteLength_toList, String.toList_ofList]
  refine ⟨String.ofList before, String.ofList after, ?_, ?_⟩
  · rw [← String.ofList_append, ← String.ofList_append, List.append_assoc, ← htext,
      String.ofList_toList]
  · rw [hspan, hsize, hsize]

namespace SourceTree

variable {source : Source} {t : SourceTree} {stx : Syntax}

theorem span_toSyntax (h : t.toSyntax source = .ok stx) : stx.span = some t.span := by
  cases t with
  | token | quoted | group | record =>
      rw [toSyntax] at h
      obtain ⟨found, -, heq⟩ := Except.bind_eq_ok.1 h
      cases heq
      rfl

/-- Without its annotations a tree denotes the form without the annotations. -/
theorem toSyntax_unnoted (h : t.toSyntax source = .ok stx) :
    t.unnoted.toSyntax source = .ok (stx.withNotes []) := by
  cases t with
  | token | quoted | group | record =>
      rw [toSyntax] at h
      obtain ⟨found, hfound, heq⟩ := Except.bind_eq_ok.1 h
      cases heq
      rw [unnoted, toSyntax, hfound]
      rfl

theorem forall₂_toSyntaxAll : ∀ {items : List SourceTree} {stxs : List Syntax},
    toSyntaxAll source items = .ok stxs →
      List.Forall₂ (fun t stx => t.toSyntax source = .ok stx) items stxs
  | [], _, h => by
      cases h
      exact .nil
  | t :: rest, _, h => by
      rw [toSyntaxAll] at h
      obtain ⟨stx, hfirst, h⟩ := Except.bind_eq_ok.1 h
      obtain ⟨stxs, hrest, heq⟩ := Except.bind_eq_ok.1 h
      cases heq
      exact .cons hfirst (forall₂_toSyntaxAll hrest)

theorem exists_tree {trees : List SourceTree} {forms : List Syntax}
    (h : List.Forall₂ (fun t stx => t.toSyntax source = .ok stx) trees forms) (hstx : stx ∈ forms) :
    ∃ t ∈ trees, t.toSyntax source = .ok stx := by
  induction h with
  | nil => cases hstx
  | cons hfirst _ ih =>
      rcases List.mem_cons.1 hstx with rfl | hstx
      · exact ⟨_, List.mem_cons_self, hfirst⟩
      · obtain ⟨t, ht, htstx⟩ := ih hstx
        exact ⟨t, List.mem_cons_of_mem _ ht, htstx⟩

/-- What holds of everything that the trees of the fields denote holds of the values of the
record. -/
theorem forall_toFields {P : Syntax → Prop} : ∀ {fields : List (FieldHead × SourceTree)}
    {before found : List (String × Syntax)}, toFields source fields before = .ok found →
    (∀ f ∈ fields, ∀ stx, f.2.toSyntax source = .ok stx → P stx) →
    (∀ field ∈ before, P field.2) → ∀ field ∈ found, P field.2
  | [], _, _, h, _, hbefore => by
      cases h
      exact hbefore
  | (head, t) :: rest, before, found, h, hfields, hbefore => by
      obtain ⟨hfirst, hfields⟩ := List.forall_mem_cons.1 hfields
      rw [toFields] at h
      obtain ⟨key, hkey, h⟩ := Except.bind_eq_ok.1 h
      obtain ⟨stx, hvalue, h⟩ := Except.bind_eq_ok.1 h
      split at h
      · cases h
      · exact forall_toFields h hfields (Fields.forall_insert (hfirst stx hvalue) hbefore)

/-- The characters under the range of a tree are read by themselves as the form that it denotes. -/
theorem Faithful.readable (h : t.Faithful source.text.toList) (hstx : t.toSyntax source = .ok stx) :
    stx.Readable source.text := by
  obtain ⟨piece, t₀, hcovers, hshift, hprogram⟩ := h.spelled
  have hunnoted := toSyntax_unnoted hstx
  rw [hshift] at hunnoted
  obtain ⟨stx₀, hstx₀, heq⟩ := toSyntax_shift ⟨"input", String.ofList piece⟩ _ t₀ hunnoted
  rw [span_unnoted] at hcovers heq
  obtain ⟨before, after, htext, hspan⟩ := hcovers.exists_strings
  refine ⟨before, String.ofList piece, after, htext, ?_, .inr ⟨stx₀, ?_, ?_⟩⟩
  · rw [span_toSyntax hstx, hspan]
  · have hread : Source.read ⟨"input", String.ofList piece⟩ = .ok [stx₀] := by
      rw [Source.read, String.toList_ofList, hprogram]
      dsimp only
      rw [toSyntaxAll, hstx₀]
      rfl
    rw [readOne, hread]
    rfl
  · rw [heq, hspan]

end SourceTree

theorem Syntax.inOrder_of_trees {source : Source} {trees : List SourceTree} {forms : List Syntax}
    (h : List.Forall₂ (fun t stx => t.toSyntax source = .ok stx) trees forms)
    (hordered : trees.Pairwise fun t later => t.span.stop ≤ later.span.start) : InOrder forms := by
  induction h with
  | nil => exact .nil
  | cons hfirst hrest ih =>
      obtain ⟨hlater, hordered⟩ := List.pairwise_cons.1 hordered
      refine List.pairwise_cons.2 ⟨fun stx hstx => ?_, ih hordered⟩
      obtain ⟨t, ht, htstx⟩ := SourceTree.exists_tree hrest hstx
      exact ⟨_, _, SourceTree.span_toSyntax hfirst, SourceTree.span_toSyntax htstx, hlater t ht⟩

/-! ## What has been read -/

/-- The form is what a tree of the text denotes, or the symbol that a quote character stands for. -/
inductive Source.Gave (source : Source) : Syntax → Prop
  | tree {t : SourceTree} {stx : Syntax} (h : t.Faithful source.text.toList)
      (hstx : t.toSyntax source = .ok stx) : Gave source stx
  | quote {start : Nat} (h : Span.Covers source.text.toList ['\''] ⟨start, start + 1⟩) :
      Gave source (.atom { span := some ⟨start, start + 1⟩ } (.symbol "quote"))

namespace Source.Gave

variable {source : Source} {stx : Syntax}

/-- A child of a form lies in it, and a tree of the text or a quote character gave it. -/
theorem child (h : source.Gave stx) {part : Syntax} (hpart : part ∈ stx.children) :
    source.Gave part ∧ ∃ outer inner, stx.span = some outer ∧ part.span = some inner ∧
      outer.Inside inner := by
  cases h with
  | quote => cases hpart
  | tree h hstx =>
      cases h with
      | token hself =>
          rw [SourceTree.toSyntax] at hstx
          obtain ⟨a, -, heq⟩ := Except.bind_eq_ok.1 hstx
          cases heq
          cases hpart
      | @quoted notes span inner hself hquote hinner hstart hstop =>
          rw [SourceTree.toSyntax] at hstx
          obtain ⟨stx, hinnerStx, heq⟩ := Except.bind_eq_ok.1 hstx
          cases heq
          have hle := hinner.start_le_stop
          -- The quote character gives `quote`, and the tree behind it gives the datum.
          rcases List.mem_pair.1 hpart with rfl | rfl
          · exact ⟨.quote hquote, _, _, rfl, rfl, le_rfl, hstart.trans (hle.trans hstop)⟩
          · exact ⟨.tree hinner hinnerStx, _, _, rfl, SourceTree.span_toSyntax hinnerStx,
              (Nat.le_succ _).trans hstart, hstop⟩
      | @group notes span shape items hself hitems hinside hordered =>
          rw [SourceTree.toSyntax] at hstx
          obtain ⟨stxs, hstxs, heq⟩ := Except.bind_eq_ok.1 hstx
          cases heq
          have hall := SourceTree.forall₂_toSyntaxAll hstxs
          obtain ⟨t, ht, htstx⟩ := SourceTree.exists_tree hall hpart
          exact ⟨.tree (hitems t ht) htstx, _, _, rfl, SourceTree.span_toSyntax htstx, hinside t ht⟩
      | @record notes span fields hself hfields hinside =>
          rw [SourceTree.toSyntax] at hstx
          obtain ⟨found, hfound, heq⟩ := Except.bind_eq_ok.1 hstx
          cases heq
          obtain ⟨field, hfield, rfl⟩ := List.mem_map.1 hpart
          refine SourceTree.forall_toFields (P := fun stx => source.Gave stx ∧ ∃ outer inner,
            some span = some outer ∧ stx.span = some inner ∧ outer.Inside inner) hfound ?_ (by simp)
            field hfield
          exact fun f hf stx hstx => ⟨.tree (hfields f hf) hstx, span, f.2.span, rfl,
            SourceTree.span_toSyntax hstx, hinside f hf⟩

theorem readable (h : source.Gave stx) : stx.Readable source.text := by
  cases h with
  | tree h hstx => exact h.readable hstx
  | quote h =>
      obtain ⟨before, after, htext, hspan⟩ := h.exists_strings
      exact ⟨before, "'", after, htext, congrArg some hspan, .inl ⟨rfl, rfl⟩⟩

/-- The items of a sequence follow each other. -/
theorem inOrder (h : source.Gave stx) {c : Context} {shape : Shape} {items : List Syntax}
    (hgroup : stx = .group c shape items) : Syntax.InOrder items := by
  subst hgroup
  cases h with
  | tree h hstx =>
      cases h with
      | token =>
          rw [SourceTree.toSyntax] at hstx
          obtain ⟨a, -, heq⟩ := Except.bind_eq_ok.1 hstx
          cases heq
      | quoted hself hquote hinner hstart hstop =>
          rw [SourceTree.toSyntax] at hstx
          obtain ⟨stx, hinnerStx, heq⟩ := Except.bind_eq_ok.1 hstx
          cases heq
          exact List.pairwise_pair.2 ⟨_, _, rfl, SourceTree.span_toSyntax hinnerStx, hstart⟩
      | group hself hitems hinside hordered =>
          rw [SourceTree.toSyntax] at hstx
          obtain ⟨stxs, hstxs, heq⟩ := Except.bind_eq_ok.1 hstx
          cases heq
          exact Syntax.inOrder_of_trees (SourceTree.forall₂_toSyntaxAll hstxs) hordered
      | record =>
          rw [SourceTree.toSyntax] at hstx
          obtain ⟨found, -, heq⟩ := Except.bind_eq_ok.1 hstx
          cases heq

theorem faithful (h : source.Gave stx) : stx.Faithful source.text :=
  ⟨h.readable, fun _ hchild => (h.child hchild).2, fun _ _ _ => h.inOrder⟩

theorem part (h : source.Gave stx) {part : Syntax} (hpart : stx.PartOf part) :
    source.Gave part := by
  induction hpart with
  | root => exact h
  | child _ hchild ih => exact (ih.child hchild).1

end Source.Gave

/-- The ranges of everything that is read are faithful to the text, and the forms follow each other
in it. -/
theorem Source.read_faithful {source : Source} {forms : List Syntax} (h : source.read = .ok forms) :
    Syntax.InOrder forms ∧
      ∀ stx ∈ forms, ∀ part, stx.PartOf part → part.Faithful source.text := by
  rw [Source.read] at h
  cases hprogram : program source.text.toList with
  | error offset =>
      rw [hprogram] at h
      cases h
  | ok trees =>
      rw [hprogram] at h
      obtain ⟨hfaithful, hordered⟩ := faithful_program hprogram
      have hforms := SourceTree.forall₂_toSyntaxAll h
      refine ⟨Syntax.inOrder_of_trees hforms hordered, fun stx hstx part hpart => ?_⟩
      obtain ⟨t, ht, htstx⟩ := SourceTree.exists_tree hforms hstx
      exact (Source.Gave.part (.tree (hfaithful t ht) htstx) hpart).faithful

/-- An annotation, a character of two bytes, a quoted symbol, a comment and a record. -/
def annotatedSource : Source := ⟨"note", "n::(\"é\" 'a ;\n \x7bk: 1\x7d)"⟩

theorem read_faithful_annotatedSource : ∃ stx, annotatedSource.read = .ok [stx] ∧
    stx.span = some ⟨3, 22⟩ ∧ Syntax.InOrder [stx] ∧
      ∀ form ∈ [stx], ∀ part, form.PartOf part → part.Faithful annotatedSource.text := by
  have htext : annotatedSource.text.toList = ['n', ':', ':', '(', '"', 'é', '"', ' ', '\'', 'a',
      ' ', ';', '\n', ' ', '\x7b', 'k', ':', ' ', '1', '\x7d', ')'] := by
    decide
  have hread : ∃ stx, annotatedSource.read = .ok [stx] ∧ stx.span = some ⟨3, 22⟩ := by
    rw [Source.read, htext]
    exact ⟨_, rfl, rfl⟩
  obtain ⟨stx, hstx, hspan⟩ := hread
  exact ⟨stx, hstx, hspan, Source.read_faithful hstx⟩

end HygienicLisp
