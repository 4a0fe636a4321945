import HygienicLisp.Proofs.Namespaces.FilingKeys
import HygienicLisp.Proofs.Reexports.Names
import HygienicLisp.Module.Loading

/-!
# The order of imports

A list of imports can be made in one order if it can be made in every other.  Whether it can is read
off from what is there before (`Namespace.Accepts`): no cell may exclude an import, and imports under
one key must be of one definition.  The tables that two orders lead to differ in the positions of
the new cells and in the names under which definitions were provided; every key leads to the same
definition, and it is alike shadowable.

An identifier that carries the module rename of the namespace is filed under what it denotes in the
namespace itself, so an import of the plain name changes where it is filed.  Such identifiers are
left out.

Main statement: imports that are not of the language commute (`World.requireEach_perm`).
-/

namespace HygienicLisp

/-- What a cell with the content denotes. -/
def Content.denoted : Content → Denotation
  | .defined d => .defined d
  | .required i => .required i

/-- The same denotation, or imports of the same definition that are alike shadowable. -/
inductive Denotation.Alike : Denotation → Denotation → Prop
  | refl (d : Denotation) : Alike d d
  | required {i i' : Import} : i.provided.target = i'.provided.target →
      i.shadowable = i'.shadowable → Alike (.required i) (.required i')

/-! ## One table -/

namespace Namespace

variable {space space' left right : Namespace} {imports imports' : List (Key × Provided)}

/-- Imports provided definitions under keys, in order. -/
def requireEach (space : Namespace) (imports : List (Key × Provided)) : Except Conflict Namespace :=
  imports.foldlM (fun space e => space.require e.1 e.2 false) space

/-- The imports can be made: no cell excludes one of them, and those under one key agree. -/
structure Accepts (space : Namespace) (imports : List (Key × Provided)) : Prop where
  allowed : ∀ e ∈ imports, ∀ content, space.holding? e.1 = some content →
    ¬content.Excludes e.2.target
  agreeing : ∀ e ∈ imports, ∀ e' ∈ imports, e.1 = e'.1 → e.2.target = e'.2.target

@[simp] theorem accepts_nil (space : Namespace) : space.Accepts [] := ⟨nofun, nofun⟩

theorem Accepts.perm (h : space.Accepts imports) (hperm : imports.Perm imports') :
    space.Accepts imports' where
  allowed e he := h.allowed e (hperm.mem_iff.2 he)
  agreeing e he e' he' := h.agreeing e (hperm.mem_iff.2 he) e' (hperm.mem_iff.2 he')

/-- An explicit import of a definition excludes exactly the other definitions. -/
theorem not_excludes_required {i : Import} (hexplicit : i.shadowable = false) {target : Definition} :
    ¬(Content.required i).Excludes target ↔ i.provided.target = target := by
  simp [Content.Excludes, hexplicit]

/-- Once an import is made, the others can be made if all could be made before. -/
theorem accepts_cons_iff {e : Key × Provided} (h : space.require e.1 e.2 false = .ok space') :
    space.Accepts (e :: imports) ↔ space'.Accepts imports := by
  obtain ⟨i, htarget, hexplicit, hholding, -⟩ := holding?_require h
  -- Once imported explicitly, the name stands for the target of `e` and excludes any other.
  have hnow : ∀ {target}, ¬(Content.required i).Excludes target ↔ e.2.target = target := by
    intro target
    rw [not_excludes_required (hexplicit rfl), htarget]
  have hhere : space'.holding? e.1 = some (.required i) := (hholding e.1).trans (if_pos rfl)
  have hfirst : ∀ content, space.holding? e.1 = some content → ¬content.Excludes e.2.target := by
    intro content hcontent hexcluded
    obtain ⟨conflict, hconflict⟩ : ∃ conflict, space.require e.1 e.2 false = .error conflict :=
      require_refused_iff.2 ⟨content, hcontent, hexcluded⟩
    cases h.symm.trans hconflict
  constructor
  · intro haccepts
    refine ⟨fun e' he' content hcontent => ?_, fun e' he' e'' he'' => ?_⟩
    · rw [hholding] at hcontent
      split at hcontent
      · rename_i hsame
        cases hcontent
        exact hnow.2 (haccepts.agreeing e List.mem_cons_self e' (List.mem_cons_of_mem e he')
          hsame.symm)
      · exact haccepts.allowed e' (List.mem_cons_of_mem e he') content hcontent
    · exact haccepts.agreeing e' (List.mem_cons_of_mem e he') e'' (List.mem_cons_of_mem e he'')
  · intro haccepts
    have hagrees : ∀ e' ∈ imports, e.1 = e'.1 → e.2.target = e'.2.target :=
      fun e' he' hsame => hnow.1 (haccepts.allowed e' he' _ (hsame ▸ hhere))
    refine ⟨fun e' he' content hcontent => ?_, fun e' he' e'' he'' hsame => ?_⟩
    · rcases List.mem_cons.1 he' with rfl | he'
      · exact hfirst content hcontent
      · by_cases hsame : e'.1 = e.1
        · rw [← hagrees e' he' hsame.symm]
          exact hfirst content (hsame ▸ hcontent)
        · exact haccepts.allowed e' he' content (by rw [hholding, if_neg hsame, hcontent])
    · rcases List.mem_cons.1 he' with rfl | hlater <;> rcases List.mem_cons.1 he'' with rfl | hlater'
      · rfl
      · exact hagrees e'' hlater' hsame
      · exact (hagrees e' hlater hsame.symm).symm
      · exact haccepts.agreeing e' hlater e'' hlater' hsame

/-- Imports can be made in order exactly if they are accepted. -/
theorem requireEach_isOk_iff :
    (∃ space', space.requireEach imports = .ok space') ↔ space.Accepts imports := by
  induction imports generalizing space with
  | nil => exact iff_of_true ⟨_, rfl⟩ (accepts_nil _)
  | cons e imports ih =>
      rw [requireEach, List.foldlM_cons]
      cases h : space.require e.1 e.2 false with
      | error conflict =>
          refine iff_of_false (fun hok => nomatch hok) fun haccepts => ?_
          obtain ⟨content, hcontent, hexcluded⟩ := require_refused_iff.1 ⟨conflict, h⟩
          exact haccepts.allowed e List.mem_cons_self content hcontent hexcluded
      | ok space₁ => exact ih.trans (accepts_cons_iff h).symm

/-- What imports that have been made come to. -/
structure Imported (before : Namespace) (imports : List (Key × Provided)) (after : Namespace) :
    Prop where
  grows : before.Grows after
  others : ∀ key, (∀ e ∈ imports, e.1 ≠ key) → after.holding? key = before.holding? key
  explicit : ∀ e ∈ imports, ∃ i : Import, after.holding? e.1 = some (.required i) ∧
    i.provided.target = e.2.target ∧ i.shadowable = false

theorem imported_requireEach (h : space.requireEach imports = .ok space') :
    space.Imported imports space' := by
  have haccepts : space.Accepts imports := requireEach_isOk_iff.1 ⟨space', h⟩
  induction imports generalizing space with
  | nil =>
      cases h
      exact ⟨.refl _, fun _ _ => rfl, nofun⟩
  | cons e imports ih =>
      rw [requireEach, List.foldlM_cons] at h
      cases hfirst : space.require e.1 e.2 false with
      | error conflict => rw [hfirst] at h; cases h
      | ok space₁ =>
          rw [hfirst] at h
          obtain ⟨i, htarget, hexplicit, hholding, -⟩ := holding?_require hfirst
          have hrest := ih h ((accepts_cons_iff hfirst).1 haccepts)
          refine ⟨(grows_require hfirst).trans hrest.grows, fun key hkey => ?_, fun e' he' => ?_⟩
          · rw [hrest.others key fun e' he' => hkey e' (List.mem_cons_of_mem e he'), hholding,
              if_neg (hkey e List.mem_cons_self).symm]
          · rcases List.mem_cons.1 he' with rfl | he'
            -- A later import of the same key replaces this one, but has the same target.
            · by_cases hlater : ∃ e'' ∈ imports, e''.1 = e'.1
              · obtain ⟨e'', he'', hsame⟩ := hlater
                obtain ⟨i', hi', htarget', hexplicit'⟩ := hrest.explicit e'' he''
                refine ⟨i', hsame ▸ hi', htarget'.trans ?_, hexplicit'⟩
                exact haccepts.agreeing e'' (List.mem_cons_of_mem _ he'') e' List.mem_cons_self
                  hsame
              · refine ⟨i, ?_, htarget, hexplicit rfl⟩
                rw [hrest.others e'.1 fun e'' he'' hsame => hlater ⟨e'', he'', hsame⟩, hholding,
                  if_pos rfl]
            · exact hrest.explicit e' he'

/-- What two orders come to is alike under every key. -/
theorem Imported.alike (h : space.Imported imports left) (h' : space.Imported imports' right)
    (hperm : imports.Perm imports') (key : Key) :
    Option.Rel (fun c c' => c.denoted.Alike c'.denoted) (left.holding? key)
      (right.holding? key) := by
  by_cases hkey : ∃ e ∈ imports, e.1 = key
  · obtain ⟨e, he, rfl⟩ := hkey
    obtain ⟨i, hi, htarget, hexplicit⟩ := h.explicit e he
    obtain ⟨i', hi', htarget', hexplicit'⟩ := h'.explicit e (hperm.mem_iff.1 he)
    rw [hi, hi']
    exact .some (.required (htarget.trans htarget'.symm) (hexplicit.trans hexplicit'.symm))
  · rw [h.others key fun e he hsame => hkey ⟨e, he, hsame⟩,
      h'.others key fun e he hsame => hkey ⟨e, hperm.mem_iff.2 he, hsame⟩]
    cases space.holding? key with
    | none => exact .none
    | some content => exact .some (.refl _)

theorem Imported.mem_keys (h : space.Imported imports space') {key : Key}
    (hkey : key ∈ space'.keys) : key ∈ space.keys ∨ ∃ e ∈ imports, e.1 = key := by
  by_contra hneither
  push Not at hneither
  obtain ⟨hold, hnew⟩ := hneither
  rw [← holding?_eq_none_iff, ← h.others key hnew] at hold
  exact holding?_eq_none_iff.1 hold hkey

end Namespace

/-! ## All namespaces -/

namespace Spaces

variable {base after left right : Spaces} {ns : NamespaceId} {name : String}

/-- Imports provided definitions under identifiers, in order. -/
def requireEach (spaces : Spaces) (ns : NamespaceId) (imports : List (Syntax × Provided)) :
    Except Error Spaces :=
  imports.foldlM (fun spaces e => spaces.require ns e.1 e.2 false) spaces

/-- The keys under which a namespace files the identifiers of imports. -/
def filed (spaces : Spaces) (ns : NamespaceId) (imports : List (Syntax × Provided)) :
    List (Key × Provided) :=
  imports.map fun e => (spaces.filingKey ns e.1 (e.1.symbol?.getD ""), e.2)

/-- The identifiers of imports can be filed by a namespace, whatever it holds. -/
def Fileable (ns : NamespaceId) (imports : List (Syntax × Provided)) : Prop :=
  ∀ e ∈ imports, e.1.symbol?.isSome ∧ .moduleRename ns ∉ e.1.wraps

/-- A change of the namespace does not change where it files an identifier. -/
theorem filingKey_congr {spaces' : Spaces} {stx : Syntax}
    (hothers : ∀ other, other ≠ ns → spaces'[other]? = base[other]?)
    (hreached : .moduleRename ns ∉ stx.wraps) :
    spaces'.filingKey ns stx name = base.filingKey ns stx name := by
  rw [filingKey_eq, filingKey_eq, outside, outside, outside_congr hothers hreached]

theorem filed_congr {spaces' : Spaces} {imports : List (Syntax × Provided)}
    (hothers : ∀ other, other ≠ ns → spaces'[other]? = base[other]?)
    (hfile : Fileable ns imports) : spaces'.filed ns imports = base.filed ns imports :=
  List.map_congr_left fun e he => by rw [filingKey_congr hothers (hfile e he).2]

theorem require_eq {stx : Syntax} {space : Namespace} (hname : stx.symbol? = some name)
    (hspace : base[ns]? = some space) (provided : Provided) (shadowable : Bool) :
    base.require ns stx provided shadowable =
      match space.require (base.filingKey ns stx name) provided shadowable with
      | .error conflict => .error (.atForm (.ambiguous name conflict) stx)
      | .ok space' => .ok (base.setIfInBounds ns space') := by
  cases hrequire : space.require (base.filingKey ns stx name) provided shadowable with
  | error conflict => simp only [require, hname, hspace, hrequire]
  | ok space' => simp only [require, hname, hspace, hrequire]

/-- Imports are made in the one table that they are asked to be made in, and fail if they do so
there. -/
theorem requireEach_spec {imports : List (Syntax × Provided)} {space : Namespace}
    (hspace : base[ns]? = some space) (hfile : Fileable ns imports) :
    match space.requireEach (base.filed ns imports) with
    | .ok space' => base.requireEach ns imports = .ok (base.setIfInBounds ns space')
    | .error _ => ∃ stx name conflict,
        base.requireEach ns imports = .error (.atForm (.ambiguous name conflict) stx) := by
  induction imports generalizing base space with
  | nil => exact congrArg Except.ok (setIfInBounds_eq_self hspace).symm
  | cons e imports ih =>
      obtain ⟨name, hname⟩ := Option.isSome_iff_exists.1 (hfile e List.mem_cons_self).1
      have hrest : Fileable ns imports := fun e' he' => hfile e' (List.mem_cons_of_mem e he')
      rw [requireEach, List.foldlM_cons, filed, List.map_cons, Namespace.requireEach,
        List.foldlM_cons, hname, Option.getD_some, require_eq hname hspace]
      cases hfirst : space.require (base.filingKey ns e.1 name) e.2 false with
      | error conflict => exact ⟨e.1, name, conflict, rfl⟩
      | ok space₁ =>
          have hspace₁ : (base.setIfInBounds ns space₁)[ns]? = some space₁ := by
            rw [getElem?_setIfInBounds_of_some hspace, if_pos rfl]
          have hothers : ∀ other, other ≠ ns →
              (base.setIfInBounds ns space₁)[other]? = base[other]? :=
            fun other hne => Array.getElem?_setIfInBounds_ne hne.symm
          have hlater := ih hspace₁ hrest
          rw [filed_congr hothers hrest] at hlater
          simp only [Array.setIfInBounds_setIfInBounds] at hlater
          exact hlater

/-! ### Two outcomes side by side -/

/-- The state came from one before by changes of a namespace, whose keys are over what was there. -/
structure Evolves (base : Spaces) (ns : NamespaceId) (after : Spaces) : Prop where
  grows : base.Grows after
  others : ∀ other, other ≠ ns → after[other]? = base[other]?
  origins : ∀ space, after[ns]? = some space → ∀ key ∈ space.keys, base.Holds key.origin

/-- What is new is found in the namespace. -/
theorem Evolves.content?_eq_none (h : base.Evolves ns after) {other : NamespaceId} {key : Key}
    {c : CellRef} (hold : base.cell? other key = none) (hc : after.cell? other key = some c) :
    other = ns ∧ base.content? c = none := by
  refine ⟨?_, h.grows.lacks_of_answer? (q := (other, key)) hold hc⟩
  by_contra hne
  rw [Spaces.cell?_of_getElem?_eq (h.others other hne)] at hc
  cases hold.symm.trans hc

/-- Nothing is filed over what is new. -/
theorem Evolves.cell?_eq_none (h : base.Evolves ns after) (hclosed : base.Closed)
    {other : NamespaceId} {key : Key} {c : CellRef} (hnew : base.content? c = none)
    (horigin : key.origin = .cell c) : after.cell? other key = none := by
  by_contra hfound
  obtain ⟨found, hfound⟩ := Option.ne_none_iff_exists'.1 hfound
  obtain ⟨space, hspace, hkey⟩ := mem_keys_of_cell? hfound
  have hholds : base.Holds key.origin := by
    by_cases hsame : other = ns
    · exact h.origins space (hsame ▸ hspace) key hkey
    · exact hclosed other space ((h.others other hsame).symm.trans hspace) key hkey
  have hthere := hholds c horigin
  rw [hnew] at hthere
  cases hthere

/-- Two states that came from one have the same keys, and what a key leads to is alike. -/
structure Diverge (base : Spaces) (ns : NamespaceId) (left right : Spaces) : Prop where
  closed : base.Closed
  live : base.Live
  nodup : ∀ space, base[ns]? = some space → space.keys.Nodup
  evolves : base.Evolves ns left
  evolves' : base.Evolves ns right
  alike : ∀ key, Option.Rel
    (fun c c' => (left.denote (.cell c)).Alike (right.denote (.cell c')))
    (left.cell? ns key) (right.cell? ns key)

/-- Bindings that correspond: a binding of before, or the new cells under one key. -/
inductive Counterpart (base : Spaces) (ns : NamespaceId) (left right : Spaces) :
    Binding → Binding → Prop
  | old {b : Binding} : base.Holds b → Counterpart base ns left right b b
  | new {key : Key} {c c' : CellRef} : base.content? c = none → base.content? c' = none →
      left.cell? ns key = some c → right.cell? ns key = some c' →
      Counterpart base ns left right (.cell c) (.cell c')

namespace Diverge

/-- The two states answer a question by cells that correspond. -/
theorem answer? (h : Diverge base ns left right) (q : Query) :
    Option.Rel (fun c c' => Counterpart base ns left right (.cell c) (.cell c'))
      (left.answer? q) (right.answer? q) := by
  obtain ⟨other, key⟩ := q
  rw [Spaces.answer?, Spaces.answer?]
  cases hold : base.cell? other key with
  | some c =>
      rw [h.evolves.grows.cell?_eq_some hold, h.evolves'.grows.cell?_eq_some hold]
      refine .some (.old ?_)
      rintro c' ⟨⟩
      exact content?_isSome_of_cell? hold
  | none =>
      have halike := h.alike key
      cases hleft : left.cell? other key with
      | some c =>
          obtain ⟨rfl, hnew⟩ := h.evolves.content?_eq_none hold hleft
          rw [hleft] at halike
          cases hright : right.cell? other key with
          | none => rw [hright] at halike; cases halike
          | some c' =>
              exact .some (.new hnew (h.evolves'.content?_eq_none hold hright).2 hleft hright)
      | none =>
          cases hright : right.cell? other key with
          | none => exact .none
          | some c' =>
              obtain ⟨rfl, -⟩ := h.evolves'.content?_eq_none hold hright
              rw [hleft, hright] at halike
              cases halike

theorem findSome?_answer? (h : Diverge base ns left right) (queries : List Query) :
    Option.Rel (fun c c' => Counterpart base ns left right (.cell c) (.cell c'))
      (queries.findSome? left.answer?) (queries.findSome? right.answer?) := by
  induction queries with
  | nil => exact .none
  | cons q queries ih =>
      rw [List.findSome?_cons, List.findSome?_cons]
      have hq := h.answer? q
      generalize left.answer? q = c at hq ⊢
      generalize right.answer? q = c' at hq ⊢
      cases hq with
      | some hcounterpart => exact .some hcounterpart
      | none => exact ih

end Diverge

/-- What is found so far on both sides corresponds, and the marks are the same. -/
structure Abreast (base : Spaces) (ns : NamespaceId) (left right : Spaces)
    (found found' : Option Binding × MarkSet) : Prop where
  binding : Option.Rel (Counterpart base ns left right) found.1 found'.1
  marks : found.2 = found'.2

theorem Abreast.refl {found : Option Binding × MarkSet}
    (h : ∀ b, found.1 = some b → base.Holds b) : Abreast base ns left right found found := by
  refine ⟨?_, rfl⟩
  cases hbinding : found.1 with
  | none => exact .none
  | some b => exact .some (.old (h b hbinding))

/-- A wrap whose questions are not answered leads to nothing new. -/
theorem holds_unaided {wrap : Wrap} {found : Option Binding × MarkSet}
    (h : ∀ b, found.1 = some b → base.Holds b) :
    ∀ b, (wrap.unaided name found).1 = some b → base.Holds b := by
  cases wrap with
  | mark m => exact h
  | rename rib =>
      simp only [Wrap.unaided]
      split
      · rintro b ⟨⟩ c ⟨⟩
      · exact h
  | space other => exact h
  | moduleRename other => exact h

theorem origin_of_mem_queries {wrap : Wrap} {total marks : MarkSet} {b : Binding} {q : Query}
    (hq : q ∈ wrap.queries name total (some b, marks)) : q.2.origin = b := by
  cases wrap with
  | mark m => cases hq
  | rename rib => cases hq
  | space other =>
      simp only [Wrap.queries, List.mem_cons, List.not_mem_nil, or_false] at hq
      rcases hq with rfl | rfl <;> rfl
  | moduleRename other => cases hq

/-- The wraps of before act on a cell that is new only by their marks. -/
theorem Evolves.resolveStep_new (h : base.Evolves ns after) (hclosed : base.Closed) {wrap : Wrap}
    (hwrap : base.HoldsWrap wrap) {total marks : MarkSet} {c : CellRef}
    (hnew : base.content? c = none) :
    after.resolveStep name none total wrap (some (.cell c), marks) =
      (some (.cell c), (after.resolveStep name none total wrap (none, marks)).2) := by
  have hasked : (wrap.queries name total (some (.cell c), marks)).findSome? after.answer? = none :=
    List.findSome?_eq_none_iff.2 fun q hq =>
      h.cell?_eq_none hclosed hnew (origin_of_mem_queries hq)
  rw [resolveStep_marks, resolveStep_eq_answer, hasked]
  cases wrap with
  | mark m => rfl
  | rename rib =>
      simp only [Wrap.unaided]
      split
      · rename_i v hv
        have hthere := hwrap rib rfl _ (Rib.mem_keys_of_substitute? hv) c rfl
        rw [hnew] at hthere
        cases hthere
      · rfl
  | space other => rfl
  | moduleRename other => rfl

theorem Diverge.step (h : Diverge base ns left right) {wrap : Wrap} (hwrap : base.HoldsWrap wrap)
    {total : MarkSet} {found found' : Option Binding × MarkSet}
    (hfound : Abreast base ns left right found found') :
    Abreast base ns left right (left.resolveStep name none total wrap found)
      (right.resolveStep name none total wrap found') := by
  obtain ⟨binding, marks⟩ := found
  obtain ⟨binding', marks'⟩ := found'
  obtain ⟨hbinding, rfl⟩ : Option.Rel _ binding binding' ∧ marks = marks' :=
    ⟨hfound.binding, hfound.marks⟩
  -- Where both states have found a binding of the base, they ask the same questions.
  have hsame : (∀ b, binding = some b → base.Holds b) →
      Abreast base ns left right (left.resolveStep name none total wrap (binding, marks))
        (right.resolveStep name none total wrap (binding, marks)) := by
    intro hholds
    rw [resolveStep_eq_answer, resolveStep_eq_answer]
    have hanswers := h.findSome?_answer? (wrap.queries name total (binding, marks))
    generalize List.findSome? left.answer? _ = c at hanswers ⊢
    generalize List.findSome? right.answer? _ = c' at hanswers ⊢
    cases hanswers with
    | some hcounterpart => exact ⟨.some hcounterpart, rfl⟩
    | none => exact .refl (holds_unaided hholds)
  cases hbinding with
  | none =>
      refine hsame ?_
      rintro b ⟨⟩
  | some hcounterpart =>
      cases hcounterpart with
      | old hholds =>
          refine hsame ?_
          rintro b ⟨⟩
          exact hholds
      | new hnew hnew' hc hc' =>
          -- No key of a rib or a namespace mentions a new cell, so the wrap leaves it.
          rw [h.evolves.resolveStep_new h.closed hwrap hnew,
            h.evolves'.resolveStep_new h.closed hwrap hnew']
          refine ⟨.some (.new hnew hnew' hc hc'), ?_⟩
          rw [resolveStep_marks, resolveStep_marks]

theorem Diverge.resolveWithMarks (h : Diverge base ns left right) {stx : Syntax}
    (hwraps : ∀ wrap ∈ stx.wraps, base.HoldsWrap wrap) :
    Option.Rel (Counterpart base ns left right) (left.resolveWithMarks stx).1
      (right.resolveWithMarks stx).1 := by
  rw [Spaces.resolveWithMarks, Spaces.resolveWithMarks]
  cases stx.symbol? with
  | none => exact .none
  | some name =>
      have hall : ∀ total, ∀ wraps : List Wrap, (∀ wrap ∈ wraps, base.HoldsWrap wrap) →
          Abreast base ns left right
            (wraps.foldr (left.resolveStep name none total) (none, .empty))
            (wraps.foldr (right.resolveStep name none total) (none, .empty)) := by
        intro total wraps hwraps
        induction wraps with
        | nil =>
            refine .refl ?_
            rintro b ⟨⟩
        | cons wrap older ih =>
            exact h.step (hwraps wrap List.mem_cons_self)
              (ih fun w hw => hwraps w (List.mem_cons_of_mem wrap hw))
      exact (hall _ stx.wraps hwraps).binding

/-- With distinct keys, every cell is the one under its key. -/
theorem exists_cell?_of_content? {c : CellRef} (hlive : base.Live) (howner : c.owner = ns)
    (hnodup : ∀ space, base[ns]? = some space → space.keys.Nodup)
    (hthere : (base.content? c).isSome) : ∃ key, base.cell? ns key = some c := by
  rw [content?, howner] at hthere
  cases hspace : base[ns]? with
  | none => simp [hspace] at hthere
  | some space =>
      rw [hspace] at hthere
      have hlt : c.index < space.keys.length := by
        simpa [Namespace.content?, Namespace.length_keys] using hthere
      refine ⟨space.keys[c.index],
        cell?_eq_some_iff.2 ⟨howner, space, hspace, hlive.freed_eq_false hspace, ?_⟩⟩
      exact Namespace.find?_of_getElem?_keys (hnodup space hspace) (List.getElem?_eq_getElem hlt)

/-- Bindings that correspond denote the same. -/
theorem Diverge.denote (h : Diverge base ns left right) {b b' : Binding}
    (hb : Counterpart base ns left right b b') : (left.denote b).Alike (right.denote b') := by
  have halike : ∀ {key c c'}, left.cell? ns key = some c → right.cell? ns key = some c' →
      (left.denote (.cell c)).Alike (right.denote (.cell c')) := by
    intro key c c' hc hc'
    have hkey := h.alike key
    rw [hc, hc'] at hkey
    cases hkey with
    | some halike => exact halike
  cases hb with
  | new _ _ hc hc' => exact halike hc hc'
  | old hholds =>
      cases b with
      | free name => exact .refl _
      | lexical v => exact .refl _
      | cell c =>
          by_cases howner : c.owner = ns
          · -- The cell has a key, and is found under it on both sides.
            obtain ⟨key, hkey⟩ := exists_cell?_of_content? h.live howner h.nodup
              (hholds c rfl)
            exact halike (h.evolves.grows.cell?_eq_some hkey) (h.evolves'.grows.cell?_eq_some hkey)
          · have hsame : left.denote (.cell c) = right.denote (.cell c) := by
              simp only [Spaces.denote, content?, h.evolves.others _ howner,
                h.evolves'.others _ howner]
            rw [hsame]
            exact .refl _

/-- An identifier of before: what its wraps and its recorded binding mention is there. -/
structure Mentions (spaces : Spaces) (stx : Syntax) : Prop where
  wraps : ∀ wrap ∈ stx.wraps, spaces.HoldsWrap wrap
  recorded : ∀ b, stx.context.binding = some b → spaces.Holds b

/-- Identifiers of before denote the same in both states. -/
theorem Diverge.denoted (h : Diverge base ns left right) {stx : Syntax}
    (hstx : base.Mentions stx) (name : String) :
    (left.denoted stx name).Alike (right.denoted stx name) := by
  rw [Spaces.denoted, Spaces.denoted, resolve, resolve]
  cases hrecorded : stx.context.binding with
  | some b => exact h.denote (.old (hstx.recorded b hrecorded))
  | none =>
      have hresolved := h.resolveWithMarks hstx.wraps
      simp only [Option.orElse_eq_orElse, Option.orElse_none]
      generalize (left.resolveWithMarks stx).1 = b at hresolved ⊢
      generalize (right.resolveWithMarks stx).1 = b' at hresolved ⊢
      cases hresolved with
      | none => exact .refl _
      | some hb => exact h.denote hb

/-- The cell under a key denotes what the table holds there. -/
theorem map_denote_cell? {space : Namespace} (hspace : base[ns]? = some space)
    (hlive : space.freed = false) (key : Key) :
    (base.cell? ns key).map (fun c => base.denote (.cell c)) =
      (space.holding? key).map Content.denoted := by
  rw [Spaces.cell?, Spaces.isFreed, Spaces.filed?, hspace, Namespace.holding?]
  simp only [hlive, Bool.false_eq_true, if_false]
  cases hfind : space.find? key with
  | none => rfl
  | some index =>
      obtain ⟨entry, hentry, -⟩ := Namespace.exists_entry_of_find? hfind
      simp only [Option.map_some, Option.bind_some, denote, content?, hspace, Namespace.content?,
        hentry]
      cases entry.content <;> rfl

theorem evolves_imported {imports : List (Syntax × Provided)} {space space' : Namespace}
    (hspace : base[ns]? = some space) (hclosed : base.Closed)
    (h : space.requireEach (base.filed ns imports) = .ok space') :
    base.Evolves ns (base.setIfInBounds ns space') where
  grows := grows_setIfInBounds hspace (Namespace.imported_requireEach h).grows
  others _ hne := Array.getElem?_setIfInBounds_ne hne.symm
  origins := by
    intro after hafter key hkey
    rw [getElem?_setIfInBounds_of_some hspace, if_pos rfl] at hafter
    cases hafter
    rcases (Namespace.imported_requireEach h).mem_keys hkey with hold | ⟨e, he, rfl⟩
    · exact hclosed ns space hspace key hold
    · obtain ⟨e', -, rfl⟩ := List.mem_map.1 he
      rw [filingKey_eq]
      exact holds_outside e'.1.wraps

/-- Two orders of imports that can be made lead to states that differ in nothing that counts. -/
theorem diverge_imported {imports imports' : List (Syntax × Provided)}
    {space first second : Namespace} (hspace : base[ns]? = some space) (hlive : base.Live)
    (hclosed : base.Closed) (hnodup : space.keys.Nodup) (hperm : imports.Perm imports')
    (hfirst : space.requireEach (base.filed ns imports) = .ok first)
    (hsecond : space.requireEach (base.filed ns imports') = .ok second) :
    Diverge base ns (base.setIfInBounds ns first) (base.setIfInBounds ns second) where
  closed := hclosed
  live := hlive
  nodup there hthere := by
    cases hspace.symm.trans hthere
    exact hnodup
  evolves := evolves_imported hspace hclosed hfirst
  evolves' := evolves_imported hspace hclosed hsecond
  alike key := by
    have halike := (Namespace.imported_requireEach hfirst).alike
      (Namespace.imported_requireEach hsecond) (hperm.map _) key
    have hhere : ∀ there, (base.setIfInBounds ns there)[ns]? = some there := fun there => by
      rw [getElem?_setIfInBounds_of_some hspace, if_pos rfl]
    have hfreed {imports there} (h : space.requireEach (base.filed ns imports) = .ok there) :
        there.freed = false :=
      (Namespace.imported_requireEach h).grows.freed.trans (hlive.freed_eq_false hspace)
    have hleft := map_denote_cell? (hhere first) (hfreed hfirst) key
    have hright := map_denote_cell? (hhere second) (hfreed hsecond) key
    generalize Spaces.cell? (base.setIfInBounds ns first) ns key = c at hleft ⊢
    generalize Spaces.cell? (base.setIfInBounds ns second) ns key = c' at hright ⊢
    generalize first.holding? key = content at halike hleft
    generalize second.holding? key = content' at halike hright
    cases halike with
    | none =>
        obtain rfl := Option.map_eq_none_iff.1 hleft
        obtain rfl := Option.map_eq_none_iff.1 hright
        exact .none
    | some halike =>
        obtain ⟨c, rfl, hc⟩ := Option.map_eq_some_iff.1 hleft
        obtain ⟨c', rfl, hc'⟩ := Option.map_eq_some_iff.1 hright
        rw [← hc, ← hc'] at halike
        exact .some halike

end Spaces

/-! ## Runs -/

theorem runEach_require (ns : NamespaceId) (imports : List (Syntax × Provided)) (w : World) :
    match w.spaces.requireEach ns imports with
    | .ok spaces => runEach (fun e => require ns e.1 e.2 false) imports w = .ok () { w with spaces }
    | .error e => ∃ w', runEach (fun e => require ns e.1 e.2 false) imports w =
        .error (.error e) w' := by
  induction imports generalizing w with
  | nil => rfl
  | cons e imports ih =>
      rw [runEach, RunM.bind_apply, require_apply, Spaces.requireEach, List.foldlM_cons]
      cases w.spaces.require ns e.1 e.2 false with
      | error fault => exact ⟨w, rfl⟩
      | ok spaces => exact ih { w with spaces }

/-- The imports succeed in both orders, after which every identifier that was there denotes alike,
or they fail in both orders because a name is ambiguous. -/
inductive SameOutcome (base : Spaces) : EStateM.Result Halt World Unit →
    EStateM.Result Halt World Unit → Prop
  | success {first second : World} :
      (∀ stx name, base.Mentions stx →
        (first.spaces.denoted stx name).Alike (second.spaces.denoted stx name)) →
      SameOutcome base (.ok () first) (.ok () second)
  | failure {e e' : Error} {first second : World} : e.kind = .ambiguousBinding →
      e'.kind = .ambiguousBinding →
      SameOutcome base (.error (.error e) first) (.error (.error e') second)

theorem sameOutcome_of_perm {w : World} {ns : NamespaceId} {space : Namespace}
    {imports imports' : List (Syntax × Provided)} (hspace : w.spaces[ns]? = some space)
    (hlive : w.spaces.Live) (hclosed : w.spaces.Closed) (hnodup : space.keys.Nodup)
    (hfile : Spaces.Fileable ns imports) (hperm : imports.Perm imports') :
    SameOutcome w.spaces (runEach (fun e => require ns e.1 e.2 false) imports w)
      (runEach (fun e => require ns e.1 e.2 false) imports' w) := by
  have hfile' : Spaces.Fileable ns imports' := fun e he => hfile e (hperm.mem_iff.2 he)
  -- Whether all imports are accepted does not depend on their order.
  have hsame : (∃ space', space.requireEach (w.spaces.filed ns imports) = .ok space') ↔
      ∃ space', space.requireEach (w.spaces.filed ns imports') = .ok space' := by
    rw [Namespace.requireEach_isOk_iff, Namespace.requireEach_isOk_iff]
    exact ⟨fun h => h.perm (hperm.map _), fun h => h.perm (hperm.map _).symm⟩
  have hspec := Spaces.requireEach_spec hspace hfile
  have hspec' := Spaces.requireEach_spec hspace hfile'
  have hrun := runEach_require ns imports w
  have hrun' := runEach_require ns imports' w
  cases hfirst : space.requireEach (w.spaces.filed ns imports) with
  | ok first =>
      obtain ⟨second, hsecond⟩ := hsame.1 ⟨first, hfirst⟩
      rw [hfirst] at hspec
      rw [hsecond] at hspec'
      rw [show w.spaces.requireEach ns imports = _ from hspec] at hrun
      rw [show w.spaces.requireEach ns imports' = _ from hspec'] at hrun'
      rw [show runEach _ imports w = _ from hrun, show runEach _ imports' w = _ from hrun']
      exact .success fun stx name hstx =>
        (Spaces.diverge_imported hspace hlive hclosed hnodup hperm hfirst hsecond).denoted hstx name
  | error conflict =>
      cases hsecond : space.requireEach (w.spaces.filed ns imports') with
      | ok second =>
          obtain ⟨first, hok⟩ := hsame.2 ⟨second, hsecond⟩
          cases hfirst.symm.trans hok
      | error conflict' =>
          rw [hfirst] at hspec
          rw [hsecond] at hspec'
          obtain ⟨stx, name, conflict, hfailed⟩ := hspec
          obtain ⟨stx', name', conflict', hfailed'⟩ := hspec'
          rw [hfailed] at hrun
          rw [hfailed'] at hrun'
          obtain ⟨w₁, hw₁⟩ := hrun
          obtain ⟨w₂, hw₂⟩ := hrun'
          rw [hw₁, hw₂]
          exact .failure rfl rfl

/-- Imports that are not of the language commute: after any calls, a list of them succeeds in one
order exactly if it succeeds in every other, every identifier then denotes the same definition and is
alike shadowable, and otherwise both orders fail because a name is ambiguous.  The identifiers that
are imported may carry any wraps except the module rename of the namespace. -/
theorem World.requireEach_perm (calls : List Call) {ns : NamespaceId}
    {imports imports' : List (Syntax × Provided)}
    (hthere : ns < (({} : World).afterCalls calls).spaces.size)
    (hfile : ∀ e ∈ imports, e.1.symbol?.isSome ∧ .moduleRename ns ∉ e.1.wraps)
    (hperm : imports.Perm imports') :
    SameOutcome (({} : World).afterCalls calls).spaces
      (runEach (fun e => require ns e.1 e.2 false) imports (({} : World).afterCalls calls))
      (runEach (fun e => require ns e.1 e.2 false) imports' (({} : World).afterCalls calls)) := by
  obtain ⟨space, hspace⟩ : ∃ space, (({} : World).afterCalls calls).spaces[ns]? = some space :=
    ⟨_, Array.getElem?_eq_getElem hthere⟩
  exact sameOutcome_of_perm hspace (live_afterCalls calls) (World.closed_afterCalls calls)
    (World.valid_afterCalls calls hspace).keys hfile hperm

/-- A session and two modules, each with a definition of `p`. -/
def twoModules : List Call :=
  [.operation (.create ⟨"/session"⟩ .topLevel), .operation (.create ⟨"/a"⟩ .module),
    .operation (.create ⟨"/b"⟩ .module), .operation (.defineValue 1 "p" .void),
    .operation (.defineValue 2 "p" .void)]

/-- What the module with the number `owner` provides. -/
def providedBy (owner : NamespaceId) (home : String) : Provided := ⟨"p", ⟨"p", 0, owner, ⟨home⟩⟩⟩

/-- In the session, `x` is imported from one module twice, and a marked `x` from the other. -/
theorem requireEach_perm_twoModules :
    SameOutcome (({} : World).afterCalls twoModules).spaces
      (runEach (fun e => require 0 e.1 e.2 false)
        [(sessionName, providedBy 1 "/a"), (sessionName.addWrap (.mark 1), providedBy 2 "/b"),
          (sessionName, providedBy 1 "/a")]
        (({} : World).afterCalls twoModules))
      (runEach (fun e => require 0 e.1 e.2 false)
        [(sessionName.addWrap (.mark 1), providedBy 2 "/b"), (sessionName, providedBy 1 "/a"),
          (sessionName, providedBy 1 "/a")]
        (({} : World).afterCalls twoModules)) :=
  World.requireEach_perm twoModules (by decide +kernel) (by decide +kernel) (.swap _ _ _)

/-- Whether a run ends with a result. -/
def hasResult (result : EStateM.Result Halt World Unit) : Bool :=
  match result with
  | .ok _ _ => true
  | .error _ _ => false

/-- A name with the module rename of the session. -/
def renamedName : Syntax := (Syntax.ident "x").addWrap (.moduleRename 0)

-- The plain name comes first: the other one is then filed over its cell, and nothing conflicts.
example :
    hasResult (runEach (fun e => require 0 e.1 e.2 false)
      [(sessionName, providedBy 2 "/b"), (renamedName, providedBy 1 "/a")]
      (({} : World).afterCalls twoModules)) = true ∧
    hasResult (runEach (fun e => require 0 e.1 e.2 false)
      [(renamedName, providedBy 1 "/a"), (sessionName, providedBy 2 "/b")]
      (({} : World).afterCalls twoModules)) = false := by
  decide +kernel

end HygienicLisp
