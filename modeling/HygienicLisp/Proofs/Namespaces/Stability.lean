import HygienicLisp.Proofs.Namespaces.Growth
import HygienicLisp.Proofs.WrapChain

/-!
# Which later definitions change what an identifier means

While a name is resolved, the namespaces on its chain are asked for cells under certain keys.  A
question that is answered once is answered alike from then on, so only the questions asked in
vain (`Spaces.misses`) can be answered otherwise later.  As long as none of them is answered, the
identifier keeps its binding, whatever else is defined, redefined, imported or stored
(`World.resolve_lexical_afterAll`).

The condition cannot be weakened: once a cell is filed under a key that was asked for in vain, the
identifier resolves to a cell that was not there before (`World.resolve_afterAll_eq_iff`).  This
holds inside a rib as well, since the keys of a rib tell what its binders denoted when it was made.
-/

namespace HygienicLisp

/-! ## Questions to namespaces -/

/-- A question to a namespace: which cell is filed under this key? -/
abbrev Query := NamespaceId × Key

/-- The questions about a name that a wrap asks, in order, until one is answered. -/
def Wrap.queries (name : String) (total : MarkSet) (found : Option Binding × MarkSet) :
    Wrap → List Query
  | .mark _ => []
  | .rename _ => []
  | .space ns =>
    let origin := found.1.getD (.free name)
    [(ns, ⟨name, origin, total⟩), (ns, ⟨name, origin, found.2⟩)]
  | .moduleRename ns => if found.1.isSome then [] else [(ns, ⟨name, .free name, .empty⟩)]

/-- The effect of a wrap whose questions are not answered. -/
def Wrap.unaided (name : String) (found : Option Binding × MarkSet) :
    Wrap → Option Binding × MarkSet
  | .mark m => (found.1, found.2.toggle m)
  | .rename rib =>
    match rib.substitute? ⟨name, found.1.getD (.free name), found.2⟩ with
    | some v => (some (.lexical v), found.2)
    | none => found
  | .space _ => found
  | .moduleRename _ => found

theorem Rib.mem_keys_of_substitute? {rib : Rib} {key : Key} {v : LocalVar}
    (h : rib.substitute? key = some v) : key ∈ rib.keys := by
  obtain ⟨slot, hslot, -⟩ := Option.map_eq_some_iff.1 h
  obtain ⟨hlt, hkey, -⟩ := List.findIdx?_eq_some_iff_getElem.1 hslot
  rw [← of_decide_eq_true hkey]
  exact List.getElem_mem hlt

namespace Spaces

/-- The cell that answers a question. -/
def answer? (spaces : Spaces) (q : Query) : Option CellRef := spaces.cell? q.1 q.2

/-- A wrap gives the cell that answers its questions, and else acts by itself. -/
theorem resolveStep_eq_answer (spaces : Spaces) (name : String) (total : MarkSet) (wrap : Wrap)
    (found : Option Binding × MarkSet) :
    spaces.resolveStep name none total wrap found =
      match (wrap.queries name total found).findSome? spaces.answer? with
      | some c => (some (.cell c), found.2)
      | none => wrap.unaided name found := by
  obtain ⟨binding, marks⟩ := found
  cases wrap with
  | mark m => rfl
  | rename rib => rfl
  | space ns =>
      simp only [resolveStep, substitute?, Wrap.queries, List.findSome?_cons, List.findSome?_nil,
        answer?, reduceCtorEq, if_false]
      cases spaces.cell? ns ⟨name, binding.getD (.free name), total⟩ with
      | some c => rfl
      | none =>
          cases spaces.cell? ns ⟨name, binding.getD (.free name), marks⟩ <;> rfl
  | moduleRename ns =>
      cases binding with
      | some b => rfl
      | none =>
          simp only [resolveStep, substitute?, Wrap.queries, answer?, Option.getD_none,
            Option.isSome_none, Bool.false_eq_true, if_false, List.findSome?_cons,
            List.findSome?_nil]
          cases spaces.cell? ns ⟨name, .free name, .empty⟩ <;> rfl

/-- The questions that are asked in vain. -/
def unanswered (spaces : Spaces) (queries : List Query) : List Query :=
  queries.takeWhile fun q => (spaces.answer? q).isNone

/-- The questions that the wraps of a chain, newest first, ask in vain. -/
def missesFrom (spaces : Spaces) (name : String) (total : MarkSet) : List Wrap → List Query
  | [] => []
  | wrap :: older =>
    spaces.unanswered
      (wrap.queries name total (older.foldr (spaces.resolveStep name none total) (none, .empty))) ++
      spaces.missesFrom name total older

/-- The keys under which the namespaces of a chain have no cell when a name is resolved. -/
def misses (spaces : Spaces) (name : String) (wraps : List Wrap) : List Query :=
  spaces.missesFrom name (wrapMarks wraps) wraps

/-! ## Questions that stay unanswered -/

variable {before after : Spaces}

/-- Answers change only where a question was asked in vain. -/
theorem Grows.findSome?_answer?_eq (h : before.Grows after) {queries : List Query}
    (hkept : ∀ q ∈ before.unanswered queries, after.answer? q = none) :
    queries.findSome? after.answer? = queries.findSome? before.answer? := by
  induction queries with
  | nil => rfl
  | cons q queries ih =>
      rw [List.findSome?_cons, List.findSome?_cons]
      cases hq : before.answer? q with
      | some c =>
          have hc : after.answer? q = some c := h.cell?_eq_some hq
          rw [hc]
      | none =>
          rw [unanswered, List.takeWhile_cons_of_pos (by simp [hq])] at hkept
          rw [hkept q List.mem_cons_self]
          exact ih fun q' hq' => hkept q' (List.mem_cons_of_mem q hq')

theorem Grows.foldr_resolveStep_eq (h : before.Grows after) {name : String} {total : MarkSet}
    {wraps : List Wrap}
    (hkept : ∀ q ∈ before.missesFrom name total wraps, after.answer? q = none) :
    wraps.foldr (after.resolveStep name none total) (none, .empty) =
      wraps.foldr (before.resolveStep name none total) (none, .empty) := by
  induction wraps with
  | nil => rfl
  | cons wrap older ih =>
      have hsame := ih fun q hq => hkept q (List.mem_append_right _ hq)
      rw [List.foldr_cons, List.foldr_cons, hsame, resolveStep_eq_answer, resolveStep_eq_answer,
        h.findSome?_answer?_eq fun q hq => hkept q (List.mem_append_left _ hq)]

/-- A name keeps its binding as long as no question asked in vain is answered. -/
theorem Grows.resolveWraps_eq (h : before.Grows after) {name : String} {wraps : List Wrap}
    (hkept : ∀ q ∈ before.misses name wraps, after.answer? q = none) :
    after.resolveWraps name none wraps = before.resolveWraps name none wraps :=
  h.foldr_resolveStep_eq hkept

/-! ## Questions that are answered later -/

/-- The cell that a binding leads to is there. -/
def Holds (spaces : Spaces) (b : Binding) : Prop := ∀ c, b = .cell c → (spaces.content? c).isSome

/-- The cells that the keys of a wrap mention are there. -/
def HoldsWrap (spaces : Spaces) (wrap : Wrap) : Prop :=
  ∀ rib, wrap = .rename rib → ∀ key ∈ rib.keys, spaces.Holds key.origin

/-- The cells that the keys of the namespaces mention are there. -/
def Closed (spaces : Spaces) : Prop :=
  ∀ (ns : NamespaceId) (space : Namespace), spaces[ns]? = some space →
    ∀ key ∈ space.keys, spaces.Holds key.origin

/-- The binding is a cell that the spaces do not have yet. -/
def Lacks (spaces : Spaces) (b : Option Binding) : Prop :=
  ∃ c, b = some (.cell c) ∧ spaces.content? c = none

theorem content?_isSome_of_cell? {spaces : Spaces} {ns : NamespaceId} {key : Key} {c : CellRef}
    (hc : spaces.cell? ns key = some c) : (spaces.content? c).isSome := by
  obtain ⟨rfl, space, hspace, -, hfind⟩ := cell?_eq_some_iff.1 hc
  have hlt : c.index < space.entries.size := by
    rw [Namespace.find?] at hfind
    exact (Array.findIdx?_eq_some_iff_getElem.1 hfind).1
  simp [content?, hspace, Namespace.content?, hlt]

theorem mem_keys_of_cell? {spaces : Spaces} {ns : NamespaceId} {key : Key} {c : CellRef}
    (hc : spaces.cell? ns key = some c) :
    ∃ space, spaces[ns]? = some space ∧ key ∈ space.keys := by
  obtain ⟨-, space, hspace, -, hfind⟩ := cell?_eq_some_iff.1 hc
  refine ⟨space, hspace, ?_⟩
  rw [Namespace.find?_eq_findIdx?_keys, List.findIdx?_eq_some_iff_getElem] at hfind
  obtain ⟨hlt, hkey, -⟩ := hfind
  rw [← of_decide_eq_true hkey]
  exact List.getElem_mem hlt

/-- A question that gets its first answer later leads to a cell that was not there. -/
theorem Grows.lacks_of_answer? (h : before.Grows after) {q : Query} {c : CellRef}
    (hq : before.answer? q = none) (hc : after.answer? q = some c) : before.content? c = none := by
  by_contra hthere
  rw [← ne_eq, Option.ne_none_iff_isSome] at hthere
  have hold : before.answer? q = some c := h.cell?_of_content? hc hthere
  rw [hq] at hold
  cases hold

theorem Grows.findSome?_answer?_new (h : before.Grows after) {queries : List Query} {q : Query}
    (hq : q ∈ before.unanswered queries) (hans : after.answer? q ≠ none) :
    ∃ c, queries.findSome? after.answer? = some c ∧ before.content? c = none := by
  induction queries with
  | nil => simp [unanswered] at hq
  | cons first queries ih =>
      cases hfirst : before.answer? first with
      | some c =>
          rw [unanswered, List.takeWhile_cons_of_neg (by simp [hfirst])] at hq
          cases hq
      | none =>
          rw [List.findSome?_cons]
          cases hlater : after.answer? first with
          | some c => exact ⟨c, rfl, h.lacks_of_answer? hfirst hlater⟩
          | none =>
              rw [unanswered, List.takeWhile_cons_of_pos (by simp [hfirst])] at hq
              rcases List.mem_cons.1 hq with rfl | hq
              · exact absurd hlater hans
              · exact ih hq

/-- What resolution finds is there. -/
theorem not_lacks_foldr_resolveStep (spaces : Spaces) (name : String) (total : MarkSet)
    (wraps : List Wrap) :
    ¬spaces.Lacks (wraps.foldr (spaces.resolveStep name none total) (none, .empty)).1 := by
  induction wraps with
  | nil =>
      rintro ⟨c, hc, -⟩
      cases hc
  | cons wrap older ih =>
      rw [List.foldr_cons, resolveStep_eq_answer]
      cases hans : (wrap.queries name total (older.foldr (spaces.resolveStep name none total)
          (none, .empty))).findSome? spaces.answer? with
      | some c =>
          rintro ⟨c', hc', hnone⟩
          cases hc'
          obtain ⟨q, -, hq⟩ := List.exists_of_findSome?_eq_some hans
          have hthere := content?_isSome_of_cell? hq
          rw [hnone] at hthere
          cases hthere
      | none =>
          cases wrap with
          | mark m => exact ih
          | rename rib =>
              simp only [Wrap.unaided]
              split
              · rintro ⟨c, hc, -⟩
                cases hc
              · exact ih
          | space ns => exact ih
          | moduleRename ns => exact ih

/-- Once a name resolves to a cell that was not there, it does so under every further wrap. -/
theorem Grows.lacks_resolveStep (h : before.Grows after) (hclosed : before.Closed) {name : String}
    {total : MarkSet} {wrap : Wrap} (hwrap : before.HoldsWrap wrap)
    {found : Option Binding × MarkSet} (hfound : before.Lacks found.1) :
    before.Lacks (after.resolveStep name none total wrap found).1 := by
  obtain ⟨binding, marks⟩ := found
  obtain ⟨c, rfl, hnone⟩ := hfound
  rw [resolveStep_eq_answer]
  cases hans : (wrap.queries name total (some (.cell c), marks)).findSome? after.answer? with
  | some c' =>
      -- A cell filed over a new cell is new, since old keys mention only what was there.
      refine ⟨c', rfl, ?_⟩
      by_contra hthere
      rw [← ne_eq, Option.ne_none_iff_isSome] at hthere
      obtain ⟨q, hq, hanswer⟩ := List.exists_of_findSome?_eq_some hans
      obtain ⟨space, hspace, hkey⟩ := mem_keys_of_cell? (h.cell?_of_content? hanswer hthere)
      have horigin : q.2.origin = .cell c := by
        cases wrap with
        | mark m => cases hq
        | rename rib => cases hq
        | space ns =>
            simp only [Wrap.queries, List.mem_cons, List.not_mem_nil, or_false] at hq
            rcases hq with rfl | rfl <;> rfl
        | moduleRename ns => cases hq
      have hsome := hclosed q.1 space hspace q.2 hkey c horigin
      rw [hnone] at hsome
      cases hsome
  | none =>
      cases wrap with
      | mark m => exact ⟨c, rfl, hnone⟩
      | rename rib =>
          simp only [Wrap.unaided]
          split
          · rename_i v hv
            have hsome := hwrap rib rfl _ (Rib.mem_keys_of_substitute? hv) c rfl
            rw [hnone] at hsome
            cases hsome
          · exact ⟨c, rfl, hnone⟩
      | space ns => exact ⟨c, rfl, hnone⟩
      | moduleRename ns => exact ⟨c, rfl, hnone⟩

/-- If a question asked in vain is answered later, the name resolves to a new cell later. -/
theorem Grows.lacks_foldr_resolveStep (h : before.Grows after) (hclosed : before.Closed)
    {name : String} {total : MarkSet} {wraps : List Wrap}
    (hwraps : ∀ wrap ∈ wraps, before.HoldsWrap wrap) {q : Query}
    (hq : q ∈ before.missesFrom name total wraps) (hans : after.answer? q ≠ none) :
    before.Lacks (wraps.foldr (after.resolveStep name none total) (none, .empty)).1 := by
  induction wraps generalizing q with
  | nil => cases hq
  | cons wrap older ih =>
      have holder := fun w hw => hwraps w (List.mem_cons_of_mem wrap hw)
      by_cases hbelow : ∀ q' ∈ before.missesFrom name total older, after.answer? q' = none
      · -- Everything below is as before, so it is a question of this wrap that is answered.
        rcases List.mem_append.1 hq with hhere | hq
        · obtain ⟨c, hc, hnone⟩ := h.findSome?_answer?_new hhere hans
          rw [List.foldr_cons, h.foldr_resolveStep_eq hbelow, resolveStep_eq_answer, hc]
          exact ⟨c, rfl, hnone⟩
        · exact absurd (hbelow q hq) hans
      · push Not at hbelow
        obtain ⟨q', hq', hans'⟩ := hbelow
        exact h.lacks_resolveStep hclosed (hwraps wrap List.mem_cons_self) (ih holder hq' hans')

/-- The questions that are asked in vain about an identifier. -/
def missesOf (spaces : Spaces) (stx : Syntax) : List Query :=
  match stx.symbol? with
  | some name => spaces.misses name stx.wraps
  | none => []

theorem Grows.resolveWithMarks_eq (h : before.Grows after) {stx : Syntax}
    (hkept : ∀ q ∈ before.missesOf stx, after.answer? q = none) :
    after.resolveWithMarks stx = before.resolveWithMarks stx := by
  rw [missesOf] at hkept
  rw [resolveWithMarks, resolveWithMarks]
  cases hname : stx.symbol? with
  | none => rfl
  | some name =>
      rw [hname] at hkept
      exact h.resolveWraps_eq hkept

end Spaces

/-! ## After any operations -/

/-- An identifier that denotes a local variable denotes it after any definitions, redefinitions
and imports, unless one of them files a cell under a key that was asked for in vain. -/
theorem World.resolve_lexical_afterAll {w : World} {ops : List Operation} {stx : Syntax}
    {v : LocalVar} (hlocal : w.spaces.resolve stx = some (.lexical v))
    (hkept : ∀ q ∈ w.spaces.missesOf stx, (w.afterAll ops).spaces.answer? q = none) :
    (w.afterAll ops).spaces.resolve stx = some (.lexical v) := by
  rw [← hlocal, Spaces.resolve, Spaces.resolve, (w.grows_afterAll ops).resolveWithMarks_eq hkept]

/-- A new session. -/
def newSession : World := ({} : World).afterAll [.create ⟨"/session"⟩ .topLevel]

/-- The name `x` in the session. -/
def sessionName : Syntax := (Syntax.ident "x").introduce 0

/-- The rib of a `lambda` that binds `x` in the session. -/
def sessionRib : Rib := ⟨1, [⟨"x", .free "x", .empty⟩]⟩

/-- Definitions of other names, and one of `x` that a transformer makes. -/
def sessionDefinitions : List Operation :=
  [.defineValue 0 "y" .void, .predefine 0 ((Syntax.ident "y").introduce 0),
    .predefine 0 (sessionName.addWrap (.mark 1))]

/-- In the body of `(lambda (x) x)` the variable stays what it is. -/
theorem sessionName_stays_local :
    (Rib.ofBinders newSession.spaces 1 [sessionName]).toOption = some sessionRib ∧
      newSession.spaces.resolve (sessionName.addWrap (.rename sessionRib)) =
        some (.lexical ⟨"x", 1, 0⟩) ∧
      (newSession.afterAll sessionDefinitions).spaces.resolve
        (sessionName.addWrap (.rename sessionRib)) = some (.lexical ⟨"x", 1, 0⟩) :=
  ⟨by decide +kernel, by decide +kernel,
    World.resolve_lexical_afterAll (by decide +kernel) (by decide +kernel)⟩

/-- Whether an identifier keeps its binding depends on nothing else. -/
theorem World.resolve_afterAll_eq_iff {w : World} {ops : List Operation} {stx : Syntax}
    (hplain : stx.context.binding = none) (hclosed : w.spaces.Closed)
    (hwraps : ∀ wrap ∈ stx.wraps, w.spaces.HoldsWrap wrap) :
    (w.afterAll ops).spaces.resolve stx = w.spaces.resolve stx ↔
      ∀ q ∈ w.spaces.missesOf stx, (w.afterAll ops).spaces.answer? q = none := by
  have hgrows := w.grows_afterAll ops
  constructor
  · intro hsame q hq
    by_contra hans
    rw [Spaces.resolve_of_binding_eq_none hplain, Spaces.resolve_of_binding_eq_none hplain,
      Spaces.resolveWithMarks, Spaces.resolveWithMarks] at hsame
    rw [Spaces.missesOf] at hq
    cases hname : stx.symbol? with
    | none => simp [hname] at hq
    | some name =>
        rw [hname] at hsame hq
        have hlacks := hgrows.lacks_foldr_resolveStep hclosed hwraps hq hans
        refine w.spaces.not_lacks_foldr_resolveStep name (wrapMarks stx.wraps) stx.wraps ?_
        exact hsame ▸ hlacks
  · intro hkept
    rw [Spaces.resolve, Spaces.resolve, hgrows.resolveWithMarks_eq hkept]

end HygienicLisp
