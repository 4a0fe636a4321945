import HygienicLisp.Proofs.Renaming.Injective

/-!
# Templates that place operands whole

The variables that an operand of a use binds may be renamed together with those around the use, if what
the use expands to is again such a renaming.  That is so if the template has the operands as they are at
places of expressions: in `σ.Places m Q a`, the template `a` is an expression inside ribs `Q` of its own
variables, and whatever is not its own syntax in it is a whole operand.

Main statement: `Setting.Renamed.of_places`.  A template that takes an operand apart is different: it may
take an identifier out of the scope of its binder.
-/

namespace HygienicLisp

/-! ## Reading templates -/

theorem Syntax.view_of_subforms? {stx : Syntax} {parts : List Syntax} (h : stx.subforms? = some parts) :
    stx.view = .group .sexp (parts.map view) := by
  match stx, h with
  | .group c .sexp items, rfl =>
      rw [view_group, List.map_map]
      rfl

namespace Assembly

variable {α β : Type}

/-- The parts of a template for a sexp. -/
def parts? : Assembly → Option (List Assembly)
  | join _ .sexp items => some items
  | prior stx => stx.subforms?.map (List.map prior)
  | _ => none

/-- The atom that a template consists of. -/
def atom? : Assembly → Option ContextAtom
  | prior stx =>
    match stx.view with
    | .leaf b => some b
    | _ => none
  | _ => none

/-- The identifier and the expression of a clause. -/
def clause? (a : Assembly) : Option (ContextAtom × Assembly) :=
  match a.parts? with
  | some [name, init] =>
    name.atom?.bind fun b => if b.symbol?.isSome then some (b, init) else none
  | _ => none

/-- The identifiers and expressions of the clauses of a binding form. -/
def clauses? (a : Assembly) : Option (List (ContextAtom × Assembly)) := a.parts?.bind (collect? clause?)

theorem fill?_of_parts? {a : Assembly} {items : List Assembly} (h : a.parts? = some items)
    (lit : ContextAtom → α) (t : FormTree α) :
    a.fill? lit t = (fillAll? lit t items).map (.group .sexp) := by
  match a, h with
  | .join _ .sexp items, rfl => rfl
  | .prior stx, h =>
      obtain ⟨parts, hparts, rfl⟩ := Option.map_eq_some_iff.1 h
      have hall : fillAll? lit t (parts.map prior) = some (parts.map fun part => part.view.map lit) := by
        clear hparts h
        induction parts with
        | nil => rfl
        | cons part parts ih => rw [List.map_cons, fillAll?, fill?, Option.bind_some, ih]; rfl
      rw [hall, fill?, Syntax.view_of_subforms? hparts, FormTree.map_group, List.map_map]
      rfl

theorem fill?_of_atom? {a : Assembly} {b : ContextAtom} (h : a.atom? = some b) (lit : ContextAtom → α)
    (t : FormTree α) : a.fill? lit t = some (.leaf (lit b)) := by
  match a, h with
  | .prior stx, h =>
      rw [atom?] at h
      split at h
      · next b' hview =>
        obtain rfl : b' = b := Option.some.inj h
        rw [fill?, hview, FormTree.map_leaf]
      · cases h

/-- What a template with an atom at its head is filled to. -/
theorem exists_fillAll?_of_head {a head : Assembly} {items : List Assembly} {b : ContextAtom}
    (hparts : a.parts? = some (head :: items)) (hhead : head.atom? = some b) {lit : ContextAtom → α}
    {t out : FormTree α} (hout : a.fill? lit t = some out) :
    ∃ outs, fillAll? lit t items = some outs ∧ out = .group .sexp (.leaf (lit b) :: outs) := by
  rw [fill?_of_parts? hparts, fillAll?, fill?_of_atom? hhead, Option.bind_some, Option.map_map] at hout
  obtain ⟨outs, houts, rfl⟩ := Option.map_eq_some_iff.1 hout
  exact ⟨outs, houts, rfl⟩

theorem clause?_eq_some {a : Assembly} {c : ContextAtom × Assembly} (h : a.clause? = some c) :
    ∃ name, a.parts? = some [name, c.2] ∧ name.atom? = some c.1 ∧ c.1.symbol?.isSome := by
  rw [clause?] at h
  split at h
  · next name init hparts =>
    obtain ⟨b, hatom, h⟩ := Option.bind_eq_some_iff.1 h
    split at h
    · next hname =>
      cases h
      exact ⟨name, hparts, hatom, hname⟩
    · cases h
  · cases h

theorem isSome_symbol?_of_clauses? {a : Assembly} {cs : List (ContextAtom × Assembly)}
    (h : a.clauses? = some cs) : ∀ c ∈ cs, c.1.symbol?.isSome := by
  obtain ⟨items, -, hcs⟩ := Option.bind_eq_some_iff.1 h
  intro c hc
  obtain ⟨i, hi⟩ := List.getElem?_of_mem hc
  obtain ⟨item, -, hitem⟩ := exists_getElem?_of_forall₂ (forall₂_of_collect? hcs) hi
  obtain ⟨-, -, -, hname⟩ := clause?_eq_some hitem
  exact hname

/-- The clauses of a filled template are its identifiers and what its expressions are filled to. -/
theorem clauses?_fill? {a : Assembly} {cs : List (ContextAtom × Assembly)} (h : a.clauses? = some cs)
    {lit : ContextAtom → ContextAtom × ContextAtom} (hlit : ∀ b, (lit b).1.symbol? = b.symbol?)
    {t out : TwinTree} (hout : a.fill? lit t = some out) :
    ∃ inits, List.Forall₂ (fun c init => c.2.fill? lit t = some init) cs inits ∧
      out.clauses? = some ((cs.map fun c => lit c.1).zip inits) := by
  obtain ⟨items, hparts, hcs⟩ := Option.bind_eq_some_iff.1 h
  rw [fill?_of_parts? hparts] at hout
  obtain ⟨outs, houts, rfl⟩ := Option.map_eq_some_iff.1 hout
  have hclauses := forall₂_of_collect? hcs
  clear h hparts hcs hout
  induction hclauses generalizing outs with
  | nil =>
      cases houts
      exact ⟨[], .nil, rfl⟩
  | @cons item c items cs hclause _ ih =>
      obtain ⟨clause, hfill, houts⟩ := Option.bind_eq_some_iff.1 houts
      obtain ⟨others, hothers, rfl⟩ := Option.map_eq_some_iff.1 houts
      obtain ⟨inits, hinits, hrest⟩ := ih others hothers
      obtain ⟨name, hparts, hatom, hname⟩ := clause?_eq_some hclause
      rw [fill?_of_parts? hparts, fillAll?, fill?_of_atom? hatom, Option.bind_some, fillAll?] at hfill
      cases hinit : c.2.fill? lit t with
      | none => simp [hinit] at hfill
      | some init =>
          obtain rfl : .group .sexp [.leaf (lit c.1), init] = clause := by
            simpa [hinit, fillAll?] using hfill
          refine ⟨init :: inits, .cons hinit hinits, ?_⟩
          have hread : FormTree.clause? (.group .sexp [.leaf (lit c.1), init]) = some (lit c.1, init) := by
            rw [FormTree.clause?, FormTree.identifier?, if_pos ((hlit c.1).symm ▸ hname)]
            rfl
          rw [FormTree.clauses?] at hrest
          rw [FormTree.clauses?, collect?, hread, Option.bind_some, hrest]
          rfl

end Assembly

/-! ## Atoms of a template -/

namespace Setting

/-- An atom of a template under the mark of the invocation, inside ribs of the template. -/
def ownAtom (m : Mark) (Q : List (Rib × Rib)) (b : ContextAtom) : ContextAtom × ContextAtom :=
  Q.foldr under (b.push (.mark m), b.push (.mark m))

theorem symbol?_ownAtom (m : Mark) (Q : List (Rib × Rib)) (b : ContextAtom) :
    (ownAtom m Q b).1.symbol? = b.symbol? := by
  induction Q with
  | nil => rfl
  | cons r Q ih => exact ih

/-- What a template is filled to inside one more rib of its own. -/
theorem fill?_under (a : Assembly) (m : Mark) (Q : List (Rib × Rib)) (r : Rib × Rib) (T : TwinTree) :
    a.fill? (ownAtom m (r :: Q)) (T.under r) = (a.fill? (ownAtom m Q) T).map (·.under r) :=
  a.fill?_map (under r) (ownAtom m Q) T

variable {σ : Setting} {ρ : String → String} {m : Mark} {Q P : List (Rib × Rib)} {locals : List String}

/-- The ribs bind no variables of the caller. -/
def Foreign (Q : List (Rib × Rib)) : Prop := ∀ r ∈ Q, Parallel r ∧ callerNames r = []

theorem Quoted.wrapMarks_ownAtom {b : ContextAtom} (h : σ.Quoted b) (hm : σ.world.nextMark ≤ m)
    (Q : List (Rib × Rib)) : wrapMarks (ownAtom m Q b).1.wraps ≠ .empty := by
  induction Q with
  | nil =>
      intro hempty
      have hmem : m ∈ wrapMarks (Syntax.pushWrap (.mark m) b.wraps) := by
        rw [wrapMarks_pushWrap, wrapMarks, MarkSet.mem_toggle]
        simp [(h m hm).1]
      have hmarks : wrapMarks (Syntax.pushWrap (.mark m) b.wraps) = .empty := hempty
      rw [hmarks] at hmem
      exact List.not_mem_nil hmem
  | cons r Q ih => exact ih

/-- An atom of the template is the same in both spellings, also inside ribs. -/
theorem Quoted.pairs_ownAtom {b : ContextAtom} (h : σ.Quoted b) (hm : σ.world.nextMark ≤ m)
    (hQ : Foreign Q) (P : List (Rib × Rib)) : σ.Pairs (Q ++ P) (ownAtom m Q b) := by
  induction Q with
  | nil => exact h.pairs hm P
  | cons r Q ih =>
      obtain ⟨⟨hparallel, hnames⟩, hQ⟩ := List.forall_mem_cons.1 hQ
      exact (ih hQ).under hparallel (by simp [hnames])

/-- The rib of binders that have marks binds no variable of the caller. -/
theorem callerNames_ribs {as : List (ContextAtom × ContextAtom)}
    (h : ∀ a ∈ as, wrapMarks a.1.wraps ≠ .empty) (id : RibId) : callerNames (σ.ribs id as) = [] := by
  simp only [callerNames, ribs, List.zip_map', List.filterMap_map]
  refine List.filterMap_eq_nil_iff.2 fun a ha => ?_
  simp only [Function.comp_apply, Spaces.leafKey, if_neg (h a ha)]

/-- Inside a rib of the template the variables of the caller are what they were. -/
theorem Around.cons_foreign (h : σ.Around ρ P locals) {as : List (ContextAtom × ContextAtom)}
    (hbinders : ∀ a ∈ as, σ.Binders P a) (hmarks : ∀ a ∈ as, wrapMarks a.1.wraps ≠ .empty)
    (id : RibId) : σ.Around ρ (σ.ribs id as :: P) locals where
  ribs := h.ribs.cons_ribs hbinders id
  scope := by
    rw [HygienicLisp.scope, List.flatMap_cons, callerNames_ribs hmarks, List.nil_append]
    exact h.scope

/-! ## Templates -/

variable (σ m) in
/-- The template is an expression inside ribs of its own variables, and what it has from the use in it are
whole operands at places of expressions. -/
inductive Places : List (Rib × Rib) → Assembly → Prop
  | operand {Q : List (Rib × Rib)} (i : Nat) : Places Q (.input [.subform (i + 1)])
  | literal {Q : List (Rib × Rib)} {stx : Syntax} (h : stx.view.All σ.Quoted) : Places Q (.prior stx)
  | list {Q : List (Rib × Rib)} {span : Option Span} {items : List Assembly}
      (h : ∀ a ∈ items, Places Q a) : Places Q (.join span .list items)
  | form {Q : List (Rib × Rib)} {a head : Assembly} {b : ContextAtom} {items : List Assembly}
      (hparts : a.parts? = some (head :: items)) (hhead : head.atom? = some b) (hquoted : σ.Quoted b)
      (hplain : headIsPlain (σ.spaces.leafValue? (ownAtom m Q b).1)) (h : ∀ a ∈ items, Places Q a) :
      Places Q a
  | lambda {Q : List (Rib × Rib)} {a head : Assembly} {b : ContextAtom} {formals : Syntax}
      {body : List Assembly} {as : List (ContextAtom × ContextAtom)}
      (hparts : a.parts? = some (head :: .prior formals :: body)) (hhead : head.atom? = some b)
      (hquoted : σ.Quoted b) (hvalue : σ.spaces.leafValue? (ownAtom m Q b).1 = some (.form .lambda))
      (hliterals : formals.view.All σ.Quoted)
      (hformals : (formals.view.map (ownAtom m Q)).formals? = some as)
      (hbody : ∀ id, ∀ a ∈ body, Places (σ.ribs id as :: Q) a) : Places Q a
  | letForm {Q : List (Rib × Rib)} {a head clauses : Assembly} {b : ContextAtom} {body : List Assembly}
      {cs : List (ContextAtom × Assembly)}
      (hparts : a.parts? = some (head :: clauses :: body)) (hhead : head.atom? = some b)
      (hquoted : σ.Quoted b) (hvalue : σ.spaces.leafValue? (ownAtom m Q b).1 = some (.form .letForm))
      (hclauses : clauses.clauses? = some cs) (hnames : ∀ c ∈ cs, σ.Quoted c.1)
      (hinits : ∀ c ∈ cs, Places Q c.2)
      (hbody : ∀ id, ∀ a ∈ body, Places (σ.ribs id (cs.map fun c => ownAtom m Q c.1) :: Q) a) :
      Places Q a

/-- A template that places operands whole is filled to an expression that corresponds if the operands are
renamed. -/
theorem Places.corresponds (hρ : Function.Injective ρ) (hrenames : ∀ x, σ.renames x (ρ x))
    (hm : σ.world.nextMark ≤ m) {head : TextTree} {operands : List TextTree}
    (hoperands : ∀ t ∈ operands, σ.Renamed ρ locals t) {a : Assembly} (h : σ.Places m Q a)
    (hQ : Foreign Q) (hP : σ.Around ρ (Q ++ P) locals) {out : TwinTree}
    (hout : a.fill? (ownAtom m Q) (σ.placed (Q ++ P) (.group .sexp (head :: operands))) = some out) :
    σ.Corresponds (m + 1) (Q ++ P) out := by
  -- Below ribs of the template, the parts of a binding form are filled as they are above it.
  have hinside {Q : List (Rib × Rib)} {as : List (ContextAtom × ContextAtom)} {body : List Assembly}
      {outs : List TwinTree} {t : TextTree} (id : RibId)
      (ih : ∀ a ∈ body, ∀ out, a.fill? (ownAtom m (σ.ribs id as :: Q))
        (σ.placed (σ.ribs id as :: Q ++ P) t) = some out →
          σ.Corresponds (m + 1) (σ.ribs id as :: Q ++ P) out)
      (houts : Assembly.fillAll? (ownAtom m Q) (σ.placed (Q ++ P) t) body = some outs) :
      ∀ T ∈ outs, σ.Corresponds (m + 1) (σ.ribs id as :: (Q ++ P)) (T.under (σ.ribs id as)) := by
    refine Assembly.forall_mem_of_fillAll? (fun a ha out hout => ?_) houts
    refine ih a ha _ ?_
    rw [List.cons_append, ← placed_under, fill?_under, hout, Option.map_some]
  -- The binders of the template have marks, and are the same in both spellings.
  have hown {Q : List (Rib × Rib)} (hQ : Foreign Q) {as : List (ContextAtom × ContextAtom)}
      (has : ∀ a ∈ as, (∃ b, σ.Quoted b ∧ a = ownAtom m Q b) ∧ a.1.symbol?.isSome) :
      (∀ a ∈ as, σ.Named (Q ++ P) a) ∧ ∀ a ∈ as, wrapMarks a.1.wraps ≠ .empty := by
    refine ⟨fun a ha => ?_, fun a ha => ?_⟩
    · obtain ⟨⟨b, hb, rfl⟩, hname⟩ := has a ha
      exact ⟨hb.pairs_ownAtom hm hQ P, hname⟩
    · obtain ⟨⟨b, hb, rfl⟩, -⟩ := has a ha
      exact hb.wrapMarks_ownAtom hm Q
  have hcons {Q : List (Rib × Rib)} (hQ : Foreign Q) {as : List (ContextAtom × ContextAtom)}
      (hP : σ.Around ρ (Q ++ P) locals) (hnamed : ∀ a ∈ as, σ.Named (Q ++ P) a)
      (hmarks : ∀ a ∈ as, wrapMarks a.1.wraps ≠ .empty) (id : RibId) :
      Foreign (σ.ribs id as :: Q) ∧ σ.Around ρ (σ.ribs id as :: Q ++ P) locals := by
    have hbinders := (binds_of_named hnamed).binders
    refine ⟨List.forall_mem_cons.2 ⟨⟨?_, callerNames_ribs hmarks id⟩, hQ⟩, ?_⟩
    · exact (hP.ribs.cons_ribs hbinders id).parallel
    · exact hP.cons_foreign hbinders hmarks id
  induction h generalizing out with
  | @operand Q i =>
      rw [Assembly.fill?, FormTree.extract?, placed, FormTree.map_group, List.map_cons,
        Part.ofTree?, List.getElem?_cons_succ, List.getElem?_map] at hout
      obtain ⟨t, ht, hout⟩ := Option.bind_eq_some_iff.1 hout
      obtain ⟨operand, hoperand, rfl⟩ := Option.map_eq_some_iff.1 ht
      obtain rfl := Option.some.inj hout
      exact (hoperands operand (List.mem_of_getElem? hoperand)).corresponds hρ hrenames hP
        (hm.trans (Nat.le_succ m))
  | literal h =>
      obtain rfl := Option.some.inj hout
      exact .closed (h.map fun b hb => hb.pairs_ownAtom hm hQ P)
  | list _ ih =>
      obtain ⟨outs, houts, rfl⟩ := Option.map_eq_some_iff.1 hout
      exact .list (Assembly.forall_mem_of_fillAll? (fun a ha out hout => ih a ha hQ hP hout) houts)
  | form hparts hhead hquoted hplain _ ih =>
      obtain ⟨outs, houts, rfl⟩ := Assembly.exists_fillAll?_of_head hparts hhead hout
      refine .form hplain (List.forall_mem_cons.2 ⟨?_, ?_⟩)
      · exact .closed (.leaf (hquoted.pairs_ownAtom hm hQ P))
      · exact Assembly.forall_mem_of_fillAll? (fun a ha out hout => ih a ha hQ hP hout) houts
  | @lambda Q a head b formals body as hparts hhead hquoted hvalue hliterals hformals _ ih =>
      obtain ⟨outs, houts, rfl⟩ := Assembly.exists_fillAll?_of_head hparts hhead hout
      obtain ⟨outs, hbodies, rfl⟩ := Option.map_eq_some_iff.1 houts
      have hall : (formals.view.map (ownAtom m Q)).All fun a => ∃ b, σ.Quoted b ∧ a = ownAtom m Q b :=
        hliterals.map fun b hb => ⟨b, hb, rfl⟩
      obtain ⟨hnamed, hmarks⟩ := hown hQ (hall.formals? hformals)
      refine .lambda ⟨(hquoted.pairs_ownAtom hm hQ P).resolved hP.ribs, hvalue⟩ hformals
        (binds_of_named hnamed) fun id => ?_
      obtain ⟨hQ', hP'⟩ := hcons hQ hP hnamed hmarks id
      exact hinside id (fun a ha out hout => ih id a ha hQ' hP' hout) hbodies
  | @letForm Q a head clauses b body cs hparts hhead hquoted hvalue hclauses hnames _ _ ihinits ih =>
      obtain ⟨outs, houts, rfl⟩ := Assembly.exists_fillAll?_of_head hparts hhead hout
      obtain ⟨filled, hfilled, houts⟩ := Option.bind_eq_some_iff.1 houts
      obtain ⟨outs, hbodies, rfl⟩ := Option.map_eq_some_iff.1 houts
      obtain ⟨inits, hinits, hread⟩ :=
        Assembly.clauses?_fill? hclauses (symbol?_ownAtom m Q) hfilled
      have has : ∀ a ∈ cs.map fun c => ownAtom m Q c.1,
          (∃ b, σ.Quoted b ∧ a = ownAtom m Q b) ∧ a.1.symbol?.isSome := by
        refine List.forall_mem_map.2 fun c hc => ⟨⟨c.1, hnames c hc, rfl⟩, ?_⟩
        rw [symbol?_ownAtom]
        exact Assembly.isSome_symbol?_of_clauses? hclauses c hc
      obtain ⟨hnamed, hmarks⟩ := hown hQ has
      have hbinders : (((cs.map fun c => ownAtom m Q c.1).zip inits).map (·.1)) =
          cs.map fun c => ownAtom m Q c.1 :=
        List.map_fst_zip (by rw [List.length_map, hinits.length_eq])
      refine .letForm ⟨(hquoted.pairs_ownAtom hm hQ P).resolved hP.ribs, hvalue⟩ hread ?_ ?_ fun id => ?_
      · rw [hbinders]
        exact binds_of_named hnamed
      · rintro ⟨binder, init⟩ hmem
        obtain ⟨i, hi⟩ := List.getElem?_of_mem (List.of_mem_zip hmem).2
        obtain ⟨c, hc, hinit⟩ := Assembly.exists_getElem?_of_forall₂ hinits hi
        exact ihinits c (List.mem_of_getElem? hc) hQ hP hinit
      · rw [hbinders]
        obtain ⟨hQ', hP'⟩ := hcons hQ hP hnamed hmarks id
        exact hinside id (fun a ha out hout => ih id a ha hQ' hP' hout) hbodies

/-- The variables that operands of a use bind may be renamed if the template places its operands
whole. -/
theorem Renamed.of_places (hρ : Function.Injective ρ) (hrenames : ∀ x, σ.renames x (ρ x))
    {head : Atom × Atom} {operands : List TextTree} {id procedureId : ObjectId} {p : Procedure}
    {a : Assembly} (hhead : σ.Kept ρ locals head)
    (hvalue : σ.textValue? locals (.leaf head) = some (.transformer id procedureId p))
    (htemplate : σ.template? p = some a) (hplaces : ∀ m, σ.world.nextMark ≤ m → σ.Places m [] a)
    (hoperands : ∀ t ∈ operands, σ.Renamed ρ locals t) :
    σ.Renamed ρ locals (.group .sexp (.leaf head :: operands)) := by
  refine .use fun n P hn hP => ?_
  have hresolved := (hhead.pairs hρ hrenames hP).resolved hP.ribs
  have hout (m : Mark) (out : TwinTree) (hm : n ≤ m)
      (h : a.fillTwin? m (σ.placed P (.group .sexp (.leaf head :: operands))) = some out) :
      σ.Corresponds (m + 1) P out :=
    (hplaces m (hn.trans hm)).corresponds (Q := []) hρ hrenames (hn.trans hm) hoperands
      (List.forall_mem_nil _) hP h
  rw [placed, FormTree.map_group, List.map_cons] at hout ⊢
  exact .use hresolved ((hP.treeValue? (.leaf head)).trans hvalue) htemplate hout

end Setting

end HygienicLisp
