import HygienicLisp.Proofs.Renaming.Templates

/-!
# Expressions that correspond

`σ.Corresponds n P T` says that the two sides of `T`, which stand inside the ribs `P`, are the same
expression up to the names of variables, when the marks below `n` have been drawn.  There are two
ways to be so: every pair of atoms may be one of `σ.Pairs P`, whatever the expression is; or the
expression is a form whose parts correspond, where a binding form may give its variables new names
and its body corresponds inside the ribs that the form will make.  A use of a transformer with a
template corresponds also if what it expands to does.

The second part of the file shows that in the first case the parts of a binding form fulfil what
the second asks of them.
-/

namespace HygienicLisp

/-! ## Reading the parts of core forms -/

/-- The results of a partial function on all items of a list. -/
def collect? {α β : Type} (f : α → Option β) : List α → Option (List β)
  | [] => some []
  | x :: xs => (f x).bind fun y => (collect? f xs).map (y :: ·)

theorem forall₂_of_collect? {α β : Type} {f : α → Option β} {xs : List α} {ys : List β}
    (h : collect? f xs = some ys) : List.Forall₂ (fun x y => f x = some y) xs ys := by
  induction xs generalizing ys with
  | nil =>
      obtain rfl : [] = ys := Option.some.inj h
      exact .nil
  | cons x xs ih =>
      obtain ⟨y, hy, h⟩ := Option.bind_eq_some_iff.1 h
      obtain ⟨rest, hrest, rfl⟩ := Option.map_eq_some_iff.1 h
      exact .cons hy (ih hrest)

theorem exists_mem_of_collect?_eq_none {α β : Type} {f : α → Option β} {xs : List α}
    (h : collect? f xs = none) : ∃ x ∈ xs, f x = none := by
  induction xs with
  | nil => cases h
  | cons x xs ih =>
      cases hx : f x with
      | none => exact ⟨x, List.mem_cons_self, hx⟩
      | some y =>
          rw [collect?, hx, Option.bind_some, Option.map_eq_none_iff] at h
          obtain ⟨x', hmem, hx'⟩ := ih h
          exact ⟨x', List.mem_cons_of_mem _ hmem, hx'⟩

namespace FormTree

/-- The identifiers that an atom is in the two spellings. -/
def identifier? : TwinTree → Option (ContextAtom × ContextAtom)
  | leaf a => if a.1.symbol?.isSome then some a else none
  | _ => none

/-- The binders of the formals of a `lambda`. -/
def formals? : TwinTree → Option (List (ContextAtom × ContextAtom))
  | group .sexp items => collect? identifier? items
  | T => T.identifier?.map ([·])

/-- The identifier and the expression of a clause. -/
def clause? : TwinTree → Option ((ContextAtom × ContextAtom) × TwinTree)
  | group .sexp [name, init] => name.identifier?.map (·, init)
  | _ => none

/-- The identifiers and expressions of the clauses of a binding form. -/
def clauses? : TwinTree → Option (List ((ContextAtom × ContextAtom) × TwinTree))
  | group .sexp items => collect? clause? items
  | _ => none

/-- The two parts of a clause of `parameterize`. -/
def couple? : TwinTree → Option (TwinTree × TwinTree)
  | group .sexp [parameter, value] => some (parameter, value)
  | _ => none

/-- The parts of the clauses of a `parameterize`. -/
def couples? : TwinTree → Option (List (TwinTree × TwinTree))
  | group .sexp items => collect? couple? items
  | _ => none

theorem eq_leaf_of_identifier? {T : TwinTree} {a : ContextAtom × ContextAtom}
    (h : T.identifier? = some a) : T = .leaf a ∧ a.1.symbol?.isSome := by
  cases T with
  | leaf b =>
      rw [identifier?] at h
      split at h
      · next hname =>
        cases h
        exact ⟨rfl, hname⟩
      · cases h
  | group shape items => cases h
  | record fields => cases h

theorem All.identifier? {p : ContextAtom × ContextAtom → Prop} {T : TwinTree} (hT : T.All p)
    {a : ContextAtom × ContextAtom} (h : T.identifier? = some a) : p a ∧ a.1.symbol?.isSome := by
  obtain ⟨rfl, hname⟩ := eq_leaf_of_identifier? h
  cases hT with
  | leaf ha => exact ⟨ha, hname⟩

theorem identifier?_of_clauses? {T : TwinTree} {cs : List ((ContextAtom × ContextAtom) × TwinTree)}
    (h : T.clauses? = some cs) : T.identifier? = none := by
  match T, h with
  | .group .sexp _, _ => rfl

theorem eq_of_collect?_identifier? {items : List TwinTree} {as : List (ContextAtom × ContextAtom)}
    (h : collect? identifier? items = some as) :
    items = as.map .leaf ∧ ∀ a ∈ as, a.1.symbol?.isSome := by
  have hitems := forall₂_of_collect? h
  clear h
  induction hitems with
  | nil => simp
  | cons hhead _ ih =>
      obtain ⟨rfl, hname⟩ := eq_leaf_of_identifier? hhead
      exact ⟨by rw [ih.1, List.map_cons], List.forall_mem_cons.2 ⟨hname, ih.2⟩⟩

/-- What holds of all atoms holds of the binders. -/
theorem All.formals? {p : ContextAtom × ContextAtom → Prop} {T : TwinTree} (hT : T.All p)
    {as : List (ContextAtom × ContextAtom)} (h : T.formals? = some as) :
    ∀ a ∈ as, p a ∧ a.1.symbol?.isSome := by
  cases hT with
  | leaf ha =>
      obtain ⟨a, hread, rfl⟩ := Option.map_eq_some_iff.1 h
      simpa using All.identifier? (.leaf ha) hread
  | @group shape items hitems =>
      cases shape with
      | sexp =>
          obtain ⟨rfl, hnames⟩ := eq_of_collect?_identifier? h
          intro a ha
          cases hitems _ (List.mem_map_of_mem ha) with
          | leaf hpair => exact ⟨hpair, hnames a ha⟩
      | list => cases h
  | record _ => cases h

end FormTree

/-- The value of the expression at the head of a form. -/
def Spaces.treeValue? (spaces : Spaces) : TwinTree → Option Value
  | .leaf a => spaces.leafValue? a.1
  | _ => none

/-- A form with such a value at its head has expressions as operands, apart from the target of an
assignment, and binds nothing. -/
def headIsPlain : Option Value → Bool
  | some (.transformer _ _ _) => false
  | some (.form f) => f = .ifForm || f = .begin || f = .set
  | _ => true

/-- Forms that do not look into their operand. -/
def CoreForm.quotes (f : CoreForm) : Bool := f = .quote || f = .quoteSyntax

namespace Setting

variable (σ : Setting)

/-- What a binding form inside the ribs `P` asks of its binders. -/
structure Binds (P : List (Rib × Rib)) (as : List (ContextAtom × ContextAtom)) : Prop where
  binders : ∀ a ∈ as, σ.Binders P a
  keys : σ.KeysAlike as

/-- A head that denotes a core form in both spellings. -/
structure Denotes (f : CoreForm) (a : ContextAtom × ContextAtom) : Prop where
  resolved : σ.Resolved a
  value : σ.spaces.leafValue? a.1 = some (.form f)

/-- The identifiers inside a pair of ribs. -/
def under (r : Rib × Rib) (a : ContextAtom × ContextAtom) : ContextAtom × ContextAtom :=
  (a.1.push (.rename r.1), a.2.push (.rename r.2))

/-- The two sides are, inside the ribs `P`, the same expression up to the names of variables. -/
inductive Corresponds : Mark → List (Rib × Rib) → TwinTree → Prop
  | closed {n : Mark} {P : List (Rib × Rib)} {T : TwinTree} (h : T.All (σ.Pairs P)) : Corresponds n P T
  | list {n : Mark} {P : List (Rib × Rib)} {Ts : List TwinTree} (h : ∀ T ∈ Ts, Corresponds n P T) :
      Corresponds n P (.group .list Ts)
  | record {n : Mark} {P : List (Rib × Rib)} {Ts : List (String × TwinTree)}
      (h : ∀ T ∈ Ts, Corresponds n P T.2) : Corresponds n P (.record Ts)
  | form {n : Mark} {P : List (Rib × Rib)} {head : TwinTree} {operands : List TwinTree}
      (hhead : headIsPlain (σ.spaces.treeValue? head))
      (h : ∀ T ∈ head :: operands, Corresponds n P T) : Corresponds n P (.group .sexp (head :: operands))
  /-- A quotation may have other names in it than the other spelling, also those of variables. -/
  | quoted {n : Mark} {P : List (Rib × Rib)} {head : ContextAtom × ContextAtom}
      {operands : List TwinTree} {f : CoreForm} (hhead : σ.Denotes f head) (hquotes : f.quotes)
      (h : ∀ T ∈ operands, T.All σ.Spelled) : Corresponds n P (.group .sexp (.leaf head :: operands))
  | lambda {n : Mark} {P : List (Rib × Rib)} {head : ContextAtom × ContextAtom} {formals : TwinTree}
      {body : List TwinTree} {as : List (ContextAtom × ContextAtom)}
      (hhead : σ.Denotes .lambda head) (hformals : formals.formals? = some as)
      (hbinds : σ.Binds P as)
      (hbody : ∀ id, ∀ T ∈ body, Corresponds n (σ.ribs id as :: P) (T.under (σ.ribs id as))) :
      Corresponds n P (.group .sexp (.leaf head :: formals :: body))
  | letForm {n : Mark} {P : List (Rib × Rib)} {head : ContextAtom × ContextAtom} {clauses : TwinTree}
      {body : List TwinTree} {cs : List ((ContextAtom × ContextAtom) × TwinTree)}
      (hhead : σ.Denotes .letForm head) (hclauses : clauses.clauses? = some cs)
      (hbinds : σ.Binds P (cs.map (·.1))) (hinits : ∀ c ∈ cs, Corresponds n P c.2)
      (hbody : ∀ id, ∀ T ∈ body, Corresponds n (σ.ribs id (cs.map (·.1)) :: P)
        (T.under (σ.ribs id (cs.map (·.1))))) :
      Corresponds n P (.group .sexp (.leaf head :: clauses :: body))
  | letrec {n : Mark} {P : List (Rib × Rib)} {head : ContextAtom × ContextAtom} {clauses : TwinTree}
      {body : List TwinTree} {cs : List ((ContextAtom × ContextAtom) × TwinTree)}
      (hhead : σ.Denotes .letrec head) (hclauses : clauses.clauses? = some cs)
      (hbinds : σ.Binds P (cs.map (·.1)))
      (hinits : ∀ id, ∀ c ∈ cs, Corresponds n (σ.ribs id (cs.map (·.1)) :: P)
        (c.2.under (σ.ribs id (cs.map (·.1)))))
      (hbody : ∀ id, ∀ T ∈ body, Corresponds n (σ.ribs id (cs.map (·.1)) :: P)
        (T.under (σ.ribs id (cs.map (·.1))))) :
      Corresponds n P (.group .sexp (.leaf head :: clauses :: body))
  /-- The name is bound around the parameters, and the parameters around the body. -/
  | namedLet {n : Mark} {P : List (Rib × Rib)} {head name : ContextAtom × ContextAtom} {clauses : TwinTree}
      {body : List TwinTree} {cs : List ((ContextAtom × ContextAtom) × TwinTree)}
      (hhead : σ.Denotes .letForm head) (hname : σ.Binders P name)
      (hclauses : clauses.clauses? = some cs) (hbinds : σ.Binds P (cs.map (·.1)))
      (hinits : ∀ c ∈ cs, Corresponds n P c.2)
      (hbody : ∀ id id', ∀ T ∈ body,
        Corresponds n (σ.ribs id' ((cs.map (·.1)).map (under (σ.ribs id [name]))) ::
            σ.ribs id [name] :: P)
          ((T.under (σ.ribs id [name])).under
            (σ.ribs id' ((cs.map (·.1)).map (under (σ.ribs id [name])))))) :
      Corresponds n P (.group .sexp (.leaf head :: .leaf name :: clauses :: body))
  | parameterize {n : Mark} {P : List (Rib × Rib)} {head : ContextAtom × ContextAtom} {clauses : TwinTree}
      {body : List TwinTree} {cs : List (TwinTree × TwinTree)}
      (hhead : σ.Denotes .parameterize head) (hclauses : clauses.couples? = some cs)
      (hparameters : ∀ c ∈ cs, Corresponds n P c.1) (hvalues : ∀ c ∈ cs, Corresponds n P c.2)
      (hbody : ∀ T ∈ body, Corresponds n P T) :
      Corresponds n P (.group .sexp (.leaf head :: clauses :: body))
  | use {n : Mark} {P : List (Rib × Rib)} {head : ContextAtom × ContextAtom} {operands : List TwinTree}
      {id procedureId : ObjectId} {p : Procedure} {a : Assembly} (hhead : σ.Resolved head)
      (hvalue : σ.spaces.leafValue? head.1 = some (.transformer id procedureId p))
      (htemplate : σ.template? p = some a)
      (hout : ∀ m out, n ≤ m → a.fillTwin? m (.group .sexp (.leaf head :: operands)) = some out →
        Corresponds (m + 1) P out) :
      Corresponds n P (.group .sexp (.leaf head :: operands))

/-! ## Parts whose atoms are all pairs -/

variable {σ} {n : Mark} {P : List (Rib × Rib)}

theorem Corresponds.leaf {a : ContextAtom × ContextAtom} (h : σ.Corresponds n P (.leaf a)) :
    σ.Pairs P a := by
  cases h with
  | closed h =>
      cases h with
      | leaf h => exact h

variable (σ) in
/-- Atoms that are pairs, and identifiers. -/
def Named (P : List (Rib × Rib)) (a : ContextAtom × ContextAtom) : Prop :=
  σ.Pairs P a ∧ a.1.symbol?.isSome

theorem binds_of_named {as : List (ContextAtom × ContextAtom)} (h : ∀ a ∈ as, σ.Named P a) :
    σ.Binds P as :=
  ⟨fun a ha => (h a ha).1.binders (h a ha).2, keysAlike_of_pairs h⟩

theorem named_of_clause? {clause : TwinTree} (hclause : clause.All (σ.Pairs P))
    {c : (ContextAtom × ContextAtom) × TwinTree} (h : clause.clause? = some c) :
    σ.Named P c.1 ∧ c.2.All (σ.Pairs P) := by
  cases hclause with
  | leaf _ => cases h
  | @group shape items hitems =>
      match shape, items, h with
      | .sexp, [name, init], h =>
          obtain ⟨a, ha, rfl⟩ := Option.map_eq_some_iff.1 h
          exact ⟨(hitems name (by simp)).identifier? ha, hitems init (by simp)⟩
  | record _ => cases h

theorem named_of_clauses? {clauses : TwinTree} (hclauses : clauses.All (σ.Pairs P))
    {cs : List ((ContextAtom × ContextAtom) × TwinTree)} (h : clauses.clauses? = some cs) :
    ∀ c ∈ cs, σ.Named P c.1 ∧ c.2.All (σ.Pairs P) := by
  cases hclauses with
  | leaf _ => cases h
  | @group shape items hitems =>
      cases shape with
      | sexp =>
          intro c hc
          obtain ⟨i, hi⟩ := List.getElem?_of_mem hc
          obtain ⟨clause, hclause, hread⟩ :=
            Assembly.exists_getElem?_of_forall₂ (forall₂_of_collect? h) hi
          exact named_of_clause? (hitems clause (List.mem_of_getElem? hclause)) hread
      | list => cases h
  | record _ => cases h

/-- Inside the ribs of binders that are pairs, pairs are pairs again. -/
theorem all_under {T : TwinTree} (hT : T.All (σ.Pairs P)) (hP : σ.Ribs P)
    {as : List (ContextAtom × ContextAtom)} (has : ∀ a ∈ as, σ.Named P a) (id : RibId) :
    (T.under (σ.ribs id as)).All (σ.Pairs (σ.ribs id as :: P)) := by
  have hribs := hP.cons_ribs (binds_of_named has).binders id
  exact hT.map fun a ha => ha.under hribs.parallel (sameName_of_mem_callerNames has)

theorem named_under {as : List (ContextAtom × ContextAtom)} (has : ∀ a ∈ as, σ.Named P a)
    (hP : σ.Ribs P) (id : RibId) {a : ContextAtom × ContextAtom} (ha : σ.Named P a) :
    σ.Named (σ.ribs id as :: P) (under (σ.ribs id as) a) := by
  have hribs := hP.cons_ribs (binds_of_named has).binders id
  exact ⟨ha.1.under hribs.parallel (sameName_of_mem_callerNames has), ha.2⟩

/-! ## What the core forms find -/

variable (σ)

/-- The formals and the body of a `lambda`, or formals that it refuses. -/
def LambdaParts (n : Mark) (P : List (Rib × Rib)) (formals : TwinTree) (body : List TwinTree) : Prop :=
  formals.All (σ.Pairs P) ∧ formals.formals? = none ∨
    ∃ as, formals.formals? = some as ∧ σ.Binds P as ∧
      ∀ id, ∀ T ∈ body, σ.Corresponds n (σ.ribs id as :: P) (T.under (σ.ribs id as))

/-- The clauses and the body of a `let` or `letrec`, or clauses that it refuses.  The expressions
of a `letrec` stand inside its ribs. -/
def ClauseParts (recursive : Bool) (n : Mark) (P : List (Rib × Rib)) (clauses : TwinTree)
    (body : List TwinTree) : Prop :=
  clauses.All (σ.Pairs P) ∧ clauses.clauses? = none ∨
    ∃ cs, clauses.clauses? = some cs ∧ σ.Binds P (cs.map (·.1)) ∧
      (if recursive then ∀ id, ∀ c ∈ cs, σ.Corresponds n (σ.ribs id (cs.map (·.1)) :: P)
          (c.2.under (σ.ribs id (cs.map (·.1))))
        else ∀ c ∈ cs, σ.Corresponds n P c.2) ∧
      ∀ id, ∀ T ∈ body, σ.Corresponds n (σ.ribs id (cs.map (·.1)) :: P)
        (T.under (σ.ribs id (cs.map (·.1))))

/-- The name, the clauses and the body of a named `let`, or clauses that it refuses. -/
def NamedParts (n : Mark) (P : List (Rib × Rib)) (name : ContextAtom × ContextAtom) (clauses : TwinTree)
    (body : List TwinTree) : Prop :=
  clauses.All (σ.Pairs P) ∧ clauses.clauses? = none ∨
    ∃ cs, clauses.clauses? = some cs ∧ σ.Binders P name ∧ σ.Binds P (cs.map (·.1)) ∧
      (∀ c ∈ cs, σ.Corresponds n P c.2) ∧
      ∀ id id', ∀ T ∈ body,
        σ.Corresponds n (σ.ribs id' ((cs.map (·.1)).map (under (σ.ribs id [name]))) ::
            σ.ribs id [name] :: P)
          ((T.under (σ.ribs id [name])).under
            (σ.ribs id' ((cs.map (·.1)).map (under (σ.ribs id [name])))))

/-- The clauses of a `parameterize`, as far as they are clauses. -/
def CoupleParts (n : Mark) (P : List (Rib × Rib)) (clauses : TwinTree) : Prop :=
  ∀ items, clauses = .group .sexp items → ∀ T ∈ items, ∀ c, T.couple? = some c →
    σ.Corresponds n P c.1 ∧ σ.Corresponds n P c.2

variable {σ}

theorem lambdaParts_of_all (hP : σ.Ribs P) {formals : TwinTree} {body : List TwinTree}
    (hformals : formals.All (σ.Pairs P)) (hbody : ∀ T ∈ body, T.All (σ.Pairs P)) :
    σ.LambdaParts n P formals body := by
  cases h : formals.formals? with
  | none => exact .inl ⟨hformals, h⟩
  | some as =>
      have has := hformals.formals? h
      refine .inr ⟨as, h, binds_of_named has, fun id T hT => ?_⟩
      exact .closed (all_under (hbody T hT) hP has id)

theorem clauseParts_of_all (recursive : Bool) (hP : σ.Ribs P) {clauses : TwinTree}
    {body : List TwinTree} (hclauses : clauses.All (σ.Pairs P))
    (hbody : ∀ T ∈ body, T.All (σ.Pairs P)) : σ.ClauseParts recursive n P clauses body := by
  cases h : clauses.clauses? with
  | none => exact .inl ⟨hclauses, h⟩
  | some cs =>
      have hcs := named_of_clauses? hclauses h
      have has : ∀ a ∈ cs.map (·.1), σ.Named P a := by
        intro a ha
        obtain ⟨c, hc, rfl⟩ := List.mem_map.1 ha
        exact (hcs c hc).1
      refine .inr ⟨cs, h, binds_of_named has, ?_, fun id T hT => ?_⟩
      · cases recursive with
        | true =>
            intro id c hc
            exact .closed (all_under (hcs c hc).2 hP has id)
        | false =>
            intro c hc
            exact .closed (hcs c hc).2
      · exact .closed (all_under (hbody T hT) hP has id)

theorem namedParts_of_all (hP : σ.Ribs P) {name : ContextAtom × ContextAtom} {clauses : TwinTree}
    {body : List TwinTree} (hname : σ.Named P name) (hclauses : clauses.All (σ.Pairs P))
    (hbody : ∀ T ∈ body, T.All (σ.Pairs P)) : σ.NamedParts n P name clauses body := by
  cases h : clauses.clauses? with
  | none => exact .inl ⟨hclauses, h⟩
  | some cs =>
      have hcs := named_of_clauses? hclauses h
      have has : ∀ a ∈ cs.map (·.1), σ.Named P a := by
        intro a ha
        obtain ⟨c, hc, rfl⟩ := List.mem_map.1 ha
        exact (hcs c hc).1
      have hnames : ∀ a ∈ [name], σ.Named P a := by simpa using hname
      refine .inr ⟨cs, h, hname.1.binders hname.2, binds_of_named has, ?_, fun id id' T hT => ?_⟩
      · intro c hc
        exact .closed (hcs c hc).2
      · have hribs := hP.cons_ribs (binds_of_named hnames).binders id
        have hinner : ∀ a ∈ (cs.map (·.1)).map (under (σ.ribs id [name])),
            σ.Named (σ.ribs id [name] :: P) a := by
          intro a ha
          obtain ⟨b, hb, rfl⟩ := List.mem_map.1 ha
          exact named_under hnames hP id (has b hb)
        exact .closed (all_under (all_under (hbody T hT) hP hnames id) hribs hinner id')

theorem coupleParts_of_all {clauses : TwinTree} (hclauses : clauses.All (σ.Pairs P)) :
    σ.CoupleParts n P clauses := by
  rintro items rfl T hT c hc
  cases hclauses with
  | group hitems =>
      match T, hc, hitems T hT with
      | .group .sexp [parameter, value], hc, .group hparts =>
          cases hc
          exact ⟨.closed (hparts parameter (by simp)), .closed (hparts value (by simp))⟩

theorem coupleParts_of_couples? {clauses : TwinTree} {cs : List (TwinTree × TwinTree)}
    (h : clauses.couples? = some cs) (hparameters : ∀ c ∈ cs, σ.Corresponds n P c.1)
    (hvalues : ∀ c ∈ cs, σ.Corresponds n P c.2) : σ.CoupleParts n P clauses := by
  rintro items rfl T hT c hc
  obtain ⟨i, hi⟩ := List.getElem?_of_mem hT
  have hitems := forall₂_of_collect? h
  obtain ⟨c', hc', hread⟩ := Assembly.exists_getElem?_of_forall₂ hitems.flip hi
  obtain rfl : c' = c := Option.some.inj (hread.symm.trans hc)
  have hmem := List.mem_of_getElem? hc'
  exact ⟨hparameters c' hmem, hvalues c' hmem⟩

end Setting

end HygienicLisp
