import HygienicLisp.Proofs.Renaming.Expanded

/-!
# Two expansions of a binding form

Each lemma goes through the expansion of one form on both spellings, given that the expansions of
its parts agree.  A form that one expansion refuses is refused by the other; otherwise the ribs
that are made are `σ.ribs id as` for the binders `as`, and the bodies are expanded inside of them.
-/

namespace HygienicLisp

namespace Setting

variable (σ : Setting)

/-- Two expansions of expressions that correspond agree. -/
def Expands (expand : ExpandContext → Syntax → RunM Syntax) : Prop :=
  ∀ {n : Mark} {P : List (Rib × Rib)} {T : TwinTree} {stx₁ stx₂ : Syntax}, σ.Ribs P →
    σ.Corresponds n P T → Spells T stx₁ stx₂ →
    Agree (σ.Twins n) σ.OutForm (expand .expression stx₁) (expand .expression stx₂)

variable {σ}

/-! ## Parts -/

section

variable {expand : ExpandContext → Syntax → RunM Syntax} {n : Mark} {P : List (Rib × Rib)}

theorem agree_expandEach (hexpand : σ.Expands expand) (hP : σ.Ribs P) {Ts : List TwinTree}
    {forms₁ forms₂ : List Syntax} (hforms : SpellsAll Ts forms₁ forms₂)
    (hTs : ∀ T ∈ Ts, σ.Corresponds n P T) :
    Agree (σ.Twins n) σ.OutForms (Expansion.expandEach expand .expression forms₁)
      (Expansion.expandEach expand .expression forms₂) := by
  induction hforms with
  | nil => exact .pure .nil
  | cons head _ ih =>
      obtain ⟨hT, hTs⟩ := List.forall_mem_cons.1 hTs
      refine (hexpand hP hT head).bind fun out₁ out₂ hout => ?_
      refine (ih hTs).bind fun outs₁ outs₂ houts => ?_
      exact .pure (.cons hout houts)

theorem agree_expectBody {T : World → World → Prop} {form₁ form₂ : Syntax}
    {parts₁ parts₂ : List Syntax} (h : parts₁.length = parts₂.length) (first : Nat) :
    Agree T (fun _ _ => True) (Expansion.expectBody form₁ parts₁ first)
      (Expansion.expectBody form₂ parts₂ first) := by
  rw [Expansion.expectBody, Expansion.expectBody, h]
  split
  · exact .pure trivial
  · exact .failAt _ _ _ _

theorem agree_expectCount {T : World → World → Prop} {form₁ form₂ : Syntax}
    {parts₁ parts₂ : List Syntax} (h : parts₁.length = parts₂.length) (count : Nat)
    (expected : Operands) :
    Agree T (fun _ _ => parts₁.length = count) (Expansion.expectCount form₁ parts₁ count expected)
      (Expansion.expectCount form₂ parts₂ count expected) := by
  rw [Expansion.expectCount, Expansion.expectCount, h]
  split
  · next hcount => exact .pure hcount
  · exact .failAt _ _ _ _

/-! ## Ribs -/

/-- The keys of a rib, or a binder that is there already, come up at the same place in both
spellings. -/
theorem extend_alike {as done : List (ContextAtom × ContextAtom)} {binders₁ binders₂ : List Syntax}
    (hspells : SpellsAll (as.map .leaf) binders₁ binders₂)
    (hnames : ∀ a ∈ as, a.1.symbol?.isSome ∧ a.2.symbol?.isSome) (hkeys : σ.KeysAlike (done ++ as)) :
    (∃ e₁ e₂, Rib.extend σ.spaces (done.map fun a => σ.spaces.leafKey a.1) binders₁ = .error e₁ ∧
        Rib.extend σ.spaces (done.map fun a => σ.spaces.leafKey a.2) binders₂ = .error e₂) ∨
      Rib.extend σ.spaces (done.map fun a => σ.spaces.leafKey a.1) binders₁ =
          .ok ((done ++ as).map fun a => σ.spaces.leafKey a.1) ∧
        Rib.extend σ.spaces (done.map fun a => σ.spaces.leafKey a.2) binders₂ =
          .ok ((done ++ as).map fun a => σ.spaces.leafKey a.2) := by
  induction as generalizing done binders₁ binders₂ with
  | nil =>
      cases hspells
      simp [Rib.extend]
  | cons a as ih =>
      cases hspells with
      | @cons _ _ stx₁ stx₂ rest₁ rest₂ head tail =>
          obtain ⟨⟨hname₁, hname₂⟩, hnames⟩ := List.forall_mem_cons.1 hnames
          obtain ⟨x, hx⟩ := Option.isSome_iff_exists.1 hname₁
          obtain ⟨y, hy⟩ := Option.isSome_iff_exists.1 hname₂
          have hleft : stx₁.view = .leaf a.1 := by simpa [FormTree.left] using head.left
          have hright : stx₂.view = .leaf a.2 := by simpa [FormTree.right] using head.right
          have hseen : (done.map fun b => σ.spaces.leafKey b.1).contains (σ.spaces.leafKey a.1) =
              (done.map fun b => σ.spaces.leafKey b.2).contains (σ.spaces.leafKey a.2) := by
            rw [Bool.eq_iff_iff]
            simp only [List.contains_iff_mem, List.mem_map]
            refine exists_congr fun b => and_congr_right fun hb => ?_
            exact hkeys b (by simp [hb]) a (by simp)
          simp only [Rib.extend, Syntax.symbol?_of_view hleft, Syntax.symbol?_of_view hright, hx, hy,
            Syntax.bindingKey_of_view hleft hx, Syntax.bindingKey_of_view hright hy, hseen]
          split
          · exact .inl ⟨_, _, rfl, rfl⟩
          · have hkeys' : σ.KeysAlike ((done ++ [a]) ++ as) := by simpa using hkeys
            simpa using ih tail hnames hkeys'

theorem agree_freshRib : Agree (σ.Twins n) Eq freshRib freshRib := by
  intro w₁ w₂ h
  refine .ok ⟨?_, ?_, h.drawn, h.nextMark, congrArg (· + 1) h.nextRib⟩ h.nextRib
  · exact ⟨h.left.spaces, h.left.runtime, h.left.frames, h.left.nextMark⟩
  · exact ⟨h.right.spaces, h.right.runtime, h.right.frames, h.right.nextMark⟩

/-- What is read from the namespaces is the same in both runs. -/
theorem agree_getSpaces_bind {α β : Type} {R : α → β → Prop} {f : Spaces → RunM α}
    {g : Spaces → RunM β} (h : Agree (σ.Twins n) R (f σ.spaces) (g σ.spaces)) :
    Agree (σ.Twins n) R (getSpaces >>= f) (getSpaces >>= g) := by
  refine .getSpaces_bind fun w₁ w₂ hT => ?_
  have hspaces₁ : w₁.spaces = σ.spaces := hT.left.spaces
  have hspaces₂ : w₂.spaces = σ.spaces := hT.right.spaces
  rw [hspaces₁, hspaces₂]
  exact h

/-- Binders of the two spellings are made into a pair of ribs. -/
theorem agree_newRib {as : List (ContextAtom × ContextAtom)} {binders₁ binders₂ : List Syntax}
    (hspells : SpellsAll (as.map .leaf) binders₁ binders₂) (hbinds : σ.Binds P as) :
    Agree (σ.Twins n) (fun rib₁ rib₂ => ∃ id, rib₁ = (σ.ribs id as).1 ∧ rib₂ = (σ.ribs id as).2)
      (newRib binders₁) (newRib binders₂) := by
  have hnames : ∀ a ∈ as, a.1.symbol?.isSome ∧ a.2.symbol?.isSome := by
    intro a ha
    obtain ⟨x, y, hx, hy, -⟩ := (hbinds.binders a ha).names
    simp [hx, hy]
  have hextend := extend_alike hspells hnames (show σ.KeysAlike ([] ++ as) from hbinds.keys)
  rw [List.map_nil, List.map_nil, List.nil_append] at hextend
  refine agree_freshRib.bind fun id id' hid => ?_
  subst hid
  refine agree_getSpaces_bind ?_
  rw [Rib.ofBinders, Rib.ofBinders]
  rcases hextend with ⟨e₁, e₂, h₁, h₂⟩ | ⟨h₁, h₂⟩
  · rw [h₁, h₂]
    exact .fail e₁ e₂
  · rw [h₁, h₂]
    exact .pure ⟨id, rfl, rfl⟩

/-- A form that is no identifier is not bound. -/
theorem newRib_fails {binders : List Syntax} (h : ∃ stx ∈ binders, stx.symbol? = none) :
    Fails (newRib binders) := by
  intro w
  have hextend (keys : List Key) : ∃ e, Rib.extend w.spaces keys binders = .error e := by
    induction binders generalizing keys with
    | nil => simp at h
    | cons binder rest ih =>
        rw [Rib.extend]
        cases hname : binder.symbol? with
        | none => exact ⟨_, rfl⟩
        | some name =>
            simp only
            split
            · exact ⟨_, rfl⟩
            · refine ih ?_ _
              obtain ⟨stx, hstx, hnone⟩ := h
              rcases List.mem_cons.1 hstx with rfl | hmem
              · rw [hname] at hnone
                cases hnone
              · exact ⟨stx, hmem, hnone⟩
  obtain ⟨e, he⟩ := hextend []
  refine ⟨e, { w with nextRib := w.nextRib + 1 }, ?_⟩
  simp only [newRib, RunM.bind_apply, freshRib_apply, RunM.getSpaces_apply, Rib.ofBinders, he]
  rfl

/-! ## The binding forms -/

theorem Binds.resolved_under {as : List (ContextAtom × ContextAtom)} (h : σ.Binds P as) (id : RibId) :
    ∀ a ∈ as, σ.Resolved (under (σ.ribs id as) a) :=
  fun a ha => (h.binders a ha).resolved_under h.keys ha id

/-- The binders of a form, inside the ribs of the form. -/
theorem exists_renamed {as : List (ContextAtom × ContextAtom)} (h : σ.Binds P as) (id : RibId)
    {binders₁ binders₂ : List Syntax} (hspells : SpellsAll (as.map .leaf) binders₁ binders₂) :
    ∃ Ts : List TwinTree, (∀ T ∈ Ts, T.All σ.Resolved) ∧
      SpellsAll Ts (Expansion.renamed (σ.ribs id as).1 binders₁)
        (Expansion.renamed (σ.ribs id as).2 binders₂) := by
  refine ⟨_, fun T hT => ?_, hspells.under (σ.ribs id as)⟩
  simp only [List.map_map, List.mem_map, Function.comp_apply] at hT
  obtain ⟨a, ha, rfl⟩ := hT
  rw [FormTree.under, FormTree.map_leaf]
  exact .leaf (h.resolved_under id a ha)

/-- What a `lambda` takes for its binders. -/
def binders? (formals : Syntax) : Option (List Syntax) :=
  if formals.isIdentifier then some [formals] else formals.subforms?

/-- The formals of a `lambda`, put together again inside its rib. -/
def newFormals (rib : Rib) (formals : Syntax) (binders : List Syntax) : Syntax :=
  if formals.isIdentifier then formals.addWrap (.rename rib)
  else formals.rebuildSexp (Expansion.renamed rib binders)

theorem isIdentifier_of_view_group {stx : Syntax} {shape : Shape} {items : List ContextTree}
    (h : stx.view = .group shape items) : stx.isIdentifier = false := by
  cases stx with
  | atom c a => simp at h
  | group c shape items => rfl
  | record c fields => rfl

/-- Formals that are read as binders are taken so in both spellings. -/
theorem exists_binders {formals : TwinTree} {as : List (ContextAtom × ContextAtom)}
    (hread : formals.formals? = some as) (hbinds : σ.Binds P as) {formals₁ formals₂ : Syntax}
    (hspells : Spells formals formals₁ formals₂) :
    ∃ binders₁ binders₂, binders? formals₁ = some binders₁ ∧ binders? formals₂ = some binders₂ ∧
      SpellsAll (as.map .leaf) binders₁ binders₂ ∧
      ∀ id, σ.OutNames (newFormals (σ.ribs id as).1 formals₁ binders₁)
        (newFormals (σ.ribs id as).2 formals₂ binders₂) := by
  cases formals with
  | leaf a =>
      obtain ⟨b, hb, rfl⟩ := Option.map_eq_some_iff.1 hread
      obtain ⟨heq, -⟩ := FormTree.eq_leaf_of_identifier? hb
      obtain rfl : a = b := FormTree.leaf.inj heq
      obtain ⟨hleft, hright⟩ := hspells.leaf
      -- A rest list: one identifier, in both spellings.
      obtain ⟨x, y, hx, hy, -⟩ := (hbinds.binders a (by simp)).names
      have hid₁ : formals₁.isIdentifier = true := by
        rw [Syntax.isIdentifier_of_view hleft, hx]
        rfl
      have hid₂ : formals₂.isIdentifier = true := by
        rw [Syntax.isIdentifier_of_view hright, hy]
        rfl
      refine ⟨[formals₁], [formals₂], if_pos hid₁, if_pos hid₂, .cons hspells .nil, fun id => ?_⟩
      rw [newFormals, newFormals, if_pos hid₁, if_pos hid₂]
      have hunder := hspells.under (σ.ribs id [a])
      rw [FormTree.under, FormTree.map_leaf] at hunder
      exact ⟨_, .leaf (hbinds.resolved_under id a (by simp)), hunder⟩
  | group shape items =>
      cases shape with
      | sexp =>
          obtain ⟨rfl, -⟩ := FormTree.eq_of_collect?_identifier? hread
          obtain ⟨binders₁, binders₂, h₁, h₂, hall⟩ := hspells.subforms
          have hid₁ : ¬formals₁.isIdentifier = true := by
            have hleft := hspells.left
            rw [FormTree.left, FormTree.map_group] at hleft
            simp [isIdentifier_of_view_group hleft]
          have hid₂ : ¬formals₂.isIdentifier = true := by
            have hright := hspells.right
            rw [FormTree.right, FormTree.map_group] at hright
            simp [isIdentifier_of_view_group hright]
          refine ⟨binders₁, binders₂, (if_neg hid₁).trans h₁, (if_neg hid₂).trans h₂, hall,
            fun id => ?_⟩
          rw [newFormals, newFormals, if_neg hid₁, if_neg hid₂]
          obtain ⟨Ts, hTs, hrenamed⟩ := exists_renamed hbinds id hall
          exact ⟨.group .sexp Ts, .group hTs, .rebuildSexp hrenamed _ _⟩
      | list => cases hread
  | record fields => cases hread

/-- An atom that is no identifier in the first spelling is none in the second. -/
theorem symbol?_of_identifier? {T : TwinTree} (hT : T.All (σ.Pairs P)) (hP : σ.Ribs P)
    (h : T.identifier? = none) {stx₁ stx₂ : Syntax} (hspells : Spells T stx₁ stx₂) :
    stx₁.symbol? = none ∧ stx₂.symbol? = none := by
  cases hT with
  | @leaf a ha =>
      have hname : ¬a.1.symbol?.isSome := by
        intro hsome
        rw [FormTree.identifier?, if_pos hsome] at h
        cases h
      have hname₂ : ¬a.2.symbol?.isSome := by rwa [← (ha.resolved hP).isSome_symbol?]
      obtain ⟨hleft, hright⟩ := hspells.leaf
      rw [Syntax.symbol?_of_view hleft, Syntax.symbol?_of_view hright]
      exact ⟨Option.not_isSome_iff_eq_none.1 hname, Option.not_isSome_iff_eq_none.1 hname₂⟩
  | group _ =>
      obtain ⟨c₁, items₁, c₂, items₂, rfl, rfl, -⟩ := hspells.parts
      exact ⟨rfl, rfl⟩
  | record _ =>
      obtain ⟨c₁, raw₁, c₂, raw₂, -, -, rfl, rfl, -⟩ := hspells.fields
      exact ⟨rfl, rfl⟩

/-- A tree one of whose items is no identifier makes no rib. -/
theorem agree_newRib_stray {α β : Type} {R : α → β → Prop} {items : List TwinTree} (hP : σ.Ribs P)
    (hitems : ∀ T ∈ items, T.All (σ.Pairs P)) (hread : collect? FormTree.identifier? items = none)
    {binders₁ binders₂ : List Syntax} (hspells : SpellsAll items binders₁ binders₂)
    {f : Rib → RunM α} {g : Rib → RunM β} :
    Agree (σ.Twins n) R (newRib binders₁ >>= f) (newRib binders₂ >>= g) := by
  have hstray : (∃ stx ∈ binders₁, stx.symbol? = none) ∧ ∃ stx ∈ binders₂, stx.symbol? = none := by
    obtain ⟨T, hT, hnone⟩ := exists_mem_of_collect?_eq_none hread
    obtain ⟨stx₁, hmem₁, stx₂, hmem₂, hspells⟩ := hspells.exists_mem hT
    obtain ⟨h₁, h₂⟩ := symbol?_of_identifier? (hitems T hT) hP hnone hspells
    exact ⟨⟨stx₁, hmem₁, h₁⟩, stx₂, hmem₂, h₂⟩
  exact .of_fails ((newRib_fails hstray.1).bind f) ((newRib_fails hstray.2).bind g)

/-- Two expansions of a `lambda`. -/
theorem agree_lambda (hexpand : σ.Expands expand) (hP : σ.Ribs P)
    {head : ContextAtom × ContextAtom} {operands : List TwinTree} (hhead : σ.Denotes .lambda head)
    (hoperands : ∀ formals body, operands = formals :: body → σ.LambdaParts n P formals body)
    {form₁ form₂ : Syntax} {parts₁ parts₂ : List Syntax}
    (hparts : SpellsAll (.leaf head :: operands) parts₁ parts₂) :
    Agree (σ.Twins n) σ.OutForm (Expansion.lambda expand form₁ parts₁)
      (Expansion.lambda expand form₂ parts₂) := by
  have hlength : parts₁.length = parts₂.length := hparts.length₁.trans hparts.length₂.symm
  cases hparts with
  | @cons _ _ head₁ head₂ rest₁ rest₂ hspells htail =>
      cases htail with
      | nil => exact .failAt _ _ _ _
      | @cons formals body formals₁ formals₂ body₁ body₂ hformals hbody =>
          refine (agree_expectBody hlength 2).bind fun _ _ _ => ?_
          have hbinders (formals : Syntax) :
              (if formals.isIdentifier then some [formals] else formals.subforms?) =
                binders? formals := rfl
          rw [hbinders formals₁, hbinders formals₂]
          rcases hoperands formals body rfl with ⟨hall, hread⟩ | ⟨as, hread, hbinds, hinside⟩
          · -- The formals are neither an identifier nor a sexp of identifiers.
            cases hall with
            | @leaf a ha =>
                have hnone : (FormTree.leaf a).identifier? = none := Option.map_eq_none_iff.1 hread
                obtain ⟨h₁, h₂⟩ := symbol?_of_identifier? (.leaf ha) hP hnone hformals
                obtain ⟨hleft, hright⟩ := hformals.leaf
                obtain ⟨c₁, rfl, -⟩ := Syntax.view_eq_leaf hleft
                obtain ⟨c₂, rfl, -⟩ := Syntax.view_eq_leaf hright
                have hb₁ : binders? (.atom c₁ a.1.data) = none := by
                  simp [binders?, Syntax.isIdentifier, h₁, Syntax.subforms?]
                have hb₂ : binders? (.atom c₂ a.2.data) = none := by
                  simp [binders?, Syntax.isIdentifier, h₂, Syntax.subforms?]
                rw [hb₁, hb₂]
                exact .failAt _ _ _ _
            | @group shape items hitems =>
                obtain ⟨c₁, items₁, c₂, items₂, rfl, rfl, hspells⟩ := hformals.parts
                cases shape with
                | sexp => exact agree_newRib_stray hP hitems hread hspells
                | list => exact .failAt _ _ _ _
            | record _ =>
                obtain ⟨c₁, raw₁, c₂, raw₂, -, -, rfl, rfl, -⟩ := hformals.fields
                exact .failAt _ _ _ _
          · obtain ⟨binders₁, binders₂, h₁, h₂, hbinders, houtformals⟩ :=
              exists_binders hread hbinds hformals
            rw [h₁, h₂]
            refine (agree_newRib hbinders hbinds).bind fun rib₁ rib₂ hribs => ?_
            obtain ⟨id, rfl, rfl⟩ := hribs
            have hinner := hP.cons_ribs hbinds.binders id
            have hexpanded := agree_expandEach hexpand hinner (hbody.under (σ.ribs id as))
              (List.forall_mem_map.2 (hinside id))
            refine hexpanded.bind fun out₁ out₂ hout => ?_
            exact .pure (hout.lambda ⟨head, hhead, hspells⟩ (houtformals id))

/-! ## Clauses -/

/-- The identifiers and the expressions of clauses, in both spellings. -/
def Clauses (cs : List ((ContextAtom × ContextAtom) × TwinTree))
    (pairs₁ pairs₂ : List (Syntax × Syntax)) : Prop :=
  SpellsAll ((cs.map (·.1)).map .leaf) (pairs₁.map (·.1)) (pairs₂.map (·.1)) ∧
    SpellsAll (cs.map (·.2)) (pairs₁.map (·.2)) (pairs₂.map (·.2))

/-- A form that is no clause of a binding form. -/
def Malformed (clause : Syntax) : Prop :=
  ∀ id init, clause.subforms = [id, init] → id.symbol? = none

theorem eq_of_clause? {T : TwinTree} {c : (ContextAtom × ContextAtom) × TwinTree}
    (h : T.clause? = some c) : T = .group .sexp [.leaf c.1, c.2] := by
  match T, h with
  | .group .sexp [name, init], h =>
      obtain ⟨a, ha, rfl⟩ := Option.map_eq_some_iff.1 h
      rw [(FormTree.eq_leaf_of_identifier? ha).1]

theorem malformed_of_clause? {T : TwinTree} (hT : T.All (σ.Pairs P)) (hP : σ.Ribs P)
    (h : T.clause? = none) {stx₁ stx₂ : Syntax} (hspells : Spells T stx₁ stx₂) :
    Malformed stx₁ ∧ Malformed stx₂ := by
  -- With two subforms the form could still be a clause, so its first one is no identifier.
  have hid {first second : TwinTree} (hpair : T = .group .sexp [first, second]) :
      ∀ {id₁ id₂ : Syntax}, Spells first id₁ id₂ → id₁.symbol? = none ∧ id₂.symbol? = none := by
    subst hpair
    cases hT with
    | group hitems =>
        exact symbol?_of_identifier? (hitems first (by simp)) hP (Option.map_eq_none_iff.1 h)
  constructor
  · intro id init hparts
    obtain ⟨first, second, rfl⟩ := hspells.exists_pair (.inl (congrArg List.length hparts))
    obtain ⟨a₁, b₁, a₂, b₂, h₁, -, hfirst, -⟩ := hspells.pair
    cases h₁.symm.trans hparts
    exact (hid rfl hfirst).1
  · intro id init hparts
    obtain ⟨first, second, rfl⟩ := hspells.exists_pair (.inr (congrArg List.length hparts))
    obtain ⟨a₁, b₁, a₂, b₂, -, h₂, hfirst, -⟩ := hspells.pair
    cases h₂.symm.trans hparts
    exact (hid rfl hfirst).2

theorem parseClauses_fails {items : List Syntax} (h : ∃ clause ∈ items, Malformed clause) :
    Fails (Expansion.parseClauses items) := by
  induction items with
  | nil => simp at h
  | cons clause rest ih =>
      rw [Expansion.parseClauses]
      split
      · next id init hparts =>
        split
        · next hid =>
          refine (ih ?_).bind _
          obtain ⟨stx, hstx, hbad⟩ := h
          rcases List.mem_cons.1 hstx with rfl | hmem
          · rw [Syntax.isIdentifier, hbad id init hparts] at hid
            cases hid
          · exact ⟨stx, hmem, hbad⟩
        · exact .failAt _ _
      · exact .failAt _ _

theorem agree_parseClauses {T : World → World → Prop} {items : List TwinTree}
    {cs : List ((ContextAtom × ContextAtom) × TwinTree)}
    (hread : List.Forall₂ (fun (T : TwinTree) c => T.clause? = some c) items cs)
    (hnames : ∀ c ∈ cs, c.1.1.symbol?.isSome ∧ c.1.2.symbol?.isSome) {items₁ items₂ : List Syntax}
    (hspells : SpellsAll items items₁ items₂) :
    Agree T (Clauses cs) (Expansion.parseClauses items₁) (Expansion.parseClauses items₂) := by
  induction hread generalizing items₁ items₂ with
  | nil =>
      cases hspells
      exact .pure ⟨.nil, .nil⟩
  | @cons tree c items cs hclause _ ih =>
      obtain rfl := eq_of_clause? hclause
      obtain ⟨⟨hname₁, hname₂⟩, hnames⟩ := List.forall_mem_cons.1 hnames
      cases hspells with
      | @cons _ _ stx₁ stx₂ rest₁ rest₂ hhead htail =>
          obtain ⟨id₁, init₁, id₂, init₂, h₁, h₂, hid, hinit⟩ := hhead.pair
          have hid₁ : id₁.isIdentifier = true := by
            rw [Syntax.isIdentifier_of_view hid.leaf.1, hname₁]
          have hid₂ : id₂.isIdentifier = true := by
            rw [Syntax.isIdentifier_of_view hid.leaf.2, hname₂]
          simp only [Expansion.parseClauses, h₁, h₂, hid₁, hid₂, if_true]
          refine (ih hnames htail).bind fun pairs₁ pairs₂ hpairs => .pure ?_
          exact ⟨.cons hid hpairs.1, .cons hinit hpairs.2⟩

/-- Clauses that are read as such are taken so in both spellings. -/
theorem agree_bindingClauses {T : World → World → Prop} {clauses : TwinTree}
    {cs : List ((ContextAtom × ContextAtom) × TwinTree)} (hread : clauses.clauses? = some cs)
    (hbinds : σ.Binds P (cs.map (·.1))) {clauses₁ clauses₂ : Syntax}
    (hspells : Spells clauses clauses₁ clauses₂) :
    Agree T (Clauses cs) (Expansion.bindingClauses clauses₁) (Expansion.bindingClauses clauses₂) := by
  match clauses, hread, hspells with
  | .group .sexp items, hread, hspells =>
      obtain ⟨items₁, items₂, h₁, h₂, hall⟩ := hspells.subforms
      have hnames : ∀ c ∈ cs, c.1.1.symbol?.isSome ∧ c.1.2.symbol?.isSome := by
        intro c hc
        obtain ⟨x, y, hx, hy, -⟩ := (hbinds.binders c.1 (List.mem_map_of_mem hc)).names
        simp [hx, hy]
      rw [Expansion.bindingClauses, Expansion.bindingClauses, h₁, h₂]
      exact agree_parseClauses (forall₂_of_collect? hread) hnames hall

/-- Clauses that are not read as such are refused in both spellings. -/
theorem agree_bindingClauses_stray {α β : Type} {R : α → β → Prop} {clauses : TwinTree}
    (hP : σ.Ribs P) (hall : clauses.All (σ.Pairs P)) (hread : clauses.clauses? = none)
    {clauses₁ clauses₂ : Syntax} (hspells : Spells clauses clauses₁ clauses₂)
    {f : List (Syntax × Syntax) → RunM α} {g : List (Syntax × Syntax) → RunM β} :
    Agree (σ.Twins n) R (Expansion.bindingClauses clauses₁ >>= f)
      (Expansion.bindingClauses clauses₂ >>= g) := by
  suffices h : Fails (Expansion.bindingClauses clauses₁) ∧ Fails (Expansion.bindingClauses clauses₂)
    from .of_fails (h.1.bind f) (h.2.bind g)
  cases hsexp : clauses.isSexp with
  | false =>
      obtain ⟨h₁, h₂⟩ := hspells.subforms?_eq_none hsexp
      rw [Expansion.bindingClauses, Expansion.bindingClauses, h₁, h₂]
      exact ⟨.failAt _ _, .failAt _ _⟩
  | true =>
      obtain ⟨items, rfl⟩ := FormTree.exists_group_of_isSexp hsexp
      obtain ⟨items₁, items₂, h₁, h₂, hspellsAll⟩ := hspells.subforms
      -- One item that is no clause in either spelling is enough for the refusal.
      obtain ⟨clause, hclause, hnone⟩ := exists_mem_of_collect?_eq_none hread
      obtain ⟨stx₁, hmem₁, stx₂, hmem₂, hspellsClause⟩ := hspellsAll.exists_mem hclause
      have hpairs : clause.All (σ.Pairs P) := by
        cases hall with
        | group hitems => exact hitems clause hclause
      obtain ⟨hbad₁, hbad₂⟩ := malformed_of_clause? hpairs hP hnone hspellsClause
      rw [Expansion.bindingClauses, Expansion.bindingClauses, h₁, h₂]
      exact ⟨parseClauses_fails ⟨stx₁, hmem₁, hbad₁⟩, parseClauses_fails ⟨stx₂, hmem₂, hbad₂⟩⟩

end

end Setting

end HygienicLisp
