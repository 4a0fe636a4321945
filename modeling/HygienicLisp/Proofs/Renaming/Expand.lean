import HygienicLisp.Expansion.Expand
import HygienicLisp.Proofs.Renaming.LetForms

/-!
# Two expansions of an expression

Expressions that correspond are expanded step by step alike: at each sexp the heads have the same
value, so both are uses of the same transformer, the same core form, or applications.  The
expansions end with forms in which all identifiers resolve alike, or both fail, or both run out of
steps.

Main statement: `agree_expand`, by induction on the number of steps allowed.
-/

namespace HygienicLisp

namespace Setting

variable (σ : Setting)

/-- What the comparison relies on: the kernel has its core forms, and procedures with a template
do nothing but fill it. -/
structure Ready : Prop where
  kernel : σ.KernelForms
  fills : ∀ p a, σ.template? p = some a → p.Fills σ.world a
  quoted : ∀ p a, σ.template? p = some a → a.Literals σ.Quoted

/-- What a core form finds behind its head. -/
def CoreParts (n : Mark) (P : List (Rib × Rib)) (f : CoreForm) (operands : List TwinTree) : Prop :=
  match f with
  | .quote | .quoteSyntax => ∀ T ∈ operands, T.All σ.Spelled
  | .ifForm | .begin | .set => ∀ T ∈ operands, σ.Corresponds n P T
  | .lambda => ∀ formals body, operands = formals :: body → σ.LambdaParts n P formals body
  | .letForm => ∀ clauses body, operands = clauses :: body → σ.LetParts n P clauses body
  | .letrec => ∀ clauses body, operands = clauses :: body → σ.ClauseParts true n P clauses body
  | .parameterize => ∀ clauses body, operands = clauses :: body →
      σ.CoupleParts n P clauses ∧ ∀ T ∈ body, σ.Corresponds n P T
  | .define | .defineSyntax | .moduleForm | .require | .provide => True

variable {σ} {n : Mark} {P : List (Rib × Rib)}

theorem Denotes.eq {f g : CoreForm} {a : ContextAtom × ContextAtom} (hf : σ.Denotes f a)
    (hg : σ.Denotes g a) : f = g := by
  have h := hf.value.symm.trans hg.value
  cases h
  rfl

theorem coreParts_of_all (hP : σ.Ribs P) (f : CoreForm) {operands : List TwinTree}
    (h : ∀ T ∈ operands, T.All (σ.Pairs P)) : σ.CoreParts n P f operands := by
  have hcorresponds : ∀ T ∈ operands, σ.Corresponds n P T := fun T hT => .closed (h T hT)
  have hspelled : ∀ T ∈ operands, T.All σ.Spelled :=
    fun T hT => (h T hT).mono fun a ha => (ha.resolved hP).spelled
  cases f with
  | quote => exact hspelled
  | quoteSyntax => exact hspelled
  | ifForm => exact hcorresponds
  | begin => exact hcorresponds
  | set => exact hcorresponds
  | lambda =>
      rintro formals body rfl
      obtain ⟨hformals, hbody⟩ := List.forall_mem_cons.1 h
      exact lambdaParts_of_all hP hformals hbody
  | letForm =>
      rintro clauses body rfl
      obtain ⟨hclauses, hbody⟩ := List.forall_mem_cons.1 h
      exact letParts_of_all hP hclauses hbody
  | letrec =>
      rintro clauses body rfl
      obtain ⟨hclauses, hbody⟩ := List.forall_mem_cons.1 h
      exact clauseParts_of_all true hP hclauses hbody
  | parameterize =>
      rintro clauses body rfl
      obtain ⟨hclauses, hbody⟩ := List.forall_mem_cons.1 h
      exact ⟨coupleParts_of_all hclauses, fun T hT => .closed (hbody T hT)⟩
  | define => trivial
  | defineSyntax => trivial
  | moduleForm => trivial
  | require => trivial
  | provide => trivial

/-- A form that corresponds and has a core form at its head has the parts that the core form
asks for. -/
theorem Corresponds.coreParts {head : ContextAtom × ContextAtom} {operands : List TwinTree}
    (h : σ.Corresponds n P (.group .sexp (.leaf head :: operands))) (hP : σ.Ribs P) {f : CoreForm}
    (hhead : σ.Denotes f head) : σ.CoreParts n P f operands := by
  cases h with
  | closed hall =>
      cases hall with
      | group hitems => exact coreParts_of_all hP f (List.forall_mem_cons.1 hitems).2
  | form hplain hitems =>
      have hoperands := (List.forall_mem_cons.1 hitems).2
      rw [Spaces.treeValue?, hhead.value] at hplain
      cases f with
      | ifForm => exact hoperands
      | begin => exact hoperands
      | set => exact hoperands
      | _ => simp [headIsPlain] at hplain
  | quoted hquote hquotes hoperands =>
      obtain rfl := hhead.eq hquote
      cases f with
      | quote => exact hoperands
      | quoteSyntax => exact hoperands
      | _ => simp [CoreForm.quotes] at hquotes
  | lambda hlambda hformals hbinds hbody =>
      obtain rfl := hhead.eq hlambda
      rintro formals' body' heq
      obtain ⟨rfl, rfl⟩ := List.cons.inj heq
      exact .inr ⟨_, hformals, hbinds, hbody⟩
  | letForm hlet hclauses hbinds hinits hbody =>
      obtain rfl := hhead.eq hlet
      rintro clauses' body' heq
      obtain ⟨rfl, rfl⟩ := List.cons.inj heq
      have hname := FormTree.identifier?_of_clauses? hclauses
      exact .inr ⟨hname, .inr ⟨_, hclauses, hbinds, hinits, hbody⟩⟩
  | letrec hletrec hclauses hbinds hinits hbody =>
      obtain rfl := hhead.eq hletrec
      rintro clauses' body' heq
      obtain ⟨rfl, rfl⟩ := List.cons.inj heq
      exact .inr ⟨_, hclauses, hbinds, hinits, hbody⟩
  | namedLet hlet hname hclauses hbinds hinits hbody =>
      obtain rfl := hhead.eq hlet
      rintro clauses' body' heq
      obtain ⟨rfl, rfl⟩ := List.cons.inj heq
      -- With a name in front, this is a named `let` and not a plain one.
      obtain ⟨x, y, hx, hy, -⟩ := hname.names
      refine .inl ⟨_, rfl, by rw [hx]; rfl, by rw [hy]; rfl, fun clauses'' body'' heq => ?_⟩
      obtain ⟨rfl, rfl⟩ := List.cons.inj heq
      exact .inr ⟨_, hclauses, hname, hbinds, hinits, hbody⟩
  | parameterize hparameterize hclauses hparameters hvalues hbody =>
      obtain rfl := hhead.eq hparameterize
      rintro clauses' body' heq
      obtain ⟨rfl, rfl⟩ := List.cons.inj heq
      exact ⟨coupleParts_of_couples? hclauses hparameters hvalues, hbody⟩
  | use _ hvalue _ _ =>
      rw [hhead.value] at hvalue
      cases hvalue

/-- The head of a form that corresponds resolves alike in both spellings. -/
theorem Corresponds.resolved_head {head : ContextAtom × ContextAtom} {operands : List TwinTree}
    (h : σ.Corresponds n P (.group .sexp (.leaf head :: operands))) (hP : σ.Ribs P) :
    σ.Resolved head := by
  cases h with
  | closed hall =>
      cases hall with
      | group hitems =>
          cases hitems _ List.mem_cons_self with
          | leaf hpair => exact hpair.resolved hP
  | form _ hitems => exact (hitems _ List.mem_cons_self).leaf.resolved hP
  | quoted hhead => exact hhead.resolved
  | lambda hhead => exact hhead.resolved
  | letForm hhead => exact hhead.resolved
  | letrec hhead => exact hhead.resolved
  | namedLet hhead => exact hhead.resolved
  | parameterize hhead => exact hhead.resolved
  | use hhead => exact hhead

/-- The head of a form has the same value in both spellings. -/
theorem Corresponds.headValue? {head : TwinTree} {operands : List TwinTree}
    (h : σ.Corresponds n P (.group .sexp (head :: operands))) (hP : σ.Ribs P) {head₁ head₂ : Syntax}
    (hspells : Spells head head₁ head₂) :
    HygienicLisp.headValue? σ.spaces head₁ = σ.spaces.treeValue? head ∧
      HygienicLisp.headValue? σ.spaces head₂ = σ.spaces.treeValue? head := by
  cases head with
  | leaf a =>
      obtain ⟨hleft, hright⟩ := hspells.leaf
      refine ⟨hspells.bare₁.headValue? hleft σ.spaces, ?_⟩
      rw [hspells.bare₂.headValue? hright σ.spaces, ← (h.resolved_head hP).leafValue?]
      rfl
  | group shape items =>
      obtain ⟨c₁, items₁, c₂, items₂, rfl, rfl, -⟩ := hspells.parts
      exact ⟨rfl, rfl⟩
  | record fields =>
      obtain ⟨c₁, raw₁, c₂, raw₂, -, -, rfl, rfl, -⟩ := hspells.fields
      exact ⟨rfl, rfl⟩

/-- A use of a transformer: it has a template, and what the use expands to corresponds. -/
theorem Corresponds.template {head : ContextAtom × ContextAtom} {operands : List TwinTree}
    (h : σ.Corresponds n P (.group .sexp (.leaf head :: operands))) (hσ : σ.Ready)
    {id procedureId : ObjectId} {p : Procedure}
    (hvalue : σ.spaces.leafValue? head.1 = some (.transformer id procedureId p)) :
    ∃ a, σ.template? p = some a ∧ ∀ m out, n ≤ m → σ.world.nextMark ≤ m →
      a.fillTwin? m (.group .sexp (.leaf head :: operands)) = some out →
      σ.Corresponds (m + 1) P out := by
  have hcore {f : CoreForm} (hhead : σ.Denotes f head) : False := by
    rw [hhead.value] at hvalue
    cases hvalue
  cases h with
  | closed hall =>
      have hpair : σ.Pairs P head := by
        cases hall with
        | group hitems =>
            cases hitems _ List.mem_cons_self with
            | leaf hpair => exact hpair
      obtain ⟨a, ha⟩ := Option.isSome_iff_exists.1 (hpair.permits id procedureId p hvalue)
      refine ⟨a, ha, fun m out _ hm hout => .closed ?_⟩
      exact (hσ.quoted p a ha).pairs hm hall hout
  | form hplain _ =>
      rw [Spaces.treeValue?, hvalue] at hplain
      cases hplain
  | quoted hhead => exact (hcore hhead).elim
  | lambda hhead => exact (hcore hhead).elim
  | letForm hhead => exact (hcore hhead).elim
  | letrec hhead => exact (hcore hhead).elim
  | namedLet hhead => exact (hcore hhead).elim
  | parameterize hhead => exact (hcore hhead).elim
  | use _ hvalue' htemplate hout =>
      rw [hvalue] at hvalue'
      cases hvalue'
      exact ⟨_, htemplate, fun m out hm _ => hout m out hm⟩

/-- The parts of an application correspond. -/
theorem Corresponds.application {head : TwinTree} {operands : List TwinTree}
    (h : σ.Corresponds n P (.group .sexp (head :: operands)))
    (hcore : ∀ f, σ.spaces.treeValue? head ≠ some (.form f))
    (huse : ∀ id procedureId p, σ.spaces.treeValue? head ≠ some (.transformer id procedureId p)) :
    ∀ T ∈ head :: operands, σ.Corresponds n P T := by
  cases h with
  | closed hall =>
      cases hall with
      | group hitems => exact fun T hT => .closed (hitems T hT)
  | form _ hitems => exact hitems
  | quoted hhead => exact (hcore _ hhead.value).elim
  | lambda hhead => exact (hcore _ hhead.value).elim
  | letForm hhead => exact (hcore _ hhead.value).elim
  | letrec hhead => exact (hcore _ hhead.value).elim
  | namedLet hhead => exact (hcore _ hhead.value).elim
  | parameterize hhead => exact (hcore _ hhead.value).elim
  | use _ hvalue => exact (huse _ _ _ hvalue).elim

/-! ## Core forms -/

section

variable {expand : ExpandContext → Syntax → RunM Syntax}

/-- An expression that corresponds is an identifier in both spellings or in neither. -/
theorem Corresponds.isIdentifier {T : TwinTree} (h : σ.Corresponds n P T) (hP : σ.Ribs P)
    {stx₁ stx₂ : Syntax} (hspells : Spells T stx₁ stx₂) :
    stx₁.isIdentifier = stx₂.isIdentifier ∧ (stx₁.isIdentifier = true → σ.OutNames stx₁ stx₂) := by
  cases T with
  | leaf a =>
      have hresolved := h.leaf.resolved hP
      obtain ⟨hleft, hright⟩ := hspells.leaf
      rw [Syntax.isIdentifier_of_view hleft, Syntax.isIdentifier_of_view hright]
      exact ⟨hresolved.isSome_symbol?, fun _ => ⟨_, .leaf hresolved, hspells⟩⟩
  | group shape items =>
      obtain ⟨c₁, items₁, c₂, items₂, rfl, rfl, -⟩ := hspells.parts
      exact ⟨rfl, fun h => nomatch h⟩
  | record fields =>
      obtain ⟨c₁, raw₁, c₂, raw₂, -, -, rfl, rfl, -⟩ := hspells.fields
      exact ⟨rfl, fun h => nomatch h⟩

/-- Definitions are refused among expressions. -/
theorem fails_expectDefinitions (form : Syntax) (what : String) :
    Fails (Expansion.expectDefinitions form .expression what) :=
  .failAt _ _

/-- Two expansions of a core form: one case for each form. -/
theorem agree_core (hexpand : σ.Expands expand) (hP : σ.Ribs P) (hσ : σ.Ready) (loader : Loader)
    (ns : NamespaceId) {f : CoreForm} {head : ContextAtom × ContextAtom} {operands : List TwinTree}
    (hdenotes : σ.Denotes f head) (hoperands : σ.CoreParts n P f operands) {form₁ form₂ : Syntax}
    (hform : Spells (.group .sexp (.leaf head :: operands)) form₁ form₂) {parts₁ parts₂ : List Syntax}
    (hparts : SpellsAll (.leaf head :: operands) parts₁ parts₂) :
    Agree (σ.Twins n) σ.OutForm (Expansion.core expand loader ns f form₁ parts₁ .expression)
      (Expansion.core expand loader ns f form₂ parts₂ .expression) := by
  have hlength : parts₁.length = parts₂.length := hparts.length₁.trans hparts.length₂.symm
  -- A quotation stays as it is.
  have hquoted (hquotes : f.quotes) (h : ∀ T ∈ operands, T.All σ.Spelled) :
      Agree (σ.Twins n) σ.OutForm
        (Expansion.expectCount form₁ parts₁ 2 .oneDatum >>= fun _ => pure form₁)
        (Expansion.expectCount form₂ parts₂ 2 .oneDatum >>= fun _ => pure form₂) := by
    refine (agree_expectCount hlength 2 .oneDatum).bind fun _ _ hcount => .pure ?_
    rw [hparts.length₁] at hcount
    obtain ⟨T, rfl⟩ := List.length_eq_one_iff.1 (Nat.succ.inj hcount)
    exact ⟨_, .quoted hdenotes hquotes (h T (by simp)), hform⟩
  cases f with
  | quote => exact hquoted rfl hoperands
  | quoteSyntax => exact hquoted rfl hoperands
  | ifForm =>
      refine (agree_expectCount hlength 4 .testAndBranches).bind fun _ _ _ => ?_
      cases hparts with
      | cons hspells htail =>
          refine (agree_expandEach hexpand hP htail hoperands).bind fun outs₁ outs₂ houts => ?_
          exact .pure (houts.sequence (.inl rfl) ⟨head, hdenotes, hspells⟩)
  | begin =>
      cases hparts with
      | cons hspells htail =>
          refine (agree_expandEach hexpand hP htail hoperands).bind fun outs₁ outs₂ houts => ?_
          exact .pure (houts.sequence (.inr rfl) ⟨head, hdenotes, hspells⟩)
  | set =>
      refine (agree_expectCount hlength 3 .identifierAndValue).bind fun _ _ hcount => ?_
      cases hparts with
      | @cons _ _ head₁ head₂ _ _ hspells htail =>
          cases htail with
          | nil => cases hcount
          | @cons target _ target₁ target₂ _ _ htarget htail =>
              cases htail with
              | nil => cases hcount
              | @cons value rest value₁ value₂ _ _ hvalue hnil =>
                  cases hnil with
                  | cons _ _ => simp at hcount
                  | nil =>
                      obtain ⟨hsame, hout⟩ := (hoperands target (by simp)).isIdentifier hP htarget
                      simp only [hsame]
                      split
                      · exact .of_fails ((Fails.failAt _ _).bind _) ((Fails.failAt _ _).bind _)
                      · next hid =>
                        have hid₁ : target₁.isIdentifier = true := by
                          rw [hsame]
                          simpa using hid
                        have hexpanded := hexpand hP (hoperands value (by simp)) hvalue
                        refine hexpanded.bind fun out₁ out₂ houtvalue => .pure ?_
                        exact .set ⟨head, hdenotes, hspells⟩ (hout hid₁) houtvalue
  | lambda => exact agree_lambda hexpand hP hdenotes hoperands hparts
  | letForm => exact agree_letForm hexpand hP hσ.kernel hdenotes hoperands hparts
  | letrec => exact agree_letrec hexpand hP hdenotes hoperands hparts
  | parameterize => exact agree_parameterize hexpand hP hdenotes hoperands hparts
  | define =>
      exact .of_fails ((fails_expectDefinitions _ _).bind _) ((fails_expectDefinitions _ _).bind _)
  | defineSyntax =>
      exact .of_fails ((fails_expectDefinitions _ _).bind _) ((fails_expectDefinitions _ _).bind _)
  | require =>
      exact .of_fails ((fails_expectDefinitions _ _).bind _) ((fails_expectDefinitions _ _).bind _)
  | moduleForm => exact .of_fails ((Fails.failAt _ _).bind _) ((Fails.failAt _ _).bind _)
  | provide => exact .of_fails ((Fails.failAt _ _).bind _) ((Fails.failAt _ _).bind _)

end

/-! ## Full expansion -/

theorem agree_descend (depth : Nat) (form₁ form₂ : Syntax) :
    Agree (σ.Twins n) Eq (descend depth form₁) (descend depth form₂) := by
  refine .get_bind fun w₁ w₂ hT => ?_
  rw [hT.left.runtime, hT.right.runtime]
  split
  · split
    · exact .failAt _ _ _ _
    · exact .pure rfl
  · exact .pure rfl

theorem Corresponds.elements {Ts : List TwinTree} (h : σ.Corresponds n P (.group .list Ts)) :
    ∀ T ∈ Ts, σ.Corresponds n P T := by
  cases h with
  | closed hall =>
      cases hall with
      | group hitems => exact fun T hT => .closed (hitems T hT)
  | list h => exact h

theorem Corresponds.fields {Ts : List (String × TwinTree)} (h : σ.Corresponds n P (.record Ts)) :
    ∀ T ∈ Ts, σ.Corresponds n P T.2 := by
  cases h with
  | closed hall =>
      cases hall with
      | record hfields => exact fun T hT => .closed (hfields T hT)
  | record h => exact h

/-- `OutForm` for the fields of two records. -/
def OutFields (σ : Setting) (fields₁ fields₂ : List (String × Syntax)) : Prop :=
  ∃ Ts : List (String × TwinTree), (∀ T ∈ Ts, σ.Expanded T.2) ∧ SpellsFields Ts fields₁ fields₂

theorem agree_expandFields {expand : ExpandContext → Syntax → RunM Syntax}
    (hexpand : σ.Expands expand) (hP : σ.Ribs P) {Ts : List (String × TwinTree)}
    {fields₁ fields₂ : List (String × Syntax)} (hfields : SpellsFields Ts fields₁ fields₂)
    (hTs : ∀ T ∈ Ts, σ.Corresponds n P T.2) :
    Agree (σ.Twins n) σ.OutFields (Expansion.expandFields expand fields₁)
      (Expansion.expandFields expand fields₂) := by
  induction hfields with
  | nil => exact .pure ⟨[], by simp, .nil⟩
  | cons head _ ih =>
      obtain ⟨hT, hTs⟩ := List.forall_mem_cons.1 hTs
      refine (hexpand hP hT head).bind fun out₁ out₂ hout => ?_
      refine (ih hTs).bind fun outs₁ outs₂ houts => ?_
      obtain ⟨U, hU, hspells⟩ := hout
      obtain ⟨Us, hUs, hall⟩ := houts
      exact .pure ⟨(_, U) :: Us, List.forall_mem_cons.2 ⟨hU, hUs⟩, .cons hspells hall⟩

theorem exists_leaf_of_treeValue? {head : TwinTree} {v : Value}
    (h : σ.spaces.treeValue? head = some v) : ∃ a, head = .leaf a := by
  cases head with
  | leaf a => exact ⟨a, rfl⟩
  | group shape items => cases h
  | record fields => cases h

section

variable {expand : Nat → ExpandContext → Syntax → RunM Syntax}

theorem expandPlain_of_symbol?_eq_none {a : ContextAtom} (ha : a.symbol? = none) (c : Context)
    (depth : Nat) :
    Expansion.expandPlain expand depth (.atom c a.data) = pure (.atom c a.data) := by
  cases hdata : a.data with
  | symbol name => simp [ContextAtom.symbol?, hdata] at ha
  | _ => rfl

/-- Two expansions of an atom: an identifier is refused in both spellings if it denotes a core
form or a transformer. -/
theorem agree_expandPlain_leaf {a : ContextAtom × ContextAtom} (ha : σ.Resolved a)
    {form₁ form₂ : Syntax} (hform : Spells (.leaf a) form₁ form₂) (depth : Nat) :
    Agree (σ.Twins n) σ.OutForm (Expansion.expandPlain expand depth form₁)
      (Expansion.expandPlain expand depth form₂) := by
  have hout (hvalue : ∀ f, σ.spaces.leafValue? a.1 ≠ some (.form f)) : σ.OutForm form₁ form₂ :=
    ⟨.leaf a, .leaf ha hvalue, hform⟩
  obtain ⟨hleft, hright⟩ := hform.leaf
  have hvalue₁ := hform.bare₁.headValue? hleft σ.spaces
  have hvalue₂ := hform.bare₂.headValue? hright σ.spaces
  rw [← ha.leafValue?] at hvalue₂
  obtain ⟨c₁, rfl, -⟩ := Syntax.view_eq_leaf hleft
  obtain ⟨c₂, rfl, -⟩ := Syntax.view_eq_leaf hright
  cases ha with
  | @data a₁ a₂ hdata hname =>
      have hname₂ : a₂.symbol? = none := by
        rw [ContextAtom.symbol?, ← hdata]
        exact hname
      rw [expandPlain_of_symbol?_eq_none hname, expandPlain_of_symbol?_eq_none hname₂]
      refine .pure (hout fun f => ?_)
      simp [Spaces.leafValue?, Spaces.leafBinding, hname]
  | @name a₁ a₂ x y hx hy _ _ =>
      have hdata₁ : a₁.data = .symbol x := ContextAtom.data_eq_of_symbol? hx
      have hdata₂ : a₂.data = .symbol y := ContextAtom.data_eq_of_symbol? hy
      simp only [hdata₁, hdata₂] at hvalue₁ hvalue₂ hout ⊢
      refine .get_bind fun w₁ w₂ hT => ?_
      have hspaces₁ : w₁.spaces = σ.spaces := hT.left.spaces
      have hspaces₂ : w₂.spaces = σ.spaces := hT.right.spaces
      rw [hspaces₁, hspaces₂, hvalue₁, hvalue₂]
      split
      · exact .failAt _ _ _ _
      · exact .failAt _ _ _ _
      · next hform _ => exact .pure (hout hform)

/-- Two expansions of an expression that is no sexp. -/
theorem agree_expandPlain {depth : Nat} (hexpand : σ.Expands (expand depth)) (hP : σ.Ribs P)
    {T : TwinTree} (hT : σ.Corresponds n P T) (hplain : T.isSexp = false) {form₁ form₂ : Syntax}
    (hform : Spells T form₁ form₂) :
    Agree (σ.Twins n) σ.OutForm (Expansion.expandPlain expand depth form₁)
      (Expansion.expandPlain expand depth form₂) := by
  cases T with
  | leaf a => exact agree_expandPlain_leaf (hT.leaf.resolved hP) hform depth
  | group shape items =>
      cases shape with
      | sexp => cases hplain
      | list =>
          obtain ⟨c₁, items₁, c₂, items₂, rfl, rfl, hitems⟩ := hform.parts
          refine (agree_expandEach hexpand hP hitems hT.elements).bind fun outs₁ outs₂ houts => ?_
          exact .pure houts.list
  | record fields =>
      obtain ⟨c₁, raw₁, c₂, raw₂, fields₁, fields₂, rfl, rfl, h₁, h₂, hall⟩ := hform.fields
      rw [Expansion.expandPlain, Expansion.expandPlain, h₁, h₂]
      refine (agree_expandFields hexpand hP hall hT.fields).bind fun outs₁ outs₂ houts => .pure ?_
      obtain ⟨Us, hUs, hspells⟩ := houts
      exact ⟨.record Us, .record hUs, .record hspells _ _⟩

/-- Two expansions of a sexp.  The value at the head decides what it is. -/
theorem agree_expandSexp (hσ : σ.Ready) (hexpand : ∀ depth, σ.Expands (expand depth))
    (loader : Loader) (ns : NamespaceId) (fuel : Nat) (hP : σ.Ribs P) {n : Mark} {Ts : List TwinTree}
    (hT : σ.Corresponds n P (.group .sexp Ts)) {form₁ form₂ : Syntax}
    (hform : Spells (.group .sexp Ts) form₁ form₂) (depth : Nat) :
    Agree (σ.Twins n) σ.OutForm
      (Expansion.expandSexp ns expand loader fuel depth .expression form₁)
      (Expansion.expandSexp ns expand loader fuel depth .expression form₂) := by
  induction fuel generalizing n Ts form₁ form₂ depth with
  | zero => exact .exhausted
  | succ fuel ih =>
      obtain ⟨parts₁, parts₂, h₁, h₂, hparts⟩ := hform.subforms
      rw [Expansion.expandSexp, Expansion.expandSexp, Syntax.subforms, Syntax.subforms, h₁, h₂,
        Option.getD_some, Option.getD_some]
      cases hparts with
      | nil => exact .failAt _ _ _ _
      | @cons head operands head₁ head₂ rest₁ rest₂ hhead hrest =>
          refine agree_getSpaces_bind ?_
          obtain ⟨hvalue₁, hvalue₂⟩ := hT.headValue? hP hhead
          rw [hvalue₁, hvalue₂]
          split
          · next id procedureId p hvalue =>
            obtain ⟨a, rfl⟩ := exists_leaf_of_treeValue? hvalue
            obtain ⟨template, htemplate, hfilled⟩ := hT.template hσ hvalue
            refine (agree_descend depth form₁ form₂).bind fun depth' _ hdepth => ?_
            subst hdepth
            refine agree_invoke_bind (hσ.fills p template htemplate) hform fuel id procedureId
              fun m out result₁ result₂ hm hnext hout hspells => ?_
            have hresult := hfilled m out hm hnext hout
            obtain ⟨hsexp₁, hsexp₂⟩ := hspells.isSexp
            simp only [hsexp₁, hsexp₂]
            split
            -- The result is a form in parentheses again, and there is less fuel for it.
            · next hsexp =>
              obtain ⟨Us, rfl⟩ := FormTree.exists_group_of_isSexp hsexp
              exact ih hresult hspells depth'
            · next hplain =>
              have hplain : out.isSexp = false := by simpa using hplain
              exact agree_expandPlain (hexpand depth') hP hresult hplain hspells
          · next f hvalue =>
            obtain ⟨a, rfl⟩ := exists_leaf_of_treeValue? hvalue
            have hdenotes : σ.Denotes f a := ⟨hT.resolved_head hP, hvalue⟩
            exact agree_core (hexpand depth) hP hσ loader ns hdenotes (hT.coreParts hP hdenotes) hform
              (.cons hhead hrest)
          · next huse hcore =>
            have hcorresponds := hT.application hcore huse
            refine (agree_expandEach (hexpand depth) hP (.cons hhead hrest) hcorresponds).bind
              fun outs₁ outs₂ houts => ?_
            exact .pure houts.apply

end

/-- Two expansions of expressions that correspond end with spellings of one form, or both fail, or both
run out of steps. -/
theorem agree_expand (hσ : σ.Ready) (loader : Loader) (ns : NamespaceId) (fuel depth : Nat) :
    σ.Expands (Expansion.expand loader ns fuel depth) := by
  induction fuel generalizing depth with
  | zero =>
      intro n P T stx₁ stx₂ _ _ _
      exact .exhausted
  | succ fuel ih =>
      intro n P T stx₁ stx₂ hP hT hspells
      obtain ⟨hsexp₁, hsexp₂⟩ := hspells.isSexp
      refine (agree_descend depth stx₁ stx₂).bind fun depth' _ hdepth => ?_
      subst hdepth
      refine Agree.mapError _ _ ?_
      rw [hsexp₁, hsexp₂]
      split
      · next hsexp =>
        obtain ⟨Ts, rfl⟩ := FormTree.exists_group_of_isSexp hsexp
        exact agree_expandSexp hσ ih loader ns fuel hP hT hspells depth'
      · next hplain =>
        have hplain : T.isSexp = false := by simpa using hplain
        exact agree_expandPlain (ih depth') hP hT hplain hspells

end Setting

end HygienicLisp
