import HygienicLisp.Proofs.Cells
import HygienicLisp.Proofs.Renaming.BindingForms

/-!
# Two expansions of `let`, `letrec` and `parameterize`

A named `let` is expanded by way of a form that is put together from identifiers of the kernel
and from its parts.  The identifiers of the kernel have no marks, but a name that the caller
gives to the loop does not capture them either: a rib is keyed by what its binder denotes
outside, and no identifier of the caller denotes a cell of the kernel
(`Setting.Binders.leafKey_ne_kernel`).
-/

namespace HygienicLisp

namespace Setting

variable {σ : Setting} {n : Mark} {P : List (Rib × Rib)} {expand : ExpandContext → Syntax → RunM Syntax}

/-- Two expansions of a `letrec`. -/
theorem agree_letrec (hexpand : σ.Expands expand) (hP : σ.Ribs P)
    {head : ContextAtom × ContextAtom} {operands : List TwinTree} (hhead : σ.Denotes .letrec head)
    (hoperands : ∀ clauses body, operands = clauses :: body → σ.ClauseParts true n P clauses body)
    {form₁ form₂ : Syntax} {parts₁ parts₂ : List Syntax}
    (hparts : SpellsAll (.leaf head :: operands) parts₁ parts₂) :
    Agree (σ.Twins n) σ.OutForm (Expansion.letrec expand form₁ parts₁)
      (Expansion.letrec expand form₂ parts₂) := by
  have hlength : parts₁.length = parts₂.length := hparts.length₁.trans hparts.length₂.symm
  cases hparts with
  | @cons _ _ head₁ head₂ rest₁ rest₂ hspells htail =>
      cases htail with
      | nil => exact .failAt _ _ _ _
      | @cons clauses body clauses₁ clauses₂ body₁ body₂ hclauses hbody =>
          refine (agree_expectBody hlength 2).bind fun _ _ _ => ?_
          rcases hoperands clauses body rfl with ⟨hall, hread⟩ | ⟨cs, hread, hbinds, hinits, hinside⟩
          · exact agree_bindingClauses_stray hP hall hread hclauses
          · refine (agree_bindingClauses hread hbinds hclauses).bind fun pairs₁ pairs₂ hpairs => ?_
            refine (agree_newRib hpairs.1 hbinds).bind fun rib₁ rib₂ hribs => ?_
            obtain ⟨id, rfl, rfl⟩ := hribs
            have hinner := hP.cons_ribs hbinds.binders id
            have hexpandedInits := agree_expandEach hexpand hinner
              (hpairs.2.under (σ.ribs id (cs.map (·.1))))
              (List.forall_mem_map.2 (List.forall_mem_map.2 (hinits id)))
            refine hexpandedInits.bind fun inits₁ inits₂ hinits => ?_
            have hexpandedBody := agree_expandEach hexpand hinner
              (hbody.under (σ.ribs id (cs.map (·.1)))) (List.forall_mem_map.2 (hinside id))
            refine hexpandedBody.bind fun out₁ out₂ hout => .pure ?_
            obtain ⟨Ts, hTs, hrenamed⟩ := exists_renamed hbinds id hpairs.1
            exact hout.binding (.inr rfl) ⟨head, hhead, hspells⟩
              (outClauses_rebuildClauses hTs hrenamed hinits)

/-- Two expansions of a `let` that has no name. -/
theorem agree_plainLet (hexpand : σ.Expands expand) (hP : σ.Ribs P)
    {head : ContextAtom × ContextAtom} {clauses : TwinTree} {body : List TwinTree}
    (hhead : σ.Denotes .letForm head) (hparts : σ.ClauseParts false n P clauses body)
    {form₁ form₂ head₁ head₂ clauses₁ clauses₂ : Syntax} {body₁ body₂ : List Syntax}
    (hspells : Spells (.leaf head) head₁ head₂) (hclauses : Spells clauses clauses₁ clauses₂)
    (hbody : SpellsAll body body₁ body₂) (hid₁ : clauses₁.isIdentifier = false)
    (hid₂ : clauses₂.isIdentifier = false) :
    Agree (σ.Twins n) σ.OutForm (Expansion.letForm expand form₁ (head₁ :: clauses₁ :: body₁))
      (Expansion.letForm expand form₂ (head₂ :: clauses₂ :: body₂)) := by
  have hlength : (head₁ :: clauses₁ :: body₁).length = (head₂ :: clauses₂ :: body₂).length := by
    simp [hbody.length₁, hbody.length₂]
  rw [Expansion.letForm, Expansion.letForm, hid₁, hid₂]
  refine (agree_expectBody hlength 2).bind fun _ _ _ => ?_
  rcases hparts with ⟨hall, hread⟩ | ⟨cs, hread, hbinds, hinits, hinside⟩
  · exact agree_bindingClauses_stray hP hall hread hclauses
  · refine (agree_bindingClauses hread hbinds hclauses).bind fun pairs₁ pairs₂ hpairs => ?_
    have hexpandedInits := agree_expandEach hexpand hP hpairs.2 (List.forall_mem_map.2 hinits)
    refine hexpandedInits.bind fun inits₁ inits₂ hinits => ?_
    refine (agree_newRib hpairs.1 hbinds).bind fun rib₁ rib₂ hribs => ?_
    obtain ⟨id, rfl, rfl⟩ := hribs
    have hinner := hP.cons_ribs hbinds.binders id
    have hexpandedBody := agree_expandEach hexpand hinner
      (hbody.under (σ.ribs id (cs.map (·.1)))) (List.forall_mem_map.2 (hinside id))
    refine hexpandedBody.bind fun out₁ out₂ hout => .pure ?_
    obtain ⟨Ts, hTs, hrenamed⟩ := exists_renamed hbinds id hpairs.1
    exact hout.binding (.inl rfl) ⟨head, hhead, hspells⟩
      (outClauses_rebuildClauses hTs hrenamed hinits)

/-! ## Identifiers of the kernel -/

variable (σ) in
/-- The identifier for a kernel name. -/
def kernelAtom (name : String) : ContextAtom :=
  ⟨[.moduleRename σ.world.runtime.kernel.space], .symbol name⟩

variable (σ) in
/-- The kernel is a module of its own, and its `lambda` and `letrec` are the core forms. -/
structure KernelForms : Prop where
  apart : σ.world.runtime.kernel.space ≠ σ.home
  lambda : σ.spaces.leafValue? (σ.kernelAtom "lambda") = some (.form .lambda)
  letrec : σ.spaces.leafValue? (σ.kernelAtom "letrec") = some (.form .letrec)

theorem resolved_kernelAtom (name : String) : σ.Resolved (σ.kernelAtom name, σ.kernelAtom name) :=
  .name rfl rfl (.inl rfl) (.inl ⟨rfl, rfl⟩)

end Setting

/-- An identifier of the caller denotes no cell but those of its namespace. -/
theorem Spaces.owner_of_callerChain {spaces : Spaces} {ns : NamespaceId} {ribs : List Rib}
    {x : String} {c : CellRef}
    (h : spaces.leafBinding ⟨callerChain ns ribs, .symbol x⟩ = some (.cell c)) : c.owner = ns := by
  induction ribs with
  | nil =>
      have hstep : spaces.leafBinding ⟨callerChain ns [], .symbol x⟩ =
          (spaces.substitute? ns x none .empty .empty).map .cell := by
        simp only [leafBinding, ContextAtom.symbol?, callerChain, resolveWraps, resolveStep,
          List.map_nil, List.nil_append, List.foldr_cons, List.foldr_nil, reduceCtorEq, if_false]
        cases hsub : spaces.substitute? ns x none (wrapMarks [.space ns]) .empty <;>
          (rw [show wrapMarks [.space ns] = .empty from rfl] at hsub; simp [hsub])
      rw [hstep] at h
      obtain ⟨c', hc', hcell⟩ := Option.map_eq_some_iff.1 h
      cases hcell
      exact owner_of_substitute? hc'
  | cons rib ribs ih =>
      have hpush := spaces.leafBinding_push_rename rib (a := ⟨callerChain ns ribs, .symbol x⟩) rfl
      have hchain : spaces.leafBinding ⟨callerChain ns (rib :: ribs), .symbol x⟩ =
          spaces.leafBinding (ContextAtom.push (.rename rib) ⟨callerChain ns ribs, .symbol x⟩) := rfl
      rw [hchain, hpush] at h
      split at h
      · cases h
      · exact ih h

namespace Setting

variable {σ : Setting} {n : Mark} {P : List (Rib × Rib)} {expand : ExpandContext → Syntax → RunM Syntax}

/-- No binder has the key of an identifier of the kernel. -/
theorem Binders.leafKey_ne_kernel {a : ContextAtom × ContextAtom} (h : σ.Binders P a)
    (hkernel : σ.KernelForms) {name : String} {v : Value}
    (hv : σ.spaces.leafValue? (σ.kernelAtom name) = some v) :
    σ.spaces.leafKey a.1 ≠ σ.spaces.leafKey (σ.kernelAtom name) ∧
      σ.spaces.leafKey a.2 ≠ σ.spaces.leafKey (σ.kernelAtom name) := by
  -- What a kernel name denotes is a cell of the kernel.
  obtain ⟨c, hc, howner⟩ : ∃ c, σ.spaces.leafBinding (σ.kernelAtom name) = some (.cell c) ∧
      c.owner = σ.world.runtime.kernel.space := by
    rw [Spaces.leafValue?] at hv
    split at hv
    · next c hc =>
      refine ⟨c, hc, ?_⟩
      obtain ⟨c', hc', hcell⟩ := Option.map_eq_some_iff.1 hc
      cases hcell
      exact Spaces.owner_of_substitute? hc'
    · cases hv
  have hmarks : (σ.spaces.leafKey (σ.kernelAtom name)).marks = .empty := rfl
  have horigin : (σ.spaces.leafKey (σ.kernelAtom name)).origin = .cell c := by
    simp only [Spaces.leafKey, hc, Option.getD_some]
  have hcaller {b : Option Binding} {x : String} (hb : ∀ c, b = some (.cell c) → c.owner = σ.home) :
      b.getD (.free x) ≠ .cell c := by
    intro hcell
    cases b with
    | none => cases hcell
    | some b =>
        obtain rfl : b = .cell c := hcell
        exact hkernel.apart (howner.symm.trans (hb c rfl))
  cases h with
  | caller _ =>
      rw [leafKey_caller₁, leafKey_caller₂]
      constructor
      · intro hkey
        have hsame := congrArg Key.origin hkey
        rw [horigin] at hsame
        exact hcaller (fun _ => Spaces.owner_of_callerChain) hsame
      · intro hkey
        have hsame := congrArg Key.origin hkey
        rw [horigin] at hsame
        exact hcaller (fun _ => Spaces.owner_of_callerChain) hsame
  | @own Q older x _ hown =>
      constructor
      · intro hkey
        refine hown ?_
        rw [← wrapMarks_own₁ Q older x, ← hmarks, ← hkey]
        rfl
      · intro hkey
        refine hown ?_
        rw [← wrapMarks_own₂ Q older x, ← hmarks, ← hkey]
        rfl

/-- An identifier of the kernel is not captured by a variable of another form. -/
theorem denotes_kernelAtom_under {name : ContextAtom × ContextAtom} (h : σ.Binders P name)
    (hkernel : σ.KernelForms) {f : CoreForm} {x : String}
    (hx : σ.spaces.leafValue? (σ.kernelAtom x) = some (.form f)) (id : RibId) :
    σ.Denotes f (under (σ.ribs id [name]) (σ.kernelAtom x, σ.kernelAtom x)) := by
  obtain ⟨hne₁, hne₂⟩ := h.leafKey_ne_kernel hkernel hx
  have h₁ := σ.spaces.leafBinding_push_rename (σ.ribs id [name]).1 (a := σ.kernelAtom x) rfl
  have h₂ := σ.spaces.leafBinding_push_rename (σ.ribs id [name]).2 (a := σ.kernelAtom x) rfl
  simp only [ribs, List.map_cons, List.map_nil, List.findIdx?_singleton, hne₁, hne₂,
    decide_false, Bool.false_eq_true, if_false] at h₁ h₂
  refine ⟨.name rfl rfl (.inl rfl) (.inl ⟨rfl, h₁.trans h₂.symm⟩), ?_⟩
  rw [← hx]
  simp only [Spaces.leafValue?, under]
  rw [show σ.spaces.leafBinding ((σ.kernelAtom x).push (.rename (σ.ribs id [name]).1)) = _ from h₁]

/-- A variable has no value at the head of a form. -/
theorem leafValue?_of_ribs {name : ContextAtom × ContextAtom} {x : String}
    (hx : name.1.symbol? = some x) (id : RibId) :
    σ.spaces.leafValue? (name.1.push (.rename (σ.ribs id [name]).1)) = none := by
  have hfound : (σ.ribs id [name]).1.keys.findIdx? (· = σ.spaces.leafKey name.1) = some 0 := by
    simp [ribs]
  have hbinding := σ.spaces.leafBinding_push_rename (σ.ribs id [name]).1 hx
  rw [hfound] at hbinding
  rw [Spaces.leafValue?, hbinding]

/-- A variable is a pair of atoms inside its own rib. -/
theorem Binders.pairs_under {name : ContextAtom × ContextAtom} (h : σ.Binders P name)
    (hP : σ.Ribs P) (id : RibId) :
    σ.Pairs (σ.ribs id [name] :: P) (under (σ.ribs id [name]) name) := by
  obtain ⟨x, y, hx, -, -⟩ := h.names
  have hpermits : σ.Permits (name.1.push (.rename (σ.ribs id [name]).1)) := by
    intro object procedureId p hvalue
    rw [leafValue?_of_ribs hx id] at hvalue
    cases hvalue
  have hbinders : ∀ a ∈ [name], σ.Binders P a := by simpa using h
  have hparallel := (hP.cons_ribs hbinders id).parallel
  cases h with
  | @caller x y hnames =>
      have hscope : callerNames (σ.ribs id [(σ.caller₁ P x, σ.caller₂ P y)]) = [(x, y)] := by
        simp [callerNames, ribs, leafKey_caller₁, leafKey_caller₂]
      have hsame : SameName (scope (σ.ribs id [(σ.caller₁ P x, σ.caller₂ P y)] :: P)) x y := by
        rw [scope, List.flatMap_cons, hscope]
        exact .inl ⟨rfl, rfl⟩
      exact .caller hsame hnames hpermits
  | @own Q older x hQ hmarks =>
      exact .own (Q := _ :: Q) (List.forall_mem_cons.2 ⟨hparallel, hQ⟩) hmarks hpermits

/-- What binders fulfil outside of a rib they fulfil inside of it. -/
theorem Binds.under {as : List (ContextAtom × ContextAtom)} (h : σ.Binds P as) {r : Rib × Rib}
    (hr : Parallel r) : σ.Binds (r :: P) (as.map (under r)) := by
  have hbinders : ∀ a ∈ as, σ.Binders (r :: P) (Setting.under r a) := by
    intro a ha
    cases h.binders a ha with
    | caller hnames => exact .caller hnames
    | @own Q older x hQ hmarks => exact .own (Q := r :: Q) (List.forall_mem_cons.2 ⟨hr, hQ⟩) hmarks
  have hinner {a : ContextAtom × ContextAtom} {x y : String}
      (ha : Setting.under r a = (σ.caller₁ (r :: P) x, σ.caller₂ (r :: P) y)) :
      a = (σ.caller₁ P x, σ.caller₂ P y) := by
    obtain ⟨⟨wraps₁, data₁⟩, wraps₂, data₂⟩ := a
    simp only [Setting.under, caller₁_cons, caller₂_cons, ContextAtom.push, pushWrap_rename,
      Prod.mk.injEq, ContextAtom.mk.injEq, List.cons.injEq, true_and] at ha
    obtain ⟨⟨rfl, rfl⟩, rfl, rfl⟩ := ha
    rfl
  refine ⟨List.forall_mem_map.2 hbinders, ?_⟩
  rw [KeysAlike, List.forall_mem_map]
  intro a ha
  rw [List.forall_mem_map]
  intro b hb
  refine (hbinders a ha).keys_iff (hbinders b hb) fun heq heq' => ?_
  have hkeys := h.keys a ha b hb
  rw [hinner heq, hinner heq', leafKey_caller₁_inj, leafKey_caller₂_inj] at hkeys
  exact hkeys

/-! ## The named `let` -/

/-- The procedure that a named `let` calls. -/
def loopProcedure (head : ContextAtom × ContextAtom) (as : List (ContextAtom × ContextAtom))
    (body : List TwinTree) : TwinTree :=
  .group .sexp (.leaf head :: .group .sexp (as.map .leaf) :: body)

variable (σ) in
/-- The form that a named `let` stands for. -/
def loopForm (name : ContextAtom × ContextAtom)
    (cs : List ((ContextAtom × ContextAtom) × TwinTree)) (body : List TwinTree) : TwinTree :=
  .group .sexp (.group .sexp [.leaf (σ.kernelAtom "letrec", σ.kernelAtom "letrec"),
      .group .sexp [.group .sexp [.leaf name,
        loopProcedure (σ.kernelAtom "lambda", σ.kernelAtom "lambda") (cs.map (·.1)) body]],
      .leaf name] :: cs.map (·.2))

theorem collect?_identifier?_map_leaf {as : List (ContextAtom × ContextAtom)}
    (h : ∀ a ∈ as, a.1.symbol?.isSome) : collect? FormTree.identifier? (as.map .leaf) = some as := by
  induction as with
  | nil => rfl
  | cons a as ih =>
      obtain ⟨ha, has⟩ := List.forall_mem_cons.1 h
      rw [List.map_cons, collect?, FormTree.identifier?, if_pos ha, Option.bind_some, ih has]
      rfl

/-- The form that a named `let` stands for corresponds, if the parts of the `let` do. -/
theorem corresponds_loopForm (hP : σ.Ribs P) (hkernel : σ.KernelForms)
    {name : ContextAtom × ContextAtom} {cs : List ((ContextAtom × ContextAtom) × TwinTree)}
    {body : List TwinTree} (hname : σ.Binders P name) (hbinds : σ.Binds P (cs.map (·.1)))
    (hinits : ∀ c ∈ cs, σ.Corresponds n P c.2)
    (hbody : ∀ id id', ∀ T ∈ body,
      σ.Corresponds n (σ.ribs id' ((cs.map (·.1)).map (under (σ.ribs id [name]))) ::
          σ.ribs id [name] :: P)
        ((T.under (σ.ribs id [name])).under
          (σ.ribs id' ((cs.map (·.1)).map (under (σ.ribs id [name])))))) :
    σ.Corresponds n P (σ.loopForm name cs body) := by
  obtain ⟨x, y, hx, -, -⟩ := hname.names
  have hnames : σ.Binds P [name] := by
    refine ⟨by simpa using hname, ?_⟩
    intro a ha b hb
    obtain rfl := List.mem_singleton.1 ha
    obtain rfl := List.mem_singleton.1 hb
    simp
  refine .form rfl (List.forall_mem_cons.2 ⟨?_, List.forall_mem_map.2 hinits⟩)
  have hclauses (procedure : TwinTree) : FormTree.clauses? (.group .sexp
      [.group .sexp [.leaf name, procedure]]) = some [(name, procedure)] := by
    simp [FormTree.clauses?, collect?, FormTree.clause?, FormTree.identifier?, hx]
  refine .letrec ⟨resolved_kernelAtom "letrec", hkernel.letrec⟩ (hclauses _) hnames (fun id => ?_)
    fun id => ?_
  · -- The procedure stands inside the rib of the name, its body inside that of the parameters.
    have hparallel := (hP.cons_ribs hnames.binders id).parallel
    have hinner := hbinds.under hparallel
    rw [List.forall_mem_singleton]
    simp only [loopProcedure, FormTree.under, FormTree.map_group, FormTree.map_leaf, List.map_cons,
      List.map_map]
    refine .lambda (denotes_kernelAtom_under hname hkernel hkernel.lambda id) ?_ hinner
      fun id' T hT => ?_
    · have hidentifiers : ∀ a ∈ (cs.map (·.1)).map (under (σ.ribs id [name])),
          a.1.symbol?.isSome := by
        intro a ha
        obtain ⟨x, y, hx, -, -⟩ := (hinner.binders a ha).names
        rw [hx]
        rfl
      have hread := collect?_identifier?_map_leaf hidentifiers
      rw [List.map_map, List.map_map] at hread
      exact hread
    · obtain ⟨T, hmem, rfl⟩ := List.mem_map.1 hT
      exact hbody id id' T hmem
  · rw [List.forall_mem_singleton, FormTree.under, FormTree.map_leaf]
    exact .closed (.leaf (hname.pairs_under hP id))

theorem agree_kernelIdentifier (name : String) (site₁ site₂ : Syntax) :
    Agree (σ.Twins n) (fun id₁ id₂ => Spells (.leaf (σ.kernelAtom name, σ.kernelAtom name)) id₁ id₂)
      (kernelIdentifier name site₁) (kernelIdentifier name site₂) := by
  refine .get_bind fun w₁ w₂ hT => .pure ?_
  rw [hT.left.runtime, hT.right.runtime]
  refine ⟨?_, ?_, ?_, ?_⟩
  · exact Syntax.Carries.addWrap (.atom (by simp) (by simp)) trivial
  · exact Syntax.Carries.addWrap (.atom (by simp) (by simp)) trivial
  · rw [Syntax.view_addWrap, Syntax.view_atom, FormTree.push, FormTree.map_leaf, FormTree.left,
      FormTree.map_leaf]
    rfl
  · rw [Syntax.view_addWrap, Syntax.view_atom, FormTree.push, FormTree.map_leaf, FormTree.right,
      FormTree.map_leaf]
    rfl

/-- Two expansions of a named `let`. -/
theorem agree_namedLet (hexpand : σ.Expands expand) (hP : σ.Ribs P) (hkernel : σ.KernelForms)
    {head : TwinTree} {name : ContextAtom × ContextAtom} {operands : List TwinTree}
    (hoperands : ∀ clauses body, operands = clauses :: body → σ.NamedParts n P name clauses body)
    {form₁ form₂ : Syntax} {parts₁ parts₂ : List Syntax}
    (hparts : SpellsAll (head :: .leaf name :: operands) parts₁ parts₂) :
    Agree (σ.Twins n) σ.OutForm (Expansion.namedLet expand form₁ parts₁)
      (Expansion.namedLet expand form₂ parts₂) := by
  have hlength : parts₁.length = parts₂.length := hparts.length₁.trans hparts.length₂.symm
  cases hparts with
  | @cons _ _ head₁ head₂ _ _ hspells htail =>
      cases htail with
      | @cons _ _ name₁ name₂ _ _ hname htail =>
          cases htail with
          | nil => exact .failAt _ _ _ _
          | @cons clauses body clauses₁ clauses₂ body₁ body₂ hclauses hbody =>
              refine (agree_expectBody hlength 3).bind fun _ _ _ => ?_
              rcases hoperands clauses body rfl with
                ⟨hall, hread⟩ | ⟨cs, hread, hbinder, hbinds, hinits, hinside⟩
              · exact agree_bindingClauses_stray hP hall hread hclauses
              · refine (agree_bindingClauses hread hbinds hclauses).bind fun pairs₁ pairs₂ hpairs => ?_
                refine (agree_kernelIdentifier "lambda" form₁ form₂).bind fun l₁ l₂ hlambda => ?_
                refine (agree_kernelIdentifier "letrec" form₁ form₂).bind fun r₁ r₂ hletrec => ?_
                have hloop := corresponds_loopForm hP hkernel hbinder hbinds hinits hinside
                have hformals := Spells.rebuildSexp hpairs.1 clauses₁ clauses₂
                have hprocedure := Spells.rebuildSexp (.cons hlambda (.cons hformals hbody)) form₁ form₂
                have hclause := Spells.rebuildSexp (.cons hname (.cons hprocedure .nil)) form₁ form₂
                have hbindings := Spells.rebuildSexp (.cons hclause .nil) form₁ form₂
                have hoperator := Spells.rebuildSexp
                  (.cons hletrec (.cons hbindings (.cons hname .nil))) form₁ form₂
                exact hexpand hP hloop (Spells.rebuildSexp (.cons hoperator hpairs.2) form₁ form₂)

variable (σ) in
/-- What stands behind the head of a `let`: a name, clauses and a body, or clauses and a body. -/
def LetParts (n : Mark) (P : List (Rib × Rib)) (clauses : TwinTree) (body : List TwinTree) : Prop :=
  (∃ name, clauses = .leaf name ∧ name.1.symbol?.isSome ∧ name.2.symbol?.isSome ∧
      ∀ clauses body', body = clauses :: body' → σ.NamedParts n P name clauses body') ∨
    clauses.identifier? = none ∧ σ.ClauseParts false n P clauses body

theorem letParts_of_all (hP : σ.Ribs P) {clauses : TwinTree} {body : List TwinTree}
    (hclauses : clauses.All (σ.Pairs P)) (hbody : ∀ T ∈ body, T.All (σ.Pairs P)) :
    σ.LetParts n P clauses body := by
  cases hname : clauses.identifier? with
  | none => exact .inr ⟨hname, clauseParts_of_all false hP hclauses hbody⟩
  | some name =>
      have hnamed := hclauses.identifier? hname
      obtain ⟨rfl, hsome⟩ := FormTree.eq_leaf_of_identifier? hname
      refine .inl ⟨name, rfl, hsome, ?_, ?_⟩
      · rwa [← (hnamed.1.resolved hP).isSome_symbol?]
      · rintro clauses body' rfl
        obtain ⟨hfirst, hrest⟩ := List.forall_mem_cons.1 hbody
        exact namedParts_of_all hP hnamed hfirst hrest

/-- Clauses that are no identifier are none in either spelling. -/
theorem ClauseParts.not_identifier {recursive : Bool} {clauses : TwinTree} {body : List TwinTree}
    (h : σ.ClauseParts recursive n P clauses body) (hP : σ.Ribs P) (hname : clauses.identifier? = none)
    {clauses₁ clauses₂ : Syntax} (hspells : Spells clauses clauses₁ clauses₂) :
    clauses₁.isIdentifier = false ∧ clauses₂.isIdentifier = false := by
  rcases h with ⟨hall, -⟩ | ⟨cs, hread, -⟩
  · obtain ⟨h₁, h₂⟩ := symbol?_of_identifier? hall hP hname hspells
    rw [Syntax.isIdentifier, Syntax.isIdentifier, h₁, h₂]
    exact ⟨rfl, rfl⟩
  · cases clauses with
    | leaf a => cases hread
    | record fields => cases hread
    | group shape items =>
        obtain ⟨c₁, items₁, c₂, items₂, rfl, rfl, -⟩ := hspells.parts
        exact ⟨rfl, rfl⟩

/-- Two expansions of a `let`, with or without a name. -/
theorem agree_letForm (hexpand : σ.Expands expand) (hP : σ.Ribs P) (hkernel : σ.KernelForms)
    {head : ContextAtom × ContextAtom} {operands : List TwinTree} (hhead : σ.Denotes .letForm head)
    (hoperands : ∀ clauses body, operands = clauses :: body → σ.LetParts n P clauses body)
    {form₁ form₂ : Syntax} {parts₁ parts₂ : List Syntax}
    (hparts : SpellsAll (.leaf head :: operands) parts₁ parts₂) :
    Agree (σ.Twins n) σ.OutForm (Expansion.letForm expand form₁ parts₁)
      (Expansion.letForm expand form₂ parts₂) := by
  cases hparts with
  | @cons _ _ head₁ head₂ rest₁ rest₂ hspells htail =>
      cases htail with
      | nil => exact .failAt _ _ _ _
      | @cons clauses body clauses₁ clauses₂ body₁ body₂ hclauses hbody =>
          rcases hoperands clauses body rfl with ⟨name, rfl, hname₁, hname₂, hnamed⟩ | ⟨hname, hplain⟩
          · have hid₁ : clauses₁.isIdentifier = true := by
              rw [Syntax.isIdentifier_of_view hclauses.leaf.1, hname₁]
            have hid₂ : clauses₂.isIdentifier = true := by
              rw [Syntax.isIdentifier_of_view hclauses.leaf.2, hname₂]
            rw [Expansion.letForm, Expansion.letForm, hid₁, hid₂]
            exact agree_namedLet hexpand hP hkernel hnamed (.cons hspells (.cons hclauses hbody))
          · obtain ⟨hid₁, hid₂⟩ := hplain.not_identifier hP hname hclauses
            exact agree_plainLet hexpand hP hhead hplain hspells hclauses hbody hid₁ hid₂

/-! ## Parameters -/

/-- A form that is no clause of a `parameterize`. -/
theorem subforms_of_couple? {T : TwinTree} (h : T.couple? = none) {stx₁ stx₂ : Syntax}
    (hspells : Spells T stx₁ stx₂) :
    (∀ a b, stx₁.subforms ≠ [a, b]) ∧ ∀ a b, stx₂.subforms ≠ [a, b] := by
  constructor
  · intro a b hparts
    obtain ⟨first, second, rfl⟩ := hspells.exists_pair (.inl (congrArg List.length hparts))
    cases h
  · intro a b hparts
    obtain ⟨first, second, rfl⟩ := hspells.exists_pair (.inr (congrArg List.length hparts))
    cases h

theorem agree_parameterClauses (hexpand : σ.Expands expand) (hP : σ.Ribs P) {items : List TwinTree}
    (hitems : ∀ T ∈ items, ∀ c, T.couple? = some c → σ.Corresponds n P c.1 ∧ σ.Corresponds n P c.2)
    {items₁ items₂ : List Syntax} (hspells : SpellsAll items items₁ items₂) :
    Agree (σ.Twins n) σ.OutCouples (Expansion.parameterClauses expand items₁)
      (Expansion.parameterClauses expand items₂) := by
  induction hspells with
  | nil => exact .pure .nil
  | @cons T items stx₁ stx₂ rest₁ rest₂ hhead _ ih =>
      obtain ⟨hfirst, hothers⟩ := List.forall_mem_cons.1 hitems
      cases hclause : T.couple? with
      | none =>
          -- A clause of another shape stops both expansions.
          obtain ⟨hne₁, hne₂⟩ := subforms_of_couple? hclause hhead
          rw [Expansion.parameterClauses, Expansion.parameterClauses]
          split
          · next a b hparts => exact absurd hparts (hne₁ a b)
          · exact .failAt _ _ _ _
      | some c =>
          obtain ⟨hparameter, hvalue⟩ := hfirst c hclause
          match T, hclause, hhead with
          | .group .sexp [parameter, value], hclause, hhead =>
              cases hclause
              obtain ⟨p₁, v₁, p₂, v₂, h₁, h₂, hspellsParameter, hspellsValue⟩ := hhead.pair
              simp only [Expansion.parameterClauses, h₁, h₂]
              refine (hexpand hP hparameter hspellsParameter).bind fun q₁ q₂ hq => ?_
              refine (hexpand hP hvalue hspellsValue).bind fun u₁ u₂ hu => ?_
              refine (ih hothers).bind fun outs₁ outs₂ houts => ?_
              exact .pure (.cons hq hu houts)

/-- Two expansions of a `parameterize`. -/
theorem agree_parameterize (hexpand : σ.Expands expand) (hP : σ.Ribs P)
    {head : ContextAtom × ContextAtom} {operands : List TwinTree}
    (hhead : σ.Denotes .parameterize head)
    (hoperands : ∀ clauses body, operands = clauses :: body → σ.CoupleParts n P clauses ∧
      ∀ T ∈ body, σ.Corresponds n P T)
    {form₁ form₂ : Syntax} {parts₁ parts₂ : List Syntax}
    (hparts : SpellsAll (.leaf head :: operands) parts₁ parts₂) :
    Agree (σ.Twins n) σ.OutForm (Expansion.parameterize expand form₁ parts₁)
      (Expansion.parameterize expand form₂ parts₂) := by
  have hlength : parts₁.length = parts₂.length := hparts.length₁.trans hparts.length₂.symm
  cases hparts with
  | @cons _ _ head₁ head₂ rest₁ rest₂ hspells htail =>
      cases htail with
      | nil => exact .failAt _ _ _ _
      | @cons clauses body clauses₁ clauses₂ body₁ body₂ hclauses hbody =>
          obtain ⟨hcouples, hinside⟩ := hoperands clauses body rfl
          refine (agree_expectBody hlength 2).bind fun _ _ _ => ?_
          cases hsexp : clauses.isSexp with
          | false =>
              obtain ⟨h₁, h₂⟩ := hclauses.subforms?_eq_none hsexp
              rw [h₁, h₂]
              exact .failAt _ _ _ _
          | true =>
              obtain ⟨items, rfl⟩ := FormTree.exists_group_of_isSexp hsexp
              obtain ⟨items₁, items₂, h₁, h₂, hitems⟩ := hclauses.subforms
              rw [h₁, h₂]
              have hexpanded := agree_parameterClauses hexpand hP (hcouples items rfl) hitems
              refine hexpanded.bind fun outs₁ outs₂ houts => ?_
              refine (agree_expandEach hexpand hP hbody hinside).bind fun out₁ out₂ hout => ?_
              exact .pure (hout.parameterize ⟨head, hhead, hspells⟩ houts)

end Setting

end HygienicLisp
