import HygienicLisp.Proofs.ModuleScope.Procedures

/-!
# Definitions of procedures in the second pass

The second pass expands a definition that the first pass has brought into shape, and compiles it: its
name to the address that has been reserved for the name, and its value to the template of a procedure.
Under two numberings a definition is expanded and compiled alike.

Main statement: `agree_compiledForm`.
-/

namespace HygienicLisp

open Expansion

variable {σ : Sides} {ρ : Renumbering} {names : List String}

/-! ## Expansion -/

section

variable {loader : Loader} {ns : NamespaceId} {fuel depth : Nat} {w w' : World}

/-- What a `lambda` is expanded to begins as the `lambda` does. -/
theorem expand_lambda_subforms? {value first e : Syntax} {rest : List Syntax}
    (hparts : value.subforms = first :: rest)
    (hfirst : headValue? w.spaces first = some (.form .lambda))
    (h : expand loader ns fuel depth .expression value w = .ok e w') :
    ∃ rest', e.subforms? = some (first :: rest') := by
  cases fuel with
  | zero => cases h
  | succ fuel =>
      obtain ⟨deeper, _, hdepth, h⟩ := RunM.bind_eq_ok.1 h
      obtain ⟨rfl, rfl⟩ := descend_eq_ok hdepth
      replace h := RunM.mapError_eq_ok.1 h
      rw [if_pos (isSexp_of_subforms hparts)] at h
      cases fuel with
      | zero => cases h
      | succ fuel =>
          rw [expandSexp, hparts] at h
          obtain ⟨_, _, hspaces, h⟩ := RunM.bind_eq_ok.1 h
          cases hspaces
          rw [hfirst] at h
          obtain ⟨head, formals, body, binders, rib, w₁, body', hsplit, -, -, -, -, rfl⟩ :=
            lambda_eq_ok.1 h
          cases hsplit
          exact ⟨_, Syntax.subforms?_rebuildSexp _ _⟩

end

/-- The body of an expanded `lambda` consists of expressions. -/
theorem Expression.lambda_body {S : Spaces} {e first : Syntax} {rest : List Syntax}
    (h : Expression S e) (hparts : e.subforms? = some (first :: rest))
    (hfirst : HygienicLisp.coreForm? S first = some .lambda) :
    ∀ part ∈ (first :: rest).drop 2, Expression S part := by
  cases h with
  | atom => cases hparts
  | list helements =>
      cases e with
      | atom | record => cases hparts
      | group c shape items =>
          cases shape with
          | sexp => cases helements
          | list => cases hparts
  | record hfields =>
      cases e with
      | atom | group => cases hfields
      | record => cases hparts
  | application hparts' hall =>
      cases hparts.symm.trans hparts'
      cases hfirst.symm.trans (hall first List.mem_cons_self).coreForm?
  | core hparts' hhead _ _ hall =>
      cases hparts.symm.trans hparts'
      cases hfirst.symm.trans hhead
      exact hall

theorem Syntax.Names.unexpanded {ns : NamespaceId} {name : String} {stx : Syntax}
    (h : stx.Names ns name) (kernel : NamespaceId) : stx.Unexpanded ns kernel := by
  obtain ⟨hsymbol, hwraps, hbinding⟩ := h
  cases stx with
  | group | record => cases hsymbol
  | atom c a =>
      refine InSpace.unexpanded (.atom ?_ ?_) kernel
      · show ∀ wrap ∈ c.wraps, wrap = .space ns
        rw [show c.wraps = [.space ns] from hwraps]
        exact List.forall_mem_singleton.2 rfl
      · show ∀ b ∈ c.binding, False
        rw [show c.binding = none from hbinding]
        exact nofun

theorem Spaces.resolve_ofKernel (spaces : Spaces) (kernel : NamespaceId) (name : String)
    (site : Syntax) : spaces.resolve (Syntax.ofKernel kernel name site) =
      (spaces.cell? kernel (plainKey name)).map .cell := by
  rw [← Spaces.substitute?_plain]
  rfl

/-- What expansion puts into a form for a core form stands for it. -/
theorem Spaces.Begun.headValue_ofKernel {spaces : Spaces} {kernel ns : NamespaceId}
    {base space : Namespace} (h : spaces.Begun kernel ns base) (hspace : base.Reserved ns names space)
    (f : CoreForm) (site : Syntax) :
    headValue? (spaces.put ns space) (Syntax.ofKernel kernel f.name site) = some (.form f) := by
  obtain ⟨c, hc, hlookup⟩ := h.keyword hspace f
  rw [headValue?, if_pos (by rfl), Spaces.resolve_ofKernel, hc]
  exact hlookup

/-- The definition is one of a procedure and is written in the module. -/
structure Syntax.Normal.Procedure (n : Syntax.Normal) (σ : Sides) (ns : NamespaceId) : Prop where
  head : n.head.Names ns CoreForm.define.name
  value : n.value.Unexpanded ns σ.kernel
  define : headValue? σ.first n.head = some (.form .define)
  lambda : ∃ first rest, n.value.subforms = first :: rest ∧
    headValue? σ.first first = some (.form .lambda)

/-- The definition with its value expanded. -/
def Syntax.Normal.withValue (n : Syntax.Normal) (value : Syntax) : Syntax.Normal := { n with value }

theorem Syntax.subforms_recorded (n : Syntax.Normal) (site : Syntax) (c : CellRef) :
    (n.recorded site c).subforms = [n.head, n.target.withBinding (.cell c), n.value] :=
  Syntax.subforms_rebuildSexp _ _

/-- In the second pass a definition is expanded as its value is. -/
theorem define_recorded (expand : ExpandContext → Syntax → RunM Syntax) (ns : NamespaceId)
    (n : Syntax.Normal) (site : Syntax) (c : CellRef) :
    define expand ns (n.recorded site c) .moduleBody =
      (do
        let value ← expand .expression n.value
        return (n.withValue value).recorded site c) := by
  rw [define, expectDefinitions, if_pos (by rfl), if_pos rfl, pure_bind, pure_bind]
  dsimp only
  rw [Syntax.subforms_recorded]
  rfl

/-- Under two numberings the value of a definition is expanded alike, to a `lambda` again. -/
theorem agree_expandRecorded {n : Syntax.Normal} (h : n.Procedure σ ρ.space)
    (loader : Loader) (fuel : Nat) (site : Syntax) (c : CellRef) :
    AgreeTwins σ ρ (fun out out' => ∃ e e', Syntax.ExpandedTwin σ ρ e e' ∧
        (∃ first rest, e.subforms? = some (first :: rest) ∧
          coreForm? σ.first first = some .lambda) ∧
        out = (n.withValue e).recorded site c ∧
        out' = (n.withValue e').recorded site (c.renumber ρ))
      (expand loader ρ.space fuel 0 .moduleBody (n.recorded site c))
      (expand loader ρ.space fuel 0 .moduleBody (n.recorded site (c.renumber ρ))) := by
  have hhead := h.head.unexpanded σ.kernel
  obtain ⟨first, rest, hparts, hfirst⟩ := h.lambda
  cases fuel with
  | zero => exact .exhausted
  | succ fuel =>
      refine (agree_descend 0 _ _).bind fun depth _ hdepth => ?_
      cases hdepth
      refine .mapError _ _ ?_
      have hsexp (c : CellRef) : (n.recorded site c).isSexp = true := rfl
      rw [if_pos (hsexp _), if_pos (hsexp _)]
      cases fuel with
      | zero => exact .exhausted
      | succ fuel =>
          rw [expandSexp, expandSexp, Syntax.subforms_recorded, Syntax.subforms_recorded]
          refine .getSpaces_bind fun w w' hw => ?_
          have hdefine : headValue? w.spaces n.head = some (.form .define) :=
            (headValue?_congr hw.first.cells hw.first.value? _).trans h.define
          have hdefine' : headValue? w'.spaces n.head = some (.form .define) := by
            have hsame := hw.spaces.headValue? (hhead.isLocal ρ rfl)
            rw [hhead.same] at hsame
            exact hsame.trans hdefine
          rw [hdefine, hdefine']
          show AgreeTwins σ ρ _ (define _ ρ.space _ .moduleBody) (define _ ρ.space _ .moduleBody)
          -- The recorded form is in shape already, so only its value is left to expand.
          rw [define_recorded, define_recorded]
          have hvalue := agree_expand (σ := σ) loader ρ.space (fuel + 1) depth n.value
            (h.value.isLocal ρ rfl)
          rw [h.value.same] at hvalue
          refine hvalue.runs.bind fun e e' he => .pure ?_
          obtain ⟨he, w, w', w₁, -, hw, hrun, -⟩ := he
          obtain ⟨rest', hrest⟩ := expand_lambda_subforms? hparts
            ((headValue?_congr hw.first.cells hw.first.value? _).trans hfirst) hrun
          exact ⟨e, e', he, ⟨first, rest', hrest, coreForm?_eq_some_of_headValue? hfirst⟩, rfl, rfl⟩

/-! ## Compilation -/

section

variable {compile : Scopes → Syntax → RunM Code} {scopes : Scopes}

/-- A `lambda` is compiled to the template of a procedure. -/
theorem compileLambda_eq_ok {form : Syntax} {parts : List Syntax} {name : Option String}
    {w w' : World} {code : Code} (h : Compile.lambda compile scopes form parts name w = .ok code w') :
    ∃ required rest body, code = .lambda name required rest body := by
  obtain ⟨formals, w₁, -, h⟩ := RunM.bind_eq_ok.1 h
  obtain ⟨inner, w₂, -, h⟩ := RunM.bind_eq_ok.1 h
  obtain ⟨body, w₃, -, h⟩ := RunM.bind_eq_ok.1 h
  cases h
  exact ⟨_, _, body, rfl⟩

end

/-- The code defines the name, at the address, as a procedure with the template. -/
def Code.DefinesProcedure (code : Code) (name : String) (address : Nat) (template : Code) : Prop :=
  code = .define name address template ∧
    ∃ required rest body, template = .lambda (some name) required rest body

/-- The codes define the name as procedures whose templates are the same up to the numbers. -/
def Code.SameProcedure (ρ : Renumbering) (names : List String) (name : String) (address : Nat)
    (code code' : Code) : Prop :=
  ∃ template template', code.DefinesProcedure name address template ∧
    code'.DefinesProcedure name (ρ.address address) template' ∧
    Code.Paired ρ names template template'

theorem agree_definedAddress {c : CellRef} {d : Definition} (howner : d.owner = ρ.space)
    (hc : c.owner = ρ.space) (hcontent : σ.first.content? c = some (.defined d)) (id : Syntax) :
    AgreeTwins σ ρ (fun found found' => found = (d.name, d.address) ∧
        found' = (d.name, ρ.address d.address))
      (Compile.definedAddress ρ.space (id.withBinding (.cell c)))
      (Compile.definedAddress ρ.space (id.withBinding (.cell (c.renumber ρ)))) := by
  refine .getSpaces_bind fun w w' hw => ?_
  have hdenoted (spaces : Spaces) (c : CellRef) :
      spaces.denoted (id.withBinding (.cell c)) "" = spaces.denote (.cell c) := by
    cases id <;> rfl
  have hfirst : w.spaces.content? c = some (.defined d) :=
    (Spaces.content?_congr hw.first.cells c).trans hcontent
  have hsecond : w'.spaces.content? (c.renumber ρ) = some (.defined (d.renumber ρ)) := by
    rw [hw.spaces.content (.inl hc), hfirst]
    rfl
  rw [hdenoted, hdenoted, Spaces.denote, Spaces.denote, hfirst, hsecond]
  dsimp only
  rw [Definition.renumber, if_pos howner, if_pos howner, if_pos howner]
  exact .pure ⟨rfl, rfl⟩

/-- The template of a procedure that is defined. -/
theorem agree_definition {scopes : Scopes} {compile : Scopes → Syntax → RunM Code}
    (hcompile : CompilesTwins σ ρ names compile)
    (hscopes : LocalScopes ρ scopes) {head id e e' : Syntax} {c : CellRef} {d : Definition}
    (howner : d.owner = ρ.space) (hc : c.owner = ρ.space)
    (hcontent : σ.first.content? c = some (.defined d)) (he : Syntax.ExpandedTwin σ ρ e e')
    {first : Syntax} {rest : List Syntax} (hparts : e.subforms? = some (first :: rest))
    (hfirst : coreForm? σ.first first = some .lambda) (form form' : Syntax) :
    AgreeTwins σ ρ (Code.SameProcedure ρ names d.name d.address)
      (Compile.definition ρ.space compile scopes form [head, id.withBinding (.cell c), e])
      (Compile.definition ρ.space compile (renumberScopes ρ scopes) form'
        [head, id.withBinding (.cell (c.renumber ρ)), e']) := by
  obtain ⟨hlocal, hexpression, rfl⟩ := he
  have hpartsLocal := hlocal.subforms? hparts
  have hsubforms := Syntax.subforms_of_subforms? hparts
  refine (agree_definedAddress howner hc hcontent id).bind fun found found' hfound => ?_
  obtain ⟨rfl, rfl⟩ := hfound
  refine Agree.bind (R := fun value value' => value = e ∧ value' = e.renumber ρ) (.pure ⟨rfl, rfl⟩)
    fun value value' hvalue => ?_
  rw [hvalue.1, hvalue.2]
  refine .getSpaces_bind fun w w' hw => ?_
  -- Both values are a `lambda`, so the name of the definition goes into the template.
  have hlambda : Compile.lambdaParts? w.spaces e = some (first :: rest) := by
    rw [Compile.lambdaParts?, hsubforms]
    dsimp only
    rw [hw.coreForm?, if_pos hfirst]
  have hlambda' : Compile.lambdaParts? w'.spaces (e.renumber ρ) =
      some ((first :: rest).map (Syntax.renumber ρ)) := by
    rw [Compile.lambdaParts?, Syntax.subforms_renumber, hsubforms, List.map_cons]
    dsimp only
    rw [hw.spaces.coreForm? (hpartsLocal first List.mem_cons_self), hw.coreForm?, if_pos hfirst]
  rw [hlambda, hlambda']
  have hagree := agree_compileLambda hcompile hscopes hpartsLocal e (e.renumber ρ)
    (hexpression.lambda_body hparts hfirst) (some d.name)
  refine hagree.runs.bind fun template template' htemplates => .pure ?_
  obtain ⟨hpaired, _, _, _, _, -, hrun, hrun'⟩ := htemplates
  exact ⟨template, template', ⟨rfl, compileLambda_eq_ok hrun⟩, ⟨rfl, compileLambda_eq_ok hrun'⟩,
    hpaired⟩

theorem Syntax.weight_withBinding (stx : Syntax) (b : Binding) :
    (stx.withBinding b).weight = stx.weight := by
  cases stx <;> rfl

/-- A definition is compiled as one if its head stands for `define`. -/
theorem compile_recorded {n : Syntax.Normal} {w : World}
    (h : coreForm? w.spaces n.head = some .define) (ns : NamespaceId) (site : Syntax) (c : CellRef) :
    compile ns (n.recorded site c) w =
      Compile.definition ns (Compile.compileAt ns (n.recorded site c).weight) []
        (n.recorded site c) [n.head, n.target.withBinding (.cell c), n.value] w := by
  have hsubforms := Syntax.subforms_recorded n site c
  rw [compile, Compile.compileAt]
  generalize Compile.compileAt ns (n.recorded site c).weight = compile
  rw [Syntax.Normal.recorded, Syntax.rebuildSexp] at hsubforms ⊢
  rw [Compile.form, hsubforms]
  dsimp only
  rw [RunM.bind_apply, RunM.getSpaces_apply]
  dsimp only
  rw [h]
  rfl

theorem agree_compileRecorded {n : Syntax.Normal} (h : n.Procedure σ ρ.space)
    (hnames : σ.Reserves ρ names) {c : CellRef} {d : Definition} (howner : d.owner = ρ.space)
    (hc : c.owner = ρ.space) (hcontent : σ.first.content? c = some (.defined d)) {e e' : Syntax}
    (he : Syntax.ExpandedTwin σ ρ e e') {first : Syntax} {rest : List Syntax}
    (hparts : e.subforms? = some (first :: rest)) (hfirst : coreForm? σ.first first = some .lambda)
    (site : Syntax) :
    AgreeTwins σ ρ (Code.SameProcedure ρ names d.name d.address)
      (compile ρ.space ((n.withValue e).recorded site c))
      (compile ρ.space ((n.withValue e').recorded site (c.renumber ρ))) := by
  have hhead := h.head.unexpanded σ.kernel
  have hweight : ((n.withValue e').recorded site (c.renumber ρ)).weight =
      ((n.withValue e).recorded site c).weight := by
    rw [he.same]
    simp only [Syntax.Normal.recorded, Syntax.Normal.withValue, Syntax.rebuildSexp, Syntax.weight,
      Syntax.weightAll, Syntax.weight_withBinding, Syntax.weight_renumber]
  intro w w' hw
  have hdefine : coreForm? w.spaces n.head = some .define :=
    (hw.coreForm? _).trans (coreForm?_eq_some_of_headValue? h.define)
  have hdefine' : coreForm? w'.spaces n.head = some .define := by
    have hsame := hw.spaces.coreForm? (hhead.isLocal ρ rfl)
    rw [hhead.same] at hsame
    exact hsame.trans hdefine
  rw [compile_recorded (n := n.withValue e) hdefine, compile_recorded (n := n.withValue e') hdefine',
    hweight]
  have hscopes : LocalScopes ρ [] := fun rib hrib => absurd hrib List.not_mem_nil
  exact agree_definition (agree_compileAt hnames _) hscopes howner hc hcontent he hparts hfirst _ _ w
    w' hw

/-- Under two numberings a definition of a procedure is expanded and compiled alike. -/
theorem agree_compiledForm {n : Syntax.Normal} (h : n.Procedure σ ρ.space)
    (hnames : σ.Reserves ρ names) {c : CellRef} {d : Definition} (howner : d.owner = ρ.space)
    (hc : c.owner = ρ.space) (hcontent : σ.first.content? c = some (.defined d))
    (loader : Loader) (fuel : Nat) (site : Syntax) :
    AgreeTwins σ ρ (Code.SameProcedure ρ names d.name d.address)
      (compiledForm loader fuel ρ.space .moduleBody (n.recorded site c))
      (compiledForm loader fuel ρ.space .moduleBody (n.recorded site (c.renumber ρ))) := by
  refine (agree_expandRecorded h loader fuel site c).bind fun out out' hout => ?_
  obtain ⟨e, e', he, ⟨first, rest, hparts, hfirst⟩, rfl, rfl⟩ := hout
  exact agree_compileRecorded h hnames howner hc hcontent he hparts hfirst site

end HygienicLisp
