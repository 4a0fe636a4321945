import HygienicLisp.Proofs.FullExpansion.Shapes
import HygienicLisp.Proofs.Scoping.Compile

/-!
# Expressions define nothing

What expansion makes of an expression has no definition at a place where compilation looks for one,
if every form is met as what it is when it is compiled (`expression_expand`).  So its code has no
definitions (`barren_compileAt`).  Only a form that is itself expanded as a definition defines
something.
-/

namespace HygienicLisp

open Expansion

/-! ## The definitions in code -/

mutual

/-- The addresses that the definitions in the code write, in order. -/
def Code.definitions : Code → List Nat
  | .define _ address value => address :: value.definitions
  | .defineSyntax _ address value _ => address :: value.definitions
  | .localSet _ _ value => value.definitions
  | .topSet _ value => value.definitions
  | .branch test consequent alternative =>
    test.definitions ++ consequent.definitions ++ alternative.definitions
  | .sequence forms => definitionsAll forms
  | .lambda _ _ _ body => body.definitions
  | .letIn inits body => definitionsAll inits ++ body.definitions
  | .letrec inits body => definitionsAll inits ++ body.definitions
  | .apply operator operands _ => operator.definitions ++ definitionsAll operands
  | .parameterize bindings body => definitionsPairs bindings ++ body.definitions
  | .listLiteral elements => definitionsAll elements
  | .recordLiteral fields => definitionsFields fields
  | .constant _ | .void | .localRef _ _ _ | .topRef _ _ | .importRef _ _ _ | .freeRef _ _ => []

/-- `definitions` of the code of every form. -/
def Code.definitionsAll : List Code → List Nat
  | [] => []
  | code :: rest => code.definitions ++ definitionsAll rest

/-- `definitions` of the code of every clause. -/
def Code.definitionsPairs : List (Code × Code) → List Nat
  | [] => []
  | (first, second) :: rest => first.definitions ++ second.definitions ++ definitionsPairs rest

/-- `definitions` of the code of every field. -/
def Code.definitionsFields : List (String × Code) → List Nat
  | [] => []
  | (_, code) :: rest => code.definitions ++ definitionsFields rest

end

theorem Code.definitionsAll_eq (codes : List Code) :
    definitionsAll codes = codes.flatMap definitions := by
  induction codes with
  | nil => rfl
  | cons code rest ih => rw [definitionsAll, ih, List.flatMap_cons]

theorem Code.definitionsAll_eq_nil {codes : List Code} (h : ∀ code ∈ codes, code.definitions = []) :
    definitionsAll codes = [] := by
  rw [definitionsAll_eq, List.flatMap_eq_nil_iff]
  exact h

theorem Code.definitionsPairs_eq_nil {pairs : List (Code × Code)}
    (h : ∀ pair ∈ pairs, pair.1.definitions = [] ∧ pair.2.definitions = []) :
    definitionsPairs pairs = [] := by
  induction pairs with
  | nil => rfl
  | cons pair rest ih =>
      obtain ⟨hpair, hrest⟩ := List.forall_mem_cons.1 h
      rw [definitionsPairs, hpair.1, hpair.2, ih hrest]
      rfl

theorem Code.definitionsFields_eq_nil {fields : List (String × Code)}
    (h : ∀ field ∈ fields, field.2.definitions = []) : definitionsFields fields = [] := by
  induction fields with
  | nil => rfl
  | cons field rest ih =>
      obtain ⟨hfield, hrest⟩ := List.forall_mem_cons.1 h
      rw [definitionsFields, hfield, ih hrest]
      rfl

/-! ## Expressions -/

/-- The clauses of a binding form or a `parameterize` with the given parts. -/
def clausesOf (parts : List Syntax) : List Syntax := ((parts[1]?).map Syntax.subforms).getD []

/-- The parts of a core form that are expressions. -/
def CoreForm.operands (f : CoreForm) (parts : List Syntax) : List Syntax :=
  match f with
  | .ifForm | .begin => parts.drop 1
  | .set | .lambda => parts.drop 2
  | .letForm | .letrec =>
    (clausesOf parts).flatMap (fun clause => clause.subforms.drop 1) ++ parts.drop 2
  | .parameterize => (clausesOf parts).flatMap Syntax.subforms ++ parts.drop 2
  | _ => []

/-- No definition stands at a place where compilation looks for one. -/
inductive Expression (S : Spaces) : Syntax → Prop
  | atom {c : Context} {a : Atom} (hkind : coreForm? S (.atom c a) = none) :
      Expression S (.atom c a)
  | list {stx : Syntax} {elements : List Syntax} (hparts : stx.elements? = some elements)
      (hall : ∀ part ∈ elements, Expression S part) : Expression S stx
  | record {stx : Syntax} {fields : List (String × Syntax)} (hparts : stx.fields? = some fields)
      (hall : ∀ field ∈ fields, Expression S field.2) : Expression S stx
  | application {stx operator : Syntax} {operands : List Syntax}
      (hparts : stx.subforms? = some (operator :: operands))
      (hall : ∀ part ∈ operator :: operands, Expression S part) : Expression S stx
  | core {stx head : Syntax} {rest : List Syntax} {f : CoreForm}
      (hparts : stx.subforms? = some (head :: rest)) (hhead : coreForm? S head = some f)
      (hdefine : f ≠ .define) (hdefineSyntax : f ≠ .defineSyntax)
      (hall : ∀ part ∈ f.operands (head :: rest), Expression S part) : Expression S stx

theorem Expression.coreForm? {S : Spaces} {e : Syntax} (h : Expression S e) :
    HygienicLisp.coreForm? S e = none := by
  cases h with
  | atom hkind => exact hkind
  | list hparts | record hparts | application hparts | core hparts =>
      refine coreForm?_eq_none_of_not_identifier ?_
      cases e with
      | atom => cases hparts
      | group | record => rfl

theorem clausesOf_cons (head : Syntax) {clauses : Syntax} {items : List Syntax}
    (h : clauses.subforms? = some items) (rest : List Syntax) :
    clausesOf (head :: clauses :: rest) = items := by
  simp [clausesOf, Syntax.subforms, h]

/-! ## Expansion -/

/-- Expressions are expanded to expressions. -/
def Expresses (S : Spaces) (expand : ExpandContext → Syntax → RunM Syntax) : Prop :=
  ∀ ⦃form : Syntax⦄ ⦃w : World⦄ ⦃e : Syntax⦄ ⦃w' : World⦄,
    expand .expression form w = .ok e w' → Expression S e

section

variable {S : Spaces} {expand : ExpandContext → Syntax → RunM Syntax} {w w' : World}
  {form e head : Syntax} {loader : Loader} {ns : NamespaceId} {context : ExpandContext}

theorem expression_expandEach (hexpand : Expresses S expand) {forms es : List Syntax}
    (h : expandEach expand .expression forms w = .ok es w') :
    es.length = forms.length ∧ ∀ e ∈ es, Expression S e := by
  induction forms generalizing w es with
  | nil =>
      cases h
      exact ⟨rfl, by simp⟩
  | cons stx rest ih =>
      obtain ⟨e, w₁, hstx, h⟩ := RunM.bind_eq_ok.1 h
      obtain ⟨es, w₂, hrest, h⟩ := RunM.bind_eq_ok.1 h
      cases h
      obtain ⟨hlength, hall⟩ := ih hrest
      exact ⟨congrArg (· + 1) hlength, List.forall_mem_cons.2 ⟨hexpand hstx, hall⟩⟩

theorem expression_expandFields (hexpand : Expresses S expand) {fields es : List (String × Syntax)}
    (h : expandFields expand fields w = .ok es w') : ∀ e ∈ es, Expression S e.2 := by
  induction fields generalizing w es with
  | nil =>
      cases h
      simp
  | cons field rest ih =>
      obtain ⟨e, w₁, hstx, h⟩ := RunM.bind_eq_ok.1 h
      obtain ⟨es, w₂, hrest, h⟩ := RunM.bind_eq_ok.1 h
      cases h
      exact List.forall_mem_cons.2 ⟨hexpand hstx, ih hrest⟩

theorem expression_parameterClauses (hexpand : Expresses S expand) {items items' : List Syntax}
    (h : parameterClauses expand items w = .ok items' w') :
    ∀ part ∈ items'.flatMap Syntax.subforms, Expression S part := by
  induction items generalizing w items' with
  | nil =>
      cases h
      simp
  | cons clause rest ih =>
      rcases hclause : clause.subforms with _ | ⟨parameter, _ | ⟨value, _ | ⟨other, others⟩⟩⟩ <;>
        simp only [parameterClauses, hclause] at h
      · cases h
      · cases h
      · obtain ⟨e₁, w₁, h₁, h⟩ := RunM.bind_eq_ok.1 h
        obtain ⟨e₂, w₂, h₂, h⟩ := RunM.bind_eq_ok.1 h
        obtain ⟨rest', w₃, hrest, h⟩ := RunM.bind_eq_ok.1 h
        cases h
        rw [List.flatMap_cons, Syntax.subforms_rebuildSexp, List.forall_mem_append,
          List.forall_mem_cons, List.forall_mem_singleton]
        exact ⟨⟨hexpand h₁, hexpand h₂⟩, ih hrest⟩
      · cases h

/-- The expressions of an expanded binding form. -/
theorem expression_binding {clauses : Syntax} {ids inits body : List Syntax}
    (hlength : inits.length = ids.length) (hinits : ∀ e ∈ inits, Expression S e)
    (hbody : ∀ e ∈ body, Expression S e) {parts : List Syntax}
    (hparts : parts = head :: rebuildClauses clauses ids inits :: body) :
    ∀ part ∈ (clausesOf parts).flatMap (fun clause => clause.subforms.drop 1) ++ parts.drop 2,
      Expression S part := by
  subst hparts
  obtain ⟨items, hitems, hpairs⟩ := isClauses_rebuildClauses clauses ids inits
  have hsecond : items.flatMap (fun clause => clause.subforms.drop 1) = inits := by
    have hmap : items.flatMap (fun clause => clause.subforms.drop 1) =
        (items.map Syntax.subforms).flatMap (·.drop 1) := by rw [List.flatMap_map]
    rw [hmap, hpairs, List.flatMap_map]
    simp [← List.map_eq_flatMap, List.map_snd_zip, hlength]
  rw [clausesOf_cons head hitems, hsecond]
  exact List.forall_mem_append.2 ⟨hinits, hbody⟩

/-- A core form that is no definition.  In a module body the parts of a `begin` need not be
expressions. -/
theorem expression_core (hexpand : Expresses S expand) {rest : List Syntax} {f : CoreForm}
    (hhead : coreForm? S head = some f) (hparts : form.subforms? = some (head :: rest))
    (hdefine : f ≠ .define) (hdefineSyntax : f ≠ .defineSyntax)
    (hbegin : f = .begin → context = .expression) (hcontext : context ≠ .topLevel)
    (h : core expand loader ns f form (head :: rest) context w = .ok e w') : Expression S e := by
  -- A form that has the parts which it had.
  have hsame (hnone : f.operands (head :: rest) = []) : Expression S form :=
    .core hparts hhead hdefine hdefineSyntax (by simp [hnone])
  cases f with
  | quote | quoteSyntax =>
      obtain ⟨_, _, -, h⟩ := RunM.bind_eq_ok.1 h
      cases h
      exact hsame rfl
  | ifForm =>
      obtain ⟨es, -, hexpanded, rfl⟩ := conditional_eq_ok.1 h
      exact .core (Syntax.subforms?_rebuildSexp _ _) hhead hdefine hdefineSyntax
        (expression_expandEach hexpand hexpanded).2
  | begin =>
      obtain rfl := hbegin rfl
      obtain ⟨es, hexpanded, rfl⟩ := begin_eq_ok.1 h
      exact .core (Syntax.subforms?_rebuildSexp _ _) hhead hdefine hdefineSyntax
        (expression_expandEach hexpand hexpanded).2
  | lambda =>
      obtain ⟨_, formals, body, binders, rib, w₁, body', hsplit, -, -, -, hexpanded, rfl⟩ :=
        lambda_eq_ok.1 h
      cases hsplit
      exact .core (Syntax.subforms?_rebuildSexp _ _) hhead hdefine hdefineSyntax
        (expression_expandEach hexpand hexpanded).2
  | letForm =>
      rcases rest with _ | ⟨clauses, body⟩
      · cases h
      cases hclauses : clauses.isIdentifier with
      | true =>
          rw [core, letForm, if_pos hclauses] at h
          obtain ⟨call, -, hcall⟩ := namedLet_eq_ok h
          exact hexpand hcall
      | false =>
          obtain ⟨pairs, inits, w₁, rib, w₂, body', -, -, -, hinits, -, hexpanded, rfl⟩ :=
            (letForm_eq_ok hclauses).1 h
          obtain ⟨hlength, hinits⟩ := expression_expandEach hexpand hinits
          have hids : inits.length = (renamed rib (pairs.map (·.1))).length := by
            simpa [renamed] using hlength
          exact .core (Syntax.subforms?_rebuildSexp _ _) hhead hdefine hdefineSyntax
            (expression_binding hids hinits (expression_expandEach hexpand hexpanded).2 rfl)
  | letrec =>
      obtain ⟨_, clauses, body, pairs, rib, w₁, inits, w₂, body', hsplit, -, -, -, -, hinits,
        hexpanded, rfl⟩ := letrec_eq_ok.1 h
      cases hsplit
      obtain ⟨hlength, hinits⟩ := expression_expandEach hexpand hinits
      have hids : inits.length = (renamed rib (pairs.map (·.1))).length := by
        simpa [renamed] using hlength
      exact .core (Syntax.subforms?_rebuildSexp _ _) hhead hdefine hdefineSyntax
        (expression_binding hids hinits (expression_expandEach hexpand hexpanded).2 rfl)
  | set =>
      obtain ⟨_, target, value, value', hsplit, -, hexpanded, rfl⟩ := assignment_eq_ok.1 h
      cases hsplit
      exact .core (Syntax.subforms?_rebuildSexp _ _) hhead hdefine hdefineSyntax
        (List.forall_mem_singleton.2 (hexpand hexpanded))
  | parameterize =>
      obtain ⟨_, clauses, body, items, items', w₁, body', hsplit, -, -, hitems, hexpanded, rfl⟩ :=
        parameterize_eq_ok.1 h
      cases hsplit
      refine .core (Syntax.subforms?_rebuildSexp _ _) hhead hdefine hdefineSyntax ?_
      rw [CoreForm.operands, clausesOf_cons _ (Syntax.subforms?_rebuildSexp _ _)]
      exact List.forall_mem_append.2 ⟨expression_parameterClauses hexpand hitems,
        (expression_expandEach hexpand hexpanded).2⟩
  | define => exact absurd rfl hdefine
  | defineSyntax => exact absurd rfl hdefineSyntax
  | moduleForm =>
      rw [core, if_pos hcontext] at h
      cases h
  | require =>
      obtain ⟨_, _, -, h⟩ := RunM.bind_eq_ok.1 h
      obtain ⟨_, _, -, h⟩ := RunM.bind_eq_ok.1 h
      cases h
      exact hsame rfl
  | provide =>
      cases hbody : decide (context ≠ .moduleBody) with
      | true =>
          rw [core, if_pos (of_decide_eq_true hbody)] at h
          cases h
      | false =>
          rw [core, if_neg (of_decide_eq_false hbody)] at h
          obtain ⟨_, _, -, h⟩ := RunM.bind_eq_ok.1 h
          cases h
          exact hsame rfl

/-- Definitions are refused in the place of an expression. -/
theorem not_definition_of_core {parts : List Syntax} {f : CoreForm}
    (h : core expand loader ns f form parts .expression w = .ok e w') :
    f ≠ .define ∧ f ≠ .defineSyntax := by
  constructor
  all_goals
    rintro rfl
    obtain ⟨_, _, hcontext, -⟩ := RunM.bind_eq_ok.1 h
    cases (expectDefinitions_eq_ok.1 hcontext).1

/-- A form becomes an expression unless it stands in a body and is a definition or a `begin`. -/
theorem expression_rewrites (hexpand : Expresses S expand) {depth : Nat}
    (hsteady : steady S w.spaces depth context form) (hcontext : context ≠ .topLevel)
    (hbody : context = .expression ∨
      ∀ f ∈ [CoreForm.define, .defineSyntax, .begin], headKind w.spaces form.deciding ≠ .core f)
    (h : Rewrites expand loader ns context w form e w') : Expression S e := by
  have hkinds := h.headKind_eq hsteady
  cases h with
  | @atom c a hkind =>
      rw [Syntax.deciding_of_not_isSexp rfl, hkind] at hkinds
      exact .atom (coreForm?_of_variable hkinds)
  | list hparts hes =>
      exact .list (Syntax.elements?_rebuildList _ _) (expression_expandEach hexpand hes).2
  | record hparts hes =>
      exact .record (Syntax.fields?_rebuildRecord _ _) (expression_expandFields hexpand hes)
  | @application _ _ _ es _ hparts hkind hes =>
      obtain ⟨hlength, hall⟩ := expression_expandEach hexpand hes
      cases es with
      | nil => cases hlength
      | cons operator operands => exact .application (Syntax.subforms?_rebuildSexp _ _) hall
  | @core _ head _ rest f _ hparts hkind hrun =>
      rw [Syntax.deciding_of_subforms? hparts, hkind] at hkinds hbody
      have hhead := coreForm?_of_headKind hkinds
      rcases hbody with rfl | hbody
      · obtain ⟨hdefine, hdefineSyntax⟩ := not_definition_of_core hrun
        exact expression_core hexpand hhead hparts hdefine hdefineSyntax (fun _ => rfl) hcontext hrun
      · have hnone : f ∉ [CoreForm.define, .defineSyntax, .begin] := fun hf => hbody f hf rfl
        simp only [List.mem_cons, List.not_mem_nil, or_false, not_or] at hnone
        exact expression_core hexpand hhead hparts hnone.1 hnone.2.1
          (fun hbegin => absurd hbegin hnone.2.2) hcontext hrun

end

/-- In a run that a steady watch lets pass, expressions are expanded to expressions. -/
theorem expression_expand {S : Spaces} {watch : Watch} {loader : Loader} {ns : NamespaceId}
    (hwatch : ∀ now depth context form, watch now depth context form → steady S now depth context form)
    (fuel depth : Nat) : Expresses S (Watched.expand watch loader ns fuel depth) := by
  induction fuel generalizing depth with
  | zero => intro form w e w' h; cases h
  | succ fuel ih =>
      intro form w e w' h
      obtain ⟨form', depth', w₁, -, hallowed, hrewrites⟩ := Watched.expand_rewrites h
      exact expression_rewrites (ih depth') (hwatch _ _ _ _ hallowed) (by simp) (.inl rfl) hrewrites

/-! ## Compilation -/

/-- The code that the computation gives has no definitions. -/
def Barren (S : Spaces) (x : RunM Code) : Prop := Gives S (fun code => code.definitions = []) x

section

open Compile

variable {S : Spaces} {ns : NamespaceId} {compile : Scopes → Syntax → RunM Code} {form : Syntax}
  {parts : List Syntax} {scopes : Scopes}

theorem reads_depthOf (rib : RibId) (stx : Syntax) :
    Gives S (fun _ => True) (depthOf scopes rib stx) := by
  rw [depthOf]
  split
  · exact .pure trivial
  · exact .fail _

theorem reads_operand (position : Nat) :
    Gives S (fun stx => parts[position]? = some stx) (operand form parts position) := by
  rw [operand]
  split
  · next h => exact .pure h
  · exact .fail _

theorem reads_enterScope (binders : List Syntax) :
    Gives S (fun _ => True) (enterScope scopes binders) := by
  cases binders with
  | nil => exact .pure trivial
  | cons first rest =>
      refine .getSpaces_bind fun w _ => ?_
      split
      · exact .pure trivial
      · exact .fail _

theorem reads_clauses (fault : SyntaxFault) (items : List Syntax) :
    Gives S (fun pairs => ∀ pair ∈ pairs, ∃ clause ∈ items, clause.subforms = [pair.1, pair.2])
      (Compile.clauses fault items) := by
  induction items with
  | nil => exact .pure (by simp)
  | cons clause rest ih =>
      rw [Compile.clauses]
      split
      · next first second hclause =>
        refine ih.bind fun pairs hpairs => .pure ?_
        refine List.forall_mem_cons.2 ⟨⟨clause, List.mem_cons_self, hclause⟩, fun pair hpair => ?_⟩
        obtain ⟨other, hmem, hother⟩ := hpairs pair hpair
        exact ⟨other, List.mem_cons_of_mem clause hmem, hother⟩
      · exact .fail _

theorem barren_definitionRef (d : Definition) (name : String) :
    Barren S (definitionRef ns d name) := by
  rw [definitionRef]
  split
  · exact .pure rfl
  · exact (Gives.importId ns d).bind fun _ _ => .pure rfl

theorem barren_reference (stx : Syntax) (name : String) :
    Barren S (reference ns scopes stx name) := by
  refine .getSpaces_bind fun w _ => ?_
  split
  · split
    · split
      · exact .pure rfl
      · exact .fail _
    · exact .fail _
  · exact (reads_depthOf _ _).bind fun _ _ => .pure rfl
  · exact barren_definitionRef _ name
  · exact barren_definitionRef _ name

theorem barren_all {stxs : List Syntax} (h : ∀ stx ∈ stxs, Barren S (compile scopes stx)) :
    Gives S (fun codes => ∀ code ∈ codes, code.definitions = []) (all compile scopes stxs) := by
  induction stxs with
  | nil => exact .pure (by simp)
  | cons stx rest ih =>
      obtain ⟨hstx, hrest⟩ := List.forall_mem_cons.1 h
      refine hstx.bind fun code hcode => (ih hrest).bind fun codes hcodes => .pure ?_
      exact List.forall_mem_cons.2 ⟨hcode, hcodes⟩

theorem barren_fields {fields : List (String × Syntax)}
    (h : ∀ field ∈ fields, Barren S (compile scopes field.2)) :
    Gives S (fun (codes : List (String × Code)) => ∀ field ∈ codes, field.2.definitions = [])
      (Compile.fields compile scopes fields) := by
  induction fields with
  | nil => exact .pure (by simp)
  | cons field rest ih =>
      obtain ⟨hfield, hrest⟩ := List.forall_mem_cons.1 h
      refine hfield.bind fun code hcode => (ih hrest).bind fun codes hcodes => .pure ?_
      exact List.forall_mem_cons.2 ⟨hcode, hcodes⟩

theorem barren_pairs {items : List Syntax}
    (h : ∀ part ∈ items.flatMap Syntax.subforms, Barren S (compile scopes part)) :
    Gives S (fun (codes : List (Code × Code)) => ∀ pair ∈ codes, pair.1.definitions = [] ∧
      pair.2.definitions = []) (pairs compile scopes items) := by
  induction items with
  | nil => exact .pure (by simp)
  | cons clause rest ih =>
      rw [List.flatMap_cons, List.forall_mem_append] at h
      rw [pairs]
      split
      · next parameter value hparts =>
        rw [hparts, List.forall_mem_cons, List.forall_mem_singleton] at h
        refine h.1.1.bind fun first hfirst => h.1.2.bind fun second hsecond => ?_
        refine (ih h.2).bind fun codes hcodes => .pure ?_
        exact List.forall_mem_cons.2 ⟨⟨hfirst, hsecond⟩, hcodes⟩
      · exact .fail _

theorem barren_body {forms : List Syntax} (h : ∀ stx ∈ forms, Barren S (compile scopes stx)) :
    Barren S (body compile scopes forms) := by
  match forms with
  | [] => exact .pure rfl
  | [stx] => exact h stx List.mem_cons_self
  | _ :: _ :: _ => exact (barren_all h).bind fun codes hcodes => .pure (Code.definitionsAll_eq_nil hcodes)

/-! ### Core forms -/

theorem barren_lambda (h : ∀ part ∈ parts.drop 2, ∀ scopes, Barren S (compile scopes part))
    (name : Option String) : Barren S (Compile.lambda compile scopes form parts name) := by
  refine (reads_operand 1).bind fun formals _ => (reads_enterScope _).bind fun inner _ => ?_
  exact (barren_body fun part hpart => h part hpart inner).bind fun code hcode => .pure hcode

theorem barren_binding (recursive : Bool)
    (h : ∀ part ∈ (clausesOf parts).flatMap (fun clause => clause.subforms.drop 1) ++ parts.drop 2,
      ∀ scopes, Barren S (compile scopes part)) :
    Barren S (binding compile scopes form parts recursive) := by
  obtain ⟨hclauses, hbody⟩ := List.forall_mem_append.1 h
  refine (reads_operand 1).bind fun clauses hfirst => (reads_clauses _ _).bind fun pairs hpairs => ?_
  have hinits (scopes : Scopes) : ∀ init ∈ pairs.map (·.2), Barren S (compile scopes init) := by
    intro init hinit
    obtain ⟨pair, hpair, rfl⟩ := List.mem_map.1 hinit
    obtain ⟨clause, hclause, hsubforms⟩ := hpairs pair hpair
    refine hclauses _ (List.mem_flatMap.2 ⟨clause, ?_, by simp [hsubforms]⟩) scopes
    simpa [clausesOf, hfirst] using hclause
  have hbody (scopes : Scopes) : Barren S (body compile scopes (parts.drop 2)) :=
    barren_body fun part hpart => hbody part hpart scopes
  have hnone {inits : List Code} {code : Code} (hinits : ∀ init ∈ inits, init.definitions = [])
      (hcode : code.definitions = []) : Code.definitionsAll inits ++ code.definitions = [] := by
    rw [Code.definitionsAll_eq_nil hinits, hcode]
    rfl
  cases recursive with
  | true =>
      refine (reads_enterScope _).bind fun inner _ => (barren_all (hinits inner)).bind fun inits hi => ?_
      exact (hbody inner).bind fun code hcode => .pure (hnone hi hcode)
  | false =>
      refine (barren_all (hinits scopes)).bind fun inits hi => (reads_enterScope _).bind fun inner _ => ?_
      exact (hbody inner).bind fun code hcode => .pure (hnone hi hcode)

theorem barren_assignment (h : ∀ part ∈ parts.drop 2, ∀ scopes, Barren S (compile scopes part)) :
    Barren S (assignment ns compile scopes form parts) := by
  refine (reads_operand 1).bind fun target _ => (reads_operand 2).bind fun value hvalue => ?_
  have hmem : value ∈ parts.drop 2 :=
    List.mem_of_getElem? (i := 0) (by rw [List.getElem?_drop]; exact hvalue)
  refine (h value hmem scopes).bind fun code hcode => ?_
  split
  · exact .fail _
  · refine .getSpaces_bind fun w _ => ?_
    split
    · exact (reads_depthOf _ _).bind fun _ _ => .pure hcode
    · split
      · exact .pure hcode
      · exact .fail _
    · exact .fail _
    · exact .fail _

theorem barren_core {f : CoreForm} (hdefine : f ≠ .define) (hdefineSyntax : f ≠ .defineSyntax)
    (h : ∀ part ∈ f.operands parts, ∀ scopes, Barren S (compile scopes part)) :
    Barren S (Compile.core ns compile scopes f form parts) := by
  cases f with
  | quote =>
      refine (reads_operand 1).bind fun datum _ => ?_
      exact (Gives.stampValue _).bind fun _ _ => .pure rfl
  | quoteSyntax =>
      refine (reads_operand 1).bind fun datum _ => ?_
      exact (Gives.stampSyntax _).bind fun _ _ => .pure rfl
  | ifForm =>
      have hpart {position : Nat} {stx : Syntax} (hstx : parts[position + 1]? = some stx) :
          Barren S (compile scopes stx) := by
        have hoperand : (CoreForm.ifForm.operands parts)[position]? = some stx := by
          rw [CoreForm.operands, List.getElem?_drop, Nat.add_comm]
          exact hstx
        exact h stx (List.mem_of_getElem? hoperand) scopes
      refine (reads_operand 1).bind fun test htest => (hpart htest).bind fun c₁ h₁ => ?_
      refine (reads_operand 2).bind fun consequent hconsequent => ?_
      refine (hpart hconsequent).bind fun c₂ h₂ => ?_
      refine (reads_operand 3).bind fun alternative halternative => ?_
      refine (hpart halternative).bind fun c₃ h₃ => .pure ?_
      rw [Code.definitions, h₁, h₂, h₃]
      rfl
  | begin => exact barren_body fun part hpart => h part hpart scopes
  | lambda => exact barren_lambda h none
  | letForm => exact barren_binding false h
  | letrec => exact barren_binding true h
  | set => exact barren_assignment h
  | define => exact absurd rfl hdefine
  | defineSyntax => exact absurd rfl hdefineSyntax
  | parameterize =>
      obtain ⟨hclauses, hbody⟩ := List.forall_mem_append.1 h
      refine (reads_operand 1).bind fun clauses hfirst => ?_
      have hitems : clausesOf parts = clauses.subforms := by simp [clausesOf, hfirst]
      refine (barren_pairs fun part hpart => hclauses part (hitems ▸ hpart) scopes).bind
        fun bindings hbindings => ?_
      refine (barren_body fun part hpart => hbody part hpart scopes).bind fun code hcode => .pure ?_
      rw [Code.definitions, Code.definitionsPairs_eq_nil hbindings, hcode]
      rfl
  | moduleForm | require | provide => exact .pure rfl

/-- A sexp, whose head decides what it is compiled as. -/
theorem gives_sexp {P : Code → Prop} {stx head : Syntax} {rest : List Syntax}
    (hparts : stx.subforms? = some (head :: rest))
    (hcore : ∀ f, coreForm? S head = some f →
      Gives S P (Compile.core ns compile scopes f stx (head :: rest)))
    (happlication : coreForm? S head = none → Gives S P (do
      let operator ← compile scopes head
      let args ← all compile scopes rest
      return .apply operator args stx)) :
    Gives S P (Compile.form ns compile scopes stx) := by
  cases stx with
  | atom | record => cases hparts
  | group c shape items =>
      cases shape with
      | list => cases hparts
      | sexp =>
          rw [Compile.form, Syntax.subforms_of_subforms? hparts]
          refine .getSpaces_bind fun w hw => ?_
          rw [hw.coreForm?]
          split
          · next f hf => exact hcore f hf
          · next hnone => exact happlication hnone

end

/-- The code of an expression has no definitions. -/
theorem barren_compileAt {S : Spaces} {e : Syntax} (h : Expression S e) (ns : NamespaceId)
    (fuel : Nat) (scopes : Scopes) : Barren S (Compile.compileAt ns fuel scopes e) := by
  induction fuel generalizing e scopes with
  | zero => exact .exhausted
  | succ fuel ih =>
      rw [Compile.compileAt]
      cases h with
      | @atom c a =>
          cases a with
          | symbol name => exact barren_reference _ name
          | _ => exact .pure rfl
      | list hparts hall =>
          cases e with
          | atom | record => cases hparts
          | group c shape items =>
              cases shape with
              | sexp => cases hparts
              | list =>
                  cases hparts
                  refine (barren_all fun part hpart => ih (hall part hpart) scopes).bind
                    fun codes hcodes => .pure ?_
                  exact Code.definitionsAll_eq_nil hcodes
      | record hparts hall =>
          cases e with
          | atom | group => cases hparts
          | record c fields =>
              cases hparts
              refine (barren_fields fun field hfield => ih (hall field hfield) scopes).bind
                fun codes hcodes => .pure ?_
              exact Code.definitionsFields_eq_nil hcodes
      | @application _ operator operands hparts hall =>
          obtain ⟨hoperator, hoperands⟩ := List.forall_mem_cons.1 hall
          -- The operator is an expression, so the form is not compiled as a core form.
          refine gives_sexp hparts (fun f hf => ?_) fun _ => ?_
          · cases hoperator.coreForm?.symm.trans hf
          refine (ih hoperator scopes).bind fun code hcode => ?_
          refine (barren_all fun part hpart => ih (hoperands part hpart) scopes).bind
            fun codes hcodes => .pure ?_
          rw [Code.definitions, hcode, Code.definitionsAll_eq_nil hcodes]
          rfl
      | core hparts hhead hdefine hdefineSyntax hall =>
          refine gives_sexp hparts (fun g hg => ?_) fun hnone => ?_
          · cases hhead.symm.trans hg
            exact barren_core hdefine hdefineSyntax fun part hpart => ih (hall part hpart)
          · cases hhead.symm.trans hnone

end HygienicLisp
