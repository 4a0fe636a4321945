import HygienicLisp.Proofs.Cells
import HygienicLisp.Proofs.Scoping.Elaborated

/-!
# Compilation finds the nearest binder

The scopes that the compiler keeps are those of the ribs around a place (`gives_enterScope`).  So
for a variable it finds the frame of its nearest binder, and a name without a binder becomes a
reference at the level of namespaces (`gives_reference`).

Main statement: `gives_compileAt`.  The code of an expanded form has the variables of the expression
at their addresses.
-/

namespace HygienicLisp

open Compile

/-! ## Computations that read the same -/

/-- The world has the cells and the values of the given namespaces. -/
structure SameReads (spaces : Spaces) (w : World) : Prop where
  cells : w.spaces.cells = spaces.cells
  values : ∀ ns address, w.spaces.value? ns address = spaces.value? ns address

/-- If the computation has a result, the same is read afterwards and the result is as it
should be. -/
def Gives {α : Type} (spaces : Spaces) (P : α → Prop) (x : RunM α) : Prop :=
  ∀ w, SameReads spaces w → ∀ a w', x w = .ok a w' → SameReads spaces w' ∧ P a

namespace Gives

variable {α β : Type} {spaces : Spaces} {P : α → Prop} {Q : β → Prop}

theorem pure {a : α} (h : P a) : Gives spaces P (pure a) := by
  intro w hw b w' hrun
  cases hrun
  exact ⟨hw, h⟩

theorem fail (e : Error) : Gives spaces P (RunM.fail e) := by
  intro w hw b w' hrun
  cases hrun

theorem exhausted : Gives spaces P RunM.exhausted := by
  intro w hw b w' hrun
  cases hrun

theorem bind {x : RunM α} {f : α → RunM β} (hx : Gives spaces P x)
    (hf : ∀ a, P a → Gives spaces Q (f a)) : Gives spaces Q (x >>= f) := by
  intro w hw b w₂ hrun
  obtain ⟨a, w₁, hx₁, hf₁⟩ := RunM.bind_eq_ok.1 hrun
  obtain ⟨hw₁, ha⟩ := hx w hw a w₁ hx₁
  exact hf a ha w₁ hw₁ b w₂ hf₁

theorem bind_eq {a : α} {x : RunM α} {f : α → RunM β} (hx : Gives spaces (· = a) x)
    (hf : Gives spaces Q (f a)) : Gives spaces Q (x >>= f) :=
  hx.bind fun _ ha => ha ▸ hf

theorem getSpaces_bind {f : Spaces → RunM β}
    (h : ∀ w, SameReads spaces w → Gives spaces Q (f w.spaces)) :
    Gives spaces Q (getSpaces >>= f) :=
  fun w hw => h w hw w hw

theorem mono {P' : α → Prop} {x : RunM α} (h : Gives spaces P x) (hP : ∀ a, P a → P' a) :
    Gives spaces P' x := by
  intro w hw a w' hrun
  obtain ⟨hw', ha⟩ := h w hw a w' hrun
  exact ⟨hw', hP a ha⟩

/-- Labels are not read. -/
theorem stampValue (v : Value) : Gives spaces (fun _ => True) (HygienicLisp.stampValue v) := by
  intro w hw b w' hrun
  cases hrun
  exact ⟨⟨hw.cells, hw.values⟩, trivial⟩

theorem stampSyntax (stx : Syntax) :
    Gives spaces (fun _ => True) (HygienicLisp.stampSyntax stx) := by
  intro w hw b w' hrun
  cases hrun
  exact ⟨⟨hw.cells, hw.values⟩, trivial⟩

/-- A short name for an import is not read. -/
theorem importId (ns : NamespaceId) (d : Definition) :
    Gives spaces (fun _ => True) (HygienicLisp.importId ns d) := by
  intro w hw id w' hrun
  obtain ⟨spaces', h, rfl⟩ := importId_eq_ok.1 hrun
  obtain ⟨hcells, hvalues⟩ := Spaces.importId_reads h
  exact ⟨⟨hcells.trans hw.cells, fun other address => (hvalues other address).trans
    (hw.values other address)⟩, trivial⟩

end Gives

variable {spaces : Spaces} {base : List Wrap} {ribs : List Rib} {scope : NameScope}
  {kernel ns : NamespaceId}

/-! ## References -/

theorem SameReads.resolve {w : World} (h : SameReads spaces w) {a : ContextAtom} {stx : Syntax}
    (hstx : Shows (.leaf a) stx) : w.spaces.resolve stx = spaces.leafBinding a := by
  rw [Spaces.resolve_congr h.cells, hstx.bare.resolve hstx.view]

/-- What a name inside ribs denotes. -/
def denotedIn (spaces : Spaces) (base : List Wrap) (ribs : List Rib) (x : String) : Denotation :=
  spaces.denote ((spaces.leafBinding (nameIn base ribs x)).getD (.free x))

theorem SameReads.denoted {w : World} (h : SameReads spaces w) {x : String} {stx : Syntax}
    (hstx : Shows (.leaf (nameIn base ribs x)) stx) :
    w.spaces.denoted stx x = denotedIn spaces base ribs x := by
  rw [Spaces.denoted, h.resolve hstx, Spaces.denote_congr h.cells, denotedIn]

/-- A name denotes the variable of its nearest binder, in the frame that the compiler finds; without
a binder it denotes no variable. -/
theorem Frames.denotedIn_cases (hframes : Frames spaces base ribs scope)
    (hbase : PlainChain kernel base) (x : String) :
    (∃ rib depth slot, address? x scope = some (depth, slot) ∧
      (scopesOf ribs).findIdx? (· = some rib) = some depth ∧
      denotedIn spaces base ribs x = .lexical ⟨x, rib, slot⟩) ∨
    address? x scope = none ∧ (∀ v, denotedIn spaces base ribs x ≠ .lexical v) ∧
      ∀ y, denotedIn spaces base ribs x = .free y → y = x := by
  cases hx : address? x scope with
  | some a =>
      obtain ⟨rib, -, hbinding, hdepth⟩ := hframes.leafBinding_local hx
      exact .inl ⟨rib.id, a.1, a.2, rfl, hdepth, by rw [denotedIn, hbinding]; rfl⟩
  | none =>
      refine .inr ⟨rfl, ?_⟩
      rw [denotedIn, hframes.leafBinding_top hx]
      rcases leafBinding_base spaces hbase x with hnone | ⟨c, hc, -, hcontent⟩
      · rw [hnone]
        constructor
        · rintro v ⟨⟩
        · rintro y ⟨⟩
          rfl
      · -- The cell has a content, so that the name is not taken for a free one.
        obtain ⟨content, hcontent⟩ := Option.isSome_iff_exists.1 hcontent
        rw [hc, Option.getD_some, Spaces.denote, hcontent]
        cases content <;> constructor <;> rintro _ ⟨⟩

theorem gives_definitionRef (d : Definition) (x : String) :
    Gives spaces (TopLevelRef x) (definitionRef ns d x) := by
  rw [definitionRef]
  split
  · exact .pure (.top _)
  · exact (Gives.importId ns d).bind fun id _ => .pure (.imported id _)

theorem gives_depthOf {rib : RibId} {depth : Nat}
    (h : (scopesOf ribs).findIdx? (· = some rib) = some depth) (stx : Syntax) :
    Gives spaces (· = depth) (depthOf (scopesOf ribs) rib stx) := by
  rw [depthOf, h]
  exact .pure rfl

/-- A name becomes the address of its nearest binder; without a binder it becomes a reference at
the level of namespaces. -/
theorem gives_reference (hframes : Frames spaces base ribs scope) (hbase : PlainChain kernel base)
    {x : String} {stx : Syntax} (hstx : Shows (.leaf (nameIn base ribs x)) stx) :
    Gives spaces (Addressed scope (.ref x)) (reference ns (scopesOf ribs) stx x) := by
  refine .getSpaces_bind fun w hw => ?_
  rw [hw.denoted hstx]
  rcases hframes.denotedIn_cases hbase x with
    ⟨rib, depth, slot, hx, hdepth, hdenote⟩ | ⟨hx, hlexical, hfree⟩
  · rw [hdenote]
    refine (gives_depthOf hdepth stx).bind_eq ?_
    exact .pure (.localRef hx)
  · split
    · next y hy =>
      obtain rfl := hfree y hy
      split
      · split
        · exact .pure (.topLevelRef hx (.free stx))
        · exact .fail _
      · exact .fail _
    · next v hv => exact absurd hv (hlexical v)
    · exact (gives_definitionRef _ x).mono fun code => .topLevelRef hx
    · exact (gives_definitionRef _ x).mono fun code => .topLevelRef hx

/-! ## Scopes -/

theorem Opens.leafBinding {rib : Rib} {x : String} {names : List String}
    (hrib : Opens spaces base ribs rib (x :: names)) :
    spaces.leafBinding (nameIn base (rib :: ribs) x) = some (.lexical ⟨x, rib.id, 0⟩) := by
  rw [Frames.leafBinding_cons hrib.keys, List.findIdx?_cons]
  simp

/-- The scope of the first binder is that of the rib. -/
theorem gives_enterScope {rib : Rib} {names : List String} (hrib : Opens spaces base ribs rib names)
    {binders : List Syntax}
    (hbinders : List.Forall₂ Shows (bindersIn base (rib :: ribs) names) binders) :
    Gives spaces (· = scopesOf (rib :: ribs)) (enterScope (scopesOf ribs) binders) := by
  cases names with
  | nil =>
      -- Without binders there is a frame all the same.
      cases hbinders
      have hscope : scopeOf rib = none := if_pos hrib.keys
      exact .pure (by rw [scopesOf, scopesOf, List.map_cons, hscope])
  | cons x names =>
      obtain _ | ⟨hfirst, -⟩ := hbinders
      have hscope : scopeOf rib = some rib.id := if_neg (by simp [hrib.keys])
      refine .getSpaces_bind fun w hw => ?_
      rw [hw.resolve hfirst, hrib.leafBinding]
      exact .pure (by rw [scopesOf, scopesOf, List.map_cons, hscope])

/-! ## Parts of forms -/

/-- The computation compiles what has been expanded. -/
def Compiles (spaces : Spaces) (base : List Wrap) (compile : Scopes → Syntax → RunM Code) : Prop :=
  ∀ ⦃ribs : List Rib⦄ ⦃scope : NameScope⦄ ⦃e : Expr⦄ ⦃T : ContextTree⦄ ⦃stx : Syntax⦄,
    Frames spaces base ribs scope → Elaborated spaces base ribs e T → Shows T stx →
      Gives spaces (Addressed scope e) (compile (scopesOf ribs) stx)

section

variable {compile : Scopes → Syntax → RunM Code} {es : List Expr} {Ts : List ContextTree}

theorem gives_all (hcompile : Compiles spaces base compile)
    (hframes : Frames spaces base ribs scope) (h : ElaboratedAll spaces base ribs es Ts)
    {stxs : List Syntax} (hstxs : List.Forall₂ Shows Ts stxs) :
    Gives spaces (AddressedAll scope es) (all compile (scopesOf ribs) stxs) := by
  induction hstxs generalizing es with
  | nil =>
      cases h
      exact .pure .nil
  | cons hstx _ ih =>
      cases h with
      | cons head tail =>
          refine (hcompile hframes head hstx).bind fun code hcode => ?_
          exact (ih tail).bind fun codes hcodes => .pure (.cons hcode hcodes)

theorem gives_fields (hcompile : Compiles spaces base compile)
    (hframes : Frames spaces base ribs scope) (h : ElaboratedAll spaces base ribs es Ts)
    {fields : List (String × Syntax)} (hfields : List.Forall₂ Shows Ts (fields.map (·.2))) :
    Gives spaces (fun codes => ∃ values, codes = (fields.map (·.1)).zip values ∧
      AddressedAll scope es values) (Compile.fields compile (scopesOf ribs) fields) := by
  induction fields generalizing es Ts with
  | nil =>
      cases hfields
      cases h
      exact .pure ⟨[], rfl, .nil⟩
  | cons field fields ih =>
      obtain _ | ⟨hstx, hrest⟩ := hfields
      cases h with
      | cons head tail =>
          refine (hcompile hframes head hstx).bind fun code hcode => ?_
          refine (ih tail hrest).bind fun codes hcodes => ?_
          obtain ⟨values, rfl, hvalues⟩ := hcodes
          exact .pure ⟨code :: values, rfl, .cons hcode hvalues⟩

/-- The code of a body is that of its forms. -/
theorem gives_body (hcompile : Compiles spaces base compile)
    (hframes : Frames spaces base ribs scope) (h : ElaboratedAll spaces base ribs es Ts)
    {stxs : List Syntax} (hstxs : List.Forall₂ Shows Ts stxs) :
    Gives spaces (fun code => ∃ codes, code = bodyCode codes ∧ AddressedAll scope es codes)
      (body compile (scopesOf ribs) stxs) := by
  have hall := gives_all hcompile hframes h hstxs
  match stxs with
  | [] =>
      cases hstxs
      cases h
      exact .pure ⟨[], rfl, .nil⟩
  | [stx] =>
      obtain _ | ⟨hstx, _ | _⟩ := hstxs
      cases h with
      | cons head tail =>
          cases tail
          exact (hcompile hframes head hstx).mono fun code hcode => ⟨[code], rfl, .cons hcode .nil⟩
  | stx₁ :: stx₂ :: rest =>
      obtain _ | ⟨_, _ | ⟨_, _⟩⟩ := hstxs
      obtain _ | ⟨_, _ | ⟨_, _⟩⟩ := h
      refine hall.bind fun codes hcodes => .pure ⟨codes, ?_, hcodes⟩
      -- There are as many codes as forms, at least two.
      obtain _ | ⟨_, _ | ⟨_, _⟩⟩ := hcodes
      rfl

/-- The clauses of a form, taken apart. -/
theorem gives_clauses {firsts seconds : List ContextTree} (hlength : firsts.length = seconds.length)
    {items : List Syntax}
    (hitems : List.Forall₂ Shows (couples firsts seconds) items) (fault : SyntaxFault) :
    Gives spaces (fun pairs => List.Forall₂ Shows firsts (pairs.map (·.1)) ∧
      List.Forall₂ Shows seconds (pairs.map (·.2))) (clauses fault items) := by
  induction firsts generalizing seconds items with
  | nil =>
      obtain rfl : seconds = [] := List.length_eq_zero_iff.1 hlength.symm
      cases hitems
      exact .pure ⟨.nil, .nil⟩
  | cons first firsts ih =>
      cases seconds with
      | nil => cases hlength
      | cons second seconds =>
          obtain _ | ⟨hclause, hrest⟩ := hitems
          obtain ⟨parts, hparts, _ | ⟨hfirst, _ | ⟨hsecond, _ | _⟩⟩⟩ := hclause.subforms
          rw [clauses, Syntax.subforms, hparts]
          refine (ih (Nat.succ.inj hlength) hrest).bind fun pairs hpairs => .pure ?_
          exact ⟨.cons hfirst hpairs.1, .cons hsecond hpairs.2⟩

theorem gives_pairs (hcompile : Compiles spaces base compile)
    (hframes : Frames spaces base ribs scope) {ps vs : List Expr}
    {parameters values : List ContextTree} (hlength : parameters.length = values.length)
    (hps : ElaboratedAll spaces base ribs ps parameters)
    (hvs : ElaboratedAll spaces base ribs vs values) {items : List Syntax}
    (hitems : List.Forall₂ Shows (couples parameters values) items) :
    Gives spaces (fun codes => ∃ firsts seconds, codes = firsts.zip seconds ∧
      AddressedAll scope ps firsts ∧ AddressedAll scope vs seconds)
      (pairs compile (scopesOf ribs) items) := by
  induction parameters generalizing ps vs values items with
  | nil =>
      obtain rfl : values = [] := List.length_eq_zero_iff.1 hlength.symm
      cases hps
      cases hvs
      cases hitems
      exact .pure ⟨[], [], rfl, .nil, .nil⟩
  | cons parameter parameters ih =>
      cases values with
      | nil => cases hlength
      | cons value values =>
          obtain _ | ⟨hclause, hrest⟩ := hitems
          obtain ⟨parts, hparts, _ | ⟨hparameter, _ | ⟨hvalue, _ | _⟩⟩⟩ := hclause.subforms
          cases hps with
          | cons hp hps =>
              cases hvs with
              | cons hv hvs =>
                  rw [pairs, Syntax.subforms, hparts]
                  refine (hcompile hframes hp hparameter).bind fun p hp => ?_
                  refine (hcompile hframes hv hvalue).bind fun v hv => ?_
                  refine (ih (Nat.succ.inj hlength) hps hvs hrest).bind fun codes hcodes => ?_
                  obtain ⟨firsts, seconds, rfl, hfirsts, hseconds⟩ := hcodes
                  exact .pure ⟨p :: firsts, v :: seconds, rfl, .cons hp hfirsts, .cons hv hseconds⟩

theorem gives_operand {form stx : Syntax} {parts : List Syntax} {position : Nat}
    (h : parts[position]? = some stx) : Gives spaces (· = stx) (operand form parts position) := by
  rw [operand, h]
  exact .pure rfl

/-! ## Core forms -/

variable {rib : Rib} {names : List String} {head : ContextTree} {form : Syntax}
  {parts : List Syntax}

theorem gives_lambda (hcompile : Compiles spaces base compile)
    (hframes : Frames spaces base ribs scope) (hrib : Opens spaces base ribs rib names)
    (h : ElaboratedAll spaces base (rib :: ribs) es Ts)
    (hparts : List.Forall₂ Shows
      (head :: .group .sexp (bindersIn base (rib :: ribs) names) :: Ts) parts) :
    Gives spaces (Addressed scope (.lambda names false es))
      (Compile.lambda compile (scopesOf ribs) form parts none) := by
  obtain _ | ⟨_, _ | ⟨hformals, hbody⟩⟩ := hparts
  obtain ⟨binders, hsubforms, hbinders⟩ := hformals.subforms
  have hcount : binders.length = names.length := by
    rw [← hbinders.length_eq, bindersIn, List.length_map]
  refine (gives_operand rfl).bind_eq ?_
  simp only [hformals.isIdentifier_of_group, Bool.false_eq_true, if_false, Syntax.subforms,
    hsubforms, Option.getD_some, hcount]
  refine (gives_enterScope hrib hbinders).bind_eq ?_
  refine (gives_body hcompile (hrib.frames hframes) h hbody).bind fun code hcode => ?_
  obtain ⟨codes, rfl, hcodes⟩ := hcode
  exact .pure (.lambda hcodes)

theorem gives_lambdaRest (hcompile : Compiles spaces base compile)
    (hframes : Frames spaces base ribs scope) {x : String} (hrib : Opens spaces base ribs rib [x])
    (h : ElaboratedAll spaces base (rib :: ribs) es Ts)
    (hparts : List.Forall₂ Shows (head :: .leaf (nameIn base (rib :: ribs) x) :: Ts) parts) :
    Gives spaces (Addressed scope (.lambda [x] true es))
      (Compile.lambda compile (scopesOf ribs) form parts none) := by
  obtain _ | ⟨_, _ | ⟨hformal, hbody⟩⟩ := hparts
  refine (gives_operand rfl).bind_eq ?_
  simp only [hformal.isIdentifier_of_name rfl, if_true]
  refine (gives_enterScope hrib (.cons hformal .nil)).bind_eq ?_
  refine (gives_body hcompile (hrib.frames hframes) h hbody).bind fun code hcode => ?_
  obtain ⟨codes, rfl, hcodes⟩ := hcode
  exact .pure (.lambda hcodes)

section

variable {inits : List ContextTree} {is : List Expr}

theorem gives_let (hcompile : Compiles spaces base compile)
    (hframes : Frames spaces base ribs scope) (hrib : Opens spaces base ribs rib names)
    (hlength : names.length = inits.length)
    (hinits : ElaboratedAll spaces base ribs is inits)
    (h : ElaboratedAll spaces base (rib :: ribs) es Ts)
    (hparts : List.Forall₂ Shows
      (head :: clausesSeen (bindersIn base (rib :: ribs) names) inits :: Ts) parts) :
    Gives spaces (Addressed scope (.letIn names is es))
      (binding compile (scopesOf ribs) form parts false) := by
  obtain _ | ⟨_, _ | ⟨hclauses, hbody⟩⟩ := hparts
  obtain ⟨items, hsubforms, hitems⟩ := hclauses.subforms
  refine (gives_operand rfl).bind_eq ?_
  rw [Syntax.subforms, hsubforms]
  refine (gives_clauses (by simpa [bindersIn] using hlength) hitems _).bind fun pairs hpairs => ?_
  refine (gives_all hcompile hframes hinits hpairs.2).bind fun initCodes hinitCodes => ?_
  refine (gives_enterScope hrib hpairs.1).bind_eq ?_
  refine (gives_body hcompile (hrib.frames hframes) h hbody).bind fun code hcode => ?_
  obtain ⟨codes, rfl, hcodes⟩ := hcode
  exact .pure (.letIn hinitCodes hcodes)

theorem gives_letrec (hcompile : Compiles spaces base compile)
    (hframes : Frames spaces base ribs scope) (hrib : Opens spaces base ribs rib names)
    (hlength : names.length = inits.length)
    (hinits : ElaboratedAll spaces base (rib :: ribs) is inits)
    (h : ElaboratedAll spaces base (rib :: ribs) es Ts)
    (hparts : List.Forall₂ Shows
      (head :: clausesSeen (bindersIn base (rib :: ribs) names) inits :: Ts) parts) :
    Gives spaces (Addressed scope (.letrec names is es))
      (binding compile (scopesOf ribs) form parts true) := by
  obtain _ | ⟨_, _ | ⟨hclauses, hbody⟩⟩ := hparts
  obtain ⟨items, hsubforms, hitems⟩ := hclauses.subforms
  have hinner := hrib.frames hframes
  refine (gives_operand rfl).bind_eq ?_
  rw [Syntax.subforms, hsubforms]
  refine (gives_clauses (by simpa [bindersIn] using hlength) hitems _).bind fun pairs hpairs => ?_
  refine (gives_enterScope hrib hpairs.1).bind_eq ?_
  refine (gives_all hcompile hinner hinits hpairs.2).bind fun initCodes hinitCodes => ?_
  refine (gives_body hcompile hinner h hbody).bind fun code hcode => ?_
  obtain ⟨codes, rfl, hcodes⟩ := hcode
  exact .pure (.letrec hinitCodes hcodes)

end

theorem gives_assignment (hcompile : Compiles spaces base compile)
    (hframes : Frames spaces base ribs scope) (hbase : PlainChain kernel base) {x : String}
    {e : Expr} {T : ContextTree} (h : Elaborated spaces base ribs e T)
    (hparts : List.Forall₂ Shows [head, .leaf (nameIn base ribs x), T] parts) :
    Gives spaces (Addressed scope (.assign x e))
      (assignment ns compile (scopesOf ribs) form parts) := by
  obtain _ | ⟨_, _ | ⟨htarget, _ | ⟨hvalue, _ | _⟩⟩⟩ := hparts
  refine (gives_operand rfl).bind_eq ?_
  refine (gives_operand rfl).bind_eq ?_
  refine (hcompile hframes h hvalue).bind fun code hcode => ?_
  rw [Syntax.symbol?_of_view htarget.view]
  refine .getSpaces_bind fun w hw => ?_
  rw [hw.denoted htarget]
  rcases hframes.denotedIn_cases hbase x with
    ⟨rib, depth, slot, hx, hdepth, hdenote⟩ | ⟨hx, hlexical, -⟩
  · rw [hdenote]
    refine (gives_depthOf hdepth _).bind_eq ?_
    exact .pure (.localSet hx hcode)
  · split
    · next v hv => exact absurd hv (hlexical v)
    · split
      · exact .pure (.topSet _ hx hcode)
      · exact .fail _
    · exact .fail _
    · exact .fail _

theorem gives_parameterize (hcompile : Compiles spaces base compile)
    (hframes : Frames spaces base ribs scope) {ps vs : List Expr}
    {parameters values : List ContextTree} (hlength : parameters.length = values.length)
    (hps : ElaboratedAll spaces base ribs ps parameters)
    (hvs : ElaboratedAll spaces base ribs vs values) (h : ElaboratedAll spaces base ribs es Ts)
    (hparts : List.Forall₂ Shows (head :: clausesSeen parameters values :: Ts) parts) :
    Gives spaces (Addressed scope (.parameterize ps vs es))
      (core ns compile (scopesOf ribs) .parameterize form parts) := by
  obtain _ | ⟨_, _ | ⟨hclauses, hbody⟩⟩ := hparts
  obtain ⟨items, hsubforms, hitems⟩ := hclauses.subforms
  refine (gives_operand rfl).bind_eq ?_
  rw [Syntax.subforms, hsubforms]
  refine (gives_pairs hcompile hframes hlength hps hvs hitems).bind fun codes hcodes => ?_
  obtain ⟨firsts, seconds, rfl, hfirsts, hseconds⟩ := hcodes
  refine (gives_body hcompile hframes h hbody).bind fun code hcode => ?_
  obtain ⟨codes, rfl, hcodes⟩ := hcode
  exact .pure (.parameterize hfirsts hseconds hcodes)

theorem gives_branch (hcompile : Compiles spaces base compile)
    (hframes : Frames spaces base ribs scope) {e₁ e₂ e₃ : Expr}
    (h : ElaboratedAll spaces base ribs [e₁, e₂, e₃] Ts)
    (hparts : List.Forall₂ Shows (head :: Ts) parts) :
    Gives spaces (Addressed scope (.branch e₁ e₂ e₃))
      (core ns compile (scopesOf ribs) .ifForm form parts) := by
  obtain _ | ⟨h₁, _ | ⟨h₂, _ | ⟨h₃, _ | _⟩⟩⟩ := h
  obtain _ | ⟨_, _ | ⟨htest, _ | ⟨hthen, _ | ⟨helse, _ | _⟩⟩⟩⟩ := hparts
  refine (gives_operand rfl).bind_eq ?_
  refine (hcompile hframes h₁ htest).bind fun code₁ hcode₁ => ?_
  refine (gives_operand rfl).bind_eq ?_
  refine (hcompile hframes h₂ hthen).bind fun code₂ hcode₂ => ?_
  refine (gives_operand rfl).bind_eq ?_
  refine (hcompile hframes h₃ helse).bind fun code₃ hcode₃ => ?_
  exact .pure (.branch (.cons hcode₁ (.cons hcode₂ (.cons hcode₃ .nil))))

theorem gives_quoted {f : CoreForm} {T : ContextTree} (hf : f = .quote ∨ f = .quoteSyntax)
    (hparts : List.Forall₂ Shows [head, T] parts) :
    Gives spaces (Addressed scope .quoted) (core ns compile (scopesOf ribs) f form parts) := by
  obtain _ | ⟨_, _ | ⟨_, _ | _⟩⟩ := hparts
  rcases hf with rfl | rfl
  · refine (gives_operand rfl).bind_eq ?_
    exact (Gives.stampValue _).bind fun v _ => .pure (.quoted v)
  · refine (gives_operand rfl).bind_eq ?_
    exact (Gives.stampSyntax _).bind fun stx _ => .pure (.quoted (.stx stx))

/-! ## Forms -/

theorem coreForm?_of_not_identifier {stx : Syntax} (h : stx.isIdentifier = false) :
    coreForm? spaces stx = none := by
  simp [coreForm?, headValue?, h]

/-- What has been expanded is no core form at the head of a form. -/
theorem Elaborated.coreForm?_eq_none {e : Expr} {T : ContextTree} {stx : Syntax}
    (h : Elaborated spaces base ribs e T) (hstx : Shows T stx) : coreForm? spaces stx = none := by
  cases h with
  | data h =>
      refine coreForm?_of_not_identifier ?_
      rw [Syntax.isIdentifier_of_view hstx.view, h]
      rfl
  | ref x h =>
      rw [coreForm?, hstx.headValue?]
      split
      · exact absurd ‹_› (h _)
      · rfl
  | record hkeys _ =>
      obtain ⟨c, raw, found, rfl, -⟩ := hstx.exists_fields hkeys
      rfl
  | namedLet h =>
      cases h
      exact coreForm?_of_not_identifier hstx.isIdentifier_of_group
  | _ => exact coreForm?_of_not_identifier hstx.isIdentifier_of_group

theorem SameReads.denoted_eq {w : World} (hw : SameReads spaces w) (x : Syntax) (name : String) :
    w.spaces.denoted x name = spaces.denoted x name := by
  rw [Spaces.denoted, Spaces.denoted, Spaces.resolve_congr hw.cells, Spaces.denote_congr hw.cells]

theorem SameReads.coreForm? {w : World} (h : SameReads spaces w) (stx : Syntax) :
    HygienicLisp.coreForm? w.spaces stx = HygienicLisp.coreForm? spaces stx :=
  coreForm?_congr h.cells h.values stx

theorem gives_data {a : ContextAtom} (ha : a.symbol? = none) (hstx : Shows (.leaf a) form) :
    Gives spaces (Addressed scope (.data a.data))
      (Compile.form ns compile (scopesOf ribs) form) := by
  obtain ⟨c, rfl, -⟩ := Syntax.view_eq_leaf hstx.view
  rw [ContextAtom.symbol?] at ha
  cases hdata : a.data with
  | symbol x =>
      rw [hdata] at ha
      cases ha
  | _ => exact .pure (.data _)

theorem gives_core {f : CoreForm} {P : Code → Prop} (hstx : Shows (.group .sexp (head :: Ts)) form)
    (hhead : HeadSeen spaces f head)
    (h : ∀ parts, List.Forall₂ Shows (head :: Ts) parts →
      Gives spaces P (core ns compile (scopesOf ribs) f form parts)) :
    Gives spaces P (Compile.form ns compile (scopesOf ribs) form) := by
  obtain ⟨parts, hsubforms, hparts⟩ := hstx.subforms
  obtain ⟨c, raw, rfl, -⟩ := hstx.exists_parts
  obtain ⟨a, rfl, hvalue⟩ := hhead
  obtain _ | ⟨hheadShows, hrest⟩ := hparts
  rw [Compile.form, Syntax.subforms, hsubforms]
  refine .getSpaces_bind fun w hw => ?_
  rw [hw.coreForm?, coreForm?, hheadShows.headValue?, hvalue]
  exact h _ (.cons hheadShows hrest)

theorem gives_apply (hcompile : Compiles spaces base compile)
    (hframes : Frames spaces base ribs scope) {e : Expr} {T : ContextTree}
    (hoperator : Elaborated spaces base ribs e T) (hoperands : ElaboratedAll spaces base ribs es Ts)
    (hstx : Shows (.group .sexp (T :: Ts)) form) :
    Gives spaces (Addressed scope (.apply e es))
      (Compile.form ns compile (scopesOf ribs) form) := by
  obtain ⟨parts, hsubforms, hparts⟩ := hstx.subforms
  obtain ⟨c, raw, rfl, -⟩ := hstx.exists_parts
  obtain _ | ⟨hhead, hrest⟩ := hparts
  rw [Compile.form, Syntax.subforms, hsubforms]
  refine .getSpaces_bind fun w hw => ?_
  rw [hw.coreForm?, hoperator.coreForm?_eq_none hhead]
  refine (hcompile hframes hoperator hhead).bind fun operator hoperatorCode => ?_
  refine (gives_all hcompile hframes hoperands hrest).bind fun operands hoperandCodes => ?_
  exact .pure (.apply _ hoperatorCode hoperandCodes)

/-- The code of a loop. -/
theorem Addressed.namedLet_of_apply {x : String} {is : List Expr} {code : Code}
    (h : Addressed scope (.apply (loopExpr x names es) is) code) :
    Addressed scope (.namedLet x names is es) code := by
  cases h with
  | apply call hoperator hoperands =>
      cases hoperator with
      | letrec hinits hbody =>
          obtain _ | ⟨hlambda, _ | _⟩ := hinits
          obtain _ | ⟨href, _ | _⟩ := hbody
          cases hlambda with
          | lambda hcodes =>
              have hfirst : address? x ([x] :: scope) = some (0, 0) := by simp [address?]
              cases href with
              | localRef hx =>
                  cases hfirst.symm.trans hx
                  exact .namedLet call hoperands hcodes
              | topLevelRef hx => cases hfirst.symm.trans hx

end

/-- The code of an expanded form has the variables of the expression at their addresses. -/
theorem gives_compileAt (hbase : PlainChain kernel base) (fuel : Nat) :
    Compiles spaces base (compileAt ns fuel) := by
  induction fuel with
  | zero => exact fun _ _ _ _ _ _ _ _ => .exhausted
  | succ fuel ih =>
      intro ribs scope e T stx hframes h hstx
      rw [compileAt]
      cases h with
      | data ha => exact gives_data ha hstx
      | ref x _ =>
          obtain ⟨c, rfl, -⟩ := Syntax.view_eq_leaf hstx.view
          exact gives_reference hframes hbase hstx
      | list h =>
          obtain ⟨c, raw, rfl, hparts⟩ := hstx.exists_parts
          exact (gives_all ih hframes h hparts).bind fun codes hcodes => .pure (.list hcodes)
      | record hkeys h =>
          obtain ⟨c, raw, found, rfl, hfound, rfl, hfields⟩ := hstx.exists_fields hkeys
          rw [Compile.form, hfound]
          refine (gives_fields ih hframes h hfields).bind fun codes hcodes => ?_
          obtain ⟨values, rfl, hvalues⟩ := hcodes
          exact .pure (.record hvalues)
      | quoted hhead hf => exact gives_core hstx hhead fun parts => gives_quoted hf
      | assign x hhead h =>
          exact gives_core hstx hhead fun parts => gives_assignment ih hframes hbase h
      | branch hhead h => exact gives_core hstx hhead fun parts => gives_branch ih hframes h
      | sequence hhead h =>
          refine gives_core hstx hhead fun parts hparts => ?_
          obtain _ | ⟨_, hrest⟩ := hparts
          refine (gives_body ih hframes h hrest).mono fun code hcode => ?_
          obtain ⟨codes, rfl, hcodes⟩ := hcode
          exact .sequence hcodes
      | lambda hhead hrib h =>
          exact gives_core hstx hhead fun parts => gives_lambda ih hframes hrib h
      | lambdaRest hhead hrib h =>
          exact gives_core hstx hhead fun parts => gives_lambdaRest ih hframes hrib h
      | letIn hhead hrib hlength hinits h =>
          exact gives_core hstx hhead fun parts => gives_let ih hframes hrib hlength hinits h
      | letrec hhead hrib hlength hinits h =>
          exact gives_core hstx hhead fun parts => gives_letrec ih hframes hrib hlength hinits h
      | namedLet h =>
          -- The form is the call that expansion has made of the loop.
          cases h with
          | apply hoperator hoperands =>
              exact (gives_apply ih hframes hoperator hoperands hstx).mono fun code =>
                Addressed.namedLet_of_apply
      | parameterize hhead hlength hps hvs h =>
          exact gives_core hstx hhead fun parts => gives_parameterize ih hframes hlength hps hvs h
      | apply hoperator hoperands => exact gives_apply ih hframes hoperator hoperands hstx

end HygienicLisp
