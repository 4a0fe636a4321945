import HygienicLisp.Proofs.FullExpansion.Settled
import HygienicLisp.Proofs.Scoping.Compile

/-!
# Compilation of forms that are alike

Two forms of one shape are compiled alike if their identifiers lead to the same places: names that
are no local variables have one meaning, and local variables are found in the same slot as many
frames up (`Refers`).  The code is then the same up to the syntax objects that are embedded in it
(`Code.erased`).

`Simulates S R x y` compares two computations that start with the same namespaces.  If the first has
a result, so has the second, and the results are related by `R`.  The lemmas go through compilation
step by step, with the compilation of the parts as an argument.
-/

namespace HygienicLisp

open Compile

/-! ## Code without syntax -/

mutual

/-- The value without the syntax objects in it and without the labels of its records. -/
def Value.erased : Value → Value
  | .group shape items => .group shape (erasedAll items)
  | .record _ fields => .record 0 (erasedFields fields)
  | .stx _ => .stx default
  | v => v

/-- `erased` on every value of a sequence. -/
def Value.erasedAll : List Value → List Value
  | [] => []
  | v :: rest => v.erased :: erasedAll rest

/-- `erased` on every field of a record. -/
def Value.erasedFields : List (String × Value) → List (String × Value)
  | [] => []
  | (key, v) :: rest => (key, v.erased) :: erasedFields rest

end

mutual

/-- The code without the syntax objects that are embedded in it. -/
def Code.erased : Code → Code
  | .constant v => .constant v.erased
  | .void => .void
  | .localRef depth slot name => .localRef depth slot name
  | .topRef address name => .topRef address name
  | .importRef id address name => .importRef id address name
  | .freeRef name _ => .freeRef name default
  | .localSet depth slot value => .localSet depth slot value.erased
  | .topSet address value => .topSet address value.erased
  | .define name address value => .define name address value.erased
  | .defineSyntax name address value _ => .defineSyntax name address value.erased default
  | .branch test consequent alternative =>
    .branch test.erased consequent.erased alternative.erased
  | .sequence forms => .sequence (erasedAll forms)
  | .lambda name required rest body => .lambda name required rest body.erased
  | .letIn inits body => .letIn (erasedAll inits) body.erased
  | .letrec inits body => .letrec (erasedAll inits) body.erased
  | .apply operator operands _ => .apply operator.erased (erasedAll operands) default
  | .parameterize bindings body => .parameterize (erasedPairs bindings) body.erased
  | .listLiteral elements => .listLiteral (erasedAll elements)
  | .recordLiteral fields => .recordLiteral (erasedFields fields)

/-- `erased` on the code of every form. -/
def Code.erasedAll : List Code → List Code
  | [] => []
  | code :: rest => code.erased :: erasedAll rest

/-- `erased` on the code of every clause. -/
def Code.erasedPairs : List (Code × Code) → List (Code × Code)
  | [] => []
  | (first, second) :: rest => (first.erased, second.erased) :: erasedPairs rest

/-- `erased` on the code of every field. -/
def Code.erasedFields : List (String × Code) → List (String × Code)
  | [] => []
  | (key, code) :: rest => (key, code.erased) :: erasedFields rest

end

mutual

/-- Labels do not count. -/
theorem Value.erased_stamp (v : Value) (next : Nat) : (v.stamp next).1.erased = v.erased := by
  match v with
  | .group shape items =>
      rw [stamp, erased, erased]
      exact congrArg _ (erasedAll_stampAll items next)
  | .record label fields =>
      rw [stamp]
      split
      · rw [erased, erased]
        exact congrArg _ (erasedFields_stampFields fields (next + 1))
      · rfl
  | .void | .atom _ | .stx _ | .procedure _ _ | .transformer _ _ _ | .form _ => rfl

theorem Value.erasedAll_stampAll (items : List Value) (next : Nat) :
    erasedAll (stampAll items next).1 = erasedAll items := by
  match items with
  | [] => rfl
  | v :: rest =>
      rw [stampAll, erasedAll, erasedAll, erased_stamp v next, erasedAll_stampAll rest]

theorem Value.erasedFields_stampFields (fields : List (String × Value)) (next : Nat) :
    erasedFields (stampFields fields next).1 = erasedFields fields := by
  match fields with
  | [] => rfl
  | (key, v) :: rest =>
      rw [stampFields, erasedFields, erasedFields, erased_stamp v next,
        erasedFields_stampFields rest]

end

/-! ## Computations side by side -/

/-- If the first computation has a result then so has the second, started with the same namespaces,
and the results are related. -/
def Simulates {α β : Type} (S : Spaces) (R : α → β → Prop) (x : RunM α) (y : RunM β) : Prop :=
  ∀ ⦃w w' : World⦄, SameReads S w → w'.spaces = w.spaces → ∀ ⦃a : α⦄ ⦃w₁ : World⦄, x w = .ok a w₁ →
    ∃ b w₁', y w' = .ok b w₁' ∧ R a b ∧ SameReads S w₁ ∧ w₁'.spaces = w₁.spaces

namespace Simulates

variable {α β α' β' : Type} {S : Spaces} {R : α → β → Prop} {Q : α' → β' → Prop}

theorem pure {a : α} {b : β} (h : R a b) : Simulates S R (pure a) (pure b) := by
  intro w w' hw hsame _ _ hrun
  cases hrun
  exact ⟨b, w', rfl, h, hw, hsame⟩

theorem fail (e : Error) (y : RunM β) : Simulates S R (RunM.fail e) y := by
  intro w w' hw hsame _ _ hrun
  cases hrun

theorem exhausted (y : RunM β) : Simulates S R RunM.exhausted y := by
  intro w w' hw hsame _ _ hrun
  cases hrun

theorem bind {x : RunM α} {y : RunM β} {f : α → RunM α'} {g : β → RunM β'} (hxy : Simulates S R x y)
    (hfg : ∀ a b, R a b → Simulates S Q (f a) (g b)) : Simulates S Q (x >>= f) (y >>= g) := by
  intro w w' hw hsame c w₂ hrun
  obtain ⟨a, w₁, hx, hf⟩ := RunM.bind_eq_ok.1 hrun
  obtain ⟨b, w₁', hy, hab, hw₁, hsame₁⟩ := hxy hw hsame hx
  obtain ⟨d, w₂', hg, hcd, hw₂, hsame₂⟩ := hfg a b hab hw₁ hsame₁ hf
  exact ⟨d, w₂', RunM.bind_eq_ok.2 ⟨b, w₁', hy, hg⟩, hcd, hw₂, hsame₂⟩

theorem getSpaces_bind {f : Spaces → RunM α} {g : Spaces → RunM β}
    (h : ∀ w, SameReads S w → Simulates S R (f w.spaces) (g w.spaces)) :
    Simulates S R (getSpaces >>= f) (getSpaces >>= g) := by
  intro w w' hw hsame a w₁ hrun
  obtain ⟨b, w₁', hg, hrest⟩ := h w hw hw hsame hrun
  rw [← hsame] at hg
  exact ⟨b, w₁', hg, hrest⟩

/-- A computation that reads and writes no more than namespaces. -/
theorem importId (ns : NamespaceId) (d : Definition) :
    Simulates S Eq (HygienicLisp.importId ns d) (HygienicLisp.importId ns d) := by
  intro w w' hw hsame id w₁ hrun
  have hw₁ := (Gives.importId ns d w hw id w₁ hrun).1
  obtain ⟨spaces, h, rfl⟩ := importId_eq_ok.1 hrun
  exact ⟨id, { w' with spaces }, importId_eq_ok.2 ⟨spaces, hsame ▸ h, rfl⟩, rfl, hw₁, rfl⟩

/-- Labels that are drawn on both sides. -/
theorem stampValue {v v' : Value} (h : v'.erased = v.erased) :
    Simulates S (fun v v' => v'.erased = v.erased) (HygienicLisp.stampValue v)
      (HygienicLisp.stampValue v') := by
  intro w w' hw hsame a w₁ hrun
  cases hrun
  refine ⟨_, _, rfl, ?_, ⟨hw.cells, hw.values⟩, hsame⟩
  dsimp only
  rw [Value.erased_stamp, Value.erased_stamp, h]

theorem stampSyntax (stx stx' : Syntax) :
    Simulates S (fun _ _ => True) (HygienicLisp.stampSyntax stx) (HygienicLisp.stampSyntax stx') := by
  intro w w' hw hsame a w₁ hrun
  cases hrun
  exact ⟨_, _, rfl, trivial, ⟨hw.cells, hw.values⟩, hsame⟩

end Simulates

/-- Code that is the same without the embedded syntax. -/
abbrev Code.Same (code code' : Code) : Prop := code'.erased = code.erased

namespace Code.Same

variable {a a' b b' c c' : Code} {as as' : List Code}

theorem constant {v v' : Value} (h : v'.erased = v.erased) : Same (.constant v) (.constant v') :=
  congrArg Code.constant h

theorem localSet (depth slot : Nat) (h : Same a a') :
    Same (.localSet depth slot a) (.localSet depth slot a') :=
  congrArg (Code.localSet depth slot) h

theorem topSet (address : Nat) (h : Same a a') : Same (.topSet address a) (.topSet address a') :=
  congrArg (Code.topSet address) h

theorem branch (ha : Same a a') (hb : Same b b') (hc : Same c c') :
    Same (.branch a b c) (.branch a' b' c') := by
  have hbranch := congr (congrArg₂ Code.branch ha hb) hc
  exact hbranch

theorem sequence (h : erasedAll as' = erasedAll as) : Same (.sequence as) (.sequence as') :=
  congrArg Code.sequence h

theorem lambda (name : Option String) (required : Nat) (rest : Bool) (h : Same a a') :
    Same (.lambda name required rest a) (.lambda name required rest a') :=
  congrArg (Code.lambda name required rest) h

theorem letIn (h : erasedAll as' = erasedAll as) (ha : Same a a') :
    Same (.letIn as a) (.letIn as' a') :=
  congrArg₂ Code.letIn h ha

theorem letrec (h : erasedAll as' = erasedAll as) (ha : Same a a') :
    Same (.letrec as a) (.letrec as' a') :=
  congrArg₂ Code.letrec h ha

/-- The form that is called is embedded for the sake of failures only. -/
theorem apply (call call' : Syntax) (ha : Same a a') (h : erasedAll as' = erasedAll as) :
    Same (.apply a as call) (.apply a' as' call') :=
  congrArg₂ (fun a as => Code.apply a as default) ha h

theorem parameterize {pairs pairs' : List (Code × Code)}
    (h : erasedPairs pairs' = erasedPairs pairs) (ha : Same a a') :
    Same (.parameterize pairs a) (.parameterize pairs' a') :=
  congrArg₂ Code.parameterize h ha

theorem listLiteral (h : erasedAll as' = erasedAll as) :
    Same (.listLiteral as) (.listLiteral as') :=
  congrArg Code.listLiteral h

theorem recordLiteral {fields fields' : List (String × Code)}
    (h : erasedFields fields' = erasedFields fields) :
    Same (.recordLiteral fields) (.recordLiteral fields') :=
  congrArg Code.recordLiteral h

end Code.Same

variable {S : Spaces} {ns : NamespaceId} {compile : Scopes → Syntax → RunM Code}
  {scopes scopes' : Scopes}

/-- The forms are compiled to the same code, each in its scopes. -/
abbrev CompileAlike (S : Spaces) (compile : Scopes → Syntax → RunM Code) (scopes scopes' : Scopes)
    (stx stx' : Syntax) : Prop :=
  Simulates S Code.Same (compile scopes stx) (compile scopes' stx')

/-! ## References -/

/-- Both identifiers mean the same, or are local variables found at the same place of their
scopes. -/
def Refers (S : Spaces) (scopes scopes' : Scopes) (x x' : Syntax) : Prop :=
  x'.symbol? = x.symbol? ∧
    ((∀ v, S.resolve x ≠ some (.lexical v)) ∧ S.resolve x' = S.resolve x ∨
      ∃ v v', S.resolve x = some (.lexical v) ∧ S.resolve x' = some (.lexical v') ∧
        ∀ depth, scopes.findIdx? (· = some v.rib) = some depth →
          scopes'.findIdx? (· = some v'.rib) = some depth ∧ v'.slot = v.slot)

/-- What the identifiers denote: the same, or local variables at the same place. -/
theorem Refers.denoted {x x' : Syntax} (h : Refers S scopes scopes' x x') (name : String) :
    (∀ v, S.denoted x name ≠ .lexical v) ∧ S.denoted x' name = S.denoted x name ∨
      ∃ v v', S.denoted x name = .lexical v ∧ S.denoted x' name = .lexical v' ∧
        ∀ depth, scopes.findIdx? (· = some v.rib) = some depth →
          scopes'.findIdx? (· = some v'.rib) = some depth ∧ v'.slot = v.slot := by
  rcases h.2 with ⟨hlexical, hsame⟩ | ⟨v, v', hx, hx', hdepth⟩
  · refine .inl ⟨fun v hv => ?_, by rw [Spaces.denoted, Spaces.denoted, hsame]⟩
    rw [Spaces.denoted] at hv
    cases hbinding : S.resolve x with
    | none =>
        rw [hbinding] at hv
        cases hv
    | some binding =>
        rw [hbinding, Option.getD_some] at hv
        cases binding with
        | free y => cases hv
        | lexical v' => exact hlexical v' hbinding
        | cell c =>
            rw [Spaces.denote] at hv
            split at hv <;> cases hv
  · exact .inr ⟨v, v', by rw [Spaces.denoted, hx]; rfl, by rw [Spaces.denoted, hx']; rfl, hdepth⟩

theorem simulates_depthOf {v v' : LocalVar} {stx stx' : Syntax}
    (h : ∀ depth, scopes.findIdx? (· = some v.rib) = some depth →
      scopes'.findIdx? (· = some v'.rib) = some depth ∧ v'.slot = v.slot) :
    Simulates S (fun depth depth' => depth' = depth ∧ v'.slot = v.slot) (depthOf scopes v.rib stx)
      (depthOf scopes' v'.rib stx') := by
  rw [depthOf]
  split
  · next depth hdepth =>
    obtain ⟨hdepth', hslot⟩ := h depth hdepth
    rw [depthOf, hdepth']
    exact .pure ⟨rfl, hslot⟩
  · exact .fail _ _

theorem simulates_definitionRef (d : Definition) (name : String) :
    Simulates S Code.Same (definitionRef ns d name) (definitionRef ns d name) := by
  rw [definitionRef]
  split
  · exact .pure rfl
  · refine (Simulates.importId ns d).bind fun id id' hid => ?_
    subst hid
    exact .pure rfl

theorem simulates_reference {x x' : Syntax} (h : Refers S scopes scopes' x x') (name : String) :
    Simulates S Code.Same (reference ns scopes x name) (reference ns scopes' x' name) := by
  refine .getSpaces_bind fun w hw => ?_
  rw [hw.denoted_eq, hw.denoted_eq]
  rcases h.denoted name with ⟨hlexical, hsame⟩ | ⟨v, v', hx, hx', hdepth⟩
  · rw [hsame]
    split
    · split
      · split
        · exact .pure rfl
        · exact .fail _ _
      · exact .fail _ _
    · next v hv => exact absurd hv (hlexical v)
    · exact simulates_definitionRef _ name
    · exact simulates_definitionRef _ name
  · rw [hx, hx']
    refine (simulates_depthOf hdepth).bind fun depth depth' hplace => ?_
    rw [hplace.1, hplace.2]
    exact .pure rfl

/-! ## Parts of forms -/

theorem simulates_all {forms forms' : List Syntax}
    (h : List.Forall₂ (CompileAlike S compile scopes scopes') forms forms') :
    Simulates S (fun codes codes' => Code.erasedAll codes' = Code.erasedAll codes)
      (all compile scopes forms) (all compile scopes' forms') := by
  induction h with
  | nil => exact .pure rfl
  | cons hfirst _ ih =>
      refine hfirst.bind fun code code' hcode => ih.bind fun codes codes' hcodes =>
        .pure (congrArg₂ List.cons hcode hcodes)

theorem simulates_fields {forms forms' : List (String × Syntax)}
    (h : List.Forall₂ (fun field field' : String × Syntax => field'.1 = field.1 ∧
      CompileAlike S compile scopes scopes' field.2 field'.2) forms forms') :
    Simulates S (fun codes codes' => Code.erasedFields codes' = Code.erasedFields codes)
      (fields compile scopes forms) (fields compile scopes' forms') := by
  induction h with
  | nil => exact .pure rfl
  | cons hfirst _ ih =>
      refine hfirst.2.bind fun code code' hcode => ih.bind fun codes codes' hcodes => .pure ?_
      exact congrArg₂ List.cons (congrArg₂ Prod.mk hfirst.1 hcode) hcodes

theorem simulates_body {forms forms' : List Syntax}
    (h : List.Forall₂ (CompileAlike S compile scopes scopes') forms forms') :
    Simulates S Code.Same (body compile scopes forms) (body compile scopes' forms') := by
  have hall := simulates_all h
  rcases h with _ | ⟨hfirst, _ | _⟩
  · exact .pure rfl
  · exact hfirst
  · exact hall.bind fun codes codes' hcodes => .pure (.sequence hcodes)

theorem clauses_of_map {fault : SyntaxFault} {items : List Syntax} {pairs : List (Syntax × Syntax)}
    (h : items.map Syntax.subforms = pairs.map fun pair => [pair.1, pair.2]) :
    clauses fault items = pure pairs := by
  induction items generalizing pairs with
  | nil =>
      cases pairs with
      | nil => rfl
      | cons => cases h
  | cons clause rest ih =>
      cases pairs with
      | nil => cases h
      | cons pair others =>
          rw [List.map_cons, List.map_cons, List.cons.injEq] at h
          rw [clauses, h.1]
          simp only [ih h.2, pure_bind]

theorem simulates_pairs {items items' : List Syntax} {clauses clauses' : List (Syntax × Syntax)}
    (hitems : items.map Syntax.subforms = clauses.map fun pair => [pair.1, pair.2])
    (hitems' : items'.map Syntax.subforms = clauses'.map fun pair => [pair.1, pair.2])
    (h : List.Forall₂ (fun pair pair' : Syntax × Syntax =>
      CompileAlike S compile scopes scopes' pair.1 pair'.1 ∧
        CompileAlike S compile scopes scopes' pair.2 pair'.2) clauses clauses') :
    Simulates S (fun codes codes' => Code.erasedPairs codes' = Code.erasedPairs codes)
      (pairs compile scopes items) (pairs compile scopes' items') := by
  induction h generalizing items items' with
  | nil =>
      obtain rfl : items = [] := by simpa using hitems
      obtain rfl : items' = [] := by simpa using hitems'
      exact .pure rfl
  | cons hfirst _ ih =>
      rcases items with _ | ⟨clause, items⟩
      · cases hitems
      rcases items' with _ | ⟨clause', items'⟩
      · cases hitems'
      rw [List.map_cons, List.map_cons, List.cons.injEq] at hitems hitems'
      rw [pairs, pairs, hitems.1, hitems'.1]
      refine hfirst.1.bind fun code code' hcode => hfirst.2.bind fun value value' hvalue => ?_
      refine (ih hitems.2 hitems'.2).bind fun codes codes' hcodes => .pure ?_
      exact congrArg₂ List.cons (congrArg₂ Prod.mk hcode hvalue) hcodes

/-- The scope of a frame with the binders of a layer. -/
def Layer.scope (layer : Layer) : Option RibId :=
  if layer.binders = [] then none else some layer.rib

theorem Layer.Fits.enterScope {bound : RibId} {outer : List Layer} {layer : Layer}
    (h : layer.Fits S bound outer) {w : World} (hw : SameReads S w) (scopes : Scopes) :
    Compile.enterScope scopes layer.binders w = .ok (layer.scope :: scopes) w := by
  rw [Layer.scope]
  cases hbinders : layer.binders with
  | nil => rfl
  | cons first rest =>
      have hfirst : w.spaces.resolve first = some (.lexical ⟨first.symbol?.getD "", layer.rib, 0⟩) := by
        rw [Spaces.resolve_congr hw.cells,
          Spaces.resolve_of_binding_eq_none (h.unrecorded first (by simp [hbinders]))]
        exact h.resolves 0 first (by simp [hbinders])
      rw [Compile.enterScope, RunM.bind_apply, RunM.getSpaces_apply]
      simp only [hfirst]
      rfl

theorem simulates_enterScope {bound bound' : RibId} {outer outer' : List Layer}
    {layer layer' : Layer} (h : layer.Fits S bound outer) (h' : layer'.Fits S bound' outer') :
    Simulates S (fun inner inner' => inner = layer.scope :: scopes ∧ inner' = layer'.scope :: scopes')
      (enterScope scopes layer.binders) (enterScope scopes' layer'.binders) := by
  intro w w' hw hsame inner w₁ hrun
  have hw' : SameReads S w' := ⟨hsame ▸ hw.cells, fun ns address => hsame ▸ hw.values ns address⟩
  rw [h.enterScope hw] at hrun
  cases hrun
  exact ⟨_, w', h'.enterScope hw' scopes', ⟨rfl, rfl⟩, hw, hsame⟩

/-! ## Core forms -/

theorem Syntax.subforms_of_isClauses {stx : Syntax} {pairs : List (Syntax × Syntax)}
    (h : IsClauses stx pairs) :
    stx.subforms.map Syntax.subforms = pairs.map fun pair => [pair.1, pair.2] := by
  obtain ⟨items, hitems, hpairs⟩ := h
  rw [subforms_of_subforms? hitems, hpairs]

theorem IsFormals.binders {formals : Syntax} {binders : List Syntax} (h : IsFormals formals binders) :
    (if formals.isIdentifier then [formals] else formals.subforms) = binders := by
  rw [IsFormals] at h
  split
  · rw [if_pos ‹_›] at h
    exact Option.some.inj h
  · rw [if_neg ‹_›] at h
    exact Syntax.subforms_of_subforms? h

theorem simulates_lambda {stx stx' head head' formals formals' : Syntax} {body body' : List Syntax}
    {bound bound' : RibId} {outer outer' : List Layer} {layer layer' : Layer}
    (hformals : IsFormals formals layer.binders) (hformals' : IsFormals formals' layer'.binders)
    (hrest : formals'.isIdentifier = formals.isIdentifier)
    (hlength : layer'.binders.length = layer.binders.length)
    (hlayer : layer.Fits S bound outer) (hlayer' : layer'.Fits S bound' outer')
    (hbody : List.Forall₂
      (CompileAlike S compile (layer.scope :: scopes) (layer'.scope :: scopes')) body body')
    (name : Option String) :
    Simulates S Code.Same (Compile.lambda compile scopes stx (head :: formals :: body) name)
      (Compile.lambda compile scopes' stx' (head' :: formals' :: body') name) := by
  have hunfold (scopes : Scopes) (stx head formals : Syntax) (body : List Syntax) :
      Compile.lambda compile scopes stx (head :: formals :: body) name = (do
        let inner ← enterScope scopes
          (if formals.isIdentifier then [formals] else formals.subforms)
        let code ← Compile.body compile inner body
        return .lambda name (if formals.isIdentifier then 0 else
          (if formals.isIdentifier then [formals] else formals.subforms).length)
          formals.isIdentifier code) := rfl
  rw [hunfold, hunfold, hformals.binders, hformals'.binders, hrest, hlength]
  refine (simulates_enterScope hlayer hlayer').bind fun inner inner' hinner => ?_
  obtain ⟨rfl, rfl⟩ := hinner
  exact (simulates_body hbody).bind fun code code' hcode => .pure (.lambda _ _ _ hcode)

theorem simulates_binding {stx stx' head head' clauses clauses' : Syntax} {body body' : List Syntax}
    {pairs pairs' : List (Syntax × Syntax)} {bound bound' : RibId} {outer outer' : List Layer}
    {layer layer' : Layer} {recursive : Bool} (hclauses : IsClauses clauses pairs)
    (hclauses' : IsClauses clauses' pairs') (hbinders : layer.binders = pairs.map (·.1))
    (hbinders' : layer'.binders = pairs'.map (·.1)) (hlayer : layer.Fits S bound outer)
    (hlayer' : layer'.Fits S bound' outer')
    (hinits : List.Forall₂ (CompileAlike S compile
      (if recursive then layer.scope :: scopes else scopes)
      (if recursive then layer'.scope :: scopes' else scopes')) (pairs.map (·.2)) (pairs'.map (·.2)))
    (hbody : List.Forall₂
      (CompileAlike S compile (layer.scope :: scopes) (layer'.scope :: scopes')) body body') :
    Simulates S Code.Same (binding compile scopes stx (head :: clauses :: body) recursive)
      (binding compile scopes' stx' (head' :: clauses' :: body') recursive) := by
  have hunfold (scopes : Scopes) (stx head clauses : Syntax) (body : List Syntax) :
      binding compile scopes stx (head :: clauses :: body) recursive = (do
        let pairs ← Compile.clauses .bindingClause clauses.subforms
        if recursive then
          let inner ← enterScope scopes (pairs.map (·.1))
          let inits ← all compile inner (pairs.map (·.2))
          let code ← Compile.body compile inner body
          return .letrec inits code
        else
          let inits ← all compile scopes (pairs.map (·.2))
          let inner ← enterScope scopes (pairs.map (·.1))
          let code ← Compile.body compile inner body
          return .letIn inits code) := rfl
  rw [hunfold, hunfold, clauses_of_map (Syntax.subforms_of_isClauses hclauses),
    clauses_of_map (Syntax.subforms_of_isClauses hclauses'), pure_bind, pure_bind, ← hbinders,
    ← hbinders']
  -- A `letrec` enters its scope before it compiles the expressions, a `let` afterwards.
  cases recursive with
  | true =>
      refine (simulates_enterScope hlayer hlayer').bind fun inner inner' hinner => ?_
      obtain ⟨rfl, rfl⟩ := hinner
      refine (simulates_all hinits).bind fun codes codes' hcodes => ?_
      exact (simulates_body hbody).bind fun code code' hcode => .pure (.letrec hcodes hcode)
  | false =>
      refine (simulates_all hinits).bind fun codes codes' hcodes => ?_
      refine (simulates_enterScope hlayer hlayer').bind fun inner inner' hinner => ?_
      obtain ⟨rfl, rfl⟩ := hinner
      exact (simulates_body hbody).bind fun code code' hcode => .pure (.letIn hcodes hcode)

theorem simulates_assignment {stx stx' head head' target target' value value' : Syntax}
    (htarget : Refers S scopes scopes' target target')
    (hvalue : CompileAlike S compile scopes scopes' value value') :
    Simulates S Code.Same (assignment ns compile scopes stx [head, target, value])
      (assignment ns compile scopes' stx' [head', target', value']) := by
  refine hvalue.bind fun code code' hcode => ?_
  rw [htarget.1]
  split
  · exact .fail _ _
  · next name _ =>
    refine .getSpaces_bind fun w hw => ?_
    rw [hw.denoted_eq, hw.denoted_eq]
    rcases htarget.denoted name with ⟨hlexical, hsame⟩ | ⟨v, v', hx, hx', hdepth⟩
    · rw [hsame]
      split
      · next v hv => exact absurd hv (hlexical v)
      · split
        · exact .pure (.topSet _ hcode)
        · exact .fail _ _
      · exact .fail _ _
      · exact .fail _ _
    · rw [hx, hx']
      refine (simulates_depthOf hdepth).bind fun depth depth' hplace => ?_
      rw [hplace.1, hplace.2]
      exact .pure (.localSet _ _ hcode)

theorem simulates_conditional {stx stx' head head' : Syntax} {parts parts' : List Syntax}
    (hlength : parts.length = 3)
    (h : List.Forall₂ (CompileAlike S compile scopes scopes') parts parts') :
    Simulates S Code.Same (core ns compile scopes .ifForm stx (head :: parts))
      (core ns compile scopes' .ifForm stx' (head' :: parts')) := by
  obtain ⟨test, consequent, alternative, rfl⟩ := List.length_eq_three.1 hlength
  rcases h with _ | ⟨htest, _ | ⟨hconsequent, _ | ⟨halternative, _ | _⟩⟩⟩
  refine htest.bind fun code₁ code₁' h₁ => hconsequent.bind fun code₂ code₂' h₂ => ?_
  exact halternative.bind fun code₃ code₃' h₃ => .pure (.branch h₁ h₂ h₃)

theorem simulates_parameterize {stx stx' head head' clauses clauses' : Syntax}
    {body body' : List Syntax} {pairs pairs' : List (Syntax × Syntax)}
    (hclauses : IsClauses clauses pairs) (hclauses' : IsClauses clauses' pairs')
    (hpairs : List.Forall₂ (fun pair pair' : Syntax × Syntax =>
      CompileAlike S compile scopes scopes' pair.1 pair'.1 ∧
        CompileAlike S compile scopes scopes' pair.2 pair'.2) pairs pairs')
    (hbody : List.Forall₂ (CompileAlike S compile scopes scopes') body body') :
    Simulates S Code.Same (core ns compile scopes .parameterize stx (head :: clauses :: body))
      (core ns compile scopes' .parameterize stx' (head' :: clauses' :: body')) := by
  refine (simulates_pairs (Syntax.subforms_of_isClauses hclauses)
    (Syntax.subforms_of_isClauses hclauses') hpairs).bind fun codes codes' hcodes => ?_
  exact (simulates_body hbody).bind fun code code' hcode => .pure (.parameterize hcodes hcode)

/-! ## Forms -/

/-- A core form is compiled by the rule for it. -/
theorem simulates_core {fuel : Nat} {f : CoreForm} {stx stx' head head' : Syntax}
    {rest rest' : List Syntax} (hparts : stx.subforms? = some (head :: rest))
    (hparts' : stx'.subforms? = some (head' :: rest')) (hhead : headKind S head = .core f)
    (hhead' : headKind S head' = .core f)
    (h : Simulates S Code.Same (core ns (compileAt ns fuel) scopes f stx (head :: rest))
      (core ns (compileAt ns fuel) scopes' f stx' (head' :: rest'))) :
    Simulates S Code.Same (compileAt ns (fuel + 1) scopes stx) (compileAt ns (fuel + 1) scopes' stx') := by
  have hrule {w : World} (hw : SameReads S w) (scopes : Scopes) {stx head : Syntax}
      {rest : List Syntax} (hparts : stx.subforms? = some (head :: rest))
      (hhead : headKind S head = .core f) :
      compileAt ns (fuel + 1) scopes stx w =
        core ns (compileAt ns fuel) scopes f stx (head :: rest) w := by
    have hcore : coreForm? w.spaces head = some f :=
      (coreForm?_congr hw.cells hw.values head).trans (coreForm?_of_headKind hhead)
    match stx, hparts with
    | .group c .sexp items, hparts =>
        rw [compileAt, form, Syntax.subforms_of_subforms? hparts]
        simp only [RunM.bind_apply, RunM.getSpaces_apply, hcore]
  intro w w' hw hsame code w₁ hrun
  have hw' : SameReads S w' := ⟨hsame ▸ hw.cells, fun ns address => hsame ▸ hw.values ns address⟩
  rw [hrule hw scopes hparts hhead] at hrun
  rw [hrule hw' scopes' hparts' hhead']
  exact h hw hsame hrun

theorem simulates_application {fuel : Nat} {stx stx' operator operator' : Syntax}
    {operands operands' : List Syntax} (hparts : stx.subforms? = some (operator :: operands))
    (hparts' : stx'.subforms? = some (operator' :: operands'))
    (hoperator : headKind S operator = .variable) (hoperator' : headKind S operator' = .variable)
    (h : List.Forall₂ (CompileAlike S (compileAt ns fuel) scopes scopes') (operator :: operands)
      (operator' :: operands')) :
    Simulates S Code.Same (compileAt ns (fuel + 1) scopes stx) (compileAt ns (fuel + 1) scopes' stx') := by
  obtain _ | ⟨hfirst, hrest⟩ := h
  match stx, hparts, stx', hparts' with
  | .group c .sexp items, hparts, .group c' .sexp items', hparts' =>
      rw [compileAt, compileAt, form, form, Syntax.subforms_of_subforms? hparts,
        Syntax.subforms_of_subforms? hparts']
      refine .getSpaces_bind fun w hw => ?_
      rw [coreForm?_congr hw.cells hw.values, coreForm?_of_variable hoperator,
        coreForm?_congr hw.cells hw.values, coreForm?_of_variable hoperator']
      refine hfirst.bind fun code code' hcode => ?_
      exact (simulates_all hrest).bind fun codes codes' hcodes => .pure (.apply _ _ hcode hcodes)

theorem simulates_list {fuel : Nat} {stx stx' : Syntax} {elements elements' : List Syntax}
    (hparts : stx.elements? = some elements) (hparts' : stx'.elements? = some elements')
    (h : List.Forall₂ (CompileAlike S (compileAt ns fuel) scopes scopes') elements elements') :
    Simulates S Code.Same (compileAt ns (fuel + 1) scopes stx) (compileAt ns (fuel + 1) scopes' stx') := by
  match stx, hparts, stx', hparts' with
  | .group c .list items, hparts, .group c' .list items', hparts' =>
      rw [compileAt, compileAt, form, form, hparts, hparts', Option.getD_some, Option.getD_some]
      exact (simulates_all h).bind fun codes codes' hcodes => .pure (.listLiteral hcodes)

theorem simulates_record {fuel : Nat} {stx stx' : Syntax} {fields fields' : List (String × Syntax)}
    (hparts : stx.fields? = some fields) (hparts' : stx'.fields? = some fields')
    (h : List.Forall₂ (fun field field' : String × Syntax => field'.1 = field.1 ∧
      CompileAlike S (compileAt ns fuel) scopes scopes' field.2 field'.2) fields fields') :
    Simulates S Code.Same (compileAt ns (fuel + 1) scopes stx) (compileAt ns (fuel + 1) scopes' stx') := by
  match stx, hparts, stx', hparts' with
  | .record c raw, hparts, .record c' raw', hparts' =>
      rw [compileAt, compileAt, form, form, hparts, hparts', Option.getD_some, Option.getD_some]
      exact (simulates_fields h).bind fun codes codes' hcodes => .pure (.recordLiteral hcodes)

end HygienicLisp
