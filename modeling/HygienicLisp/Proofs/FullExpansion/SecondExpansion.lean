import HygienicLisp.Proofs.FullExpansion.Renewal
import Mathlib.Algebra.Order.BigOperators.Group.List
import Mathlib.Algebra.Order.Group.Nat

/-!
# The expansion of what has been expanded

Expanding a settled expression again invokes no transformer and draws nothing but ribs.  The proof
follows the expression: under the ribs that have been made for the layers around it (`Renews`), each
form is met as the core form or the application that it is, and its parts are expanded in turn.

What comes out is compiled as the expression is (`Renewed`).  Main statement: `Settled.renewable`.
-/

namespace HygienicLisp

open Expansion Compile

/-! ## Steps of expansion -/

section

variable {loader : Loader} {ns : NamespaceId} {fuel depth : Nat} {context : ExpandContext}
  {form e : Syntax} {w w' : World}

theorem expand_of_core {f : CoreForm} {head : Syntax} {rest : List Syntax}
    (hlimit : w.runtime.config.maxExpansionDepth = none)
    (hparts : form.subforms? = some (head :: rest)) (hhead : headKind w.spaces head = .core f)
    (h : core (expand loader ns (fuel + 1) (depth + 1)) loader ns f form (head :: rest) context w =
      .ok e w') :
    expand loader ns (fuel + 2) depth context form w = .ok e w' := by
  refine RunM.bind_eq_ok.2 ⟨_, w, descend_of_unlimited hlimit depth form, ?_⟩
  rw [if_pos (Syntax.isSexp_of_subforms? hparts), RunM.inContext, RunM.mapError_eq_ok, expandSexp,
    Syntax.subforms_of_subforms? hparts]
  refine RunM.bind_eq_ok.2 ⟨w.spaces, w, rfl, ?_⟩
  rw [headValue?_of_headKind hhead]
  exact h

theorem expand_of_application {operator : Syntax} {operands es : List Syntax}
    (hlimit : w.runtime.config.maxExpansionDepth = none)
    (hparts : form.subforms? = some (operator :: operands))
    (hoperator : headKind w.spaces operator = .variable)
    (h : expandEach (expand loader ns (fuel + 1) (depth + 1)) .expression (operator :: operands) w =
      .ok es w') :
    expand loader ns (fuel + 2) depth context form w = .ok (form.rebuildSexp es) w' := by
  refine RunM.bind_eq_ok.2 ⟨_, w, descend_of_unlimited hlimit depth form, ?_⟩
  rw [if_pos (Syntax.isSexp_of_subforms? hparts), RunM.inContext, RunM.mapError_eq_ok, expandSexp,
    Syntax.subforms_of_subforms? hparts]
  refine RunM.bind_eq_ok.2 ⟨w.spaces, w, rfl, ?_⟩
  rw [headKind] at hoperator
  cases hvalue : headValue? w.spaces operator with
  | none => exact RunM.bind_eq_ok.2 ⟨es, w', h, rfl⟩
  | some v =>
      cases v with
      | form f => simp [hvalue] at hoperator
      | transformer id procedureId p => simp [hvalue] at hoperator
      | _ => exact RunM.bind_eq_ok.2 ⟨es, w', h, rfl⟩

/-- A form that is no sexp. -/
theorem expand_of_plain (hlimit : w.runtime.config.maxExpansionDepth = none)
    (hform : form.isSexp = false)
    (h : expandPlain (expand loader ns fuel) (depth + 1) form w = .ok e w') :
    expand loader ns (fuel + 1) depth context form w = .ok e w' := by
  refine RunM.bind_eq_ok.2 ⟨_, w, descend_of_unlimited hlimit depth form, ?_⟩
  rw [if_neg (by simp [hform]), RunM.inContext, RunM.mapError_eq_ok]
  exact h

theorem expand_of_name (hlimit : w.runtime.config.maxExpansionDepth = none)
    (hform : form.isIdentifier) (hkind : headKind w.spaces form = .variable) :
    expand loader ns (fuel + 1) depth context form w = .ok form w := by
  match form, hform with
  | .atom c (.symbol name), _ =>
      refine expand_of_plain hlimit rfl (RunM.bind_eq_ok.2 ⟨w, w, rfl, ?_⟩)
      rw [headKind] at hkind
      cases hvalue : headValue? w.spaces (.atom c (.symbol name)) with
      | none => rfl
      | some v =>
          cases v with
          | form f => simp [hvalue] at hkind
          | transformer id procedureId p => simp [hvalue] at hkind
          | _ => rfl

end

/-! ## Weights -/

namespace Syntax

theorem weight_of_subforms? {stx : Syntax} {parts : List Syntax} (h : stx.subforms? = some parts) :
    stx.weight = 1 + (parts.map weight).sum := by
  match stx, h with
  | group c .sexp items, h =>
      cases h
      exact weight_group c .sexp items

theorem weight_of_elements? {stx : Syntax} {parts : List Syntax} (h : stx.elements? = some parts) :
    stx.weight = 1 + (parts.map weight).sum := by
  match stx, h with
  | group c .list items, h =>
      cases h
      exact weight_group c .list items

theorem weight_le_sum {parts : List Syntax} {part : Syntax} (h : part ∈ parts) :
    part.weight ≤ (parts.map weight).sum :=
  List.single_le_sum (fun _ _ => Nat.zero_le _) _ (List.mem_map_of_mem h)

theorem weight_of_isClauses {clauses : Syntax} {pairs : List (Syntax × Syntax)}
    (h : IsClauses clauses pairs) :
    clauses.weight = 1 + (pairs.map fun pair => 1 + (pair.1.weight + pair.2.weight)).sum := by
  obtain ⟨items, hitems, hpairs⟩ := h
  rw [weight_of_subforms? hitems]
  congr 1
  clear hitems
  induction items generalizing pairs with
  | nil =>
      obtain rfl : pairs = [] := by simpa using hpairs.symm
      rfl
  | cons clause rest ih =>
      cases pairs with
      | nil => cases hpairs
      | cons pair others =>
          rw [List.map_cons, List.map_cons, List.cons.injEq] at hpairs
          have hclause : clause.subforms? = some [pair.1, pair.2] := by
            have hsubforms := hpairs.1
            rw [subforms] at hsubforms
            cases hsome : clause.subforms? with
            | none => simp [hsome] at hsubforms
            | some parts => simpa [hsome] using hsubforms
          rw [List.map_cons, List.sum_cons, List.map_cons, List.sum_cons, ih hpairs.2,
            weight_of_subforms? hclause]
          simp

theorem weight_of_isFormals {formals : Syntax} {binders : List Syntax} (h : IsFormals formals binders) :
    formals.weight = (if formals.isIdentifier then 0 else 1) + (binders.map weight).sum := by
  rw [IsFormals] at h
  split
  · rw [if_pos ‹_›] at h
    cases h
    simp
  · rw [if_neg ‹_›] at h
    exact weight_of_subforms? h

end Syntax

/-! ## Renewed forms -/

/-- The world with another number for the next rib. -/
def World.atRib (w : World) (n : RibId) : World := { w with nextRib := n }

/-- A world in which expressions that are settled in `S` are expanded again, under the given ribs. -/
structure ReadyFor (S : Spaces) (bound : RibId) (ρ : List Rib) (w : World) : Prop where
  spaces : w.spaces = S
  unlimited : w.runtime.config.maxExpansionDepth = none
  bound : bound ≤ w.nextRib
  ribs : ∀ rib ∈ ρ, rib.id < w.nextRib

/-- What an expression has become under the new ribs: a form of the same size that is, if `K` holds,
compiled to the same code. -/
structure Renewed (S : Spaces) (K : Prop) (Δ : List Layer) (ρ : List Rib) (e e' : Syntax) : Prop where
  plain : headKind S e' = .variable
  weight : e'.weight = e.weight
  code : K → ∀ ns fuel,
    CompileAlike S (compileAt ns fuel) (Δ.map Layer.scope) (scopesOf ρ) e e'

/-- The expression is expanded under the new ribs, and no more is drawn than ribs. -/
def Renewable (S : Spaces) (bound : RibId) (K : Prop) (Δ : List Layer) (ρ : List Rib)
    (expand : Syntax → RunM Syntax) (e : Syntax) : Prop :=
  ∀ w, ReadyFor S bound ρ w → ∃ e' n, w.nextRib ≤ n ∧
    expand (e.inside ρ) w = .ok e' (w.atRib n) ∧ Renewed S K Δ ρ e e'

section

variable {S : Spaces} {bound : RibId} {K : Prop} {Δ : List Layer} {ρ : List Rib} {w : World}
  {expand : ExpandContext → Syntax → RunM Syntax} {loader : Loader} {ns : NamespaceId}
  {stx head : Syntax}

theorem ReadyFor.atRib (h : ReadyFor S bound ρ w) {n : RibId} (hn : w.nextRib ≤ n) :
    ReadyFor S bound ρ (w.atRib n) :=
  ⟨h.spaces, h.unlimited, h.bound.trans hn, fun rib hrib => (h.ribs rib hrib).trans_le hn⟩

theorem Renewed.sum_weight {es es' : List Syntax} (h : List.Forall₂ (Renewed S K Δ ρ) es es') :
    (es'.map Syntax.weight).sum = (es.map Syntax.weight).sum := by
  induction h with
  | nil => rfl
  | cons hfirst _ ih => rw [List.map_cons, List.map_cons, List.sum_cons, List.sum_cons, ih, hfirst.weight]

theorem Renewed.codes {es es' : List Syntax} (h : List.Forall₂ (Renewed S K Δ ρ) es es') (hK : K)
    (ns : NamespaceId) (fuel : Nat) : List.Forall₂
      (CompileAlike S (compileAt ns fuel) (Δ.map Layer.scope) (scopesOf ρ)) es es' :=
  h.imp fun _ _ hrenewed => hrenewed.code hK ns fuel

/-! ## Sequences -/

theorem renewable_expandEach {es : List Syntax}
    (h : ∀ e ∈ es, Renewable S bound K Δ ρ (expand .expression) e) (hw : ReadyFor S bound ρ w) :
    ∃ es' n, w.nextRib ≤ n ∧
      expandEach expand .expression (es.map (Syntax.inside ρ)) w = .ok es' (w.atRib n) ∧
      List.Forall₂ (Renewed S K Δ ρ) es es' := by
  induction es generalizing w with
  | nil => exact ⟨[], w.nextRib, le_rfl, rfl, .nil⟩
  | cons e rest ih =>
      obtain ⟨hfirst, hrest⟩ := List.forall_mem_cons.1 h
      obtain ⟨e', n₁, hn₁, hrun, hrenewed⟩ := hfirst w hw
      obtain ⟨rest', n₂, hn₂, hruns, hothers⟩ := ih hrest (hw.atRib hn₁)
      refine ⟨e' :: rest', n₂, hn₁.trans hn₂, ?_, .cons hrenewed hothers⟩
      exact RunM.bind_eq_ok.2 ⟨e', _, hrun, RunM.bind_eq_ok.2 ⟨rest', _, hruns, rfl⟩⟩

theorem renewable_expandFields {fields : List (String × Syntax)}
    (h : ∀ field ∈ fields, Renewable S bound K Δ ρ (expand .expression) field.2)
    (hw : ReadyFor S bound ρ w) :
    ∃ fields' n, w.nextRib ≤ n ∧
      expandFields expand (fields.map fun field => (field.1, field.2.inside ρ)) w =
        .ok fields' (w.atRib n) ∧
      List.Forall₂ (fun field field' : String × Syntax => field'.1 = field.1 ∧
        Renewed S K Δ ρ field.2 field'.2) fields fields' := by
  induction fields generalizing w with
  | nil => exact ⟨[], w.nextRib, le_rfl, rfl, .nil⟩
  | cons field rest ih =>
      obtain ⟨hfirst, hrest⟩ := List.forall_mem_cons.1 h
      obtain ⟨e', n₁, hn₁, hrun, hrenewed⟩ := hfirst w hw
      obtain ⟨rest', n₂, hn₂, hruns, hothers⟩ := ih hrest (hw.atRib hn₁)
      refine ⟨(field.1, e') :: rest', n₂, hn₁.trans hn₂, ?_, .cons ⟨rfl, hrenewed⟩ hothers⟩
      exact RunM.bind_eq_ok.2 ⟨e', _, hrun, RunM.bind_eq_ok.2 ⟨rest', _, hruns, rfl⟩⟩

theorem renewable_parameterClauses {items : List Syntax} {pairs : List (Syntax × Syntax)}
    (hitems : items.map Syntax.subforms = pairs.map fun pair => [pair.1, pair.2])
    (hfirsts : ∀ pair ∈ pairs, Renewable S bound K Δ ρ (expand .expression) pair.1)
    (hseconds : ∀ pair ∈ pairs, Renewable S bound K Δ ρ (expand .expression) pair.2)
    (hw : ReadyFor S bound ρ w) :
    ∃ items' pairs' n, w.nextRib ≤ n ∧
      parameterClauses expand (items.map (Syntax.inside ρ)) w = .ok items' (w.atRib n) ∧
      items'.map Syntax.subforms = pairs'.map (fun pair => [pair.1, pair.2]) ∧
      List.Forall₂ (fun pair pair' : Syntax × Syntax =>
        Renewed S K Δ ρ pair.1 pair'.1 ∧ Renewed S K Δ ρ pair.2 pair'.2) pairs pairs' := by
  induction items generalizing pairs w with
  | nil =>
      obtain rfl : pairs = [] := by simpa using hitems.symm
      exact ⟨[], [], w.nextRib, le_rfl, rfl, rfl, .nil⟩
  | cons clause rest ih =>
      cases pairs with
      | nil => cases hitems
      | cons pair others =>
          rw [List.map_cons, List.map_cons, List.cons.injEq] at hitems
          obtain ⟨hfirst, hfirsts⟩ := List.forall_mem_cons.1 hfirsts
          obtain ⟨hsecond, hseconds⟩ := List.forall_mem_cons.1 hseconds
          obtain ⟨e₁, n₁, hn₁, hrun₁, hrenewed₁⟩ := hfirst w hw
          obtain ⟨e₂, n₂, hn₂, hrun₂, hrenewed₂⟩ := hsecond _ (hw.atRib hn₁)
          obtain ⟨rest', pairs', n₃, hn₃, hruns, hpairs', hothers⟩ :=
            ih hitems.2 hfirsts hseconds (hw.atRib (hn₁.trans hn₂))
          refine ⟨(clause.inside ρ).rebuildSexp [e₁, e₂] :: rest', (e₁, e₂) :: pairs', n₃,
            hn₁.trans (hn₂.trans hn₃), ?_, ?_, .cons ⟨hrenewed₁, hrenewed₂⟩ hothers⟩
          · rw [List.map_cons, parameterClauses, Syntax.subforms_inside, hitems.1]
            refine RunM.bind_eq_ok.2 ⟨e₁, _, hrun₁, RunM.bind_eq_ok.2 ⟨e₂, _, hrun₂, ?_⟩⟩
            exact RunM.bind_eq_ok.2 ⟨rest', _, hruns, rfl⟩
          · rw [List.map_cons, List.map_cons, hpairs', Syntax.subforms_rebuildSexp]

/-! ## Ribs -/

/-- The second expansion of a binding form makes its new rib. -/
theorem renewable_newRib {layer : Layer} (h : Renews S bound Δ ρ) (hlayer : layer.Fits S bound Δ)
    (hw : ReadyFor S bound ρ w) {rib : Rib} (hrib : rib = ⟨w.nextRib, layer.binders.map S.binderKey⟩) :
    newRib (layer.binders.map (Syntax.inside ρ)) w = .ok rib (w.atRib (w.nextRib + 1)) ∧
      Renews S bound (layer :: Δ) (rib :: ρ) ∧
      ReadyFor S bound (rib :: ρ) (w.atRib (w.nextRib + 1)) := by
  subst hrib
  have hkeys : (layer.binders.map (Syntax.inside ρ)).map w.spaces.binderKey =
      layer.binders.map S.binderKey := by
    rw [List.map_map, hw.spaces]
    refine List.map_congr_left fun binder hbinder => ?_
    obtain ⟨name, hname⟩ := Option.isSome_iff_exists.1 (hlayer.identifier binder hbinder)
    obtain ⟨i, hi⟩ := List.getElem?_of_mem hbinder
    -- The variables of the layers further out are older than the rib of this one.
    have hsame : S.resolveWithMarks (binder.inside ρ) = S.resolveWithMarks binder := by
      refine h.resolveWithMarks_inside fun v hv other hother => ?_
      rw [hlayer.resolves i binder hi] at hv
      cases hv
      exact (hlayer.newer other hother).ne
    rw [Function.comp_apply, Spaces.binderKey_eq hname,
      Spaces.binderKey_eq (by rw [Syntax.symbol?_inside, hname]), hsame]
  have hnodup : (layer.binders.map S.binderKey).Nodup := by
    refine List.pairwise_iff_getElem.2 fun i j hi hj hij hsame => ?_
    rw [List.length_map] at hi hj
    have hslot := hlayer.binderKey (List.getElem?_eq_getElem hi)
    rw [List.getElem_map, List.getElem_map] at hsame
    rw [hsame, hlayer.binderKey (List.getElem?_eq_getElem hj)] at hslot
    injection hslot with hv
    injection hv with _ _ hslot
    exact hij.ne' hslot
  refine ⟨newRib_eq_ok.2 ⟨?_, ?_, hkeys ▸ hnodup, rfl⟩, .cons h hlayer rfl hw.bound hw.ribs, ?_⟩
  · intro binder hbinder
    obtain ⟨binder, hmem, rfl⟩ := List.mem_map.1 hbinder
    rw [Syntax.isIdentifier_inside]
    exact hlayer.identifier binder hmem
  · rw [hkeys]
  · refine ⟨hw.spaces, hw.unlimited, hw.bound.trans (Nat.le_succ _), ?_⟩
    refine List.forall_mem_cons.2 ⟨Nat.lt_succ_self _, fun other hother => ?_⟩
    exact (hw.ribs other hother).trans (Nat.lt_succ_self _)

/-! ## Core forms -/

/-- The expansion of a core form in the place of an expression. -/
abbrev coreAt (expand : ExpandContext → Syntax → RunM Syntax) (loader : Loader) (ns : NamespaceId)
    (f : CoreForm) (form : Syntax) : RunM Syntax :=
  core expand loader ns f form form.subforms .expression

theorem Renewable.of_core {fuel depth : Nat} {f : CoreForm} {rest : List Syntax}
    (hρ : Renews S bound Δ ρ) (hparts : stx.subforms? = some (head :: rest))
    (hhead : headKind S head = .core f) (hwraps : Meant S ρ head)
    (h : Renewable S bound K Δ ρ
      (coreAt (Expansion.expand loader ns (fuel + 1) (depth + 1)) loader ns f) stx) :
    Renewable S bound K Δ ρ (Expansion.expand loader ns (fuel + 2) depth .expression) stx := by
  intro w hw
  obtain ⟨e', n, hn, hrun, hrenewed⟩ := h w hw
  have hinside : (stx.inside ρ).subforms? = some (head.inside ρ :: rest.map (Syntax.inside ρ)) := by
    rw [Syntax.subforms?_inside, hparts, Option.map_some, List.map_cons]
  have hkind : headKind w.spaces (head.inside ρ) = .core f := by
    rw [hw.spaces, hρ.headKind_inside hwraps, hhead]
  refine ⟨e', n, hn, expand_of_core hw.unlimited hinside hkind ?_, hrenewed⟩
  rwa [coreAt, Syntax.subforms_of_subforms? hinside] at hrun

/-- What a core form has become is a core form with the same head. -/
theorem Renewed.of_core {f : CoreForm} {site : Syntax} {rest rest' : List Syntax}
    (hρ : Renews S bound Δ ρ) (hparts : stx.subforms? = some (head :: rest))
    (hhead : headKind S head = .core f) (hwraps : Meant S ρ head)
    (hweight : (rest'.map Syntax.weight).sum = (rest.map Syntax.weight).sum)
    (hcode : K → ∀ ns fuel, Simulates S Code.Same
      (Compile.core ns (compileAt ns fuel) (Δ.map Layer.scope) f stx (head :: rest))
      (Compile.core ns (compileAt ns fuel) (scopesOf ρ) f
        (site.rebuildSexp (head.inside ρ :: rest')) (head.inside ρ :: rest'))) :
    Renewed S K Δ ρ stx (site.rebuildSexp (head.inside ρ :: rest')) := by
  have hrebuilt := site.subforms?_rebuildSexp (head.inside ρ :: rest')
  refine ⟨headKind_of_not_identifier rfl, ?_, fun hK ns fuel => ?_⟩
  · rw [Syntax.weight_of_subforms? hparts, Syntax.weight_of_subforms? hrebuilt]
    simp [hweight]
  · cases fuel with
    | zero => exact .exhausted _
    | succ fuel =>
        exact simulates_core hparts hrebuilt hhead (by rw [hρ.headKind_inside hwraps, hhead])
          (hcode hK ns fuel)

theorem renewable_quotation {f : CoreForm} {datum : Syntax} (hρ : Renews S bound Δ ρ)
    (hf : f = .quote ∨ f = .quoteSyntax) (hparts : stx.subforms? = some [head, datum])
    (hhead : headKind S head = .core f) (hwraps : Meant S ρ head) :
    Renewable S bound K Δ ρ (coreAt expand loader ns f) stx := by
  intro w hw
  have hinside : (stx.inside ρ).subforms? = some [head.inside ρ, datum.inside ρ] := by
    rw [Syntax.subforms?_inside, hparts]
    rfl
  have hcount : expectCount (stx.inside ρ) (stx.inside ρ).subforms 2 .oneDatum w = .ok () w :=
    expectCount_eq_ok.2 ⟨by rw [Syntax.subforms_of_subforms? hinside]; rfl, rfl⟩
  refine ⟨stx.inside ρ, w.nextRib, le_rfl, ?_, ?_, Syntax.weight_inside ρ stx, fun _ ns fuel => ?_⟩
  · rcases hf with rfl | rfl
    · exact RunM.bind_eq_ok.2 ⟨(), w, hcount, rfl⟩
    · exact RunM.bind_eq_ok.2 ⟨(), w, hcount, rfl⟩
  · exact headKind_of_not_identifier (Syntax.isIdentifier_eq_false_of_subforms? hinside)
  · cases fuel with
    | zero => exact .exhausted _
    | succ fuel =>
        refine simulates_core hparts hinside hhead (by rw [hρ.headKind_inside hwraps, hhead]) ?_
        rcases hf with rfl | rfl
        · have hdatum : (datum.inside ρ).toDatum = datum.toDatum := Syntax.toDatum_addWraps _ datum
          exact (Simulates.stampValue (congrArg Value.erased hdatum)).bind fun v v' hv =>
            .pure (.constant hv)
        · have hconstant : Simulates S Code.Same
              (stampSyntax datum >>= fun stx => pure (.constant (.stx stx)))
              (stampSyntax (datum.inside ρ) >>= fun stx => pure (.constant (.stx stx))) :=
            (Simulates.stampSyntax datum (datum.inside ρ)).bind fun _ _ _ => .pure rfl
          exact hconstant

theorem renewable_conditional {parts : List Syntax} (hρ : Renews S bound Δ ρ)
    (hparts : stx.subforms? = some (head :: parts)) (hlength : parts.length = 3)
    (hhead : headKind S head = .core .ifForm) (hwraps : Meant S ρ head)
    (hall : ∀ part ∈ parts, Renewable S bound K Δ ρ (expand .expression) part) :
    Renewable S bound K Δ ρ (coreAt expand loader ns .ifForm) stx := by
  intro w hw
  obtain ⟨es, n, hn, hrun, hrenewed⟩ := renewable_expandEach hall hw
  refine ⟨_, n, hn, conditional_eq_ok.2 ⟨es, ?_, ?_, rfl⟩, ?_⟩
  · rw [Syntax.subforms_inside, Syntax.subforms_of_subforms? hparts]
    simp [hlength]
  · rw [Syntax.subforms_inside, Syntax.subforms_of_subforms? hparts, List.map_cons, List.drop_one,
      List.tail_cons]
    exact hrun
  · rw [Syntax.subforms_inside, Syntax.subforms_of_subforms? hparts]
    exact .of_core hρ hparts hhead hwraps (Renewed.sum_weight hrenewed) fun hK ns fuel =>
      simulates_conditional hlength (Renewed.codes hrenewed hK ns fuel)

theorem renewable_sequence {forms : List Syntax} (hρ : Renews S bound Δ ρ)
    (hparts : stx.subforms? = some (head :: forms)) (hhead : headKind S head = .core .begin)
    (hwraps : Meant S ρ head)
    (hall : ∀ part ∈ forms, Renewable S bound K Δ ρ (expand .expression) part) :
    Renewable S bound K Δ ρ (coreAt expand loader ns .begin) stx := by
  intro w hw
  obtain ⟨es, n, hn, hrun, hrenewed⟩ := renewable_expandEach hall hw
  refine ⟨_, n, hn, begin_eq_ok.2 ⟨es, ?_, rfl⟩, ?_⟩
  · rw [Syntax.subforms_inside, Syntax.subforms_of_subforms? hparts, List.map_cons, List.drop_one,
      List.tail_cons]
    exact hrun
  · rw [Syntax.subforms_inside, Syntax.subforms_of_subforms? hparts]
    exact .of_core hρ hparts hhead hwraps (Renewed.sum_weight hrenewed) fun hK ns fuel =>
      simulates_body (Renewed.codes hrenewed hK ns fuel)

/-- What the second expansion of a binding form has made: a layer whose scope is that of the new
rib. -/
theorem fits_renewed {layer : Layer} {rib : Rib} (hw : ReadyFor S bound ρ w)
    (hrib : newRib (layer.binders.map (Syntax.inside ρ)) w = .ok rib (w.atRib (w.nextRib + 1))) :
    Layer.Fits S (w.nextRib + 1) [] ⟨w.nextRib, renamed rib (layer.binders.map (Syntax.inside ρ))⟩ :=
  Layer.fits_of_newRib (congrArg Spaces.cells hw.spaces) hrib (List.forall_mem_nil _)
    le_rfl

theorem scopesOf_renewed {layer : Layer} {rib : Rib}
    (hkeys : rib.keys = layer.binders.map S.binderKey) :
    scopesOf (rib :: ρ) =
      Layer.scope ⟨rib.id, renamed rib (layer.binders.map (Syntax.inside ρ))⟩ :: scopesOf ρ := by
  have hscope : Layer.scope ⟨rib.id, renamed rib (layer.binders.map (Syntax.inside ρ))⟩ =
      scopeOf rib := by
    rw [Layer.scope, scopeOf, hkeys]
    simp [renamed]
  rw [hscope, scopesOf, scopesOf, List.map_cons]

theorem weight_renamed (rib : Rib) (forms : List Syntax) :
    ((renamed rib forms).map Syntax.weight).sum = (forms.map Syntax.weight).sum := by
  rw [renamed, List.map_map]
  refine congrArg List.sum (List.map_congr_left fun stx _ => ?_)
  exact Syntax.weight_inside [rib] stx

theorem weight_map_inside (forms : List Syntax) :
    ((forms.map (Syntax.inside ρ)).map Syntax.weight).sum = (forms.map Syntax.weight).sum := by
  rw [List.map_map]
  exact congrArg List.sum (List.map_congr_left fun stx _ => Syntax.weight_inside ρ stx)

theorem renewable_lambda {layer : Layer} {formals : Syntax} {body : List Syntax}
    (hρ : Renews S bound Δ ρ) (hparts : stx.subforms? = some (head :: formals :: body))
    (hhead : headKind S head = .core .lambda) (hwraps : Meant S ρ head)
    (hformals : IsFormals formals layer.binders) (hlayer : layer.Fits S bound Δ) (hbody : body ≠ [])
    (hall : ∀ rib, Renews S bound (layer :: Δ) (rib :: ρ) →
      ∀ part ∈ body, Renewable S bound K (layer :: Δ) (rib :: ρ) (expand .expression) part) :
    Renewable S bound K Δ ρ (coreAt expand loader ns .lambda) stx := by
  intro w hw
  -- The second expansion draws the next rib, and the body is expanded inside it.
  obtain ⟨rib, hribEq⟩ : ∃ rib : Rib, rib = ⟨w.nextRib, layer.binders.map S.binderKey⟩ := ⟨_, rfl⟩
  obtain ⟨hrib, hinner, hw₁⟩ := renewable_newRib hρ hlayer hw hribEq
  obtain ⟨es, n, hn, hrun, hrenewed⟩ := renewable_expandEach (hall rib hinner) hw₁
  obtain ⟨formals', hformalsEq⟩ : ∃ formals' : Syntax, formals' =
      if (formals.inside ρ).isIdentifier then (formals.inside ρ).addWrap (.rename rib)
      else (formals.inside ρ).rebuildSexp (renamed rib (layer.binders.map (Syntax.inside ρ))) := ⟨_, rfl⟩
  have hformals' : IsFormals formals' (renamed rib (layer.binders.map (Syntax.inside ρ))) := by
    rw [hformalsEq]
    exact isFormals_renamed (isFormals_inside hformals)
  -- Renaming keeps the difference between a rest list and a list of parameters.
  have hid : formals'.isIdentifier = formals.isIdentifier := by
    rw [hformalsEq, Syntax.isIdentifier_inside]
    split <;> simp [*]
  refine ⟨(stx.inside ρ).rebuildSexp (head.inside ρ :: formals' :: es), n, (Nat.le_succ _).trans hn,
    lambda_eq_ok.2 ⟨head.inside ρ, formals.inside ρ, body.map (Syntax.inside ρ),
      layer.binders.map (Syntax.inside ρ), rib, _, es, ?_, ?_, isFormals_inside hformals, hrib, ?_, ?_⟩,
    .of_core hρ hparts hhead hwraps ?_ fun hK ns fuel => ?_⟩
  · rw [Syntax.subforms_inside, Syntax.subforms_of_subforms? hparts, List.map_cons, List.map_cons]
  · simpa using hbody
  · rw [Syntax.renamed_map_inside]
    exact hrun
  · rw [hformalsEq]
  · rw [List.map_cons, List.sum_cons, List.map_cons, List.sum_cons, Renewed.sum_weight hrenewed,
      Syntax.weight_of_isFormals hformals', Syntax.weight_of_isFormals hformals, hid, weight_renamed,
      weight_map_inside]
  · have hcodes := Renewed.codes hrenewed hK ns fuel
    rw [scopesOf_renewed (congrArg Rib.keys hribEq), List.map_cons, congrArg Rib.id hribEq] at hcodes
    exact simulates_lambda hformals hformals' hid (by simp [renamed]) hlayer (fits_renewed hw hrib)
      hcodes none

theorem map_fst_inside (pairs : List (Syntax × Syntax)) :
    (pairs.map fun pair => (pair.1.inside ρ, pair.2.inside ρ)).map (·.1) =
      (pairs.map (·.1)).map (Syntax.inside ρ) := by
  rw [List.map_map, List.map_map]
  rfl

theorem map_snd_inside (pairs : List (Syntax × Syntax)) :
    (pairs.map fun pair => (pair.1.inside ρ, pair.2.inside ρ)).map (·.2) =
      (pairs.map (·.2)).map (Syntax.inside ρ) := by
  rw [List.map_map, List.map_map]
  rfl

theorem isIdentifier_of_fits {layer : Layer} {pairs : List (Syntax × Syntax)}
    (hlayer : layer.Fits S bound Δ) (hbinders : layer.binders = pairs.map (·.1)) :
    ∀ pair ∈ pairs.map fun pair => (pair.1.inside ρ, pair.2.inside ρ), pair.1.isIdentifier := by
  refine List.forall_mem_map.2 fun pair hpair => ?_
  rw [Syntax.isIdentifier_inside]
  exact hlayer.identifier pair.1 (hbinders ▸ List.mem_map_of_mem hpair)

/-- Clauses with binders and expressions of the same size have the same size. -/
theorem weight_clauses {clauses clauses' : Syntax} {pairs pairs' : List (Syntax × Syntax)}
    (hclauses : IsClauses clauses pairs) (hclauses' : IsClauses clauses' pairs')
    (hlength : pairs'.length = pairs.length)
    (hfirsts : ((pairs'.map (·.1)).map Syntax.weight).sum = ((pairs.map (·.1)).map Syntax.weight).sum)
    (hseconds : ((pairs'.map (·.2)).map Syntax.weight).sum =
      ((pairs.map (·.2)).map Syntax.weight).sum) :
    clauses'.weight = clauses.weight := by
  have hsum (pairs : List (Syntax × Syntax)) :
      (pairs.map fun pair => 1 + (pair.1.weight + pair.2.weight)).sum =
        pairs.length + (((pairs.map (·.1)).map Syntax.weight).sum +
          ((pairs.map (·.2)).map Syntax.weight).sum) := by
    induction pairs with
    | nil => rfl
    | cons pair rest ih =>
        simp only [List.map_cons, List.sum_cons, List.length_cons] at ih ⊢
        omega
  rw [Syntax.weight_of_isClauses hclauses', Syntax.weight_of_isClauses hclauses, hsum, hsum, hfirsts,
    hseconds, hlength]

/-- What a `let` or `letrec` has become.  The expressions of a `letrec` are inside its rib. -/
theorem renewed_binding {layer : Layer} {rib : Rib} {f : CoreForm} {recursive : Bool}
    {clauses : Syntax} {body inits es : List Syntax} {pairs : List (Syntax × Syntax)}
    (hf : f = if recursive then .letrec else .letForm) (hρ : Renews S bound Δ ρ)
    (hparts : stx.subforms? = some (head :: clauses :: body)) (hhead : headKind S head = .core f)
    (hwraps : Meant S ρ head) (hclauses : IsClauses clauses pairs)
    (hbinders : layer.binders = pairs.map (·.1)) (hlayer : layer.Fits S bound Δ)
    (hw : ReadyFor S bound ρ w) (hribEq : rib = ⟨w.nextRib, layer.binders.map S.binderKey⟩)
    (hrib : newRib (layer.binders.map (Syntax.inside ρ)) w = .ok rib (w.atRib (w.nextRib + 1)))
    (hinits : List.Forall₂ (Renewed S K (if recursive then layer :: Δ else Δ)
      (if recursive then rib :: ρ else ρ)) (pairs.map (·.2)) inits)
    (hbody : List.Forall₂ (Renewed S K (layer :: Δ) (rib :: ρ)) body es) :
    Renewed S K Δ ρ stx ((stx.inside ρ).rebuildSexp (head.inside ρ ::
      rebuildClauses (clauses.inside ρ) (renamed rib (layer.binders.map (Syntax.inside ρ))) inits ::
        es)) := by
  have hlength : inits.length = pairs.length := by simpa using hinits.length_eq.symm
  have hfirsts : ((renamed rib (layer.binders.map (Syntax.inside ρ))).zip inits).map (·.1) =
      renamed rib (layer.binders.map (Syntax.inside ρ)) :=
    List.map_fst_zip (by simp [renamed, hbinders, hlength])
  have hseconds : ((renamed rib (layer.binders.map (Syntax.inside ρ))).zip inits).map (·.2) = inits :=
    List.map_snd_zip (by simp [renamed, hbinders, hlength])
  have hclauses' := isClauses_rebuildClauses (clauses.inside ρ)
    (renamed rib (layer.binders.map (Syntax.inside ρ))) inits
  refine .of_core hρ hparts hhead hwraps ?_ fun hK ns fuel => ?_
  · rw [List.map_cons, List.sum_cons, List.map_cons, List.sum_cons, Renewed.sum_weight hbody]
    congr 1
    refine weight_clauses hclauses hclauses' ?_ ?_ ?_
    · simp [renamed, hbinders, hlength]
    · rw [hfirsts, weight_renamed, weight_map_inside, hbinders]
    · rw [hseconds, Renewed.sum_weight hinits]
  -- Both codes are compiled inside one more scope, which has the same place in both chains.
  · have hscopes := @scopesOf_renewed S ρ layer rib (congrArg Rib.keys hribEq)
    rw [congrArg Rib.id hribEq] at hscopes
    have hcodes := Renewed.codes hbody hK ns fuel
    rw [hscopes, List.map_cons] at hcodes
    have hinitCodes := Renewed.codes hinits hK ns fuel
    have hbinding := @simulates_binding S (compileAt ns fuel) (Δ.map Layer.scope) (scopesOf ρ) stx
      ((stx.inside ρ).rebuildSexp (head.inside ρ ::
        rebuildClauses (clauses.inside ρ) (renamed rib (layer.binders.map (Syntax.inside ρ))) inits ::
          es)) head (head.inside ρ) clauses _ body es pairs _ bound _ Δ [] layer _ recursive hclauses
      hclauses' hbinders hfirsts.symm hlayer (fits_renewed hw hrib)
    rw [hseconds] at hbinding
    cases recursive with
    | true =>
        subst hf
        rw [if_pos rfl, if_pos rfl, hscopes, List.map_cons] at hinitCodes
        exact hbinding hinitCodes hcodes
    | false =>
        subst hf
        exact hbinding hinitCodes hcodes

theorem renewable_letForm {layer : Layer} {clauses : Syntax} {body : List Syntax}
    {pairs : List (Syntax × Syntax)} (hρ : Renews S bound Δ ρ)
    (hparts : stx.subforms? = some (head :: clauses :: body))
    (hhead : headKind S head = .core .letForm) (hwraps : Meant S ρ head)
    (hclauses : IsClauses clauses pairs) (hbinders : layer.binders = pairs.map (·.1))
    (hlayer : layer.Fits S bound Δ) (hbody : body ≠ [])
    (hinits : ∀ pair ∈ pairs, Renewable S bound K Δ ρ (expand .expression) pair.2)
    (hall : ∀ rib, Renews S bound (layer :: Δ) (rib :: ρ) →
      ∀ part ∈ body, Renewable S bound K (layer :: Δ) (rib :: ρ) (expand .expression) part) :
    Renewable S bound K Δ ρ (coreAt expand loader ns .letForm) stx := by
  intro w hw
  -- The expressions of the clauses come first, outside of the new rib.
  obtain ⟨inits, n₁, hn₁, hruns, hrenewedInits⟩ :=
    renewable_expandEach (List.forall_mem_map.2 hinits) hw
  have hw₁ := hw.atRib hn₁
  obtain ⟨rib, hribEq⟩ : ∃ rib : Rib, rib = ⟨n₁, layer.binders.map S.binderKey⟩ := ⟨_, rfl⟩
  obtain ⟨hrib, hinner, hw₂⟩ := renewable_newRib hρ hlayer hw₁ hribEq
  obtain ⟨es, n, hn, hrun, hrenewed⟩ := renewable_expandEach (hall rib hinner) hw₂
  have hids : ∀ pair ∈ pairs.map fun pair => (pair.1.inside ρ, pair.2.inside ρ),
      pair.1.isIdentifier := isIdentifier_of_fits hlayer hbinders
  refine ⟨_, n, hn₁.trans ((Nat.le_succ _).trans hn), ?_,
    @renewed_binding S bound K Δ ρ _ stx head layer rib .letForm false clauses body inits es pairs rfl
      hρ hparts hhead hwraps hclauses hbinders hlayer hw₁ hribEq hrib hrenewedInits hrenewed⟩
  rw [coreAt, Syntax.subforms_inside, Syntax.subforms_of_subforms? hparts]
  refine (letForm_eq_ok ?_).2 ⟨_, inits, w.atRib n₁, rib, w.atRib (n₁ + 1), es, by simpa using hbody,
    isClauses_inside hclauses, hids, ?_, ?_, ?_, ?_⟩
  · obtain ⟨items, hitems, -⟩ := hclauses
    rw [Syntax.isIdentifier_inside]
    exact Syntax.isIdentifier_eq_false_of_subforms? hitems
  · rw [map_snd_inside]
    exact hruns
  · rw [map_fst_inside, ← hbinders]
    exact hrib
  · rw [Syntax.renamed_map_inside]
    exact hrun
  · rw [map_fst_inside, ← hbinders]

theorem renewable_letrec {layer : Layer} {clauses : Syntax} {body : List Syntax}
    {pairs : List (Syntax × Syntax)} (hρ : Renews S bound Δ ρ)
    (hparts : stx.subforms? = some (head :: clauses :: body))
    (hhead : headKind S head = .core .letrec) (hwraps : Meant S ρ head)
    (hclauses : IsClauses clauses pairs) (hbinders : layer.binders = pairs.map (·.1))
    (hlayer : layer.Fits S bound Δ) (hbody : body ≠ [])
    (hinits : ∀ rib, Renews S bound (layer :: Δ) (rib :: ρ) →
      ∀ pair ∈ pairs, Renewable S bound K (layer :: Δ) (rib :: ρ) (expand .expression) pair.2)
    (hall : ∀ rib, Renews S bound (layer :: Δ) (rib :: ρ) →
      ∀ part ∈ body, Renewable S bound K (layer :: Δ) (rib :: ρ) (expand .expression) part) :
    Renewable S bound K Δ ρ (coreAt expand loader ns .letrec) stx := by
  intro w hw
  obtain ⟨rib, hribEq⟩ : ∃ rib : Rib, rib = ⟨w.nextRib, layer.binders.map S.binderKey⟩ := ⟨_, rfl⟩
  obtain ⟨hrib, hinner, hw₁⟩ := renewable_newRib hρ hlayer hw hribEq
  obtain ⟨inits, n₁, hn₁, hruns, hrenewedInits⟩ :=
    renewable_expandEach (List.forall_mem_map.2 (hinits rib hinner)) hw₁
  obtain ⟨es, n, hn, hrun, hrenewed⟩ := renewable_expandEach (hall rib hinner) (hw₁.atRib hn₁)
  have hids : ∀ pair ∈ pairs.map fun pair => (pair.1.inside ρ, pair.2.inside ρ),
      pair.1.isIdentifier := isIdentifier_of_fits hlayer hbinders
  refine ⟨_, n, (Nat.le_succ _).trans (hn₁.trans hn), ?_,
    @renewed_binding S bound K Δ ρ _ stx head layer rib .letrec true clauses body inits es pairs rfl
      hρ hparts hhead hwraps hclauses hbinders hlayer hw hribEq hrib hrenewedInits hrenewed⟩
  rw [coreAt, Syntax.subforms_inside, Syntax.subforms_of_subforms? hparts]
  refine letrec_eq_ok.2 ⟨_, _, _, _, rib, w.atRib (w.nextRib + 1), inits, w.atRib n₁, es, rfl,
    by simpa using hbody, isClauses_inside hclauses, hids, ?_, ?_, ?_, ?_⟩
  · rw [map_fst_inside, ← hbinders]
    exact hrib
  · rw [map_snd_inside, Syntax.renamed_map_inside]
    exact hruns
  · rw [Syntax.renamed_map_inside]
    exact hrun
  · rw [map_fst_inside, ← hbinders]

theorem renewable_assignment {target value : Syntax} (hρ : Renews S bound Δ ρ)
    (hparts : stx.subforms? = some [head, target, value]) (hhead : headKind S head = .core .set)
    (hwraps : Meant S ρ head) (htarget : target.isIdentifier)
    (hrefers : K → Refers S (Δ.map Layer.scope) (scopesOf ρ) target (target.inside ρ))
    (hvalue : Renewable S bound K Δ ρ (expand .expression) value) :
    Renewable S bound K Δ ρ (coreAt expand loader ns .set) stx := by
  intro w hw
  obtain ⟨e, n, hn, hrun, hrenewed⟩ := hvalue w hw
  refine ⟨_, n, hn, assignment_eq_ok.2 ⟨head.inside ρ, target.inside ρ, value.inside ρ, e, ?_, ?_, hrun,
    rfl⟩, .of_core hρ hparts hhead hwraps ?_ fun hK ns fuel => ?_⟩
  · rw [Syntax.subforms_inside, Syntax.subforms_of_subforms? hparts]
    rfl
  · rw [Syntax.isIdentifier_inside]
    exact htarget
  · simp [hrenewed.weight]
  · exact simulates_assignment (hrefers hK) (hrenewed.code hK ns fuel)

theorem renewable_parameterize {clauses : Syntax} {body : List Syntax}
    {pairs : List (Syntax × Syntax)} (hρ : Renews S bound Δ ρ)
    (hparts : stx.subforms? = some (head :: clauses :: body))
    (hhead : headKind S head = .core .parameterize)
    (hwraps : Meant S ρ head) (hclauses : IsClauses clauses pairs)
    (hbody : body ≠ []) (hfirsts : ∀ pair ∈ pairs, Renewable S bound K Δ ρ (expand .expression) pair.1)
    (hseconds : ∀ pair ∈ pairs, Renewable S bound K Δ ρ (expand .expression) pair.2)
    (hall : ∀ part ∈ body, Renewable S bound K Δ ρ (expand .expression) part) :
    Renewable S bound K Δ ρ (coreAt expand loader ns .parameterize) stx := by
  intro w hw
  obtain ⟨items, hitems, hpairs⟩ := id hclauses
  obtain ⟨items', pairs', n₁, hn₁, hruns, hpairs', hrenewedPairs⟩ :=
    renewable_parameterClauses hpairs hfirsts hseconds hw
  obtain ⟨es, n, hn, hrun, hrenewed⟩ := renewable_expandEach hall (hw.atRib hn₁)
  have hclauses' : IsClauses ((clauses.inside ρ).rebuildSexp items') pairs' :=
    ⟨items', Syntax.subforms?_rebuildSexp _ _, hpairs'⟩
  refine ⟨_, n, hn₁.trans hn, parameterize_eq_ok.2 ⟨head.inside ρ, clauses.inside ρ,
    body.map (Syntax.inside ρ), items.map (Syntax.inside ρ), items', w.atRib n₁, es, ?_,
    by simpa using hbody, ?_, hruns, hrun, rfl⟩,
    .of_core hρ hparts hhead hwraps ?_ fun hK ns fuel => ?_⟩
  · rw [Syntax.subforms_inside, Syntax.subforms_of_subforms? hparts]
    rfl
  · rw [Syntax.subforms?_inside, hitems, Option.map_some]
  · rw [List.map_cons, List.sum_cons, List.map_cons, List.sum_cons, Renewed.sum_weight hrenewed]
    congr 1
    refine weight_clauses hclauses hclauses' hrenewedPairs.length_eq.symm ?_ ?_
    · exact Renewed.sum_weight (List.forall₂_map_left_iff.2 (List.forall₂_map_right_iff.2
        (hrenewedPairs.imp fun _ _ h => h.1)))
    · exact Renewed.sum_weight (List.forall₂_map_left_iff.2 (List.forall₂_map_right_iff.2
        (hrenewedPairs.imp fun _ _ h => h.2)))
  · refine simulates_parameterize hclauses hclauses' ?_ (Renewed.codes hrenewed hK ns fuel)
    exact hrenewedPairs.imp fun _ _ h => ⟨h.1.code hK ns fuel, h.2.code hK ns fuel⟩

/-! ## Other forms -/

theorem renewable_name {fuel depth : Nat} {x : Syntax} (hρ : Renews S bound Δ ρ)
    (hx : x.isIdentifier) (hkind : headKind S x = .variable)
    (hwraps : Meant S ρ x)
    (hrefers : K → Refers S (Δ.map Layer.scope) (scopesOf ρ) x (x.inside ρ)) :
    Renewable S bound K Δ ρ (Expansion.expand loader ns (fuel + 1) depth .expression) x := by
  intro w hw
  have hinside : headKind S (x.inside ρ) = .variable := by rw [hρ.headKind_inside hwraps, hkind]
  have hid : (x.inside ρ).isIdentifier := by rwa [Syntax.isIdentifier_inside]
  refine ⟨x.inside ρ, w.nextRib, le_rfl, expand_of_name hw.unlimited hid (hw.spaces ▸ hinside), hinside,
    Syntax.weight_inside ρ x, fun hK ns fuel => ?_⟩
  cases fuel with
  | zero => exact .exhausted _
  | succ fuel =>
      have hcompile {stx : Syntax} {name : String} (hname : stx.symbol? = some name)
          (scopes : Scopes) : compileAt ns (fuel + 1) scopes stx = reference ns scopes stx name := by
        match stx, hname with
        | .atom c (.symbol _), rfl => rfl
      obtain ⟨name, hname⟩ := Option.isSome_iff_exists.1 hx
      have hname' : (x.inside ρ).symbol? = some name := by rw [Syntax.symbol?_inside, hname]
      rw [CompileAlike, hcompile hname, hcompile hname']
      exact simulates_reference (hrefers hK) name

theorem renewable_datum {fuel depth : Nat} {c : Context} {a : Atom}
    (hdata : (Syntax.atom c a).isIdentifier = false) :
    Renewable S bound K Δ ρ (Expansion.expand loader ns (fuel + 1) depth .expression) (.atom c a) := by
  intro w hw
  obtain ⟨c', hinside⟩ : ∃ c', (Syntax.atom c a).inside ρ = .atom c' a := by
    induction ρ with
    | nil => exact ⟨c, rfl⟩
    | cons rib ρ ih =>
        obtain ⟨c', hc'⟩ := ih ⟨hw.spaces, hw.unlimited, hw.bound,
          fun other hother => hw.ribs other (List.mem_cons_of_mem _ hother)⟩
        exact ⟨_, by rw [Syntax.inside_cons, hc']; rfl⟩
  rw [hinside]
  cases a with
  | symbol name => cases hdata
  | null | bool | int | float | str =>
      refine ⟨_, w.nextRib, le_rfl, expand_of_plain hw.unlimited rfl rfl,
        headKind_of_not_identifier rfl, rfl, fun hK ns fuel => ?_⟩
      cases fuel with
      | zero => exact .exhausted _
      | succ fuel => exact .pure rfl

theorem renewable_list {fuel depth : Nat} {elements : List Syntax}
    (hparts : stx.elements? = some elements)
    (hall : ∀ part ∈ elements, Renewable S bound K Δ ρ
      (Expansion.expand loader ns fuel (depth + 1) .expression) part) :
    Renewable S bound K Δ ρ (Expansion.expand loader ns (fuel + 1) depth .expression) stx := by
  intro w hw
  obtain ⟨es, n, hn, hrun, hrenewed⟩ := renewable_expandEach hall hw
  have hinside : (stx.inside ρ).elements? = some (elements.map (Syntax.inside ρ)) := by
    rw [Syntax.elements?_inside, hparts, Option.map_some]
  have hrebuilt := (stx.inside ρ).elements?_rebuildList es
  refine ⟨(stx.inside ρ).rebuildList es, n, hn, ?_, headKind_of_not_identifier rfl, ?_,
    fun hK ns fuel => ?_⟩
  · match stx.inside ρ, hinside with
    | .group c .list items, hinside =>
        refine expand_of_plain hw.unlimited rfl (RunM.bind_eq_ok.2 ⟨es, _, ?_, rfl⟩)
        rw [hinside, Option.getD_some]
        exact hrun
  · rw [Syntax.weight_of_elements? hparts, Syntax.weight_of_elements? hrebuilt,
      Renewed.sum_weight hrenewed]
  · cases fuel with
    | zero => exact .exhausted _
    | succ fuel => exact simulates_list hparts hrebuilt (Renewed.codes hrenewed hK ns fuel)

theorem renewable_record {fuel depth : Nat} {fields : List (String × Syntax)}
    (hparts : stx.fields? = some fields)
    (hall : ∀ field ∈ fields, Renewable S bound K Δ ρ
      (Expansion.expand loader ns fuel (depth + 1) .expression) field.2) :
    Renewable S bound K Δ ρ (Expansion.expand loader ns (fuel + 1) depth .expression) stx := by
  intro w hw
  obtain ⟨es, n, hn, hrun, hrenewed⟩ := renewable_expandFields hall hw
  have hinside : (stx.inside ρ).fields? =
      some (fields.map fun field => (field.1, field.2.inside ρ)) := by
    rw [Syntax.fields?_inside, hparts, Option.map_some]
  have hrebuilt := (stx.inside ρ).fields?_rebuildRecord es
  refine ⟨(stx.inside ρ).rebuildRecord es, n, hn, ?_, headKind_of_not_identifier rfl, ?_,
    fun hK ns fuel => ?_⟩
  · match stx.inside ρ, hinside with
    | .record c raw, hinside =>
        refine expand_of_plain hw.unlimited rfl (RunM.bind_eq_ok.2 ⟨es, _, ?_, rfl⟩)
        rw [hinside, Option.getD_some]
        exact hrun
  · rw [Syntax.weight_of_fields? hparts, Syntax.weight_of_fields? hrebuilt]
    congr 2
    exact List.forall₂_eq_eq_eq ▸ List.forall₂_map_left_iff.2 (List.forall₂_map_right_iff.2
      (hrenewed.flip.imp fun _ _ h => h.2.weight))
  · cases fuel with
    | zero => exact .exhausted _
    | succ fuel =>
        refine simulates_record hparts hrebuilt (hrenewed.imp fun _ _ h => ⟨h.1, ?_⟩)
        exact h.2.code hK ns fuel

theorem renewable_application {fuel depth : Nat} {operator : Syntax} {operands : List Syntax}
    (hρ : Renews S bound Δ ρ) (hparts : stx.subforms? = some (operator :: operands))
    (hoperator : headKind S operator = .variable)
    (hwraps : Meant S ρ operator)
    (hall : ∀ part ∈ operator :: operands, Renewable S bound K Δ ρ
      (Expansion.expand loader ns (fuel + 1) (depth + 1) .expression) part) :
    Renewable S bound K Δ ρ (Expansion.expand loader ns (fuel + 2) depth .expression) stx := by
  intro w hw
  obtain ⟨es, n, hn, hrun, hrenewed⟩ := renewable_expandEach hall hw
  have hinside : (stx.inside ρ).subforms? =
      some (operator.inside ρ :: operands.map (Syntax.inside ρ)) := by
    rw [Syntax.subforms?_inside, hparts, Option.map_some, List.map_cons]
  have hkind : headKind w.spaces (operator.inside ρ) = .variable := by
    rw [hw.spaces, hρ.headKind_inside hwraps, hoperator]
  have hrebuilt := (stx.inside ρ).subforms?_rebuildSexp es
  refine ⟨(stx.inside ρ).rebuildSexp es, n, hn, ?_, headKind_of_not_identifier rfl, ?_,
    fun hK ns fuel => ?_⟩
  · exact expand_of_application hw.unlimited hinside hkind hrun
  · rw [Syntax.weight_of_subforms? hparts, Syntax.weight_of_subforms? hrebuilt,
      Renewed.sum_weight hrenewed]
  · cases fuel with
    | zero => exact .exhausted _
    | succ fuel =>
        have hcodes := Renewed.codes hrenewed hK ns fuel
        obtain _ | ⟨hfirst, hrest⟩ := hrenewed
        exact simulates_application hparts hrebuilt hoperator hfirst.plain hcodes

end

/-! ## Settled expressions -/

/-- The parts of a binding form that are put under its rib: the body, and with `letrec` also what the
variables are bound to. -/
inductive Syntax.Encloses (S : Spaces) (form part : Syntax) : Prop
  | body {f : CoreForm} {head binders : Syntax} {body : List Syntax}
      (hparts : form.subforms? = some (head :: binders :: body)) (hhead : headKind S head = .core f)
      (hf : f = .lambda ∨ f = .letForm ∨ f = .letrec) (hpart : part ∈ body)
  | init {head clauses : Syntax} {body : List Syntax} {pairs : List (Syntax × Syntax)}
      {pair : Syntax × Syntax} (hparts : form.subforms? = some (head :: clauses :: body))
      (hhead : headKind S head = .core .letrec) (hclauses : IsClauses clauses pairs)
      (hpair : pair ∈ pairs) (hpart : pair.2 = part)

/-- Under the ribs of the binding forms in the expression every identifier means what its wraps give
it; none has another meaning recorded. -/
def MeantByWraps (S : Spaces) (e : Syntax) : Prop :=
  ∀ form part x, e.Has form → form.Encloses S part → part.Has x →
    S.resolve x = (S.resolveWithMarks x).1

/-- An expression `e` inside `Δ`, all of it parts of `whole`. -/
structure Within (S : Spaces) (whole : Syntax) (Δ : List Layer) (e : Syntax) : Prop where
  binders : ∀ layer ∈ Δ, ∀ binder ∈ layer.binders, whole.Has binder
  parts : ∀ x, e.Has x → whole.Has x
  meant : Δ ≠ [] → ∀ x, e.Has x → S.resolve x = (S.resolveWithMarks x).1

section

variable {S : Spaces} {bound : RibId} {whole : Syntax} {Δ : List Layer} {ρ : List Rib} {e : Syntax}

theorem Within.part (h : Within S whole Δ e) {part : Syntax} (hpart : ∀ x, part.Has x → e.Has x) :
    Within S whole Δ part :=
  ⟨h.binders, fun x hx => h.parts x (hpart x hx), fun hΔ x hx => h.meant hΔ x (hpart x hx)⟩

theorem Syntax.Encloses.has {part x : Syntax} (h : e.Encloses S part) (hx : part.Has x) : e.Has x := by
  cases h with
  | body hparts _ _ hpart => exact .of_subforms? hparts (by simp [hpart]) hx
  | init hparts _ hclauses hpair hpart =>
      exact .of_subforms? hparts (by simp) (.of_isClauses hclauses hpair (.inr (hpart ▸ hx)))

theorem Within.inner (h : Within S whole Δ e) (hmeant : MeantByWraps S whole) {layer : Layer}
    (hlayer : ∀ binder ∈ layer.binders, e.Has binder) {part : Syntax} (hpart : e.Encloses S part) :
    Within S whole (layer :: Δ) part where
  binders := List.forall_mem_cons.2
    ⟨fun binder hbinder => h.parts binder (hlayer binder hbinder), h.binders⟩
  parts x hx := h.parts x (hpart.has hx)
  meant _ x hx := hmeant e part x (h.parts e .self) hpart hx

theorem Within.meant_of_renews (h : Within S whole Δ e) (hρ : Renews S bound Δ ρ) {x : Syntax}
    (hx : e.Has x) : Meant S ρ x := by
  intro hne
  refine h.meant ?_ x hx
  rintro rfl
  cases hρ
  exact hne rfl

theorem Syntax.weight_lt_of_subforms? {stx part : Syntax} {parts : List Syntax}
    (hparts : stx.subforms? = some parts) (h : part ∈ parts) : part.weight < stx.weight := by
  have := weight_le_sum h
  rw [weight_of_subforms? hparts]
  omega

theorem Syntax.weight_lt_of_isClauses {clauses : Syntax} {pairs : List (Syntax × Syntax)}
    {pair : Syntax × Syntax} (hclauses : IsClauses clauses pairs) (hpair : pair ∈ pairs) :
    pair.1.weight < clauses.weight ∧ pair.2.weight < clauses.weight := by
  have hle : 1 + (pair.1.weight + pair.2.weight) ≤
      (pairs.map fun pair => 1 + (pair.1.weight + pair.2.weight)).sum :=
    List.single_le_sum (fun _ _ => Nat.zero_le _) _ (List.mem_map.2 ⟨pair, hpair, rfl⟩)
  rw [weight_of_isClauses hclauses]
  omega

/-- Settled expressions are expanded again, without a transformer, to what is compiled alike. -/
theorem Settled.renewable {loader : Loader} {ns : NamespaceId} (hmeant : MeantByWraps S whole)
    (h : Settled S bound Δ e) (hwithin : Within S whole Δ e) (hρ : Renews S bound Δ ρ)
    {fuel : Nat} (hfuel : e.weight < fuel) (depth : Nat) :
    Renewable S bound (Intact S whole) Δ ρ (expand loader ns fuel depth .expression) e := by
  -- The head of a sexp and one more step are taken off the fuel.
  have hsplit {stx head : Syntax} {rest : List Syntax} {fuel : Nat}
      (hparts : stx.subforms? = some (head :: rest)) (hfuel : stx.weight < fuel) :
      ∃ k, fuel = k + 2 ∧ ∀ part ∈ head :: rest, part.weight < k + 1 := by
    obtain ⟨k, rfl⟩ : ∃ k, fuel = k + 1 := ⟨fuel - 1, by omega⟩
    have hlt : ∀ part ∈ head :: rest, part.weight < k := fun part hpart =>
      (Syntax.weight_lt_of_subforms? hparts hpart).trans_le (by omega)
    obtain ⟨k, rfl⟩ : ∃ m, k = m + 1 := by
      have := hlt head List.mem_cons_self
      exact ⟨k - 1, by omega⟩
    exact ⟨k, rfl, hlt⟩
  have hhas {Δ : List Layer} {ρ : List Rib} {stx head : Syntax} {rest : List Syntax}
      (hwithin : Within S whole Δ stx) (hρ : Renews S bound Δ ρ)
      (hparts : stx.subforms? = some (head :: rest)) : Meant S ρ head :=
    hwithin.meant_of_renews hρ (.of_subforms? hparts List.mem_cons_self .self)
  induction h generalizing ρ fuel depth with
  | @name Δ x hid hkind =>
      obtain ⟨k, rfl⟩ : ∃ k, fuel = k + 1 := ⟨fuel - 1, by omega⟩
      have hx := hwithin.parts x .self
      have hmeant := hwithin.meant_of_renews hρ .self
      exact renewable_name hρ hid hkind hmeant
        fun hintact => hρ.refers hintact hx hwithin.binders hmeant
  | datum hdata =>
      obtain ⟨k, rfl⟩ : ∃ k, fuel = k + 1 := ⟨fuel - 1, by omega⟩
      exact renewable_datum hdata
  | list hparts _ ih =>
      obtain ⟨k, rfl⟩ : ∃ k, fuel = k + 1 := ⟨fuel - 1, by omega⟩
      refine renewable_list hparts fun part hpart => ?_
      refine ih part hpart (hwithin.part fun x => .of_elements? hparts hpart) hρ ?_ _
      have := Syntax.weight_le_sum hpart
      rw [Syntax.weight_of_elements? hparts] at hfuel
      omega
  | @record Δ stx fields hparts _ ih =>
      obtain ⟨k, rfl⟩ : ∃ k, fuel = k + 1 := ⟨fuel - 1, by omega⟩
      refine renewable_record hparts fun field hfield => ?_
      refine ih field hfield (hwithin.part fun x => .of_fields? hparts hfield) hρ ?_ _
      have hle : field.2.weight ≤ (fields.map fun field => field.2.weight).sum :=
        List.single_le_sum (fun _ _ => Nat.zero_le _) _
          (List.mem_map.2 ⟨field, hfield, rfl⟩)
      rw [Syntax.weight_of_fields? hparts] at hfuel
      omega
  | application hparts hall ih =>
      obtain ⟨k, rfl, hlt⟩ := hsplit hparts hfuel
      refine renewable_application hρ hparts (hall _ List.mem_cons_self).headKind
        (hhas hwithin hρ hparts) fun part hpart => ?_
      exact ih part hpart (hwithin.part fun x => .of_subforms? hparts hpart) hρ (hlt part hpart) _
  | quotation hf hparts hhead =>
      obtain ⟨k, rfl, -⟩ := hsplit hparts hfuel
      have hwraps := hhas hwithin hρ hparts
      exact .of_core hρ hparts hhead hwraps (renewable_quotation hρ hf hparts hhead hwraps)
  | @conditional Δ stx head test consequent alternative hparts hhead _ ih =>
      obtain ⟨k, rfl, hlt⟩ := hsplit hparts hfuel
      have hwraps := hhas hwithin hρ hparts
      refine .of_core hρ hparts hhead hwraps (renewable_conditional hρ hparts rfl hhead hwraps
        fun part hpart => ?_)
      have hmem := List.mem_cons_of_mem head hpart
      exact ih part hpart (hwithin.part fun x => .of_subforms? hparts hmem) hρ (hlt part hmem) _
  | @sequence Δ stx head forms hparts hhead _ ih =>
      obtain ⟨k, rfl, hlt⟩ := hsplit hparts hfuel
      have hwraps := hhas hwithin hρ hparts
      refine .of_core hρ hparts hhead hwraps (renewable_sequence hρ hparts hhead hwraps
        fun part hpart => ?_)
      have hmem := List.mem_cons_of_mem head hpart
      exact ih part hpart (hwithin.part fun x => .of_subforms? hparts hmem) hρ (hlt part hmem) _
  | @lambda Δ stx head formals body layer hparts hhead hformals hlayer hbody _ ih =>
      obtain ⟨k, rfl, hlt⟩ := hsplit hparts hfuel
      have hwraps := hhas hwithin hρ hparts
      have hbinders : ∀ binder ∈ layer.binders, stx.Has binder := fun binder hbinder =>
        .of_subforms? hparts (by simp) (.of_isFormals hformals hbinder)
      refine .of_core hρ hparts hhead hwraps (renewable_lambda hρ hparts hhead hwraps hformals hlayer
        hbody fun rib hinner part hpart => ?_)
      have hmem := List.mem_cons_of_mem head (List.mem_cons_of_mem formals hpart)
      have hwithinPart := hwithin.inner hmeant hbinders (.body hparts hhead (by simp) hpart)
      exact ih part hpart hwithinPart hinner (hlt part hmem) _
  | @letForm Δ stx head clauses body pairs layer hparts hhead hclauses hbinders hlayer hbody _ _ ihinits
      ihbody =>
      obtain ⟨k, rfl, hlt⟩ := hsplit hparts hfuel
      have hwraps := hhas hwithin hρ hparts
      have hmemClauses : clauses ∈ head :: clauses :: body := by simp
      have hlayerHas : ∀ binder ∈ layer.binders, stx.Has binder := fun binder hbinder =>
        .of_subforms? hparts hmemClauses (hclauses.has_binder (hbinders ▸ hbinder))
      refine .of_core hρ hparts hhead hwraps (renewable_letForm hρ hparts hhead hwraps hclauses hbinders
        hlayer hbody (fun pair hpair => ?_) fun rib hinner part hpart => ?_)
      · refine ihinits pair hpair (hwithin.part fun x hx => ?_) hρ ?_ _
        · exact .of_subforms? hparts hmemClauses (.of_isClauses hclauses hpair (.inr hx))
        · exact (Syntax.weight_lt_of_isClauses hclauses hpair).2.trans (hlt clauses hmemClauses)
      · have hmem := List.mem_cons_of_mem head (List.mem_cons_of_mem clauses hpart)
        have hwithinPart := hwithin.inner hmeant hlayerHas (.body hparts hhead (by simp) hpart)
        exact ihbody part hpart hwithinPart hinner (hlt part hmem) _
  | @letrec Δ stx head clauses body pairs layer hparts hhead hclauses hbinders hlayer hbody _ _ ihinits
      ihbody =>
      obtain ⟨k, rfl, hlt⟩ := hsplit hparts hfuel
      have hwraps := hhas hwithin hρ hparts
      have hmemClauses : clauses ∈ head :: clauses :: body := by simp
      have hlayerHas : ∀ binder ∈ layer.binders, stx.Has binder := fun binder hbinder =>
        .of_subforms? hparts hmemClauses (hclauses.has_binder (hbinders ▸ hbinder))
      refine .of_core hρ hparts hhead hwraps (renewable_letrec hρ hparts hhead hwraps hclauses hbinders
        hlayer hbody (fun rib hinner pair hpair => ?_) fun rib hinner part hpart => ?_)
      · refine ihinits pair hpair
          (hwithin.inner hmeant hlayerHas (.init hparts hhead hclauses hpair rfl)) hinner ?_ _
        exact (Syntax.weight_lt_of_isClauses hclauses hpair).2.trans (hlt clauses hmemClauses)
      · have hmem := List.mem_cons_of_mem head (List.mem_cons_of_mem clauses hpart)
        have hwithinPart := hwithin.inner hmeant hlayerHas (.body hparts hhead (by simp) hpart)
        exact ihbody part hpart hwithinPart hinner (hlt part hmem) _
  | @assignment Δ stx head target value hparts hhead htarget _ ih =>
      obtain ⟨k, rfl, hlt⟩ := hsplit hparts hfuel
      have hwraps := hhas hwithin hρ hparts
      have hmem : value ∈ [head, target, value] := by simp
      have htargetHas : stx.Has target := .of_subforms? hparts (by simp) .self
      refine .of_core hρ hparts hhead hwraps (renewable_assignment hρ hparts hhead hwraps htarget ?_ ?_)
      · exact fun hintact => hρ.refers hintact (hwithin.parts target htargetHas) hwithin.binders
          (hwithin.meant_of_renews hρ htargetHas)
      · exact ih (hwithin.part fun x => .of_subforms? hparts hmem) hρ (hlt value hmem) _
  | @parameterize Δ stx head clauses body pairs hparts hhead hclauses hbody _ _ _ ihfirsts ihseconds
      ihbody =>
      obtain ⟨k, rfl, hlt⟩ := hsplit hparts hfuel
      have hwraps := hhas hwithin hρ hparts
      have hmemClauses : clauses ∈ head :: clauses :: body := by simp
      have hclause {x : Syntax} (hx : clauses.Has x) : stx.Has x :=
        .of_subforms? hparts hmemClauses hx
      refine .of_core hρ hparts hhead hwraps (renewable_parameterize hρ hparts hhead hwraps hclauses
        hbody (fun pair hpair => ?_) (fun pair hpair => ?_) fun part hpart => ?_)
      · refine ihfirsts pair hpair (hwithin.part fun x hx => ?_) hρ ?_ _
        · exact hclause (.of_isClauses hclauses hpair (.inl hx))
        · exact (Syntax.weight_lt_of_isClauses hclauses hpair).1.trans (hlt clauses hmemClauses)
      · refine ihseconds pair hpair (hwithin.part fun x hx => ?_) hρ ?_ _
        · exact hclause (.of_isClauses hclauses hpair (.inr hx))
        · exact (Syntax.weight_lt_of_isClauses hclauses hpair).2.trans (hlt clauses hmemClauses)
      · have hmem := List.mem_cons_of_mem head (List.mem_cons_of_mem clauses hpart)
        exact ihbody part hpart (hwithin.part fun x => .of_subforms? hparts hmem) hρ (hlt part hmem) _

end

end HygienicLisp
