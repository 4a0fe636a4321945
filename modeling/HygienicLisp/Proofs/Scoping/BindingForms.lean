import HygienicLisp.Expansion.Forms
import HygienicLisp.Proofs.Scoping.Elaborated

/-!
# Expansion of binding forms

Each binding form makes a rib of its binders and places it on what is in their scope, so the ribs
on an identifier are those of the forms that enclose it.  One lemma for each binding form says so
in terms of the expansion of its parts (`Expands`).  For `let` the initial values are outside of
the rib, for `letrec` they are inside.
-/

namespace HygienicLisp

open Expansion

/-! ## The world in which an expression is expanded -/

/-- The identifiers of an expression are read in a chain without marks and ribs that does not
mention the kernel, and `lambda` and `letrec` of the kernel are the core forms. -/
structure Ground (w₀ : World) (base : List Wrap) : Prop where
  plain : PlainChain w₀.runtime.kernel.space base
  lambda : w₀.spaces.leafValue? (kernelName w₀.runtime.kernel.space "lambda") = some (.form .lambda)
  letrec : w₀.spaces.leafValue? (kernelName w₀.runtime.kernel.space "letrec") = some (.form .letrec)

/-- A world in the course of expansion, after the given ribs were made. -/
structure Inside (w₀ : World) (ribs : List Rib) (w : World) : Prop where
  keeps : Keeps w₀ w
  below : ∀ rib ∈ ribs, rib.id < w.nextRib

theorem Inside.mono {w₀ w w' : World} {ribs : List Rib} (h : Inside w₀ ribs w) (hw : Keeps w w') :
    Inside w₀ ribs w' :=
  ⟨h.keeps.trans hw, fun rib hrib => Nat.lt_of_lt_of_le (h.below rib hrib) hw.nextRib⟩

section

variable (w₀ : World) (base : List Wrap)

/-- The form is to be expanded to the expression, in the given world. -/
abbrev WrittenIn (ribs : List Rib) (scope : NameScope) : Expr → ContextTree → Prop :=
  Written w₀.spaces base w₀.runtime.kernel.space ribs scope

/-- The computation expands what is to be expanded. -/
def Expands (expand : ExpandContext → Syntax → RunM Syntax) : Prop :=
  ∀ ⦃ribs : List Rib⦄ ⦃scope : NameScope⦄ ⦃e : Expr⦄ ⦃T : ContextTree⦄ ⦃stx : Syntax⦄ ⦃w : World⦄,
    Frames w₀.spaces base ribs scope → Inside w₀ ribs w → WrittenIn w₀ base ribs scope e T →
    Shows T stx → ∀ context,
      Yields w (fun out _ => Out w₀.spaces base ribs e out) (expand context stx)

end

variable {w₀ w : World} {base : List Wrap} {ribs : List Rib} {scope : NameScope}
  {expand : ExpandContext → Syntax → RunM Syntax}

theorem yields_expandEach (hexpand : Expands w₀ base expand)
    (hframes : Frames w₀.spaces base ribs scope) (hw : Inside w₀ ribs w) {es : List Expr}
    {Ts : List ContextTree} (hwritten : List.Forall₂ (WrittenIn w₀ base ribs scope) es Ts)
    {stxs : List Syntax} (hshows : List.Forall₂ Shows Ts stxs) (context : ExpandContext) :
    Yields w (fun outs _ => OutAll w₀.spaces base ribs es outs)
      (expandEach expand context stxs) := by
  induction hwritten generalizing stxs w with
  | nil =>
      cases hshows
      exact .pure ⟨[], .nil, .nil⟩
  | cons hhead _ ih =>
      cases hshows with
      | cons hstx hrest =>
          refine (hexpand hframes hw hhead hstx context).bind fun out w₁ hw₁ hout => ?_
          refine (ih (hw.mono hw₁) hrest).bind fun outs w₂ _ houts => .pure ?_
          obtain ⟨T, hT, helab⟩ := hout
          obtain ⟨Ts, hTs, helabs⟩ := houts
          exact ⟨T :: Ts, .cons hT hTs, .cons helab helabs⟩

theorem yields_expandFields (hexpand : Expands w₀ base expand)
    (hframes : Frames w₀.spaces base ribs scope) (hw : Inside w₀ ribs w) {es : List Expr}
    {Ts : List ContextTree} (hwritten : List.Forall₂ (WrittenIn w₀ base ribs scope) es Ts)
    {fields : List (String × Syntax)} (hshows : List.Forall₂ Shows Ts (fields.map (·.2))) :
    Yields w (fun outs _ => outs.map (·.1) = fields.map (·.1) ∧
      OutAll w₀.spaces base ribs es (outs.map (·.2))) (expandFields expand fields) := by
  induction hwritten generalizing fields w with
  | nil =>
      obtain rfl : fields = [] := by
        cases fields with
        | nil => rfl
        | cons field fields => cases hshows
      exact .pure ⟨rfl, [], .nil, .nil⟩
  | cons hhead _ ih =>
      cases fields with
      | nil => cases hshows
      | cons field fields =>
          cases hshows with
          | cons hstx hrest =>
              refine (hexpand hframes hw hhead hstx .expression).bind fun out w₁ hw₁ hout => ?_
              refine (ih (hw.mono hw₁) hrest).bind fun outs w₂ _ houts => .pure ?_
              obtain ⟨T, hT, helab⟩ := hout
              obtain ⟨hkeys, Ts, hTs, helabs⟩ := houts
              exact ⟨congrArg (field.1 :: ·) hkeys, T :: Ts, .cons hT hTs, .cons helab helabs⟩

/-! ## Ribs -/

theorem extend_eq {names : List String} {binders : List Syntax}
    (hshows : List.Forall₂ Shows (bindersIn base ribs names) binders) {spaces : Spaces}
    {done keys : List Key} (h : Rib.extend spaces done binders = .ok keys) :
    keys = done ++ names.map fun x => spaces.leafKey (nameIn base ribs x) := by
  induction names generalizing done binders with
  | nil =>
      cases hshows
      cases h
      simp
  | cons x names ih =>
      cases hshows with
      | @cons _ binder _ rest hbinder hrest =>
          have hname : binder.symbol? = some x := Syntax.symbol?_of_view hbinder.view
          rw [Rib.extend, hname] at h
          simp only [Syntax.bindingKey_of_view (a := nameIn base ribs x) hbinder.view rfl] at h
          split at h
          · cases h
          · rw [ih hrest h]
            simp

/-- A new rib has the keys of its binders and a number of its own. -/
theorem yields_newRib (hw : Inside w₀ ribs w) {names : List String} {binders : List Syntax}
    (hshows : List.Forall₂ Shows (bindersIn base ribs names) binders) :
    Yields w (fun rib w' => Opens w₀.spaces base ribs rib names ∧ Inside w₀ (rib :: ribs) w')
      (newRib binders) := by
  intro rib w' hrun
  rw [newRib, RunM.bind_apply, freshRib_apply] at hrun
  simp only [RunM.bind_apply, RunM.getSpaces_apply, Rib.ofBinders] at hrun
  cases hextend : Rib.extend w.spaces [] binders with
  | error e =>
      rw [hextend] at hrun
      cases hrun
  | ok keys =>
      rw [hextend] at hrun
      cases hrun
      have hkeeps : Keeps w { w with nextRib := w.nextRib + 1 } := ⟨rfl, rfl, Nat.le_succ _⟩
      have hkeys := extend_eq hshows hextend
      rw [hw.keeps.spaces, List.nil_append] at hkeys
      -- The number is the next one, and all ribs around have smaller ones.
      refine ⟨hkeeps, ⟨hkeys, fun other hother => ?_⟩, hw.keeps.trans hkeeps,
        fun other hother => ?_⟩
      · exact Nat.ne_of_lt (hw.below other hother)
      · rcases List.mem_cons.1 hother with rfl | hother
        · exact Nat.lt_succ_self _
        · exact Nat.lt_succ_of_lt (hw.below other hother)

theorem shows_renamed {rib : Rib} {names : List String} {binders : List Syntax}
    (hshows : List.Forall₂ Shows (bindersIn base ribs names) binders) :
    List.Forall₂ Shows (bindersIn base (rib :: ribs) names) (renamed rib binders) := by
  rw [← bindersIn_push]
  exact Shows.all_addWrap hshows _

/-! ## Clauses -/

/-- The clauses of a binding form are taken apart. -/
theorem yields_parseClauses {names : List String} {inits : List ContextTree} {items : List Syntax}
    (hlength : names.length = inits.length)
    (hshows : List.Forall₂ Shows (couples (bindersIn base ribs names) inits) items) :
    Yields w (fun pairs w' => w' = w ∧
      List.Forall₂ Shows (bindersIn base ribs names) (pairs.map (·.1)) ∧
      List.Forall₂ Shows inits (pairs.map (·.2))) (parseClauses items) := by
  induction names generalizing inits items with
  | nil =>
      obtain rfl : inits = [] := List.length_eq_zero_iff.1 hlength.symm
      cases hshows
      exact .pure ⟨rfl, .nil, .nil⟩
  | cons x names ih =>
      cases inits with
      | nil => cases hlength
      | cons init inits =>
          obtain _ | ⟨hclause, hrest⟩ := hshows
          obtain ⟨parts, hparts, _ | ⟨hid, _ | ⟨hinit, _ | _⟩⟩⟩ := hclause.subforms
          rw [parseClauses, Syntax.subforms, hparts]
          simp only [Option.getD_some, hid.isIdentifier_of_name rfl, if_true]
          refine (ih (Nat.succ.inj hlength) hrest).bind_still fun pairs hpairs => ?_
          exact .pure ⟨rfl, .cons hid hpairs.1, .cons hinit hpairs.2⟩

theorem yields_bindingClauses {names : List String} {inits : List ContextTree} {clauses : Syntax}
    (hlength : names.length = inits.length)
    (hshows : Shows (clausesSeen (bindersIn base ribs names) inits) clauses) :
    Yields w (fun pairs w' => w' = w ∧
      List.Forall₂ Shows (bindersIn base ribs names) (pairs.map (·.1)) ∧
      List.Forall₂ Shows inits (pairs.map (·.2))) (bindingClauses clauses) := by
  obtain ⟨items, hitems, hall⟩ := hshows.subforms
  rw [bindingClauses, hitems]
  exact yields_parseClauses hlength hall

theorem shows_clauses {firsts seconds : List ContextTree} {ids inits : List Syntax}
    (hids : List.Forall₂ Shows firsts ids) (hinits : List.Forall₂ Shows seconds inits)
    (site : Syntax) : Shows (clausesSeen firsts seconds) (rebuildClauses site ids inits) := by
  refine Shows.rebuildSexp ?_ site
  induction hids generalizing seconds inits with
  | nil => exact .nil
  | cons hid _ ih =>
      cases hinits with
      | nil => exact .nil
      | cons hinit hinits => exact .cons (.group (.cons hid (.cons hinit .nil)) _ _) (ih hinits)

/-! ## Binding forms -/

/-- The parts of a form that are in the scope of a new rib with the given binders. -/
def WrittenUnder (w₀ : World) (base : List Wrap) (ribs : List Rib) (scope : NameScope)
    (names : List String) (es : List Expr) (Ts : List ContextTree) : Prop :=
  ∀ rib, Opens w₀.spaces base ribs rib names → List.Forall₂
    (WrittenIn w₀ base (rib :: ribs) (names :: scope)) es (Ts.map (.push (.rename rib)))

section

variable {head : ContextTree} {names : List String} {inits Ts : List ContextTree}
  {es body : List Expr} {form : Syntax} {parts : List Syntax}

/-- What is inside a binding form is expanded in the scope of its rib. -/
theorem yields_renamed (hexpand : Expands w₀ base expand)
    (hframes : Frames w₀.spaces base ribs scope) {rib : Rib}
    (hrib : Opens w₀.spaces base ribs rib names) (hw : Inside w₀ (rib :: ribs) w)
    (hbody : WrittenUnder w₀ base ribs scope names body Ts) {stxs : List Syntax}
    (hshows : List.Forall₂ Shows Ts stxs) :
    Yields w (fun outs _ => OutAll w₀.spaces base (rib :: ribs) body outs)
      (expandEach expand .expression (renamed rib stxs)) :=
  yields_expandEach hexpand (hrib.frames hframes) hw (hbody rib hrib)
    (Shows.all_addWrap hshows _) .expression

theorem yields_lambda (hexpand : Expands w₀ base expand)
    (hframes : Frames w₀.spaces base ribs scope) (hw : Inside w₀ ribs w)
    (hhead : HeadSeen w₀.spaces .lambda head)
    (hbody : WrittenUnder w₀ base ribs scope names body Ts)
    (hparts : List.Forall₂ Shows (head :: .group .sexp (bindersIn base ribs names) :: Ts) parts) :
    Yields w (fun out _ => Out w₀.spaces base ribs (.lambda names false body) out)
      (lambda expand form parts) := by
  obtain _ | ⟨hheadShows, _ | ⟨hformals, hrest⟩⟩ := hparts
  obtain ⟨binders, hbinders, hall⟩ := hformals.subforms
  simp only [lambda, hformals.isIdentifier_of_group, Bool.false_eq_true, if_false, hbinders]
  refine .guard_bind ?_
  refine (yields_newRib hw hall).bind fun rib w₂ _ hrib => ?_
  refine (yields_renamed hexpand hframes hrib.1 hrib.2 hbody hrest).bind fun outs _ _ houts =>
    .pure ?_
  obtain ⟨Us, hUs, helab⟩ := houts
  exact ⟨_, .rebuildSexp (.cons hheadShows (.cons (.rebuildSexp (shows_renamed hall) _) hUs)) form,
    .lambda hhead hrib.1 helab⟩

theorem yields_lambdaRest (hexpand : Expands w₀ base expand)
    (hframes : Frames w₀.spaces base ribs scope) (hw : Inside w₀ ribs w) {x : String}
    (hhead : HeadSeen w₀.spaces .lambda head) (hbody : WrittenUnder w₀ base ribs scope [x] body Ts)
    (hparts : List.Forall₂ Shows (head :: .leaf (nameIn base ribs x) :: Ts) parts) :
    Yields w (fun out _ => Out w₀.spaces base ribs (.lambda [x] true body) out)
      (lambda expand form parts) := by
  obtain _ | ⟨hheadShows, _ | ⟨hformal, hrest⟩⟩ := hparts
  have hall : List.Forall₂ Shows (bindersIn base ribs [x]) [_] := .cons hformal .nil
  simp only [lambda, hformal.isIdentifier_of_name rfl, if_true]
  refine .guard_bind ?_
  refine (yields_newRib hw hall).bind fun rib w₂ _ hrib => ?_
  refine (yields_renamed hexpand hframes hrib.1 hrib.2 hbody hrest).bind fun outs _ _ houts =>
    .pure ?_
  obtain ⟨Us, hUs, helab⟩ := houts
  have hformal := hformal.addWrap (.rename rib)
  rw [FormTree.push, FormTree.map_leaf] at hformal
  exact ⟨_, .rebuildSexp (.cons hheadShows (.cons hformal hUs)) form,
    .lambdaRest hhead hrib.1 helab⟩

theorem yields_letrec (hexpand : Expands w₀ base expand)
    (hframes : Frames w₀.spaces base ribs scope) (hw : Inside w₀ ribs w)
    (hhead : HeadSeen w₀.spaces .letrec head) (hlength : names.length = inits.length)
    (hinits : WrittenUnder w₀ base ribs scope names es inits)
    (hbody : WrittenUnder w₀ base ribs scope names body Ts)
    (hparts : List.Forall₂ Shows (head :: clausesSeen (bindersIn base ribs names) inits :: Ts)
      parts) :
    Yields w (fun out _ => Out w₀.spaces base ribs (.letrec names es body) out)
      (letrec expand form parts) := by
  obtain _ | ⟨hheadShows, _ | ⟨hclauses, hrest⟩⟩ := hparts
  rw [letrec]
  refine .guard_bind ?_
  refine (yields_bindingClauses hlength hclauses).bind_still fun pairs hpairs => ?_
  obtain ⟨hids, hpairInits⟩ := hpairs
  refine (yields_newRib hw hids).bind fun rib w₃ _ hrib => ?_
  refine (yields_renamed hexpand hframes hrib.1 hrib.2 hinits hpairInits).bind
    fun initOuts w₄ hw₄ hinitOuts => ?_
  refine (yields_renamed hexpand hframes hrib.1 (hrib.2.mono hw₄) hbody hrest).bind
    fun outs _ _ houts => .pure ?_
  obtain ⟨Is, hIs, helabInits⟩ := hinitOuts
  obtain ⟨Us, hUs, helab⟩ := houts
  have hlength' : names.length = Is.length := by
    have hes := (hinits rib hrib.1).length_eq
    rw [List.length_map] at hes
    rw [hlength, ← hes, helabInits.length_eq]
  exact ⟨_, .rebuildSexp (.cons hheadShows
      (.cons (shows_clauses (shows_renamed hids) hIs _) hUs)) form,
    .letrec hhead hrib.1 hlength' helabInits helab⟩

theorem yields_plainLet (hexpand : Expands w₀ base expand)
    (hframes : Frames w₀.spaces base ribs scope) (hw : Inside w₀ ribs w)
    (hhead : HeadSeen w₀.spaces .letForm head) (hlength : names.length = inits.length)
    (hinits : List.Forall₂ (WrittenIn w₀ base ribs scope) es inits)
    (hbody : WrittenUnder w₀ base ribs scope names body Ts)
    (hparts : List.Forall₂ Shows (head :: clausesSeen (bindersIn base ribs names) inits :: Ts)
      parts) :
    Yields w (fun out _ => Out w₀.spaces base ribs (.letIn names es body) out)
      (letForm expand form parts) := by
  obtain _ | ⟨hheadShows, _ | ⟨hclauses, hrest⟩⟩ := hparts
  simp only [letForm, hclauses.isIdentifier_of_group, Bool.false_eq_true, if_false]
  refine .guard_bind ?_
  refine (yields_bindingClauses hlength hclauses).bind_still fun pairs hpairs => ?_
  obtain ⟨hids, hpairInits⟩ := hpairs
  -- There is no rib yet when the initial values are expanded.
  refine (yields_expandEach hexpand hframes hw hinits hpairInits .expression).bind
    fun initOuts w₃ hw₃ hinitOuts => ?_
  refine (yields_newRib (hw.mono hw₃) hids).bind fun rib w₄ _ hrib => ?_
  refine (yields_renamed hexpand hframes hrib.1 hrib.2 hbody hrest).bind
    fun outs _ _ houts => .pure ?_
  obtain ⟨Is, hIs, helabInits⟩ := hinitOuts
  obtain ⟨Us, hUs, helab⟩ := houts
  have hlength' : names.length = Is.length := by
    rw [hlength, ← hinits.length_eq, helabInits.length_eq]
  exact ⟨_, .rebuildSexp (.cons hheadShows
      (.cons (shows_clauses (shows_renamed hids) hIs _) hUs)) form,
    .letIn hhead hrib.1 hlength' helabInits helab⟩

/-! ## Parameters -/

theorem yields_parameterClauses (hexpand : Expands w₀ base expand)
    (hframes : Frames w₀.spaces base ribs scope) (hw : Inside w₀ ribs w) {ps vs : List Expr}
    {parameters values : List ContextTree} (hlength : parameters.length = values.length)
    (hparameters : List.Forall₂ (WrittenIn w₀ base ribs scope) ps parameters)
    (hvalues : List.Forall₂ (WrittenIn w₀ base ribs scope) vs values) {items : List Syntax}
    (hshows : List.Forall₂ Shows (couples parameters values) items) :
    Yields w (fun outs _ => ∃ Ps Vs, List.Forall₂ Shows (couples Ps Vs) outs ∧
      Ps.length = Vs.length ∧ ElaboratedAll w₀.spaces base ribs ps Ps ∧
      ElaboratedAll w₀.spaces base ribs vs Vs) (parameterClauses expand items) := by
  induction hparameters generalizing vs values items w with
  | nil =>
      obtain rfl : values = [] := List.length_eq_zero_iff.1 hlength.symm
      cases hvalues
      cases hshows
      exact .pure ⟨[], [], .nil, rfl, .nil, .nil⟩
  | cons hparameter _ ih =>
      cases hvalues with
      | nil => cases hlength
      | cons hvalue hvalues =>
          obtain _ | ⟨hclause, hrest⟩ := hshows
          obtain ⟨parts, hparts, _ | ⟨hpStx, _ | ⟨hvStx, _ | _⟩⟩⟩ := hclause.subforms
          rw [parameterClauses, Syntax.subforms, hparts]
          refine (hexpand hframes hw hparameter hpStx _).bind fun p w₁ hw₁ hp => ?_
          refine (hexpand hframes (hw.mono hw₁) hvalue hvStx _).bind fun v w₂ hw₂ hv => ?_
          refine (ih ((hw.mono hw₁).mono hw₂) (Nat.succ.inj hlength) hvalues hrest).bind
            fun outs _ _ houts => .pure ?_
          obtain ⟨P, hP, helabP⟩ := hp
          obtain ⟨V, hV, helabV⟩ := hv
          obtain ⟨Ps, Vs, hclauses, hlength', helabPs, helabVs⟩ := houts
          exact ⟨P :: Ps, V :: Vs, .cons (.rebuildSexp (.cons hP (.cons hV .nil)) _) hclauses,
            congrArg Nat.succ hlength', .cons helabP helabPs, .cons helabV helabVs⟩

theorem yields_parameterize (hexpand : Expands w₀ base expand)
    (hframes : Frames w₀.spaces base ribs scope) (hw : Inside w₀ ribs w)
    (hhead : HeadSeen w₀.spaces .parameterize head) {ps vs : List Expr}
    {parameters values : List ContextTree} (hlength : parameters.length = values.length)
    (hparameters : List.Forall₂ (WrittenIn w₀ base ribs scope) ps parameters)
    (hvalues : List.Forall₂ (WrittenIn w₀ base ribs scope) vs values)
    (hbody : List.Forall₂ (WrittenIn w₀ base ribs scope) body Ts)
    (hparts : List.Forall₂ Shows (head :: clausesSeen parameters values :: Ts) parts) :
    Yields w (fun out _ => Out w₀.spaces base ribs (.parameterize ps vs body) out)
      (parameterize expand form parts) := by
  obtain _ | ⟨hheadShows, _ | ⟨hclauses, hrest⟩⟩ := hparts
  obtain ⟨items, hitems, hall⟩ := hclauses.subforms
  simp only [parameterize, hitems]
  refine .guard_bind ?_
  refine (yields_parameterClauses hexpand hframes hw hlength hparameters hvalues hall).bind
    fun outs w₂ hw₂ houts => ?_
  refine (yields_expandEach hexpand hframes (hw.mono hw₂) hbody hrest .expression).bind
    fun bodyOuts _ _ hbodyOuts => .pure ?_
  obtain ⟨Ps, Vs, hclauses', hlength', helabPs, helabVs⟩ := houts
  obtain ⟨Us, hUs, helab⟩ := hbodyOuts
  exact ⟨_, .rebuildSexp (.cons hheadShows (.cons (.rebuildSexp hclauses' _) hUs)) form,
    .parameterize hhead hlength' helabPs helabVs helab⟩

end

end HygienicLisp
