import HygienicLisp.Proofs.Spans.Requests

/-!
# Expansion copies ranges

Expansion puts forms together from parts of other forms, each at the place of a form that was there,
and a failure is reported at a form.
-/

namespace HygienicLisp

variable {given : Source → Prop}

/-! ## Core forms -/

namespace Expansion

variable {form : Syntax} {parts : List Syntax} {loader : Loader}

theorem copies_expectCount (hform : form.Traced given) (parts : List Syntax) (count : Nat)
    (expected : Operands) : Copies given (fun _ => True) (expectCount form parts count expected) := by
  unfold expectCount
  split
  · exact .pure trivial
  · exact .failAt hform _

theorem copies_expectBody (hform : form.Traced given) (parts : List Syntax) (first : Nat) :
    Copies given (fun _ => True) (expectBody form parts first) := by
  unfold expectBody
  split
  · exact .pure trivial
  · exact .failAt hform _

theorem copies_expectDefinitions (hform : form.Traced given) (context : ExpandContext)
    (what : String) : Copies given (fun _ => True) (expectDefinitions form context what) := by
  unfold expectDefinitions
  split
  · exact .pure trivial
  · exact .failAt hform _

theorem copies_parseClauses (hparts : ∀ part ∈ parts, part.Traced given) :
    Copies given (fun pairs => ∀ pair ∈ pairs, pair.1.Traced given ∧ pair.2.Traced given)
      (parseClauses parts) := by
  induction parts with
  | nil => exact .pure (by simp)
  | cons clause rest ih =>
      obtain ⟨hclause, hrest⟩ := List.forall_mem_cons.1 hparts
      have hsubforms := hclause.subforms
      rw [parseClauses]
      split
      · rename_i id init hpair
        rw [hpair] at hsubforms
        split
        · refine (ih hrest).bind fun pairs hpairs => .pure ?_
          exact List.forall_mem_cons.2
            ⟨⟨hsubforms id (by simp), hsubforms init (by simp)⟩, hpairs⟩
        · exact .failAt hclause _
      · exact .failAt hclause _

theorem copies_bindingClauses {clauses : Syntax} (h : clauses.Traced given) :
    Copies given (fun pairs => ∀ pair ∈ pairs, pair.1.Traced given ∧ pair.2.Traced given)
      (bindingClauses clauses) := by
  unfold bindingClauses
  split
  · exact .failAt h _
  · rename_i items hitems
    exact copies_parseClauses (h.subforms? hitems)

theorem traced_renamed (rib : Rib) (hparts : ∀ part ∈ parts, part.Traced given) :
    ∀ part ∈ renamed rib parts, part.Traced given :=
  List.forall_mem_map.2 fun part hpart => (hparts part hpart).addWrap _

theorem traced_rebuildClauses {site : Syntax} (hsite : site.Traced given) {ids inits : List Syntax}
    (hids : ∀ stx ∈ ids, stx.Traced given) (hinits : ∀ stx ∈ inits, stx.Traced given) :
    (rebuildClauses site ids inits).Traced given := by
  refine hsite.rebuildSexp (List.forall_mem_map.2 fun pair hpair => ?_)
  obtain ⟨hid, hinit⟩ := List.of_mem_zip hpair
  refine Syntax.Traced.group (c := { span := site.span }) hsite.span ?_
  simp only [List.forall_mem_cons]
  exact ⟨hids _ hid, hinits _ hinit, by simp⟩

section

variable {expand : ExpandContext → Syntax → RunM Syntax}
  (hexpand : ∀ context {stx : Syntax}, stx.Traced given →
    Copies given (Syntax.Traced given) (expand context stx))
include hexpand

theorem copies_expandEach (context : ExpandContext) (hparts : ∀ part ∈ parts, part.Traced given) :
    Copies given (fun forms => ∀ stx ∈ forms, stx.Traced given)
      (expandEach expand context parts) := by
  induction parts with
  | nil => exact .pure (by simp)
  | cons stx rest ih =>
      obtain ⟨hstx, hrest⟩ := List.forall_mem_cons.1 hparts
      refine (hexpand context hstx).bind fun stx hstx => (ih hrest).bind fun rest hrest => ?_
      exact .pure (List.forall_mem_cons.2 ⟨hstx, hrest⟩)

theorem copies_expandFields {fields : List (String × Syntax)}
    (hfields : ∀ field ∈ fields, field.2.Traced given) :
    Copies given (fun fields => ∀ field ∈ fields, field.2.Traced given)
      (expandFields expand fields) := by
  induction fields with
  | nil => exact .pure (by simp)
  | cons field rest ih =>
      obtain ⟨hfield, hrest⟩ := List.forall_mem_cons.1 hfields
      refine (hexpand .expression hfield).bind fun stx hstx => (ih hrest).bind fun rest hrest => ?_
      exact .pure (List.forall_mem_cons.2 ⟨hstx, hrest⟩)

variable (hform : form.Traced given) (hparts : ∀ part ∈ parts, part.Traced given)
include hform hparts

theorem copies_lambda : Copies given (Syntax.Traced given) (lambda expand form parts) := by
  unfold lambda
  split
  · rename_i head formals rest
    simp only [List.forall_mem_cons] at hparts
    obtain ⟨hhead, hformals, hrest⟩ := hparts
    refine (copies_expectBody hform _ 2).bind fun _ _ => ?_
    split
    · exact .failAt hformals _
    · rename_i binders hbinders
      have htraced : ∀ stx ∈ binders, stx.Traced given := by
        split at hbinders
        · cases hbinders
          exact List.forall_mem_singleton.2 hformals
        · exact hformals.subforms? hbinders
      refine (copies_newRib htraced).bind fun rib _ => ?_
      refine (copies_expandEach hexpand .expression (traced_renamed rib hrest)).bind
        fun body hbody => .pure (hform.rebuildSexp ?_)
      refine List.forall_mem_cons.2 ⟨hhead, List.forall_mem_cons.2 ⟨?_, hbody⟩⟩
      split
      · exact hformals.addWrap _
      · exact hformals.rebuildSexp (traced_renamed rib htraced)
  · exact .failAt hform _

theorem copies_namedLet : Copies given (Syntax.Traced given) (namedLet expand form parts) := by
  unfold namedLet
  split
  · rename_i head name clauses rest
    simp only [List.forall_mem_cons] at hparts
    obtain ⟨-, hname, hclauses, hrest⟩ := hparts
    refine (copies_expectBody hform _ 3).bind fun _ _ => ?_
    refine (copies_bindingClauses hclauses).bind fun pairs hpairs => ?_
    refine (copies_kernelIdentifier "lambda" hform).bind fun lambdaHead hlambda => ?_
    refine (copies_kernelIdentifier "letrec" hform).bind fun letrecHead hletrec => ?_
    have hids : ∀ stx ∈ pairs.map (·.1), stx.Traced given :=
      List.forall_mem_map.2 fun pair hpair => (hpairs pair hpair).1
    have hinits : ∀ stx ∈ pairs.map (·.2), stx.Traced given :=
      List.forall_mem_map.2 fun pair hpair => (hpairs pair hpair).2
    have hprocedure : (form.rebuildSexp
        (lambdaHead :: clauses.rebuildSexp (pairs.map (·.1)) :: rest)).Traced given :=
      hform.rebuildSexp (List.forall_mem_cons.2
        ⟨hlambda, List.forall_mem_cons.2 ⟨hclauses.rebuildSexp hids, hrest⟩⟩)
    have hclause := hform.rebuildSexp
      (List.forall_mem_cons.2 ⟨hname, List.forall_mem_singleton.2 hprocedure⟩)
    have hoperator := hform.rebuildSexp (List.forall_mem_cons.2
      ⟨hletrec, List.forall_mem_cons.2 ⟨hform.rebuildSexp (List.forall_mem_singleton.2 hclause),
        List.forall_mem_singleton.2 hname⟩⟩)
    exact hexpand .expression (hform.rebuildSexp (List.forall_mem_cons.2 ⟨hoperator, hinits⟩))
  · exact .failAt hform _

theorem copies_letForm : Copies given (Syntax.Traced given) (letForm expand form parts) := by
  unfold letForm
  split
  · rename_i head clauses rest
    split
    · exact copies_namedLet hexpand hform hparts
    · simp only [List.forall_mem_cons] at hparts
      obtain ⟨hhead, hclauses, hrest⟩ := hparts
      refine (copies_expectBody hform _ 2).bind fun _ _ => ?_
      refine (copies_bindingClauses hclauses).bind fun pairs hpairs => ?_
      have hids : ∀ stx ∈ pairs.map (·.1), stx.Traced given :=
        List.forall_mem_map.2 fun pair hpair => (hpairs pair hpair).1
      have hinits : ∀ stx ∈ pairs.map (·.2), stx.Traced given :=
        List.forall_mem_map.2 fun pair hpair => (hpairs pair hpair).2
      refine (copies_expandEach hexpand .expression hinits).bind fun inits hinits => ?_
      refine (copies_newRib hids).bind fun rib _ => ?_
      refine (copies_expandEach hexpand .expression (traced_renamed rib hrest)).bind
        fun body hbody => .pure (hform.rebuildSexp ?_)
      have hrebuilt := traced_rebuildClauses hclauses (traced_renamed rib hids) hinits
      exact List.forall_mem_cons.2 ⟨hhead, List.forall_mem_cons.2 ⟨hrebuilt, hbody⟩⟩
  · exact .failAt hform _

theorem copies_letrec : Copies given (Syntax.Traced given) (letrec expand form parts) := by
  unfold letrec
  split
  · rename_i head clauses rest
    simp only [List.forall_mem_cons] at hparts
    obtain ⟨hhead, hclauses, hrest⟩ := hparts
    refine (copies_expectBody hform _ 2).bind fun _ _ => ?_
    refine (copies_bindingClauses hclauses).bind fun pairs hpairs => ?_
    have hids : ∀ stx ∈ pairs.map (·.1), stx.Traced given :=
      List.forall_mem_map.2 fun pair hpair => (hpairs pair hpair).1
    have hinits : ∀ stx ∈ pairs.map (·.2), stx.Traced given :=
      List.forall_mem_map.2 fun pair hpair => (hpairs pair hpair).2
    refine (copies_newRib hids).bind fun rib _ => ?_
    refine (copies_expandEach hexpand .expression (traced_renamed rib hinits)).bind
      fun inits hinits => ?_
    refine (copies_expandEach hexpand .expression (traced_renamed rib hrest)).bind
      fun body hbody => .pure (hform.rebuildSexp ?_)
    have hrebuilt := traced_rebuildClauses hclauses (traced_renamed rib hids) hinits
    exact List.forall_mem_cons.2 ⟨hhead, List.forall_mem_cons.2 ⟨hrebuilt, hbody⟩⟩
  · exact .failAt hform _

omit hform in
theorem copies_parameterClauses :
    Copies given (fun items => ∀ stx ∈ items, stx.Traced given)
      (parameterClauses expand parts) := by
  induction parts with
  | nil => exact .pure (by simp)
  | cons clause rest ih =>
      obtain ⟨hclause, hrest⟩ := List.forall_mem_cons.1 hparts
      have hsubforms := hclause.subforms
      rw [parameterClauses]
      split
      · rename_i parameter value hpair
        rw [hpair] at hsubforms
        refine (hexpand .expression (hsubforms parameter (by simp))).bind
          fun parameter hparameter => ?_
        refine (hexpand .expression (hsubforms value (by simp))).bind fun value hvalue => ?_
        refine (ih hrest).bind fun items hitems => .pure (List.forall_mem_cons.2 ⟨?_, hitems⟩)
        exact hclause.rebuildSexp
          (List.forall_mem_cons.2 ⟨hparameter, List.forall_mem_singleton.2 hvalue⟩)
      · exact .failAt hclause _

theorem copies_parameterize :
    Copies given (Syntax.Traced given) (parameterize expand form parts) := by
  unfold parameterize
  split
  · rename_i head clauses rest
    simp only [List.forall_mem_cons] at hparts
    obtain ⟨hhead, hclauses, hrest⟩ := hparts
    refine (copies_expectBody hform _ 2).bind fun _ _ => ?_
    split
    · exact .failAt hclauses _
    · rename_i items hitems
      refine (copies_parameterClauses hexpand (hclauses.subforms? hitems)).bind
        fun items hitems => ?_
      refine (copies_expandEach hexpand .expression hrest).bind fun body hbody => .pure ?_
      exact hform.rebuildSexp (List.forall_mem_cons.2
        ⟨hhead, List.forall_mem_cons.2 ⟨hclauses.rebuildSexp hitems, hbody⟩⟩)
  · exact .failAt hform _

end

/-! ## Definitions -/

theorem copies_procedureParts (hform : form.Traced given) {signature : Syntax}
    (hsignature : signature.Traced given) {body : List Syntax}
    (hbody : ∀ stx ∈ body, stx.Traced given) :
    Copies given (fun pair => pair.1.Traced given ∧ pair.2.Traced given)
      (procedureParts form signature body) := by
  have hsubforms := hsignature.subforms
  unfold procedureParts
  split
  · split
    · exact .failAt hsignature _
    · rename_i name formals hparts
      rw [hparts] at hsubforms
      obtain ⟨hname, hformals⟩ := List.forall_mem_cons.1 hsubforms
      refine .check hform ((copies_kernelIdentifier "lambda" hform).bind fun head hhead => ?_)
      refine .pure ⟨hname, hform.rebuildSexp ?_⟩
      exact List.forall_mem_cons.2
        ⟨hhead, List.forall_mem_cons.2 ⟨hsignature.rebuildSexp hformals, hbody⟩⟩
  · exact .failAt hform _

theorem copies_definitionParts (hform : form.Traced given)
    (hparts : ∀ part ∈ parts, part.Traced given) :
    Copies given (fun pair => pair.1.Traced given ∧ pair.2.Traced given)
      (definitionParts form parts) := by
  unfold definitionParts
  split
  all_goals try simp only [List.forall_mem_cons] at hparts
  · obtain ⟨-, hid, hvalue, -⟩ := hparts
    split
    · exact .pure ⟨hid, hvalue⟩
    · exact copies_procedureParts hform hid (List.forall_mem_singleton.2 hvalue)
  · obtain ⟨-, hid, hdoc, hvalue, -⟩ := hparts
    split
    · exact .pure ⟨hid, hvalue⟩
    · exact copies_procedureParts hform hid
        (List.forall_mem_cons.2 ⟨hdoc, List.forall_mem_singleton.2 hvalue⟩)
  · exact copies_procedureParts hform hparts.2.1 hparts.2.2
  · exact .failAt hform _

theorem copies_predefineForm (ns : NamespaceId) (hform : form.Traced given) :
    Copies given (Syntax.Traced given) (predefineForm ns form) := by
  refine (copies_definitionParts hform hform.subforms).bind fun pair hpair => ?_
  refine .check hpair.1 ((copies_predefine hpair.1 ns).bind fun target htarget => .pure ?_)
  refine hform.rebuildSexp fun stx hstx => ?_
  rcases List.mem_append.1 hstx with hhead | hrest
  · exact hform.subforms stx (List.mem_of_mem_take hhead)
  · simp only [List.mem_cons, List.not_mem_nil, or_false] at hrest
    rcases hrest with rfl | rfl
    · exact htarget
    · exact hpair.2

section

variable {expand : ExpandContext → Syntax → RunM Syntax}
  (hexpand : ∀ context {stx : Syntax}, stx.Traced given →
    Copies given (Syntax.Traced given) (expand context stx))
include hexpand

/-- A form with three parts whose last one is expanded. -/
theorem copies_expandLast {normal : Syntax} (hnormal : normal.Traced given) {head id value : Syntax}
    (hhead : head.Traced given) (hid : id.Traced given) (hvalue : value.Traced given) :
    Copies given (Syntax.Traced given) (do
      let value ← expand .expression value
      return normal.rebuildSexp [head, id, value]) := by
  refine (hexpand .expression hvalue).bind fun value hvalue => .pure (hnormal.rebuildSexp ?_)
  simp only [List.forall_mem_cons]
  exact ⟨hhead, hid, hvalue, by simp⟩

variable (hform : form.Traced given)
include hform

theorem copies_define (ns : NamespaceId) (context : ExpandContext) :
    Copies given (Syntax.Traced given) (define expand ns form context) := by
  refine (copies_expectDefinitions hform context _).bind fun _ _ => ?_
  split
  on_goal 1 => refine (Copies.pure hform).bind fun normal hnormal => ?_
  on_goal 2 => refine (copies_predefineForm ns hform).bind fun normal hnormal => ?_
  -- Both ways, what is left to do is the expansion of the value.
  all_goals
    have hsubforms := hnormal.subforms
    dsimp only
    split
    · rename_i head id value hparts
      simp only [hparts, List.forall_mem_cons] at hsubforms
      exact copies_expandLast hexpand hnormal hsubforms.1 hsubforms.2.1 hsubforms.2.2.1
    · exact .failAt hform _

variable (hparts : ∀ part ∈ parts, part.Traced given)
include hparts

theorem copies_expandAfterHead (context : ExpandContext) :
    Copies given (Syntax.Traced given) (do
      let rest ← expandEach expand context (parts.drop 1)
      return form.rebuildSexp (parts.take 1 ++ rest)) := by
  have hdrop := Compile.traced_drop hparts 1
  refine (copies_expandEach hexpand context hdrop).bind fun rest hrest => .pure ?_
  refine hform.rebuildSexp fun stx hstx => ?_
  rcases List.mem_append.1 hstx with hhead | hstx
  · exact hparts stx (List.mem_of_mem_take hhead)
  · exact hrest stx hstx

/-- One case for each core form. -/
theorem copies_core (hloader : loader.Copies given) (ns : NamespaceId) (f : CoreForm)
    (context : ExpandContext) :
    Copies given (Syntax.Traced given) (core expand loader ns f form parts context) := by
  cases f with
  | quote | quoteSyntax => exact (copies_expectCount hform parts 2 _).bind fun _ _ => .pure hform
  | ifForm =>
      refine (copies_expectCount hform parts 4 _).bind fun _ _ => ?_
      exact copies_expandAfterHead hexpand hform hparts .expression
  | begin => exact copies_expandAfterHead hexpand hform hparts context
  | lambda => exact copies_lambda hexpand hform hparts
  | letForm => exact copies_letForm hexpand hform hparts
  | letrec => exact copies_letrec hexpand hform hparts
  | set =>
      refine (copies_expectCount hform parts 3 _).bind fun _ _ => ?_
      split
      · simp only [List.forall_mem_cons] at hparts
        refine .check hparts.2.1 ?_
        exact copies_expandLast hexpand hform hparts.1 hparts.2.1 hparts.2.2.1
      · exact .failAt hform _
  | define => exact copies_define hexpand hform ns context
  | defineSyntax =>
      refine (copies_expectDefinitions hform context _).bind fun _ _ => ?_
      refine (copies_expectCount hform parts 3 _).bind fun _ _ => ?_
      split
      · simp only [List.forall_mem_cons] at hparts
        refine (copies_predefine hparts.2.1 ns).bind fun id hid => ?_
        exact copies_expandLast hexpand hform hparts.1 hid hparts.2.2.1
      · exact .failAt hform _
  | parameterize => exact copies_parameterize hexpand hform hparts
  | moduleForm => exact .check hform (copies_declareForm hloader hform hparts)
  | require =>
      have hdrop := Compile.traced_drop hparts 1
      refine (copies_expectDefinitions hform context _).bind fun _ _ => ?_
      refine (copies_runEach fun spec hspec => ?_).bind fun _ _ => .pure hform
      exact copies_requireSpec hloader ns (hdrop spec hspec)
  | provide =>
      have hdrop := Compile.traced_drop hparts 1
      refine .check hform ((copies_runEach fun spec hspec => ?_).bind fun _ _ => .pure hform)
      exact copies_provideSpec ns (hdrop spec hspec)

end

/-! ## Full expansion -/

section

variable {expand : Nat → ExpandContext → Syntax → RunM Syntax}
  (hexpand : ∀ depth context {stx : Syntax}, stx.Traced given →
    Copies given (Syntax.Traced given) (expand depth context stx))
include hexpand

theorem copies_expandPlain (depth : Nat) (hform : form.Traced given) :
    Copies given (Syntax.Traced given) (expandPlain expand depth form) := by
  unfold expandPlain
  split
  · refine .get_bind fun w _ => ?_
    split
    · exact .failAt hform _
    · exact .failAt hform _
    · exact .pure hform
  · exact .pure hform
  · refine (copies_expandEach (fun context => hexpand depth context) .expression
      hform.elements).bind fun items hitems => .pure ?_
    exact Syntax.Traced.group (c := { span := Syntax.span _ }) hform.span hitems
  · refine (copies_expandFields (fun context => hexpand depth context)
      hform.allFields).bind fun fields hfields => .pure ?_
    exact Syntax.Traced.record (c := { span := Syntax.span _ }) hform.span hfields

/-- A sexp, by induction on the number of transformers that may be run at its head. -/
theorem copies_expandSexp (hloader : loader.Copies given) (ns : NamespaceId) (fuel depth : Nat)
    (context : ExpandContext) (hform : form.Traced given) :
    Copies given (Syntax.Traced given) (expandSexp ns expand loader fuel depth context form) := by
  induction fuel generalizing depth form with
  | zero => exact .exhausted
  | succ fuel ih =>
      have hsubforms := hform.subforms
      rw [expandSexp]
      split
      · exact .failAt hform _
      · rename_i head rest hparts
        rw [hparts] at hsubforms
        refine .getSpaces_bind fun w hw => ?_
        split
        · rename_i hhead
          have hp := transformer_of_headValue hw hhead
          refine (copies_descend depth hform).bind fun depth _ => ?_
          refine (copies_invoke fuel _ _ hp hform).bind fun output houtput => ?_
          split
          · exact ih depth houtput
          · exact copies_expandPlain hexpand depth houtput
        · exact copies_core (fun context => hexpand depth context) hform hsubforms hloader ns _
            context
        · refine (copies_expandEach (fun context => hexpand depth context) .expression
            hsubforms).bind fun items hitems => .pure (hform.rebuildSexp hitems)

end

theorem copies_expand (hloader : loader.Copies given) (ns : NamespaceId) (fuel depth : Nat)
    (context : ExpandContext) (hform : form.Traced given) :
    Copies given (Syntax.Traced given) (expand loader ns fuel depth context form) := by
  induction fuel generalizing depth context form with
  | zero => exact .exhausted
  | succ fuel ih =>
      have hexpand (depth : Nat) (context : ExpandContext) {stx : Syntax} (h : stx.Traced given) :=
        ih depth context h
      refine (copies_descend depth hform).bind fun depth _ => .inContext hform ?_
      split
      · exact copies_expandSexp hexpand hloader ns fuel depth context hform
      · exact copies_expandPlain hexpand depth hform

end Expansion

end HygienicLisp
