import HygienicLisp.Proofs.Spans.Evaluation

/-!
# Compilation copies ranges

The code of a form has the ranges of the form, and so does a failure to compile it.
-/

namespace HygienicLisp

variable {given : Source → Prop}

theorem copies_importId (ns : NamespaceId) (d : Definition) :
    Copies given (fun _ => True) (importId ns d) := by
  intro w hw
  rw [importId_apply]
  cases h : w.spaces.importId ns d with
  | error e =>
      refine ⟨hw, fun e' he => ?_⟩
      cases he
      obtain ⟨-, rfl⟩ | ⟨-, -, -, -, rfl⟩ := Spaces.importId_eq_error.1 h
      · exact .of _
      · exact .of _
  | ok result =>
      refine ⟨?_, trivial⟩
      have hrefers : result.2 = w.spaces ∨
          w.spaces.Change (fun _ => True) (fun _ v => v.Traced given) result.2 :=
        Spaces.change_of_importId trivial h
      rcases hrefers with hsame | hchange
      · exact hw.congr hsame rfl rfl rfl rfl
      · exact hw.change hchange

namespace Compile

variable {stx form : Syntax} {parts : List Syntax}

theorem copies_depthOf (hstx : stx.Traced given) (scopes : Scopes) (rib : RibId) :
    Copies given (fun _ => True) (depthOf scopes rib stx) := by
  unfold depthOf
  split
  · exact .pure trivial
  · exact .failAt hstx _

theorem copies_operand (hform : form.Traced given) (hparts : ∀ part ∈ parts, part.Traced given)
    (position : Nat) : Copies given (Syntax.Traced given) (operand form parts position) := by
  unfold operand
  split
  · rename_i hpart
    exact .pure (hparts _ (List.mem_of_getElem? hpart))
  · exact .failAt hform _

theorem copies_definitionRef (ns : NamespaceId) (d : Definition) (name : String) :
    Copies given (Code.Traced given) (definitionRef ns d name) := by
  unfold definitionRef
  split
  · exact .pure .topRef
  · exact (copies_importId ns d).bind fun _ _ => .pure .importRef

theorem copies_reference (hstx : stx.Traced given) (ns : NamespaceId) (scopes : Scopes)
    (name : String) : Copies given (Code.Traced given) (reference ns scopes stx name) := by
  refine .getSpaces_bind fun w _ => ?_
  split
  · split
    · split
      · exact .pure (.freeRef hstx)
      · exact .fail (.atForm hstx _)
    · exact .fail (.atForm hstx _)
  · exact (copies_depthOf hstx scopes _).bind fun _ _ => .pure .localRef
  · exact copies_definitionRef ns _ name
  · exact copies_definitionRef ns _ name

theorem copies_definedAddress (hstx : stx.Traced given) (ns : NamespaceId) :
    Copies given (fun _ => True) (definedAddress ns stx) := by
  refine .getSpaces_bind fun w _ => ?_
  split
  · split
    · exact .pure trivial
    · exact .failAt hstx _
  · exact .failAt hstx _

theorem copies_enterScope {binders : List Syntax} (hbinders : ∀ stx ∈ binders, stx.Traced given)
    (scopes : Scopes) : Copies given (fun _ => True) (enterScope scopes binders) := by
  cases binders with
  | nil => exact .pure trivial
  | cons first rest =>
      refine .getSpaces_bind fun w _ => ?_
      split
      · exact .pure trivial
      · exact .failAt (List.forall_mem_cons.1 hbinders).1 _

theorem copies_clauses (hparts : ∀ part ∈ parts, part.Traced given) (fault : SyntaxFault) :
    Copies given (fun pairs => ∀ pair ∈ pairs, pair.1.Traced given ∧ pair.2.Traced given)
      (clauses fault parts) := by
  induction parts with
  | nil => exact .pure (by simp)
  | cons clause rest ih =>
      obtain ⟨hclause, hrest⟩ := List.forall_mem_cons.1 hparts
      have hsubforms := hclause.subforms
      rw [clauses]
      split
      · rename_i first second hpair
        rw [hpair] at hsubforms
        refine (ih hrest).bind fun pairs hpairs => .pure (List.forall_mem_cons.2 ⟨⟨?_, ?_⟩, hpairs⟩)
        · exact hsubforms first (by simp)
        · exact hsubforms second (by simp)
      · exact .failAt hclause _

section

variable {compile : Scopes → Syntax → RunM Code}
  (hcompile : ∀ {stx : Syntax}, stx.Traced given → ∀ scopes,
    Copies given (Code.Traced given) (compile scopes stx))
include hcompile

theorem copies_all (scopes : Scopes) (hparts : ∀ part ∈ parts, part.Traced given) :
    Copies given (fun codes => ∀ code ∈ codes, code.Traced given) (all compile scopes parts) := by
  induction parts with
  | nil => exact .pure (by simp)
  | cons stx rest ih =>
      obtain ⟨hstx, hrest⟩ := List.forall_mem_cons.1 hparts
      refine (hcompile hstx scopes).bind fun code hcode => (ih hrest).bind fun codes hcodes => ?_
      exact .pure (List.forall_mem_cons.2 ⟨hcode, hcodes⟩)

theorem copies_fields (scopes : Scopes) {items : List (String × Syntax)}
    (hitems : ∀ item ∈ items, item.2.Traced given) :
    Copies given (fun codes => ∀ code ∈ codes, code.2.Traced given)
      (fields compile scopes items) := by
  induction items with
  | nil => exact .pure (by simp)
  | cons item rest ih =>
      obtain ⟨hitem, hrest⟩ := List.forall_mem_cons.1 hitems
      refine (hcompile hitem scopes).bind fun code hcode => (ih hrest).bind fun codes hcodes => ?_
      exact .pure (List.forall_mem_cons.2 ⟨hcode, hcodes⟩)

theorem copies_pairs (scopes : Scopes) (hparts : ∀ part ∈ parts, part.Traced given) :
    Copies given (fun codes => ∀ code ∈ codes, code.1.Traced given ∧ code.2.Traced given)
      (pairs compile scopes parts) := by
  induction parts with
  | nil => exact .pure (by simp)
  | cons clause rest ih =>
      obtain ⟨hclause, hrest⟩ := List.forall_mem_cons.1 hparts
      have hsubforms := hclause.subforms
      rw [pairs]
      split
      · rename_i parameter value hpair
        rw [hpair] at hsubforms
        refine (hcompile (hsubforms parameter (by simp)) scopes).bind fun parameter hparameter => ?_
        refine (hcompile (hsubforms value (by simp)) scopes).bind fun value hvalue => ?_
        refine (ih hrest).bind fun codes hcodes => .pure ?_
        exact List.forall_mem_cons.2 ⟨⟨hparameter, hvalue⟩, hcodes⟩
      · exact .failAt hclause _

theorem copies_body (scopes : Scopes) (hparts : ∀ part ∈ parts, part.Traced given) :
    Copies given (Code.Traced given) (body compile scopes parts) := by
  rcases parts with _ | ⟨stx, _ | ⟨next, rest⟩⟩
  · exact .pure .void
  · exact hcompile (hparts stx (by simp)) scopes
  · exact (copies_all hcompile scopes hparts).bind fun codes hcodes => .pure (.sequence hcodes)

variable (hform : form.Traced given) (hparts : ∀ part ∈ parts, part.Traced given)
include hform hparts

omit hcompile hform in
theorem traced_drop (n : Nat) : ∀ part ∈ parts.drop n, part.Traced given :=
  fun part hpart => hparts part (List.mem_of_mem_drop hpart)

theorem copies_lambda (scopes : Scopes) (name : Option String) :
    Copies given (Code.Traced given) (lambda compile scopes form parts name) := by
  refine (copies_operand hform hparts 1).bind fun formals hformals => ?_
  have hbinders : ∀ stx ∈ (if formals.isIdentifier then [formals] else formals.subforms),
      stx.Traced given := by
    split
    · exact List.forall_mem_singleton.2 hformals
    · exact hformals.subforms
  refine (copies_enterScope hbinders scopes).bind fun inner _ => ?_
  refine (copies_body hcompile inner (traced_drop hparts 2)).bind fun code hcode => ?_
  exact .pure (.lambda hcode)

theorem copies_binding (scopes : Scopes) (recursive : Bool) :
    Copies given (Code.Traced given) (binding compile scopes form parts recursive) := by
  refine (copies_operand hform hparts 1).bind fun clauses hclauses => ?_
  refine (copies_clauses hclauses.subforms _).bind fun pairs hpairs => ?_
  have hbinders : ∀ stx ∈ pairs.map (·.1), stx.Traced given :=
    List.forall_mem_map.2 fun pair hpair => (hpairs pair hpair).1
  have hinits : ∀ stx ∈ pairs.map (·.2), stx.Traced given :=
    List.forall_mem_map.2 fun pair hpair => (hpairs pair hpair).2
  have hbody (inner : Scopes) := copies_body hcompile inner (traced_drop hparts 2)
  cases recursive with
  | true =>
      refine (copies_enterScope hbinders scopes).bind fun inner _ => ?_
      refine (copies_all hcompile inner hinits).bind fun inits hinits => ?_
      exact (hbody inner).bind fun code hcode => .pure (.letrec hinits hcode)
  | false =>
      refine (copies_all hcompile scopes hinits).bind fun inits hinits => ?_
      refine (copies_enterScope hbinders scopes).bind fun inner _ => ?_
      exact (hbody inner).bind fun code hcode => .pure (.letIn hinits hcode)

theorem copies_assignment (ns : NamespaceId) (scopes : Scopes) :
    Copies given (Code.Traced given) (assignment ns compile scopes form parts) := by
  refine (copies_operand hform hparts 1).bind fun target htarget => ?_
  refine (copies_operand hform hparts 2).bind fun value hvalue => ?_
  refine (hcompile hvalue scopes).bind fun value hvalue => ?_
  split
  · exact .failAt htarget _
  · refine .getSpaces_bind fun w _ => ?_
    split
    · exact (copies_depthOf htarget scopes _).bind fun _ _ => .pure (.localSet hvalue)
    · split
      · exact .pure (.topSet hvalue)
      · exact .fail (.atForm hform _)
    · exact .fail (.atForm hform _)
    · exact .fail (.atForm htarget _)

theorem copies_definition (ns : NamespaceId) (scopes : Scopes) :
    Copies given (Code.Traced given) (definition ns compile scopes form parts) := by
  refine (copies_operand hform hparts 1).bind fun target htarget => ?_
  refine (copies_definedAddress htarget ns).bind fun address _ => ?_
  refine (copies_operand hform hparts 2).bind fun value hvalue => .getSpaces_bind fun w _ => ?_
  cases hinner : lambdaParts? w.spaces value with
  | none => exact (hcompile hvalue scopes).bind fun code hcode => .pure (.define hcode)
  | some inner =>
      have hsubforms : ∀ part ∈ inner, part.Traced given := by
        have hvalue := hvalue.subforms
        rw [lambdaParts?] at hinner
        split at hinner
        · rename_i head rest hparts
          split at hinner
          · cases hinner
            exact hparts ▸ hvalue
          · cases hinner
        · cases hinner
      refine (copies_lambda hcompile hvalue hsubforms scopes _).bind fun code hcode => ?_
      exact .pure (.define hcode)

/-- One case for each core form. -/
theorem copies_core (ns : NamespaceId) (scopes : Scopes) (f : CoreForm) :
    Copies given (Code.Traced given) (core ns compile scopes f form parts) := by
  have hoperand := copies_operand hform hparts
  cases f with
  | quote =>
      refine (hoperand 1).bind fun stx _ => ?_
      exact (copies_stampValue stx.traced_toDatum).bind fun v hv => .pure (.constant hv)
  | quoteSyntax =>
      refine (hoperand 1).bind fun stx hstx => ?_
      exact (copies_stampSyntax hstx).bind fun s hs => .pure (.constant (.stx hs))
  | ifForm =>
      refine (hoperand 1).bind fun test htest => (hcompile htest scopes).bind fun test htest => ?_
      refine (hoperand 2).bind fun stx hstx => (hcompile hstx scopes).bind fun code hcode => ?_
      refine (hoperand 3).bind fun stx hstx => (hcompile hstx scopes).bind fun other hother => ?_
      exact .pure (.branch htest hcode hother)
  | begin => exact copies_body hcompile scopes (traced_drop hparts 1)
  | lambda => exact copies_lambda hcompile hform hparts scopes none
  | letForm => exact copies_binding hcompile hform hparts scopes false
  | letrec => exact copies_binding hcompile hform hparts scopes true
  | set => exact copies_assignment hcompile hform hparts ns scopes
  | define => exact copies_definition hcompile hform hparts ns scopes
  | defineSyntax =>
      refine (hoperand 1).bind fun target htarget => ?_
      refine (copies_definedAddress htarget ns).bind fun address _ => ?_
      refine (hoperand 2).bind fun value hvalue => (hcompile hvalue scopes).bind fun code hcode => ?_
      exact .pure (.defineSyntax hcode hform)
  | parameterize =>
      refine (hoperand 1).bind fun clauses hclauses => ?_
      refine (copies_pairs hcompile scopes hclauses.subforms).bind fun bindings hbindings => ?_
      refine (copies_body hcompile scopes (traced_drop hparts 2)).bind fun code hcode => ?_
      have hparameters := fun b hb => (hbindings b hb).1
      exact .pure (.parameterize hparameters (fun b hb => (hbindings b hb).2) hcode)
  | moduleForm | require | provide => exact .pure .void

omit hform hparts in
theorem copies_form (hstx : stx.Traced given) (ns : NamespaceId) (scopes : Scopes) :
    Copies given (Code.Traced given) (Compile.form ns compile scopes stx) := by
  rcases stx with ⟨c, a⟩ | ⟨c, shape, items⟩ | ⟨c, items⟩
  · cases a with
    | symbol name => exact copies_reference hstx ns scopes name
    | _ => exact .pure (.constant .atom)
  · cases shape with
    | list =>
        exact (copies_all hcompile scopes hstx.elements).bind fun _ hcodes =>
          .pure (.listLiteral hcodes)
    | sexp =>
        have hsubforms := hstx.subforms
        rw [Compile.form]
        split
        · exact .failAt hstx _
        · rename_i head operands hparts
          rw [hparts] at hsubforms
          refine .getSpaces_bind fun w _ => ?_
          split
          · exact copies_core hcompile hstx hsubforms ns scopes _
          · obtain ⟨hhead, hoperands⟩ := List.forall_mem_cons.1 hsubforms
            refine (hcompile hhead scopes).bind fun operator hoperator => ?_
            refine (copies_all hcompile scopes hoperands).bind fun args hargs => ?_
            exact .pure (.apply hoperator hargs hstx)
  · exact (copies_fields hcompile scopes hstx.allFields).bind fun _ hcodes =>
      .pure (.recordLiteral hcodes)

end

theorem copies_compileAt (ns : NamespaceId) (fuel : Nat) (hstx : stx.Traced given)
    (scopes : Scopes) : Copies given (Code.Traced given) (compileAt ns fuel scopes stx) := by
  induction fuel generalizing stx scopes with
  | zero => exact .exhausted
  | succ fuel ih => exact copies_form (fun hstx scopes => ih hstx scopes) hstx ns scopes

end Compile

theorem copies_compile (ns : NamespaceId) {stx : Syntax} (hstx : stx.Traced given) :
    Copies given (Code.Traced given) (compile ns stx) :=
  Compile.copies_compileAt ns _ hstx []

end HygienicLisp
