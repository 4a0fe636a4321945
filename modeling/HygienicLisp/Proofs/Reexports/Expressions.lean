import HygienicLisp.Compile
import HygienicLisp.Expansion.Expand
import HygienicLisp.Proofs.Evaluation.Surroundings

/-!
# What expressions leave alone

An expression is expanded, compiled and evaluated without a definition, an import or a module being
added.  Expansion draws marks and ribs and runs transformers, compilation takes short names and draws
labels, and evaluation stores values.  The cells of the namespaces, the registry, the modules being
loaded, the list of what is provided and the runtime are afterwards what they were before, however it
ends (`World.Undisturbed`).

Main statements: `tidy_expand` and `tidy_compile`, by one lemma for each form.
-/

namespace HygienicLisp

/-- What expressions leave as it is. -/
structure World.Undisturbed (w w' : World) : Prop where
  cells : w'.spaces.cells = w.spaces.cells
  registry : w'.registry = w.registry
  loading : w'.loading = w.loading
  provides : w'.provides = w.provides
  runtime : w'.runtime = w.runtime

namespace World.Undisturbed

variable {w w₁ w₂ : World}

theorem refl (w : World) : w.Undisturbed w := ⟨rfl, rfl, rfl, rfl, rfl⟩

theorem trans (h : w.Undisturbed w₁) (h' : w₁.Undisturbed w₂) : w.Undisturbed w₂ where
  cells := h'.cells.trans h.cells
  registry := h'.registry.trans h.registry
  loading := h'.loading.trans h.loading
  provides := h'.provides.trans h.provides
  runtime := h'.runtime.trans h.runtime

theorem of_surroundings (h : w₁.surroundings = w.surroundings) : w.Undisturbed w₁ := by
  refine ⟨World.cells_eq h, ?_, ?_, ?_, ?_⟩
  · exact (congrArg World.registry h :)
  · exact (congrArg World.loading h :)
  · exact (congrArg World.provides h :)
  · exact (congrArg World.runtime h :)

end World.Undisturbed

/-- The computation leaves every world undisturbed, however it ends. -/
def RunM.Tidy {α : Type} (x : RunM α) : Prop := ∀ w : World, w.Undisturbed (x.leaves w)

namespace RunM.Tidy

variable {α β : Type}

theorem of_stays {x : RunM α} (h : x.Stays) : x.Tidy := fun w => .of_surroundings (h w)

theorem pure (a : α) : (pure a : RunM α).Tidy := fun w => .refl w

theorem get : (get : RunM World).Tidy := fun w => .refl w

theorem getSpaces : getSpaces.Tidy := fun w => .refl w

theorem fail (e : Error) : (RunM.fail e : RunM α).Tidy := fun w => .refl w

theorem exhausted : (RunM.exhausted : RunM α).Tidy := fun w => .refl w

theorem ofExcept (r : Except Error α) : (RunM.ofExcept r).Tidy := of_stays (.ofExcept r)

theorem modifyGet {f : World → α × World} (h : ∀ w : World, w.Undisturbed (f w).2) :
    (modifyGet f : RunM α).Tidy := h

theorem bind {x : RunM α} {f : α → RunM β} (hx : x.Tidy) (hf : ∀ a, (f a).Tidy) :
    (x >>= f).Tidy :=
  leaves_bind_of_trans (R := World.Undisturbed) .trans hx hf

/-- A computation that fails at once. -/
theorem fail_bind {e : Error} {f : α → RunM β} : (RunM.fail e >>= f).Tidy := fun w => .refl w

theorem mapError {x : RunM α} (hx : x.Tidy) (f : Error → Error) : (RunM.mapError f x).Tidy := by
  intro w
  rw [leaves_mapError]
  exact hx w

theorem andThen {x : RunM α} (hx : x.Tidy) {leave : World → World}
    (hleave : ∀ w : World, w.Undisturbed (leave w)) : (x.andThen leave).Tidy := by
  intro w
  rw [leaves_andThen]
  exact (hx w).trans (hleave _)

/-- A check before the rest. -/
theorem check {c : Prop} {_ : Decidable c} {stx : Syntax} {fault : SyntaxFault} {x : RunM α}
    (hx : x.Tidy) : (if c then (RunM.failAt stx fault : RunM PUnit) >>= fun _ => x else x).Tidy := by
  split
  · exact fail_bind
  · exact hx

end RunM.Tidy

open RunM

/-! ## Transformers -/

theorem tidy_descend (depth : Nat) (form : Syntax) : (descend depth form).Tidy := by
  refine Tidy.get.bind fun w => ?_
  split
  · split
    · exact .fail _
    · exact .pure _
  · exact .pure _

theorem tidy_kernelIdentifier (name : String) (site : Syntax) : (kernelIdentifier name site).Tidy :=
  Tidy.get.bind fun _ => .pure _

theorem tidy_resolveModule (path : String) (requester : Option ModuleId) :
    (resolveModule path requester).Tidy := by
  refine Tidy.get.bind fun w => ?_
  dsimp only
  split
  · exact .pure _
  · exact .ofExcept _

theorem tidy_newRib (binders : List Syntax) : (newRib binders).Tidy := by
  refine Tidy.bind (.modifyGet fun w => ⟨rfl, rfl, rfl, rfl, rfl⟩) fun id => ?_
  exact Tidy.getSpaces.bind fun _ => .ofExcept _

theorem tidy_invoke (fuel : Nat) (id procedureId : ObjectId) (p : Procedure) (form : Syntax) :
    (invoke fuel id procedureId p form).Tidy := by
  refine Tidy.bind (.modifyGet fun w => ⟨rfl, rfl, rfl, rfl, rfl⟩) fun mark => ?_
  refine Tidy.get.bind fun w => ?_
  refine Tidy.bind (.of_stays (stampSyntax_stays _)) fun input => ?_
  refine Tidy.bind (.mapError (.of_stays (applyProcedure_stays fuel _ _)) _) fun output => ?_
  split
  · exact .pure _
  · exact .fail _

theorem tidy_partialExpand (fuel depth : Nat) (form : Syntax) :
    (partialExpand fuel depth form).Tidy := by
  induction fuel generalizing depth form with
  | zero => exact .exhausted
  | succ fuel ih =>
      rw [partialExpand]
      split
      · exact .pure _
      · refine .bind .getSpaces fun spaces => ?_
        split
        · refine (tidy_descend depth form).bind fun depth => ?_
          exact (tidy_invoke _ _ _ _ form).bind fun form => ih depth form
        · exact .pure _
        · exact .pure _
        · exact .pure _

/-! ## Core forms -/

namespace Expansion

theorem tidy_expectCount (form : Syntax) (parts : List Syntax) (count : Nat) (expected : Operands) :
    (expectCount form parts count expected).Tidy := by
  rw [expectCount]
  split
  · exact .pure ()
  · exact .fail _

theorem tidy_expectBody (form : Syntax) (parts : List Syntax) (first : Nat) :
    (expectBody form parts first).Tidy := by
  rw [expectBody]
  split
  · exact .pure ()
  · exact .fail _

theorem tidy_bindingClauses (clauses : Syntax) : (bindingClauses clauses).Tidy := by
  have hparse (items : List Syntax) : (parseClauses items).Tidy := by
    induction items with
    | nil => exact .pure _
    | cons clause rest ih =>
        rw [parseClauses]
        split
        · split
          · exact ih.bind fun _ => .pure _
          · exact .fail _
        · exact .fail _
  rw [bindingClauses]
  split
  · exact .fail _
  · exact hparse _

theorem tidy_definitionParts (form : Syntax) (parts : List Syntax) :
    (definitionParts form parts).Tidy := by
  have hprocedure (signature : Syntax) (body : List Syntax) :
      (procedureParts form signature body).Tidy := by
    unfold procedureParts
    split
    · split
      · exact .fail _
      · exact .check ((tidy_kernelIdentifier "lambda" form).bind fun _ => .pure _)
    · exact .fail _
  unfold definitionParts
  split
  · split
    · exact .pure _
    · exact hprocedure _ _
  · split
    · exact .pure _
    · exact hprocedure _ _
  · exact hprocedure _ _
  · exact .fail _

section

variable {expand : ExpandContext → Syntax → RunM Syntax}

theorem tidy_expandEach (hexpand : ∀ stx, (expand .expression stx).Tidy) (stxs : List Syntax) :
    (expandEach expand .expression stxs).Tidy := by
  induction stxs with
  | nil => exact .pure _
  | cons stx rest ih => exact (hexpand stx).bind fun _ => ih.bind fun _ => .pure _

theorem tidy_expandFields (hexpand : ∀ stx, (expand .expression stx).Tidy)
    (fields : List (String × Syntax)) : (expandFields expand fields).Tidy := by
  induction fields with
  | nil => exact .pure _
  | cons field rest ih => exact (hexpand field.2).bind fun _ => ih.bind fun _ => .pure _

theorem tidy_lambda (hexpand : ∀ stx, (expand .expression stx).Tidy) (form : Syntax)
    (parts : List Syntax) : (Expansion.lambda expand form parts).Tidy := by
  unfold Expansion.lambda
  split
  · refine (tidy_expectBody form _ 2).bind fun _ => ?_
    split
    · exact .fail _
    · refine (tidy_newRib _).bind fun rib => ?_
      exact (tidy_expandEach hexpand _).bind fun _ => .pure _
  · exact .fail _

theorem tidy_namedLet (hexpand : ∀ stx, (expand .expression stx).Tidy) (form : Syntax)
    (parts : List Syntax) : (namedLet expand form parts).Tidy := by
  unfold namedLet
  split
  · refine (tidy_expectBody form _ 3).bind fun _ => ?_
    refine (tidy_bindingClauses _).bind fun pairs => ?_
    refine (tidy_kernelIdentifier "lambda" form).bind fun lambdaHead => ?_
    refine (tidy_kernelIdentifier "letrec" form).bind fun letrecHead => ?_
    exact hexpand _
  · exact .fail _

theorem tidy_letForm (hexpand : ∀ stx, (expand .expression stx).Tidy) (form : Syntax)
    (parts : List Syntax) : (letForm expand form parts).Tidy := by
  unfold letForm
  split
  · split
    · exact tidy_namedLet hexpand form _
    · refine (tidy_expectBody form _ 2).bind fun _ => ?_
      refine (tidy_bindingClauses _).bind fun pairs => ?_
      refine (tidy_expandEach hexpand _).bind fun inits => ?_
      refine (tidy_newRib _).bind fun rib => ?_
      exact (tidy_expandEach hexpand _).bind fun _ => .pure _
  · exact .fail _

theorem tidy_letrec (hexpand : ∀ stx, (expand .expression stx).Tidy) (form : Syntax)
    (parts : List Syntax) : (letrec expand form parts).Tidy := by
  unfold letrec
  split
  · refine (tidy_expectBody form _ 2).bind fun _ => ?_
    refine (tidy_bindingClauses _).bind fun pairs => ?_
    refine (tidy_newRib _).bind fun rib => ?_
    refine (tidy_expandEach hexpand _).bind fun inits => ?_
    exact (tidy_expandEach hexpand _).bind fun _ => .pure _
  · exact .fail _

theorem tidy_parameterClauses (hexpand : ∀ stx, (expand .expression stx).Tidy)
    (items : List Syntax) : (parameterClauses expand items).Tidy := by
  induction items with
  | nil => exact .pure _
  | cons clause rest ih =>
      rw [parameterClauses]
      split
      · refine (hexpand _).bind fun parameter => (hexpand _).bind fun value => ?_
        exact ih.bind fun _ => .pure _
      · exact .fail _

theorem tidy_parameterize (hexpand : ∀ stx, (expand .expression stx).Tidy) (form : Syntax)
    (parts : List Syntax) : (parameterize expand form parts).Tidy := by
  unfold parameterize
  split
  · refine (tidy_expectBody form _ 2).bind fun _ => ?_
    split
    · exact .fail _
    · refine (tidy_parameterClauses hexpand _).bind fun items => ?_
      exact (tidy_expandEach hexpand _).bind fun _ => .pure _
  · exact .fail _

/-- A core form that stands for an expression.  The other ones are refused there. -/
theorem tidy_core (hexpand : ∀ stx, (expand .expression stx).Tidy) (loader : Loader)
    (ns : NamespaceId) (f : CoreForm) (form : Syntax) (parts : List Syntax) :
    (core expand loader ns f form parts .expression).Tidy := by
  cases f with
  | quote | quoteSyntax => exact (tidy_expectCount form parts 2 _).bind fun _ => .pure _
  | ifForm =>
      refine (tidy_expectCount form parts 4 _).bind fun _ => ?_
      exact (tidy_expandEach hexpand _).bind fun _ => .pure _
  | begin => exact (tidy_expandEach hexpand _).bind fun _ => .pure _
  | lambda => exact tidy_lambda hexpand form parts
  | letForm => exact tidy_letForm hexpand form parts
  | letrec => exact tidy_letrec hexpand form parts
  | set =>
      refine (tidy_expectCount form parts 3 _).bind fun _ => ?_
      split
      · exact .check ((hexpand _).bind fun _ => .pure _)
      · exact .fail _
  | parameterize => exact tidy_parameterize hexpand form parts
  | define | defineSyntax | moduleForm | require | provide => exact .fail_bind

end

section

variable {expand : Nat → ExpandContext → Syntax → RunM Syntax}

theorem tidy_expandPlain (hexpand : ∀ depth stx, (expand depth .expression stx).Tidy) (depth : Nat)
    (form : Syntax) : (expandPlain expand depth form).Tidy := by
  unfold expandPlain
  split
  · refine Tidy.get.bind fun w => ?_
    split
    · exact .fail _
    · exact .fail _
    · exact .pure _
  · exact .pure _
  · exact (tidy_expandEach (hexpand depth) _).bind fun _ => .pure _
  · exact (tidy_expandFields (hexpand depth) _).bind fun _ => .pure _

/-- A sexp, by induction on the number of transformers that may be run at its head. -/
theorem tidy_expandSexp (hexpand : ∀ depth stx, (expand depth .expression stx).Tidy)
    (loader : Loader) (ns : NamespaceId) (fuel depth : Nat) (form : Syntax) :
    (expandSexp ns expand loader fuel depth .expression form).Tidy := by
  induction fuel generalizing depth form with
  | zero => exact .exhausted
  | succ fuel ih =>
      rw [expandSexp]
      split
      · exact .fail _
      · refine Tidy.getSpaces.bind fun spaces => ?_
        split
        · refine (tidy_descend depth form).bind fun depth => ?_
          refine (tidy_invoke _ _ _ _ form).bind fun form => ?_
          split
          · exact ih depth form
          · exact tidy_expandPlain hexpand depth form
        · exact tidy_core (hexpand depth) loader ns _ form _
        · exact (tidy_expandEach (hexpand depth) _).bind fun _ => .pure _

end

/-- The expansion of an expression. -/
theorem tidy_expand (loader : Loader) (ns : NamespaceId) (fuel depth : Nat) (form : Syntax) :
    (expand loader ns fuel depth .expression form).Tidy := by
  induction fuel generalizing depth form with
  | zero => exact .exhausted
  | succ fuel ih =>
      refine (tidy_descend depth form).bind fun depth => .mapError ?_ _
      split
      · exact tidy_expandSexp ih loader ns fuel depth form
      · exact tidy_expandPlain ih depth form

end Expansion

/-! ## Compilation -/

theorem tidy_importId (ns : NamespaceId) (d : Definition) : (importId ns d).Tidy := by
  intro w
  rw [RunM.leaves, importId_apply]
  cases h : w.spaces.importId ns d with
  | error e => exact .refl w
  | ok result => exact ⟨(Spaces.importId_reads h).1, rfl, rfl, rfl, rfl⟩

namespace Compile

theorem tidy_depthOf (scopes : Scopes) (rib : RibId) (stx : Syntax) :
    (depthOf scopes rib stx).Tidy := by
  rw [depthOf]
  split
  · exact .pure _
  · exact .fail _

theorem tidy_operand (form : Syntax) (parts : List Syntax) (position : Nat) :
    (operand form parts position).Tidy := by
  rw [operand]
  split
  · exact .pure _
  · exact .fail _

theorem tidy_definitionRef (ns : NamespaceId) (d : Definition) (name : String) :
    (definitionRef ns d name).Tidy := by
  rw [definitionRef]
  split
  · exact .pure _
  · exact (tidy_importId ns d).bind fun _ => .pure _

theorem tidy_reference (ns : NamespaceId) (scopes : Scopes) (stx : Syntax) (name : String) :
    (reference ns scopes stx name).Tidy := by
  refine Tidy.getSpaces.bind fun spaces => ?_
  split
  · split
    · split
      · exact .pure _
      · exact .fail _
    · exact .fail _
  · exact (tidy_depthOf _ _ _).bind fun _ => .pure _
  · exact tidy_definitionRef _ _ _
  · exact tidy_definitionRef _ _ _

theorem tidy_definedAddress (ns : NamespaceId) (stx : Syntax) : (definedAddress ns stx).Tidy := by
  refine Tidy.getSpaces.bind fun spaces => ?_
  split
  · split
    · exact .pure _
    · exact .fail _
  · exact .fail _

theorem tidy_enterScope (scopes : Scopes) (binders : List Syntax) :
    (enterScope scopes binders).Tidy := by
  unfold enterScope
  split
  · exact .pure _
  · refine Tidy.getSpaces.bind fun spaces => ?_
    split
    · exact .pure _
    · exact .fail _

theorem tidy_clauses (fault : SyntaxFault) (items : List Syntax) : (clauses fault items).Tidy := by
  induction items with
  | nil => exact .pure _
  | cons clause rest ih =>
      rw [clauses]
      split
      · exact ih.bind fun _ => .pure _
      · exact .fail _

section

variable {ns : NamespaceId} {compile : Scopes → Syntax → RunM Code}
  (hcompile : ∀ scopes stx, (compile scopes stx).Tidy)
include hcompile

theorem tidy_all (scopes : Scopes) (stxs : List Syntax) : (all compile scopes stxs).Tidy := by
  induction stxs with
  | nil => exact .pure _
  | cons stx rest ih => exact (hcompile scopes stx).bind fun _ => ih.bind fun _ => .pure _

theorem tidy_fields (scopes : Scopes) (items : List (String × Syntax)) :
    (fields compile scopes items).Tidy := by
  induction items with
  | nil => exact .pure _
  | cons field rest ih => exact (hcompile scopes field.2).bind fun _ => ih.bind fun _ => .pure _

theorem tidy_pairs (scopes : Scopes) (items : List Syntax) : (pairs compile scopes items).Tidy := by
  induction items with
  | nil => exact .pure _
  | cons clause rest ih =>
      rw [pairs]
      split
      · refine (hcompile scopes _).bind fun _ => (hcompile scopes _).bind fun _ => ?_
        exact ih.bind fun _ => .pure _
      · exact .fail _

theorem tidy_body (scopes : Scopes) (forms : List Syntax) : (body compile scopes forms).Tidy := by
  unfold body
  split
  · exact .pure _
  · exact hcompile scopes _
  · exact (tidy_all hcompile scopes _).bind fun _ => .pure _

theorem tidy_lambda (scopes : Scopes) (form : Syntax) (parts : List Syntax) (name : Option String) :
    (Compile.lambda compile scopes form parts name).Tidy := by
  refine (tidy_operand form parts 1).bind fun formals => ?_
  refine (tidy_enterScope scopes _).bind fun inner => ?_
  exact (tidy_body hcompile inner _).bind fun _ => .pure _

theorem tidy_binding (scopes : Scopes) (form : Syntax) (parts : List Syntax) (recursive : Bool) :
    (binding compile scopes form parts recursive).Tidy := by
  refine (tidy_operand form parts 1).bind fun clauses => ?_
  refine (tidy_clauses _ _).bind fun pairs => ?_
  dsimp only
  split
  · refine (tidy_enterScope scopes _).bind fun inner => ?_
    refine (tidy_all hcompile inner _).bind fun inits => ?_
    exact (tidy_body hcompile inner _).bind fun _ => .pure _
  · refine (tidy_all hcompile scopes _).bind fun inits => ?_
    refine (tidy_enterScope scopes _).bind fun inner => ?_
    exact (tidy_body hcompile inner _).bind fun _ => .pure _

theorem tidy_assignment (scopes : Scopes) (form : Syntax) (parts : List Syntax) :
    (assignment ns compile scopes form parts).Tidy := by
  refine (tidy_operand form parts 1).bind fun target => ?_
  refine (tidy_operand form parts 2).bind fun value => ?_
  refine (hcompile scopes value).bind fun code => ?_
  split
  · exact .fail _
  · refine Tidy.getSpaces.bind fun spaces => ?_
    split
    · exact (tidy_depthOf _ _ _).bind fun _ => .pure _
    · split
      · exact .pure _
      · exact .fail _
    · exact .fail _
    · exact .fail _

theorem tidy_definition (scopes : Scopes) (form : Syntax) (parts : List Syntax) :
    (definition ns compile scopes form parts).Tidy := by
  refine (tidy_operand form parts 1).bind fun target => ?_
  refine (tidy_definedAddress ns target).bind fun place => ?_
  refine (tidy_operand form parts 2).bind fun value => ?_
  refine Tidy.getSpaces.bind fun spaces => ?_
  split
  · exact (tidy_lambda hcompile scopes _ _ _).bind fun _ => .pure _
  · exact (hcompile scopes _).bind fun _ => .pure _

/-- One case for each core form. -/
theorem tidy_core (scopes : Scopes) (f : CoreForm) (form : Syntax) (parts : List Syntax) :
    (core ns compile scopes f form parts).Tidy := by
  cases f with
  | quote =>
      refine (tidy_operand form parts 1).bind fun datum => ?_
      exact Tidy.bind (.modifyGet fun w => ⟨rfl, rfl, rfl, rfl, rfl⟩) fun _ => .pure _
  | quoteSyntax =>
      refine (tidy_operand form parts 1).bind fun datum => ?_
      exact Tidy.bind (.of_stays (stampSyntax_stays _)) fun _ => .pure _
  | ifForm =>
      refine (tidy_operand form parts 1).bind fun _ => (hcompile scopes _).bind fun _ => ?_
      refine (tidy_operand form parts 2).bind fun _ => (hcompile scopes _).bind fun _ => ?_
      refine (tidy_operand form parts 3).bind fun _ => (hcompile scopes _).bind fun _ => .pure _
  | begin => exact tidy_body hcompile scopes _
  | lambda => exact tidy_lambda hcompile scopes form parts none
  | letForm => exact tidy_binding hcompile scopes form parts false
  | letrec => exact tidy_binding hcompile scopes form parts true
  | set => exact tidy_assignment hcompile scopes form parts
  | define => exact tidy_definition hcompile scopes form parts
  | defineSyntax =>
      refine (tidy_operand form parts 1).bind fun target => ?_
      refine (tidy_definedAddress ns target).bind fun place => ?_
      exact (tidy_operand form parts 2).bind fun _ => (hcompile scopes _).bind fun _ => .pure _
  | parameterize =>
      refine (tidy_operand form parts 1).bind fun clauses => ?_
      refine (tidy_pairs hcompile scopes _).bind fun bindings => ?_
      exact (tidy_body hcompile scopes _).bind fun _ => .pure _
  | moduleForm | require | provide => exact .pure _

theorem tidy_form (scopes : Scopes) (stx : Syntax) : (form ns compile scopes stx).Tidy := by
  unfold form
  split
  · exact tidy_reference ns scopes _ _
  · exact .pure _
  · exact (tidy_all hcompile scopes _).bind fun _ => .pure _
  · exact (tidy_fields hcompile scopes _).bind fun _ => .pure _
  · split
    · exact .fail _
    · refine Tidy.getSpaces.bind fun spaces => ?_
      split
      · exact tidy_core hcompile scopes _ _ _
      · refine (hcompile scopes _).bind fun operator => ?_
        exact (tidy_all hcompile scopes _).bind fun _ => .pure _

end

theorem tidy_compileAt (ns : NamespaceId) (fuel : Nat) (scopes : Scopes) (stx : Syntax) :
    (compileAt ns fuel scopes stx).Tidy := by
  induction fuel generalizing scopes stx with
  | zero => exact .exhausted
  | succ fuel ih => exact tidy_form ih scopes stx

end Compile

/-- The compilation of any form. -/
theorem tidy_compile (ns : NamespaceId) (stx : Syntax) : (compile ns stx).Tidy :=
  Compile.tidy_compileAt ns _ [] stx

end HygienicLisp
