import HygienicLisp.Proofs.ModuleScope.Language

/-!
# Modules of procedure definitions

A definition of a procedure is `(define ID (lambda ...))` or `(define (ID ...) ...)`.  The first pass
over a body of such brings each into the shape `(define ID EXPR)` and reserves an address for its name.
Whether it can does not depend on the order of the definitions.

Main statements: `firstPass_prepared` and `prepared_of_firstPass`, which say when the pass ends well and
what it leaves.
-/

namespace HygienicLisp

open Expansion

namespace Syntax

/-- The form has no lexical context, like what is read from a text. -/
def Unscoped (stx : Syntax) : Prop := stx.Carries (fun _ => False) fun _ => False

/-- The name that a form defines if it is `(define ID (lambda ...))` or `(define (ID ...) ...)`. -/
def procedureName? (form : Syntax) : Option String :=
  match form.subforms with
  | head :: target :: body =>
    if head.symbol? ≠ some CoreForm.define.name then none
    else if target.isIdentifier then
      match body with
      | [value] =>
        if (value.subforms.head?).bind symbol? = some CoreForm.lambda.name then target.symbol? else none
      | _ => none
    else (target.subforms.head?).bind symbol?
  | _ => none

/-- The form is a definition of a procedure. -/
inductive DefinesProcedure (name : String) (form : Syntax) : Prop
  | value {head target value first : Syntax} {rest : List Syntax}
      (hparts : form.subforms = [head, target, value])
      (hhead : head.symbol? = some CoreForm.define.name) (htarget : target.symbol? = some name)
      (hvalue : value.subforms = first :: rest) (hfirst : first.symbol? = some CoreForm.lambda.name)
  | signature {head signature target : Syntax} {formals body : List Syntax}
      (hparts : form.subforms = head :: signature :: body)
      (hhead : head.symbol? = some CoreForm.define.name)
      (hsignature : signature.subforms = target :: formals) (htarget : target.symbol? = some name)

theorem definesProcedure_of_name {form : Syntax} {name : String}
    (h : form.procedureName? = some name) : form.DefinesProcedure name := by
  unfold procedureName? at h
  split at h
  · rename_i head target body hparts
    split at h
    · cases h
    · rename_i hhead
      rw [not_not] at hhead
      split at h
      · split at h
        · split at h
          · rename_i value hfirst
            obtain ⟨first, hfirst, hname⟩ := Option.bind_eq_some_iff.1 hfirst
            obtain ⟨rest, hvalue⟩ := List.head?_eq_some_iff.1 hfirst
            exact .value hparts hhead h hvalue hname
          · cases h
        · cases h
      · obtain ⟨first, hfirst, hname⟩ := Option.bind_eq_some_iff.1 h
        obtain ⟨formals, hsignature⟩ := List.head?_eq_some_iff.1 hfirst
        exact .signature hparts hhead hsignature hname
  · cases h

/-! ## Forms without context -/

theorem Unscoped.bareName? {stx : Syntax} (h : stx.Unscoped) : stx.bareName? = stx.symbol? := by
  have hwraps : stx.wraps = [] := List.eq_nil_iff_forall_not_mem.2 (Carries.wraps h)
  have hbinding : stx.context.binding = none :=
    Option.eq_none_iff_forall_ne_some.2 fun b hb => Carries.binding h b hb
  rw [Syntax.bareName?, hwraps, hbinding]
  rfl

theorem Unscoped.subforms {stx : Syntax} (h : stx.Unscoped) : ∀ part ∈ stx.subforms, part.Unscoped :=
  Carries.subforms h

/-- The form has the context of a namespace and no other. -/
def InSpace (ns : NamespaceId) (stx : Syntax) : Prop := stx.Carries (· = .space ns) fun _ => False

theorem Unscoped.inSpace {stx : Syntax} (h : stx.Unscoped) (ns : NamespaceId) :
    (stx.introduce ns).InSpace ns :=
  Carries.addWrap (Carries.mono h (fun _ => False.elim) fun _ => id) rfl

/-- The form is one of the module and mentions no numbers. -/
structure Unexpanded (ns kernel : NamespaceId) (stx : Syntax) : Prop where
  isLocal : ∀ ρ : Renumbering, ρ.space = ns → stx.Local ρ kernel
  same : ∀ ρ : Renumbering, stx.renumber ρ = stx

theorem InSpace.unexpanded {ns : NamespaceId} {stx : Syntax} (h : stx.InSpace ns)
    (kernel : NamespaceId) : stx.Unexpanded ns kernel := by
  have hwritten {ρ : Renumbering} (hρ : ρ.space = ns) {wraps : List Wrap}
      (hwraps : ∀ wrap ∈ wraps, wrap = .space ns) : ∀ wrap ∈ wraps, wrap.Written ρ kernel := by
    intro wrap hwrap
    rw [hwraps wrap hwrap]
    exact ⟨hρ.symm, nofun, nofun⟩
  have hunbound {c : Context} (hbinding : ∀ b ∈ c.binding, False) : c.binding = none :=
    Option.eq_none_iff_forall_ne_some.2 hbinding
  -- A renumbering changes ribs and addresses, and here is neither of them.
  have hcontext {ρ : Renumbering} {c : Context} (hwraps : ∀ wrap ∈ c.wraps, wrap = .space ns)
      (hbinding : ∀ b ∈ c.binding, False) : c.renumber ρ = c := by
    have hmap : c.wraps.map (Wrap.renumber ρ) = c.wraps := by
      refine (List.map_congr_left fun wrap hwrap => ?_).trans (List.map_id _)
      rw [hwraps wrap hwrap]
      rfl
    obtain ⟨wraps, span, notes, binding, label⟩ := c
    obtain rfl : binding = none := hunbound hbinding
    rw [Context.renumber, hmap]
    rfl
  induction h with
  | atom hwraps hbinding =>
      refine ⟨fun ρ hρ => .atom (hwritten hρ hwraps) (hunbound hbinding), fun ρ => ?_⟩
      rw [renumber_atom, hcontext hwraps hbinding]
  | @group c shape items hwraps hbinding _ ih =>
      refine ⟨fun ρ hρ => .group (hwritten hρ hwraps) (hunbound hbinding) fun stx hstx =>
        (ih stx hstx).isLocal ρ hρ, fun ρ => ?_⟩
      rw [renumber_group, hcontext hwraps hbinding]
      exact congrArg _ ((List.map_congr_left fun stx hstx => (ih stx hstx).same ρ).trans (List.map_id _))
  | @record c fields hwraps hbinding _ ih =>
      refine ⟨fun ρ hρ => .record (hwritten hρ hwraps) (hunbound hbinding) fun field hfield =>
        (ih field hfield).isLocal ρ hρ, fun ρ => ?_⟩
      rw [renumber_record, hcontext hwraps hbinding]
      refine congrArg _ ((List.map_congr_left fun field hfield => ?_).trans (List.map_id _))
      exact Prod.ext rfl ((ih field hfield).same ρ)

theorem Unexpanded.rebuildSexp {ns kernel : NamespaceId} {items : List Syntax}
    (h : ∀ stx ∈ items, stx.Unexpanded ns kernel) (site : Syntax) :
    (site.rebuildSexp items).Unexpanded ns kernel := by
  refine ⟨fun ρ hρ => local_group (fun stx hstx => (h stx hstx).isLocal ρ hρ) _ _, fun ρ => ?_⟩
  rw [Syntax.rebuildSexp, renumber_group]
  exact congrArg _ ((List.map_congr_left fun stx hstx => (h stx hstx).same ρ).trans (List.map_id _))

/-- The identifier for a name of the kernel, at the place of a form. -/
def ofKernel (kernel : NamespaceId) (name : String) (site : Syntax) : Syntax :=
  (atom { span := site.span } (.symbol name)).addWrap (.moduleRename kernel)

theorem unexpanded_ofKernel {ns kernel : NamespaceId} {name : String} (hname : name ∈ keywords)
    (site : Syntax) : (ofKernel kernel name site).Unexpanded ns kernel := by
  refine ⟨fun ρ hρ => .keyword hname (List.forall_mem_singleton.2 rfl) rfl, fun ρ => ?_⟩
  rw [ofKernel, renumber_addWrap, renumber_atom]
  rfl

/-! ## Definitions in one shape -/

/-- The parts of a definition `(define ID EXPR)`. -/
structure Normal where
  head : Syntax
  target : Syntax
  value : Syntax

/-- The definition in that shape, with the cell recorded in which its name is defined. -/
def Normal.recorded (n : Normal) (site : Syntax) (c : CellRef) : Syntax :=
  site.rebuildSexp [n.head, n.target.withBinding (.cell c), n.value]

/-- The parts of a definition of a procedure that is brought into the shape `(define ID EXPR)`. -/
def normal? (kernel : NamespaceId) (form : Syntax) : Option Normal :=
  match form.subforms with
  | head :: target :: body =>
    if target.isIdentifier then (body.head?).map fun value => ⟨head, target, value⟩
    else
      match target.subforms with
      | [] => none
      | id :: formals =>
        if body.isEmpty then none
        else
          let lambda := ofKernel kernel CoreForm.lambda.name form
          some ⟨head, id, form.rebuildSexp (lambda :: target.rebuildSexp formals :: body)⟩
  | _ => none

/-- The definition has been brought into shape, and its parts are as they were written. -/
structure Prepared (kernel ns : NamespaceId) (name : String) (form : Syntax) (n : Normal) :
    Prop where
  defines : form.DefinesProcedure name
  normal : form.normal? kernel = some n
  subforms : ∃ rest, form.subforms = n.head :: rest
  head : n.head.Names ns CoreForm.define.name
  target : n.target.Names ns name
  lambda : ∃ first rest, n.value.subforms = first :: rest ∧
    (first.Names ns CoreForm.lambda.name ∨ ∃ site, first = ofKernel kernel CoreForm.lambda.name site)
  unexpanded : n.value.Unexpanded ns kernel

variable {kernel ns : NamespaceId} {form : Syntax} {name : String}

theorem isIdentifier_of_subforms {stx first : Syntax} {rest : List Syntax}
    (h : stx.subforms = first :: rest) : stx.isIdentifier = false := by
  cases stx with
  | atom => cases h
  | group | record => rfl

theorem Unscoped.names {stx : Syntax} (h : stx.Unscoped) (hname : stx.symbol? = some name) :
    (stx.introduce ns).Names ns name :=
  names_introduce ns (h.bareName?.trans hname)

theorem unexpanded_introduce {parts : List Syntax} (h : ∀ part ∈ parts, part.Unscoped) :
    ∀ part ∈ parts.map (introduce ns), part.Unexpanded ns kernel :=
  List.forall_mem_map.2 fun part hpart => ((h part hpart).inSpace ns).unexpanded kernel

theorem DefinesProcedure.introduce (h : form.DefinesProcedure name) :
    (form.introduce ns).DefinesProcedure name := by
  have hsubforms {stx : Syntax} {parts : List Syntax} (hparts : stx.subforms = parts) :
      (stx.introduce ns).subforms = parts.map (Syntax.introduce ns) := by
    rw [subforms_introduce, hparts]
  cases h with
  | value hparts hhead htarget hvalue hfirst =>
      exact .value (hsubforms hparts) ((symbol?_introduce _).trans hhead)
        ((symbol?_introduce _).trans htarget) (hsubforms hvalue) ((symbol?_introduce _).trans hfirst)
  | signature hparts hhead hsignature htarget =>
      exact .signature (hsubforms hparts) ((symbol?_introduce _).trans hhead) (hsubforms hsignature)
        ((symbol?_introduce _).trans htarget)

/-- What a definition begins with. -/
theorem names_define (hform : form.Unscoped) (h : form.DefinesProcedure name) :
    ∃ head rest, (form.introduce ns).subforms = head :: rest ∧
      head.Names ns CoreForm.define.name := by
  have hparts : ∃ head rest, form.subforms = head :: rest ∧
      head.symbol? = some CoreForm.define.name := by
    cases h with
    | value hparts hhead => exact ⟨_, _, hparts, hhead⟩
    | signature hparts hhead => exact ⟨_, _, hparts, hhead⟩
  obtain ⟨head, rest, hparts, hhead⟩ := hparts
  refine ⟨head.introduce ns, rest.map (Syntax.introduce ns), ?_, Unscoped.names ?_ hhead⟩
  · rw [subforms_introduce, hparts, List.map_cons]
  · exact hform.subforms head (hparts ▸ List.mem_cons_self)

/-- A definition of a procedure can be brought into shape, or it has no body. -/
theorem prepared_of_definesProcedure (hform : form.Unscoped) (h : form.DefinesProcedure name) :
    (form.introduce ns).normal? kernel = none ∨
      ∃ n, Prepared kernel ns name (form.introduce ns) n := by
  have hdefines : (form.introduce ns).DefinesProcedure name := h.introduce
  cases h with
  | @value head target value first rest hparts hhead htarget hvalue hfirst =>
      have hparts' : (form.introduce ns).subforms =
          [head.introduce ns, target.introduce ns, value.introduce ns] := by
        rw [subforms_introduce, hparts]
        rfl
      have hident : (target.introduce ns).isIdentifier = true := by
        rw [isIdentifier, symbol?_introduce, htarget]
        rfl
      have hunscoped := hform.subforms
      rw [hparts, List.forall_mem_cons, List.forall_mem_cons, List.forall_mem_singleton] at hunscoped
      obtain ⟨hheadPart, htargetPart, hvaluePart⟩ := hunscoped
      refine .inr ⟨⟨head.introduce ns, target.introduce ns, value.introduce ns⟩, hdefines, ?_,
        ⟨_, hparts'⟩, hheadPart.names hhead, htargetPart.names htarget, ?_,
        (hvaluePart.inSpace ns).unexpanded _⟩
      · simp [normal?, hparts', hident]
      · refine ⟨first.introduce ns, rest.map (introduce ns), ?_, .inl (Unscoped.names ?_ hfirst)⟩
        · rw [subforms_introduce, hvalue, List.map_cons]
        · exact hvaluePart.subforms first (hvalue ▸ List.mem_cons_self)
  | @signature head signature target formals body hparts hhead hsignature htarget =>
      have hparts' : (form.introduce ns).subforms =
          head.introduce ns :: signature.introduce ns :: body.map (introduce ns) := by
        rw [subforms_introduce, hparts]
        rfl
      have hsignature' : (signature.introduce ns).subforms =
          target.introduce ns :: formals.map (introduce ns) := by
        rw [subforms_introduce, hsignature, List.map_cons]
      have hident := isIdentifier_of_subforms hsignature'
      by_cases hbody : body = []
      · left
        simp [normal?, hparts', hident, hsignature', hbody]
      have hunscoped := hform.subforms
      rw [hparts, List.forall_mem_cons, List.forall_mem_cons] at hunscoped
      obtain ⟨hheadPart, hsignaturePart, hbodyPart⟩ := hunscoped
      have hsignatureParts := hsignaturePart.subforms
      rw [hsignature, List.forall_mem_cons] at hsignatureParts
      obtain ⟨htargetPart, hformals⟩ := hsignatureParts
      -- `(define (f x …) …)` is brought into the shape `(define f (lambda (x …) …))`.
      let lambda := ofKernel kernel CoreForm.lambda.name (form.introduce ns)
      let value := (form.introduce ns).rebuildSexp
        (lambda :: (signature.introduce ns).rebuildSexp (formals.map (introduce ns)) ::
          body.map (introduce ns))
      have hlambda : lambda.Unexpanded ns kernel := unexpanded_ofKernel List.mem_cons_self _
      refine .inr ⟨⟨head.introduce ns, target.introduce ns, value⟩, hdefines, ?_, ⟨_, hparts'⟩,
        hheadPart.names hhead, htargetPart.names htarget,
        ⟨lambda, _, subforms_rebuildSexp _ _, .inr ⟨_, rfl⟩⟩, ?_⟩
      · simp [normal?, hparts', hident, hsignature', hbody, value, lambda]
      · exact .rebuildSexp (List.forall_mem_cons.2 ⟨hlambda, List.forall_mem_cons.2
          ⟨.rebuildSexp (unexpanded_introduce hformals) _, unexpanded_introduce hbodyPart⟩⟩) _

end Syntax

/-! ## Where bodies come from -/

mutual

/-- Nothing is left of the context of a form that has been stripped. -/
theorem Syntax.unscoped_strip (stx : Syntax) : stx.strip.Unscoped := by
  cases stx with
  | atom c a => exact .atom nofun nofun
  | group c shape items => exact .group nofun nofun (Syntax.unscoped_stripAll items)
  | record c fields => exact .record nofun nofun (Syntax.unscoped_stripFields fields)

theorem Syntax.unscoped_stripAll (items : List Syntax) : ∀ stx ∈ stripAll items, stx.Unscoped := by
  cases items with
  | nil => simp [stripAll]
  | cons stx rest =>
      exact List.forall_mem_cons.2 ⟨Syntax.unscoped_strip stx, Syntax.unscoped_stripAll rest⟩

theorem Syntax.unscoped_stripFields (fields : List (String × Syntax)) :
    ∀ field ∈ stripFields fields, field.2.Unscoped := by
  cases fields with
  | nil => simp [stripFields]
  | cons field rest =>
      obtain ⟨key, stx⟩ := field
      exact List.forall_mem_cons.2 ⟨Syntax.unscoped_strip stx, Syntax.unscoped_stripFields rest⟩

end

namespace SourceTree

mutual

theorem unscoped_toSyntax {source : Source} {t : SourceTree} {stx : Syntax}
    (h : t.toSyntax source = .ok stx) : stx.Unscoped := by
  cases t with
  | token notes t =>
      rw [toSyntax] at h
      obtain ⟨a, -, h⟩ := Except.bind_eq_ok.1 h
      cases h
      exact .atom nofun nofun
  | quoted notes span inner =>
      rw [toSyntax] at h
      obtain ⟨inner, hinner, h⟩ := Except.bind_eq_ok.1 h
      cases h
      refine .group nofun nofun (List.forall_mem_cons.2 ⟨.atom nofun nofun, ?_⟩)
      exact List.forall_mem_singleton.2 (unscoped_toSyntax hinner)
  | group notes span shape items =>
      rw [toSyntax] at h
      obtain ⟨items, hitems, h⟩ := Except.bind_eq_ok.1 h
      cases h
      exact .group nofun nofun (unscoped_toSyntaxAll hitems)
  | record notes span fields =>
      rw [toSyntax] at h
      obtain ⟨fields, hfields, h⟩ := Except.bind_eq_ok.1 h
      cases h
      exact .record nofun nofun (unscoped_toFields (by simp) hfields)

theorem unscoped_toSyntaxAll {source : Source} {trees : List SourceTree} {forms : List Syntax}
    (h : toSyntaxAll source trees = .ok forms) : ∀ stx ∈ forms, stx.Unscoped := by
  cases trees with
  | nil =>
      cases h
      exact nofun
  | cons t rest =>
      rw [toSyntaxAll] at h
      obtain ⟨stx, hstx, h⟩ := Except.bind_eq_ok.1 h
      obtain ⟨forms, hforms, h⟩ := Except.bind_eq_ok.1 h
      cases h
      exact List.forall_mem_cons.2 ⟨unscoped_toSyntax hstx, unscoped_toSyntaxAll hforms⟩

theorem unscoped_toFields {source : Source} {trees : List (FieldHead × SourceTree)}
    {before fields : List (String × Syntax)} (hbefore : ∀ field ∈ before, field.2.Unscoped)
    (h : toFields source trees before = .ok fields) : ∀ field ∈ fields, field.2.Unscoped := by
  cases trees with
  | nil =>
      cases h
      exact hbefore
  | cons first rest =>
      obtain ⟨head, t⟩ := first
      rw [toFields] at h
      obtain ⟨key, -, h⟩ := Except.bind_eq_ok.1 h
      obtain ⟨stx, hstx, h⟩ := Except.bind_eq_ok.1 h
      cases hfound : Fields.get? key before with
      | some found =>
          rw [hfound] at h
          cases h
      | none =>
          rw [hfound] at h
          exact unscoped_toFields (Fields.forall_insert (unscoped_toSyntax hstx) hbefore) h

end

end SourceTree

/-- The forms of a text are read without context. -/
theorem Source.unscoped_read {source : Source} {forms : List Syntax} (h : source.read = .ok forms) :
    ∀ stx ∈ forms, stx.Unscoped := by
  rw [Source.read] at h
  split at h
  · exact SourceTree.unscoped_toSyntaxAll h
  · cases h

/-! ## What the first pass does with one definition -/

variable {kernel ns : NamespaceId} {form : Syntax} {name : String} {n : Syntax.Normal} {w : World}

/-- A signature that is no identifier makes a definition one of a procedure. -/
theorem definitionParts_signature {head signature : Syntax} (hsignature : signature.isIdentifier = false)
    (form : Syntax) (body : List Syntax) :
    definitionParts form (head :: signature :: body) = procedureParts form signature body := by
  rcases body with _ | ⟨first, _ | ⟨second, _ | ⟨third, rest⟩⟩⟩
  · rfl
  · simp [definitionParts, hsignature]
  · simp [definitionParts, hsignature]
  · rfl

/-- A definition is brought into shape, or refused. -/
theorem definitionParts_apply (h : form.DefinesProcedure name)
    (hkernel : w.runtime.kernel.space = kernel) :
    (∀ n, form.normal? kernel = some n →
      definitionParts form form.subforms w = .ok (n.target, n.value) w) ∧
    (form.normal? kernel = none → ∃ halt, definitionParts form form.subforms w = .error halt w) := by
  cases h with
  | @value head target value first rest hparts hhead htarget hvalue hfirst =>
      have hident : target.isIdentifier = true := by
        rw [Syntax.isIdentifier, htarget]
        rfl
      have hnormal : form.normal? kernel = some ⟨head, target, value⟩ := by
        simp [Syntax.normal?, hparts, hident]
      refine ⟨fun n hn => ?_, fun hnone => ?_⟩
      · cases hnormal.symm.trans hn
        rw [hparts]
        simp [definitionParts, hident]
      · cases hnormal.symm.trans hnone
  | @signature head signature target formals body hparts hhead hsignature htarget =>
      have hident := Syntax.isIdentifier_of_subforms hsignature
      have hsexp := isSexp_of_subforms hsignature
      rw [hparts, definitionParts_signature hident, procedureParts, if_pos hsexp, hsignature]
      subst hkernel
      by_cases hbody : body.isEmpty = true
      · refine ⟨fun n hn => ?_, fun _ => ?_⟩
        · simp [Syntax.normal?, hparts, hident, hsignature, hbody] at hn
        · refine ⟨.error (.atForm (.badSyntax (.missingBody "define")) form), ?_⟩
          dsimp only
          rw [if_pos hbody]
          rfl
      · refine ⟨fun n hn => ?_, fun hnone => ?_⟩
        · simp only [Syntax.normal?, hparts, hident, hsignature, hbody, Bool.false_eq_true, if_false,
            Option.some.injEq] at hn
          subst hn
          dsimp only
          rw [if_neg hbody]
          rfl
        · simp [Syntax.normal?, hparts, hident, hsignature, hbody] at hnone

section

variable {spaces : Spaces} {base space : Namespace} {done : List String}
  (hbegun : spaces.Begun kernel ns base) (hspace : base.Reserved ns done space)
  (hdefine : CoreForm.define.name ∉ done) (hw : w.spaces = spaces.put ns space)
  (hkernel : w.runtime.kernel.space = kernel)

include hbegun hspace hdefine hw

theorem partialExpand_definition {head : Syntax} {rest : List Syntax}
    (hparts : form.subforms = head :: rest) (hhead : head.Names ns CoreForm.define.name)
    (fuel : Nat) :
    partialExpand (fuel + 1) 0 form w = .ok (.form form (some .define)) w := by
  refine partialExpand_core hparts ?_ (by decide) fuel 0
  rw [hw]
  exact hbegun.headValue_names hspace hdefine hhead

include hkernel

/-- The first pass brings a definition into shape and reserves an address for its name. -/
theorem firstPass_cons (h : Syntax.Prepared kernel ns name form n) (hname : name ∉ done)
    (loader : Loader) (fuel : Nat) (queue : List Syntax) :
    ∃ index space', base.Reserved ns (done ++ [name]) space' ∧ space.Grows space' ∧
      space'.find? (plainKey name) = some index ∧
      firstPass loader ns (fuel + 2) (form :: queue) w =
        (do
          let rest ← firstPass loader ns (fuel + 1) queue
          return n.recorded form ⟨ns, index⟩ :: rest)
          { w with spaces := spaces.put ns space' } := by
  obtain ⟨rest, hparts⟩ := h.subforms
  obtain ⟨index, space', hpredefine, hfind, hgrows, hspace'⟩ := hspace.predefine hbegun.blank hname
  refine ⟨index, space', hspace', hgrows, hfind, ?_⟩
  have hhere : w.spaces[ns]? = some space := hw ▸ Spaces.own_put hbegun.space space
  have htarget : predefine ns n.target w = .ok (n.target.withBinding (.cell ⟨ns, index⟩))
      { w with spaces := spaces.put ns space' } := by
    rw [predefine_apply, Spaces.predefine, h.target.symbol, hhere]
    dsimp only
    rw [Spaces.filingKey_names h.target, hpredefine]
    dsimp only
    rw [← Spaces.put_put spaces ns space space', ← hw]
    rfl
  have hform : predefineForm ns form w =
      .ok (n.recorded form ⟨ns, index⟩) { w with spaces := spaces.put ns space' } := by
    have hident : n.target.isIdentifier = true := by
      rw [Syntax.isIdentifier, h.target.symbol]
      rfl
    rw [predefineForm, RunM.bind_apply, (definitionParts_apply h.defines hkernel).1 n h.normal]
    dsimp only
    rw [hident]
    simp only [Bool.not_true, Bool.false_eq_true, if_false]
    rw [RunM.bind_apply, htarget, hparts]
    rfl
  rw [firstPass, RunM.bind_apply, partialExpand_definition hbegun hspace hdefine hw hparts h.head]
  dsimp only
  rw [RunM.bind_apply, hform]

/-- A definition without a body is refused. -/
theorem firstPass_refuses {target : String} (hdefines : form.DefinesProcedure target)
    (hhead : ∃ head rest, form.subforms = head :: rest ∧ head.Names ns CoreForm.define.name)
    (hnone : form.normal? kernel = none) (loader : Loader) (fuel : Nat) (queue : List Syntax) :
    ∃ halt w', firstPass loader ns (fuel + 2) (form :: queue) w = .error halt w' := by
  obtain ⟨head, rest, hparts, hhead⟩ := hhead
  obtain ⟨halt, hrefused⟩ := (definitionParts_apply hdefines hkernel).2 hnone
  refine ⟨halt, w, ?_⟩
  rw [firstPass, RunM.bind_apply, partialExpand_definition hbegun hspace hdefine hw hparts hhead]
  dsimp only
  rw [RunM.bind_apply, predefineForm, RunM.bind_apply, hrefused]

end

/-! ## The first pass -/

/-- The name that a definition of a procedure defines. -/
def Syntax.definedName (form : Syntax) : String := form.procedureName?.getD ""

/-- What the first pass leaves of a definition. -/
def PendingDefinition (kernel ns : NamespaceId) (space : Namespace) (form pending : Syntax) : Prop :=
  ∃ n index, Syntax.Prepared kernel ns form.definedName (form.introduce ns) n ∧
    space.find? (plainKey form.definedName) = some index ∧
    pending = n.recorded (form.introduce ns) ⟨ns, index⟩

section

variable {spaces : Spaces} {base space : Namespace} {done : List String} {body : List Syntax}
  {fuel : Nat} (hbegun : spaces.Begun kernel ns base)

include hbegun

/-- The first pass over definitions that can be brought into shape. -/
theorem firstPass_prepared
    (hprepared : ∀ form ∈ body, ∃ n,
      Syntax.Prepared kernel ns form.definedName (form.introduce ns) n)
    (hspace : base.Reserved ns done space) (hnodup : (done ++ body.map Syntax.definedName).Nodup)
    (hdefine : CoreForm.define.name ∉ done ++ body.map Syntax.definedName)
    (hw : w.spaces = spaces.put ns space) (hkernel : w.runtime.kernel.space = kernel)
    (hfuel : body.length < fuel) (loader : Loader) :
    ∃ space' pending, base.Reserved ns (done ++ body.map Syntax.definedName) space' ∧
      space.Grows space' ∧ List.Forall₂ (PendingDefinition kernel ns space') body pending ∧
      firstPass loader ns fuel (body.map (Syntax.introduce ns)) w =
        .ok pending { w with spaces := spaces.put ns space' } := by
  induction body generalizing w done space fuel with
  | nil =>
      obtain ⟨fuel, rfl⟩ := Nat.exists_eq_succ_of_ne_zero (Nat.ne_zero_of_lt hfuel)
      refine ⟨space, [], by simpa using hspace, .refl space, .nil, ?_⟩
      rw [← hw]
      rfl
  | cons form rest ih =>
      obtain ⟨⟨n, hform⟩, hrest⟩ := List.forall_mem_cons.1 hprepared
      -- One step of fuel for this form, and one more for its partial expansion.
      obtain ⟨fuel, rfl⟩ : ∃ k, fuel = k + 2 := by
        rw [List.length_cons] at hfuel
        exact ⟨fuel - 2, by omega⟩
      rw [List.map_cons] at hnodup hdefine ⊢
      have hnew : form.definedName ∉ done := by
        intro hmem
        exact (List.nodup_append.1 hnodup).2.2 _ hmem _ List.mem_cons_self rfl
      rw [List.append_cons] at hnodup hdefine ⊢
      obtain ⟨index, space₁, hspace₁, hgrows₁, hfind, hrun⟩ := firstPass_cons hbegun hspace
        (fun hmem => hdefine (by simp [hmem])) hw hkernel hform hnew loader fuel
        (rest.map (Syntax.introduce ns))
      obtain ⟨space', pending, hspace', hgrows, hpending, hrunRest⟩ := ih hrest hspace₁ hnodup hdefine
        (w := { w with spaces := spaces.put ns space₁ }) rfl hkernel (Nat.lt_of_succ_lt_succ hfuel)
      have hhere : PendingDefinition kernel ns space' form
          (n.recorded (form.introduce ns) ⟨ns, index⟩) :=
        ⟨n, index, hform, hgrows.find? hfind, rfl⟩
      refine ⟨space', _, hspace', hgrows₁.trans hgrows, .cons hhere hpending, ?_⟩
      rw [List.map_cons, hrun, RunM.bind_apply, hrunRest]
      rfl

/-- Definitions over which the first pass ends well can be brought into shape. -/
theorem prepared_of_firstPass
    (hforms : ∀ form ∈ body, form.Unscoped ∧ form.DefinesProcedure form.definedName)
    (hspace : base.Reserved ns done space) (hnodup : (done ++ body.map Syntax.definedName).Nodup)
    (hdefine : CoreForm.define.name ∉ done ++ body.map Syntax.definedName)
    (hw : w.spaces = spaces.put ns space) (hkernel : w.runtime.kernel.space = kernel)
    {loader : Loader} {pending : List Syntax} {w' : World}
    (h : firstPass loader ns fuel (body.map (Syntax.introduce ns)) w = .ok pending w') :
    body.length < fuel ∧ ∀ form ∈ body, ∃ n,
      Syntax.Prepared kernel ns form.definedName (form.introduce ns) n := by
  induction body generalizing w done space fuel pending w' with
  | nil =>
      cases fuel with
      | zero => cases h
      | succ fuel => exact ⟨Nat.succ_pos fuel, nofun⟩
  | cons form rest ih =>
      obtain ⟨⟨hunscoped, hdefines⟩, hrest⟩ := List.forall_mem_cons.1 hforms
      rw [List.map_cons] at hnodup hdefine h
      have hfree : CoreForm.define.name ∉ done := fun hmem => hdefine (List.mem_append_left _ hmem)
      have hnew : form.definedName ∉ done := by
        intro hmem
        exact (List.nodup_append.1 hnodup).2.2 _ hmem _ List.mem_cons_self rfl
      cases fuel with
      | zero => cases h
      | succ fuel =>
          cases fuel with
          | zero => cases h
          | succ fuel =>
              -- A definition without a body is refused, and the pass would not have ended well.
              rcases Syntax.prepared_of_definesProcedure hunscoped hdefines with hnone | ⟨n, hform⟩
              · obtain ⟨halt, w₁, hrefused⟩ := firstPass_refuses hbegun hspace hfree hw hkernel
                  hdefines.introduce (Syntax.names_define hunscoped hdefines) hnone loader fuel
                  (rest.map (Syntax.introduce ns))
                cases hrefused.symm.trans h
              · obtain ⟨index, space₁, hspace₁, -, -, hrun⟩ := firstPass_cons hbegun hspace hfree hw
                  hkernel hform hnew loader fuel (rest.map (Syntax.introduce ns))
                rw [List.append_cons] at hnodup hdefine
                obtain ⟨others, w₁, hothers, -⟩ := RunM.bind_eq_ok.1 (hrun.symm.trans h)
                obtain ⟨hlength, hprepared⟩ := ih hrest hspace₁ hnodup hdefine
                  (w := { w with spaces := spaces.put ns space₁ }) rfl hkernel hothers
                exact ⟨Nat.succ_lt_succ hlength, List.forall_mem_cons.2 ⟨⟨n, hform⟩, hprepared⟩⟩

end

end HygienicLisp
