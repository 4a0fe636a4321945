import HygienicLisp.Proofs.Spans.Compile

/-!
# Requests and transformers copy ranges

What expansion does besides putting forms together: it takes names in namespaces, asks for modules and
runs transformers.  The loading of modules is left open: `Loader.Copies` says what is needed of it.
-/

namespace HygienicLisp

variable {given : Source → Prop}

/-! ## Namespaces -/

/-- A step on the namespaces that leaves them or changes them without storing anything. -/
theorem World.Traced.setSpaces {w : World} (h : w.Traced given) {spaces : Spaces}
    (hchange : spaces = w.spaces ∨
      w.spaces.Change (fun _ => True) (fun _ v => v.Traced given) spaces) :
    ({ w with spaces } : World).Traced given := by
  rcases hchange with rfl | hchange
  · exact h
  · exact h.change hchange

theorem Spaces.reports_predefine {spaces : Spaces} {stx : Syntax} (hstx : stx.Traced given)
    (ns : NamespaceId) :
    Reports given (fun result => result.1.Traced given) (spaces.predefine ns stx) := by
  unfold predefine
  split
  · exact Error.Traced.atForm hstx _
  · exact .of _
  · split
    · exact Error.Traced.atForm hstx _
    · exact hstx.of_spans_eq (Syntax.spans_withBinding _ stx)

theorem copies_predefine {stx : Syntax} (hstx : stx.Traced given) (ns : NamespaceId) :
    Copies given (Syntax.Traced given) (predefine ns stx) := by
  intro w hw
  have hreports : Reports given (fun result => result.1.Traced given) (w.spaces.predefine ns stx) :=
    Spaces.reports_predefine hstx ns
  rw [predefine_apply]
  cases h : w.spaces.predefine ns stx with
  | error e =>
      rw [h] at hreports
      exact ⟨hw, fun e' he => by
        cases he
        exact hreports⟩
  | ok result =>
      rw [h] at hreports
      exact ⟨hw.setSpaces (.inr (Spaces.change_of_predefine h)), hreports⟩

theorem Spaces.reports_require {spaces : Spaces} {stx : Syntax} (hstx : stx.Traced given)
    (ns : NamespaceId) (provided : Provided) (shadowable : Bool) :
    Reports given (fun _ => True) (spaces.require ns stx provided shadowable) := by
  unfold require
  split
  · exact Error.Traced.atForm hstx _
  · exact .of _
  · split
    · exact Error.Traced.atForm hstx _
    · exact trivial

theorem copies_require {stx : Syntax} (hstx : stx.Traced given) (ns : NamespaceId)
    (provided : Provided) (shadowable : Bool) :
    Copies given (fun _ => True) (require ns stx provided shadowable) := by
  intro w hw
  have hreports : Reports given (fun _ => True) (w.spaces.require ns stx provided shadowable) :=
    Spaces.reports_require hstx ns provided shadowable
  rw [require_apply]
  cases h : w.spaces.require ns stx provided shadowable with
  | error e =>
      rw [h] at hreports
      exact ⟨hw, fun e' he => by
        cases he
        exact hreports⟩
  | ok spaces => exact ⟨hw.setSpaces (Spaces.change_of_require trivial h), trivial⟩

theorem copies_requireAll {identifier : Provided → Except Error Syntax}
    (hidentifier : ∀ p, Reports given (Syntax.Traced given) (identifier p)) (ns : NamespaceId)
    (shadowable : Bool) (provided : List Provided) :
    Copies given (fun _ => True) (requireAll ns identifier shadowable provided) := by
  induction provided with
  | nil => exact .pure trivial
  | cons p rest ih =>
      refine (Copies.ofExcept (hidentifier p)).bind fun stx hstx => ?_
      exact (copies_require hstx ns p shadowable).bind fun _ _ => ih

theorem Rib.reports_extend {spaces : Spaces} {binders : List Syntax}
    (h : ∀ stx ∈ binders, stx.Traced given) (keys : List Key) :
    Reports given (fun _ => True) (Rib.extend spaces keys binders) := by
  induction binders generalizing keys with
  | nil => exact trivial
  | cons binder rest ih =>
      obtain ⟨hbinder, hrest⟩ := List.forall_mem_cons.1 h
      rw [Rib.extend]
      split
      · exact Error.Traced.atForm hbinder _
      · dsimp only
        split
        · exact Error.Traced.atForm hbinder _
        · exact ih hrest _

theorem copies_newRib {binders : List Syntax} (h : ∀ stx ∈ binders, stx.Traced given) :
    Copies given (fun _ => True) (newRib binders) := by
  have hfresh : Copies given (fun _ => True) freshRib :=
    .modifyGet fun _ hw => ⟨hw.congr rfl rfl rfl rfl rfl, trivial⟩
  refine hfresh.bind fun id _ => .getSpaces_bind fun w _ => .ofExcept ?_
  exact (Rib.reports_extend h []).map fun _ _ => trivial

theorem World.Traced.headValue? {w : World} (h : w.Traced given) {head : Syntax} {v : Value}
    (hv : HygienicLisp.headValue? w.spaces head = some v) : v.Traced given := by
  obtain ⟨ns, address, hvalue⟩ := exists_value?_of_headValue? hv
  exact h.values ns address v hvalue

/-! ## Modules -/

theorem reports_normalize (path : String) (requester : Option ModuleId) :
    Reports given (fun _ => True) (ModulePath.normalize path requester) := by
  unfold ModulePath.normalize
  split
  · exact .of _
  · split
    · exact .of _
    · exact .of _
    · exact trivial

theorem copies_resolveModule (path : String) (requester : Option ModuleId) :
    Copies given (fun _ => True) (resolveModule path requester) := by
  refine .get_bind fun w _ => ?_
  dsimp only
  split
  · exact .pure trivial
  · exact .ofExcept (reports_normalize path requester)

theorem copies_whileLoading {α : Type} {Q : α → Prop} {x : RunM α} (hx : Copies given Q x)
    (id : ModuleId) : Copies given Q (whileLoading id x) := by
  have henter (loading : List ModuleId) :
      Reports given (fun _ => True) (enterLoading loading id) := by
    rw [enterLoading]
    split
    · exact trivial
    · exact .of _
  refine .get_bind fun w _ => (Copies.ofExcept (henter w.loading)).bind fun loading _ => ?_
  refine Copies.bind (.modify fun w hw => hw.congr rfl rfl rfl rfl rfl) fun _ _ => ?_
  exact hx.andThen fun w hw => hw.congr rfl rfl rfl rfl rfl

/-- The code of the declaration has only ranges that come from the given sources. -/
def Declaration.Traced (given : Source → Prop) (d : Declaration) : Prop :=
  ∀ code ∈ d.body, code.Traced given

theorem copies_declare {d : Declaration} (hd : d.Traced given) :
    Copies given (fun _ => True) (updateRegistry fun r => r.declare d) := by
  refine .get_bind fun w₀ hw₀ => ?_
  have hreports : Reports given (fun r => ∀ d ∈ r.declarations, d.Traced given)
      (w₀.registry.declare d) := by
    rw [Registry.declare]
    split
    · exact .of _
    · exact Reports.ok (List.forall_mem_cons.2 ⟨hd, hw₀.bodies⟩)
  exact (Copies.ofExcept hreports).bind fun r hr => .modify fun w hw => { hw with bodies := hr }

/-- The loader copies ranges: those of a body that it declares, and those of modules. -/
structure Loader.Copies (given : Source → Prop) (loader : Loader) : Prop where
  instantiate : ∀ id, HygienicLisp.Copies given (fun _ => True) (loader.instantiate id)
  declare : ∀ id {body : List Syntax}, (∀ stx ∈ body, stx.Traced given) →
    HygienicLisp.Copies given (Declaration.Traced given) (loader.declare id body)

namespace Expansion

variable {form : Syntax} {parts : List Syntax} {loader : Loader}

theorem traced_stripAll (h : ∀ stx ∈ parts, stx.Traced given) :
    ∀ stx ∈ Syntax.stripAll parts, stx.Traced given := by
  induction parts with
  | nil => simp [Syntax.stripAll]
  | cons stx rest ih =>
      obtain ⟨hstx, hrest⟩ := List.forall_mem_cons.1 h
      rw [Syntax.stripAll]
      exact List.forall_mem_cons.2 ⟨hstx.of_spans_eq (Syntax.spans_strip stx), ih hrest⟩

theorem copies_declareForm (hloader : loader.Copies given) (hform : form.Traced given)
    (hparts : ∀ part ∈ parts, part.Traced given) :
    Copies given (Syntax.Traced given) (declareForm loader form parts) := by
  unfold declareForm
  split
  · exact .failAt hform _
  · refine (copies_resolveModule _ none).bind fun id _ => ?_
    have hbody : ∀ stx ∈ Syntax.stripAll (parts.drop 2), stx.Traced given :=
      traced_stripAll (Compile.traced_drop hparts 2)
    have hdeclare : Copies given (fun _ => True) (do
        let d ← loader.declare id (Syntax.stripAll (parts.drop 2))
        updateRegistry fun r => r.declare d) :=
      (hloader.declare id hbody).bind fun d hd => copies_declare hd
    exact (copies_whileLoading hdeclare id).bind fun _ _ => .pure hform

theorem copies_modulePath {spec : Syntax} (h : spec.Traced given) :
    Copies given (fun _ => True) (modulePath spec) := by
  unfold modulePath
  split
  · exact .pure trivial
  · exact .pure trivial
  · exact .failAt h _

theorem copies_requiredInstance (hloader : loader.Copies given) (ns : NamespaceId) {spec : Syntax}
    (h : spec.Traced given) : Copies given (fun _ => True) (requiredInstance loader ns spec) := by
  refine (copies_modulePath h).bind fun path _ => .getSpaces_bind fun w _ => ?_
  refine ((copies_resolveModule path _).inContext h).bind fun id _ => ?_
  exact (hloader.instantiate id).inContext h

theorem reports_exported (i : Instance) {stx : Syntax} (h : stx.Traced given) :
    Reports given (fun _ => True) (exported i stx) := by
  unfold exported
  dsimp only
  split
  · exact trivial
  · have htraced := Error.Traced.atForm h (.unbound (stx.symbol?.getD ""))
    exact ⟨htraced.spans, htraced.source⟩

theorem copies_requireOnly (ns : NamespaceId) (i : Instance)
    (hparts : ∀ part ∈ parts, part.Traced given) :
    Copies given (fun _ => True) (requireOnly ns i parts) := by
  induction parts with
  | nil => exact .pure trivial
  | cons stx rest ih =>
      obtain ⟨hstx, hrest⟩ := List.forall_mem_cons.1 hparts
      refine .check hstx ((Copies.ofExcept (reports_exported i hstx)).bind fun p _ => ?_)
      exact (copies_require hstx ns p false).bind fun _ _ => ih hrest

theorem copies_requireRenamed (ns : NamespaceId) (i : Instance)
    (hparts : ∀ part ∈ parts, part.Traced given) :
    Copies given (fun _ => True) (requireRenamed ns i parts) := by
  induction parts with
  | nil => exact .pure trivial
  | cons pair rest ih =>
      obtain ⟨hpair, hrest⟩ := List.forall_mem_cons.1 hparts
      have hsubforms := hpair.subforms
      rw [requireRenamed]
      split
      · rename_i name target hparts
        rw [hparts] at hsubforms
        have hname := reports_exported i (hsubforms name (by simp))
        have htarget := hsubforms target (by simp)
        refine .check htarget ((Copies.ofExcept hname).bind fun p _ => ?_)
        exact (copies_require htarget ns p false).bind fun _ _ => ih hrest
      · exact .failAt hpair _

theorem copies_requireSpec (hloader : loader.Copies given) (ns : NamespaceId) {spec : Syntax}
    (h : spec.Traced given) : Copies given (fun _ => True) (requireSpec loader ns spec) := by
  unfold requireSpec
  split
  · refine (copies_requiredInstance hloader ns h).bind fun i _ => ?_
    refine copies_requireAll (fun p => Syntax.reports_ofDatum .atom fun stx hstx => ?_) ns false _
    cases hstx
    exact h
  · rename_i keyword path rest hparts
    have hsubforms := h.subforms? hparts
    simp only [List.forall_mem_cons] at hsubforms
    obtain ⟨-, hpath, hrest⟩ := hsubforms
    have hinstance := copies_requiredInstance hloader ns hpath
    split
    · exact hinstance.bind fun i _ => copies_requireOnly ns i hrest
    · split
      · exact hinstance.bind fun i _ => copies_requireRenamed ns i hrest
      · exact .failAt h _
  · exact .failAt h _

theorem copies_runEach {α : Type} {f : α → RunM Unit} {items : List α}
    (h : ∀ a ∈ items, Copies given (fun _ => True) (f a)) :
    Copies given (fun _ => True) (runEach f items) := by
  induction items with
  | nil => exact .pure trivial
  | cons a rest ih =>
      obtain ⟨ha, hrest⟩ := List.forall_mem_cons.1 h
      exact ha.bind fun _ _ => ih hrest

theorem copies_recordProvided (p : Provided) :
    Copies given (fun _ => True) (recordProvided p) :=
  .modify fun _ hw => hw.congr rfl rfl rfl rfl rfl

theorem copies_provideSpec (ns : NamespaceId) {spec : Syntax} (h : spec.Traced given) :
    Copies given (fun _ => True) (provideSpec ns spec) := by
  refine .getSpaces_bind fun w _ => ?_
  split
  · split
    · exact copies_recordProvided _
    · exact .fail (.atForm h _)
  · split
    · split
      · exact copies_runEach fun d _ => copies_recordProvided _
      · exact .failAt h _
    · exact .failAt h _

end Expansion

/-! ## Transformers -/

theorem copies_kernelIdentifier (name : String) {site : Syntax} (h : site.Traced given) :
    Copies given (Syntax.Traced given) (kernelIdentifier name site) :=
  .get_bind fun _ _ => .pure ((Syntax.Traced.atom (c := { span := site.span }) h.span _).addWrap _)

theorem copies_descend (depth : Nat) {form : Syntax} (h : form.Traced given) :
    Copies given (fun _ => True) (descend depth form) := by
  refine .get_bind fun w _ => ?_
  split
  · split
    · exact .failAt h _
    · exact .pure trivial
  · exact .pure trivial

theorem Error.Traced.transformerError {form : Syntax} (hform : form.Traced given) (who : String)
    {e : Error} (h : e.Traced given) : (transformerError who form e).Traced given := by
  unfold HygienicLisp.transformerError
  split
  · exact h.withContext hform
  · exact ⟨(Error.Traced.atForm hform (e.fault)).spans, (Error.Traced.atForm hform e.fault).source⟩

theorem copies_invoke (fuel : Nat) (id procedureId : ObjectId) {p : Procedure}
    (hp : p.Traced given) {form : Syntax} (hform : form.Traced given) :
    Copies given (Syntax.Traced given) (invoke fuel id procedureId p form) := by
  have hfresh : Copies given (fun _ => True) freshMark :=
    .modifyGet fun _ hw => ⟨hw.congr rfl rfl rfl rfl rfl, trivial⟩
  refine hfresh.bind fun mark _ => .get_bind fun w _ => ?_
  refine (copies_stampSyntax (hform.addWrap _)).bind fun input hinput => ?_
  have hcall : Copies given (Value.Traced given)
      (applyProcedure fuel (.procedure procedureId p) [.stx input]) :=
    copies_applyProcedure fuel (.procedure hp) (List.forall_mem_singleton.2 (.stx hinput))
  refine (hcall.mapError fun _ he => he.transformerError hform _).bind fun output houtput => ?_
  cases output with
  | stx s => exact .pure (houtput.of_stx.addWrap _)
  | _ => exact .failAt hform _

/-- What partial expansion leaves has only ranges that come from the given sources. -/
def Partial.Traced (given : Source → Prop) : Partial → Prop
  | .splice forms => ∀ stx ∈ forms, stx.Traced given
  | .form stx _ => stx.Traced given

theorem transformer_of_headValue {w : World} (h : w.Traced given) {head : Syntax}
    {id procedureId : ObjectId} {p : Procedure}
    (hv : headValue? w.spaces head = some (.transformer id procedureId p)) : p.Traced given := by
  cases h.headValue? hv with
  | transformer hp => exact hp

theorem copies_partialExpand (fuel depth : Nat) {form : Syntax} (hform : form.Traced given) :
    Copies given (Partial.Traced given) (partialExpand fuel depth form) := by
  induction fuel generalizing depth form with
  | zero => exact .exhausted
  | succ fuel ih =>
      have hsubforms := hform.subforms
      rw [partialExpand]
      split
      · exact .pure hform
      · rename_i head rest hparts
        rw [hparts] at hsubforms
        refine .getSpaces_bind fun w hw => ?_
        split
        · rename_i hhead
          have hp := transformer_of_headValue hw hhead
          refine (copies_descend depth hform).bind fun depth _ => ?_
          exact (copies_invoke fuel _ _ hp hform).bind fun form hform => ih depth hform
        · exact .pure (List.forall_mem_cons.1 hsubforms).2
        · exact .pure hform
        · exact .pure hform

end HygienicLisp
