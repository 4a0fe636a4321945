import HygienicLisp.Proofs.FullExpansion.Shapes
import HygienicLisp.Proofs.Isolation.Modules
import HygienicLisp.Proofs.Reexports.Imports
import HygienicLisp.Proofs.Soundness.Expand

/-!
# The first pass over a module

Each item of a module begins with a name of the language, which stands for what it is in the language.
So the first pass takes it for what it was read as: it carries out the imports and the definitions of
syntax, takes the addresses of the other definitions, and leaves the rest.

Main statement: `proceeds_firstPass`.  After the pass everything that is required has been imported,
everything that is defined stands for a definition, and what is left has one form for each item that
waits for the second pass.
-/

namespace HygienicLisp

open Expansion

variable {runtime : Runtime} {w w' : World} {ns : NamespaceId} {id : ModuleId}

/-! ## What an item begins with -/

theorem CoreForm.mem_all (f : CoreForm) : f ∈ CoreForm.all := by cases f <;> decide

theorem CoreForm.name_injective {f g : CoreForm} (h : f.name = g.name) : f = g := by
  have hall : ∀ f ∈ all, ∀ g ∈ all, f.name = g.name → f = g := by decide
  exact hall f f.mem_all g g.mem_all h

/-- A name that is left to the language stands for a core form or a procedure. -/
theorem exists_headValue (hw : w.Faithful runtime) (h : Underway runtime ns id w) {head : Syntax}
    {name : String} (hhead : head.Names ns name) (hname : runtime.Untouched id name) :
    ∃ v, headValue? w.spaces head = some v ∧ v.Fits name := by
  obtain ⟨content, p, hcontent, hp, htarget⟩ := h.untouched name hname
  obtain ⟨c, hresolve, hc⟩ := Spaces.exists_cell_of_named (hw.language.live ns) hhead hcontent
  have hmem : p ∈ w.runtime.kernel.provided := hw.hosted ▸ List.mem_of_find?_eq_some hp
  obtain ⟨v, hv, hfits⟩ := hw.language.values p hmem
  refine ⟨v, ?_, Instance.name_of_provided? hp ▸ hfits⟩
  have hident : head.isIdentifier = true := by
    rw [Syntax.isIdentifier, hhead.symbol]
    rfl
  rw [headValue?, if_pos hident, hresolve]
  dsimp only
  refine Spaces.lookup?_eq_some.2 ⟨p.target, ?_, hw.language.live _, hv⟩
  rw [Spaces.target?_cell, hc, Option.map_some, htarget]

/-- The name of a core form stands for it. -/
theorem headValue_core (hw : w.Faithful runtime) (h : Underway runtime ns id w) {head : Syntax}
    {f : CoreForm} (hhead : head.Names ns f.name) (hf : runtime.Untouched id f.name) :
    headValue? w.spaces head = some (.form f) := by
  obtain ⟨v, hv, hfits⟩ := exists_headValue hw h hhead hf
  rw [hv]
  cases v with
  | form g => rw [CoreForm.name_injective hfits]
  | procedure procedureId p => exact absurd (List.mem_map_of_mem f.mem_all) hfits
  | _ => exact hfits.elim

/-- What an expression in the body of a module begins with. -/
inductive BeginsExpression (spaces : Spaces) (head : Syntax) : Prop
  | form {f : CoreForm} (hf : f ∉ Item.bodyForms) (hhead : headValue? spaces head = some (.form f))
  | procedure {procedureId : ObjectId} {p : Procedure}
      (hhead : headValue? spaces head = some (.procedure procedureId p))
  | other (hhead : headValue? spaces head = none)

theorem beginsExpression (hw : w.Faithful runtime) (h : Underway runtime ns id w) {head : Syntax}
    {name : String} (hhead : head.Names ns name) (hname : runtime.Untouched id name)
    (hbody : name ∉ Item.bodyForms.map CoreForm.name) : BeginsExpression w.spaces head := by
  obtain ⟨v, hv, hfits⟩ := exists_headValue hw h hhead hname
  cases v with
  | form f =>
      refine .form (fun hf => hbody ?_) hv
      rw [← show f.name = name from hfits]
      exact List.mem_map_of_mem hf
  | procedure procedureId p => exact .procedure hv
  | _ => exact hfits.elim

/-- What is no identifier has no value. -/
theorem headValue?_of_isIdentifier (spaces : Spaces) {head : Syntax} (h : head.isIdentifier = false) :
    headValue? spaces head = none := by
  rw [headValue?, h]
  rfl

theorem isIdentifier_introduce (ns : NamespaceId) (stx : Syntax) :
    (stx.introduce ns).isIdentifier = stx.isIdentifier := by
  rw [Syntax.isIdentifier, Syntax.symbol?_introduce, Syntax.isIdentifier]

/-! ## Partial expansion -/

theorem subforms_of_isSexp_eq_false {form : Syntax} (h : form.isSexp = false) :
    form.subforms = [] := by
  unfold Syntax.subforms Syntax.subforms?
  split
  · cases h
  · rfl

/-- A core form that is not spliced stays as it is. -/
theorem partialExpand_core {form head : Syntax} {rest : List Syntax} {f : CoreForm}
    (hparts : form.subforms = head :: rest) (hhead : headValue? w.spaces head = some (.form f))
    (hf : f ≠ .begin) (fuel depth : Nat) :
    partialExpand (fuel + 1) depth form w = .ok (.form form (some f)) w := by
  rw [partialExpand, hparts]
  dsimp only
  rw [RunM.bind_apply, RunM.getSpaces_apply]
  dsimp only
  rw [hhead]
  cases f with
  | begin => exact absurd rfl hf
  | _ => rfl

theorem partialExpand_procedure {form head : Syntax} {rest : List Syntax} {procedureId : ObjectId}
    {p : Procedure} (hparts : form.subforms = head :: rest)
    (hhead : headValue? w.spaces head = some (.procedure procedureId p)) (fuel depth : Nat) :
    partialExpand (fuel + 1) depth form w = .ok (.form form none) w := by
  rw [partialExpand, hparts]
  dsimp only
  rw [RunM.bind_apply, RunM.getSpaces_apply]
  dsimp only
  rw [hhead]
  rfl

theorem partialExpand_other {form head : Syntax} {rest : List Syntax}
    (hparts : form.subforms = head :: rest) (hhead : headValue? w.spaces head = none)
    (fuel depth : Nat) : partialExpand (fuel + 1) depth form w = .ok (.form form none) w := by
  rw [partialExpand, hparts]
  dsimp only
  rw [RunM.bind_apply, RunM.getSpaces_apply]
  dsimp only
  rw [hhead]
  rfl

theorem partialExpand_datum {form : Syntax} (hform : form.isSexp = false) (fuel depth : Nat) :
    partialExpand (fuel + 1) depth form w = .ok (.form form none) w := by
  rw [partialExpand, subforms_of_isSexp_eq_false hform]
  rfl

/-! ## Full expansion -/

section

variable {reach : Reach} {α β : Type} {P : World → α → Prop} {Q : World → β → Prop}

theorem Proceeds.congr {x y : RunM α} (h : x w = y w) (hy : Proceeds runtime reach P y w) :
    Proceeds runtime reach P x w := by
  intro hw
  rw [h]
  exact hy hw

/-- A computation that is known to end well and to change nothing. -/
theorem Proceeds.ok_bind {x : RunM α} {f : α → RunM β} {a : α} (hx : x w = .ok a w)
    (hf : Proceeds runtime reach Q (f a) w) : Proceeds runtime reach Q (x >>= f) w := by
  refine .congr ?_ hf
  rw [RunM.bind_apply, hx]

theorem proceeds_descend_bind {depth : Nat} {form : Syntax} {f : Nat → RunM β}
    (hf : ∀ depth, Proceeds runtime reach Q (f depth) w) :
    Proceeds runtime reach Q (descend depth form >>= f) w := by
  refine Proceeds.bind (P := fun w' _ => w' = w) ?_ fun depth w' _ _ hsame => hsame ▸ hf depth
  refine .get_bind fun _ => ?_
  split
  · split
    · exact .fail _
    · exact .pure rfl
  · exact .pure rfl

theorem isSexp_of_subforms {form head : Syntax} {rest : List Syntax}
    (hparts : form.subforms = head :: rest) : form.isSexp = true := by
  by_contra hform
  rw [subforms_of_isSexp_eq_false (by simpa using hform)] at hparts
  cases hparts

/-- A form that begins with a core form is expanded as that. -/
theorem proceeds_expand_core {P : World → Syntax → Prop} {loader : Loader} {form head : Syntax}
    {rest : List Syntax} {f : CoreForm} (hparts : form.subforms = head :: rest)
    (hhead : w.Faithful runtime → headValue? w.spaces head = some (.form f))
    (hcore : ∀ fuel depth, Proceeds runtime reach P
      (core (expand loader ns fuel depth) loader ns f form (head :: rest) .moduleBody) w)
    (fuel depth : Nat) :
    Proceeds runtime reach P (expand loader ns fuel depth .moduleBody form) w := by
  cases fuel with
  | zero => exact .exhausted
  | succ fuel =>
      refine proceeds_descend_bind fun depth => .mapError ?_
      rw [if_pos (isSexp_of_subforms hparts)]
      cases fuel with
      | zero => exact .exhausted
      | succ fuel =>
          rw [expandSexp, hparts]
          refine .getSpaces_bind fun hw => ?_
          rw [hhead hw]
          exact hcore (fuel + 1) depth

end

theorem core_of_expression {expand : ExpandContext → Syntax → RunM Syntax} {loader : Loader}
    {f : CoreForm} (hf : f ∉ Item.bodyForms) (form : Syntax) (parts : List Syntax)
    (context : ExpandContext) :
    core expand loader ns f form parts context =
      core expand loader ns f form parts .expression := by
  cases f with
  | begin | define | defineSyntax | moduleForm | require | provide =>
      exact absurd (by decide) hf
  | _ => rfl

theorem descend_bind_congr {β : Type} {depth : Nat} {form : Syntax} {f g : Nat → RunM β}
    (h : ∀ depth, f depth w = g depth w) :
    (descend depth form >>= f) w = (descend depth form >>= g) w := by
  rw [RunM.bind_apply, RunM.bind_apply]
  cases hdescend : descend depth form w with
  | error halt w' => rfl
  | ok depth w' =>
      obtain ⟨-, rfl⟩ := descend_eq_ok hdescend
      exact h depth

/-- In the body of a module, an expression is expanded as anywhere else. -/
theorem expand_eq_expression {form : Syntax} (loader : Loader)
    (hform : form.isSexp = false ∨
      ∃ head rest, form.subforms = head :: rest ∧ BeginsExpression w.spaces head)
    (fuel depth : Nat) (context : ExpandContext) :
    expand loader ns fuel depth context form w = expand loader ns fuel depth .expression form w := by
  cases fuel with
  | zero => rfl
  | succ fuel =>
      refine descend_bind_congr fun depth => ?_
      rcases hform with hform | ⟨head, rest, hparts, hhead⟩
      · rw [if_neg (by simp [hform]), if_neg (by simp [hform])]
      · rw [if_pos (isSexp_of_subforms hparts), if_pos (isSexp_of_subforms hparts)]
        cases fuel with
        | zero => rfl
        | succ fuel =>
            simp only [RunM.inContext, RunM.mapError, expandSexp, hparts, RunM.bind_apply,
              RunM.getSpaces_apply]
            cases hhead with
            | form hf hhead => simp only [hhead, core_of_expression hf _ _ context]
            | procedure hhead | other hhead => simp only [hhead]

/-! ## Definitions -/

/-- The identifier of a `define` is the one that the definition was read with. -/
theorem proceeds_definitionParts {reach : Reach} {form head target : Syntax} {rest : List Syntax}
    {name : String} (hname : definedName? target = some name) :
    Proceeds runtime reach (fun w' parts => w' = w ∧ parts.1.Names ns name)
      (definitionParts form (head :: target.introduce ns :: rest)) w := by
  have hident := isIdentifier_introduce ns target
  unfold definedName? at hname
  have hplain (h : target.isIdentifier = true) : (target.introduce ns).Names ns name := by
    rw [if_pos h] at hname
    exact Syntax.names_introduce ns hname
  -- A signature names the procedure first.
  have hprocedure (h : ¬target.isIdentifier = true) (body : List Syntax) :
      Proceeds runtime reach (fun w' parts => w' = w ∧ parts.1.Names ns name)
        (procedureParts form (target.introduce ns) body) w := by
    rw [if_neg h] at hname
    obtain ⟨first, hfirst, hname⟩ := Option.bind_eq_some_iff.1 hname
    obtain ⟨formals, hparts⟩ := List.head?_eq_some_iff.1 hfirst
    unfold procedureParts
    rw [Syntax.subforms_introduce, hparts]
    split
    · refine .check fun _ => ?_
      exact .get_bind fun _ => .pure ⟨rfl, Syntax.names_introduce ns hname⟩
    · exact .fail _
  -- An identifier is no signature.
  have hprocedure' (body : List Syntax) :
      Proceeds runtime reach (fun w' parts => w' = w ∧ parts.1.Names ns name)
        (procedureParts form (target.introduce ns) body) w := by
    by_cases h : target.isIdentifier = true
    · unfold procedureParts
      rw [if_neg]
      · exact .fail _
      · have hsymbol := (hplain h).symbol
        generalize target.introduce ns = stx at hsymbol
        unfold Syntax.symbol? at hsymbol
        split at hsymbol
        · exact Bool.false_ne_true
        · cases hsymbol
    · exact hprocedure h body
  unfold definitionParts
  rcases rest with _ | ⟨first, _ | ⟨second, _ | ⟨third, rest⟩⟩⟩
  · exact hprocedure' _
  · dsimp only
    rw [hident]
    split
    · rename_i h
      exact .pure ⟨rfl, hplain h⟩
    · rename_i h
      exact hprocedure h _
  · dsimp only
    rw [hident]
    split
    · rename_i h
      exact .pure ⟨rfl, hplain (Bool.and_eq_true_iff.1 h).1⟩
    · exact hprocedure' _
  · exact hprocedure' _

/-- The address of a definition is taken. -/
theorem proceeds_predefineForm {form head target : Syntax} {rest : List Syntax} {name : String}
    (hparts : form.subforms = head :: target :: rest) (hname : definedName? target = some name)
    (hnew : ¬runtime.Untouched id name) (h : Underway runtime ns id w) :
    Proceeds runtime { space := some ns }
      (fun w' form' => Builds runtime ns id w w' ∧
        (∃ d, w'.spaces.named? ns name = some (.defined d)) ∧
        ∃ rest', form'.subforms = head.introduce ns :: rest')
      (predefineForm ns (form.introduce ns)) w := by
  unfold predefineForm
  rw [Syntax.subforms_introduce, hparts, List.map_cons, List.map_cons]
  refine (proceeds_definitionParts hname).bind ?_
  rintro ⟨target', value⟩ w₁ hw₁ - ⟨rfl, htarget⟩
  refine .check fun _ => ?_
  refine (proceeds_predefine h htarget hnew).bind ?_
  rintro stx w₂ - - ⟨hbuilds, hdefined⟩
  exact .pure ⟨hbuilds, hdefined, _, Syntax.subforms_rebuildSexp _ _⟩

/-! ## The forms of the first pass -/

section

variable {loader : Loader} {form head : Syntax}

/-- What the first pass has done for an item. -/
def Item.Done (runtime : Runtime) (ns : NamespaceId) (id : ModuleId) (w : World) : Item → Prop
  | .require specs => ∀ spec ∈ specs, spec.Done runtime ns id w
  | .define name | .defineSyntax name => ∃ d, w.spaces.named? ns name = some (.defined d)
  | _ => True

section

variable {reach : Reach} (hw : w.Faithful runtime)
  (hfixed : ∀ name content, w.spaces.named? ns name = some content → content.Fixed →
    w'.spaces.named? ns name = some content)
  (hadvances : w.Advances runtime reach w')
include hw hfixed hadvances

theorem ImportSpec.Done.later {spec : ImportSpec} (h : spec.Done runtime ns id w) :
    spec.Done runtime ns id w' := by
  intro dep exported here origin hdep hbrings hexports
  obtain ⟨t, ⟨i, hi, hexplicit, ht⟩, hdefines⟩ := h dep exported here origin hdep hbrings hexports
  refine ⟨t, ⟨i, hfixed here _ hi hexplicit, hexplicit, ht⟩, ?_⟩
  exact hadvances.defines hw.modules hdefines

/-- What has been done stays done as long as nothing is taken back. -/
theorem Item.Done.later {item : Item} (h : item.Done runtime ns id w) :
    item.Done runtime ns id w' := by
  cases item with
  | require specs => exact fun spec hspec => (h spec hspec).later hw hfixed hadvances
  | define name | defineSyntax name =>
      obtain ⟨d, hd⟩ := h
      exact ⟨d, hfixed name _ hd trivial⟩
  | _ => trivial

end

theorem proceeds_requireSpecs (hloader : loader.Faithful runtime) {stxs : List Syntax}
    {specs : List ImportSpec}
    (hspecs : List.Forall₂ (fun stx spec => ImportSpec.read? stx = some spec) stxs specs)
    (hfits : ∀ spec ∈ specs, spec.Fits runtime id) (h : Underway runtime ns id w) :
    Proceeds runtime { space := some ns }
      (fun w' _ => Builds runtime ns id w w' ∧ ∀ spec ∈ specs, spec.Done runtime ns id w')
      (runEach (requireSpec loader ns) (stxs.map (Syntax.introduce ns))) w := by
  induction hspecs generalizing w with
  | nil => exact .pure ⟨.refl h, by simp⟩
  | @cons stx spec stxs specs hspec _ ih =>
      obtain ⟨hhere, hrest⟩ := List.forall_mem_cons.1 hfits
      refine (proceeds_requireSpec hloader hspec hhere h).bind ?_
      rintro _ w₁ hw₁ - ⟨hbuilds, hdone⟩
      refine (ih hrest hbuilds.underway).mono ?_
      rintro w₂ - - hadvances ⟨hbuilds', hdone'⟩
      refine ⟨hbuilds.trans hbuilds', List.forall_mem_cons.2 ⟨?_, hdone'⟩⟩
      exact hdone.later hw₁ hbuilds'.fixed hadvances

/-- A `require` form. -/
theorem proceeds_requireForm (hloader : loader.Faithful runtime) {operands : List Syntax}
    {specs : List ImportSpec} (hparts : form.subforms = head :: operands)
    (hhead : head.bareName? = some CoreForm.require.name)
    (hspecs : List.Forall₂ (fun stx spec => ImportSpec.read? stx = some spec) operands specs)
    (huntouched : runtime.Untouched id CoreForm.require.name)
    (hfits : ∀ spec ∈ specs, spec.Fits runtime id) (h : Underway runtime ns id w) (fuel depth : Nat) :
    Proceeds runtime { space := some ns }
      (fun w' _ => Builds runtime ns id w w' ∧ (Item.require specs).Done runtime ns id w')
      (expand loader ns fuel depth .moduleBody (form.introduce ns)) w := by
  have hparts' : (form.introduce ns).subforms =
      head.introduce ns :: operands.map (Syntax.introduce ns) := by
    rw [Syntax.subforms_introduce, hparts, List.map_cons]
  refine proceeds_expand_core hparts'
    (fun hw => headValue_core hw h (Syntax.names_introduce ns hhead) huntouched) (fun fuel depth => ?_)
    fuel depth
  refine (proceeds_requireSpecs hloader hspecs hfits h).bind ?_
  rintro _ w₁ - - hdone
  exact .pure hdone

/-- The expansion of a `define_syntax` form takes the address of its name. -/
theorem proceeds_expandSyntax (hloader : loader.Obedient runtime.languageGuard) {target : Syntax}
    {rest : List Syntax} {name : String} (hparts : form.subforms = head :: target :: rest)
    (hhead : head.bareName? = some CoreForm.defineSyntax.name)
    (hname : target.bareName? = some name)
    (huntouched : runtime.Untouched id CoreForm.defineSyntax.name) (hnew : ¬runtime.Untouched id name)
    (h : Underway runtime ns id w) (fuel depth : Nat) :
    Proceeds runtime { space := some ns }
      (fun w' _ => Builds runtime ns id w w' ∧ (Item.defineSyntax name).Done runtime ns id w')
      (expand loader ns fuel depth .moduleBody (form.introduce ns)) w := by
  have hparts' : (form.introduce ns).subforms =
      head.introduce ns :: target.introduce ns :: rest.map (Syntax.introduce ns) := by
    rw [Syntax.subforms_introduce, hparts, List.map_cons, List.map_cons]
  refine proceeds_expand_core hparts'
    (fun hw => headValue_core hw h (Syntax.names_introduce ns hhead) huntouched) (fun fuel depth => ?_)
    fuel depth
  refine (h.tidy (tidy_expectCount _ _ _ _) (harmless_expectCount _ _ _ _ w)).bind ?_
  rintro _ w₁ - - ⟨hbuilds, -⟩
  match rest with
  | [value] =>
      refine (proceeds_predefine hbuilds.underway (Syntax.names_introduce ns hname) hnew).bind ?_
      rintro target' w₂ hw₂ - ⟨hbuilds', hdone⟩
      have hvalue := harmless_expand hloader ns fuel depth .expression (value.introduce ns) w₂
      refine (hbuilds'.underway.tidy (tidy_expand _ _ _ _ _) hvalue).bind ?_
      rintro value' w₃ hw₃ hadvances ⟨hbuilds'', -⟩
      have hdone' : (Item.defineSyntax name).Done runtime ns id w₂ := hdone
      exact .pure ⟨(hbuilds.trans hbuilds').trans hbuilds'', hdone'.later hw₂ hbuilds''.fixed hadvances⟩
  | [] => exact .fail _
  | _ :: _ :: _ => exact .fail _

/-- A `define_syntax` form. -/
theorem proceeds_syntaxForm (hloader : loader.Obedient runtime.languageGuard) {target : Syntax}
    {rest : List Syntax} {name : String} (hparts : form.subforms = head :: target :: rest)
    (hhead : head.bareName? = some CoreForm.defineSyntax.name)
    (hname : target.bareName? = some name)
    (huntouched : runtime.Untouched id CoreForm.defineSyntax.name) (hnew : ¬runtime.Untouched id name)
    (h : Underway runtime ns id w) (fuel : Nat) :
    Proceeds runtime { space := some ns }
      (fun w' _ => Builds runtime ns id w w' ∧ (Item.defineSyntax name).Done runtime ns id w')
      (runForm loader fuel ns .moduleBody (form.introduce ns)) w := by
  refine (proceeds_expandSyntax hloader hparts hhead hname huntouched hnew h fuel 0).bind ?_
  rintro expanded w₁ hw₁ - ⟨hbuilds, hdone⟩
  refine (hbuilds.underway.tidy (tidy_compile ns expanded)
    (respects_compile_outside h.outside expanded)).bind ?_
  rintro code w₂ hw₂ hadvances ⟨hbuilds', hcode⟩
  have hdone' := hdone.later hw₁ hbuilds'.fixed hadvances
  refine (hbuilds'.underway.tidy (.of_stays (eval_stays fuel code _))
    (respects_eval fuel code ⟨ns, none⟩ w₂ hcode)).mono ?_
  rintro w₃ v - hadvances' ⟨hbuilds'', -⟩
  exact ⟨(hbuilds.trans hbuilds').trans hbuilds'', hdone'.later hw₂ hbuilds''.fixed hadvances'⟩

/-! ## The pass -/

/-- Whether the item is left to the second pass. -/
def Item.waits : Item → Bool
  | .require _ | .defineSyntax _ => false
  | _ => true

/-- What is left of an item. -/
inductive Item.Pending (ns : NamespaceId) : Item → Syntax → Prop
  | define {form head : Syntax} {rest : List Syntax} {name : String}
      (hparts : form.subforms = head :: rest) (hhead : head.Names ns CoreForm.define.name) :
      Pending ns (.define name) form
  | provide {form head : Syntax} {operands : List Syntax} {specs : List ExportSpec}
      (hparts : form.subforms = head :: operands.map (Syntax.introduce ns))
      (hhead : head.Names ns CoreForm.provide.name)
      (hspecs : List.Forall₂ (fun stx spec => ExportSpec.read? stx = some spec) operands specs) :
      Pending ns (.provide specs) form
  | expression {form head : Syntax} {rest : List Syntax} {name : String}
      (hparts : form.subforms = head :: rest) (hhead : head.Names ns name)
      (hname : name ∉ bodyForms.map CoreForm.name) : Pending ns (.expression name) form
  | application {form head : Syntax} {rest : List Syntax} (hparts : form.subforms = head :: rest)
      (hhead : head.isIdentifier = false) : Pending ns (.expression none) form
  | datum {form : Syntax} (hform : form.isSexp = false) : Pending ns (.expression none) form

/-- The items begin with names of the language that are kept in the module, and give none of those a new
meaning. -/
structure Runtime.Fits (runtime : Runtime) (id : ModuleId) (items : List Item) : Prop where
  heads : ∀ item ∈ items, ∀ name, item.head? = some name → runtime.Untouched id name
  newNames : ∀ item ∈ items, ∀ name ∈ item.newNames, ¬runtime.Untouched id name
  imports : ∀ item ∈ items, ∀ spec ∈ item.importSpecs, spec.Fits runtime id

/-- The first pass has done its part. -/
structure FirstPassed (runtime : Runtime) (ns : NamespaceId) (id : ModuleId) (items : List Item)
    (w w' : World) (pending : List Syntax) : Prop where
  builds : Builds runtime ns id w w'
  done : ∀ item ∈ items, item.Done runtime ns id w'
  pending : List.Forall₂ (Item.Pending ns) (items.filter Item.waits) pending

section

variable {item : Item} {items : List Item} {w₁ w₂ : World} {pending : List Syntax}

/-- An item that is done with, before the others. -/
theorem FirstPassed.cons_done (h : FirstPassed runtime ns id items w₁ w₂ pending)
    (hwaits : item.waits = false) (hw₁ : w₁.Faithful runtime) (hbuilds : Builds runtime ns id w w₁)
    (hdone : item.Done runtime ns id w₁)
    (hadvances : w₁.Advances runtime { space := some ns } w₂) :
    FirstPassed runtime ns id (item :: items) w w₂ pending where
  builds := hbuilds.trans h.builds
  done := List.forall_mem_cons.2 ⟨hdone.later hw₁ h.builds.fixed hadvances, h.done⟩
  pending := by
    rw [List.filter_cons_of_neg (by simp [hwaits])]
    exact h.pending

/-- An item of which something is left. -/
theorem FirstPassed.cons_waits (h : FirstPassed runtime ns id items w₁ w₂ pending)
    (hwaits : item.waits = true) {form : Syntax} (hform : item.Pending ns form)
    (hw₁ : w₁.Faithful runtime) (hbuilds : Builds runtime ns id w w₁)
    (hdone : item.Done runtime ns id w₁)
    (hadvances : w₁.Advances runtime { space := some ns } w₂) :
    FirstPassed runtime ns id (item :: items) w w₂ (form :: pending) where
  builds := hbuilds.trans h.builds
  done := List.forall_mem_cons.2 ⟨hdone.later hw₁ h.builds.fixed hadvances, h.done⟩
  pending := by
    rw [List.filter_cons_of_pos hwaits]
    exact .cons hform h.pending

end

theorem Runtime.Fits.tail {item : Item} {items : List Item} (h : runtime.Fits id (item :: items)) :
    runtime.Fits id items :=
  ⟨fun item hitem => h.heads item (List.mem_cons_of_mem _ hitem),
    fun item hitem => h.newNames item (List.mem_cons_of_mem _ hitem),
    fun item hitem => h.imports item (List.mem_cons_of_mem _ hitem)⟩

theorem proceeds_firstPass (hobedient : loader.Obedient runtime.languageGuard)
    (hloader : loader.Faithful runtime) {forms : List Syntax} {items : List Item}
    (hforms : List.Forall₂ (fun form item => Item.read? form = some item) forms items)
    (hfits : runtime.Fits id items) (h : Underway runtime ns id w) (fuel : Nat) :
    Proceeds runtime { space := some ns } (FirstPassed runtime ns id items w)
      (firstPass loader ns fuel (forms.map (Syntax.introduce ns))) w := by
  induction fuel generalizing forms items w with
  | zero => exact .exhausted
  | succ fuel ih =>
      cases hforms with
      | nil => exact .pure ⟨.refl h, by simp, .nil⟩
      | @cons form item forms items hform hforms =>
          rw [List.map_cons, firstPass]
          cases fuel with
          | zero => exact Proceeds.bind (P := fun _ _ => False) .exhausted fun _ _ _ _ h => h.elim
          | succ fuel =>
              refine .faithful fun hw => ?_
              have hhere : ∀ name, item.head? = some name → runtime.Untouched id name :=
                hfits.heads item List.mem_cons_self
              have hnew : ∀ name ∈ item.newNames, ¬runtime.Untouched id name :=
                hfits.newNames item List.mem_cons_self
              have hintroduce {head : Syntax} {rest : List Syntax}
                  (h : form.subforms = head :: rest) :
                  (form.introduce ns).subforms =
                    head.introduce ns :: rest.map (Syntax.introduce ns) := by
                rw [Syntax.subforms_introduce, h, List.map_cons]
              -- What waits without anything being done.
              have hwaits (hwaits : item.waits = true) (hdone : item.Done runtime ns id w)
                  (hpending : item.Pending ns (form.introduce ns)) :
                  Proceeds runtime { space := some ns } (FirstPassed runtime ns id (item :: items) w)
                    (firstPass loader ns (fuel + 1) (forms.map (Syntax.introduce ns)) >>=
                      fun rest => pure (form.introduce ns :: rest)) w := by
                refine (ih hforms hfits.tail h).bind ?_
                intro pending w₁ _ hadvances hpassed
                exact .pure (hpassed.cons_waits hwaits hpending hw (.refl h) hdone hadvances)
              -- Each kind of item is recognized by what it begins with.
              cases Item.reads_of_read? hform with
              | @require head operands specs hparts hhead hspecs =>
                  have hvalue := headValue_core hw h (Syntax.names_introduce ns hhead) (hhere _ rfl)
                  refine .ok_bind (partialExpand_core (hintroduce hparts) hvalue (by decide) fuel 0) ?_
                  refine (proceeds_requireForm hloader hparts hhead hspecs (hhere _ rfl)
                    (hfits.imports _ List.mem_cons_self) h _ 0).bind ?_
                  rintro _ w₁ hw₁ - ⟨hbuilds, hdone⟩
                  refine (ih hforms hfits.tail hbuilds.underway).mono ?_
                  rintro w₂ pending - hadvances hpassed
                  exact hpassed.cons_done rfl hw₁ hbuilds hdone hadvances
              | @provide head operands specs hparts hhead hspecs =>
                  have hnames := Syntax.names_introduce ns hhead
                  have hvalue := headValue_core hw h hnames (hhere _ rfl)
                  refine .ok_bind (partialExpand_core (hintroduce hparts) hvalue (by decide) fuel 0) ?_
                  exact hwaits rfl trivial (.provide (hintroduce hparts) hnames hspecs)
              | @define head target rest name hparts hhead hname =>
                  have hnames := Syntax.names_introduce ns hhead
                  have hvalue := headValue_core hw h hnames (hhere _ rfl)
                  refine .ok_bind (partialExpand_core (hintroduce hparts) hvalue (by decide) fuel 0) ?_
                  have hdefined := hnew name List.mem_cons_self
                  refine (proceeds_predefineForm hparts hname hdefined h).bind ?_
                  rintro form' w₁ hw₁ - ⟨hbuilds, hdone, rest', hform'⟩
                  refine (ih hforms hfits.tail hbuilds.underway).bind ?_
                  intro pending w₂ _ hadvances hpassed
                  have hpending : (Item.define name).Pending ns form' := .define hform' hnames
                  exact .pure (hpassed.cons_waits rfl hpending hw₁ hbuilds hdone hadvances)
              | @defineSyntax head target rest name hparts hhead hname =>
                  have hvalue := headValue_core hw h (Syntax.names_introduce ns hhead) (hhere _ rfl)
                  refine .ok_bind (partialExpand_core (hintroduce hparts) hvalue (by decide) fuel 0) ?_
                  have hdefined := hnew name List.mem_cons_self
                  refine (proceeds_syntaxForm hobedient hparts hhead hname (hhere _ rfl) hdefined h
                    _).bind ?_
                  rintro _ w₁ hw₁ - ⟨hbuilds, hdone⟩
                  refine (ih hforms hfits.tail hbuilds.underway).mono ?_
                  rintro w₂ pending - hadvances hpassed
                  exact hpassed.cons_done rfl hw₁ hbuilds hdone hadvances
              | @expression head operands name hparts hhead hname =>
                  have hnames := Syntax.names_introduce ns hhead
                  have hpending := Item.Pending.expression (hintroduce hparts) hnames hname
                  cases beginsExpression hw h hnames (hhere _ rfl) hname with
                  | @form f hf hvalue =>
                      have hbegin : f ≠ .begin := fun h => hf (h ▸ by decide)
                      refine .ok_bind (partialExpand_core (hintroduce hparts) hvalue hbegin fuel 0) ?_
                      cases f with
                      | begin | define | defineSyntax | moduleForm | require | provide =>
                          exact absurd (by decide) hf
                      | _ => exact hwaits rfl trivial hpending
                  | procedure hvalue =>
                      refine .ok_bind (partialExpand_procedure (hintroduce hparts) hvalue fuel 0) ?_
                      exact hwaits rfl trivial hpending
                  | other hvalue =>
                      refine .ok_bind (partialExpand_other (hintroduce hparts) hvalue fuel 0) ?_
                      exact hwaits rfl trivial hpending
              | @application head operands hparts hhead =>
                  have hident := (isIdentifier_introduce ns head).trans hhead
                  have hvalue := headValue?_of_isIdentifier w.spaces hident
                  refine .ok_bind (partialExpand_other (hintroduce hparts) hvalue fuel 0) ?_
                  exact hwaits rfl trivial (.application (hintroduce hparts) hident)
              | datum hsexp =>
                  have hdatum := (Syntax.isSexp_introduce ns form).trans hsexp
                  refine .ok_bind (partialExpand_datum hdatum fuel 0) ?_
                  exact hwaits rfl trivial (.datum hdatum)

end

end HygienicLisp
