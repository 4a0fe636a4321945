import HygienicLisp.Proofs.Evaluation.Surroundings
import HygienicLisp.Proofs.FullExpansion.Shapes
import HygienicLisp.Proofs.Hygiene
import Mathlib.Data.List.Nodup

/-!
# Expanded expressions

`Settled S bound Δ e` says of an expression `e` inside the binding forms `Δ` that there is nothing
left in it to expand: at the head of each of its forms stands the name of the core form that it is,
and no other identifier in the place of an expression is, in the namespaces `S`, the name of a core
form or of a transformer.  It also says where the binders of `e` point.  Each binding form has a rib
of its own, newer than those around it and older than `bound`, and its binders denote the slots of
that rib (`Layer.Fits`).

Main statement: `settled_expand`.  The result of an expansion is settled in `S`, if every form was
met as what it is in `S`.
-/

namespace HygienicLisp

open Expansion

/-! ## Settled expressions -/

/-- A binding form around a place: the rib that was made for it, and its binders. -/
structure Layer where
  rib : RibId
  binders : List Syntax

/-- The binders denote the slots of the rib, which is newer than the ribs around it. -/
structure Layer.Fits (S : Spaces) (bound : RibId) (outer : List Layer) (layer : Layer) : Prop where
  identifier : ∀ binder ∈ layer.binders, binder.isIdentifier
  unrecorded : ∀ binder ∈ layer.binders, binder.context.binding = none
  resolves : ∀ i binder, layer.binders[i]? = some binder →
    (S.resolveWithMarks binder).1 = some (.lexical ⟨binder.symbol?.getD "", layer.rib, i⟩)
  made : ∃ keys : List Key, keys.length = layer.binders.length ∧
    ∀ binder ∈ layer.binders, .rename ⟨layer.rib, keys⟩ ∈ binder.wraps
  newer : ∀ other ∈ outer, other.rib < layer.rib
  older : layer.rib < bound

/-- There is nothing left to expand in the expression. -/
inductive Settled (S : Spaces) (bound : RibId) : List Layer → Syntax → Prop
  | name {Δ : List Layer} {x : Syntax} (hid : x.isIdentifier) (hkind : headKind S x = .variable) :
      Settled S bound Δ x
  | datum {Δ : List Layer} {c : Context} {a : Atom} (hdata : (Syntax.atom c a).isIdentifier = false) :
      Settled S bound Δ (.atom c a)
  | list {Δ : List Layer} {stx : Syntax} {elements : List Syntax}
      (hparts : stx.elements? = some elements) (hall : ∀ part ∈ elements, Settled S bound Δ part) :
      Settled S bound Δ stx
  | record {Δ : List Layer} {stx : Syntax} {fields : List (String × Syntax)}
      (hparts : stx.fields? = some fields) (hall : ∀ field ∈ fields, Settled S bound Δ field.2) :
      Settled S bound Δ stx
  | application {Δ : List Layer} {stx operator : Syntax} {operands : List Syntax}
      (hparts : stx.subforms? = some (operator :: operands))
      (hall : ∀ part ∈ operator :: operands, Settled S bound Δ part) : Settled S bound Δ stx
  | quotation {Δ : List Layer} {stx head datum : Syntax} {f : CoreForm}
      (hf : f = .quote ∨ f = .quoteSyntax) (hparts : stx.subforms? = some [head, datum])
      (hhead : headKind S head = .core f) : Settled S bound Δ stx
  | conditional {Δ : List Layer} {stx head test consequent alternative : Syntax}
      (hparts : stx.subforms? = some [head, test, consequent, alternative])
      (hhead : headKind S head = .core .ifForm)
      (hall : ∀ part ∈ [test, consequent, alternative], Settled S bound Δ part) :
      Settled S bound Δ stx
  | sequence {Δ : List Layer} {stx head : Syntax} {forms : List Syntax}
      (hparts : stx.subforms? = some (head :: forms)) (hhead : headKind S head = .core .begin)
      (hall : ∀ part ∈ forms, Settled S bound Δ part) : Settled S bound Δ stx
  | lambda {Δ : List Layer} {stx head formals : Syntax} {body : List Syntax} {layer : Layer}
      (hparts : stx.subforms? = some (head :: formals :: body))
      (hhead : headKind S head = .core .lambda) (hformals : IsFormals formals layer.binders)
      (hlayer : layer.Fits S bound Δ) (hbody : body ≠ [])
      (hall : ∀ part ∈ body, Settled S bound (layer :: Δ) part) : Settled S bound Δ stx
  | letForm {Δ : List Layer} {stx head clauses : Syntax} {body : List Syntax}
      {pairs : List (Syntax × Syntax)} {layer : Layer}
      (hparts : stx.subforms? = some (head :: clauses :: body))
      (hhead : headKind S head = .core .letForm) (hclauses : IsClauses clauses pairs)
      (hbinders : layer.binders = pairs.map (·.1)) (hlayer : layer.Fits S bound Δ)
      (hbody : body ≠ []) (hinits : ∀ pair ∈ pairs, Settled S bound Δ pair.2)
      (hall : ∀ part ∈ body, Settled S bound (layer :: Δ) part) : Settled S bound Δ stx
  | letrec {Δ : List Layer} {stx head clauses : Syntax} {body : List Syntax}
      {pairs : List (Syntax × Syntax)} {layer : Layer}
      (hparts : stx.subforms? = some (head :: clauses :: body))
      (hhead : headKind S head = .core .letrec) (hclauses : IsClauses clauses pairs)
      (hbinders : layer.binders = pairs.map (·.1)) (hlayer : layer.Fits S bound Δ)
      (hbody : body ≠ []) (hinits : ∀ pair ∈ pairs, Settled S bound (layer :: Δ) pair.2)
      (hall : ∀ part ∈ body, Settled S bound (layer :: Δ) part) : Settled S bound Δ stx
  | assignment {Δ : List Layer} {stx head target value : Syntax}
      (hparts : stx.subforms? = some [head, target, value]) (hhead : headKind S head = .core .set)
      (htarget : target.isIdentifier) (hvalue : Settled S bound Δ value) : Settled S bound Δ stx
  | parameterize {Δ : List Layer} {stx head clauses : Syntax} {body : List Syntax}
      {pairs : List (Syntax × Syntax)}
      (hparts : stx.subforms? = some (head :: clauses :: body))
      (hhead : headKind S head = .core .parameterize) (hclauses : IsClauses clauses pairs)
      (hbody : body ≠ []) (hfirsts : ∀ pair ∈ pairs, Settled S bound Δ pair.1)
      (hseconds : ∀ pair ∈ pairs, Settled S bound Δ pair.2)
      (hall : ∀ part ∈ body, Settled S bound Δ part) : Settled S bound Δ stx

/-- What stands at the head of an application is no name of a core form or of a transformer. -/
theorem Settled.headKind {S : Spaces} {bound : RibId} {Δ : List Layer} {e : Syntax}
    (h : Settled S bound Δ e) : headKind S e = .variable := by
  cases h with
  | name _ hkind => exact hkind
  | datum hdata => exact headKind_of_not_identifier hdata
  | @list _ _ _ hparts =>
      refine headKind_of_not_identifier ?_
      cases e with
      | atom => cases hparts
      | group => rfl
      | record => rfl
  | @record _ _ _ hparts =>
      refine headKind_of_not_identifier ?_
      cases e with
      | atom => cases hparts
      | group => rfl
      | record => rfl
  | application hparts | quotation _ hparts | conditional hparts | sequence hparts | lambda hparts
  | letForm hparts | letrec hparts | assignment hparts | parameterize hparts =>
      exact headKind_of_not_identifier (Syntax.isIdentifier_eq_false_of_subforms? hparts)

/-! ## Worlds during an expansion -/

/-- What the expansion of expressions leaves as it is, while it draws ribs. -/
structure Calm (w w' : World) : Prop where
  cells : w'.spaces.cells = w.spaces.cells
  runtime : w'.runtime = w.runtime
  ribs : w.nextRib ≤ w'.nextRib

namespace Calm

variable {w w₁ w₂ : World}

theorem refl (w : World) : Calm w w := ⟨rfl, rfl, le_rfl⟩

theorem trans (h : Calm w w₁) (h' : Calm w₁ w₂) : Calm w w₂ :=
  ⟨h'.cells.trans h.cells, h'.runtime.trans h.runtime, h.ribs.trans h'.ribs⟩

theorem drawRib (w : World) : Calm w { w with nextRib := w.nextRib + 1 } :=
  ⟨rfl, rfl, Nat.le_succ _⟩

theorem of_surroundings (h : w₁.surroundings = w.surroundings) : Calm w w₁ := by
  have hruntime := congrArg World.runtime h
  exact ⟨World.cells_eq h, hruntime, (World.nextRib_eq h).ge⟩

theorem invoke {fuel : Nat} {id procedureId : ObjectId} {p : Procedure} {form result : Syntax}
    (h : HygienicLisp.invoke fuel id procedureId p form w = .ok result w₁) : Calm w w₁ := by
  obtain ⟨output, hrun, -⟩ := invoke_eq_ok h
  have hstays := applyProcedure_stays fuel (.procedure procedureId p)
    [.stx (transformerInput w form).1] (transformerWorld w form)
  rw [RunM.leaves, hrun] at hstays
  obtain ⟨hcells, hruntime, hribs⟩ := of_surroundings hstays
  exact ⟨hcells, hruntime, hribs⟩

end Calm

/-- The expansion of an expression has led from one world to another, and if the cells are those of
`S`, then what `P` says of the layers around the expression and of the bound of their ribs holds. -/
def Leads (S : Spaces) (w w' : World) (P : List Layer → RibId → Prop) : Prop :=
  Calm w w' ∧ (w.spaces.cells = S.cells → ∀ Δ bound, (∀ layer ∈ Δ, layer.rib < w.nextRib) →
    w'.nextRib ≤ bound → P Δ bound)

/-- Expressions are expanded to what is settled in `S`. -/
def Settles (S : Spaces) (expand : ExpandContext → Syntax → RunM Syntax) : Prop :=
  ∀ ⦃form : Syntax⦄ ⦃w : World⦄ ⦃e : Syntax⦄ ⦃w' : World⦄,
    expand .expression form w = .ok e w' → Leads S w w' fun Δ bound => Settled S bound Δ e

section

variable {S : Spaces} {expand : ExpandContext → Syntax → RunM Syntax} {w w' : World}
  {form e head : Syntax}

/-! ## Sequences -/

theorem settles_expandEach (hexpand : Settles S expand) {forms es : List Syntax}
    (h : expandEach expand .expression forms w = .ok es w') :
    es.length = forms.length ∧ Leads S w w' fun Δ bound => ∀ e ∈ es, Settled S bound Δ e := by
  induction forms generalizing w es with
  | nil =>
      cases h
      exact ⟨rfl, .refl _, fun _ Δ bound _ _ e he => nomatch he⟩
  | cons stx rest ih =>
      obtain ⟨e, w₁, hstx, h⟩ := RunM.bind_eq_ok.1 h
      obtain ⟨es, w₂, hrest, h⟩ := RunM.bind_eq_ok.1 h
      cases h
      obtain ⟨hcalm, hfirst⟩ := hexpand hstx
      obtain ⟨hlength, hcalm', hothers⟩ := ih hrest
      refine ⟨congrArg (· + 1) hlength, hcalm.trans hcalm', fun hw Δ bound hΔ hbound => ?_⟩
      refine List.forall_mem_cons.2 ⟨hfirst hw Δ bound hΔ (hcalm'.ribs.trans hbound), ?_⟩
      have hΔ₁ : ∀ layer ∈ Δ, layer.rib < w₁.nextRib :=
        fun layer hlayer => (hΔ layer hlayer).trans_le hcalm.ribs
      exact hothers (hcalm.cells.trans hw) Δ bound hΔ₁ hbound

theorem settles_expandFields (hexpand : Settles S expand) {fields es : List (String × Syntax)}
    (h : expandFields expand fields w = .ok es w') :
    Leads S w w' fun Δ bound => ∀ e ∈ es, Settled S bound Δ e.2 := by
  induction fields generalizing w es with
  | nil =>
      cases h
      exact ⟨.refl _, fun _ Δ bound _ _ e he => nomatch he⟩
  | cons field rest ih =>
      obtain ⟨e, w₁, hstx, h⟩ := RunM.bind_eq_ok.1 h
      obtain ⟨es, w₂, hrest, h⟩ := RunM.bind_eq_ok.1 h
      cases h
      obtain ⟨hcalm, hfirst⟩ := hexpand hstx
      obtain ⟨hcalm', hothers⟩ := ih hrest
      refine ⟨hcalm.trans hcalm', fun hw Δ bound hΔ hbound => ?_⟩
      refine List.forall_mem_cons.2 ⟨hfirst hw Δ bound hΔ (hcalm'.ribs.trans hbound), ?_⟩
      have hΔ₁ : ∀ layer ∈ Δ, layer.rib < w₁.nextRib :=
        fun layer hlayer => (hΔ layer hlayer).trans_le hcalm.ribs
      exact hothers (hcalm.cells.trans hw) Δ bound hΔ₁ hbound

theorem settles_parameterClauses (hexpand : Settles S expand) {items items' : List Syntax}
    (h : parameterClauses expand items w = .ok items' w') :
    ∃ pairs : List (Syntax × Syntax),
      items'.map Syntax.subforms = pairs.map (fun pair => [pair.1, pair.2]) ∧
      Leads S w w' fun Δ bound =>
        ∀ pair ∈ pairs, Settled S bound Δ pair.1 ∧ Settled S bound Δ pair.2 := by
  induction items generalizing w items' with
  | nil =>
      cases h
      exact ⟨[], rfl, .refl _, fun _ Δ bound _ _ pair hpair => nomatch hpair⟩
  | cons clause rest ih =>
      rcases hclause : clause.subforms with _ | ⟨parameter, _ | ⟨value, _ | ⟨other, others⟩⟩⟩ <;>
        simp only [parameterClauses, hclause] at h
      · cases h
      · cases h
      · obtain ⟨e₁, w₁, h₁, h⟩ := RunM.bind_eq_ok.1 h
        obtain ⟨e₂, w₂, h₂, h⟩ := RunM.bind_eq_ok.1 h
        obtain ⟨rest', w₃, hrest, h⟩ := RunM.bind_eq_ok.1 h
        cases h
        obtain ⟨hcalm₁, hfirst⟩ := hexpand h₁
        obtain ⟨hcalm₂, hsecond⟩ := hexpand h₂
        obtain ⟨pairs, hpairs, hcalm₃, hothers⟩ := ih hrest
        have hcalm := hcalm₁.trans hcalm₂
        refine ⟨(e₁, e₂) :: pairs, ?_, hcalm.trans hcalm₃, fun hw Δ bound hΔ hbound => ?_⟩
        · rw [List.map_cons, List.map_cons, hpairs, Syntax.subforms_rebuildSexp]
        · have hw₁ := hcalm₁.cells.trans hw
          have hw₂ := hcalm.cells.trans hw
          have hΔ₁ : ∀ layer ∈ Δ, layer.rib < w₁.nextRib :=
            fun layer hlayer => (hΔ layer hlayer).trans_le hcalm₁.ribs
          have hΔ₂ : ∀ layer ∈ Δ, layer.rib < w₂.nextRib :=
            fun layer hlayer => (hΔ layer hlayer).trans_le hcalm.ribs
          -- Every bound holds at the end of the run, and so at the end of each of its parts.
          have hbound₂ := hcalm₃.ribs.trans hbound
          have hparameter := hfirst hw Δ bound hΔ (hcalm₂.ribs.trans hbound₂)
          have hvalue := hsecond hw₁ Δ bound hΔ₁ hbound₂
          exact List.forall_mem_cons.2 ⟨⟨hparameter, hvalue⟩, hothers hw₂ Δ bound hΔ₂ hbound⟩
      · cases h

/-! ## Ribs -/

/-- A binder inside its rib denotes its slot. -/
theorem resolveWithMarks_renamed {spaces : Spaces} {id : RibId} {binders : List Syntax}
    (hids : ∀ binder ∈ binders, binder.isIdentifier)
    (hkeys : (binders.map spaces.binderKey).Nodup) {i : Nat} {binder : Syntax}
    (hbinder : binders[i]? = some binder) :
    (spaces.resolveWithMarks (binder.addWrap (.rename ⟨id, binders.map spaces.binderKey⟩))).1 =
      some (.lexical ⟨binder.symbol?.getD "", id, i⟩) := by
  obtain ⟨name, hname⟩ := Option.isSome_iff_exists.1 (hids binder (List.mem_of_getElem? hbinder))
  have hslot : (binders.map spaces.binderKey).findIdx? (· = spaces.binderKey binder) = some i := by
    obtain ⟨hlt, hget⟩ := List.getElem?_eq_some_iff.1
      (show (binders.map spaces.binderKey)[i]? = some (spaces.binderKey binder) by simp [hbinder])
    refine List.findIdx?_eq_some_iff_getElem.2 ⟨hlt, by simp [hget], fun j hj hsame => ?_⟩
    have hji := (List.Nodup.getElem_inj_iff hkeys).1 ((of_decide_eq_true hsame).trans hget.symm)
    omega
  have hkey : spaces.binderKey binder =
      ⟨name, (spaces.resolveWraps name none binder.wraps).1.getD (.free name),
        (spaces.resolveWraps name none binder.wraps).2⟩ := by
    simp [Spaces.binderKey, Spaces.bindingKey, Spaces.resolveWithMarks, hname]
  rw [Spaces.resolveWithMarks, Syntax.symbol?_addWrap, hname]
  simp only [Syntax.wraps_addWrap, pushWrap_rename]
  rw [Spaces.resolveWraps_rename_cons, ← hkey, Rib.substitute?]
  simp only [hslot, Option.map_some, Option.getD_some]
  rw [hkey]

theorem Layer.fits_of_newRib {binders : List Syntax} {rib : Rib} {outer : List Layer} {bound : RibId}
    (hw : w.spaces.cells = S.cells) (h : newRib binders w = .ok rib w')
    (houter : ∀ other ∈ outer, other.rib < w.nextRib) (hbound : w'.nextRib ≤ bound) :
    Layer.Fits S bound outer ⟨w.nextRib, renamed rib binders⟩ := by
  obtain ⟨hids, rfl, hkeys, rfl⟩ := newRib_eq_ok.1 h
  refine ⟨?_, ?_, ?_, ⟨binders.map w.spaces.binderKey, by simp [renamed], ?_⟩, houter, hbound⟩
  · intro binder hbinder
    obtain ⟨binder, hmem, rfl⟩ := List.mem_map.1 hbinder
    rw [Syntax.isIdentifier_addWrap]
    exact hids binder hmem
  · intro binder hbinder
    obtain ⟨binder, -, rfl⟩ := List.mem_map.1 hbinder
    exact Syntax.binding_addWrap _ _
  · intro i binder hbinder
    rw [renamed, List.getElem?_map] at hbinder
    obtain ⟨binder, hmem, rfl⟩ := Option.map_eq_some_iff.1 hbinder
    rw [← Spaces.resolveWithMarks_congr hw, Syntax.symbol?_addWrap]
    exact resolveWithMarks_renamed hids hkeys hmem
  · intro binder hbinder
    obtain ⟨binder, -, rfl⟩ := List.mem_map.1 hbinder
    rw [Syntax.wraps_addWrap, pushWrap_rename]
    exact List.mem_cons_self

/-! ## Core forms -/

theorem isFormals_renamed {rib : Rib} {formals : Syntax} {binders : List Syntax}
    (h : IsFormals formals binders) :
    IsFormals (if formals.isIdentifier then formals.addWrap (.rename rib)
      else formals.rebuildSexp (renamed rib binders)) (renamed rib binders) := by
  rw [IsFormals] at h ⊢
  cases hid : formals.isIdentifier with
  | true =>
      rw [hid, if_pos rfl] at h
      cases h
      simp [renamed, hid]
  | false =>
      simp only [Bool.false_eq_true, if_false, Syntax.isIdentifier_rebuildSexp]
      exact Syntax.subforms?_rebuildSexp _ _

theorem settles_lambda (hexpand : Settles S expand)
    {rest : List Syntax} (hhead : headKind S head = .core .lambda)
    (h : Expansion.lambda expand form (head :: rest) w = .ok e w') :
    Leads S w w' fun Δ bound => Settled S bound Δ e := by
  obtain ⟨_, formals, body, binders, rib, w₁, body', hparts, hbody, hformals, hrib, hexpanded, rfl⟩ :=
    lambda_eq_ok.1 h
  cases hparts
  obtain ⟨-, -, -, hw₁⟩ := newRib_eq_ok.1 hrib
  have hcalm₁ : Calm w w₁ := hw₁ ▸ Calm.drawRib w
  obtain ⟨hlength, hcalm₂, hsettled⟩ :=
    settles_expandEach hexpand hexpanded
  refine ⟨hcalm₁.trans hcalm₂, fun hw Δ bound hΔ hbound => ?_⟩
  refine .lambda (Syntax.subforms?_rebuildSexp _ _) hhead (isFormals_renamed hformals)
    (Layer.fits_of_newRib hw hrib hΔ (hcalm₂.ribs.trans hbound)) ?_ ?_
  · rintro rfl
    simp [renamed, eq_comm, hbody] at hlength
  · refine hsettled (hcalm₁.cells.trans hw) _ bound
      (List.forall_mem_cons.2 ⟨?_, fun layer hlayer => ?_⟩) hbound
    · simp [hw₁]
    · exact (hΔ layer hlayer).trans_le hcalm₁.ribs

/-- The clauses of an expanded binding form bind the binders inside the rib. -/
theorem map_fst_zip_renamed {rib : Rib} {pairs : List (Syntax × Syntax)} {inits : List Syntax}
    (hlength : inits.length = pairs.length) :
    ((renamed rib (pairs.map (·.1))).zip inits).map (·.1) = renamed rib (pairs.map (·.1)) :=
  List.map_fst_zip (by simp [renamed, hlength])

theorem settles_letForm (hexpand : Settles S expand)
    {rest : List Syntax} (hhead : headKind S head = .core .letForm)
    (h : letForm expand form (head :: rest) w = .ok e w') :
    Leads S w w' fun Δ bound => Settled S bound Δ e := by
  rcases rest with _ | ⟨clauses, body⟩
  · cases h
  · cases hclauses : clauses.isIdentifier with
    | true =>
        rw [letForm, if_pos hclauses] at h
        -- A named `let` is what the call that it stands for expands to.
        obtain ⟨call, -, hcall⟩ := namedLet_eq_ok h
        exact hexpand hcall
    | false =>
        obtain ⟨pairs, inits, w₁, rib, w₂, body', hbody, hpairs, hids, hinits, hrib, hexpanded, rfl⟩ :=
          (letForm_eq_ok hclauses).1 h
        obtain ⟨hlength, hcalm₁, hsettled⟩ := settles_expandEach hexpand hinits
        obtain ⟨-, -, -, hw₂⟩ := newRib_eq_ok.1 hrib
        have hcalm₂ : Calm w₁ w₂ := hw₂ ▸ Calm.drawRib w₁
        obtain ⟨hlength', hcalm₃, hsettled'⟩ :=
          settles_expandEach hexpand hexpanded
        have hcalm := hcalm₁.trans hcalm₂
        refine ⟨hcalm.trans hcalm₃, fun hw Δ bound hΔ hbound => ?_⟩
        have hΔ₁ : ∀ layer ∈ Δ, layer.rib < w₁.nextRib :=
          fun layer hlayer => (hΔ layer hlayer).trans_le hcalm₁.ribs
        have hbound₂ := hcalm₃.ribs.trans hbound
        refine .letForm (Syntax.subforms?_rebuildSexp _ _) hhead (isClauses_rebuildClauses _ _ _)
          (map_fst_zip_renamed (by simpa using hlength)).symm
          (Layer.fits_of_newRib (hcalm₁.cells.trans hw) hrib hΔ₁ hbound₂) ?_ ?_ ?_
        · rintro rfl
          simp [renamed, eq_comm, hbody] at hlength'
        · intro pair hpair
          exact hsettled hw Δ bound hΔ (hcalm₂.ribs.trans hbound₂) _ (List.of_mem_zip hpair).2
        · refine hsettled' (hcalm.cells.trans hw) _ bound
            (List.forall_mem_cons.2 ⟨?_, fun layer hlayer => ?_⟩) hbound
          · simp [hw₂]
          · exact (hΔ layer hlayer).trans_le hcalm.ribs

theorem settles_letrec (hexpand : Settles S expand)
    {rest : List Syntax} (hhead : headKind S head = .core .letrec)
    (h : letrec expand form (head :: rest) w = .ok e w') :
    Leads S w w' fun Δ bound => Settled S bound Δ e := by
  obtain ⟨_, clauses, body, pairs, rib, w₁, inits, w₂, body', hparts, hbody, hpairs, hids, hrib,
    hinits, hexpanded, rfl⟩ := letrec_eq_ok.1 h
  cases hparts
  obtain ⟨-, -, -, hw₁⟩ := newRib_eq_ok.1 hrib
  have hcalm₁ : Calm w w₁ := hw₁ ▸ Calm.drawRib w
  obtain ⟨hlength, hcalm₂, hsettled⟩ := settles_expandEach hexpand hinits
  obtain ⟨hlength', hcalm₃, hsettled'⟩ :=
    settles_expandEach hexpand hexpanded
  refine ⟨hcalm₁.trans (hcalm₂.trans hcalm₃), fun hw Δ bound hΔ hbound => ?_⟩
  have hbound₂ := hcalm₃.ribs.trans hbound
  have hinside : ∀ layer ∈ ⟨w.nextRib, renamed rib (pairs.map (·.1))⟩ :: Δ,
      layer.rib < w₁.nextRib := by
    refine List.forall_mem_cons.2 ⟨by simp [hw₁], fun layer hlayer => ?_⟩
    exact (hΔ layer hlayer).trans_le hcalm₁.ribs
  refine .letrec (Syntax.subforms?_rebuildSexp _ _) hhead (isClauses_rebuildClauses _ _ _)
    (map_fst_zip_renamed (by simpa [renamed] using hlength)).symm
    (Layer.fits_of_newRib hw hrib hΔ (hcalm₂.ribs.trans hbound₂)) ?_ ?_ ?_
  · rintro rfl
    simp [renamed, eq_comm, hbody] at hlength'
  · intro pair hpair
    exact hsettled (hcalm₁.cells.trans hw) _ bound hinside hbound₂ _ (List.of_mem_zip hpair).2
  · exact hsettled' ((hcalm₁.trans hcalm₂).cells.trans hw) _ bound
      (fun layer hlayer => (hinside layer hlayer).trans_le hcalm₂.ribs) hbound

theorem settles_parameterize (hexpand : Settles S expand)
    {rest : List Syntax} (hhead : headKind S head = .core .parameterize)
    (h : parameterize expand form (head :: rest) w = .ok e w') :
    Leads S w w' fun Δ bound => Settled S bound Δ e := by
  obtain ⟨_, clauses, body, items, items', w₁, body', hparts, hbody, -, hitems, hexpanded, rfl⟩ :=
    parameterize_eq_ok.1 h
  cases hparts
  obtain ⟨pairs, hpairs, hcalm₁, hsettled⟩ := settles_parameterClauses hexpand hitems
  obtain ⟨hlength, hcalm₂, hsettled'⟩ :=
    settles_expandEach hexpand hexpanded
  refine ⟨hcalm₁.trans hcalm₂, fun hw Δ bound hΔ hbound => ?_⟩
  have hclauses := hsettled hw Δ bound hΔ (hcalm₂.ribs.trans hbound)
  refine .parameterize (Syntax.subforms?_rebuildSexp _ _) hhead
    ⟨items', Syntax.subforms?_rebuildSexp _ _, hpairs⟩ ?_ (fun pair hpair => (hclauses pair hpair).1)
    (fun pair hpair => (hclauses pair hpair).2) ?_
  · rintro rfl
    simp [eq_comm, hbody] at hlength
  · exact hsettled' (hcalm₁.cells.trans hw) Δ bound
      (fun layer hlayer => (hΔ layer hlayer).trans_le hcalm₁.ribs) hbound

/-- A core form in the place of an expression; definitions and the forms of modules are refused
there. -/
theorem settles_core (hexpand : Settles S expand) {loader : Loader}
    {ns : NamespaceId} {f : CoreForm} {rest : List Syntax} (hhead : headKind S head = .core f)
    (hform : form.subforms? = some (head :: rest))
    (h : core expand loader ns f form (head :: rest) .expression w = .ok e w') :
    Leads S w w' fun Δ bound => Settled S bound Δ e := by
  cases f with
  | quote | quoteSyntax =>
      obtain ⟨_, _, hchecked, h⟩ := RunM.bind_eq_ok.1 h
      obtain ⟨hcount, rfl⟩ := expectCount_eq_ok.1 hchecked
      cases h
      obtain ⟨_, datum, hparts⟩ := List.length_eq_two.1 hcount
      cases hparts
      exact ⟨.refl w, fun _ Δ bound _ _ => .quotation (by simp) hform hhead⟩
  | ifForm =>
      obtain ⟨es, hcount, hexpanded, rfl⟩ := conditional_eq_ok.1 h
      obtain ⟨hlength, hcalm, hsettled⟩ := settles_expandEach hexpand hexpanded
      have hthree : es.length = 3 := by simpa [hlength] using hcount
      obtain ⟨test, consequent, alternative, rfl⟩ := List.length_eq_three.1 hthree
      refine ⟨hcalm, fun hw Δ bound hΔ hbound => ?_⟩
      exact .conditional (Syntax.subforms?_rebuildSexp _ _) hhead (hsettled hw Δ bound hΔ hbound)
  | begin =>
      obtain ⟨es, hexpanded, rfl⟩ := begin_eq_ok.1 h
      obtain ⟨-, hcalm, hsettled⟩ := settles_expandEach hexpand hexpanded
      refine ⟨hcalm, fun hw Δ bound hΔ hbound => ?_⟩
      exact .sequence (Syntax.subforms?_rebuildSexp _ _) hhead (hsettled hw Δ bound hΔ hbound)
  | lambda => exact settles_lambda hexpand hhead h
  | letForm => exact settles_letForm hexpand hhead h
  | letrec => exact settles_letrec hexpand hhead h
  | set =>
      obtain ⟨_, target, value, value', hparts, htarget, hexpanded, rfl⟩ := assignment_eq_ok.1 h
      cases hparts
      obtain ⟨hcalm, hsettled⟩ := hexpand hexpanded
      refine ⟨hcalm, fun hw Δ bound hΔ hbound => ?_⟩
      exact .assignment (Syntax.subforms?_rebuildSexp _ _) hhead htarget (hsettled hw Δ bound hΔ hbound)
  | parameterize => exact settles_parameterize hexpand hhead h
  | define | defineSyntax | require =>
      obtain ⟨_, _, hcontext, -⟩ := RunM.bind_eq_ok.1 h
      cases (expectDefinitions_eq_ok.1 hcontext).1
  | moduleForm | provide => cases h

end

/-! ## Expansion -/

section

variable {S : Spaces} {loader : Loader} {ns : NamespaceId} {w w' : World} {form e : Syntax}

theorem Calm.invokes {form' : Syntax} {depth depth' : Nat}
    (h : Invokes form depth w form' depth' w') : Calm w w' := by
  induction h with
  | refl => exact .refl _
  | step _ hinvoke _ ih => exact (Calm.invoke hinvoke).trans ih

/-- A form that is met as what it is in `S` is rewritten to what is settled there. -/
theorem settles_rewrites {expand : ExpandContext → Syntax → RunM Syntax} (hexpand : Settles S expand)
    {depth : Nat} (hsteady : steady S w.spaces depth .expression form)
    (h : Rewrites expand loader ns .expression w form e w') :
    Leads S w w' fun Δ bound => Settled S bound Δ e := by
  -- The watch has seen the head mean the same in `S` as in the world of the expansion.
  have hkinds := h.headKind_eq hsteady
  cases h with
  | @atom c a hkind =>
      rw [Syntax.deciding_of_not_isSexp rfl, hkind] at hkinds
      refine ⟨.refl w, fun _ Δ bound _ _ => ?_⟩
      cases hid : (Syntax.atom c a).isIdentifier with
      | true => exact .name hid hkinds
      | false => exact .datum hid
  | list hparts hes =>
      obtain ⟨-, hcalm, hsettled⟩ := settles_expandEach hexpand hes
      refine ⟨hcalm, fun hw Δ bound hΔ hbound => ?_⟩
      exact .list (Syntax.elements?_rebuildList _ _) (hsettled hw Δ bound hΔ hbound)
  | record hparts hes =>
      obtain ⟨hcalm, hsettled⟩ := settles_expandFields hexpand hes
      refine ⟨hcalm, fun hw Δ bound hΔ hbound => ?_⟩
      exact .record (Syntax.fields?_rebuildRecord _ _) (hsettled hw Δ bound hΔ hbound)
  | @application _ _ _ es _ hparts hkind hes =>
      obtain ⟨hlength, hcalm, hsettled⟩ := settles_expandEach hexpand hes
      refine ⟨hcalm, fun hw Δ bound hΔ hbound => ?_⟩
      cases es with
      | nil => cases hlength
      | cons operator operands =>
          exact .application (Syntax.subforms?_rebuildSexp _ _) (hsettled hw Δ bound hΔ hbound)
  | core hparts hkind hcore =>
      rw [Syntax.deciding_of_subforms? hparts, hkind] at hkinds
      exact settles_core hexpand hkinds hparts hcore

end

/-- The result of an expansion in which every form was met as what it is in `S` is settled in `S`. -/
theorem settled_expand {S : Spaces} {loader : Loader} {ns : NamespaceId} (fuel depth : Nat) :
    Settles S (Watched.expand (steady S) loader ns fuel depth) := by
  induction fuel generalizing depth with
  | zero => intro form w e w' h; cases h
  | succ fuel ih =>
      intro form w e w' h
      obtain ⟨form', depth', w₁, hinvokes, hsteady, hrewrites⟩ := Watched.expand_rewrites h
      have hcalm := Calm.invokes hinvokes
      have hresult := settles_rewrites (ih depth') hsteady hrewrites
      refine ⟨hcalm.trans hresult.1, fun hw Δ bound hΔ hbound => ?_⟩
      exact hresult.2 (hcalm.cells.trans hw) Δ bound
        (fun layer hlayer => (hΔ layer hlayer).trans_le hcalm.ribs) hbound

end HygienicLisp
