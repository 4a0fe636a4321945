import HygienicLisp.Proofs.Hygiene
import HygienicLisp.Proofs.Renaming.Resolution
import HygienicLisp.Proofs.Renaming.TwoRuns
import Mathlib.Data.ENat.Basic

/-!
# Transformers that fill a template

The output of such a transformer is an `Assembly`: parts of the input at fixed places, joined
with syntax that was quoted when the transformer was written.  `Assembly.fill?` says what its
result looks like once the mark of the invocation is on it: the parts of the form are as they
were, and the atoms of the template are marked.

Main statements: `Assembly.Literals.pairs` says that filling a template with two spellings of a
form gives two spellings of the result, and `agree_invoke` that two runs of the transformer on
them agree.
-/

namespace HygienicLisp

open Syntax (pushWrap)

/-! ## Filling a template -/

namespace FormTree

variable {α β : Type}

/-- The tree at the end of a path of parts. -/
def extract? : List Part → FormTree α → Option (FormTree α)
  | [], t => some t
  | part :: path, t => (part.ofTree? t).bind (extract? path)

theorem extract?_map (f : α → β) (path : List Part) (t : FormTree α) :
    extract? path (t.map f) = (extract? path t).map (map f) := by
  induction path generalizing t with
  | nil => rfl
  | cons part path ih =>
      rw [extract?, extract?, Part.ofTree?_map]
      cases part.ofTree? t with
      | none => rfl
      | some found => exact ih found

theorem All.ofTree? {p : α → Prop} {t found : FormTree α} (h : t.All p) {part : Part}
    (hfound : part.ofTree? t = some found) : found.All p := by
  cases h with
  | leaf _ => cases part <;> simp [Part.ofTree?] at hfound
  | @group shape items h =>
      cases shape <;> cases part <;> simp only [Part.ofTree?, reduceCtorEq] at hfound
      · exact h found (List.mem_of_getElem? hfound)
      · exact h found (List.mem_of_getElem? hfound)
  | record h =>
      cases part <;> simp only [Part.ofTree?, reduceCtorEq] at hfound
      obtain ⟨field, hfield, rfl⟩ := Option.map_eq_some_iff.1 hfound
      exact h field (List.mem_of_getElem? hfield)

theorem All.extract? {p : α → Prop} {t found : FormTree α} (h : t.All p) {path : List Part}
    (hfound : t.extract? path = some found) : found.All p := by
  induction path generalizing t with
  | nil =>
      obtain rfl : t = found := Option.some.inj hfound
      exact h
  | cons part path ih =>
      obtain ⟨next, hnext, hrest⟩ := Option.bind_eq_some_iff.1 hfound
      exact ih (h.ofTree? hnext) hrest

end FormTree

theorem Part.map_view_of? (stx : Syntax) (part : Part) :
    (part.of? stx).map Syntax.view = part.ofTree? stx.view := by
  rw [Syntax.view, Part.ofTree?_settled, ← Part.settled_spread_of?]
  rfl

theorem map_view_extract? (path : List Part) (stx : Syntax) :
    (extract? path stx).map Syntax.view = stx.view.extract? path := by
  induction path generalizing stx with
  | nil => rfl
  | cons part path ih =>
      rw [extract?, FormTree.extract?, ← Part.map_view_of?]
      cases part.of? stx with
      | none => rfl
      | some found => exact ih found

namespace Assembly

variable {α β : Type}

mutual

/-- The template filled with parts of a tree; `lit` places its own atoms. -/
def fill? (lit : ContextAtom → α) (t : FormTree α) : Assembly → Option (FormTree α)
  | input path => t.extract? path
  | prior stx => some (stx.view.map lit)
  | join _ shape items => (fillAll? lit t items).map (.group shape)
  | joinFields _ fields => (fillFields? lit t fields).map .record

/-- `fill?` on every item of a container. -/
def fillAll? (lit : ContextAtom → α) (t : FormTree α) : List Assembly → Option (List (FormTree α))
  | [] => some []
  | a :: rest => (fill? lit t a).bind fun out => (fillAll? lit t rest).map (out :: ·)

/-- `fill?` on every field of a record. -/
def fillFields? (lit : ContextAtom → α) (t : FormTree α) :
    List (String × Assembly) → Option (List (String × FormTree α))
  | [] => some []
  | (key, a) :: rest =>
    (fill? lit t a).bind fun out => (fillFields? lit t rest).map ((key, out) :: ·)

end

mutual

/-- Filling a template does not look at the atoms. -/
theorem fill?_map (f : α → β) (lit : ContextAtom → α) (t : FormTree α) : ∀ a : Assembly,
    a.fill? (f ∘ lit) (t.map f) = (a.fill? lit t).map (.map f)
  | input path => by rw [fill?, fill?, FormTree.extract?_map]
  | prior stx => by rw [fill?, fill?, Option.map_some, FormTree.map_map]
  | join span shape items => by
      rw [fill?, fill?, fillAll?_map f lit t items, Option.map_map, Option.map_map]
      refine congrArg (Option.map · _) (funext fun outs => ?_)
      simp
  | joinFields span fields => by
      rw [fill?, fill?, fillFields?_map f lit t fields, Option.map_map, Option.map_map]
      refine congrArg (Option.map · _) (funext fun outs => ?_)
      simp

theorem fillAll?_map (f : α → β) (lit : ContextAtom → α) (t : FormTree α) :
    ∀ items : List Assembly,
      fillAll? (f ∘ lit) (t.map f) items = (fillAll? lit t items).map (List.map (.map f))
  | [] => rfl
  | a :: rest => by
      rw [fillAll?, fillAll?, fill?_map f lit t a, fillAll?_map f lit t rest]
      cases fill? lit t a <;> cases fillAll? lit t rest <;> rfl

theorem fillFields?_map (f : α → β) (lit : ContextAtom → α) (t : FormTree α) :
    ∀ fields : List (String × Assembly), fillFields? (f ∘ lit) (t.map f) fields =
      (fillFields? lit t fields).map (List.map fun field => (field.1, field.2.map f))
  | [] => rfl
  | (key, a) :: rest => by
      rw [fillFields?, fillFields?, fill?_map f lit t a, fillFields?_map f lit t rest]
      cases fill? lit t a <;> cases fillFields? lit t rest <;> rfl

end

mutual

/-- The output of a template is seen as the template filled with what is seen of the input. -/
theorem map_view_output? (stx : Syntax) : ∀ a : Assembly,
    (a.output? stx).map Syntax.view = a.fill? id stx.view
  | input path => by rw [output?, fill?, map_view_extract?]
  | prior old => by
      rw [output?, fill?, Option.map_some]
      refine congrArg some (FormTree.map_id_of_all old.view_reduced fun _ _ => rfl).symm
  | join span shape items => by
      rw [output?, fill?, ← map_view_outputAll? stx items, Option.map_map, Option.map_map]
      refine congrArg (Option.map · _) (funext fun outs => ?_)
      rw [Function.comp_apply, Syntax.view_group]
      rfl
  | joinFields span fields => by
      rw [output?, fill?, ← map_view_outputFields? stx fields, Option.map_map, Option.map_map]
      refine congrArg (Option.map · _) (funext fun outs => ?_)
      rw [Function.comp_apply, Syntax.view_record]
      rfl

theorem map_view_outputAll? (stx : Syntax) : ∀ items : List Assembly,
    (outputAll? stx items).map (List.map Syntax.view) = fillAll? id stx.view items
  | [] => rfl
  | a :: rest => by
      rw [outputAll?, fillAll?, ← map_view_output? stx a, ← map_view_outputAll? stx rest]
      cases output? stx a <;> cases outputAll? stx rest <;> rfl

theorem map_view_outputFields? (stx : Syntax) : ∀ fields : List (String × Assembly),
    (outputFields? stx fields).map (List.map fun field => (field.1, field.2.view)) =
      fillFields? id stx.view fields
  | [] => rfl
  | (key, a) :: rest => by
      rw [outputFields?, fillFields?, ← map_view_output? stx a, ← map_view_outputFields? stx rest]
      cases output? stx a <;> cases outputFields? stx rest <;> rfl

end

/-- The mark of an invocation is off again where the form has gone into the template, and is on
the atoms of the template. -/
theorem view_marked_output? {a : Assembly} {m : Mark} {t : ContextTree} {input : Syntax}
    (ht : t.All fun b => Reduced b.wraps) (hinput : input.view = t.push (.mark m)) :
    (a.output? input).map (fun out => (out.addWrap (.mark m)).view) =
      a.fill? (.push (.mark m)) t := by
  have htwice : (t.push (.mark m)).push (.mark m) = t := by
    rw [FormTree.push, FormTree.push, FormTree.map_map]
    refine FormTree.map_id_of_all ht fun b hb => ?_
    simp only [Function.comp_apply, ContextAtom.push, pushWrap_mark_pushWrap_mark hb]
  have hout : (a.output? input).map (fun out => (out.addWrap (.mark m)).view) =
      ((a.output? input).map Syntax.view).map (.push (.mark m)) := by
    rw [Option.map_map]
    exact congrArg (Option.map · _) (funext fun out => Syntax.view_addWrap (.mark m) out)
  have hfill := a.fill?_map (ContextAtom.push (.mark m)) id (t.push (.mark m))
  rw [← FormTree.push, htwice] at hfill
  rw [hout, map_view_output?, hinput]
  exact hfill.symm

/-- The template filled with two spellings of a form, under the mark of the invocation. -/
def fillTwin? (a : Assembly) (m : Mark) (T : TwinTree) : Option TwinTree :=
  a.fill? (fun b => (b.push (.mark m), b.push (.mark m))) T

theorem left_fillTwin? (a : Assembly) (m : Mark) (T : TwinTree) :
    a.fill? (.push (.mark m)) T.left = (a.fillTwin? m T).map .left :=
  a.fill?_map Prod.fst (fun b => (b.push (.mark m), b.push (.mark m))) T

theorem right_fillTwin? (a : Assembly) (m : Mark) (T : TwinTree) :
    a.fill? (.push (.mark m)) T.right = (a.fillTwin? m T).map .right :=
  a.fill?_map Prod.snd (fun b => (b.push (.mark m), b.push (.mark m))) T

/-- Every atom of the template satisfies `p`. -/
inductive Literals (p : ContextAtom → Prop) : Assembly → Prop
  | input {path : List Part} : Literals p (input path)
  | prior {stx : Syntax} (h : stx.view.All p) : Literals p (prior stx)
  | join {span : Option Span} {shape : Shape} {items : List Assembly}
      (h : ∀ a ∈ items, Literals p a) : Literals p (join span shape items)
  | joinFields {span : Option Span} {fields : List (String × Assembly)}
      (h : ∀ field ∈ fields, Literals p field.2) : Literals p (joinFields span fields)

theorem forall_mem_of_fillAll? {lit : ContextAtom → α} {t : FormTree α} {C : FormTree α → Prop}
    {items : List Assembly} (h : ∀ a ∈ items, ∀ out, a.fill? lit t = some out → C out)
    {outs : List (FormTree α)} (houts : fillAll? lit t items = some outs) : ∀ out ∈ outs, C out := by
  induction items generalizing outs with
  | nil =>
      obtain rfl : [] = outs := Option.some.inj houts
      simp
  | cons a rest ih =>
      obtain ⟨ha, hrest⟩ := List.forall_mem_cons.1 h
      obtain ⟨out, hout, houts⟩ := Option.bind_eq_some_iff.1 houts
      obtain ⟨others, hothers, rfl⟩ := Option.map_eq_some_iff.1 houts
      exact List.forall_mem_cons.2 ⟨ha out hout, ih hrest hothers⟩

theorem forall_mem_of_fillFields? {lit : ContextAtom → α} {t : FormTree α} {C : FormTree α → Prop}
    {fields : List (String × Assembly)}
    (h : ∀ field ∈ fields, ∀ out, field.2.fill? lit t = some out → C out)
    {outs : List (String × FormTree α)} (houts : fillFields? lit t fields = some outs) :
    ∀ out ∈ outs, C out.2 := by
  induction fields generalizing outs with
  | nil =>
      obtain rfl : [] = outs := Option.some.inj houts
      simp
  | cons field rest ih =>
      obtain ⟨ha, hrest⟩ := List.forall_mem_cons.1 h
      obtain ⟨out, hout, houts⟩ := Option.bind_eq_some_iff.1 houts
      obtain ⟨others, hothers, rfl⟩ := Option.map_eq_some_iff.1 houts
      exact List.forall_mem_cons.2 ⟨ha out hout, ih hrest hothers⟩

/-- What holds of the atoms of the template and of those of the form holds of the result. -/
theorem Literals.fill? {p : ContextAtom → Prop} {q : α → Prop} {lit : ContextAtom → α}
    {a : Assembly} (h : a.Literals p) (hlit : ∀ b, p b → q (lit b)) {t : FormTree α} (ht : t.All q)
    {out : FormTree α} (hout : a.fill? lit t = some out) : out.All q := by
  induction h generalizing out with
  | input => exact ht.extract? hout
  | prior h =>
      obtain rfl := Option.some.inj hout
      exact h.map hlit
  | join _ ih =>
      obtain ⟨outs, houts, rfl⟩ := Option.map_eq_some_iff.1 hout
      exact .group (forall_mem_of_fillAll? (fun a ha out hout => ih a ha hout) houts)
  | joinFields _ ih =>
      obtain ⟨outs, houts, rfl⟩ := Option.map_eq_some_iff.1 hout
      exact .record (forall_mem_of_fillFields? (fun a ha out hout => ih a ha hout) houts)

end Assembly

/-! ## Templates of a setting -/

/-- An atom that a template may have: its marks are older than the comparison, and if it comes
to denote a transformer under a fresh mark, then one with a template. -/
def Setting.Quoted (σ : Setting) (b : ContextAtom) : Prop :=
  ∀ m, σ.world.nextMark ≤ m → m ∉ wrapMarks b.wraps ∧ σ.Permits (b.push (.mark m))

/-- An atom of a template is the same under both spellings of a form. -/
theorem Setting.Quoted.pairs {σ : Setting} {b : ContextAtom} (h : σ.Quoted b) {m : Mark}
    (hm : σ.world.nextMark ≤ m) (P : List (Rib × Rib)) :
    σ.Pairs P (b.push (.mark m), b.push (.mark m)) := by
  obtain ⟨hfresh, hpermits⟩ := h m hm
  cases hname : b.symbol? with
  | none => exact .data rfl hname
  | some x =>
      have hdata := b.data_eq_of_symbol? hname
      have hatom : b.push (.mark m) = own₁ [] (pushWrap (.mark m) b.wraps) x := by
        rw [ContextAtom.push, hdata]
        rfl
      have hmarks : wrapMarks (pushWrap (.mark m) b.wraps) ≠ .empty := by
        intro hempty
        have hmem : m ∈ wrapMarks (pushWrap (.mark m) b.wraps) := by
          rw [wrapMarks_pushWrap, wrapMarks, MarkSet.mem_toggle]
          simp [hfresh]
        rw [hempty] at hmem
        exact List.not_mem_nil hmem
      rw [hatom] at hpermits ⊢
      exact .own (by simp) hmarks hpermits

/-- Two spellings of a form make a template into two spellings of its result. -/
theorem Assembly.Literals.pairs {σ : Setting} {a : Assembly} (h : a.Literals σ.Quoted) {m : Mark}
    (hm : σ.world.nextMark ≤ m) {P : List (Rib × Rib)} {T out : TwinTree} (hT : T.All (σ.Pairs P))
    (hout : a.fillTwin? m T = some out) : out.All (σ.Pairs P) :=
  h.fill? (fun _ hb => hb.pairs hm P) hT hout

/-! ## Runs of transformers -/

/-- A world that expansion can lead to from `w₀`, as far as it is seen later: namespaces and
settings are the same, and frames and marks have been added. -/
structure Follows (w₀ w : World) : Prop where
  spaces : w.spaces = w₀.spaces
  runtime : w.runtime = w₀.runtime
  frames : w₀.frames.toList <+: w.frames.toList
  nextMark : w₀.nextMark ≤ w.nextMark

/-- A form without its atoms. -/
def Syntax.outline (stx : Syntax) : FormTree Unit := stx.view.map fun _ => ⟨⟩

/-- How filling a template ends: if the steps are `enough`, with a result that is `filled`, or with a
failure if parts are `missing`; if not, they run out. -/
inductive EndsFilling {α : Type} (enough : Prop) (filled : α → World → Prop) (missing : Prop) :
    EStateM.Result Halt World α → Prop
  | ok {a : α} {w : World} (henough : enough) (h : filled a w) : EndsFilling enough filled missing (.ok a w)
  | error {e : Error} {w : World} (henough : enough) (h : missing) :
      EndsFilling enough filled missing (.error (.error e) w)
  | outOfFuel {w : World} (hshort : ¬enough) : EndsFilling enough filled missing (.error .outOfFuel w)

/-- Run on any form in a world that follows `w₀`, the procedure returns the filled template if the form
has all parts that the template asks for, and fails otherwise.  How many steps it takes is up to the
outline of the form; with fewer it runs out of them. -/
def Procedure.FillsWithin (w₀ : World) (p : Procedure) (a : Assembly) (cost : FormTree Unit → ℕ∞) : Prop :=
  ∀ (fuel : Nat) id input w, Follows w₀ w → input.isSexp →
    EndsFilling (cost input.outline ≤ fuel)
      (fun v w' => ∃ out assembled, v = .stx out ∧ a.output? input = some assembled ∧
        out.view = assembled.view ∧ (input.Bare → out.Bare) ∧ Follows w₀ w' ∧
        w'.nextMark = w.nextMark ∧ w'.nextRib = w.nextRib)
      (a.output? input = none) (applyProcedure fuel (.procedure id p) [.stx input] w)

/-- The procedure does nothing but fill the template. -/
def Procedure.Fills (w₀ : World) (p : Procedure) (a : Assembly) : Prop :=
  ∃ cost, p.FillsWithin w₀ a cost

/-- The worlds of two runs from the same world, when the marks below `n` have been drawn. -/
structure Setting.Twins (σ : Setting) (n : Mark) (w₁ w₂ : World) : Prop where
  left : Follows σ.world w₁
  right : Follows σ.world w₂
  drawn : n ≤ w₁.nextMark
  nextMark : w₁.nextMark = w₂.nextMark
  nextRib : w₁.nextRib = w₂.nextRib

theorem invoke_of_ok {fuel : Nat} {id procedureId : ObjectId} {p : Procedure} {form out : Syntax}
    {w w' : World}
    (h : applyProcedure fuel (.procedure procedureId p) [.stx (transformerInput w form).1]
      (transformerWorld w form) = .ok (.stx out) w') :
    invoke fuel id procedureId p form w = .ok (out.addWrap (.mark w.nextMark)) w' := by
  simp only [transformerInput, transformerWorld] at h
  simp only [invoke, RunM.bind_apply, freshMark_apply, RunM.get_apply, stampSyntax_apply,
    RunM.mapError, h, RunM.pure_apply]

theorem invoke_of_error {fuel : Nat} (id : ObjectId) {procedureId : ObjectId} {p : Procedure} {form : Syntax}
    {w w' : World} {halt : Halt}
    (h : applyProcedure fuel (.procedure procedureId p) [.stx (transformerInput w form).1]
      (transformerWorld w form) = .error halt w') :
    match halt with
    | .error _ => ∃ e, invoke fuel id procedureId p form w = .error (.error e) w'
    | .outOfFuel => invoke fuel id procedureId p form w = .error .outOfFuel w' := by
  simp only [transformerInput, transformerWorld] at h
  simp only [invoke, RunM.bind_apply, freshMark_apply, RunM.get_apply, stampSyntax_apply,
    RunM.mapError, h]
  cases halt with
  | error e => exact ⟨_, rfl⟩
  | outOfFuel => rfl

theorem Follows.transformerWorld {w₀ w : World} (h : Follows w₀ w) (form : Syntax) :
    Follows w₀ (transformerWorld w form) :=
  ⟨h.spaces, h.runtime, h.frames, Nat.le_succ_of_le h.nextMark⟩

theorem isSexp_transformerInput (w : World) (form : Syntax) :
    (transformerInput w form).1.isSexp = form.isSexp := by
  rw [transformerInput, ← Syntax.isSexp_view, Syntax.view_stamp, Syntax.view_addWrap, FormTree.push,
    FormTree.isSexp_map, Syntax.isSexp_view]

/-- What an invocation does that has enough steps and finds all parts it asks for. -/
structure Filled (w₀ w : World) (form : Syntax) (result : Syntax) (w' : World) : Prop where
  bare : form.Bare → result.Bare
  follows : Follows w₀ w'
  nextMark : w'.nextMark = w.nextMark + 1
  nextRib : w'.nextRib = w.nextRib

/-- An invocation ends with the filled template if it has enough steps and the form has all parts that
the template asks for. -/
theorem Procedure.FillsWithin.invoke {w₀ : World} {p : Procedure} {a : Assembly}
    {cost : FormTree Unit → ℕ∞} (h : p.FillsWithin w₀ a cost) {w : World} (hw : Follows w₀ w)
    {form : Syntax} (hform : form.isSexp) (fuel : Nat) (id procedureId : ObjectId) :
    EndsFilling (cost form.outline ≤ fuel)
      (fun result w' => a.fill? (.push (.mark w.nextMark)) form.view = some result.view ∧
        Filled w₀ w form result w')
      (a.fill? (.push (.mark w.nextMark)) form.view = none)
      (HygienicLisp.invoke fuel id procedureId p form w) := by
  have hinput : (transformerInput w form).1.view = form.view.push (.mark w.nextMark) := by
    rw [transformerInput, Syntax.view_stamp, Syntax.view_addWrap]
  have houtline : (transformerInput w form).1.outline = form.outline := by
    rw [Syntax.outline, hinput, FormTree.push, FormTree.map_map]
    rfl
  have hmarked := Assembly.view_marked_output? (a := a) form.view_reduced hinput
  have hrun := h fuel procedureId (transformerInput w form).1 (transformerWorld w form)
    (hw.transformerWorld form) ((isSexp_transformerInput w form).trans hform)
  rw [houtline] at hrun
  generalize happly : applyProcedure fuel (.procedure procedureId p)
    [.stx (transformerInput w form).1] (transformerWorld w form) = r at hrun
  cases hrun with
  | ok henough h =>
      obtain ⟨out, assembled, rfl, houtput, hview, hbare, hfollows, hmark, hrib⟩ := h
      rw [invoke_of_ok happly]
      refine .ok henough ⟨?_, fun hform => ?_, hfollows, hmark, hrib⟩
      · rw [← hmarked, houtput, Option.map_some, Syntax.view_addWrap, Syntax.view_addWrap, hview]
      · exact (hbare ((hform.addWrap _).stamp _)).addWrap _
  | error henough hmissing =>
      obtain ⟨e, herror⟩ := invoke_of_error id happly
      rw [herror]
      exact .error henough (by rw [← hmarked, hmissing, Option.map_none])
  | outOfFuel hshort =>
      have hout : HygienicLisp.invoke fuel id procedureId p form w = .error .outOfFuel _ :=
        invoke_of_error id happly
      rw [hout]
      exact .outOfFuel hshort

theorem Setting.Twins.mono {σ : Setting} {n k : Mark} {w₁ w₂ : World} (h : σ.Twins k w₁ w₂)
    (hnk : n ≤ k) : σ.Twins n w₁ w₂ :=
  ⟨h.left, h.right, hnk.trans h.drawn, h.nextMark, h.nextRib⟩

theorem Spells.outline {T : TwinTree} {stx₁ stx₂ : Syntax} (h : Spells T stx₁ stx₂) :
    stx₂.outline = stx₁.outline := by
  rw [Syntax.outline, Syntax.outline, h.left, h.right, FormTree.left, FormTree.right,
    FormTree.map_map, FormTree.map_map]
  rfl

/-- Two runs of a transformer that fills a template, on two spellings of a form, draw the same
mark and end with two spellings of the filled template, or both fail, or both run out of steps. -/
theorem Procedure.Fills.invoke {σ : Setting} {p : Procedure} {a : Assembly}
    (hfills : p.Fills σ.world a) {Ts : List TwinTree} {form₁ form₂ : Syntax}
    (hform : Spells (.group .sexp Ts) form₁ form₂) (fuel : Nat) (id procedureId : ObjectId) {n : Mark}
    {w₁ w₂ : World} (hT : σ.Twins n w₁ w₂) :
    Outcomes (σ.Twins (w₁.nextMark + 1))
      (fun result₁ result₂ => ∃ out, a.fillTwin? w₁.nextMark (.group .sexp Ts) = some out ∧
        Spells out result₁ result₂)
      (HygienicLisp.invoke fuel id procedureId p form₁ w₁)
      (HygienicLisp.invoke fuel id procedureId p form₂ w₂) := by
  obtain ⟨cost, hfills⟩ := hfills
  have hrun₁ := hfills.invoke hT.left hform.isSexp.1 fuel id procedureId
  have hrun₂ := hfills.invoke hT.right hform.isSexp.2 fuel id procedureId
  -- How a run ends depends on the steps and on the outline of the form only.
  rw [hform.left, Assembly.left_fillTwin?] at hrun₁
  rw [hform.outline, hform.right, Assembly.right_fillTwin?, ← hT.nextMark] at hrun₂
  generalize HygienicLisp.invoke fuel id procedureId p form₁ w₁ = r₁ at hrun₁ ⊢
  generalize HygienicLisp.invoke fuel id procedureId p form₂ w₂ = r₂ at hrun₂ ⊢
  cases hrun₁ with
  | ok henough hfilled =>
      obtain ⟨hout₁, hfilled₁⟩ := hfilled
      obtain ⟨out, hout, hleft⟩ := Option.map_eq_some_iff.1 hout₁
      rw [hout] at hrun₂
      cases hrun₂ with
      | ok _ hfilled =>
          obtain ⟨hout₂, hfilled₂⟩ := hfilled
          refine .ok ⟨hfilled₁.follows, hfilled₂.follows, ?_, ?_, ?_⟩ ⟨out, hout, ?_⟩
          · exact hfilled₁.nextMark.ge
          · rw [hfilled₁.nextMark, hfilled₂.nextMark, hT.nextMark]
          · rw [hfilled₁.nextRib, hfilled₂.nextRib, hT.nextRib]
          · exact ⟨hfilled₁.bare hform.bare₁, hfilled₂.bare hform.bare₂, hleft.symm,
              (Option.some.inj hout₂).symm⟩
      | error _ hmissing => cases hmissing
      | outOfFuel hshort => exact absurd henough hshort
  | error henough hmissing =>
      rw [Option.map_eq_none_iff.1 hmissing] at hrun₂
      cases hrun₂ with
      | ok _ hfilled => cases hfilled.1
      | error => exact .error ..
      | outOfFuel hshort => exact absurd henough hshort
  | outOfFuel hshort =>
      cases hrun₂ with
      | ok henough => exact absurd henough hshort
      | error henough => exact absurd henough hshort
      | outOfFuel => exact .outOfFuel ..

/-- What two runs do after a transformer has filled its template, they do with a mark that is
newer than all that were drawn before. -/
theorem agree_invoke_bind {σ : Setting} {p : Procedure} {a : Assembly} (hfills : p.Fills σ.world a)
    {Ts : List TwinTree} {form₁ form₂ : Syntax} (hform : Spells (.group .sexp Ts) form₁ form₂)
    (fuel : Nat) (id procedureId : ObjectId) {n : Mark} {α β : Type} {R : α → β → Prop}
    {f : Syntax → RunM α} {g : Syntax → RunM β}
    (hrest : ∀ m out result₁ result₂, n ≤ m → σ.world.nextMark ≤ m →
      a.fillTwin? m (.group .sexp Ts) = some out → Spells out result₁ result₂ →
      Agree (σ.Twins (m + 1)) R (f result₁) (g result₂)) :
    Agree (σ.Twins n) R (invoke fuel id procedureId p form₁ >>= f)
      (invoke fuel id procedureId p form₂ >>= g) := by
  intro w₁ w₂ hT
  have hrun := hfills.invoke hform fuel id procedureId hT
  refine Outcomes.mono (T := σ.Twins (w₁.nextMark + 1)) (Outcomes.bind hrun ?_) fun w₁' w₂' h => ?_
  · rintro result₁ result₂ w₁' w₂' hT' ⟨out, hout, hspells⟩
    exact hrest w₁.nextMark out result₁ result₂ hT.drawn hT.left.nextMark hout hspells w₁' w₂' hT'
  · exact h.mono (Nat.le_succ_of_le hT.drawn)

end HygienicLisp
