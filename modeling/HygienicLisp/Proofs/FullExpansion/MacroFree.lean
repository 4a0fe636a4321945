import HygienicLisp.Proofs.FullExpansion.Shapes
import HygienicLisp.Proofs.Invocation
import HygienicLisp.Proofs.Renaming.Invariance
import HygienicLisp.Proofs.TopLevel.Steps
import Mathlib.Algebra.Order.BigOperators.Group.List
import Mathlib.Algebra.Order.Group.Nat

/-!
# Expansion without macros comes to an end

Where no name has a transformer as its value, every core form but one is expanded by expanding parts
of it.  The exception is the named `let`, which is turned into the call of a procedure that a
`letrec` makes, and the call is expanded from the top.  The call may have up to six nodes more than
the form, but it is no named `let` again, and neither is any other form that it adds.  So the nodes
of a form go down if a sexp that has the shape of a named `let` counts for eight of them
(`Syntax.work`): the wraps that ribs put on the parts of a form are no nodes, and the call has less
work (`work_loopCall`).

Main statement: `expand_macroFree`.  With more steps than the form has work, expansion as an
expression ends, with or without a limit on the depth and whatever the number of steps.
-/

namespace HygienicLisp

open Expansion

/-! ## Work -/

namespace Syntax

/-- Whether a sexp of the items has the shape of a named `let`. -/
def couldLoop : List Syntax → Bool
  | head :: name :: clauses :: _ :: _ => head.isIdentifier && name.isIdentifier && clauses.isSexp
  | _ => false

/-- What a container of the items counts for, besides its items. -/
def ownWork (shape : Shape) (items : List Syntax) : Nat :=
  match shape with
  | .sexp => if couldLoop items then 8 else 1
  | .list => 1

mutual

/-- The nodes of a form, where each sexp that has the shape of a named `let` counts for eight. -/
def work : Syntax → Nat
  | atom _ _ => 1
  | group _ shape items => ownWork shape items + workAll items
  | record _ fields => 1 + workFields fields

/-- The work of the forms of a sequence. -/
def workAll : List Syntax → Nat
  | [] => 0
  | stx :: rest => stx.work + workAll rest

/-- The work of the fields of a record. -/
def workFields : List (String × Syntax) → Nat
  | [] => 0
  | (_, stx) :: rest => stx.work + workFields rest

end

variable {stx : Syntax} {parts : List Syntax}

theorem workAll_eq_sum (items : List Syntax) : workAll items = (items.map work).sum := by
  induction items with
  | nil => rfl
  | cons stx rest ih => rw [workAll, ih, List.map_cons, List.sum_cons]

theorem workFields_eq_sum (fields : List (String × Syntax)) :
    workFields fields = (fields.map fun field => field.2.work).sum := by
  induction fields with
  | nil => rfl
  | cons field rest ih => rw [workFields, ih, List.map_cons, List.sum_cons]

@[simp] theorem work_addWrap (wrap : Wrap) (stx : Syntax) : (stx.addWrap wrap).work = stx.work := by
  cases stx <;> rfl

@[simp] theorem work_addWraps (newer : List Wrap) (stx : Syntax) :
    (stx.addWraps newer).work = stx.work := by
  induction newer with
  | nil => rfl
  | cons wrap newer ih => rw [addWraps_cons, work_addWrap, ih]

theorem isSexp_addWraps (newer : List Wrap) (stx : Syntax) :
    (stx.addWraps newer).isSexp = stx.isSexp := by
  induction newer with
  | nil => rfl
  | cons wrap newer ih =>
      rw [addWraps_cons, ← ih]
      generalize stx.addWraps newer = wrapped
      cases wrapped with
      | atom => rfl
      | group _ shape _ => cases shape <;> rfl
      | record => rfl

theorem couldLoop_map_addWraps (newer : List Wrap) (items : List Syntax) :
    couldLoop (items.map (addWraps newer)) = couldLoop items := by
  match items with
  | [] | [_] | [_, _] | [_, _, _] => rfl
  | head :: name :: clauses :: first :: rest =>
      simp only [List.map_cons, couldLoop, isSexp_addWraps, isIdentifier, symbol?_addWraps]

/-- The work of a sexp is what the sexp itself counts for, and that of its parts. -/
theorem work_of_subforms? (h : stx.subforms? = some parts) :
    stx.work = ownWork .sexp parts + (parts.map work).sum := by
  match stx, h with
  | group c .sexp items, h =>
      obtain rfl := Option.some.inj h
      rw [work, workAll_eq_sum, ownWork, ownWork, couldLoop_map_addWraps, List.map_map]
      refine congrArg (_ + List.sum ·) (List.map_congr_left fun stx _ => ?_)
      exact (work_addWraps c.wraps stx).symm

/-- A new sexp that does not have the shape of a named `let`. -/
theorem work_rebuildSexp (site : Syntax) (h : couldLoop parts = false) :
    (site.rebuildSexp parts).work = 1 + (parts.map work).sum := by
  rw [rebuildSexp, work, workAll_eq_sum, ownWork, h]
  rfl

theorem work_of_isIdentifier (h : stx.isIdentifier) : stx.work = 1 := by
  match stx, h with
  | atom _ _, _ => rfl

theorem work_pos (stx : Syntax) : 0 < stx.work := by
  cases stx with
  | atom => exact Nat.one_pos
  | group _ shape items =>
      have hown : 0 < ownWork shape items := by
        unfold ownWork
        split
        · split <;> omega
        · omega
      rw [work]
      omega
  | record =>
      rw [work]
      omega

theorem work_le_sum {part : Syntax} (h : part ∈ parts) : part.work ≤ (parts.map work).sum :=
  List.single_le_sum (fun _ _ => Nat.zero_le _) _ (List.mem_map_of_mem h)

theorem work_lt_of_subforms? {part : Syntax} (h : stx.subforms? = some parts) (hpart : part ∈ parts) :
    part.work < stx.work := by
  have hle := work_le_sum hpart
  rw [work_of_subforms? h, ownWork]
  split <;> omega

theorem work_lt_of_elements? {part : Syntax} (h : stx.elements? = some parts) (hpart : part ∈ parts) :
    part.work < stx.work := by
  match stx, h with
  | group c .list items, h =>
      obtain rfl := Option.some.inj h
      obtain ⟨item, hitem, rfl⟩ := List.mem_map.1 hpart
      have hle := work_le_sum hitem
      rw [work_addWraps, work, workAll_eq_sum, ownWork]
      omega

theorem work_lt_of_fields? {fields : List (String × Syntax)} {field : String × Syntax}
    (h : stx.fields? = some fields) (hfield : field ∈ fields) : field.2.work < stx.work := by
  match stx, h with
  | record c raw, h =>
      obtain rfl := Option.some.inj h
      obtain ⟨item, hitem, rfl⟩ := List.mem_map.1 hfield
      have hle : item.2.work ≤ (raw.map fun field => field.2.work).sum :=
        List.single_le_sum (fun _ _ => Nat.zero_le _) _ (List.mem_map.2 ⟨item, hitem, rfl⟩)
      rw [work_addWraps, work, workFields_eq_sum]
      omega

end Syntax

open Syntax (couldLoop ownWork)

/-! ## The call that a named `let` is turned into -/

theorem couldLoop_of_head {head : Syntax} {rest : List Syntax} (h : head.isIdentifier = false) :
    couldLoop (head :: rest) = false := by
  rcases rest with _ | ⟨_, _ | ⟨_, _ | ⟨_, _⟩⟩⟩ <;> simp [couldLoop, h]

theorem couldLoop_of_second {head second : Syntax} {rest : List Syntax}
    (h : second.isIdentifier = false) : couldLoop (head :: second :: rest) = false := by
  rcases rest with _ | ⟨_, _ | ⟨_, _⟩⟩ <;> simp [couldLoop, h]

theorem couldLoop_of_identifiers {ids : List Syntax} (h : ∀ id ∈ ids, id.isIdentifier) :
    couldLoop ids = false := by
  match ids, h with
  | [], _ | [_], _ | [_, _], _ | [_, _, _], _ => rfl
  | _ :: _ :: .atom _ _ :: _ :: _, _ => simp [couldLoop, Syntax.isSexp]
  | _ :: _ :: .group c s items :: _ :: _, h => cases h (.group c s items) (by simp)
  | _ :: _ :: .record c fields :: _ :: _, h => cases h (.record c fields) (by simp)

theorem sum_work_identifiers {ids : List Syntax} (h : ∀ id ∈ ids, id.isIdentifier) :
    (ids.map Syntax.work).sum = ids.length := by
  induction ids with
  | nil => rfl
  | cons id rest ih =>
      obtain ⟨hid, hrest⟩ := List.forall_mem_cons.1 h
      rw [List.map_cons, List.sum_cons, ih hrest, Syntax.work_of_isIdentifier hid, List.length_cons]
      omega

/-- Each clause counts for its identifier, its expression and itself. -/
theorem work_of_isClauses {clauses : Syntax} {pairs : List (Syntax × Syntax)}
    (h : IsClauses clauses pairs) (hids : ∀ pair ∈ pairs, pair.1.isIdentifier) :
    1 + 2 * pairs.length + ((pairs.map (·.2)).map Syntax.work).sum ≤ clauses.work := by
  obtain ⟨items, hitems, hpairs⟩ := h
  -- Over the clauses, the identifier and the clause itself make two each.
  have hsum : 2 * pairs.length + ((pairs.map (·.2)).map Syntax.work).sum ≤
      (items.map Syntax.work).sum := by
    clear hitems
    induction items generalizing pairs with
    | nil =>
        obtain rfl : pairs = [] := by simpa using hpairs.symm
        simp
    | cons clause rest ih =>
        cases pairs with
        | nil => cases hpairs
        | cons pair others =>
            rw [List.map_cons, List.map_cons, List.cons.injEq] at hpairs
            obtain ⟨hid, hothers⟩ := List.forall_mem_cons.1 hids
            have hclause : clause.subforms? = some [pair.1, pair.2] := by
              have hsubforms := hpairs.1
              rw [Syntax.subforms] at hsubforms
              cases hsome : clause.subforms? with
              | none => simp [hsome] at hsubforms
              | some parts => simpa [hsome] using hsubforms
            have hwork := Syntax.work_of_subforms? hclause
            simp only [List.map_cons, List.map_nil, List.sum_cons, List.sum_nil, ownWork, couldLoop,
              Bool.false_eq_true, if_false, Syntax.work_of_isIdentifier hid] at hwork
            have := ih hothers hpairs.2
            simp only [List.map_cons, List.sum_cons, List.length_cons]
            omega
  rw [Syntax.work_of_subforms? hitems, ownWork]
  split <;> omega

theorem work_lt_of_isClauses {clauses init : Syntax} {pairs : List (Syntax × Syntax)}
    (h : IsClauses clauses pairs) (hids : ∀ pair ∈ pairs, pair.1.isIdentifier)
    (hinit : init ∈ pairs.map (·.2)) : init.work < clauses.work := by
  have hle := Syntax.work_le_sum hinit
  have hclauses := work_of_isClauses h hids
  omega

/-- What a named `let` is turned into. -/
def loopCall (form lambdaHead letrecHead name clauses : Syntax) (ids inits body : List Syntax) :
    Syntax :=
  let procedure := form.rebuildSexp (lambdaHead :: clauses.rebuildSexp ids :: body)
  let clause := form.rebuildSexp [name, procedure]
  form.rebuildSexp (form.rebuildSexp [letrecHead, form.rebuildSexp [clause], name] :: inits)

/-- There is less work in the call than in the named `let`, although it may have more nodes. -/
theorem work_loopCall {form head name clauses lambdaHead letrecHead : Syntax} {body : List Syntax}
    {pairs : List (Syntax × Syntax)}
    (hparts : form.subforms? = some (head :: name :: clauses :: body)) (hbody : body ≠ [])
    (hhead : head.isIdentifier) (hname : name.isIdentifier) (hclauses : IsClauses clauses pairs)
    (hids : ∀ pair ∈ pairs, pair.1.isIdentifier) (hlambda : lambdaHead.isIdentifier)
    (hletrec : letrecHead.isIdentifier) :
    (loopCall form lambdaHead letrecHead name clauses (pairs.map (·.1)) (pairs.map (·.2)) body).work <
      form.work := by
  have hids' : ∀ id ∈ pairs.map (·.1), id.isIdentifier := List.forall_mem_map.2 hids
  have hloop : couldLoop (head :: name :: clauses :: body) := by
    obtain ⟨first, rest, rfl⟩ := List.exists_cons_of_ne_nil hbody
    obtain ⟨items, hitems, -⟩ := hclauses
    simp [couldLoop, hhead, hname, Syntax.isSexp_of_subforms? hitems]
  have hform : form.work = 8 + ([head, name, clauses].map Syntax.work).sum +
      (body.map Syntax.work).sum := by
    rw [Syntax.work_of_subforms? hparts, ownWork, if_pos hloop]
    simp only [List.map_cons, List.map_nil, List.sum_cons, List.sum_nil]
    omega
  have hgiven := work_of_isClauses hclauses hids
  simp only [List.map_cons, List.sum_cons, List.map_nil, List.sum_nil,
    Syntax.work_of_isIdentifier hhead, Syntax.work_of_isIdentifier hname] at hform
  -- None of the sexps that are new has the shape of a named `let`.
  have hformals : (clauses.rebuildSexp (pairs.map (·.1))).work = 1 + pairs.length := by
    rw [Syntax.work_rebuildSexp _ (couldLoop_of_identifiers hids'), sum_work_identifiers hids',
      List.length_map]
  have hprocedure :
      (form.rebuildSexp (lambdaHead :: clauses.rebuildSexp (pairs.map (·.1)) :: body)).work =
        3 + pairs.length + (body.map Syntax.work).sum := by
    rw [Syntax.work_rebuildSexp _ (couldLoop_of_second rfl)]
    simp only [List.map_cons, List.sum_cons, Syntax.work_of_isIdentifier hlambda, hformals]
    omega
  rw [loopCall, Syntax.work_rebuildSexp _ (couldLoop_of_head rfl), List.map_cons, List.sum_cons,
    Syntax.work_rebuildSexp _ rfl]
  simp only [List.map_cons, List.sum_cons, List.map_nil, List.sum_nil,
    Syntax.work_of_isIdentifier hname, Syntax.work_of_isIdentifier hletrec]
  rw [Syntax.work_rebuildSexp _ rfl, List.map_singleton, List.sum_singleton,
    Syntax.work_rebuildSexp _ rfl]
  simp only [List.map_cons, List.sum_cons, List.map_nil, List.sum_nil,
    Syntax.work_of_isIdentifier hname, hprocedure]
  omega

/-! ## Runs that come to an end and leave the namespaces alone -/

/-- No name leads to a transformer. -/
def Spaces.MacroFree (spaces : Spaces) : Prop :=
  ∀ cell id procedureId p, spaces.lookup? (.cell cell) ≠ some (.transformer id procedureId p)

/-- From a world with the given namespaces the run comes to an end, and a run that has a result
leaves them as they are. -/
def Concludes (S : Spaces) {α : Type} (x : RunM α) : Prop :=
  ∀ w, w.spaces = S → Finished (x w) ∧ ∀ a w', x w = .ok a w' → w'.spaces = S

namespace Concludes

variable {S : Spaces} {α β : Type}

theorem pure (a : α) : Concludes S (pure a : RunM α) := fun w hw => ⟨trivial, fun _ _ h => by
  cases h
  exact hw⟩

theorem failAt (stx : Syntax) (fault : SyntaxFault) : Concludes S (RunM.failAt stx fault : RunM α) :=
  fun _ _ => ⟨trivial, fun _ _ h => by cases h⟩

/-- `bind`, where the rest is met with results of the first part only. -/
theorem bind {x : RunM α} {f : α → RunM β} (hx : Concludes S x)
    (hf : ∀ w a w', x w = .ok a w' → Concludes S (f a)) : Concludes S (x >>= f) := by
  intro w hw
  obtain ⟨hfinished, hsame⟩ := hx w hw
  cases hrun : x w with
  | ok a w₁ =>
      rw [RunM.bind_apply, hrun]
      exact hf w a w₁ hrun w₁ (hsame a w₁ hrun)
  | error halt w₁ =>
      rw [hrun] at hfinished
      rw [RunM.bind_apply, hrun]
      cases halt with
      | error e => exact ⟨trivial, fun _ _ h => by cases h⟩
      | outOfFuel => exact hfinished.elim

/-- `bind`, whatever the first part results in. -/
theorem andAny {x : RunM α} {f : α → RunM β} (hx : Concludes S x) (hf : ∀ a, Concludes S (f a)) :
    Concludes S (x >>= f) :=
  hx.bind fun _ a _ _ => hf a

theorem get_bind {f : World → RunM β} (hf : ∀ w, Concludes S (f w)) : Concludes S (get >>= f) :=
  fun w hw => hf w w hw

theorem getSpaces_bind {f : Spaces → RunM β} (hf : Concludes S (f S)) :
    Concludes S (getSpaces >>= f) := by
  rintro w rfl
  exact hf w rfl

theorem inContext {x : RunM α} (hx : Concludes S x) (stx : Syntax) : Concludes S (RunM.inContext stx x) := by
  intro w hw
  obtain ⟨hfinished, hsame⟩ := hx w hw
  refine ⟨?_, fun a w' h => hsame a w' (RunM.mapError_eq_ok.1 h)⟩
  rw [RunM.inContext, RunM.mapError]
  cases hrun : x w with
  | ok a w₁ => trivial
  | error halt w₁ =>
      rw [hrun] at hfinished
      cases halt with
      | error e => trivial
      | outOfFuel => exact hfinished

/-- Computations that take no steps and do not write to the namespaces. -/
theorem of_basic {x : RunM α} (hx : Basic x) (hsame : ∀ w a w', x w = .ok a w' → w'.spaces = w.spaces) :
    Concludes S x :=
  fun w hw => ⟨hx.finished w, fun a w' h => (hsame w a w' h).trans hw⟩

theorem expectBody (form : Syntax) (parts : List Syntax) (first : Nat) :
    Concludes S (expectBody form parts first) :=
  of_basic (.expectBody form parts first) fun w _ w' h => by rw [(expectBody_eq_ok.1 h).2]

theorem expectCount (form : Syntax) (parts : List Syntax) (count : Nat) (expected : Operands) :
    Concludes S (expectCount form parts count expected) :=
  of_basic (.expectCount form parts count expected) fun w _ w' h => by rw [(expectCount_eq_ok.1 h).2]

theorem bindingClauses (clauses : Syntax) : Concludes S (bindingClauses clauses) :=
  of_basic (.bindingClauses clauses) fun w _ w' h => by rw [(bindingClauses_eq_ok.1 h).2.2]

theorem kernelIdentifier (name : String) (site : Syntax) : Concludes S (kernelIdentifier name site) :=
  of_basic (.kernelIdentifier name site) fun w _ w' h => by rw [kernelIdentifier_eq_ok h]

theorem newRib (binders : List Syntax) : Concludes S (newRib binders) := by
  refine of_basic (.newRib binders) fun w rib w' h => ?_
  obtain ⟨-, -, -, rfl⟩ := newRib_eq_ok.1 h
  rfl

theorem descend (depth : Nat) (form : Syntax) : Concludes S (descend depth form) := by
  refine fun w hw => ⟨?_, fun deeper w' h => by rw [← (descend_eq_ok h).2, hw]⟩
  rw [HygienicLisp.descend, RunM.bind_apply, RunM.get_apply]
  dsimp only
  cases w.runtime.config.maxExpansionDepth with
  | none => trivial
  | some limit =>
      dsimp only
      split <;> trivial

end Concludes

/-! ## Core forms -/

section

variable {S : Spaces} {expand : ExpandContext → Syntax → RunM Syntax} {form : Syntax}
  {parts : List Syntax}

theorem concludes_expandEach {forms : List Syntax}
    (h : ∀ stx ∈ forms, Concludes S (expand .expression stx)) :
    Concludes S (expandEach expand .expression forms) := by
  induction forms with
  | nil => exact .pure _
  | cons stx rest ih =>
      obtain ⟨hstx, hrest⟩ := List.forall_mem_cons.1 h
      exact hstx.andAny fun _ => (ih hrest).andAny fun _ => .pure _

theorem concludes_expandFields {fields : List (String × Syntax)}
    (h : ∀ field ∈ fields, Concludes S (expand .expression field.2)) :
    Concludes S (expandFields expand fields) := by
  induction fields with
  | nil => exact .pure _
  | cons field rest ih =>
      obtain ⟨hfield, hrest⟩ := List.forall_mem_cons.1 h
      exact hfield.andAny fun _ => (ih hrest).andAny fun _ => .pure _

variable (hexpand : ∀ stx : Syntax, stx.work < form.work → Concludes S (expand .expression stx))
include hexpand

/-- Forms with less work, each in its place. -/
theorem concludes_each {forms : List Syntax} (h : ∀ stx ∈ forms, stx.work < form.work) :
    Concludes S (expandEach expand .expression forms) :=
  concludes_expandEach fun stx hstx => hexpand stx (h stx hstx)

/-- Forms with less work, inside the scope of a rib. -/
theorem concludes_renamed {forms : List Syntax} (h : ∀ stx ∈ forms, stx.work < form.work)
    (rib : Rib) : Concludes S (expandEach expand .expression (renamed rib forms)) := by
  refine concludes_each hexpand (List.forall_mem_map.2 fun stx hstx => ?_)
  rw [Syntax.work_addWrap]
  exact h stx hstx

variable (hparts : form.subforms? = some parts)
include hparts

theorem concludes_lambda : Concludes S (Expansion.lambda expand form parts) := by
  have hwork : ∀ stx ∈ parts, stx.work < form.work := fun _ => Syntax.work_lt_of_subforms? hparts
  unfold Expansion.lambda
  split
  · refine .andAny (.expectBody _ _ _) fun _ => ?_
    split
    · exact .failAt _ _
    · refine .andAny (.newRib _) fun rib => ?_
      refine .andAny (concludes_renamed hexpand (fun stx hstx => hwork stx ?_) rib) fun _ => .pure _
      simp [hstx]
  · exact .failAt _ _

/-- A named `let` is expanded as a call with less work. -/
theorem concludes_namedLet (hhead : ∀ head ∈ parts.head?, head.isIdentifier)
    (hname : ∀ name ∈ parts[1]?, name.isIdentifier) :
    Concludes S (namedLet expand form parts) := by
  unfold namedLet
  split
  · next head name clauses body =>
      refine .bind (.expectBody _ _ _) fun w _ w' hbody => ?_
      refine .bind (.bindingClauses _) fun w₁ pairs w₁' hpairs => ?_
      refine .bind (.kernelIdentifier _ _) fun w₂ lambdaHead w₂' hlambda => ?_
      refine .bind (.kernelIdentifier _ _) fun w₃ letrecHead w₃' hletrec => ?_
      obtain ⟨hclauses, hids, -⟩ := bindingClauses_eq_ok.1 hpairs
      refine hexpand _ (work_loopCall hparts ?_ (hhead _ rfl) (hname _ rfl) hclauses hids ?_ ?_)
      · rintro rfl
        have := (expectBody_eq_ok.1 hbody).1
        simp at this
      · cases hlambda
        rfl
      · cases hletrec
        rfl
  · exact .failAt _ _

theorem concludes_letForm (hhead : ∀ head ∈ parts.head?, head.isIdentifier) :
    Concludes S (letForm expand form parts) := by
  have hwork : ∀ stx ∈ parts, stx.work < form.work := fun _ => Syntax.work_lt_of_subforms? hparts
  unfold letForm
  split
  · next head clauses body =>
      split
      · next hname =>
          refine concludes_namedLet hexpand hparts hhead fun name h => ?_
          obtain rfl := Option.some.inj h
          exact hname
      · refine .andAny (.expectBody _ _ _) fun _ => ?_
        refine .bind (.bindingClauses _) fun w pairs w' hpairs => ?_
        obtain ⟨hclauses, hids, -⟩ := bindingClauses_eq_ok.1 hpairs
        have hinits : ∀ stx ∈ pairs.map (·.2), stx.work < form.work := fun stx hstx =>
          (work_lt_of_isClauses hclauses hids hstx).trans (hwork clauses (by simp))
        refine .andAny (concludes_each hexpand hinits) fun _ => .andAny (.newRib _) fun rib => ?_
        refine .andAny (concludes_renamed hexpand (fun stx hstx => hwork stx ?_) rib) fun _ => .pure _
        simp [hstx]
  · exact .failAt _ _

theorem concludes_letrec : Concludes S (letrec expand form parts) := by
  have hwork : ∀ stx ∈ parts, stx.work < form.work := fun _ => Syntax.work_lt_of_subforms? hparts
  unfold letrec
  split
  · next head clauses body =>
      refine .andAny (.expectBody _ _ _) fun _ => ?_
      refine .bind (.bindingClauses _) fun w pairs w' hpairs => ?_
      obtain ⟨hclauses, hids, -⟩ := bindingClauses_eq_ok.1 hpairs
      have hinits : ∀ stx ∈ pairs.map (·.2), stx.work < form.work := fun stx hstx =>
        (work_lt_of_isClauses hclauses hids hstx).trans (hwork clauses (by simp))
      refine .andAny (.newRib _) fun rib => ?_
      refine .andAny (concludes_renamed hexpand hinits rib) fun _ => ?_
      refine .andAny (concludes_renamed hexpand (fun stx hstx => hwork stx ?_) rib) fun _ => .pure _
      simp [hstx]
  · exact .failAt _ _

omit hparts in
theorem concludes_parameterClauses {items : List Syntax}
    (hitems : ∀ clause ∈ items, clause.work < form.work) :
    Concludes S (parameterClauses expand items) := by
  induction items with
  | nil => exact .pure _
  | cons clause rest ih =>
      obtain ⟨hclause, hrest⟩ := List.forall_mem_cons.1 hitems
      rw [parameterClauses]
      split
      · next parameter value hsubforms =>
          have hpart (stx : Syntax) (h : stx ∈ clause.subforms) : stx.work < form.work := by
            rw [Syntax.subforms] at h
            cases hsome : clause.subforms? with
            | none => simp [hsome] at h
            | some found =>
                rw [hsome, Option.getD_some] at h
                exact (Syntax.work_lt_of_subforms? hsome h).trans hclause
          refine .andAny (hexpand _ (hpart parameter (by simp [hsubforms]))) fun _ => ?_
          refine .andAny (hexpand _ (hpart value (by simp [hsubforms]))) fun _ => ?_
          exact .andAny (ih hrest) fun _ => .pure _
      · exact .failAt _ _

theorem concludes_parameterize : Concludes S (parameterize expand form parts) := by
  have hwork : ∀ stx ∈ parts, stx.work < form.work := fun _ => Syntax.work_lt_of_subforms? hparts
  unfold parameterize
  split
  · next head clauses body =>
      refine .andAny (.expectBody _ _ _) fun _ => ?_
      split
      · exact .failAt _ _
      · next items hitems =>
          have hclauses : ∀ clause ∈ items, clause.work < form.work := fun clause hclause =>
            (Syntax.work_lt_of_subforms? hitems hclause).trans (hwork clauses (by simp))
          refine .andAny (concludes_parameterClauses hexpand hclauses) fun _ => ?_
          refine .andAny (concludes_each hexpand fun stx hstx => hwork stx ?_) fun _ => .pure _
          simp [hstx]
  · exact .failAt _ _

/-- One case for each core form; definitions, imports, exports and modules are no expressions. -/
theorem concludes_core (hhead : ∀ head ∈ parts.head?, head.isIdentifier) (loader : Loader)
    (ns : NamespaceId) (f : CoreForm) :
    Concludes S (core expand loader ns f form parts .expression) := by
  -- Every part is less work than the form, which is what the induction needs.
  have hwork : ∀ stx ∈ parts, stx.work < form.work := fun _ => Syntax.work_lt_of_subforms? hparts
  have hrest : ∀ stx ∈ parts.drop 1, stx.work < form.work := fun stx hstx =>
    hwork stx (List.mem_of_mem_drop hstx)
  cases f with
  | quote | quoteSyntax => exact .andAny (.expectCount _ _ _ _) fun _ => .pure _
  | ifForm =>
      refine .andAny (.expectCount _ _ _ _) fun _ => ?_
      exact .andAny (concludes_each hexpand hrest) fun _ => .pure _
  | begin => exact .andAny (concludes_each hexpand hrest) fun _ => .pure _
  | lambda => exact concludes_lambda hexpand hparts
  | letForm => exact concludes_letForm hexpand hparts hhead
  | letrec => exact concludes_letrec hexpand hparts
  | set =>
      refine .andAny (.expectCount _ _ _ _) fun _ => ?_
      split
      · next head id value =>
          have hvalue : Concludes S (do
              let value ← expand .expression value
              return form.rebuildSexp [head, id, value]) :=
            .andAny (hexpand value (hwork value (by simp))) fun _ => .pure _
          dsimp only
          split
          · exact .andAny (.failAt _ _) fun _ => hvalue
          · exact hvalue
      · exact .failAt _ _
  | parameterize => exact concludes_parameterize hexpand hparts
  | define | defineSyntax | moduleForm | require | provide => exact .bind (.failAt _ _) nofun

end

/-! ## Whole forms -/

theorem Spaces.MacroFree.headValue?_ne {S : Spaces} (h : S.MacroFree) {head : Syntax}
    {id procedureId : ObjectId} {p : Procedure} :
    headValue? S head ≠ some (.transformer id procedureId p) := by
  rw [headValue?]
  split
  · split
    · next cell _ => exact h cell id procedureId p
    · simp
  · simp

/-- Where no address of a namespace has a transformer no name leads to one. -/
theorem Spaces.macroFree_of_values {S : Spaces}
    (h : ∀ space ∈ S, ∀ id procedureId p, some (.transformer id procedureId p) ∉ space.values) :
    S.MacroFree := by
  intro cell id procedureId p hlookup
  obtain ⟨d, -, -, hvalue⟩ := lookup?_eq_some.1 hlookup
  rw [value?] at hvalue
  split at hvalue
  · next space hspace =>
      have hmem := Array.mem_of_getElem? (Option.join_eq_some_iff.1 hvalue)
      exact h space (Array.mem_of_getElem? hspace) id procedureId p hmem
  · cases hvalue

theorem isIdentifier_of_headValue? {S : Spaces} {head : Syntax} {v : Value}
    (h : headValue? S head = some v) : head.isIdentifier := by
  by_contra hid
  rw [headValue?, if_neg hid] at h
  cases h

section

variable {S : Spaces} {expand : Nat → ExpandContext → Syntax → RunM Syntax} {form : Syntax}
  (hexpand : ∀ depth stx, stx.work < form.work → Concludes S (expand depth .expression stx))
include hexpand

theorem concludes_expandPlain (depth : Nat) : Concludes S (expandPlain expand depth form) := by
  unfold expandPlain
  split
  · refine .get_bind fun w => ?_
    split
    · exact .failAt _ _
    · exact .failAt _ _
    · exact .pure _
  · exact .pure _
  · next c shape items =>
      refine .andAny (concludes_expandEach fun stx hstx => ?_) fun _ => .pure _
      cases helements : (Syntax.group c shape items).elements? with
      | none => simp [helements] at hstx
      | some elements =>
          rw [helements, Option.getD_some] at hstx
          exact hexpand depth stx (Syntax.work_lt_of_elements? helements hstx)
  · next c fields =>
      refine .andAny (concludes_expandFields fun field hfield => ?_) fun _ => .pure _
      exact hexpand depth field.2 (Syntax.work_lt_of_fields? rfl hfield)

theorem concludes_expandSexp (hmacros : S.MacroFree) (loader : Loader) (ns : NamespaceId)
    (fuel depth : Nat) :
    Concludes S (expandSexp ns expand loader (fuel + 1) depth .expression form) := by
  rw [expandSexp]
  cases hsubforms : form.subforms with
  | nil => exact .failAt _ _
  | cons head rest =>
      have hparts : form.subforms? = some (head :: rest) := by
        rw [Syntax.subforms] at hsubforms
        cases hsome : form.subforms? with
        | none => simp [hsome] at hsubforms
        | some parts => simpa [hsome] using hsubforms
      have hcall : Concludes S (do
          return form.rebuildSexp (← expandEach (expand depth) .expression (head :: rest))) :=
        .andAny (concludes_expandEach fun stx hstx =>
          hexpand depth stx (Syntax.work_lt_of_subforms? hparts hstx)) fun _ => .pure _
      refine .getSpaces_bind ?_
      cases hvalue : headValue? S head with
      | none => exact hcall
      | some v =>
          cases v with
          | transformer id procedureId p => exact absurd hvalue hmacros.headValue?_ne
          | form f =>
              refine concludes_core (hexpand depth) hparts (fun first hfirst => ?_) loader ns f
              obtain rfl := Option.some.inj hfirst
              exact isIdentifier_of_headValue? hvalue
          | _ => exact hcall

end

/-- With more steps than the form has work its expansion comes to an end. -/
theorem concludes_expand {S : Spaces} (hmacros : S.MacroFree) (loader : Loader) (ns : NamespaceId)
    (fuel depth : Nat) (form : Syntax) (hfuel : form.work < fuel) :
    Concludes S (expand loader ns fuel depth .expression form) := by
  induction fuel using Nat.strong_induction_on generalizing depth form with
  | _ fuel ih =>
      have hpos := form.work_pos
      obtain ⟨fuel, rfl⟩ : ∃ rest, fuel = rest + 2 := ⟨fuel - 2, by omega⟩
      have hexpand (depth : Nat) (stx : Syntax) (h : stx.work < form.work) :
          Concludes S (expand loader ns (fuel + 1) depth .expression stx) :=
        ih (fuel + 1) (by omega) depth stx (by omega)
      rw [expand]
      refine .andAny (.descend depth form) fun depth => .inContext ?_ form
      split
      · exact concludes_expandSexp hexpand hmacros loader ns fuel depth
      · exact concludes_expandPlain hexpand depth

/-- Where no name has a transformer as its value, the expansion of a form as an expression comes to
an end, with a result or with a failure, and leaves the namespaces as they are.  Steps beyond the
work of the form make no difference. -/
theorem expand_macroFree {w : World} (hmacros : w.spaces.MacroFree) (loader : Loader)
    (ns : NamespaceId) (depth : Nat) (form : Syntax) :
    ∃ result, Finished result ∧ (∀ e w', result = .ok e w' → w'.spaces = w.spaces) ∧
      ∀ fuel, form.work < fuel → expand loader ns fuel depth .expression form w = result := by
  obtain ⟨hfinished, hsame⟩ :=
    concludes_expand hmacros loader ns (form.work + 1) depth form (Nat.lt_succ_self _) w rfl
  refine ⟨_, hfinished, hsame, fun fuel hfuel => ?_⟩
  exact expand_mono hfuel (.refl loader) ns depth .expression form w hfinished

/-- A session whose only names are those of the forms that a named `let` and its call are made of. -/
def loopWorld : World where
  spaces := #[
    { home := ⟨"/top"⟩
      kind := .topLevel
      entries := definedCells 0 ⟨"/top"⟩ ["let", "lambda", "letrec"]
      definitionCount := 3
      values := #[some (.form .letForm), some (.form .lambda), some (.form .letrec)] }]
  runtime := { kernel := ⟨⟨"/top"⟩, 0, []⟩ }

/-- `(let go () (go))`, whose expansion has twice as many nodes. -/
def endlessLoop : Syntax :=
  .group {} .sexp [sessionId "let", sessionId "go", .group {} .sexp [],
    .group {} .sexp [sessionId "go"]]

theorem expand_endlessLoop :
    loopWorld.spaces.MacroFree ∧ endlessLoop.weight = 6 ∧
      ∃ e w, Finished (.ok e w : EStateM.Result Halt World Syntax) ∧ e.weight = 12 ∧
        ∀ fuel, endlessLoop.work < fuel →
          expand .exhausted 0 fuel 0 .expression endlessLoop loopWorld = .ok e w := by
  have hmacros : loopWorld.spaces.MacroFree := by
    refine Spaces.macroFree_of_values fun space hspace id procedureId p hmem => ?_
    obtain rfl := Array.mem_singleton.1 hspace
    simp at hmem
  obtain ⟨result, hfinished, -, hsame⟩ := expand_macroFree hmacros .exhausted 0 0 endlessLoop
  have hrun : endsWith (fun e _ => e.weight = 12)
      (expand .exhausted 0 20 0 .expression endlessLoop loopWorld) := by decide +kernel
  rw [hsame 20 (by decide)] at hrun
  obtain ⟨e, w, rfl, hweight⟩ := exists_of_endsWith hrun
  exact ⟨hmacros, by decide, e, w, hfinished, by simpa using hweight, hsame⟩

end HygienicLisp
