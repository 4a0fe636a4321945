import HygienicLisp.Proofs.Nesting.Comparison

/-!
# Expansion with a limit comes to an end

With a limit the depth grows with every expansion and every invocation that one form leads to, and
where it reaches the limit expansion fails.  So the expansion of a form and the expansion of its head
come to an end if every call of a transformer does (`terminates_expand`, `terminates_partialExpand`).

To say that every call comes to an end, the calls get a number of steps of their own, and one that
does not end in so many steps is a failure (`Rules.budgeted`).
-/

namespace HygienicLisp

/-- Running out of steps is a failure. -/
def RunM.orFail {α : Type} (overrun : Error) (x : RunM α) : RunM α := fun w =>
  match x w with
  | .error .outOfFuel w' => .error (.error overrun) w'
  | result => result

theorem Indifferent.orFail {α : Type} {x : RunM α} (hx : Indifferent x) (overrun : Error) :
    Basic (RunM.orFail overrun x) := by
  refine ⟨fun w limit => ?_, fun w => ?_⟩
  · rw [RunM.orFail, RunM.orFail, hx w limit]
    cases x w with
    | ok a w' => rfl
    | error halt w' => cases halt <;> rfl
  · rw [RunM.orFail]
    cases x w with
    | ok a w' => trivial
    | error halt w' => cases halt <;> trivial

/-- The rules of the program, but that each call of a transformer has the given number of steps. -/
def Rules.budgeted (steps : Nat) (overrun : Error) : Rules where
  descend := Rules.plain.descend
  call _ id procedureId p form := (invoke steps id procedureId p form).orFail overrun

/-! ## Runs that come to an end -/

/-- From some number of steps on the run is the same, and it is finished; it keeps the limit. -/
def Terminates (limit : Nat) {α : Type} (S : α → Prop) (x : Nat → RunM α) : Prop :=
  ∀ w, w.limit = some limit → ∃ steps result, Finished result ∧
    (∀ more, steps ≤ more → x more w = result) ∧
      ∀ a w', result = .ok a w' → S a ∧ w'.limit = some limit

section

variable {limit : Nat} {α β : Type} {S : α → Prop} {S' : β → Prop}

theorem terminates_basic {x : RunM α} (hx : Basic x) : Terminates limit (fun _ => True) fun _ => x :=
  fun w hw => ⟨0, x w, hx.finished w, fun _ _ => rfl, fun _ _ hrun =>
    ⟨trivial, (hx.indifferent.limit_of_ok hrun).trans hw⟩⟩

theorem terminates_bind {x : Nat → RunM α} {f : Nat → α → RunM β} (hx : Terminates limit S x)
    (hf : ∀ a, S a → Terminates limit S' fun n => f n a) : Terminates limit S' fun n => x n >>= f n := by
  intro w hw
  obtain ⟨steps, result, hfinished, hsame, hok⟩ := hx w hw
  cases result with
  | ok a w₁ =>
      obtain ⟨ha, hw₁⟩ := hok a w₁ rfl
      obtain ⟨steps', result', hfinished', hsame', hok'⟩ := hf a ha w₁ hw₁
      refine ⟨max steps steps', result', hfinished', fun more hmore => ?_, hok'⟩
      have hrun : (x more >>= f more) w = f more a w₁ := by
        rw [RunM.bind_apply, hsame more (by omega)]
      exact hrun.trans (hsame' more (by omega))
  | error halt w₁ =>
      cases halt with
      | outOfFuel => exact hfinished.elim
      | error e =>
          refine ⟨steps, .error (.error e) w₁, trivial, fun more hmore => ?_, fun _ _ h => by cases h⟩
          change (x more >>= f more) w = _
          rw [RunM.bind_apply, hsame more hmore]

theorem terminates_mapError {x : Nat → RunM α} (hx : Terminates limit S x) (f : Error → Error) :
    Terminates limit S fun n => RunM.mapError f (x n) := by
  intro w hw
  obtain ⟨steps, result, hfinished, hsame, hok⟩ := hx w hw
  refine ⟨steps, RunM.mapError f (fun _ => result) w, ?_, fun more hmore => ?_, ?_⟩
  · cases result with
    | ok a w' => trivial
    | error halt w' => cases halt <;> trivial
  · change RunM.mapError f (x more) w = _
    rw [RunM.mapError, hsame more hmore]
    rfl
  · cases result with
    | ok a w' => exact hok
    | error halt w' => cases halt <;> exact fun _ _ h => by cases h

theorem terminates_andThen {x : Nat → RunM α} {leave : World → World} (hx : Terminates limit S x)
    (hleave : ∀ w limit, leave (w.withLimit limit) = (leave w).withLimit limit) :
    Terminates limit S fun n => (x n).andThen leave := by
  intro w hw
  obtain ⟨steps, result, hfinished, hsame, hok⟩ := hx w hw
  refine ⟨steps, RunM.andThen (fun _ => result) leave w, ?_, fun more hmore => ?_, ?_⟩
  · cases result with
    | ok a w' => trivial
    | error halt w' => cases halt <;> exact hfinished
  · change (x more).andThen leave w = _
    rw [RunM.andThen, hsame more hmore]
    rfl
  · cases result with
    | ok a w' =>
        rintro _ _ ⟨⟩
        obtain ⟨ha, hw'⟩ := hok a w' rfl
        exact ⟨ha, (World.limit_leave hleave w').trans hw'⟩
    | error halt w' => exact fun _ _ h => by cases h

/-- A run that is the same from some number of steps on. -/
theorem Terminates.congr {x y : Nat → RunM α} (hx : Terminates limit S x) (least : Nat)
    (h : ∀ n, least ≤ n → y n = x n) : Terminates limit S y := by
  intro w hw
  obtain ⟨steps, result, hfinished, hsame, hok⟩ := hx w hw
  refine ⟨max least steps, result, hfinished, fun more hmore => ?_, hok⟩
  rw [h more (by omega), hsame more (by omega)]

end

/-- Runs that come to an end, for each number of steps. -/
def Comparison.terminates (limit : Nat) : Comparison Nat where
  Holds := Terminates limit
  pure {_ _ a} ha w hw := ⟨0, .ok a w, trivial, fun _ _ => rfl, fun _ _ hrun => by
    cases hrun
    exact ⟨ha, hw⟩⟩
  basic := terminates_basic
  bind := terminates_bind
  get_bind _ hf w hw := hf w w hw
  mapError _ hx := terminates_mapError hx _
  andThen hleave hx := terminates_andThen hx hleave

/-! ## Expansion -/

theorem descend_apply {w : World} {limit : Nat} (hw : w.limit = some limit) (depth : Nat)
    (form : Syntax) :
    descend depth form w =
      if limit < depth + 1 then .error (.error (.atForm (.badSyntax (.depthLimit limit)) form)) w
      else .ok (depth + 1) w := by
  simp only [descend, RunM.bind_apply, RunM.get_apply]
  rw [World.limit] at hw
  rw [hw]
  by_cases h : limit < depth + 1
  · simp [h]
  · simp [h]

section

variable (steps : Nat) (overrun : Error) {limit : Nat}

open Tracked

/-- Going deeper comes to an end, and below the limit only. -/
theorem terminates_down (descent : Descent) (place : Place) (form : Syntax) :
    Terminates limit (fun next => place.depth < limit ∧ next.depth = place.depth + 1) fun _ =>
      down (.budgeted steps overrun) descent place form := by
  intro w hw
  refine ⟨0, _, ?_, fun _ _ => rfl, ?_⟩
  all_goals
    simp only [down, Rules.budgeted, Rules.plain, RunM.bind_apply, descend_apply hw]
    by_cases h : limit < place.depth + 1
  · simp [h, Finished]
  · simp [h, Finished]
  · simp [h]
  · rintro next w' hrun
    simp only [if_neg h, RunM.pure_apply] at hrun
    cases hrun
    exact ⟨⟨by omega, place.depth_deeper descent⟩, hw⟩

theorem terminates_call (fuel : Nat → Nat) (id procedureId : ObjectId) (p : Procedure)
    (form : Syntax) :
    Terminates limit (fun _ => True) fun n =>
      (Rules.budgeted steps overrun).call (fuel n) id procedureId p form :=
  terminates_basic ((Indifferent.invoke steps id procedureId p form).orFail overrun)

/-- Going deeper where the limit is reached, and what would follow. -/
theorem terminates_down_bind {α : Type} {S : α → Prop} {descent : Descent} {place : Place}
    {form : Syntax} {f : Nat → Place → RunM α}
    (hf : ∀ next : Place, next.depth = place.depth + 1 → place.depth < limit →
      Terminates limit S fun n => f n next) :
    Terminates limit S fun n => down (.budgeted steps overrun) descent place form >>= f n :=
  terminates_bind (terminates_down steps overrun descent place form) fun next hnext =>
    hf next hnext.2 hnext.1

/-- The head of a form is expanded, in the steps that are left after `used` others: each
invocation uses up one of the depths below the limit. -/
theorem terminates_partialExpand (used : Nat) (place : Place) (form : Syntax) :
    Terminates limit (fun _ => True) fun n =>
      Tracked.partialExpand (.budgeted steps overrun) (n - used) place form := by
  have hbody : Terminates limit (fun _ => True) fun n =>
      Tracked.partialExpand (.budgeted steps overrun) (n - (used + 1) + 1) place form := by
    simp only [Tracked.partialExpand]
    cases form.subforms with
    | nil => exact (Comparison.terminates limit).pure trivial
    | cons head rest =>
        refine terminates_bind (terminates_basic .getSpaces) fun spaces _ => ?_
        cases headValue? spaces head with
        | none => exact (Comparison.terminates limit).pure trivial
        | some v =>
            cases v with
            | transformer id procedureId p =>
                refine terminates_down_bind steps overrun fun next hdepth hbelow => ?_
                refine terminates_bind (terminates_call steps overrun _ id procedureId p form)
                  fun form _ => ?_
                exact terminates_partialExpand (used + 1) next form
            | form f => cases f <;> exact (Comparison.terminates limit).pure trivial
            | _ => exact (Comparison.terminates limit).pure trivial
  refine hbody.congr (used + 1) fun n hn => ?_
  rw [show n - used = n - (used + 1) + 1 by omega]
termination_by limit - place.depth

variable {loader : PlacedLoader} {ns : NamespaceId}
  (hinstantiate : ∀ id, Basic (loader.instantiate id))
  (hdeclare : ∀ place id body, Basic (loader.declare place id body))
include hinstantiate hdeclare

/-- A form with parentheses is expanded if the forms at its depth and below are. -/
theorem terminates_expandSexp {expand : Nat → Place → ExpandContext → Syntax → RunM Syntax}
    (used : Nat) (place : Place)
    (hexpand : ∀ next : Place, place.depth ≤ next.depth → ∀ context form,
      Terminates limit (fun _ => True) fun n => expand n next context form)
    (context : ExpandContext) (form : Syntax) :
    Terminates limit (fun _ => True) fun n =>
      expandSexp (.budgeted steps overrun) ns (expand n) loader (n - used) place context form := by
  have hbody : Terminates limit (fun _ => True) fun n =>
      expandSexp (.budgeted steps overrun) ns (expand n) loader (n - (used + 1) + 1) place context
        form := by
    simp only [expandSexp]
    cases form.subforms with
    | nil => exact terminates_basic (.failAt _ _)
    | cons head rest =>
        refine terminates_bind (terminates_basic .getSpaces) fun spaces _ => ?_
        have heach : Terminates limit (fun _ => True) fun n => do
            let forms ← Expansion.expandEach (expand n place) .expression (head :: rest)
            return form.rebuildSexp forms :=
          terminates_bind (Comparison.expandEach (C := .terminates limit) (hexpand place le_rfl) _ _)
            fun _ _ => (Comparison.terminates limit).pure trivial
        cases headValue? spaces head with
        | none => exact heach
        | some v =>
            cases v with
            | transformer id procedureId p =>
                refine terminates_down_bind steps overrun fun next hdepth hbelow => ?_
                refine terminates_bind (terminates_call steps overrun _ id procedureId p form)
                  fun form _ => ?_
                -- A transformer goes one level down, so there is less left of the limit.
                have hnext (deeper : Place) (h : next.depth ≤ deeper.depth) :=
                  hexpand deeper (by omega)
                refine Comparison.Agrees.ite (C := .terminates limit) ?_ ?_
                · exact terminates_expandSexp (used + 1) next hnext context form
                · exact Comparison.expandPlain (C := .terminates limit) (hnext next le_rfl)
                    next.depth form
            | form f =>
                exact Comparison.core (C := .terminates limit)
                  (fun id => terminates_basic (hinstantiate id))
                  (fun id body => terminates_basic (hdeclare place id body))
                  (hexpand place le_rfl) ns f form (head :: rest) context
            | _ => exact heach
  refine hbody.congr (used + 1) fun n hn => ?_
  rw [show n - used = n - (used + 1) + 1 by omega]
termination_by limit - place.depth

/-- A form is expanded, in the steps that are left after `used` others. -/
theorem terminates_expand (used : Nat) (place : Place) (context : ExpandContext) (form : Syntax) :
    Terminates limit (fun _ => True) fun n =>
      expand (.budgeted steps overrun) loader ns (n - used) place context form := by
  have hbody : Terminates limit (fun _ => True) fun n =>
      expand (.budgeted steps overrun) loader ns (n - (used + 1) + 1) place context form := by
    simp only [expand]
    refine terminates_down_bind steps overrun fun next hdepth hbelow => ?_
    have hnext (deeper : Place) (h : next.depth ≤ deeper.depth) (context : ExpandContext)
        (form : Syntax) := terminates_expand (used + 1) deeper context form
    refine Comparison.Agrees.inContext (C := Comparison.terminates limit)
      (Comparison.Agrees.ite ?_ ?_) form
    · exact terminates_expandSexp steps overrun hinstantiate hdeclare (used + 1) next hnext context form
    · exact Comparison.expandPlain (C := Comparison.terminates limit)
        (hnext next le_rfl) next.depth form
  refine hbody.congr (used + 1) fun n hn => ?_
  rw [show n - used = n - (used + 1) + 1 by omega]
termination_by limit - place.depth

end

/-! ## What comes to an end -/

theorem Terminates.finishes {limit : Nat} {α : Type} {S : α → Prop} {x : Nat → RunM α}
    (h : Terminates limit S x) {w : World} (hw : w.limit = some limit) :
    ∃ fuel, Finished (x fuel w) := by
  obtain ⟨steps, result, hfinished, hsame, -⟩ := h w hw
  exact ⟨steps, hsame steps le_rfl ▸ hfinished⟩

end HygienicLisp
