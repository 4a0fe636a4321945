import HygienicLisp.Proofs.TopLevel.Steps

/-!
# A `begin` at top level is its forms, one after the other

A session keeps the forms that are still to be evaluated in a queue and puts the parts of a `begin`
at its front.  `evalSpliced` has no queue: it goes through the parts of a `begin` by calling itself
on each, so that every form has been evaluated before anything to its right is expanded.  The two
come to the same end, with the same world, from every world and for every form
(`evalInContext_sequential`).

That the queue has not finished more than the recursion is an induction on the steps of the queue
(`evalQueue_approximates`).  In the other direction the steps that the queue needs depend on how many
forms a transformer returns, so the comparison is for large enough numbers of steps only
(`Attains`), and the induction is on the steps of the recursion.
-/

namespace HygienicLisp

/-! ## The recursive procedure -/

/-- Evaluates forms in order, each to the list of its values. -/
def evalEach (eval : Syntax → RunM (List Value)) : List Syntax → RunM (List Value)
  | [] => return []
  | form :: rest => do
    let values ← eval form
    let more ← evalEach eval rest
    return values ++ more

/-- Evaluates a form to its values: a core `begin` has those of its parts, from left to right, any
other form has one.  Each form is expanded after all to its left have been evaluated. -/
def evalSpliced (loader : Loader) (ns : NamespaceId) : Nat → Syntax → RunM (List Value)
  | 0, _ => RunM.exhausted
  | fuel + 1, form => do
    match ← partialExpand fuel 0 form with
    | .splice forms => evalEach (evalSpliced loader ns fuel) forms
    | .form form _ =>
      let v ← runForm loader fuel ns .topLevel form
      return [v]

theorem evalEach_append (eval : Syntax → RunM (List Value)) (forms rest : List Syntax) :
    evalEach eval (forms ++ rest) = do
      let values ← evalEach eval forms
      let more ← evalEach eval rest
      return values ++ more := by
  induction forms with
  | nil => simp [evalEach]
  | cons form forms ih =>
      simp only [List.cons_append, evalEach, ih, bind_assoc, pure_bind, List.append_assoc]

theorem evalEach_mono {eval eval' : Syntax → RunM (List Value)}
    (h : ∀ form, Approximates (eval form) (eval' form)) (forms : List Syntax) :
    Approximates (evalEach eval forms) (evalEach eval' forms) := by
  induction forms with
  | nil => exact .refl _
  | cons form rest ih => exact (h form).bind fun _ => ih.bind fun _ => .refl _

section

variable {loader : Loader} {ns : NamespaceId}

theorem evalSpliced_mono {fuel more : Nat} (hle : fuel ≤ more) (form : Syntax) :
    Approximates (evalSpliced loader ns fuel form) (evalSpliced loader ns more form) := by
  induction fuel generalizing more form with
  | zero => exact .exhausted _
  | succ fuel ih =>
      obtain ⟨more, rfl⟩ := Nat.exists_eq_add_of_lt hle
      rw [evalSpliced, evalSpliced]
      refine (partialExpand_mono (by omega) 0 form).bind fun part => ?_
      cases part with
      | splice forms => exact evalEach_mono (fun form => ih (by omega) form) forms
      | form form core =>
          exact (runForm_mono (by omega) (.refl loader) ns .topLevel form).bind fun _ => .refl _

/-! ## From the queue to the recursion -/

theorem getLastD_append (values more : List Value) (result : Value) :
    (values ++ more).getLastD result = more.getLastD (values.getLastD result) := by
  cases more with
  | nil => simp
  | cons v more => simp [List.getLastD_eq_getLast?]

/-- What the queue has finished the recursion over its forms has. -/
theorem evalQueue_approximates (fuel : Nat) (result : Value) (queue : List Syntax) :
    Approximates (evalQueue loader ns fuel result queue) (do
      let values ← evalEach (evalSpliced loader ns fuel) queue
      return values.getLastD result) := by
  induction fuel generalizing result queue with
  | zero => exact .exhausted _
  | succ fuel ih =>
      cases queue with
      | nil => exact .refl _
      | cons form queue =>
          have hqueue : Approximates (evalEach (evalSpliced loader ns fuel) queue)
              (evalEach (evalSpliced loader ns (fuel + 1)) queue) :=
            evalEach_mono (fun form => evalSpliced_mono (by omega) form) queue
          rw [evalQueue, evalEach, evalSpliced]
          simp only [bind_assoc, pure_bind]
          refine .rest _ fun part => ?_
          cases part with
          | splice forms =>
              refine (ih result (forms ++ queue)).trans ?_
              rw [evalEach_append]
              simp only [bind_assoc, pure_bind]
              exact .rest _ fun values => hqueue.bind fun more => .refl _
          | form form core =>
              simp only [bind_assoc, pure_bind]
              refine .rest _ fun v => (ih v queue).trans ?_
              refine hqueue.bind fun more => ?_
              rw [getLastD_append]
              exact .refl _

end

/-! ## Large enough numbers of steps -/

/-- Where `x` does not run out of steps, `y` ends as it does from some number of steps on. -/
def Attains {α : Type} (x : RunM α) (y : Nat → RunM α) : Prop :=
  ∀ w, Finished (x w) → ∃ least, ∀ more, least ≤ more → y more w = x w

namespace Attains

variable {α β : Type}

/-- A run that keeps what it has finished attains each of its stages. -/
theorem of_mono {x : Nat → RunM α}
    (hmono : ∀ {fuel more : Nat}, fuel ≤ more → Approximates (x fuel) (x more)) (fuel : Nat) :
    Attains (x fuel) x :=
  fun w hw => ⟨fuel, fun _ hmore => hmono hmore w hw⟩

theorem bind {x : RunM α} {y : Nat → RunM α} {f : α → RunM β} {g : Nat → α → RunM β}
    (hx : Attains x y) (hf : ∀ a, Attains (f a) fun n => g n a) :
    Attains (x >>= f) fun n => y n >>= g n := by
  intro w hw
  rw [RunM.bind_apply] at hw
  simp only [RunM.bind_apply]
  have hxw := hx w
  cases hrun : x w with
  | ok a w₁ =>
      rw [hrun] at hw hxw
      obtain ⟨least, hleast⟩ := hxw trivial
      obtain ⟨least', hleast'⟩ := hf a w₁ hw
      refine ⟨max least least', fun more hmore => ?_⟩
      rw [hleast more (by omega)]
      exact hleast' more (by omega)
  | error halt w₁ =>
      rw [hrun] at hw hxw
      cases halt with
      | error e =>
          obtain ⟨least, hleast⟩ := hxw trivial
          exact ⟨least, fun more hmore => by rw [hleast more hmore]⟩
      | outOfFuel => exact hw.elim

/-- One step more makes no difference for large enough numbers of steps. -/
theorem of_succ {x : RunM α} {y : Nat → RunM α} (h : Attains x fun n => y (n + 1)) :
    Attains x y := by
  intro w hw
  obtain ⟨least, hleast⟩ := h w hw
  refine ⟨least + 1, fun more hmore => ?_⟩
  obtain ⟨more, rfl⟩ := Nat.exists_eq_add_of_le' (show 1 ≤ more by omega)
  exact hleast more (by omega)

end Attains

/-! ## From the recursion to the queue -/

section

variable {loader : Loader} {ns : NamespaceId}

/-- The queue attains the recursion over the forms at its front, if it attains what is to follow. -/
theorem evalEach_attains (fuel : Nat) (forms rest : List Syntax) (result : Value)
    {next : Value → RunM Value}
    (hnext : ∀ v, Attains (next v) fun n => evalQueue loader ns n v rest) :
    Attains (do
      let values ← evalEach (evalSpliced loader ns fuel) forms
      next (values.getLastD result)) fun n => evalQueue loader ns n result (forms ++ rest) := by
  induction fuel generalizing forms rest result next with
  | zero =>
      cases forms with
      | nil => simpa [evalEach] using hnext result
      | cons form forms => exact fun w hw => hw.elim
  | succ fuel ih =>
      induction forms generalizing result with
      | nil => simpa [evalEach] using hnext result
      | cons form forms ihforms =>
          refine .of_succ ?_
          simp only [evalEach, evalSpliced, List.cons_append, evalQueue, bind_assoc, pure_bind]
          refine (Attains.of_mono (fun hle => partialExpand_mono hle 0 form) fuel).bind fun part => ?_
          cases part with
          | splice parts =>
              -- What follows the parts is what follows the whole form.
              simp only [getLastD_append]
              exact ih parts (forms ++ rest) result ihforms
          | form form core =>
              simp only [bind_assoc, pure_bind]
              refine (Attains.of_mono
                (fun hle => runForm_mono hle (.refl loader) ns .topLevel form) fuel).bind fun v => ?_
              simp only [getLastD_append]
              exact ihforms v

/-- The queue with one form attains the recursion. -/
theorem evalSpliced_attains (fuel : Nat) (form : Syntax) :
    Attains (do
      let values ← evalSpliced loader ns fuel form
      return values.getLastD .void) fun n => evalQueue loader ns n .void [form] := by
  have hend (v : Value) : Attains (pure v) fun n => evalQueue loader ns n v [] :=
    .of_succ fun w _ => ⟨0, fun _ _ => rfl⟩
  simpa [evalEach] using evalEach_attains fuel [form] [] .void hend

end

/-! ## Sessions -/

/-- Evaluating a form in a session comes to an end exactly as the recursive procedure does, with the
same value or failure and the same world, whether the form has the context of the session already or
is given it. -/
theorem evalInContext_sequential (ns : NamespaceId) (form : Syntax) (w : World)
    (r : EStateM.Result Halt World Value) :
    (EndsIn (fun fuel => evalInContext fuel ns form) w r ↔
      EndsIn (fun fuel => do
        let values ← evalSpliced (loaderAt fuel) ns fuel form
        return values.getLastD .void) w r) ∧
      (EndsIn (fun fuel => evalForm fuel ns form) w r ↔
        EndsIn (fun fuel => do
          let values ← evalSpliced (loaderAt fuel) ns fuel (form.introduce ns)
          return values.getLastD .void) w r) := by
  have hsame (form : Syntax) : EndsIn (fun fuel => evalInContext fuel ns form) w r ↔
      EndsIn (fun fuel => do
        let values ← evalSpliced (loaderAt fuel) ns fuel form
        return values.getLastD .void) w r := by
    refine and_congr_right fun hr => ⟨?_, ?_⟩
    · rintro ⟨fuel, rfl⟩
      have hqueue : Approximates (evalInContext fuel ns form) (do
          let values ← evalEach (evalSpliced (loaderAt fuel) ns fuel) [form]
          return values.getLastD .void) := evalQueue_approximates fuel .void [form]
      exact ⟨fuel, by simpa [evalEach] using hqueue w hr⟩
    · rintro ⟨fuel, hrun⟩
      have hattains : Attains (do
          let values ← evalSpliced (loaderAt fuel) ns fuel form
          return values.getLastD .void) fun n => evalQueue (loaderAt fuel) ns n .void [form] :=
        evalSpliced_attains fuel form
      dsimp only at hrun
      obtain ⟨least, hleast⟩ := hattains w (by rwa [hrun])
      have hqueue : evalQueue (loaderAt fuel) ns (max fuel least) .void [form] w = r :=
        (hleast _ (by omega)).trans hrun
      -- The queue gets its modules with as many steps as it has itself.
      have hloader : Approximates (evalQueue (loaderAt fuel) ns (max fuel least) .void [form])
          (evalInContext (max fuel least) ns form) :=
        evalQueue_mono le_rfl (loaderAt_mono (by omega)) ns .void [form]
      exact ⟨max fuel least, (hloader w (by rwa [hqueue])).trans hqueue⟩
  exact ⟨hsame form, hsame (form.introduce ns)⟩

end HygienicLisp
