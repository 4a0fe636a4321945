import HygienicLisp.Proofs.Nesting.Bound

/-!
# When the limit makes no difference

Without a limit a run whose depth stays within `L` is the run with the limit `L`, and any other run
that comes to an end fails with that limit (`limit_transparent`).  The depth is not the nesting of
invocations: every expansion of a part of a form counts, so the limit also restricts forms that no
transformer has to do with.

`Rules.metered` runs without a limit and comes to an end only if its depth stays within the given
number.
-/

namespace HygienicLisp

/-- The rules of the program, where a run that goes deeper than `limit` does not come to an end. -/
def Rules.metered (limit : Nat) : Rules where
  descend descent place form :=
    if place.depth < limit then Rules.plain.descend descent place form else RunM.exhausted
  call := invoke

/-- The run with the limit is the run without it if the metered run comes to an end; otherwise it
fails if the run without the limit comes to an end. -/
structure Transparent (limit : Nat) {α : Type} (metered plain : RunM α) (w : World) : Prop where
  same : Finished (metered w) →
    plain (w.withLimit (some limit)) = mapWorld (World.withLimit (some limit)) (plain w)
  fails : ¬Finished (metered w) → Finished (plain w) →
    ∃ e w', plain (w.withLimit (some limit)) = .error (.error e) w' ∧
      e.fault = .badSyntax (.depthLimit limit)

/-- A metered run and the run by the rules of the program. -/
structure MeteredAt (limit : Nat) {α : Type} (S : α → Prop) (metered plain : RunM α)
    (w : World) : Prop extends Transparent limit metered plain w where
  metered_eq : Finished (metered w) → metered w = plain w
  keeps : ∀ a w', metered w = .ok a w' → S a ∧ w'.limit = none

/-- A metered run and the run by the rules of the program, from any world without a limit. -/
def Metered (limit : Nat) {α : Type} (S : α → Prop) (x : Bool → RunM α) : Prop :=
  ∀ w, w.limit = none → MeteredAt limit S (x true) (x false) w

section

variable {limit : Nat} {α β : Type} {S : α → Prop} {S' : β → Prop}

theorem metered_indifferent {x : RunM α} (hx : Indifferent x) :
    Metered limit (fun _ => True) fun _ => x :=
  fun w hw =>
    { same := fun _ => hx w (some limit)
      fails := fun h h' => absurd h' h
      metered_eq := fun _ => rfl
      keeps := fun _ _ hrun => ⟨trivial, (hx.limit_of_ok hrun).trans hw⟩ }

theorem finished_of_bind {x : RunM α} {f : α → RunM β} {w : World}
    (h : Finished ((x >>= f) w)) : Finished (x w) := by
  rw [RunM.bind_apply] at h
  cases hrun : x w with
  | ok a w' => trivial
  | error halt w' =>
      rw [hrun] at h
      cases halt <;> exact h

theorem MeteredAt.bind {x y : RunM α} {f g : α → RunM β} {w : World}
    (hx : MeteredAt limit S x y w)
    (hf : ∀ a w', S a → w'.limit = none → MeteredAt limit S' (f a) (g a) w') :
    MeteredAt limit S' (x >>= f) (y >>= g) w := by
  cases hrun : x w with
  | ok a w' =>
      -- The runs go on with the same result.
      obtain ⟨ha, hw'⟩ := hx.keeps a w' hrun
      have hplain : y w = .ok a w' := by rw [← hx.metered_eq (hrun ▸ trivial), hrun]
      have hlimited : y (w.withLimit (some limit)) = .ok a (w'.withLimit (some limit)) := by
        rw [hx.same (hrun ▸ trivial), hplain]
        rfl
      obtain ⟨⟨hsame, hfails⟩, hmetered, hkeeps⟩ := hf a w' ha hw'
      refine ⟨⟨?_, ?_⟩, ?_, ?_⟩
      all_goals simpa only [RunM.bind_apply, hrun, hplain, hlimited]
  | error halt w' =>
      cases halt with
      | error e =>
          -- The runs end with the same error.
          have hplain : y w = .error (.error e) w' := by rw [← hx.metered_eq (hrun ▸ trivial), hrun]
          have hlimited : y (w.withLimit (some limit)) =
              .error (.error e) (w'.withLimit (some limit)) := by
            rw [hx.same (hrun ▸ trivial), hplain]
            rfl
          refine ⟨⟨fun _ => ?_, fun h => absurd ?_ h⟩, fun _ => ?_, fun b w₂ h => ?_⟩
          · simp only [RunM.bind_apply, hplain, hlimited, mapWorld]
          · simp only [RunM.bind_apply, hrun, Finished]
          · simp only [RunM.bind_apply, hrun, hplain]
          · simp only [RunM.bind_apply, hrun, reduceCtorEq] at h
      | outOfFuel =>
          -- The metered run does not end, and what follows is not reached with the limit.
          have hmetered : ¬Finished ((x >>= f) w) := by
            simp only [RunM.bind_apply, hrun, Finished, not_false_eq_true]
          refine ⟨⟨fun h => absurd h hmetered, fun _ h => ?_⟩, fun h => absurd h hmetered,
            fun b w₂ h => ?_⟩
          · have hopen : ¬Finished (x w) := by simp only [hrun, Finished, not_false_eq_true]
            obtain ⟨e, w₂, hlimited, hfault⟩ := hx.fails hopen (finished_of_bind h)
            exact ⟨e, w₂, by rw [RunM.bind_apply, hlimited], hfault⟩
          · simp only [RunM.bind_apply, hrun, reduceCtorEq] at h

theorem MeteredAt.mapError {x y : RunM α} {w : World} {f : Error → Error}
    (hf : ∀ e, (f e).fault = e.fault) (hx : MeteredAt limit S x y w) :
    MeteredAt limit S (RunM.mapError f x) (RunM.mapError f y) w := by
  have hfinished {z : RunM α} {w : World} : Finished (RunM.mapError f z w) ↔ Finished (z w) := by
    rw [RunM.mapError]
    cases z w with
    | ok a w' => rfl
    | error halt w' => cases halt <;> rfl
  refine ⟨⟨fun h => ?_, fun h h' => ?_⟩, fun h => ?_, fun a w' h => ?_⟩
  · rw [RunM.mapError, RunM.mapError, hx.same (hfinished.1 h)]
    cases y w with
    | ok a w' => rfl
    | error halt w' => cases halt <;> rfl
  · obtain ⟨e, w', hlimited, hfault⟩ := hx.fails (fun h' => h (hfinished.2 h')) (hfinished.1 h')
    exact ⟨f e, w', by rw [RunM.mapError, hlimited], (hf e).trans hfault⟩
  · rw [RunM.mapError, RunM.mapError, hx.metered_eq (hfinished.1 h)]
  · exact hx.keeps a w' (RunM.mapError_eq_ok.1 h)

theorem MeteredAt.andThen {x y : RunM α} {w : World} {leave : World → World}
    (hleave : ∀ w limit, leave (w.withLimit limit) = (leave w).withLimit limit)
    (hx : MeteredAt limit S x y w) :
    MeteredAt limit S (x.andThen leave) (y.andThen leave) w := by
  have hfinished {z : RunM α} {w : World} : Finished (z.andThen leave w) ↔ Finished (z w) := by
    rw [RunM.andThen]
    cases z w with
    | ok a w' => rfl
    | error halt w' => cases halt <;> rfl
  refine ⟨⟨fun h => ?_, fun h h' => ?_⟩, fun h => ?_, fun a w' h => ?_⟩
  · rw [RunM.andThen, RunM.andThen, hx.same (hfinished.1 h)]
    cases y w with
    | ok a w' => exact congrArg (EStateM.Result.ok a) (hleave w' _)
    | error halt w' => exact congrArg (EStateM.Result.error halt) (hleave w' _)
  · obtain ⟨e, w', hlimited, hfault⟩ := hx.fails (fun h' => h (hfinished.2 h')) (hfinished.1 h')
    exact ⟨e, leave w', by rw [RunM.andThen, hlimited], hfault⟩
  · rw [RunM.andThen, RunM.andThen, hx.metered_eq (hfinished.1 h)]
  · rw [RunM.andThen] at h
    cases hrun : x w with
    | ok b w₁ =>
        rw [hrun] at h
        obtain ⟨rfl, rfl⟩ := EStateM.Result.ok.inj h
        obtain ⟨hb, hw₁⟩ := hx.keeps b w₁ hrun
        exact ⟨hb, (World.limit_leave hleave w₁).trans hw₁⟩
    | error halt w₁ =>
        rw [hrun] at h
        cases h

end

/-- Metered runs beside the runs by the rules of the program. -/
def Comparison.metered (limit : Nat) : Comparison Bool where
  Holds := Metered limit
  pure {_ _ a} ha w hw :=
    ⟨⟨fun _ => rfl, fun h => absurd trivial h⟩, fun _ => rfl, fun _ _ hrun => by
      cases hrun
      exact ⟨ha, hw⟩⟩
  basic hx := metered_indifferent hx.indifferent
  bind hx hf w hw := (hx w hw).bind fun a w' ha hw' => hf a ha w' hw'
  get_bind {_ _ f} hget hf w hw := by
    have hlimited : (get >>= f false) (w.withLimit (some limit)) =
        f false w (w.withLimit (some limit)) := by
      change f false (w.withLimit (some limit)) (w.withLimit (some limit)) = _
      rw [hget]
    obtain ⟨⟨hsame, hfails⟩, hmetered, hkeeps⟩ := hf w w hw
    refine ⟨⟨fun h => hlimited.trans (hsame h), fun h h' => ?_⟩, hmetered, hkeeps⟩
    obtain ⟨e, w', hrun, hfault⟩ := hfails h h'
    exact ⟨e, w', hlimited.trans hrun, hfault⟩
  mapError hf hx w hw := (hx w hw).mapError hf
  andThen hleave hx w hw := (hx w hw).andThen hleave

theorem plain_descend_of_unlimited {w : World} (hw : w.limit = none) {place : Place}
    {descent : Descent} {form : Syntax} : Rules.plain.descend descent place form w = .ok () w := by
  rw [World.limit] at hw
  simp [Rules.plain, descend, RunM.bind_apply, hw]

/-- Going deeper by the rules of the program and with a meter. -/
theorem governs_metered (limit : Nat) :
    (Comparison.metered limit).Governs (fun i => cond i (.metered limit) .plain)
      fun _ => True where
  start := trivial
  release _ _ := trivial
  down descent place form _ := by
    intro w hw
    change MeteredAt limit _ (Tracked.down (.metered limit) descent place form)
      (Tracked.down .plain descent place form) w
    have hplain : Rules.plain.descend descent place form w = .ok () w :=
      plain_descend_of_unlimited hw
    have hlimit : (w.withLimit (some limit)).limit = some limit := rfl
    by_cases hbelow : place.depth < limit
    · -- There is a depth left, with and without the limit.
      have hlimited : Tracked.down .plain descent place form (w.withLimit (some limit)) = _ :=
        down_of_lt hlimit hbelow
      have hdown : Tracked.down .plain descent place form w = .ok (place.deeper descent) w := by
        simp only [Tracked.down, RunM.bind_apply, hplain, RunM.pure_apply]
      have hmetered : Tracked.down (.metered limit) descent place form =
          Tracked.down .plain descent place form := by
        simp only [Tracked.down, Rules.metered, if_pos hbelow]
      refine ⟨⟨fun _ => ?_, fun h => absurd ?_ h⟩, fun _ => by rw [hmetered], fun next w' hrun => ?_⟩
      · rw [hlimited, hdown]
        rfl
      · rw [hmetered, hdown]
        trivial
      · rw [hmetered, hdown] at hrun
        cases hrun
        exact ⟨trivial, hw⟩
    · have hmetered : Tracked.down (.metered limit) descent place form w = .error .outOfFuel w := by
        simp only [Tracked.down, Rules.metered, if_neg hbelow, RunM.bind_apply,
          RunM.exhausted_apply]
      have hlimited : Rules.plain.descend descent place form (w.withLimit (some limit)) = _ :=
        plain_descend_of_le hlimit (Nat.le_of_not_lt hbelow)
      have hopen : ¬Finished (Tracked.down (.metered limit) descent place form w) := by
        rw [hmetered]
        exact id
      refine ⟨⟨fun h => absurd h hopen, fun _ _ => ?_⟩, fun h => absurd h hopen, fun next w' hrun => ?_⟩
      · refine ⟨.atForm (.badSyntax (.depthLimit limit)) form, w.withLimit (some limit), ?_, rfl⟩
        simp only [Tracked.down, RunM.bind_apply, hlimited]
      · rw [hmetered] at hrun
        cases hrun
  call fuel id procedureId p form := metered_indifferent (.invoke fuel id procedureId p form)
  indifferent hx := metered_indifferent hx

/-! ## The limit and the depth -/

/-- From a world without a limit: if the depth of a run stays within `L`, the limit `L` makes no
difference, and if it does not the limit makes the run fail.  So it is for the expansion of a form,
its evaluation in a session and the declaration of a module. -/
theorem limit_transparent {w : World} (hw : w.limit = none) (limit fuel : Nat) (ns : NamespaceId)
    (form : Syntax) :
    (∀ context, Transparent limit
      (Tracked.expand (.metered limit) (Tracked.loaderAt (.metered limit) fuel) ns fuel {} context
        form)
      (Expansion.expand (loaderAt fuel) ns fuel 0 context form) w) ∧
    Transparent limit (Tracked.evalForm (.metered limit) fuel ns form) (evalForm fuel ns form) w ∧
    ∀ id body, Transparent limit
      (Tracked.declareModule (.metered limit) (Tracked.loaderAt (.metered limit) fuel) fuel {} id
        body)
      (declareModule (loaderAt fuel) fuel id body) w := by
  have hgoverns := governs_metered limit
  have hloads := Comparison.loaderAt hgoverns fuel
  refine ⟨fun context => ?_, ?_, fun id body => ?_⟩
  · have hexpand := Comparison.expand hgoverns hloads ns fuel {} trivial context form w hw
    have hplain : Tracked.expand .plain (Tracked.loaderAt .plain fuel) ns fuel {} = _ :=
      Tracked.expand_plain (Tracked.loaderAt_plain fuel) fuel {}
    exact congrFun (congrFun hplain context) form ▸ hexpand.toTransparent
  · exact Tracked.evalForm_plain fuel ns form ▸
      (Comparison.evalForm hgoverns fuel ns form w hw).toTransparent
  · exact Tracked.declareModule_plain fuel id body ▸
      (Comparison.declareModule hgoverns hloads fuel trivial id body w hw).toTransparent

instance {α : Type} (result : EStateM.Result Halt World α) : Decidable (Finished result) :=
  match result with
  | .ok _ _ => isTrue trivial
  | .error (.error _) _ => isTrue trivial
  | .error .outOfFuel _ => isFalse id

/-- `(lambda (x) x)` -/
def identityForm : Syntax := callOf [sessionId "lambda", callOf [sessionId "x"], sessionId "x"]

/-- The form `(lambda (x) x)` is expanded without an invocation, and yet fails with the limit 1.  With
the limit 2 it is expanded. -/
theorem identityForm_limit_transparent :
    holdWorld.limit = none ∧
      (∃ e w, Tracked.expand (.observed fun _ form => RunM.failAt form .emptyForm)
        (Tracked.loaderAt .plain 9) 0 9 {} .expression identityForm holdWorld = .ok e w) ∧
      (∃ e w, Expansion.expand (loaderAt 9) 0 9 0 .expression identityForm
          (holdWorld.withLimit (some 1)) = .error (.error e) w ∧
        e.fault = .badSyntax (.depthLimit 1)) ∧
      Expansion.expand (loaderAt 9) 0 9 0 .expression identityForm (holdWorld.withLimit (some 2)) =
        mapWorld (World.withLimit (some 2))
          (Expansion.expand (loaderAt 9) 0 9 0 .expression identityForm holdWorld) := by
  have hlimit : holdWorld.limit = none := rfl
  have hmacroFree : endsWith (fun _ _ => true)
      (Tracked.expand (.observed fun _ form => RunM.failAt form .emptyForm)
        (Tracked.loaderAt .plain 9) 0 9 {} .expression identityForm holdWorld) := by decide +kernel
  have hends : Finished (Expansion.expand (loaderAt 9) 0 9 0 .expression identityForm holdWorld) := by
    decide +kernel
  have hdeeper : ¬Finished (Tracked.expand (.metered 1) (Tracked.loaderAt (.metered 1) 9) 0 9 {}
      .expression identityForm holdWorld) := by decide +kernel
  have hwithin : Finished (Tracked.expand (.metered 2) (Tracked.loaderAt (.metered 2) 9) 0 9 {}
      .expression identityForm holdWorld) := by decide +kernel
  obtain ⟨e, w, hmacroFree, -⟩ := exists_of_endsWith hmacroFree
  exact ⟨hlimit, ⟨e, w, hmacroFree⟩,
    ((limit_transparent hlimit 1 9 0 identityForm).1 .expression).fails hdeeper hends,
    ((limit_transparent hlimit 2 9 0 identityForm).1 .expression).same hwithin⟩

end HygienicLisp
