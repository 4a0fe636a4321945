import HygienicLisp.Proofs.FullExpansion.FixedPoint
import HygienicLisp.Proofs.Nesting.Termination

/-!
# How deep invocations nest

The limit bounds the depth, and the depth of a form counts the invocations that made it but for those
from before the depth began anew.  So between two new beginnings there are no more invocations than
the limit allows, one in what the other has made (`nested_lt_of_limit`): with a limit `L` a form that
was given back `n` times can stand in up to `(n + 1) * L` of them.

Each form that is spliced into the queue begins anew.  A transformer whose result is a `begin` with
another call of it is never stopped by the limit.
-/

namespace HygienicLisp

/-- The rules of the program, where something is done before each invocation. -/
def Rules.observed (observe : Place → Syntax → RunM Unit) : Rules where
  descend descent place form := do
    Rules.plain.descend descent place form
    match descent with
    | .expansion => return
    | .invocation => observe place form
  call := invoke

/-- The places that can be reached with a limit. -/
structure Place.Within (limit : Nat) (place : Place) : Prop where
  depth_le : place.depth ≤ limit
  nested_le : place.nested ≤ place.returns * limit + place.depth

namespace Place.Within

variable {limit : Nat} {place : Place}

theorem start (limit : Nat) : Place.Within limit {} := ⟨Nat.zero_le _, Nat.zero_le _⟩

theorem deeper (h : place.Within limit) (hbelow : place.depth < limit) (descent : Descent) :
    (place.deeper descent).Within limit := by
  obtain ⟨hdepth, hnested⟩ := h
  cases descent <;> exact ⟨hbelow, by simp only [Place.deeper]; omega⟩

theorem release (h : place.Within limit) : place.release.Within limit := by
  obtain ⟨hdepth, hnested⟩ := h
  refine ⟨Nat.zero_le _, ?_⟩
  by_cases hanew : place.depth = 0 ∨ place.nested = 0
  · have hsame : place.nested ≤ place.returns * limit := by
      rcases hanew with h | h <;> omega
    simpa [Place.release, hanew] using hsame
  · calc place.nested ≤ place.returns * limit + limit := by omega
      _ = (place.returns + 1) * limit := by rw [Nat.succ_mul]
      _ = place.release.returns * limit + 0 := by simp [Place.release, hanew]

/-- Below the limit an invocation is nested in fewer others than the new beginnings allow. -/
theorem nested_lt (h : place.Within limit) (hbelow : place.depth < limit) :
    place.nested < (place.returns + 1) * limit := by
  rw [Nat.succ_mul]
  have := h.nested_le
  omega

end Place.Within

/-! ## Runs that are the same -/

/-- With the limit the two runs are the same; they keep the limit. -/
def Same (limit : Nat) {α : Type} (S : α → Prop) (x : Bool → RunM α) : Prop :=
  ∀ w, w.limit = some limit → x true w = x false w ∧
    ∀ a w', x false w = .ok a w' → S a ∧ w'.limit = some limit

section

variable {limit : Nat} {α β : Type} {S : α → Prop} {S' : β → Prop}

theorem same_indifferent {x : RunM α} (hx : Indifferent x) : Same limit (fun _ => True) fun _ => x :=
  fun _ hw => ⟨rfl, fun _ _ hrun => ⟨trivial, (hx.limit_of_ok hrun).trans hw⟩⟩

theorem same_bind {x : Bool → RunM α} {f : Bool → α → RunM β} (hx : Same limit S x)
    (hf : ∀ a, S a → Same limit S' fun i => f i a) : Same limit S' fun i => x i >>= f i := by
  intro w hw
  obtain ⟨hsame, hok⟩ := hx w hw
  refine ⟨?_, fun b w₂ hrun => ?_⟩
  · change (x true >>= f true) w = (x false >>= f false) w
    rw [RunM.bind_apply, RunM.bind_apply, hsame]
    cases hrun : x false w with
    | ok a w' =>
        obtain ⟨ha, hw'⟩ := hok a w' hrun
        exact (hf a ha w' hw').1
    | error halt w' => rfl
  · obtain ⟨a, w', hrun, hrest⟩ := RunM.bind_eq_ok.1 hrun
    obtain ⟨ha, hw'⟩ := hok a w' hrun
    exact (hf a ha w' hw').2 b w₂ hrest

theorem same_mapError {x : Bool → RunM α} (hx : Same limit S x) (f : Error → Error) :
    Same limit S fun i => RunM.mapError f (x i) := by
  intro w hw
  obtain ⟨hsame, hok⟩ := hx w hw
  refine ⟨?_, fun a w' hrun => hok a w' (RunM.mapError_eq_ok.1 hrun)⟩
  change RunM.mapError f (x true) w = RunM.mapError f (x false) w
  rw [RunM.mapError, RunM.mapError, hsame]

theorem same_andThen {x : Bool → RunM α} {leave : World → World} (hx : Same limit S x)
    (hleave : ∀ w limit, leave (w.withLimit limit) = (leave w).withLimit limit) :
    Same limit S fun i => (x i).andThen leave := by
  intro w hw
  obtain ⟨hsame, hok⟩ := hx w hw
  change (x true).andThen leave w = (x false).andThen leave w ∧ ∀ a w',
    (x false).andThen leave w = .ok a w' → _
  rw [RunM.andThen, RunM.andThen, hsame]
  cases hrun : x false w with
  | ok a w' =>
      obtain ⟨ha, hw'⟩ := hok a w' hrun
      refine ⟨rfl, ?_⟩
      rintro _ _ ⟨⟩
      exact ⟨ha, (World.limit_leave hleave w').trans hw'⟩
  | error halt w' => exact ⟨rfl, fun _ _ h => by cases h⟩

end

/-- Pairs of runs that are the same with the limit. -/
def Comparison.same (limit : Nat) : Comparison Bool where
  Holds := Same limit
  pure {_ _ a} ha w hw := ⟨rfl, fun _ _ hrun => by
    cases hrun
    exact ⟨ha, hw⟩⟩
  basic hx := same_indifferent hx.indifferent
  bind := same_bind
  get_bind _ hf w hw := hf w w hw
  mapError _ hx := same_mapError hx _
  andThen hleave hx := same_andThen hx hleave

/-! ## Going deeper -/

section

variable {limit : Nat} {w : World} {place : Place} {descent : Descent} {form : Syntax}

theorem plain_descend_of_lt (hw : w.limit = some limit) (h : place.depth < limit) :
    Rules.plain.descend descent place form w = .ok () w := by
  have hdescend := descend_apply hw place.depth form
  rw [if_neg (by omega)] at hdescend
  simp only [Rules.plain, RunM.bind_apply, hdescend, RunM.pure_apply]

theorem plain_descend_of_le (hw : w.limit = some limit) (h : limit ≤ place.depth) :
    Rules.plain.descend descent place form w =
      .error (.error (.atForm (.badSyntax (.depthLimit limit)) form)) w := by
  have hdescend := descend_apply hw place.depth form
  rw [if_pos (by omega)] at hdescend
  simp only [Rules.plain, RunM.bind_apply, hdescend]

theorem down_of_lt (hw : w.limit = some limit) (h : place.depth < limit) :
    Tracked.down .plain descent place form w = .ok (place.deeper descent) w := by
  simp only [Tracked.down, RunM.bind_apply, plain_descend_of_lt hw h, RunM.pure_apply]

end

/-- Observing what is nested in as few invocations as the new beginnings allow. -/
theorem governs_observed {limit : Nat} {observe : Place → Syntax → RunM Unit}
    (hobserve : ∀ place form, place.nested < (place.returns + 1) * limit →
      observe place form = pure ()) :
    (Comparison.same limit).Governs (fun i => cond i (.observed observe) .plain)
      (Place.Within limit) where
  start := .start limit
  release _ h := h.release
  down descent place form h := by
    intro w hw
    by_cases hbelow : place.depth < limit
    · -- There is a depth left, and so the observation does nothing.
      have hobserved := hobserve place form (h.nested_lt hbelow)
      have hsame : Tracked.down (.observed observe) descent place form =
          Tracked.down .plain descent place form := by
        cases descent <;> simp [Tracked.down, Rules.observed, hobserved]
      refine ⟨congrFun hsame w, fun next w' hrun => ?_⟩
      cases (down_of_lt hw hbelow).symm.trans hrun
      exact ⟨h.deeper hbelow descent, hw⟩
    · -- The comparison with the limit comes first, and fails.
      have hfails : Rules.plain.descend descent place form w = _ :=
        plain_descend_of_le hw (Nat.le_of_not_lt hbelow)
      refine ⟨?_, fun next w' hrun => ?_⟩
      · change Tracked.down (.observed observe) descent place form w =
          Tracked.down .plain descent place form w
        simp only [Tracked.down, Rules.observed, RunM.bind_apply, hfails]
      · change Tracked.down .plain descent place form w = _ at hrun
        simp [Tracked.down, RunM.bind_apply, hfails] at hrun
  call fuel id procedureId p form := same_indifferent (.invoke fuel id procedureId p form)
  indifferent hx := same_indifferent hx

/-! ## The bound -/

/-- Expansion fails before an invocation at the limit. -/
theorem expansion_fails_at_limit {limit : Nat} {w : World} (hw : w.limit = some limit)
    {depth : Nat} (hdepth : limit ≤ depth) {form head : Syntax} {rest : List Syntax}
    (hform : form.subforms = head :: rest) {id procedureId : ObjectId} {p : Procedure}
    (hhead : headValue? w.spaces head = some (.transformer id procedureId p)) (fuel : Nat) :
    partialExpand (fuel + 1) depth form w =
        .error (.error (.atForm (.badSyntax (.depthLimit limit)) form)) w ∧
      ∀ ns expand loader context,
        Expansion.expandSexp ns expand loader (fuel + 1) depth context form w =
          .error (.error (.atForm (.badSyntax (.depthLimit limit)) form)) w := by
  have hfails := descend_apply hw depth form
  rw [if_pos (by omega)] at hfails
  refine ⟨?_, fun ns expand loader context => ?_⟩
  · rw [partialExpand, hform]
    simp only [RunM.bind_apply, RunM.getSpaces_apply, hhead, hfails]
  · rw [Expansion.expandSexp, hform]
    simp only [RunM.bind_apply, RunM.getSpaces_apply, hhead, hfails]

/-- With a limit `L` an invocation is nested in fewer than `(n + 1) * L` others, one in what the other
has made, where the depth began anew `n` times for what they made: whatever is done before each
invocation beyond that is never done.  Before an invocation at depth `L` expansion fails.  And the
expansion of a form, or of its head, comes to an end if each call of a transformer does. -/
theorem nested_lt_of_limit {limit : Nat} {w : World} (hw : w.limit = some limit) :
    (∀ observe : Place → Syntax → RunM Unit,
      (∀ place form, place.nested < (place.returns + 1) * limit →
        observe place form = pure ()) →
      ∀ fuel ns form id body,
        Tracked.evalForm (.observed observe) fuel ns form w = evalForm fuel ns form w ∧
        Tracked.declareModule (.observed observe) (Tracked.loaderAt (.observed observe) fuel) fuel
            {} id body w =
          declareModule (loaderAt fuel) fuel id body w) ∧
    (∀ depth form head rest id procedureId p, limit ≤ depth → form.subforms = head :: rest →
      headValue? w.spaces head = some (.transformer id procedureId p) →
      ∀ fuel, partialExpand (fuel + 1) depth form w =
          .error (.error (.atForm (.badSyntax (.depthLimit limit)) form)) w ∧
        ∀ ns expand loader context,
          Expansion.expandSexp ns expand loader (fuel + 1) depth context form w =
            .error (.error (.atForm (.badSyntax (.depthLimit limit)) form)) w) ∧
    ∀ steps overrun (loader : PlacedLoader), (∀ id, Basic (loader.instantiate id)) →
      (∀ place id body, Basic (loader.declare place id body)) →
      ∀ ns place context form,
        (∃ fuel, Finished
          (Tracked.expand (.budgeted steps overrun) loader ns fuel place context form w)) ∧
        ∃ fuel, Finished (Tracked.partialExpand (.budgeted steps overrun) fuel place form w) := by
  refine ⟨fun observe hobserve fuel ns form id body => ?_, ?_, ?_⟩
  · have hgoverns := governs_observed hobserve
    have heval := (Comparison.evalForm hgoverns fuel ns form w hw).1
    have hdeclare := (Comparison.declareModule hgoverns (Comparison.loaderAt hgoverns fuel) fuel
      (.start limit) id body w hw).1
    refine ⟨heval.trans ?_, hdeclare.trans ?_⟩
    · exact congrFun (Tracked.evalForm_plain fuel ns form) w
    · exact congrFun (Tracked.declareModule_plain fuel id body) w
  · intro depth form head rest id procedureId p hdepth hform hhead fuel
    exact expansion_fails_at_limit hw hdepth hform hhead fuel
  · intro steps overrun loader hinstantiate hdeclare ns place context form
    exact ⟨(terminates_expand steps overrun hinstantiate hdeclare 0 place context form).finishes hw,
      (terminates_partialExpand steps overrun 0 place form).finishes hw⟩

/-- Fails before an invocation that is nested in more than `limit` others. -/
def stopBeyond (limit : Nat) (place : Place) (form : Syntax) : RunM Unit :=
  if limit < place.nested then RunM.failAt form (.depthLimit limit) else return

/-- A session with the limit 1, where `first` gives `(begin (second))`, `second` gives
`(begin (third))` and `third` gives 7. -/
def relayWorld : World where
  spaces := #[
    { home := ⟨"/top"⟩
      kind := .topLevel
      entries := definedCells 0 ⟨"/top"⟩ ["begin", "first", "second", "third"]
      definitionCount := 4
      values := #[some (.form .begin),
        some (transformerOf (.constant (.stx
          (callOf [sessionId "begin", callOf [sessionId "second"]])))),
        some (transformerOf (.constant (.stx
          (callOf [sessionId "begin", callOf [sessionId "third"]])))),
        some (transformerOf (.constant (.stx (.atom {} (.int 7)))))] }]
  runtime := { config := { maxExpansionDepth := some 1 } }

/-- `(first)` -/
def relaying : Syntax := callOf [.atom {} (.symbol "first")]

/-- With the limit 1 the form `(first)` leads to an invocation nested in two others.  Stopping before
it the evaluation fails, as it would if the limit were one of nesting. -/
theorem relay_nested_lt :
    relayWorld.limit = some 1 ∧ (∃ v w, evalForm 9 0 relaying relayWorld = .ok v w) ∧
      (¬∃ v w, Tracked.evalForm (.observed (stopBeyond 1)) 9 0 relaying relayWorld = .ok v w) ∧
      Tracked.evalForm (.observed fun place => stopBeyond place.returns place) 9 0 relaying
          relayWorld = evalForm 9 0 relaying relayWorld := by
  have hlimit : relayWorld.limit = some 1 := rfl
  have hruns : endsWith (fun _ _ => true) (evalForm 9 0 relaying relayWorld) := by decide +kernel
  have hstops : ¬endsWith (fun _ _ => true)
      (Tracked.evalForm (.observed (stopBeyond 1)) 9 0 relaying relayWorld) := by decide +kernel
  obtain ⟨v, w, hruns, -⟩ := exists_of_endsWith hruns
  refine ⟨hlimit, ⟨v, w, hruns⟩, ?_, ?_⟩
  · rintro ⟨v, w, hrun⟩
    rw [hrun] at hstops
    exact hstops rfl
  · refine ((nested_lt_of_limit hlimit).1 _ (fun place form h => ?_) 9 0 relaying ⟨"/m"⟩ []).1
    exact if_neg (by omega)

end HygienicLisp
