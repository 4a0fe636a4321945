import HygienicLisp.Primitive.Call
import HygienicLisp.Proofs.Arithmetic.Doubles
import Mathlib

/-!
# Integer arithmetic

Integers are signed and have 64 bits.  The arithmetic of integers alone is nevertheless that of the
unbounded ones: a sum, a difference or a product is exact as long as no partial result leaves the
range, and a failure as soon as one does, even if the final result would fit again.  Divisions are
exact for as long as they come out even; then they are continued with doubles.  The smallest integer
has no negation, so dividing it by `-1` fails like a division by zero does.

Each loop of the arithmetic is proved by induction on the integers that are still to come, with the
integer that has been reached so far as the parameter.

Main statement: `integer_arithmetic_exact`.
-/

namespace HygienicLisp

/-! ## Arguments -/

/-- Whether a value is an integer or a double. -/
def Value.IsNumber (v : Value) : Prop := ∃ n, Number.ofValue? v = some n

/-- Integers as arguments. -/
def integers (xs : List Int64) : List Value := xs.map fun i => .atom (.int i)

/-- The integers that machine integers stand for. -/
def exactly (xs : List Int64) : List Int := xs.map Int64.toInt

@[simp] theorem exactly_cons (x : Int64) (xs : List Int64) :
    exactly (x :: xs) = x.toInt :: exactly xs := rfl

/-- The numbers are read from left to right, and the first value that is none is reported. -/
theorem numbersFrom_append {names : Names} {who : String} {before : List Value}
    (hbefore : ∀ u ∈ before, u.IsNumber) {v : Value} (hv : ¬v.IsNumber) (after : List Value)
    (position : Nat) :
    numbersFrom names who position (before ++ v :: after) =
      .error (typeError names who "number" (position + before.length) v) := by
  induction before generalizing position with
  | nil =>
      have hnone : Number.ofValue? v = none :=
        Option.eq_none_iff_forall_ne_some.mpr fun n hn => hv ⟨n, hn⟩
      rw [List.nil_append, numbersFrom, hnone]
      rfl
  | cons u before ih =>
      obtain ⟨⟨n, hn⟩, hrest⟩ := List.forall_mem_cons.mp hbefore
      rw [List.cons_append, numbersFrom, hn]
      dsimp only
      rw [ih hrest, List.length_cons, Nat.add_right_comm, Nat.add_assoc]
      rfl

theorem numbersFrom_integers (names : Names) (who : String) (xs : List Int64) (position : Nat) :
    numbersFrom names who position (integers xs) = .ok (xs.map .int) := by
  induction xs generalizing position with
  | nil => rfl
  | cons x xs ih =>
      change (numbersFrom names who (position + 1) (integers xs)).map (Number.int x :: ·) = _
      rw [ih]
      rfl

theorem numbers_integers (names : Names) (who : String) (xs : List Int64) :
    numbers names who (integers xs) = .ok (xs.map .int) :=
  numbersFrom_integers names who xs 0

/-! ## Sums, differences and products -/

section Folds

variable (who : String) {op : Int → Int → Int} (nearly : Float → Float → Float)

/-- As long as the partial results are in range, they are exact. -/
theorem foldNumbers_int {acc : Int64} {xs : List Int64}
    (h : ∀ n ∈ (exactly xs).scanl op acc.toInt, InInt64 n) :
    ∃ i : Int64, foldNumbers who op nearly (.int acc) (xs.map .int) = .ok (.int i) ∧
      i.toInt = (exactly xs).foldl op acc.toInt := by
  induction xs generalizing acc with
  | nil => exact ⟨acc, rfl, rfl⟩
  | cons x xs ih =>
      rw [exactly_cons, List.scanl_cons] at h
      obtain ⟨-, hrest⟩ := List.forall_mem_cons.mp h
      have hnext : InInt64 (op acc.toInt x.toInt) := hrest _ (by cases exactly xs <;> simp)
      obtain ⟨c, hc, hvalue⟩ := machineInt?_of_inInt64 hnext
      rw [← hvalue] at hrest
      obtain ⟨i, hfold, hi⟩ := ih hrest
      refine ⟨i, ?_, ?_⟩
      · rw [List.map_cons, foldNumbers, hc]
        exact hfold
      · rw [hi, hvalue]
        rfl

/-- The first partial result out of range ends the loop. -/
theorem foldNumbers_int_overflow {acc : Int64} {xs : List Int64}
    (h : ¬∀ n ∈ (exactly xs).scanl op acc.toInt, InInt64 n) :
    foldNumbers who op nearly (.int acc) (xs.map .int) =
      .error (.of (.contract (.integerOverflow who))) := by
  induction xs generalizing acc with
  | nil => exact absurd (by simpa [exactly] using inInt64_toInt acc) h
  | cons x xs ih =>
      rw [exactly_cons, List.scanl_cons, List.forall_mem_cons, not_and] at h
      have hrest := h (inInt64_toInt acc)
      rw [List.map_cons, foldNumbers]
      by_cases hnext : InInt64 (op acc.toInt x.toInt)
      · obtain ⟨c, hc, hvalue⟩ := machineInt?_of_inInt64 hnext
        rw [← hvalue] at hrest
        rw [hc]
        exact ih hrest
      · rw [machineInt?_eq_none hnext]

end Folds

/-! ## Quotients -/

/-- Whether dividing by one integer after the other comes out even and in range at each step. -/
structure DividesEvenly (x : Int) (ds : List Int) : Prop where
  nonzero : ∀ d ∈ ds, d ≠ 0
  dvd : ∀ k, (ds.take k).prod ∣ x
  inRange : ∀ k, InInt64 (x / (ds.take k).prod)

theorem DividesEvenly.prod_dvd {x : Int} {ds : List Int} (h : DividesEvenly x ds) : ds.prod ∣ x := by
  simpa using h.dvd ds.length

/-- Whether the smallest integer is reached just before a division by `-1`. -/
def NegatesLeast (x : Int) (ds : List Int) : Prop :=
  ∃ before after, ds = before ++ -1 :: after ∧ DividesEvenly x before ∧
    x / before.prod = -9223372036854775808

theorem ediv_mul_of_dvd {x d p : Int} (hd : d ≠ 0) (h : d * p ∣ x) : x / (d * p) = x / d / p := by
  obtain ⟨c, rfl⟩ := h
  rw [Int.mul_assoc, Int.mul_ediv_cancel_left _ hd]
  by_cases hp : p = 0
  · rw [hp, Int.mul_zero, Int.ediv_zero, Int.ediv_zero]
  · rw [← Int.mul_assoc, Int.mul_ediv_cancel_left _ (Int.mul_ne_zero hd hp),
      Int.mul_ediv_cancel_left _ hp]

theorem mul_dvd_iff {x d : Int} (hd : d ≠ 0) (h : d ∣ x) (p : Int) : d * p ∣ x ↔ p ∣ x / d := by
  obtain ⟨c, rfl⟩ := h
  rw [Int.mul_dvd_mul_iff_left hd, Int.mul_ediv_cancel_left c hd]

theorem dividesEvenly_nil {x : Int} (hx : InInt64 x) : DividesEvenly x [] := by
  refine ⟨by simp, fun k => ?_, fun k => ?_⟩
  · rw [List.take_nil, List.prod_nil]
    exact one_dvd x
  · rw [List.take_nil, List.prod_nil, Int.ediv_one]
    exact hx

theorem dividesEvenly_cons {x d : Int} {ds : List Int} (hx : InInt64 x) :
    DividesEvenly x (d :: ds) ↔
      d ≠ 0 ∧ d ∣ x ∧ InInt64 (x / d) ∧ DividesEvenly (x / d) ds := by
  constructor
  · intro h
    obtain ⟨hd, hds⟩ := List.forall_mem_cons.mp h.nonzero
    have hdvd : d ∣ x := by simpa using h.dvd 1
    refine ⟨hd, hdvd, by simpa using h.inRange 1, hds, fun k => ?_, fun k => ?_⟩
    · have hk := h.dvd (k + 1)
      rwa [List.take_succ_cons, List.prod_cons, mul_dvd_iff hd hdvd] at hk
    · have hk := h.inRange (k + 1)
      have hproduct := h.dvd (k + 1)
      rw [List.take_succ_cons, List.prod_cons] at hk hproduct
      rwa [ediv_mul_of_dvd hd hproduct] at hk
  · rintro ⟨hd, hdvd, -, h⟩
    refine ⟨List.forall_mem_cons.mpr ⟨hd, h.nonzero⟩, fun k => ?_, fun k => ?_⟩
    · cases k with
      | zero => exact one_dvd x
      | succ k =>
          rw [List.take_succ_cons, List.prod_cons, mul_dvd_iff hd hdvd]
          exact h.dvd k
    · cases k with
      | zero => simpa using hx
      | succ k =>
          rw [List.take_succ_cons, List.prod_cons,
            ediv_mul_of_dvd hd ((mul_dvd_iff hd hdvd _).mpr (h.dvd k))]
          exact h.inRange k

theorem negatesLeast_cons {x d : Int} {ds : List Int} (hx : InInt64 x) :
    NegatesLeast x (d :: ds) ↔
      (d = -1 ∧ x = -9223372036854775808) ∨
        (d ≠ 0 ∧ d ∣ x ∧ InInt64 (x / d) ∧ NegatesLeast (x / d) ds) := by
  constructor
  · rintro ⟨before, after, hds, heven, hleast⟩
    cases before with
    | nil =>
        obtain ⟨rfl, rfl⟩ := List.cons.inj hds
        exact .inl ⟨rfl, by simpa using hleast⟩
    | cons b before =>
        obtain ⟨rfl, rfl⟩ := List.cons.inj hds
        have hproduct := heven.prod_dvd
        obtain ⟨hd, hdvd, hrange, heven⟩ := (dividesEvenly_cons hx).mp heven
        rw [List.prod_cons] at hleast hproduct
        rw [ediv_mul_of_dvd hd hproduct] at hleast
        exact .inr ⟨hd, hdvd, hrange, before, after, rfl, heven, hleast⟩
  · rintro (⟨rfl, rfl⟩ | ⟨hd, hdvd, hrange, before, after, rfl, heven, hleast⟩)
    · exact ⟨[], ds, rfl, dividesEvenly_nil hx, by simp⟩
    · refine ⟨d :: before, after, rfl, (dividesEvenly_cons hx).mpr ⟨hd, hdvd, hrange, heven⟩, ?_⟩
      rwa [List.prod_cons, ediv_mul_of_dvd hd ((mul_dvd_iff hd hdvd _).mpr heven.prod_dvd)]

/-- Only one even division leaves the range. -/
theorem least_of_not_inInt64 {x d : Int} (hx : InInt64 x) (hdvd : d ∣ x)
    (h : ¬InInt64 (x / d)) : d = -1 ∧ x = -9223372036854775808 := by
  have habs := Int.natAbs_ediv_le_natAbs x d
  have hmul := Int.mul_ediv_cancel' hdvd
  unfold InInt64 at hx h
  have hquotient : x / d = 9223372036854775808 := by omega
  rw [hquotient] at hmul
  omega

section Division

variable {x d : Int64} {ds : List Int64}

theorem divideBy_zero (acc : Number) (hd : d.toInt = 0) (rest : List Number) :
    divideBy acc (.int d :: rest) = .error (.of (.contract .divisionByZero)) := by
  rw [divideBy.eq_def]
  dsimp only
  rw [Number.toFloat_int_beq_zero, if_pos (decide_eq_true hd)]

/-- A step that comes out even leads to the quotient, if that is in range. -/
theorem divideBy_even (hd : d.toInt ≠ 0) (hdvd : d.toInt ∣ x.toInt) (rest : List Number) :
    divideBy (.int x) (.int d :: rest) =
      match machineInt? (x.toInt / d.toInt) with
      | some q => divideBy (.int q) rest
      | none => .error (.of (.contract (.integerOverflow "/"))) := by
  have hquotient := Int.tdiv_eq_ediv_of_dvd hdvd
  rw [divideBy.eq_def]
  dsimp only
  rw [Number.toFloat_int_beq_zero, if_neg (by simpa using hd),
    if_pos (Int.tmod_eq_zero_of_dvd hdvd)]
  cases hmachine : machineInt? (x.toInt / d.toInt) with
  | none => simp only [hquotient, hmachine]
  | some q => simp only [hquotient, hmachine]

/-- A step that does not come out even is left to doubles. -/
theorem divideBy_uneven (hd : d.toInt ≠ 0) (hdvd : ¬d.toInt ∣ x.toInt) (rest : List Number) :
    ∃ y, divideBy (.int x) (.int d :: rest) = divideBy (.float y) rest := by
  refine ⟨(Number.int x).toFloat / (Number.int d).toFloat, ?_⟩
  rw [divideBy.eq_def]
  dsimp only
  rw [Number.toFloat_int_beq_zero, if_neg (by simpa using hd),
    if_neg fun h => hdvd (Int.dvd_of_tmod_eq_zero h)]

/-- Once doubles have been reached, only a zero ends the loop. -/
theorem divideBy_float (y : Float) (ds : List Int64) :
    (0 ∈ exactly ds ∧
      divideBy (.float y) (ds.map .int) = .error (.of (.contract .divisionByZero))) ∨
    (0 ∉ exactly ds ∧ ∃ z, divideBy (.float y) (ds.map .int) = .ok (.float z)) := by
  induction ds generalizing y with
  | nil => exact .inr ⟨by simp [exactly], y, rfl⟩
  | cons d ds ih =>
      rw [exactly_cons, List.mem_cons]
      by_cases hd : d.toInt = 0
      · exact .inl ⟨.inl hd.symm, divideBy_zero _ hd _⟩
      · have hstep : divideBy (.float y) ((d :: ds).map .int) =
            divideBy (.float (y / (Number.int d).toFloat)) (ds.map .int) := by
          rw [List.map_cons, divideBy.eq_def]
          dsimp only
          rw [Number.toFloat_int_beq_zero, if_neg (by simpa using hd)]
          rfl
        rw [hstep]
        obtain ⟨hmem, herror⟩ | ⟨hmem, hok⟩ := ih (y / (Number.int d).toFloat)
        · exact .inl ⟨.inr hmem, herror⟩
        · exact .inr ⟨by rintro (h | h); exacts [hd h.symm, hmem h], hok⟩

theorem divideBy_int (h : DividesEvenly x.toInt (exactly ds)) :
    ∃ q, divideBy (.int x) (ds.map .int) = .ok (.int q) ∧
      q.toInt * (exactly ds).prod = x.toInt := by
  induction ds generalizing x with
  | nil => exact ⟨x, rfl, by simp [exactly]⟩
  | cons d ds ih =>
      obtain ⟨hd, hdvd, hrange, heven⟩ := (dividesEvenly_cons (inInt64_toInt x)).mp h
      obtain ⟨c, hc, hvalue⟩ := machineInt?_of_inInt64 hrange
      rw [← hvalue] at heven
      obtain ⟨q, hq, hproduct⟩ := ih heven
      refine ⟨q, ?_, ?_⟩
      · rw [List.map_cons, divideBy_even hd hdvd, hc]
        exact hq
      · calc
          q.toInt * (exactly (d :: ds)).prod = d.toInt * (q.toInt * (exactly ds).prod) := by
            rw [exactly_cons, List.prod_cons, Int.mul_left_comm]
          _ = x.toInt := by rw [hproduct, hvalue, Int.mul_ediv_cancel' hdvd]

theorem divideBy_error (h : 0 ∈ exactly ds ∨ NegatesLeast x.toInt (exactly ds)) :
    ∃ fault, divideBy (.int x) (ds.map .int) = .error (.of (.contract fault)) := by
  induction ds generalizing x with
  | nil =>
      obtain h | ⟨before, after, hds, -⟩ := h
      · cases h
      · cases before <;> cases hds
  | cons d ds ih =>
      rw [exactly_cons, List.mem_cons, negatesLeast_cons (inInt64_toInt x)] at h
      by_cases hd : d.toInt = 0
      · exact ⟨_, divideBy_zero _ hd _⟩
      by_cases hdvd : d.toInt ∣ x.toInt
      · rw [List.map_cons, divideBy_even hd hdvd]
        by_cases hrange : InInt64 (x.toInt / d.toInt)
        · obtain ⟨c, hc, hvalue⟩ := machineInt?_of_inInt64 hrange
          rw [hc]
          refine ih ?_
          rw [hvalue]
          obtain (hzero | hmem) | ⟨hminus, hleast⟩ | ⟨-, -, -, hnegates⟩ := h
          · exact absurd hzero.symm hd
          · exact .inl hmem
          · rw [hminus, hleast] at hrange
            exact absurd hrange (by decide)
          · exact .inr hnegates
        · rw [machineInt?_eq_none hrange]
          exact ⟨_, rfl⟩
      -- The quotient becomes a double, and from then on only a zero can fail.
      · obtain ⟨y, hy⟩ := divideBy_uneven hd hdvd (ds.map .int)
        rw [List.map_cons, hy]
        obtain ⟨-, herror⟩ | ⟨hmem, -⟩ := divideBy_float y ds
        · exact ⟨_, herror⟩
        · obtain (hzero | hmem') | ⟨hminus, -⟩ | ⟨-, hdvd', -⟩ := h
          · exact absurd hzero.symm hd
          · exact absurd hmem' hmem
          · rw [hminus] at hdvd
            exact absurd (Int.neg_dvd.mpr (one_dvd x.toInt)) hdvd
          · exact absurd hdvd' hdvd

theorem divideBy_inexact (heven : ¬DividesEvenly x.toInt (exactly ds))
    (h : ¬(0 ∈ exactly ds ∨ NegatesLeast x.toInt (exactly ds))) :
    ∃ y, divideBy (.int x) (ds.map .int) = .ok (.float y) := by
  induction ds generalizing x with
  | nil => exact absurd (dividesEvenly_nil (inInt64_toInt x)) heven
  | cons d ds ih =>
      have hx := inInt64_toInt x
      rw [exactly_cons, List.mem_cons, negatesLeast_cons hx] at h
      rw [exactly_cons, dividesEvenly_cons hx] at heven
      push Not at h
      obtain ⟨⟨hd, hmem⟩, hleast, hnegates⟩ := h
      by_cases hdvd : d.toInt ∣ x.toInt
      · have hrange : InInt64 (x.toInt / d.toInt) := by
          by_contra hrange
          obtain ⟨hminus, hmin⟩ := least_of_not_inInt64 hx hdvd hrange
          exact hleast hminus hmin
        obtain ⟨c, hc, hvalue⟩ := machineInt?_of_inInt64 hrange
        rw [List.map_cons, divideBy_even hd.symm hdvd, hc]
        -- This division is even, so an uneven one is still to come.
        refine ih (fun h => heven ?_) ?_
        · rw [hvalue] at h
          exact ⟨hd.symm, hdvd, hrange, h⟩
        · rw [hvalue]
          rintro (h | h)
          · exact hmem h
          · exact hnegates hd.symm hdvd hrange h
      · obtain ⟨y, hy⟩ := divideBy_uneven hd.symm hdvd (ds.map .int)
        rw [List.map_cons, hy]
        obtain ⟨hzero, -⟩ | ⟨-, hok⟩ := divideBy_float y ds
        · exact absurd hzero hmem
        · exact hok

end Division

/-! ## Orderings -/

/-- The sign of an ordering compares with zero as the ordering does. -/
theorem orderingSign_compares (o : Ordering) :
    decide (orderingSign o < 0) = decide (o = .lt) ∧
      decide (0 < orderingSign o) = decide (o = .gt) ∧
      decide (orderingSign o ≤ 0) = decide (o ≠ .gt) ∧
      decide (0 ≤ orderingSign o) = decide (o ≠ .lt) := by
  cases o <;> decide +kernel

/-- A comparison that is right about the sign of an ordering is right about all integers. -/
theorem chained_integers {holds : Float → Float → Bool} {R : Int → Int → Prop} [DecidableRel R]
    (h : ∀ a b : Int, holds (orderingSign (compare a b)) 0 = decide (R a b)) (xs : List Int64) :
    chained (compareNumbers holds) (xs.map .int) = decide ((exactly xs).IsChain R) := by
  induction xs with
  | nil => exact (decide_eq_true .nil).symm
  | cons x xs ih =>
      cases xs with
      | nil => exact (decide_eq_true (.singleton _)).symm
      | cons y xs =>
          change (holds (orderingSign (compare x.toInt y.toInt)) 0 &&
            chained (compareNumbers holds) ((y :: xs).map .int)) = _
          rw [ih, h, ← Bool.decide_and]
          exact decide_eq_decide.mpr List.isChain_cons_cons.symm

/-! ## The primitives -/

namespace Primitive

/-- The primitives that take numbers only. -/
def numeric : List Primitive := [add, sub, mul, div, less, greater, lessEqual, greaterEqual]

/-- A primitive returns a value and changes nothing. -/
def Returns (p : Primitive) (args : List Value) (v : Value) : Prop := ∀ w, p.call args w = .ok v w

/-- A primitive refuses its arguments and changes nothing. -/
def Refuses (p : Primitive) (args : List Value) (fault : ContractFault) : Prop :=
  ∀ w, p.call args w = .error (.error (.of (.contract fault))) w

/-- A primitive returns the exact value if all partial results are in range, and otherwise
reports an overflow. -/
def ExactOrOverflow (p : Primitive) (xs : List Int64) (partials : List Int) (exact : Int) : Prop :=
  ((∀ n ∈ partials, InInt64 n) → ∃ i : Int64, i.toInt = exact ∧ p.Returns (integers xs) (.int i)) ∧
    ((∃ n ∈ partials, ¬InInt64 n) → p.Refuses (integers xs) (.integerOverflow p.name))

theorem call_of_not_isNumber {p : Primitive} (hp : p ∈ numeric) {before : List Value}
    (hbefore : ∀ u ∈ before, u.IsNumber) {v : Value} (hv : ¬v.IsNumber) (after : List Value)
    (w : World) :
    p.call (before ++ v :: after) w =
      .error (.error (typeError w.names p.name "number" before.length v)) w := by
  have hnumbers (who : String) : numbers w.names who (before ++ v :: after) =
      .error (typeError w.names who "number" before.length v) := by
    rw [numbers, numbersFrom_append hbefore hv, Nat.zero_add]
  have hcall {x : Except Error Value} {e : Error} (hx : x = .error e) :
      RunM.ofExcept x w = .error (.error e) w := by rw [hx]; rfl
  -- Whatever a primitive does with its numbers, it asks for them first.
  have hbind {β : Type} (who : String) (f : List Number → Except Error β) :
      (do f (← numbers w.names who (before ++ v :: after))) =
        .error (typeError w.names who "number" before.length v) := by rw [hnumbers]; rfl
  simp only [numeric, List.mem_cons, List.not_mem_nil, or_false] at hp
  rcases hp with rfl | rfl | rfl | rfl | rfl | rfl | rfl | rfl <;> exact hcall (hbind _ _)

section

variable {p : Primitive} {f : Names → List Value → Except Error Value}
  (hcall : ∀ args w, p.call args w = RunM.ofExcept (f w.names args) w)
  {args : List Value} {v : Value} {fault : ContractFault}

include hcall

/-- A primitive that passes a result on returns it. -/
theorem returns_of_ok (h : ∀ names, f names args = .ok v) : p.Returns args v := by
  intro w
  rw [hcall, h]
  rfl

theorem refuses_of_error (h : ∀ names, f names args = .error (.of (.contract fault))) :
    p.Refuses args fault := by
  intro w
  rw [hcall, h]
  rfl

/-- A primitive that combines its integers from left to right is exact or reports an overflow. -/
theorem exactOrOverflow_of_fold {xs ys : List Int64} {op : Int → Int → Int}
    (nearly : Float → Float → Float) (acc : Int64)
    (hf : ∀ names, f names (integers xs) =
      (foldNumbers p.name op nearly (.int acc) (ys.map .int)).map Number.toValue) :
    p.ExactOrOverflow xs ((exactly ys).scanl op acc.toInt) ((exactly ys).foldl op acc.toInt) := by
  constructor
  · intro hrange
    obtain ⟨i, hfold, hi⟩ := foldNumbers_int p.name nearly hrange
    refine ⟨i, hi, returns_of_ok hcall fun names => ?_⟩
    rw [hf, hfold]
    rfl
  · rintro ⟨n, hn, hrange⟩
    refine refuses_of_error hcall fun names => ?_
    rw [hf, foldNumbers_int_overflow p.name nearly fun h => hrange (h n hn)]
    rfl

/-- A primitive that compares neighbours orders integers as the unbounded ones are ordered. -/
theorem returns_of_compare {holds : Float → Float → Bool} {R : Int → Int → Prop} [DecidableRel R]
    (hf : ∀ names args, f names args = Arithmetic.compare names p.name holds args)
    (h : ∀ a b : Int, holds (orderingSign (compare a b)) 0 = decide (R a b)) (xs : List Int64) :
    p.Returns (integers xs) (.bool (decide ((exactly xs).IsChain R))) := by
  refine returns_of_ok hcall fun names => ?_
  rw [hf, Arithmetic.compare, numbers_integers, ← chained_integers h]
  rfl

end

theorem exactOrOverflow_add (xs : List Int64) :
    add.ExactOrOverflow xs ((exactly xs).scanl (· + ·) 0) (exactly xs).sum := by
  rw [List.sum_eq_foldl]
  refine exactOrOverflow_of_fold (fun _ _ => rfl) (· + ·) 0 fun names => ?_
  rw [Arithmetic.add, numbers_integers]
  rfl

theorem exactOrOverflow_mul (xs : List Int64) :
    mul.ExactOrOverflow xs ((exactly xs).scanl (· * ·) 1) (exactly xs).prod := by
  rw [List.prod_eq_foldl]
  refine exactOrOverflow_of_fold (fun _ _ => rfl) (· * ·) 1 fun names => ?_
  rw [Arithmetic.mul, numbers_integers]
  rfl

theorem exactOrOverflow_negate (x : Int64) :
    sub.ExactOrOverflow [x] ((exactly [x]).scanl (· - ·) 0) (-x.toInt) := by
  rw [← Int.zero_sub]
  refine exactOrOverflow_of_fold (fun _ _ => rfl) (· - ·) 0 fun names => ?_
  rw [Arithmetic.sub, numbers_integers]
  rfl

theorem foldl_sub (x : Int) (ys : List Int) : ys.foldl (· - ·) x = x - ys.sum := by
  induction ys generalizing x with
  | nil => exact (Int.sub_zero x).symm
  | cons y ys ih => rw [List.foldl_cons, ih, List.sum_cons, Int.sub_sub]

theorem exactOrOverflow_sub (x y : Int64) (ys : List Int64) :
    sub.ExactOrOverflow (x :: y :: ys) ((exactly (y :: ys)).scanl (· - ·) x.toInt)
      (x.toInt - (exactly (y :: ys)).sum) := by
  rw [← foldl_sub]
  refine exactOrOverflow_of_fold (fun _ _ => rfl) (· - ·) x fun names => ?_
  rw [Arithmetic.sub, numbers_integers]
  rfl

theorem Returns.unique {p : Primitive} {args : List Value} {u v : Value} (hu : p.Returns args u)
    (hv : p.Returns args v) : u = v := by
  have hcall := (hu default).symm.trans (hv default)
  cases hcall
  rfl

theorem Returns.not_refuses {p : Primitive} {args : List Value} {v : Value}
    (h : p.Returns args v) (fault : ContractFault) : ¬p.Refuses args fault := fun hrefuses =>
  nomatch (h default).symm.trans (hrefuses default)

section

variable (x : Int64) (ds : List Int64)

theorem div_integers (names : Names) : Arithmetic.div names (integers (x :: ds)) =
    (divideBy (.int x) (ds.map .int)).map Number.toValue := by
  rw [Arithmetic.div, numbers_integers]
  rfl

theorem div_even (h : DividesEvenly x.toInt (exactly ds)) :
    ∃ q : Int64, q.toInt * (exactly ds).prod = x.toInt ∧
      div.Returns (integers (x :: ds)) (.int q) := by
  obtain ⟨q, hq, hproduct⟩ := divideBy_int h
  refine ⟨q, hproduct, returns_of_ok (fun _ _ => rfl) fun names => ?_⟩
  rw [div_integers, hq]
  rfl

theorem div_refuses (h : 0 ∈ exactly ds ∨ NegatesLeast x.toInt (exactly ds)) :
    ∃ fault, div.Refuses (integers (x :: ds)) fault := by
  obtain ⟨fault, herror⟩ := divideBy_error h
  refine ⟨fault, refuses_of_error (fun _ _ => rfl) fun names => ?_⟩
  rw [div_integers, herror]
  rfl

theorem div_inexact (heven : ¬DividesEvenly x.toInt (exactly ds))
    (h : ¬(0 ∈ exactly ds ∨ NegatesLeast x.toInt (exactly ds))) :
    ∃ y : Float, div.Returns (integers (x :: ds)) (.atom (.float y)) := by
  obtain ⟨y, hy⟩ := divideBy_inexact heven h
  refine ⟨y, returns_of_ok (fun _ _ => rfl) fun names => ?_⟩
  rw [div_integers, hy]
  rfl

/-- A division returns an integer exactly if it comes out even. -/
theorem div_returns_int_iff :
    (∃ q : Int64, div.Returns (integers (x :: ds)) (.int q)) ↔
      DividesEvenly x.toInt (exactly ds) := by
  constructor
  · rintro ⟨q, hq⟩
    by_contra heven
    by_cases hfails : 0 ∈ exactly ds ∨ NegatesLeast x.toInt (exactly ds)
    · obtain ⟨fault, hfault⟩ := div_refuses x ds hfails
      exact hq.not_refuses fault hfault
    · obtain ⟨y, hy⟩ := div_inexact x ds heven hfails
      cases hq.unique hy
  · intro heven
    obtain ⟨q, -, hq⟩ := div_even x ds heven
    exact ⟨q, hq⟩

/-- A division is refused exactly if a zero or the negation of the smallest integer is reached. -/
theorem div_refuses_iff :
    (∃ fault, div.Refuses (integers (x :: ds)) fault) ↔
      0 ∈ exactly ds ∨ NegatesLeast x.toInt (exactly ds) := by
  constructor
  · rintro ⟨fault, hfault⟩
    by_contra hfails
    by_cases heven : DividesEvenly x.toInt (exactly ds)
    · obtain ⟨q, -, hq⟩ := div_even x ds heven
      exact hq.not_refuses fault hfault
    · obtain ⟨y, hy⟩ := div_inexact x ds heven hfails
      exact hy.not_refuses fault hfault
  · exact div_refuses x ds

theorem div_total :
    (∃ q : Int64, div.Returns (integers (x :: ds)) (.int q)) ∨
    (∃ y : Float, div.Returns (integers (x :: ds)) (.atom (.float y))) ∨
    (∃ fault, div.Refuses (integers (x :: ds)) fault) := by
  by_cases heven : DividesEvenly x.toInt (exactly ds)
  · exact .inl ((div_returns_int_iff x ds).mpr heven)
  by_cases hfails : 0 ∈ exactly ds ∨ NegatesLeast x.toInt (exactly ds)
  · exact .inr (.inr (div_refuses x ds hfails))
  · exact .inr (.inl (div_inexact x ds heven hfails))

end

/-- The arithmetic of integers is exact or fails.  The first argument that is no number is
reported; sums, differences and products are exact if every partial result is in range, and
refused otherwise; a division returns an integer exactly if it comes out even, and is refused
exactly if a zero or the negation of the smallest integer is reached; and integers are ordered
as the unbounded ones are. -/
theorem integer_arithmetic_exact :
    (∀ p ∈ numeric, ∀ (before : List Value) (v : Value) (after : List Value) (w : World),
      (∀ u ∈ before, u.IsNumber) → ¬v.IsNumber →
        p.call (before ++ v :: after) w =
          .error (.error (typeError w.names p.name "number" before.length v)) w) ∧
    (∀ xs, add.ExactOrOverflow xs ((exactly xs).scanl (· + ·) 0) (exactly xs).sum) ∧
    (∀ x, sub.ExactOrOverflow [x] ((exactly [x]).scanl (· - ·) 0) (-x.toInt)) ∧
    (∀ x y ys, sub.ExactOrOverflow (x :: y :: ys) ((exactly (y :: ys)).scanl (· - ·) x.toInt)
      (x.toInt - (exactly (y :: ys)).sum)) ∧
    (∀ xs, mul.ExactOrOverflow xs ((exactly xs).scanl (· * ·) 1) (exactly xs).prod) ∧
    (∀ x ds,
      ((∃ q : Int64, div.Returns (integers (x :: ds)) (.int q)) ↔
        DividesEvenly x.toInt (exactly ds)) ∧
      (∀ q : Int64, div.Returns (integers (x :: ds)) (.int q) →
        q.toInt * (exactly ds).prod = x.toInt) ∧
      ((∃ fault, div.Refuses (integers (x :: ds)) fault) ↔
        0 ∈ exactly ds ∨ NegatesLeast x.toInt (exactly ds)) ∧
      ((∃ q : Int64, div.Returns (integers (x :: ds)) (.int q)) ∨
        (∃ y : Float, div.Returns (integers (x :: ds)) (.atom (.float y))) ∨
        (∃ fault, div.Refuses (integers (x :: ds)) fault))) ∧
    (∀ xs,
      less.Returns (integers xs) (.bool (decide ((exactly xs).IsChain (· < ·)))) ∧
      greater.Returns (integers xs) (.bool (decide ((exactly xs).IsChain (· > ·)))) ∧
      lessEqual.Returns (integers xs) (.bool (decide ((exactly xs).IsChain (· ≤ ·)))) ∧
      greaterEqual.Returns (integers xs) (.bool (decide ((exactly xs).IsChain (· ≥ ·))))) := by
  refine ⟨fun p hp before v after w hbefore hv => call_of_not_isNumber hp hbefore hv after w,
    exactOrOverflow_add, exactOrOverflow_negate, exactOrOverflow_sub, exactOrOverflow_mul,
    fun x ds => ⟨div_returns_int_iff x ds, fun q hq => ?_, div_refuses_iff x ds, div_total x ds⟩,
    fun xs => ⟨?_, ?_, ?_, ?_⟩⟩
  · obtain ⟨r, hproduct, hr⟩ := div_even x ds ((div_returns_int_iff x ds).mp ⟨q, hq⟩)
    cases hq.unique hr
    exact hproduct
  · refine returns_of_compare (fun _ _ => rfl) (fun _ _ => rfl) (fun a b => ?_) xs
    rw [(orderingSign_compares _).1]
    exact decide_eq_decide.mpr Int.compare_eq_lt
  · refine returns_of_compare (fun _ _ => rfl) (fun _ _ => rfl) (fun a b => ?_) xs
    rw [(orderingSign_compares _).2.1]
    exact decide_eq_decide.mpr Int.compare_eq_gt
  · refine returns_of_compare (fun _ _ => rfl) (fun _ _ => rfl) (fun a b => ?_) xs
    rw [(orderingSign_compares _).2.2.1]
    exact decide_eq_decide.mpr Int.compare_ne_gt
  · refine returns_of_compare (fun _ _ => rfl) (fun _ _ => rfl) (fun a b => ?_) xs
    rw [(orderingSign_compares _).2.2.2]
    exact decide_eq_decide.mpr Int.compare_ne_lt

/-- The smallest integer is not negated, whether by a difference or by a division, neighbours
beyond `2 ^ 53` are told apart, and a text is found behind a number. -/
theorem integer_arithmetic_exact_extremes :
    sub.Refuses (integers [Int64.minValue]) (.integerOverflow "-") ∧
    (∃ fault, div.Refuses (integers [Int64.minValue, -1]) fault) ∧
    less.Returns (integers [9007199254740992, 9007199254740993]) (.bool true) ∧
    (∀ w, add.call [.int 1, .atom (.str "x")] w =
      .error (.error (typeError w.names "+" "number" 1 (.atom (.str "x")))) w) := by
  obtain ⟨hfirst, -, hnegate, -, -, hdiv, hless⟩ := integer_arithmetic_exact
  refine ⟨(hnegate Int64.minValue).2 ⟨9223372036854775808, by decide, by decide⟩,
    (hdiv Int64.minValue [-1]).2.2.1.mpr (.inr ⟨[], [], rfl, dividesEvenly_nil (by decide), rfl⟩),
    (hless _).1, fun w => ?_⟩
  refine hfirst add (by decide) [.int 1] (.atom (.str "x")) [] w ?_ ?_
  · exact List.forall_mem_singleton.mpr ⟨.int 1, rfl⟩
  · rintro ⟨n, hn⟩
    cases hn

end Primitive

end HygienicLisp
