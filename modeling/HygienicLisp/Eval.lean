import HygienicLisp.Primitive.Call

/-!
# Evaluation

Code is evaluated in an environment: a namespace and a chain of frames.  One step either
gives a value or says which code, in which environment, has the value: the branches of a
conditional, the last form of a sequence, the bodies of `let`, `letrec` and of a closure are
handed back to the loop in `eval` and are not evaluated by a nested call.

`eval` takes the number of steps it may make.
-/

namespace HygienicLisp

/-! ## Frames -/

/-- The environment with a new frame of the given slots in front. -/
def pushFrame (env : Env) (slots : Array (Option Value)) : RunM Env := modifyGet fun w =>
  ({ env with frame := some w.frames.size }, { w with frames := w.frames.push ⟨slots, env.frame⟩ })

/-- The frame a number of steps up a chain. -/
def frameUp (frames : Array Frame) : Nat → Option Nat → Option Nat
  | 0, frame => frame
  | _ + 1, none => none
  | depth + 1, some frame => frameUp frames depth ((frames[frame]?).bind (·.parent))

/-- The frame at a depth of an environment. -/
def frameAt (env : Env) (depth : Nat) : RunM Nat := do
  match frameUp (← get).frames depth env.frame with
  | some frame => return frame
  | none => RunM.fail (.of (.internal (.noFrame depth)))

/-- The value of a local variable. -/
def getLocal (env : Env) (depth slot : Nat) (name : String) : RunM Value := do
  let frame ← frameAt env depth
  match ((← get).frames[frame]?).bind fun f => f.slots[slot]? with
  | some (some v) => return v
  | some none => RunM.fail (.of (.eval (.beforeInitialization name)))
  | none => RunM.fail (.of (.internal (.noSlot slot name)))

/-- Sets a slot of a frame. -/
def setSlot (frame slot : Nat) (v : Value) : RunM Unit := do
  let exists? := match (← get).frames[frame]? with
    | some f => decide (slot < f.slots.size)
    | none => false
  if exists? then
    let write (f : Frame) : Frame := { f with slots := f.slots.setIfInBounds slot (some v) }
    modify fun w => { w with frames := w.frames.modify frame write }
  else RunM.fail (.of (.internal (.noSlotToSet slot)))

/-- The slots of the frame of a closure's body.  Arguments beyond the required ones go into
a list, if the closure takes them. -/
def argumentSlots (required : Nat) (rest : Bool) (args : List Value) : List (Option Value) :=
  if rest then (args.take required).map some ++ [some (.list (args.drop required))]
  else args.map some

/-! What holds of all values that are stored holds of all that the frames then have.  `P` is any
property of values. -/

section

variable {P : Value → Prop}

theorem forall_slots_map {vs : List Value} (h : ∀ v ∈ vs, P v) (slot : Nat) (v : Value)
    (hv : (vs.map some).toArray[slot]? = some (some v)) : P v := by
  rw [List.getElem?_toArray, List.getElem?_map] at hv
  obtain ⟨v', hv', hsame⟩ := Option.map_eq_some_iff.1 hv
  obtain rfl := Option.some.inj hsame
  exact h v' (List.mem_of_getElem? hv')

/-- Slots that have not been initialised hold no value. -/
theorem forall_slots_replicate (size slot : Nat) (v : Value)
    (hv : (Array.replicate size (none : Option Value))[slot]? = some (some v)) : P v := by
  rw [Array.getElem?_replicate] at hv
  split at hv <;> cases hv

theorem forall_argumentSlots {required : Nat} {rest : Bool} {args : List Value}
    (h : ∀ v ∈ args, P v) (hlist : ∀ vs, (∀ v ∈ vs, P v) → P (.list vs)) (slot : Nat) (v : Value)
    (hv : (argumentSlots required rest args).toArray[slot]? = some (some v)) : P v := by
  have hslots : argumentSlots required rest args =
      (if rest then args.take required ++ [.list (args.drop required)] else args).map some := by
    cases rest <;> simp [argumentSlots]
  rw [hslots] at hv
  refine forall_slots_map (fun v hv => ?_) slot v hv
  split at hv
  · rcases List.mem_append.1 hv with hv | hv
    · exact h v (List.mem_of_mem_take hv)
    · obtain rfl := List.mem_singleton.1 hv
      exact hlist _ fun v hv => h v (List.mem_of_mem_drop hv)
  · exact h v hv

variable {frames : Array Frame} {i : Nat} {f : Frame} {slot : Nat} {v : Value}

theorem forall_frames_push
    (h : ∀ (i : Nat) (f : Frame), frames[i]? = some f →
      ∀ (slot : Nat) (v : Value), f.slots[slot]? = some (some v) → P v)
    {new : Frame} (hnew : ∀ (slot : Nat) (v : Value), new.slots[slot]? = some (some v) → P v)
    (hf : (frames.push new)[i]? = some f) (hv : f.slots[slot]? = some (some v)) : P v := by
  rw [Array.getElem?_push] at hf
  split at hf
  · obtain rfl := Option.some.inj hf
    exact hnew slot v hv
  · exact h i f hf slot v hv

theorem forall_frames_setSlot
    (h : ∀ (i : Nat) (f : Frame), frames[i]? = some f →
      ∀ (slot : Nat) (v : Value), f.slots[slot]? = some (some v) → P v)
    {stored : Value} (hstored : P stored) (frame place : Nat)
    (hf : (frames.modify frame fun f =>
      { f with slots := f.slots.setIfInBounds place (some stored) })[i]? = some f)
    (hv : f.slots[slot]? = some (some v)) : P v := by
  rw [Array.getElem?_modify] at hf
  split at hf
  · obtain ⟨f', hf', rfl⟩ := Option.map_eq_some_iff.1 hf
    rw [Array.getElem?_setIfInBounds] at hv
    split at hv
    · split at hv
      · obtain rfl : stored = v := by simpa using hv
        exact hstored
      · cases hv
    · exact h i f' hf' slot v hv
  · exact h i f hf slot v hv

end

/-! ## Steps -/

/-- What a step leads to. -/
inductive Next where
  | value (v : Value)
  | tail (code : Code) (env : Env)

/-- The value of a parameter: the one given to it most recently, or its default. -/
def parameterValue (dynamic : List (ObjectId × Value)) (id : ObjectId) (default : Value) : Value :=
  match dynamic.find? fun p => p.1 = id with
  | some (_, v) => v
  | none => default

theorem forall_parameterValue {P : Value → Prop} {dynamic : List (ObjectId × Value)} {id : ObjectId}
    {default : Value} (h : ∀ p ∈ dynamic, P p.2) (hdefault : P default) :
    P (parameterValue dynamic id default) := by
  rw [parameterValue]
  split
  · rename_i hfind
    exact h _ (List.mem_of_find?_eq_some hfind)
  · exact hdefault

/-- The oldest values given to parameters, as many as there were at an earlier time. -/
def truncate (size : Nat) (dynamic : List (ObjectId × Value)) : List (ObjectId × Value) :=
  dynamic.drop (dynamic.length - size)

theorem mem_of_mem_truncate {size : Nat} {dynamic : List (ObjectId × Value)} {p : ObjectId × Value}
    (h : p ∈ truncate size dynamic) : p ∈ dynamic :=
  List.mem_of_mem_drop h

/-- Applies a procedure up to the evaluation of a closure's body. -/
def applyStep (procedure : Value) (args : List Value) : RunM Next := do
  match procedure with
  | .procedure id p =>
    RunM.ofExcept (p.arity.check ((← get).names.identifyProcedure id) args.length)
    match p with
    | .native _ primitive => return .value (← primitive.call args)
    | .parameter default => return .value (parameterValue (← get).dynamic id default)
    | .closure required rest body env =>
      return .tail body (← pushFrame env (argumentSlots required rest args).toArray)
  | v => RunM.fail (.of (.eval (.notApplicable v.typeName (← showValue v))))

/-- A failure that has no place gets that of the call. -/
def atCall (call : Syntax) (e : Error) : Error :=
  match e.place.span with
  | none => e.withContext call
  | some _ => e

/-- A free name that has no binding is reported at the identifier. -/
def atOrigin (origin : Syntax) (e : Error) : Error :=
  match e.fault with
  | .unbound name => .atForm (.unbound name) origin
  | _ => e

/-- The transformer that a value of `define_syntax` becomes. -/
def asTransformer (origin : Syntax) (v : Value) : RunM Value :=
  match v with
  | .procedure id p => newTransformer id p
  | .transformer id procedureId p => pure (.transformer id procedureId p)
  | .form f => pure (.form f)
  | v => RunM.fail (.atForm (.contract (.notTransformer v.typeName)) origin)

section

/-! The functions of this section take the evaluation of subforms as an argument. -/

variable (eval : Code → Env → RunM Value)

/-- The values of forms, from left to right. -/
def evalAll (env : Env) : List Code → RunM (List Value)
  | [] => return []
  | code :: rest => do
    let v ← eval code env
    let vs ← evalAll env rest
    return v :: vs

/-- The values of fields, from left to right. -/
def evalFields (env : Env) :
    List (String × Code) → List (String × Value) → RunM (List (String × Value))
  | [], fields => return fields
  | (key, code) :: rest, fields => do
    let v ← eval code env
    evalFields env rest (Fields.insert key v fields)

/-- Evaluates all forms but the last, which is left. -/
def evalInit (env : Env) : List Code → RunM Next
  | [] => return .value .void
  | [last] => return .tail last env
  | code :: rest => do
    let _ ← eval code env
    evalInit env rest

/-- Initialises the slots of a frame in order. -/
def evalSlots (env : Env) (frame slot : Nat) : List Code → RunM Unit
  | [] => return
  | code :: rest => do
    let v ← eval code env
    setSlot frame slot v
    evalSlots env frame (slot + 1) rest

/-- The parameters and values of the clauses of a `parameterize`, in order. -/
def evalClauses (env : Env) : List (Code × Code) → RunM (List (ObjectId × Value))
  | [] => return []
  | (parameter, value) :: rest => do
    match ← eval parameter env with
    | .procedure id (.parameter _) =>
      let v ← eval value env
      let clauses ← evalClauses env rest
      return (id, v) :: clauses
    | v => RunM.fail (.of (.contract (.notParameter v.typeName)))

/-- One step of the evaluation of code. -/
def step (code : Code) (env : Env) : RunM Next := do
  match code with
  | .constant v => return .value v
  | .void => return .value .void
  | .localRef depth slot name => return .value (← getLocal env depth slot name)
  | .topRef address name =>
    return .value (← RunM.ofExcept ((← getSpaces).valueAt env.space address name))
  | .importRef id address name =>
    return .value (← RunM.ofExcept ((← getSpaces).lookupImport env.space id address name))
  | .freeRef name origin =>
    let spaces ← getSpaces
    return .value (← (RunM.ofExcept (spaces.lookupName env.space name)).mapError (atOrigin origin))
  | .localSet depth slot value =>
    let v ← eval value env
    let frame ← frameAt env depth
    setSlot frame slot v
    return .value .void
  | .topSet address value =>
    let v ← eval value env
    setValue env.space address v
    return .value .void
  | .define name address value =>
    let v ← eval value env
    inferName v name
    setValue env.space address v
    return .value .void
  | .defineSyntax name address value origin =>
    let v ← asTransformer origin (← eval value env)
    inferName v name
    setValue env.space address v
    return .value .void
  | .branch test consequent alternative =>
    let v ← eval test env
    return .tail (if v.isTruthy then consequent else alternative) env
  | .sequence forms => evalInit eval env forms
  | .lambda name required rest body =>
    return .value (← newProcedure name (.closure required rest body env))
  | .letIn inits body =>
    let vs ← evalAll eval env inits
    return .tail body (← pushFrame env (vs.map some).toArray)
  | .letrec inits body =>
    let inner ← pushFrame env (Array.replicate inits.length none)
    let frame ← frameAt inner 0
    evalSlots eval inner frame 0 inits
    return .tail body inner
  | .apply operator operands call =>
    let procedure ← eval operator env
    let args ← evalAll eval env operands
    (applyStep procedure args).mapError (atCall call)
  | .parameterize bindings body =>
    let clauses ← evalClauses eval env bindings
    let size := (← get).dynamic.length
    modify fun w => { w with dynamic := clauses.reverse ++ w.dynamic }
    let v ← (eval body env).andThen fun w => { w with dynamic := truncate size w.dynamic }
    return .value v
  | .listLiteral elements => return .value (.list (← evalAll eval env elements))
  | .recordLiteral fields => return .value (← newRecord (← evalFields eval env fields []))

end

/-! ## Evaluation -/

/-- Evaluates code, in at most `fuel` steps one inside or after another. -/
def eval : Nat → Code → Env → RunM Value
  | 0, _, _ => RunM.exhausted
  | fuel + 1, code, env => do
    match ← step (eval fuel) code env with
    | .value v => return v
    | .tail code env => eval fuel code env

/-- Applies a procedure to arguments. -/
def applyProcedure (fuel : Nat) (procedure : Value) (args : List Value) : RunM Value := do
  match ← applyStep procedure args with
  | .value v => return v
  | .tail body env => eval fuel body env

end HygienicLisp
