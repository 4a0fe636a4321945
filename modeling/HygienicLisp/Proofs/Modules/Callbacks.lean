import HygienicLisp.Module.Loading
import HygienicLisp.Proofs.Namespaces.Growth

/-!
# Callbacks into the registry

To load a module or to run its body may request other modules, so the registry is called back
while it answers a request.  A `Script` is a computation that touches the registry, and the stack of
modules being loaded, through `instantiateWith` alone.  What else it does is arbitrary: it may fail
wherever it likes and go on after a failure.

`Script.noted` keeps an account of a script beside the world: which callbacks begin and end, how
requests are answered, and what the world is at each of these moments.  The initialisers that are
active are handed down as an argument, next to the stack of modules being loaded and without looking
at it.  An account changes nothing (`Script.accounts`).
-/

namespace HygienicLisp

/-! ## Requests -/

namespace World

/-- The world with another stack of modules being loaded. -/
def setLoading (w : World) (loading : List ModuleId) : World := { w with loading }

/-- The world with another registry. -/
def setRegistry (w : World) (registry : Registry) : World := { w with registry }

/-- One more module is loaded. -/
def countLoad (w : World) : World := { w with loads := w.loads + 1 }

/-- One more body is run. -/
def countRun (w : World) : World := { w with runs := w.runs + 1 }

end World

theorem RunM.tryCatch_apply {α : Type} (x : RunM α) (f : Halt → RunM α) (w : World) :
    (tryCatch x f : RunM α) w = match x w with
      | .ok a w' => .ok a w'
      | .error halt w' => f halt w' := by
  simp only [tryCatch, tryCatchThe, MonadExceptOf.tryCatch, EStateM.tryCatch]
  cases x w <;> rfl

theorem whileLoading_apply {α : Type} (id : ModuleId) (x : RunM α) (w : World) :
    whileLoading id x w = match enterLoading w.loading id with
      | .error e => .error (.error e) w
      | .ok loading => x.andThen (fun w' => w'.setLoading w.loading) (w.setLoading loading) := by
  rw [whileLoading, RunM.bind_apply, RunM.get_apply]
  dsimp only
  cases enterLoading w.loading id <;> rfl

theorem updateRegistry_apply (f : Registry → Except Error Registry) (w : World) :
    updateRegistry f w = match f w.registry with
      | .error e => .error (.error e) w
      | .ok registry => .ok ⟨⟩ (w.setRegistry registry) := by
  rw [updateRegistry, RunM.bind_apply, RunM.get_apply]
  dsimp only
  cases f w.registry <;> rfl

theorem declarationOf_apply (id : ModuleId) (load : RunM Declaration) (w : World) :
    declarationOf id load w = match w.registry.declaration? id with
      | some d => .ok d w
      | none => match load w.countLoad with
        | .error halt w' => .error halt w'
        | .ok d w' => match w'.registry.declare d with
          | .error e => .error (.error e) w'
          | .ok registry => .ok d (w'.setRegistry registry) := by
  rw [declarationOf, RunM.bind_apply, RunM.get_apply]
  dsimp only
  cases w.registry.declaration? id with
  | some d => rfl
  | none =>
      dsimp only
      rw [RunM.bind_apply, RunM.modify_apply]
      dsimp only
      have hcount : ({ w with loads := w.loads + 1 } : World) = w.countLoad := rfl
      rw [RunM.bind_apply, hcount]
      cases load w.countLoad with
      | error halt w' => rfl
      | ok d w' =>
          dsimp only
          rw [RunM.bind_apply, updateRegistry_apply]
          cases w'.registry.declare d <;> rfl

theorem instantiateWith_apply (id : ModuleId) (load : RunM Declaration)
    (run : Declaration → RunM Unit) (w : World) :
    instantiateWith id load run w = match w.registry.instance? id with
      | some i => .ok i w
      | none => match enterLoading w.loading id with
        | .error e => .error (.error e) w
        | .ok loading => match declarationOf id load (w.setLoading loading) with
          | .error halt w' => .error halt (w'.setLoading w.loading)
          | .ok d w' => match run d w'.countRun with
            | .error halt w' => .error halt (w'.setLoading w.loading)
            | .ok _ w' =>
              let i := Instance.ofDeclaration d
              .ok i ((w'.setRegistry (w'.registry.addInstance i)).setLoading w.loading) := by
  rw [instantiateWith, RunM.bind_apply, RunM.get_apply]
  dsimp only
  cases w.registry.instance? id with
  | some i => rfl
  | none =>
      dsimp only
      rw [whileLoading_apply]
      cases enterLoading w.loading id with
      | error e => rfl
      | ok loading =>
          dsimp only
          rw [RunM.andThen, RunM.bind_apply]
          cases declarationOf id load (w.setLoading loading) with
          | error halt w' => rfl
          | ok d w' =>
              dsimp only
              rw [RunM.bind_apply, RunM.modify_apply]
              dsimp only
              have hcount : ({ w' with runs := w'.runs + 1 } : World) = w'.countRun := rfl
              rw [RunM.bind_apply, hcount]
              cases run d w'.countRun <;> rfl

/-! ## Scripts -/

/-- Leaves the registry and the stack of modules being loaded alone, however it ends. -/
def RunM.Spares {α : Type} (x : RunM α) : Prop :=
  ∀ w, (x.leaves w).registry = w.registry ∧ (x.leaves w).loading = w.loading

theorem RunM.spares_pure {α : Type} (a : α) : (pure a : RunM α).Spares := fun _ => ⟨rfl, rfl⟩

theorem RunM.spares_fail {α : Type} (e : Error) : (RunM.fail e : RunM α).Spares :=
  fun _ => ⟨rfl, rfl⟩

theorem RunM.spares_exhausted {α : Type} : (RunM.exhausted : RunM α).Spares := fun _ => ⟨rfl, rfl⟩

/-- Makes the result a declaration of the requested module. -/
def declaring (id : ModuleId) (load : RunM Declaration) : RunM Declaration := do
  let d ← load
  return { d with id }

/-- Computations that touch the registry by requests for instances alone. -/
inductive Script : Type → Type 1
  | act {α : Type} (x : RunM α) (spares : x.Spares) : Script α
  | bind {α β : Type} (x : Script α) (f : α → Script β) : Script β
  | rescue {α : Type} (x : Script α) (f : Halt → Script α) : Script α
  | instantiate (id : ModuleId) (load : Script Declaration) (run : Declaration → Script Unit) :
      Script Instance

/-- Runs a script. -/
def Script.run {α : Type} : Script α → RunM α
  | .act x _ => x
  | .bind x f => x.run >>= fun a => (f a).run
  | .rescue x f => tryCatch x.run fun halt => (f halt).run
  | .instantiate id load run => instantiateWith id (declaring id load.run) fun d => (run d).run

/-! ## Accounts -/

/-- What the registry calls back: the loader of a module, or the runner of its body. -/
inductive Callback where
  | load
  | run (d : Declaration)

/-- How a request for an instance is answered. -/
inductive Answer where
  /-- The module had an instance. -/
  | known (i : Instance)
  /-- The module was being loaded. -/
  | cyclic
  /-- The loader failed. -/
  | unloaded
  /-- The runner failed on the declaration. -/
  | broken (d : Declaration)
  /-- The runner ended well on the declaration. -/
  | made (d : Declaration)

/-- What an account takes note of. -/
inductive Event where
  | begins (c : Callback)
  | ends (c : Callback) (well : Bool)
  | answers (before : World) (answer : Answer)

/-- Something that happens to a module.  The active initialisers are in the order in which they
were entered. -/
structure Moment where
  id : ModuleId
  active : List ModuleId
  event : Event
  world : World

/-- A world, and what has happened on the way to it. -/
structure Account where
  world : World
  moments : List Moment := []

/-- Takes note of an event. -/
def Account.note (s : Account) (id : ModuleId) (active : List ModuleId) (event : Event) : Account :=
  { s with moments := s.moments ++ [⟨id, active, event, s.world⟩] }

/-- Changes the world. -/
def Account.update (s : Account) (f : World → World) : Account := { s with world := f s.world }

/-- Computations that keep an account. -/
abbrev Noted := EStateM Halt Account

namespace Noted

variable {α β : Type}

/-- A computation of which there is nothing to note. -/
def ofRun (x : RunM α) : Noted α := fun s =>
  match x s.world with
  | .ok a world => .ok a { s with world }
  | .error halt world => .error halt { s with world }

/-- Calls back. -/
def during (id : ModuleId) (active : List ModuleId) (c : Callback) (x : Noted α) : Noted α := fun s =>
  match x (s.note id active (.begins c)) with
  | .ok a s' => .ok a (s'.note id active (.ends c true))
  | .error halt s' => .error halt (s'.note id active (.ends c false))

/-- Makes the result a declaration of the requested module. -/
def declaring (id : ModuleId) (load : Noted Declaration) : Noted Declaration := do
  let d ← load
  return { d with id }

/-- The procedure `declarationOf` with an account. -/
def declarationOf (id : ModuleId) (active : List ModuleId) (load : Noted Declaration) :
    Noted Declaration := fun s =>
  match s.world.registry.declaration? id with
  | some d => .ok d s
  | none => match during id active .load load (s.update .countLoad) with
    | .error halt s' => .error halt s'
    | .ok d s' => match s'.world.registry.declare d with
      | .error e => .error (.error e) s'
      | .ok registry => .ok d (s'.update (·.setRegistry registry))

/-- The procedure `instantiateWith` with an account. -/
def instantiateWith (id : ModuleId) (active : List ModuleId) (load : Noted Declaration)
    (run : Declaration → Noted Unit) : Noted Instance := fun s =>
  let answer (s' : Account) (a : Answer) : Account :=
    (s'.update (·.setLoading s.world.loading)).note id active (.answers s.world a)
  match s.world.registry.instance? id with
  | some i => .ok i (answer s (.known i))
  | none => match enterLoading s.world.loading id with
    | .error e => .error (.error e) (answer s .cyclic)
    | .ok loading =>
      match declarationOf id (active ++ [id]) load (s.update (·.setLoading loading)) with
      | .error halt s' => .error halt (answer s' .unloaded)
      | .ok d s' => match during id (active ++ [id]) (.run d) (run d) (s'.update .countRun) with
        | .error halt s' => .error halt (answer s' (.broken d))
        | .ok _ s' =>
          let i := Instance.ofDeclaration d
          .ok i (answer (s'.update fun w => w.setRegistry (w.registry.addInstance i)) (.made d))

end Noted

/-- Runs a script and keeps an account of it. -/
def Script.noted {α : Type} (active : List ModuleId) : Script α → Noted α
  | .act x _ => .ofRun x
  | .bind x f => x.noted active >>= fun a => (f a).noted active
  | .rescue x f => tryCatch (x.noted active) fun halt => (f halt).noted active
  | .instantiate id load run =>
    Noted.instantiateWith id active (Noted.declaring id (load.noted (active ++ [id]))) fun d =>
      (run d).noted (active ++ [id])

/-! ## Accounts change nothing -/

namespace Noted

variable {α β : Type}

/-- How a run with an account ends, without the account. -/
def outcome : EStateM.Result Halt Account α → EStateM.Result Halt World α
  | .ok a s => .ok a s.world
  | .error halt s => .error halt s.world

/-- The first computation is the second one with an account. -/
def Accounts (y : Noted α) (x : RunM α) : Prop := ∀ s : Account, outcome (y s) = x s.world

theorem bind_apply (y : Noted α) (g : α → Noted β) (s : Account) :
    (y >>= g) s = match y s with
      | .ok a s' => g a s'
      | .error halt s' => .error halt s' := by
  simp only [bind, EStateM.bind]
  cases y s <;> rfl

theorem tryCatch_apply (y : Noted α) (g : Halt → Noted α) (s : Account) :
    (tryCatch y g : Noted α) s = match y s with
      | .ok a s' => .ok a s'
      | .error halt s' => g halt s' := by
  simp only [tryCatch, tryCatchThe, MonadExceptOf.tryCatch, EStateM.tryCatch]
  cases y s <;> rfl

namespace Accounts

variable {y : Noted α} {x : RunM α}

theorem ofRun (x : RunM α) : Accounts (ofRun x) x := by
  intro s
  rw [Noted.ofRun]
  cases x s.world <;> rfl

theorem pure (a : α) : Accounts (pure a) (pure a) := fun _ => rfl

theorem bind {g : α → Noted β} {f : α → RunM β} (h : Accounts y x)
    (hg : ∀ a, Accounts (g a) (f a)) : Accounts (y >>= g) (x >>= f) := by
  intro s
  rw [bind_apply, RunM.bind_apply, ← h s]
  cases y s with
  | ok a s' => exact hg a s'
  | error halt s' => rfl

theorem rescue {g : Halt → Noted α} {f : Halt → RunM α} (h : Accounts y x)
    (hg : ∀ halt, Accounts (g halt) (f halt)) : Accounts (tryCatch y g) (tryCatch x f) := by
  intro s
  rw [tryCatch_apply, RunM.tryCatch_apply, ← h s]
  cases y s with
  | ok a s' => rfl
  | error halt s' => exact hg halt s'

theorem during (h : Accounts y x) (id : ModuleId) (active : List ModuleId) (c : Callback) :
    Accounts (during id active c y) x := by
  intro s
  have hrun : outcome (y (s.note id active (.begins c))) = x s.world := h _
  rw [← hrun]
  simp only [Noted.during]
  cases y (s.note id active (.begins c)) <;> rfl

theorem declarationOf {load : Noted Declaration} {load' : RunM Declaration}
    (h : Accounts load load') (id : ModuleId) (active : List ModuleId) :
    Accounts (declarationOf id active load) (HygienicLisp.declarationOf id load') := by
  intro s
  have hload : outcome (Noted.during id active .load load (s.update .countLoad))
      = load' s.world.countLoad := h.during id active .load _
  rw [declarationOf_apply, ← hload]
  simp only [Noted.declarationOf]
  cases s.world.registry.declaration? id with
  | some d => rfl
  | none =>
      cases Noted.during id active .load load (s.update .countLoad) with
      | error halt s' => rfl
      | ok d s' =>
          dsimp only [outcome]
          cases s'.world.registry.declare d <;> rfl

theorem instantiateWith {load : Noted Declaration} {load' : RunM Declaration}
    {run : Declaration → Noted Unit} {run' : Declaration → RunM Unit} (hload : Accounts load load')
    (hrun : ∀ d, Accounts (run d) (run' d)) (id : ModuleId) (active : List ModuleId) :
    Accounts (instantiateWith id active load run) (HygienicLisp.instantiateWith id load' run') := by
  intro s
  rw [instantiateWith_apply]
  simp only [Noted.instantiateWith]
  cases s.world.registry.instance? id with
  | some i => rfl
  | none =>
      cases enterLoading s.world.loading id with
      | error e => rfl
      | ok loading =>
          have hdeclared : outcome (Noted.declarationOf id (active ++ [id]) load
              (s.update (·.setLoading loading)))
                = HygienicLisp.declarationOf id load' (s.world.setLoading loading) :=
            hload.declarationOf id (active ++ [id]) _
          dsimp only
          rw [← hdeclared]
          cases Noted.declarationOf id (active ++ [id]) load (s.update (·.setLoading loading)) with
          | error halt s' => rfl
          | ok d s' =>
              have hran : outcome (Noted.during id (active ++ [id]) (.run d) (run d)
                  (s'.update .countRun)) = run' d s'.world.countRun :=
                (hrun d).during id (active ++ [id]) (.run d) _
              dsimp only [outcome] at hran ⊢
              rw [← hran]
              cases Noted.during id (active ++ [id]) (.run d) (run d) (s'.update .countRun) <;> rfl

end Accounts

end Noted

/-- An account changes nothing. -/
theorem Script.accounts {α : Type} (x : Script α) (active : List ModuleId) :
    (x.noted active).Accounts x.run := by
  induction x generalizing active with
  | act x _ => exact .ofRun x
  | bind x f ihx ihf => exact (ihx active).bind fun a => ihf a active
  | rescue x f ihx ihf => exact (ihx active).rescue fun halt => ihf halt active
  | instantiate id load run ihload ihrun =>
      exact ((ihload _).bind fun _ => .pure _).instantiateWith (fun d => ihrun d _) id active

end HygienicLisp
