import HygienicLisp.Proofs.Soundness.Stores

/-!
# Evaluation is safe

Scoped code in a chain of frames of the sizes it is scoped for gives a sound value, or fails for
a reason that concerns the program: it finds each frame and slot it refers to, and each import.

Main statements: `safe_step` says this of one step, `safe_eval` of evaluation for any number of
steps, and `safe_applyProcedure` of the application of any sound value.
-/

namespace HygienicLisp

variable {L : Layout} {cells : CellTable}

/-! ## Application -/

/-- What a step leads to is a sound value, or scoped code in frames that fit it. -/
def Next.Sound (L : Layout) : Next → Prop
  | .value v => v.Sound L
  | .tail code env => ∃ sizes, env.Fits L sizes ∧ code.Scoped L env.space sizes

/-- The slots of a closure's frame are as many as its code is scoped for. -/
theorem length_argumentSlots {required : Nat} {rest : Bool} {args : List Value}
    (h : (if rest then Arity.atLeast required else Arity.exact required).accepts args.length) :
    (argumentSlots required rest args).length = required + rest.toNat := by
  cases rest with
  | true =>
      have hmin := Arity.min_le_of_accepts h
      simp only [if_true, Arity.atLeast] at hmin
      simp [argumentSlots, hmin]
  | false =>
      have hlen : required ≤ args.length ∧ args.length ≤ required := by
        simpa [Arity.exact, Arity.accepts] using h
      simp [argumentSlots]
      omega

theorem Arity.external_of_check {a : Arity} {who : String} {count : Nat} {e : Error}
    (h : a.check who count = .error e) : e.External := by
  rw [check] at h
  split at h
  · cases h
  · cases h
    exact Error.external_of nofun

theorem safe_applyStep {procedure : Value} {args : List Value} (hprocedure : procedure.Sound L)
    (hargs : ∀ v ∈ args, v.Sound L) :
    Safe (HasCells cells) L (fun L' next => next.Sound L') (applyStep procedure args) := by
  cases hprocedure with
  | @procedure id p hp =>
      refine .get_bind fun w _ _ => ?_
      -- The check of the arity is what the cases below rely on.
      refine Safe.bind (P := fun _ _ => p.arity.accepts args.length)
        (.ofExcept (fun _ hok => ?_) fun _ => Arity.external_of_check) fun L₁ _ hL₁ harity => ?_
      · rw [Arity.check] at hok
        split at hok
        · assumption
        · cases hok
      have hargs₁ : ∀ v ∈ args, v.Sound L₁ := fun v hv => (hargs v hv).mono hL₁
      cases hp with
      | native => exact (Primitive.safe_call hargs₁ harity).bind fun _ _ _ hv => .pure hv
      | parameter hdefault =>
          refine .get_bind fun w _ hw => .pure ?_
          exact forall_parameterValue hw.dynamic (hdefault.mono hL₁)
      | @closure required rest body env sizes hspace hchain hbody =>
          have henv : env.Fits L₁ sizes := ⟨hspace.mono hL₁, hchain.mono hL₁⟩
          refine (safe_pushFrame henv (forall_argumentSlots hargs₁ fun _ => .group)).bind
            fun L₂ env' hL₂ henv' => ?_
          refine .pure ⟨_, henv'.2, ?_⟩
          rw [henv'.1, List.size_toArray, length_argumentSlots harity]
          exact (hbody.mono hL₁).mono hL₂
  | _ => exact .get_bind fun _ _ _ => .fail (Error.external_of nofun)

/-! ## Steps -/

theorem external_atCall {call : Syntax} {e : Error} (h : e.External) : (atCall call e).External := by
  unfold atCall
  split <;> exact h

theorem external_atOrigin {origin : Syntax} {e : Error} (h : e.External) :
    (atOrigin origin e).External := by
  unfold atOrigin
  split
  · exact fun hkind => nomatch hkind
  · exact h

theorem safe_asTransformer {origin : Syntax} {v : Value} (hv : v.Sound L) :
    Safe (HasCells cells) L (fun L' v => v.Sound L') (asTransformer origin v) := by
  cases hv with
  | procedure hp => exact safe_newTransformer hp
  | transformer hp => exact .pure (.transformer hp)
  | form => exact .pure .form
  | _ => exact .fail (fun hkind => nomatch hkind)

section

variable {eval : Code → Env → RunM Value}

/-- Evaluation of code that is scoped for the frames of its environment is safe. -/
def EvalSafe (cells : CellTable)
    (eval : Code → Env → RunM Value) : Prop :=
  ∀ {L : Layout} {code : Code} {env : Env} {sizes : List Nat}, env.Fits L sizes →
    code.Scoped L env.space sizes → Safe (HasCells cells) L (fun L' v => v.Sound L') (eval code env)

theorem safe_evalAll (heval : EvalSafe cells eval) {env : Env} {sizes : List Nat}
    (henv : env.Fits L sizes) {codes : List Code}
    (hcodes : ∀ code ∈ codes, code.Scoped L env.space sizes) :
    Safe (HasCells cells) L (fun L' vs => vs.length = codes.length ∧ ∀ v ∈ vs, v.Sound L')
      (evalAll eval env codes) := by
  induction codes generalizing L with
  | nil => exact .pure ⟨rfl, by simp⟩
  | cons code rest ih =>
      obtain ⟨hcode, hrest⟩ := List.forall_mem_cons.1 hcodes
      refine (heval henv hcode).bind fun L₁ v hL₁ hv => ?_
      refine (ih (henv.mono hL₁) fun code h => (hrest code h).mono hL₁).bind
        fun L₂ vs hL₂ hvs => .pure ⟨?_, ?_⟩
      · simp [hvs.1]
      · exact List.forall_mem_cons.2 ⟨hv.mono hL₂, hvs.2⟩

theorem safe_evalFields (heval : EvalSafe cells eval) {env : Env} {sizes : List Nat}
    (henv : env.Fits L sizes) {codes : List (String × Code)} {fields : List (String × Value)}
    (hcodes : ∀ field ∈ codes, field.2.Scoped L env.space sizes)
    (hfields : ∀ field ∈ fields, field.2.Sound L) :
    Safe (HasCells cells) L (fun L' fields => ∀ field ∈ fields, field.2.Sound L')
      (evalFields eval env codes fields) := by
  induction codes generalizing L fields with
  | nil => exact .pure hfields
  | cons field rest ih =>
      obtain ⟨hcode, hrest⟩ := List.forall_mem_cons.1 hcodes
      refine (heval henv hcode).bind fun L₁ v hL₁ hv => ?_
      refine ih (henv.mono hL₁) (fun field h => (hrest field h).mono hL₁) ?_
      exact Fields.forall_insert hv fun field h => (hfields field h).mono hL₁

theorem safe_evalInit (heval : EvalSafe cells eval) {env : Env} {sizes : List Nat}
    (henv : env.Fits L sizes) {codes : List Code}
    (hcodes : ∀ code ∈ codes, code.Scoped L env.space sizes) :
    Safe (HasCells cells) L (fun L' next => next.Sound L') (evalInit eval env codes) := by
  induction codes generalizing L with
  | nil => exact .pure Value.Sound.void
  | cons code rest ih =>
      obtain ⟨hcode, hrest⟩ := List.forall_mem_cons.1 hcodes
      cases rest with
      | nil => exact .pure ⟨sizes, henv, hcode⟩
      | cons next rest =>
          refine (heval henv hcode).bind fun L₁ v hL₁ _ => ?_
          exact ih (henv.mono hL₁) fun code h => (hrest code h).mono hL₁

theorem safe_evalSlots (heval : EvalSafe cells eval) {env : Env} {sizes : List Nat} {size : Nat}
    {frame slot : Nat} {parent : Option Nat} (henv : env.Fits L sizes)
    (hframe : L.frames[frame]? = some (size, parent)) {codes : List Code}
    (hcodes : ∀ code ∈ codes, code.Scoped L env.space sizes) (hsize : slot + codes.length ≤ size) :
    Safe (HasCells cells) L (fun _ _ => True) (evalSlots eval env frame slot codes) := by
  induction codes generalizing L slot with
  | nil => exact .pure trivial
  | cons code rest ih =>
      obtain ⟨hcode, hrest⟩ := List.forall_mem_cons.1 hcodes
      rw [List.length_cons] at hsize
      refine (heval henv hcode).bind fun L₁ v hL₁ hv => ?_
      refine (safe_setSlot hv (hL₁.frames _ _ hframe) (by omega)).bind fun L₂ _ hL₂ _ => ?_
      have hL := hL₁.trans hL₂
      exact ih (henv.mono hL) (hL.frames _ _ hframe) (fun code h => (hrest code h).mono hL) (by omega)

theorem safe_evalClauses (heval : EvalSafe cells eval) {env : Env} {sizes : List Nat}
    (henv : env.Fits L sizes) {bindings : List (Code × Code)}
    (hparameters : ∀ binding ∈ bindings, binding.1.Scoped L env.space sizes)
    (hvalues : ∀ binding ∈ bindings, binding.2.Scoped L env.space sizes) :
    Safe (HasCells cells) L (fun L' clauses => ∀ clause ∈ clauses, clause.2.Sound L')
      (evalClauses eval env bindings) := by
  induction bindings generalizing L with
  | nil => exact .pure (by simp)
  | cons binding rest ih =>
      obtain ⟨hparameter, hparameters⟩ := List.forall_mem_cons.1 hparameters
      obtain ⟨hvalue, hvalues⟩ := List.forall_mem_cons.1 hvalues
      refine (heval henv hparameter).bind fun L₁ v hL₁ _ => ?_
      split
      · refine (heval (henv.mono hL₁) (hvalue.mono hL₁)).bind fun L₂ v hL₂ hv => ?_
        have hL := hL₁.trans hL₂
        refine (ih (henv.mono hL) (fun b h => (hparameters b h).mono hL)
          fun b h => (hvalues b h).mono hL).bind fun L₃ clauses hL₃ hclauses => .pure ?_
        exact List.forall_mem_cons.2 ⟨hv.mono hL₃, hclauses⟩
      · exact .fail (Error.external_of nofun)

/-- Dropping values of dynamic parameters after a computation. -/
theorem safe_andThen_truncate {α : Type} {P : Layout → α → Prop} {x : RunM α} {size : Nat}
    (hx : Safe (HasCells cells) L P x) :
    Safe (HasCells cells) L P (x.andThen fun w => { w with dynamic := truncate size w.dynamic }) := by
  intro w hI hw
  have hx := hx w hI hw
  have hleave {w' : World} {L' : Layout} (hw' : w'.Sound L') :
      ({ w' with dynamic := truncate size w'.dynamic } : World).Sound L' :=
    { hw' with dynamic := fun p hp => hw'.dynamic p (mem_of_mem_truncate hp) }
  rw [SafeAt] at hx
  rw [SafeAt, RunM.andThen]
  cases hrun : x w with
  | ok a w' =>
      simp only [hrun] at hx ⊢
      obtain ⟨hI', L', hL, hw', ha⟩ := hx
      exact ⟨hI', L', hL, hleave hw', ha⟩
  | error halt w' =>
      simp only [hrun] at hx ⊢
      obtain ⟨⟨L', hL, hw'⟩, he⟩ := hx
      exact ⟨⟨L', hL, hleave hw'⟩, he⟩

/-- One step is safe if the evaluation of subforms is. -/
theorem safe_step (heval : EvalSafe cells eval) {code : Code} {env : Env} {sizes : List Nat}
    (henv : env.Fits L sizes) (hcode : code.Scoped L env.space sizes) :
    Safe (HasCells cells) L (fun L' next => next.Sound L') (step eval code env) := by
  cases hcode with
  | constant hv => exact .pure hv
  | void => exact .pure Value.Sound.void
  | localRef hslot => exact (safe_getLocal henv hslot).bind fun _ _ _ hv => .pure hv
  | topRef =>
      refine .getSpaces_bind fun w _ hw => ?_
      exact (Safe.ofFine (hw.fine_valueAt henv.space _ _)).bind fun _ _ _ hv => .pure hv
  | importRef hid =>
      refine .getSpaces_bind fun w _ hw => ?_
      exact (Safe.ofFine (hw.fine_lookupImport hid _ _)).bind fun _ _ _ hv => .pure hv
  | freeRef =>
      refine .getSpaces_bind fun w _ hw => ?_
      refine (Safe.mapError (fun _ => external_atOrigin) (.ofFine ?_)).bind fun _ _ _ hv => .pure hv
      exact hw.fine_lookupName _ _
  | localSet hslot hvalue =>
      obtain ⟨size, hsize, hlt⟩ := hslot
      refine (heval henv hvalue).bind fun L₁ v hL₁ hv => ?_
      refine (safe_frameAt (henv.mono hL₁) hsize).bind fun L₂ frame hL₂ hframe => ?_
      obtain ⟨parent, hframe⟩ := hframe
      exact (safe_setSlot (hv.mono hL₂) hframe hlt).bind fun _ _ _ _ => .pure Value.Sound.void
  | topSet hvalue =>
      refine (heval henv hvalue).bind fun L₁ v hL₁ hv => ?_
      exact (safe_setValue hv).bind fun _ _ _ _ => .pure Value.Sound.void
  | define hvalue =>
      refine (heval henv hvalue).bind fun L₁ v hL₁ hv => ?_
      refine safe_inferName.bind fun L₂ _ hL₂ _ => ?_
      exact (safe_setValue (hv.mono hL₂)).bind fun _ _ _ _ => .pure Value.Sound.void
  | defineSyntax hvalue =>
      refine (heval henv hvalue).bind fun L₁ v hL₁ hv => ?_
      refine (safe_asTransformer hv).bind fun L₂ v hL₂ hv => ?_
      refine safe_inferName.bind fun L₃ _ hL₃ _ => ?_
      exact (safe_setValue (hv.mono hL₃)).bind fun _ _ _ _ => .pure Value.Sound.void
  | branch htest hconsequent halternative =>
      refine (heval henv htest).bind fun L₁ v hL₁ _ => .pure ⟨sizes, henv.mono hL₁, ?_⟩
      split
      · exact hconsequent.mono hL₁
      · exact halternative.mono hL₁
  | sequence hforms => exact safe_evalInit heval henv hforms
  | lambda hbody =>
      refine (safe_newProcedure (.closure henv.space henv.chain hbody)).bind fun _ _ _ hv => ?_
      exact .pure hv
  | letIn hinits hbody =>
      refine (safe_evalAll heval henv hinits).bind fun L₁ vs hL₁ hvs => ?_
      refine (safe_pushFrame (henv.mono hL₁) (forall_slots_map hvs.2)).bind
        fun L₂ env' hL₂ henv' => .pure ⟨_, henv'.2, ?_⟩
      rw [henv'.1, List.size_toArray, List.length_map, hvs.1]
      exact (hbody.mono hL₁).mono hL₂
  | @letrec _ _ inits body hinits hbody =>
      refine (safe_pushFrame henv (forall_slots_replicate inits.length)).bind fun L₁ inner hL₁ hinner => ?_
      obtain ⟨hspace, hinner⟩ := hinner
      rw [Array.size_replicate] at hinner
      refine (safe_frameAt hinner rfl).bind fun L₂ frame hL₂ hframe => ?_
      obtain ⟨parent, hframe⟩ := hframe
      have hL := hL₁.trans hL₂
      refine (safe_evalSlots heval (hinner.mono hL₂) hframe (fun code h => ?_) (by omega)).bind
        fun L₃ _ hL₃ _ => .pure ⟨_, (hinner.mono hL₂).mono hL₃, ?_⟩
      · rw [hspace]
        exact (hinits code h).mono hL
      · rw [hspace]
        exact hbody.mono (hL.trans hL₃)
  | apply hoperator hoperands =>
      refine (heval henv hoperator).bind fun L₁ procedure hL₁ hprocedure => ?_
      refine (safe_evalAll heval (henv.mono hL₁) fun code h => (hoperands code h).mono hL₁).bind
        fun L₂ args hL₂ hargs => ?_
      exact .mapError (fun _ => external_atCall) (safe_applyStep (hprocedure.mono hL₂) hargs.2)
  | parameterize hparameters hvalues hbody =>
      refine (safe_evalClauses heval henv hparameters hvalues).bind fun L₁ clauses hL₁ hclauses => ?_
      refine .get_bind fun w₁ _ _ => ?_
      refine Safe.bind (P := fun _ _ => True) (.modify fun w hI hw => ?_) fun L₂ _ hL₂ _ => ?_
      · refine ⟨hI, L₁, le_rfl, { hw with dynamic := fun p hp => ?_ }, trivial⟩
        rcases List.mem_append.1 hp with hp | hp
        · exact hclauses p (List.mem_reverse.1 hp)
        · exact hw.dynamic p hp
      -- The activations are taken back after the body, however it ends.
      · have hL := hL₁.trans hL₂
        have hbody := heval (henv.mono hL) (hbody.mono hL)
        exact (safe_andThen_truncate hbody).bind fun _ _ _ hv => .pure hv
  | listLiteral helements =>
      exact (safe_evalAll heval henv helements).bind fun _ _ _ hvs => .pure (.group hvs.2)
  | recordLiteral hfields =>
      refine (safe_evalFields heval henv hfields (by simp)).bind fun L₁ fields hL₁ hfields => ?_
      exact (safe_newRecord hfields).bind fun _ _ _ hv => .pure hv

end

/-! ## Evaluation -/

/-- Evaluation of scoped code is safe, however many steps it may make. -/
theorem safe_eval (fuel : Nat) : EvalSafe cells (eval fuel) := by
  induction fuel with
  | zero => exact fun _ _ => .exhausted
  | succ fuel ih =>
      intro L code env sizes henv hcode
      refine (safe_step ih henv hcode).bind fun L₁ next _ hnext => ?_
      cases next with
      | value v => exact .pure hnext
      | tail code env =>
          obtain ⟨sizes, henv, hcode⟩ := hnext
          exact ih henv hcode

/-- Application of a sound value to sound arguments is safe. -/
theorem safe_applyProcedure {fuel : Nat} {procedure : Value} {args : List Value}
    (hprocedure : procedure.Sound L) (hargs : ∀ v ∈ args, v.Sound L) :
    Safe (HasCells cells) L (fun L' v => v.Sound L') (applyProcedure fuel procedure args) := by
  refine (safe_applyStep hprocedure hargs).bind fun L₁ next _ hnext => ?_
  cases next with
  | value v => exact .pure hnext
  | tail code env =>
      obtain ⟨sizes, henv, hcode⟩ := hnext
      exact safe_eval fuel henv hcode

end HygienicLisp
