import HygienicLisp.Proofs.Soundness.Expand

/-!
# Well-scoped programs

Expansion, compilation and evaluation each keep their own account of the frames around a place.
Put together: an expression that expands and compiles has code whose references are all within
the frames that evaluation makes around them, so neither its evaluation nor any later application
of what it gave can meet an internal fault.

Compilation looks at the first binder of a binding form only.  It can be led to take a form for a
binding form that expansion has not treated as one, by a transformer that changes which
identifiers denote core forms between the two.  The statement excludes this: either no
transformer does so, or the binders of the expanded form fit all the same.
-/

namespace HygienicLisp

/-- A run that has failed has not failed because of an internal fault. -/
def NoInternalFault {α : Type} (result : EStateM.Result Halt World α) : Prop :=
  ∀ e w, result = .error (.error e) w → e.kind ≠ .internal

theorem SafeAt.noInternalFault {α : Type} {I : World → Prop} {L : Layout} {P : Layout → α → Prop}
    {x : RunM α} {w : World} (h : SafeAt I L P x w) : NoInternalFault (x w) := by
  intro e w' hrun
  rw [SafeAt, hrun] at h
  exact h.2 e rfl

theorem SafeAt.of_ok {α : Type} {I : World → Prop} {L : Layout} {P : Layout → α → Prop}
    {x : RunM α} {w w' : World} {a : α} (h : SafeAt I L P x w) (hrun : x w = .ok a w') :
    I w' ∧ ∃ L', L ≤ L' ∧ w'.Sound L' ∧ P L' a := by
  rw [SafeAt, hrun] at h
  exact h

/-- An expression that has been expanded and compiled in a sound world has scoped code, and
evaluates without internal faults.  So does every later application of a sound value, and what
the code gives is one. -/
theorem compiled_expression_scoped {loader : Loader} {ns : NamespaceId} {fuel depth : Nat}
    {form stx : Syntax} {code : Code} {w w₁ w₂ : World} {L : Layout} (hw : w.Sound L)
    (hns : L.HasSpace ns) (hform : form.Known L)
    (hexpand : Expansion.expand loader ns fuel depth .expression form w = .ok stx w₁)
    (hcompile : compile ns stx w₁ = .ok code w₂)
    (hfit : KeepsForms w ∨ Compile.Fitting w₁.spaces stx) :
    ∃ L₂, L ≤ L₂ ∧ w₂.Sound L₂ ∧ code.Scoped L₂ ns [] ∧
      (∀ steps, NoInternalFault (eval steps code ⟨ns, none⟩ w₂)) ∧
      (∀ steps v w₃, eval steps code ⟨ns, none⟩ w₂ = .ok v w₃ →
        ∃ L₃, L₂ ≤ L₃ ∧ w₃.Sound L₃ ∧ v.Sound L₃) ∧
      ∀ L₃ w₃ steps procedure args, L₂ ≤ L₃ → World.Sound L₃ w₃ → procedure.Sound L₃ →
        (∀ v ∈ args, v.Sound L₃) → NoInternalFault (applyProcedure steps procedure args w₃) := by
  have hstart : Reached w w := ⟨.start, rfl⟩
  obtain ⟨hreached, L₁, hL₁, hw₁, hstx⟩ :=
    (safe_expand fuel depth hform w hstart hw).of_ok hexpand
  have hfit₁ : Compile.Fitting w₁.spaces stx := by
    rcases hfit with hkeeps | hfit
    · exact (hstx.fitting hkeeps).congr hreached.2.symm fun head => (hkeeps w₁ hreached.1 head).symm
    · exact hfit
  have hreads : Reads w₁.spaces w₁ := ⟨rfl, fun _ => rfl⟩
  obtain ⟨-, L₂, hL₂, hw₂, hcode⟩ :=
    (safe_compile (hns.mono hL₁) hstx.known hfit₁ w₁ hreads hw₁).of_ok hcompile
  have henv : Env.Fits L₂ [] ⟨ns, none⟩ := ⟨(hns.mono hL₁).mono hL₂, .top⟩
  have heval (steps : Nat) : SafeAt (HasCells w₂.spaces.cells) L₂ (fun L' v => v.Sound L')
      (eval steps code ⟨ns, none⟩) w₂ :=
    safe_eval steps henv hcode w₂ rfl hw₂
  refine ⟨L₂, hL₁.trans hL₂, hw₂, hcode, fun steps => (heval steps).noInternalFault, ?_, ?_⟩
  · intro steps v w₃ hrun
    exact ((heval steps).of_ok hrun).2
  · intro L₃ w₃ steps procedure args _ hw₃ hprocedure hargs
    have happly : SafeAt (HasCells w₃.spaces.cells) L₃ (fun L' v => v.Sound L')
        (applyProcedure steps procedure args) w₃ :=
      safe_applyProcedure hprocedure hargs w₃ rfl hw₃
    exact happly.noInternalFault

/-! ## A world with one core form -/

/-- A world with one session, in which `lambda` is defined. -/
def lambdaWorld : World where
  spaces := #[{
    home := ⟨"/top"⟩
    kind := .topLevel
    entries := #[⟨⟨"lambda", .free "lambda", .empty⟩, .defined ⟨"lambda", 0, 0, ⟨"/top"⟩⟩⟩]
    definitionCount := 1
    values := #[some (.form .lambda)] }]

/-- The form `((lambda (x) (lambda (y) x)) 1)` in the context of the session. -/
def constantFunction : Syntax :=
  (Syntax.sexp [.sexp [.ident "lambda", .sexp [.ident "x"] none,
    .sexp [.ident "lambda", .sexp [.ident "y"] none, .ident "x"] none] none,
    .atom {} (.int 1)] none).introduce 0

theorem lambdaWorld_value {ns : NamespaceId} {space : Namespace} {address : Nat} {v : Value}
    (hspace : lambdaWorld.spaces[ns]? = some space) (hv : space.value? address = some v) :
    v = .form .lambda := by
  match ns, hspace with
  | 0, hspace =>
      cases hspace
      match address, hv with
      | 0, hv =>
          cases hv
          rfl

theorem lambdaWorld_sound : lambdaWorld.Sound ⟨[], [0], fun _ => none⟩ where
  frames i := by simp [lambdaWorld]
  imports ns := by
    match ns with
    | 0 => rfl
    | ns + 1 => simp [lambdaWorld]
  slots i f hf := by simp [lambdaWorld] at hf
  values ns space hspace address v hv := by
    rw [lambdaWorld_value hspace hv]
    exact .form
  owners ns space hspace i entry hentry := by
    match ns, hspace with
    | 0, hspace =>
        cases hspace
        cases hentry
  targets ns space hspace i entry hentry := by
    match ns, hspace, i with
    | 0, hspace, 0 =>
        cases hspace
        cases hentry
        exact Nat.zero_lt_one
    | 0, hspace, i + 1 =>
        cases hspace
        cases hentry
  dynamic p hp := by simp [lambdaWorld] at hp
  ribs rib size h := by cases h

/-- Without transformers nothing changes the core forms. -/
theorem lambdaWorld_keepsForms : KeepsForms lambdaWorld := by
  intro w hw head
  have hspaces : w.spaces = lambdaWorld.spaces := by
    induction hw with
    | start => rfl
    | rib _ ih => exact ih
    | transformer _ hhead _ ih =>
        rw [ih] at hhead
        obtain ⟨ns, address, hvalue⟩ := exists_value?_of_headValue? hhead
        rw [Spaces.value?] at hvalue
        split at hvalue
        · next space hspace => cases lambdaWorld_value hspace hvalue
        · cases hvalue
  rw [hspaces]

theorem constantFunction_known {L : Layout} : constantFunction.Known L := by
  have hatom {a : Atom} : (Syntax.atom {} a).Known L := .atom (by simp) (by simp)
  have hparameter {name : String} : (Syntax.sexp [.ident name] none).Known L :=
    .sexp (List.forall_mem_singleton.2 hatom) none
  have hinner : (Syntax.sexp [.ident "lambda", .sexp [.ident "y"] none, .ident "x"] none).Known L := by
    refine .sexp (fun stx hstx => ?_) none
    simp only [List.mem_cons, List.not_mem_nil, or_false] at hstx
    rcases hstx with rfl | rfl | rfl
    · exact hatom
    · exact hparameter
    · exact hatom
  have houter : (Syntax.sexp [.ident "lambda", .sexp [.ident "x"] none,
      .sexp [.ident "lambda", .sexp [.ident "y"] none, .ident "x"] none] none).Known L := by
    refine .sexp (fun stx hstx => ?_) none
    simp only [List.mem_cons, List.not_mem_nil, or_false] at hstx
    rcases hstx with rfl | rfl | rfl
    · exact hatom
    · exact hparameter
    · exact hinner
  refine Syntax.Carries.addWrap (Syntax.Known.sexp (fun stx hstx => ?_) none) nofun
  rcases List.mem_pair.1 hstx with rfl | rfl
  · exact houter
  · exact hatom

theorem constantFunction_scoped :
    ∃ stx w₁ code w₂ L, lambdaWorld.Sound ⟨[], [0], fun _ => none⟩ ∧
      Expansion.expand .exhausted 0 5 0 .expression constantFunction lambdaWorld = .ok stx w₁ ∧
      compile 0 stx w₁ = .ok code w₂ ∧ code.Scoped L 0 [] ∧
      NoInternalFault (eval 9 code ⟨0, none⟩ w₂) := by
  have hruns : (match (Expansion.expand .exhausted 0 5 0 .expression constantFunction >>=
      compile 0) lambdaWorld with
      | .ok _ _ => true
      | .error _ _ => false) = true := by decide +kernel
  split at hruns
  · rename_i code w₂ hrun
    obtain ⟨stx, w₁, hexpand, hcompile⟩ := RunM.bind_eq_ok.1 hrun
    obtain ⟨L, -, -, hcode, heval, -⟩ := compiled_expression_scoped lambdaWorld_sound
      Nat.zero_lt_one constantFunction_known hexpand hcompile (.inl lambdaWorld_keepsForms)
    exact ⟨stx, w₁, code, w₂, L, lambdaWorld_sound, hexpand, hcompile, hcode, heval 9⟩
  · cases hruns

end HygienicLisp
