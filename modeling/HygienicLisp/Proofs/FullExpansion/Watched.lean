import HygienicLisp.Expansion.Expand
import HygienicLisp.Proofs.Evaluation.Fuel

/-!
# Watched expansion

What expansion makes of a form depends on whether the identifier at its head denotes a core form, a
transformer or neither (`HeadKind`), and it asks this when it comes to the form.  Transformers run in
between and can store values, so the answer may be another one later.

`Watched.expand` expands as `expand` does, and asks at every form that it comes to whether it may go
on.  It stops where it may not, so a watched run that finishes is the plain run
(`Watched.expand_eq_ok`), and that a watched run finishes says that every form was met as the watch
demands.  `steady S` is the watch that demands the kind which the identifier has in `S`.
-/

namespace HygienicLisp

/-! ## Kinds -/

/-- What an identifier is to expansion. -/
inductive HeadKind where
  | core (f : CoreForm)
  | transformer
  | variable
  deriving DecidableEq, Repr

/-- What the form is to expansion when it stands at the head of a sexp; anything but the name of a
core form or of a transformer is a variable. -/
def headKind (spaces : Spaces) (stx : Syntax) : HeadKind :=
  match headValue? spaces stx with
  | some (.form f) => .core f
  | some (.transformer _ _ _) => .transformer
  | _ => .variable

variable {spaces : Spaces} {stx : Syntax}

theorem coreForm?_of_headKind {f : CoreForm} (h : headKind spaces stx = .core f) :
    coreForm? spaces stx = some f := by
  unfold headKind at h
  split at h <;> cases h
  rw [coreForm?, ‹headValue? _ _ = _›]

theorem coreForm?_of_variable (h : headKind spaces stx = .variable) :
    coreForm? spaces stx = none := by
  unfold headKind at h
  split at h
  · cases h
  · cases h
  · rename_i hform _
    rw [coreForm?]
    split
    · exact absurd ‹_› (hform _)
    · rfl

theorem headValue?_of_headKind {f : CoreForm} (h : headKind spaces stx = .core f) :
    headValue? spaces stx = some (.form f) := by
  unfold headKind at h
  split at h <;> cases h
  assumption

theorem headKind_of_not_identifier (h : stx.isIdentifier = false) :
    headKind spaces stx = .variable := by
  simp [headKind, headValue?, h]

/-! ## Expansion under a watch -/

/-- Whether expansion may go on with a form, by the namespaces as they are, the depth, the context
and the form. -/
abbrev Watch := Spaces → Nat → ExpandContext → Syntax → Bool

/-- The part of a form that decides what expansion does with it. -/
def Syntax.deciding (form : Syntax) : Syntax := form.subforms.headD form

/-- The watch that lets uses of transformers pass, and every other form that is of the kind which it
is in the given namespaces. -/
def steady (final : Spaces) : Watch := fun now _ _ form =>
  headKind now form.deciding = .transformer ||
    headKind final form.deciding = headKind now form.deciding

/-- Goes on if the watch allows the form. -/
def RunM.allow (watch : Watch) (depth : Nat) (context : ExpandContext) (form : Syntax) :
    RunM Unit := do
  if watch (← getSpaces) depth context form then pure () else exhausted

namespace Watched

open Expansion

variable (watch : Watch) (loader : Loader) (ns : NamespaceId)

/-- `expandPlain` under a watch. -/
def expandPlain (expand : Nat → ExpandContext → Syntax → RunM Syntax) (depth : Nat)
    (context : ExpandContext) (form : Syntax) : RunM Syntax := do
  RunM.allow watch depth context form
  Expansion.expandPlain expand depth form

/-- `expandSexp` under a watch. -/
def expandSexp (expand : Nat → ExpandContext → Syntax → RunM Syntax) :
    Nat → Nat → ExpandContext → Syntax → RunM Syntax
  | 0, _, _, _ => RunM.exhausted
  | fuel + 1, depth, context, form => do
    RunM.allow watch depth context form
    match form.subforms with
    | [] => RunM.failAt form .emptyForm
    | head :: rest =>
      match headValue? (← getSpaces) head with
      | some (.transformer id procedureId p) =>
        let depth ← descend depth form
        let form ← invoke fuel id procedureId p form
        if form.isSexp then expandSexp expand fuel depth context form
        else expandPlain watch expand depth context form
      | some (.form f) => core (expand depth) loader ns f form (head :: rest) context
      | _ => return form.rebuildSexp (← expandEach (expand depth) .expression (head :: rest))

/-- `expand` under a watch. -/
def expand : Nat → Nat → ExpandContext → Syntax → RunM Syntax
  | 0, _, _, _ => RunM.exhausted
  | fuel + 1, depth, context, form => do
    let depth ← descend depth form
    RunM.inContext form <|
      if form.isSexp then expandSexp watch loader ns (expand fuel) fuel depth context form
      else expandPlain watch (expand fuel) depth context form

end Watched

/-! ## The plain run -/

section

open Expansion

variable {expand expand' : ExpandContext → Syntax → RunM Syntax}
  (hexpand : ∀ context stx, Approximates (expand context stx) (expand' context stx))
include hexpand

theorem expandEach_approximates (context : ExpandContext) (forms : List Syntax) :
    Approximates (expandEach expand context forms) (expandEach expand' context forms) := by
  induction forms with
  | nil => exact .refl _
  | cons stx rest ih => exact (hexpand context stx).bind fun _ => ih.bind fun _ => .refl _

theorem expandFields_approximates (fields : List (String × Syntax)) :
    Approximates (expandFields expand fields) (expandFields expand' fields) := by
  induction fields with
  | nil => exact .refl _
  | cons field rest ih =>
      exact (hexpand .expression field.2).bind fun _ => ih.bind fun _ => .refl _

theorem lambda_approximates (form : Syntax) (parts : List Syntax) :
    Approximates (Expansion.lambda expand form parts) (Expansion.lambda expand' form parts) := by
  unfold Expansion.lambda
  split
  · refine .rest _ fun _ => ?_
    split
    · exact .refl _
    · exact .rest _ fun rib => (expandEach_approximates hexpand _ _).bind fun _ => .refl _
  · exact .refl _

theorem namedLet_approximates (form : Syntax) (parts : List Syntax) :
    Approximates (namedLet expand form parts) (namedLet expand' form parts) := by
  unfold namedLet
  split
  · refine .rest _ fun _ => .rest _ fun pairs => ?_
    exact .rest _ fun lambdaHead => .rest _ fun letrecHead => hexpand .expression _
  · exact .refl _

theorem letForm_approximates (form : Syntax) (parts : List Syntax) :
    Approximates (letForm expand form parts) (letForm expand' form parts) := by
  unfold letForm
  split
  · split
    · exact namedLet_approximates hexpand form _
    · refine .rest _ fun _ => .rest _ fun pairs => ?_
      refine (expandEach_approximates hexpand _ _).bind fun inits => .rest _ fun rib => ?_
      exact (expandEach_approximates hexpand _ _).bind fun _ => .refl _
  · exact .refl _

theorem letrec_approximates (form : Syntax) (parts : List Syntax) :
    Approximates (letrec expand form parts) (letrec expand' form parts) := by
  unfold letrec
  split
  · refine .rest _ fun _ => .rest _ fun pairs => .rest _ fun rib => ?_
    refine (expandEach_approximates hexpand _ _).bind fun inits => ?_
    exact (expandEach_approximates hexpand _ _).bind fun _ => .refl _
  · exact .refl _

theorem parameterClauses_approximates (items : List Syntax) :
    Approximates (parameterClauses expand items) (parameterClauses expand' items) := by
  induction items with
  | nil => exact .refl _
  | cons clause rest ih =>
      rw [parameterClauses, parameterClauses]
      split
      · refine (hexpand .expression _).bind fun parameter => ?_
        exact (hexpand .expression _).bind fun value => ih.bind fun _ => .refl _
      · exact .refl _

theorem parameterize_approximates (form : Syntax) (parts : List Syntax) :
    Approximates (parameterize expand form parts) (parameterize expand' form parts) := by
  unfold parameterize
  split
  · refine .rest _ fun _ => ?_
    split
    · exact .refl _
    · refine (parameterClauses_approximates hexpand _).bind fun items => ?_
      exact (expandEach_approximates hexpand _ _).bind fun _ => .refl _
  · exact .refl _

theorem define_approximates (ns : NamespaceId) (form : Syntax) (context : ExpandContext) :
    Approximates (define expand ns form context) (define expand' ns form context) := by
  refine .rest _ fun _ => .ite (.rest _ fun normal => ?_) (.rest _ fun normal => ?_)
  -- Whether the address is taken now or was before, what is left is the expansion of the value.
  all_goals
    dsimp only
    split
    · exact (hexpand .expression _).bind fun _ => .refl _
    · exact .refl _

/-- One case for each core form. -/
theorem core_approximates (loader : Loader) (ns : NamespaceId) (f : CoreForm) (form : Syntax)
    (parts : List Syntax) (context : ExpandContext) :
    Approximates (core expand loader ns f form parts context)
      (core expand' loader ns f form parts context) := by
  cases f with
  | quote | quoteSyntax | moduleForm | require | provide => exact .refl _
  | ifForm => exact .rest _ fun _ => (expandEach_approximates hexpand _ _).bind fun _ => .refl _
  | begin => exact (expandEach_approximates hexpand _ _).bind fun _ => .refl _
  | lambda => exact lambda_approximates hexpand form parts
  | letForm => exact letForm_approximates hexpand form parts
  | letrec => exact letrec_approximates hexpand form parts
  | set =>
      refine .rest _ fun _ => ?_
      split
      · have hvalue (head id value : Syntax) : Approximates
            (expand .expression value >>= fun value => pure (form.rebuildSexp [head, id, value]))
            (expand' .expression value >>= fun value => pure (form.rebuildSexp [head, id, value])) :=
          (hexpand .expression value).bind fun _ => .refl _
        exact .ite (.rest _ fun _ => hvalue _ _ _) (hvalue _ _ _)
      · exact .refl _
  | define => exact define_approximates hexpand ns form context
  | defineSyntax =>
      refine .rest _ fun _ => .rest _ fun _ => ?_
      split
      · exact .rest _ fun _ => (hexpand .expression _).bind fun _ => .refl _
      · exact .refl _
  | parameterize => exact parameterize_approximates hexpand form parts

end

theorem RunM.allow_bind (watch : Watch) (depth : Nat) (context : ExpandContext) (form : Syntax)
    {α : Type} (x : RunM α) (w : World) :
    (do allow watch depth context form; x) w =
      if watch w.spaces depth context form then x w else .error .outOfFuel w := by
  rw [bind_apply, allow, bind_apply, getSpaces_apply]
  dsimp only
  cases watch w.spaces depth context form <;> rfl

theorem Approximates.allow {α : Type} {x y : RunM α} (h : Approximates x y) (watch : Watch)
    (depth : Nat) (context : ExpandContext) (form : Syntax) :
    Approximates (do RunM.allow watch depth context form; x) y := by
  intro w hw
  rw [RunM.allow_bind] at hw ⊢
  by_cases hwatch : watch w.spaces depth context form
  · rw [if_pos hwatch] at hw ⊢
    exact h w hw
  · rw [if_neg hwatch] at hw
    exact hw.elim

namespace Watched

section

variable {watch : Watch} {loader : Loader} {ns : NamespaceId}
  {expand expand' : Nat → ExpandContext → Syntax → RunM Syntax}
  (hexpand : ∀ depth context stx,
    Approximates (expand depth context stx) (expand' depth context stx))
include hexpand

theorem expandPlain_approximates (depth : Nat) (context : ExpandContext) (form : Syntax) :
    Approximates (expandPlain watch expand depth context form)
      (Expansion.expandPlain expand' depth form) := by
  have hplain : Approximates (Expansion.expandPlain expand depth form)
      (Expansion.expandPlain expand' depth form) := by
    unfold Expansion.expandPlain
    split
    · exact .refl _
    · exact .refl _
    · exact (expandEach_approximates (hexpand depth) _ _).bind fun _ => .refl _
    · exact (expandFields_approximates (hexpand depth) _).bind fun _ => .refl _
  exact hplain.allow watch depth context form

theorem expandSexp_approximates (fuel depth : Nat) (context : ExpandContext) (form : Syntax) :
    Approximates (expandSexp watch loader ns expand fuel depth context form)
      (Expansion.expandSexp ns expand' loader fuel depth context form) := by
  induction fuel generalizing depth form with
  | zero => exact .exhausted _
  | succ fuel ih =>
      rw [Expansion.expandSexp]
      refine Approximates.allow ?_ watch depth context form
      cases form.subforms with
      | nil => exact .refl _
      | cons head rest =>
          refine .rest _ fun spaces => ?_
          match headValue? spaces head with
          | some (.transformer id procedureId p) =>
              refine .rest _ fun depth => .rest _ fun form => .ite (ih depth form) ?_
              exact expandPlain_approximates hexpand depth context form
          | some (.form f) => exact core_approximates (hexpand depth) loader ns f form _ context
          | none | some .void | some (.atom _) | some (.group _ _) | some (.record _ _)
          | some (.stx _) | some (.procedure _ _) =>
              exact (expandEach_approximates (hexpand depth) _ _).bind fun _ => .refl _

end

variable {watch : Watch} {loader : Loader} {ns : NamespaceId}

theorem expand_approximates (fuel : Nat) : ∀ (depth : Nat) (context : ExpandContext) (form : Syntax),
    Approximates (expand watch loader ns fuel depth context form)
      (Expansion.expand loader ns fuel depth context form) := by
  induction fuel with
  | zero => exact fun _ _ _ => .exhausted _
  | succ fuel ih =>
      intro depth context form
      refine .rest _ fun depth => Approximates.mapError (.ite ?_ ?_) _
      · exact expandSexp_approximates ih fuel depth context form
      · exact expandPlain_approximates ih depth context form

/-- A watched run that ends well is the plain run. -/
theorem expand_eq_ok {fuel depth : Nat} {context : ExpandContext} {form e : Syntax} {w w' : World}
    (h : expand watch loader ns fuel depth context form w = .ok e w') :
    Expansion.expand loader ns fuel depth context form w = .ok e w' := by
  have hfinished : Finished (expand watch loader ns fuel depth context form w) := by
    rw [h]
    trivial
  rw [expand_approximates fuel depth context form w hfinished, h]

end Watched

end HygienicLisp
