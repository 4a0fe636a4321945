import HygienicLisp.Proofs.TopLevel.Definitions

/-!
# Imports by hosts and by programs

A host imports everything that a module provides with one call, and so does a program with
`(require "path")`.  The form goes through all stages of the program: its head is expanded, the
module is resolved, loaded, run and bound, and what is left is compiled, which looks at its head
once more.  The identifiers under which it binds are made from the context of the path; those of
the host are put into the session afresh.

Both do the same to the world, at whatever step they fail, unless the names that are imported
include `require` itself: then the compiler no longer finds the core form.

Main statement: `evalForm_require`.
-/

namespace HygienicLisp

open Expansion

variable {α β γ δ : Type} {w : World} {ns : NamespaceId}

/-! ## Computations that end alike -/

/-- Two computations end alike if they leave the same world and have related results, fail with
errors of one kind, or both run out of steps. -/
inductive EndsAlike (P : α → β → Prop) :
    EStateM.Result Halt World α → EStateM.Result Halt World β → Prop
  | ok {a : α} {b : β} (h : P a b) (w : World) : EndsAlike P (.ok a w) (.ok b w)
  | error {e e' : Error} (h : e.kind = e'.kind) (w : World) :
      EndsAlike P (.error (.error e) w) (.error (.error e') w)
  | outOfFuel (w : World) : EndsAlike P (.error .outOfFuel w) (.error .outOfFuel w)

namespace EndsAlike

variable {P : α → β → Prop} {Q : γ → δ → Prop}

theorem refl (r : EStateM.Result Halt World α) : EndsAlike Eq r r := by
  rcases r with ⟨a, w⟩ | ⟨e | _, w⟩
  · exact .ok rfl w
  · exact .error rfl w
  · exact .outOfFuel w

/-- Computations that go on alike after they have ended alike end alike. -/
theorem bind {x : RunM α} {y : RunM β} {f : α → RunM γ} {g : β → RunM δ} {w' : World}
    (h : EndsAlike P (x w) (y w'))
    (hnext : ∀ a b w₁, P a b → y w' = .ok b w₁ → EndsAlike Q (f a w₁) (g b w₁)) :
    EndsAlike Q ((x >>= f) w) ((y >>= g) w') := by
  rw [RunM.bind_apply, RunM.bind_apply]
  generalize hx : x w = r at h
  generalize hy : y w' = s at h hnext
  cases h with
  | ok hab w₁ => exact hnext _ _ w₁ hab rfl
  | error hkind w₁ => exact .error hkind w₁
  | outOfFuel w₁ => exact .outOfFuel w₁

/-- A computation that goes on alone must not change anything any more. -/
theorem bind_left {R : γ → β → Prop} {x : RunM α} {f : α → RunM γ}
    {s : EStateM.Result Halt World β} (h : EndsAlike P (x w) s)
    (hnext : ∀ a b w₁, P a b → s = .ok b w₁ → EndsAlike R (f a w₁) (.ok b w₁)) :
    EndsAlike R ((x >>= f) w) s := by
  rw [RunM.bind_apply]
  generalize x w = r at h
  cases h with
  | ok hab w₁ => exact hnext _ _ w₁ hab rfl
  | error hkind w₁ => exact .error hkind w₁
  | outOfFuel w₁ => exact .outOfFuel w₁

/-- Entries in the trail of a failure do not change its kind. -/
theorem mapError {f : Error → Error} (hf : ∀ e, (f e).kind = e.kind) {x : RunM α}
    {s : EStateM.Result Halt World β} (h : EndsAlike P (x w) s) :
    EndsAlike P (RunM.mapError f x w) s := by
  rw [RunM.mapError]
  generalize x w = r at h
  cases h with
  | ok hab w₁ => exact .ok hab w₁
  | error hkind w₁ => exact .error ((hf _).trans hkind) w₁
  | outOfFuel w₁ => exact .outOfFuel w₁

theorem inContext {stx : Syntax} {x : RunM α} {s : EStateM.Result Halt World β}
    (h : EndsAlike P (x w) s) : EndsAlike P (RunM.inContext stx x w) s :=
  h.mapError (f := Error.withContext stx) fun _ => rfl

end EndsAlike

/-! ## Binding what a module provides -/

section

variable {name : String} {stx stx' : Syntax}

/-- A name made in the context of a form of the session is a name of the session. -/
theorem names_ofDatum (name : String) {spec : Syntax} (hspec : spec.wraps = [.space ns]) :
    ∃ stx, Syntax.ofDatum (.atom (.symbol name)) (some spec) = .ok stx ∧ stx.Names ns name := by
  refine ⟨(Syntax.atom { span := spec.span } (.symbol name)).addWraps [.space ns], ?_, rfl, rfl, rfl⟩
  rw [Syntax.ofDatum, Value.toSyntax, hspec]

/-- What an import does is up to the name under which it is made. -/
theorem endsAlike_require (hstx : stx.Names ns name) (hstx' : stx'.Names ns name) (p : Provided)
    (shadowable : Bool) (w : World) :
    EndsAlike Eq (require ns stx p shadowable w) (require ns stx' p shadowable w) := by
  rw [require_apply, require_apply, Spaces.require, Spaces.require, hstx.symbol, hstx'.symbol]
  cases w.spaces[ns]? with
  | none => exact .refl _
  | some space =>
      dsimp only
      rw [Spaces.filingKey_names hstx, Spaces.filingKey_names hstx']
      cases space.require (plainKey name) p shadowable with
      | ok space' => exact .refl _
      | error conflict =>
          exact @EndsAlike.error _ _ _ (.atForm (.ambiguous name conflict) stx)
            (.atForm (.ambiguous name conflict) stx') rfl w

/-- What a program binds is what a host binds, up to the first binding that fails. -/
theorem endsAlike_requireAll {spec : Syntax} (hspec : spec.wraps = [.space ns])
    (provided : List Provided) (w : World) :
    EndsAlike Eq
      (requireAll ns (fun p => Syntax.ofDatum (.atom (.symbol p.name)) (some spec)) false provided w)
      (requireAll ns (fun p => .ok ((Syntax.ident p.name).introduce ns)) false provided w) := by
  induction provided generalizing w with
  | nil => exact .refl _
  | cons p rest ih =>
      obtain ⟨stx, hstx, hnames⟩ := names_ofDatum p.name hspec
      have hident : ((Syntax.ident p.name).introduce ns).Names ns p.name :=
        Syntax.names_introduce ns rfl
      rw [requireAll, requireAll, hstx]
      exact (endsAlike_require hnames hident p false w).bind fun _ _ w₁ _ _ => ih w₁

end

/-! ## The stages -/

section

variable {form head spec : Syntax} {c : Context} {path : String}

/-- A program resolves, loads and runs the module that a host does. -/
theorem endsAlike_requireSpec (hc : c.wraps = [.space ns]) (fuel : Nat) (w : World) :
    EndsAlike Eq (requireSpec (loaderAt fuel) ns (.atom c (.str path)) w)
      (requireModule fuel ns path w) := by
  have hspec : requireSpec (loaderAt fuel) ns (.atom c (.str path)) = (do
      let spaces ← getSpaces
      let id ← (resolveModule path ((spaces[ns]?).map (·.home))).inContext (.atom c (.str path))
      let i ← (instantiate fuel id).inContext (.atom c (.str path))
      requireAll ns (fun p => Syntax.ofDatum (.atom (.symbol p.name)) (some (.atom c (.str path))))
        false i.provided) := by
    simp only [requireSpec, requiredInstance, modulePath, Syntax.subforms?, instantiate, pure_bind,
      bind_assoc]
  rw [hspec, requireModule]
  refine (EndsAlike.refl (getSpaces w)).bind fun spaces _ w₁ hspaces _ => ?_
  subst hspaces
  refine (EndsAlike.refl _).inContext.bind fun id _ w₂ hid _ => ?_
  subst hid
  refine (EndsAlike.refl _).inContext.bind fun i _ w₃ hi _ => ?_
  subst hi
  exact endsAlike_requireAll (show (Syntax.atom c (.str path)).wraps = _ from hc) i.provided w₃

/-- The expansion of the form imports as a host does, and leaves the form as it is. -/
theorem endsAlike_expand (hlimit : w.runtime.config.maxExpansionDepth = none)
    (hparts : form.subforms = [head, .atom c (.str path)])
    (hhead : headValue? w.spaces head = some (.form .require)) (hc : c.wraps = [.space ns])
    (fuel more : Nat) :
    EndsAlike (fun stx _ => stx = form)
      (expand (loaderAt fuel) ns (more + 2) 0 .topLevel form w) (requireModule fuel ns path w) := by
  have hspecs : EndsAlike (fun _ _ => True)
      (runEach (requireSpec (loaderAt fuel) ns) [.atom c (.str path)] w)
      (requireModule fuel ns path w) :=
    (endsAlike_requireSpec hc fuel w).bind_left fun _ _ w₁ _ _ => .ok trivial w₁
  have hcore : EndsAlike (fun stx _ => stx = form)
      (core (expand (loaderAt fuel) ns (more + 1) 1) (loaderAt fuel) ns .require form
        [head, .atom c (.str path)] .topLevel w) (requireModule fuel ns path w) :=
    hspecs.bind_left fun _ b w₁ _ _ => .ok (a := form) (b := b) rfl w₁
  rw [expand, RunM.bind_apply, descend_of_unlimited hlimit]
  refine EndsAlike.inContext ?_
  rw [if_pos (isSexp_of_subforms hparts), expandSexp, hparts]
  dsimp only
  rw [RunM.bind_apply, RunM.getSpaces_apply]
  dsimp only
  rw [hhead]
  exact hcore

/-- What is left of the form compiles to nothing, as long as its head is still the core form. -/
theorem compile_require (hparts : form.subforms = [head, spec])
    (hhead : coreForm? w.spaces head = some .require) : compile ns form w = .ok .void w := by
  rw [compile, Compile.compileAt]
  cases form with
  | atom => cases hparts
  | record => cases hparts
  | group c shape items =>
      cases shape with
      | list => cases hparts
      | sexp =>
          rw [Compile.form, hparts]
          dsimp only
          rw [RunM.bind_apply, RunM.getSpaces_apply]
          dsimp only
          rw [hhead]
          rfl

end

/-! ## Whole forms -/

section

variable {form head : Syntax} {c : Context} {path : String}

/-- A program that imports a module with `(require "path")` and a host that imports it do the same
to the world, and both succeed, fail with errors of one kind, or run out of steps: in every session
without a limit where `require` is the core form, and still is after the import. -/
theorem evalForm_require (hlimit : w.runtime.config.maxExpansionDepth = none)
    (hrequire : coreForm? w.spaces ((Syntax.ident "require").introduce ns) = some .require)
    (hparts : form.subforms = [head, .atom c (.str path)]) (hhead : head.bareName? = some "require")
    (hc : c.wraps = []) {fuel : Nat} (hfuel : 3 ≤ fuel)
    (hkept : ∀ w', requireModule fuel ns path w = .ok () w' →
      coreForm? w'.spaces ((Syntax.ident "require").introduce ns) = some .require) :
    EndsAlike (fun v _ => v = .void) (evalForm fuel ns form w) (requireModule fuel ns path w) := by
  obtain ⟨more, rfl⟩ := Nat.exists_eq_add_of_le' hfuel
  have hident := Syntax.names_introduce ns (show (Syntax.ident "require").bareName? = _ from rfl)
  have hnames := Syntax.names_introduce ns hhead
  have hcore (spaces : Spaces) : coreForm? spaces (head.introduce ns) =
      coreForm? spaces ((Syntax.ident "require").introduce ns) := by
    rw [coreForm?, coreForm?, Spaces.headValue?_eq_lookup hnames, Spaces.headValue?_eq_lookup hident]
  obtain ⟨c', hc', hparts'⟩ : ∃ c' : Context, c'.wraps = [.space ns] ∧
      (form.introduce ns).subforms = [head.introduce ns, .atom c' (.str path)] := by
    rw [Syntax.subforms_introduce, hparts]
    exact ⟨_, Syntax.wraps_introduce ns (show (Syntax.atom c (.str path)).wraps = [] from hc), rfl⟩
  have hheadValue : headValue? w.spaces (head.introduce ns) = some (.form .require) :=
    headValue?_of_coreForm? ((hcore w.spaces).trans hrequire)
  have hrun : EndsAlike (fun v _ => v = .void)
      (runForm (loaderAt (more + 3)) (more + 2) ns .topLevel (form.introduce ns) w)
      (requireModule (more + 3) ns path w) := by
    refine (endsAlike_expand hlimit hparts' hheadValue hc' (more + 3) more).bind_left
      fun _ u w₁ hexpanded hok => ?_
    subst hexpanded
    rw [RunM.bind_apply, compile_require hparts' ((hcore w₁.spaces).trans (hkept w₁ hok))]
    exact .ok (a := Value.void) (b := u) rfl w₁
  rw [evalForm, evalInContext, evalQueue, RunM.bind_apply,
    partialExpand_core hparts' hheadValue (by decide) (more + 1) 0]
  exact hrun.bind_left fun v u w₁ hv _ => .ok (a := v) (b := u) hv w₁

/-- A session next to a module that provides `x`. -/
def importingWorld : World :=
  ({} : World).after [.start {}, .openSession, .addSource "/m" "(define x 1) (provide x)"]

/-- The form `(require "/m")`. -/
def importing : Syntax := Syntax.sexp [.ident "require", .atom {} (.str "/m")] none

/-- `x` is imported. -/
theorem evalForm_require_x :
    ∃ w', requireModule 20 1 "/m" importingWorld = .ok () w' ∧
      (w'.spaces.target? 1 "x").isSome ∧ evalForm 20 1 importing importingWorld = .ok .void w' := by
  -- One evaluation for all that the theorem asks: starting the runtime is most of the work.
  have hruns : (importingWorld.runtime.config.maxExpansionDepth = none ∧
      coreForm? importingWorld.spaces ((Syntax.ident "require").introduce 1) = some .require) ∧
      endsWith (fun _ w' => (w'.spaces.target? 1 "x").isSome &&
        coreForm? w'.spaces ((Syntax.ident "require").introduce 1) = some .require)
        (requireModule 20 1 "/m" importingWorld) := by
    decide +kernel
  obtain ⟨⟨hlimit, hrequire⟩, hends⟩ := hruns
  obtain ⟨⟨⟩, w', hok, hcheck⟩ := exists_of_endsWith hends
  rw [Bool.and_eq_true, decide_eq_true_eq] at hcheck
  have halike := evalForm_require (c := {}) hlimit hrequire
    (show importing.subforms = [.ident "require", .atom {} (.str "/m")] from rfl) rfl rfl
    (show 3 ≤ 20 by decide) fun w₁ hok₁ => by
      rw [hok] at hok₁
      cases hok₁
      exact hcheck.2
  rw [hok] at halike
  refine ⟨w', hok, hcheck.1, ?_⟩
  generalize evalForm 20 1 importing importingWorld = r at halike ⊢
  cases halike with
  | ok hv _ => rw [hv]

end

end HygienicLisp
