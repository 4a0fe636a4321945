import HygienicLisp.Proofs.Renaming.Invariance
import HygienicLisp.Proofs.Scoping.Compile
import HygienicLisp.Proofs.Scoping.Expand

/-!
# Lexical addressing is lexical scope

Expansion resolves names through the ribs that binding forms leave on them, and the compiler counts
frames on its own.  For expressions without uses of transformers both agree with the nesting of the
forms as they are written: the code has every variable at the address of its nearest binder by name.
-/

namespace HygienicLisp

/-! ## References of addressed code -/

namespace Addressed

variable {scope : NameScope} {x : String} {code : Code}

/-- A reference leads to a slot of a frame exactly if the slot is the first of the name in the
frame and no frame inside of it has the name. -/
theorem eq_localRef_iff (h : Addressed scope (.ref x) code) (depth slot : Nat) :
    code = .localRef depth slot x ↔
      ∃ names, scope[depth]? = some names ∧ names.findIdx? (· = x) = some slot ∧
        ∀ inner ∈ scope.take depth, x ∉ inner := by
  rw [← address?_eq_some_iff]
  cases h with
  | localRef hx =>
      rw [hx]
      simp
  | topLevelRef hx hcode =>
      rw [hx]
      cases hcode <;> simp

/-- A reference is one at the level of namespaces exactly if no enclosing form binds the name. -/
theorem topLevelRef_iff (h : Addressed scope (.ref x) code) :
    TopLevelRef x code ↔ ∀ names ∈ scope, x ∉ names := by
  rw [← address?_eq_none_iff]
  cases h with
  | localRef hx =>
      rw [hx]
      exact ⟨nofun, nofun⟩
  | topLevelRef hx hcode => exact ⟨fun _ => hx, fun _ => hcode⟩

end Addressed

/-! ## Expansion and compilation -/

/-- If an expression without uses of transformers is expanded and compiled, the code has every
variable at the address of its nearest binder. -/
theorem compile_expand_addressed {w w₁ w₂ : World} {base : List Wrap} {loader : Loader}
    {ns : NamespaceId} {fuel depth : Nat} {context : ExpandContext} {stx expanded : Syntax}
    {code : Code} {t : PlainTree} {e : Expr} (hground : Ground w base) (hbare : stx.Bare)
    (hview : stx.view = placed base [] t) (hread : ReadAs (topValue? w.spaces base) [] t e)
    (hexpand : Expansion.expand loader ns fuel depth context stx w = .ok expanded w₁)
    (hcompile : compile ns expanded w₁ = .ok code w₂) : Addressed [] e code := by
  have hinside : Inside w [] w := ⟨.refl w, nofun⟩
  obtain ⟨hkeeps, T, hT, helab⟩ := yields_expand loader ns hground fuel depth .nil hinside
    (.source hread) ⟨hbare, hview⟩ context expanded w₁ hexpand
  have hreads : SameReads w.spaces w₁ := by
    rw [← hkeeps.spaces]
    exact ⟨rfl, fun _ _ => rfl⟩
  exact (gives_compileAt hground.plain _ .nil helab hT w₁ hreads code w₂ hcompile).2

/-- The expression `(lambda (lambda) (let loop ((x lambda)) (lambda loop x)))`, in which a variable
takes the place of a core form. -/
def shadowingLoop : PlainTree :=
  .sexp [.name "lambda", .sexp [.name "lambda"],
    .sexp [.name "let", .name "loop", .clauses [.name "x"] [.name "lambda"],
      .sexp [.name "lambda", .name "loop", .name "x"]]]

/-- The same, read. -/
def shadowingLoopSyntax : Syntax :=
  .sexp [.ident "lambda", .sexp [.ident "lambda"] none,
    .sexp [.ident "let", .ident "loop", .sexp [.sexp [.ident "x", .ident "lambda"] none] none,
      .sexp [.ident "lambda", .ident "loop", .ident "x"] none] none] none

/-- The same, as an expression. -/
def shadowingLoopExpr : Expr :=
  .lambda ["lambda"] false
    [.namedLet "loop" ["x"] [.ref "lambda"] [.apply (.ref "lambda") [.ref "loop", .ref "x"]]]

theorem readAs_shadowingLoop :
    ReadAs (topValue? holdWorld.spaces [.space 0]) [] shadowingLoop shadowingLoopExpr := by
  have hlambda : HeadIs (topValue? holdWorld.spaces [.space 0]) [] .lambda (.name "lambda") :=
    ⟨"lambda", rfl, rfl, eq_form_of_isForm (by decide +kernel)⟩
  have hlet : HeadIs (topValue? holdWorld.spaces [.space 0]) [["lambda"]] .letForm (.name "let") :=
    ⟨"let", rfl, by decide +kernel, eq_form_of_isForm (by decide +kernel)⟩
  have hplain : HeadPlain (topValue? holdWorld.spaces [.space 0]) [["x"], ["loop"], ["lambda"]]
      (.name "lambda") := by
    intro x hx hfree
    cases hx
    exact absurd hfree (by decide +kernel)
  have hcall : ReadAs (topValue? holdWorld.spaces [.space 0]) [["x"], ["loop"], ["lambda"]]
      (.sexp [.name "lambda", .name "loop", .name "x"])
      (.apply (.ref "lambda") [.ref "loop", .ref "x"]) :=
    .apply hplain (.ref "lambda") (.cons (.ref "loop") (.cons (.ref "x") .nil))
  have hloop := @ReadAs.namedLet (topValue? holdWorld.spaces [.space 0]) [["lambda"]] (.name "let")
    "loop" ["x"] _ _ _ _ hlet rfl (.cons (.ref "lambda") .nil) (.cons hcall .nil)
  exact @ReadAs.lambda _ _ _ ["lambda"] _ _ hlambda (.cons hloop .nil)

theorem shows_shadowingLoop :
    Shows (placed [.space 0] [] shadowingLoop) (shadowingLoopSyntax.introduce 0) := by
  have hname (x : String) : (Syntax.ident x).Bare := .atom (by simp) (by simp)
  have hsexp (items : List Syntax) : (Syntax.sexp items none).Bare ↔ ∀ stx ∈ items, stx.Bare := by
    refine ⟨fun h => ?_, .group none .sexp⟩
    cases h with
    | group _ _ hitems => exact hitems
  constructor
  · have hbare : shadowingLoopSyntax.Bare := by simp [shadowingLoopSyntax, hsexp, hname]
    exact hbare.addWrap _
  · rw [Syntax.introduce, Syntax.view_addWrap, shadowingLoopSyntax, shadowingLoop]
    simp only [Syntax.view_sexp, List.map_cons, List.map_nil, FormTree.push, FormTree.map_group,
      placed, PlainTree.sexp, PlainTree.clauses, List.zipWith]
    rfl

theorem ground_holdWorld : Ground holdWorld [.space 0] where
  plain := List.forall_mem_singleton.2 ⟨0, by decide, .inl rfl⟩
  lambda := eq_form_of_isForm (by decide +kernel)
  letrec := eq_form_of_isForm (by decide +kernel)

theorem shadowingLoop_addressed :
    ∃ expanded code w₁ w₂,
      Expansion.expand .exhausted 0 12 0 .expression (shadowingLoopSyntax.introduce 0) holdWorld =
        .ok expanded w₁ ∧
      compile 0 expanded w₁ = .ok code w₂ ∧ Addressed [] shadowingLoopExpr code := by
  have hruns : (match compileExpression .exhausted 0 12 shadowingLoopSyntax holdWorld with
      | .ok _ _ => true
      | .error _ _ => false) = true := by decide +kernel
  cases hrun : compileExpression .exhausted 0 12 shadowingLoopSyntax holdWorld with
  | ok code w₂ =>
      obtain ⟨expanded, w₁, hexpand, hcompile⟩ := RunM.bind_eq_ok.1 hrun
      exact ⟨expanded, code, w₁, w₂, hexpand, hcompile,
        compile_expand_addressed ground_holdWorld shows_shadowingLoop.bare shows_shadowingLoop.view
          readAs_shadowingLoop hexpand hcompile⟩
  | error halt w₂ =>
      rw [hrun] at hruns
      cases hruns

end HygienicLisp
