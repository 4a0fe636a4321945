import HygienicLisp.Proofs.Renaming.Compile
import HygienicLisp.Proofs.Renaming.Expand
import HygienicLisp.Proofs.Renaming.Operands

/-!
# Renaming the variables of a caller

The two halves put together: an expression in two spellings, which is expanded and then compiled,
gives code that is alike, or both fail, or both run out of steps.  The spellings may differ in the names of
local variables, whether the new names are temporaries of a template, names that it uses freely or
names of the namespace and of the kernel.

A template may put an operand into a quotation.  Then the name of a variable becomes data, and
the data differ (`quoted_operand_shows_name`), so code is compared up to the names that stand for
one another.  And a template may take an operand apart and have an identifier outside the scope of the
binder that the operand has for it.  Then the variable is none, and its name tells what the identifier
refers to (`operand_taken_apart_shows_name`).  Where operands are placed whole this does not happen
(`Setting.Renamed.of_places`).

Main statement: `compileExpression_renamed`.
-/

namespace HygienicLisp

/-- Expands an expression of the caller in a namespace and compiles the result. -/
def compileExpression (loader : Loader) (ns : NamespaceId) (fuel : Nat) (expression : Syntax) :
    RunM Code := do
  let expanded ← Expansion.expand loader ns fuel 0 .expression (expression.introduce ns)
  compile ns expanded

theorem Setting.twins_world (σ : Setting) : σ.Twins σ.world.nextMark σ.world σ.world where
  left := ⟨rfl, rfl, List.prefix_rfl, Nat.le_refl _⟩
  right := ⟨rfl, rfl, List.prefix_rfl, Nat.le_refl _⟩
  drawn := Nat.le_refl _
  nextMark := rfl
  nextRib := rfl

/-- Expressions that correspond compile to code that is alike, or both fail, or both run out of steps. -/
theorem Setting.Corresponds.compileExpression {σ : Setting} (hσ : σ.Ready) {T : TwinTree}
    (hT : σ.Corresponds σ.world.nextMark [] T) {expression₁ expression₂ : Syntax}
    (hspells : Spells T (expression₁.introduce σ.home) (expression₂.introduce σ.home))
    (loader : Loader) (fuel : Nat) :
    Outcomes σ.Reading (Code.Alike σ.Names)
      (HygienicLisp.compileExpression loader σ.home fuel expression₁ σ.world)
      (HygienicLisp.compileExpression loader σ.home fuel expression₂ σ.world) := by
  have hexpand := agree_expand hσ loader σ.home fuel 0 .nil hT hspells
  refine Outcomes.bind (hexpand σ.world σ.world σ.twins_world) fun out₁ out₂ w₁ w₂ hw hout => ?_
  obtain ⟨U, hU, hspellsOut⟩ := hout
  exact agree_compile σ.home hU hspellsOut w₁ w₂ hw.reading

/-- Where transformers do nothing but fill templates, an expression and the same expression with
its local variables renamed by an injective function compile to code that is alike, or expansion and
compilation fail for both, or run out of steps for both. -/
theorem compileExpression_renamed {σ : Setting} (hσ : σ.Ready) {ρ : String → String}
    (hρ : Function.Injective ρ) (hrenames : ∀ x, σ.renames x (ρ x)) {t : TextTree}
    (ht : σ.Renamed ρ [] t) {expression₁ expression₂ : Syntax}
    (hspells : Spells (σ.placed [] t) (expression₁.introduce σ.home) (expression₂.introduce σ.home))
    (loader : Loader) (fuel : Nat) :
    Outcomes σ.Reading (Code.Alike σ.Names)
      (compileExpression loader σ.home fuel expression₁ σ.world)
      (compileExpression loader σ.home fuel expression₂ σ.world) :=
  (ht.corresponds hρ hrenames .nil le_rfl).compileExpression hσ hspells loader fuel

/-! ## A transformer that puts its operand behind fixed syntax -/

/-- The code of a call of a primitive. -/
def callPrimitive (p : Primitive) (operands : List Code) : Code :=
  .apply (.constant (.procedure 0 (.native p.arity p))) operands (.ident p.name)

/-- The code that takes a part from the form that other code has as its value. -/
def partCode (i : Int64) (form : Code) : Code :=
  callPrimitive .elt [callPrimitive .syntaxSubforms [form], .constant (.int i)]

/-- The code that takes the first operand from a form. -/
def operandCode : Code := partCode 1 (.localRef 0 0 "stx")

/-- The code that puts syntax and the first operand together. -/
def joinCode (literals : List Syntax) : Code :=
  callPrimitive .sexp (literals.map (fun stx => .constant (.stx stx)) ++ [operandCode])

/-- The procedure that makes a form of the given syntax and of the first operand of its input:
`(lambda (stx) (datum_to_syntax (sexp LITERAL... (elt (syntax_subforms stx) 1))))`. -/
def wrapOperand (literals : List Syntax) : Procedure :=
  .closure 1 false (callPrimitive .datumToSyntax [joinCode literals]) ⟨0, none⟩

/-- The template of `wrapOperand`. -/
def wrapTemplate (literals : List Syntax) : Assembly :=
  .join none .sexp (literals.map .prior ++ [.input [.subform 1]])

theorem output?_wrapTemplate (literals : List Syntax) (stx : Syntax) :
    (wrapTemplate literals).output? stx =
      (stx.subforms?.bind (·[1]?)).map fun operand => .group {} .sexp (literals ++ [operand]) := by
  have hall : Assembly.outputAll? stx (literals.map .prior ++ [.input [.subform 1]]) =
      (stx.subforms?.bind (·[1]?)).map fun operand => literals ++ [operand] := by
    induction literals with
    | nil =>
        simp only [List.map_nil, List.nil_append, Assembly.outputAll?, Assembly.output?, extract?,
          Part.of?]
        cases stx.subforms?.bind (·[1]?) <;> rfl
    | cons literal literals ih =>
        simp only [List.map_cons, List.cons_append, Assembly.outputAll?, Assembly.output?, ih]
        cases stx.subforms?.bind (·[1]?) <;> rfl
  rw [wrapTemplate, Assembly.output?, hall, Option.map_map]
  rfl

/-- The parts of a form get labels, and stay the same otherwise. -/
theorem exists_mapM_stampSyntax (parts : List Syntax) (w : World) :
    ∃ copies label, parts.mapM stampSyntax w = .ok copies { w with nextLabel := label } ∧
      copies.map Syntax.unlabelled = parts.map Syntax.unlabelled := by
  induction parts generalizing w with
  | nil => exact ⟨[], w.nextLabel, rfl, rfl⟩
  | cons stx rest ih =>
      obtain ⟨copies, label, hrest, hsame⟩ := ih { w with nextLabel := (stx.stamp w.nextLabel).2 }
      refine ⟨(stx.stamp w.nextLabel).1 :: copies, label, ?_, ?_⟩
      · rw [List.mapM_cons, RunM.bind_apply, stampSyntax_apply]
        simp only [RunM.bind_apply, hrest, RunM.pure_apply]
      · rw [List.map_cons, List.map_cons, Syntax.unlabelled_stamp, hsame]

section

variable {fuel : Nat} {p : Primitive} {operands : List Code} {env : Env} {args : List Value}
  {v : Value} {w w₁ w₂ : World}

theorem eval_callPrimitive (hargs : evalAll (eval (fuel + 1)) env operands w = .ok args w₁)
    (harity : p.arity.accepts args.length) :
    eval (fuel + 2) (callPrimitive p operands) env w =
      (p.call args).mapError (atCall (.ident p.name)) w₁ := by
  have hconstant : eval (fuel + 1) (.constant (.procedure 0 (.native p.arity p))) env w =
      .ok (.procedure 0 (.native p.arity p)) w := rfl
  have hcheck (who : String) : Arity.check p.arity who args.length = .ok () := by
    rw [Arity.check, if_pos harity]
  rw [callPrimitive, eval, step]
  simp only [RunM.bind_apply, hconstant, hargs, RunM.mapError, applyStep, RunM.get_apply,
    Procedure.arity, hcheck, RunM.ofExcept_ok, RunM.pure_apply]
  cases p.call args w₁ with
  | ok v w₂ => rfl
  | error halt w₂ => cases halt <;> rfl

theorem eval_callPrimitive_of_error {halt : Halt}
    (hargs : evalAll (eval (fuel + 1)) env operands w = .error halt w₁) :
    eval (fuel + 2) (callPrimitive p operands) env w = .error halt w₁ := by
  have hconstant : eval (fuel + 1) (.constant (.procedure 0 (.native p.arity p))) env w =
      .ok (.procedure 0 (.native p.arity p)) w := rfl
  rw [callPrimitive, eval, step]
  simp only [RunM.bind_apply, hconstant, hargs]

/-- The values of quoted syntax and of one more expression. -/
theorem evalAll_literals (literals : List Syntax) (code : Code) :
    evalAll (eval (fuel + 1)) env (literals.map (fun stx => .constant (.stx stx)) ++ [code]) w =
      match eval (fuel + 1) code env w with
      | .ok v w' => .ok (literals.map .stx ++ [v]) w'
      | .error halt w' => .error halt w' := by
  induction literals with
  | nil =>
      simp only [List.map_nil, List.nil_append, evalAll, RunM.bind_apply, RunM.pure_apply]
      cases eval (fuel + 1) code env w <;> rfl
  | cons literal literals ih =>
      have hconstant : eval (fuel + 1) (.constant (.stx literal)) env w = .ok (.stx literal) w := rfl
      simp only [List.map_cons, List.cons_append, evalAll, RunM.bind_apply, RunM.pure_apply,
        hconstant, ih]
      cases eval (fuel + 1) code env w <;> rfl

end

section

variable {fuel : Nat} {env : Env} {literals : List Syntax} {input : Syntax} {w : World}

theorem eval_joinCode_of_error {halt : Halt} {w' : World} (literals : List Syntax)
    (h : eval (fuel + 1) operandCode env w = .error halt w') :
    eval (fuel + 2) (joinCode literals) env w = .error halt w' :=
  eval_callPrimitive_of_error (by rw [evalAll_literals, h])

theorem eval_wrapCode_of_error (fuel : Nat) {halt : Halt} {w' : World}
    (h : eval (fuel + 1) operandCode env w = .error halt w') :
    eval (fuel + 3) (callPrimitive .datumToSyntax [joinCode literals]) env w = .error halt w' := by
  refine eval_callPrimitive_of_error ?_
  rw [evalAll, RunM.bind_apply, eval_joinCode_of_error literals h]

/-- Five steps are needed for the whole code. -/
theorem eval_wrapCode_of_lt (hfuel : fuel < 5) (literals : List Syntax) (env : Env) (w : World) :
    ∃ w', eval fuel (callPrimitive .datumToSyntax [joinCode literals]) env w = .error .outOfFuel w' := by
  match fuel, hfuel with
  | 0, _ => exact ⟨_, rfl⟩
  | 1, _ => exact ⟨_, rfl⟩
  | 2, _ => exact ⟨_, rfl⟩
  | 3, _ => exact ⟨_, eval_wrapCode_of_error 0 rfl⟩
  | 4, _ => exact ⟨_, eval_wrapCode_of_error 1 rfl⟩

/-- The value of the code for a part is the part, with a label of its own. -/
theorem eval_partCode {i : Int64} {n : Nat} (hi : i.toInt = n) {code : Code} {parts : List Syntax}
    {w₁ : World} (hcode : eval (fuel + 1) code env w = .ok (.stx input) w₁)
    (hparts : input.subforms? = some parts) :
    ∃ (copies : List Syntax) (label : Nat),
      copies.map Syntax.unlabelled = parts.map Syntax.unlabelled ∧
      match copies[n]? with
      | some copy => eval (fuel + 3) (partCode i code) env w = .ok (.stx copy) { w₁ with nextLabel := label }
      | none => ∃ e w', eval (fuel + 3) (partCode i code) env w = .error (.error e) w' := by
  obtain ⟨copies, label, hcopies, hsame⟩ := exists_mapM_stampSyntax parts w₁
  refine ⟨copies, label, hsame, ?_⟩
  have hform : evalAll (eval (fuel + 1)) env [code] w = .ok [.stx input] w₁ := by
    simp only [evalAll, RunM.bind_apply, hcode, RunM.pure_apply]
  have hsubforms : eval (fuel + 2) (callPrimitive .syntaxSubforms [code]) env w =
      .ok (.list (copies.map .stx)) { w₁ with nextLabel := label } := by
    rw [eval_callPrimitive hform rfl]
    have hcall : Primitive.call .syntaxSubforms [.stx input] w₁ =
        .ok (.list (copies.map .stx)) { w₁ with nextLabel := label } := by
      change syntaxSubforms [.stx input] w₁ = _
      have hfound : (input.subforms? <|> input.elements?) = some parts := by rw [hparts]; rfl
      simp only [syntaxSubforms, syntaxArgument, argument, RunM.bind_apply, List.getElem?_cons_zero,
        RunM.pure_apply, hfound, hcopies]
    rw [RunM.mapError, hcall]
  have hargs : evalAll (eval (fuel + 2)) env [callPrimitive .syntaxSubforms [code],
      .constant (.int i)] w = .ok [.list (copies.map .stx), .int i] { w₁ with nextLabel := label } := by
    have hconstant (w' : World) : eval (fuel + 2) (.constant (.int i)) env w' = .ok (.int i) w' := rfl
    simp only [evalAll, RunM.bind_apply, hsubforms, hconstant, RunM.pure_apply]
  have hcall : eval (fuel + 3) (partCode i code) env w = (Primitive.call .elt
      [.list (copies.map .stx), .int i]).mapError (atCall (.ident Primitive.elt.name))
        { w₁ with nextLabel := label } := eval_callPrimitive hargs rfl
  have hitem : (if i.toInt < 0 then none else (copies.map Value.stx)[i.toInt.toNat]?) =
      copies[n]?.map .stx := by
    rw [hi, if_neg (by omega), Int.toNat_natCast, List.getElem?_map]
  have helt {copy : Syntax} (h : copies[n]? = some copy) (names : Names) :
      Collection.elt names (.list (copies.map .stx)) (.int i) = .ok (.stx copy) := by
    simp only [Collection.elt, Collection.items, bind, Except.bind, hitem, h]
    rfl
  have hrange (h : copies[n]? = none) (names : Names) :
      Collection.elt names (.list (copies.map .stx)) (.int i) =
        .error (.of (.contract (.indexRange i.toInt copies.length))) := by
    simp only [Collection.elt, Collection.items, bind, Except.bind, hitem, h, List.length_map]
    rfl
  rw [hcall]
  cases h : copies[n]? with
  | some copy =>
      simp only [RunM.mapError, Primitive.call, RunM.bind_apply, RunM.get_apply, argument,
        List.getElem?_cons_zero, List.getElem?_cons_succ, RunM.pure_apply, helt h, RunM.ofExcept_ok]
  | none =>
      simp only [RunM.mapError, Primitive.call, RunM.bind_apply, RunM.get_apply, argument,
        List.getElem?_cons_zero, List.getElem?_cons_succ, RunM.pure_apply, hrange h,
        RunM.ofExcept_error, RunM.fail_apply]
      exact ⟨_, _, rfl⟩

/-- The code for a part that is there returns it. -/
theorem eval_partCode_of_part {i : Int64} {n : Nat} (hi : i.toInt = n) {code : Code} {found : Syntax}
    {w₁ : World} (hcode : eval (fuel + 1) code env w = .ok (.stx input) w₁)
    (hfound : (Part.subform n).of? input = some found) :
    ∃ copy w₂, eval (fuel + 3) (partCode i code) env w = .ok (.stx copy) w₂ ∧
      copy.unlabelled = found.unlabelled := by
  obtain ⟨parts, hparts, hpart⟩ := Option.bind_eq_some_iff.1 hfound
  obtain ⟨copies, label, hsame, hvalue⟩ := eval_partCode hi hcode hparts
  have hcopy : copies[n]?.map Syntax.unlabelled = some found.unlabelled := by
    rw [← List.getElem?_map, hsame, List.getElem?_map, hpart, Option.map_some]
  obtain ⟨copy, hcopies, hlabels⟩ := Option.map_eq_some_iff.1 hcopy
  rw [hcopies] at hvalue
  exact ⟨copy, _, hvalue, hlabels⟩

/-- A form made of syntax and of an operand is put together without a context. -/
theorem toSyntaxAll_stx (items : List Syntax) :
    Value.toSyntaxAll [] none (items.map .stx) = .ok items := by
  induction items with
  | nil => rfl
  | cons stx rest ih =>
      rw [List.map_cons, Value.toSyntaxAll, ih]
      rfl

theorem call_datumToSyntax (items : List Syntax) (w : World) :
    Primitive.call .datumToSyntax [.group .sexp (items.map .stx)] w =
      .ok (.stx ((Syntax.group {} .sexp items).stamp w.nextLabel).1)
        { w with nextLabel := ((Syntax.group {} .sexp items).stamp w.nextLabel).2 } := by
  have hdatum : Syntax.ofDatum (.group .sexp (items.map .stx)) none = .ok (.group {} .sexp items) := by
    rw [Syntax.ofDatum, Value.toSyntax, toSyntaxAll_stx]
    rfl
  change datumToSyntax [.group .sexp (items.map .stx)] w = _
  simp only [datumToSyntax, argument, contextArgument, List.getElem?_cons_zero, RunM.bind_apply,
    RunM.pure_apply, hdatum, RunM.ofExcept_ok, stampSyntax_apply]

/-- The value of the whole code is the literal syntax with the operand behind it. -/
theorem eval_wrapCode {copy : Syntax} {label : Nat}
    (h : eval (fuel + 3) operandCode env w = .ok (.stx copy) { w with nextLabel := label }) :
    eval (fuel + 5) (callPrimitive .datumToSyntax [joinCode literals]) env w =
      .ok (.stx ((Syntax.group {} .sexp (literals ++ [copy])).stamp label).1)
        { w with nextLabel := ((Syntax.group {} .sexp (literals ++ [copy])).stamp label).2 } := by
  have hitems : literals.map Value.stx ++ [.stx copy] = (literals ++ [copy]).map .stx := by simp
  have hargs : evalAll (eval (fuel + 3)) env
      (literals.map (fun stx => .constant (.stx stx)) ++ [operandCode]) w =
        .ok ((literals ++ [copy]).map .stx) { w with nextLabel := label } := by
    rw [evalAll_literals, h, ← hitems]
  have hjoin : eval (fuel + 4) (joinCode literals) env w =
      .ok (.group .sexp ((literals ++ [copy]).map .stx)) { w with nextLabel := label } := by
    rw [joinCode, eval_callPrimitive hargs rfl]
    rfl
  have hlast : evalAll (eval (fuel + 4)) env [joinCode literals] w =
      .ok [.group .sexp ((literals ++ [copy]).map .stx)] { w with nextLabel := label } := by
    simp only [evalAll, RunM.bind_apply, hjoin, RunM.pure_apply]
  rw [eval_callPrimitive hlast rfl, RunM.mapError, call_datumToSyntax]

end

/-- `wrapOperand` does nothing but fill its template, in five steps. -/
theorem fillsWithin_wrapOperand {literals : List Syntax} (hliterals : ∀ stx ∈ literals, stx.Bare)
    (w₀ : World) : (wrapOperand literals).FillsWithin w₀ (wrapTemplate literals) fun _ => 5 := by
  intro fuel id input w hw hinput
  obtain ⟨parts, hparts⟩ : ∃ parts, input.subforms? = some parts := by
    unfold Syntax.isSexp at hinput
    split at hinput
    · exact ⟨_, rfl⟩
    · cases hinput
  -- The body is run in a frame that holds the form.
  have hbody : applyProcedure fuel (.procedure id (wrapOperand literals)) [.stx input] w =
      eval fuel (callPrimitive .datumToSyntax [joinCode literals]) ⟨0, some w.frames.size⟩
        { w with frames := w.frames.push ⟨#[some (.stx input)], none⟩ } := rfl
  have henough : (5 : ℕ∞) ≤ fuel ↔ 5 ≤ fuel := Nat.cast_le (α := ℕ∞) (m := 5)
  rw [hbody, output?_wrapTemplate, hparts, Option.bind_some, henough]
  by_cases hfuel : fuel < 5
  · obtain ⟨w', herror⟩ := eval_wrapCode_of_lt hfuel literals ⟨0, some w.frames.size⟩
      { w with frames := w.frames.push ⟨#[some (.stx input)], none⟩ }
    rw [herror]
    exact .outOfFuel (Nat.not_le_of_lt hfuel)
  · have hfuel := Nat.le_of_not_lt hfuel
    obtain ⟨fuel, rfl⟩ := Nat.exists_eq_add_of_le' hfuel
    have hlocal : eval (fuel + 1) (.localRef 0 0 "stx") ⟨0, some w.frames.size⟩
        { w with frames := w.frames.push ⟨#[some (.stx input)], none⟩ } =
          .ok (.stx input) { w with frames := w.frames.push ⟨#[some (.stx input)], none⟩ } := by
      simp [eval, step, getLocal, frameAt, frameUp, RunM.bind_apply]
    obtain ⟨copies, label, hsame, hoperand⟩ :=
      eval_partCode (i := 1) (n := 1) (by decide) hlocal hparts
    have hcopy : copies[1]?.map Syntax.unlabelled = parts[1]?.map Syntax.unlabelled := by
      rw [← List.getElem?_map, ← List.getElem?_map, hsame]
    cases hcopies : copies[1]? with
    | none =>
        rw [hcopies] at hoperand hcopy
        obtain ⟨e, w', herror⟩ := hoperand
        rw [eval_wrapCode_of_error (fuel + 2) herror, Option.map_eq_none_iff.1 hcopy.symm]
        exact .error hfuel rfl
    | some copy =>
        rw [hcopies] at hoperand hcopy
        obtain ⟨operand, hfound, hlabels⟩ := Option.map_eq_some_iff.1 hcopy.symm
        rw [eval_wrapCode hoperand, hfound]
        have hviews : copy.view = operand.view := by
          rw [← copy.view_unlabelled, ← hlabels, operand.view_unlabelled]
        refine .ok hfuel ⟨_, _, rfl, rfl, ?_, fun hbare => ?_, ?_, rfl, rfl⟩
        · rw [Syntax.view_stamp]
          have hsexp (last : Syntax) : (Syntax.group {} .sexp (literals ++ [last])).view =
              .group .sexp (literals.map Syntax.view ++ [last.view]) := by
            rw [← List.map_singleton, ← List.map_append]
            exact Syntax.view_sexp _ none
          rw [hsexp, hsexp, hviews]
        · have hoperands := Syntax.Carries.subforms? hbare hparts operand (List.mem_of_getElem? hfound)
          refine Syntax.Carries.stamp (Syntax.Bare.group none .sexp ?_) _
          refine List.forall_mem_append.2 ⟨hliterals, List.forall_mem_singleton.2 ?_⟩
          refine .of_unlabelled ?_
          rw [← hlabels]
          exact hoperands.unlabelled
        · refine ⟨hw.spaces, hw.runtime, hw.frames.trans ?_, hw.nextMark⟩
          simp

/-! ## A world with two transformers -/

/-- An identifier of the session. -/
def sessionId (name : String) : Syntax := .atom { wraps := [.space 0] } (.symbol name)

/-- The template `(let ((t 1)) OPERAND)`, with a temporary around the operand. -/
def temporary : List Syntax :=
  [sessionId "let", .group {} .sexp [.group {} .sexp [sessionId "t", .atom {} (.int 1)]]]

/-- The cells for definitions of a namespace. -/
def definedCells (ns : NamespaceId) (home : ModuleId) (names : List String) : Array Entry :=
  (names.zipIdx.map fun (name, address) =>
    ⟨⟨name, .free name, .empty⟩, .defined ⟨name, address, ns, home⟩⟩).toArray

/-- A session with `lambda`, `let` and `quote`, a transformer `hold` that puts its operand inside
the scope of a temporary and a transformer `spell` that quotes it, and the kernel. -/
def holdWorld : World where
  spaces := #[
    { home := ⟨"/top"⟩
      kind := .topLevel
      entries := definedCells 0 ⟨"/top"⟩ ["lambda", "let", "quote", "hold", "spell"]
      definitionCount := 5
      values := #[some (.form .lambda), some (.form .letForm), some (.form .quote),
        some (.transformer 1 0 (wrapOperand temporary)),
        some (.transformer 3 2 (wrapOperand [sessionId "quote"]))] },
    { home := ⟨"#%kernel"⟩
      kind := .module
      entries := definedCells 1 ⟨"#%kernel"⟩ ["lambda", "letrec"]
      definitionCount := 2
      values := #[some (.form .lambda), some (.form .letrec)] }]
  runtime := { kernel := ⟨⟨"#%kernel"⟩, 1, []⟩ }

/-- The renaming that exchanges two names. -/
def exchange (x y z : String) : String := if z = x then y else if z = y then x else z

theorem exchange_left (x y : String) : exchange x y x = y := if_pos rfl

theorem exchange_injective (x y : String) : Function.Injective (exchange x y) := by
  intro a b h
  unfold exchange at h
  split_ifs at h <;> grind

open Classical in
/-- The comparison of expressions of the session in which `t` stands for `x`. -/
noncomputable def holdSetting : Setting where
  world := holdWorld
  home := 0
  renames x y := y = exchange "x" "t" x
  template? p :=
    if p = wrapOperand temporary then some (wrapTemplate temporary)
    else if p = wrapOperand [sessionId "quote"] then some (wrapTemplate [sessionId "quote"])
    else none

theorem holdWorld_value {ns : NamespaceId} {space : Namespace} {address : Nat} {v : Value}
    (hspace : holdWorld.spaces[ns]? = some space) (hv : space.value? address = some v) :
    (∃ f, v = .form f) ∨ v = .transformer 1 0 (wrapOperand temporary) ∨
      v = .transformer 3 2 (wrapOperand [sessionId "quote"]) := by
  match ns, address, hspace with
  | 0, 0, rfl => exact .inl ⟨_, (Option.some.inj hv).symm⟩
  | 0, 1, rfl => exact .inl ⟨_, (Option.some.inj hv).symm⟩
  | 0, 2, rfl => exact .inl ⟨_, (Option.some.inj hv).symm⟩
  | 0, 3, rfl => exact .inr (.inl (Option.some.inj hv).symm)
  | 0, 4, rfl => exact .inr (.inr (Option.some.inj hv).symm)
  | 0, _ + 5, rfl => cases hv
  | 1, 0, rfl => exact .inl ⟨_, (Option.some.inj hv).symm⟩
  | 1, 1, rfl => exact .inl ⟨_, (Option.some.inj hv).symm⟩
  | 1, _ + 2, rfl => cases hv

theorem holdSetting_permits (a : ContextAtom) : holdSetting.Permits a := by
  intro id procedureId p h
  obtain ⟨space, address, ns, hspace, hv⟩ : ∃ space address ns,
      holdWorld.spaces[ns]? = some space ∧
        Namespace.value? space address = some (.transformer id procedureId p) := by
    rw [Spaces.leafValue?] at h
    split at h
    · obtain ⟨d, -, -, hvalue⟩ := Spaces.lookup?_eq_some.1 h
      rw [Spaces.value?] at hvalue
      split at hvalue
      · next space hspace => exact ⟨space, d.address, d.owner, hspace, hvalue⟩
      · cases hvalue
    · cases h
  rcases holdWorld_value hspace hv with ⟨f, hf⟩ | hold | spell
  · cases hf
  · cases hold
    simp [holdSetting]
  · cases spell
    by_cases hsame : wrapOperand [sessionId "quote"] = wrapOperand temporary <;>
      simp [holdSetting, hsame]

/-- Every template of the setting is one of the two that are in the world. -/
theorem holdSetting_template {p : Procedure} {a : Assembly} (h : holdSetting.template? p = some a) :
    ∃ literals, p = wrapOperand literals ∧ a = wrapTemplate literals ∧
      (literals = temporary ∨ literals = [sessionId "quote"]) := by
  simp only [holdSetting] at h
  split at h
  · next hp => exact ⟨temporary, hp, (Option.some.inj h).symm, .inl rfl⟩
  · split at h
    · next hp => exact ⟨_, hp, (Option.some.inj h).symm, .inr rfl⟩
    · cases h

theorem sessionId_bare (name : String) : (sessionId name).Bare := .atom (by simp) (by simp)

theorem bare_of_mem_literals {literals : List Syntax}
    (h : literals = temporary ∨ literals = [sessionId "quote"]) : ∀ stx ∈ literals, stx.Bare := by
  have hclauses : (Syntax.group {} .sexp [.group {} .sexp [sessionId "t", .atom {} (.int 1)]]).Bare := by
    refine .group none .sexp (List.forall_mem_singleton.2 (.group none .sexp ?_))
    refine List.forall_mem_cons.2 ⟨sessionId_bare "t", List.forall_mem_singleton.2 ?_⟩
    exact .atom (by simp) (by simp)
  rcases h with rfl | rfl
  · exact List.forall_mem_cons.2 ⟨sessionId_bare "let", List.forall_mem_singleton.2 hclauses⟩
  · exact List.forall_mem_singleton.2 (sessionId_bare "quote")

/-- An atom of the session may stand in a template. -/
theorem holdSetting_quoted {a : ContextAtom} (h : wrapMarks a.wraps = .empty) : holdSetting.Quoted a := by
  intro m _
  refine ⟨?_, holdSetting_permits _⟩
  rw [h]
  exact List.not_mem_nil

theorem holdSetting_literals {literals : List Syntax}
    (h : literals = temporary ∨ literals = [sessionId "quote"]) :
    (wrapTemplate literals).Literals holdSetting.Quoted := by
  have hname (name : String) : (sessionId name).view.All holdSetting.Quoted := by
    rw [sessionId, Syntax.view_atom]
    exact .leaf (holdSetting_quoted rfl)
  refine .join (List.forall_mem_append.2 ⟨fun a ha => ?_, List.forall_mem_singleton.2 .input⟩)
  obtain ⟨stx, hstx, rfl⟩ := List.mem_map.1 ha
  rcases h with rfl | rfl
  · rcases List.mem_pair.1 hstx with rfl | rfl
    · exact .prior (hname "let")
    · refine .prior ?_
      have hclause : (Syntax.sexp [sessionId "t", .atom {} (.int 1)] none).view.All
          holdSetting.Quoted := by
        rw [Syntax.view_sexp]
        refine .group (List.forall_mem_cons.2 ⟨hname "t", List.forall_mem_singleton.2 ?_⟩)
        rw [Syntax.view_atom]
        exact .leaf (holdSetting_quoted rfl)
      change (Syntax.sexp [.sexp [sessionId "t", .atom {} (.int 1)] none] none).view.All _
      rw [Syntax.view_sexp]
      exact .group (List.forall_mem_singleton.2 hclause)
  · rw [List.mem_singleton.1 hstx]
    exact .prior (hname "quote")

/-- Whether a value is the given core form. -/
def isForm (f : CoreForm) : Option Value → Bool
  | some (.form g) => g = f
  | _ => false

theorem eq_form_of_isForm {f : CoreForm} {v : Option Value} (h : isForm f v = true) :
    v = some (.form f) := by
  match v, h with
  | some (.form g), h =>
      obtain rfl : g = f := by simpa [isForm] using h
      rfl

/-- What names of the session and of the kernel mean. -/
theorem holdWorld_meanings :
    isForm .lambda (holdWorld.spaces.leafValue? ⟨[.moduleRename 1], .symbol "lambda"⟩) ∧
      isForm .letrec (holdWorld.spaces.leafValue? ⟨[.moduleRename 1], .symbol "letrec"⟩) ∧
      isForm .lambda (holdWorld.spaces.leafValue? ⟨[.space 0], .symbol "lambda"⟩) ∧
      isForm .letForm (holdWorld.spaces.leafValue? ⟨[.space 0], .symbol "let"⟩) ∧
      holdWorld.spaces.leafBinding ⟨[.space 0], .symbol "hold"⟩ = some (.cell ⟨0, 3⟩) := by
  decide +kernel

theorem holdSetting_ready : holdSetting.Ready where
  kernel := ⟨by simp [holdSetting, holdWorld], eq_form_of_isForm holdWorld_meanings.1,
    eq_form_of_isForm holdWorld_meanings.2.1⟩
  fills p a h := by
    obtain ⟨literals, rfl, rfl, hliterals⟩ := holdSetting_template h
    exact ⟨_, fillsWithin_wrapOperand (bare_of_mem_literals hliterals) _⟩
  quoted p a h := by
    obtain ⟨literals, rfl, rfl, hliterals⟩ := holdSetting_template h
    exact holdSetting_literals hliterals

/-- The expression `(lambda (NAME) (HEAD NAME))`. -/
def useInLambda (head name : String) : Syntax :=
  .sexp [.ident "lambda", .sexp [.ident name] none, .sexp [.ident head, .ident name] none] none

/-- The expression in two spellings. -/
def useTwin (head x y : String) : TextTree :=
  .group .sexp [.leaf (.symbol "lambda", .symbol "lambda"), .group .sexp [.leaf (.symbol x, .symbol y)],
    .group .sexp [.leaf (.symbol head, .symbol head), .leaf (.symbol x, .symbol y)]]

theorem spells_useTwin (head x y : String) :
    Spells (holdSetting.placed [] (useTwin head x y)) ((useInLambda head x).introduce 0)
      ((useInLambda head y).introduce 0) := by
  have hname (name : String) : (Syntax.ident name).Bare := .atom (by simp) (by simp)
  have hbare (name : String) : (useInLambda head name).Bare := by
    refine .group none .sexp ?_
    simp only [List.forall_mem_cons, List.not_mem_nil, false_implies, implies_true, and_true]
    refine ⟨hname _, .group none .sexp ?_, .group none .sexp ?_⟩ <;> simp [hname]
  have hview (name : String) : ((useInLambda head name).introduce 0).view =
      .group .sexp [.leaf ⟨[.space 0], .symbol "lambda"⟩, .group .sexp [.leaf ⟨[.space 0], .symbol name⟩],
        .group .sexp [.leaf ⟨[.space 0], .symbol head⟩, .leaf ⟨[.space 0], .symbol name⟩]] := by
    rw [Syntax.introduce, Syntax.view_addWrap, useInLambda]
    simp only [Syntax.view_sexp, List.map_cons, List.map_nil, FormTree.push, FormTree.map_group]
    rfl
  refine ⟨(hbare x).addWrap _, (hbare y).addWrap _, ?_, ?_⟩
  · rw [hview, useTwin, Setting.placed, FormTree.left, FormTree.map_map]
    simp only [FormTree.map_group, List.map_cons, List.map_nil, FormTree.map_leaf]
    rfl
  · rw [hview, useTwin, Setting.placed, FormTree.right, FormTree.map_map]
    simp only [FormTree.map_group, List.map_cons, List.map_nil, FormTree.map_leaf]
    rfl

theorem holdSetting_lambda :
    holdSetting.HeadOf (exchange "x" "t") .lambda [] (.symbol "lambda", .symbol "lambda") :=
  ⟨.other (by simp) (by simp) (holdSetting_permits _),
    eq_form_of_isForm holdWorld_meanings.2.2.1⟩

theorem formals_exchange :
    Setting.Formals (exchange "x" "t") (.group .sexp [.leaf (.symbol "x", .symbol "t")]) ["x"] := by
  have heach := Setting.Formals.each (ρ := exchange "x" "t") ["x"]
  rwa [List.map_singleton, Setting.binder, exchange_left] at heach

theorem holdSetting_variable :
    holdSetting.Kept (exchange "x" "t") ["x"] (.symbol "x", .symbol "t") := by
  have hrenamed : holdSetting.Kept (exchange "x" "t") ["x"]
      (.symbol "x", .symbol (exchange "x" "t" "x")) := .renamed List.mem_cons_self
  rwa [exchange_left] at hrenamed

/-- The new name of the variable is that of the temporary. -/
theorem renamed_useTwin : holdSetting.Renamed (exchange "x" "t") [] (useTwin "hold" "x" "t") := by
  have hhold : holdSetting.Kept (exchange "x" "t") ["x"] (.symbol "hold", .symbol "hold") := by
    refine .other (by decide) (List.forall_mem_singleton.2 ?_) (holdSetting_permits _)
    rw [exchange_left]
    decide
  have huse : holdSetting.Renamed (exchange "x" "t") ["x"]
      (.group .sexp [.leaf (.symbol "hold", .symbol "hold"), .leaf (.symbol "x", .symbol "t")]) := by
    refine .closed (.group (List.forall_mem_cons.2 ⟨.leaf hhold, ?_⟩))
    exact List.forall_mem_singleton.2 (.leaf holdSetting_variable)
  exact .lambda holdSetting_lambda formals_exchange (List.forall_mem_singleton.2 huse)

/-- The name that the code of a procedure of one argument returns as a constant. -/
def returnedName? : EStateM.Result Halt World Code → Option String
  | .ok (.lambda none 1 false (.constant (.atom (.symbol name)))) _ => some name
  | _ => none

/-- How expressions of the session are compiled. -/
theorem holdWorld_compiles :
    endsWith (fun _ _ => true)
        (compileExpression .exhausted 0 9 (useInLambda "hold" "x") holdWorld) ∧
      ∀ name ∈ ["x", "t"], returnedName?
        (compileExpression .exhausted 0 9 (useInLambda "spell" name) holdWorld) = some name := by
  decide +kernel

theorem compileExpression_hold_renamed :
    ∃ code₁ code₂ w₁ w₂,
      compileExpression .exhausted 0 9 (useInLambda "hold" "x") holdWorld = .ok code₁ w₁ ∧
      compileExpression .exhausted 0 9 (useInLambda "hold" "t") holdWorld = .ok code₂ w₂ ∧
      code₁.Alike holdSetting.Names code₂ := by
  have hrenamed := compileExpression_renamed holdSetting_ready (exchange_injective "x" "t") (fun _ => rfl)
    renamed_useTwin (spells_useTwin "hold" "x" "t") .exhausted 9
  change Outcomes _ _ (compileExpression .exhausted 0 9 (useInLambda "hold" "x") holdWorld)
    (compileExpression .exhausted 0 9 (useInLambda "hold" "t") holdWorld) at hrenamed
  obtain ⟨code₁, w₁, h₁, -⟩ := exists_of_endsWith holdWorld_compiles.1
  rw [h₁] at hrenamed
  obtain ⟨code₂, w₂, h₂, -, halike⟩ := hrenamed.exists_of_ok
  exact ⟨code₁, code₂, w₁, w₂, h₁, h₂, halike⟩

theorem ok_of_returnedName? {result : EStateM.Result Halt World Code} {name : String}
    (h : returnedName? result = some name) :
    ∃ w, result = .ok (.lambda none 1 false (.constant (.atom (.symbol name)))) w := by
  unfold returnedName? at h
  split at h
  · next found w =>
    obtain rfl : found = name := Option.some.inj h
    exact ⟨w, rfl⟩
  · cases h

theorem Value.Alike.symbol_eq {x y : String}
    (h : Value.Alike Eq (.atom (.symbol x)) (.atom (.symbol y))) : x = y := by
  cases h with
  | atom _ => rfl
  | symbol h => exact h

/-- A template may quote the operand, and then the name of a variable is a constant of the code:
two spellings of an expression need not compile to the same constants. -/
theorem quoted_operand_shows_name :
    (wrapOperand [sessionId "quote"]).Fills holdWorld (wrapTemplate [sessionId "quote"]) ∧
      ∃ code₁ code₂ w₁ w₂,
        compileExpression .exhausted 0 9 (useInLambda "spell" "x") holdWorld = .ok code₁ w₁ ∧
        compileExpression .exhausted 0 9 (useInLambda "spell" "t") holdWorld = .ok code₂ w₂ ∧
        code₁ = .lambda none 1 false (.constant (.atom (.symbol "x"))) ∧
        code₂ = .lambda none 1 false (.constant (.atom (.symbol "t"))) ∧
        ¬code₁.Alike Eq code₂ := by
  obtain ⟨w₁, h₁⟩ := ok_of_returnedName? (holdWorld_compiles.2 "x" (by simp))
  obtain ⟨w₂, h₂⟩ := ok_of_returnedName? (holdWorld_compiles.2 "t" (by simp))
  refine ⟨⟨_, fillsWithin_wrapOperand (bare_of_mem_literals (.inr rfl)) _⟩, ?_⟩
  refine ⟨_, _, w₁, w₂, h₁, h₂, rfl, rfl, fun halike => ?_⟩
  cases halike with
  | lambda hbody =>
      cases hbody with
      | constant hvalue =>
          exact absurd hvalue.symbol_eq (by decide)

/-! ## Variables that only operands bind -/

/-- Under a mark a name finds what it finds without, if nothing has been filed under marks. -/
theorem Spaces.leafValue?_mark_space {spaces : Spaces} {ns : NamespaceId}
    (h : ∀ e ∈ (spaces[ns]?.map (·.entries.toList)).getD [], e.key.marks = .empty) (m : Mark)
    (name : String) : spaces.leafValue? ⟨[.mark m, .space ns], .symbol name⟩ =
      spaces.leafValue? ⟨[.space ns], .symbol name⟩ := by
  have hmarked (key : Key) (hmarks : key.marks ≠ .empty) : spaces.cell? ns key = none := by
    rw [cell?, filed?]
    cases hspace : spaces[ns]? with
    | none => simp
    | some space =>
        rw [hspace] at h
        have hnone : space.find? key = none := by
          rw [Namespace.find?, Array.findIdx?_eq_none_iff]
          intro e he
          rw [decide_eq_false_iff_not]
          rintro rfl
          exact hmarks (h e (Array.mem_toList_iff.2 he))
        simp [hnone]
  have hbinding : spaces.leafBinding ⟨[.mark m, .space ns], .symbol name⟩ =
      spaces.leafBinding ⟨[.space ns], .symbol name⟩ := by
    have hnone := hmarked ⟨name, .free name, MarkSet.empty.toggle m⟩ fun hempty => by cases hempty
    have hwraps : (spaces.resolveWraps name none [.mark m, .space ns]).1 =
        (spaces.resolveWraps name none [.space ns]).1 := by
      simp only [resolveWraps, List.foldr_cons, List.foldr_nil, resolveStep, wrapMarks, substitute?,
        Option.getD_none, hnone, reduceCtorEq, if_false]
      cases spaces.cell? ns ⟨name, .free name, .empty⟩ <;> rfl
    exact hwraps
  rw [leafValue?, leafValue?, hbinding]

/-- The template `(let ((t 1)) OPERAND)` places its operand whole. -/
theorem places_temporary (m : Mark) : holdSetting.Places m [] (wrapTemplate temporary) := by
  have hquoted (name : String) : holdSetting.Quoted ⟨[.space 0], .symbol name⟩ :=
    holdSetting_quoted rfl
  have hatom (name : String) :
      (Assembly.prior (sessionId name)).atom? = some ⟨[.space 0], .symbol name⟩ := by
    rw [Assembly.atom?, sessionId, Syntax.view_atom]
    rfl
  have hvalue : holdSetting.spaces.leafValue? (Setting.ownAtom m [] ⟨[.space 0], .symbol "let"⟩).1 =
      some (.form .letForm) := by
    rw [show (Setting.ownAtom m [] ⟨[.space 0], .symbol "let"⟩).1 = ⟨[.mark m, .space 0], .symbol "let"⟩
      from rfl, Spaces.leafValue?_mark_space (by decide)]
    exact eq_form_of_isForm holdWorld_meanings.2.2.2.1
  have hclauses : (Assembly.prior (.group {} .sexp [.group {} .sexp [sessionId "t",
      .atom {} (.int 1)]])).clauses? =
        some [(⟨[.space 0], .symbol "t"⟩, .prior (.atom {} (.int 1)))] := rfl
  refine .letForm rfl (hatom "let") (hquoted _) hvalue hclauses ?_ ?_ ?_
  · exact List.forall_mem_singleton.2 (hquoted _)
  · refine List.forall_mem_singleton.2 (.literal ?_)
    rw [Syntax.view_atom]
    exact .leaf (holdSetting_quoted rfl)
  · exact fun id => List.forall_mem_singleton.2 (.operand 0)

/-- `(hold (lambda (x) x))` and `(hold (lambda (t) t))`: the variable of the operand takes the name of the
temporary. -/
theorem renamed_operandVariable : holdSetting.Renamed (exchange "x" "t") []
    (.group .sexp [.leaf (.symbol "hold", .symbol "hold"),
      .group .sexp [.leaf (.symbol "lambda", .symbol "lambda"),
        .group .sexp [.leaf (.symbol "x", .symbol "t")], .leaf (.symbol "x", .symbol "t")]]) := by
  have hvalue : holdSetting.textValue? [] (.leaf (.symbol "hold", .symbol "hold")) =
      some (.transformer 1 0 (wrapOperand temporary)) := by
    have hbinding :
        holdSetting.spaces.leafBinding (holdSetting.caller₁ [] "hold") = some (.cell ⟨0, 3⟩) :=
      holdWorld_meanings.2.2.2.2
    rw [Setting.textValue?, Setting.nameValue?, if_neg (by simp), Spaces.leafValue?, hbinding]
    rfl
  refine .of_places (exchange_injective "x" "t") (fun _ => rfl) ?_ hvalue (if_pos rfl)
    (fun m _ => places_temporary m) (List.forall_mem_singleton.2 ?_)
  · exact .other (by simp) (by simp) (holdSetting_permits _)
  · exact .lambda holdSetting_lambda formals_exchange
      (List.forall_mem_singleton.2 (.closed (.leaf holdSetting_variable)))

/-- The procedure that returns the body of its first operand, a `lambda`:
`(lambda (stx) (elt (syntax_subforms (elt (syntax_subforms stx) 1)) 2))`. -/
def takeBody : Procedure := .closure 1 false (partCode 2 operandCode) ⟨0, none⟩

/-- `takeBody` fills a template that consists of a part of its operand. -/
theorem applyProcedure_takeBody {input body : Syntax}
    (h : (Assembly.input [.subform 1, .subform 2]).output? input = some body) (fuel : Nat)
    (id : ObjectId) (w : World) :
    ∃ copy w', applyProcedure (fuel + 5) (.procedure id takeBody) [.stx input] w = .ok (.stx copy) w' ∧
      copy.unlabelled = body.unlabelled := by
  obtain ⟨operand, hoperand, hbody⟩ := Option.bind_eq_some_iff.1 h
  have hlocal : eval (fuel + 1) (.localRef 0 0 "stx") ⟨0, some w.frames.size⟩
      { w with frames := w.frames.push ⟨#[some (.stx input)], none⟩ } =
        .ok (.stx input) { w with frames := w.frames.push ⟨#[some (.stx input)], none⟩ } := by
    simp [eval, step, getLocal, frameAt, frameUp, RunM.bind_apply]
  obtain ⟨first, w₁, hfirst, hsame⟩ :=
    eval_partCode_of_part (i := 1) (n := 1) (by decide) hlocal hoperand
  -- The copy of the operand has a label of its own.
  obtain ⟨part, hpart, hlabels⟩ := extract?_of_unlabelled_eq hsame.symm hbody
  obtain ⟨part, hpart, hlast⟩ := Option.bind_eq_some_iff.1 hpart
  cases hlast
  obtain ⟨copy, w₂, hcopy, hcopied⟩ :=
    eval_partCode_of_part (i := 2) (n := 2) (by decide) hfirst hpart
  exact ⟨copy, w₂, hcopy, hcopied.trans hlabels⟩

/-- A session with `lambda` and a transformer `pick` that takes the body out of its operand. -/
def pickWorld : World where
  spaces := #[
    { home := ⟨"/top"⟩
      kind := .topLevel
      entries := definedCells 0 ⟨"/top"⟩ ["lambda", "pick"]
      definitionCount := 2
      values := #[some (.form .lambda), some (.transformer 1 0 takeBody)] }]

/-- The expression `(pick (lambda (NAME) NAME))`. -/
def pickBody (name : String) : Syntax :=
  .sexp [.ident "pick", .sexp [.ident "lambda", .sexp [.ident name] none, .ident name] none] none

/-- The name that the code looks up when it is run. -/
def lateName? : Code → Option String
  | .freeRef name _ => some name
  | _ => none

/-- A template may take a variable out of the scope that the operand has for it, and then the code refers
to what its name stands for: two spellings of an expression compile to code that is alike for no names. -/
theorem operand_taken_apart_shows_name :
    ∃ code₁ code₂ w₁ w₂, compileExpression .exhausted 0 9 (pickBody "x") pickWorld = .ok code₁ w₁ ∧
      compileExpression .exhausted 0 9 (pickBody "t") pickWorld = .ok code₂ w₂ ∧
      lateName? code₁ = some "x" ∧ lateName? code₂ = some "t" ∧
      ∀ names, ¬code₁.Alike names code₂ := by
  have hruns (name : String) (h : name = "x" ∨ name = "t") :
      endsWith (fun code _ => lateName? code = some name)
        (compileExpression .exhausted 0 9 (pickBody name) pickWorld) := by
    rcases h with rfl | rfl <;> decide +kernel
  obtain ⟨code₁, w₁, h₁, hname₁⟩ := exists_of_endsWith (hruns "x" (.inl rfl))
  obtain ⟨code₂, w₂, h₂, hname₂⟩ := exists_of_endsWith (hruns "t" (.inr rfl))
  rw [decide_eq_true_eq] at hname₁ hname₂
  refine ⟨code₁, code₂, w₁, w₂, h₁, h₂, hname₁, hname₂, fun names halike => ?_⟩
  cases halike with
  | freeRef =>
      simp only [lateName?, Option.some.injEq] at hname₁ hname₂
      exact absurd (hname₁.symm.trans hname₂) (by decide)
  | _ => cases hname₁

end HygienicLisp
