import HygienicLisp.Proofs.Runs
import HygienicLisp.Proofs.Scoping.Frames

/-!
# Expressions in the course of expansion

`Written ribs scope e T` says that the form `T` still has to be expanded to the expression `e`,
inside the given ribs; `Elaborated ribs e T` says that this has been done.  Both are about forms
as they are seen (`Shows`).  A named `let` comes up in two ways: as it is written, and as the call of
a procedure of a `letrec` that expansion makes of it with two identifiers of the kernel.

Expansion of expressions without transformers changes nothing but the number of the next rib.
`Yields` is partial correctness for such computations.
-/

namespace HygienicLisp

/-! ## Forms as they are seen -/

/-- The form is seen as the tree, and no binding is recorded on it. -/
structure Shows (T : ContextTree) (stx : Syntax) : Prop where
  bare : stx.Bare
  view : stx.view = T

namespace Shows

variable {T : ContextTree} {Ts : List ContextTree} {stx : Syntax} {parts : List Syntax}

theorem addWrap (h : Shows T stx) (wrap : Wrap) : Shows (T.push wrap) (stx.addWrap wrap) :=
  ⟨h.bare.addWrap wrap, by rw [Syntax.view_addWrap, h.view]⟩

theorem all_of_map (hviews : parts.map Syntax.view = Ts) (hbare : ∀ part ∈ parts, part.Bare) :
    List.Forall₂ Shows Ts parts := by
  subst hviews
  induction parts with
  | nil => exact .nil
  | cons part parts ih =>
      obtain ⟨hpart, hparts⟩ := List.forall_mem_cons.1 hbare
      exact .cons ⟨hpart, rfl⟩ (ih hparts)

theorem all_bare (h : List.Forall₂ Shows Ts parts) : ∀ part ∈ parts, part.Bare := by
  induction h with
  | nil => simp
  | cons head _ ih => exact List.forall_mem_cons.2 ⟨head.bare, ih⟩

theorem all_view (h : List.Forall₂ Shows Ts parts) : parts.map Syntax.view = Ts := by
  induction h with
  | nil => rfl
  | cons head _ ih => rw [List.map_cons, head.view, ih]

theorem all_addWrap (h : List.Forall₂ Shows Ts parts) (wrap : Wrap) :
    List.Forall₂ Shows (Ts.map (.push wrap)) (parts.map (.addWrap wrap)) := by
  induction h with
  | nil => exact .nil
  | cons head _ ih => exact .cons (head.addWrap wrap) ih

theorem group (h : List.Forall₂ Shows Ts parts) (span : Option Span) (shape : Shape) :
    Shows (.group shape Ts) (.group { span } shape parts) := by
  refine ⟨.group span shape (all_bare h), ?_⟩
  rw [Syntax.view_group]
  exact congrArg _ (all_view h)

theorem rebuildSexp (h : List.Forall₂ Shows Ts parts) (site : Syntax) :
    Shows (.group .sexp Ts) (site.rebuildSexp parts) :=
  group h site.span .sexp

theorem record {fields : List (String × Syntax)} (h : List.Forall₂ Shows Ts (fields.map (·.2)))
    (span : Option Span) :
    Shows (.record ((fields.map (·.1)).zip Ts)) (.record { span } fields) := by
  refine ⟨.record span fun field hfield => all_bare h _ (List.mem_map_of_mem hfield), ?_⟩
  rw [Syntax.view_record, ← all_view h, List.map_map, List.zip_map']
  rfl

/-- The parts of a sequence are seen as the parts. -/
theorem exists_parts {shape : Shape} (h : Shows (.group shape Ts) stx) :
    ∃ c raw, stx = .group c shape raw ∧ List.Forall₂ Shows Ts (raw.map (.addWraps c.wraps)) := by
  obtain ⟨c, raw, rfl, hviews, hbare⟩ := h.bare.exists_parts h.view
  exact ⟨c, raw, rfl, all_of_map hviews hbare⟩

/-- The fields of a record are seen as the fields, under the same keys. -/
theorem exists_fields {keys : List String} (h : Shows (.record (keys.zip Ts)) stx)
    (hkeys : keys.length = Ts.length) :
    ∃ c raw found, stx = .record c raw ∧ stx.fields? = some found ∧ found.map (·.1) = keys ∧
      List.Forall₂ Shows Ts (found.map (·.2)) := by
  obtain ⟨c, raw, found, hstx, hfound, hviews, hbare⟩ := h.bare.exists_fields h.view
  refine ⟨c, raw, found, hstx, hfound, ?_, all_of_map ?_ (List.forall_mem_map.2 hbare)⟩
  · rw [← List.map_fst_zip (Nat.le_of_eq hkeys), ← hviews, List.map_map]
    rfl
  · rw [← List.map_snd_zip (Nat.le_of_eq hkeys.symm), ← hviews, List.map_map, List.map_map]
    rfl

theorem subforms (h : Shows (.group .sexp Ts) stx) :
    ∃ parts, stx.subforms? = some parts ∧ List.Forall₂ Shows Ts parts := by
  obtain ⟨c, raw, rfl, hparts⟩ := h.exists_parts
  exact ⟨_, rfl, hparts⟩

theorem isSexp (h : Shows T stx) : stx.isSexp = T.isSexp := by
  rw [← h.view, Syntax.isSexp_view]

/-- Only an atom is seen as an identifier. -/
theorem isIdentifier_of_group {shape : Shape} (h : Shows (.group shape Ts) stx) :
    stx.isIdentifier = false := by
  obtain ⟨c, raw, rfl, -⟩ := h.exists_parts
  rfl

theorem isIdentifier_of_name {a : ContextAtom} {x : String} (h : Shows (.leaf a) stx)
    (hx : a.symbol? = some x) : stx.isIdentifier = true := by
  rw [Syntax.isIdentifier_of_view h.view, hx]
  rfl

theorem headValue? {a : ContextAtom} (h : Shows (.leaf a) stx) (spaces : Spaces) :
    HygienicLisp.headValue? spaces stx = spaces.leafValue? a :=
  h.bare.headValue? h.view spaces

end Shows

/-! ## Forms before expansion -/

/-- The identifier of the kernel for a name. -/
def kernelName (kernel : NamespaceId) (x : String) : ContextAtom :=
  ⟨[.moduleRename kernel], .symbol x⟩

/-- A form inside ribs. -/
def placed (base : List Wrap) (ribs : List Rib) (t : PlainTree) : ContextTree :=
  t.map (inScope base ribs)

/-- The binders of a form inside ribs. -/
def bindersIn (base : List Wrap) (ribs : List Rib) (names : List String) : List ContextTree :=
  names.map fun x => .leaf (nameIn base ribs x)

/-- The clauses `(FIRST SECOND)`, one by one, as they are seen. -/
def couples (firsts seconds : List ContextTree) : List ContextTree :=
  List.zipWith (fun first second => .group .sexp [first, second]) firsts seconds

/-- The clauses `(FIRST SECOND)...` of a form as they are seen. -/
def clausesSeen (firsts seconds : List ContextTree) : ContextTree :=
  .group .sexp (couples firsts seconds)

/-- The value of a name that no form binds. -/
def topValue? (spaces : Spaces) (base : List Wrap) (x : String) : Option Value :=
  spaces.leafValue? (nameIn base [] x)

/-- The procedure of a loop as expansion puts it together. -/
def loopProcedure (base : List Wrap) (ribs : List Rib) (head : ContextAtom) (names : List String)
    (ts : List PlainTree) : ContextTree :=
  .group .sexp (.leaf head :: .group .sexp (bindersIn base ribs names) :: ts.map (placed base ribs))

/-- The `letrec` of a loop as expansion puts it together. -/
def loopOperator (base : List Wrap) (kernel : NamespaceId) (ribs : List Rib) (x : String)
    (names : List String) (ts : List PlainTree) : ContextTree :=
  .group .sexp [.leaf (kernelName kernel "letrec"),
    clausesSeen (bindersIn base ribs [x])
      [loopProcedure base ribs (kernelName kernel "lambda") names ts],
    .leaf (nameIn base ribs x)]

/-- The expression that a loop is made into. -/
def loopExpr (x : String) (names : List String) (body : List Expr) : Expr :=
  .letrec [x] [.lambda names false body] [.ref x]

/-- The form is to be expanded to the expression. -/
inductive Written (spaces : Spaces) (base : List Wrap) (kernel : NamespaceId) :
    List Rib → NameScope → Expr → ContextTree → Prop
  | source {ribs : List Rib} {scope : NameScope} {t : PlainTree} {e : Expr}
      (h : ReadAs (topValue? spaces base) scope t e) :
      Written spaces base kernel ribs scope e (placed base ribs t)
  | procedure {ribs : List Rib} {scope : NameScope} {head : ContextAtom} {names : List String}
      {ts : List PlainTree} {body : List Expr}
      (hhead : spaces.leafValue? head = some (.form .lambda))
      (h : ReadAsAll (topValue? spaces base) (names :: scope) ts body) :
      Written spaces base kernel ribs scope (.lambda names false body)
        (loopProcedure base ribs head names ts)
  | operator {ribs : List Rib} {scope : NameScope} {x : String} {names : List String}
      {ts : List PlainTree} {body : List Expr}
      (h : ReadAsAll (topValue? spaces base) (names :: [x] :: scope) ts body) :
      Written spaces base kernel ribs scope (loopExpr x names body)
        (loopOperator base kernel ribs x names ts)
  | call {ribs : List Rib} {scope : NameScope} {x : String} {names : List String}
      {inits ts : List PlainTree} {es body : List Expr}
      (hinits : ReadAsAll (topValue? spaces base) scope inits es)
      (h : ReadAsAll (topValue? spaces base) (names :: [x] :: scope) ts body) :
      Written spaces base kernel ribs scope (.apply (loopExpr x names body) es)
        (.group .sexp (loopOperator base kernel ribs x names ts :: inits.map (placed base ribs)))

/-- A form moves into the scope of a rib. -/
theorem placed_push (base : List Wrap) (rib : Rib) (ribs : List Rib) (t : PlainTree) :
    (placed base ribs t).push (.rename rib) = placed base (rib :: ribs) t := by
  rw [placed, FormTree.push, FormTree.map_map, placed]
  rfl

theorem map_placed_push (base : List Wrap) (rib : Rib) (ribs : List Rib) (ts : List PlainTree) :
    (ts.map (placed base ribs)).map (.push (.rename rib)) = ts.map (placed base (rib :: ribs)) := by
  rw [List.map_map]
  exact List.map_congr_left fun t _ => placed_push base rib ribs t

theorem bindersIn_push (base : List Wrap) (rib : Rib) (ribs : List Rib) (names : List String) :
    (bindersIn base ribs names).map (.push (.rename rib)) = bindersIn base (rib :: ribs) names := by
  rw [bindersIn, bindersIn, List.map_map]
  exact List.map_congr_left fun x _ => FormTree.map_leaf ..

theorem loopProcedure_push (base : List Wrap) (rib : Rib) (ribs : List Rib) (head : ContextAtom)
    (names : List String) (ts : List PlainTree) :
    (loopProcedure base ribs head names ts).push (.rename rib) =
      loopProcedure base (rib :: ribs) (head.push (.rename rib)) names ts := by
  rw [loopProcedure, FormTree.push, FormTree.map_group, List.map_cons, List.map_cons,
    FormTree.map_leaf, FormTree.map_group, loopProcedure, ← bindersIn_push, ← map_placed_push]
  rfl

/-! ## Forms after expansion -/

/-- The form at the head denotes the core form. -/
def HeadSeen (spaces : Spaces) (f : CoreForm) (T : ContextTree) : Prop :=
  ∃ a, T = .leaf a ∧ spaces.leafValue? a = some (.form f)

/-- The rib binds the names, and it is none of the others. -/
structure Opens (spaces : Spaces) (base : List Wrap) (ribs : List Rib) (rib : Rib)
    (names : List String) : Prop where
  keys : rib.keys = names.map fun x => spaces.leafKey (nameIn base ribs x)
  new : ∀ other ∈ ribs, other.id ≠ rib.id

theorem Opens.frames {spaces : Spaces} {base : List Wrap} {ribs : List Rib} {scope : NameScope}
    {rib : Rib} {names : List String} (h : Opens spaces base ribs rib names)
    (hframes : Frames spaces base ribs scope) :
    Frames spaces base (rib :: ribs) (names :: scope) :=
  .cons h.keys h.new hframes

mutual

/-- The form is the expression, fully expanded inside the given ribs. -/
inductive Elaborated (spaces : Spaces) (base : List Wrap) : List Rib → Expr → ContextTree → Prop
  | data {ribs : List Rib} {a : ContextAtom} (h : a.symbol? = none) :
      Elaborated spaces base ribs (.data a.data) (.leaf a)
  | ref {ribs : List Rib} (x : String)
      (h : ∀ f, spaces.leafValue? (nameIn base ribs x) ≠ some (.form f)) :
      Elaborated spaces base ribs (.ref x) (.leaf (nameIn base ribs x))
  | list {ribs : List Rib} {es : List Expr} {Ts : List ContextTree}
      (h : ElaboratedAll spaces base ribs es Ts) :
      Elaborated spaces base ribs (.list es) (.group .list Ts)
  | record {ribs : List Rib} {keys : List String} {es : List Expr} {Ts : List ContextTree}
      (hkeys : keys.length = Ts.length) (h : ElaboratedAll spaces base ribs es Ts) :
      Elaborated spaces base ribs (.record keys es) (.record (keys.zip Ts))
  | quoted {ribs : List Rib} {f : CoreForm} {head T : ContextTree} (hhead : HeadSeen spaces f head)
      (hf : f = .quote ∨ f = .quoteSyntax) :
      Elaborated spaces base ribs .quoted (.group .sexp [head, T])
  | assign {ribs : List Rib} {head T : ContextTree} {e : Expr} (x : String)
      (hhead : HeadSeen spaces .set head) (h : Elaborated spaces base ribs e T) :
      Elaborated spaces base ribs (.assign x e) (.group .sexp [head, .leaf (nameIn base ribs x), T])
  | branch {ribs : List Rib} {head : ContextTree} {Ts : List ContextTree} {e₁ e₂ e₃ : Expr}
      (hhead : HeadSeen spaces .ifForm head) (h : ElaboratedAll spaces base ribs [e₁, e₂, e₃] Ts) :
      Elaborated spaces base ribs (.branch e₁ e₂ e₃) (.group .sexp (head :: Ts))
  | sequence {ribs : List Rib} {head : ContextTree} {Ts : List ContextTree} {es : List Expr}
      (hhead : HeadSeen spaces .begin head) (h : ElaboratedAll spaces base ribs es Ts) :
      Elaborated spaces base ribs (.sequence es) (.group .sexp (head :: Ts))
  | lambda {ribs : List Rib} {rib : Rib} {head : ContextTree} {names : List String}
      {Ts : List ContextTree} {body : List Expr} (hhead : HeadSeen spaces .lambda head)
      (hrib : Opens spaces base ribs rib names)
      (h : ElaboratedAll spaces base (rib :: ribs) body Ts) :
      Elaborated spaces base ribs (.lambda names false body)
        (.group .sexp (head :: .group .sexp (bindersIn base (rib :: ribs) names) :: Ts))
  | lambdaRest {ribs : List Rib} {rib : Rib} {head : ContextTree} {x : String}
      {Ts : List ContextTree} {body : List Expr} (hhead : HeadSeen spaces .lambda head)
      (hrib : Opens spaces base ribs rib [x])
      (h : ElaboratedAll spaces base (rib :: ribs) body Ts) :
      Elaborated spaces base ribs (.lambda [x] true body)
        (.group .sexp (head :: .leaf (nameIn base (rib :: ribs) x) :: Ts))
  | letIn {ribs : List Rib} {rib : Rib} {head : ContextTree} {names : List String}
      {inits Ts : List ContextTree} {es body : List Expr} (hhead : HeadSeen spaces .letForm head)
      (hrib : Opens spaces base ribs rib names) (hlength : names.length = inits.length)
      (hinits : ElaboratedAll spaces base ribs es inits)
      (h : ElaboratedAll spaces base (rib :: ribs) body Ts) :
      Elaborated spaces base ribs (.letIn names es body)
        (.group .sexp (head :: clausesSeen (bindersIn base (rib :: ribs) names) inits :: Ts))
  | letrec {ribs : List Rib} {rib : Rib} {head : ContextTree} {names : List String}
      {inits Ts : List ContextTree} {es body : List Expr} (hhead : HeadSeen spaces .letrec head)
      (hrib : Opens spaces base ribs rib names) (hlength : names.length = inits.length)
      (hinits : ElaboratedAll spaces base (rib :: ribs) es inits)
      (h : ElaboratedAll spaces base (rib :: ribs) body Ts) :
      Elaborated spaces base ribs (.letrec names es body)
        (.group .sexp (head :: clausesSeen (bindersIn base (rib :: ribs) names) inits :: Ts))
  /-- A loop has become a call. -/
  | namedLet {ribs : List Rib} {x : String} {names : List String} {es body : List Expr}
      {T : ContextTree} (h : Elaborated spaces base ribs (.apply (loopExpr x names body) es) T) :
      Elaborated spaces base ribs (.namedLet x names es body) T
  | parameterize {ribs : List Rib} {head : ContextTree} {parameters values Ts : List ContextTree}
      {ps vs body : List Expr} (hhead : HeadSeen spaces .parameterize head)
      (hlength : parameters.length = values.length)
      (hparameters : ElaboratedAll spaces base ribs ps parameters)
      (hvalues : ElaboratedAll spaces base ribs vs values)
      (h : ElaboratedAll spaces base ribs body Ts) :
      Elaborated spaces base ribs (.parameterize ps vs body)
        (.group .sexp (head :: clausesSeen parameters values :: Ts))
  | apply {ribs : List Rib} {T : ContextTree} {Ts : List ContextTree} {e : Expr} {es : List Expr}
      (hoperator : Elaborated spaces base ribs e T)
      (hoperands : ElaboratedAll spaces base ribs es Ts) :
      Elaborated spaces base ribs (.apply e es) (.group .sexp (T :: Ts))

/-- The forms are the expressions, one by one. -/
inductive ElaboratedAll (spaces : Spaces) (base : List Wrap) :
    List Rib → List Expr → List ContextTree → Prop
  | nil {ribs : List Rib} : ElaboratedAll spaces base ribs [] []
  | cons {ribs : List Rib} {e : Expr} {es : List Expr} {T : ContextTree} {Ts : List ContextTree}
      (head : Elaborated spaces base ribs e T) (tail : ElaboratedAll spaces base ribs es Ts) :
      ElaboratedAll spaces base ribs (e :: es) (T :: Ts)

end

theorem ElaboratedAll.length_eq {spaces : Spaces} {base : List Wrap} {ribs : List Rib}
    {es : List Expr} {Ts : List ContextTree} (h : ElaboratedAll spaces base ribs es Ts) :
    es.length = Ts.length := by
  induction es generalizing Ts with
  | nil =>
      cases h
      rfl
  | cons e es ih =>
      cases h with
      | cons _ tail => exact congrArg Nat.succ (ih tail)

/-- The form has been expanded to the expression. -/
def Out (spaces : Spaces) (base : List Wrap) (ribs : List Rib) (e : Expr) (stx : Syntax) : Prop :=
  ∃ T, Shows T stx ∧ Elaborated spaces base ribs e T

/-- The forms have been expanded to the expressions. -/
def OutAll (spaces : Spaces) (base : List Wrap) (ribs : List Rib) (es : List Expr)
    (stxs : List Syntax) : Prop :=
  ∃ Ts, List.Forall₂ Shows Ts stxs ∧ ElaboratedAll spaces base ribs es Ts

/-! ## Computations that keep the world -/

/-- Namespaces and settings are the same; ribs may have been made. -/
structure Keeps (w w' : World) : Prop where
  spaces : w'.spaces = w.spaces
  runtime : w'.runtime = w.runtime
  nextRib : w.nextRib ≤ w'.nextRib

theorem Keeps.refl (w : World) : Keeps w w := ⟨rfl, rfl, Nat.le_refl _⟩

theorem Keeps.trans {w w' w'' : World} (h : Keeps w w') (h' : Keeps w' w'') : Keeps w w'' :=
  ⟨h'.spaces.trans h.spaces, h'.runtime.trans h.runtime, Nat.le_trans h.nextRib h'.nextRib⟩

/-- If the computation has a result, the world is kept and the result is as it should be. -/
def Yields {α : Type} (w : World) (P : α → World → Prop) (x : RunM α) : Prop :=
  ∀ a w', x w = .ok a w' → Keeps w w' ∧ P a w'

namespace Yields

variable {α β : Type} {w : World} {P : α → World → Prop} {Q : β → World → Prop}

theorem pure {a : α} (h : P a w) : Yields w P (pure a) := by
  intro b w' hrun
  cases hrun
  exact ⟨.refl w, h⟩

theorem failAt (stx : Syntax) (fault : SyntaxFault) : Yields w P (RunM.failAt stx fault) := by
  intro b w' hrun
  cases hrun

theorem exhausted : Yields w P RunM.exhausted := by
  intro b w' hrun
  cases hrun

theorem bind {x : RunM α} {f : α → RunM β} (hx : Yields w P x)
    (hf : ∀ a w', Keeps w w' → P a w' → Yields w' Q (f a)) : Yields w Q (x >>= f) := by
  intro b w₂ hrun
  obtain ⟨a, w₁, hx₁, hf₁⟩ := RunM.bind_eq_ok.1 hrun
  obtain ⟨hkeeps, ha⟩ := hx a w₁ hx₁
  obtain ⟨hkeeps', hb⟩ := hf a w₁ hkeeps ha b w₂ hf₁
  exact ⟨hkeeps.trans hkeeps', hb⟩

/-- A computation that leaves the world as it is goes before another. -/
theorem bind_still {R : α → Prop} {x : RunM α} {f : α → RunM β}
    (hx : Yields w (fun a w' => w' = w ∧ R a) x) (hf : ∀ a, R a → Yields w Q (f a)) :
    Yields w Q (x >>= f) := by
  refine hx.bind fun a w' _ h => ?_
  obtain ⟨rfl, ha⟩ := h
  exact hf a ha

/-- A check of the shape of a form goes before another computation. -/
theorem guard_bind {c : Prop} [Decidable c] {stx : Syntax} {fault : SyntaxFault} {f : Unit → RunM β}
    (h : Yields w Q (f ())) :
    Yields w Q ((if c then Pure.pure () else RunM.failAt stx fault) >>= f) := by
  split
  · exact h
  · intro b w' hrun
    cases hrun

theorem get_bind {f : World → RunM β} (h : Yields w Q (f w)) : Yields w Q (get >>= f) := h

theorem getSpaces_bind {f : Spaces → RunM β} (h : Yields w Q (f w.spaces)) :
    Yields w Q (getSpaces >>= f) := h

theorem mapError {x : RunM α} (f : Error → Error) (h : Yields w P x) :
    Yields w P (RunM.mapError f x) :=
  fun a w' hrun => h a w' (RunM.mapError_eq_ok.1 hrun)

theorem mono {P' : α → World → Prop} {x : RunM α} (h : Yields w P x)
    (hP : ∀ a w', P a w' → P' a w') : Yields w P' x := by
  intro a w' hrun
  obtain ⟨hkeeps, ha⟩ := h a w' hrun
  exact ⟨hkeeps, hP a w' ha⟩

end Yields

end HygienicLisp
