import HygienicLisp.Expansion.Expand
import HygienicLisp.Proofs.Scoping.BindingForms

/-!
# Expansion keeps the nesting of names

The head of a form denotes at expansion what it denotes by names: a core form that no enclosing
form binds, or neither a core form nor a transformer.  So expansion takes every form for what it
is read as.  It makes a loop into a call, with the `letrec` and the `lambda` of the kernel; the name
of the loop captures neither of them, as it denotes no cell of the kernel outside
(`Frames.leafValue?_kernelName`).

Main statement: `yields_expand`, by induction on fuel.
-/

namespace HygienicLisp

open Expansion

variable {w₀ w : World} {base : List Wrap} {ribs : List Rib} {scope : NameScope}

/-! ## Forms as they are written -/

theorem placed_name (x : String) : placed base ribs (.name x) = .leaf (nameIn base ribs x) :=
  FormTree.map_leaf ..

theorem placed_group (shape : Shape) (ts : List PlainTree) :
    placed base ribs (.group shape ts) = .group shape (ts.map (placed base ribs)) :=
  FormTree.map_group ..

theorem placed_record (keys : List String) (ts : List PlainTree) :
    placed base ribs (.record (keys.zip ts)) = .record (keys.zip (ts.map (placed base ribs))) := by
  rw [placed, FormTree.map_record, List.zip_map_right]
  rfl

theorem map_placed_names (names : List String) :
    (names.map PlainTree.name).map (placed base ribs) = bindersIn base ribs names := by
  rw [List.map_map]
  exact List.map_congr_left fun x _ => placed_name x

theorem placed_clauses (firsts seconds : List PlainTree) :
    placed base ribs (.clauses firsts seconds) =
      clausesSeen (firsts.map (placed base ribs)) (seconds.map (placed base ribs)) := by
  rw [PlainTree.clauses, PlainTree.sexp, placed_group, clausesSeen, couples, List.map_zipWith,
    List.zipWith_map]
  simp only [PlainTree.sexp, placed_group, List.map_cons, List.map_nil]

theorem written_all {ts : List PlainTree} {es : List Expr}
    (h : ReadAsAll (topValue? w₀.spaces base) scope ts es) :
    List.Forall₂ (WrittenIn w₀ base ribs scope) es (ts.map (placed base ribs)) := by
  induction ts generalizing es with
  | nil =>
      cases h
      exact .nil
  | cons t ts ih =>
      cases h with
      | cons head tail => exact .cons (.source head) (ih tail)

theorem written_under {names : List String} {ts : List PlainTree} {es : List Expr}
    (h : ReadAsAll (topValue? w₀.spaces base) (names :: scope) ts es) :
    WrittenUnder w₀ base ribs scope names es (ts.map (placed base ribs)) := by
  intro rib _
  rw [map_placed_push]
  exact written_all h

/-! ## Heads -/

theorem Frames.leafValue?_top {spaces : Spaces} (h : Frames spaces base ribs scope) {x : String}
    (hx : address? x scope = none) :
    spaces.leafValue? (nameIn base ribs x) = topValue? spaces base x := by
  rw [topValue?, Spaces.leafValue?, Spaces.leafValue?, h.leafBinding_top hx]

theorem Frames.leafValue?_local {spaces : Spaces} (h : Frames spaces base ribs scope) {x : String}
    {a : Nat × Nat} (hx : address? x scope = some a) :
    spaces.leafValue? (nameIn base ribs x) = none := by
  obtain ⟨rib, -, hbinding, -⟩ := h.leafBinding_local hx
  rw [Spaces.leafValue?, hbinding]

theorem HeadIs.seen {spaces : Spaces} {f : CoreForm} {t : PlainTree}
    (h : HeadIs (topValue? spaces base) scope f t) (hframes : Frames spaces base ribs scope) :
    HeadSeen spaces f (placed base ribs t) := by
  obtain ⟨x, rfl, hx, hvalue⟩ := h
  exact ⟨nameIn base ribs x, placed_name x, (hframes.leafValue?_top hx).trans hvalue⟩

/-- The value of a form at the head is neither a core form nor a transformer. -/
def Applicable (spaces : Spaces) (stx : Syntax) : Prop :=
  (∀ f, headValue? spaces stx ≠ some (.form f)) ∧
    ∀ id procedureId p, headValue? spaces stx ≠ some (.transformer id procedureId p)

theorem applicable_of_not_identifier {spaces : Spaces} {stx : Syntax}
    (h : stx.isIdentifier = false) : Applicable spaces stx := by
  have hvalue : headValue? spaces stx = none := by simp [headValue?, h]
  constructor <;> simp [hvalue]

theorem HeadPlain.applicable {spaces : Spaces} {t : PlainTree}
    (h : HeadPlain (topValue? spaces base) scope t) (hframes : Frames spaces base ribs scope)
    {stx : Syntax} (hshows : Shows (placed base ribs t) stx) : Applicable spaces stx := by
  cases t with
  | leaf a =>
      rw [placed, FormTree.map_leaf] at hshows
      cases a with
      | symbol x =>
          rw [Applicable, hshows.headValue?]
          cases hx : address? x scope with
          | none =>
              rw [hframes.leafValue?_top hx]
              exact h x rfl hx
          | some a =>
              -- A variable has no value yet, whatever its name is at top level.
              rw [hframes.leafValue?_local hx]
              constructor
              · rintro f ⟨⟩
              · rintro id procedureId p ⟨⟩
      | _ => exact applicable_of_not_identifier (Syntax.isIdentifier_of_view hshows.view)
  | group shape items =>
      rw [placed_group] at hshows
      exact applicable_of_not_identifier hshows.isIdentifier_of_group
  | record fields =>
      rw [placed, FormTree.map_record] at hshows
      obtain ⟨c, raw, found, rfl, -⟩ := hshows.bare.exists_fields hshows.view
      exact applicable_of_not_identifier rfl

/-! ## Loops -/

theorem owner_of_kernelName {spaces : Spaces} {kernel : NamespaceId} {x : String} {c : CellRef}
    (h : spaces.leafBinding (kernelName kernel x) = some (.cell c)) : c.owner = kernel := by
  rcases spaces.resolveStep_cases x none (wrapMarks [.moduleRename kernel]) (.moduleRename kernel)
      (none, .empty) with hkeep | ⟨rib, v, hrib, -⟩ | ⟨ns, key, c', hns, -, hc, hnew⟩
  · cases hkeep.symm.trans h
  · cases hrib
  · cases hnew.symm.trans h
    obtain ⟨howner, -⟩ := Spaces.cell?_eq_some_iff.1 hc
    rcases hns with ⟨hns, -⟩ | hns
    · cases hns
    · cases hns
      exact howner

/-- A binder does not capture an identifier of the kernel. -/
theorem Frames.leafValue?_kernelName {spaces : Spaces} (h : Frames spaces base ribs scope)
    {kernel : NamespaceId} (hbase : PlainChain kernel base) {rib : Rib} {names : List String}
    (hrib : Opens spaces base ribs rib names) {x : String} {v : Value}
    (hv : spaces.leafValue? (kernelName kernel x) = some v) :
    spaces.leafValue? ((kernelName kernel x).push (.rename rib)) = some v := by
  obtain ⟨c, hc⟩ : ∃ c, spaces.leafBinding (kernelName kernel x) = some (.cell c) := by
    rw [Spaces.leafValue?] at hv
    split at hv
    · exact ⟨_, ‹_›⟩
    · cases hv
  -- The keys of the rib mention what its binders denote outside: no cell of the kernel.
  have hfound : rib.keys.findIdx? (· = spaces.leafKey (kernelName kernel x)) = none := by
    rw [hrib.keys, List.findIdx?_eq_none_iff]
    intro key hkey
    obtain ⟨y, -, rfl⟩ := List.mem_map.1 hkey
    refine decide_eq_false fun hsame => ?_
    have horigin := congrArg Key.origin hsame
    simp only [Spaces.leafKey, hc, Option.getD_some] at horigin
    cases hy : spaces.leafBinding (nameIn base ribs y) with
    | none =>
        rw [hy] at horigin
        cases horigin
    | some b =>
        rw [hy] at horigin
        obtain rfl : b = .cell c := horigin
        exact h.leafBinding_ne_kernel hbase hy (owner_of_kernelName hc)
  have hpush := spaces.leafBinding_push_rename rib (a := kernelName kernel x) rfl
  rw [hfound] at hpush
  rw [← hv, Spaces.leafValue?, Spaces.leafValue?, hpush]

theorem yields_kernelIdentifier (hw : Inside w₀ ribs w) (x : String) (site : Syntax) :
    Yields w (fun stx w' => w' = w ∧ Shows (.leaf (kernelName w₀.runtime.kernel.space x)) stx)
      (kernelIdentifier x site) := by
  refine .get_bind (.pure ⟨rfl, ?_⟩)
  rw [hw.keeps.runtime]
  refine ⟨Syntax.Carries.addWrap (.atom (by simp) (by simp)) trivial, ?_⟩
  rw [Syntax.view_addWrap, Syntax.view_atom, FormTree.push, FormTree.map_leaf]
  rfl

variable {expand : ExpandContext → Syntax → RunM Syntax}

/-- The call that a loop is made into is expanded to the loop. -/
theorem yields_namedLet (hexpand : Expands w₀ base expand)
    (hframes : Frames w₀.spaces base ribs scope) (hw : Inside w₀ ribs w) {head : ContextTree}
    {x : String} {names : List String} {inits ts : List PlainTree} {es body : List Expr}
    (hlength : names.length = inits.length)
    (hinits : ReadAsAll (topValue? w₀.spaces base) scope inits es)
    (hbody : ReadAsAll (topValue? w₀.spaces base) (names :: [x] :: scope) ts body) {form : Syntax}
    {parts : List Syntax}
    (hparts : List.Forall₂ Shows (head :: .leaf (nameIn base ribs x) ::
      clausesSeen (bindersIn base ribs names) (inits.map (placed base ribs)) ::
      ts.map (placed base ribs)) parts) :
    Yields w (fun out _ => Out w₀.spaces base ribs (.namedLet x names es body) out)
      (letForm expand form parts) := by
  obtain _ | ⟨_, _ | ⟨hname, hparts⟩⟩ := hparts
  cases hparts with
  | @cons _ clauses _ rest hclauses hrest =>
      simp only [letForm, hname.isIdentifier_of_name rfl, if_true, namedLet]
      refine .guard_bind ?_
      rw [← List.length_map (placed base ribs)] at hlength
      refine (yields_bindingClauses hlength hclauses).bind_still fun pairs hpairs => ?_
      refine (yields_kernelIdentifier hw "lambda" form).bind_still fun lambdaHead hlambda => ?_
      refine (yields_kernelIdentifier hw "letrec" form).bind_still fun letrecHead hletrec => ?_
      have hprocedure := Shows.rebuildSexp (.cons hlambda
        (.cons (.rebuildSexp hpairs.1 clauses) hrest)) form
      have hclause := Shows.rebuildSexp (.cons hname (.cons hprocedure .nil)) form
      have hoperator := Shows.rebuildSexp (.cons hletrec
        (.cons (.rebuildSexp (.cons hclause .nil) form) (.cons hname .nil))) form
      refine (hexpand hframes hw (.call hinits hbody)
        (.rebuildSexp (.cons hoperator hpairs.2) form) .expression).mono fun out _ hout => ?_
      obtain ⟨T, hT, helab⟩ := hout
      exact ⟨T, hT, .namedLet helab⟩

/-- The `letrec` that a loop is made into. -/
theorem yields_loopOperator (hground : Ground w₀ base) (hexpand : Expands w₀ base expand)
    (hframes : Frames w₀.spaces base ribs scope) (hw : Inside w₀ ribs w) {x : String}
    {names : List String} {ts : List PlainTree} {body : List Expr}
    (hbody : ReadAsAll (topValue? w₀.spaces base) (names :: [x] :: scope) ts body) {form : Syntax}
    {parts : List Syntax}
    (hparts : List.Forall₂ Shows [.leaf (kernelName w₀.runtime.kernel.space "letrec"),
      clausesSeen (bindersIn base ribs [x]) [loopProcedure base ribs
        (kernelName w₀.runtime.kernel.space "lambda") names ts],
      .leaf (nameIn base ribs x)] parts) :
    Yields w (fun out _ => Out w₀.spaces base ribs (loopExpr x names body) out)
      (letrec expand form parts) := by
  refine yields_letrec hexpand hframes hw ⟨_, rfl, hground.letrec⟩ rfl ?_ ?_ hparts
  · -- The `lambda` is inside the rib of the loop's name.
    intro rib hrib
    have hlambda := hframes.leafValue?_kernelName hground.plain hrib hground.lambda
    rw [List.map_singleton, loopProcedure_push]
    exact .cons (.procedure hlambda hbody) .nil
  · have hname : ReadAsAll (topValue? w₀.spaces base) ([x] :: scope) [.name x] [.ref x] :=
      .cons (.ref x) .nil
    rw [← placed_name]
    exact written_under hname

/-! ## Forms -/

/-- What `expand` does with a form once it has gone one level deeper. -/
def expandForm (ns : NamespaceId) (loader : Loader)
    (expand : Nat → ExpandContext → Syntax → RunM Syntax) (fuel depth : Nat)
    (context : ExpandContext) (form : Syntax) : RunM Syntax :=
  if form.isSexp then expandSexp ns expand loader fuel depth context form
  else expandPlain expand depth form

section

variable {ns : NamespaceId} {loader : Loader} {expand : Nat → ExpandContext → Syntax → RunM Syntax}
  {fuel depth : Nat} {context : ExpandContext} {form : Syntax} {head : ContextTree}
  {Ts : List ContextTree} {e : Expr} {es : List Expr}

theorem expandForm_of_isSexp (h : form.isSexp = true) :
    expandForm ns loader expand fuel depth context form =
      expandSexp ns expand loader fuel depth context form :=
  if_pos h

theorem expandForm_of_not_isSexp (h : form.isSexp = false) :
    expandForm ns loader expand fuel depth context form = expandPlain expand depth form := by
  simp [expandForm, h]

/-- A form is expanded as the core form that its head denotes. -/
theorem yields_core {f : CoreForm} {P : Syntax → World → Prop} (hw : Inside w₀ ribs w)
    (hform : Shows (.group .sexp (head :: Ts)) form) (hhead : HeadSeen w₀.spaces f head)
    (h : ∀ parts, List.Forall₂ Shows (head :: Ts) parts →
      Yields w P (core (expand depth) loader ns f form parts context)) :
    Yields w P (expandForm ns loader expand fuel depth context form) := by
  rw [expandForm_of_isSexp hform.isSexp]
  cases fuel with
  | zero => exact .exhausted
  | succ fuel =>
      obtain ⟨parts, hsubforms, hparts⟩ := hform.subforms
      obtain ⟨a, rfl, hvalue⟩ := hhead
      obtain _ | ⟨hheadShows, hrest⟩ := hparts
      rw [expandSexp, Syntax.subforms, hsubforms]
      refine .getSpaces_bind ?_
      rw [hw.keeps.spaces, hheadShows.headValue?, hvalue]
      exact h _ (.cons hheadShows hrest)

/-- A form is expanded as an application if its head denotes neither a core form nor a
transformer. -/
theorem yields_apply (hexpand : Expands w₀ base (expand depth))
    (hframes : Frames w₀.spaces base ribs scope) (hw : Inside w₀ ribs w)
    (hform : Shows (.group .sexp (head :: Ts)) form)
    (hhead : ∀ stx, Shows head stx → Applicable w₀.spaces stx)
    (hwritten : List.Forall₂ (WrittenIn w₀ base ribs scope) (e :: es) (head :: Ts)) :
    Yields w (fun out _ => Out w₀.spaces base ribs (.apply e es) out)
      (expandForm ns loader expand fuel depth context form) := by
  rw [expandForm_of_isSexp hform.isSexp]
  cases fuel with
  | zero => exact .exhausted
  | succ fuel =>
      obtain ⟨parts, hsubforms, hparts⟩ := hform.subforms
      have hall := yields_expandEach hexpand hframes hw hwritten hparts .expression
      obtain _ | ⟨hheadShows, hrest⟩ := hparts
      obtain ⟨hform, htransformer⟩ := hhead _ hheadShows
      rw [expandSexp, Syntax.subforms, hsubforms]
      refine .getSpaces_bind ?_
      rw [hw.keeps.spaces]
      split
      · exact absurd ‹_› (htransformer _ _ _)
      · exact absurd ‹_› (hform _)
      · refine hall.bind fun outs _ _ houts => .pure ?_
        obtain ⟨Us, hUs, helab⟩ := houts
        cases helab with
        | cons helabHead helabTail =>
            exact ⟨_, .rebuildSexp hUs form, .apply helabHead helabTail⟩

theorem yields_data {a : Atom} (ha : ∀ x, a ≠ .symbol x)
    (hform : Shows (.leaf (inScope base ribs a)) form) :
    Yields w (fun out _ => Out w₀.spaces base ribs (.data a) out)
      (expandForm ns loader expand fuel depth context form) := by
  have hsymbol : (inScope base ribs a).symbol? = none := by
    cases a with
    | symbol x => exact absurd rfl (ha x)
    | _ => rfl
  have hout : Out w₀.spaces base ribs (.data a) form := ⟨_, hform, .data hsymbol⟩
  rw [expandForm_of_not_isSexp hform.isSexp]
  obtain ⟨c, rfl, -⟩ := Syntax.view_eq_leaf hform.view
  cases a with
  | symbol x => exact absurd rfl (ha x)
  | _ => exact .pure hout

theorem yields_ref {x : String} (hw : Inside w₀ ribs w)
    (hform : Shows (.leaf (nameIn base ribs x)) form) :
    Yields w (fun out _ => Out w₀.spaces base ribs (.ref x) out)
      (expandForm ns loader expand fuel depth context form) := by
  have hvalue := hform.headValue? w.spaces
  have hout (h : ∀ f, w.spaces.leafValue? (nameIn base ribs x) ≠ some (.form f)) :
      Out w₀.spaces base ribs (.ref x) form := ⟨_, hform, .ref x (hw.keeps.spaces ▸ h)⟩
  rw [expandForm_of_not_isSexp hform.isSexp]
  obtain ⟨c, rfl, -⟩ := Syntax.view_eq_leaf hform.view
  refine .get_bind ?_
  rw [hvalue]
  -- Core forms and transformers are no expressions.
  split
  · exact .failAt _ _
  · exact .failAt _ _
  · next hnot _ => exact .pure (hout hnot)

theorem yields_list (hexpand : Expands w₀ base (expand depth))
    (hframes : Frames w₀.spaces base ribs scope) (hw : Inside w₀ ribs w)
    (hform : Shows (.group .list Ts) form)
    (hwritten : List.Forall₂ (WrittenIn w₀ base ribs scope) es Ts) :
    Yields w (fun out _ => Out w₀.spaces base ribs (.list es) out)
      (expandForm ns loader expand fuel depth context form) := by
  rw [expandForm_of_not_isSexp hform.isSexp]
  obtain ⟨c, raw, rfl, hparts⟩ := hform.exists_parts
  refine (yields_expandEach hexpand hframes hw hwritten hparts .expression).bind
    fun outs _ _ houts => .pure ?_
  obtain ⟨Us, hUs, helab⟩ := houts
  exact ⟨_, .group hUs _ .list, .list helab⟩

theorem yields_record {keys : List String} (hexpand : Expands w₀ base (expand depth))
    (hframes : Frames w₀.spaces base ribs scope) (hw : Inside w₀ ribs w)
    (hkeys : keys.length = Ts.length) (hform : Shows (.record (keys.zip Ts)) form)
    (hwritten : List.Forall₂ (WrittenIn w₀ base ribs scope) es Ts) :
    Yields w (fun out _ => Out w₀.spaces base ribs (.record keys es) out)
      (expandForm ns loader expand fuel depth context form) := by
  rw [expandForm_of_not_isSexp hform.isSexp]
  obtain ⟨c, raw, found, rfl, hfound, rfl, hshows⟩ := hform.exists_fields hkeys
  rw [expandPlain, hfound]
  refine (yields_expandFields hexpand hframes hw hwritten hshows).bind
    fun outs _ _ houts => .pure ?_
  obtain ⟨hnames, Us, hUs, helab⟩ := houts
  have hlength : (found.map (·.1)).length = Us.length := by
    rw [hkeys, ← hwritten.length_eq, helab.length_eq]
  exact ⟨_, hnames ▸ .record hUs _, .record hlength helab⟩

theorem yields_assign (hexpand : Expands w₀ base (expand depth))
    (hframes : Frames w₀.spaces base ribs scope) (hw : Inside w₀ ribs w) {T : ContextTree}
    {x : String} (hhead : HeadSeen w₀.spaces .set head) (hvalue : WrittenIn w₀ base ribs scope e T)
    {parts : List Syntax}
    (hparts : List.Forall₂ Shows [head, .leaf (nameIn base ribs x), T] parts) :
    Yields w (fun out _ => Out w₀.spaces base ribs (.assign x e) out)
      (core (expand depth) loader ns .set form parts context) := by
  obtain _ | ⟨hheadShows, _ | ⟨hid, _ | ⟨hvalueShows, _ | _⟩⟩⟩ := hparts
  simp only [core, hid.isIdentifier_of_name rfl]
  refine .guard_bind ?_
  refine (hexpand hframes hw hvalue hvalueShows _).bind fun out _ _ hout => .pure ?_
  obtain ⟨U, hU, helab⟩ := hout
  exact ⟨_, .rebuildSexp (.cons hheadShows (.cons hid (.cons hU .nil))) form, .assign x hhead helab⟩

/-- A form as it is written is expanded to the expression it is read as. -/
theorem yields_source (hexpand : Expands w₀ base (expand depth))
    (hframes : Frames w₀.spaces base ribs scope) (hw : Inside w₀ ribs w) {t : PlainTree}
    (h : ReadAs (topValue? w₀.spaces base) scope t e) (hform : Shows (placed base ribs t) form) :
    Yields w (fun out _ => Out w₀.spaces base ribs e out)
      (expandForm ns loader expand fuel depth context form) := by
  cases h with
  | data ha =>
      rw [placed, FormTree.map_leaf] at hform
      exact yields_data ha hform
  | ref x =>
      rw [placed_name] at hform
      exact yields_ref hw hform
  | list h =>
      rw [placed_group] at hform
      exact yields_list hexpand hframes hw hform (written_all h)
  | record hkeys h =>
      rw [placed_record] at hform
      exact yields_record hexpand hframes hw (by simpa using hkeys) hform (written_all h)
  | quoted hhead hf =>
      rw [PlainTree.sexp, placed_group] at hform
      refine yields_core hw hform (hhead.seen hframes) fun parts _ => ?_
      have hout : Out w₀.spaces base ribs .quoted form :=
        ⟨_, hform, .quoted (hhead.seen hframes) hf⟩
      rcases hf with rfl | rfl
      · exact .guard_bind (.pure hout)
      · exact .guard_bind (.pure hout)
  | assign x hhead h =>
      rw [PlainTree.sexp, placed_group] at hform
      refine yields_core hw hform (hhead.seen hframes) fun parts hparts => ?_
      rw [List.map_cons, List.map_cons, placed_name] at hparts
      exact yields_assign hexpand hframes hw (hhead.seen hframes) (.source h) hparts
  | branch hhead h =>
      rw [PlainTree.sexp, placed_group] at hform
      refine yields_core hw hform (hhead.seen hframes) fun parts hparts => ?_
      obtain _ | ⟨hheadShows, hrest⟩ := hparts
      refine .guard_bind ?_
      refine (yields_expandEach hexpand hframes hw (written_all h) hrest _).bind
        fun outs _ _ houts => .pure ?_
      obtain ⟨Us, hUs, helab⟩ := houts
      exact ⟨_, .rebuildSexp (.cons hheadShows hUs) form, .branch (hhead.seen hframes) helab⟩
  | sequence hhead h =>
      rw [PlainTree.sexp, placed_group] at hform
      refine yields_core hw hform (hhead.seen hframes) fun parts hparts => ?_
      obtain _ | ⟨hheadShows, hrest⟩ := hparts
      refine (yields_expandEach hexpand hframes hw (written_all h) hrest _).bind
        fun outs _ _ houts => .pure ?_
      obtain ⟨Us, hUs, helab⟩ := houts
      exact ⟨_, .rebuildSexp (.cons hheadShows hUs) form, .sequence (hhead.seen hframes) helab⟩
  -- From here on the forms bind names: their parts are read in a longer scope.
  | lambda hhead h =>
      rw [PlainTree.sexp, placed_group, List.map_cons, List.map_cons, PlainTree.sexp, placed_group,
        map_placed_names] at hform
      refine yields_core hw hform (hhead.seen hframes) fun parts hparts => ?_
      exact yields_lambda hexpand hframes hw (hhead.seen hframes) (written_under h) hparts
  | lambdaRest hhead h =>
      rw [PlainTree.sexp, placed_group, List.map_cons, List.map_cons, placed_name] at hform
      refine yields_core hw hform (hhead.seen hframes) fun parts hparts => ?_
      exact yields_lambdaRest hexpand hframes hw (hhead.seen hframes) (written_under h) hparts
  | letIn hhead hnames hinits h =>
      rw [PlainTree.sexp, placed_group, List.map_cons, List.map_cons, placed_clauses,
        map_placed_names] at hform
      refine yields_core hw hform (hhead.seen hframes) fun parts hparts => ?_
      exact yields_plainLet hexpand hframes hw (hhead.seen hframes) (by simpa using hnames)
        (written_all hinits) (written_under h) hparts
  | letrec hhead hnames hinits h =>
      rw [PlainTree.sexp, placed_group, List.map_cons, List.map_cons, placed_clauses,
        map_placed_names] at hform
      refine yields_core hw hform (hhead.seen hframes) fun parts hparts => ?_
      exact yields_letrec hexpand hframes hw (hhead.seen hframes) (by simpa using hnames)
        (written_under hinits) (written_under h) hparts
  | namedLet hhead hnames hinits h =>
      rw [PlainTree.sexp, placed_group, List.map_cons, List.map_cons, List.map_cons, placed_name,
        placed_clauses, map_placed_names] at hform
      refine yields_core hw hform (hhead.seen hframes) fun parts hparts => ?_
      exact yields_namedLet hexpand hframes hw hnames hinits h hparts
  | parameterize hhead hlength hparameters hvalues h =>
      rw [PlainTree.sexp, placed_group, List.map_cons, List.map_cons, placed_clauses] at hform
      refine yields_core hw hform (hhead.seen hframes) fun parts hparts => ?_
      exact yields_parameterize hexpand hframes hw (hhead.seen hframes) (by simpa using hlength)
        (written_all hparameters) (written_all hvalues) (written_all h) hparts
  | apply hhead hoperator hoperands =>
      rw [PlainTree.sexp, placed_group] at hform
      exact yields_apply hexpand hframes hw hform (fun stx hstx => hhead.applicable hframes hstx)
        (written_all (.cons hoperator hoperands))

theorem expands_expandForm (hground : Ground w₀ base) (hexpand : Expands w₀ base (expand depth)) :
    Expands w₀ base (expandForm ns loader expand fuel depth) := by
  intro ribs scope e T form w hframes hw hwritten hform context
  cases hwritten with
  | source h => exact yields_source hexpand hframes hw h hform
  | procedure hhead h =>
      refine yields_core hw hform ⟨_, rfl, hhead⟩ fun parts hparts => ?_
      exact yields_lambda hexpand hframes hw ⟨_, rfl, hhead⟩ (written_under h) hparts
  | operator h =>
      refine yields_core hw hform ⟨_, rfl, hground.letrec⟩ fun parts hparts => ?_
      exact yields_loopOperator hground hexpand hframes hw h hparts
  | call hinits h =>
      refine yields_apply hexpand hframes hw hform ?_ (.cons (.operator h) (written_all hinits))
      exact fun stx hstx => applicable_of_not_identifier hstx.isIdentifier_of_group

end

theorem yields_descend (depth : Nat) (form : Syntax) :
    Yields w (fun _ w' => w' = w) (descend depth form) := by
  refine .get_bind ?_
  split
  · split
    · exact .failAt _ _
    · exact .pure rfl
  · exact .pure rfl

/-- Expansion takes a form for the expression it is read as, and places the ribs accordingly. -/
theorem yields_expand (loader : Loader) (ns : NamespaceId) (hground : Ground w₀ base)
    (fuel depth : Nat) : Expands w₀ base (Expansion.expand loader ns fuel depth) := by
  induction fuel generalizing depth with
  | zero => exact fun _ _ _ _ _ _ _ _ _ _ _ => .exhausted
  | succ fuel ih =>
      intro ribs scope e T form w hframes hw hwritten hform context
      refine (yields_descend depth form).bind fun depth' w₁ _ hsame => ?_
      subst hsame
      exact .mapError _ (expands_expandForm hground (ih depth') hframes hw hwritten hform context)

end HygienicLisp
