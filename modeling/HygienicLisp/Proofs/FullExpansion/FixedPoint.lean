import HygienicLisp.Proofs.FullExpansion.SecondExpansion
import HygienicLisp.Proofs.Renaming.Invariance

/-!
# Full expansion reaches a fixed point

The result `e` of an expansion is settled in the world that the expansion leaves.  Expanding it again
there invokes no transformer, and what comes out is compiled as `e` is.

Transformers are procedures and run while a form is expanded, which sets three conditions.

* A form is expanded as what its head is when expansion comes to it.  A transformer may store
  another value there later, and then the form is no longer what it was taken for.  So every form has
  to be met as what it is in the end; the watched run says so.
* A binding that is recorded on an identifier is dropped by new wraps, so that under a new rib it does
  not count (`MeantByWraps`).
* A transformer may save an identifier and return it elsewhere with marks of its own.  It still denotes
  its variable, but the new rib of the binder does not take hold of it (`Intact`).

`second_expansion_differs` has a run for each of them in which the conclusion fails.
-/

namespace HygienicLisp

open Expansion

/-- Nothing is left to expand in the result of an expansion.  In the world that is left, the result is
expanded again without a transformer being invoked, as nothing but ribs is drawn, and it is compiled
before and after to the same code up to embedded syntax. -/
theorem expansion_fixed_point {loader : Loader} {ns : NamespaceId} {fuel depth : Nat}
    {form e : Syntax} {w w' : World} (hunlimited : w.runtime.config.maxExpansionDepth = none)
    (hrun : expand loader ns fuel depth .expression form w = .ok e w')
    (hsteady : Watched.expand (steady w'.spaces) loader ns fuel depth .expression form w =
      expand loader ns fuel depth .expression form w) :
    Settled w'.spaces w'.nextRib [] e ∧
      (MeantByWraps w'.spaces e → ∀ (loader' : Loader) (ns' : NamespaceId) (fuel' depth' : Nat),
        e.weight < fuel' → ∃ e' n,
          expand loader' ns' fuel' depth' .expression e w' = .ok e' { w' with nextRib := n } ∧
          (Intact w'.spaces e → ∀ (ns'' : NamespaceId) (code : Code) (w₁ : World),
            compile ns'' e w' = .ok code w₁ →
            ∃ code' w₂, compile ns'' e' { w' with nextRib := n } = .ok code' w₂ ∧
              code'.erased = code.erased)) := by
  obtain ⟨hcalm, hsettled⟩ := settled_expand fuel depth (hsteady.trans hrun)
  have hsettled : Settled w'.spaces w'.nextRib [] e :=
    hsettled hcalm.cells.symm [] w'.nextRib (List.forall_mem_nil _) le_rfl
  refine ⟨hsettled, fun hmeant loader' ns' fuel' depth' hfuel => ?_⟩
  have hwithin : Within w'.spaces e [] e :=
    ⟨List.forall_mem_nil _, fun x hx => hx, fun hne => absurd rfl hne⟩
  have hready : ReadyFor w'.spaces w'.nextRib [] w' :=
    ⟨rfl, hcalm.runtime ▸ hunlimited, le_rfl, List.forall_mem_nil _⟩
  obtain ⟨e', n, -, hexpanded, hrenewed⟩ :=
    hsettled.renewable hmeant hwithin .nil hfuel depth' w' hready
  refine ⟨e', n, hexpanded, fun hintact ns'' code w₁ hcode => ?_⟩
  have hreads : SameReads w'.spaces w' := ⟨rfl, fun _ _ => rfl⟩
  have hspaces : (w'.atRib n).spaces = w'.spaces := rfl
  obtain ⟨code', w₂, hcode', hsame, -⟩ :=
    hrenewed.code hintact ns'' (e.weight + 1) hreads hspaces hcode
  refine ⟨code', w₂, ?_, hsame⟩
  rw [compile, hrenewed.weight]
  exact hcode'

/-- Whether `check` holds of the form and of everything in it, down to the depth `n`. -/
def Syntax.everyPart (check : Syntax → Bool) : Nat → Syntax → Bool
  | 0, _ => false
  | n + 1, stx =>
    check stx && stx.subforms.all (everyPart check n) &&
      (stx.elements?.getD []).all (everyPart check n) &&
      (stx.fields?.getD []).all fun field => everyPart check n field.2

theorem Syntax.Has.of_everyPart {check : Syntax → Bool} {n : Nat} {stx x : Syntax}
    (h : stx.everyPart check n) (hx : stx.Has x) : check x := by
  suffices hdeep : ∃ m, x.everyPart check (m + 1) by
    obtain ⟨m, hm⟩ := hdeep
    simp only [everyPart, Bool.and_eq_true] at hm
    exact hm.1.1.1
  have hsucc {m : Nat} {part : Syntax} (hpart : part.everyPart check m) :
      ∃ k, part.everyPart check (k + 1) := by
    cases m with
    | zero => cases hpart
    | succ m => exact ⟨m, hpart⟩
  induction hx with
  | self => exact hsucc h
  | subform _ hpart ih =>
      obtain ⟨m, hm⟩ := ih
      simp only [everyPart, Bool.and_eq_true, List.all_eq_true] at hm
      exact hsucc (hm.1.1.2 _ hpart)
  | element _ hpart ih =>
      obtain ⟨m, hm⟩ := ih
      simp only [everyPart, Bool.and_eq_true, List.all_eq_true] at hm
      exact hsucc (hm.1.2 _ hpart)
  | field _ hfield ih =>
      obtain ⟨m, hm⟩ := ih
      simp only [everyPart, Bool.and_eq_true, List.all_eq_true] at hm
      exact hsucc (hm.2 _ hfield)

/-- Whether identifiers of the form that denote one local variable agree in their marks, and ribs with
one number are one rib. -/
def Spaces.agree (S : Spaces) (x y : Syntax) : Bool :=
  (match S.resolve x, S.resolve y with
    | some (.lexical u), some (.lexical v) =>
      !(u.rib = v.rib && u.slot = v.slot) || S.boundIdentifierEq x y
    | _, _ => true) &&
  x.wraps.all fun wrap => y.wraps.all fun other =>
    match wrap, other with
    | .rename a, .rename b => !(a.id = b.id) || a = b
    | _, _ => true

/-- Whether the form is intact and every identifier in it means what its wraps give it. -/
def Spaces.sound (S : Spaces) (e : Syntax) : Bool :=
  e.everyPart (fun x => S.resolve x = (S.resolveWithMarks x).1 && e.everyPart (S.agree x) 9) 9

theorem MeantByWraps.of_sound {S : Spaces} {e : Syntax} (h : S.sound e) : MeantByWraps S e := by
  intro form part x hform hpart hx
  simpa using (Bool.and_eq_true_iff.1 ((hform.trans (hpart.has hx)).of_everyPart h)).1

theorem Intact.of_sound {S : Spaces} {e : Syntax} (h : S.sound e) : Intact S e := by
  have hagree {x y : Syntax} (hx : e.Has x) (hy : e.Has y) : S.agree x y :=
    hy.of_everyPart (Bool.and_eq_true_iff.1 (hx.of_everyPart h)).2
  refine ⟨fun x y u v hx hy hu hv hrib hslot => ?_, fun x y a b hx hy ha hb hid => ?_⟩
  · have hsame := (Bool.and_eq_true_iff.1 (hagree hx hy)).1
    simpa [hu, hv, hrib, hslot] using hsame
  · have hribs := (Bool.and_eq_true_iff.1 (hagree hx hy)).2
    simpa [hid] using List.all_eq_true.1 (List.all_eq_true.1 hribs _ ha) _ hb

/-- Whether `form` expands in `world` in both runs, to a form that is sound and is compiled. -/
def reachesFixedPoint (world : World) (form : Syntax) : Bool :=
  endsWith (fun e w =>
    endsWith (fun _ _ => true)
      (Watched.expand (steady w.spaces) .exhausted 0 9 0 .expression form world) &&
    endsWith (fun _ _ => true) (compile 0 e w) && w.spaces.sound e && e.weight < 99)
    (expand .exhausted 0 9 0 .expression form world)

/-- `(lambda (x) (hold x))`, where `hold` puts its operand inside the scope of a temporary. -/
theorem expansion_fixed_point_hold :
    holdWorld.runtime.config.maxExpansionDepth = none ∧
    ∃ e w, expand .exhausted 0 9 0 .expression ((useInLambda "hold" "x").introduce 0) holdWorld =
        .ok e w ∧
      Watched.expand (steady w.spaces) .exhausted 0 9 0 .expression
          ((useInLambda "hold" "x").introduce 0) holdWorld =
        expand .exhausted 0 9 0 .expression ((useInLambda "hold" "x").introduce 0) holdWorld ∧
      Settled w.spaces w.nextRib [] e ∧ MeantByWraps w.spaces e ∧ Intact w.spaces e ∧
      ∃ e' n code w₁ code' w₂,
        expand .exhausted 0 99 0 .expression e w = .ok e' { w with nextRib := n } ∧
        compile 0 e w = .ok code w₁ ∧ compile 0 e' { w with nextRib := n } = .ok code' w₂ ∧
        code'.erased = code.erased := by
  have hreaches : reachesFixedPoint holdWorld ((useInLambda "hold" "x").introduce 0) := by
    decide +kernel
  have hunlimited : holdWorld.runtime.config.maxExpansionDepth = none := rfl
  obtain ⟨e, w, hrun, hreaches⟩ := exists_of_endsWith hreaches
  simp only [Bool.and_eq_true, decide_eq_true_eq] at hreaches
  obtain ⟨⟨⟨hwatched, hcompiles⟩, hsound⟩, hweight⟩ := hreaches
  obtain ⟨_, _, hwatched, -⟩ := exists_of_endsWith hwatched
  obtain ⟨code, w₁, hcode, -⟩ := exists_of_endsWith hcompiles
  have hsteady := hwatched.trans (Watched.expand_eq_ok hwatched).symm
  obtain ⟨hsettled, hagain⟩ := expansion_fixed_point hunlimited hrun hsteady
  obtain ⟨e', n, hexpanded, hsame⟩ := hagain (.of_sound hsound) .exhausted 0 99 0 hweight
  obtain ⟨code', w₂, hcode', herased⟩ := hsame (.of_sound hsound) 0 code w₁ hcode
  exact ⟨hunlimited, e, w, hrun, hsteady, hsettled, .of_sound hsound, .of_sound hsound, e', n,
    code, w₁, code', w₂, hexpanded, hcode, hcode', herased⟩

/-! ## Runs that differ -/

/-- Runs code on the input of a transformer. -/
def transformerOf (body : Code) : Value := .transformer 0 0 (.closure 1 false body ⟨0, none⟩)

/-- An identifier without context on which the binding of `kept` is recorded. -/
def recordedName : Syntax := .atom { binding := some (.cell ⟨0, 6⟩) } (.symbol "kept")

/-- A session with `lambda`, a variable `v` and transformers: `install` stores the transformer
`seven` in `v`, `save` stores its operand in `kept`, `recall` returns what is stored there, and
`stale` has a template that carries the mark which is drawn next.

The text of a program yields no template like that of `stale`: it has no mark before the mark is drawn,
and no binding is recorded on what its transformers are given.  A host has both at hand, in what it
predefines and in the input of its own transformers; `stale` stands for one of those, by what it
returns when it is first called. -/
def restlessWorld : World where
  spaces := #[
    { home := ⟨"/top"⟩
      kind := .topLevel
      entries := definedCells 0 ⟨"/top"⟩
        ["lambda", "v", "seven", "install", "save", "recall", "kept", "stale"]
      definitionCount := 8
      values := #[some (.form .lambda), some .void,
        some (transformerOf (.constant (.stx (.atom {} (.int 7))))),
        some (transformerOf (.sequence
          [.topSet 1 (.topRef 2 "seven"), .constant (.stx (.atom {} (.int 1)))])),
        some (transformerOf (.sequence
          [.topSet 6 operandCode, .constant (.stx (.atom {} (.int 1)))])),
        some (transformerOf (.topRef 6 "kept")),
        some .void,
        some (transformerOf (.constant (.stx
          (.group { wraps := [.mark 1] } .sexp [recordedName]))))] }]

/-- A call in the session. -/
def callOf (items : List Syntax) : Syntax := .group {} .sexp items

/-- `(v (install))` -/
def installing : Syntax := callOf [sessionId "v", callOf [sessionId "install"]]

/-- `(lambda (y) (save y) (recall))` -/
def recalling : Syntax :=
  callOf [sessionId "lambda", callOf [sessionId "y"], callOf [sessionId "save", sessionId "y"],
    callOf [sessionId "recall"]]

/-- `(lambda (y) (stale))` -/
def stalling : Syntax :=
  callOf [sessionId "lambda", callOf [sessionId "y"], callOf [sessionId "stale"]]

/-- Whether `check` holds of the form and the world that an expansion leaves, and of those that its
expansion in that world leaves. -/
def expandTwice (form : Syntax) (check : Syntax → World → Syntax → World → Bool) : Bool :=
  endsWith (fun e w => endsWith (check e w) (expand .exhausted 0 9 0 .expression e w))
    (expand .exhausted 0 9 0 .expression form restlessWorld)

theorem of_expandTwice {form : Syntax} {check : Syntax → World → Syntax → World → Bool}
    (h : expandTwice form check) :
    ∃ e w e' w', expand .exhausted 0 9 0 .expression form restlessWorld = .ok e w ∧
      expand .exhausted 0 9 0 .expression e w = .ok e' w' ∧ check e w e' w' := by
  obtain ⟨e, w, hfirst, h⟩ := exists_of_endsWith h
  obtain ⟨e', w', hsecond, h⟩ := exists_of_endsWith h
  exact ⟨e, w, e', w', hfirst, hsecond, h⟩

/-- Whether the code is a procedure that calls what is in a cell of the namespace. -/
def callsCell : Code → Bool
  | .lambda _ _ _ (.apply (.topRef _ _) _ _) => true
  | _ => false

/-- A transformer that stores a transformer leaves a form to be expanded; an identifier that a
transformer has saved loses its binder; a binding that a host has recorded is lost. -/
theorem second_expansion_differs :
    restlessWorld.runtime.config.maxExpansionDepth = none ∧
    (∃ e w e' w', expand .exhausted 0 9 0 .expression installing restlessWorld = .ok e w ∧
      expand .exhausted 0 9 0 .expression e w = .ok e' w' ∧
      headKind w.spaces e.deciding = .transformer ∧ w'.nextMark ≠ w.nextMark) ∧
    (∃ e w e' w', expand .exhausted 0 9 0 .expression recalling restlessWorld = .ok e w ∧
      expand .exhausted 0 9 0 .expression e w = .ok e' w' ∧
      (∃ code w₁, compile 0 e w = .ok code w₁) ∧ ¬∃ code w₂, compile 0 e' w' = .ok code w₂) ∧
    (∃ e w e' w', expand .exhausted 0 9 0 .expression stalling restlessWorld = .ok e w ∧
      expand .exhausted 0 9 0 .expression e w = .ok e' w' ∧
      ∃ code w₁ code' w₂, compile 0 e w = .ok code w₁ ∧ compile 0 e' w' = .ok code' w₂ ∧
        code'.erased ≠ code.erased) := by
  refine ⟨rfl, ?installed, ?saved, ?recorded⟩
  case installed =>
    have hinstalled : expandTwice installing fun e w _ w' =>
        headKind w.spaces e.deciding = .transformer && w'.nextMark ≠ w.nextMark := by decide +kernel
    obtain ⟨e, w, e', w', hfirst, hsecond, hcheck⟩ := of_expandTwice hinstalled
    exact ⟨e, w, e', w', hfirst, hsecond, by simpa using hcheck⟩
  case saved =>
    have hsaved : expandTwice recalling fun e w e' w' =>
        endsWith (fun _ _ => true) (compile 0 e w) &&
          !endsWith (fun _ _ => true) (compile 0 e' w') := by decide +kernel
    obtain ⟨e, w, e', w', hfirst, hsecond, hcheck⟩ := of_expandTwice hsaved
    obtain ⟨hcode, hnone⟩ := Bool.and_eq_true_iff.1 hcheck
    obtain ⟨code, w₁, hcode, -⟩ := exists_of_endsWith hcode
    refine ⟨e, w, e', w', hfirst, hsecond, ⟨code, w₁, hcode⟩, ?_⟩
    rintro ⟨code', w₂, hcode'⟩
    simp [hcode', endsWith] at hnone
  case recorded =>
    have hrecorded : expandTwice stalling fun e w e' w' =>
        endsWith (fun code _ => callsCell code.erased) (compile 0 e w) &&
          endsWith (fun code _ => !callsCell code.erased) (compile 0 e' w') := by decide +kernel
    obtain ⟨e, w, e', w', hfirst, hsecond, hcheck⟩ := of_expandTwice hrecorded
    obtain ⟨hcalls, hcalls'⟩ := Bool.and_eq_true_iff.1 hcheck
    obtain ⟨code, w₁, hcode, hcell⟩ := exists_of_endsWith hcalls
    obtain ⟨code', w₂, hcode', hno⟩ := exists_of_endsWith hcalls'
    refine ⟨e, w, e', w', hfirst, hsecond, code, w₁, code', w₂, hcode, hcode', fun herased => ?_⟩
    simp [herased, hcell] at hno

end HygienicLisp
