import HygienicLisp.Proofs.Invocation

/-!
# Hygiene of a run of a transformer

`Hygienic` says what is true of the result of one invocation under a mark that was in no
chain before: each of its identifiers comes from the caller's form or is the transformer's
own, the caller's are back in the context they had, the others are marked, and neither kind
is captured by binders of the other kind.

Main statement: every run of `invoke` that ends well is hygienic, however its output was put
together (`invoke_hygienic`).
-/

namespace HygienicLisp

/-! ## Runs -/

/-- Forms that differ in labels only have parts that differ in labels only. -/
theorem extract?_of_unlabelled_eq {stx stx' found : Syntax} (h : stx.unlabelled = stx'.unlabelled)
    {path : List Part} (hfound : extract? path stx = some found) :
    ∃ found', extract? path stx' = some found' ∧ found'.unlabelled = found.unlabelled := by
  have hpath := extract?_unlabelled path stx
  rw [h, extract?_unlabelled, hfound, Option.map_some] at hpath
  exact Option.map_eq_some_iff.1 hpath

/-- The form that a transformer is run on in a world, and the next label afterwards. -/
def transformerInput (w : World) (form : Syntax) : Syntax × Nat :=
  (form.addWrap (.mark w.nextMark)).stamp w.nextLabel

/-- The world that a transformer is run in. -/
def transformerWorld (w : World) (form : Syntax) : World :=
  { w with nextMark := w.nextMark + 1, nextLabel := (transformerInput w form).2 }

/-- A run of `invoke` that ends well: the transformer was run on the marked form, and the mark
was put on the syntax object it returned. -/
theorem invoke_eq_ok {fuel : Nat} {id procedureId : ObjectId} {p : Procedure} {form result : Syntax}
    {w w' : World} (h : invoke fuel id procedureId p form w = .ok result w') :
    ∃ output, applyProcedure fuel (.procedure procedureId p) [.stx (transformerInput w form).1]
        (transformerWorld w form) = .ok (.stx output) w' ∧
      result = output.addWrap (.mark w.nextMark) := by
  rw [invoke, RunM.bind_eq_ok] at h
  obtain ⟨mark, w₁, hmark, h⟩ := h
  obtain ⟨rfl, rfl⟩ : w.nextMark = mark ∧ { w with nextMark := w.nextMark + 1 } = w₁ := by
    simpa using hmark
  obtain ⟨w₀, w₂, hget, h⟩ := RunM.bind_eq_ok.1 h
  obtain ⟨rfl, rfl⟩ : { w with nextMark := w.nextMark + 1 } = w₀ ∧
      { w with nextMark := w.nextMark + 1 } = w₂ := by
    simpa using hget
  obtain ⟨input, w₃, hinput, h⟩ := RunM.bind_eq_ok.1 h
  obtain ⟨rfl, rfl⟩ : (transformerInput w form).1 = input ∧ transformerWorld w form = w₃ := by
    simpa [transformerInput, transformerWorld] using hinput
  obtain ⟨v, w₄, hv, h⟩ := RunM.bind_eq_ok.1 h
  rw [RunM.mapError_eq_ok] at hv
  cases v with
  | stx output =>
      obtain ⟨rfl, rfl⟩ : output.addWrap (.mark w.nextMark) = result ∧ w₄ = w' := by
        simpa using h
      exact ⟨output, hv, rfl⟩
  | _ => simp at h

/-! ## The two kinds of identifiers -/

/-- Whether the place belongs to syntax of the transformer's own. -/
def Origin.isOwn : Origin → Bool
  | .caller _ => false
  | .own _ _ => true

/-- An identifier of a result that comes from the caller or is the transformer's own, under any
later wraps but the mark of the invocation. -/
def Assembly.Yields (a : Assembly) (m : Mark) (result : Syntax) (own : Bool) (id : Syntax) : Prop :=
  ∃ path origin found newer, a.Leads path origin ∧ origin.isOwn = own ∧
    extract? path result = some found ∧ .mark m ∉ newer ∧ id = found.addWraps newer

/-- What is true of the result of an invocation under the mark `m`, whose output was put
together from parts of the marked form and from older syntax as `a` says. -/
structure Hygienic (m : Mark) (form result : Syntax) (a : Assembly) : Prop where
  /-- Every identifier is from the caller's form or the transformer's own. -/
  classified : ∀ path id, extract? path result = some id → id.isIdentifier →
    ∃ origin, a.Leads path origin
  /-- An identifier from the caller's form has the chain it had there, so it resolves as its
  wraps did there.  A binding that was recorded on it may be dropped. -/
  restored : ∀ path source id, a.Leads path (.caller source) → extract? path result = some id →
    ∃ orig, extract? source form = some orig ∧ id.symbol? = orig.symbol? ∧
      id.wraps = orig.wraps ∧ ∀ spaces : Spaces,
        spaces.resolveWithMarks id = spaces.resolveWithMarks orig ∧
        (orig.context.binding = none → spaces.resolve id = spaces.resolve orig) ∧
        (spaces.resolve id = spaces.resolve orig ∨
          spaces.resolve id = (spaces.resolveWithMarks orig).1)
  /-- An identifier of the transformer's own has the mark, so it is no identifier that was
  there before. -/
  marked : ∀ path stx rest id, a.Leads path (.own stx rest) → extract? path result = some id →
    m ∈ wrapMarks id.wraps ∧ ∀ (spaces : Spaces) (old : Syntax), .mark m ∉ old.wraps →
      spaces.boundIdentifierEq id old = false
  /-- A rib of binders of one kind is not seen by identifiers of the other kind. -/
  apart : ∀ (own : Bool) (binders : List Syntax) (id : Syntax) (spaces : Spaces) (number : RibId)
    (rib : Rib), (∀ binder ∈ binders, a.Yields m result own binder) →
    a.Yields m result (!own) id → Rib.ofBinders spaces number binders = .ok rib →
    ∀ (now : Spaces) (newer : List Wrap),
      now.resolveWithMarks ((id.addWrap (.rename rib)).addWraps newer) =
        now.resolveWithMarks (id.addWraps newer) ∧
      ((id.addWraps newer).context.binding = none →
        now.resolve ((id.addWrap (.rename rib)).addWraps newer) = now.resolve (id.addWraps newer))

theorem Restores.resolveWithMarks {orig id : Syntax} (h : Restores orig id) (spaces : Spaces) :
    spaces.resolveWithMarks id = spaces.resolveWithMarks orig := by
  rw [Spaces.resolveWithMarks, Spaces.resolveWithMarks, h.name, h.wraps]

theorem boundIdentifierEq_of_marks {spaces : Spaces} {id old : Syntax}
    (h : wrapMarks id.wraps ≠ wrapMarks old.wraps) : spaces.boundIdentifierEq id old = false := by
  rw [Spaces.boundIdentifierEq]
  cases hid : id.symbol? with
  | none => rfl
  | some x =>
      cases hold : old.symbol? with
      | none => rfl
      | some y =>
          refine decide_eq_false fun hkey => h ?_
          have hmarks := congrArg Key.marks hkey
          simpa [Spaces.bindingKey, Spaces.resolveWithMarks, hid, hold,
            Spaces.resolveWraps_marks] using hmarks

theorem binding_addWraps_of_none {stx : Syntax} (h : stx.context.binding = none)
    (newer : List Wrap) : (stx.addWraps newer).context.binding = none := by
  cases newer with
  | nil => exact h
  | cons wrap newer => rw [Syntax.addWraps_cons, Syntax.binding_addWrap]

/-- A rib put on an identifier whose marks no binder has is not seen, whatever comes later. -/
theorem resolveWithMarks_rename_of_marks {spaces : Spaces} {rib : Rib} {id : Syntax}
    (h : ∀ key ∈ rib.keys, key.marks ≠ wrapMarks id.wraps) (newer : List Wrap) :
    spaces.resolveWithMarks ((id.addWrap (.rename rib)).addWraps newer) =
      spaces.resolveWithMarks (id.addWraps newer) := by
  rw [Spaces.resolveWithMarks, Spaces.resolveWithMarks, symbol?_addWraps, symbol?_addWraps,
    Syntax.symbol?_addWrap]
  cases id.symbol? with
  | none => rfl
  | some name =>
      have hold := spaces.resolveWraps_congr name none (cancelled_wraps_addWraps newer id)
      have hnew := spaces.resolveWraps_congr name none
        (cancelled_wraps_addWraps newer (id.addWrap (.rename rib)))
      rw [Syntax.wraps_addWrap, pushWrap_rename] at hnew
      exact (hnew.trans (spaces.resolveWraps_rename_of_marks name none h newer)).trans hold.symm

/-! ## Places of a result -/

/-- What the result of an invocation has at a place that comes from `origin`. -/
def Origin.Holds (m : Mark) (form : Syntax) (origin : Origin) (id : Syntax) : Prop :=
  match origin with
  | .caller path => ∃ orig, extract? path form = some orig ∧ Restores orig id
  | .own stx path => ∃ old, extract? path stx = some old ∧ id.symbol? = old.symbol? ∧
      id.wraps = Syntax.pushWrap (.mark m) old.wraps

/-- The result of an invocation whose output is, up to labels, put together as `a` says from
parts of the marked form and from syntax without the mark. -/
structure Assembled (m : Mark) (form result : Syntax) (a : Assembly) : Prop where
  form_avoids : form.Avoids m
  prior_avoids : ∀ path stx rest, a.Leads path (.own stx rest) → stx.Avoids m
  output : ∃ output assembled : Syntax, a.output? (form.addWrap (.mark m)) = some assembled ∧
    assembled.unlabelled = output.unlabelled ∧ result = output.addWrap (.mark m)

namespace Assembled

variable {m : Mark} {form result : Syntax} {a : Assembly}

theorem extract (h : Assembled m form result a) {path : List Part} {id : Syntax}
    (hid : extract? path result = some id) :
    ∃ assembled found, a.output? (form.addWrap (.mark m)) = some assembled ∧
      extract? path (assembled.addWrap (.mark m)) = some found ∧
      found.unlabelled = id.unlabelled := by
  obtain ⟨output, assembled, hout, hsame, rfl⟩ := h.output
  have hmarked : (output.addWrap (.mark m)).unlabelled =
      (assembled.addWrap (.mark m)).unlabelled := by
    rw [Syntax.unlabelled_addWrap, Syntax.unlabelled_addWrap, hsame]
  obtain ⟨found, hfound, hlabels⟩ := extract?_of_unlabelled_eq hmarked hid
  exact ⟨assembled, found, hout, hfound, hlabels⟩

theorem leads (h : Assembled m form result a) {path : List Part} {id : Syntax}
    (hid : extract? path result = some id) (hname : id.isIdentifier) :
    ∃ origin, a.Leads path origin := by
  obtain ⟨assembled, found, hout, hfound, hlabels⟩ := h.extract hid
  refine Assembly.hasOrigins _ a assembled path found hout hfound ?_
  rwa [Syntax.isIdentifier, ← Syntax.symbol?_unlabelled, hlabels, Syntax.symbol?_unlabelled]

theorem holds (h : Assembled m form result a) {path : List Part} {origin : Origin} {id : Syntax}
    (hleads : a.Leads path origin) (hid : extract? path result = some id) :
    origin.Holds m form id := by
  obtain ⟨assembled, found, hout, hfound, hlabels⟩ := h.extract hid
  have hat := hleads.extract h.form_avoids h.prior_avoids hout hfound
  have hname : id.symbol? = found.symbol? := by
    rw [← Syntax.symbol?_unlabelled, ← hlabels, Syntax.symbol?_unlabelled]
  have hwraps : id.wraps = found.wraps := by
    rw [← Syntax.wraps_unlabelled, ← hlabels, Syntax.wraps_unlabelled]
  have hbinding : id.context.binding = found.context.binding := by
    rw [← Syntax.binding_unlabelled, ← hlabels, Syntax.binding_unlabelled]
  cases origin with
  | caller source =>
      obtain ⟨orig, horig, hrestores⟩ := hat
      refine ⟨orig, horig, hname.trans hrestores.name, hwraps.trans hrestores.wraps, ?_⟩
      rw [hbinding]
      exact hrestores.binding
  | own stx rest =>
      obtain ⟨old, hold, rfl⟩ := hat
      refine ⟨old, hold, ?_, ?_⟩
      · rw [hname, Syntax.symbol?_addWrap]
      · rw [hwraps, Syntax.wraps_addWrap]

/-- The mark of the invocation is on an identifier of the result exactly if it is the
transformer's own. -/
theorem mem_wrapMarks_iff (h : Assembled m form result a) {path : List Part} {origin : Origin}
    {id : Syntax} (hleads : a.Leads path origin) (hid : extract? path result = some id) :
    m ∈ wrapMarks id.wraps ↔ origin.isOwn := by
  have hholds := h.holds hleads hid
  cases origin with
  | caller source =>
      obtain ⟨orig, horig, hrestores⟩ := hholds
      have hout := not_mem_wrapMarks (h.form_avoids.extract horig).not_mem_wraps
      rw [hrestores.wraps]
      simp [hout, Origin.isOwn]
  | own stx rest =>
      obtain ⟨old, hold, -, hwraps⟩ := hholds
      have hprior := (h.prior_avoids path stx rest hleads).extract hold
      have hout := not_mem_wrapMarks hprior.not_mem_wraps
      rw [hwraps, wrapMarks_pushWrap, wrapMarks, MarkSet.mem_toggle]
      simp [hout, Origin.isOwn]

theorem mem_wrapMarks_of_yields (h : Assembled m form result a) {own : Bool} {id : Syntax}
    (hid : a.Yields m result own id) : m ∈ wrapMarks id.wraps ↔ own := by
  obtain ⟨path, origin, found, newer, hleads, rfl, hfound, hnewer, rfl⟩ := hid
  rw [wrapMarks_congr (cancelled_wraps_addWraps newer found), mem_wrapMarks_append hnewer]
  exact h.mem_wrapMarks_iff hleads hfound

/-- No key of a rib of binders of one kind has the marks of an identifier of the other. -/
theorem marks_ne_of_yields (h : Assembled m form result a) {own : Bool} {binders : List Syntax}
    {id : Syntax} {spaces : Spaces} {number : RibId} {rib : Rib}
    (hbinders : ∀ binder ∈ binders, a.Yields m result own binder)
    (hid : a.Yields m result (!own) id) (hrib : Rib.ofBinders spaces number binders = .ok rib) :
    ∀ key ∈ rib.keys, key.marks ≠ wrapMarks id.wraps := by
  intro key hkey hsame
  obtain ⟨binder, hbinder, hmarks⟩ := Rib.marks_of_mem_ofBinders hrib hkey
  have h₁ := h.mem_wrapMarks_of_yields (hbinders binder hbinder)
  have h₂ := h.mem_wrapMarks_of_yields hid
  rw [← hmarks, hsame, h₂] at h₁
  cases own <;> simp at h₁

/-- Results that are put together in this way are hygienic. -/
theorem hygienic (h : Assembled m form result a) : Hygienic m form result a where
  classified path id hid hname := h.leads hid hname
  restored path source id hleads hid := by
    obtain ⟨orig, horig, hrestores⟩ := h.holds hleads hid
    refine ⟨orig, horig, hrestores.name, hrestores.wraps, fun spaces => ?_⟩
    have hsame := hrestores.resolveWithMarks spaces
    refine ⟨hsame, fun hnone => ?_, ?_⟩
    -- The recorded binding is either that of the input or lost, and then only the wraps count.
    · have hid : id.context.binding = none := by
        rcases hrestores.binding with hbinding | hbinding
        · rw [hbinding, hnone]
        · exact hbinding
      rw [Spaces.resolve_of_binding_eq_none hnone, Spaces.resolve_of_binding_eq_none hid, hsame]
    · rcases hrestores.binding with hbinding | hbinding
      · left
        rw [Spaces.resolve, Spaces.resolve, hbinding, hsame]
      · right
        rw [Spaces.resolve_of_binding_eq_none hbinding, hsame]
  marked path stx rest id hleads hid := by
    have hmem : m ∈ wrapMarks id.wraps := (h.mem_wrapMarks_iff hleads hid).2 rfl
    refine ⟨hmem, fun spaces old hold => boundIdentifierEq_of_marks fun hsame => ?_⟩
    exact not_mem_wrapMarks hold (hsame ▸ hmem)
  apart own binders id spaces number rib hbinders hid hrib now newer := by
    -- The binder of the rib has other marks than the identifier, so the rib has no say.
    have hsame : now.resolveWithMarks ((id.addWrap (.rename rib)).addWraps newer) =
        now.resolveWithMarks (id.addWraps newer) :=
      resolveWithMarks_rename_of_marks (h.marks_ne_of_yields hbinders hid hrib) newer
    refine ⟨hsame, fun hnone => ?_⟩
    have hrename := binding_addWraps_of_none (Syntax.binding_addWrap (.rename rib) id) newer
    rw [Spaces.resolve_of_binding_eq_none hrename, Spaces.resolve_of_binding_eq_none hnone, hsame]

end Assembled

/-- A transformer that ran well under a mark that is not in the form returned a syntax object,
and the result is hygienic for every way in which that object can have been put together from
parts of the marked form and from syntax without the mark. -/
theorem invoke_hygienic {fuel : Nat} {id procedureId : ObjectId} {p : Procedure}
    {form result : Syntax} {w w' : World}
    (hrun : invoke fuel id procedureId p form w = .ok result w') (hform : form.Avoids w.nextMark) :
    ∃ output, applyProcedure fuel (.procedure procedureId p) [.stx (transformerInput w form).1]
        (transformerWorld w form) = .ok (.stx output) w' ∧
      result = output.addWrap (.mark w.nextMark) ∧
      ∀ a assembled, a.output? (form.addWrap (.mark w.nextMark)) = some assembled →
        assembled.unlabelled = output.unlabelled →
        (∀ path stx rest, a.Leads path (.own stx rest) → stx.Avoids w.nextMark) →
        Hygienic w.nextMark form result a := by
  obtain ⟨output, hv, hresult⟩ := invoke_eq_ok hrun
  refine ⟨output, hv, hresult, fun a assembled hassembled hsame hprior => ?_⟩
  exact Assembled.hygienic ⟨hform, hprior, output, assembled, hassembled, hsame, hresult⟩

/-- A transformer that puts its input behind an identifier of its own. -/
def pairing : Procedure :=
  .closure 1 false
    (.apply (.constant (.procedure 0 (.native Primitive.datumToSyntax.arity .datumToSyntax)))
      [.apply (.constant (.procedure 1 (.native Primitive.sexp.arity .sexp)))
        [.constant (.stx (.ident "tmp")), .localRef 0 0 "stx"] (.ident "sexp")]
      (.ident "datum_to_syntax"))
    ⟨0, none⟩

theorem invoke_pairing_hygienic :
    ∃ result w', invoke 3 2 2 pairing (.sexp [.ident "x", .ident "tmp"] none) {} = .ok result w' ∧
      (Syntax.sexp [.ident "x", .ident "tmp"] none).Avoids 1 ∧
      Hygienic 1 (.sexp [.ident "x", .ident "tmp"] none) result
        (.join none .sexp [.prior (.ident "tmp"), .input []]) := by
  have havoids : (Syntax.sexp [.ident "x", .ident "tmp"] none).Avoids 1 := by
    refine .group (by simp) (by simp) fun stx hstx => ?_
    rcases List.mem_pair.1 hstx with rfl | rfl <;> exact .atom (by simp) (by simp)
  obtain ⟨result, w', hrun⟩ : ∃ result w',
      invoke 3 2 2 pairing (.sexp [.ident "x", .ident "tmp"] none) {} = .ok result w' :=
    ⟨_, _, rfl⟩
  obtain ⟨output, hv, -, h⟩ := invoke_hygienic hrun havoids
  refine ⟨result, w', hrun, havoids, ?_⟩
  cases hv
  refine h _ _ rfl rfl fun path stx rest hleads => ?_
  cases hleads with
  | @subform _ _ i a _ _ ha hleads =>
      match i, ha with
      | 0, ha =>
          cases ha
          cases hleads
          exact .atom (by simp) (by simp)
      | 1, ha =>
          cases ha
          cases hleads

/-- The same chain is not the same binding where one was recorded: a transformer that returns
its input drops it. -/
theorem invoke_drops_recorded_binding :
    ∃ result w', invoke 1 0 0 (.closure 1 false (.localRef 0 0 "stx") ⟨0, none⟩)
        ((Syntax.ident "x").withBinding (.cell ⟨0, 0⟩)) {} = .ok result w' ∧
      ((Syntax.ident "x").withBinding (.cell ⟨0, 0⟩)).Avoids 1 ∧
      (Assembly.input []).output? (((Syntax.ident "x").withBinding (.cell ⟨0, 0⟩)).addWrap (.mark 1)) =
        some ((Syntax.ident "x").addWrap (.mark 1)) ∧
      Spaces.resolve #[] ((Syntax.ident "x").withBinding (.cell ⟨0, 0⟩)) = some (.cell ⟨0, 0⟩) ∧
      Spaces.resolve #[] result = none :=
  ⟨_, _, rfl, .atom (by simp [Syntax.ident, Syntax.context]) (by simp), rfl, rfl, rfl⟩

end HygienicLisp
