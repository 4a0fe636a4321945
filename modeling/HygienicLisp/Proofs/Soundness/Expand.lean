import HygienicLisp.Expansion.Expand
import HygienicLisp.Proofs.Soundness.Invoke

/-!
# Expanded forms have binders that fit

Expansion of an expression is safe, and what it gives is known: it has ribs of this expansion
and of earlier ones only.  A binding form leaves expansion with the binders of its own rib.  As
long as no transformer changes which identifiers denote core forms, compilation takes exactly
those forms for binding forms that expansion has made, so their binders fit.

Main statement: `safe_expand`, by one lemma for each core form.
-/

namespace HygienicLisp

open Compile (Fitting BindersFit binders compiledParts clauseParts)

/-- What expansion gives: a known form, whose binders fit and which is not the name of a core
form, provided that transformers keep the core forms. -/
structure Expanded (w₀ : World) (L : Layout) (stx : Syntax) : Prop where
  known : stx.Known L
  fitting : KeepsForms w₀ → Fitting w₀.spaces stx
  notForm : KeepsForms w₀ → coreForm? w₀.spaces stx = none

variable {w₀ : World} {L L' : Layout}

theorem Expanded.mono (hL : L ≤ L') {stx : Syntax} (h : Expanded w₀ L stx) : Expanded w₀ L' stx :=
  { h with known := h.known.mono hL }

/-! ## Rebuilt forms -/

theorem Syntax.map_addWraps_nil (items : List Syntax) : items.map (Syntax.addWraps []) = items := by
  refine (List.map_congr_left fun stx _ => ?_).trans (List.map_id items)
  rfl

@[simp] theorem Syntax.subforms_rebuildSexp (form : Syntax) (items : List Syntax) :
    (form.rebuildSexp items).subforms = items :=
  Syntax.map_addWraps_nil items

@[simp] theorem Syntax.subforms_sexp (items : List Syntax) (span : Option Span) :
    (Syntax.sexp items span).subforms = items :=
  Syntax.map_addWraps_nil items

@[simp] theorem Syntax.elements?_rebuildList (form : Syntax) (items : List Syntax) :
    (form.rebuildList items).elements? = some items :=
  congrArg some (Syntax.map_addWraps_nil items)

@[simp] theorem Syntax.fields?_rebuildRecord (form : Syntax) (fields : List (String × Syntax)) :
    (form.rebuildRecord fields).fields? = some fields := by
  refine congrArg some ((List.map_congr_left fun field _ => ?_).trans (List.map_id fields))
  rfl

@[simp] theorem Syntax.isIdentifier_rebuildSexp (form : Syntax) (items : List Syntax) :
    (form.rebuildSexp items).isIdentifier = false := rfl

@[simp] theorem Syntax.isIdentifier_addWrap (wrap : Wrap) (stx : Syntax) :
    (stx.addWrap wrap).isIdentifier = stx.isIdentifier := by
  rw [isIdentifier, symbol?_addWrap, isIdentifier]

theorem Syntax.Known.sexp {items : List Syntax} (h : ∀ stx ∈ items, stx.Known L) (span : Option Span) :
    (Syntax.sexp items span).Known L :=
  .group (by simp) (by simp) h

theorem Syntax.Known.rebuildSexp {items : List Syntax} (h : ∀ stx ∈ items, stx.Known L)
    (form : Syntax) : (form.rebuildSexp items).Known L :=
  .group (by simp) (by simp) h

theorem coreForm?_eq_none_of_not_identifier {spaces : Spaces} {stx : Syntax}
    (h : stx.isIdentifier = false) : coreForm? spaces stx = none := by
  simp [coreForm?, headValue?, h]

/-- A form that expansion puts together again under the name of a core form. -/
theorem Expanded.ofCore {form head : Syntax} {items : List Syntax} {f : CoreForm}
    (hhead : KeepsForms w₀ → coreForm? w₀.spaces head = some f)
    (hknown : ∀ stx ∈ head :: items, stx.Known L)
    (hbinders : KeepsForms w₀ → BindersFit w₀.spaces (binders f (head :: items)))
    (hparts : KeepsForms w₀ → ∀ stx ∈ compiledParts f (head :: items), Fitting w₀.spaces stx) :
    Expanded w₀ L (form.rebuildSexp (head :: items)) where
  known := .rebuildSexp hknown form
  fitting hkeeps := .core (form.subforms_rebuildSexp _) (hhead hkeeps) (hbinders hkeeps)
    (hparts hkeeps)
  notForm _ := coreForm?_eq_none_of_not_identifier rfl

/-- An application of expanded forms. -/
theorem Expanded.ofParts {form head : Syntax} {items : List Syntax}
    (h : ∀ stx ∈ head :: items, Expanded w₀ L stx) :
    Expanded w₀ L (form.rebuildSexp (head :: items)) where
  known := .rebuildSexp (fun stx hstx => (h stx hstx).known) form
  fitting hkeeps := .application (form.subforms_rebuildSexp _)
    ((h head List.mem_cons_self).notForm hkeeps) fun stx hstx => (h stx hstx).fitting hkeeps
  notForm _ := coreForm?_eq_none_of_not_identifier rfl

theorem binders_fit_nil {spaces : Spaces} : BindersFit spaces [] := by
  simp [BindersFit]

/-- Binders under their own rib fit the frame that is made for them. -/
theorem Rib.Binds.bindersFit {spaces : Spaces} {ids : List Syntax} {rib : Rib}
    (h : rib.Binds spaces L ids) : BindersFit spaces (Expansion.renamed rib ids) := by
  intro first hfirst v hv
  obtain ⟨binder, hbinder, rfl⟩ : ∃ binder ∈ ids, binder.addWrap (.rename rib) = first := by
    have hmem := List.mem_of_mem_head? hfirst
    rwa [Expansion.renamed, List.mem_map] at hmem
  obtain ⟨v', hv', hrib⟩ := h.lexical binder hbinder
  rw [hv] at hv'
  cases hv'
  refine ⟨rib, ?_, hrib.symm, ?_⟩
  · rw [Syntax.wraps_addWrap, pushWrap_rename]
    exact List.mem_cons_self
  · rw [h.length, Expansion.renamed, List.length_map]

theorem Rib.Binds.known_renamed {spaces : Spaces} {ids : List Syntax} {rib : Rib}
    (h : rib.Binds spaces L ids) {forms : List Syntax} (hforms : ∀ stx ∈ forms, stx.Known L) :
    ∀ stx ∈ Expansion.renamed rib forms, stx.Known L := by
  intro stx hstx
  obtain ⟨stx, hmem, rfl⟩ := List.mem_map.1 hstx
  refine Syntax.Carries.addWrap (hforms stx hmem) fun rib' hrib => ?_
  cases hrib
  exact h.made

/-! ## Shapes -/

theorem safe_expectBody {I : World → Prop} {form : Syntax} {parts : List Syntax} {first : Nat} :
    Safe I L (fun _ _ => True) (Expansion.expectBody form parts first) := by
  rw [Expansion.expectBody]
  split
  · exact .pure trivial
  · exact .failAt

theorem safe_expectCount {I : World → Prop} {form : Syntax} {parts : List Syntax} {count : Nat}
    {expected : Operands} :
    Safe I L (fun _ _ => parts.length = count) (Expansion.expectCount form parts count expected) := by
  rw [Expansion.expectCount]
  split
  · exact .pure ‹_›
  · exact .failAt

theorem safe_parseClauses {I : World → Prop} {items : List Syntax}
    (hitems : ∀ stx ∈ items, stx.Known L) :
    Safe I L (fun L' pairs => ∀ pair ∈ pairs, pair.1.Known L' ∧ pair.2.Known L')
      (Expansion.parseClauses items) := by
  induction items with
  | nil => exact .pure (by simp)
  | cons clause rest ih =>
      obtain ⟨hclause, hrest⟩ := List.forall_mem_cons.1 hitems
      rw [Expansion.parseClauses]
      split
      · rename_i id init hparts
        have hknown := hclause.subforms
        rw [hparts] at hknown
        simp only [List.forall_mem_cons] at hknown
        split
        · refine (ih hrest).bind fun L₁ pairs hL₁ hpairs => .pure ?_
          refine List.forall_mem_cons.2 ⟨⟨?_, ?_⟩, hpairs⟩
          · exact hknown.1.mono hL₁
          · exact hknown.2.1.mono hL₁
        · exact .failAt
      · exact .failAt

theorem safe_bindingClauses {I : World → Prop} {clauses : Syntax} (h : clauses.Known L) :
    Safe I L (fun L' pairs => ∀ pair ∈ pairs, pair.1.Known L' ∧ pair.2.Known L')
      (Expansion.bindingClauses clauses) := by
  rw [Expansion.bindingClauses]
  split
  · exact .failAt
  · rename_i items hitems
    exact safe_parseClauses (h.subforms? hitems)

theorem safe_kernelIdentifier {name : String} {site : Syntax} :
    Safe (Reached w₀) L (fun L' stx => stx.Known L') (kernelIdentifier name site) :=
  .get_bind fun _ _ _ => .pure (Syntax.Carries.addWrap (.atom (by simp) (by simp)) nofun)

/-! ## Core forms -/

section

variable {expand : ExpandContext → Syntax → RunM Syntax}

/-- Expansion of known expressions is safe and gives forms whose binders fit. -/
def ExpandSafe (w₀ : World) (expand : ExpandContext → Syntax → RunM Syntax) : Prop :=
  ∀ {L : Layout} {stx : Syntax}, stx.Known L →
    Safe (Reached w₀) L (Expanded w₀) (expand .expression stx)

theorem safe_expandEach (hexpand : ExpandSafe w₀ expand) {forms : List Syntax}
    (hforms : ∀ stx ∈ forms, stx.Known L) :
    Safe (Reached w₀) L
      (fun L' stxs => stxs.length = forms.length ∧ ∀ stx ∈ stxs, Expanded w₀ L' stx)
      (Expansion.expandEach expand .expression forms) := by
  induction forms generalizing L with
  | nil => exact .pure ⟨rfl, by simp⟩
  | cons stx rest ih =>
      obtain ⟨hstx, hrest⟩ := List.forall_mem_cons.1 hforms
      refine (hexpand hstx).bind fun L₁ stx hL₁ hstx => ?_
      refine (ih fun stx h => (hrest stx h).mono hL₁).bind fun L₂ stxs hL₂ hstxs => .pure ⟨?_, ?_⟩
      · simp [hstxs.1]
      · exact List.forall_mem_cons.2 ⟨hstx.mono hL₂, hstxs.2⟩

theorem safe_expandFields (hexpand : ExpandSafe w₀ expand) {fields : List (String × Syntax)}
    (hfields : ∀ field ∈ fields, field.2.Known L) :
    Safe (Reached w₀) L (fun L' fields => ∀ field ∈ fields, Expanded w₀ L' field.2)
      (Expansion.expandFields expand fields) := by
  induction fields generalizing L with
  | nil => exact .pure (by simp)
  | cons field rest ih =>
      obtain ⟨hfield, hrest⟩ := List.forall_mem_cons.1 hfields
      refine (hexpand hfield).bind fun L₁ stx hL₁ hstx => ?_
      refine (ih fun field h => (hrest field h).mono hL₁).bind fun L₂ fields hL₂ hfields => .pure ?_
      exact List.forall_mem_cons.2 ⟨hstx.mono hL₂, hfields⟩

theorem safe_lambdaForm (hexpand : ExpandSafe w₀ expand) {form head : Syntax} {rest : List Syntax}
    (hhead : KeepsForms w₀ → coreForm? w₀.spaces head = some .lambda)
    (hparts : ∀ part ∈ head :: rest, part.Known L) :
    Safe (Reached w₀) L (Expanded w₀) (Expansion.lambda expand form (head :: rest)) := by
  cases rest with
  | nil => exact .failAt
  | cons formals rest =>
      refine safe_expectBody.bind fun L₁ _ hL₁ _ => ?_
      simp only [List.forall_mem_cons] at hparts
      obtain ⟨hheadKnown, hformals, hrest⟩ := hparts
      split
      · exact .failAt
      · rename_i ids hids
        have hidsKnown : ∀ id ∈ ids, id.Known L₁ := by
          split at hids
          · obtain rfl := Option.some.inj hids
            exact List.forall_mem_singleton.2 (hformals.mono hL₁)
          · exact fun id hid => (hformals.subforms? hids id hid).mono hL₁
        refine safe_newRib.bind fun L₂ rib hL₂ hrib => ?_
        have hL := hL₁.trans hL₂
        have hbodyKnown := hrib.known_renamed fun stx h => (hrest stx h).mono hL
        refine (safe_expandEach hexpand hbodyKnown).bind fun L₃ body hL₃ hbody => .pure ?_
        have hL' := hL.trans hL₃
        have hrenamed := hrib.known_renamed fun id h => (hidsKnown id h).mono hL₂
        -- The formals are put together again so that their binders are those of the rib.
        have hnewFormals : (if formals.isIdentifier then formals.addWrap (.rename rib)
            else formals.rebuildSexp (Expansion.renamed rib ids)).Known L₃ := by
          split
          · rename_i hid
            rw [if_pos hid] at hids
            obtain rfl := Option.some.inj hids
            exact (hrenamed _ (List.mem_singleton_self _)).mono hL₃
          · exact .rebuildSexp (fun stx h => (hrenamed stx h).mono hL₃) formals
        refine .ofCore hhead ?_ (fun _ => ?_) fun hkeeps stx hstx => (hbody.2 stx hstx).fitting hkeeps
        · refine List.forall_mem_cons.2 ⟨hheadKnown.mono hL', List.forall_mem_cons.2 ⟨?_, ?_⟩⟩
          · exact hnewFormals
          · exact fun stx h => (hbody.2 stx h).known
        · have hfit := hrib.bindersFit
          by_cases hid : formals.isIdentifier
          · rw [if_pos hid] at hids
            obtain rfl := Option.some.inj hids
            simpa [binders, hid, Expansion.renamed] using hfit
          · simpa [binders, hid] using hfit

theorem safe_namedLet (hexpand : ExpandSafe w₀ expand) {form : Syntax} {parts : List Syntax}
    (hparts : ∀ part ∈ parts, part.Known L) :
    Safe (Reached w₀) L (Expanded w₀) (Expansion.namedLet expand form parts) := by
  unfold Expansion.namedLet
  split
  · rename_i head name clauses rest
    simp only [List.forall_mem_cons] at hparts
    obtain ⟨-, hname, hclauses, hrest⟩ := hparts
    refine safe_expectBody.bind fun L₁ _ hL₁ _ => ?_
    refine (safe_bindingClauses (hclauses.mono hL₁)).bind fun L₂ pairs hL₂ hpairs => ?_
    refine safe_kernelIdentifier.bind fun L₃ lambdaHead hL₃ hlambda => ?_
    refine safe_kernelIdentifier.bind fun L₄ letrecHead hL₄ hletrec => hexpand ?_
    have hL := ((hL₁.trans hL₂).trans hL₃).trans hL₄
    have hL' := hL₃.trans hL₄
    have hname := hname.mono hL
    have hids : ∀ id ∈ pairs.map (·.1), id.Known L₄ := by
      rw [List.forall_mem_map]
      exact fun pair h => (hpairs pair h).1.mono hL'
    have hinits : ∀ init ∈ pairs.map (·.2), init.Known L₄ := by
      rw [List.forall_mem_map]
      exact fun pair h => (hpairs pair h).2.mono hL'
    -- `((letrec ((name (lambda …))) name) init …)`, built from the parts of the form.
    have hprocedure : (form.rebuildSexp
        (lambdaHead :: clauses.rebuildSexp (pairs.map (·.1)) :: rest)).Known L₄ := by
      refine .rebuildSexp (List.forall_mem_cons.2 ⟨hlambda.mono hL₄, ?_⟩) form
      exact List.forall_mem_cons.2 ⟨.rebuildSexp hids clauses, fun stx h => (hrest stx h).mono hL⟩
    have hclause := Syntax.Known.rebuildSexp
      (List.forall_mem_cons.2 ⟨hname, List.forall_mem_singleton.2 hprocedure⟩) form
    have hoperator := Syntax.Known.rebuildSexp (List.forall_mem_cons.2 ⟨hletrec,
      List.forall_mem_cons.2 ⟨.rebuildSexp (List.forall_mem_singleton.2 hclause) form,
        List.forall_mem_singleton.2 hname⟩⟩) form
    exact .rebuildSexp (List.forall_mem_cons.2 ⟨hoperator, hinits⟩) form
  · exact .failAt

/-- The clauses of a form that is put together again are its binders and expressions. -/
theorem clauseParts_rebuildClauses (head site : Syntax) {ids inits : List Syntax}
    (body : List Syntax) (h : inits.length = ids.length) :
    clauseParts (head :: Expansion.rebuildClauses site ids inits :: body) 0 = ids ∧
      clauseParts (head :: Expansion.rebuildClauses site ids inits :: body) 1 = inits := by
  simp only [clauseParts, List.getElem?_cons_succ, List.getElem?_cons_zero,
    Expansion.rebuildClauses, Syntax.subforms_rebuildSexp, List.filterMap_map]
  have hfirst : (ids.zip inits).map Prod.fst = ids := List.map_fst_zip (by omega)
  have hsecond : (ids.zip inits).map Prod.snd = inits := List.map_snd_zip (by omega)
  constructor
  · conv_rhs => rw [← hfirst]
    rw [← List.filterMap_eq_map]
    refine List.filterMap_congr fun pair _ => ?_
    simp
  · conv_rhs => rw [← hsecond]
    rw [← List.filterMap_eq_map]
    refine List.filterMap_congr fun pair _ => ?_
    simp

theorem known_rebuildClauses {site : Syntax} {ids inits : List Syntax}
    (hids : ∀ id ∈ ids, id.Known L) (hinits : ∀ init ∈ inits, init.Known L) :
    (Expansion.rebuildClauses site ids inits).Known L := by
  refine .rebuildSexp (fun stx hstx => ?_) site
  obtain ⟨⟨id, init⟩, hpair, rfl⟩ := List.mem_map.1 hstx
  have hmem := List.of_mem_zip hpair
  exact .sexp (List.forall_mem_cons.2 ⟨hids id hmem.1, List.forall_mem_singleton.2 (hinits init hmem.2)⟩) _

/-- A `let` or `letrec` that is put together again from the binders of its rib and expanded
expressions and body. -/
theorem Expanded.ofClauses {form head site : Syntax} {ids inits body : List Syntax} {rib : Rib}
    {f : CoreForm} (hf : f = .letForm ∨ f = .letrec)
    (hhead : KeepsForms w₀ → coreForm? w₀.spaces head = some f) (hheadKnown : head.Known L)
    (hrib : rib.Binds w₀.spaces L ids) (hids : ∀ id ∈ ids, id.Known L)
    (hlength : inits.length = ids.length) (hinits : ∀ init ∈ inits, Expanded w₀ L init)
    (hbody : ∀ stx ∈ body, Expanded w₀ L stx) :
    Expanded w₀ L (form.rebuildSexp
      (head :: Expansion.rebuildClauses site (Expansion.renamed rib ids) inits :: body)) := by
  have hsame : inits.length = (Expansion.renamed rib ids).length := by
    simpa [Expansion.renamed] using hlength
  have hbinders : binders f
      (head :: Expansion.rebuildClauses site (Expansion.renamed rib ids) inits :: body) =
        Expansion.renamed rib ids := by
    rcases hf with rfl | rfl <;> exact (clauseParts_rebuildClauses head site body hsame).1
  have hcompiled : compiledParts f
      (head :: Expansion.rebuildClauses site (Expansion.renamed rib ids) inits :: body) =
        inits ++ body := by
    rcases hf with rfl | rfl <;> simp [compiledParts, (clauseParts_rebuildClauses head site body hsame).2]
  refine .ofCore hhead ?_ (fun _ => ?_) fun hkeeps stx hstx => ?_
  · refine List.forall_mem_cons.2 ⟨hheadKnown, List.forall_mem_cons.2 ⟨?_, ?_⟩⟩
    · exact known_rebuildClauses (hrib.known_renamed hids) fun stx h => (hinits stx h).known
    · exact fun stx h => (hbody stx h).known
  · rw [hbinders]
    exact hrib.bindersFit
  · rw [hcompiled] at hstx
    rcases List.mem_append.1 hstx with h | h
    · exact (hinits stx h).fitting hkeeps
    · exact (hbody stx h).fitting hkeeps

theorem safe_letForm (hexpand : ExpandSafe w₀ expand) {form head : Syntax} {rest : List Syntax}
    (hhead : KeepsForms w₀ → coreForm? w₀.spaces head = some .letForm)
    (hparts : ∀ part ∈ head :: rest, part.Known L) :
    Safe (Reached w₀) L (Expanded w₀) (Expansion.letForm expand form (head :: rest)) := by
  cases rest with
  | nil => exact .failAt
  | cons clauses rest =>
      rw [Expansion.letForm]
      split
      · exact safe_namedLet hexpand hparts
      · simp only [List.forall_mem_cons] at hparts
        obtain ⟨hheadKnown, hclauses, hrest⟩ := hparts
        refine safe_expectBody.bind fun L₁ _ hL₁ _ => ?_
        refine (safe_bindingClauses (hclauses.mono hL₁)).bind fun L₂ pairs hL₂ hpairs => ?_
        have hids : ∀ id ∈ pairs.map (·.1), id.Known L₂ :=
          List.forall_mem_map.2 fun pair h => (hpairs pair h).1
        have hvalues : ∀ init ∈ pairs.map (·.2), init.Known L₂ :=
          List.forall_mem_map.2 fun pair h => (hpairs pair h).2
        refine (safe_expandEach hexpand hvalues).bind fun L₃ inits hL₃ hinits => ?_
        refine safe_newRib.bind fun L₄ rib hL₄ hrib => ?_
        have hL := ((hL₁.trans hL₂).trans hL₃).trans hL₄
        have hbody := hrib.known_renamed fun stx h => (hrest stx h).mono hL
        refine (safe_expandEach hexpand hbody).bind fun L₅ body hL₅ hbody => .pure ?_
        have hL' := (hL₃.trans hL₄).trans hL₅
        refine .ofClauses (.inl rfl) hhead (hheadKnown.mono (hL.trans hL₅)) (hrib.mono hL₅)
          (fun id h => (hids id h).mono hL') (by simp [hinits.1]) (fun stx h => ?_) hbody.2
        exact (hinits.2 stx h).mono (hL₄.trans hL₅)

theorem safe_letrec (hexpand : ExpandSafe w₀ expand) {form head : Syntax} {rest : List Syntax}
    (hhead : KeepsForms w₀ → coreForm? w₀.spaces head = some .letrec)
    (hparts : ∀ part ∈ head :: rest, part.Known L) :
    Safe (Reached w₀) L (Expanded w₀) (Expansion.letrec expand form (head :: rest)) := by
  cases rest with
  | nil => exact .failAt
  | cons clauses rest =>
      simp only [List.forall_mem_cons] at hparts
      obtain ⟨hheadKnown, hclauses, hrest⟩ := hparts
      refine safe_expectBody.bind fun L₁ _ hL₁ _ => ?_
      refine (safe_bindingClauses (hclauses.mono hL₁)).bind fun L₂ pairs hL₂ hpairs => ?_
      refine safe_newRib.bind fun L₃ rib hL₃ hrib => ?_
      have hL := (hL₁.trans hL₂).trans hL₃
      have hids : ∀ id ∈ pairs.map (·.1), id.Known L₃ :=
        List.forall_mem_map.2 fun pair h => (hpairs pair h).1.mono hL₃
      have hvalues : ∀ init ∈ pairs.map (·.2), init.Known L₃ :=
        List.forall_mem_map.2 fun pair h => (hpairs pair h).2.mono hL₃
      refine (safe_expandEach hexpand (hrib.known_renamed hvalues)).bind fun L₄ inits hL₄ hinits => ?_
      have hbody := (hrib.mono hL₄).known_renamed fun stx h => (hrest stx h).mono (hL.trans hL₄)
      refine (safe_expandEach hexpand hbody).bind fun L₅ body hL₅ hbody => .pure ?_
      have hL' := hL₄.trans hL₅
      refine .ofClauses (.inr rfl) hhead (hheadKnown.mono (hL.trans hL')) (hrib.mono hL')
        (fun id h => (hids id h).mono hL') ?_ (fun stx h => (hinits.2 stx h).mono hL₅) hbody.2
      simp [hinits.1, Expansion.renamed]

theorem safe_parameterClauses (hexpand : ExpandSafe w₀ expand) {items : List Syntax}
    (hitems : ∀ stx ∈ items, stx.Known L) :
    Safe (Reached w₀) L
      (fun L' clauses => ∀ clause ∈ clauses, clause.Known L' ∧
        ∀ stx ∈ clause.subforms, Expanded w₀ L' stx)
      (Expansion.parameterClauses expand items) := by
  induction items generalizing L with
  | nil => exact .pure (by simp)
  | cons clause rest ih =>
      obtain ⟨hclause, hrest⟩ := List.forall_mem_cons.1 hitems
      rw [Expansion.parameterClauses]
      split
      · rename_i parameter value hparts
        have hknown := hclause.subforms
        rw [hparts] at hknown
        simp only [List.forall_mem_cons] at hknown
        refine (hexpand hknown.1).bind fun L₁ parameter hL₁ hparameter => ?_
        refine (hexpand (hknown.2.1.mono hL₁)).bind fun L₂ value hL₂ hvalue => ?_
        have hL := hL₁.trans hL₂
        refine (ih fun stx h => (hrest stx h).mono hL).bind fun L₃ clauses hL₃ hclauses => .pure ?_
        have hboth : ∀ stx ∈ [parameter, value], Expanded w₀ L₃ stx :=
          List.forall_mem_cons.2 ⟨(hparameter.mono hL₂).mono hL₃,
            List.forall_mem_singleton.2 (hvalue.mono hL₃)⟩
        refine List.forall_mem_cons.2 ⟨⟨?_, ?_⟩, hclauses⟩
        · exact .rebuildSexp (fun stx h => (hboth stx h).known) clause
        · rw [Syntax.subforms_rebuildSexp]
          exact hboth
      · exact .failAt

theorem safe_parameterize (hexpand : ExpandSafe w₀ expand) {form head : Syntax} {rest : List Syntax}
    (hhead : KeepsForms w₀ → coreForm? w₀.spaces head = some .parameterize)
    (hparts : ∀ part ∈ head :: rest, part.Known L) :
    Safe (Reached w₀) L (Expanded w₀) (Expansion.parameterize expand form (head :: rest)) := by
  cases rest with
  | nil => exact .failAt
  | cons clauses rest =>
      simp only [List.forall_mem_cons] at hparts
      obtain ⟨hheadKnown, hclauses, hrest⟩ := hparts
      refine safe_expectBody.bind fun L₁ _ hL₁ _ => ?_
      split
      · exact .failAt
      · rename_i items hitems
        have hknown := fun stx h => (hclauses.subforms? hitems stx h).mono hL₁
        refine (safe_parameterClauses hexpand hknown).bind fun L₂ items hL₂ hitems => ?_
        have hL := hL₁.trans hL₂
        refine (safe_expandEach hexpand fun stx h => (hrest stx h).mono hL).bind
          fun L₃ body hL₃ hbody => .pure ?_
        have hclauseParts (position : Nat) : ∀ stx ∈ clauseParts
            (head :: clauses.rebuildSexp items :: body) position, Expanded w₀ L₂ stx := by
          intro stx hstx
          simp only [clauseParts, List.getElem?_cons_succ, List.getElem?_cons_zero,
            Syntax.subforms_rebuildSexp] at hstx
          obtain ⟨clause, hclause, hat⟩ := List.mem_filterMap.1 hstx
          exact (hitems clause hclause).2 stx (List.mem_of_getElem? hat)
        refine .ofCore hhead ?_ (fun _ => binders_fit_nil) fun hkeeps stx hstx => ?_
        · refine List.forall_mem_cons.2 ⟨hheadKnown.mono (hL.trans hL₃), ?_⟩
          refine List.forall_mem_cons.2 ⟨?_, fun stx h => (hbody.2 stx h).known⟩
          exact .rebuildSexp (fun stx h => (hitems stx h).1.mono hL₃) clauses
        · simp only [compiledParts, List.mem_append, List.drop_succ_cons, List.drop_zero] at hstx
          rcases hstx with (hstx | hstx) | hstx
          · exact (hclauseParts 0 stx hstx).fitting hkeeps
          · exact (hclauseParts 1 stx hstx).fitting hkeeps
          · exact (hbody.2 stx hstx).fitting hkeeps

/-- Definitions are refused among expressions. -/
theorem safe_expectDefinitions {I : World → Prop} {form : Syntax} {what : String} :
    Safe I L (fun _ _ => False) (Expansion.expectDefinitions form .expression what) :=
  .failAt

/-- A core form among expressions: one case for each form. -/
theorem safe_coreForm (hexpand : ExpandSafe w₀ expand) {loader : Loader} {ns : NamespaceId}
    {f : CoreForm} {form head : Syntax} {rest : List Syntax} (hform : form.Known L)
    (hsubforms : form.subforms = head :: rest)
    (hhead : KeepsForms w₀ → coreForm? w₀.spaces head = some f) :
    Safe (Reached w₀) L (Expanded w₀)
      (Expansion.core expand loader ns f form (head :: rest) .expression) := by
  have hparts : ∀ part ∈ head :: rest, part.Known L := hsubforms ▸ hform.subforms
  obtain ⟨hheadKnown, hrest⟩ := List.forall_mem_cons.1 hparts
  -- A quotation is kept as it is, and nothing in it is compiled.
  have hquoted (hf : f = .quote ∨ f = .quoteSyntax) {L₁ : Layout} (hL₁ : L ≤ L₁) :
      Expanded w₀ L₁ form := by
    have hidentifier : form.isIdentifier = false := by
      cases form with
      | atom c a => simp [Syntax.subforms, Syntax.subforms?] at hsubforms
      | group c shape items => rfl
      | record c fields => rfl
    refine ⟨hform.mono hL₁, fun hkeeps => ?_, fun _ => coreForm?_eq_none_of_not_identifier hidentifier⟩
    refine .core hsubforms (hhead hkeeps) ?_ ?_
    · rcases hf with rfl | rfl <;> exact binders_fit_nil
    · rcases hf with rfl | rfl <;> simp [compiledParts]
  cases f with
  | quote => exact safe_expectCount.bind fun L₁ _ hL₁ _ => .pure (hquoted (.inl rfl) hL₁)
  | quoteSyntax => exact safe_expectCount.bind fun L₁ _ hL₁ _ => .pure (hquoted (.inr rfl) hL₁)
  | ifForm =>
      refine safe_expectCount.bind fun L₁ _ hL₁ _ => ?_
      refine (safe_expandEach hexpand fun stx h => (hrest stx h).mono hL₁).bind
        fun L₂ rest hL₂ hrest => .pure ?_
      refine .ofCore hhead ?_ (fun _ => binders_fit_nil) fun hkeeps stx h =>
        (hrest.2 stx h).fitting hkeeps
      exact List.forall_mem_cons.2 ⟨hheadKnown.mono (hL₁.trans hL₂), fun stx h => (hrest.2 stx h).known⟩
  | begin =>
      refine (safe_expandEach hexpand hrest).bind fun L₁ rest hL₁ hrest => .pure ?_
      refine .ofCore hhead ?_ (fun _ => binders_fit_nil) fun hkeeps stx h =>
        (hrest.2 stx h).fitting hkeeps
      exact List.forall_mem_cons.2 ⟨hheadKnown.mono hL₁, fun stx h => (hrest.2 stx h).known⟩
  | lambda => exact safe_lambdaForm hexpand hhead hparts
  | letForm => exact safe_letForm hexpand hhead hparts
  | letrec => exact safe_letrec hexpand hhead hparts
  | set =>
      refine safe_expectCount.bind fun L₁ _ hL₁ hcount => ?_
      obtain ⟨id, value, rfl⟩ := List.length_eq_two.1 (Nat.succ.inj hcount)
      simp only [List.forall_mem_cons] at hrest
      dsimp only
      split
      · exact Safe.bind (P := fun _ _ => False) .failAt fun _ _ _ h => h.elim
      · refine (hexpand (hrest.2.1.mono hL₁)).bind fun L₂ value hL₂ hvalue => .pure ?_
        have hL := hL₁.trans hL₂
        refine .ofCore hhead ?_ (fun _ => binders_fit_nil) fun hkeeps stx h => ?_
        · refine List.forall_mem_cons.2 ⟨hheadKnown.mono hL, ?_⟩
          exact List.forall_mem_cons.2 ⟨hrest.1.mono hL, List.forall_mem_singleton.2 hvalue.known⟩
        · obtain rfl : stx = value := by simpa [compiledParts] using h
          exact hvalue.fitting hkeeps
  | define => exact safe_expectDefinitions.bind fun _ _ _ h => h.elim
  | defineSyntax => exact safe_expectDefinitions.bind fun _ _ _ h => h.elim
  | parameterize => exact safe_parameterize hexpand hhead hparts
  | moduleForm => exact Safe.bind (P := fun _ _ => False) .failAt fun _ _ _ h => h.elim
  | require => exact safe_expectDefinitions.bind fun _ _ _ h => h.elim
  | provide => exact Safe.bind (P := fun _ _ => False) .failAt fun _ _ _ h => h.elim

end

/-! ## Full expansion -/

theorem safeAt_descend_bind {α : Type} {I : World → Prop} {P : Layout → α → Prop} {w : World}
    (hw : w.Sound L) {depth : Nat} {form : Syntax} {f : Nat → RunM α}
    (h : ∀ depth, SafeAt I L P (f depth) w) : SafeAt I L P (descend depth form >>= f) w := by
  have hfail {fault : SyntaxFault} : SafeAt I L P (RunM.failAt form fault) w :=
    ⟨⟨L, le_rfl, hw⟩, fun e he => by
      cases he
      exact fun hkind => nomatch hkind⟩
  rw [SafeAt, RunM.bind_apply]
  cases hlimit : w.runtime.config.maxExpansionDepth with
  | none =>
      have hrun : descend depth form w = .ok (depth + 1) w := by
        simp [descend, RunM.bind_apply, hlimit]
      rw [hrun]
      exact h (depth + 1)
  | some limit =>
      by_cases hdeep : limit < depth + 1
      · have hrun : descend depth form w = RunM.failAt form (.depthLimit limit) w := by
          simp only [descend, RunM.bind_apply, RunM.get_apply, hlimit, if_pos hdeep]
        rw [hrun]
        exact hfail
      · have hrun : descend depth form w = .ok (depth + 1) w := by
          simp only [descend, RunM.bind_apply, RunM.get_apply, hlimit, if_neg hdeep, RunM.pure_apply]
        rw [hrun]
        exact h (depth + 1)

theorem coreForm?_eq_some_of_headValue? {spaces : Spaces} {head : Syntax} {f : CoreForm}
    (h : headValue? spaces head = some (.form f)) : coreForm? spaces head = some f := by
  rw [coreForm?, h]

section

variable {expand : Nat → ExpandContext → Syntax → RunM Syntax}

/-- A form that is not a sexp. -/
theorem safe_expandPlain (hexpand : ∀ depth, ExpandSafe w₀ (expand depth)) {depth : Nat}
    {form : Syntax} (hform : form.Known L) :
    Safe (Reached w₀) L (Expanded w₀) (Expansion.expandPlain expand depth form) := by
  unfold Expansion.expandPlain
  split
  · rename_i c name
    refine .get_bind fun w hI _ => ?_
    split
    · exact .failAt
    · exact .failAt
    · rename_i hvalue _
      refine .pure ⟨hform, fun _ => .atom, fun hkeeps => ?_⟩
      rw [← hkeeps.coreForm? hI, coreForm?]
      split
      · rename_i f hf
        exact absurd hf (hvalue f)
      · rfl
  · exact .pure ⟨hform, fun _ => .atom, fun _ => coreForm?_eq_none_of_not_identifier (by
      cases ‹Atom› <;> first | rfl | simp_all)⟩
  · rename_i c shape items
    refine (safe_expandEach (hexpand depth) fun stx hstx => ?_).bind fun L₁ items _ hitems => .pure ?_
    · cases shape with
      | sexp => simp [Syntax.elements?] at hstx
      | list => exact Syntax.Carries.elements? hform rfl stx hstx
    · refine ⟨.group (by simp) (by simp) fun stx h => (hitems.2 stx h).known, fun hkeeps => ?_,
        fun _ => coreForm?_eq_none_of_not_identifier rfl⟩
      exact .list (Syntax.elements?_rebuildList _ _) fun stx h => (hitems.2 stx h).fitting hkeeps
  · rename_i c fields
    refine (safe_expandFields (hexpand depth) fun field hfield => ?_).bind
      fun L₁ fields _ hfields => .pure ?_
    · exact Syntax.Carries.fields? hform rfl field hfield
    · refine ⟨.record (by simp) (by simp) fun field h => (hfields field h).known, fun hkeeps => ?_,
        fun _ => coreForm?_eq_none_of_not_identifier rfl⟩
      exact .record (Syntax.fields?_rebuildRecord _ _) fun field h => (hfields field h).fitting hkeeps

/-- A sexp, by induction on the number of transformers that may be run at its head. -/
theorem safe_expandSexp (hexpand : ∀ depth, ExpandSafe w₀ (expand depth)) {loader : Loader}
    {ns : NamespaceId} (fuel : Nat) {depth : Nat} {form : Syntax} (hform : form.Known L) :
    Safe (Reached w₀) L (Expanded w₀)
      (Expansion.expandSexp ns expand loader fuel depth .expression form) := by
  induction fuel generalizing L depth form with
  | zero => exact .exhausted
  | succ fuel ih =>
      rw [Expansion.expandSexp]
      split
      · exact .failAt
      · rename_i head rest hsubforms
        intro w hI hw
        refine SafeAt.getSpaces_bind ?_
        split
        · rename_i id procedureId p hhead
          refine safeAt_descend_bind hw fun depth => ?_
          refine (safeAt_invoke hI hw hhead hform).bind fun L₁ output _ houtput => ?_
          split
          · exact ih houtput
          · exact safe_expandPlain hexpand houtput
        · rename_i f hhead
          refine safe_coreForm (hexpand depth) hform hsubforms (fun hkeeps => ?_) w hI hw
          rw [← hkeeps.coreForm? hI]
          exact coreForm?_eq_some_of_headValue? hhead
        · have hparts : ∀ part ∈ head :: rest, part.Known L := hsubforms ▸ hform.subforms
          refine ((safe_expandEach (hexpand depth) hparts).bind fun L₁ items _ hitems => ?_) w hI hw
          cases items with
          | nil => simp at hitems
          | cons first items => exact .pure (.ofParts hitems.2)

end

/-- Expansion of a known expression is safe, and its binders fit if transformers keep the core
forms. -/
theorem safe_expand {loader : Loader} {ns : NamespaceId} (fuel depth : Nat) :
    ExpandSafe w₀ (Expansion.expand loader ns fuel depth) := by
  induction fuel generalizing depth with
  | zero => exact fun _ => .exhausted
  | succ fuel ih =>
      intro L form hform w hI hw
      refine safeAt_descend_bind hw fun depth => ?_
      refine Safe.mapError (fun _ => external_withContext) ?_ w hI hw
      split
      · exact safe_expandSexp ih fuel hform
      · exact safe_expandPlain ih hform

end HygienicLisp
