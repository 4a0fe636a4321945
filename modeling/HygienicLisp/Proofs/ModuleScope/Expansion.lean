import HygienicLisp.Proofs.Definitions.Expressions
import HygienicLisp.Proofs.ModuleScope.Twins
import HygienicLisp.Proofs.Renaming.TwoRuns

/-!
# Expansion under two numberings

From worlds whose namespaces are twins, an expression of the module and the renumbered one are
expanded side by side: both succeed, with results that are the same up to the numbers, or both fail.
In expressions nothing but ribs is made.  The lemmas follow expansion from the parts of forms to full
expansion, with the expansion of subforms as an argument.

Main statement: `agree_expand`.
-/

namespace HygienicLisp

open Expansion

/-- The module as two runs have it when they begin to expand what is in it. -/
structure Sides where
  runtime : Runtime
  first : Spaces
  second : Spaces

/-- The namespace of the language. -/
abbrev Sides.kernel (σ : Sides) : NamespaceId := σ.runtime.kernel.space

variable {σ : Sides} {ρ : Renumbering}

/-- The worlds are the same up to the numbers, as far as forms of the module go. -/
structure World.Twins (σ : Sides) (ρ : Renumbering) (w w' : World) : Prop where
  runtime : w.runtime = σ.runtime
  runtime' : w'.runtime = σ.runtime
  ribs : ∃ n, w.nextRib = ρ.oldRib + n ∧ w'.nextRib = ρ.newRib + n
  base : σ.first.Twins ρ σ.kernel σ.second
  first : σ.first.SameButImports σ.kernel ρ.space w.spaces
  second : σ.second.SameButImports σ.kernel ρ.space w'.spaces

theorem World.Twins.spaces {w w' : World} (h : w.Twins σ ρ w') :
    w.spaces.Twins ρ σ.kernel w'.spaces :=
  h.base.of_base h.first h.second

/-- Which core form an identifier denotes does not change. -/
theorem World.Twins.coreForm? {w w' : World} (h : w.Twins σ ρ w') (stx : Syntax) :
    HygienicLisp.coreForm? w.spaces stx = HygienicLisp.coreForm? σ.first stx :=
  coreForm?_congr h.first.cells h.first.value? stx

/-- The second form is the first, which belongs to the module, under other numbers. -/
def Syntax.Twin (σ : Sides) (ρ : Renumbering) (stx stx' : Syntax) : Prop :=
  stx.Local ρ σ.kernel ∧ stx' = stx.renumber ρ

/-- `Twin` on every form of a sequence. -/
def Syntax.TwinAll (σ : Sides) (ρ : Renumbering) (stxs stxs' : List Syntax) : Prop :=
  (∀ stx ∈ stxs, stx.Local ρ σ.kernel) ∧ stxs' = stxs.map (Syntax.renumber ρ)

/-- The second form is the first under other numbers, and both have been expanded. -/
structure Syntax.ExpandedTwin (σ : Sides) (ρ : Renumbering) (stx stx' : Syntax) : Prop where
  isLocal : stx.Local ρ σ.kernel
  expression : Expression σ.first stx
  same : stx' = stx.renumber ρ

/-- `ExpandedTwin` on every form of a sequence of the given length. -/
structure Syntax.ExpandedTwins (σ : Sides) (ρ : Renumbering) (count : Nat)
    (stxs stxs' : List Syntax) : Prop where
  isLocal : ∀ stx ∈ stxs, stx.Local ρ σ.kernel
  expression : ∀ stx ∈ stxs, Expression σ.first stx
  same : stxs' = stxs.map (Syntax.renumber ρ)
  length : stxs.length = count

/-- The computations from twin worlds both succeed, with related results, or both fail. -/
abbrev AgreeTwins {α β : Type} (σ : Sides) (ρ : Renumbering) (R : α → β → Prop)
    (x : RunM α) (y : RunM β) : Prop :=
  Agree (World.Twins σ ρ) R x y

/-! ## Forms of the module -/

namespace Syntax

variable {kernel : NamespaceId} {stx : Syntax}

theorem forall_local_pair {a b : Syntax} :
    (∀ stx ∈ [a, b], stx.Local ρ kernel) ↔ a.Local ρ kernel ∧ b.Local ρ kernel := by
  rw [List.forall_mem_cons, List.forall_mem_singleton]

theorem local_group {items : List Syntax} (h : ∀ stx ∈ items, stx.Local ρ kernel)
    (span : Option Span) (shape : Shape) : (group { span } shape items).Local ρ kernel :=
  .group nofun rfl h

theorem local_record {fields : List (String × Syntax)} (h : ∀ field ∈ fields, field.2.Local ρ kernel)
    (span : Option Span) : (record { span } fields).Local ρ kernel :=
  .record nofun rfl h

theorem local_renamed {rib : Rib} (hrib : (Wrap.rename rib).Local ρ kernel) {forms : List Syntax}
    (hforms : ∀ stx ∈ forms, stx.Local ρ kernel) : ∀ stx ∈ renamed rib forms, stx.Local ρ kernel := by
  intro stx hstx
  obtain ⟨stx, hmem, rfl⟩ := List.mem_map.1 hstx
  exact (hforms stx hmem).addWrap ⟨hrib, nofun, nofun⟩

theorem map_renumber_renamed (rib : Rib) (forms : List Syntax) :
    (renamed rib forms).map (renumber ρ) = renamed (rib.renumber ρ) (forms.map (renumber ρ)) := by
  rw [renamed, renamed, List.map_map, List.map_map]
  exact List.map_congr_left fun stx _ => renumber_addWrap (.rename rib) stx

theorem renumber_rebuildClauses (site : Syntax) (ids inits : List Syntax) :
    (rebuildClauses site ids inits).renumber ρ =
      rebuildClauses (site.renumber ρ) (ids.map (renumber ρ)) (inits.map (renumber ρ)) := by
  rw [rebuildClauses, renumber_rebuildSexp, rebuildClauses, List.map_map, List.zip_map, List.map_map]
  refine congrArg _ (List.map_congr_left fun clause _ => ?_)
  simp [sexp, Context.renumber]

theorem local_rebuildClauses {ids inits : List Syntax} (hids : ∀ stx ∈ ids, stx.Local ρ kernel)
    (hinits : ∀ stx ∈ inits, stx.Local ρ kernel) (site : Syntax) :
    (rebuildClauses site ids inits).Local ρ kernel := by
  refine local_group (fun clause hclause => ?_) _ _
  obtain ⟨⟨id, init⟩, hmem, rfl⟩ := List.mem_map.1 hclause
  obtain ⟨hid, hinit⟩ := List.of_mem_zip hmem
  exact local_group (Syntax.forall_local_pair.2 ⟨hids id hid, hinits init hinit⟩) _ _

end Syntax

/-! ## Ribs -/

/-- The keys of a rib are taken from the same binders. -/
theorem Spaces.Twins.extend {kernel : NamespaceId} {spaces spaces' : Spaces}
    (h : spaces.Twins ρ kernel spaces') {binders : List Syntax} (hbinders : ∀ stx ∈ binders, stx.Local ρ kernel) {keys : List Key}
    (hkeys : ∀ key ∈ keys, key.origin.Local ρ kernel) :
    (∃ found, Rib.extend spaces keys binders = .ok found ∧
      Rib.extend spaces' (keys.map (Key.renumber ρ)) (binders.map (Syntax.renumber ρ)) =
        .ok (found.map (Key.renumber ρ)) ∧ ∀ key ∈ found, key.origin.Local ρ kernel) ∨
    ∃ e e', Rib.extend spaces keys binders = .error e ∧
      Rib.extend spaces' (keys.map (Key.renumber ρ)) (binders.map (Syntax.renumber ρ)) = .error e' := by
  induction binders generalizing keys with
  | nil => exact .inl ⟨keys, rfl, rfl, hkeys⟩
  | cons binder rest ih =>
      obtain ⟨hbinder, hrest⟩ := List.forall_mem_cons.1 hbinders
      rw [List.map_cons, Rib.extend, Rib.extend, Syntax.symbol?_renumber]
      cases binder.symbol? with
      | none => exact .inr ⟨_, _, rfl, rfl⟩
      | some name =>
          obtain ⟨hsame, hlocal⟩ := h.bindingKey hbinder name
          -- Renumbering is injective on local keys, so it neither makes nor hides a duplicate.
          have hcontains : (keys.map (Key.renumber ρ)).contains
              ((spaces.bindingKey binder name).renumber ρ) =
                keys.contains (spaces.bindingKey binder name) := by
            rw [Bool.eq_iff_iff, List.contains_iff_mem, List.contains_iff_mem, List.mem_map]
            constructor
            · rintro ⟨key, hkey, heq⟩
              exact (h.key_inj (hkeys key hkey) hlocal).1 heq ▸ hkey
            · exact fun hkey => ⟨_, hkey, rfl⟩
          dsimp only
          rw [hsame, hcontains]
          split
          · exact .inr ⟨_, _, rfl, rfl⟩
          · have hkeys' : ∀ key ∈ keys ++ [spaces.bindingKey binder name],
                key.origin.Local ρ kernel :=
              List.forall_mem_append.2 ⟨hkeys, List.forall_mem_singleton.2 hlocal⟩
            have hgrown := ih hrest hkeys'
            rwa [List.map_append, List.map_singleton] at hgrown

/-- A new rib in one run is the new rib in the other. -/
theorem agree_newRib {binders : List Syntax} (hbinders : ∀ stx ∈ binders, stx.Local ρ σ.kernel) :
    AgreeTwins σ ρ (fun rib rib' => (Wrap.rename rib).Local ρ σ.kernel ∧ rib' = rib.renumber ρ)
      (newRib binders) (newRib (binders.map (Syntax.renumber ρ))) := by
  intro w w' hw
  obtain ⟨n, hn, hn'⟩ := hw.ribs
  have hdrawn : World.Twins σ ρ { w with nextRib := w.nextRib + 1 }
      { w' with nextRib := w'.nextRib + 1 } :=
    { hw with ribs := ⟨n + 1, by rw [hn]; rfl, by rw [hn']; rfl⟩ }
  have hrib : ρ.rib w.nextRib = w'.nextRib := by
    rw [Renumbering.rib, hn, hn', Nat.add_sub_cancel_left, Nat.add_comm]
  simp only [newRib, RunM.bind_apply, freshRib_apply, RunM.getSpaces_apply, Rib.ofBinders]
  have hnone : ∀ key ∈ ([] : List Key), key.origin.Local ρ σ.kernel := by simp
  rcases hw.spaces.extend hbinders hnone with
    ⟨keys, hok, hok', hkeys⟩ | ⟨e, e', herror, herror'⟩
  · rw [List.map_nil] at hok'
    rw [hok, hok']
    refine .ok hdrawn ⟨⟨?_, hkeys⟩, ?_⟩
    · exact Nat.le.intro hn.symm
    · rw [Rib.renumber, hrib]
  · rw [List.map_nil] at herror'
    rw [herror, herror']
    exact .error ..

/-! ## Parts of forms -/

theorem agree_kernelIdentifier {name : String} (hname : name ∈ keywords) (site : Syntax) :
    AgreeTwins σ ρ (Syntax.Twin σ ρ) (kernelIdentifier name site)
      (kernelIdentifier name (site.renumber ρ)) := by
  refine .get_bind fun w w' hw => .pure ?_
  rw [hw.runtime, hw.runtime', Syntax.span_renumber]
  refine ⟨.keyword hname (List.forall_mem_singleton.2 rfl) rfl, ?_⟩
  rw [Syntax.renumber_addWrap, Syntax.renumber_atom]
  rfl

theorem agree_descend (depth : Nat) (form form' : Syntax) :
    AgreeTwins σ ρ Eq (descend depth form) (descend depth form') := by
  refine .get_bind fun w w' hw => ?_
  rw [hw.runtime, hw.runtime']
  split
  · split
    · exact .failAt _ _ _ _
    · exact .pure rfl
  · exact .pure rfl

theorem agree_expectBody {form form' : Syntax} {parts parts' : List Syntax}
    (hlength : parts'.length = parts.length) (first : Nat) :
    AgreeTwins σ ρ Eq (expectBody form parts first) (expectBody form' parts' first) := by
  rw [expectBody, expectBody, hlength]
  split
  · exact .pure rfl
  · exact .failAt _ _ _ _

theorem agree_expectCount {form form' : Syntax} {parts parts' : List Syntax}
    (hlength : parts'.length = parts.length) (count : Nat) (expected : Operands) :
    AgreeTwins σ ρ Eq (expectCount form parts count expected)
      (expectCount form' parts' count expected) := by
  rw [expectCount, expectCount, hlength]
  split
  · exact .pure rfl
  · exact .failAt _ _ _ _

/-- The clauses are the same up to the numbers. -/
def PairsTwin (σ : Sides) (ρ : Renumbering) (pairs pairs' : List (Syntax × Syntax)) :
    Prop :=
  (∀ pair ∈ pairs, pair.1.Local ρ σ.kernel ∧ pair.2.Local ρ σ.kernel) ∧
    pairs' = pairs.map fun pair => (pair.1.renumber ρ, pair.2.renumber ρ)

theorem PairsTwin.firsts {pairs pairs' : List (Syntax × Syntax)} (h : PairsTwin σ ρ pairs pairs') :
    Syntax.TwinAll σ ρ (pairs.map (·.1)) (pairs'.map (·.1)) := by
  obtain ⟨hlocal, rfl⟩ := h
  exact ⟨List.forall_mem_map.2 fun pair hpair => (hlocal pair hpair).1, by simp⟩

theorem PairsTwin.seconds {pairs pairs' : List (Syntax × Syntax)}
    (h : PairsTwin σ ρ pairs pairs') :
    Syntax.TwinAll σ ρ (pairs.map (·.2)) (pairs'.map (·.2)) := by
  obtain ⟨hlocal, rfl⟩ := h
  exact ⟨List.forall_mem_map.2 fun pair hpair => (hlocal pair hpair).2, by simp⟩

theorem agree_parseClauses {clauses : List Syntax} (h : ∀ stx ∈ clauses, stx.Local ρ σ.kernel) :
    AgreeTwins σ ρ (PairsTwin σ ρ) (parseClauses clauses)
      (parseClauses (clauses.map (Syntax.renumber ρ))) := by
  induction clauses with
  | nil => exact .pure ⟨nofun, rfl⟩
  | cons clause rest ih =>
      obtain ⟨hclause, hrest⟩ := List.forall_mem_cons.1 h
      have hparts := hclause.subforms
      rw [List.map_cons, parseClauses, parseClauses, Syntax.subforms_renumber]
      generalize clause.subforms = parts at hparts
      rcases parts with _ | ⟨id, _ | ⟨init, _ | ⟨third, more⟩⟩⟩
      · exact .failAt _ _ _ _
      · exact .failAt _ _ _ _
      · obtain ⟨hid, hinit⟩ := Syntax.forall_local_pair.1 hparts
        simp only [List.map_cons, List.map_nil, Syntax.isIdentifier_renumber]
        split
        · refine (ih hrest).bind fun pairs pairs' hpairs => .pure ?_
          obtain ⟨hlocal, rfl⟩ := hpairs
          exact ⟨List.forall_mem_cons.2 ⟨⟨hid, hinit⟩, hlocal⟩, rfl⟩
        · exact .failAt _ _ _ _
      · exact .failAt _ _ _ _

theorem agree_bindingClauses {clauses : Syntax} (h : clauses.Local ρ σ.kernel) :
    AgreeTwins σ ρ (PairsTwin σ ρ) (bindingClauses clauses)
      (bindingClauses (clauses.renumber ρ)) := by
  rw [bindingClauses, bindingClauses, Syntax.subforms?_renumber]
  cases hitems : clauses.subforms? with
  | none => exact .failAt _ _ _ _
  | some items => exact agree_parseClauses (h.subforms? hitems)

section

variable {expand : ExpandContext → Syntax → RunM Syntax}

/-- Expressions of the module are expanded alike. -/
def ExpandsTwins (σ : Sides) (ρ : Renumbering)
    (expand : ExpandContext → Syntax → RunM Syntax) : Prop :=
  ∀ stx, stx.Local ρ σ.kernel → AgreeTwins σ ρ (Syntax.ExpandedTwin σ ρ) (expand .expression stx)
    (expand .expression (stx.renumber ρ))

theorem agree_expandEach (hexpand : ExpandsTwins σ ρ expand) {forms : List Syntax}
    (hforms : ∀ stx ∈ forms, stx.Local ρ σ.kernel) :
    AgreeTwins σ ρ (Syntax.ExpandedTwins σ ρ forms.length) (expandEach expand .expression forms)
      (expandEach expand .expression (forms.map (Syntax.renumber ρ))) := by
  induction forms with
  | nil => exact .pure ⟨nofun, nofun, rfl, rfl⟩
  | cons stx rest ih =>
      obtain ⟨hstx, hrest⟩ := List.forall_mem_cons.1 hforms
      refine (hexpand stx hstx).bind fun out out' hout => ?_
      refine (ih hrest).bind fun outs outs' houts => .pure ?_
      obtain ⟨hlocal, hexpression, rfl⟩ := hout
      obtain ⟨hlocals, hexpressions, rfl, hlength⟩ := houts
      exact ⟨List.forall_mem_cons.2 ⟨hlocal, hlocals⟩,
        List.forall_mem_cons.2 ⟨hexpression, hexpressions⟩, rfl, congrArg (· + 1) hlength⟩

theorem agree_expandFields (hexpand : ExpandsTwins σ ρ expand)
    {fields : List (String × Syntax)} (hfields : ∀ field ∈ fields, field.2.Local ρ σ.kernel) :
    AgreeTwins σ ρ (fun out out' => (∀ field ∈ out, field.2.Local ρ σ.kernel) ∧
        (∀ field ∈ out, Expression σ.first field.2) ∧
        out' = out.map fun field => (field.1, field.2.renumber ρ))
      (expandFields expand fields)
      (expandFields expand (fields.map fun field => (field.1, field.2.renumber ρ))) := by
  induction fields with
  | nil => exact .pure ⟨nofun, nofun, rfl⟩
  | cons field rest ih =>
      obtain ⟨hfield, hrest⟩ := List.forall_mem_cons.1 hfields
      refine (hexpand field.2 hfield).bind fun out out' hout => ?_
      refine (ih hrest).bind fun outs outs' houts => .pure ?_
      obtain ⟨hlocal, hexpression, rfl⟩ := hout
      obtain ⟨hlocals, hexpressions, rfl⟩ := houts
      exact ⟨List.forall_mem_cons.2 ⟨hlocal, hlocals⟩,
        List.forall_mem_cons.2 ⟨hexpression, hexpressions⟩, rfl⟩

/-- What is inside a binding form is expanded in the scope of its rib. -/
theorem agree_renamed (hexpand : ExpandsTwins σ ρ expand) {rib : Rib}
    (hrib : (Wrap.rename rib).Local ρ σ.kernel) {forms : List Syntax}
    (hforms : ∀ stx ∈ forms, stx.Local ρ σ.kernel) :
    AgreeTwins σ ρ (Syntax.ExpandedTwins σ ρ forms.length)
      (expandEach expand .expression (renamed rib forms))
      (expandEach expand .expression (renamed (rib.renumber ρ) (forms.map (Syntax.renumber ρ)))) := by
  rw [← Syntax.map_renumber_renamed]
  have hagree := agree_expandEach hexpand (Syntax.local_renamed hrib hforms)
  rwa [renamed, List.length_map] at hagree

/-! ## Binding forms -/

variable {form head : Syntax} {parts rest : List Syntax} {f : CoreForm}

theorem agree_lambda (hexpand : ExpandsTwins σ ρ expand)
    (hhead : coreForm? σ.first head = some .lambda) (hlocal : head.Local ρ σ.kernel)
    (hrest : ∀ stx ∈ rest, stx.Local ρ σ.kernel) :
    AgreeTwins σ ρ (Syntax.ExpandedTwin σ ρ) (lambda expand form (head :: rest))
      (lambda expand (form.renumber ρ) ((head :: rest).map (Syntax.renumber ρ))) := by
  rcases rest with _ | ⟨formals, rest⟩
  · exact .failAt _ _ _ _
  · obtain ⟨hformals, hrest⟩ := List.forall_mem_cons.1 hrest
    have hfound : (if (formals.renumber ρ).isIdentifier then some [formals.renumber ρ]
          else (formals.renumber ρ).subforms?) =
        (if formals.isIdentifier then some [formals] else formals.subforms?).map
          (List.map (Syntax.renumber ρ)) := by
      rw [Syntax.isIdentifier_renumber, Syntax.subforms?_renumber]
      split <;> rfl
    have hbinders : ∀ binders ∈ (if formals.isIdentifier then some [formals] else formals.subforms?),
        ∀ stx ∈ binders, stx.Local ρ σ.kernel := by
      intro binders hmem
      split at hmem
      · cases hmem
        exact List.forall_mem_singleton.2 hformals
      · exact hformals.subforms? hmem
    simp only [lambda, List.map_cons]
    refine (agree_expectBody (by simp) 2).bind fun _ _ _ => ?_
    rw [hfound]
    cases hfoundBinders : (if formals.isIdentifier then some [formals] else formals.subforms?) with
    | none => exact .failAt _ _ _ _
    | some binders =>
        have hbinders := hbinders binders hfoundBinders
        refine (agree_newRib hbinders).bind fun rib rib' hrib => ?_
        obtain ⟨hrib, rfl⟩ := hrib
        refine (agree_renamed hexpand hrib hrest).bind fun body body' hbody => .pure ?_
        obtain ⟨hbody, hexpression, rfl, -⟩ := hbody
        have hnewFormals : (if formals.isIdentifier then formals.addWrap (.rename rib)
            else formals.rebuildSexp (renamed rib binders)).Local ρ σ.kernel := by
          split
          · exact hformals.addWrap ⟨hrib, nofun, nofun⟩
          · exact Syntax.local_group (Syntax.local_renamed hrib hbinders) _ _
        refine ⟨Syntax.local_group (List.forall_mem_cons.2 ⟨hlocal,
          List.forall_mem_cons.2 ⟨hnewFormals, hbody⟩⟩) _ _, ?_, ?_⟩
        · exact .core (Syntax.subforms?_rebuildSexp _ _) hhead nofun nofun hexpression
        · rw [Syntax.renumber_rebuildSexp, List.map_cons, List.map_cons, Syntax.isIdentifier_renumber]
          split
          · rw [Syntax.renumber_addWrap, Wrap.renumber_rename]
          · rw [Syntax.renumber_rebuildSexp, Syntax.map_renumber_renamed]

theorem agree_namedLet (hexpand : ExpandsTwins σ ρ expand)
    (hparts : ∀ stx ∈ parts, stx.Local ρ σ.kernel) :
    AgreeTwins σ ρ (Syntax.ExpandedTwin σ ρ) (namedLet expand form parts)
      (namedLet expand (form.renumber ρ) (parts.map (Syntax.renumber ρ))) := by
  rcases parts with _ | ⟨head, _ | ⟨name, _ | ⟨clauses, rest⟩⟩⟩
  · exact .failAt _ _ _ _
  · exact .failAt _ _ _ _
  · exact .failAt _ _ _ _
  · obtain ⟨-, hparts⟩ := List.forall_mem_cons.1 hparts
    obtain ⟨hname, hparts⟩ := List.forall_mem_cons.1 hparts
    obtain ⟨hclauses, hrest⟩ := List.forall_mem_cons.1 hparts
    simp only [namedLet, List.map_cons]
    refine (agree_expectBody (by simp) 3).bind fun _ _ _ => ?_
    refine (agree_bindingClauses hclauses).bind fun pairs pairs' hpairs => ?_
    have hlambdaName : "lambda" ∈ keywords := List.mem_cons_self
    have hletrecName : "letrec" ∈ keywords := List.mem_cons_of_mem _ List.mem_cons_self
    refine (agree_kernelIdentifier hlambdaName form).bind fun lambdaHead _ hlambda => ?_
    refine (agree_kernelIdentifier hletrecName form).bind fun letrecHead _ hletrec => ?_
    obtain ⟨hids, hids'⟩ := hpairs.firsts
    obtain ⟨hinits, hinits'⟩ := hpairs.seconds
    obtain ⟨hlambda, rfl⟩ := hlambda
    obtain ⟨hletrec, rfl⟩ := hletrec
    -- The call that the loop is made into is made of local parts.
    have hprocedure : (form.rebuildSexp (lambdaHead :: clauses.rebuildSexp (pairs.map (·.1)) ::
        rest)).Local ρ σ.kernel :=
      Syntax.local_group (List.forall_mem_cons.2 ⟨hlambda,
        List.forall_mem_cons.2 ⟨Syntax.local_group hids _ _, hrest⟩⟩) _ _
    have hclause := Syntax.local_group (Syntax.forall_local_pair.2 ⟨hname, hprocedure⟩) form.span .sexp
    have hclauseList := Syntax.local_group (List.forall_mem_singleton.2 hclause) form.span .sexp
    have hoperator := Syntax.local_group (List.forall_mem_cons.2 ⟨hletrec,
      Syntax.forall_local_pair.2 ⟨hclauseList, hname⟩⟩) form.span .sexp
    have hcall := Syntax.local_group (List.forall_mem_cons.2 ⟨hoperator, hinits⟩) form.span .sexp
    have hagree := hexpand _ hcall
    simp only [Syntax.renumber_group, List.map_cons, List.map_nil, ← hids', ← hinits',
      Context.renumber, Option.map_none, Syntax.rebuildSexp] at hagree
    simpa only [Syntax.rebuildSexp, Syntax.span_renumber] using hagree

/-- The clauses and the body of a binding form, expanded and put together again. -/
theorem expandedTwin_binding {clauses : Syntax} {ids inits body : List Syntax}
    (hhead : coreForm? σ.first head = some f) (hf : f = .letForm ∨ f = .letrec)
    (hlocal : head.Local ρ σ.kernel) {rib : Rib} (hrib : (Wrap.rename rib).Local ρ σ.kernel)
    (hids : ∀ stx ∈ ids, stx.Local ρ σ.kernel) {inits' body' : List Syntax} {count : Nat}
    (hinits : Syntax.ExpandedTwins σ ρ ids.length inits inits')
    (hbody : Syntax.ExpandedTwins σ ρ count body body') :
    Syntax.ExpandedTwin σ ρ
      (form.rebuildSexp (head :: rebuildClauses clauses (renamed rib ids) inits :: body))
      ((form.renumber ρ).rebuildSexp (head.renumber ρ ::
        rebuildClauses (clauses.renumber ρ) (renamed (rib.renumber ρ) (ids.map (Syntax.renumber ρ)))
          inits' :: body')) := by
  obtain ⟨hinits, hinitExpressions, rfl, hlength⟩ := hinits
  obtain ⟨hbody, hbodyExpressions, rfl, -⟩ := hbody
  have hlength : inits.length = (renamed rib ids).length := by simpa [renamed] using hlength
  have hoperands := expression_binding hlength hinitExpressions hbodyExpressions
    (Eq.refl (head :: rebuildClauses clauses (renamed rib ids) inits :: body))
  refine ⟨Syntax.local_group (List.forall_mem_cons.2 ⟨hlocal, List.forall_mem_cons.2
    ⟨Syntax.local_rebuildClauses (Syntax.local_renamed hrib hids) hinits _, hbody⟩⟩) _ _, ?_, ?_⟩
  · have hplain : f ≠ .define ∧ f ≠ .defineSyntax := by rcases hf with rfl | rfl <;> decide
    refine .core (Syntax.subforms?_rebuildSexp _ _) hhead hplain.1 hplain.2 ?_
    rcases hf with rfl | rfl
    · exact hoperands
    · exact hoperands
  · rw [Syntax.renumber_rebuildSexp, List.map_cons, List.map_cons, Syntax.renumber_rebuildClauses,
      Syntax.map_renumber_renamed]

theorem agree_letForm (hexpand : ExpandsTwins σ ρ expand)
    (hhead : coreForm? σ.first head = some .letForm) (hlocal : head.Local ρ σ.kernel)
    (hrest : ∀ stx ∈ rest, stx.Local ρ σ.kernel) :
    AgreeTwins σ ρ (Syntax.ExpandedTwin σ ρ) (letForm expand form (head :: rest))
      (letForm expand (form.renumber ρ) ((head :: rest).map (Syntax.renumber ρ))) := by
  have hnamed : AgreeTwins σ ρ (Syntax.ExpandedTwin σ ρ) (namedLet expand form (head :: rest))
      (namedLet expand (form.renumber ρ) ((head :: rest).map (Syntax.renumber ρ))) :=
    agree_namedLet hexpand (List.forall_mem_cons.2 ⟨hlocal, hrest⟩)
  rcases rest with _ | ⟨clauses, rest⟩
  · exact .failAt _ _ _ _
  · obtain ⟨hclauses, hrest⟩ := List.forall_mem_cons.1 hrest
    simp only [letForm, List.map_cons, Syntax.isIdentifier_renumber] at hnamed ⊢
    split
    · exact hnamed
    · refine (agree_expectBody (by simp) 2).bind fun _ _ _ => ?_
      refine (agree_bindingClauses hclauses).bind fun pairs pairs' hpairs => ?_
      obtain ⟨hids, hids'⟩ := hpairs.firsts
      obtain ⟨hinits, hinits'⟩ := hpairs.seconds
      rw [hids', hinits']
      refine (agree_expandEach hexpand hinits).bind fun inits _ hinits => ?_
      refine (agree_newRib hids).bind fun rib _ hrib => ?_
      obtain ⟨hrib, rfl⟩ := hrib
      refine (agree_renamed hexpand hrib hrest).bind fun body _ hbody => .pure ?_
      rw [List.length_map, ← List.length_map (f := (·.1))] at hinits
      exact expandedTwin_binding hhead (.inl rfl) hlocal hrib hids hinits hbody

theorem agree_letrec (hexpand : ExpandsTwins σ ρ expand)
    (hhead : coreForm? σ.first head = some .letrec) (hlocal : head.Local ρ σ.kernel)
    (hrest : ∀ stx ∈ rest, stx.Local ρ σ.kernel) :
    AgreeTwins σ ρ (Syntax.ExpandedTwin σ ρ) (letrec expand form (head :: rest))
      (letrec expand (form.renumber ρ) ((head :: rest).map (Syntax.renumber ρ))) := by
  rcases rest with _ | ⟨clauses, rest⟩
  · exact .failAt _ _ _ _
  · obtain ⟨hclauses, hrest⟩ := List.forall_mem_cons.1 hrest
    simp only [letrec, List.map_cons]
    refine (agree_expectBody (by simp) 2).bind fun _ _ _ => ?_
    refine (agree_bindingClauses hclauses).bind fun pairs pairs' hpairs => ?_
    obtain ⟨hids, hids'⟩ := hpairs.firsts
    obtain ⟨hinits, hinits'⟩ := hpairs.seconds
    rw [hids', hinits']
    refine (agree_newRib hids).bind fun rib _ hrib => ?_
    obtain ⟨hrib, rfl⟩ := hrib
    refine (agree_renamed hexpand hrib hinits).bind fun inits _ hinits => ?_
    refine (agree_renamed hexpand hrib hrest).bind fun body _ hbody => .pure ?_
    rw [List.length_map, ← List.length_map (f := (·.1))] at hinits
    exact expandedTwin_binding hhead (.inr rfl) hlocal hrib hids hinits hbody

/-- The clauses of a `parameterize` have been expanded. -/
structure ClausesTwin (σ : Sides) (ρ : Renumbering) (clauses clauses' : List Syntax) : Prop where
  isLocal : ∀ stx ∈ clauses, stx.Local ρ σ.kernel
  expression : ∀ stx ∈ clauses.flatMap Syntax.subforms, Expression σ.first stx
  same : clauses' = clauses.map (Syntax.renumber ρ)

theorem agree_parameterClauses (hexpand : ExpandsTwins σ ρ expand) {clauses : List Syntax}
    (h : ∀ stx ∈ clauses, stx.Local ρ σ.kernel) :
    AgreeTwins σ ρ (ClausesTwin σ ρ) (parameterClauses expand clauses)
      (parameterClauses expand (clauses.map (Syntax.renumber ρ))) := by
  induction clauses with
  | nil => exact .pure ⟨nofun, nofun, rfl⟩
  | cons clause rest ih =>
      obtain ⟨hclause, hrest⟩ := List.forall_mem_cons.1 h
      have hparts := hclause.subforms
      rw [List.map_cons, parameterClauses, parameterClauses, Syntax.subforms_renumber]
      generalize clause.subforms = parts at hparts
      rcases parts with _ | ⟨parameter, _ | ⟨value, _ | ⟨third, more⟩⟩⟩
      · exact .failAt _ _ _ _
      · exact .failAt _ _ _ _
      · obtain ⟨hparameter, hvalue⟩ := Syntax.forall_local_pair.1 hparts
        simp only [List.map_cons, List.map_nil]
        refine (hexpand parameter hparameter).bind fun p _ hp => ?_
        refine (hexpand value hvalue).bind fun v _ hv => ?_
        refine (ih hrest).bind fun outs _ houts => .pure ?_
        obtain ⟨hp, hpExpression, rfl⟩ := hp
        obtain ⟨hv, hvExpression, rfl⟩ := hv
        obtain ⟨houts, hexpressions, rfl⟩ := houts
        refine ⟨List.forall_mem_cons.2 ⟨Syntax.local_group (Syntax.forall_local_pair.2 ⟨hp, hv⟩) _ _,
          houts⟩, ?_, ?_⟩
        · rw [List.flatMap_cons, Syntax.subforms_rebuildSexp, List.forall_mem_append,
            List.forall_mem_cons, List.forall_mem_singleton]
          exact ⟨⟨hpExpression, hvExpression⟩, hexpressions⟩
        · rw [List.map_cons, Syntax.renumber_rebuildSexp]
          rfl
      · exact .failAt _ _ _ _

theorem agree_parameterize (hexpand : ExpandsTwins σ ρ expand)
    (hhead : coreForm? σ.first head = some .parameterize) (hlocal : head.Local ρ σ.kernel)
    (hrest : ∀ stx ∈ rest, stx.Local ρ σ.kernel) :
    AgreeTwins σ ρ (Syntax.ExpandedTwin σ ρ) (parameterize expand form (head :: rest))
      (parameterize expand (form.renumber ρ) ((head :: rest).map (Syntax.renumber ρ))) := by
  rcases rest with _ | ⟨clauses, rest⟩
  · exact .failAt _ _ _ _
  · obtain ⟨hclauses, hrest⟩ := List.forall_mem_cons.1 hrest
    simp only [parameterize, List.map_cons, Syntax.subforms?_renumber]
    refine (agree_expectBody (by simp) 2).bind fun _ _ _ => ?_
    cases hitems : clauses.subforms? with
    | none => exact .failAt _ _ _ _
    | some items =>
        simp only [Option.map_some]
        refine (agree_parameterClauses hexpand (hclauses.subforms? hitems)).bind
          fun outs _ houts => ?_
        refine (agree_expandEach hexpand hrest).bind fun body _ hbody => .pure ?_
        obtain ⟨houts, hclauseExpressions, rfl⟩ := houts
        obtain ⟨hbody, hbodyExpressions, rfl, -⟩ := hbody
        refine ⟨Syntax.local_group (List.forall_mem_cons.2 ⟨hlocal, List.forall_mem_cons.2
          ⟨Syntax.local_group houts _ _, hbody⟩⟩) _ _, ?_, ?_⟩
        · refine .core (Syntax.subforms?_rebuildSexp _ _) hhead nofun nofun ?_
          rw [CoreForm.operands, clausesOf_cons _ (Syntax.subforms?_rebuildSexp _ _)]
          exact List.forall_mem_append.2 ⟨hclauseExpressions, hbodyExpressions⟩
        · rw [Syntax.renumber_rebuildSexp, List.map_cons, List.map_cons,
            Syntax.renumber_rebuildSexp]

/-! ## Core forms -/

/-- The parts of a form after its head are expanded, and the form is put together again. -/
theorem agree_expandRest (hexpand : ExpandsTwins σ ρ expand)
    (hhead : coreForm? σ.first head = some f) (hf : f = .ifForm ∨ f = .begin)
    (hlocal : head.Local ρ σ.kernel) (hrest : ∀ stx ∈ rest, stx.Local ρ σ.kernel) :
    AgreeTwins σ ρ (Syntax.ExpandedTwin σ ρ)
      (do
        let outs ← expandEach expand .expression ((head :: rest).drop 1)
        return form.rebuildSexp ((head :: rest).take 1 ++ outs))
      (do
        let outs ← expandEach expand .expression (((head :: rest).map (Syntax.renumber ρ)).drop 1)
        return (form.renumber ρ).rebuildSexp
          (((head :: rest).map (Syntax.renumber ρ)).take 1 ++ outs)) := by
  refine (agree_expandEach hexpand hrest).bind fun outs _ houts => .pure ?_
  obtain ⟨houts, hexpressions, rfl, -⟩ := houts
  refine ⟨Syntax.local_group (List.forall_mem_cons.2 ⟨hlocal, houts⟩) _ _, ?_, ?_⟩
  · rcases hf with rfl | rfl
    · exact .core (Syntax.subforms?_rebuildSexp _ _) hhead nofun nofun hexpressions
    · exact .core (Syntax.subforms?_rebuildSexp _ _) hhead nofun nofun hexpressions
  · rw [Syntax.renumber_rebuildSexp, List.map_append, List.map_take]

theorem agree_set (hexpand : ExpandsTwins σ ρ expand)
    (hhead : coreForm? σ.first head = some .set) (hlocal : head.Local ρ σ.kernel)
    (hrest : ∀ stx ∈ rest, stx.Local ρ σ.kernel) (loader : Loader) (ns : NamespaceId) :
    AgreeTwins σ ρ (Syntax.ExpandedTwin σ ρ)
      (core expand loader ns .set form (head :: rest) .expression)
      (core expand loader ns .set (form.renumber ρ) ((head :: rest).map (Syntax.renumber ρ))
        .expression) := by
  refine (agree_expectCount (by simp) 3 _).bind fun _ _ _ => ?_
  rcases rest with _ | ⟨id, _ | ⟨value, _ | ⟨fourth, more⟩⟩⟩
  · exact .failAt _ _ _ _
  · exact .failAt _ _ _ _
  · obtain ⟨hid, hvalue⟩ := Syntax.forall_local_pair.1 hrest
    simp only [List.map_cons, List.map_nil, Syntax.isIdentifier_renumber]
    split
    · exact .of_fails (.bind (.failAt _ _) _) (.bind (.failAt _ _) _)
    · refine (hexpand value hvalue).bind fun out _ hout => .pure ?_
      obtain ⟨hout, hexpression, rfl⟩ := hout
      refine ⟨Syntax.local_group (List.forall_mem_cons.2 ⟨hlocal,
        Syntax.forall_local_pair.2 ⟨hid, hout⟩⟩) _ _, ?_, ?_⟩
      · exact .core (Syntax.subforms?_rebuildSexp _ _) hhead nofun nofun
          (List.forall_mem_singleton.2 hexpression)
      · rw [Syntax.renumber_rebuildSexp]
        rfl
  · exact .failAt _ _ _ _

/-- A core form in an expression is expanded alike, or refused. -/
theorem agree_core (hexpand : ExpandsTwins σ ρ expand) (hform : form.Local ρ σ.kernel)
    (hparts : form.subforms? = some (head :: rest)) (hhead : coreForm? σ.first head = some f)
    (loader : Loader) (ns : NamespaceId) :
    AgreeTwins σ ρ (Syntax.ExpandedTwin σ ρ) (core expand loader ns f form (head :: rest) .expression)
      (core expand loader ns f (form.renumber ρ) ((head :: rest).map (Syntax.renumber ρ))
        .expression) := by
  obtain ⟨hlocal, hrest⟩ := List.forall_mem_cons.1 (hform.subforms? hparts)
  cases f with
  | quote | quoteSyntax =>
      refine (agree_expectCount (by simp) 2 _).bind fun _ _ _ => .pure ⟨hform, ?_, rfl⟩
      exact .core hparts hhead nofun nofun nofun
  | ifForm =>
      exact (agree_expectCount (by simp) 4 _).bind fun _ _ _ =>
        agree_expandRest hexpand hhead (.inl rfl) hlocal hrest
  | begin => exact agree_expandRest hexpand hhead (.inr rfl) hlocal hrest
  | lambda => exact agree_lambda hexpand hhead hlocal hrest
  | letForm => exact agree_letForm hexpand hhead hlocal hrest
  | letrec => exact agree_letrec hexpand hhead hlocal hrest
  | set => exact agree_set hexpand hhead hlocal hrest loader ns
  | parameterize => exact agree_parameterize hexpand hhead hlocal hrest
  | define | defineSyntax | moduleForm | require | provide =>
      exact .of_fails (.bind (.failAt _ _) _) (.bind (.failAt _ _) _)

end

/-! ## Full expansion -/

section

variable {expand : Nat → ExpandContext → Syntax → RunM Syntax} {depth : Nat} {form : Syntax}

theorem agree_expandPlain (hexpand : ExpandsTwins σ ρ (expand depth))
    (hform : form.Local ρ σ.kernel) :
    AgreeTwins σ ρ (Syntax.ExpandedTwin σ ρ) (expandPlain expand depth form)
      (expandPlain expand depth (form.renumber ρ)) := by
  cases form with
  | atom c a =>
      have hsame : (Syntax.atom c a).renumber ρ = .atom (c.renumber ρ) a := Syntax.renumber_atom c a
      have hdatum (hname : (Syntax.atom c a).isIdentifier = false) :
          Syntax.ExpandedTwin σ ρ (.atom c a) (.atom (c.renumber ρ) a) :=
        ⟨hform, .atom (coreForm?_eq_none_of_not_identifier hname), hsame.symm⟩
      rw [hsame]
      cases a with
      | symbol name =>
          refine .get_bind fun w w' hw => ?_
          have hvalue := hw.spaces.headValue? hform
          rw [Syntax.renumber_atom] at hvalue
          rw [hvalue]
          split
          · exact .failAt _ _ _ _
          · exact .failAt _ _ _ _
          · rename_i hnoForm _
            refine .pure ⟨hform, .atom ?_, hsame.symm⟩
            rw [← hw.coreForm?, coreForm?]
            split
            · exact absurd ‹_› (hnoForm _)
            · rfl
      | _ => exact .pure (hdatum rfl)
  | group c shape items =>
      have helements := hform.elements
      have hmap : ((Syntax.group c shape items).renumber ρ).elements?.getD [] =
          ((Syntax.group c shape items).elements?.getD []).map (Syntax.renumber ρ) := by
        rw [Syntax.elements?_renumber]
        cases (Syntax.group c shape items).elements? <;> rfl
      rw [Syntax.renumber_group] at hmap ⊢
      simp only [expandPlain]
      rw [hmap]
      refine (agree_expandEach hexpand helements).bind fun outs _ houts => .pure ?_
      obtain ⟨houts, hexpressions, rfl, -⟩ := houts
      refine ⟨Syntax.local_group houts _ _, ?_, ?_⟩
      · exact .list (Syntax.elements?_rebuildList _ _) hexpressions
      · rw [Syntax.renumber_rebuildList, Syntax.renumber_group]
  | record c fields =>
      have hfields := hform.fields
      have hmap : ((Syntax.record c fields).renumber ρ).fields?.getD [] =
          ((Syntax.record c fields).fields?.getD []).map
            fun field => (field.1, field.2.renumber ρ) := by
        rw [Syntax.fields?_renumber]
        cases (Syntax.record c fields).fields? <;> rfl
      rw [Syntax.renumber_record] at hmap ⊢
      simp only [expandPlain]
      rw [hmap]
      refine (agree_expandFields hexpand hfields).bind fun outs _ houts => .pure ?_
      obtain ⟨houts, hexpressions, rfl⟩ := houts
      refine ⟨Syntax.local_record houts _, ?_, ?_⟩
      · exact .record (Syntax.fields?_rebuildRecord _ _) hexpressions
      · rw [Syntax.renumber_rebuildRecord, Syntax.renumber_record]

theorem agree_expandSexp (hexpand : ExpandsTwins σ ρ (expand depth))
    (hform : form.Local ρ σ.kernel) (loader : Loader) (ns : NamespaceId) (fuel : Nat) :
    AgreeTwins σ ρ (Syntax.ExpandedTwin σ ρ) (expandSexp ns expand loader fuel depth .expression form)
      (expandSexp ns expand loader fuel depth .expression (form.renumber ρ)) := by
  cases fuel with
  | zero => exact .exhausted
  | succ fuel =>
      have hall := hform.subforms
      rw [expandSexp, expandSexp, Syntax.subforms_renumber]
      cases hsubforms : form.subforms with
      | nil => exact .failAt _ _ _ _
      | cons head rest =>
          rw [hsubforms] at hall
          have hhead := (List.forall_mem_cons.1 hall).1
          have hparts : form.subforms? = some (head :: rest) := by
            rw [Syntax.subforms] at hsubforms
            cases hfound : form.subforms? with
            | none => simp [hfound] at hsubforms
            | some parts => simpa [hfound] using hsubforms
          refine .getSpaces_bind fun w w' hw => ?_
          rw [hw.spaces.headValue? hhead]
          split
          -- A form of the module can name its own definitions, still unset, or those of the kernel,
          -- and neither is a transformer.
          · rename_i id procedureId p hvalue
            exact absurd hvalue (hw.spaces.headValue?_ne_transformer hhead id procedureId p)
          · rename_i f hvalue
            refine agree_core hexpand hform hparts ?_ loader ns
            rw [← hw.coreForm?, coreForm?, hvalue]
          · rw [← List.map_cons]
            refine (agree_expandEach hexpand hall).bind fun outs _ houts => .pure ?_
            obtain ⟨houts, hexpressions, rfl, hlength⟩ := houts
            refine ⟨Syntax.local_group houts _ _, ?_, (Syntax.renumber_rebuildSexp _ _).symm⟩
            cases outs with
            | nil => cases hlength
            | cons operator operands =>
                exact .application (Syntax.subforms?_rebuildSexp _ _) hexpressions

end

/-- Expressions of the module are expanded to the same, up to the numbers. -/
theorem agree_expand (loader : Loader) (ns : NamespaceId) (fuel depth : Nat) :
    ExpandsTwins σ ρ (Expansion.expand loader ns fuel depth) := by
  induction fuel generalizing depth with
  | zero => exact fun _ _ => .exhausted
  | succ fuel ih =>
      intro form hform
      refine (agree_descend depth form (form.renumber ρ)).bind fun depth' _ hdepth => ?_
      cases hdepth
      refine .mapError _ _ ?_
      rw [Syntax.isSexp_renumber]
      split
      · exact agree_expandSexp (ih depth') hform loader ns fuel
      · exact agree_expandPlain (ih depth') hform

end HygienicLisp
