import HygienicLisp.Proofs.FullExpansion.Recompilation
import HygienicLisp.Proofs.Isolation.Compile
import HygienicLisp.Proofs.Renaming.Compile

/-!
# Identifiers under a second layer of ribs

Expanding a settled expression again makes a second rib for each of its binding forms.  The keys of
the new rib are those of the binders, and these denote the slots of the first rib.  So the new ribs
take hold of local variables only (`Renews.resolveWithMarks_inside`): a name that denotes something
else, and the name of a core form above all, means under the new ribs what it meant before.

A local variable is taken over by the new rib of its binder if it has the marks of the binder
(`Renews.resolves_captured`), and it is then found in the same slot as many frames up
(`Renews.refers`).
-/

namespace HygienicLisp

open Expansion

/-! ## Forms under ribs -/

/-- The form under further ribs, newest first. -/
def Syntax.inside (ρ : List Rib) (stx : Syntax) : Syntax := stx.addWraps (ρ.map .rename)

namespace Syntax

@[simp] theorem inside_nil (stx : Syntax) : stx.inside [] = stx := rfl

theorem inside_cons (rib : Rib) (ρ : List Rib) (stx : Syntax) :
    stx.inside (rib :: ρ) = (stx.inside ρ).addWrap (.rename rib) := rfl

theorem renamed_map_inside (rib : Rib) (ρ : List Rib) (forms : List Syntax) :
    renamed rib (forms.map (inside ρ)) = forms.map (inside (rib :: ρ)) := by
  rw [renamed, List.map_map]
  rfl

@[simp] theorem symbol?_inside (ρ : List Rib) (stx : Syntax) : (stx.inside ρ).symbol? = stx.symbol? :=
  symbol?_addWraps _ stx

@[simp] theorem isIdentifier_inside (ρ : List Rib) (stx : Syntax) :
    (stx.inside ρ).isIdentifier = stx.isIdentifier := by
  rw [isIdentifier, isIdentifier, symbol?_inside]

@[simp] theorem weight_inside (ρ : List Rib) (stx : Syntax) : (stx.inside ρ).weight = stx.weight :=
  weight_addWraps _ stx

theorem binding_inside {ρ : List Rib} (hρ : ρ ≠ []) (stx : Syntax) :
    (stx.inside ρ).context.binding = none := by
  cases ρ with
  | nil => exact absurd rfl hρ
  | cons rib ρ => exact binding_addWrap _ _

theorem subforms?_inside (ρ : List Rib) (stx : Syntax) :
    (stx.inside ρ).subforms? = stx.subforms?.map (List.map (inside ρ)) := by
  induction ρ with
  | nil =>
      cases h : stx.subforms? with
      | none => rw [inside_nil, h]; rfl
      | some parts => rw [inside_nil, h]; exact congrArg some (map_addWraps_nil parts).symm
  | cons rib ρ ih =>
      have hpush (stx : Syntax) : (stx.addWrap (.rename rib)).subforms? =
          stx.subforms?.map (List.map (addWrap (.rename rib))) := by
        match stx with
        | group c .sexp items => simp [addWrap, setContext, context, subforms?, addWraps]
        | group c .list items => rfl
        | atom c a => rfl
        | record c fields => rfl
      rw [inside_cons, hpush, ih, Option.map_map]
      congr 1
      funext forms
      rw [Function.comp_apply, List.map_map]
      rfl

theorem subforms_inside (ρ : List Rib) (stx : Syntax) :
    (stx.inside ρ).subforms = stx.subforms.map (inside ρ) := by
  rw [subforms, subforms?_inside, subforms]
  cases stx.subforms? <;> rfl

theorem elements?_inside (ρ : List Rib) (stx : Syntax) :
    (stx.inside ρ).elements? = stx.elements?.map (List.map (inside ρ)) := by
  induction ρ with
  | nil =>
      cases h : stx.elements? with
      | none => rw [inside_nil, h]; rfl
      | some parts => rw [inside_nil, h]; exact congrArg some (map_addWraps_nil parts).symm
  | cons rib ρ ih =>
      have hpush (stx : Syntax) : (stx.addWrap (.rename rib)).elements? =
          stx.elements?.map (List.map (addWrap (.rename rib))) := by
        match stx with
        | group c .list items => simp [addWrap, setContext, context, elements?, addWraps]
        | group c .sexp items => rfl
        | atom c a => rfl
        | record c fields => rfl
      rw [inside_cons, hpush, ih, Option.map_map]
      congr 1
      funext forms
      rw [Function.comp_apply, List.map_map]
      rfl

theorem fields?_inside (ρ : List Rib) (stx : Syntax) :
    (stx.inside ρ).fields? = stx.fields?.map (List.map fun field => (field.1, field.2.inside ρ)) := by
  induction ρ with
  | nil => cases h : stx.fields? <;> simp [h]
  | cons rib ρ ih =>
      have hpush (stx : Syntax) : (stx.addWrap (.rename rib)).fields? =
          stx.fields?.map (List.map fun field => (field.1, field.2.addWrap (.rename rib))) := by
        match stx with
        | record c fields => simp [addWrap, setContext, context, fields?, addWraps]
        | group c shape items => rfl
        | atom c a => rfl
      rw [inside_cons, hpush, ih, Option.map_map]
      congr 1
      funext fields
      rw [Function.comp_apply, List.map_map]
      rfl

end Syntax

theorem isFormals_inside {ρ : List Rib} {formals : Syntax} {binders : List Syntax}
    (h : IsFormals formals binders) : IsFormals (formals.inside ρ) (binders.map (Syntax.inside ρ)) := by
  rw [IsFormals] at h ⊢
  rw [Syntax.isIdentifier_inside, Syntax.subforms?_inside]
  split
  · rw [if_pos ‹_›] at h
    cases h
    rfl
  · rw [if_neg ‹_›] at h
    rw [h, Option.map_some]

theorem isClauses_inside {ρ : List Rib} {clauses : Syntax} {pairs : List (Syntax × Syntax)}
    (h : IsClauses clauses pairs) : IsClauses (clauses.inside ρ)
      (pairs.map fun pair => (pair.1.inside ρ, pair.2.inside ρ)) := by
  obtain ⟨items, hitems, hpairs⟩ := h
  refine ⟨items.map (Syntax.inside ρ), by rw [Syntax.subforms?_inside, hitems, Option.map_some], ?_⟩
  calc (items.map (Syntax.inside ρ)).map Syntax.subforms
      = (items.map Syntax.subforms).map (List.map (Syntax.inside ρ)) := by
        rw [List.map_map, List.map_map]
        exact List.map_congr_left fun stx _ => Syntax.subforms_inside ρ stx
    _ = _ := by rw [hpairs, List.map_map, List.map_map]; rfl

/-! ## The new ribs -/

/-- The ribs that a second expansion makes for the layers. -/
inductive Renews (S : Spaces) (bound : RibId) : List Layer → List Rib → Prop
  | nil : Renews S bound [] []
  | cons {Δ : List Layer} {ρ : List Rib} {layer : Layer} {rib : Rib} (houter : Renews S bound Δ ρ)
      (hlayer : layer.Fits S bound Δ) (hkeys : rib.keys = layer.binders.map S.binderKey)
      (hnew : bound ≤ rib.id) (hnewer : ∀ other ∈ ρ, other.id < rib.id) :
      Renews S bound (layer :: Δ) (rib :: ρ)

variable {S : Spaces} {bound : RibId} {Δ : List Layer} {ρ : List Rib} {layer : Layer} {rib : Rib}

theorem Spaces.binderKey_eq {spaces : Spaces} {x : Syntax} {name : String}
    (hname : x.symbol? = some name) :
    spaces.binderKey x = ⟨name, (spaces.resolveWithMarks x).1.getD (.free name),
      (spaces.resolveWithMarks x).2⟩ := by
  rw [Spaces.binderKey, hname, Option.getD_some]
  rfl

/-- The key of a binder is for the slot that it denotes. -/
theorem Layer.Fits.binderKey (h : layer.Fits S bound Δ) {i : Nat} {binder : Syntax}
    (hbinder : layer.binders[i]? = some binder) :
    (S.binderKey binder).origin = .lexical ⟨binder.symbol?.getD "", layer.rib, i⟩ := by
  obtain ⟨name, hname⟩ :=
    Option.isSome_iff_exists.1 (h.identifier binder (List.mem_of_getElem? hbinder))
  rw [Spaces.binderKey_eq hname, h.resolves i binder hbinder]
  rfl

/-- A new rib takes hold of the variables of its layer only. -/
theorem Layer.Fits.origin_of_substitute? (h : layer.Fits S bound Δ)
    (hkeys : rib.keys = layer.binders.map S.binderKey) {key : Key} {v : LocalVar}
    (hv : rib.substitute? key = some v) :
    ∃ u : LocalVar, key.origin = .lexical u ∧ u.rib = layer.rib := by
  obtain ⟨slot, hslot, rfl⟩ := Option.map_eq_some_iff.1 hv
  obtain ⟨hlt, hfound, -⟩ := List.findIdx?_eq_some_iff_getElem.1 hslot
  obtain ⟨binder, hbinder, hkey⟩ : ∃ binder, layer.binders[slot]? = some binder ∧
      S.binderKey binder = key := by
    have hget : rib.keys[slot]? = some key := by
      rw [List.getElem?_eq_getElem hlt, of_decide_eq_true hfound]
    rw [hkeys, List.getElem?_map] at hget
    exact Option.map_eq_some_iff.1 hget
  exact ⟨_, hkey ▸ h.binderKey hbinder, rfl⟩

/-- A binder finds its own slot in a new rib. -/
theorem Layer.Fits.substitute?_binderKey (h : layer.Fits S bound Δ)
    (hkeys : rib.keys = layer.binders.map S.binderKey) {i : Nat} {binder : Syntax}
    (hbinder : layer.binders[i]? = some binder) :
    rib.substitute? (S.binderKey binder) = some ⟨binder.symbol?.getD "", rib.id, i⟩ := by
  have hslot : rib.keys.findIdx? (· = S.binderKey binder) = some i := by
    have hget : rib.keys[i]? = some (S.binderKey binder) := by
      rw [hkeys, List.getElem?_map, hbinder, Option.map_some]
    obtain ⟨hlt, hget⟩ := List.getElem?_eq_some_iff.1 hget
    refine List.findIdx?_eq_some_iff_getElem.2 ⟨hlt, by simp [hget], fun j hj hsame => ?_⟩
    -- Binders in different slots have keys for different variables.
    have hbound : j < layer.binders.length := by
      rw [hkeys, List.length_map] at hlt
      omega
    have hother := h.binderKey (List.getElem?_eq_getElem hbound)
    have hown := h.binderKey hbinder
    have hkey : S.binderKey layer.binders[j] = S.binderKey binder := by
      simpa [hkeys] using hsame
    rw [hkey, hown] at hother
    injection hother with hv
    injection hv with _ _ hslot
    omega
  rw [Rib.substitute?, hslot, Option.map_some, Spaces.binderKey, Spaces.bindingKey]

theorem Spaces.resolveWithMarks_inside_cons (S : Spaces) (rib : Rib) (ρ : List Rib) {x : Syntax}
    {name : String} (hname : x.symbol? = some name) :
    S.resolveWithMarks (x.inside (rib :: ρ)) =
      match rib.substitute? (S.binderKey (x.inside ρ)) with
      | some v => (some (.lexical v), (S.resolveWithMarks (x.inside ρ)).2)
      | none => S.resolveWithMarks (x.inside ρ) := by
  have hresolve (ρ : List Rib) : S.resolveWithMarks (x.inside ρ) =
      S.resolveWraps name none (x.inside ρ).wraps := by
    rw [Spaces.resolveWithMarks, Syntax.symbol?_inside, hname]
  rw [Spaces.binderKey_eq (by rw [Syntax.symbol?_inside, hname]), hresolve, hresolve,
    Syntax.inside_cons, Syntax.wraps_addWrap, pushWrap_rename]
  exact Spaces.resolveWraps_rename_cons ..

namespace Renews

theorem of_mem_zip (h : Renews S bound Δ ρ) (hmem : (layer, rib) ∈ Δ.zip ρ) :
    bound ≤ rib.id ∧ layer.rib < bound ∧ rib ∈ ρ := by
  induction h with
  | nil => cases hmem
  | cons _ hlayer _ hnew _ ih =>
      rw [List.zip_cons_cons, List.mem_cons] at hmem
      rcases hmem with hsame | hmem
      · cases hsame
        exact ⟨hnew, hlayer.older, List.mem_cons_self⟩
      · obtain ⟨hbound, holder, hrib⟩ := ih hmem
        exact ⟨hbound, holder, List.mem_cons_of_mem _ hrib⟩

theorem fits_of_mem (h : Renews S bound Δ ρ) (hmem : layer ∈ Δ) :
    ∃ outer, layer.Fits S bound outer := by
  induction h with
  | nil => cases hmem
  | cons _ hlayer _ _ _ ih =>
      rcases List.mem_cons.1 hmem with rfl | hmem
      · exact ⟨_, hlayer⟩
      · exact ih hmem

/-- Names that denote no variable of the layers mean the same under the new ribs. -/
theorem resolveWithMarks_inside (h : Renews S bound Δ ρ) {x : Syntax}
    (hx : ∀ v, (S.resolveWithMarks x).1 = some (.lexical v) → ∀ layer ∈ Δ, layer.rib ≠ v.rib) :
    S.resolveWithMarks (x.inside ρ) = S.resolveWithMarks x := by
  cases hname : x.symbol? with
  | none => simp [Spaces.resolveWithMarks, hname]
  | some name =>
      induction h with
      | nil => rfl
      | @cons Δ ρ layer rib _ hlayer hkeys _ _ ih =>
          have ih := ih fun v hv other hother => hx v hv other (List.mem_cons_of_mem _ hother)
          rw [S.resolveWithMarks_inside_cons rib ρ hname,
            Spaces.binderKey_eq (by rw [Syntax.symbol?_inside, hname]), ih]
          split
          · next v hv =>
            obtain ⟨u, horigin, hrib⟩ := hlayer.origin_of_substitute? hkeys hv
            cases hbinding : (S.resolveWithMarks x).1 with
            | none =>
                rw [hbinding] at horigin
                cases horigin
            | some binding =>
                rw [hbinding] at horigin
                cases horigin
                exact absurd hrib.symm (hx u hbinding layer List.mem_cons_self)
          · rfl

/-- A local variable is a local variable under the new ribs, its own or a new one. -/
theorem lexical_inside (h : Renews S bound Δ ρ) {x : Syntax} {v : LocalVar}
    (hx : (S.resolveWithMarks x).1 = some (.lexical v)) :
    ∃ v', (S.resolveWithMarks (x.inside ρ)).1 = some (.lexical v') := by
  cases hname : x.symbol? with
  | none => simp [Spaces.resolveWithMarks, hname] at hx
  | some name =>
      induction h with
      | nil => exact ⟨v, hx⟩
      | @cons Δ ρ layer rib _ _ _ _ _ ih =>
          rw [S.resolveWithMarks_inside_cons rib ρ hname]
          split
          · exact ⟨_, rfl⟩
          · exact ih

/-- A variable with the key of its binder is taken over by the new rib of the binder. -/
theorem resolves_captured (h : Renews S bound Δ ρ) (hmem : (layer, rib) ∈ Δ.zip ρ) {x binder : Syntax}
    {i : Nat} (hbinder : layer.binders[i]? = some binder) (hkey : S.binderKey x = S.binderKey binder)
    {v : LocalVar} (hx : (S.resolveWithMarks x).1 = some (.lexical v)) (hv : v.rib = layer.rib) :
    ∃ v', (S.resolveWithMarks (x.inside ρ)).1 = some (.lexical v') ∧ v'.rib = rib.id ∧ v'.slot = i := by
  obtain ⟨name, hname⟩ : ∃ name, x.symbol? = some name := by
    cases hname : x.symbol? with
    | none => simp [Spaces.resolveWithMarks, hname] at hx
    | some name => exact ⟨name, rfl⟩
  induction h with
  | nil => cases hmem
  | @cons Δ ρ layer' rib' houter hlayer hkeys hnew _ ih =>
      rw [S.resolveWithMarks_inside_cons rib' ρ hname]
      rw [List.zip_cons_cons, List.mem_cons] at hmem
      rcases hmem with hsame | hmem
      · -- The ribs further out leave the variable alone.
        cases hsame
        have hsame : S.resolveWithMarks (x.inside ρ) = S.resolveWithMarks x := by
          refine houter.resolveWithMarks_inside fun u hu other hother hrib => ?_
          rw [hx] at hu
          cases hu
          have := hlayer.newer other hother
          rw [hrib, hv] at this
          exact lt_irrefl _ this
        have hkey' : S.binderKey (x.inside ρ) = S.binderKey binder := by
          rw [← hkey, Spaces.binderKey_eq hname, Spaces.binderKey_eq (by rw [Syntax.symbol?_inside, hname]),
            hsame]
        rw [hkey', hlayer.substitute?_binderKey hkeys hbinder]
        exact ⟨_, rfl, rfl, rfl⟩
      · -- The variable is a new one already, and so none of this layer.
        obtain ⟨v', hv', hrib, hslot⟩ := ih hmem
        have hnone : rib'.substitute? (S.binderKey (x.inside ρ)) = none := by
          by_contra hsome
          obtain ⟨u, hu⟩ := Option.ne_none_iff_exists'.1 hsome
          obtain ⟨u, horigin, hlayerRib⟩ := hlayer.origin_of_substitute? hkeys hu
          rw [Spaces.binderKey_eq (by rw [Syntax.symbol?_inside, hname]), hv'] at horigin
          cases horigin
          have hlt : v'.rib < rib.id :=
            hlayerRib ▸ hlayer.older.trans_le (houter.of_mem_zip hmem).1
          exact hlt.ne hrib
        rw [hnone]
        exact ⟨v', hv', hrib, hslot⟩

/-- The frame of a layer is as many frames up as that of its new rib. -/
theorem findIdx? (h : Renews S bound Δ ρ) {id : RibId} {depth : Nat}
    (hdepth : (Δ.map Layer.scope).findIdx? (· = some id) = some depth) :
    ∃ layer rib, (layer, rib) ∈ Δ.zip ρ ∧ layer.rib = id ∧ layer.binders ≠ [] ∧
      (scopesOf ρ).findIdx? (· = some rib.id) = some depth := by
  induction h generalizing depth with
  | nil => cases hdepth
  | @cons Δ ρ layer rib houter hlayer hkeys _ hnewer ih =>
      have hempty : rib.keys = [] ↔ layer.binders = [] := by rw [hkeys, List.map_eq_nil_iff]
      rw [List.map_cons, List.findIdx?_cons] at hdepth
      by_cases hscope : layer.scope = some id
      · rw [if_pos (by simpa using hscope)] at hdepth
        cases hdepth
        have hbinders : layer.binders ≠ [] := by
          intro hnil
          rw [Layer.scope, if_pos hnil] at hscope
          cases hscope
        rw [Layer.scope, if_neg hbinders] at hscope
        cases hscope
        refine ⟨layer, rib, List.mem_cons_self, rfl, hbinders, ?_⟩
        have hrib : scopeOf rib = some rib.id := if_neg (mt hempty.1 hbinders)
        rw [scopesOf, List.map_cons, List.findIdx?_cons, if_pos (by simp [hrib])]
      · rw [if_neg (by simpa using hscope)] at hdepth
        obtain ⟨depth', hdepth', rfl⟩ := Option.map_eq_some_iff.1 hdepth
        obtain ⟨layer', rib', hmem, hid, hbinders, hfound⟩ := ih hdepth'
        refine ⟨layer', rib', List.mem_cons_of_mem _ hmem, hid, hbinders, ?_⟩
        -- The rib of this layer is newer than those further out, so the search passes over it.
        have hother : scopeOf rib ≠ some rib'.id := by
          rw [scopeOf]
          split
          · simp
          · simpa using (hnewer rib' (houter.of_mem_zip hmem).2.2).ne'
        rw [scopesOf, List.map_cons, List.findIdx?_cons, if_neg (by simpa using hother)]
        rw [scopesOf] at hfound
        rw [hfound]
        rfl

end Renews

/-! ## Parts of a form -/

namespace Syntax.Has

variable {stx part x : Syntax}

theorem trans (h : stx.Has part) (hx : part.Has x) : stx.Has x := by
  induction hx with
  | self => exact h
  | subform _ hpart ih => exact ih.subform hpart
  | element _ hpart ih => exact ih.element hpart
  | field _ hfield ih => exact ih.field hfield

theorem of_subforms? {parts : List Syntax} (hparts : stx.subforms? = some parts) (hpart : part ∈ parts)
    (h : part.Has x) : stx.Has x :=
  trans (.subform .self (subforms_of_subforms? hparts ▸ hpart)) h

theorem of_elements? {parts : List Syntax} (hparts : stx.elements? = some parts) (hpart : part ∈ parts)
    (h : part.Has x) : stx.Has x :=
  trans (.element .self (by rwa [hparts])) h

theorem of_fields? {fields : List (String × Syntax)} {field : String × Syntax}
    (hparts : stx.fields? = some fields) (hfield : field ∈ fields) (h : field.2.Has x) :
    stx.Has x :=
  trans (.field .self (by rwa [hparts])) h

theorem of_isClauses {pairs : List (Syntax × Syntax)} {pair : Syntax × Syntax}
    (hclauses : IsClauses stx pairs) (hpair : pair ∈ pairs) (h : pair.1.Has x ∨ pair.2.Has x) :
    stx.Has x := by
  obtain ⟨items, hitems, hpairs⟩ := hclauses
  have hmem : [pair.1, pair.2] ∈ items.map Syntax.subforms := by
    rw [hpairs]
    exact List.mem_map_of_mem hpair
  obtain ⟨clause, hclause, hsubforms⟩ := List.mem_map.1 hmem
  have hparts : clause.subforms? = some [pair.1, pair.2] := by
    rw [subforms] at hsubforms
    cases hsome : clause.subforms? with
    | none => simp [hsome] at hsubforms
    | some parts => simpa [hsome] using hsubforms
  refine of_subforms? hitems hclause ?_
  rcases h with h | h
  · exact of_subforms? hparts (by simp) h
  · exact of_subforms? hparts (by simp) h

theorem of_isFormals {binders : List Syntax} (hformals : IsFormals stx binders) (h : x ∈ binders) :
    stx.Has x := by
  rw [IsFormals] at hformals
  split at hformals
  · cases hformals
    obtain rfl := List.mem_singleton.1 h
    exact self
  · exact of_subforms? hformals h self

end Syntax.Has

theorem IsClauses.has_binder {clauses binder : Syntax} {pairs : List (Syntax × Syntax)}
    (h : IsClauses clauses pairs) (hbinder : binder ∈ pairs.map (·.1)) : clauses.Has binder := by
  obtain ⟨pair, hpair, rfl⟩ := List.mem_map.1 hbinder
  exact .of_isClauses h hpair (.inl .self)

/-- The identifier means what its wraps give it, unless it gets no new ones: a meaning that has been
recorded on it does not count under further ribs. -/
def Meant (S : Spaces) (ρ : List Rib) (x : Syntax) : Prop :=
  ρ ≠ [] → S.resolve x = (S.resolveWithMarks x).1

/-- Identifiers of the form that denote one local variable differ in no mark, and no two ribs in it
have one number. -/
structure Intact (S : Spaces) (e : Syntax) : Prop where
  marks : ∀ x y u v, e.Has x → e.Has y → S.resolve x = some (.lexical u) →
    S.resolve y = some (.lexical v) → u.rib = v.rib → u.slot = v.slot → S.boundIdentifierEq x y
  ribs : ∀ x y a b, e.Has x → e.Has y → .rename a ∈ x.wraps → .rename b ∈ y.wraps → a.id = b.id →
    a = b

theorem Spaces.binderKey_eq_of_boundIdentifierEq {x y : Syntax} (h : S.boundIdentifierEq x y) :
    S.binderKey x = S.binderKey y := by
  rw [Spaces.boundIdentifierEq] at h
  split at h
  · next hx hy => simpa [Spaces.binderKey, hx, hy] using h
  · cases h

namespace Renews

variable {e x : Syntax}

/-- The new ribs change no head: what is no local variable stays what it is. -/
theorem headKind_inside (h : Renews S bound Δ ρ) (hx : Meant S ρ x) :
    headKind S (x.inside ρ) = headKind S x := by
  by_cases hρ : ρ = []
  · rw [hρ, Syntax.inside_nil]
  · rw [headKind, headKind, headValue?, headValue?, Syntax.isIdentifier_inside, hx hρ,
      Spaces.resolve_of_binding_eq_none (Syntax.binding_inside hρ x)]
    by_cases hlexical : ∃ v, (S.resolveWithMarks x).1 = some (.lexical v)
    · obtain ⟨v, hv⟩ := hlexical
      obtain ⟨v', hv'⟩ := h.lexical_inside hv
      simp only [hv, hv']
    · rw [h.resolveWithMarks_inside fun v hv => absurd ⟨v, hv⟩ hlexical]

/-- A slot of the rib that a layer has is a slot of its binders, if ribs have numbers of their
own. -/
theorem slot_lt (h : layer.Fits S bound Δ) (hintact : Intact S e) (hx : e.Has x)
    (hbinders : ∀ binder ∈ layer.binders, e.Has binder) (hne : layer.binders ≠ []) {v : LocalVar}
    (hv : (S.resolveWithMarks x).1 = some (.lexical v)) (hrib : v.rib = layer.rib) :
    v.slot < layer.binders.length := by
  obtain ⟨keys, hlength, hwraps⟩ := h.made
  obtain ⟨first, hfirst⟩ := List.exists_mem_of_ne_nil _ hne
  cases hname : x.symbol? with
  | none => simp [Spaces.resolveWithMarks, hname] at hv
  | some name =>
      rw [Spaces.resolveWithMarks, hname] at hv
      obtain ⟨rib, hmem, hid, hslot⟩ := Spaces.exists_rib_of_resolveWraps hv
      obtain rfl := hintact.ribs x first rib _ hx (hbinders first hfirst) hmem (hwraps first hfirst)
        (hid.trans hrib)
      exact hlength ▸ hslot

/-- A local variable of a layer is found under the new ribs in the same slot as many frames up. -/
theorem refers_lexical (h : Renews S bound Δ ρ) (hintact : Intact S e) (hx : e.Has x)
    (hΔ : ∀ layer ∈ Δ, ∀ binder ∈ layer.binders, e.Has binder)
    (hwraps : S.resolve x = (S.resolveWithMarks x).1) {v : LocalVar}
    (hv : (S.resolveWithMarks x).1 = some (.lexical v)) :
    ∃ v', (S.resolveWithMarks (x.inside ρ)).1 = some (.lexical v') ∧
      ∀ depth, (Δ.map Layer.scope).findIdx? (· = some v.rib) = some depth →
        (scopesOf ρ).findIdx? (· = some v'.rib) = some depth ∧ v'.slot = v.slot := by
  cases hfound : (Δ.map Layer.scope).findIdx? (· = some v.rib) with
  | none =>
      obtain ⟨v', hv'⟩ := h.lexical_inside hv
      exact ⟨v', hv', fun depth hdepth => nomatch hdepth⟩
  | some depth =>
      obtain ⟨layer, rib, hmem, hrib, hne, hdepth⟩ := h.findIdx? hfound
      have hlayer := (List.of_mem_zip hmem).1
      obtain ⟨outer, hfits⟩ := h.fits_of_mem hlayer
      have hslot := slot_lt hfits hintact hx (hΔ layer hlayer) hne hv hrib.symm
      have hbinder := List.getElem?_eq_getElem hslot
      have hmember := List.getElem_mem hslot
      have hresolve : S.resolve layer.binders[v.slot] =
          some (.lexical ⟨layer.binders[v.slot].symbol?.getD "", layer.rib, v.slot⟩) := by
        rw [Spaces.resolve_of_binding_eq_none (hfits.unrecorded _ hmember)]
        exact hfits.resolves _ _ hbinder
      have hkey := Spaces.binderKey_eq_of_boundIdentifierEq
        (hintact.marks x _ v _ hx (hΔ layer hlayer _ hmember) (hwraps.trans hv) hresolve hrib.symm rfl)
      obtain ⟨v', hv', hrib', hslot'⟩ := h.resolves_captured hmem hbinder hkey hv hrib.symm
      refine ⟨v', hv', fun depth' hdepth' => ?_⟩
      cases hdepth'
      exact ⟨hrib' ▸ hdepth, hslot'⟩

/-- Under the new ribs a name leads to the same place. -/
theorem refers (h : Renews S bound Δ ρ) (hintact : Intact S e) (hx : e.Has x)
    (hΔ : ∀ layer ∈ Δ, ∀ binder ∈ layer.binders, e.Has binder) (hmeant : Meant S ρ x) :
    Refers S (Δ.map Layer.scope) (scopesOf ρ) x (x.inside ρ) := by
  refine ⟨Syntax.symbol?_inside ρ x, ?_⟩
  cases h with
  | nil =>
      by_cases hlexical : ∃ v, S.resolve x = some (.lexical v)
      · obtain ⟨v, hv⟩ := hlexical
        exact .inr ⟨v, v, hv, hv, fun depth hdepth => nomatch hdepth⟩
      · exact .inl ⟨fun v hv => hlexical ⟨v, hv⟩, rfl⟩
  | @cons Δ ρ layer rib houter hlayer hkeys hnew hnewer =>
      have h : Renews S bound (layer :: Δ) (rib :: ρ) := .cons houter hlayer hkeys hnew hnewer
      have hwraps := hmeant (List.cons_ne_nil rib ρ)
      rw [Spaces.resolve_of_binding_eq_none (Syntax.binding_inside (List.cons_ne_nil rib ρ) x), hwraps]
      by_cases hlexical : ∃ v, (S.resolveWithMarks x).1 = some (.lexical v)
      · obtain ⟨v, hv⟩ := hlexical
        obtain ⟨v', hv', hplace⟩ := h.refers_lexical hintact hx hΔ hwraps hv
        exact .inr ⟨v, v', hv, hv', hplace⟩
      · have hlexical := fun v hv => hlexical ⟨v, hv⟩
        rw [h.resolveWithMarks_inside fun v hv => absurd hv (hlexical v)]
        exact .inl ⟨hlexical, rfl⟩

end Renews

end HygienicLisp
