import HygienicLisp.Proofs.FullExpansion.Renewal

/-!
# Which identifiers a rib captures

Identifiers are compared in three places: a rib refuses two binders that are the same, it puts its
variable in the place of an identifier that is the same as a binder, and `Spaces.boundIdentifierEq`
asks for it directly.  All three compare the key under which a binding form binds an identifier.  So a
rib is made exactly of identifiers no two of which are bound-identifier-equal, and what it captures is
exactly what is bound-identifier-equal to one of its binders (`ribs_capture`).

A binding that was recorded on an identifier is not part of its key, and a rib that does not capture
the identifier drops it like any other wrap (`rib_drops_recorded_binding`).
-/

namespace HygienicLisp

variable {spaces : Spaces} {a b : Syntax} {binders : List Syntax} {rib : Rib}

/-- Bound-identifier-equal are identifiers that binding forms bind under one key. -/
theorem Spaces.boundIdentifierEq_iff :
    spaces.boundIdentifierEq a b ↔
      a.isIdentifier ∧ b.isIdentifier ∧ spaces.binderKey a = spaces.binderKey b := by
  rw [boundIdentifierEq, Syntax.isIdentifier, Syntax.isIdentifier, binderKey, binderKey]
  cases a.symbol? <;> cases b.symbol? <;> simp

/-- No two of the identifiers are bound-identifier-equal exactly if their keys are distinct. -/
theorem Spaces.pairwise_boundIdentifierEq_iff (hids : ∀ binder ∈ binders, binder.isIdentifier) :
    (binders.Pairwise fun a b => spaces.boundIdentifierEq a b = false) ↔
      (binders.map spaces.binderKey).Nodup := by
  rw [List.Nodup, List.pairwise_map]
  refine List.Pairwise.iff_of_mem fun {a b} ha hb => ?_
  rw [← Bool.not_eq_true, not_iff_not, boundIdentifierEq_iff]
  simp [hids a ha, hids b hb]

/-! ## What a rib puts in the place of an identifier -/

theorem Rib.getElem?_locals (i : Nat) :
    rib.locals[i]? = (rib.keys[i]?).map fun key => ⟨key.name, rib.id, i⟩ := by
  simp [locals, Function.comp_def]

/-- A rib whose keys are distinct substitutes the variable of the one slot with the key. -/
theorem Rib.substitute?_eq_some_iff (hkeys : rib.keys.Nodup) {key : Key} {v : LocalVar} :
    rib.substitute? key = some v ↔ ∃ i : Nat, rib.keys[i]? = some key ∧ rib.locals[i]? = some v := by
  rw [substitute?, Option.map_eq_some_iff]
  refine exists_congr fun i => ?_
  rw [getElem?_locals, List.findIdx?_eq_some_iff_getElem]
  constructor
  · rintro ⟨⟨hlt, hkey, -⟩, rfl⟩
    have hget : rib.keys[i]? = some key := by
      rw [List.getElem?_eq_getElem hlt, of_decide_eq_true hkey]
    exact ⟨hget, by rw [hget, Option.map_some]⟩
  · rintro ⟨hget, hv⟩
    obtain ⟨hlt, hkey⟩ := List.getElem?_eq_some_iff.1 hget
    rw [hget, Option.map_some, Option.some.injEq] at hv
    refine ⟨⟨hlt, by simp [hkey], fun j hj hsame => ?_⟩, hv⟩
    have hji := (List.Nodup.getElem_inj_iff hkeys).1 ((of_decide_eq_true hsame).trans hkey.symm)
    omega

/-- An identifier with a rib put on it is the variable that the rib has for its key, or else what its
other wraps make of it. -/
theorem Spaces.resolve_rename (hb : b.isIdentifier) :
    spaces.resolve (b.addWrap (.rename rib)) =
      ((rib.substitute? (spaces.binderKey b)).map .lexical).or (spaces.resolveWithMarks b).1 := by
  obtain ⟨name, hname⟩ := Option.isSome_iff_exists.1 hb
  have hold : spaces.resolveWithMarks b = spaces.resolveWraps name none b.wraps := by
    rw [resolveWithMarks, hname]
  have hnew : spaces.resolveWithMarks (b.addWrap (.rename rib)) =
      spaces.resolveWraps name none (.rename rib :: b.wraps) := by
    rw [resolveWithMarks, Syntax.symbol?_addWrap, hname, Syntax.wraps_addWrap, pushWrap_rename]
  rw [resolve_of_binding_eq_none (Syntax.binding_addWrap _ _), hnew, resolveWraps_rename_cons,
    binderKey_eq hname, hold]
  cases rib.substitute? ⟨name, (spaces.resolveWraps name none b.wraps).1.getD (.free name),
    (spaces.resolveWraps name none b.wraps).2⟩ <;> rfl

/-- The variable that a chain gives to a name belongs to a rib of the chain. -/
theorem Spaces.exists_rib_of_foldr {name : String} {skip : Option NamespaceId} {total : MarkSet}
    {wraps : List Wrap} {v : LocalVar}
    (h : (wraps.foldr (spaces.resolveStep name skip total) (none, .empty)).1 = some (.lexical v)) :
    ∃ rib : Rib, .rename rib ∈ wraps ∧ v.rib = rib.id := by
  induction wraps with
  | nil => cases h
  | cons wrap older ih =>
      -- What the older wraps find belongs to one of their ribs.
      have hother (h : (older.foldr (spaces.resolveStep name skip total) (none, .empty)).1 =
          some (.lexical v)) : ∃ rib : Rib, .rename rib ∈ wrap :: older ∧ v.rib = rib.id :=
        (ih h).imp fun _ hrib => ⟨List.mem_cons_of_mem _ hrib.1, hrib.2⟩
      rw [List.foldr_cons] at h
      cases wrap with
      | mark m => exact hother h
      | rename rib =>
          simp only [resolveStep] at h
          split at h
          · rename_i u hu
            obtain ⟨slot, -, rfl⟩ := Option.map_eq_some_iff.1 hu
            cases h
            exact ⟨rib, List.mem_cons_self, rfl⟩
          · exact hother h
      | space ns =>
          simp only [resolveStep] at h
          split at h
          · exact hother h
          · split at h
            · cases h
            · exact hother h
      | moduleRename ns =>
          simp only [resolveStep] at h
          split at h
          · exact hother h
          · obtain ⟨c, -, hc⟩ := Option.map_eq_some_iff.1 h
            cases hc

/-- The variable that an identifier is belongs to a rib on it. -/
theorem Spaces.exists_rib_of_resolveWithMarks {v : LocalVar}
    (h : (spaces.resolveWithMarks b).1 = some (.lexical v)) :
    ∃ rib : Rib, .rename rib ∈ b.wraps ∧ v.rib = rib.id := by
  rw [resolveWithMarks] at h
  cases hname : b.symbol? with
  | none => simp [hname] at h
  | some name =>
      rw [hname] at h
      exact exists_rib_of_foldr h

/-! ## Ribs of binders -/

/-- The identifier is older than the rib with the given number: all ribs on it were made before. -/
def Syntax.OlderThan (number : RibId) (stx : Syntax) : Prop :=
  ∀ rib : Rib, .rename rib ∈ stx.wraps → rib.id < number

/-- The rib has a variable for each binder and captures what is bound-identifier-equal to a binder. -/
structure Rib.Captures (spaces : Spaces) (binders : List Syntax) (rib : Rib) : Prop where
  /-- The binders have consecutive slots. -/
  slots : rib.locals.map (·.slot) = List.range binders.length
  /-- Every binder is the variable of its own slot. -/
  binder : ∀ (i : Nat) (binder : Syntax) (v : LocalVar), binders[i]? = some binder →
    rib.locals[i]? = some v → spaces.resolve (binder.addWrap (.rename rib)) = some (.lexical v)
  /-- Any other identifier is that variable exactly if it is bound-identifier-equal to the binder. -/
  captured : ∀ b : Syntax, b.isIdentifier → b.OlderThan rib.id →
    ∀ (i : Nat) (binder : Syntax) (v : LocalVar), binders[i]? = some binder →
      rib.locals[i]? = some v → (spaces.resolve (b.addWrap (.rename rib)) = some (.lexical v) ↔
        spaces.boundIdentifierEq b binder)
  /-- An identifier that is equal to no binder is what its wraps make of it, as before. -/
  others : ∀ b : Syntax, b.isIdentifier → (∀ binder ∈ binders, spaces.boundIdentifierEq b binder = false) →
    spaces.resolve (b.addWrap (.rename rib)) = (spaces.resolveWithMarks b).1 ∧
      (b.context.binding = none → spaces.resolve (b.addWrap (.rename rib)) = spaces.resolve b)

/-- An older identifier is a variable of the rib exactly if the rib substitutes it for its key. -/
theorem Spaces.resolve_rename_eq_lexical_iff (hb : b.isIdentifier) (hold : b.OlderThan rib.id)
    {v : LocalVar} (hv : v.rib = rib.id) :
    spaces.resolve (b.addWrap (.rename rib)) = some (.lexical v) ↔
      rib.substitute? (spaces.binderKey b) = some v := by
  rw [resolve_rename hb]
  cases rib.substitute? (spaces.binderKey b) with
  | some u => simp
  | none =>
      simp only [Option.map_none, Option.none_or, reduceCtorEq, iff_false]
      intro h
      obtain ⟨other, hother, hsame⟩ := exists_rib_of_resolveWithMarks h
      exact (hsame.symm.trans hv).not_lt (hold other hother)

/-- The variable in a slot is substituted for the key of the slot and no other. -/
theorem Rib.substitute?_eq_local_iff (hkeys : rib.keys.Nodup) {i : Nat} {key key' : Key}
    {v : LocalVar} (hkey : rib.keys[i]? = some key) (hv : rib.locals[i]? = some v) :
    rib.substitute? key' = some v ↔ key' = key := by
  rw [substitute?_eq_some_iff hkeys]
  constructor
  · rintro ⟨j, hkey', hv'⟩
    have hslot {k : Nat} (h : rib.locals[k]? = some v) : v.slot = k := by
      rw [getElem?_locals] at h
      obtain ⟨_, -, rfl⟩ := Option.map_eq_some_iff.1 h
      rfl
    obtain rfl : j = i := (hslot hv').symm.trans (hslot hv)
    exact Option.some.inj (hkey'.symm.trans hkey)
  · rintro rfl
    exact ⟨i, hkey, hv⟩

/-- A rib of distinct binders captures what is bound-identifier-equal to one of them. -/
theorem Rib.captures {id : RibId} (hids : ∀ binder ∈ binders, binder.isIdentifier)
    (hkeys : (binders.map spaces.binderKey).Nodup) :
    Rib.Captures spaces binders ⟨id, binders.map spaces.binderKey⟩ where
  slots := by
    rw [locals, List.map_map, List.range_eq_range', ← List.length_map spaces.binderKey]
    exact List.zipIdx_map_snd 0 _
  binder i binder v hbinder hv := by
    have hkey : (binders.map spaces.binderKey)[i]? = some (spaces.binderKey binder) := by
      rw [List.getElem?_map, hbinder, Option.map_some]
    have hsubst : (⟨id, binders.map spaces.binderKey⟩ : Rib).substitute? (spaces.binderKey binder) =
        some v := (substitute?_eq_local_iff hkeys hkey hv).2 rfl
    rw [Spaces.resolve_rename (hids binder (List.mem_of_getElem? hbinder)), hsubst]
    rfl
  captured b hb hold i binder v hbinder hv := by
    have hkey : (binders.map spaces.binderKey)[i]? = some (spaces.binderKey binder) := by
      rw [List.getElem?_map, hbinder, Option.map_some]
    -- The variables of the rib have its number.
    have hrib : v.rib = id := by
      rw [getElem?_locals] at hv
      obtain ⟨_, -, rfl⟩ := Option.map_eq_some_iff.1 hv
      rfl
    rw [Spaces.resolve_rename_eq_lexical_iff hb hold hrib, substitute?_eq_local_iff hkeys hkey hv,
      Spaces.boundIdentifierEq_iff]
    simp [hb, hids binder (List.mem_of_getElem? hbinder)]
  others b hb hnone := by
    have hsubst : (⟨id, binders.map spaces.binderKey⟩ : Rib).substitute? (spaces.binderKey b) =
        none := by
      refine Option.eq_none_iff_forall_ne_some.2 fun v hv => ?_
      obtain ⟨i, hkey, -⟩ := (substitute?_eq_some_iff hkeys).1 hv
      obtain ⟨binder, hbinder, hkey⟩ := List.mem_map.1 (List.mem_of_getElem? hkey)
      have heq : spaces.boundIdentifierEq b binder :=
        Spaces.boundIdentifierEq_iff.2 ⟨hb, hids binder hbinder, hkey.symm⟩
      rw [hnone binder hbinder] at heq
      cases heq
    have hsame : spaces.resolve (b.addWrap (.rename ⟨id, binders.map spaces.binderKey⟩)) =
        (spaces.resolveWithMarks b).1 := by
      rw [Spaces.resolve_rename hb, hsubst]
      rfl
    exact ⟨hsame, fun h => by rw [hsame, Spaces.resolve_of_binding_eq_none h]⟩

/-- A rib of one identifier captures the older identifiers that are bound-identifier-equal to it.  A
list of forms has a rib exactly if all are identifiers and no two of them are
bound-identifier-equal, and then the rib captures what is equal to one of them. -/
theorem ribs_capture (w : World) :
    (∀ a b : Syntax, a.isIdentifier → b.isIdentifier → b.OlderThan w.nextRib →
      ∃ rib v w', newRib [a] w = .ok rib w' ∧ rib.locals = [v] ∧
        (w'.spaces.resolve (b.addWrap (.rename rib)) = some (.lexical v) ↔
          w'.spaces.boundIdentifierEq a b)) ∧
    ∀ binders : List Syntax,
      ((∃ rib w', newRib binders w = .ok rib w') ↔ (∀ binder ∈ binders, binder.isIdentifier) ∧
        binders.Pairwise fun a b => w.spaces.boundIdentifierEq a b = false) ∧
      ∀ rib w', newRib binders w = .ok rib w' →
        rib.id = w.nextRib ∧ w'.spaces = w.spaces ∧ rib.Captures w'.spaces binders := by
  have hmade {binders : List Syntax} {rib : Rib} {w' : World} (h : newRib binders w = .ok rib w') :
      rib.id = w.nextRib ∧ w'.spaces = w.spaces ∧ rib.Captures w'.spaces binders := by
    obtain ⟨hids, rfl, hkeys, rfl⟩ := newRib_eq_ok.1 h
    exact ⟨rfl, rfl, Rib.captures hids hkeys⟩
  refine ⟨fun a b ha hb hold => ?_, fun binders => ⟨?_, fun rib w' => hmade⟩⟩
  · have hrun : newRib [a] w = .ok ⟨w.nextRib, [w.spaces.binderKey a]⟩
        { w with nextRib := w.nextRib + 1 } :=
      newRib_eq_ok.2 ⟨List.forall_mem_singleton.2 ha, rfl, List.nodup_singleton _, rfl⟩
    obtain ⟨-, -, hcaptures⟩ := hmade hrun
    refine ⟨_, _, _, hrun, rfl, ?_⟩
    rw [hcaptures.captured b hb hold 0 a _ rfl rfl, Spaces.boundIdentifierEq_iff,
      Spaces.boundIdentifierEq_iff]
    tauto
  · constructor
    · rintro ⟨rib, w', hrun⟩
      obtain ⟨hids, -, hkeys, -⟩ := newRib_eq_ok.1 hrun
      exact ⟨hids, (Spaces.pairwise_boundIdentifierEq_iff hids).2 hkeys⟩
    · rintro ⟨hids, hdistinct⟩
      exact ⟨_, _, newRib_eq_ok.2
        ⟨hids, rfl, (Spaces.pairwise_boundIdentifierEq_iff hids).1 hdistinct, rfl⟩⟩

/-- The identifier `t`, as a transformer has introduced it. -/
def introducedT : Syntax := (Syntax.ident "t").addWrap (.mark 1)

/-- Beside the plain `t` an introduced one is a binder of its own, and it is captured alone and in the
second slot. -/
theorem introducedT_captured :
    introducedT.isIdentifier ∧ introducedT.OlderThan ({} : World).nextRib ∧
      (∃ rib v w', newRib [introducedT] {} = .ok rib w' ∧ rib.locals = [v] ∧
        w'.spaces.resolve (introducedT.addWrap (.rename rib)) = some (.lexical v)) ∧
      ∃ rib w', newRib [.ident "t", introducedT] {} = .ok rib w' ∧
        w'.spaces.resolve ((Syntax.ident "t").addWrap (.rename rib)) =
          some (.lexical ⟨"t", rib.id, 0⟩) ∧
        w'.spaces.resolve (introducedT.addWrap (.rename rib)) =
          some (.lexical ⟨"t", rib.id, 1⟩) := by
  have hold : introducedT.OlderThan ({} : World).nextRib := by
    intro rib hrib
    cases hrib with
    | tail _ hrib => cases hrib
  obtain ⟨hone, hmany⟩ := ribs_capture {}
  obtain ⟨hmade, hcaptures⟩ := hmany [.ident "t", introducedT]
  obtain ⟨rib, v, w', hrun, hlocals, hiff⟩ := hone introducedT introducedT rfl rfl hold
  obtain ⟨ribs, w₂, hruns⟩ := hmade.2 ⟨by simp [introducedT, Syntax.isIdentifier]; rfl, by decide⟩
  refine ⟨rfl, hold, ⟨rib, v, w', hrun, hlocals, hiff.2 ?_⟩, ribs, w₂, hruns, ?_⟩
  · exact Spaces.boundIdentifierEq_iff.2 ⟨rfl, rfl, rfl⟩
  · obtain ⟨-, -, hbinder⟩ := hcaptures ribs w₂ hruns
    cases hruns
    exact ⟨hbinder.binder 0 _ _ rfl rfl, hbinder.binder 1 _ _ rfl rfl⟩

/-- A rib that does not capture an identifier drops the binding that was recorded on it. -/
theorem rib_drops_recorded_binding :
    ∃ x w₁ rib w₂,
      predefine 0 (.ident "x") { spaces := #[{ home := ⟨"/m"⟩, kind := .topLevel }] } = .ok x w₁ ∧
      newRib [.ident "y"] w₁ = .ok rib w₂ ∧ w₂.spaces.boundIdentifierEq x (.ident "y") = false ∧
      w₂.spaces.resolve x = some (.cell ⟨0, 0⟩) ∧
      w₂.spaces.resolve (x.addWrap (.rename rib)) = none := by
  have hends : endsWith (fun x w₁ => endsWith (fun rib w₂ =>
      !w₂.spaces.boundIdentifierEq x (.ident "y") && w₂.spaces.resolve x = some (.cell ⟨0, 0⟩) &&
        w₂.spaces.resolve (x.addWrap (.rename rib)) = none) (newRib [.ident "y"] w₁))
      (predefine 0 (.ident "x") { spaces := #[{ home := ⟨"/m"⟩, kind := .topLevel }] }) := by
    decide +kernel
  obtain ⟨x, w₁, hx, hends⟩ := exists_of_endsWith hends
  obtain ⟨rib, w₂, hrib, hends⟩ := exists_of_endsWith hends
  simp only [Bool.and_eq_true, Bool.not_eq_true', decide_eq_true_eq] at hends
  obtain ⟨⟨hapart, hrecorded⟩, hdropped⟩ := hends
  exact ⟨x, w₁, rib, w₂, hx, hrib, hapart, hrecorded, hdropped⟩

end HygienicLisp
