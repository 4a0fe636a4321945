import HygienicLisp.Expansion.Basic
import HygienicLisp.Proofs.Soundness.Compile
import HygienicLisp.Proofs.Soundness.Eval

/-!
# Transformers and fresh ribs

Running a transformer is safe: it is the application of a value of the namespace to a known
form.  It may change any value, though, also one that decides which core form an identifier
denotes.  `Invoked` are the worlds that expansion can come to by running transformers, and
`KeepsForms` says that in all of them the same identifiers denote the same core forms.

A fresh rib has a variable for each of its binders, and each binder under the rib denotes its
own.
-/

namespace HygienicLisp

variable {L L' : Layout}

/-! ## Running transformers -/

/-- The worlds that expansion can come to from a world: by numbering a rib, and by running a
transformer that an identifier denotes on any form. -/
inductive Invoked (w₀ : World) : World → Prop
  | start : Invoked w₀ w₀
  | rib {w : World} (h : Invoked w₀ w) : Invoked w₀ { w with nextRib := w.nextRib + 1 }
  | transformer {w w' : World} {head form result : Syntax} {id procedureId : ObjectId}
      {p : Procedure} {fuel : Nat} (h : Invoked w₀ w)
      (hhead : headValue? w.spaces head = some (.transformer id procedureId p))
      (hrun : invoke fuel id procedureId p form w = .ok result w') : Invoked w₀ w'

/-- No transformer changes, when it is run, which core forms identifiers denote. -/
def KeepsForms (w₀ : World) : Prop :=
  ∀ w, Invoked w₀ w → ∀ head, coreForm? w.spaces head = coreForm? w₀.spaces head

/-- A world that expansion has come to, with the cells it started with. -/
def Reached (w₀ w : World) : Prop := Invoked w₀ w ∧ w.spaces.cells = w₀.spaces.cells

theorem KeepsForms.coreForm? {w₀ w : World} (h : KeepsForms w₀) (hw : Reached w₀ w) (head : Syntax) :
    HygienicLisp.coreForm? w.spaces head = HygienicLisp.coreForm? w₀.spaces head :=
  h w hw.1 head

theorem external_withContext {stx : Syntax} {e : Error} (h : e.External) :
    (e.withContext stx).External := h

theorem external_transformerError {who : String} {form : Syntax} {e : Error} :
    (transformerError who form e).External := by
  unfold transformerError
  split
  · rename_i hfault
    intro hkind
    rw [Error.kind, Error.withContext, hfault] at hkind
    cases hkind
  · rintro ⟨⟩

theorem Syntax.Known.addWrap_mark {stx : Syntax} (h : stx.Known L) (m : Mark) :
    (stx.addWrap (.mark m)).Known L :=
  Syntax.Carries.addWrap h nofun

theorem safe_invoke {cells : CellTable} {fuel : Nat}
    {id procedureId : ObjectId} {p : Procedure} {form : Syntax} (hp : p.Sound L)
    (hform : form.Known L) :
    Safe (HasCells cells) L (fun L' stx => stx.Known L') (invoke fuel id procedureId p form) := by
  refine Safe.bind (P := fun _ _ => True) (.modifyGet fun w hI hw => ?_) fun L₁ m hL₁ _ => ?_
  · exact ⟨hI, L, le_rfl, hw.congr rfl rfl rfl rfl, trivial⟩
  refine .get_bind fun w _ _ => ?_
  have hmarked := (hform.mono hL₁).addWrap_mark m
  refine (safe_stampSyntax ofSpaces_hasCells hmarked).bind fun L₂ input hL₂ hinput => ?_
  have hprocedure : (Value.procedure procedureId p).Sound L₂ :=
    .procedure ((hp.mono hL₁).mono hL₂)
  have hargs : ∀ v ∈ [Value.stx input], v.Sound L₂ :=
    List.forall_mem_cons.2 ⟨.stx hinput, by simp⟩
  refine (Safe.mapError (fun _ _ => external_transformerError)
    (safe_applyProcedure hprocedure hargs)).bind fun L₃ v _ hv => ?_
  cases v with
  | stx s => exact .pure (hv.known.addWrap_mark m)
  | _ => exact .failAt

theorem World.Sound.headValue? {w : World} (h : w.Sound L) {head : Syntax} {v : Value}
    (hv : headValue? w.spaces head = some v) : v.Sound L := by
  obtain ⟨ns, address, hvalue⟩ := exists_value?_of_headValue? hv
  rw [Spaces.value?] at hvalue
  split at hvalue
  · next space hspace => exact h.values ns space hspace address v hvalue
  · cases hvalue

/-- Running a transformer that an identifier denotes leads to a world of expansion. -/
theorem safeAt_invoke {w₀ w : World} (hI : Reached w₀ w) (hw : w.Sound L) {head : Syntax}
    {id procedureId : ObjectId} {p : Procedure}
    (hhead : headValue? w.spaces head = some (.transformer id procedureId p)) {fuel : Nat}
    {form : Syntax} (hform : form.Known L) :
    SafeAt (Reached w₀) L (fun L' stx => stx.Known L') (invoke fuel id procedureId p form) w := by
  have hp : p.Sound L := by
    cases hw.headValue? hhead with
    | transformer hp => exact hp
  have hsafe : Safe (HasCells w.spaces.cells) L (fun L' stx => stx.Known L')
      (invoke fuel id procedureId p form) := safe_invoke hp hform
  have hrun := hsafe w rfl hw
  rw [SafeAt] at hrun ⊢
  cases hresult : invoke fuel id procedureId p form w with
  | error halt w' =>
      simp only [hresult] at hrun ⊢
      exact hrun
  | ok result w' =>
      simp only [hresult] at hrun ⊢
      obtain ⟨hcells, hL⟩ := hrun
      exact ⟨⟨.transformer hI.1 hhead hresult, hcells.trans hI.2⟩, hL⟩

/-! ## Fresh ribs -/

/-- The layout with one more rib. -/
def Layout.addRib (L : Layout) (rib : Rib) : Layout :=
  { L with ribs := Function.update L.ribs rib.id (some rib.keys.length) }

theorem World.Sound.le_addRib {w : World} (h : w.Sound L) {rib : Rib} (hid : rib.id = w.nextRib) :
    L ≤ L.addRib rib where
  frames i frame h := h
  imports ns count h := ⟨count, h, le_rfl⟩
  ribs r size hr := by
    have hlt := h.ribs r size hr
    have hne : r ≠ rib.id := by
      rw [hid]
      exact Nat.ne_of_lt hlt
    exact (Function.update_of_ne hne _ _).trans hr

theorem World.Sound.addRib {w : World} (h : w.Sound L) {rib : Rib} (hid : rib.id = w.nextRib) :
    ({ w with nextRib := w.nextRib + 1 } : World).Sound (L.addRib rib) := by
  have hL := h.le_addRib hid
  exact
    { frames := h.frames
      imports := h.imports
      slots := fun i f hf slot v hv => (h.slots i f hf slot v hv).mono hL
      values := fun ns space hspace i v hv => (h.values ns space hspace i v hv).mono hL
      owners := h.owners
      targets := h.targets
      dynamic := fun p hp => (h.dynamic p hp).mono hL
      ribs := fun r size hr => by
        rcases eq_or_ne r rib.id with rfl | hne
        · exact hid ▸ Nat.lt_succ_self _
        · have hold : L.ribs r = some size := (Function.update_of_ne hne _ _).symm.trans hr
          exact Nat.lt_succ_of_lt (h.ribs r size hold) }

theorem Rib.length_extend {spaces : Spaces} {binders : List Syntax} {keys keys' : List Key}
    (h : Rib.extend spaces keys binders = .ok keys') :
    keys'.length = keys.length + binders.length := by
  induction binders generalizing keys with
  | nil =>
      obtain rfl : keys = keys' := by simpa [Rib.extend] using h
      simp
  | cons binder rest ih =>
      rw [Rib.extend] at h
      split at h
      · cases h
      · dsimp only at h
        split at h
        · cases h
        · rw [ih h]
          simp
          omega

theorem Rib.mem_extend {spaces : Spaces} {binders : List Syntax} {keys keys' : List Key}
    (h : Rib.extend spaces keys binders = .ok keys') :
    (∀ key ∈ keys, key ∈ keys') ∧ ∀ binder ∈ binders, ∃ name, binder.symbol? = some name ∧
      spaces.bindingKey binder name ∈ keys' := by
  induction binders generalizing keys with
  | nil =>
      obtain rfl : keys = keys' := by simpa [Rib.extend] using h
      simp
  | cons binder rest ih =>
      rw [Rib.extend] at h
      split at h
      · cases h
      · rename_i name hname
        dsimp only at h
        split at h
        · cases h
        · obtain ⟨hkeys, hrest⟩ := ih h
          refine ⟨fun key hkey => hkeys key (List.mem_append_left _ hkey), ?_⟩
          refine List.forall_mem_cons.2 ⟨⟨name, hname, hkeys _ (by simp)⟩, hrest⟩

/-- The rib of binders has a variable for each of them, and under the rib each denotes one. -/
theorem Rib.ofBinders_eq_ok {spaces : Spaces} {id : RibId} {binders : List Syntax} {rib : Rib}
    (h : Rib.ofBinders spaces id binders = .ok rib) :
    rib.id = id ∧ rib.keys.length = binders.length ∧ ∀ binder ∈ binders,
      ∃ v, spaces.resolve (binder.addWrap (.rename rib)) = some (.lexical v) ∧ v.rib = rib.id := by
  rw [Rib.ofBinders] at h
  cases hkeys : Rib.extend spaces [] binders with
  | error e => simp [hkeys, Except.map] at h
  | ok keys =>
      obtain rfl : (⟨id, keys⟩ : Rib) = rib := by simpa [hkeys, Except.map] using h
      refine ⟨rfl, by simpa using Rib.length_extend hkeys, fun binder hbinder => ?_⟩
      obtain ⟨name, hname, hkey⟩ := (Rib.mem_extend hkeys).2 binder hbinder
      have hfound : (keys.findIdx? (· = spaces.bindingKey binder name)).isSome := by
        rw [List.findIdx?_isSome, List.any_eq_true]
        exact ⟨_, hkey, by simp⟩
      obtain ⟨slot, hslot⟩ := Option.isSome_iff_exists.1 hfound
      refine ⟨⟨name, id, slot⟩, ?_, rfl⟩
      rw [Spaces.resolve_of_binding_eq_none (Syntax.binding_addWrap _ _), Spaces.resolveWithMarks,
        Syntax.symbol?_addWrap, hname]
      simp only [Syntax.wraps_addWrap, pushWrap_rename, Spaces.resolveWraps_rename_cons]
      simp only [Spaces.bindingKey, Spaces.resolveWithMarks, hname] at hslot
      rw [Rib.substitute?, hslot]
      rfl

/-- The rib of the binders of a form: it has been made, it has a variable for each binder, and
under it each binder denotes one. -/
structure Rib.Binds (spaces : Spaces) (L : Layout) (binders : List Syntax) (rib : Rib) : Prop where
  made : L.ribs rib.id = some rib.keys.length
  length : rib.keys.length = binders.length
  lexical : ∀ binder ∈ binders,
    ∃ v, spaces.resolve (binder.addWrap (.rename rib)) = some (.lexical v) ∧ v.rib = rib.id

theorem Rib.Binds.mono {spaces : Spaces} (hL : L ≤ L') {binders : List Syntax} {rib : Rib}
    (h : rib.Binds spaces L binders) : rib.Binds spaces L' binders :=
  { h with made := hL.ribs _ _ h.made }

theorem Rib.external_of_extend {spaces : Spaces} {binders : List Syntax} {keys : List Key} {e : Error}
    (h : Rib.extend spaces keys binders = .error e) : e.External := by
  induction binders generalizing keys with
  | nil => simp [Rib.extend] at h
  | cons binder rest ih =>
      rw [Rib.extend] at h
      split at h
      · cases h
        exact fun hkind => nomatch hkind
      · dsimp only at h
        split at h
        · cases h
          exact fun hkind => nomatch hkind
        · exact ih h

theorem Rib.external_of_ofBinders {spaces : Spaces} {id : RibId} {binders : List Syntax} {e : Error}
    (h : Rib.ofBinders spaces id binders = .error e) : e.External := by
  rw [Rib.ofBinders] at h
  cases hkeys : Rib.extend spaces [] binders with
  | error e' =>
      obtain rfl : e' = e := by simpa [hkeys, Except.map] using h
      exact Rib.external_of_extend hkeys
  | ok keys => simp [hkeys, Except.map] at h

theorem safe_newRib {w₀ : World} {binders : List Syntax} :
    Safe (Reached w₀) L (fun L' rib => rib.Binds w₀.spaces L' binders) (newRib binders) := by
  intro w hI hw
  have hrun : newRib binders w = RunM.ofExcept (Rib.ofBinders w.spaces w.nextRib binders)
      { w with nextRib := w.nextRib + 1 } := rfl
  rw [SafeAt, hrun]
  cases hrib : Rib.ofBinders w.spaces w.nextRib binders with
  | error e =>
      refine ⟨⟨L, le_rfl, ?_⟩, fun e' he => ?_⟩
      · exact { hw with ribs := fun r size hr => Nat.lt_succ_of_lt (hw.ribs r size hr) }
      · cases he
        exact Rib.external_of_ofBinders hrib
  | ok rib =>
      obtain ⟨hid, hlength, hlexical⟩ := Rib.ofBinders_eq_ok hrib
      refine ⟨⟨.rib hI.1, hI.2⟩, L.addRib rib, hw.le_addRib hid, hw.addRib hid, ?_, hlength, ?_⟩
      · exact Function.update_self _ _ _
      · intro binder hbinder
        rw [← Spaces.resolve_congr hI.2]
        exact hlexical binder hbinder

end HygienicLisp
