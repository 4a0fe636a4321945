import HygienicLisp.Proofs.Namespaces.Representation

/-!
# The keys under which cells are filed

A namespace files a cell under what an identifier means outside of it.  If that is a cell, it is one
that is there; and it is no cell of the namespace itself, unless the identifier carries the module
rename of the namespace, which is not passed over when the meaning outside is looked for.

Main statements: after any calls, the cells that the keys of namespaces mention are there
(`World.closed_afterCalls`), and a namespace has no cell over a cell of its own as long as no
identifier that is bound in it carries its module rename (`World.apart_afterCalls`).
-/

namespace HygienicLisp

namespace Spaces

variable {spaces : Spaces} {ns : NamespaceId} {name : String} {total : MarkSet}

/-! ## The meaning outside -/

/-- Outside of a namespace an identifier means nothing, a variable, or a cell that is there. -/
theorem outside_cases (wraps : List Wrap) :
    spaces.outside ns name total wraps = none ∨
      (∃ v, spaces.outside ns name total wraps = some (.lexical v)) ∨
      ∃ c, spaces.outside ns name total wraps = some (.cell c) ∧ (spaces.content? c).isSome := by
  induction wraps with
  | nil => exact .inl rfl
  | cons wrap older ih =>
      rw [outside] at ih ⊢
      rw [List.foldr_cons]
      rcases spaces.resolveStep_cases name (some ns) total wrap
          (older.foldr (spaces.resolveStep name (some ns) total) (none, .empty)) with
        hsame | ⟨_, v, -, -, hnew⟩ | ⟨_, _, c, -, -, hc, hnew⟩
      · rwa [hsame]
      · exact .inr (.inl ⟨v, hnew⟩)
      · exact .inr (.inr ⟨c, hnew, content?_isSome_of_cell? hc⟩)

/-- The meaning outside of a namespace is there. -/
theorem holds_outside (wraps : List Wrap) :
    spaces.Holds ((spaces.outside ns name total wraps).getD (.free name)) := by
  intro c hc
  rcases @outside_cases spaces ns name total wraps with hnone | ⟨v, hlexical⟩ | ⟨c', hcell, hthere⟩
  · rw [hnone] at hc
    cases hc
  · rw [hlexical] at hc
    cases hc
  · rw [hcell] at hc
    cases hc
    exact hthere

/-- The meaning outside of a namespace is no cell of the namespace. -/
theorem outside_ne_cell {wraps : List Wrap} (hreached : .moduleRename ns ∉ wraps) (index : Nat) :
    (spaces.outside ns name total wraps).getD (.free name) ≠ .cell ⟨ns, index⟩ := by
  have hforeign : Foreign spaces (ribsOf wraps) ns
      ((spaces.outside ns name total wraps).getD (.free name)) :=
    outside_foreign hreached fun rib => mem_ribsOf.2
  intro hcell
  rw [hcell] at hforeign
  cases hforeign with
  | bound howner => exact howner _ rfl rfl

/-! ## What is filed -/

variable {spaces' later : Spaces} {binders : List (NamespaceId × Syntax)}

/-- A later namespace is empty, or it was there before and each of its keys was, or is the key
under which the namespace files one of the identifiers. -/
def Files (binders : List (NamespaceId × Syntax)) (before after : Spaces) : Prop :=
  ∀ (ns : NamespaceId) (space' : Namespace), after[ns]? = some space' →
    space'.keys = [] ∨ ∃ space, before[ns]? = some space ∧ ∀ key ∈ space'.keys,
      key ∈ space.keys ∨ ∃ stx name, (ns, stx) ∈ binders ∧ stx.symbol? = some name ∧
        key = before.filingKey ns stx name

/-- The later namespaces have no new keys. -/
def FilesNothing (before after : Spaces) : Prop := before.Files [] after

theorem FilesNothing.keys (h : spaces.FilesNothing spaces') {space' : Namespace}
    (hspace' : spaces'[ns]? = some space') :
    space'.keys = [] ∨ ∃ space, spaces[ns]? = some space ∧ ∀ key ∈ space'.keys,
      key ∈ space.keys := by
  refine (h ns space' hspace').imp_right ?_
  rintro ⟨space, hspace, hkeys⟩
  exact ⟨space, hspace, fun key hkey => (hkeys key hkey).resolve_right (by simp)⟩

theorem FilesNothing.refl (spaces : Spaces) : spaces.FilesNothing spaces :=
  fun _ space hspace => .inr ⟨space, hspace, fun _ hkey => .inl hkey⟩

theorem FilesNothing.files (h : spaces.FilesNothing spaces') : spaces.Files binders spaces' :=
  fun _ _ hspace' => (h.keys hspace').imp_right fun ⟨space, hspace, hkeys⟩ =>
    ⟨space, hspace, fun key hkey => .inl (hkeys key hkey)⟩

theorem Files.trans (h : spaces.Files binders spaces') (h' : spaces'.FilesNothing later) :
    spaces.Files binders later := by
  intro ns space'' hspace''
  rcases h'.keys hspace'' with hempty | ⟨space', hspace', hkeys'⟩
  · exact .inl hempty
  · rcases h ns space' hspace' with hempty | ⟨space, hspace, hkeys⟩
    · rw [hempty] at hkeys'
      exact .inl (List.eq_nil_iff_forall_not_mem.2 fun key hkey => nomatch hkeys' key hkey)
    · exact .inr ⟨space, hspace, fun key hkey => hkeys key (hkeys' key hkey)⟩

theorem filesNothing_modify {f : Namespace → Namespace} (hf : ∀ space, (f space).keys = space.keys)
    (spaces : Spaces) (ns : NamespaceId) : spaces.FilesNothing (spaces.modify ns f) := by
  intro other space' hspace'
  rw [Array.getElem?_modify] at hspace'
  split at hspace'
  · obtain ⟨space, hspace, rfl⟩ := Option.map_eq_some_iff.1 hspace'
    exact .inr ⟨space, hspace, fun key hkey => .inl (hf space ▸ hkey)⟩
  · exact .inr ⟨space', hspace', fun key hkey => .inl hkey⟩

theorem filesNothing_setValue (spaces : Spaces) (ns : NamespaceId) (address : Nat) (v : Value) :
    spaces.FilesNothing (spaces.setValue ns address v) := by
  refine filesNothing_modify (fun space => ?_) spaces ns
  rfl

theorem filesNothing_push (spaces : Spaces) (home : ModuleId) (kind : NamespaceKind) :
    spaces.FilesNothing (spaces.push { home, kind }) := by
  intro ns space' hspace'
  rw [Array.getElem?_push] at hspace'
  split at hspace'
  · cases hspace'
    exact .inl rfl
  · exact .inr ⟨space', hspace', fun key hkey => .inl hkey⟩

theorem filesNothing_addImport (spaces : Spaces) (ns : NamespaceId) (d : Definition) :
    spaces.FilesNothing (spaces.addImport ns d) := by
  refine filesNothing_modify (fun space => ?_) spaces ns
  rfl

/-- The keys of one namespace that is replaced. -/
theorem files_setIfInBounds {space space' : Namespace} {stx : Syntax}
    (hspace : spaces[ns]? = some space) (hname : stx.symbol? = some name)
    (hkeys : ∀ key ∈ space'.keys, key ∈ space.keys ∨ key = spaces.filingKey ns stx name) :
    spaces.Files [(ns, stx)] (spaces.setIfInBounds ns space') := by
  intro other there hthere
  rw [getElem?_setIfInBounds_of_some hspace] at hthere
  split at hthere
  · rename_i hsame
    subst hsame
    cases hthere
    exact .inr ⟨space, hspace, fun key hkey => (hkeys key hkey).imp_right fun hnew =>
      ⟨stx, name, List.mem_singleton_self _, hname, hnew⟩⟩
  · exact .inr ⟨there, hthere, fun key hkey => .inl hkey⟩

theorem files_predefine {stx stx' : Syntax} (h : spaces.predefine ns stx = .ok (stx', spaces')) :
    spaces.Files [(ns, stx)] spaces' := by
  obtain ⟨name, space, index, space', hname, hspace, hdefined, -, rfl⟩ := predefine_eq_ok.1 h
  exact files_setIfInBounds hspace hname fun key => Namespace.mem_keys_of_predefine hdefined

theorem files_require {stx : Syntax} {provided : Provided} {shadowable : Bool}
    (h : spaces.require ns stx provided shadowable = .ok spaces') :
    spaces.Files [(ns, stx)] spaces' := by
  obtain ⟨name, space, space', hname, hspace, hrequired, rfl⟩ := require_eq_ok.1 h
  exact files_setIfInBounds hspace hname fun key => Namespace.mem_keys_of_require hrequired

end Spaces

/-- The identifiers that a call binds, and the namespaces in which it binds them. -/
def Call.binders : Call → List (NamespaceId × Syntax)
  | .operation (.predefine ns stx) => [(ns, stx)]
  | .operation (.require ns stx _ _) => [(ns, stx)]
  | .operation (.defineValue ns name _) => [(ns, (Syntax.ident name).introduce ns)]
  | _ => []

theorem files_defineValue (ns : NamespaceId) (name : String) (v : Value) (w : World) :
    w.spaces.Files [(ns, (Syntax.ident name).introduce ns)]
      ((defineValue ns name v).leaves w).spaces := by
  rw [RunM.leaves, defineValue_apply]
  cases h : w.spaces.predefine ns ((Syntax.ident name).introduce ns) with
  | error e => exact (Spaces.FilesNothing.refl w.spaces).files
  | ok result =>
      obtain ⟨stx, spaces⟩ := result
      have hfiles := Spaces.files_predefine h
      dsimp only
      cases spaces.denoted stx name with
      | defined d =>
          simp only [bindDefinition_apply]
          by_cases howner : d.owner = ns
          · simp only [if_pos howner]
            exact hfiles.trans (spaces.filesNothing_setValue ns d.address v)
          · simp only [if_neg howner]
            exact hfiles
      | _ => exact hfiles

/-- Whatever is called, only the identifiers that it binds are filed. -/
theorem Call.files (call : Call) (w : World) :
    w.spaces.Files call.binders (call.run.leaves w).spaces := by
  cases call with
  | bind ns d v =>
      rw [RunM.leaves, Call.run, bindDefinition_apply]
      by_cases howner : d.owner = ns
      · simp only [if_pos howner]
        exact (w.spaces.filesNothing_setValue ns d.address v).files
      · simp only [if_neg howner]
        exact (Spaces.FilesNothing.refl w.spaces).files
  | operation op =>
      cases op with
      | create home kind => exact (w.spaces.filesNothing_push home kind).files
      | predefine ns stx =>
          rw [RunM.leaves, Call.run, Operation.run, RunM.bind_apply, predefine_apply]
          cases h : w.spaces.predefine ns stx with
          | error e => exact (Spaces.FilesNothing.refl w.spaces).files
          | ok result => exact Spaces.files_predefine h
      | require ns stx provided shadowable =>
          rw [RunM.leaves, Call.run, Operation.run, require_apply]
          cases h : w.spaces.require ns stx provided shadowable with
          | error e => exact (Spaces.FilesNothing.refl w.spaces).files
          | ok spaces => exact Spaces.files_require h
      | defineValue ns name v => exact files_defineValue ns name v w
      | store ns address v => exact (w.spaces.filesNothing_setValue ns address v).files
      | refer ns d =>
          rw [Call.run]
          rcases leaves_refer ns d w with h | h
          · rw [h]
            exact (Spaces.FilesNothing.refl w.spaces).files
          · rw [h]
            exact (w.spaces.filesNothing_addImport ns d).files

theorem Call.growing (call : Call) : call.run.Growing := by
  cases call with
  | operation op => exact op.growing
  | bind ns d v => exact growing_bindDefinition ns d v

/-! ## After any calls -/

namespace Spaces

variable {before after : Spaces} {ns : NamespaceId} {binders : List (NamespaceId × Syntax)}

/-- No cell of the namespace is filed over a cell of the namespace. -/
def Apart (spaces : Spaces) (ns : NamespaceId) : Prop :=
  ∀ space, spaces[ns]? = some space → ∀ key ∈ space.keys, ∀ index, key.origin ≠ .cell ⟨ns, index⟩

theorem Grows.holds (h : before.Grows after) {b : Binding} (hb : before.Holds b) :
    after.Holds b := by
  rintro c rfl
  have hthere := hb c rfl
  cases hspace : before[c.owner]? with
  | none => simp [content?, hspace] at hthere
  | some space =>
      obtain ⟨space', hspace', hgrows⟩ := h c.owner space hspace
      have hlength := hgrows.keys.length_le
      simp only [Namespace.length_keys] at hlength
      simp only [content?, hspace, hspace', Namespace.content?, Option.isSome_map,
        isSome_getElem?] at hthere ⊢
      exact Nat.lt_of_lt_of_le hthere hlength

theorem Closed.files (h : before.Closed) (hfiles : before.Files binders after)
    (hgrows : before.Grows after) : after.Closed := by
  intro ns space' hspace' key hkey
  rcases hfiles ns space' hspace' with hempty | ⟨space, hspace, hkeys⟩
  · rw [hempty] at hkey
    cases hkey
  · apply hgrows.holds
    rcases hkeys key hkey with hold | ⟨stx, name, -, -, rfl⟩
    · exact h ns space hspace key hold
    · rw [filingKey_eq]
      exact holds_outside stx.wraps

theorem Apart.files (h : before.Apart ns) (hfiles : before.Files binders after)
    (hreached : ∀ stx, (ns, stx) ∈ binders → .moduleRename ns ∉ stx.wraps) : after.Apart ns := by
  intro space' hspace' key hkey
  rcases hfiles ns space' hspace' with hempty | ⟨space, hspace, hkeys⟩
  · rw [hempty] at hkey
    cases hkey
  · rcases hkeys key hkey with hold | ⟨stx, name, hmem, -, rfl⟩
    · exact h space hspace key hold
    · rw [filingKey_eq]
      exact outside_ne_cell (hreached stx hmem)

end Spaces

theorem Namespace.valid_of_keys_eq_nil {space : Namespace} (h : space.keys = [])
    (ns : NamespaceId) : space.Valid ns := by
  have hentries : space.entries = #[] := by simpa [keys] using h
  exact ⟨h ▸ List.nodup_nil, by simp [hentries], by simp [hentries], by simp [hentries]⟩

/-- After any calls, the table of every namespace is in order. -/
theorem World.valid_afterCalls {ns : NamespaceId} (calls : List Call) {space : Namespace}
    (hspace : (({} : World).afterCalls calls).spaces[ns]? = some space) : space.Valid ns := by
  induction calls using List.reverseRecOn generalizing space with
  | nil => cases hspace
  | append_singleton calls call ih =>
      rw [World.afterCalls_append] at hspace
      rcases call.files _ ns space hspace with hempty | ⟨before, hbefore, -⟩
      · exact Namespace.valid_of_keys_eq_nil hempty ns
      · obtain ⟨after, hafter, hlogged⟩ := call.logged hbefore
        cases hspace.symm.trans hafter
        exact (ih hbefore).changes hlogged.changes

/-- After any calls, the cells that the keys of namespaces mention are there. -/
theorem World.closed_afterCalls (calls : List Call) :
    (({} : World).afterCalls calls).spaces.Closed := by
  induction calls using List.reverseRecOn with
  | nil => exact fun ns space hspace => by cases hspace
  | append_singleton calls call ih =>
      rw [World.afterCalls_append]
      exact ih.files (call.files _) (call.growing _)

/-- After any calls, a namespace has no cell over a cell of its own if no identifier that is bound
in it carries its module rename. -/
theorem World.apart_afterCalls {ns : NamespaceId} (calls : List Call)
    (hreached : ∀ call ∈ calls, ∀ stx, (ns, stx) ∈ call.binders → .moduleRename ns ∉ stx.wraps) :
    (({} : World).afterCalls calls).spaces.Apart ns := by
  induction calls using List.reverseRecOn with
  | nil => exact fun space hspace => by cases hspace
  | append_singleton calls call ih =>
      rw [World.afterCalls_append]
      refine (ih fun c hc => hreached c (List.mem_append_left _ hc)).files (call.files _) ?_
      exact hreached call (List.mem_append_right _ (List.mem_singleton_self call))

end HygienicLisp
