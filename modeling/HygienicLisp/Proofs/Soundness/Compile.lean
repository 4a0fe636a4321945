import HygienicLisp.Proofs.Soundness.Fitting
import HygienicLisp.Proofs.Soundness.Stores

/-!
# Compiled code is scoped

The scopes that compilation keeps are in step with the frames that evaluation will make: where a
scope belongs to a rib, the frame has as many slots as the rib has variables (`Aligned`).  So the
depth that is found for a variable leads to a frame that has its slot, and the short name that is
taken for an import is one of the table.

Main statement: the code of a form whose binders fit is scoped (`safe_compile`).
-/

namespace HygienicLisp

variable {L L' : Layout}

/-! ## What compilation reads -/

/-- The world has the cells and the core forms of the given namespaces. -/
def Reads (spaces : Spaces) (w : World) : Prop :=
  w.spaces.cells = spaces.cells ∧ ∀ head, coreForm? w.spaces head = coreForm? spaces head

theorem ofSpaces_reads (spaces : Spaces) : OfSpaces (Reads spaces) := by
  intro w w' hspaces hw
  rw [Reads, hspaces]
  exact hw

/-! ## Imports -/

/-- The layout with one more import of a namespace. -/
def Layout.addImport (L : Layout) (ns : NamespaceId) : Layout :=
  { L with imports := L.imports.modify ns (· + 1) }

theorem Layout.le_addImport (L : Layout) (ns : NamespaceId) : L ≤ L.addImport ns where
  frames i frame h := h
  imports other count h := by
    simp only [addImport, List.getElem?_modify, h]
    split
    · exact ⟨count + 1, rfl, Nat.le_succ count⟩
    · exact ⟨count, rfl, le_rfl⟩
  ribs rib size h := h

theorem World.Sound.addImport {w : World} (h : w.Sound L) (ns : NamespaceId) {target : Definition}
    (htarget : L.HasSpace target.owner) :
    ({ w with spaces := w.spaces.addImport ns target } : World).Sound
      (L.addImport ns) := by
  have hL := L.le_addImport ns
  have hold {other : NamespaceId} {space : Namespace}
      (hspace : (w.spaces.addImport ns target)[other]? = some space) :
      ∃ old, w.spaces[other]? = some old ∧ (space = old ∨ space = old.addImport target) := by
    rw [Spaces.addImport, Array.getElem?_modify] at hspace
    split at hspace
    · obtain ⟨old, hold, rfl⟩ := Option.map_eq_some_iff.1 hspace
      exact ⟨old, hold, .inr rfl⟩
    · exact ⟨space, hspace, .inl rfl⟩
  refine
    { frames := h.frames
      imports := fun other => ?_
      slots := fun i f hf slot v hv => (h.slots i f hf slot v hv).mono hL
      values := fun other space hspace i v hv => ?_
      owners := fun other space hspace i entry hentry => ?_
      targets := fun other space hspace i entry hentry => ?_
      dynamic := fun p hp => (h.dynamic p hp).mono hL
      ribs := h.ribs }
  · simp only [Layout.addImport, Spaces.addImport, List.getElem?_modify, h.imports other,
      Array.getElem?_modify]
    split
    · cases w.spaces[other]? <;> simp [Namespace.addImport]
    · cases w.spaces[other]? <;> simp
  · obtain ⟨old, hwas, rfl | rfl⟩ := hold hspace
    · exact (h.values other space hwas i v hv).mono hL
    · exact (h.values other old hwas i v hv).mono hL
  · obtain ⟨old, hwas, rfl | rfl⟩ := hold hspace
    · exact (h.owners other space hwas i entry hentry).mono hL
    · rw [Namespace.addImport, Array.getElem?_push] at hentry
      split at hentry
      · obtain rfl := Option.some.inj hentry
        exact htarget.mono hL
      · exact (h.owners other old hwas i entry hentry).mono hL
  · obtain ⟨old, hwas, rfl | rfl⟩ := hold hspace
    · exact (h.targets other space hwas i entry hentry).mono hL
    · exact (h.targets other old hwas i entry hentry).mono hL

/-- The short name that is taken for an import is one of the table afterwards. -/
theorem safe_importId {spaces : Spaces} {ns : NamespaceId} (hns : L.HasSpace ns)
    {target : Definition} (htarget : L.HasSpace target.owner) :
    Safe (Reads spaces) L (fun L' id => L'.HasImport ns id) (importId ns target) := by
  intro w hI hw
  obtain ⟨space, hspace⟩ := hw.exists_space hns
  have hcount : L.imports[ns]? = some space.imports.size := by rw [hw.imports, hspace]; rfl
  rw [SafeAt, importId_apply]
  cases h : w.spaces.importId ns target with
  | error e =>
      obtain ⟨hnone, -⟩ | ⟨-, -, -, -, rfl⟩ := Spaces.importId_eq_error.1 h
      · cases hnone.symm.trans hspace
      refine ⟨⟨L, le_rfl, hw⟩, fun e' he => ?_⟩
      cases he
      simp [Error.External, Error.kind, Error.of, Fault.kind]
  | ok result =>
      obtain ⟨id, spaces'⟩ := result
      obtain ⟨space', hspace', hresult⟩ := Spaces.importId_eq_ok.1 h
      obtain rfl := Option.some.inj (hspace.symm.trans hspace')
      obtain ⟨hid, rfl⟩ | ⟨-, -, rfl, rfl⟩ := hresult
      · refine ⟨hI, L, le_rfl, hw, _, hcount, ?_⟩
        exact (Array.findIdx?_eq_some_iff_getElem.1 hid).1
      · refine ⟨⟨?_, fun head => ?_⟩, L.addImport ns, L.le_addImport ns, hw.addImport ns htarget,
          space.imports.size + 1, ?_, Nat.lt_succ_self _⟩
        · rw [Spaces.cells_addImport]
          exact hI.1
        · rw [← hI.2 head]
          exact coreForm?_congr (w.spaces.cells_addImport ns target)
            (w.spaces.value?_addImport ns target) head
        · simp [Layout.addImport, hcount]

/-! ## References -/

namespace Compile

/-- Where a scope belongs to a rib, the frame has as many slots as the rib has variables. -/
def Aligned (L : Layout) (scopes : Scopes) (sizes : List Nat) : Prop :=
  List.Forall₂ (fun scope size => ∀ rib, scope = some rib → L.ribs rib = some size) scopes sizes

theorem Aligned.mono (hL : L ≤ L') {scopes : Scopes} {sizes : List Nat} (h : Aligned L scopes sizes) :
    Aligned L' scopes sizes :=
  List.Forall₂.imp (fun _ _ hscope rib hrib => hL.ribs _ _ (hscope rib hrib)) h

/-- The depth that is found for a variable leads to a frame with its slot. -/
theorem Aligned.inFrame {scopes : Scopes} {sizes : List Nat} (h : Aligned L scopes sizes)
    {v : LocalVar} (hv : L.HasLocal v) {depth : Nat}
    (hdepth : scopes.findIdx? (· = some v.rib) = some depth) :
    Layout.InFrame sizes depth v.slot := by
  obtain ⟨size, hsize, hslot⟩ := hv
  induction h generalizing depth with
  | nil => simp at hdepth
  | @cons scope size' scopes sizes hscope _ ih =>
      rw [List.findIdx?_cons] at hdepth
      split at hdepth
      · rename_i hrib
        obtain rfl : 0 = depth := by simpa using hdepth
        refine ⟨size', rfl, ?_⟩
        have hsame := hscope v.rib (by simpa using hrib)
        rw [hsize] at hsame
        obtain rfl := Option.some.inj hsame
        exact hslot
      · obtain ⟨depth', hdepth', rfl⟩ := Option.map_eq_some_iff.1 hdepth
        exact ih hdepth'

theorem external_atForm {fault : Fault} {stx : Syntax} (h : fault.kind ≠ .internal) :
    (Error.atForm fault stx).External := h

theorem safe_depthOf {I : World → Prop} {scopes : Scopes} {sizes : List Nat}
    (hscopes : Aligned L scopes sizes) {v : LocalVar} (hv : L.HasLocal v) {stx : Syntax} :
    Safe I L (fun _ depth => Layout.InFrame sizes depth v.slot) (depthOf scopes v.rib stx) := by
  rw [depthOf]
  split
  · rename_i depth hdepth
    exact .pure (hscopes.inFrame hv hdepth)
  · exact .failAt

theorem safe_operand {I : World → Prop} {form : Syntax} {parts : List Syntax} {position : Nat} :
    Safe I L (fun _ stx => parts[position]? = some stx) (operand form parts position) := by
  rw [operand]
  split
  · rename_i stx hstx
    exact .pure hstx
  · exact .failAt

theorem denoted_eq_lexical {spaces : Spaces} {stx : Syntax} {name : String} {v : LocalVar}
    (h : spaces.denoted stx name = .lexical v) : spaces.resolve stx = some (.lexical v) := by
  rw [Spaces.denoted] at h
  cases hb : spaces.resolve stx with
  | none => simp [hb, Spaces.denote] at h
  | some b =>
      cases b with
      | free x => simp [hb, Spaces.denote] at h
      | lexical v' => simpa [hb, Spaces.denote] using h
      | cell c =>
          simp only [hb, Option.getD_some, Spaces.denote] at h
          split at h <;> cases h

variable {ns : NamespaceId} {spaces : Spaces}

theorem safe_definitionRef (hns : L.HasSpace ns) {d : Definition} (hd : L.HasSpace d.owner)
    {name : String} {sizes : List Nat} :
    Safe (Reads spaces) L (fun L' code => code.Scoped L' ns sizes) (definitionRef ns d name) := by
  rw [definitionRef]
  split
  · exact .pure .topRef
  · exact (safe_importId hns hd).bind fun _ _ _ hid => .pure (.importRef hid)

theorem safe_reference (hns : L.HasSpace ns) {scopes : Scopes} {sizes : List Nat}
    (hscopes : Aligned L scopes sizes) {stx : Syntax} (hstx : stx.Known L) {name : String} :
    Safe (Reads spaces) L (fun L' code => code.Scoped L' ns sizes)
      (reference ns scopes stx name) := by
  refine .getSpaces_bind fun w hI hw => ?_
  cases hdenoted : w.spaces.denoted stx name with
  | free x =>
      dsimp only
      split
      · split
        · exact .pure .freeRef
        · exact .fail (external_atForm nofun)
      · exact .fail (external_atForm nofun)
  | lexical v =>
      have hv := hstx.hasLocal (denoted_eq_lexical hdenoted)
      exact (safe_depthOf hscopes hv).bind fun _ _ _ hslot => .pure (.localRef hslot)
  | defined d =>
      refine safe_definitionRef hns (hw.hasSpace_target (b := (w.spaces.resolve stx).getD (.free name)) ?_)
      rw [Spaces.denoted] at hdenoted
      rw [hdenoted]
      rfl
  | required i =>
      refine safe_definitionRef hns (hw.hasSpace_target (b := (w.spaces.resolve stx).getD (.free name)) ?_)
      rw [Spaces.denoted] at hdenoted
      rw [hdenoted]
      rfl

theorem safe_definedAddress {I : World → Prop} {stx : Syntax} :
    Safe I L (fun _ _ => True) (definedAddress ns stx) := by
  refine .getSpaces_bind fun w _ _ => ?_
  split
  · split
    · exact .pure trivial
    · exact .failAt
  · exact .failAt

/-! ## Scopes -/

/-- The scopes inside a frame for binders that fit it are in step with the frames. -/
theorem safe_enterScope {scopes : Scopes} {sizes : List Nat} (hscopes : Aligned L scopes sizes)
    {binders : List Syntax} (hknown : ∀ binder ∈ binders, binder.Known L)
    (hfit : BindersFit spaces binders) :
    Safe (Reads spaces) L (fun L' inner => Aligned L' inner (binders.length :: sizes))
      (enterScope scopes binders) := by
  cases binders with
  | nil => exact .pure (.cons nofun hscopes)
  | cons first rest =>
      refine .getSpaces_bind fun w hI _ => ?_
      split
      · rename_i v hv
        rw [Spaces.resolve_congr hI.1] at hv
        obtain ⟨rib, hmem, hid, hlength⟩ := hfit first rfl v hv
        refine .pure (.cons (fun r hr => ?_) hscopes)
        obtain rfl := Option.some.inj hr
        rw [← hid, ← hlength]
        exact Syntax.Carries.wraps (hknown first List.mem_cons_self) _ hmem rib rfl
      · exact .failAt

theorem safe_clauses {I : World → Prop} {fault : SyntaxFault} {items : List Syntax} :
    Safe I L (fun _ pairs =>
        pairs.map (·.1) = items.filterMap (fun clause => clause.subforms[0]?) ∧
        pairs.map (·.2) = items.filterMap (fun clause => clause.subforms[1]?))
      (clauses fault items) := by
  induction items with
  | nil => exact .pure ⟨rfl, rfl⟩
  | cons clause rest ih =>
      rw [clauses]
      split
      · rename_i first second hparts
        refine ih.bind fun _ pairs _ hpairs => .pure ?_
        simp [hparts, hpairs.1, hpairs.2]
      · exact .failAt

/-! ## Forms -/

section

variable {compile : Scopes → Syntax → RunM Code}

/-- Compilation of a known form whose binders fit, in scopes that are in step with the frames,
gives code that is scoped for the frames. -/
def CompileSafe (spaces : Spaces) (ns : NamespaceId) (compile : Scopes → Syntax → RunM Code) :
    Prop :=
  ∀ {L : Layout} {scopes : Scopes} {sizes : List Nat} {stx : Syntax}, L.HasSpace ns →
    Aligned L scopes sizes → stx.Known L → Fitting spaces stx →
    Safe (Reads spaces) L (fun L' code => code.Scoped L' ns sizes) (compile scopes stx)

/-- A form that compilation can be asked to compile. -/
def Ready (spaces : Spaces) (L : Layout) (stx : Syntax) : Prop := stx.Known L ∧ Fitting spaces stx

theorem Ready.mono (hL : L ≤ L') {stx : Syntax} (h : Ready spaces L stx) : Ready spaces L' stx :=
  ⟨h.1.mono hL, h.2⟩

theorem safe_all (hcompile : CompileSafe spaces ns compile) (hns : L.HasSpace ns) {scopes : Scopes}
    {sizes : List Nat} (hscopes : Aligned L scopes sizes) {forms : List Syntax}
    (hforms : ∀ stx ∈ forms, Ready spaces L stx) :
    Safe (Reads spaces) L
      (fun L' codes => codes.length = forms.length ∧ ∀ code ∈ codes, code.Scoped L' ns sizes)
      (all compile scopes forms) := by
  induction forms generalizing L with
  | nil => exact .pure ⟨rfl, by simp⟩
  | cons stx rest ih =>
      obtain ⟨hstx, hrest⟩ := List.forall_mem_cons.1 hforms
      refine (hcompile hns hscopes hstx.1 hstx.2).bind fun L₁ code hL₁ hcode => ?_
      refine (ih (hns.mono hL₁) (hscopes.mono hL₁) fun stx h => (hrest stx h).mono hL₁).bind
        fun L₂ codes hL₂ hcodes => .pure ⟨?_, ?_⟩
      · simp [hcodes.1]
      · exact List.forall_mem_cons.2 ⟨hcode.mono hL₂, hcodes.2⟩

theorem safe_fields (hcompile : CompileSafe spaces ns compile) (hns : L.HasSpace ns)
    {scopes : Scopes} {sizes : List Nat} (hscopes : Aligned L scopes sizes)
    {items : List (String × Syntax)} (hitems : ∀ field ∈ items, Ready spaces L field.2) :
    Safe (Reads spaces) L (fun L' codes => ∀ field ∈ codes, field.2.Scoped L' ns sizes)
      (fields compile scopes items) := by
  induction items generalizing L with
  | nil => exact .pure (by simp)
  | cons field rest ih =>
      obtain ⟨hstx, hrest⟩ := List.forall_mem_cons.1 hitems
      refine (hcompile hns hscopes hstx.1 hstx.2).bind fun L₁ code hL₁ hcode => ?_
      refine (ih (hns.mono hL₁) (hscopes.mono hL₁) fun field h => (hrest field h).mono hL₁).bind
        fun L₂ codes hL₂ hcodes => .pure ?_
      exact List.forall_mem_cons.2 ⟨hcode.mono hL₂, hcodes⟩

theorem safe_pairs (hcompile : CompileSafe spaces ns compile) (hns : L.HasSpace ns)
    {scopes : Scopes} {sizes : List Nat} (hscopes : Aligned L scopes sizes) {items : List Syntax}
    (hfirst : ∀ stx ∈ items.filterMap (fun clause => clause.subforms[0]?), Ready spaces L stx)
    (hsecond : ∀ stx ∈ items.filterMap (fun clause => clause.subforms[1]?), Ready spaces L stx) :
    Safe (Reads spaces) L
      (fun L' codes => (∀ binding ∈ codes, binding.1.Scoped L' ns sizes) ∧
        ∀ binding ∈ codes, binding.2.Scoped L' ns sizes)
      (pairs compile scopes items) := by
  induction items generalizing L with
  | nil => exact .pure (by simp)
  | cons clause rest ih =>
      rw [pairs]
      split
      · rename_i parameter value hparts
        simp only [List.filterMap_cons, hparts, List.getElem?_cons_zero, List.getElem?_cons_succ,
          List.forall_mem_cons] at hfirst hsecond
        refine (hcompile hns hscopes hfirst.1.1 hfirst.1.2).bind fun L₁ p hL₁ hp => ?_
        have hvalue := hsecond.1.mono hL₁
        refine (hcompile (hns.mono hL₁) (hscopes.mono hL₁) hvalue.1 hvalue.2).bind
          fun L₂ v hL₂ hv => ?_
        have hL := hL₁.trans hL₂
        refine (ih (hns.mono hL) (hscopes.mono hL) (fun stx h => (hfirst.2 stx h).mono hL)
          fun stx h => (hsecond.2 stx h).mono hL).bind fun L₃ codes hL₃ hcodes => .pure ⟨?_, ?_⟩
        · exact List.forall_mem_cons.2 ⟨(hp.mono hL₂).mono hL₃, hcodes.1⟩
        · exact List.forall_mem_cons.2 ⟨hv.mono hL₃, hcodes.2⟩
      · exact .failAt

theorem safe_body (hcompile : CompileSafe spaces ns compile) (hns : L.HasSpace ns)
    {scopes : Scopes} {sizes : List Nat} (hscopes : Aligned L scopes sizes) {forms : List Syntax}
    (hforms : ∀ stx ∈ forms, Ready spaces L stx) :
    Safe (Reads spaces) L (fun L' code => code.Scoped L' ns sizes) (body compile scopes forms) := by
  unfold body
  split
  · exact .pure .void
  · rename_i stx
    have hstx := hforms stx List.mem_cons_self
    exact hcompile hns hscopes hstx.1 hstx.2
  · exact (safe_all hcompile hns hscopes hforms).bind fun _ _ _ hcodes => .pure (.sequence hcodes.2)

theorem safe_lambda (hcompile : CompileSafe spaces ns compile) (hns : L.HasSpace ns)
    {scopes : Scopes} {sizes : List Nat} (hscopes : Aligned L scopes sizes) {form : Syntax}
    {parts : List Syntax} (hparts : ∀ part ∈ parts, part.Known L)
    (hfit : BindersFit spaces (binders .lambda parts))
    (hforms : ∀ stx ∈ compiledParts .lambda parts, Fitting spaces stx) {name : Option String} :
    Safe (Reads spaces) L (fun L' code => code.Scoped L' ns sizes)
      (lambda compile scopes form parts name) := by
  refine safe_operand.bind fun L₁ formals hL₁ hformals => ?_
  have hknown := hparts formals (List.mem_of_getElem? hformals)
  simp only [binders, hformals] at hfit
  have hbinders : ∀ binder ∈ (if formals.isIdentifier then [formals] else formals.subforms),
      binder.Known L₁ := by
    intro binder hbinder
    refine Syntax.Known.mono hL₁ ?_
    split at hbinder
    · obtain rfl := List.mem_singleton.1 hbinder
      exact hknown
    · exact hknown.subforms binder hbinder
  refine (safe_enterScope (hscopes.mono hL₁) hbinders hfit).bind fun L₂ inner hL₂ hinner => ?_
  have hL := hL₁.trans hL₂
  refine (safe_body hcompile (hns.mono hL) hinner fun stx hstx => ⟨?_, hforms stx hstx⟩).bind
    fun L₃ code hL₃ hcode => .pure (.lambda ?_)
  · exact (hparts stx (List.mem_of_mem_drop hstx)).mono hL
  · -- A single identifier takes the list of all arguments.
    by_cases hrest : formals.isIdentifier <;> simpa [hrest] using hcode

theorem known_clauseParts {parts : List Syntax} (hparts : ∀ part ∈ parts, part.Known L)
    {position : Nat} : ∀ stx ∈ clauseParts parts position, stx.Known L := by
  intro stx hstx
  rw [clauseParts] at hstx
  split at hstx
  · rename_i clauses hclauses
    obtain ⟨clause, hclause, hat⟩ := List.mem_filterMap.1 hstx
    have hknown := hparts clauses (List.mem_of_getElem? hclauses)
    exact (hknown.subforms clause hclause).subforms stx (List.mem_of_getElem? hat)
  · simp at hstx

theorem safe_binding (hcompile : CompileSafe spaces ns compile) (hns : L.HasSpace ns)
    {scopes : Scopes} {sizes : List Nat} (hscopes : Aligned L scopes sizes) {form : Syntax}
    {parts : List Syntax} (hparts : ∀ part ∈ parts, part.Known L)
    (hfit : BindersFit spaces (clauseParts parts 0))
    (hforms : ∀ stx ∈ clauseParts parts 1 ++ parts.drop 2, Fitting spaces stx)
    {recursive : Bool} :
    Safe (Reads spaces) L (fun L' code => code.Scoped L' ns sizes)
      (binding compile scopes form parts recursive) := by
  refine safe_operand.bind fun L₁ clauses hL₁ hclauses => ?_
  refine safe_clauses.bind fun L₂ pairs hL₂ hpairs => ?_
  have hL := hL₁.trans hL₂
  -- The binders and the expressions of the clauses are those of the form.
  have hids : pairs.map (·.1) = clauseParts parts 0 := by rw [hpairs.1, clauseParts, hclauses]
  have hvalues : pairs.map (·.2) = clauseParts parts 1 := by rw [hpairs.2, clauseParts, hclauses]
  have hsame : (pairs.map (·.1)).length = (pairs.map (·.2)).length := by simp
  rw [List.forall_mem_append] at hforms
  have hbinders : ∀ binder ∈ pairs.map (·.1), binder.Known L₂ := by
    rw [hids]
    exact fun stx hstx => (known_clauseParts hparts stx hstx).mono hL
  have hinits : ∀ stx ∈ pairs.map (·.2), Ready spaces L₂ stx := by
    rw [hvalues]
    exact fun stx hstx => ⟨(known_clauseParts hparts stx hstx).mono hL, hforms.1 stx hstx⟩
  have hbody : ∀ stx ∈ parts.drop 2, Ready spaces L₂ stx := fun stx hstx =>
    ⟨(hparts stx (List.mem_of_mem_drop hstx)).mono hL, hforms.2 stx hstx⟩
  rw [← hids] at hfit
  cases recursive with
  | true =>
      refine (safe_enterScope (hscopes.mono hL) hbinders hfit).bind fun L₃ inner hL₃ hinner => ?_
      have hns₃ := (hns.mono hL).mono hL₃
      refine (safe_all hcompile hns₃ hinner fun stx h => (hinits stx h).mono hL₃).bind
        fun L₄ inits hL₄ hinits => ?_
      refine (safe_body hcompile (hns₃.mono hL₄) (hinner.mono hL₄)
        fun stx h => ((hbody stx h).mono hL₃).mono hL₄).bind fun L₅ code hL₅ hcode => .pure ?_
      rw [hsame, ← hinits.1] at hcode hinits
      exact .letrec (fun code h => (hinits.2 code h).mono hL₅) hcode
  | false =>
      refine (safe_all hcompile (hns.mono hL) (hscopes.mono hL) hinits).bind
        fun L₃ inits hL₃ hinits => ?_
      refine (safe_enterScope ((hscopes.mono hL).mono hL₃)
        (fun binder h => (hbinders binder h).mono hL₃) hfit).bind fun L₄ inner hL₄ hinner => ?_
      have hL' := hL₃.trans hL₄
      refine (safe_body hcompile ((hns.mono hL).mono hL') hinner
        fun stx h => (hbody stx h).mono hL').bind fun L₅ code hL₅ hcode => .pure ?_
      rw [hsame, ← hinits.1] at hcode
      exact .letIn (fun code h => ((hinits.2 code h).mono hL₄).mono hL₅) hcode

theorem safe_assignment (hcompile : CompileSafe spaces ns compile) (hns : L.HasSpace ns)
    {scopes : Scopes} {sizes : List Nat} (hscopes : Aligned L scopes sizes) {form : Syntax}
    {parts : List Syntax} (hparts : ∀ part ∈ parts, part.Known L)
    (hforms : ∀ stx ∈ (parts[2]?).toList, Fitting spaces stx) :
    Safe (Reads spaces) L (fun L' code => code.Scoped L' ns sizes)
      (assignment ns compile scopes form parts) := by
  refine safe_operand.bind fun L₁ target hL₁ htarget => ?_
  refine safe_operand.bind fun L₂ value hL₂ hvalue => ?_
  have hL := hL₁.trans hL₂
  have htarget := hparts target (List.mem_of_getElem? htarget)
  have hknown := (hparts value (List.mem_of_getElem? hvalue)).mono hL
  refine (hcompile (hns.mono hL) (hscopes.mono hL) hknown (hforms value (by simp [hvalue]))).bind
    fun L₃ code hL₃ hcode => ?_
  have hL' := hL.trans hL₃
  split
  · exact .failAt
  · rename_i name _
    refine .getSpaces_bind fun w _ _ => ?_
    cases hdenoted : w.spaces.denoted target name with
    | free x => exact .fail (external_atForm nofun)
    | lexical v =>
        have hv := (htarget.mono hL').hasLocal (denoted_eq_lexical hdenoted)
        exact (safe_depthOf (hscopes.mono hL') hv).bind fun _ _ hL₄ hslot =>
          .pure (.localSet hslot (hcode.mono hL₄))
    | defined d =>
        dsimp only
        split
        · exact .pure (.topSet hcode)
        · exact .fail (external_atForm nofun)
    | required i => exact .fail (external_atForm nofun)

theorem safe_definition (hcompile : CompileSafe spaces ns compile) (hns : L.HasSpace ns)
    {scopes : Scopes} {sizes : List Nat} (hscopes : Aligned L scopes sizes) {form : Syntax}
    {parts : List Syntax} (hparts : ∀ part ∈ parts, part.Known L)
    (hforms : ∀ stx ∈ (parts[2]?).toList, Fitting spaces stx) :
    Safe (Reads spaces) L (fun L' code => code.Scoped L' ns sizes)
      (definition ns compile scopes form parts) := by
  refine safe_operand.bind fun L₁ _ hL₁ _ => ?_
  refine safe_definedAddress.bind fun L₂ defined hL₂ _ => ?_
  refine safe_operand.bind fun L₃ value hL₃ hvalue => ?_
  have hL := (hL₁.trans hL₂).trans hL₃
  have hknown := (hparts value (List.mem_of_getElem? hvalue)).mono hL
  have hfit := hforms value (by simp [hvalue])
  refine .getSpaces_bind fun w hI _ => ?_
  split
  · -- A `lambda` is compiled at once, under the name of the variable.
    rename_i inner hinner
    rw [lambdaParts?] at hinner
    split at hinner
    · rename_i head rest hsubforms
      split at hinner
      · rename_i hhead
        obtain rfl := Option.some.inj hinner
        have hboth := hfit.parts hsubforms
        rw [← hI.2, hhead] at hboth
        refine (safe_lambda hcompile (hns.mono hL) (hscopes.mono hL) (fun part hpart => ?_)
          hboth.1 hboth.2).bind fun _ _ _ hcode => .pure (.define hcode)
        exact hknown.subforms part (hsubforms ▸ hpart)
      · cases hinner
    · cases hinner
  · exact (hcompile (hns.mono hL) (hscopes.mono hL) hknown hfit).bind fun _ _ _ hcode =>
      .pure (.define hcode)

/-- The code of a core form is scoped: one case for each form. -/
theorem safe_core (hcompile : CompileSafe spaces ns compile) (hns : L.HasSpace ns)
    {scopes : Scopes} {sizes : List Nat} (hscopes : Aligned L scopes sizes) {f : CoreForm}
    {form : Syntax} {parts : List Syntax} (hparts : ∀ part ∈ parts, part.Known L)
    (hfit : BindersFit spaces (binders f parts))
    (hforms : ∀ stx ∈ compiledParts f parts, Fitting spaces stx) :
    Safe (Reads spaces) L (fun L' code => code.Scoped L' ns sizes)
      (core ns compile scopes f form parts) := by
  have hready {L' : Layout} (hL : L ≤ L') {stx : Syntax} {position : Nat}
      (hstx : parts[position]? = some stx) (hfitting : Fitting spaces stx) :
      Ready spaces L' stx :=
    ⟨(hparts stx (List.mem_of_getElem? hstx)).mono hL, hfitting⟩
  cases f with
  | quote =>
      refine safe_operand.bind fun L₁ stx _ _ => ?_
      exact (safe_stampValue (ofSpaces_reads spaces) (Value.byParts_sound.toDatum stx)).bind
        fun _ _ _ hv => .pure (.constant hv)
  | quoteSyntax =>
      refine safe_operand.bind fun L₁ stx hL₁ hstx => ?_
      have hknown := (hparts stx (List.mem_of_getElem? hstx)).mono hL₁
      exact (safe_stampSyntax (ofSpaces_reads spaces) hknown).bind fun _ _ _ hs =>
        .pure (.constant (.stx hs))
  | ifForm =>
      have hoperand {L' : Layout} (hL : L ≤ L') {stx : Syntax} {i : Nat}
          (hstx : parts[i + 1]? = some stx) : Ready spaces L' stx := by
        refine hready hL hstx (hforms stx ?_)
        have hmem : (parts.drop 1)[i]? = some stx := by rwa [List.getElem?_drop, Nat.add_comm]
        exact List.mem_of_getElem? hmem
      refine safe_operand.bind fun L₁ test hL₁ htest => ?_
      have htest := hoperand hL₁ htest
      refine (hcompile (hns.mono hL₁) (hscopes.mono hL₁) htest.1 htest.2).bind
        fun L₂ test hL₂ htest => ?_
      refine safe_operand.bind fun L₃ consequent hL₃ hconsequent => ?_
      have hL := (hL₁.trans hL₂).trans hL₃
      have hconsequent := hoperand hL hconsequent
      refine (hcompile (hns.mono hL) (hscopes.mono hL) hconsequent.1 hconsequent.2).bind
        fun L₄ consequent hL₄ hconsequent => ?_
      refine safe_operand.bind fun L₅ alternative hL₅ halternative => ?_
      have hL' := (hL.trans hL₄).trans hL₅
      have halternative := hoperand hL' halternative
      refine (hcompile (hns.mono hL') (hscopes.mono hL') halternative.1 halternative.2).bind
        fun L₆ alternative hL₆ halternative => .pure (.branch ?_ ?_ halternative)
      · exact htest.mono (((hL₃.trans hL₄).trans hL₅).trans hL₆)
      · exact hconsequent.mono (hL₅.trans hL₆)
  | begin =>
      exact safe_body hcompile hns hscopes fun stx hstx =>
        ⟨hparts stx (List.mem_of_mem_drop hstx), hforms stx hstx⟩
  | lambda => exact safe_lambda hcompile hns hscopes hparts hfit hforms
  | letForm => exact safe_binding hcompile hns hscopes hparts hfit hforms
  | letrec => exact safe_binding hcompile hns hscopes hparts hfit hforms
  | set => exact safe_assignment hcompile hns hscopes hparts hforms
  | define => exact safe_definition hcompile hns hscopes hparts hforms
  | defineSyntax =>
      refine safe_operand.bind fun L₁ _ hL₁ _ => ?_
      refine safe_definedAddress.bind fun L₂ defined hL₂ _ => ?_
      refine safe_operand.bind fun L₃ value hL₃ hvalue => ?_
      have hL := (hL₁.trans hL₂).trans hL₃
      have hvalue := hready hL hvalue (hforms value (by simp [compiledParts, hvalue]))
      exact (hcompile (hns.mono hL) (hscopes.mono hL) hvalue.1 hvalue.2).bind fun _ _ _ hcode =>
        .pure (.defineSyntax hcode)
  | parameterize =>
      simp only [compiledParts, List.forall_mem_append] at hforms
      refine safe_operand.bind fun L₁ clauses hL₁ hclauses => ?_
      have hclauseParts (position : Nat) : clauseParts parts position =
          clauses.subforms.filterMap fun clause => clause.subforms[position]? := by
        rw [clauseParts, hclauses]
      have hknown (position : Nat) : ∀ stx ∈ clauseParts parts position, stx.Known L₁ :=
        fun stx hstx => (known_clauseParts hparts stx hstx).mono hL₁
      refine (safe_pairs hcompile (hns.mono hL₁) (hscopes.mono hL₁) (fun stx hstx => ?_)
        fun stx hstx => ?_).bind fun L₂ bindings hL₂ hbindings => ?_
      · rw [← hclauseParts 0] at hstx
        exact ⟨hknown 0 stx hstx, hforms.1.1 stx hstx⟩
      · rw [← hclauseParts 1] at hstx
        exact ⟨hknown 1 stx hstx, hforms.1.2 stx hstx⟩
      · have hL := hL₁.trans hL₂
        refine (safe_body hcompile (hns.mono hL) (hscopes.mono hL) fun stx hstx =>
          ⟨(hparts stx (List.mem_of_mem_drop hstx)).mono hL, hforms.2 stx hstx⟩).bind
          fun L₃ code hL₃ hcode => .pure (.parameterize ?_ ?_ hcode)
        · exact fun binding h => (hbindings.1 binding h).mono hL₃
        · exact fun binding h => (hbindings.2 binding h).mono hL₃
  | moduleForm => exact .pure .void
  | require => exact .pure .void
  | provide => exact .pure .void

theorem safe_form (hcompile : CompileSafe spaces ns compile) (hns : L.HasSpace ns) {scopes : Scopes}
    {sizes : List Nat} (hscopes : Aligned L scopes sizes) {stx : Syntax} (hknown : stx.Known L)
    (hfit : Fitting spaces stx) :
    Safe (Reads spaces) L (fun L' code => code.Scoped L' ns sizes)
      (form ns compile scopes stx) := by
  unfold form
  split
  · exact safe_reference hns hscopes hknown
  · exact .pure (.constant .atom)
  · rename_i c items
    have hparts : (Syntax.group c .list items).elements? = some (items.map (.addWraps c.wraps)) := rfl
    refine (safe_all hcompile hns hscopes fun stx hstx => ⟨?_, ?_⟩).bind fun _ _ _ hcodes =>
      .pure (.listLiteral hcodes.2)
    · exact Syntax.Carries.elements? hknown hparts stx hstx
    · exact hfit.elements hparts stx hstx
  · rename_i c items
    have hparts : (Syntax.record c items).fields? = some _ := rfl
    refine (safe_fields hcompile hns hscopes fun field hfield => ⟨?_, ?_⟩).bind fun _ _ _ hcodes =>
      .pure (.recordLiteral hcodes)
    · exact Syntax.Carries.fields? hknown hparts field hfield
    · exact hfit.fields hparts field hfield
  · split
    · exact .failAt
    · rename_i head operands hparts
      have hfit := hfit.parts hparts
      have hknown : ∀ part ∈ head :: operands, part.Known L := fun part hpart =>
        hknown.subforms part (hparts ▸ hpart)
      refine .getSpaces_bind fun w hI _ => ?_
      rw [hI.2 head]
      cases hcore : coreForm? spaces head with
      | some f =>
          rw [hcore] at hfit
          exact safe_core hcompile hns hscopes hknown hfit.1 hfit.2
      | none =>
          rw [hcore] at hfit
          refine (hcompile hns hscopes (hknown _ List.mem_cons_self) (hfit _ List.mem_cons_self)).bind
            fun L₁ operator hL₁ hoperator => ?_
          refine (safe_all hcompile (hns.mono hL₁) (hscopes.mono hL₁) fun stx hstx => ⟨?_, ?_⟩).bind
            fun L₂ args hL₂ hargs => .pure (.apply (hoperator.mono hL₂) hargs.2)
          · exact (hknown stx (List.mem_cons_of_mem _ hstx)).mono hL₁
          · exact hfit stx (List.mem_cons_of_mem _ hstx)

end

theorem safe_compileAt (fuel : Nat) : CompileSafe spaces ns (compileAt ns fuel) := by
  induction fuel with
  | zero => exact fun _ _ _ _ => .exhausted
  | succ fuel ih => exact fun hns hscopes hknown hfit => safe_form ih hns hscopes hknown hfit

end Compile

/-- The code of a known form whose binders fit is scoped outside all frames. -/
theorem safe_compile {spaces : Spaces} {ns : NamespaceId} (hns : L.HasSpace ns) {stx : Syntax}
    (hknown : stx.Known L) (hfit : Compile.Fitting spaces stx) :
    Safe (Reads spaces) L (fun L' code => code.Scoped L' ns []) (compile ns stx) :=
  Compile.safe_compileAt _ hns .nil hknown hfit

end HygienicLisp
