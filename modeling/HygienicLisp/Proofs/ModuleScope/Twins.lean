import HygienicLisp.Proofs.Isolation.Consistency
import HygienicLisp.Proofs.ModuleScope.Renumbering
import HygienicLisp.Proofs.Reexports.Names

/-!
# Namespaces that are the same up to their numbers

Two lists of namespaces are twins if they differ in one namespace of a module, and that one has the
same names in both, with other numbers.  What a form of the module resolves to in one is, up to the
numbers, what the renumbered form resolves to in the other.

Such a form has no context but ribs that were made inside of it, the namespace of its module and the
kernel (`Wrap.Local`).  So the keys that are looked up for it are told apart by their numbers in both.
-/

namespace HygienicLisp

variable {ρ : Renumbering} {kernel : NamespaceId} {spaces spaces' : Spaces}

/-! ## What belongs to a module -/

section

variable (ρ kernel)

/-- The binding is free, or of a new rib, or a cell of the module or of the kernel. -/
def Binding.Local : Binding → Prop
  | .free _ => True
  | .lexical v => ρ.oldRib ≤ v.rib
  | .cell c => c.owner = ρ.space ∨ c.owner = kernel

/-- The wrap is one that expansion puts on forms of the module. -/
def Wrap.Local : Wrap → Prop
  | .mark _ => True
  | .rename rib => ρ.oldRib ≤ rib.id ∧ ∀ key ∈ rib.keys, key.origin.Local ρ kernel
  | .space ns => ns = ρ.space
  | .moduleRename ns => ns = kernel

/-- The wrap is one that expansion puts on what is written in the module. -/
def Wrap.Written (wrap : Wrap) : Prop :=
  wrap.Local ρ kernel ∧ (∀ m, wrap ≠ .mark m) ∧ ∀ ns, wrap ≠ .moduleRename ns

/-- The names of the language that expansion puts into a form by itself. -/
def keywords : List String := ["lambda", "letrec"]

/-- The form is one of the module: it has no other context than what is written there, and names of
the kernel that expansion has put into it. -/
inductive Syntax.Local : Syntax → Prop
  | atom {c : Context} {a : Atom} (hwraps : ∀ wrap ∈ c.wraps, wrap.Written ρ kernel)
      (hbinding : c.binding = none) : Local (.atom c a)
  | keyword {c : Context} {name : String} (hname : name ∈ keywords)
      (hwraps : ∀ wrap ∈ c.wraps, wrap.Local ρ kernel) (hbinding : c.binding = none) :
      Local (.atom c (.symbol name))
  | group {c : Context} {shape : Shape} {items : List Syntax}
      (hwraps : ∀ wrap ∈ c.wraps, wrap.Written ρ kernel) (hbinding : c.binding = none)
      (hitems : ∀ stx ∈ items, Local stx) : Local (.group c shape items)
  | record {c : Context} {fields : List (String × Syntax)}
      (hwraps : ∀ wrap ∈ c.wraps, wrap.Written ρ kernel) (hbinding : c.binding = none)
      (hfields : ∀ field ∈ fields, Local field.2) : Local (.record c fields)

end

namespace Syntax.Local

variable {stx : Syntax}

theorem wraps (h : stx.Local ρ kernel) : ∀ wrap ∈ stx.wraps, wrap.Local ρ kernel := by
  cases h with
  | keyword _ hwraps => exact hwraps
  | atom hwraps | group hwraps | record hwraps => exact fun wrap hwrap => (hwraps wrap hwrap).1

theorem binding (h : stx.Local ρ kernel) : stx.context.binding = none := by
  cases h <;> assumption

theorem addWrap (h : stx.Local ρ kernel) {wrap : Wrap} (hwrap : wrap.Written ρ kernel) :
    (stx.addWrap wrap).Local ρ kernel := by
  have hpush {P : Wrap → Prop} {wraps : List Wrap} (hwraps : ∀ other ∈ wraps, P other)
      (hnew : P wrap) : ∀ other ∈ pushWrap wrap wraps, P other := by
    intro other hother
    rcases mem_of_mem_pushWrap hother with rfl | hmem
    · exact hnew
    · exact hwraps other hmem
  cases h with
  | atom hwraps _ => exact .atom (hpush hwraps hwrap) rfl
  | keyword hname hwraps _ => exact .keyword hname (hpush hwraps hwrap.1) rfl
  | group hwraps _ hitems => exact .group (hpush hwraps hwrap) rfl hitems
  | record hwraps _ hfields => exact .record (hpush hwraps hwrap) rfl hfields

theorem addWraps (h : stx.Local ρ kernel) {newer : List Wrap}
    (hnewer : ∀ wrap ∈ newer, wrap.Written ρ kernel) : (stx.addWraps newer).Local ρ kernel := by
  induction newer with
  | nil => exact h
  | cons wrap newer ih =>
      obtain ⟨hwrap, hnewer⟩ := List.forall_mem_cons.1 hnewer
      exact (ih hnewer).addWrap hwrap

theorem subforms? (h : stx.Local ρ kernel) {parts : List Syntax}
    (hparts : stx.subforms? = some parts) : ∀ part ∈ parts, part.Local ρ kernel := by
  cases h with
  | atom | keyword | record => cases hparts
  | @group c shape items hwraps _ hitems =>
      cases shape with
      | list => cases hparts
      | sexp =>
          cases hparts
          exact List.forall_mem_map.2 fun part hpart => (hitems part hpart).addWraps hwraps

theorem subforms (h : stx.Local ρ kernel) : ∀ part ∈ stx.subforms, part.Local ρ kernel := by
  rw [Syntax.subforms]
  cases hparts : stx.subforms? with
  | none => simp
  | some parts => exact h.subforms? hparts

theorem elements (h : stx.Local ρ kernel) : ∀ part ∈ stx.elements?.getD [], part.Local ρ kernel := by
  cases h with
  | atom | keyword | record => exact nofun
  | @group c shape items hwraps _ hitems =>
      cases shape with
      | sexp => exact nofun
      | list => exact List.forall_mem_map.2 fun part hpart => (hitems part hpart).addWraps hwraps

theorem fields (h : stx.Local ρ kernel) :
    ∀ field ∈ stx.fields?.getD [], field.2.Local ρ kernel := by
  cases h with
  | atom | keyword | group => exact nofun
  | record hwraps _ hfields =>
      exact List.forall_mem_map.2 fun field hfield => (hfields field hfield).addWraps hwraps

end Syntax.Local

/-- The definition is one of the kernel, which is there, and its value is no transformer. -/
structure Spaces.OfKernel (spaces : Spaces) (kernel : NamespaceId) (d : Definition) : Prop where
  live : spaces.isFreed kernel = false
  owner : d.owner = kernel
  home : spaces.IsHome kernel d.home
  value : ∀ id procedureId p, spaces.value? kernel d.address ≠ some (.transformer id procedureId p)

theorem Spaces.OfKernel.congr {d : Definition} (h : spaces.OfKernel kernel d)
    (hkernel : spaces'[kernel]? = spaces[kernel]?) : spaces'.OfKernel kernel d where
  live := by
    rw [Spaces.isFreed, hkernel, ← Spaces.isFreed]
    exact h.live
  owner := h.owner
  home := by
    rw [Spaces.IsHome, hkernel]
    exact h.home
  value id procedureId p := by
    rw [Spaces.value?, hkernel, ← Spaces.value?]
    exact h.value id procedureId p

/-- The namespace refers to no other than the kernel. -/
def Namespace.RefersTo (space : Namespace) (spaces : Spaces) (kernel : NamespaceId) : Prop :=
  space.imports = #[] ∨ ∃ home, space.imports = #[(home, kernel)] ∧ spaces.IsHome kernel home

/-- The second namespace has the names of the first, with other numbers. -/
structure Namespace.Twins (ρ : Renumbering) (space space' : Namespace) : Prop where
  isModule : space.kind = .module
  isModule' : space'.kind = .module
  freed : space'.freed = space.freed
  find : ∀ key, space'.find? (key.renumber ρ) = (space.find? key).map ρ.cell
  content : ∀ i, space'.content? (ρ.cell i) = (space.content? i).map (Content.renumber ρ)
  unset : ∀ address, space.value? address = none
  unset' : ∀ address, space'.value? address = none

/-- The namespaces are the same up to the numbers in the one that is renumbered, in which no
definition has been evaluated, and which knows no others than its own and those of the kernel. -/
structure Spaces.Twins (ρ : Renumbering) (kernel : NamespaceId) (spaces spaces' : Spaces) :
    Prop where
  injective : Function.Injective ρ.cell
  apart : kernel ≠ ρ.space
  other : ∀ ns, ns ≠ ρ.space → spaces'[ns]? = spaces[ns]?
  own : ∃ space space', spaces[ρ.space]? = some space ∧ spaces'[ρ.space]? = some space' ∧
    space.Twins ρ space' ∧ space.RefersTo spaces kernel ∧ space'.RefersTo spaces kernel
  targets : ∀ i content, spaces.content? ⟨ρ.space, i⟩ = some content →
    content.target.owner = ρ.space ∨ spaces.OfKernel kernel content.target
  language : ∀ i content, spaces.content? ⟨kernel, i⟩ = some content →
    spaces.OfKernel kernel content.target

/-! ## Numbers that tell apart -/

/-- New ribs get different numbers. -/
theorem Renumbering.rib_inj {r r' : RibId} (h : ρ.oldRib ≤ r) (h' : ρ.oldRib ≤ r') :
    ρ.rib r = ρ.rib r' ↔ r = r' := by
  unfold Renumbering.rib
  simp only [RibId] at *
  omega

namespace Spaces.Twins

variable (h : spaces.Twins ρ kernel spaces')

include h

theorem renumber_inj {b b' : Binding} (hb : b.Local ρ kernel) (hb' : b'.Local ρ kernel) :
    b.renumber ρ = b'.renumber ρ ↔ b = b' := by
  refine ⟨fun hsame => ?_, fun hsame => by rw [hsame]⟩
  cases b with
  | free name => cases b' <;> simp_all [Binding.renumber]
  | lexical v =>
      cases b' with
      | lexical v' =>
          rw [Binding.renumber, Binding.renumber, Binding.lexical.injEq, LocalVar.renumber,
            LocalVar.renumber, LocalVar.mk.injEq, Renumbering.rib_inj hb hb'] at hsame
          cases v
          cases v'
          simp_all
      | _ => simp [Binding.renumber] at hsame
  | cell c =>
      cases b' with
      | cell c' =>
          rw [Binding.renumber, Binding.renumber, Binding.cell.injEq] at hsame
          refine congrArg _ ?_
          obtain ⟨owner, index⟩ := c
          obtain ⟨owner', index'⟩ := c'
          -- A cell stays in its namespace, and positions there stay apart.
          by_cases howner : owner = ρ.space
          · by_cases howner' : owner' = ρ.space
            · simp only [CellRef.renumber, howner, howner', if_true, CellRef.mk.injEq, true_and]
                at hsame ⊢
              exact h.injective hsame
            · rw [CellRef.renumber, CellRef.renumber, if_pos howner, if_neg howner'] at hsame
              exact absurd ((congrArg CellRef.owner hsame).symm.trans howner) howner'
          · by_cases howner' : owner' = ρ.space
            · rw [CellRef.renumber, CellRef.renumber, if_neg howner, if_pos howner'] at hsame
              exact absurd ((congrArg CellRef.owner hsame).trans howner') howner
            · simpa only [CellRef.renumber, howner, howner', if_false] using hsame
      | _ => simp [Binding.renumber] at hsame

theorem key_inj {key key' : Key} (hkey : key.origin.Local ρ kernel)
    (hkey' : key'.origin.Local ρ kernel) : key.renumber ρ = key'.renumber ρ ↔ key = key' := by
  obtain ⟨name, origin, marks⟩ := key
  obtain ⟨name', origin', marks'⟩ := key'
  simp only [Key.renumber, Key.mk.injEq, h.renumber_inj hkey hkey']

theorem kernel_space : spaces'[kernel]? = spaces[kernel]? := h.other kernel h.apart

/-! ## Resolution -/

/-- A renumbered rib substitutes the variable of the rib. -/
theorem substitute?_rib {rib : Rib} (hrib : (Wrap.rename rib).Local ρ kernel) {key : Key}
    (hkey : key.origin.Local ρ kernel) :
    (rib.renumber ρ).substitute? (key.renumber ρ) =
      (rib.substitute? key).map (LocalVar.renumber ρ) := by
  have hfind : (rib.keys.map (Key.renumber ρ)).findIdx? (· = key.renumber ρ) =
      rib.keys.findIdx? (· = key) := by
    rw [List.findIdx?_map]
    have hkeys := hrib.2
    generalize rib.keys = keys at hkeys
    induction keys with
    | nil => rfl
    | cons first rest ih =>
        obtain ⟨hfirst, hrest⟩ := List.forall_mem_cons.1 hkeys
        simp only [List.findIdx?_cons, Function.comp_apply, h.key_inj hfirst hkey, ih hrest]
  rw [Rib.substitute?, Rib.renumber, hfind, Rib.substitute?, Option.map_map]
  rfl

theorem isFreed_own : spaces'.isFreed ρ.space = spaces.isFreed ρ.space := by
  obtain ⟨space, space', hspace, hspace', htwins, -⟩ := h.own
  rw [Spaces.isFreed, Spaces.isFreed, hspace, hspace']
  exact htwins.freed

theorem cell?_own (key : Key) :
    spaces'.cell? ρ.space (key.renumber ρ) = (spaces.cell? ρ.space key).map (CellRef.renumber ρ) := by
  obtain ⟨space, space', hspace, hspace', htwins, -⟩ := h.own
  have hfiled : spaces'.filed? ρ.space (key.renumber ρ) =
      (spaces.filed? ρ.space key).map (CellRef.renumber ρ) := by
    rw [Spaces.filed?, Spaces.filed?, hspace, hspace']
    dsimp only
    rw [htwins.find, Option.map_map, Option.map_map]
    refine congrArg (Option.map · _) (funext fun i => ?_)
    simp [CellRef.renumber]
  rw [Spaces.cell?, Spaces.cell?, h.isFreed_own, hfiled]
  split <;> rfl

theorem substitute?_own (name : String) (origin : Option Binding) (total here : MarkSet) :
    spaces'.substitute? ρ.space name (origin.map (Binding.renumber ρ)) total here =
      (spaces.substitute? ρ.space name origin total here).map (CellRef.renumber ρ) := by
  have horigin : (origin.map (Binding.renumber ρ)).getD (.free name) =
      (origin.getD (.free name)).renumber ρ := by cases origin <;> rfl
  have hcell (marks : MarkSet) := h.cell?_own ⟨name, origin.getD (.free name), marks⟩
  simp only [Key.renumber] at hcell
  rw [Spaces.substitute?, Spaces.substitute?, horigin, hcell, hcell]
  cases spaces.cell? ρ.space ⟨name, origin.getD (.free name), total⟩ <;> rfl

theorem substitute?_kernel (name : String) :
    spaces'.substitute? kernel name none .empty .empty =
      (spaces.substitute? kernel name none .empty .empty).map (CellRef.renumber ρ) := by
  have hcell : spaces'.cell? kernel = spaces.cell? kernel := by
    funext key
    exact Spaces.cell?_of_getElem?_eq h.kernel_space key
  rw [Spaces.substitute?, hcell, ← Spaces.substitute?]
  cases hfound : spaces.substitute? kernel name none .empty .empty with
  | none => rfl
  | some c =>
      rw [Spaces.substitute?_plain] at hfound
      obtain ⟨howner, -⟩ := Spaces.cell?_eq_some_iff.1 hfound
      rw [Option.map_some, CellRef.renumber, if_neg (howner ▸ h.apart)]

end Spaces.Twins

/-- What is found at a wrap of a form of a module belongs to the module. -/
theorem Spaces.local_resolveStep {wrap : Wrap} (hwrap : wrap.Local ρ kernel) {name : String}
    {total : MarkSet} {found : Option Binding × MarkSet}
    (hfound : ∀ b ∈ found.1, b.Local ρ kernel) :
    ∀ b ∈ (spaces.resolveStep name none total wrap found).1, b.Local ρ kernel := by
  obtain ⟨binding, marks⟩ := found
  cases wrap with
  | mark m => exact hfound
  | rename rib =>
      simp only [resolveStep]
      cases hv : rib.substitute? ⟨name, binding.getD (.free name), marks⟩ with
      | none => exact hfound
      | some v =>
          rintro _ ⟨⟩
          obtain ⟨slot, -, rfl⟩ := Option.map_eq_some_iff.1 hv
          exact hwrap.1
  | space ns =>
      simp only [resolveStep, reduceCtorEq, if_false]
      split
      · rename_i c hc
        rintro _ ⟨⟩
        exact .inl ((Spaces.owner_of_substitute? hc).trans hwrap)
      · exact hfound
  | moduleRename ns =>
      simp only [resolveStep]
      split
      · exact hfound
      · intro b hb
        obtain ⟨c, hc, rfl⟩ := Option.map_eq_some_iff.1 hb
        exact .inr ((Spaces.owner_of_substitute? hc).trans hwrap)

theorem wrapMarks_renumber (wraps : List Wrap) :
    wrapMarks (wraps.map (Wrap.renumber ρ)) = wrapMarks wraps := by
  induction wraps with
  | nil => rfl
  | cons wrap older ih =>
      rw [List.map_cons]
      cases wrap with
      | mark m => rw [Wrap.renumber_mark, wrapMarks, ih, wrapMarks]
      | _ => exact ih

namespace Spaces.Twins

variable (h : spaces.Twins ρ kernel spaces')

include h

/-- One wrap does the same to what was found before. -/
theorem resolveStep {wrap : Wrap} (hwrap : wrap.Local ρ kernel) (name : String) (total : MarkSet)
    {found : Option Binding × MarkSet} (hfound : ∀ b ∈ found.1, b.Local ρ kernel) :
    spaces'.resolveStep name none total (wrap.renumber ρ)
        (found.1.map (Binding.renumber ρ), found.2) =
      ((spaces.resolveStep name none total wrap found).1.map (Binding.renumber ρ),
        (spaces.resolveStep name none total wrap found).2) := by
  obtain ⟨binding, marks⟩ := found
  have horigin : (binding.map (Binding.renumber ρ)).getD (.free name) =
      (binding.getD (.free name)).renumber ρ := by cases binding <;> rfl
  cases wrap with
  | mark m => rfl
  | rename rib =>
      have hlocal : (binding.getD (.free name)).Local ρ kernel := by
        cases binding with
        | none => trivial
        | some b => exact hfound b rfl
      let key : Key := ⟨name, binding.getD (.free name), marks⟩
      have hkey : key.origin.Local ρ kernel := hlocal
      have hrib := h.substitute?_rib hwrap hkey
      simp only [Key.renumber, key] at hrib
      simp only [Wrap.renumber_rename, Spaces.resolveStep, horigin, hrib]
      cases rib.substitute? ⟨name, binding.getD (.free name), marks⟩ <;> rfl
  | space ns =>
      cases hwrap
      simp only [Wrap.renumber_space, Spaces.resolveStep, reduceCtorEq, if_false,
        h.substitute?_own]
      cases spaces.substitute? ρ.space name binding total marks <;> rfl
  | moduleRename ns =>
      cases hwrap
      cases binding with
      | some b => rfl
      | none =>
          simp only [Wrap.renumber_moduleRename, Spaces.resolveStep, Option.map_none,
            h.substitute?_kernel, Option.map_map]
          rfl

/-- A chain of a form of the module gives a name the same binding. -/
theorem resolveWraps {wraps : List Wrap} (hwraps : ∀ wrap ∈ wraps, wrap.Local ρ kernel)
    (name : String) :
    spaces'.resolveWraps name none (wraps.map (Wrap.renumber ρ)) =
        ((spaces.resolveWraps name none wraps).1.map (Binding.renumber ρ),
          (spaces.resolveWraps name none wraps).2) ∧
      ∀ b ∈ (spaces.resolveWraps name none wraps).1, b.Local ρ kernel := by
  rw [Spaces.resolveWraps, Spaces.resolveWraps, wrapMarks_renumber]
  generalize wrapMarks wraps = total
  induction wraps with
  | nil => exact ⟨rfl, by simp⟩
  | cons wrap older ih =>
      obtain ⟨hwrap, holder⟩ := List.forall_mem_cons.1 hwraps
      obtain ⟨hsame, hlocal⟩ := ih holder
      rw [List.map_cons, List.foldr_cons, List.foldr_cons, hsame]
      exact ⟨h.resolveStep hwrap name total hlocal, Spaces.local_resolveStep hwrap hlocal⟩

theorem resolveWithMarks {stx : Syntax} (hstx : stx.Local ρ kernel) :
    spaces'.resolveWithMarks (stx.renumber ρ) =
        ((spaces.resolveWithMarks stx).1.map (Binding.renumber ρ),
          (spaces.resolveWithMarks stx).2) ∧
      ∀ b ∈ (spaces.resolveWithMarks stx).1, b.Local ρ kernel := by
  rw [Spaces.resolveWithMarks, Spaces.resolveWithMarks, Syntax.symbol?_renumber]
  cases stx.symbol? with
  | none => exact ⟨rfl, by simp⟩
  | some name =>
      dsimp only
      rw [Syntax.wraps_renumber]
      exact h.resolveWraps hstx.wraps name

/-- An identifier of the module has the same binding. -/
theorem resolve {stx : Syntax} (hstx : stx.Local ρ kernel) :
    spaces'.resolve (stx.renumber ρ) = (spaces.resolve stx).map (Binding.renumber ρ) ∧
      ∀ b ∈ spaces.resolve stx, b.Local ρ kernel := by
  obtain ⟨hsame, hlocal⟩ := h.resolveWithMarks hstx
  rw [Spaces.resolve, Spaces.resolve, Syntax.context_renumber, Context.renumber, hstx.binding, hsame]
  exact ⟨rfl, hlocal⟩

/-- A binder of the module is bound under the same key. -/
theorem bindingKey {stx : Syntax} (hstx : stx.Local ρ kernel) (name : String) :
    spaces'.bindingKey (stx.renumber ρ) name = (spaces.bindingKey stx name).renumber ρ ∧
      (spaces.bindingKey stx name).origin.Local ρ kernel := by
  obtain ⟨hsame, hlocal⟩ := h.resolveWithMarks hstx
  rw [Spaces.bindingKey, Spaces.bindingKey, hsame]
  generalize spaces.resolveWithMarks stx = found at hlocal
  obtain ⟨_ | b, marks⟩ := found
  · exact ⟨rfl, trivial⟩
  · exact ⟨rfl, hlocal b rfl⟩

/-! ## Denotations and values -/

theorem definition_eq {d : Definition} (hd : spaces.OfKernel kernel d) : d.renumber ρ = d := by
  rw [Definition.renumber, if_neg (hd.owner ▸ h.apart)]

theorem content_own (i : Nat) :
    spaces'.content? ⟨ρ.space, ρ.cell i⟩ =
      (spaces.content? ⟨ρ.space, i⟩).map (Content.renumber ρ) := by
  obtain ⟨space, space', hspace, hspace', htwins, -⟩ := h.own
  rw [Spaces.content?, Spaces.content?, hspace, hspace']
  exact htwins.content i

/-- A cell of the module or of the kernel has the same content. -/
theorem content {c : CellRef} (hc : (Binding.cell c).Local ρ kernel) :
    spaces'.content? (c.renumber ρ) = (spaces.content? c).map (Content.renumber ρ) := by
  obtain ⟨owner, i⟩ := c
  rcases hc with howner | howner
  · obtain rfl : owner = ρ.space := howner
    rw [CellRef.renumber, if_pos rfl]
    exact h.content_own i
  · obtain rfl : owner = kernel := howner
    have hsame : spaces'.content? ⟨owner, i⟩ = spaces.content? ⟨owner, i⟩ := by
      simp only [Spaces.content?, h.kernel_space]
    rw [CellRef.renumber, if_neg h.apart, hsame]
    cases hcontent : spaces.content? ⟨owner, i⟩ with
    | none => rfl
    | some content =>
        have htarget := h.definition_eq (h.language i content hcontent)
        rw [Option.map_some]
        cases content with
        | defined d => exact congrArg (some ∘ Content.defined) htarget.symm
        | required i =>
            rw [Content.renumber, Import.renumber]
            rw [Content.target] at htarget
            rw [htarget]

theorem target_of_content {c : CellRef} (hc : (Binding.cell c).Local ρ kernel) {content : Content}
    (hcontent : spaces.content? c = some content) :
    content.target.owner = ρ.space ∨ spaces.OfKernel kernel content.target := by
  obtain ⟨owner, i⟩ := c
  rcases hc with howner | howner
  · obtain rfl : owner = ρ.space := howner
    exact h.targets i content hcontent
  · obtain rfl : owner = kernel := howner
    exact .inr (h.language i content hcontent)

theorem denote {b : Binding} (hb : b.Local ρ kernel) :
    spaces'.denote (b.renumber ρ) = (spaces.denote b).renumber ρ := by
  cases b with
  | free name => rfl
  | lexical v => rfl
  | cell c =>
      rw [Binding.renumber, Spaces.denote, Spaces.denote, h.content hb]
      rcases spaces.content? c with _ | (d | i) <;> rfl

/-- An identifier of the module denotes the same. -/
theorem denoted {stx : Syntax} (hstx : stx.Local ρ kernel) (name : String) :
    spaces'.denoted (stx.renumber ρ) name = (spaces.denoted stx name).renumber ρ := by
  obtain ⟨hsame, hlocal⟩ := h.resolve hstx
  rw [Spaces.denoted, Spaces.denoted, hsame]
  cases hbinding : spaces.resolve stx with
  | none => rfl
  | some b => exact h.denote (hlocal b hbinding)

theorem rib_of_denoted {stx : Syntax} (hstx : stx.Local ρ kernel) {name : String}
    {v : LocalVar} (hv : spaces.denoted stx name = .lexical v) : ρ.oldRib ≤ v.rib := by
  obtain ⟨-, hlocal⟩ := h.resolve hstx
  rw [Spaces.denoted] at hv
  cases hbinding : spaces.resolve stx with
  | none =>
      rw [hbinding] at hv
      cases hv
  | some b =>
      rw [hbinding, Option.getD_some] at hv
      cases b with
      | free => cases hv
      | lexical v' =>
          cases hv
          exact hlocal _ hbinding
      | cell c =>
          rw [Spaces.denote] at hv
          split at hv <;> cases hv

/-- A definition of the module has no value yet, and those of the kernel have theirs. -/
theorem lookup? {c : CellRef} (hc : (Binding.cell c).Local ρ kernel) :
    spaces'.lookup? (.cell (c.renumber ρ)) = spaces.lookup? (.cell c) := by
  obtain ⟨space, space', hspace, hspace', htwins, -⟩ := h.own
  rw [Spaces.lookup?, Spaces.lookup?, Spaces.target?_cell, Spaces.target?_cell, h.content hc]
  cases hcontent : spaces.content? c with
  | none => rfl
  | some content =>
      have htarget : (content.renumber ρ).target = content.target.renumber ρ := by
        cases content <;> rfl
      simp only [Option.map_some, htarget]
      rcases h.target_of_content hc hcontent with howner | hkernel
      · rw [Definition.renumber, if_pos howner]
        dsimp only
        rw [howner, Spaces.value?, Spaces.value?, hspace, hspace']
        dsimp only
        rw [htwins.unset, htwins.unset', h.isFreed_own]
      · rw [h.definition_eq hkernel, hkernel.owner, Spaces.value?, h.kernel_space, ← Spaces.value?,
          Spaces.isFreed, h.kernel_space, ← Spaces.isFreed]

/-- The head of a form of the module has the same value, -/
theorem headValue? {stx : Syntax} (hstx : stx.Local ρ kernel) :
    HygienicLisp.headValue? spaces' (stx.renumber ρ) = HygienicLisp.headValue? spaces stx := by
  obtain ⟨hsame, hlocal⟩ := h.resolve hstx
  rw [HygienicLisp.headValue?, HygienicLisp.headValue?, Syntax.isIdentifier_renumber, hsame]
  cases hbinding : spaces.resolve stx with
  | none => rfl
  | some b =>
      cases b with
      | free | lexical => rfl
      | cell c =>
          rw [Option.map_some, Binding.renumber]
          dsimp only
          rw [h.lookup? (hlocal _ hbinding)]

/-- which is no transformer. -/
theorem headValue?_ne_transformer {stx : Syntax} (hstx : stx.Local ρ kernel) (id procedureId : ObjectId)
    (p : Procedure) :
    HygienicLisp.headValue? spaces stx ≠ some (.transformer id procedureId p) := by
  obtain ⟨space, space', hspace, -, htwins, -⟩ := h.own
  obtain ⟨-, hlocal⟩ := h.resolve hstx
  intro hvalue
  rw [HygienicLisp.headValue?] at hvalue
  split at hvalue
  · split at hvalue
    · rename_i c hbinding
      obtain ⟨d, htarget, -, hvalue⟩ := Spaces.lookup?_eq_some.1 hvalue
      rw [Spaces.target?_cell] at htarget
      obtain ⟨content, hcontent, rfl⟩ := Option.map_eq_some_iff.1 htarget
      -- A definition of the module is still unset, and no value of the kernel is a transformer.
      rcases h.target_of_content (hlocal _ hbinding) hcontent with howner | hkernel
      · rw [howner, Spaces.value?, hspace] at hvalue
        dsimp only at hvalue
        rw [htwins.unset] at hvalue
        cases hvalue
      · rw [hkernel.owner] at hvalue
        exact hkernel.value id procedureId p hvalue
    · cases hvalue
  · cases hvalue

theorem coreForm? {stx : Syntax} (hstx : stx.Local ρ kernel) :
    HygienicLisp.coreForm? spaces' (stx.renumber ρ) = HygienicLisp.coreForm? spaces stx := by
  rw [HygienicLisp.coreForm?, h.headValue? hstx, HygienicLisp.coreForm?]

end Spaces.Twins

/-! ## Short names -/

/-- The namespaces are what they were, but for the short names that the module has given, which are of
the kernel. -/
structure Spaces.SameButImports (kernel ns : NamespaceId) (base spaces : Spaces) : Prop where
  imports : ∃ imports, spaces = base.modify ns fun space => { space with imports }
  refers : ∀ space, spaces[ns]? = some space → space.RefersTo spaces kernel

namespace Spaces.SameButImports

variable {ns : NamespaceId} {base : Spaces} (h : base.SameButImports kernel ns spaces)

include h

theorem other {o : NamespaceId} (ho : o ≠ ns) : spaces[o]? = base[o]? := by
  obtain ⟨imports, rfl⟩ := h.imports
  rw [Array.getElem?_modify, if_neg ho.symm]

theorem own {space : Namespace} (hspace : base[ns]? = some space) :
    ∃ imports, spaces[ns]? = some { space with imports } := by
  obtain ⟨imports, rfl⟩ := h.imports
  rw [Array.getElem?_modify, if_pos rfl, hspace]
  exact ⟨imports, rfl⟩

theorem cells : spaces.cells = base.cells := by
  obtain ⟨imports, rfl⟩ := h.imports
  funext o
  rw [Spaces.cells, Spaces.cells, Array.getElem?_modify]
  split
  · cases base[o]? <;> rfl
  · rfl

theorem value? (o : NamespaceId) (address : Nat) : spaces.value? o address = base.value? o address := by
  obtain ⟨imports, rfl⟩ := h.imports
  rw [Spaces.value?, Spaces.value?, Array.getElem?_modify]
  by_cases hown : ns = o
  · rw [if_pos hown]
    cases base[o]? <;> rfl
  · rw [if_neg hown]

theorem ofKernel (hkernel : kernel ≠ ns) {d : Definition} (hd : base.OfKernel kernel d) :
    spaces.OfKernel kernel d :=
  hd.congr (h.other hkernel)

/-- A definition of the kernel is the first that the module refers to, and the only one. -/
theorem importId (hkernel : kernel ≠ ns) {space : Namespace} (hspace : spaces[ns]? = some space)
    {d : Definition} (hd : spaces.OfKernel kernel d) :
    ∃ after, spaces.importId ns d = .ok (0, after) ∧ base.SameButImports kernel ns after := by
  rcases h.refers space hspace with hnone | ⟨home, hone, hhome⟩
  · have hid : space.importId? d.home = none := by simp [Namespace.importId?, hnone]
    refine ⟨spaces.addImport ns d, importId_eq_ok.2 ⟨space, hspace, .inr ⟨hid, hd.owner ▸ hd.live,
      (congrArg Array.size hnone).symm, rfl⟩⟩, ⟨#[(d.home, kernel)], ?_⟩, fun other hother => ?_⟩
    · obtain ⟨imports, rfl⟩ := h.imports
      rw [Array.getElem?_modify, if_pos rfl] at hspace
      obtain ⟨space, -, rfl⟩ := Option.map_eq_some_iff.1 hspace
      obtain rfl : imports = #[] := hnone
      refine Array.ext_getElem? fun o => ?_
      rw [addImport, Array.getElem?_modify, Array.getElem?_modify, Array.getElem?_modify]
      split
      · cases base[o]? with
        | none => rfl
        | some space => simp [Namespace.addImport, hd.owner]
      · rfl
    · rw [addImport, Array.getElem?_modify, if_pos rfl, hspace, Option.map_some] at hother
      cases hother
      refine .inr ⟨d.home, ?_, ?_⟩
      · rw [Namespace.addImport, hnone, hd.owner]
        rfl
      · obtain ⟨kernelSpace, hkernelSpace, hhome⟩ := hd.home
        refine ⟨kernelSpace, ?_, hhome⟩
        rw [addImport, Array.getElem?_modify, if_neg hkernel.symm, hkernelSpace]
  -- The namespace of the kernel has one home, so an earlier import has it too.
  · have hsame : home = d.home := by
      obtain ⟨kernelSpace, hkernelSpace, rfl⟩ := hhome
      obtain ⟨kernelSpace', hkernelSpace', hhome⟩ := hd.home
      cases hkernelSpace.symm.trans hkernelSpace'
      exact hhome
    have hid : space.importId? d.home = some 0 := by simp [Namespace.importId?, hone, hsame]
    exact ⟨spaces, importId_eq_ok.2 ⟨space, hspace, .inl ⟨hid, rfl⟩⟩, h⟩

end Spaces.SameButImports

/-- Namespaces that differ from twins in short names are twins. -/
theorem Spaces.Twins.of_base {first second : Spaces} (h : first.Twins ρ kernel second)
    (hfirst : first.SameButImports kernel ρ.space spaces)
    (hsecond : second.SameButImports kernel ρ.space spaces') : spaces.Twins ρ kernel spaces' where
  injective := h.injective
  apart := h.apart
  other ns hns := by rw [hfirst.other hns, hsecond.other hns, h.other ns hns]
  own := by
    obtain ⟨space, space', hspace, hspace', htwins, -, -⟩ := h.own
    obtain ⟨imports, hown⟩ := hfirst.own hspace
    obtain ⟨imports', hown'⟩ := hsecond.own hspace'
    have hkernel : spaces'[kernel]? = spaces[kernel]? := by
      rw [hsecond.other h.apart, hfirst.other h.apart, h.kernel_space]
    have hrefers := hsecond.refers _ hown'
    simp only [Namespace.RefersTo, Spaces.IsHome, hkernel] at hrefers
    refine ⟨_, _, hown, hown', ?_, hfirst.refers _ hown, hrefers⟩
    exact ⟨htwins.isModule, htwins.isModule', htwins.freed, htwins.find, htwins.content, htwins.unset,
      htwins.unset'⟩
  targets i content hcontent := by
    rw [Spaces.content?_congr hfirst.cells] at hcontent
    exact (h.targets i content hcontent).imp_right (hfirst.ofKernel h.apart)
  language i content hcontent := by
    rw [Spaces.content?_congr hfirst.cells] at hcontent
    exact hfirst.ofKernel h.apart (h.language i content hcontent)

end HygienicLisp
