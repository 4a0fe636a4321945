import HygienicLisp.Proofs.Isolation.Writes
import HygienicLisp.Proofs.ModuleScope.Expansion

/-!
# Compilation under two numberings

The expanded expressions of a module are compiled side by side: both get code, which is the same up
to the numbers, or neither does.  Where the code mentions a name that the module defines, it is by the
address that has been reserved for the name (`Code.Reaches`).  The lemmas go through compilation step
by step, with the compilation of the parts as an argument.

Main statement: `agree_compileAt`.
-/

namespace HygienicLisp

open Compile

variable {σ : Sides} {ρ : Renumbering} {names : List String}

/-! ## What code refers to -/

/-- The instruction leads to the definitions of a module by the addresses that are reserved for the
names, in the order of the names. -/
def Code.Reaches (names : List String) : Code → Prop
  | .topRef address name => names[address]? = some name
  | .topSet address _ => address < names.length
  | .importRef _ _ name => name ∉ names
  | .freeRef _ _ => False
  | _ => True

/-- What the namespace defines are the names, at the addresses that are reserved for them; whatever
else it has is imported. -/
structure Spaces.Reserves (spaces : Spaces) (ns : NamespaceId) (names : List String) : Prop where
  defined : ∀ {key : Key} {c : CellRef} {d : Definition}, spaces.cell? ns key = some c →
    spaces.content? c = some (.defined d) → d.owner = ns ∧ names[d.address]? = some key.name
  required : ∀ {key : Key} {c : CellRef} {i : Import}, spaces.cell? ns key = some c →
    spaces.content? c = some (.required i) → i.provided.target.owner ≠ ns ∧ key.name ∉ names

/-- The module defines the names, and what expansion puts into forms by itself are core forms. -/
structure Sides.Reserves (σ : Sides) (ρ : Renumbering) (names : List String) : Prop where
  own : σ.first.Reserves ρ.space names
  keyword : ∀ name ∈ keywords, ∀ c, σ.first.cell? σ.kernel (plainKey name) = some c →
    ∃ f, σ.first.lookup? (.cell c) = some (.form f)

/-- The second code is the first under other numbers, which leads to the definitions of the module. -/
structure Code.Paired (ρ : Renumbering) (names : List String) (code code' : Code) : Prop where
  twin : code.Twin ρ code'
  reaches : code.All (Code.Reaches names)

/-! ## Putting code together -/

namespace Code

variable {code code' : Code} {codes codes' : List Code}

/-- Code of several parts is paired if the parts are. -/
theorem forall₂_paired (h : List.Forall₂ (Paired ρ names) codes codes') :
    transportAll id Syntax.unlabelled codes' =
        transportAll ρ.address (fun s => (s.renumber ρ).unlabelled) codes ∧
      ∀ code ∈ codes, code.All (Reaches names) := by
  induction h with
  | nil => exact ⟨rfl, by simp⟩
  | cons hfirst _ ih =>
      refine ⟨?_, List.forall_mem_cons.2 ⟨hfirst.reaches, ih.2⟩⟩
      rw [transportAll, transportAll, ih.1]
      exact congrArg (· :: _) hfirst.twin

theorem forall₂_pairedPairs {pairs pairs' : List (Code × Code)}
    (h : List.Forall₂ (fun pair pair' => Paired ρ names pair.1 pair'.1 ∧ Paired ρ names pair.2 pair'.2)
      pairs pairs') :
    transportPairs id Syntax.unlabelled pairs' =
        transportPairs ρ.address (fun s => (s.renumber ρ).unlabelled) pairs ∧
      ∀ code ∈ pairs.map (·.1) ++ pairs.map (·.2), code.All (Reaches names) := by
  induction h with
  | nil => exact ⟨rfl, by simp⟩
  | cons hfirst _ ih =>
      obtain ⟨hfirsts, hseconds⟩ := List.forall_mem_append.1 ih.2
      refine ⟨?_, List.forall_mem_append.2 ⟨List.forall_mem_cons.2 ⟨hfirst.1.reaches, hfirsts⟩,
        List.forall_mem_cons.2 ⟨hfirst.2.reaches, hseconds⟩⟩⟩
      rw [transportPairs, transportPairs, ih.1]
      exact congrArg (· :: _) (Prod.ext hfirst.1.twin hfirst.2.twin)

theorem forall₂_pairedFields {fields fields' : List (String × Code)}
    (h : List.Forall₂ (fun field field' => field'.1 = field.1 ∧ Paired ρ names field.2 field'.2)
      fields fields') :
    transportFields id Syntax.unlabelled fields' =
        transportFields ρ.address (fun s => (s.renumber ρ).unlabelled) fields ∧
      ∀ code ∈ fields.map (·.2), code.All (Reaches names) := by
  induction h with
  | nil => exact ⟨rfl, by simp⟩
  | cons hfirst _ ih =>
      refine ⟨?_, List.forall_mem_cons.2 ⟨hfirst.2.reaches, ih.2⟩⟩
      rw [transportFields, transportFields, ih.1]
      exact congrArg (· :: _) (Prod.ext hfirst.1 hfirst.2.twin)

namespace Paired

theorem void : Paired ρ names .void .void := ⟨rfl, .intro trivial nofun⟩

theorem constant {v v' : Value} (h : (Code.constant v).Twin ρ (.constant v')) :
    Paired ρ names (.constant v) (.constant v') :=
  ⟨h, .intro trivial nofun⟩

theorem atom (a : Atom) : Paired ρ names (.constant (.atom a)) (.constant (.atom a)) :=
  constant rfl

theorem localRef (depth slot : Nat) (name : String) :
    Paired ρ names (.localRef depth slot name) (.localRef depth slot name) :=
  ⟨rfl, .intro trivial nofun⟩

theorem topRef {a : Nat} {name : String} (h : names[a]? = some name) :
    Paired ρ names (.topRef a name) (.topRef (ρ.address a) name) :=
  ⟨rfl, .intro h nofun⟩

theorem importRef {name : String} (h : name ∉ names) (id a : Nat) :
    Paired ρ names (.importRef id a name) (.importRef id a name) :=
  ⟨rfl, .intro h nofun⟩

theorem localSet (h : Paired ρ names code code') (depth slot : Nat) :
    Paired ρ names (.localSet depth slot code) (.localSet depth slot code') :=
  ⟨congrArg (Code.localSet depth slot) h.twin, .intro trivial (List.forall_mem_singleton.2 h.reaches)⟩

theorem topSet (h : Paired ρ names code code') {a : Nat} (ha : a < names.length) :
    Paired ρ names (.topSet a code) (.topSet (ρ.address a) code') :=
  ⟨congrArg (Code.topSet (ρ.address a)) h.twin, .intro ha (List.forall_mem_singleton.2 h.reaches)⟩

theorem lambda (h : Paired ρ names code code') (name : Option String) (required : Nat) (rest : Bool) :
    Paired ρ names (.lambda name required rest code) (.lambda name required rest code') :=
  ⟨congrArg (Code.lambda name required rest) h.twin,
    .intro trivial (List.forall_mem_singleton.2 h.reaches)⟩

theorem branch {test test' consequent consequent' : Code} (htest : Paired ρ names test test')
    (hconsequent : Paired ρ names consequent consequent') (h : Paired ρ names code code') :
    Paired ρ names (.branch test consequent code) (.branch test' consequent' code') := by
  refine ⟨?_, .intro trivial ?_⟩
  · show Code.branch _ _ _ = Code.branch _ _ _
    exact congr (congr (congrArg _ htest.twin) hconsequent.twin) h.twin
  · simp only [parts, List.forall_mem_cons, List.not_mem_nil, false_implies, implies_true, and_true]
    exact ⟨htest.reaches, hconsequent.reaches, h.reaches⟩

theorem sequence (h : List.Forall₂ (Paired ρ names) codes codes') :
    Paired ρ names (.sequence codes) (.sequence codes') :=
  ⟨congrArg Code.sequence (forall₂_paired h).1, .intro trivial (forall₂_paired h).2⟩

theorem listLiteral (h : List.Forall₂ (Paired ρ names) codes codes') :
    Paired ρ names (.listLiteral codes) (.listLiteral codes') :=
  ⟨congrArg Code.listLiteral (forall₂_paired h).1, .intro trivial (forall₂_paired h).2⟩

theorem letIn (h : List.Forall₂ (Paired ρ names) codes codes') (hbody : Paired ρ names code code') :
    Paired ρ names (.letIn codes code) (.letIn codes' code') :=
  ⟨congrArg₂ Code.letIn (forall₂_paired h).1 hbody.twin,
    .intro trivial (List.forall_mem_cons.2 ⟨hbody.reaches, (forall₂_paired h).2⟩)⟩

theorem letrec (h : List.Forall₂ (Paired ρ names) codes codes') (hbody : Paired ρ names code code') :
    Paired ρ names (.letrec codes code) (.letrec codes' code') :=
  ⟨congrArg₂ Code.letrec (forall₂_paired h).1 hbody.twin,
    .intro trivial (List.forall_mem_cons.2 ⟨hbody.reaches, (forall₂_paired h).2⟩)⟩

theorem apply (hoperator : Paired ρ names code code') (h : List.Forall₂ (Paired ρ names) codes codes')
    (call : Syntax) : Paired ρ names (.apply code codes call) (.apply code' codes' (call.renumber ρ)) := by
  refine ⟨?_, .intro trivial (List.forall_mem_cons.2 ⟨hoperator.reaches, (forall₂_paired h).2⟩)⟩
  show Code.apply _ _ _ = Code.apply _ _ _
  exact congrFun (congr (congrArg Code.apply hoperator.twin) (forall₂_paired h).1) _

theorem parameterize {pairs pairs' : List (Code × Code)}
    (h : List.Forall₂ (fun pair pair' => Paired ρ names pair.1 pair'.1 ∧ Paired ρ names pair.2 pair'.2)
      pairs pairs') (hbody : Paired ρ names code code') :
    Paired ρ names (.parameterize pairs code) (.parameterize pairs' code') :=
  ⟨congrArg₂ Code.parameterize (forall₂_pairedPairs h).1 hbody.twin,
    .intro trivial (List.forall_mem_cons.2 ⟨hbody.reaches, (forall₂_pairedPairs h).2⟩)⟩

theorem recordLiteral {fields fields' : List (String × Code)}
    (h : List.Forall₂ (fun field field' => field'.1 = field.1 ∧ Paired ρ names field.2 field'.2)
      fields fields') : Paired ρ names (.recordLiteral fields) (.recordLiteral fields') :=
  ⟨congrArg Code.recordLiteral (forall₂_pairedFields h).1, .intro trivial (forall₂_pairedFields h).2⟩

end Paired

end Code

/-! ## What identifiers lead to -/

/-- A cell that a chain leads to was found for the name, by the wrap of a namespace or in the kernel. -/
theorem Spaces.cell_of_resolveWraps {spaces : Spaces} {name : String} {skip : Option NamespaceId}
    {wraps : List Wrap} {c : CellRef}
    (h : (spaces.resolveWraps name skip wraps).1 = some (.cell c)) :
    (∃ ns key, .space ns ∈ wraps ∧ key.name = name ∧ spaces.cell? ns key = some c) ∨
      ∃ ns, .moduleRename ns ∈ wraps ∧ spaces.cell? ns (plainKey name) = some c := by
  rw [resolveWraps] at h
  generalize wrapMarks wraps = total at h
  induction wraps with
  | nil => cases h
  | cons wrap older ih =>
      rw [List.foldr_cons] at h
      generalize older.foldr (spaces.resolveStep name skip total) (none, .empty) = found at h ih
      -- A wrap that finds nothing leaves what the older ones have found.
      have holder (hfound : found.1 = some (.cell c)) :
          (∃ ns key, .space ns ∈ wrap :: older ∧ key.name = name ∧ spaces.cell? ns key = some c) ∨
            ∃ ns, .moduleRename ns ∈ wrap :: older ∧ spaces.cell? ns (plainKey name) = some c := by
        rcases ih hfound with ⟨ns, key, hmem, hkey⟩ | ⟨ns, hmem, hkey⟩
        · exact .inl ⟨ns, key, List.mem_cons_of_mem wrap hmem, hkey⟩
        · exact .inr ⟨ns, List.mem_cons_of_mem wrap hmem, hkey⟩
      obtain ⟨binding, marks⟩ := found
      cases wrap with
      | mark m => exact holder h
      | rename rib =>
          simp only [resolveStep] at h
          split at h
          · cases h
          · exact holder h
      | space ns =>
          simp only [resolveStep] at h
          split at h
          · exact holder h
          · split at h
            · rename_i d hd
              cases h
              obtain ⟨here, hkey⟩ := exists_cell?_of_substitute? hd
              exact .inl ⟨ns, _, List.mem_cons_self, rfl, hkey⟩
            · exact holder h
      | moduleRename ns =>
          simp only [resolveStep] at h
          split at h
          · exact holder h
          · obtain ⟨d, hd, hsame⟩ := Option.map_eq_some_iff.1 h
            cases hsame
            rw [Spaces.substitute?_plain] at hd
            exact .inr ⟨ns, List.mem_cons_self, hd⟩

/-- A cell that an identifier of the module leads to is one of the module, which is filed under the
name, or that of a name which expansion has put there. -/
theorem Syntax.Local.cell {kernel : NamespaceId} {spaces : Spaces} {stx : Syntax}
    (h : stx.Local ρ kernel) {name : String} (hname : stx.symbol? = some name) {c : CellRef}
    (hc : spaces.resolve stx = some (.cell c)) :
    (∃ key, key.name = name ∧ spaces.cell? ρ.space key = some c) ∨
      name ∈ keywords ∧ spaces.cell? kernel (plainKey name) = some c := by
  rw [Spaces.resolve_of_binding_eq_none h.binding, Spaces.resolveWithMarks, hname] at hc
  rcases Spaces.cell_of_resolveWraps hc with ⟨ns, key, hmem, hkey⟩ | ⟨ns, hmem, hkey⟩
  · cases h.wraps _ hmem
    exact .inl ⟨key, hkey⟩
  · cases h.wraps _ hmem
    refine .inr ⟨?_, hkey⟩
    cases h with
    | keyword hkeyword =>
        cases hname
        exact hkeyword
    | atom hwraps | group hwraps | record hwraps => exact absurd rfl ((hwraps _ hmem).2.2 _)

/-- What an identifier of the module denotes: a core form that expansion has put there, or else a
definition of the module at its reserved address, or something that the module does not define. -/
theorem Sides.Reserves.denoted (hnames : σ.Reserves ρ names) {w w' : World} (hw : w.Twins σ ρ w')
    {stx : Syntax} (hstx : stx.Local ρ σ.kernel) {name : String} (hname : stx.symbol? = some name) :
    ((∃ f, coreForm? σ.first stx = some f) ∧
        ∀ d, w.spaces.denoted stx name = .defined d → d.owner ≠ ρ.space) ∨
      (∃ x, w.spaces.denoted stx name = .free x) ∨
      (∃ v, w.spaces.denoted stx name = .lexical v ∧ ρ.oldRib ≤ v.rib) ∨
      (∃ d, w.spaces.denoted stx name = .defined d ∧ d.owner = ρ.space ∧
        names[d.address]? = some name) ∨
      ∃ i, w.spaces.denoted stx name = .required i ∧ σ.first.OfKernel σ.kernel i.provided.target ∧
        name ∉ names := by
  have hcells := hw.first.cells
  obtain ⟨-, hlocal⟩ := hw.spaces.resolve hstx
  rw [Spaces.denoted]
  cases hbinding : w.spaces.resolve stx with
  | none => exact .inr (.inl ⟨name, rfl⟩)
  | some b =>
      rw [Option.getD_some]
      cases b with
      | free x => exact .inr (.inl ⟨x, rfl⟩)
      | lexical v => exact .inr (.inr (.inl ⟨v, rfl, hlocal _ hbinding⟩))
      | cell c =>
          rw [Spaces.resolve_congr hcells] at hbinding
          rw [Spaces.denote_congr hcells]
          -- The cell is in the namespace of the module, or holds a keyword of the kernel.
          rcases hstx.cell hname hbinding with ⟨key, rfl, hkey⟩ | ⟨hkeyword, hkey⟩
          · rw [Spaces.denote]
            cases hcontent : σ.first.content? c with
            | none => exact .inr (.inl ⟨"", rfl⟩)
            | some content =>
                cases content with
                | defined d =>
                    exact .inr (.inr (.inr (.inl ⟨d, rfl, hnames.own.defined hkey hcontent⟩)))
                | required i =>
                    obtain ⟨howner, hnew⟩ := hnames.own.required hkey hcontent
                    refine .inr (.inr (.inr (.inr ⟨i, rfl, ?_, hnew⟩)))
                    have hc : (Binding.cell c).Local ρ σ.kernel := .inl (Spaces.owner_of_cell? hkey)
                    exact (hw.base.target_of_content hc hcontent).resolve_left howner
          · obtain ⟨f, hf⟩ := hnames.keyword name hkeyword c hkey
            refine .inl ⟨⟨f, ?_⟩, fun d hd => ?_⟩
            · rw [coreForm?, headValue?, Syntax.isIdentifier, hname, hbinding]
              simp only [Option.isSome_some, if_true, hf]
            · have hc : (Binding.cell c).Local ρ σ.kernel := .inr (Spaces.owner_of_cell? hkey)
              rw [Spaces.denote] at hd
              split at hd
              · rename_i d' hcontent
                cases hd
                obtain ⟨owner, i⟩ := c
                obtain rfl : owner = σ.kernel := Spaces.owner_of_cell? hkey
                have howner : d.owner = σ.kernel := (hw.base.language i _ hcontent).owner
                exact howner ▸ hw.base.apart
              · cases hd
              · cases hd

/-! ## Computations side by side -/

theorem World.Twins.relabel {w w' : World} (h : w.Twins σ ρ w') (next next' : Nat) :
    World.Twins σ ρ { w with nextLabel := next } { w' with nextLabel := next' } :=
  ⟨h.runtime, h.runtime', h.ribs, h.base, h.first, h.second⟩

theorem agree_stampSyntax (stx : Syntax) :
    AgreeTwins σ ρ (fun s s' => s'.unlabelled = (s.renumber ρ).unlabelled) (stampSyntax stx)
      (stampSyntax (stx.renumber ρ)) := by
  intro w w' hw
  rw [stampSyntax_apply, stampSyntax_apply]
  refine .ok (hw.relabel _ _) ?_
  rw [Syntax.unlabelled_stamp, Syntax.unlabelled_renumber, Syntax.unlabelled_renumber,
    Syntax.unlabelled_stamp]

/-- A quotation is compiled to its data. -/
theorem agree_quotation (stx : Syntax) :
    AgreeTwins σ ρ (fun v v' => Code.Paired ρ names (.constant v) (.constant v'))
      (stampValue stx.toDatum) (stampValue stx.toDatum) := by
  have hdatum (next : Nat) (address : Nat → Nat) (embedded : Syntax → Syntax) :
      (Code.constant (stx.toDatum.stamp next).1).transport address embedded =
        .constant stx.toDatum.erased := by
    rw [← Value.erased_stamp stx.toDatum next]
    cases stx with
    | atom c a =>
        rw [Syntax.toDatum]
        rfl
    | group c shape items =>
        rw [Syntax.toDatum, Value.stamp]
        rfl
    | record c fields =>
        rw [Syntax.toDatum, Value.stamp]
        split <;> rfl
  intro w w' hw
  rw [stampValue_apply, stampValue_apply]
  exact .ok (hw.relabel _ _) (.constant ((hdatum _ _ _).trans (hdatum _ _ _).symm))

theorem Spaces.Twins.ofKernel {kernel : NamespaceId} {spaces spaces' : Spaces}
    (h : spaces.Twins ρ kernel spaces') {d : Definition} (hd : spaces.OfKernel kernel d) :
    spaces'.OfKernel kernel d :=
  hd.congr h.kernel_space

/-- The kernel has the same short name in both runs. -/
theorem agree_importId {d : Definition} (hd : σ.first.OfKernel σ.kernel d) :
    AgreeTwins σ ρ Eq (importId ρ.space d) (importId ρ.space d) := by
  intro w w' hw
  obtain ⟨space, space', hspace, hspace', -⟩ := hw.spaces.own
  have hapart := hw.base.apart
  obtain ⟨after, hrun, hfirst⟩ := hw.first.importId hapart hspace (hw.first.ofKernel hapart hd)
  obtain ⟨after', hrun', hsecond⟩ := hw.second.importId hapart hspace'
    (hw.second.ofKernel hapart (hw.base.ofKernel hd))
  rw [importId_apply, importId_apply, hrun, hrun']
  exact .ok ⟨hw.runtime, hw.runtime', hw.ribs, hw.base, hfirst, hsecond⟩ rfl

/-- The ribs of the scopes are new. -/
def LocalScopes (ρ : Renumbering) (scopes : Scopes) : Prop := ∀ rib, some rib ∈ scopes → ρ.oldRib ≤ rib

/-- The scopes under other numbers. -/
def renumberScopes (ρ : Renumbering) (scopes : Scopes) : Scopes := scopes.map (Option.map ρ.rib)

/-- Expressions of the module are compiled alike, each in its scopes. -/
def CompilesTwins (σ : Sides) (ρ : Renumbering) (names : List String)
    (compile : Scopes → Syntax → RunM Code) : Prop :=
  ∀ scopes stx, LocalScopes ρ scopes → stx.Local ρ σ.kernel → Expression σ.first stx →
    AgreeTwins σ ρ (Code.Paired ρ names) (compile scopes stx)
      (compile (renumberScopes ρ scopes) (stx.renumber ρ))

section

variable {scopes : Scopes} (hscopes : LocalScopes ρ scopes)

/-! ## Identifiers -/

/-- A definition of the module or of the kernel. -/
theorem agree_definitionRef {d : Definition} {name : String}
    (hd : d.owner = ρ.space ∧ names[d.address]? = some name ∨
      σ.first.OfKernel σ.kernel d ∧ d.owner ≠ ρ.space ∧ name ∉ names) :
    AgreeTwins σ ρ (Code.Paired ρ names) (definitionRef ρ.space d name)
      (definitionRef ρ.space (d.renumber ρ) name) := by
  rw [definitionRef, definitionRef, Definition.renumber]
  rcases hd with ⟨howner, hreserved⟩ | ⟨hkernel, hforeign, hnew⟩
  · simp only [howner, if_true]
    exact .pure (.topRef hreserved)
  · simp only [hforeign, if_false]
    refine (agree_importId hkernel).bind fun id _ hid => .pure ?_
    cases hid
    exact .importRef hnew id d.address

include hscopes

/-- A frame is found as many frames up. -/
theorem agree_depthOf {rib : RibId} (hrib : ρ.oldRib ≤ rib) (stx stx' : Syntax) :
    AgreeTwins σ ρ Eq (depthOf scopes rib stx) (depthOf (renumberScopes ρ scopes) (ρ.rib rib) stx') := by
  have hfound : (renumberScopes ρ scopes).findIdx? (· = some (ρ.rib rib)) =
      scopes.findIdx? (· = some rib) := by
    rw [renumberScopes, List.findIdx?_map]
    induction scopes with
    | nil => rfl
    | cons scope rest ih =>
        have hsame : (Option.map ρ.rib scope = some (ρ.rib rib)) = (scope = some rib) := by
          cases scope with
          | none => simp
          | some other =>
              simp [Renumbering.rib_inj (hscopes other List.mem_cons_self) hrib]
        rw [List.findIdx?_cons, List.findIdx?_cons,
          ih fun other hother => hscopes other (List.mem_cons_of_mem _ hother)]
        simp only [Function.comp_apply, hsame]
  rw [depthOf, depthOf, hfound]
  cases scopes.findIdx? (· = some rib) with
  | none => exact .failAt _ _ _ _
  | some depth => exact .pure rfl

/-- An identifier that stands for a value. -/
theorem agree_reference (hnames : σ.Reserves ρ names) {stx : Syntax} (hstx : stx.Local ρ σ.kernel)
    (hvalue : coreForm? σ.first stx = none) {name : String} (hname : stx.symbol? = some name) :
    AgreeTwins σ ρ (Code.Paired ρ names) (reference ρ.space scopes stx name)
      (reference ρ.space (renumberScopes ρ scopes) (stx.renumber ρ) name) := by
  refine .getSpaces_bind fun w w' hw => ?_
  rw [hw.spaces.denoted hstx name]
  rcases hnames.denoted hw hstx hname with ⟨⟨f, hf⟩, -⟩ | ⟨x, hx⟩ | ⟨v, hv, hrib⟩ |
    ⟨d, hd, howner, hreserved⟩ | ⟨i, hi, hkernel, hnew⟩
  · cases hvalue.symm.trans hf
  · -- A module allows no free names.
    obtain ⟨space, space', hspace, hspace', htwins, -⟩ := hw.spaces.own
    rw [hx]
    simp only [ Denotation.renumber, hspace, hspace', Namespace.allowsFree, htwins.isModule,
      htwins.isModule', reduceCtorEq, decide_false, Bool.false_eq_true, if_false]
    exact .fail _ _
  · rw [hv]
    refine (agree_depthOf hscopes hrib stx _).bind fun depth _ hdepth => .pure ?_
    cases hdepth
    exact .localRef depth v.slot name
  · rw [hd]
    exact agree_definitionRef (.inl ⟨howner, hreserved⟩)
  · rw [hi]
    refine agree_definitionRef (.inr ⟨hkernel, ?_, hnew⟩)
    exact hkernel.owner ▸ hw.base.apart

omit hscopes in
theorem agree_operand {form form' : Syntax} (parts : List Syntax) (position : Nat) :
    AgreeTwins σ ρ (fun part part' => parts[position]? = some part ∧ part' = part.renumber ρ)
      (operand form parts position) (operand form' (parts.map (Syntax.renumber ρ)) position) := by
  rw [operand, operand, List.getElem?_map]
  cases hpart : parts[position]? with
  | none => exact .failAt _ _ _ _
  | some part => exact .pure ⟨rfl, rfl⟩

/-- The scopes inside a frame. -/
theorem agree_enterScope {binders : List Syntax} (hbinders : ∀ stx ∈ binders, stx.Local ρ σ.kernel) :
    AgreeTwins σ ρ (fun inner inner' => LocalScopes ρ inner ∧ inner' = renumberScopes ρ inner)
      (enterScope scopes binders)
      (enterScope (renumberScopes ρ scopes) (binders.map (Syntax.renumber ρ))) := by
  cases binders with
  | nil => exact .pure ⟨fun rib hrib => hscopes rib (by simpa using hrib), rfl⟩
  | cons first rest =>
      refine .getSpaces_bind fun w w' hw => ?_
      obtain ⟨hsame, hlocal⟩ := hw.spaces.resolve (List.forall_mem_cons.1 hbinders).1
      rw [hsame]
      cases hbinding : w.spaces.resolve first with
      | none => exact .failAt _ _ _ _
      | some b =>
          cases b with
          | free | cell => exact .failAt _ _ _ _
          | lexical v =>
              refine .pure ⟨fun rib hrib => ?_, rfl⟩
              rcases List.mem_cons.1 hrib with hrib | hrib
              · cases hrib
                exact hlocal _ hbinding
              · exact hscopes rib hrib

end

/-! ## Parts of forms -/

section

variable {compile : Scopes → Syntax → RunM Code} (hcompile : CompilesTwins σ ρ names compile)
  {scopes : Scopes} (hscopes : LocalScopes ρ scopes)

/-- The two parts of each clause. -/
theorem agree_clauses (fault : SyntaxFault) {items : List Syntax}
    (hlocal : ∀ stx ∈ items, stx.Local ρ σ.kernel)
    (hinits : ∀ part ∈ items.flatMap (fun clause => clause.subforms.drop 1), Expression σ.first part) :
    AgreeTwins σ ρ (fun pairs pairs' => PairsTwin σ ρ pairs pairs' ∧
        ∀ pair ∈ pairs, Expression σ.first pair.2)
      (clauses fault items) (clauses fault (items.map (Syntax.renumber ρ))) := by
  induction items with
  | nil => exact .pure ⟨⟨nofun, rfl⟩, nofun⟩
  | cons clause rest ih =>
      obtain ⟨hclause, hrest⟩ := List.forall_mem_cons.1 hlocal
      rw [List.flatMap_cons, List.forall_mem_append] at hinits
      have hparts := hclause.subforms
      obtain ⟨hfirst, hinits⟩ := hinits
      rw [List.map_cons, clauses, clauses, Syntax.subforms_renumber]
      generalize clause.subforms = parts at hparts hfirst
      rcases parts with _ | ⟨first, _ | ⟨second, _ | ⟨third, more⟩⟩⟩
      · exact .failAt _ _ _ _
      · exact .failAt _ _ _ _
      · refine (ih hrest hinits).bind fun pairs _ hpairs => .pure ?_
        obtain ⟨⟨hpairsLocal, rfl⟩, hexpressions⟩ := hpairs
        exact ⟨⟨List.forall_mem_cons.2 ⟨Syntax.forall_local_pair.1 hparts, hpairsLocal⟩, rfl⟩,
          List.forall_mem_cons.2 ⟨List.forall_mem_singleton.1 hfirst, hexpressions⟩⟩
      · exact .failAt _ _ _ _

include hcompile hscopes

theorem agree_all {forms : List Syntax} (hlocal : ∀ stx ∈ forms, stx.Local ρ σ.kernel)
    (hexpression : ∀ stx ∈ forms, Expression σ.first stx) :
    AgreeTwins σ ρ (List.Forall₂ (Code.Paired ρ names)) (all compile scopes forms)
      (all compile (renumberScopes ρ scopes) (forms.map (Syntax.renumber ρ))) := by
  induction forms with
  | nil => exact .pure .nil
  | cons stx rest ih =>
      obtain ⟨hstx, hrest⟩ := List.forall_mem_cons.1 hlocal
      obtain ⟨hfirst, hothers⟩ := List.forall_mem_cons.1 hexpression
      refine (hcompile scopes stx hscopes hstx hfirst).bind fun code code' hcode => ?_
      exact (ih hrest hothers).bind fun codes codes' hcodes => .pure (.cons hcode hcodes)

theorem agree_fields {fields : List (String × Syntax)}
    (hlocal : ∀ field ∈ fields, field.2.Local ρ σ.kernel)
    (hexpression : ∀ field ∈ fields, Expression σ.first field.2) :
    AgreeTwins σ ρ (List.Forall₂ fun (field field' : String × Code) => field'.1 = field.1 ∧
        Code.Paired ρ names field.2 field'.2)
      (Compile.fields compile scopes fields)
      (Compile.fields compile (renumberScopes ρ scopes)
        (fields.map fun field => (field.1, field.2.renumber ρ))) := by
  induction fields with
  | nil => exact .pure .nil
  | cons field rest ih =>
      obtain ⟨hfield, hrest⟩ := List.forall_mem_cons.1 hlocal
      obtain ⟨hfirst, hothers⟩ := List.forall_mem_cons.1 hexpression
      refine (hcompile scopes field.2 hscopes hfield hfirst).bind fun code code' hcode => ?_
      exact (ih hrest hothers).bind fun codes codes' hcodes => .pure (.cons ⟨rfl, hcode⟩ hcodes)

theorem agree_pairs {items : List Syntax} (hlocal : ∀ stx ∈ items, stx.Local ρ σ.kernel)
    (hexpression : ∀ part ∈ items.flatMap Syntax.subforms, Expression σ.first part) :
    AgreeTwins σ ρ (List.Forall₂ fun (pair pair' : Code × Code) => Code.Paired ρ names pair.1 pair'.1 ∧
        Code.Paired ρ names pair.2 pair'.2)
      (pairs compile scopes items)
      (pairs compile (renumberScopes ρ scopes) (items.map (Syntax.renumber ρ))) := by
  induction items with
  | nil => exact .pure .nil
  | cons clause rest ih =>
      obtain ⟨hclause, hrest⟩ := List.forall_mem_cons.1 hlocal
      rw [List.flatMap_cons, List.forall_mem_append] at hexpression
      have hparts := hclause.subforms
      obtain ⟨hfirst, hothers⟩ := hexpression
      rw [List.map_cons, pairs, pairs, Syntax.subforms_renumber]
      generalize clause.subforms = parts at hparts hfirst
      rcases parts with _ | ⟨parameter, _ | ⟨value, _ | ⟨third, more⟩⟩⟩
      · exact .failAt _ _ _ _
      · exact .failAt _ _ _ _
      · obtain ⟨hparameter, hvalue⟩ := Syntax.forall_local_pair.1 hparts
        rw [List.forall_mem_cons, List.forall_mem_singleton] at hfirst
        refine (hcompile scopes parameter hscopes hparameter hfirst.1).bind fun p p' hp => ?_
        refine (hcompile scopes value hscopes hvalue hfirst.2).bind fun v v' hv => ?_
        exact (ih hrest hothers).bind fun codes codes' hcodes => .pure (.cons ⟨hp, hv⟩ hcodes)
      · exact .failAt _ _ _ _

theorem agree_body {forms : List Syntax} (hlocal : ∀ stx ∈ forms, stx.Local ρ σ.kernel)
    (hexpression : ∀ stx ∈ forms, Expression σ.first stx) :
    AgreeTwins σ ρ (Code.Paired ρ names) (body compile scopes forms)
      (body compile (renumberScopes ρ scopes) (forms.map (Syntax.renumber ρ))) := by
  have hall := agree_all hcompile hscopes hlocal hexpression
  rcases forms with _ | ⟨first, _ | ⟨second, rest⟩⟩
  · exact .pure .void
  · exact hcompile scopes first hscopes (List.forall_mem_singleton.1 hlocal)
      (List.forall_mem_singleton.1 hexpression)
  · exact hall.bind fun codes codes' hcodes => .pure (.sequence hcodes)

/-! ## Core forms -/

variable {parts : List Syntax} (hlocal : ∀ part ∈ parts, part.Local ρ σ.kernel)

include hlocal

theorem agree_compileLambda (form form' : Syntax)
    (hbody : ∀ part ∈ parts.drop 2, Expression σ.first part) (name : Option String) :
    AgreeTwins σ ρ (Code.Paired ρ names) (Compile.lambda compile scopes form parts name)
      (Compile.lambda compile (renumberScopes ρ scopes) form' (parts.map (Syntax.renumber ρ)) name) := by
  refine (agree_operand parts 1).bind fun formals _ hformals => ?_
  obtain ⟨hmem, rfl⟩ := hformals
  have hformals := hlocal formals (List.mem_of_getElem? hmem)
  have hbinders : ∀ stx ∈ (if formals.isIdentifier then [formals] else formals.subforms),
      stx.Local ρ σ.kernel := by
    split
    · exact List.forall_mem_singleton.2 hformals
    · exact hformals.subforms
  have hmap : (if formals.isIdentifier then [formals.renumber ρ] else (formals.renumber ρ).subforms) =
      (if formals.isIdentifier then [formals] else formals.subforms).map (Syntax.renumber ρ) := by
    rw [Syntax.subforms_renumber]
    split <;> rfl
  simp only [Syntax.isIdentifier_renumber]
  rw [hmap, List.length_map]
  refine (agree_enterScope hscopes hbinders).bind fun inner _ hinner => ?_
  obtain ⟨hinner, rfl⟩ := hinner
  rw [← List.map_drop]
  have hlocalBody : ∀ part ∈ parts.drop 2, part.Local ρ σ.kernel :=
    fun part hpart => hlocal part (List.mem_of_mem_drop hpart)
  exact (agree_body hcompile hinner hlocalBody hbody).bind fun code code' hcode =>
    .pure (.lambda hcode _ _ _)

theorem agree_compileBinding (form form' : Syntax) (recursive : Bool)
    (h : ∀ part ∈ (clausesOf parts).flatMap (fun clause => clause.subforms.drop 1) ++ parts.drop 2,
      Expression σ.first part) :
    AgreeTwins σ ρ (Code.Paired ρ names) (binding compile scopes form parts recursive)
      (binding compile (renumberScopes ρ scopes) form' (parts.map (Syntax.renumber ρ)) recursive) := by
  obtain ⟨hclauses, hbody⟩ := List.forall_mem_append.1 h
  refine (agree_operand parts 1).bind fun clauses _ hfirst => ?_
  obtain ⟨hmem, rfl⟩ := hfirst
  have hitems := (hlocal clauses (List.mem_of_getElem? hmem)).subforms
  rw [show clausesOf parts = clauses.subforms by simp [clausesOf, hmem]] at hclauses
  rw [Syntax.subforms_renumber, ← List.map_drop]
  refine (agree_clauses _ hitems hclauses).bind fun pairs _ hpairs => ?_
  obtain ⟨hpairs, hinits⟩ := hpairs
  obtain ⟨hids, hids'⟩ := hpairs.firsts
  obtain ⟨hinitsLocal, hinits'⟩ := hpairs.seconds
  have hinits := List.forall_mem_map.2 hinits
  rw [hids', hinits']
  have hlocalBody : ∀ part ∈ parts.drop 2, part.Local ρ σ.kernel :=
    fun part hpart => hlocal part (List.mem_of_mem_drop hpart)
  -- A `letrec` enters its scope before it compiles the expressions, a `let` afterwards.
  cases recursive with
  | true =>
      refine (agree_enterScope hscopes hids).bind fun inner _ hinner => ?_
      obtain ⟨hinner, rfl⟩ := hinner
      refine (agree_all hcompile hinner hinitsLocal hinits).bind fun codes codes' hcodes => ?_
      exact (agree_body hcompile hinner hlocalBody hbody).bind fun code code' hcode =>
        .pure (.letrec hcodes hcode)
  | false =>
      refine (agree_all hcompile hscopes hinitsLocal hinits).bind fun codes codes' hcodes => ?_
      refine (agree_enterScope hscopes hids).bind fun inner _ hinner => ?_
      obtain ⟨hinner, rfl⟩ := hinner
      exact (agree_body hcompile hinner hlocalBody hbody).bind fun code code' hcode =>
        .pure (.letIn hcodes hcode)

theorem agree_assignment (hnames : σ.Reserves ρ names) (form form' : Syntax)
    (h : ∀ part ∈ parts.drop 2, Expression σ.first part) :
    AgreeTwins σ ρ (Code.Paired ρ names) (assignment ρ.space compile scopes form parts)
      (assignment ρ.space compile (renumberScopes ρ scopes) form' (parts.map (Syntax.renumber ρ))) := by
  refine (agree_operand parts 1).bind fun target _ htarget => ?_
  obtain ⟨hmem, rfl⟩ := htarget
  have htarget := hlocal target (List.mem_of_getElem? hmem)
  refine (agree_operand parts 2).bind fun value _ hvalue => ?_
  obtain ⟨hmemValue, rfl⟩ := hvalue
  have hvalue : value ∈ parts.drop 2 :=
    List.mem_of_getElem? (i := 0) (by rw [List.getElem?_drop]; exact hmemValue)
  refine (hcompile scopes value hscopes (hlocal value (List.mem_of_getElem? hmemValue))
    (h value hvalue)).bind fun code code' hcode => ?_
  rw [Syntax.symbol?_renumber]
  cases hname : target.symbol? with
  | none => exact .failAt _ _ _ _
  | some name =>
      refine .getSpaces_bind fun w w' hw => ?_
      rw [hw.spaces.denoted htarget name]
      rcases hnames.denoted hw htarget hname with ⟨-, hforeign⟩ | ⟨x, hx⟩ | ⟨v, hv, hrib⟩ |
        ⟨d, hd, howner, hreserved⟩ | ⟨i, hi, -, -⟩
      · -- What expansion has put there cannot be assigned to.
        cases hdenoted : w.spaces.denoted target name with
        | free x => exact .fail _ _
        | lexical v =>
            refine (agree_depthOf hscopes ?_ target _).bind fun depth _ hdepth => ?_
            · exact hw.spaces.rib_of_denoted htarget hdenoted
            · cases hdepth
              exact .pure (.localSet hcode depth v.slot)
        | defined d =>
            have howner := hforeign d hdenoted
            simp only [ Denotation.renumber, Definition.renumber, howner, if_false]
            exact .fail _ _
        | required i => exact .fail _ _
      · rw [hx]
        exact .fail _ _
      · rw [hv]
        refine (agree_depthOf hscopes hrib target _).bind fun depth _ hdepth => ?_
        cases hdepth
        exact .pure (.localSet hcode depth v.slot)
      · rw [hd]
        simp only [ Denotation.renumber, Definition.renumber, howner, if_true]
        exact .pure (.topSet hcode (List.getElem?_eq_some_iff.1 hreserved).1)
      · rw [hi]
        exact .fail _ _

/-- A core form that is an expression. -/
theorem agree_compileCore (hnames : σ.Reserves ρ names) (form form' : Syntax) {f : CoreForm}
    (hdefine : f ≠ .define) (hdefineSyntax : f ≠ .defineSyntax)
    (h : ∀ part ∈ f.operands parts, Expression σ.first part) :
    AgreeTwins σ ρ (Code.Paired ρ names) (Compile.core ρ.space compile scopes f form parts)
      (Compile.core ρ.space compile (renumberScopes ρ scopes) f form'
        (parts.map (Syntax.renumber ρ))) := by
  have hdrop (n : Nat) : ∀ part ∈ parts.drop n, part.Local ρ σ.kernel :=
    fun part hpart => hlocal part (List.mem_of_mem_drop hpart)
  cases f with
  | quote =>
      refine (agree_operand parts 1).bind fun datum _ hdatum => ?_
      obtain ⟨-, rfl⟩ := hdatum
      rw [Syntax.toDatum_renumber]
      exact (agree_quotation datum).bind fun v v' hv => .pure hv
  | quoteSyntax =>
      refine (agree_operand parts 1).bind fun datum _ hdatum => ?_
      obtain ⟨-, rfl⟩ := hdatum
      refine (agree_stampSyntax datum).bind fun s s' hs => .pure (.constant ?_)
      exact congrArg (Code.constant ∘ Value.stx) hs
  | ifForm =>
      have hpart {position : Nat} {part : Syntax} (hmem : parts[position + 1]? = some part) :
          AgreeTwins σ ρ (Code.Paired ρ names) (compile scopes part)
            (compile (renumberScopes ρ scopes) (part.renumber ρ)) := by
        refine hcompile scopes part hscopes (hlocal part (List.mem_of_getElem? hmem)) (h part ?_)
        refine List.mem_of_getElem? (i := position) ?_
        rw [CoreForm.operands, List.getElem?_drop, Nat.add_comm]
        exact hmem
      refine (agree_operand parts 1).bind fun test _ htest => ?_
      obtain ⟨hmem, rfl⟩ := htest
      refine (hpart hmem).bind fun c₁ c₁' h₁ => ?_
      refine (agree_operand parts 2).bind fun consequent _ hconsequent => ?_
      obtain ⟨hmem, rfl⟩ := hconsequent
      refine (hpart hmem).bind fun c₂ c₂' h₂ => ?_
      refine (agree_operand parts 3).bind fun alternative _ halternative => ?_
      obtain ⟨hmem, rfl⟩ := halternative
      exact (hpart hmem).bind fun c₃ c₃' h₃ => .pure (.branch h₁ h₂ h₃)
  | begin =>
      rw [Compile.core, Compile.core, ← List.map_drop]
      exact agree_body hcompile hscopes (hdrop 1) h
  | lambda => exact agree_compileLambda hcompile hscopes hlocal form form' h none
  | letForm => exact agree_compileBinding hcompile hscopes hlocal form form' false h
  | letrec => exact agree_compileBinding hcompile hscopes hlocal form form' true h
  | set => exact agree_assignment hcompile hscopes hlocal hnames form form' h
  | define => exact absurd rfl hdefine
  | defineSyntax => exact absurd rfl hdefineSyntax
  | parameterize =>
      obtain ⟨hclauses, hbody⟩ := List.forall_mem_append.1 h
      refine (agree_operand parts 1).bind fun clauses _ hfirst => ?_
      obtain ⟨hmem, rfl⟩ := hfirst
      rw [show clausesOf parts = clauses.subforms by simp [clausesOf, hmem]] at hclauses
      have hitems := (hlocal clauses (List.mem_of_getElem? hmem)).subforms
      rw [Syntax.subforms_renumber, ← List.map_drop]
      refine (agree_pairs hcompile hscopes hitems hclauses).bind fun bindings bindings' hbindings => ?_
      exact (agree_body hcompile hscopes (hdrop 2) hbody).bind fun code code' hcode =>
        .pure (.parameterize hbindings hcode)
  | moduleForm | require | provide => exact .pure .void

end

/-! ## Forms -/

/-- A sexp, whose head decides what it is compiled as. -/
theorem agree_sexp {compile : Scopes → Syntax → RunM Code} {scopes : Scopes} {stx head : Syntax}
    {rest : List Syntax} (hstx : stx.Local ρ σ.kernel) (hparts : stx.subforms? = some (head :: rest))
    (hcore : ∀ f, coreForm? σ.first head = some f → AgreeTwins σ ρ (Code.Paired ρ names)
      (Compile.core ρ.space compile scopes f stx (head :: rest))
      (Compile.core ρ.space compile (renumberScopes ρ scopes) f (stx.renumber ρ)
        ((head :: rest).map (Syntax.renumber ρ))))
    (happlication : coreForm? σ.first head = none → AgreeTwins σ ρ (Code.Paired ρ names)
      (do
        let operator ← compile scopes head
        let args ← all compile scopes rest
        return .apply operator args stx)
      (do
        let operator ← compile (renumberScopes ρ scopes) (head.renumber ρ)
        let args ← all compile (renumberScopes ρ scopes) (rest.map (Syntax.renumber ρ))
        return .apply operator args (stx.renumber ρ))) :
    AgreeTwins σ ρ (Code.Paired ρ names) (Compile.form ρ.space compile scopes stx)
      (Compile.form ρ.space compile (renumberScopes ρ scopes) (stx.renumber ρ)) := by
  have hhead := hstx.subforms? hparts head List.mem_cons_self
  have hsubforms : (stx.renumber ρ).subforms = head.renumber ρ :: rest.map (Syntax.renumber ρ) := by
    rw [Syntax.subforms_renumber, Syntax.subforms_of_subforms? hparts, List.map_cons]
  cases stx with
  | atom | record => cases hparts
  | group c shape items =>
      cases shape with
      | list => cases hparts
      | sexp =>
          rw [Syntax.renumber_group] at hsubforms hcore happlication ⊢
          rw [Compile.form, Compile.form, Syntax.subforms_of_subforms? hparts, hsubforms]
          refine .getSpaces_bind fun w w' hw => ?_
          rw [hw.spaces.coreForm? hhead, hw.coreForm?]
          cases hform : HygienicLisp.coreForm? σ.first head with
          | some f => exact hcore f hform
          | none => exact happlication hform

/-- Expressions of the module are compiled to the same, up to the numbers. -/
theorem agree_compileAt (hnames : σ.Reserves ρ names) (fuel : Nat) :
    CompilesTwins σ ρ names (compileAt ρ.space fuel) := by
  induction fuel with
  | zero => exact fun _ _ _ _ _ => .exhausted
  | succ fuel ih =>
      intro scopes e hscopes he hexpression
      rw [compileAt, compileAt]
      cases hexpression with
      | @atom c a hkind =>
          rw [Syntax.renumber_atom]
          cases a with
          | symbol name =>
              have hreference := agree_reference hscopes hnames he hkind rfl
              rwa [Syntax.renumber_atom] at hreference
          | _ => exact .pure (.atom _)
      | list hparts hall =>
          have hlocal := he.elements
          cases e with
          | atom | record => cases hparts
          | group c shape items =>
              cases shape with
              | sexp => cases hparts
              | list =>
                  cases hparts
                  have helements := Syntax.elements?_renumber (ρ := ρ) (.group c .list items)
                  rw [Syntax.renumber_group] at helements ⊢
                  rw [Compile.form, Compile.form, helements]
                  exact (agree_all ih hscopes hlocal hall).bind fun codes codes' hcodes =>
                    .pure (.listLiteral hcodes)
      | record hparts hall =>
          have hlocal := he.fields
          cases e with
          | atom | group => cases hparts
          | record c fields =>
              cases hparts
              have hfields := Syntax.fields?_renumber (ρ := ρ) (.record c fields)
              rw [Syntax.renumber_record] at hfields ⊢
              rw [Compile.form, Compile.form, hfields]
              exact (agree_fields ih hscopes hlocal hall).bind fun codes codes' hcodes =>
                .pure (.recordLiteral hcodes)
      | @application _ operator operands hparts hall =>
          obtain ⟨hoperator, hoperands⟩ := List.forall_mem_cons.1 hall
          obtain ⟨hlocal, hlocals⟩ := List.forall_mem_cons.1 (he.subforms? hparts)
          refine agree_sexp he hparts (fun f hf => ?_) fun _ => ?_
          -- The operator is an expression, so it is not the keyword of a core form.
          · cases hoperator.coreForm?.symm.trans hf
          refine (ih scopes operator hscopes hlocal hoperator).bind fun code code' hcode => ?_
          exact (agree_all ih hscopes hlocals hoperands).bind fun codes codes' hcodes =>
            .pure (.apply hcode hcodes e)
      | core hparts hhead hdefine hdefineSyntax hall =>
          refine agree_sexp he hparts (fun g hg => ?_) fun hnone => ?_
          · cases hhead.symm.trans hg
            exact agree_compileCore ih hscopes (he.subforms? hparts) hnames e _ hdefine
              hdefineSyntax hall
          · cases hhead.symm.trans hnone

end HygienicLisp
