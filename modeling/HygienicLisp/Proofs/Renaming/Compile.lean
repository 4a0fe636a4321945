import HygienicLisp.Proofs.Cells
import HygienicLisp.Proofs.Renaming.Expanded
import Mathlib.Algebra.GroupWithZero.Nat

/-!
# Two compilations of an expanded form

Compilation turns every identifier into an address, and the address depends on what the identifier
resolves to.  So the two spellings of an expanded form are compiled to code that is the same but
for the names that are recorded in it (`Code.Alike`), or neither is compiled.

Main statement: `agree_compile`.
-/

namespace HygienicLisp

/-! ## Code that is alike -/

/-- Data that differ in symbols only that `names` relates, and in embedded syntax.  Labels are
not compared: they tell one object from another and no program sees them. -/
inductive Value.Alike (names : String → String → Prop) : Value → Value → Prop
  | atom (a : Atom) : Alike names (.atom a) (.atom a)
  | symbol {x y : String} (h : names x y) : Alike names (.atom (.symbol x)) (.atom (.symbol y))
  | group {shape : Shape} {items₁ items₂ : List Value}
      (h : List.Forall₂ (Alike names) items₁ items₂) :
      Alike names (.group shape items₁) (.group shape items₂)
  | record {label₁ label₂ : Nat} {fields₁ fields₂ : List (String × Value)}
      (hkeys : fields₁.map (·.1) = fields₂.map (·.1))
      (h : List.Forall₂ (Alike names) (fields₁.map (·.2)) (fields₂.map (·.2))) :
      Alike names (.record label₁ fields₁) (.record label₂ fields₂)
  | stx (s₁ s₂ : Syntax) : Alike names (.stx s₁) (.stx s₂)

/-- Code of an expression that is the same but for the recorded names of local variables, for
embedded syntax, and for symbols in quoted data that `names` relates. -/
inductive Code.Alike (names : String → String → Prop) : Code → Code → Prop
  | constant {v₁ v₂ : Value} (h : v₁.Alike names v₂) : Alike names (.constant v₁) (.constant v₂)
  | void : Alike names .void .void
  | localRef {depth slot : Nat} {x y : String} :
      Alike names (.localRef depth slot x) (.localRef depth slot y)
  | topRef {address : Nat} {name : String} : Alike names (.topRef address name) (.topRef address name)
  | importRef {id address : Nat} {name : String} :
      Alike names (.importRef id address name) (.importRef id address name)
  | freeRef {name : String} {s₁ s₂ : Syntax} : Alike names (.freeRef name s₁) (.freeRef name s₂)
  | localSet {depth slot : Nat} {value₁ value₂ : Code} (h : Alike names value₁ value₂) :
      Alike names (.localSet depth slot value₁) (.localSet depth slot value₂)
  | topSet {address : Nat} {value₁ value₂ : Code} (h : Alike names value₁ value₂) :
      Alike names (.topSet address value₁) (.topSet address value₂)
  | branch {test₁ test₂ consequent₁ consequent₂ alternative₁ alternative₂ : Code}
      (htest : Alike names test₁ test₂) (hconsequent : Alike names consequent₁ consequent₂)
      (halternative : Alike names alternative₁ alternative₂) :
      Alike names (.branch test₁ consequent₁ alternative₁) (.branch test₂ consequent₂ alternative₂)
  | sequence {forms₁ forms₂ : List Code} (h : List.Forall₂ (Alike names) forms₁ forms₂) :
      Alike names (.sequence forms₁) (.sequence forms₂)
  | lambda {name : Option String} {required : Nat} {rest : Bool} {body₁ body₂ : Code}
      (h : Alike names body₁ body₂) :
      Alike names (.lambda name required rest body₁) (.lambda name required rest body₂)
  | letIn {inits₁ inits₂ : List Code} {body₁ body₂ : Code}
      (hinits : List.Forall₂ (Alike names) inits₁ inits₂) (hbody : Alike names body₁ body₂) :
      Alike names (.letIn inits₁ body₁) (.letIn inits₂ body₂)
  | letrec {inits₁ inits₂ : List Code} {body₁ body₂ : Code}
      (hinits : List.Forall₂ (Alike names) inits₁ inits₂) (hbody : Alike names body₁ body₂) :
      Alike names (.letrec inits₁ body₁) (.letrec inits₂ body₂)
  | apply {operator₁ operator₂ : Code} {operands₁ operands₂ : List Code} {call₁ call₂ : Syntax}
      (hoperator : Alike names operator₁ operator₂)
      (hoperands : List.Forall₂ (Alike names) operands₁ operands₂) :
      Alike names (.apply operator₁ operands₁ call₁) (.apply operator₂ operands₂ call₂)
  | parameterize {bindings₁ bindings₂ : List (Code × Code)} {body₁ body₂ : Code}
      (hparameters : List.Forall₂ (Alike names) (bindings₁.map (·.1)) (bindings₂.map (·.1)))
      (hvalues : List.Forall₂ (Alike names) (bindings₁.map (·.2)) (bindings₂.map (·.2)))
      (hbody : Alike names body₁ body₂) :
      Alike names (.parameterize bindings₁ body₁) (.parameterize bindings₂ body₂)
  | listLiteral {elements₁ elements₂ : List Code}
      (h : List.Forall₂ (Alike names) elements₁ elements₂) :
      Alike names (.listLiteral elements₁) (.listLiteral elements₂)
  | recordLiteral {fields₁ fields₂ : List (String × Code)}
      (hkeys : fields₁.map (·.1) = fields₂.map (·.1))
      (h : List.Forall₂ (Alike names) (fields₁.map (·.2)) (fields₂.map (·.2))) :
      Alike names (.recordLiteral fields₁) (.recordLiteral fields₂)

/-! ## Quoted data -/

namespace Syntax

theorem toDatum_addWraps (newer : List Wrap) (stx : Syntax) :
    (stx.addWraps newer).toDatum = stx.toDatum := by
  induction newer with
  | nil => rfl
  | cons wrap newer ih =>
      rw [addWraps_cons, ← ih]
      cases stx.addWraps newer <;> rfl

/-- The data of a sequence are the data of its parts. -/
theorem toDatum_group (c : Context) (shape : Shape) (items : List Syntax) :
    (group c shape items).toDatum =
      .group shape ((items.map (.addWraps c.wraps)).map toDatum) := by
  rw [toDatum, toDatumAll_eq, List.map_map]
  refine congrArg _ (List.map_congr_left fun stx _ => ?_)
  exact (toDatum_addWraps c.wraps stx).symm

/-- The data of a record are the data of its fields. -/
theorem toDatum_of_fields? {stx : Syntax} {fields : List (String × Syntax)}
    (h : stx.fields? = some fields) :
    stx.toDatum = .record 0 (fields.map fun field => (field.1, field.2.toDatum)) := by
  match stx, h with
  | record c raw, h =>
      obtain rfl := Option.some.inj h
      rw [toDatum, toDatumFields_eq, List.map_map]
      refine congrArg _ (List.map_congr_left fun field _ => ?_)
      simp only [Function.comp_apply, toDatum_addWraps]

end Syntax

namespace Setting

variable {σ : Setting}

variable (σ) in
/-- The data of the forms are alike, whatever labels their copies get. -/
def DataAlike (stx₁ stx₂ : Syntax) : Prop :=
  ∀ next₁ next₂, ((stx₁.toDatum.stamp next₁).1).Alike σ.Names (stx₂.toDatum.stamp next₂).1

theorem alike_stampAll {Ts : List TwinTree}
    (hTs : ∀ T ∈ Ts, ∀ stx₁ stx₂, Spells T stx₁ stx₂ → σ.DataAlike stx₁ stx₂)
    {forms₁ forms₂ : List Syntax} (hspells : SpellsAll Ts forms₁ forms₂) (next₁ next₂ : Nat) :
    List.Forall₂ (Value.Alike σ.Names) (Value.stampAll (forms₁.map Syntax.toDatum) next₁).1
      (Value.stampAll (forms₂.map Syntax.toDatum) next₂).1 := by
  induction hspells generalizing next₁ next₂ with
  | nil => exact .nil
  | cons head _ ih =>
      obtain ⟨hfirst, hrest⟩ := List.forall_mem_cons.1 hTs
      exact .cons (hfirst _ _ head next₁ next₂) (ih hrest _ _)

theorem alike_stampFields {Ts : List (String × TwinTree)}
    (hTs : ∀ T ∈ Ts, ∀ stx₁ stx₂, Spells T.2 stx₁ stx₂ → σ.DataAlike stx₁ stx₂)
    {fields₁ fields₂ : List (String × Syntax)} (hspells : SpellsFields Ts fields₁ fields₂)
    (label₁ label₂ next₁ next₂ : Nat) :
    (Value.record label₁
      (Value.stampFields (fields₁.map fun field => (field.1, field.2.toDatum)) next₁).1).Alike σ.Names
    (Value.record label₂
      (Value.stampFields (fields₂.map fun field => (field.1, field.2.toDatum)) next₂).1) := by
  suffices h : (Value.stampFields (fields₁.map fun field => (field.1, field.2.toDatum)) next₁).1.map
        (·.1) =
      (Value.stampFields (fields₂.map fun field => (field.1, field.2.toDatum)) next₂).1.map (·.1) ∧
      List.Forall₂ (Value.Alike σ.Names)
        ((Value.stampFields (fields₁.map fun field => (field.1, field.2.toDatum)) next₁).1.map (·.2))
        ((Value.stampFields (fields₂.map fun field => (field.1, field.2.toDatum)) next₂).1.map (·.2))
    from .record h.1 h.2
  induction hspells generalizing next₁ next₂ with
  | nil => exact ⟨rfl, .nil⟩
  | cons head _ ih =>
      obtain ⟨hfirst, hrest⟩ := List.forall_mem_cons.1 hTs
      obtain ⟨hkeys, hvalues⟩ := ih hrest _ _
      exact ⟨congrArg (List.cons _) hkeys, .cons (hfirst _ _ head next₁ next₂) hvalues⟩

/-- The data of two spellings of a form are alike. -/
theorem dataAlike_of_spells {T : TwinTree} (hT : T.All σ.Spelled) {stx₁ stx₂ : Syntax}
    (hspells : Spells T stx₁ stx₂) : σ.DataAlike stx₁ stx₂ := by
  intro next₁ next₂
  induction hT generalizing stx₁ stx₂ next₁ next₂ with
  | @leaf a ha =>
      obtain ⟨hleft, hright⟩ := hspells.leaf
      obtain ⟨c₁, rfl, -⟩ := Syntax.view_eq_leaf hleft
      obtain ⟨c₂, rfl, -⟩ := Syntax.view_eq_leaf hright
      cases ha with
      | data hdata _ =>
          simp only [hdata]
          exact .atom _
      | name hx hy hnames =>
          simp only [ContextAtom.data_eq_of_symbol? hx, ContextAtom.data_eq_of_symbol? hy]
          exact .symbol hnames
  | group _ ih =>
      obtain ⟨c₁, items₁, c₂, items₂, rfl, rfl, hall⟩ := hspells.parts
      rw [Syntax.toDatum_group, Syntax.toDatum_group]
      exact .group (alike_stampAll (fun T hT stx₁ stx₂ h => ih T hT h) hall next₁ next₂)
  | record _ ih =>
      obtain ⟨c₁, raw₁, c₂, raw₂, fields₁, fields₂, rfl, rfl, h₁, h₂, hall⟩ := hspells.fields
      rw [Syntax.toDatum_of_fields? h₁, Syntax.toDatum_of_fields? h₂]
      exact alike_stampFields (fun T hT stx₁ stx₂ h => ih T hT h) hall _ _ _ _

/-! ## What both compilations read -/

variable (σ) in
/-- Worlds with the same namespaces, in which identifiers mean what they mean in the setting. -/
structure Reading (w₁ w₂ : World) : Prop where
  same : w₁.spaces = w₂.spaces
  cells : w₁.spaces.cells = σ.spaces.cells
  values : ∀ ns address, w₁.spaces.value? ns address = σ.spaces.value? ns address

theorem Twins.reading {n : Mark} {w₁ w₂ : World} (h : σ.Twins n w₁ w₂) : σ.Reading w₁ w₂ where
  same := h.left.spaces.trans h.right.spaces.symm
  cells := congrArg Spaces.cells h.left.spaces
  values ns address := by
    rw [h.left.spaces]
    rfl

theorem Reading.leafBinding {w₁ w₂ : World} (h : σ.Reading w₁ w₂) (a : ContextAtom) :
    w₁.spaces.leafBinding a = σ.spaces.leafBinding a := by
  rw [Spaces.leafBinding, Spaces.leafBinding]
  cases a.symbol? with
  | none => rfl
  | some name => simp only [Spaces.resolveWraps_congr_cells h.cells]

/-- Identifiers that resolve alike denote the same, under the same name or as local variables. -/
theorem Reading.denoted {w₁ w₂ : World} (h : σ.Reading w₁ w₂) {a : ContextAtom × ContextAtom}
    {x y : String} (hx : a.1.symbol? = some x) (hy : a.2.symbol? = some y) (ha : σ.Resolved a)
    {stx₁ stx₂ : Syntax} (hspells : Spells (.leaf a) stx₁ stx₂) :
    x = y ∧ w₁.spaces.denoted stx₁ x = w₁.spaces.denoted stx₂ y ∨
      ∃ v₁ v₂ : LocalVar, w₁.spaces.denoted stx₁ x = .lexical v₁ ∧
        w₁.spaces.denoted stx₂ y = .lexical v₂ ∧ v₁.rib = v₂.rib ∧ v₁.slot = v₂.slot := by
  obtain ⟨hleft, hright⟩ := hspells.leaf
  rw [Spaces.denoted, Spaces.denoted, hspells.bare₁.resolve hleft, hspells.bare₂.resolve hright,
    h.leafBinding, h.leafBinding]
  cases ha with
  | data _ hname =>
      rw [hx] at hname
      cases hname
  | name hx' hy' _ halike =>
      obtain rfl := Option.some.inj (hx.symm.trans hx')
      obtain rfl := Option.some.inj (hy.symm.trans hy')
      rcases halike with ⟨rfl, hbinding⟩ | ⟨v₁, v₂, h₁, h₂, hrib, hslot⟩
      · exact .inl ⟨rfl, by rw [hbinding]⟩
      · rw [h₁, h₂]
        exact .inr ⟨v₁, v₂, rfl, rfl, hrib, hslot⟩

/-! ## References -/

theorem agree_depthOf {T : World → World → Prop} (scopes : Scopes) (rib : RibId)
    (stx₁ stx₂ : Syntax) :
    Agree T Eq (Compile.depthOf scopes rib stx₁) (Compile.depthOf scopes rib stx₂) := by
  rw [Compile.depthOf, Compile.depthOf]
  split
  · exact .pure rfl
  · exact .failAt _ _ _ _

theorem agree_importId (ns : NamespaceId) (d : Definition) :
    Agree σ.Reading Eq (importId ns d) (importId ns d) := by
  intro w₁ w₂ hw
  rw [importId_apply, importId_apply, ← hw.same]
  cases h : w₁.spaces.importId ns d with
  | error e => exact .error ..
  | ok result =>
      obtain ⟨hcells, hvalues⟩ := Spaces.importId_reads h
      refine .ok ⟨rfl, hcells.trans hw.cells, fun other address => ?_⟩ rfl
      exact (hvalues other address).trans (hw.values other address)

theorem agree_definitionRef (ns : NamespaceId) (d : Definition) (name : String) :
    Agree σ.Reading (Code.Alike σ.Names) (Compile.definitionRef ns d name)
      (Compile.definitionRef ns d name) := by
  rw [Compile.definitionRef]
  split
  · exact .pure .topRef
  · refine (agree_importId ns d).bind fun id _ hid => ?_
    subst hid
    exact .pure .importRef

/-- Two compilations of a reference. -/
theorem agree_reference (ns : NamespaceId) (scopes : Scopes) {a : ContextAtom × ContextAtom}
    {x y : String} (hx : a.1.symbol? = some x) (hy : a.2.symbol? = some y) (ha : σ.Resolved a)
    {stx₁ stx₂ : Syntax} (hspells : Spells (.leaf a) stx₁ stx₂) :
    Agree σ.Reading (Code.Alike σ.Names) (Compile.reference ns scopes stx₁ x)
      (Compile.reference ns scopes stx₂ y) := by
  refine .getSpaces_bind fun w₁ w₂ hw => ?_
  rw [← hw.same]
  rcases hw.denoted hx hy ha hspells with ⟨rfl, hsame⟩ | ⟨v₁, v₂, h₁, h₂, hrib, hslot⟩
  · rw [hsame]
    split
    · split
      · split
        · exact .pure .freeRef
        · exact .fail _ _
      · exact .fail _ _
    · refine (agree_depthOf scopes _ stx₁ stx₂).bind fun depth _ hdepth => ?_
      subst hdepth
      exact .pure .localRef
    · exact agree_definitionRef ns _ x
    · exact agree_definitionRef ns _ x
  · rw [h₁, h₂]
    simp only [hrib, hslot]
    refine (agree_depthOf scopes v₂.rib stx₁ stx₂).bind fun depth _ hdepth => ?_
    subst hdepth
    exact .pure .localRef

/-! ## Parts of forms -/

variable (σ) in
/-- Two compilations of an expanded form agree. -/
def Compiles (compile : Scopes → Syntax → RunM Code) : Prop :=
  ∀ (scopes : Scopes) {T : TwinTree} {stx₁ stx₂ : Syntax}, σ.Expanded T → Spells T stx₁ stx₂ →
    Agree σ.Reading (Code.Alike σ.Names) (compile scopes stx₁) (compile scopes stx₂)

section

variable {compile : Scopes → Syntax → RunM Code} {ns : NamespaceId} {scopes : Scopes}

theorem agree_all (hcompile : σ.Compiles compile) {Ts : List TwinTree} (hTs : ∀ T ∈ Ts, σ.Expanded T)
    {forms₁ forms₂ : List Syntax} (hspells : SpellsAll Ts forms₁ forms₂) :
    Agree σ.Reading (List.Forall₂ (Code.Alike σ.Names)) (Compile.all compile scopes forms₁)
      (Compile.all compile scopes forms₂) := by
  induction hspells with
  | nil => exact .pure .nil
  | cons head _ ih =>
      obtain ⟨hT, hTs⟩ := List.forall_mem_cons.1 hTs
      refine (hcompile scopes hT head).bind fun code₁ code₂ hcode => ?_
      refine (ih hTs).bind fun codes₁ codes₂ hcodes => ?_
      exact .pure (.cons hcode hcodes)

theorem agree_fields (hcompile : σ.Compiles compile) {Ts : List (String × TwinTree)}
    (hTs : ∀ T ∈ Ts, σ.Expanded T.2) {fields₁ fields₂ : List (String × Syntax)}
    (hspells : SpellsFields Ts fields₁ fields₂) :
    Agree σ.Reading
      (fun codes₁ codes₂ : List (String × Code) => codes₁.map (·.1) = codes₂.map (·.1) ∧
        List.Forall₂ (Code.Alike σ.Names) (codes₁.map (·.2)) (codes₂.map (·.2)))
      (Compile.fields compile scopes fields₁) (Compile.fields compile scopes fields₂) := by
  induction hspells with
  | nil => exact .pure ⟨rfl, .nil⟩
  | cons head _ ih =>
      obtain ⟨hT, hTs⟩ := List.forall_mem_cons.1 hTs
      refine (hcompile scopes hT head).bind fun code₁ code₂ hcode => ?_
      refine (ih hTs).bind fun codes₁ codes₂ hcodes => ?_
      exact .pure ⟨congrArg (List.cons _) hcodes.1, .cons hcode hcodes.2⟩

theorem agree_body (hcompile : σ.Compiles compile) {Ts : List TwinTree} (hTs : ∀ T ∈ Ts, σ.Expanded T)
    {forms₁ forms₂ : List Syntax} (hspells : SpellsAll Ts forms₁ forms₂) :
    Agree σ.Reading (Code.Alike σ.Names) (Compile.body compile scopes forms₁)
      (Compile.body compile scopes forms₂) := by
  cases hspells with
  | nil => exact .pure .void
  | cons head tail =>
      cases tail with
      | nil => exact hcompile scopes (hTs _ List.mem_cons_self) head
      | cons second rest =>
          refine (agree_all hcompile hTs (.cons head (.cons second rest))).bind
            fun codes₁ codes₂ hcodes => ?_
          exact .pure (.sequence hcodes)

theorem agree_operand {T : World → World → Prop} {form₁ form₂ : Syntax} {Ts : List TwinTree}
    {parts₁ parts₂ : List Syntax} (hparts : SpellsAll Ts parts₁ parts₂) (position : Nat) :
    Agree T (fun stx₁ stx₂ => ∃ U, Ts[position]? = some U ∧ Spells U stx₁ stx₂)
      (Compile.operand form₁ parts₁ position) (Compile.operand form₂ parts₂ position) := by
  rw [Compile.operand, Compile.operand]
  induction hparts generalizing position with
  | nil => exact .failAt _ _ _ _
  | cons head _ ih =>
      cases position with
      | zero => exact .pure ⟨_, rfl, head⟩
      | succ position => simpa using ih position

/-- Binders that resolve alike have the same binding, or are the same local variable. -/
theorem Reading.resolve {w₁ w₂ : World} (h : σ.Reading w₁ w₂) {T : TwinTree}
    (hT : T.All σ.Resolved) {stx₁ stx₂ : Syntax} (hspells : Spells T stx₁ stx₂) :
    w₁.spaces.resolve stx₁ = w₁.spaces.resolve stx₂ ∨
      ∃ v₁ v₂ : LocalVar, w₁.spaces.resolve stx₁ = some (.lexical v₁) ∧
        w₁.spaces.resolve stx₂ = some (.lexical v₂) ∧ v₁.rib = v₂.rib := by
  have hnone {stx : Syntax} (hbare : stx.Bare) (hname : stx.symbol? = none) :
      w₁.spaces.resolve stx = none := by
    rw [Spaces.resolve_of_binding_eq_none hbare.binding, Spaces.resolveWithMarks, hname]
  cases hT with
  | @leaf a ha =>
      obtain ⟨hleft, hright⟩ := hspells.leaf
      cases ha with
      | @data a₁ a₂ hdata hname =>
          have hname₂ : a₂.symbol? = none := by
            rw [ContextAtom.symbol?, ← hdata]
            exact hname
          rw [hnone hspells.bare₁ ((Syntax.symbol?_of_view hleft).trans hname),
            hnone hspells.bare₂ ((Syntax.symbol?_of_view hright).trans hname₂)]
          exact .inl rfl
      | name _ _ _ halike =>
          rw [hspells.bare₁.resolve hleft, hspells.bare₂.resolve hright, h.leafBinding,
            h.leafBinding]
          rcases halike with ⟨-, hbinding⟩ | ⟨v₁, v₂, h₁, h₂, hrib, -⟩
          · exact .inl hbinding
          · exact .inr ⟨v₁, v₂, h₁, h₂, hrib⟩
  | group _ =>
      obtain ⟨c₁, items₁, c₂, items₂, rfl, rfl, -⟩ := hspells.parts
      rw [hnone hspells.bare₁ rfl, hnone hspells.bare₂ rfl]
      exact .inl rfl
  | record _ =>
      obtain ⟨c₁, raw₁, c₂, raw₂, -, -, rfl, rfl, -⟩ := hspells.fields
      rw [hnone hspells.bare₁ rfl, hnone hspells.bare₂ rfl]
      exact .inl rfl

/-- The scopes inside a frame are the same, since the first binder resolves to the same rib. -/
theorem agree_enterScope {Ts : List TwinTree} (hTs : ∀ T ∈ Ts, T.All σ.Resolved)
    {binders₁ binders₂ : List Syntax} (hspells : SpellsAll Ts binders₁ binders₂) :
    Agree σ.Reading Eq (Compile.enterScope scopes binders₁) (Compile.enterScope scopes binders₂) := by
  cases hspells with
  | nil => exact .pure rfl
  | @cons T _ first₁ first₂ _ _ head _ =>
      refine .getSpaces_bind fun w₁ w₂ hw => ?_
      rw [← hw.same]
      rcases hw.resolve (hTs T List.mem_cons_self) head with hsame | ⟨v₁, v₂, h₁, h₂, hrib⟩
      · rw [hsame]
        split
        · exact .pure rfl
        · exact .failAt _ _ _ _
      · rw [h₁, h₂]
        exact .pure (by rw [hrib])

/-- The parts of the clauses of a binding form. -/
theorem agree_clauses {T : World → World → Prop} (fault : SyntaxFault)
    {cs : List (TwinTree × TwinTree)} {items₁ items₂ : List Syntax}
    (hspells : SpellsAll (cs.map fun c => .group .sexp [c.1, c.2]) items₁ items₂) :
    Agree T (fun pairs₁ pairs₂ : List (Syntax × Syntax) =>
        SpellsAll (cs.map (·.1)) (pairs₁.map (·.1)) (pairs₂.map (·.1)) ∧
        SpellsAll (cs.map (·.2)) (pairs₁.map (·.2)) (pairs₂.map (·.2)))
      (Compile.clauses fault items₁) (Compile.clauses fault items₂) := by
  induction cs generalizing items₁ items₂ with
  | nil =>
      cases hspells
      exact .pure ⟨.nil, .nil⟩
  | cons c cs ih =>
      cases hspells with
      | cons head tail =>
          obtain ⟨a₁, b₁, a₂, b₂, h₁, h₂, hfirst, hsecond⟩ := head.pair
          simp only [Compile.clauses, h₁, h₂]
          refine (ih tail).bind fun pairs₁ pairs₂ hpairs => ?_
          exact .pure ⟨.cons hfirst hpairs.1, .cons hsecond hpairs.2⟩

/-- The clauses of a `parameterize`. -/
theorem agree_pairs (hcompile : σ.Compiles compile) {cs : List (TwinTree × TwinTree)}
    (hparameters : ∀ c ∈ cs, σ.Expanded c.1) (hvalues : ∀ c ∈ cs, σ.Expanded c.2)
    {items₁ items₂ : List Syntax}
    (hspells : SpellsAll (cs.map fun c => .group .sexp [c.1, c.2]) items₁ items₂) :
    Agree σ.Reading
      (fun codes₁ codes₂ : List (Code × Code) =>
        List.Forall₂ (Code.Alike σ.Names) (codes₁.map (·.1)) (codes₂.map (·.1)) ∧
        List.Forall₂ (Code.Alike σ.Names) (codes₁.map (·.2)) (codes₂.map (·.2)))
      (Compile.pairs compile scopes items₁) (Compile.pairs compile scopes items₂) := by
  induction cs generalizing items₁ items₂ with
  | nil =>
      cases hspells
      exact .pure ⟨.nil, .nil⟩
  | cons c cs ih =>
      obtain ⟨hparameter, hparameters⟩ := List.forall_mem_cons.1 hparameters
      obtain ⟨hvalue, hvalues⟩ := List.forall_mem_cons.1 hvalues
      cases hspells with
      | cons head tail =>
          obtain ⟨a₁, b₁, a₂, b₂, h₁, h₂, hfirst, hsecond⟩ := head.pair
          simp only [Compile.pairs, h₁, h₂]
          refine (hcompile scopes hparameter hfirst).bind fun code₁ code₂ hcode => ?_
          refine (hcompile scopes hvalue hsecond).bind fun code₁' code₂' hcode' => ?_
          refine (ih hparameters hvalues tail).bind fun codes₁ codes₂ hcodes => ?_
          exact .pure ⟨.cons hcode hcodes.1, .cons hcode' hcodes.2⟩

/-! ## Core forms -/

/-- The binders that compilation finds in formals. -/
def formalBinders (formals : Syntax) : List Syntax :=
  if formals.isIdentifier then [formals] else formals.subforms

theorem exists_formalBinders {formals : TwinTree} (h : formals.All σ.Resolved)
    {formals₁ formals₂ : Syntax} (hspells : Spells formals formals₁ formals₂) :
    formals₁.isIdentifier = formals₂.isIdentifier ∧
      ∃ Ts : List TwinTree, (∀ T ∈ Ts, T.All σ.Resolved) ∧
        SpellsAll Ts (formalBinders formals₁) (formalBinders formals₂) := by
  cases h with
  | @leaf a ha =>
      obtain ⟨hleft, hright⟩ := hspells.leaf
      have hsame : formals₁.isIdentifier = formals₂.isIdentifier := by
        rw [Syntax.isIdentifier_of_view hleft, Syntax.isIdentifier_of_view hright,
          ha.isSome_symbol?]
      refine ⟨hsame, ?_⟩
      rw [formalBinders, formalBinders, hsame]
      split
      · exact ⟨[.leaf a], by simpa using .leaf ha, .cons hspells .nil⟩
      · obtain ⟨c₁, rfl, -⟩ := Syntax.view_eq_leaf hleft
        obtain ⟨c₂, rfl, -⟩ := Syntax.view_eq_leaf hright
        exact ⟨[], by simp, .nil⟩
  | @group shape items hitems =>
      obtain ⟨c₁, items₁, c₂, items₂, rfl, rfl, hall⟩ := hspells.parts
      refine ⟨rfl, ?_⟩
      cases shape with
      | sexp => exact ⟨items, hitems, hall⟩
      | list => exact ⟨[], by simp, .nil⟩
  | record _ =>
      obtain ⟨c₁, raw₁, c₂, raw₂, -, -, rfl, rfl, -⟩ := hspells.fields
      exact ⟨rfl, [], by simp, .nil⟩

/-- Two compilations of a `lambda`. -/
theorem agree_compileLambda (hcompile : σ.Compiles compile) {head formals : TwinTree}
    {body : List TwinTree} (hformals : formals.All σ.Resolved) (hbody : ∀ T ∈ body, σ.Expanded T)
    {form₁ form₂ : Syntax} {parts₁ parts₂ : List Syntax}
    (hparts : SpellsAll (head :: formals :: body) parts₁ parts₂) (name : Option String) :
    Agree σ.Reading (Code.Alike σ.Names) (Compile.lambda compile scopes form₁ parts₁ name)
      (Compile.lambda compile scopes form₂ parts₂ name) := by
  cases hparts with
  | @cons _ _ head₁ head₂ _ _ _ htail =>
      cases htail with
      | @cons _ _ formals₁ formals₂ body₁ body₂ hspells hspellsBody =>
          obtain ⟨hsame, Ts, hTs, hbinders⟩ := exists_formalBinders hformals hspells
          have hlength : (formalBinders formals₁).length = (formalBinders formals₂).length :=
            hbinders.length₁.trans hbinders.length₂.symm
          change Agree _ _ (Compile.enterScope scopes (formalBinders formals₁) >>= _)
            (Compile.enterScope scopes (formalBinders formals₂) >>= _)
          refine (agree_enterScope hTs hbinders).bind fun inner _ hinner => ?_
          subst hinner
          refine (agree_body hcompile hbody hspellsBody).bind fun code₁ code₂ hcode => .pure ?_
          rw [formalBinders, formalBinders] at hlength
          rw [hlength, hsame]
          exact .lambda hcode

/-- Two compilations of a `let` or a `letrec`. -/
theorem agree_compileBinding (hcompile : σ.Compiles compile) {head : TwinTree}
    {cs : List (TwinTree × TwinTree)} {body : List TwinTree}
    (hbinders : ∀ c ∈ cs, c.1.All σ.Resolved) (hinits : ∀ c ∈ cs, σ.Expanded c.2)
    (hbody : ∀ T ∈ body, σ.Expanded T) {form₁ form₂ : Syntax} {parts₁ parts₂ : List Syntax}
    (hparts : SpellsAll (head :: .ofClauses cs :: body) parts₁ parts₂) (recursive : Bool) :
    Agree σ.Reading (Code.Alike σ.Names) (Compile.binding compile scopes form₁ parts₁ recursive)
      (Compile.binding compile scopes form₂ parts₂ recursive) := by
  cases hparts with
  | @cons _ _ head₁ head₂ _ _ _ htail =>
      cases htail with
      | @cons _ _ clauses₁ clauses₂ body₁ body₂ hspells hspellsBody =>
          obtain ⟨items₁, items₂, h₁, h₂, hitems⟩ := hspells.subforms
          change Agree _ _ (Compile.clauses .bindingClause clauses₁.subforms >>= _)
            (Compile.clauses .bindingClause clauses₂.subforms >>= _)
          rw [Syntax.subforms, Syntax.subforms, h₁, h₂, Option.getD_some, Option.getD_some]
          refine (agree_clauses .bindingClause hitems).bind fun pairs₁ pairs₂ hpairs => ?_
          have hnames := List.forall_mem_map.2 hbinders
          have hexpressions := List.forall_mem_map.2 hinits
          cases recursive with
          | true =>
              refine (agree_enterScope hnames hpairs.1).bind fun inner _ hinner => ?_
              subst hinner
              refine (agree_all hcompile hexpressions hpairs.2).bind fun inits₁ inits₂ hcodes => ?_
              refine (agree_body hcompile hbody hspellsBody).bind fun code₁ code₂ hcode => ?_
              exact .pure (.letrec hcodes hcode)
          | false =>
              refine (agree_all hcompile hexpressions hpairs.2).bind fun inits₁ inits₂ hcodes => ?_
              refine (agree_enterScope hnames hpairs.1).bind fun inner _ hinner => ?_
              subst hinner
              refine (agree_body hcompile hbody hspellsBody).bind fun code₁ code₂ hcode => ?_
              exact .pure (.letIn hcodes hcode)

/-- The target of an assignment is no identifier in either spelling, or identifiers that resolve
alike. -/
theorem symbol?_of_resolved {T : TwinTree} (hT : T.All σ.Resolved) {stx₁ stx₂ : Syntax}
    (hspells : Spells T stx₁ stx₂) :
    stx₁.symbol? = none ∧ stx₂.symbol? = none ∨
      ∃ a x y, T = .leaf a ∧ a.1.symbol? = some x ∧ a.2.symbol? = some y ∧ σ.Resolved a ∧
        stx₁.symbol? = some x ∧ stx₂.symbol? = some y := by
  cases hT with
  | @leaf a ha =>
      obtain ⟨hleft, hright⟩ := hspells.leaf
      rw [Syntax.symbol?_of_view hleft, Syntax.symbol?_of_view hright]
      cases ha with
      | data hdata hname =>
          refine .inl ⟨hname, ?_⟩
          rw [ContextAtom.symbol?, ← hdata]
          exact hname
      | name hx hy hnames halike =>
          exact .inr ⟨_, _, _, rfl, hx, hy, .name hx hy hnames halike, hx, hy⟩
  | group _ =>
      obtain ⟨c₁, items₁, c₂, items₂, rfl, rfl, -⟩ := hspells.parts
      exact .inl ⟨rfl, rfl⟩
  | record _ =>
      obtain ⟨c₁, raw₁, c₂, raw₂, -, -, rfl, rfl, -⟩ := hspells.fields
      exact .inl ⟨rfl, rfl⟩

/-- Two compilations of an assignment. -/
theorem agree_assignment (hcompile : σ.Compiles compile) {head target value : TwinTree}
    (htarget : target.All σ.Resolved) (hvalue : σ.Expanded value) {form₁ form₂ : Syntax}
    {parts₁ parts₂ : List Syntax} (hparts : SpellsAll [head, target, value] parts₁ parts₂) :
    Agree σ.Reading (Code.Alike σ.Names) (Compile.assignment ns compile scopes form₁ parts₁)
      (Compile.assignment ns compile scopes form₂ parts₂) := by
  cases hparts with
  | @cons _ _ head₁ head₂ _ _ _ htail =>
      cases htail with
      | @cons _ _ target₁ target₂ _ _ hspells htail =>
          cases htail with
          | @cons _ _ value₁ value₂ _ _ hspellsValue _ =>
              change Agree _ _ (compile scopes value₁ >>= _) (compile scopes value₂ >>= _)
              refine (hcompile scopes hvalue hspellsValue).bind fun code₁ code₂ hcode => ?_
              rcases symbol?_of_resolved htarget hspells with ⟨h₁, h₂⟩ | ⟨a, x, y, rfl, hx, hy, ha, h₁, h₂⟩
              · rw [h₁, h₂]
                exact .failAt _ _ _ _
              · rw [h₁, h₂]
                refine .getSpaces_bind fun w₁ w₂ hw => ?_
                rw [← hw.same]
                -- The targets denote the same, or are one variable of ribs with the same number.
                rcases hw.denoted hx hy ha hspells with ⟨rfl, hsame⟩ | ⟨v₁, v₂, hv₁, hv₂, hrib, hslot⟩
                · rw [hsame]
                  split
                  · refine (agree_depthOf scopes _ target₁ target₂).bind fun depth _ hdepth => ?_
                    subst hdepth
                    exact .pure (.localSet hcode)
                  · split
                    · exact .pure (.topSet hcode)
                    · exact .fail _ _
                  · exact .fail _ _
                  · exact .fail _ _
                · rw [hv₁, hv₂]
                  simp only [hrib, hslot]
                  refine (agree_depthOf scopes v₂.rib target₁ target₂).bind fun depth _ hdepth => ?_
                  subst hdepth
                  exact .pure (.localSet hcode)

/-- Two compilations of a quotation. -/
theorem agree_quotation {f : CoreForm} (hquotes : f.quotes) {head datum : TwinTree}
    (hdatum : datum.All σ.Spelled) {form₁ form₂ : Syntax} {parts₁ parts₂ : List Syntax}
    (hparts : SpellsAll [head, datum] parts₁ parts₂) :
    Agree σ.Reading (Code.Alike σ.Names) (Compile.core ns compile scopes f form₁ parts₁)
      (Compile.core ns compile scopes f form₂ parts₂) := by
  cases hparts with
  | @cons _ _ head₁ head₂ _ _ _ htail =>
      cases htail with
      | @cons _ _ datum₁ datum₂ _ _ hspells _ =>
          intro w₁ w₂ hw
          cases f with
          | quote =>
              exact .ok ⟨hw.same, hw.cells, hw.values⟩ (.constant (dataAlike_of_spells hdatum hspells _ _))
          | quoteSyntax => exact .ok ⟨hw.same, hw.cells, hw.values⟩ (.constant (.stx _ _))
          | _ => simp [CoreForm.quotes] at hquotes

/-- Two compilations of a conditional or of a sequence. -/
theorem agree_sequence (hcompile : σ.Compiles compile) {f : CoreForm}
    (hsequence : f = .ifForm ∨ f = .begin) {head : TwinTree} {operands : List TwinTree}
    (hoperands : ∀ T ∈ operands, σ.Expanded T) {form₁ form₂ : Syntax} {parts₁ parts₂ : List Syntax}
    (hparts : SpellsAll (head :: operands) parts₁ parts₂) :
    Agree σ.Reading (Code.Alike σ.Names) (Compile.core ns compile scopes f form₁ parts₁)
      (Compile.core ns compile scopes f form₂ parts₂) := by
  have hoperand {position : Nat} {U : TwinTree} (hU : (head :: operands)[position + 1]? = some U) :
      σ.Expanded U := by
    rw [List.getElem?_cons_succ] at hU
    exact hoperands U (List.mem_of_getElem? hU)
  rcases hsequence with rfl | rfl
  · refine (agree_operand hparts 1).bind fun test₁ test₂ ⟨T, hT, htest⟩ => ?_
    refine (hcompile scopes (hoperand hT) htest).bind fun code₁ code₂ hcode => ?_
    refine (agree_operand hparts 2).bind fun consequent₁ consequent₂ ⟨U, hU, hconsequent⟩ => ?_
    refine (hcompile scopes (hoperand hU) hconsequent).bind fun code₁' code₂' hcode' => ?_
    refine (agree_operand hparts 3).bind fun alternative₁ alternative₂ ⟨V, hV, halternative⟩ => ?_
    refine (hcompile scopes (hoperand hV) halternative).bind fun code₁'' code₂'' hcode'' => ?_
    exact .pure (.branch hcode hcode' hcode'')
  · exact agree_body hcompile hoperands (hparts.drop 1)

/-- Two compilations of a `parameterize`. -/
theorem agree_compileParameterize (hcompile : σ.Compiles compile) {head : TwinTree}
    {cs : List (TwinTree × TwinTree)} {body : List TwinTree}
    (hparameters : ∀ c ∈ cs, σ.Expanded c.1) (hvalues : ∀ c ∈ cs, σ.Expanded c.2)
    (hbody : ∀ T ∈ body, σ.Expanded T) {form₁ form₂ : Syntax} {parts₁ parts₂ : List Syntax}
    (hparts : SpellsAll (head :: .ofClauses cs :: body) parts₁ parts₂) :
    Agree σ.Reading (Code.Alike σ.Names) (Compile.core ns compile scopes .parameterize form₁ parts₁)
      (Compile.core ns compile scopes .parameterize form₂ parts₂) := by
  cases hparts with
  | @cons _ _ head₁ head₂ _ _ _ htail =>
      cases htail with
      | @cons _ _ clauses₁ clauses₂ body₁ body₂ hspells hspellsBody =>
          obtain ⟨items₁, items₂, h₁, h₂, hitems⟩ := hspells.subforms
          change Agree _ _ (Compile.pairs compile scopes clauses₁.subforms >>= _)
            (Compile.pairs compile scopes clauses₂.subforms >>= _)
          rw [Syntax.subforms, Syntax.subforms, h₁, h₂, Option.getD_some, Option.getD_some]
          refine (agree_pairs hcompile hparameters hvalues hitems).bind fun codes₁ codes₂ hcodes => ?_
          refine (agree_body hcompile hbody hspellsBody).bind fun code₁ code₂ hcode => ?_
          exact .pure (.parameterize hcodes.1 hcodes.2 hcode)

/-! ## Forms -/

/-- The value of a head is what it is in the setting. -/
theorem Reading.headValue? {w₁ w₂ : World} (h : σ.Reading w₁ w₂) {a : ContextAtom × ContextAtom}
    (ha : σ.Resolved a) {stx₁ stx₂ : Syntax} (hspells : Spells (.leaf a) stx₁ stx₂) :
    HygienicLisp.headValue? w₁.spaces stx₁ = σ.spaces.leafValue? a.1 ∧
      HygienicLisp.headValue? w₁.spaces stx₂ = σ.spaces.leafValue? a.1 := by
  obtain ⟨hleft, hright⟩ := hspells.leaf
  rw [headValue?_congr h.cells h.values, headValue?_congr h.cells h.values,
    hspells.bare₁.headValue? hleft, hspells.bare₂.headValue? hright, ha.leafValue?]
  exact ⟨rfl, rfl⟩

/-- An expanded form at the head of another is no core form, in neither spelling. -/
theorem Expanded.coreForm? {T : TwinTree} (hT : σ.Expanded T) {w₁ w₂ : World}
    (h : σ.Reading w₁ w₂) {stx₁ stx₂ : Syntax} (hspells : Spells T stx₁ stx₂) :
    HygienicLisp.coreForm? w₁.spaces stx₁ = none ∧ HygienicLisp.coreForm? w₁.spaces stx₂ = none := by
  cases T with
  | leaf a =>
      cases hT with
      | leaf ha hvalue =>
          obtain ⟨h₁, h₂⟩ := h.headValue? ha hspells
          rw [HygienicLisp.coreForm?, HygienicLisp.coreForm?, h₁, h₂]
          split
          · next f hf => exact (hvalue f hf).elim
          · exact ⟨rfl, rfl⟩
  | group shape items =>
      obtain ⟨c₁, items₁, c₂, items₂, rfl, rfl, -⟩ := hspells.parts
      exact ⟨rfl, rfl⟩
  | record fields =>
      obtain ⟨c₁, raw₁, c₂, raw₂, -, -, rfl, rfl, -⟩ := hspells.fields
      exact ⟨rfl, rfl⟩

/-- Two compilations of a form with a core form at its head. -/
theorem agree_core_form {f : CoreForm} {a : ContextAtom × ContextAtom} (hdenotes : σ.Denotes f a)
    {operands : List TwinTree} {stx₁ stx₂ : Syntax}
    (hspells : Spells (.group .sexp (.leaf a :: operands)) stx₁ stx₂)
    (hcore : ∀ {parts₁ parts₂ : List Syntax}, SpellsAll (.leaf a :: operands) parts₁ parts₂ →
      Agree σ.Reading (Code.Alike σ.Names) (Compile.core ns compile scopes f stx₁ parts₁)
        (Compile.core ns compile scopes f stx₂ parts₂)) :
    Agree σ.Reading (Code.Alike σ.Names) (Compile.form ns compile scopes stx₁)
      (Compile.form ns compile scopes stx₂) := by
  obtain ⟨c₁, items₁, c₂, items₂, rfl, rfl, hparts⟩ := hspells.parts
  rw [Compile.form, Compile.form, Syntax.subforms, Syntax.subforms, Syntax.subforms?, Syntax.subforms?]
  generalize items₁.map (Syntax.addWraps c₁.wraps) = parts₁ at hparts
  generalize items₂.map (Syntax.addWraps c₂.wraps) = parts₂ at hparts
  cases hparts with
  | @cons _ _ head₁ head₂ rest₁ rest₂ hhead hrest =>
      refine .getSpaces_bind fun w₁ w₂ hw => ?_
      obtain ⟨h₁, h₂⟩ := hw.headValue? hdenotes.resolved hhead
      rw [← hw.same, coreForm?, coreForm?, h₁, h₂, hdenotes.value]
      exact hcore (.cons hhead hrest)

/-- Two compilations of an application. -/
theorem agree_application (hcompile : σ.Compiles compile) {items : List TwinTree}
    (hitems : ∀ T ∈ items, σ.Expanded T) {stx₁ stx₂ : Syntax}
    (hspells : Spells (.group .sexp items) stx₁ stx₂) :
    Agree σ.Reading (Code.Alike σ.Names) (Compile.form ns compile scopes stx₁)
      (Compile.form ns compile scopes stx₂) := by
  obtain ⟨c₁, items₁, c₂, items₂, rfl, rfl, hparts⟩ := hspells.parts
  rw [Compile.form, Compile.form, Syntax.subforms, Syntax.subforms, Syntax.subforms?, Syntax.subforms?]
  generalize items₁.map (Syntax.addWraps c₁.wraps) = parts₁ at hparts
  generalize items₂.map (Syntax.addWraps c₂.wraps) = parts₂ at hparts
  cases hparts with
  | nil => exact .failAt _ _ _ _
  | @cons _ _ head₁ head₂ rest₁ rest₂ hhead hrest =>
      obtain ⟨hoperator, hoperands⟩ := List.forall_mem_cons.1 hitems
      refine .getSpaces_bind fun w₁ w₂ hw => ?_
      obtain ⟨h₁, h₂⟩ := hoperator.coreForm? hw hhead
      rw [← hw.same, h₁, h₂]
      refine (hcompile scopes hoperator hhead).bind fun code₁ code₂ hcode => ?_
      refine (agree_all hcompile hoperands hrest).bind fun codes₁ codes₂ hcodes => ?_
      exact .pure (.apply hcode hcodes)

/-- Two compilations of an expanded form, by the kind of form that it is. -/
theorem agree_form (hcompile : σ.Compiles compile) {T : TwinTree} (hT : σ.Expanded T)
    {stx₁ stx₂ : Syntax} (hspells : Spells T stx₁ stx₂) :
    Agree σ.Reading (Code.Alike σ.Names) (Compile.form ns compile scopes stx₁)
      (Compile.form ns compile scopes stx₂) := by
  cases hT with
  | @leaf a ha _ =>
      obtain ⟨hleft, hright⟩ := hspells.leaf
      obtain ⟨c₁, rfl, -⟩ := Syntax.view_eq_leaf hleft
      obtain ⟨c₂, rfl, -⟩ := Syntax.view_eq_leaf hright
      cases ha with
      | @data a₁ a₂ hdata hname =>
          have hform (c : Context) : Compile.form ns compile scopes (.atom c a₁.data) =
              pure (.constant (.atom a₁.data)) := by
            rw [Compile.form]
            intro x hx
            simp [ContextAtom.symbol?, hx] at hname
          simp only [← hdata, hform]
          exact .pure (.constant (.atom _))
      | name hx hy hnames halike =>
          have hreference := agree_reference ns scopes hx hy (.name hx hy hnames halike) hspells
          simp only [ContextAtom.data_eq_of_symbol? hx, ContextAtom.data_eq_of_symbol? hy] at hreference ⊢
          exact hreference
  | list h =>
      obtain ⟨c₁, items₁, c₂, items₂, rfl, rfl, hparts⟩ := hspells.parts
      refine (agree_all hcompile h hparts).bind fun codes₁ codes₂ hcodes => ?_
      exact .pure (.listLiteral hcodes)
  | record h =>
      obtain ⟨c₁, raw₁, c₂, raw₂, fields₁, fields₂, rfl, rfl, h₁, h₂, hparts⟩ := hspells.fields
      rw [Compile.form, Compile.form, h₁, h₂]
      refine (agree_fields hcompile h hparts).bind fun codes₁ codes₂ hcodes => ?_
      exact .pure (.recordLiteral hcodes.1 hcodes.2)
  | apply h => exact agree_application hcompile h hspells
  | sequence hhead hsequence h =>
      exact agree_core_form hhead hspells fun hparts => agree_sequence hcompile hsequence h hparts
  | set hhead htarget hvalue =>
      exact agree_core_form hhead hspells fun hparts =>
        agree_assignment hcompile htarget hvalue hparts
  | quoted hhead hquotes h =>
      exact agree_core_form hhead hspells fun hparts => agree_quotation hquotes h hparts
  | lambda hhead hformals hbody =>
      exact agree_core_form hhead hspells fun hparts =>
        agree_compileLambda hcompile hformals hbody hparts none
  | binding hhead hbinds hbinders hinits hbody =>
      refine agree_core_form hhead hspells fun hparts => ?_
      rcases hbinds with rfl | rfl
      · exact agree_compileBinding hcompile hbinders hinits hbody hparts false
      · exact agree_compileBinding hcompile hbinders hinits hbody hparts true
  | parameterize hhead hparameters hvalues hbody =>
      exact agree_core_form hhead hspells fun hparts =>
        agree_compileParameterize hcompile hparameters hvalues hbody hparts

end

/-- Two compilations of an expanded form agree, whatever the bound on their nesting. -/
theorem agree_compileAt (ns : NamespaceId) (fuel : Nat) : σ.Compiles (Compile.compileAt ns fuel) := by
  induction fuel with
  | zero => exact fun _ _ _ _ _ _ => .exhausted
  | succ fuel ih => exact fun scopes T stx₁ stx₂ hT hspells => agree_form ih hT hspells

end Setting

/-! ## Whole forms -/

namespace Syntax

theorem weight_addWraps (newer : List Wrap) (stx : Syntax) : (stx.addWraps newer).weight = stx.weight := by
  induction newer with
  | nil => rfl
  | cons wrap newer ih =>
      rw [addWraps_cons, ← ih]
      cases stx.addWraps newer <;> rfl

theorem weightAll_eq_sum (items : List Syntax) : weightAll items = (items.map weight).sum := by
  induction items with
  | nil => rfl
  | cons stx rest ih => rw [weightAll, ih, List.map_cons, List.sum_cons]

theorem weightFields_eq_sum (fields : List (String × Syntax)) :
    weightFields fields = (fields.map fun field => field.2.weight).sum := by
  induction fields with
  | nil => rfl
  | cons field rest ih => rw [weightFields, ih, List.map_cons, List.sum_cons]

/-- The nodes of a sequence are those of its parts and one more. -/
theorem weight_group (c : Context) (shape : Shape) (items : List Syntax) :
    (group c shape items).weight = 1 + ((items.map (.addWraps c.wraps)).map weight).sum := by
  rw [weight, weightAll_eq_sum, List.map_map]
  refine congrArg (1 + List.sum ·) (List.map_congr_left fun stx _ => ?_)
  exact (weight_addWraps c.wraps stx).symm

/-- The nodes of a record are those of its fields and one more. -/
theorem weight_of_fields? {stx : Syntax} {fields : List (String × Syntax)}
    (h : stx.fields? = some fields) :
    stx.weight = 1 + (fields.map fun field => field.2.weight).sum := by
  match stx, h with
  | record c raw, h =>
      obtain rfl := Option.some.inj h
      rw [weight, weightFields_eq_sum, List.map_map]
      refine congrArg (1 + List.sum ·) (List.map_congr_left fun field _ => ?_)
      exact (weight_addWraps c.wraps field.2).symm

end Syntax

/-- Two spellings of a form have as many nodes. -/
theorem Spells.weight {T : TwinTree} {stx₁ stx₂ : Syntax} (h : Spells T stx₁ stx₂) :
    stx₁.weight = stx₂.weight := by
  induction T using FormTree.partsInduction generalizing stx₁ stx₂ with
  | leaf a =>
      obtain ⟨hleft, hright⟩ := h.leaf
      obtain ⟨c₁, rfl, -⟩ := Syntax.view_eq_leaf hleft
      obtain ⟨c₂, rfl, -⟩ := Syntax.view_eq_leaf hright
      rfl
  | group shape Ts ih =>
      obtain ⟨c₁, items₁, c₂, items₂, rfl, rfl, hall⟩ := h.parts
      rw [Syntax.weight_group, Syntax.weight_group]
      generalize items₁.map (Syntax.addWraps c₁.wraps) = parts₁ at hall
      generalize items₂.map (Syntax.addWraps c₂.wraps) = parts₂ at hall
      refine congrArg (1 + List.sum ·) ?_
      clear h
      induction hall with
      | nil => rfl
      | cons head _ ihall =>
          obtain ⟨hfirst, hrest⟩ := List.forall_mem_cons.1 ih
          rw [List.map_cons, List.map_cons, hfirst head, ihall hrest]
  | record Ts ih =>
      obtain ⟨c₁, raw₁, c₂, raw₂, fields₁, fields₂, rfl, rfl, h₁, h₂, hall⟩ := h.fields
      rw [Syntax.weight_of_fields? h₁, Syntax.weight_of_fields? h₂]
      refine congrArg (1 + List.sum ·) ?_
      clear h h₁ h₂
      induction hall with
      | nil => rfl
      | cons head _ ihall =>
          obtain ⟨hfirst, hrest⟩ := List.forall_mem_cons.1 ih
          rw [List.map_cons, List.map_cons, hfirst head, ihall hrest]

/-- Two compilations of an expanded form give code that is alike, or both fail, or both run out of
steps. -/
theorem Setting.agree_compile {σ : Setting} (ns : NamespaceId) {T : TwinTree} (hT : σ.Expanded T)
    {stx₁ stx₂ : Syntax} (hspells : Spells T stx₁ stx₂) :
    Agree σ.Reading (Code.Alike σ.Names) (compile ns stx₁) (compile ns stx₂) := by
  rw [compile, compile, hspells.weight]
  exact agree_compileAt ns (stx₂.weight + 1) [] hT hspells

end HygienicLisp
