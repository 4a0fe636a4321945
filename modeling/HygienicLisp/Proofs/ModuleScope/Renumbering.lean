import HygienicLisp.Proofs.FullExpansion.Recompilation

/-!
# Renumberings

Definitions, cells and ribs are numbered in the order in which they are made.  A renumbering gives
other numbers to the definitions and the cells of one namespace, and to the ribs from one on.  It
carries over to all that mentions them: bindings, keys, wraps, forms and code.

Building forms and taking them apart commute with a renumbering.
-/

namespace HygienicLisp

/-- Other numbers for the definitions and the cells of a namespace, and for new ribs. -/
structure Renumbering where
  space : NamespaceId
  address : Nat → Nat
  cell : Nat → Nat
  /-- The first rib that gets another number, and that number.  The ribs after it follow. -/
  oldRib : RibId
  newRib : RibId

/-- The number that a rib gets. -/
def Renumbering.rib (ρ : Renumbering) (id : RibId) : RibId := id - ρ.oldRib + ρ.newRib

variable {ρ : Renumbering}

/-! ## What mentions numbers -/

section

variable (ρ)

/-- The definition under its other address. -/
def Definition.renumber (d : Definition) : Definition :=
  if d.owner = ρ.space then { d with address := ρ.address d.address } else d

/-- The import with its target renumbered. -/
def Import.renumber (i : Import) : Import :=
  { i with provided := { i.provided with target := i.provided.target.renumber ρ } }

/-- The content with its target renumbered. -/
def Content.renumber : Content → Content
  | .defined d => .defined (d.renumber ρ)
  | .required i => .required (i.renumber ρ)

/-- The cell at its other position. -/
def CellRef.renumber (c : CellRef) : CellRef :=
  if c.owner = ρ.space then { c with index := ρ.cell c.index } else c

/-- The variable of the renumbered rib. -/
def LocalVar.renumber (v : LocalVar) : LocalVar := { v with rib := ρ.rib v.rib }

/-- The binding with its variable or its cell renumbered. -/
def Binding.renumber : Binding → Binding
  | .free name => .free name
  | .lexical v => .lexical (v.renumber ρ)
  | .cell c => .cell (c.renumber ρ)

/-- The denotation with its variable or its target renumbered. -/
def Denotation.renumber : Denotation → Denotation
  | .free name => .free name
  | .lexical v => .lexical (v.renumber ρ)
  | .defined d => .defined (d.renumber ρ)
  | .required i => .required (i.renumber ρ)

/-- The key with its origin renumbered. -/
def Key.renumber (key : Key) : Key := { key with origin := key.origin.renumber ρ }

/-- The rib under its other number, with its keys renumbered. -/
def Rib.renumber (rib : Rib) : Rib := ⟨ρ.rib rib.id, rib.keys.map (Key.renumber ρ)⟩

/-- The wrap with its rib renumbered. -/
def Wrap.renumber : Wrap → Wrap
  | .rename rib => .rename (rib.renumber ρ)
  | wrap => wrap

@[simp] theorem Wrap.renumber_mark (m : Mark) : (Wrap.mark m).renumber ρ = .mark m := rfl

@[simp] theorem Wrap.renumber_rename (rib : Rib) :
    (Wrap.rename rib).renumber ρ = .rename (rib.renumber ρ) := rfl

@[simp] theorem Wrap.renumber_space (ns : NamespaceId) : (Wrap.space ns).renumber ρ = .space ns := rfl

@[simp] theorem Wrap.renumber_moduleRename (ns : NamespaceId) :
    (Wrap.moduleRename ns).renumber ρ = .moduleRename ns := rfl

/-- The context with its wraps and its recorded binding renumbered. -/
def Context.renumber (c : Context) : Context :=
  { c with wraps := c.wraps.map (Wrap.renumber ρ), binding := c.binding.map (Binding.renumber ρ) }

end

namespace Syntax

section

variable (ρ)

mutual

/-- The form with all that its contexts mention renumbered. -/
def renumber : Syntax → Syntax
  | atom c a => atom (c.renumber ρ) a
  | group c shape items => group (c.renumber ρ) shape (renumberAll items)
  | record c fields => record (c.renumber ρ) (renumberFields fields)

/-- `renumber` on every form of a sequence. -/
def renumberAll : List Syntax → List Syntax
  | [] => []
  | stx :: rest => stx.renumber :: renumberAll rest

/-- `renumber` on every field of a record. -/
def renumberFields : List (String × Syntax) → List (String × Syntax)
  | [] => []
  | (key, stx) :: rest => (key, stx.renumber) :: renumberFields rest

end

end

theorem renumberAll_eq (items : List Syntax) : renumberAll ρ items = items.map (renumber ρ) := by
  induction items with
  | nil => rfl
  | cons stx rest ih => rw [renumberAll, ih, List.map_cons]

theorem renumberFields_eq (fields : List (String × Syntax)) :
    renumberFields ρ fields = fields.map fun field => (field.1, field.2.renumber ρ) := by
  induction fields with
  | nil => rfl
  | cons field rest ih => rw [renumberFields, ih, List.map_cons]

@[simp] theorem renumber_atom (c : Context) (a : Atom) :
    (atom c a).renumber ρ = atom (c.renumber ρ) a := by
  rw [renumber]

@[simp] theorem renumber_group (c : Context) (shape : Shape) (items : List Syntax) :
    (group c shape items).renumber ρ = group (c.renumber ρ) shape (items.map (renumber ρ)) := by
  rw [renumber, renumberAll_eq]

@[simp] theorem renumber_record (c : Context) (fields : List (String × Syntax)) :
    (record c fields).renumber ρ =
      record (c.renumber ρ) (fields.map fun field => (field.1, field.2.renumber ρ)) := by
  rw [renumber, renumberFields_eq]

/-! ## Context -/

theorem context_renumber (stx : Syntax) : (stx.renumber ρ).context = stx.context.renumber ρ := by
  cases stx <;> simp [context]

@[simp] theorem wraps_renumber (stx : Syntax) :
    (stx.renumber ρ).wraps = stx.wraps.map (Wrap.renumber ρ) := by
  rw [wraps, context_renumber, Context.renumber, wraps]

@[simp] theorem span_renumber (stx : Syntax) : (stx.renumber ρ).span = stx.span := by
  rw [span, context_renumber, Context.renumber, span]

@[simp] theorem symbol?_renumber (stx : Syntax) : (stx.renumber ρ).symbol? = stx.symbol? := by
  cases stx with
  | atom c a => cases a <;> simp [symbol?]
  | group c shape items => simp [symbol?]
  | record c fields => simp [symbol?]

@[simp] theorem isIdentifier_renumber (stx : Syntax) :
    (stx.renumber ρ).isIdentifier = stx.isIdentifier := by
  rw [isIdentifier, symbol?_renumber, isIdentifier]

@[simp] theorem isSexp_renumber (stx : Syntax) : (stx.renumber ρ).isSexp = stx.isSexp := by
  cases stx with
  | atom c a => simp [isSexp]
  | group c shape items => cases shape <;> simp [isSexp]
  | record c fields => simp [isSexp]

/-! ## Wraps -/

/-- Whether a mark meets itself does not depend on numbers. -/
theorem pushWrap_renumber (wrap : Wrap) (wraps : List Wrap) :
    pushWrap (wrap.renumber ρ) (wraps.map (Wrap.renumber ρ)) =
      (pushWrap wrap wraps).map (Wrap.renumber ρ) := by
  cases wrap with
  | mark m =>
      cases wraps with
      | nil => rfl
      | cons top older =>
          cases top with
          | mark n =>
              by_cases h : m = n
              · simp [pushWrap, Wrap.renumber, h]
              · simp [pushWrap, Wrap.renumber, h]
          | _ => rfl
  | _ => rfl

theorem renumber_setContext (c : Context) (stx : Syntax) :
    (stx.setContext c).renumber ρ = (stx.renumber ρ).setContext (c.renumber ρ) := by
  cases stx <;> simp [setContext]

theorem renumber_addWrap (wrap : Wrap) (stx : Syntax) :
    (stx.addWrap wrap).renumber ρ = (stx.renumber ρ).addWrap (wrap.renumber ρ) := by
  rw [addWrap, renumber_setContext, addWrap, context_renumber]
  simp only [Context.renumber, pushWrap_renumber, Option.map_none]

theorem renumber_addWraps (newer : List Wrap) (stx : Syntax) :
    (stx.addWraps newer).renumber ρ =
      (stx.renumber ρ).addWraps (newer.map (Wrap.renumber ρ)) := by
  induction newer with
  | nil => rfl
  | cons wrap newer ih => rw [addWraps_cons, renumber_addWrap, ih, List.map_cons, addWraps_cons]

/-! ## Parts -/

@[simp] theorem subforms?_renumber (stx : Syntax) :
    (stx.renumber ρ).subforms? = stx.subforms?.map (List.map (renumber ρ)) := by
  cases stx with
  | atom c a => simp [subforms?]
  | group c shape items =>
      cases shape with
      | sexp => simp [subforms?, renumber_addWraps, Context.renumber]
      | list => simp [subforms?]
  | record c fields => simp [subforms?]

@[simp] theorem subforms_renumber (stx : Syntax) :
    (stx.renumber ρ).subforms = stx.subforms.map (renumber ρ) := by
  rw [subforms, subforms?_renumber, subforms]
  cases stx.subforms? <;> rfl

@[simp] theorem elements?_renumber (stx : Syntax) :
    (stx.renumber ρ).elements? = stx.elements?.map (List.map (renumber ρ)) := by
  cases stx with
  | atom c a => simp [elements?]
  | group c shape items =>
      cases shape with
      | sexp => simp [elements?]
      | list => simp [elements?, renumber_addWraps, Context.renumber]
  | record c fields => simp [elements?]

@[simp] theorem fields?_renumber (stx : Syntax) :
    (stx.renumber ρ).fields? =
      stx.fields?.map (List.map fun field => (field.1, field.2.renumber ρ)) := by
  cases stx with
  | atom c a => simp [fields?]
  | group c shape items => simp [fields?]
  | record c fields =>
      simp [fields?, Context.renumber, Function.comp_def, renumber_addWraps]

theorem renumber_rebuildSexp (stx : Syntax) (items : List Syntax) :
    (stx.rebuildSexp items).renumber ρ =
      (stx.renumber ρ).rebuildSexp (items.map (renumber ρ)) := by
  simp [rebuildSexp, Context.renumber]

theorem renumber_rebuildList (stx : Syntax) (items : List Syntax) :
    (stx.rebuildList items).renumber ρ =
      (stx.renumber ρ).rebuildList (items.map (renumber ρ)) := by
  simp [rebuildList, Context.renumber]

theorem renumber_rebuildRecord (stx : Syntax) (fields : List (String × Syntax)) :
    (stx.rebuildRecord fields).renumber ρ =
      (stx.renumber ρ).rebuildRecord (fields.map fun field => (field.1, field.2.renumber ρ)) := by
  simp [rebuildRecord, Context.renumber]

/-! ## Labels -/

/-- Labels stay when numbers change. -/
theorem unlabelled_renumber (stx : Syntax) :
    (stx.renumber ρ).unlabelled = stx.unlabelled.renumber ρ := by
  induction stx using partsInduction with
  | atom c a => simp [Context.renumber]
  | group c shape items ih =>
      simp only [renumber_group, unlabelled_group, List.map_map]
      exact congrArg _ (List.map_congr_left ih)
  | record c fields ih =>
      simp only [renumber_record, unlabelled_record, List.map_map]
      exact congrArg _ (List.map_congr_left fun field hfield => Prod.ext rfl (ih field hfield))

/-! ## Data and size -/

/-- A form is the same data under other numbers. -/
@[simp] theorem toDatum_renumber (stx : Syntax) : (stx.renumber ρ).toDatum = stx.toDatum := by
  induction stx using partsInduction with
  | atom c a => rw [renumber_atom, toDatum, toDatum]
  | group c shape items ih =>
      rw [renumber_group, toDatum, toDatum]
      refine congrArg _ ?_
      induction items with
      | nil => rfl
      | cons stx rest ihRest =>
          obtain ⟨hstx, hrest⟩ := List.forall_mem_cons.1 ih
          rw [List.map_cons, toDatumAll, toDatumAll, hstx, ihRest hrest]
  | record c fields ih =>
      rw [renumber_record, toDatum, toDatum]
      refine congrArg _ ?_
      induction fields with
      | nil => rfl
      | cons field rest ihRest =>
          obtain ⟨hfield, hrest⟩ := List.forall_mem_cons.1 ih
          rw [List.map_cons, toDatumFields, toDatumFields, hfield, ihRest hrest]

@[simp] theorem weight_renumber (stx : Syntax) : (stx.renumber ρ).weight = stx.weight := by
  induction stx using partsInduction with
  | atom c a => rw [renumber_atom, weight, weight]
  | group c shape items ih =>
      rw [renumber_group, weight, weight]
      refine congrArg _ ?_
      induction items with
      | nil => rfl
      | cons stx rest ihRest =>
          obtain ⟨hstx, hrest⟩ := List.forall_mem_cons.1 ih
          rw [List.map_cons, weightAll, weightAll, hstx, ihRest hrest]
  | record c fields ih =>
      rw [renumber_record, weight, weight]
      refine congrArg _ ?_
      induction fields with
      | nil => rfl
      | cons field rest ihRest =>
          obtain ⟨hfield, hrest⟩ := List.forall_mem_cons.1 ih
          rw [List.map_cons, weightFields, weightFields, hfield, ihRest hrest]

end Syntax

/-! ## Code -/

mutual

/-- The code with other addresses for the definitions of its namespace and other syntax objects
embedded in it.  The labels of its constants are taken off. -/
def Code.transport (address : Nat → Nat) (embedded : Syntax → Syntax) : Code → Code
  | .constant (.stx s) => .constant (.stx (embedded s))
  | .constant v => .constant v.erased
  | .void => .void
  | .localRef depth slot name => .localRef depth slot name
  | .topRef a name => .topRef (address a) name
  | .importRef id a name => .importRef id a name
  | .freeRef name origin => .freeRef name (embedded origin)
  | .localSet depth slot value => .localSet depth slot (value.transport address embedded)
  | .topSet a value => .topSet (address a) (value.transport address embedded)
  | .define name a value => .define name (address a) (value.transport address embedded)
  | .defineSyntax name a value origin =>
    .defineSyntax name (address a) (value.transport address embedded) (embedded origin)
  | .branch test consequent alternative =>
    .branch (test.transport address embedded) (consequent.transport address embedded)
      (alternative.transport address embedded)
  | .sequence forms => .sequence (transportAll address embedded forms)
  | .lambda name required rest body => .lambda name required rest (body.transport address embedded)
  | .letIn inits body =>
    .letIn (transportAll address embedded inits) (body.transport address embedded)
  | .letrec inits body =>
    .letrec (transportAll address embedded inits) (body.transport address embedded)
  | .apply operator operands call =>
    .apply (operator.transport address embedded) (transportAll address embedded operands)
      (embedded call)
  | .parameterize bindings body =>
    .parameterize (transportPairs address embedded bindings) (body.transport address embedded)
  | .listLiteral elements => .listLiteral (transportAll address embedded elements)
  | .recordLiteral fields => .recordLiteral (transportFields address embedded fields)

/-- `transport` on the code of every form. -/
def Code.transportAll (address : Nat → Nat) (embedded : Syntax → Syntax) : List Code → List Code
  | [] => []
  | code :: rest => code.transport address embedded :: transportAll address embedded rest

/-- `transport` on the code of every clause. -/
def Code.transportPairs (address : Nat → Nat) (embedded : Syntax → Syntax) :
    List (Code × Code) → List (Code × Code)
  | [] => []
  | (first, second) :: rest =>
    (first.transport address embedded, second.transport address embedded) ::
      transportPairs address embedded rest

/-- `transport` on the code of every field. -/
def Code.transportFields (address : Nat → Nat) (embedded : Syntax → Syntax) :
    List (String × Code) → List (String × Code)
  | [] => []
  | (key, code) :: rest =>
    (key, code.transport address embedded) :: transportFields address embedded rest

end

/-- The code with the addresses, and the ribs and cells that embedded syntax objects mention,
renumbered.  Labels are taken off. -/
def Code.renumber (ρ : Renumbering) (code : Code) : Code :=
  code.transport ρ.address fun s => (s.renumber ρ).unlabelled

/-- The code without the labels in it. -/
def Code.unlabelled (code : Code) : Code := code.transport id Syntax.unlabelled

/-- The codes are the same up to the renumbering. -/
def Code.Twin (ρ : Renumbering) (code code' : Code) : Prop := code'.unlabelled = code.renumber ρ

end HygienicLisp
