import HygienicLisp.Proofs.Evaluation.ByParts
import HygienicLisp.Proofs.Soundness.Safety

/-!
# Primitives are safe

A primitive that is called with a number of arguments it accepts gives a sound value for sound
arguments, and fails only for reasons that concern the program.
-/

namespace HygienicLisp

/-! ## Results and failures -/

/-- A result that satisfies `P`, or a failure that is not an internal one. -/
def Fine {α : Type} (P : α → Prop) (r : Except Error α) : Prop :=
  match r with
  | .ok a => P a
  | .error e => e.External

theorem Fine.of_ends {α : Type} {P : α → Prop} {r : Except Error α} (h : Ends Error.External P r) :
    Fine P r := by
  cases r <;> exact h

theorem Error.external_of {fault : Fault} (h : fault.kind ≠ .internal) : (Error.of fault).External := h

theorem typeError_external {names : Names} {who expected : String} {position : Nat} {found : Value} :
    (typeError names who expected position found).External :=
  Error.external_of nofun

theorem Error.covers_external : Error.Covers Error.External := fun _ => Error.external_of

theorem Safe.ofFine {α : Type} {I : World → Prop} {L : Layout} {P : Layout → α → Prop}
    {r : Except Error α} (h : Fine (P L) r) : Safe I L P (RunM.ofExcept r) := by
  cases r with
  | ok a => exact .pure h
  | error e => exact .fail h

theorem Safe.ofEnds {α : Type} {I : World → Prop} {L : Layout} {P : Layout → α → Prop}
    {r : Except Error α} (h : Error.Covers Error.External → Ends Error.External (P L) r) :
    Safe I L P (RunM.ofExcept r) :=
  .ofFine (.of_ends (h Error.covers_external))

/-! ## Values and their parts -/

variable {L : Layout}

theorem Value.Sound.items {shape : Shape} {items : List Value} (h : (Value.group shape items).Sound L) :
    ∀ v ∈ items, v.Sound L := by
  cases h with
  | group hitems => exact hitems

theorem Value.Sound.fields {label : Nat} {fields : List (String × Value)}
    (h : (Value.record label fields).Sound L) : ∀ field ∈ fields, field.2.Sound L := by
  cases h with
  | record hfields => exact hfields

theorem Value.Sound.known {s : Syntax} (h : (Value.stx s).Sound L) : s.Known L := by
  cases h with
  | stx hs => exact hs

theorem Value.byParts_sound : Value.ByParts (Value.Sound L) where
  atom _ := .atom
  group := ⟨Value.Sound.items, .group⟩
  record := ⟨Value.Sound.fields, .record⟩

/-- Syntax made from sound data in a known context is known. -/
theorem Value.carriesOver_known {wraps : List Wrap} (hwraps : ∀ wrap ∈ wraps, L.KnowsWrap wrap)
    (span : Option Span) : Value.CarriesOver (Value.Sound L) (Syntax.Known L) wraps span where
  stx h := h.known
  atom _ := Syntax.Carries.addWraps (.atom (by simp) (by simp)) hwraps
  group hitems := Syntax.Carries.group (by simp) (by simp) hitems
  record hfields := Syntax.Carries.record (by simp) (by simp) hfields

theorem Syntax.ends_ofDatum_known {v : Value} {context : Option Syntax} (hv : v.Sound L)
    (hcontext : ∀ stx ∈ context, stx.Known L) :
    Ends Error.External (Syntax.Known L) (Syntax.ofDatum v context) := by
  have hconvert {wraps : List Wrap} (hwraps : ∀ wrap ∈ wraps, L.KnowsWrap wrap)
      (span : Option Span) : Ends Error.External (Syntax.Known L) (v.toSyntax wraps span) :=
    Value.byParts_sound.toSyntax Error.covers_external (Value.carriesOver_known hwraps span) hv
  cases context with
  | none => exact hconvert (by simp) none
  | some stx => exact hconvert (hcontext stx rfl).wraps stx.span

/-! ## Calls -/

/-- The namespaces have the given cells. -/
def HasCells (cells : CellTable) (w : World) : Prop :=
  w.spaces.cells = cells

/-- Soundness does not depend on marks, labels and the names of objects. -/
theorem World.Sound.congr {w w' : World} (h : w.Sound L) (hspaces : w'.spaces = w.spaces)
    (hframes : w'.frames = w.frames) (hdynamic : w'.dynamic = w.dynamic)
    (hribs : w'.nextRib = w.nextRib) : w'.Sound L where
  frames := hframes ▸ h.frames
  imports := hspaces ▸ h.imports
  slots := hframes ▸ h.slots
  values := hspaces ▸ h.values
  owners := hspaces ▸ h.owners
  targets := hspaces ▸ h.targets
  dynamic := hdynamic ▸ h.dynamic
  ribs := hribs ▸ h.ribs

section

variable {cells : CellTable}

/-- The predicate is about the namespaces only. -/
def OfSpaces (I : World → Prop) : Prop := ∀ w w' : World, w'.spaces = w.spaces → I w → I w'

theorem ofSpaces_hasCells : OfSpaces (HasCells cells) :=
  fun _ _ hspaces hI => (congrArg Spaces.cells hspaces).trans hI

theorem safe_stampSyntax {I : World → Prop} (hI : OfSpaces I) {stx : Syntax} (h : stx.Known L) :
    Safe I L (fun L' s => s.Known L') (stampSyntax stx) :=
  .modifyGet fun w hw hsound =>
    ⟨hI w _ rfl hw, L, le_rfl, hsound.congr rfl rfl rfl rfl, Syntax.Carries.stamp h _⟩

theorem safe_stampValue {I : World → Prop} (hI : OfSpaces I) {v : Value} (h : v.Sound L) :
    Safe I L (fun L' v => v.Sound L') (stampValue v) :=
  .modifyGet fun w hw hsound =>
    ⟨hI w _ rfl hw, L, le_rfl, hsound.congr rfl rfl rfl rfl, Value.byParts_sound.stamp h _⟩

theorem safe_newRecord {fields : List (String × Value)} (h : ∀ field ∈ fields, field.2.Sound L) :
    Safe (HasCells cells) L (fun L' v => v.Sound L') (newRecord fields) :=
  .modifyGet fun _ hI hw => ⟨hI, L, le_rfl, hw.congr rfl rfl rfl rfl, .record h⟩

theorem safe_newProcedure {name : Option String} {p : Procedure} (h : p.Sound L) :
    Safe (HasCells cells) L (fun L' v => v.Sound L') (newProcedure name p) := by
  refine .bind (.modifyGet (P := fun _ _ => True) fun w hI hw => ?_) fun L' id hL _ => ?_
  · exact ⟨hI, L, le_rfl, hw.congr rfl rfl rfl rfl, trivial⟩
  · exact .pure (.procedure (h.mono hL))

theorem safe_newTransformer {id : ObjectId} {p : Procedure} (h : p.Sound L) :
    Safe (HasCells cells) L (fun L' v => v.Sound L') (newTransformer id p) := by
  refine .get_bind fun w _ _ => ?_
  refine .bind (.modifyGet (P := fun _ _ => True) fun w hI hw => ?_) fun L' id hL _ => ?_
  · exact ⟨hI, L, le_rfl, hw.congr rfl rfl rfl rfl, trivial⟩
  · exact .pure (.transformer (h.mono hL))

theorem safe_wrongType {α : Type} {P : Layout → α → Prop} {who expected : String} {position : Nat}
    {found : Value} : Safe (HasCells cells) L P (wrongType who expected position found) :=
  .get_bind fun _ _ _ => .fail typeError_external

theorem safe_argument {args : List Value} {position : Nat} (hargs : ∀ v ∈ args, v.Sound L)
    (h : position < args.length) :
    Safe (HasCells cells) L (fun L' v => v.Sound L') (argument args position) := by
  rw [argument, List.getElem?_eq_getElem h]
  exact .pure (hargs _ (List.getElem_mem h))

theorem safe_syntaxArgument {args : List Value} {position : Nat} {who : String}
    (hargs : ∀ v ∈ args, v.Sound L) (h : position < args.length) :
    Safe (HasCells cells) L (fun L' s => s.Known L') (syntaxArgument args position who) := by
  refine (safe_argument hargs h).bind fun L' v _ hv => ?_
  cases v with
  | stx s => exact .pure hv.known
  | _ => exact safe_wrongType

theorem safe_identifierArgument {args : List Value} {position : Nat} {who : String}
    (hargs : ∀ v ∈ args, v.Sound L) (h : position < args.length) :
    Safe (HasCells cells) L (fun L' s => s.Known L') (identifierArgument args position who) := by
  refine (safe_argument hargs h).bind fun L' v _ hv => ?_
  cases v with
  | stx s =>
      dsimp only
      split
      · exact .pure hv.known
      · exact safe_wrongType
  | _ => exact safe_wrongType

theorem safe_mapM_stampSyntax {parts : List Syntax} (h : ∀ stx ∈ parts, stx.Known L) :
    Safe (HasCells cells) L (fun L' parts => ∀ stx ∈ parts, stx.Known L')
      (parts.mapM stampSyntax) := by
  induction parts generalizing L with
  | nil =>
      rw [List.mapM_nil]
      exact .pure (by simp)
  | cons stx rest ih =>
      obtain ⟨hstx, hrest⟩ := List.forall_mem_cons.1 h
      rw [List.mapM_cons]
      refine (safe_stampSyntax ofSpaces_hasCells hstx).bind fun L₁ stx hL₁ hstx => ?_
      refine (ih fun stx h => (hrest stx h).mono hL₁).bind fun L₂ rest hL₂ hrest => ?_
      exact .pure (List.forall_mem_cons.2 ⟨hstx.mono hL₂, hrest⟩)

theorem safe_syntaxSubforms {args : List Value} (hargs : ∀ v ∈ args, v.Sound L)
    (h : 0 < args.length) :
    Safe (HasCells cells) L (fun L' v => v.Sound L') (syntaxSubforms args) := by
  refine (safe_syntaxArgument hargs h).bind fun L' stx _ hstx => ?_
  cases hparts : stx.subforms? <|> stx.elements? with
  | none => exact safe_wrongType
  | some parts =>
      have hknown : ∀ part ∈ parts, part.Known L' := by
        cases hsub : stx.subforms? with
        | some subforms =>
            obtain rfl : subforms = parts := by simpa [hsub] using hparts
            exact hstx.subforms? hsub
        | none => exact Syntax.Carries.elements? hstx (by simpa [hsub] using hparts)
      refine (safe_mapM_stampSyntax hknown).bind fun L₂ parts _ hparts => .pure (.group ?_)
      intro v hv
      obtain ⟨stx, hmem, rfl⟩ := List.mem_map.1 hv
      exact .stx (hparts stx hmem)

theorem safe_contextArgument {args : List Value} (hargs : ∀ v ∈ args, v.Sound L) :
    Safe (HasCells cells) L (fun L' context => ∀ stx ∈ context, stx.Known L')
      (contextArgument args) := by
  unfold contextArgument
  split
  · rename_i s _
    refine .pure fun stx hstx => ?_
    obtain rfl := Option.some.inj hstx
    exact (hargs (.stx s) (by simp)).known
  · exact safe_wrongType
  · exact .pure (by simp)

theorem safe_datumToSyntax {args : List Value} (hargs : ∀ v ∈ args, v.Sound L)
    (h : 0 < args.length) :
    Safe (HasCells cells) L (fun L' v => v.Sound L') (datumToSyntax args) := by
  refine (safe_argument hargs h).bind fun L₁ datum hL₁ hdatum => ?_
  have hargs₁ : ∀ v ∈ args, v.Sound L₁ := fun v hv => (hargs v hv).mono hL₁
  refine (safe_contextArgument hargs₁).bind fun L₂ context hL₂ hcontext => ?_
  refine (Safe.ofEnds fun _ => Syntax.ends_ofDatum_known (hdatum.mono hL₂) hcontext).bind
    fun L₃ stx _ hstx => ?_
  exact (safe_stampSyntax ofSpaces_hasCells hstx).bind fun L₄ stx _ hstx => .pure (.stx hstx)

theorem Arity.min_le_of_accepts {a : Arity} {count : Nat} (h : a.accepts count) : a.min ≤ count := by
  rw [accepts, Bool.and_eq_true] at h
  simpa using h.1

/-- A primitive called with a number of arguments it accepts is safe. -/
theorem Primitive.safe_call {p : Primitive} {args : List Value} (hargs : ∀ v ∈ args, v.Sound L)
    (harity : p.arity.accepts args.length) :
    Safe (HasCells cells) L (fun L' v => v.Sound L') (p.call args) := by
  have hmin := Arity.min_le_of_accepts harity
  refine .get_bind fun w _ _ => ?_
  cases p with
  | add => exact .ofEnds fun hE => Value.byParts_sound.add hE _ _
  | sub => exact .ofEnds fun hE => Value.byParts_sound.sub hE _ _
  | mul => exact .ofEnds fun hE => Value.byParts_sound.mul hE _ _
  | div => exact .ofEnds fun hE => Value.byParts_sound.div hE _ _
  | equal => exact .pure .atom
  | less | greater | lessEqual | greaterEqual =>
      exact .ofEnds fun hE => Value.byParts_sound.compare hE _ _ _ _
  | not => exact (safe_argument hargs hmin).bind fun _ _ _ _ => .pure .atom
  | list => exact .pure (.group hargs)
  | sexp => exact .pure (.group hargs)
  | struct =>
      refine Safe.bind (P := fun L' fields => ∀ field ∈ fields, field.2.Sound L')
        (.ofEnds fun hE => Value.ByParts.structFields hE hargs) fun _ _ _ hfields => ?_
      exact safe_newRecord hfields
  | size =>
      exact (safe_argument hargs hmin).bind fun _ _ _ _ =>
        .ofEnds fun hE => Value.byParts_sound.size hE _ _
  | elt =>
      refine (safe_argument hargs (Nat.lt_of_succ_lt hmin)).bind fun L₁ v hL₁ hv => ?_
      have hargs₁ : ∀ v ∈ args, v.Sound L₁ := fun v hv => (hargs v hv).mono hL₁
      exact (safe_argument hargs₁ hmin).bind fun L₂ key hL₂ _ =>
        .ofEnds fun hE => Value.byParts_sound.elt hE (hv.mono hL₂)
  | head =>
      exact (safe_argument hargs hmin).bind fun _ _ _ hv =>
        .ofEnds fun hE => Value.byParts_sound.head hE hv
  | tail =>
      exact (safe_argument hargs hmin).bind fun _ _ _ hv =>
        .ofEnds fun hE => Value.byParts_sound.tail hE hv
  | isEmpty =>
      exact (safe_argument hargs hmin).bind fun _ _ _ _ =>
        .ofEnds fun hE => Value.byParts_sound.isEmpty hE _ _
  | isNull =>
      refine (safe_argument hargs hmin).bind fun _ v _ _ => ?_
      split <;> exact .pure .atom
  | isVoid =>
      refine (safe_argument hargs hmin).bind fun _ v _ _ => ?_
      split <;> exact .pure .atom
  | void => exact .pure .void
  | error => exact .fail (Error.external_of nofun)
  | makeParameter =>
      exact (safe_argument hargs hmin).bind fun _ _ _ hv => safe_newProcedure (.parameter hv)
  | syntaxSubforms => exact safe_syntaxSubforms hargs hmin
  | syntaxToDatum =>
      exact (safe_syntaxArgument hargs hmin).bind fun _ stx _ _ =>
        safe_stampValue ofSpaces_hasCells (Value.byParts_sound.toDatum stx)
  | datumToSyntax => exact safe_datumToSyntax hargs hmin
  | isIdentifier =>
      refine (safe_argument hargs hmin).bind fun _ v _ _ => ?_
      split <;> exact .pure .atom
  | boundIdentifierEqual =>
      refine (safe_identifierArgument hargs (Nat.lt_of_succ_lt hmin)).bind fun L₁ a hL₁ _ => ?_
      have hargs₁ : ∀ v ∈ args, v.Sound L₁ := fun v hv => (hargs v hv).mono hL₁
      refine (safe_identifierArgument hargs₁ hmin).bind fun L₂ b _ _ => ?_
      exact .getSpaces_bind fun _ _ _ => .pure .atom
  | freeIdentifierEqual =>
      refine (safe_identifierArgument hargs (Nat.lt_of_succ_lt hmin)).bind fun L₁ a hL₁ _ => ?_
      have hargs₁ : ∀ v ∈ args, v.Sound L₁ := fun v hv => (hargs v hv).mono hL₁
      refine (safe_identifierArgument hargs₁ hmin).bind fun L₂ b _ _ => ?_
      exact .getSpaces_bind fun _ _ _ => .pure .atom

end

end HygienicLisp
