import HygienicLisp.Proofs.Evaluation.ByParts
import HygienicLisp.Proofs.Spans.Traced

/-!
# Primitives copy ranges

The results of primitives are made from their arguments, and their failures have no place yet.
-/

namespace HygienicLisp

variable {given : Source → Prop}

/-! ## Values and their parts -/

theorem Reports.of_ends {α : Type} {Q : α → Prop} {r : Except Error α}
    (h : Error.Covers (Error.Traced given) → Ends (Error.Traced given) Q r) : Reports given Q r := by
  have hends := h fun fault _ => .of fault
  cases r <;> exact hends

theorem Copies.ofEnds {α : Type} {Q : α → Prop} {r : Except Error α}
    (h : Error.Covers (Error.Traced given) → Ends (Error.Traced given) Q r) :
    Copies given Q (RunM.ofExcept r) :=
  .ofExcept (.of_ends h)

namespace Value.Traced

theorem items {shape : Shape} {items : List Value} (h : (Value.group shape items).Traced given) :
    ∀ v ∈ items, v.Traced given := by
  cases h with
  | group hitems => exact hitems

theorem fields {label : Nat} {fields : List (String × Value)}
    (h : (Value.record label fields).Traced given) : ∀ field ∈ fields, field.2.Traced given := by
  cases h with
  | record hfields => exact hfields

theorem of_stx {s : Syntax} (h : (Value.stx s).Traced given) : s.Traced given := by
  cases h with
  | stx hs => exact hs

end Value.Traced

theorem Value.byParts_traced : Value.ByParts (Value.Traced given) where
  atom _ := .atom
  group := ⟨Value.Traced.items, .group⟩
  record := ⟨Value.Traced.fields, .record⟩

/-- Data have no ranges. -/
theorem Syntax.traced_toDatum (stx : Syntax) : stx.toDatum.Traced given :=
  Value.byParts_traced.toDatum stx

/-- Syntax made from data has the range of the form that lends its context. -/
theorem Value.carriesOver_traced {span : Option Span} (hspan : ∀ s ∈ span, Recorded given s)
    (wraps : List Wrap) : Value.CarriesOver (Value.Traced given) (Syntax.Traced given) wraps span where
  stx h := h.of_stx
  atom a := (Syntax.Traced.atom (c := { span }) hspan a).addWraps wraps
  group hitems := .group (c := { span }) hspan hitems
  record hfields := .record (c := { span }) hspan hfields

theorem Syntax.reports_ofDatum {v : Value} {context : Option Syntax} (hv : v.Traced given)
    (hcontext : ∀ stx ∈ context, stx.Traced given) :
    Reports given (Syntax.Traced given) (Syntax.ofDatum v context) := by
  have hconvert {span : Option Span} (hspan : ∀ s ∈ span, Recorded given s) (wraps : List Wrap) :
      Reports given (Syntax.Traced given) (v.toSyntax wraps span) :=
    .of_ends fun hE => Value.byParts_traced.toSyntax hE (Value.carriesOver_traced hspan wraps) hv
  cases context with
  | none => exact hconvert (by simp) []
  | some stx => exact hconvert (hcontext stx rfl).span stx.wraps

/-! ## Calls -/

/-- Ranges do not depend on fresh names. -/
theorem World.Traced.congr {w w' : World} (h : w.Traced given) (hspaces : w'.spaces = w.spaces)
    (hframes : w'.frames = w.frames) (hdynamic : w'.dynamic = w.dynamic)
    (hregistry : w'.registry = w.registry) (hruntime : w'.runtime = w.runtime) :
    w'.Traced given where
  values := hspaces ▸ h.values
  frames := hframes ▸ h.frames
  dynamic := hdynamic ▸ h.dynamic
  bodies := hregistry ▸ h.bodies
  sources := hruntime ▸ h.sources

theorem copies_stampSyntax {stx : Syntax} (h : stx.Traced given) :
    Copies given (Syntax.Traced given) (stampSyntax stx) :=
  .modifyGet fun _ hw => ⟨hw.congr rfl rfl rfl rfl rfl, h.stamp _⟩

theorem copies_stampValue {v : Value} (h : v.Traced given) :
    Copies given (Value.Traced given) (stampValue v) :=
  .modifyGet fun _ hw => ⟨hw.congr rfl rfl rfl rfl rfl, Value.byParts_traced.stamp h _⟩

theorem copies_newRecord {fields : List (String × Value)}
    (h : ∀ field ∈ fields, field.2.Traced given) :
    Copies given (Value.Traced given) (newRecord fields) :=
  .modifyGet fun _ hw => ⟨hw.congr rfl rfl rfl rfl rfl, .record h⟩

theorem copies_freshObject (name : Option String) :
    Copies given (fun _ => True) (freshObject name) :=
  .modifyGet fun _ hw => ⟨hw.congr rfl rfl rfl rfl rfl, trivial⟩

theorem copies_newProcedure {p : Procedure} (h : p.Traced given) (name : Option String) :
    Copies given (Value.Traced given) (newProcedure name p) :=
  (copies_freshObject name).bind fun _ _ => .pure (.procedure h)

theorem copies_newTransformer {p : Procedure} (h : p.Traced given) (id : ObjectId) :
    Copies given (Value.Traced given) (newTransformer id p) :=
  .get_bind fun _ _ => (copies_freshObject _).bind fun _ _ => .pure (.transformer h)

theorem copies_wrongType {α : Type} {Q : α → Prop} (who expected : String) (position : Nat)
    (found : Value) : Copies given Q (wrongType who expected position found : RunM α) :=
  .get_bind fun _ _ => .fail (.of _)

section

variable {args : List Value} (hargs : ∀ v ∈ args, v.Traced given)
include hargs

theorem copies_argument (position : Nat) :
    Copies given (Value.Traced given) (argument args position) := by
  rw [argument]
  split
  · rename_i hv
    exact .pure (hargs _ (List.mem_of_getElem? hv))
  · exact .failOf _

theorem copies_syntaxArgument (position : Nat) (who : String) :
    Copies given (Syntax.Traced given) (syntaxArgument args position who) := by
  refine (copies_argument hargs position).bind fun v hv => ?_
  cases v with
  | stx s => exact .pure hv.of_stx
  | _ => exact copies_wrongType _ _ _ _

theorem copies_identifierArgument (position : Nat) (who : String) :
    Copies given (fun _ => True) (identifierArgument args position who) := by
  refine (copies_argument hargs position).bind fun v _ => ?_
  cases v with
  | stx s =>
      dsimp only
      split
      · exact .pure trivial
      · exact copies_wrongType _ _ _ _
  | _ => exact copies_wrongType _ _ _ _

omit hargs in
theorem copies_mapM_stampSyntax {parts : List Syntax} (h : ∀ stx ∈ parts, stx.Traced given) :
    Copies given (fun parts => ∀ stx ∈ parts, stx.Traced given) (parts.mapM stampSyntax) := by
  induction parts with
  | nil => exact .pure (by simp)
  | cons stx rest ih =>
      obtain ⟨hstx, hrest⟩ := List.forall_mem_cons.1 h
      rw [List.mapM_cons]
      refine (copies_stampSyntax hstx).bind fun stx hstx => (ih hrest).bind fun rest hrest => ?_
      exact .pure (List.forall_mem_cons.2 ⟨hstx, hrest⟩)

theorem copies_syntaxSubforms : Copies given (Value.Traced given) (syntaxSubforms args) := by
  refine (copies_syntaxArgument hargs 0 _).bind fun stx hstx => ?_
  cases hparts : stx.subforms? <|> stx.elements? with
  | none => exact copies_wrongType _ _ _ _
  | some parts =>
      have htraced : ∀ part ∈ parts, part.Traced given := by
        cases hsub : stx.subforms? with
        | some subforms =>
            obtain rfl : subforms = parts := by simpa [hsub] using hparts
            exact hstx.subforms? hsub
        | none => exact hstx.elements? (by simpa [hsub] using hparts)
      refine (copies_mapM_stampSyntax htraced).bind fun parts hparts => .pure (.group ?_)
      exact List.forall_mem_map.2 fun stx hmem => .stx (hparts stx hmem)

theorem copies_contextArgument :
    Copies given (fun context => ∀ stx ∈ context, stx.Traced given) (contextArgument args) := by
  unfold contextArgument
  split
  · rename_i s _
    refine .pure fun stx hstx => ?_
    obtain rfl := Option.some.inj hstx
    exact (hargs (.stx s) (by simp)).of_stx
  · exact copies_wrongType _ _ _ _
  · exact .pure (by simp)

theorem copies_datumToSyntax : Copies given (Value.Traced given) (datumToSyntax args) := by
  refine (copies_argument hargs 0).bind fun datum hdatum => ?_
  refine (copies_contextArgument hargs).bind fun context hcontext => ?_
  refine (Copies.ofExcept (Syntax.reports_ofDatum hdatum hcontext)).bind fun stx hstx => ?_
  exact (copies_stampSyntax hstx).bind fun stx hstx => .pure (.stx hstx)

/-- One case for each primitive. -/
theorem Primitive.copies_call (p : Primitive) :
    Copies given (Value.Traced given) (p.call args) := by
  have hargument := copies_argument hargs
  refine .get_bind fun w _ => ?_
  cases p with
  | add => exact .ofEnds fun hE => Value.byParts_traced.add hE _ _
  | sub => exact .ofEnds fun hE => Value.byParts_traced.sub hE _ _
  | mul => exact .ofEnds fun hE => Value.byParts_traced.mul hE _ _
  | div => exact .ofEnds fun hE => Value.byParts_traced.div hE _ _
  | less | greater | lessEqual | greaterEqual =>
      exact .ofEnds fun hE => Value.byParts_traced.compare hE _ _ _ _
  | equal => exact .pure .atom
  | not => exact (hargument 0).bind fun _ _ => .pure .atom
  | list | sexp => exact .pure (.group hargs)
  | struct =>
      exact (Copies.ofEnds fun hE => Value.ByParts.structFields hE hargs).bind fun _ hfields =>
        copies_newRecord hfields
  | size =>
      exact (hargument 0).bind fun _ _ => .ofEnds fun hE => Value.byParts_traced.size hE _ _
  | elt =>
      refine (hargument 0).bind fun v hv => (hargument 1).bind fun key _ => ?_
      exact .ofEnds fun hE => Value.byParts_traced.elt hE hv
  | head => exact (hargument 0).bind fun _ hv => .ofEnds fun hE => Value.byParts_traced.head hE hv
  | tail => exact (hargument 0).bind fun _ hv => .ofEnds fun hE => Value.byParts_traced.tail hE hv
  | isEmpty =>
      exact (hargument 0).bind fun _ _ => .ofEnds fun hE => Value.byParts_traced.isEmpty hE _ _
  | isNull | isVoid | isIdentifier =>
      refine (hargument 0).bind fun v _ => ?_
      split <;> exact .pure .atom
  | void => exact .pure .void
  | error => exact .failOf _
  | makeParameter => exact (hargument 0).bind fun _ hv => copies_newProcedure (.parameter hv) none
  | syntaxSubforms => exact copies_syntaxSubforms hargs
  | syntaxToDatum =>
      exact (copies_syntaxArgument hargs 0 _).bind fun stx _ => copies_stampValue stx.traced_toDatum
  | datumToSyntax => exact copies_datumToSyntax hargs
  | boundIdentifierEqual | freeIdentifierEqual =>
      refine (copies_identifierArgument hargs 0 _).bind fun a _ => ?_
      refine (copies_identifierArgument hargs 1 _).bind fun b _ => ?_
      exact .getSpaces_bind fun _ _ => .pure .atom

end

end HygienicLisp
