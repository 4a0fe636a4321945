import HygienicLisp.Compile
import HygienicLisp.Proofs.Soundness.Primitives

/-!
# Forms whose binders fit their frames

Compilation makes a frame with one slot for each binder of a binding form, and takes the rib of
the first binder for the rib of that frame.  References to the variables of the rib are within
the frame exactly if the rib has as many variables as the form has binders.  `Fitting` says that
this is so for every binding form that compilation finds in a form.

The file also has what resolution can give in a sound world: a local variable is one of a rib that
has been made (`Syntax.Known.hasLocal`).
-/

namespace HygienicLisp

/-! ## Resolution -/

namespace Spaces

variable {spaces : Spaces}

/-- A local variable found by resolution is one of a rib in the chain. -/
theorem exists_rib_of_resolveWraps {name : String} {skip : Option NamespaceId} {wraps : List Wrap}
    {v : LocalVar} (h : (spaces.resolveWraps name skip wraps).1 = some (.lexical v)) :
    ∃ rib, .rename rib ∈ wraps ∧ rib.id = v.rib ∧ v.slot < rib.keys.length := by
  rw [resolveWraps] at h
  generalize wrapMarks wraps = total at h
  induction wraps with
  | nil => simp at h
  | cons wrap older ih =>
      rw [List.foldr_cons] at h
      -- A wrap leaves the binding as it was, or finds one of its own.
      have hlater (h : (older.foldr (spaces.resolveStep name skip total) (none, .empty)).1 =
          some (.lexical v)) :
          ∃ rib, .rename rib ∈ wrap :: older ∧ rib.id = v.rib ∧ v.slot < rib.keys.length := by
        obtain ⟨rib, hmem, hrib⟩ := ih h
        exact ⟨rib, List.mem_cons_of_mem _ hmem, hrib⟩
      cases wrap with
      | mark m => exact hlater h
      | rename rib =>
          simp only [resolveStep] at h
          split at h
          · rename_i v' hv'
            obtain rfl : v' = v := by simpa using h
            obtain ⟨slot, hslot, rfl⟩ := Option.map_eq_some_iff.1 hv'
            exact ⟨rib, List.mem_cons_self, rfl, (List.findIdx?_eq_some_iff_getElem.1 hslot).1⟩
          · exact hlater h
      | space ns =>
          simp only [resolveStep] at h
          split at h
          · exact hlater h
          · split at h
            · simp at h
            · exact hlater h
      | moduleRename ns =>
          simp only [resolveStep] at h
          split at h
          · exact hlater h
          · simp at h

end Spaces

/-- A local variable that an identifier denotes is one of a rib that has been made. -/
theorem Syntax.Known.hasLocal {L : Layout} {stx : Syntax} (h : stx.Known L) {spaces : Spaces}
    {v : LocalVar} (hv : spaces.resolve stx = some (.lexical v)) : L.HasLocal v := by
  cases hbinding : stx.context.binding with
  | some b =>
      obtain rfl : b = .lexical v := by simpa [Spaces.resolve, hbinding] using hv
      exact Syntax.Carries.binding h (.lexical v) hbinding v rfl
  | none =>
      rw [Spaces.resolve_of_binding_eq_none hbinding, Spaces.resolveWithMarks] at hv
      cases hname : stx.symbol? with
      | none => simp [hname] at hv
      | some name =>
          simp only [hname] at hv
          obtain ⟨rib, hmem, hid, hslot⟩ := Spaces.exists_rib_of_resolveWraps hv
          refine ⟨rib.keys.length, ?_, hslot⟩
          rw [← hid]
          exact Syntax.Carries.wraps h _ hmem rib rfl

/-! ## Binders and frames -/

namespace Compile

/-- The parts at a position of the clauses of a form. -/
def clauseParts (parts : List Syntax) (position : Nat) : List Syntax :=
  match parts[1]? with
  | some clauses => clauses.subforms.filterMap fun clause => clause.subforms[position]?
  | none => []

/-- The binders of a core form. -/
def binders (f : CoreForm) (parts : List Syntax) : List Syntax :=
  match f, parts[1]? with
  | .lambda, some formals => if formals.isIdentifier then [formals] else formals.subforms
  | .letForm, _ => clauseParts parts 0
  | .letrec, _ => clauseParts parts 0
  | _, _ => []

/-- The forms inside a core form that are compiled in turn. -/
def compiledParts (f : CoreForm) (parts : List Syntax) : List Syntax :=
  match f with
  | .ifForm | .begin => parts.drop 1
  | .lambda => parts.drop 2
  | .letForm | .letrec => clauseParts parts 1 ++ parts.drop 2
  | .set | .define | .defineSyntax => (parts[2]?).toList
  | .parameterize => clauseParts parts 0 ++ clauseParts parts 1 ++ parts.drop 2
  | .quote | .quoteSyntax | .moduleForm | .require | .provide => []

/-- The rib of the first binder, whose frame the form makes, has as many variables as there are
binders. -/
def BindersFit (spaces : Spaces) (binders : List Syntax) : Prop :=
  ∀ first ∈ binders.head?, ∀ v, spaces.resolve first = some (.lexical v) →
    ∃ rib, .rename rib ∈ first.wraps ∧ rib.id = v.rib ∧ rib.keys.length = binders.length

/-- The binders of every binding form that compilation finds in the form fit the frame that the
form makes. -/
inductive Fitting (spaces : Spaces) : Syntax → Prop
  | atom {c : Context} {a : Atom} : Fitting spaces (.atom c a)
  | list {stx : Syntax} {elements : List Syntax} (hparts : stx.elements? = some elements)
      (h : ∀ part ∈ elements, Fitting spaces part) : Fitting spaces stx
  | record {stx : Syntax} {fields : List (String × Syntax)} (hparts : stx.fields? = some fields)
      (h : ∀ field ∈ fields, Fitting spaces field.2) : Fitting spaces stx
  | application {stx head : Syntax} {rest : List Syntax} (hparts : stx.subforms = head :: rest)
      (hhead : coreForm? spaces head = none) (h : ∀ part ∈ head :: rest, Fitting spaces part) :
      Fitting spaces stx
  | core {stx head : Syntax} {rest : List Syntax} {f : CoreForm}
      (hparts : stx.subforms = head :: rest) (hhead : coreForm? spaces head = some f)
      (hbinders : BindersFit spaces (binders f (head :: rest)))
      (h : ∀ part ∈ compiledParts f (head :: rest), Fitting spaces part) : Fitting spaces stx

/-- Whether binders fit depends on the cells and the core forms of the namespaces only. -/
theorem Fitting.congr {spaces spaces' : Spaces} (hcells : spaces.cells = spaces'.cells)
    (hforms : ∀ head, coreForm? spaces head = coreForm? spaces' head) {stx : Syntax}
    (h : Fitting spaces stx) : Fitting spaces' stx := by
  induction h with
  | atom => exact .atom
  | list hparts _ ih => exact .list hparts ih
  | record hparts _ ih => exact .record hparts ih
  | application hparts hhead _ ih => exact .application hparts (hforms _ ▸ hhead) ih
  | core hparts hhead hbinders _ ih =>
      refine .core hparts (hforms _ ▸ hhead) (fun first hfirst v hv => ?_) ih
      rw [← Spaces.resolve_congr hcells] at hv
      exact hbinders first hfirst v hv

theorem Fitting.elements {spaces : Spaces} {stx : Syntax} {elements : List Syntax}
    (h : Fitting spaces stx) (hparts : stx.elements? = some elements) :
    ∀ part ∈ elements, Fitting spaces part := by
  cases h with
  | atom => simp [Syntax.elements?] at hparts
  | list hparts' h =>
      obtain rfl := Option.some.inj (hparts.symm.trans hparts')
      exact h
  | record hparts' =>
      cases stx <;> simp_all [Syntax.elements?, Syntax.fields?]
  | application hparts' =>
      rcases stx with _ | ⟨c, _ | _, items⟩ | _ <;>
        simp_all [Syntax.elements?, Syntax.subforms, Syntax.subforms?]
  | core hparts' =>
      rcases stx with _ | ⟨c, _ | _, items⟩ | _ <;>
        simp_all [Syntax.elements?, Syntax.subforms, Syntax.subforms?]

theorem Fitting.fields {spaces : Spaces} {stx : Syntax} {fields : List (String × Syntax)}
    (h : Fitting spaces stx) (hparts : stx.fields? = some fields) :
    ∀ field ∈ fields, Fitting spaces field.2 := by
  cases h with
  | atom => simp [Syntax.fields?] at hparts
  | list hparts' =>
      cases stx <;> simp_all [Syntax.elements?, Syntax.fields?]
  | record hparts' h =>
      obtain rfl := Option.some.inj (hparts.symm.trans hparts')
      exact h
  | application hparts' =>
      cases stx <;> simp_all [Syntax.fields?, Syntax.subforms, Syntax.subforms?]
  | core hparts' =>
      cases stx <;> simp_all [Syntax.fields?, Syntax.subforms, Syntax.subforms?]

/-- What fitting means for a sexp: a core form has binders that fit, and the parts that are
compiled fit in turn. -/
theorem Fitting.parts {spaces : Spaces} {stx head : Syntax} {rest : List Syntax}
    (h : Fitting spaces stx) (hparts : stx.subforms = head :: rest) :
    match coreForm? spaces head with
    | none => ∀ part ∈ head :: rest, Fitting spaces part
    | some f => BindersFit spaces (binders f (head :: rest)) ∧
        ∀ part ∈ compiledParts f (head :: rest), Fitting spaces part := by
  cases h with
  | atom => simp [Syntax.subforms, Syntax.subforms?] at hparts
  | list hparts' =>
      rcases stx with _ | ⟨c, _ | _, items⟩ | _ <;>
        simp_all [Syntax.elements?, Syntax.subforms, Syntax.subforms?]
  | record hparts' =>
      cases stx <;> simp_all [Syntax.fields?, Syntax.subforms, Syntax.subforms?]
  | application hparts' hhead h =>
      obtain ⟨rfl, rfl⟩ : head = _ ∧ rest = _ := by simpa using hparts.symm.trans hparts'
      rw [hhead]
      exact h
  | core hparts' hhead hbinders h =>
      obtain ⟨rfl, rfl⟩ : head = _ ∧ rest = _ := by simpa using hparts.symm.trans hparts'
      rw [hhead]
      exact ⟨hbinders, h⟩

end Compile

end HygienicLisp
