import HygienicLisp.Expansion.Forms
import HygienicLisp.Proofs.Renaming.Correspondence

/-!
# Expanded forms in two spellings

`σ.Expanded T` says that `T` is a fully expanded expression in two spellings: an application, data
or a core form, all of whose identifiers resolve alike.  Only a quotation may have identifiers in
it that do not.

The lemmas put expanded forms together in the ways that expansion does.
-/

namespace HygienicLisp

/-- The clauses of a binding form, each with two parts. -/
def FormTree.ofClauses (cs : List (TwinTree × TwinTree)) : TwinTree :=
  .group .sexp (cs.map fun c => .group .sexp [c.1, c.2])

namespace Setting

variable (σ : Setting)

/-- The two sides are expanded alike. -/
inductive Expanded : TwinTree → Prop
  | leaf {a : ContextAtom × ContextAtom} (h : σ.Resolved a)
      (hvalue : ∀ f, σ.spaces.leafValue? a.1 ≠ some (.form f)) : Expanded (.leaf a)
  | list {items : List TwinTree} (h : ∀ T ∈ items, Expanded T) : Expanded (.group .list items)
  | record {fields : List (String × TwinTree)} (h : ∀ field ∈ fields, Expanded field.2) :
      Expanded (.record fields)
  | apply {items : List TwinTree} (h : ∀ T ∈ items, Expanded T) : Expanded (.group .sexp items)
  | sequence {head : ContextAtom × ContextAtom} {operands : List TwinTree} {f : CoreForm}
      (hhead : σ.Denotes f head) (hsequence : f = .ifForm ∨ f = .begin)
      (h : ∀ T ∈ operands, Expanded T) : Expanded (.group .sexp (.leaf head :: operands))
  | set {head : ContextAtom × ContextAtom} {target value : TwinTree} (hhead : σ.Denotes .set head)
      (htarget : target.All σ.Resolved) (hvalue : Expanded value) :
      Expanded (.group .sexp [.leaf head, target, value])
  | quoted {head : ContextAtom × ContextAtom} {T : TwinTree} {f : CoreForm}
      (hhead : σ.Denotes f head) (hquotes : f.quotes) (h : T.All σ.Spelled) :
      Expanded (.group .sexp [.leaf head, T])
  | lambda {head : ContextAtom × ContextAtom} {formals : TwinTree} {body : List TwinTree}
      (hhead : σ.Denotes .lambda head) (hformals : formals.All σ.Resolved)
      (hbody : ∀ T ∈ body, Expanded T) : Expanded (.group .sexp (.leaf head :: formals :: body))
  | binding {head : ContextAtom × ContextAtom} {cs : List (TwinTree × TwinTree)}
      {body : List TwinTree} {f : CoreForm} (hhead : σ.Denotes f head)
      (hbinds : f = .letForm ∨ f = .letrec) (hbinders : ∀ c ∈ cs, c.1.All σ.Resolved)
      (hinits : ∀ c ∈ cs, Expanded c.2) (hbody : ∀ T ∈ body, Expanded T) :
      Expanded (.group .sexp (.leaf head :: .ofClauses cs :: body))
  | parameterize {head : ContextAtom × ContextAtom} {cs : List (TwinTree × TwinTree)}
      {body : List TwinTree} (hhead : σ.Denotes .parameterize head)
      (hparameters : ∀ c ∈ cs, Expanded c.1) (hvalues : ∀ c ∈ cs, Expanded c.2)
      (hbody : ∀ T ∈ body, Expanded T) :
      Expanded (.group .sexp (.leaf head :: .ofClauses cs :: body))

/-- Two spellings of a form that has been expanded. -/
def OutForm (stx₁ stx₂ : Syntax) : Prop := ∃ T : TwinTree, σ.Expanded T ∧ Spells T stx₁ stx₂

/-- `OutForm` for the forms of two sequences. -/
def OutForms (forms₁ forms₂ : List Syntax) : Prop :=
  ∃ Ts : List TwinTree, (∀ T ∈ Ts, σ.Expanded T) ∧ SpellsAll Ts forms₁ forms₂

/-- Two spellings of an identifier or of binders, all of which resolve alike. -/
def OutNames (stx₁ stx₂ : Syntax) : Prop := ∃ T : TwinTree, T.All σ.Resolved ∧ Spells T stx₁ stx₂

/-- Two spellings of a head that denotes a core form. -/
def OutHead (f : CoreForm) (stx₁ stx₂ : Syntax) : Prop :=
  ∃ a : ContextAtom × ContextAtom, σ.Denotes f a ∧ Spells (.leaf a) stx₁ stx₂

variable {σ}

theorem OutForms.nil : σ.OutForms [] [] := ⟨[], by simp, .nil⟩

theorem OutForms.cons {stx₁ stx₂ : Syntax} {rest₁ rest₂ : List Syntax} (h : σ.OutForm stx₁ stx₂)
    (hrest : σ.OutForms rest₁ rest₂) : σ.OutForms (stx₁ :: rest₁) (stx₂ :: rest₂) := by
  obtain ⟨T, hT, hspells⟩ := h
  obtain ⟨Ts, hTs, hall⟩ := hrest
  exact ⟨T :: Ts, List.forall_mem_cons.2 ⟨hT, hTs⟩, .cons hspells hall⟩

section

variable {site₁ site₂ head₁ head₂ : Syntax} {forms₁ forms₂ body₁ body₂ : List Syntax}

theorem OutForms.list (h : σ.OutForms forms₁ forms₂) :
    σ.OutForm (site₁.rebuildList forms₁) (site₂.rebuildList forms₂) := by
  obtain ⟨Ts, hTs, hall⟩ := h
  exact ⟨.group .list Ts, .list hTs, .group hall _ _ _⟩

theorem OutForms.apply (h : σ.OutForms forms₁ forms₂) :
    σ.OutForm (site₁.rebuildSexp forms₁) (site₂.rebuildSexp forms₂) := by
  obtain ⟨Ts, hTs, hall⟩ := h
  exact ⟨.group .sexp Ts, .apply hTs, .rebuildSexp hall _ _⟩

theorem OutForms.sequence {f : CoreForm} (h : σ.OutForms forms₁ forms₂)
    (hsequence : f = .ifForm ∨ f = .begin) (hhead : σ.OutHead f head₁ head₂) :
    σ.OutForm (site₁.rebuildSexp (head₁ :: forms₁)) (site₂.rebuildSexp (head₂ :: forms₂)) := by
  obtain ⟨Ts, hTs, hall⟩ := h
  obtain ⟨a, ha, hspells⟩ := hhead
  exact ⟨_, .sequence ha hsequence hTs, .rebuildSexp (.cons hspells hall) _ _⟩

theorem OutForm.set {target₁ target₂ value₁ value₂ : Syntax} (hhead : σ.OutHead .set head₁ head₂)
    (htarget : σ.OutNames target₁ target₂) (hvalue : σ.OutForm value₁ value₂) :
    σ.OutForm (site₁.rebuildSexp [head₁, target₁, value₁])
      (site₂.rebuildSexp [head₂, target₂, value₂]) := by
  obtain ⟨a, ha, hspells⟩ := hhead
  obtain ⟨T, hT, hspellsTarget⟩ := htarget
  obtain ⟨U, hU, hspellsValue⟩ := hvalue
  refine ⟨_, .set ha hT hU, .rebuildSexp (.cons hspells (.cons hspellsTarget ?_)) _ _⟩
  exact .cons hspellsValue .nil

theorem OutForms.lambda {formals₁ formals₂ : Syntax} (hbody : σ.OutForms body₁ body₂)
    (hhead : σ.OutHead .lambda head₁ head₂) (hformals : σ.OutNames formals₁ formals₂) :
    σ.OutForm (site₁.rebuildSexp (head₁ :: formals₁ :: body₁))
      (site₂.rebuildSexp (head₂ :: formals₂ :: body₂)) := by
  obtain ⟨a, ha, hspells⟩ := hhead
  obtain ⟨T, hT, hspellsFormals⟩ := hformals
  obtain ⟨Ts, hTs, hall⟩ := hbody
  exact ⟨_, .lambda ha hT hTs, .rebuildSexp (.cons hspells (.cons hspellsFormals hall)) _ _⟩

end

/-! ## Clauses -/

variable (σ)

/-- The clauses of a binding form whose expressions have been expanded. -/
def OutClauses (stx₁ stx₂ : Syntax) : Prop :=
  ∃ cs : List (TwinTree × TwinTree), (∀ c ∈ cs, c.1.All σ.Resolved) ∧ (∀ c ∈ cs, σ.Expanded c.2) ∧
    Spells (.ofClauses cs) stx₁ stx₂

/-- Several clauses of a `parameterize` that have been expanded. -/
def OutCouples (items₁ items₂ : List Syntax) : Prop :=
  ∃ cs : List (TwinTree × TwinTree), (∀ c ∈ cs, σ.Expanded c.1) ∧ (∀ c ∈ cs, σ.Expanded c.2) ∧
    SpellsAll (cs.map fun c => .group .sexp [c.1, c.2]) items₁ items₂

variable {σ} {site₁ site₂ head₁ head₂ : Syntax} {body₁ body₂ : List Syntax}

/-- Clauses that are put together again from binders and expressions. -/
theorem outClauses_rebuildClauses {Ts : List TwinTree} (hTs : ∀ T ∈ Ts, T.All σ.Resolved)
    {ids₁ ids₂ inits₁ inits₂ : List Syntax} (hids : SpellsAll Ts ids₁ ids₂)
    (hinits : σ.OutForms inits₁ inits₂) :
    σ.OutClauses (Expansion.rebuildClauses site₁ ids₁ inits₁)
      (Expansion.rebuildClauses site₂ ids₂ inits₂) := by
  obtain ⟨Us, hUs, hinits⟩ := hinits
  suffices h : ∃ cs : List (TwinTree × TwinTree), (∀ c ∈ cs, c.1.All σ.Resolved) ∧
      (∀ c ∈ cs, σ.Expanded c.2) ∧ SpellsAll (cs.map fun c => .group .sexp [c.1, c.2])
        ((ids₁.zip inits₁).map fun clause => Syntax.sexp [clause.1, clause.2] site₁.span)
        ((ids₂.zip inits₂).map fun clause => Syntax.sexp [clause.1, clause.2] site₂.span) by
    obtain ⟨cs, hbinders, hexpanded, hall⟩ := h
    exact ⟨cs, hbinders, hexpanded, .rebuildSexp hall _ _⟩
  induction hids generalizing Us inits₁ inits₂ with
  | nil => exact ⟨[], by simp, by simp, .nil⟩
  | @cons T Ts id₁ id₂ rest₁ rest₂ head _ ih =>
      cases hinits with
      | nil => exact ⟨[], by simp, by simp, .nil⟩
      | @cons U Us init₁ init₂ more₁ more₂ hinit hmore =>
          obtain ⟨hT, hTs⟩ := List.forall_mem_cons.1 hTs
          obtain ⟨hU, hUs⟩ := List.forall_mem_cons.1 hUs
          obtain ⟨cs, hbinders, hexpanded, hall⟩ := ih hTs Us hUs hmore
          refine ⟨(T, U) :: cs, List.forall_mem_cons.2 ⟨hT, hbinders⟩,
            List.forall_mem_cons.2 ⟨hU, hexpanded⟩, .cons ?_ hall⟩
          exact .group (.cons head (.cons hinit .nil)) _ _ _

theorem OutForms.binding {f : CoreForm} {clauses₁ clauses₂ : Syntax} (hbody : σ.OutForms body₁ body₂)
    (hbinds : f = .letForm ∨ f = .letrec) (hhead : σ.OutHead f head₁ head₂)
    (hclauses : σ.OutClauses clauses₁ clauses₂) :
    σ.OutForm (site₁.rebuildSexp (head₁ :: clauses₁ :: body₁))
      (site₂.rebuildSexp (head₂ :: clauses₂ :: body₂)) := by
  obtain ⟨a, ha, hspells⟩ := hhead
  obtain ⟨cs, hbinders, hinits, hspellsClauses⟩ := hclauses
  obtain ⟨Ts, hTs, hall⟩ := hbody
  exact ⟨_, .binding ha hbinds hbinders hinits hTs,
    .rebuildSexp (.cons hspells (.cons hspellsClauses hall)) _ _⟩

theorem OutCouples.nil : σ.OutCouples [] [] := ⟨[], by simp, by simp, .nil⟩

theorem OutCouples.cons {parameter₁ parameter₂ value₁ value₂ : Syntax} {rest₁ rest₂ : List Syntax}
    (hparameter : σ.OutForm parameter₁ parameter₂) (hvalue : σ.OutForm value₁ value₂)
    (hrest : σ.OutCouples rest₁ rest₂) :
    σ.OutCouples (site₁.rebuildSexp [parameter₁, value₁] :: rest₁)
      (site₂.rebuildSexp [parameter₂, value₂] :: rest₂) := by
  obtain ⟨T, hT, hspells⟩ := hparameter
  obtain ⟨U, hU, hspellsValue⟩ := hvalue
  obtain ⟨cs, hparameters, hvalues, hall⟩ := hrest
  refine ⟨(T, U) :: cs, List.forall_mem_cons.2 ⟨hT, hparameters⟩,
    List.forall_mem_cons.2 ⟨hU, hvalues⟩, .cons ?_ hall⟩
  exact .rebuildSexp (.cons hspells (.cons hspellsValue .nil)) _ _

theorem OutForms.parameterize {siteClauses₁ siteClauses₂ : Syntax} {items₁ items₂ : List Syntax}
    (hbody : σ.OutForms body₁ body₂) (hhead : σ.OutHead .parameterize head₁ head₂)
    (hitems : σ.OutCouples items₁ items₂) :
    σ.OutForm (site₁.rebuildSexp (head₁ :: siteClauses₁.rebuildSexp items₁ :: body₁))
      (site₂.rebuildSexp (head₂ :: siteClauses₂.rebuildSexp items₂ :: body₂)) := by
  obtain ⟨a, ha, hspells⟩ := hhead
  obtain ⟨cs, hparameters, hvalues, hall⟩ := hitems
  obtain ⟨Ts, hTs, hspellsBody⟩ := hbody
  have hclauses := Spells.rebuildSexp hall siteClauses₁ siteClauses₂
  exact ⟨_, .parameterize ha hparameters hvalues hTs,
    .rebuildSexp (.cons hspells (.cons hclauses hspellsBody)) _ _⟩

end Setting

end HygienicLisp
