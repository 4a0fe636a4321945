import HygienicLisp.Proofs.Renaming.LetForms

/-!
# Renaming by an injective function

`σ.Renamed ρ locals t` is how a caller sees the renaming of its local variables: `t` is an expression
in two spellings, written without any context, in the second of which the function `ρ` has been
applied to every local variable.  A binding form applies it to its own variables; any other name,
the names of core forms and transformers included, must stay and must not be taken for a variable
that has been renamed.  What stands in a use of a transformer, or in a quotation, is renamed in the
same way, whatever becomes of it.  The variables that only the operands of a use bind may be renamed
as well, if the form that it expands to has them as variables.

Main statement: for an injective `ρ` the two spellings correspond (`Renamed.corresponds`).
-/

namespace HygienicLisp

/-- Forms in two spellings, without context. -/
abbrev TextTree := FormTree (Atom × Atom)

/-! ## Names under a renaming -/

/-- The variables of a scope and their new names. -/
def renamedScope (ρ : String → String) (locals : List String) : List (String × String) :=
  locals.map fun x => (x, ρ x)

theorem sameName_of_mem {ρ : String → String} (hρ : Function.Injective ρ) {locals : List String}
    {x : String} (hx : x ∈ locals) : SameName (renamedScope ρ locals) x (ρ x) := by
  induction locals with
  | nil => cases hx
  | cons z locals ih =>
      by_cases hz : x = z
      · subst hz
        exact .inl ⟨rfl, rfl⟩
      · have hmem : x ∈ locals := (List.mem_cons.1 hx).resolve_left hz
        exact .inr ⟨hz, fun h => hz (hρ h), ih hmem⟩

theorem sameName_of_not_mem {ρ : String → String} {locals : List String} {x : String}
    (hx : x ∉ locals) (hfresh : ∀ z ∈ locals, ρ z ≠ x) : SameName (renamedScope ρ locals) x x := by
  induction locals with
  | nil => rfl
  | cons z locals ih =>
      obtain ⟨hz, hlocals⟩ := List.forall_mem_cons.1 hfresh
      have hne : x ≠ z := fun h => hx (h ▸ List.mem_cons_self)
      have hrest : x ∉ locals := fun h => hx (List.mem_cons_of_mem _ h)
      exact .inr ⟨hne, hz.symm, ih hrest hlocals⟩

namespace Setting

variable {σ : Setting} {P : List (Rib × Rib)}

/-- A rib has the key of a name of the caller exactly if it binds a variable of that name. -/
theorem mem_callerNames_iff {r : Rib × Rib} (hkeys : List.Forall₂ (σ.KeyPair P) r.1.keys r.2.keys)
    (x : String) :
    x ∈ (callerNames r).map (·.1) ↔ σ.spaces.leafKey (σ.caller₁ P x) ∈ r.1.keys := by
  obtain ⟨⟨id₁, keys₁⟩, id₂, keys₂⟩ := r
  simp only [callerNames] at hkeys ⊢
  induction hkeys with
  | nil => simp
  | @cons k₁ k₂ keys₁ keys₂ hkey _ ih =>
      rw [List.zip_cons_cons, List.filterMap_cons, List.mem_cons, ← ih]
      cases hkey with
      | own hmarks =>
          have hne : σ.spaces.leafKey (σ.caller₁ P x) ≠ k₁ := by
            rw [leafKey_caller₁]
            rintro rfl
            exact hmarks rfl
          rw [if_neg hmarks]
          simp [hne]
      | caller z y =>
          have hmarks : (σ.spaces.leafKey (σ.caller₁ P z)).marks = .empty := by rw [leafKey_caller₁]
          have hname : (σ.spaces.leafKey (σ.caller₁ P z)).name = z := by rw [leafKey_caller₁]
          rw [if_pos hmarks, leafKey_caller₁_inj, List.map_cons, List.mem_cons, hname]

/-- What ribs do to a name of the caller depends on whether it is the name of one of their
variables: if it is, they bind it, and otherwise they leave it. -/
theorem leafBinding_caller₁ (hP : σ.Ribs P) (x : String) :
    if x ∈ (scope P).map (·.1) then ∃ v, σ.spaces.leafBinding (σ.caller₁ P x) = some (.lexical v)
    else σ.spaces.leafBinding (σ.caller₁ P x) = σ.spaces.leafBinding (σ.caller₁ [] x) := by
  induction hP with
  | nil => rfl
  | @cons r P _ hkeys hP ih =>
      have hpush := σ.spaces.leafBinding_push_rename r.1 (a := σ.caller₁ P x) rfl
      have hscope : (scope (r :: P)).map (·.1) = (callerNames r).map (·.1) ++ (scope P).map (·.1) := by
        rw [scope, List.flatMap_cons, List.map_append]
        rfl
      rw [hscope, caller₁_cons, hpush]
      simp only [List.mem_append]
      by_cases hbound : x ∈ (callerNames r).map (·.1)
      · obtain ⟨slot, hslot⟩ : ∃ slot,
            r.1.keys.findIdx? (· = σ.spaces.leafKey (σ.caller₁ P x)) = some slot := by
          rw [← Option.isSome_iff_exists, List.findIdx?_isSome, List.any_eq_true]
          exact ⟨_, (mem_callerNames_iff hkeys x).1 hbound, by simp⟩
        rw [if_pos (.inl hbound), hslot]
        exact ⟨_, rfl⟩
      · have hnone : r.1.keys.findIdx? (· = σ.spaces.leafKey (σ.caller₁ P x)) = none := by
          rw [List.findIdx?_eq_none_iff]
          rintro key hkey
          rw [decide_eq_false_iff_not]
          rintro rfl
          exact hbound ((mem_callerNames_iff hkeys x).2 hkey)
        rw [hnone]
        simpa only [hbound, false_or] using ih

/-! ## Expressions of the caller -/

variable (σ)

/-- The context that an expression of the caller has inside ribs. -/
def place (P : List (Rib × Rib)) (a : Atom × Atom) : ContextAtom × ContextAtom :=
  (⟨callerChain σ.home (P.map Prod.fst), a.1⟩, ⟨callerChain σ.home (P.map Prod.snd), a.2⟩)

/-- An expression of the caller inside ribs. -/
def placed (P : List (Rib × Rib)) (t : TextTree) : TwinTree := t.map (σ.place P)

/-- The value of a name at the head of a form: local variables have none. -/
def nameValue? (locals : List String) (x : String) : Option Value :=
  if x ∈ locals then none else σ.spaces.leafValue? (σ.caller₁ [] x)

/-- The value of an expression at the head of a form. -/
def textValue? (locals : List String) : TextTree → Option Value
  | .leaf (.symbol x, _) => σ.nameValue? locals x
  | _ => none

variable (ρ : String → String)

/-- An atom of an expression inside the scope of variables, before and after these have been
renamed. -/
inductive Kept (locals : List String) : Atom × Atom → Prop
  | data {a : Atom} (h : ∀ x, a ≠ .symbol x) : Kept locals (a, a)
  | renamed {x : String} (hx : x ∈ locals) : Kept locals (.symbol x, .symbol (ρ x))
  /-- Any other name is left, and is none of the new names of variables.  If it denotes a
  transformer, then one with a template. -/
  | other {x : String} (hx : x ∉ locals) (hfresh : ∀ z ∈ locals, ρ z ≠ x)
      (hpermits : σ.Permits (σ.caller₁ [] x)) : Kept locals (.symbol x, .symbol x)

/-- A variable where it is bound. -/
def binder (x : String) : TextTree := .leaf (.symbol x, .symbol (ρ x))

/-- The formals of a `lambda` and the variables that they bind. -/
inductive Formals : TextTree → List String → Prop
  | each (names : List String) : Formals (.group .sexp (names.map (binder ρ))) names
  | rest (x : String) : Formals (binder ρ x) [x]

/-- The clauses of a binding form. -/
def textClauses (cs : List (String × TextTree)) : TextTree :=
  .group .sexp (cs.map fun c => .group .sexp [binder ρ c.1, c.2])

/-- The clauses of a `parameterize`. -/
def textCouples (cs : List (TextTree × TextTree)) : TextTree :=
  .group .sexp (cs.map fun c => .group .sexp [c.1, c.2])

/-- A head that denotes a core form inside the scope of variables. -/
structure HeadOf (f : CoreForm) (locals : List String) (head : Atom × Atom) : Prop where
  kept : σ.Kept ρ locals head
  value : σ.textValue? locals (.leaf head) = some (.form f)

/-- Ribs that bind the variables of a scope, under their old and their new names. -/
structure Around (P : List (Rib × Rib)) (locals : List String) : Prop where
  ribs : σ.Ribs P
  scope : scope P = renamedScope ρ locals

/-- The second spelling of an expression is the first with its local variables renamed. -/
inductive Renamed : List String → TextTree → Prop
  /-- Names are renamed alike everywhere.  No form is looked into: this may be a use of a
  transformer or a quotation. -/
  | closed {locals : List String} {t : TextTree} (h : t.All (σ.Kept ρ locals)) : Renamed locals t
  | list {locals : List String} {items : List TextTree} (h : ∀ t ∈ items, Renamed locals t) :
      Renamed locals (.group .list items)
  | record {locals : List String} {fields : List (String × TextTree)}
      (h : ∀ field ∈ fields, Renamed locals field.2) : Renamed locals (.record fields)
  | form {locals : List String} {head : TextTree} {operands : List TextTree}
      (hhead : headIsPlain (σ.textValue? locals head)) (h : ∀ t ∈ head :: operands, Renamed locals t) :
      Renamed locals (.group .sexp (head :: operands))
  | lambda {locals names : List String} {head : Atom × Atom} {formals : TextTree}
      {body : List TextTree} (hhead : σ.HeadOf ρ .lambda locals head) (hformals : Formals ρ formals names)
      (hbody : ∀ t ∈ body, Renamed (names ++ locals) t) :
      Renamed locals (.group .sexp (.leaf head :: formals :: body))
  | letForm {locals : List String} {head : Atom × Atom} {cs : List (String × TextTree)}
      {body : List TextTree} (hhead : σ.HeadOf ρ .letForm locals head)
      (hinits : ∀ c ∈ cs, Renamed locals c.2)
      (hbody : ∀ t ∈ body, Renamed (cs.map (·.1) ++ locals) t) :
      Renamed locals (.group .sexp (.leaf head :: textClauses ρ cs :: body))
  | letrec {locals : List String} {head : Atom × Atom} {cs : List (String × TextTree)}
      {body : List TextTree} (hhead : σ.HeadOf ρ .letrec locals head)
      (hinits : ∀ c ∈ cs, Renamed (cs.map (·.1) ++ locals) c.2)
      (hbody : ∀ t ∈ body, Renamed (cs.map (·.1) ++ locals) t) :
      Renamed locals (.group .sexp (.leaf head :: textClauses ρ cs :: body))
  | namedLet {locals : List String} {head : Atom × Atom} {name : String}
      {cs : List (String × TextTree)} {body : List TextTree}
      (hhead : σ.HeadOf ρ .letForm locals head) (hinits : ∀ c ∈ cs, Renamed locals c.2)
      (hbody : ∀ t ∈ body, Renamed (cs.map (·.1) ++ name :: locals) t) :
      Renamed locals (.group .sexp (.leaf head :: binder ρ name :: textClauses ρ cs :: body))
  | parameterize {locals : List String} {head : Atom × Atom} {cs : List (TextTree × TextTree)}
      {body : List TextTree} (hhead : σ.HeadOf ρ .parameterize locals head)
      (hparameters : ∀ c ∈ cs, Renamed locals c.1) (hvalues : ∀ c ∈ cs, Renamed locals c.2)
      (hbody : ∀ t ∈ body, Renamed locals t) :
      Renamed locals (.group .sexp (.leaf head :: textCouples cs :: body))
  /-- A use of a transformer may have operands that bind variables of their own; these may be
  renamed if what the use expands to corresponds. -/
  | use {locals : List String} {t : TextTree}
      (h : ∀ n P, σ.world.nextMark ≤ n → σ.Around ρ P locals → σ.Corresponds n P (σ.placed P t)) :
      Renamed locals t

/-! ## The spellings correspond -/

variable {σ ρ}

theorem placed_under (r : Rib × Rib) (P : List (Rib × Rib)) (t : TextTree) :
    (σ.placed P t).under r = σ.placed (r :: P) t := by
  rw [placed, FormTree.under, FormTree.map_map]
  rfl

section

variable {locals : List String}

theorem Around.names (h : σ.Around ρ P locals) : (HygienicLisp.scope P).map (·.1) = locals := by
  rw [h.scope, renamedScope, List.map_map]
  exact List.map_id locals

theorem Around.permits (h : σ.Around ρ P locals) {x : String}
    (hx : x ∉ locals → σ.Permits (σ.caller₁ [] x)) : σ.Permits (σ.caller₁ P x) := by
  have hbinding := leafBinding_caller₁ h.ribs x
  rw [h.names] at hbinding
  intro id procedureId p hvalue
  split at hbinding
  · obtain ⟨v, hv⟩ := hbinding
    rw [Spaces.leafValue?, hv] at hvalue
    cases hvalue
  · next hmem =>
    refine hx hmem id procedureId p ?_
    rwa [Spaces.leafValue?, hbinding] at hvalue

theorem Around.leafValue? (h : σ.Around ρ P locals) (x : String) :
    σ.spaces.leafValue? (σ.caller₁ P x) = σ.nameValue? locals x := by
  have hbinding := leafBinding_caller₁ h.ribs x
  rw [h.names] at hbinding
  rw [nameValue?]
  split at hbinding
  · next hmem =>
    obtain ⟨v, hv⟩ := hbinding
    rw [if_pos hmem, Spaces.leafValue?, hv]
  · next hmem => rw [if_neg hmem, Spaces.leafValue?, hbinding, Spaces.leafValue?]

theorem Around.treeValue? (h : σ.Around ρ P locals) (t : TextTree) :
    σ.spaces.treeValue? (σ.placed P t) = σ.textValue? locals t := by
  match t with
  | .leaf (.symbol x, _) => exact h.leafValue? x
  | .leaf (.null, _) => rfl
  | .leaf (.bool _, _) => rfl
  | .leaf (.int _, _) => rfl
  | .leaf (.float _, _) => rfl
  | .leaf (.str _, _) => rfl
  | .group shape items =>
      rw [placed, FormTree.map_group]
      rfl
  | .record fields =>
      rw [placed, FormTree.map_record]
      rfl

/-- Atoms that are renamed alike are pairs of the comparison. -/
theorem Kept.pairs (hρ : Function.Injective ρ) (hrenames : ∀ x, σ.renames x (ρ x)) {a : Atom × Atom}
    (h : σ.Kept ρ locals a) (hP : σ.Around ρ P locals) : σ.Pairs P (σ.place P a) := by
  cases h with
  | @data a hdata =>
      refine .data rfl ?_
      cases a with
      | symbol x => exact (hdata x rfl).elim
      | _ => rfl
  | renamed hx =>
      have hsame := sameName_of_mem hρ hx
      rw [← hP.scope] at hsame
      exact .caller hsame (.inr (hrenames _)) (hP.permits fun h => (h hx).elim)
  | other hx hfresh hpermits =>
      have hsame := sameName_of_not_mem hx hfresh
      rw [← hP.scope] at hsame
      exact .caller hsame (.inl rfl) (hP.permits fun _ => hpermits)

theorem HeadOf.denotes (hρ : Function.Injective ρ) (hrenames : ∀ x, σ.renames x (ρ x))
    {f : CoreForm} {head : Atom × Atom} (h : σ.HeadOf ρ f locals head) (hP : σ.Around ρ P locals) :
    σ.Denotes f (σ.place P head) :=
  ⟨(h.kept.pairs hρ hrenames hP).resolved hP.ribs, (hP.treeValue? (.leaf head)).trans h.value⟩

/-- The variables of a binding form inside ribs. -/
def placedBinders (σ : Setting) (ρ : String → String) (P : List (Rib × Rib)) (names : List String) :
    List (ContextAtom × ContextAtom) :=
  names.map fun x => σ.place P (.symbol x, .symbol (ρ x))

theorem binds_placedBinders (hρ : Function.Injective ρ) (hrenames : ∀ x, σ.renames x (ρ x))
    (P : List (Rib × Rib)) (names : List String) : σ.Binds P (placedBinders σ ρ P names) := by
  have hbinder (x : String) : σ.Binders P (σ.place P (.symbol x, .symbol (ρ x))) :=
    .caller (.inr (hrenames x))
  refine ⟨List.forall_mem_map.2 fun x _ => hbinder x, ?_⟩
  rw [KeysAlike, placedBinders, List.forall_mem_map]
  intro x _
  rw [List.forall_mem_map]
  intro y _
  refine (leafKey_caller₁_inj (σ := σ) (P := P)).trans ?_
  exact hρ.eq_iff.symm.trans (leafKey_caller₂_inj (σ := σ) (P := P)).symm

/-- Inside the ribs of a binding form its variables are in scope. -/
theorem Around.cons (hρ : Function.Injective ρ) (hrenames : ∀ x, σ.renames x (ρ x))
    (h : σ.Around ρ P locals) (names : List String) (id : RibId) :
    σ.Around ρ (σ.ribs id (placedBinders σ ρ P names) :: P) (names ++ locals) := by
  refine ⟨h.ribs.cons_ribs (binds_placedBinders hρ hrenames P names).binders id, ?_⟩
  have hkeys (x : String) : (σ.spaces.leafKey (σ.place P (.symbol x, .symbol (ρ x))).1).marks = .empty ∧
      (σ.spaces.leafKey (σ.place P (.symbol x, .symbol (ρ x))).1).name = x ∧
      (σ.spaces.leafKey (σ.place P (.symbol x, .symbol (ρ x))).2).name = ρ x := by
    have h₁ := σ.leafKey_caller₁ P x
    have h₂ := σ.leafKey_caller₂ P (ρ x)
    exact ⟨congrArg Key.marks h₁, congrArg Key.name h₁, congrArg Key.name h₂⟩
  have hnames : callerNames (σ.ribs id (placedBinders σ ρ P names)) = renamedScope ρ names := by
    simp only [callerNames, Setting.ribs, placedBinders, List.map_map, List.zip_map',
      List.filterMap_map, renamedScope]
    rw [← List.filterMap_eq_map]
    refine List.filterMap_congr fun x _ => ?_
    obtain ⟨hmarks, hname, hnew⟩ := hkeys x
    simp only [Function.comp_apply, hmarks, hname, hnew, if_true]
  rw [HygienicLisp.scope, List.flatMap_cons, hnames]
  change _ ++ HygienicLisp.scope P = _
  rw [h.scope, renamedScope, renamedScope, renamedScope, List.map_append]

theorem formals?_placed {formals : TextTree} {names : List String} (h : Formals ρ formals names)
    (P : List (Rib × Rib)) : (σ.placed P formals).formals? = some (placedBinders σ ρ P names) := by
  cases h with
  | each names =>
      rw [placed, FormTree.map_group, List.map_map, FormTree.formals?]
      have hsymbols : ∀ a ∈ placedBinders σ ρ P names, a.1.symbol?.isSome :=
        List.forall_mem_map.2 fun _ _ => rfl
      have hread := collect?_identifier?_map_leaf hsymbols
      rwa [placedBinders, List.map_map] at hread
  | rest x => rfl

theorem clauses?_placed (cs : List (String × TextTree)) (P : List (Rib × Rib)) :
    (σ.placed P (textClauses ρ cs)).clauses? =
      some (cs.map fun c => (σ.place P (.symbol c.1, .symbol (ρ c.1)), σ.placed P c.2)) := by
  rw [placed, textClauses, FormTree.map_group, List.map_map, FormTree.clauses?]
  induction cs with
  | nil => rfl
  | cons c cs ih =>
      rw [List.map_cons, collect?, ih, List.map_cons, Function.comp_apply, FormTree.map_group]
      rfl

theorem couples?_placed (cs : List (TextTree × TextTree)) (P : List (Rib × Rib)) :
    (σ.placed P (textCouples cs)).couples? =
      some (cs.map fun c => (σ.placed P c.1, σ.placed P c.2)) := by
  rw [placed, textCouples, FormTree.map_group, List.map_map, FormTree.couples?]
  induction cs with
  | nil => rfl
  | cons c cs ih =>
      rw [List.map_cons, collect?, ih, List.map_cons, Function.comp_apply, FormTree.map_group]
      rfl

/-- The two spellings of an expression whose variables are renamed injectively correspond. -/
theorem Renamed.corresponds (hρ : Function.Injective ρ) (hrenames : ∀ x, σ.renames x (ρ x))
    {t : TextTree} (h : σ.Renamed ρ locals t) {P : List (Rib × Rib)} (hP : σ.Around ρ P locals)
    {n : Mark} (hn : σ.world.nextMark ≤ n) : σ.Corresponds n P (σ.placed P t) := by
  -- Inside the ribs of variables the induction hypotheses hold with the longer scope.
  have hinside {P : List (Rib × Rib)} {locals : List String} {t : TextTree} (names : List String)
      (hP : σ.Around ρ P locals) (id : RibId)
      (ih : ∀ {P : List (Rib × Rib)}, σ.Around ρ P (names ++ locals) →
        σ.Corresponds n P (σ.placed P t)) :
      σ.Corresponds n (σ.ribs id (placedBinders σ ρ P names) :: P)
        ((σ.placed P t).under (σ.ribs id (placedBinders σ ρ P names))) := by
    rw [placed_under]
    exact ih (hP.cons hρ hrenames names id)
  have hclauseNames (cs : List (String × TextTree)) (P : List (Rib × Rib)) :
      (cs.map fun c => (σ.place P (.symbol c.1, .symbol (ρ c.1)), σ.placed P c.2)).map (·.1) =
        placedBinders σ ρ P (cs.map (·.1)) := by
    rw [placedBinders, List.map_map, List.map_map]
    rfl
  induction h generalizing P with
  | closed h => exact .closed (h.map fun a ha => ha.pairs hρ hrenames hP)
  | list _ ih =>
      rw [placed, FormTree.map_group]
      exact .list (List.forall_mem_map.2 fun t ht => ih t ht hP)
  | record _ ih =>
      rw [placed, FormTree.map_record]
      exact .record (List.forall_mem_map.2 fun field hfield => ih field hfield hP)
  | @form locals head operands hhead _ ih =>
      rw [placed, FormTree.map_group, List.map_cons]
      refine .form ?_ ?_
      · rw [← hP.treeValue?] at hhead
        exact hhead
      · exact List.forall_mem_map.2 fun t ht => ih t ht hP
  | @lambda locals names head formals body hhead hformals _ ih =>
      rw [placed, FormTree.map_group, List.map_cons, List.map_cons]
      refine .lambda (hhead.denotes hρ hrenames hP) (formals?_placed hformals P)
        (binds_placedBinders hρ hrenames P names) fun id => ?_
      exact List.forall_mem_map.2 fun t ht => hinside _ hP id fun hP' => ih t ht hP'
  | @letForm locals head cs body hhead _ _ ihinits ih =>
      rw [placed, FormTree.map_group, List.map_cons, List.map_cons]
      refine .letForm (hhead.denotes hρ hrenames hP) (clauses?_placed cs P) ?_
        (List.forall_mem_map.2 fun c hc => ihinits c hc hP) fun id => ?_
      · rw [hclauseNames]
        exact binds_placedBinders hρ hrenames P _
      · rw [hclauseNames]
        exact List.forall_mem_map.2 fun t ht => hinside _ hP id fun hP' => ih t ht hP'
  | @letrec locals head cs body hhead _ _ ihinits ih =>
      rw [placed, FormTree.map_group, List.map_cons, List.map_cons]
      refine .letrec (hhead.denotes hρ hrenames hP) (clauses?_placed cs P) ?_ (fun id => ?_)
        fun id => ?_
      · rw [hclauseNames]
        exact binds_placedBinders hρ hrenames P _
      · rw [hclauseNames]
        exact List.forall_mem_map.2 fun c hc => hinside _ hP id fun hP' => ihinits c hc hP'
      · rw [hclauseNames]
        exact List.forall_mem_map.2 fun t ht => hinside _ hP id fun hP' => ih t ht hP'
  | @namedLet locals head name cs body hhead _ _ ihinits ih =>
      rw [placed, FormTree.map_group, List.map_cons, List.map_cons, List.map_cons]
      have hname := binds_placedBinders hρ hrenames P [name]
      refine .namedLet (hhead.denotes hρ hrenames hP) (hname.binders _ List.mem_cons_self)
        (clauses?_placed cs P) ?_ (List.forall_mem_map.2 fun c hc => ihinits c hc hP) fun id id' => ?_
      · rw [hclauseNames]
        exact binds_placedBinders hρ hrenames P _
      · -- The parameters stand inside the rib of the name.
        have hparameters (r : Rib × Rib) : (placedBinders σ ρ P (cs.map (·.1))).map (under r) =
            placedBinders σ ρ (r :: P) (cs.map (·.1)) := by
          rw [placedBinders, placedBinders, List.map_map]
          rfl
        rw [hclauseNames, hparameters]
        refine List.forall_mem_map.2 fun t ht => ?_
        have hbody := hinside (t := t) (cs.map (·.1)) (hP.cons hρ hrenames [name] id) id'
          fun hP' => ih t ht hP'
        rw [← placed_under] at hbody
        exact hbody
  | @parameterize locals head cs body hhead _ _ _ ihparameters ihvalues ih =>
      rw [placed, FormTree.map_group, List.map_cons, List.map_cons]
      refine .parameterize (hhead.denotes hρ hrenames hP) (couples?_placed cs P) ?_ ?_ ?_
      · exact List.forall_mem_map.2 fun c hc => ihparameters c hc hP
      · exact List.forall_mem_map.2 fun c hc => ihvalues c hc hP
      · exact List.forall_mem_map.2 fun t ht => ih t ht hP
  | use h => exact h n P hn hP

theorem Around.nil : σ.Around ρ [] [] := ⟨.nil, rfl⟩

end

end Setting

end HygienicLisp
