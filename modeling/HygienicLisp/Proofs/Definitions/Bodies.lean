import HygienicLisp.Proofs.Definitions.Expressions
import HygienicLisp.Proofs.Isolation.Modules

/-!
# The definitions of a form in a module body

A form in a module body defines what it is expanded to as definitions, in a `begin` or on its own.
Each `define_syntax` takes an address when it is expanded, so that a form takes the next addresses in
order.  A `define` takes none: its address was taken when the body was read first.  If it was, the
form is the definition itself, with the identifier that records the address.

Main statements: `declares_expand`, that the addresses are recorded in what a form is expanded to,
and `gives_declares`, that its code writes these addresses.
-/

namespace HygienicLisp

open Expansion

/-! ## Forms with definitions -/

/-- An expanded form of a module body that defines the identifiers which record the addresses. -/
inductive Declares (S : Spaces) (ns : NamespaceId) : Syntax → List Nat → Prop
  | expression {e : Syntax} (h : Expression S e) : Declares S ns e []
  | definition {e head target value : Syntax} {f : CoreForm} {address : Nat}
      (hparts : e.subforms? = some [head, target, value]) (hhead : coreForm? S head = some f)
      (hf : f = .define ∨ f = .defineSyntax) (htarget : S.Records ns target address)
      (hvalue : Expression S value) : Declares S ns e [address]
  | sequence {e head : Syntax} {parts : List (Syntax × List Nat)}
      (hparts : e.subforms? = some (head :: parts.map (·.1)))
      (hhead : coreForm? S head = some .begin)
      (hall : ∀ part ∈ parts, Declares S ns part.1 part.2) :
      Declares S ns e (parts.flatMap (·.2))

section

open Compile

variable {S : Spaces} {ns : NamespaceId} {compile : Scopes → Syntax → RunM Code} {scopes : Scopes}

/-- The address of an identifier that records one. -/
theorem gives_definedAddress {stx : Syntax} {address : Nat} (h : S.Records ns stx address) :
    Gives S (fun found => found.2 = address) (definedAddress ns stx) := by
  refine .getSpaces_bind fun w hw => ?_
  obtain ⟨d, hd, howner, haddress⟩ := h.denotes ""
  rw [hw.denoted_eq, hd]
  simp only [howner, if_true]
  exact .pure haddress

theorem gives_allDeclared {parts : List (Syntax × List Nat)}
    (h : ∀ part ∈ parts, Gives S (fun code => code.definitions = part.2) (compile scopes part.1)) :
    Gives S (fun codes => codes.flatMap Code.definitions = parts.flatMap (·.2))
      (all compile scopes (parts.map (·.1))) := by
  induction parts with
  | nil => exact .pure rfl
  | cons part rest ih =>
      obtain ⟨hpart, hrest⟩ := List.forall_mem_cons.1 h
      refine hpart.bind fun code hcode => (ih hrest).bind fun codes hcodes => .pure ?_
      rw [List.flatMap_cons, List.flatMap_cons, hcode, hcodes]

theorem gives_allBody {parts : List (Syntax × List Nat)}
    (h : ∀ part ∈ parts, Gives S (fun code => code.definitions = part.2) (compile scopes part.1)) :
    Gives S (fun code => code.definitions = parts.flatMap (·.2))
      (body compile scopes (parts.map (·.1))) := by
  match parts with
  | [] => exact .pure rfl
  | [part] =>
      rw [List.flatMap_singleton]
      exact h part List.mem_cons_self
  | first :: second :: rest =>
      refine (gives_allDeclared h).bind fun codes hcodes => .pure ?_
      rw [Code.definitions, Code.definitionsAll_eq, hcodes]

variable (hcompile : ∀ e, Expression S e → ∀ scopes, Barren S (compile scopes e))
include hcompile

/-- The value of a definition that is a `lambda`, which is compiled with the name of the variable. -/
theorem barren_lambdaParts {value : Syntax} (hvalue : Expression S value) {w : World}
    (hw : SameReads S w) {inner : List Syntax} (hinner : lambdaParts? w.spaces value = some inner)
    (name : Option String) : Barren S (Compile.lambda compile scopes value inner name) := by
  unfold lambdaParts? at hinner
  split at hinner
  · rename_i head rest hsubforms
    split at hinner <;> cases hinner
    rename_i hhead
    rw [hw.coreForm?] at hhead
    -- Only a core form can have the head that makes the value a `lambda`.
    cases hvalue with
    | atom => cases hsubforms
    | list hparts =>
        cases value with
        | atom | record => cases hparts
        | group c shape items =>
            cases shape with
            | sexp => cases hparts
            | list => cases hsubforms
    | record hparts =>
        cases value with
        | atom | group => cases hparts
        | record c fields => cases hsubforms
    | application hparts hall =>
        rw [Syntax.subforms_of_subforms? hparts] at hsubforms
        cases hsubforms
        cases hhead.symm.trans (hall _ List.mem_cons_self).coreForm?
    | core hparts hhead' hdefine hdefineSyntax hall =>
        rw [Syntax.subforms_of_subforms? hparts] at hsubforms
        cases hsubforms
        cases hhead.symm.trans hhead'
        exact barren_lambda (fun part hpart => hcompile part (hall part hpart)) name
  · cases hinner

theorem gives_definition {form head target value : Syntax} {address : Nat}
    (htarget : S.Records ns target address) (hvalue : Expression S value) :
    Gives S (fun code => code.definitions = [address])
      (definition ns compile scopes form [head, target, value]) := by
  refine (reads_operand 1).bind fun found hfound => ?_
  cases hfound
  refine (gives_definedAddress htarget).bind fun named hnamed => ?_
  refine (reads_operand 2).bind fun found hfound => .getSpaces_bind fun w hw => ?_
  cases hfound
  split
  · next inner hinner =>
    refine (barren_lambdaParts hcompile hvalue hw hinner _).bind fun code hcode => .pure ?_
    rw [Code.definitions, hcode, hnamed]
  · refine (hcompile value hvalue scopes).bind fun code hcode => .pure ?_
    rw [Code.definitions, hcode, hnamed]

theorem gives_syntaxDefinition {form head target value : Syntax} {address : Nat}
    (htarget : S.Records ns target address) (hvalue : Expression S value) :
    Gives S (fun code => code.definitions = [address])
      (Compile.core ns compile scopes .defineSyntax form [head, target, value]) := by
  refine (reads_operand 1).bind fun found hfound => ?_
  cases hfound
  refine (gives_definedAddress htarget).bind fun named hnamed => ?_
  refine (reads_operand 2).bind fun found hfound => ?_
  cases hfound
  refine (hcompile value hvalue scopes).bind fun code hcode => .pure ?_
  rw [Code.definitions, hcode, hnamed]

end

/-- The code of a form with definitions writes their addresses. -/
theorem gives_declares {S : Spaces} {ns : NamespaceId} {e : Syntax} {addresses : List Nat}
    (h : Declares S ns e addresses) (fuel : Nat) (scopes : Scopes) :
    Gives S (fun code => code.definitions = addresses) (Compile.compileAt ns fuel scopes e) := by
  induction fuel generalizing e addresses scopes with
  | zero => exact .exhausted
  | succ fuel ih =>
      cases h with
      | expression h => exact barren_compileAt h ns (fuel + 1) scopes
      | definition hparts hhead hf htarget hvalue =>
          have hcompile (e : Syntax) (he : Expression S e) (scopes : Scopes) :
              Barren S (Compile.compileAt ns fuel scopes e) :=
            barren_compileAt he ns fuel scopes
          refine gives_sexp hparts (fun f hf' => ?_) fun hnone => ?_
          · cases hhead.symm.trans hf'
            rcases hf with rfl | rfl
            · exact gives_definition hcompile htarget hvalue
            · exact gives_syntaxDefinition hcompile htarget hvalue
          · cases hhead.symm.trans hnone
      | sequence hparts hhead hall =>
          refine gives_sexp hparts (fun f hf => ?_) fun hnone => ?_
          · cases hhead.symm.trans hf
            exact gives_allBody fun part hpart => ih (hall part hpart) scopes
          · cases hhead.symm.trans hnone


/-! ## Addresses that a body takes -/

/-- The addresses are distinct and lie from the first bound up to the second. -/
structure FreshBetween (first last : Nat) (addresses : List Nat) : Prop where
  le : first ≤ last
  nodup : addresses.Nodup
  within : ∀ address ∈ addresses, first ≤ address ∧ address < last

namespace FreshBetween

variable {first middle last : Nat} {addresses addresses' : List Nat}

theorem nil (h : first ≤ last) : FreshBetween first last [] := ⟨h, .nil, by simp⟩

theorem next (h : first < last) : FreshBetween first last [first] :=
  ⟨h.le, by simp, List.forall_mem_singleton.2 ⟨le_rfl, h⟩⟩

theorem from_start {start : Nat} (h : FreshBetween first last addresses) (hstart : start ≤ first) :
    FreshBetween start last addresses where
  le := hstart.trans h.le
  nodup := h.nodup
  within address haddress := (h.within address haddress).imp_left hstart.trans

theorem append (h : FreshBetween first middle addresses)
    (h' : FreshBetween middle last addresses') :
    FreshBetween first last (addresses ++ addresses') where
  le := h.le.trans h'.le
  nodup := List.nodup_append.2 ⟨h.nodup, h'.nodup, fun address haddress address' haddress' =>
    Nat.ne_of_lt ((h.within address haddress).2.trans_le (h'.within address' haddress').1)⟩
  within := List.forall_mem_append.2
    ⟨fun address haddress => (h.within address haddress).imp_right fun hlt => hlt.trans_le h'.le,
    (h'.from_start h.le).within⟩

theorem perm (h : FreshBetween first last addresses) (hperm : addresses.Perm addresses') :
    FreshBetween first last addresses' :=
  ⟨h.le, hperm.nodup h.nodup, fun address haddress => h.within address (hperm.mem_iff.2 haddress)⟩

end FreshBetween

/-! ## Expansion -/

section

variable {guard : Guard} {ns : NamespaceId} {w w' : World}

/-- The world is guarded and the namespace is one of a module. -/
structure InModule (guard : Guard) (ns : NamespaceId) (w : World) : Prop where
  guarded : w.Guarded guard
  module : w.spaces.IsModule ns

/-- What a computation that respects the guard leaves when it ends well. -/
theorem InModule.after (hw : InModule guard ns w) {α : Type} {P : World → α → Prop} {x : RunM α}
    {a : α} (hx : Respects guard P x w) (hrun : x w = .ok a w') :
    InModule guard ns w' ∧ w.spaces.Lasts w'.spaces := by
  have hx := hx hw.guarded
  rw [hrun] at hx
  exact ⟨⟨hx.1, hx.2.1.lasting.module ns hw.module⟩, hx.2.1.lasting⟩

/-- Uses of transformers lead to a deeper form, unless there are none. -/
theorem Invokes.depth {form form' : Syntax} {depth depth' : Nat}
    (h : Invokes form depth w form' depth' w') :
    depth < depth' ∨ form' = form ∧ depth' = depth ∧ w' = w := by
  induction h with
  | refl => exact .inr ⟨rfl, rfl, rfl⟩
  | step _ _ _ ih =>
      rcases ih with hlt | ⟨-, rfl, -⟩
      · exact .inl (Nat.lt_of_succ_lt hlt)
      · exact .inl (Nat.lt_succ_self _)

theorem Invokes.inModule {form form' : Syntax} {depth depth' : Nat}
    (h : Invokes form depth w form' depth' w') (hw : InModule guard ns w) :
    InModule guard ns w' ∧ w.spaces.Lasts w'.spaces := by
  induction h with
  | refl => exact ⟨hw, .refl _⟩
  | @step form _ _ _ _ w _ _ fuel id procedureId p hhead hinvoke _ ih =>
      have hp := hw.guarded.transformer hhead
      obtain ⟨hw₁, hlasts₁⟩ := hw.after (harmless_invoke hp fuel id procedureId form w) hinvoke
      obtain ⟨hw₂, hlasts₂⟩ := ih hw₁
      exact ⟨hw₂, hlasts₁.trans hlasts₂⟩

/-- The watch of a form in a module body: every form is met as what it is in the given namespaces,
and a `define` of the body is met as the form itself, which was defined when the body was read first.
-/
def lawful (reserved : Bool) (final : Spaces) : Watch := fun now depth context form =>
  steady final now depth context form &&
    (headKind now form.deciding ≠ .core .define || context ≠ .moduleBody ||
      reserved && decide (depth = 1))

/-- The form is a definition whose identifier records the address. -/
def Reserved (S : Spaces) (ns : NamespaceId) (form : Syntax) (address : Nat) : Prop :=
  ∃ head target value, form.subforms? = some [head, target, value] ∧ S.Records ns target address

end

section

variable {guard : Guard} {loader : Loader} {ns : NamespaceId} {S : Spaces} {reserved : Bool}
  {w w' : World} {fuel depth : Nat} {form e : Syntax}

theorem Watched.inModule (hloader : loader.Obedient guard) {watch : Watch} {context : ExpandContext}
    (hw : InModule guard ns w)
    (h : Watched.expand watch loader ns fuel depth context form w = .ok e w') :
    InModule guard ns w' ∧ w.spaces.Lasts w'.spaces :=
  hw.after (harmless_expand hloader ns fuel depth context form w) (Watched.expand_eq_ok h)

/-- What is expanded declares addresses that were taken between the bounds. -/
def DeclaresTaken (S : Spaces) (ns : NamespaceId) (first last : Nat) (e : Syntax) : Prop :=
  ∃ addresses, Declares S ns e addresses ∧ FreshBetween first last addresses

/-- The parts of a `begin`, one after the other. -/
theorem declares_expandEach (hloader : loader.Obedient guard)
    (hexpand : ∀ ⦃form : Syntax⦄ ⦃w : World⦄ ⦃e : Syntax⦄ ⦃w' : World⦄, InModule guard ns w →
      w'.spaces.Lasts S →
      Watched.expand (lawful reserved S) loader ns fuel depth .moduleBody form w = .ok e w' →
      DeclaresTaken S ns (w.spaces.taken ns) (w'.spaces.taken ns) e)
    {forms es : List Syntax} (hw : InModule guard ns w) (hlast : w'.spaces.Lasts S)
    (h : expandEach (Watched.expand (lawful reserved S) loader ns fuel depth) .moduleBody forms w =
      .ok es w') :
    w.spaces.Lasts w'.spaces ∧ ∃ parts : List (Syntax × List Nat), es = parts.map (·.1) ∧
      (∀ part ∈ parts, Declares S ns part.1 part.2) ∧
      FreshBetween (w.spaces.taken ns) (w'.spaces.taken ns) (parts.flatMap (·.2)) := by
  induction forms generalizing w es with
  | nil =>
      cases h
      exact ⟨.refl _, [], rfl, by simp, .nil le_rfl⟩
  | cons stx rest ih =>
      obtain ⟨e, w₁, hstx, h⟩ := RunM.bind_eq_ok.1 h
      obtain ⟨es, w₂, hrest, h⟩ := RunM.bind_eq_ok.1 h
      cases h
      obtain ⟨hw₁, hlasts₁⟩ := Watched.inModule hloader hw hstx
      obtain ⟨hlasts, parts, rfl, hall, hfresh⟩ := ih hw₁ hrest
      obtain ⟨addresses, he, haddresses⟩ := hexpand hw (hlasts.trans hlast) hstx
      refine ⟨hlasts₁.trans hlasts, (e, addresses) :: parts, rfl, ?_, ?_⟩
      · exact List.forall_mem_cons.2 ⟨he, hall⟩
      · exact haddresses.append hfresh

/-- A `define` in a module body, whose address was taken before. -/
theorem moduleDefine_eq_ok {expand : ExpandContext → Syntax → RunM Syntax} {parts : List Syntax}
    (h : core expand loader ns .define form parts .moduleBody w = .ok e w') :
    ∃ head target value value', form.subforms = [head, target, value] ∧
      expand .expression value w = .ok value' w' ∧ e = form.rebuildSexp [head, target, value'] := by
  obtain ⟨_, _, hchecked, h⟩ := RunM.bind_eq_ok.1 h
  obtain ⟨-, rfl⟩ := expectDefinitions_eq_ok.1 hchecked
  obtain ⟨_, _, hnormal, h⟩ := RunM.bind_eq_ok.1 h
  cases hnormal
  rcases hparts : form.subforms with _ | ⟨head, _ | ⟨target, _ | ⟨value, _ | ⟨other, others⟩⟩⟩⟩ <;>
    simp only [hparts] at h
  · cases h
  · cases h
  · cases h
  · obtain ⟨value', w₁, hvalue, h⟩ := RunM.bind_eq_ok.1 h
    cases h
    exact ⟨head, target, value, value', rfl, hvalue, rfl⟩
  · cases h

/-- A `define_syntax`, which takes an address. -/
theorem syntaxDefinition_eq_ok {expand : ExpandContext → Syntax → RunM Syntax} {parts : List Syntax}
    {context : ExpandContext}
    (h : core expand loader ns .defineSyntax form parts context w = .ok e w') :
    ∃ head id target value value' w₁, parts = [head, id, value] ∧
      predefine ns id w = .ok target w₁ ∧ expand .expression value w₁ = .ok value' w' ∧
      e = form.rebuildSexp [head, target, value'] := by
  obtain ⟨_, _, hchecked, h⟩ := RunM.bind_eq_ok.1 h
  obtain ⟨-, rfl⟩ := expectDefinitions_eq_ok.1 hchecked
  obtain ⟨_, _, hchecked, h⟩ := RunM.bind_eq_ok.1 h
  obtain ⟨hcount, rfl⟩ := expectCount_eq_ok.1 hchecked
  obtain ⟨head, id, value, rfl⟩ := List.length_eq_three.1 hcount
  obtain ⟨target, w₁, htarget, h⟩ := RunM.bind_eq_ok.1 h
  obtain ⟨value', w₂, hvalue, h⟩ := RunM.bind_eq_ok.1 h
  cases h
  exact ⟨head, id, target, value, value', w₁, rfl, htarget, hvalue, rfl⟩

/-- What is rewritten as a core form is a sexp with the name of the form at its head. -/
theorem Rewrites.core_of_headKind {expand : ExpandContext → Syntax → RunM Syntax}
    {context : ExpandContext} {f : CoreForm} (h : Rewrites expand loader ns context w form e w')
    (hkind : headKind w.spaces form.deciding = .core f) :
    ∃ head rest, form.subforms? = some (head :: rest) ∧ form.deciding = head ∧
      Expansion.core expand loader ns f form (head :: rest) context w = .ok e w' := by
  cases h with
  | atom hatom => cases hatom.symm.trans hkind
  | list hparts =>
      cases form with
      | atom | record => cases hparts
      | group c shape items =>
          cases shape with
          | sexp => cases hparts
          | list => cases (headKind_of_not_identifier rfl).symm.trans hkind
  | record hparts =>
      cases form with
      | atom | group => cases hparts
      | record c fields => cases (headKind_of_not_identifier rfl).symm.trans hkind
  | application hparts hvariable =>
      rw [Syntax.deciding_of_subforms? hparts] at hkind
      cases hvariable.symm.trans hkind
  | core hparts hcore hrun =>
      have hdeciding := Syntax.deciding_of_subforms? hparts
      rw [hdeciding] at hkind
      cases hcore.symm.trans hkind
      exact ⟨_, _, hparts, hdeciding, hrun⟩

/-- A form that is met as the watch demands.  Only a `define` takes no address. -/
theorem declares_rewrites (hloader : loader.Obedient guard)
    (hexpand : ∀ ⦃form : Syntax⦄ ⦃w : World⦄ ⦃e : Syntax⦄ ⦃w' : World⦄, InModule guard ns w →
      w'.spaces.Lasts S →
      Watched.expand (lawful reserved S) loader ns fuel depth .moduleBody form w = .ok e w' →
      DeclaresTaken S ns (w.spaces.taken ns) (w'.spaces.taken ns) e)
    (hw : InModule guard ns w) (hlast : w'.spaces.Lasts S)
    {first : Nat} (hfirst : first ≤ w.spaces.taken ns) (hle : first ≤ w'.spaces.taken ns)
    (hwatch : lawful reserved S w.spaces depth .moduleBody form)
    (h : Rewrites (Watched.expand (lawful reserved S) loader ns fuel depth) loader ns .moduleBody w
      form e w') :
    DeclaresTaken S ns first (w'.spaces.taken ns) e ∨
      reserved ∧ depth = 1 ∧ ∀ address, Reserved S ns form address → Declares S ns e [address] := by
  obtain ⟨hsteady, hallowed⟩ := Bool.and_eq_true_iff.1 hwatch
  have hexpresses : Expresses S (Watched.expand (lawful reserved S) loader ns fuel depth) :=
    expression_expand (fun _ _ _ _ hwatch => (Bool.and_eq_true_iff.1 hwatch).1) fuel depth
  -- What defines nothing is an expression and takes no address.
  have hexpression (hnone : ∀ f ∈ [CoreForm.define, .defineSyntax, .begin],
      headKind w.spaces form.deciding ≠ .core f) :
      DeclaresTaken S ns first (w'.spaces.taken ns) e :=
    ⟨[], .expression (expression_rewrites hexpresses hsteady (by simp) (.inr hnone) h), .nil hle⟩
  have hsame := h.headKind_eq hsteady
  cases hkind : headKind w.spaces form.deciding with
  | core f =>
      obtain ⟨head, rest, hparts, hdeciding, hrun⟩ := h.core_of_headKind hkind
      have hhead : coreForm? S head = some f :=
        coreForm?_of_headKind (hdeciding ▸ hsame.trans hkind)
      cases f with
      | define =>
          obtain ⟨_, target, value, value', hsubforms, hvalue, rfl⟩ := moduleDefine_eq_ok hrun
          rw [Syntax.subforms_of_subforms? hparts] at hsubforms
          cases hsubforms
          -- The watch lets a `define` pass only where its address has been reserved.
          have hreserved : reserved ∧ depth = 1 := by simpa [hkind] using hallowed
          refine .inr ⟨hreserved.1, hreserved.2, ?_⟩
          rintro address ⟨_, _, _, hform, htarget⟩
          cases hparts.symm.trans hform
          exact .definition (Syntax.subforms?_rebuildSexp _ _) hhead (.inl rfl) htarget
            (hexpresses hvalue)
      | defineSyntax =>
          obtain ⟨_, id, target, value, value', w₁, hform, htarget, hvalue, rfl⟩ :=
            syntaxDefinition_eq_ok hrun
          cases hform
          obtain ⟨hrecords, htaken⟩ := predefine_records htarget
          obtain ⟨hw₁, hlasts₁⟩ := hw.after (harmless_predefine ns id w) htarget
          obtain ⟨-, hlasts₂⟩ := Watched.inModule hloader hw₁ hvalue
          refine .inl ⟨[w.spaces.taken ns], ?_, (FreshBetween.next ?_).from_start hfirst⟩
          · exact .definition (Syntax.subforms?_rebuildSexp _ _) hhead (.inr rfl)
              (hrecords.mono (hlasts₂.trans hlast) hw₁.module) (hexpresses hvalue)
          · exact Nat.lt_of_lt_of_le (htaken ▸ Nat.lt_succ_self _) (hlasts₂.taken ns)
      | begin =>
          obtain ⟨es, hes, rfl⟩ := begin_eq_ok.1 hrun
          obtain ⟨-, parts, rfl, hall, hfresh⟩ :=
            declares_expandEach hloader hexpand hw hlast hes
          exact .inl ⟨_, .sequence (Syntax.subforms?_rebuildSexp _ _) hhead hall, hfresh.from_start hfirst⟩
      | _ => exact .inl (hexpression (by simp [hkind]))
  | _ => exact .inl (hexpression (by simp [hkind]))

/-- The expansion of a form in a module body declares the addresses that it takes, unless the form was
defined when the body was read first: then it declares the address that it records. -/
theorem declares_expand (hloader : loader.Obedient guard) (hw : InModule guard ns w)
    (hlast : w'.spaces.Lasts S)
    (h : Watched.expand (lawful reserved S) loader ns fuel depth .moduleBody form w = .ok e w') :
    DeclaresTaken S ns (w.spaces.taken ns) (w'.spaces.taken ns) e ∨
      reserved ∧ depth = 0 ∧ ∀ address, Reserved S ns form address → Declares S ns e [address] := by
  induction fuel generalizing depth form e w w' with
  | zero => cases h
  | succ fuel ih =>
      obtain ⟨-, hlasts⟩ := Watched.inModule hloader hw h
      obtain ⟨form', depth', w₁, hinvokes, hwatch, hrewrites⟩ := Watched.expand_rewrites h
      obtain ⟨hw₁, hlasts₁⟩ := hinvokes.inModule hw
      have hdepth := hinvokes.depth
      have hexpand ⦃form : Syntax⦄ ⦃w : World⦄ ⦃e : Syntax⦄ ⦃w' : World⦄
          (hw : InModule guard ns w) (hlast : w'.spaces.Lasts S)
          (h : Watched.expand (lawful reserved S) loader ns fuel depth' .moduleBody form w =
            .ok e w') : DeclaresTaken S ns (w.spaces.taken ns) (w'.spaces.taken ns) e := by
        -- A part of the form stands deeper than the whole.
        rcases ih hw hlast h with htaken | ⟨-, hzero, -⟩
        · exact htaken
        · omega
      rcases declares_rewrites hloader hexpand hw₁ hlast (hlasts₁.taken ns) (hlasts.taken ns) hwatch
        hrewrites with htaken | ⟨hreserved, hone, hdeclares⟩
      · exact .inl htaken
      · rcases hinvokes.depth with hlt | ⟨rfl, rfl, -⟩
        · omega
        · exact .inr ⟨hreserved, Nat.succ_inj.1 hone, hdeclares⟩

end

end HygienicLisp
