import HygienicLisp.Proofs.Isolation.Sessions

/-!
# Imports cannot be changed from outside

A definition belongs to one namespace.  Code that is compiled in a namespace writes only addresses
that the namespace itself has taken, and an assignment to a definition of another one is refused
when it is compiled.  Code is run in the namespace that it was compiled in, wherever its closures
are passed to.  So the values of a namespace are changed by its own code and by the host alone.

Main statement: `imports_immutable`.
-/

namespace HygienicLisp

open Compile

variable {w : World} {ns : NamespaceId}

/-! ## Compilation in a consistent world -/

/-- What compiled code writes, its namespace has taken for an identifier in the form. -/
theorem World.Consistent.sourced (hw : w.Consistent) {stx : Syntax} {code : Code} {w' : World}
    (hrun : compile ns stx w = .ok code w') : AllSourced w.spaces ns stx code :=
  ((respects_compile ns stx).of_run hw.guarded hrun).2.2.1

/-- Compilation reads the same before and after it. -/
theorem World.Consistent.sameReads (hw : w.Consistent) {fuel : Nat} {scopes : Scopes} {stx : Syntax}
    {code : Code} {w' : World} (hrun : compileAt ns fuel scopes stx w = .ok code w') :
    SameReads w.spaces w' := by
  have hmakes : Makes (.sparing fun _ => False) w.spaces (AllSourced w.spaces ns stx)
      (compileAt ns fuel scopes stx) := makes_compileAt hw.spaces fuel scopes stx .self
  exact ((hmakes w ⟨rfl, fun _ _ => rfl⟩ (.refl w.spaces)).of_run hw.guarded hrun).2.1

/-! ## Assignments -/

theorem compileAt_set {form head : Syntax} {parts : List Syntax}
    (hparts : form.subforms = head :: parts) (hhead : coreForm? w.spaces head = some .set)
    (fuel : Nat) (scopes : Scopes) :
    compileAt ns (fuel + 1) scopes form w =
      assignment ns (compileAt ns fuel) scopes form (head :: parts) w := by
  cases form with
  | atom c a => simp [Syntax.subforms, Syntax.subforms?] at hparts
  | record c fields => simp [Syntax.subforms, Syntax.subforms?] at hparts
  | group c shape items =>
      cases shape with
      | list => simp [Syntax.subforms, Syntax.subforms?] at hparts
      | sexp =>
          rw [compileAt, Compile.form, hparts]
          simp only [RunM.bind_apply, RunM.getSpaces_apply, hhead]
          rfl

/-- An assignment to a definition of another namespace is refused, unless its value is before. -/
theorem World.Consistent.compileAt_set_foreign (hw : w.Consistent) {form head target value : Syntax}
    {rest : List Syntax} {name : String} {d : Definition}
    (hparts : form.subforms = head :: target :: value :: rest)
    (hhead : coreForm? w.spaces head = some .set) (hname : target.symbol? = some name)
    (hd : (w.spaces.denoted target name).target? = some d) (hforeign : d.owner ≠ ns) (fuel : Nat)
    (scopes : Scopes) :
    compileAt ns (fuel + 1) scopes form w = match compileAt ns fuel scopes value w with
      | .ok _ w' => .error (.error (.atForm (.contract (.importMutation name)) form)) w'
      | .error halt w' => .error halt w' := by
  rw [compileAt_set hparts hhead, assignment]
  simp only [operand, List.getElem?_cons_succ, List.getElem?_cons_zero, pure_bind, hname]
  rw [RunM.bind_apply]
  cases hrun : compileAt ns fuel scopes value w with
  | error halt w' => rfl
  | ok code w' =>
      -- The value has been compiled by now, which has changed no cell.
      have hreads := hw.sameReads hrun
      have hsame : w'.spaces.denoted target name = w.spaces.denoted target name := by
        rw [Spaces.denoted, Spaces.resolve_congr hreads.cells, Spaces.denote_congr hreads.cells,
          Spaces.denoted]
      simp only [RunM.bind_apply, RunM.getSpaces_apply, hsame]
      cases hdenoted : w.spaces.denoted target name with
      | free name => simp [hdenoted, Denotation.target?] at hd
      | lexical v => simp [hdenoted, Denotation.target?] at hd
      | defined d' =>
          obtain rfl : d' = d := by simpa [hdenoted, Denotation.target?] using hd
          simp only [if_neg hforeign, RunM.fail_apply]
      | required i =>
          -- An import is refused whoever owns its target.
          simp only [RunM.fail_apply]

/-! ## Whole runs -/

/-- Imports cannot be changed from outside.  Every state that a run leads to is consistent, and in
every consistent state

* each instruction of compiled code that writes an address comes from a `set!`, `define` or
  `define_syntax` in the form, for whose identifier the namespace itself has taken the address;
* a `set!` whose target is a definition of another namespace is refused with a contract failure, in
  any scopes, unless its value expression is refused, whose failure it then is;
* slots keep their values, whatever is done next, unless code of their namespace that the state
  holds or that is compiled there writes them, or the host defines something in the namespace.

All code that the state of a run holds has been compiled in the namespace that it will be run in. -/
theorem imports_immutable :
    (∀ past, (({} : World).after past).Consistent) ∧
    (∀ w : World, w.Consistent →
      (∀ ns stx code w', compile ns stx w = .ok code w' → ∀ c f address, code.Contains c →
        c.write? = some (f, address) → ∃ form head target rest, stx.Has form ∧
          form.subforms = head :: target :: rest ∧ coreForm? w.spaces head = some f ∧
          w.spaces.TakenFor ns target address) ∧
      (∀ ns form head target value rest name d, form.subforms = head :: target :: value :: rest →
        coreForm? w.spaces head = some .set → target.symbol? = some name →
        (w.spaces.denoted target name).target? = some d → d.owner ≠ ns → ∀ fuel scopes,
          compileAt ns (fuel + 1) scopes form w = match compileAt ns fuel scopes value w with
            | .ok _ w' => .error (.error (.atForm (.contract (.importMutation name)) form)) w'
            | .error halt w' => .error halt w') ∧
      (∀ (slots : Slot → Prop) (future : List Action),
        (∀ slot, slots slot → slot.space < w.spaces.size) →
        w.Obeys (.sparing slots) → w.AllFit (.sparing slots) future → ∀ slot, slots slot →
          (w.after future).spaces.value? slot.space slot.address =
            w.spaces.value? slot.space slot.address)) ∧
    (∀ past, World.AllFit .provenance {} past → (({} : World).after past).Obeys .provenance) := by
  refine ⟨consistent_after, fun w hw => ⟨?_, ?_, ?_⟩, ?_⟩
  · intro ns stx code w' hrun c f address hc hwrite
    exact ((hw.sourced hrun).of_contains hc).write f address hwrite
  · intro ns form head target value rest name d hparts hhead hname hd hforeign fuel scopes
    exact hw.compileAt_set_foreign hparts hhead hname hd hforeign fuel scopes
  · intro slots future hthere hobeys hfit slot hslot
    have hguarded : w.Guarded (.sparing slots) := ⟨hw, hobeys, hthere⟩
    exact (hguarded.after hfit).2.kept slot hslot
  · intro past hfit
    exact ((World.guarded_empty fun _ => not_false).after hfit).1.obeys

/-! ## Two sessions -/

/-- Values without parts and without code. -/
def Value.isPlain : Value → Bool
  | .atom _ | .form _ => true
  | _ => false

theorem Value.obeys_of_isPlain {guard : Guard} {v : Value} (h : v.isPlain = true) :
    v.Obeys guard := by
  cases v with
  | atom a => exact .atom
  | form f => exact .form
  | _ => cases h

/-- Values are all that the world holds, and they are plain. -/
structure World.Plain (w : World) : Prop where
  values : w.spaces.all (fun space => space.values.all fun v => v.all Value.isPlain) = true
  frames : w.frames.isEmpty = true
  dynamic : w.dynamic.isEmpty = true
  declarations : w.registry.declarations.isEmpty = true

theorem World.Plain.obeys {guard : Guard} (h : w.Plain) : w.Obeys guard where
  values {ns address v} hv := by
    rw [Spaces.value?] at hv
    split at hv
    · rename_i space hspace
      have hvalues : space.values.all _ = true :=
        Array.all_eq_true_iff_forall_mem.1 h.values space (Array.mem_of_getElem? hspace)
      have hmem := Array.mem_of_getElem? (Option.join_eq_some_iff.1 hv)
      exact Value.obeys_of_isPlain (Array.all_eq_true_iff_forall_mem.1 hvalues (some v) hmem)
    · cases hv
  frames i f hf := by
    rw [Array.isEmpty_iff.1 h.frames] at hf
    simp at hf
  dynamic p hp := by
    rw [List.isEmpty_iff.1 h.dynamic] at hp
    cases hp
  bodies d hd := by
    rw [List.isEmpty_iff.1 h.declarations] at hd
    cases hd

/-- Where there are no slots to guard, an action fits that hands in plain values. -/
theorem Action.fits_of_isPlain {guard : Guard} (hslots : ∀ slot, ¬guard.slots slot)
    {action : Action} (hvalues : action.values.all Value.isPlain = true)
    (hcode : action.code? = none) :
    action.Fits guard w where
  compiled ns code hns := absurd (fun slot hslot => absurd hslot (hslots slot)) hns
  values v hv := Value.obeys_of_isPlain (List.all_eq_true.1 hvalues v hv)
  code ns code h := by
    rw [hcode] at h
    cases h
  define ns _ slot hslot := absurd hslot (hslots slot)

/-- The first of two sessions has `set!` and defines `x`. -/
def twoSessions : List Action :=
  [.openSession, .define 0 "set!" (.form .set), .define 0 "x" (.atom (.int 1)), .openSession]

/-- An identifier of the first session. -/
def firstSessionName (name : String) : Syntax := (Syntax.ident name).introduce 0

/-- An assignment to `x`, written in the first session. -/
def assignX (value : Syntax) : Syntax :=
  .sexp [firstSessionName "set!", firstSessionName "x", value] none

/-- The address that is written at the top of the code that a compilation ends with. -/
def writtenBy? : EStateM.Result Halt World Code → Option (CoreForm × Nat)
  | .ok code _ => code.write?
  | .error _ _ => none

/-- The assignment writes the address of `x` in the first session and is refused in the second, and
what is defined there leaves `x` alone. -/
theorem foreignAssignment_refused :
    (∃ form head target rest, (assignX (.atom {} (.int 5))).Has form ∧
      form.subforms = head :: target :: rest ∧
      coreForm? (({} : World).after twoSessions).spaces head = some .set ∧
      (({} : World).after twoSessions).spaces.TakenFor 0 target 1) ∧
    (∃ w', compile 1 (assignX (.atom {} (.int 5))) (({} : World).after twoSessions) =
      .error (.error (.atForm (.contract (.importMutation "x")) (assignX (.atom {} (.int 5))))) w') ∧
    ((({} : World).after twoSessions).after [.define 1 "y" (.atom (.int 2))]).spaces.value? 0 1 =
      (({} : World).after twoSessions).spaces.value? 0 1 ∧
    (({} : World).after twoSessions).Obeys .provenance := by
  obtain ⟨hconsistent, hstates, hprovenance⟩ := imports_immutable
  obtain ⟨hwrites, hrefused, hkept⟩ := hstates _ (hconsistent twoSessions)
  refine ⟨?_, ?_, ?_, ?_⟩
  · have hwritten : writtenBy? (compile 0 (assignX (.atom {} (.int 5)))
        (({} : World).after twoSessions)) = some (.set, 1) := by decide +kernel
    cases hrun : compile 0 (assignX (.atom {} (.int 5))) (({} : World).after twoSessions) with
    | ok code w' =>
        rw [hrun] at hwritten
        exact hwrites 0 _ code w' hrun code .set 1 .self hwritten
    | error halt w' =>
        rw [hrun] at hwritten
        cases hwritten
  · have hset := hrefused 1 (assignX (.atom {} (.int 5))) (firstSessionName "set!")
      (firstSessionName "x") (.atom {} (.int 5)) [] "x" ⟨"x", 1, 0, ⟨"/top-0"⟩⟩ rfl
      (by decide +kernel) rfl (by decide +kernel) (by decide) (assignX (.atom {} (.int 5))).weight []
    exact ⟨_, hset⟩
  · refine hkept (· = ⟨0, 1⟩) [.define 1 "y" (.atom (.int 2))] ?_ ?_ ?_ ⟨0, 1⟩ rfl
    · rintro slot rfl
      decide +kernel
    · exact World.Plain.obeys ⟨by decide +kernel, by decide +kernel, by decide +kernel,
        by decide +kernel⟩
    · refine ⟨⟨fun _ _ _ h => h.elim, ?_, nofun, ?_⟩, trivial⟩
      · exact fun v hv => Value.obeys_of_isPlain (List.all_eq_true.1 rfl v hv)
      · rintro ns ⟨⟩ slot rfl
        decide
  · have hfits {w : World} {action : Action} (hvalues : action.values.all Value.isPlain = true)
        (hcode : action.code? = none) : action.Fits .provenance w :=
      Action.fits_of_isPlain (fun _ => not_false) hvalues hcode
    refine hprovenance twoSessions ⟨?_, ?_, ?_, ?_, trivial⟩ <;> exact hfits rfl rfl

/-- An assignment to a name that is not bound. -/
def assignNope : Syntax :=
  .sexp [firstSessionName "set!", (Syntax.ident "nope").introduce 1, .atom {} (.int 1)] none

/-- The kind of failure that a compilation ends with. -/
def failureKind? : EStateM.Result Halt World Code → Option ErrorKind
  | .error (.error e) _ => some e.kind
  | _ => none

/-- A refused value comes before the refusal of the target: `(set! x (set! nope 1))` fails because
`nope` is unbound, and not with a contract failure. -/
theorem foreignAssignment_fails_in_value :
    ¬∀ (past : List Action) (ns : NamespaceId) (form head target value : Syntax)
      (rest : List Syntax) (name : String) (d : Definition),
      form.subforms = head :: target :: value :: rest →
      coreForm? (({} : World).after past).spaces head = some .set → target.symbol? = some name →
      ((({} : World).after past).spaces.denoted target name).target? = some d → d.owner ≠ ns →
      ∃ e w', compile ns form (({} : World).after past) = .error (.error e) w' ∧
        e.kind = .contract := by
  intro h
  have hkind : failureKind? (compile 1 (assignX assignNope) (({} : World).after twoSessions)) =
      some .unboundIdentifier := by decide +kernel
  obtain ⟨e, w', hrun, hcontract⟩ := h twoSessions 1 (assignX assignNope) (firstSessionName "set!")
    (firstSessionName "x") assignNope [] "x" ⟨"x", 1, 0, ⟨"/top-0"⟩⟩ rfl (by decide +kernel) rfl
    (by decide +kernel) (by decide)
  rw [hrun, failureKind?, hcontract] at hkind
  cases hkind

end HygienicLisp
