import HygienicLisp.Proofs.Namespaces.Capture
import HygienicLisp.Proofs.Namespaces.Changes
import Mathlib.Data.List.Range
import Mathlib.Logic.Relation

/-!
# What a namespace holds after any calls

Hosts and programs call the operations of a namespace in any order, and each call may fail.  From
outside one sees which addresses are handed out, by what the defined identifiers denote, and which
values are written where.

Main statement: `namespace_representation`.  However the calls are mixed, the table of the namespace
is in order, the addresses handed out are 0, 1, 2, ... without a repetition, and an address has the
value that was last written to it.
-/

namespace HygienicLisp

/-! ## Calls and what is seen of them -/

/-- What may be called on namespaces. -/
inductive Call where
  | operation (op : Operation)
  | bind (ns : NamespaceId) (d : Definition) (v : Value)

/-- The computation that carries out a call. -/
def Call.run : Call → RunM Unit
  | .operation op => op.run
  | .bind ns d v => bindDefinition ns d v

/-- The world after calls, each of which may fail. -/
def World.afterCalls (w : World) (calls : List Call) : World :=
  calls.foldl (fun w call => call.run.leaves w) w

/-- If an identifier can be defined, the address that it denotes then. -/
def handedOut (ns : NamespaceId) (stx : Syntax) (w : World) : List (Option Nat) :=
  match predefine ns stx w with
  | .ok stx' w' => [(w'.spaces.denoted stx' "").target?.map (·.address)]
  | .error _ _ => []

/-- The addresses that a call hands out in a namespace: one if it succeeds in defining. -/
def Call.taken (ns : NamespaceId) (w : World) : Call → List (Option Nat)
  | .operation (.predefine ns' stx) => if ns' = ns then handedOut ns stx w else []
  | .operation (.defineValue ns' name _) =>
    if ns' = ns then handedOut ns ((Syntax.ident name).introduce ns) w else []
  | _ => []

/-- The addresses to which a call writes in a namespace, and the values. -/
def Call.written (ns : NamespaceId) (w : World) : Call → List (Nat × Value)
  | .operation (.store ns' address v) => if ns' = ns then [(address, v)] else []
  | .operation (.defineValue ns' name v) =>
    if ns' = ns then
      match defineValue ns name v w with
      | .ok _ _ => (handedOut ns ((Syntax.ident name).introduce ns) w).reduceOption.map (·, v)
      | .error _ _ => []
    else []
  | .bind ns' d v =>
    if ns' = ns then
      match bindDefinition ns d v w with
      | .ok _ _ => [(d.address, v)]
      | .error _ _ => []
    else []
  | _ => []

/-- The addresses that calls hand out in a namespace, in order. -/
def World.taken (ns : NamespaceId) : World → List Call → List (Option Nat)
  | _, [] => []
  | w, call :: rest => call.taken ns w ++ World.taken ns (call.run.leaves w) rest

/-- What calls write in a namespace, in order. -/
def World.written (ns : NamespaceId) : World → List Call → List (Nat × Value)
  | _, [] => []
  | w, call :: rest => call.written ns w ++ World.written ns (call.run.leaves w) rest

/-- The value that was written last to an address. -/
def lastWritten (address : Nat) (written : List (Nat × Value)) : Option Value :=
  ((written.filter (·.1 = address)).getLast?).map (·.2)

theorem lastWritten_append (address : Nat) (earlier later : List (Nat × Value)) :
    lastWritten address (earlier ++ later) =
      (lastWritten address later <|> lastWritten address earlier) := by
  simp only [lastWritten, List.filter_append, List.getLast?_append]
  cases (later.filter (·.1 = address)).getLast? <;> rfl

/-! ## Logs -/

/-- The namespace has changed as the log says. -/
structure Namespace.Logged (ns : NamespaceId) (before after : Namespace) (taken : List (Option Nat))
    (written : List (Nat × Value)) : Prop where
  changes : Relation.ReflTransGen (Change (fun _ => True) (fun _ _ => True) ns) before after
  count : after.definitionCount = before.definitionCount + taken.length
  taken : taken = (List.range' before.definitionCount taken.length).map some
  values : ∀ address,
    after.value? address = (lastWritten address written <|> before.value? address)

namespace Namespace.Logged

variable {ns : NamespaceId} {first second third : Namespace} {taken taken' : List (Option Nat)}
  {written written' : List (Nat × Value)}

theorem refl (ns : NamespaceId) (space : Namespace) : Logged ns space space [] [] :=
  ⟨.refl, rfl, rfl, fun _ => rfl⟩

theorem trans (h : Logged ns first second taken written)
    (h' : Logged ns second third taken' written') :
    Logged ns first third (taken ++ taken') (written ++ written') where
  changes := h.changes.trans h'.changes
  count := by
    have hcount := h.count
    have hcount' := h'.count
    rw [List.length_append]
    omega
  taken := by
    rw [List.length_append, ← List.range'_append_1, List.map_append, ← h.taken, ← h.count,
      ← h'.taken]
  values address := by
    rw [h'.values, h.values, lastWritten_append]
    cases lastWritten address written' <;> rfl

/-- Storing a value is logged as a write. -/
theorem store (ns : NamespaceId) (space : Namespace) (address : Nat) (v : Value) :
    Logged ns space (space.setValue address v) [] [(address, v)] where
  changes := .single (.store trivial)
  count := rfl
  taken := rfl
  values other := by
    rw [value?_setValue_eq]
    by_cases hsame : other = address
    · rw [if_pos hsame, lastWritten, List.filter_cons_of_pos (by simp [hsame])]
      rfl
    · rw [if_neg hsame, lastWritten, List.filter_cons_of_neg (by simpa using Ne.symm hsame)]
      rfl

end Namespace.Logged

/-! ## What one call does to a namespace -/

variable {w : World} {ns : NamespaceId} {space : Namespace}

theorem Namespace.predefine_counts {space' : Namespace} {self : NamespaceId} {key : Key}
    {index : Nat} (h : space.predefine self key = .ok (index, space')) :
    space'.definitionCount = space.definitionCount + 1 ∧ space'.values = space.values := by
  obtain ⟨-, -, rfl⟩ | ⟨old, -, -, -, rfl⟩ := predefine_eq_ok.1 h <;> exact ⟨rfl, rfl⟩

theorem Namespace.require_counts {space' : Namespace} {key : Key} {provided : Provided}
    {shadowable : Bool} (h : space.require key provided shadowable = .ok space') :
    space'.definitionCount = space.definitionCount ∧ space'.values = space.values := by
  obtain ⟨-, rfl⟩ | ⟨index, there, -, -, ⟨-, -, rfl⟩ | ⟨-, -, rfl⟩⟩ := require_eq_ok.1 h <;>
    exact ⟨rfl, rfl⟩

/-- A change that takes no address and writes nothing has an empty log. -/
theorem Namespace.Logged.unwritten {space' : Namespace}
    (h : space.Change (fun _ => True) (fun _ _ => True) ns space')
    (hcount : space'.definitionCount = space.definitionCount)
    (hvalues : space'.values = space.values) : space.Logged ns space' [] [] where
  changes := .single h
  count := hcount
  taken := rfl
  values address := by
    rw [value?, hvalues]
    rfl

namespace Spaces

variable {spaces spaces' : Spaces} {other : NamespaceId}

/-- An identifier that has been defined denotes the definition with the next address. -/
theorem denoted_predefine {stx stx' : Syntax} {name : String} (hspace : spaces[ns]? = some space)
    (hname : stx.symbol? = some name) (h : spaces.predefine ns stx = .ok (stx', spaces'))
    (late : String) : spaces'.denoted stx' late = .defined (space.nextDefinition ns name) := by
  obtain ⟨_, _, index, hname', hspace', rfl, -, -, hcontent, -⟩ := predefine_spec h
  cases hname.symm.trans hname'
  cases hspace.symm.trans hspace'
  have hresolve : spaces'.resolve (stx.withBinding (.cell ⟨ns, index⟩)) =
      some (.cell ⟨ns, index⟩) := by
    cases stx <;> rfl
  rw [denoted, hresolve, Option.getD_some, denote, hcontent]
  rfl

/-- A successful definition hands out the next address and writes nothing. -/
theorem logged_predefine {stx stx' : Syntax} (hspace : spaces[ns]? = some space)
    (h : spaces.predefine ns stx = .ok (stx', spaces')) :
    (∃ space', spaces'[ns]? = some space' ∧
      space.Logged ns space' [some space.definitionCount] []) ∧
      ∃ d, (∀ name, spaces'.denoted stx' name = .defined d) ∧ d.owner = ns ∧
        d.address = space.definitionCount := by
  obtain ⟨name, space₁, index, space', hname, hspace₁, hdefined, -, rfl⟩ := predefine_eq_ok.1 h
  obtain rfl : space = space₁ := Option.some.inj (hspace.symm.trans hspace₁)
  constructor
  · obtain ⟨hcount, hvalues⟩ := Namespace.predefine_counts hdefined
    refine ⟨space', ?_, .single (Namespace.change_of_predefine hdefined), hcount, rfl, ?_⟩
    · rw [getElem?_setIfInBounds_of_some hspace, if_pos rfl]
    · intro address
      rw [Namespace.value?, hvalues]
      rfl
  · exact ⟨space.nextDefinition ns name, denoted_predefine hspace hname h, rfl, rfl⟩

theorem getElem?_predefine_of_ne {stx stx' : Syntax} (hne : other ≠ ns)
    (h : spaces.predefine other stx = .ok (stx', spaces')) : spaces'[ns]? = spaces[ns]? := by
  obtain ⟨_, _, _, -, -, -, -, -, -, hothers⟩ := predefine_spec h
  exact hothers ns (Ne.symm hne)

/-- An import writes nothing and hands out no address. -/
theorem logged_require {stx : Syntax} {provided : Provided} {shadowable : Bool}
    (hspace : spaces[ns]? = some space)
    (h : spaces.require other stx provided shadowable = .ok spaces') :
    ∃ space', spaces'[ns]? = some space' ∧ space.Logged ns space' [] [] := by
  obtain ⟨name, there, space', -, hthere, hrequired, rfl⟩ := require_eq_ok.1 h
  rw [getElem?_setIfInBounds_of_some hthere]
  by_cases hsame : ns = other
  · subst hsame
    cases hspace.symm.trans hthere
    refine ⟨space', if_pos rfl, ?_⟩
    obtain ⟨hcount, hvalues⟩ := Namespace.require_counts hrequired
    have hchange : space' = space ∨ space.Change (fun _ => True) (fun _ _ => True) ns space' :=
      Namespace.change_of_require trivial hrequired
    rcases hchange with rfl | hchange
    · exact .refl ns space'
    · exact .unwritten hchange hcount hvalues
  · exact ⟨space, (if_neg hsame).trans hspace, .refl ns space⟩

theorem logged_setValue (hspace : spaces[ns]? = some space) (other : NamespaceId) (address : Nat)
    (v : Value) :
    ∃ space', (spaces.setValue other address v)[ns]? = some space' ∧
      space.Logged ns space' [] (if other = ns then [(address, v)] else []) := by
  rw [setValue, Array.getElem?_modify, hspace]
  by_cases hsame : other = ns
  · rw [if_pos hsame, if_pos hsame]
    exact ⟨_, rfl, .store ns space address v⟩
  · rw [if_neg hsame, if_neg hsame]
    exact ⟨space, rfl, .refl ns space⟩

theorem logged_addImport (hspace : spaces[ns]? = some space) (other : NamespaceId) (d : Definition) :
    ∃ space', (spaces.addImport other d)[ns]? = some space' ∧ space.Logged ns space' [] [] := by
  rw [addImport, Array.getElem?_modify, hspace]
  split
  · exact ⟨_, rfl, .unwritten (.refer trivial) rfl rfl⟩
  · exact ⟨space, rfl, .refl ns space⟩

end Spaces

theorem logged_bindDefinition (hspace : w.spaces[ns]? = some space) (other : NamespaceId)
    (d : Definition) (v : Value) :
    ∃ space', ((bindDefinition other d v).leaves w).spaces[ns]? = some space' ∧
      space.Logged ns space' [] ((Call.bind other d v).written ns w) := by
  obtain ⟨space', hspace', hlogged⟩ := Spaces.logged_setValue hspace other d.address v
  rw [RunM.leaves, Call.written, bindDefinition_apply]
  by_cases hsame : other = ns
  · subst hsame
    rw [if_pos rfl] at hlogged
    rw [if_pos rfl, bindDefinition_apply]
    by_cases howner : d.owner = other
    · simp only [if_pos howner]
      exact ⟨space', hspace', hlogged⟩
    · simp only [if_neg howner]
      exact ⟨space, hspace, .refl other space⟩
  · rw [if_neg hsame] at hlogged ⊢
    by_cases howner : d.owner = other
    · simp only [if_pos howner]
      exact ⟨space', hspace', hlogged⟩
    · simp only [if_neg howner]
      exact ⟨space, hspace, .refl ns space⟩

theorem handedOut_of_predefine {stx stx' : Syntax} {spaces : Spaces}
    (hspace : w.spaces[ns]? = some space) (h : w.spaces.predefine ns stx = .ok (stx', spaces)) :
    handedOut ns stx w = [some space.definitionCount] := by
  obtain ⟨-, d, hd, -, haddress⟩ := Spaces.logged_predefine hspace h
  rw [handedOut, predefine_apply, h]
  simp only [hd, Denotation.target?, Option.map_some, haddress]

theorem handedOut_of_error {stx : Syntax} {e : Error} (h : w.spaces.predefine ns stx = .error e) :
    handedOut ns stx w = [] := by
  rw [handedOut, predefine_apply, h]

theorem logged_predefine (hspace : w.spaces[ns]? = some space) (other : NamespaceId)
    (stx : Syntax) :
    ∃ space', ((Operation.predefine other stx).run.leaves w).spaces[ns]? = some space' ∧
      space.Logged ns space' ((Call.operation (.predefine other stx)).taken ns w) [] := by
  rw [RunM.leaves, Operation.run, RunM.bind_apply, predefine_apply, Call.taken]
  cases h : w.spaces.predefine other stx with
  | error e =>
      refine ⟨space, hspace, ?_⟩
      split
      · rename_i hsame
        rw [handedOut_of_error (hsame ▸ h)]
        exact .refl ns space
      · exact .refl ns space
  | ok result =>
      obtain ⟨stx', spaces⟩ := result
      by_cases hsame : other = ns
      · subst hsame
        obtain ⟨⟨space', hspace', hlogged⟩, -⟩ := Spaces.logged_predefine hspace h
        rw [if_pos rfl, handedOut_of_predefine hspace h]
        exact ⟨space', hspace', hlogged⟩
      · rw [if_neg hsame]
        exact ⟨space, (Spaces.getElem?_predefine_of_ne hsame h).trans hspace, .refl ns space⟩

theorem defineValue_apply (ns : NamespaceId) (name : String) (v : Value) (w : World) :
    defineValue ns name v w =
      match w.spaces.predefine ns ((Syntax.ident name).introduce ns) with
      | .error e => .error (.error e) w
      | .ok (stx, spaces) =>
        match spaces.denoted stx name with
        | .defined d => bindDefinition ns d v { w with spaces }
        | _ => .error (.error (.of (.internal (.noDefinition name)))) { w with spaces } := by
  rw [defineValue, RunM.bind_apply, predefine_apply]
  cases w.spaces.predefine ns ((Syntax.ident name).introduce ns) with
  | error e => rfl
  | ok result =>
      obtain ⟨stx, spaces⟩ := result
      dsimp only
      rw [RunM.bind_apply, RunM.getSpaces_apply]
      dsimp only
      cases spaces.denoted stx name <;> rfl

theorem logged_defineValue (hspace : w.spaces[ns]? = some space) (other : NamespaceId)
    (name : String) (v : Value) :
    ∃ space', ((defineValue other name v).leaves w).spaces[ns]? = some space' ∧
      space.Logged ns space' ((Call.operation (.defineValue other name v)).taken ns w)
        ((Call.operation (.defineValue other name v)).written ns w) := by
  rw [RunM.leaves, Call.taken, Call.written, defineValue_apply]
  cases h : w.spaces.predefine other ((Syntax.ident name).introduce other) with
  | error e =>
      refine ⟨space, hspace, ?_⟩
      by_cases hsame : other = ns
      · subst hsame
        rw [if_pos rfl, if_pos rfl, handedOut_of_error h, defineValue_apply, h]
        exact .refl other space
      · rw [if_neg hsame, if_neg hsame]
        exact .refl ns space
  | ok result =>
      obtain ⟨stx, spaces⟩ := result
      dsimp only
      by_cases hsame : other = ns
      · -- The definition hands out an address, which is then written.
        subst hsame
        obtain ⟨⟨space₁, hspace₁, htaken⟩, d, hd, howner, haddress⟩ :=
          Spaces.logged_predefine hspace h
        obtain ⟨space', hspace', hwritten⟩ := Spaces.logged_setValue hspace₁ other d.address v
        rw [if_pos rfl, if_pos rfl, handedOut_of_predefine hspace h, defineValue_apply, h]
        rw [if_pos rfl] at hwritten
        simp only [hd, bindDefinition_apply, if_pos howner]
        rw [haddress] at hspace' hwritten ⊢
        exact ⟨space', hspace', htaken.trans hwritten⟩
      · rw [if_neg hsame, if_neg hsame]
        have hspace₁ := (Spaces.getElem?_predefine_of_ne hsame h).trans hspace
        cases spaces.denoted stx name with
        | defined d =>
            obtain ⟨space', hspace', hlogged⟩ :=
              logged_bindDefinition (w := { w with spaces }) hspace₁ other d v
            rw [Call.written, if_neg hsame] at hlogged
            exact ⟨space', hspace', hlogged⟩
        | _ => exact ⟨space, hspace₁, .refl ns space⟩

/-- Whatever is called, the namespace changes as the log of the call says. -/
theorem Call.logged (call : Call) (hspace : w.spaces[ns]? = some space) :
    ∃ space', (call.run.leaves w).spaces[ns]? = some space' ∧
      space.Logged ns space' (call.taken ns w) (call.written ns w) := by
  cases call with
  | bind other d v => exact logged_bindDefinition hspace other d v
  | operation op =>
      cases op with
      | create home kind =>
          have hlt := (Array.getElem?_eq_some_iff.1 hspace).1
          refine ⟨space, ?_, .refl ns space⟩
          calc (w.spaces.push { home, kind })[ns]?
              = some w.spaces[ns] := Array.getElem?_push_lt hlt
            _ = w.spaces[ns]? := (Array.getElem?_eq_getElem hlt).symm
            _ = some space := hspace
      | predefine other stx => exact logged_predefine hspace other stx
      | require other stx provided shadowable =>
          rw [RunM.leaves, Call.run, Operation.run, require_apply]
          cases h : w.spaces.require other stx provided shadowable with
          | error e => exact ⟨space, hspace, .refl ns space⟩
          | ok spaces => exact Spaces.logged_require hspace h
      | defineValue other name v => exact logged_defineValue hspace other name v
      | store other address v => exact Spaces.logged_setValue hspace other address v
      | refer other d =>
          rw [Call.run]
          rcases leaves_refer other d w with h | h
          · rw [h]
            exact ⟨space, hspace, .refl ns space⟩
          · rw [h]
            exact Spaces.logged_addImport hspace other d

/-! ## Whatever is called -/

/-- A succession of changes, whatever they bring in. -/
abbrev Spaces.Changes : Spaces → Spaces → Prop :=
  Relation.ReflTransGen (Spaces.Change (fun _ => True) fun _ _ => True)

theorem Spaces.Changes.of_change_or_same {spaces spaces' : Spaces}
    (h : spaces' = spaces ∨ spaces.Change (fun _ => True) (fun _ _ => True) spaces') :
    spaces.Changes spaces' := by
  rcases h with rfl | h
  · exact .refl
  · exact .single h

theorem changes_bindDefinition (ns : NamespaceId) (d : Definition) (v : Value) (w : World) :
    w.spaces.Changes ((bindDefinition ns d v).leaves w).spaces := by
  rw [RunM.leaves, bindDefinition_apply]
  by_cases howner : d.owner = ns
  · simp only [if_pos howner]
    exact .of_change_or_same (w.spaces.change_setValue trivial)
  · simp only [if_neg howner]
    exact .refl

/-- A call changes the namespaces step by step. -/
theorem Call.changes (call : Call) (w : World) : w.spaces.Changes (call.run.leaves w).spaces := by
  cases call with
  | bind ns d v => exact changes_bindDefinition ns d v w
  | operation op =>
      cases op with
      | create home kind => exact .single (.create home kind)
      | predefine ns stx =>
          rw [RunM.leaves, Call.run, Operation.run, RunM.bind_apply, predefine_apply]
          cases h : w.spaces.predefine ns stx with
          | error e => exact .refl
          | ok result => exact .single (Spaces.change_of_predefine h)
      | require ns stx provided shadowable =>
          rw [RunM.leaves, Call.run, Operation.run, require_apply]
          cases h : w.spaces.require ns stx provided shadowable with
          | error e => exact .refl
          | ok spaces => exact .of_change_or_same (Spaces.change_of_require trivial h)
      | defineValue ns name v =>
          rw [RunM.leaves, Call.run, Operation.run, defineValue_apply]
          cases h : w.spaces.predefine ns ((Syntax.ident name).introduce ns) with
          | error e => exact .refl
          | ok result =>
              have hdefined : w.spaces.Changes result.2 := .single (Spaces.change_of_predefine h)
              dsimp only
              cases result.2.denoted result.1 name with
              | defined d =>
                  exact hdefined.trans (changes_bindDefinition ns d v { w with spaces := result.2 })
              | _ => exact hdefined
      | store ns address v => exact .of_change_or_same (w.spaces.change_setValue trivial)
      | refer ns d =>
          rw [RunM.leaves, Call.run, Operation.run, RunM.bind_apply, importId_apply]
          cases h : w.spaces.importId ns d with
          | error e => exact .refl
          | ok result => exact .of_change_or_same (Spaces.change_of_importId trivial h)

theorem Spaces.Changes.isFreed {spaces spaces' : Spaces} (h : spaces.Changes spaces') :
    spaces'.isFreed = spaces.isFreed := by
  induction h with
  | refl => rfl
  | tail _ hchange ih => exact hchange.isFreed.trans ih

/-- However many calls there are, nothing is freed by them. -/
theorem World.isFreed_afterCalls (w : World) (calls : List Call) :
    (w.afterCalls calls).spaces.isFreed = w.spaces.isFreed := by
  induction calls generalizing w with
  | nil => rfl
  | cons call calls ih => exact (ih _).trans (call.changes w).isFreed

theorem World.afterCalls_append (w : World) (earlier later : List Call) :
    w.afterCalls (earlier ++ later) = (w.afterCalls earlier).afterCalls later :=
  List.foldl_append

/-- Some calls make the later namespaces of the earlier ones. -/
def Spaces.Called (before after : Spaces) : Prop :=
  ∃ calls : List Call, ∀ w : World, w.spaces = before → (w.afterCalls calls).spaces = after

namespace Spaces.Called

variable {before after : Spaces}

theorem refl (spaces : Spaces) : spaces.Called spaces := ⟨[], fun _ hw => hw⟩

theorem trans {later : Spaces} (h : before.Called after) (h' : after.Called later) :
    before.Called later := by
  obtain ⟨calls, hcalls⟩ := h
  obtain ⟨calls', hcalls'⟩ := h'
  refine ⟨calls ++ calls', fun w hw => ?_⟩
  rw [World.afterCalls_append]
  exact hcalls' _ (hcalls w hw)

theorem single (call : Call) (h : ∀ w : World, w.spaces = before → (call.run.leaves w).spaces = after) :
    before.Called after :=
  ⟨[call], h⟩

theorem create (spaces : Spaces) (home : ModuleId) (kind : NamespaceKind) :
    spaces.Called (spaces.push { home, kind }) :=
  .single (.operation (.create home kind)) fun _ hw => congrArg (Array.push · _) hw

theorem of_predefine {ns : NamespaceId} {stx stx' : Syntax}
    (h : before.predefine ns stx = .ok (stx', after)) : before.Called after := by
  refine .single (.operation (.predefine ns stx)) ?_
  rintro w rfl
  rw [RunM.leaves, Call.run, Operation.run, RunM.bind_apply, predefine_apply, h]
  rfl

theorem of_require {ns : NamespaceId} {stx : Syntax} {provided : Provided} {shadowable : Bool}
    (h : before.require ns stx provided shadowable = .ok after) : before.Called after := by
  refine .single (.operation (.require ns stx provided shadowable)) ?_
  rintro w rfl
  rw [RunM.leaves, Call.run, Operation.run, require_apply, h]

theorem store (spaces : Spaces) (ns : NamespaceId) (address : Nat) (v : Value) :
    spaces.Called (spaces.setValue ns address v) :=
  .single (.operation (.store ns address v)) fun _ hw => congrArg (Spaces.setValue · ns address v) hw

theorem of_importId {ns : NamespaceId} {d : Definition} {id : Nat}
    (h : before.importId ns d = .ok (id, after)) : before.Called after := by
  refine .single (.operation (.refer ns d)) ?_
  rintro w rfl
  rw [RunM.leaves, Call.run, Operation.run, RunM.bind_apply, importId_apply, h]
  rfl

theorem isFreed (h : before.Called after) : after.isFreed = before.isFreed := by
  obtain ⟨calls, hcalls⟩ := h
  rw [← hcalls { spaces := before } rfl]
  exact World.isFreed_afterCalls _ calls

end Spaces.Called

/-- No namespace has been freed. -/
def Spaces.Live (spaces : Spaces) : Prop := ∀ ns, spaces.isFreed ns = false

theorem Spaces.Live.freed_eq_false {spaces : Spaces} (h : spaces.Live) {ns : NamespaceId}
    {space : Namespace} (hspace : spaces[ns]? = some space) : space.freed = false := by
  have hfreed := h ns
  rw [isFreed, hspace] at hfreed
  exact hfreed

theorem Spaces.Live.called {before after : Spaces} (h : before.Live) (hcalled : before.Called after) :
    after.Live := by
  rw [Live, hcalled.isFreed]
  exact h

/-- After calls alone no namespace has been freed. -/
theorem live_afterCalls (calls : List Call) : (({} : World).afterCalls calls).spaces.Live := by
  rw [Spaces.Live, World.isFreed_afterCalls]
  exact fun _ => rfl

/-- However many calls there are, the namespace changes as their log says. -/
theorem World.logged_afterCalls (hspace : w.spaces[ns]? = some space) (calls : List Call) :
    ∃ space', (w.afterCalls calls).spaces[ns]? = some space' ∧
      space.Logged ns space' (w.taken ns calls) (w.written ns calls) := by
  induction calls generalizing w space with
  | nil => exact ⟨space, hspace, .refl ns space⟩
  | cons call calls ih =>
      obtain ⟨space₁, hspace₁, hcall⟩ := call.logged hspace
      obtain ⟨space', hspace', hcalls⟩ := ih hspace₁
      exact ⟨space', hspace', hcall.trans hcalls⟩

theorem Namespace.Valid.changes {space' : Namespace} (h : space.Valid ns)
    (hchanges : Relation.ReflTransGen (Change (fun _ => True) (fun _ _ => True) ns) space space') :
    space'.Valid ns := by
  induction hchanges with
  | refl => exact h
  | tail _ hchange ih => exact ih.change hchange

theorem Namespace.grows_changes {space' : Namespace}
    (hchanges : Relation.ReflTransGen (Change (fun _ => True) (fun _ _ => True) ns) space space') :
    space.Grows space' := by
  induction hchanges with
  | refl => exact .refl space
  | tail _ hchange ih => exact ih.trans hchange.grows

/-- A new namespace, after any calls on any namespaces: its table is in order, the keys of its cells
never change, the addresses handed out are those below the number of definitions, each once and in
order, and an address has the value that was last written to it. -/
theorem namespace_representation (w : World) (home : ModuleId) (kind : NamespaceKind)
    (calls : List Call) :
    ∃ space, (((newNamespace home kind).leaves w).afterCalls calls).spaces[w.spaces.size]? =
        some space ∧
      space.home = home ∧ space.kind = kind ∧ space.Valid w.spaces.size ∧
      (∀ count, ∃ before, (((newNamespace home kind).leaves w).afterCalls
        (calls.take count)).spaces[w.spaces.size]? = some before ∧ before.keys <+: space.keys) ∧
      ((newNamespace home kind).leaves w).taken w.spaces.size calls =
        (List.range space.definitionCount).map some ∧
      ∀ address, space.value? address =
        lastWritten address (((newNamespace home kind).leaves w).written w.spaces.size calls) := by
  have hnew : ((newNamespace home kind).leaves w).spaces[w.spaces.size]? = some { home, kind } :=
    Array.getElem?_push_size
  obtain ⟨space, hspace, hlogged⟩ := World.logged_afterCalls hnew calls
  have hgrows := Namespace.grows_changes hlogged.changes
  refine ⟨space, hspace, hgrows.home, hgrows.kind, ?_, ?_, ?_, ?_⟩
  · exact (Namespace.valid_new w.spaces.size home kind).changes hlogged.changes
  · intro count
    -- The calls after the first `count` extend the keys that those have made.
    obtain ⟨before, hbefore, -⟩ := World.logged_afterCalls hnew (calls.take count)
    obtain ⟨after, hafter, hlater⟩ := World.logged_afterCalls hbefore (calls.drop count)
    rw [← List.take_append_drop count calls, World.afterCalls_append] at hspace
    obtain rfl : space = after := Option.some.inj (hspace.symm.trans hafter)
    exact ⟨before, hbefore, (Namespace.grows_changes hlater.changes).keys⟩
  · have hcount : space.definitionCount =
        (((newNamespace home kind).leaves w).taken w.spaces.size calls).length := by
      rw [hlogged.count]
      exact Nat.zero_add _
    rw [hcount, List.range_eq_range']
    exact hlogged.taken
  · intro address
    have hempty : ({ home, kind } : Namespace).value? address = none := by
      simp [Namespace.value?]
    rw [hlogged.values, hempty]
    cases lastWritten address _ <;> rfl

end HygienicLisp
