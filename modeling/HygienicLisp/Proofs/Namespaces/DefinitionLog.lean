import HygienicLisp.Proofs.Namespaces.Lasting
import HygienicLisp.Proofs.Reexports.Names

/-!
# The definitions that have been made

A definition is filed under the key that the namespace has for its identifier at that time.  The key
leads to it until another definition is made under the same key, since no import goes over a
definition.

Main statement: after any calls, a key leads to the definition that was made last under it, if one
was (`World.made_afterCalls`).  The addresses of the definitions count up in the order in which they
were made, so no definition is made twice (`Spaces.Made.address_eq`).
-/

namespace HygienicLisp

/-- The definition, if the content is one. -/
def Content.definition? : Content → Option Definition
  | .defined d => some d
  | .required _ => none

/-- If an identifier can be defined, the key under which it is filed, and the definition that it
denotes then. -/
def definitionMade (ns : NamespaceId) (stx : Syntax) (w : World) : List (Key × Definition) :=
  match stx.symbol?, predefine ns stx w with
  | some name, .ok stx' w' =>
    match w'.spaces.denoted stx' name with
    | .defined d => [(w.spaces.filingKey ns stx name, d)]
    | _ => []
  | _, _ => []

/-- The definition that a call makes in a namespace, under its key. -/
def Call.made (ns : NamespaceId) (w : World) : Call → List (Key × Definition)
  | .operation (.predefine ns' stx) => if ns' = ns then definitionMade ns' stx w else []
  | .operation (.defineValue ns' name _) =>
    if ns' = ns then definitionMade ns' ((Syntax.ident name).introduce ns') w else []
  | _ => []

/-- The definitions that calls make in a namespace, in order. -/
def World.made (ns : NamespaceId) : World → List Call → List (Key × Definition)
  | _, [] => []
  | w, call :: rest => call.made ns w ++ World.made ns (call.run.leaves w) rest

/-- The definition that was made last under a key. -/
def lastMade? (key : Key) (made : List (Key × Definition)) : Option Definition :=
  made.reverse.lookup key

section Last

variable {key : Key} {d : Definition} {made : List (Key × Definition)}

theorem lastMade?_append (key : Key) (earlier later : List (Key × Definition)) :
    lastMade? key (earlier ++ later) = (lastMade? key later).or (lastMade? key earlier) := by
  rw [lastMade?, List.reverse_append, List.lookup_append]
  rfl

theorem lastMade?_singleton (key : Key) (e : Key × Definition) :
    lastMade? key [e] = if key = e.1 then some e.2 else none := by
  rw [lastMade?, List.reverse_singleton, List.lookup_cons, List.lookup_nil]
  by_cases hkey : key = e.1
  · rw [if_pos hkey, beq_iff_eq.2 hkey]
  · rw [if_neg hkey, beq_false_of_ne hkey]

theorem lastMade?_eq_some_iff :
    lastMade? key made = some d ↔
      ∃ earlier later, made = earlier ++ (key, d) :: later ∧ ∀ e ∈ later, e.1 ≠ key := by
  rw [lastMade?, List.lookup_eq_some_iff]
  constructor
  · rintro ⟨later, earlier, hmade, hlater⟩
    refine ⟨earlier.reverse, later.reverse, ?_, fun e he => ?_⟩
    · rw [← List.reverse_reverse made, hmade]
      simp
    · exact (bne_iff_ne.1 (hlater e (List.mem_reverse.1 he))).symm
  · rintro ⟨earlier, later, rfl, hlater⟩
    refine ⟨later.reverse, earlier.reverse, by simp, fun e he => ?_⟩
    exact bne_iff_ne.2 (hlater e (List.mem_reverse.1 he)).symm

end Last

/-! ## One namespace -/

namespace Namespace

variable {space space' : Namespace} {key : Key} {d : Definition}

/-- The definition that a key leads to, if it leads to one. -/
def defined? (space : Namespace) (key : Key) : Option Definition :=
  (space.holding? key).bind Content.definition?

theorem defined?_eq_some_iff :
    space.defined? key = some d ↔ space.holding? key = some (.defined d) := by
  rw [defined?]
  cases space.holding? key with
  | none => simp
  | some content => cases content <;> simp [Content.definition?]

@[simp] theorem defined?_new (home : ModuleId) (kind : NamespaceKind) (key : Key) :
    ({ home, kind } : Namespace).defined? key = none := by
  simp [defined?, holding?, find?]

theorem defined?_congr (h : space'.entries = space.entries) (key : Key) :
    space'.defined? key = space.defined? key := by
  have hcontent : space'.content? = space.content? := by
    funext index
    rw [content?, content?, h]
  rw [defined?, defined?, holding?, holding?, find?, find?, h, hcontent]

theorem defined?_predefine {self : NamespaceId} {index : Nat}
    (h : space.predefine self key = .ok (index, space')) (other : Key) :
    space'.defined? other =
      if other = key then some (space.nextDefinition self key.name) else space.defined? other := by
  rw [defined?, (holding?_predefine h).1 other]
  split <;> rfl

/-- An import goes over no definition. -/
theorem defined?_require {provided : Provided} {shadowable : Bool}
    (h : space.require key provided shadowable = .ok space') (other : Key) :
    space'.defined? other = space.defined? other := by
  obtain ⟨i, -, -, hholding, hkept⟩ := holding?_require h
  rw [defined?, defined?, hholding]
  split
  · rename_i hother
    rw [hother]
    cases hold : space.holding? key with
    | none => rfl
    | some content =>
        cases content with
        | defined d => cases hkept _ hold trivial
        | required there => rfl
  · rfl

end Namespace

/-! ## All namespaces -/

namespace Spaces

variable {first second third spaces spaces' : Spaces} {ns : NamespaceId}
  {made made' : List (Key × Definition)}

/-- The definition that a key leads to in a namespace, if it leads to one. -/
def defined? (spaces : Spaces) (ns : NamespaceId) (key : Key) : Option Definition :=
  (spaces[ns]?).bind fun space => space.defined? key

/-- In the namespace, the given definitions have been made and nothing else has become of its
definitions. -/
structure Made (ns : NamespaceId) (before after : Spaces) (made : List (Key × Definition)) :
    Prop where
  defined : ∀ key, after.defined? ns key = (lastMade? key made).or (before.defined? ns key)
  taken : after.taken ns = before.taken ns + made.length
  addresses : made.map (·.2.address) = List.range' (before.taken ns) made.length

namespace Made

theorem refl (ns : NamespaceId) (spaces : Spaces) : Made ns spaces spaces [] :=
  ⟨fun _ => rfl, rfl, rfl⟩

theorem trans (h : Made ns first second made) (h' : Made ns second third made') :
    Made ns first third (made ++ made') where
  defined key := by rw [h'.defined, h.defined, lastMade?_append, Option.or_assoc]
  taken := by rw [h'.taken, h.taken, List.length_append, Nat.add_assoc]
  addresses := by
    rw [List.map_append, List.length_append, ← List.range'_append_1, h.addresses, h'.addresses,
      h.taken]

/-- The definitions have the addresses that follow those taken before. -/
theorem address_eq {earlier later : List (Key × Definition)} {key : Key} {d : Definition}
    (h : Made ns first second (earlier ++ (key, d) :: later)) :
    d.address = first.taken ns + earlier.length := by
  have hat := congrArg (·[earlier.length]?) h.addresses
  simpa using hat

/-- Nothing has been made in a namespace that is as before. -/
theorem of_getElem?_eq (h : spaces'[ns]? = spaces[ns]?) : Made ns spaces spaces' [] where
  defined key := by
    rw [defined?, h]
    rfl
  taken := by
    rw [Spaces.taken, h]
    rfl
  addresses := rfl

end Made

theorem made_push (spaces : Spaces) (home : ModuleId) (kind : NamespaceKind) :
    Made ns spaces (spaces.push { home, kind }) [] := by
  by_cases hnew : ns = spaces.size
  · have hbefore : spaces[ns]? = none := Array.getElem?_eq_none hnew.ge
    have hafter : (spaces.push { home, kind })[ns]? = some { home, kind } := by
      rw [Array.getElem?_push, if_pos hnew]
    refine ⟨fun key => ?_, ?_, rfl⟩
    · rw [defined?, defined?, hbefore, hafter, Option.bind_some, Namespace.defined?_new]
      rfl
    · rw [taken, taken, hbefore, hafter]
      rfl
  · refine .of_getElem?_eq ?_
    rw [Array.getElem?_push, if_neg hnew]

/-- Nothing is made if the cells and the number of addresses stay. -/
theorem made_modify {f : Namespace → Namespace} (spaces : Spaces) (other : NamespaceId)
    (hentries : ∀ space, (f space).entries = space.entries)
    (hcount : ∀ space, (f space).definitionCount = space.definitionCount) :
    Made ns spaces (spaces.modify other f) [] := by
  by_cases hsame : other = ns
  · subst hsame
    cases hspace : spaces[other]? with
    | none => exact .of_getElem?_eq (by rw [modify_eq_self hspace])
    | some space =>
        have hafter : (spaces.modify other f)[other]? = some (f space) := by
          rw [Array.getElem?_modify, if_pos rfl, hspace]
          rfl
        refine ⟨fun key => ?_, ?_, rfl⟩
        · rw [defined?, defined?, hspace, hafter]
          exact Namespace.defined?_congr (hentries space) key
        · rw [taken, taken, hspace, hafter]
          exact hcount space
  · refine .of_getElem?_eq ?_
    rw [Array.getElem?_modify, if_neg hsame]

theorem made_setValue (spaces : Spaces) (other : NamespaceId) (address : Nat) (v : Value) :
    Made ns spaces (spaces.setValue other address v) [] := by
  refine spaces.made_modify other (fun space => ?_) fun space => ?_ <;> rfl

theorem made_addImport (spaces : Spaces) (other : NamespaceId) (d : Definition) :
    Made ns spaces (spaces.addImport other d) [] := by
  refine spaces.made_modify other (fun space => ?_) fun space => ?_ <;> rfl

theorem made_require {other : NamespaceId} {stx : Syntax} {provided : Provided} {shadowable : Bool}
    (h : spaces.require other stx provided shadowable = .ok spaces') :
    Made ns spaces spaces' [] := by
  obtain ⟨name, space, space', -, hspace, hrequired, rfl⟩ := require_eq_ok.1 h
  have hafter := getElem?_setIfInBounds_of_some hspace space' ns
  by_cases hsame : ns = other
  · subst hsame
    rw [if_pos rfl] at hafter
    refine ⟨fun key => ?_, ?_, rfl⟩
    · rw [defined?, defined?, hspace, hafter]
      exact Namespace.defined?_require hrequired key
    · rw [taken, taken, hspace, hafter]
      exact (Namespace.require_counts hrequired).1
  · rw [if_neg hsame] at hafter
    exact .of_getElem?_eq hafter

end Spaces

/-! ## Calls -/

variable {w : World} {ns : NamespaceId}

theorem definitionMade_of_predefine {stx stx' : Syntax} {spaces : Spaces} {name : String}
    {space : Namespace} (hspace : w.spaces[ns]? = some space) (hname : stx.symbol? = some name)
    (h : w.spaces.predefine ns stx = .ok (stx', spaces)) :
    definitionMade ns stx w =
      [(w.spaces.filingKey ns stx name, space.nextDefinition ns name)] := by
  rw [definitionMade, hname, predefine_apply, h]
  simp only [Spaces.denoted_predefine hspace hname h]

theorem definitionMade_of_error {stx : Syntax} {e : Error}
    (h : w.spaces.predefine ns stx = .error e) : definitionMade ns stx w = [] := by
  rw [definitionMade, predefine_apply, h]
  cases stx.symbol? <;> rfl

/-- The definition of an identifier is made in the namespace in which it is defined, and in no
other one. -/
theorem made_predefine {other : NamespaceId} {stx stx' : Syntax} {spaces : Spaces}
    (h : w.spaces.predefine other stx = .ok (stx', spaces)) :
    Spaces.Made ns w.spaces spaces (if other = ns then definitionMade other stx w else []) := by
  by_cases hsame : other = ns
  · subst hsame
    obtain ⟨name, space, index, space', hname, hspace, hdefined, -, rfl⟩ := Spaces.predefine_eq_ok.1 h
    rw [if_pos rfl, definitionMade_of_predefine hspace hname h]
    refine ⟨fun key => ?_, Spaces.taken_predefine h, ?_⟩
    · rw [Spaces.defined?, Spaces.getElem?_setIfInBounds_of_some hspace, if_pos rfl,
        Option.bind_some, Namespace.defined?_predefine hdefined, lastMade?_singleton,
        Spaces.defined?, hspace, Option.bind_some]
      split <;> rfl
    · rw [Spaces.taken, hspace]
      rfl
  · rw [if_neg hsame]
    exact .of_getElem?_eq (Spaces.getElem?_predefine_of_ne hsame h)

theorem made_of_error {other : NamespaceId} {stx : Syntax} {e : Error}
    (h : w.spaces.predefine other stx = .error e) :
    Spaces.Made ns w.spaces w.spaces (if other = ns then definitionMade other stx w else []) := by
  rw [definitionMade_of_error h, ite_self]
  exact .refl ns w.spaces

theorem made_bindDefinition (other : NamespaceId) (d : Definition) (v : Value) (w : World) :
    Spaces.Made ns w.spaces ((bindDefinition other d v).leaves w).spaces [] := by
  rw [RunM.leaves, bindDefinition_apply]
  by_cases howner : d.owner = other
  · simp only [if_pos howner]
    exact w.spaces.made_setValue other d.address v
  · simp only [if_neg howner]
    exact .refl ns w.spaces

theorem made_defineValue (other : NamespaceId) (name : String) (v : Value) (w : World) :
    Spaces.Made ns w.spaces ((defineValue other name v).leaves w).spaces
      ((Call.operation (.defineValue other name v)).made ns w) := by
  rw [RunM.leaves, Call.made, defineValue_apply]
  cases h : w.spaces.predefine other ((Syntax.ident name).introduce other) with
  | error e => exact made_of_error h
  | ok result =>
      obtain ⟨stx, spaces⟩ := result
      have hmade : Spaces.Made ns w.spaces spaces _ := made_predefine h
      dsimp only
      cases spaces.denoted stx name with
      | defined d =>
          have hbound := hmade.trans (made_bindDefinition other d v { w with spaces })
          rw [List.append_nil] at hbound
          exact hbound
      | _ => exact hmade

/-- Whatever is called, the definitions of a namespace change as the log of the call says. -/
theorem Call.made_leaves (call : Call) (w : World) :
    Spaces.Made ns w.spaces (call.run.leaves w).spaces (call.made ns w) := by
  cases call with
  | bind other d v => exact made_bindDefinition other d v w
  | operation op =>
      cases op with
      | create home kind => exact w.spaces.made_push home kind
      | predefine other stx =>
          rw [RunM.leaves, Call.run, Operation.run, RunM.bind_apply, predefine_apply, Call.made]
          cases h : w.spaces.predefine other stx with
          | error e => exact made_of_error h
          | ok result => exact made_predefine h
      | require other stx provided shadowable =>
          rw [RunM.leaves, Call.run, Operation.run, require_apply]
          cases h : w.spaces.require other stx provided shadowable with
          | error e => exact .refl ns w.spaces
          | ok spaces => exact Spaces.made_require h
      | defineValue other name v => exact made_defineValue other name v w
      | store other address v => exact w.spaces.made_setValue other address v
      | refer other d =>
          rw [Call.run]
          rcases leaves_refer other d w with h | h
          · rw [h]
            exact .refl ns w.spaces
          · rw [h]
            exact w.spaces.made_addImport other d

/-- However many calls there are, the definitions of a namespace change as their log says. -/
theorem World.made_afterCalls (ns : NamespaceId) (w : World) (calls : List Call) :
    Spaces.Made ns w.spaces (w.afterCalls calls).spaces (w.made ns calls) := by
  induction calls generalizing w with
  | nil => exact .refl ns w.spaces
  | cons call calls ih => exact (call.made_leaves w).trans (ih _)

end HygienicLisp
