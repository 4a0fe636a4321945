import HygienicLisp.Compile
import HygienicLisp.Proofs.Evaluation.ByParts
import HygienicLisp.Proofs.Isolation.Consistency

/-!
# Which code is run in which namespace

Three instructions store values in the namespace that the code runs in.  Code runs when a closure
is applied, and it is then always run in the namespace of the closure's environment.  So what a
value can ever cause to be run is the code of the closures inside it, each in its own namespace.

A `Guard` says which slots are to keep their values and which instructions may be run where.  There
are two: `Guard.sparing`, which allows what does not write the slots, and `Guard.provenance`, which
allows in a namespace what has been compiled there.  `Value.Obeys`, `Procedure.Obeys` and
`Code.Obeys` say that all that can be run is allowed.  Data have no closures and obey every guard
(`Syntax.obeys_toDatum`).
-/

namespace HygienicLisp

/-! ## Instructions -/

namespace Code

/-- The core form whose instruction this is and the address that it writes, if it writes one. -/
def write? : Code → Option (CoreForm × Nat)
  | .topSet address _ => some (.set, address)
  | .define _ address _ => some (.define, address)
  | .defineSyntax _ address _ _ => some (.defineSyntax, address)
  | _ => none

/-- The code right inside an instruction. -/
def parts : Code → List Code
  | .constant _ => []
  | .void => []
  | .localRef _ _ _ => []
  | .topRef _ _ => []
  | .importRef _ _ _ => []
  | .freeRef _ _ => []
  | .localSet _ _ value => [value]
  | .topSet _ value => [value]
  | .define _ _ value => [value]
  | .defineSyntax _ _ value _ => [value]
  | .branch test consequent alternative => [test, consequent, alternative]
  | .sequence forms => forms
  | .lambda _ _ _ body => [body]
  | .letIn inits body => body :: inits
  | .letrec inits body => body :: inits
  | .apply operator operands _ => operator :: operands
  | .parameterize bindings body => body :: (bindings.map (·.1) ++ bindings.map (·.2))
  | .listLiteral elements => elements
  | .recordLiteral fields => fields.map (·.2)

theorem sizeOf_lt_of_mem_parts {part code : Code} (h : part ∈ code.parts) :
    sizeOf part < sizeOf code := by
  cases code with
  | constant | void | localRef | topRef | importRef | freeRef => simp [parts] at h
  | localSet _ _ value | topSet _ value | define _ _ value | defineSyntax _ _ value _
  | lambda _ _ _ value =>
      obtain rfl : part = value := List.mem_singleton.1 h
      simp +arith
  | branch test consequent alternative =>
      simp only [parts, List.mem_cons, List.not_mem_nil, or_false] at h
      rcases h with rfl | rfl | rfl <;> simp +arith
  | sequence codes | listLiteral codes =>
      have hlt : sizeOf part < sizeOf codes := List.sizeOf_lt_of_mem h
      simp
      omega
  | letIn codes first | letrec codes first | apply first codes _ =>
      rcases List.mem_cons.1 h with rfl | hmem
      · simp +arith
      · have hlt := List.sizeOf_lt_of_mem hmem
        simp
        omega
  | parameterize bindings body =>
      have hbinding {binding : Code × Code} (hmem : binding ∈ bindings) :
          sizeOf binding.1 + sizeOf binding.2 < sizeOf bindings := by
        have hlt := List.sizeOf_lt_of_mem hmem
        obtain ⟨parameter, value⟩ := binding
        simp only [Prod.mk.sizeOf_spec] at hlt ⊢
        omega
      simp only [parts, List.mem_cons, List.mem_append, List.mem_map] at h
      rcases h with rfl | ⟨binding, hmem, rfl⟩ | ⟨binding, hmem, rfl⟩
      · simp +arith
      · have hlt := hbinding hmem
        simp
        omega
      · have hlt := hbinding hmem
        simp
        omega
  | recordLiteral fields =>
      obtain ⟨⟨key, value⟩, hmem, rfl⟩ := List.mem_map.1 h
      have hlt := List.sizeOf_lt_of_mem hmem
      simp only [Prod.mk.sizeOf_spec] at hlt
      simp
      omega

/-- The code and the instructions inside it. -/
inductive Contains (whole : Code) : Code → Prop
  | self : whole.Contains whole
  | part {code part : Code} (h : whole.Contains code) (hpart : part ∈ code.parts) :
      whole.Contains part

/-- Every instruction inside the code, and the code itself, is as given. -/
inductive All (P : Code → Prop) : Code → Prop
  | intro {code : Code} (h : P code) (hparts : ∀ part ∈ code.parts, All P part) : All P code

theorem All.of_contains {P : Code → Prop} {whole code : Code} (h : whole.All P)
    (hcode : whole.Contains code) : P code := by
  have hall : code.All P := by
    induction hcode with
    | self => exact h
    | part _ hpart ih =>
        cases ih with
        | intro _ hparts => exact hparts _ hpart
  cases hall with
  | intro h _ => exact h

end Code

/-! ## Guards -/

/-- What is guarded: slots that are to keep their values, and which instructions may be run in which
namespaces.  The instructions write none of the slots, and what is compiled in a namespace that has
none of them may be run there. -/
structure Guard where
  slots : Slot → Prop
  allows : NamespaceId → Code → Prop
  spares : ∀ {ns : NamespaceId} {code : Code} {f : CoreForm} {address : Nat}, allows ns code →
    code.write? = some (f, address) → ¬slots ⟨ns, address⟩
  compiled : ∀ {ns : NamespaceId} {stx : Syntax} {w w' : World} {whole code : Code},
    (∀ slot, slots slot → slot.space ≠ ns) → w.Consistent → compile ns stx w = .ok whole w' →
      whole.Contains code → allows ns code

namespace Guard

/-- None of the slots is in the namespace. -/
def Outside (guard : Guard) (ns : NamespaceId) : Prop :=
  ∀ slot, guard.slots slot → slot.space ≠ ns

/-- The guard of the slots that allows everything that does not write them. -/
def sparing (slots : Slot → Prop) : Guard where
  slots := slots
  allows ns code := ∀ f address, code.write? = some (f, address) → ¬slots ⟨ns, address⟩
  spares h := h _ _
  compiled hns _ _ _ := fun _ _ _ hslot => hns _ hslot rfl

/-- The code is inside code that compilation makes in the namespace. -/
def CompiledIn (ns : NamespaceId) (code : Code) : Prop :=
  ∃ (w w' : World) (stx : Syntax) (whole : Code),
    w.Consistent ∧ compile ns stx w = .ok whole w' ∧ whole.Contains code

/-- The guard of no slots that allows in each namespace what is compiled there. -/
def provenance : Guard where
  slots _ := False
  allows := CompiledIn
  spares _ _ := not_false
  compiled _ hw hrun hcode := ⟨_, _, _, _, hw, hrun, hcode⟩

end Guard

/-! ## What values cause to be run -/

mutual

/-- Every closure inside the value obeys the guard. -/
inductive Value.Obeys (guard : Guard) : Value → Prop
  | void : Value.Obeys guard .void
  | atom {a : Atom} : Value.Obeys guard (.atom a)
  | group {shape : Shape} {items : List Value} (hitems : ∀ v ∈ items, Value.Obeys guard v) :
      Value.Obeys guard (.group shape items)
  | record {label : Nat} {fields : List (String × Value)}
      (hfields : ∀ field ∈ fields, Value.Obeys guard field.2) :
      Value.Obeys guard (.record label fields)
  | stx {s : Syntax} : Value.Obeys guard (.stx s)
  | procedure {id : ObjectId} {p : Procedure} (hp : Procedure.Obeys guard p) :
      Value.Obeys guard (.procedure id p)
  | transformer {id procedureId : ObjectId} {p : Procedure} (hp : Procedure.Obeys guard p) :
      Value.Obeys guard (.transformer id procedureId p)
  | form {f : CoreForm} : Value.Obeys guard (.form f)

/-- The procedure obeys the guard.  The body of a closure is run in the namespace of its
environment. -/
inductive Procedure.Obeys (guard : Guard) : Procedure → Prop
  | native {arity : Arity} {p : Primitive} : Procedure.Obeys guard (.native arity p)
  | closure {required : Nat} {rest : Bool} {body : Code} {env : Env}
      (hbody : Code.Obeys guard env.space body) :
      Procedure.Obeys guard (.closure required rest body env)
  | parameter {default : Value} (hdefault : Value.Obeys guard default) :
      Procedure.Obeys guard (.parameter default)

/-- All instructions of the code may be run in the namespace, and its constants obey the guard. -/
inductive Code.Obeys (guard : Guard) : NamespaceId → Code → Prop
  | intro {ns : NamespaceId} {code : Code} (hallowed : guard.allows ns code)
      (hconstant : ∀ v, code = .constant v → Value.Obeys guard v)
      (hparts : ∀ part ∈ code.parts, Code.Obeys guard ns part) : Code.Obeys guard ns code

end

section

variable {guard : Guard} {ns : NamespaceId}

theorem Value.Obeys.items {shape : Shape} {items : List Value}
    (h : (Value.group shape items).Obeys guard) : ∀ v ∈ items, v.Obeys guard := by
  cases h with
  | group hitems => exact hitems

theorem Value.Obeys.fields {label : Nat} {fields : List (String × Value)}
    (h : (Value.record label fields).Obeys guard) : ∀ field ∈ fields, field.2.Obeys guard := by
  cases h with
  | record hfields => exact hfields

namespace Code.Obeys

variable {code : Code}

theorem write (h : code.Obeys guard ns) {f : CoreForm} {address : Nat}
    (hwrite : code.write? = some (f, address)) : ¬guard.slots ⟨ns, address⟩ := by
  cases h with
  | intro hallowed _ _ => exact guard.spares hallowed hwrite

theorem constant {v : Value} (h : (Code.constant v).Obeys guard ns) : v.Obeys guard := by
  cases h with
  | intro _ hconstant _ => exact hconstant v rfl

theorem part (h : code.Obeys guard ns) {part : Code} (hpart : part ∈ code.parts) :
    part.Obeys guard ns := by
  cases h with
  | intro _ _ hparts => exact hparts part hpart

end Code.Obeys

/-- Code obeys a guard that allows all its instructions if its constants obey it. -/
theorem Code.obeys_of_contains {whole : Code}
    (hall : ∀ code, whole.Contains code → guard.allows ns code)
    (hconstant : ∀ v, whole.Contains (.constant v) → v.Obeys guard) {code : Code}
    (hcode : whole.Contains code) : code.Obeys guard ns := by
  refine .intro (hall code hcode) ?_ ?_
  · rintro v rfl
    exact hconstant v hcode
  · intro part hpart
    -- The recursion is on the size of the code, which its parts are below.
    have hlt : sizeOf part < sizeOf code := Code.sizeOf_lt_of_mem_parts hpart
    exact Code.obeys_of_contains hall hconstant (hcode.part hpart)
termination_by sizeOf code

theorem Value.byParts_obeys : Value.ByParts (Value.Obeys guard) where
  atom _ := .atom
  group := ⟨Value.Obeys.items, .group⟩
  record := ⟨Value.Obeys.fields, .record⟩

/-- Data have no closures. -/
theorem Syntax.obeys_toDatum (stx : Syntax) : stx.toDatum.Obeys guard :=
  Value.byParts_obeys.toDatum stx

/-! ## Nothing to obey -/

mutual

/-- Every value obeys a guard that allows everything. -/
theorem Value.obeys_of_allows (hguard : ∀ ns code, guard.allows ns code) :
    ∀ v : Value, v.Obeys guard
  | .void => .void
  | .atom _ => .atom
  | .group _ items => .group fun v hv =>
      have := List.sizeOf_lt_of_mem hv
      Value.obeys_of_allows hguard v
  | .record _ fields => .record fun field hfield =>
      have := List.sizeOf_lt_of_mem hfield
      have : sizeOf field.2 < sizeOf field := by obtain ⟨_, _⟩ := field; simp +arith
      Value.obeys_of_allows hguard field.2
  | .stx _ => .stx
  | .procedure _ p => .procedure (Procedure.obeys_of_allows hguard p)
  | .transformer _ _ p => .transformer (Procedure.obeys_of_allows hguard p)
  | .form _ => .form
termination_by v => sizeOf v

theorem Procedure.obeys_of_allows (hguard : ∀ ns code, guard.allows ns code) :
    ∀ p : Procedure, p.Obeys guard
  | .native _ _ => .native
  | .closure _ _ body env => .closure (Code.obeys_of_allows hguard env.space body)
  | .parameter default => .parameter (Value.obeys_of_allows hguard default)
termination_by p => sizeOf p

theorem Code.obeys_of_allows (hguard : ∀ ns code, guard.allows ns code) (ns : NamespaceId) :
    ∀ code : Code, code.Obeys guard ns := by
  intro code
  refine .intro (hguard ns code) ?_ ?_
  · intro v hv
    have hlt : sizeOf v < sizeOf code := by
      rw [hv]
      simp +arith
    exact Value.obeys_of_allows hguard v
  · intro part hpart
    have hlt : sizeOf part < sizeOf code := Code.sizeOf_lt_of_mem_parts hpart
    exact Code.obeys_of_allows hguard ns part
termination_by code => sizeOf code

end

end

end HygienicLisp
