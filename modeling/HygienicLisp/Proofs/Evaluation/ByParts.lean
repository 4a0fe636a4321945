import HygienicLisp.Primitive.Call
import HygienicLisp.Proofs.Contexts

/-!
# What primitives make of their arguments

Primitives take data apart and put data together.  Let `P` be a property of values that all atoms
have and that is decided by parts (`Value.ByParts`): a container has it just if everything directly
inside it does.  Then `P` passes from the arguments of a primitive to its result, and through the
conversions between data and syntax.  The failures of primitives concern the program, so they have
any property `E` that all such failures have.

Both are proved here once.  The properties differ in what values hold apart from their parts (code,
places, ranges), and primitives do not look at that.
-/

namespace HygienicLisp

/-- All atoms have the property, and a container has it just if its parts do. -/
structure Value.ByParts (P : Value → Prop) : Prop where
  atom (a : Atom) : P (.atom a)
  group {shape : Shape} {items : List Value} : P (.group shape items) ↔ ∀ v ∈ items, P v
  record {label : Nat} {fields : List (String × Value)} :
    P (.record label fields) ↔ ∀ field ∈ fields, P field.2

/-- A result with the property `P`, or a failure with the property `E`. -/
def Ends {α : Type} (E : Error → Prop) (P : α → Prop) : Except Error α → Prop
  | .ok a => P a
  | .error e => E e

namespace Ends

variable {α β : Type} {E : Error → Prop} {P : α → Prop} {Q : β → Prop}

theorem ok {a : α} (h : P a) : Ends E P (.ok a) := h

theorem bind {r : Except Error α} {f : α → Except Error β} (hr : Ends E P r)
    (hf : ∀ a, P a → Ends E Q (f a)) : Ends E Q (r >>= f) := by
  cases r with
  | ok a => exact hf a hr
  | error e => exact hr

theorem map {r : Except Error α} {f : α → β} (hr : Ends E P r) (hf : ∀ a, P a → Q (f a)) :
    Ends E Q (r.map f) := by
  cases r with
  | ok a => exact hf a hr
  | error e => exact hr

end Ends

/-- All failures have the property that are not the evaluator's own. -/
def Error.Covers (E : Error → Prop) : Prop := ∀ fault : Fault, fault.kind ≠ .internal → E (.of fault)

variable {E : Error → Prop} {P : Value → Prop}

theorem Error.Covers.typeError {α : Type} {Q : α → Prop} (hE : Error.Covers E) (names : Names)
    (who expected : String) (position : Nat) (found : Value) :
    Ends E Q (.error (typeError names who expected position found)) :=
  hE _ nofun

/-! ## Failures -/

section

variable (hE : Error.Covers E)

include hE

theorem ends_numbersFrom (names : Names) (who : String) (position : Nat) (args : List Value) :
    Ends E (fun _ => True) (numbersFrom names who position args) := by
  induction args generalizing position with
  | nil => exact trivial
  | cons v rest ih =>
      rw [numbersFrom]
      cases Number.ofValue? v with
      | none => exact hE.typeError _ _ _ _ _
      | some n => exact (ih (position + 1)).map fun _ _ => trivial

theorem ends_numbers (names : Names) (who : String) (args : List Value) :
    Ends E (fun _ => True) (numbers names who args) :=
  ends_numbersFrom hE names who 0 args

theorem ends_foldNumbers (who : String) (exactly : Int → Int → Int)
    (nearly : Float → Float → Float) (acc : Number) (ns : List Number) :
    Ends E (fun _ => True) (foldNumbers who exactly nearly acc ns) := by
  fun_induction foldNumbers who exactly nearly acc ns with
  | case1 => exact trivial
  | case2 _ _ _ _ _ ih => exact ih
  | case3 => exact hE _ nofun
  | case4 _ _ _ _ ih => exact ih

theorem ends_divideBy (acc : Number) (ns : List Number) :
    Ends E (fun _ => True) (divideBy acc ns) := by
  fun_induction divideBy acc ns with
  | case1 => exact trivial
  | case2 => exact hE _ nofun
  | case3 _ _ _ _ _ _ _ ih => exact ih
  | case4 => exact hE _ nofun
  | case5 _ _ _ _ _ ih => exact ih
  | case6 _ _ _ _ _ ih => exact ih

theorem ends_fieldName (names : Names) (who : String) (position : Nat) (v : Value) :
    Ends E (fun _ => True) (Collection.fieldName names who position v) := by
  unfold Collection.fieldName
  split
  · exact trivial
  · exact trivial
  · exact hE.typeError _ _ _ _ _

end

namespace Value.ByParts

variable (hP : ByParts P)

include hP

theorem toValue (n : Number) : P n.toValue := by
  cases n <;> exact hP.atom _

/-! ## Arithmetic -/

variable (hE : Error.Covers E)

include hE

theorem add (names : Names) (args : List Value) : Ends E P (Arithmetic.add names args) :=
  (ends_numbers hE names "+" args).bind fun _ _ =>
    (ends_foldNumbers hE _ _ _ _ _).bind fun n _ => hP.toValue n

theorem mul (names : Names) (args : List Value) : Ends E P (Arithmetic.mul names args) :=
  (ends_numbers hE names "*" args).bind fun _ _ =>
    (ends_foldNumbers hE _ _ _ _ _).bind fun n _ => hP.toValue n

theorem sub (names : Names) (args : List Value) : Ends E P (Arithmetic.sub names args) := by
  refine (ends_numbers hE names "-" args).bind fun ns _ => ?_
  match ns with
  | [] => exact hP.atom _
  | [n] => exact (ends_foldNumbers hE _ _ _ _ _).bind fun n _ => hP.toValue n
  | n :: m :: rest => exact (ends_foldNumbers hE _ _ _ _ _).bind fun n _ => hP.toValue n

theorem div (names : Names) (args : List Value) : Ends E P (Arithmetic.div names args) := by
  refine (ends_numbers hE names "/" args).bind fun ns _ => ?_
  match ns with
  | [] => exact hP.atom _
  | n :: rest => exact (ends_divideBy hE n rest).bind fun n _ => hP.toValue n

theorem compare (names : Names) (who : String) (holds : Float → Float → Bool) (args : List Value) :
    Ends E P (Arithmetic.compare names who holds args) :=
  (ends_numbers hE names who args).bind fun _ _ => hP.atom _

/-! ## Sequences and records -/

variable {names : Names} {v : Value} {args : List Value}

theorem items {who : String} {position : Nat} (h : P v) :
    Ends E (fun items => ∀ v ∈ items, P v) (Collection.items names who position v) := by
  cases v with
  | group shape vs => exact hP.group.1 h
  | _ => exact hE.typeError _ _ _ _ _

omit hP in
theorem fieldsFrom {position : Nat} {fields : List (String × Value)}
    (hfields : ∀ field ∈ fields, P field.2) (hargs : ∀ v ∈ args, P v) :
    Ends E (fun fields => ∀ field ∈ fields, P field.2)
      (Collection.fieldsFrom names position fields args) := by
  fun_induction Collection.fieldsFrom names position fields args with
  | case1 position fields name v rest ih =>
      refine (ends_fieldName hE names "struct" position name).bind fun key _ => ?_
      simp only [List.forall_mem_cons] at hargs
      exact ih key (Fields.forall_insert hargs.2.1 hfields) hargs.2.2
  | case2 => exact hfields

omit hP in
theorem structFields (hargs : ∀ v ∈ args, P v) :
    Ends E (fun fields => ∀ field ∈ fields, P field.2) (Collection.structFields names args) := by
  rw [Collection.structFields]
  split
  · exact hE _ nofun
  · exact fieldsFrom hE (by simp) hargs

theorem size (names : Names) (v : Value) : Ends E P (Collection.size names v) := by
  unfold Collection.size
  split
  · exact hP.atom _
  · exact hP.atom _
  · exact hP.atom _
  · exact hE.typeError _ _ _ _ _

theorem isEmpty (names : Names) (v : Value) : Ends E P (Collection.isEmpty names v) := by
  unfold Collection.isEmpty
  split
  · exact hP.atom _
  · exact hP.atom _
  · exact hP.atom _
  · exact hE.typeError _ _ _ _ _

theorem head (h : P v) : Ends E P (Collection.head names v) := by
  refine (hP.items hE h).bind fun items hitems => ?_
  cases items with
  | nil => exact hE _ nofun
  | cons first rest => exact (List.forall_mem_cons.1 hitems).1

theorem tail (h : P v) : Ends E P (Collection.tail names v) := by
  unfold Collection.tail
  split
  · exact hP.group.2 (List.forall_mem_cons.1 (hP.group.1 h)).2
  · exact hE _ nofun
  · exact hE.typeError _ _ _ _ _

theorem elt {key : Value} (h : P v) : Ends E P (Collection.elt names v key) := by
  unfold Collection.elt
  split
  · rename_i label fields
    refine (ends_fieldName hE names "elt" 1 key).bind fun name _ => ?_
    change P ((Fields.get? name fields).getD _)
    cases hfield : Fields.get? name fields with
    | none => exact hP.atom _
    | some v => exact Fields.of_get?_eq_some (hP.record.1 h) hfield
  · refine (hP.items hE h).bind fun items hitems => ?_
    split
    · dsimp only
      split
      · rename_i hitem
        split at hitem
        · cases hitem
        · exact hitems _ (List.mem_of_getElem? hitem)
      · exact hE _ nofun
    · exact hE.typeError _ _ _ _ _

end Value.ByParts

/-! ## Data and syntax -/

namespace Value

mutual

/-- New labels do not matter. -/
theorem ByParts.stamp (hP : ByParts P) :
    ∀ {v : Value}, P v → ∀ next, P (v.stamp next).1
  | .group shape items, h, next => by
      rw [Value.stamp]
      exact hP.group.2 (ByParts.stampAll hP (hP.group.1 h) next)
  | .record label fields, h, next => by
      rw [Value.stamp]
      split
      · exact hP.record.2 (ByParts.stampFields hP (hP.record.1 h) (next + 1))
      · exact h
  | .void, h, _ => h
  | .atom _, h, _ => h
  | .stx _, h, _ => h
  | .procedure _ _, h, _ => h
  | .transformer _ _ _, h, _ => h
  | .form _, h, _ => h

theorem ByParts.stampAll (hP : ByParts P) : ∀ {items : List Value}, (∀ v ∈ items, P v) →
    ∀ next, ∀ v ∈ (Value.stampAll items next).1, P v
  | [], _, _ => by simp [Value.stampAll]
  | v :: rest, h, next => by
      obtain ⟨hv, hrest⟩ := List.forall_mem_cons.1 h
      rw [Value.stampAll]
      exact List.forall_mem_cons.2 ⟨ByParts.stamp hP hv next, ByParts.stampAll hP hrest _⟩

theorem ByParts.stampFields (hP : ByParts P) : ∀ {fields : List (String × Value)},
    (∀ field ∈ fields, P field.2) →
    ∀ next, ∀ field ∈ (Value.stampFields fields next).1, P field.2
  | [], _, _ => by simp [Value.stampFields]
  | (key, v) :: rest, h, next => by
      obtain ⟨hv, hrest⟩ := List.forall_mem_cons.1 h
      rw [Value.stampFields]
      exact List.forall_mem_cons.2 ⟨ByParts.stamp hP hv next, ByParts.stampFields hP hrest _⟩

end

/-- Data have nothing but atoms in them. -/
theorem ByParts.toDatum (hP : ByParts P) (stx : Syntax) : P stx.toDatum := by
  induction stx using Syntax.partsInduction with
  | atom c a => exact hP.atom a
  | group c shape items ih =>
      rw [Syntax.toDatum, Syntax.toDatumAll_eq]
      exact hP.group.2 (List.forall_mem_map.2 ih)
  | record c fields ih =>
      rw [Syntax.toDatum, Syntax.toDatumFields_eq]
      exact hP.record.2 (List.forall_mem_map.2 ih)

/-- Syntax made from values with the property `P` has the property `S`, if the syntax objects among
them have it, new atoms do, and new containers do whose parts do. -/
structure CarriesOver (P : Value → Prop) (S : Syntax → Prop) (wraps : List Wrap)
    (span : Option Span) : Prop where
  stx {s : Syntax} : P (.stx s) → S s
  atom (a : Atom) : S ((Syntax.atom { span } a).addWraps wraps)
  group {shape : Shape} {items : List Syntax} :
    (∀ stx ∈ items, S stx) → S (.group { span } shape items)
  record {fields : List (String × Syntax)} :
    (∀ field ∈ fields, S field.2) → S (.record { span } fields)

variable {S : Syntax → Prop} {wraps : List Wrap} {span : Option Span}

mutual

theorem ByParts.toSyntax (hP : ByParts P) (hE : Error.Covers E) (hS : CarriesOver P S wraps span) :
    ∀ {v : Value}, P v → Ends E S (v.toSyntax wraps span)
  | .stx s, h => by
      rw [Value.toSyntax]
      exact hS.stx h
  | .atom a, _ => by
      rw [Value.toSyntax]
      exact hS.atom a
  | .group shape items, h => by
      rw [Value.toSyntax]
      exact (ByParts.toSyntaxAll hP hE hS (hP.group.1 h)).bind fun items hitems =>
        Ends.ok (hS.group hitems)
  | .record label fields, h => by
      rw [Value.toSyntax]
      exact (ByParts.toSyntaxFields hP hE hS (hP.record.1 h)).bind fun fields hfields =>
        Ends.ok (hS.record hfields)
  | .void, _ => hE _ nofun
  | .procedure _ _, _ => hE _ nofun
  | .transformer _ _ _, _ => hE _ nofun
  | .form _, _ => hE _ nofun

theorem ByParts.toSyntaxAll (hP : ByParts P) (hE : Error.Covers E)
    (hS : CarriesOver P S wraps span) : ∀ {items : List Value}, (∀ v ∈ items, P v) →
    Ends E (fun items => ∀ stx ∈ items, S stx) (Value.toSyntaxAll wraps span items)
  | [], _ => Ends.ok (by simp)
  | v :: rest, h => by
      obtain ⟨hv, hrest⟩ := List.forall_mem_cons.1 h
      rw [Value.toSyntaxAll]
      exact (ByParts.toSyntax hP hE hS hv).bind fun stx hstx =>
        (ByParts.toSyntaxAll hP hE hS hrest).bind fun items hitems =>
          Ends.ok (List.forall_mem_cons.2 ⟨hstx, hitems⟩)

theorem ByParts.toSyntaxFields (hP : ByParts P) (hE : Error.Covers E)
    (hS : CarriesOver P S wraps span) : ∀ {fields : List (String × Value)}, (∀ field ∈ fields, P field.2) →
    Ends E (fun fields => ∀ field ∈ fields, S field.2) (Value.toSyntaxFields wraps span fields)
  | [], _ => Ends.ok (by simp)
  | (key, v) :: rest, h => by
      obtain ⟨hv, hrest⟩ := List.forall_mem_cons.1 h
      rw [Value.toSyntaxFields]
      exact (ByParts.toSyntax hP hE hS hv).bind fun stx hstx =>
        (ByParts.toSyntaxFields hP hE hS hrest).bind fun fields hfields =>
          Ends.ok (List.forall_mem_cons.2 ⟨hstx, hfields⟩)

end

end Value

end HygienicLisp
