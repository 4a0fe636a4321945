import HygienicLisp.Proofs.Isolation.Guarded
import HygienicLisp.Proofs.Scoping.Compile

/-!
# Compiled code writes what its namespace has taken

Compilation reads cells and values and changes neither; it only takes short names for namespaces
that are known.  What it makes of a form writes an address only for a `set!`, `define` or
`define_syntax` inside the form, whose identifier leads to a cell of the namespace with a definition
at that address.

Main statement: `respects_compile`.  The code of a form is `Sourced` in the form throughout, and it
obeys every guard that has no slots in the namespace.
-/

namespace HygienicLisp

open Compile

/-! ## Where instructions come from -/

/-- A form and the forms inside it, with the wraps around them pushed down. -/
inductive Syntax.Has (root : Syntax) : Syntax → Prop
  | self : root.Has root
  | subform {form part : Syntax} (h : root.Has form) (hpart : part ∈ form.subforms) : root.Has part
  | element {form part : Syntax} (h : root.Has form) (hpart : part ∈ form.elements?.getD []) :
      root.Has part
  | field {form : Syntax} {field : String × Syntax} (h : root.Has form)
      (hfield : field ∈ form.fields?.getD []) : root.Has field.2

/-- The namespace has taken the address for the identifier, which leads to a cell of the namespace
that holds the definition at the address. -/
def Spaces.TakenFor (spaces : Spaces) (ns : NamespaceId) (stx : Syntax) (address : Nat) : Prop :=
  ∃ (space : Namespace) (index : Nat) (key : Key) (d : Definition), spaces[ns]? = some space ∧
    spaces.resolve stx = some (.cell ⟨ns, index⟩) ∧
    space.entries[index]? = some ⟨key, .defined d⟩ ∧
    d.name = key.name ∧ d.owner = ns ∧ d.address = address ∧ address < space.definitionCount

/-- The value has no closures. -/
def Value.IsData (v : Value) : Prop := ∀ guard, v.Obeys guard

/-- The value of a constant. -/
def Code.constant? : Code → Option Value
  | .constant v => some v
  | _ => none

/-- An instruction as compilation makes it from a form.  Constants are data, and an address is
written for the identifier of a form inside the given one. -/
structure Sourced (spaces : Spaces) (ns : NamespaceId) (root : Syntax) (code : Code) : Prop where
  constant : ∀ v, code = .constant v → v.IsData
  write : ∀ f address, code.write? = some (f, address) → ∃ (form head target : Syntax)
    (rest : List Syntax), root.Has form ∧ form.subforms = head :: target :: rest ∧
      coreForm? spaces head = some f ∧ spaces.TakenFor ns target address

theorem Spaces.exists_cell_of_denoted {spaces : Spaces} {stx : Syntax} {name : String}
    {d : Definition} (h : spaces.denoted stx name = .defined d) :
    ∃ c, spaces.resolve stx = some (.cell c) ∧ spaces.content? c = some (.defined d) := by
  rw [denoted] at h
  cases hresolve : spaces.resolve stx with
  | none =>
      rw [hresolve] at h
      cases h
  | some b =>
      rw [hresolve, Option.getD_some] at h
      cases b with
      | free name => cases h
      | lexical v => cases h
      | cell c =>
          refine ⟨c, rfl, ?_⟩
          rw [denote] at h
          split at h <;> cases h
          assumption

/-- What an identifier denotes in its own namespace has been taken for it. -/
theorem Spaces.Consistent.takenFor {spaces : Spaces} (h : spaces.Consistent) {stx : Syntax}
    {name : String} {d : Definition} (hd : spaces.denoted stx name = .defined d) :
    spaces.TakenFor d.owner stx d.address := by
  obtain ⟨⟨owner, index⟩, hresolve, hcontent⟩ := exists_cell_of_denoted hd
  rw [content?] at hcontent
  split at hcontent
  · rename_i space hspace
    obtain ⟨⟨key, content⟩, hentry, rfl⟩ := Option.map_eq_some_iff.1 hcontent
    have hvalid := h.valid hspace
    obtain ⟨howner, -, hlt⟩ := hvalid.owned hentry
    dsimp only at howner
    rw [howner]
    exact ⟨space, index, key, d, hspace, hresolve, hentry, hvalid.named hentry, howner, rfl, hlt⟩
  · cases hcontent

/-! ## Computations of the compiler -/

/-- Where the cells and values are the given ones, the computation respects the guard and keeps
them, and its result is as given. -/
def Makes {α : Type} (guard : Guard) (spaces : Spaces) (P : α → Prop) (x : RunM α) : Prop :=
  ∀ w, SameReads spaces w → spaces.Extends w.spaces →
    Respects guard (fun w' a => SameReads spaces w' ∧ P a) x w

namespace Makes

variable {α β : Type} {guard : Guard} {spaces : Spaces} {P : α → Prop} {Q : β → Prop}

theorem pure {a : α} (h : P a) : Makes guard spaces P (pure a) :=
  fun _ hreads _ => .pure ⟨hreads, h⟩

theorem fail (e : Error) : Makes guard spaces P (RunM.fail e) := fun _ _ _ => .fail e

theorem exhausted : Makes guard spaces P RunM.exhausted := fun _ _ _ => .exhausted

theorem bind {x : RunM α} {f : α → RunM β} (hx : Makes guard spaces P x)
    (hf : ∀ a, P a → Makes guard spaces Q (f a)) : Makes guard spaces Q (x >>= f) := by
  intro w hreads hextends
  refine (hx w hreads hextends).bind fun a w' hlater h => ?_
  exact hf a h.2 w' h.1 (hextends.trans hlater.extension)

theorem getSpaces_bind {f : Spaces → RunM β}
    (h : ∀ w, SameReads spaces w → Makes guard spaces Q (f w.spaces)) :
    Makes guard spaces Q (getSpaces >>= f) :=
  fun w hreads hextends => .getSpaces_bind fun _ => h w hreads w hreads hextends

/-- A computation that reads the same afterwards, because it does whenever it has a result. -/
theorem of_gives {x : RunM α} (hgives : Gives spaces (fun _ => True) x)
    (hrespects : ∀ w, spaces.Extends w.spaces → Respects guard (fun _ a => P a) x w) :
    Makes guard spaces P x := by
  intro w hreads hextends hw
  have hx := hrespects w hextends hw
  cases hrun : x w with
  | ok a w' =>
      rw [hrun] at hx
      exact ⟨hx.1, hx.2.1, (hgives w hreads a w' hrun).1, hx.2.2⟩
  | error halt w' =>
      rw [hrun] at hx
      exact hx

end Makes

section

variable {guard : Guard} {spaces : Spaces} {ns : NamespaceId} {root : Syntax}

theorem makes_depthOf (scopes : Scopes) (rib : RibId) (stx : Syntax) :
    Makes guard spaces (fun _ => True) (depthOf scopes rib stx) := by
  rw [depthOf]
  split
  · exact .pure trivial
  · exact .fail _

theorem makes_operand (form : Syntax) (parts : List Syntax) (position : Nat) :
    Makes guard spaces (fun stx => parts[position]? = some stx) (operand form parts position) := by
  rw [operand]
  split
  · rename_i h
    exact .pure h
  · exact .fail _

theorem makes_enterScope (scopes : Scopes) (binders : List Syntax) :
    Makes guard spaces (fun _ => True) (enterScope scopes binders) := by
  cases binders with
  | nil => exact .pure trivial
  | cons first rest =>
      refine .getSpaces_bind fun w _ => ?_
      split
      · exact .pure trivial
      · exact .fail _

theorem makes_clauses (fault : SyntaxFault) (items : List Syntax) :
    Makes guard spaces (fun pairs => ∀ pair ∈ pairs, ∃ clause ∈ items,
      clause.subforms = [pair.1, pair.2]) (clauses fault items) := by
  induction items with
  | nil => exact .pure (by simp)
  | cons clause rest ih =>
      rw [clauses]
      split
      · rename_i first second hclause
        refine ih.bind fun pairs hpairs => .pure ?_
        refine List.forall_mem_cons.2 ⟨⟨clause, List.mem_cons_self, hclause⟩, fun pair hpair => ?_⟩
        obtain ⟨clause', hmem, hclause'⟩ := hpairs pair hpair
        exact ⟨clause', List.mem_cons_of_mem clause hmem, hclause'⟩
      · exact .fail _

/-! ## References -/

/-- The code of a form is sourced in the form throughout. -/
abbrev AllSourced (spaces : Spaces) (ns : NamespaceId) (root : Syntax) : Code → Prop :=
  Code.All (Sourced spaces ns root)

/-- An instruction that neither writes nor is a constant comes from anywhere. -/
theorem allSourced_plain {code : Code} (hconstant : code.constant? = none)
    (hwrite : code.write? = none) (hparts : ∀ part ∈ code.parts, AllSourced spaces ns root part) :
    AllSourced spaces ns root code := by
  refine .intro ⟨?_, ?_⟩ hparts
  · rintro v rfl
    cases hconstant
  · intro f address h
    rw [hwrite] at h
    cases h

theorem allSourced_leaf {code : Code} (hconstant : code.constant? = none)
    (hwrite : code.write? = none) (hparts : code.parts = []) : AllSourced spaces ns root code := by
  refine allSourced_plain hconstant hwrite fun part hpart => ?_
  rw [hparts] at hpart
  cases hpart

theorem allSourced_constant {v : Value} (hv : v.IsData) :
    AllSourced spaces ns root (.constant v) := by
  refine .intro ⟨?_, ?_⟩ ?_
  · rintro v' ⟨⟩
    exact hv
  · rintro f address ⟨⟩
  · rintro part ⟨⟩

theorem makes_definitionRef {d : Definition} (hknown : spaces.Knows d) (name : String) :
    Makes guard spaces (AllSourced spaces ns root) (definitionRef ns d name) := by
  rw [definitionRef]
  split
  · exact .pure (allSourced_leaf rfl rfl rfl)
  · refine Makes.bind (P := fun _ => True) ?_ fun id _ => .pure (allSourced_leaf rfl rfl rfl)
    exact .of_gives (.importId ns d) fun w hextends => respects_importId (hknown.mono hextends) ns

theorem makes_reference (hspaces : spaces.Consistent) (scopes : Scopes) (stx : Syntax)
    (name : String) :
    Makes guard spaces (AllSourced spaces ns root) (reference ns scopes stx name) := by
  refine .getSpaces_bind fun w hreads => ?_
  have hknown {d : Definition} (hd : (w.spaces.denoted stx name).target? = some d) :
      spaces.Knows d := by
    rw [Spaces.denoted, Spaces.denote_congr hreads.cells] at hd
    exact hspaces.knows_target hd
  split
  · split
    · split
      · exact .pure (allSourced_leaf rfl rfl rfl)
      · exact .fail _
    · exact .fail _
  · exact (makes_depthOf _ _ _).bind fun _ _ => .pure (allSourced_leaf rfl rfl rfl)
  · rename_i hd
    exact makes_definitionRef (hknown (by rw [hd]; rfl)) name
  · rename_i hi
    exact makes_definitionRef (hknown (by rw [hi]; rfl)) name

/-- The address for a definition is one that the namespace has taken. -/
theorem makes_definedAddress (hspaces : spaces.Consistent) (stx : Syntax) :
    Makes guard spaces (fun found => spaces.TakenFor ns stx found.2) (definedAddress ns stx) := by
  refine .getSpaces_bind fun w hreads => ?_
  rw [Spaces.denoted, Spaces.resolve_congr hreads.cells, Spaces.denote_congr hreads.cells]
  split
  · rename_i d hd
    split
    · rename_i howner
      have htaken := hspaces.takenFor hd
      rw [howner] at htaken
      exact .pure htaken
    · exact .fail _
  · exact .fail _

/-! ## Parts of forms -/

/-- The compilation of the forms inside the given one makes code that is sourced in it. -/
def CompileMakes (guard : Guard) (spaces : Spaces) (ns : NamespaceId) (root : Syntax)
    (compile : Scopes → Syntax → RunM Code) : Prop :=
  ∀ scopes stx, root.Has stx → Makes guard spaces (AllSourced spaces ns root) (compile scopes stx)

variable {compile : Scopes → Syntax → RunM Code} {form : Syntax} {parts : List Syntax}

theorem makes_all (hcompile : CompileMakes guard spaces ns root compile) (scopes : Scopes)
    {stxs : List Syntax} (h : ∀ stx ∈ stxs, root.Has stx) :
    Makes guard spaces (fun codes => ∀ code ∈ codes, AllSourced spaces ns root code)
      (all compile scopes stxs) := by
  induction stxs with
  | nil => exact .pure (by simp)
  | cons stx rest ih =>
      obtain ⟨hstx, hrest⟩ := List.forall_mem_cons.1 h
      refine (hcompile scopes stx hstx).bind fun code hcode => ?_
      exact (ih hrest).bind fun codes hcodes => .pure (List.forall_mem_cons.2 ⟨hcode, hcodes⟩)

theorem makes_fields (hcompile : CompileMakes guard spaces ns root compile) (scopes : Scopes)
    {fields : List (String × Syntax)} (h : ∀ field ∈ fields, root.Has field.2) :
    Makes guard spaces (fun (codes : List (String × Code)) => ∀ field ∈ codes,
      AllSourced spaces ns root field.2) (Compile.fields compile scopes fields) := by
  induction fields with
  | nil => exact .pure (by simp)
  | cons field rest ih =>
      obtain ⟨hfield, hrest⟩ := List.forall_mem_cons.1 h
      refine (hcompile scopes field.2 hfield).bind fun code hcode => ?_
      exact (ih hrest).bind fun codes hcodes => .pure (List.forall_mem_cons.2 ⟨hcode, hcodes⟩)

theorem makes_pairs (hcompile : CompileMakes guard spaces ns root compile) (scopes : Scopes)
    {items : List Syntax} (h : ∀ clause ∈ items, root.Has clause) :
    Makes guard spaces (fun (codes : List (Code × Code)) => ∀ pair ∈ codes,
      AllSourced spaces ns root pair.1 ∧ AllSourced spaces ns root pair.2)
      (pairs compile scopes items) := by
  induction items with
  | nil => exact .pure (by simp)
  | cons clause rest ih =>
      obtain ⟨hclause, hrest⟩ := List.forall_mem_cons.1 h
      rw [pairs]
      split
      · rename_i parameter value hparts
        have hparameter : root.Has parameter := hclause.subform (by simp [hparts])
        have hvalue : root.Has value := hclause.subform (by simp [hparts])
        refine (hcompile scopes parameter hparameter).bind fun parameter hparameter => ?_
        refine (hcompile scopes value hvalue).bind fun value hvalue => ?_
        refine (ih hrest).bind fun codes hcodes => .pure ?_
        exact List.forall_mem_cons.2 ⟨⟨hparameter, hvalue⟩, hcodes⟩
      · exact .fail _

theorem makes_body (hcompile : CompileMakes guard spaces ns root compile) (scopes : Scopes)
    {forms : List Syntax} (h : ∀ stx ∈ forms, root.Has stx) :
    Makes guard spaces (AllSourced spaces ns root) (body compile scopes forms) := by
  match forms with
  | [] => exact .pure (allSourced_leaf rfl rfl rfl)
  | [stx] => exact hcompile scopes stx (h stx List.mem_cons_self)
  | stx₁ :: stx₂ :: rest =>
      exact (makes_all hcompile scopes h).bind fun codes hcodes =>
        .pure (allSourced_plain rfl rfl hcodes)

/-! ## Core forms -/

theorem makes_lambda (hcompile : CompileMakes guard spaces ns root compile) (scopes : Scopes)
    (hparts : ∀ part ∈ parts, root.Has part) (name : Option String) :
    Makes guard spaces (AllSourced spaces ns root)
      (Compile.lambda compile scopes form parts name) := by
  refine (makes_operand form parts 1).bind fun formals _ => ?_
  refine (makes_enterScope scopes _).bind fun inner _ => ?_
  refine (makes_body hcompile inner fun stx h => hparts stx (List.mem_of_mem_drop h)).bind
    fun code hcode => .pure (allSourced_plain rfl rfl ?_)
  rintro part hpart
  obtain rfl := List.mem_singleton.1 hpart
  exact hcode

theorem makes_binding (hcompile : CompileMakes guard spaces ns root compile) (scopes : Scopes)
    (hparts : ∀ part ∈ parts, root.Has part) (recursive : Bool) :
    Makes guard spaces (AllSourced spaces ns root)
      (binding compile scopes form parts recursive) := by
  refine (makes_operand form parts 1).bind fun clauses hclauses => ?_
  refine (makes_clauses _ _).bind fun pairs hpairs => ?_
  have hbody : ∀ stx ∈ parts.drop 2, root.Has stx := fun stx h =>
    hparts stx (List.mem_of_mem_drop h)
  have hinits : ∀ stx ∈ pairs.map (·.2), root.Has stx := by
    intro stx hstx
    obtain ⟨pair, hpair, rfl⟩ := List.mem_map.1 hstx
    obtain ⟨clause, hmem, hclause⟩ := hpairs pair hpair
    have hclauses : root.Has clauses := hparts clauses (List.mem_of_getElem? hclauses)
    exact (hclauses.subform hmem).subform (by simp [hclause])
  split
  · refine (makes_enterScope scopes _).bind fun inner _ => ?_
    refine (makes_all hcompile inner hinits).bind fun codes hcodes => ?_
    refine (makes_body hcompile inner hbody).bind fun code hcode => .pure ?_
    exact allSourced_plain rfl rfl (List.forall_mem_cons.2 ⟨hcode, hcodes⟩)
  · refine (makes_all hcompile scopes hinits).bind fun codes hcodes => ?_
    refine (makes_enterScope scopes _).bind fun inner _ => ?_
    refine (makes_body hcompile inner hbody).bind fun code hcode => .pure ?_
    exact allSourced_plain rfl rfl (List.forall_mem_cons.2 ⟨hcode, hcodes⟩)

/-- An instruction that writes an address for the identifier of a form. -/
theorem allSourced_of_write {f : CoreForm} {head target : Syntax} {address : Nat}
    {code value : Code} (hform : root.Has form) (hparts : form.subforms = parts)
    (hhead : parts[0]? = some head)
    (hf : coreForm? spaces head = some f) (htarget : parts[1]? = some target)
    (htaken : spaces.TakenFor ns target address) (hwrite : code.write? = some (f, address))
    (hcode : code.parts = [value]) (hvalue : AllSourced spaces ns root value) :
    AllSourced spaces ns root code := by
  refine .intro ⟨?_, ?_⟩ ?_
  · rintro v rfl
    cases hwrite
  · intro f' address' h
    obtain ⟨rfl, rfl⟩ : f = f' ∧ address = address' := by simpa [hwrite] using h
    obtain ⟨rest, rfl⟩ : ∃ rest, parts = head :: target :: rest := by
      cases parts with
      | nil => cases hhead
      | cons first others =>
          cases hhead
          cases others with
          | nil => cases htarget
          | cons second rest =>
              cases htarget
              exact ⟨rest, rfl⟩
    exact ⟨form, head, target, rest, hform, hparts, hf, htaken⟩
  · rw [hcode]
    intro part hpart
    obtain rfl := List.mem_singleton.1 hpart
    exact hvalue

section

variable {head : Syntax}

theorem makes_assignment (hspaces : spaces.Consistent)
    (hcompile : CompileMakes guard spaces ns root compile) (scopes : Scopes)
    (hform : root.Has form) (hparts : form.subforms = parts) (hhead : parts[0]? = some head)
    (hf : coreForm? spaces head = some .set) :
    Makes guard spaces (AllSourced spaces ns root) (assignment ns compile scopes form parts) := by
  have hhas : ∀ part ∈ parts, root.Has part := fun part h => hform.subform (hparts ▸ h)
  refine (makes_operand form parts 1).bind fun target htarget => ?_
  refine (makes_operand form parts 2).bind fun value hvalue => ?_
  refine (hcompile scopes value (hhas _ (List.mem_of_getElem? hvalue))).bind fun code hcode => ?_
  split
  · exact .fail _
  · refine .getSpaces_bind fun w hreads => ?_
    rw [Spaces.denoted, Spaces.resolve_congr hreads.cells, Spaces.denote_congr hreads.cells]
    split
    · refine (makes_depthOf _ _ _).bind fun depth _ => .pure (allSourced_plain rfl rfl ?_)
      intro part hpart
      obtain rfl := List.mem_singleton.1 hpart
      exact hcode
    · rename_i d hd
      -- The address is written only if the definition is one of the namespace itself.
      split
      · rename_i howner
        have htaken := hspaces.takenFor hd
        rw [howner] at htaken
        exact .pure (allSourced_of_write hform hparts hhead hf htarget htaken rfl rfl hcode)
      · exact .fail _
    · exact .fail _
    · exact .fail _

theorem makes_definition (hspaces : spaces.Consistent)
    (hcompile : CompileMakes guard spaces ns root compile) (scopes : Scopes)
    (hform : root.Has form) (hparts : form.subforms = parts) (hhead : parts[0]? = some head)
    (hf : coreForm? spaces head = some .define) :
    Makes guard spaces (AllSourced spaces ns root) (definition ns compile scopes form parts) := by
  have hhas : ∀ part ∈ parts, root.Has part := fun part h => hform.subform (hparts ▸ h)
  refine (makes_operand form parts 1).bind fun target htarget => ?_
  refine (makes_definedAddress hspaces target).bind fun found htaken => ?_
  refine (makes_operand form parts 2).bind fun value hvalue => ?_
  have hvalue : root.Has value := hhas value (List.mem_of_getElem? hvalue)
  have hdefine {code : Code} (hcode : AllSourced spaces ns root code) :
      AllSourced spaces ns root (.define found.1 found.2 code) :=
    allSourced_of_write hform hparts hhead hf htarget htaken rfl rfl hcode
  refine .getSpaces_bind fun w hreads => ?_
  split
  · -- A procedure is compiled under the name that is defined, from the parts of its form.
    rename_i inner hinner
    have hlambda : value.subforms = inner := by
      unfold lambdaParts? at hinner
      split at hinner
      · rename_i h
        split at hinner <;> cases hinner
        exact h
      · cases hinner
    refine (makes_lambda hcompile scopes ?_ _).bind fun code hcode => .pure (hdefine hcode)
    exact fun part h => hvalue.subform (hlambda ▸ h)
  · exact (hcompile scopes value hvalue).bind fun code hcode => .pure (hdefine hcode)

/-- One case for each core form. -/
theorem makes_core (hspaces : spaces.Consistent)
    (hcompile : CompileMakes guard spaces ns root compile) (scopes : Scopes) {f : CoreForm}
    (hform : root.Has form) (hparts : form.subforms = parts) (hhead : parts[0]? = some head)
    (hf : coreForm? spaces head = some f) :
    Makes guard spaces (AllSourced spaces ns root) (core ns compile scopes f form parts) := by
  have hhas : ∀ part ∈ parts, root.Has part := fun part h => hform.subform (hparts ▸ h)
  have hbody (count : Nat) : ∀ part ∈ parts.drop count, root.Has part := fun part h =>
    hhas part (List.mem_of_mem_drop h)
  have hoperand {position : Nat} {stx : Syntax} (h : parts[position]? = some stx) : root.Has stx :=
    hhas stx (List.mem_of_getElem? h)
  cases f with
  | quote =>
      refine (makes_operand form parts 1).bind fun datum _ => ?_
      refine Makes.bind (P := Value.IsData) ?_ fun v hv => .pure (allSourced_constant hv)
      exact .of_gives (.stampValue _) fun w _ =>
        .modifyGet_quiet ⟨rfl, rfl, rfl, rfl, rfl, rfl⟩ fun guard =>
          Value.byParts_obeys.stamp datum.obeys_toDatum _
  | quoteSyntax =>
      refine (makes_operand form parts 1).bind fun stx _ => ?_
      refine Makes.bind (P := fun _ => True)
        (.of_gives (.stampSyntax stx) fun w _ => respects_stampSyntax stx) fun stx _ => ?_
      exact .pure (allSourced_constant fun _ => .stx)
  | ifForm =>
      refine (makes_operand form parts 1).bind fun test htest => ?_
      refine (hcompile scopes test (hoperand htest)).bind fun test htest => ?_
      refine (makes_operand form parts 2).bind fun consequent hconsequent => ?_
      refine (hcompile scopes consequent (hoperand hconsequent)).bind
        fun consequent hconsequent => ?_
      refine (makes_operand form parts 3).bind fun alternative halternative => ?_
      refine (hcompile scopes alternative (hoperand halternative)).bind
        fun alternative halternative => .pure (allSourced_plain rfl rfl ?_)
      simpa [Code.parts] using ⟨htest, hconsequent, halternative⟩
  | begin => exact makes_body hcompile scopes (hbody 1)
  | lambda => exact makes_lambda hcompile scopes hhas none
  | letForm => exact makes_binding hcompile scopes hhas false
  | letrec => exact makes_binding hcompile scopes hhas true
  | set => exact makes_assignment hspaces hcompile scopes hform hparts hhead hf
  | define => exact makes_definition hspaces hcompile scopes hform hparts hhead hf
  -- Definitions and assignments write an address, which must be one that the identifier stands for.
  | defineSyntax =>
      refine (makes_operand form parts 1).bind fun target htarget => ?_
      refine (makes_definedAddress hspaces target).bind fun found htaken => ?_
      refine (makes_operand form parts 2).bind fun value hvalue => ?_
      refine (hcompile scopes value (hoperand hvalue)).bind fun code hcode => .pure ?_
      exact allSourced_of_write hform hparts hhead hf htarget htaken rfl rfl hcode
  | parameterize =>
      refine (makes_operand form parts 1).bind fun clauses hclauses => ?_
      refine (makes_pairs hcompile scopes fun clause h => (hoperand hclauses).subform h).bind
        fun bindings hbindings => ?_
      refine (makes_body hcompile scopes (hbody 2)).bind fun code hcode => .pure ?_
      refine allSourced_plain rfl rfl (List.forall_mem_cons.2 ⟨hcode, fun part hpart => ?_⟩)
      rcases List.mem_append.1 hpart with h | h
      · obtain ⟨pair, hpair, rfl⟩ := List.mem_map.1 h
        exact (hbindings pair hpair).1
      · obtain ⟨pair, hpair, rfl⟩ := List.mem_map.1 h
        exact (hbindings pair hpair).2
  | moduleForm | require | provide => exact .pure (allSourced_leaf rfl rfl rfl)

end

/-! ## Forms -/

theorem makes_form (hspaces : spaces.Consistent)
    (hcompile : CompileMakes guard spaces ns root compile) (scopes : Scopes) {stx : Syntax}
    (hstx : root.Has stx) :
    Makes guard spaces (AllSourced spaces ns root) (Compile.form ns compile scopes stx) := by
  cases stx with
  | atom context a =>
      cases a with
      | symbol name => exact makes_reference hspaces scopes _ name
      | _ => exact .pure (allSourced_constant fun _ => .atom)
  | record context fields =>
      refine (makes_fields hcompile scopes fun field h => hstx.field h).bind fun codes hcodes => ?_
      refine .pure (allSourced_plain rfl rfl fun part hpart => ?_)
      obtain ⟨field, hfield, rfl⟩ := List.mem_map.1 hpart
      exact hcodes field hfield
  | group context shape items =>
      cases shape with
      | list =>
          have hparts : ∀ part ∈ items.map (.addWraps context.wraps), root.Has part :=
            fun part h => hstx.element h
          refine (makes_all hcompile scopes hparts).bind fun codes hcodes => ?_
          exact .pure (allSourced_plain rfl rfl hcodes)
      | sexp =>
          rw [Compile.form]
          split
          · exact .fail _
          · rename_i head operands hparts
            refine .getSpaces_bind fun w hreads => ?_
            rw [hreads.coreForm?]
            split
            · rename_i f hf
              exact makes_core hspaces hcompile scopes hstx hparts rfl hf
            · have hhas : ∀ part ∈ head :: operands, root.Has part := fun part h =>
                hstx.subform (hparts ▸ h)
              obtain ⟨hhead, hoperands⟩ := List.forall_mem_cons.1 hhas
              refine (hcompile scopes head hhead).bind fun operator hoperator => ?_
              refine (makes_all hcompile scopes hoperands).bind fun codes hcodes => .pure ?_
              exact allSourced_plain rfl rfl (List.forall_mem_cons.2 ⟨hoperator, hcodes⟩)

/-- The code of a form inside the given one is sourced in it, however deep compilation may go. -/
theorem makes_compileAt (hspaces : spaces.Consistent) (fuel : Nat) :
    CompileMakes guard spaces ns root (compileAt ns fuel) := by
  induction fuel with
  | zero => exact fun _ _ _ => .exhausted
  | succ fuel ih => exact fun scopes stx hstx => makes_form hspaces ih scopes hstx

end

/-- Code that is sourced in a form obeys a guard that allows its instructions. -/
theorem Code.All.obeys {guard : Guard} {spaces : Spaces} {ns : NamespaceId} {root : Syntax}
    {code : Code} (h : AllSourced spaces ns root code)
    (hall : ∀ c, code.Contains c → guard.allows ns c) : code.Obeys guard ns :=
  Code.obeys_of_contains hall (fun v hv => (h.of_contains hv).constant v rfl guard) .self

/-- Compilation respects every guard.  The code is sourced in the form, and it obeys the guard if
none of the slots is in the namespace. -/
theorem respects_compile {guard : Guard} {w : World} (ns : NamespaceId) (stx : Syntax) :
    Respects guard (fun w' code => SameReads w.spaces w' ∧ AllSourced w.spaces ns stx code ∧
      (guard.Outside ns → code.Obeys guard ns)) (compile ns stx) w := by
  intro hw
  have hcompile : CompileMakes guard w.spaces ns stx (compileAt ns (stx.weight + 1)) :=
    makes_compileAt hw.consistent.spaces (stx.weight + 1)
  have hmakes := hcompile [] stx .self w ⟨rfl, fun _ _ => rfl⟩ (.refl w.spaces) hw
  cases hrun : compile ns stx w with
  | error halt w' =>
      rw [compile] at hrun
      rw [hrun] at hmakes
      exact hmakes
  | ok code w' =>
      have hat := hrun
      rw [compile] at hat
      rw [hat] at hmakes
      obtain ⟨hw', hlater, hreads, hsourced⟩ := hmakes
      refine ⟨hw', hlater, hreads, hsourced, fun hns => ?_⟩
      exact hsourced.obeys fun c hc => guard.compiled hns hw.consistent hrun hc

end HygienicLisp
