import HygienicLisp.Proofs.TopLevel.Loading

/-!
# Definitions at top level

`(define NAME INTEGER)` goes through all stages of the program: its head is expanded, an address is
taken for the name, and from then on the name stands for that address although nothing is there yet.
Then the form is expanded and compiled, which looks at its head once more, and run.

The stages agree on the form unless it is its own head that is defined: after the address of `define`
has been taken, the form is a call of something that has no value.

Main statement: `evalForm_define`.  For any other name the form succeeds, the name has the value
afterwards, and nothing else that is seen by name has changed.
-/

namespace HygienicLisp

open Expansion

variable {w : World} {ns : NamespaceId} {space : Namespace} {name : String}

/-! ## Names and their values -/

namespace Spaces

variable {spaces spaces' : Spaces} {stx : Syntax}

/-- The definition that a name leads to in a namespace. -/
def target? (spaces : Spaces) (ns : NamespaceId) (name : String) : Option Definition :=
  (spaces.named? ns name).map Content.target

theorem headValue?_eq_lookup (h : stx.Names ns name) :
    headValue? spaces stx =
      ((spaces.cell? ns (plainKey name)).map Binding.cell).bind spaces.lookup? := by
  have hident : stx.isIdentifier = true := by rw [Syntax.isIdentifier, h.symbol]; rfl
  rw [headValue?, if_pos hident, resolve_names h]
  cases spaces.cell? ns (plainKey name) <;> rfl

/-- What an identifier at the head of a form stands for is up to its name. -/
theorem headValue?_names (hlive : spaces.Live) (h : stx.Names ns name) :
    headValue? spaces stx =
      (spaces.target? ns name).bind fun d => spaces.value? d.owner d.address := by
  rw [headValue?_eq_lookup h, target?, named?_of_live (hlive ns)]
  cases spaces.cell? ns (plainKey name) with
  | none => rfl
  | some c =>
      rw [Option.map_some, Option.bind_some, Option.bind_some, lookup?, target?_cell]
      cases spaces.content? c with
      | none => rfl
      | some content =>
          simp only [Option.map_some, Option.bind_some, hlive content.target.owner,
            Bool.false_eq_true, if_false]

theorem lookupName_eq_target (hlive : spaces.Live) (ns : NamespaceId) (name : String) :
    spaces.lookupName ns name =
      match spaces.target? ns name with
      | none => .error (.of (.unbound name))
      | some d => spaces.valueAt d.owner d.address name := by
  rw [lookupName, target?_resolveName (hlive ns), target?]
  cases spaces.named? ns name with
  | none => rfl
  | some content =>
      simp only [Option.map_some, hlive content.target.owner, Bool.false_eq_true, if_false]

/-- A known slot that holds the same as before gives the same answer. -/
theorem valueAt_extends (h : spaces.Extends spaces') {d : Definition} (hd : spaces.Knows d)
    (hvalue : spaces'.value? d.owner d.address = spaces.value? d.owner d.address) (name : String) :
    spaces'.valueAt d.owner d.address name = spaces.valueAt d.owner d.address name := by
  obtain ⟨space, hspace, -⟩ := hd
  obtain ⟨space', hspace', hextends⟩ := h d.owner space hspace
  rw [value?, hspace', value?, hspace] at hvalue
  rw [valueAt, hspace', valueAt, hspace]
  dsimp only at hvalue ⊢
  rw [Namespace.valueAt, Namespace.valueAt, hvalue, hextends.home]

theorem valueAt_of_value? {owner : NamespaceId} {address : Nat} {v : Value}
    (h : spaces.value? owner address = some v) (name : String) :
    spaces.valueAt owner address name = .ok v := by
  rw [value?] at h
  rw [valueAt]
  split at h
  · rw [Namespace.valueAt, h]
  · cases h

theorem value?_setValue (hspace : spaces[ns]? = some space) (address : Nat) (v : Value)
    (owner : NamespaceId) (other : Nat) :
    (spaces.setValue ns address v).value? owner other =
      if owner = ns ∧ other = address then some v else spaces.value? owner other := by
  rw [setValue, modify_eq_setIfInBounds hspace, value?, value?,
    getElem?_setIfInBounds_of_some hspace]
  by_cases howner : owner = ns
  · subst howner
    rw [if_pos rfl, hspace]
    dsimp only
    rw [Namespace.value?_setValue_eq]
    by_cases hother : other = address
    · rw [if_pos hother, if_pos ⟨rfl, hother⟩]
    · rw [if_neg hother, if_neg fun h => hother h.2]
  · rw [if_neg howner, if_neg fun h => howner h.1]

/-- A definition stores no value. -/
theorem value?_predefine {stx' : Syntax} (h : spaces.predefine ns stx = .ok (stx', spaces'))
    (owner : NamespaceId) (address : Nat) :
    spaces'.value? owner address = spaces.value? owner address := by
  have hchange : spaces.Change (fun _ => True) (fun _ _ => False) spaces' := change_of_predefine h
  rcases hchange.value? owner address with hsame | ⟨_, hstored, -⟩
  · exact hsame
  · exact hstored.elim

/-- At top level an address can be taken for every name. -/
theorem exists_predefine (hspace : spaces[ns]? = some space) (hkind : space.kind = .topLevel)
    (hname : stx.symbol? = some name) :
    ∃ result, spaces.predefine ns stx = .ok result := by
  rw [predefine, hname, hspace]
  dsimp only
  cases h : space.predefine ns (spaces.filingKey ns stx name) with
  | ok result => exact ⟨_, rfl⟩
  | error conflict =>
      have hmodule := (Namespace.predefine_refused_iff.1 ⟨conflict, h⟩).1
      cases hkind.symm.trans hmodule

end Spaces

/-! ## The definition of a name -/

/-- The namespaces after the name has been defined: the next address of the namespace has the value,
and it is what the name leads to. -/
structure Spaces.Defines (before : Spaces) (ns : NamespaceId) (name : String) (v : Value)
    (after : Spaces) : Prop where
  extension : before.Extends after
  freed : after.isFreed = before.isFreed
  count : after.taken ns = before.taken ns + 1
  targets : ∀ other, other ≠ name → after.target? ns other = before.target? ns other
  target : ∃ d, after.target? ns name = some d ∧ d.owner = ns ∧ d.address = before.taken ns
  values : ∀ owner address, after.value? owner address =
    if owner = ns ∧ address = before.taken ns then some v else before.value? owner address

namespace Spaces

variable {spaces spaces' : Spaces} {v : Value}

/-- What a name leads to once an address has been taken for it. -/
theorem target?_predefine {stx stx' : Syntax} (hspace : spaces[ns]? = some space)
    (hstx : stx.Names ns name) (h : spaces.predefine ns stx = .ok (stx', spaces')) :
    spaces'.target? ns name = some (space.nextDefinition ns name) ∧
      ∀ other, other ≠ name → spaces'.target? ns other = spaces.target? ns other := by
  constructor
  · obtain ⟨name', space₁, index, hname, hspace₁, -, hcell, -, hcontent, -⟩ := predefine_spec h
    obtain rfl : name = name' := Option.some.inj (hstx.symbol.symm.trans hname)
    obtain rfl : space = space₁ := Option.some.inj (hspace.symm.trans hspace₁)
    rw [filingKey_names hstx] at hcell
    rw [target?, named?_eq, hcell, Option.bind_some, hcontent]
    rfl
  · intro other hother
    obtain ⟨d, -, hwrites⟩ := writes_predefine hstx h
    rw [target?, target?, hwrites.here, if_neg hother]

/-- Taking an address for a name and storing a value there defines the name. -/
theorem defines_of_predefine {stx stx' : Syntax} (hspace : spaces[ns]? = some space)
    (hstx : stx.Names ns name) (h : spaces.predefine ns stx = .ok (stx', spaces')) (v : Value) :
    spaces.Defines ns name v (spaces'.setValue ns (spaces.taken ns) v) := by
  have hchange : spaces.Change (fun _ => True) (fun _ _ => True) spaces' := change_of_predefine h
  obtain ⟨space', hspace', -⟩ := hchange.extends ns space hspace
  obtain ⟨htarget, htargets⟩ := target?_predefine hspace hstx h
  have hcells := cells_setValue spaces' ns (spaces.taken ns) v
  -- Where a name leads is not up to what is stored.
  have hstored (other : String) :
      (spaces'.setValue ns (spaces.taken ns) v).target? ns other = spaces'.target? ns other := by
    rw [target?, target?, named?_congr (congrFun hcells ns)]
  refine ⟨?_, (funext (isFreed_congr hcells)).trans hchange.isFreed, ?_,
    fun other hother => (hstored other).trans (htargets other hother), ?_, fun owner address => ?_⟩
  · refine hchange.extends.trans ?_
    have hset : spaces'.setValue ns (spaces.taken ns) v = spaces' ∨
        spaces'.Change (fun _ => True) (fun _ _ => True) (spaces'.setValue ns (spaces.taken ns) v) :=
      change_setValue spaces' trivial
    rcases hset with hset | hset
    · rw [hset]
      exact .refl spaces'
    · exact hset.extends
  · have hcount : spaces'.taken ns = space'.definitionCount := by rw [taken, hspace']; rfl
    rw [← taken_predefine h, hcount, setValue, modify_eq_setIfInBounds hspace', taken,
      getElem?_setIfInBounds_of_some hspace', if_pos rfl]
    rfl
  · refine ⟨space.nextDefinition ns name, (hstored name).trans htarget, rfl, ?_⟩
    rw [taken, hspace]
    rfl
  · rw [value?_setValue hspace', value?_predefine h]

theorem Defines.live (h : spaces.Defines ns name v spaces') (hlive : spaces.Live) :
    spaces'.Live := by
  rw [Live, h.freed]
  exact hlive

/-- A name that has been defined has the value. -/
theorem Defines.lookupName (h : spaces.Defines ns name v spaces') (hlive : spaces'.Live) :
    spaces'.lookupName ns name = .ok v := by
  obtain ⟨d, hd, howner, haddress⟩ := h.target
  rw [lookupName_eq_target hlive, hd]
  refine valueAt_of_value? ?_ name
  rw [h.values, if_pos ⟨howner, haddress⟩]

/-- Other names have the values they had: nothing that they may lead to has the new address. -/
theorem Defines.lookupName_of_ne (h : spaces.Defines ns name v spaces') (hlive : spaces.Live)
    (hlive' : spaces'.Live)
    (hknown : ∀ other d, spaces.target? ns other = some d → spaces.Knows d ∧ spaces.Allots d)
    {other : String} (hother : other ≠ name) :
    spaces'.lookupName ns other = spaces.lookupName ns other := by
  rw [lookupName_eq_target hlive', lookupName_eq_target hlive, h.targets other hother]
  cases hd : spaces.target? ns other with
  | none => rfl
  | some d =>
      obtain ⟨hknows, hallots⟩ := hknown other d hd
      refine valueAt_extends h.extension hknows ?_ other
      rw [h.values, if_neg]
      rintro ⟨howner, haddress⟩
      rw [Allots, howner, haddress] at hallots
      exact Nat.lt_irrefl _ hallots

end Spaces

/-- What a name leads to is known, and its address has been handed out. -/
theorem World.Allotted.named (ha : w.Allotted) (hw : w.Consistent) (hlive : w.spaces.Live)
    {d : Definition} (h : w.spaces.target? ns name = some d) :
    w.spaces.Knows d ∧ w.spaces.Allots d := by
  rw [Spaces.target?, ← Spaces.target?_resolveName (hlive ns)] at h
  obtain ⟨b, -, hd⟩ := Option.bind_eq_some_iff.1 h
  exact ⟨hw.spaces.knows_target hd, ha.target hw hd⟩

theorem headValue?_of_coreForm? {spaces : Spaces} {head : Syntax} {f : CoreForm}
    (h : coreForm? spaces head = some f) : headValue? spaces head = some (.form f) := by
  rw [coreForm?] at h
  split at h
  · rename_i hvalue
    rw [hvalue, Option.some.inj h]
  · cases h

/-! ## The stages -/

section

variable {form head target : Syntax} {c : Context} {i : Int64}

/-- The address of the name is taken. -/
theorem predefineForm_define (hparts : form.subforms = [head, target, .atom c (.int i)])
    (hidentifier : target.isIdentifier = true) {target' : Syntax} {spaces' : Spaces}
    (h : w.spaces.predefine ns target = .ok (target', spaces')) :
    predefineForm ns form w =
      .ok (form.rebuildSexp [head, target', .atom c (.int i)]) { w with spaces := spaces' } := by
  rw [predefineForm, hparts]
  refine RunM.bind_eq_ok.2 ⟨(target, .atom c (.int i)), w, ?_, ?_⟩
  · rw [definitionParts, if_pos hidentifier]
    rfl
  · dsimp only
    rw [if_neg (by simp [hidentifier])]
    refine RunM.bind_eq_ok.2 ⟨target', { w with spaces := spaces' }, ?_, rfl⟩
    rw [predefine_apply, h]

theorem expand_int (hlimit : w.runtime.config.maxExpansionDepth = none) (loader : Loader)
    (fuel depth : Nat) (context : ExpandContext) :
    expand loader ns (fuel + 1) depth context (.atom c (.int i)) w = .ok (.atom c (.int i)) w :=
  RunM.bind_eq_ok.2 ⟨depth + 1, w, descend_of_unlimited hlimit _ _, rfl⟩

/-- The expansion of a definition takes an address, and leaves the integer as it is. -/
theorem expand_define (hlimit : w.runtime.config.maxExpansionDepth = none)
    (hparts : form.subforms = [head, target, .atom c (.int i)])
    (hhead : headValue? w.spaces head = some (.form .define)) {target' : Syntax} {spaces' : Spaces}
    (hidentifier : target.isIdentifier = true)
    (h : w.spaces.predefine ns target = .ok (target', spaces')) (loader : Loader) (fuel : Nat) :
    expand loader ns (fuel + 2) 0 .topLevel form w =
      .ok (form.rebuildSexp [head, target', .atom c (.int i)]) { w with spaces := spaces' } := by
  have hcore : core (expand loader ns (fuel + 1) 1) loader ns .define form
      [head, target, .atom c (.int i)] .topLevel w =
        .ok (form.rebuildSexp [head, target', .atom c (.int i)]) { w with spaces := spaces' } := by
    refine RunM.bind_eq_ok.2 ⟨⟨⟩, w, rfl, ?_⟩
    refine RunM.bind_eq_ok.2 ⟨_, _, predefineForm_define hparts hidentifier h, ?_⟩
    beta_reduce
    rw [Syntax.subforms_rebuildSexp]
    exact RunM.bind_eq_ok.2 ⟨_, _, expand_int (w := { w with spaces := spaces' }) hlimit loader fuel
      1 .expression, rfl⟩
  refine RunM.bind_eq_ok.2 ⟨1, w, descend_of_unlimited hlimit _ _, RunM.mapError_eq_ok.2 ?_⟩
  rw [if_pos (isSexp_of_subforms hparts), expandSexp, hparts]
  refine RunM.bind_eq_ok.2 ⟨w.spaces, w, rfl, ?_⟩
  rw [hhead]
  exact hcore

/-- The code of a definition stores the integer at the address. -/
theorem compile_define {d : Definition} (hhead : coreForm? w.spaces head = some .define)
    (htarget : w.spaces.denoted target "" = .defined d) (howner : d.owner = ns) :
    compile ns (form.rebuildSexp [head, target, .atom c (.int i)]) w =
      .ok (.define d.name d.address (.constant (.atom (.int i)))) w := by
  have hweight : (form.rebuildSexp [head, target, .atom c (.int i)]).weight + 1 =
      (head.weight + target.weight + 1) + 2 := by
    simp only [Syntax.rebuildSexp, Syntax.weight, Syntax.weightAll]
    omega
  have haddress : Compile.definedAddress ns target w = .ok (d.name, d.address) w := by
    refine RunM.bind_eq_ok.2 ⟨w.spaces, w, rfl, ?_⟩
    rw [htarget]
    dsimp only
    rw [if_pos howner]
    rfl
  rw [compile, hweight]
  show Compile.form ns (Compile.compileAt ns (head.weight + target.weight + 1 + 1)) [] _ w = _
  rw [Compile.form.eq_def]
  have hparts := Syntax.subforms_rebuildSexp form [head, target, .atom c (.int i)]
  simp only [Syntax.rebuildSexp] at hparts ⊢
  rw [hparts]
  refine RunM.bind_eq_ok.2 ⟨w.spaces, w, rfl, ?_⟩
  rw [hhead]
  refine RunM.bind_eq_ok.2 ⟨target, w, rfl, ?_⟩
  refine RunM.bind_eq_ok.2 ⟨_, w, haddress, ?_⟩
  refine RunM.bind_eq_ok.2 ⟨.atom c (.int i), w, rfl, ?_⟩
  refine RunM.bind_eq_ok.2 ⟨w.spaces, w, rfl, ?_⟩
  exact RunM.bind_eq_ok.2 ⟨.constant (.atom (.int i)), w, rfl, rfl⟩

/-- The code of a definition is run. -/
theorem eval_define (name : String) (address : Nat) (fuel : Nat) :
    eval (fuel + 2) (.define name address (.constant (.atom (.int i)))) ⟨ns, none⟩ w =
      .ok .void { w with spaces := w.spaces.setValue ns address (.atom (.int i)) } := rfl

end

/-! ## Whole forms -/

/-- In a session without a limit where `define` is the core form, the definition of another name
succeeds and defines the name. -/
theorem evalForm_of_define {form head target : Syntax} {c : Context} {i : Int64}
    (hlive : w.spaces.Live) (hspace : w.spaces[ns]? = some space) (hkind : space.kind = .topLevel)
    (hlimit : w.runtime.config.maxExpansionDepth = none)
    (hdefine : coreForm? w.spaces ((Syntax.ident "define").introduce ns) = some .define)
    (hparts : form.subforms = [head, target, .atom c (.int i)])
    (hhead : head.bareName? = some "define") (htarget : target.bareName? = some name)
    (hname : name ≠ "define") (fuel : Nat) :
    ∃ w', evalForm (fuel + 3) ns form w = .ok .void w' ∧
      w.spaces.Defines ns name (.atom (.int i)) w'.spaces := by
  have hparts' : (form.introduce ns).subforms =
      [head.introduce ns, target.introduce ns, (Syntax.atom c (.int i)).introduce ns] := by
    rw [Syntax.subforms_introduce, hparts]
    rfl
  have hstx := Syntax.names_introduce ns htarget
  have hstx' := Syntax.names_introduce ns hhead
  have hident := Syntax.names_introduce ns (show (Syntax.ident "define").bareName? = _ from rfl)
  have hidentifier : (target.introduce ns).isIdentifier = true := by
    rw [Syntax.isIdentifier, hstx.symbol]
    rfl
  obtain ⟨⟨target', spaces'⟩, hpredefine⟩ := Spaces.exists_predefine hspace hkind hstx.symbol
  obtain ⟨-, htargets⟩ := Spaces.target?_predefine hspace hstx hpredefine
  obtain ⟨-, d, hdenoted, howner, haddress⟩ := Spaces.logged_predefine hspace hpredefine
  have hdefine := headValue?_of_coreForm? hdefine
  rw [Spaces.headValue?_names hlive hident] at hdefine
  have hheadValue : headValue? w.spaces (head.introduce ns) = some (.form .define) := by
    rw [Spaces.headValue?_names hlive hstx', hdefine]
  -- The compiler asks again what the head is, when the name has its new address.
  have hlive' : spaces'.Live := hlive.called (.of_predefine hpredefine)
  have hcore : coreForm? spaces' (head.introduce ns) = some .define := by
    rw [coreForm?, Spaces.headValue?_names hlive' hstx', htargets "define" (Ne.symm hname)]
    simp only [Spaces.value?_predefine hpredefine, hdefine]
  have hrun : runForm (loaderAt (fuel + 3)) (fuel + 2) ns .topLevel (form.introduce ns) w =
      .ok .void { w with spaces := spaces'.setValue ns d.address (.atom (.int i)) } := by
    refine RunM.bind_eq_ok.2 ⟨_, _, expand_define hlimit hparts' hheadValue hidentifier hpredefine
      (loaderAt (fuel + 3)) fuel, ?_⟩
    refine RunM.bind_eq_ok.2 ⟨_, { w with spaces := spaces' }, compile_define hcore (hdenoted "")
      howner, ?_⟩
    exact eval_define d.name d.address fuel
  have hbegin : CoreForm.define ≠ .begin := by decide
  refine ⟨{ w with spaces := spaces'.setValue ns d.address (.atom (.int i)) }, ?_, ?_⟩
  · refine RunM.bind_eq_ok.2 ⟨_, w, partialExpand_core hparts' hheadValue hbegin (fuel + 1) 0, ?_⟩
    exact RunM.bind_eq_ok.2 ⟨.void, _, hrun, rfl⟩
  · have htaken : d.address = w.spaces.taken ns := by rw [haddress, Spaces.taken, hspace]; rfl
    rw [htaken]
    exact Spaces.defines_of_predefine hspace hstx hpredefine _

/-- A definition at top level binds its name, if it is not the name of the form itself: the form
succeeds, the session has one definition more, the name has the value, and every other name has the
value that it had. -/
theorem evalForm_define {actions : List Action} (hw : w = ({} : World).after actions)
    (hspace : w.spaces[ns]? = some space) (hkind : space.kind = .topLevel)
    (hlimit : w.runtime.config.maxExpansionDepth = none)
    (hdefine : coreForm? w.spaces ((Syntax.ident "define").introduce ns) = some .define)
    {form head target : Syntax} {c : Context} {i : Int64}
    (hparts : form.subforms = [head, target, .atom c (.int i)])
    (hhead : head.bareName? = some "define") (htarget : target.bareName? = some name)
    (hname : name ≠ "define") {fuel : Nat} (hfuel : 3 ≤ fuel) :
    ∃ w', evalForm fuel ns form w = .ok .void w' ∧
      w'.spaces.taken ns = w.spaces.taken ns + 1 ∧
      w'.spaces.lookupName ns name = .ok (.atom (.int i)) ∧
      ∀ other, other ≠ name → w'.spaces.lookupName ns other = w.spaces.lookupName ns other := by
  have hconsistent : w.Consistent := hw ▸ consistent_after actions
  have hallotted : w.Allotted := hw ▸ allotted_after actions
  have hlive : w.spaces.Live := hw ▸ live_after actions
  obtain ⟨fuel, rfl⟩ := Nat.exists_eq_add_of_le' hfuel
  obtain ⟨w', hrun, hdefines⟩ := evalForm_of_define hlive hspace hkind hlimit hdefine hparts hhead
    htarget hname fuel
  have hlive' := hdefines.live hlive
  refine ⟨w', hrun, hdefines.count, hdefines.lookupName hlive', fun other hother => ?_⟩
  exact hdefines.lookupName_of_ne hlive hlive' (fun _ _ hd => hallotted.named hconsistent hlive hd)
    hother

/-- A session of a runtime in which `x` stands for a value. -/
def definingWorld : World :=
  ({} : World).after [.start {}, .openSession, .define 1 "x" (.atom (.int 1))]

/-- The form `(define NAME INTEGER)`. -/
def defining (name : String) (i : Int64) : Syntax :=
  Syntax.sexp [.ident "define", .ident name, .atom {} (.int i)] none

/-- `x` is defined once more. -/
theorem evalForm_define_again :
    coreForm? definingWorld.spaces ((Syntax.ident "define").introduce 1) = some .define ∧
      ∃ w', evalForm 3 1 (defining "x" 5) definingWorld = .ok .void w' ∧
        w'.spaces.taken 1 = definingWorld.spaces.taken 1 + 1 ∧
        w'.spaces.lookupName 1 "x" = .ok (.atom (.int 5)) ∧
        w'.spaces.lookupName 1 "define" = definingWorld.spaces.lookupName 1 "define" := by
  obtain ⟨hkind, hlimit, hdefine⟩ : (definingWorld.spaces[1]?).map (·.kind) = some .topLevel ∧
      definingWorld.runtime.config.maxExpansionDepth = none ∧
      coreForm? definingWorld.spaces ((Syntax.ident "define").introduce 1) = some .define := by
    decide +kernel
  obtain ⟨space, hspace, hkind⟩ := Option.map_eq_some_iff.1 hkind
  have hparts : (defining "x" 5).subforms = [.ident "define", .ident "x", .atom {} (.int 5)] := rfl
  obtain ⟨w', hrun, hcount, hvalue, hothers⟩ := evalForm_define (w := definingWorld)
    rfl hspace hkind hlimit hdefine hparts rfl rfl (by decide) (Nat.le_refl 3)
  exact ⟨hdefine, w', hrun, hcount, hvalue, hothers "define" (by decide)⟩

end HygienicLisp
