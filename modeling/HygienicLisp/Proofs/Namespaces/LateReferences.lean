import HygienicLisp.Compile
import HygienicLisp.Eval
import HygienicLisp.Proofs.Namespaces.Capture
import HygienicLisp.Proofs.Namespaces.Freeing
import Mathlib.Data.List.TakeWhile

/-!
# References that are resolved when the program runs

A reference to a name without a binding is compiled to a look-up by name: the namespace is asked
for the cell of the plain name when the reference is evaluated.  This file compares it with the
reference that compiling the identifier afresh would give at that time.

Main statement: as long as the only cell that was filed for the identifier since then is the one
of the plain name, and the owner of what it denotes is there, both give the same value or fail in
the same way (`late_reference_eq_fresh`).  If the owner has been freed both fail, each in its own
way.

The condition is needed, since the look-up forgets the marks of the identifier.  A name that
comes from a transformer and is defined by the same use of it, but after the reference, has its
cell under its marks, and the look-up by name misses that cell.
-/

namespace HygienicLisp

/-- What is seen of the end of a run: its value, or the kind of its failure. -/
def outcome {α : Type} : EStateM.Result Halt World α → Except (Option ErrorKind) α
  | .ok a _ => .ok a
  | .error (.error e) _ => .error (some e.kind)
  | .error .outOfFuel _ => .error none

/-- The key of a name without marks and without an origin. -/
def plainKey (name : String) : Key := ⟨name, .free name, .empty⟩

namespace Spaces

variable {spaces before after : Spaces} {ns : NamespaceId} {name : String}

theorem substitute?_plain (spaces : Spaces) (ns : NamespaceId) (name : String) :
    spaces.substitute? ns name none .empty .empty = spaces.cell? ns (plainKey name) := by
  simp [substitute?, plainKey]

/-! ## Resolving afresh -/

/-- A name without a binding had none anywhere on its chain. -/
theorem resolveStep_eq_none {total : MarkSet} {wrap : Wrap} {found : Option Binding × MarkSet}
    (h : (spaces.resolveStep name none total wrap found).1 = none) :
    found.1 = none ∧ (wrap.queries name total found).findSome? spaces.answer? = none ∧
      (wrap.unaided name found).1 = none := by
  have hanswer := spaces.resolveStep_eq_answer name total wrap found
  rcases spaces.resolveStep_cases name none total wrap found with hkeep | ⟨_, _, _, _, hnew⟩ |
    ⟨_, _, _, _, _, _, hnew⟩
  · cases hq : (wrap.queries name total found).findSome? spaces.answer? with
    | some c => simp [hanswer, hq] at h
    | none =>
        rw [hq] at hanswer
        refine ⟨hkeep.symm.trans h, rfl, ?_⟩
        rw [hanswer] at h
        exact h
  · simp [hnew] at h
  · simp [hnew] at h

theorem unanswered_eq_self {queries : List Query} (h : queries.findSome? spaces.answer? = none) :
    spaces.unanswered queries = queries := by
  refine List.takeWhile_eq_self_iff.2 fun q hq => ?_
  rw [List.findSome?_eq_none_iff.1 h q hq]
  rfl

/-- If none of the questions asked in vain is answered later, the name still has no binding. -/
theorem inside_eq_none {total : MarkSet} {wraps : List Wrap}
    (hfree : before.inside name total wraps = none)
    (hmisses : ∀ q ∈ before.missesFrom name total wraps, after.answer? q = none) :
    after.inside name total wraps = none := by
  induction wraps with
  | nil => rfl
  | cons wrap older ih =>
      obtain ⟨hbelow, hqueries, hunaided⟩ := resolveStep_eq_none hfree
      have ih := ih hbelow fun q hq => hmisses q (List.mem_append_right _ hq)
      have hfound : older.foldr (after.resolveStep name none total) (none, .empty) =
          older.foldr (before.resolveStep name none total) (none, .empty) :=
        Prod.ext (ih.trans hbelow.symm) (by rw [foldr_resolveStep_marks, foldr_resolveStep_marks])
      rw [missesFrom, unanswered_eq_self hqueries] at hmisses
      have hlater := List.findSome?_eq_none_iff.2 fun q hq => hmisses q (List.mem_append_left _ hq)
      rw [inside, List.foldr_cons, hfound, resolveStep_eq_answer, hlater]
      exact hunaided

/-- If only one of the questions asked in vain is answered later, the name resolves to the answer
provided that the question was asked. -/
theorem inside_eq_answer {total : MarkSet} {wraps : List Wrap} {q : Query} {c : CellRef}
    (hfree : before.inside name total wraps = none) (hc : after.answer? q = some c)
    (honly : ∀ q' ∈ before.missesFrom name total wraps, (after.answer? q').isSome → q' = q)
    (hover : ∀ part ∈ wraps.tails, after.Leaves name total (some (.cell c)) part) :
    after.inside name total wraps =
      if q ∈ before.missesFrom name total wraps then some (.cell c) else none := by
  induction wraps with
  | nil => rfl
  | cons wrap older ih =>
      obtain ⟨hbelow, hqueries, hunaided⟩ := resolveStep_eq_none hfree
      have ih := ih hbelow (fun q' hq' => honly q' (List.mem_append_right _ hq'))
        fun part hpart => hover part (by
          rw [List.mem_tails] at hpart ⊢
          exact hpart.trans (List.suffix_cons wrap older))
      rw [inside, List.foldr_cons]
      by_cases hasked : q ∈ before.missesFrom name total older
      · -- The answer was found below, and nothing is bound over it.
        rw [if_pos hasked] at ih
        have hfound : older.foldr (after.resolveStep name none total) (none, .empty) =
            (some (.cell c), wrapMarks older) := Prod.ext ih (foldr_resolveStep_marks _ _ _ _ _)
        rw [missesFrom, hfound, if_pos (List.mem_append_right _ hasked)]
        exact hover (wrap :: older) ((List.mem_tails _ _).2 List.suffix_rfl)
      · rw [if_neg hasked] at ih
        have hfound : older.foldr (after.resolveStep name none total) (none, .empty) =
            older.foldr (before.resolveStep name none total) (none, .empty) :=
          Prod.ext (ih.trans hbelow.symm) (by rw [foldr_resolveStep_marks, foldr_resolveStep_marks])
        rw [hfound, resolveStep_eq_answer]
        rw [missesFrom, unanswered_eq_self hqueries] at honly ⊢
        cases hlater : (wrap.queries name total (older.foldr (before.resolveStep name none total)
            (none, .empty))).findSome? after.answer? with
        | none =>
            rw [if_neg]
            · exact hunaided
            · intro hmem
              rcases List.mem_append.1 hmem with hmem | hmem
              · rw [List.findSome?_eq_none_iff.1 hlater q hmem] at hc
                cases hc
              · exact hasked hmem
        | some c' =>
            obtain ⟨q', hq', hanswer⟩ := List.exists_of_findSome?_eq_some hlater
            obtain rfl := honly q' (List.mem_append_left _ hq') (by rw [hanswer]; rfl)
            rw [hc] at hanswer
            rw [if_pos (List.mem_append_left _ hq'), Option.some.inj hanswer]

/-! ## Imports -/

theorem valueAt_addImport (spaces : Spaces) (ns : NamespaceId) (target : Definition)
    (owner : NamespaceId) (address : Nat) (name : String) :
    (spaces.addImport ns target).valueAt owner address name =
      spaces.valueAt owner address name := by
  rw [valueAt, valueAt, addImport, Array.getElem?_modify]
  by_cases hsame : ns = owner
  · rw [if_pos hsame]
    cases spaces[owner]? <;> rfl
  · rw [if_neg hsame]

/-- Whether a namespace has a short name for the module of a definition. -/
def refersTo (spaces : Spaces) (ns : NamespaceId) (d : Definition) : Bool :=
  ((spaces[ns]?).bind fun space => space.importId? d.home).isSome

/-- The short name of the owner of a definition, if there is one, stands for that owner. -/
def ShortNameFits (spaces : Spaces) (ns : NamespaceId) (d : Definition) : Prop :=
  ∀ space, spaces[ns]? = some space → ∀ id, space.importId? d.home = some id →
    (space.imports[id]?).map (·.2) = some d.owner

/-- There is a short name for the owner of a definition that is there or referred to already. -/
theorem exists_importId {space : Namespace} (hspace : spaces[ns]? = some space) {d : Definition}
    (hd : spaces.isFreed d.owner = false ∨ spaces.refersTo ns d = true) :
    ∃ id spaces', spaces.importId ns d = .ok (id, spaces') := by
  cases h : spaces.importId ns d with
  | ok result => exact ⟨result.1, result.2, rfl⟩
  | error e =>
      obtain ⟨hnone, -⟩ | ⟨space', hspace', hid, hfreed, -⟩ := importId_eq_error.1 h
      · cases hnone.symm.trans hspace
      · rw [refersTo, hspace', Option.bind_some, hid, hfreed] at hd
        simp at hd

/-- There is none for one that has been freed before the first reference. -/
theorem importId_of_freed {space : Namespace} (hspace : spaces[ns]? = some space) {d : Definition}
    (hfreed : spaces.isFreed d.owner = true) (hrefers : spaces.refersTo ns d = false) :
    spaces.importId ns d = .error (.of (.contract (.moduleFreed d.home))) := by
  rw [refersTo, hspace, Option.bind_some, Option.isSome_eq_false_iff, Option.isNone_iff_eq_none]
    at hrefers
  exact importId_eq_error.2 (.inr ⟨space, hspace, hrefers, hfreed, rfl⟩)

/-- A look-up through the short name of the owner finds what is at the address. -/
theorem lookupImport_importId {spaces' : Spaces} {space : Namespace} {d : Definition} {id : Nat}
    (hspace : spaces[ns]? = some space) (hfits : spaces.ShortNameFits ns d)
    (h : spaces.importId ns d = .ok (id, spaces')) :
    spaces'.lookupImport ns id d.address name = spaces.valueAt d.owner d.address name := by
  obtain ⟨_, hsame, ⟨hid, rfl⟩ | ⟨-, -, rfl, rfl⟩⟩ := importId_eq_ok.1 h
  · cases hspace.symm.trans hsame
    obtain ⟨⟨home, owner⟩, himport, rfl⟩ := Option.map_eq_some_iff.1 (hfits space hspace id hid)
    simp only [lookupImport, hspace, himport]
  · cases hspace.symm.trans hsame
    have hadded : (spaces.addImport ns d)[ns]? = some (space.addImport d) := by
      rw [addImport, Array.getElem?_modify, if_pos rfl, hspace]
      rfl
    have himport : (space.addImport d).imports[space.imports.size]? = some (d.home, d.owner) :=
      Array.getElem?_push_size
    simp only [lookupImport, hadded, himport]
    exact valueAt_addImport spaces ns d d.owner d.address name

end Spaces

/-! ## Evaluating references -/

/-- What is seen of a look-up. -/
def seen {α : Type} (r : Except Error α) : Except (Option ErrorKind) α :=
  r.mapError fun e => some e.kind

theorem kind_atOrigin (origin : Syntax) (e : Error) : (atOrigin origin e).kind = e.kind := by
  rw [atOrigin]
  split
  · rename_i hfault
    simp [Error.kind, Error.atForm, hfault]
  · rfl

theorem outcome_freeRef (fuel : Nat) (name : String) (origin : Syntax) (env : Env) (w : World) :
    outcome (eval (fuel + 1) (.freeRef name origin) env w) =
      seen (w.spaces.lookupName env.space name) := by
  simp only [eval, step, RunM.bind_apply, RunM.getSpaces_apply, RunM.mapError]
  cases w.spaces.lookupName env.space name with
  | ok v => rfl
  | error e =>
      simp only [RunM.ofExcept_error, RunM.fail_apply, outcome, kind_atOrigin]
      rfl

theorem outcome_topRef (fuel address : Nat) (name : String) (env : Env) (w : World) :
    outcome (eval (fuel + 1) (.topRef address name) env w) =
      seen (w.spaces.valueAt env.space address name) := by
  simp only [eval, step, RunM.bind_apply, RunM.getSpaces_apply]
  cases w.spaces.valueAt env.space address name <;> rfl

theorem outcome_importRef (fuel id address : Nat) (name : String) (env : Env) (w : World) :
    outcome (eval (fuel + 1) (.importRef id address name) env w) =
      seen (w.spaces.lookupImport env.space id address name) := by
  simp only [eval, step, RunM.bind_apply, RunM.getSpaces_apply]
  cases w.spaces.lookupImport env.space id address name <;> rfl

/-- The reference to a definition gives what is at its address, if its owner is there. -/
theorem outcome_definitionRef {w : World} {env : Env} {space : Namespace} {d : Definition}
    (hspace : w.spaces[env.space]? = some space) (hfits : w.spaces.ShortNameFits env.space d)
    (hlive : w.spaces.isFreed d.owner = false) (fuel : Nat) (name : String) :
    outcome ((Compile.definitionRef env.space d name >>= fun code => eval (fuel + 1) code env) w) =
      seen (w.spaces.valueAt d.owner d.address name) := by
  rw [Compile.definitionRef]
  split
  · rename_i howner
    rw [howner]
    exact outcome_topRef fuel d.address name env w
  · obtain ⟨id, spaces', himport⟩ := Spaces.exists_importId hspace (.inl hlive)
    rw [RunM.bind_apply, RunM.bind_apply, importId_apply, himport]
    exact (outcome_importRef fuel id d.address name env { w with spaces := spaces' }).trans
      (congrArg seen (Spaces.lookupImport_importId hspace hfits himport))

/-- The reference to a definition of a module that is gone is not compiled. -/
theorem outcome_definitionRef_of_freed {w : World} {env : Env} {space : Namespace} {d : Definition}
    (hspace : w.spaces[env.space]? = some space) (hforeign : d.owner ≠ env.space)
    (hfreed : w.spaces.isFreed d.owner = true) (hrefers : w.spaces.refersTo env.space d = false)
    (fuel : Nat) (name : String) :
    outcome ((Compile.definitionRef env.space d name >>= fun code => eval (fuel + 1) code env) w) =
      .error (some .contract) := by
  rw [Compile.definitionRef, if_neg hforeign, RunM.bind_apply, RunM.bind_apply, importId_apply,
    Spaces.importId_of_freed hspace hfreed hrefers]
  rfl

/-! ## Late and fresh references -/

/-- Resolution gives a variable or a cell that is there, so what denotes nothing has no binding. -/
theorem Spaces.inside_eq_none_of_denote {spaces : Spaces} {name late : String} {total : MarkSet}
    {wraps : List Wrap}
    (h : spaces.denote ((spaces.inside name total wraps).getD (.free name)) = .free late) :
    late = name ∧ spaces.inside name total wraps = none := by
  induction wraps with
  | nil =>
      cases h
      exact ⟨rfl, rfl⟩
  | cons wrap older ih =>
      rw [inside, List.foldr_cons] at h ⊢
      rcases spaces.resolveStep_cases name none total wrap
          (older.foldr (spaces.resolveStep name none total) (none, .empty)) with
        hkeep | ⟨_, v, _, _, hnew⟩ | ⟨_, _, c, _, _, hc, hnew⟩
      · rw [hkeep] at h ⊢
        exact ih h
      · rw [hnew] at h
        cases h
      · obtain ⟨content, hcontent⟩ := Option.isSome_iff_exists.1 (content?_isSome_of_cell? hc)
        rw [hnew, Option.getD_some, denote, hcontent] at h
        cases content <;> cases h

theorem Spaces.resolve_eq_inside {spaces : Spaces} {stx : Syntax} {name : String}
    (hname : stx.symbol? = some name) (hplain : stx.context.binding = none) :
    spaces.resolve stx = spaces.inside name (wrapMarks stx.wraps) stx.wraps := by
  rw [resolve_of_binding_eq_none hplain, resolveWithMarks, hname]
  rfl

namespace Compile

variable {ns : NamespaceId} {scopes : Scopes} {stx : Syntax} {name : String} {w : World}

theorem reference_apply :
    reference ns scopes stx name w =
      (match w.spaces.denoted stx name with
      | .free name =>
        match w.spaces[ns]? with
        | some space =>
          if space.allowsFree then return .freeRef name stx
          else RunM.fail (.atForm (.unbound name) stx)
        | none => RunM.fail (.atForm (.unbound name) stx)
      | .lexical v => do return .localRef (← depthOf scopes v.rib stx) v.slot name
      | .defined d => definitionRef ns d name
      | .required i => definitionRef ns i.provided.target name : RunM Code) w := rfl

theorem reference_eq_freeRef {space : Namespace} (hspace : w.spaces[ns]? = some space)
    (hfree : space.allowsFree = true) (hresolve : w.spaces.resolve stx = none) :
    reference ns scopes stx name w = .ok (.freeRef name stx) w := by
  rw [reference_apply, Spaces.denoted, hresolve]
  simp only [Option.getD_none, Spaces.denote, hspace, hfree, if_true]
  rfl

theorem definitionRef_ne_freeRef {d : Definition} {late : String} {origin : Syntax} {w₁ : World} :
    definitionRef ns d name w ≠ .ok (.freeRef late origin) w₁ := by
  intro h
  rw [definitionRef] at h
  split at h
  · cases h
  · obtain ⟨id, w', -, h⟩ := RunM.bind_eq_ok.1 h
    cases h

/-- An identifier that compiles to a look-up by name denotes nothing, and its namespace is that of
a session. -/
theorem denoted_of_reference_eq_freeRef {origin : Syntax} {late : String} {w₁ : World}
    (h : reference ns scopes stx name w = .ok (.freeRef late origin) w₁) :
    w.spaces.denoted stx name = .free late ∧
      ∃ space, w.spaces[ns]? = some space ∧ space.allowsFree = true := by
  rw [reference_apply] at h
  cases hdenoted : w.spaces.denoted stx name with
  | free x =>
      simp only [hdenoted] at h
      cases hspace : w.spaces[ns]? with
      | none =>
          simp only [hspace] at h
          cases h
      | some space =>
          simp only [hspace] at h
          split at h
          · rename_i hfree
            cases h
            exact ⟨rfl, space, rfl, hfree⟩
          · cases h
  -- What is bound compiles to a reference of another kind, so only `free` is left.
  | lexical v =>
      simp only [hdenoted] at h
      obtain ⟨depth, w', -, h⟩ := RunM.bind_eq_ok.1 h
      cases h
  | defined d =>
      simp only [hdenoted] at h
      exact absurd h definitionRef_ne_freeRef
  | required i =>
      simp only [hdenoted] at h
      exact absurd h definitionRef_ne_freeRef

end Compile

/-- Afresh, the name still has no binding or resolves to the cell of the plain name. -/
theorem Spaces.inside_eq_none_or_cell {before after : Spaces} {ns : NamespaceId} {name : String}
    {wraps : List Wrap}
    (hnone : before.inside name (wrapMarks wraps) wraps = none)
    (honly : ∀ q ∈ before.misses name wraps, (after.answer? q).isSome → q = (ns, plainKey name))
    (hover : ∀ c ∈ after.cell? ns (plainKey name), ∀ part ∈ wraps.tails,
      after.Leaves name (wrapMarks wraps) (some (.cell c)) part) :
    after.inside name (wrapMarks wraps) wraps = none ∨
      ∃ c, after.cell? ns (plainKey name) = some c ∧
        after.inside name (wrapMarks wraps) wraps = some (.cell c) := by
  cases hc : after.cell? ns (plainKey name) with
  | none =>
      refine .inl (inside_eq_none hnone fun q hq => ?_)
      by_contra hsome
      obtain rfl := honly q hq (Option.isSome_iff_ne_none.2 hsome)
      exact hsome hc
  | some c =>
      have hanswer : after.answer? (ns, plainKey name) = some c := hc
      rw [inside_eq_answer hnone hanswer honly (hover c hc)]
      split
      · exact .inr ⟨c, rfl, rfl⟩
      · exact .inl rfl

/-- A look-up by name fails if the owner of the definition has been freed. -/
theorem Spaces.lookupName_eq {spaces : Spaces} {ns : NamespaceId} {name : String} {c : CellRef}
    {d : Definition} (hc : spaces.cell? ns (plainKey name) = some c)
    (hd : (spaces.denote (.cell c)).target? = some d) :
    spaces.lookupName ns name =
      if spaces.isFreed d.owner then .error (.of (.eval (.ownerFreed name)))
      else spaces.valueAt d.owner d.address name := by
  rw [lookupName, resolveName, substitute?_plain, hc, Option.map_some, Option.bind_some, hd]

/-- A fresh reference to a name without a binding is looked up by name. -/
theorem outcome_reference_of_none {w : World} {env : Env} {scopes : Scopes} {stx : Syntax}
    {name : String} {space : Namespace} (hspace : w.spaces[env.space]? = some space)
    (hfree : space.allowsFree = true) (hresolve : w.spaces.resolve stx = none) (fuel : Nat) :
    outcome ((Compile.reference env.space scopes stx name >>= fun code =>
      eval (fuel + 1) code env) w) = seen (w.spaces.lookupName env.space name) := by
  rw [RunM.bind_apply, Compile.reference_eq_freeRef hspace hfree hresolve]
  exact outcome_freeRef fuel name stx env w

/-- A reference to a name that denotes a definition is one to the definition. -/
theorem Compile.reference_of_target {w : World} {ns : NamespaceId} {scopes : Scopes} {stx : Syntax}
    {name : String} {d : Definition} (hd : (w.spaces.denoted stx name).target? = some d) :
    Compile.reference ns scopes stx name w = Compile.definitionRef ns d name w := by
  rw [Compile.reference_apply]
  cases hdenoted : w.spaces.denoted stx name with
  | free x => simp [hdenoted, Denotation.target?] at hd
  | lexical v => simp [hdenoted, Denotation.target?] at hd
  | defined d' =>
      rw [hdenoted] at hd
      cases hd
      rfl
  | required i =>
      rw [hdenoted] at hd
      cases hd
      rfl

/-- A cell that is found leads to a definition. -/
theorem Spaces.exists_target_of_cell? {spaces : Spaces} {ns : NamespaceId} {key : Key} {c : CellRef}
    (hc : spaces.cell? ns key = some c) : ∃ d, (spaces.denote (.cell c)).target? = some d := by
  obtain ⟨content, hcontent⟩ := Option.isSome_iff_exists.1 (content?_isSome_of_cell? hc)
  refine ⟨content.target, ?_⟩
  rw [denote, hcontent]
  cases content <;> rfl

/-- A reference that was left to run time is compared with what compiling its identifier afresh
gives, whatever was done and freed since.  Of the cells that the identifier lacked only that of the
plain name may have been filed, nothing may have been bound over that cell, and short names must
stand for the namespaces they were taken for.

* If the identifier denotes nothing, or a definition whose owner is there, both give the same value
  or fail in the same way.
* If it denotes a definition whose owner has been freed, the late one fails when it is evaluated, and
  the fresh one when it is compiled, unless the namespace refers to the module of the definition
  already: what it refers to it holds on to. -/
theorem late_reference_eq_fresh {w w₁ : World} {history : List (Occurrence Operation)} {env : Env}
    {scopes : Scopes} {stx origin : Syntax} {name late : String} (hname : stx.symbol? = some name)
    (hplain : stx.context.binding = none)
    (hlate : Compile.reference env.space scopes stx name w = .ok (.freeRef late origin) w₁)
    (honly : ∀ q ∈ w.spaces.missesOf stx, ((w.afterOperations history).spaces.answer? q).isSome →
      q = (env.space, plainKey name))
    (hover : ∀ c ∈ (w.afterOperations history).spaces.cell? env.space (plainKey name),
      ∀ part ∈ stx.wraps.tails, (w.afterOperations history).spaces.Leaves name (wrapMarks stx.wraps)
        (some (.cell c)) part)
    (hfits : ∀ c ∈ (w.afterOperations history).spaces.cell? env.space (plainKey name),
      ∀ d ∈ ((w.afterOperations history).spaces.denote (.cell c)).target?,
        (w.afterOperations history).spaces.ShortNameFits env.space d)
    (fuel : Nat) :
    let later := w.afterOperations history
    let lateOutcome := outcome (eval (fuel + 1) (.freeRef late origin) env later)
    let freshOutcome := outcome ((Compile.reference env.space scopes stx name >>= fun code =>
      eval (fuel + 1) code env) later)
    ((∀ d ∈ (later.spaces.denoted stx name).target?, later.spaces.isFreed d.owner = false) →
      lateOutcome = freshOutcome) ∧
    ∀ d ∈ (later.spaces.denoted stx name).target?, later.spaces.isFreed d.owner = true →
      lateOutcome = .error (some .eval) ∧
        (later.spaces.refersTo env.space d = false → freshOutcome = .error (some .contract)) := by
  intro later lateOutcome freshOutcome
  obtain ⟨hdenoted, space, hspace, hfree⟩ := Compile.denoted_of_reference_eq_freeRef hlate
  rw [Spaces.denoted, Spaces.resolve_eq_inside hname hplain] at hdenoted
  obtain ⟨rfl, hnone⟩ := Spaces.inside_eq_none_of_denote hdenoted
  obtain ⟨space', hspace', hkind⟩ := World.kind_afterOperations hspace history
  have hfree' : space'.allowsFree = true := by
    rw [Namespace.allowsFree, hkind]
    exact hfree
  have hmisses : w.spaces.missesOf stx = w.spaces.misses late stx.wraps := by
    rw [Spaces.missesOf, hname]
  rw [hmisses] at honly
  have hlateOutcome : lateOutcome = seen (later.spaces.lookupName env.space late) :=
    outcome_freeRef fuel late origin env later
  have hfresh := Spaces.inside_eq_none_or_cell hnone honly hover
  rw [← Spaces.resolve_eq_inside hname hplain] at hfresh
  rcases hfresh with hresolve | ⟨c, hc, hresolve⟩
  · have htarget : (later.spaces.denoted stx late).target? = none := by
      rw [Spaces.denoted, hresolve]
      rfl
    refine ⟨fun _ => ?_, fun d hd => ?_⟩
    · exact hlateOutcome.trans (outcome_reference_of_none hspace' hfree' hresolve fuel).symm
    · cases htarget.symm.trans hd
  · obtain ⟨d, hd⟩ := Spaces.exists_target_of_cell? hc
    have htarget : (later.spaces.denoted stx late).target? = some d := by
      rw [Spaces.denoted, hresolve]
      exact hd
    have hcode : freshOutcome = outcome ((Compile.definitionRef env.space d late >>= fun code =>
        eval (fuel + 1) code env) later) := by
      simp only [freshOutcome, RunM.bind_apply, Compile.reference_of_target htarget]
    rw [hlateOutcome, hcode, Spaces.lookupName_eq hc hd]
    refine ⟨fun hlive => ?_, fun d' hd' hfreed => ?_⟩
    · have hlive := hlive d htarget
      rw [outcome_definitionRef hspace' (hfits c hc d hd) hlive,
        if_neg ((Bool.not_eq_true _).mpr hlive)]
    · cases htarget.symm.trans hd'
      -- The cell was found in the namespace, so that one has not been freed.
      have hforeign : d.owner ≠ env.space := by
        intro howner
        obtain ⟨-, space, hspace, hlive, -⟩ := Spaces.cell?_eq_some_iff.1 hc
        rw [howner, Spaces.isFreed, hspace] at hfreed
        cases hlive.symm.trans hfreed
      refine ⟨?_, fun hrefers =>
        outcome_definitionRef_of_freed hspace' hforeign hfreed hrefers fuel late⟩
      rw [if_pos hfreed]
      rfl

/-- The name `x` in what a use of a transformer of the session gives. -/
def templateName : Syntax := sessionName.addWrap (.mark 1)

theorem reference_templateName :
    Compile.reference 0 [] templateName "x" newSession =
      .ok (.freeRef "x" templateName) newSession := by
  have hkind : (newSession.spaces[0]?).map (·.allowsFree) = some true := by decide +kernel
  obtain ⟨space, hspace, hfree⟩ := Option.map_eq_some_iff.1 hkind
  exact Compile.reference_eq_freeRef hspace hfree (by decide +kernel)

/-- The session defines `x`. -/
def definedLater : List (Occurrence Operation) := [.act (.defineValue 0 "x" .void)]

/-- The session imports `x` from a module, which is freed then. -/
def importedAndFreed : List (Occurrence Operation) :=
  [.act (.create ⟨"/library"⟩ .module), .act (.defineValue 1 "x" .void),
    .act (.require 0 sessionName ⟨"x", ⟨"x", 0, 1, ⟨"/library"⟩⟩⟩ false), .free 1]

theorem shortNameFits_of_imports {spaces : Spaces} {ns : NamespaceId}
    (h : (spaces[ns]?).map (·.imports) = some #[]) (d : Definition) : spaces.ShortNameFits ns d := by
  intro space hspace id hid
  rw [hspace, Option.map_some] at h
  rw [Namespace.importId?, Option.some.inj h, Array.findIdx?_empty] at hid
  cases hid

/-- A template that refers to `x` before `x` is defined refers to the definition.  If `x` is that of
a module that has been freed, the two references fail in two ways. -/
theorem templateName_defined_later :
    outcome (eval 1 (.freeRef "x" templateName) ⟨0, none⟩
        (newSession.afterOperations definedLater)) =
      outcome ((Compile.reference 0 [] templateName "x" >>= fun code => eval 1 code ⟨0, none⟩)
        (newSession.afterOperations definedLater)) ∧
    outcome (eval 1 (.freeRef "x" templateName) ⟨0, none⟩
        (newSession.afterOperations importedAndFreed)) = .error (some .eval) ∧
      outcome ((Compile.reference 0 [] templateName "x" >>= fun code => eval 1 code ⟨0, none⟩)
        (newSession.afterOperations importedAndFreed)) = .error (some .contract) := by
  constructor
  · refine (late_reference_eq_fresh rfl rfl reference_templateName (by decide +kernel)
      (by decide +kernel) (fun _ _ d _ => ?_) 0).1 (by decide +kernel)
    exact shortNameFits_of_imports (by decide +kernel) d
  · have hfits (d : Definition) :
        (newSession.afterOperations importedAndFreed).spaces.ShortNameFits 0 d :=
      shortNameFits_of_imports (by decide +kernel) d
    obtain ⟨-, hfreed⟩ := @late_reference_eq_fresh newSession newSession importedAndFreed ⟨0, none⟩
      [] templateName templateName "x" "x" rfl rfl reference_templateName (by decide +kernel)
      (by decide +kernel) (fun _ _ d _ => hfits d) 0
    obtain ⟨hlate, hfresh⟩ := hfreed ⟨"x", 0, 1, ⟨"/library"⟩⟩ (by decide +kernel)
      (by decide +kernel)
    exact ⟨hlate, hfresh (by decide +kernel)⟩

end HygienicLisp
