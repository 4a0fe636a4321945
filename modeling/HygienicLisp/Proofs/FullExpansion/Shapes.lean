import HygienicLisp.Proofs.FullExpansion.Watched
import HygienicLisp.Proofs.Soundness.Expand

/-!
# What the steps of expansion do

Each lemma says of one function of expansion exactly when it has a result and what the result is.
Taken from left to right they take a run apart, taken from right to left they put one together.
-/

namespace HygienicLisp

open Expansion

variable {w w' : World}

/-! ## Checks -/

theorem expectBody_eq_ok {form : Syntax} {parts : List Syntax} {first : Nat} :
    expectBody form parts first w = .ok () w' ↔ first < parts.length ∧ w = w' := by
  rw [expectBody]
  split
  · simp [*]
  · simp [*]

theorem expectCount_eq_ok {form : Syntax} {parts : List Syntax} {count : Nat} {expected : Operands} :
    expectCount form parts count expected w = .ok () w' ↔ parts.length = count ∧ w = w' := by
  rw [expectCount]
  split
  · simp [*]
  · simp [*]

theorem expectDefinitions_eq_ok {form : Syntax} {context : ExpandContext} {what : String} :
    expectDefinitions form context what w = .ok () w' ↔ context.allowsDefinitions ∧ w = w' := by
  rw [expectDefinitions]
  split
  · simp [*]
  · simp [*]

theorem descend_eq_ok {depth deeper : Nat} {form : Syntax} (h : descend depth form w = .ok deeper w') :
    deeper = depth + 1 ∧ w = w' := by
  rw [descend, RunM.bind_apply, RunM.get_apply] at h
  cases hlimit : w.runtime.config.maxExpansionDepth with
  | none =>
      simp only [hlimit] at h
      cases h
      exact ⟨rfl, rfl⟩
  | some limit =>
      simp only [hlimit] at h
      by_cases hlt : limit < depth + 1
      · rw [if_pos hlt] at h
        cases h
      · rw [if_neg hlt] at h
        cases h
        exact ⟨rfl, rfl⟩

/-- Without a limit one can always go deeper. -/
theorem descend_of_unlimited (h : w.runtime.config.maxExpansionDepth = none) (depth : Nat)
    (form : Syntax) : descend depth form w = .ok (depth + 1) w := by
  rw [descend, RunM.bind_apply, RunM.get_apply]
  dsimp only
  rw [h]
  rfl

theorem kernelIdentifier_eq_ok {name : String} {site stx : Syntax}
    (h : kernelIdentifier name site w = .ok stx w') : w = w' := by
  cases h
  rfl

/-! ## Parts -/

theorem Syntax.isIdentifier_eq_false_of_subforms? {stx : Syntax} {parts : List Syntax}
    (h : stx.subforms? = some parts) : stx.isIdentifier = false := by
  cases stx with
  | atom => cases h
  | group => rfl
  | record => cases h

theorem Syntax.isSexp_of_subforms? {stx : Syntax} {parts : List Syntax}
    (h : stx.subforms? = some parts) : stx.isSexp := by
  match stx, h with
  | .group _ .sexp _, _ => rfl

theorem Syntax.subforms_of_subforms? {stx : Syntax} {parts : List Syntax}
    (h : stx.subforms? = some parts) : stx.subforms = parts := by
  rw [subforms, h, Option.getD_some]

theorem Syntax.subforms?_rebuildSexp (form : Syntax) (items : List Syntax) :
    (form.rebuildSexp items).subforms? = some items :=
  congrArg some (map_addWraps_nil items)

/-! ## Clauses and formals -/

/-- The form is a sexp of clauses with the given parts. -/
def IsClauses (clauses : Syntax) (pairs : List (Syntax × Syntax)) : Prop :=
  ∃ items, clauses.subforms? = some items ∧
    items.map Syntax.subforms = pairs.map fun pair => [pair.1, pair.2]

theorem parseClauses_eq_ok {items : List Syntax} {pairs : List (Syntax × Syntax)} :
    parseClauses items w = .ok pairs w' ↔
      items.map Syntax.subforms = pairs.map (fun pair => [pair.1, pair.2]) ∧
        (∀ pair ∈ pairs, pair.1.isIdentifier) ∧ w = w' := by
  induction items generalizing pairs w' with
  | nil => cases pairs <;> simp [parseClauses]
  | cons clause rest ih =>
      -- Only a clause of two forms is a clause, and only if the first is an identifier.
      rcases hclause : clause.subforms with _ | ⟨id, _ | ⟨init, _ | ⟨other, others⟩⟩⟩
      · cases pairs <;> simp [parseClauses, hclause]
      · cases pairs <;> simp [parseClauses, hclause]
      · cases hid : id.isIdentifier with
        | false =>
            simp only [parseClauses, hclause, hid, Bool.false_eq_true, if_false,
              RunM.failAt_apply, reduceCtorEq, false_iff]
            rintro ⟨hsame, hids, -⟩
            cases pairs with
            | nil => simp at hsame
            | cons pair others =>
                obtain ⟨⟨rfl, rfl⟩, -⟩ := by simpa [hclause] using hsame
                simp [hid] at hids
        | true =>
            simp only [parseClauses, hclause, hid, if_true, RunM.bind_eq_ok, ih]
            constructor
            · rintro ⟨others, w₁, ⟨hothers, hids, rfl⟩, hpairs⟩
              cases hpairs
              simpa [hclause, hothers, hid] using hids
            · rintro ⟨hsame, hids, rfl⟩
              cases pairs with
              | nil => simp at hsame
              | cons pair others =>
                  obtain ⟨⟨rfl, rfl⟩, hothers⟩ := by simpa [hclause] using hsame
                  refine ⟨others, w, ⟨hothers, ?_, rfl⟩, rfl⟩
                  exact fun pair hpair => hids pair (List.mem_cons_of_mem _ hpair)
      · cases pairs <;> simp [parseClauses, hclause]

theorem bindingClauses_eq_ok {clauses : Syntax} {pairs : List (Syntax × Syntax)} :
    bindingClauses clauses w = .ok pairs w' ↔
      IsClauses clauses pairs ∧ (∀ pair ∈ pairs, pair.1.isIdentifier) ∧ w = w' := by
  cases hitems : clauses.subforms? with
  | none => simp [bindingClauses, IsClauses, hitems]
  | some items => simp [bindingClauses, IsClauses, hitems, parseClauses_eq_ok]

theorem isClauses_rebuildClauses (site : Syntax) (ids inits : List Syntax) :
    IsClauses (rebuildClauses site ids inits) (ids.zip inits) := by
  refine ⟨_, congrArg some (Syntax.map_addWraps_nil _), ?_⟩
  rw [List.map_map]
  refine List.map_congr_left fun pair _ => ?_
  exact Syntax.subforms_sexp _ _

/-- The binders that a `lambda` takes from its formals. -/
def IsFormals (formals : Syntax) (binders : List Syntax) : Prop :=
  (if formals.isIdentifier then some [formals] else formals.subforms?) = some binders

/-! ## Ribs -/

/-- The key under which a binding form binds a binder. -/
def Spaces.binderKey (spaces : Spaces) (binder : Syntax) : Key :=
  spaces.bindingKey binder (binder.symbol?.getD "")

theorem Rib.extend_eq_ok {spaces : Spaces} {binders : List Syntax} {keys keys' : List Key}
    (hkeys : keys.Nodup) :
    Rib.extend spaces keys binders = .ok keys' ↔ (∀ binder ∈ binders, binder.isIdentifier) ∧
      keys' = keys ++ binders.map spaces.binderKey ∧ keys'.Nodup := by
  induction binders generalizing keys with
  | nil =>
      simp only [Rib.extend, List.map_nil, List.append_nil, Except.ok.injEq, List.not_mem_nil,
        false_imp_iff, implies_true, true_and]
      exact ⟨fun h => ⟨h.symm, h ▸ hkeys⟩, fun h => h.1.symm⟩
  | cons binder rest ih =>
      rw [Rib.extend]
      cases hname : binder.symbol? with
      | none => simp [Syntax.isIdentifier, hname]
      | some name =>
          have hkey : spaces.bindingKey binder name = spaces.binderKey binder := by
            rw [Spaces.binderKey, hname, Option.getD_some]
          have hid : binder.isIdentifier := by rw [Syntax.isIdentifier, hname]; rfl
          dsimp only
          rw [hkey]
          -- A binder whose key is there already is refused, and then the keys would repeat.
          by_cases hmem : spaces.binderKey binder ∈ keys
          · rw [if_pos (List.contains_iff_mem.2 hmem)]
            simp only [reduceCtorEq, false_iff]
            rintro ⟨-, rfl, hnodup⟩
            exact (List.nodup_append.1 hnodup).2.2 _ hmem _ (by simp) rfl
          · rw [if_neg (by simpa using hmem)]
            have hadded : (keys ++ [spaces.binderKey binder]).Nodup := by
              refine List.nodup_append.2 ⟨hkeys, List.pairwise_singleton _ _, ?_⟩
              rintro key hkey _ hother rfl
              exact hmem (List.mem_singleton.1 hother ▸ hkey)
            rw [ih hadded]
            simp [hid]

/-- A rib is made exactly if its binders are identifiers with keys of their own. -/
theorem Rib.ofBinders_eq_ok_iff {spaces : Spaces} {id : RibId} {binders : List Syntax} {rib : Rib} :
    Rib.ofBinders spaces id binders = .ok rib ↔ (∀ binder ∈ binders, binder.isIdentifier) ∧
      rib = ⟨id, binders.map spaces.binderKey⟩ ∧ (binders.map spaces.binderKey).Nodup := by
  have hextend {keys : List Key} := @Rib.extend_eq_ok spaces binders [] keys List.nodup_nil
  simp only [List.nil_append] at hextend
  rw [Rib.ofBinders]
  cases hkeys : Rib.extend spaces [] binders with
  | error e =>
      simp only [Except.map, reduceCtorEq, false_iff]
      rintro ⟨hids, -, hnodup⟩
      cases hkeys.symm.trans (hextend.2 ⟨hids, rfl, hnodup⟩)
  | ok keys =>
      obtain ⟨hids, rfl, hnodup⟩ := hextend.1 hkeys
      simp only [Except.map, Except.ok.injEq]
      exact ⟨fun h => ⟨hids, h.symm, hnodup⟩, fun h => h.2.1.symm⟩

theorem newRib_eq_ok {binders : List Syntax} {rib : Rib} :
    newRib binders w = .ok rib w' ↔ (∀ binder ∈ binders, binder.isIdentifier) ∧
      rib = ⟨w.nextRib, binders.map w.spaces.binderKey⟩ ∧
      (binders.map w.spaces.binderKey).Nodup ∧ w' = { w with nextRib := w.nextRib + 1 } := by
  have hrun : newRib binders w = RunM.ofExcept (Rib.ofBinders w.spaces w.nextRib binders)
      { w with nextRib := w.nextRib + 1 } := rfl
  have hrib := @Rib.ofBinders_eq_ok_iff w.spaces w.nextRib binders rib
  rw [hrun]
  cases hmade : Rib.ofBinders w.spaces w.nextRib binders with
  | error e =>
      rw [hmade] at hrib
      simp only [RunM.ofExcept_error, RunM.fail_apply, reduceCtorEq, false_iff]
      rintro ⟨hids, hrib', hnodup, -⟩
      cases hrib.2 ⟨hids, hrib', hnodup⟩
  | ok made =>
      rw [hmade, Except.ok.injEq] at hrib
      rw [RunM.ofExcept_ok, RunM.pure_apply, EStateM.Result.ok.injEq, hrib]
      tauto

/-! ## Core forms -/

section

variable {expand : ExpandContext → Syntax → RunM Syntax} {form e : Syntax} {parts : List Syntax}

theorem two_lt_length {head second : Syntax} {rest : List Syntax} :
    2 < (head :: second :: rest).length ↔ rest ≠ [] := by
  cases rest <;> simp

theorem lambda_eq_ok :
    Expansion.lambda expand form parts w = .ok e w' ↔
      ∃ head formals rest binders rib w₁ body, parts = head :: formals :: rest ∧ rest ≠ [] ∧
        IsFormals formals binders ∧ newRib binders w = .ok rib w₁ ∧
        expandEach expand .expression (renamed rib rest) w₁ = .ok body w' ∧
        e = form.rebuildSexp (head :: (if formals.isIdentifier then formals.addWrap (.rename rib)
          else formals.rebuildSexp (renamed rib binders)) :: body) := by
  constructor
  · intro h
    rcases parts with _ | ⟨head, _ | ⟨formals, rest⟩⟩
    · cases h
    · cases h
    · obtain ⟨_, _, hchecked, h⟩ := RunM.bind_eq_ok.1 h
      obtain ⟨hbody, rfl⟩ := expectBody_eq_ok.1 hchecked
      cases hformals : (if formals.isIdentifier then some [formals] else formals.subforms?) with
      | none =>
          rw [hformals] at h
          cases h
      | some binders =>
          rw [hformals] at h
          obtain ⟨rib, w₁, hrib, h⟩ := RunM.bind_eq_ok.1 h
          obtain ⟨body, w₂, hexpand, h⟩ := RunM.bind_eq_ok.1 h
          cases h
          exact ⟨head, formals, rest, binders, rib, w₁, body, rfl, two_lt_length.1 hbody, hformals,
            hrib, hexpand, rfl⟩
  · rintro ⟨head, formals, rest, binders, rib, w₁, body, rfl, hbody, hformals, hrib, hexpand, rfl⟩
    rw [IsFormals] at hformals
    refine RunM.bind_eq_ok.2 ⟨(), w, expectBody_eq_ok.2 ⟨two_lt_length.2 hbody, rfl⟩, ?_⟩
    rw [hformals]
    exact RunM.bind_eq_ok.2 ⟨rib, w₁, hrib, RunM.bind_eq_ok.2 ⟨body, w', hexpand, rfl⟩⟩

/-- A `let` whose first part is not a name. -/
theorem letForm_eq_ok {head clauses : Syntax} {rest : List Syntax}
    (hclauses : clauses.isIdentifier = false) :
    letForm expand form (head :: clauses :: rest) w = .ok e w' ↔
      ∃ pairs inits w₁ rib w₂ body, rest ≠ [] ∧ IsClauses clauses pairs ∧
        (∀ pair ∈ pairs, pair.1.isIdentifier) ∧
        expandEach expand .expression (pairs.map (·.2)) w = .ok inits w₁ ∧
        newRib (pairs.map (·.1)) w₁ = .ok rib w₂ ∧
        expandEach expand .expression (renamed rib rest) w₂ = .ok body w' ∧
        e = form.rebuildSexp
          (head :: rebuildClauses clauses (renamed rib (pairs.map (·.1))) inits :: body) := by
  rw [letForm, if_neg (by simp [hclauses])]
  constructor
  · intro h
    obtain ⟨_, _, hchecked, h⟩ := RunM.bind_eq_ok.1 h
    obtain ⟨hbody, rfl⟩ := expectBody_eq_ok.1 hchecked
    obtain ⟨pairs, _, hparsed, h⟩ := RunM.bind_eq_ok.1 h
    obtain ⟨hpairs, hids, rfl⟩ := bindingClauses_eq_ok.1 hparsed
    obtain ⟨inits, w₁, hinits, h⟩ := RunM.bind_eq_ok.1 h
    obtain ⟨rib, w₂, hrib, h⟩ := RunM.bind_eq_ok.1 h
    obtain ⟨body, w₃, hexpand, h⟩ := RunM.bind_eq_ok.1 h
    cases h
    exact ⟨pairs, inits, w₁, rib, w₂, body, two_lt_length.1 hbody, hpairs, hids, hinits, hrib,
      hexpand, rfl⟩
  · rintro ⟨pairs, inits, w₁, rib, w₂, body, hbody, hpairs, hids, hinits, hrib, hexpand, rfl⟩
    refine RunM.bind_eq_ok.2 ⟨(), w, expectBody_eq_ok.2 ⟨two_lt_length.2 hbody, rfl⟩, ?_⟩
    refine RunM.bind_eq_ok.2 ⟨pairs, w, bindingClauses_eq_ok.2 ⟨hpairs, hids, rfl⟩, ?_⟩
    refine RunM.bind_eq_ok.2 ⟨inits, w₁, hinits, RunM.bind_eq_ok.2 ⟨rib, w₂, hrib, ?_⟩⟩
    exact RunM.bind_eq_ok.2 ⟨body, w', hexpand, rfl⟩

/-- A named `let` is expanded as the form that it stands for. -/
theorem namedLet_eq_ok (h : namedLet expand form parts w = .ok e w') :
    ∃ call, call.isSexp ∧ expand .expression call w = .ok e w' := by
  rcases parts with _ | ⟨head, _ | ⟨name, _ | ⟨clauses, rest⟩⟩⟩
  · cases h
  · cases h
  · cases h
  · obtain ⟨_, _, hchecked, h⟩ := RunM.bind_eq_ok.1 h
    obtain ⟨-, rfl⟩ := expectBody_eq_ok.1 hchecked
    obtain ⟨pairs, _, hparsed, h⟩ := RunM.bind_eq_ok.1 h
    obtain ⟨-, -, rfl⟩ := bindingClauses_eq_ok.1 hparsed
    obtain ⟨lambdaHead, _, hlambda, h⟩ := RunM.bind_eq_ok.1 h
    obtain rfl := kernelIdentifier_eq_ok hlambda
    obtain ⟨letrecHead, _, hletrec, h⟩ := RunM.bind_eq_ok.1 h
    obtain rfl := kernelIdentifier_eq_ok hletrec
    exact ⟨_, rfl, h⟩

theorem letrec_eq_ok :
    letrec expand form parts w = .ok e w' ↔
      ∃ head clauses rest pairs rib w₁ inits w₂ body, parts = head :: clauses :: rest ∧ rest ≠ [] ∧
        IsClauses clauses pairs ∧ (∀ pair ∈ pairs, pair.1.isIdentifier) ∧
        newRib (pairs.map (·.1)) w = .ok rib w₁ ∧
        expandEach expand .expression (renamed rib (pairs.map (·.2))) w₁ = .ok inits w₂ ∧
        expandEach expand .expression (renamed rib rest) w₂ = .ok body w' ∧
        e = form.rebuildSexp
          (head :: rebuildClauses clauses (renamed rib (pairs.map (·.1))) inits :: body) := by
  constructor
  · intro h
    rcases parts with _ | ⟨head, _ | ⟨clauses, rest⟩⟩
    · cases h
    · cases h
    · obtain ⟨_, _, hchecked, h⟩ := RunM.bind_eq_ok.1 h
      obtain ⟨hbody, rfl⟩ := expectBody_eq_ok.1 hchecked
      obtain ⟨pairs, _, hparsed, h⟩ := RunM.bind_eq_ok.1 h
      obtain ⟨hpairs, hids, rfl⟩ := bindingClauses_eq_ok.1 hparsed
      obtain ⟨rib, w₁, hrib, h⟩ := RunM.bind_eq_ok.1 h
      obtain ⟨inits, w₂, hinits, h⟩ := RunM.bind_eq_ok.1 h
      obtain ⟨body, w₃, hexpand, h⟩ := RunM.bind_eq_ok.1 h
      cases h
      exact ⟨head, clauses, rest, pairs, rib, w₁, inits, w₂, body, rfl, two_lt_length.1 hbody,
        hpairs, hids, hrib, hinits, hexpand, rfl⟩
  · rintro ⟨head, clauses, rest, pairs, rib, w₁, inits, w₂, body, rfl, hbody, hpairs, hids, hrib,
      hinits, hexpand, rfl⟩
    refine RunM.bind_eq_ok.2 ⟨(), w, expectBody_eq_ok.2 ⟨two_lt_length.2 hbody, rfl⟩, ?_⟩
    refine RunM.bind_eq_ok.2 ⟨pairs, w, bindingClauses_eq_ok.2 ⟨hpairs, hids, rfl⟩, ?_⟩
    refine RunM.bind_eq_ok.2 ⟨rib, w₁, hrib, RunM.bind_eq_ok.2 ⟨inits, w₂, hinits, ?_⟩⟩
    exact RunM.bind_eq_ok.2 ⟨body, w', hexpand, rfl⟩

theorem parameterize_eq_ok :
    parameterize expand form parts w = .ok e w' ↔
      ∃ head clauses rest items items' w₁ body, parts = head :: clauses :: rest ∧ rest ≠ [] ∧
        clauses.subforms? = some items ∧ parameterClauses expand items w = .ok items' w₁ ∧
        expandEach expand .expression rest w₁ = .ok body w' ∧
        e = form.rebuildSexp (head :: clauses.rebuildSexp items' :: body) := by
  constructor
  · intro h
    rcases parts with _ | ⟨head, _ | ⟨clauses, rest⟩⟩
    · cases h
    · cases h
    · obtain ⟨_, _, hchecked, h⟩ := RunM.bind_eq_ok.1 h
      obtain ⟨hbody, rfl⟩ := expectBody_eq_ok.1 hchecked
      cases hitems : clauses.subforms? with
      | none =>
          rw [hitems] at h
          cases h
      | some items =>
          rw [hitems] at h
          obtain ⟨items', w₁, hclauses, h⟩ := RunM.bind_eq_ok.1 h
          obtain ⟨body, w₂, hexpand, h⟩ := RunM.bind_eq_ok.1 h
          cases h
          exact ⟨head, clauses, rest, items, items', w₁, body, rfl, two_lt_length.1 hbody, hitems,
            hclauses, hexpand, rfl⟩
  · rintro ⟨head, clauses, rest, items, items', w₁, body, rfl, hbody, hitems, hclauses, hexpand, rfl⟩
    refine RunM.bind_eq_ok.2 ⟨(), w, expectBody_eq_ok.2 ⟨two_lt_length.2 hbody, rfl⟩, ?_⟩
    rw [hitems]
    exact RunM.bind_eq_ok.2 ⟨items', w₁, hclauses, RunM.bind_eq_ok.2 ⟨body, w', hexpand, rfl⟩⟩

/-- An assignment, whose target is not expanded. -/
theorem assignment_eq_ok {loader : Loader} {ns : NamespaceId} {context : ExpandContext} :
    core expand loader ns .set form parts context w = .ok e w' ↔
      ∃ head id value value', parts = [head, id, value] ∧ id.isIdentifier ∧
        expand .expression value w = .ok value' w' ∧ e = form.rebuildSexp [head, id, value'] := by
  constructor
  · intro h
    obtain ⟨_, _, hchecked, h⟩ := RunM.bind_eq_ok.1 h
    obtain ⟨hcount, rfl⟩ := expectCount_eq_ok.1 hchecked
    obtain ⟨head, id, value, rfl⟩ := List.length_eq_three.1 hcount
    cases hid : id.isIdentifier with
    | false =>
        simp only [hid] at h
        cases h
    | true =>
        simp only [hid] at h
        obtain ⟨value', w₁, hexpand, h⟩ := RunM.bind_eq_ok.1 h
        cases h
        exact ⟨head, id, value, value', rfl, hid, hexpand, rfl⟩
  · rintro ⟨head, id, value, value', rfl, hid, hexpand, rfl⟩
    refine RunM.bind_eq_ok.2 ⟨(), w, expectCount_eq_ok.2 ⟨rfl, rfl⟩, ?_⟩
    simp only [hid]
    exact RunM.bind_eq_ok.2 ⟨value', w', hexpand, rfl⟩

/-- The forms whose parts are expanded where the form stands. -/
theorem conditional_eq_ok {loader : Loader} {ns : NamespaceId} {context : ExpandContext} :
    core expand loader ns .ifForm form parts context w = .ok e w' ↔
      ∃ rest, parts.length = 4 ∧ expandEach expand .expression (parts.drop 1) w = .ok rest w' ∧
        e = form.rebuildSexp (parts.take 1 ++ rest) := by
  constructor
  · intro h
    obtain ⟨_, _, hchecked, h⟩ := RunM.bind_eq_ok.1 h
    obtain ⟨hcount, rfl⟩ := expectCount_eq_ok.1 hchecked
    obtain ⟨rest, w₁, hexpand, h⟩ := RunM.bind_eq_ok.1 h
    cases h
    exact ⟨rest, hcount, hexpand, rfl⟩
  · rintro ⟨rest, hcount, hexpand, rfl⟩
    refine RunM.bind_eq_ok.2 ⟨(), w, expectCount_eq_ok.2 ⟨hcount, rfl⟩, ?_⟩
    exact RunM.bind_eq_ok.2 ⟨rest, w', hexpand, rfl⟩

theorem begin_eq_ok {loader : Loader} {ns : NamespaceId} {context : ExpandContext} :
    core expand loader ns .begin form parts context w = .ok e w' ↔
      ∃ rest, expandEach expand context (parts.drop 1) w = .ok rest w' ∧
        e = form.rebuildSexp (parts.take 1 ++ rest) := by
  constructor
  · intro h
    obtain ⟨rest, w₁, hexpand, h⟩ := RunM.bind_eq_ok.1 h
    cases h
    exact ⟨rest, hexpand, rfl⟩
  · rintro ⟨rest, hexpand, rfl⟩
    exact RunM.bind_eq_ok.2 ⟨rest, w', hexpand, rfl⟩

end

/-! ## Forms -/

/-- Transformers lead from a form to another one, at each step one level deeper. -/
inductive Invokes : Syntax → Nat → World → Syntax → Nat → World → Prop
  | refl {form : Syntax} {depth : Nat} {w : World} : Invokes form depth w form depth w
  | step {form form₁ form₂ : Syntax} {depth depth₂ : Nat} {w w₁ w₂ : World} {fuel : Nat}
      {id procedureId : ObjectId} {p : Procedure}
      (hhead : headValue? w.spaces form.deciding = some (.transformer id procedureId p))
      (hinvoke : invoke fuel id procedureId p form w = .ok form₁ w₁)
      (h : Invokes form₁ (depth + 1) w₁ form₂ depth₂ w₂) : Invokes form depth w form₂ depth₂ w₂

/-- What becomes of a form whose head is no name of a transformer, when its parts are expanded by
`expand`. -/
inductive Rewrites (expand : ExpandContext → Syntax → RunM Syntax) (loader : Loader)
    (ns : NamespaceId) (context : ExpandContext) (w : World) : Syntax → Syntax → World → Prop
  | atom {c : Context} {a : Atom} (hkind : headKind w.spaces (.atom c a) = .variable) :
      Rewrites expand loader ns context w (.atom c a) (.atom c a) w
  | list {form : Syntax} {elements es : List Syntax} {w' : World}
      (hparts : form.elements? = some elements)
      (h : expandEach expand .expression elements w = .ok es w') :
      Rewrites expand loader ns context w form (form.rebuildList es) w'
  | record {form : Syntax} {fields es : List (String × Syntax)} {w' : World}
      (hparts : form.fields? = some fields) (h : expandFields expand fields w = .ok es w') :
      Rewrites expand loader ns context w form (form.rebuildRecord es) w'
  | application {form operator : Syntax} {operands es : List Syntax} {w' : World}
      (hparts : form.subforms? = some (operator :: operands))
      (hkind : headKind w.spaces operator = .variable)
      (h : expandEach expand .expression (operator :: operands) w = .ok es w') :
      Rewrites expand loader ns context w form (form.rebuildSexp es) w'
  | core {form head e : Syntax} {rest : List Syntax} {f : CoreForm} {w' : World}
      (hparts : form.subforms? = some (head :: rest)) (hkind : headKind w.spaces head = .core f)
      (h : core expand loader ns f form (head :: rest) context w = .ok e w') :
      Rewrites expand loader ns context w form e w'

theorem Syntax.deciding_of_subforms? {form head : Syntax} {rest : List Syntax}
    (h : form.subforms? = some (head :: rest)) : form.deciding = head := by
  rw [deciding, subforms_of_subforms? h]
  rfl

theorem Syntax.deciding_of_not_isSexp {form : Syntax} (h : form.isSexp = false) :
    form.deciding = form := by
  cases form with
  | atom | record => rfl
  | group c shape items =>
      cases shape with
      | sexp => cases h
      | list => rfl

theorem RunM.allow_bind_eq_ok {watch : Watch} {depth : Nat} {context : ExpandContext} {form : Syntax}
    {α : Type} {x : RunM α} {a : α} :
    (do allow watch depth context form; x) w = .ok a w' ↔
      watch w.spaces depth context form ∧ x w = .ok a w' := by
  rw [allow_bind]
  split <;> simp [*]

section

variable {watch : Watch} {loader : Loader} {ns : NamespaceId} {context : ExpandContext}
  {expand : Nat → ExpandContext → Syntax → RunM Syntax} {form e : Syntax} {depth : Nat}

theorem Watched.expandPlain_rewrites (hform : form.isSexp = false)
    (h : Watched.expandPlain watch expand depth context form w = .ok e w') :
    watch w.spaces depth context form ∧ Rewrites (expand depth) loader ns context w form e w' := by
  obtain ⟨hwatch, h⟩ := RunM.allow_bind_eq_ok.1 h
  refine ⟨hwatch, ?_⟩
  cases form with
  | atom c a =>
      cases a with
      | symbol name =>
          obtain ⟨_, _, hget, h⟩ := RunM.bind_eq_ok.1 h
          cases hget
          cases hvalue : headValue? w.spaces (.atom c (.symbol name)) with
          | none =>
              simp only [hvalue] at h
              cases h
              exact .atom (by rw [headKind, hvalue])
          -- An identifier that names a core form or a transformer is refused as a reference.
          | some v =>
              cases v with
              | form f | transformer id procedureId p =>
                  simp only [hvalue] at h
                  cases h
              | _ =>
                  simp only [hvalue] at h
                  cases h
                  exact .atom (by rw [headKind, hvalue])
      | _ =>
          cases h
          exact .atom (headKind_of_not_identifier rfl)
  | group c shape items =>
      cases shape with
      | sexp => cases hform
      | list =>
          obtain ⟨es, w₁, hes, h⟩ := RunM.bind_eq_ok.1 h
          cases h
          exact .list rfl hes
  | record c fields =>
      obtain ⟨es, w₁, hes, h⟩ := RunM.bind_eq_ok.1 h
      cases h
      exact .record rfl hes

theorem Watched.expandSexp_rewrites {fuel : Nat} (hform : form.isSexp)
    (h : Watched.expandSexp watch loader ns expand fuel depth context form w = .ok e w') :
    ∃ form' depth' w₁, Invokes form depth w form' depth' w₁ ∧
      watch w₁.spaces depth' context form' ∧
      Rewrites (expand depth') loader ns context w₁ form' e w' := by
  induction fuel generalizing depth form w with
  | zero => cases h
  | succ fuel ih =>
      obtain ⟨hwatch, h⟩ := RunM.allow_bind_eq_ok.1 h
      obtain ⟨parts, hparts⟩ : ∃ parts, form.subforms? = some parts := by
        cases form with
        | atom | record => cases hform
        | group c shape items =>
            cases shape with
            | list => cases hform
            | sexp => exact ⟨_, rfl⟩
      simp only [Syntax.subforms_of_subforms? hparts] at h
      cases parts with
      | nil => cases h
      | cons head rest =>
          obtain ⟨_, _, hspaces, h⟩ := RunM.bind_eq_ok.1 h
          cases hspaces
          -- An application, which is what is left if the head is no core form and no transformer.
          have happlication (hkind : headKind w.spaces head = .variable)
              (h : (do return form.rebuildSexp (← expandEach (expand depth) .expression
                (head :: rest))) w = .ok e w') :
              ∃ form' depth' w₁, Invokes form depth w form' depth' w₁ ∧
                watch w₁.spaces depth' context form' ∧
                Rewrites (expand depth') loader ns context w₁ form' e w' := by
            obtain ⟨es, w₁, hes, h⟩ := RunM.bind_eq_ok.1 h
            cases h
            exact ⟨form, depth, w, .refl, hwatch, .application hparts hkind hes⟩
          cases hvalue : headValue? w.spaces head with
          | none =>
              simp only [hvalue] at h
              exact happlication (by rw [headKind, hvalue]) h
          | some v =>
              cases v with
              | transformer id procedureId p =>
                  simp only [hvalue] at h
                  obtain ⟨deeper, _, hdepth, h⟩ := RunM.bind_eq_ok.1 h
                  obtain ⟨rfl, rfl⟩ := descend_eq_ok hdepth
                  obtain ⟨result, w₁, hinvoke, h⟩ := RunM.bind_eq_ok.1 h
                  rw [← Syntax.deciding_of_subforms? hparts] at hvalue
                  cases hsexp : result.isSexp with
                  | true =>
                      rw [if_pos hsexp] at h
                      obtain ⟨form', depth', w₂, hinvokes, hend⟩ := ih hsexp h
                      exact ⟨form', depth', w₂, .step hvalue hinvoke hinvokes, hend⟩
                  | false =>
                      rw [if_neg (by simp [hsexp])] at h
                      exact ⟨result, depth + 1, w₁, .step hvalue hinvoke .refl,
                        expandPlain_rewrites hsexp h⟩
              | form f =>
                  simp only [hvalue] at h
                  have hkind : headKind w.spaces head = .core f := by rw [headKind, hvalue]
                  exact ⟨form, depth, w, .refl, hwatch, .core hparts hkind h⟩
              | _ =>
                  simp only [hvalue] at h
                  exact happlication (by rw [headKind, hvalue]) h

end

/-- The part of the form that decides what becomes of it is no name of a transformer, so a steady watch
that lets the form pass finds the same kind later. -/
theorem Rewrites.headKind_eq {S : Spaces} {expand : ExpandContext → Syntax → RunM Syntax}
    {loader : Loader} {ns : NamespaceId} {context : ExpandContext} {form e : Syntax} {depth : Nat}
    (h : Rewrites expand loader ns context w form e w')
    (hsteady : steady S w.spaces depth context form) :
    headKind S form.deciding = headKind w.spaces form.deciding := by
  have hkind : headKind w.spaces form.deciding ≠ .transformer := by
    cases h with
    | atom hkind =>
        rw [Syntax.deciding_of_not_isSexp rfl, hkind]
        simp
    | list hparts =>
        cases form with
        | atom | record => cases hparts
        | group c shape items =>
            cases shape with
            | sexp => cases hparts
            | list =>
                rw [Syntax.deciding_of_not_isSexp rfl, headKind_of_not_identifier rfl]
                simp
    | record hparts =>
        cases form with
        | atom | group => cases hparts
        | record c fields =>
            rw [Syntax.deciding_of_not_isSexp rfl, headKind_of_not_identifier rfl]
            simp
    | application hparts hkind | core hparts hkind =>
        rw [Syntax.deciding_of_subforms? hparts, hkind]
        simp
  simpa [steady, hkind] using hsteady

/-- An expansion that ends well has invoked transformers until it came to a form that is rewritten by
the expansion of its parts. -/
theorem Watched.expand_rewrites {watch : Watch} {loader : Loader} {ns : NamespaceId}
    {fuel depth : Nat} {context : ExpandContext} {form e : Syntax}
    (h : Watched.expand watch loader ns (fuel + 1) depth context form w = .ok e w') :
    ∃ form' depth' w₁, Invokes form (depth + 1) w form' depth' w₁ ∧
      watch w₁.spaces depth' context form' ∧
      Rewrites (Watched.expand watch loader ns fuel depth') loader ns context w₁ form' e w' := by
  obtain ⟨deeper, _, hdepth, h⟩ := RunM.bind_eq_ok.1 h
  obtain ⟨rfl, rfl⟩ := descend_eq_ok hdepth
  replace h := RunM.mapError_eq_ok.1 h
  cases hsexp : form.isSexp with
  | true =>
      rw [if_pos hsexp] at h
      exact expandSexp_rewrites hsexp h
  | false =>
      rw [if_neg (by simp [hsexp])] at h
      exact ⟨form, depth + 1, w, .refl, expandPlain_rewrites hsexp h⟩

end HygienicLisp
