import HygienicLisp.Proofs.Namespaces.Representation

/-!
# Who may bind a name again

Definitions and imports compete for the cell of an identifier.  A session may define any name
again.  A module may define a name over an import of the language only, and an import goes over
nothing but an import of the language or of the same definition.

Main statement: `binding_policy`.  It says when defining and importing fail, that a failing call
changes nothing, and what follows for a cell over any number of calls: a definition never gives way
to an import, in a module it stays as it is, and an import that a program has asked for never gives
way to another one.
-/

namespace HygienicLisp

/-- What the cell of an identifier holds, if the namespace has one for it. -/
def Spaces.held? (spaces : Spaces) (ns : NamespaceId) (stx : Syntax) (name : String) :
    Option Content :=
  (spaces.filed? ns (spaces.filingKey ns stx name)).bind spaces.content?

namespace Content

/-- A definition, or an import that is not one of the language. -/
def Fixed : Content → Prop
  | .defined _ => True
  | .required i => i.shadowable = false

/-- A definition, or an import of another definition that is not one of the language. -/
def Excludes (target : Definition) : Content → Prop
  | .defined _ => True
  | .required i => i.shadowable = false ∧ i.provided.target ≠ target

/-- What a cell of a namespace of the given kind holds may later be what it holds after. -/
structure Endures (kind : NamespaceKind) (before after : Content) : Prop where
  definition : ∀ d, before = .defined d →
    ∃ d', after = .defined d' ∧ (kind = .module → d' = d)
  explicit : ∀ i, before = .required i → i.shadowable = false →
    after = .required i ∨ kind = .topLevel ∧ ∃ d, after = .defined d

variable {kind : NamespaceKind} {first second third : Content}

theorem Endures.refl (kind : NamespaceKind) (content : Content) : content.Endures kind content :=
  ⟨fun d hd => ⟨d, hd, fun _ => rfl⟩, fun _ hi _ => .inl hi⟩

theorem Endures.trans (h : first.Endures kind second) (h' : second.Endures kind third) :
    first.Endures kind third where
  definition d hd := by
    obtain ⟨d', hd', hsame⟩ := h.definition d hd
    obtain ⟨d'', hd'', hsame'⟩ := h'.definition d' hd'
    exact ⟨d'', hd'', fun hkind => (hsame' hkind).trans (hsame hkind)⟩
  explicit i hi hshadowable := by
    rcases h.explicit i hi hshadowable with hkeep | ⟨hkind, d, hd⟩
    · exact h'.explicit i hkeep hshadowable
    · obtain ⟨d', hd', -⟩ := h'.definition d hd
      exact .inr ⟨hkind, d', hd'⟩

end Content

/-! ## When a call is refused -/

namespace Namespace

variable {space : Namespace}

theorem redefinitionConflict?_isSome_iff {kind : NamespaceKind} {content : Content} :
    (redefinitionConflict? kind content).isSome ↔ kind = .module ∧ content.Fixed := by
  cases kind <;> cases content with
  | defined d => simp [redefinitionConflict?, Content.Fixed]
  | required i => cases h : i.shadowable <;> simp [redefinitionConflict?, Content.Fixed, h]

theorem importOver_refused_iff {content : Content} {i : Import} :
    (∃ conflict, importOver content i = .error conflict) ↔ content.Excludes i.provided.target := by
  cases content with
  | defined d => simp [importOver, Content.Excludes]
  | required there =>
      rw [importOver, Content.Excludes]
      by_cases htarget : there.provided.target = i.provided.target
      · simp [htarget]
      · cases h : there.shadowable <;> simp [htarget]

theorem predefine_refused_iff {self : NamespaceId} {key : Key} :
    (∃ conflict, space.predefine self key = .error conflict) ↔
      space.kind = .module ∧ ∃ content ∈ (space.find? key).bind space.content?, content.Fixed := by
  rw [predefine]
  cases space.find? key with
  | none => simp
  | some index =>
      dsimp only [Option.bind_some]
      cases space.content? index with
      | none => simp
      | some content =>
          have hconflict : (redefinitionConflict? space.kind content).isSome ↔
              space.kind = .module ∧ content.Fixed := redefinitionConflict?_isSome_iff
          simp only [Option.bind_some, Option.mem_def, Option.some.injEq, exists_eq_left']
          rw [← hconflict]
          cases redefinitionConflict? space.kind content <;> simp

theorem require_refused_iff {key : Key} {provided : Provided} {shadowable : Bool} :
    (∃ conflict, space.require key provided shadowable = .error conflict) ↔
      ∃ content ∈ (space.find? key).bind space.content?, content.Excludes provided.target := by
  rw [require]
  cases space.find? key with
  | none => simp
  | some index =>
      dsimp only [Option.bind_some]
      cases space.content? index with
      | none => simp
      | some content =>
          have hover : (∃ conflict, importOver content ⟨key.name, provided, shadowable⟩ =
              .error conflict) ↔ content.Excludes provided.target := importOver_refused_iff
          simp only [Option.mem_def, Option.some.injEq, exists_eq_left']
          rw [← hover]
          cases importOver content ⟨key.name, provided, shadowable⟩ with
          | error conflict => simp
          | ok content => cases content <;> simp

end Namespace

variable {w : World} {ns : NamespaceId} {space : Namespace} {stx : Syntax} {name : String}

theorem Spaces.held?_eq {spaces : Spaces} (hspace : spaces[ns]? = some space) :
    spaces.held? ns stx name =
      (space.find? (spaces.filingKey ns stx name)).bind space.content? := by
  rw [held?, filed?, hspace]
  dsimp only
  cases space.find? (spaces.filingKey ns stx name) with
  | none => rfl
  | some index =>
      rw [Option.map_some, Option.bind_some, Option.bind_some, content?, hspace]

/-- A refused call ends with the conflict and the world that was there before. -/
theorem predefine_cases (hspace : w.spaces[ns]? = some space) (hname : stx.symbol? = some name) :
    (∃ stx' w', predefine ns stx w = .ok stx' w' ∧
      ¬∃ conflict, space.predefine ns (w.spaces.filingKey ns stx name) = .error conflict) ∨
    ∃ conflict, predefine ns stx w = .error (.error (.atForm (.ambiguous name conflict) stx)) w ∧
      space.predefine ns (w.spaces.filingKey ns stx name) = .error conflict := by
  rw [predefine_apply, Spaces.predefine, hname, hspace]
  dsimp only
  cases space.predefine ns (w.spaces.filingKey ns stx name) with
  | error conflict => exact .inr ⟨conflict, rfl, rfl⟩
  | ok result => exact .inl ⟨_, _, rfl, by simp⟩

theorem require_cases (hspace : w.spaces[ns]? = some space) (hname : stx.symbol? = some name)
    (provided : Provided) (shadowable : Bool) :
    (∃ w', require ns stx provided shadowable w = .ok () w' ∧
      ¬∃ conflict, space.require (w.spaces.filingKey ns stx name) provided shadowable =
        .error conflict) ∨
    ∃ conflict, require ns stx provided shadowable w =
        .error (.error (.atForm (.ambiguous name conflict) stx)) w ∧
      space.require (w.spaces.filingKey ns stx name) provided shadowable = .error conflict := by
  rw [require_apply, Spaces.require, hname, hspace]
  dsimp only
  cases space.require (w.spaces.filingKey ns stx name) provided shadowable with
  | error conflict => exact .inr ⟨conflict, rfl, rfl⟩
  | ok result => exact .inl ⟨_, rfl, by simp⟩

/-! ## What becomes of a cell -/

namespace Namespace

variable {target : Definition → Prop} {stored : Slot → Value → Prop} {self : NamespaceId}
  {space' : Namespace} {i : Nat} {content : Content}

theorem content?_file (hc : space.content? i = some content) (key : Key) (new : Content) :
    (space.file key new).content? i = some content := by
  obtain ⟨entry, hentry, rfl⟩ := Option.map_eq_some_iff.1 hc
  have hlt := (Array.getElem?_eq_some_iff.1 hentry).1
  rw [content?, file, Array.getElem?_push, if_neg (Nat.ne_of_lt hlt), hentry]
  rfl

theorem content?_swing (hc : space.content? i = some content) (index : Nat) (new : Content) :
    (space.swing index new).content? i = some (if i = index then new else content) := by
  obtain ⟨entry, hentry, rfl⟩ := Option.map_eq_some_iff.1 hc
  rw [content?, swing, Array.getElem?_modify, hentry]
  by_cases hsame : i = index
  · rw [if_pos hsame.symm, if_pos hsame]
    rfl
  · rw [if_neg (Ne.symm hsame), if_neg hsame]
    rfl

theorem endures_redefinition {kind : NamespaceKind} {d : Definition}
    (hallowed : redefinitionConflict? kind content = none) :
    content.Endures kind (.defined d) := by
  have hfixed : ¬(kind = .module ∧ content.Fixed) := by
    rw [← redefinitionConflict?_isSome_iff, hallowed]
    simp
  refine ⟨fun old hold => ⟨d, rfl, fun hkind => ?_⟩, fun i hi hshadowable => .inr ⟨?_, d, rfl⟩⟩
  · exact absurd ⟨hkind, by rw [hold]; trivial⟩ hfixed
  · cases kind with
    | topLevel => rfl
    | module => exact absurd ⟨rfl, by rw [hi]; exact hshadowable⟩ hfixed

/-- A change leaves a cell as it is, or replaces what may be replaced. -/
theorem Change.endures (h : space.Change target stored self space')
    (hc : space.content? i = some content) :
    ∃ content', space'.content? i = some content' ∧ content.Endures space.kind content' := by
  cases h with
  | newDefinition hnew =>
      exact ⟨content, content?_file hc _ _, .refl _ _⟩
  | @redefinition index entry hentry hallowed =>
      refine ⟨_, content?_swing hc index _, ?_⟩
      split
      · rename_i hsame
        rw [content?, hsame, hentry] at hc
        cases hc
        exact endures_redefinition hallowed
      · exact .refl _ _
  | newImport hnew hname htarget => exact ⟨content, content?_file hc _ _, .refl _ _⟩
  | @reimport index entry there new hentry hthere hallowed hname htarget =>
      refine ⟨_, content?_swing hc index _, ?_⟩
      split
      · rename_i hsame
        rw [content?, hsame, hentry] at hc
        cases hc
        -- What is replaced is an import of the language.
        refine ⟨fun d hd => ?_, fun old hold hshadowable => ?_⟩
        · cases hthere.symm.trans hd
        · cases hthere.symm.trans hold
          exact absurd hshadowable (by simp [hallowed])
      · exact .refl _ _
  | store hstored => exact ⟨content, hc, .refl _ _⟩
  | refer htarget => exact ⟨content, hc, .refl _ _⟩

theorem endures_changes
    (h : Relation.ReflTransGen (Change (fun _ => True) (fun _ _ => True) self) space space')
    (hc : space.content? i = some content) :
    ∃ content', space'.content? i = some content' ∧ content.Endures space.kind content' := by
  induction h with
  | refl => exact ⟨content, hc, .refl _ _⟩
  | tail hchanges hchange ih =>
      obtain ⟨content₁, hc₁, hendures₁⟩ := ih
      obtain ⟨content₂, hc₂, hendures₂⟩ := hchange.endures hc₁
      rw [(grows_changes hchanges).kind] at hendures₂
      exact ⟨content₂, hc₂, hendures₁.trans hendures₂⟩

end Namespace

/-- Over any number of calls, a cell keeps what may not be replaced. -/
theorem World.endures_afterCalls {c : CellRef} {content : Content}
    (hc : w.spaces.content? c = some content) (calls : List Call) :
    ∃ owner content', w.spaces[c.owner]? = some owner ∧
      (w.afterCalls calls).spaces.content? c = some content' ∧
      content.Endures owner.kind content' := by
  rw [Spaces.content?] at hc
  cases howner : w.spaces[c.owner]? with
  | none => simp [howner] at hc
  | some owner =>
      rw [howner] at hc
      obtain ⟨owner', howner', hlogged⟩ := World.logged_afterCalls howner calls
      obtain ⟨content', hc', hendures⟩ := Namespace.endures_changes hlogged.changes hc
      refine ⟨owner, content', rfl, ?_, hendures⟩
      rw [Spaces.content?, howner']
      exact hc'

/-! ## The policy -/

/-- Defining an identifier fails exactly if the namespace is a module and the identifier's cell
holds a definition or an import that is not one of the language.  Importing fails exactly if the
cell holds a definition, or an import of another definition that is not one of the language.  Both
failures are ambiguous bindings and leave the world as it was.  Over any calls on any namespaces, a
cell that holds a definition holds one from then on, and in a module the same one; a cell that holds
an import which is not one of the language keeps it, unless a session defines the name. -/
theorem binding_policy (hspace : w.spaces[ns]? = some space) (hname : stx.symbol? = some name) :
    ((∃ halt w', predefine ns stx w = .error halt w') ↔
      space.kind = .module ∧ ∃ content ∈ w.spaces.held? ns stx name, content.Fixed) ∧
    (∀ provided shadowable, (∃ halt w', require ns stx provided shadowable w = .error halt w') ↔
      ∃ content ∈ w.spaces.held? ns stx name, content.Excludes provided.target) ∧
    (∀ halt w', predefine ns stx w = .error halt w' →
      w' = w ∧ ∃ e, halt = .error e ∧ e.kind = .ambiguousBinding) ∧
    (∀ provided shadowable halt w', require ns stx provided shadowable w = .error halt w' →
      w' = w ∧ ∃ e, halt = .error e ∧ e.kind = .ambiguousBinding) ∧
    ∀ c content, w.spaces.content? c = some content → ∀ calls,
      ∃ owner content', w.spaces[c.owner]? = some owner ∧
        (w.afterCalls calls).spaces.content? c = some content' ∧
        (∀ d, content = .defined d →
          ∃ d', content' = .defined d' ∧ (owner.kind = .module → d' = d)) ∧
        ∀ i, content = .required i → i.shadowable = false →
          content' = .required i ∨ owner.kind = .topLevel ∧ ∃ d, content' = .defined d := by
  rw [Spaces.held?_eq hspace]
  refine ⟨?_, fun provided shadowable => ?_, fun halt w' hrun => ?_,
    fun provided shadowable halt w' hrun => ?_, fun c content hc calls => ?_⟩
  · rw [← @Namespace.predefine_refused_iff space ns]
    rcases predefine_cases hspace hname with ⟨_, _, hok, hnot⟩ | ⟨conflict, herror, hconflict⟩
    · simp [hok, hnot]
    · simp [herror, hconflict]
  · rw [← @Namespace.require_refused_iff space _ provided shadowable]
    rcases require_cases hspace hname provided shadowable with
      ⟨_, hok, hnot⟩ | ⟨conflict, herror, hconflict⟩
    · simp [hok, hnot]
    · simp [herror, hconflict]
  · rcases predefine_cases hspace hname with ⟨_, _, hok, -⟩ | ⟨conflict, herror, -⟩
    · cases hok.symm.trans hrun
    · cases herror.symm.trans hrun
      exact ⟨rfl, _, rfl, rfl⟩
  · rcases require_cases hspace hname provided shadowable with ⟨_, hok, -⟩ | ⟨conflict, herror, -⟩
    · cases hok.symm.trans hrun
    · cases herror.symm.trans hrun
      exact ⟨rfl, _, rfl, rfl⟩
  · obtain ⟨owner, content', howner, hc', hendures⟩ := World.endures_afterCalls hc calls
    exact ⟨owner, content', howner, hc', hendures.definition, hendures.explicit⟩

/-! ## A module with an import -/

/-- A definition of another module. -/
def libraryDefinition : Definition := ⟨"f", 0, 0, ⟨"/library"⟩⟩

/-- The name in the context of the importing module. -/
def importedName : Syntax := (Syntax.ident "f").introduce 1

/-- A world with a module that imports a definition of another one. -/
def importingModule : World :=
  ({} : World).afterCalls [.operation (.create ⟨"/library"⟩ .module),
    .operation (.create ⟨"/user"⟩ .module),
    .operation (.defineValue 0 "f" .void),
    .operation (.require 1 importedName ⟨"f", libraryDefinition⟩ false)]

theorem held?_importedName :
    importingModule.spaces.held? 1 importedName "f" =
      some (.required ⟨"f", ⟨"f", libraryDefinition⟩, false⟩) := by
  decide +kernel

/-- The module can neither define the name nor import another definition under it, but can import
the same one again. -/
theorem importedName_taken :
    ∃ space, importingModule.spaces[1]? = some space ∧ importedName.symbol? = some "f" ∧
      (∃ halt w', predefine 1 importedName importingModule = .error halt w') ∧
      (∃ halt w', require 1 importedName ⟨"g", ⟨"g", 1, 0, ⟨"/library"⟩⟩⟩ false importingModule =
        .error halt w') ∧
      ¬∃ halt w', require 1 importedName ⟨"f", libraryDefinition⟩ true importingModule =
        .error halt w' := by
  have huser : (importingModule.spaces[1]?).map (·.kind) = some .module := by decide +kernel
  obtain ⟨space, hspace, hkind⟩ := Option.map_eq_some_iff.1 huser
  have hname : importedName.symbol? = some "f" := rfl
  obtain ⟨hdefine, himport, -⟩ := binding_policy hspace hname
  rw [held?_importedName] at hdefine himport
  refine ⟨space, hspace, hname, hdefine.2 ⟨hkind, _, rfl, rfl⟩,
    (himport _ _).2 ⟨_, rfl, rfl, ?_⟩, ?_⟩
  · decide
  · rintro hfails
    obtain ⟨_, ⟨⟩, -, hother⟩ := (himport _ _).1 hfails
    exact hother rfl

end HygienicLisp
