import HygienicLisp.Proofs.Isolation.Sessions
import HygienicLisp.Proofs.Namespaces.LateReferences

/-!
# The ways to read a definition

The value of a definition is read in three ways: by its binding while a form is expanded, by its
address when compiled code runs, and by its name in a namespace.  The first and the last go to the
namespace that owns the definition, and find nothing if it has been freed.  Compiled code of another
namespace goes through a short name, which is taken for the first namespace that was referred to
under the module of the definition.  It holds on to that namespace, so that only the first reference
needs the owner to be there.

Main statement: `read_paths_agree`.  All three read the same address, the compiled reference in the
namespace that `Spaces.reached` gives.  It has the module of the definition, so it is the owner if
no other namespace has that module.  If the owner has been freed each of the three reports it.
-/

namespace HygienicLisp

open Compile

variable {w : World} {ns : NamespaceId} {d : Definition}

/-! ## Slots -/

/-- What is seen of a slot: its value, or that there is none yet. -/
def readSlot : Option Value → Except (Option ErrorKind) Value
  | some v => .ok v
  | none => .error (some .eval)

namespace Spaces

variable {spaces later : Spaces}

theorem seen_valueAt {home : ModuleId} (hhome : spaces.IsHome ns home) (address : Nat)
    (name : String) :
    seen (spaces.valueAt ns address name) = readSlot (spaces.value? ns address) := by
  obtain ⟨space, hspace, -⟩ := hhome
  rw [valueAt, value?, hspace]
  simp only [Namespace.valueAt]
  cases space.value? address <;> rfl

/-- The namespace in which a reference that is compiled in `ns` reads a definition: that of the
short name for the module of the definition, if there is one. -/
def reached (spaces : Spaces) (ns : NamespaceId) (d : Definition) : NamespaceId :=
  if d.owner = ns then ns
  else
    ((spaces[ns]?).bind fun space =>
      (space.importId? d.home).bind fun id => (space.imports[id]?).map (·.2)).getD d.owner

/-- A short name stands for a namespace of its module. -/
theorem Consistent.exists_import (h : spaces.Consistent) {space : Namespace}
    (hspace : spaces[ns]? = some space) {id : Nat} (hid : space.importId? d.home = some id) :
    ∃ owner, space.imports[id]? = some (d.home, owner) ∧ spaces.IsHome owner d.home := by
  obtain ⟨hlt, hhome, -⟩ := Array.findIdx?_eq_some_iff_getElem.1 hid
  have himport := Array.getElem?_eq_getElem hlt
  have hhome : (space.imports[id]).1 = d.home := by simpa using hhome
  refine ⟨(space.imports[id]).2, ?_, ?_⟩
  · rw [himport, ← hhome]
  · rw [← hhome]
    exact h.imports hspace himport

/-- What is reached has the module of the definition. -/
theorem Consistent.isHome_reached (h : spaces.Consistent) (hd : spaces.Knows d)
    (ns : NamespaceId) : spaces.IsHome (spaces.reached ns d) d.home := by
  rw [reached]
  split
  · rename_i howner
    exact howner ▸ hd
  · cases hspace : spaces[ns]? with
    | none => exact hd
    | some space =>
        rw [Option.bind_some]
        cases hid : space.importId? d.home with
        | none => exact hd
        | some id =>
            obtain ⟨owner, himport, howner⟩ := h.exists_import hspace hid
            rw [Option.bind_some, himport]
            exact howner

/-- After a short name for the owner of a definition has been asked for, it stands for what is
reached. -/
theorem Consistent.imports_importId (h : spaces.Consistent) (hforeign : d.owner ≠ ns) {id : Nat}
    {spaces' : Spaces} (himport : spaces.importId ns d = .ok (id, spaces')) :
    ∃ space', spaces'[ns]? = some space' ∧
      space'.imports[id]? = some (d.home, spaces.reached ns d) := by
  rw [reached, if_neg hforeign]
  obtain ⟨space, hspace, ⟨hid, rfl⟩ | ⟨hid, -, rfl, rfl⟩⟩ := importId_eq_ok.1 himport
  · obtain ⟨owner, himport, -⟩ := h.exists_import hspace hid
    refine ⟨space, hspace, ?_⟩
    rw [hspace, Option.bind_some, hid, Option.bind_some, himport]
    rfl
  · refine ⟨space.addImport d, ?_, ?_⟩
    · rw [addImport, Array.getElem?_modify, if_pos rfl, hspace]
      rfl
    · rw [hspace, Option.bind_some, hid]
      exact Array.getElem?_push_size

/-- Every namespace is still there, with its module and its short names. -/
def Persists (before after : Spaces) : Prop :=
  ∀ (ns : NamespaceId) (space : Namespace), before[ns]? = some space →
    ∃ space', after[ns]? = some space' ∧ space'.home = space.home ∧
      ∀ (i : Nat) (entry : ModuleId × NamespaceId), space.imports[i]? = some entry →
        space'.imports[i]? = some entry

theorem Persists.trans {before after later : Spaces} (h : before.Persists after)
    (h' : after.Persists later) : before.Persists later := by
  intro ns space hspace
  obtain ⟨space', hspace', hhome, himports⟩ := h ns space hspace
  obtain ⟨space'', hspace'', hhome', himports'⟩ := h' ns space' hspace'
  exact ⟨space'', hspace'', hhome'.trans hhome,
    fun i entry hentry => himports' i entry (himports i entry hentry)⟩

theorem Extends.persists (h : spaces.Extends later) : spaces.Persists later := by
  intro ns space hspace
  obtain ⟨space', hspace', hextends⟩ := h ns space hspace
  exact ⟨space', hspace', hextends.home, hextends.imports⟩

theorem persists_free (spaces : Spaces) (other : NamespaceId) :
    spaces.Persists (spaces.free other) := by
  intro ns space hspace
  obtain ⟨freed, hspace'⟩ := exists_space_free hspace other
  exact ⟨_, hspace', rfl, fun _ _ hentry => hentry⟩

theorem IsHome.of_persists {home : ModuleId} (h : spaces.IsHome ns home)
    (hpersists : spaces.Persists later) : later.IsHome ns home := by
  obtain ⟨space, hspace, rfl⟩ := h
  obtain ⟨space', hspace', hhome, -⟩ := hpersists ns space hspace
  exact ⟨space', hspace', hhome⟩

/-- What a short name stands for is read through it ever after. -/
theorem Persists.seen_lookupImport (h : spaces.Persists later) {space : Namespace}
    (hspace : spaces[ns]? = some space) {id : Nat} {home : ModuleId} {owner : NamespaceId}
    (himport : space.imports[id]? = some (home, owner)) (howner : spaces.IsHome owner home)
    (address : Nat) (name : String) :
    seen (later.lookupImport ns id address name) = readSlot (later.value? owner address) := by
  obtain ⟨space', hspace', -, himports⟩ := h ns space hspace
  rw [lookupImport, hspace']
  simp only [himports id _ himport]
  exact seen_valueAt (howner.of_persists h) address name

end Spaces

/-! ## Histories -/

/-- The world after actions and freed namespaces. -/
abbrev World.afterActions (w : World) (history : List (Occurrence Action)) : World :=
  w.afterHistory (fun action => action.perform.leaves) history

/-- Whatever is done and freed, the world stays consistent and the namespaces are still there. -/
theorem World.Consistent.afterActions (hw : w.Consistent) (history : List (Occurrence Action)) :
    (w.afterActions history).Consistent ∧ w.spaces.Persists (w.afterActions history).spaces := by
  refine World.afterHistory_of_step
    (R := fun w w' => w.Consistent → w'.Consistent ∧ w.spaces.Persists w'.spaces)
    (fun w hw => ⟨hw, (Spaces.Extends.refl w.spaces).persists⟩) (fun h h' hw => ?_)
    (fun action w hw => ?_) (fun ns w hw => ⟨hw.free ns, w.spaces.persists_free ns⟩) w history hw
  · obtain ⟨hw', hpersists⟩ := h hw
    obtain ⟨hw'', hpersists'⟩ := h' hw'
    exact ⟨hw'', hpersists.trans hpersists'⟩
  · obtain ⟨hw', hextends⟩ := hw.after [action]
    exact ⟨hw', hextends.persists⟩

/-- Every world that a history leads to is consistent. -/
theorem consistent_afterActions (history : List (Occurrence Action)) :
    (({} : World).afterActions history).Consistent :=
  ((consistent_after []).afterActions history).1

/-! ## Compiled references -/

/-- A reference to a definition whose owner is there, or is referred to already, is compiled, and
reads the address of the definition where it leads to, at any later time. -/
theorem World.Consistent.definitionRef_reads (hw : w.Consistent) {space : Namespace}
    (hspace : w.spaces[ns]? = some space) (hd : w.spaces.Knows d)
    (hthere : d.owner = ns ∨ w.spaces.isFreed d.owner = false ∨ w.spaces.refersTo ns d = true)
    (name : String) :
    ∃ code w', definitionRef ns d name w = .ok code w' ∧ w'.Consistent ∧ SameReads w.spaces w' ∧
      ∀ later : World, w'.spaces.Persists later.spaces → ∀ fuel frame,
        outcome (eval (fuel + 1) code ⟨ns, frame⟩ later) =
          readSlot (later.spaces.value? (w.spaces.reached ns d) d.address) := by
  rw [definitionRef]
  split
  · rename_i howner
    refine ⟨.topRef d.address name, w, rfl, hw, ⟨rfl, fun _ _ => rfl⟩, ?_⟩
    intro later hlater fuel frame
    have hhome : w.spaces.IsHome ns d.home := howner ▸ hd
    rw [outcome_topRef, Spaces.seen_valueAt (hhome.of_persists hlater), Spaces.reached,
      if_pos howner]
  · rename_i hforeign
    obtain ⟨id, spaces', himport⟩ :=
      Spaces.exists_importId hspace (hthere.resolve_left hforeign)
    have hguarded := respects_importId hd ns hw.guarded
    rw [RunM.bind_apply]
    rw [importId_apply, himport] at hguarded ⊢
    have hreads := Spaces.importId_reads himport
    obtain ⟨space', hspace', hshort⟩ := hw.spaces.imports_importId hforeign himport
    refine ⟨_, _, rfl, hguarded.1.consistent, ⟨hreads.1, hreads.2⟩, ?_⟩
    intro later hlater fuel frame
    have howner := (hw.spaces.isHome_reached hd ns).mono hguarded.2.1.extension
    rw [outcome_importRef]
    exact hlater.seen_lookupImport hspace' hshort howner d.address name

/-- The first reference to a module is refused if the owner of the definition has been freed. -/
theorem definitionRef_of_freed {space : Namespace} (hspace : w.spaces[ns]? = some space)
    (hforeign : d.owner ≠ ns) (hfreed : w.spaces.isFreed d.owner = true)
    (hrefers : w.spaces.refersTo ns d = false) (name : String) :
    definitionRef ns d name w =
      .error (.error (.of (.contract (.moduleFreed d.home)))) w := by
  rw [definitionRef, if_neg hforeign, RunM.bind_apply, importId_apply,
    Spaces.importId_of_freed hspace hfreed hrefers]

theorem compile_identifier {stx : Syntax} {name : String} (hname : stx.symbol? = some name)
    (ht : (w.spaces.denoted stx name).target? = some d) :
    compile ns stx w = definitionRef ns d name w := by
  obtain ⟨c, rfl⟩ : ∃ c, stx = .atom c (.symbol name) := by
    unfold Syntax.symbol? at hname
    split at hname
    · cases hname
      exact ⟨_, rfl⟩
    · cases hname
  exact reference_of_target ht

theorem Spaces.exists_binding_of_denoted {spaces : Spaces} {stx : Syntax} {name : String}
    (ht : (spaces.denoted stx name).target? = some d) :
    ∃ b, spaces.resolve stx = some b ∧ (spaces.denote b).target? = some d := by
  rw [denoted] at ht
  cases hresolve : spaces.resolve stx with
  | none =>
      rw [hresolve] at ht
      cases ht
  | some b =>
      rw [hresolve] at ht
      exact ⟨b, rfl, ht⟩

/-! ## All ways -/

/-- In every state of every history of actions and freed namespaces, for every namespace and every
identifier that denotes a definition:

* expansion reads the slot of the definition in the namespace that owns it, or finds nothing if that
  namespace has been freed;
* so does a look-up by name in a namespace where the name leads to the definition, which fails if
  the owner has been freed;
* unless the owner has been freed before the first reference to its module, the identifier is
  compiled, which changes no cell and no value, and at any later time its code reads the address of
  the definition in the namespace that is reached;
* if it has been, the identifier is not compiled, and nothing changes;
* what is reached has the module of the definition, and is the owner of the definition if no other
  namespace has that module. -/
theorem read_paths_agree (past : List (Occurrence Action)) (ns : NamespaceId) (stx : Syntax)
    (name : String) (t : Definition) (hns : ns < (({} : World).afterActions past).spaces.size)
    (hname : stx.symbol? = some name)
    (ht : ((({} : World).afterActions past).spaces.denoted stx name).target? = some t) :
    let w := ({} : World).afterActions past
    (∃ b, w.spaces.resolve stx = some b ∧ w.spaces.lookup? b =
      if w.spaces.isFreed t.owner then none else w.spaces.value? t.owner t.address) ∧
    (((w.spaces.resolveName ns name).bind fun b => (w.spaces.denote b).target?) = some t →
      seen (w.spaces.lookupName ns name) =
        if w.spaces.isFreed t.owner then .error (some .eval)
        else readSlot (w.spaces.value? t.owner t.address)) ∧
    (t.owner = ns ∨ w.spaces.isFreed t.owner = false ∨ w.spaces.refersTo ns t = true →
      ∃ code w', compile ns stx w = .ok code w' ∧ SameReads w.spaces w' ∧ ∀ future fuel frame,
        outcome (eval (fuel + 1) code ⟨ns, frame⟩ (w'.afterActions future)) =
          readSlot ((w'.afterActions future).spaces.value? (w.spaces.reached ns t) t.address)) ∧
    (t.owner ≠ ns → w.spaces.isFreed t.owner = true → w.spaces.refersTo ns t = false →
      compile ns stx w = .error (.error (.of (.contract (.moduleFreed t.home)))) w) ∧
    w.spaces.IsHome (w.spaces.reached ns t) t.home ∧
    ((∀ other, w.spaces.IsHome other t.home → other = t.owner) →
      w.spaces.reached ns t = t.owner) := by
  intro w
  have hw : w.Consistent := consistent_afterActions past
  have hspace := Array.getElem?_eq_getElem hns
  obtain ⟨b, hresolve, hb⟩ := Spaces.exists_binding_of_denoted ht
  have hknown : w.spaces.Knows t := hw.spaces.knows_target hb
  have hreached := hw.spaces.isHome_reached hknown ns
  refine ⟨⟨b, hresolve, ?_⟩, fun hleads => ?_, fun hthere => ?_,
    fun hforeign hfreed hrefers => ?_, hreached, fun honly => honly _ hreached⟩
  · rw [Spaces.lookup?, hb]
  · rw [Spaces.lookupName, hleads]
    dsimp only
    split
    · rfl
    · exact Spaces.seen_valueAt hknown t.address name
  · obtain ⟨code, w', hrun, hw', hreads, heval⟩ :=
      hw.definitionRef_reads hspace hknown hthere name
    refine ⟨code, w', (compile_identifier hname ht).trans hrun, hreads, fun future => ?_⟩
    exact heval _ (hw'.afterActions future).2
  · exact (compile_identifier hname ht).trans
      (definitionRef_of_freed hspace hforeign hfreed hrefers name)

/-- The name `x` of the first session. -/
def firstX : Syntax := (Syntax.ident "x").introduce 0

/-- The name `x` as it comes out of its definition. -/
def recordedX : Syntax := firstX.withBinding (.cell ⟨0, 0⟩)

/-- Two sessions, the first with a definition of `x`. -/
def firstHasX : List (Occurrence Action) :=
  [.act .openSession, .act (.define 0 "x" (.atom (.int 1))), .act .openSession]

/-- The world after the first session has been freed. -/
def firstFreed : World := ({} : World).afterActions (firstHasX ++ [.free 0])

/-- A second session reads the definition of the first one.  If that has been freed before, the
definition is no longer available. -/
theorem secondSession_reads_first :
    (∃ v code w', (({} : World).afterActions firstHasX).spaces.value? 0 0 = some v ∧
      compile 1 firstX (({} : World).afterActions firstHasX) = .ok code w' ∧
      outcome (eval 1 code ⟨1, none⟩ w') = .ok v) ∧
    firstFreed.spaces.lookup? (.cell ⟨0, 0⟩) = none ∧
      compile 1 recordedX firstFreed =
        .error (.error (.of (.contract (.moduleFreed ⟨"/top-0"⟩)))) firstFreed := by
  constructor
  · obtain ⟨-, -, hcompile, -⟩ := read_paths_agree firstHasX 1 firstX "x"
      ⟨"x", 0, 0, ⟨"/top-0"⟩⟩ (by decide +kernel) rfl (by decide +kernel)
    obtain ⟨code, w', hrun, hreads, heval⟩ := hcompile (.inr (.inl (by decide +kernel)))
    have hreached : (({} : World).afterActions firstHasX).spaces.reached 1
        ⟨"x", 0, 0, ⟨"/top-0"⟩⟩ = 0 := by decide +kernel
    have hthere : ((({} : World).afterActions firstHasX).spaces.value? 0 0).isSome = true := by
      decide +kernel
    obtain ⟨v, hv⟩ := Option.isSome_iff_exists.1 hthere
    refine ⟨v, code, w', hv, hrun, ?_⟩
    calc outcome (eval 1 code ⟨1, none⟩ w')
        = readSlot (w'.spaces.value? ((({} : World).afterActions firstHasX).spaces.reached 1
            ⟨"x", 0, 0, ⟨"/top-0"⟩⟩) 0) := heval [] 0 none
      _ = .ok v := by rw [hreached, hreads.values, hv, readSlot]
  · obtain ⟨⟨b, hb, hlookup⟩, -, -, hrefused, -⟩ := read_paths_agree (firstHasX ++ [.free 0]) 1
      recordedX "x" ⟨"x", 0, 0, ⟨"/top-0"⟩⟩ (by decide +kernel) rfl (by decide +kernel)
    have hfreed : firstFreed.spaces.isFreed 0 = true := by decide +kernel
    cases hb
    exact ⟨hlookup.trans (if_pos hfreed), hrefused (by decide) hfreed (by decide +kernel)⟩

-- A module that has the name of the first session shares its short name in the second one.  What is
-- referred to first settles it, so that `x` is then read in the namespace of the module.
example : (({} : World).after [.openSession, .define 0 "x" (.atom (.int 1)), .addSource "/top-0" "",
    .instantiate 3 ⟨"/top-0"⟩, .define 1 "y" (.atom (.int 2)), .openSession,
    .compile 2 ((Syntax.ident "y").introduce 1)]).spaces.reached 2 ⟨"x", 0, 0, ⟨"/top-0"⟩⟩ = 1 := by
  decide +kernel

end HygienicLisp
