import HygienicLisp.Eval
import HygienicLisp.Proofs.Soundness.Primitives

/-!
# Frames and namespaces of a sound world

Every frame and slot within a chain of frames is there, and so is every import of a namespace.
What they hold is sound, and storing a sound value keeps the world sound.
-/

namespace HygienicLisp

variable {L : Layout} {cells : CellTable}

/-! ## Frames -/

/-- The environment is one of a namespace that is there, and its frames have the given sizes. -/
structure Env.Fits (L : Layout) (sizes : List Nat) (env : Env) : Prop where
  space : L.HasSpace env.space
  chain : L.Chain env.frame sizes

theorem Env.Fits.mono {L L' : Layout} (hL : L ≤ L') {sizes : List Nat} {env : Env}
    (h : env.Fits L sizes) : env.Fits L' sizes :=
  ⟨h.space.mono hL, h.chain.mono hL⟩

/-- The layout with one more frame. -/
def Layout.addFrame (L : Layout) (size : Nat) (parent : Option Nat) : Layout :=
  { L with frames := L.frames ++ [(size, parent)] }

theorem Layout.le_addFrame (L : Layout) (size : Nat) (parent : Option Nat) :
    L ≤ L.addFrame size parent where
  frames i frame h := by
    have hi := (List.getElem?_eq_some_iff.1 h).1
    rw [addFrame, List.getElem?_append_left hi, h]
  imports ns count h := ⟨count, h, le_rfl⟩
  ribs rib size h := h

theorem World.Sound.frames_length {w : World} (h : w.Sound L) : L.frames.length = w.frames.size := by
  apply Nat.le_antisymm
  · have hnone := h.frames w.frames.size
    rw [Array.getElem?_eq_none (Nat.le_refl _), Option.map_none, List.getElem?_eq_none_iff] at hnone
    exact hnone
  · have hnone := (h.frames L.frames.length).symm
    rw [List.getElem?_eq_none (Nat.le_refl _), Option.map_eq_none_iff,
      Array.getElem?_eq_none_iff] at hnone
    exact hnone

theorem World.Sound.pushFrame {w : World} (h : w.Sound L) {slots : Array (Option Value)}
    (hslots : ∀ (slot : Nat) (v : Value), slots[slot]? = some (some v) → v.Sound L)
    (parent : Option Nat) :
    ({ w with frames := w.frames.push ⟨slots, parent⟩ } : World).Sound
      (L.addFrame slots.size parent) := by
  have hL := L.le_addFrame slots.size parent
  refine
    { frames := fun i => ?_
      imports := h.imports
      slots := fun i f hf slot v hv => ?_
      values := fun ns space hspace address v hv => (h.values ns space hspace address v hv).mono hL
      owners := fun ns space hspace i entry hentry => (h.owners ns space hspace i entry hentry).mono hL
      targets := fun ns space hspace i entry hentry =>
        (h.targets ns space hspace i entry hentry).mono hL
      dynamic := fun p hp => (h.dynamic p hp).mono hL
      ribs := h.ribs }
  · rw [Layout.addFrame, Array.getElem?_push]
    split
    · rename_i hi
      rw [hi, ← h.frames_length]
      simp
    · rename_i hi
      rw [← h.frames i]
      rcases Nat.lt_or_gt_of_ne hi with hlt | hgt
      · rw [List.getElem?_append_left (by rw [h.frames_length]; exact hlt)]
      · have hout : L.frames.length < i := by rw [h.frames_length]; exact hgt
        rw [List.getElem?_eq_none (by simp; omega), List.getElem?_eq_none (by omega)]
  · exact (forall_frames_push h.slots hslots hf hv).mono hL

theorem safe_pushFrame {env : Env} {sizes : List Nat} {slots : Array (Option Value)}
    (henv : env.Fits L sizes)
    (hslots : ∀ (slot : Nat) (v : Value), slots[slot]? = some (some v) → v.Sound L) :
    Safe (HasCells cells) L
      (fun L' env' => env'.space = env.space ∧ env'.Fits L' (slots.size :: sizes))
      (pushFrame env slots) := by
  refine .modifyGet fun w hI hw => ?_
  have hL := L.le_addFrame slots.size env.frame
  refine ⟨hI, L.addFrame slots.size env.frame, hL, hw.pushFrame hslots env.frame, rfl, ?_⟩
  refine ⟨henv.space.mono hL, .frame ?_ (henv.chain.mono hL)⟩
  rw [Layout.addFrame, ← hw.frames_length]
  simp

/-- The frame that a reference goes up to is there and has the size that the chain says. -/
theorem Layout.Chain.frameUp {w : World} (hw : w.Sound L) {frame : Option Nat} {sizes : List Nat}
    (h : L.Chain frame sizes) {depth size : Nat} (hsize : sizes[depth]? = some size) :
    ∃ i parent, frameUp w.frames depth frame = some i ∧ L.frames[i]? = some (size, parent) := by
  induction h generalizing depth with
  | top => simp at hsize
  | @frame i size' parent sizes hframe hparent ih =>
      cases depth with
      | zero =>
          obtain rfl : size' = size := by simpa using hsize
          exact ⟨i, parent, rfl, hframe⟩
      | succ depth =>
          obtain ⟨j, parent', hup, hj⟩ := ih (by simpa using hsize)
          refine ⟨j, parent', ?_, hj⟩
          have hw := hw.frames i
          rw [hframe] at hw
          obtain ⟨f, hf, hsame⟩ := Option.map_eq_some_iff.1 hw.symm
          rw [HygienicLisp.frameUp, hf]
          obtain rfl : f.parent = parent := congrArg Prod.snd hsame
          exact hup

theorem safe_frameAt {env : Env} {sizes : List Nat} {depth size : Nat} (henv : env.Fits L sizes)
    (hsize : sizes[depth]? = some size) :
    Safe (HasCells cells) L (fun L' i => ∃ parent, L'.frames[i]? = some (size, parent))
      (frameAt env depth) := by
  refine .get_bind fun w hI hw => ?_
  obtain ⟨i, parent, hup, hi⟩ := henv.chain.frameUp hw hsize
  rw [hup]
  exact .pure ⟨parent, hi⟩

theorem World.Sound.exists_frame {w : World} (h : w.Sound L) {i size : Nat} {parent : Option Nat}
    (hi : L.frames[i]? = some (size, parent)) :
    ∃ f, w.frames[i]? = some f ∧ f.slots.size = size := by
  have hframe := h.frames i
  rw [hi] at hframe
  obtain ⟨f, hf, hsame⟩ := Option.map_eq_some_iff.1 hframe.symm
  exact ⟨f, hf, congrArg Prod.fst hsame⟩

theorem safe_getLocal {env : Env} {sizes : List Nat} {depth slot : Nat} {name : String}
    (henv : env.Fits L sizes) (hslot : Layout.InFrame sizes depth slot) :
    Safe (HasCells cells) L (fun L' v => v.Sound L') (getLocal env depth slot name) := by
  obtain ⟨size, hsize, hlt⟩ := hslot
  refine (safe_frameAt henv hsize).bind fun L₁ i _ hi => .get_bind fun w _ hw => ?_
  obtain ⟨parent, hi⟩ := hi
  obtain ⟨f, hf, rfl⟩ := hw.exists_frame hi
  rw [hf, Option.bind_some, Array.getElem?_eq_getElem hlt]
  split
  · rename_i v hv
    refine .pure (hw.slots i f hf slot v ?_)
    rw [Array.getElem?_eq_getElem hlt, hv]
  · exact .fail (Error.external_of nofun)
  · rename_i hv
    cases hv

theorem World.Sound.setSlot {w : World} (h : w.Sound L) {v : Value} (hv : v.Sound L)
    (frame slot : Nat) :
    ({ w with frames := w.frames.modify frame fun f =>
      { f with slots := f.slots.setIfInBounds slot (some v) } } : World).Sound L := by
  refine
    { h with
      frames := fun i => ?_
      slots := fun _ _ hf _ _ => forall_frames_setSlot h.slots hv frame slot hf }
  rw [h.frames i, Array.getElem?_modify]
  split
  · cases w.frames[i]? <;> simp
  · rfl

theorem safe_setSlot {frame slot size : Nat} {parent : Option Nat} {v : Value} (hv : v.Sound L)
    (hframe : L.frames[frame]? = some (size, parent)) (hslot : slot < size) :
    Safe (HasCells cells) L (fun _ _ => True) (setSlot frame slot v) := by
  refine .get_bind fun w _ hw => ?_
  obtain ⟨f, hf, rfl⟩ := hw.exists_frame hframe
  simp only [hf, hslot, decide_true, if_true]
  exact .modify fun w hI hw => ⟨hI, L, le_rfl, hw.setSlot hv frame slot, trivial⟩

/-! ## Namespaces -/

theorem World.Sound.hasSpace_iff {w : World} (h : w.Sound L) (ns : NamespaceId) :
    L.HasSpace ns ↔ ns < w.spaces.size := by
  have hns := h.imports ns
  rw [Layout.HasSpace]
  constructor
  · intro hlt
    rw [List.getElem?_eq_getElem hlt] at hns
    obtain ⟨space, hspace, -⟩ := Option.map_eq_some_iff.1 hns.symm
    exact (Array.getElem?_eq_some_iff.1 hspace).1
  · intro hlt
    rw [Array.getElem?_eq_getElem hlt, Option.map_some] at hns
    exact (List.getElem?_eq_some_iff.1 hns).1

theorem World.Sound.exists_space {w : World} (h : w.Sound L) {ns : NamespaceId}
    (hns : L.HasSpace ns) : ∃ space, w.spaces[ns]? = some space :=
  ⟨_, Array.getElem?_eq_getElem ((h.hasSpace_iff ns).1 hns)⟩

theorem World.Sound.fine_valueAt {w : World} (h : w.Sound L) {ns : NamespaceId}
    (hns : L.HasSpace ns) (address : Nat) (name : String) :
    Fine (Value.Sound L) (w.spaces.valueAt ns address name) := by
  obtain ⟨space, hspace⟩ := h.exists_space hns
  rw [Spaces.valueAt, hspace]
  change Fine (Value.Sound L) (space.valueAt address name)
  rw [Namespace.valueAt]
  cases hv : space.value? address with
  | none => exact Error.external_of nofun
  | some v => exact h.values ns space hspace address v hv

theorem World.Sound.fine_lookupImport {w : World} (h : w.Sound L) {ns : NamespaceId} {id : Nat}
    (hid : L.HasImport ns id) (address : Nat) (name : String) :
    Fine (Value.Sound L) (w.spaces.lookupImport ns id address name) := by
  obtain ⟨count, hcount, hlt⟩ := hid
  have hns := h.imports ns
  rw [hcount] at hns
  obtain ⟨space, hspace, rfl⟩ := Option.map_eq_some_iff.1 hns.symm
  rw [Spaces.lookupImport, hspace]
  dsimp only
  rw [Array.getElem?_eq_getElem hlt]
  exact h.fine_valueAt (h.owners ns space hspace id _ (Array.getElem?_eq_getElem hlt)) address name

/-- What a cell of a sound world leads to is in a namespace that is there. -/
theorem World.Sound.hasSpace_target {w : World} (h : w.Sound L) {b : Binding} {d : Definition}
    (hd : (w.spaces.denote b).target? = some d) : L.HasSpace d.owner := by
  cases b with
  | free name => simp [Spaces.denote, Denotation.target?] at hd
  | lexical v => simp [Spaces.denote, Denotation.target?] at hd
  | cell c =>
      cases hspace : w.spaces[c.owner]? with
      | none => simp [Spaces.denote, Spaces.content?, hspace, Denotation.target?] at hd
      | some space =>
          cases hentry : space.entries[c.index]? with
          | none =>
              simp [Spaces.denote, Spaces.content?, hspace, Namespace.content?, hentry,
                Denotation.target?] at hd
          | some entry =>
              have htarget := h.targets c.owner space hspace c.index entry hentry
              cases hcontent : entry.content with
              | defined d' =>
                  obtain rfl : d' = d := by
                    simpa [Spaces.denote, Spaces.content?, hspace, Namespace.content?, hentry,
                      hcontent, Denotation.target?] using hd
                  simpa [hcontent, Content.target] using htarget
              | required i =>
                  obtain rfl : i.provided.target = d := by
                    simpa [Spaces.denote, Spaces.content?, hspace, Namespace.content?, hentry,
                      hcontent, Denotation.target?] using hd
                  simpa [hcontent, Content.target] using htarget

theorem World.Sound.fine_lookupName {w : World} (h : w.Sound L) (ns : NamespaceId) (name : String) :
    Fine (Value.Sound L) (w.spaces.lookupName ns name) := by
  rw [Spaces.lookupName]
  cases hd : (w.spaces.resolveName ns name).bind fun b => (w.spaces.denote b).target? with
  | none => exact Error.external_of nofun
  | some d =>
      obtain ⟨b, -, hb⟩ := Option.bind_eq_some_iff.1 hd
      dsimp only
      split
      · exact Error.external_of nofun
      · exact h.fine_valueAt (h.hasSpace_target hb) d.address name

theorem Namespace.value?_setValue {space : Namespace} {address other : Nat} {v v' : Value}
    (h : (space.setValue address v).value? other = some v') :
    v' = v ∨ space.value? other = some v' := by
  rw [value?, setValue] at h
  dsimp only at h
  rw [Array.getElem?_setIfInBounds] at h
  split at h
  · split at h
    · left
      simpa using h.symm
    · simp at h
  · right
    rw [Array.getElem?_append] at h
    split at h
    · exact h
    · rw [Array.getElem?_replicate] at h
      split at h <;> simp at h

theorem Spaces.cells_setValue (spaces : Spaces) (ns : NamespaceId) (address : Nat) (v : Value) :
    (spaces.setValue ns address v).cells = spaces.cells := by
  funext other
  rw [cells, cells, setValue, Array.getElem?_modify]
  split
  · cases spaces[other]? <;> rfl
  · rfl

theorem World.Sound.setValue {w : World} (h : w.Sound L) {v : Value} (hv : v.Sound L)
    (ns : NamespaceId) (address : Nat) :
    ({ w with spaces := w.spaces.setValue ns address v } : World).Sound L := by
  -- Whatever the namespace is now, it was there and differs in its values only.
  have hold {other : NamespaceId} {space : Namespace}
      (hspace : (w.spaces.setValue ns address v)[other]? = some space) :
      ∃ old, w.spaces[other]? = some old ∧ (space = old ∨ space = old.setValue address v) := by
    rw [Spaces.setValue, Array.getElem?_modify] at hspace
    split at hspace
    · obtain ⟨old, hold, rfl⟩ := Option.map_eq_some_iff.1 hspace
      exact ⟨old, hold, .inr rfl⟩
    · exact ⟨space, hspace, .inl rfl⟩
  refine
    { h with
      imports := fun other => ?_
      values := fun other space hspace i v' hv' => ?_
      owners := fun other space hspace i entry hentry => ?_
      targets := fun other space hspace i entry hentry => ?_ }
  · rw [h.imports other]
    dsimp only
    rw [Spaces.setValue, Array.getElem?_modify]
    split
    · cases w.spaces[other]? <;> rfl
    · rfl
  · obtain ⟨old, hwas, rfl | rfl⟩ := hold hspace
    · exact h.values other space hwas i v' hv'
    · rcases Namespace.value?_setValue hv' with rfl | hv'
      · exact hv
      · exact h.values other old hwas i v' hv'
  · obtain ⟨old, hwas, rfl | rfl⟩ := hold hspace
    · exact h.owners other space hwas i entry hentry
    · exact h.owners other old hwas i entry hentry
  · obtain ⟨old, hwas, rfl | rfl⟩ := hold hspace
    · exact h.targets other space hwas i entry hentry
    · exact h.targets other old hwas i entry hentry

theorem safe_setValue {ns : NamespaceId} {address : Nat} {v : Value} (hv : v.Sound L) :
    Safe (HasCells cells) L (fun _ _ => True) (setValue ns address v) := by
  refine .modify fun w hI hw => ⟨?_, L, le_rfl, hw.setValue hv ns address, trivial⟩
  rw [HasCells, Spaces.cells_setValue]
  exact hI

theorem safe_inferName {v : Value} {name : String} :
    Safe (HasCells cells) L (fun _ _ => True) (inferName v name) :=
  .modify fun _ hI hw => ⟨hI, L, le_rfl, hw.congr rfl rfl rfl rfl, trivial⟩

end HygienicLisp
