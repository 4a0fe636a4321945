import HygienicLisp.Proofs.Namespaces.FilingKeys
import HygienicLisp.Proofs.Reexports.Names

/-!
# What a definition or an import affects

An identifier whose wraps are marks and wraps of one namespace is looked up in the table of the
namespace under one name and a list of mark sets: all its marks, and then the marks below each wrap
of the namespace, oldest wrap first.  A definition or an import writes one cell of the table, under
all marks of the identifier that it binds.  So it can be seen only by identifiers of the same name
that try these marks before they find another cell.

The lookup stops at the first cell because no cell of the namespace is filed over another cell of
the namespace.  This is so unless an identifier with the module rename of the namespace is bound in
it.

Main statement: only matching identifiers are affected (`World.matching`).
-/

namespace HygienicLisp

/-! ## Marks that are tried -/

/-- The marks below each namespace wrap, oldest wrap first.  The wraps come newest first. -/
def fallbackMarks : List Wrap → List MarkSet
  | [] => []
  | .space _ :: older => fallbackMarks older ++ [wrapMarks older]
  | _ :: older => fallbackMarks older

/-- The marks that a name with the given marks tries at each namespace wrap, oldest wrap first. -/
def triedMarks (total : MarkSet) : List Wrap → List MarkSet
  | [] => []
  | .space _ :: older => triedMarks total older ++ [total, wrapMarks older]
  | _ :: older => triedMarks total older

theorem fallbackMarks_ne_nil {wraps : List Wrap} {ns : NamespaceId}
    (hcarries : .space ns ∈ wraps) : fallbackMarks wraps ≠ [] := by
  induction wraps with
  | nil => cases hcarries
  | cons wrap older ih =>
      cases wrap with
      | space _ => simp [fallbackMarks]
      | mark m | rename rib | moduleRename other =>
          exact ih ((List.mem_cons.1 hcarries).resolve_left nofun)

/-- To try all marks again at a later wrap leads to nothing else. -/
theorem findSome?_triedMarks {α : Type} (f : MarkSet → Option α) (total : MarkSet)
    (wraps : List Wrap) :
    (triedMarks total wraps).findSome? f =
      if fallbackMarks wraps = [] then none else (total :: fallbackMarks wraps).findSome? f := by
  induction wraps with
  | nil => rfl
  | cons wrap older ih =>
      cases wrap with
      | space _ =>
          have hlonger : fallbackMarks older ++ [wrapMarks older] ≠ [] := by simp
          rw [triedMarks, fallbackMarks, if_neg hlonger, List.findSome?_append, ih]
          by_cases hbelow : fallbackMarks older = []
          · rw [if_pos hbelow, hbelow, Option.none_or, List.nil_append]
          · rw [if_neg hbelow, ← List.cons_append, List.findSome?_append]
            cases htotal : f total <;> simp [htotal]
      | mark m | rename rib | moduleRename other => exact ih

theorem findSome?_congr {α β : Type} {f g : α → Option β} {items : List α}
    (h : ∀ item ∈ items, f item = g item) : items.findSome? f = items.findSome? g := by
  rw [← List.head?_filterMap, ← List.head?_filterMap, List.filterMap_congr h]

/-- The identifier has the name, and its wraps are marks and wraps of the namespace, at least one
of these. -/
structure Syntax.MadeIn (ns : NamespaceId) (name : String) (stx : Syntax) : Prop where
  symbol : stx.symbol? = some name
  wraps : ∀ wrap ∈ stx.wraps, (∃ m, wrap = .mark m) ∨ wrap = .space ns
  carries : .space ns ∈ stx.wraps

theorem Syntax.MadeIn.not_moduleRename {ns : NamespaceId} {name : String} {stx : Syntax}
    (h : stx.MadeIn ns name) (other : NamespaceId) : .moduleRename other ∉ stx.wraps := by
  intro hmem
  rcases h.wraps _ hmem with ⟨m, hm⟩ | hspace
  · cases hm
  · cases hspace

namespace Spaces

variable {spaces before after : Spaces} {ns : NamespaceId} {name : String}

/-- The entry of a table for a name with the given marks. -/
def filedCell? (spaces : Spaces) (ns : NamespaceId) (name : String) (marks : MarkSet) :
    Option CellRef :=
  spaces.cell? ns ⟨name, .free name, marks⟩

theorem Apart.cell?_eq_none (h : spaces.Apart ns) {index : Nat} {key : Key}
    (horigin : key.origin = .cell ⟨ns, index⟩) : spaces.cell? ns key = none := by
  by_contra hfound
  obtain ⟨c, hc⟩ := Option.ne_none_iff_exists'.1 hfound
  obtain ⟨space, hspace, hkey⟩ := mem_keys_of_cell? hc
  exact h space hspace key hkey index horigin

/-- A name that has been found in the namespace stays with its cell. -/
theorem Apart.substitute?_cell (h : spaces.Apart ns) (index : Nat) (total here : MarkSet) :
    spaces.substitute? ns name (some (.cell ⟨ns, index⟩)) total here = none := by
  rw [substitute?, Option.getD_some, h.cell?_eq_none rfl, h.cell?_eq_none rfl]
  rfl

theorem Apart.foldr_resolveStep (h : spaces.Apart ns) (name : String) (total : MarkSet) {wraps : List Wrap}
    (hwraps : ∀ wrap ∈ wraps, (∃ m, wrap = .mark m) ∨ wrap = .space ns) :
    (wraps.foldr (spaces.resolveStep name none total) (none, .empty)).1 =
      ((triedMarks total wraps).findSome? (spaces.filedCell? ns name)).map .cell := by
  induction wraps with
  | nil => rfl
  | cons wrap older ih =>
      have hbelow := ih fun wrap' hwrap' => hwraps wrap' (List.mem_cons_of_mem wrap hwrap')
      rw [List.foldr_cons]
      rcases hwraps wrap List.mem_cons_self with ⟨m, rfl⟩ | rfl
      · exact hbelow
      · have hmarks := spaces.foldr_resolveStep_marks name none total older
        generalize older.foldr (spaces.resolveStep name none total) (none, .empty) = found
          at hbelow hmarks ⊢
        obtain ⟨binding, marks⟩ := found
        obtain rfl : marks = wrapMarks older := hmarks
        rw [triedMarks, List.findSome?_append]
        cases hfound : (triedMarks total older).findSome? (spaces.filedCell? ns name) with
        | some c =>
            -- The cell is one of the namespace, so the wrap acts on it no more.
            obtain ⟨marks', -, hentry⟩ := List.exists_of_findSome?_eq_some hfound
            obtain ⟨rfl, -⟩ := cell?_eq_some_iff.1 hentry
            rw [hfound] at hbelow
            obtain rfl : binding = some (.cell c) := hbelow
            rw [resolveStep, h.substitute?_cell]
            rfl
        | none =>
            rw [hfound] at hbelow
            obtain rfl : binding = none := hbelow
            simp only [resolveStep, substitute?, reduceCtorEq, if_false, Option.getD_none,
              Option.none_or, List.findSome?_cons, List.findSome?_nil, filedCell?]
            cases spaces.cell? ns ⟨name, .free name, total⟩ with
            | some c => rfl
            | none => cases spaces.cell? ns ⟨name, .free name, wrapMarks older⟩ <;> rfl

/-- The first entry under the marks of an identifier, and else the first one under the marks below
a namespace wrap, is what it resolves to. -/
theorem Apart.resolveWithMarks (h : spaces.Apart ns) {stx : Syntax} (hstx : stx.MadeIn ns name) :
    (spaces.resolveWithMarks stx).1 =
      ((wrapMarks stx.wraps :: fallbackMarks stx.wraps).findSome? (spaces.filedCell? ns name)).map
        .cell := by
  have hfound := h.foldr_resolveStep name (wrapMarks stx.wraps) hstx.wraps
  rw [findSome?_triedMarks, if_neg (fallbackMarks_ne_nil hstx.carries)] at hfound
  rw [Spaces.resolveWithMarks, hstx.symbol]
  exact hfound

/-! ## One cell is written -/

/-- A definition or an import under a key writes the cell under the key, and no other. -/
structure WritesAt (before : Spaces) (ns : NamespaceId) (key : Key) (c : CellRef)
    (after : Spaces) : Prop where
  found : after.cell? ns key = some c
  others : ∀ other key', (other, key') ≠ (ns, key) → after.cell? other key' = before.cell? other key'
  contents : ∀ c', c' ≠ c → (before.content? c').isSome → after.content? c' = before.content? c'

end Spaces

/-- What a table has under other keys, and in other cells, it has afterwards. -/
structure Namespace.WritesAt (before : Namespace) (key : Key) (index : Nat)
    (after : Namespace) : Prop where
  found : after.find? key = some index
  others : ∀ key', key' ≠ key → after.find? key' = before.find? key'
  contents : ∀ i, i ≠ index → (before.content? i).isSome → after.content? i = before.content? i
  freed : after.freed = before.freed

namespace Namespace

variable {space space' : Namespace} {key : Key} {index : Nat}

theorem writesAt_file (hnew : space.find? key = none) (content : Content) :
    space.WritesAt key space.entries.size (space.file key content) where
  found := by
    rw [find?_eq_findIdx?_keys] at hnew ⊢
    simp [keys_file, List.findIdx?_append, hnew, length_keys]
  others key' hne := by
    rw [find?_eq_findIdx?_keys, find?_eq_findIdx?_keys, keys_file, List.findIdx?_append]
    simp [hne.symm]
  contents i _ hthere := by
    obtain ⟨old, hold⟩ := Option.isSome_iff_exists.1 hthere
    rw [hold, content?_file hold]
  freed := rfl

theorem writesAt_swing (hfind : space.find? key = some index) (content : Content) :
    space.WritesAt key index (space.swing index content) where
  found := by
    rw [find?_eq_findIdx?_keys] at hfind ⊢
    rw [keys_swing, hfind]
  others key' _ := by rw [find?_eq_findIdx?_keys, keys_swing, ← find?_eq_findIdx?_keys]
  contents i hne hthere := by
    obtain ⟨old, hold⟩ := Option.isSome_iff_exists.1 hthere
    rw [hold, content?_swing hold, if_neg hne]
  freed := rfl

theorem writesAt_self (hfind : space.find? key = some index) : space.WritesAt key index space :=
  ⟨hfind, fun _ _ => rfl, fun _ _ _ => rfl, rfl⟩

theorem writesAt_predefine {self : NamespaceId}
    (h : space.predefine self key = .ok (index, space')) : space.WritesAt key index space' := by
  obtain ⟨hnone, rfl, rfl⟩ | ⟨old, hfind, -, -, rfl⟩ := predefine_eq_ok.1 h
  · have hfile := fun content => @writesAt_file space.takeAddress key hnone content
    exact ⟨(hfile _).found, (hfile _).others, (hfile _).contents, rfl⟩
  · have hswing := fun content => @writesAt_swing space.takeAddress key index hfind content
    exact ⟨(hswing _).found, (hswing _).others, (hswing _).contents, rfl⟩

theorem writesAt_require {provided : Provided} {shadowable : Bool}
    (h : space.require key provided shadowable = .ok space') :
    ∃ index, space.WritesAt key index space' := by
  obtain ⟨hnone, rfl⟩ | ⟨index, there, hfind, -, ⟨-, -, rfl⟩ | ⟨-, -, rfl⟩⟩ := require_eq_ok.1 h
  · exact ⟨_, writesAt_file hnone _⟩
  · exact ⟨index, writesAt_self hfind⟩
  · exact ⟨index, writesAt_swing hfind _⟩

end Namespace

namespace Spaces

variable {before after : Spaces} {ns : NamespaceId} {name aname bname : String} {a a' b : Syntax}
  {key : Key} {c : CellRef}

theorem writesAt_setIfInBounds {space space' : Namespace} {index : Nat} (hlive : before.Live)
    (hspace : before[ns]? = some space) (h : space.WritesAt key index space') :
    before.WritesAt ns key ⟨ns, index⟩ (before.setIfInBounds ns space') where
  found := cell?_eq_some_iff.2
    ⟨rfl, space', (getElem?_setIfInBounds_of_some hspace space' ns).trans (if_pos rfl),
      h.freed.trans (hlive.freed_eq_false hspace), h.found⟩
  others other key' hne := by
    by_cases hsame : other = ns
    · subst hsame
      rw [cell?, cell?, isFreed, isFreed, filed?, filed?, getElem?_setIfInBounds_of_some hspace,
        if_pos rfl, hspace]
      simp only [h.freed, h.others key' fun hkey => hne (by rw [hkey])]
    · refine cell?_of_getElem?_eq ?_ key'
      rw [getElem?_setIfInBounds_of_some hspace, if_neg hsame]
  contents c' hne hthere := by
    rw [content?, content?, getElem?_setIfInBounds_of_some hspace]
    by_cases hsame : c'.owner = ns
    · rw [content?, hsame, hspace] at hthere
      rw [if_pos hsame, hsame, hspace]
      refine h.contents c'.index (fun hindex => hne ?_) hthere
      obtain ⟨owner, i⟩ := c'
      obtain rfl : owner = ns := hsame
      rw [show i = index from hindex]
    · rw [if_neg hsame]

/-- A definition writes the cell under the key of the identifier, and records it. -/
theorem writesAt_predefine (hlive : before.Live) (hname : a.symbol? = some name)
    (h : before.predefine ns a = .ok (a', after)) :
    ∃ c, a'.context.binding = some (.cell c) ∧
      before.WritesAt ns (before.filingKey ns a name) c after := by
  obtain ⟨_, space, index, space', hsymbol, hspace, hdefined, rfl, rfl⟩ := predefine_eq_ok.1 h
  cases hname.symm.trans hsymbol
  refine ⟨⟨ns, index⟩, ?_,
    writesAt_setIfInBounds hlive hspace (Namespace.writesAt_predefine hdefined)⟩
  cases a <;> rfl

theorem writesAt_require {provided : Provided} {shadowable : Bool} (hlive : before.Live)
    (hname : a.symbol? = some name)
    (h : before.require ns a provided shadowable = .ok after) :
    ∃ c, before.WritesAt ns (before.filingKey ns a name) c after := by
  obtain ⟨_, space, space', hsymbol, hspace, hrequired, rfl⟩ := require_eq_ok.1 h
  cases hname.symm.trans hsymbol
  obtain ⟨index, hwrites⟩ := Namespace.writesAt_require hrequired
  exact ⟨⟨ns, index⟩, writesAt_setIfInBounds hlive hspace hwrites⟩

/-- An identifier that is made in the namespace is filed under its name and its marks. -/
theorem filingKey_of_madeIn (ha : a.MadeIn ns name) :
    before.filingKey ns a name = ⟨name, .free name, wrapMarks a.wraps⟩ := by
  have hfree : ∀ total, ∀ wraps : List Wrap,
      (∀ wrap ∈ wraps, (∃ m, wrap = .mark m) ∨ wrap = .space ns) →
        before.outside ns name total wraps = none := by
    intro total wraps hwraps
    induction wraps with
    | nil => rfl
    | cons wrap older ih =>
        have hbelow := ih fun wrap' hwrap' => hwraps wrap' (List.mem_cons_of_mem wrap hwrap')
        rcases hwraps wrap List.mem_cons_self with ⟨m, rfl⟩ | rfl
        · exact hbelow
        · rw [outside_space_cons]
          exact hbelow
  rw [filingKey_eq, hfree _ _ ha.wraps, Option.getD_none]

theorem key_eq_of_cell? {key' : Key} (h : before.cell? ns key = some c)
    (h' : before.cell? ns key' = some c) : key = key' := by
  obtain ⟨space, hspace, hkey⟩ := getElem?_keys_of_cell? h
  obtain ⟨space', hspace', hkey'⟩ := getElem?_keys_of_cell? h'
  cases hspace.symm.trans hspace'
  exact Option.some.inj (hkey.symm.trans hkey')

/-! ## Who is affected -/

/-- What has been bound under an identifier is in the given cell.  An identifier with the same name
and the same marks resolves to it.  Every other one is unaffected, unless it has the same name, no
entry under its own marks, and falls back to these marks. -/
structure Matching (before after : Spaces) (aname : String) (a : Syntax) (c : CellRef)
    (ns : NamespaceId) (bname : String) (b : Syntax) : Prop where
  same : bname = aname → wrapMarks b.wraps = wrapMarks a.wraps →
    (after.resolveWithMarks b).1 = some (.cell c)
  unaffected : ¬(bname = aname ∧ wrapMarks b.wraps = wrapMarks a.wraps) →
    ¬(bname = aname ∧ before.filedCell? ns bname (wrapMarks b.wraps) = none ∧
      wrapMarks a.wraps ∈ fallbackMarks b.wraps) →
    (after.resolveWithMarks b).1 = (before.resolveWithMarks b).1 ∧
      (b.context.binding = none → after.denoted b bname = before.denoted b bname)

/-- An identifier that resolves to the same cell as before, another one than has been written,
denotes the same. -/
theorem WritesAt.denoted (h : before.WritesAt ns key c after) {found : Option CellRef}
    (hafter : (after.resolveWithMarks b).1 = found.map .cell)
    (hbefore : (before.resolveWithMarks b).1 = found.map .cell)
    (hfound : ∀ c', found = some c' → c' ≠ c ∧ (before.content? c').isSome)
    (hplain : b.context.binding = none) : after.denoted b bname = before.denoted b bname := by
  rw [Spaces.denoted, Spaces.denoted, resolve_of_binding_eq_none hplain,
    resolve_of_binding_eq_none hplain, hafter, hbefore]
  cases found with
  | none => rfl
  | some c' =>
      obtain ⟨hne, hthere⟩ := hfound c' rfl
      simp only [Option.map_some, Option.getD_some, denote, h.contents c' hne hthere]

theorem WritesAt.affects (h : before.WritesAt ns ⟨aname, .free aname, wrapMarks a.wraps⟩ c after)
    (hbefore : before.Apart ns) (hafter : after.Apart ns) (hb : b.MadeIn ns bname) :
    Matching before after aname a c ns bname b where
  same := by
    rintro rfl hmarks
    rw [hafter.resolveWithMarks hb, List.findSome?_cons, hmarks]
    simp only [filedCell?, h.found]
    rfl
  unaffected hother hnofallback := by
    have hentry : ∀ marks, ¬(bname = aname ∧ marks = wrapMarks a.wraps) →
        after.filedCell? ns bname marks = before.filedCell? ns bname marks := by
      intro marks hne
      refine h.others ns _ fun hkey => hne ?_
      simp only [Prod.mk.injEq, Key.mk.injEq, true_and] at hkey
      exact ⟨hkey.1, hkey.2.2⟩
    have hcell : ∀ marks c', after.filedCell? ns bname marks = some c' →
        ¬(bname = aname ∧ marks = wrapMarks a.wraps) → c' ≠ c := by
      rintro marks c' hc' hne rfl
      refine hne ?_
      have hkey := key_eq_of_cell? hc' h.found
      simp only [Key.mk.injEq] at hkey
      exact ⟨hkey.1, hkey.2.2⟩
    have hresolve := hbefore.resolveWithMarks hb
    have hresolve' := hafter.resolveWithMarks hb
    rw [List.findSome?_cons] at hresolve hresolve'
    rw [hentry _ hother] at hresolve'
    cases hown : before.filedCell? ns bname (wrapMarks b.wraps) with
    | some c₀ =>
        -- The identifier has an entry of its own.
        rw [hown] at hresolve hresolve'
        refine ⟨hresolve'.trans hresolve.symm, h.denoted hresolve' hresolve ?_⟩
        rintro c' ⟨⟩
        exact ⟨hcell _ _ ((hentry _ hother).trans hown) hother, content?_isSome_of_cell? hown⟩
    | none =>
        -- None of the marks that it falls back to are those of what has been bound.
        rw [hown] at hresolve hresolve'
        have hfallback : ∀ marks ∈ fallbackMarks b.wraps,
            ¬(bname = aname ∧ marks = wrapMarks a.wraps) := by
          rintro marks hmem ⟨hname, rfl⟩
          exact hnofallback ⟨hname, hown, hmem⟩
        have hsame : (fallbackMarks b.wraps).findSome? (after.filedCell? ns bname) =
            (fallbackMarks b.wraps).findSome? (before.filedCell? ns bname) :=
          findSome?_congr fun marks hmem => hentry marks (hfallback marks hmem)
        rw [hsame] at hresolve'
        refine ⟨hresolve'.trans hresolve.symm, h.denoted hresolve' hresolve fun c' hc' => ?_⟩
        obtain ⟨marks, hmem, hfound⟩ := List.exists_of_findSome?_eq_some hc'
        have hne := hfallback marks hmem
        exact ⟨hcell marks c' ((hentry marks hne).trans hfound) hne,
          content?_isSome_of_cell? hfound⟩

end Spaces

/-- Definitions and imports affect only matching identifiers.  After any calls in which no
identifier with the module rename of the namespace is bound in it, an identifier that is made in the
namespace resolves to the first entry under its own marks and then under the marks below each wrap
of the namespace, oldest wrap first.  If another such identifier is defined or imported, the first
one resolves to its cell if it has its name and its marks, and else is affected only if it has the
same name, no entry under its own marks, and falls back to these marks. -/
theorem World.matching (calls : List Call) {ns : NamespaceId} {a b : Syntax} {aname bname : String}
    (hreached : ∀ call ∈ calls, ∀ stx, (ns, stx) ∈ call.binders → .moduleRename ns ∉ stx.wraps)
    (ha : a.MadeIn ns aname) (hb : b.MadeIn ns bname) :
    let spaces := (({} : World).afterCalls calls).spaces
    (spaces.resolveWithMarks b).1 =
        ((wrapMarks b.wraps :: fallbackMarks b.wraps).findSome? (spaces.filedCell? ns bname)).map .cell ∧
      (∀ a' after, spaces.predefine ns a = .ok (a', after) →
        ∃ c, a'.context.binding = some (.cell c) ∧
          spaces.Matching after aname a c ns bname b) ∧
      ∀ provided shadowable after, spaces.require ns a provided shadowable = .ok after →
        ∃ c, after.filedCell? ns aname (wrapMarks a.wraps) = some c ∧
          spaces.Matching after aname a c ns bname b := by
  intro spaces
  have hapart : spaces.Apart ns := World.apart_afterCalls calls hreached
  have hlive : spaces.Live := live_afterCalls calls
  have hbound : ∀ stx, (ns, stx) ∈ [(ns, a)] → .moduleRename ns ∉ stx.wraps := by
    intro stx hmem
    cases List.mem_singleton.1 hmem
    exact ha.not_moduleRename ns
  refine ⟨hapart.resolveWithMarks hb, fun a' after h => ?_, fun provided shadowable after h => ?_⟩
  · obtain ⟨c, hrecorded, hwrites⟩ := Spaces.writesAt_predefine hlive ha.symbol h
    rw [Spaces.filingKey_of_madeIn ha] at hwrites
    exact ⟨c, hrecorded, hwrites.affects hapart (hapart.files (Spaces.files_predefine h) hbound) hb⟩
  · obtain ⟨c, hwrites⟩ := Spaces.writesAt_require hlive ha.symbol h
    rw [Spaces.filingKey_of_madeIn ha] at hwrites
    exact ⟨c, hwrites.found,
      hwrites.affects hapart (hapart.files (Spaces.files_require h) hbound) hb⟩

/-- A session in which `x` is defined. -/
def definedSession : List Call :=
  [.operation (.create ⟨"/session"⟩ .topLevel), .operation (.predefine 0 sessionName)]

/-- The name `x` as a transformer makes it in the session. -/
def markedName : Syntax := sessionName.addWrap (.mark 1)

/-- A definition of `x` by a transformer, seen by the name `x` that the transformer makes and the
session introduces once more. -/
theorem matching_definedSession :
    let spaces := (({} : World).afterCalls definedSession).spaces
    let b := markedName.introduce 0
    (spaces.resolveWithMarks b).1 =
        ((wrapMarks b.wraps :: fallbackMarks b.wraps).findSome? (spaces.filedCell? 0 "x")).map .cell ∧
      (∀ a' after, spaces.predefine 0 markedName = .ok (a', after) →
        ∃ c, a'.context.binding = some (.cell c) ∧
          spaces.Matching after "x" markedName c 0 "x" b) ∧
      ∀ provided shadowable after, spaces.require 0 markedName provided shadowable = .ok after →
        ∃ c, after.filedCell? 0 "x" (wrapMarks markedName.wraps) = some c ∧
          spaces.Matching after "x" markedName c 0 "x" b := by
  refine World.matching definedSession ?_ ⟨by decide, ?_, by decide⟩ ⟨by decide, ?_, by decide⟩
  · intro call hcall stx hbinder
    simp only [definedSession, List.mem_cons, List.not_mem_nil, or_false] at hcall
    rcases hcall with rfl | rfl
    · cases hbinder
    · cases List.mem_singleton.1 hbinder
      decide
  · have hwraps : markedName.wraps = [.mark 1, .space 0] := rfl
    simp [hwraps]
  · have hwraps : (markedName.introduce 0).wraps = [.space 0, .mark 1, .space 0] := rfl
    simp [hwraps]

end HygienicLisp
