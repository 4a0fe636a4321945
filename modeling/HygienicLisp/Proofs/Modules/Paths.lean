import HygienicLisp.Module.Path
import Mathlib

/-!
# Module paths are canonical

A path is walked along segment by segment: a name leads one directory down, `..` leads one up, and empty
segments and `.` lead nowhere.  Where the walk is after each segment (`height`) tells whether it leaves
the root (`Escapes`) and whether it comes back to it, and these are the only ways in which a path that is
not empty names no module.  Every other path has a canonical form, which is its own canonical form, and
a module can be named from every other one by going up to the root (`relativePath`).
-/

namespace HygienicLisp

/-- The segments of an id: what stands between its slashes, after the first of them. -/
def ModuleId.segments (id : ModuleId) : List (List Char) := (id.path.toList.drop 1).splitOn '/'

/-- A segment of a canonical id. -/
structure ModulePath.IsName (segment : List Char) : Prop where
  ne_nil : segment ≠ []
  ne_dot : segment ≠ ['.']
  ne_up : segment ≠ ['.', '.']

instance : DecidablePred ModulePath.IsName := fun segment =>
  decidable_of_iff (segment ≠ [] ∧ segment ≠ ['.'] ∧ segment ≠ ['.', '.'])
    ⟨fun ⟨hnil, hdot, hup⟩ => ⟨hnil, hdot, hup⟩, fun h => ⟨h.ne_nil, h.ne_dot, h.ne_up⟩⟩

/-- The id begins with a slash, and each of its segments is a name. -/
structure ModuleId.Canonical (id : ModuleId) : Prop where
  rooted : id.path.toList.head? = some '/'
  segments : ∀ segment ∈ id.segments, ModulePath.IsName segment

namespace ModulePath

/-- How far down a segment of a path leads. -/
def descent (segment : List Char) : Int :=
  if segment = [] ∨ segment = ['.'] then 0 else if segment = ['.', '.'] then -1 else 1

/-- How far below the place where it begins a path ends. -/
def height (route : List (List Char)) : Int := (route.map descent).sum

/-- Some segment of the path leads up although no segment is left to remove. -/
def Escapes (route : List (List Char)) : Prop :=
  ∃ before after, route = before ++ ['.', '.'] :: after ∧ height before = 0

/-- The text of a path seen from a module: a relative one goes on from the directory of the module, or
from the root if there is no module. -/
def seenFrom (requester : Option ModuleId) (path : String) : String :=
  if path.toList.head? = some '/' then path
  else (requester.elim "/" ModuleId.directory) ++ "/" ++ path

/-- The segments of a path seen from a module. -/
def route (requester : Option ModuleId) (path : String) : List (List Char) :=
  (seenFrom requester path).toList.splitOn '/'

/-- Why a path seen from a module names none. -/
inductive Refused (requester : Option ModuleId) (path : String) : ContractFault → Prop
  | empty (hpath : path = "") : Refused requester path .emptyPath
  | escapes (hpath : path ≠ "") (hescapes : Escapes (route requester path)) :
      Refused requester path (.pathEscapes path)
  | nothing (hpath : path ≠ "") (hstays : ¬Escapes (route requester path))
      (hheight : height (route requester path) = 0) :
      Refused requester path (.pathNamesNothing path)

/-- The path that leads from the directory of a module to another module through the root. -/
def relativePath (a b : ModuleId) : String :=
  String.ofList
    (List.intercalate ['/'] (List.replicate (a.segments.length - 1) ['.', '.'] ++ b.segments))

/-! ## Segments -/

theorem pieces_eq_splitOn (text : List Char) : pieces text = text.splitOn '/' := by
  induction text with
  | nil => rfl
  | cons c rest ih =>
      rw [pieces, ih, List.splitOn_cons_eq_if_modifyHead]
      by_cases hc : c = '/'
      · simp [hc]
      · rw [if_neg hc, if_neg (by simpa using hc)]
        cases hsplit : rest.splitOn '/' with
        | nil => exact absurd hsplit (List.splitOn_ne_nil _ _)
        | cons first others => rfl

/-- The segments of a text that are not empty. -/
def segmentsOf (text : List Char) : List (List Char) := (text.splitOn '/').filter (· ≠ [])

theorem segmentsOf_append (first rest : List Char) :
    segmentsOf (first ++ '/' :: rest) = segmentsOf first ++ segmentsOf rest := by
  rw [segmentsOf, List.splitOn_append_cons_self, List.filter_append, segmentsOf, segmentsOf]

theorem segmentsOf_cons (rest : List Char) : segmentsOf ('/' :: rest) = segmentsOf rest := by
  exact segmentsOf_append [] rest

theorem segmentsOf_trimSlashes (text : List Char) :
    segmentsOf (trimSlashes text) = segmentsOf text := by
  change segmentsOf (text.rdropWhile (· = '/')) = segmentsOf text
  induction text using List.reverseRecOn with
  | nil => rfl
  | append_singleton text c ih =>
      rw [List.rdropWhile_concat]
      by_cases hc : c = '/'
      · have happend := segmentsOf_append text []
        rw [if_pos (by simpa using hc), ih, hc, happend]
        simp [segmentsOf]
      · rw [if_neg (by simpa using hc)]

theorem slash_notMem_of_mem_splitOn {text segment : List Char} (h : segment ∈ text.splitOn '/') :
    '/' ∉ segment := by
  induction text generalizing segment with
  | nil => simp_all
  | cons c rest ih =>
      rw [List.splitOn_cons_eq_if_modifyHead] at h
      split at h
      · rcases List.mem_cons.1 h with rfl | h
        · simp
        · exact ih h
      · rename_i hc
        cases hsplit : rest.splitOn '/' with
        | nil => exact absurd hsplit (List.splitOn_ne_nil _ _)
        | cons first others =>
            rw [hsplit] at h ih
            rcases List.mem_cons.1 h with rfl | h
            · have hfirst := ih List.mem_cons_self
              simp only [List.mem_cons, not_or]
              exact ⟨fun heq => hc (by simpa using heq.symm), hfirst⟩
            · exact ih (List.mem_cons_of_mem _ h)

/-! ## Walking along segments -/

theorem walk_blank {piece : List Char} (h : piece = [] ∨ piece = ['.'])
    (rest segments : List (List Char)) : walk (piece :: rest) segments = walk rest segments := by
  rw [walk.eq_def]
  exact if_pos h

theorem walk_name {piece : List Char} (h : IsName piece) (rest segments : List (List Char)) :
    walk (piece :: rest) segments = walk rest (piece :: segments) := by
  rw [walk.eq_def]
  simp [h.ne_nil, h.ne_dot, h.ne_up]

theorem walk_segmentsOf (text : List Char) (segments : List (List Char)) :
    walk (segmentsOf text) segments = walk (pieces text) segments := by
  rw [segmentsOf, pieces_eq_splitOn]
  induction text.splitOn '/' generalizing segments with
  | nil => rfl
  | cons piece rest ih =>
      by_cases hpiece : piece = []
      · rw [List.filter_cons_of_neg (by simpa using hpiece), ih, walk_blank (.inl hpiece)]
      · rw [List.filter_cons_of_pos (by simpa using hpiece), walk.eq_def, walk.eq_def (piece :: rest)]
        dsimp only
        simp only [ih]

@[simp] theorem height_nil : height [] = 0 := rfl

@[simp] theorem height_cons (piece : List Char) (rest : List (List Char)) :
    height (piece :: rest) = descent piece + height rest := by
  rw [height, List.map_cons, List.sum_cons, height]

theorem descent_blank {piece : List Char} (h : piece = [] ∨ piece = ['.']) : descent piece = 0 :=
  if_pos h

theorem descent_up : descent ['.', '.'] = -1 := rfl

theorem descent_name {piece : List Char} (h : IsName piece) : descent piece = 1 := by
  simp [descent, h.ne_nil, h.ne_dot, h.ne_up]

/-- A segment leads nowhere, up or down. -/
theorem segment_cases (piece : List Char) :
    (piece = [] ∨ piece = ['.']) ∨ piece = ['.', '.'] ∨ IsName piece := by
  by_cases hblank : piece = [] ∨ piece = ['.']
  · exact .inl hblank
  · by_cases hup : piece = ['.', '.']
    · exact .inr (.inl hup)
    · exact .inr (.inr ⟨fun h => hblank (.inl h), fun h => hblank (.inr h), hup⟩)

/-- Where a walk ends that does not leave the root. -/
theorem length_of_walk {pieces segments last : List (List Char)}
    (h : walk pieces segments = some last) : (last.length : Int) = segments.length + height pieces := by
  induction pieces generalizing segments with
  | nil =>
      cases h
      simp
  | cons piece rest ih =>
      rcases segment_cases piece with hblank | rfl | hname
      · rw [walk_blank hblank] at h
        rw [ih h, height_cons, descent_blank hblank, Int.zero_add]
      · cases segments with
        | nil => cases h
        | cons segment up =>
            have hrest : (last.length : Int) = up.length + height rest := ih h
            rw [hrest, height_cons, descent_up, List.length_cons]
            omega
      · rw [walk_name hname] at h
        rw [ih h, height_cons, descent_name hname, List.length_cons]
        omega

/-- A segment that leads up from the root is the first of a path, or comes later. -/
theorem leavesRoot_cons {piece : List Char} {rest : List (List Char)} {start : Int} :
    (∃ before after, piece :: rest = before ++ ['.', '.'] :: after ∧ start + height before = 0) ↔
      (piece = ['.', '.'] ∧ start = 0) ∨ ∃ before after, rest = before ++ ['.', '.'] :: after ∧
        start + descent piece + height before = 0 := by
  constructor
  · rintro ⟨before, after, heq, hheight⟩
    cases before with
    | nil =>
        obtain ⟨rfl, -⟩ := List.cons.inj heq
        exact .inl ⟨rfl, by simpa using hheight⟩
    | cons first before =>
        obtain ⟨rfl, rfl⟩ := List.cons.inj heq
        exact .inr ⟨before, after, rfl, by rw [← hheight, height_cons, Int.add_assoc]⟩
  · rintro (⟨rfl, hstart⟩ | ⟨before, after, rfl, hheight⟩)
    · exact ⟨[], rest, rfl, by simpa using hstart⟩
    · exact ⟨piece :: before, after, rfl, by rw [height_cons, ← Int.add_assoc, hheight]⟩

/-- The walk leaves the root at the first segment that leads up from it. -/
theorem walk_eq_none_iff {pieces segments : List (List Char)} :
    walk pieces segments = none ↔ ∃ before after, pieces = before ++ ['.', '.'] :: after ∧
      (segments.length : Int) + height before = 0 := by
  induction pieces generalizing segments with
  | nil => simp [walk]
  | cons piece rest ih =>
      rw [leavesRoot_cons]
      rcases segment_cases piece with hblank | rfl | hname
      · have hne : piece ≠ ['.', '.'] := by
          rcases hblank with rfl | rfl <;> decide
        simp [walk_blank hblank, ih, descent_blank hblank, hne]
      · cases segments with
        | nil => simp [walk]
        | cons segment up =>
            have hup : walk (['.', '.'] :: rest) (segment :: up) = walk rest up := rfl
            have hpos : ((segment :: up).length : Int) ≠ 0 := by simp; omega
            have hstart : ((segment :: up).length : Int) + descent ['.', '.'] = up.length := by
              rw [descent_up, List.length_cons]
              omega
            simp only [hup, ih, hpos, hstart, and_false, false_or]
      · have hstart : (segments.length : Int) + descent piece = (piece :: segments).length := by
          rw [descent_name hname, List.length_cons]
          omega
        simp only [walk_name hname, ih, hname.ne_up, hstart, false_and, false_or]

theorem walk_names {names : List (List Char)} (h : ∀ name ∈ names, IsName name)
    (rest segments : List (List Char)) :
    walk (names ++ rest) segments = walk rest (names.reverse ++ segments) := by
  induction names generalizing segments with
  | nil => rfl
  | cons name names ih =>
      obtain ⟨hname, hnames⟩ := List.forall_mem_cons.1 h
      rw [List.cons_append, walk_name hname, ih hnames, List.reverse_cons, List.append_assoc]
      rfl

theorem walk_ups (left segments rest : List (List Char)) :
    walk (List.replicate left.length ['.', '.'] ++ rest) (left ++ segments) = walk rest segments := by
  induction left with
  | nil => rfl
  | cons segment left ih => exact ih

/-- The segments that are left at the end of a walk are those it began with and names on the way. -/
theorem mem_of_walk {pieces segments last : List (List Char)} (h : walk pieces segments = some last) :
    ∀ segment ∈ last, segment ∈ segments ∨ segment ∈ pieces ∧ IsName segment := by
  induction pieces generalizing segments with
  | nil =>
      cases h
      exact fun segment hmem => .inl hmem
  | cons piece rest ih =>
      intro segment hmem
      rcases segment_cases piece with hblank | rfl | hname
      · rw [walk_blank hblank] at h
        exact (ih h segment hmem).imp_right (And.imp_left (List.mem_cons_of_mem _))
      · cases segments with
        | nil => cases h
        | cons first up =>
            exact (ih h segment hmem).imp (List.mem_cons_of_mem _)
              (And.imp_left (List.mem_cons_of_mem _))
      · rw [walk_name hname] at h
        rcases ih h segment hmem with hmem | ⟨hmem, hsegment⟩
        · rcases List.mem_cons.1 hmem with rfl | hmem
          · exact .inr ⟨List.mem_cons_self, hname⟩
          · exact .inl hmem
        · exact .inr ⟨List.mem_cons_of_mem _ hmem, hsegment⟩

/-! ## Paths with given segments -/

theorem absolute_eq_cons {segments : List (List Char)} (h : segments ≠ []) :
    absolute segments = '/' :: List.intercalate ['/'] segments := by
  induction segments with
  | nil => exact absurd rfl h
  | cons segment rest ih =>
      rw [absolute, List.flatMap_cons]
      cases rest with
      | nil => simp
      | cons next rest =>
          have hrest : List.flatMap ('/' :: ·) (next :: rest) = _ := ih (List.cons_ne_nil _ _)
          rw [hrest]
          simp

/-- The id with the given segments. -/
def ofSegments (segments : List (List Char)) : ModuleId := ⟨String.ofList (absolute segments)⟩

theorem segments_ofSegments {segments : List (List Char)} (hne : segments ≠ [])
    (hslash : ∀ segment ∈ segments, '/' ∉ segment) : (ofSegments segments).segments = segments := by
  rw [ModuleId.segments, ofSegments, String.toList_ofList, absolute_eq_cons hne, List.drop_one,
    List.tail_cons, List.splitOn_intercalate '/' hslash hne]

theorem canonical_ofSegments {segments : List (List Char)} (hne : segments ≠ [])
    (hslash : ∀ segment ∈ segments, '/' ∉ segment) (hnames : ∀ segment ∈ segments, IsName segment) :
    (ofSegments segments).Canonical := by
  refine ⟨?_, ?_⟩
  · rw [ofSegments, String.toList_ofList, absolute_eq_cons hne]
    rfl
  · rw [segments_ofSegments hne hslash]
    exact hnames

theorem segmentsOf_absolute {segments : List (List Char)}
    (hslash : ∀ segment ∈ segments, '/' ∉ segment) (hne : ∀ segment ∈ segments, segment ≠ []) :
    segmentsOf (absolute segments) = segments := by
  by_cases hnil : segments = []
  · rw [hnil]
    rfl
  · rw [absolute_eq_cons hnil, segmentsOf_cons, segmentsOf, List.splitOn_intercalate '/' hslash hnil,
      List.filter_eq_self]
    exact fun segment hmem => by simpa using hne segment hmem

end ModulePath

theorem ModuleId.segments_ne_nil (id : ModuleId) : id.segments ≠ [] := List.splitOn_ne_nil _ _

theorem ModuleId.slash_notMem_of_mem_segments {id : ModuleId} {segment : List Char}
    (h : segment ∈ id.segments) : '/' ∉ segment :=
  ModulePath.slash_notMem_of_mem_splitOn h

namespace ModuleId.Canonical

open ModulePath

variable {id : ModuleId}

theorem eq_ofSegments (h : id.Canonical) : id = ofSegments id.segments := by
  obtain ⟨rest, hrest⟩ := List.head?_eq_some_iff.1 h.rooted
  have hsegments : id.segments = rest.splitOn '/' := by rw [ModuleId.segments, hrest]; rfl
  have hne := id.segments_ne_nil
  cases id with
  | mk path =>
      rw [ofSegments, absolute_eq_cons hne, hsegments, List.intercalate_splitOn, ← hrest,
        String.ofList_toList]

theorem toList_path (h : id.Canonical) : id.path.toList = absolute id.segments := by
  have hpath := congrArg (fun id => id.path.toList) h.eq_ofSegments
  rw [hpath, ofSegments, String.toList_ofList]

theorem segmentsOf_path (h : id.Canonical) : segmentsOf id.path.toList = id.segments := by
  rw [h.toList_path]
  exact segmentsOf_absolute (fun _ => slash_notMem_of_mem_segments)
    fun segment hmem => (h.segments segment hmem).ne_nil

end ModuleId.Canonical

namespace ModulePath

/-! ## Directories -/

theorem segmentsOf_directory_append (before : List Char) {last : List Char} (h : '/' ∉ last) :
    segmentsOf (directory (before ++ '/' :: last)) = segmentsOf before := by
  have hlast : ∀ c ∈ last.reverse, decide (c ≠ '/') = true := by
    intro c hc
    rw [List.mem_reverse] at hc
    simpa using fun heq : c = '/' => h (heq ▸ hc)
  have hdrop : ((before ++ '/' :: last).reverse.dropWhile (· ≠ '/')).drop 1 = before.reverse := by
    rw [List.reverse_append, List.reverse_cons, List.append_assoc,
      List.dropWhile_append_of_pos hlast]
    rfl
  rw [directory, hdrop]
  split
  · rename_i hnil
    rw [List.reverse_eq_nil_iff.1 hnil]
    rfl
  · rw [List.reverse_reverse]

/-- The directory of a module is the module without its last segment. -/
theorem segmentsOf_directory {id : ModuleId} (h : id.Canonical) :
    segmentsOf (directory id.path.toList) = id.segments.dropLast := by
  have hne := id.segments_ne_nil
  have hsplit := List.dropLast_append_getLast hne
  have hpath : id.path.toList =
      absolute id.segments.dropLast ++ '/' :: id.segments.getLast hne := by
    rw [h.toList_path]
    nth_rewrite 1 [← hsplit]
    simp [absolute]
  have hmem : ∀ segment ∈ id.segments.dropLast, segment ∈ id.segments :=
    fun _ hmem => List.dropLast_subset _ hmem
  rw [hpath, segmentsOf_directory_append _ (ModuleId.slash_notMem_of_mem_segments (List.getLast_mem hne)),
    segmentsOf_absolute (fun _ hs => ModuleId.slash_notMem_of_mem_segments (hmem _ hs))
      fun segment hs => (h.segments segment (hmem segment hs)).ne_nil]

/-! ## Paths seen from a module -/

theorem segmentsOf_joined (path : String) (requester : Option ModuleId) :
    segmentsOf (joined path.toList requester) = segmentsOf (seenFrom requester path).toList := by
  rw [seenFrom, joined.eq_def]
  split
  · rename_i rest hpath
    rw [if_pos (by rw [hpath]; rfl)]
  · rename_i hrelative
    have hhead : path.toList.head? ≠ some '/' := by
      intro hhead
      obtain ⟨rest, hrest⟩ := List.head?_eq_some_iff.1 hhead
      exact hrelative rest hrest
    rw [if_neg hhead, segmentsOf_append, segmentsOf_trimSlashes, String.toList_append,
      String.toList_append, List.append_assoc]
    cases requester with
    | none => rfl
    | some id =>
        rw [Option.elim_some, ModuleId.directory, String.toList_ofList]
        exact (segmentsOf_append _ _).symm

theorem walk_joined (path : String) (requester : Option ModuleId) :
    walk (pieces (joined path.toList requester)) [] = walk (route requester path) [] := by
  rw [← walk_segmentsOf, segmentsOf_joined, walk_segmentsOf, pieces_eq_splitOn, route]

theorem normalize_eq_ok_iff {path : String} {requester : Option ModuleId} {id : ModuleId} :
    normalize path requester = .ok id ↔ path ≠ "" ∧ ∃ segments, segments ≠ [] ∧
      walk (route requester path) [] = some segments ∧ id = ofSegments segments.reverse := by
  rw [normalize, walk_joined]
  by_cases hpath : path = ""
  · simp [hpath]
  · rw [if_neg (by simpa using hpath)]
    cases hwalk : walk (route requester path) [] with
    | none => simp
    | some segments =>
        cases segments with
        | nil => simp
        | cons segment segments =>
            simp only [ofSegments]
            constructor
            · intro h
              cases h
              exact ⟨hpath, _, List.cons_ne_nil _ _, rfl, rfl⟩
            · rintro ⟨-, _, -, h, rfl⟩
              cases h
              rfl

theorem escapes_route_iff {path : String} {requester : Option ModuleId} :
    Escapes (route requester path) ↔ walk (route requester path) [] = none := by
  rw [walk_eq_none_iff]
  simp [Escapes]

theorem normalize_of_refused {path : String} {requester : Option ModuleId} {cause : ContractFault}
    (h : Refused requester path cause) : normalize path requester = .error (.of (.contract cause)) := by
  rw [normalize, walk_joined]
  cases h with
  | empty hpath => rw [if_pos (by simpa using hpath)]
  | escapes hpath hescapes => rw [if_neg (by simpa using hpath), escapes_route_iff.1 hescapes]
  | nothing hpath hstays hheight =>
      rw [if_neg (by simpa using hpath)]
      cases hwalk : walk (route requester path) [] with
      | none => exact absurd (escapes_route_iff.2 hwalk) hstays
      | some segments =>
          have hlength := length_of_walk hwalk
          obtain rfl : segments = [] := by
            rw [← List.length_eq_zero_iff]
            simp only [List.length_nil] at hlength
            omega
          rfl

theorem normalize_eq_error_iff {path : String} {requester : Option ModuleId} {e : Error} :
    normalize path requester = .error e ↔
      ∃ cause, Refused requester path cause ∧ e = .of (.contract cause) := by
  constructor
  · intro h
    rw [normalize, walk_joined] at h
    by_cases hpath : path = ""
    · rw [if_pos (by simpa using hpath)] at h
      cases h
      exact ⟨_, .empty hpath, rfl⟩
    · rw [if_neg (by simpa using hpath)] at h
      -- The walk fails just if it escapes, and ends at the root just if the height is zero.
      cases hwalk : walk (route requester path) [] with
      | none =>
          rw [hwalk] at h
          cases h
          exact ⟨_, .escapes hpath (escapes_route_iff.2 hwalk), rfl⟩
      | some segments =>
          have hstays : ¬Escapes (route requester path) := by
            rw [escapes_route_iff, hwalk]
            exact Option.some_ne_none segments
          rw [hwalk] at h
          cases segments with
          | nil =>
              have hheight : height (route requester path) = 0 := by
                simpa using (length_of_walk hwalk).symm
              cases h
              exact ⟨_, .nothing hpath hstays hheight, rfl⟩
          | cons segment segments => cases h
  · rintro ⟨cause, hrefused, rfl⟩
    exact normalize_of_refused hrefused

/-! ## The canonical form -/

theorem walk_route (path : String) (requester : Option ModuleId) :
    walk (route requester path) [] = walk (segmentsOf (seenFrom requester path).toList) [] := by
  rw [walk_segmentsOf, pieces_eq_splitOn, route]

theorem canonical_of_normalize {path : String} {requester : Option ModuleId} {id : ModuleId}
    (h : normalize path requester = .ok id) : id.Canonical := by
  obtain ⟨-, segments, hne, hwalk, rfl⟩ := normalize_eq_ok_iff.1 h
  have hsegments : ∀ segment ∈ segments.reverse, '/' ∉ segment ∧ IsName segment := by
    intro segment hmem
    rcases mem_of_walk hwalk segment (List.mem_reverse.1 hmem) with hmem | ⟨hmem, hname⟩
    · cases hmem
    · exact ⟨slash_notMem_of_mem_splitOn hmem, hname⟩
  exact canonical_ofSegments (by simpa using hne) (fun segment hmem => (hsegments segment hmem).1)
    fun segment hmem => (hsegments segment hmem).2

/-- A canonical id names itself, whoever asks for it. -/
theorem normalize_path {id : ModuleId} (h : id.Canonical) (requester : Option ModuleId) :
    normalize id.path requester = .ok id := by
  have hseen : seenFrom requester id.path = id.path := if_pos h.rooted
  have hne : id.path ≠ "" := by
    intro hempty
    have hrooted := h.rooted
    rw [hempty] at hrooted
    cases hrooted
  have hwalk : walk (route requester id.path) [] = some id.segments.reverse := by
    have hnames := walk_names h.segments [] []
    rw [List.append_nil, List.append_nil] at hnames
    rw [walk_route, hseen, h.segmentsOf_path, hnames]
    rfl
  rw [normalize_eq_ok_iff]
  refine ⟨hne, id.segments.reverse, ?_, hwalk, ?_⟩
  · simpa using id.segments_ne_nil
  · rw [List.reverse_reverse]
    exact h.eq_ofSegments

theorem segmentsOf_seenFrom_none (path : String) :
    segmentsOf (seenFrom none path).toList = segmentsOf path.toList := by
  rw [seenFrom]
  split
  · rfl
  · rw [String.toList_append, String.toList_append]
    exact (segmentsOf_cons _).trans (segmentsOf_cons _)

/-- A relative path names what the directory of the requester followed by the path names. -/
theorem normalize_relative {path : String} {requester id : ModuleId}
    (hrelative : path.toList.head? ≠ some '/') :
    normalize path (some requester) = .ok id ↔
      path ≠ "" ∧ normalize (requester.directory ++ "/" ++ path) none = .ok id := by
  have hseen : seenFrom (some requester) path = requester.directory ++ "/" ++ path :=
    if_neg hrelative
  have hjoined : requester.directory ++ "/" ++ path ≠ "" := by
    intro hempty
    have hchars := congrArg String.toList hempty
    rw [String.toList_append, String.toList_append] at hchars
    simp at hchars
  rw [normalize_eq_ok_iff, normalize_eq_ok_iff, walk_route, walk_route, segmentsOf_seenFrom_none,
    hseen, and_iff_right hjoined]

/-- The segments of the path from one module to another. -/
theorem splitOn_relativePath {a b : ModuleId} :
    (relativePath a b).toList.splitOn '/' =
      List.replicate (a.segments.length - 1) ['.', '.'] ++ b.segments := by
  rw [relativePath, String.toList_ofList]
  refine List.splitOn_intercalate '/' ?_ ?_
  · intro segment hmem
    rcases List.mem_append.1 hmem with hmem | hmem
    · rw [List.eq_of_mem_replicate hmem]
      decide
    · exact ModuleId.slash_notMem_of_mem_segments hmem
  · simp [b.segments_ne_nil]

theorem ne_nil_of_mem_splitOn_relativePath {a b : ModuleId} (hb : b.Canonical) :
    ∀ segment ∈ (relativePath a b).toList.splitOn '/', segment ≠ [] := by
  rw [splitOn_relativePath]
  intro segment hmem
  rcases List.mem_append.1 hmem with hmem | hmem
  · rw [List.eq_of_mem_replicate hmem]
    decide
  · exact (hb.segments segment hmem).ne_nil

theorem head?_relativePath {a b : ModuleId} (hb : b.Canonical) :
    (relativePath a b).toList.head? ≠ some '/' := by
  have hnonempty := ne_nil_of_mem_splitOn_relativePath (a := a) hb
  intro hhead
  obtain ⟨rest, hrest⟩ := List.head?_eq_some_iff.1 hhead
  rw [hrest, List.splitOn_cons_eq_if_modifyHead, if_pos (beq_self_eq_true _)] at hnonempty
  exact hnonempty [] List.mem_cons_self rfl

/-- First the way to the directory of the one module, then as many steps up, then the other one. -/
theorem segmentsOf_seenFrom_relativePath {a b : ModuleId} (ha : a.Canonical) (hb : b.Canonical) :
    segmentsOf (seenFrom (some a) (relativePath a b)).toList = a.segments.dropLast ++
      (List.replicate a.segments.dropLast.reverse.length ['.', '.'] ++ b.segments) := by
  have hnonempty := ne_nil_of_mem_splitOn_relativePath (a := a) hb
  rw [seenFrom, if_neg (head?_relativePath hb), Option.elim_some, String.toList_append,
    String.toList_append, List.append_assoc, ModuleId.directory, String.toList_ofList]
  refine (segmentsOf_append _ _).trans ?_
  rw [segmentsOf_directory ha, List.length_reverse, List.length_dropLast, ← splitOn_relativePath,
    segmentsOf, List.filter_eq_self.2 fun segment hmem => by simpa using hnonempty segment hmem]
  rfl

theorem normalize_relativePath {a b : ModuleId} (ha : a.Canonical) (hb : b.Canonical) :
    normalize (relativePath a b) (some a) = .ok b := by
  have hne : relativePath a b ≠ "" := by
    intro hempty
    have hnonempty := ne_nil_of_mem_splitOn_relativePath (a := a) hb
    rw [hempty] at hnonempty
    exact hnonempty [] (by simp) rfl
  have hwalk : walk (route (some a) (relativePath a b)) [] = some b.segments.reverse := by
    have hinit : ∀ name ∈ a.segments.dropLast, IsName name :=
      fun name hmem => ha.segments name (List.dropLast_subset _ hmem)
    have hnames := walk_names hb.segments [] []
    rw [List.append_nil, List.append_nil] at hnames
    rw [walk_route, segmentsOf_seenFrom_relativePath ha hb, walk_names hinit, walk_ups, hnames]
    rfl
  rw [normalize_eq_ok_iff]
  refine ⟨hne, b.segments.reverse, ?_, hwalk, ?_⟩
  · simpa using b.segments_ne_nil
  · rw [List.reverse_reverse]
    exact hb.eq_ofSegments

/-- **Paths have a canonical form.**  A path is refused, with the cause, if it is empty, if it leads
up from the root or if no segment remains; otherwise it names a canonical id, which names itself from
everywhere.  A relative path is taken from the directory of the requester, and every module can be
named from every other one. -/
theorem module_paths_canonical :
    (∀ path requester e, normalize path requester = .error e ↔
      ∃ cause, Refused requester path cause ∧ e = .of (.contract cause)) ∧
    (∀ path requester id, normalize path requester = .ok id →
      id.Canonical ∧ ∀ requester', normalize id.path requester' = .ok id) ∧
    (∀ path requester id, path.toList.head? ≠ some '/' →
      (normalize path (some requester) = .ok id ↔
        path ≠ "" ∧ normalize (requester.directory ++ "/" ++ path) none = .ok id)) ∧
    ∀ a b : ModuleId, a.Canonical → b.Canonical → normalize (relativePath a b) (some a) = .ok b := by
  refine ⟨fun _ _ _ => normalize_eq_error_iff, fun path requester id h => ?_,
    fun _ _ _ => normalize_relative, fun _ _ => normalize_relativePath⟩
  have hcanonical := canonical_of_normalize h
  exact ⟨hcanonical, normalize_path hcanonical⟩

/-- From `/shapes/tiles` the module `/util/colors` is `../util/colors`. -/
theorem module_paths_canonical_colors :
    (⟨"/shapes/tiles"⟩ : ModuleId).Canonical ∧ (⟨"/util/colors"⟩ : ModuleId).Canonical ∧
      relativePath ⟨"/shapes/tiles"⟩ ⟨"/util/colors"⟩ = "../util/colors" ∧
      normalize "../util/colors" (some ⟨"/shapes/tiles"⟩) = .ok ⟨"/util/colors"⟩ ∧
      normalize "/util/colors" (some ⟨"#%kernel"⟩) = .ok ⟨"/util/colors"⟩ ∧
      normalize "/shapes/../util/colors" none = .ok ⟨"/util/colors"⟩ := by
  have htiles : (⟨"/shapes/tiles"⟩ : ModuleId).Canonical := ⟨by decide, by decide⟩
  have hcolors : (⟨"/util/colors"⟩ : ModuleId).Canonical := ⟨by decide, by decide⟩
  have hpath : relativePath ⟨"/shapes/tiles"⟩ ⟨"/util/colors"⟩ = "../util/colors" := by decide
  obtain ⟨-, hcanonical, hrelative, hbetween⟩ := module_paths_canonical
  have hfound := hbetween _ _ htiles hcolors
  rw [hpath] at hfound
  refine ⟨htiles, hcolors, hpath, hfound, (hcanonical _ _ _ hfound).2 _, ?_⟩
  exact ((hrelative _ _ _ (by decide)).1 hfound).2

end ModulePath

end HygienicLisp
