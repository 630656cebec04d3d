import FlowiVfs.Drivers
import Mathlib.Data.List.Infix
import Mathlib.Data.List.TakeWhile

/-!
# Listing an archive

What the archive drivers share: the entries of an archive are cached in the order in which
its reader reports them, and the children of a directory are found by the paths of the
cached entries. The first entry at or below a path decides what a listing says about it.
-/
namespace FlowiVfs.Archive

open FlowiVfs.Tree

/-- A string that ends at its first NUL character. -/
structure CString where
  chars : List Char
  ends : '\x00' ∉ chars
deriving DecidableEq

/-- `string_to_cstr` behind which `strcmp` and `strncmp` look. -/
def stringToCstr (s : FlString) : List Char := s.takeWhile (· ≠ '\x00')

structure VfsCachedEntry where
  path : FlString
  size : ℤ
  isDirectory : Bool
deriving DecidableEq

def vfsArchiveEntryPathMatches (entryPath : CString) (target : FlString) : Bool :=
  let targetCstr := stringToCstr target
  if entryPath.chars = targetCstr then true
  else if entryPath.chars.length = target.length + 1 ∧ entryPath.chars.getLast? = some '/' ∧
      entryPath.chars.take target.length = targetCstr.take target.length then true
  else if 0 < target.length ∧ target.getLast? = some '/' ∧
      entryPath.chars.length = target.length - 1 ∧
      entryPath.chars.take (target.length - 1) = targetCstr.take (target.length - 1) then true
  else false

/-- The filter by path prefix in `vfs_archive_list_children`. -/
def relativePath (path fullPath : FlString) : Option FlString :=
  if 0 < path.length then
    if ¬ path.isPrefixOf fullPath then none
    else if fullPath.length = path.length then none
    else if fullPath[path.length]? ≠ some '/' then none
    else some (fullPath.drop (path.length + 1))
  else some fullPath

/-- The immediate child of `path` that a cached entry lies at or below. -/
def immediateChild (path : FlString) (cached : VfsCachedEntry) : Option Entry := do
  let fullPath ← relativePath path cached.path
  let slashIdx := fullPath.findIdx? (· = '/')
  let childName := match slashIdx with
    | some i => fullPath.take i
    | none => fullPath
  let isDir := slashIdx.isSome || cached.isDirectory
  if childName.length = 0 then none
  else some { name := childName, isDirectory := isDir, size := if isDir then 0 else cached.size }

/-- The loop of `vfs_archive_list_children`. The callback keeps its own state, and says
whether to go on. -/
def listChildrenLoop {S : Type} (path : FlString) (callback : S → Entry → Bool × S) :
    List VfsCachedEntry → List FlString → S → S
  | [], _, userData => userData
  | cached :: rest, seenNames, userData =>
      match immediateChild path cached with
      | none => listChildrenLoop path callback rest seenNames userData
      | some child =>
          if child.name ∈ seenNames then listChildrenLoop path callback rest seenNames userData
          else
            let (goOn, userData) := callback userData child
            if goOn then listChildrenLoop path callback rest (seenNames ++ [child.name]) userData
            else userData

def vfsArchiveListChildren {S : Type} (entries : List VfsCachedEntry) (path : FlString)
    (callback : S → Entry → Bool × S) (userData : S) : S :=
  listChildrenLoop (if path = ".".toList then [] else path) callback entries [] userData

/-- What a callback that never stops is given. -/
def children (entries : List VfsCachedEntry) (path : FlString) : List Entry :=
  vfsArchiveListChildren entries path (fun acc entry => (true, acc ++ [entry])) []

/-- The virtual file system skips these, `vfsDirEntryCallback`. -/
def IsDot (name : FlString) : Prop := name = ".".toList ∨ name = "..".toList

instance : DecidablePred IsDot := fun _ => inferInstanceAs (Decidable (_ ∨ _))

/-- The paths that a recursive listing from the root reaches, each with the entry that it
is reported as. -/
inductive Reaches (list : FlString → List Entry) : FlString → Entry → Prop
  | root {child : Entry} (listed : child ∈ list []) (named : ¬ IsDot child.name) :
      Reaches list child.name child
  | descend {path : FlString} {parent child : Entry} (above : Reaches list path parent)
      (directory : parent.isDirectory) (listed : child ∈ list path)
      (named : ¬ IsDot child.name) : Reaches list (path ++ '/' :: child.name) child

/-- A recursive listing reaches a path as a file. -/
def ReachesFile (list : FlString → List Entry) (path : FlString) (size : ℤ) : Prop :=
  ∃ e, Reaches list path e ∧ ¬ e.isDirectory ∧ e.size = size

/-! ## The first entry at or below a path -/

/-- The entry lies at the path, or below it. -/
def AtOrBelow (path : FlString) (cached : VfsCachedEntry) : Prop :=
  cached.path = path ∨ path ++ ['/'] <+: cached.path

instance (path : FlString) : DecidablePred (AtOrBelow path) :=
  fun _ => inferInstanceAs (Decidable (_ ∨ _))

def firstAt (entries : List VfsCachedEntry) (path : FlString) : Option VfsCachedEntry :=
  entries.find? (AtOrBelow path)

/-- An entry at or below the path makes the path a directory. -/
def VfsCachedEntry.opens (path : FlString) (cached : VfsCachedEntry) : Bool :=
  cached.path ≠ path || cached.isDirectory

/-- The paths above a path. -/
def ancestors (path : FlString) : List FlString :=
  path.inits.filter fun d => path[d.length]? = some '/'

/-- The components of a path that a listing can report. -/
def Walkable (path : FlString) : Prop :=
  ∀ name ∈ path.splitOn '/', name ≠ [] ∧ ¬ IsDot name

instance : DecidablePred Walkable := fun _ => inferInstanceAs (Decidable (∀ _ ∈ _, _ ∧ _))

/-- No path above is taken by a file that comes first. -/
def Unblocked (entries : List VfsCachedEntry) (path : FlString) : Prop :=
  ∀ above ∈ ancestors path, ∀ cached ∈ firstAt entries above, cached.opens above

/-- The first entry at or below the path is a file at the path. -/
def IsFirstFile (entries : List VfsCachedEntry) (path : FlString) (size : ℤ) : Prop :=
  Walkable path ∧ Unblocked entries path ∧
    ∃ cached ∈ firstAt entries path, ¬ cached.opens path ∧ cached.size = size

/-! ## Paths -/

/-- A child's path, `path` being empty at the root. -/
def join (path name : FlString) : FlString := if path = [] then name else path ++ '/' :: name

@[simp] theorem join_nil (name : FlString) : join [] name = name := rfl

theorem join_of_ne {path : FlString} (h : path ≠ []) (name : FlString) :
    join path name = path ++ '/' :: name := if_neg h

theorem relativePath_eq_some {path fullPath rest : FlString} :
    relativePath path fullPath = some rest ↔ fullPath = join path rest := by
  unfold relativePath
  by_cases empty : path = []
  · subst empty
    simp
  · rw [if_pos (List.length_pos_iff.mpr empty), join_of_ne empty]
    constructor
    · intro h
      split_ifs at h with starts same slash
      obtain ⟨t, rfl⟩ := List.isPrefixOf_iff_prefix.mp starts
      cases t with
      | nil => exact absurd (by simp) same
      | cons c t =>
          have c_eq : c = '/' := by simpa using slash
          have t_eq : t = rest := by simpa using h
          rw [c_eq, t_eq]
    · rintro rfl
      simp

theorem mem_ancestors {path above : FlString} :
    above ∈ ancestors path ↔ ∃ rest, path = above ++ '/' :: rest := by
  unfold ancestors
  rw [List.mem_filter, List.mem_inits]
  constructor
  · rintro ⟨⟨t, rfl⟩, slash⟩
    cases t with
    | nil => simp at slash
    | cons c t =>
        have c_eq : c = '/' := by simpa using slash
        exact ⟨t, by rw [c_eq]⟩
  · rintro ⟨rest, rfl⟩
    exact ⟨List.prefix_append .., by simp⟩

theorem mem_ancestors_child {path name above : FlString} (flat : '/' ∉ name) :
    above ∈ ancestors (path ++ '/' :: name) ↔ above = path ∨ above ∈ ancestors path := by
  rw [mem_ancestors, mem_ancestors]
  constructor
  · rintro ⟨rest, e⟩
    rcases List.append_eq_append_iff.mp e with ⟨x, rfl, tail⟩ | ⟨x, rfl, tail⟩
    · cases x with
      | nil => exact .inl (by simp)
      | cons c x =>
          obtain ⟨rfl, rfl⟩ := List.cons.inj tail
          exact absurd (by simp) flat
    · cases x with
      | nil => exact .inl (by simp)
      | cons c x =>
          obtain ⟨rfl, -⟩ := List.cons.inj tail
          exact .inr ⟨x, rfl⟩
  · rintro (rfl | ⟨rest, rfl⟩)
    · exact ⟨name, rfl⟩
    · exact ⟨rest ++ '/' :: name, by simp⟩

theorem ancestors_flat {name : FlString} (flat : '/' ∉ name) : ancestors name = [] := by
  refine List.eq_nil_iff_forall_not_mem.mpr fun above h => ?_
  obtain ⟨rest, rfl⟩ := mem_ancestors.mp h
  exact flat (by simp)

theorem walkable_flat {name : FlString} (flat : '/' ∉ name) :
    Walkable name ↔ name ≠ [] ∧ ¬ IsDot name := by
  simp [Walkable, List.splitOn_eq_singleton flat]

theorem walkable_child {path name : FlString} (flat : '/' ∉ name) :
    Walkable (path ++ '/' :: name) ↔ Walkable path ∧ name ≠ [] ∧ ¬ IsDot name := by
  simp [Walkable, List.splitOn_append_cons_self, List.splitOn_eq_singleton flat, or_imp,
    forall_and]
  tauto

theorem Walkable.ne_nil {path : FlString} (h : Walkable path) : path ≠ [] := by
  rintro rfl
  exact absurd h (by decide)

theorem Walkable.ne_dot {path : FlString} (h : Walkable path) : path ≠ ".".toList := by
  rintro rfl
  exact absurd h (by decide)

/-- A path is a single component, or has a last one. -/
theorem path_cases (path : FlString) :
    '/' ∉ path ∨ ∃ above name, '/' ∉ name ∧ path = above ++ '/' :: name := by
  by_cases flat : '/' ∈ path
  · obtain ⟨rest, above, e, none⟩ := List.eq_append_cons_of_mem (List.mem_reverse.mpr flat)
    refine .inr ⟨above.reverse, rest.reverse, by simpa using none, ?_⟩
    have e' := congrArg List.reverse e
    simpa using e'
  · exact .inl flat

/-! ## The children of a directory -/

/-- What a listing says about a path whose first entry is `cached`. -/
def VfsCachedEntry.reported (name path : FlString) (cached : VfsCachedEntry) : Entry :=
  { name := name
    isDirectory := cached.opens path
    size := if cached.opens path then 0 else cached.size }

theorem join_inj {path a b : FlString} (h : join path a = join path b) : a = b := by
  unfold join at h
  split_ifs at h
  · exact h
  · exact (List.cons.inj (List.append_cancel_left h)).2

theorem join_append (path name rest : FlString) : join path (name ++ rest) = join path name ++ rest := by
  unfold join
  split_ifs
  · rfl
  · simp

theorem slashIdx_flat {name : FlString} (flat : '/' ∉ name) :
    name.findIdx? (· = '/') = none := by
  refine List.findIdx?_eq_none_iff.mpr fun c h => ?_
  simpa using fun e : c = '/' => flat (e ▸ h)

theorem slashIdx_below {name : FlString} (rest : FlString) (flat : '/' ∉ name) :
    (name ++ '/' :: rest).findIdx? (· = '/') = some name.length := by
  rw [List.findIdx?_append, slashIdx_flat flat]
  simp [List.findIdx?_cons]

theorem atOrBelow_join {path name : FlString} {cached : VfsCachedEntry} :
    AtOrBelow (join path name) cached ↔
      ∃ rest, relativePath path cached.path = some rest ∧ (rest = name ∨ name ++ ['/'] <+: rest) := by
  constructor
  · rintro (e | ⟨tail, e⟩)
    · exact ⟨name, relativePath_eq_some.mpr e, .inl rfl⟩
    · rw [← join_append, ← join_append] at e
      exact ⟨_, relativePath_eq_some.mpr e.symm, .inr ⟨tail, rfl⟩⟩
  · rintro ⟨rest, relative, rfl | ⟨tail, rfl⟩⟩
    · exact .inl (relativePath_eq_some.mp relative)
    · refine .inr ⟨tail, ?_⟩
      rw [← join_append, ← join_append]
      exact (relativePath_eq_some.mp relative).symm

theorem opens_join {path name rest : FlString} {cached : VfsCachedEntry}
    (relative : relativePath path cached.path = some rest) :
    cached.opens (join path name) = (rest ≠ name || cached.isDirectory) := by
  have at_rest := relativePath_eq_some.mp relative
  have same : cached.path = join path name ↔ rest = name := by
    rw [at_rest]
    exact ⟨join_inj, congrArg _⟩
  simp [VfsCachedEntry.opens, same]

theorem takeWhile_flat {name : FlString} (flat : '/' ∉ name) :
    name.takeWhile (· ≠ '/') = name :=
  List.takeWhile_eq_self_iff.mpr fun c h => by simpa using fun e : c = '/' => flat (e ▸ h)

theorem takeWhile_below {name : FlString} (tail : FlString) (flat : '/' ∉ name) :
    (name ++ '/' :: tail).takeWhile (· ≠ '/') = name := by
  rw [List.takeWhile_append, takeWhile_flat flat]
  simp

/-- The first component decides which name a path lies at or below. -/
theorem name_eq_takeWhile {name rest : FlString} (flat : '/' ∉ name)
    (h : rest = name ∨ name ++ ['/'] <+: rest) : name = rest.takeWhile (· ≠ '/') := by
  rcases h with rfl | ⟨tail, rfl⟩
  · exact (takeWhile_flat flat).symm
  · rw [List.append_assoc]
    exact (takeWhile_below tail flat).symm

theorem immediateChild_flat {path rest : FlString} {cached : VfsCachedEntry}
    (relative : relativePath path cached.path = some rest) (flat : '/' ∉ rest) :
    immediateChild path cached =
      if rest = [] then none else some (cached.reported rest (join path rest)) := by
  simp only [immediateChild, relative, Option.bind_eq_bind, Option.bind_some, slashIdx_flat flat]
  simp [VfsCachedEntry.reported, opens_join relative]

theorem immediateChild_below {path name tail : FlString} {cached : VfsCachedEntry}
    (relative : relativePath path cached.path = some (name ++ '/' :: tail))
    (flat : '/' ∉ name) :
    immediateChild path cached =
      if name = [] then none else some (cached.reported name (join path name)) := by
  simp only [immediateChild, relative, Option.bind_eq_bind, Option.bind_some,
    slashIdx_below tail flat]
  simp [VfsCachedEntry.reported, opens_join relative]

theorem immediateChild_eq_some {path : FlString} {cached : VfsCachedEntry} {e : Entry} :
    immediateChild path cached = some e ↔
      e.name ≠ [] ∧ '/' ∉ e.name ∧ AtOrBelow (join path e.name) cached ∧
        e = cached.reported e.name (join path e.name) := by
  rw [atOrBelow_join]
  cases relative : relativePath path cached.path with
  | none => simp [immediateChild, relative]
  | some rest =>
      obtain ⟨name, flat, lies, child⟩ : ∃ name, '/' ∉ name ∧ (rest = name ∨ name ++ ['/'] <+: rest) ∧
          immediateChild path cached =
            if name = [] then none else some (cached.reported name (join path name)) := by
        by_cases slash : '/' ∈ rest
        · obtain ⟨name, tail, rfl, flat⟩ := List.eq_append_cons_of_mem slash
          exact ⟨name, flat, .inr ⟨tail, by simp⟩, immediateChild_below relative flat⟩
        · exact ⟨rest, slash, .inl rfl, immediateChild_flat relative slash⟩
      rw [child]
      constructor
      · intro h
        split_ifs at h with empty
        cases h
        exact ⟨empty, flat, ⟨rest, rfl, lies⟩, rfl⟩
      · rintro ⟨named, flatName, ⟨_, ⟨rfl⟩, liesName⟩, reported⟩
        have same : name = e.name :=
          (name_eq_takeWhile flat lies).trans (name_eq_takeWhile flatName liesName).symm
        rw [same, if_neg named]
        exact congrArg some reported.symm

/-- The loop reports a name once, as the first entry that has it says. -/
theorem mem_listChildrenLoop {path : FlString} {e : Entry} (entries : List VfsCachedEntry)
    (seenNames : List FlString) (acc : List Entry) :
    e ∈ listChildrenLoop path (fun acc entry => (true, acc ++ [entry])) entries seenNames acc ↔
      e ∈ acc ∨ e.name ∉ seenNames ∧
        entries.findSome? (fun cached => (immediateChild path cached).filter (·.name = e.name)) =
          some e := by
  induction entries generalizing seenNames acc with
  | nil => simp [listChildrenLoop]
  | cons cached rest ih =>
      cases child : immediateChild path cached with
      | none => simp [listChildrenLoop, child, ih]
      | some found =>
          by_cases same : found.name = e.name
          · by_cases seen : found.name ∈ seenNames
            · have seenName : e.name ∈ seenNames := same ▸ seen
              simp [listChildrenLoop, child, ih, seen, seenName]
            · have fresh : e.name ∉ seenNames := same ▸ seen
              have flip : e = found ↔ found = e := eq_comm
              simp [listChildrenLoop, child, ih, same, fresh, flip]
          · have other : e ≠ found := fun h => same (congrArg Entry.name h.symm)
            have otherName : e.name ≠ found.name := fun h => same h.symm
            by_cases seen : found.name ∈ seenNames
            · simp [listChildrenLoop, child, ih, seen, same]
            · simp [listChildrenLoop, child, ih, seen, same, other, otherName]

theorem filter_immediateChild {path name : FlString} (named : name ≠ []) (flat : '/' ∉ name)
    (cached : VfsCachedEntry) :
    (immediateChild path cached).filter (·.name = name) =
      if AtOrBelow (join path name) cached then some (cached.reported name (join path name))
      else none := by
  ext e
  rw [Option.filter_eq_some_iff, immediateChild_eq_some]
  split_ifs with lies
  · constructor
    · rintro ⟨⟨-, -, -, e_eq⟩, e_name⟩
      have e_name : e.name = name := by simpa using e_name
      rw [e_eq, e_name]
    · rintro ⟨rfl⟩
      exact ⟨⟨named, flat, lies, rfl⟩, by simp [VfsCachedEntry.reported]⟩
  · constructor
    · rintro ⟨⟨-, -, below, -⟩, e_name⟩
      have e_name : e.name = name := by simpa using e_name
      exact absurd (e_name ▸ below) lies
    · nofun

theorem findSome?_ite {A B : Type} (p : A → Prop) [DecidablePred p] (f : A → B) (l : List A) :
    l.findSome? (fun a => if p a then some (f a) else none) = (l.find? (p ·)).map f := by
  induction l with
  | nil => rfl
  | cons a l ih =>
      by_cases h : p a
      · simp [h]
      · simp [h, ih]

theorem mem_children {entries : List VfsCachedEntry} {path : FlString} {e : Entry}
    (real : path ≠ ".".toList) :
    e ∈ children entries path ↔
      e.name ≠ [] ∧ '/' ∉ e.name ∧ ∃ cached, firstAt entries (join path e.name) = some cached ∧
        e = cached.reported e.name (join path e.name) := by
  unfold children vfsArchiveListChildren
  rw [if_neg real, mem_listChildrenLoop]
  constructor
  · rintro (h | ⟨-, h⟩)
    · cases h
    · obtain ⟨cached, -, child⟩ := List.exists_of_findSome?_eq_some h
      have named := immediateChild_eq_some.mp (Option.filter_eq_some_iff.mp child).1
      refine ⟨named.1, named.2.1, ?_⟩
      simp only [filter_immediateChild named.1 named.2.1, findSome?_ite] at h
      obtain ⟨first, found, reported⟩ := Option.map_eq_some_iff.mp h
      exact ⟨first, found, reported.symm⟩
  · rintro ⟨named, flat, cached, found, reported⟩
    refine .inr ⟨List.not_mem_nil, ?_⟩
    simp only [filter_immediateChild named flat, findSome?_ite]
    exact Option.map_eq_some_iff.mpr ⟨cached, found, reported.symm⟩

/-! ## What a recursive listing reaches -/

theorem Reaches.first {entries : List VfsCachedEntry} {path : FlString} {e : Entry}
    (h : Reaches (children entries) path e) :
    Walkable path ∧ Unblocked entries path ∧
      ∃ cached, firstAt entries path = some cached ∧ e = cached.reported e.name path := by
  induction h with
  | root listed named =>
      obtain ⟨nonempty, flat, first⟩ := (mem_children (by decide)).mp listed
      refine ⟨(walkable_flat flat).mpr ⟨nonempty, named⟩, ?_, first⟩
      intro above h
      rw [ancestors_flat flat] at h
      cases h
  | descend above directory listed named ih =>
      obtain ⟨walkable, unblocked, parent, found, reported⟩ := ih
      obtain ⟨nonempty, flat, first⟩ := (mem_children walkable.ne_dot).mp listed
      rw [join_of_ne walkable.ne_nil] at first
      refine ⟨(walkable_child flat).mpr ⟨walkable, nonempty, named⟩, ?_, first⟩
      intro d h
      rcases (mem_ancestors_child flat).mp h with rfl | h
      · rintro cached found'
        cases found.symm.trans found'
        rw [reported] at directory
        exact directory
      · exact unblocked d h

theorem AtOrBelow.above {above path : FlString} {cached : VfsCachedEntry}
    (h : AtOrBelow path cached) (up : above ∈ ancestors path) : AtOrBelow above cached := by
  obtain ⟨rest, rfl⟩ := mem_ancestors.mp up
  rcases h with h | ⟨t, h⟩
  · exact .inr ⟨rest, by rw [h]; simp⟩
  · exact .inr ⟨rest ++ '/' :: t, by rw [← h]; simp⟩

/-- A path under which some entry lies is reached, unless a file is in its way. -/
theorem reaches_of_first {entries : List VfsCachedEntry} (path : FlString)
    {cached : VfsCachedEntry} (walkable : Walkable path) (unblocked : Unblocked entries path)
    (found : firstAt entries path = some cached) :
    ∃ name, Reaches (children entries) path (cached.reported name path) := by
  induction n : path.length using Nat.strong_induction_on generalizing path cached with
  | _ n ih =>
      subst n
      rcases path_cases path with flat | ⟨above, name, flat, rfl⟩
      · obtain ⟨nonempty, named⟩ := (walkable_flat flat).mp walkable
        have listed : cached.reported path path ∈ children entries [] :=
          (mem_children (by decide)).mpr ⟨nonempty, flat, cached, found, rfl⟩
        exact ⟨path, Reaches.root listed named⟩
      · obtain ⟨walkableAbove, nonempty, named⟩ := (walkable_child flat).mp walkable
        have up : above ∈ ancestors (above ++ '/' :: name) :=
          (mem_ancestors_child flat).mpr (.inl rfl)
        have lies : AtOrBelow (above ++ '/' :: name) cached := by
          simpa using List.find?_some found
        obtain ⟨parent, foundAbove⟩ : ∃ parent, firstAt entries above = some parent :=
          Option.isSome_iff_exists.mp (List.find?_isSome.mpr
            ⟨cached, List.mem_of_find?_eq_some found, by simpa using lies.above up⟩)
        have unblockedAbove : Unblocked entries above := fun d h =>
          unblocked d ((mem_ancestors_child flat).mpr (.inr h))
        obtain ⟨parentName, reached⟩ :=
          ih above.length (by simp) above walkableAbove unblockedAbove foundAbove rfl
        have joined := join_of_ne walkableAbove.ne_nil name
        have listed : cached.reported name (above ++ '/' :: name) ∈ children entries above :=
          (mem_children walkableAbove.ne_dot).mpr
            ⟨nonempty, flat, cached, joined ▸ found, congrArg (cached.reported name) joined.symm⟩
        exact ⟨name, Reaches.descend reached (unblocked above up parent foundAbove) listed named⟩

theorem reachesFile_iff {entries : List VfsCachedEntry} {path : FlString} {size : ℤ} :
    ReachesFile (children entries) path size ↔ IsFirstFile entries path size := by
  constructor
  · rintro ⟨e, reached, file, rfl⟩
    obtain ⟨walkable, unblocked, cached, found, reported⟩ := reached.first
    rw [reported] at file
    refine ⟨walkable, unblocked, cached, found, file, ?_⟩
    rw [reported]
    exact (if_neg file).symm
  · rintro ⟨walkable, unblocked, cached, found, file, rfl⟩
    obtain ⟨name, reached⟩ := reaches_of_first path walkable unblocked found
    exact ⟨_, reached, file, if_neg file⟩

theorem Reaches.unique {entries : List VfsCachedEntry} {path : FlString} {a b : Entry}
    (ha : Reaches (children entries) path a) (hb : Reaches (children entries) path b) :
    a.isDirectory = b.isDirectory ∧ a.size = b.size := by
  obtain ⟨-, -, c, foundA, reportedA⟩ := ha.first
  obtain ⟨-, -, d, foundB, reportedB⟩ := hb.first
  cases foundA.symm.trans foundB
  rw [reportedA, reportedB]
  exact ⟨rfl, rfl⟩

end FlowiVfs.Archive
