import FlowiVfs.TreeRuns
import FlowiVfs.Watcher
import Mathlib.Data.Nat.Find
import Mathlib.Data.List.TakeWhile

/-!
# The paths of watcher changes

A change is looked for below the source directory of the mount by the first place in its
path where the source path begins a component. What follows there is taken for the path
inside the mount, whether or not the component ends where the source path does.
-/
namespace FlowiVfs.Tree

/-- `sourcePath` stands in `changePath` at `i`, and begins a component there. -/
def Occurs (changePath sourcePath : FlString) (i : ℕ) : Prop :=
  (changePath.drop i).take sourcePath.length = sourcePath ∧
    (i = 0 ∨ (changePath[i - 1]?).any isSeparator)

instance (changePath sourcePath : FlString) (i : ℕ) :
    Decidable (Occurs changePath sourcePath i) :=
  inferInstanceAs (Decidable (_ ∧ _))

def FirstOccurs (changePath sourcePath : FlString) (i : ℕ) : Prop :=
  Occurs changePath sourcePath i ∧ ∀ j < i, ¬ Occurs changePath sourcePath j

/-- A component ends at `i`. -/
def EndsComponent (changePath : FlString) (i : ℕ) : Prop :=
  changePath.drop i = [] ∨ (changePath[i]?).any isSeparator

/-- `rest` is what lies below the source directory in a path that leads into it by whole
components. -/
def LiesUnder (changePath sourcePath rest : FlString) : Prop :=
  ∃ front separators : FlString, changePath = front ++ sourcePath ++ separators ++ rest ∧
    (front = [] ∨ front.getLast?.any isSeparator) ∧ (∀ c ∈ separators, isSeparator c) ∧
    (separators = [] → rest = [])

/-! ## What the search returns -/

section
variable {changePath sourcePath : FlString}

theorem Occurs.append {i : ℕ} (h : Occurs changePath sourcePath i) :
    changePath = changePath.take i ++ sourcePath ++ changePath.drop (i + sourcePath.length) := by
  have e : changePath.drop i =
      sourcePath ++ changePath.drop (i + sourcePath.length) := by
    conv_lhs => rw [← List.take_append_drop sourcePath.length (changePath.drop i)]
    rw [h.1, List.drop_drop]
  rw [List.append_assoc, ← e, List.take_append_drop]

theorem Occurs.fits {i : ℕ} (h : Occurs changePath sourcePath i) (named : sourcePath ≠ []) :
    i + sourcePath.length ≤ changePath.length := by
  have length := congrArg List.length h.1
  have positive := List.length_pos_iff.mpr named
  simp only [List.length_take, List.length_drop] at length
  omega

theorem occurs_zero : Occurs changePath sourcePath 0 ↔ sourcePath.isPrefixOf changePath := by
  rw [List.isPrefixOf_iff_prefix, List.prefix_iff_eq_take]
  exact ⟨fun h => h.1.symm, fun h => ⟨h.symm, .inl rfl⟩⟩

theorem watcherSearch_of_first {left i j : ℕ} (first : FirstOccurs changePath sourcePath j)
    (behind : i ≤ j) (inside : j < i + left) :
    watcherSearch changePath sourcePath left i =
      (changePath.drop (j + sourcePath.length)).dropWhile isSeparator := by
  induction left generalizing i with
  | zero => omega
  | succ left ih =>
      rw [watcherSearch]
      by_cases here : Occurs changePath sourcePath i
      · have e : i = j := by
          by_contra ne
          exact first.2 i (by omega) here
        subst e
        rw [if_pos (by simpa [Occurs, and_comm] using here)]
      · rw [if_neg (by simpa [Occurs, and_comm] using here)]
        have ne : i ≠ j := fun e => here (e ▸ first.1)
        exact ih (by omega) (by omega)

theorem watcherSearch_of_none {left i : ℕ} (absent : ∀ j, ¬ Occurs changePath sourcePath j) :
    watcherSearch changePath sourcePath left i = changePath := by
  induction left generalizing i with
  | zero => rfl
  | succ left ih =>
      rw [watcherSearch, if_neg (by simpa [Occurs, and_comm] using absent i)]
      exact ih

theorem relativePath_of_first {i : ℕ} (named : sourcePath ≠ [])
    (first : FirstOccurs changePath sourcePath i) :
    vfsTreeWatcherRelativePath changePath sourcePath =
      (changePath.drop (i + sourcePath.length)).dropWhile isSeparator := by
  unfold vfsTreeWatcherRelativePath
  split_ifs with starts short
  · have zero : i = 0 := by
      by_contra ne
      exact first.2 0 (by omega) (occurs_zero.mpr starts)
    rw [zero, Nat.zero_add]
  · have fits := first.1.fits named
    have zero : i = 0 := by
      rcases short with empty | short
      · exact absurd empty named
      · omega
    exact absurd (occurs_zero.mp (zero ▸ first.1)) starts
  · have fits := first.1.fits named
    exact watcherSearch_of_first first (Nat.zero_le i) (by omega)

theorem relativePath_of_none (absent : ∀ i, ¬ Occurs changePath sourcePath i) :
    vfsTreeWatcherRelativePath changePath sourcePath = changePath := by
  unfold vfsTreeWatcherRelativePath
  rw [if_neg fun starts => absent 0 (occurs_zero.mpr starts)]
  split_ifs
  · rfl
  · exact watcherSearch_of_none absent

theorem exists_firstOccurs {i : ℕ} (h : Occurs changePath sourcePath i) :
    ∃ j, FirstOccurs changePath sourcePath j :=
  ⟨Nat.find ⟨i, h⟩, Nat.find_spec ⟨i, h⟩, fun _ => Nat.find_min ⟨i, h⟩⟩

theorem endsComponent_iff {i : ℕ} :
    EndsComponent changePath i ↔
      changePath.drop i = [] ∨ (changePath.drop i).takeWhile isSeparator ≠ [] := by
  unfold EndsComponent
  rw [← List.head?_drop]
  cases changePath.drop i with
  | nil => simp
  | cons c rest => by_cases h : isSeparator c <;> simp [h]

/-- A path that leads into the source directory has it at the front of a component. -/
theorem LiesUnder.occurs {rest : FlString} (h : LiesUnder changePath sourcePath rest) :
    ∃ i, Occurs changePath sourcePath i := by
  obtain ⟨front, separators, rfl, starts, -, -⟩ := h
  refine ⟨front.length, ?_, ?_⟩
  · simp
  · rcases starts with rfl | ends
    · exact .inl rfl
    · refine .inr ?_
      have ne : front ≠ [] := by
        rintro rfl
        simp at ends
      have positive := List.length_pos_iff.mpr ne
      rw [List.getLast?_eq_getElem?] at ends
      rw [List.append_assoc, List.append_assoc, List.getElem?_append_left (by omega)]
      exact ends

/-- What follows the first place lies under the source directory exactly when the
component ends there. -/
theorem FirstOccurs.liesUnder {i : ℕ} (first : FirstOccurs changePath sourcePath i)
    (ends : EndsComponent changePath (i + sourcePath.length)) :
    LiesUnder changePath sourcePath
      ((changePath.drop (i + sourcePath.length)).dropWhile isSeparator) := by
  refine ⟨changePath.take i, (changePath.drop (i + sourcePath.length)).takeWhile isSeparator,
    ?_, ?_, fun c hc => List.mem_takeWhile_imp hc, fun none => ?_⟩
  · rw [List.append_assoc _ (List.takeWhile ..), List.takeWhile_append_dropWhile]
    exact first.1.append
  · rcases first.1.2 with rfl | preceded
    · exact .inl rfl
    · by_cases zero : i = 0
      · exact .inl (by rw [zero, List.take_zero])
      · refine .inr ?_
        have inside : i - 1 < changePath.length := by
          by_contra out
          rw [List.getElem?_eq_none (by omega)] at preceded
          cases preceded
        have length : (changePath.take i).length = i := by
          rw [List.length_take]
          omega
        rw [List.getLast?_eq_getElem?, length, List.getElem?_take_of_lt (by omega)]
        exact preceded
  · rcases endsComponent_iff.mp ends with empty | some
    · rw [empty]
      rfl
    · exact absurd none some

theorem FirstOccurs.endsComponent {i : ℕ} (first : FirstOccurs changePath sourcePath i)
    (named : sourcePath ≠ []) (bare : ¬ sourcePath.getLast?.any isSeparator)
    (lies : LiesUnder changePath sourcePath
      ((changePath.drop (i + sourcePath.length)).dropWhile isSeparator)) :
    EndsComponent changePath (i + sourcePath.length) := by
  rw [endsComponent_iff]
  by_contra open_
  obtain ⟨nonempty, none⟩ := not_or.mp open_
  have none := not_not.mp none
  have whole := List.takeWhile_append_dropWhile (p := isSeparator)
    (l := changePath.drop (i + sourcePath.length))
  rw [none, List.nil_append] at whole
  rw [whole] at lies
  obtain ⟨front, separators, split, -, areSeparators, bounded⟩ := lies
  have same : changePath.take i ++ sourcePath = front ++ sourcePath ++ separators :=
    List.append_cancel_right (first.1.append.symm.trans split)
  have some : separators ≠ [] := fun e => nonempty (bounded e)
  have last := congrArg List.getLast? same
  rw [List.getLast?_append_of_ne_nil _ named, List.getLast?_append_of_ne_nil _ some] at last
  refine bare ?_
  rw [last, List.getLast?_eq_some_getLast some]
  exact areSeparators _ (List.getLast_mem some)

end

/-! ## Changes of a mount -/

section
variable (paths : PathLibrary) (m : FlVfsMount) (change : FileChange)

/-- The source path is matched on whole components only, and a deletion outside the
source directory leaves the mount as it is. -/
structure MatchesComponents : Prop where
  matched : ∀ rest, vfsTreeWatcherRelativePath change.path m.sourcePath = rest →
    rest ≠ change.path → LiesUnder change.path m.sourcePath rest
  spared : change.deleted → (∀ rest, ¬ LiesUnder change.path m.sourcePath rest) →
    processChange paths change m = some m

/-- The tree has no node below its root at the path. -/
def NoNodeAt (path : FlString) : Prop :=
  path = [] ∨ m.tree.findPath m.tree.root (paths.components path) = some none ∨
    m.tree.findPath m.tree.root (paths.components path) = some (some m.tree.root)

/-- A component ends behind the first place of the source path in the changed path; and
where there is none, a deleted path is not taken for one of the mount. -/
structure SourceBounded : Prop where
  ends : ∀ i, FirstOccurs change.path m.sourcePath i →
    EndsComponent change.path (i + m.sourcePath.length)
  absent : change.deleted → (∀ i, ¬ Occurs change.path m.sourcePath i) →
    NoNodeAt paths m change.path

end

theorem processChange_spared {paths : PathLibrary} {m : FlVfsMount} {change : FileChange}
    {w : Linked.Forest NodePtr} (shaped : Shaped m.tree w) (deleted : change.deleted)
    (unchanged : vfsTreeWatcherRelativePath change.path m.sourcePath = change.path) :
    processChange paths change m = some m ↔ NoNodeAt paths m change.path := by
  unfold processChange
  rw [if_neg (not_not_intro deleted), unchanged]
  simp only
  rcases shaped.removeByPath paths change.path with
    ⟨refused, same⟩ | ⟨p, n, t', nonempty, found, notRoot, hn, removed, pruned, -⟩
  · refine iff_of_true ?_ refused
    rw [same]
    split_ifs <;> rfl
  · rw [if_neg nonempty, removed]
    refine iff_of_false (fun e => ?_) fun none => ?_
    · have tree : t' = m.tree := congrArg FlVfsMount.tree (Option.some.inj e)
      have gone := pruned.gone p List.mem_cons_self
      rw [tree, hn] at gone
      cases gone
    · rcases none with empty | missing | root
      · exact nonempty empty
      · rw [found] at missing
        cases missing
      · rw [found] at root
        exact notRoot (Option.some.inj (Option.some.inj root))

/-- On every mount that tree operations can reach, and for every change of a watcher. -/
theorem watcher_matches_iff {natural : NaturalCompare} {paths : PathLibrary} {s : MountState}
    {m : FlVfsMount} {change : FileChange} (reached : Reaches natural paths s)
    (tree : m.tree = s.tree) (named : m.sourcePath ≠ [])
    (bare : ¬ m.sourcePath.getLast?.any isSeparator) :
    MatchesComponents paths m change ↔ SourceBounded paths m change := by
  obtain ⟨w, sound⟩ := reached.sound
  have shaped : Shaped m.tree w := tree ▸ sound.shaped
  constructor
  · rintro ⟨matched, spared⟩
    refine ⟨fun i first => ?_, fun deleted absent => ?_⟩
    · have relative := relativePath_of_first named first
      refine first.endsComponent named bare (matched _ relative fun e => ?_)
      have shorter := (List.dropWhile_sublist isSeparator
        (l := change.path.drop (i + m.sourcePath.length))).length_le
      have positive := List.length_pos_iff.mpr named
      have fits := first.1.fits named
      rw [e, List.length_drop] at shorter
      omega
    · refine (processChange_spared shaped deleted (relativePath_of_none absent)).mp ?_
      exact spared deleted fun rest lies => lies.occurs.elim fun i h => absent i h
  · rintro ⟨ends, absent⟩
    refine ⟨fun rest relative proper => ?_, fun deleted outside => ?_⟩
    · by_cases somewhere : ∃ i, Occurs change.path m.sourcePath i
      · obtain ⟨i, first⟩ := exists_firstOccurs somewhere.choose_spec
        rw [← relative, relativePath_of_first named first]
        exact first.liesUnder (ends i first)
      · have nowhere := not_exists.mp somewhere
        exact absurd (relative.symm.trans (relativePath_of_none nowhere)) proper
    · have nowhere : ∀ i, ¬ Occurs change.path m.sourcePath i := fun i h => by
        obtain ⟨j, first⟩ := exists_firstOccurs h
        exact outside _ (first.liesUnder (ends j first))
      exact (processChange_spared shaped deleted (relativePath_of_none nowhere)).mpr
        (absent deleted nowhere)

/-! ## A sibling of the source directory -/

/-- The source directory is `s`, and holds the file `2`. -/
def siblingMount : FlVfsMount where
  tree := ((TreeOp.ensureChild 0 ['2'] false 1).run (fun _ _ => 0) letters
    (MountState.mounted 0 [] none []).tree).getD (MountState.mounted 0 [] none []).tree
  sourcePath := ['s']

theorem siblingMount_reached :
    ∃ s, Reaches (fun _ _ => 0) letters s ∧ siblingMount.tree = s.tree := by
  have run : (TreeOp.ensureChild 0 ['2'] false 1).run (fun _ _ => 0) letters
      (MountState.mounted 0 [] none []).tree = some siblingMount.tree := rfl
  have fits : (TreeOp.ensureChild 0 ['2'] false 1).Fits (.mounted 0 [] none []) := rfl
  exact ⟨_, .step (.mounted 0 [] none []) fits run, rfl⟩

/-- The deletion of `s/2`, which is inside. -/
theorem watcher_matches_inside :
    MatchesComponents letters siblingMount ⟨['s', '/', '2'], true⟩ := by
  obtain ⟨s, reached, tree⟩ := siblingMount_reached
  refine (watcher_matches_iff reached tree (by decide) (by decide)).mpr ⟨fun i first => ?_, ?_⟩
  · have zero : i = 0 := by
      by_contra ne
      exact first.2 0 (by omega) (by decide)
    subst zero
    exact .inr (by decide)
  · exact fun _ absent => absurd (by decide : Occurs ['s', '/', '2'] ['s'] 0) (absent 0)

/-- The deletion of `s2`, a sibling of the source directory, removes the file `2` in it. -/
theorem watcher_matches_sibling :
    ¬ MatchesComponents letters siblingMount ⟨['s', '2'], true⟩ ∧
      ((processChange letters ⟨['s', '2'], true⟩ siblingMount).map fun m => m.tree.freed) =
        some [1] := by
  refine ⟨fun h => ?_, by decide⟩
  obtain ⟨front, separators, split, -, -, bounded⟩ := h.matched ['2'] (by decide) (by decide)
  have length := congrArg List.length split
  simp only [siblingMount, List.length_append, List.length_cons, List.length_nil] at length
  have none : separators = [] := List.length_eq_zero_iff.mp (by omega)
  cases bounded none

end FlowiVfs.Tree
