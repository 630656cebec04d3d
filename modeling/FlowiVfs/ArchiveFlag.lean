import FlowiVfs.ArchiveProbing

/-!
# The archive flag of a listing and the load of a walk

A listing reports a file as an archive when some driver opens its path as a container. A
walk that goes through the file installs the first driver that opens its path and clones
the handle. On a LocalFS mount there always is one, because LocalFS itself opens every
file that exists.
-/
namespace FlowiVfs.Tree

open Program

section
variable (b : DriverBehaviour) (state : VfsState) (slots : ℕ) (source : PluginEntry)
variable (handle : Option DriverPtr) (path : FlString)

/-- A file of a LocalFS mount that exists and is not empty: the driver of the mount has a
path for it, and opens that path as a file that is no container. -/
structure RegularFile : Prop where
  registered : source ∈ state.plugins
  located : osPath b source handle path ≠ []
  taken : b.takes slots (osPath b source handle path) source = true
  plain : b.opens source (osPath b source handle path) = some false
  positive : 0 < b.size source handle path

/-- Some driver opens the path of the file as a container. -/
def OpenedByPath : Prop :=
  ∃ e ∈ state.plugins, b.opensContainer (osPath b source handle path) e = true

/-- The first driver that opens the path of the file and clones does so as a container. -/
def TakenAsContainer : Prop :=
  ∃ e, pathTaker b state slots source handle path = some e ∧
    b.opens e (osPath b source handle path) = some true

end

def HasDriver (node : NodePtr) (m : FlVfsMount) : Prop :=
  ∃ n e, m.tree.nodes node = some n ∧ n.pluginEntry = some e

section
variable {natural : NaturalCompare} {b : DriverBehaviour} {m m' m₀ m₁ : FlVfsMount}
variable {self : VfsState} {slots : ℕ} {source : PluginEntry} {handle : Option DriverPtr}
variable {path : FlString} {node : NodePtr} {n : VfsTreeNode} {w w' : WalkState}
variable {components : List FlString} {worker idx : ℕ} {forListing : Bool} {segment : FlString}
variable {flag : Bool}

theorem listed_flag {filePath : FlString}
    (run : Run (Behaves natural b) (onDrivers (vfsOpsCheckIfArchive self filePath)) m₀ flag m₁) :
    flag = true ↔ ∃ e ∈ self.plugins, b.opensContainer filePath e = true := by
  rw [checkIfArchive_flag (behaves_drivers run).2, List.any_eq_true]

theorem RegularFile.taker (file : RegularFile b self slots source handle path) :
    ∃ e c, pathTaker b self slots source handle path = some e ∧
      b.opens e (osPath b source handle path) = some c := by
  have found : (self.plugins.find? (b.takes slots (osPath b source handle path))).isSome :=
    List.find?_isSome.mpr ⟨source, file.registered, file.taken⟩
  obtain ⟨e, chosen⟩ := Option.isSome_iff_exists.mp found
  have taken : pathTaker b self slots source handle path = some e := by
    rw [pathTaker, if_neg file.located]
    exact chosen
  have takes := (pathTaker_some taken).2.2
  simp only [DriverBehaviour.takes, Bool.and_eq_true] at takes
  obtain ⟨c, opens⟩ := Option.isSome_iff_exists.mp takes.1.2
  exact ⟨e, c, taken, opens⟩

/-- Reading the driver of a node back leaves the mount alone. -/
theorem enterArchive_same {child : NodePtr}
    (run : Run (Behaves natural b) (enterArchive child worker) m w' m') : m = m' := by
  obtain ⟨view, u, reading, done⟩ := run_bind.mp run
  obtain ⟨-, rfl⟩ := run_done.mp done
  obtain ⟨fresh, read⟩ := run_call.mp reading
  obtain ⟨k, -, same⟩ := Option.bind_eq_some_iff.mp read
  cases same
  rfl

/-- A walk through a file that has no driver loads it. -/
theorem walkSegment_loads
    (file : RegularFile b self slots source w.current.handle
      (pathToCheck self components w idx (idx + 1)))
    (driver : w.current.pluginEntry = some source)
    (child : m.tree.findChildNode w.currentNode segment = some (some node))
    (hn : m.tree.nodes node = some n) (bare : n.pluginEntry = none) (plain : n.isDirectory = false)
    (run : Run (Behaves natural b)
      (walkSegment self slots components worker forListing idx segment w) m (some w') m') :
    ∃ e c, pathTaker b self slots source w.current.handle
        (pathToCheck self components w idx (idx + 1)) = some e ∧
      b.opens e (osPath b source w.current.handle
        (pathToCheck self components w idx (idx + 1))) = some c ∧ Installed b node m' c := by
  obtain ⟨found, u, looking, run⟩ := run_bind.mp run
  obtain ⟨fresh, looked⟩ := run_call.mp looking
  obtain ⟨rfl, ⟨-, missing⟩ | ⟨view, k, rfl, search, hk, kind, viewed⟩⟩ := look_spec looked
  · cases child.symm.trans missing
  · cases child.symm.trans search
    cases hn.symm.trans hk
    obtain ⟨next, v, round, done⟩ := run_bind.mp run
    obtain ⟨same, rfl⟩ := run_done.mp done
    cases same
    have undriven : view.driver.pluginEntry = none := by rw [viewed, bare]
    unfold walkChild at round
    simp only [undriven, driver, kind, plain] at round
    rw [if_neg Bool.false_ne_true] at round
    obtain ⟨size, x, sizing, round⟩ := run_bind.mp round
    obtain ⟨rfl, answer⟩ := behaves_drivers sizing
    cases run_driver.mp answer
    obtain ⟨loaded, y, loading, rest⟩ := run_bind.mp round
    obtain ⟨e, c, taken, opens⟩ := file.taker
    have ended := tryLoadAsArchive_ends_with file.positive loading
    rw [loads_byPath taken, opens] at ended
    obtain ⟨rfl, installed⟩ := ended
    cases enterArchive_same rest
    exact ⟨e, c, taken, opens, installed⟩

theorem Installed.hasDriver {c : Bool} (installed : Installed b node m c) : HasDriver node m := by
  obtain ⟨k, e, hk, he, -⟩ := installed
  exact ⟨k, e, hk, he⟩

/-- What the two probes say about the file that a round of a walk comes to. -/
theorem segment_flag_iff
    (file : RegularFile b self slots source w.current.handle
      (pathToCheck self components w idx (idx + 1)))
    (driver : w.current.pluginEntry = some source)
    (child : m.tree.findChildNode w.currentNode segment = some (some node))
    (hn : m.tree.nodes node = some n) (bare : n.pluginEntry = none) (plain : n.isDirectory = false)
    (probe : Run (Behaves natural b) (onDrivers (vfsOpsCheckIfArchive self
      (osPath b source w.current.handle (pathToCheck self components w idx (idx + 1))))) m₀ flag m₁)
    (walk : Run (Behaves natural b)
      (walkSegment self slots components worker forListing idx segment w) m (some w') m') :
    ((flag = true ↔ HasDriver node m') ↔
      OpenedByPath b self source w.current.handle
        (pathToCheck self components w idx (idx + 1))) ∧
    ((flag = true ↔ Installed b node m' true) ↔
      (OpenedByPath b self source w.current.handle
          (pathToCheck self components w idx (idx + 1)) →
        TakenAsContainer b self slots source w.current.handle
          (pathToCheck self components w idx (idx + 1)))) := by
  obtain ⟨e, c, taken, opens, installed⟩ :=
    walkSegment_loads file driver child hn bare plain walk
  have flagged := listed_flag probe
  have isContainer : Installed b node m' true ↔ c = true := by
    constructor
    · exact fun other => installed.unique other
    · intro h
      rw [← h]
      exact installed
  have first : TakenAsContainer b self slots source w.current.handle
      (pathToCheck self components w idx (idx + 1)) ↔ c = true := by
    constructor
    · intro h
      obtain ⟨e', taken', opens'⟩ := h
      cases taken.symm.trans taken'
      exact Option.some.inj (opens.symm.trans opens')
    · intro h
      exact ⟨e, taken, h ▸ opens⟩
  have opened : c = true → OpenedByPath b self source w.current.handle
      (pathToCheck self components w idx (idx + 1)) := by
    intro h
    obtain ⟨inside, -, takes⟩ := pathTaker_some taken
    simp only [DriverBehaviour.takes, Bool.and_eq_true] at takes
    refine ⟨e, inside, ?_⟩
    simp [DriverBehaviour.opensContainer, takes.1.1, opens, h]
  constructor
  · rw [flagged, iff_true_right installed.hasDriver]
    rfl
  · rw [flagged, isContainer, first]
    exact ⟨fun same => same.mp, fun some => ⟨some, opened⟩⟩

/-! ## A whole walk -/

/-- A round for a segment that names a child goes on. -/
theorem walkSegment_some {found : Option WalkState}
    (child : m.tree.findChildNode w.currentNode segment = some (some node))
    (run : Run (Behaves natural b)
      (walkSegment self slots components worker forListing idx segment w) m found m') :
    ∃ w', found = some w' := by
  obtain ⟨seen, u, looking, run⟩ := run_bind.mp run
  obtain ⟨fresh, looked⟩ := run_call.mp looking
  obtain ⟨rfl, ⟨-, missing⟩ | ⟨view, k, rfl, -⟩⟩ := look_spec looked
  · cases child.symm.trans missing
  · obtain ⟨w', v, -, done⟩ := run_bind.mp run
    exact ⟨w', (run_done.mp done).1⟩

/-- The rounds of a walk for its first segments, and those behind them. -/
theorem walkFrom_rounds {before rest : List FlString} {walked : TreeWalkResult ⊕ WalkState}
    (run : Run (Behaves natural b) (walkFrom self slots components worker forListing idx
      (before ++ rest) w) m walked m') :
    ∃ reached u, Run (Behaves natural b)
        (walkFrom self slots components worker forListing idx before w) m reached u ∧
      ∀ w₁, reached = .inr w₁ → Run (Behaves natural b) (walkFrom self slots components worker
        forListing (idx + before.length) rest w₁) u walked m' := by
  induction before generalizing idx w m with
  | nil =>
      refine ⟨.inr w, m, .done _ _, ?_⟩
      intro w₁ same
      cases same
      exact run
  | cons segment before ih =>
      obtain ⟨next, u, round, later⟩ := run_bind.mp run
      cases next with
      | none => exact ⟨_, u, run_bind.mpr ⟨none, u, round, .done _ _⟩, nofun⟩
      | some w₁ =>
          obtain ⟨reached, v, rounds, rest⟩ := ih later
          refine ⟨reached, v, run_bind.mpr ⟨some w₁, u, round, rounds⟩, ?_⟩
          intro w₂ same
          have behind := rest w₂ same
          rw [Nat.add_assoc, Nat.add_comm 1] at behind
          exact behind

/-- What the two probes say about a file of a LocalFS mount that a walk comes to behind the
segments `before`. A walk that goes through the file always loads it, so the flag agrees with
that when some driver opens it as a container. It agrees with whether the walk has installed a
container when the first driver that takes the file is such a driver, or there is none. -/
theorem archive_flag_iff {path : FlString} {before behind : List FlString} {top : VfsTreeNode}
    {result : TreeWalkResult} (inside : worker < slots)
    (root : m.tree.nodes m.tree.root = some top) (named : path ≠ [])
    (route : (if forListing then self.paths.components path
      else (self.paths.components path).dropLast) = before ++ segment :: behind)
    (walk : Run (Behaves natural b)
      (vfsTreeWalkAndResolve self slots path worker forListing) m result m') :
    ∃ reached u, Run (Behaves natural b) (walkFrom self slots (self.paths.components path) worker
        forListing 0 before ⟨m.tree.root, top.view worker, 0⟩) m reached u ∧
      ∀ w source node n filePath flag m₀ m₁, reached = .inr w →
        w.current.pluginEntry = some source →
        u.tree.findChildNode w.currentNode segment = some (some node) →
        u.tree.nodes node = some n → n.pluginEntry = none → n.isDirectory = false →
        filePath = pathToCheck self (self.paths.components path) w before.length
          (before.length + 1) →
        RegularFile b self slots source w.current.handle filePath →
        Run (Behaves natural b) (onDrivers (vfsOpsCheckIfArchive self
          (osPath b source w.current.handle filePath))) m₀ flag m₁ →
        ∃ w' v, Run (Behaves natural b) (walkSegment self slots (self.paths.components path)
            worker forListing before.length segment w) u (some w') v ∧
          Calls (Behaves natural b) (fun _ => True) v m' ∧
          ((flag = true ↔ HasDriver node v) ↔
            OpenedByPath b self source w.current.handle filePath) ∧
          ((flag = true ↔ Installed b node v true) ↔
            (OpenedByPath b self source w.current.handle filePath →
              TakenAsContainer b self slots source w.current.handle filePath)) := by
  unfold vfsTreeWalkAndResolve at walk
  rw [if_neg (Nat.not_le.mpr inside)] at walk
  obtain ⟨start, x, rooted, walk⟩ := run_bind.mp walk
  obtain ⟨fresh, looked⟩ := run_call.mp rooted
  obtain ⟨k, hk, same⟩ := Option.bind_eq_some_iff.mp looked
  cases root.symm.trans hk
  cases same
  dsimp only at walk
  rw [if_neg named, route] at walk
  obtain ⟨walked, y, rounds, final⟩ := run_bind.mp walk
  obtain ⟨reached, u, first, rest⟩ := walkFrom_rounds rounds
  refine ⟨reached, u, first, ?_⟩
  intro w source node n filePath flag m₀ m₁ here driver child hn bare plain located file probe
  subst located
  have rounds := rest w here
  rw [Nat.zero_add] at rounds
  obtain ⟨found, v, round, later⟩ := run_bind.mp rounds
  obtain ⟨w', rfl⟩ := walkSegment_some child round
  exact ⟨w', v, round, later.calls.trans final.calls,
    segment_flag_iff file driver child hn bare plain probe round⟩

/-! ## Two drivers and a file -/

/-- A walk through the file `f` below the root, on a mount with two worker slots. -/
def fileWalk (state : VfsState) : VfsProgram TreeWalkResult :=
  vfsTreeWalkAndResolve state 2 ['f', 'x'] 0 false

/-- A plain file is loaded without being flagged. An archive is flagged and loaded as a
plain file when LocalFS comes before the driver that knows it. -/
theorem flag_disagrees :
    (∃ m₁ result m', Run (Behaves (fun _ _ => 0) (fileBehaviour false false))
        (onDrivers (vfsOpsCheckIfArchive ⟨[localFs], letters⟩ ['/', 'f'])) localMount false m₁ ∧
      Run (Behaves (fun _ _ => 0) (fileBehaviour false false)) (fileWalk ⟨[localFs], letters⟩)
        localMount result m' ∧ HasDriver 1 m') ∧
    ∃ m₁ result m', Run (Behaves (fun _ _ => 0) (fileBehaviour true false))
        (onDrivers (vfsOpsCheckIfArchive ⟨[localFs, zipDriver], letters⟩ ['/', 'f'])) localMount
        true m₁ ∧
      Run (Behaves (fun _ _ => 0) (fileBehaviour true false))
        (fileWalk ⟨[localFs, zipDriver], letters⟩) localMount result m' ∧
      ¬ Installed (fileBehaviour true false) 1 m' true := by
  constructor
  · obtain ⟨m₁, result, m', n, probed, walked, hn, entry⟩ : ∃ m₁ result m' n,
        replay (answerFile false false)
          (onDrivers (vfsOpsCheckIfArchive ⟨[localFs], letters⟩ ['/', 'f'])) localMount =
            some (false, m₁) ∧
        replay (answerFile false false) (fileWalk ⟨[localFs], letters⟩) localMount =
          some (result, m') ∧
        m'.tree.nodes 1 = some n ∧ n.pluginEntry = some localFs :=
      ⟨_, _, _, _, rfl, rfl, rfl, rfl⟩
    exact ⟨m₁, result, m', run_replay answerFile_allowed probed,
      run_replay answerFile_allowed walked, n, localFs, hn, entry⟩
  · obtain ⟨m₁, result, m', n, probed, walked, hn, entry, row⟩ : ∃ m₁ result m' n,
        replay (answerFile true false)
          (onDrivers (vfsOpsCheckIfArchive ⟨[localFs, zipDriver], letters⟩ ['/', 'f']))
            localMount = some (true, m₁) ∧
        replay (answerFile true false) (fileWalk ⟨[localFs, zipDriver], letters⟩) localMount =
          some (result, m') ∧
        m'.tree.nodes 1 = some n ∧ n.pluginEntry = some localFs ∧
        n.handles = [some 5, some 15] :=
      ⟨_, _, _, _, rfl, rfl, rfl, rfl, rfl⟩
    refine ⟨m₁, result, m', run_replay answerFile_allowed probed,
      run_replay answerFile_allowed walked, fun wrong => ?_⟩
    obtain ⟨n', e, hn', he, -, all⟩ := wrong
    cases hn.symm.trans hn'
    cases entry.symm.trans he
    have container := all 5 (by rw [row]; exact List.mem_cons_self)
    exact absurd container (by decide)

/-- A driver that knows the archive comes before LocalFS, and clones for the second slot. -/
theorem archive_flag_zip : ∃ result w' v m',
    Run (Behaves (fun _ _ => 0) (fileBehaviour true false))
      (fileWalk ⟨[zipDriver, localFs], letters⟩) localMount result m' ∧
    Run (Behaves (fun _ _ => 0) (fileBehaviour true false))
      (walkSegment ⟨[zipDriver, localFs], letters⟩ 2 [['f'], ['x']] 0 false 0 ['f']
        ⟨0, ⟨some localFs, some 4⟩, 0⟩) localMount (some w') v ∧
    HasDriver 1 v ∧ Installed (fileBehaviour true false) 1 v true := by
  obtain ⟨m₁, result, m', probed, walked⟩ : ∃ m₁ result m',
      replay (answerFile true false)
        (onDrivers (vfsOpsCheckIfArchive ⟨[zipDriver, localFs], letters⟩ ['/', 'f']))
          localMount = some (true, m₁) ∧
      replay (answerFile true false) (fileWalk ⟨[zipDriver, localFs], letters⟩) localMount =
        some (result, m') := ⟨_, _, _, rfl, rfl⟩
  have file : RegularFile (fileBehaviour true false) ⟨[zipDriver, localFs], letters⟩ 2 localFs
      (some 4) ['f'] := by
    constructor
    · exact List.mem_cons_of_mem _ (List.mem_singleton_self _)
    · exact List.cons_ne_nil _ _
    · rfl
    · rfl
    · decide
  have walk := run_replay answerFile_allowed walked
  have route : (if false = true then letters.components ['f', 'x']
      else (letters.components ['f', 'x']).dropLast) = [] ++ ['f'] :: [] := rfl
  obtain ⟨reached, u, start, through⟩ :=
    archive_flag_iff (by decide) rfl (List.cons_ne_nil _ _) route walk
  obtain ⟨rfl, rfl⟩ := run_done.mp start
  obtain ⟨w', v, round, -, loaded, contained⟩ := through _ _ 1 _ ['f'] true localMount m₁ rfl rfl rfl
    rfl rfl rfl rfl file (run_replay answerFile_allowed probed)
  have opened : OpenedByPath (fileBehaviour true false) ⟨[zipDriver, localFs], letters⟩ localFs
      (some 4) ['f'] := ⟨zipDriver, List.mem_cons_self, rfl⟩
  refine ⟨result, w', v, m', walk, round, (loaded.mpr opened).mp rfl, ?_⟩
  exact (contained.mpr fun _ => ⟨zipDriver, rfl, rfl⟩).mp rfl

end

end FlowiVfs.Tree
