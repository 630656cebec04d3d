import FlowiVfs.WalkPrefix

/-!
# Probing a file for an archive

Two pieces of code ask the drivers whether a file is an archive: a listing, which opens its
path with one driver after the other, and a walk, which goes on with the first driver that
opens and clones it and falls back to memory drivers. A `DriverBehaviour` fixes what the
drivers say about files, and both are described exactly by it: which driver is the first
that takes the file decides everything.
-/
namespace FlowiVfs.Tree

open Program

/-- What drivers answer about files. Which handles they return is open. -/
structure DriverBehaviour where
  canOpen : PluginEntry → FlString → Bool
  /-- Whether a path can be opened, and whether that gives a container. -/
  opens : PluginEntry → FlString → Option Bool
  clones : PluginEntry → Bool
  /-- Whether the bytes of a file are accepted, and whether that gives a container. -/
  accepts : PluginEntry → FlString → Bytes → Option Bool
  findsCorrupt : PluginEntry → FlString → Bytes → Bool
  size : PluginEntry → Option DriverPtr → FlString → ℤ
  read : PluginEntry → Option DriverPtr → FlString → ℤ → ReadResult
  filePath : PluginEntry → Option DriverPtr → FlString → FlString
  /-- `is_directory` of a handle -/
  container : PluginEntry → DriverPtr → Bool

namespace DriverBehaviour

variable (b : DriverBehaviour)

/-- A clone is a container when its original is one, and an open tells whether the handle
is one. -/
def Answers : (op : DriverOp) → op.Reply → Prop
  | .canOpen e path, r => r = b.canOpen e path
  | .openPath e none path _ _, r =>
      r.handle.map (b.container e) = b.opens e path ∧
        ∀ h, r.handle = some h → r.isDirectory = b.container e h
  | .isDirectory e h, r => r = b.container e h
  | .getSize e h path, r => r = b.size e h path
  | .read e h path _ size, r => r = b.read e h path size
  | .clone e h, r =>
      r.handle.isSome = b.clones e ∧ ∀ c, r.handle = some c → b.container e c = b.container e h
  | .openMemory e _ contents _ path, r =>
      r.handle.map (b.container e) = b.accepts e path contents ∧
        r.archiveCorrupt = b.findsCorrupt e path contents
  | .getFilePath e h path, r => r = b.filePath e h path
  | _, _ => True

/-- `vfs_tree_clone_plugin_handle` succeeds on handles of the driver. -/
def clonable (slots : ℕ) (e : PluginEntry) : Bool :=
  decide (slots ≤ 1) || e.plugin.hasClone && b.clones e

/-- The driver opens the path, and the handle can be cloned. -/
def takes (slots : ℕ) (path : FlString) (e : PluginEntry) : Bool :=
  b.canOpen e path && (b.opens e path).isSome && b.clonable slots e

/-- The driver opens the path as a container. -/
def opensContainer (path : FlString) (e : PluginEntry) : Bool :=
  b.canOpen e path && (b.opens e path == some true)

/-- A memory driver that accepts the bytes. -/
def acceptsBytes (path : FlString) (contents : Bytes) (e : PluginEntry) : Bool :=
  e.plugin.memory && e.plugin.hasOpenMemory && (b.accepts e path contents).isSome

/-- A memory driver that ends the search, by accepting the bytes or finding them corrupt. -/
def decides (path : FlString) (contents : Bytes) (e : PluginEntry) : Bool :=
  e.plugin.memory && e.plugin.hasOpenMemory &&
    ((b.accepts e path contents).isSome || b.findsCorrupt e path contents)

end DriverBehaviour

/-- The drivers by themselves. -/
def DriverBehaviour.environment (b : DriverBehaviour) : Environment drivers Unit :=
  fun _ op r _ => b.Answers op r

/-- A mount whose drivers behave so. -/
def Behaves (natural : NaturalCompare) (b : DriverBehaviour) : Environment vfs FlVfsMount :=
  fun m op r m' =>
    match op, r with
    | .driver op, r => b.Answers op r ∧ m' = m
    | .mount op, r => ∃ fresh, op.run natural fresh m = some (r, m')
    | _, _ => m' = m

theorem behaves_drivers {natural : NaturalCompare} {b : DriverBehaviour} {m m' : FlVfsMount}
    {A : Type} {p : DriverProgram A} {a : A} (run : Run (Behaves natural b) (onDrivers p) m a m') :
    m = m' ∧ Run b.environment p () a () := by
  induction p generalizing m with
  | done c =>
      obtain ⟨rfl, rfl⟩ := run_done.mp run
      exact ⟨rfl, .done _ _⟩
  | perform op next ih =>
      obtain ⟨r, u, ⟨answer, rfl⟩, rest⟩ := run_perform.mp run
      obtain ⟨same, tail⟩ := ih r rest
      exact ⟨same, .perform answer tail⟩

/-! ## What the drivers are asked -/

section
variable {b : DriverBehaviour} {e : PluginEntry} {h : DriverPtr} {slots : ℕ} {row : VfsHandles}

/-- The row of slots that cloning a handle gives: it starts with the handle, and its handles
are containers when that one is. A failed clone leaves no row. -/
def ClonedRow (b : DriverBehaviour) (e : PluginEntry) (h : DriverPtr) (row : VfsHandles) : Bool → Prop
  | true => row.slot 0 = some h ∧ ∀ c, some c ∈ row → b.container e c = b.container e h
  | false => row = []

theorem cloneLoop_row {left : ℕ} {clones : List DriverPtr}
    (made : ∀ c ∈ clones, b.container e c = b.container e h)
    (run : Run b.environment (cloneLoop e h left clones) () row ()) :
    ClonedRow b e h row (decide (left = 0) || e.plugin.hasClone && b.clones e) := by
  have gives_up : Run b.environment (do
      closeClones e clones
      pure ([] : VfsHandles)) () row () → row = [] := by
    intro run
    obtain ⟨_, _, -, done⟩ := run_bind.mp run
    exact (run_done.mp done).1
  induction left generalizing clones with
  | zero =>
      obtain ⟨rfl, -⟩ := run_done.mp run
      refine ⟨rfl, fun c hc => ?_⟩
      rcases List.mem_cons.mp hc with same | later
      · rw [Option.some.inj same]
      · obtain ⟨d, hd, same⟩ := List.mem_map.mp later
        rw [← Option.some.inj same]
        exact made d hd
  | succ left ih =>
      unfold cloneLoop at run
      cases has : e.plugin.hasClone with
      | false =>
          rw [has, if_neg (by simp)] at run
          exact gives_up run
      | true =>
          rw [has, if_pos rfl] at run
          obtain ⟨res, _, asked, run⟩ := run_bind.mp run
          obtain ⟨answered, kind⟩ := run_driver.mp asked
          cases gotten : res.handle with
          | none =>
              rw [gotten] at answered
              simp only [gotten] at run
              rw [← answered]
              exact gives_up run
          | some clone =>
              rw [gotten] at answered
              simp only [gotten] at run
              have all : ∀ c ∈ clones ++ [clone], b.container e c = b.container e h := by
                intro c hc
                rcases List.mem_append.mp hc with earlier | last
                · exact made c earlier
                · rw [List.mem_singleton.mp last]
                  exact kind clone gotten
              have cloned := ih all run fun run => by
                obtain ⟨_, _, -, done⟩ := run_bind.mp run
                exact (run_done.mp done).1
              rw [has, ← answered] at cloned
              rw [← answered]
              simpa using cloned

theorem clone_row (run : Run b.environment (vfsTreeClonePluginHandle slots e h) () row ()) :
    ClonedRow b e h row (b.clonable slots e) := by
  have none : ∀ c ∈ ([] : List DriverPtr), b.container e c = b.container e h := by
    intro c hc
    cases hc
  have cloned := cloneLoop_row none run
  have few : slots - 1 = 0 ↔ slots ≤ 1 := by omega
  unfold DriverBehaviour.clonable
  simpa only [few] using cloned

/-- The search for a memory driver ends at the first one that accepts the bytes, unless one
in front of it finds them corrupt. -/
theorem openMemoryWith_found {path : FlString} {data : BufferPtr} {contents : Bytes} {size : ℤ}
    {plugins : List PluginEntry} {found : Option DriverHandle}
    (run : Run b.environment (openMemoryWith path data contents size plugins) () found ()) :
    found.map (fun d => (d.pluginEntry, b.container d.pluginEntry d.handle)) =
      (plugins.find? (b.decides path contents)).bind fun e =>
        (b.accepts e path contents).map fun c => (e, c) := by
  induction plugins with
  | nil =>
      obtain ⟨rfl, -⟩ := run_done.mp run
      rfl
  | cons e rest ih =>
      unfold openMemoryWith at run
      split_ifs at run with skip
      · have silent : b.decides path contents e = false := by
          unfold DriverBehaviour.decides
          cases hm : e.plugin.memory <;> cases ho : e.plugin.hasOpenMemory <;> simp_all
        rw [List.find?_cons_of_neg (by rw [silent]; exact Bool.false_ne_true)]
        exact ih run
      · obtain ⟨capable, offers⟩ := not_or.mp skip
        rw [not_not] at capable offers
        obtain ⟨res, _, asked, run⟩ := run_bind.mp run
        obtain ⟨answered, corrupt⟩ := run_driver.mp asked
        cases gotten : res.handle with
        | some k =>
            simp only [gotten] at run
            obtain ⟨rfl, -⟩ := run_done.mp run
            rw [gotten, Option.map_some] at answered
            have first : b.decides path contents e = true := by
              simp [DriverBehaviour.decides, capable, offers, ← answered]
            rw [List.find?_cons_of_pos first, Option.bind_some, ← answered]
            rfl
        | none =>
            simp only [gotten] at run
            rw [gotten, Option.map_none] at answered
            cases bad : res.archiveCorrupt with
            | true =>
                rw [bad, if_pos rfl] at run
                obtain ⟨rfl, -⟩ := run_done.mp run
                have first : b.decides path contents e = true := by
                  simp [DriverBehaviour.decides, capable, offers, ← corrupt, bad]
                rw [List.find?_cons_of_pos first, Option.bind_some, ← answered]
                rfl
            | false =>
                rw [bad, if_neg Bool.false_ne_true] at run
                have silent : ¬ b.decides path contents e = true := by
                  simp [DriverBehaviour.decides, capable, offers, ← corrupt, ← answered, bad]
                rw [List.find?_cons_of_neg silent]
                exact ih run

/-- A listing reports an archive when some driver opens the path as a container. -/
theorem checkIfArchive_flag {filePath : FlString} {plugins : List PluginEntry} {flag : Bool}
    (run : Run b.environment (checkIfArchive filePath plugins) () flag ()) :
    flag = plugins.any (b.opensContainer filePath) := by
  induction plugins with
  | nil => exact (run_done.mp run).1
  | cons e rest ih =>
      rw [List.any_cons]
      obtain ⟨openable, _, asked, run⟩ := run_bind.mp run
      cases run_driver.mp asked
      cases able : b.canOpen e filePath with
      | false =>
          rw [able, if_neg Bool.false_ne_true] at run
          rw [DriverBehaviour.opensContainer, able]
          exact ih run
      | true =>
          rw [able, if_pos rfl] at run
          obtain ⟨res, _, opening, run⟩ := run_bind.mp run
          obtain ⟨answered, kind⟩ := run_driver.mp opening
          cases gotten : res.handle with
          | none =>
              simp only [gotten] at run
              rw [gotten, Option.map_none] at answered
              rw [DriverBehaviour.opensContainer, able, ← answered]
              exact ih run
          | some k =>
              simp only [gotten] at run
              rw [gotten, Option.map_some] at answered
              obtain ⟨_, _, -, run⟩ := run_bind.mp run
              rw [kind k gotten] at run
              rw [DriverBehaviour.opensContainer, able, ← answered]
              cases isContainer : b.container e k with
              | true =>
                  rw [isContainer, if_pos rfl] at run
                  rw [(run_done.mp run).1]
                  rfl
              | false =>
                  rw [isContainer, if_neg Bool.false_ne_true] at run
                  exact ih run

end

/-! ## Which driver a load installs -/

/-- The node has a driver, and the handles of its slots are containers or not. -/
def Installed (b : DriverBehaviour) (node : NodePtr) (m : FlVfsMount) (c : Bool) : Prop :=
  ∃ n e, m.tree.nodes node = some n ∧ n.pluginEntry = some e ∧ (n.handles.slot 0).isSome ∧
    ∀ h, some h ∈ n.handles → b.container e h = c

theorem slot_mem {row : VfsHandles} {worker : ℕ} {h : DriverPtr} (full : row.slot worker = some h) :
    some h ∈ row := by
  exact List.mem_of_getElem? (Option.join_eq_some_iff.mp full)

theorem Installed.unique {b : DriverBehaviour} {node : NodePtr} {m : FlVfsMount} {c d : Bool}
    (first : Installed b node m c) (second : Installed b node m d) : c = d := by
  obtain ⟨n, e, hn, he, full, all⟩ := first
  obtain ⟨n', e', hn', he', -, all'⟩ := second
  cases hn.symm.trans hn'
  cases he.symm.trans he'
  obtain ⟨h, slot⟩ := Option.isSome_iff_exists.mp full
  have inside := slot_mem slot
  exact (all h inside).symm.trans (all' h inside)

section
variable (b : DriverBehaviour) (self : VfsState) (slots : ℕ) (source : PluginEntry)
variable (handle : Option DriverPtr) (path : FlString) (size : ℤ)

/-- The path of the file for the operating system, or nothing. -/
def osPath : FlString :=
  if source.plugin.directPath ∧ source.plugin.hasGetFilePath then b.filePath source handle path
  else []

/-- What reading the file gives. -/
def fileRead : ReadResult := b.read source handle path size

/-- The driver that takes the file by its path. -/
def pathTaker : Option PluginEntry :=
  if osPath b source handle path = [] then none
  else self.plugins.find? (b.takes slots (osPath b source handle path))

/-- The driver that takes the bytes of the file, with whether the handle is a container. -/
def memoryTaker : Option Bool :=
  if (fileRead b source handle path size).bytesRead ≠ size then none
  else
    ((self.plugins.find? (b.decides path (fileRead b source handle path size).contents)).filter
      (b.clonable slots)).bind fun e =>
        b.accepts e path (fileRead b source handle path size).contents

/-- What a load installs: nothing, or a driver whose handle is a container or not. -/
def loads : Option Bool :=
  match pathTaker b self slots source handle path with
  | some e => b.opens e (osPath b source handle path)
  | none => memoryTaker b self slots source handle path size

end

section
variable {natural : NaturalCompare} {b : DriverBehaviour} {m m' : FlVfsMount} {self : VfsState}
variable {slots : ℕ} {node : NodePtr} {source e : PluginEntry} {handle : Option DriverPtr}
variable {path : FlString} {size : ℤ} {loaded : Bool}

/-- A load that installs what `outcome` says. -/
def EndsWith (b : DriverBehaviour) (node : NodePtr) (m : FlVfsMount) (outcome : Option Bool)
    (loaded : Bool) (m' : FlVfsMount) : Prop :=
  match outcome with
  | none => loaded = false ∧ m' = m
  | some c => loaded = true ∧ Installed b node m' c

/-- The swap of a driver whose handle was cloned. -/
theorem swap_installed {h : DriverPtr} {row : VfsHandles} {memoryData : Option BufferPtr}
    {memorySize : ℤ} (cloned : ClonedRow b e h row true)
    (run : Run (Behaves natural b) (do
      onMount (.installArchive node e row memoryData memorySize)
      pure true) m loaded m') : EndsWith b node m (some (b.container e h)) loaded m' := by
  obtain ⟨_, u, swapping, done⟩ := run_bind.mp run
  obtain ⟨rfl, rfl⟩ := run_done.mp done
  obtain ⟨fresh, swapped⟩ := run_call.mp swapping
  obtain ⟨t, replaced, same⟩ := Option.bind_eq_some_iff.mp swapped
  cases same
  obtain ⟨_, closed, -⟩ := Option.bind_eq_some_iff.mp replaced
  obtain ⟨n, hn, -⟩ := Option.bind_eq_some_iff.mp closed
  cases (MountTree.installArchive_some hn).symm.trans replaced
  obtain ⟨first, all⟩ := cloned
  refine ⟨rfl, _, e, MountTree.set_nodes_self, rfl, ?_, all⟩
  show (row.slot 0).isSome
  rw [first]
  rfl

theorem loadFromPath_ends_with {filePath : FlString} {plugins : List PluginEntry}
    (run : Run (Behaves natural b) (loadFromPath slots node filePath plugins) m loaded m') :
    EndsWith b node m ((plugins.find? (b.takes slots filePath)).bind fun e => b.opens e filePath)
      loaded m' := by
  induction plugins with
  | nil => exact run_done.mp run
  | cons e rest ih =>
      have passes : b.takes slots filePath e = false →
          Run (Behaves natural b) (loadFromPath slots node filePath rest) m loaded m' →
          EndsWith b node m (((e :: rest).find? (b.takes slots filePath)).bind fun e =>
            b.opens e filePath) loaded m' := by
        intro refused run
        rw [List.find?_cons_of_neg (by rw [refused]; exact Bool.false_ne_true)]
        exact ih run
      obtain ⟨openable, u, asked, run⟩ := run_bind.mp run
      obtain ⟨rfl, answer⟩ := behaves_drivers asked
      cases run_driver.mp answer
      cases able : b.canOpen e filePath with
      | false =>
          rw [able, if_neg Bool.false_ne_true] at run
          refine passes ?_ run
          simp [DriverBehaviour.takes, able]
      | true =>
          rw [able, if_pos rfl] at run
          obtain ⟨res, u, opening, run⟩ := run_bind.mp run
          obtain ⟨rfl, answer⟩ := behaves_drivers opening
          obtain ⟨answered, -⟩ := run_driver.mp answer
          cases gotten : res.handle with
          | none =>
              simp only [gotten] at run
              rw [gotten, Option.map_none] at answered
              refine passes ?_ run
              simp [DriverBehaviour.takes, ← answered]
          | some h =>
              simp only [gotten] at run
              rw [gotten, Option.map_some] at answered
              obtain ⟨row, u, cloning, run⟩ := run_bind.mp run
              obtain ⟨rfl, answer⟩ := behaves_drivers cloning
              have cloned := clone_row answer
              cases clones : b.clonable slots e with
              | false =>
                  rw [clones] at cloned
                  have refused : row.slot 0 = none := by
                    rw [show row = [] from cloned]
                    rfl
                  rw [if_pos refused] at run
                  obtain ⟨_, u, closing, run⟩ := run_bind.mp run
                  obtain ⟨rfl, -⟩ := behaves_drivers closing
                  refine passes ?_ run
                  simp [DriverBehaviour.takes, clones]
              | true =>
                  rw [clones] at cloned
                  rw [if_neg (by simp [cloned.1])] at run
                  have first : b.takes slots filePath e = true := by
                    simp [DriverBehaviour.takes, able, clones, ← answered]
                  rw [List.find?_cons_of_pos first, Option.bind_some, ← answered]
                  exact swap_installed cloned run

theorem loadFromMemory_ends_with
    (run : Run (Behaves natural b) (loadFromMemory self slots node source handle path size) m
      loaded m') :
    EndsWith b node m (memoryTaker b self slots source handle path size) loaded m' := by
  obtain ⟨data, u, allocating, run⟩ := run_bind.mp run
  obtain ⟨rfl, -⟩ := behaves_drivers allocating
  obtain ⟨contents, u, reading, run⟩ := run_bind.mp run
  obtain ⟨rfl, answer⟩ := behaves_drivers reading
  have read : contents = fileRead b source handle path size := run_driver.mp answer
  have gives_up : ∀ {p : DriverProgram Unit}, Run (Behaves natural b) (do
      onDrivers p
      pure false) m loaded m' → EndsWith b node m none loaded m' := by
    intro p run
    obtain ⟨_, v, closing, done⟩ := run_bind.mp run
    obtain ⟨rfl, -⟩ := behaves_drivers closing
    exact run_done.mp done
  unfold memoryTaker
  rw [← read]
  split_ifs at run with short
  · rw [if_pos short]
    exact gives_up run
  · rw [if_neg short]
    obtain ⟨found, v, finding, run⟩ := run_bind.mp run
    obtain ⟨rfl, answer⟩ := behaves_drivers finding
    have first := openMemoryWith_found answer
    cases found with
    | none =>
        have unopened : ((self.plugins.find? (b.decides path contents.contents)).filter
            (b.clonable slots)).bind (fun e => b.accepts e path contents.contents) = none := by
          rw [Option.map_none, eq_comm, Option.bind_eq_none_iff] at first
          rw [Option.bind_eq_none_iff]
          intro e chosen
          have chosen := (Option.filter_eq_some_iff.mp chosen).1
          exact Option.map_eq_none_iff.mp (first e chosen)
        rw [unopened]
        exact gives_up run
    | some d =>
        rw [Option.map_some, eq_comm, Option.bind_eq_some_iff] at first
        obtain ⟨e, chosen, accepted⟩ := first
        obtain ⟨c, accepted, same⟩ := Option.map_eq_some_iff.mp accepted
        obtain ⟨rfl, rfl⟩ := Prod.mk.inj same
        obtain ⟨row, v, cloning, run⟩ := run_bind.mp run
        obtain ⟨rfl, answer⟩ := behaves_drivers cloning
        have cloned := clone_row answer
        rw [chosen]
        cases clones : b.clonable slots d.pluginEntry with
        | false =>
            rw [clones] at cloned
            have refused : row.slot 0 = none := by
              rw [show row = [] from cloned]
              rfl
            rw [if_pos refused] at run
            rw [Option.filter_some_neg (by simp [clones])]
            exact gives_up run
        | true =>
            rw [clones] at cloned
            rw [if_neg (by simp [cloned.1])] at run
            rw [Option.filter_some_pos clones, Option.bind_some, accepted]
            exact swap_installed cloned run

theorem tryLoadAsArchive_ends_with (positive : 0 < size)
    (run : Run (Behaves natural b)
      (vfsTreeTryLoadAsArchive self slots node source handle path size) m loaded m') :
    EndsWith b node m (loads b self slots source handle path size) loaded m' := by
  unfold vfsTreeTryLoadAsArchive at run
  rw [if_neg (not_le.mpr positive)] at run
  have fallback : pathTaker b self slots source handle path = none →
      Run (Behaves natural b) (loadFromMemory self slots node source handle path size) m loaded
        m' → EndsWith b node m (loads b self slots source handle path size) loaded m' := by
    intro untaken run
    unfold loads
    rw [untaken]
    exact loadFromMemory_ends_with run
  by_cases direct : source.plugin.directPath ∧ source.plugin.hasGetFilePath
  · rw [if_pos direct] at run
    obtain ⟨filePath, u, asking, run⟩ := run_bind.mp run
    obtain ⟨rfl, answer⟩ := behaves_drivers asking
    have located : osPath b source handle path = filePath := by
      rw [osPath, if_pos direct]
      exact (run_driver.mp answer).symm
    by_cases nowhere : filePath = []
    · rw [if_pos nowhere] at run
      refine fallback ?_ run
      rw [pathTaker, located, if_pos nowhere]
    · rw [if_neg nowhere] at run
      have taker : pathTaker b self slots source handle path =
          self.plugins.find? (b.takes slots filePath) := by
        rw [pathTaker, located, if_neg nowhere]
      obtain ⟨byPath, v, trying, run⟩ := run_bind.mp run
      have ended := loadFromPath_ends_with trying
      cases chosen : self.plugins.find? (b.takes slots filePath) with
      | none =>
          rw [chosen] at ended taker
          obtain ⟨rfl, same⟩ := ended
          rw [same] at run
          exact fallback taker run
      | some e =>
          rw [chosen, Option.bind_some] at ended
          rw [chosen] at taker
          have opened : (b.opens e filePath).isSome := by
            have took := List.find?_some chosen
            simp only [DriverBehaviour.takes, Bool.and_eq_true] at took
            exact took.1.2
          obtain ⟨c, opens⟩ := Option.isSome_iff_exists.mp opened
          rw [opens] at ended
          obtain ⟨rfl, installed⟩ := ended
          obtain ⟨rfl, rfl⟩ := run_done.mp run
          unfold loads
          rw [taker]
          show EndsWith b node m (b.opens e (osPath b source handle path)) true m'
          rw [located, opens]
          exact ⟨rfl, installed⟩
  · rw [if_neg direct] at run
    refine fallback ?_ run
    rw [pathTaker, osPath, if_neg direct, if_pos rfl]

end

/-! ## What a load should install -/

section
variable (b : DriverBehaviour) (state : VfsState) (slots : ℕ) (source : PluginEntry)
variable (handle : Option DriverPtr) (path : FlString) (size : ℤ)

/-- The driver opens the path that the file has for the operating system as a container. -/
def ByPath (e : PluginEntry) : Prop :=
  osPath b source handle path ≠ [] ∧ b.opensContainer (osPath b source handle path) e

/-- The driver accepts what a complete read of the file gives. -/
def ByBytes (e : PluginEntry) : Prop :=
  (fileRead b source handle path size).bytesRead = size ∧
    b.acceptsBytes path (fileRead b source handle path size).contents e

/-- A load installs containers only, it succeeds when some driver can open the file as one,
and when none can it leaves the node alone. -/
structure LoadsContainers (node : NodePtr) (m m' : FlVfsMount) (loaded : Bool) : Prop where
  container : loaded = true → Installed b node m' true
  succeeds : (∃ e ∈ state.plugins, (ByPath b source handle path e ∨
    ByBytes b source handle path size e) ∧ b.clonable slots e) → loaded = true
  spares : (∀ e ∈ state.plugins, ¬ ByPath b source handle path e ∧
      ¬ (ByBytes b source handle path size e ∧
        b.accepts e path (fileRead b source handle path size).contents = some true)) →
    loaded = false ∧ m'.tree.nodes node = m.tree.nodes node

/-- The first driver that opens and clones the path opens it as a container. When none does,
and some driver accepts the bytes of the file and clones, the search for a memory driver
ends at one that does so and gives a container. -/
structure FirstIsContainer : Prop where
  byPath : ∀ e, pathTaker b state slots source handle path = some e →
    b.opens e (osPath b source handle path) = some true
  byBytes : pathTaker b state slots source handle path = none →
    (∃ e ∈ state.plugins, ByBytes b source handle path size e ∧ b.clonable slots e) →
    ∃ e, state.plugins.find? (b.decides path (fileRead b source handle path size).contents) =
        some e ∧
      b.clonable slots e ∧
        b.accepts e path (fileRead b source handle path size).contents = some true

end

section
variable {b : DriverBehaviour} {self : VfsState} {slots : ℕ} {source e : PluginEntry}
variable {handle : Option DriverPtr} {path : FlString} {size : ℤ} {c : Bool}

theorem takes_of_byPath (direct : ByPath b source handle path e) (clones : b.clonable slots e) :
    b.takes slots (osPath b source handle path) e = true := by
  have opens := direct.2
  simp only [DriverBehaviour.opensContainer, Bool.and_eq_true, beq_iff_eq] at opens
  simp [DriverBehaviour.takes, opens.1, opens.2, clones]

theorem pathTaker_some (taken : pathTaker b self slots source handle path = some e) :
    e ∈ self.plugins ∧ osPath b source handle path ≠ [] ∧
      b.takes slots (osPath b source handle path) e = true := by
  unfold pathTaker at taken
  split_ifs at taken with located
  exact ⟨List.mem_of_find?_eq_some taken, located, List.find?_some taken⟩

theorem loads_byPath (taken : pathTaker b self slots source handle path = some e) :
    loads b self slots source handle path size = b.opens e (osPath b source handle path) := by
  unfold loads
  rw [taken]

theorem loads_fromMemory (untaken : pathTaker b self slots source handle path = none) :
    loads b self slots source handle path size =
      memoryTaker b self slots source handle path size := by
  unfold loads
  rw [untaken]

theorem memoryTaker_some :
    memoryTaker b self slots source handle path size = some c ↔
      (fileRead b source handle path size).bytesRead = size ∧
        ∃ e, self.plugins.find?
            (b.decides path (fileRead b source handle path size).contents) = some e ∧
          b.clonable slots e = true ∧
          b.accepts e path (fileRead b source handle path size).contents = some c := by
  unfold memoryTaker
  by_cases complete : (fileRead b source handle path size).bytesRead = size
  · rw [if_neg (not_not_intro complete), Option.bind_eq_some_iff]
    constructor
    · intro found
      obtain ⟨e, chosen, accepted⟩ := found
      obtain ⟨chosen, clones⟩ := Option.filter_eq_some_iff.mp chosen
      exact ⟨complete, e, chosen, clones, accepted⟩
    · intro found
      obtain ⟨-, e, chosen, clones, accepted⟩ := found
      exact ⟨e, Option.filter_eq_some_iff.mpr ⟨chosen, clones⟩, accepted⟩
  · rw [if_pos complete]
    constructor
    · intro wrong
      cases wrong
    · intro found
      exact absurd found.1 complete

/-- A load that installs a container was told so by some driver. -/
theorem loads_container (installs : loads b self slots source handle path size = some true) :
    ∃ e ∈ self.plugins, ByPath b source handle path e ∨
      (ByBytes b source handle path size e ∧
        b.accepts e path (fileRead b source handle path size).contents = some true) := by
  cases taken : pathTaker b self slots source handle path with
  | some e =>
      rw [loads_byPath taken] at installs
      obtain ⟨inside, located, takes⟩ := pathTaker_some taken
      simp only [DriverBehaviour.takes, Bool.and_eq_true] at takes
      refine ⟨e, inside, .inl ⟨located, ?_⟩⟩
      simp [DriverBehaviour.opensContainer, takes.1.1, installs]
  | none =>
      rw [loads_fromMemory taken] at installs
      obtain ⟨complete, e, chosen, -, accepted⟩ := memoryTaker_some.mp installs
      have decides := List.find?_some chosen
      simp only [DriverBehaviour.decides, Bool.and_eq_true] at decides
      refine ⟨e, List.mem_of_find?_eq_some chosen, .inr ⟨⟨complete, ?_⟩, accepted⟩⟩
      simp [DriverBehaviour.acceptsBytes, decides.1.1, decides.1.2, accepted]

variable (size) in
theorem loads_taken (taken : pathTaker b self slots source handle path = some e) :
    ∃ c, loads b self slots source handle path size = some c := by
  have takes := (pathTaker_some taken).2.2
  simp only [DriverBehaviour.takes, Bool.and_eq_true] at takes
  rw [loads_byPath taken]
  exact Option.isSome_iff_exists.mp takes.1.2

theorem untaken (none : pathTaker b self slots source handle path = none)
    (inside : e ∈ self.plugins) (clones : b.clonable slots e = true) :
    ¬ ByPath b source handle path e := by
  intro direct
  rw [pathTaker, if_neg direct.1] at none
  have refuses := List.find?_eq_none.mp none e inside
  exact refuses (takes_of_byPath direct clones)

/-- The condition says that what is installed is a container, and that something is when
it should be. -/
theorem firstIsContainer_iff :
    FirstIsContainer b self slots source handle path size ↔
      loads b self slots source handle path size ≠ some false ∧
        ((∃ e ∈ self.plugins, (ByPath b source handle path e ∨
          ByBytes b source handle path size e) ∧ b.clonable slots e) →
            loads b self slots source handle path size ≠ none) := by
  constructor
  · intro h
    constructor
    · intro plain
      cases taken : pathTaker b self slots source handle path with
      | some e =>
          rw [loads_byPath taken, h.byPath e taken] at plain
          cases plain
      | none =>
          rw [loads_fromMemory taken] at plain
          obtain ⟨complete, e, chosen, clones, accepted⟩ := memoryTaker_some.mp plain
          have decides := List.find?_some chosen
          simp only [DriverBehaviour.decides, Bool.and_eq_true] at decides
          have bytes : ByBytes b source handle path size e := by
            refine ⟨complete, ?_⟩
            simp [DriverBehaviour.acceptsBytes, decides.1.1, decides.1.2, accepted]
          obtain ⟨e', chosen', -, accepted'⟩ :=
            h.byBytes taken ⟨e, List.mem_of_find?_eq_some chosen, bytes, clones⟩
          cases chosen.symm.trans chosen'
          cases accepted.symm.trans accepted'
    · intro some
      obtain ⟨e, inside, way, clones⟩ := some
      cases taken : pathTaker b self slots source handle path with
      | some e' =>
          obtain ⟨c, installs⟩ := loads_taken size taken
          rw [installs]
          exact Option.some_ne_none c
      | none =>
          have bytes := way.resolve_left (untaken taken inside clones)
          obtain ⟨e', chosen, clones', accepted⟩ := h.byBytes taken ⟨e, inside, bytes, clones⟩
          rw [loads_fromMemory taken, memoryTaker_some.mpr ⟨bytes.1, e', chosen, clones', accepted⟩]
          exact Option.some_ne_none true
  · intro h
    obtain ⟨notPlain, needed⟩ := h
    constructor
    · intro e taken
      obtain ⟨c, installs⟩ := loads_taken size taken
      rw [installs] at notPlain
      rw [← loads_byPath taken, installs]
      cases c with
      | true => rfl
      | false => exact absurd rfl notPlain
    · intro taken some
      obtain ⟨e, inside, bytes, clones⟩ := some
      have installs := needed ⟨e, inside, .inr bytes, clones⟩
      obtain ⟨c, installs⟩ := Option.ne_none_iff_exists'.mp installs
      rw [installs] at notPlain
      rw [loads_fromMemory taken] at installs
      obtain ⟨-, e', chosen, clones', accepted⟩ := memoryTaker_some.mp installs
      refine ⟨e', chosen, clones', ?_⟩
      cases c with
      | true => exact accepted
      | false => exact absurd rfl notPlain

end

section
variable {natural : NaturalCompare} {b : DriverBehaviour} {m m' : FlVfsMount} {self : VfsState}
variable {slots : ℕ} {node : NodePtr} {source : PluginEntry} {handle : Option DriverPtr}
variable {path : FlString} {size : ℤ} {loaded : Bool}

/-- A load does what it should exactly when the driver that its search ends at gives a
container. -/
theorem load_containers_iff (positive : 0 < size)
    (run : Run (Behaves natural b)
      (vfsTreeTryLoadAsArchive self slots node source handle path size) m loaded m') :
    LoadsContainers b self slots source handle path size node m m' loaded ↔
      FirstIsContainer b self slots source handle path size := by
  have ended := tryLoadAsArchive_ends_with positive run
  rw [firstIsContainer_iff]
  cases outcome : loads b self slots source handle path size with
  | none =>
      rw [outcome] at ended
      obtain ⟨rfl, rfl⟩ := ended
      constructor
      · intro h
        refine ⟨by simp, fun some => ?_⟩
        cases h.succeeds some
      · intro h
        constructor
        · intro wrong
          cases wrong
        · intro some
          exact absurd rfl (h.2 some)
        · exact fun _ => ⟨rfl, rfl⟩
  | some c =>
      rw [outcome] at ended
      obtain ⟨rfl, installed⟩ := ended
      constructor
      · intro h
        refine ⟨?_, fun _ => Option.some_ne_none c⟩
        rw [installed.unique (h.container rfl)]
        simp
      · intro h
        have isContainer : c = true := by
          cases c with
          | true => rfl
          | false => exact absurd rfl h.1
        subst isContainer
        constructor
        · exact fun _ => installed
        · exact fun _ => rfl
        · intro refused
          obtain ⟨e, inside, ways⟩ := loads_container outcome
          obtain ⟨noPath, noBytes⟩ := refused e inside
          exact (ways.elim noPath noBytes).elim

end

/-! ## Three drivers and a file -/

def localFs : PluginEntry :=
  ⟨0, { name := "LocalFS".toList, directPath := true, hasGetFilePath := true, hasClone := true }⟩

/-- A driver for archives in memory. -/
def lhaDriver : PluginEntry := ⟨1, { name := ['l'], memory := true, hasOpenMemory := true }⟩

/-- A driver for archives by their path. -/
def zipDriver : PluginEntry := ⟨2, { name := ['z'], hasClone := true }⟩

/-- A file that LocalFS opens as a plain file, and that each of the others takes for one of
its archives or not. -/
def fileBehaviour (zip lha : Bool) : DriverBehaviour where
  canOpen e _ := e.id == 0 || e.id == 2 && zip
  opens e _ :=
    if e.id = 0 then some false
    else if e.id = 2 ∧ zip then some true
    else none
  clones _ := true
  accepts e _ _ := if e.id = 1 ∧ lha then some true else none
  findsCorrupt _ _ _ := false
  size _ _ _ := 1
  read _ _ _ _ := ⟨1, [7]⟩
  filePath _ _ path := '/' :: path
  container e _ := decide (e.id ≠ 0)

/-- A mount of LocalFS with two worker slots and a file `f`. -/
def localMount : FlVfsMount where
  tree :=
    { nodes := fun p =>
        if p = 0 then
          some { name := [], isDirectory := true, pluginEntry := some localFs,
                 handles := [some 4, some 3], firstChild := some 1 }
        else if p = 1 then some { name := ['f'], parent := some 0 }
        else none
      count := 2
      root := 0 }

/-- A driver returns handles of its own. -/
def answerFile (zip lha : Bool) : (op : VfsOp) → FlVfsMount → Option (op.Reply × FlVfsMount)
  | .mount op, m => op.run (fun _ _ => 0) m.tree.count m
  | .driver (.canOpen e path), m => some ((fileBehaviour zip lha).canOpen e path, m)
  | .driver (.openPath e _ path _ _), m =>
      some (⟨((fileBehaviour zip lha).opens e path).map fun _ => e.id + 5, decide (e.id ≠ 0), false⟩,
        m)
  | .driver (.clone e h), m => some (⟨some (h + 10), decide (e.id ≠ 0), false⟩, m)
  | .driver (.getSize e h path), m => some ((fileBehaviour zip lha).size e h path, m)
  | .driver (.getFilePath e h path), m => some ((fileBehaviour zip lha).filePath e h path, m)
  | .driver (.close ..), m => some ((), m)
  | _, _ => none

theorem answerFile_allowed {zip lha : Bool} (m : FlVfsMount) (op : VfsOp) (r : op.Reply)
    (m' : FlVfsMount) (h : answerFile zip lha op m = some (r, m')) :
    Behaves (fun _ _ => 0) (fileBehaviour zip lha) m op r m' := by
  unfold answerFile at h
  split at h
  · exact ⟨_, h⟩
  · cases h
    exact ⟨rfl, rfl⟩
  · next e parent path flags options =>
      cases h
      refine ⟨?_, rfl⟩
      cases parent with
      | some p => trivial
      | none =>
          refine ⟨?_, fun _ _ => rfl⟩
          unfold fileBehaviour
          dsimp only
          split_ifs with first second
          · simp [first]
          · simp [second.1]
          · rfl
  · cases h
    exact ⟨⟨rfl, fun _ _ => rfl⟩, rfl⟩
  all_goals cases h
  · exact ⟨rfl, rfl⟩
  · exact ⟨rfl, rfl⟩
  · exact ⟨trivial, rfl⟩

/-- An archive that only a memory driver knows, on a mount of LocalFS: the load installs
the plain handle that LocalFS has opened. -/
theorem plain_handle_installed : ∃ m',
    Run (Behaves (fun _ _ => 0) (fileBehaviour false true))
      (vfsTreeTryLoadAsArchive ⟨[lhaDriver, localFs], letters⟩ 2 1 localFs (some 4) ['f'] 1)
      localMount true m' ∧
    ¬ LoadsContainers (fileBehaviour false true) ⟨[lhaDriver, localFs], letters⟩ 2 localFs (some 4)
      ['f'] 1 1 localMount m' true := by
  obtain ⟨m', replayed⟩ : ∃ m', replay (answerFile false true)
      (vfsTreeTryLoadAsArchive ⟨[lhaDriver, localFs], letters⟩ 2 1 localFs (some 4) ['f'] 1)
      localMount = some (true, m') := ⟨_, rfl⟩
  have run := run_replay answerFile_allowed replayed
  refine ⟨m', run, fun contains => ?_⟩
  have ended := tryLoadAsArchive_ends_with (by decide) run
  have plain : loads (fileBehaviour false true) ⟨[lhaDriver, localFs], letters⟩ 2 localFs (some 4)
      ['f'] 1 = some false := rfl
  rw [plain] at ended
  cases ended.2.unique (contains.container rfl)

/-- With a driver that opens the archive by its path, and clones the handle. -/
theorem load_containers_zip : ∃ m' n, m'.tree.nodes 1 = some n ∧ n.handles = [some 7, some 17] ∧
    LoadsContainers (fileBehaviour true false) ⟨[zipDriver, localFs], letters⟩ 2 localFs (some 4)
      ['f'] 1 1 localMount m' true := by
  obtain ⟨m', n, replayed, hn, row⟩ : ∃ m' n, replay (answerFile true false)
      (vfsTreeTryLoadAsArchive ⟨[zipDriver, localFs], letters⟩ 2 1 localFs (some 4) ['f'] 1)
      localMount = some (true, m') ∧ m'.tree.nodes 1 = some n ∧ n.handles = [some 7, some 17] :=
    ⟨_, _, rfl, rfl, rfl⟩
  have run := run_replay answerFile_allowed replayed
  have taken : pathTaker (fileBehaviour true false) ⟨[zipDriver, localFs], letters⟩ 2 localFs
      (some 4) ['f'] = some zipDriver := rfl
  refine ⟨m', n, hn, row, (load_containers_iff (by decide) run).mpr ⟨?_, ?_⟩⟩
  · intro e first
    cases taken.symm.trans first
    rfl
  · intro none
    cases taken.symm.trans none

end FlowiVfs.Tree
