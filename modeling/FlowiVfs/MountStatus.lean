import FlowiVfs.MountOwnership
import FlowiVfs.MountWorld
import FlowiVfs.TreeShape

/-!
# What a mount operation reports

A mount operation stores a status in its handle, `vfs_mount_get_status` looks at the root
node, and later operations look at the driver of the root only. The three agree exactly
when the operation was not stopped halfway, by a driver that could not be cloned.
-/
namespace FlowiVfs.Tree

open Program

section
variable {W : Type} (natural : NaturalCompare) (o : Outside W)

/-- Every one of so many clones of a handle succeeds. -/
def Clones (entry : PluginEntry) (handle : DriverPtr) : ℕ → MountWorld W → Prop
  | 0, _ => True
  | left + 1, s =>
      entry.plugin.hasClone ∧
        (serve natural o (.driver (.clone entry handle)) s).1.handle.isSome ∧
        Clones entry handle left (serve natural o (.driver (.clone entry handle)) s).2

/-- The driver that a resolution ends with serves every worker slot. -/
def ServesSlots (slots : ℕ) (s : MountWorld W) : FinalDriver → Prop
  | .resolved entry handle => Clones natural o entry handle (slots - 1) s
  | .failed _ => True

/-- The root has a driver, and an open handle of it in every worker slot. -/
def RootOpen (slots : ℕ) (s : MountWorld W) : Prop :=
  ∃ n e, s.mount.tree.nodes s.mount.tree.root = some n ∧ n.pluginEntry = some e ∧
    ∀ worker < slots, ∃ h, n.handles.slot worker = some h ∧ ⟨e.id, h⟩ ∈ s.ledger.opened

/-- A driver call that needs a container and gets none. -/
def NullContainer : VfsOp → Prop
  | .driver (.openPath _ none _ _ _) => True
  | .driver (.getSize _ none _) => True
  | .driver (.read _ none _ _ _) => True
  | .driver (.listDirectory _ none _) => True
  | .driver (.getFilePath _ none _) => True
  | _ => False

instance : DecidablePred NullContainer := fun op => by
  unfold NullContainer
  split <;> infer_instance

section
variable (self : VfsState) (slots : ℕ)
variable {Score : Type} [LinearOrder Score] (matcher : Matcher Score)

/-- Calls by workers, one after the other. -/
def afterCalls (calls : List (ℕ × MountCall)) (s : MountWorld W) : MountWorld W :=
  calls.foldl
    (fun s call =>
      (execute (serve natural o) (vfsOpsExecute self slots matcher call.1 call.2) s).2) s

/-- Whatever was called before, every call fails and hands no null container to a driver. -/
def AlwaysFails (s : MountWorld W) : Prop :=
  ∀ before worker call,
    let u := afterCalls natural o self slots matcher before s
    let p := vfsOpsExecute self slots matcher worker call
    vfsGetCoreState (execute (serve natural o) p u).1.status = VFS_STATE_ERROR ∧
      Avoids (serve natural o) NullContainer p u

/-- The status of the operation, the status of the mount and the handles of its root agree,
and a mount that is not usable is not used. -/
structure Agrees (s : MountWorld W) (status : VfsOpStatus) : Prop where
  reported : status = VFS_STATE_SUCCESS ↔ vfsMountGetStatus s.mount true = .ready
  usable : vfsMountGetStatus s.mount true = .ready ↔ RootOpen slots s
  refused : ¬ RootOpen slots s → AlwaysFails natural o self slots matcher s

end
end

section
variable {W : Type} {natural : NaturalCompare} {o : Outside W} {s : MountWorld W}
variable {entry : PluginEntry} {handle : DriverPtr}

/-- Clones that succeed fill the row of slots with open handles. -/
theorem cloneLoop_clones {left : ℕ} (clones : List DriverPtr)
    (h : Clones natural o entry handle left s) :
    ∃ new, (execute (serve natural o) (onDrivers (cloneLoop entry handle left clones)) s).1 =
        some handle :: (clones ++ new).map some ∧
      new.length = left ∧
      s.ledger.opened ⊆ (execute (serve natural o)
        (onDrivers (cloneLoop entry handle left clones)) s).2.ledger.opened ∧
      ∀ x ∈ new, ⟨entry.id, x⟩ ∈ (execute (serve natural o)
        (onDrivers (cloneLoop entry handle left clones)) s).2.ledger.opened := by
  induction left generalizing s clones with
  | zero =>
      refine ⟨[], ?_, rfl, List.Subset.refl _, by simp⟩
      rw [List.append_nil]
      rfl
  | succ left ih =>
      obtain ⟨has, made, rest⟩ := h
      obtain ⟨clone, hclone⟩ := Option.isSome_iff_exists.mp made
      obtain ⟨new, result, length, kept, opened⟩ := ih (clones ++ [clone]) rest
      have answer := o.lawful (.clone entry handle) s.ledger s.world
      have given : (⟨entry.id, clone⟩ : OpenHandle) ∈
          (serve natural o (.driver (.clone entry handle)) s).2.ledger.opened ∧
          s.ledger.opened ⊆
            (serve natural o (.driver (.clone entry handle)) s).2.ledger.opened := by
        simp only [serve] at hclone ⊢
        simp only [contract, hclone, Gives] at answer
        rw [answer.2]
        refine ⟨List.mem_cons_self, ?_⟩
        refine List.Subset.trans ?_ (List.subset_cons_self ..)
        rcases Ledger.use_cases s.ledger ⟨entry.id, handle⟩ with e | e <;> rw [e]
        · exact List.Subset.refl _
        · exact List.Subset.refl _
      have step : execute (serve natural o) (onDrivers (cloneLoop entry handle (left + 1) clones))
          s = execute (serve natural o) (onDrivers (cloneLoop entry handle left
            (clones ++ [clone]))) (serve natural o (.driver (.clone entry handle)) s).2 := by
        rw [cloneLoop, if_pos has]
        simp only [onDrivers_bind, execute_bind, execute_onDrivers, hclone]
      rw [step]
      refine ⟨clone :: new, ?_, congrArg Nat.succ length, List.Subset.trans given.2 kept,
        fun x hx => ?_⟩
      · rw [result, List.append_assoc]
        rfl
      · rcases List.mem_cons.mp hx with rfl | hx
        · exact kept given.1
        · exact opened x hx

/-- A clone that fails leaves a row of null slots. -/
theorem cloneLoop_refused {left : ℕ} (clones : List DriverPtr)
    (h : ¬ Clones natural o entry handle left s) :
    (execute (serve natural o) (onDrivers (cloneLoop entry handle left clones)) s).1 = [] := by
  induction left generalizing s clones with
  | zero => exact absurd trivial h
  | succ left ih =>
      by_cases has : entry.plugin.hasClone
      · rw [cloneLoop, if_pos has]
        simp only [onDrivers_bind, execute_bind, execute_onDrivers]
        cases hclone : (serve natural o (.driver (.clone entry handle)) s).1.handle with
        | none => simp only [onDrivers_bind, execute_bind, pure_eq, onDrivers_done, execute_done]
        | some clone =>
            refine ih _ fun rest => h ⟨has, ?_, rest⟩
            rw [hclone]
            rfl
      · rw [cloneLoop, if_neg has]
        simp only [pure_eq, done_bind, onDrivers_bind, onDrivers_done, execute_bind, execute_done]

/-- The root node is there, with this driver and these handles. -/
def RootHas (m : FlVfsMount) (entry : Option PluginEntry) (handles : VfsHandles) : Prop :=
  ∃ n, m.tree.nodes m.tree.root = some n ∧ n.pluginEntry = entry ∧ n.handles = handles

theorem RootHas.rootDriver {m : FlVfsMount} {e : Option PluginEntry} {handles : VfsHandles}
    (h : RootHas m e handles) (fresh : NodePtr) (worker : ℕ) :
    (MountSection.rootDriver worker).run natural fresh m =
      some ((m.tree.root, ⟨e, handles.slot worker⟩), m) := by
  obtain ⟨n, hn, rfl, rfl⟩ := h
  simp only [MountSection.run, hn, Option.bind_eq_bind, Option.bind_some, VfsTreeNode.view]

theorem RootHas.serve {e : Option PluginEntry} {handles : VfsHandles}
    (h : RootHas s.mount e handles) (worker : ℕ) :
    serve natural o (.mount (.rootDriver worker)) s =
      ((s.mount.tree.root, ⟨e, handles.slot worker⟩), s) :=
  serve_mount (h.rootDriver _ worker)

/-- A mount is usable when its root has a driver and an open handle for the first worker. -/
theorem RootHas.status {e : Option PluginEntry} {handles : VfsHandles}
    (h : RootHas s.mount e handles) :
    vfsMountGetStatus s.mount true = .ready ↔ e.isSome ∧ (handles.slot 0).isSome := by
  obtain ⟨n, hn, rfl, rfl⟩ := h
  simp only [vfsMountGetStatus, vfsTreeRootIsResolved, hn]
  cases n.pluginEntry <;> cases n.handles.slot 0 <;> simp

theorem RootHas.open_iff {slots : ℕ} {e : Option PluginEntry} {handles : VfsHandles}
    (h : RootHas s.mount e handles) :
    RootOpen slots s ↔ ∃ entry, e = some entry ∧
      ∀ worker < slots, ∃ x, handles.slot worker = some x ∧ ⟨entry.id, x⟩ ∈ s.ledger.opened := by
  obtain ⟨n, hn, rfl, rfl⟩ := h
  constructor
  · rintro ⟨k, entry, hk, he, all⟩
    rw [hn] at hk
    cases hk
    exact ⟨entry, he, all⟩
  · rintro ⟨entry, he, all⟩
    exact ⟨n, entry, hn, he, all⟩

section
variable (natural o) (self : VfsState) (slots : ℕ)
variable {Score : Type} [LinearOrder Score] (matcher : Matcher Score)

/-- An operation that fails, calls no driver without a container, and leaves the mount
as it was. -/
structure FailsQuietly {A : Type} (status : A → VfsOpStatus) (p : VfsProgram A) (s : MountWorld W) : Prop where
  fails : vfsGetCoreState (status (execute (serve natural o) p s).1) = VFS_STATE_ERROR
  avoids : Avoids (serve natural o) NullContainer p s
  mount : (execute (serve natural o) p s).2.mount = s.mount

theorem mount_error : vfsGetCoreState VFS_ERROR_MOUNT = VFS_STATE_ERROR := by decide

theorem canceled_error : vfsGetCoreState VFS_ERROR_CANCELED = VFS_STATE_ERROR := by decide

section
variable (h : RootHas s.mount none []) (worker : ℕ)
include h

theorem fileOpen_unmounted (path : FlString) (flags : ℕ) :
    execute (serve natural o) (vfsOpFileOpen self slots path flags worker) s =
        (.failed VFS_ERROR_MOUNT, s) ∧
      Avoids (serve natural o) NullContainer (vfsOpFileOpen self slots path flags worker) s := by
  have root : serve natural o (.mount (.rootDriver worker)) s = _ := h.serve worker
  rw [vfsOpFileOpen]
  simp only [execute_bind, avoids_bind, execute_onMount, avoids_onMount, root, if_true, pure_eq,
    execute_done, avoids_done, NullContainer, not_false_eq_true, and_self]

theorem list_unmounted (path needle : FlString) :
    execute (serve natural o) (vfsOpList self slots matcher path needle worker) s =
        (vfsListFail VFS_ERROR_MOUNT ("Failed to list '%S': Mount not ready", path), s) ∧
      Avoids (serve natural o) NullContainer
        (vfsOpList self slots matcher path needle worker) s := by
  have root : serve natural o (.mount (.rootDriver worker)) s = _ := h.serve worker
  rw [vfsOpList]
  simp only [execute_bind, avoids_bind, execute_onMount, avoids_onMount, root, if_true, pure_eq,
    execute_done, avoids_done, NullContainer, not_false_eq_true, and_self]

theorem readAll_unmounted (path : FlString) :
    FailsQuietly natural o ReadAllOutcome.status (vfsOpReadAll self slots path worker) s := by
  obtain ⟨opened, quiet⟩ := fileOpen_unmounted natural o self slots h worker path openFlagsRead
  refine ⟨?_, ?_, ?_⟩
  · simp only [vfsOpReadAll, readAllOpened, execute_bind, opened]
    exact mount_error
  · simp only [vfsOpReadAll, readAllOpened, avoids_bind, opened]
    exact ⟨quiet, ⟨id, trivial⟩, trivial⟩
  · simp only [vfsOpReadAll, readAllOpened, execute_bind, opened]
    rfl

/-- Without a driver at the root an operation fails before it does anything. -/
theorem unmounted_fails (call : MountCall) :
    FailsQuietly natural o CallOutcome.status (vfsOpsExecute self slots matcher worker call)
      s := by
  have polled : RootHas (serve natural o .shouldCancel s).2.mount none [] := h
  have poll : ∀ {A : Type} (f : Bool → VfsProgram A) (status : A → VfsOpStatus),
      FailsQuietly natural o status (f (serve natural o .shouldCancel s).1)
        (serve natural o .shouldCancel s).2 →
      FailsQuietly natural o status (shouldCancel >>= f) s := by
    intro A f status q
    refine ⟨?_, ?_, ?_⟩
    · rw [execute_bind]
      exact q.fails
    · exact avoids_bind.mpr ⟨avoids_shouldCancel.mpr id, q.avoids⟩
    · rw [execute_bind]
      exact q.mount
  refine poll _ _ ?_
  cases (serve natural o .shouldCancel s).1 with
  | true =>
      cases call with
      | list path needle => exact ⟨canceled_error, trivial, rfl⟩
      | fileOpen path flags => exact ⟨canceled_error, trivial, rfl⟩
      | readAll path => exact ⟨canceled_error, ⟨id, trivial⟩, rfl⟩
  | false =>
      cases call with
      | list path needle =>
          obtain ⟨result, quiet⟩ :=
            list_unmounted natural o self slots matcher polled worker path needle
          refine ⟨?_, avoids_bind.mpr ⟨quiet, trivial⟩, ?_⟩
          · simp only [Bool.false_eq_true, if_false, execute_bind, result]
            exact mount_error
          · simp only [Bool.false_eq_true, if_false, execute_bind, result]
            rfl
      | fileOpen path flags =>
          obtain ⟨result, quiet⟩ :=
            fileOpen_unmounted natural o self slots polled worker path flags
          refine ⟨?_, avoids_bind.mpr ⟨quiet, trivial⟩, ?_⟩
          · simp only [Bool.false_eq_true, if_false, execute_bind, result]
            exact mount_error
          · simp only [Bool.false_eq_true, if_false, execute_bind, result]
            rfl
      | readAll path =>
          have q := readAll_unmounted natural o self slots polled worker path
          refine ⟨?_, avoids_bind.mpr ⟨q.avoids, trivial⟩, ?_⟩
          · simp only [Bool.false_eq_true, if_false, execute_bind]
            exact q.fails
          · simp only [Bool.false_eq_true, if_false, execute_bind]
            exact q.mount

end

theorem alwaysFails (h : RootHas s.mount none []) :
    AlwaysFails natural o self slots matcher s := by
  intro before worker call
  have still : RootHas (afterCalls natural o self slots matcher before s).mount none [] := by
    induction before generalizing s with
    | nil => exact h
    | cons c rest ih =>
        refine ih ?_
        rw [(unmounted_fails natural o self slots matcher h c.1 c.2).mount]
        exact h
  have q := unmounted_fails natural o self slots matcher still worker call
  exact ⟨q.fails, q.avoids⟩

end

variable (natural entry) in
theorem RootHas.storeRoot {m : FlVfsMount} {e : Option PluginEntry} {old : VfsHandles}
    (h : RootHas m e old) (handles : VfsHandles) (fresh : NodePtr) (watcher : ℕ) :
    ∃ m', (MountSection.storeRoot entry handles watcher).run natural fresh m = some ((), m') ∧
      RootHas m' (some entry) handles := by
  obtain ⟨n, hn, -, -⟩ := h
  have stored : (MountSection.storeRoot entry handles watcher).run natural fresh m = some ((),
      { m with
        tree := m.tree.set m.tree.root { n with pluginEntry := some entry, handles := handles }
        version := 0
        watcherHandle := watcher
        watchingEnabled := watcher ≠ 0 }) := by
    simp only [MountSection.run, MountTree.update_some hn, Option.bind_eq_bind, Option.bind_some]
  exact ⟨_, stored, _, MountTree.set_nodes_self, rfl, rfl⟩

variable (natural) in
theorem RootHas.clearRoot {m : FlVfsMount} {e : Option PluginEntry} {old : VfsHandles}
    (h : RootHas m e old) (fresh : NodePtr) :
    ∃ m', MountSection.clearRoot.run natural fresh m = some ((), m') ∧ RootHas m' none [] := by
  obtain ⟨n, hn, -, -⟩ := h
  have stored : MountSection.clearRoot.run natural fresh m = some ((),
      { m with
        tree := m.tree.set m.tree.root { n with pluginEntry := none, handles := [] }
        watcherHandle := 0
        watchingEnabled := false }) := by
    simp only [MountSection.run, MountTree.update_some hn, Option.bind_eq_bind, Option.bind_some]
  exact ⟨_, stored, _, MountTree.set_nodes_self, rfl, rfl⟩

variable (natural o entry handle) in
/-- The root gets the driver that the resolution ended with, and whatever cloning gave. -/
theorem finishMount_resolved (slots : ℕ) {e : Option PluginEntry} {old : VfsHandles}
    (h : RootHas s.mount e old) :
    let c := execute (serve natural o) (onDrivers (vfsTreeClonePluginHandle slots entry handle)) s
    let f := execute (serve natural o) (finishMount slots (.resolved entry handle)) s
    f.1 = VFS_STATE_SUCCESS ∧ RootHas f.2.mount (some entry) c.1 ∧
      (c.1.slot 0 ≠ none → f.2.ledger = c.2.ledger) := by
  intro c f
  let closing : VfsProgram Unit :=
    if c.1.slot 0 = none then onDrivers (driver (.close entry handle)) else pure ()
  let u := (execute (serve natural o) closing c.2).2
  have kept : u.mount = s.mount := by
    have cloned : c.2.mount = s.mount := onDrivers_mount natural o _
    show (execute (serve natural o) closing c.2).2.mount = _
    simp only [closing]
    split_ifs
    · exact (onDrivers_mount natural o _).trans cloned
    · exact cloned
  have untouched : c.1.slot 0 ≠ none → u.ledger = c.2.ledger := by
    intro usable
    simp only [u, closing, if_neg usable]
    rfl
  have root : RootHas u.mount e old := kept ▸ h
  have watching : serve natural o (.mount .loadWatching) u =
      ((u.mount.enableFileWatching, u.mount.sourcePath), u) := serve_mount rfl
  have store : ∀ (v : MountWorld W) (watcher : ℕ), v.mount = u.mount → v.ledger = u.ledger →
      RootHas (serve natural o (.mount (.storeRoot entry c.1 watcher)) v).2.mount (some entry)
        c.1 ∧
      (serve natural o (.mount (.storeRoot entry c.1 watcher)) v).2.ledger = u.ledger := by
    intro v watcher sameMount sameLedger
    obtain ⟨m', stored, has⟩ := (sameMount ▸ root).storeRoot natural entry c.1
      (o.slot v.mount.tree v.world) watcher
    rw [serve_mount stored]
    exact ⟨has, sameLedger⟩
  have text : f = execute (serve natural o)
      (if u.mount.enableFileWatching ∧ entry.plugin.name = "LocalFS".toList then do
        let watcher ← perform (.fileWatcherStart u.mount.sourcePath)
        onMount (.storeRoot entry c.1 watcher)
        pure VFS_STATE_SUCCESS
      else do
        onMount (.storeRoot entry c.1 0)
        pure VFS_STATE_SUCCESS) u := by
    have after : ∀ g : Bool × FlString → VfsProgram VfsOpStatus,
        execute (serve natural o) (onMount .loadWatching >>= g) u =
          execute (serve natural o) (g (u.mount.enableFileWatching, u.mount.sourcePath)) u := by
      intro g
      rw [execute_bind, execute_onMount, watching]
    simp only [f, finishMount]
    rw [execute_bind]
    by_cases unusable : c.1.slot 0 = none
    · have state : u = (execute (serve natural o)
          (onDrivers (driver (.close entry handle))) c.2).2 := by
        simp only [u, closing, if_pos unusable]
      rw [if_pos unusable, execute_bind, ← state, after]
    · have state : u = c.2 := by
        simp only [u, closing, if_neg unusable]
        rfl
      rw [if_neg unusable, ← state, after]
  rw [text]
  split_ifs
  · have stored := store (serve natural o (.fileWatcherStart u.mount.sourcePath) u).2
      (serve natural o (.fileWatcherStart u.mount.sourcePath) u).1 rfl rfl
    exact ⟨rfl, stored.1, fun usable => stored.2.trans (untouched usable)⟩
  · have stored := store u 0 rfl rfl
    exact ⟨rfl, stored.1, fun usable => stored.2.trans (untouched usable)⟩

variable (natural o) in
theorem finishMount_failed (slots : ℕ) {e : Option PluginEntry} {old : VfsHandles}
    (error : VfsResolveError) (h : RootHas s.mount e old) :
    (execute (serve natural o) (finishMount slots (.failed error)) s).1 = VFS_ERROR_MOUNT ∧
      RootHas (execute (serve natural o) (finishMount slots (.failed error)) s).2.mount none
        [] := by
  obtain ⟨m', cleared, has⟩ := h.clearRoot natural (o.slot s.mount.tree s.world)
  simp only [finishMount, execute_bind, execute_onMount, serve_mount cleared, pure_eq,
    execute_done]
  exact ⟨trivial, has⟩

section
variable {slots : ℕ} {self : VfsState}
variable {Score : Type} [LinearOrder Score] {matcher : Matcher Score}

theorem slot_some (handles : List DriverPtr) (worker : ℕ) :
    VfsHandles.slot (handles.map some) worker = handles[worker]? := by
  simp only [VfsHandles.slot, List.getElem?_map]
  cases handles[worker]? <;> rfl

theorem slot_empty (worker : ℕ) : VfsHandles.slot [] worker = none := rfl

/-- Without a driver at the root every report says so. -/
theorem agrees_unmounted {status : VfsOpStatus} (h : RootHas s.mount none [])
    (failed : status ≠ VFS_STATE_SUCCESS) :
    Agrees natural o self slots matcher s status := by
  have notReady : ¬ vfsMountGetStatus s.mount true = .ready := fun ready =>
    absurd (h.status.mp ready).1 (by simp)
  have notOpen : ¬ RootOpen slots s := fun opened => by
    obtain ⟨entry, e, -⟩ := h.open_iff.mp opened
    exact absurd e (by simp)
  exact ⟨iff_of_false failed notReady, iff_of_false notReady notOpen,
    fun _ => alwaysFails natural o self slots matcher h⟩

/-- A root with a driver and open handles in all slots is reported as such. -/
theorem agrees_mounted {handles : List DriverPtr} (h : RootHas s.mount (some entry)
      (handle :: handles |>.map some)) (length : slots ≤ handles.length + 1)
    (opened : ∀ x ∈ handle :: handles, ⟨entry.id, x⟩ ∈ s.ledger.opened) :
    Agrees natural o self slots matcher s VFS_STATE_SUCCESS := by
  have ready : vfsMountGetStatus s.mount true = .ready := h.status.mpr ⟨rfl, rfl⟩
  have allOpen : RootOpen slots s := by
    refine h.open_iff.mpr ⟨entry, rfl, fun worker inside => ?_⟩
    have bound : worker < (handle :: handles).length := by
      rw [List.length_cons]
      omega
    refine ⟨(handle :: handles)[worker], ?_, opened _ (List.getElem_mem bound)⟩
    rw [slot_some, List.getElem?_eq_getElem bound]
  exact ⟨iff_of_true rfl ready, iff_of_true ready allOpen, fun not => absurd allOpen not⟩

/-- A mount operation is not stopped halfway: it is canceled before it begins, or its path
does not resolve, or the driver it resolves to gives a clone for every further slot. -/
def NotHalfway (natural : NaturalCompare) (o : Outside W) (self : VfsState) (slots rounds : ℕ)
    (path : FlString) (s : MountWorld W) : Prop :=
  let polled := serve natural o .shouldCancel s
  let resolved := execute (serve natural o) (onDrivers (vfsTreeMountPath self rounds path)) polled.2
  polled.1 = true ∨ ∀ result, resolved.1 = some result → ServesSlots natural o slots resolved.2 result

/-- The reports of a mount operation agree exactly when it was not stopped halfway. -/
theorem mount_status_agrees_iff (self : VfsState) (matcher : Matcher Score) (slots rounds : ℕ)
    (path : FlString) (natural : NaturalCompare) (o : Outside W) (s : MountWorld W)
    (fresh : RootHas s.mount none []) (accounted : s.ledger.Accounted)
    (enough : (self.paths.components path).length < rounds) :
    ∃ status t, execute (serve natural o) (executeMount self slots rounds path) s =
        (some status, t) ∧
      (Agrees natural o self slots matcher t status ↔
        NotHalfway natural o self slots rounds path s) := by
  unfold NotHalfway executeMount
  have freshPolled : RootHas (serve natural o .shouldCancel s).2.mount none [] := fresh
  have accountedPolled : (serve natural o .shouldCancel s).2.ledger.Accounted := accounted
  rw [execute_bind, execute_shouldCancel]
  generalize serve natural o .shouldCancel s = polled at freshPolled accountedPolled
  obtain ⟨canceled, u⟩ := polled
  cases canceled with
  | true => exact ⟨_, _, rfl, iff_of_true (agrees_unmounted freshPolled (by decide)) (.inl rfl)⟩
  | false =>
      simp only [Bool.false_eq_true, if_false, false_or, vfsOpMount, execute_bind]
      have ran := onDrivers_run natural o (s := u)
        (vfsTreeMountPath self rounds path)
      have still := onDrivers_mount natural o (s := u)
        (vfsTreeMountPath self rounds path)
      generalize execute (serve natural o) (onDrivers (vfsTreeMountPath self rounds path)) u =
        resolved at ran still
      obtain ⟨result, v⟩ := resolved
      obtain ⟨final, rfl, leaves⟩ := mountPath_leaves accountedPolled enough ran
      have root : RootHas v.mount none [] := by
        rw [still]
        exact freshPolled
      simp only [execute_bind, Option.some.injEq, forall_eq']
      cases final with
      | failed error =>
          have finished := finishMount_failed natural o slots error root
          refine ⟨VFS_ERROR_MOUNT, _, ?_, iff_of_true (agrees_unmounted finished.2 (by decide))
            trivial⟩
          rw [finished.1]
          rfl
      | resolved entry handle =>
          have finished := finishMount_resolved natural o entry handle slots root
          refine ⟨VFS_STATE_SUCCESS,
            (execute (serve natural o) (finishMount slots (.resolved entry handle)) v).2, ?_, ?_⟩
          · rw [finished.1]
            rfl
          · obtain ⟨-, stored, ledger⟩ := finished
            constructor
            · rintro ⟨reported, -, -⟩
              by_contra refused
              have empty := cloneLoop_refused [] refused
              rw [vfsTreeClonePluginHandle, empty] at stored
              have ready := reported.mp rfl
              exact absurd (stored.status.mp ready).2 (by simp [slot_empty])
            · intro serves
              obtain ⟨new, slotsFull, length, kept, opened⟩ :=
                cloneLoop_clones [] serves
              rw [List.nil_append] at slotsFull
              rw [vfsTreeClonePluginHandle, slotsFull] at stored ledger
              have sameLedger := ledger (by simp [VfsHandles.slot])
              refine agrees_mounted stored (by omega) fun x hx => ?_
              rw [sameLedger]
              rcases List.mem_cons.mp hx with rfl | hx
              · refine kept ?_
                exact leaves.mem_opened
              · exact opened x hx

end

end

/-! ## A driver with clones, and one without -/

/-- Drivers of which none gives a clone, and nothing that interferes. -/
def withoutClones : Outside Unit where
  driver op l w := ((obliging op l).1, (obliging op l).2, w)
  lawful op l _ := obliging_contract l op
  other
    | .driver op, w => ((obliging op {}).1, w)
    | .mount op, w => (op.fallback, w)
    | .shouldCancel, w => (false, w)
    | .allocate _, w => (some (0 : ℕ), w)
    | .reallocate b _, w => (some b, w)
    | .release _, w => ((), w)
    | .readFile .., w => (⟨0, []⟩, w)
    | .callback .., w => (none, w)
    | .fileWatcherStart _, w => ((0 : ℕ), w)
    | .strayString, w => ([], w)
  slot t _ := t.count

def freshMount : MountWorld Unit where
  mount.tree :=
    { nodes := fun p => if p = 0 then some { name := [], isDirectory := true } else none
      count := 1
      root := 0 }
  ledger := {}
  world := ()

def anyMatch : Matcher ℕ := ⟨fun _ _ => true, fun _ _ => 0⟩

/-- The drivers of `obliging`, with clones. -/
def cloning : Program.Handler drivers Ledger
  | .clone e h, l =>
      let u := l.use ⟨e.id, h⟩
      (⟨some (newHandle u), false, false⟩, u.gain ⟨e.id, newHandle u⟩)
  | op, l => obliging op l

theorem cloning_contract (l : Ledger) (op : drivers.Op) :
    contract l op (cloning op l).1 (cloning op l).2 := by
  cases op with
  | clone e h => exact ⟨newHandle_fresh _ _, rfl⟩
  | _ => exact obliging_contract l _

def withClones : Outside Unit :=
  { withoutClones with
    driver := fun op l w => ((cloning op l).1, (cloning op l).2, w)
    lawful := fun op l _ => cloning_contract l op }

def cloningDriver : PluginEntry := ⟨0, { name := ['l'], hasClone := true }⟩

def cloningState : VfsState := ⟨[cloningDriver], letters⟩

/-- With two worker slots the second one gets a clone. -/
theorem mount_status_agrees_two_slots :
    ∃ status t, execute (serve (fun _ _ => 0) withClones)
        (executeMount cloningState 2 3 ['d']) freshMount = (some status, t) ∧
      (t.mount.tree.nodes 0).map VfsTreeNode.handles = some [some 0, some 1] ∧
      Agrees (fun _ _ => 0) withClones cloningState 2 anyMatch t status := by
  obtain ⟨status, t, ran, agrees⟩ := mount_status_agrees_iff cloningState anyMatch 2 3 ['d']
    (fun _ _ => 0) withClones freshMount ⟨_, rfl, rfl, rfl⟩ .empty (by decide)
  have row : (((execute (serve (fun _ _ => 0) withClones) (executeMount cloningState 2 3 ['d'])
      freshMount).2.mount.tree.nodes 0).map VfsTreeNode.handles) = some [some 0, some 1] := by
    decide
  rw [ran] at row
  refine ⟨status, t, ran, row, agrees.mpr (.inr fun result resolved => ?_)⟩
  have driver : result = .resolved cloningDriver 0 := by
    have found : (execute (serve (fun _ _ => 0) withClones)
        (onDrivers (vfsTreeMountPath cloningState 3 ['d'])) freshMount).1 =
          some (.resolved cloningDriver 0) := rfl
    exact Option.some.inj (resolved.symm.trans found)
  rw [driver]
  exact ⟨rfl, rfl, trivial⟩

/-- Without a clone the operation reports success, the mount an error, and a listing of its root
hands the driver a null container. -/
theorem mount_status_disagrees :
    ∃ t, execute (serve (fun _ _ => 0) withoutClones) (executeMount obligingState 2 3 ['d'])
        freshMount = (some VFS_STATE_SUCCESS, t) ∧
      vfsMountGetStatus t.mount true = .error ∧
      ¬ Agrees (fun _ _ => 0) withoutClones obligingState 2 anyMatch t VFS_STATE_SUCCESS ∧
      ¬ Avoids (serve (fun _ _ => 0) withoutClones) NullContainer
        (vfsOpsExecute obligingState 2 anyMatch 0 (.list [] [])) t := by
  have error : vfsMountGetStatus (execute (serve (fun _ _ => 0) withoutClones)
      (executeMount obligingState 2 3 ['d']) freshMount).2.mount true = .error := by decide
  refine ⟨_, Prod.ext (by decide) rfl, error, fun agrees => ?_, by decide⟩
  obtain ⟨reported, -, -⟩ := agrees
  exact absurd ((reported.mp rfl).symm.trans error) (by decide)

end FlowiVfs.Tree
