import FlowiVfs.HandleState

/-!
# The critical sections of `vfs.c`

Every function here is the body of one critical section of `handle_lock`, or the
code a thread runs between two of them on data only it can reach. `Instr` names
the points of the public functions at which such a body runs, together with the
local variables the rest of the function still needs; what a thread has left to
do is a list of them.
-/
namespace FlowiVfs

/-- What a handle is born with. -/
structure VfsOpParams where
  mount : MountPtr
  opType : VfsOperationType
  callback : Bool
  release : Bool
  reuseHandle : FlVfsHandle
deriving DecidableEq, Repr

/-- The parameters of `vfs_mount_read_all_with_options` and `vfs_mount_read_all_prepare`. -/
structure VfsReadAllParams where
  mount : MountPtr
  callback : Bool
  release : Bool
  reuseHandle : FlVfsHandle
deriving DecidableEq, Repr

def VfsReadAllParams.toOp (params : VfsReadAllParams) : VfsOpParams :=
  ⟨params.mount, .readAll, params.callback, params.release, params.reuseHandle⟩

/-- The operation that `vfs_read` or `vfs_write_internal` chains onto a file handle. -/
structure VfsFileOpParams where
  opType : VfsOperationType
  readSize : ℤ
  writeData : Option ℕ
  writeSize : ℤ
  writeDataOwned : Bool
deriving DecidableEq, Repr

inductive Instr
  /-- `allocate_op` before `allocate_handle`, and the same of `vfs_mount_read_all_prepare`. -/
  | allocOp (params : VfsOpParams)
  | prepare (params : VfsReadAllParams)
  /-- `allocate_op` at `vfs_ops_schedule_job`, and there with the job run inline. -/
  | schedule (p : HandlePtr)
  | inlineOp (p : HandlePtr) (job result : FlJobHandle)
  /-- `vfs_publish_handle`. -/
  | publish (p : HandlePtr)
  /-- `vfs_mount_with_options`, which holds `mount_lock` to its end. -/
  | mountOpen
  | mountSchedule (m : MountPtr) (p : HandlePtr)
  | mountInline (m : MountPtr) (p : HandlePtr) (job : FlJobHandle)
  | mountPublish (m : MountPtr) (p : HandlePtr) (job : FlJobHandle)
  /-- `vfs_dispatch`: its first critical section, the scheduling, its last critical section. -/
  | dispatch (h : FlVfsHandle)
  | dispatchSchedule (h : FlVfsHandle) (p : HandlePtr)
  | dispatchInline (h : FlVfsHandle) (p : HandlePtr) (job result : FlJobHandle)
  | dispatchRecord (h : FlVfsHandle) (p : HandlePtr) (job : FlJobHandle)
  /-- `vfs_write` copying the caller's data. -/
  | copyData (h : FlVfsHandle) (size : ℤ)
  /-- `vfs_chain_file_op`. The code keeps no pointer to the file handle: `file` only
  names the handle whose `pending_dispatches` the first critical section raised, and
  `ticket` that section's entry in the trace. -/
  | chain (h : FlVfsHandle) (params : VfsFileOpParams)
  | chainAlloc (h : FlVfsHandle) (file : HandlePtr) (ticket : ℕ) (params : VfsFileOpParams)
      (mount : MountPtr) (chainAfter : FlJobHandle)
  | chainUnwind (h : FlVfsHandle) (file : HandlePtr)
  | chainRun (h : FlVfsHandle) (file : HandlePtr) (ticket : ℕ) (p : HandlePtr)
      (chainAfter : FlJobHandle)
  | chainInline (h : FlVfsHandle) (file p : HandlePtr) (job : FlJobHandle)
  | chainPublish (h : FlVfsHandle) (file p : HandlePtr) (refused : Bool)
  | cancel (h : FlVfsHandle)
  /-- `vfs_reclaim_closed_handles`. -/
  | reclaim
  /-- `vfs_release_list_run_all` with the hooks still to run. -/
  | releases (hooks : List HandlePtr)
  /-- `vfs_close` after its sweep: the snapshot, and the section that decides. -/
  | closeSnapshot (h : FlVfsHandle)
  | closeFinish (h : FlVfsHandle) (borrowsCallerMemory : Bool)
  /-- `fl_jobs_wait` on each job of a list. -/
  | waitJobs (jobs : List FlJobHandle)
  | waitSnapshot (h : FlVfsHandle)
  | waitAllSnapshot
  /-- `vfs_mount_close`. -/
  | mountUnlist (m : MountPtr)
  | mountSnapshot (m : MountPtr)
  | mountDrain (m : MountPtr) (victims : List FlVfsHandle)
  | mountFree (m : MountPtr) (victims : List FlVfsHandle)
  | mountDestroy (m : MountPtr)
  /-- `vfs_destroy` at its loop over the mounts. -/
  | destroyLoop
deriving DecidableEq, Repr

/-- One call of a public function: the thread it runs on and what is left of it. -/
structure Call where
  thread : Thread
  todo : List Instr
deriving DecidableEq, Repr

structure VfsState where
  nextHandleId : FlVfsHandle
  nextPtr : HandlePtr
  pool : HandlePtr → Option VfsHandleData
  handleMap : AList (fun _ : FlVfsHandle => HandlePtr)
  closedCount : ℤ
  nextMount : MountPtr
  mounts : MountPtr → Option FlVfsMount
  mountList : List MountPtr
  /-- Mounts whose `vfs_mount_close` has taken its snapshot. -/
  closing : List MountPtr
  nextJob : FlJobHandle
  jobs : FlJobHandle → Option Job
  nextBuffer : ℕ
  calls : List Call
  /-- `g_vfs_state` has been cleared. -/
  destroyed : Bool
  trace : List Event

/-- The state `vfs_init` leaves. -/
def VfsState.init : VfsState where
  nextHandleId := 1
  nextPtr := 0
  pool := fun _ => none
  handleMap := ∅
  closedCount := 0
  nextMount := 0
  mounts := fun _ => none
  mountList := []
  closing := []
  nextJob := 1
  jobs := fun _ => none
  nextBuffer := 0
  calls := []
  destroyed := false
  trace := []

namespace VfsState

def emit (s : VfsState) (e : Event) : VfsState := { s with trace := e :: s.trace }

/-- Write fields of the handle data at `p`. -/
def modify (s : VfsState) (p : HandlePtr) (f : VfsHandleData → VfsHandleData) : VfsState :=
  { s with pool := Function.update s.pool p ((s.pool p).map f) }

/-- Hand a job to the job system; its handle is `s.nextJob`. -/
def addJob (s : VfsState) (k : Job) : VfsState :=
  { s with nextJob := s.nextJob + 1, jobs := Function.update s.jobs s.nextJob (some k) }

def setPhase (s : VfsState) (j : FlJobHandle) (phase : JobPhase) : VfsState :=
  { s with jobs := Function.update s.jobs j ((s.jobs j).map fun k => { k with phase := phase }) }

/-- `fl_jobs_is_finished`. -/
def jobFinished (s : VfsState) (j : FlJobHandle) : Bool :=
  match s.jobs j with
  | some k => k.phase.isFinished
  | none => false

/-- No job, or a finished one. -/
def jobDone (s : VfsState) (j : FlJobHandle) : Bool := j == 0 || s.jobFinished j

/-- `hashmap_get` on the handle map. -/
def mapGet (s : VfsState) (h : FlVfsHandle) : Option HandlePtr := s.handleMap.lookup h

/-- `vfs_lookup_handle_locked`. -/
def lookupHandle (s : VfsState) (h : FlVfsHandle) : Option (HandlePtr × VfsHandleData) :=
  (s.mapGet h).bind fun p => (s.pool p).map fun d => (p, d)

/-- `vfs_lookup_open_handle_locked`. -/
def lookupOpenHandle (s : VfsState) (h : FlVfsHandle) : Option (HandlePtr × VfsHandleData) :=
  (s.lookupHandle h).filter fun r => !r.2.closed

section Fields

variable (s : VfsState) (e : Event) (p q : HandlePtr) (f : VfsHandleData → VfsHandleData)
  (k : Job) (j : FlJobHandle) (phase : JobPhase)

@[simp] theorem emit_pool : (s.emit e).pool = s.pool := rfl
@[simp] theorem emit_handleMap : (s.emit e).handleMap = s.handleMap := rfl
@[simp] theorem emit_jobs : (s.emit e).jobs = s.jobs := rfl
@[simp] theorem emit_trace : (s.emit e).trace = e :: s.trace := rfl
@[simp] theorem emit_closing : (s.emit e).closing = s.closing := rfl
@[simp] theorem emit_mounts : (s.emit e).mounts = s.mounts := rfl
@[simp] theorem emit_calls : (s.emit e).calls = s.calls := rfl
@[simp] theorem emit_destroyed : (s.emit e).destroyed = s.destroyed := rfl
@[simp] theorem emit_nextPtr : (s.emit e).nextPtr = s.nextPtr := rfl
@[simp] theorem emit_nextJob : (s.emit e).nextJob = s.nextJob := rfl

@[simp] theorem modify_handleMap : (s.modify p f).handleMap = s.handleMap := rfl
@[simp] theorem modify_jobs : (s.modify p f).jobs = s.jobs := rfl
@[simp] theorem modify_trace : (s.modify p f).trace = s.trace := rfl
@[simp] theorem modify_closing : (s.modify p f).closing = s.closing := rfl
@[simp] theorem modify_mounts : (s.modify p f).mounts = s.mounts := rfl
@[simp] theorem modify_calls : (s.modify p f).calls = s.calls := rfl
@[simp] theorem modify_destroyed : (s.modify p f).destroyed = s.destroyed := rfl
@[simp] theorem modify_nextPtr : (s.modify p f).nextPtr = s.nextPtr := rfl
@[simp] theorem modify_nextJob : (s.modify p f).nextJob = s.nextJob := rfl

theorem modify_pool :
    (s.modify p f).pool q = if q = p then (s.pool p).map f else s.pool q := by
  simp [modify, Function.update_apply]

@[simp] theorem addJob_pool : (s.addJob k).pool = s.pool := rfl
@[simp] theorem addJob_handleMap : (s.addJob k).handleMap = s.handleMap := rfl
@[simp] theorem addJob_trace : (s.addJob k).trace = s.trace := rfl
@[simp] theorem addJob_closing : (s.addJob k).closing = s.closing := rfl
@[simp] theorem addJob_mounts : (s.addJob k).mounts = s.mounts := rfl
@[simp] theorem addJob_calls : (s.addJob k).calls = s.calls := rfl
@[simp] theorem addJob_destroyed : (s.addJob k).destroyed = s.destroyed := rfl
@[simp] theorem addJob_nextPtr : (s.addJob k).nextPtr = s.nextPtr := rfl
@[simp] theorem addJob_nextJob : (s.addJob k).nextJob = s.nextJob + 1 := rfl

theorem addJob_jobs : (s.addJob k).jobs j = if j = s.nextJob then some k else s.jobs j := by
  simp [addJob, Function.update_apply]

@[simp] theorem setPhase_pool : (s.setPhase j phase).pool = s.pool := rfl
@[simp] theorem setPhase_handleMap : (s.setPhase j phase).handleMap = s.handleMap := rfl
@[simp] theorem setPhase_trace : (s.setPhase j phase).trace = s.trace := rfl
@[simp] theorem setPhase_closing : (s.setPhase j phase).closing = s.closing := rfl
@[simp] theorem setPhase_mounts : (s.setPhase j phase).mounts = s.mounts := rfl
@[simp] theorem setPhase_calls : (s.setPhase j phase).calls = s.calls := rfl
@[simp] theorem setPhase_destroyed : (s.setPhase j phase).destroyed = s.destroyed := rfl
@[simp] theorem setPhase_nextPtr : (s.setPhase j phase).nextPtr = s.nextPtr := rfl
@[simp] theorem setPhase_nextJob : (s.setPhase j phase).nextJob = s.nextJob := rfl

theorem setPhase_jobs (j' : FlJobHandle) : (s.setPhase j phase).jobs j' =
    if j' = j then (s.jobs j).map (fun k => { k with phase := phase }) else s.jobs j' := by
  simp [setPhase, Function.update_apply]

variable {s j k}

theorem addJob_newest : (s.addJob k).jobs s.nextJob = some k := by
  rw [addJob_jobs, if_pos rfl]

/-- A job is the one made or was there before. -/
theorem addJob_some {k' : Job} (hj : (s.addJob k).jobs j = some k') :
    (j = s.nextJob ∧ k' = k) ∨ s.jobs j = some k' := by
  rw [addJob_jobs] at hj
  split_ifs at hj with hnew
  · exact .inl ⟨hnew, (Option.some.inj hj).symm⟩
  · exact .inr hj

theorem jobFinished_of (h : s.jobs j = some k) : s.jobFinished j = k.phase.isFinished := by
  simp [jobFinished, h]

theorem jobFinished_congr {s' : VfsState} (h : s'.jobs = s.jobs) :
    s'.jobFinished j = s.jobFinished j := by
  simp [jobFinished, h]

theorem jobDone_congr {s' : VfsState} (h : s'.jobs = s.jobs) : s'.jobDone j = s.jobDone j := by
  simp [jobDone, jobFinished, h]

theorem mapGet_congr {s' : VfsState} {h : FlVfsHandle} (hmap : s'.handleMap = s.handleMap) :
    s'.mapGet h = s.mapGet h := by
  rw [mapGet, mapGet, hmap]

@[simp] theorem emit_mapGet (h : FlVfsHandle) : (s.emit e).mapGet h = s.mapGet h := rfl
@[simp] theorem modify_mapGet (h : FlVfsHandle) : (s.modify p f).mapGet h = s.mapGet h := rfl
@[simp] theorem addJob_mapGet (h : FlVfsHandle) : (s.addJob k).mapGet h = s.mapGet h := rfl
@[simp] theorem setPhase_mapGet (h : FlVfsHandle) :
    (s.setPhase j phase).mapGet h = s.mapGet h := rfl

theorem mapGet_insert {s' : VfsState} {h h' : FlVfsHandle}
    (hmap : s'.handleMap = s.handleMap.insert h p) :
    s'.mapGet h' = if h' = h then some p else s.mapGet h' := by
  rw [mapGet, hmap]
  split_ifs with hh
  · subst hh
    exact AList.lookup_insert s.handleMap
  · exact AList.lookup_insert_ne hh

theorem mapGet_erase {s' : VfsState} {h h' : FlVfsHandle}
    (hmap : s'.handleMap = s.handleMap.erase h) :
    s'.mapGet h' = if h' = h then none else s.mapGet h' := by
  rw [mapGet, hmap]
  split_ifs with hh
  · subst hh
    exact AList.lookup_erase h' s.handleMap
  · exact AList.lookup_erase_ne hh

theorem lookupHandle_some {h : FlVfsHandle} {d : VfsHandleData} :
    s.lookupHandle h = some (p, d) ↔ s.mapGet h = some p ∧ s.pool p = some d := by
  simp only [lookupHandle, Option.bind_eq_some_iff, Option.map_eq_some_iff, Prod.mk.injEq]
  constructor
  · rintro ⟨p', hp', d', hd', rfl, rfl⟩
    exact ⟨hp', hd'⟩
  · rintro ⟨hp, hd⟩
    exact ⟨p, hp, d, hd, rfl, rfl⟩

theorem lookupOpenHandle_some {h : FlVfsHandle} {d : VfsHandleData} :
    s.lookupOpenHandle h = some (p, d) ↔
      s.mapGet h = some p ∧ s.pool p = some d ∧ d.closed = false := by
  simp only [lookupOpenHandle, Option.filter_eq_some_iff, lookupHandle_some, Bool.not_eq_true',
    and_assoc]

end Fields

end VfsState

/-- `vfs_handle_jobs`. -/
def vfsHandleJobs (jobHandle lastJob : FlJobHandle) : List FlJobHandle :=
  (if jobHandle ≠ 0 then [jobHandle] else []) ++
    (if lastJob ≠ 0 ∧ lastJob ≠ jobHandle then [lastJob] else [])

def VfsHandleData.handleJobs (d : VfsHandleData) : List FlJobHandle :=
  vfsHandleJobs d.jobHandle d.lastJob

/-- `vfs_jobs_finished`. -/
def vfsJobsFinished (s : VfsState) (jobs : List FlJobHandle) : Bool := jobs.all s.jobFinished

/-- The entries of the handle map with the data they point at, in map order. -/
def mapEntries (s : VfsState) : List (FlVfsHandle × HandlePtr × VfsHandleData) :=
  s.handleMap.entries.filterMap fun e => (s.pool e.2).map fun d => (e.1, e.2, d)

/-! ## Birth of a handle -/

def newHandleData (id : FlVfsHandle) (params : VfsOpParams) : VfsHandleData where
  jobHandle := 0
  pendingDispatches := 0
  closed := false
  mount := params.mount
  resultData := none
  opType := params.opType
  id := id
  errorStatus := VFS_STATE_PENDING
  callback := params.callback
  release := params.release
  pluginEntry := none
  pluginFileHandle := none
  lastJob := 0
  readSize := 0
  bytesRead := 0
  fileHandle := FL_VFS_HANDLE_INVALID
  writeData := none
  writeSize := 0
  writeDataOwned := false
  cancelRequested := false

/-- The id the next handle gets. -/
def VfsState.idFor (s : VfsState) (reuse : FlVfsHandle) : FlVfsHandle :=
  if reuse ≠ FL_VFS_HANDLE_INVALID then reuse else s.nextHandleId

/-- `allocate_handle`: refused when the id to reuse is still in the map. The
counter of fresh ids is a 32-bit one. -/
def allocateHandle (s : VfsState) (params : VfsOpParams) : Option (HandlePtr × VfsState) :=
  if params.reuseHandle ≠ FL_VFS_HANDLE_INVALID ∧
      (s.mapGet params.reuseHandle).isSome then none
  else some (s.nextPtr, { s with
    nextPtr := s.nextPtr + 1
    nextHandleId := if params.reuseHandle ≠ FL_VFS_HANDLE_INVALID then s.nextHandleId
      else (s.nextHandleId + 1) % 2 ^ 32
    pool := Function.update s.pool s.nextPtr
      (some (newHandleData (s.idFor params.reuseHandle) params)) })

/-- `vfs_publish_handle`. -/
def vfsPublishHandle (s : VfsState) (p : HandlePtr) : VfsState :=
  match s.pool p with
  | some d => { s with handleMap := s.handleMap.insert d.id p }.emit
      (.published p d.mount d.release)
  | none => s

def setJobs (job : FlJobHandle) (d : VfsHandleData) : VfsHandleData :=
  { d with jobHandle := job, lastJob := job }

/-! ## Freeing -/

/-- `vfs_free_handle_resources`, as the events it causes. -/
def freeResources (d : VfsHandleData) : List Event :=
  match d.opType with
  | .fileOpen =>
      match d.pluginFileHandle, d.pluginEntry with
      | some f, some plugin => if plugin.close then [.driverClosed f] else []
      | _, _ => []
  | .fileWrite =>
      match d.writeData with
      | some b => if d.writeDataOwned then [.bufferFreed b] else []
      | none => []
  | _ => []

/-- `vfs_free_handle_locked`: the handle leaves the map and the pool; its hook, if it
has one, is handed back to be run later. -/
def vfsFreeHandleLocked (s : VfsState) (p : HandlePtr) (cause : FreeCause) :
    VfsState × List HandlePtr :=
  match s.pool p with
  | none => (s, [])
  | some d =>
      ({ s with
          closedCount := if d.closed then s.closedCount - 1 else s.closedCount
          handleMap := s.handleMap.erase d.id
          pool := Function.update s.pool p none
          trace := .freed p d.mount cause :: (freeResources d ++ s.trace) },
        if d.release then [p] else [])

/-- Free a list of handles in order, collecting their hooks. -/
def freeHandles (s : VfsState) (ps : List HandlePtr) (cause : FreeCause) :
    VfsState × List HandlePtr :=
  match ps with
  | [] => (s, [])
  | p :: ps =>
      let freed := vfsFreeHandleLocked s p cause
      let rest := freeHandles freed.1 ps cause
      (rest.1, freed.2 ++ rest.2)

/-- `vfs_handle_is_reclaimable`. -/
def vfsHandleIsReclaimable (s : VfsState) (d : VfsHandleData) : Bool :=
  d.closed && d.pendingDispatches == 0 && vfsJobsFinished s d.handleJobs

/-- The locked part of `vfs_reclaim_closed_handles`. -/
def vfsReclaimClosedHandles (s : VfsState) : VfsState × List HandlePtr :=
  if s.closedCount = 0 then (s, [])
  else freeHandles s
    (((mapEntries s).filter fun e => vfsHandleIsReclaimable s e.2.2).map fun e => e.2.1) .closed

/-- `vfs_op_borrows_caller_memory`. -/
def vfsOpBorrowsCallerMemory (opType : VfsOperationType) : Bool :=
  opType == .fileRead || opType == .fileWrite

/-- The last critical section of `vfs_close`: refused, deferred or freed. -/
def closeFinish (s : VfsState) (t : Thread) (h : FlVfsHandle) (borrows : Bool) :
    VfsState × List HandlePtr :=
  match s.lookupOpenHandle h with
  | none => (s, [])
  | some (p, d) =>
      if d.pendingDispatches = 0 ∧ vfsJobsFinished s d.handleJobs then
        vfsFreeHandleLocked (s.emit (.closed p)) p .closed
      else if t ≠ .main then (s, [])
      else if borrows then (s, [])
      else (({ s with closedCount := s.closedCount + 1 }.modify p
        fun d => { d with closed := true }).emit (.closed p), [])

/-! ## Scheduling -/

/-- The dependency `vfs_ops_schedule_job` gives a job on a mount: the mount's own
job while it is unfinished. -/
def mountDependency (s : VfsState) (m : FlVfsMount) : FlJobHandle :=
  if m.jobHandle ≠ 0 ∧ !s.jobFinished m.jobHandle then m.jobHandle else 0

/-- How the job system takes a job. Only a worker runs one inline, and then the
handle it returns is 0 or names the finished job. -/
inductive Sched
  | queue
  | inline (returnsZero : Bool)
deriving DecidableEq, Repr

/-- What `vfs_ops_schedule_job` hands back: a queued job, or a job the calling worker
runs inline together with the job handle the call will return for it. -/
inductive Scheduled
  | queued (job : FlJobHandle)
  | ran (job result : FlJobHandle)

/-- `vfs_ops_schedule_job` for the handle at `p`. -/
def vfsOpsScheduleJob (s : VfsState) (t : Thread) (p : HandlePtr) (sched : Sched) :
    Option (VfsState × Scheduled) :=
  match s.pool p with
  | none => none
  | some d =>
    match s.mounts d.mount with
    | none => none
    | some m =>
      match sched with
      | .queue =>
          some (s.addJob ⟨p, mountDependency s m, none, .queued⟩, .queued s.nextJob)
      | .inline returnsZero =>
          if t ≠ .main ∧ mountDependency s m = 0 then
            some (s.addJob ⟨p, 0, none, .started⟩,
              .ran s.nextJob (if returnsZero then 0 else s.nextJob))
          else none

/-! ## Dispatching and chaining -/

/-- The first critical section of `vfs_dispatch`. -/
def dispatchEnter (s : VfsState) (h : FlVfsHandle) : VfsState × List Instr :=
  match s.lookupOpenHandle h with
  | none => (s, [])
  | some (p, _) =>
      ((s.modify p fun d => { d with pendingDispatches := d.pendingDispatches + 1 }).emit
        (.dispatched p), [.dispatchSchedule h p])

/-- The last critical section of `vfs_dispatch`. -/
def dispatchRecord (s : VfsState) (h : FlVfsHandle) (p : HandlePtr) (job : FlJobHandle) :
    VfsState :=
  if s.mapGet h = some p then
    s.modify p fun d => { d with
      jobHandle := job, lastJob := job, pendingDispatches := d.pendingDispatches - 1 }
  else s

/-- The first critical section of `vfs_chain_file_op`. -/
def chainEnter (s : VfsState) (h : FlVfsHandle) (params : VfsFileOpParams) :
    VfsState × List Instr :=
  match s.lookupOpenHandle h with
  | none => (s, [])
  | some (f, d) =>
      if d.opType ≠ .fileOpen then (s, [])
      else ((s.modify f fun d => { d with pendingDispatches := d.pendingDispatches + 1 }).emit
        (.entered s.trace.length f), [.chainAlloc h f s.trace.length params d.mount d.lastJob])

/-- The operation handle `vfs_chain_file_op` fills in. -/
def chainFill (h : FlVfsHandle) (params : VfsFileOpParams) (d : VfsHandleData) : VfsHandleData :=
  { d with
    fileHandle := h
    readSize := params.readSize
    writeData := params.writeData
    writeSize := params.writeSize
    writeDataOwned := params.writeDataOwned }

def chainAllocate (s : VfsState) (h : FlVfsHandle) (file : HandlePtr) (ticket : ℕ)
    (params : VfsFileOpParams) (mount : MountPtr) (chainAfter : FlJobHandle) :
    VfsState × List Instr :=
  match allocateHandle s ⟨mount, params.opType, false, false, FL_VFS_HANDLE_INVALID⟩ with
  | none => (s, [.chainUnwind h file])
  | some (p, s) => (s.modify p (chainFill h params), [.chainRun h file ticket p chainAfter])

/-- The critical section of the refused allocation in `vfs_chain_file_op`. -/
def chainUnwind (s : VfsState) (h : FlVfsHandle) : VfsState :=
  match s.lookupHandle h with
  | none => s
  | some (f, _) => s.modify f fun d => { d with pendingDispatches := d.pendingDispatches - 1 }

/-- `vfs_chain_file_op` between its critical sections: the main thread queues the
operation behind `chainAfter`, a worker runs it inline unless `chainAfter` is unfinished. -/
def chainExecute (s : VfsState) (t : Thread) (h : FlVfsHandle) (file : HandlePtr)
    (ticket : ℕ) (p : HandlePtr) (chainAfter : FlJobHandle) : VfsState × List Instr :=
  if t ≠ .main then
    if chainAfter ≠ 0 ∧ !s.jobFinished chainAfter then
      (s.modify p fun d => { d with errorStatus := VFS_ERROR_WOULD_BLOCK },
        [.chainPublish h file p true])
    else (s.addJob ⟨p, 0, some (ticket, file), .started⟩, [.chainInline h file p s.nextJob])
  else ((s.addJob ⟨p, chainAfter, some (ticket, file), .queued⟩).modify p (setJobs s.nextJob),
    [.chainPublish h file p false])

/-- The last critical section of `vfs_chain_file_op`. -/
def chainPublish (s : VfsState) (h : FlVfsHandle) (p : HandlePtr) (refused : Bool) : VfsState :=
  let s' := match s.lookupHandle h, s.pool p with
    | some (f, _), some op => s.modify f fun d => { d with
        lastJob := if refused then d.lastJob else op.jobHandle
        pendingDispatches := d.pendingDispatches - 1 }
    | _, _ => s
  vfsPublishHandle s' p

/-! ## Mounts -/

/-- `vfs_mount_with_options` up to the scheduling. The mount is listed at once, but no
caller can name it before the function returns, so it enters `mounts` only then. -/
def mountOpen (s : VfsState) : VfsState × List Instr :=
  let m := s.nextMount
  match allocateHandle { s with nextMount := m + 1, mountList := s.mountList ++ [m] }
      ⟨m, .mount, false, false, FL_VFS_HANDLE_INVALID⟩ with
  | none => (s, [])
  | some (p, s) => (s, [.mountSchedule m p])

def mountSchedule (s : VfsState) (t : Thread) (m : MountPtr) (p : HandlePtr) :
    VfsState × List Instr :=
  if t ≠ .main then (s.addJob ⟨p, 0, none, .started⟩, [.mountInline m p s.nextJob])
  else ((s.addJob ⟨p, 0, none, .queued⟩).modify p (setJobs s.nextJob),
    [.mountPublish m p s.nextJob])

/-- The handle is published and the mount pointer returned. -/
def mountPublish (s : VfsState) (m : MountPtr) (p : HandlePtr) (job : FlJobHandle) : VfsState :=
  vfsPublishHandle { s with mounts := Function.update s.mounts m (some ⟨job⟩) } p

/-- `vfs_snapshot_mount_victims`. -/
def vfsSnapshotMountVictims (s : VfsState) (m : MountPtr) : List (FlVfsHandle × List FlJobHandle) :=
  ((mapEntries s).filter fun e => e.2.2.mount == m).map fun e => (e.2.2.id, e.2.2.handleJobs)

/-- A victim as `vfs_refresh_mount_victims` finds it: its jobs, and whether it has work outstanding. -/
def refreshVictim (s : VfsState) (h : FlVfsHandle) : List FlJobHandle × Bool :=
  match s.lookupHandle h with
  | none => ([], false)
  | some (_, d) =>
      (d.handleJobs, d.pendingDispatches != 0 || !vfsJobsFinished s d.handleJobs)

/-- The rest of `vfs_drain_mount_victims` after one `vfs_refresh_mount_victims`. -/
def mountDrain (s : VfsState) (m : MountPtr) (victims : List FlVfsHandle) : List Instr :=
  let refreshed := victims.map (refreshVictim s)
  if refreshed.any (fun r => r.2) then
    [.waitJobs (refreshed.flatMap fun r => r.1), .mountDrain m victims]
  else
    let own := (s.mounts m).elim 0 FlVfsMount.jobHandle
    [.waitJobs (if own ≠ 0 then [own] else []), .mountFree m victims]

/-- `vfs_free_mount_victims`. -/
def vfsFreeMountVictims (s : VfsState) (m : MountPtr) (victims : List FlVfsHandle) :
    VfsState × List HandlePtr :=
  match victims with
  | [] => (s, [])
  | h :: hs =>
      match s.lookupHandle h with
      | none => vfsFreeMountVictims s m hs
      | some (p, _) =>
          let freed := vfsFreeHandleLocked s p (.mountClose m)
          let rest := vfsFreeMountVictims freed.1 m hs
          (rest.1, freed.2 ++ rest.2)

/-! ## What callers read -/

structure VfsHandleSnapshot where
  opType : VfsOperationType
  jobHandle : FlJobHandle
  lastJob : FlJobHandle
  mount : MountPtr
  ready : Bool
  dispatchPending : Bool
  pluginEntry : Option FilePlugin
  pluginFileHandle : Option ℕ
  resultData : Option ResultData
  errorStatus : VfsOpStatus
deriving DecidableEq, Repr

/-- `vfs_snapshot_handle`. -/
def vfsSnapshotHandle (s : VfsState) (h : FlVfsHandle) : Option VfsHandleSnapshot :=
  if h = FL_VFS_HANDLE_INVALID then none
  else (s.lookupOpenHandle h).map fun r =>
    let d := r.2
    let pending := d.pendingDispatches != 0
    let ready := !pending && (d.jobHandle == 0 || s.jobFinished d.jobHandle)
    { opType := d.opType
      jobHandle := d.jobHandle
      lastJob := d.lastJob
      mount := d.mount
      ready := ready
      dispatchPending := pending
      pluginEntry := if ready then d.pluginEntry else none
      pluginFileHandle := if ready then d.pluginFileHandle else none
      resultData := d.resultData
      errorStatus := d.errorStatus }

def vfsIsReady (s : VfsState) (h : FlVfsHandle) : Bool :=
  match vfsSnapshotHandle s h with
  | some snap => snap.ready
  | none => false

def vfsGetStatus (s : VfsState) (h : FlVfsHandle) : VfsOpStatus :=
  match vfsSnapshotHandle s h with
  | none => VFS_STATE_ERROR
  | some snap => if snap.ready then snap.errorStatus else VFS_STATE_PENDING

/-- `vfs_snapshot_ready_result` with the empty result its two callers start from. -/
def vfsSnapshotReadyResult (s : VfsState) (h : FlVfsHandle) : ResultData :=
  match vfsSnapshotHandle s h with
  | none => ⟨false, 0⟩
  | some snap =>
      if !snap.ready then ⟨false, 0⟩
      else snap.resultData.getD ⟨vfsIsSuccess snap.errorStatus, 0⟩

def vfsGetData (s : VfsState) (h : FlVfsHandle) : ResultData := vfsSnapshotReadyResult s h

def vfsGetFileList (s : VfsState) (h : FlVfsHandle) : ResultData := vfsSnapshotReadyResult s h

end FlowiVfs
