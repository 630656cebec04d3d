import FlowiVfs.HandleMachine

/-!
# What one body does

A body has few outcomes. The relations below list them, function by function of
the interface, each with the conditions the code has checked on the way, and the
inversion theorems say that the code has no others. Whatever is proved of every
body is proved of these outcomes.
-/
namespace FlowiVfs

/-- The write that opens a window. -/
def openWindow (d : VfsHandleData) : VfsHandleData :=
  { d with pendingDispatches := d.pendingDispatches + 1 }

/-- The write that closes a window. -/
def closeWindow (d : VfsHandleData) : VfsHandleData :=
  { d with pendingDispatches := d.pendingDispatches - 1 }

/-- The fields of an operation refused on a worker. -/
def refuse (d : VfsHandleData) : VfsHandleData := { d with errorStatus := VFS_ERROR_WOULD_BLOCK }

/-- The write that records an operation on its file handle and closes the window. -/
def recordOn (refused : Bool) (job : FlJobHandle) (d : VfsHandleData) : VfsHandleData :=
  { d with
    lastJob := if refused then d.lastJob else job
    pendingDispatches := d.pendingDispatches - 1 }

/-- `allocate_op` and `vfs_mount_read_all_prepare`. -/
inductive LaunchExec (s : VfsState) (t : Thread) : Instr → VfsState → List Instr → Prop
  | refused {params : VfsOpParams} (halloc : allocateHandle s params = none) :
      LaunchExec s t (.allocOp params) s []
  | allocated {params : VfsOpParams} {p : HandlePtr} {s₁ : VfsState}
      (known : (s.mounts params.mount).isSome)
      (halloc : allocateHandle s params = some (p, s₁)) :
      LaunchExec s t (.allocOp params) s₁ [.schedule p]
  | prepareRefused {params : VfsReadAllParams} (halloc : allocateHandle s params.toOp = none) :
      LaunchExec s t (.prepare params) s []
  | prepared {params : VfsReadAllParams} {p : HandlePtr} {s₁ : VfsState}
      (known : (s.mounts params.mount).isSome)
      (halloc : allocateHandle s params.toOp = some (p, s₁)) :
      LaunchExec s t (.prepare params) (s₁.emit (.prepared p)) [.publish p]
  | queued {p : HandlePtr} {d : VfsHandleData} {m : FlVfsMount}
      (hd : s.pool p = some d) (hm : s.mounts d.mount = some m) :
      LaunchExec s t (.schedule p)
        ((s.addJob ⟨p, mountDependency s m, none, .queued⟩).modify p (setJobs s.nextJob))
        [.publish p]
  | inlined {p : HandlePtr} {d : VfsHandleData} {m : FlVfsMount} {r : FlJobHandle}
      (hd : s.pool p = some d) (hm : s.mounts d.mount = some m) (worker : t ≠ .main)
      (free : mountDependency s m = 0) (hr : r = 0 ∨ r = s.nextJob) :
      LaunchExec s t (.schedule p) (s.addJob ⟨p, 0, none, .started⟩) [.inlineOp p s.nextJob r]
  | ran {p : HandlePtr} {j r : FlJobHandle} (finished : s.jobFinished j = true) :
      LaunchExec s t (.inlineOp p j r) (s.modify p (setJobs r)) [.publish p]
  | published {p : HandlePtr} : LaunchExec s t (.publish p) (vfsPublishHandle s p) []

/-- `vfs_mount_with_options`. -/
inductive MountExec (s : VfsState) (t : Thread) : Instr → VfsState → List Instr → Prop
  | opened {s₁ : VfsState} (lock : s.mountLockFree = true)
      (halloc : allocateHandle
        { s with nextMount := s.nextMount + 1, mountList := s.mountList ++ [s.nextMount] }
        ⟨s.nextMount, .mount, false, false, FL_VFS_HANDLE_INVALID⟩ = some (s.nextPtr, s₁)) :
      MountExec s t .mountOpen s₁ [.mountSchedule s.nextMount s.nextPtr]
  | inlined {m : MountPtr} {p : HandlePtr} (worker : t ≠ .main) :
      MountExec s t (.mountSchedule m p) (s.addJob ⟨p, 0, none, .started⟩)
        [.mountInline m p s.nextJob]
  | queued {m : MountPtr} {p : HandlePtr} (main : t = .main) :
      MountExec s t (.mountSchedule m p)
        ((s.addJob ⟨p, 0, none, .queued⟩).modify p (setJobs s.nextJob))
        [.mountPublish m p s.nextJob]
  | ran {m : MountPtr} {p : HandlePtr} {j : FlJobHandle} (finished : s.jobFinished j = true) :
      MountExec s t (.mountInline m p j) (s.modify p (setJobs 0)) [.mountPublish m p 0]
  | published {m : MountPtr} {p : HandlePtr} {j : FlJobHandle} :
      MountExec s t (.mountPublish m p j) (mountPublish s m p j) []

/-- `vfs_dispatch`. -/
inductive DispatchExec (s : VfsState) (t : Thread) : Instr → VfsState → List Instr → Prop
  | missing {h : FlVfsHandle} (none : s.lookupOpenHandle h = none) :
      DispatchExec s t (.dispatch h) s []
  | entered {h : FlVfsHandle} {p : HandlePtr} {d : VfsHandleData}
      (hl : s.lookupOpenHandle h = some (p, d)) :
      DispatchExec s t (.dispatch h) ((s.modify p openWindow).emit (.dispatched p))
        [.dispatchSchedule h p]
  | queued {h : FlVfsHandle} {p : HandlePtr} {d : VfsHandleData} {m : FlVfsMount}
      (hd : s.pool p = some d) (hm : s.mounts d.mount = some m) :
      DispatchExec s t (.dispatchSchedule h p) (s.addJob ⟨p, mountDependency s m, none, .queued⟩)
        [.dispatchRecord h p s.nextJob]
  | inlined {h : FlVfsHandle} {p : HandlePtr} {d : VfsHandleData} {m : FlVfsMount}
      {r : FlJobHandle} (hd : s.pool p = some d) (hm : s.mounts d.mount = some m)
      (worker : t ≠ .main) (free : mountDependency s m = 0) (hr : r = 0 ∨ r = s.nextJob) :
      DispatchExec s t (.dispatchSchedule h p) (s.addJob ⟨p, 0, none, .started⟩)
        [.dispatchInline h p s.nextJob r]
  | ran {h : FlVfsHandle} {p : HandlePtr} {j r : FlJobHandle}
      (finished : s.jobFinished j = true) :
      DispatchExec s t (.dispatchInline h p j r) s [.dispatchRecord h p r]
  | recorded {h : FlVfsHandle} {p : HandlePtr} {j : FlJobHandle} :
      DispatchExec s t (.dispatchRecord h p j) (dispatchRecord s h p j) []

/-- `vfs_write` and `vfs_chain_file_op`. -/
inductive ChainExec (s : VfsState) (t : Thread) : Instr → VfsState → List Instr → Prop
  | copiedOnly {h : FlVfsHandle} {size : ℤ} (nothing : h = FL_VFS_HANDLE_INVALID ∨ size ≤ 0) :
      ChainExec s t (.copyData h size)
        ({ s with nextBuffer := s.nextBuffer + 1 }.emit (.bufferAllocated s.nextBuffer)) []
  | copied {h : FlVfsHandle} {size : ℤ} (something : ¬ (h = FL_VFS_HANDLE_INVALID ∨ size ≤ 0)) :
      ChainExec s t (.copyData h size)
        ({ s with nextBuffer := s.nextBuffer + 1 }.emit (.bufferAllocated s.nextBuffer))
        [.chain h ⟨.fileWrite, 0, some s.nextBuffer, size, true⟩]
  | refused {h : FlVfsHandle} {params : VfsFileOpParams}
      (none : ∀ r ∈ s.lookupOpenHandle h, r.2.opType ≠ .fileOpen) :
      ChainExec s t (.chain h params) s []
  | entered {h : FlVfsHandle} {params : VfsFileOpParams} {f : HandlePtr} {d : VfsHandleData}
      (hmap : s.mapGet h = some f) (hd : s.pool f = some d) (hopen : d.closed = false)
      (hop : d.opType = .fileOpen) :
      ChainExec s t (.chain h params) ((s.modify f openWindow).emit (.entered s.trace.length f))
        [.chainAlloc h f s.trace.length params d.mount d.lastJob]
  | allocated {h : FlVfsHandle} {file : HandlePtr} {ticket : ℕ} {params : VfsFileOpParams}
      {m : MountPtr} {after : FlJobHandle} {s₁ : VfsState} (known : (s.mounts m).isSome)
      (halloc : allocateHandle s ⟨m, params.opType, false, false, FL_VFS_HANDLE_INVALID⟩ =
        some (s.nextPtr, s₁)) :
      ChainExec s t (.chainAlloc h file ticket params m after)
        (s₁.modify s.nextPtr (chainFill h params)) [.chainRun h file ticket s.nextPtr after]
  | unwound {h : FlVfsHandle} {file : HandlePtr} :
      ChainExec s t (.chainUnwind h file) (chainUnwind s h) []
  | blocked {h : FlVfsHandle} {file : HandlePtr} {ticket : ℕ} {p : HandlePtr}
      {after : FlJobHandle} (worker : t ≠ .main) (pending : s.jobDone after = false) :
      ChainExec s t (.chainRun h file ticket p after) (s.modify p refuse)
        [.chainPublish h file p true]
  | inlined {h : FlVfsHandle} {file : HandlePtr} {ticket : ℕ} {p : HandlePtr}
      {after : FlJobHandle} (worker : t ≠ .main) (done : s.jobDone after = true) :
      ChainExec s t (.chainRun h file ticket p after)
        (s.addJob ⟨p, 0, some (ticket, file), .started⟩) [.chainInline h file p s.nextJob]
  | queued {h : FlVfsHandle} {file : HandlePtr} {ticket : ℕ} {p : HandlePtr}
      {after : FlJobHandle} (main : t = .main) :
      ChainExec s t (.chainRun h file ticket p after)
        ((s.addJob ⟨p, after, some (ticket, file), .queued⟩).modify p (setJobs s.nextJob))
        [.chainPublish h file p false]
  | ran {h : FlVfsHandle} {file p : HandlePtr} {j : FlJobHandle}
      (finished : s.jobFinished j = true) :
      ChainExec s t (.chainInline h file p j) (s.modify p (setJobs 0))
        [.chainPublish h file p false]
  | published {h : FlVfsHandle} {file p : HandlePtr} {refused : Bool} :
      ChainExec s t (.chainPublish h file p refused) (chainPublish s h p refused) []

/-- The functions that cancel, wait, sweep and close. -/
inductive CloseExec (s : VfsState) (c : ℕ) (t : Thread) : Instr → VfsState → List Instr → Prop
  | cancelMissing {h : FlVfsHandle} (none : s.lookupOpenHandle h = none) :
      CloseExec s c t (.cancel h) s []
  | canceled {h : FlVfsHandle} {p : HandlePtr} {d : VfsHandleData}
      (hl : s.lookupOpenHandle h = some (p, d)) :
      CloseExec s c t (.cancel h) (s.modify p fun d => { d with cancelRequested := true }) []
  | reclaimed :
      CloseExec s c t .reclaim (vfsReclaimClosedHandles s).1
        [.releases (vfsReclaimClosedHandles s).2]
  | released : CloseExec s c t (.releases []) s []
  | hook {p : HandlePtr} {ps : List HandlePtr} :
      CloseExec s c t (.releases (p :: ps)) (s.emit (.released c p)) [.releases ps]
  | closeMissing {h : FlVfsHandle} (none : s.lookupOpenHandle h = none) :
      CloseExec s c t (.closeSnapshot h) s []
  | closeBorrowing {h : FlVfsHandle} {p : HandlePtr} {d : VfsHandleData}
      (hl : s.lookupOpenHandle h = some (p, d))
      (borrows : vfsOpBorrowsCallerMemory d.opType = true) :
      CloseExec s c t (.closeSnapshot h) s [.waitJobs d.handleJobs, .closeFinish h true]
  | closePlain {h : FlVfsHandle} {p : HandlePtr} {d : VfsHandleData}
      (hl : s.lookupOpenHandle h = some (p, d))
      (plain : vfsOpBorrowsCallerMemory d.opType = false) :
      CloseExec s c t (.closeSnapshot h) s [.closeFinish h false]
  | closed {h : FlVfsHandle} {borrows : Bool} :
      CloseExec s c t (.closeFinish h borrows) (closeFinish s t h borrows).1
        [.releases (closeFinish s t h borrows).2]
  | waited : CloseExec s c t (.waitJobs []) s []
  | waitedOne {j : FlJobHandle} {js : List FlJobHandle}
      (finished : t ≠ .main ∨ s.jobFinished j = true) :
      CloseExec s c t (.waitJobs (j :: js)) s [.waitJobs js]
  | waitMissing {h : FlVfsHandle} (none : s.lookupOpenHandle h = none) :
      CloseExec s c t (.waitSnapshot h) s []
  | waitFound {h : FlVfsHandle} {p : HandlePtr} {d : VfsHandleData}
      (hl : s.lookupOpenHandle h = some (p, d)) :
      CloseExec s c t (.waitSnapshot h) s [.waitJobs d.handleJobs]
  | waitAll :
      CloseExec s c t .waitAllSnapshot s
        [.waitJobs ((mapEntries s).flatMap fun e => e.2.2.handleJobs)]

/-- `vfs_mount_close` and `vfs_destroy`. -/
inductive TeardownExec (s : VfsState) (c : ℕ) : Instr → VfsState → List Instr → Prop
  | unlisted {m : MountPtr} (lock : s.mountLockFree = true) (listed : m ∈ s.mountList) :
      TeardownExec s c (.mountUnlist m) { s with mountList := s.mountList.erase m }
        [.mountSnapshot m]
  | unknown {m : MountPtr} (lock : s.mountLockFree = true) (unlisted : m ∉ s.mountList) :
      TeardownExec s c (.mountUnlist m) s []
  | snapshot {m : MountPtr} :
      TeardownExec s c (.mountSnapshot m) { s with closing := m :: s.closing }
        [.waitJobs ((vfsSnapshotMountVictims s m).flatMap fun v => v.2),
          .mountDrain m ((vfsSnapshotMountVictims s m).map fun v => v.1)]
  | draining {m : MountPtr} {victims : List FlVfsHandle}
      (outstanding : (victims.map (refreshVictim s)).any (fun r => r.2) = true) :
      TeardownExec s c (.mountDrain m victims) s
        [.waitJobs ((victims.map (refreshVictim s)).flatMap fun r => r.1), .mountDrain m victims]
  | drained {m : MountPtr} {victims : List FlVfsHandle}
      (idle : ¬ (victims.map (refreshVictim s)).any (fun r => r.2) = true) :
      TeardownExec s c (.mountDrain m victims) s
        [.waitJobs (if (s.mounts m).elim 0 FlVfsMount.jobHandle ≠ 0
            then [(s.mounts m).elim 0 FlVfsMount.jobHandle] else []), .mountFree m victims]
  | freed {m : MountPtr} {victims : List FlVfsHandle} :
      TeardownExec s c (.mountFree m victims) (vfsFreeMountVictims s m victims).1
        [.releases (vfsFreeMountVictims s m victims).2, .mountDestroy m]
  | destroyed {m : MountPtr} (lock : s.mountLockFree = true) :
      TeardownExec s c (.mountDestroy m)
        ({ s with mounts := Function.update s.mounts m none }.emit (.mountDestroyed c m)) []
  | next {m : MountPtr} {rest : List MountPtr} (listed : s.mountList = m :: rest) :
      TeardownExec s c .destroyLoop s [.mountUnlist m, .destroyLoop]
  | cleared (empty : s.mountList = []) :
      TeardownExec s c .destroyLoop
        ({ s with handleMap := ∅, destroyed := true }.emit (.destroyed c)) []

inductive BodyExec (s : VfsState) (c : ℕ) (t : Thread) (i : Instr) (s' : VfsState)
    (new : List Instr) : Prop
  | launch (h : LaunchExec s t i s' new)
  | mount (h : MountExec s t i s' new)
  | dispatch (h : DispatchExec s t i s' new)
  | chain (h : ChainExec s t i s' new)
  | close (h : CloseExec s c t i s' new)
  | teardown (h : TeardownExec s c i s' new)

section Inversion

variable {s s' : VfsState} {new : List Instr} {p : HandlePtr} {h : FlVfsHandle} {c : ℕ}
  {t : Thread} {sched : Sched} {j : FlJobHandle} {i : Instr} {m : MountPtr}

theorem afterJob_some {next : VfsState × List Instr}
    (hx : afterJob s j next = some (s', new)) : s.jobFinished j = true ∧ next = (s', new) := by
  unfold afterJob at hx
  split_ifs at hx with hj
  exact ⟨hj, Option.some.inj hx⟩

theorem underMountLock_some {next : VfsState × List Instr}
    (hx : underMountLock s next = some (s', new)) : s.mountLockFree = true ∧ next = (s', new) := by
  unfold underMountLock at hx
  split_ifs at hx with hm
  exact ⟨hm, Option.some.inj hx⟩

/-- `vfs_ops_schedule_job` queues a job behind the mount's own, or lets a worker run it. -/
theorem scheduleJob_outcomes {out : Scheduled}
    (hx : vfsOpsScheduleJob s t p sched = some (s', out)) :
    ∃ d m, s.pool p = some d ∧ s.mounts d.mount = some m ∧
      ((s' = s.addJob ⟨p, mountDependency s m, none, .queued⟩ ∧ out = .queued s.nextJob) ∨
        (t ≠ .main ∧ mountDependency s m = 0 ∧ s' = s.addJob ⟨p, 0, none, .started⟩ ∧
          ∃ r, (r = 0 ∨ r = s.nextJob) ∧ out = .ran s.nextJob r)) := by
  unfold vfsOpsScheduleJob at hx
  split at hx
  · cases hx
  · rename_i d hd
    split at hx
    · cases hx
    · rename_i m hm
      split at hx
      · cases hx
        exact ⟨d, m, hd, hm, .inl ⟨rfl, rfl⟩⟩
      · split_ifs at hx with worker
        all_goals cases hx
        · exact ⟨d, m, hd, hm, .inr ⟨worker.1, worker.2, rfl, 0, .inl rfl, rfl⟩⟩
        · exact ⟨d, m, hd, hm, .inr ⟨worker.1, worker.2, rfl, _, .inr rfl, rfl⟩⟩

/-- A request without an id to reuse is never refused. -/
theorem allocateHandle_fresh (s : VfsState) (m : MountPtr) (opType : VfsOperationType) :
    ∃ s₁, allocateHandle s ⟨m, opType, false, false, FL_VFS_HANDLE_INVALID⟩ =
      some (s.nextPtr, s₁) := by
  simp [allocateHandle]

theorem allocOp_exec {params : VfsOpParams}
    (hx : execBody s c t sched (.allocOp params) = some (s', new)) :
    LaunchExec s t (.allocOp params) s' new := by
  simp only [execBody] at hx
  split_ifs at hx with unknown
  split at hx
  · rename_i halloc
    cases hx
    exact .refused halloc
  · rename_i halloc
    cases hx
    exact .allocated (by simpa [Option.isSome_iff_ne_none] using unknown) halloc

theorem prepare_exec {params : VfsReadAllParams}
    (hx : execBody s c t sched (.prepare params) = some (s', new)) :
    LaunchExec s t (.prepare params) s' new := by
  simp only [execBody] at hx
  split_ifs at hx with unknown
  split at hx
  · rename_i halloc
    cases hx
    exact .prepareRefused halloc
  · rename_i halloc
    cases hx
    exact .prepared (by simpa [Option.isSome_iff_ne_none] using unknown) halloc

theorem schedule_exec (hx : execBody s c t sched (.schedule p) = some (s', new)) :
    LaunchExec s t (.schedule p) s' new := by
  simp only [execBody] at hx
  split at hx
  · cases hx
  all_goals
    rename_i hsched
    cases hx
    obtain ⟨d, m, hd, hm, ⟨rfl, hout⟩ | ⟨worker, free, rfl, r, hr, hout⟩⟩ :=
      scheduleJob_outcomes hsched
    all_goals cases hout
  · exact .queued hd hm
  · exact .inlined hd hm worker free hr

theorem mountOpen_exec (hx : execBody s c t sched .mountOpen = some (s', new)) :
    MountExec s t .mountOpen s' new := by
  obtain ⟨lock, hnext⟩ := underMountLock_some hx
  obtain ⟨s₁, halloc⟩ := allocateHandle_fresh
    { s with nextMount := s.nextMount + 1, mountList := s.mountList ++ [s.nextMount] }
    s.nextMount .mount
  rw [mountOpen] at hnext
  simp only [halloc, Prod.mk.injEq] at hnext
  obtain ⟨rfl, rfl⟩ := hnext
  exact .opened lock halloc

theorem mountSchedule_exec (hx : execBody s c t sched (.mountSchedule m p) = some (s', new)) :
    MountExec s t (.mountSchedule m p) s' new := by
  simp only [execBody, mountSchedule, Option.some.injEq] at hx
  split_ifs at hx with thread
  · cases hx
    exact .inlined thread
  · cases hx
    exact .queued (by simpa using thread)

theorem dispatch_exec (hx : execBody s c t sched (.dispatch h) = some (s', new)) :
    DispatchExec s t (.dispatch h) s' new := by
  simp only [execBody, dispatchEnter, Option.some.injEq] at hx
  split at hx
  · rename_i none
    cases hx
    exact .missing none
  · rename_i hl
    cases hx
    exact .entered hl

theorem dispatchSchedule_exec
    (hx : execBody s c t sched (.dispatchSchedule h p) = some (s', new)) :
    DispatchExec s t (.dispatchSchedule h p) s' new := by
  simp only [execBody] at hx
  split at hx
  · cases hx
  all_goals
    rename_i hsched
    cases hx
    obtain ⟨d, m, hd, hm, ⟨rfl, hout⟩ | ⟨worker, free, rfl, r, hr, hout⟩⟩ :=
      scheduleJob_outcomes hsched
    all_goals cases hout
  · exact .queued hd hm
  · exact .inlined hd hm worker free hr

theorem chain_exec {params : VfsFileOpParams}
    (hx : execBody s c t sched (.chain h params) = some (s', new)) :
    ChainExec s t (.chain h params) s' new := by
  simp only [execBody, chainEnter, Option.some.injEq] at hx
  split at hx
  · rename_i none
    cases hx
    refine .refused fun r hr => ?_
    rw [none] at hr
    cases hr
  · rename_i f d hl
    split_ifs at hx with hop
    · cases hx
      refine .refused fun r hr => ?_
      rw [hl] at hr
      cases hr
      exact hop
    · cases hx
      obtain ⟨hmap, hd, hopen⟩ := (VfsState.lookupOpenHandle_some f).mp hl
      exact .entered hmap hd hopen (by simpa using hop)

theorem chainAlloc_exec {file : HandlePtr} {ticket : ℕ} {params : VfsFileOpParams}
    {after : FlJobHandle}
    (hx : execBody s c t sched (.chainAlloc h file ticket params m after) = some (s', new)) :
    ChainExec s t (.chainAlloc h file ticket params m after) s' new := by
  obtain ⟨s₁, halloc⟩ := allocateHandle_fresh s m params.opType
  simp only [execBody, chainAllocate, halloc] at hx
  split_ifs at hx with unknown
  cases hx
  exact .allocated (by simpa [Option.isSome_iff_ne_none] using unknown) halloc

theorem chainRun_exec {file : HandlePtr} {ticket : ℕ} {after : FlJobHandle}
    (hx : execBody s c t sched (.chainRun h file ticket p after) = some (s', new)) :
    ChainExec s t (.chainRun h file ticket p after) s' new := by
  simp only [execBody, chainExecute, Option.some.injEq] at hx
  split_ifs at hx with worker unfinished
  · cases hx
    exact .blocked worker (by simpa [VfsState.jobDone] using unfinished)
  · cases hx
    refine .inlined worker ?_
    simp only [VfsState.jobDone, Bool.or_eq_true, beq_iff_eq]
    by_cases none : after = 0
    · exact .inl none
    · exact .inr (by simpa [none] using unfinished)
  · cases hx
    exact .queued (by simpa using worker)

theorem cancel_exec (hx : execBody s c t sched (.cancel h) = some (s', new)) :
    CloseExec s c t (.cancel h) s' new := by
  simp only [execBody] at hx
  split at hx
  · rename_i none
    cases hx
    exact .cancelMissing none
  · rename_i hl
    cases hx
    exact .canceled hl

theorem releases_exec {hooks : List HandlePtr}
    (hx : execBody s c t sched (.releases hooks) = some (s', new)) :
    CloseExec s c t (.releases hooks) s' new := by
  cases hooks with
  | nil =>
      cases hx
      exact .released
  | cons p ps =>
      cases hx
      exact .hook

theorem closeSnapshot_exec (hx : execBody s c t sched (.closeSnapshot h) = some (s', new)) :
    CloseExec s c t (.closeSnapshot h) s' new := by
  simp only [execBody] at hx
  split at hx
  · rename_i none
    cases hx
    exact .closeMissing none
  · rename_i hl
    split_ifs at hx with borrows
    · cases hx
      exact .closeBorrowing hl borrows
    · cases hx
      exact .closePlain hl (Bool.eq_false_iff.mpr borrows)

theorem waitJobs_exec {jobs : List FlJobHandle}
    (hx : execBody s c t sched (.waitJobs jobs) = some (s', new)) :
    CloseExec s c t (.waitJobs jobs) s' new := by
  cases jobs with
  | nil =>
      cases hx
      exact .waited
  | cons j js =>
      simp only [execBody] at hx
      split_ifs at hx with finished
      cases hx
      exact .waitedOne finished

theorem waitSnapshot_exec (hx : execBody s c t sched (.waitSnapshot h) = some (s', new)) :
    CloseExec s c t (.waitSnapshot h) s' new := by
  simp only [execBody] at hx
  split at hx
  · rename_i none
    cases hx
    exact .waitMissing none
  · rename_i hl
    cases hx
    exact .waitFound hl

theorem copyData_exec {size : ℤ} (hx : execBody s c t sched (.copyData h size) = some (s', new)) :
    ChainExec s t (.copyData h size) s' new := by
  simp only [execBody, vfsWriteInternal, Option.some.injEq, Prod.mk.injEq] at hx
  obtain ⟨rfl, rfl⟩ := hx
  split_ifs with nothing
  · exact .copiedOnly nothing
  · exact .copied nothing

theorem mountDrain_exec {victims : List FlVfsHandle}
    (hx : execBody s c t sched (.mountDrain m victims) = some (s', new)) :
    TeardownExec s c (.mountDrain m victims) s' new := by
  simp only [execBody, mountDrain, Option.some.injEq, Prod.mk.injEq] at hx
  obtain ⟨rfl, rfl⟩ := hx
  split
  · exact .draining ‹_›
  · exact .drained ‹_›

theorem mountUnlist_exec (hx : execBody s c t sched (.mountUnlist m) = some (s', new)) :
    TeardownExec s c (.mountUnlist m) s' new := by
  obtain ⟨lock, hnext⟩ := underMountLock_some hx
  split_ifs at hnext with listed
  · cases hnext
    exact .unlisted lock listed
  · cases hnext
    exact .unknown lock listed

theorem destroyLoop_exec (hx : execBody s c t sched .destroyLoop = some (s', new)) :
    TeardownExec s c .destroyLoop s' new := by
  simp only [execBody] at hx
  split at hx
  · rename_i listed
    cases hx
    exact .next listed
  · rename_i empty
    cases hx
    exact .cleared empty

/-- The relations list every outcome of a body. -/
theorem execBody_some (hx : execBody s c t sched i = some (s', new)) :
    BodyExec s c t i s' new := by
  cases i with
  | allocOp => exact .launch (allocOp_exec hx)
  | prepare => exact .launch (prepare_exec hx)
  | schedule => exact .launch (schedule_exec hx)
  | inlineOp =>
      obtain ⟨finished, hnext⟩ := afterJob_some hx
      cases hnext
      exact .launch (.ran finished)
  | publish =>
      cases hx
      exact .launch .published
  | mountOpen => exact .mount (mountOpen_exec hx)
  | mountSchedule => exact .mount (mountSchedule_exec hx)
  | mountInline =>
      obtain ⟨finished, hnext⟩ := afterJob_some hx
      cases hnext
      exact .mount (.ran finished)
  | mountPublish =>
      cases hx
      exact .mount .published
  | dispatch => exact .dispatch (dispatch_exec hx)
  | dispatchSchedule => exact .dispatch (dispatchSchedule_exec hx)
  | dispatchInline =>
      obtain ⟨finished, hnext⟩ := afterJob_some hx
      cases hnext
      exact .dispatch (.ran finished)
  | dispatchRecord =>
      cases hx
      exact .dispatch .recorded
  | copyData => exact .chain (copyData_exec hx)
  | chain => exact .chain (chain_exec hx)
  | chainAlloc => exact .chain (chainAlloc_exec hx)
  | chainUnwind =>
      cases hx
      exact .chain .unwound
  | chainRun => exact .chain (chainRun_exec hx)
  | chainInline =>
      obtain ⟨finished, hnext⟩ := afterJob_some hx
      cases hnext
      exact .chain (.ran finished)
  | chainPublish =>
      cases hx
      exact .chain .published
  | cancel => exact .close (cancel_exec hx)
  | reclaim =>
      cases hx
      exact .close .reclaimed
  | releases => exact .close (releases_exec hx)
  | closeSnapshot => exact .close (closeSnapshot_exec hx)
  | closeFinish =>
      cases hx
      exact .close .closed
  | waitJobs => exact .close (waitJobs_exec hx)
  | waitSnapshot => exact .close (waitSnapshot_exec hx)
  | waitAllSnapshot =>
      cases hx
      exact .close .waitAll
  | mountUnlist => exact .teardown (mountUnlist_exec hx)
  | mountSnapshot =>
      cases hx
      exact .teardown .snapshot
  | mountDrain => exact .teardown (mountDrain_exec hx)
  | mountFree =>
      cases hx
      exact .teardown .freed
  | mountDestroy =>
      obtain ⟨lock, hnext⟩ := underMountLock_some hx
      cases hnext
      exact .teardown (.destroyed lock)
  | destroyLoop => exact .teardown (destroyLoop_exec hx)

end Inversion

/-! ## What the functions on handles leave alone -/

/-- Nothing about the mounts changes, and the VFS stays. -/
structure MountFrame (s s' : VfsState) : Prop where
  mounts : s'.mounts = s.mounts
  mountList : s'.mountList = s.mountList
  nextMount : s'.nextMount = s.nextMount
  closing : s'.closing = s.closing
  destroyed : s'.destroyed = s.destroyed

section Frames

variable {s s' s'' : VfsState} {new : List Instr} {p : HandlePtr} {h : FlVfsHandle} {c : ℕ}
  {t : Thread} {i : Instr} {params : VfsOpParams}

theorem MountFrame.refl (s : VfsState) : MountFrame s s := ⟨rfl, rfl, rfl, rfl, rfl⟩

theorem MountFrame.trans (h : MountFrame s s') (h' : MountFrame s' s'') : MountFrame s s'' where
  mounts := h'.mounts.trans h.mounts
  mountList := h'.mountList.trans h.mountList
  nextMount := h'.nextMount.trans h.nextMount
  closing := h'.closing.trans h.closing
  destroyed := h'.destroyed.trans h.destroyed

theorem emit_mountFrame (s : VfsState) (e : Event) : MountFrame s (s.emit e) :=
  ⟨rfl, rfl, rfl, rfl, rfl⟩

theorem modify_mountFrame (s : VfsState) (p : HandlePtr) (f : VfsHandleData → VfsHandleData) :
    MountFrame s (s.modify p f) := ⟨rfl, rfl, rfl, rfl, rfl⟩

theorem allocateHandle_mountFrame (halloc : allocateHandle s params = some (p, s')) :
    MountFrame s s' := by
  unfold allocateHandle at halloc
  split_ifs at halloc
  all_goals
    cases halloc
    exact ⟨rfl, rfl, rfl, rfl, rfl⟩

theorem publish_mountFrame (s : VfsState) (p : HandlePtr) :
    MountFrame s (vfsPublishHandle s p) := by
  unfold vfsPublishHandle
  split
  · exact ⟨rfl, rfl, rfl, rfl, rfl⟩
  · exact .refl s

theorem free_mountFrame (s : VfsState) (p : HandlePtr) (cause : FreeCause) :
    MountFrame s (vfsFreeHandleLocked s p cause).1 := by
  unfold vfsFreeHandleLocked
  split
  · exact .refl s
  · exact ⟨rfl, rfl, rfl, rfl, rfl⟩

theorem freeHandles_mountFrame (s : VfsState) (ps : List HandlePtr) (cause : FreeCause) :
    MountFrame s (freeHandles s ps cause).1 := by
  induction ps generalizing s with
  | nil => exact .refl s
  | cons p ps ih => exact (free_mountFrame s p cause).trans (ih _)

theorem freeVictims_mountFrame (s : VfsState) (m : MountPtr) (victims : List FlVfsHandle) :
    MountFrame s (vfsFreeMountVictims s m victims).1 := by
  induction victims generalizing s with
  | nil => exact .refl s
  | cons h hs ih =>
      unfold vfsFreeMountVictims
      split
      · exact ih s
      · exact (free_mountFrame s _ _).trans (ih _)

theorem reclaim_mountFrame (s : VfsState) : MountFrame s (vfsReclaimClosedHandles s).1 := by
  unfold vfsReclaimClosedHandles
  split_ifs
  · exact .refl s
  · exact freeHandles_mountFrame s _ _

theorem closeFinish_mountFrame (s : VfsState) (t : Thread) (h : FlVfsHandle) (borrows : Bool) :
    MountFrame s (closeFinish s t h borrows).1 := by
  unfold closeFinish
  split
  · exact .refl s
  · split_ifs
    · exact (emit_mountFrame s _).trans (free_mountFrame _ _ _)
    · exact .refl s
    · exact .refl s
    · exact ⟨rfl, rfl, rfl, rfl, rfl⟩

theorem chainUnwind_mountFrame (s : VfsState) (h : FlVfsHandle) :
    MountFrame s (chainUnwind s h) := by
  unfold chainUnwind
  split
  · exact .refl s
  · exact modify_mountFrame s _ _

theorem chainPublish_mountFrame (s : VfsState) (h : FlVfsHandle) (p : HandlePtr)
    (refused : Bool) : MountFrame s (chainPublish s h p refused) := by
  unfold chainPublish
  refine .trans ?_ (publish_mountFrame _ p)
  split
  · exact modify_mountFrame s _ _
  · exact .refl s

theorem dispatchRecord_mountFrame (s : VfsState) (h : FlVfsHandle) (p : HandlePtr)
    (job : FlJobHandle) : MountFrame s (dispatchRecord s h p job) := by
  unfold dispatchRecord
  split_ifs
  · exact modify_mountFrame s _ _
  · exact .refl s

theorem LaunchExec.mountFrame (hx : LaunchExec s t i s' new) : MountFrame s s' := by
  cases hx with
  | allocated known halloc => exact allocateHandle_mountFrame halloc
  | prepared known halloc =>
      exact (allocateHandle_mountFrame halloc).trans (emit_mountFrame _ _)
  | published => exact publish_mountFrame s _
  | _ => exact ⟨rfl, rfl, rfl, rfl, rfl⟩

theorem DispatchExec.mountFrame (hx : DispatchExec s t i s' new) : MountFrame s s' := by
  cases hx with
  | recorded => exact dispatchRecord_mountFrame s _ _ _
  | _ => exact ⟨rfl, rfl, rfl, rfl, rfl⟩

theorem ChainExec.mountFrame (hx : ChainExec s t i s' new) : MountFrame s s' := by
  cases hx with
  | allocated known halloc =>
      exact (allocateHandle_mountFrame halloc).trans (modify_mountFrame _ _ _)
  | unwound => exact chainUnwind_mountFrame s _
  | published => exact chainPublish_mountFrame s _ _ _
  | _ => exact ⟨rfl, rfl, rfl, rfl, rfl⟩

theorem CloseExec.mountFrame (hx : CloseExec s c t i s' new) : MountFrame s s' := by
  cases hx with
  | reclaimed => exact reclaim_mountFrame s
  | closed => exact closeFinish_mountFrame s t _ _
  | _ => exact ⟨rfl, rfl, rfl, rfl, rfl⟩

/-- `vfs_mount_with_options` closes nothing. -/
theorem MountExec.keeps (hx : MountExec s t i s' new) :
    s'.closing = s.closing ∧ s'.destroyed = s.destroyed := by
  cases hx with
  | opened lock halloc =>
      have frame := allocateHandle_mountFrame halloc
      exact ⟨frame.closing, frame.destroyed⟩
  | @published m p j =>
      have frame := publish_mountFrame
        { s with mounts := Function.update s.mounts m (some ⟨j⟩) } p
      exact ⟨frame.closing, frame.destroyed⟩
  | _ => exact ⟨rfl, rfl⟩

end Frames

section Bodies

variable {s s' : VfsState} {new : List Instr} {c : ℕ} {t : Thread} {sched : Sched} {i : Instr}

/-- Only the end of `vfs_destroy` clears the VFS. -/
theorem body_destroyed (hx : execBody s c t sched i = some (s', new)) :
    s'.destroyed = s.destroyed ∨ (i = .destroyLoop ∧ s.mountList = [] ∧ new = [] ∧
      s' = { s with handleMap := ∅, destroyed := true }.emit (.destroyed c)) := by
  cases execBody_some hx with
  | launch h => exact .inl h.mountFrame.destroyed
  | mount h => exact .inl h.keeps.2
  | dispatch h => exact .inl h.mountFrame.destroyed
  | chain h => exact .inl h.mountFrame.destroyed
  | close h => exact .inl h.mountFrame.destroyed
  | teardown h =>
      cases h with
      | freed => exact .inl (freeVictims_mountFrame s _ _).destroyed
      | cleared empty => exact .inr ⟨rfl, empty, rfl, rfl⟩
      | _ => exact .inl rfl

/-- Only `vfs_mount_close` takes the snapshot of a mount. -/
theorem body_closing (hx : execBody s c t sched i = some (s', new)) :
    s'.closing = s.closing ∨ ∃ m, i = .mountSnapshot m ∧ s'.closing = m :: s.closing := by
  cases execBody_some hx with
  | launch h => exact .inl h.mountFrame.closing
  | mount h => exact .inl h.keeps.1
  | dispatch h => exact .inl h.mountFrame.closing
  | chain h => exact .inl h.mountFrame.closing
  | close h => exact .inl h.mountFrame.closing
  | teardown h =>
      cases h with
      | snapshot => exact .inr ⟨_, rfl, rfl⟩
      | freed => exact .inl (freeVictims_mountFrame s _ _).closing
      | _ => exact .inl rfl

end Bodies
end FlowiVfs
