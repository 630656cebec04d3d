import FlowiVfs.HandleSections
import FlowiVfs.Transition

/-!
# The handle system as a state machine

An action starts a call of a public function on some thread, lets a call in
progress perform its next program point, or lets a job perform its next step.
Everything between two actions is up to the scheduler, so the runs are the
interleavings at the granularity of critical sections. An action whose code
would touch freed handle data, freed mount storage or wait for an unfinished job
is not enabled.

A thread runs its calls as a stack: a new call starts only where the calls
already on the thread have reached code of the caller (a release hook, a read
callback), and only the newest unfinished call of a thread moves. Jobs run on
the workers at any time.
-/
namespace FlowiVfs

/-- Calls of the public functions. -/
inductive Request
  | mountOpen
  | listing (m : MountPtr)
  | openFile (m : MountPtr)
  | readAll (params : VfsReadAllParams)
  | prepare (params : VfsReadAllParams)
  | dispatch (h : FlVfsHandle)
  | read (h : FlVfsHandle) (size : ℤ)
  | write (h : FlVfsHandle) (size : ℤ)
  | writeNoCopy (h : FlVfsHandle) (buffer : ℕ) (size : ℤ)
  | cancel (h : FlVfsHandle)
  | close (h : FlVfsHandle)
  | update
  | wait (h : FlVfsHandle)
  | waitAll
  | mountClose (m : MountPtr)
  | destroy
deriving DecidableEq, Repr

/-- `vfs_read`. -/
def vfsRead (h : FlVfsHandle) (size : ℤ) : List Instr :=
  if h = FL_VFS_HANDLE_INVALID ∨ size ≤ 0 then []
  else [.chain h ⟨.fileRead, size, none, 0, false⟩]

/-- `vfs_write_internal`. -/
def vfsWriteInternal (h : FlVfsHandle) (data : ℕ) (size : ℤ) (owned : Bool) : List Instr :=
  if h = FL_VFS_HANDLE_INVALID ∨ size ≤ 0 then []
  else [.chain h ⟨.fileWrite, 0, some data, size, owned⟩]

/-- `vfs_write`. -/
def vfsWrite (h : FlVfsHandle) (size : ℤ) : List Instr :=
  if size ≤ 0 then [] else [.copyData h size]

def vfsClose (h : FlVfsHandle) : List Instr :=
  if h = FL_VFS_HANDLE_INVALID then [] else [.reclaim, .closeSnapshot h]

def vfsWaitAll : List Instr := [.waitAllSnapshot, .reclaim]

/-- The program points a call starts with. -/
def Request.program : Request → List Instr
  | .mountOpen => [.mountOpen]
  | .listing m => [.allocOp ⟨m, .mountList, false, false, FL_VFS_HANDLE_INVALID⟩]
  | .openFile m => [.allocOp ⟨m, .fileOpen, false, false, FL_VFS_HANDLE_INVALID⟩]
  | .readAll params => [.allocOp params.toOp]
  | .prepare params => [.prepare params]
  | .dispatch h => if h = FL_VFS_HANDLE_INVALID then [] else [.dispatch h]
  | .read h size => vfsRead h size
  | .write h size => vfsWrite h size
  | .writeNoCopy h buffer size => vfsWriteInternal h buffer size false
  | .cancel h => if h = FL_VFS_HANDLE_INVALID then [] else [.cancel h]
  | .close h => vfsClose h
  | .update => [.reclaim]
  | .wait h => if h = FL_VFS_HANDLE_INVALID then [] else [.waitSnapshot h]
  | .waitAll => vfsWaitAll
  | .mountClose m => [.mountUnlist m]
  | .destroy => vfsWaitAll ++ [.destroyLoop]

/-- `vfs_mount_close` and `vfs_destroy` are main-thread teardown. -/
def Request.allowedOn : Request → Thread → Bool
  | .mountClose _, t | .destroy, t => t == .main
  | _, _ => true

/-- Program points whose body runs under `handle_lock`. -/
def Instr.locked : Instr → Bool
  | .allocOp _ | .prepare _ | .publish _ | .mountOpen | .mountPublish _ _ _ | .dispatch _
  | .dispatchRecord _ _ _ | .chain _ _ | .chainAlloc _ _ _ _ _ _ | .chainUnwind _ _
  | .chainPublish _ _ _ _ | .cancel _ | .reclaim | .closeSnapshot _ | .closeFinish _ _
  | .waitSnapshot _ | .waitAllSnapshot | .mountSnapshot _ | .mountDrain _ _
  | .mountFree _ _ => true
  | _ => false

/-- Program points at which the thread is in code of the caller or of a driver. -/
def Instr.callsOut : Instr → Bool
  | .inlineOp _ _ _ | .mountInline _ _ _ | .dispatchInline _ _ _ _ | .chainInline _ _ _ _
  | .releases _ => true
  | _ => false

def Call.callsOut (k : Call) : Bool := k.todo.head?.elim true Instr.callsOut

/-- Program points inside `vfs_mount_with_options`, which holds `mount_lock` throughout. -/
def Instr.holdsMountLock : Instr → Bool
  | .mountSchedule _ _ | .mountInline _ _ _ | .mountPublish _ _ _ => true
  | _ => false

def VfsState.mountLockFree (s : VfsState) : Bool :=
  s.calls.all fun k => k.todo.all fun i => !i.holdsMountLock

/-- Program points that touch nothing `vfs_destroy` takes away. -/
def Instr.outlivesVfs : Instr → Bool
  | .releases _ | .waitJobs _ => true
  | _ => false

/-- `next` once job `j` has finished; until then the point is not enabled. -/
def afterJob (s : VfsState) (j : FlJobHandle) (next : VfsState × List Instr) :
    Option (VfsState × List Instr) :=
  if s.jobFinished j then some next else none

/-- `next` while no other call holds `mount_lock`. -/
def underMountLock (s : VfsState) (next : VfsState × List Instr) :
    Option (VfsState × List Instr) :=
  if s.mountLockFree then some next else none

/-- The body at one program point: the new state and the points that replace it. -/
def execBody (s : VfsState) (c : ℕ) (t : Thread) (sched : Sched) :
    Instr → Option (VfsState × List Instr)
  | .allocOp params =>
      if (s.mounts params.mount).isNone then none
      else match allocateHandle s params with
        | none => some (s, [])
        | some (p, s) => some (s, [.schedule p])
  | .prepare params =>
      if (s.mounts params.mount).isNone then none
      else match allocateHandle s params.toOp with
        | none => some (s, [])
        | some (p, s) => some (s.emit (.prepared p), [.publish p])
  | .schedule p =>
      match vfsOpsScheduleJob s t p sched with
      | none => none
      | some (s, .queued job) => some (s.modify p (setJobs job), [.publish p])
      | some (s, .ran job result) => some (s, [.inlineOp p job result])
  | .inlineOp p job result => afterJob s job (s.modify p (setJobs result), [.publish p])
  | .publish p => some (vfsPublishHandle s p, [])
  | .mountOpen => underMountLock s (mountOpen s)
  | .mountSchedule m p => some (mountSchedule s t m p)
  | .mountInline m p job => afterJob s job (s.modify p (setJobs 0), [.mountPublish m p 0])
  | .mountPublish m p job => some (mountPublish s m p job, [])
  | .dispatch h => some (dispatchEnter s h)
  | .dispatchSchedule h p =>
      match vfsOpsScheduleJob s t p sched with
      | none => none
      | some (s, .queued job) => some (s, [.dispatchRecord h p job])
      | some (s, .ran job result) => some (s, [.dispatchInline h p job result])
  | .dispatchInline h p job result => afterJob s job (s, [.dispatchRecord h p result])
  | .dispatchRecord h p job => some (dispatchRecord s h p job, [])
  | .copyData h size =>
      some ({ s with nextBuffer := s.nextBuffer + 1 }.emit (.bufferAllocated s.nextBuffer),
        vfsWriteInternal h s.nextBuffer size true)
  | .chain h params => some (chainEnter s h params)
  | .chainAlloc h file ticket params mount chainAfter =>
      if (s.mounts mount).isNone then none
      else some (chainAllocate s h file ticket params mount chainAfter)
  | .chainUnwind h _ => some (chainUnwind s h, [])
  | .chainRun h file ticket p chainAfter => some (chainExecute s t h file ticket p chainAfter)
  | .chainInline h file p job =>
      afterJob s job (s.modify p (setJobs 0), [.chainPublish h file p false])
  | .chainPublish h _ p refused => some (chainPublish s h p refused, [])
  | .cancel h =>
      match s.lookupOpenHandle h with
      | none => some (s, [])
      | some (p, _) => some (s.modify p fun d => { d with cancelRequested := true }, [])
  | .reclaim => some ((vfsReclaimClosedHandles s).1, [.releases (vfsReclaimClosedHandles s).2])
  | .releases [] => some (s, [])
  | .releases (p :: ps) => some (s.emit (.released c p), [.releases ps])
  | .closeSnapshot h =>
      match s.lookupOpenHandle h with
      | none => some (s, [])
      | some (_, d) =>
          if vfsOpBorrowsCallerMemory d.opType then
            some (s, [.waitJobs d.handleJobs, .closeFinish h true])
          else some (s, [.closeFinish h false])
  | .closeFinish h borrows =>
      some ((closeFinish s t h borrows).1, [.releases (closeFinish s t h borrows).2])
  | .waitJobs [] => some (s, [])
  | .waitJobs (j :: js) =>
      if t ≠ .main ∨ s.jobFinished j then some (s, [.waitJobs js]) else none
  | .waitSnapshot h =>
      match s.lookupOpenHandle h with
      | none => some (s, [])
      | some (_, d) => some (s, [.waitJobs d.handleJobs])
  | .waitAllSnapshot =>
      some (s, [.waitJobs ((mapEntries s).flatMap fun e => e.2.2.handleJobs)])
  | .mountUnlist m => underMountLock s
      (if m ∈ s.mountList then
        ({ s with mountList := s.mountList.erase m }, [.mountSnapshot m])
      else (s, []))
  | .mountSnapshot m =>
      some ({ s with closing := m :: s.closing },
        [.waitJobs ((vfsSnapshotMountVictims s m).flatMap fun v => v.2),
          .mountDrain m ((vfsSnapshotMountVictims s m).map fun v => v.1)])
  | .mountDrain m victims => some (s, mountDrain s m victims)
  | .mountFree m victims =>
      some ((vfsFreeMountVictims s m victims).1,
        [.releases (vfsFreeMountVictims s m victims).2, .mountDestroy m])
  | .mountDestroy m => underMountLock s
      ({ s with mounts := Function.update s.mounts m none }.emit (.mountDestroyed c m), [])
  | .destroyLoop =>
      match s.mountList with
      | m :: _ => some (s, [.mountUnlist m, .destroyLoop])
      | [] => some ({ s with handleMap := ∅, destroyed := true }.emit (.destroyed c), [])

/-- The body, between taking and releasing `handle_lock` where it is a critical section. -/
def Instr.exec (s : VfsState) (c : ℕ) (t : Thread) (sched : Sched) (i : Instr) :
    Option (VfsState × List Instr) :=
  if i.locked then
    (execBody (s.emit (.lock c)) c t sched i).map fun r => (r.1.emit (.unlock c), r.2)
  else execBody s c t sched i

/-! ## Jobs -/

/-- What the world outside answers a running operation: the driver's byte count for
a read or write, or what the body of any other operation comes to. -/
inductive JobInput
  | bytes (n : ℤ)
  | completed (result : Completion)

def storeCompletion (r : Completion) (d : VfsHandleData) : VfsHandleData :=
  { d with
    resultData := r.resultData
    errorStatus := r.status
    pluginEntry := if d.opType = .fileOpen then r.pluginEntry else d.pluginEntry
    pluginFileHandle := if d.opType = .fileOpen then r.pluginFileHandle else d.pluginFileHandle
    bytesRead := r.bytesRead }

/-- A file operation that fails with `status` and no result. -/
def opFail (status : VfsOpStatus) (h : status ≠ VFS_STATE_PENDING) : Completion :=
  ⟨status, none, none, none, 0, h⟩

/-- The checks of `vfs_op_file_read` and `vfs_op_file_write` between the lookup of
the file handle and the driver call: the status they fail with, or the file handle. -/
def fileOpChecks (op : VfsHandleData) (file : Option (HandlePtr × VfsHandleData)) :
    Except VfsOpStatus HandlePtr :=
  match file with
  | none => .error VFS_ERROR_DRIVER
  | some (f, d) =>
      if d.opType ≠ .fileOpen then .error VFS_ERROR_DRIVER
      else if d.pluginFileHandle.isNone then .error VFS_ERROR_DRIVER
      else if op.opType = .fileRead ∧ op.readSize ≤ 0 then .error VFS_ERROR_DRIVER
      else match d.pluginEntry with
        | none => .error VFS_ERROR_PERMISSION
        | some plugin =>
            if (if op.opType = .fileRead then plugin.read else plugin.write) then .ok f
            else .error VFS_ERROR_PERMISSION

/-- What `vfs_op_file_read` and `vfs_op_file_write` make of the driver's byte count. -/
def fileOpResult (op : VfsHandleData) (n : ℤ) : Completion :=
  if op.opType = .fileRead then
    if n < 0 then opFail VFS_ERROR_READ (by decide)
    else ⟨VFS_STATE_SUCCESS, some ⟨true, n.toNat⟩, none, none, n, success_final⟩
  else
    if n ≠ op.writeSize then opFail VFS_ERROR_DRIVER (by decide)
    else ⟨VFS_STATE_SUCCESS, some ⟨true, n.toNat⟩, none, none, 0, success_final⟩

def VfsState.runCallback (s : VfsState) (p : HandlePtr) (d : VfsHandleData) : VfsState :=
  if d.opType = .readAll ∧ d.callback then s.emit (.callback p) else s

/-- `vfs_ops_execute` on the handle of job `j`, one step at a time. -/
def jobStep (s : VfsState) (j : FlJobHandle) (input : JobInput) : Option VfsState :=
  match s.jobs j with
  | none => none
  | some k =>
    match s.pool k.target with
    | none => none
    | some d =>
      match k.phase with
      | .queued => if s.jobDone k.dependency then some (s.setPhase j .started) else none
      | .started =>
          if d.cancelRequested then
            some (((s.runCallback k.target d).modify k.target
              (storeCompletion (opFail VFS_ERROR_CANCELED (by decide)))).setPhase j .stored)
          else if vfsOpBorrowsCallerMemory d.opType then
            some ((s.modify k.target fun d => { d with resultData := none }).setPhase j
              (.fileFound ((s.lookupHandle d.fileHandle).map fun r => r.1)))
          else match input with
            | .completed r => some ((s.runCallback k.target d).setPhase j (.bodyDone r))
            | .bytes _ => none
      | .fileFound file =>
          match file with
          | none => some (s.setPhase j (.bodyDone (opFail VFS_ERROR_DRIVER (by decide))))
          | some f =>
            match s.pool f with
            | none => none
            | some fd =>
              match fileOpChecks d (some (f, fd)) with
              | .error status =>
                  if hs : status = VFS_STATE_PENDING then none
                  else some (s.setPhase j (.bodyDone (opFail status hs)))
              | .ok f =>
                  some ((s.setPhase j (.inDriver f)).emit
                    (.driverStart ((k.chained.map fun x => x.1).getD 0) f))
      | .inDriver f =>
          match s.pool f, input with
          | some _, .bytes n =>
              some ((s.setPhase j (.bodyDone (fileOpResult d n))).emit
                (.driverEnd ((k.chained.map fun x => x.1).getD 0) f))
          | _, _ => none
      | .bodyDone r => some ((s.modify k.target (storeCompletion r)).setPhase j .stored)
      | .stored => some ((s.setPhase j .finished).emit (.jobFinished j))
      | .finished => none

/-! ## Steps -/

inductive Action
  | start (t : Thread) (request : Request)
  | exec (call : ℕ) (sched : Sched)
  | job (job : FlJobHandle) (input : JobInput)

/-- A new call may start on `t`: the calls already there are over or in foreign code. -/
def VfsState.threadFree (s : VfsState) (t : Thread) : Bool :=
  s.calls.all fun k => k.thread != t || k.callsOut

/-- Call `c` is the newest unfinished call of thread `t`. -/
def VfsState.onTop (s : VfsState) (c : ℕ) (t : Thread) : Bool :=
  (s.calls.drop (c + 1)).all fun k => k.thread != t || k.todo.isEmpty

/-- Nothing starts and no job runs once the VFS is destroyed. -/
def step (s : VfsState) : Action → Option VfsState
  | .start t request =>
      if !s.destroyed ∧ request.allowedOn t ∧ s.threadFree t then
        some { s with calls := s.calls ++ [⟨t, request.program⟩] }
      else none
  | .exec c sched =>
      match s.calls[c]? with
      | some ⟨t, i :: rest⟩ =>
          if s.onTop c t ∧ (s.destroyed → i.outlivesVfs) then
            (i.exec s c t sched).map fun r =>
              { r.1 with calls := s.calls.set c ⟨t, r.2 ++ rest⟩ }
          else none
      | _ => none
  | .job j input => if s.destroyed then none else jobStep s j input

end FlowiVfs
