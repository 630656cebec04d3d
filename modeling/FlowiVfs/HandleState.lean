import Mathlib

/-!
# Handle data, the handle map and the job table

The state that `vfs.c` keeps under `handle_lock`, with the job system and the
mounts it refers to. Addresses of `VfsHandleData` are natural numbers that are
never used twice, so an access through a pointer that outlived its handle is an
access of an address the pool no longer holds; job handles are numbered from 1,
with 0 for "no job". `pending_dispatches` and `closed_count` are integers: the
code only counts them up and down and compares them with 0, and an underflow of
the 32-bit counters then shows as a negative number.

`trace` records what happened, newest first. Nothing in the code reads it.
-/
namespace FlowiVfs

abbrev FlVfsHandle := ℕ
abbrev FlJobHandle := ℕ
abbrev VfsOpStatus := ℕ
/-- Address of a `VfsHandleData` in the handle pool. -/
abbrev HandlePtr := ℕ
/-- Address of an `FlVfsMount` in the mount pool. -/
abbrev MountPtr := ℕ

def FL_VFS_HANDLE_INVALID : FlVfsHandle := 0

def VFS_STATE_SUCCESS : VfsOpStatus := 0x0
def VFS_STATE_PENDING : VfsOpStatus := 0x1
def VFS_STATE_ERROR : VfsOpStatus := 0x2
def VFS_ERROR_MOUNT : VfsOpStatus := 0x102
def VFS_ERROR_DRIVER : VfsOpStatus := 0x202
def VFS_ERROR_READ : VfsOpStatus := 0x202
def VFS_ERROR_FILE_NOT_FOUND : VfsOpStatus := 0x202
def VFS_ERROR_PATH : VfsOpStatus := 0x602
def VFS_ERROR_PERMISSION : VfsOpStatus := 0x702
def VFS_ERROR_CANCELED : VfsOpStatus := 0x802
def VFS_ERROR_WOULD_BLOCK : VfsOpStatus := 0x902

/-- The low byte of a status is the core state. -/
def vfsGetCoreState (status : VfsOpStatus) : ℕ := status &&& 0xff

def vfsIsSuccess (status : VfsOpStatus) : Bool := vfsGetCoreState status == VFS_STATE_SUCCESS

inductive VfsOperationType
  | mount | mountList | fileOpen | fileRead | fileWrite | readAll
deriving DecidableEq, Repr

/-- What `result_data` points at: an `FlVfsData` or an `FlVfsFileList`, kept as
its `success` flag and the rest of the structure as one opaque value. -/
structure ResultData where
  success : Bool
  content : ℕ
deriving DecidableEq, Repr

/-- The entry points of the resolved driver that a file operation tests for null. -/
structure FilePlugin where
  read : Bool
  write : Bool
  close : Bool
deriving DecidableEq, Repr

structure VfsHandleData where
  jobHandle : FlJobHandle
  /-- 32 bits in the source; `counters_bounded` says that they are enough. -/
  pendingDispatches : ℤ
  closed : Bool
  mount : MountPtr
  resultData : Option ResultData
  opType : VfsOperationType
  id : FlVfsHandle
  errorStatus : VfsOpStatus
  /-- A read callback was given. -/
  callback : Bool
  /-- A release hook was given. -/
  release : Bool
  pluginEntry : Option FilePlugin
  pluginFileHandle : Option ℕ
  lastJob : FlJobHandle
  readSize : ℤ
  bytesRead : ℤ
  fileHandle : FlVfsHandle
  writeData : Option ℕ
  writeSize : ℤ
  writeDataOwned : Bool
  cancelRequested : Bool
deriving DecidableEq, Repr

theorem success_final : VFS_STATE_SUCCESS ≠ VFS_STATE_PENDING := by decide

theorem would_block_final : VFS_ERROR_WOULD_BLOCK ≠ VFS_STATE_PENDING := by decide

/-- What an operation body leaves behind when it returns. -/
structure Completion where
  status : VfsOpStatus
  resultData : Option ResultData
  pluginEntry : Option FilePlugin
  pluginFileHandle : Option ℕ
  bytesRead : ℤ
  /-- Every exit of every operation body stores a status. -/
  final : status ≠ VFS_STATE_PENDING

/-- How far a job has come in `vfs_ops_execute`. -/
inductive JobPhase
  | queued
  | started
  /-- `vfs_get_handle_data` has looked up the file handle of a read or write. -/
  | fileFound (file : Option HandlePtr)
  /-- The driver's `read` or `write` is running on the file handle's file. -/
  | inDriver (file : HandlePtr)
  /-- The body is over (a read-all has run its callback); its results are not stored yet. -/
  | bodyDone (result : Completion)
  | stored
  | finished

def JobPhase.isFinished : JobPhase → Bool
  | .finished => true
  | _ => false

/-- One execution of an operation: a job of the job system, or the inline
execution of an operation by the thread that issued it. -/
structure Job where
  target : HandlePtr
  /-- The job this one may not start before; 0 for none. -/
  dependency : FlJobHandle
  /-- For a read or write: the ticket of its entry and the file handle it is chained onto. -/
  chained : Option (ℕ × HandlePtr)
  phase : JobPhase

structure FlVfsMount where
  jobHandle : FlJobHandle
deriving DecidableEq, Repr

inductive Thread
  | main
  | worker (n : ℕ)
deriving DecidableEq, Repr

/-- Why a handle was freed: its own caller closed it, or its mount was closed. -/
inductive FreeCause
  | closed
  | mountClose (m : MountPtr)
deriving DecidableEq, Repr

inductive Event
  /-- `handle_lock` taken and released by a call. -/
  | lock (call : ℕ)
  | unlock (call : ℕ)
  /-- A handle inserted in the handle map. -/
  | published (p : HandlePtr) (mount : MountPtr) (release : Bool)
  /-- A handle allocated without scheduling its operation, and its dispatch. -/
  | prepared (p : HandlePtr)
  | dispatched (p : HandlePtr)
  /-- `vfs_close` took the handle away from its callers. -/
  | closed (p : HandlePtr)
  | freed (p : HandlePtr) (mount : MountPtr) (cause : FreeCause)
  /-- A call ran the release hook of a handle. -/
  | released (call : ℕ) (p : HandlePtr)
  | callback (p : HandlePtr)
  /-- A read or write passed the first critical section of `vfs_chain_file_op`. Its
  ticket is the length of the trace there, so that tickets grow in the order of entry. -/
  | entered (ticket : ℕ) (file : HandlePtr)
  | driverStart (ticket : ℕ) (file : HandlePtr)
  | driverEnd (ticket : ℕ) (file : HandlePtr)
  | jobFinished (job : FlJobHandle)
  | bufferAllocated (buffer : ℕ)
  | bufferFreed (buffer : ℕ)
  | driverClosed (file : ℕ)
  /-- The storage of a mount was destroyed by a call. -/
  | mountDestroyed (call : ℕ) (m : MountPtr)
  | destroyed (call : ℕ)
deriving DecidableEq, Repr

end FlowiVfs
