import FlowiVfs.HandleMachine
import FlowiVfs.MountOps

/-!
# The operation of a handle

`vfs_ops_execute` for every operation type, with the bodies of a read and a write on an
open file. An operation on an open file looks up the file's handle, which another thread
may have closed, and calls the driver once. What an operation comes to is what it stores
in its handle: the status, and the payload that `result_data` points at.
-/
namespace FlowiVfs.Tree

open Program

/-! ## Programs of a job -/

/-- What the operations on an open file perform. -/
inductive FileCall
  /-- `vfs_get_handle_data` -/
  | getHandleData (handle : FlVfsHandle)
  /-- The driver's `read` or `write` on the file of a handle, with its byte count. -/
  | read (file : HandlePtr) (size : ℤ)
  | write (file : HandlePtr) (data : Option ℕ) (size : ℤ)

abbrev FileCall.Reply : FileCall → Type
  | getHandleData _ => Option (HandlePtr × VfsHandleData)
  | read .. => ℤ
  | write .. => ℤ

abbrev ops : Signature := ⟨VfsOp ⊕ FileCall, Sum.elim VfsOp.Reply FileCall.Reply⟩

abbrev OpsProgram := Program ops

def onFile (c : FileCall) : OpsProgram c.Reply := Program.call (E := ops) (.inr c)

/-- An operation on a mount, as the operation of a handle. -/
def onMounts {A : Type} : VfsProgram A → OpsProgram A
  | .done a => .done a
  | .perform op next => Program.perform (E := ops) (.inl op) fun r => onMounts (next r)

@[simp] theorem onMounts_done {A : Type} (a : A) : onMounts (.done a) = .done a := rfl

@[simp] theorem onMounts_bind {A B : Type} (p : VfsProgram A) (f : A → VfsProgram B) :
    onMounts (p >>= f) = onMounts p >>= fun a => onMounts (f a) := by
  induction p with
  | done a => rfl
  | perform op next ih =>
      rw [Program.perform_bind]
      simp only [onMounts, Program.perform_bind]
      congr 1
      funext r
      exact ih r

/-- The environment of an operation on a mount, where open files are looked up and read and
written as they may be. -/
def withFiles {S : Type} (env : Environment vfs S) : Environment ops S := fun s op r t =>
  match op, r with
  | .inl op, r => env s op r t
  | .inr _, _ => t = s

theorem run_onMounts {S A : Type} {env : Environment vfs S} {p : VfsProgram A} {s t : S} {a : A} :
    Run (withFiles env) (onMounts p) s a t ↔ Run env p s a t := by
  induction p generalizing s with
  | done b => simp
  | perform op next ih =>
      simp only [onMounts, run_perform]
      constructor
      · rintro ⟨r, u, answer, rest⟩
        exact ⟨r, u, answer, (ih r).mp rest⟩
      · rintro ⟨r, u, answer, rest⟩
        exact ⟨r, u, answer, (ih r).mpr rest⟩

/-! ## Reading and writing an open file -/

theorem fileOpChecks_final {op : VfsHandleData} {file : Option (HandlePtr × VfsHandleData)}
    {status : VfsOpStatus} (h : fileOpChecks op file = .error status) :
    status ≠ VFS_STATE_PENDING := by
  have hdriver : VFS_ERROR_DRIVER ≠ VFS_STATE_PENDING := by decide
  have hpermission : VFS_ERROR_PERMISSION ≠ VFS_STATE_PENDING := by decide
  cases file with
  | none =>
      cases h
      exact hdriver
  | some found =>
      obtain ⟨f, d⟩ := found
      by_cases hopen : d.opType ≠ .fileOpen
      · simp only [fileOpChecks, if_pos hopen, Except.error.injEq] at h
        exact h ▸ hdriver
      by_cases hfile : d.pluginFileHandle.isNone = true
      · simp only [fileOpChecks, if_neg hopen, if_pos hfile, Except.error.injEq] at h
        exact h ▸ hdriver
      by_cases hsize : op.opType = .fileRead ∧ op.readSize ≤ 0
      · simp only [fileOpChecks, if_neg hopen, if_neg hfile, if_pos hsize, Except.error.injEq] at h
        exact h ▸ hdriver
      simp only [fileOpChecks, if_neg hopen, if_neg hfile, if_neg hsize] at h
      cases hplugin : d.pluginEntry with
      | none =>
          simp only [hplugin, Except.error.injEq] at h
          exact h ▸ hpermission
      | some plugin =>
          simp only [hplugin] at h
          split_ifs at h
          all_goals exact Except.error.inj h ▸ hpermission

/-- The lookup, the checks, the driver's call and what becomes of its byte count. -/
def vfsOpFile (op : VfsHandleData) (transfer : HandlePtr → OpsProgram ℤ) :
    OpsProgram Completion := do
  let file ← onFile (.getHandleData op.fileHandle)
  match h : fileOpChecks op file with
  | .error status => pure (opFail status (fileOpChecks_final h))
  | .ok file => do
      let bytes ← transfer file
      pure (fileOpResult op bytes)

def vfsOpFileRead (op : VfsHandleData) : OpsProgram Completion :=
  vfsOpFile op fun file => onFile (.read file op.readSize)

def vfsOpFileWrite (op : VfsHandleData) : OpsProgram Completion :=
  vfsOpFile op fun file => onFile (.write file op.writeData op.writeSize)

/-! ## What an operation stores -/

/-- What `result_data` points at: a listing, a file that was read whole, or the account of
a transfer. -/
inductive Payload
  | list (result : ListOutcome)
  | data (result : ReadAllOutcome)
  | transferred (result : ResultData)

def Payload.success : Payload → Bool
  | list result => result.success
  | data result => result.success
  | transferred result => result.success

structure Stored where
  errorStatus : VfsOpStatus
  resultData : Option Payload := none
  /-- The file of a file open: its driver, that driver's handle and the file's own. -/
  file : Option (PluginEntry × Option DriverPtr × DriverPtr) := none

def OpenOutcome.stored : OpenOutcome → Stored
  | failed status => { errorStatus := status }
  | opened entry pluginHandle fileHandle =>
      { errorStatus := VFS_STATE_SUCCESS, file := some (entry, pluginHandle, fileHandle) }

def Completion.stored (result : Completion) : Stored :=
  { errorStatus := result.status, resultData := result.resultData.map .transferred }

def ListOutcome.stored (outcome : ListOutcome) : Stored :=
  { errorStatus := outcome.status, resultData := some (.list outcome) }

def ReadAllOutcome.stored (outcome : ReadAllOutcome) : Stored :=
  { errorStatus := outcome.status, resultData := some (.data outcome) }

/-! ## Running an operation -/

/-- The operation of a handle. A read or write has its parameters in the handle. -/
inductive Operation
  | mount (rounds : ℕ) (path : FlString)
  | list (path needle : FlString)
  | fileOpen (path : FlString) (flags : ℕ)
  | fileRead (op : { d : VfsHandleData // d.opType = .fileRead })
  | fileWrite (op : { d : VfsHandleData // d.opType = .fileWrite })
  | readAll (path : FlString)

def Operation.opType : Operation → VfsOperationType
  | mount .. => .mount
  | list .. => .mountList
  | fileOpen .. => .fileOpen
  | fileRead _ => .fileRead
  | fileWrite _ => .fileWrite
  | readAll _ => .readAll

section
variable (self : VfsState) (slots : ℕ)
variable {Score : Type} [LinearOrder Score] (matcher : Matcher Score)

/-- The switch of `vfs_ops_execute`. A mount operation has no result where its rounds do
not suffice. -/
def Operation.body (worker : ℕ) : Operation → OpsProgram (Option Stored)
  | mount rounds path => do
      let status ← onMounts (vfsOpMount self slots rounds path)
      pure (status.map fun status => { errorStatus := status })
  | list path needle => do
      let outcome ← onMounts (vfsOpList self slots matcher path needle worker)
      pure (some outcome.stored)
  | fileOpen path flags => do
      let outcome ← onMounts (vfsOpFileOpen self slots path flags worker)
      pure (some outcome.stored)
  | fileRead op => do
      let result ← vfsOpFileRead op.1
      pure (some (Completion.stored result))
  | fileWrite op => do
      let result ← vfsOpFileWrite op.1
      pure (some (Completion.stored result))
  | readAll path => do
      let outcome ← onMounts (vfsOpReadAll self slots path worker)
      pure (some outcome.stored)

/-- `vfs_ops_execute` on an operation that was canceled before it started. -/
def Operation.canceled (operation : Operation) : OpsProgram (Option Stored) := do
  if operation.opType = .readAll then onMounts readAllNotifyFailure
  pure (some { errorStatus := VFS_ERROR_CANCELED })

/-- `vfs_ops_execute` -/
def Operation.execute (worker : ℕ) (operation : Operation) : OpsProgram (Option Stored) := do
  let canceled ← onMounts shouldCancel
  if canceled then operation.canceled
  else operation.body self slots matcher worker

end
end FlowiVfs.Tree
