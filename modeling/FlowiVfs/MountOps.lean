import FlowiVfs.HandleState
import FlowiVfs.TreeWalk

/-!
# The operations of a mount

`vfs_op_mount`, `vfs_op_list`, `vfs_op_file_open` and `vfs_op_read_all` as programs. What
an operation stores in its handle is its result: the status, and the payload or the text
of the error with the path that is formatted into it.

The matcher of a filtered listing (`match.h`) and the order of its scores are parameters.
-/
namespace FlowiVfs.Tree

/-- `VFS_MAX_READ_SIZE` -/
def maxReadSize : ℤ := 512 * 1024 * 1024

/-- A format text, and the path that its `%S` stands for. -/
abbrev ErrorMessage := String × FlString

/-! ## Mounting -/

section
variable (self : VfsState) (slots : ℕ)

/-- `vfs_op_mount` after the resolution, with the status it stores. -/
def finishMount : FinalDriver → VfsProgram VfsOpStatus
  | .resolved entry handle => do
      let handles ← onDrivers (vfsTreeClonePluginHandle slots entry handle)
      if handles.slot 0 = none then onDrivers (driver (.close entry handle))
      let (watching, sourcePath) ← onMount .loadWatching
      if watching ∧ entry.plugin.name = "LocalFS".toList then
        let watcher ← perform (.fileWatcherStart sourcePath)
        onMount (.storeRoot entry handles watcher)
      else onMount (.storeRoot entry handles 0)
      pure VFS_STATE_SUCCESS
  | .failed _ => do
      onMount .clearRoot
      pure VFS_ERROR_MOUNT

/-- `vfs_op_mount`, within `rounds` rounds of the resolution. -/
def vfsOpMount (rounds : ℕ) (path : FlString) : VfsProgram (Option VfsOpStatus) := do
  let result ← onDrivers (vfsTreeMountPath self rounds path)
  match result with
  | none => pure none
  | some result =>
      let status ← finishMount slots result
      pure (some status)

end

inductive FlVfsMountStatus
  | pending
  | ready
  | error
deriving DecidableEq

/-- `vfs_tree_root_is_resolved` -/
def vfsTreeRootIsResolved (m : FlVfsMount) : Bool :=
  match m.tree.nodes m.tree.root with
  | none => false
  | some n => n.pluginEntry.isSome && (n.handles.slot 0).isSome

/-- `vfs_mount_get_status`, where the mount job is finished or not. -/
def vfsMountGetStatus (m : FlVfsMount) (finished : Bool) : FlVfsMountStatus :=
  if ¬ finished then .pending
  else if vfsTreeRootIsResolved m then .ready
  else .error

/-! ## Opening a file -/

inductive OpenOutcome
  | failed (status : VfsOpStatus)
  | opened (entry : PluginEntry) (pluginHandle : Option DriverPtr) (fileHandle : DriverPtr)

section
variable (self : VfsState) (slots : ℕ)

def vfsOpFileOpen (path : FlString) (flags worker : ℕ) : VfsProgram OpenOutcome := do
  let (_, root) ← onMount (.rootDriver worker)
  if root.pluginEntry = none then pure (.failed VFS_ERROR_MOUNT)
  else
    let walk ← vfsTreeWalkAndResolve self slots path worker false
    match walk.success, walk.driver.pluginEntry with
    | true, some entry =>
        let options ← onMount .loadOptions
        let opened ← onDrivers
          (driver (.openPath entry walk.driver.handle walk.pathFromNode flags options))
        match opened.handle with
        | none => pure (.failed VFS_ERROR_FILE_NOT_FOUND)
        | some handle => pure (.opened entry walk.driver.handle handle)
    | _, _ => pure (.failed VFS_ERROR_FILE_NOT_FOUND)

end

/-! ## Reading a file whole -/

/-- The `FlVfsData` and the status of a read, and whether the callback's data replaced
the buffer. -/
structure ReadAllOutcome where
  status : VfsOpStatus
  data : Option BufferPtr := none
  contents : Bytes := []
  size : ℤ := 0
  success : Bool := false
  errorMessage : Option ErrorMessage := none
  callbackOwnsData : Bool := false

/-- `FlVfsOpenFlags_Read` -/
def openFlagsRead : ℕ := 1

/-- `read_all_notify_failure`: what the callback returns is dropped. -/
def readAllNotifyFailure : VfsProgram Unit := do
  let _ ← perform (.callback none 0)
  pure ()

/-- `read_all_set_error` -/
def readAllSetError (entry : PluginEntry) (handle : DriverPtr) (buffer : Option BufferPtr)
    (message : ErrorMessage) : VfsProgram ReadAllOutcome := do
  match buffer with
  | none => pure ()
  | some b => perform (.release b)
  onDrivers (driver (.close entry handle))
  readAllNotifyFailure
  pure { status := VFS_ERROR_READ, errorMessage := some message }

/-- The same, for a read that was canceled. -/
def readAllCanceled (entry : PluginEntry) (handle : DriverPtr) (buffer : BufferPtr)
    (path : FlString) : VfsProgram ReadAllOutcome := do
  let outcome ← readAllSetError entry handle (some buffer) ("Read canceled: %S", path)
  pure { outcome with status := VFS_ERROR_CANCELED }

/-- What was read, before the callback sees it. -/
structure FileContents where
  buffer : BufferPtr
  contents : Bytes
  size : ℤ

section
variable (path : FlString) (entry : PluginEntry) (handle : DriverPtr)

/-- The read of a file whose size is known. -/
def readKnownSize (buffer : BufferPtr) (size : ℤ) :
    VfsProgram (ReadAllOutcome ⊕ FileContents) := do
  let read ← perform (.readFile entry handle (.buffer buffer 0) size)
  if read.bytesRead < 0 then
    let failure ← readAllSetError entry handle (some buffer) ("Read failed: %S", path)
    pure (.inl failure)
  else pure (.inr ⟨buffer, read.contents, read.bytesRead⟩)

/-- Where the chunk loop is. -/
structure ChunkState where
  buffer : BufferPtr
  capacity : ℤ
  totalRead : ℤ := 0
  contents : Bytes := []

/-- The buffer of the next chunk, grown when it is full. -/
def growBuffer (c : ChunkState) : VfsProgram (Option ChunkState) :=
  if c.capacity - c.totalRead ≤ 0 then do
    let capacity := min (c.capacity * 2) maxReadSize
    let grown ← perform (.reallocate c.buffer capacity)
    match grown with
    | none => pure none
    | some buffer => pure (some { c with buffer := buffer, capacity := capacity })
  else pure (some c)

/-- The loop ended at the end of the file, at the cap, or with a failure. -/
inductive ChunkEnd
  | failed (outcome : ReadAllOutcome)
  | stopped (c : ChunkState) (reachedEof : Bool)

/-- The loop over chunks. Every round but the last reads at least one byte, so the rounds
that are left bound it when there are as many as bytes up to the cap. -/
def readChunks : ℕ → ChunkState → VfsProgram ChunkEnd
  | 0, c => pure (.stopped c false)
  | left + 1, c =>
      if c.totalRead < maxReadSize then do
        let canceled ← shouldCancel
        if canceled then
          let outcome ← readAllCanceled entry handle c.buffer path
          pure (.failed outcome)
        else
          let grown ← growBuffer c
          match grown with
          | none =>
              let outcome ← readAllSetError entry handle (some c.buffer)
                ("Out of memory: %S", path)
              pure (.failed outcome)
          | some c =>
              let read ← perform (.readFile entry handle (.buffer c.buffer c.totalRead)
                (c.capacity - c.totalRead))
              if read.bytesRead < 0 then
                let outcome ← readAllSetError entry handle (some c.buffer)
                  ("Read failed: %S", path)
                pure (.failed outcome)
              else if read.bytesRead = 0 then pure (.stopped c true)
              else
                readChunks left
                  { c with
                    totalRead := c.totalRead + read.bytesRead
                    contents := c.contents ++ read.contents }
      else pure (.stopped c false)

/-- The probe behind the cap. -/
def probeEnd (c : ChunkState) : VfsProgram (ReadAllOutcome ⊕ FileContents) := do
  let probe ← perform (.readFile entry handle .probe 1)
  if probe.bytesRead < 0 then
    let failure ← readAllSetError entry handle (some c.buffer) ("Read failed: %S", path)
    pure (.inl failure)
  else if 0 < probe.bytesRead then
    let failure ← readAllSetError entry handle (some c.buffer)
      ("File exceeds max read size: %S", path)
    pure (.inl failure)
  else pure (.inr ⟨c.buffer, c.contents, c.totalRead⟩)

/-- The read of a file whose size is reported as 0. -/
def readUnknownSize (buffer : BufferPtr) : VfsProgram (ReadAllOutcome ⊕ FileContents) := do
  perform (.release buffer)
  let chunk ← perform (.allocate (64 * 1024))
  match chunk with
  | none =>
      let failure ← readAllSetError entry handle none ("Out of memory: %S", path)
      pure (.inl failure)
  | some chunk =>
      let ended ← readChunks path entry handle maxReadSize.toNat
        { buffer := chunk, capacity := 64 * 1024 }
      match ended with
      | .failed outcome => pure (.inl outcome)
      | .stopped c true => pure (.inr ⟨c.buffer, c.contents, c.totalRead⟩)
      | .stopped c false => probeEnd path entry handle c

/-- `vfs_op_read_all` between the open and the close of the file. -/
def readContents : VfsProgram (ReadAllOutcome ⊕ FileContents) := do
  let size ← onDrivers (driver (.getSize entry (some handle) []))
  if size < 0 then
    let failure ← readAllSetError entry handle none ("Failed to get size: %S", path)
    pure (.inl failure)
  else if maxReadSize < size then
    let failure ← readAllSetError entry handle none ("File exceeds max read size: %S", path)
    pure (.inl failure)
  else
    let buffer ← perform (.allocate (if 0 < size then size else 1))
    match buffer with
    | none =>
        let failure ← readAllSetError entry handle none ("Out of memory: %S", path)
        pure (.inl failure)
    | some buffer =>
        let canceled ← shouldCancel
        if canceled then
          let failure ← readAllCanceled entry handle buffer path
          pure (.inl failure)
        else if 0 < size then readKnownSize path entry handle buffer size
        else readUnknownSize path entry handle buffer

/-- The callback on a file that was read. -/
def finishRead (file : FileContents) : VfsProgram ReadAllOutcome := do
  let answer ← perform (.callback (some file.buffer) file.size)
  match answer with
  | none =>
      pure
        { status := VFS_STATE_SUCCESS
          data := some file.buffer
          contents := file.contents
          size := file.size
          success := true }
  | some answer =>
      if answer.data = some file.buffer then
        pure
          { status := VFS_STATE_SUCCESS
            data := some file.buffer
            contents := file.contents
            size := answer.size
            success := answer.success }
      else
        perform (.release file.buffer)
        pure
          { status := VFS_STATE_SUCCESS
            data := answer.data
            size := answer.size
            success := answer.success
            callbackOwnsData := true }

end

/-- `vfs_op_read_all` behind its open. -/
def readAllOpened (path : FlString) : OpenOutcome → VfsProgram ReadAllOutcome
  | .failed status => do
      readAllNotifyFailure
      pure
        { status := status
          errorMessage := some ("Failed to read '%S': file not found", path) }
  | .opened entry _ handle => do
      let read ← readContents path entry handle
      match read with
      | .inl failure => pure failure
      | .inr file =>
          onDrivers (driver (.close entry handle))
          finishRead file

section
variable (self : VfsState) (slots : ℕ)

def vfsOpReadAll (path : FlString) (worker : ℕ) : VfsProgram ReadAllOutcome := do
  let opened ← vfsOpFileOpen self slots path openFlagsRead worker
  readAllOpened path opened

end

/-! ## Listing a directory -/

/-- The `FlVfsFileList` of a listing, and its status. -/
structure ListOutcome where
  status : VfsOpStatus
  entries : List Entry := []
  mountVersion : ℕ := 0
  success : Bool := false
  errorMessage : Option ErrorMessage := none

/-- `vfs_list_fail` -/
def vfsListFail (status : VfsOpStatus) (message : ErrorMessage) : ListOutcome :=
  { status := status, errorMessage := some message }

/-- `has_match` and `match` of the fuzzy matcher. -/
structure Matcher (Score : Type) where
  hasMatch : FlString → FlString → Bool
  score : FlString → FlString → Score

section
variable {Score : Type} [LinearOrder Score]

/-- One round of the insertion sort: what scores less than the key at the end of the
sorted part goes behind it. -/
def insertScored (sorted : List (Entry × Score)) (key : Entry × Score) :
    List (Entry × Score) :=
  let less := fun x : Entry × Score => decide (x.2 < key.2)
  (sorted.reverse.dropWhile less).reverse ++ key :: (sorted.reverse.takeWhile less).reverse

/-- The second pass of a listing. -/
def filterEntries (matcher : Matcher Score) (needle : FlString) (entries : List Entry) :
    List Entry :=
  if needle = [] then entries
  else
    let lowered := needle.map Char.toLower
    let scored := (entries.filter fun e => matcher.hasMatch lowered e.name).map
      fun e => (e, matcher.score lowered e.name)
    (scored.foldl insertScored []).map Prod.fst

end

section
variable (self : VfsState) (slots : ℕ)

/-- The loop of `vfs_ops_check_if_archive`. -/
def checkIfArchive (filePath : FlString) : List PluginEntry → DriverProgram Bool
  | [] => pure false
  | entry :: rest => do
      let openable ← driver (.canOpen entry filePath)
      if openable then
        let opened ← driver (.openPath entry none filePath 0 {})
        match opened.handle with
        | none => checkIfArchive filePath rest
        | some handle =>
            driver (.close entry handle)
            if opened.isDirectory then pure true else checkIfArchive filePath rest
      else checkIfArchive filePath rest

def vfsOpsCheckIfArchive (filePath : FlString) : DriverProgram Bool :=
  checkIfArchive filePath self.plugins

/-- The flag of an entry that the callback puts into the tree. -/
def entryIsArchive (lister : PluginEntry) (handle : Option DriverPtr) (entry : Entry) :
    DriverProgram Bool :=
  if ¬ entry.isDirectory ∧ ¬ entry.isArchive ∧ lister.plugin.hasGetFilePath ∧
      lister.plugin.name = "LocalFS".toList then do
    let filePath ← driver (.getFilePath lister handle entry.name)
    if filePath = [] then pure entry.isArchive else vfsOpsCheckIfArchive self filePath
  else pure entry.isArchive

/-- `vfs_dir_entry_callback`; the driver goes on when it returns true. -/
def vfsDirEntryCallback (lister : PluginEntry) (handle : Option DriverPtr)
    (parent : NodePtr) (entry : Entry) : VfsProgram Bool := do
  let canceled ← shouldCancel
  if canceled then pure false
  else if entry.name = ".".toList ∨ entry.name = "..".toList then pure true
  else
    let isArchive ← onDrivers (entryIsArchive self lister handle entry)
    onMount (.listEntry parent { entry with isArchive := isArchive })
    pure true

/-- A driver's enumeration: the callback on each entry, until it returns false. -/
def enumerate (lister : PluginEntry) (handle : Option DriverPtr) (parent : NodePtr) :
    List Entry → VfsProgram Unit
  | [] => pure ()
  | entry :: rest => do
      let goOn ← vfsDirEntryCallback self lister handle parent entry
      if goOn then enumerate lister handle parent rest else pure ()

variable {Score : Type} [LinearOrder Score] (matcher : Matcher Score)

/-- `vfs_op_list` behind the enumeration. -/
def finishList (path needle : FlString) (node : NodePtr) : VfsProgram ListOutcome := do
  let canceled ← shouldCancel
  if canceled then pure (vfsListFail VFS_ERROR_CANCELED ("Listing of '%S' canceled", path))
  else
    let entries ← onMount (.snapshot node)
    let version ← onMount .loadVersion
    pure
      { status := VFS_STATE_SUCCESS
        entries := filterEntries matcher needle entries
        mountVersion := version
        success := true }

def vfsOpList (path needle : FlString) (worker : ℕ) : VfsProgram ListOutcome := do
  let (_, root) ← onMount (.rootDriver worker)
  if root.pluginEntry = none then
    pure (vfsListFail VFS_ERROR_MOUNT ("Failed to list '%S': Mount not ready", path))
  else
    let walk ← vfsTreeWalkAndResolve self slots path worker true
    match walk.success, walk.driver.pluginEntry, walk.node with
    | true, some entry, some node =>
        if ¬ entry.plugin.hasListDirectory then
          pure (vfsListFail VFS_ERROR_DRIVER
            ("Failed to list '%S': Plugin does not support listing", path))
        else
          let reported ← onDrivers
            (driver (.listDirectory entry walk.driver.handle walk.pathFromNode))
          enumerate self entry walk.driver.handle node reported
          finishList matcher path needle node
    | _, _, _ =>
        pure (vfsListFail VFS_ERROR_PATH ("Failed to list '%S': Path not found", path))

end

/-! ## Running an operation -/

/-- An operation on a mount behind its mount operation, with what the caller set. -/
inductive MountCall
  | list (path needle : FlString)
  | fileOpen (path : FlString) (flags : ℕ)
  | readAll (path : FlString)

inductive CallOutcome
  | list (outcome : ListOutcome)
  | fileOpen (outcome : OpenOutcome)
  | readAll (outcome : ReadAllOutcome)

/-- What the handle's `error_status` ends up as. -/
def CallOutcome.status : CallOutcome → VfsOpStatus
  | list outcome => outcome.status
  | fileOpen (.failed status) => status
  | fileOpen (.opened ..) => VFS_STATE_SUCCESS
  | readAll outcome => outcome.status

section
variable (self : VfsState) (slots : ℕ)
variable {Score : Type} [LinearOrder Score] (matcher : Matcher Score)

/-- `vfs_ops_execute` on an operation that was canceled before it started. -/
def MountCall.canceled : MountCall → VfsProgram CallOutcome
  | list .. => pure (.list { status := VFS_ERROR_CANCELED })
  | fileOpen .. => pure (.fileOpen (.failed VFS_ERROR_CANCELED))
  | readAll _ => do
      readAllNotifyFailure
      pure (.readAll { status := VFS_ERROR_CANCELED })

/-- `vfs_ops_execute` -/
def vfsOpsExecute (worker : ℕ) (call : MountCall) : VfsProgram CallOutcome := do
  let canceled ← shouldCancel
  if canceled then call.canceled
  else match call with
    | .list path needle => do
        let outcome ← vfsOpList self slots matcher path needle worker
        pure (.list outcome)
    | .fileOpen path flags => do
        let outcome ← vfsOpFileOpen self slots path flags worker
        pure (.fileOpen outcome)
    | .readAll path => do
        let outcome ← vfsOpReadAll self slots path worker
        pure (.readAll outcome)

/-- `vfs_ops_execute` on a mount operation. -/
def executeMount (rounds : ℕ) (path : FlString) : VfsProgram (Option VfsOpStatus) := do
  let canceled ← shouldCancel
  if canceled then pure (some VFS_ERROR_CANCELED)
  else vfsOpMount self slots rounds path

end
end FlowiVfs.Tree
