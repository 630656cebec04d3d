import FlowiVfs.MountPath
import FlowiVfs.TreeHeap

/-!
# Operations of a mount on its tree

A walk, a listing or a read of a mount is a program whose operations are driver calls,
sections of the code that hold `tree_lock`, single unlocked accesses of the mount, and the
calls it makes around them: a poll of the cancel flag, the allocator, the callback of a
read, the file watcher.

A section is run on the mount as it is then. It has no result when it follows a pointer to
a node that is not in the pool.
-/
namespace FlowiVfs.Tree

/-- The fields of `FlVfsMount` that operations on the mount read or write. -/
structure FlVfsMount where
  tree : MountTree
  version : ℕ := 0
  sourcePath : FlString := []
  options : MountOptions := {}
  enableFileWatching : Bool := false
  watchingEnabled : Bool := false
  watcherHandle : ℕ := 0

/-- The driver of a node as one worker uses it: its entry and the worker's slot. -/
structure DriverView where
  pluginEntry : Option PluginEntry := none
  handle : Option DriverPtr := none
deriving DecidableEq

/-- What a walk copies from a child under the lock. -/
structure ChildView where
  node : NodePtr
  isDirectory : Bool
  driver : DriverView

namespace VfsTreeNode

variable (n : VfsTreeNode)

def view (worker : ℕ) : DriverView := ⟨n.pluginEntry, n.handles.slot worker⟩

/-- The `NodeInfo` of a child. -/
def info : Entry :=
  { name := n.name
    size := n.size
    attributes := n.attributes
    isDirectory := n.isDirectory
    isArchive := n.isArchive }

end VfsTreeNode

inductive MountSection
  /-- `root_node` with its driver. -/
  | rootDriver (worker : ℕ)
  /-- The lookup of `vfs_tree_walk_and_resolve`, with the copies it makes. -/
  | lookChild (parent : NodePtr) (segment : FlString) (worker : ℕ)
  | ensureChildNodeExists (parent : NodePtr) (segment : FlString) (markAsDirectory : Bool)
  /-- The swap of `vfs_tree_try_load_as_archive`. -/
  | installArchive (node : NodePtr) (entry : PluginEntry) (handles : VfsHandles)
      (memoryData : Option BufferPtr) (memorySize : ℤ)
  /-- The driver of a child after an archive was loaded into it. -/
  | readDriver (node : NodePtr) (worker : ℕ)
  | markDirectory (node : NodePtr)
  /-- The section of `vfs_dir_entry_callback`. -/
  | listEntry (parent : NodePtr) (entry : Entry)
  /-- The snapshot of `vfs_op_list`. -/
  | snapshot (node : NodePtr)
  | loadVersion
  | loadOptions
  /-- `enable_file_watching`, with `source_path`. -/
  | loadWatching
  /-- The writes of `vfs_op_mount` after a resolution. -/
  | storeRoot (entry : PluginEntry) (handles : VfsHandles) (watcher : ℕ)
  /-- The writes of `vfs_op_mount` without one. -/
  | clearRoot

namespace MountSection

abbrev Reply : MountSection → Type
  | rootDriver .. => NodePtr × DriverView
  | lookChild .. => Option ChildView
  | ensureChildNodeExists .. => NodePtr
  | installArchive .. => Unit
  | readDriver .. => DriverView
  | markDirectory .. => Unit
  | listEntry .. => Unit
  | snapshot .. => List Entry
  | loadVersion => ℕ
  | loadOptions => MountOptions
  | loadWatching => Bool × FlString
  | storeRoot .. => Unit
  | clearRoot => Unit

end MountSection

namespace MountTree

variable (t : MountTree)

/-- The loop over the children that copies them. -/
def childInfos : ℕ → Option NodePtr → Option (List Entry)
  | _, none => some []
  | 0, some _ => none
  | left + 1, some c => do
      let n ← t.nodes c
      let rest ← childInfos left n.nextSibling
      some (n.info :: rest)

def lookChild (parent : NodePtr) (segment : FlString) (worker : ℕ) :
    Option (Option ChildView) := do
  let found ← t.findChildNode parent segment
  match found with
  | none => some none
  | some child =>
      let n ← t.nodes child
      some (some
        { node := child
          isDirectory := n.isDirectory
          driver :=
            ⟨n.pluginEntry, if n.pluginEntry.isSome then n.handles.slot worker else none⟩ })

end MountTree

namespace MountSection

/-- What a section does. A node that it creates goes to the slot `fresh`. -/
def run (natural : NaturalCompare) (fresh : NodePtr) (m : FlVfsMount) :
    (op : MountSection) → Option (op.Reply × FlVfsMount)
  | rootDriver worker => do
      let n ← m.tree.nodes m.tree.root
      some ((m.tree.root, n.view worker), m)
  | lookChild parent segment worker => do
      let found ← m.tree.lookChild parent segment worker
      some (found, m)
  | ensureChildNodeExists parent segment mark => do
      let (child, t) ← m.tree.ensureChildNodeExists natural parent segment mark fresh
      some (child, { m with tree := t })
  | installArchive node entry handles memoryData memorySize => do
      let t ← m.tree.installArchive node entry handles memoryData memorySize
      some ((), { m with tree := t })
  | readDriver node worker => do
      let n ← m.tree.nodes node
      some (n.view worker, m)
  | markDirectory node => do
      let t ← m.tree.update node fun n => { n with isDirectory := true }
      some ((), { m with tree := t })
  | listEntry parent entry => do
      let t ← m.tree.listEntry natural parent entry fresh
      some ((), { m with tree := t })
  | snapshot node => do
      let n ← m.tree.nodes node
      let infos ← m.tree.childInfos m.tree.count n.firstChild
      some (infos, m)
  | loadVersion => some (m.version, m)
  | loadOptions => some (m.options, m)
  | loadWatching => some ((m.enableFileWatching, m.sourcePath), m)
  | storeRoot entry handles watcher => do
      let t ← m.tree.update m.tree.root fun n =>
        { n with pluginEntry := some entry, handles := handles }
      some ((), { m with
        tree := t
        version := 0
        watcherHandle := watcher
        watchingEnabled := watcher ≠ 0 })
  | clearRoot => do
      let t ← m.tree.update m.tree.root fun n =>
        { n with pluginEntry := none, handles := [] }
      some ((), { m with tree := t, watcherHandle := 0, watchingEnabled := false })

end MountSection

/-- Where a read delivers its bytes: at an offset of a buffer, or in a local byte. -/
inductive ReadTarget
  | buffer (buffer : BufferPtr) (offset : ℤ)
  | probe
deriving DecidableEq

/-- The `FlVfsData` that a read callback returns. -/
structure CallbackResult where
  data : Option BufferPtr
  size : ℤ
  success : Bool

inductive VfsOp
  | driver (op : DriverOp)
  | mount (op : MountSection)
  /-- `vfs_should_cancel` -/
  | shouldCancel
  /-- `mi_malloc` and `mi_realloc` where the result is checked. -/
  | allocate (size : ℤ)
  | reallocate (buffer : BufferPtr) (size : ℤ)
  | release (buffer : BufferPtr)
  /-- A `read` of the whole file handle, from where the previous one stopped. -/
  | readFile (entry : PluginEntry) (handle : DriverPtr) (target : ReadTarget) (size : ℤ)
  /-- `handle->callback`, if there is one. -/
  | callback (data : Option BufferPtr) (size : ℤ)
  /-- `file_watcher_start` -/
  | fileWatcherStart (path : FlString)
  /-- A read behind the end of an array of strings. -/
  | strayString

abbrev VfsOp.Reply : VfsOp → Type
  | driver op => op.Reply
  | mount op => op.Reply
  | shouldCancel => Bool
  | allocate _ => Option BufferPtr
  | reallocate .. => Option BufferPtr
  | release _ => Unit
  | readFile .. => ReadResult
  | callback .. => Option CallbackResult
  | fileWatcherStart _ => ℕ
  | strayString => FlString

abbrev vfs : Signature := ⟨VfsOp, VfsOp.Reply⟩

abbrev VfsProgram := Program vfs

/-- The operation as a program. -/
def perform (op : VfsOp) : VfsProgram op.Reply := Program.call (E := vfs) op

def onMount (op : MountSection) : VfsProgram op.Reply := perform (.mount op)

def shouldCancel : VfsProgram Bool := perform .shouldCancel

/-- A program over the drivers, run as a part of an operation. -/
def onDrivers {A : Type} : DriverProgram A → VfsProgram A
  | .done a => .done a
  | .perform op next => .perform (VfsOp.driver op) fun r => onDrivers (next r)

@[simp] theorem execute_vfs {S : Type} (handle : Program.Handler vfs S) (op : VfsOp) (s : S) :
    Program.execute (A := no_index op.Reply) handle (perform op) s = handle op s :=
  rfl

@[simp] theorem execute_onMount {S : Type} (handle : Program.Handler vfs S) (op : MountSection)
    (s : S) :
    Program.execute (A := no_index op.Reply) handle (onMount op) s = handle (.mount op) s :=
  rfl

@[simp] theorem execute_shouldCancel {S : Type} (handle : Program.Handler vfs S) (s : S) :
    Program.execute handle shouldCancel s = handle .shouldCancel s := rfl

@[simp] theorem onDrivers_done {A : Type} (a : A) : onDrivers (.done a) = .done a := rfl

@[simp] theorem onDrivers_bind {A B : Type} (p : DriverProgram A) (f : A → DriverProgram B) :
    onDrivers (p >>= f) = onDrivers p >>= fun a => onDrivers (f a) := by
  induction p with
  | done a => rfl
  | perform op next ih =>
      rw [Program.perform_bind]
      simp only [onDrivers, Program.perform_bind, ih]

@[simp] theorem execute_onDrivers {S : Type} (handle : Program.Handler vfs S) (op : DriverOp)
    (s : S) :
    Program.execute (A := no_index op.Reply) handle (onDrivers (driver op)) s =
      handle (.driver op) s :=
  rfl

end FlowiVfs.Tree
