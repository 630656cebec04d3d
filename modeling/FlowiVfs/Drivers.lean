import FlowiVfs.ProgramLogic
import Mathlib.Data.Int.Notation

/-!
# The driver interface

The operations the virtual file system performs on its drivers, and on the buffers it
hands to them. A driver is foreign code: nothing is said here about its replies, and
each development below chooses the environment that answers them.

A plugin entry carries what the code reads from the plugin itself: its name, two of
its capability flags, and which of its optional functions exist.
-/
namespace FlowiVfs.Tree

abbrev FlString := List Char

abbrev Bytes := List UInt8

/-- A driver handle, the `void*` that a driver returned. A null pointer is `none`. -/
abbrev DriverPtr := ℕ

/-- The identity of one allocation. -/
abbrev BufferPtr := ℕ

/-- `FlVfsPlugin`: what is fixed when the driver is registered. -/
structure Plugin where
  name : FlString
  /-- `FlVfsDriverCapabilities_Memory` -/
  memory : Bool := false
  /-- `FlVfsDriverCapabilities_DirectPath` -/
  directPath : Bool := false
  hasOpenMemory : Bool := false
  hasClone : Bool := true
  hasGetFilePath : Bool := false
  hasListDirectory : Bool := true
deriving DecidableEq

/-- `VfsPluginEntry`: a registered plugin with its instance, named by a number. -/
structure PluginEntry where
  id : ℕ
  plugin : Plugin
deriving DecidableEq

structure MountOptions where
  cacheDir : FlString := []
  cacheValidation : Bool := false
  enableFileWatching : Bool := false
deriving DecidableEq

structure OpenResult where
  handle : Option DriverPtr
  isDirectory : Bool := false
  /-- `error.vfs_status == FlVfsStatus_ArchiveCorrupt` -/
  archiveCorrupt : Bool := false
deriving DecidableEq

/-- The number of bytes read, and what the buffer holds after the call. -/
structure ReadResult where
  bytesRead : ℤ
  contents : Bytes
deriving DecidableEq

/-- `FlVfsEntry` -/
structure Entry where
  name : FlString
  size : ℤ
  attributes : ℕ := 0
  isDirectory : Bool
  isArchive : Bool := false
deriving DecidableEq

inductive DriverOp
  | canOpen (entry : PluginEntry) (path : FlString)
  | openPath (entry : PluginEntry) (parent : Option DriverPtr) (path : FlString) (flags : ℕ)
      (options : MountOptions)
  | isDirectory (entry : PluginEntry) (handle : DriverPtr)
  | getSize (entry : PluginEntry) (handle : Option DriverPtr) (path : FlString)
  | read (entry : PluginEntry) (handle : Option DriverPtr) (path : FlString)
      (buffer : BufferPtr) (size : ℤ)
  | listDirectory (entry : PluginEntry) (handle : Option DriverPtr) (path : FlString)
  | clone (entry : PluginEntry) (handle : DriverPtr)
  | close (entry : PluginEntry) (handle : DriverPtr)
  | openMemory (entry : PluginEntry) (buffer : BufferPtr) (contents : Bytes) (size : ℤ)
      (path : FlString)
  | getFilePath (entry : PluginEntry) (handle : Option DriverPtr) (path : FlString)
  /-- `mi_malloc` -/
  | malloc (size : ℤ)
  /-- `mi_free`, which ignores a null pointer -/
  | free (buffer : Option BufferPtr)

/-- `listDirectory` replies with the entries it reports in order, the callback being
free to stop looking at them. -/
abbrev DriverOp.Reply : DriverOp → Type
  | canOpen .. => Bool
  | openPath .. => OpenResult
  | isDirectory .. => Bool
  | getSize .. => ℤ
  | read .. => ReadResult
  | listDirectory .. => List Entry
  | clone .. => OpenResult
  | close .. => Unit
  | openMemory .. => OpenResult
  | getFilePath .. => FlString
  | malloc .. => BufferPtr
  | free .. => Unit

abbrev drivers : Signature := ⟨DriverOp, DriverOp.Reply⟩

abbrev DriverProgram := Program drivers

/-- The operation as a program. -/
def driver (op : DriverOp) : DriverProgram op.Reply := Program.call (E := drivers) op

@[simp] theorem run_driver {S : Type} {env : Environment drivers S} {op : DriverOp}
    {s t : S} {r : op.Reply} :
    Program.Run (A := no_index op.Reply) env (driver op) s r t ↔ env s op r t :=
  Program.run_call

@[simp] theorem execute_driver {S : Type} (handle : Program.Handler drivers S) (op : DriverOp)
    (s : S) : Program.execute (A := no_index op.Reply) handle (driver op) s = handle op s :=
  rfl

/-- `core/path.h`, which is not part of the repository. -/
structure PathLibrary where
  /-- `path_components` -/
  components : FlString → List FlString
  /-- `path_reconstruct_from_segments` -/
  reconstruct : List FlString → ℕ → ℕ → FlString

/-- A path library for paths of single letters, which small examples use. -/
def letters : PathLibrary where
  components path := path.map fun c => [c]
  reconstruct components start stop := ((components.take stop).drop start).flatten

/-- `VfsState`, as far as path resolution reads it. -/
structure VfsState where
  /-- The list from `plugin_first` on. -/
  plugins : List PluginEntry
  paths : PathLibrary

end FlowiVfs.Tree
