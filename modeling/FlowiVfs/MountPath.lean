import FlowiVfs.Drivers

/-!
# Resolving a mount path

The functions of `vfs_tree.c` that turn the path of a mount into a driver and an open
handle: the search for the longest prefix that some driver opens, and the descent
through the remaining segments, which switches to a memory driver at each nested
archive. They are written over the driver interface, so that a run of one of them is a
conversation with arbitrary drivers.

The descent is a loop whose progress rests on the replies of drivers. It is given a
number of rounds, and ends with `none` when they run out.
-/
namespace FlowiVfs.Tree

inductive VfsResolveError
  | none
  | invalidPath
  | fileNotFound
  | invalidFileSize
  | noDriver
  | notMountable
deriving DecidableEq

/-- The `TryLoadData` of a file that was opened and read, completely or not. -/
structure LoadedData where
  handle : DriverPtr
  pathSplitOffset : ℕ
  data : BufferPtr
  contents : Bytes
  length : ℤ
  error : VfsResolveError
  loadedPath : FlString

/-- `TryLoadData`. Without an open handle only the error is set, and a directory carries
no data. -/
inductive TryLoadData
  | nothing (error : VfsResolveError)
  | directory (handle : DriverPtr) (pathSplitOffset : ℕ) (loadedPath : FlString)
  | loaded (data : LoadedData)

/-- A zeroed `DriverHandle` is `none`. -/
structure DriverHandle where
  pluginEntry : PluginEntry
  handle : DriverPtr
  pathIndex : ℕ := 0

inductive FinalDriver
  | resolved (entry : PluginEntry) (handle : DriverPtr)
  | failed (error : VfsResolveError)
deriving DecidableEq

def closePluginHandle (entry : PluginEntry) (handle : DriverPtr) : DriverProgram Unit :=
  driver (.close entry handle)

def loadDataFromPlugin (entry : PluginEntry) (handle : DriverPtr)
    (readPath loadedPath : FlString) (size : ℤ) (pathSplitOffset : ℕ) :
    DriverProgram LoadedData := do
  let fileBuffer ← driver (.malloc size)
  let readResult ← driver (.read entry (some handle) readPath fileBuffer size)
  pure {
    handle := handle
    pathSplitOffset := pathSplitOffset
    data := fileBuffer
    contents := readResult.contents
    length := readResult.bytesRead
    error := if readResult.bytesRead = size then .none else .invalidFileSize
    loadedPath := loadedPath }

section
variable (self : VfsState)

/-- The loop of `try_open_file`, with the number of segment counts left to try. -/
def tryOpenFrom (entry : PluginEntry) (rangeStart rangeEnd : ℕ) (components : List FlString) :
    ℕ → DriverProgram TryLoadData
  | 0 => pure (.nothing .fileNotFound)
  | left + 1 => do
      let trySegments := rangeEnd + (left + 1)
      let tryPath := self.paths.reconstruct components rangeEnd trySegments
      let openable ← driver (.canOpen entry tryPath)
      if openable then
        let opened ← driver (.openPath entry none tryPath 0 {})
        match opened.handle with
        | none => tryOpenFrom entry rangeStart rangeEnd components left
        | some handle =>
            let directory ← driver (.isDirectory entry handle)
            if directory ∧ trySegments = rangeStart then
              pure (.directory handle trySegments tryPath)
            else
              let size ← driver (.getSize entry (some handle) [])
              if size < 0 then
                closePluginHandle entry handle
                tryOpenFrom entry rangeStart rangeEnd components left
              else
                let data ← loadDataFromPlugin entry handle [] tryPath size trySegments
                pure (.loaded data)
      else tryOpenFrom entry rangeStart rangeEnd components left

def tryOpenFile (entry : PluginEntry) (rangeStart rangeEnd : ℕ)
    (components : List FlString) : DriverProgram TryLoadData :=
  if components.length = 0 then pure (.nothing .invalidPath)
  else tryOpenFrom self entry rangeStart rangeEnd components (rangeStart - rangeEnd)

/-- The inner loop of `vfs_tree_find_root_plugin_for_path`. -/
def openRoot (tryPath : FlString) (trySegments : ℕ) :
    List PluginEntry → DriverProgram (Option DriverHandle)
  | [] => pure none
  | entry :: rest => do
      let opened ← driver (.openPath entry none tryPath 0 {})
      match opened.handle with
      | none => openRoot tryPath trySegments rest
      | some handle => pure (some ⟨entry, handle, trySegments⟩)

/-- The outer loop, with the number of segment counts left to try. -/
def findRootFrom (components : List FlString) (start : ℕ) :
    ℕ → DriverProgram (Option DriverHandle)
  | 0 => pure none
  | left + 1 => do
      let trySegments := start + (left + 1)
      let tryPath := self.paths.reconstruct components start trySegments
      let found ← openRoot tryPath trySegments self.plugins
      match found with
      | none => findRootFrom components start left
      | some root => pure (some root)

def vfsTreeFindRootPluginForPath (components : List FlString) (start : ℕ) :
    DriverProgram (Option DriverHandle) :=
  findRootFrom self components start (components.length - start)

/-- The loop of `vfs_tree_find_plugin_for_memory`. -/
def openMemoryWith (path : FlString) (data : BufferPtr) (contents : Bytes) (size : ℤ) :
    List PluginEntry → DriverProgram (Option DriverHandle)
  | [] => pure none
  | entry :: rest =>
      if ¬ entry.plugin.memory ∨ ¬ entry.plugin.hasOpenMemory then
        openMemoryWith path data contents size rest
      else do
        let opened ← driver (.openMemory entry data contents size path)
        match opened.handle with
        | some handle => pure (some { pluginEntry := entry, handle := handle })
        | none =>
            if opened.archiveCorrupt then pure none
            else openMemoryWith path data contents size rest

def vfsTreeFindPluginForMemory (path : FlString) (data : BufferPtr) (contents : Bytes)
    (size : ℤ) : DriverProgram (Option DriverHandle) :=
  openMemoryWith path data contents size self.plugins

/-- The check behind the loop: the final result is a directory or an archive. -/
def verifyContainer (entry : PluginEntry) (handle : DriverPtr) :
    DriverProgram FinalDriver := do
  let directory ← driver (.isDirectory entry handle)
  if directory then pure (.resolved entry handle)
  else
    closePluginHandle entry handle
    pure (.failed .notMountable)

/-- The loop of `vfs_tree_resolve_full_path`. -/
def descend (components : List FlString) :
    ℕ → PluginEntry → DriverPtr → ℕ → DriverProgram (Option FinalDriver)
  | 0, _, _, _ => pure none
  | rounds + 1, entry, handle, pos =>
      if pos < components.length then do
        let data ← tryOpenFile self entry components.length pos components
        match data with
        | .nothing error =>
            driver (.free none)
            closePluginHandle entry handle
            pure (some (.failed error))
        | .directory opened _ _ =>
            closePluginHandle entry handle
            pure (some (.resolved entry opened))
        | .loaded data =>
            if data.error ≠ .none then
              closePluginHandle entry data.handle
              driver (.free (some data.data))
              closePluginHandle entry handle
              pure (some (.failed data.error))
            else
              let memory ← vfsTreeFindPluginForMemory self data.loadedPath data.data
                data.contents data.length
              closePluginHandle entry data.handle
              closePluginHandle entry handle
              match memory with
              | none =>
                  driver (.free (some data.data))
                  pure (some (.failed .notMountable))
              | some inner =>
                  descend components rounds inner.pluginEntry inner.handle data.pathSplitOffset
      else do
        let final ← verifyContainer entry handle
        pure (some final)

/-- The case of a root handle that is a file and has consumed the whole path: what it
holds is opened by a memory driver, which replaces it. -/
def enterRootFile (components : List FlString) (entry : PluginEntry) (handle : DriverPtr) :
    DriverProgram (VfsResolveError ⊕ DriverHandle) := do
  let size ← driver (.getSize entry (some handle) [])
  if size < 0 then
    closePluginHandle entry handle
    pure (.inl .invalidFileSize)
  else
    let loadedPath := self.paths.reconstruct components 0 components.length
    let data ← loadDataFromPlugin entry handle [] loadedPath size components.length
    if data.error ≠ .none then
      driver (.free (some data.data))
      closePluginHandle entry handle
      pure (.inl data.error)
    else
      let memory ← vfsTreeFindPluginForMemory self data.loadedPath data.data data.contents
        data.length
      match memory with
      | none =>
          driver (.free (some data.data))
          closePluginHandle entry handle
          pure (.inl .notMountable)
      | some inner =>
          closePluginHandle entry handle
          pure (.inr inner)

def vfsTreeResolveFullPath (rounds : ℕ) (rootEntry : PluginEntry) (rootHandle : DriverPtr)
    (components : List FlString) (pathStart : ℕ) : DriverProgram (Option FinalDriver) :=
  if components.length ≤ pathStart then do
    let directory ← driver (.isDirectory rootEntry rootHandle)
    if directory then descend self components rounds rootEntry rootHandle pathStart
    else
      let entered ← enterRootFile self components rootEntry rootHandle
      match entered with
      | .inl error => pure (some (.failed error))
      | .inr inner => descend self components rounds inner.pluginEntry inner.handle pathStart
  else descend self components rounds rootEntry rootHandle pathStart

def vfsTreeMountPath (rounds : ℕ) (path : FlString) : DriverProgram (Option FinalDriver) := do
  let components := self.paths.components path
  let root ← vfsTreeFindRootPluginForPath self components 0
  match root with
  | none => pure (some (.failed .noDriver))
  | some root =>
      vfsTreeResolveFullPath self rounds root.pluginEntry root.handle components root.pathIndex

end
end FlowiVfs.Tree
