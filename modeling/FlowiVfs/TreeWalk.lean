import FlowiVfs.MountSections

/-!
# Walking the tree of a mount

`vfs_tree_walk_and_resolve` with what it calls: cloning a driver handle for every worker,
and loading a file as an archive into its node. `slots` is `MAX_JOB_THREADS`, the number
of slots of a row of handles.
-/
namespace FlowiVfs.Tree

/-- The clones made so far, closed again. -/
def closeClones (entry : PluginEntry) : List DriverPtr → DriverProgram Unit
  | [] => pure ()
  | handle :: rest => do
      driver (.close entry handle)
      closeClones entry rest

/-- The loop of `vfs_tree_clone_plugin_handle`, with the number of clones left to make. -/
def cloneLoop (entry : PluginEntry) (handle : DriverPtr) :
    ℕ → List DriverPtr → DriverProgram VfsHandles
  | 0, clones => pure (some handle :: clones.map some)
  | left + 1, clones => do
      let res ← if entry.plugin.hasClone then driver (.clone entry handle)
        else pure (⟨none, false, false⟩ : OpenResult)
      match res.handle with
      | none =>
          closeClones entry clones
          pure []
      | some clone => cloneLoop entry handle left (clones ++ [clone])

/-- A failed clone leaves a row of null slots, and the handle to the caller. -/
def vfsTreeClonePluginHandle (slots : ℕ) (entry : PluginEntry) (handle : DriverPtr) :
    DriverProgram VfsHandles :=
  cloneLoop entry handle (slots - 1) []

structure TreeWalkResult where
  node : Option NodePtr := none
  driver : DriverView := {}
  pathFromNode : FlString := []
  success : Bool := false

section
variable (self : VfsState) (slots : ℕ)

/-- The loop over the drivers that tries to open a file of the operating system. -/
def loadFromPath (node : NodePtr) (filePath : FlString) : List PluginEntry → VfsProgram Bool
  | [] => pure false
  | entry :: rest => do
      let openable ← onDrivers (driver (.canOpen entry filePath))
      if openable then
        let opened ← onDrivers (driver (.openPath entry none filePath 0 {}))
        match opened.handle with
        | none => loadFromPath node filePath rest
        | some handle =>
            let cloned ← onDrivers (vfsTreeClonePluginHandle slots entry handle)
            if cloned.slot 0 = none then
              onDrivers (closePluginHandle entry handle)
              loadFromPath node filePath rest
            else
              onMount (.installArchive node entry cloned none 0)
              pure true
      else loadFromPath node filePath rest

/-- The fallback: the file is read into memory. -/
def loadFromMemory (node : NodePtr) (entry : PluginEntry) (handle : Option DriverPtr)
    (path : FlString) (size : ℤ) : VfsProgram Bool := do
  let fileData ← onDrivers (driver (.malloc size))
  let readResult ← onDrivers (driver (.read entry handle path fileData size))
  if readResult.bytesRead ≠ size then
    onDrivers (driver (.free (some fileData)))
    pure false
  else
    let memory ← onDrivers (vfsTreeFindPluginForMemory self path fileData
      readResult.contents readResult.bytesRead)
    match memory with
    | none =>
        onDrivers (driver (.free (some fileData)))
        pure false
    | some memory =>
        let cloned ← onDrivers
          (vfsTreeClonePluginHandle slots memory.pluginEntry memory.handle)
        if cloned.slot 0 = none then
          onDrivers (closePluginHandle memory.pluginEntry memory.handle)
          pure false
        else
          onMount (.installArchive node memory.pluginEntry cloned (some fileData)
            readResult.bytesRead)
          pure true

def vfsTreeTryLoadAsArchive (node : NodePtr) (entry : PluginEntry) (handle : Option DriverPtr)
    (path : FlString) (size : ℤ) : VfsProgram Bool :=
  if size ≤ 0 then pure false
  else if entry.plugin.directPath ∧ entry.plugin.hasGetFilePath then do
    let filePath ← onDrivers (driver (.getFilePath entry handle path))
    if filePath = [] then loadFromMemory self slots node entry handle path size
    else
      let loaded ← loadFromPath slots node filePath self.plugins
      if loaded then pure true
      else loadFromMemory self slots node entry handle path size
  else loadFromMemory self slots node entry handle path size

/-- Where a walk is. -/
structure WalkState where
  currentNode : NodePtr
  current : DriverView
  segmentsSincePlugin : ℕ := 0

/-- The segments of `components` that the driver of the walk has to resolve, up to `stop`. -/
def pathToCheck (components : List FlString) (w : WalkState) (idx stop : ℕ) : FlString :=
  self.paths.reconstruct components (idx - w.segmentsSincePlugin) stop

/-- The walk has loaded an archive into `child` and goes on with its driver. -/
def enterArchive (child : NodePtr) (worker : ℕ) : VfsProgram WalkState := do
  let current ← onMount (.readDriver child worker)
  pure { currentNode := child, current := current }

/-- One round for a segment that names a child of the current node. -/
def walkChild (components : List FlString) (worker idx : ℕ) (w : WalkState)
    (child : ChildView) : VfsProgram WalkState :=
  match child.driver.pluginEntry with
  | some _ => pure { currentNode := child.node, current := child.driver }
  | none =>
      let behind : WalkState :=
        { w with
          currentNode := child.node
          segmentsSincePlugin := w.segmentsSincePlugin + 1 }
      match w.current.pluginEntry with
      | none => pure behind
      | some entry =>
          if child.isDirectory then pure behind
          else do
            let path := pathToCheck self components w idx (idx + 1)
            let size ← onDrivers (driver (.getSize entry w.current.handle path))
            let loaded ← vfsTreeTryLoadAsArchive self slots child.node entry w.current.handle
              path size
            if loaded then enterArchive child.node worker else pure behind

/-- `advance_to_virtual_directory` -/
def advanceToVirtualDirectory (segment : FlString) (w : WalkState) : VfsProgram WalkState := do
  let child ← onMount (.ensureChildNodeExists w.currentNode segment true)
  pure
    { w with
      currentNode := child
      segmentsSincePlugin := w.segmentsSincePlugin + 1 }

/-- One round of a listing for a segment that names no child. -/
def walkUnlisted (components : List FlString) (worker idx : ℕ) (segment : FlString)
    (entry : PluginEntry) (w : WalkState) : VfsProgram WalkState := do
  let path := pathToCheck self components w idx (idx + 1)
  let size ← onDrivers (driver (.getSize entry w.current.handle path))
  if size < 0 then advanceToVirtualDirectory segment w
  else
    let child ← onMount (.ensureChildNodeExists w.currentNode segment false)
    let loaded ← vfsTreeTryLoadAsArchive self slots child entry w.current.handle path size
    if loaded then enterArchive child worker
    else
      onMount (.markDirectory child)
      pure
        { w with
          currentNode := child
          segmentsSincePlugin := w.segmentsSincePlugin + 1 }

/-- One round of the loop. There is no state to go on with when the segment names no child
and no driver can be asked for it. -/
def walkSegment (components : List FlString) (worker : ℕ) (forListing : Bool) (idx : ℕ)
    (segment : FlString) (w : WalkState) : VfsProgram (Option WalkState) := do
  let found ← onMount (.lookChild w.currentNode segment worker)
  match found with
  | some child =>
      let w ← walkChild self slots components worker idx w child
      pure (some w)
  | none =>
      match w.current.pluginEntry with
      | none => pure none
      | some entry =>
          let w ← if forListing then walkUnlisted self slots components worker idx segment entry w
            else advanceToVirtualDirectory segment w
          pure (some w)

/-- The loop over the segments from the one at `idx` on, with the result of a failure. -/
def walkFrom (components : List FlString) (worker : ℕ) (forListing : Bool) :
    ℕ → List FlString → WalkState → VfsProgram (TreeWalkResult ⊕ WalkState)
  | _, [], w => pure (.inr w)
  | idx, segment :: rest, w => do
      let next ← walkSegment self slots components worker forListing idx segment w
      match next with
      | some w => walkFrom components worker forListing (idx + 1) rest w
      | none =>
          pure (.inl
            { node := some w.currentNode
              pathFromNode := self.paths.reconstruct components idx components.length })

/-- The path that the driver of the walk is asked for. -/
def walkPath (components : List FlString) (forListing : Bool) (w : WalkState) :
    VfsProgram FlString :=
  if forListing then
    if 0 < w.segmentsSincePlugin then
      pure (pathToCheck self components w components.length components.length)
    else pure []
  else if w.segmentsSincePlugin = 0 then
    match components.getLast? with
    | some finalFile => pure finalFile
    | none => perform .strayString
  else pure (pathToCheck self components w (components.length - 1) components.length)

def vfsTreeWalkAndResolve (path : FlString) (worker : ℕ) (forListing : Bool) :
    VfsProgram TreeWalkResult :=
  if slots ≤ worker then pure {}
  else do
    let (root, current) ← onMount (.rootDriver worker)
    if path = [] then pure { node := some root, driver := current, success := true }
    else
      let components := self.paths.components path
      let segments := if forListing then components else components.dropLast
      let walked ← walkFrom self slots components worker forListing 0 segments
        { currentNode := root, current := current }
      match walked with
      | .inl failure => pure failure
      | .inr w =>
          let pathFromNode ← walkPath self components forListing w
          pure
            { node := some w.currentNode
              driver := w.current
              pathFromNode := pathFromNode
              success := true }

end
end FlowiVfs.Tree
