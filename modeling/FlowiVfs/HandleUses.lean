import FlowiVfs.ArchiveOwnership
import FlowiVfs.OwnedNames
import FlowiVfs.ReadContents

/-!
# The driver handles that an operation uses

An operation owns the handles that drivers open for it, until it closes them or puts them
into a node; the handles that it copies from nodes are lent to it. Every operation closes
and gives away only what it owns, uses nothing else but what it was lent, and ends with the
handle of the file that it returns and no other: this is checked against its text, whatever
drivers and sections reply.
-/
namespace FlowiVfs.Tree

open Program

/-! ## Handles in operations -/

/-- The handle of a driver, unless it is null. -/
def handleOf (entry : PluginEntry) (handle : Option DriverPtr) : List OpenHandle :=
  handlesOf entry handle.toList

def DriverView.handles (view : DriverView) : List OpenHandle :=
  match view.pluginEntry with
  | none => []
  | some entry => handleOf entry view.handle

/-- The handles that are passed to a function of a driver. -/
def VfsOp.uses : VfsOp → List OpenHandle
  | .driver (.openPath entry parent _ _ _) => handleOf entry parent
  | .driver (.isDirectory entry handle) => handleOf entry (some handle)
  | .driver (.getSize entry handle _) => handleOf entry handle
  | .driver (.read entry handle _ _ _) => handleOf entry handle
  | .driver (.listDirectory entry handle _) => handleOf entry handle
  | .driver (.clone entry handle) => handleOf entry (some handle)
  | .driver (.close entry handle) => handleOf entry (some handle)
  | .driver (.getFilePath entry handle _) => handleOf entry handle
  | .readFile entry handle _ _ => handleOf entry (some handle)
  | _ => []

/-- The handles that are closed, or put into a node. -/
def VfsOp.takes : VfsOp → List OpenHandle
  | .driver (.close entry handle) => handleOf entry (some handle)
  | .mount (.installArchive _ entry handles _ _) => handlesOf entry handles.reduceOption
  | _ => []

/-- The handles that a driver has opened. -/
def VfsOp.makes : (op : VfsOp) → op.Reply → List OpenHandle
  | .driver (.openPath entry _ _ _ _), r => handleOf entry r.handle
  | .driver (.clone entry _), r => handleOf entry r.handle
  | .driver (.openMemory entry _ _ _ _), r => handleOf entry r.handle
  | _, _ => []

/-- The handles that are copied from a node. -/
def VfsOp.lends : (op : VfsOp) → op.Reply → List OpenHandle
  | .mount (.rootDriver _), r => r.2.handles
  | .mount (.lookChild ..), found => found.toList.flatMap fun child => child.driver.handles
  | .mount (.readDriver ..), view => view.handles
  | _, _ => []

/-- A section of the mount operation, which comes before all others. -/
def VfsOp.storesRoot : VfsOp → Bool
  | .mount (.storeRoot ..) => true
  | .mount .clearRoot => true
  | _ => false

def driverHandles : Lending vfs OpenHandle where
  may op := op.storesRoot = false
  uses op := {h | h ∈ op.uses}
  takes op := op.takes
  makes op r := op.makes r
  lends op r := {h | h ∈ op.lends r}

/-- The handle was lent. -/
def Lent (K : Set OpenHandle) (entry : PluginEntry) (handle : Option DriverPtr) : Prop :=
  ∀ h ∈ handleOf entry handle, h ∈ K

section
variable {K K' : Set OpenHandle} {O : Multiset OpenHandle} {entry : PluginEntry}
variable {handle : DriverPtr} {parent : Option DriverPtr}

theorem Lent.mono (h : Lent K entry parent) (sub : K ⊆ K') : Lent K' entry parent :=
  fun x hx => sub (h x hx)

theorem lent_none : Lent K entry none := List.forall_mem_nil _

theorem DriverView.lent {view : DriverView} (known : ∀ h ∈ view.handles, h ∈ K)
    (plugin : view.pluginEntry = some entry) : Lent K entry view.handle := by
  rw [DriverView.handles, plugin] at known
  exact known

/-! ## Calls of drivers -/

/-- An operation that neither takes nor makes handles. -/
theorem owns_perform {op : VfsOp} (may : op.storesRoot = false)
    (uses : ∀ h ∈ op.uses, h ∈ O ∨ h ∈ K) (kept : op.takes = [])
    (unmade : ∀ r, op.makes r = []) :
    Owns driverHandles (fun O' K' r => O' = O ∧ ∀ h ∈ op.lends r, h ∈ K') O K (perform op) :=
  owns_call may uses (congrArg Multiset.ofList kept) fun r => congrArg Multiset.ofList (unmade r)

/-- A call that neither opens nor closes. -/
theorem owns_asks {op : DriverOp} (uses : ∀ h ∈ VfsOp.uses (.driver op), h ∈ O ∨ h ∈ K)
    (kept : VfsOp.takes (.driver op) = []) (unmade : ∀ r, VfsOp.makes (.driver op) r = []) :
    Owns driverHandles (fun O' _ _ => O' = O) O K (onDrivers (driver op)) :=
  (owns_perform rfl uses kept unmade).weaken fun _ _ _ _ h => h.1

theorem owns_getSize (path : FlString) (lent : Lent K entry parent) :
    Owns driverHandles (fun O' _ _ => O' = O) O K
      (onDrivers (driver (.getSize entry parent path))) :=
  owns_asks (fun h hh => .inr (lent h hh)) rfl fun _ => rfl

theorem owns_openPath (path : FlString) (flags : ℕ) (options : MountOptions)
    (lent : Lent K entry parent) :
    Owns driverHandles (fun O' _ r => O' = (handleOf entry r.handle : Multiset OpenHandle) + O) O K
      (onDrivers (driver (.openPath entry parent path flags options))) :=
  ⟨rfl, fun h hh => .inr (lent h hh), O, (Multiset.zero_add O).symm, fun _ => rfl⟩

theorem owns_close :
    Owns driverHandles (fun O' _ _ => O' = O) ({⟨entry.id, handle⟩} + O) K
      (onDrivers (closePluginHandle entry handle)) := by
  refine ⟨rfl, fun h hh => .inl ?_, O, rfl, fun _ => Multiset.zero_add O⟩
  cases List.mem_singleton.mp hh
  exact Multiset.mem_add.mpr (.inl (Multiset.mem_singleton_self _))

/-- Sections that put no handle into a node. -/
theorem owns_section {op : MountSection} (may : VfsOp.storesRoot (.mount op) = false)
    (kept : VfsOp.takes (.mount op) = []) :
    Owns driverHandles (fun O' K' r => O' = O ∧ ∀ h ∈ VfsOp.lends (.mount op) r, h ∈ K') O K
      (onMount op) :=
  owns_perform may (List.forall_mem_nil _) kept fun _ => rfl

/-- Calls that have nothing to do with handles. -/
theorem owns_aloof {op : VfsOp} (may : op.storesRoot = false) (unused : op.uses = [])
    (kept : op.takes = []) (unmade : ∀ r, op.makes r = []) :
    Owns driverHandles (fun O' _ _ => O' = O) O K (perform op) :=
  (owns_perform may (unused ▸ List.forall_mem_nil _) kept unmade).weaken fun _ _ _ _ h => h.1

/-! ## Clones -/

theorem closeClones_owns (clones : List DriverPtr) :
    Owns driverHandles (fun O' _ _ => O' = O)
      ((handlesOf entry clones : Multiset OpenHandle) + O) K
      (onDrivers (closeClones entry clones)) := by
  induction clones generalizing K with
  | nil => exact Multiset.zero_add O
  | cons c rest ih =>
      have first : ((handlesOf entry (c :: rest) : Multiset OpenHandle) + O) =
          {⟨entry.id, c⟩} + ((handlesOf entry rest : Multiset OpenHandle) + O) := by
        rw [← Multiset.add_assoc]
        rfl
      rw [first, closeClones, onDrivers_bind]
      refine owns_close.bind ?_
      intro O₁ K₁ _ _ he
      subst he
      exact ih

/-- A row of slots holds the handle and its clones, which are owned, or nothing. -/
def FillsRow (entry : PluginEntry) (handle : DriverPtr) (O O' : Multiset OpenHandle)
    (row : VfsHandles) : Prop :=
  row = [] ∧ O' = O ∨
    ∃ new, row = some handle :: new.map some ∧
      O' = (handlesOf entry new : Multiset OpenHandle) + O

theorem cloneLoop_owns (source : ⟨entry.id, handle⟩ ∈ O) (left : ℕ)
    (clones : List DriverPtr) :
    Owns driverHandles (fun O' _ row => FillsRow entry handle O O' row)
      ((handlesOf entry clones : Multiset OpenHandle) + O) K
      (onDrivers (cloneLoop entry handle left clones)) := by
  induction left generalizing clones K with
  | zero => exact .inr ⟨clones, rfl, rfl⟩
  | succ left ih =>
      have gives_up : ∀ {K : Set OpenHandle},
          Owns driverHandles (fun O' _ row => FillsRow entry handle O O' row)
          ((handlesOf entry clones : Multiset OpenHandle) + O) K
          (onDrivers (do
            closeClones entry clones
            pure ([] : VfsHandles))) := by
        intro K
        rw [onDrivers_bind]
        apply (closeClones_owns clones).bind
        exact fun _ _ _ _ he => .inl ⟨rfl, he⟩
      unfold cloneLoop
      cases entry.plugin.hasClone with
      | false => exact gives_up
      | true =>
          refine ⟨rfl, fun h hh => .inl ?_, _, (Multiset.zero_add _).symm, fun res => ?_⟩
          · cases List.mem_singleton.mp hh
            exact Multiset.mem_add.mpr (.inr source)
          · obtain ⟨clone, isDirectory, corrupt⟩ := res
            cases clone with
            | none =>
                show Owns _ _ (0 + _) _ _
                rw [Multiset.zero_add]
                exact gives_up
            | some clone =>
                have more : ({⟨entry.id, clone⟩} : Multiset OpenHandle) +
                    ((handlesOf entry clones : Multiset OpenHandle) + O) =
                    (handlesOf entry (clones ++ [clone]) : Multiset OpenHandle) + O := by
                  rw [← Multiset.add_assoc, Multiset.add_comm {_}, handlesOf, handlesOf,
                    List.map_append, ← Multiset.coe_add]
                  rfl
                exact more ▸ ih (clones ++ [clone])

theorem clonePluginHandle_owns (slots : ℕ) (source : ⟨entry.id, handle⟩ ∈ O) :
    Owns driverHandles (fun O' _ row => FillsRow entry handle O O' row) O K
      (onDrivers (vfsTreeClonePluginHandle slots entry handle)) := by
  have start := cloneLoop_owns source (K := K) (slots - 1) []
  rwa [show (handlesOf entry [] : Multiset OpenHandle) + O = O from Multiset.zero_add O] at start

end

/-! ## Loading an archive into a node -/

section
variable (self : VfsState) (slots : ℕ) {K : Set OpenHandle} {O : Multiset OpenHandle}
variable {entry : PluginEntry} {handle : DriverPtr} {parent : Option DriverPtr}

theorem row_filled (new : List DriverPtr) :
    ¬ VfsHandles.slot (some handle :: new.map some) 0 = none := by
  intro e
  cases e

/-- The swap of a driver whose clones were made. -/
theorem swap_owns {node : NodePtr} {new : List DriverPtr} {memoryData : Option BufferPtr}
    {memorySize : ℤ} :
    Owns driverHandles (fun O' _ _ => O' = O)
      ((handlesOf entry new : Multiset OpenHandle) + ({⟨entry.id, handle⟩} + O)) K (do
        onMount (.installArchive node entry (some handle :: new.map some) memoryData memorySize)
        pure true) := by
  have row : (some handle :: new.map some).reduceOption = handle :: new := by
    rw [List.reduceOption_cons_of_some]
    simp [List.reduceOption]
  refine ⟨rfl, List.forall_mem_nil _, O, ?_, fun _ => Multiset.zero_add O⟩
  show _ = (handlesOf entry (some handle :: new.map some).reduceOption : Multiset OpenHandle) + O
  rw [row, ← Multiset.add_assoc, Multiset.add_comm (handlesOf entry new : Multiset OpenHandle)]
  rfl

theorem loadFromPath_owns (node : NodePtr) (filePath : FlString) (plugins : List PluginEntry) :
    Owns driverHandles (fun O' _ _ => O' = O) O K (loadFromPath slots node filePath plugins) := by
  induction plugins generalizing K with
  | nil => rfl
  | cons entry rest ih =>
      apply (owns_asks (List.forall_mem_nil _) rfl fun _ => rfl).bind
      rintro O₁ K₁ openable _ rfl
      apply Owns.ite _ ih
      apply (owns_openPath filePath 0 {} lent_none).bind
      rintro O₂ K₂ opened _ rfl
      cases opened.handle with
      | none =>
          rw [show (handleOf entry none : Multiset OpenHandle) + O₁ = O₁ from
            Multiset.zero_add O₁]
          exact ih
      | some handle =>
          have source : (⟨entry.id, handle⟩ : OpenHandle) ∈
              (handleOf entry (some handle) : Multiset OpenHandle) + O₁ :=
            Multiset.mem_add.mpr (.inl (Multiset.mem_singleton_self _))
          apply (clonePluginHandle_owns slots source).bind
          rintro O₃ K₃ cloned _ (⟨rfl, rfl⟩ | ⟨new, rfl, rfl⟩)
          · rw [if_pos (show VfsHandles.slot [] 0 = none from rfl)]
            apply owns_close.bind
            rintro O₄ K₄ _ _ rfl
            exact ih
          · rw [if_neg (row_filled new)]
            exact swap_owns

/-- What a driver has opened in memory is owned. -/
theorem openMemoryWith_owns (path : FlString) (data : BufferPtr) (contents : Bytes) (size : ℤ)
    (plugins : List PluginEntry) :
    Owns driverHandles (fun O' _ found => match found with
        | none => O' = O
        | some memory => O' = {⟨memory.pluginEntry.id, memory.handle⟩} + O) O K
      (onDrivers (openMemoryWith path data contents size plugins)) := by
  induction plugins generalizing K with
  | nil => rfl
  | cons entry rest ih =>
      unfold openMemoryWith
      split_ifs
      · exact ih
      refine ⟨rfl, List.forall_mem_nil _, O, (Multiset.zero_add O).symm, fun opened => ?_⟩
      obtain ⟨handle, isDirectory, corrupt⟩ := opened
      cases handle with
      | some handle => exact rfl
      | none =>
          show Owns _ _ (0 + O) _ _
          rw [Multiset.zero_add]
          cases corrupt with
          | true => exact rfl
          | false => exact ih

theorem loadFromMemory_owns (node : NodePtr) (path : FlString) (size : ℤ)
    (lent : Lent K entry parent) :
    Owns driverHandles (fun O' _ _ => O' = O) O K
      (loadFromMemory self slots node entry parent path size) := by
  have freed : ∀ {K : Set OpenHandle} (data : BufferPtr),
      Owns driverHandles (fun O' _ _ => O' = O) O K (do
        onDrivers (driver (.free (some data)))
        pure false) := by
    intro K data
    apply (owns_asks (List.forall_mem_nil _) rfl fun _ => rfl).bind
    exact fun _ _ _ _ same => same
  apply (owns_asks (List.forall_mem_nil _) rfl fun _ => rfl).bind
  rintro O₁ K₁ fileData sub₁ rfl
  refine .bind (owns_asks (fun h hh => .inr (lent.mono sub₁ h hh)) rfl fun _ => rfl) ?_
  rintro O₂ K₂ readResult _ rfl
  apply Owns.ite (freed fileData)
  apply (openMemoryWith_owns path fileData _ _ self.plugins).bind
  intro O₃ K₃ memory _ found
  cases memory with
  | none =>
      cases found
      exact freed fileData
  | some memory =>
      cases found
      have source : (⟨memory.pluginEntry.id, memory.handle⟩ : OpenHandle) ∈
          ({⟨memory.pluginEntry.id, memory.handle⟩} : Multiset OpenHandle) + O₂ :=
        Multiset.mem_add.mpr (.inl (Multiset.mem_singleton_self _))
      apply (clonePluginHandle_owns slots source).bind
      rintro O₄ K₄ cloned _ (⟨rfl, rfl⟩ | ⟨new, rfl, rfl⟩)
      · rw [if_pos (show VfsHandles.slot [] 0 = none from rfl)]
        exact owns_close.bind fun _ _ _ _ same => same
      · rw [if_neg (row_filled new)]
        exact swap_owns

theorem tryLoadAsArchive_owns (node : NodePtr) (path : FlString) (size : ℤ)
    (lent : Lent K entry parent) :
    Owns driverHandles (fun O' _ _ => O' = O) O K
      (vfsTreeTryLoadAsArchive self slots node entry parent path size) := by
  unfold vfsTreeTryLoadAsArchive
  apply Owns.ite
  · rfl
  apply Owns.ite _ (loadFromMemory_owns self slots node path size lent)
  refine .bind (owns_asks (fun h hh => .inr (lent h hh)) rfl fun _ => rfl) ?_
  rintro O₁ K₁ filePath sub₁ rfl
  apply Owns.ite (loadFromMemory_owns self slots node path size (lent.mono sub₁))
  apply (loadFromPath_owns slots node filePath self.plugins).bind
  rintro O₂ K₂ loaded sub₂ rfl
  apply Owns.ite
  · rfl
  · exact loadFromMemory_owns self slots node path size ((lent.mono sub₁).mono sub₂)

/-! ## Walks -/

/-- The driver of the walk was lent to it. -/
def OnLoan (K : Set OpenHandle) (w : WalkState) : Prop := ∀ h ∈ w.current.handles, h ∈ K

theorem enterArchive_owns (child : NodePtr) (worker : ℕ) :
    Owns driverHandles (fun O' K' w => O' = O ∧ OnLoan K' w) O K (enterArchive child worker) := by
  refine .bind (owns_section rfl rfl) ?_
  exact fun _ _ _ _ lent => lent

theorem walkChild_owns (components : List FlString) (worker idx : ℕ) {w : WalkState}
    {child : ChildView} (loan : OnLoan K w) (known : ∀ h ∈ child.driver.handles, h ∈ K) :
    Owns driverHandles (fun O' K' w => O' = O ∧ OnLoan K' w) O K
      (walkChild self slots components worker idx w child) := by
  unfold walkChild
  cases child.driver.pluginEntry with
  | some _ => exact ⟨rfl, known⟩
  | none =>
      cases plugin : w.current.pluginEntry with
      | none => exact ⟨rfl, loan⟩
      | some entry =>
          have lent := DriverView.lent loan plugin
          apply Owns.ite
          · exact ⟨rfl, loan⟩
          apply (owns_getSize _ lent).bind
          rintro O₁ K₁ size sub₁ rfl
          apply (tryLoadAsArchive_owns self slots child.node _ size (lent.mono sub₁)).bind
          rintro O₂ K₂ loaded sub₂ rfl
          apply Owns.ite
          · exact enterArchive_owns child.node worker
          · exact ⟨rfl, fun h hh => sub₂ (sub₁ (loan h hh))⟩

theorem advance_owns (segment : FlString) {w : WalkState} (loan : OnLoan K w) :
    Owns driverHandles (fun O' K' w => O' = O ∧ OnLoan K' w) O K
      (advanceToVirtualDirectory segment w) := by
  refine .bind (owns_section rfl rfl) ?_
  rintro O₁ K₁ child sub₁ ⟨rfl, -⟩
  exact ⟨rfl, fun h hh => sub₁ (loan h hh)⟩

theorem walkUnlisted_owns (components : List FlString) (worker idx : ℕ) (segment : FlString)
    {w : WalkState} (loan : OnLoan K w) (plugin : w.current.pluginEntry = some entry) :
    Owns driverHandles (fun O' K' w => O' = O ∧ OnLoan K' w) O K
      (walkUnlisted self slots components worker idx segment entry w) := by
  have lent := DriverView.lent loan plugin
  apply (owns_getSize _ lent).bind
  rintro O₁ K₁ size sub₁ rfl
  have loan₁ : OnLoan K₁ w := fun h hh => sub₁ (loan h hh)
  apply Owns.ite (advance_owns segment loan₁)
  refine .bind (owns_section rfl rfl) ?_
  rintro O₂ K₂ child sub₂ ⟨rfl, -⟩
  apply (tryLoadAsArchive_owns self slots child _ size ((lent.mono sub₁).mono sub₂)).bind
  rintro O₃ K₃ loaded sub₃ rfl
  apply Owns.ite (enterArchive_owns child worker)
  refine .bind (owns_section rfl rfl) ?_
  rintro O₄ K₄ _ sub₄ ⟨rfl, -⟩
  exact ⟨rfl, fun h hh => sub₄ (sub₃ (sub₂ (loan₁ h hh)))⟩

theorem walkSegment_owns (components : List FlString) (worker : ℕ) (forListing : Bool)
    (idx : ℕ) (segment : FlString) {w : WalkState} (loan : OnLoan K w) :
    Owns driverHandles (fun O' K' next => O' = O ∧ ∀ w ∈ next, OnLoan K' w) O K
      (walkSegment self slots components worker forListing idx segment w) := by
  have found : ∀ {K' : Set OpenHandle} {w' : WalkState}, OnLoan K' w' →
      ∀ w ∈ some w', OnLoan K' w := fun h w hw => Option.some.inj hw ▸ h
  refine .bind (owns_section rfl rfl) ?_
  rintro O₁ K₁ child sub₁ ⟨rfl, lent⟩
  have loan₁ : OnLoan K₁ w := fun h hh => sub₁ (loan h hh)
  cases child with
  | some child =>
      have known : ∀ h ∈ child.driver.handles, h ∈ K₁ := fun h hh =>
        lent h (List.mem_flatMap.mpr ⟨child, List.mem_cons_self, hh⟩)
      apply (walkChild_owns self slots components worker idx loan₁ known).bind
      exact fun _ _ w' _ walked => ⟨walked.1, found walked.2⟩
  | none =>
      cases plugin : w.current.pluginEntry with
      | none => exact ⟨rfl, fun w hw => nomatch hw⟩
      | some entry =>
          cases forListing with
          | true =>
              apply (walkUnlisted_owns self slots components worker idx segment loan₁
                plugin).bind
              exact fun _ _ w' _ walked => ⟨walked.1, found walked.2⟩
          | false =>
              apply (advance_owns segment loan₁).bind
              exact fun _ _ w' _ walked => ⟨walked.1, found walked.2⟩

theorem walkFrom_owns (components : List FlString) (worker : ℕ) (forListing : Bool)
    (segments : List FlString) (idx : ℕ) {w : WalkState} (loan : OnLoan K w) :
    Owns driverHandles (fun O' K' walked => O' = O ∧ match walked with
        | .inl failure => ∀ h ∈ failure.driver.handles, h ∈ K'
        | .inr w => OnLoan K' w) O K
      (walkFrom self slots components worker forListing idx segments w) := by
  induction segments generalizing idx w K with
  | nil => exact ⟨rfl, loan⟩
  | cons segment rest ih =>
      apply (walkSegment_owns self slots components worker forListing idx segment loan).bind
      rintro O₁ K₁ next _ ⟨rfl, hnext⟩
      cases next with
      | none => exact ⟨rfl, List.forall_mem_nil _⟩
      | some w' => exact ih (idx + 1) (hnext w' rfl)

theorem walkPath_owns (components : List FlString) (forListing : Bool) (w : WalkState) :
    Owns driverHandles (fun O' _ _ => O' = O) O K (walkPath self components forListing w) := by
  unfold walkPath
  refine .ite (.ite rfl rfl) (.ite ?_ rfl)
  cases components.getLast? with
  | some finalFile => exact rfl
  | none => exact owns_aloof rfl rfl rfl fun _ => rfl

/-- The handle that a walk returns is lent by the node it was copied from. -/
theorem walk_owns (path : FlString) (worker : ℕ) (forListing : Bool) :
    Owns driverHandles (fun O' K' result => O' = O ∧ ∀ h ∈ result.driver.handles, h ∈ K') O K
      (vfsTreeWalkAndResolve self slots path worker forListing) := by
  apply Owns.ite
  · exact ⟨rfl, List.forall_mem_nil _⟩
  refine .bind (owns_section rfl rfl) ?_
  rintro O₁ K₁ ⟨root, current⟩ _ ⟨rfl, lent⟩
  apply Owns.ite
  · exact ⟨rfl, lent⟩
  have loan : OnLoan K₁ { currentNode := root, current := current } := lent
  apply (walkFrom_owns self slots _ worker forListing _ 0 loan).bind
  rintro O₂ K₂ walked _ ⟨rfl, hwalked⟩
  cases walked with
  | inl failure => exact ⟨rfl, hwalked⟩
  | inr w =>
      apply (walkPath_owns self _ forListing w).bind
      rintro O₃ K₃ pathFromNode sub₃ rfl
      exact ⟨rfl, fun h hh => sub₃ (hwalked h hh)⟩

/-! ## Reads -/

/-- The handle of a file that was opened. -/
def OpenOutcome.handles : OpenOutcome → List OpenHandle
  | .failed _ => []
  | .opened entry _ handle => [⟨entry.id, handle⟩]

/-- The handle of the driver that it was opened from. -/
def OpenOutcome.borrows : OpenOutcome → List OpenHandle
  | .failed _ => []
  | .opened entry pluginHandle _ => handleOf entry pluginHandle

/-- A file that was opened is owned, and was opened from a handle of a node. -/
theorem vfsOpFileOpen_owns (path : FlString) (flags worker : ℕ) :
    Owns driverHandles
      (fun O' K' opened => O' = (opened.handles : Multiset OpenHandle) + O ∧
        ∀ h ∈ opened.borrows, h ∈ K') O K
      (vfsOpFileOpen self slots path flags worker) := by
  have fails : ∀ {K : Set OpenHandle} (status : VfsOpStatus),
      Owns driverHandles (fun O' K' (opened : OpenOutcome) =>
        O' = (opened.handles : Multiset OpenHandle) + O ∧ ∀ h ∈ opened.borrows, h ∈ K') O K
        (.done (.failed status)) :=
    fun _ => ⟨(Multiset.zero_add O).symm, List.forall_mem_nil _⟩
  refine .bind (owns_section rfl rfl) ?_
  rintro O₁ K₁ ⟨root, current⟩ _ ⟨rfl, -⟩
  apply Owns.ite (fails _)
  apply (walk_owns self slots path worker false).bind
  rintro O₂ K₂ walk _ ⟨rfl, known⟩
  split
  · rename_i entry _ plugin
    have lent := DriverView.lent known plugin
    refine .bind (owns_section rfl rfl) ?_
    rintro O₃ K₃ options sub₃ ⟨rfl, -⟩
    apply (owns_openPath walk.pathFromNode flags options (lent.mono sub₃)).bind
    rintro O₄ K₄ opened sub₄ rfl
    cases opened.handle with
    | none =>
        rw [show (handleOf entry none : Multiset OpenHandle) + O₃ = O₃ from
          Multiset.zero_add O₃]
        exact fails _
    | some handle => exact ⟨rfl, fun h hh => sub₄ (sub₃ (lent h hh))⟩
  · exact fails _

end

section
variable {K : Set OpenHandle} {O : Multiset OpenHandle} {path : FlString} {entry : PluginEntry}
variable {handle : DriverPtr} {A : Type}

theorem owns_readFile (target : ReadTarget) (size : ℤ) :
    Owns driverHandles (fun O' _ _ => O' = {⟨entry.id, handle⟩} + O) ({⟨entry.id, handle⟩} + O) K
      (perform (.readFile entry handle target size)) := by
  refine ⟨rfl, fun h hh => .inl ?_, _, (Multiset.zero_add _).symm,
    fun _ => Multiset.zero_add _⟩
  cases List.mem_singleton.mp hh
  exact Multiset.mem_add.mpr (.inl (Multiset.mem_singleton_self _))

theorem notifyFailure_owns :
    Owns driverHandles (fun O' _ _ => O' = O) O K readAllNotifyFailure :=
  (owns_aloof rfl rfl rfl fun _ => rfl).bind fun _ _ _ _ same => same

/-- A read that fails has closed its file. -/
theorem setError_owns (buffer : Option BufferPtr) (message : ErrorMessage) :
    Owns driverHandles (fun O' _ _ => O' = O) ({⟨entry.id, handle⟩} + O) K
      (readAllSetError entry handle buffer message) := by
  have ends : ∀ {K : Set OpenHandle}, Owns driverHandles (fun O' _ _ => O' = O)
      ({⟨entry.id, handle⟩} + O) K (do
        onDrivers (driver (.close entry handle))
        readAllNotifyFailure
        pure ({ status := VFS_ERROR_READ, errorMessage := some message } : ReadAllOutcome)) := by
    intro K
    apply owns_close.bind
    rintro O₁ K₁ _ _ rfl
    exact notifyFailure_owns.bind fun _ _ _ _ same => same
  cases buffer with
  | none => exact ends
  | some b =>
      refine .bind (p := perform (.release b)) (owns_aloof rfl rfl rfl fun _ => rfl) ?_
      rintro O₁ K₁ _ _ rfl
      exact ends

theorem failed_owns {post : Multiset OpenHandle → Set OpenHandle → A → Prop}
    (f : ReadAllOutcome → A) (buffer : Option BufferPtr) (message : ErrorMessage)
    (fails : ∀ K' outcome, post O K' (f outcome)) :
    Owns driverHandles post ({⟨entry.id, handle⟩} + O) K (do
      let failure ← readAllSetError entry handle buffer message
      pure (f failure)) := by
  apply (setError_owns buffer message).bind
  rintro O' K' failure _ rfl
  exact fails K' failure

theorem readAllCanceled_owns (buffer : BufferPtr) :
    Owns driverHandles (fun O' _ _ => O' = O) ({⟨entry.id, handle⟩} + O) K
      (readAllCanceled entry handle buffer path) :=
  (setError_owns (some buffer) _).bind fun _ _ _ _ same => same

theorem canceled_owns {post : Multiset OpenHandle → Set OpenHandle → A → Prop}
    (f : ReadAllOutcome → A) (buffer : BufferPtr) (fails : ∀ K' outcome, post O K' (f outcome)) :
    Owns driverHandles post ({⟨entry.id, handle⟩} + O) K (do
      let outcome ← readAllCanceled entry handle buffer path
      pure (f outcome)) := by
  apply (readAllCanceled_owns buffer).bind
  rintro O' K' failure _ rfl
  exact fails K' failure

/-- A read that has not failed still owns its file. -/
def StillOwns (own O : Multiset OpenHandle) (O' : Multiset OpenHandle) :
    ReadAllOutcome ⊕ FileContents → Prop
  | .inl _ => O' = O
  | .inr _ => O' = own

theorem readKnownSize_owns (buffer : BufferPtr) (size : ℤ) :
    Owns driverHandles (fun O' _ read => StillOwns ({⟨entry.id, handle⟩} + O) O O' read)
      ({⟨entry.id, handle⟩} + O) K (readKnownSize path entry handle buffer size) := by
  apply (owns_readFile (.buffer buffer 0) size).bind
  rintro O₁ K₁ read _ rfl
  apply Owns.ite
  · exact failed_owns _ _ _ fun _ _ => rfl
  · exact rfl

theorem growBuffer_owns (c : ChunkState) :
    Owns driverHandles (fun O' _ _ => O' = O) O K (growBuffer c) := by
  apply Owns.ite
  · apply (owns_aloof rfl rfl rfl fun _ => rfl).bind
    rintro O₁ K₁ grown _ rfl
    cases grown <;> exact rfl
  · exact rfl

theorem readChunks_owns (left : ℕ) (c : ChunkState) :
    Owns driverHandles (fun O' _ ended => match ended with
        | .failed _ => O' = O
        | .stopped .. => O' = {⟨entry.id, handle⟩} + O)
      ({⟨entry.id, handle⟩} + O) K (readChunks path entry handle left c) := by
  induction left generalizing c K with
  | zero => exact rfl
  | succ left ih =>
      refine .ite ?_ rfl
      refine .bind (p := shouldCancel) (owns_aloof rfl rfl rfl fun _ => rfl) ?_
      rintro O₁ K₁ canceled _ rfl
      apply Owns.ite
      · exact canceled_owns _ _ fun _ _ => rfl
      apply (growBuffer_owns c).bind
      rintro O₂ K₂ grown _ rfl
      cases grown with
      | none => exact failed_owns _ _ _ fun _ _ => rfl
      | some c =>
          apply (owns_readFile (.buffer c.buffer c.totalRead) _).bind
          rintro O₃ K₃ read _ rfl
          apply Owns.ite
          · exact failed_owns _ _ _ fun _ _ => rfl
          · exact .ite rfl (ih _)

theorem probeEnd_owns (c : ChunkState) :
    Owns driverHandles (fun O' _ read => StillOwns ({⟨entry.id, handle⟩} + O) O O' read)
      ({⟨entry.id, handle⟩} + O) K (probeEnd path entry handle c) := by
  apply (owns_readFile .probe 1).bind
  rintro O₁ K₁ probe _ rfl
  apply Owns.ite
  · exact failed_owns _ _ _ fun _ _ => rfl
  apply Owns.ite
  · exact failed_owns _ _ _ fun _ _ => rfl
  · exact rfl

theorem readUnknownSize_owns (buffer : BufferPtr) :
    Owns driverHandles (fun O' _ read => StillOwns ({⟨entry.id, handle⟩} + O) O O' read)
      ({⟨entry.id, handle⟩} + O) K (readUnknownSize path entry handle buffer) := by
  refine .bind (p := perform (.release buffer)) (owns_aloof rfl rfl rfl fun _ => rfl) ?_
  rintro O₁ K₁ _ _ rfl
  refine .bind (p := perform (.allocate (64 * 1024))) (owns_aloof rfl rfl rfl fun _ => rfl) ?_
  rintro O₂ K₂ chunk _ rfl
  cases chunk with
  | none => exact failed_owns _ _ _ fun _ _ => rfl
  | some chunk =>
      apply (readChunks_owns _ _).bind
      intro O₃ K₃ ended _ still
      match ended with
      | .failed outcome => exact still
      | .stopped c true => exact still
      | .stopped c false =>
          cases still
          exact probeEnd_owns c

theorem readContents_owns :
    Owns driverHandles (fun O' _ read => StillOwns ({⟨entry.id, handle⟩} + O) O O' read)
      ({⟨entry.id, handle⟩} + O) K (readContents path entry handle) := by
  have uses : ∀ h ∈ VfsOp.uses (.driver (.getSize entry (some handle) [])),
      h ∈ ({⟨entry.id, handle⟩} : Multiset OpenHandle) + O ∨ h ∈ K := by
    intro h hh
    cases List.mem_singleton.mp hh
    exact .inl (Multiset.mem_add.mpr (.inl (Multiset.mem_singleton_self _)))
  apply (owns_asks uses rfl fun _ => rfl).bind
  rintro O₁ K₁ size _ rfl
  apply Owns.ite
  · exact failed_owns _ _ _ fun _ _ => rfl
  apply Owns.ite
  · exact failed_owns _ _ _ fun _ _ => rfl
  refine .bind (owns_aloof rfl rfl rfl fun _ => rfl) ?_
  rintro O₂ K₂ buffer _ rfl
  cases buffer with
  | none => exact failed_owns _ _ _ fun _ _ => rfl
  | some buffer =>
      refine .bind (p := shouldCancel) (owns_aloof rfl rfl rfl fun _ => rfl) ?_
      rintro O₃ K₃ canceled _ rfl
      apply Owns.ite
      · exact canceled_owns _ _ fun _ _ => rfl
      · exact .ite (readKnownSize_owns buffer size) (readUnknownSize_owns buffer)

theorem finishRead_owns (file : FileContents) :
    Owns driverHandles (fun O' _ _ => O' = O) O K (finishRead file) := by
  refine .bind (owns_aloof rfl rfl rfl fun _ => rfl) ?_
  rintro O₁ K₁ answer _ rfl
  cases answer with
  | none => exact rfl
  | some answer =>
      apply Owns.ite
      · rfl
      · exact (owns_aloof rfl rfl rfl fun _ => rfl).bind fun _ _ _ _ same => same

end

section
variable (self : VfsState) (slots : ℕ) {K : Set OpenHandle} {O : Multiset OpenHandle}
variable {entry : PluginEntry} {parent : Option DriverPtr}

theorem vfsOpReadAll_owns (path : FlString) (worker : ℕ) :
    Owns driverHandles (fun O' _ _ => O' = O) O K (vfsOpReadAll self slots path worker) := by
  apply (vfsOpFileOpen_owns self slots path openFlagsRead worker).bind
  rintro O₁ K₁ opened _ ⟨rfl, -⟩
  cases opened with
  | failed status =>
      apply notifyFailure_owns.bind
      rintro O₂ K₂ _ _ rfl
      exact Multiset.zero_add O
  | opened entry pluginHandle handle =>
      apply readContents_owns.bind
      intro O₂ K₂ read _ still
      cases read with
      | inl failure => exact still
      | inr file =>
          cases still
          apply owns_close.bind
          rintro O₃ K₃ _ _ rfl
          exact finishRead_owns file

/-! ## Listings -/

theorem checkIfArchive_owns (filePath : FlString) (plugins : List PluginEntry) :
    Owns driverHandles (fun O' _ _ => O' = O) O K
      (onDrivers (checkIfArchive filePath plugins)) := by
  induction plugins generalizing K with
  | nil => rfl
  | cons entry rest ih =>
      unfold checkIfArchive
      rw [onDrivers_bind]
      apply (owns_asks (List.forall_mem_nil _) rfl fun _ => rfl).bind
      rintro O₁ K₁ openable _ rfl
      cases openable with
      | false => exact ih
      | true =>
          rw [if_pos rfl, onDrivers_bind]
          apply (owns_openPath filePath 0 {} lent_none).bind
          rintro O₂ K₂ opened _ rfl
          cases opened.handle with
          | none =>
              rw [show (handleOf entry none : Multiset OpenHandle) + O₁ = O₁ from
                Multiset.zero_add O₁]
              exact ih
          | some handle =>
              simp only [onDrivers_bind]
              apply owns_close.bind
              rintro O₃ K₃ _ _ rfl
              cases opened.isDirectory with
              | true => exact rfl
              | false => exact ih

theorem entryIsArchive_owns (e : Entry) (lent : Lent K entry parent) :
    Owns driverHandles (fun O' _ _ => O' = O) O K
      (onDrivers (entryIsArchive self entry parent e)) := by
  unfold entryIsArchive
  split_ifs
  · rw [onDrivers_bind]
    refine .bind (owns_asks (fun h hh => .inr (lent h hh)) rfl fun _ => rfl) ?_
    rintro O₁ K₁ filePath _ rfl
    split_ifs
    · rfl
    · exact checkIfArchive_owns filePath self.plugins
  · rfl

theorem vfsDirEntryCallback_owns (node : NodePtr) (e : Entry) (lent : Lent K entry parent) :
    Owns driverHandles (fun O' _ _ => O' = O) O K
      (vfsDirEntryCallback self entry parent node e) := by
  refine .bind (p := shouldCancel) (owns_aloof rfl rfl rfl fun _ => rfl) ?_
  rintro O₁ K₁ canceled sub₁ rfl
  refine .ite rfl (.ite rfl ?_)
  apply (entryIsArchive_owns self e (lent.mono sub₁)).bind
  rintro O₂ K₂ isArchive _ rfl
  refine .bind (owns_section rfl rfl) ?_
  exact fun _ _ _ _ same => same.1

theorem enumerate_owns (node : NodePtr) (entries : List Entry) (lent : Lent K entry parent) :
    Owns driverHandles (fun O' _ _ => O' = O) O K (enumerate self entry parent node entries) := by
  induction entries generalizing K with
  | nil => rfl
  | cons e rest ih =>
      apply (vfsDirEntryCallback_owns self node e lent).bind
      rintro O₁ K₁ goOn sub₁ rfl
      exact .ite (ih (lent.mono sub₁)) rfl

variable {Score : Type} [LinearOrder Score] (matcher : Matcher Score)

theorem finishList_owns (path needle : FlString) (node : NodePtr) :
    Owns driverHandles (fun O' _ _ => O' = O) O K (finishList matcher path needle node) := by
  refine .bind (p := shouldCancel) (owns_aloof rfl rfl rfl fun _ => rfl) ?_
  rintro O₁ K₁ canceled _ rfl
  apply Owns.ite
  · rfl
  refine .bind (owns_section rfl rfl) ?_
  rintro O₂ K₂ entries _ ⟨rfl, -⟩
  refine .bind (owns_section rfl rfl) ?_
  exact fun _ _ _ _ same => same.1

theorem vfsOpList_owns (path needle : FlString) (worker : ℕ) :
    Owns driverHandles (fun O' _ _ => O' = O) O K
      (vfsOpList self slots matcher path needle worker) := by
  refine .bind (owns_section rfl rfl) ?_
  rintro O₁ K₁ ⟨root, current⟩ _ ⟨rfl, -⟩
  apply Owns.ite
  · rfl
  apply (walk_owns self slots path worker true).bind
  rintro O₂ K₂ walk _ ⟨rfl, known⟩
  split
  · rename_i entry node _ plugin _
    have lent := DriverView.lent known plugin
    apply Owns.ite
    · rfl
    refine .bind (owns_asks (fun h hh => .inr (lent h hh)) rfl fun _ => rfl) ?_
    rintro O₃ K₃ reported sub₃ rfl
    apply (enumerate_owns self node reported (lent.mono sub₃)).bind
    rintro O₄ K₄ _ _ rfl
    exact finishList_owns matcher path needle node
  · rfl

/-- What an operation ends with: a file, its handle and the one it was opened from. -/
def CallOutcome.handles : CallOutcome → List OpenHandle
  | .fileOpen opened => opened.handles
  | _ => []

def CallOutcome.borrows : CallOutcome → List OpenHandle
  | .fileOpen opened => opened.borrows
  | _ => []

/-- An operation that has ended owns what it returned. -/
def Settled (O : Multiset OpenHandle) (K : Set OpenHandle) (outcome : CallOutcome) : Prop :=
  O = outcome.handles ∧ ∀ h ∈ outcome.borrows, h ∈ K

/-- An operation starts with no handles. -/
theorem vfsOpsExecute_owns (worker : ℕ) (call : MountCall) :
    Owns driverHandles Settled 0 ∅ (vfsOpsExecute self slots matcher worker call) := by
  have nothing : ∀ {K : Set OpenHandle} (outcome : CallOutcome), outcome.handles = [] →
      outcome.borrows = [] → Settled 0 K outcome := by
    intro K outcome none free
    refine ⟨?_, free ▸ List.forall_mem_nil _⟩
    rw [none]
    rfl
  refine .bind (p := shouldCancel) (owns_aloof rfl rfl rfl fun _ => rfl) ?_
  rintro O₁ K₁ canceled _ rfl
  apply Owns.ite
  · cases call with
    | readAll path =>
        apply notifyFailure_owns.bind
        rintro O₂ K₂ _ _ rfl
        exact nothing _ rfl rfl
    | list => exact nothing (.list _) rfl rfl
    | fileOpen => exact nothing (.fileOpen (.failed _)) rfl rfl
  cases call with
  | list path needle =>
      apply (vfsOpList_owns self slots matcher path needle worker).bind
      rintro O₂ K₂ outcome _ rfl
      exact nothing (.list outcome) rfl rfl
  | fileOpen path flags =>
      apply (vfsOpFileOpen_owns self slots path flags worker).bind
      rintro O₂ K₂ outcome _ ⟨rfl, known⟩
      exact ⟨Multiset.add_zero _, known⟩
  | readAll path =>
      apply (vfsOpReadAll_owns self slots path worker).bind
      rintro O₂ K₂ outcome _ rfl
      exact nothing (.readAll outcome) rfl rfl

end

end FlowiVfs.Tree
