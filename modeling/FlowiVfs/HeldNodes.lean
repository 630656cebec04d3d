import FlowiVfs.ChildOrder
import FlowiVfs.HeldNames
import FlowiVfs.ReadContents

/-!
# The nodes that an operation holds

A walk copies pointers to nodes under `tree_lock` and goes on with them behind it, while
`vfs_update` may free any node that a deletion names. An access of a freed node is a section
that has no result. None happens as long as no deletion frees a node that an operation in
progress still holds, that is, may follow without having looked it up again.
-/
namespace FlowiVfs.Tree

open Program

/-! ## Pointers to nodes -/

/-- The nodes that a section follows a pointer to. It finds the root by itself. -/
def MountSection.names : MountSection → List NodePtr
  | lookChild parent _ _ => [parent]
  | ensureChildNodeExists parent _ _ => [parent]
  | installArchive node _ _ _ _ => [node]
  | readDriver node _ => [node]
  | markDirectory node => [node]
  | listEntry parent _ => [parent]
  | snapshot node => [node]
  | _ => []

/-- The nodes that it returns pointers to. -/
def MountSection.gives : (op : MountSection) → op.Reply → List NodePtr
  | rootDriver _, r => [r.1]
  | lookChild .., found => (found.map ChildView.node).toList
  | ensureChildNodeExists .., child => [child]
  | _, _ => []

def nodePtrs : Vocabulary vfs NodePtr where
  names
    | .mount op => {n | n ∈ op.names}
    | _ => ∅
  gives
    | .mount op, r => {n | n ∈ op.gives r}
    | _, _ => ∅

section Knows

variable {K : Set NodePtr} {A : Type}

theorem knows_onDrivers (p : DriverProgram A) :
    Knows nodePtrs (fun _ _ => True) K (onDrivers p) :=
  knows_of_only (only_onDrivers (fun _ => rfl) p)

theorem knows_onMount {op : MountSection} (named : ∀ n ∈ op.names, n ∈ K) :
    Knows nodePtrs (fun K' (r : op.Reply) => ∀ n ∈ op.gives r, n ∈ K') K (onMount op) :=
  ⟨named, fun _ _ given => .inr given⟩

theorem knows_shouldCancel (K : Set NodePtr) :
    Knows nodePtrs (fun _ _ => True) K shouldCancel :=
  ⟨Set.empty_subset K, fun _ => trivial⟩

theorem ReadOp.names {op : VfsOp} (h : ReadOp op) : nodePtrs.names op = ∅ := by
  cases op with
  | mount => exact h.elim
  | _ => rfl

end Knows

section Walk

variable (self : VfsState) (slots : ℕ) {K : Set NodePtr}

theorem loadFromPath_knows {node : NodePtr} (filePath : FlString) (plugins : List PluginEntry)
    (hnode : node ∈ K) :
    Knows nodePtrs (fun _ _ => True) K (loadFromPath slots node filePath plugins) := by
  induction plugins generalizing K with
  | nil => trivial
  | cons entry rest ih =>
      apply (knows_onDrivers _).bind
      intro K₁ openable sub₁ _
      apply Knows.ite _ (ih (sub₁ hnode))
      apply (knows_onDrivers _).bind
      intro K₂ opened sub₂ _
      have hnode₂ := sub₂ (sub₁ hnode)
      cases opened.handle with
      | none => exact ih hnode₂
      | some handle =>
          apply (knows_onDrivers _).bind
          intro K₃ cloned sub₃ _
          apply Knows.ite
          · apply (knows_onDrivers _).bind
            intro K₄ _ sub₄ _
            exact ih (sub₄ (sub₃ hnode₂))
          · refine .bind (knows_onMount (List.forall_mem_singleton.mpr (sub₃ hnode₂))) ?_
            exact fun _ _ _ _ => trivial

theorem loadFromMemory_knows {node : NodePtr} (entry : PluginEntry) (handle : Option DriverPtr)
    (path : FlString) (size : ℤ) (hnode : node ∈ K) :
    Knows nodePtrs (fun _ _ => True) K (loadFromMemory self slots node entry handle path size) := by
  apply (knows_onDrivers _).bind
  intro K₁ fileData sub₁ _
  apply (knows_onDrivers _).bind
  intro K₂ readResult sub₂ _
  apply Knows.ite
  · exact (knows_onDrivers _).bind fun _ _ _ _ => trivial
  apply (knows_onDrivers _).bind
  intro K₃ memory sub₃ _
  cases memory with
  | none => exact (knows_onDrivers _).bind fun _ _ _ _ => trivial
  | some memory =>
      apply (knows_onDrivers _).bind
      intro K₄ cloned sub₄ _
      apply Knows.ite
      · exact (knows_onDrivers _).bind fun _ _ _ _ => trivial
      · have hnode₄ := sub₄ (sub₃ (sub₂ (sub₁ hnode)))
        refine .bind (knows_onMount (List.forall_mem_singleton.mpr hnode₄)) ?_
        exact fun _ _ _ _ => trivial

theorem tryLoadAsArchive_knows {node : NodePtr} (entry : PluginEntry)
    (handle : Option DriverPtr) (path : FlString) (size : ℤ) (hnode : node ∈ K) :
    Knows nodePtrs (fun _ _ => True) K
      (vfsTreeTryLoadAsArchive self slots node entry handle path size) := by
  unfold vfsTreeTryLoadAsArchive
  apply Knows.ite
  · trivial
  apply Knows.ite _ (loadFromMemory_knows self slots entry handle path size hnode)
  apply (knows_onDrivers _).bind
  intro K₁ filePath sub₁ _
  have hnode₁ := sub₁ hnode
  apply Knows.ite (loadFromMemory_knows self slots entry handle path size hnode₁)
  apply (loadFromPath_knows slots filePath self.plugins hnode₁).bind
  intro K₂ loaded sub₂ _
  apply Knows.ite
  · trivial
  · exact loadFromMemory_knows self slots entry handle path size (sub₂ hnode₁)

/-- The walk knows the node that it stands on. -/
def StandsIn (K : Set NodePtr) (w : WalkState) : Prop := w.currentNode ∈ K

theorem enterArchive_knows {child : NodePtr} (worker : ℕ) (hchild : child ∈ K) :
    Knows nodePtrs StandsIn K (enterArchive child worker) := by
  refine .bind (knows_onMount (List.forall_mem_singleton.mpr hchild)) ?_
  intro K₁ current sub₁ _
  exact sub₁ hchild

theorem walkChild_knows (components : List FlString) (worker idx : ℕ) (w : WalkState)
    {child : ChildView} (hchild : child.node ∈ K) :
    Knows nodePtrs StandsIn K (walkChild self slots components worker idx w child) := by
  unfold walkChild
  cases child.driver.pluginEntry with
  | some _ => exact hchild
  | none =>
      cases w.current.pluginEntry with
      | none => exact hchild
      | some entry =>
          apply Knows.ite
          · exact hchild
          apply (knows_onDrivers _).bind
          intro K₁ size sub₁ _
          apply (tryLoadAsArchive_knows self slots entry _ _ size (sub₁ hchild)).bind
          intro K₂ loaded sub₂ _
          apply Knows.ite
          · exact enterArchive_knows worker (sub₂ (sub₁ hchild))
          · exact sub₂ (sub₁ hchild)

theorem advance_knows (segment : FlString) {w : WalkState} (hw : w.currentNode ∈ K) :
    Knows nodePtrs StandsIn K (advanceToVirtualDirectory segment w) := by
  refine .bind (knows_onMount (List.forall_mem_singleton.mpr hw)) ?_
  intro K₁ child _ given
  exact given _ List.mem_cons_self

theorem walkUnlisted_knows (components : List FlString) (worker idx : ℕ) (segment : FlString)
    (entry : PluginEntry) {w : WalkState} (hw : w.currentNode ∈ K) :
    Knows nodePtrs StandsIn K
      (walkUnlisted self slots components worker idx segment entry w) := by
  apply (knows_onDrivers _).bind
  intro K₁ size sub₁ _
  apply Knows.ite (advance_knows segment (sub₁ hw))
  refine .bind (knows_onMount (List.forall_mem_singleton.mpr (sub₁ hw))) ?_
  intro K₂ child _ given
  have hchild : child ∈ K₂ := given child List.mem_cons_self
  apply (tryLoadAsArchive_knows self slots entry _ _ size hchild).bind
  intro K₃ loaded sub₃ _
  apply Knows.ite (enterArchive_knows worker (sub₃ hchild))
  refine .bind (knows_onMount (List.forall_mem_singleton.mpr (sub₃ hchild))) ?_
  intro K₄ _ sub₄ _
  exact sub₄ (sub₃ hchild)

theorem walkSegment_knows (components : List FlString) (worker : ℕ) (forListing : Bool)
    (idx : ℕ) (segment : FlString) {w : WalkState} (hw : w.currentNode ∈ K) :
    Knows nodePtrs (fun K' next => ∀ w ∈ next, StandsIn K' w) K
      (walkSegment self slots components worker forListing idx segment w) := by
  have found : ∀ {K' : Set NodePtr} {w' : WalkState}, StandsIn K' w' →
      ∀ w ∈ some w', StandsIn K' w := fun h w hw => Option.some.inj hw ▸ h
  refine .bind (knows_onMount (List.forall_mem_singleton.mpr hw)) ?_
  intro K₁ child sub₁ given
  cases child with
  | some child =>
      apply (walkChild_knows self slots components worker idx w (given _ List.mem_cons_self)).bind
      exact fun K₂ w' _ hw' => found hw'
  | none =>
      cases w.current.pluginEntry with
      | none => exact fun w hw => nomatch hw
      | some entry =>
          cases forListing with
          | true =>
              apply (walkUnlisted_knows self slots components worker idx segment entry
                (sub₁ hw)).bind
              exact fun K₂ w' _ hw' => found hw'
          | false =>
              apply (advance_knows segment (sub₁ hw)).bind
              exact fun K₂ w' _ hw' => found hw'

theorem walkFrom_knows (components : List FlString) (worker : ℕ) (forListing : Bool)
    (segments : List FlString) (idx : ℕ) {w : WalkState} (hw : w.currentNode ∈ K) :
    Knows nodePtrs (fun K' walked => match walked with
        | .inl failure => ∀ n ∈ failure.node, n ∈ K'
        | .inr w => StandsIn K' w) K
      (walkFrom self slots components worker forListing idx segments w) := by
  induction segments generalizing idx w K with
  | nil => exact hw
  | cons segment rest ih =>
      apply (walkSegment_knows self slots components worker forListing idx segment hw).bind
      intro K₁ next sub₁ hnext
      cases next with
      | none => exact fun n hn => Option.some.inj hn ▸ sub₁ hw
      | some w' => exact ih (idx + 1) (hnext w' rfl)

theorem walkPath_knows (components : List FlString) (forListing : Bool) (w : WalkState) :
    Knows nodePtrs (fun _ _ => True) K (walkPath self components forListing w) := by
  unfold walkPath
  refine .ite (.ite trivial trivial) (.ite ?_ trivial)
  cases components.getLast? with
  | some finalFile => trivial
  | none => exact ⟨Set.empty_subset K, fun _ => trivial⟩

theorem walk_knows (path : FlString) (worker : ℕ) (forListing : Bool) :
    Knows nodePtrs (fun K' result => ∀ n ∈ result.node, n ∈ K') K
      (vfsTreeWalkAndResolve self slots path worker forListing) := by
  apply Knows.ite
  · exact fun n hn => nomatch hn
  refine .bind (knows_onMount (List.forall_mem_nil _)) ?_
  rintro K₁ ⟨root, current⟩ _ given
  have hroot : root ∈ K₁ := given root List.mem_cons_self
  apply Knows.ite
  · exact fun n hn => Option.some.inj hn ▸ hroot
  apply (walkFrom_knows self slots _ worker forListing _ 0 hroot).bind
  intro K₂ walked _ hwalked
  cases walked with
  | inl failure => exact hwalked
  | inr w =>
      apply (walkPath_knows self _ forListing w).bind
      intro K₃ pathFromNode sub₃ _
      exact fun n hn => Option.some.inj hn ▸ sub₃ hwalked

theorem vfsOpFileOpen_knows (path : FlString) (flags worker : ℕ) :
    Knows nodePtrs (fun _ _ => True) K (vfsOpFileOpen self slots path flags worker) := by
  refine .bind (knows_onMount (List.forall_mem_nil _)) ?_
  rintro K₁ ⟨root, current⟩ _ _
  apply Knows.ite
  · trivial
  apply (walk_knows self slots path worker false).bind
  intro K₂ walk _ _
  split
  · refine .bind (knows_onMount (List.forall_mem_nil _)) ?_
    intro K₃ options _ _
    apply (knows_onDrivers _).bind
    intro K₄ opened _ _
    cases opened.handle <;> trivial
  · trivial

theorem vfsOpReadAll_knows (path : FlString) (worker : ℕ) :
    Knows nodePtrs (fun _ _ => True) K (vfsOpReadAll self slots path worker) := by
  apply (vfsOpFileOpen_knows self slots path openFlagsRead worker).bind
  intro K₁ opened _ _
  cases opened with
  | failed status => exact ⟨Set.empty_subset K₁, fun _ => trivial⟩
  | opened entry pluginHandle handle =>
      apply (knows_of_only (readContents_reads.mono fun _ => ReadOp.names)).bind
      intro K₂ read _ _
      cases read with
      | inl failure => trivial
      | inr file =>
          apply (knows_onDrivers _).bind
          intro K₃ _ _ _
          refine ⟨Set.empty_subset K₃, fun answer => ?_⟩
          cases answer with
          | none => trivial
          | some answer => exact .ite trivial ⟨Set.empty_subset _, fun _ => trivial⟩

theorem vfsDirEntryCallback_knows (lister : PluginEntry) (handle : Option DriverPtr)
    {parent : NodePtr} (entry : Entry) (hparent : parent ∈ K) :
    Knows nodePtrs (fun _ _ => True) K (vfsDirEntryCallback self lister handle parent entry) := by
  apply (knows_shouldCancel K).bind
  intro K₁ canceled sub₁ _
  refine .ite trivial (.ite trivial ?_)
  apply (knows_onDrivers _).bind
  intro K₂ isArchive sub₂ _
  refine .bind (knows_onMount (List.forall_mem_singleton.mpr (sub₂ (sub₁ hparent)))) ?_
  exact fun _ _ _ _ => trivial

theorem enumerate_knows (lister : PluginEntry) (handle : Option DriverPtr) {parent : NodePtr}
    (entries : List Entry) (hparent : parent ∈ K) :
    Knows nodePtrs (fun _ _ => True) K (enumerate self lister handle parent entries) := by
  induction entries generalizing K with
  | nil => trivial
  | cons entry rest ih =>
      apply (vfsDirEntryCallback_knows self lister handle entry hparent).bind
      intro K₁ goOn sub₁ _
      exact .ite (ih (sub₁ hparent)) trivial

variable {Score : Type} [LinearOrder Score] (matcher : Matcher Score)

theorem finishList_knows (path needle : FlString) {node : NodePtr} (hnode : node ∈ K) :
    Knows nodePtrs (fun _ _ => True) K (finishList matcher path needle node) := by
  apply (knows_shouldCancel K).bind
  intro K₁ canceled sub₁ _
  apply Knows.ite
  · trivial
  refine .bind (knows_onMount (List.forall_mem_singleton.mpr (sub₁ hnode))) ?_
  intro K₂ entries _ _
  refine .bind (knows_onMount (List.forall_mem_nil _)) ?_
  exact fun _ _ _ _ => trivial

theorem vfsOpList_knows (path needle : FlString) (worker : ℕ) :
    Knows nodePtrs (fun _ _ => True) K (vfsOpList self slots matcher path needle worker) := by
  refine .bind (knows_onMount (List.forall_mem_nil _)) ?_
  rintro K₁ ⟨root, current⟩ _ _
  apply Knows.ite
  · trivial
  apply (walk_knows self slots path worker true).bind
  intro K₂ walk _ known
  split
  · rename_i entry node _ _ reached
    have hnode : node ∈ K₂ := known node reached
    apply Knows.ite
    · trivial
    apply (knows_onDrivers _).bind
    intro K₃ reported sub₃ _
    apply (enumerate_knows self entry _ reported (sub₃ hnode)).bind
    intro K₄ _ sub₄ _
    exact finishList_knows matcher path needle (sub₄ (sub₃ hnode))
  · trivial

/-- An operation finds every node that it follows a pointer to: it may start with none. -/
theorem vfsOpsExecute_knows (worker : ℕ) (call : MountCall) :
    Knows nodePtrs (fun _ _ => True) K (vfsOpsExecute self slots matcher worker call) := by
  apply (knows_shouldCancel K).bind
  intro K₁ canceled _ _
  apply Knows.ite
  · cases call with
    | readAll path => exact ⟨Set.empty_subset K₁, fun _ => trivial⟩
    | _ => trivial
  cases call with
  | list path needle =>
      apply (vfsOpList_knows self slots matcher path needle worker).bind
      exact fun _ _ _ _ => trivial
  | fileOpen path flags =>
      apply (vfsOpFileOpen_knows self slots path flags worker).bind
      exact fun _ _ _ _ => trivial
  | readAll path =>
      apply (vfsOpReadAll_knows self slots path worker).bind
      exact fun _ _ _ _ => trivial

end Walk

end FlowiVfs.Tree
