import FlowiVfs.MountOps

/-!
# What a walk and an enumeration touch

The operations that a walk may perform, whatever it is answered, and those of the
enumeration behind it. A walk creates nodes and loads archives; it does not look at the
version of the mount, and takes no snapshot.
-/
namespace FlowiVfs.Tree

open Program

/-- Every call of a driver but the enumeration of a directory. -/
def ProbeOp : DriverOp → Prop
  | .listDirectory .. => False
  | _ => True

/-- The operations of a walk. -/
def WalkOp : VfsOp → Prop
  | .driver op => ProbeOp op
  | .mount (.rootDriver _) => True
  | .mount (.lookChild ..) => True
  | .mount (.ensureChildNodeExists ..) => True
  | .mount (.installArchive ..) => True
  | .mount (.readDriver ..) => True
  | .mount (.markDirectory _) => True
  | .strayString => True
  | _ => False

/-- The operations of a listing before its snapshot. -/
def EnumerateOp : VfsOp → Prop
  | .driver _ => True
  | .shouldCancel => True
  | .mount (.listEntry ..) => True
  | op => WalkOp op

theorem WalkOp.enumerate {op : VfsOp} (h : WalkOp op) : EnumerateOp op := by
  unfold EnumerateOp
  split
  · trivial
  · trivial
  · trivial
  · exact h

theorem only_onDrivers {A : Type} {φ : VfsOp → Prop} (h : ∀ op, φ (.driver op))
    (p : DriverProgram A) : Only φ (onDrivers p) := by
  induction p with
  | done a => trivial
  | perform op next ih => exact ⟨h op, ih⟩

theorem walk_onDrivers {A : Type} {p : DriverProgram A} (only : Only ProbeOp p) :
    Only WalkOp (onDrivers p) := by
  induction p with
  | done a => trivial
  | perform op next ih => exact ⟨only.1, fun r => ih r (only.2 r)⟩

/-! ## Driver calls of a load -/

theorem closeClones_only (entry : PluginEntry) (clones : List DriverPtr) :
    Only ProbeOp (closeClones entry clones) := by
  induction clones with
  | nil => trivial
  | cons clone rest ih => exact .bind ⟨trivial, fun _ => trivial⟩ fun _ => ih

theorem cloneLoop_only (entry : PluginEntry) (handle : DriverPtr) (left : ℕ)
    (clones : List DriverPtr) : Only ProbeOp (cloneLoop entry handle left clones) := by
  induction left generalizing clones with
  | zero => trivial
  | succ left ih =>
      refine .ite (.bind ⟨trivial, fun _ => trivial⟩ fun res => ?_) (.bind trivial fun res => ?_)
      all_goals
        dsimp only
        cases res.handle with
        | none => exact (closeClones_only entry clones).bind fun _ => trivial
        | some clone => exact ih _

theorem openMemoryWith_only (path : FlString) (data : BufferPtr) (contents : Bytes) (size : ℤ)
    (plugins : List PluginEntry) :
    Only ProbeOp (openMemoryWith path data contents size plugins) := by
  induction plugins with
  | nil => trivial
  | cons entry rest ih =>
      refine .ite ih (.bind ⟨trivial, fun _ => trivial⟩ fun opened => ?_)
      cases opened.handle with
      | none => exact .ite trivial ih
      | some handle => trivial

theorem checkIfArchive_only (filePath : FlString) (plugins : List PluginEntry) :
    Only ProbeOp (checkIfArchive filePath plugins) := by
  induction plugins with
  | nil => trivial
  | cons entry rest ih =>
      refine .bind ⟨trivial, fun _ => trivial⟩ fun openable => .ite ?_ ih
      refine .bind ⟨trivial, fun _ => trivial⟩ fun opened => ?_
      cases opened.handle with
      | none => exact ih
      | some handle => exact .bind ⟨trivial, fun _ => trivial⟩ fun _ => .ite trivial ih

section
variable (self : VfsState) (slots : ℕ)

theorem entryIsArchive_only (lister : PluginEntry) (handle : Option DriverPtr) (entry : Entry) :
    Only ProbeOp (entryIsArchive self lister handle entry) := by
  refine .ite ?_ trivial
  exact .bind ⟨trivial, fun _ => trivial⟩ fun filePath => .ite trivial (checkIfArchive_only ..)

theorem loadFromPath_only (node : NodePtr) (filePath : FlString) (plugins : List PluginEntry) :
    Only WalkOp (loadFromPath slots node filePath plugins) := by
  induction plugins with
  | nil => trivial
  | cons entry rest ih =>
      refine .bind ⟨trivial, fun _ => trivial⟩ fun openable => .ite ?_ ih
      refine .bind ⟨trivial, fun _ => trivial⟩ fun opened => ?_
      cases opened.handle with
      | none => exact ih
      | some handle =>
          refine (walk_onDrivers (cloneLoop_only ..)).bind fun cloned => .ite ?_ ?_
          · exact .bind ⟨trivial, fun _ => trivial⟩ fun _ => ih
          · exact .bind ⟨trivial, fun _ => trivial⟩ fun _ => trivial

theorem loadFromMemory_only (node : NodePtr) (entry : PluginEntry) (handle : Option DriverPtr)
    (path : FlString) (size : ℤ) :
    Only WalkOp (loadFromMemory self slots node entry handle path size) := by
  refine .bind ⟨trivial, fun _ => trivial⟩ fun fileData => ?_
  refine .bind ⟨trivial, fun _ => trivial⟩ fun readResult => .ite ?_ ?_
  · exact .bind ⟨trivial, fun _ => trivial⟩ fun _ => trivial
  · refine (walk_onDrivers (openMemoryWith_only ..)).bind fun memory => ?_
    cases memory with
    | none => exact .bind ⟨trivial, fun _ => trivial⟩ fun _ => trivial
    | some memory =>
        refine (walk_onDrivers (cloneLoop_only ..)).bind fun cloned => .ite ?_ ?_
        · exact .bind ⟨trivial, fun _ => trivial⟩ fun _ => trivial
        · exact .bind ⟨trivial, fun _ => trivial⟩ fun _ => trivial

theorem tryLoadAsArchive_only (node : NodePtr) (entry : PluginEntry) (handle : Option DriverPtr)
    (path : FlString) (size : ℤ) :
    Only WalkOp (vfsTreeTryLoadAsArchive self slots node entry handle path size) := by
  have memory := loadFromMemory_only self slots node entry handle path size
  refine .ite trivial (.ite ?_ memory)
  refine .bind ⟨trivial, fun _ => trivial⟩ fun filePath => .ite memory ?_
  exact (loadFromPath_only slots node filePath self.plugins).bind fun loaded =>
    .ite trivial memory

theorem enterArchive_only (child : NodePtr) (worker : ℕ) :
    Only WalkOp (enterArchive child worker) :=
  .bind ⟨trivial, fun _ => trivial⟩ fun _ => trivial

theorem walkChild_only (components : List FlString) (worker idx : ℕ) (w : WalkState)
    (child : ChildView) :
    Only WalkOp (walkChild self slots components worker idx w child) := by
  unfold walkChild
  cases child.driver.pluginEntry with
  | some e => trivial
  | none =>
      cases w.current.pluginEntry with
      | none => trivial
      | some entry =>
          refine .ite trivial ?_
          refine .bind ⟨trivial, fun _ => trivial⟩ fun size => ?_
          refine (tryLoadAsArchive_only ..).bind fun loaded => ?_
          exact .ite (enterArchive_only ..) trivial

theorem advance_only (segment : FlString) (w : WalkState) :
    Only WalkOp (advanceToVirtualDirectory segment w) :=
  .bind ⟨trivial, fun _ => trivial⟩ fun _ => trivial

theorem walkUnlisted_only (components : List FlString) (worker idx : ℕ) (segment : FlString)
    (entry : PluginEntry) (w : WalkState) :
    Only WalkOp (walkUnlisted self slots components worker idx segment entry w) := by
  refine .bind ⟨trivial, fun _ => trivial⟩ fun size => .ite (advance_only ..) ?_
  refine .bind ⟨trivial, fun _ => trivial⟩ fun child => ?_
  refine (tryLoadAsArchive_only ..).bind fun loaded => .ite (enterArchive_only ..) ?_
  exact .bind ⟨trivial, fun _ => trivial⟩ fun _ => trivial

theorem walkSegment_only (components : List FlString) (worker : ℕ) (forListing : Bool)
    (idx : ℕ) (segment : FlString) (w : WalkState) :
    Only WalkOp (walkSegment self slots components worker forListing idx segment w) := by
  refine .bind ⟨trivial, fun _ => trivial⟩ fun found => ?_
  cases found with
  | some child => exact (walkChild_only ..).bind fun _ => trivial
  | none =>
      cases w.current.pluginEntry with
      | none => trivial
      | some entry =>
          refine .ite ?_ ?_
          · exact (walkUnlisted_only ..).bind fun _ => trivial
          · exact (advance_only ..).bind fun _ => trivial

theorem walkFrom_only (components : List FlString) (worker : ℕ) (forListing : Bool)
    (segments : List FlString) (idx : ℕ) (w : WalkState) :
    Only WalkOp (walkFrom self slots components worker forListing idx segments w) := by
  induction segments generalizing idx w with
  | nil => trivial
  | cons segment rest ih =>
      refine (walkSegment_only ..).bind fun next => ?_
      cases next with
      | none => trivial
      | some w => exact ih (idx + 1) w

theorem walkPath_only (components : List FlString) (forListing : Bool) (w : WalkState) :
    Only WalkOp (walkPath self components forListing w) := by
  refine .ite (.ite trivial trivial) (.ite ?_ trivial)
  cases components.getLast? with
  | some finalFile => trivial
  | none => exact ⟨trivial, fun _ => trivial⟩

theorem walk_only (path : FlString) (worker : ℕ) (forListing : Bool) :
    Only WalkOp (vfsTreeWalkAndResolve self slots path worker forListing) := by
  refine .ite trivial ?_
  refine .bind ⟨trivial, fun _ => trivial⟩ fun root => .ite trivial ?_
  refine (walkFrom_only ..).bind fun walked => ?_
  cases walked with
  | inl failure => trivial
  | inr w => exact (walkPath_only ..).bind fun _ => trivial

theorem enumerate_only (lister : PluginEntry) (handle : Option DriverPtr) (parent : NodePtr)
    (entries : List Entry) : Only EnumerateOp (enumerate self lister handle parent entries) := by
  induction entries with
  | nil => trivial
  | cons entry rest ih =>
      refine .bind ?_ fun goOn => .ite ih trivial
      refine .bind ⟨trivial, fun _ => trivial⟩ fun canceled => .ite trivial (.ite trivial ?_)
      refine (only_onDrivers (fun _ => trivial) _).bind fun isArchive => ?_
      exact .bind ⟨trivial, fun _ => trivial⟩ fun _ => trivial

end

/-! ## How a load ends -/

def IsDriverCall : VfsOp → Prop
  | .driver _ => True
  | _ => False

theorem driverCalls {S A : Type} {env : Environment vfs S} {p : DriverProgram A} {s t : S} {a : A}
    (run : Run env (onDrivers p) s a t) : Calls env IsDriverCall s t :=
  (only_onDrivers (fun _ => trivial) p).calls run

section
variable {S : Type} {env : Environment vfs S} {slots : ℕ} {node : NodePtr} {s t : S}

variable (env node) in
/-- A load calls drivers. When it succeeds, it ends with the swap of the driver. -/
def LoadEnds (s t : S) (loaded : Bool) : Prop :=
  ∃ u, Calls env IsDriverCall s u ∧
    (loaded = false ∧ t = u ∨
      loaded = true ∧ ∃ e handles memoryData memorySize, (VfsHandles.slot handles 0).isSome ∧
        env u (.mount (.installArchive node e handles memoryData memorySize)) () t)

theorem LoadEnds.after {u : S} {loaded : Bool} (ends : LoadEnds env node u t loaded)
    (calls : Calls env IsDriverCall s u) : LoadEnds env node s t loaded := by
  obtain ⟨v, more, ended⟩ := ends
  exact ⟨v, calls.trans more, ended⟩

/-- The swap of a driver whose clones were made. -/
theorem swap_ends {e : PluginEntry} {handles : VfsHandles} {memoryData : Option BufferPtr}
    {memorySize : ℤ} {loaded : Bool} (cloned : ¬ VfsHandles.slot handles 0 = none)
    (run : Run env (do
      onMount (.installArchive node e handles memoryData memorySize)
      pure true) s loaded t) : LoadEnds env node s t loaded := by
  obtain ⟨_, u, swapped, done⟩ := run_bind.mp run
  obtain ⟨rfl, rfl⟩ := run_done.mp done
  exact ⟨s, .refl, .inr ⟨rfl, e, handles, memoryData, memorySize,
    Option.isSome_iff_ne_none.mpr cloned, run_call.mp swapped⟩⟩

theorem loadFromPath_ends {filePath : FlString} {plugins : List PluginEntry} {loaded : Bool}
    (run : Run env (loadFromPath slots node filePath plugins) s loaded t) :
    LoadEnds env node s t loaded := by
  induction plugins generalizing s with
  | nil =>
      obtain ⟨rfl, rfl⟩ := run_done.mp run
      exact ⟨t, .refl, .inl ⟨rfl, rfl⟩⟩
  | cons e rest ih =>
      obtain ⟨openable, s₁, asked, run⟩ := run_bind.mp run
      refine LoadEnds.after ?_ (driverCalls asked)
      split_ifs at run
      · obtain ⟨opened, s₂, opening, run⟩ := run_bind.mp run
        refine LoadEnds.after ?_ (driverCalls opening)
        split at run
        · exact ih run
        · obtain ⟨cloned, s₃, cloning, run⟩ := run_bind.mp run
          refine LoadEnds.after ?_ (driverCalls cloning)
          split_ifs at run with refused
          · obtain ⟨_, s₄, closing, run⟩ := run_bind.mp run
            exact (ih run).after (driverCalls closing)
          · exact swap_ends refused run
      · exact ih run

theorem loadFromMemory_ends {self : VfsState} {entry : PluginEntry} {handle : Option DriverPtr}
    {path : FlString} {size : ℤ} {loaded : Bool}
    (run : Run env (loadFromMemory self slots node entry handle path size) s loaded t) :
    LoadEnds env node s t loaded := by
  have gives_up : ∀ {u : S} {p : DriverProgram Unit},
      Run env (do
        onDrivers p
        pure false) u loaded t → LoadEnds env node u t loaded := by
    intro u p run
    obtain ⟨_, v, called, done⟩ := run_bind.mp run
    obtain ⟨rfl, rfl⟩ := run_done.mp done
    exact ⟨t, driverCalls called, .inl ⟨rfl, rfl⟩⟩
  obtain ⟨b, s₁, allocated, run⟩ := run_bind.mp run
  refine LoadEnds.after ?_ (driverCalls allocated)
  obtain ⟨r, s₂, reading, run⟩ := run_bind.mp run
  refine LoadEnds.after ?_ (driverCalls reading)
  split_ifs at run
  · exact gives_up run
  · obtain ⟨memory, s₃, finding, run⟩ := run_bind.mp run
    refine LoadEnds.after ?_ (driverCalls finding)
    split at run
    · exact gives_up run
    · obtain ⟨cloned, s₄, cloning, run⟩ := run_bind.mp run
      refine LoadEnds.after ?_ (driverCalls cloning)
      split_ifs at run with refused
      · exact gives_up run
      · exact swap_ends refused run

theorem tryLoadAsArchive_ends {self : VfsState} {entry : PluginEntry}
    {handle : Option DriverPtr} {path : FlString} {size : ℤ} {loaded : Bool}
    (run : Run env (vfsTreeTryLoadAsArchive self slots node entry handle path size) s loaded t) :
    LoadEnds env node s t loaded := by
  unfold vfsTreeTryLoadAsArchive at run
  split_ifs at run
  · obtain ⟨rfl, rfl⟩ := run_done.mp run
    exact ⟨t, .refl, .inl ⟨rfl, rfl⟩⟩
  · obtain ⟨filePath, s₁, asked, run⟩ := run_bind.mp run
    refine LoadEnds.after ?_ (driverCalls asked)
    split_ifs at run
    · exact loadFromMemory_ends run
    · obtain ⟨byPath, s₂, trying, run⟩ := run_bind.mp run
      have ended := loadFromPath_ends trying
      cases byPath with
      | true =>
          obtain ⟨rfl, rfl⟩ := run_done.mp run
          exact ended
      | false =>
          obtain ⟨u, calls, ⟨-, rfl⟩ | ⟨wrong, -⟩⟩ := ended
          · exact (loadFromMemory_ends run).after calls
          · cases wrong
  · exact loadFromMemory_ends run

end

end FlowiVfs.Tree
