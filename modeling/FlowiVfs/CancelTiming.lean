import FlowiVfs.FlagPolls
import FlowiVfs.Operations
import FlowiVfs.ReadContents

/-!
# Cancelling an operation at any moment

`vfs_cancel` sets a flag that an operation polls before it starts, in every callback of
a listing and behind its enumeration, before a read of known size and between chunks.
The drivers, the sections on the mount, the allocator and the callback are a world that
answers as it likes; the flag is raised when a given number of operations have been
performed.
-/
namespace FlowiVfs.Tree

open Program

/-- `vfs_should_cancel` is the poll of the flag. -/
def cancelFlag : Flag vfs
  | .shouldCancel => some (true, false)
  | _ => none

def cancelRequested : Flag ops
  | .inl op => cancelFlag op
  | .inr _ => none

/-- Calls of the functions of a driver. -/
def CallsDriver : ops.Op → Prop
  | .inl (.driver _) | .inl (.readFile ..) | .inr (.read ..) | .inr (.write ..) => True
  | _ => False

/-- The operation ended canceled, with no payload that reports a success. -/
def Canceled (result : Option Stored) : Prop :=
  ∃ r, result = some r ∧ r.errorStatus = VFS_ERROR_CANCELED ∧
    (∀ p ∈ r.resultData, p.success = false) ∧ r.file = none

/-- What a cancel at `moment` makes of an operation, against the run without it. -/
structure CancelledAt (moment : ℕ) (run calm : Option Stored × List ops.Op) : Prop where
  result : run.1 = calm.1 ∨ Canceled run.1
  /-- Where the operation has seen the flag, it is canceled: an enumeration or a read that was
  cut short is no success. -/
  seen : SawFlag cancelRequested (some moment) [] run.2 → Canceled run.1
  untouched : moment = 0 → ∀ op ∈ run.2, ¬ CallsDriver op

/-! ## Operations that do not poll -/

/-- The operations of a mount that are no poll. -/
def Steady (op : VfsOp) : Prop := cancelFlag op = none

theorem OpenOp.steady {op : VfsOp} (h : OpenOp op) : Steady op := by
  cases op with
  | shouldCancel => exact absurd h id
  | _ => rfl

theorem steady_drivers {A : Type} (p : DriverProgram A) : Only Steady (onDrivers p) :=
  only_onDrivers (fun _ => rfl) p

theorem steady_call {op : VfsOp} (h : Steady op) : Only Steady (perform op) := only_call h

section
variable {A B : Type} {p : VfsProgram A} {f : A → VfsProgram B} {ψ : A → Prop} {χ : B → Prop}

/-- An operation on a mount heeds the flag of the handle as it does by itself. -/
theorem stops_onMounts (h : Stops cancelFlag (fun _ => True) ψ p) :
    Stops cancelRequested (fun _ => True) ψ (onMounts p) := by
  induction p with
  | done a => exact h
  | perform op next ih => exact ⟨trivial, fun r hr => ih r (h.2 r hr)⟩

theorem heeds_onMounts (h : HeedsFlag cancelFlag ψ p) :
    HeedsFlag cancelRequested ψ (onMounts p) := by
  induction p with
  | done a => trivial
  | perform op next ih =>
      exact ⟨fun x hx => stops_onMounts (h.1 x hx), fun r hr => ih r (h.2 r hr)⟩

theorem steady_heeds (h : Only Steady p) : HeedsFlag cancelFlag ψ p := heeds_of_only h

/-- A program behind a poll that goes one way when the flag is up. -/
theorem poll_heeds {stop go : VfsProgram A} (hstop : Returns ψ stop)
    (hgo : HeedsFlag cancelFlag ψ go) :
    HeedsFlag cancelFlag ψ (do
      let canceled ← shouldCancel
      if canceled then stop else go) := by
  refine ⟨?_, ?_⟩
  · rintro x ⟨⟩
    exact stops_of_returns hstop
  · intro r hr
    have hdown : r = false := hr _ rfl
    subst hdown
    exact hgo

end

/-! ## The listing -/

def ListOutcome.Canceled (outcome : ListOutcome) : Prop :=
  outcome.status = VFS_ERROR_CANCELED ∧ outcome.success = false

def ReadAllOutcome.Canceled (outcome : ReadAllOutcome) : Prop :=
  outcome.status = VFS_ERROR_CANCELED ∧ outcome.success = false

section
variable {self : VfsState} {slots : ℕ} {Score : Type} [LinearOrder Score] {matcher : Matcher Score}
variable {path needle : FlString} {worker : ℕ} {node : NodePtr}

theorem finishList_heeds :
    HeedsFlag cancelFlag ListOutcome.Canceled (finishList matcher path needle node) := by
  apply poll_heeds
  · exact ⟨rfl, rfl⟩
  · apply steady_heeds
    refine .bind (steady_call rfl) fun entries => ?_
    exact .bind (steady_call rfl) fun version => trivial

/-- Where the callback stopped the enumeration, the poll behind it finds the flag up too. -/
theorem finishList_stops :
    Stops cancelFlag (fun _ => True) ListOutcome.Canceled
      (finishList matcher path needle node) := by
  refine ⟨trivial, fun r hr => ?_⟩
  have hup : r = true := hr _ rfl
  subst hup
  exact ⟨rfl, rfl⟩

theorem heeds_true {A : Type} (p : VfsProgram A) : HeedsFlag cancelFlag (fun _ => True) p := by
  have hstops : ∀ q : VfsProgram A, Stops cancelFlag (fun _ => True) (fun _ => True) q := by
    intro q
    apply stops_of_returns
    induction q with
    | done a => trivial
    | perform op next ih => exact ih
  induction p with
  | done a => trivial
  | perform op next ih => exact ⟨fun x _ => hstops _, fun r _ => ih r⟩

theorem vfsOpList_heeds :
    HeedsFlag cancelFlag ListOutcome.Canceled
      (vfsOpList self slots matcher path needle worker) := by
  refine .behind (p := onMount (.rootDriver worker)) (steady_call rfl) fun root => ?_
  refine .ite trivial ?_
  refine .behind ((walk_only self slots path worker true).mono fun _ h => h.opens.steady)
    fun walk => ?_
  split
  · refine .ite trivial ?_
    refine .behind (steady_drivers _) fun reported => ?_
    exact .bind (heeds_true _) (fun _ _ => finishList_stops) fun _ => finishList_heeds
  · trivial

/-! ## The read -/

section
variable {entry : PluginEntry} {handle : DriverPtr} {buffer : BufferPtr}

theorem steady_setError (buffer : Option BufferPtr) (message : ErrorMessage) :
    Only Steady (readAllSetError entry handle buffer message) := by
  cases buffer with
  | none => exact ⟨rfl, fun _ => ⟨rfl, fun _ => trivial⟩⟩
  | some b => exact ⟨rfl, fun _ => ⟨rfl, fun _ => ⟨rfl, fun _ => trivial⟩⟩⟩

/-- Where a read ended. -/
def ReadEnd.Canceled : ReadAllOutcome ⊕ FileContents → Prop
  | .inl outcome => outcome.Canceled
  | .inr _ => False

def ChunkEnd.Canceled : ChunkEnd → Prop
  | .failed outcome => outcome.Canceled
  | .stopped .. => False

theorem readKnownSize_steady {size : ℤ} :
    Only Steady (readKnownSize path entry handle buffer size) := by
  refine .bind (steady_call rfl) fun read => .ite ?_ trivial
  exact (steady_setError ..).bind fun _ => trivial

theorem growBuffer_steady (c : ChunkState) : Only Steady (growBuffer c) := by
  refine .ite ?_ trivial
  refine .bind (steady_call rfl) fun grown => ?_
  cases grown <;> trivial

theorem readChunks_heeds (left : ℕ) (c : ChunkState) :
    HeedsFlag cancelFlag ChunkEnd.Canceled (readChunks path entry handle left c) := by
  induction left generalizing c with
  | zero => trivial
  | succ left ih =>
      refine .ite (poll_heeds ?_ ?_) trivial
      · exact fun _ _ _ => ⟨rfl, rfl⟩
      refine .behind (growBuffer_steady c) fun grown => ?_
      cases grown with
      | none => exact steady_heeds ((steady_setError ..).bind fun _ => trivial)
      | some c =>
          refine .behind (steady_call rfl) fun read => ?_
          refine .ite ?_ (.ite trivial (ih _))
          exact steady_heeds ((steady_setError ..).bind fun _ => trivial)

theorem probeEnd_steady (c : ChunkState) : Only Steady (probeEnd path entry handle c) := by
  refine .bind (steady_call rfl) fun probe => .ite ?_ (.ite ?_ trivial)
  · exact (steady_setError ..).bind fun _ => trivial
  · exact (steady_setError ..).bind fun _ => trivial

theorem readUnknownSize_heeds :
    HeedsFlag cancelFlag ReadEnd.Canceled (readUnknownSize path entry handle buffer) := by
  refine .behind (steady_call rfl) fun _ => ?_
  refine .behind (steady_call rfl) fun chunk => ?_
  cases chunk with
  | none => exact steady_heeds ((steady_setError ..).bind fun _ => trivial)
  | some chunk =>
      refine .bind (readChunks_heeds _ _) ?_ fun ended => ?_
      · rintro (outcome | ⟨c, eof⟩) hcanceled
        · exact hcanceled
        · exact hcanceled.elim
      · match ended with
        | .failed outcome => trivial
        | .stopped c true => trivial
        | .stopped c false => exact steady_heeds (probeEnd_steady c)

theorem readContents_heeds :
    HeedsFlag cancelFlag ReadEnd.Canceled (readContents path entry handle) := by
  refine .behind (steady_drivers _) fun size => .ite ?_ (.ite ?_ ?_)
  · exact steady_heeds ((steady_setError ..).bind fun _ => trivial)
  · exact steady_heeds ((steady_setError ..).bind fun _ => trivial)
  refine .behind (steady_call rfl) fun buffer => ?_
  cases buffer with
  | none => exact steady_heeds ((steady_setError ..).bind fun _ => trivial)
  | some buffer =>
      apply poll_heeds
      · exact fun _ _ _ => ⟨rfl, rfl⟩
      exact .ite (steady_heeds readKnownSize_steady) readUnknownSize_heeds

theorem finishRead_steady (file : FileContents) : Only Steady (finishRead file) := by
  refine .bind (steady_call rfl) fun answer => ?_
  cases answer with
  | none => trivial
  | some answer => exact .ite trivial (.bind (steady_call rfl) fun _ => trivial)

end

theorem vfsOpReadAll_heeds :
    HeedsFlag cancelFlag ReadAllOutcome.Canceled (vfsOpReadAll self slots path worker) := by
  refine .behind ((fileOpen_only ..).mono fun _ => OpenOp.steady) fun opened => ?_
  cases opened with
  | failed status => exact steady_heeds (.bind ⟨rfl, fun _ => trivial⟩ fun _ => trivial)
  | opened entry pluginHandle handle =>
      refine .bind readContents_heeds ?_ fun read => ?_
      · rintro (outcome | file) hcanceled
        · exact hcanceled
        · exact hcanceled.elim
      · cases read with
        | inl failure => trivial
        | inr file => exact steady_heeds ((steady_drivers _).bind fun _ => finishRead_steady file)

/-! ## Every operation -/

theorem vfsOpMount_steady {rounds : ℕ} : Only Steady (vfsOpMount self slots rounds path) := by
  refine .bind (steady_drivers _) fun result => ?_
  cases result with
  | none => trivial
  | some result =>
      refine .bind ?_ fun _ => trivial
      cases result with
      | failed error => exact .bind (steady_call rfl) fun _ => trivial
      | resolved entry handle =>
          refine .bind (steady_drivers _) fun handles => ?_
          have hstore : ∀ (watching : Bool) (sourcePath : FlString), Only Steady (do
              if watching ∧ entry.plugin.name = "LocalFS".toList then
                let watcher ← perform (.fileWatcherStart sourcePath)
                onMount (.storeRoot entry handles watcher)
              else onMount (.storeRoot entry handles 0)
              pure VFS_STATE_SUCCESS) := by
            intro watching sourcePath
            refine .ite ?_ ?_
            · refine .bind (steady_call rfl) fun watcher => ?_
              exact .bind (steady_call rfl) fun _ => trivial
            · exact .bind (steady_call rfl) fun _ => trivial
          split_ifs
          · refine .bind (steady_drivers _) fun _ => ?_
            exact .bind (steady_call rfl) fun watching => hstore watching.1 watching.2
          · exact .bind (steady_call rfl) fun watching => hstore watching.1 watching.2

end

section
variable {self : VfsState} {slots : ℕ} {Score : Type} [LinearOrder Score] {matcher : Matcher Score}
variable {worker : ℕ}

theorem stops_done {A : Type} {ψ : A → Prop} {a : A} (h : ψ a) :
    Stops cancelRequested (fun _ => True) ψ (Program.done a) := h

theorem vfsOpFile_heeds {op : VfsHandleData} {transfer : HandlePtr → OpsProgram ℤ}
    {ψ : Option Stored → Prop}
    (htransfer : ∀ file, Only (fun op => cancelRequested op = none) (transfer file)) :
    HeedsFlag cancelRequested ψ (do
      let result ← vfsOpFile op transfer
      pure (some (Completion.stored result))) := by
  apply heeds_of_only
  refine .bind ?_ fun _ => trivial
  refine .bind (only_call rfl) fun file => ?_
  split
  · trivial
  · exact (htransfer _).bind fun _ => trivial

theorem body_heeds (operation : Operation) :
    HeedsFlag cancelRequested Canceled (operation.body self slots matcher worker) := by
  cases operation with
  | mount rounds path =>
      refine .bind (ψ := fun _ => False) (heeds_onMounts (steady_heeds vfsOpMount_steady)) nofun ?_
      exact fun _ => trivial
  | list path needle =>
      refine .bind (heeds_onMounts vfsOpList_heeds) (fun outcome h => ?_) fun _ => trivial
      refine stops_done ⟨_, rfl, h.1, ?_, rfl⟩
      rintro p ⟨⟩
      exact h.2
  | fileOpen path flags =>
      refine .bind (ψ := fun _ => False) (heeds_onMounts (steady_heeds ?_)) nofun fun _ => trivial
      exact (fileOpen_only ..).mono fun _ => OpenOp.steady
  | fileRead op => exact vfsOpFile_heeds fun file => only_call rfl
  | fileWrite op => exact vfsOpFile_heeds fun file => only_call rfl
  | readAll path =>
      refine .bind (heeds_onMounts vfsOpReadAll_heeds) (fun outcome h => ?_) fun _ => trivial
      refine stops_done ⟨_, rfl, h.1, ?_, rfl⟩
      rintro p ⟨⟩
      exact h.2

/-- A canceled operation calls no driver, and no more than the callback of a read. -/
theorem canceled_stops (operation : Operation) :
    Stops cancelRequested (fun op => ¬ CallsDriver op) Canceled operation.canceled := by
  have hdone : Canceled (some { errorStatus := VFS_ERROR_CANCELED }) := ⟨_, rfl, rfl, nofun, rfl⟩
  unfold Operation.canceled
  split_ifs
  · exact ⟨id, fun _ _ => hdone⟩
  · exact hdone

theorem execute_stops (operation : Operation) :
    Stops cancelRequested (fun op => ¬ CallsDriver op) Canceled
      (operation.execute self slots matcher worker) := by
  refine ⟨id, fun r hr => ?_⟩
  have hup : r = true := hr _ rfl
  subst hup
  exact canceled_stops operation

theorem execute_heeds (operation : Operation) :
    HeedsFlag cancelRequested Canceled (operation.execute self slots matcher worker) := by
  refine ⟨?_, fun r hr => ?_⟩
  · rintro x ⟨⟩
    exact (canceled_stops operation).weaken
  · have hdown : r = false := hr _ rfl
    subst hdown
    exact body_heeds operation

/-- At whatever moment an operation is canceled, in whatever world: it ends as without the
cancel, or canceled. -/
theorem cancel_sound {S : Type} (world : Handler ops S) (operation : Operation) (s : S)
    (moment : ℕ) :
    let run := fun moment => Program.execute (timed cancelRequested world moment)
      (operation.execute self slots matcher worker) (s, [])
    CancelledAt moment ((run (some moment)).1, (run (some moment)).2.2)
      ((run none).1, (run none).2.2) := by
  intro run
  have hheeds : HeedsFlag cancelRequested Canceled (operation.execute self slots matcher worker) :=
    execute_heeds operation
  have hstops : Stops cancelRequested (fun op => ¬ CallsDriver op) Canceled
      (operation.execute self slots matcher worker) := execute_stops operation
  obtain ⟨hresult, hseen⟩ := hheeds.execute world (some moment) s []
  refine ⟨hresult, hseen, ?_⟩
  rintro rfl op hop
  have hraised : Raised (some 0) ([] : List ops.Op).length := Nat.le_refl 0
  obtain ⟨-, hops⟩ := hstops.execute world s [] hraised
  obtain ⟨l₁, l₂, hlog⟩ := List.append_of_mem hop
  exact hops op l₂ ⟨l₁, hlog.symm⟩ List.nil_suffix

end

end FlowiVfs.Tree
