import FlowiVfs.Operations
import FlowiVfs.ReadContents
import FlowiVfs.Readiness

/-!
# The two completion channels of an operation

A finished operation is asked for its status with `vfs_get_status`, and for its payload
with `vfs_get_data` or `vfs_get_file_list`, which fall back on the status where there is
no payload. The drivers, the allocator, cancellation and the lookup of a file handle
answer as they like; what the callback of a read returned is kept.
-/
namespace FlowiVfs.Tree

open Program

/-- What the callback was given and what it returned, oldest first. -/
abbrev CallbackLog := List (Option BufferPtr × CallbackResult)

/-- Every reply is possible. -/
def Answered : Environment vfs CallbackLog := fun log op r log' =>
  match op, r with
  | .callback data _, some answer => log' = log ++ [(data, answer)]
  | _, _ => log' = log

def AnsweredOps : Environment ops CallbackLog := withFiles Answered

/-- The handle holds what an operation stored. -/
def HoldsResult (d : VfsHandleData) (r : Stored) : Prop :=
  d.errorStatus = r.errorStatus ∧
    d.resultData.map (fun x => x.success) = r.resultData.map Payload.success

section
variable (self : VfsState) (slots : ℕ)
variable {Score : Type} [LinearOrder Score] (matcher : Matcher Score)

/-- How the operation of a handle ended, with what its callback returned. -/
inductive Ended (d : VfsHandleData) : CallbackLog → Prop
  | ran (worker : ℕ) (operation : Operation) (stored : Stored) (answers : CallbackLog)
      (type : operation.opType = d.opType)
      (run : Run AnsweredOps (operation.execute self slots matcher worker) [] (some stored) answers)
      (holds : HoldsResult d stored) : Ended d answers
  /-- A read or write that was chained on a worker onto an unfinished one. -/
  | refused (status : d.errorStatus = VFS_ERROR_WOULD_BLOCK) (empty : d.resultData = none) :
      Ended d []

end

/-- A callback that was given the contents of a file succeeded. -/
def CallbackSucceeds (answers : CallbackLog) : Prop :=
  ∀ x ∈ answers, x.1 ≠ none → x.2.success = true

/-! ## Statuses -/

/-- The status and the success of a result agree. -/
def Accords (status : VfsOpStatus) (success : Bool) : Prop := vfsIsSuccess status = success

theorem accords_success : Accords VFS_STATE_SUCCESS true := by
  unfold Accords
  decide

theorem accords_mount : Accords VFS_ERROR_MOUNT false := by
  unfold Accords
  decide

theorem accords_path : Accords VFS_ERROR_PATH false := by
  unfold Accords
  decide

/-- `VFS_ERROR_DRIVER`, `VFS_ERROR_READ` and `VFS_ERROR_FILE_NOT_FOUND` are one status. -/
theorem accords_driver : Accords VFS_ERROR_DRIVER false := by
  unfold Accords
  decide

theorem accords_canceled : Accords VFS_ERROR_CANCELED false := by
  unfold Accords
  decide

theorem fileOpResult_accords (op : VfsHandleData) (n : ℤ) :
    ∀ r ∈ (fileOpResult op n).resultData, Accords (fileOpResult op n).status r.success := by
  intro r hr
  unfold fileOpResult at hr ⊢
  split_ifs at hr ⊢
  · cases hr
  · cases hr
    exact accords_success
  · cases hr
  · cases hr
    exact accords_success

section
variable {self : VfsState} {slots : ℕ} {Score : Type} [LinearOrder Score] {matcher : Matcher Score}
variable {path needle : FlString} {worker : ℕ}

theorem finishList_accords {node : NodePtr} :
    Returns (fun o => Accords o.status o.success) (finishList matcher path needle node) := by
  intro canceled
  cases canceled with
  | true => exact accords_canceled
  | false => exact fun _ _ => accords_success

theorem vfsOpList_accords :
    Returns (fun o => Accords o.status o.success)
      (vfsOpList self slots matcher path needle worker) := by
  refine .bind (p := onMount (.rootDriver worker)) fun root => .ite accords_mount ?_
  refine .bind fun walk => ?_
  split
  · refine .ite accords_driver ?_
    exact .bind fun reported => .bind fun _ => finishList_accords
  · exact accords_path

/-- A file open that fails. -/
def OpenOutcome.Accords : OpenOutcome → Prop
  | failed status => Tree.Accords status false
  | opened .. => True

theorem vfsOpFileOpen_accords {flags : ℕ} :
    Returns OpenOutcome.Accords (vfsOpFileOpen self slots path flags worker) := by
  refine .bind (p := onMount (.rootDriver worker)) fun root => .ite accords_mount ?_
  refine .bind fun walk => ?_
  split
  · refine .bind (p := onMount .loadOptions) fun options => .bind fun opened => ?_
    cases opened.handle with
    | none => exact accords_driver
    | some handle => trivial
  · exact accords_driver

/-! ## The read of a whole file -/

def ReadAllOutcome.Fails (outcome : ReadAllOutcome) : Prop :=
  Accords outcome.status false ∧ outcome.success = false

section
variable {entry : PluginEntry} {handle : DriverPtr} {buffer : BufferPtr}

theorem readAllSetError_fails (buffer : Option BufferPtr) (message : ErrorMessage) :
    Returns ReadAllOutcome.Fails (readAllSetError entry handle buffer message) := by
  cases buffer with
  | none => exact fun _ _ => ⟨accords_driver, rfl⟩
  | some b => exact fun _ _ _ => ⟨accords_driver, rfl⟩

/-- Where a read ended: with a failure, or with what was read. -/
def ReadFails : ReadAllOutcome ⊕ FileContents → Prop
  | .inl outcome => outcome.Fails
  | .inr _ => True

def ChunkEnd.Fails : ChunkEnd → Prop
  | .failed outcome => outcome.Fails
  | .stopped .. => True

theorem setError_readFails (buffer : Option BufferPtr) (message : ErrorMessage) :
    Returns ReadFails (do
      let failure ← readAllSetError entry handle buffer message
      pure (.inl failure)) :=
  (readAllSetError_fails buffer message).andThen fun _ h => h

theorem readKnownSize_fails {size : ℤ} :
    Returns ReadFails (readKnownSize path entry handle buffer size) := by
  exact .bind fun read => .ite (setError_readFails _ _) trivial

theorem readChunks_fails (left : ℕ) (c : ChunkState) :
    Returns ChunkEnd.Fails (readChunks path entry handle left c) := by
  have hfailed : ∀ buffer message, Returns ChunkEnd.Fails (do
      let outcome ← readAllSetError entry handle (some buffer) message
      pure (.failed outcome)) :=
    fun buffer message => (readAllSetError_fails _ message).andThen fun _ h => h
  induction left generalizing c with
  | zero => trivial
  | succ left ih =>
      refine .ite (.bind (p := shouldCancel) fun canceled => .ite ?_ ?_) trivial
      · exact fun _ _ _ => ⟨accords_canceled, rfl⟩
      refine .bind (p := growBuffer c) fun grown => ?_
      cases grown with
      | none => exact hfailed _ _
      | some c => exact .bind fun read => .ite (hfailed _ _) (.ite trivial (ih _))

theorem probeEnd_fails (c : ChunkState) : Returns ReadFails (probeEnd path entry handle c) := by
  exact .bind fun probe => .ite (setError_readFails _ _) (.ite (setError_readFails _ _) trivial)

theorem readUnknownSize_fails : Returns ReadFails (readUnknownSize path entry handle buffer) := by
  intro _ chunk
  cases chunk with
  | none => exact setError_readFails _ _
  | some chunk =>
      refine (readChunks_fails _ _).andThen fun ended h => ?_
      match ended with
      | .failed outcome => exact h
      | .stopped c true => trivial
      | .stopped c false => exact probeEnd_fails c

theorem readContents_fails : Returns ReadFails (readContents path entry handle) := by
  refine .bind fun size => .ite (setError_readFails _ _) (.ite (setError_readFails _ _) ?_)
  refine .bind fun buffer => ?_
  cases buffer with
  | none => exact setError_readFails _ _
  | some buffer =>
      refine .bind (p := shouldCancel) fun canceled => .ite ?_ ?_
      · exact fun _ _ _ => ⟨accords_canceled, rfl⟩
      · exact .ite readKnownSize_fails readUnknownSize_fails

end

/-! ## The callback -/

/-- Operations that do not give the callback the contents of a file. -/
def KeepsContents : VfsOp → Prop
  | .callback (some _) _ => False
  | _ => True

theorem WalkOp.keepsContents {op : VfsOp} (h : WalkOp op) : KeepsContents op := by
  cases op with
  | callback => exact h.elim
  | _ => trivial

theorem OpenOp.keepsContents {op : VfsOp} (h : OpenOp op) : KeepsContents op := by
  cases op with
  | callback => exact absurd h id
  | _ => trivial

theorem ReadOp.keepsContents {op : VfsOp} (h : ReadOp op) : KeepsContents op := by
  cases op with
  | callback data size =>
      cases (h : data = none)
      trivial
  | _ => trivial

/-- The callback was not given the contents of a file. -/
def Quiet (log : CallbackLog) : Prop := ∀ x ∈ log, x.1 = none

variable {log log' : CallbackLog}

theorem Quiet.succeeds (h : Quiet log) : CallbackSucceeds log :=
  fun x hx hne => absurd (h x hx) hne

theorem Quiet.run {A : Type} {p : VfsProgram A} {a : A} (h : Quiet log)
    (only : Only KeepsContents p) (run : Run Answered p log a log') : Quiet log' := by
  refine only.keeps run (I := Quiet) ?_ h
  intro u op r v hop hu answer
  cases op with
  | callback data size =>
      cases data with
      | some b => exact absurd hop id
      | none =>
          cases r with
          | none =>
              cases (answer : v = u)
              exact hu
          | some result =>
              cases (answer : v = u ++ [(none, result)])
              intro x hx
              rcases List.mem_append.mp hx with hx | hx
              · exact hu x hx
              · exact List.mem_singleton.mp hx ▸ rfl
  | _ =>
      cases (answer : v = u)
      exact hu

/-- The status of a read that reached the callback is a success, whatever the callback said. -/
theorem finishRead_accords {file : FileContents} {outcome : ReadAllOutcome}
    (run : Run Answered (finishRead file) log outcome log') (h : Quiet log) :
    Accords outcome.status outcome.success ↔ CallbackSucceeds log' := by
  unfold finishRead at run
  obtain ⟨answer, log₁, hcall, hrest⟩ := run_bind.mp run
  have hanswer := run_call.mp hcall
  cases answer with
  | none =>
      cases (hanswer : log₁ = log)
      obtain ⟨rfl, rfl⟩ := run_done.mp hrest
      exact iff_of_true accords_success h.succeeds
  | some answer =>
      cases (hanswer : log₁ = log ++ [(some file.buffer, answer)])
      have hsucceeds : CallbackSucceeds (log ++ [(some file.buffer, answer)]) ↔
          answer.success = true := by
        constructor
        · exact fun hs => hs (some file.buffer, answer) (by simp) (by simp)
        · intro hs x hx hne
          rcases List.mem_append.mp hx with hx | hx
          · exact absurd (h x hx) hne
          · exact List.mem_singleton.mp hx ▸ hs
      have haccords : Accords VFS_STATE_SUCCESS answer.success ↔ answer.success = true := eq_comm
      simp only at hrest
      split_ifs at hrest
      · obtain ⟨rfl, rfl⟩ := run_done.mp hrest
        exact haccords.trans hsucceeds.symm
      · obtain ⟨_, log₂, hfree, hrest⟩ := run_perform.mp hrest
        cases (hfree : log₂ = _)
        obtain ⟨rfl, rfl⟩ := run_done.mp hrest
        exact haccords.trans hsucceeds.symm

theorem vfsOpReadAll_accords {outcome : ReadAllOutcome}
    (run : Run Answered (vfsOpReadAll self slots path worker) log outcome log') (h : Quiet log) :
    Accords outcome.status outcome.success ↔ CallbackSucceeds log' := by
  obtain ⟨opened, log₁, hopen, hrest⟩ := run_bind.mp run
  have hopened : opened.Accords := vfsOpFileOpen_accords.run hopen
  have h₁ := h.run ((fileOpen_only ..).mono fun _ => OpenOp.keepsContents) hopen
  cases opened with
  | failed status =>
      obtain ⟨_, log₂, hnotify, hrest⟩ := run_bind.mp hrest
      have h₂ := h₁.run (p := readAllNotifyFailure) ⟨trivial, fun _ => trivial⟩ hnotify
      obtain ⟨rfl, rfl⟩ := run_done.mp hrest
      exact iff_of_true hopened h₂.succeeds
  | opened entry pluginHandle handle =>
      obtain ⟨read, log₂, hread, hrest⟩ := run_bind.mp hrest
      have h₂ := h₁.run (readContents_reads.mono fun _ => ReadOp.keepsContents) hread
      have hfails := readContents_fails.run hread
      cases read with
      | inl failure =>
          obtain ⟨rfl, rfl⟩ := run_done.mp hrest
          refine iff_of_true ?_ h₂.succeeds
          rw [hfails.2]
          exact hfails.1
      | inr file =>
          obtain ⟨_, log₃, hclose, hrest⟩ := run_bind.mp hrest
          have h₃ := h₂.run (only_onDrivers (fun _ => trivial) _) hclose
          exact finishRead_accords hrest h₃

/-! ## Every operation -/

/-- What an operation stored agrees with its status, where it stored a payload. -/
def Stored.Accords (r : Stored) : Prop :=
  ∀ p ∈ r.resultData, Tree.Accords r.errorStatus p.success

theorem vfsOpFile_accords {op : VfsHandleData} {transfer : HandlePtr → OpsProgram ℤ} :
    Returns (fun r => (Completion.stored r).Accords) (vfsOpFile op transfer) := by
  refine .bind fun file => ?_
  split
  · rintro p ⟨⟩
  · refine .bind fun bytes p hp => ?_
    obtain ⟨r, hr, rfl⟩ := Option.map_eq_some_iff.mp hp
    exact fileOpResult_accords op bytes r hr

/-- An operation on an open file has no callback. -/
theorem vfsOpFile_quiet {op : VfsHandleData} {transfer : HandlePtr → OpsProgram ℤ} {r : Completion}
    (htransfer : ∀ f, Only (fun op => ∃ c : FileCall, op = Sum.inr c) (transfer f))
    (run : Run AnsweredOps (vfsOpFile op transfer) log r log') : log' = log := by
  have only : Only (fun op => ∃ c : FileCall, op = Sum.inr c) (vfsOpFile op transfer) := by
    refine .bind (only_call ⟨_, rfl⟩) fun file => ?_
    split
    · trivial
    · exact (htransfer _).bind fun _ => trivial
  refine only.keeps run (I := fun l => l = log) ?_ rfl
  rintro u _ r v ⟨c, rfl⟩ hu answer
  cases (answer : v = u)
  exact hu

theorem body_accords {operation : Operation} (hne : operation.opType ≠ .mount) {r : Stored}
    (run : Run AnsweredOps (operation.body self slots matcher worker) log (some r) log')
    (h : Quiet log) : r.Accords ↔ CallbackSucceeds log' := by
  cases operation with
  | mount => exact absurd rfl hne
  | list path needle =>
      obtain ⟨outcome, log₁, hbody, hdone⟩ := run_bind.mp run
      obtain ⟨heq, rfl⟩ := run_done.mp hdone
      cases heq
      have hbody := run_onMounts.mp hbody
      have hquiet : Only KeepsContents (vfsOpList self slots matcher path needle worker) := by
        refine .bind (p := onMount (.rootDriver worker)) ⟨trivial, fun _ => trivial⟩ fun root =>
          .ite trivial ?_
        refine ((walk_only self slots path worker true).mono fun _ => WalkOp.keepsContents).bind
          fun walk => ?_
        split
        · refine .ite trivial ((only_onDrivers (fun _ => trivial) _).bind fun reported => ?_)
          refine ((enumerate_only ..).mono fun op hop => ?_).bind fun _ => ?_
          · cases op with
            | callback => exact absurd hop id
            | _ => trivial
          · refine ⟨trivial, fun canceled => .ite trivial ?_⟩
            exact ⟨trivial, fun _ => ⟨trivial, fun _ => trivial⟩⟩
        · trivial
      refine iff_of_true ?_ (h.run hquiet hbody).succeeds
      rintro p ⟨⟩
      exact vfsOpList_accords.run hbody
  | fileOpen path flags =>
      obtain ⟨outcome, log₁, hbody, hdone⟩ := run_bind.mp run
      obtain ⟨heq, rfl⟩ := run_done.mp hdone
      cases heq
      have hbody := run_onMounts.mp hbody
      have hquiet := h.run ((fileOpen_only ..).mono fun _ => OpenOp.keepsContents) hbody
      refine iff_of_true ?_ hquiet.succeeds
      cases outcome <;> rintro p ⟨⟩
  | fileRead op =>
      obtain ⟨outcome, log₁, hbody, hdone⟩ := run_bind.mp run
      obtain ⟨heq, rfl⟩ := run_done.mp hdone
      cases heq
      have hsame := vfsOpFile_quiet (fun _ => only_call ⟨_, rfl⟩) hbody
      exact iff_of_true (vfsOpFile_accords.run hbody) (hsame ▸ h.succeeds)
  | fileWrite op =>
      obtain ⟨outcome, log₁, hbody, hdone⟩ := run_bind.mp run
      obtain ⟨heq, rfl⟩ := run_done.mp hdone
      cases heq
      have hsame := vfsOpFile_quiet (fun _ => only_call ⟨_, rfl⟩) hbody
      exact iff_of_true (vfsOpFile_accords.run hbody) (hsame ▸ h.succeeds)
  | readAll path =>
      obtain ⟨outcome, log₁, hbody, hdone⟩ := run_bind.mp run
      obtain ⟨heq, rfl⟩ := run_done.mp hdone
      cases heq
      have hread := vfsOpReadAll_accords (run_onMounts.mp hbody) h
      rw [← hread]
      constructor
      · exact fun hs => hs (.data outcome) rfl
      · rintro hs p ⟨⟩
        exact hs

theorem canceled_quiet {operation : Operation} {r : Option Stored}
    (run : Run AnsweredOps operation.canceled log r log') (h : Quiet log) :
    Quiet log' ∧ r = some { errorStatus := VFS_ERROR_CANCELED } := by
  unfold Operation.canceled at run
  split_ifs at run
  · obtain ⟨_, log₁, hnotify, hdone⟩ := run_bind.mp run
    obtain ⟨rfl, rfl⟩ := run_done.mp hdone
    exact ⟨h.run (p := readAllNotifyFailure) ⟨trivial, fun _ => trivial⟩ (run_onMounts.mp hnotify),
      rfl⟩
  · obtain ⟨rfl, rfl⟩ := run_done.mp run
    exact ⟨h, rfl⟩

theorem execute_accords {operation : Operation} (hne : operation.opType ≠ .mount) {r : Stored}
    (run : Run AnsweredOps (operation.execute self slots matcher worker) log (some r) log')
    (h : Quiet log) : r.Accords ↔ CallbackSucceeds log' := by
  obtain ⟨canceled, log₁, hpoll, hrest⟩ := run_bind.mp run
  have h₁ := h.run (p := shouldCancel) ⟨trivial, fun _ => trivial⟩ (run_onMounts.mp hpoll)
  cases canceled with
  | true =>
      obtain ⟨hquiet, heq⟩ := canceled_quiet hrest h₁
      cases heq
      exact iff_of_true nofun hquiet.succeeds
  | false => exact body_accords hne hrest h₁

/-- Once an operation is over, status and payload of its handle agree exactly if its callback,
where it was given the contents of the file, succeeded. -/
theorem channels_agree_iff {s : FlowiVfs.VfsState} {h : FlVfsHandle} {p : HandlePtr}
    {d : VfsHandleData} {answers : CallbackLog} (hlookup : s.lookupOpenHandle h = some (p, d))
    (hready : vfsIsReady s h = true) (hne : d.opType ≠ .mount)
    (hended : Ended self slots matcher d answers) :
    (vfsIsSuccess (vfsGetStatus s h) = true ↔
      (if d.opType = .mountList then vfsGetFileList s h else vfsGetData s h).success = true) ↔
      CallbackSucceeds answers := by
  obtain ⟨hstatus, hdata⟩ := answers_ready hlookup hready
  have hpayload : (if d.opType = .mountList then vfsGetFileList s h else vfsGetData s h) =
      d.resultData.getD ⟨vfsIsSuccess d.errorStatus, 0⟩ := by
    rw [vfsGetFileList, vfsGetData, ite_self, hdata]
  rw [hstatus, hpayload]
  cases hended with
  | refused status empty =>
      rw [empty]
      exact iff_of_true Iff.rfl nofun
  | ran worker operation stored _ type run holds =>
      rw [← execute_accords (type ▸ hne) run nofun, holds.1]
      have hresult := holds.2
      cases hd : d.resultData with
      | none =>
          rw [hd] at hresult
          have hnone : stored.resultData = none := by
            simpa using hresult.symm
          refine iff_of_true Iff.rfl ?_
          unfold Stored.Accords
          rw [hnone]
          exact nofun
      | some x =>
          rw [hd] at hresult
          obtain ⟨q, hq, hsuccess⟩ := Option.map_eq_some_iff.mp hresult.symm
          have haccords : stored.Accords ↔ Tree.Accords stored.errorStatus q.success := by
            constructor
            · exact fun hs => hs q hq
            · intro hs q' hq'
              rw [hq] at hq'
              cases hq'
              exact hs
          rw [haccords, hsuccess, Option.getD_some]
          exact Bool.eq_iff_iff.symm

end

/-! ### A file of two bytes whose callback succeeds or fails -/

/-- A read of the whole file `f`, whose callback returns the data it was given. -/
theorem twoBytes_answered {Score : Type} [LinearOrder Score] (matcher : Matcher Score)
    (success : Bool) :
    Run AnsweredOps (Operation.execute ⟨[plainDriver], letters⟩ 1 matcher 0 (.readAll ['f'])) []
      (some (ReadAllOutcome.stored
        { status := VFS_STATE_SUCCESS
          data := some 0
          contents := [1, 2]
          size := 2
          success := success })) [(some 0, ⟨some 0, 2, success⟩)] := by
  refine .perform (r := false) rfl ?_
  refine .perform (r := ((0 : ℕ), (⟨some plainDriver, some 0⟩ : DriverView))) rfl ?_
  refine .perform (r := ((0 : ℕ), (⟨some plainDriver, some 0⟩ : DriverView))) rfl ?_
  refine .perform (r := ({} : MountOptions)) rfl ?_
  refine .perform (r := (⟨some 1, false, false⟩ : OpenResult)) rfl ?_
  refine .perform (r := (2 : ℤ)) rfl ?_
  refine .perform (r := some (0 : ℕ)) rfl ?_
  refine .perform (r := false) rfl ?_
  refine .perform (r := (⟨2, [1, 2]⟩ : ReadResult)) rfl ?_
  refine .perform (r := ()) rfl ?_
  have hcallback : AnsweredOps [] (.inl (.callback (some 0) 2))
      (some ⟨some 0, 2, success⟩ : Option CallbackResult) [(some 0, ⟨some 0, 2, success⟩)] := rfl
  exact .perform hcallback (.done _ _)

/-- The same read in the handle system, from `vfs_init` on. -/
theorem twoBytes_finished (success : Bool) : ∃ s p d,
    Transition.Reaches step Disciplined .init s ∧ s.lookupOpenHandle 2 = some (p, d) ∧
      vfsIsReady s 2 = true ∧ d.opType = .readAll ∧ d.errorStatus = VFS_STATE_SUCCESS ∧
      d.resultData.map (fun r => r.success) = some success := by
  let actions := [.start .main .mountOpen] ++ callSteps 0 3 ++ jobRuns 1 completed ++
    [.start .main (.readAll ⟨0, true, false, FL_VFS_HANDLE_INVALID⟩)] ++ callSteps 1 3 ++
    jobRuns 2 ⟨VFS_STATE_SUCCESS, some ⟨success, 2⟩, none, none, 0, success_final⟩
  have hrun : ((Transition.replay step Disciplined actions .init).map fun s =>
      (vfsIsReady s 2, (s.lookupOpenHandle 2).map fun r =>
        (r.2.opType, r.2.errorStatus, r.2.resultData.map fun r => r.success))) =
      some (true, some (.readAll, VFS_STATE_SUCCESS, some success)) := by
    cases success <;> decide +kernel
  obtain ⟨s, hs, hfacts⟩ := Option.map_eq_some_iff.mp hrun
  simp only [Prod.mk.injEq] at hfacts
  obtain ⟨⟨p, d⟩, hl, hd⟩ := Option.map_eq_some_iff.mp hfacts.2
  simp only [Prod.mk.injEq] at hd
  exact ⟨s, p, d, Transition.replay_reaches _ hs, hl, hfacts.1, hd⟩

theorem twoBytes_ended {d : VfsHandleData} (success : Bool) (htype : d.opType = .readAll)
    (hstatus : d.errorStatus = VFS_STATE_SUCCESS)
    (hdata : d.resultData.map (fun r => r.success) = some success) :
    Ended ⟨[plainDriver], letters⟩ 1 (⟨fun _ _ => true, fun _ _ => 0⟩ : Matcher ℕ) d
      [(some 0, ⟨some 0, 2, success⟩)] :=
  .ran 0 (.readAll ['f']) _ _ htype.symm (twoBytes_answered _ success) ⟨hstatus, hdata⟩

theorem channels_agree_two_bytes : ∃ s, Transition.Reaches step Disciplined .init s ∧
    vfsIsReady s 2 = true ∧
    (vfsIsSuccess (vfsGetStatus s 2) = true ↔ (vfsGetData s 2).success = true) := by
  obtain ⟨s, p, d, hs, hl, hready, htype, hstatus, hdata⟩ := twoBytes_finished true
  have hiff := channels_agree_iff hl hready (by simp [htype]) (twoBytes_ended true htype hstatus hdata)
  have hne : d.opType ≠ .mountList := by simp [htype]
  rw [if_neg hne] at hiff
  refine ⟨s, hs, hready, hiff.mpr ?_⟩
  intro x hx hsome
  rw [List.mem_singleton.mp hx]

/-- The status says success and the payload failure, where the callback failed. -/
theorem failed_callback_reported_success : ∃ s p d, Transition.Reaches step Disciplined .init s ∧
    s.lookupOpenHandle 2 = some (p, d) ∧ vfsIsReady s 2 = true ∧
    Ended ⟨[plainDriver], letters⟩ 1 (⟨fun _ _ => true, fun _ _ => 0⟩ : Matcher ℕ) d
      [(some 0, ⟨some 0, 2, false⟩)] ∧
    vfsIsSuccess (vfsGetStatus s 2) = true ∧ (vfsGetData s 2).success = false := by
  obtain ⟨s, p, d, hs, hl, hready, htype, hstatus, hdata⟩ := twoBytes_finished false
  obtain ⟨hs', hd'⟩ := answers_ready hl hready
  refine ⟨s, p, d, hs, hl, hready, twoBytes_ended false htype hstatus hdata, ?_, ?_⟩
  · rw [hs', hstatus]
    decide
  · obtain ⟨r, hr, hfalse⟩ := Option.map_eq_some_iff.mp hdata
    rw [vfsGetData, hd', hr]
    exact hfalse

end FlowiVfs.Tree
