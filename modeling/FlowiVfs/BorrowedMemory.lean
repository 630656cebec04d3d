import FlowiVfs.CallStack
import FlowiVfs.HandleLifetime
import FlowiVfs.JobWaits

/-!
# Memory lent to reads and writes

`vfs_read`, `vfs_write` and `vfs_write_no_copy` run against memory that is theirs only until
their handle is closed. So `vfs_close` of such a handle may not be deferred: on the main
thread it waits for the job, on a worker it is refused while the job is unfinished. Whether
it waits is decided by what is found under the id when the close starts. An id that changes
hands in between does no harm: while the main thread is at the end of a close it starts
nothing else, and what the workers start has run when they record it.
-/
namespace FlowiVfs

open Transition

/-- The id of a `vfs_close` that has found another operation than a read or write. -/
def Instr.defers : Instr → Option FlVfsHandle
  | .closeFinish h false => some h
  | _ => none

/-- Points that make a read or write. -/
def Instr.lends : Instr → Bool
  | .chainAlloc _ _ _ _ _ _ => true
  | _ => false

/-- The handle a point is to write to, other than the read or write it makes. -/
def Instr.worksOn : Instr → Option HandlePtr
  | .schedule p | .inlineOp p _ _ | .mountSchedule _ p | .mountInline _ p _ => some p
  | .dispatchSchedule _ p | .dispatchInline _ p _ _ | .dispatchRecord _ p _ => some p
  | .chainAlloc _ file _ _ _ _ | .chainUnwind _ file | .chainRun _ file _ _ _
  | .chainInline _ file _ _ | .chainPublish _ file _ _ => some file
  | _ => none

/-- Calls of the public functions allocate no reads and writes directly. -/
def Instr.OwnMemory : Instr → Prop
  | .allocOp params => vfsOpBorrowsCallerMemory params.opType = false
  | _ => True

/-- All jobs of the handle have finished: nothing touches what its operation runs against. -/
def OperationOver (s : VfsState) (p : HandlePtr) : Prop :=
  ∀ j k, s.jobs j = some k → k.target = p → k.phase.isFinished = true

/-! ## What bodies do to the handles -/

/-- No job is recorded on the handle. -/
def VfsHandleData.NoJob (d : VfsHandleData) : Prop := d.jobHandle = 0 ∧ d.lastJob = 0

/-- What thread `t` at `i` may make of a handle: it marks it as closed only at the end of a
close that has not waited, and only the main thread records a job on a read or write. -/
structure LendFrom (t : Thread) (i : Instr) (d d' : VfsHandleData) : Prop where
  id : d'.id = d.id
  op : d'.opType = d.opType
  closed : d'.closed = d.closed ∨ (t = .main ∧ i.defers = some d.id ∧
    ¬ (d.pendingDispatches = 0 ∧ d.NoJob))
  jobs : vfsOpBorrowsCallerMemory d.opType = true → t ≠ .main →
    (d'.jobHandle = d.jobHandle ∧ d'.lastJob = d.lastJob) ∨ d'.NoJob

structure LendFrame (t : Thread) (i : Instr) (s s' : VfsState) : Prop where
  ptr : s.nextPtr ≤ s'.nextPtr
  handles : ∀ p d', s'.pool p = some d' →
    (s.nextPtr ≤ p ∧ d'.closed = false ∧ d'.NoJob ∧
      (vfsOpBorrowsCallerMemory d'.opType = true → i.lends = true)) ∨
    ∃ d, s.pool p = some d ∧ LendFrom t i d d'

section Bodies

variable {s s' s'' : VfsState} {F new : List Instr} {i x : Instr} {p : HandlePtr}
  {d : VfsHandleData} {h : FlVfsHandle} {c : ℕ} {t : Thread} {sched : Sched}
  {f : VfsHandleData → VfsHandleData}

theorem VfsHandleData.NoJob.finished (hd : d.NoJob) : vfsJobsFinished s d.handleJobs = true := by
  simp [vfsJobsFinished, VfsHandleData.handleJobs, vfsHandleJobs, hd.1, hd.2]

theorem LendFrom.refl (d : VfsHandleData) : LendFrom t i d d :=
  ⟨rfl, rfl, .inl rfl, fun _ _ => .inl ⟨rfl, rfl⟩⟩

theorem LendFrame.same (hpool : s'.pool = s.pool) (hptr : s'.nextPtr = s.nextPtr) :
    LendFrame t i s s' where
  ptr := Nat.le_of_eq hptr.symm
  handles _ d' hd' := .inr ⟨d', hpool ▸ hd', .refl d'⟩

theorem LendFrame.emit {e : Event} (hL : LendFrame t i s s') : LendFrame t i s (s'.emit e) :=
  ⟨hL.ptr, hL.handles⟩

/-- A write to one handle, after scheduling perhaps. -/
theorem LendFrame.write (hpool : s'.pool = s.pool) (hptr : s'.nextPtr = s.nextPtr)
    (hf : KeepsIdentity f) (hclosed : ∀ d, (f d).closed = d.closed)
    (hjobs : ∀ d, s.pool p = some d → vfsOpBorrowsCallerMemory d.opType = true → t ≠ .main →
      ((f d).jobHandle = d.jobHandle ∧ (f d).lastJob = d.lastJob) ∨ (f d).NoJob) :
    LendFrame t i s (s'.modify p f) where
  ptr := Nat.le_of_eq hptr.symm
  handles q d' hd' := by
    rcases modify_some hd' with ⟨rfl, d, hd, rfl⟩ | ⟨-, hd⟩
    · rw [hpool] at hd
      exact .inr ⟨d, hd, (hf d).1, (hf d).2.2, .inl (hclosed d), hjobs d hd⟩
    · exact .inr ⟨d', hpool ▸ hd, .refl d'⟩

/-- A write to fields that say nothing of jobs. -/
theorem LendFrame.touch (hf : KeepsIdentity f) (hclosed : ∀ d, (f d).closed = d.closed)
    (hjobs : ∀ d, (f d).jobHandle = d.jobHandle ∧ (f d).lastJob = d.lastJob) :
    LendFrame t i s (s.modify p f) :=
  .write rfl rfl hf hclosed fun d _ _ _ => .inl (hjobs d)

/-- A write to the job fields of another operation than a read or write. -/
theorem LendFrame.others (hother : ∀ d, s.pool p = some d → vfsOpBorrowsCallerMemory d.opType = false)
    (hpool : s'.pool = s.pool) (hptr : s'.nextPtr = s.nextPtr)
    (hf : KeepsIdentity f) (hclosed : ∀ d, (f d).closed = d.closed) :
    LendFrame t i s (s'.modify p f) := by
  refine .write hpool hptr hf hclosed fun d hd hb => ?_
  rw [hother d hd] at hb
  cases hb

theorem LendFrame.alloc {params : VfsOpParams} (halloc : allocateHandle s params = some (p, s'))
    (hlends : vfsOpBorrowsCallerMemory params.opType = true → i.lends = true) :
    LendFrame t i s s' := by
  obtain ⟨rfl, -, hpool, hptr, -⟩ := allocateHandle_some halloc
  refine ⟨by rw [hptr]; exact Nat.le_succ _, fun q d' hd' => ?_⟩
  rw [hpool, Function.update_apply] at hd'
  split_ifs at hd' with hq
  · cases hd'
    exact .inl ⟨Nat.le_of_eq hq.symm, rfl, ⟨rfl, rfl⟩, hlends⟩
  · exact .inr ⟨d', hd', .refl d'⟩

theorem LendFrame.sweep (h : Sweep s s') : LendFrame t i s s' where
  ptr := Nat.le_of_eq h.nextPtr.symm
  handles p d' hd' := .inr ⟨d', (h.kept p d' hd').1, .refl d'⟩

theorem LendFrame.closeFinish {borrows : Bool} (hI : Inv s F) :
    LendFrame t (.closeFinish h borrows) s (FlowiVfs.closeFinish s t h borrows).1 := by
  unfold FlowiVfs.closeFinish
  split
  · exact .same rfl rfl
  · rename_i p d hl
    obtain ⟨hmap, hd, -⟩ := (VfsState.lookupOpenHandle_some p).mp hl
    obtain ⟨d', hd', hid⟩ := hI.mapped h p hmap
    rw [hd] at hd'
    cases hd'
    split_ifs with hidle hmain hborrows
    · have hT : Table (s.emit (.closed p)) := (hI.emit (by simp) (by simp)).toTable
      have hsweep := Sweep.free .closed hT (p := p) hd (by rw [hid]; exact hmap) (idle_iff.mpr hidle)
      exact ⟨Nat.le_of_eq hsweep.nextPtr.symm, fun q e he =>
        .inr ⟨e, (hsweep.kept q e he).1, .refl e⟩⟩
    · exact .same rfl rfl
    · exact .same rfl rfl
    · refine ⟨le_rfl, fun q e he => ?_⟩
      rcases modify_some he with ⟨rfl, e', he', rfl⟩ | ⟨-, he⟩
      · rw [show s.pool q = some d from hd] at he'
        cases he'
        refine .inr ⟨d, hd, rfl, rfl, .inr ⟨not_not.mp hmain, ?_, fun hnone =>
          hidle ⟨hnone.1, hnone.2.finished⟩⟩, fun _ _ => .inl ⟨rfl, rfl⟩⟩
        cases borrows with
        | true => exact absurd rfl hborrows
        | false => rw [hid]; rfl
      · exact .inr ⟨e, he, .refl e⟩

/-- The operation made by `vfs_chain_file_op` is filled in. -/
theorem LendFrame.filled {params : VfsFileOpParams} (hL : LendFrame t i s s') :
    LendFrame t i s (s'.modify p (chainFill h params)) where
  ptr := hL.ptr
  handles q d' hd' := by
    rcases modify_some hd' with ⟨rfl, d, hd, rfl⟩ | ⟨-, hd⟩
    · rcases hL.handles q d hd with hfresh | ⟨e, he, hfrom⟩
      · exact .inl hfresh
      · exact .inr ⟨e, he, hfrom.id, hfrom.op, hfrom.closed, hfrom.jobs⟩
    · exact hL.handles q d' hd

/-- What `i` is to write to is no read or write. -/
def Instr.Aloof (s : VfsState) (i : Instr) : Prop :=
  ∀ p, i.worksOn = some p → ∀ d, s.pool p = some d → vfsOpBorrowsCallerMemory d.opType = false

theorem LaunchExec.lends (hx : LaunchExec s t i s' new) (hown : i.OwnMemory)
    (hother : i.Aloof s) : LendFrame t i s s' := by
  cases hx with
  | refused | prepareRefused => exact .same rfl rfl
  | allocated known halloc =>
      refine .alloc halloc fun hb => ?_
      rw [show vfsOpBorrowsCallerMemory _ = false from hown] at hb
      cases hb
  | prepared known halloc => exact .emit (.alloc halloc fun hb => by cases hb)
  | queued hd hm => exact .others (hother _ rfl) rfl rfl (fun _ => ⟨rfl, rfl, rfl⟩) fun _ => rfl
  | inlined hd hm worker free hr => exact .same rfl rfl
  | ran finished => exact .others (hother _ rfl) rfl rfl (fun _ => ⟨rfl, rfl, rfl⟩) fun _ => rfl
  | @published p =>
      obtain ⟨hpool, -, hptr, -⟩ := vfsPublishHandle_core s p
      exact .same hpool hptr

theorem MountExec.lends (hx : MountExec s t i s' new) (hother : i.Aloof s) :
    LendFrame t i s s' := by
  cases hx with
  | opened lock halloc =>
      have hborn : LendFrame t .mountOpen { s with
          nextMount := s.nextMount + 1, mountList := s.mountList ++ [s.nextMount] } s' :=
        .alloc halloc fun hb => by cases hb
      exact ⟨hborn.ptr, hborn.handles⟩
  | inlined worker => exact .same rfl rfl
  | queued main => exact .others (hother _ rfl) rfl rfl (fun _ => ⟨rfl, rfl, rfl⟩) fun _ => rfl
  | ran finished => exact .others (hother _ rfl) rfl rfl (fun _ => ⟨rfl, rfl, rfl⟩) fun _ => rfl
  | @published m p j =>
      obtain ⟨hpool, -, hptr, -⟩ := vfsPublishHandle_core
        { s with mounts := Function.update s.mounts m (some ⟨j⟩) } p
      exact .same hpool hptr

theorem DispatchExec.lends (hx : DispatchExec s t i s' new) (hother : i.Aloof s) :
    LendFrame t i s s' := by
  cases hx with
  | missing | ran => exact .same rfl rfl
  | entered hl => exact .emit (.touch (fun _ => ⟨rfl, rfl, rfl⟩) (fun _ => rfl) fun _ => ⟨rfl, rfl⟩)
  | queued hd hm => exact .same rfl rfl
  | inlined hd hm worker free hr => exact .same rfl rfl
  | recorded =>
      unfold dispatchRecord
      split_ifs
      · exact .others (hother _ rfl) rfl rfl (fun _ => ⟨rfl, rfl, rfl⟩) fun _ => rfl
      · exact .same rfl rfl

theorem ChainExec.lends (hx : ChainExec s t i s' new) (hI : Inv s (i :: F))
    (hother : i.Aloof s) : LendFrame t i s s' := by
  cases hx with
  | copiedOnly | copied | refused => exact .same rfl rfl
  | entered hmap hd hopen hop =>
      exact .emit (.touch (fun _ => ⟨rfl, rfl, rfl⟩) (fun _ => rfl) fun _ => ⟨rfl, rfl⟩)
  | allocated known halloc => exact .filled (.alloc halloc fun _ => rfl)
  | unwound =>
      obtain ⟨d, -, -, -, hunwind⟩ := chainUnwind_live hI
      rw [hunwind]
      exact .touch (fun _ => ⟨rfl, rfl, rfl⟩) (fun _ => rfl) fun _ => ⟨rfl, rfl⟩
  | blocked worker pending =>
      exact .touch (fun _ => ⟨rfl, rfl, rfl⟩) (fun _ => rfl) fun _ => ⟨rfl, rfl⟩
  | inlined worker done => exact .same rfl rfl
  | queued main =>
      exact .write rfl rfl (fun _ => ⟨rfl, rfl, rfl⟩) (fun _ => rfl)
        fun _ _ _ hworker => absurd main hworker
  | ran finished =>
      exact .write rfl rfl (fun _ => ⟨rfl, rfl, rfl⟩) (fun _ => rfl) fun _ _ _ _ => .inr ⟨rfl, rfl⟩
  | @published h file p refused =>
      obtain ⟨d, op, -, -, -, -, -, hpublish⟩ := chainPublish_live hI
      have hwrite : LendFrame t (.chainPublish h file p refused) s
          (s.modify file (recordOn refused op.jobHandle)) :=
        .others (hother file rfl) rfl rfl (fun _ => ⟨rfl, rfl, rfl⟩) fun _ => rfl
      obtain ⟨hpool, -, hptr, -⟩ := vfsPublishHandle_core
        (s.modify file (recordOn refused op.jobHandle)) p
      rw [hpublish]
      exact ⟨hptr ▸ hwrite.ptr, fun q e he => hwrite.handles q e (hpool ▸ he)⟩

theorem CloseExec.lends (hx : CloseExec s c t i s' new) (hI : Inv s (i :: F)) :
    LendFrame t i s s' := by
  cases hx with
  | canceled hl => exact .touch (fun _ => ⟨rfl, rfl, rfl⟩) (fun _ => rfl) fun _ => ⟨rfl, rfl⟩
  | reclaimed => exact .sweep (sweep_reclaim (hI.drop rfl rfl))
  | closed => exact .closeFinish (hI.drop rfl rfl)
  | _ => exact .same rfl rfl

theorem TeardownExec.lends (hx : TeardownExec s c i s' new) (hI : Inv s (i :: F)) :
    LendFrame t i s s' := by
  cases hx with
  | freed => exact .sweep (Sweep.freeVictims hI List.mem_cons_self fun _ h => h)
  | _ => exact .same rfl rfl

/-- Every body. -/
theorem body_lends (hI : Inv s (i :: F)) (hown : i.OwnMemory) (hother : i.Aloof s)
    (hx : execBody s c t sched i = some (s', new)) : LendFrame t i s s' := by
  cases execBody_some hx with
  | launch h => exact h.lends hown hother
  | mount h => exact h.lends hother
  | dispatch h => exact h.lends hother
  | chain h => exact h.lends hI hother
  | close h => exact h.lends hI
  | teardown h => exact h.lends hI

theorem window_worksOn (hw : i.window = some (h, p)) : i.worksOn = some p := by
  cases i <;> simp_all [Instr.window, Instr.worksOn]

theorem worksOn_holder (hp : i.worksOn = some p) : i.owns = some p ∨ ∃ h, i.window = some (h, p) := by
  cases i <;> simp_all [Instr.window, Instr.worksOn, Instr.owns]

theorem unset_worksOn (hp : i.unset = some p) : i.worksOn = some p ∨ i.owns = some p := by
  cases i <;> simp_all [Instr.unset, Instr.worksOn, Instr.owns]

theorem worksOn_live (hI : Inv s F) (hx : x ∈ F) (hp : x.worksOn = some p) :
    ∃ d, s.pool p = some d := by
  rcases worksOn_holder hp with ho | ⟨id, hw⟩
  · obtain ⟨d, hd, -⟩ := hI.owner_private hx ho
    exact ⟨d, hd⟩
  · obtain ⟨d, hd, -⟩ := hI.window_live hx hw
    exact ⟨d, hd⟩

/-- What may come after `i` in a call. -/
structure Instr.Follows (s : VfsState) (i : Instr) (new : List Instr) (x : Instr) : Prop where
  own : x.OwnMemory
  /-- A close that will not wait is of a handle that is no read or write. -/
  defers : ∀ h, x.defers = some h → new = [x] ∧ ∃ p d, s.mapGet h = some p ∧
    s.pool p = some d ∧ vfsOpBorrowsCallerMemory d.opType = false
  worksOn : ∀ p, x.worksOn = some p → i.worksOn = some p ∨ (s.nextPtr ≤ p ∧ i.lends = false) ∨
    ∃ h d, s.lookupOpenHandle h = some (p, d) ∧ (i = .dispatch h ∨ d.opType = .fileOpen)

/-- No close begins, and the call works on what it worked on. -/
theorem follows_quiet (hnew : ∀ x ∈ new, x.OwnMemory ∧ x.defers = none ∧
    (x.worksOn = none ∨ x.worksOn = i.worksOn)) : ∀ x ∈ new, i.Follows s new x := by
  intro x hx
  obtain ⟨hown, hdefers, hworks⟩ := hnew x hx
  refine ⟨hown, fun h he => ?_, fun p he => .inl ?_⟩
  · rw [hdefers] at he
    cases he
  · rcases hworks with hnone | hsame
    · rw [hnone] at he
      cases he
    · exact hsame ▸ he

theorem follows_born {y : Instr} (hown : y.OwnMemory) (hdefers : y.defers = none)
    (hp : y.worksOn = some p) (hfresh : s.nextPtr ≤ p) (hlends : i.lends = false) :
    ∀ x ∈ [y], i.Follows s [y] x := by
  intro x hx
  rw [List.mem_singleton.mp hx]
  refine ⟨hown, fun h he => ?_, fun q hq => .inr (.inl ⟨?_, hlends⟩)⟩
  · rw [hdefers] at he
    cases he
  · rw [hp] at hq
    cases hq
    exact hfresh

theorem follows_window {y : Instr} (hown : y.OwnMemory) (hdefers : y.defers = none)
    (hp : y.worksOn = some p) (hl : s.lookupOpenHandle h = some (p, d))
    (hkind : i = .dispatch h ∨ d.opType = .fileOpen) : ∀ x ∈ [y], i.Follows s [y] x := by
  intro x hx
  rw [List.mem_singleton.mp hx]
  refine ⟨hown, fun h he => ?_, fun q hq => .inr (.inr ⟨h, d, ?_, hkind⟩)⟩
  · rw [hdefers] at he
    cases he
  · rw [hp] at hq
    cases hq
    exact hl

theorem LaunchExec.follows (hx : LaunchExec s t i s' new) : ∀ x ∈ new, i.Follows s new x := by
  cases hx with
  | allocated known halloc =>
      exact follows_born trivial rfl rfl (Nat.le_of_eq (allocateHandle_some halloc).1.symm) rfl
  | _ => exact follows_quiet (by simp [Instr.OwnMemory, Instr.defers, Instr.worksOn])

theorem MountExec.follows (hx : MountExec s t i s' new) : ∀ x ∈ new, i.Follows s new x := by
  cases hx with
  | opened lock halloc => exact follows_born trivial rfl rfl le_rfl rfl
  | _ => exact follows_quiet (by simp [Instr.OwnMemory, Instr.defers, Instr.worksOn])

theorem DispatchExec.follows (hx : DispatchExec s t i s' new) :
    ∀ x ∈ new, i.Follows s new x := by
  cases hx with
  | entered hl => exact follows_window trivial rfl rfl hl (.inl rfl)
  | _ => exact follows_quiet (by simp [Instr.OwnMemory, Instr.defers, Instr.worksOn])

theorem ChainExec.follows (hx : ChainExec s t i s' new) : ∀ x ∈ new, i.Follows s new x := by
  cases hx with
  | entered hmap hd hopen hop =>
      exact follows_window trivial rfl rfl
        ((VfsState.lookupOpenHandle_some _).mpr ⟨hmap, hd, hopen⟩) (.inr hop)
  | _ => exact follows_quiet (by simp [Instr.OwnMemory, Instr.defers, Instr.worksOn])

theorem CloseExec.follows (hx : CloseExec s c t i s' new) : ∀ x ∈ new, i.Follows s new x := by
  cases hx with
  | closePlain hl plain =>
      intro x hx
      obtain ⟨hmap, hd, -⟩ := (VfsState.lookupOpenHandle_some _).mp hl
      rw [List.mem_singleton.mp hx]
      refine ⟨trivial, fun h' he => ?_, fun q hq => ?_⟩
      · cases he
        exact ⟨rfl, _, _, hmap, hd, plain⟩
      · cases hq
  | _ => exact follows_quiet (by simp [Instr.OwnMemory, Instr.defers, Instr.worksOn])

theorem TeardownExec.follows (hx : TeardownExec s c i s' new) :
    ∀ x ∈ new, i.Follows s new x := by
  cases hx <;> exact follows_quiet (by simp [Instr.OwnMemory, Instr.defers, Instr.worksOn])

theorem body_follows (hx : execBody s c t sched i = some (s', new)) :
    ∀ x ∈ new, i.Follows s new x := by
  cases execBody_some hx with
  | launch h => exact h.follows
  | mount h => exact h.follows
  | dispatch h => exact h.follows
  | chain h => exact h.follows
  | close h => exact h.follows
  | teardown h => exact h.follows

end Bodies

/-! ## Reads and writes are never closed while they run -/

structure LendInv (s : VfsState) (F : List Instr) : Prop where
  opened : ∀ p d, s.pool p = some d → vfsOpBorrowsCallerMemory d.opType = true → d.closed = false
  worksOn : ∀ x ∈ F, ∀ p, x.worksOn = some p → ∀ d, s.pool p = some d →
    vfsOpBorrowsCallerMemory d.opType = false
  own : ∀ x ∈ F, x.OwnMemory

/-- The reads and writes of id `h` have no job recorded. -/
def Unqueued (s : VfsState) (h : FlVfsHandle) : Prop :=
  ∀ p d, s.pool p = some d → d.id = h → vfsOpBorrowsCallerMemory d.opType = true → d.NoJob

section Invariant

variable {s s' : VfsState} {F G new rest : List Instr} {i x : Instr} {p : HandlePtr}
  {d : VfsHandleData} {h : FlVfsHandle} {c : ℕ} {t : Thread} {sched : Sched} {j : FlJobHandle}
  {k : Job} {phase : JobPhase} {g : VfsHandleData → VfsHandleData} {es : List Event} {a : Action}

theorem LendInv.perm (hL : LendInv s F) (hp : F.Perm G) : LendInv s G where
  opened := hL.opened
  worksOn x hx := hL.worksOn x (hp.mem_iff.mpr hx)
  own x hx := hL.own x (hp.mem_iff.mpr hx)

theorem LendInv.of_same (s' : VfsState) (hL : LendInv s F) (hpool : s'.pool = s.pool) :
    LendInv s' F where
  opened := by rw [hpool]; exact hL.opened
  worksOn := by rw [hpool]; exact hL.worksOn
  own := hL.own

theorem LendInv.frame (hL : LendInv s (i :: F)) (hI : Inv s (i :: F))
    (hx : execBody s c t sched i = some (s', new)) : LendFrame t i s s' :=
  body_lends hI (hL.own i List.mem_cons_self) (hL.worksOn i List.mem_cons_self) hx

/-- No window is open on a read or write. -/
theorem LendInv.pending (hL : LendInv s F) (hI : Inv s F) (hd : s.pool p = some d)
    (hb : vfsOpBorrowsCallerMemory d.opType = true) : d.pendingDispatches = 0 := by
  have hcount := hI.windows p
  simp only [pendingAt, hd] at hcount
  by_contra hne
  have hopen : 0 < openWindows F p := by omega
  obtain ⟨x, hx, id, hw⟩ := exists_window hopen
  rw [hL.worksOn x hx p (window_worksOn hw) d hd] at hb
  cases hb

theorem LendInv.body (hL : LendInv s (i :: F)) (hI : Inv s (i :: F)) (hD : i.Disciplined s F)
    (hU : ∀ h, t = .main → i.defers = some h → Unqueued s h)
    (hx : execBody s c t sched i = some (s', new)) : LendInv s' (new ++ F) := by
  have hhead : i ∈ i :: F := List.mem_cons_self
  have hframe := hL.frame hI hx
  have hnext := body_follows hx
  refine ⟨fun p d' hd' hb => ?_, fun x hx p hp d' hd' => ?_, fun x hx => ?_⟩
  · rcases hframe.handles p d' hd' with ⟨-, hclosed, -⟩ | ⟨d, hd, hfrom⟩
    · exact hclosed
    · rw [hfrom.op] at hb
      rcases hfrom.closed with hclosed | ⟨hmain, hdefers, hbusy⟩
      · exact hclosed.trans (hL.opened p d hd hb)
      · exact absurd ⟨hL.pending hI hd hb, hU d.id hmain hdefers p d hd rfl hb⟩ hbusy
  · by_contra hb
    have hb : vfsOpBorrowsCallerMemory d'.opType = true := by simpa using hb
    -- a handle the call works on is no read or write before the step
    have hold : p < s.nextPtr → (∀ d, s.pool p = some d → vfsOpBorrowsCallerMemory d.opType = false) →
        False := by
      intro hbound hother
      rcases hframe.handles p d' hd' with ⟨hfresh, -⟩ | ⟨d, hd, hfrom⟩
      · exact absurd hbound (Nat.not_lt.mpr hfresh)
      · rw [hfrom.op, hother d hd] at hb
        cases hb
    have hworking : ∀ y ∈ i :: F, y.worksOn = some p → False := by
      intro y hy hworks
      obtain ⟨d, hd⟩ := worksOn_live hI hy hworks
      exact hold (hI.poolBound p d hd) (hL.worksOn y hy p hworks)
    rcases List.mem_append.mp hx with hx | hx
    · rcases (hnext x hx).worksOn p hp with hworks | ⟨hfresh, hlends⟩ | ⟨h, e, hl, hkind⟩
      · exact hworking i hhead hworks
      · rcases hframe.handles p d' hd' with ⟨-, -, -, hmakes⟩ | ⟨d, hd, -⟩
        · rw [hmakes hb] at hlends
          cases hlends
        · exact absurd (hI.poolBound p d hd) (Nat.not_lt.mpr hfresh)
      · obtain ⟨-, he, -⟩ := (VfsState.lookupOpenHandle_some p).mp hl
        refine hold (hI.poolBound p e he) fun d hd => ?_
        rw [he] at hd
        cases hd
        rcases hkind with rfl | hfile
        · rw [(hI.prepared p (hD (p, e) hl).1 e he).1]
          rfl
        · rw [hfile]
          rfl
    · exact hworking x (List.mem_cons_of_mem i hx) hp
  · rcases List.mem_append.mp hx with hx | hx
    · exact (hnext x hx).own
    · exact hL.own x (List.mem_cons_of_mem i hx)

theorem JobMove.recorded (hm : JobMove s j k d phase g es) :
    ∀ e, (g e).closed = e.closed ∧ (g e).jobHandle = e.jobHandle ∧ (g e).lastJob = e.lastJob := by
  intro e
  cases hm <;> exact ⟨rfl, rfl, rfl⟩

theorem LendFrame.jobMove (hm : JobMove s j k d phase g es) (t : Thread) (i : Instr) :
    LendFrame t i s (afterMove s j p phase g es) := by
  have hwritten : LendFrame t i s (s.modify p g) :=
    .touch hm.keeps.1 (fun e => (hm.recorded e).1) fun e => (hm.recorded e).2
  exact ⟨hwritten.ptr, hwritten.handles⟩

theorem LendInv.jobMove (hL : LendInv s F) (hm : JobMove s j k d phase g es) :
    LendInv (afterMove s j p phase g es) F := by
  have hframe := LendFrame.jobMove (p := p) hm .main .reclaim
  have hold : ∀ q d', (afterMove s j p phase g es).pool q = some d' →
      ∃ d, s.pool q = some d ∧ d'.opType = d.opType ∧ d'.closed = d.closed := by
    intro q d' hd'
    rcases modify_some hd' with ⟨rfl, d, hd, rfl⟩ | ⟨-, hd⟩
    · exact ⟨d, hd, (hm.keeps.1 d).2.2, (hm.recorded d).1⟩
    · exact ⟨d', hd, rfl, rfl⟩
  refine ⟨fun q d' hd' hb => ?_, fun x hx q hp d' hd' => ?_, hL.own⟩
  · obtain ⟨d, hd, hop, hclosed⟩ := hold q d' hd'
    exact hclosed.trans (hL.opened q d hd (hop ▸ hb))
  · obtain ⟨d, hd, hop, -⟩ := hold q d' hd'
    exact hop ▸ hL.worksOn x hx q hp d hd

theorem Request.program_lends (request : Request) :
    ∀ x ∈ request.program, x.OwnMemory ∧ x.defers = none ∧ x.worksOn = none := by
  intro x hx
  cases request with
  | read h size =>
      simp only [Request.program, vfsRead] at hx
      split_ifs at hx
      · cases hx
      · rw [List.mem_singleton.mp hx]
        exact ⟨trivial, rfl, rfl⟩
  | write h size =>
      simp only [Request.program, vfsWrite] at hx
      split_ifs at hx
      · cases hx
      · rw [List.mem_singleton.mp hx]
        exact ⟨trivial, rfl, rfl⟩
  | writeNoCopy h buffer size =>
      simp only [Request.program, vfsWriteInternal] at hx
      split_ifs at hx
      · cases hx
      · rw [List.mem_singleton.mp hx]
        exact ⟨trivial, rfl, rfl⟩
  | dispatch h | cancel h | wait h =>
      simp only [Request.program] at hx
      split_ifs at hx
      · cases hx
      · rw [List.mem_singleton.mp hx]
        exact ⟨trivial, rfl, rfl⟩
  | close h =>
      simp only [Request.program, vfsClose] at hx
      split_ifs at hx
      · cases hx
      · simp only [List.mem_cons, List.not_mem_nil, or_false] at hx
        rcases hx with rfl | rfl <;> exact ⟨trivial, rfl, rfl⟩
  | destroy | waitAll =>
      simp only [Request.program, vfsWaitAll, List.mem_append, List.mem_cons, List.not_mem_nil,
        or_false] at hx
      rcases hx with (rfl | rfl) | rfl <;> exact ⟨trivial, rfl, rfl⟩
  | mountOpen | listing | openFile | readAll | prepare | update | mountClose =>
      simp only [Request.program, List.mem_singleton] at hx
      subst hx
      exact ⟨by trivial, rfl, rfl⟩

/-- While a close of the main thread that will not wait is under way no read or write of
its id gets a job recorded. -/
structure Closes (s : VfsState) : Prop where
  tails : ∀ k ∈ s.calls, ∀ x ∈ k.todo.tail, x.defers = none
  heads : ∀ (c : ℕ) (h : FlVfsHandle) (rest : List Instr),
    s.calls[c]? = some ⟨.main, .closeFinish h false :: rest⟩ → Unqueued s h

theorem Unqueued.worker (hU : Unqueued s h) (hF : LendFrame t i s s') (ht : t ≠ .main) :
    Unqueued s' h := by
  intro p d' hd' hid hb
  rcases hF.handles p d' hd' with ⟨-, -, hnone, -⟩ | ⟨d, hd, hfrom⟩
  · exact hnone
  · have hborrows : vfsOpBorrowsCallerMemory d.opType = true := hfrom.op ▸ hb
    rcases hfrom.jobs hborrows ht with ⟨hjob, hlast⟩ | hnone
    · obtain ⟨hjob', hlast'⟩ := hU p d hd (hfrom.id ▸ hid) hborrows
      exact ⟨hjob.trans hjob', hlast.trans hlast'⟩
    · exact hnone

/-- The id of another operation is that of no read or write, a new one apart. -/
theorem Unqueued.other {q : HandlePtr} {e : VfsHandleData} (hT : Table s) (hF : LendFrame t i s s')
    (hmap : s.mapGet h = some q) (he : s.pool q = some e)
    (hother : vfsOpBorrowsCallerMemory e.opType = false) : Unqueued s' h := by
  obtain ⟨e', he', hid'⟩ := hT.mapped h q hmap
  rw [he] at he'
  cases he'
  intro p d' hd' hid hb
  rcases hF.handles p d' hd' with ⟨-, -, hnone, -⟩ | ⟨d, hd, hfrom⟩
  · exact hnone
  · obtain rfl := hT.distinct p q d e hd he ((hfrom.id ▸ hid).trans hid'.symm)
    rw [hd] at he
    cases he
    rw [hfrom.op, hother] at hb
    cases hb

/-- Only the newest unfinished call of a thread moves, and one at the end of a close is not in
code of the caller. -/
theorem closing_alone (hS : Stacked s.calls) {n : ℕ} {y : Instr} {rest' : List Instr}
    (hc : s.calls[c]? = some ⟨.main, .closeFinish h false :: rest⟩)
    (hn : s.calls[n]? = some ⟨t, y :: rest'⟩) (htop : s.onTop n t = true) (hne : c ≠ n) :
    t ≠ .main := by
  rintro rfl
  rcases Nat.lt_or_gt_of_ne hne with hlt | hlt
  · have hout := hS.below c n _ _ hlt hc hn rfl (by simp)
    simp [Call.callsOut, Instr.callsOut] at hout
  · unfold VfsState.onTop at htop
    have hmem : (⟨.main, .closeFinish h false :: rest⟩ : Call) ∈ s.calls.drop (n + 1) := by
      rw [List.mem_iff_getElem?]
      refine ⟨c - (n + 1), ?_⟩
      rw [List.getElem?_drop, show n + 1 + (c - (n + 1)) = c by omega]
      exact hc
    have hover := List.all_eq_true.mp htop _ hmem
    simp at hover

theorem Closes.step (hC : Closes s) (hL : LendInv s s.frames) (hI : Inv s s.frames)
    (hS : Stacked s.calls) (hstep : FlowiVfs.step s a = some s') : Closes s' := by
  cases a with
  | start t request =>
      simp only [FlowiVfs.step] at hstep
      split_ifs at hstep
      cases hstep
      have hnew := request.program_lends
      refine ⟨fun k hk x hx => ?_, fun c h rest hc => ?_⟩
      · rcases List.mem_append.mp hk with hk | hk
        · exact hC.tails k hk x hx
        · rw [List.mem_singleton.mp hk] at hx
          exact (hnew x (List.mem_of_mem_tail hx)).2.1
      · rcases List.mem_append.mp (List.mem_of_getElem? hc) with hk | hk
        · obtain ⟨n, hn⟩ := List.mem_iff_getElem?.mp hk
          exact hC.heads n h rest hn
        · obtain ⟨rfl, htodo⟩ := Call.mk.inj (List.mem_singleton.mp hk)
          have hnone := (hnew (.closeFinish h false) (by rw [← htodo]; simp)).2.1
          cases hnone
  | job j input =>
      simp only [FlowiVfs.step] at hstep
      split_ifs at hstep
      obtain ⟨k, d, phase, f, es, -, -, hm, rfl⟩ := jobStep_cases hstep
      refine ⟨hC.tails, fun c h rest hc => ?_⟩
      exact (hC.heads c h rest hc).worker (.jobMove hm (.worker 0) .reclaim) (by simp)
  | exec n sched =>
      obtain ⟨t, i, rest, s₁, new, hc, htop, -, hexec, rfl⟩ := step_exec hstep
      obtain ⟨F, hF, -⟩ := flatMap_set_todo new hc
      obtain ⟨s₀, s₂, hbody, hlock⟩ := exec_body hexec
      have hframe : LendFrame t i s { s₁ with calls := s.calls.set n ⟨t, new ++ rest⟩ } := by
        rcases hlock with ⟨-, rfl, rfl⟩ | ⟨-, rfl, rfl⟩
        · have hI₀ : Inv (s.emit (.lock n)) (i :: F) := (hI.perm hF).emit (by simp) (by simp)
          have hL₀ : LendInv (s.emit (.lock n)) (i :: F) := (hL.perm hF).of_same _ rfl
          have hbodied := hL₀.frame hI₀ hbody
          exact ⟨hbodied.ptr, hbodied.handles⟩
        · have hbodied := (hL.perm hF).frame (hI.perm hF) hbody
          exact ⟨hbodied.ptr, hbodied.handles⟩
      have hnext : ∀ x ∈ new, i.Follows s new x := by
        have hfollows := body_follows hbody
        rcases hlock with ⟨-, rfl, rfl⟩ | ⟨-, rfl, rfl⟩
        · exact fun x hx => ⟨(hfollows x hx).own, (hfollows x hx).defers, (hfollows x hx).worksOn⟩
        · exact hfollows
      have hrest : ∀ x ∈ rest, x.defers = none := fun x hx =>
        hC.tails _ (List.mem_of_getElem? hc) x (by simpa using hx)
      refine ⟨fun k hk x hx => ?_, fun c h rest' hc' => ?_⟩
      · rcases List.mem_or_eq_of_mem_set hk with hk | rfl
        · exact hC.tails k hk x hx
        · cases new with
          | nil => exact hrest x (List.mem_of_mem_tail hx)
          | cons y ys =>
              have hx : x ∈ ys ++ rest := hx
              rcases List.mem_append.mp hx with hx | hx
              · by_contra hdefers
                obtain ⟨id, hdefers⟩ := Option.ne_none_iff_exists'.mp hdefers
                obtain ⟨hsingle, -⟩ := (hnext x (List.mem_cons_of_mem y hx)).defers id hdefers
                rw [(List.cons.inj hsingle).2] at hx
                cases hx
              · exact hrest x hx
      · by_cases hcn : c = n
        · subst hcn
          rw [List.getElem?_set_self (List.getElem?_eq_some_iff.mp hc).1] at hc'
          obtain ⟨rfl, htodo⟩ := Call.mk.inj (Option.some.inj hc')
          cases new with
          | nil =>
              have hnone := hrest (.closeFinish h false) (by rw [List.nil_append] at htodo; simp [htodo])
              cases hnone
          | cons y ys =>
              obtain ⟨rfl, -⟩ := List.cons.inj htodo
              obtain ⟨-, q, e, hmap, he, hother⟩ := (hnext _ List.mem_cons_self).defers h rfl
              exact .other hI.toTable hframe hmap he hother
        · rw [List.getElem?_set_ne (Ne.symm hcn)] at hc'
          exact (hC.heads c h rest' hc').worker hframe (closing_alone hS hc' hc htop hcn)

theorem LendInv.step (hL : LendInv s s.frames) (hC : Closes s) (hI : Inv s s.frames)
    (hD : Disciplined s a) (h : FlowiVfs.step s a = some s') (hlive : s'.destroyed = false) :
    LendInv s' s'.frames := by
  refine step_rule (P := LendInv) hI hD h hlive hL (fun _ _ _ hL hp => hL.perm hp) ?_ ?_ ?_ ?_ ?_
  · exact fun s F cs hL => hL.of_same _ rfl
  · exact fun s F c e _ hL => hL.of_same _ rfl
  · intro t request _
    have hnew := request.program_lends
    refine ⟨hL.opened, fun x hx q hp => ?_, fun x hx => ?_⟩
    · rcases List.mem_append.mp hx with hx | hx
      · rw [(hnew x hx).2.2] at hp
        cases hp
      · exact hL.worksOn x hx q hp
    · rcases List.mem_append.mp hx with hx | hx
      · exact (hnew x hx).1
      · exact hL.own x hx
  · exact fun j input k d phase g es _ _ _ hm => hL.jobMove hm
  · intro c sched t i rest F s₀ s₂ new _ hc _ hs₀ hL hI hD hx _
    refine hL.body hI hD (fun id hmain hdefers => ?_) hx
    subst hmain
    have hpoint : i = .closeFinish id false := by
      cases i with
      | closeFinish h borrows =>
          cases borrows with
          | true => cases hdefers
          | false => cases hdefers; rfl
      | _ => cases hdefers
    have hU := hC.heads c id rest (hpoint ▸ hc)
    rcases hs₀ with rfl | rfl
    · exact hU
    · exact hU

end Invariant

/-! ## The handle of a read or write, from its publication on -/

/-- The read or write at `p` goes by `h` as long as it lives, gets no more jobs, and only
those of `late` are unfinished. -/
structure Lent (h : FlVfsHandle) (p : HandlePtr) (late : List FlJobHandle) (s : VfsState)
    (F : List Instr) : Prop where
  bound : p < s.nextPtr
  data : ∀ d, s.pool p = some d → s.mapGet h = some p ∧ vfsOpBorrowsCallerMemory d.opType = true
  jobs : ∀ j k, s.jobs j = some k → k.target = p → k.phase.isFinished = true ∨ j ∈ late
  unset : ∀ x ∈ F, x.unset ≠ some p
  dispatched : ¬ Undispatched s.trace p

section Lent

variable {s s' s'' : VfsState} {F G new : List Instr} {i : Instr} {p : HandlePtr}
  {d : VfsHandleData} {h : FlVfsHandle} {j : FlJobHandle} {late : List FlJobHandle}
  {k : Job} {phase : JobPhase} {g : VfsHandleData → VfsHandleData} {es : List Event} {a : Action}

theorem Lent.perm (hS : Lent h p late s F) (hp : F.Perm G) : Lent h p late s G :=
  ⟨hS.bound, hS.data, hS.jobs, fun x hx => hS.unset x (hp.mem_iff.mpr hx), hS.dispatched⟩

theorem Lent.of_same (s' : VfsState) (hS : Lent h p late s F) (hpool : s'.pool = s.pool)
    (hmap : s'.handleMap = s.handleMap) (hjobs : s'.jobs = s.jobs) (hptr : s'.nextPtr = s.nextPtr)
    (htrace : Undispatched s'.trace p ↔ Undispatched s.trace p) : Lent h p late s' F where
  bound := hptr ▸ hS.bound
  data := by
    rw [hpool, VfsState.mapGet_congr hmap]
    exact hS.data
  jobs := hjobs ▸ hS.jobs
  unset := hS.unset
  dispatched := fun hu => hS.dispatched (htrace.mp hu)

theorem Lent.work (hS : Lent h p late s (i :: F)) (hW : WorkFrame i new s s')
    {t : Thread} (hR : Retained s s') (hL : LendFrame t i s s') : Lent h p late s' (new ++ F) where
  bound := Nat.lt_of_lt_of_le hS.bound hW.ptr
  data d' hd' := by
    rcases hL.handles p d' hd' with ⟨hfresh, -⟩ | ⟨d, hd, hfrom⟩
    · exact absurd hS.bound (Nat.not_lt.mpr hfresh)
    · obtain ⟨hmap, hb⟩ := hS.data d hd
      rcases hR.keeps h p d hmap hd with ⟨-, -, hmap', -⟩ | ⟨-, hgone, -⟩
      · exact ⟨hmap', hfrom.op ▸ hb⟩
      · rw [hd'] at hgone
        cases hgone
  jobs j k hj ht := by
    rcases hW.added j k hj with hj | ⟨hu, -⟩
    · exact hS.jobs j k hj ht
    · exact absurd (ht ▸ hu) (hS.unset i List.mem_cons_self)
  unset x hx hu := by
    rcases List.mem_append.mp hx with hx | hx
    · rcases hW.unset x hx p hu with ⟨hfresh, -⟩ | hu | ⟨hund, -⟩
      · exact absurd hS.bound (Nat.not_lt.mpr hfresh)
      · exact hS.unset i List.mem_cons_self hu
      · exact hS.dispatched hund
    · exact hS.unset x (List.mem_cons_of_mem i hx) hu
  dispatched hund := by
    rcases hW.prepared p hund with hund | hfresh
    · exact hS.dispatched hund
    · exact absurd hS.bound (Nat.not_lt.mpr hfresh)

theorem Lent.jobMove (hS : Lent h p late s F) (hk : s.jobs j = some k)
    (hm : JobMove s j k d phase g es) : Lent h p late (afterMove s j k.target phase g es) F where
  bound := hS.bound
  data d' hd' := by
    rcases modify_some hd' with ⟨hp, d, hd, rfl⟩ | ⟨-, hd⟩
    · subst hp
      obtain ⟨hmap, hb⟩ := hS.data d hd
      exact ⟨hmap, (hm.keeps.1 d).2.2 ▸ hb⟩
    · exact hS.data d' hd
  jobs x k' hx ht := by
    obtain ⟨k₀, hx₀, ht₀, -, -, hother, hmoved⟩ := afterMove_back hk hx
    rcases hS.jobs x k₀ hx₀ (ht₀ ▸ ht) with hfin | hlate
    · by_cases hxj : x = j
      · rw [(hmoved hxj).1, hm.unfinished] at hfin
        cases hfin
      · exact .inl (hother hxj ▸ hfin)
    · exact .inr hlate
  unset := hS.unset
  dispatched hund := hS.dispatched (hm.undispatched.mp hund)

theorem Lent.step (hS : Lent h p late s s.frames) (hI : Inv s s.frames)
    (hL : LendInv s s.frames) (hD : Disciplined s a) (hstep : step s a = some s')
    (hlive : s'.destroyed = false) : Lent h p late s' s'.frames := by
  refine step_rule (P := Lent h p late) hI hD hstep hlive hS (fun _ _ _ hS hp => hS.perm hp)
    ?_ ?_ ?_ ?_ ?_
  · exact fun s F cs hS => hS.of_same _ rfl rfl rfl rfl Iff.rfl
  · exact fun s F c e he hS => hS.of_same _ rfl rfl rfl rfl (lock_undispatched he s p)
  · intro t request _
    refine ⟨hS.bound, hS.data, hS.jobs, fun x hx => ?_, hS.dispatched⟩
    rcases List.mem_append.mp hx with hx | hx
    · rw [program_unset request x hx]
      exact (Option.some_ne_none p).symm
    · exact hS.unset x hx
  · exact fun j input k d phase g es _ hk _ hm => hS.jobMove hk hm
  · intro c sched t i rest F s₀ s₂ new _ _ hF hs₀ hS₀ hI₀ hD₀ hx hlive₀
    have hmem : i ∈ s.frames := hF.mem_iff.mpr List.mem_cons_self
    have hframe : LendFrame t i s₀ s₂ := by
      rcases hs₀ with rfl | rfl
      · exact body_lends hI₀ (hL.own i hmem) (hL.worksOn i hmem) hx
      · exact body_lends hI₀ (hL.own i hmem) (hL.worksOn i hmem) hx
    exact hS₀.work (body_work hI₀ hD₀ hx hlive₀) (body_retained hI₀ hx hlive₀) hframe

/-- `Lent` up to the end of `vfs_destroy`, and what remains of it then. -/
def LentOn (h : FlVfsHandle) (p : HandlePtr) (late : List FlJobHandle) (s : VfsState) : Prop :=
  (s.destroyed = false → Lent h p late s s.frames) ∧
    ∀ j k, s.jobs j = some k → k.target = p → k.phase.isFinished = true ∨ j ∈ late

theorem LentOn.step (hS : LentOn h p late s) (hI : s.destroyed = false → Inv s s.frames)
    (hL : s.destroyed = false → LendInv s s.frames) (hD : Disciplined s a)
    (hstep : FlowiVfs.step s a = some s') : LentOn h p late s' := by
  cases hdead : s'.destroyed with
  | true =>
      obtain ⟨-, hjobs, -⟩ := destroyed_core hstep hdead
      refine ⟨fun hlive => ?_, hjobs ▸ hS.2⟩
      rw [hdead] at hlive
      cases hlive
  | false =>
      have hlive := step_keeps_destroyed hstep hdead
      have hnext := (hS.1 hlive).step (hI hlive) (hL hlive) hD hstep hdead
      exact ⟨fun _ => hnext, hnext.jobs⟩

/-- Once the last of its jobs has finished the operation is over for good. -/
theorem LentOn.over (hS : LentOn h p [j] s) (hj : s.jobFinished j = true) : LentOn h p [] s := by
  have hover : ∀ x k, s.jobs x = some k → k.target = p → k.phase.isFinished = true ∨ x ∈ [] := by
    intro x k hx ht
    rcases hS.2 x k hx ht with hfin | hlate
    · exact .inl hfin
    · obtain rfl := List.mem_singleton.mp hlate
      rw [VfsState.jobFinished_of hx] at hj
      exact .inl hj
  exact ⟨fun hlive => ⟨(hS.1 hlive).bound, (hS.1 hlive).data, hover, (hS.1 hlive).unset,
    (hS.1 hlive).dispatched⟩, hover⟩

theorem LentOn.operationOver (hS : LentOn h p [] s) : OperationOver s p := by
  intro j k hj ht
  rcases hS.2 j k hj ht with hfin | hlate
  · exact hfin
  · cases hlate

end Lent

/-! ## Runs -/

section Runs

variable {s s' s'' u : VfsState} {p : HandlePtr} {d : VfsHandleData} {h : FlVfsHandle}
  {late : List FlJobHandle} {j : FlJobHandle} {c : ℕ} {a : Action}

theorem lend_reaches (h : Reaches step Disciplined .init s) :
    s.destroyed = false → LendInv s s.frames ∧ Closes s := by
  refine h.invariant_of (I := fun s => (s.destroyed = false → Inv s s.frames) ∧ Stacked s.calls)
    (fun s h => ⟨inv_reaches (fun _ _ hok => hok) h, stacked_reaches h⟩)
    (P := fun s => s.destroyed = false → LendInv s s.frames ∧ Closes s) (fun _ => ⟨?_, ?_⟩) ?_
  · refine ⟨?_, ?_, ?_⟩
    all_goals simp [VfsState.init, VfsState.frames]
  · constructor
    all_goals simp [VfsState.init]
  · intro t a u hI _ hL hD hstep hlive
    have hlive' := step_keeps_destroyed hstep hlive
    obtain ⟨hlend, hcloses⟩ := hL hlive'
    exact ⟨hlend.step hcloses (hI.1 hlive') hD hstep hlive,
      hcloses.step hlend (hI.1 hlive') hI.2 hstep⟩

/-- A read or write is never marked as closed. -/
theorem never_deferred (hs : Reaches step Disciplined .init s) :
    ∀ p d, s.pool p = some d → vfsOpBorrowsCallerMemory d.opType = true → d.closed = false := by
  refine hs.invariant_of (I := fun s => s.destroyed = false → LendInv s s.frames)
    (fun s h hlive => (lend_reaches h hlive).1)
    (P := fun s => ∀ p d, s.pool p = some d → vfsOpBorrowsCallerMemory d.opType = true →
      d.closed = false) ?_ ?_
  · intro p d hd
    simp [VfsState.init] at hd
  · intro t a u hT hU hP hok hstep
    cases hdead : u.destroyed with
    | true =>
        obtain ⟨hpool, -⟩ := destroyed_core hstep hdead
        exact hpool ▸ hP
    | false => exact (hU hdead).opened

theorem lentOn_reaches (hs : Reaches step Disciplined .init s) (hrun : Reaches step Disciplined s s')
    (hS : LentOn h p late s) : LentOn h p late s' := by
  refine hrun.invariant_of
    (I := fun u => (u.destroyed = false → Inv u u.frames) ∧ (u.destroyed = false → LendInv u u.frames))
    (fun u hu => ⟨inv_reaches (fun _ _ hok => hok) (hs.trans hu), fun hlive => (lend_reaches (hs.trans hu) hlive).1⟩)
    (P := fun u => LentOn h p late u) hS ?_
  intro t a u hI _ hS hok hstep
  exact hS.step hI.1 hI.2 hok hstep

/-- The handle of a read or write that callers can name. -/
theorem lent_published (hs : Reaches step Disciplined .init s) (hlive : s.destroyed = false)
    (hd : s.pool p = some d) (hb : vfsOpBorrowsCallerMemory d.opType = true)
    (hmap : s.mapGet d.id = some p) : Lent d.id p [d.jobHandle] s s.frames := by
  have hI := inv_reaches (fun _ _ hok => hok) hs hlive
  have hL := (lend_reaches hs hlive).1
  have hunset : ∀ x ∈ s.frames, x.unset ≠ some p := by
    intro x hx hu
    rcases unset_worksOn hu with hworks | ho
    · have hother := hL.worksOn x hx p hworks d hd
      rw [hb] at hother
      cases hother
    · exact hI.mapped_not_owned hmap hx ho
  refine ⟨hI.poolBound p d hd, fun e he => ?_, fun j k hj ht => ?_, hunset, fun hund => ?_⟩
  · rw [hd] at he
    cases he
    exact ⟨hmap, hb⟩
  · by_cases hfin : k.phase.isFinished = true
    · exact .inl hfin
    · obtain ⟨e, he, hrun⟩ := hI.running j k hj (by simpa using hfin)
      rw [ht, hd] at he
      cases he
      rcases hrun with rfl | ⟨x, hx, hcarry⟩
      · exact .inr (List.mem_singleton.mpr rfl)
      · exact absurd (ht ▸ (Instr.carries_holder hcarry).1) (hunset x hx)
  · rw [(hI.prepared p hund d hd).1] at hb
    cases hb

/-- An unfinished read or write is open, under its id, with its job recorded. -/
theorem lent_running (hs : Reaches step Disciplined .init s) (hlive : s.destroyed = false)
    (hS : LentOn h p [j] s) (hnot : ¬ LentOn h p [] s) : ∃ d, s.lookupOpenHandle h = some (p, d) ∧
      vfsOpBorrowsCallerMemory d.opType = true ∧ j ∈ d.handleJobs := by
  have hI := inv_reaches (fun _ _ hok => hok) hs hlive
  obtain ⟨k, hj, ht, hfin⟩ : ∃ k, s.jobs j = some k ∧ k.target = p ∧ k.phase.isFinished = false := by
    by_contra hnone
    push Not at hnone
    have hover : ∀ x k, s.jobs x = some k → k.target = p → k.phase.isFinished = true ∨ x ∈ [] := by
      intro x k hx ht
      rcases hS.2 x k hx ht with hfin | hlate
      · exact .inl hfin
      · obtain rfl := List.mem_singleton.mp hlate
        exact .inl (by simpa using hnone k hx ht)
    have hL := hS.1 hlive
    exact hnot ⟨fun _ => ⟨hL.bound, hL.data, hover, hL.unset, hL.dispatched⟩, hover⟩
  obtain ⟨d, hd, hrun⟩ := hI.running j k hj hfin
  rw [ht] at hd
  obtain ⟨hmap, hb⟩ := (hS.1 hlive).data d hd
  refine ⟨d, (VfsState.lookupOpenHandle_some p).mpr ⟨hmap, hd, never_deferred hs p d hd hb⟩, hb, ?_⟩
  rcases hrun with hrec | ⟨x, hx, hcarry⟩
  · have hpos := (hI.jobBound j k hj).1
    simp [VfsHandleData.handleJobs, vfsHandleJobs, hrec, Nat.ne_of_gt hpos]
  · exact absurd (ht ▸ (Instr.carries_holder hcarry).1) ((hS.1 hlive).unset x hx)

/-- A `vfs_close` of the main thread before its snapshot, or in the wait after it. -/
def ClosingOn (h : FlVfsHandle) (j : FlJobHandle) (c : ℕ) (s : VfsState) : Prop :=
  (∃ todo, s.calls[c]? = some ⟨.main, todo ++ [.closeSnapshot h]⟩) ∨
    ∃ jobs, j ∈ jobs ∧ Waiting jobs c [.closeFinish h true] s

theorem closing_step (hs : Reaches step Disciplined .init s) (hS : LentOn h p [j] s)
    (hC : LentOn h p [] s ∨ ClosingOn h j c s) (hok : Disciplined s a) (hstep : step s a = some s') : LentOn h p [] s' ∨ ClosingOn h j c s' := by
  have hI := inv_reaches (fun _ _ hok => hok) hs
  by_cases hover : LentOn h p [] s
  · exact .inl (hover.step hI (fun hlive => (lend_reaches hs hlive).1) hok hstep)
  · refine .inr ?_
    rcases hC.resolve_left hover with ⟨todo, hc⟩ | ⟨jobs, hj, hW⟩
    · by_cases hmine : ∃ sched, a = .exec c sched
      · obtain ⟨sched, rfl⟩ := hmine
        cases todo with
        | cons i todo =>
            obtain ⟨s₀, s₂, new, -, -, -, -, -, hnow⟩ := call_moves hc hstep
            refine .inl ⟨new ++ todo, ?_⟩
            rw [hnow, List.append_assoc]
            rfl
        | nil =>
            have hlive : s.destroyed = false := by
              obtain ⟨t, i, rest, -, -, hc', -, houtlives, -⟩ := step_exec hstep
              rw [hc] at hc'
              cases hc'
              by_contra hdead
              cases houtlives (by simpa using hdead)
            obtain ⟨s₀, s₂, new, hs₀, hx, -, -, -, hnow⟩ := call_moves hc hstep
            obtain ⟨d, hl, hb, hj⟩ := lent_running hs hlive hS hover
            have hl₀ : s₀.lookupOpenHandle h = some (p, d) := by
              rcases hs₀ with rfl | rfl
              · exact hl
              · exact hl
            simp only [execBody, hl₀, hb, if_true] at hx
            cases hx
            exact .inr ⟨d.handleJobs, hj, .begin hnow⟩
      · exact .inl ⟨todo, call_stays hc hstep fun sched he => hmine ⟨sched, he⟩⟩
    · exact .inr ⟨jobs, hj, hW.step (jobs_kept hI hok hstep) hstep⟩

/-- In every run that keeps to the rules a read or write is never in the deferred-closed
state; when a `vfs_close` of it on the main thread has returned nothing of it is queued or
running any more; and whoever closes it while it is unfinished, it stays open. -/
theorem borrowed_memory_safe (hs : Reaches step Disciplined .init s) (hd : s.pool p = some d)
    (hb : vfsOpBorrowsCallerMemory d.opType = true) :
    d.closed = false ∧ (s.mapGet d.id = some p →
      (∀ s₁ s' s'', step s (.start .main (.close d.id)) = some s₁ → Reaches step Disciplined s₁ s' →
        s'.calls[s.calls.length]? = some ⟨.main, []⟩ → Reaches step Disciplined s' s'' →
          OperationOver s'' p) ∧
      ∀ s', Reaches step Disciplined s s' → s'.destroyed = false → ¬ OperationOver s' p →
        ∃ d', s'.lookupOpenHandle d.id = some (p, d')) := by
  refine ⟨never_deferred hs p d hd hb, fun hmap => ?_⟩
  have hlive : s.destroyed = false := by
    by_contra hdead
    rw [VfsState.mapGet, destroyed_reaches hs (by simpa using hdead)] at hmap
    simp at hmap
  have hlent := lent_published hs hlive hd hb hmap
  have hon : LentOn d.id p [d.jobHandle] s := ⟨fun _ => hlent, hlent.jobs⟩
  refine ⟨fun s₁ s' s'' hstart hrun hreturned hafter => ?_, fun s' hrun hlive' hnot => ?_⟩
  · have hs₁ : Reaches step Disciplined s s₁ :=
      .step (.start .main (.close d.id)) .start trivial hstart
    have hcall : s₁.calls[s.calls.length]? = some ⟨.main, [.reclaim, .closeSnapshot d.id]⟩ := by
      have hid := (inv_reaches (fun _ _ hok => hok) hs hlive).idNonzero p d hd
      simp only [step] at hstart
      split_ifs at hstart
      cases hstart
      rw [List.getElem?_concat_length, Request.program, vfsClose, if_neg hid]
    have hclosing : LentOn d.id p [] s' ∨ ClosingOn d.id d.jobHandle s.calls.length s' := by
      refine hrun.invariant_of (I := fun u => Reaches step Disciplined .init u ∧ LentOn d.id p [d.jobHandle] u)
        (fun u hu => ⟨(hs.trans hs₁).trans hu, lentOn_reaches hs (hs₁.trans hu) hon⟩)
        (P := fun u => LentOn d.id p [] u ∨ ClosingOn d.id d.jobHandle s.calls.length u)
        (.inr (.inl ⟨[.reclaim], hcall⟩)) ?_
      intro t a u hI _ hC hok hstep
      exact closing_step hI.1 hI.2 hC hok hstep
    have hover : LentOn d.id p [] s' := by
      rcases hclosing with hover | ⟨todo, hc⟩ | ⟨jobs, hj, hW⟩
      · exact hover
      · rw [hreturned] at hc
        simp at hc
      · exact (lentOn_reaches hs (hs₁.trans hrun) hon).over (hW.through hreturned _ hj)
    exact (lentOn_reaches ((hs.trans hs₁).trans hrun) hafter hover).operationOver
  · obtain ⟨d', hl, -⟩ := lent_running (hs.trans hrun) hlive' (lentOn_reaches hs hrun hon)
      fun hover => hnot hover.operationOver
    exact ⟨d', hl⟩

/-- A read of 10 bytes is queued when the main thread closes it; the close returns once it
has run. -/
theorem borrowed_memory_safe_read : ∃ s s', ¬ OperationOver s 2 ∧ OperationOver s' 2 ∧
    ∃ d, s.lookupOpenHandle 3 = some (2, d) := by
  let before := openFileScript ++ [.start .main (.read 2 10)] ++ callSteps 2 4
  let after := callSteps 3 3 ++ [.job 3 (.bytes 10)] ++ chainedRuns 3 10 ++ callSteps 3 4
  have hrun : ((replay step Disciplined before .init).bind fun s =>
      (step s (.start .main (.close 3))).bind fun s₁ =>
        (replay step Disciplined after s₁).map fun s' => ((s.pool 2).map fun d => (d.id, d.opType),
          decide (s.mapGet 3 = some 2 ∧ s.destroyed = false ∧ s.calls.length = 3 ∧
            (s.jobs 3).map (fun k => (k.target, k.phase.isFinished)) = some (2, false) ∧
            s'.calls[3]? = some ⟨.main, []⟩))) =
      some (some (3, .fileRead), true) := by
    decide +kernel
  obtain ⟨s, hs, hrest⟩ := Option.bind_eq_some_iff.mp hrun
  obtain ⟨s₁, hclose, hrest⟩ := Option.bind_eq_some_iff.mp hrest
  obtain ⟨s', hs', hfacts⟩ := Option.map_eq_some_iff.mp hrest
  simp only [Prod.mk.injEq, decide_eq_true_eq] at hfacts
  obtain ⟨hd, hmap, hlive, hcalls, hjob, hreturned⟩ := hfacts
  obtain ⟨d, hd, hdata⟩ := Option.map_eq_some_iff.mp hd
  obtain ⟨hid, hop⟩ := Prod.mk.injEq .. ▸ hdata
  obtain ⟨k, hk, hkdata⟩ := Option.map_eq_some_iff.mp hjob
  obtain ⟨htarget, hphase⟩ := Prod.mk.injEq .. ▸ hkdata
  have hreach := replay_reaches before hs
  have hnot : ¬ OperationOver s 2 := by
    intro hover
    have hfin := hover 3 k hk htarget
    rw [hphase] at hfin
    cases hfin
  have hborrows : vfsOpBorrowsCallerMemory d.opType = true := by
    rw [hop]
    rfl
  obtain ⟨-, hsafe⟩ := borrowed_memory_safe hreach hd hborrows
  obtain ⟨hwaits, hstays⟩ := hsafe (hid ▸ hmap)
  refine ⟨s, s', hnot, ?_, hid ▸ hstays s .start hlive hnot⟩
  exact hwaits s₁ s' s' (hid ▸ hclose) (replay_reaches after hs') (hcalls ▸ hreturned) .start

/-- A worker dispatches a read that is over once more. The main thread closes it: the close
finds the job of the first run finished, is refused and returns while the new job is queued. -/
theorem dispatched_read_outlasts_close : ∃ s s₁ s' d, Reaches step (fun _ _ => True) .init s ∧
    s.pool 2 = some d ∧ d.opType = .fileRead ∧ s.mapGet d.id = some 2 ∧
    step s (.start .main (.close d.id)) = some s₁ ∧ Reaches step (fun _ _ => True) s₁ s' ∧
    s'.calls[s.calls.length]? = some ⟨.main, []⟩ ∧ ¬ OperationOver s' 2 := by
  let before := openFileScript ++ [.start .main (.read 2 10)] ++ callSteps 2 4 ++
    [.job 3 (.bytes 10)] ++ chainedRuns 3 10 ++ [.start (.worker 0) (.dispatch 3)] ++ callSteps 3 2
  let after := callSteps 4 7
  have hrun : ((replay step (fun _ _ => True) before .init).bind fun s =>
      (step s (.start .main (.close 3))).bind fun s₁ =>
        (replay step (fun _ _ => True) after s₁).map fun s' =>
          ((s.pool 2).map fun d => (d.id, d.opType), (s'.jobs 4).map fun k => (k.target, k.phase.isFinished),
            decide (s.mapGet 3 = some 2 ∧ s.calls.length = 4 ∧
              s'.calls[4]? = some ⟨.main, []⟩))) =
      some (some (3, .fileRead), some (2, false), true) := by
    decide +kernel
  obtain ⟨s, hs, hrest⟩ := Option.bind_eq_some_iff.mp hrun
  obtain ⟨s₁, hclose, hrest⟩ := Option.bind_eq_some_iff.mp hrest
  obtain ⟨s', hs', hfacts⟩ := Option.map_eq_some_iff.mp hrest
  simp only [Prod.mk.injEq, decide_eq_true_eq] at hfacts
  obtain ⟨hd, hjob, hmap, hcalls, hreturned⟩ := hfacts
  obtain ⟨d, hd, hdata⟩ := Option.map_eq_some_iff.mp hd
  obtain ⟨hid, hop⟩ := Prod.mk.injEq .. ▸ hdata
  obtain ⟨k, hk, hkdata⟩ := Option.map_eq_some_iff.mp hjob
  obtain ⟨htarget, hphase⟩ := Prod.mk.injEq .. ▸ hkdata
  refine ⟨s, s₁, s', d, replay_reaches before hs, hd, hop, hid ▸ hmap, hid ▸ hclose,
    replay_reaches after hs', hcalls ▸ hreturned, fun hover => ?_⟩
  have hfin := hover 4 k hk htarget
  rw [hphase] at hfin
  cases hfin

end Runs

end FlowiVfs
