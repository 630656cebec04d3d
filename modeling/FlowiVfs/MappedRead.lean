import FlowiVfs.Transition
import Mathlib

/-!
# The slot of a mapped read

`Mount::read_with` boxes a transform in a slot and lends the box to the VFS: the
worker that runs the read runs the transform (`map_trampoline`) and leaves its
value in the slot, the poller takes it out, and the box is freed when the VFS runs
`map_release` for the read's handle. Three parties reach the slot through one raw
pointer: the thread that owns the mount and its reads, the worker, and whichever
thread frees the handle.

A mount and all its reads are one thread's, which launches, polls, drops and closes
one at a time. The VFS never gives the ticket of a read to another operation, so a
read is its own ticket. No user code runs under the lock of a slot, so the lock is
never poisoned and each locked section is one step.
-/
namespace FlowiVfs.MappedRead

open Transition

abbrev ReadId := ℕ

/-- `MapState`. -/
inductive MapState
  | pending
  | done
  | taken
deriving DecidableEq, Repr

/-- The job of the read, as far as `map_trampoline` has come in it. -/
inductive JobPhase
  | queued
  /-- The transform is out of the slot and runs. -/
  | running
  /-- It has returned a value, which is not in the slot yet. -/
  | computed
  /-- The callback is over, or the job ends without one. -/
  | returned
  | finished
deriving DecidableEq, Repr

/-- The read's handle in the VFS. -/
inductive HandlePhase
  | refused
  /-- Scheduled, and not in the handle map yet. -/
  | unpublished
  | registered
  /-- Closed by its owner before its job was over; a sweep will free it. -/
  | closed
  /-- Freed, with `map_release` still to run. -/
  | freed
  | released
deriving DecidableEq, Repr

/-- Where the owner is with the read. -/
inductive Owner
  | refused
  /-- In `read_with`. -/
  | launching
  /-- It has the `MappedRead`; `done` is the flag of its `Handle`. -/
  | held (done : Bool)
  /-- In `poll`: `vfs_is_ready` was true; and then `vfs_get_data` was successful. -/
  | ready
  | drained
  | dropped
deriving DecidableEq, Repr

inductive Event
  | transformRun
  | transformDropped
  | produced
  | handed
  | valueDropped
  | slotFreed
  /-- A party went through the pointer to a slot that had been freed. -/
  | fault
deriving DecidableEq, Repr

/-- One read: its slot (`none` once freed), its job and handle, what `vfs_get_data` reports,
and what happened to it, newest first. -/
structure Read where
  slot : Option MapState
  job : JobPhase
  handle : HandlePhase
  success : Bool
  owner : Owner
  log : List Event
deriving DecidableEq, Repr

/-- What happens to the state that a new one replaces. -/
def MapState.dropped : MapState → List Event
  | .pending => [.transformDropped]
  | .done => [.valueDropped]
  | .taken => []

/-- `read_with` whose launch was accepted, and whose launch was refused. -/
def Read.launched : Read := ⟨some .pending, .queued, .unpublished, false, .launching, []⟩

def Read.refused : Read :=
  ⟨none, .finished, .refused, false, .refused, [.slotFreed, .transformDropped]⟩

/-- `map_trampoline` up to the transform; `data` says that the read has succeeded so far. -/
def trampolineEnter (r : Read) : Read :=
  match r.slot with
  | none => { r with job := .returned, success := false, log := .fault :: r.log }
  | some .pending => { r with slot := some .taken, job := .running, log := .transformRun :: r.log }
  | some m =>
      { r with slot := some .taken, job := .returned, success := false, log := m.dropped ++ r.log }

/-- `map_trampoline` after the transform; a failed read stays failed whatever it reports. -/
def trampolineStore (r : Read) (data : Bool) : Read :=
  match r.slot with
  | none => { r with job := .returned, log := .fault :: .valueDropped :: r.log }
  | some m => { r with slot := some .done, job := .returned, success := data, log := m.dropped ++ r.log }

/-- `take_value`. -/
def takeValue (r : Read) : Read :=
  match r.slot with
  | none => { r with owner := .held true, log := .fault :: r.log }
  | some .done => { r with slot := some .taken, owner := .held true, log := .handed :: r.log }
  | some m => { r with slot := some .taken, owner := .held true, log := m.dropped ++ r.log }

/-- `map_release`. -/
def mapRelease (r : Read) : Read :=
  match r.slot with
  | none => { r with handle := .released, log := .fault :: r.log }
  | some m => { r with slot := none, handle := .released, log := .slotFreed :: (m.dropped ++ r.log) }

/-- `vfs_is_ready`. -/
def vfsIsReady (r : Read) : Bool := r.handle == .registered && r.job == .finished

/-- `vfs_close` of the ticket. A close before the job is over is deferred on the main thread
and refused on a worker. -/
def vfsClose (r : Read) (onMain : Bool) : Read :=
  if r.handle = .registered then
    if r.job = .finished then { r with handle := .freed }
    else if onMain then { r with handle := .closed }
    else r
  else r

inductive ReadAction
  /-- The VFS publishes the handle, and `read_with` returns. -/
  | publish
  /-- The worker: the callback, or a job that ends without it. -/
  | enter
  | skip
  | transform (panics : Bool)
  | store (data : Bool)
  | finish
  /-- `MappedRead::poll`: the check, `vfs_get_data` and `take_value`. -/
  | check
  | drain
  | take
  | drop (onMain : Bool)
  /-- A sweep frees a closed handle; the close of the mount frees a registered one. -/
  | reclaim
  | mountFree
  | release
deriving DecidableEq, Repr

/-- Actions of the owner that begin something; and what the close of the mount does. -/
def ReadAction.begins : ReadAction → Bool
  | .check | .drop _ => true
  | _ => false

/-- One step on a read. -/
def Read.step (r : Read) : ReadAction → Option Read
  | .publish => if r.owner = .launching ∧ r.handle = .unpublished then
      some { r with handle := .registered, owner := .held false } else none
  | .enter => if r.job = .queued then some (trampolineEnter r) else none
  | .skip => if r.job = .queued then some { r with job := .returned } else none
  | .transform panics => if r.job = .running then
      some (if panics then { r with job := .returned, success := false }
        else { r with job := .computed, log := .produced :: r.log }) else none
  | .store data => if r.job = .computed then some (trampolineStore r data) else none
  | .finish => if r.job = .returned then some { r with job := .finished } else none
  -- A poll after completion panics in `Handle::poll`, before it looks at anything.
  | .check => if r.owner = .held false then
      some (if vfsIsReady r then { r with owner := .ready } else r) else none
  | .drain => if r.owner = .ready then
      some (if r.handle = .registered ∧ r.success then { r with owner := .drained }
        else { r with owner := .held true }) else none
  | .take => if r.owner = .drained then some (takeValue r) else none
  | .drop onMain =>
      match r.owner with
      | .held _ => some { vfsClose r onMain with owner := .dropped }
      | _ => none
  | .reclaim => if r.handle = .closed ∧ r.job = .finished then some { r with handle := .freed }
      else none
  | .mountFree => if r.handle = .registered ∧ r.job = .finished then some { r with handle := .freed }
      else none
  | .release => if r.handle = .freed then some (mapRelease r) else none

/-- The mount and its reads. -/
structure State where
  reads : ReadId → Option Read
  nextRead : ReadId
  /-- The read that the owner is launching or polling. -/
  busy : Option ReadId
  mountOpen : Bool
  /-- The owner is in `vfs_mount_close`. -/
  closing : Bool

def State.new : State := ⟨fun _ => none, 0, none, true, false⟩

inductive Action
  | readWith (accepted : Bool)
  | act (i : ReadId) (a : ReadAction)
  | closeMount
  | mountClosed
deriving DecidableEq, Repr

/-- Where the owner is after a step on read `i`. -/
def stillBusy (r : Read) (i : ReadId) (busy : Option ReadId) : Option ReadId :=
  match r.owner with
  | .launching | .ready | .drained => some i
  | _ => if busy = some i then none else busy

def step (s : State) : Action → Option State
  | .readWith accepted =>
      if s.busy = none ∧ s.closing = false ∧ s.mountOpen = true then
        some { s with
          reads := Function.update s.reads s.nextRead (some (if accepted then .launched else .refused))
          nextRead := s.nextRead + 1
          busy := if accepted then some s.nextRead else none }
      else none
  | .act i a =>
      if (a.begins → s.busy = none ∧ s.closing = false) ∧ (a = .mountFree → s.closing = true) then
        (s.reads i).bind fun r => (r.step a).map fun r =>
          { s with reads := Function.update s.reads i (some r), busy := stillBusy r i s.busy }
      else none
  | .closeMount =>
      if s.busy = none ∧ s.closing = false ∧ s.mountOpen = true then
        some { s with mountOpen := false, closing := true }
      else none
  -- Nothing depends on the close having freed every read.
  | .mountClosed => if s.closing = true then some { s with closing := false } else none

/-! ## What is asked of a run -/

/-- The slot of a read is freed once and not used after that; the transform runs at most once,
and what it produced is handed out or dropped, once. -/
structure SlotSound (r : Read) : Prop where
  untouched : .fault ∉ r.log
  freedOnce : r.log.count .slotFreed =
    if r.handle = .released ∨ r.handle = .refused then 1 else 0
  runOnce : r.log.count .transformRun ≤ 1
  producedOnce : r.log.count .produced ≤ r.log.count .transformRun
  handedOnce : r.log.count .handed + r.log.count .valueDropped ≤ r.log.count .produced
  /-- Nothing is left over when the slot is freed. -/
  settled : r.handle = .released → r.log.count .handed + r.log.count .valueDropped =
    r.log.count .produced ∧ r.log.count .transformRun + r.log.count .transformDropped = 1
  /-- The VFS touches nothing of a refused launch. -/
  refused : r.handle = .refused → r.log = [.slotFreed, .transformDropped]

/-- What `m` still holds: the transform, and a value. -/
def MapState.closures : Option MapState → ℕ
  | some .pending => 1
  | _ => 0

def MapState.values : Option MapState → ℕ
  | some .done => 1
  | _ => 0

/-- The invariant of one read. -/
structure ReadInv (r : Read) : Prop where
  untouched : .fault ∉ r.log
  slot : r.slot = none ↔ r.handle = .released ∨ r.handle = .refused
  freedOnce : r.log.count .slotFreed = if r.slot = none then 1 else 0
  closure : r.log.count .transformRun + r.log.count .transformDropped + MapState.closures r.slot = 1
  value : r.log.count .produced = r.log.count .handed + r.log.count .valueDropped +
    MapState.values r.slot + if r.job = .computed then 1 else 0
  produced : r.log.count .produced + (if r.job = .running then 1 else 0) ≤ r.log.count .transformRun
  queued : r.job = .queued → r.slot = some .pending
  inside : r.job = .running ∨ r.job = .computed → r.slot = some .taken
  polling : r.owner = .ready ∨ r.owner = .drained → r.handle = .registered ∧ r.job = .finished
  launching : r.handle = .unpublished ↔ r.owner = .launching
  closed : r.handle = .closed → r.owner = .dropped
  jobOver : r.handle = .freed ∨ r.handle = .released ∨ r.handle = .refused → r.job = .finished
  refused : r.handle = .refused → r.log = [.slotFreed, .transformDropped]
  turnedDown : r.handle = .refused ↔ r.owner = .refused

section Reads

variable {r r' : Read} {a : ReadAction}

theorem ReadInv.sound (h : ReadInv r) : SlotSound r where
  untouched := h.untouched
  freedOnce := by rw [h.freedOnce]; simp only [h.slot]
  runOnce := by have := h.closure; omega
  producedOnce := by have := h.produced; omega
  handedOnce := by have := h.value; omega
  settled hr := by
    have hnone : r.slot = none := h.slot.mpr (.inl hr)
    have hjob : r.job = .finished := h.jobOver (.inr (.inl hr))
    have hvalue := h.value
    have hclosure := h.closure
    rw [hnone, hjob] at hvalue
    rw [hnone] at hclosure
    simp only [MapState.values, MapState.closures, reduceCtorEq, if_false] at hvalue hclosure
    omega
  refused := h.refused

theorem ReadInv.launched : ReadInv .launched := by
  refine ⟨?_, ?_, ?_, ?_, ?_, ?_, ?_, ?_, ?_, ?_, ?_, ?_, ?_, ?_⟩
  all_goals simp [Read.launched, MapState.closures, MapState.values]

theorem ReadInv.turnedDownNew : ReadInv .refused := by
  refine ⟨?_, ?_, ?_, ?_, ?_, ?_, ?_, ?_, ?_, ?_, ?_, ?_, ?_, ?_⟩
  all_goals simp [Read.refused, MapState.closures, MapState.values]

/-- Steps that leave the slot and the log alone. -/
theorem ReadInv.keep (h : ReadInv r) (hslot : r'.slot = r.slot) (hlog : r'.log = r.log)
    (hgone : r'.handle = .released ∨ r'.handle = .refused ↔ r.handle = .released ∨ r.handle = .refused)
    (hcomputed : r'.job = .computed ↔ r.job = .computed)
    (hrunning : r'.job = .running → r.job = .running) (hqueued : r'.job = .queued → r.job = .queued)
    (hpolling : r'.owner = .ready ∨ r'.owner = .drained → r'.handle = .registered ∧ r'.job = .finished)
    (hlaunching : r'.handle = .unpublished ↔ r'.owner = .launching)
    (hclosed : r'.handle = .closed → r'.owner = .dropped)
    (hover : r'.handle = .freed ∨ r'.handle = .released ∨ r'.handle = .refused → r'.job = .finished)
    (hrefused : r'.handle = .refused ↔ r.handle = .refused)
    (hturned : r'.owner = .refused ↔ r.owner = .refused) : ReadInv r' where
  untouched := hlog ▸ h.untouched
  slot := by rw [hslot, hgone]; exact h.slot
  freedOnce := by rw [hslot, hlog]; exact h.freedOnce
  closure := by rw [hslot, hlog]; exact h.closure
  value := by rw [hslot, hlog]; simp only [hcomputed]; exact h.value
  produced := by
    rw [hlog]
    have hp := h.produced
    by_cases hr : r'.job = .running
    · rw [if_pos hr]
      rwa [if_pos (hrunning hr)] at hp
    · rw [if_neg hr]
      omega
  queued hq := hslot ▸ h.queued (hqueued hq)
  inside hi := hslot ▸ h.inside (hi.imp hrunning hcomputed.mp)
  polling := hpolling
  launching := hlaunching
  closed := hclosed
  jobOver := hover
  refused hr := hlog ▸ h.refused (hrefused.mp hr)
  turnedDown := by rw [hrefused, hturned]; exact h.turnedDown

/-- The handle is not gone while the job is not over. -/
theorem ReadInv.present (h : ReadInv r) (hjob : r.job ≠ .finished) :
    r.handle ≠ .released ∧ r.handle ≠ .refused ∧ r.handle ≠ .freed ∧ r.slot ≠ none := by
  have hover := mt h.jobOver hjob
  simp only [not_or] at hover
  refine ⟨hover.2.1, hover.2.2, hover.1, fun hnone => ?_⟩
  rcases h.slot.mp hnone with hr | hr
  · exact hover.2.1 hr
  · exact hover.2.2 hr

/-- The worker takes the transform out of the slot. -/
theorem ReadInv.enter (h : ReadInv r) (hjob : r.job = .queued) : ReadInv (trampolineEnter r) := by
  have hslot := h.queued hjob
  obtain ⟨hreleased, hrefused, hfreed, -⟩ := h.present (by simp [hjob])
  have hclosure := h.closure
  have hvalue := h.value
  have hproduced := h.produced
  have honce := h.freedOnce
  simp only [hslot, hjob, MapState.closures, MapState.values, reduceCtorEq, if_false]
    at hclosure hvalue hproduced honce
  unfold trampolineEnter
  simp only [hslot]
  refine ⟨?_, ?_, ?_, ?_, ?_, ?_, ?_, ?_, ?_, ?_, ?_, ?_, ?_, ?_⟩
  · simpa using h.untouched
  · simp [hreleased, hrefused]
  · simpa using honce
  · simp only [MapState.closures, List.count_cons]
    simp
    omega
  · simpa [MapState.values] using hvalue
  · simp
    omega
  · simp
  · simp
  · intro hp
    have := (h.polling hp).2
    simp [hjob] at this
  · exact h.launching
  · exact h.closed
  · simp [hreleased, hrefused, hfreed]
  · simp [hrefused]
  · exact h.turnedDown

theorem ReadInv.transform (h : ReadInv r) (hjob : r.job = .running) (panics : Bool) :
    ReadInv (if panics then { r with job := .returned, success := false }
      else { r with job := .computed, log := .produced :: r.log }) := by
  obtain ⟨hreleased, hrefused, hfreed, -⟩ := h.present (by simp [hjob])
  have hnot : ¬ (r.owner = .ready ∨ r.owner = .drained) := by
    intro hp
    have := (h.polling hp).2
    simp [hjob] at this
  have hslot := h.inside (.inl hjob)
  cases panics with
  | true =>
      refine h.keep rfl rfl Iff.rfl ?_ ?_ ?_ ?_ h.launching h.closed ?_ Iff.rfl Iff.rfl
      · simp [hjob]
      · simp
      · simp
      · exact fun hp => absurd hp hnot
      · simp [hreleased, hrefused, hfreed]
  | false =>
      have hvalue := h.value
      have hproduced := h.produced
      have honce := h.freedOnce
      have hclosure := h.closure
      simp only [hslot, hjob, MapState.values, reduceCtorEq, if_false, if_true] at hvalue hproduced honce
      refine ⟨?_, ?_, ?_, ?_, ?_, ?_, ?_, ?_, ?_, h.launching, h.closed, ?_, ?_, h.turnedDown⟩
      · simpa using h.untouched
      · simpa using h.slot
      · simpa [hslot] using honce
      · simpa using hclosure
      · simp [hslot, MapState.values]
        omega
      · simp
        omega
      · simp
      · simpa using hslot
      · exact fun hp => absurd hp hnot
      · simp [hreleased, hrefused, hfreed]
      · simp [hrefused]

theorem ReadInv.store (h : ReadInv r) (hjob : r.job = .computed) (data : Bool) :
    ReadInv (trampolineStore r data) := by
  obtain ⟨hreleased, hrefused, hfreed, -⟩ := h.present (by simp [hjob])
  have hnot : ¬ (r.owner = .ready ∨ r.owner = .drained) := by
    intro hp
    have := (h.polling hp).2
    simp [hjob] at this
  have hslot := h.inside (.inr hjob)
  have hvalue := h.value
  have hproduced := h.produced
  have honce := h.freedOnce
  have hclosure := h.closure
  simp only [hslot, hjob, MapState.values, MapState.closures, reduceCtorEq, if_false, if_true]
    at hvalue hproduced honce hclosure
  unfold trampolineStore
  simp only [hslot, MapState.dropped, List.nil_append]
  refine ⟨h.untouched, ?_, ?_, ?_, ?_, ?_, ?_, ?_, ?_, h.launching, h.closed, ?_, ?_, h.turnedDown⟩
  · simp [hreleased, hrefused]
  · simpa using honce
  · simpa [MapState.closures] using hclosure
  · simpa [MapState.values] using hvalue
  · simpa using hproduced
  · simp
  · simp
  · exact fun hp => absurd hp hnot
  · simp [hreleased, hrefused, hfreed]
  · simp [hrefused]

/-- The poller takes what is in the slot. -/
theorem ReadInv.take (h : ReadInv r) (howner : r.owner = .drained) : ReadInv (takeValue r) := by
  obtain ⟨hhandle, hjob⟩ := h.polling (.inr howner)
  have hsome : r.slot ≠ none := by
    intro hnone
    rcases h.slot.mp hnone with hr | hr <;> simp [hhandle] at hr
  obtain ⟨m, hslot⟩ := Option.ne_none_iff_exists'.mp hsome
  have hvalue := h.value
  have hproduced := h.produced
  have honce := h.freedOnce
  have hclosure := h.closure
  simp only [hslot, hjob, reduceCtorEq, if_false] at hvalue hproduced honce hclosure
  unfold takeValue
  rw [hslot]
  cases m with
  | pending | done | taken =>
      simp only [MapState.values, MapState.closures] at hvalue hclosure
      refine ⟨?_, ?_, ?_, ?_, ?_, ?_, ?_, ?_, ?_, ?_, ?_, ?_, ?_, ?_⟩
      · simpa [MapState.dropped] using h.untouched
      · simp [hhandle]
      · simpa [MapState.dropped] using honce
      · simp [MapState.dropped, MapState.closures]
        omega
      · simp [MapState.dropped, MapState.values, hjob]
        omega
      · simp [MapState.dropped, hjob]
        omega
      · simp [hjob]
      · simp [hjob]
      · simp
      · simp [hhandle]
      · simp [hhandle]
      · simp [hhandle]
      · simp [hhandle]
      · simp [hhandle]

/-- The VFS hands the box back, and it is freed. -/
theorem ReadInv.release (h : ReadInv r) (hhandle : r.handle = .freed) : ReadInv (mapRelease r) := by
  have hjob := h.jobOver (.inl hhandle)
  have hsome : r.slot ≠ none := by
    intro hnone
    rcases h.slot.mp hnone with hr | hr <;> simp [hhandle] at hr
  obtain ⟨m, hslot⟩ := Option.ne_none_iff_exists'.mp hsome
  have hvalue := h.value
  have hproduced := h.produced
  have honce := h.freedOnce
  have hclosure := h.closure
  have hpoll : ¬ (r.owner = .ready ∨ r.owner = .drained) := by
    intro hp
    have := (h.polling hp).1
    simp [hhandle] at this
  have hlaunch : r.owner ≠ .launching := fun hl => by
    have := h.launching.mpr hl
    simp [hhandle] at this
  have hturned : r.owner ≠ .refused := fun ht => by
    have := h.turnedDown.mpr ht
    simp [hhandle] at this
  simp only [hslot, hjob, reduceCtorEq, if_false] at hvalue hproduced honce hclosure
  unfold mapRelease
  rw [hslot]
  cases m with
  | pending | done | taken =>
      simp only [MapState.values, MapState.closures] at hvalue hclosure
      refine ⟨?_, ?_, ?_, ?_, ?_, ?_, ?_, ?_, ?_, ?_, ?_, ?_, ?_, ?_⟩
      · simpa [MapState.dropped] using h.untouched
      · simp
      · simp [MapState.dropped, honce]
      · simp [MapState.dropped, MapState.closures]
        omega
      · simp [MapState.dropped, MapState.values, hjob]
        omega
      · simp [MapState.dropped, hjob]
        omega
      · simp [hjob]
      · simp [hjob]
      · exact fun hp => absurd hp hpoll
      · simp [hlaunch]
      · simp
      · simp [hjob]
      · simp
      · simp [hturned]

/-- `vfs_close` of a ticket whose read its owner is done with. -/
theorem ReadInv.drop (h : ReadInv r) {done : Bool} (howner : r.owner = .held done) (onMain : Bool) :
    ReadInv { vfsClose r onMain with owner := .dropped } := by
  have hlaunch : r.handle ≠ .unpublished := fun hu => by
    have := h.launching.mp hu
    simp [howner] at this
  have hrefused : r.handle ≠ .refused := fun hr => by
    have := h.turnedDown.mp hr
    simp [howner] at this
  unfold vfsClose
  split_ifs with hreg hjob hmain
  · refine h.keep rfl rfl ?_ Iff.rfl id id ?_ ?_ ?_ ?_ ?_ ?_
    all_goals simp [hreg, howner, hjob]
  · refine h.keep rfl rfl ?_ Iff.rfl id id ?_ ?_ ?_ ?_ ?_ ?_
    all_goals simp [hreg, howner]
  · refine h.keep rfl rfl Iff.rfl Iff.rfl id id ?_ ?_ ?_ ?_ Iff.rfl ?_
    all_goals simp [hreg, howner]
  · refine h.keep rfl rfl Iff.rfl Iff.rfl id id ?_ ?_ ?_ h.jobOver Iff.rfl ?_
    all_goals simp [howner, hlaunch]

/-- The caller gets the ticket. -/
theorem ReadInv.publish (h : ReadInv r) (howner : r.owner = .launching)
    (hhandle : r.handle = .unpublished) :
    ReadInv { r with handle := .registered, owner := .held false } := by
  refine h.keep rfl rfl ?_ Iff.rfl id id ?_ ?_ ?_ ?_ ?_ ?_
  all_goals simp [howner, hhandle]

/-- The worker returns without having run the transform. -/
theorem ReadInv.skip (h : ReadInv r) (hjob : r.job = .queued) :
    ReadInv { r with job := .returned } := by
  obtain ⟨hreleased, hrefused, hfreed, -⟩ := h.present (by simp [hjob])
  refine h.keep rfl rfl Iff.rfl ?_ ?_ ?_ ?_ h.launching h.closed ?_ Iff.rfl Iff.rfl
  · simp [hjob]
  · simp
  · simp
  · intro hp
    have := (h.polling hp).2
    simp [hjob] at this
  · simp [hreleased, hrefused, hfreed]

theorem ReadInv.finish (h : ReadInv r) (hjob : r.job = .returned) :
    ReadInv { r with job := .finished } := by
  refine h.keep rfl rfl Iff.rfl ?_ ?_ ?_ ?_ h.launching h.closed ?_ Iff.rfl Iff.rfl
  · simp [hjob]
  · simp
  · simp
  · exact fun hp => ⟨(h.polling hp).1, rfl⟩
  · simp

/-- A poll finds the read ready. -/
theorem ReadInv.check (h : ReadInv r) (howner : r.owner = .held false)
    (hready : vfsIsReady r = true) : ReadInv { r with owner := .ready } := by
  simp only [vfsIsReady, Bool.and_eq_true, beq_iff_eq] at hready
  refine h.keep rfl rfl Iff.rfl Iff.rfl id id ?_ ?_ ?_ h.jobOver Iff.rfl ?_
  all_goals simp [hready, howner]

/-- The poller goes on to the slot, or is done with the read. -/
theorem ReadInv.drain (h : ReadInv r) (howner : r.owner = .ready) {next : Owner}
    (hnext : next = .drained ∨ next = .held true) : ReadInv { r with owner := next } := by
  obtain ⟨hhandle, hjob⟩ := h.polling (.inl howner)
  rcases hnext with rfl | rfl
  · refine h.keep rfl rfl Iff.rfl Iff.rfl id id ?_ ?_ ?_ h.jobOver Iff.rfl ?_
    all_goals simp [hhandle, hjob, howner]
  · refine h.keep rfl rfl Iff.rfl Iff.rfl id id ?_ ?_ ?_ h.jobOver Iff.rfl ?_
    all_goals simp [hhandle, hjob, howner]

/-- The handle is freed, by a sweep or with its mount. -/
theorem ReadInv.free (h : ReadInv r) (hjob : r.job = .finished)
    (hhandle : r.handle = .closed ∨ (r.handle = .registered ∧
      r.owner ≠ .ready ∧ r.owner ≠ .drained)) : ReadInv { r with handle := .freed } := by
  rcases hhandle with hclosed | ⟨hregistered, hready, hdrained⟩
  · have hdropped := h.closed hclosed
    refine h.keep rfl rfl ?_ Iff.rfl id id ?_ ?_ ?_ ?_ ?_ Iff.rfl
    all_goals simp [hclosed, hjob, hdropped]
  · have hlaunching : r.owner ≠ .launching := fun hl => by
      have := h.launching.mpr hl
      simp [hregistered] at this
    refine h.keep rfl rfl ?_ Iff.rfl id id ?_ ?_ ?_ ?_ ?_ Iff.rfl
    all_goals simp [hregistered, hjob, hready, hdrained, hlaunching]

/-- One step on a read keeps its invariant. -/
theorem ReadInv.step (h : ReadInv r) (hstep : r.step a = some r')
    (hfree : a = .mountFree → r.owner ≠ .ready ∧ r.owner ≠ .drained) : ReadInv r' := by
  cases a with
  | publish =>
      simp only [Read.step] at hstep
      split_ifs at hstep with hw
      cases hstep
      exact h.publish hw.1 hw.2
  | enter =>
      simp only [Read.step] at hstep
      split_ifs at hstep with hjob
      cases hstep
      exact h.enter hjob
  | skip =>
      simp only [Read.step] at hstep
      split_ifs at hstep with hjob
      cases hstep
      exact h.skip hjob
  | transform panics =>
      simp only [Read.step] at hstep
      split_ifs at hstep with hjob
      all_goals
        cases hstep
        first | exact h.transform hjob true | exact h.transform hjob false
  | store data =>
      simp only [Read.step] at hstep
      split_ifs at hstep with hjob
      cases hstep
      exact h.store hjob data
  | finish =>
      simp only [Read.step] at hstep
      split_ifs at hstep with hjob
      cases hstep
      exact h.finish hjob
  | check =>
      simp only [Read.step] at hstep
      split_ifs at hstep with howner hready
      · cases hstep
        exact h.check howner hready
      · cases hstep
        exact h
  | drain =>
      simp only [Read.step] at hstep
      split_ifs at hstep with howner
      · cases hstep
        exact h.drain howner (.inl rfl)
      · cases hstep
        exact h.drain howner (.inr rfl)
  | take =>
      simp only [Read.step] at hstep
      split_ifs at hstep with howner
      cases hstep
      exact h.take howner
  | drop onMain =>
      simp only [Read.step] at hstep
      split at hstep
      · rename_i done howner
        cases hstep
        exact h.drop howner onMain
      · cases hstep
  | reclaim =>
      simp only [Read.step] at hstep
      split_ifs at hstep with hw
      cases hstep
      exact h.free hw.2 (.inl hw.1)
  | mountFree =>
      simp only [Read.step] at hstep
      split_ifs at hstep with hw
      cases hstep
      exact h.free hw.2 (.inr ⟨hw.1, hfree rfl⟩)
  | release =>
      simp only [Read.step] at hstep
      split_ifs at hstep with hhandle
      cases hstep
      exact h.release hhandle

/-- The owner is in the middle of a call on the read. -/
def Owner.inCall : Owner → Bool
  | .launching | .ready | .drained => true
  | _ => false

theorem stillBusy_eq {i : ReadId} {busy : Option ReadId} : stillBusy r i busy =
    if r.owner.inCall then some i else if busy = some i then none else busy := by
  unfold stillBusy
  cases hr : r.owner with
  | launching | ready | drained => rfl
  | _ => simp [Owner.inCall]

theorem inCall_step (hstep : r.step a = some r') (hcall : r'.owner.inCall = true) :
    r.owner.inCall = true ∨ a.begins = true := by
  cases a with
  | check | drop => exact .inr rfl
  | publish | skip | enter | store | finish | reclaim | mountFree | release =>
      simp only [Read.step] at hstep
      split_ifs at hstep
      cases hstep
      left
      first
        | exact hcall
        | (simp only [Owner.inCall] at hcall; cases hcall)
        | (revert hcall
           first | unfold trampolineEnter | unfold trampolineStore | unfold mapRelease
           split <;> exact id)
  | transform panics =>
      simp only [Read.step] at hstep
      split_ifs at hstep <;> cases hstep <;> exact .inl hcall
  | drain =>
      simp only [Read.step] at hstep
      split_ifs at hstep with howner
      all_goals exact .inl (by rw [howner]; rfl)
  | take =>
      simp only [Read.step] at hstep
      split_ifs at hstep with howner
      exact .inl (by rw [howner]; rfl)

theorem update_some {reads : ReadId → Option Read} {i j : ReadId} {q : Read}
    (h : Function.update reads i (some r) j = some q) :
    (j = i ∧ q = r) ∨ (j ≠ i ∧ reads j = some q) := by
  by_cases hj : j = i
  · rw [hj, Function.update_self] at h
    exact .inl ⟨hj, (Option.some.inj h).symm⟩
  · rw [Function.update_of_ne hj] at h
    exact .inr ⟨hj, h⟩

/-- The invariant of the mount and its reads: the owner does one thing at a time. -/
structure MountInv (s : State) : Prop where
  reads : ∀ i r, s.reads i = some r → ReadInv r
  inCall : ∀ i r, s.reads i = some r → r.owner.inCall = true → s.busy = some i
  closing : s.closing = true → s.busy = none
  fresh : ∀ i r, s.reads i = some r → i < s.nextRead

theorem MountInv.init : MountInv .new := by
  refine ⟨?_, ?_, ?_, ?_⟩
  all_goals simp [State.new]

theorem MountInv.readWith {s : State} (h : MountInv s) (accepted : Bool) (hbusy : s.busy = none)
    (hclosing : s.closing = false) : MountInv { s with
      reads := Function.update s.reads s.nextRead (some (if accepted then .launched else .refused))
      nextRead := s.nextRead + 1
      busy := if accepted then some s.nextRead else none } := by
  refine ⟨?_, ?_, ?_, ?_⟩
  · intro i r hr
    rcases update_some hr with ⟨-, rfl⟩ | ⟨-, hr⟩
    · cases accepted with
      | true => exact .launched
      | false => exact .turnedDownNew
    · exact h.reads i r hr
  · intro i r hr hcall
    rcases update_some hr with ⟨rfl, rfl⟩ | ⟨-, hr⟩
    · cases accepted with
      | true => rfl
      | false => simp [Read.refused, Owner.inCall] at hcall
    · have := h.inCall i r hr hcall
      rw [hbusy] at this
      cases this
  · intro hc
    have hc : s.closing = true := hc
    rw [hclosing] at hc
    cases hc
  · intro i r hr
    rcases update_some hr with ⟨rfl, -⟩ | ⟨-, hr⟩
    · exact Nat.lt_succ_self _
    · exact Nat.lt_succ_of_lt (h.fresh i r hr)

theorem MountInv.act {s : State} (h : MountInv s) {i : ReadId} (hr : s.reads i = some r)
    (hstep : r.step a = some r') (hbegins : a.begins = true → s.busy = none ∧ s.closing = false)
    (hfree : a = .mountFree → s.closing = true) : MountInv { s with
      reads := Function.update s.reads i (some r'), busy := stillBusy r' i s.busy } := by
  have hcalls : r'.owner.inCall = true → s.closing = false ∧ (s.busy = none ∨ s.busy = some i) := by
    intro hcall
    rcases inCall_step hstep hcall with hcall | hb
    · have hbusy := h.inCall i r hr hcall
      refine ⟨?_, .inr hbusy⟩
      by_contra hc
      have := h.closing (by simpa using hc)
      rw [hbusy] at this
      cases this
    · exact ⟨(hbegins hb).2, .inl (hbegins hb).1⟩
  have hread : ReadInv r' := by
    refine (h.reads i r hr).step hstep fun ha => ?_
    have hnone := h.closing (hfree ha)
    constructor
    all_goals
      intro howner
      have := h.inCall i r hr (by rw [howner]; rfl)
      rw [hnone] at this
      cases this
  refine ⟨?_, ?_, ?_, ?_⟩
  · intro j q hq
    rcases update_some hq with ⟨-, rfl⟩ | ⟨-, hq⟩
    · exact hread
    · exact h.reads j q hq
  · intro j q hq hcall
    rw [stillBusy_eq]
    rcases update_some hq with ⟨rfl, rfl⟩ | ⟨hj, hq⟩
    · exact if_pos hcall
    · have hbusy := h.inCall j q hq hcall
      by_cases hcall' : r'.owner.inCall = true
      · rcases (hcalls hcall').2 with hnone | hsome
        · rw [hbusy] at hnone
          cases hnone
        · rw [hbusy] at hsome
          exact absurd (Option.some.inj hsome) hj
      · simp [hcall', hbusy, hj]
  · intro hc
    have hc : s.closing = true := hc
    rw [stillBusy_eq]
    by_cases hcall : r'.owner.inCall = true
    · rw [(hcalls hcall).1] at hc
      cases hc
    · simp [hcall, h.closing hc]
  · intro j q hq
    rcases update_some hq with ⟨rfl, -⟩ | ⟨-, hq⟩
    · exact h.fresh j r hr
    · exact h.fresh j q hq

theorem MountInv.step {s s' : State} {b : Action} (h : MountInv s) (hstep : step s b = some s') :
    MountInv s' := by
  cases b with
  | readWith accepted =>
      simp only [FlowiVfs.MappedRead.step] at hstep
      split at hstep
      · rename_i hw
        cases hstep
        exact h.readWith accepted hw.1 hw.2.1
      · cases hstep
  | act i a =>
      simp only [FlowiVfs.MappedRead.step] at hstep
      split_ifs at hstep with hw
      obtain ⟨r, hr, hstep⟩ := Option.bind_eq_some_iff.mp hstep
      obtain ⟨r', hr', rfl⟩ := Option.map_eq_some_iff.mp hstep
      exact h.act hr hr' hw.1 hw.2
  | closeMount =>
      simp only [FlowiVfs.MappedRead.step] at hstep
      split_ifs at hstep with hw
      cases hstep
      exact ⟨h.reads, h.inCall, fun _ => hw.1, h.fresh⟩
  | mountClosed =>
      simp only [FlowiVfs.MappedRead.step] at hstep
      split_ifs at hstep
      cases hstep
      exact ⟨h.reads, h.inCall, nofun, h.fresh⟩

/-- In every interleaving, every read keeps to the protocol of its slot. -/
theorem mapped_sound {s : State} (h : Reaches step (fun _ _ => True) .new s) :
    ∀ i r, s.reads i = some r → SlotSound r := by
  intro i r hr
  have hinv : MountInv s := h.invariant .init fun _ _ _ hI _ hstep => hI.step hstep
  exact (hinv.reads i r hr).sound

/-- A read is dropped while its transform runs; its value is dropped with the slot. -/
theorem mapped_sound_dropped : ∃ s, Reaches step (fun _ _ => True) .new s ∧
    (s.reads 0).map (fun r => r.log) =
      some [.slotFreed, .valueDropped, .produced, .transformRun] ∧
    ∀ i r, s.reads i = some r → SlotSound r := by
  let actions : List Action := [.readWith true, .act 0 .enter, .act 0 .publish, .act 0 .check,
    .act 0 (.drop true), .act 0 (.transform false), .act 0 (.store true), .act 0 .finish,
    .act 0 .reclaim, .act 0 .release]
  have hrun : ((replay step (fun _ _ => True) actions .new).map fun s =>
      (s.reads 0).map fun r => r.log) =
      some (some [.slotFreed, .valueDropped, .produced, .transformRun]) := by
    decide +kernel
  obtain ⟨s, hs, hlog⟩ := Option.map_eq_some_iff.mp hrun
  have hreach := replay_reaches actions hs
  exact ⟨s, hreach, hlog, mapped_sound hreach⟩

end Reads

end FlowiVfs.MappedRead
