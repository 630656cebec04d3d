import FlowiVfs.ReadContents

/-!
# What a read of a whole file owns

One execution of a read-all operation holds a driver's file handle, a buffer, and the duty
to call its callback once. The drivers, the allocator, cancellation and the callback answer
as they like; a log records the calls on handles, the buffers that were freed, and the
calls of the callback, and a buffer that is used or freed while it is not allocated sets
`misused`. Afterwards the handle of the operation is torn down.
-/
namespace FlowiVfs.Tree

open Program

inductive ReadEvent
  /-- A driver gave the handle out. -/
  | opened (handle : OpenHandle)
  | used (handle : OpenHandle)
  | closed (handle : OpenHandle)
  | freed (buffer : BufferPtr)
  | callback (data : Option BufferPtr) (size : ℤ) (answer : Option CallbackResult)

structure ReadLog where
  events : List ReadEvent := []
  /-- The buffers of the operation that are allocated. -/
  live : List BufferPtr := []
  misused : Bool := false

namespace ReadLog

variable (s : ReadLog)

def log (events : List ReadEvent) : ReadLog := { s with events := s.events ++ events }

def useBuffer (b : BufferPtr) : ReadLog := if b ∈ s.live then s else { s with misused := true }

def useTarget : ReadTarget → ReadLog
  | .buffer b _ => s.useBuffer b
  | .probe => s

def release (b : BufferPtr) : ReadLog :=
  if b ∈ s.live then { s with live := s.live.erase b, events := s.events ++ [.freed b] }
  else { s with misused := true, events := s.events ++ [.freed b] }

end ReadLog

/-- What a driver call does with the handles that it is given. -/
def driverEvents : DriverOp → List ReadEvent
  | .openPath e (some parent) _ _ _ => [.used ⟨e.id, parent⟩]
  | .isDirectory e h => [.used ⟨e.id, h⟩]
  | .getSize e (some h) _ => [.used ⟨e.id, h⟩]
  | .read e (some h) _ _ _ => [.used ⟨e.id, h⟩]
  | .listDirectory e (some h) _ => [.used ⟨e.id, h⟩]
  | .clone e h => [.used ⟨e.id, h⟩]
  | .close e h => [.closed ⟨e.id, h⟩]
  | .getFilePath e (some h) _ => [.used ⟨e.id, h⟩]
  | _ => []

/-- The handle that the answer of a driver gives out. -/
def answerEvents : (op : DriverOp) → op.Reply → List ReadEvent
  | .openPath e .., r | .clone e _, r | .openMemory e .., r =>
      r.handle.toList.map fun h => .opened ⟨e.id, h⟩
  | _, _ => []

/-- The answers are free, but for the allocator: it gives out no buffer twice. -/
def Accounting : Environment vfs ReadLog := fun s op r s' =>
  match op, r with
  | .driver op, r => s' = s.log (driverEvents op ++ answerEvents op r)
  | .allocate _, r =>
      match r with
      | none => s' = s
      | some (b : BufferPtr) => b ∉ s.live ∧ s' = { s with live := b :: s.live }
  | .reallocate old _, r =>
      match r with
      | none => s' = s.useBuffer old
      | some (b : BufferPtr) =>
          b ∉ s.live.erase old ∧
            s' = { s.useBuffer old with live := b :: s.live.erase old }
  | .release b, _ => s' = s.release b
  | .readFile e h target _, _ => s' = (s.useTarget target).log [.used ⟨e.id, h⟩]
  | .callback data size, r => s' = s.log [.callback data size r]
  | _, _ => s' = s

/-- `vfs_free_data_result` -/
def vfsFreeDataResult (result : ReadAllOutcome) (freeDataBuffer : Bool) (s : ReadLog) : ReadLog :=
  match result.data with
  | none => s
  | some b => if freeDataBuffer then s.release b else s

/-- `vfs_free_handle_resources` on a read-all handle. -/
def freeReadAll (result : ReadAllOutcome) (s : ReadLog) : ReadLog :=
  vfsFreeDataResult result (¬ result.callbackOwnsData) s

/-! ## Between the open and the close -/

/-- The operation has its file open: since `base` was logged it used the handle, and freed
buffers. -/
structure Reading (h : OpenHandle) (base : List ReadEvent) (live : List BufferPtr)
    (s : ReadLog) : Prop where
  live : s.live = live
  clean : s.misused = false
  events : ∃ since, s.events = base ++ since ∧ ∀ e ∈ since, e = .used h ∨ ∃ b, e = .freed b

/-- The operation has closed its file and called back with nothing. -/
structure Failed (h : OpenHandle) (base : List ReadEvent) (s : ReadLog) : Prop where
  live : s.live = []
  clean : s.misused = false
  events : ∃ since answer, s.events = base ++ since ++ [.closed h, .callback none 0 answer] ∧
    ∀ e ∈ since, e = .used h ∨ ∃ b, e = .freed b

section
variable {h : OpenHandle} {base : List ReadEvent} {live : List BufferPtr} {s t : ReadLog}
variable {entry : PluginEntry} {handle : DriverPtr}

theorem Reading.used (r : Reading h base live s) : Reading h base live (s.log [.used h]) := by
  obtain ⟨since, events, quiet⟩ := r.events
  refine ⟨r.live, r.clean, since ++ [.used h], ?_, fun e he => ?_⟩
  · show s.events ++ _ = _
    rw [events, List.append_assoc]
  · rcases List.mem_append.mp he with he | he
    · exact quiet e he
    · exact .inl (List.mem_singleton.mp he)

theorem Reading.release {b : BufferPtr} (r : Reading h base [b] s) :
    Reading h base [] (s.release b) := by
  obtain ⟨since, events, quiet⟩ := r.events
  have inside : b ∈ s.live := by
    rw [r.live]
    exact List.mem_singleton_self b
  unfold ReadLog.release
  rw [if_pos inside]
  refine ⟨?_, r.clean, since ++ [.freed b], ?_, fun e he => ?_⟩
  · show s.live.erase b = []
    rw [r.live]
    simp
  · show s.events ++ _ = _
    rw [events, List.append_assoc]
  · rcases List.mem_append.mp he with he | he
    · exact quiet e he
    · exact .inr ⟨b, List.mem_singleton.mp he⟩

theorem Reading.readFile {b : BufferPtr} {target : ReadTarget} {size : ℤ} {r : ReadResult}
    (reading : Reading ⟨entry.id, handle⟩ base [b] s)
    (own : target = .probe ∨ ∃ offset, target = .buffer b offset)
    (run : Run Accounting (perform (.readFile entry handle target size)) s r t) :
    Reading ⟨entry.id, handle⟩ base [b] t := by
  have answer : t = (s.useTarget target).log [.used ⟨entry.id, handle⟩] := run_call.mp run
  have inside : b ∈ s.live := by
    rw [reading.live]
    exact List.mem_singleton_self b
  have same : s.useTarget target = s := by
    rcases own with rfl | ⟨offset, rfl⟩
    · rfl
    · exact if_pos inside
  rw [answer, same]
  exact reading.used

/-- A failure frees the buffer, closes the file and calls back. -/
theorem Reading.fails {buffer : Option BufferPtr} {message : ErrorMessage}
    {outcome : ReadAllOutcome}
    (reading : Reading ⟨entry.id, handle⟩ base buffer.toList s)
    (run : Run Accounting (readAllSetError entry handle buffer message) s outcome t) :
    Failed ⟨entry.id, handle⟩ base t ∧
      outcome = { status := VFS_ERROR_READ, errorMessage := some message } := by
  refine ⟨?_, readAllSetError_outcome run⟩
  have close : ∀ {s : ReadLog} {outcome : ReadAllOutcome},
      Reading ⟨entry.id, handle⟩ base [] s →
      Run Accounting (readAllSetError entry handle none message) s outcome t →
      Failed ⟨entry.id, handle⟩ base t := by
    rintro s outcome reading run
    obtain ⟨_, s₁, closed, run⟩ := run_perform.mp run
    obtain ⟨answer, s₂, called, run⟩ := run_perform.mp run
    obtain ⟨-, rfl⟩ := run_done.mp run
    cases (closed : s₁ = s.log _)
    cases (called : _ = _)
    obtain ⟨since, events, quiet⟩ := reading.events
    refine ⟨reading.live, reading.clean, since, answer, ?_, quiet⟩
    show s.events ++ _ ++ _ = _
    rw [events]
    simp [driverEvents, answerEvents]
  cases buffer with
  | none => exact close reading run
  | some b =>
      obtain ⟨_, s₁, freed, run⟩ := run_perform.mp run
      cases (freed : s₁ = s.release b)
      exact close reading.release run

end

/-! ## Reading the contents -/

theorem read_not_success : VFS_ERROR_READ ≠ VFS_STATE_SUCCESS := by
  decide

theorem canceled_not_success : VFS_ERROR_CANCELED ≠ VFS_STATE_SUCCESS := by
  decide

/-- Where a read of the contents leaves the log. -/
def Settles (h : OpenHandle) (base : List ReadEvent) (s : ReadLog) :
    ReadAllOutcome ⊕ FileContents → Prop
  | .inl failure => Failed h base s ∧ failure.status ≠ VFS_STATE_SUCCESS ∧ failure.data = none
  | .inr file => Reading h base [file.buffer] s

section
variable {base : List ReadEvent} {s t : ReadLog} {path : FlString} {entry : PluginEntry}
variable {handle : DriverPtr} {result : ReadAllOutcome ⊕ FileContents}

theorem failure_settles {buffer : Option BufferPtr} {message : ErrorMessage}
    (run : Run Accounting (do
      let failure ← readAllSetError entry handle buffer message
      pure (.inl failure)) s result t)
    (reading : Reading ⟨entry.id, handle⟩ base buffer.toList s) :
    Settles ⟨entry.id, handle⟩ base t result := by
  obtain ⟨failure, s₁, failing, done⟩ := run_bind.mp run
  obtain ⟨rfl, rfl⟩ := run_done.mp done
  have failed := reading.fails failing
  rw [failed.2]
  exact ⟨failed.1, read_not_success, rfl⟩

theorem Reading.cancels {b : BufferPtr} {outcome : ReadAllOutcome}
    (reading : Reading ⟨entry.id, handle⟩ base [b] s)
    (run : Run Accounting (readAllCanceled entry handle b path) s outcome t) :
    Settles ⟨entry.id, handle⟩ base t (.inl outcome) := by
  have canceled := readAllCanceled_outcome run
  obtain ⟨failure, s₁, failing, done⟩ := run_bind.mp run
  obtain ⟨-, rfl⟩ := run_done.mp done
  rw [canceled]
  exact ⟨(Reading.fails reading failing).1, canceled_not_success, rfl⟩

theorem Reading.polls {b : BufferPtr} {canceled : Bool}
    (reading : Reading ⟨entry.id, handle⟩ base [b] s)
    (run : Run Accounting shouldCancel s canceled t) :
    Reading ⟨entry.id, handle⟩ base [b] t := by
  cases (run_call.mp run : t = s)
  exact reading

theorem readKnownSize_settles {b : BufferPtr} {size : ℤ}
    (reading : Reading ⟨entry.id, handle⟩ base [b] s)
    (run : Run Accounting (readKnownSize path entry handle b size) s result t) :
    Settles ⟨entry.id, handle⟩ base t result := by
  unfold readKnownSize at run
  obtain ⟨r, s₁, read, rest⟩ := run_bind.mp run
  have used := reading.readFile (.inr ⟨0, rfl⟩) read
  split_ifs at rest with negative
  · exact failure_settles rest used
  · obtain ⟨rfl, rfl⟩ := run_done.mp rest
    exact used

/-- A buffer that is moved is freed where it was. -/
theorem growBuffer_reading {c : ChunkState} {grown : Option ChunkState}
    (reading : Reading ⟨entry.id, handle⟩ base [c.buffer] s)
    (run : Run Accounting (growBuffer c) s grown t) :
    Reading ⟨entry.id, handle⟩ base [(grown.getD c).buffer] t := by
  unfold growBuffer at run
  split_ifs at run with full
  · obtain ⟨moved, s₁, moving, rest⟩ := run_bind.mp run
    have answer := run_call.mp moving
    have inside : c.buffer ∈ s.live := by
      rw [reading.live]
      exact List.mem_singleton_self _
    have same : s.useBuffer c.buffer = s := if_pos inside
    cases moved with
    | none =>
        obtain ⟨rfl, rfl⟩ := run_done.mp rest
        cases (answer : t = s.useBuffer c.buffer)
        rw [same]
        exact reading
    | some b =>
        obtain ⟨rfl, rfl⟩ := run_done.mp rest
        obtain ⟨-, rfl⟩ : b ∉ s.live.erase c.buffer ∧
          t = { s.useBuffer c.buffer with live := b :: s.live.erase c.buffer } := answer
        refine ⟨?_, ?_, ?_⟩
        · show b :: s.live.erase c.buffer = [b]
          rw [reading.live]
          simp
        · show (s.useBuffer c.buffer).misused = false
          rw [same]
          exact reading.clean
        · show ∃ since, (s.useBuffer c.buffer).events = base ++ since ∧ _
          rw [same]
          exact reading.events
  · obtain ⟨rfl, rfl⟩ := run_done.mp run
    exact reading

/-- Where the loop leaves the log: it failed, or it has its buffer. -/
def StopsAt (h : OpenHandle) (base : List ReadEvent) (s : ReadLog) : ChunkEnd → Prop
  | .failed outcome => Settles h base s (.inl outcome)
  | .stopped c _ => Reading h base [c.buffer] s

theorem readChunks_reading {left : ℕ} {c : ChunkState} {ended : ChunkEnd}
    (reading : Reading ⟨entry.id, handle⟩ base [c.buffer] s)
    (run : Run Accounting (readChunks path entry handle left c) s ended t) :
    StopsAt ⟨entry.id, handle⟩ base t ended := by
  induction left generalizing c s with
  | zero =>
      obtain ⟨rfl, rfl⟩ := run_done.mp run
      exact reading
  | succ left ih =>
      have stops : ∀ {buffer : BufferPtr} {message : ErrorMessage} {u : ReadLog},
          Reading ⟨entry.id, handle⟩ base [buffer] u →
          Run Accounting (do
            let outcome ← readAllSetError entry handle (some buffer) message
            pure (.failed outcome)) u ended t →
          ∃ outcome, ended = .failed outcome ∧
            Settles ⟨entry.id, handle⟩ base t (.inl outcome) := by
        intro buffer message u reading run
        obtain ⟨outcome, s₁, failing, done⟩ := run_bind.mp run
        obtain ⟨rfl, rfl⟩ := run_done.mp done
        have failed := Reading.fails reading failing
        refine ⟨outcome, rfl, failed.1, ?_⟩
        rw [failed.2]
        exact ⟨read_not_success, rfl⟩
      unfold readChunks at run
      split_ifs at run with below
      · obtain ⟨canceled, s₁, polled, rest⟩ := run_bind.mp run
        have polls := reading.polls polled
        split_ifs at rest with isCanceled
        · obtain ⟨outcome, s₂, canceling, done⟩ := run_bind.mp rest
          obtain ⟨rfl, rfl⟩ := run_done.mp done
          exact polls.cancels canceling
        · obtain ⟨grown, s₂, growing, rest⟩ := run_bind.mp rest
          have room := growBuffer_reading polls growing
          cases grown with
          | none =>
              obtain ⟨outcome, rfl, settles⟩ := stops room rest
              exact settles
          | some c₁ =>
              obtain ⟨r, s₃, read, rest⟩ := run_bind.mp rest
              have used := room.readFile (.inr ⟨c₁.totalRead, rfl⟩) read
              split_ifs at rest with negative eof
              · obtain ⟨outcome, rfl, settles⟩ := stops used rest
                exact settles
              · obtain ⟨rfl, rfl⟩ := run_done.mp rest
                exact used
              · exact ih (c := { c₁ with
                  totalRead := c₁.totalRead + r.bytesRead
                  contents := c₁.contents ++ r.contents }) used rest
      · obtain ⟨rfl, rfl⟩ := run_done.mp run
        exact reading

theorem probeEnd_settles {c : ChunkState}
    (reading : Reading ⟨entry.id, handle⟩ base [c.buffer] s)
    (run : Run Accounting (probeEnd path entry handle c) s result t) :
    Settles ⟨entry.id, handle⟩ base t result := by
  unfold probeEnd at run
  obtain ⟨r, s₁, read, rest⟩ := run_bind.mp run
  have used := reading.readFile (.inl rfl) read
  split_ifs at rest with negative more
  · exact failure_settles rest used
  · exact failure_settles rest used
  · obtain ⟨rfl, rfl⟩ := run_done.mp rest
    exact used

theorem Reading.allocates {size : ℤ} {buffer : Option BufferPtr}
    (reading : Reading ⟨entry.id, handle⟩ base [] s)
    (run : Run Accounting (perform (.allocate size)) s buffer t) :
    Reading ⟨entry.id, handle⟩ base buffer.toList t := by
  have answer := run_call.mp run
  cases buffer with
  | none =>
      cases (answer : t = s)
      exact reading
  | some b =>
      obtain ⟨-, rfl⟩ : b ∉ s.live ∧ t = { s with live := b :: s.live } := answer
      refine ⟨?_, reading.clean, reading.events⟩
      show b :: s.live = [b]
      rw [reading.live]

theorem readUnknownSize_settles {b : BufferPtr}
    (reading : Reading ⟨entry.id, handle⟩ base [b] s)
    (run : Run Accounting (readUnknownSize path entry handle b) s result t) :
    Settles ⟨entry.id, handle⟩ base t result := by
  unfold readUnknownSize at run
  obtain ⟨_, s₁, released, rest⟩ := run_bind.mp run
  cases (run_call.mp released : s₁ = s.release b)
  obtain ⟨chunk, s₂, allocated, rest⟩ := run_bind.mp rest
  have owned := reading.release.allocates allocated
  cases chunk with
  | none => exact failure_settles rest owned
  | some chunk =>
      obtain ⟨ended, s₃, looped, rest⟩ := run_bind.mp rest
      have stopped := readChunks_reading owned looped
      cases ended with
      | failed outcome =>
          obtain ⟨rfl, rfl⟩ := run_done.mp rest
          exact stopped
      | stopped c reachedEof =>
          cases reachedEof with
          | true =>
              obtain ⟨rfl, rfl⟩ := run_done.mp rest
              exact stopped
          | false => exact probeEnd_settles stopped rest

theorem readContents_settles (reading : Reading ⟨entry.id, handle⟩ base [] s)
    (run : Run Accounting (readContents path entry handle) s result t) :
    Settles ⟨entry.id, handle⟩ base t result := by
  unfold readContents at run
  obtain ⟨size, s₁, sized, rest⟩ := run_bind.mp run
  cases (run_call.mp sized : s₁ = s.log [.used ⟨entry.id, handle⟩])
  have used := reading.used
  by_cases negative : size < 0
  · rw [if_pos negative] at rest
    exact failure_settles rest used
  rw [if_neg negative] at rest
  by_cases large : maxReadSize < size
  · rw [if_pos large] at rest
    exact failure_settles rest used
  rw [if_neg large] at rest
  obtain ⟨buffer, s₂, allocated, rest⟩ := run_bind.mp rest
  have owned := used.allocates allocated
  cases buffer with
  | none => exact failure_settles rest owned
  | some b =>
      obtain ⟨canceled, s₃, polled, rest⟩ := run_bind.mp rest
      have polls := owned.polls polled
      split_ifs at rest
      · obtain ⟨outcome, s₄, canceling, done⟩ := run_bind.mp rest
        obtain ⟨rfl, rfl⟩ := run_done.mp done
        exact polls.cancels canceling
      · exact readKnownSize_settles polls rest
      · exact readUnknownSize_settles polls rest

end

/-! ## The open before it -/

def ReadEvent.isCallback : ReadEvent → Bool
  | .callback .. => true
  | _ => false

/-- Nothing is allocated yet, and only the drivers were called. -/
structure Opening (s : ReadLog) : Prop where
  live : s.live = []
  clean : s.misused = false
  events : ∀ e ∈ s.events, e.isCallback = false

theorem driverEvents_callback (op : DriverOp) : ∀ e ∈ driverEvents op, e.isCallback = false := by
  intro e he
  unfold driverEvents at he
  split at he
  all_goals first
    | exact absurd he List.not_mem_nil
    | exact List.mem_singleton.mp he ▸ rfl

theorem answerEvents_callback (op : DriverOp) (r : op.Reply) :
    ∀ e ∈ answerEvents op r, e.isCallback = false := by
  intro e he
  unfold answerEvents at he
  split at he
  all_goals first
    | exact absurd he List.not_mem_nil
    | obtain ⟨h, -, rfl⟩ := List.mem_map.mp he
      rfl

theorem Opening.run {A : Type} {p : VfsProgram A} {a : A} {s t : ReadLog} (opening : Opening s)
    (only : Only OpenOp p) (run : Run Accounting p s a t) : Opening t := by
  refine only.keeps run (fun u op r v opens opening answer => ?_) opening
  cases op with
  | driver op =>
      cases (answer : v = u.log (driverEvents op ++ answerEvents op r))
      refine ⟨opening.live, opening.clean, fun e he => ?_⟩
      rcases List.mem_append.mp he with he | he
      · exact opening.events e he
      · rcases List.mem_append.mp he with he | he
        · exact driverEvents_callback op e he
        · exact answerEvents_callback op r e he
  | mount op =>
      cases (answer : v = u)
      exact opening
  | strayString =>
      cases (answer : v = u)
      exact opening
  | _ => cases opens

theorem fileOpen_failed (self : VfsState) (slots : ℕ) (path : FlString) (flags worker : ℕ) :
    Returns (fun opened => ∀ status, opened = .failed status → status ≠ VFS_STATE_SUCCESS)
      (vfsOpFileOpen self slots path flags worker) := by
  have fails : ∀ {status : VfsOpStatus}, status ≠ VFS_STATE_SUCCESS →
      ∀ reported, OpenOutcome.failed status = .failed reported → reported ≠ VFS_STATE_SUCCESS := by
    rintro status error _ ⟨⟩
    exact error
  have unmounted : VFS_ERROR_MOUNT ≠ VFS_STATE_SUCCESS := by decide
  have missing : VFS_ERROR_FILE_NOT_FOUND ≠ VFS_STATE_SUCCESS := by decide
  refine .bind fun root => ?_
  obtain ⟨node, view⟩ := root
  dsimp only
  split_ifs
  · exact fails unmounted
  · refine .bind fun walk => ?_
    split
    · refine .bind fun options => .bind fun opened => ?_
      split
      · exact fails missing
      · rintro _ ⟨⟩
    · exact fails missing

/-- The last that is logged of an open is the file handle that it gives out. -/
theorem fileOpen_logs {self : VfsState} {slots flags worker : ℕ} {path : FlString}
    {entry : PluginEntry} {parent : Option DriverPtr} {handle : DriverPtr} {s t : ReadLog}
    (run : Run Accounting (vfsOpFileOpen self slots path flags worker) s
      (.opened entry parent handle) t) :
    ∃ before, t.events = before ++ [.opened ⟨entry.id, handle⟩] := by
  obtain ⟨⟨node, root⟩, s₁, rooted, run⟩ := run_bind.mp run
  dsimp only at run
  split_ifs at run
  · obtain ⟨wrong, -⟩ := run_done.mp run
    cases wrong
  · obtain ⟨walk, s₂, walked, run⟩ := run_bind.mp run
    split at run
    · obtain ⟨options, s₃, loaded, run⟩ := run_bind.mp run
      obtain ⟨opened, s₄, opens, run⟩ := run_bind.mp run
      have logged := congrArg ReadLog.events (run_call.mp opens)
      cases hopened : opened.handle with
      | none =>
          rw [hopened] at run
          obtain ⟨wrong, -⟩ := run_done.mp run
          cases wrong
      | some h =>
          rw [hopened] at run
          obtain ⟨same, rfl⟩ := run_done.mp run
          cases same
          refine ⟨s₃.events ++ driverEvents
            (.openPath entry walk.driver.handle walk.pathFromNode flags options), logged.trans ?_⟩
          show _ ++ (_ ++ opened.handle.toList.map _) = _
          rw [hopened, ← List.append_assoc]
          rfl
    · obtain ⟨wrong, -⟩ := run_done.mp run
      cases wrong

/-! ## The whole operation -/

/-- After `base` the file handle is closed once, and not used again, and nothing is opened. -/
def ClosesOnce (h : OpenHandle) (base events : List ReadEvent) : Prop :=
  ∃ since behind, events = base ++ since ++ .closed h :: behind ∧
    .closed h ∉ since ∧ .closed h ∉ behind ∧ .used h ∉ behind ∧ ∀ g, .opened g ∉ since ++ behind

/-- What an execution has to leave behind, once its handle is torn down. -/
structure Accounts (status : VfsOpStatus) (s : ReadLog) : Prop where
  /-- Every buffer was freed, and none when it was not allocated. -/
  freed : s.live = []
  clean : s.misused = false
  callback : ∃ before data size answer after,
    s.events = before ++ .callback data size answer :: after ∧
      (∀ e ∈ before ++ after, e.isCallback = false) ∧
      (data = none ∧ size = 0 ↔ status ≠ VFS_STATE_SUCCESS) ∧
      ∀ (result : CallbackResult) (p : BufferPtr), answer = some result →
        result.data = some p → data ≠ some p → .freed p ∉ after

theorem quiet_callback {h : OpenHandle} {e : ReadEvent} (quiet : e = .used h ∨ ∃ b, e = .freed b) :
    e.isCallback = false := by
  rcases quiet with rfl | ⟨b, rfl⟩ <;> rfl

theorem quiet_open {h : OpenHandle} {since : List ReadEvent}
    (quiet : ∀ e ∈ since, e = .used h ∨ ∃ b, e = .freed b) : .closed h ∉ since := by
  intro closed
  rcases quiet _ closed with wrong | ⟨b, wrong⟩ <;> cases wrong

theorem quiet_opens {h g : OpenHandle} {since behind : List ReadEvent}
    (quiet : ∀ e ∈ since, e = .used h ∨ ∃ b, e = .freed b) (later : .opened g ∉ behind) :
    .opened g ∉ since ++ behind := by
  intro opened
  rcases List.mem_append.mp opened with opened | opened
  · rcases quiet _ opened with wrong | ⟨b, wrong⟩ <;> cases wrong
  · exact later opened

section
variable {s t : ReadLog}

/-- A failed open calls back with nothing. -/
theorem Opening.notifies {status : VfsOpStatus} (opening : Opening s)
    (failed : status ≠ VFS_STATE_SUCCESS) (run : Run Accounting readAllNotifyFailure s () t) :
    Accounts status t := by
  obtain ⟨answer, s₁, called, done⟩ := run_perform.mp run
  obtain ⟨-, rfl⟩ := run_done.mp done
  cases (called : t = s.log [.callback none 0 answer])
  refine ⟨opening.live, opening.clean, s.events, none, 0, answer, [], rfl, ?_, ?_, ?_⟩
  · simpa using opening.events
  · simpa using failed
  · simp

theorem Failed.accounts {h : OpenHandle} {base : List ReadEvent} {status : VfsOpStatus}
    (opening : ∀ e ∈ base, e.isCallback = false) (failed : Failed h base s)
    (error : status ≠ VFS_STATE_SUCCESS) : Accounts status s ∧ ClosesOnce h base s.events := by
  obtain ⟨since, answer, events, quiet⟩ := failed.events
  constructor
  · refine ⟨failed.live, failed.clean, base ++ since ++ [.closed h], none, 0, answer, [], ?_, ?_,
      ?_, ?_⟩
    · rw [events]
      simp
    · intro e he
      simp only [List.append_nil, List.mem_append, List.mem_singleton] at he
      rcases he with (he | he) | rfl
      · exact opening e he
      · exact quiet_callback (quiet e he)
      · rfl
    · simpa using error
    · simp
  · exact ⟨since, [.callback none 0 answer], events, quiet_open quiet, by simp, by simp,
      fun g => quiet_opens quiet (by simp)⟩

/-- What the callback returned in place of the buffer stays. -/
theorem freeReadAll_owned {outcome : ReadAllOutcome} (owned : outcome.callbackOwnsData = true) :
    freeReadAll outcome s = s := by
  unfold freeReadAll vfsFreeDataResult
  cases outcome.data <;> simp [owned]

/-- The file is closed, the callback sees the buffer, and the buffer is freed. -/
theorem Reading.accounts {h : OpenHandle} {base : List ReadEvent} {b : BufferPtr} (size : ℤ)
    (answer : Option CallbackResult) (opening : ∀ e ∈ base, e.isCallback = false)
    (reading : Reading h base [b] s)
    (freed : t = ((s.log [.closed h]).log [.callback (some b) size answer]).release b) :
    Accounts VFS_STATE_SUCCESS t ∧ ClosesOnce h base t.events := by
  obtain ⟨since, events, quiet⟩ := reading.events
  have inside : b ∈ ((s.log [.closed h]).log [.callback (some b) size answer]).live := by
    show b ∈ s.live
    rw [reading.live]
    exact List.mem_singleton_self _
  unfold ReadLog.release at freed
  rw [if_pos inside] at freed
  have all : t.events = base ++ since ++
      [.closed h, .callback (some b) size answer, .freed b] := by
    rw [freed]
    show s.events ++ _ ++ _ ++ _ = _
    rw [events]
    simp
  constructor
  · refine ⟨?_, ?_, base ++ since ++ [.closed h], some b, size, answer, [.freed b], ?_, ?_,
      by simp, ?_⟩
    · rw [freed]
      show s.live.erase b = []
      rw [reading.live]
      simp
    · rw [freed]
      exact reading.clean
    · rw [all]
      simp
    · intro e he
      simp only [List.mem_append, List.mem_singleton] at he
      rcases he with ((he | he) | rfl) | rfl
      · exact opening e he
      · exact quiet_callback (quiet e he)
      · rfl
      · rfl
    · intro result p _ _ other freed
      cases List.mem_singleton.mp freed
      exact other rfl
  · exact ⟨since, _, all, quiet_open quiet, by simp, by simp, fun g => quiet_opens quiet (by simp)⟩

/-- The callback on a file that was read, and the teardown of the handle. -/
theorem Reading.finishes {entry : PluginEntry} {handle : DriverPtr} {base : List ReadEvent}
    {file : FileContents} {outcome : ReadAllOutcome}
    (opening : ∀ e ∈ base, e.isCallback = false)
    (reading : Reading ⟨entry.id, handle⟩ base [file.buffer] s)
    (run : Run Accounting (do
      onDrivers (driver (.close entry handle))
      finishRead file) s outcome t) :
    Accounts outcome.status (freeReadAll outcome t) ∧
      ClosesOnce ⟨entry.id, handle⟩ base (freeReadAll outcome t).events := by
  obtain ⟨_, s₁, closed, rest⟩ := run_bind.mp run
  cases (run_call.mp closed : s₁ = s.log [.closed ⟨entry.id, handle⟩])
  obtain ⟨answer, s₂, called, rest⟩ := run_bind.mp rest
  cases (run_call.mp called : s₂ = _)
  have released := fun u => Reading.accounts (t := u) file.size answer opening reading
  cases answer with
  | none =>
      obtain ⟨rfl, rfl⟩ := run_done.mp rest
      exact released _ rfl
  | some answer =>
      dsimp only at rest
      by_cases same : answer.data = some file.buffer
      · rw [if_pos same] at rest
        obtain ⟨rfl, rfl⟩ := run_done.mp rest
        exact released _ rfl
      · rw [if_neg same] at rest
        obtain ⟨_, s₃, freed, done⟩ := run_bind.mp rest
        cases (run_call.mp freed : s₃ = _)
        obtain ⟨rfl, rfl⟩ := run_done.mp done
        rw [freeReadAll_owned rfl]
        exact released _ rfl

/-- What a read leaves behind whose open failed, or gave out a file handle. -/
def Opened (base : List ReadEvent) (events : List ReadEvent) : OpenOutcome → Prop
  | .failed _ => ∃ answer, events = base ++ [.callback none 0 answer]
  | .opened entry _ handle =>
      (∃ before, base = before ++ [.opened ⟨entry.id, handle⟩]) ∧
        ClosesOnce ⟨entry.id, handle⟩ base events

theorem readAllOpened_accounts {self : VfsState} {slots worker : ℕ} {path : FlString}
    {opened : OpenOutcome} {outcome : ReadAllOutcome} (before : Opening s)
    (opens : Run Accounting (vfsOpFileOpen self slots path openFlagsRead worker) {} opened s)
    (run : Run Accounting (readAllOpened path opened) s outcome t) :
    Accounts outcome.status (freeReadAll outcome t) ∧
      Opened s.events (freeReadAll outcome t).events opened := by
  cases opened with
  | failed status =>
      have failed := (fileOpen_failed self slots path openFlagsRead worker).run opens status rfl
      obtain ⟨_, s₁, notified, done⟩ := run_bind.mp run
      obtain ⟨rfl, rfl⟩ := run_done.mp done
      refine ⟨before.notifies failed notified, ?_⟩
      obtain ⟨answer, s₂, called, done⟩ := run_perform.mp notified
      obtain ⟨-, rfl⟩ := run_done.mp done
      cases (called : t = _)
      exact ⟨answer, rfl⟩
  | opened entry parent handle =>
      have start : Reading ⟨entry.id, handle⟩ s.events [] s :=
        ⟨before.live, before.clean, [], by simp, by simp⟩
      have logged := fileOpen_logs opens
      obtain ⟨read, s₁, reading, rest⟩ := run_bind.mp run
      have settles := readContents_settles start reading
      cases read with
      | inl failure =>
          obtain ⟨rfl, rfl⟩ := run_done.mp rest
          obtain ⟨failed, error, nothing⟩ := settles
          have kept : freeReadAll outcome t = t := by
            unfold freeReadAll vfsFreeDataResult
            rw [nothing]
          rw [kept]
          have accounts := failed.accounts before.events error
          exact ⟨accounts.1, logged, accounts.2⟩
      | inr file =>
          have accounts := Reading.finishes before.events settles rest
          exact ⟨accounts.1, logged, accounts.2⟩

end

/-- One execution of a read-all operation, whatever it is answered and wherever it is
canceled: the callback runs once, the file handle that its open gave out is closed once, and the
buffers are freed. -/
theorem read_all_accounts {Score : Type} [LinearOrder Score] {self : VfsState}
    {slots worker : ℕ} {matcher : Matcher Score} {path : FlString} {result : CallOutcome}
    {t : ReadLog}
    (run : Run Accounting (vfsOpsExecute self slots matcher worker (.readAll path)) {} result t) :
    ∃ outcome, result = .readAll outcome ∧ Accounts outcome.status (freeReadAll outcome t) ∧
      ((∃ answer, outcome.status = VFS_ERROR_CANCELED ∧
          (freeReadAll outcome t).events = [.callback none 0 answer]) ∨
        ∃ opened u,
          Run Accounting (vfsOpFileOpen self slots path openFlagsRead worker) {} opened u ∧
            Run Accounting (readAllOpened path opened) u outcome t ∧
            Opened u.events (freeReadAll outcome t).events opened) := by
  have start : Opening {} := ⟨rfl, rfl, by simp⟩
  unfold vfsOpsExecute at run
  obtain ⟨canceled, s₁, polled, rest⟩ := run_bind.mp run
  cases (run_call.mp polled : s₁ = {})
  cases canceled with
  | true =>
      obtain ⟨_, s₂, notified, done⟩ := run_bind.mp rest
      obtain ⟨rfl, rfl⟩ := run_done.mp done
      refine ⟨_, rfl, start.notifies canceled_not_success notified, .inl ?_⟩
      obtain ⟨answer, s₃, called, done⟩ := run_perform.mp notified
      obtain ⟨-, rfl⟩ := run_done.mp done
      cases (called : t = _)
      exact ⟨answer, rfl, rfl⟩
  | false =>
      obtain ⟨outcome, s₂, reading, done⟩ := run_bind.mp rest
      obtain ⟨rfl, rfl⟩ := run_done.mp done
      obtain ⟨opened, u, opens, reads⟩ := run_bind.mp reading
      have accounts := readAllOpened_accounts (start.run (fileOpen_only ..) opens) opens reads
      exact ⟨outcome, rfl, accounts.1, .inr ⟨opened, u, opens, reads, accounts.2⟩⟩

/-- A file of two bytes, and a callback that returns data of its own. -/
theorem replaced_run {Score : Type} [LinearOrder Score] (matcher : Matcher Score) :
    Run Accounting (vfsOpsExecute ⟨[plainDriver], letters⟩ 1 matcher 0 (.readAll ['f'])) {}
    (.readAll
      { status := VFS_STATE_SUCCESS, data := some 7, size := 1, success := true,
        callbackOwnsData := true })
    { events := [.used ⟨0, 0⟩, .opened ⟨0, 1⟩, .used ⟨0, 1⟩, .used ⟨0, 1⟩, .closed ⟨0, 1⟩,
        .callback (some 0) 2 (some ⟨some 7, 1, true⟩), .freed 0] } := by
  refine .perform (r := false) rfl ?_
  refine .perform (r := ((0 : ℕ), (⟨some plainDriver, some 0⟩ : DriverView))) rfl ?_
  refine .perform (r := ((0 : ℕ), (⟨some plainDriver, some 0⟩ : DriverView))) rfl ?_
  refine .perform (r := ({} : MountOptions)) rfl ?_
  refine .perform (r := (⟨some 1, false, false⟩ : OpenResult)) rfl ?_
  refine .perform (r := (2 : ℤ)) rfl ?_
  have allocates : ∀ (s : ReadLog) (size : ℤ), (0 : ℕ) ∉ s.live →
      Accounting s (.allocate size) (some (0 : ℕ)) { s with live := 0 :: s.live } :=
    fun s size fresh => ⟨fresh, rfl⟩
  refine .perform (r := some (0 : ℕ)) (allocates _ _ List.not_mem_nil) ?_
  refine .perform (r := false) rfl ?_
  refine .perform (r := (⟨2, [1, 2]⟩ : ReadResult)) rfl ?_
  refine .perform (r := ()) rfl ?_
  refine .perform (r := (some ⟨some 7, 1, true⟩ : Option CallbackResult)) rfl ?_
  refine .perform (r := ()) rfl ?_
  exact .done _ _

theorem read_all_accounts_replaced :
    ∃ (matcher : Matcher ℕ) (outcome : ReadAllOutcome) (t : ReadLog),
    Run Accounting (vfsOpsExecute ⟨[plainDriver], letters⟩ 1 matcher 0 (.readAll ['f'])) {}
      (.readAll outcome) t ∧
      outcome.data = some 7 ∧ Accounts outcome.status (freeReadAll outcome t) := by
  have run := replaced_run (⟨fun _ _ => true, fun _ _ => 0⟩ : Matcher ℕ)
  obtain ⟨outcome, same, accounts, -⟩ := read_all_accounts run
  cases same
  exact ⟨_, _, _, run, rfl, accounts⟩

end FlowiVfs.Tree
