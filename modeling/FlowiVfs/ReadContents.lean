import FlowiVfs.WalkFootprint

/-!
# The contents of a file that is read whole

`vfs_op_read_all` reads a file whose size is known with one call, and any other one in
chunks up to its end. The drivers answer as they like within the contract of a read, and
there is no callback that could change the result.
-/
namespace FlowiVfs.Tree

open Program

/-- What opening a file performs. -/
def OpenOp : VfsOp → Prop
  | .mount .loadOptions => True
  | op => WalkOp op

theorem WalkOp.opens {op : VfsOp} (h : WalkOp op) : OpenOp op := by
  unfold OpenOp
  split
  · trivial
  · exact h

theorem fileOpen_only (self : VfsState) (slots : ℕ) (path : FlString) (flags worker : ℕ) :
    Only OpenOp (vfsOpFileOpen self slots path flags worker) := by
  refine .bind (p := onMount (.rootDriver worker)) ⟨trivial, fun _ => trivial⟩ fun root => ?_
  refine .ite trivial ?_
  refine .bind ((walk_only self slots path worker false).mono fun _ => WalkOp.opens) fun walk => ?_
  split
  · refine .bind (p := onMount .loadOptions) ⟨trivial, fun _ => trivial⟩ fun options => ?_
    refine .bind ⟨trivial, fun _ => trivial⟩ fun opened => ?_
    split <;> trivial
  · trivial

/-- What reading an open file performs until its contents are there. -/
def ReadOp : VfsOp → Prop
  | .driver _ => True
  | .shouldCancel => True
  | .allocate _ => True
  | .reallocate .. => True
  | .release _ => True
  | .readFile .. => True
  | .callback data _ => data = none
  | _ => False

section
variable {path : FlString} {entry : PluginEntry} {handle : DriverPtr}

theorem setError_reads (buffer : Option BufferPtr) (message : ErrorMessage) :
    Only ReadOp (readAllSetError entry handle buffer message) := by
  cases buffer with
  | none => exact ⟨trivial, fun _ => ⟨rfl, fun _ => trivial⟩⟩
  | some b => exact ⟨trivial, fun _ => ⟨trivial, fun _ => ⟨rfl, fun _ => trivial⟩⟩⟩

theorem failed_reads {A : Type} (f : ReadAllOutcome → A) (buffer : Option BufferPtr)
    (message : ErrorMessage) :
    Only ReadOp (do
      let failure ← readAllSetError entry handle buffer message
      pure (f failure)) :=
  (setError_reads buffer message).bind fun _ => trivial

theorem canceled_reads {A : Type} (f : ReadAllOutcome → A) (buffer : BufferPtr) :
    Only ReadOp (do
      let outcome ← readAllCanceled entry handle buffer path
      pure (f outcome)) :=
  .bind ((setError_reads _ _).bind fun _ => trivial) fun _ => trivial

theorem readChunks_reads (left : ℕ) (c : ChunkState) :
    Only ReadOp (readChunks path entry handle left c) := by
  induction left generalizing c with
  | zero => trivial
  | succ left ih =>
      refine .ite ⟨trivial, fun canceled => .ite (canceled_reads _ _) ?_⟩ trivial
      refine .bind (p := growBuffer c) (.ite ⟨trivial, fun grown => ?_⟩ trivial) fun grown => ?_
      · cases grown <;> trivial
      cases grown with
      | none => exact failed_reads _ _ _
      | some c => exact ⟨trivial, fun read => .ite (failed_reads _ _ _) (.ite trivial (ih _))⟩

theorem readUnknownSize_reads (buffer : BufferPtr) :
    Only ReadOp (readUnknownSize path entry handle buffer) := by
  refine ⟨trivial, fun _ => ⟨trivial, fun chunk => ?_⟩⟩
  cases chunk with
  | none => exact failed_reads _ _ _
  | some chunk =>
      refine (readChunks_reads _ _).bind fun ended => ?_
      match ended with
      | .failed outcome => trivial
      | .stopped c true => trivial
      | .stopped c false =>
          exact ⟨trivial, fun probe => .ite (failed_reads _ _ _) (.ite (failed_reads _ _ _) trivial)⟩

theorem readContents_reads : Only ReadOp (readContents path entry handle) := by
  apply (only_onDrivers (fun _ => trivial) _).bind
  intro size
  refine .ite (failed_reads _ _ _) (.ite (failed_reads _ _ _) ⟨trivial, fun buffer => ?_⟩)
  cases buffer with
  | none => exact failed_reads _ _ _
  | some buffer =>
      refine ⟨trivial, fun canceled => .ite (canceled_reads _ _) (.ite ?_ ?_)⟩
      · exact ⟨trivial, fun read => .ite (failed_reads _ _ _) trivial⟩
      · exact readUnknownSize_reads buffer

end

/-- The operations that neither read the file nor allocate. -/
def Still : VfsOp → Prop
  | .readFile .. => False
  | .allocate _ => False
  | .reallocate .. => False
  | _ => True

theorem OpenOp.still {op : VfsOp} (h : OpenOp op) : Still op := by
  unfold Still
  split
  · exact h
  · exact h
  · exact h
  · trivial

/-! ## Failures -/

section
variable {S : Type} {env : Environment vfs S} {s t : S} {entry : PluginEntry}
variable {handle : DriverPtr} {message : ErrorMessage} {outcome : ReadAllOutcome}

theorem readAllSetError_returns (entry : PluginEntry) (handle : DriverPtr)
    (buffer : Option BufferPtr) (message : ErrorMessage) :
    Returns (· = { status := VFS_ERROR_READ, errorMessage := some message })
      (readAllSetError entry handle buffer message) := by
  cases buffer with
  | none => exact fun _ _ => rfl
  | some b => exact fun _ _ _ => rfl

theorem readAllSetError_outcome {buffer : Option BufferPtr}
    (run : Run env (readAllSetError entry handle buffer message) s outcome t) :
    outcome = { status := VFS_ERROR_READ, errorMessage := some message } :=
  (readAllSetError_returns ..).run run

theorem readAllCanceled_outcome {buffer : BufferPtr} {path : FlString}
    (run : Run env (readAllCanceled entry handle buffer path) s outcome t) :
    outcome = { status := VFS_ERROR_CANCELED
                errorMessage := some ("Read canceled: %S", path) } := by
  unfold readAllCanceled at run
  obtain ⟨failed, _, set, rest⟩ := run_bind.mp run
  rw [(run_done.mp rest).1, readAllSetError_outcome set]

theorem readAllNotifyFailure_only :
    Only Still readAllNotifyFailure :=
  ⟨trivial, fun _ => trivial⟩

theorem readAllSetError_only (entry : PluginEntry) (handle : DriverPtr)
    (buffer : Option BufferPtr) (message : ErrorMessage) :
    Only Still (readAllSetError entry handle buffer message) := by
  cases buffer with
  | none => exact ⟨trivial, fun _ => ⟨trivial, fun _ => trivial⟩⟩
  | some b => exact ⟨trivial, fun _ => ⟨trivial, fun _ => ⟨trivial, fun _ => trivial⟩⟩⟩

theorem readAllCanceled_only (entry : PluginEntry) (handle : DriverPtr) (buffer : BufferPtr)
    (path : FlString) :
    Only Still (readAllCanceled entry handle buffer path) :=
  (readAllSetError_only ..).bind fun _ => trivial

end

/-! ## A file whose size is known -/

/-- The driver reports `size` for the file a handle was opened on, its reads keep to
their contract, and there is no callback. The answers to reads are kept. -/
def Sized (size : ℤ) : Environment vfs (List ReadResult) := fun reads op r reads' =>
  match op, r with
  | .driver (.getSize _ _ path), r => reads' = reads ∧ (path = [] → r = size)
  | .readFile _ _ _ asked, r =>
      reads' = reads ++ [r] ∧
        (r.bytesRead = -1 ∨
          0 ≤ r.bytesRead ∧ r.bytesRead ≤ asked ∧ (r.contents.length : ℤ) = r.bytesRead)
  | .callback .., r => reads' = reads ∧ r = none
  | _, _ => reads' = reads

theorem Sized.unread {size : ℤ} {A : Type} {p : VfsProgram A} {a : A}
    {reads reads' : List ReadResult} (only : Only Still p)
    (run : Run (Sized size) p reads a reads') : reads' = reads := by
  refine only.keeps (I := (· = reads)) run (fun u op r v quiet same answer => ?_) rfl
  subst same
  unfold Sized at answer
  split at answer
  · exact answer.1
  · cases quiet
  · exact answer.1
  · exact answer

/-- A read of a file of known size never succeeds with less than the whole file. -/
def EndsWhole (size : ℤ) (outcome : ReadAllOutcome) : Prop :=
  outcome.success = true → (outcome.contents.length : ℤ) = size ∧ outcome.size = size

/-- A read that delivered, but less than the file's size. -/
def IsShort (size : ℤ) (r : ReadResult) : Prop := 0 ≤ r.bytesRead ∧ r.bytesRead < size

instance (size : ℤ) (r : ReadResult) : Decidable (IsShort size r) :=
  inferInstanceAs (Decidable (_ ∧ _))

theorem readKnownSize_whole {size : ℤ} {path : FlString} {entry : PluginEntry}
    {handle : DriverPtr} {buffer : BufferPtr} {reads reads' : List ReadResult}
    {result : ReadAllOutcome ⊕ FileContents}
    (run : Run (Sized size) (readKnownSize path entry handle buffer size) reads result reads') :
    ∃ r : ReadResult, reads' = reads ++ [r] ∧
      ((r.bytesRead < 0 ∧ ∃ failure, result = .inl failure ∧ failure.success = false) ∨
        0 ≤ r.bytesRead ∧ r.bytesRead ≤ size ∧ (r.contents.length : ℤ) = r.bytesRead ∧
          result = .inr ⟨buffer, r.contents, r.bytesRead⟩) := by
  unfold readKnownSize at run
  obtain ⟨r, reads₁, answer, rest⟩ := run_bind.mp run
  obtain ⟨kept, lawful⟩ := run_call.mp answer
  refine ⟨r, ?_⟩
  split_ifs at rest with negative
  · obtain ⟨failure, _, failed, done⟩ := run_bind.mp rest
    obtain ⟨rfl, rfl⟩ := run_done.mp done
    have quiet := Sized.unread (readAllSetError_only ..) failed
    refine ⟨quiet.trans kept, .inl ⟨negative, failure, rfl, ?_⟩⟩
    rw [readAllSetError_outcome failed]
  · obtain ⟨rfl, rfl⟩ := run_done.mp rest
    rcases lawful with error | ⟨least, most, length⟩
    · omega
    · exact ⟨kept, .inr ⟨least, most, length, rfl⟩⟩

/-- A failure behind the open leaves no further answer to a read. -/
theorem failed_whole {size : ℤ} {reads reads' : List ReadResult} {entry : PluginEntry}
    {handle : DriverPtr} {buffer : Option BufferPtr} {message : ErrorMessage}
    {result : ReadAllOutcome ⊕ FileContents}
    (run : Run (Sized size) (do
      let failure ← readAllSetError entry handle buffer message
      pure (.inl failure)) reads result reads') :
    (∃ failure, result = .inl failure ∧ failure.success = false) ∧ reads' = reads := by
  obtain ⟨failure, _, failed, done⟩ := run_bind.mp run
  obtain ⟨rfl, rfl⟩ := run_done.mp done
  refine ⟨⟨failure, rfl, ?_⟩, Sized.unread (readAllSetError_only ..) failed⟩
  rw [readAllSetError_outcome failed]

theorem readContents_whole {size : ℤ} {path : FlString} {entry : PluginEntry}
    {handle : DriverPtr} {reads reads' : List ReadResult}
    {result : ReadAllOutcome ⊕ FileContents} (positive : 0 < size) (fits : size ≤ maxReadSize)
    (run : Run (Sized size) (readContents path entry handle) reads result reads') :
    (∃ failure, result = .inl failure ∧ failure.success = false ∧
      ∀ r ∈ reads', r ∈ reads ∨ r.bytesRead < 0) ∨
    ∃ r buffer, reads' = reads ++ [r] ∧ 0 ≤ r.bytesRead ∧ r.bytesRead ≤ size ∧
      (r.contents.length : ℤ) = r.bytesRead ∧
      result = .inr ⟨buffer, r.contents, r.bytesRead⟩ := by
  unfold readContents at run
  obtain ⟨reported, reads₁, sized, rest⟩ := run_bind.mp run
  obtain ⟨rfl, exact_⟩ := run_call.mp sized
  cases exact_ rfl
  rw [if_neg (Int.not_lt.mpr positive.le), if_neg (Int.not_lt.mpr fits)] at rest
  obtain ⟨buffer, reads₂, allocated, rest⟩ := run_bind.mp rest
  cases (run_call.mp allocated : reads₂ = reads₁)
  cases buffer with
  | none =>
      obtain ⟨⟨failure, rfl, failed⟩, rfl⟩ := failed_whole rest
      exact .inl ⟨failure, rfl, failed, fun r hr => .inl hr⟩
  | some buffer =>
      obtain ⟨canceled, reads₃, polled, rest⟩ := run_bind.mp rest
      cases (run_call.mp polled : reads₃ = reads₁)
      cases canceled with
      | true =>
          obtain ⟨failure, _, failed, done⟩ := run_bind.mp rest
          obtain ⟨rfl, rfl⟩ := run_done.mp done
          have quiet := Sized.unread (readAllCanceled_only ..) failed
          refine .inl ⟨failure, rfl, ?_, fun r hr => .inl (quiet ▸ hr)⟩
          rw [readAllCanceled_outcome failed]
      | false =>
          rw [if_neg (by simp), if_pos positive] at rest
          obtain ⟨r, kept, read⟩ := readKnownSize_whole rest
          rcases read with ⟨negative, failure, failed, unsuccessful⟩ | ⟨least, most, length, result⟩
          · refine .inl ⟨failure, failed, unsuccessful, fun x hx => ?_⟩
            rw [kept, List.mem_append, List.mem_singleton] at hx
            rcases hx with hx | rfl
            · exact .inl hx
            · exact .inr negative
          · exact .inr ⟨r, buffer, kept, least, most, length, result⟩

/-- For every driver that keeps the contract of a read and reports a size within the cap:
no read delivered less than that. -/
theorem read_all_whole_iff {self : VfsState} {slots worker : ℕ} {path : FlString} {size : ℤ}
    {outcome : ReadAllOutcome} {reads : List ReadResult} (positive : 0 < size)
    (fits : size ≤ maxReadSize)
    (run : Run (Sized size) (vfsOpReadAll self slots path worker) [] outcome reads) :
    EndsWhole size outcome ↔ ∀ r ∈ reads, ¬ IsShort size r := by
  unfold vfsOpReadAll at run
  obtain ⟨opened, reads₁, opening, rest⟩ := run_bind.mp run
  have unread := (fileOpen_only self slots path openFlagsRead worker).mono fun _ => OpenOp.still
  cases Sized.unread unread opening
  cases opened with
  | failed status =>
      obtain ⟨_, reads₂, notified, done⟩ := run_bind.mp rest
      obtain ⟨rfl, rfl⟩ := run_done.mp done
      cases Sized.unread readAllNotifyFailure_only notified
      exact iff_of_true (fun ends => absurd ends (by simp)) (by simp)
  | opened entry pluginHandle handle =>
      obtain ⟨read, reads₂, reading, rest⟩ := run_bind.mp rest
      rcases readContents_whole positive fits reading with
        ⟨failure, rfl, unsuccessful, negative⟩ | ⟨r, buffer, rfl, least, most, length, rfl⟩
      · obtain ⟨rfl, rfl⟩ := run_done.mp rest
        refine iff_of_true (fun ends => ?_) fun r hr short => ?_
        · rw [unsuccessful] at ends
          cases ends
        · rcases negative r hr with old | below
          · cases old
          · exact absurd short.1 (by omega)
      · obtain ⟨_, reads₃, closed, rest⟩ := run_bind.mp rest
        cases (run_call.mp closed : reads₃ = _)
        obtain ⟨answer, reads₄, called, rest⟩ := run_bind.mp rest
        obtain ⟨rfl, rfl⟩ : reads₄ = _ ∧ answer = none := run_call.mp called
        obtain ⟨rfl, rfl⟩ := run_done.mp rest
        constructor
        · intro ends x hx short
          obtain rfl : x = r := by simpa using hx
          have whole : x.bytesRead = size := (ends rfl).2
          exact absurd short.2 (by omega)
        · intro full _
          have whole : r.bytesRead = size := by
            by_contra ne
            exact full r (by simp) ⟨least, by omega⟩
          exact ⟨length.trans whole, whole⟩

/-! ## A file whose size is not known -/

/-- A read as it was asked for, with the buffer and the capacity at that moment. -/
structure AskedRead where
  target : ReadTarget
  asked : ℤ
  buffer : Option (BufferPtr × ℤ)

/-- A file being read. -/
structure ChunkedFile where
  /-- What the driver has not delivered yet. -/
  unread : Bytes
  buffer : Option (BufferPtr × ℤ) := none
  reads : List AskedRead := []

/-- A chunk has at least one byte and at most those asked for, until the end. -/
def DeliversChunk (asked : ℤ) (r : ReadResult) (before after : Bytes) : Prop :=
  0 < asked →
    r.bytesRead = r.contents.length ∧ r.bytesRead ≤ asked ∧ before = r.contents ++ after ∧
      (r.contents = [] → before = [])

/-- The driver reports no size and delivers the file in chunks, nothing is canceled, the
allocations succeed, and there is no callback. -/
def Chunked : Environment vfs ChunkedFile := fun s op r s' =>
  match op, r with
  | .driver (.getSize _ _ path), r => s' = s ∧ (path = [] → r = 0)
  | .shouldCancel, r => s' = s ∧ r = false
  | .allocate size, r => ∃ b : BufferPtr, r = some b ∧ s' = { s with buffer := some (b, size) }
  | .reallocate _ size, r =>
      ∃ b : BufferPtr, r = some b ∧ s' = { s with buffer := some (b, size) }
  | .readFile _ _ target asked, r =>
      ∃ after, DeliversChunk asked r s.unread after ∧
        s' = { s with unread := after, reads := s.reads ++ [⟨target, asked, s.buffer⟩] }
  | .callback .., r => s' = s ∧ r = none
  | _, _ => s' = s

/-- A read stays inside the buffer, which is within the cap, and fills it to its end; or it
is the probe of one byte. -/
def AskedRead.InBounds (a : AskedRead) : Prop :=
  match a.target with
  | .buffer b offset =>
      ∃ capacity, a.buffer = some (b, capacity) ∧ 0 < a.asked ∧ 0 ≤ offset ∧
        offset + a.asked = capacity ∧ capacity ≤ maxReadSize
  | .probe => a.asked = 1

/-- Where the chunk loop is, and what it has of the file. -/
structure ChunkInv (data : Bytes) (c : ChunkState) (s : ChunkedFile) : Prop where
  buffer : s.buffer = some (c.buffer, c.capacity)
  least : 64 * 1024 ≤ c.capacity
  most : c.capacity ≤ maxReadSize
  filled : c.totalRead ≤ c.capacity
  contents : data = c.contents ++ s.unread
  total : c.totalRead = c.contents.length
  reads : ∀ a ∈ s.reads, a.InBounds

theorem chunkInv_start {data : Bytes} {b : BufferPtr} {s : ChunkedFile}
    (unread : s.unread = data) (reads : s.reads = []) :
    ChunkInv data { buffer := b, capacity := 64 * 1024 }
      { s with buffer := some (b, 64 * 1024) } := by
  refine ⟨rfl, le_rfl, (by decide : (64 * 1024 : ℤ) ≤ maxReadSize),
    (by decide : (0 : ℤ) ≤ 64 * 1024), unread.symm, rfl, fun a ha => ?_⟩
  rw [reads] at ha
  cases ha

theorem firstRounds : maxReadSize ≤ 0 + (maxReadSize.toNat : ℤ) := by decide

/-- Growing leaves room for a byte. -/
theorem growBuffer_room {data : Bytes} {c : ChunkState} {s s' : ChunkedFile}
    {grown : Option ChunkState} (h : ChunkInv data c s) (below : c.totalRead < maxReadSize)
    (run : Run Chunked (growBuffer c) s grown s') :
    ∃ c', grown = some c' ∧ ChunkInv data c' s' ∧ c'.totalRead < c'.capacity ∧
      c'.totalRead = c.totalRead ∧ c'.contents = c.contents := by
  unfold growBuffer at run
  split_ifs at run with full
  · obtain ⟨buffer, s₁, answer, rest⟩ := run_bind.mp run
    obtain ⟨b, rfl, rfl⟩ := run_call.mp answer
    obtain ⟨rfl, rfl⟩ := run_done.mp rest
    have least := h.least
    have filled := h.filled
    refine ⟨_, rfl, ⟨rfl, ?_, min_le_right _ _, ?_, h.contents, h.total, h.reads⟩, ?_, rfl, rfl⟩
    · show 64 * 1024 ≤ min (c.capacity * 2) maxReadSize
      exact le_min (by omega) (by decide)
    · show c.totalRead ≤ min (c.capacity * 2) maxReadSize
      exact le_min (by omega) below.le
    · show c.totalRead < min (c.capacity * 2) maxReadSize
      exact lt_min (by omega) below
  · obtain ⟨rfl, rfl⟩ := run_done.mp run
    exact ⟨c, rfl, h, by omega, rfl, rfl⟩

/-- The loop stops at the end of the file, or with a full buffer at the cap: it does not run
out of rounds before. -/
theorem readChunks_spec {data : Bytes} {path : FlString} {entry : PluginEntry}
    {handle : DriverPtr} {left : ℕ} {c : ChunkState} {s s' : ChunkedFile} {ended : ChunkEnd}
    (h : ChunkInv data c s) (rounds : maxReadSize ≤ c.totalRead + left)
    (run : Run Chunked (readChunks path entry handle left c) s ended s') :
    ∃ c' reachedEof, ended = .stopped c' reachedEof ∧ ChunkInv data c' s' ∧
      (reachedEof = true → s'.unread = []) ∧
      (reachedEof = false → c'.totalRead = maxReadSize) := by
  induction left generalizing c s with
  | zero =>
      obtain ⟨rfl, rfl⟩ := run_done.mp run
      have filled := h.filled
      have most := h.most
      exact ⟨c, false, rfl, h, by simp, fun _ => by omega⟩
  | succ left ih =>
      unfold readChunks at run
      split_ifs at run with below
      · obtain ⟨canceled, s₁, polled, rest⟩ := run_bind.mp run
        obtain ⟨rfl, rfl⟩ : s₁ = s ∧ canceled = false := run_call.mp polled
        rw [if_neg (by simp)] at rest
        obtain ⟨grown, s₂, growing, rest⟩ := run_bind.mp rest
        obtain ⟨c₁, rfl, inv, room, total, -⟩ := growBuffer_room h below growing
        obtain ⟨r, s₃, read, rest⟩ := run_bind.mp rest
        obtain ⟨after, delivers, rfl⟩ := run_call.mp read
        obtain ⟨length, most, split, empty⟩ := delivers (by omega)
        have bounds : AskedRead.InBounds
            ⟨.buffer c₁.buffer c₁.totalRead, c₁.capacity - c₁.totalRead, s₂.buffer⟩ := by
          have start := inv.total
          exact ⟨c₁.capacity, inv.buffer, by show 0 < c₁.capacity - c₁.totalRead; omega,
            by omega, by show c₁.totalRead + (c₁.capacity - c₁.totalRead) = _; omega, inv.most⟩
        have reads : ∀ a ∈ s₂.reads ++ [⟨.buffer c₁.buffer c₁.totalRead,
            c₁.capacity - c₁.totalRead, s₂.buffer⟩], a.InBounds := by
          intro a ha
          rcases List.mem_append.mp ha with ha | ha
          · exact inv.reads a ha
          · exact List.mem_singleton.mp ha ▸ bounds
        rw [if_neg (by omega)] at rest
        split_ifs at rest with eof
        · obtain ⟨rfl, rfl⟩ := run_done.mp rest
          have nothing : r.contents = [] := List.length_eq_zero_iff.mp (by omega)
          have whole := empty nothing
          rw [nothing, List.nil_append] at split
          refine ⟨c₁, true, rfl, ⟨inv.buffer, inv.least, inv.most, inv.filled, ?_, inv.total,
            reads⟩, fun _ => split.symm.trans whole, by simp⟩
          rw [← split]
          exact inv.contents
        · have filled : c₁.totalRead + r.bytesRead ≤ c₁.capacity := by omega
          have contents : data = (c₁.contents ++ r.contents) ++ after := by
            rw [List.append_assoc, ← split]
            exact inv.contents
          have length' : c₁.totalRead + r.bytesRead =
              ((c₁.contents ++ r.contents).length : ℕ) := by
            rw [List.length_append, Nat.cast_add, inv.total, length]
          have next : ChunkInv data
              { c₁ with
                totalRead := c₁.totalRead + r.bytesRead
                contents := c₁.contents ++ r.contents }
              { s₂ with
                unread := after
                reads := s₂.reads ++ [⟨.buffer c₁.buffer c₁.totalRead,
                  c₁.capacity - c₁.totalRead, s₂.buffer⟩] } :=
            ⟨inv.buffer, inv.least, inv.most, filled, contents, length', reads⟩
          have more : maxReadSize ≤ c₁.totalRead + r.bytesRead + left := by
            push_cast at rounds
            omega
          exact ih next more rest
      · obtain ⟨rfl, rfl⟩ := run_done.mp run
        have filled := h.filled
        have most := h.most
        exact ⟨c, false, rfl, h, by simp, fun _ => by omega⟩

theorem Chunked.quiet {A : Type} {p : VfsProgram A} {a : A} {s s' : ChunkedFile}
    (only : Only Still p) (run : Run Chunked p s a s') : s' = s := by
  refine only.keeps (I := (· = s)) run (fun u op r v still same answer => ?_) rfl
  subst same
  unfold Chunked at answer
  split at answer
  · exact answer.1
  · exact answer.1
  · cases still
  · cases still
  · cases still
  · exact answer.1
  · exact answer

/-- What a read of a file in chunks has to end in. -/
structure ReadsChunks (data : Bytes) (outcome : ReadAllOutcome) (s : ChunkedFile) : Prop where
  inBounds : ∀ a ∈ s.reads, a.InBounds
  whole : (data.length : ℤ) ≤ maxReadSize →
    outcome.status = VFS_STATE_SUCCESS ∧ outcome.success = true ∧ outcome.contents = data ∧
      outcome.size = data.length
  refused : maxReadSize < (data.length : ℤ) →
    outcome.status = VFS_ERROR_READ ∧ outcome.success = false ∧ outcome.data = none ∧
      outcome.contents = [] ∧ outcome.errorMessage.isSome

/-- The probe tells a file of the size of the cap from a larger one. -/
theorem probeEnd_spec {data : Bytes} {path : FlString} {entry : PluginEntry}
    {handle : DriverPtr} {c : ChunkState} {s s' : ChunkedFile}
    {result : ReadAllOutcome ⊕ FileContents} (h : ChunkInv data c s)
    (full : c.totalRead = maxReadSize)
    (run : Run Chunked (probeEnd path entry handle c) s result s') :
    (∀ a ∈ s'.reads, a.InBounds) ∧
      ((maxReadSize < (data.length : ℤ) ∧
          ∃ message, result = .inl { status := VFS_ERROR_READ, errorMessage := some message }) ∨
        (data.length : ℤ) = maxReadSize ∧ result = .inr ⟨c.buffer, data, data.length⟩) := by
  have size := congrArg List.length h.contents
  rw [List.length_append] at size
  have total := h.total
  unfold probeEnd at run
  obtain ⟨r, s₁, read, rest⟩ := run_bind.mp run
  obtain ⟨after, delivers, rfl⟩ := run_call.mp read
  obtain ⟨length, most, split, empty⟩ := delivers one_pos
  have reads : ∀ a ∈ s.reads ++ [⟨.probe, 1, s.buffer⟩], a.InBounds := by
    intro a ha
    rcases List.mem_append.mp ha with ha | ha
    · exact h.reads a ha
    · exact List.mem_singleton.mp ha ▸ rfl
  rw [if_neg (by omega)] at rest
  split_ifs at rest with more
  · obtain ⟨failure, s₂, failing, done⟩ := run_bind.mp rest
    obtain ⟨rfl, rfl⟩ := run_done.mp done
    cases Chunked.quiet (readAllSetError_only ..) failing
    refine ⟨reads, .inl ⟨?_, _, congrArg Sum.inl (readAllSetError_outcome failing)⟩⟩
    have left := congrArg List.length split
    rw [List.length_append] at left
    omega
  · obtain ⟨rfl, rfl⟩ := run_done.mp rest
    have nothing : r.contents = [] := List.length_eq_zero_iff.mp (by omega)
    have whole : c.contents = data := by
      rw [h.contents, empty nothing, List.append_nil]
    refine ⟨reads, .inr ⟨?_, ?_⟩⟩
    · rw [← whole, ← total, full]
    · rw [← whole, ← total]

theorem readUnknownSize_spec {data : Bytes} {path : FlString} {entry : PluginEntry}
    {handle : DriverPtr} {buffer : BufferPtr} {s s' : ChunkedFile}
    {result : ReadAllOutcome ⊕ FileContents} (unread : s.unread = data) (reads : s.reads = [])
    (run : Run Chunked (readUnknownSize path entry handle buffer) s result s') :
    (∀ a ∈ s'.reads, a.InBounds) ∧
      ((maxReadSize < (data.length : ℤ) ∧
          ∃ message, result = .inl { status := VFS_ERROR_READ, errorMessage := some message }) ∨
        (data.length : ℤ) ≤ maxReadSize ∧ ∃ b, result = .inr ⟨b, data, data.length⟩) := by
  unfold readUnknownSize at run
  obtain ⟨_, s₁, released, rest⟩ := run_bind.mp run
  cases (run_call.mp released : s₁ = s)
  obtain ⟨chunk, s₂, allocated, rest⟩ := run_bind.mp rest
  obtain ⟨b, rfl, rfl⟩ := run_call.mp allocated
  obtain ⟨ended, s₃, looped, rest⟩ := run_bind.mp rest
  obtain ⟨c, eof, rfl, inv, atEnd, atCap⟩ :=
    readChunks_spec (chunkInv_start unread reads) firstRounds looped
  have size := congrArg List.length inv.contents
  rw [List.length_append] at size
  have total := inv.total
  have filled := inv.filled
  have most := inv.most
  cases eof with
  | true =>
      obtain ⟨rfl, rfl⟩ := run_done.mp rest
      have whole : c.contents = data := by
        rw [inv.contents, atEnd rfl, List.append_nil]
      refine ⟨inv.reads, .inr ⟨?_, c.buffer, ?_⟩⟩
      · rw [← whole, ← total]
        omega
      · rw [← whole, ← total]
  | false =>
      obtain ⟨bounds, probed⟩ := probeEnd_spec inv (atCap rfl) rest
      refine ⟨bounds, probed.imp_right fun exactly => ⟨exactly.1.le, c.buffer, exactly.2⟩⟩

/-- How a read of a file of `data` ends behind its open. -/
def ReadsOpened (path : FlString) (data : Bytes) (outcome : ReadAllOutcome) (s : ChunkedFile) :
    OpenOutcome → Prop
  | .failed status => s = { unread := data } ∧ outcome =
      { status := status, errorMessage := some ("Failed to read '%S': file not found", path) }
  | .opened .. => ReadsChunks data outcome s

theorem readAllOpened_chunks {path : FlString} {data : Bytes} {opened : OpenOutcome}
    {outcome : ReadAllOutcome} {s : ChunkedFile}
    (run : Run Chunked (readAllOpened path opened) { unread := data } outcome s) :
    ReadsOpened path data outcome s opened := by
  cases opened with
  | failed status =>
      obtain ⟨_, s₁, notified, done⟩ := run_bind.mp run
      obtain ⟨rfl, rfl⟩ := run_done.mp done
      cases Chunked.quiet readAllNotifyFailure_only notified
      exact ⟨rfl, rfl⟩
  | opened entry pluginHandle handle =>
      obtain ⟨read, s₁, reading, rest⟩ := run_bind.mp run
      unfold readContents at reading
      obtain ⟨size, s₂, sized, reading⟩ := run_bind.mp reading
      obtain ⟨rfl, zero⟩ := run_call.mp sized
      cases zero rfl
      rw [if_neg (lt_irrefl 0), if_neg (by decide : ¬ maxReadSize < 0)] at reading
      obtain ⟨first, s₃, allocated, reading⟩ := run_bind.mp reading
      obtain ⟨b, rfl, rfl⟩ := run_call.mp allocated
      obtain ⟨canceled, s₄, polled, reading⟩ := run_bind.mp reading
      obtain ⟨rfl, rfl⟩ : s₄ = _ ∧ canceled = false := run_call.mp polled
      rw [if_neg (by simp), if_neg (lt_irrefl 0)] at reading
      have unread : ({ unread := data, buffer := some (b, if (0 : ℤ) < 0 then 0 else 1) } :
          ChunkedFile).unread = data := rfl
      obtain ⟨bounds, ⟨large, message, rfl⟩ | ⟨small, buffer, rfl⟩⟩ :=
        readUnknownSize_spec unread rfl reading
      · obtain ⟨rfl, rfl⟩ := run_done.mp rest
        exact ⟨bounds, fun small => by omega, fun _ => ⟨rfl, rfl, rfl, rfl, rfl⟩⟩
      · obtain ⟨_, s₅, closed, rest⟩ := run_bind.mp rest
        cases (run_call.mp closed : s₅ = s₁)
        obtain ⟨answer, s₆, called, rest⟩ := run_bind.mp rest
        obtain ⟨rfl, rfl⟩ : s₆ = s₁ ∧ answer = none := run_call.mp called
        obtain ⟨rfl, rfl⟩ := run_done.mp rest
        exact ⟨bounds, fun _ => ⟨rfl, rfl, rfl, rfl⟩, fun large => by omega⟩

/-- For every driver that reports no size and every way in which it cuts a file into
chunks: the loop ends at the end of the file or at the cap, and a read is its open and what
follows on that: where the open gave out a file, it is read whole if it is within the cap and
refused otherwise, and where it failed, nothing is read and the read fails with its status. -/
theorem read_all_chunks {self : VfsState} {slots worker : ℕ} {path : FlString} {data : Bytes}
    {outcome : ReadAllOutcome} {s : ChunkedFile}
    (run : Run Chunked (vfsOpReadAll self slots path worker) { unread := data } outcome s) :
    (∀ entry handle b ended s', Run Chunked
        (readChunks path entry handle maxReadSize.toNat { buffer := b, capacity := 64 * 1024 })
        { unread := data, buffer := some (b, 64 * 1024) } ended s' →
      ∃ c reachedEof, ended = .stopped c reachedEof ∧
        (reachedEof = false → c.totalRead = maxReadSize)) ∧
    (∃ opened, Run Chunked (vfsOpFileOpen self slots path openFlagsRead worker)
        { unread := data } opened { unread := data } ∧
      Run Chunked (readAllOpened path opened) { unread := data } outcome s) ∧
    ∀ opened, Run Chunked (vfsOpFileOpen self slots path openFlagsRead worker)
        { unread := data } opened { unread := data } →
      Run Chunked (readAllOpened path opened) { unread := data } outcome s →
        ReadsOpened path data outcome s opened := by
  refine ⟨?_, ?_, fun opened _ rest => readAllOpened_chunks rest⟩
  · intro entry handle b ended s' looped
    obtain ⟨c, eof, stopped, -, -, atCap⟩ :=
      readChunks_spec (chunkInv_start (s := { unread := data }) rfl rfl) firstRounds looped
    exact ⟨c, eof, stopped, atCap⟩
  · obtain ⟨opened, s₁, opening, rest⟩ := run_bind.mp run
    have still := (fileOpen_only self slots path openFlagsRead worker).mono fun _ => OpenOp.still
    cases Chunked.quiet still opening
    exact ⟨opened, opening, rest⟩

/-! ### A file of two bytes -/

def plainDriver : PluginEntry := ⟨0, { name := ['l'] }⟩

/-- A read of the file `f` of two bytes below the root, of which `delivered` are read. -/
theorem twoBytes_run (delivered : Bytes) (fits : (delivered.length : ℤ) ≤ 2) :
    Run (Sized 2) (vfsOpReadAll ⟨[plainDriver], letters⟩ 1 ['f'] 0) []
      { status := VFS_STATE_SUCCESS
        data := some 0
        contents := delivered
        size := delivered.length
        success := true } [⟨delivered.length, delivered⟩] := by
  refine .perform (r := ((0 : ℕ), (⟨some plainDriver, some 0⟩ : DriverView))) rfl ?_
  refine .perform (r := ((0 : ℕ), (⟨some plainDriver, some 0⟩ : DriverView))) rfl ?_
  refine .perform (r := ({} : MountOptions)) rfl ?_
  refine .perform (r := (⟨some 1, false, false⟩ : OpenResult)) rfl ?_
  refine .perform (r := (2 : ℤ)) ⟨rfl, fun _ => rfl⟩ ?_
  refine .perform (r := some (0 : ℕ)) rfl ?_
  refine .perform (r := false) rfl ?_
  refine .perform (r := (⟨delivered.length, delivered⟩ : ReadResult))
    ⟨rfl, .inr ⟨by simp, fits, rfl⟩⟩ ?_
  refine .perform (r := ()) rfl ?_
  refine .perform (r := none) ⟨rfl, rfl⟩ ?_
  exact .done _ _

theorem read_all_whole_two_bytes :
    EndsWhole 2 { status := VFS_STATE_SUCCESS, data := some 0, contents := [1, 2], size := 2,
                  success := true } := by
  refine (read_all_whole_iff (by decide) (by decide) (twoBytes_run [1, 2] (by decide))).mpr ?_
  decide

/-- One byte of two, and the read succeeds. -/
theorem read_all_truncated : ∃ outcome reads,
    Run (Sized 2) (vfsOpReadAll ⟨[plainDriver], letters⟩ 1 ['f'] 0) [] outcome reads ∧
      outcome.status = VFS_STATE_SUCCESS ∧ outcome.success = true ∧
      outcome.contents.length = 1 ∧ ¬ EndsWhole 2 outcome := by
  refine ⟨_, _, twoBytes_run [1] (by decide), rfl, rfl, rfl, fun ends => ?_⟩
  exact absurd (ends rfl) (by decide)

def threeBytesOutcome : ReadAllOutcome :=
  { status := VFS_STATE_SUCCESS, data := some 0, contents := [1, 2, 3], size := 3,
    success := true }

def threeBytesRead : ChunkedFile :=
  { unread := []
    buffer := some (0, 64 * 1024)
    reads := [⟨.buffer 0 0, 64 * 1024, some (0, 64 * 1024)⟩,
      ⟨.buffer 0 1, 64 * 1024 - 1, some (0, 64 * 1024)⟩,
      ⟨.buffer 0 3, 64 * 1024 - 3, some (0, 64 * 1024)⟩] }

theorem threeBytes_open :
    Run Chunked (vfsOpFileOpen ⟨[plainDriver], letters⟩ 1 ['f'] openFlagsRead 0)
      { unread := [1, 2, 3] } (.opened plainDriver (some 0) 1) { unread := [1, 2, 3] } := by
  refine .perform (r := ((0 : ℕ), (⟨some plainDriver, some 0⟩ : DriverView))) rfl ?_
  refine .perform (r := ((0 : ℕ), (⟨some plainDriver, some 0⟩ : DriverView))) rfl ?_
  refine .perform (r := ({} : MountOptions)) rfl ?_
  refine .perform (r := (⟨some 1, false, false⟩ : OpenResult)) rfl ?_
  exact .done _ _

/-- A file `f` of three bytes that comes in two chunks. -/
theorem threeBytes_opened :
    Run Chunked (readAllOpened ['f'] (.opened plainDriver (some 0) 1)) { unread := [1, 2, 3] }
      threeBytesOutcome threeBytesRead := by
  refine .perform (r := (0 : ℤ)) ⟨rfl, fun _ => rfl⟩ ?_
  refine .perform (r := some (0 : ℕ)) ⟨0, rfl, rfl⟩ ?_
  refine .perform (r := false) ⟨rfl, rfl⟩ ?_
  refine .perform (r := ()) rfl ?_
  refine .perform (r := some (0 : ℕ)) ⟨0, rfl, rfl⟩ ?_
  refine .perform (r := false) ⟨rfl, rfl⟩ ?_
  refine .perform (r := (⟨1, [1]⟩ : ReadResult)) ⟨[2, 3], fun _ => by decide, rfl⟩ ?_
  refine .perform (r := false) ⟨rfl, rfl⟩ ?_
  refine .perform (r := (⟨2, [2, 3]⟩ : ReadResult)) ⟨[], fun _ => by decide, rfl⟩ ?_
  refine .perform (r := false) ⟨rfl, rfl⟩ ?_
  refine .perform (r := (⟨0, []⟩ : ReadResult)) ⟨[], fun _ => by decide, rfl⟩ ?_
  refine .perform (r := ()) rfl ?_
  refine .perform (r := none) ⟨rfl, rfl⟩ ?_
  exact .done _ _

theorem read_all_chunks_three_bytes :
    Run Chunked (vfsOpReadAll ⟨[plainDriver], letters⟩ 1 ['f'] 0) { unread := [1, 2, 3] }
      threeBytesOutcome threeBytesRead ∧ ReadsChunks [1, 2, 3] threeBytesOutcome threeBytesRead := by
  have run : Run Chunked (vfsOpReadAll ⟨[plainDriver], letters⟩ 1 ['f'] 0)
      { unread := [1, 2, 3] } threeBytesOutcome threeBytesRead :=
    run_bind.mpr ⟨_, _, threeBytes_open, threeBytes_opened⟩
  exact ⟨run, (read_all_chunks run).2.2 _ threeBytes_open threeBytes_opened⟩

end FlowiVfs.Tree
