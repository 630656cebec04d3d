import FlowiVfs.ResultChannels

/-!
# What a mapped read yields

The read of `Mount::read_with` as a read-all whose callback is `map_trampoline`. The
drivers, the allocator and cancellation answer as they like, within the contract of a
read: what it counts is what it put into the buffer. The transform is any function of
the bytes; where it has no value it panics.

The outcome of the read reaches the poller on two ways, the success of the payload and
the state of the slot.
-/
namespace FlowiVfs.Tree

open Program

variable {T : Type}

/-- `MapState` with the value that it holds. -/
inductive MapSlot (T : Type)
  | pending
  | done (value : T)
  | taken

/-- What the buffers hold, the slot of the read, and what the transform was applied to,
oldest first. -/
structure MapWorld (T : Type) where
  memory : BufferPtr → Bytes := fun _ => []
  slot : MapSlot T := .pending
  applied : List Bytes := []

def MapWorld.store (w : MapWorld T) (b : BufferPtr) (bytes : Bytes) : MapWorld T :=
  { w with memory := Function.update w.memory b bytes }

/-- `bytes` of `map_trampoline`. -/
def MapWorld.slice (w : MapWorld T) (data : Option BufferPtr) (size : ℤ) : Bytes :=
  match data with
  | none => []
  | some b => if size ≤ 0 then [] else (w.memory b).take size.toNat

/-- `map_trampoline` on a slot that is there. The lock is never poisoned. -/
def mapTrampoline (transform : Bytes → Option T) (data : Option BufferPtr) (size : ℤ)
    (w : MapWorld T) : CallbackResult × MapWorld T :=
  let failed := fun success => (⟨data, size, success⟩ : CallbackResult)
  match w.slot with
  | .pending =>
      let bytes := w.slice data size
      let w := { w with slot := .taken, applied := w.applied ++ [bytes] }
      match transform bytes with
      | none => (failed false, w)
      | some value => (failed true, { w with slot := .done value })
  | _ => (failed false, { w with slot := .taken })

/-- `MappedRead::take_value` -/
def MapSlot.takeValue : MapSlot T → Option T
  | .done value => some value
  | _ => none

/-- `Mapped::drain` on what `vfs_get_data` reports. -/
def Stored.drains (r : Stored) : Bool :=
  (r.resultData.map Payload.success).getD (vfsIsSuccess r.errorStatus)

/-- `MappedRead::poll` on a read that is ready. -/
def mappedPoll (r : Stored) (w : MapWorld T) : Option T :=
  if r.drains then w.slot.takeValue else none

section
variable (transform : Bytes → Option T)

/-- A read of `n` bytes puts them behind what was read before. -/
def Transformed : Environment vfs (MapWorld T) := fun w op r w' =>
  match op, r with
  | .reallocate old _, some (b : BufferPtr) => w' = w.store b (w.memory old)
  | .readFile _ _ (.buffer b offset) _, (r : ReadResult) =>
      if r.bytesRead < 0 then ∃ garbage, w' = w.store b garbage
      else (r.contents.length : ℤ) = r.bytesRead ∧
        w' = w.store b ((w.memory b).take offset.toNat ++ r.contents)
  | .callback data size, r =>
      r = some (mapTrampoline transform data size w).1 ∧ w' = (mapTrampoline transform data size w).2
  | _, _ => w' = w

end

/-- The read succeeded with these bytes. -/
def ReadSucceeded (r : Stored) (bytes : Bytes) : Prop :=
  vfsIsSuccess r.errorStatus = true ∧ ∃ d, r.resultData = some (.data d) ∧ d.contents = bytes

/-- A mapped read yields what the transform makes of the bytes that were read. -/
def YieldsTransformed (transform : Bytes → Option T) (r : Stored) (w : MapWorld T) : Prop :=
  ∀ value, mappedPoll r w = some value ↔
    ∃ bytes, ReadSucceeded r bytes ∧ transform bytes = some value

/-- The transform is applied to nothing but the bytes of a read that succeeded. -/
def AppliedToReads (r : Stored) (w : MapWorld T) : Prop :=
  ∀ bytes ∈ w.applied, ReadSucceeded r bytes

/-! ## The read up to its callback -/

section
variable {transform : Bytes → Option T} {w w' : MapWorld T}

/-- The callback has not run. -/
def MapWorld.Fresh (w : MapWorld T) : Prop := w.slot = .pending ∧ w.applied = []

/-- The callback has run without data. -/
def MapWorld.Notified (w : MapWorld T) : Prop := w.applied = [[]]

/-- What was read of a file is in its buffer. -/
structure InBuffer (w : MapWorld T) (b : BufferPtr) (contents : Bytes) (size : ℤ) : Prop where
  length : (contents.length : ℤ) = size
  memory : (w.memory b).take contents.length = contents

theorem InBuffer.slice {b : BufferPtr} {contents : Bytes} {size : ℤ}
    (h : InBuffer w b contents size) : w.slice (some b) size = contents := by
  have hsize : size.toNat = contents.length := by
    have := h.length
    omega
  unfold MapWorld.slice
  split_ifs with hempty
  · have hlength := h.length
    have hzero : contents.length = 0 := by omega
    exact (List.length_eq_zero_iff.mp hzero).symm
  · rw [hsize]
    exact h.memory

/-- Operations that touch neither buffers nor the callback. -/
def Quieter : VfsOp → Prop
  | .reallocate .. | .readFile .. | .callback .. => False
  | _ => True

theorem Transformed.quiet {op : VfsOp} {r : op.Reply} (h : Quieter op)
    (answer : Transformed transform w op r w') : w' = w := by
  cases op with
  | reallocate | readFile | callback => exact h.elim
  | _ => exact answer

theorem quiet_run {A : Type} {p : VfsProgram A} {a : A} (only : Only Quieter p)
    (run : Run (Transformed transform) p w a w') : w' = w :=
  only.keeps run (I := (· = w)) (fun _ _ _ _ hop hu answer =>
    (Transformed.quiet hop answer).trans hu) rfl

theorem OpenOp.quieter {op : VfsOp} (h : OpenOp op) : Quieter op := by
  cases op with
  | callback | reallocate | readFile => exact absurd h id
  | _ => trivial

theorem notify_run {u : Unit} (h : w.Fresh) (run : Run (Transformed transform)
    readAllNotifyFailure w u w') : w'.Notified := by
  obtain ⟨answer, w₁, hcall, hdone⟩ := run_bind.mp run
  obtain ⟨-, rfl⟩ := run_done.mp hdone
  obtain ⟨-, rfl⟩ : _ ∧ w' = (mapTrampoline transform none 0 w).2 := run_call.mp hcall
  unfold mapTrampoline MapWorld.Notified
  simp only [h.1]
  split
  · simp [h.2, MapWorld.slice]
  · simp [h.2, MapWorld.slice]

/-- A read that failed: it has called back without data. -/
structure FailedRead (outcome : ReadAllOutcome) (w : MapWorld T) : Prop where
  status : vfsIsSuccess outcome.status = false
  success : outcome.success = false
  notified : w.Notified

variable {path : FlString} {entry : PluginEntry} {handle : DriverPtr}

theorem setError_run {buffer : Option BufferPtr} {message : ErrorMessage} {outcome : ReadAllOutcome}
    (h : w.Fresh) (run : Run (Transformed transform)
      (readAllSetError entry handle buffer message) w outcome w') : FailedRead outcome w' := by
  have hfails : ∀ {u : MapWorld T}, u.Fresh → Run (Transformed transform) (do
      onDrivers (driver (.close entry handle))
      readAllNotifyFailure
      pure ({ status := VFS_ERROR_READ, errorMessage := some message } : ReadAllOutcome))
      u outcome w' → FailedRead outcome w' := by
    intro u hu run
    obtain ⟨_, u₁, hclose, hrest⟩ := run_bind.mp run
    obtain rfl := quiet_run (only_onDrivers (fun _ => trivial) _) hclose
    obtain ⟨_, u₂, hnotify, hdone⟩ := run_bind.mp hrest
    obtain ⟨rfl, rfl⟩ := run_done.mp hdone
    exact ⟨accords_driver, rfl, notify_run hu hnotify⟩
  cases buffer with
  | none => exact hfails h run
  | some b =>
      obtain ⟨_, w₁, hfree, hrest⟩ := run_bind.mp run
      cases (run_call.mp hfree : w₁ = w)
      exact hfails h hrest

theorem canceled_run {buffer : BufferPtr} {outcome : ReadAllOutcome} (h : w.Fresh)
    (run : Run (Transformed transform) (readAllCanceled entry handle buffer path) w outcome w') :
    FailedRead outcome w' := by
  obtain ⟨failure, w₁, hset, hdone⟩ := run_bind.mp run
  obtain ⟨rfl, rfl⟩ := run_done.mp hdone
  have hfailed := setError_run h hset
  exact ⟨accords_canceled, hfailed.success, hfailed.notified⟩

/-- Where a read ended, and with what in its buffer. -/
def ReadEnds (w : MapWorld T) : ReadAllOutcome ⊕ FileContents → Prop
  | .inl outcome => FailedRead outcome w
  | .inr file => w.Fresh ∧ InBuffer w file.buffer file.contents file.size

theorem failure_ends {buffer : Option BufferPtr} {message : ErrorMessage}
    {result : ReadAllOutcome ⊕ FileContents} (h : w.Fresh) (run : Run (Transformed transform) (do
      let failure ← readAllSetError entry handle buffer message
      pure (.inl failure)) w result w') : ReadEnds w' result := by
  obtain ⟨failure, w₁, hset, hdone⟩ := run_bind.mp run
  obtain ⟨rfl, rfl⟩ := run_done.mp hdone
  exact setError_run h hset

/-- A read into a buffer, behind what it holds. -/
theorem readFile_run {b : BufferPtr} {offset size : ℤ} {r : ReadResult} {contents : Bytes}
    (h : w.Fresh) (hin : InBuffer w b contents offset)
    (run : Run (Transformed transform) (perform (.readFile entry handle (.buffer b offset) size))
      w r w') :
    w'.Fresh ∧ (0 ≤ r.bytesRead →
      InBuffer w' b (contents ++ r.contents) (offset + r.bytesRead)) := by
  have answer : if r.bytesRead < 0 then ∃ garbage, w' = w.store b garbage
    else (r.contents.length : ℤ) = r.bytesRead ∧
      w' = w.store b ((w.memory b).take offset.toNat ++ r.contents) := run_call.mp run
  split_ifs at answer with hfailed
  · obtain ⟨garbage, rfl⟩ := answer
    exact ⟨h, fun hpos => absurd hfailed (Int.not_lt.mpr hpos)⟩
  · obtain ⟨hlength, rfl⟩ := answer
    have hoffset : offset.toNat = contents.length := by
      have := hin.length
      omega
    refine ⟨h, fun _ => ⟨?_, ?_⟩⟩
    · rw [List.length_append]
      have := hin.length
      push_cast
      omega
    · simp only [MapWorld.store, Function.update_self]
      rw [hoffset, hin.memory, List.take_length]

theorem knownSize_run {b : BufferPtr} {size : ℤ} {result : ReadAllOutcome ⊕ FileContents}
    (h : w.Fresh) (run : Run (Transformed transform) (readKnownSize path entry handle b size)
      w result w') : ReadEnds w' result := by
  unfold readKnownSize at run
  obtain ⟨r, w₁, hread, hrest⟩ := run_bind.mp run
  have hempty : InBuffer w b [] 0 := ⟨rfl, rfl⟩
  obtain ⟨h₁, hin⟩ := readFile_run h hempty hread
  split_ifs at hrest with hfailed
  · exact failure_ends h₁ hrest
  · obtain ⟨rfl, rfl⟩ := run_done.mp hrest
    have hfile := hin (Int.not_lt.mp hfailed)
    rw [List.nil_append, zero_add] at hfile
    exact ⟨h₁, hfile⟩

/-- The chunk loop so far. -/
def Chunking (w : MapWorld T) (c : ChunkState) : Prop :=
  w.Fresh ∧ InBuffer w c.buffer c.contents c.totalRead

def ChunksEnd (w : MapWorld T) : ChunkEnd → Prop
  | .failed outcome => FailedRead outcome w
  | .stopped c _ => Chunking w c

theorem growBuffer_run {c : ChunkState} {grown : Option ChunkState} (h : Chunking w c)
    (run : Run (Transformed transform) (growBuffer c) w grown w') :
    w'.Fresh ∧ ∀ c' ∈ grown, Chunking w' c' := by
  unfold growBuffer at run
  split_ifs at run
  · obtain ⟨moved, w₁, hmove, hrest⟩ := run_bind.mp run
    have answer := run_call.mp hmove
    cases moved with
    | none =>
        cases (answer : w₁ = w)
        obtain ⟨rfl, rfl⟩ := run_done.mp hrest
        exact ⟨h.1, nofun⟩
    | some b =>
        cases (answer : w₁ = w.store b (w.memory c.buffer))
        obtain ⟨rfl, rfl⟩ := run_done.mp hrest
        refine ⟨h.1, ?_⟩
        rintro c' ⟨⟩
        refine ⟨h.1, h.2.length, ?_⟩
        simp only [MapWorld.store, Function.update_self]
        exact h.2.memory
  · obtain ⟨rfl, rfl⟩ := run_done.mp run
    refine ⟨h.1, ?_⟩
    rintro c' ⟨⟩
    exact h

theorem readChunks_run {left : ℕ} {c : ChunkState} {ended : ChunkEnd} (h : Chunking w c)
    (run : Run (Transformed transform) (readChunks path entry handle left c) w ended w') :
    ChunksEnd w' ended := by
  induction left generalizing c w with
  | zero =>
      obtain ⟨rfl, rfl⟩ := run_done.mp run
      exact h
  | succ left ih =>
      have hfails : ∀ {u : MapWorld T} {b : BufferPtr} {message : ErrorMessage}, u.Fresh →
          Run (Transformed transform) (do
            let outcome ← readAllSetError entry handle (some b) message
            pure (.failed outcome)) u ended w' → ChunksEnd w' ended := by
        intro u b message hu hrun
        obtain ⟨outcome, u₁, hset, hdone⟩ := run_bind.mp hrun
        obtain ⟨rfl, rfl⟩ := run_done.mp hdone
        exact setError_run hu hset
      unfold readChunks at run
      split_ifs at run with hbelow
      · obtain ⟨canceled, w₁, hpoll, hrest⟩ := run_bind.mp run
        cases (run_call.mp hpoll : w₁ = w)
        split_ifs at hrest
        · obtain ⟨outcome, w₂, hcancel, hdone⟩ := run_bind.mp hrest
          obtain ⟨rfl, rfl⟩ := run_done.mp hdone
          exact canceled_run h.1 hcancel
        · obtain ⟨grown, w₂, hgrow, hrest⟩ := run_bind.mp hrest
          obtain ⟨hfresh, hgrown⟩ := growBuffer_run h hgrow
          cases grown with
          | none => exact hfails hfresh hrest
          | some c₁ =>
              obtain ⟨-, hin⟩ := hgrown c₁ rfl
              obtain ⟨r, w₃, hread, hrest⟩ := run_bind.mp hrest
              obtain ⟨h₃, hmore⟩ := readFile_run hfresh hin hread
              split_ifs at hrest with hfailed hend
              · exact hfails h₃ hrest
              · obtain ⟨rfl, rfl⟩ := run_done.mp hrest
                refine ⟨h₃, ?_⟩
                have hsame := hmore (Int.le_of_eq hend.symm)
                refine ⟨hin.length, ?_⟩
                have hprefix := congrArg (List.take c₁.contents.length) hsame.memory
                rw [List.take_take, List.take_left'] at hprefix
                · rw [List.length_append, min_eq_left (Nat.le_add_right _ _)] at hprefix
                  exact hprefix
                · rfl
              · exact ih ⟨h₃, hmore (Int.not_lt.mp hfailed)⟩ hrest
      · obtain ⟨rfl, rfl⟩ := run_done.mp run
        exact h

theorem probeEnd_run {c : ChunkState} {result : ReadAllOutcome ⊕ FileContents} (h : Chunking w c)
    (run : Run (Transformed transform) (probeEnd path entry handle c) w result w') :
    ReadEnds w' result := by
  unfold probeEnd at run
  obtain ⟨probe, w₁, hprobe, hrest⟩ := run_bind.mp run
  cases (run_call.mp hprobe : w₁ = w)
  split_ifs at hrest
  · exact failure_ends h.1 hrest
  · exact failure_ends h.1 hrest
  · obtain ⟨rfl, rfl⟩ := run_done.mp hrest
    exact h

theorem unknownSize_run {b : BufferPtr} {result : ReadAllOutcome ⊕ FileContents} (h : w.Fresh)
    (run : Run (Transformed transform) (readUnknownSize path entry handle b) w result w') :
    ReadEnds w' result := by
  unfold readUnknownSize at run
  obtain ⟨_, w₁, hfree, hrest⟩ := run_bind.mp run
  cases (run_call.mp hfree : w₁ = w)
  obtain ⟨chunk, w₂, halloc, hrest⟩ := run_bind.mp hrest
  cases (run_call.mp halloc : w₂ = w)
  cases chunk with
  | none => exact failure_ends h hrest
  | some chunk =>
      obtain ⟨ended, w₃, hchunks, hrest⟩ := run_bind.mp hrest
      have hstart : Chunking w { buffer := chunk, capacity := 64 * 1024 } := ⟨h, rfl, rfl⟩
      have hended := readChunks_run hstart hchunks
      match ended with
      | .failed outcome =>
          obtain ⟨rfl, rfl⟩ := run_done.mp hrest
          exact hended
      | .stopped c true =>
          obtain ⟨rfl, rfl⟩ := run_done.mp hrest
          exact hended
      | .stopped c false => exact probeEnd_run hended hrest

theorem readContents_run {result : ReadAllOutcome ⊕ FileContents} (h : w.Fresh)
    (run : Run (Transformed transform) (readContents path entry handle) w result w') :
    ReadEnds w' result := by
  unfold readContents at run
  obtain ⟨size, w₁, hsize, hrest⟩ := run_bind.mp run
  obtain rfl := quiet_run (only_onDrivers (fun _ => trivial) _) hsize
  split_ifs at hrest
  · exact failure_ends h hrest
  · exact failure_ends h hrest
  all_goals
    obtain ⟨buffer, w₂, halloc, hrest⟩ := run_bind.mp hrest
    cases (run_call.mp halloc : w₂ = w₁)
    cases buffer with
    | none => exact failure_ends h hrest
    | some buffer =>
        obtain ⟨canceled, w₃, hpoll, hrest⟩ := run_bind.mp hrest
        cases (run_call.mp hpoll : w₃ = w₁)
        split_ifs at hrest
        · obtain ⟨outcome, w₄, hcancel, hdone⟩ := run_bind.mp hrest
          obtain ⟨rfl, rfl⟩ := run_done.mp hdone
          exact canceled_run h hcancel
        · first | exact knownSize_run h hrest | exact unknownSize_run h hrest

/-! ## The callback and the poll -/

/-- How a mapped read ends: without data, or with the transform applied to all that was read. -/
inductive MappedEnd (transform : Bytes → Option T) (r : Stored) (w : MapWorld T) : Prop
  | failed (status : vfsIsSuccess r.errorStatus = false) (drains : r.drains = false)
      (notified : w.Notified)
  | read (d : ReadAllOutcome) (data : r.resultData = some (.data d))
      (status : vfsIsSuccess r.errorStatus = true) (applied : w.applied = [d.contents])
      (value : if d.success then ∃ v, transform d.contents = some v ∧ w.slot = .done v
        else transform d.contents = none)

theorem FailedRead.ends {outcome : ReadAllOutcome} (h : FailedRead outcome w) :
    MappedEnd transform outcome.stored w :=
  .failed h.status h.success h.notified

theorem finishRead_run {file : FileContents} {outcome : ReadAllOutcome} (h : w.Fresh)
    (hin : InBuffer w file.buffer file.contents file.size)
    (run : Run (Transformed transform) (finishRead file) w outcome w') :
    MappedEnd transform outcome.stored w' := by
  unfold finishRead at run
  obtain ⟨answer, w₁, hcall, hrest⟩ := run_bind.mp run
  obtain ⟨hanswer, rfl⟩ : answer = some (mapTrampoline transform (some file.buffer) file.size w).1 ∧
    w₁ = (mapTrampoline transform (some file.buffer) file.size w).2 := run_call.mp hcall
  have hdata : (mapTrampoline transform (some file.buffer) file.size w).1.data =
      some file.buffer := by
    unfold mapTrampoline
    simp only [h.1]
    split <;> rfl
  subst hanswer
  simp only [hdata, if_true] at hrest
  obtain ⟨rfl, rfl⟩ := run_done.mp hrest
  refine .read _ rfl accords_success ?_ ?_
  · unfold mapTrampoline
    simp only [h.1, hin.slice, h.2, List.nil_append]
    split <;> rfl
  · unfold mapTrampoline
    simp only [h.1, hin.slice]
    cases hvalue : transform file.contents with
    | none => simp
    | some value => simp

theorem readAll_run {self : VfsState} {slots worker : ℕ} {outcome : ReadAllOutcome}
    (h : w.Fresh) (run : Run (Transformed transform) (vfsOpReadAll self slots path worker)
      w outcome w') : MappedEnd transform outcome.stored w' := by
  obtain ⟨opened, w₁, hopen, hrest⟩ := run_bind.mp run
  have hopened : opened.Accords := vfsOpFileOpen_accords.run hopen
  obtain rfl := quiet_run ((fileOpen_only ..).mono fun _ => OpenOp.quieter) hopen
  cases opened with
  | failed status =>
      obtain ⟨_, w₂, hnotify, hdone⟩ := run_bind.mp hrest
      obtain ⟨rfl, rfl⟩ := run_done.mp hdone
      exact .failed hopened rfl (notify_run h hnotify)
  | opened entry pluginHandle handle =>
      obtain ⟨read, w₂, hread, hrest⟩ := run_bind.mp hrest
      have hends := readContents_run h hread
      cases read with
      | inl failure =>
          obtain ⟨rfl, rfl⟩ := run_done.mp hrest
          exact hends.ends
      | inr file =>
          obtain ⟨_, w₃, hclose, hfinish⟩ := run_bind.mp hrest
          obtain rfl := quiet_run (only_onDrivers (fun _ => trivial) _) hclose
          exact finishRead_run hends.1 hends.2 hfinish

theorem mapped_ends {self : VfsState} {slots worker : ℕ} {Score : Type} [LinearOrder Score]
    {matcher : Matcher Score} {r : Stored} (h : w.Fresh)
    (run : Run (withFiles (Transformed transform)) (Operation.execute self slots matcher worker
      (.readAll path)) w (some r) w') : MappedEnd transform r w' := by
  obtain ⟨canceled, w₁, hpoll, hrest⟩ := run_bind.mp run
  have hpoll := run_onMounts.mp hpoll
  cases (run_call.mp hpoll : w₁ = w)
  cases canceled with
  | true =>
      obtain ⟨_, w₂, hnotify, hdone⟩ := run_bind.mp hrest
      obtain ⟨heq, rfl⟩ := run_done.mp hdone
      cases heq
      exact .failed accords_canceled accords_canceled (notify_run h (run_onMounts.mp hnotify))
  | false =>
      obtain ⟨outcome, w₂, hread, hdone⟩ := run_bind.mp hrest
      obtain ⟨heq, rfl⟩ := run_done.mp hdone
      cases heq
      exact readAll_run h (run_onMounts.mp hread)

/-- A mapped read yields the right value whether its read succeeded or not. -/
theorem MappedEnd.yields {r : Stored} (h : MappedEnd transform r w) :
    YieldsTransformed transform r w := by
  intro value
  cases h with
  | failed status drains notified =>
      refine iff_of_false ?_ ?_
      · simp [mappedPoll, drains]
      · rintro ⟨bytes, ⟨hsuccess, -⟩, -⟩
        rw [status] at hsuccess
        cases hsuccess
  | read d data status applied hvalue =>
      have hdrains : r.drains = d.success := by
        simp [Stored.drains, data, Payload.success]
      have hread : (∃ bytes, ReadSucceeded r bytes ∧ transform bytes = some value) ↔
          transform d.contents = some value := by
        constructor
        · rintro ⟨bytes, ⟨-, d', hd', rfl⟩, htransform⟩
          rw [data] at hd'
          cases hd'
          exact htransform
        · exact fun htransform => ⟨d.contents, ⟨status, d, data, rfl⟩, htransform⟩
      rw [hread]
      cases hsuccess : d.success with
      | false =>
          rw [hsuccess] at hvalue hdrains
          have hnone : transform d.contents = none := hvalue
          simp [mappedPoll, hdrains, hnone]
      | true =>
          rw [hsuccess] at hvalue hdrains
          obtain ⟨v, hv, hslot⟩ : ∃ v, transform d.contents = some v ∧ w.slot = .done v := hvalue
          simp [mappedPoll, hdrains, hslot, hv, MapSlot.takeValue]

theorem MappedEnd.applied_iff {r : Stored} (h : MappedEnd transform r w) :
    AppliedToReads r w ↔ vfsIsSuccess r.errorStatus = true := by
  cases h with
  | failed status drains notified =>
      refine iff_of_false ?_ ?_
      · intro hreads
        have hsuccess := (hreads [] (notified ▸ List.mem_singleton_self _)).1
        rw [status] at hsuccess
        cases hsuccess
      · simp [status]
  | read d data status applied value =>
      refine iff_of_true ?_ status
      intro bytes hbytes
      rw [applied] at hbytes
      exact List.mem_singleton.mp hbytes ▸ ⟨status, d, data, rfl⟩

end

section
variable {transform : Bytes → Option T} {self : VfsState} {slots worker : ℕ} {Score : Type}
variable [LinearOrder Score] {matcher : Matcher Score} {path : FlString} {r : Stored}
variable {memory : BufferPtr → Bytes} {w : MapWorld T}

/-- A mapped read that is over yields the transformed bytes, or an error. -/
theorem mapped_yields (run : Run (withFiles (Transformed transform))
    (Operation.execute self slots matcher worker (.readAll path)) { memory := memory } (some r) w) :
    YieldsTransformed transform r w :=
  (mapped_ends (w := { memory := memory }) ⟨rfl, rfl⟩ run).yields

/-- Its transform is applied to nothing else exactly if the underlying read succeeded. -/
theorem mapped_right_iff (run : Run (withFiles (Transformed transform))
    (Operation.execute self slots matcher worker (.readAll path)) { memory := memory } (some r) w) :
    YieldsTransformed transform r w ∧ AppliedToReads r w ↔ vfsIsSuccess r.errorStatus = true := by
  have hends := mapped_ends (w := { memory := memory }) ⟨rfl, rfl⟩ run
  rw [← hends.applied_iff]
  exact and_iff_right hends.yields

end

/-! ### A file of two bytes, and one that is canceled -/

/-- The transform is the length of what it is given. -/
theorem twoBytes_mapped : Run (withFiles (Transformed fun bytes => some bytes.length))
    (Operation.execute ⟨[plainDriver], letters⟩ 1 (⟨fun _ _ => true, fun _ _ => 0⟩ : Matcher ℕ) 0
      (.readAll ['f'])) {}
    (some (ReadAllOutcome.stored
      { status := VFS_STATE_SUCCESS
        data := some 0
        contents := [1, 2]
        size := 2
        success := true }))
    { memory := Function.update (fun _ => []) 0 [1, 2], slot := .done 2, applied := [[1, 2]] } := by
  refine .perform (r := false) rfl ?_
  refine .perform (r := ((0 : ℕ), (⟨some plainDriver, some 0⟩ : DriverView))) rfl ?_
  refine .perform (r := ((0 : ℕ), (⟨some plainDriver, some 0⟩ : DriverView))) rfl ?_
  refine .perform (r := ({} : MountOptions)) rfl ?_
  refine .perform (r := (⟨some 1, false, false⟩ : OpenResult)) rfl ?_
  refine .perform (r := (2 : ℤ)) rfl ?_
  refine .perform (r := some (0 : ℕ)) rfl ?_
  refine .perform (r := false) rfl ?_
  have hread : withFiles (Transformed fun bytes => some bytes.length) {}
      (.inl (.readFile plainDriver 1 (.buffer 0 0) 2)) (⟨2, [1, 2]⟩ : ReadResult)
      (MapWorld.store {} 0 [1, 2]) := ⟨rfl, rfl⟩
  refine .perform hread ?_
  refine .perform (r := ()) rfl ?_
  have hcallback : withFiles (Transformed fun bytes => some bytes.length)
      (MapWorld.store {} 0 [1, 2]) (.inl (.callback (some 0) 2))
      (some ⟨some 0, 2, true⟩ : Option CallbackResult)
      { memory := Function.update (fun _ => []) 0 [1, 2], slot := .done 2, applied := [[1, 2]] } :=
    ⟨rfl, rfl⟩
  exact .perform hcallback (.done _ _)

theorem mapped_right_two_bytes : ∃ (r : Stored) (w : MapWorld ℕ),
    mappedPoll r w = some 2 ∧ YieldsTransformed (fun bytes => some bytes.length) r w ∧
      AppliedToReads r w := by
  refine ⟨_, _, rfl, (mapped_right_iff twoBytes_mapped).mpr ?_⟩
  exact accords_success

/-- A read that is canceled before it started runs its transform, on no bytes. -/
theorem canceled_read_transformed : ∃ (r : Stored) (w : MapWorld ℕ),
    Run (withFiles (Transformed fun bytes => some bytes.length))
      (Operation.execute ⟨[plainDriver], letters⟩ 1 (⟨fun _ _ => true, fun _ _ => 0⟩ : Matcher ℕ) 0
        (.readAll ['f'])) {} (some r) w ∧
      r.errorStatus = VFS_ERROR_CANCELED ∧ w.applied = [[]] ∧ ¬ AppliedToReads r w := by
  have hcallback : withFiles (Transformed fun bytes => some bytes.length) {}
      (.inl (.callback none 0)) (some ⟨none, 0, true⟩ : Option CallbackResult)
      { slot := .done 0, applied := [[]] } := ⟨rfl, rfl⟩
  refine ⟨{ errorStatus := VFS_ERROR_CANCELED }, { slot := .done 0, applied := [[]] }, ?_, rfl, rfl,
    ?_⟩
  · refine .perform (r := true) rfl ?_
    exact .perform hcallback (.done _ _)
  · intro hreads
    have hread := hreads [] (List.mem_singleton_self _)
    exact absurd hread.1 (by decide)

end FlowiVfs.Tree
