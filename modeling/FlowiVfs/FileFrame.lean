import FlowiVfs.HandleRuns

/-!
# What a file handle sees of the rest of the system

`vfs_chain_file_op` is the only function that makes jobs on behalf of an open
file and that changes the `last_job` of one. `FileFrame i s s'` says what any other
step may do to the handles and the jobs from the point of view of an open file:
chained jobs stay as they are, a file that stays keeps the fields the chains
read, and a handle that goes was idle.
-/
namespace FlowiVfs

/-- How a handle of `s'` came out of `s` in a step of a call at `i`. -/
inductive HandleFrom (i : Instr) (s s' : VfsState) (f : HandlePtr) (d' : VfsHandleData) : Prop
  | born (fresh : s.nextPtr ≤ f) (last : d'.lastJob = d'.jobHandle)
      (pending : d'.pendingDispatches = 0) (file : d'.fileHandle = FL_VFS_HANDLE_INVALID)
  | same (d : VfsHandleData) (was : s.pool f = some d)
      (identity : d'.id = d.id ∧ d'.opType = d.opType ∧ d'.fileHandle = d.fileHandle)
      (last : d'.lastJob = d.lastJob)
      (job : d'.jobHandle = d.jobHandle) (pending : d'.pendingDispatches = d.pendingDispatches)
      (mapped : s.mapGet d.id = some f → s'.mapGet d.id = some f)
  /-- Its job fields are written: it is not an open file that callers can name. -/
  | set (d : VfsHandleData) (was : s.pool f = some d)
      (identity : d'.id = d.id ∧ d'.opType = d.opType ∧ d'.fileHandle = d.fileHandle)
      (last : d'.lastJob = d'.jobHandle)
      (noFile : s.mapGet d.id ≠ some f ∨ d.opType ≠ .fileOpen)
      (owner : i.owns = some f ∨ s.mapGet d.id = some f)
      (pending : d.opType = .fileOpen → d'.pendingDispatches = d.pendingDispatches)
      (mapped : s.mapGet d.id = some f → s'.mapGet d.id = some f)

/-- Events of reads and writes. -/
def Event.ofChain : Event → Bool
  | .entered _ _ | .driverStart _ _ | .driverEnd _ _ => true
  | _ => false

structure FileFrame (i : Instr) (s s' : VfsState) : Prop where
  kept : ∀ j k, s.jobs j = some k → s'.jobs j = some k
  added : ∀ j k, s'.jobs j = some k → s.jobs j = some k ∨
    (s.nextJob ≤ j ∧ k.chained = none ∧ (k.phase ≠ .queued → k.dependency = 0) ∧
      i.unset = some k.target)
  handles : ∀ f d', s'.pool f = some d' → HandleFrom i s s' f d'
  gone : ∀ f d, s.pool f = some d → s'.pool f = none → s.mapGet d.id = some f ∧ Idle s d
  ptr : s.nextPtr ≤ s'.nextPtr
  job : s.nextJob ≤ s'.nextJob
  trace : ∃ es, s'.trace = es ++ s.trace ∧ ∀ e ∈ es, e.ofChain = false

section Frame

variable {s s' s'' : VfsState} {F new : List Instr} {i : Instr} {p : HandlePtr}
  {d : VfsHandleData} {h : FlVfsHandle} {c : ℕ} {t : Thread} {sched : Sched}

theorem FileFrame.of_core (hpool : s'.pool = s.pool)
    (hmap : ∀ f d, s.pool f = some d → s.mapGet d.id = some f → s'.mapGet d.id = some f)
    (hjobs : s'.jobs = s.jobs)
    (hptr : s'.nextPtr = s.nextPtr) (hjob : s'.nextJob = s.nextJob)
    (htrace : ∃ es, s'.trace = es ++ s.trace ∧ ∀ e ∈ es, e.ofChain = false) :
    FileFrame i s s' where
  kept j k hj := hjobs ▸ hj
  added j k hj := .inl (hjobs ▸ hj)
  handles f d hd := by
    rw [hpool] at hd
    exact .same d hd ⟨rfl, rfl, rfl⟩ rfl rfl rfl (hmap f d hd)
  gone f d hd hn := by
    rw [hpool, hd] at hn
    cases hn
  ptr := Nat.le_of_eq hptr.symm
  job := Nat.le_of_eq hjob.symm
  trace := htrace

theorem FileFrame.refl (i : Instr) (s : VfsState) : FileFrame i s s :=
  .of_core rfl (fun _ _ _ h => h) rfl rfl rfl ⟨[], rfl, by simp⟩

/-- The fields of the state that a frame reads. -/
def SameCore (s s' : VfsState) : Prop :=
  s'.pool = s.pool ∧ s'.handleMap = s.handleMap ∧ s'.jobs = s.jobs ∧ s'.nextPtr = s.nextPtr ∧
    s'.nextJob = s.nextJob

/-- A frame between states with the same core and a longer trace. -/
theorem FileFrame.congr {s₀ s₁ : VfsState} (hF : FileFrame i s₀ s₁) (hs : SameCore s₀ s)
    (hs' : SameCore s₁ s') (htrace : ∃ es, s'.trace = es ++ s.trace ∧ ∀ e ∈ es, e.ofChain = false) :
    FileFrame i s s' := by
  obtain ⟨hpool, hmap, hjobs, hptr, hjob⟩ := hs
  obtain ⟨hpool', hmap', hjobs', hptr', hjob'⟩ := hs'
  have hget : ∀ h, s.mapGet h = s₀.mapGet h := fun h => VfsState.mapGet_congr hmap
  have hget' : ∀ h, s'.mapGet h = s₁.mapGet h := fun h => VfsState.mapGet_congr hmap'
  refine ⟨?_, ?_, fun f e he => ?_, ?_, ?_, ?_, htrace⟩
  · rw [hjobs, hjobs']; exact hF.kept
  · rw [hjobs, hjobs', hjob]; exact hF.added
  · rw [hpool'] at he
    cases hF.handles f e he with
    | born h₁ h₂ h₃ h₄ => exact .born (hptr ▸ h₁) h₂ h₃ h₄
    | same d h₁ h₂ h₃ h₄ h₅ h₆ =>
        exact .same d (hpool ▸ h₁) h₂ h₃ h₄ h₅ (by rw [hget, hget']; exact h₆)
    | set d h₁ h₂ h₃ h₄ h₅ h₆ h₇ =>
        exact .set d (hpool ▸ h₁) h₂ h₃ (by rw [hget]; exact h₄) (by rw [hget]; exact h₅) h₆
          (by rw [hget, hget']; exact h₇)
  · intro f d hd hn
    rw [hpool] at hd
    rw [hpool'] at hn
    rw [hget]
    simpa [Idle, VfsState.jobDone_congr hjobs] using hF.gone f d hd hn
  · rw [hptr, hptr']; exact hF.ptr
  · rw [hjob, hjob']; exact hF.job

/-- A write to the results or flags of a handle. -/
theorem FileFrame.touch {f : VfsHandleData → VfsHandleData} (hf : KeepsIdentity f)
    (hfile : ∀ d, (f d).fileHandle = d.fileHandle) (hjobs : ∀ d, (f d).pendingDispatches = d.pendingDispatches ∧
      (f d).jobHandle = d.jobHandle ∧ (f d).lastJob = d.lastJob) : FileFrame i s (s.modify p f) where
  kept _ _ hj := hj
  added _ _ hj := .inl hj
  handles q e he := by
    rcases modify_some he with ⟨rfl, d, hd, rfl⟩ | ⟨-, hd⟩
    · exact .same d hd ⟨(hf d).1, (hf d).2.2, hfile d⟩ (hjobs d).2.2 (hjobs d).2.1 (hjobs d).1
        fun h => h
    · exact .same e hd ⟨rfl, rfl, rfl⟩ rfl rfl rfl fun h => h
  gone q e he hn := by
    rw [VfsState.modify_pool] at hn
    split_ifs at hn with hq
    · subst hq
      simp [he] at hn
    · rw [he] at hn
      cases hn
  ptr := le_rfl
  job := le_rfl
  trace := ⟨[], rfl, by simp⟩

/-- Writing the job fields of a handle that is no open file in the map, its jobs being
added meanwhile. -/
theorem FileFrame.set (s₁ : VfsState) {f : VfsHandleData → VfsHandleData} (hd : s.pool p = some d)
    (hno : s.mapGet d.id ≠ some p ∨ d.opType ≠ .fileOpen)
    (howner : i.owns = some p ∨ s.mapGet d.id = some p) (hf : KeepsIdentity f)
    (hfile : (f d).fileHandle = d.fileHandle) (hlast : (f d).lastJob = (f d).jobHandle)
    (hpend : d.opType = .fileOpen → (f d).pendingDispatches = d.pendingDispatches)
    (hpool : s₁.pool = s.pool) (hmap : s₁.handleMap = s.handleMap) (hptr : s₁.nextPtr = s.nextPtr)
    (hjob : s.nextJob ≤ s₁.nextJob) (htrace : s₁.trace = s.trace)
    (hkept : ∀ j k, s.jobs j = some k → s₁.jobs j = some k)
    (hadded : ∀ j k, s₁.jobs j = some k → s.jobs j = some k ∨
      (s.nextJob ≤ j ∧ k.chained = none ∧ (k.phase ≠ .queued → k.dependency = 0) ∧
      i.unset = some k.target)) :
    FileFrame i s (s₁.modify p f) where
  kept := hkept
  added := hadded
  handles q e he := by
    have hget : ∀ h, (s₁.modify p f).mapGet h = s.mapGet h := fun h => VfsState.mapGet_congr hmap
    rcases modify_some he with ⟨rfl, d', hd', rfl⟩ | ⟨-, hd'⟩
    · rw [hpool, hd] at hd'
      cases hd'
      exact .set d hd ⟨(hf d).1, (hf d).2.2, hfile⟩ hlast hno howner hpend fun h => (hget _).trans h
    · rw [hpool] at hd'
      exact .same e hd' ⟨rfl, rfl, rfl⟩ rfl rfl rfl fun h => (hget _).trans h
  gone q e he hn := by
    rw [VfsState.modify_pool, hpool] at hn
    split_ifs at hn with hq
    · subst hq
      simp [he] at hn
    · rw [he] at hn
      cases hn
  ptr := Nat.le_of_eq hptr.symm
  job := hjob
  trace := ⟨[], by simp [htrace], by simp⟩

theorem FileFrame.addJob {k : Job} (hT : Table s) (hk : k.chained = none)
    (hdep : k.phase ≠ .queued → k.dependency = 0) (hunset : i.unset = some k.target) :
    FileFrame i s (s.addJob k) where
  kept j k' hj := hT.addJob_kept hj
  added j k' hj := by
    rcases VfsState.addJob_some hj with ⟨rfl, rfl⟩ | hj
    · exact .inr ⟨le_rfl, hk, hdep, hunset⟩
    · exact .inl hj
  handles f d hd := .same d hd ⟨rfl, rfl, rfl⟩ rfl rfl rfl fun h => h
  gone f d hd hn := by
    rw [VfsState.addJob_pool, hd] at hn
    cases hn
  ptr := le_rfl
  job := Nat.le_succ _
  trace := ⟨[], rfl, by simp⟩

theorem FileFrame.alloc {params : VfsOpParams} (halloc : allocateHandle s params = some (p, s')) :
    FileFrame i s s' := by
  obtain ⟨rfl, -, hpool, hptr, hmap, hjobs, hjob, -, htrace, -⟩ := allocateHandle_some halloc
  have hget : ∀ h, s'.mapGet h = s.mapGet h := fun h => VfsState.mapGet_congr hmap
  refine ⟨fun j k hj => hjobs ▸ hj, fun j k hj => .inl (hjobs ▸ hj), ?_, ?_, ?_, Nat.le_of_eq hjob.symm,
    ⟨[], by simp [htrace], by simp⟩⟩
  · intro f e he
    rw [hpool, Function.update_apply] at he
    split_ifs at he with hf
    · cases he
      exact .born (Nat.le_of_eq hf.symm) rfl rfl rfl
    · exact .same e he ⟨rfl, rfl, rfl⟩ rfl rfl rfl fun h => (hget _).trans h
  · intro f e he hn
    rw [hpool, Function.update_apply] at hn
    split_ifs at hn
    rw [he] at hn
    cases hn
  · rw [hptr]
    exact Nat.le_succ _

theorem FileFrame.publish (hI : Table s) : FileFrame i s (vfsPublishHandle s p) := by
  unfold vfsPublishHandle
  split
  · rename_i d₀ hd₀
    refine .of_core rfl (fun f e he hmap => ?_) rfl rfl rfl ⟨[_], rfl, by simp [Event.ofChain]⟩
    rw [VfsState.emit_mapGet, VfsState.mapGet_insert p rfl]
    split_ifs with hh
    · rw [hI.distinct f p e d₀ he hd₀ hh]
    · exact hmap
  · exact .refl _ s

end Frame

/-! ## Sweeps -/

/-- `s'` is `s` with some idle handles of the map freed. -/
structure Sweep (s s' : VfsState) : Prop where
  jobs : s'.jobs = s.jobs
  nextJob : s'.nextJob = s.nextJob
  nextPtr : s'.nextPtr = s.nextPtr
  closing : s'.closing = s.closing
  mounts : s'.mounts = s.mounts
  mountList : s'.mountList = s.mountList
  destroyed : s'.destroyed = s.destroyed
  kept : ∀ f d, s'.pool f = some d → s.pool f = some d ∧
    (s.mapGet d.id = some f → s'.mapGet d.id = some f)
  gone : ∀ f d, s.pool f = some d → s'.pool f = none → s.mapGet d.id = some f ∧ Idle s d
  shrinks : ∀ h f, s'.mapGet h = some f → s.mapGet h = some f
  trace : ∃ es, s'.trace = es ++ s.trace ∧ ∀ e ∈ es, (∃ f m c, e = .freed f m c) ∨
    (∃ b, e = .driverClosed b) ∨ ∃ b, e = .bufferFreed b

section Sweeps

variable {s s' : VfsState} {F : List Instr} {p : HandlePtr} {d : VfsHandleData}
  {cause : FreeCause} {m : MountPtr}

theorem Sweep.refl (s : VfsState) : Sweep s s where
  jobs := rfl
  nextJob := rfl
  nextPtr := rfl
  closing := rfl
  mounts := rfl
  mountList := rfl
  destroyed := rfl
  kept f d hd := ⟨hd, fun h => h⟩
  gone f d hd hn := by rw [hd] at hn; cases hn
  shrinks h f hm := hm
  trace := ⟨[], rfl, by simp⟩

theorem Sweep.trans {s'' : VfsState} (h₁ : Sweep s s') (h₂ : Sweep s' s'') : Sweep s s'' where
  jobs := h₂.jobs.trans h₁.jobs
  nextJob := h₂.nextJob.trans h₁.nextJob
  nextPtr := h₂.nextPtr.trans h₁.nextPtr
  closing := h₂.closing.trans h₁.closing
  mounts := h₂.mounts.trans h₁.mounts
  mountList := h₂.mountList.trans h₁.mountList
  destroyed := h₂.destroyed.trans h₁.destroyed
  kept f d hd := by
    obtain ⟨hd', hm'⟩ := h₂.kept f d hd
    obtain ⟨hd'', hm''⟩ := h₁.kept f d hd'
    exact ⟨hd'', fun h => hm' (hm'' h)⟩
  gone f d hd hn := by
    cases hmid : s'.pool f with
    | none => exact h₁.gone f d hd hmid
    | some e =>
        have he := (h₁.kept f e hmid).1
        rw [hd] at he
        cases he
        obtain ⟨hmap, hidle⟩ := h₂.gone f d hmid hn
        exact ⟨h₁.shrinks _ f hmap, by simpa [Idle, VfsState.jobDone_congr h₁.jobs] using hidle⟩
  shrinks h f hm := h₁.shrinks h f (h₂.shrinks h f hm)
  trace := by
    obtain ⟨es, hes, hall⟩ := h₁.trace
    obtain ⟨es', hes', hall'⟩ := h₂.trace
    refine ⟨es' ++ es, by rw [hes', hes, List.append_assoc], fun e he => ?_⟩
    rcases List.mem_append.mp he with he | he
    · exact hall' e he
    · exact hall e he

/-- Freeing one idle handle. -/
theorem Sweep.free (cause : FreeCause) (hI : Table s) (hd : s.pool p = some d) (hmap : s.mapGet d.id = some p)
    (hidle : Idle s d) : Sweep s (vfsFreeHandleLocked s p cause).1 := by
  obtain ⟨hpool, herase, htrace, -⟩ := free_live cause hd
  obtain ⟨hjobs, hjob, hptr, hclosing, hmounts, hlist, -, hdes⟩ :=
    free_frame s p cause
  have hget : ∀ h, (vfsFreeHandleLocked s p cause).1.mapGet h =
      if h = d.id then none else s.mapGet h := fun h => VfsState.mapGet_erase herase
  refine ⟨hjobs, hjob, hptr, hclosing, hmounts, hlist, hdes, ?_, ?_, ?_, ?_⟩
  · intro f e he
    obtain ⟨hne, he⟩ := free_pool_some he
    refine ⟨he, fun hm => ?_⟩
    rw [hget, if_neg, hm]
    exact fun heq => hne (hI.distinct f p e d he hd heq)
  · intro f e he hn
    by_cases hf : f = p
    · subst hf
      rw [hd] at he
      cases he
      exact ⟨hmap, hidle⟩
    · rw [hpool, Function.update_of_ne hf, he] at hn
      cases hn
  · intro h f hm
    rw [hget] at hm
    split_ifs at hm
    exact hm
  · refine ⟨.freed p d.mount cause :: freeResources d, htrace, fun e he => ?_⟩
    rcases List.mem_cons.mp he with rfl | he
    · exact .inl ⟨_, _, _, rfl⟩
    · exact .inr (freeResources_neutral he)

theorem Sweep.freeHandles {ps : List HandlePtr} (hI : Inv s F)
    (hps : ∀ p ∈ ps, ∀ d, s.pool p = some d → s.mapGet d.id = some p ∧ Idle s d) :
    Sweep s (freeHandles s ps cause).1 := by
  induction ps generalizing s with
  | nil => exact .refl s
  | cons p ps ih =>
      cases hd : s.pool p with
      | none =>
          simp only [FlowiVfs.freeHandles, free_dead hd]
          exact ih hI fun q hq => hps q (by simp [hq])
      | some d =>
          obtain ⟨hmap, hidle⟩ := hps p (by simp) d hd
          have hone : Sweep s (vfsFreeHandleLocked s p cause).1 :=
            .free cause hI.toTable hd hmap hidle
          refine hone.trans (ih (hI.free hd hmap hidle) fun q hq e he => ?_)
          obtain ⟨he', hkeep⟩ := hone.kept q e he
          obtain ⟨hm, hi⟩ := hps q (by simp [hq]) e he'
          exact ⟨hkeep hm, by simpa [Idle, VfsState.jobDone_congr hone.jobs] using hi⟩

theorem Sweep.freeVictims {victims ids : List FlVfsHandle} (hI : Inv s F)
    (hi : Instr.mountFree m ids ∈ F) (hsub : ∀ id ∈ victims, id ∈ ids) :
    Sweep s (vfsFreeMountVictims s m victims).1 := by
  induction victims generalizing s with
  | nil => exact .refl s
  | cons id victims ih =>
      have hsub' : ∀ id ∈ victims, id ∈ ids := fun id' h' => hsub id' (by simp [h'])
      unfold vfsFreeMountVictims
      split
      · exact ih hI hsub'
      · rename_i p d hl
        obtain ⟨hmap, hd⟩ := (VfsState.lookupHandle_some p).mp hl
        obtain ⟨d', hd', hid⟩ := hI.mapped id p hmap
        rw [hd] at hd'
        cases hd'
        obtain ⟨-, hv⟩ := hI.teardown _ hi m ids true rfl
        obtain ⟨-, h₂, h₃⟩ := hv p d hd (hid ▸ hsub id (by simp))
        exact (Sweep.free _ hI.toTable hd h₂ (h₃ rfl)).trans (ih (hI.free hd h₂ (h₃ rfl)) hsub')

theorem Sweep.fileFrame (h : Sweep s s') : FileFrame i s s' where
  kept j k hj := h.jobs ▸ hj
  added j k hj := .inl (h.jobs ▸ hj)
  handles f d hd := .same d (h.kept f d hd).1 ⟨rfl, rfl, rfl⟩ rfl rfl rfl (h.kept f d hd).2
  gone := h.gone
  ptr := Nat.le_of_eq h.nextPtr.symm
  job := Nat.le_of_eq h.nextJob.symm
  trace := by
    obtain ⟨es, hes, hall⟩ := h.trace
    refine ⟨es, hes, fun e he => ?_⟩
    rcases hall e he with ⟨f, m, c, rfl⟩ | ⟨b, rfl⟩ | ⟨b, rfl⟩ <;> rfl

end Sweeps

/-! ## Every step outside `vfs_chain_file_op` -/

/-- The points of `vfs_chain_file_op`. -/
def Instr.chains : Instr → Bool
  | .chain _ _ | .chainAlloc _ _ _ _ _ _ | .chainUnwind _ _ | .chainRun _ _ _ _ _
  | .chainInline _ _ _ _ | .chainPublish _ _ _ _ => true
  | _ => false

/-- The file on which a call of `vfs_chain_file_op` has its window open. -/
def Instr.chainFile : Instr → Option HandlePtr
  | .chainAlloc _ file _ _ _ _ | .chainUnwind _ file | .chainRun _ file _ _ _
  | .chainInline _ file _ _ | .chainPublish _ file _ _ => some file
  | _ => none

/-- The file, ticket and `chain_after` of a call that has yet to launch its operation. -/
def Instr.waiting : Instr → Option (HandlePtr × ℕ × FlJobHandle)
  | .chainAlloc _ file ticket _ _ after | .chainRun _ file ticket _ after =>
      some (file, ticket, after)
  | _ => none

theorem waiting_chainFile {i : Instr} {file : HandlePtr} {ticket : ℕ} {after : FlJobHandle}
    (h : i.waiting = some (file, ticket, after)) : i.chainFile = some file := by
  cases i with
  | chainAlloc | chainRun =>
      cases h
      rfl
  | _ => cases h

section Bodies

variable {s s' : VfsState} {F new : List Instr} {i : Instr} {p : HandlePtr}
  {d : VfsHandleData} {h : FlVfsHandle} {c : ℕ} {t : Thread} {sched : Sched} {m : MountPtr}

/-- What the reclaim sweep of `vfs_update` and `vfs_close` does. -/
theorem sweep_reclaim (hI : Inv s F) : Sweep s (vfsReclaimClosedHandles s).1 := by
  unfold vfsReclaimClosedHandles
  split_ifs
  · exact .refl s
  · exact .freeHandles hI (Inv.reclaim_idle hI.toTable)

/-- The last section of `vfs_close` frees an idle handle, marks one closed or does nothing. -/
theorem closeFinish_frame (hI : Inv s F) {borrows : Bool} :
    FileFrame i s (closeFinish s t h borrows).1 := by
  unfold closeFinish
  split
  · exact .refl _ s
  · rename_i p d hl
    obtain ⟨hmap, hd, -⟩ := (VfsState.lookupOpenHandle_some p).mp hl
    obtain ⟨d', hd', hid⟩ := hI.mapped h p hmap
    rw [hd] at hd'
    cases hd'
    split_ifs with hidle
    · have hT : Table (s.emit (.closed p)) := (hI.emit (by simp) (by simp)).toTable
      have hsweep := Sweep.free .closed hT (p := p) hd (by rw [hid]; exact hmap)
        (idle_iff.mpr hidle)
      have hframe := hsweep.fileFrame (i := i)
      refine hframe.congr ⟨rfl, rfl, rfl, rfl, rfl⟩ ⟨rfl, rfl, rfl, rfl, rfl⟩ ?_
      obtain ⟨es, hes, hall⟩ := hframe.trace
      refine ⟨es ++ [.closed p], by simp [hes], fun e he => ?_⟩
      rcases List.mem_append.mp he with he | he
      · exact hall e he
      · simp only [List.mem_singleton] at he
        subst he
        rfl
    · exact .refl _ s
    · exact .refl _ s
    · have htouch := FileFrame.touch (i := i) (s := s) (p := p) (f := fun d => { d with closed := true })
        (fun d => ⟨rfl, rfl, rfl⟩) (fun d => rfl) (fun d => ⟨rfl, rfl, rfl⟩)
      exact htouch.congr ⟨rfl, rfl, rfl, rfl, rfl⟩ ⟨rfl, rfl, rfl, rfl, rfl⟩
        ⟨[.closed p], rfl, by simp [Event.ofChain]⟩

/-- The new points of a call outside `vfs_chain_file_op` open no window on a file. -/
theorem body_chainFile (hi : i.chains = false)
    (hx : execBody s c t sched i = some (s', new)) : ∀ x ∈ new, x.chainFile = none := by
  cases execBody_some hx with
  | launch h => cases h <;> simp [Instr.chainFile]
  | mount h => cases h <;> simp [Instr.chainFile]
  | dispatch h => cases h <;> simp [Instr.chainFile]
  | chain h =>
      cases h with
      | copiedOnly | copied => simp [Instr.chainFile]
      | _ => cases hi
  | close h => cases h <;> simp [Instr.chainFile]
  | teardown h => cases h <;> simp [Instr.chainFile]

/-- The owner of a handle writes its job fields, after adding the job or not. -/
theorem FileFrame.setJobs (hI : Inv s F) (hi : i ∈ F) (ho : i.owns = some p) {s₁ : VfsState}
    (hs₁ : s₁ = s ∨ ∃ k : Job, k.chained = none ∧ (k.phase ≠ .queued → k.dependency = 0) ∧
      i.unset = some k.target ∧ s₁ = s.addJob k) {r : FlJobHandle} :
    FileFrame i s (s₁.modify p (setJobs r)) := by
  obtain ⟨d, hd, hprivate⟩ := hI.owner_private hi ho
  rcases hs₁ with rfl | ⟨k, hk, hdep, hunset, rfl⟩
  · exact .set _ hd (.inl hprivate) (.inl ho) (fun d => ⟨rfl, rfl, rfl⟩) rfl rfl (fun _ => rfl) rfl rfl rfl
      (Nat.le_refl _) rfl (fun _ _ h => h) fun _ _ h => .inl h
  · have hadd := FileFrame.addJob (i := i) hI.toTable hk hdep hunset
    exact .set _ hd (.inl hprivate) (.inl ho) (fun d => ⟨rfl, rfl, rfl⟩) rfl rfl (fun _ => rfl) rfl rfl rfl
      (Nat.le_succ _) rfl hadd.kept hadd.added

theorem LaunchExec.fileFrame (hx : LaunchExec s t i s' new) (hI : Inv s (i :: F)) :
    FileFrame i s s' := by
  have hhead : i ∈ i :: F := List.mem_cons_self
  cases hx with
  | refused | prepareRefused => exact .refl _ s
  | allocated known halloc => exact .alloc halloc
  | @prepared params p s₁ known halloc =>
      have hframe := FileFrame.alloc (i := .prepare params) halloc
      refine hframe.congr ⟨rfl, rfl, rfl, rfl, rfl⟩ ⟨rfl, rfl, rfl, rfl, rfl⟩ ?_
      obtain ⟨es, hes, hall⟩ := hframe.trace
      refine ⟨.prepared p :: es, by simp [hes], fun e he => ?_⟩
      rcases List.mem_cons.mp he with rfl | he
      · rfl
      · exact hall e he
  | queued => exact .setJobs hI hhead rfl (.inr ⟨_, rfl, fun h => absurd rfl h, rfl, rfl⟩)
  | inlined => exact .addJob hI.toTable rfl (fun _ => rfl) rfl
  | ran => exact .setJobs hI hhead rfl (.inl rfl)
  | published => exact .publish hI.toTable

theorem MountExec.fileFrame (hx : MountExec s t i s' new) (hI : Inv s (i :: F)) :
    FileFrame i s s' := by
  have hhead : i ∈ i :: F := List.mem_cons_self
  cases hx with
  | opened lock halloc =>
      have hframe := FileFrame.alloc (i := .mountOpen) halloc
      exact hframe.congr ⟨rfl, rfl, rfl, rfl, rfl⟩ ⟨rfl, rfl, rfl, rfl, rfl⟩ hframe.trace
  | inlined => exact .addJob hI.toTable rfl (fun _ => rfl) rfl
  | queued => exact .setJobs hI hhead rfl (.inr ⟨_, rfl, fun _ => rfl, rfl, rfl⟩)
  | ran => exact .setJobs hI hhead rfl (.inl rfl)
  | @published m p j =>
      have hT : Table { s with mounts := Function.update s.mounts m (some ⟨j⟩) } :=
        hI.toTable.of_core rfl (fun _ => rfl) rfl rfl rfl fun _ => ⟨Iff.rfl, Iff.rfl⟩
      have hframe := FileFrame.publish (i := .mountPublish m p j) (p := p) hT
      exact hframe.congr ⟨rfl, rfl, rfl, rfl, rfl⟩ ⟨rfl, rfl, rfl, rfl, rfl⟩ hframe.trace

theorem DispatchExec.fileFrame (hx : DispatchExec s t i s' new) (hI : Inv s (i :: F))
    (hD : i.Disciplined s F) : FileFrame i s s' := by
  cases hx with
  | missing | ran => exact .refl _ s
  | @entered h p d hl =>
      obtain ⟨hund, -⟩ := hD (p, d) hl
      obtain ⟨hmap, hd, -⟩ := (VfsState.lookupOpenHandle_some p).mp hl
      obtain ⟨hop, -, hjob, hlast, -, -⟩ := hI.prepared p hund d hd
      obtain ⟨d', hd', hid⟩ := hI.mapped h p hmap
      rw [hd] at hd'
      cases hd'
      have hset := FileFrame.set (i := .dispatch h) s (p := p) (f := openWindow) hd
        (.inr (by simp [hop])) (.inr (hid ▸ hmap)) (fun d => ⟨rfl, rfl, rfl⟩) rfl
        (by simp [openWindow, hjob, hlast]) (by simp [hop]) rfl rfl rfl (Nat.le_refl _) rfl
        (fun _ _ h => h) fun _ _ h => .inl h
      exact hset.congr ⟨rfl, rfl, rfl, rfl, rfl⟩ ⟨rfl, rfl, rfl, rfl, rfl⟩
        ⟨[.dispatched p], rfl, by simp [Event.ofChain]⟩
  | queued => exact .addJob hI.toTable rfl (fun h => absurd rfl h) rfl
  | inlined => exact .addJob hI.toTable rfl (fun _ => rfl) rfl
  | @recorded h p j =>
      have hi : Instr.dispatchRecord h p j ∈ Instr.dispatchRecord h p j :: F := List.mem_cons_self
      obtain ⟨d, hd, hid, hmap, -⟩ := hI.window_live hi rfl
      have hop := (hI.dispatching _ hi p rfl d hd).2
      rw [dispatchRecord, if_pos hmap]
      exact .set _ hd (.inr hop) (.inr (hid ▸ hmap)) (fun d => ⟨rfl, rfl, rfl⟩) rfl rfl
        (fun h => absurd h hop) rfl rfl rfl (Nat.le_refl _) rfl (fun _ _ h => h) fun _ _ h => .inl h

theorem CloseExec.fileFrame (hx : CloseExec s c t i s' new) (hI : Inv s (i :: F)) :
    FileFrame i s s' := by
  cases hx with
  | canceled => exact .touch (fun d => ⟨rfl, rfl, rfl⟩) (fun d => rfl) fun d => ⟨rfl, rfl, rfl⟩
  | reclaimed => exact (sweep_reclaim (hI.drop rfl rfl)).fileFrame
  | hook => exact .of_core rfl (fun _ _ _ h => h) rfl rfl rfl ⟨[_], rfl, by simp [Event.ofChain]⟩
  | closed => exact closeFinish_frame (hI.drop rfl rfl)
  | _ => exact .refl _ s

theorem TeardownExec.fileFrame (hx : TeardownExec s c i s' new) (hI : Inv s (i :: F))
    (hlive : s'.destroyed = false) : FileFrame i s s' := by
  cases hx with
  | unlisted | snapshot => exact .of_core rfl (fun _ _ _ h => h) rfl rfl rfl ⟨[], rfl, by simp⟩
  | unknown | draining | drained | next => exact .refl _ s
  | freed => exact (Sweep.freeVictims hI List.mem_cons_self fun _ h => h).fileFrame
  | destroyed =>
      exact .of_core rfl (fun _ _ _ h => h) rfl rfl rfl ⟨[_], rfl, by simp [Event.ofChain]⟩
  | cleared => cases hlive

/-- Every body outside `vfs_chain_file_op`, up to the end of `vfs_destroy`. -/
theorem body_frame (hI : Inv s (i :: F)) (hD : i.Disciplined s F) (hi : i.chains = false)
    (hx : execBody s c t sched i = some (s', new)) (hlive : s'.destroyed = false) :
    FileFrame i s s' := by
  cases execBody_some hx with
  | launch h => exact h.fileFrame hI
  | mount h => exact h.fileFrame hI
  | dispatch h => exact h.fileFrame hI hD
  | chain h =>
      cases h with
      | copiedOnly | copied =>
          exact .of_core rfl (fun _ _ _ h => h) rfl rfl rfl ⟨[_], rfl, by simp [Event.ofChain]⟩
      | _ => cases hi
  | close h => exact h.fileFrame hI
  | teardown h => exact h.fileFrame hI hlive

end Bodies

end FlowiVfs
