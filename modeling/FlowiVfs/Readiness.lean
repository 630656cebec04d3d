import FlowiVfs.HandleLifetime

/-!
# When a handle is ready

`vfs_is_ready` infers from `job_handle`, the completion of that job and
`pending_dispatches` that an operation is over. `ReadyInv` says why the
inference is right once a prepared handle has been dispatched, and `Settled`
why nothing changes afterwards.
-/
namespace FlowiVfs

open Transition

/-- The fields of a handle that say what its operation came to. -/
def SameResult (d d' : VfsHandleData) : Prop :=
  d'.errorStatus = d.errorStatus ∧ d'.resultData = d.resultData ∧ d'.jobHandle = d.jobHandle

/-- Points whose body makes a handle. -/
def Instr.births : Instr → Bool
  | .allocOp _ | .prepare _ | .mountOpen | .chainAlloc _ _ _ _ _ _ => true
  | _ => false

/-- What a step of a call at `i` does to the operations: it works on the handle whose job
fields it has yet to write, on new handles, and on no other. -/
structure WorkFrame (i : Instr) (new : List Instr) (s s' : VfsState) : Prop where
  handles : ∀ p d', s'.pool p = some d' → (s.nextPtr ≤ p ∧ i.births = true) ∨
    ∃ d, s.pool p = some d ∧ (i.unset = some p ∨ SameResult d d') ∧
      (d'.errorStatus = d.errorStatus ∨ d'.errorStatus ≠ VFS_STATE_PENDING)
  kept : ∀ j k, s.jobs j = some k → s'.jobs j = some k
  added : ∀ j k, s'.jobs j = some k → s.jobs j = some k ∨
    (i.unset = some k.target ∧ (k.phase = .queued ∨ k.phase = .started))
  unset : ∀ x ∈ new, ∀ p, x.unset = some p → (s.nextPtr ≤ p ∧ i.births = true) ∨ i.unset = some p ∨
    (Undispatched s.trace p ∧ ∃ h, i = .dispatch h)
  ptr : s.nextPtr ≤ s'.nextPtr
  prepared : ∀ p, Undispatched s'.trace p → Undispatched s.trace p ∨ s.nextPtr ≤ p
  dispatched : ∀ p, Undispatched s.trace p → Undispatched s'.trace p ∨ ∃ x ∈ new, x.unset = some p

section Work

variable {s s' : VfsState} {F new : List Instr} {i : Instr} {p : HandlePtr}
  {d : VfsHandleData} {h : FlVfsHandle} {c : ℕ} {t : Thread} {sched : Sched} {k : Job}

theorem SameResult.refl (d : VfsHandleData) : SameResult d d := ⟨rfl, rfl, rfl⟩

/-- Events other than preparing and dispatching. -/
theorem undispatched_iff {old events : List Event} (htrace : ∃ es, events = es ++ old ∧
    ∀ e ∈ es, (∀ p, e ≠ .prepared p) ∧ ∀ p, e ≠ .dispatched p) :
    Undispatched events p ↔ Undispatched old p := by
  obtain ⟨es, rfl, hes⟩ := htrace
  have hp : Event.prepared p ∉ es := fun h => (hes _ h).1 p rfl
  have hd : Event.dispatched p ∉ es := fun h => (hes _ h).2 p rfl
  simp [Undispatched, hp, hd]

/-- A step that works on no operation. -/
theorem WorkFrame.quiet
    (hpool : ∀ p d', s'.pool p = some d' → ∃ d, s.pool p = some d ∧ SameResult d d')
    (hjobs : s'.jobs = s.jobs) (hptr : s'.nextPtr = s.nextPtr)
    (htrace : ∃ es, s'.trace = es ++ s.trace ∧
      ∀ e ∈ es, (∀ p, e ≠ .prepared p) ∧ ∀ p, e ≠ .dispatched p)
    (hnew : ∀ x ∈ new, x.unset = none) : WorkFrame i new s s' where
  handles p d' hd' := by
    obtain ⟨d, hd, hsame⟩ := hpool p d' hd'
    exact .inr ⟨d, hd, .inr hsame, .inl hsame.1⟩
  kept j k hj := hjobs ▸ hj
  added j k hj := .inl (hjobs ▸ hj)
  unset x hx p hu := by
    rw [hnew x hx] at hu
    cases hu
  ptr := Nat.le_of_eq hptr.symm
  prepared p hp := .inl ((undispatched_iff htrace).mp hp)
  dispatched p hp := .inl ((undispatched_iff htrace).mpr hp)

theorem WorkFrame.idle (hnew : ∀ x ∈ new, x.unset = none) : WorkFrame i new s s :=
  .quiet (fun p d hd => ⟨d, hd, .refl d⟩) rfl rfl ⟨[], rfl, by simp⟩ hnew

/-- A step that writes fields of a handle other than its results. -/
theorem WorkFrame.touch {f : VfsHandleData → VfsHandleData} (hf : ∀ d, SameResult d (f d))
    (hnew : ∀ x ∈ new, x.unset = none) : WorkFrame i new s (s.modify p f) := by
  refine .quiet (fun q d' hd' => ?_) rfl rfl ⟨[], rfl, by simp⟩ hnew
  rcases modify_some hd' with ⟨rfl, d, hd, rfl⟩ | ⟨-, hd⟩
  · exact ⟨d, hd, hf d⟩
  · exact ⟨d', hd, .refl d'⟩

theorem WorkFrame.sweep (h : Sweep s s') (hnew : ∀ x ∈ new, x.unset = none) :
    WorkFrame i new s s' := by
  refine .quiet (fun p d hd => ⟨d, (h.kept p d hd).1, .refl d⟩) h.jobs h.nextPtr ?_ hnew
  obtain ⟨es, hes, hall⟩ := h.trace
  refine ⟨es, hes, fun e he => ?_⟩
  rcases hall e he with ⟨f, m, c, rfl⟩ | ⟨b, rfl⟩ | ⟨b, rfl⟩ <;> simp

/-- A step on the handle whose job fields the call has yet to write. -/
theorem WorkFrame.own (hT : Table s) (hu : i.unset = some p)
    (hjobs : s'.jobs = s.jobs ∨ ∃ k : Job, k.target = p ∧ (k.phase = .queued ∨ k.phase = .started) ∧
      s'.jobs = (s.addJob k).jobs)
    (hpool : ∀ q d', s'.pool q = some d' → s.pool q = some d' ∨ (q = p ∧ ∃ d, s.pool p = some d ∧
      (d'.errorStatus = d.errorStatus ∨ d'.errorStatus ≠ VFS_STATE_PENDING)))
    (hptr : s'.nextPtr = s.nextPtr) (htrace : s'.trace = s.trace)
    (hnew : ∀ x ∈ new, ∀ q, x.unset = some q → q = p) : WorkFrame i new s s' where
  handles q d' hd' := by
    rcases hpool q d' hd' with hd | ⟨rfl, d, hd, hstatus⟩
    · exact .inr ⟨d', hd, .inr (.refl d'), .inl rfl⟩
    · exact .inr ⟨d, hd, .inl hu, hstatus⟩
  kept j k hj := by
    rcases hjobs with hjobs | ⟨k', -, -, hjobs⟩
    · exact hjobs ▸ hj
    · exact hjobs ▸ hT.addJob_kept hj
  added j k hj := by
    rcases hjobs with hjobs | ⟨k', htarget, hphase, hjobs⟩
    · exact .inl (hjobs ▸ hj)
    · rw [hjobs] at hj
      rcases VfsState.addJob_some hj with ⟨-, rfl⟩ | hj
      · exact .inr ⟨htarget ▸ hu, hphase⟩
      · exact .inl hj
  unset x hx q hq := .inr (.inl (hnew x hx q hq ▸ hu))
  ptr := Nat.le_of_eq hptr.symm
  prepared q hq := .inl (htrace ▸ hq)
  dispatched q hq := .inl (htrace ▸ hq)

/-- A step that makes a handle. -/
theorem WorkFrame.born {params : VfsOpParams} {s₀ s₁ : VfsState} (hi : i.births = true)
    (halloc : allocateHandle s₀ params = some (p, s₁)) (h₀ : s₀.pool = s.pool ∧ s₀.jobs = s.jobs ∧
      s₀.nextPtr = s.nextPtr) (hpool : ∀ q d', s'.pool q = some d' → q ≠ p → s₁.pool q = some d')
    (hjobs : s'.jobs = s₁.jobs) (hptr : s'.nextPtr = s₁.nextPtr)
    (htrace : s'.trace = s.trace ∨ s'.trace = .prepared p :: s.trace)
    (hnew : ∀ x ∈ new, ∀ q, x.unset = some q → q = p) : WorkFrame i new s s' := by
  obtain ⟨rfl, -, hpool₁, hptr₁, -, hjobs₁, -⟩ := allocateHandle_some halloc
  obtain ⟨h₁, h₂, h₃⟩ := h₀
  refine ⟨fun q d' hd' => ?_, fun j k hj => ?_, fun j k hj => .inl ?_, fun x hx q hq =>
    .inl ⟨?_, hi⟩, ?_, fun q hq => ?_, fun q hq => .inl ?_⟩
  · by_cases hqp : q = s₀.nextPtr
    · exact .inl ⟨Nat.le_of_eq (h₃.symm.trans hqp.symm), hi⟩
    · have hd := hpool q d' hd' hqp
      rw [hpool₁, Function.update_of_ne hqp, h₁] at hd
      exact .inr ⟨d', hd, .inr (.refl d'), .inl rfl⟩
  · rw [hjobs, hjobs₁, h₂]; exact hj
  · rw [hjobs, hjobs₁, h₂] at hj; exact hj
  · exact Nat.le_of_eq (h₃.symm.trans (hnew x hx q hq).symm)
  · rw [hptr, hptr₁, h₃]
    exact Nat.le_succ _
  · rcases htrace with ht | ht
    · exact .inl (ht ▸ hq)
    · by_cases hqp : q = s₀.nextPtr
      · exact .inr (Nat.le_of_eq (h₃.symm.trans hqp.symm))
      · simp only [ht, Undispatched, List.mem_cons, Event.prepared.injEq, hqp, reduceCtorEq,
          false_or] at hq
        exact .inl hq
  · rcases htrace with ht | ht
    · exact ht ▸ hq
    · rw [ht]
      exact ⟨List.mem_cons_of_mem _ hq.1, by simpa using hq.2⟩

theorem WorkFrame.dispatch (hl : s.lookupOpenHandle h = some (p, d))
    (hund : Undispatched s.trace p) :
    WorkFrame (.dispatch h) [.dispatchSchedule h p] s
      ((s.modify p openWindow).emit (.dispatched p)) := by
  refine ⟨fun q d' hd' => ?_, fun _ _ hj => hj, fun _ _ hj => .inl hj, ?_, le_rfl, fun q hq => ?_,
    fun q hq => ?_⟩
  · rcases modify_some hd' with ⟨rfl, e, he, rfl⟩ | ⟨-, he⟩
    · exact .inr ⟨e, he, .inr ⟨rfl, rfl, rfl⟩, .inl rfl⟩
    · exact .inr ⟨d', he, .inr (.refl d'), .inl rfl⟩
  · intro x hx q hq
    simp only [List.mem_singleton] at hx
    subst hx
    cases hq
    exact .inr (.inr ⟨hund, h, rfl⟩)
  · simp only [Undispatched, VfsState.emit_trace, VfsState.modify_trace, List.mem_cons,
      reduceCtorEq, false_or, not_or] at hq
    exact .inl ⟨hq.1, hq.2.2⟩
  · by_cases hqp : q = p
    · subst hqp
      exact .inr ⟨_, List.mem_singleton_self _, rfl⟩
    · refine .inl ⟨List.mem_cons_of_mem _ hq.1, ?_⟩
      simpa [hqp] using hq.2

theorem vfsPublishHandle_core (s : VfsState) (p : HandlePtr) :
    (vfsPublishHandle s p).pool = s.pool ∧ (vfsPublishHandle s p).jobs = s.jobs ∧
      (vfsPublishHandle s p).nextPtr = s.nextPtr ∧ ∃ es, (vfsPublishHandle s p).trace = es ++ s.trace ∧
        ∀ e ∈ es, (∀ p, e ≠ .prepared p) ∧ ∀ p, e ≠ .dispatched p := by
  unfold vfsPublishHandle
  split
  · exact ⟨rfl, rfl, rfl, [_], rfl, by simp⟩
  · exact ⟨rfl, rfl, rfl, [], rfl, by simp⟩

/-- Publishing, after other fields of some handle were written. -/
theorem WorkFrame.publish {f : VfsHandleData → VfsHandleData} {q : HandlePtr}
    (hf : ∀ d, SameResult d (f d)) (hnew : ∀ x ∈ new, x.unset = none) :
    WorkFrame i new s (vfsPublishHandle (s.modify q f) p) := by
  obtain ⟨hpool, hjobs, hptr, htrace⟩ := vfsPublishHandle_core (s.modify q f) p
  refine .quiet (fun r d' hd' => ?_) hjobs hptr htrace hnew
  rw [hpool] at hd'
  rcases modify_some hd' with ⟨rfl, d, hd, rfl⟩ | ⟨-, hd⟩
  · exact ⟨d, hd, hf d⟩
  · exact ⟨d', hd, .refl d'⟩

theorem WorkFrame.closeFinish {h : FlVfsHandle} {borrows : Bool} (hI : Inv s F)
    (hnew : ∀ x ∈ new, x.unset = none) : WorkFrame i new s (FlowiVfs.closeFinish s t h borrows).1 := by
  unfold FlowiVfs.closeFinish
  split
  · exact .idle hnew
  · rename_i p d hl
    obtain ⟨hmap, hd, -⟩ := (VfsState.lookupOpenHandle_some p).mp hl
    obtain ⟨d', hd', hid⟩ := hI.mapped h p hmap
    rw [hd] at hd'
    cases hd'
    split_ifs with hidle
    · have hT : Table (s.emit (.closed p)) := (hI.emit (by simp) (by simp)).toTable
      have hsweep := Sweep.free .closed hT (p := p) hd (by rw [hid]; exact hmap)
        (idle_iff.mpr hidle)
      obtain ⟨hpool, hjobs, hptr, htrace⟩ :
          (∀ q e, (vfsFreeHandleLocked (s.emit (.closed p)) p .closed).1.pool q = some e →
            s.pool q = some e) ∧ _ ∧ _ ∧ _ :=
        ⟨fun q e he => (hsweep.kept q e he).1, hsweep.jobs, hsweep.nextPtr, hsweep.trace⟩
      refine .quiet (fun q e he => ⟨e, hpool q e he, .refl e⟩) hjobs hptr ?_ hnew
      obtain ⟨es, hes, hall⟩ := htrace
      refine ⟨es ++ [.closed p], by simp [hes], fun e he => ?_⟩
      rcases List.mem_append.mp he with he | he
      · rcases hall e he with ⟨f, m, c, rfl⟩ | ⟨b, rfl⟩ | ⟨b, rfl⟩ <;> simp
      · simp only [List.mem_singleton] at he
        subst he
        simp
    · exact .idle hnew
    · exact .idle hnew
    · refine .quiet (fun q e he => ?_) rfl rfl ⟨[.closed p], rfl, by simp⟩ hnew
      rcases modify_some he with ⟨rfl, e', he', rfl⟩ | ⟨-, he⟩
      · exact ⟨e', he', rfl, rfl, rfl⟩
      · exact ⟨e, he, .refl e⟩

/-- A call makes a job for the operation of its handle. -/
theorem WorkFrame.addJob (hT : Table s) (hu : i.unset = some p) (htarget : k.target = p)
    (hphase : k.phase = .queued ∨ k.phase = .started)
    (hnew : ∀ x ∈ new, ∀ q, x.unset = some q → q = p) : WorkFrame i new s (s.addJob k) :=
  .own hT hu (.inr ⟨k, htarget, hphase, rfl⟩) (fun _ _ hd => .inl hd) rfl rfl hnew

/-- A call makes a job for the operation of its handle and records it there. -/
theorem WorkFrame.queue {j : FlJobHandle} (hT : Table s) (hu : i.unset = some p)
    (htarget : k.target = p) (hphase : k.phase = .queued ∨ k.phase = .started)
    (hnew : ∀ x ∈ new, ∀ q, x.unset = some q → q = p) :
    WorkFrame i new s ((s.addJob k).modify p (setJobs j)) := by
  refine .own hT hu (.inr ⟨k, htarget, hphase, rfl⟩) (fun q d' hd' => ?_) rfl rfl hnew
  rcases modify_some hd' with ⟨rfl, e, he, rfl⟩ | ⟨-, he⟩
  · exact .inr ⟨rfl, e, he, .inl rfl⟩
  · exact .inl he

/-- A call writes the job fields of its handle. -/
theorem WorkFrame.write {f : VfsHandleData → VfsHandleData} (hT : Table s) (hu : i.unset = some p)
    (hf : ∀ d, (f d).errorStatus = d.errorStatus ∨ (f d).errorStatus ≠ VFS_STATE_PENDING)
    (hnew : ∀ x ∈ new, ∀ q, x.unset = some q → q = p) : WorkFrame i new s (s.modify p f) := by
  refine .own hT hu (.inl rfl) (fun q d' hd' => ?_) rfl rfl hnew
  rcases modify_some hd' with ⟨rfl, e, he, rfl⟩ | ⟨-, he⟩
  · exact .inr ⟨rfl, e, he, hf e⟩
  · exact .inl he

theorem LaunchExec.work (hx : LaunchExec s t i s' new) (hT : Table s) :
    WorkFrame i new s s' := by
  cases hx with
  | refused | prepareRefused => exact .idle (by simp)
  | allocated known halloc =>
      exact .born rfl halloc ⟨rfl, rfl, rfl⟩ (fun q d' hd _ => hd) rfl rfl
        (.inl (allocateHandle_some halloc).2.2.2.2.2.2.2.2.1) (by simp [Instr.unset])
  | prepared known halloc =>
      refine .born rfl halloc ⟨rfl, rfl, rfl⟩ (fun q d' hd _ => hd) rfl rfl (.inr ?_)
        (by simp [Instr.unset])
      rw [VfsState.emit_trace, (allocateHandle_some halloc).2.2.2.2.2.2.2.2.1]
  | queued => exact .queue hT rfl rfl (.inl rfl) (by simp [Instr.unset])
  | inlined => exact .addJob hT rfl rfl (.inr rfl) (by simp [Instr.unset])
  | ran => exact .write hT rfl (fun _ => .inl rfl) (by simp [Instr.unset])
  | @published p =>
      have hwork : WorkFrame (.publish p) [] s (vfsPublishHandle (s.modify p id) p) :=
        .publish SameResult.refl (by simp)
      rwa [modify_id] at hwork

theorem MountExec.work (hx : MountExec s t i s' new) (hT : Table s) :
    WorkFrame i new s s' := by
  cases hx with
  | opened lock halloc =>
      exact .born rfl halloc ⟨rfl, rfl, rfl⟩ (fun q d' hd _ => hd) rfl rfl
        (.inl (allocateHandle_some halloc).2.2.2.2.2.2.2.2.1) (by simp [Instr.unset])
  | inlined => exact .addJob hT rfl rfl (.inr rfl) (by simp [Instr.unset])
  | queued => exact .queue hT rfl rfl (.inl rfl) (by simp [Instr.unset])
  | ran => exact .write hT rfl (fun _ => .inl rfl) (by simp [Instr.unset])
  | @published m p j =>
      obtain ⟨hpool, hjobs, hptr, htrace⟩ := vfsPublishHandle_core
        { s with mounts := Function.update s.mounts m (some ⟨j⟩) } p
      refine .quiet (fun q d hd => ⟨d, ?_, .refl d⟩) hjobs hptr htrace (by simp)
      rw [mountPublish, hpool] at hd
      exact hd

theorem DispatchExec.work (hx : DispatchExec s t i s' new) (hI : Inv s (i :: F))
    (hD : i.Disciplined s F) : WorkFrame i new s s' := by
  have hT := hI.toTable
  cases hx with
  | missing => exact .idle (by simp)
  | entered hl => exact .dispatch hl (hD _ hl).1
  | queued => exact .addJob hT rfl rfl (.inl rfl) (by simp [Instr.unset])
  | inlined => exact .addJob hT rfl rfl (.inr rfl) (by simp [Instr.unset])
  | @ran h p j r =>
      have hwork : WorkFrame (.dispatchInline h p j r) [.dispatchRecord h p r] s (s.modify p id) :=
        .write hT rfl (fun _ => .inl rfl) (by simp [Instr.unset])
      rwa [modify_id] at hwork
  | @recorded h p =>
      rw [dispatchRecord, if_pos (hI.windowMapped _ List.mem_cons_self h p rfl)]
      exact .write hT rfl (fun _ => .inl rfl) (by simp)

theorem ChainExec.work (hx : ChainExec s t i s' new) (hI : Inv s (i :: F)) :
    WorkFrame i new s s' := by
  have hT := hI.toTable
  cases hx with
  | copiedOnly | copied =>
      exact .quiet (fun q d hd => ⟨d, hd, .refl d⟩) rfl rfl ⟨[_], rfl, by simp⟩
        (by simp [Instr.unset])
  | refused => exact .idle (by simp)
  | entered =>
      refine .quiet (fun q e he => ?_) rfl rfl ⟨[_], rfl, by simp⟩ (by simp [Instr.unset])
      rcases modify_some he with ⟨rfl, e', he', rfl⟩ | ⟨-, he⟩
      · exact ⟨e', he', rfl, rfl, rfl⟩
      · exact ⟨e, he, .refl e⟩
  | allocated known halloc =>
      refine .born rfl halloc ⟨rfl, rfl, rfl⟩ (fun q d' hd hq => ?_) rfl rfl
        (.inl (allocateHandle_some halloc).2.2.2.2.2.2.2.2.1) (by simp [Instr.unset])
      rw [VfsState.modify_pool, if_neg hq] at hd
      exact hd
  | unwound =>
      obtain ⟨d, -, -, -, hunwind⟩ := chainUnwind_live hI
      rw [hunwind]
      exact .touch (fun _ => ⟨rfl, rfl, rfl⟩) (by simp)
  | blocked => exact .write hT rfl (fun _ => .inr would_block_final) (by simp [Instr.unset])
  | inlined => exact .addJob hT rfl rfl (.inr rfl) (by simp [Instr.unset])
  | queued => exact .queue hT rfl rfl (.inl rfl) (by simp [Instr.unset])
  | ran => exact .write hT rfl (fun _ => .inl rfl) (by simp [Instr.unset])
  | published =>
      obtain ⟨d, op, -, -, -, -, -, hpublish⟩ := chainPublish_live hI
      rw [hpublish]
      exact .publish (fun _ => ⟨rfl, rfl, rfl⟩) (by simp)

theorem CloseExec.work (hx : CloseExec s c t i s' new) (hI : Inv s (i :: F)) :
    WorkFrame i new s s' := by
  cases hx with
  | canceled => exact .touch (fun _ => ⟨rfl, rfl, rfl⟩) (by simp)
  | reclaimed => exact .sweep (sweep_reclaim (hI.drop rfl rfl)) (by simp [Instr.unset])
  | hook =>
      exact .quiet (fun q d hd => ⟨d, hd, .refl d⟩) rfl rfl ⟨[_], rfl, by simp⟩
        (by simp [Instr.unset])
  | closed => exact .closeFinish (hI.drop rfl rfl) (by simp [Instr.unset])
  | _ => exact .idle (by simp [Instr.unset])

theorem TeardownExec.work (hx : TeardownExec s c i s' new) (hI : Inv s (i :: F))
    (hlive : s'.destroyed = false) : WorkFrame i new s s' := by
  cases hx with
  | unlisted | snapshot =>
      exact .quiet (fun q d hd => ⟨d, hd, .refl d⟩) rfl rfl ⟨[], rfl, by simp⟩
        (by simp [Instr.unset])
  | unknown | draining | drained | next => exact .idle (by simp [Instr.unset])
  | freed =>
      exact .sweep (Sweep.freeVictims hI List.mem_cons_self fun _ h => h) (by simp [Instr.unset])
  | destroyed =>
      exact .quiet (fun q d hd => ⟨d, hd, .refl d⟩) rfl rfl ⟨[_], rfl, by simp⟩ (by simp)
  | cleared => cases hlive

/-- Every body, up to the end of `vfs_destroy`. -/
theorem body_work (hI : Inv s (i :: F)) (hD : i.Disciplined s F)
    (hx : execBody s c t sched i = some (s', new)) (hlive : s'.destroyed = false) :
    WorkFrame i new s s' := by
  cases execBody_some hx with
  | launch h => exact h.work hI.toTable
  | mount h => exact h.work hI.toTable
  | dispatch h => exact h.work hI hD
  | chain h => exact h.work hI
  | close h => exact h.work hI
  | teardown h => exact h.work hI hlive

end Work

/-! ## What ready handles rely on -/

/-- The handle, the job and the job handle to record of an inline execution. -/
def Instr.launched : Instr → Option (HandlePtr × FlJobHandle × FlJobHandle)
  | .inlineOp p j r | .dispatchInline _ p j r => some (p, j, r)
  | .mountInline _ p j | .chainInline _ _ p j => some (p, j, 0)
  | _ => none

structure ReadyInv (s : VfsState) (F : List Instr) : Prop where
  /-- Every operation body stores a status. -/
  stored : ∀ j k, s.jobs j = some k → k.phase = .stored ∨ k.phase = .finished →
    ∀ d, s.pool k.target = some d → d.errorStatus ≠ VFS_STATE_PENDING
  target : ∀ p d, s.pool p = some d → d.jobHandle ≠ 0 →
    ∃ k, s.jobs d.jobHandle = some k ∧ k.target = p
  launched : ∀ x ∈ F, ∀ p j r, x.launched = some (p, j, r) →
    (∃ k, s.jobs j = some k ∧ k.target = p) ∧ (r = 0 ∨ r = j)
  recording : ∀ x ∈ F, ∀ h p r, x = .dispatchRecord h p r →
    (r = 0 ∧ ∀ d, s.pool p = some d → d.errorStatus ≠ VFS_STATE_PENDING) ∨
      (r ≠ 0 ∧ ∃ k, s.jobs r = some k ∧ k.target = p)
  /-- A handle without a job is over, prepared, or about to get one. -/
  ended : ∀ p d, s.pool p = some d → d.jobHandle = 0 → d.errorStatus ≠ VFS_STATE_PENDING ∨
    Undispatched s.trace p ∨ ∃ x ∈ F, x.unset = some p

/-- The operation of `p` is over with the results of `d₀`. -/
structure Settled (s : VfsState) (F : List Instr) (p : HandlePtr) (d₀ : VfsHandleData) : Prop where
  bound : p < s.nextPtr
  data : ∀ d, s.pool p = some d → SameResult d₀ d
  done : s.jobDone d₀.jobHandle = true
  jobs : ∀ j k, s.jobs j = some k → k.target = p → k.phase.isFinished = true
  unset : ∀ x ∈ F, x.unset ≠ some p
  dispatched : ¬ Undispatched s.trace p

section Invariants

variable {s s' : VfsState} {F G new : List Instr} {i : Instr} {p : HandlePtr}
  {d d₀ : VfsHandleData} {h : FlVfsHandle} {c : ℕ} {t : Thread} {sched : Sched} {j : FlJobHandle}
  {k : Job} {phase : JobPhase} {g : VfsHandleData → VfsHandleData} {es : List Event}

theorem SameResult.trans {d₁ d₂ d₃ : VfsHandleData} (h₁ : SameResult d₁ d₂)
    (h₂ : SameResult d₂ d₃) : SameResult d₁ d₃ :=
  ⟨h₂.1.trans h₁.1, h₂.2.1.trans h₁.2.1, h₂.2.2.trans h₁.2.2⟩

theorem Settled.perm (hS : Settled s F p d₀) (hp : F.Perm G) : Settled s G p d₀ :=
  ⟨hS.bound, hS.data, hS.done, hS.jobs, fun x hx => hS.unset x (hp.mem_iff.mpr hx),
    hS.dispatched⟩

theorem Settled.work (hS : Settled s (i :: F) p d₀) (hW : WorkFrame i new s s') :
    Settled s' (new ++ F) p d₀ where
  bound := Nat.lt_of_lt_of_le hS.bound hW.ptr
  data d' hd' := by
    rcases hW.handles p d' hd' with ⟨hfresh, -⟩ | ⟨d, hd, hu | hsame, -⟩
    · exact absurd hS.bound (Nat.not_lt.mpr hfresh)
    · exact absurd hu (hS.unset i List.mem_cons_self)
    · exact (hS.data d hd).trans hsame
  done := jobDone_kept hW.kept hS.done
  jobs j k hj ht := by
    rcases hW.added j k hj with hj | ⟨hu, -⟩
    · exact hS.jobs j k hj ht
    · exact absurd (ht ▸ hu) (hS.unset i List.mem_cons_self)
  unset x hx hu := by
    rcases List.mem_append.mp hx with hx | hx
    · rcases hW.unset x hx p hu with ⟨hfresh, -⟩ | hu | ⟨hund, -⟩
      · exact absurd hS.bound (Nat.not_lt.mpr hfresh)
      · exact absurd hu (hS.unset i List.mem_cons_self)
      · exact hS.dispatched hund
    · exact hS.unset x (List.mem_cons_of_mem i hx) hu
  dispatched hund := by
    rcases hW.prepared p hund with hund | hfresh
    · exact hS.dispatched hund
    · exact absurd hS.bound (Nat.not_lt.mpr hfresh)

/-- The events of a job are neither of preparing nor of dispatching. -/
theorem JobMove.undispatched (hm : JobMove s j k d phase g es) :
    Undispatched (es ++ s.trace) p ↔ Undispatched s.trace p :=
  undispatched_iff ⟨es, rfl, fun _ he => hm.neutral he⟩

theorem Settled.jobMove (hS : Settled s F p d₀) (hk : s.jobs j = some k)
    (hm : JobMove s j k d phase g es) : Settled (afterMove s j k.target phase g es) F p d₀ where
  bound := hS.bound
  data d' hd' := by
    rcases modify_some hd' with ⟨rfl, -⟩ | ⟨-, hd'⟩
    · have := hS.jobs j k hk rfl
      rw [hm.unfinished] at this
      cases this
    · exact hS.data d' hd'
  done := jobDone_setPhase (s := s.modify k.target g) hk hm.unfinished hS.done
  jobs x k' hx ht := by
    obtain ⟨k₀, hk₀, ht₀, -, -, hother, hmoved⟩ := afterMove_back hk hx
    have hfin := hS.jobs x k₀ hk₀ (ht₀ ▸ ht)
    by_cases hxj : x = j
    · rw [(hmoved hxj).1, hm.unfinished] at hfin
      cases hfin
    · rw [hother hxj]
      exact hfin
  unset := hS.unset
  dispatched hund := hS.dispatched (hm.undispatched.mp hund)

theorem ReadyInv.perm (hR : ReadyInv s F) (hp : F.Perm G) : ReadyInv s G where
  stored := hR.stored
  target := hR.target
  launched x hx := hR.launched x (hp.mem_iff.mpr hx)
  recording x hx := hR.recording x (hp.mem_iff.mpr hx)
  ended p d hd hz := by
    rcases hR.ended p d hd hz with h | h | ⟨x, hx, hu⟩
    · exact .inl h
    · exact .inr (.inl h)
    · exact .inr (.inr ⟨x, hp.mem_iff.mp hx, hu⟩)

/-- A ready handle whose prepared operation has been dispatched is settled. -/
theorem ReadyInv.settled (hR : ReadyInv s F) (hI : Inv s F) (hmap : s.mapGet h = some p)
    (hd : s.pool p = some d) (hpend : d.pendingDispatches = 0) (hdone : s.jobDone d.jobHandle = true)
    (hdis : ¬ Undispatched s.trace p) :
    Settled s F p d ∧ d.errorStatus ≠ VFS_STATE_PENDING := by
  obtain ⟨d', hd', hid⟩ := hI.mapped h p hmap
  rw [hd] at hd'
  cases hd'
  have hunset : ∀ x ∈ F, x.unset ≠ some p := by
    intro x hx hu
    rcases Instr.unset_holder hu with ho | hdisp
    · exact hI.mapped_not_owned hmap hx ho
    · obtain ⟨id, hw⟩ := Instr.dispatches_window hdisp
      exact hI.pending_zero_no_window hd hpend hx hw
  refine ⟨⟨hI.poolBound p d hd, fun e he => ?_, hdone, fun j k hj ht => ?_, hunset, hdis⟩, ?_⟩
  · rw [hd] at he
    cases he
    exact .refl d
  · by_contra hne
    have hfin : k.phase.isFinished = false := by simpa using hne
    obtain ⟨e, he, hrun⟩ := hI.running j k hj hfin
    rw [ht, hd] at he
    cases he
    rcases hrun with rfl | ⟨x, hx, hc⟩
    · simp only [VfsState.jobDone, VfsState.jobFinished_of hj, hfin, Bool.or_false,
        beq_iff_eq] at hdone
      exact Nat.ne_of_gt (hI.jobBound _ k hj).1 hdone
    · rw [ht] at hc
      exact hunset x hx (Instr.carries_holder hc).1
  · by_cases hz : d.jobHandle = 0
    · rcases hR.ended p d hd hz with h | h | ⟨x, hx, hu⟩
      · exact h
      · exact absurd h hdis
      · exact absurd hu (hunset x hx)
    · obtain ⟨k, hk, ht⟩ := hR.target p d hd hz
      have hfin : k.phase.isFinished = true := by
        simpa [VfsState.jobDone, hz, VfsState.jobFinished_of hk] using hdone
      refine hR.stored _ k hk (.inr ?_) d (ht ▸ hd)
      cases hp : k.phase <;> simp_all [JobPhase.isFinished]

/-- The operation of a finished job has a status. -/
theorem ReadyInv.finished (hR : ReadyInv s F) (hj : s.jobs j = some k) (ht : k.target = p)
    (hfin : s.jobFinished j = true) (hd : s.pool p = some d) :
    d.errorStatus ≠ VFS_STATE_PENDING := by
  rw [VfsState.jobFinished_of hj] at hfin
  refine hR.stored j k hj (.inr ?_) d (ht ▸ hd)
  cases hp : k.phase <;> simp_all [JobPhase.isFinished]

/-- A body keeps the invariant if it does on the handles it works on and in its new points. -/
theorem ReadyInv.work (hR : ReadyInv s (i :: F)) (hI : Inv s (i :: F)) (hW : WorkFrame i new s s')
    (hborn : i.births = true → ∀ p d, s.nextPtr ≤ p → s'.pool p = some d → d.jobHandle = 0 ∧
      (Undispatched s'.trace p ∨ ∃ x ∈ new, x.unset = some p))
    (hwrite : ∀ p d, i.unset = some p → s'.pool p = some d →
      (d.jobHandle ≠ 0 ∧ ∃ k, s'.jobs d.jobHandle = some k ∧ k.target = p) ∨
        (d.jobHandle = 0 ∧ (d.errorStatus ≠ VFS_STATE_PENDING ∨ ∃ x ∈ new, x.unset = some p)))
    (hlaunched : ∀ x ∈ new, ∀ p j r, x.launched = some (p, j, r) →
      (∃ k, s'.jobs j = some k ∧ k.target = p) ∧ (r = 0 ∨ r = j))
    (hrecording : ∀ x ∈ new, ∀ h p r, x = .dispatchRecord h p r →
      (r = 0 ∧ ∀ d, s'.pool p = some d → d.errorStatus ≠ VFS_STATE_PENDING) ∨
        (r ≠ 0 ∧ ∃ k, s'.jobs r = some k ∧ k.target = p)) : ReadyInv s' (new ++ F) where
  stored j k hj hphase d' hd' := by
    rcases hW.added j k hj with hj | ⟨-, hq | hs⟩
    · rcases hW.handles _ d' hd' with ⟨hfresh, -⟩ | ⟨d, hd, -, hsame | hne⟩
      · exact absurd (hI.targetBound j k hj) (Nat.not_lt.mpr hfresh)
      · rw [hsame]
        exact hR.stored j k hj hphase d hd
      · exact hne
    · simp [hq] at hphase
    · simp [hs] at hphase
  target p d' hd' hne := by
    rcases hW.handles p d' hd' with ⟨hfresh, hb⟩ | ⟨d, hd, hu | hsame, -⟩
    · exact absurd (hborn hb p d' hfresh hd').1 hne
    · rcases hwrite p d' hu hd' with ⟨-, h⟩ | ⟨hz, -⟩
      · exact h
      · exact absurd hz hne
    · rw [hsame.2.2] at hne ⊢
      obtain ⟨k, hk, ht⟩ := hR.target p d hd hne
      exact ⟨k, hW.kept _ k hk, ht⟩
  launched x hx p j r hl := by
    rcases List.mem_append.mp hx with hx | hx
    · exact hlaunched x hx p j r hl
    · obtain ⟨⟨k, hk, ht⟩, hr⟩ := hR.launched x (List.mem_cons_of_mem i hx) p j r hl
      exact ⟨⟨k, hW.kept j k hk, ht⟩, hr⟩
  recording x hx h p r he := by
    rcases List.mem_append.mp hx with hx | hx
    · exact hrecording x hx h p r he
    · rcases hR.recording x (List.mem_cons_of_mem i hx) h p r he with ⟨hr, hst⟩ | ⟨hr, k, hk, ht⟩
      · refine .inl ⟨hr, fun d' hd' => ?_⟩
        rcases hW.handles p d' hd' with ⟨hfresh, -⟩ | ⟨d, hd, -, hsame | hne⟩
        · obtain ⟨e, hp, -⟩ := hI.window_live (List.mem_cons_of_mem i hx) (by rw [he]; rfl)
          exact absurd (hI.poolBound p e hp) (Nat.not_lt.mpr hfresh)
        · rw [hsame]
          exact hst d hd
        · exact hne
      · exact .inr ⟨hr, k, hW.kept r k hk, ht⟩
  ended p d' hd' hz := by
    have hnew : (∃ x ∈ new, x.unset = some p) → ∃ x ∈ new ++ F, x.unset = some p :=
      fun ⟨x, hx, hu⟩ => ⟨x, List.mem_append_left F hx, hu⟩
    rcases hW.handles p d' hd' with ⟨hfresh, hb⟩ | ⟨d, hd, hu | hsame, -⟩
    · exact .inr ((hborn hb p d' hfresh hd').2.imp_right hnew)
    · rcases hwrite p d' hu hd' with ⟨hne, -⟩ | ⟨-, h⟩
      · exact absurd hz hne
      · exact h.imp_right fun h => .inr (hnew h)
    · by_cases hactive : i.unset = some p
      · rcases hwrite p d' hactive hd' with ⟨hne, -⟩ | ⟨-, h⟩
        · exact absurd hz hne
        · exact h.imp_right fun h => .inr (hnew h)
      · rw [hsame.2.2] at hz
        rw [hsame.1]
        rcases hR.ended p d hd hz with h | h | ⟨x, hx, hu⟩
        · exact .inl h
        · exact .inr ((hW.dispatched p h).imp_right hnew)
        · rcases List.mem_cons.mp hx with rfl | hx
          · exact absurd hu hactive
          · exact .inr (.inr ⟨x, List.mem_append_right new hx, hu⟩)

theorem launched_unset {x : Instr} {r : FlJobHandle} (h : x.launched = some (p, j, r)) :
    x.unset = some p := by
  cases x with
  | inlineOp | mountInline | dispatchInline | chainInline => cases h; rfl
  | _ => cases h

/-- Bodies that work on no operation. -/
theorem ReadyInv.quiet (hR : ReadyInv s (i :: F)) (hI : Inv s (i :: F)) (hW : WorkFrame i new s s')
    (hbirth : i.births = false) (hunset : i.unset = none) (hdis : ∀ h, i ≠ .dispatch h) :
    ReadyInv s' (new ++ F) := by
  have hnew : ∀ x ∈ new, ∀ p, x.unset ≠ some p := by
    intro x hx p hu
    rcases hW.unset x hx p hu with ⟨-, hb⟩ | hu | ⟨-, h, rfl⟩
    · simp [hbirth] at hb
    · simp [hunset] at hu
    · exact hdis h rfl
  refine hR.work hI hW (by simp [hbirth]) (by simp [hunset]) ?_ ?_
  · intro x hx p j r hl
    exact absurd (launched_unset hl) (hnew x hx p)
  · rintro x hx h p r rfl
    exact absurd rfl (hnew _ hx p)

/-- A call that has nothing left to do on an operation. -/
theorem ReadyInv.skip (hR : ReadyInv s (i :: F)) (hunset : i.unset = none) : ReadyInv s F where
  stored := hR.stored
  target := hR.target
  launched x hx := hR.launched x (List.mem_cons_of_mem i hx)
  recording x hx := hR.recording x (List.mem_cons_of_mem i hx)
  ended p d hd hz := by
    rcases hR.ended p d hd hz with h | h | ⟨x, hx, hu⟩
    · exact .inl h
    · exact .inr (.inl h)
    · rcases List.mem_cons.mp hx with rfl | hx
      · simp [hunset] at hu
      · exact .inr (.inr ⟨x, hx, hu⟩)

/-- The handle that `allocate_handle` made. -/
theorem born_data {params : VfsOpParams} {q : HandlePtr} (hT : Table s)
    (halloc : allocateHandle s params = some (p, s')) (hq : s.nextPtr ≤ q)
    (hd : s'.pool q = some d) : q = p ∧ d = newHandleData (s.idFor params.reuseHandle) params := by
  obtain ⟨rfl, -, hpool, -⟩ := allocateHandle_some halloc
  rw [hpool, Function.update_apply] at hd
  split_ifs at hd with hqp
  · exact ⟨hqp, (Option.some.inj hd).symm⟩
  · exact absurd (hT.poolBound q d hd) (Nat.not_lt.mpr hq)

/-- A call gives the handle it works on a new job. -/
theorem ReadyInv.queue (hR : ReadyInv s (i :: F)) (hI : Inv s (i :: F))
    (hW : WorkFrame i new s ((s.addJob k).modify p (setJobs s.nextJob)))
    (hbirth : i.births = false) (hu : i.unset = some p) (htarget : k.target = p)
    (hnew : ∀ x ∈ new, x.launched = none ∧ ∀ h q r, x ≠ .dispatchRecord h q r) :
    ReadyInv ((s.addJob k).modify p (setJobs s.nextJob)) (new ++ F) := by
  refine hR.work hI hW (by simp [hbirth]) (fun q d hq hd => ?_) (fun x hx q j r hl => ?_)
    fun x hx h q r he => absurd he ((hnew x hx).2 h q r)
  · rw [hu] at hq
    cases hq
    rcases modify_some hd with ⟨-, e, -, rfl⟩ | ⟨hne, -⟩
    · exact .inl ⟨Nat.ne_of_gt hI.jobPos, k, VfsState.addJob_newest, htarget⟩
    · exact absurd rfl hne
  · rw [(hnew x hx).1] at hl
    cases hl

/-- A call has the handle it works on processed by a job of its own thread. -/
theorem ReadyInv.inline {x : Instr} {r : FlJobHandle} (hR : ReadyInv s (i :: F))
    (hI : Inv s (i :: F)) (hW : WorkFrame i [x] s (s.addJob k)) (hbirth : i.births = false)
    (hu : i.unset = some p) (htarget : k.target = p)
    (hx : x.launched = some (p, s.nextJob, r)) (hr : r = 0 ∨ r = s.nextJob) :
    ReadyInv (s.addJob k) ([x] ++ F) := by
  refine hR.work hI hW (by simp [hbirth]) (fun q d hq hd => ?_) (fun y hy q j r' hl => ?_)
    fun y hy h q r' he => ?_
  · rw [hu] at hq
    cases hq
    exact .inr ⟨(hI.unset i List.mem_cons_self p hu d hd).1,
      .inr ⟨x, List.mem_singleton_self x, launched_unset hx⟩⟩
  · rw [List.mem_singleton.mp hy, hx] at hl
    cases hl
    exact ⟨⟨k, VfsState.addJob_newest, htarget⟩, hr⟩
  · rw [← List.mem_singleton.mp hy, he] at hx
    cases hx

/-- A call records the finished job that it has waited for. -/
theorem ReadyInv.record {r : FlJobHandle} (hR : ReadyInv s (i :: F)) (hI : Inv s (i :: F))
    (hW : WorkFrame i new s (s.modify p (setJobs r))) (hbirth : i.births = false)
    (hi : i.launched = some (p, j, r)) (hfin : s.jobFinished j = true)
    (hnew : ∀ x ∈ new, x.launched = none ∧ ∀ h q r, x ≠ .dispatchRecord h q r) :
    ReadyInv (s.modify p (setJobs r)) (new ++ F) := by
  obtain ⟨⟨k, hk, ht⟩, hr⟩ := hR.launched i List.mem_cons_self p j r hi
  refine hR.work hI hW (by simp [hbirth]) (fun q d hq hd => ?_) (fun x hx q j r hl => ?_)
    fun x hx h q r he => absurd he ((hnew x hx).2 h q r)
  · rw [launched_unset hi] at hq
    cases hq
    rcases modify_some hd with ⟨-, e, he, rfl⟩ | ⟨hne, -⟩
    · rcases hr with rfl | rfl
      · exact .inr ⟨rfl, .inl (hR.finished (d := e) hk ht hfin he)⟩
      · exact .inl ⟨Nat.ne_of_gt (hI.jobBound _ k hk).1, k, hk, ht⟩
    · exact absurd rfl hne
  · rw [(hnew x hx).1] at hl
    cases hl

/-- A call goes on with the handle of its `vfs_dispatch`. -/
theorem ReadyInv.hand {x : Instr} (hR : ReadyInv s (i :: F)) (hI : Inv s (i :: F))
    (hW : WorkFrame i [x] s s') (hbirth : i.births = false) (hu : i.unset = some p)
    (hpool : s'.pool = s.pool) (hx : x.unset = some p) (hquiet : x.launched = none)
    (hrecording : ∀ h q r, x = .dispatchRecord h q r →
      (r = 0 ∧ ∀ d, s'.pool q = some d → d.errorStatus ≠ VFS_STATE_PENDING) ∨
        (r ≠ 0 ∧ ∃ k, s'.jobs r = some k ∧ k.target = q)) : ReadyInv s' ([x] ++ F) := by
  refine hR.work hI hW (by simp [hbirth]) (fun q d hq hd => ?_) (fun y hy q j r hl => ?_)
    fun y hy h q r he => hrecording h q r (List.mem_singleton.mp hy ▸ he)
  · rw [hu] at hq
    cases hq
    rw [hpool] at hd
    exact .inr ⟨(hI.unset i List.mem_cons_self p hu d hd).1,
      .inr ⟨x, List.mem_singleton_self x, hx⟩⟩
  · rw [List.mem_singleton.mp hy, hquiet] at hl
    cases hl

theorem LaunchExec.ready (hx : LaunchExec s t i s' new) (hR : ReadyInv s (i :: F))
    (hI : Inv s (i :: F)) (hW : WorkFrame i new s s') : ReadyInv s' (new ++ F) := by
  cases hx with
  | refused | prepareRefused => exact hR.skip rfl
  | allocated known halloc =>
      refine hR.work hI hW (fun _ q d hq hd => ?_) (by simp [Instr.unset])
        (by simp [Instr.launched]) (by simp)
      obtain ⟨rfl, rfl⟩ := born_data hI.toTable halloc hq hd
      exact ⟨rfl, .inr ⟨_, List.mem_singleton_self _, rfl⟩⟩
  | prepared known halloc =>
      refine hR.work hI hW (fun _ q d hq hd => ?_) (by simp [Instr.unset])
        (by simp [Instr.launched]) (by simp)
      obtain ⟨rfl, rfl⟩ := born_data hI.toTable halloc hq hd
      refine ⟨rfl, .inl ⟨List.mem_cons_self, fun hdis => ?_⟩⟩
      simp only [VfsState.emit_trace, List.mem_cons, reduceCtorEq, false_or,
        (allocateHandle_some halloc).2.2.2.2.2.2.2.2.1] at hdis
      exact absurd (hI.traceBound q (.inr hdis)) (Nat.not_lt.mpr hq)
  | queued => exact hR.queue hI hW rfl rfl rfl (by simp [Instr.launched])
  | inlined hd hm worker free hr => exact hR.inline hI hW rfl rfl rfl rfl hr
  | ran finished => exact hR.record hI hW rfl rfl finished (by simp [Instr.launched])
  | published => exact hR.quiet hI hW rfl rfl (by simp)

theorem MountExec.ready (hx : MountExec s t i s' new) (hR : ReadyInv s (i :: F))
    (hI : Inv s (i :: F)) (hW : WorkFrame i new s s') : ReadyInv s' (new ++ F) := by
  cases hx with
  | opened lock halloc =>
      refine hR.work hI hW (fun _ q d hq hd => ?_) (by simp [Instr.unset])
        (by simp [Instr.launched]) (by simp)
      have hT : Table
          { s with nextMount := s.nextMount + 1, mountList := s.mountList ++ [s.nextMount] } :=
        hI.toTable.of_core rfl (fun _ => rfl) rfl rfl rfl fun _ => ⟨Iff.rfl, Iff.rfl⟩
      obtain ⟨rfl, rfl⟩ := born_data hT halloc hq hd
      exact ⟨rfl, .inr ⟨_, List.mem_singleton_self _, rfl⟩⟩
  | inlined => exact hR.inline hI hW rfl rfl rfl rfl (.inl rfl)
  | queued => exact hR.queue hI hW rfl rfl rfl (by simp [Instr.launched])
  | ran finished => exact hR.record hI hW rfl rfl finished (by simp [Instr.launched])
  | published => exact hR.quiet hI hW rfl rfl (by simp)

theorem DispatchExec.ready (hx : DispatchExec s t i s' new) (hR : ReadyInv s (i :: F))
    (hI : Inv s (i :: F)) (hW : WorkFrame i new s s') : ReadyInv s' (new ++ F) := by
  have hhead : i ∈ i :: F := List.mem_cons_self
  cases hx with
  | missing | entered =>
      exact hR.work hI hW (by simp [Instr.births]) (by simp [Instr.unset])
        (by simp [Instr.launched]) (by simp)
  | queued =>
      refine hR.hand hI hW rfl rfl rfl rfl rfl fun h q r he => ?_
      cases he
      exact .inr ⟨Nat.ne_of_gt hI.jobPos, _, VfsState.addJob_newest, rfl⟩
  | inlined hd hm worker free hr => exact hR.inline hI hW rfl rfl rfl rfl hr
  | @ran h p j r finished =>
      obtain ⟨⟨k, hk, ht⟩, hr⟩ := hR.launched _ hhead p j r rfl
      refine hR.hand hI hW rfl rfl rfl rfl rfl fun h' q r' he => ?_
      cases he
      rcases hr with rfl | rfl
      · exact .inl ⟨rfl, fun d hd => hR.finished hk ht finished hd⟩
      · exact .inr ⟨Nat.ne_of_gt (hI.jobBound _ k hk).1, k, hk, ht⟩
  | @recorded h p r =>
      refine hR.work hI hW (by simp [Instr.births]) (fun q d hq hd => ?_) (by simp) (by simp)
      cases hq
      rw [dispatchRecord, if_pos (hI.windowMapped _ hhead h p rfl)] at hd ⊢
      rcases modify_some hd with ⟨-, e, he, rfl⟩ | ⟨hne, -⟩
      · rcases hR.recording _ hhead h p r rfl with ⟨rfl, hst⟩ | ⟨hr, hk⟩
        · exact .inr ⟨rfl, .inl (hst e he)⟩
        · exact .inl ⟨hr, hk⟩
      · exact absurd rfl hne

theorem ChainExec.ready (hx : ChainExec s t i s' new) (hR : ReadyInv s (i :: F))
    (hI : Inv s (i :: F)) (hW : WorkFrame i new s s') : ReadyInv s' (new ++ F) := by
  cases hx with
  | allocated known halloc =>
      refine hR.work hI hW (fun _ q d hq hd => ?_) (by simp [Instr.unset])
        (by simp [Instr.launched]) (by simp)
      rcases modify_some hd with ⟨rfl, e, he, rfl⟩ | ⟨hne, hd⟩
      · obtain ⟨-, rfl⟩ := born_data hI.toTable halloc hq he
        exact ⟨rfl, .inr ⟨_, List.mem_singleton_self _, rfl⟩⟩
      · exact absurd (born_data hI.toTable halloc hq hd).1 hne
  | @blocked h file ticket p =>
      refine hR.work hI hW (by simp [Instr.births]) (fun q d hq hd => ?_) (by simp [Instr.launched])
        (by simp)
      cases hq
      rcases modify_some hd with ⟨-, e, he, rfl⟩ | ⟨hne, -⟩
      · exact .inr ⟨(hI.unset _ List.mem_cons_self p rfl e he).1, .inl would_block_final⟩
      · exact absurd rfl hne
  | inlined => exact hR.inline hI hW rfl rfl rfl rfl (.inl rfl)
  | queued => exact hR.queue hI hW rfl rfl rfl (by simp [Instr.launched])
  | ran finished => exact hR.record hI hW rfl rfl finished (by simp [Instr.launched])
  | _ => exact hR.quiet hI hW rfl rfl (by simp)

/-- Every body, up to the end of `vfs_destroy`. -/
theorem ReadyInv.body (hR : ReadyInv s (i :: F)) (hI : Inv s (i :: F)) (hD : i.Disciplined s F)
    (hx : execBody s c t sched i = some (s', new)) (hlive : s'.destroyed = false) :
    ReadyInv s' (new ++ F) := by
  have hW := body_work hI hD hx hlive
  cases execBody_some hx with
  | launch h => exact h.ready hR hI hW
  | mount h => exact h.ready hR hI hW
  | dispatch h => exact h.ready hR hI hW
  | chain h => exact h.ready hR hI hW
  | close h => cases h <;> exact hR.quiet hI hW rfl rfl (by simp)
  | teardown h => cases h <;> exact hR.quiet hI hW rfl rfl (by simp)

theorem ReadyInv.jobMove (hR : ReadyInv s F) (hk : s.jobs j = some k)
    (hm : JobMove s j k d phase g es) : ReadyInv (afterMove s j k.target phase g es) F := by
  have hjobs := hm.keeps.2
  have hstatus : ∀ e, (g e).errorStatus = e.errorStatus ∨ (g e).errorStatus ≠ VFS_STATE_PENDING := by
    intro e
    cases hm with
    | cancel => exact .inr (Completion.final _)
    | store r => exact .inr r.final
    | begin | find | run | fail | enter | leave | finish => exact .inl rfl
  have hpool : ∀ {q e}, (afterMove s j k.target phase g es).pool q = some e → ∃ e', s.pool q = some e' ∧
      (e.errorStatus = e'.errorStatus ∨ e.errorStatus ≠ VFS_STATE_PENDING) ∧
        e.jobHandle = e'.jobHandle := by
    intro q e he
    rcases modify_some he with ⟨rfl, e', he', rfl⟩ | ⟨-, he⟩
    · exact ⟨e', he', hstatus e', (hjobs e').2.1⟩
    · exact ⟨e, he, .inl rfl, rfl⟩
  have htargets : ∀ {x p}, (∃ k, s.jobs x = some k ∧ k.target = p) →
      ∃ k', (afterMove s j k.target phase g es).jobs x = some k' ∧ k'.target = p := by
    rintro x p ⟨k₀, hk₀, ht⟩
    obtain ⟨k', hk', ht', -⟩ := afterMove_forth hk₀
    exact ⟨k', hk', ht'.trans ht⟩
  refine ⟨fun x k' hx hphase e he => ?_, fun p e he hne => ?_, fun x hx p y r hl => ?_,
    fun x hx h p r he => ?_, fun p e he hz => ?_⟩
  · obtain ⟨k₀, hk₀, ht₀, -, -, hother, hmoved⟩ := afterMove_back hk hx
    obtain ⟨e', he', hst, -⟩ := hpool he
    by_cases hxj : x = j
    · subst hxj
      obtain ⟨rfl, hp⟩ := hmoved rfl
      rw [hp] at hphase
      rw [ht₀] at he
      rcases modify_some he with ⟨-, e', he', rfl⟩ | ⟨hne, -⟩
      · cases hm with
        | cancel => exact Completion.final _
        | store r => exact r.final
        | finish at_ => exact hR.stored x k₀ hk (.inl at_) e' he'
        | begin | find | run | fail | enter | leave => simp at hphase
      · exact absurd rfl hne
    · rcases hst with hst | hst
      · rw [hst]
        exact hR.stored x k₀ hk₀ (hother hxj ▸ hphase) e' (ht₀ ▸ he')
      · exact hst
  · obtain ⟨e', he', -, hjob⟩ := hpool he
    rw [hjob] at hne ⊢
    exact htargets (hR.target p e' he' hne)
  · obtain ⟨h, hr⟩ := hR.launched x hx p y r hl
    exact ⟨htargets h, hr⟩
  · rcases hR.recording x hx h p r he with ⟨hr, hst⟩ | ⟨hr, h⟩
    · refine .inl ⟨hr, fun e he => ?_⟩
      obtain ⟨e', he', hst' | hst', -⟩ := hpool he
      · rw [hst']
        exact hst e' he'
      · exact hst'
    · exact .inr ⟨hr, htargets h⟩
  · obtain ⟨e', he', hst, hjob⟩ := hpool he
    rw [hjob] at hz
    rcases hst with hst | hst
    · rw [hst]
      exact (hR.ended p e' he' hz).imp_right fun h => h.imp_left hm.undispatched.mpr
    · exact .inl hst

end Invariants

/-! ## Steps and runs -/

section Runs

variable {s s' : VfsState} {F : List Instr} {p : HandlePtr} {d d₀ d' : VfsHandleData}
  {h : FlVfsHandle} {a : Action}

theorem program_unset (request : Request) : ∀ x ∈ request.program, x.unset = none := by
  intro x hx
  obtain ⟨ho, hw, -⟩ := program_quiet request x hx
  cases hu : x.unset with
  | none => rfl
  | some p =>
      rcases Instr.unset_holder hu with h | h
      · simp [ho] at h
      · obtain ⟨id, h⟩ := Instr.dispatches_window h
        simp [hw] at h

/-- A property of the operations reads neither the calls nor the events of the lock. -/
theorem Settled.of_same (s' : VfsState) (hS : Settled s F p d₀) (hpool : s'.pool = s.pool)
    (hjobs : s'.jobs = s.jobs) (hptr : s'.nextPtr = s.nextPtr)
    (htrace : ∀ p, Undispatched s'.trace p ↔ Undispatched s.trace p) : Settled s' F p d₀ where
  bound := hptr ▸ hS.bound
  data := hpool ▸ hS.data
  done := (VfsState.jobDone_congr hjobs).trans hS.done
  jobs := hjobs ▸ hS.jobs
  unset := hS.unset
  dispatched h := hS.dispatched ((htrace p).mp h)

theorem ReadyInv.of_same (s' : VfsState) (hR : ReadyInv s F) (hpool : s'.pool = s.pool)
    (hjobs : s'.jobs = s.jobs)
    (htrace : ∀ p, Undispatched s'.trace p ↔ Undispatched s.trace p) : ReadyInv s' F where
  stored := by rw [hpool, hjobs]; exact hR.stored
  target := by rw [hpool, hjobs]; exact hR.target
  launched := by rw [hjobs]; exact hR.launched
  recording := by rw [hpool, hjobs]; exact hR.recording
  ended p d hd hz := by
    rw [htrace]
    exact hR.ended p d (hpool ▸ hd) hz

theorem lock_undispatched {c : ℕ} {e : Event} (he : e = .lock c ∨ e = .unlock c) (s : VfsState)
    (p : HandlePtr) : Undispatched (s.emit e).trace p ↔ Undispatched s.trace p := by
  refine undispatched_iff ⟨[e], rfl, fun e' he' => ?_⟩
  rw [List.mem_singleton] at he'
  rcases he with rfl | rfl <;> simp [he']

theorem Settled.step (hS : Settled s s.frames p d₀) (hI : Inv s s.frames) (hD : Disciplined s a)
    (h : step s a = some s') (hlive : s'.destroyed = false) : Settled s' s'.frames p d₀ := by
  refine step_rule (P := fun s F => Settled s F p d₀) hI hD h hlive hS
    (fun _ _ _ hS hp => hS.perm hp) ?_ ?_ ?_ ?_ ?_
  · exact fun s F cs hS => hS.of_same _ rfl rfl rfl fun _ => Iff.rfl
  · exact fun s F c e he hS => hS.of_same _ rfl rfl rfl (lock_undispatched he s)
  · intro t request _
    refine ⟨hS.bound, hS.data, hS.done, hS.jobs, fun x hx => ?_, hS.dispatched⟩
    rcases List.mem_append.mp hx with hx | hx
    · rw [program_unset request x hx]
      exact (Option.some_ne_none p).symm
    · exact hS.unset x hx
  · exact fun j input k d phase g es _ hk _ hm => hS.jobMove hk hm
  · exact fun c sched t i rest F s₀ s₂ new _ _ _ _ hS hI hD hx hlive =>
      hS.work (body_work hI hD hx hlive)

theorem ReadyInv.step (hR : ReadyInv s s.frames) (hI : Inv s s.frames) (hD : Disciplined s a)
    (h : step s a = some s') (hlive : s'.destroyed = false) : ReadyInv s' s'.frames := by
  refine step_rule (P := ReadyInv) hI hD h hlive hR (fun _ _ _ hR hp => hR.perm hp)
    ?_ ?_ ?_ ?_ ?_
  · exact fun s F cs hR => hR.of_same _ rfl rfl fun _ => Iff.rfl
  · exact fun s F c e he hR => hR.of_same _ rfl rfl (lock_undispatched he s)
  · intro t request _
    have hnew := program_unset request
    refine ⟨hR.stored, hR.target, fun x hx q j r hl => ?_, fun x hx h q r he => ?_,
      fun q d hd hz => ?_⟩
    · rcases List.mem_append.mp hx with hx | hx
      · have := launched_unset hl
        rw [hnew x hx] at this
        cases this
      · exact hR.launched x hx q j r hl
    · rcases List.mem_append.mp hx with hx | hx
      · have := hnew x hx
        rw [he] at this
        cases this
      · exact hR.recording x hx h q r he
    · exact (hR.ended q d hd hz).imp_right fun h => h.imp_right fun ⟨x, hx, hu⟩ =>
        ⟨x, List.mem_append_right _ hx, hu⟩
  · exact fun j input k d phase g es _ hk _ hm => hR.jobMove hk hm
  · exact fun c sched t i rest F s₀ s₂ new _ _ _ _ hR hI hD hx hlive => hR.body hI hD hx hlive

theorem readyInv_init : ReadyInv .init VfsState.init.frames := by
  refine ⟨?_, ?_, ?_, ?_, ?_⟩
  all_goals simp [VfsState.init, VfsState.frames]

theorem readyInv_reaches (h : Reaches step Disciplined .init s) :
    s.destroyed = false → ReadyInv s s.frames := by
  refine h.invariant_of (I := fun s => s.destroyed = false → Inv s s.frames)
    (fun s h => inv_reaches (fun _ _ hok => hok) h)
    (P := fun s => s.destroyed = false → ReadyInv s s.frames) (fun _ => readyInv_init) ?_
  intro t a u hI _ hR hD hstep hlive
  have hlive' := step_keeps_destroyed hstep hlive
  exact (hR hlive').step (hI hlive') hD hstep hlive

theorem settled_reaches (h : Reaches step Disciplined .init s) (h' : Reaches step Disciplined s s')
    (hS : s.destroyed = false → Settled s s.frames p d₀) :
    s'.destroyed = false → Settled s' s'.frames p d₀ := by
  refine h'.invariant_of (I := fun s => s.destroyed = false → Inv s s.frames)
    (fun u hu => inv_reaches (fun _ _ hok => hok) (h.trans hu))
    (P := fun s => s.destroyed = false → Settled s s.frames p d₀) hS ?_
  intro t a u hI _ hS hD hstep hlive
  have hlive' := step_keeps_destroyed hstep hlive
  exact (hS hlive').step (hI hlive') hD hstep hlive

/-- A destroyed VFS has no handles to look up. -/
theorem destroyed_reaches (h : Reaches step Disciplined .init s) (hd : s.destroyed = true) :
    s.handleMap = ∅ := by
  refine h.invariant (P := fun s => s.destroyed = true → s.handleMap = ∅) nofun ?_ hd
  intro t a u ht _ hstep hdead
  cases hlive : t.destroyed with
  | false =>
      obtain ⟨c, sched, w, rest, -, -, -, rfl⟩ := step_destroys hstep hlive hdead
      rfl
  | true =>
      obtain ⟨c, w, i, rest, new, -, -, rfl | ⟨q, qs, -, -, rfl⟩⟩ := step_after_destroy hstep hlive
      · exact ht hlive
      · exact ht hlive

/-- What callers are told of a handle they can name. -/
theorem ready_iff (hl : s.lookupOpenHandle h = some (p, d)) (hz : h ≠ FL_VFS_HANDLE_INVALID) :
    vfsIsReady s h = true ↔ d.pendingDispatches = 0 ∧ s.jobDone d.jobHandle = true := by
  simp [vfsIsReady, vfsSnapshotHandle, hl, hz, VfsState.jobDone]

theorem answers_ready (hl : s.lookupOpenHandle h = some (p, d)) (hready : vfsIsReady s h = true) :
    vfsGetStatus s h = d.errorStatus ∧
      vfsSnapshotReadyResult s h = d.resultData.getD ⟨vfsIsSuccess d.errorStatus, 0⟩ := by
  by_cases hz : h = FL_VFS_HANDLE_INVALID
  · simp [vfsIsReady, vfsSnapshotHandle, hz] at hready
  · simp only [vfsIsReady, vfsSnapshotHandle, hl, hz, if_false, Option.map_some] at hready
    simp only [vfsGetStatus, vfsSnapshotReadyResult, vfsSnapshotHandle, hl, hz, if_false,
      Option.map_some, hready]
    exact ⟨if_pos trivial, rfl⟩

/-- A handle that can be looked up is looked up before the end of `vfs_destroy`. -/
theorem lookup_live (hs : Reaches step Disciplined .init s) (hl : s.lookupOpenHandle h = some (p, d)) :
    s.destroyed = false := by
  by_contra hd
  have hmap := ((VfsState.lookupOpenHandle_some p).mp hl).1
  rw [VfsState.mapGet, destroyed_reaches hs (by simpa using hd)] at hmap
  simp at hmap

/-- Readiness, status and results of a handle that was ready are what they were. -/
def SameAnswers (s s' : VfsState) (h : FlVfsHandle) : Prop :=
  vfsIsReady s' h = true ∧ vfsGetStatus s' h = vfsGetStatus s h ∧
    vfsGetData s' h = vfsGetData s h ∧ vfsGetFileList s' h = vfsGetFileList s h

/-- No call is between the first and the last critical section of `vfs_chain_file_op`, or of
`vfs_dispatch`, for the handle. -/
def NoWindow (s : VfsState) (p : HandlePtr) : Prop :=
  ∀ i ∈ s.frames, ∀ id, i.window ≠ some (id, p)

theorem noWindow_iff (hI : Inv s s.frames) (hd : s.pool p = some d) :
    NoWindow s p ↔ d.pendingDispatches = 0 := by
  have hw := hI.windows p
  simp only [pendingAt, hd] at hw
  refine ⟨fun hn => ?_, fun hz i hi id hwin => ?_⟩
  · by_contra hne
    have hpos : 0 < openWindows s.frames p := by omega
    obtain ⟨i, hi, id, hwin⟩ := exists_window hpos
    exact hn i hi id hwin
  · exact hI.pending_zero_no_window hd hz hi hwin

/-- The operation of a settled handle has the answers it had, except while a window is open. -/
theorem settled_answers (hs : Reaches step Disciplined .init s) (h' : Reaches step Disciplined s s')
    (hl : s.lookupOpenHandle h = some (p, d)) (hready : vfsIsReady s h = true)
    (hS : Settled s s.frames p d) (hl' : s'.lookupOpenHandle h = some (p, d')) :
    SameAnswers s s' h ↔ NoWindow s' p := by
  have hlive := lookup_live (hs.trans h') hl'
  have hI := inv_reaches (fun _ _ hok => hok) (hs.trans h') hlive
  obtain ⟨hmap, hd', -⟩ := (VfsState.lookupOpenHandle_some p).mp hl'
  have hz : h ≠ FL_VFS_HANDLE_INVALID := by
    obtain ⟨e, he, hid⟩ := hI.mapped h p hmap
    exact hid ▸ hI.idNonzero p e he
  have hS' := settled_reaches hs h' (fun _ => hS) hlive
  obtain ⟨hstatus, hresult, hjob⟩ := hS'.data d' hd'
  have hdone : s'.jobDone d'.jobHandle = true := hjob ▸ hS'.done
  rw [noWindow_iff hI hd']
  refine ⟨fun hsame => ((ready_iff hl' hz).mp hsame.1).1, fun hpend => ?_⟩
  have hready' := (ready_iff hl' hz).mpr ⟨hpend, hdone⟩
  obtain ⟨h₁, h₂⟩ := answers_ready hl hready
  obtain ⟨h₃, h₄⟩ := answers_ready hl' hready'
  have hresults : vfsSnapshotReadyResult s' h = vfsSnapshotReadyResult s h := by
    rw [h₂, h₄, hstatus, hresult]
  exact ⟨hready', by rw [h₁, h₃, hstatus], hresults, hresults⟩

/-- When readiness is the end of the operation, and when it is for good: the handle is not a
prepared one that waits for its dispatch, and nothing is being chained onto it. -/
theorem ready_exact (hs : Reaches step Disciplined .init s)
    (hl : s.lookupOpenHandle h = some (p, d)) (hready : vfsIsReady s h = true) :
    (vfsGetStatus s h ≠ VFS_STATE_PENDING ↔ ¬ Undispatched s.trace p) ∧
      (¬ Undispatched s.trace p → ∀ s', Reaches step Disciplined s s' → StillOpen s' p d.mount →
        (SameAnswers s s' h ↔ NoWindow s' p)) := by
  have hlive := lookup_live hs hl
  have hI := inv_reaches (fun _ _ hok => hok) hs hlive
  obtain ⟨hmap, hd, -⟩ := (VfsState.lookupOpenHandle_some p).mp hl
  have hz : h ≠ FL_VFS_HANDLE_INVALID := by
    obtain ⟨e, he, hid⟩ := hI.mapped h p hmap
    exact hid ▸ hI.idNonzero p e he
  obtain ⟨hpend, hdone⟩ := (ready_iff hl hz).mp hready
  have hstatus := (answers_ready hl hready).1
  refine ⟨⟨fun hne hu => hne ?_, fun hdis => ?_⟩, fun hdis s' h' hopen => ?_⟩
  · rw [hstatus, (hI.prepared p hu d hd).2.2.2.2.1]
  · rw [hstatus]
    exact ((readyInv_reaches hs hlive).settled hI hmap hd hpend hdone hdis).2
  · obtain ⟨d', hl'⟩ := stays_open hs h' hl hopen
    exact settled_answers hs h' hl hready
      ((readyInv_reaches hs hlive).settled hI hmap hd hpend hdone hdis).1 hl'

/-- A read is chained onto a file whose open has finished; once it is recorded the file
answers as before. -/
theorem ready_exact_file : ∃ s s', Reaches step Disciplined .init s ∧ Reaches step Disciplined s s' ∧
    vfsIsReady s 2 = true ∧ vfsGetStatus s 2 ≠ VFS_STATE_PENDING ∧ SameAnswers s s' 2 := by
  have hrun : ((replay step Disciplined openFileScript .init).bind fun s =>
      (replay step Disciplined (.start .main (.read 2 10) :: callSteps 2 4) s).map fun s' =>
        ((s.lookupOpenHandle 2).map fun r => (r.1, r.2.mount),
          decide (vfsIsReady s 2 = true ∧ ¬ Undispatched s.trace 1 ∧ s'.destroyed = false ∧
            .closed 1 ∉ s'.trace ∧ 0 ∉ s'.closing ∧ s'.frames.length = 0))) =
      some (some (1, 0), true) := by
    decide +kernel
  obtain ⟨s, hs, hrest⟩ := Option.bind_eq_some_iff.mp hrun
  obtain ⟨s', hs', hfacts⟩ := Option.map_eq_some_iff.mp hrest
  simp only [Prod.mk.injEq, decide_eq_true_eq] at hfacts
  obtain ⟨hl, hready, hdis, hlive, hclosed, hclosing, hframes⟩ := hfacts
  obtain ⟨⟨p, d⟩, hl, hpd⟩ := Option.map_eq_some_iff.mp hl
  simp only [Prod.mk.injEq] at hpd
  obtain ⟨rfl, hm⟩ := hpd
  have hreach := replay_reaches _ hs
  have hreach' := replay_reaches _ hs'
  obtain ⟨hstatus, hfinal⟩ := ready_exact hreach hl hready
  refine ⟨s, s', hreach, hreach', hready, hstatus.mpr hdis, ?_⟩
  refine (hfinal hdis s' hreach' ⟨hlive, hclosed, hm ▸ hclosing⟩).mpr ?_
  simp [NoWindow, List.length_eq_zero_iff.mp hframes]

/-- A prepared handle is ready before anything has run; and a file that was ready is not while
a read is being chained onto it. -/
theorem ready_not_final :
    (∃ s, Reaches step Disciplined .init s ∧ vfsIsReady s 2 = true ∧
      vfsGetStatus s 2 = VFS_STATE_PENDING) ∧
    ∃ s s', Reaches step Disciplined .init s ∧ Reaches step Disciplined s s' ∧
      vfsIsReady s 2 = true ∧ StillOpen s' 1 0 ∧ vfsIsReady s' 2 = false := by
  constructor
  · let actions := [.start .main .mountOpen] ++ callSteps 0 3 ++ jobRuns 1 completed ++
      [.start .main (.prepare ⟨0, false, false, FL_VFS_HANDLE_INVALID⟩)] ++ callSteps 1 2
    have hrun : ((replay step Disciplined actions .init).map fun s =>
        (vfsIsReady s 2, vfsGetStatus s 2)) = some (true, VFS_STATE_PENDING) := by
      decide +kernel
    obtain ⟨s, hs, hfacts⟩ := Option.map_eq_some_iff.mp hrun
    simp only [Prod.mk.injEq] at hfacts
    exact ⟨s, replay_reaches _ hs, hfacts⟩
  · have hrun : ((replay step Disciplined openFileScript .init).bind fun s =>
        (replay step Disciplined (.start .main (.read 2 10) :: callSteps 2 1) s).map fun s' =>
          (vfsIsReady s 2, vfsIsReady s' 2, s'.destroyed, decide (.closed 1 ∈ s'.trace),
            decide (0 ∈ s'.closing))) = some (true, false, false, false, false) := by
      decide +kernel
    obtain ⟨s, hs, hrest⟩ := Option.bind_eq_some_iff.mp hrun
    obtain ⟨s', hs', hfacts⟩ := Option.map_eq_some_iff.mp hrest
    simp only [Prod.mk.injEq, decide_eq_false_iff_not] at hfacts
    obtain ⟨hready, hnot, hlive, hclosed, hclosing⟩ := hfacts
    exact ⟨s, s', replay_reaches _ hs, replay_reaches _ hs', hready, ⟨hlive, hclosed, hclosing⟩, hnot⟩

end Runs

end FlowiVfs
