import FlowiVfs.HandleFootprint

/-!
# A handle that one holder uses alone

The holder of a handle is told its id and shares it with nobody. `Reserved` is what it can rely
on: the handle is open, the windows on it are its own, the jobs recorded on it are over, and no
unfinished job reaches it but one of its own. What others do keeps that. A worker whose
operations run inline keeps it too, at every point of the calls that it makes one after the
other: it is `Secure` in each of them.
-/
namespace FlowiVfs

/-- On an open mount `w` windows are open on the handle, and only job `x` may still reach it. -/
structure Reserved (s : VfsState) (m : MountPtr) (p : HandlePtr) (d : VfsHandleData) (w : ℤ)
    (x : FlJobHandle) : Prop where
  live : s.pool p = some d
  isOpen : d.closed = false
  mount : d.mount = m
  windows : d.pendingDispatches = w
  done : s.jobDone d.jobHandle = true ∧ s.jobDone d.lastJob = true
  quiet : ∀ j k, s.jobs j = some k → k.reaches p → k.phase.isFinished = true ∨ j = x

/-- What is chained onto a handle, or has yet to be launched there, entered in the past. -/
structure ChainsBorn (s : VfsState) (F : List Instr) : Prop where
  chained : ∀ j k n f, s.jobs j = some k → k.chained = some (n, f) →
    f < s.nextPtr ∧ n < s.trace.length
  waits : ∀ x ∈ F, ∀ w ∈ x.waiting, w.2.1 < s.trace.length

/-- All operations launched on the file entered before the ticket. -/
def EnteredBefore (s : VfsState) (file : HandlePtr) (ticket : ℕ) : Prop :=
  ∀ j k n, s.jobs j = some k → k.chained = some (n, file) → n < ticket

/-- A reserved handle with the id `t`. -/
def Held (s : VfsState) (m : MountPtr) (t : FlVfsHandle) (w : ℤ) (x : FlJobHandle) : Prop :=
  ∃ p d, s.mapGet t = some p ∧ Reserved s m p d w x

section Frame

variable {s s' : VfsState} {F new : List Instr} {i : Instr} {p q : HandlePtr}
  {d : VfsHandleData} {t : FlVfsHandle} {c : ℕ} {m : MountPtr} {w : ℤ} {x j : FlJobHandle}
  {k : Job} {th : Thread} {sched : Sched}

theorem Reserved.spares (hR : Reserved s m p d w x) (h : SparesHandle s s' p) :
    Reserved s' m p d w x where
  live := h.pool.trans hR.live
  isOpen := hR.isOpen
  mount := hR.mount
  windows := hR.windows
  done := ⟨jobDone_kept h.kept hR.done.1, jobDone_kept h.kept hR.done.2⟩
  quiet j k hj hk := by
    rcases h.added j k hj with hold | hno
    · exact hR.quiet j k hold hk
    · exact absurd hk hno

theorem reaches_phase {k k' : Job} (htarget : k'.target = k.target)
    (hchained : k'.chained = k.chained) : k'.reaches p ↔ k.reaches p := by
  rw [Job.reaches, Job.reaches, htarget, hchained]

/-- A job writes its results, and then it has finished. -/
theorem Reserved.job (hR : Reserved s m p d w x) {input : JobInput}
    (h : jobStep s j input = some s') : ∃ d', Reserved s' m p d' w x := by
  obtain ⟨k, e, phase, f, es, hk, he, hm, rfl⟩ := jobStep_cases h
  obtain ⟨hkeep, hfields⟩ := hm.keeps
  have hclosed : ∀ d, (f d).closed = d.closed := by
    cases hm <;> exact fun _ => rfl
  have hdone : ∀ y, s.jobDone y = true →
      (afterMove s j k.target phase f es).jobDone y = true := fun y hy =>
    jobDone_setPhase (s := s.modify k.target f) hk hm.unfinished hy
  have hquiet : ∀ y k', (afterMove s j k.target phase f es).jobs y = some k' → k'.reaches p →
      k'.phase.isFinished = true ∨ y = x := by
    intro y k' hy hreach
    obtain ⟨k₀, hk₀, htarget, hchained, -, hother, hmoved⟩ := afterMove_back hk hy
    have hold := hR.quiet y k₀ hk₀ ((reaches_phase htarget hchained).mp hreach)
    by_cases hyj : y = j
    · obtain ⟨rfl, -⟩ := hmoved hyj
      rw [hm.unfinished] at hold
      exact .inr (hold.resolve_left Bool.false_ne_true)
    · rwa [hother hyj]
  have hpool : (afterMove s j k.target phase f es).pool p =
      if p = k.target then (s.pool k.target).map f else s.pool p := by
    exact VfsState.modify_pool s k.target p f
  by_cases hp : p = k.target
  · refine ⟨f d, ?_, ?_, ?_, ?_, ?_, hquiet⟩
    · rw [hpool, if_pos hp, ← hp, hR.live, Option.map_some]
    · rw [hclosed, hR.isOpen]
    · rw [(hkeep d).2.1, hR.mount]
    · rw [(hfields d).1, hR.windows]
    · rw [(hfields d).2.1, (hfields d).2.2]
      exact ⟨hdone _ hR.done.1, hdone _ hR.done.2⟩
  · refine ⟨d, ?_, hR.isOpen, hR.mount, hR.windows, ?_, hquiet⟩
    · rw [hpool, if_neg hp, hR.live]
    · exact ⟨hdone _ hR.done.1, hdone _ hR.done.2⟩

theorem EnteredBefore.spares {file : HandlePtr} {ticket : ℕ} (h : EnteredBefore s file ticket)
    (hs : SparesHandle s s' file) : EnteredBefore s' file ticket := by
  intro j k n hj hc
  rcases hs.added j k hj with hold | hno
  · exact h j k n hold hc
  · exact absurd (.inr ⟨n, hc⟩) hno

theorem ChainsBorn.perm {G : List Instr} (hB : ChainsBorn s F) (hp : F.Perm G) :
    ChainsBorn s G where
  chained := hB.chained
  waits x hx := hB.waits x (hp.mem_iff.mpr hx)

theorem ChainsBorn.pop (hB : ChainsBorn s (i :: F)) : ChainsBorn s F where
  chained := hB.chained
  waits x hx := hB.waits x (List.mem_cons_of_mem i hx)

theorem ChainsBorn.push (hB : ChainsBorn s F)
    (hnew : ∀ x ∈ new, ∀ w ∈ x.waiting, w.2.1 < s.trace.length) : ChainsBorn s (new ++ F) where
  chained := hB.chained
  waits x hx := by
    rcases List.mem_append.mp hx with hx | hx
    · exact hnew x hx
    · exact hB.waits x hx

theorem ChainsBorn.grow (hB : ChainsBorn s F) (hptr : s.nextPtr ≤ s'.nextPtr)
    (htrace : ∃ es, s'.trace = es ++ s.trace) (hjobs : ∀ j k, s'.jobs j = some k →
      k.chained = none ∨ ∃ k₀, s.jobs j = some k₀ ∧ k.chained = k₀.chained) :
    ChainsBorn s' F := by
  have hlength : s.trace.length ≤ s'.trace.length := by
    obtain ⟨es, htrace⟩ := htrace
    rw [htrace, List.length_append]
    exact Nat.le_add_left _ _
  constructor
  · intro j k n f hj hc
    rcases hjobs j k hj with hnone | ⟨k₀, hj₀, hsame⟩
    · rw [hnone] at hc
      cases hc
    · obtain ⟨hborn, hentered⟩ := hB.chained j k₀ n f hj₀ (hsame ▸ hc)
      exact ⟨Nat.lt_of_lt_of_le hborn hptr, Nat.lt_of_lt_of_le hentered hlength⟩
  · intro x hx w hw
    exact Nat.lt_of_lt_of_le (hB.waits x hx w hw) hlength

/-- Nothing is chained that was not. -/
theorem ChainsBorn.same (hB : ChainsBorn s F) (hptr : s.nextPtr ≤ s'.nextPtr)
    (htrace : ∃ es, s'.trace = es ++ s.trace) (hjobs : s'.jobs = s.jobs) : ChainsBorn s' F :=
  hB.grow hptr htrace fun j k hj => .inr ⟨k, (congrFun hjobs j).symm.trans hj, rfl⟩

/-- A call launches the operation with which it has entered. -/
theorem ChainsBorn.launch {h : FlVfsHandle} {file : HandlePtr} {ticket : ℕ}
    {after dep : FlJobHandle} {phase : JobPhase}
    (hB : ChainsBorn s (.chainRun h file ticket p after :: F))
    (hI : Inv s (.chainRun h file ticket p after :: F)) :
    ChainsBorn (s.addJob ⟨p, dep, some (ticket, file), phase⟩) F := by
  have hhead : Instr.chainRun h file ticket p after ∈ Instr.chainRun h file ticket p after :: F :=
    List.mem_cons_self
  refine ⟨fun j k n f hj hc => ?_, hB.pop.waits⟩
  rcases VfsState.addJob_some hj with ⟨-, rfl⟩ | hj
  · cases hc
    obtain ⟨d, hd, -⟩ := hI.window_live hhead rfl
    exact ⟨hI.toTable.poolBound file d hd, hB.waits _ hhead _ rfl⟩
  · exact hB.chained j k n f hj hc

theorem ChainExec.chainsBorn (hx : ChainExec s th i s' new) (hB : ChainsBorn s (i :: F))
    (hI : Inv s (i :: F)) (hptr : s.nextPtr ≤ s'.nextPtr) : ChainsBorn s' (new ++ F) := by
  cases hx with
  | refused => exact hB.pop
  | copiedOnly => exact hB.pop.same hptr ⟨[_], rfl⟩ rfl
  | copied | entered =>
      exact (hB.pop.same hptr ⟨[_], rfl⟩ rfl).push (by simp [Instr.waiting])
  | @allocated h file ticket params m after s₁ known halloc =>
      obtain ⟨-, -, -, -, -, hjobs, -, -, htrace, -⟩ := allocateHandle_some halloc
      refine (hB.pop.same hptr ⟨[], htrace⟩ hjobs).push ?_
      have hentered := hB.waits _ List.mem_cons_self (file, ticket, after) rfl
      simpa [Instr.waiting, htrace] using hentered
  | unwound =>
      obtain ⟨d, -, -, -, hunwind⟩ := chainUnwind_live hI
      rw [hunwind]
      exact hB.pop.same (le_refl _) ⟨[], rfl⟩ rfl
  | blocked | ran => exact (hB.pop.same hptr ⟨[], rfl⟩ rfl).push (by simp [Instr.waiting])
  | inlined worker done => exact (hB.launch hI).push (by simp [Instr.waiting])
  | @queued h file ticket p after main =>
      have launched : ChainsBorn (s.addJob ⟨p, after, some (ticket, file), .queued⟩) F :=
        hB.launch hI
      have recorded : ChainsBorn _ F := launched.same hptr ⟨[], rfl⟩ rfl
      exact recorded.push (by simp [Instr.waiting])
  | published =>
      obtain ⟨d, op, -, -, -, -, -, hpublish⟩ := chainPublish_live hI
      rw [hpublish] at hptr ⊢
      unfold vfsPublishHandle at hptr ⊢
      split at hptr
      · exact hB.pop.same hptr ⟨[_], rfl⟩ rfl
      · exact hB.pop.same hptr ⟨[], rfl⟩ rfl

theorem ChainsBorn.body (hB : ChainsBorn s (i :: F)) (hI : Inv s (i :: F))
    (hD : i.Disciplined s F) (hx : execBody s c th sched i = some (s', new))
    (hlive : s'.destroyed = false) : ChainsBorn s' (new ++ F) := by
  have hptr := (body_retained hI hx hlive).ptr
  cases hi : i.chains with
  | false =>
      have hF := body_frame hI hD hi hx hlive
      refine (hB.pop.grow hF.ptr (hF.trace.imp fun es h => h.1) fun j k hj => ?_).push ?_
      · rcases hF.added j k hj with hold | ⟨-, hnone, -⟩
        · exact .inr ⟨k, hold, rfl⟩
        · exact .inl hnone
      · intro x hxn w hw
        have hwaits : x.waiting = some (w.1, w.2.1, w.2.2) := hw
        have hfile := waiting_chainFile hwaits
        rw [body_chainFile hi hx x hxn] at hfile
        cases hfile
  | true =>
      cases execBody_some hx with
      | chain h => exact h.chainsBorn hB hI hptr
      | launch h | mount h | dispatch h | close h | teardown h => cases h <;> cases hi

theorem ChainsBorn.job {phase : JobPhase} {f : VfsHandleData → VfsHandleData} {es : List Event}
    (hB : ChainsBorn s F) (hk : s.jobs j = some k) :
    ChainsBorn (afterMove s j k.target phase f es) F := by
  refine hB.grow le_rfl ⟨es, rfl⟩ fun y k' hy => ?_
  obtain ⟨k₀, hk₀, -, hchained, -⟩ := afterMove_back hk hy
  exact .inr ⟨k₀, hk₀, hchained⟩

/-! ## Points of a call of a worker -/

theorem Reserved.born {params : VfsOpParams} (hT : Table s) (hB : ChainsBorn s F)
    (halloc : allocateHandle s params = some (p, s')) :
    ∃ d, Reserved s' params.mount p d 0 0 := by
  obtain ⟨rfl, -, hpool, -, -, hjobs, -⟩ := allocateHandle_some halloc
  refine ⟨_, ⟨by rw [hpool, Function.update_self], rfl, rfl, rfl, ⟨rfl, rfl⟩, fun j k hj hk => ?_⟩⟩
  rw [hjobs] at hj
  rcases hk with hk | ⟨n, hk⟩
  · exact absurd (hT.targetBound j k hj) (hk ▸ Nat.lt_irrefl _)
  · exact absurd (hB.chained j k n _ hj hk).1 (Nat.lt_irrefl _)

/-- A field of the handle is written that others do not read, or a job that has finished. -/
theorem Reserved.write {g : VfsHandleData → VfsHandleData} {w' : ℤ} (hR : Reserved s m p d w x)
    (hclosed : (g d).closed = d.closed) (hmount : (g d).mount = d.mount)
    (hwindows : (g d).pendingDispatches = w')
    (hdone : s.jobDone (g d).jobHandle = true ∧ s.jobDone (g d).lastJob = true) :
    Reserved (s.modify p g) m p (g d) w' x where
  live := by rw [VfsState.modify_pool, if_pos rfl, hR.live, Option.map_some]
  isOpen := hclosed.trans hR.isOpen
  mount := hmount.trans hR.mount
  windows := hwindows
  done := hdone
  quiet := hR.quiet

/-- The job of the handle itself, or of an operation chained onto it, starts. -/
theorem Reserved.launch (hT : Table s) (hR : Reserved s m p d w 0) :
    Reserved (s.addJob k) m p d w s.nextJob where
  live := hR.live
  isOpen := hR.isOpen
  mount := hR.mount
  windows := hR.windows
  done := by
    have hkept : ∀ j k', s.jobs j = some k' → (s.addJob k).jobs j = some k' :=
      fun j k' hj => hT.addJob_kept hj
    exact ⟨jobDone_kept hkept hR.done.1, jobDone_kept hkept hR.done.2⟩
  quiet j k' hj hk := by
    rcases VfsState.addJob_some hj with ⟨hnew, -⟩ | hj
    · exact .inr hnew
    · refine .inl ((hR.quiet j k' hj hk).resolve_right ?_)
      rintro rfl
      exact Nat.lt_irrefl _ (hT.jobBound _ _ hj).1

/-- The job has finished. -/
theorem Reserved.finish (hR : Reserved s m p d w x) (hx : s.jobFinished x = true) :
    Reserved s m p d w 0 where
  live := hR.live
  isOpen := hR.isOpen
  mount := hR.mount
  windows := hR.windows
  done := hR.done
  quiet j k hj hk := by
    rcases hR.quiet j k hj hk with hfin | rfl
    · exact .inl hfin
    · rw [VfsState.jobFinished_of hj] at hx
      exact .inl hx

theorem Reserved.ready (hR : Reserved s m p d 0 0) (hmap : s.mapGet t = some p)
    (ht : t ≠ FL_VFS_HANDLE_INVALID) : vfsIsReady s t = true := by
  have hlookup : s.lookupOpenHandle t = some (p, d) :=
    (VfsState.lookupOpenHandle_some p).mpr ⟨hmap, hR.live, hR.isOpen⟩
  have hdone := hR.done.1
  simp only [VfsState.jobDone, Bool.or_eq_true, beq_iff_eq] at hdone
  simp [vfsIsReady, vfsSnapshotHandle, ht, hlookup, hR.windows, hdone]

end Frame
end FlowiVfs
