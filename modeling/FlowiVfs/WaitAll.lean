import FlowiVfs.ChainedClose
import FlowiVfs.JobWaits

/-!
# What `vfs_wait_all` waits for

`vfs_wait_all` takes `job_handle` and `last_job` of every handle of the map and waits for
these jobs. They stand for all the work on the handles as long as no scheduling window is
open: the job of the handle is recorded, and the operations chained onto it are linked by
their dependencies up to `last_job`. It does not look at `pending_dispatches`, so what is
being dispatched or chained while it takes its snapshot is missed.
-/
namespace FlowiVfs

open Transition

/-- The ticket and the file of a chain that has not made its job. -/
def Instr.entry : Instr → Option (ℕ × HandlePtr)
  | .chainAlloc _ file ticket _ _ _ | .chainRun _ file ticket _ _ => some (ticket, file)
  | _ => none

/-- The operation of a window has been scheduled and has finished, or was refused. Where the
job of the window is in the table already there is nothing to add. -/
def Instr.WindowOver (s : VfsState) : Instr → Prop
  | .dispatchSchedule _ p => (∀ x ∈ s.frames, x.dispatches ≠ some p) ∧
      ∀ j k, s.jobs j = some k → k.target = p → k.phase.isFinished = true
  | .chainAlloc _ file ticket _ _ _ | .chainRun _ file ticket _ _ =>
      (∀ x ∈ s.frames, x.entry ≠ some (ticket, file)) ∧
        ∀ j k, s.jobs j = some k → k.chained = some (ticket, file) → k.phase.isFinished = true
  | _ => True

/-- In `s'` everything has finished that could reach the handle `p` in `s`. -/
structure WaitedOut (s s' : VfsState) (p : HandlePtr) : Prop where
  jobs : ∀ j k, s.jobs j = some k → (k.target = p ∨ ∃ n, k.chained = some (n, p)) →
    s'.jobFinished j = true
  windows : ∀ i ∈ s.frames, ∀ id, i.window = some (id, p) → i.WindowOver s'

/-- The callers keep to the rules, and an inline operation is recorded only over a job that
has finished. -/
def Waitable (s : VfsState) (a : Action) : Prop := Disciplined s a ∧ InlineLast s a

instance (s : VfsState) (a : Action) : Decidable (Waitable s a) :=
  inferInstanceAs (Decidable (_ ∧ _))

section Runs

variable {s s' s₁ : VfsState} {F : List (Thread × Instr)} {f p : HandlePtr} {d : VfsHandleData}
  {j last : FlJobHandle} {k : Job} {c : ℕ} {rest : List Instr} {sched : Sched}

theorem closeInv_reaches (h : Reaches step Waitable .init s) :
    s.destroyed = false → CloseInv s s.threadFrames := by
  refine h.invariant_of (I := fun s => s.destroyed = false → Inv s s.frames)
    (fun s h => inv_reaches (fun _ _ hok => hok.1) h)
    (P := fun s => Stacked s.calls ∧ (s.destroyed = false → CloseInv s s.threadFrames))
    ⟨stacked_init, fun _ => closeInv_init⟩ ?_ |>.2
  intro t a u hI _ hP hok hstep
  refine ⟨hP.1.step hstep, fun hlive => ?_⟩
  have hlive' := step_keeps_destroyed hstep hlive
  exact (hP.2 hlive').step (hI hlive') hP.1 hok.1 hok.2 hstep hlive

/-- A job that has started has waited for its dependency. -/
theorem started_reaches (h : Reaches step Waitable .init s) :
    ∀ j k, s.jobs j = some k → k.phase ≠ .queued → s.jobDone k.dependency = true := by
  refine h.invariant_of (I := fun s => s.destroyed = false → CloseInv s s.threadFrames)
    (fun s h => closeInv_reaches h)
    (P := fun s => ∀ j k, s.jobs j = some k → k.phase ≠ .queued → s.jobDone k.dependency = true)
    nofun ?_
  intro t a u _ hC hP _ hstep
  cases hlive : u.destroyed with
  | false => exact (hC hlive).started
  | true =>
      obtain ⟨-, hjobs, -⟩ := destroyed_core hstep hlive
      intro j k hj hphase
      rw [VfsState.jobDone_congr hjobs]
      exact hP j k (hjobs ▸ hj) hphase

theorem jobDone_finished (hpos : 0 < j) (h : s.jobDone j = true) : s.jobFinished j = true := by
  unfold VfsState.jobDone at h
  rcases Bool.or_eq_true_iff.mp h with hzero | hfinished
  · rw [beq_iff_eq] at hzero
    exact absurd hzero (Nat.ne_of_gt hpos)
  · exact hfinished

/-- When the last of the linked operations has finished, all of them have. -/
theorem Linked.finished (hT : Table s) (hL : Linked s F f last) (hkept : JobsKept s s')
    (hstarted : ∀ j k, s'.jobs j = some k → k.phase ≠ .queued → s'.jobDone k.dependency = true)
    (hlast : s'.jobDone last = true) : Loose s F f j → s'.jobFinished j = true := by
  -- Induction on the distance of `j` from the newest job.
  suffices ∀ n j, s.nextJob - j = n → Loose s F f j → s'.jobFinished j = true from this _ j rfl
  intro n
  induction n using Nat.strong_induction_on with
  | _ n ih =>
      intro j hn hloose
      have hpos : 0 < j := by
        obtain ⟨k, m, hj, -⟩ := hloose
        exact (hT.jobBound j k hj).1
      rcases hL j hloose with rfl | ⟨j', k', hloose', hj', hdep, hlt⟩
      · exact jobDone_finished hpos hlast
      · have hbound := Nat.lt_trans hlt (hT.jobBound j' k' hj').2
        have hnext := ih (s.nextJob - j') (hn ▸ Nat.sub_lt_sub_left hbound hlt) j' rfl hloose'
        obtain ⟨k'', hk'', -, -, hdep', -⟩ := hkept j' k' hj'
        rw [VfsState.jobFinished_of hk''] at hnext
        have hphase : k''.phase ≠ .queued := by
          intro hqueued
          rw [hqueued] at hnext
          cases hnext
        have hdone := hstarted j' k'' hk'' hphase
        rw [hdep', hdep] at hdone
        exact jobDone_finished hpos hdone

/-- The unfinished job of a handle of the map without a window is the recorded one. -/
theorem Inv.recorded_job {G : List Instr} {h : FlVfsHandle} (hI : Inv s G)
    (hmap : s.mapGet h = some p) (hd : s.pool p = some d) (hpend : d.pendingDispatches = 0)
    (hj : s.jobs j = some k) (htarget : k.target = p) (hfin : k.phase.isFinished = false) :
    j = d.jobHandle := by
  obtain ⟨e, he, hrun⟩ := hI.running j k hj hfin
  rw [htarget, hd] at he
  cases he
  rcases hrun with hrun | ⟨x, hx, hcarry⟩
  · exact hrun.symm
  · rw [htarget] at hcarry
    rcases (Instr.carries_holder hcarry).2 with howns | hdisp
    · exact absurd howns (hI.mapped_not_owned hmap hx)
    · obtain ⟨id, hw⟩ := Instr.dispatches_window hdisp
      exact absurd hw (hI.pending_zero_no_window hd hpend hx)

/-- In every run that keeps to the rules, if no scheduling window is open on the handles of
the map when `vfs_wait_all` takes its snapshot on the main thread, all that could reach
them has finished when it returns. -/
theorem wait_all_waits (hs : Reaches step Waitable .init s)
    (hc : s.calls[c]? = some ⟨.main, .waitAllSnapshot :: rest⟩)
    (hclosed : ∀ e ∈ mapEntries s, e.2.2.pendingDispatches = 0)
    (hsnap : step s (.exec c sched) = some s₁) (hrun : Reaches step Waitable s₁ s')
    (hreturned : s'.calls[c]? = some ⟨.main, []⟩) :
    ∀ h p, s.mapGet h = some p → WaitedOut s s' p := by
  have hok : ∀ s a, Waitable s a → Disciplined s a := fun _ _ h => h.1
  have hlive : s.destroyed = false := by
    obtain ⟨t, i, rest', -, -, hc', -, houtlives, -⟩ := step_exec hsnap
    rw [hc] at hc'
    cases hc'
    by_contra hdead
    cases houtlives (by simpa using hdead)
  have hI := inv_reaches hok hs hlive
  have hC := closeInv_reaches hs hlive
  have hmeets : Waitable s (.exec c sched) := by
    constructor
    · intro i hi
      rw [headInstr, hc] at hi
      cases hi
      trivial
    · intro k hk i hi
      rw [hc] at hk
      cases hk
      cases hi
      trivial
  have hall : Reaches step Waitable s s' := (Reaches.step _ .start hmeets hsnap).trans hrun
  have hkept : JobsKept s s' := jobs_kept_reaches hok hs hall
  obtain ⟨s₀, s₂, new, hs₀, hx, -, -, -, hnow⟩ := call_moves hc hsnap
  cases hx
  have hwaited : ∀ j ∈ (mapEntries s).flatMap fun e => e.2.2.handleJobs,
      s'.jobFinished j = true := by
    have hbegin : Waiting ((mapEntries s).flatMap fun e => e.2.2.handleJobs) c rest s₁ := by
      rcases hs₀ with rfl | rfl
      · exact .begin hnow
      · exact .begin hnow
    exact (waiting_reaches hok (hs.trans (.step _ .start hmeets hsnap)) hrun hbegin).through
      hreturned
  intro h p hmap
  obtain ⟨d, hd, -⟩ := hI.mapped h p hmap
  have hpend : d.pendingDispatches = 0 := hclosed (h, p, d) (mem_mapEntries.mpr ⟨hmap, hd⟩)
  have hjobs : s'.jobDone d.jobHandle = true ∧ s'.jobDone d.lastJob = true := by
    refine handleJobs_finished.mp (List.all_eq_true.mpr fun j hj => hwaited j ?_)
    exact List.mem_flatMap.mpr ⟨(h, p, d), mem_mapEntries.mpr ⟨hmap, hd⟩, hj⟩
  refine ⟨fun j k hj hreach => ?_, fun i hi id hw => ?_⟩
  · by_cases hfin : k.phase.isFinished = true
    · refine hkept.finished ?_
      rw [VfsState.jobFinished_of hj, hfin]
    · have hunfinished : k.phase.isFinished = false := by simpa using hfin
      rcases hreach with htarget | ⟨n, hchained⟩
      · have hrecorded := hI.recorded_job hmap hd hpend hj htarget hunfinished
        rw [hrecorded]
        exact jobDone_finished (hrecorded ▸ (hI.jobBound j k hj).1) hjobs.1
      · have hframes : Inv s (s.threadFrames.map Prod.snd) := by
          rw [threadFrames_frames]
          exact hI
        have hloose := hC.loose hframes hd hpend hj hchained hunfinished
        exact (hC.linked p d hd).finished hI.toTable hkept (started_reaches (hs.trans hall))
          hjobs.2 hloose
  · exact absurd hw (hI.pending_zero_no_window hd hpend hi)

/-- A read is queued on a file when `vfs_wait_all` is called, and has finished when it returns. -/
theorem wait_all_waits_read : ∃ s s', s.jobFinished 3 = false ∧ s'.jobFinished 3 = true ∧
    WaitedOut s s' 1 := by
  let before := openFileScript ++ [.start .main (.read 2 10)] ++ callSteps 2 4 ++
    [.start .main .waitAll]
  let after := [.job 3 (.bytes 10)] ++ chainedRuns 3 10 ++ callSteps 3 7
  have hrun : ((replay step Waitable before .init).bind fun s =>
      (step s (.exec 3 .queue)).bind fun s₁ => (replay step Waitable after s₁).map fun s' =>
        decide (s.calls[3]? = some ⟨.main, [.waitAllSnapshot, .reclaim]⟩ ∧
          s'.calls[3]? = some ⟨.main, []⟩ ∧
          (∀ e ∈ mapEntries s, e.2.2.pendingDispatches = 0) ∧ s.mapGet 2 = some 1 ∧
          s.jobFinished 3 = false ∧ s'.jobFinished 3 = true)) = some true := by
    decide +kernel
  obtain ⟨s, hs, hrest⟩ := Option.bind_eq_some_iff.mp hrun
  obtain ⟨s₁, hsnap, hrest⟩ := Option.bind_eq_some_iff.mp hrest
  obtain ⟨s', hs', hfacts⟩ := Option.map_eq_some_iff.mp hrest
  simp only [decide_eq_true_eq] at hfacts
  obtain ⟨hc, hreturned, hclosed, hmap, hbefore, hafter⟩ := hfacts
  exact ⟨s, s', hbefore, hafter, wait_all_waits (replay_reaches before hs) hc hclosed hsnap
    (replay_reaches after hs') hreturned 2 1 hmap⟩

/-- A worker is dispatching a prepared read when `vfs_wait_all` takes its snapshot; the read
is still queued when it returns. -/
theorem wait_all_misses_dispatch : ∃ s s' s₁, Reaches step Waitable .init s ∧
    s.calls[3]? = some ⟨.main, [.waitAllSnapshot, .reclaim]⟩ ∧ s.mapGet 2 = some 1 ∧
    step s (.exec 3 .queue) = some s₁ ∧ Reaches step Waitable s₁ s' ∧
    s'.calls[3]? = some ⟨.main, []⟩ ∧ ¬ WaitedOut s s' 1 := by
  let before := [.start .main .mountOpen] ++ callSteps 0 3 ++ jobRuns 1 completed ++
    [.start .main (.prepare ⟨0, true, true, 0⟩)] ++ callSteps 1 2 ++
    [.start (.worker 0) (.dispatch 2)] ++ callSteps 2 2 ++ [.start .main .waitAll]
  let after := callSteps 3 4
  have hrun : ((replay step Waitable before .init).bind fun s =>
      (step s (.exec 3 .queue)).bind fun s₁ => (replay step Waitable after s₁).map fun s' =>
        decide (s.calls[3]? = some ⟨.main, [.waitAllSnapshot, .reclaim]⟩ ∧
          s'.calls[3]? = some ⟨.main, []⟩ ∧ s.mapGet 2 = some 1 ∧
          (s.jobs 2).map (fun k => k.target) = some 1 ∧ s'.jobFinished 2 = false)) =
      some true := by
    decide +kernel
  obtain ⟨s, hs, hrest⟩ := Option.bind_eq_some_iff.mp hrun
  obtain ⟨s₁, hsnap, hrest⟩ := Option.bind_eq_some_iff.mp hrest
  obtain ⟨s', hs', hfacts⟩ := Option.map_eq_some_iff.mp hrest
  simp only [decide_eq_true_eq] at hfacts
  obtain ⟨hc, hreturned, hmap, hjob, hunfinished⟩ := hfacts
  refine ⟨s, s', s₁, replay_reaches before hs, hc, hmap, hsnap, replay_reaches after hs',
    hreturned, fun hwaited => ?_⟩
  obtain ⟨k, hk, htarget⟩ := Option.map_eq_some_iff.mp hjob
  have hfinished := hwaited.jobs 2 k hk (.inl htarget)
  rw [hunfinished] at hfinished
  cases hfinished

end Runs

end FlowiVfs
