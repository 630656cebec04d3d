import FlowiVfs.BorrowedMemory
import FlowiVfs.KnownJobs
import FlowiVfs.WaitAll

/-!
# Every job finishes

A job of the worker pool stands still in two places: it is queued behind the job that it
depends on, and a read or write stops when the handle of its file is gone. The dependencies
lead back to earlier jobs, and the file of a read or write outlives it; so from any state that
the calls may come to, the jobs can run out without any further call.
-/
namespace FlowiVfs

open Transition

/-- An operation that a call is about to run on file id `h`. -/
def Instr.runsOn : Instr → Option (FlVfsHandle × HandlePtr)
  | .chainRun h _ _ p _ => some (h, p)
  | _ => none

/-- The job executes the read or write of a file handle that `vfs_chain_file_op` was given. -/
def Job.OnFile (k : Job) (s : VfsState) (h : FlVfsHandle) : Prop :=
  ∃ n f, k.chained = some (n, f) ∧ f < s.nextPtr ∧ ∀ d, s.pool f = some d → d.id = h

/-- The file that the job has found is the one that it is chained onto. -/
def Job.FoundFile (k : Job) : Prop :=
  match k.phase with
  | .fileFound file => ∃ n f, k.chained = some (n, f) ∧ file = some f
  | .inDriver f => ∃ n, k.chained = some (n, f)
  | _ => True

/-- Reads and writes are made for the file that they find. -/
structure Aimed (s : VfsState) (F : List Instr) : Prop where
  running : ∀ x ∈ F, ∀ h p, x.runsOn = some (h, p) → ∀ d, s.pool p = some d → d.fileHandle = h
  jobs : ∀ j k, s.jobs j = some k → k.phase.isFinished = false → ∀ d, s.pool k.target = some d →
    vfsOpBorrowsCallerMemory d.opType = true → k.OnFile s d.fileHandle
  found : ∀ j k, s.jobs j = some k → k.FoundFile

/-- What a step of a call at `i` does to what `Aimed` reads. -/
structure AimFrame (i : Instr) (new : List Instr) (s s' : VfsState) : Prop where
  ptr : s.nextPtr ≤ s'.nextPtr
  handles : ∀ p d', s'.pool p = some d' → s.nextPtr ≤ p ∨ ∃ d, s.pool p = some d ∧
    d'.id = d.id ∧ d'.opType = d.opType ∧ d'.fileHandle = d.fileHandle
  added : ∀ j k, s'.jobs j = some k → s.jobs j = some k ∨
    (k.FoundFile ∧ k.target < s.nextPtr ∧ ∀ d, s.pool k.target = some d →
      vfsOpBorrowsCallerMemory d.opType = true → k.OnFile s d.fileHandle)
  running : ∀ x ∈ new, ∀ h p, x.runsOn = some (h, p) → ∀ d, s'.pool p = some d → d.fileHandle = h

section Bodies

variable {s s' : VfsState} {F new : List Instr} {i x : Instr} {p : HandlePtr}
  {d : VfsHandleData} {h : FlVfsHandle} {c : ℕ} {t : Thread} {sched : Sched} {j : FlJobHandle}
  {k : Job} {g : VfsHandleData → VfsHandleData}

theorem Job.FoundFile.early (hphase : k.phase = .queued ∨ k.phase = .started) : k.FoundFile := by
  unfold Job.FoundFile
  rcases hphase with hphase | hphase
  · rw [hphase]
    trivial
  · rw [hphase]
    trivial

theorem Instr.runsOn_chainFile (hx : x.chainFile = none) : x.runsOn = none := by
  cases x <;> first | rfl | cases hx

theorem Instr.unset_works (hi : i.chains = false) (hu : i.unset = some p) :
    i.worksOn = some p := by
  cases i <;> first | exact hu | exact Bool.noConfusion hi

/-- A write to a handle. -/
theorem AimFrame.write (hpool : s'.pool = (s.modify p g).pool) (hptr : s'.nextPtr = s.nextPtr)
    (hg : KeepsIdentity g) (hfile : ∀ d, (g d).fileHandle = d.fileHandle)
    (hadded : ∀ j k, s'.jobs j = some k → s.jobs j = some k ∨
      (k.FoundFile ∧ k.target < s.nextPtr ∧ ∀ d, s.pool k.target = some d →
        vfsOpBorrowsCallerMemory d.opType = true → k.OnFile s d.fileHandle))
    (hnew : ∀ x ∈ new, x.runsOn = none) : AimFrame i new s s' where
  ptr := Nat.le_of_eq hptr.symm
  handles q d' hd' := by
    rw [hpool] at hd'
    rcases modify_some hd' with ⟨rfl, d, hd, rfl⟩ | ⟨-, hd⟩
    · exact .inr ⟨d, hd, (hg d).1, (hg d).2.2, hfile d⟩
    · exact .inr ⟨d', hd, rfl, rfl, rfl⟩
  added := hadded
  running x hx h p hr := by
    rw [hnew x hx] at hr
    cases hr

/-- A body outside `vfs_chain_file_op` makes no job for a read or write. -/
theorem AimFrame.quiet (hF : FileFrame i s s') (hW : WorkFrame i new s s')
    (hptr : ∀ p, i.unset = some p → p < s.nextPtr)
    (hother : ∀ p, i.unset = some p → ∀ d, s.pool p = some d →
      vfsOpBorrowsCallerMemory d.opType = false)
    (hnew : ∀ x ∈ new, x.chainFile = none) : AimFrame i new s s' where
  ptr := hF.ptr
  handles p d' hd' := by
    cases hF.handles p d' hd' with
    | born fresh => exact .inl fresh
    | same d was identity => exact .inr ⟨d, was, identity⟩
    | set d was identity => exact .inr ⟨d, was, identity⟩
  added j k hj := by
    rcases hW.added j k hj with hold | ⟨hunset, hphase⟩
    · exact .inl hold
    · refine .inr ⟨.early hphase, hptr _ hunset, fun d hd hb => ?_⟩
      rw [hother _ hunset d hd] at hb
      cases hb
  running x hx h p hr := by
    rw [x.runsOn_chainFile (hnew x hx)] at hr
    cases hr

/-- A job of the operation that `i` runs on a file is for that file. -/
theorem Instr.aimed_job {y : Instr} {ticket : ℕ} {file : HandlePtr} {phase : JobPhase}
    {after : FlJobHandle} (hI : Inv s (y :: F)) (howns : y.owns = some p)
    (hwin : y.window = some (h, file)) (hfile : ∀ d, s.pool p = some d → d.fileHandle = h)
    (hphase : phase = .queued ∨ phase = .started) :
    ∀ j k, (s.addJob ⟨p, after, some (ticket, file), phase⟩).jobs j = some k →
      s.jobs j = some k ∨ (k.FoundFile ∧ k.target < s.nextPtr ∧ ∀ d, s.pool k.target = some d →
        vfsOpBorrowsCallerMemory d.opType = true → k.OnFile s d.fileHandle) := by
  intro j k hj
  obtain ⟨op, hop, -⟩ := hI.owner_private List.mem_cons_self howns
  obtain ⟨fd, hfd, hid, -⟩ := hI.window_live List.mem_cons_self hwin
  rcases VfsState.addJob_some hj with ⟨-, rfl⟩ | hj
  · refine .inr ⟨.early hphase, hI.poolBound p op hop, fun d hd _ => ?_⟩
    -- The job is for the file whose window is open, which goes by the id that is read.
    refine ⟨ticket, file, rfl, hI.poolBound file fd hfd, fun e he => ?_⟩
    rw [hfd] at he
    cases he
    rw [hfile d hd]
    exact hid
  · exact .inl hj

theorem ChainExec.aims (hx : ChainExec s t i s' new) (hI : Inv s (i :: F))
    (hruns : ∀ h p, i.runsOn = some (h, p) → ∀ d, s.pool p = some d → d.fileHandle = h) :
    AimFrame i new s s' := by
  cases hx with
  | refused =>
      exact .write (p := 0) (g := id) (by rw [modify_id]) rfl (fun _ => ⟨rfl, rfl, rfl⟩)
        (fun _ => rfl) (fun j k hj => .inl hj) (List.forall_mem_nil _)
  | copiedOnly =>
      exact .write (p := 0) (g := id) (by rw [modify_id]; rfl) rfl (fun _ => ⟨rfl, rfl, rfl⟩)
        (fun _ => rfl) (fun j k hj => .inl hj) (List.forall_mem_nil _)
  | copied something =>
      exact .write (p := 0) (g := id) (by rw [modify_id]; rfl) rfl (fun _ => ⟨rfl, rfl, rfl⟩)
        (fun _ => rfl) (fun j k hj => .inl hj) (List.forall_mem_singleton.mpr rfl)
  | entered hmap hd hopen hop =>
      exact .write rfl rfl (fun _ => ⟨rfl, rfl, rfl⟩) (fun _ => rfl)
        (fun j k hj => .inl hj) (List.forall_mem_singleton.mpr rfl)
  | allocated known halloc =>
      obtain ⟨-, -, hpool, hptr, -, hjobs, -⟩ := allocateHandle_some halloc
      refine ⟨?_, fun q d' hd' => ?_, fun j k hj => .inl (hjobs ▸ hj), ?_⟩
      · rw [VfsState.modify_nextPtr, hptr]
        exact Nat.le_succ _
      · rcases modify_some hd' with ⟨rfl, -⟩ | ⟨hne, hd⟩
        · exact .inl le_rfl
        · rw [hpool, Function.update_of_ne hne] at hd
          exact .inr ⟨d', hd, rfl, rfl, rfl⟩
      · refine List.forall_mem_singleton.mpr fun h' p hr d hd => ?_
        cases hr
        rcases modify_some hd with ⟨-, e, -, rfl⟩ | ⟨hne, -⟩
        · rfl
        · exact absurd rfl hne
  | unwound =>
      obtain ⟨d, -, -, -, hunwind⟩ := chainUnwind_live hI
      rw [hunwind]
      exact .write rfl rfl (fun _ => ⟨rfl, rfl, rfl⟩) (fun _ => rfl)
        (fun j k hj => .inl hj) (List.forall_mem_nil _)
  | blocked worker pending =>
      exact .write rfl rfl (fun _ => ⟨rfl, rfl, rfl⟩) (fun _ => rfl)
        (fun j k hj => .inl hj) (List.forall_mem_singleton.mpr rfl)
  | @inlined h file ticket p after worker done =>
      exact .write (p := 0) (g := id) (by rw [modify_id]; rfl) rfl
        (fun _ => ⟨rfl, rfl, rfl⟩) (fun _ => rfl)
        (Instr.aimed_job hI rfl rfl (hruns h p rfl) (.inr rfl)) (List.forall_mem_singleton.mpr rfl)
  | @queued h file ticket p after main =>
      exact .write rfl rfl (fun _ => ⟨rfl, rfl, rfl⟩) (fun _ => rfl)
        (Instr.aimed_job hI rfl rfl (hruns h p rfl) (.inl rfl)) (List.forall_mem_singleton.mpr rfl)
  | ran finished =>
      exact .write rfl rfl (fun _ => ⟨rfl, rfl, rfl⟩) (fun _ => rfl)
        (fun j k hj => .inl hj) (List.forall_mem_singleton.mpr rfl)
  | @published h file p refused =>
      obtain ⟨d, op, -, -, -, -, -, hpublish⟩ := chainPublish_live hI
      obtain ⟨hpool, hjobs, hptr, -⟩ :=
        vfsPublishHandle_core (s.modify file (recordOn refused op.jobHandle)) p
      rw [hpublish]
      exact .write hpool hptr (fun _ => ⟨rfl, rfl, rfl⟩) (fun _ => rfl)
        (fun j k hj => .inl (hjobs ▸ hj)) (List.forall_mem_nil _)

/-- Every body, up to the end of `vfs_destroy`. -/
theorem body_aims (hI : Inv s (i :: F)) (hD : i.Disciplined s F)
    (hruns : ∀ h p, i.runsOn = some (h, p) → ∀ d, s.pool p = some d → d.fileHandle = h)
    (hother : i.Aloof s) (hx : execBody s c t sched i = some (s', new))
    (hlive : s'.destroyed = false) : AimFrame i new s s' := by
  cases hi : i.chains with
  | false =>
      have hbound : ∀ p, i.unset = some p → p < s.nextPtr := by
        intro p hu
        obtain ⟨d, hd⟩ := worksOn_live hI List.mem_cons_self (i.unset_works hi hu)
        exact hI.poolBound p d hd
      exact .quiet (body_frame hI hD hi hx hlive) (body_work hI hD hx hlive) hbound
        (fun p hu => hother p (i.unset_works hi hu)) (body_chainFile hi hx)
  | true =>
      cases execBody_some hx with
      | chain h => exact h.aims hI hruns
      | launch h | mount h | dispatch h | close h | teardown h => cases h <;> cases hi

end Bodies

section Invariant

variable {s s' : VfsState} {F G new : List Instr} {i : Instr} {d : VfsHandleData} {c : ℕ}
  {t : Thread} {sched : Sched} {j : FlJobHandle} {k k' : Job} {h : FlVfsHandle}
  {phase : JobPhase} {g : VfsHandleData → VfsHandleData} {es : List Event} {input : JobInput}
  {a : Action} {C : List (Thread × Instr)}

theorem Job.OnFile.later (hk : k.OnFile s h) (hchained : k'.chained = k.chained)
    (hptr : s.nextPtr ≤ s'.nextPtr)
    (hpool : ∀ p d', s'.pool p = some d' → s.nextPtr ≤ p ∨ ∃ d, s.pool p = some d ∧ d'.id = d.id) :
    k'.OnFile s' h := by
  obtain ⟨n, f, hc, hbound, hid⟩ := hk
  refine ⟨n, f, hchained.trans hc, Nat.lt_of_lt_of_le hbound hptr, fun d' hd' => ?_⟩
  rcases hpool f d' hd' with hfresh | ⟨d, hd, hsame⟩
  · exact absurd hbound (Nat.not_lt.mpr hfresh)
  · exact hsame.trans (hid d hd)

theorem Aimed.perm (hA : Aimed s F) (hp : F.Perm G) : Aimed s G where
  running x hx := hA.running x (hp.mem_iff.mpr hx)
  jobs := hA.jobs
  found := hA.found

theorem Aimed.of_same (s' : VfsState) (hA : Aimed s F) (hpool : s'.pool = s.pool)
    (hjobs : s'.jobs = s.jobs) (hptr : s'.nextPtr = s.nextPtr) : Aimed s' F := by
  refine ⟨?_, ?_, ?_⟩
  · rw [hpool]
    exact hA.running
  · unfold Job.OnFile
    rw [hpool, hjobs, hptr]
    exact hA.jobs
  · rw [hjobs]
    exact hA.found

theorem Aimed.body (hA : Aimed s (i :: F)) (hI : Inv s (i :: F)) (hD : i.Disciplined s F)
    (hother : ∀ p, i.worksOn = some p → ∀ d, s.pool p = some d →
      vfsOpBorrowsCallerMemory d.opType = false)
    (hx : execBody s c t sched i = some (s', new)) (hlive : s'.destroyed = false) :
    Aimed s' (new ++ F) := by
  have hF := body_aims hI hD (hA.running i List.mem_cons_self) hother hx hlive
  have hback : ∀ p d', s'.pool p = some d' →
      s.nextPtr ≤ p ∨ ∃ d, s.pool p = some d ∧ d'.id = d.id := by
    intro p d' hd'
    exact (hF.handles p d' hd').imp_right fun ⟨d, hd, hid, _⟩ => ⟨d, hd, hid⟩
  refine ⟨fun x hx h p hr d' hd' => ?_, fun j k hj hfin d' hd' hb => ?_, fun j k hj => ?_⟩
  · rcases List.mem_append.mp hx with hx | hx
    · exact hF.running x hx h p hr d' hd'
    · have hx : x ∈ i :: F := List.mem_cons_of_mem i hx
      have howns : x.owns = some p := by
        cases x with
        | chainRun h' file ticket q after =>
            cases hr
            rfl
        | _ => cases hr
      obtain ⟨e, he, -⟩ := hI.owner_private hx howns
      rcases hF.handles p d' hd' with hfresh | ⟨d, hd, -, -, hfile⟩
      · exact absurd (hI.poolBound p e he) (Nat.not_lt.mpr hfresh)
      · exact hfile.trans (hA.running x hx h p hr d hd)
  · have hold : k.target < s.nextPtr ∧ ∀ d, s.pool k.target = some d →
        vfsOpBorrowsCallerMemory d.opType = true → k.OnFile s d.fileHandle := by
      rcases hF.added j k hj with hj | ⟨-, hnew⟩
      · exact ⟨hI.targetBound j k hj, hA.jobs j k hj hfin⟩
      · exact hnew
    rcases hF.handles _ d' hd' with hfresh | ⟨d, hd, -, hop, hfile⟩
    · exact absurd hold.1 (Nat.not_lt.mpr hfresh)
    · rw [hfile]
      exact (hold.2 d hd (hop ▸ hb)).later rfl hF.ptr hback
  · rcases hF.added j k hj with hj | ⟨hfound, -⟩
    · exact hA.found j k hj
    · exact hfound

/-- Only the job of a read or write looks for a file. -/
theorem jobStep_finds (hstep : jobStep s j input = some s') (hk : s.jobs j = some k)
    (hd : s.pool k.target = some d) (hstarted : k.phase = .started)
    (hfile : ∃ k' file, s'.jobs j = some k' ∧ k'.phase = .fileFound file) :
    vfsOpBorrowsCallerMemory d.opType = true := by
  obtain ⟨k', file, hk', hphase⟩ := hfile
  have hmoved : ∀ (u : VfsState) (p : JobPhase), u.jobs = s.jobs → s' = u.setPhase j p →
      k'.phase = p := by
    intro u p hjobs he
    rw [he, VfsState.setPhase_jobs, if_pos rfl, hjobs, hk] at hk'
    cases hk'
    rfl
  unfold jobStep at hstep
  simp only [hk, hd, hstarted] at hstep
  have hcall : (s.runCallback k.target d).jobs = s.jobs := by
    unfold VfsState.runCallback
    split_ifs
    · rfl
    · rfl
  split_ifs at hstep with hcancel hborrows
  · cases hstep
    rw [hmoved (VfsState.modify _ k.target _) .stored hcall rfl] at hphase
    cases hphase
  · exact hborrows
  · split at hstep
    · rename_i r
      cases hstep
      rw [hmoved _ (.bodyDone r) hcall rfl] at hphase
      cases hphase
    · cases hstep

theorem JobMove.keepsFile (hm : JobMove s j k d phase g es) :
    ∀ d, (g d).fileHandle = d.fileHandle := by
  cases hm <;> exact fun _ => rfl

/-- The file that a read or write is made for is in the map while its job is unfinished. -/
theorem CloseInv.finds (hC : CloseInv s C) (hj : s.jobs j = some k)
    (hfin : k.phase.isFinished = false) (hfile : k.OnFile s h) :
    ∃ n f, k.chained = some (n, f) ∧ (s.lookupHandle h).map (fun r => r.1) = some f := by
  obtain ⟨n, f, hc, -, hid⟩ := hfile
  obtain ⟨fd, hfd⟩ := hC.live j k n f hj hc hfin
  have hmap := ((hC.toChainBase.file j f ⟨k, n, hj, hc⟩).2 fd hfd).1
  rw [hid fd hfd] at hmap
  exact ⟨n, f, hc, by rw [(VfsState.lookupHandle_some f).mpr ⟨hmap, hfd⟩]; rfl⟩

theorem Aimed.jobMove (hA : Aimed s F) (hC : CloseInv s C) (hk : s.jobs j = some k)
    (hd : s.pool k.target = some d) (hm : JobMove s j k d phase g es)
    (hfind : ∀ file, phase = .fileFound file → vfsOpBorrowsCallerMemory d.opType = true) :
    Aimed (afterMove s j k.target phase g es) F := by
  have hpool : ∀ p d', (afterMove s j k.target phase g es).pool p = some d' →
      ∃ d, s.pool p = some d ∧ d'.id = d.id ∧ d'.opType = d.opType ∧
        d'.fileHandle = d.fileHandle := by
    intro p d' hd'
    rcases modify_some hd' with ⟨rfl, e, he, rfl⟩ | ⟨-, he⟩
    · exact ⟨e, he, (hm.keeps.1 e).1, (hm.keeps.1 e).2.2, hm.keepsFile e⟩
    · exact ⟨d', he, rfl, rfl, rfl⟩
  refine ⟨fun x hx h p hr d' hd' => ?_, fun y k' hy hfin d' hd' hb => ?_, fun y k' hy => ?_⟩
  · obtain ⟨e, he, -, -, hfile⟩ := hpool p d' hd'
    exact hfile.trans (hA.running x hx h p hr e he)
  · obtain ⟨k₀, hk₀, htarget, hchained, -, hother, hmoved⟩ := afterMove_back hk hy
    have hfin₀ : k₀.phase.isFinished = false := by
      by_cases hyj : y = j
      · rw [(hmoved hyj).1]
        exact hm.unfinished
      · rw [← hother hyj]
        exact hfin
    obtain ⟨e, he, -, hop, hfile⟩ := hpool _ d' hd'
    rw [htarget] at he
    rw [hfile]
    refine (hA.jobs y k₀ hk₀ hfin₀ e he (hop ▸ hb)).later hchained le_rfl fun p e' he' => ?_
    obtain ⟨e₀, he₀, hid, -⟩ := hpool p e' he'
    exact .inr ⟨e₀, he₀, hid⟩
  · obtain ⟨k₀, hk₀, -, hchained, -, hother, hmoved⟩ := afterMove_back hk hy
    by_cases hyj : y = j
    · obtain ⟨rfl, hphase⟩ := hmoved hyj
      have hfound := hA.found j k₀ hk
      unfold Job.FoundFile at hfound ⊢
      rw [hphase, hchained]
      cases hm with
      | find at_ =>
          exact hC.finds hk (by rw [at_]; rfl)
            (hA.jobs j k₀ hk (by rw [at_]; rfl) d hd (hfind _ rfl))
      | enter file fd at_ live =>
          rw [at_] at hfound
          obtain ⟨n, f, hc, hsame⟩ := hfound
          cases hsame
          exact ⟨n, hc⟩
      | begin | cancel | run | fail | leave | store | finish => trivial
    · have hfound := hA.found y k₀ hk₀
      unfold Job.FoundFile at hfound ⊢
      rwa [hother hyj, hchained]

/-- One step keeps the invariant, until the VFS is destroyed. -/
theorem Aimed.step (hA : Aimed s s.frames) (hI : Inv s s.frames) (hC : CloseInv s C)
    (hL : LendInv s s.frames) (hD : Disciplined s a) (hstep : FlowiVfs.step s a = some s')
    (hlive : s'.destroyed = false) : Aimed s' s'.frames := by
  by_cases hjob : ∃ j input, a = .job j input
  · obtain ⟨j, input, rfl⟩ := hjob
    simp only [FlowiVfs.step] at hstep
    split_ifs at hstep
    obtain ⟨k, d, phase, g, es, hk, hd, hm, rfl⟩ := jobStep_cases hstep
    refine hA.jobMove (F := s.frames) hC hk hd hm fun file hphase => ?_
    have hstarted : k.phase = .started := by
      subst hphase
      cases hm with
      | find at_ => exact at_
    refine jobStep_finds hstep hk hd hstarted ⟨{ k with phase := phase }, file, ?_, hphase⟩
    rw [show (afterMove s j k.target phase g es).jobs j =
      ((s.modify k.target g).setPhase j phase).jobs j from rfl, VfsState.setPhase_jobs, if_pos rfl,
      VfsState.modify_jobs, hk]
    rfl
  · refine step_rule (P := Aimed) hI hD hstep hlive hA (fun _ _ _ hA hp => hA.perm hp)
      ?_ ?_ ?_ ?_ ?_
    · exact fun s F cs hA => hA.of_same _ rfl rfl rfl
    · exact fun s F c e _ hA => hA.of_same _ rfl rfl rfl
    · intro t request _
      refine ⟨fun x hx h p hr => ?_, hA.jobs, hA.found⟩
      rcases List.mem_append.mp hx with hx | hx
      · have hnone : x.runsOn = none := by
          refine x.runsOn_chainFile ?_
          by_contra hne
          obtain ⟨f, hf⟩ := Option.ne_none_iff_exists'.mp hne
          obtain ⟨id, hw⟩ := chainFile_window hf
          rw [(program_quiet request x hx).2.1] at hw
          cases hw
        rw [hnone] at hr
        cases hr
      · exact hA.running x hx h p hr
    · exact fun j input k d phase g es ha _ _ _ => absurd ⟨j, input, ha⟩ hjob
    · intro c sched t i rest F s₀ s₂ new _ _ hF hs₀ hA hI hD hx hlive
      refine hA.body hI hD (fun p hp => ?_) hx hlive
      have hpool : s₀.pool = s.pool := by
        rcases hs₀ with rfl | rfl
        · rfl
        · rfl
      rw [hpool]
      exact (hL.perm hF).worksOn i List.mem_cons_self p hp

theorem aimed_init : Aimed .init VfsState.init.frames := by
  refine ⟨?_, ?_, ?_⟩
  all_goals simp [VfsState.init, VfsState.frames]

theorem aimed_reaches (h : Reaches FlowiVfs.step Waitable .init s) :
    s.destroyed = false → Aimed s s.frames := by
  refine h.invariant_of (I := fun s => s.destroyed = false →
      Inv s s.frames ∧ CloseInv s s.threadFrames ∧ LendInv s s.frames)
    (fun s h hlive => ⟨inv_reaches (fun _ _ hok => hok.1) h hlive, closeInv_reaches h hlive,
      (lend_reaches (h.mono fun _ _ hok => hok.1) hlive).1⟩)
    (P := fun s => s.destroyed = false → Aimed s s.frames) (fun _ => aimed_init) ?_
  intro t a u hI _ hA hok hstep hlive
  have hlive' := step_keeps_destroyed hstep hlive
  obtain ⟨hI, hC, hL⟩ := hI hlive'
  exact (hA hlive').step hI hC hL hok.1 hstep hlive

end Invariant

/-! ## Jobs run out -/

/-- Only jobs move. -/
def JobsOnly (_ : VfsState) (a : Action) : Prop := ∃ j input, a = .job j input

theorem JobsOnly.waitable {s : VfsState} {a : Action} (h : JobsOnly s a) : Waitable s a := by
  obtain ⟨j, input, rfl⟩ := h
  exact ⟨trivial, trivial⟩

/-- How many steps a job in this phase may still take. -/
def JobPhase.stepsLeft : JobPhase → ℕ
  | .queued => 6
  | .started => 5
  | .fileFound _ => 4
  | .inDriver _ => 3
  | .bodyDone _ => 2
  | .stored => 1
  | .finished => 0

/-- What the jobs leave as it is. -/
structure JobsRan (s s' : VfsState) : Prop where
  calls : s'.calls = s.calls
  destroyed : s'.destroyed = s.destroyed
  mounts : s'.mounts = s.mounts
  mountList : s'.mountList = s.mountList
  names : s'.handleMap = s.handleMap
  known : ∀ j, s'.HasJob j ↔ s.HasJob j
  handles : ∀ p d, s.pool p = some d → ∃ d', s'.pool p = some d' ∧ d'.mount = d.mount ∧
    d'.closed = d.closed ∧ d'.pendingDispatches = d.pendingDispatches
  live : ∀ p d', s'.pool p = some d' → ∃ d, s.pool p = some d
  undispatched : ∀ p, Undispatched s'.trace p ↔ Undispatched s.trace p

section Runs

variable {s s' s'' : VfsState} {j : FlJobHandle} {k : Job} {d : VfsHandleData}
  {phase : JobPhase} {g : VfsHandleData → VfsHandleData} {es : List Event} {n : ℕ}

theorem JobMove.advances (hm : JobMove s j k d phase g es) :
    phase.stepsLeft < k.phase.stepsLeft := by
  cases hm with
  | begin at_ => simp [at_, JobPhase.stepsLeft]
  | cancel at_ => simp [at_, JobPhase.stepsLeft]
  | find at_ => simp [at_, JobPhase.stepsLeft]
  | run r at_ => simp [at_, JobPhase.stepsLeft]
  | fail r file at_ => simp [at_, JobPhase.stepsLeft]
  | enter file fd at_ => simp [at_, JobPhase.stepsLeft]
  | leave r file fd at_ => simp [at_, JobPhase.stepsLeft]
  | store r at_ => simp [at_, JobPhase.stepsLeft]
  | finish at_ => simp [at_, JobPhase.stepsLeft]

theorem JobsRan.refl (s : VfsState) : JobsRan s s where
  calls := rfl
  destroyed := rfl
  mounts := rfl
  mountList := rfl
  names := rfl
  known _ := Iff.rfl
  handles _ d hd := ⟨d, hd, rfl, rfl, rfl⟩
  live _ d hd := ⟨d, hd⟩
  undispatched _ := Iff.rfl

theorem JobsRan.trans (h₁ : JobsRan s s') (h₂ : JobsRan s' s'') : JobsRan s s'' where
  calls := h₂.calls.trans h₁.calls
  destroyed := h₂.destroyed.trans h₁.destroyed
  mounts := h₂.mounts.trans h₁.mounts
  mountList := h₂.mountList.trans h₁.mountList
  names := h₂.names.trans h₁.names
  known j := (h₂.known j).trans (h₁.known j)
  handles p d hd := by
    obtain ⟨d', hd', hmount, hclosed, hpend⟩ := h₁.handles p d hd
    obtain ⟨d'', hd'', hmount', hclosed', hpend'⟩ := h₂.handles p d' hd'
    exact ⟨d'', hd'', hmount'.trans hmount, hclosed'.trans hclosed, hpend'.trans hpend⟩
  live p d hd := by
    obtain ⟨d', hd'⟩ := h₂.live p d hd
    exact h₁.live p d' hd'
  undispatched p := (h₂.undispatched p).trans (h₁.undispatched p)

theorem JobsRan.move (hk : s.jobs j = some k) (hm : JobMove s j k d phase g es) :
    JobsRan s (afterMove s j k.target phase g es) where
  calls := rfl
  destroyed := rfl
  mounts := rfl
  mountList := rfl
  names := rfl
  known x := by
    constructor
    · rintro ⟨k', hk'⟩
      obtain ⟨k₀, hk₀, -⟩ := afterMove_back hk hk'
      exact ⟨k₀, hk₀⟩
    · rintro ⟨k₀, hk₀⟩
      obtain ⟨k', hk', -⟩ : ∃ k', (afterMove s j k.target phase g es).jobs x = some k' ∧ _ :=
        afterMove_forth hk₀
      exact ⟨k', hk'⟩
  handles p d hd := by
    have hpool : (afterMove s j k.target phase g es).pool p =
        if p = k.target then (s.pool k.target).map g else s.pool p := VfsState.modify_pool ..
    rw [hpool]
    split_ifs with hp
    · subst hp
      rw [hd]
      exact ⟨g d, rfl, (hm.keeps.1 d).2.1, (hm.recorded d).1, (hm.keeps.2 d).1⟩
    · exact ⟨d, hd, rfl, rfl, rfl⟩
  live p d' hd' := by
    obtain ⟨d, hd, -⟩ := modify_origin (p := k.target) hm.keeps.1 hd'
    exact ⟨d, hd⟩
  undispatched _ := hm.undispatched

theorem jobs_ran (h : Reaches step JobsOnly s s') : JobsRan s s' := by
  refine h.invariant (P := fun u => JobsRan s u) (.refl s) ?_
  rintro t a u hran ⟨j, input, rfl⟩ hstep
  simp only [step] at hstep
  split_ifs at hstep
  obtain ⟨k, d, phase, g, es, hk, -, hm, rfl⟩ := jobStep_cases hstep
  exact hran.trans (.move hk hm)

theorem fileOpChecks_final {op : VfsHandleData} {file : Option (HandlePtr × VfsHandleData)}
    {status : VfsOpStatus} (h : fileOpChecks op file = .error status) :
    status ≠ VFS_STATE_PENDING := by
  unfold fileOpChecks at h
  split at h
  · cases h
    decide
  · split_ifs at h
    all_goals try
      cases h
      decide
    all_goals
      split at h
      · cases h
        decide
      · split_ifs at h
        cases h
        decide

/-- An unfinished job that has nothing to wait for can move. -/
theorem job_moves (hI : Inv s s.frames) (hC : CloseInv s s.threadFrames) (hA : Aimed s s.frames)
    (hlive : s.destroyed = false) (hk : s.jobs j = some k) (hfin : k.phase.isFinished = false)
    (hdep : s.jobDone k.dependency = true) : ∃ input s', step s (.job j input) = some s' := by
  obtain ⟨d, hd, -⟩ := hI.running j k hk hfin
  have file : ∀ n f, k.chained = some (n, f) → ∃ fd, s.pool f = some fd := fun n f hc =>
    hC.live j k n f hk hc hfin
  have hfound := hA.found j k hk
  unfold Job.FoundFile at hfound
  simp only [step, hlive, Bool.false_eq_true, if_false]
  unfold jobStep
  simp only [hk, hd]
  cases hphase : k.phase with
  | queued => exact ⟨.bytes 0, _, if_pos hdep⟩
  | started =>
      refine ⟨.completed (opFail VFS_ERROR_CANCELED (by decide)), ?_⟩
      split_ifs
      · exact ⟨_, rfl⟩
      · exact ⟨_, rfl⟩
      · exact ⟨_, rfl⟩
  | fileFound found =>
      rw [hphase] at hfound
      obtain ⟨n, f, hc, rfl⟩ := hfound
      obtain ⟨fd, hfd⟩ := file n f hc
      refine ⟨.bytes 0, ?_⟩
      simp only [hfd]
      split
      · rename_i status herror
        exact ⟨_, dif_neg (fileOpChecks_final herror)⟩
      · exact ⟨_, rfl⟩
  | inDriver f =>
      rw [hphase] at hfound
      obtain ⟨n, hc⟩ := hfound
      obtain ⟨fd, hfd⟩ := file n f hc
      refine ⟨.bytes 0, ?_⟩
      simp only [hfd]
      exact ⟨_, rfl⟩
  | bodyDone r => exact ⟨.bytes 0, _, rfl⟩
  | stored => exact ⟨.bytes 0, _, rfl⟩
  | finished =>
      rw [hphase] at hfin
      cases hfin

theorem waitable_jobs (hs : Reaches step Waitable .init s) (hrun : Reaches step JobsOnly s s') :
    Reaches step Waitable .init s' :=
  hs.trans (hrun.mono fun _ _ h => h.waitable)

theorem jobsOnly_kept (hs : Reaches step Waitable .init s) (hrun : Reaches step JobsOnly s s') :
    JobsKept s s' :=
  jobs_kept_reaches (fun _ _ (h : Waitable _ _) => h.1) hs (hrun.mono fun _ _ h => h.waitable)

/-- A job that has nothing to wait for runs to its end. -/
theorem job_ends (hs : Reaches step Waitable .init s) (hlive : s.destroyed = false)
    (hk : s.jobs j = some k) (hdep : s.jobDone k.dependency = true) :
    ∃ s', Reaches step JobsOnly s s' ∧ s'.jobFinished j = true := by
  induction hleft : k.phase.stepsLeft using Nat.strong_induction_on generalizing s k with
  | _ left ih =>
      by_cases hfin : k.phase.isFinished = true
      · exact ⟨s, .start, by rw [VfsState.jobFinished_of hk, hfin]⟩
      · have hunfinished : k.phase.isFinished = false := by simpa using hfin
        obtain ⟨input, s₁, hstep⟩ := job_moves (inv_reaches (fun _ _ hok => hok.1) hs hlive)
          (closeInv_reaches hs hlive) (aimed_reaches hs hlive) hlive hk hunfinished hdep
        have hrun : Reaches step JobsOnly s s₁ := .step _ .start ⟨j, input, rfl⟩ hstep
        have hran := jobs_ran hrun
        simp only [step, hlive, Bool.false_eq_true, if_false] at hstep
        obtain ⟨k₀, d, phase, g, es, hk₀, -, hm, rfl⟩ := jobStep_cases hstep
        rw [hk] at hk₀
        cases hk₀
        obtain ⟨k₁, hk₁⟩ := (hran.known j).mpr ⟨k, hk⟩
        obtain ⟨k₂, -, -, -, hsame, -, hmoved⟩ := afterMove_back hk hk₁
        obtain ⟨rfl, hphase⟩ := hmoved rfl
        have hdone : (afterMove s j k₂.target phase g es).jobDone k₁.dependency = true := by
          rw [hsame]
          unfold VfsState.jobDone at hdep ⊢
          rcases Bool.or_eq_true_iff.mp hdep with hzero | hfinished
          · simp [hzero]
          · simp [(jobsOnly_kept hs hrun).finished hfinished]
        obtain ⟨s', hrest, hend⟩ := ih k₁.phase.stepsLeft
          (by rw [← hleft, hphase]; exact hm.advances) (waitable_jobs hs hrun)
          (hran.destroyed.trans hlive) hk₁ hdone rfl
        exact ⟨s', hrun.trans hrest, hend⟩

/-- All jobs up to `n` run out, in their order: each waits only for earlier ones. -/
theorem jobs_end (hs : Reaches step Waitable .init s) (hlive : s.destroyed = false) (n : ℕ) :
    ∃ s', Reaches step JobsOnly s s' ∧ ∀ j < n, s'.HasJob j → s'.jobFinished j = true := by
  induction n with
  | zero => exact ⟨s, .start, fun j hj => absurd hj (Nat.not_lt_zero j)⟩
  | succ n ih =>
      obtain ⟨s₁, hrun, hends⟩ := ih
      have hs₁ := waitable_jobs hs hrun
      have hlive₁ := (jobs_ran hrun).destroyed.trans hlive
      by_cases hjob : s₁.HasJob n
      · obtain ⟨k, hk⟩ := hjob
        have hdep : s₁.jobDone k.dependency = true := by
          unfold VfsState.jobDone
          have hJ := jobTable_reaches (fun _ _ (h : Waitable _ _) => h.1) hs₁ hlive₁
          rcases hJ.earlier n k hk with hzero | ⟨hlt, hknown⟩
          · simp [hzero]
          · simp [hends _ hlt hknown]
        obtain ⟨s', hrest, hend⟩ := job_ends hs₁ hlive₁ hk hdep
        refine ⟨s', hrun.trans hrest, fun j hj hknown => ?_⟩
        rcases Nat.lt_succ_iff_lt_or_eq.mp hj with hlt | rfl
        · exact (jobsOnly_kept hs₁ hrest).finished
            (hends j hlt (((jobs_ran hrest).known j).mp hknown))
        · exact hend
      · refine ⟨s₁, hrun, fun j hj hknown => ?_⟩
        rcases Nat.lt_succ_iff_lt_or_eq.mp hj with hlt | rfl
        · exact hends j hlt hknown
        · exact absurd hknown hjob

theorem jobs_run_out (hs : Reaches step Waitable .init s) (hlive : s.destroyed = false) :
    ∃ s', Reaches step JobsOnly s s' ∧ ∀ j, s.HasJob j → s'.jobFinished j = true := by
  obtain ⟨s', hrun, hends⟩ := jobs_end hs hlive s.nextJob
  refine ⟨s', hrun, fun j hj => hends j ?_ (((jobs_ran hrun).known j).mpr hj)⟩
  obtain ⟨k, hk⟩ := hj
  exact ((inv_reaches (fun _ _ hok => hok.1) hs hlive).jobBound j k hk).2

/-- In every state of a run that keeps to the rules the jobs can run out, whatever the calls
are waiting for and without any further call. Then callers find ready just the handles on
which no call has a scheduling window open, and all that was dispatched has its answer. -/
theorem operations_end (hs : Reaches step Waitable .init s) (hlive : s.destroyed = false) :
    ∃ s', Reaches step JobsOnly s s' ∧ (∀ j, s.HasJob j → s'.jobFinished j = true) ∧
      ∀ h p d, s.lookupOpenHandle h = some (p, d) →
        (vfsIsReady s' h = true ↔ NoWindow s p) ∧
        (NoWindow s p → ¬ Undispatched s.trace p → vfsGetStatus s' h ≠ VFS_STATE_PENDING) := by
  obtain ⟨s', hrun, hends⟩ := jobs_run_out hs hlive
  have hran := jobs_ran hrun
  have hs' := waitable_jobs hs hrun
  have hlive' := hran.destroyed.trans hlive
  have hI : Inv s s.frames := inv_reaches (fun _ _ hok => hok.1) hs hlive
  have hI' : Inv s' s'.frames := inv_reaches (fun _ _ hok => hok.1) hs' hlive'
  refine ⟨s', hrun, hends, fun h p d hl => ?_⟩
  obtain ⟨hmap, hd, hopen⟩ := (VfsState.lookupOpenHandle_some p).mp hl
  obtain ⟨d', hd', -, hclosed, hpend⟩ := hran.handles p d hd
  have hmap' : s'.mapGet h = some p := (VfsState.mapGet_congr hran.names).trans hmap
  have hl' : s'.lookupOpenHandle h = some (p, d') :=
    (VfsState.lookupOpenHandle_some p).mpr ⟨hmap', hd', hclosed.trans hopen⟩
  have hz : h ≠ FL_VFS_HANDLE_INVALID := by
    obtain ⟨e, he, hid⟩ := hI.mapped h p hmap
    exact hid ▸ hI.idNonzero p e he
  have hdone : s'.jobDone d'.jobHandle = true := by
    have hJ := jobTable_reaches (fun _ _ (h : Waitable _ _) => h.1) hs' hlive'
    unfold VfsState.jobDone
    rcases hJ.mentioned _ (.handle p d' hd') with hzero | hknown
    · simp [hzero]
    · simp [hends _ ((hran.known _).mp hknown)]
  have hready : vfsIsReady s' h = true ↔ NoWindow s p := by
    rw [ready_iff hl' hz, noWindow_iff hI hd, hpend]
    exact ⟨fun hboth => hboth.1, fun hzero => ⟨hzero, hdone⟩⟩
  refine ⟨hready, fun hnone hdis => ?_⟩
  rw [(answers_ready hl' (hready.mpr hnone)).1]
  have hzero : d'.pendingDispatches = 0 := hpend.trans ((noWindow_iff hI hd).mp hnone)
  exact ((readyInv_reaches (hs'.mono fun _ _ hok => hok.1) hlive').settled hI' hmap' hd' hzero
    hdone fun hu => hdis ((hran.undispatched p).mp hu)).2

/-- A read has been queued on a file; its job runs, and the read is ready with its answer. -/
theorem operations_end_read : ∃ s s', vfsIsReady s 3 = false ∧ Reaches step JobsOnly s s' ∧
    vfsIsReady s' 3 = true ∧ vfsGetStatus s' 3 ≠ VFS_STATE_PENDING := by
  let actions := openFileScript ++ [.start .main (.read 2 10)] ++ callSteps 2 4
  have hrun : ((replay step Waitable actions .init).map fun s =>
      decide (s.destroyed = false ∧ vfsIsReady s 3 = false ∧ s.frames.length = 0 ∧
        ¬ Undispatched s.trace 2 ∧ (s.lookupOpenHandle 3).map (fun r => r.1) = some 2)) =
      some true := by
    decide +kernel
  obtain ⟨s, hs, hfacts⟩ := Option.map_eq_some_iff.mp hrun
  simp only [decide_eq_true_eq] at hfacts
  obtain ⟨hlive, hbefore, hframes, hdispatched, hl⟩ := hfacts
  obtain ⟨⟨p, d⟩, hl, rfl⟩ := Option.map_eq_some_iff.mp hl
  have hnone : NoWindow s 2 := by
    unfold NoWindow
    rw [List.length_eq_zero_iff.mp hframes]
    exact List.forall_mem_nil _
  obtain ⟨s', hjobs, -, hends⟩ := operations_end (replay_reaches _ hs) hlive
  obtain ⟨hready, hstatus⟩ := hends 3 _ d hl
  exact ⟨s, s', hbefore, hjobs, hready.mpr hnone, hstatus hnone hdispatched⟩

end Runs
end FlowiVfs
