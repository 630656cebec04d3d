import FlowiVfs.FileFrame

/-!
# The jobs of `vfs_chain_file_op`

The facts about chained jobs that do not depend on how two chains interleave.
-/
namespace FlowiVfs

/-- Job `j` executes a read or write chained onto `f`. -/
def ChainedOn (s : VfsState) (j : FlJobHandle) (f : HandlePtr) : Prop :=
  ∃ k n, s.jobs j = some k ∧ k.chained = some (n, f)

/-! ## Chained jobs -/

structure ChainBase (s : VfsState) : Prop where
  /-- A job is chained onto an open file, as long as the file's handle lives. -/
  file : ∀ j f, ChainedOn s j f → f < s.nextPtr ∧
    ∀ d, s.pool f = some d → s.mapGet d.id = some f ∧ d.opType = .fileOpen
  /-- A job starts after its dependency. -/
  started : ∀ j k, s.jobs j = some k → k.phase ≠ .queued → s.jobDone k.dependency = true

section Base

variable {s s' : VfsState} {j : FlJobHandle} {k : Job} {f : HandlePtr} {d : VfsHandleData}
  {i : Instr}

/-- A finished job stays finished while the job table only grows. -/
theorem jobDone_kept (hkept : ∀ j k, s.jobs j = some k → s'.jobs j = some k) {x : FlJobHandle}
    (h : s.jobDone x = true) : s'.jobDone x = true := by
  simp only [VfsState.jobDone, Bool.or_eq_true, beq_iff_eq] at h ⊢
  refine h.imp_right fun hfin => ?_
  unfold VfsState.jobFinished at hfin
  split at hfin
  · rename_i k hk
    rw [VfsState.jobFinished_of (hkept x k hk), hfin]
  · cases hfin

theorem FileFrame.jobDone (hF : FileFrame i s s') {x : FlJobHandle} (h : s.jobDone x = true) :
    s'.jobDone x = true :=
  jobDone_kept hF.kept h

theorem FileFrame.chainedOn (hF : FileFrame i s s') : ChainedOn s' j f ↔ ChainedOn s j f := by
  constructor
  · rintro ⟨k, n, hk, hc⟩
    rcases hF.added j k hk with hk | ⟨-, hnone, -, -⟩
    · exact ⟨k, n, hk, hc⟩
    · simp [hnone] at hc
  · rintro ⟨k, n, hk, hc⟩
    exact ⟨k, n, hF.kept j k hk, hc⟩

/-- An open file after the step was one before, with the same jobs recorded. -/
theorem FileFrame.openFile (hF : FileFrame i s s') (hf : f < s.nextPtr) (hd : s'.pool f = some d)
    (hfile : ∀ e, s.pool f = some e → s.mapGet e.id = some f ∧ e.opType = .fileOpen) :
    ∃ e, s.pool f = some e ∧ d.id = e.id ∧ d.opType = e.opType ∧ d.lastJob = e.lastJob ∧
      d.jobHandle = e.jobHandle ∧ d.pendingDispatches = e.pendingDispatches ∧
      s'.mapGet e.id = some f := by
  cases hF.handles f d hd with
  | born fresh => exact absurd hf (Nat.not_lt.mpr fresh)
  | same e he hid hl hj hp hm => exact ⟨e, he, hid.1, hid.2.1, hl, hj, hp, hm (hfile e he).1⟩
  | set e he hid hl hno ho hp hm =>
      obtain ⟨h₁, h₂⟩ := hfile e he
      rcases hno with hno | hno
      · exact absurd h₁ hno
      · exact absurd h₂ hno

theorem ChainBase.frame (hB : ChainBase s) (hF : FileFrame i s s') : ChainBase s' where
  file j f hj := by
    obtain ⟨hlt, hd⟩ := hB.file j f (hF.chainedOn.mp hj)
    refine ⟨Nat.lt_of_lt_of_le hlt hF.ptr, fun d hd' => ?_⟩
    obtain ⟨e, he, hid, hop, -, -, -, hm⟩ := hF.openFile hlt hd' hd
    exact ⟨hid ▸ hm, hop.trans (hd e he).2⟩
  started j k hj hk := by
    rcases hF.added j k hj with hj | ⟨-, -, hdep, -⟩
    · exact hF.jobDone (hB.started j k hj hk)
    · simp [VfsState.jobDone, hdep hk]

theorem ChainBase.of_core (hB : ChainBase s) (hs : SameCore s s') : ChainBase s' := by
  obtain ⟨hpool, hmap, hjobs, hptr, -⟩ := hs
  have hget : ∀ h, s'.mapGet h = s.mapGet h := fun h => VfsState.mapGet_congr hmap
  refine ⟨fun j f hj => ?_, fun j k hj hk => ?_⟩
  · have hj' : ChainedOn s j f := by simpa [ChainedOn, hjobs] using hj
    rw [hptr, hpool]
    simpa only [hget] using hB.file j f hj'
  · rw [VfsState.jobDone_congr hjobs]
    exact hB.started j k (hjobs ▸ hj) hk

theorem ChainBase.modify {p : HandlePtr} {g : VfsHandleData → VfsHandleData} (hB : ChainBase s)
    (hg : KeepsIdentity g) : ChainBase (s.modify p g) where
  file j f hj := by
    obtain ⟨hlt, hf⟩ := hB.file j f hj
    refine ⟨hlt, fun d hd => ?_⟩
    obtain ⟨e, he, hid, -, hop⟩ := modify_origin hg hd
    obtain ⟨h₁, h₂⟩ := hf e he
    exact ⟨hid ▸ h₁, hop.trans h₂⟩
  started := hB.started

/-- A call in its window makes the job of its read or write. -/
theorem ChainBase.addChained {n : ℕ} (hB : ChainBase s) (hT : Table s) (hk : k.chained = some (n, f))
    (hdep : k.phase ≠ .queued → k.dependency = 0) (hd : s.pool f = some d)
    (hmap : s.mapGet d.id = some f) (hop : d.opType = .fileOpen) (hfin : k.phase.isFinished = false) :
    ChainBase (s.addJob k) where
  file j g hj := by
    obtain ⟨k', m, hj, hc⟩ := hj
    rcases VfsState.addJob_some hj with ⟨-, rfl⟩ | hj
    · rw [hk] at hc
      cases hc
      refine ⟨hT.poolBound f d hd, fun e he => ?_⟩
      have he' : s.pool f = some e := he
      rw [hd] at he'
      cases he'
      exact ⟨hmap, hop⟩
    · exact hB.file j g ⟨k', m, hj, hc⟩
  started j k' hj hne := by
    rw [jobDone_addJob hT hfin]
    rcases VfsState.addJob_some hj with ⟨-, rfl⟩ | hj
    · simp [VfsState.jobDone, hdep hne]
    · exact hB.started j k' hj hne

section Body

variable {F new : List Instr} {c : ℕ} {t : Thread} {sched : Sched}

/-- The job of a read or write is made in the window on its file. -/
theorem ChainBase.run {h : FlVfsHandle} {file p : HandlePtr} {ticket : ℕ}
    {after dependency : FlJobHandle} {phase : JobPhase} (hB : ChainBase s)
    (hI : Inv s (.chainRun h file ticket p after :: F))
    (hfile : ∀ d, s.pool file = some d → d.opType = .fileOpen)
    (hphase : phase.isFinished = false) (hdep : phase ≠ .queued → dependency = 0) :
    ChainBase (s.addJob ⟨p, dependency, some (ticket, file), phase⟩) := by
  obtain ⟨d, hd, hid, hmap, -⟩ := hI.window_live (i := .chainRun h file ticket p after)
    List.mem_cons_self rfl
  exact hB.addChained hI.toTable rfl hdep hd (hid ▸ hmap) (hfile d hd) hphase

theorem ChainExec.chainBase (hx : ChainExec s t i s' new) (hB : ChainBase s)
    (hI : Inv s (i :: F))
    (hfile : ∀ f, i.chainFile = some f → ∀ d, s.pool f = some d → d.opType = .fileOpen) :
    ChainBase s' := by
  cases hx with
  | refused => exact hB
  | copiedOnly | copied => exact hB.of_core ⟨rfl, rfl, rfl, rfl, rfl⟩
  | @entered h params f d hmap hd hopen hop =>
      exact (hB.modify (p := f) (g := openWindow) fun d => ⟨rfl, rfl, rfl⟩).of_core
        ⟨rfl, rfl, rfl, rfl, rfl⟩
  | @allocated h file ticket params m after s₁ known halloc =>
      have hborn : ChainBase s₁ :=
        hB.frame (.alloc (i := .chainAlloc h file ticket params m after) halloc)
      exact hborn.modify fun d => ⟨rfl, rfl, rfl⟩
  | unwound =>
      obtain ⟨d, -, -, -, hunwind⟩ := chainUnwind_live hI
      rw [hunwind]
      exact hB.modify fun d => ⟨rfl, rfl, rfl⟩
  | blocked | ran => exact hB.modify fun d => ⟨rfl, rfl, rfl⟩
  | @inlined h file ticket p after worker done =>
      exact hB.run hI (hfile file rfl) rfl fun _ => rfl
  | @queued h file ticket p after main =>
      exact (hB.run hI (hfile file rfl) rfl fun queued => absurd rfl queued).modify
        fun d => ⟨rfl, rfl, rfl⟩
  | @published h file p refused =>
      obtain ⟨d, op, -, -, -, -, -, hpublish⟩ := chainPublish_live hI
      have hkeep : KeepsIdentity (recordOn refused op.jobHandle) := fun d => ⟨rfl, rfl, rfl⟩
      rw [hpublish]
      exact (hB.modify hkeep).frame (.publish (i := .publish p) (hI.toTable.modify hkeep))

theorem ChainBase.body (hB : ChainBase s) (hI : Inv s (i :: F)) (hD : i.Disciplined s F)
    (hfile : ∀ f, i.chainFile = some f → ∀ d, s.pool f = some d → d.opType = .fileOpen)
    (hx : execBody s c t sched i = some (s', new)) (hlive : s'.destroyed = false) :
    ChainBase s' := by
  cases hi : i.chains with
  | false => exact hB.frame (body_frame hI hD hi hx hlive)
  | true =>
      cases execBody_some hx with
      | chain h => exact h.chainBase hB hI hfile
      | launch h | mount h | dispatch h | close h | teardown h => cases h <;> cases hi

end Body

section Move

variable {phase : JobPhase} {g : VfsHandleData → VfsHandleData} {es : List Event}
  {x : FlJobHandle} {k' k₀ : Job}

/-- A job after the step of a job was there before; only the phase of the one that moved differs. -/
theorem afterMove_back (hk : s.jobs j = some k)
    (hx : (afterMove s j k.target phase g es).jobs x = some k') :
    ∃ k₀, s.jobs x = some k₀ ∧ k'.target = k₀.target ∧ k'.chained = k₀.chained ∧
      k'.dependency = k₀.dependency ∧ (x ≠ j → k'.phase = k₀.phase) ∧
      (x = j → k₀ = k ∧ k'.phase = phase) := by
  rcases setPhase_some hx with ⟨rfl, k₀, hk₀, rfl⟩ | ⟨hne, hx⟩
  · rw [VfsState.modify_jobs, hk] at hk₀
    cases hk₀
    exact ⟨k, hk, rfl, rfl, rfl, fun hne => absurd rfl hne, fun _ => ⟨rfl, rfl⟩⟩
  · exact ⟨k', hx, rfl, rfl, rfl, fun _ => rfl, fun h => absurd h hne⟩

theorem afterMove_forth (hx : s.jobs x = some k₀) :
    ∃ k', (afterMove s j k.target phase g es).jobs x = some k' ∧ k'.target = k₀.target ∧
      k'.chained = k₀.chained ∧ k'.dependency = k₀.dependency ∧
      (x ≠ j → k'.phase = k₀.phase) := by
  have hphase : (afterMove s j k.target phase g es).jobs x =
      if x = j then (s.jobs j).map fun k => { k with phase := phase } else s.jobs x :=
    VfsState.setPhase_jobs (s.modify k.target g) _ _ _
  rw [hphase]
  split_ifs with hxj
  · subst hxj
    rw [hx]
    exact ⟨_, rfl, rfl, rfl, rfl, fun hne => absurd rfl hne⟩
  · exact ⟨k₀, hx, rfl, rfl, rfl, fun _ => rfl⟩

/-- A job that moves has a finished dependency, or starts after it. -/
theorem ChainBase.dependency_done (hB : ChainBase s) (hk : s.jobs j = some k)
    (hm : JobMove s j k d phase g es) : s.jobDone k.dependency = true := by
  cases hm with
  | begin at_ dep => exact dep
  | cancel at_ | find at_ | run _ at_ | fail _ _ at_ | enter _ _ at_ | leave _ _ _ at_
    | store _ at_ | finish at_ => exact hB.started _ k hk (by simp [at_])

end Move

theorem ChainBase.jobMove {phase : JobPhase} {g : VfsHandleData → VfsHandleData} {es : List Event}
    (hB : ChainBase s) (hk : s.jobs j = some k) (hm : JobMove s j k d phase g es) :
    ChainBase (afterMove s j k.target phase g es) where
  file x f hx := by
    have hx' : ChainedOn s x f := by
      obtain ⟨k', n, hx, hc⟩ := hx
      rcases setPhase_some hx with ⟨rfl, k₀, hk₀, rfl⟩ | ⟨-, hx⟩
      · exact ⟨k₀, n, hk₀, hc⟩
      · exact ⟨k', n, hx, hc⟩
    exact (hB.modify hm.keeps.1).file x f hx'
  started x k' hx hne := by
    refine jobDone_setPhase (s := s.modify k.target g) hk hm.unfinished ?_
    rcases setPhase_some hx with ⟨rfl, k₀, hk₀, rfl⟩ | ⟨-, hx⟩
    · rw [VfsState.modify_jobs, hk] at hk₀
      cases hk₀
      exact hB.dependency_done (k := k) hk hm
    · exact hB.started x k' hx hne

end Base

end FlowiVfs
