import FlowiVfs.JobProgress
import FlowiVfs.Shutdown

/-!
# Calls that wait return

`vfs_close`, `vfs_wait`, `vfs_wait_all`, `vfs_mount_close` and `vfs_destroy` wait for jobs, and
what they wait for is made by other calls; `vfs_mount_close` also polls until no scheduling
window is open on its victims. None of them waits for a job that cannot finish: from wherever
such a call has come to, the jobs and its own steps take it to its end.
-/
namespace FlowiVfs

open Transition

/-- Points of the functions that close, wait and sweep. -/
def Instr.windsDown : Instr → Bool
  | .cancel _ | .reclaim | .releases _ | .closeSnapshot _ | .closeFinish _ _ | .waitJobs _
  | .waitSnapshot _ | .waitAllSnapshot | .mountUnlist _ | .mountSnapshot _ | .mountDrain _ _
  | .mountFree _ _ | .mountDestroy _ => true
  | _ => false

/-- How far such a point is from the end of its function: the sections still to come, and the
waits or hooks of the current one. -/
def Instr.toGo : Instr → ℕ ×ₗ ℕ
  | .releases hooks => toLex (0, hooks.length)
  | .waitJobs jobs => toLex (0, jobs.length)
  | .closeSnapshot _ => toLex (2, 0)
  | .mountFree _ _ => toLex (2, 0)
  | .mountDrain _ _ => toLex (3, 0)
  | .mountSnapshot _ => toLex (4, 0)
  | .mountUnlist _ => toLex (5, 0)
  | _ => toLex (1, 0)

/-- What such a point leaves of the mount list. -/
def Instr.leaves : Instr → List MountPtr → List MountPtr
  | .mountUnlist m, mounts => mounts.erase m
  | _, mounts => mounts

/-- No call is dispatching, chaining or mounting. -/
def WindowsClosed (s : VfsState) : Prop :=
  ∀ k ∈ s.calls, ∀ x ∈ k.todo, x.window = none ∧ x.holdsMountLock = false

instance (s : VfsState) : Decidable (WindowsClosed s) :=
  inferInstanceAs (Decidable (∀ k ∈ s.calls, ∀ x ∈ k.todo,
    x.window = none ∧ x.holdsMountLock = false))

/-- All jobs have finished. -/
def Idling (s : VfsState) : Prop := ∀ j, s.HasJob j → s.jobFinished j = true

/-- A step of a call at `i`, when nothing is left to wait for. -/
structure Winds (i : Instr) (new : List Instr) (s s' : VfsState) : Prop where
  nearer : ∀ x ∈ new, x.toGo < i.toGo ∧ ∀ mounts, x.leaves mounts = mounts
  mountList : s'.mountList = i.leaves s.mountList

section Points

variable {s s' : VfsState} {F new : List Instr} {i x : Instr} {h : FlVfsHandle} {m : MountPtr}
  {c : ℕ} {t : Thread} {sched : Sched} {j : FlJobHandle} {d : VfsHandleData} {p : HandlePtr}

theorem Instr.windsDown_free (hi : i.windsDown = true) : i.window = none ∧
    i.holdsMountLock = false ∧ i.unset = none ∧ i.Disciplined s F := by
  cases i <;> first | exact ⟨rfl, rfl, rfl, trivial⟩ | cases hi

/-- Such a call goes on at such points. -/
theorem winds_follow (hi : i.windsDown = true)
    (hx : execBody s c t sched i = some (s', new)) :
    ∀ x ∈ new, x.windsDown = true ∧ (x.tearsDown = true → i.tearsDown = true) := by
  cases execBody_some hx with
  | launch h | mount h | dispatch h | chain h => cases h <;> cases hi
  | close h => cases h <;> simp [Instr.windsDown, Instr.tearsDown]
  | teardown h =>
      cases h with
      | next | cleared => cases hi
      | _ => simp [Instr.windsDown, Instr.tearsDown]

/-- Closing and waiting make no job and move none. -/
theorem winds_jobs (hI : Inv s (i :: F)) (hi : i.windsDown = true)
    (hx : execBody s c t sched i = some (s', new)) (hlive : s'.destroyed = false) :
    s'.jobs = s.jobs := by
  obtain ⟨-, -, hunset, hD⟩ := i.windsDown_free hi
  have hW := body_work hI hD hx hlive
  funext j
  cases hj : s.jobs j with
  | some k => exact hW.kept j k hj
  | none =>
      cases hj' : s'.jobs j with
      | none => rfl
      | some k =>
          rcases hW.added j k hj' with hold | ⟨hnew, -⟩
          · rw [hj] at hold
            cases hold
          · rw [hunset] at hnew
            cases hnew

/-- Nothing is left to drain. -/
theorem drained {victims : List FlVfsHandle} (hJ : JobTable s F) (hidle : Idling s)
    (hpend : ∀ p d, s.pool p = some d → d.pendingDispatches = 0) :
    (victims.map (refreshVictim s)).any (fun r => r.2) = false := by
  rw [List.any_eq_false]
  intro r hr
  obtain ⟨v, -, rfl⟩ := List.mem_map.mp hr
  unfold refreshVictim
  split
  · exact Bool.false_ne_true
  · rename_i p d hl
    have hd := ((VfsState.lookupHandle_some p).mp hl).2
    have hdone : vfsJobsFinished s d.handleJobs = true := by
      unfold vfsJobsFinished
      refine List.all_eq_true.mpr fun j hj => hidle j ?_
      obtain ⟨hne, hmentions⟩ := mem_handleJobs hj hd
      exact (hJ.mentioned j hmentions).resolve_left hne
    simp [hpend p d hd, hdone]

/-- With all jobs finished such a call can go on, and comes nearer to its end. -/
theorem winds_on (hI : Inv s (i :: F)) (hJ : JobTable s (i :: F)) (hi : i.windsDown = true)
    (hidle : Idling s) (hfree : i.tearsDown = true → s.mountLockFree = true ∧
      ∀ p d, s.pool p = some d → d.pendingDispatches = 0) :
    ∃ s' new, execBody s c t .queue i = some (s', new) ∧ Winds i new s s' := by
  have sooner : ∀ {a b : ℕ}, a < b → ∀ n k : ℕ, toLex (a, n) < toLex (b, k) :=
    fun hlt n k => Prod.Lex.left n k hlt
  have same : ∀ mounts : List MountPtr, mounts = mounts := fun _ => rfl
  cases i with
  | cancel h =>
      simp only [execBody]
      split
      · exact ⟨_, _, rfl, List.forall_mem_nil _, rfl⟩
      · exact ⟨_, _, rfl, List.forall_mem_nil _, rfl⟩
  | reclaim =>
      refine ⟨_, _, rfl, List.forall_mem_singleton.mpr ⟨sooner Nat.zero_lt_one _ _, same⟩, ?_⟩
      exact (sweep_reclaim (hI.drop rfl rfl)).mountList
  | releases hooks =>
      cases hooks with
      | nil => exact ⟨_, _, rfl, List.forall_mem_nil _, rfl⟩
      | cons p ps =>
          refine ⟨_, _, rfl, List.forall_mem_singleton.mpr ⟨?_, same⟩, rfl⟩
          exact Prod.Lex.right 0 (Nat.lt_succ_self _)
  | closeSnapshot h =>
      simp only [execBody]
      split
      · exact ⟨_, _, rfl, List.forall_mem_nil _, rfl⟩
      · split_ifs
        · refine ⟨_, _, rfl, List.forall_mem_cons.mpr ⟨⟨sooner (by decide) _ _, same⟩, ?_⟩, rfl⟩
          exact List.forall_mem_singleton.mpr ⟨sooner (by decide) _ _, same⟩
        · exact ⟨_, _, rfl, List.forall_mem_singleton.mpr ⟨sooner (by decide) _ _, same⟩, rfl⟩
  | closeFinish h borrows =>
      exact ⟨_, _, rfl, List.forall_mem_singleton.mpr ⟨sooner Nat.zero_lt_one _ _, same⟩,
        (closeFinish_mountFrame s t h borrows).mountList⟩
  | waitJobs jobs =>
      cases jobs with
      | nil => exact ⟨_, _, rfl, List.forall_mem_nil _, rfl⟩
      | cons j js =>
          have hfinished : s.jobFinished j = true :=
            hidle j (hJ.awaited _ List.mem_cons_self j List.mem_cons_self)
          refine ⟨s, [.waitJobs js], if_pos (.inr hfinished),
            List.forall_mem_singleton.mpr ⟨?_, same⟩, rfl⟩
          exact Prod.Lex.right 0 (Nat.lt_succ_self _)
  | waitSnapshot h =>
      simp only [execBody]
      split
      · exact ⟨_, _, rfl, List.forall_mem_nil _, rfl⟩
      · exact ⟨_, _, rfl, List.forall_mem_singleton.mpr ⟨sooner Nat.zero_lt_one _ _, same⟩, rfl⟩
  | waitAllSnapshot =>
      exact ⟨_, _, rfl, List.forall_mem_singleton.mpr ⟨sooner Nat.zero_lt_one _ _, same⟩, rfl⟩
  | mountUnlist m =>
      simp only [execBody, underMountLock, (hfree rfl).1, if_true]
      split_ifs with hlisted
      · exact ⟨_, _, rfl, List.forall_mem_singleton.mpr ⟨sooner (by decide) _ _, same⟩, rfl⟩
      · exact ⟨_, _, rfl, List.forall_mem_nil _, (List.erase_of_not_mem hlisted).symm⟩
  | mountSnapshot m =>
      refine ⟨_, _, rfl, List.forall_mem_cons.mpr ⟨⟨sooner (by decide) _ _, same⟩, ?_⟩, rfl⟩
      exact List.forall_mem_singleton.mpr ⟨sooner (by decide) _ _, same⟩
  | mountDrain m victims =>
      have hdrained : (victims.map (refreshVictim s)).any (fun r => r.2) = false :=
        drained hJ hidle (hfree rfl).2
      refine ⟨s, mountDrain s m victims, rfl, ?_, rfl⟩
      unfold mountDrain
      simp only [hdrained, Bool.false_eq_true, if_false]
      refine List.forall_mem_cons.mpr ⟨⟨sooner (by decide) _ _, same⟩, ?_⟩
      exact List.forall_mem_singleton.mpr ⟨sooner (by decide) _ _, same⟩
  | mountFree m victims =>
      refine ⟨_, _, rfl, List.forall_mem_cons.mpr ⟨⟨sooner (by decide) _ _, same⟩, ?_⟩,
        (Sweep.freeVictims hI List.mem_cons_self fun _ h => h).mountList⟩
      exact List.forall_mem_singleton.mpr ⟨sooner (by decide) _ _, same⟩
  | mountDestroy m =>
      simp only [execBody, underMountLock, (hfree rfl).1, if_true]
      exact ⟨_, _, rfl, List.forall_mem_nil _, rfl⟩
  | _ => cases hi

end Points

/-! ## One call alone -/

/-- Only call `c` moves, and keeps to the rules. -/
def CallOnly (c : ℕ) (s : VfsState) (a : Action) : Prop :=
  Waitable s a ∧ ∃ sched, a = .exec c sched

/-- Call `c` of thread `t` can go on with `todo`: all jobs have finished, and where `quiet`
holds no other call is in the way of a teardown. -/
structure Unhindered (c : ℕ) (t : Thread) (quiet : Prop) (todo : List Instr) (s : VfsState) :
    Prop where
  reached : Reaches step Waitable .init s
  live : s.destroyed = false
  here : s.calls[c]? = some ⟨t, todo⟩
  top : s.onTop c t = true
  idle : Idling s
  windows : quiet → WindowsClosed s

section Alone

variable {s s' u : VfsState} {c : ℕ} {t : Thread} {quiet : Prop} {todo rest new : List Instr}
  {i : Instr} {m : MountPtr}

theorem onTop_set {todo' : List Instr} :
    VfsState.onTop { s' with calls := s.calls.set c ⟨t, todo'⟩ } c t = s.onTop c t := by
  simp [VfsState.onTop, List.drop_set]

theorem WindowsClosed.lockFree (hU : WindowsClosed s) : s.mountLockFree = true := by
  refine List.all_eq_true.mpr fun k hk => List.all_eq_true.mpr fun x hx => ?_
  rw [(hU k hk x hx).2]
  rfl

theorem WindowsClosed.pending (hU : WindowsClosed s) (hI : Inv s s.frames) :
    ∀ p d, s.pool p = some d → d.pendingDispatches = 0 := by
  intro p d hd
  refine (noWindow_iff hI hd).mp fun x hx id hw => ?_
  obtain ⟨k, hk, hx⟩ := List.mem_flatMap.mp hx
  rw [(hU k hk x hx).1] at hw
  cases hw

theorem WindowsClosed.set (hU : WindowsClosed s) (hc : s.calls[c]? = some ⟨t, i :: rest⟩)
    (hnew : ∀ x ∈ new, x.window = none ∧ x.holdsMountLock = false) :
    WindowsClosed { s' with calls := s.calls.set c ⟨t, new ++ rest⟩ } := by
  intro k hk x hx
  rcases List.mem_or_eq_of_mem_set hk with hk | rfl
  · exact hU k hk x hx
  · rcases List.mem_append.mp hx with hx | hx
    · exact hnew x hx
    · exact hU _ (List.mem_of_getElem? hc) x (List.mem_cons_of_mem i hx)

/-- The events around the body at `i`, which is a critical section or not. -/
def Instr.around (i : Instr) (e : Event) (s : VfsState) : VfsState :=
  if i.locked then s.emit e else s

theorem Instr.around_same (i : Instr) (e : Event) (s : VfsState) : (i.around e s).pool = s.pool ∧
    (i.around e s).jobs = s.jobs ∧ (i.around e s).mounts = s.mounts ∧
    (i.around e s).mountList = s.mountList ∧ (i.around e s).calls = s.calls ∧
    (i.around e s).destroyed = s.destroyed := by
  unfold Instr.around
  split_ifs
  · exact ⟨rfl, rfl, rfl, rfl, rfl, rfl⟩
  · exact ⟨rfl, rfl, rfl, rfl, rfl, rfl⟩

theorem step_of_body (hc : s.calls[c]? = some ⟨t, i :: rest⟩) (htop : s.onTop c t = true)
    (hlive : s.destroyed = false)
    (hx : execBody (i.around (.lock c) s) c t .queue i = some (s', new)) :
    step s (.exec c .queue) =
      some { i.around (.unlock c) s' with calls := s.calls.set c ⟨t, new ++ rest⟩ } := by
  simp only [step, hc, htop, hlive, Bool.false_eq_true, false_imp_iff, and_self, if_true]
  unfold Instr.exec Instr.around at *
  split_ifs with hlocked
  · rw [if_pos hlocked] at hx
    rw [hx]
    rfl
  · rw [if_neg hlocked] at hx
    rw [hx]
    rfl

theorem exec_waitable {sched : Sched} (hc : s.calls[c]? = some ⟨t, i :: rest⟩)
    (hD : i.Disciplined s s.frames) (hlast : i.InlineLast s t) : Waitable s (.exec c sched) := by
  constructor
  · intro y hy
    rw [headInstr, hc] at hy
    cases hy
    exact hD
  · intro k hk y hy
    rw [hc] at hk
    cases hk
    cases hy
    exact hlast

/-- The body of the next step. -/
theorem Unhindered.body (h : Unhindered c t quiet (i :: rest) s) (hi : i.windsDown = true)
    (hquiet : i.tearsDown = true → quiet) : ∃ s' new,
      execBody (i.around (.lock c) s) c t .queue i = some (s', new) ∧
      Winds i new s s' ∧ s'.destroyed = false ∧ s'.jobs = s.jobs := by
  have hok : ∀ s a, Waitable s a → Disciplined s a := fun _ _ h => h.1
  have hI := inv_reaches hok h.reached h.live
  obtain ⟨F, hF, -⟩ := flatMap_set_todo [] h.here
  obtain ⟨hpool, hjobs, hmounts, hlist, hcalls, hdestroyed⟩ := i.around_same (.lock c) s
  have hI₀ : Inv (i.around (.lock c) s) (i :: F) := by
    unfold Instr.around
    split_ifs
    · exact (hI.perm hF).emit (by simp) (by simp)
    · exact hI.perm hF
  have hJ₀ : JobTable (i.around (.lock c) s) (i :: F) :=
    ((jobTable_reaches hok h.reached h.live).perm hF).of_same _ hpool hjobs hmounts
  have hidle : Idling (i.around (.lock c) s) := by
    intro j ⟨k, hk⟩
    rw [VfsState.jobFinished_congr hjobs]
    exact h.idle j ⟨k, hjobs ▸ hk⟩
  have hfree : i.tearsDown = true → (i.around (.lock c) s).mountLockFree = true ∧
      ∀ p d, (i.around (.lock c) s).pool p = some d → d.pendingDispatches = 0 := by
    intro htears
    have hU := h.windows (hquiet htears)
    refine ⟨?_, hpool ▸ hU.pending hI⟩
    rw [VfsState.mountLockFree, hcalls]
    exact hU.lockFree
  obtain ⟨s', new, hx, hW⟩ := winds_on (c := c) (t := t) hI₀ hJ₀ hi hidle hfree
  have hlive : s'.destroyed = false := by
    rcases body_destroyed hx with hkept | ⟨rfl, -⟩
    · exact (hkept.trans hdestroyed).trans h.live
    · cases hi
  exact ⟨s', new, hx, ⟨hW.nearer, hlist ▸ hW.mountList⟩, hlive,
    (winds_jobs hI₀ hi hx hlive).trans hjobs⟩

theorem Unhindered.idle_after (h : Unhindered c t quiet todo s) (hjobs : s'.jobs = s.jobs) :
    Idling s' := by
  intro j ⟨k, hk⟩
  exact (VfsState.jobFinished_congr hjobs).trans (h.idle j ⟨k, hjobs ▸ hk⟩)

/-- One step of the call. -/
theorem Unhindered.step (h : Unhindered c t quiet (i :: rest) s) (hi : i.windsDown = true)
    (hquiet : i.tearsDown = true → quiet) : ∃ s' new, step s (.exec c .queue) = some s' ∧
      Waitable s (.exec c .queue) ∧ Unhindered c t quiet (new ++ rest) s' ∧
      (∀ x ∈ new, x.windsDown = true ∧ (x.tearsDown = true → quiet)) ∧ Winds i new s s' := by
  obtain ⟨s₂, new, hx, hW, hlive₂, hjobs₂⟩ := h.body hi hquiet
  have hfollow := winds_follow hi hx
  have hstep := step_of_body h.here h.top h.live hx
  obtain ⟨-, hjobs, -, hlist, -, hdestroyed⟩ := i.around_same (.unlock c) s₂
  have hlt := (List.getElem?_eq_some_iff.mp h.here).1
  have hwaitable : Waitable s (.exec c .queue) :=
    exec_waitable h.here (i.windsDown_free hi).2.2.2 (by cases i <;> trivial)
  refine ⟨_, new, hstep, hwaitable, ⟨.step _ h.reached hwaitable hstep, hdestroyed.trans hlive₂,
    List.getElem?_set_self hlt, onTop_set.trans h.top, h.idle_after (hjobs.trans hjobs₂),
    fun hq => ?_⟩, fun x hx => ⟨(hfollow x hx).1, fun htears => hquiet ((hfollow x hx).2 htears)⟩,
    hW.nearer, hlist.trans hW.mountList⟩
  refine (h.windows hq).set h.here fun x hx => ?_
  obtain ⟨hwin, hlock, -⟩ := x.windsDown_free (s := s) (F := []) (hfollow x hx).1
  exact ⟨hwin, hlock⟩

/-- The call gets from `todo` to `rest`, and leaves `mounts` on the mount list. -/
def Gets (c : ℕ) (t : Thread) (quiet : Prop) (s : VfsState) (rest : List Instr)
    (mounts : List MountPtr) : Prop :=
  ∃ s', Reaches FlowiVfs.step (CallOnly c) s s' ∧ Unhindered c t quiet rest s' ∧
    s'.mountList = mounts

/-- What a list of points leaves of the mount list. -/
def leavesAll (points : List Instr) (mounts : List MountPtr) : List MountPtr :=
  points.foldl (fun mounts x => x.leaves mounts) mounts

theorem leavesAll_same {points : List Instr} {mounts : List MountPtr}
    (hpoints : ∀ x ∈ points, ∀ mounts, x.leaves mounts = mounts) :
    leavesAll points mounts = mounts := by
  induction points with
  | nil => rfl
  | cons x points ih =>
      rw [leavesAll, List.foldl_cons, hpoints x List.mem_cons_self]
      exact ih fun y hy => hpoints y (List.mem_cons_of_mem x hy)

/-- The points of a list are passed one after the other. -/
theorem Unhindered.each {points : List Instr} (h : Unhindered c t quiet (points ++ rest) s)
    (hpoints : ∀ x ∈ points, ∀ s rest, Unhindered c t quiet (x :: rest) s →
      Gets c t quiet s rest (x.leaves s.mountList)) :
    Gets c t quiet s rest (leavesAll points s.mountList) := by
  induction points generalizing s with
  | nil => exact ⟨s, .start, h, rfl⟩
  | cons x points ih =>
      obtain ⟨s₁, hrun₁, h₁, hlist₁⟩ := hpoints x List.mem_cons_self s _ h
      obtain ⟨s₂, hrun₂, h₂, hlist₂⟩ :=
        ih h₁ fun y hy => hpoints y (List.mem_cons_of_mem x hy)
      exact ⟨s₂, hrun₁.trans hrun₂, h₂, hlist₂.trans (congrArg (leavesAll points) hlist₁)⟩

/-- The call gets past a point, whatever the point unfolds to. -/
theorem Unhindered.pass (h : Unhindered c t quiet (i :: rest) s) (hi : i.windsDown = true)
    (hquiet : i.tearsDown = true → quiet) : Gets c t quiet s rest (i.leaves s.mountList) := by
  induction i using WellFounded.induction (InvImage.wf Instr.toGo wellFounded_lt)
    generalizing s rest with
  | _ i ih =>
      obtain ⟨s₁, new, hstep, hwaitable, h₁, hnew, hW⟩ := h.step hi hquiet
      obtain ⟨s₂, hrun, h₂, hlist⟩ := h₁.each fun x hx s rest h =>
        ih x (hW.nearer x hx).1 h (hnew x hx).1 (hnew x hx).2
      rw [leavesAll_same fun x hx => (hW.nearer x hx).2] at hlist
      have hone : Reaches FlowiVfs.step (CallOnly c) s s₁ :=
        .step _ .start ⟨hwaitable, .queue, rfl⟩ hstep
      exact ⟨s₂, hone.trans hrun, h₂, hlist.trans hW.mountList⟩

/-- The loop of `vfs_destroy` closes one mount after the other. -/
theorem Unhindered.destroys (h : Unhindered c t quiet [.destroyLoop] s) (hquiet : quiet) :
    ∃ s', Reaches FlowiVfs.step (CallOnly c) s s' ∧ s'.calls[c]? = some ⟨t, []⟩ ∧
      s'.destroyed = true := by
  induction hmounts : s.mountList generalizing s with
  | nil =>
      have hx : execBody (Instr.destroyLoop.around (.lock c) s) c t .queue .destroyLoop =
          some ({ s with handleMap := ∅, destroyed := true }.emit (.destroyed c), []) := by
        simp only [execBody, Instr.around, Instr.locked, Bool.false_eq_true, if_false, hmounts]
      have hstep := step_of_body h.here h.top h.live hx
      have hlt := (List.getElem?_eq_some_iff.mp h.here).1
      exact ⟨_, .step _ .start ⟨exec_waitable h.here trivial trivial, .queue, rfl⟩ hstep,
        List.getElem?_set_self hlt, rfl⟩
  | cons m mounts ih =>
      have hx : execBody (Instr.destroyLoop.around (.lock c) s) c t .queue .destroyLoop =
          some (s, [.mountUnlist m, .destroyLoop]) := by
        simp only [execBody, Instr.around, Instr.locked, Bool.false_eq_true, if_false, hmounts]
      have hstep := step_of_body h.here h.top h.live hx
      have hlt := (List.getElem?_eq_some_iff.mp h.here).1
      have hwaitable : Waitable s (.exec c .queue) := exec_waitable h.here trivial trivial
      have hone : Reaches FlowiVfs.step (CallOnly c) s _ :=
        .step _ .start ⟨hwaitable, .queue, rfl⟩ hstep
      have hnew : ∀ x ∈ [Instr.mountUnlist m, .destroyLoop],
          x.window = none ∧ x.holdsMountLock = false :=
        List.forall_mem_cons.mpr ⟨⟨rfl, rfl⟩, List.forall_mem_singleton.mpr ⟨rfl, rfl⟩⟩
      have h₁ : Unhindered c t quiet [.mountUnlist m, .destroyLoop] { s with
          calls := s.calls.set c ⟨t, [.mountUnlist m, .destroyLoop]⟩ } :=
        ⟨.step _ h.reached hwaitable hstep, h.live, List.getElem?_set_self hlt,
          onTop_set.trans h.top, h.idle, fun hq => (h.windows hq).set h.here hnew⟩
      obtain ⟨s₂, hrun, h₂, hlist⟩ := h₁.pass rfl fun _ => hquiet
      have hrest : s₂.mountList = mounts := by
        rw [hlist, Instr.leaves, hmounts, List.erase_cons_head]
      obtain ⟨s₃, hrest, hhere, hdead⟩ := ih h₂ hrest
      exact ⟨s₃, (hone.trans hrun).trans hrest, hhere, hdead⟩

end Alone

/-! ## The functions -/

/-- Calls of the functions that close, wait and sweep. -/
def Request.windsDown : Request → Bool
  | .cancel _ | .close _ | .update | .wait _ | .waitAll | .mountClose _ | .destroy => true
  | _ => false

def Request.tearsDown : Request → Bool
  | .mountClose _ | .destroy => true
  | _ => false

/-- The point that such a call comes to last. -/
def Request.ending : Request → List Instr
  | .destroy => [.destroyLoop]
  | _ => []

/-- Call `c` of thread `t` is underway with `request`. -/
def Underway (request : Request) (c : ℕ) (t : Thread) (s : VfsState) : Prop :=
  ∃ points, s.calls[c]? = some ⟨t, points ++ request.ending⟩ ∧
    ∀ x ∈ points, x.windsDown = true ∧ (x.tearsDown = true → request.tearsDown = true)

section Requests

variable {s s' s₁ : VfsState} {c : ℕ} {t : Thread} {request : Request} {a : Action}

theorem Request.program_winds (hkind : request.windsDown = true) :
    ∃ points, request.program = points ++ request.ending ∧
      ∀ x ∈ points, x.windsDown = true ∧ (x.tearsDown = true → request.tearsDown = true) := by
  cases request with
  | cancel h =>
      simp only [Request.program]
      split_ifs
      · exact ⟨[], rfl, List.forall_mem_nil _⟩
      · exact ⟨[.cancel h], rfl, List.forall_mem_singleton.mpr ⟨rfl, Bool.noConfusion⟩⟩
  | close h =>
      simp only [Request.program, vfsClose]
      split_ifs
      · exact ⟨[], rfl, List.forall_mem_nil _⟩
      · exact ⟨[.reclaim, .closeSnapshot h], rfl, List.forall_mem_cons.mpr
          ⟨⟨rfl, Bool.noConfusion⟩, List.forall_mem_singleton.mpr ⟨rfl, Bool.noConfusion⟩⟩⟩
  | update => exact ⟨[.reclaim], rfl, List.forall_mem_singleton.mpr ⟨rfl, Bool.noConfusion⟩⟩
  | wait h =>
      simp only [Request.program]
      split_ifs
      · exact ⟨[], rfl, List.forall_mem_nil _⟩
      · exact ⟨[.waitSnapshot h], rfl, List.forall_mem_singleton.mpr ⟨rfl, Bool.noConfusion⟩⟩
  | waitAll =>
      exact ⟨[.waitAllSnapshot, .reclaim], rfl, List.forall_mem_cons.mpr
        ⟨⟨rfl, Bool.noConfusion⟩, List.forall_mem_singleton.mpr ⟨rfl, Bool.noConfusion⟩⟩⟩
  | mountClose m =>
      exact ⟨[.mountUnlist m], rfl, List.forall_mem_singleton.mpr ⟨rfl, fun _ => rfl⟩⟩
  | destroy =>
      exact ⟨[.waitAllSnapshot, .reclaim], rfl, List.forall_mem_cons.mpr
        ⟨⟨rfl, fun _ => rfl⟩, List.forall_mem_singleton.mpr ⟨rfl, fun _ => rfl⟩⟩⟩
  | _ => cases hkind

theorem Underway.begin (hkind : request.windsDown = true)
    (hstart : step s (.start t request) = some s₁) : Underway request s.calls.length t s₁ := by
  obtain ⟨points, hprogram, hpoints⟩ := Request.program_winds hkind
  simp only [step] at hstart
  split_ifs at hstart
  cases hstart
  exact ⟨points, by rw [← hprogram, List.getElem?_concat_length], hpoints⟩

theorem Underway.step (h : Underway request c t s) (hstep : FlowiVfs.step s a = some s')
    (hlive : s'.destroyed = false) : Underway request c t s' := by
  obtain ⟨points, hc, hpoints⟩ := h
  by_cases hmine : ∃ sched, a = .exec c sched
  · obtain ⟨sched, rfl⟩ := hmine
    cases points with
    | nil =>
        cases request with
        | destroy =>
            obtain ⟨t', i, rest, s₁, new, hc', -, -, hx, rfl⟩ := step_exec hstep
            rw [hc] at hc'
            cases hc'
            simp only [Instr.exec, Instr.locked, Bool.false_eq_true, if_false, execBody] at hx
            split at hx
            · rename_i m _ _
              cases hx
              have hlt := (List.getElem?_eq_some_iff.mp hc).1
              exact ⟨[.mountUnlist m], List.getElem?_set_self hlt,
                List.forall_mem_singleton.mpr ⟨rfl, fun _ => rfl⟩⟩
            · cases hx
              cases hlive
        | _ =>
            obtain ⟨t', i, rest, s₂, new, hc', -⟩ := step_exec hstep
            rw [hc] at hc'
            cases hc'
    | cons i points =>
        obtain ⟨s₀, s₂, new, -, hx, -, -, -, hnow⟩ := call_moves hc hstep
        obtain ⟨hi, htears⟩ := hpoints i List.mem_cons_self
        refine ⟨new ++ points, by rw [hnow, List.append_assoc]; rfl, fun x hx' => ?_⟩
        rcases List.mem_append.mp hx' with hx' | hx'
        · obtain ⟨hx, hkeeps⟩ := winds_follow hi hx x hx'
          exact ⟨hx, fun htears' => htears (hkeeps htears')⟩
        · exact hpoints x (List.mem_cons_of_mem i hx')
  · exact ⟨points, call_stays hc hstep fun sched h => hmine ⟨sched, h⟩, hpoints⟩

theorem underway_reaches {ok : VfsState → Action → Prop} (h : Underway request c t s)
    (hrun : Reaches FlowiVfs.step ok s s') : s'.destroyed = false → Underway request c t s' := by
  refine hrun.invariant (P := fun u => u.destroyed = false → Underway request c t u)
    (fun _ => h) ?_
  intro u a v hu _ hstep hlive
  exact (hu (step_keeps_destroyed hstep hlive)).step hstep hlive

/-- In every run that keeps to the rules, a call that closes, waits or sweeps can return from
wherever it has come to: the jobs and the call itself are enough, unless it takes mounts down
while other calls dispatch, chain or mount. -/
theorem closing_calls_return (hs : Reaches FlowiVfs.step Waitable .init s)
    (hkind : request.windsDown = true) (hstart : FlowiVfs.step s (.start t request) = some s₁)
    (hrun : Reaches FlowiVfs.step Waitable s₁ s') (hlive : s'.destroyed = false)
    (htop : s'.onTop s.calls.length t = true)
    (hquiet : request.tearsDown = true → WindowsClosed s') :
    ∃ u, Reaches FlowiVfs.step (fun s' a => JobsOnly s' a ∨ CallOnly s.calls.length s' a) s' u ∧
      u.calls[s.calls.length]? = some ⟨t, []⟩ ∧ (u.destroyed = true ↔ request = .destroy) := by
  have hs' : Reaches FlowiVfs.step Waitable .init s' :=
    (hs.trans (.step (.start t request) .start ⟨trivial, trivial⟩ hstart)).trans hrun
  obtain ⟨points, hc, hpoints⟩ := underway_reaches (.begin hkind hstart) hrun hlive
  obtain ⟨v, hjobs, hends⟩ := jobs_run_out hs' hlive
  have hran := jobs_ran hjobs
  have halone : Unhindered s.calls.length t (request.tearsDown = true)
      (points ++ request.ending) v := by
    refine ⟨waitable_jobs hs' hjobs, hran.destroyed.trans hlive, hran.calls ▸ hc, ?_,
      fun j hj => hends j ((hran.known j).mp hj), fun hq => ?_⟩
    · rw [VfsState.onTop, hran.calls]
      exact htop
    · rw [WindowsClosed, hran.calls]
      exact hquiet hq
  have first : ∀ {u w}, Reaches FlowiVfs.step JobsOnly s' u →
      Reaches FlowiVfs.step (CallOnly s.calls.length) u w →
      Reaches FlowiVfs.step (fun s' a => JobsOnly s' a ∨ CallOnly s.calls.length s' a) s' w :=
    fun h₁ h₂ => (h₁.mono fun _ _ => .inl).trans (h₂.mono fun _ _ => .inr)
  obtain ⟨w, hcall, hw, -⟩ := halone.each fun x hx u rest h =>
    h.pass (hpoints x hx).1 (hpoints x hx).2
  by_cases hdestroy : request = .destroy
  · subst hdestroy
    obtain ⟨u, hloop, hhere, hdead⟩ := hw.destroys rfl
    exact ⟨u, first hjobs (hcall.trans hloop), hhere, iff_of_true hdead rfl⟩
  · have hending : request.ending = [] := by
      cases request <;> first | rfl | exact absurd rfl hdestroy
    refine ⟨w, first hjobs hcall, hending ▸ hw.here, iff_of_false ?_ hdestroy⟩
    rw [hw.live]
    exact Bool.false_ne_true

/-- `vfs_destroy` begins while a read is queued on a file of a mount, and returns. -/
theorem closing_calls_return_destroy : ∃ s' u, s'.jobFinished 3 = false ∧
    s'.calls[3]? = some ⟨.main, [.waitAllSnapshot, .reclaim, .destroyLoop]⟩ ∧
    Reaches FlowiVfs.step (fun s' a => JobsOnly s' a ∨ CallOnly 3 s' a) s' u ∧
    u.calls[3]? = some ⟨.main, []⟩ ∧ u.destroyed = true := by
  let actions := openFileScript ++ [.start .main (.read 2 10)] ++ callSteps 2 4
  have hrun : ((replay FlowiVfs.step Waitable actions .init).bind fun s =>
      (FlowiVfs.step s (.start .main .destroy)).map fun s' => decide (s.calls.length = 3 ∧
        s'.destroyed = false ∧ s'.onTop 3 .main = true ∧ WindowsClosed s' ∧
        s'.jobFinished 3 = false ∧
        s'.calls[3]? = some ⟨.main, [.waitAllSnapshot, .reclaim, .destroyLoop]⟩)) = some true := by
    decide +kernel
  obtain ⟨s, hs, hrest⟩ := Option.bind_eq_some_iff.mp hrun
  obtain ⟨s', hstart, hfacts⟩ := Option.map_eq_some_iff.mp hrest
  simp only [decide_eq_true_eq] at hfacts
  obtain ⟨hlength, hlive, htop, hquiet, hqueued, hhere⟩ := hfacts
  obtain ⟨u, hreturns, hend, hdead⟩ := closing_calls_return (replay_reaches _ hs) rfl hstart .start
    hlive (hlength ▸ htop) fun _ => hquiet
  rw [hlength] at hreturns hend
  exact ⟨s', u, hqueued, hhere, hreturns, hend, hdead.mpr rfl⟩

end Requests
end FlowiVfs
