import FlowiVfs.JobProgress

/-!
# No call is stuck

A call of a public function stands still at three kinds of points: where it waits for a job,
where it waits for `mount_lock`, and where it would touch a mount that is not there. The jobs
that it waits for can finish. A mount that an operation has got on to is there until its close
has freed the handles on it; so what is left is `mount_lock`, and a caller that names a mount
that it has closed.
-/
namespace FlowiVfs

open Transition

/-- The mount of every handle is open, or is being opened by the call that owns the handle. -/
structure Grounded (s : VfsState) (F : List Instr) : Prop where
  handles : ∀ p d, s.pool p = some d → (s.mounts d.mount).isSome ∨
    ∃ x ∈ F, x.opens = some d.mount ∧ x.owns = some p
  chaining : ∀ x ∈ F, ∀ f m, x.chainsOn = some (f, m) → ∀ d, s.pool f = some d → d.mount = m

/-- Points that wait for `mount_lock`. -/
def Instr.locksMounts : Instr → Bool
  | .mountOpen | .mountUnlist _ | .mountDestroy _ => true
  | _ => false

/-- The mount that a caller names. -/
def Instr.named : Instr → Option MountPtr
  | .allocOp params => some params.mount
  | .prepare params => some params.mount
  | _ => none

section Invariant

variable {s s' : VfsState} {F G new : List Instr} {i : Instr} {d : VfsHandleData} {c : ℕ}
  {t : Thread} {sched : Sched} {j : FlJobHandle} {k : Job} {p : HandlePtr} {a : Action}

theorem Grounded.perm (hG : Grounded s F) (hp : F.Perm G) : Grounded s G where
  handles p d hd := (hG.handles p d hd).imp_right fun ⟨x, hx, ho⟩ => ⟨x, hp.mem_iff.mp hx, ho⟩
  chaining x hx := hG.chaining x (hp.mem_iff.mpr hx)

theorem Grounded.of_same (s' : VfsState) (hG : Grounded s F) (hpool : s'.pool = s.pool)
    (hmounts : s'.mounts = s.mounts) : Grounded s' F where
  handles := by
    rw [hpool, hmounts]
    exact hG.handles
  chaining := by
    rw [hpool]
    exact hG.chaining

theorem Grounded.body (hG : Grounded s (i :: F)) (hI : Inv s (i :: F)) (hT : Torn s (i :: F))
    (hx : execBody s c t sched i = some (s', new)) (hlive : s'.destroyed = false) :
    Grounded s' (new ++ F) := by
  have hbook := body_bookkeeping hI hx hlive
  refine ⟨fun p d' hd' => ?_, fun x hx f m hf d' hd' => ?_⟩
  · rcases hbook.handles p d' hd' with ⟨d, hd, hmount⟩ | ⟨-, hborn⟩
    · rw [hmount]
      rcases hG.handles p d hd with hopen | ⟨x, hx, hopens, howns⟩
      · refine .inl ((hbook.mounts d.mount hopen).resolve_right fun hdestroys => ?_)
        -- The storage of a mount goes only when no handle is left on it.
        exact (hT.emptied d.mount (.inl (by rw [hdestroys]; exact List.mem_cons_self))).2 p d hd rfl
      · rcases List.mem_cons.mp hx with rfl | hx
        · exact (hbook.opens d.mount p hopens howns).imp_right fun ⟨y, hy, ho⟩ =>
            ⟨y, List.mem_append_left F hy, ho⟩
        · exact .inr ⟨x, List.mem_append_right new hx, hopens, howns⟩
    · exact hborn.imp_right fun ⟨y, hy, ho⟩ => ⟨y, List.mem_append_left F hy, ho⟩
  · have hold : ∃ d, s.pool f = some d ∧ d.mount = m := by
      rcases List.mem_append.mp hx with hx | hx
      · exact (hbook.points x hx).chains f m hf
      · have hx : x ∈ i :: F := List.mem_cons_of_mem i hx
        obtain ⟨h, hw⟩ : ∃ h, x.window = some (h, f) := by
          cases x with
          | chainAlloc h file ticket params mount after =>
              cases hf
              exact ⟨h, rfl⟩
          | _ => cases hf
        obtain ⟨d, hd, -⟩ := hI.window_live hx hw
        exact ⟨d, hd, hG.chaining x hx f m hf d hd⟩
    obtain ⟨d, hd, hmount⟩ := hold
    rcases hbook.handles f d' hd' with ⟨e, he, hsame⟩ | ⟨hfresh, -⟩
    · rw [hd] at he
      cases he
      exact hsame.trans hmount
    · exact absurd (hI.poolBound f d hd) (Nat.not_lt.mpr hfresh)

theorem Grounded.jobMove {phase : JobPhase} {g : VfsHandleData → VfsHandleData} {es : List Event}
    (hG : Grounded s F) (hm : JobMove s j k d phase g es) :
    Grounded (afterMove s j k.target phase g es) F where
  handles p d' hd' := by
    obtain ⟨e, he, -, hmount, -⟩ := modify_origin (p := k.target) hm.keeps.1 hd'
    rw [hmount]
    exact hG.handles p e he
  chaining x hx f m hf d' hd' := by
    obtain ⟨e, he, -, hmount, -⟩ := modify_origin (p := k.target) hm.keeps.1 hd'
    exact hmount.trans (hG.chaining x hx f m hf e he)

theorem Grounded.step (hG : Grounded s s.frames) (hI : Inv s s.frames) (hT : Torn s s.frames)
    (hD : Disciplined s a) (h : FlowiVfs.step s a = some s') (hlive : s'.destroyed = false) :
    Grounded s' s'.frames := by
  refine step_rule (P := Grounded) hI hD h hlive hG (fun _ _ _ hG hp => hG.perm hp) ?_ ?_ ?_ ?_ ?_
  · exact fun s F cs hG => hG.of_same _ rfl rfl
  · exact fun s F c e _ hG => hG.of_same _ rfl rfl
  · intro t request _
    refine ⟨fun p d hd => ?_, fun x hx f m hf => ?_⟩
    · exact (hG.handles p d hd).imp_right fun ⟨x, hx, ho⟩ => ⟨x, List.mem_append_right _ hx, ho⟩
    · rcases List.mem_append.mp hx with hx | hx
      · have hquiet := (program_quiet request x hx).2.1
        cases x with
        | chainAlloc h file ticket params mount after => cases hquiet
        | _ => cases hf
      · exact hG.chaining x hx f m hf
  · exact fun j input k d phase g es _ _ _ hm => hG.jobMove hm
  · intro c sched t i rest F s₀ s₂ new _ _ hF hs₀ hG hI hD hx hlive
    refine hG.body hI ?_ hx hlive
    have hT := hT.perm hF
    rcases hs₀ with rfl | rfl
    · exact hT
    · exact hT.spares (.emit fun _ _ h => Event.noConfusion h)

theorem grounded_init : Grounded .init VfsState.init.frames := by
  refine ⟨?_, ?_⟩
  all_goals simp [VfsState.init, VfsState.frames]

theorem grounded_reaches {ok : VfsState → Action → Prop} (hok : ∀ s a, ok s a → Careful s a)
    (h : Reaches FlowiVfs.step ok .init s) : s.destroyed = false → Grounded s s.frames := by
  refine h.invariant_of (I := fun s => s.destroyed = false → Inv s s.frames ∧ Torn s s.frames)
    (fun s h hlive => ⟨careful_inv (h.mono hok) hlive, torn_reaches (h.mono hok) hlive⟩)
    (P := fun s => s.destroyed = false → Grounded s s.frames) (fun _ => grounded_init) ?_
  intro t a u hI _ hG hmeets hstep hlive
  have hlive' := step_keeps_destroyed hstep hlive
  obtain ⟨hI, hT⟩ := hI hlive'
  exact (hG hlive').step hI hT (hok _ _ hmeets).1 hstep hlive

end Invariant

/-! ## Every point is enabled -/

section Points

variable {s s' : VfsState} {F : List Instr} {i : Instr} {d : VfsHandleData} {c : ℕ} {t : Thread}
  {j : FlJobHandle} {p : HandlePtr} {h : FlVfsHandle} {rest : List Instr}
  {next : VfsState × List Instr}

/-- The mount of a handle that no call is opening a mount with is open. -/
theorem Grounded.open_mount (hG : Grounded s F) (hd : s.pool p = some d)
    (hother : ∀ x ∈ F, x.owns = some p → x.opens = none) : ∃ m, s.mounts d.mount = some m := by
  rcases hG.handles p d hd with hopen | ⟨x, hx, hopens, howns⟩
  · exact Option.isSome_iff_exists.mp hopen
  · rw [hother x hx howns] at hopens
    cases hopens

theorem Grounded.schedules (hG : Grounded s F) (hd : s.pool p = some d)
    (hother : ∀ x ∈ F, x.owns = some p → x.opens = none) :
    ∃ s' job, vfsOpsScheduleJob s t p .queue = some (s', .queued job) := by
  obtain ⟨m, hm⟩ := hG.open_mount hd hother
  unfold vfsOpsScheduleJob
  simp only [hd, hm]
  exact ⟨_, _, rfl⟩

/-- With all jobs finished every point is enabled that has its mount and `mount_lock`. -/
theorem body_enabled (hI : Inv s (i :: F)) (hJ : JobTable s (i :: F)) (hG : Grounded s (i :: F))
    (hends : ∀ j, s.HasJob j → s.jobFinished j = true)
    (hnamed : ∀ m, i.named = some m → (s.mounts m).isSome)
    (hlock : i.locksMounts = true → s.mountLockFree = true) :
    (execBody s c t .queue i).isSome := by
  have hhead : i ∈ i :: F := List.mem_cons_self
  have hjob : ∀ j, j ∈ i.awaits → s.jobFinished j = true := fun j hj =>
    hends j (hJ.awaited i hhead j hj)
  have hafter : ∀ {j} (next : VfsState × List Instr), j ∈ i.awaits →
      (afterJob s j next).isSome := by
    intro j next hj
    rw [afterJob, if_pos (hjob j hj)]
    rfl
  have hunder : ∀ next : VfsState × List Instr, i.locksMounts = true →
      (underMountLock s next).isSome := by
    intro next hl
    rw [underMountLock, if_pos (hlock hl)]
    rfl
  cases i with
  | allocOp params =>
      have hopen : (s.mounts params.mount).isNone = false :=
        Option.isNone_eq_false_iff.mpr (hnamed _ rfl)
      simp only [execBody, hopen, Bool.false_eq_true, if_false]
      split
      · rfl
      · rfl
  | prepare params =>
      have hopen : (s.mounts params.mount).isNone = false :=
        Option.isNone_eq_false_iff.mpr (hnamed _ rfl)
      simp only [execBody, hopen, Bool.false_eq_true, if_false]
      split
      · rfl
      · rfl
  | schedule p =>
      obtain ⟨d, hd, -⟩ := hI.owner_private hhead rfl
      obtain ⟨s', job, hsched⟩ := hG.schedules (t := t) hd fun x hx ho => by
        rcases List.mem_cons.mp hx with rfl | hx
        · rfl
        · exact absurd ho (hI.owner_unique rfl x hx)
      simp only [execBody, hsched, Option.isSome_some]
  | dispatchSchedule h p =>
      obtain ⟨d, hd, -, hmap, -⟩ := hI.window_live hhead rfl
      obtain ⟨s', job, hsched⟩ := hG.schedules (t := t) hd fun x hx ho =>
        absurd ho (hI.mapped_not_owned hmap hx)
      simp only [execBody, hsched, Option.isSome_some]
  | chainAlloc h file ticket params m after =>
      obtain ⟨d, hd, -, hmap, -⟩ := hI.window_live hhead rfl
      obtain ⟨mount, hm⟩ := hG.open_mount hd fun x hx ho =>
        absurd ho (hI.mapped_not_owned hmap hx)
      rw [hG.chaining _ hhead file m rfl d hd] at hm
      simp only [execBody, hm, Option.isNone_some, Bool.false_eq_true, if_false, Option.isSome_some]
  | inlineOp p j r => exact hafter _ List.mem_cons_self
  | mountInline m p j => exact hafter _ List.mem_cons_self
  | dispatchInline h p j r => exact hafter _ List.mem_cons_self
  | chainInline h file p j => exact hafter _ List.mem_cons_self
  | mountOpen => exact hunder _ rfl
  | mountUnlist m => exact hunder _ rfl
  | mountDestroy m => exact hunder _ rfl
  | waitJobs jobs =>
      cases jobs with
      | nil => rfl
      | cons j js =>
          simp only [execBody, if_pos (Or.inr (hjob j List.mem_cons_self)), Option.isSome_some]
  | releases hooks =>
      cases hooks with
      | nil => rfl
      | cons p ps => rfl
  | cancel h =>
      simp only [execBody]
      split
      · rfl
      · rfl
  | closeSnapshot h =>
      simp only [execBody]
      split
      · rfl
      · split_ifs
        · rfl
        · rfl
  | waitSnapshot h =>
      simp only [execBody]
      split
      · rfl
      · rfl
  | destroyLoop =>
      simp only [execBody]
      split
      · rfl
      · rfl
  | publish | mountSchedule | mountPublish | dispatch | dispatchRecord | copyData | chain
    | chainUnwind | chainRun | chainPublish | reclaim | closeFinish | waitAllSnapshot
    | mountSnapshot | mountDrain | mountFree => rfl

/-- In every run that keeps to the rules, the newest call of a thread is never stuck: once the
jobs have run out it goes on, unless its caller names a mount that is not open or another call
is mounting. -/
theorem calls_go_on (hs : Reaches FlowiVfs.step (fun s a => Careful s a ∧ InlineLast s a) .init s)
    (hlive : s.destroyed = false) (hc : s.calls[c]? = some ⟨t, i :: rest⟩)
    (htop : s.onTop c t = true) (hnamed : ∀ m, i.named = some m → (s.mounts m).isSome)
    (hlock : i.locksMounts = true → s.mountLockFree = true) :
    ∃ s', Reaches FlowiVfs.step JobsOnly s s' ∧ s'.calls = s.calls ∧
      (FlowiVfs.step s' (.exec c .queue)).isSome := by
  have hwait : ∀ s a, (Careful s a ∧ InlineLast s a) → Waitable s a := fun _ _ h => ⟨h.1.1, h.2⟩
  obtain ⟨s', hrun, hends⟩ := jobs_run_out (hs.mono hwait) hlive
  have hran := jobs_ran hrun
  have hlive' := hran.destroyed.trans hlive
  have hs' : Reaches FlowiVfs.step (fun s a => Careful s a ∧ InlineLast s a) .init s' := by
    refine hs.trans (hrun.mono fun u a h => ?_)
    obtain ⟨j, input, rfl⟩ := h
    exact ⟨⟨trivial, trivial⟩, trivial⟩
  have hI := inv_reaches (fun _ _ h => h.1.1) hs' hlive'
  have hJ := jobTable_reaches (fun _ _ h => h.1.1) hs' hlive'
  have hG := grounded_reaches (fun _ _ h => h.1) hs' hlive'
  have hc' : s'.calls[c]? = some ⟨t, i :: rest⟩ := hran.calls ▸ hc
  refine ⟨s', hrun, hran.calls, ?_⟩
  have htop' : s'.onTop c t = true := by
    rw [VfsState.onTop, hran.calls]
    exact htop
  obtain ⟨F, hF, -⟩ := flatMap_set_todo [] hc'
  have hends' : ∀ j, s'.HasJob j → s'.jobFinished j = true := fun j hj =>
    hends j ((hran.known j).mp hj)
  have hnamed' : ∀ m, i.named = some m → (s'.mounts m).isSome := hran.mounts ▸ hnamed
  have hlock' : i.locksMounts = true → s'.mountLockFree = true := by
    rw [VfsState.mountLockFree, hran.calls]
    exact hlock
  simp only [FlowiVfs.step, hc', htop', hlive', Bool.false_eq_true, false_imp_iff, and_self,
    if_true, Option.isSome_map]
  unfold Instr.exec
  split_ifs
  · rw [Option.isSome_map]
    exact body_enabled ((hI.perm hF).emit (by simp) (by simp))
      ((hJ.perm hF).of_same _ rfl rfl rfl) ((hG.perm hF).of_same _ rfl rfl) hends' hnamed' hlock'
  · exact body_enabled (hI.perm hF) (hJ.perm hF) (hG.perm hF) hends' hnamed' hlock'

/-- The main thread waits for a read that is queued, and goes on after it. -/
theorem calls_go_on_wait : ∃ s s', FlowiVfs.step s (.exec 3 .queue) = none ∧
    Reaches FlowiVfs.step JobsOnly s s' ∧ (FlowiVfs.step s' (.exec 3 .queue)).isSome := by
  let actions := openFileScript ++ [.start .main (.read 2 10)] ++ callSteps 2 4 ++
    [.start .main (.wait 3)] ++ callSteps 3 1
  have hrun : ((replay FlowiVfs.step (fun s a => Careful s a ∧ InlineLast s a) actions .init).map
      fun s => decide (s.destroyed = false ∧ s.calls[3]? = some ⟨.main, [.waitJobs [3]]⟩ ∧
        s.onTop 3 .main = true) && (FlowiVfs.step s (.exec 3 .queue)).isNone) = some true := by
    decide +kernel
  obtain ⟨s, hs, hfacts⟩ := Option.map_eq_some_iff.mp hrun
  rw [Bool.and_eq_true, decide_eq_true_eq, Option.isNone_iff_eq_none] at hfacts
  obtain ⟨⟨hlive, hc, htop⟩, hstuck⟩ := hfacts
  obtain ⟨s', hjobs, -, hgoes⟩ := calls_go_on (replay_reaches _ hs) hlive hc htop
    (fun m hm => by cases hm) (fun hlock => by cases hlock)
  exact ⟨s, s', hstuck, hjobs, hgoes⟩

end Points
end FlowiVfs
