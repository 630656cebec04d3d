import FlowiVfs.Readiness

/-!
# Waiting for jobs

The job table only grows, and a finished job stays finished. So a call of the main
thread that waits for a list of jobs finds all of them finished when it is through,
whatever ran in the meantime.
-/
namespace FlowiVfs

open Transition

/-- Jobs stay in the table as what they are, and finished ones stay finished. -/
def JobsKept (s s' : VfsState) : Prop :=
  ∀ j k, s.jobs j = some k → ∃ k', s'.jobs j = some k' ∧ k'.target = k.target ∧
    k'.chained = k.chained ∧ k'.dependency = k.dependency ∧
      (k.phase.isFinished = true → k'.phase.isFinished = true)

section Kept

variable {s s' s'' : VfsState} {a : Action} {j : FlJobHandle} {k : Job}
  {ok : VfsState → Action → Prop}

theorem JobsKept.of_eq (h : s'.jobs = s.jobs) : JobsKept s s' :=
  fun _ k hj => ⟨k, h ▸ hj, rfl, rfl, rfl, id⟩

theorem JobsKept.refl (s : VfsState) : JobsKept s s := .of_eq rfl

theorem JobsKept.trans (h₁ : JobsKept s s') (h₂ : JobsKept s' s'') : JobsKept s s'' := by
  intro j k hj
  obtain ⟨k', hj', ht', hc', hd', hf'⟩ := h₁ j k hj
  obtain ⟨k'', hj'', ht'', hc'', hd'', hf''⟩ := h₂ j k' hj'
  exact ⟨k'', hj'', ht''.trans ht', hc''.trans hc', hd''.trans hd', fun hf => hf'' (hf' hf)⟩

theorem JobsKept.finished (h : JobsKept s s') (hj : s.jobFinished j = true) :
    s'.jobFinished j = true := by
  unfold VfsState.jobFinished at hj
  split at hj
  · rename_i k hk
    obtain ⟨k', hk', -, -, -, hf⟩ := h j k hk
    rw [VfsState.jobFinished_of hk']
    exact hf hj
  · cases hj

theorem JobsKept.jobMove {phase : JobPhase} {g : VfsHandleData → VfsHandleData} {es : List Event}
    {d : VfsHandleData} (hk : s.jobs j = some k) (hm : JobMove s j k d phase g es) :
    JobsKept s (afterMove s j k.target phase g es) := by
  intro x k₀ hx
  obtain ⟨k', hx', ht, hc, hd, hother⟩ : ∃ k', (afterMove s j k.target phase g es).jobs x = some k' ∧
      k'.target = k₀.target ∧ k'.chained = k₀.chained ∧ k'.dependency = k₀.dependency ∧
        (x ≠ j → k'.phase = k₀.phase) := afterMove_forth hx
  refine ⟨k', hx', ht, hc, hd, fun hf => ?_⟩
  by_cases hxj : x = j
  · subst hxj
    rw [hk] at hx
    cases hx
    rw [hm.unfinished] at hf
    cases hf
  · rw [hother hxj]
    exact hf

/-- Every step, the end of `vfs_destroy` and what comes after it included. -/
theorem jobs_kept (hI : s.destroyed = false → Inv s s.frames) (hD : Disciplined s a)
    (hstep : step s a = some s') : JobsKept s s' := by
  cases hlive : s'.destroyed with
  | true =>
      obtain ⟨-, hjobs, -⟩ := destroyed_core hstep hlive
      exact .of_eq hjobs
  | false =>
      have hI := hI (step_keeps_destroyed hstep hlive)
      refine step_rule (P := fun u _ => JobsKept s u) hI hD hstep hlive (.refl s)
        (fun _ _ _ h _ => h) (fun _ _ _ h => h) (fun _ _ _ _ _ h => h) (fun _ _ _ => .refl s) ?_ ?_
      · exact fun j input k d phase g es _ hk _ hm => .jobMove hk hm
      · intro c sched t i rest F s₀ s₂ new _ _ _ _ h hI hD hx hlive
        refine h.trans fun j k hj => ⟨k, ?_, rfl, rfl, rfl, id⟩
        exact (body_work hI hD hx hlive).kept j k hj

theorem jobs_kept_reaches (hok : ∀ s a, ok s a → Disciplined s a) (hs : Reaches step ok .init s)
    (hrun : Reaches step ok s s') : JobsKept s s' := by
  refine hrun.invariant_of (I := fun u => u.destroyed = false → Inv u u.frames)
    (fun u hu => inv_reaches hok (hs.trans hu)) (P := fun u => JobsKept s u) (.refl s) ?_
  intro t a u hI _ h hmeets hstep
  exact h.trans (jobs_kept hI (hok _ _ hmeets) hstep)

end Kept

/-! ## The main thread waits -/

/-- Call `c` waits for `jobs` before it goes on with `rest`, or is through. -/
def Waiting (jobs : List FlJobHandle) (c : ℕ) (rest : List Instr) (s : VfsState) : Prop :=
  (∀ j ∈ jobs, s.jobFinished j = true) ∨ ∃ done left, jobs = done ++ left ∧
    s.calls[c]? = some ⟨.main, .waitJobs left :: rest⟩ ∧ ∀ j ∈ done, s.jobFinished j = true

section Waiting

variable {s s' : VfsState} {a : Action} {c : ℕ} {t : Thread} {todo rest : List Instr}
  {jobs : List FlJobHandle} {ok : VfsState → Action → Prop}

/-- A step of anything else leaves a call where it is. -/
theorem call_stays (hc : s.calls[c]? = some ⟨t, todo⟩) (hstep : step s a = some s')
    (hother : ∀ sched, a ≠ .exec c sched) : s'.calls[c]? = some ⟨t, todo⟩ := by
  cases a with
  | start t' request =>
      simp only [step] at hstep
      split_ifs at hstep
      cases hstep
      rw [List.getElem?_append_left (List.getElem?_eq_some_iff.mp hc).1]
      exact hc
  | job j input =>
      simp only [step] at hstep
      split_ifs at hstep
      obtain ⟨k, d, phase, f, es, -, -, -, rfl⟩ := jobStep_cases hstep
      exact hc
  | exec n sched =>
      obtain ⟨t', i, rest, s₁, new, -, -, -, -, rfl⟩ := step_exec hstep
      have hne : n ≠ c := fun h => hother sched (by rw [h])
      rw [List.getElem?_set_ne hne]
      exact hc

/-- What a step of a call makes of it. -/
theorem call_moves {i : Instr} {sched : Sched} (hc : s.calls[c]? = some ⟨t, i :: rest⟩)
    (hstep : step s (.exec c sched) = some s') :
    ∃ s₀ s₂ new, (s₀ = s ∨ s₀ = s.emit (.lock c)) ∧ execBody s₀ c t sched i = some (s₂, new) ∧
      s'.pool = s₂.pool ∧ s'.handleMap = s₂.handleMap ∧ s'.jobs = s₂.jobs ∧
      s'.calls[c]? = some ⟨t, new ++ rest⟩ := by
  obtain ⟨t', i', rest', s₁, new, hc', -, -, hx, rfl⟩ := step_exec hstep
  rw [hc] at hc'
  cases hc'
  obtain ⟨s₀, s₂, hbody, hlock⟩ := exec_body hx
  have hlt := (List.getElem?_eq_some_iff.mp hc).1
  have hnow : (s.calls.set c ⟨t, new ++ rest⟩)[c]? = some ⟨t, new ++ rest⟩ := by
    rw [List.getElem?_set_self hlt]
  rcases hlock with ⟨-, rfl, rfl⟩ | ⟨-, rfl, rfl⟩
  · exact ⟨_, s₂, new, .inr rfl, hbody, rfl, rfl, rfl, hnow⟩
  · exact ⟨_, _, new, .inl rfl, hbody, rfl, rfl, rfl, hnow⟩

theorem Waiting.begin (hc : s.calls[c]? = some ⟨.main, .waitJobs jobs :: rest⟩) :
    Waiting jobs c rest s :=
  .inr ⟨[], jobs, rfl, hc, by simp⟩

theorem Waiting.step (hW : Waiting jobs c rest s) (hkept : JobsKept s s')
    (hstep : FlowiVfs.step s a = some s') : Waiting jobs c rest s' := by
  rcases hW with hall | ⟨done, left, rfl, hc, hdone⟩
  · exact .inl fun j hj => hkept.finished (hall j hj)
  · have hdone' : ∀ j ∈ done, s'.jobFinished j = true := fun j hj => hkept.finished (hdone j hj)
    by_cases hmine : ∃ sched, a = .exec c sched
    · obtain ⟨sched, rfl⟩ := hmine
      obtain ⟨s₀, s₂, new, hs₀, hx, -, -, hjobs, hnow⟩ := call_moves hc hstep
      cases left with
      | nil =>
          refine .inl fun j hj => hdone' j ?_
          rwa [List.append_nil] at hj
      | cons j left =>
          simp only [execBody] at hx
          split_ifs at hx with hfinished
          cases hx
          refine .inr ⟨done ++ [j], left, by simp, hnow, fun x hx => ?_⟩
          rcases List.mem_append.mp hx with hx | hx
          · exact hdone' x hx
          · rw [List.mem_singleton.mp hx, VfsState.jobFinished_congr hjobs]
            exact hfinished.resolve_left (fun hne => hne rfl)
    · exact .inr ⟨done, left, rfl, call_stays hc hstep fun sched h => hmine ⟨sched, h⟩, hdone'⟩

theorem waiting_reaches (hok : ∀ s a, ok s a → Disciplined s a) (hs : Reaches step ok .init s)
    (hrun : Reaches step ok s s') (hW : Waiting jobs c rest s) : Waiting jobs c rest s' := by
  refine hrun.invariant_of (I := fun u => u.destroyed = false → Inv u u.frames)
    (fun u hu => inv_reaches hok (hs.trans hu)) (P := Waiting jobs c rest) hW ?_
  intro t a u hI _ h hmeets hstep
  exact h.step (jobs_kept hI (hok _ _ hmeets) hstep) hstep

/-- A call that has returned has waited for all its jobs. -/
theorem Waiting.through (hW : Waiting jobs c rest s) (hc : s.calls[c]? = some ⟨.main, []⟩) :
    ∀ j ∈ jobs, s.jobFinished j = true := by
  rcases hW with hall | ⟨done, left, -, hc', -⟩
  · exact hall
  · rw [hc] at hc'
    cases hc'

end Waiting

end FlowiVfs
