import FlowiVfs.LocalExecutor

/-!
# Cancelling a task of the executor

Dropping the `Task` handle empties the slot of the task. While the task is being
polled its future is outside the slot, and a poll that returns `Pending` puts it
back without looking whether the handle still exists. So a poll that reaches its
own handle, drops it and suspends leaves a task that nothing cancels any more.

What the other tasks see of a cancelled one is stated by a second run: the one in
which the handle was not dropped, the task not woken, and a poll of it that was in
progress suspended.
-/
namespace FlowiVfs.LocalExecutor

open Transition

variable {s s' s₁ s₂ : State} {t u : TaskId} {a : Action}

/-! ## What is asked of a drop -/

/-- The future of the task exists, in the slot or in a poll. -/
def State.HasFuture (s : State) (t : TaskId) : Prop :=
  (s.inner t).future = true ∨ t ∈ s.polling

instance (s : State) (t : TaskId) : Decidable (s.HasFuture t) :=
  inferInstanceAs (Decidable (_ ∨ _))

/-- What an event tells of the tasks other than `t`. -/
def Event.without (t : TaskId) : Event → Option Event
  | .spawned u => if u = t then none else some (.spawned u)
  | .woken u => if u = t then none else some (.woken u)
  | .dropped u => if u = t then none else some (.dropped u)
  | .began k n ts => some (.began k n (ts.filter (· ≠ t)))
  | .reached k u p => if u = t then none else some (.reached k u p)
  | .returned u b => if u = t then none else some (.returned u b)
  | .ended k m => some (.ended k m)

def others (t : TaskId) (trace : List Event) : List Event :=
  trace.filterMap (Event.without t)

/-- The state in which nothing has woken the task. -/
def unwoken (s : State) (t : TaskId) : State :=
  { s with inner := Function.update s.inner t { s.inner t with ready := false } }

/-- The task stays as it is: its handle is kept, nothing wakes it, its poll suspends. -/
def Idle (t : TaskId) (s : State) (a : Action) : Prop :=
  a ≠ .wake t ∧ a ≠ .drop t ∧ (a = .ret false → s.current ≠ some t)

/-- What became of task `t` and of the others by the state `s`, when its handle was dropped
in the state `s₁`. -/
structure CancelledSince (t : TaskId) (s₁ s : State) : Prop where
  /-- No poll of the task has begun since, and its future is gone, at the latest with the end of
  the poll it was in. -/
  gone : ∃ l, s.trace = l ++ .dropped t :: s₁.trace ∧ (∀ k, .reached k t true ∉ l) ∧
    (t ∉ s₁.polling ∨ (∃ b, .returned t b ∈ l) → ¬ s.HasFuture t)
  /-- The other tasks fared as if the task had stayed suspended. -/
  others : ∃ s', Reaches step (Idle t) (unwoken s₁ t) s' ∧
    others t s'.trace = others t s.trace

/-- The task's poll does not suspend. -/
def Finishing (t : TaskId) (s : State) (a : Action) : Prop :=
  a = .ret true → s.current ≠ some t

/-! ## Polls in every run -/

/-- A task in a poll has its future outside the slot and is in no second one. -/
structure OwnPolls (s : State) : Prop where
  spawned : ∀ t, .spawned t ∈ s.trace → t < s.nextTask
  filled : ∀ t, (s.inner t).future = true → t < s.nextTask
  distinct : s.polling.Nodup
  outside : ∀ t ∈ s.polling, t < s.nextTask ∧ (s.inner t).future = false

theorem OwnPolls.init : OwnPolls .new := by
  constructor
  all_goals simp [State.new, State.polling]

/-- A step that begins and ends no poll and fills no slot. -/
theorem OwnPolls.keep (h : OwnPolls s) (hspawned : ∀ t, .spawned t ∈ s'.trace → t < s'.nextTask)
    (hnext : s.nextTask ≤ s'.nextTask) (hpolling : s'.polling = s.polling)
    (hslot : ∀ t, (s'.inner t).future = true → (s.inner t).future = true) : OwnPolls s' := by
  refine ⟨hspawned, fun t ht => Nat.lt_of_lt_of_le (h.filled t (hslot t ht)) hnext, ?_, ?_⟩
  · rw [hpolling]
    exact h.distinct
  · intro t ht
    obtain ⟨hlt, hempty⟩ := h.outside t (hpolling ▸ ht)
    refine ⟨Nat.lt_of_lt_of_le hlt hnext, ?_⟩
    by_contra hne
    rw [hslot t (by simpa using hne)] at hempty
    cases hempty

theorem OwnPolls.spawn (h : OwnPolls s) : OwnPolls (spawn s) := by
  unfold LocalExecutor.spawn
  refine ⟨?_, ?_, h.distinct, ?_⟩
  · intro t ht
    simp only [List.mem_cons, Event.spawned.injEq] at ht
    rcases ht with rfl | ht
    · exact Nat.lt_succ_self _
    · exact Nat.lt_succ_of_lt (h.spawned t ht)
  · intro t ht
    by_cases htn : t = s.nextTask
    · exact htn ▸ Nat.lt_succ_self _
    · simp only [Function.update_of_ne htn] at ht
      exact Nat.lt_succ_of_lt (h.filled t ht)
  · intro t ht
    obtain ⟨hlt, hempty⟩ := h.outside t ht
    simp only [Function.update_of_ne (Nat.ne_of_lt hlt)]
    exact ⟨Nat.lt_succ_of_lt hlt, hempty⟩

theorem OwnPolls.reach (h : OwnPolls s) {k n : ℕ} {rest : List TaskId} {outer : List Tick}
    (hticks : s.ticks = ⟨k, t :: rest, none, n⟩ :: outer) :
    OwnPolls (reach s ⟨k, t :: rest, none, n⟩ t rest outer) := by
  have hpolling : s.polling = outer.filterMap Tick.polling := by
    simp [State.polling, hticks]
  unfold LocalExecutor.reach
  split_ifs with hready hfuture
  · apply h.keep
    · simpa using h.spawned
    · exact Nat.le_refl _
    · simp [State.polling, hticks]
    · exact fun u hu => hu
  · apply h.keep
    · simpa using h.spawned
    · exact Nat.le_refl _
    · simp [State.polling, hticks]
    · intro u hu
      by_cases hut : u = t
      · subst hut
        simpa using hu
      · simpa [Function.update_of_ne hut] using hu
  · have hfull : (s.inner t).future = true := by simpa using hfuture
    have hnot : t ∉ s.polling := by
      intro hin
      rw [(h.outside t hin).2] at hfull
      cases hfull
    refine ⟨by simpa using h.spawned, ?_, ?_, ?_⟩
    · intro u hu
      by_cases hut : u = t
      · simp [hut] at hu
      · exact h.filled u (by simpa [Function.update_of_ne hut] using hu)
    · simp only [State.polling, List.filterMap_cons]
      rw [← hpolling]
      exact List.nodup_cons.mpr ⟨hnot, h.distinct⟩
    · intro u hu
      simp only [State.polling, List.filterMap_cons, List.mem_cons] at hu
      by_cases hut : u = t
      · subst hut
        exact ⟨h.filled u hfull, by simp⟩
      · rw [← hpolling] at hu
        simpa [Function.update_of_ne hut] using h.outside u (hu.resolve_left hut)

/-- The poll of the innermost tick returns. -/
theorem OwnPolls.ret (h : OwnPolls s) {k n : ℕ} {rest : List TaskId} {outer : List Tick}
    (hticks : s.ticks = ⟨k, rest, some t, n⟩ :: outer) (pending : Bool) :
    OwnPolls { s with
      inner := if pending then Function.update s.inner t { s.inner t with future := true }
        else s.inner
      ticks := ⟨k, rest, none, n⟩ :: outer
      trace := .returned t (!pending) :: s.trace } := by
  have hpolling : s.polling = t :: outer.filterMap Tick.polling := by
    simp [State.polling, hticks]
  have hnodup := List.nodup_cons.mp (hpolling ▸ h.distinct)
  obtain ⟨ht, hempty⟩ := h.outside t (by simp [hpolling])
  have hother : ∀ u, u ≠ t → ((if pending then Function.update s.inner t
      { s.inner t with future := true } else s.inner) u) = s.inner u := by
    intro u hu
    cases pending <;> simp [Function.update_of_ne hu]
  refine ⟨by simpa using h.spawned, ?_, ?_, ?_⟩
  · intro u hu
    by_cases hut : u = t
    · exact hut ▸ ht
    · simp only [hother u hut] at hu
      exact h.filled u hu
  · simpa [State.polling] using hnodup.2
  · intro u hu
    have hin : u ∈ outer.filterMap Tick.polling := by simpa [State.polling] using hu
    have hut : u ≠ t := by
      rintro rfl
      exact hnodup.1 hin
    simp only [hother u hut]
    exact h.outside u (by simp [hpolling, hin])

theorem OwnPolls.later (h : OwnPolls s) (hstep : step s a = some s') : OwnPolls s' := by
  cases a with
  | spawn =>
      simp only [LocalExecutor.step] at hstep
      split_ifs at hstep
      cases hstep
      exact h.spawn
  | wake t =>
      simp only [LocalExecutor.step] at hstep
      split_ifs at hstep
      cases hstep
      apply h.keep
      · simpa [wake] using h.spawned
      · exact Nat.le_refl _
      · rfl
      · intro u hu
        by_cases hut : u = t
        · subst hut
          simpa [wake] using hu
        · simpa [wake, Function.update_of_ne hut] using hu
  | drop t =>
      simp only [LocalExecutor.step] at hstep
      split_ifs at hstep
      cases hstep
      apply h.keep
      · simpa [dropTask] using h.spawned
      · exact Nat.le_refl _
      · rfl
      · intro u hu
        by_cases hut : u = t
        · simp [dropTask, hut] at hu
        · simpa [dropTask, Function.update_of_ne hut] using hu
  | tick =>
      simp only [LocalExecutor.step] at hstep
      split_ifs at hstep
      cases hstep
      apply h.keep
      · simpa using h.spawned
      · exact Nat.le_refl _
      · simp [State.polling]
      · exact fun u hu => hu
  | next =>
      simp only [LocalExecutor.step] at hstep
      split at hstep
      · rename_i k t rest n outer hticks
        cases hstep
        exact h.reach hticks
      · cases hstep
  | sweep =>
      simp only [LocalExecutor.step] at hstep
      split at hstep
      · rename_i k n outer hticks
        cases hstep
        apply h.keep
        · simpa using h.spawned
        · exact Nat.le_refl _
        · simp [State.polling, hticks]
        · exact fun u hu => hu
      · cases hstep
  | ret pending =>
      simp only [LocalExecutor.step] at hstep
      split at hstep
      · rename_i k rest t n outer hticks
        cases hstep
        exact h.ret hticks pending
      · cases hstep

/-! ## The cancelled task -/

/-- The handle of `t` was dropped in the state `s₁`. -/
structure Gone (t : TaskId) (s₁ s : State) : Prop where
  slot : (s.inner t).future = false
  old : t < s.nextTask
  history : ∃ l, s.trace = l ++ .dropped t :: s₁.trace ∧ (∀ k, .reached k t true ∉ l) ∧
    (t ∈ s.polling → t ∈ s₁.polling ∧ ∀ b, .returned t b ∉ l)

/-- A step that does not concern the task. -/
theorem Gone.cons (h : Gone t s₁ s) {e : Event} (htrace : s'.trace = e :: s.trace)
    (hslot : (s'.inner t).future = false) (hnext : s.nextTask ≤ s'.nextTask)
    (hpoll : ∀ k, e ≠ .reached k t true)
    (hpolling : t ∈ s'.polling → t ∈ s.polling ∧ ∀ b, e ≠ .returned t b) : Gone t s₁ s' := by
  obtain ⟨l, hl, hnever, hin⟩ := h.history
  refine ⟨hslot, Nat.lt_of_lt_of_le h.old hnext, e :: l, by rw [htrace, hl]; rfl, ?_, ?_⟩
  · intro k hk
    rcases List.mem_cons.mp hk with heq | hk
    · exact hpoll k heq.symm
    · exact hnever k hk
  · intro ht
    obtain ⟨hold, hreturned⟩ := hpolling ht
    refine ⟨(hin hold).1, fun b hb => ?_⟩
    rcases List.mem_cons.mp hb with heq | hb
    · exact hreturned b heq.symm
    · exact (hin hold).2 b hb

theorem Gone.start (h : OwnPolls s₁) (hstep : step s₁ (.drop t) = some s₂) : Gone t s₁ s₂ := by
  simp only [step] at hstep
  split_ifs at hstep with hguard
  cases hstep
  refine ⟨by simp [dropTask], h.spawned t hguard.2.1, [], rfl, by simp, ?_⟩
  intro ht
  exact ⟨ht, by simp⟩

theorem Gone.spawn (h : Gone t s₁ s) : Gone t s₁ (spawn s) := by
  apply h.cons rfl
  · simpa [LocalExecutor.spawn, Function.update_of_ne (Nat.ne_of_lt h.old)] using h.slot
  · exact Nat.le_succ _
  · simp
  · exact fun ht => ⟨ht, by simp⟩

theorem Gone.wake (h : Gone t s₁ s) (u : TaskId) : Gone t s₁ (wake s u) := by
  apply h.cons rfl
  · by_cases hut : t = u
    · subst hut
      simpa [LocalExecutor.wake] using h.slot
    · simpa [LocalExecutor.wake, Function.update_of_ne hut] using h.slot
  · exact Nat.le_refl _
  · simp
  · exact fun ht => ⟨ht, by simp⟩

theorem Gone.drop (h : Gone t s₁ s) (u : TaskId) : Gone t s₁ (dropTask s u) := by
  apply h.cons rfl
  · by_cases hut : t = u
    · simp [dropTask, hut]
    · simpa [dropTask, Function.update_of_ne hut] using h.slot
  · exact Nat.le_refl _
  · simp
  · exact fun ht => ⟨ht, by simp⟩

/-- A tick that comes to the task finds its slot empty. -/
theorem Gone.reach (h : Gone t s₁ s) {k n : ℕ} {u : TaskId} {rest : List TaskId}
    {outer : List Tick} (hticks : s.ticks = ⟨k, u :: rest, none, n⟩ :: outer) :
    Gone t s₁ (reach s ⟨k, u :: rest, none, n⟩ u rest outer) := by
  unfold LocalExecutor.reach
  split_ifs with hready hfuture
  · apply h.cons rfl
    · exact h.slot
    · exact Nat.le_refl _
    · simp
    · exact fun ht => ⟨by simpa [State.polling, hticks] using ht, by simp⟩
  · apply h.cons rfl
    · by_cases hut : t = u
      · subst hut
        simpa using h.slot
      · simpa [Function.update_of_ne hut] using h.slot
    · exact Nat.le_refl _
    · simp
    · exact fun ht => ⟨by simpa [State.polling, hticks] using ht, by simp⟩
  · have hut : t ≠ u := by
      rintro rfl
      rw [h.slot] at hfuture
      exact hfuture rfl
    apply h.cons rfl
    · simpa [Function.update_of_ne hut] using h.slot
    · exact Nat.le_refl _
    · simp [Ne.symm hut]
    · intro ht
      refine ⟨?_, by simp⟩
      simpa [State.polling, hticks, hut] using ht

/-- A poll that returns suspended puts its future back, and is of another task. -/
theorem Gone.ret (h : Gone t s₁ s) (hpolls : OwnPolls s) {k n : ℕ} {u : TaskId}
    {rest : List TaskId} {outer : List Tick} {pending : Bool}
    (hticks : s.ticks = ⟨k, rest, some u, n⟩ :: outer) (hok : Finishing t s (.ret pending)) :
    Gone t s₁ { s with
      inner := if pending then Function.update s.inner u { s.inner u with future := true }
        else s.inner
      ticks := ⟨k, rest, none, n⟩ :: outer
      trace := .returned u (!pending) :: s.trace } := by
  have hpolling : s.polling = u :: outer.filterMap Tick.polling := by
    simp [State.polling, hticks]
  have hnodup := List.nodup_cons.mp (hpolling ▸ hpolls.distinct)
  apply h.cons rfl
  · cases pending with
    | false => simpa using h.slot
    | true =>
        have hut : t ≠ u := by
          rintro rfl
          exact hok rfl (by simp [State.current, hticks])
        simpa [Function.update_of_ne hut] using h.slot
  · exact Nat.le_refl _
  · simp
  · intro ht
    have hin : t ∈ outer.filterMap Tick.polling := by simpa [State.polling] using ht
    have hut : u ≠ t := by
      rintro rfl
      exact hnodup.1 hin
    exact ⟨by simp [hpolling, hin], by simp [hut]⟩

theorem Gone.later (h : Gone t s₁ s) (hpolls : OwnPolls s) (hok : Finishing t s a)
    (hstep : step s a = some s') : Gone t s₁ s' := by
  cases a with
  | spawn =>
      simp only [LocalExecutor.step] at hstep
      split_ifs at hstep
      cases hstep
      exact h.spawn
  | wake u =>
      simp only [LocalExecutor.step] at hstep
      split_ifs at hstep
      cases hstep
      exact h.wake u
  | drop u =>
      simp only [LocalExecutor.step] at hstep
      split_ifs at hstep
      cases hstep
      exact h.drop u
  | tick =>
      simp only [LocalExecutor.step] at hstep
      split_ifs at hstep
      cases hstep
      apply h.cons rfl
      · exact h.slot
      · exact Nat.le_refl _
      · simp
      · exact fun ht => ⟨by simpa [State.polling] using ht, by simp⟩
  | next =>
      simp only [LocalExecutor.step] at hstep
      split at hstep
      · rename_i k u rest n outer hticks
        cases hstep
        exact h.reach hticks
      · cases hstep
  | sweep =>
      simp only [LocalExecutor.step] at hstep
      split at hstep
      · rename_i k n outer hticks
        cases hstep
        apply h.cons rfl
        · exact h.slot
        · exact Nat.le_refl _
        · simp
        · exact fun ht => ⟨by simpa [State.polling, hticks] using ht, by simp⟩
      · cases hstep
  | ret pending =>
      simp only [LocalExecutor.step] at hstep
      split at hstep
      · rename_i k rest u n outer hticks
        cases hstep
        exact h.ret hpolls hticks hok
      · cases hstep

/-! ## The run in which the task stays suspended -/

/-- A tick without the task in what is left of its snapshot. -/
def Tick.without (t : TaskId) (k : Tick) : Tick :=
  { k with rest := k.rest.filter (· ≠ t) }

/-- The state `s'` of the second run against the state `s` in which the task is cancelled. -/
structure Twin (t : TaskId) (s s' : State) : Prop where
  slots : ∀ u, u ≠ t → s'.inner u = s.inner u
  slot : (s.inner t).future = false
  flag : (s'.inner t).ready = false
  old : t < s.nextTask
  dropped : .dropped t ∈ s.trace
  nextTask : s'.nextTask = s.nextTask
  nextTick : s'.nextTick = s.nextTick
  tasks : s'.tasks.filter (· ≠ t) = s.tasks.filter (· ≠ t)
  ticks : s'.ticks.map (Tick.without t) = s.ticks.map (Tick.without t)
  trace : others t s'.trace = others t s.trace

theorem Event.without_eq {e e' : Event} (h : e.without t = some e')
    (hother : ∀ k n ts, e' ≠ .began k n ts) : e = e' := by
  cases e with
  | began k n ts =>
      simp only [Event.without, Option.some.injEq] at h
      exact absurd h.symm (hother k n _)
  | ended => simpa [Event.without] using h
  | _ =>
      simp only [Event.without] at h
      split_ifs at h
      exact Option.some.inj h

theorem mem_others {trace : List Event} {e : Event} (he : e.without t = some e)
    (hother : ∀ k n ts, e ≠ .began k n ts) : e ∈ others t trace ↔ e ∈ trace := by
  simp only [others, List.mem_filterMap]
  constructor
  · rintro ⟨e', hmem, heq⟩
    exact Event.without_eq heq hother ▸ hmem
  · exact fun hmem => ⟨e, hmem, he⟩

section Twins

variable (h : Twin t s s')

include h

theorem Twin.handleAlive (hut : u ≠ t) : HandleAlive s'.trace u ↔ HandleAlive s.trace u := by
  have hspawned : ∀ trace, .spawned u ∈ others t trace ↔ .spawned u ∈ trace := fun trace =>
    mem_others (by simp [Event.without, hut]) (by simp)
  have hdropped : ∀ trace, .dropped u ∈ others t trace ↔ .dropped u ∈ trace := fun trace =>
    mem_others (by simp [Event.without, hut]) (by simp)
  unfold HandleAlive
  rw [← hspawned, ← hdropped, h.trace, hspawned, hdropped]

theorem Twin.length : s'.ticks.length = s.ticks.length := by
  have hlength := congrArg List.length h.ticks
  simpa using hlength

/-- The innermost ticks of the two runs differ in the task only. -/
theorem Twin.innermost {k : Tick} {outer : List Tick} (hticks : s.ticks = k :: outer) :
    ∃ rest outer', s'.ticks = { k with rest := rest } :: outer' ∧
      rest.filter (· ≠ t) = k.rest.filter (· ≠ t) ∧
      outer'.map (Tick.without t) = outer.map (Tick.without t) := by
  have hmap := h.ticks
  rw [hticks] at hmap
  cases hs' : s'.ticks with
  | nil => simp [hs'] at hmap
  | cons k' outer' =>
      rw [hs'] at hmap
      simp only [List.map_cons, List.cons.injEq, Tick.without, Tick.mk.injEq] at hmap
      obtain ⟨⟨hid, hrest, hpolling, hpolled⟩, houter⟩ := hmap
      refine ⟨k'.rest, outer', ?_, hrest, houter⟩
      rw [← hid, ← hpolling, ← hpolled]

theorem Twin.inUserCode : s'.inUserCode = s.inUserCode := by
  cases hticks : s.ticks with
  | nil =>
      have hnil := h.length
      rw [hticks] at hnil
      simp [State.inUserCode, hticks, List.length_eq_zero_iff.mp hnil]
  | cons k outer =>
      obtain ⟨rest, outer', hs', -, -⟩ := h.innermost hticks
      simp [State.inUserCode, hticks, hs']

/-- The second run passes over the task. -/
theorem Twin.pass {k n : ℕ} {rest : List TaskId} {outer : List Tick}
    (hticks : s'.ticks = ⟨k, t :: rest, none, n⟩ :: outer) :
    ∃ s'', step s' .next = some s'' ∧ Twin t s s'' ∧ s''.ticks = ⟨k, rest, none, n⟩ :: outer := by
  refine ⟨reach s' ⟨k, t :: rest, none, n⟩ t rest outer, by simp [step, hticks], ?_, ?_⟩
  · have hreach : reach s' ⟨k, t :: rest, none, n⟩ t rest outer =
        { s' with
          ticks := ⟨k, rest, none, n⟩ :: outer
          trace := .reached k t false :: s'.trace } := by
      simp [reach, h.flag]
    rw [hreach]
    refine ⟨h.slots, h.slot, h.flag, h.old, h.dropped, h.nextTask, h.nextTick, h.tasks, ?_, ?_⟩
    · rw [← h.ticks, hticks]
      simp [Tick.without]
    · rw [← h.trace]
      simp [others, Event.without]
  · simp [reach, h.flag]

/-- The second run passes over the task until it is at another one, or at the end. -/
theorem Twin.catchUp {k n : ℕ} {rest : List TaskId} {outer : List Tick}
    (hticks : s'.ticks = ⟨k, rest, none, n⟩ :: outer) :
    ∃ s'' rest', Reaches step (Idle t) s' s'' ∧ Twin t s s'' ∧
      s''.ticks = ⟨k, rest', none, n⟩ :: outer ∧ rest'.head? ≠ some t ∧
      rest'.filter (· ≠ t) = rest.filter (· ≠ t) := by
  induction rest generalizing s' with
  | nil => exact ⟨s', [], .start, h, hticks, by simp, rfl⟩
  | cons u rest ih =>
      by_cases hut : u = t
      · subst hut
        obtain ⟨s₃, hstep, htwin, hticks₃⟩ := h.pass hticks
        obtain ⟨s'', rest', hrun, htwin', hticks', hhead, hfilter⟩ := ih htwin hticks₃
        refine ⟨s'', rest', ?_, htwin', hticks', hhead, by simpa using hfilter⟩
        have hfirst : Reaches step (Idle u) s' s₃ :=
          .step .next .start ⟨by simp, by simp, by simp⟩ hstep
        exact hfirst.trans hrun
      · exact ⟨s', u :: rest, .start, h, hticks, by simp [hut], rfl⟩

theorem Twin.spawn (hcode : s.inUserCode = true) :
    ∃ s'', step s' .spawn = some s'' ∧ Twin t (spawn s) s'' := by
  have hne : t ≠ s.nextTask := Nat.ne_of_lt h.old
  refine ⟨LocalExecutor.spawn s', by simp [step, h.inUserCode, hcode], ?_⟩
  unfold LocalExecutor.spawn
  refine ⟨?_, ?_, ?_, Nat.lt_succ_of_lt h.old, List.mem_cons_of_mem _ h.dropped, ?_, h.nextTick, ?_,
    h.ticks, ?_⟩
  · intro u hut
    rw [h.nextTask]
    by_cases hun : u = s.nextTask
    · simp [hun]
    · simp only [Function.update_of_ne hun]
      exact h.slots u hut
  · simpa [Function.update_of_ne hne] using h.slot
  · simpa [h.nextTask, Function.update_of_ne hne] using h.flag
  · simp [h.nextTask]
  · rw [List.filter_append, List.filter_append, h.tasks, h.nextTask]
  · rw [h.nextTask]
    simpa [others, Event.without, Ne.symm hne] using h.trace

theorem Twin.wake (hold : u < s.nextTask) :
    ∃ s'', Reaches step (Idle t) s' s'' ∧ Twin t (wake s u) s'' := by
  unfold LocalExecutor.wake
  by_cases hut : u = t
  · subst hut
    refine ⟨s', .start, ?_, ?_, h.flag, h.old, List.mem_cons_of_mem _ h.dropped, h.nextTask,
      h.nextTick, h.tasks, h.ticks, ?_⟩
    · intro v hv
      simpa [Function.update_of_ne hv] using h.slots v hv
    · simpa using h.slot
    · rw [h.trace]
      simp [others, Event.without]
  · refine ⟨LocalExecutor.wake s' u, ?_, ?_⟩
    · apply Reaches.step (.wake u) .start ⟨by simp [hut], by simp, by simp⟩
      simp [step, h.nextTask, hold]
    unfold LocalExecutor.wake
    refine ⟨?_, ?_, ?_, h.old, List.mem_cons_of_mem _ h.dropped, h.nextTask, h.nextTick, h.tasks,
      h.ticks, ?_⟩
    · intro v hv
      by_cases hvu : v = u
      · simp [hvu, h.slots u hut]
      · simpa [Function.update_of_ne hvu] using h.slots v hv
    · simpa [Function.update_of_ne (Ne.symm hut)] using h.slot
    · simpa [Function.update_of_ne (Ne.symm hut)] using h.flag
    · simpa [others, Event.without, hut] using h.trace

theorem Twin.drop (hcode : s.inUserCode = true) (halive : HandleAlive s.trace u) :
    ∃ s'', Reaches step (Idle t) s' s'' ∧ Twin t (dropTask s u) s'' := by
  have hut : u ≠ t := by
    rintro rfl
    exact halive.2 h.dropped
  have hguard : s'.inUserCode = true ∧ HandleAlive s'.trace u :=
    ⟨h.inUserCode.trans hcode, (h.handleAlive hut).mpr halive⟩
  refine ⟨dropTask s' u, ?_, ?_⟩
  · apply Reaches.step (.drop u) .start ⟨by simp, by simp [hut], by simp⟩
    simp [step, hguard]
  unfold dropTask
  refine ⟨?_, ?_, ?_, h.old, List.mem_cons_of_mem _ h.dropped, h.nextTask, h.nextTick, h.tasks,
    h.ticks, ?_⟩
  · intro v hv
    by_cases hvu : v = u
    · simp [hvu, h.slots u hut]
    · simpa [Function.update_of_ne hvu] using h.slots v hv
  · simpa [Function.update_of_ne (Ne.symm hut)] using h.slot
  · simpa [Function.update_of_ne (Ne.symm hut)] using h.flag
  · simpa [others, Event.without, hut] using h.trace

/-- A turn of the loop for another task, which is next in both runs. -/
theorem Twin.reach {k n : ℕ} {rest rest' : List TaskId} {outer outer' : List Tick} (hut : u ≠ t)
    (hrest : rest'.filter (· ≠ t) = rest.filter (· ≠ t))
    (houter : outer'.map (Tick.without t) = outer.map (Tick.without t)) :
    Twin t (reach s ⟨k, u :: rest, none, n⟩ u rest outer)
      (reach s' ⟨k, u :: rest', none, n⟩ u rest' outer') := by
  have hslot := h.slots u hut
  have hother : ∀ (i : TaskInner) v, v ≠ t →
      Function.update s'.inner u i v = Function.update s.inner u i v := by
    intro i v hv
    by_cases hvu : v = u
    · simp [hvu]
    · simpa [Function.update_of_ne hvu] using h.slots v hv
  have hticks : ∀ p m, ((⟨k, rest', p, m⟩ :: outer' : List Tick).map (Tick.without t)) =
      ((⟨k, rest, p, m⟩ :: outer : List Tick).map (Tick.without t)) := by
    intro p m
    simp only [List.map_cons, houter, Tick.without, hrest]
  have htrace : ∀ p, others t (.reached k u p :: s'.trace) = others t (.reached k u p :: s.trace) := by
    intro p
    simpa [others, Event.without, hut] using h.trace
  unfold LocalExecutor.reach
  rw [hslot]
  split_ifs with hready hfuture
  · exact ⟨h.slots, h.slot, h.flag, h.old, List.mem_cons_of_mem _ h.dropped, h.nextTask, h.nextTick,
      h.tasks, hticks _ _, htrace _⟩
  · refine ⟨?_, ?_, ?_, h.old, List.mem_cons_of_mem _ h.dropped, h.nextTask, h.nextTick, h.tasks,
      hticks _ _, htrace _⟩
    · exact hother { s.inner u with ready := false }
    · simpa [Function.update_of_ne (Ne.symm hut)] using h.slot
    · simpa [Function.update_of_ne (Ne.symm hut)] using h.flag
  · refine ⟨?_, ?_, ?_, h.old, List.mem_cons_of_mem _ h.dropped, h.nextTask, h.nextTick, h.tasks,
      hticks _ _, htrace _⟩
    · exact hother ⟨false, false⟩
    · simpa [Function.update_of_ne (Ne.symm hut)] using h.slot
    · simpa [Function.update_of_ne (Ne.symm hut)] using h.flag

theorem Twin.next {k n : ℕ} {rest : List TaskId} {outer : List Tick}
    (hticks : s.ticks = ⟨k, u :: rest, none, n⟩ :: outer) :
    ∃ s'', Reaches step (Idle t) s' s'' ∧
      Twin t (LocalExecutor.reach s ⟨k, u :: rest, none, n⟩ u rest outer) s'' := by
  by_cases hut : u = t
  · subst hut
    refine ⟨s', .start, ?_⟩
    have hmap := h.ticks
    rw [hticks] at hmap
    have hskip : ∀ ready, Twin u { s with
        inner := Function.update s.inner u { s.inner u with ready := ready }
        ticks := ⟨k, rest, none, n⟩ :: outer
        trace := .reached k u false :: s.trace } s' := by
      intro ready
      refine ⟨?_, ?_, h.flag, h.old, List.mem_cons_of_mem _ h.dropped, h.nextTask, h.nextTick,
        h.tasks, ?_, ?_⟩
      · intro v hv
        simpa [Function.update_of_ne hv] using h.slots v hv
      · simpa using h.slot
      · simpa [Tick.without] using hmap
      · simpa [others, Event.without] using h.trace
    unfold LocalExecutor.reach
    split_ifs with hready hfuture
    · have hsame : Function.update s.inner u { s.inner u with ready := (s.inner u).ready } = s.inner :=
        Function.update_eq_self u s.inner
      have hkeep := hskip (s.inner u).ready
      rw [hsame] at hkeep
      exact hkeep
    · exact hskip false
    · rw [h.slot] at hfuture
      exact absurd rfl hfuture
  · obtain ⟨rest₀, outer', hticks₀, hrest₀, houter⟩ := h.innermost hticks
    obtain ⟨s'', rest', hrun, htwin, hticks', hhead, hfilter⟩ := h.catchUp hticks₀
    have hsplit : rest'.filter (· ≠ t) = u :: rest.filter (· ≠ t) := by
      rw [hfilter, hrest₀]
      simp [hut]
    cases rest' with
    | nil => cases hsplit
    | cons v rest' =>
        have hvt : v ≠ t := by simpa using hhead
        simp only [ne_eq, hvt, not_false_eq_true, decide_true, List.filter_cons_of_pos,
          List.cons.injEq] at hsplit
        obtain ⟨rfl, hrest⟩ := hsplit
        refine ⟨_, hrun.trans (.step .next .start ⟨by simp, by simp, by simp⟩ ?_),
          htwin.reach hut hrest houter⟩
        simp [step, hticks']

theorem Twin.tick (hcode : s.inUserCode = true) :
    ∃ s'', step s' .tick = some s'' ∧ Twin t { s with
      ticks := ⟨s.nextTick, s.tasks, none, 0⟩ :: s.ticks
      nextTick := s.nextTick + 1
      trace := .began s.nextTick s.ticks.length s.tasks :: s.trace } s'' := by
  refine ⟨{ s' with
    ticks := ⟨s'.nextTick, s'.tasks, none, 0⟩ :: s'.ticks
    nextTick := s'.nextTick + 1
    trace := .began s'.nextTick s'.ticks.length s'.tasks :: s'.trace }, ?_, ?_⟩
  · simp [step, h.inUserCode, hcode]
  refine ⟨h.slots, h.slot, h.flag, h.old, List.mem_cons_of_mem _ h.dropped, h.nextTask, ?_, h.tasks,
    ?_, ?_⟩
  · simp [h.nextTick]
  · simp only [List.map_cons, Tick.without, h.tasks, h.nextTick]
    exact congrArg _ h.ticks
  · simp only [others, List.filterMap_cons, Event.without, h.tasks, h.nextTick, h.length]
    exact congrArg _ h.trace

theorem Twin.sweep {k n : ℕ} {outer : List Tick} (hticks : s.ticks = ⟨k, [], none, n⟩ :: outer) :
    ∃ s'', Reaches step (Idle t) s' s'' ∧ Twin t { s with
      tasks := s.tasks.filter fun t => (s.inner t).future
      ticks := outer
      trace := .ended k n :: s.trace } s'' := by
  obtain ⟨rest₀, outer', hticks₀, hrest₀, houter⟩ := h.innermost hticks
  obtain ⟨s'', rest', hrun, htwin, hticks', hhead, hfilter⟩ := h.catchUp hticks₀
  have hnil : rest' = [] := by
    rw [hrest₀] at hfilter
    cases rest' with
    | nil => rfl
    | cons v rest' =>
        have hvt : v ≠ t := by simpa using hhead
        simp [hvt] at hfilter
  subst hnil
  refine ⟨{ s'' with
    tasks := s''.tasks.filter fun t => (s''.inner t).future
    ticks := outer'
    trace := .ended k n :: s''.trace }, ?_, ?_⟩
  · refine hrun.trans (.step .sweep .start ⟨by simp, by simp, by simp⟩ ?_)
    simp [step, hticks']
  refine ⟨htwin.slots, htwin.slot, htwin.flag, htwin.old, List.mem_cons_of_mem _ htwin.dropped,
    htwin.nextTask, htwin.nextTick, ?_, houter, ?_⟩
  · rw [List.filter_comm, List.filter_comm (l := s.tasks), htwin.tasks]
    apply List.filter_congr
    intro v hv
    have hvt : v ≠ t := by simpa using (List.mem_filter.mp hv).2
    rw [htwin.slots v hvt]
  · simpa [others, Event.without] using htwin.trace

theorem Twin.ret {k n : ℕ} {rest : List TaskId} {outer : List Tick} {pending : Bool}
    (hticks : s.ticks = ⟨k, rest, some u, n⟩ :: outer) (hok : u = t → pending = false) :
    ∃ s'', Reaches step (Idle t) s' s'' ∧ Twin t { s with
      inner := if pending then Function.update s.inner u { s.inner u with future := true }
        else s.inner
      ticks := ⟨k, rest, none, n⟩ :: outer
      trace := .returned u (!pending) :: s.trace } s'' := by
  obtain ⟨rest', outer', hticks', hrest, houter⟩ := h.innermost hticks
  have hmap : ((⟨k, rest', none, n⟩ :: outer' : List Tick).map (Tick.without t)) =
      ((⟨k, rest, none, n⟩ :: outer : List Tick).map (Tick.without t)) := by
    simp only [List.map_cons, houter, Tick.without, hrest]
  -- Where the poll of the task completes in the first run, it suspends in the second one.
  let back := if u = t then true else pending
  refine ⟨{ s' with
    inner := if back then Function.update s'.inner u { s'.inner u with future := true }
      else s'.inner
    ticks := ⟨k, rest', none, n⟩ :: outer'
    trace := .returned u (!back) :: s'.trace }, ?_, ?_⟩
  · refine .step (.ret back) .start ⟨by simp, by simp, ?_⟩ (by simp [step, hticks'])
    intro hback
    have hut : u ≠ t := by
      rintro rfl
      simp [back] at hback
    simp [State.current, hticks', hut]
  by_cases hut : u = t
  · subst hut
    have hfinished := hok rfl
    subst hfinished
    refine ⟨?_, by simpa using h.slot, ?_, h.old, List.mem_cons_of_mem _ h.dropped, h.nextTask,
      h.nextTick, h.tasks, hmap, ?_⟩
    · intro v hv
      simpa [back, Function.update_of_ne hv] using h.slots v hv
    · simpa [back] using h.flag
    · simpa [others, Event.without] using h.trace
  · have hback : back = pending := if_neg hut
    have hinner : ∀ (inner : TaskId → TaskInner) v, v ≠ u → (if pending then
        Function.update inner u { inner u with future := true } else inner) v = inner v := by
      intro inner v hv
      cases pending <;> simp [Function.update_of_ne hv]
    rw [hback]
    refine ⟨?_, ?_, ?_, h.old, List.mem_cons_of_mem _ h.dropped, h.nextTask, h.nextTick, h.tasks,
      hmap, ?_⟩
    · intro v hv
      by_cases hvu : v = u
      · subst hvu
        cases pending <;> simp [h.slots v hv]
      · simp only [hinner _ v hvu]
        exact h.slots v hv
    · simp only [hinner _ t (Ne.symm hut)]
      exact h.slot
    · simp only [hinner _ t (Ne.symm hut)]
      exact h.flag
    · simpa [others, Event.without, hut] using h.trace

/-- The second run matches each step of the first. -/
theorem Twin.follow (hok : Finishing t s a) (hstep : step s a = some s₁) :
    ∃ s'', Reaches step (Idle t) s' s'' ∧ Twin t s₁ s'' := by
  cases a with
  | spawn =>
      simp only [LocalExecutor.step] at hstep
      split_ifs at hstep with hcode
      cases hstep
      obtain ⟨s'', hs'', htwin⟩ := h.spawn hcode
      exact ⟨s'', .step .spawn .start ⟨by simp, by simp, by simp⟩ hs'', htwin⟩
  | wake u =>
      simp only [LocalExecutor.step] at hstep
      split_ifs at hstep with hold
      cases hstep
      exact h.wake hold
  | drop u =>
      simp only [LocalExecutor.step] at hstep
      split_ifs at hstep with hguard
      cases hstep
      exact h.drop hguard.1 hguard.2
  | tick =>
      simp only [LocalExecutor.step] at hstep
      split_ifs at hstep with hcode
      cases hstep
      obtain ⟨s'', hs'', htwin⟩ := h.tick hcode
      exact ⟨s'', .step .tick .start ⟨by simp, by simp, by simp⟩ hs'', htwin⟩
  | next =>
      simp only [LocalExecutor.step] at hstep
      split at hstep
      · rename_i k u rest n outer hticks
        cases hstep
        exact h.next hticks
      · cases hstep
  | sweep =>
      simp only [LocalExecutor.step] at hstep
      split at hstep
      · rename_i k n outer hticks
        cases hstep
        exact h.sweep hticks
      · cases hstep
  | ret pending =>
      simp only [LocalExecutor.step] at hstep
      split at hstep
      · rename_i k rest u n outer hticks
        cases hstep
        apply h.ret hticks
        intro hut
        cases pending with
        | false => rfl
        | true => exact absurd (by simp [State.current, hticks, hut]) (hok rfl)
      · cases hstep

end Twins

/-- Without the drop, and with the task not woken. -/
theorem Twin.start (h : OwnPolls s₁) (hstep : step s₁ (.drop t) = some s₂) :
    Twin t s₂ (unwoken s₁ t) := by
  simp only [step] at hstep
  split_ifs at hstep with hguard
  cases hstep
  unfold dropTask unwoken
  refine ⟨?_, by simp, by simp, h.spawned t hguard.2.1, List.mem_cons_self, rfl, rfl, rfl, rfl, ?_⟩
  · intro u hut
    simp [Function.update_of_ne hut]
  · simp [others, Event.without]

/-! ## Every run after a drop -/

theorem ownPolls_of_reaches {ok : State → Action → Prop} (h : Reaches step ok .new s) :
    OwnPolls s :=
  h.invariant .init fun _ _ _ hpolls _ hstep => hpolls.later hstep

theorem Gone.cancelledSince (h : Gone t s₁ s)
    (hothers : ∃ s', Reaches step (Idle t) (unwoken s₁ t) s' ∧ Twin t s s') :
    CancelledSince t s₁ s := by
  refine ⟨?_, ?_⟩
  · obtain ⟨l, hl, hnever, hin⟩ := h.history
    refine ⟨l, hl, hnever, ?_⟩
    rintro hend (hslot | hpoll)
    · rw [h.slot] at hslot
      cases hslot
    · obtain ⟨hold, hreturned⟩ := hin hpoll
      rcases hend with hnot | ⟨b, hb⟩
      · exact hnot hold
      · exact hreturned b hb
  · obtain ⟨s', hrun, htwin⟩ := hothers
    exact ⟨s', hrun, htwin.trace⟩

/-- While no poll of the task suspends after its handle was dropped, the run does what a
cancellation asks. -/
theorem cancelledSince_of_finishing {ok : State → Action → Prop} (h₁ : Reaches step ok .new s₁)
    (hdrop : step s₁ (.drop t) = some s₂) (h : Reaches step (Finishing t) s₂ s) :
    Gone t s₁ s ∧ OwnPolls s ∧ CancelledSince t s₁ s := by
  have hpolls := ownPolls_of_reaches h₁
  have hinv : Gone t s₁ s ∧ OwnPolls s := by
    refine h.invariant (P := fun s => Gone t s₁ s ∧ OwnPolls s)
      ⟨.start hpolls hdrop, hpolls.later hdrop⟩ ?_
    intro s a s' hI hok hstep
    exact ⟨hI.1.later hI.2 hok hstep, hI.2.later hstep⟩
  refine ⟨hinv.1, hinv.2, hinv.1.cancelledSince ?_⟩
  exact h.simulate (Twin.start hpolls hdrop) fun _ _ _ _ htwin hok hstep => htwin.follow hok hstep

theorem not_cancelledSince (h : Gone t s₁ s) (hok : ¬ Finishing t s a)
    (hstep : step s a = some s') : ¬ CancelledSince t s₁ s' := by
  intro hcancelled
  simp only [Finishing, Classical.not_imp, not_not] at hok
  obtain ⟨hret, hcurrent⟩ := hok
  subst hret
  obtain ⟨l, hl, -, hgone⟩ := hcancelled.gone
  simp only [step] at hstep
  split at hstep
  · rename_i k rest u n outer hticks
    cases hstep
    have hut : u = t := by simpa [State.current, hticks] using hcurrent
    subst hut
    obtain ⟨m, hm, -, -⟩ := h.history
    have hlater : l = .returned u false :: m := by
      have heq : l ++ .dropped u :: s₁.trace =
          (.returned u false :: m) ++ .dropped u :: s₁.trace := by
        rw [← hl, List.cons_append, ← hm]
        rfl
      exact List.append_cancel_right heq
    refine hgone (.inr ⟨false, ?_⟩) (.inl (by simp))
    rw [hlater]
    exact List.mem_cons_self
  · cases hstep

/-- After the drop of a handle the run does what a cancellation asks until a step ends a poll of
the task with `Pending`, and no longer. -/
theorem task_cancelled_iff (h₁ : Reaches step (fun _ _ => True) .new s₁)
    (hdrop : step s₁ (.drop t) = some s₂) (h : Reaches step (Finishing t) s₂ s) :
    CancelledSince t s₁ s ∧
      ∀ a s', step s a = some s' → (CancelledSince t s₁ s' ↔ Finishing t s a) := by
  obtain ⟨hgone, -, hcancelled⟩ := cancelledSince_of_finishing h₁ hdrop h
  refine ⟨hcancelled, fun a s' hstep => ⟨fun hs' => ?_, fun hok => ?_⟩⟩
  · by_contra hok
    exact not_cancelledSince hgone hok hstep hs'
  · exact (cancelledSince_of_finishing h₁ hdrop (.step a h hok hstep)).2.2

instance (t : TaskId) (s : State) (a : Action) : Decidable (Finishing t s a) :=
  inferInstanceAs (Decidable (_ → _))

/-- One task is dropped in the poll of another one, while woken. -/
theorem task_cancelled_by_sibling : ∃ s₁ s₂ s, Reaches step (fun _ _ => True) .new s₁ ∧
    step s₁ (.drop 1) = some s₂ ∧ Reaches step (Finishing 1) s₂ s ∧ s.ticks = [] ∧
    Event.reached 0 1 false ∈ s.trace ∧ CancelledSince 1 s₁ s := by
  let before : List Action := [.spawn, .spawn, .tick, .next]
  let after : List Action := [.ret true, .next, .sweep]
  have hrun : ((replay step (fun _ _ => True) before .new).bind fun s₁ =>
      (step s₁ (.drop 1)).bind fun s₂ => (replay step (Finishing 1) after s₂).map fun s =>
        (s.ticks, decide (Event.reached 0 1 false ∈ s.trace))) = some ([], true) := by
    decide +kernel
  obtain ⟨s₁, h₁, hrest⟩ := Option.bind_eq_some_iff.mp hrun
  obtain ⟨s₂, h₂, hrest⟩ := Option.bind_eq_some_iff.mp hrest
  obtain ⟨s, hs, hfacts⟩ := Option.map_eq_some_iff.mp hrest
  simp only [Prod.mk.injEq, decide_eq_true_eq] at hfacts
  have hreach₁ := replay_reaches before h₁
  have hreach := replay_reaches after hs
  exact ⟨s₁, s₂, s, hreach₁, h₂, hreach, hfacts.1, hfacts.2,
    (task_cancelled_iff hreach₁ h₂ hreach).1⟩

/-- A poll drops the handle of its own task and suspends; woken, the task is polled again. -/
theorem self_dropped_task_polled_again : ∃ s₁ s₂ s, Reaches step (fun _ _ => True) .new s₁ ∧
    step s₁ (.drop 0) = some s₂ ∧ Reaches step (fun _ _ => True) s₂ s ∧
    ∃ l, s.trace = l ++ .dropped 0 :: s₁.trace ∧ .reached 1 0 true ∈ l := by
  let before : List Action := [.spawn, .tick, .next]
  let after : List Action := [.ret true, .sweep, .wake 0, .tick, .next]
  have hrun : ((replay step (fun _ _ => True) before .new).bind fun s₁ =>
      (step s₁ (.drop 0)).bind fun s₂ => (replay step (fun _ _ => True) after s₂).map fun s =>
        (s₁.trace, s.trace)) =
      some ([.reached 0 0 true, .began 0 0 [0], .spawned 0],
        [.reached 1 0 true, .began 1 0 [0], .woken 0, .ended 0 1, .returned 0 false, .dropped 0,
          .reached 0 0 true, .began 0 0 [0], .spawned 0]) := by
    decide +kernel
  obtain ⟨s₁, h₁, hrest⟩ := Option.bind_eq_some_iff.mp hrun
  obtain ⟨s₂, h₂, hrest⟩ := Option.bind_eq_some_iff.mp hrest
  obtain ⟨s, hs, hfacts⟩ := Option.map_eq_some_iff.mp hrest
  simp only [Prod.mk.injEq] at hfacts
  refine ⟨s₁, s₂, s, replay_reaches before h₁, h₂, replay_reaches after hs, ?_⟩
  rw [hfacts.1, hfacts.2]
  exact ⟨[.reached 1 0 true, .began 1 0 [0], .woken 0, .ended 0 1, .returned 0 false], rfl, by simp⟩

end FlowiVfs.LocalExecutor
