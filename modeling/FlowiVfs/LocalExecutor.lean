import FlowiVfs.Transition
import Mathlib

/-!
# The frame-ticked executor

`LocalExecutor` of the Rust crate: a registry of tasks, each a slot for its future
and a flag that its wakers set, and `tick`, which polls the tasks of a snapshot of
the registry and then sweeps out those whose slot is empty. A poll takes the future
out of the slot and runs arbitrary code, which may spawn, wake, drop `Task` handles
and call `tick` again; so the ticks in progress form a stack. Wakers act on any
thread and hence at any time, everything else only where user code runs.

`trace` records what happened, newest first. The code reads none of it; whether a
`Task` handle still exists, which the owner knows, is read off it.
-/
namespace FlowiVfs.LocalExecutor

open Transition

abbrev TaskId := ℕ

/-- `TaskInner`: whether the slot holds the future, and the flag the wakers set. -/
structure TaskInner where
  future : Bool
  ready : Bool
deriving DecidableEq, Repr

/-- A `tick` in progress: what is left of its snapshot, the task whose poll it is in,
and the count it will return. -/
structure Tick where
  id : ℕ
  rest : List TaskId
  polling : Option TaskId
  polled : ℕ
deriving DecidableEq, Repr

inductive Event
  | spawned (t : TaskId)
  | woken (t : TaskId)
  /-- The `Task` handle was dropped. -/
  | dropped (t : TaskId)
  /-- A tick took its snapshot, with `depth` other ticks in progress. -/
  | began (tick depth : ℕ) (snapshot : List TaskId)
  /-- A tick came to a task of its snapshot and polled it or not. -/
  | reached (tick : ℕ) (t : TaskId) (polled : Bool)
  | returned (t : TaskId) (finished : Bool)
  | ended (tick polled : ℕ)
deriving DecidableEq, Repr

/-- The `Task` handle exists. -/
def HandleAlive (trace : List Event) (t : TaskId) : Prop :=
  .spawned t ∈ trace ∧ .dropped t ∉ trace

instance (trace : List Event) (t : TaskId) : Decidable (HandleAlive trace t) :=
  inferInstanceAs (Decidable (_ ∧ _))

structure State where
  /-- The registry. -/
  tasks : List TaskId
  inner : TaskId → TaskInner
  nextTask : TaskId
  /-- The ticks in progress, innermost first. -/
  ticks : List Tick
  nextTick : ℕ
  trace : List Event

/-- `LocalExecutor::new`. -/
def State.new : State where
  tasks := []
  inner := fun _ => ⟨false, false⟩
  nextTask := 0
  ticks := []
  nextTick := 0
  trace := []

/-- The executor's thread is in user code: outside every tick, or in a poll. -/
def State.inUserCode (s : State) : Bool :=
  match s.ticks with
  | [] => true
  | k :: _ => k.polling.isSome

inductive Action
  | spawn
  | wake (t : TaskId)
  | drop (t : TaskId)
  /-- `tick` up to its loop, one turn of the loop up to the poll, and the sweep at its end. -/
  | tick
  | next
  | sweep
  /-- A poll returns; one that is ready ends when its future has been dropped. -/
  | ret (pending : Bool)
deriving DecidableEq, Repr

/-- `LocalExecutor::spawn`. -/
def spawn (s : State) : State :=
  { s with
    tasks := s.tasks ++ [s.nextTask]
    inner := Function.update s.inner s.nextTask ⟨true, true⟩
    nextTask := s.nextTask + 1
    trace := .spawned s.nextTask :: s.trace }

/-- `wake` and `wake_by_ref`. -/
def wake (s : State) (t : TaskId) : State :=
  { s with
    inner := Function.update s.inner t { s.inner t with ready := true }
    trace := .woken t :: s.trace }

/-- `drop` of a `Task`. -/
def dropTask (s : State) (t : TaskId) : State :=
  { s with
    inner := Function.update s.inner t { s.inner t with future := false }
    trace := .dropped t :: s.trace }

/-- The body of the loop of `tick` for task `t`, up to its poll. -/
def reach (s : State) (k : Tick) (t : TaskId) (rest : List TaskId) (outer : List Tick) : State :=
  if !(s.inner t).ready then
    { s with ticks := { k with rest := rest } :: outer, trace := .reached k.id t false :: s.trace }
  else if !(s.inner t).future then
    { s with
      inner := Function.update s.inner t { s.inner t with ready := false }
      ticks := { k with rest := rest } :: outer
      trace := .reached k.id t false :: s.trace }
  else
    { s with
      inner := Function.update s.inner t ⟨false, false⟩
      ticks := ⟨k.id, rest, some t, k.polled + 1⟩ :: outer
      trace := .reached k.id t true :: s.trace }

def step (s : State) : Action → Option State
  | .spawn => if s.inUserCode then some (spawn s) else none
  | .wake t => if t < s.nextTask then some (wake s t) else none
  | .drop t => if s.inUserCode ∧ HandleAlive s.trace t then some (dropTask s t) else none
  | .tick =>
      if s.inUserCode then
        some { s with
          ticks := ⟨s.nextTick, s.tasks, none, 0⟩ :: s.ticks
          nextTick := s.nextTick + 1
          trace := .began s.nextTick s.ticks.length s.tasks :: s.trace }
      else none
  | .next =>
      match s.ticks with
      | ⟨k, t :: rest, none, n⟩ :: outer => some (reach s ⟨k, t :: rest, none, n⟩ t rest outer)
      | _ => none
  | .sweep =>
      match s.ticks with
      | ⟨k, [], none, n⟩ :: outer =>
          some { s with
            tasks := s.tasks.filter fun t => (s.inner t).future
            ticks := outer
            trace := .ended k n :: s.trace }
      | _ => none
  | .ret pending =>
      match s.ticks with
      | ⟨k, rest, some t, n⟩ :: outer =>
          some { s with
            inner := if pending then Function.update s.inner t { s.inner t with future := true }
              else s.inner
            ticks := ⟨k, rest, none, n⟩ :: outer
            trace := .returned t (!pending) :: s.trace }
      | _ => none

/-! ## What is asked of a run -/

/-- Not completed, and its handle not dropped. -/
def Live (trace : List Event) (t : TaskId) : Prop :=
  HandleAlive trace t ∧ .returned t true ∉ trace

instance (trace : List Event) (t : TaskId) : Decidable (Live trace t) :=
  inferInstanceAs (Decidable (_ ∧ _))

/-- The task was spawned or woken since its last poll began. -/
def wokenSince : List Event → TaskId → Bool
  | [], _ => false
  | .spawned u :: τ, t | .woken u :: τ, t => u == t || wokenSince τ t
  | .reached _ u true :: τ, t => u != t && wokenSince τ t
  | _ :: τ, t => wokenSince τ t

/-- The tasks a tick has come to, in order. -/
def reachedBy (k : ℕ) : List Event → List TaskId
  | [] => []
  | .reached j t _ :: τ => if j = k then reachedBy k τ ++ [t] else reachedBy k τ
  | _ :: τ => reachedBy k τ

/-- The task was polled after `early`, in what `late` adds to it. -/
def PolledAfter (early late : List Event) (t : TaskId) : Prop :=
  ∃ j τ, .reached j t true :: τ <:+ late ∧ early <:+ τ

structure Sound (s : State) : Prop where
  /-- A tick polls a task it comes to exactly if it is live and was woken. -/
  polls : ∀ τ k t p, .reached k t p :: τ <:+ s.trace →
    (p = true ↔ Live τ t ∧ wokenSince τ t = true)
  /-- A tick comes to the tasks of the registry as it was at its beginning, each once and in the
  order of registration; none of them was spawned later. -/
  order : ∀ τ k n ts, .began k n ts :: τ <:+ s.trace → ts.Pairwise (· < ·) ∧
    (∀ t ∈ ts, .spawned t ∈ τ) ∧ reachedBy k s.trace <+: ts ∧
      ∀ m, .ended k m ∈ s.trace → reachedBy k s.trace = ts
  /-- Outside every tick the live tasks are registered. -/
  registered : s.ticks = [] → ∀ t, Live s.trace t → t ∈ s.tasks
  /-- A task that is live and woken when an outermost tick begins is polled before that tick is
  past it, or cancelled. -/
  kept : ∀ τ k ts m, .began k 0 ts :: τ <:+ s.trace → .ended k m ∈ s.trace →
    ∀ t, Live τ t → wokenSince τ t = true → ∃ τ' p, .reached k t p :: τ' <:+ s.trace ∧
      (p = true ∨ PolledAfter (.began k 0 ts :: τ) τ' t ∨ .dropped t ∈ τ')

/-! ## The condition -/

/-- No tick has ended since the task's last poll began. -/
def calm : List Event → TaskId → Bool
  | [], _ => false
  | .reached _ u true :: τ, t => u == t || calm τ t
  | .ended _ _ :: _, _ => false
  | _ :: τ, t => calm τ t

/-- The tasks whose polls are in progress. -/
def State.polling (s : State) : List TaskId := s.ticks.filterMap Tick.polling

/-- The task the innermost tick comes to next, and the one it is polling. -/
def State.reaching (s : State) : Option TaskId :=
  match s.ticks with
  | ⟨_, t :: _, none, _⟩ :: _ => some t
  | _ => none

def State.current (s : State) : Option TaskId := s.ticks.head?.bind Tick.polling

/-- Nested ticks do no harm: a tick that comes to a woken task does not find it in the middle of
a poll, nor cancelled in the middle of a poll that then returned; and no nested tick has swept
when the poll of a task that goes on returns. -/
def Undisturbed (s : State) : Action → Prop
  | .next => ∀ t ∈ s.reaching, (s.inner t).ready = true →
      (HandleAlive s.trace t → t ∉ s.polling) ∧
        (¬ HandleAlive s.trace t → (s.inner t).future = false)
  | .ret true => ∀ t ∈ s.current, HandleAlive s.trace t → calm s.trace t = true
  | _ => True

instance (s : State) (a : Action) : Decidable (Undisturbed s a) :=
  match a with
  | .next => inferInstanceAs (Decidable (∀ t ∈ s.reaching, (s.inner t).ready = true →
      (HandleAlive s.trace t → t ∉ s.polling) ∧
        (¬ HandleAlive s.trace t → (s.inner t).future = false)))
  | .ret true => inferInstanceAs (Decidable (∀ t ∈ s.current, HandleAlive s.trace t →
      calm s.trace t = true))
  | .ret false | .spawn | .wake _ | .drop _ | .tick | .sweep => inferInstanceAs (Decidable True)

/-! ## Ticks and their snapshots -/

/-- A poll of the task is in progress. -/
def inPoll : List Event → TaskId → Bool
  | [], _ => false
  | .reached _ u true :: τ, t => u == t || inPoll τ t
  | .returned u _ :: τ, t => u != t && inPoll τ t
  | _ :: τ, t => inPoll τ t

/-- What is so when a tick begins. -/
structure Begun (k n : ℕ) (ts : List TaskId) (τ : List Event) : Prop where
  sorted : ts.Pairwise (· < ·)
  spawned : ∀ t ∈ ts, .spawned t ∈ τ
  fresh : ∀ t p, .reached k t p ∉ τ
  outermost : n = 0 → ∀ t, inPoll τ t = false ∧ (Live τ t → t ∈ ts)

/-- The ticks in progress, with what is left of their snapshots, against the trace. -/
structure TickInv (running : List (ℕ × List TaskId)) (next : ℕ) (trace : List Event) : Prop where
  distinct : (running.map Prod.fst).Nodup
  bound : ∀ r ∈ running, r.1 < next
  begun : ∀ τ k n ts, .began k n ts :: τ <:+ trace → Begun k n ts τ ∧ k < next ∧
    ((∃ rest, (k, rest) ∈ running ∧ reachedBy k trace ++ rest = ts) ∨
      ((∀ rest, (k, rest) ∉ running) ∧ reachedBy k trace = ts))
  ended : ∀ k m, .ended k m ∈ trace → k < next ∧ ∀ rest, (k, rest) ∉ running
  reached : ∀ k t p, .reached k t p ∈ trace → k < next

section Ticks

variable {running : List (ℕ × List TaskId)} {next k : ℕ} {trace τ : List Event} {e : Event}
  {t : TaskId} {p : Bool} {rest : List TaskId}

theorem mem_reachedBy : t ∈ reachedBy k trace ↔ ∃ p, .reached k t p ∈ trace := by
  induction trace with
  | nil => simp [reachedBy]
  | cons e trace ih =>
      cases e with
      | reached j u q =>
          by_cases hj : j = k
          · subst hj
            simp only [reachedBy, if_pos, List.mem_append, ih, List.mem_cons, List.not_mem_nil,
              or_false, Event.reached.injEq, true_and]
            constructor
            · rintro (⟨p, hp⟩ | rfl)
              · exact ⟨p, .inr hp⟩
              · exact ⟨q, .inl ⟨rfl, rfl⟩⟩
            · rintro ⟨p, ⟨rfl, -⟩ | hp⟩
              · exact .inr rfl
              · exact .inl ⟨p, hp⟩
          · simp [reachedBy, hj, ih, Ne.symm hj]
      | _ => simp [reachedBy, ih]

/-- Events that are no step of a tick. -/
def Event.ofTick : Event → Bool
  | .began _ _ _ | .reached _ _ _ | .ended _ _ => true
  | _ => false

theorem TickInv.other (h : TickInv running next trace) (he : e.ofTick = false) :
    TickInv running next (e :: trace) := by
  have hreached : ∀ k, reachedBy k (e :: trace) = reachedBy k trace := by
    intro k
    cases e with
    | began | reached | ended => simp [Event.ofTick] at he
    | _ => rfl
  refine ⟨h.distinct, h.bound, ?_, ?_, ?_⟩
  · intro τ k n ts hsuffix
    rw [hreached]
    apply h.begun
    rcases List.suffix_cons_iff.mp hsuffix with heq | hsuffix
    · cases heq
      simp [Event.ofTick] at he
    · exact hsuffix
  · intro k m hm
    apply h.ended k m
    rcases List.mem_cons.mp hm with heq | hm
    · subst heq
      simp [Event.ofTick] at he
    · exact hm
  · intro k t p hp
    apply h.reached k t p
    rcases List.mem_cons.mp hp with heq | hp
    · subst heq
      simp [Event.ofTick] at he
    · exact hp

theorem TickInv.begin (h : TickInv running next trace) {n : ℕ} {ts : List TaskId}
    (hsorted : ts.Pairwise (· < ·)) (hspawned : ∀ t ∈ ts, .spawned t ∈ trace)
    (houter : n = 0 → ∀ t, inPoll trace t = false ∧ (Live trace t → t ∈ ts)) :
    TickInv ((next, ts) :: running) (next + 1) (.began next n ts :: trace) := by
  have hfresh : ∀ t p, .reached next t p ∉ trace := fun t p hp =>
    Nat.lt_irrefl _ (h.reached next t p hp)
  have hrunning : ∀ rest, (next, rest) ∉ running := fun rest hr =>
    Nat.lt_irrefl _ (h.bound _ hr)
  refine ⟨?_, ?_, ?_, ?_, ?_⟩
  · simp only [List.map_cons, List.nodup_cons]
    refine ⟨fun hmem => ?_, h.distinct⟩
    obtain ⟨r, hr, heq⟩ := List.mem_map.mp hmem
    exact Nat.ne_of_lt (h.bound r hr) heq
  · intro r hr
    rcases List.mem_cons.mp hr with rfl | hr
    · exact Nat.lt_succ_self _
    · exact Nat.lt_succ_of_lt (h.bound r hr)
  · intro τ k m us hsuffix
    rcases List.suffix_cons_iff.mp hsuffix with heq | hsuffix
    · cases heq
      have hnil : reachedBy next trace = [] := by
        apply List.eq_nil_iff_forall_not_mem.mpr
        intro t ht
        obtain ⟨p, hp⟩ := mem_reachedBy.mp ht
        exact hfresh t p hp
      exact ⟨⟨hsorted, hspawned, hfresh, houter⟩, Nat.lt_succ_self _,
        .inl ⟨ts, List.mem_cons_self, by simp [reachedBy, hnil]⟩⟩
    · obtain ⟨hb, hk, hrest⟩ := h.begun τ k m us hsuffix
      refine ⟨hb, Nat.lt_succ_of_lt hk, ?_⟩
      rcases hrest with ⟨rest, hr, heq⟩ | ⟨hr, heq⟩
      · exact .inl ⟨rest, List.mem_cons_of_mem _ hr, heq⟩
      · refine .inr ⟨fun rest hmem => ?_, heq⟩
        rcases List.mem_cons.mp hmem with heq | hmem
        · cases heq
          exact Nat.lt_irrefl _ hk
        · exact hr rest hmem
  · intro k m hm
    obtain ⟨hk, hr⟩ := h.ended k m ((List.mem_cons.mp hm).resolve_left (by simp))
    refine ⟨Nat.lt_succ_of_lt hk, fun rest hmem => ?_⟩
    rcases List.mem_cons.mp hmem with heq | hmem
    · cases heq
      exact Nat.lt_irrefl _ hk
    · exact hr rest hmem
  · intro k t p hp
    exact Nat.lt_succ_of_lt (h.reached k t p ((List.mem_cons.mp hp).resolve_left (by simp)))

theorem TickInv.reach (h : TickInv ((k, t :: rest) :: running) next trace) :
    TickInv ((k, rest) :: running) next (.reached k t p :: trace) := by
  have hother : ∀ r, (k, r) ∉ running := by
    intro r hr
    have hnodup := h.distinct
    simp only [List.map_cons, List.nodup_cons] at hnodup
    exact hnodup.1 (List.mem_map.mpr ⟨_, hr, rfl⟩)
  refine ⟨h.distinct, ?_, ?_, ?_, ?_⟩
  · intro r hr
    rcases List.mem_cons.mp hr with rfl | hr
    · exact h.bound (k, t :: rest) List.mem_cons_self
    · exact h.bound r (List.mem_cons_of_mem _ hr)
  · intro τ j n ts hsuffix
    obtain ⟨hb, hj, hrest⟩ := h.begun τ j n ts
      ((List.suffix_cons_iff.mp hsuffix).resolve_left (by simp))
    refine ⟨hb, hj, ?_⟩
    by_cases hjk : j = k
    · subst hjk
      rcases hrest with ⟨r, hr, heq⟩ | ⟨hr, -⟩
      · rcases List.mem_cons.mp hr with heq' | hr
        · cases heq'
          refine .inl ⟨rest, List.mem_cons_self, ?_⟩
          simpa [reachedBy] using heq
        · exact absurd hr (hother r)
      · exact absurd List.mem_cons_self (hr (t :: rest))
    · have hskip : reachedBy j (.reached k t p :: trace) = reachedBy j trace := by
        simp [reachedBy, Ne.symm hjk]
      have hmem : ∀ r u, (j, r) ∈ (k, u) :: running ↔ (j, r) ∈ running := by
        simp [hjk]
      rw [hskip]
      simpa only [hmem] using hrest
  · intro j m hm
    obtain ⟨hj, hr⟩ := h.ended j m ((List.mem_cons.mp hm).resolve_left (by simp))
    refine ⟨hj, fun r hmem => ?_⟩
    rcases List.mem_cons.mp hmem with heq | hmem
    · cases heq
      exact hr _ List.mem_cons_self
    · exact hr r (List.mem_cons_of_mem _ hmem)
  · intro j u q hq
    rcases List.mem_cons.mp hq with heq | hq
    · cases heq
      exact h.bound (k, t :: rest) List.mem_cons_self
    · exact h.reached j u q hq

theorem TickInv.finish (h : TickInv ((k, []) :: running) next trace) {m : ℕ} :
    TickInv running next (.ended k m :: trace) := by
  have hnodup := h.distinct
  simp only [List.map_cons, List.nodup_cons] at hnodup
  have hother : ∀ r, (k, r) ∉ running := fun r hr => hnodup.1 (List.mem_map.mpr ⟨_, hr, rfl⟩)
  refine ⟨hnodup.2, fun r hr => h.bound r (List.mem_cons_of_mem _ hr), ?_, ?_, ?_⟩
  · intro τ j n ts hsuffix
    obtain ⟨hb, hj, hrest⟩ := h.begun τ j n ts
      ((List.suffix_cons_iff.mp hsuffix).resolve_left (by simp))
    refine ⟨hb, hj, ?_⟩
    rcases hrest with ⟨r, hr, heq⟩ | ⟨hr, heq⟩
    · rcases List.mem_cons.mp hr with heq' | hr
      · cases heq'
        exact .inr ⟨hother, by simpa [reachedBy] using heq⟩
      · exact .inl ⟨r, hr, heq⟩
    · exact .inr ⟨fun r hmem => hr r (List.mem_cons_of_mem _ hmem), heq⟩
  · intro j m' hm
    rcases List.mem_cons.mp hm with heq | hm
    · cases heq
      exact ⟨h.bound _ List.mem_cons_self, hother⟩
    · obtain ⟨hj, hr⟩ := h.ended j m' hm
      exact ⟨hj, fun r hmem => hr r (List.mem_cons_of_mem _ hmem)⟩
  · intro j u q hq
    exact h.reached j u q ((List.mem_cons.mp hq).resolve_left (by simp))

end Ticks

/-! ## Slots and flags -/

/-- The slots, the flags and the registry against the trace. -/
structure SlotInv (s : State) : Prop where
  spawned : ∀ t, .spawned t ∈ s.trace ↔ t < s.nextTask
  sorted : s.tasks.Pairwise (· < ·)
  registered : ∀ t ∈ s.tasks, t < s.nextTask
  distinct : s.polling.Nodup
  inPoll : ∀ t, t ∈ s.polling ↔ inPoll s.trace t = true
  outer : ∀ k ∈ s.ticks.tail, k.polling.isSome = true
  /-- A task in a poll has its future outside the slot. -/
  polled : ∀ t ∈ s.polling, t < s.nextTask ∧ .returned t true ∉ s.trace ∧
    (s.inner t).future = false
  returned : ∀ t b, .returned t b ∈ s.trace → t < s.nextTask
  done : ∀ t, (s.inner t).future = true → t < s.nextTask ∧ .returned t true ∉ s.trace
  full : ∀ t, Live s.trace t → t ∉ s.polling → (s.inner t).future = true
  kept : ∀ t, Live s.trace t → t ∉ s.polling ∨ calm s.trace t = true → t ∈ s.tasks
  flag : ∀ t, Live s.trace t → (s.inner t).ready = wokenSince s.trace t

/-- Every poll and every return has its reason in the trace. -/
structure PollInv (trace : List Event) : Prop where
  polls : ∀ τ k t p, .reached k t p :: τ <:+ trace → (p = true ↔ Live τ t ∧ wokenSince τ t = true)
  returns : ∀ τ t b, .returned t b :: τ <:+ trace → inPoll τ t = true

def State.running (s : State) : List (ℕ × List TaskId) := s.ticks.map fun k => (k.id, k.rest)

structure ExecInv (s : State) : Prop where
  slots : SlotInv s
  ticks : TickInv s.running s.nextTick s.trace
  history : PollInv s.trace

section Slots

variable {s s' : State} {t : TaskId} {a : Action}

theorem SlotInv.init : SlotInv .new := by
  refine ⟨?_, ?_, ?_, ?_, ?_, ?_, ?_, ?_, ?_, ?_, ?_, ?_⟩
  all_goals simp [State.new, State.polling, FlowiVfs.LocalExecutor.inPoll, Live, HandleAlive]

theorem SlotInv.spawn (h : SlotInv s) : SlotInv (spawn s) := by
  have hnew : ∀ u ∈ s.polling, u ≠ s.nextTask := fun u hu => Nat.ne_of_lt (h.polled u hu).1
  have hret : ∀ u b, .returned u b ∈ (Event.spawned s.nextTask :: s.trace) →
      .returned u b ∈ s.trace := fun u b hu => (List.mem_cons.mp hu).resolve_left (by simp)
  have hlive : ∀ u, u ≠ s.nextTask → Live (.spawned s.nextTask :: s.trace) u → Live s.trace u := by
    intro u hu
    simp [Live, HandleAlive, hu]
  unfold FlowiVfs.LocalExecutor.spawn
  refine ⟨?_, ?_, ?_, h.distinct, h.inPoll, h.outer, ?_, ?_, ?_, ?_, ?_, ?_⟩
  · intro u
    simp only [List.mem_cons, Event.spawned.injEq, h.spawned]
    rw [Nat.lt_succ_iff_lt_or_eq, or_comm]
  · apply List.pairwise_append.mpr
    refine ⟨h.sorted, List.pairwise_singleton _ _, ?_⟩
    intro u hu v hv
    simp only [List.mem_singleton] at hv
    exact hv ▸ h.registered u hu
  · intro u hu
    simp only [List.mem_append, List.mem_singleton] at hu
    rcases hu with hu | rfl
    · exact Nat.lt_succ_of_lt (h.registered u hu)
    · exact Nat.lt_succ_self _
  · intro u hu
    obtain ⟨hlt, hnot, hempty⟩ := h.polled u hu
    refine ⟨Nat.lt_succ_of_lt hlt, fun hmem => hnot (hret u true hmem), ?_⟩
    simp only [Function.update_of_ne (hnew u hu), hempty]
  · intro u b hu
    exact Nat.lt_succ_of_lt (h.returned u b (hret u b hu))
  · intro u hu
    by_cases hun : u = s.nextTask
    · refine ⟨hun ▸ Nat.lt_succ_self _, fun hmem => ?_⟩
      exact Nat.ne_of_lt (h.returned u true (hret u true hmem)) hun
    · simp only [Function.update_of_ne hun] at hu
      obtain ⟨hlt, hnot⟩ := h.done u hu
      exact ⟨Nat.lt_succ_of_lt hlt, fun hmem => hnot (hret u true hmem)⟩
  · intro u hu hpoll
    by_cases hun : u = s.nextTask
    · simp [hun]
    · simp only [Function.update_of_ne hun]
      exact h.full u (hlive u hun hu) hpoll
  · intro u hu hcalm
    by_cases hun : u = s.nextTask
    · simp [hun]
    · exact List.mem_append_left _ (h.kept u (hlive u hun hu) hcalm)
  · intro u hu
    by_cases hun : u = s.nextTask
    · simp [hun, wokenSince]
    · simp only [Function.update_of_ne hun, wokenSince]
      rw [h.flag u (hlive u hun hu)]
      simp [Ne.symm hun]

theorem SlotInv.wake (h : SlotInv s) : SlotInv (wake s t) := by
  have hlive : ∀ u, Live (.woken t :: s.trace) u → Live s.trace u := by
    intro u
    simp [Live, HandleAlive]
  have hfuture : ∀ u, (Function.update s.inner t { s.inner t with ready := true } u).future =
      (s.inner u).future := by
    intro u
    by_cases hu : u = t
    · simp [hu]
    · rw [Function.update_of_ne hu]
  unfold FlowiVfs.LocalExecutor.wake
  refine ⟨?_, h.sorted, h.registered, h.distinct, h.inPoll, h.outer, ?_, ?_, ?_, ?_, ?_, ?_⟩
  · intro u
    simpa using h.spawned u
  · intro u hu
    simpa [hfuture] using h.polled u hu
  · intro u b hu
    exact h.returned u b ((List.mem_cons.mp hu).resolve_left (by simp))
  · intro u hu
    simpa using h.done u (hfuture u ▸ hu)
  · intro u hu hpoll
    exact (hfuture u).trans (h.full u (hlive u hu) hpoll)
  · intro u hu hcalm
    exact h.kept u (hlive u hu) hcalm
  · intro u hu
    by_cases hut : u = t
    · simp [hut, wokenSince]
    · simp only [Function.update_of_ne hut, wokenSince]
      rw [h.flag u (hlive u hu)]
      simp [Ne.symm hut]

theorem SlotInv.drop (h : SlotInv s) : SlotInv (dropTask s t) := by
  have hlive : ∀ u, Live (.dropped t :: s.trace) u → u ≠ t ∧ Live s.trace u := by
    intro u
    simp only [Live, HandleAlive, List.mem_cons, Event.dropped.injEq, reduceCtorEq, false_or, not_or]
    tauto
  have hfuture : ∀ u, (Function.update s.inner t { s.inner t with future := false } u).future = true →
      (s.inner u).future = true := by
    intro u
    by_cases hu : u = t
    · simp [hu]
    · rw [Function.update_of_ne hu]
      exact id
  unfold dropTask
  refine ⟨?_, h.sorted, h.registered, h.distinct, h.inPoll, h.outer, ?_, ?_, ?_, ?_, ?_, ?_⟩
  · intro u
    simpa using h.spawned u
  · intro u hu
    obtain ⟨hlt, hnot, hempty⟩ := h.polled u hu
    refine ⟨hlt, by simpa using hnot, ?_⟩
    by_contra hne
    rw [hfuture u (by simpa using hne)] at hempty
    cases hempty
  · intro u b hu
    exact h.returned u b ((List.mem_cons.mp hu).resolve_left (by simp))
  · intro u hu
    simpa using h.done u (hfuture u hu)
  · intro u hu hpoll
    obtain ⟨hut, hu⟩ := hlive u hu
    simp only [Function.update_of_ne hut]
    exact h.full u hu hpoll
  · intro u hu hcalm
    exact h.kept u (hlive u hu).2 hcalm
  · intro u hu
    obtain ⟨hut, hu⟩ := hlive u hu
    simp only [Function.update_of_ne hut, wokenSince]
    exact h.flag u hu

theorem SlotInv.begin (h : SlotInv s) {k : ℕ} (hcode : s.inUserCode = true) :
    SlotInv { s with
      ticks := ⟨k, s.tasks, none, 0⟩ :: s.ticks
      nextTick := s.nextTick + 1
      trace := .began k s.ticks.length s.tasks :: s.trace } := by
  have hlive : ∀ u, Live (.began k s.ticks.length s.tasks :: s.trace) u → Live s.trace u := by
    intro u
    simp [Live, HandleAlive]
  refine ⟨?_, h.sorted, h.registered, h.distinct, h.inPoll, ?_, ?_, ?_, ?_, ?_, ?_, ?_⟩
  · intro u
    simpa using h.spawned u
  · intro j hj
    have hj : j ∈ s.ticks := hj
    cases hticks : s.ticks with
    | nil => simp [hticks] at hj
    | cons i outer =>
        rw [hticks] at hj
        rcases List.mem_cons.mp hj with rfl | hj
        · simpa [State.inUserCode, hticks] using hcode
        · exact h.outer j (by simpa [hticks] using hj)
  · intro u hu
    simpa using h.polled u hu
  · intro u b hu
    exact h.returned u b ((List.mem_cons.mp hu).resolve_left (by simp))
  · intro u hu
    simpa using h.done u hu
  · exact fun u hu hpoll => h.full u (hlive u hu) hpoll
  · exact fun u hu hcalm => h.kept u (hlive u hu) hcalm
  · exact fun u hu => h.flag u (hlive u hu)

/-- The innermost tick comes to a task that it does not poll. -/
theorem SlotInv.skip (h : SlotInv s) {k : ℕ} {rest : List TaskId} {n : ℕ} {outer : List Tick}
    (hticks : s.ticks = ⟨k, t :: rest, none, n⟩ :: outer) (ready : Bool)
    (hready : Live s.trace t → ready = (s.inner t).ready) :
    SlotInv { s with
      inner := Function.update s.inner t { s.inner t with ready := ready }
      ticks := ⟨k, rest, none, n⟩ :: outer
      trace := .reached k t false :: s.trace } := by
  have hlive : ∀ u, Live (.reached k t false :: s.trace) u → Live s.trace u := by
    intro u
    simp [Live, HandleAlive]
  have hfuture : ∀ u, (Function.update s.inner t { s.inner t with ready := ready } u).future =
      (s.inner u).future := by
    intro u
    by_cases hu : u = t
    · simp [hu]
    · rw [Function.update_of_ne hu]
  have hpolling : s.polling = outer.filterMap Tick.polling := by
    simp [State.polling, hticks]
  refine ⟨?_, h.sorted, h.registered, ?_, ?_, ?_, ?_, ?_, ?_, ?_, ?_, ?_⟩
  · intro u
    simpa using h.spawned u
  · simpa [State.polling] using hpolling ▸ h.distinct
  · intro u
    have hu := h.inPoll u
    rw [hpolling] at hu
    simpa [State.polling, FlowiVfs.LocalExecutor.inPoll] using hu
  · intro j hj
    exact h.outer j (by simpa [hticks] using hj)
  · intro u hu
    have hu : u ∈ s.polling := by
      rw [hpolling]
      simpa [State.polling] using hu
    simpa [hfuture] using h.polled u hu
  · intro u b hu
    exact h.returned u b ((List.mem_cons.mp hu).resolve_left (by simp))
  · intro u hu
    simpa using h.done u (hfuture u ▸ hu)
  · intro u hu hpoll
    refine (hfuture u).trans (h.full u (hlive u hu) ?_)
    rw [hpolling]
    simpa [State.polling] using hpoll
  · intro u hu hcalm
    refine h.kept u (hlive u hu) (hcalm.imp_left fun hpoll => ?_)
    rw [hpolling]
    simpa [State.polling] using hpoll
  · intro u hu
    have hold := hlive u hu
    by_cases hut : u = t
    · subst hut
      simp only [Function.update_self, wokenSince]
      rw [hready hold, h.flag u hold]
    · simp only [Function.update_of_ne hut, wokenSince]
      exact h.flag u hold

/-- The innermost tick begins to poll a task. -/
theorem SlotInv.poll (h : SlotInv s) {k : ℕ} {rest : List TaskId} {n : ℕ} {outer : List Tick}
    (hticks : s.ticks = ⟨k, t :: rest, none, n⟩ :: outer) (hlive : Live s.trace t)
    (hfuture : (s.inner t).future = true) :
    SlotInv { s with
      inner := Function.update s.inner t ⟨false, false⟩
      ticks := ⟨k, rest, some t, n + 1⟩ :: outer
      trace := .reached k t true :: s.trace } := by
  have hkeep : ∀ u, Live (.reached k t true :: s.trace) u → Live s.trace u := by
    intro u
    simp [Live, HandleAlive]
  have hpolling : s.polling = outer.filterMap Tick.polling := by
    simp [State.polling, hticks]
  have hnot : t ∉ s.polling := by
    intro ht
    rw [(h.polled t ht).2.2] at hfuture
    cases hfuture
  have hnew : ∀ us : List TaskId, (⟨k, rest, some t, n + 1⟩ :: outer : List Tick).filterMap
      Tick.polling = us ↔ us = t :: s.polling := by
    intro us
    rw [hpolling]
    simp only [List.filterMap_cons]
    exact eq_comm
  have hmem : ∀ u, u ∈ (⟨k, rest, some t, n + 1⟩ :: outer : List Tick).filterMap Tick.polling ↔
      u = t ∨ u ∈ s.polling := by
    intro u
    rw [(hnew _).mpr rfl, List.mem_cons]
  refine ⟨?_, h.sorted, h.registered, ?_, ?_, ?_, ?_, ?_, ?_, ?_, ?_, ?_⟩
  · intro u
    simpa using h.spawned u
  · rw [State.polling, (hnew _).mpr rfl]
    exact List.nodup_cons.mpr ⟨hnot, h.distinct⟩
  · intro u
    rw [State.polling, hmem, h.inPoll]
    simp only [FlowiVfs.LocalExecutor.inPoll, Bool.or_eq_true, beq_iff_eq]
    exact or_congr_left eq_comm
  · intro j hj
    exact h.outer j (by simpa [hticks] using hj)
  · intro u hu
    rcases (hmem u).mp hu with rfl | hu
    · exact ⟨(h.spawned u).mp hlive.1.1, by simpa using hlive.2, by simp⟩
    · have hut : u ≠ t := fun heq => hnot (heq ▸ hu)
      simpa [Function.update_of_ne hut] using h.polled u hu
  · intro u b hu
    exact h.returned u b ((List.mem_cons.mp hu).resolve_left (by simp))
  · intro u hu
    by_cases hut : u = t
    · simp [hut] at hu
    · simp only [Function.update_of_ne hut] at hu
      simpa using h.done u hu
  · intro u hu hpoll
    have hpoll : ¬ (u = t ∨ u ∈ s.polling) := fun hor => hpoll ((hmem u).mpr hor)
    have hut : u ≠ t := fun heq => hpoll (.inl heq)
    simp only [Function.update_of_ne hut]
    exact h.full u (hkeep u hu) fun hin => hpoll (.inr hin)
  · intro u hu hcalm
    by_cases hut : u = t
    · exact hut ▸ h.kept t hlive (.inl hnot)
    · refine h.kept u (hkeep u hu) (hcalm.imp (fun hpoll hin => ?_) fun hcalm => ?_)
      · exact hpoll ((hmem u).mpr (.inr hin))
      · simpa [calm, Ne.symm hut] using hcalm
  · intro u hu
    by_cases hut : u = t
    · simp [hut, wokenSince]
    · simp only [Function.update_of_ne hut, wokenSince]
      rw [h.flag u (hkeep u hu)]
      simp [Ne.symm hut]

/-- The poll of the innermost tick returns. -/
theorem SlotInv.ret (h : SlotInv s) {k : ℕ} {rest : List TaskId} {n : ℕ} {outer : List Tick}
    (hticks : s.ticks = ⟨k, rest, some t, n⟩ :: outer) (pending : Bool)
    (hcalm : pending = true → HandleAlive s.trace t → calm s.trace t = true) :
    SlotInv { s with
      inner := if pending then Function.update s.inner t { s.inner t with future := true }
        else s.inner
      ticks := ⟨k, rest, none, n⟩ :: outer
      trace := .returned t (!pending) :: s.trace } := by
  have hpolling : s.polling = t :: outer.filterMap Tick.polling := by
    simp [State.polling, hticks]
  have hdistinct := hpolling ▸ h.distinct
  have hmem : ∀ u, u ∈ (⟨k, rest, none, n⟩ :: outer : List Tick).filterMap Tick.polling ↔
      u ≠ t ∧ u ∈ s.polling := by
    intro u
    rw [hpolling]
    simp only [List.filterMap_cons, List.mem_cons]
    constructor
    · intro hu
      exact ⟨fun heq => (List.nodup_cons.mp hdistinct).1 (heq ▸ hu), .inr hu⟩
    · rintro ⟨hne, heq | hu⟩
      · exact absurd heq hne
      · exact hu
  obtain ⟨hlt, hnever, hempty⟩ := h.polled t (by simp [hpolling])
  have hlive : ∀ u, Live (.returned t (!pending) :: s.trace) u →
      Live s.trace u ∧ (u = t → pending = true) := by
    intro u
    cases pending <;> simp only [Live, HandleAlive, List.mem_cons, reduceCtorEq, false_or,
      Event.returned.injEq, Bool.not_true, Bool.not_false, and_true, and_false, not_or] <;> tauto
  have hother : ∀ u, u ≠ t → (if pending then Function.update s.inner t { s.inner t with future := true }
      else s.inner) u = s.inner u := by
    intro u hu
    cases pending <;> simp [Function.update_of_ne hu]
  have hready : ∀ u, ((if pending then Function.update s.inner t { s.inner t with future := true }
      else s.inner) u).ready = (s.inner u).ready := by
    intro u
    by_cases hu : u = t
    · subst hu
      cases pending <;> simp
    · rw [hother u hu]
  have hreturned : ∀ u, u ≠ t → (.returned u true ∈ (Event.returned t (!pending) :: s.trace) ↔
      .returned u true ∈ s.trace) := by
    intro u hu
    simp [hu]
  refine ⟨?_, h.sorted, h.registered, ?_, ?_, ?_, ?_, ?_, ?_, ?_, ?_, ?_⟩
  · intro u
    simpa using h.spawned u
  · rw [State.polling]
    simpa using (List.nodup_cons.mp hdistinct).2
  · intro u
    rw [State.polling, hmem, h.inPoll]
    simp only [FlowiVfs.LocalExecutor.inPoll, Bool.and_eq_true, bne_iff_ne, ne_eq]
    rw [eq_comm]
  · intro j hj
    exact h.outer j (by simpa [hticks] using hj)
  · intro u hu
    obtain ⟨hut, hu⟩ := (hmem u).mp hu
    obtain ⟨h₁, h₂, h₃⟩ := h.polled u hu
    refine ⟨h₁, fun hin => h₂ ((hreturned u hut).mp hin), ?_⟩
    simp only [hother u hut, h₃]
  · intro u b hu
    rcases List.mem_cons.mp hu with heq | hu
    · cases heq
      exact hlt
    · exact h.returned u b hu
  · intro u hu
    by_cases hut : u = t
    · subst hut
      cases pending with
      | true => exact ⟨hlt, by simpa using hnever⟩
      | false => simp [hempty] at hu
    · simp only [hother u hut] at hu
      obtain ⟨h₁, h₂⟩ := h.done u hu
      exact ⟨h₁, fun hin => h₂ ((hreturned u hut).mp hin)⟩
  · intro u hu hpoll
    obtain ⟨hu, hpending⟩ := hlive u hu
    by_cases hut : u = t
    · subst hut
      simp [hpending rfl]
    · simp only [hother u hut]
      exact h.full u hu fun hin => hpoll ((hmem u).mpr ⟨hut, hin⟩)
  · intro u hu hor
    obtain ⟨hold, hpending⟩ := hlive u hu
    by_cases hut : u = t
    · subst hut
      exact h.kept u hold (.inr (hcalm (hpending rfl) hold.1))
    · refine h.kept u hold (hor.imp_left fun hpoll hin => ?_)
      exact hpoll ((hmem u).mpr ⟨hut, hin⟩)
  · intro u hu
    simp only [hready, wokenSince]
    exact h.flag u (hlive u hu).1

/-- The innermost tick sweeps and ends. -/
theorem SlotInv.sweep (h : SlotInv s) {k n : ℕ} {outer : List Tick}
    (hticks : s.ticks = ⟨k, [], none, n⟩ :: outer) :
    SlotInv { s with
      tasks := s.tasks.filter fun t => (s.inner t).future
      ticks := outer
      trace := .ended k n :: s.trace } := by
  have hlive : ∀ u, Live (.ended k n :: s.trace) u → Live s.trace u := by
    intro u
    simp [Live, HandleAlive]
  have hpolling : s.polling = outer.filterMap Tick.polling := by
    simp [State.polling, hticks]
  refine ⟨?_, h.sorted.filter _, ?_, ?_, ?_, ?_, ?_, ?_, ?_, ?_, ?_, ?_⟩
  · intro u
    simpa using h.spawned u
  · exact fun u hu => h.registered u (List.mem_of_mem_filter hu)
  · rw [State.polling, ← hpolling]
    exact h.distinct
  · intro u
    rw [State.polling, ← hpolling, h.inPoll]
    rfl
  · intro j hj
    exact h.outer j (by simpa [hticks] using List.mem_of_mem_tail hj)
  · intro u hu
    rw [State.polling, ← hpolling] at hu
    simpa using h.polled u hu
  · intro u b hu
    exact h.returned u b ((List.mem_cons.mp hu).resolve_left (by simp))
  · intro u hu
    simpa using h.done u hu
  · intro u hu hpoll
    rw [State.polling, ← hpolling] at hpoll
    exact h.full u (hlive u hu) hpoll
  · intro u hu hor
    rw [State.polling, ← hpolling] at hor
    rcases hor with hpoll | hcalm
    · exact List.mem_filter.mpr ⟨h.kept u (hlive u hu) (.inl hpoll), h.full u (hlive u hu) hpoll⟩
    · cases hcalm
  · exact fun u hu => h.flag u (hlive u hu)

theorem PollInv.cons {trace : List Event} {e : Event} (h : PollInv trace)
    (hpoll : ∀ k t p, e = .reached k t p → (p = true ↔ Live trace t ∧ wokenSince trace t = true))
    (hreturn : ∀ t b, e = .returned t b → inPoll trace t = true) : PollInv (e :: trace) where
  polls τ k t p hsuffix := by
    rcases List.suffix_cons_iff.mp hsuffix with heq | hsuffix
    · cases heq
      exact hpoll k t p rfl
    · exact h.polls τ k t p hsuffix
  returns τ t b hsuffix := by
    rcases List.suffix_cons_iff.mp hsuffix with heq | hsuffix
    · cases heq
      exact hreturn t b rfl
    · exact h.returns τ t b hsuffix

theorem PollInv.suffix {trace τ : List Event} (h : PollInv trace) (hsuffix : τ <:+ trace) :
    PollInv τ where
  polls σ k t p hσ := h.polls σ k t p (hσ.trans hsuffix)
  returns σ t b hσ := h.returns σ t b (hσ.trans hsuffix)

theorem ExecInv.init : ExecInv .new := by
  refine ⟨.init, ⟨?_, ?_, ?_, ?_, ?_⟩, ⟨?_, ?_⟩⟩
  all_goals simp [State.new, State.running]

/-- The turn of the loop for one task. -/
theorem ExecInv.reach (h : ExecInv s) (hundisturbed : Undisturbed s .next) {k n : ℕ}
    {rest : List TaskId} {outer : List Tick} (hticks : s.ticks = ⟨k, t :: rest, none, n⟩ :: outer) :
    ExecInv (reach s ⟨k, t :: rest, none, n⟩ t rest outer) := by
  have hrunning : s.running = (k, t :: rest) :: outer.map fun k => (k.id, k.rest) := by
    simp [State.running, hticks]
  have htick : ∀ p, TickInv ((k, rest) :: outer.map fun k => (k.id, k.rest)) s.nextTick
      (.reached k t p :: s.trace) := fun p => (hrunning ▸ h.ticks).reach
  have hcase := hundisturbed t (by simp [State.reaching, hticks])
  unfold FlowiVfs.LocalExecutor.reach
  cases hready : (s.inner t).ready with
  | false =>
      have hskip := h.slots.skip hticks (s.inner t).ready fun _ => rfl
      have hsame : Function.update s.inner t { s.inner t with ready := (s.inner t).ready } = s.inner :=
        Function.update_eq_self t s.inner
      rw [hsame] at hskip
      refine ⟨hskip, htick false, h.history.cons ?_ (by simp)⟩
      intro j u p heq
      cases heq
      simp only [Bool.false_eq_true, false_iff, not_and]
      intro hlive hwoken
      rw [← h.slots.flag t hlive, hready] at hwoken
      cases hwoken
  | true =>
      obtain ⟨hfree, hcancelled⟩ := hcase hready
      cases hfuture : (s.inner t).future with
      | false =>
          have hdead : ¬ Live s.trace t := by
            intro hlive
            rw [h.slots.full t hlive (hfree hlive.1)] at hfuture
            cases hfuture
          refine ⟨h.slots.skip hticks false fun hlive => absurd hlive hdead, htick false,
            h.history.cons ?_ (by simp)⟩
          intro j u p heq
          cases heq
          simp [hdead]
      | true =>
          have hlive : Live s.trace t := by
            refine ⟨?_, (h.slots.done t hfuture).2⟩
            by_contra hgone
            rw [hcancelled hgone] at hfuture
            cases hfuture
          refine ⟨h.slots.poll hticks hlive hfuture, htick true, h.history.cons ?_ (by simp)⟩
          intro j u p heq
          cases heq
          simp [hlive, ← h.slots.flag t hlive, hready]

/-- One undisturbed step keeps the invariant. -/
theorem ExecInv.step (h : ExecInv s) (hundisturbed : Undisturbed s a)
    (hstep : step s a = some s') : ExecInv s' := by
  cases a with
  | spawn =>
      simp only [FlowiVfs.LocalExecutor.step] at hstep
      split_ifs at hstep
      cases hstep
      exact ⟨h.slots.spawn, h.ticks.other rfl, h.history.cons (by simp) (by simp)⟩
  | wake t =>
      simp only [FlowiVfs.LocalExecutor.step] at hstep
      split_ifs at hstep
      cases hstep
      exact ⟨h.slots.wake, h.ticks.other rfl, h.history.cons (by simp) (by simp)⟩
  | drop t =>
      simp only [FlowiVfs.LocalExecutor.step] at hstep
      split_ifs at hstep
      cases hstep
      exact ⟨h.slots.drop, h.ticks.other rfl, h.history.cons (by simp) (by simp)⟩
  | tick =>
      simp only [FlowiVfs.LocalExecutor.step] at hstep
      split_ifs at hstep with hcode
      cases hstep
      refine ⟨h.slots.begin hcode, h.ticks.begin h.slots.sorted ?_ ?_,
        h.history.cons (by simp) (by simp)⟩
      · exact fun t ht => (h.slots.spawned t).mpr (h.slots.registered t ht)
      · intro hnone t
        have hnot : t ∉ s.polling := by
          simp [State.polling, List.length_eq_zero_iff.mp hnone]
        refine ⟨?_, fun hlive => h.slots.kept t hlive (.inl hnot)⟩
        rw [h.slots.inPoll] at hnot
        simpa using hnot
  | next =>
      simp only [FlowiVfs.LocalExecutor.step] at hstep
      split at hstep
      · rename_i k t rest n outer hticks
        cases hstep
        exact h.reach hundisturbed hticks
      · cases hstep
  | sweep =>
      simp only [FlowiVfs.LocalExecutor.step] at hstep
      split at hstep
      · rename_i k n outer hticks
        cases hstep
        have hrunning : s.running = (k, []) :: outer.map fun k => (k.id, k.rest) := by
          simp [State.running, hticks]
        exact ⟨h.slots.sweep hticks, (hrunning ▸ h.ticks).finish, h.history.cons (by simp) (by simp)⟩
      · cases hstep
  | ret pending =>
      simp only [FlowiVfs.LocalExecutor.step] at hstep
      split at hstep
      · rename_i k rest t n outer hticks
        cases hstep
        have hrunning : s.running = (k, rest) :: outer.map fun k => (k.id, k.rest) := by
          simp [State.running, hticks]
        refine ⟨h.slots.ret hticks pending ?_, (hrunning ▸ h.ticks).other rfl,
          h.history.cons (by simp) ?_⟩
        · intro hpending
          subst hpending
          exact hundisturbed t (by simp [State.current, hticks])
        · intro u b heq
          cases heq
          exact (h.slots.inPoll t).mp (by simp [State.polling, hticks])
      · cases hstep

theorem Live.cons {τ : List Event} {e : Event} (h : Live τ t) (hdrop : e ≠ .dropped t)
    (hreturn : e ≠ .returned t true) : Live (e :: τ) t := by
  refine ⟨⟨List.mem_cons_of_mem e h.1.1, ?_⟩, ?_⟩
  · simpa [Ne.symm hdrop] using h.1.2
  · simpa [Ne.symm hreturn] using h.2

/-- A task that is live and woken stays so until it is polled or cancelled. -/
theorem due_kept {τ l : List Event} (h : PollInv (l ++ τ)) (hidle : inPoll τ t = false)
    (hlive : Live τ t) (hwoken : wokenSince τ t = true) (hdrop : .dropped t ∉ l ++ τ)
    (hpoll : ¬ PolledAfter τ (l ++ τ) t) :
    Live (l ++ τ) t ∧ wokenSince (l ++ τ) t = true ∧ inPoll (l ++ τ) t = false := by
  induction l with
  | nil => exact ⟨hlive, hwoken, hidle⟩
  | cons e l ih =>
      have hrest : PolledAfter τ (l ++ τ) t → PolledAfter τ (e :: (l ++ τ)) t := by
        rintro ⟨j, σ, hσ, hτ⟩
        exact ⟨j, σ, hσ.trans (List.suffix_cons e _), hτ⟩
      obtain ⟨hl, hw, hi⟩ := ih (h.suffix (List.suffix_cons e _))
        (fun hin => hdrop (List.mem_cons_of_mem e hin)) (fun hp => hpoll (hrest hp))
      simp only [List.cons_append, List.mem_cons, not_or] at hdrop ⊢
      cases e with
      | spawned u | woken u =>
          exact ⟨hl.cons (by simp) (by simp), by simp [wokenSince, hw], by simp [inPoll, hi]⟩
      | dropped u =>
          have hut : u ≠ t := by
            rintro rfl
            exact hdrop.1 rfl
          exact ⟨hl.cons (by simp [hut]) (by simp), by simp [wokenSince, hw], by simp [inPoll, hi]⟩
      | began | ended =>
          exact ⟨hl.cons (by simp) (by simp), by simp [wokenSince, hw], by simp [inPoll, hi]⟩
      | reached j u p =>
          have hl' : Live (.reached j u p :: (l ++ τ)) t := hl.cons (by simp) (by simp)
          cases p with
          | false => exact ⟨hl', by simp [wokenSince, hw], by simp [inPoll, hi]⟩
          | true =>
              have hut : u ≠ t := by
                rintro rfl
                exact hpoll ⟨j, l ++ τ, List.suffix_refl _, List.suffix_append l τ⟩
              exact ⟨hl', by simp [wokenSince, hw, hut], by simp [inPoll, hi, hut]⟩
      | returned u b =>
          have hut : u ≠ t := by
            rintro rfl
            rw [h.returns (l ++ τ) u b (List.suffix_refl _)] at hi
            cases hi
          exact ⟨hl.cons (by simp) (by simp [hut]), by simp [wokenSince, hw], by simp [inPoll, hi]⟩

theorem ExecInv.sound (h : ExecInv s) : Sound s where
  polls := h.history.polls
  order τ k n ts hsuffix := by
    obtain ⟨hb, -, hrest⟩ := h.ticks.begun τ k n ts hsuffix
    refine ⟨hb.sorted, hb.spawned, ?_, fun m hm => ?_⟩
    · rcases hrest with ⟨rest, -, heq⟩ | ⟨-, heq⟩
      · exact heq ▸ List.prefix_append _ _
      · exact heq ▸ List.prefix_refl _
    · rcases hrest with ⟨rest, hr, -⟩ | ⟨-, heq⟩
      · exact absurd hr ((h.ticks.ended k m hm).2 rest)
      · exact heq
  registered hnone t hlive := by
    refine h.slots.kept t hlive (.inl ?_)
    simp [State.polling, hnone]
  kept τ k ts m hsuffix hended t hlive hwoken := by
    obtain ⟨hb, -, hrest⟩ := h.ticks.begun τ k 0 ts hsuffix
    obtain ⟨hidle, hin⟩ := hb.outermost rfl t
    have hall : reachedBy k s.trace = ts := by
      rcases hrest with ⟨rest, hr, -⟩ | ⟨-, heq⟩
      · exact absurd hr ((h.ticks.ended k m hended).2 rest)
      · exact heq
    obtain ⟨p, hp⟩ := mem_reachedBy.mp (hall ▸ hin hlive)
    obtain ⟨l, τ', htrace⟩ := List.append_of_mem hp
    have hreach : .reached k t p :: τ' <:+ s.trace := ⟨l, htrace.symm⟩
    refine ⟨τ', p, hreach, ?_⟩
    -- The tick came to the task after it began.
    have hlater : .began k 0 ts :: τ <:+ τ' := by
      rcases List.suffix_or_suffix_of_suffix hsuffix hreach with hle | hle
      · rcases List.suffix_cons_iff.mp hle with heq | hle
        · cases heq
        · exact hle
      · rcases List.suffix_cons_iff.mp hle with heq | hle
        · cases heq
        · exact absurd (hle.subset List.mem_cons_self) (hb.fresh t p)
    by_contra hno
    simp only [not_or] at hno
    obtain ⟨hp, hpolled, hdrop⟩ := hno
    obtain ⟨l', hl'⟩ := hlater
    have hpolls := h.history.polls τ' k t p hreach
    have hbegan : Live (.began k 0 ts :: τ) t ∧ wokenSince (.began k 0 ts :: τ) t = true ∧
        inPoll (.began k 0 ts :: τ) t = false := by
      refine ⟨?_, hwoken, hidle⟩
      simpa [Live, HandleAlive] using hlive
    subst hl'
    have hhistory := h.history.suffix ((List.suffix_cons _ _).trans hreach)
    obtain ⟨h₁, h₂, -⟩ := due_kept hhistory hbegan.2.2 hbegan.1 hbegan.2.1 hdrop hpolled
    exact hp (hpolls.mpr ⟨h₁, h₂⟩)

/-- Runs whose nested ticks do no harm lose no task. -/
theorem executor_sound (h : Reaches step Undisturbed .new s) : Sound s :=
  (h.invariant .init fun _ _ _ hI hok hstep => ExecInv.step hI hok hstep).sound

/-- A poll spawns a task, polls it with a tick of its own, and completes. -/
theorem executor_sound_nested : ∃ s, Reaches step Undisturbed .new s ∧ s.ticks = [] ∧
    Event.reached 1 1 true ∈ s.trace ∧ Sound s := by
  let actions : List Action := [.spawn, .tick, .next, .spawn, .tick, .next, .next, .ret true,
    .sweep, .ret false, .sweep]
  have hrun : ((replay step Undisturbed actions .new).map fun s =>
      (s.ticks, decide (Event.reached 1 1 true ∈ s.trace))) = some ([], true) := by
    decide +kernel
  obtain ⟨s, hs, hfacts⟩ := Option.map_eq_some_iff.mp hrun
  simp only [Prod.mk.injEq, decide_eq_true_eq] at hfacts
  have hreach := replay_reaches actions hs
  exact ⟨s, hreach, hfacts.1, hfacts.2, executor_sound hreach⟩

/-- A poll wakes its own task, calls `tick`, which sweeps the task out of the registry, and goes
on: the task is live and woken, and no later tick will come to it. -/
theorem nested_tick_loses_task : ∃ s, Reaches step (fun _ _ => True) .new s ∧ ¬ Sound s := by
  let actions : List Action := [.spawn, .tick, .next, .tick, .next, .sweep, .wake 0, .ret true, .sweep]
  have hrun : ((replay step (fun _ _ => True) actions .new).map fun s =>
      (s.ticks, s.tasks, decide (Live s.trace 0))) = some ([], [], true) := by
    decide +kernel
  obtain ⟨s, hs, hfacts⟩ := Option.map_eq_some_iff.mp hrun
  simp only [Prod.mk.injEq, decide_eq_true_eq] at hfacts
  obtain ⟨hticks, htasks, hlive⟩ := hfacts
  refine ⟨s, replay_reaches actions hs, fun hsound => ?_⟩
  have hmem := hsound.registered hticks 0 hlive
  rw [htasks] at hmem
  exact absurd hmem (List.not_mem_nil)

end Slots

end FlowiVfs.LocalExecutor
