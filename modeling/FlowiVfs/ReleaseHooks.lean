import FlowiVfs.Shutdown

/-!
# Release hooks

A handle that is freed hands its release hook to the call that freed it, which runs it once
`handle_lock` is released. `HookInv` counts: a live handle's hook has not been run and is in
no call's hands, and that of a freed handle has been run or is in the hands of one call.
-/
namespace FlowiVfs

open Transition

/-- The hooks that a call has taken off freed handles and has still to run. -/
def Instr.hooks : Instr → List HandlePtr
  | .releases ps => ps
  | _ => []

def pendingHooks (F : List Instr) : List HandlePtr := F.flatMap Instr.hooks

def Event.isRelease (p : HandlePtr) : Event → Bool
  | .released _ q => q == p
  | _ => false

/-- How often the hook of a handle was run. -/
def hooksRun (trace : List Event) (p : HandlePtr) : ℕ := trace.countP (Event.isRelease p)

/-- The call that holds `handle_lock` after the events of a trace. -/
def lockHolder : List Event → Option ℕ
  | [] => none
  | .lock c :: _ => some c
  | .unlock _ :: _ => none
  | _ :: rest => lockHolder rest

/-- Events other than those of the lock, of hooks and of read callbacks. -/
def Event.silent : Event → Bool
  | .lock _ | .unlock _ | .released _ _ | .callback _ => false
  | _ => true

/-- What a step does that takes `hooks` off the handles it frees. -/
structure HookStep (hooks : List HandlePtr) (s s' : VfsState) : Prop where
  ptr : s.nextPtr ≤ s'.nextPtr
  trace : ∃ es, s'.trace = es ++ s.trace ∧ ∀ e ∈ es, e.silent = true
  kept : ∀ p d, s.pool p = some d →
    (∃ d', s'.pool p = some d' ∧ d'.release = d.release ∧ hooks.count p = 0) ∨
      (p < s'.nextPtr ∧ s'.pool p = none ∧ hooks.count p = if d.release then 1 else 0)
  absent : ∀ p, s.pool p = none →
    hooks.count p = 0 ∧ (p < s.nextPtr → s'.pool p = none)
  published : ∀ p m r, .published p m r ∈ s'.trace →
    .published p m r ∈ s.trace ∨ ∃ d, s.pool p = some d ∧ d.release = r

section HookSteps

variable {s s' s'' : VfsState} {F : List Instr} {p : HandlePtr} {d : VfsHandleData}
  {f : VfsHandleData → VfsHandleData} {hooks hooks' : List HandlePtr} {t : Thread}
  {sched : Sched} {cause : FreeCause} {m : MountPtr}

/-- A step that leaves the handles alone. -/
theorem HookStep.same (hpool : s'.pool = s.pool) (hptr : s'.nextPtr = s.nextPtr)
    (htrace : ∃ es, s'.trace = es ++ s.trace ∧
      ∀ e ∈ es, e.silent = true ∧ ∀ p m r, e ≠ .published p m r) : HookStep [] s s' := by
  obtain ⟨es, hes, quiet⟩ := htrace
  refine ⟨Nat.le_of_eq hptr.symm, ⟨es, hes, fun e he => (quiet e he).1⟩, ?_, ?_, ?_⟩
  · intro p d hd
    exact .inl ⟨d, by rw [hpool, hd], rfl, rfl⟩
  · intro p hn
    exact ⟨rfl, fun _ => by rw [hpool, hn]⟩
  · intro p m r h
    rw [hes] at h
    rcases List.mem_append.mp h with h | h
    · exact absurd rfl ((quiet _ h).2 p m r)
    · exact .inl h

theorem HookStep.refl (s : VfsState) : HookStep [] s s := .same rfl rfl ⟨[], rfl, by simp⟩

theorem HookStep.emit {e : Event} (he : e.silent = true) (hp : ∀ p m r, e ≠ .published p m r) :
    HookStep [] s (s.emit e) := by
  refine .same rfl rfl ⟨[e], rfl, fun e' he' => ?_⟩
  rw [List.mem_singleton.mp he']
  exact ⟨he, hp⟩

theorem HookStep.addJob (k : Job) : HookStep [] s (s.addJob k) :=
  .same rfl rfl ⟨[], rfl, by simp⟩

/-- One step after another; what the first one creates the second one neither publishes nor frees. -/
theorem HookStep.trans (h₁ : HookStep hooks s s') (h₂ : HookStep hooks' s' s'')
    (apart : (∀ p, s.pool p = none → s'.pool p = none) ∨ (hooks' = [] ∧
      ∀ p m r, .published p m r ∈ s''.trace → .published p m r ∈ s'.trace)) :
    HookStep (hooks ++ hooks') s s'' := by
  refine ⟨Nat.le_trans h₁.ptr h₂.ptr, ?_, ?_, ?_, ?_⟩
  · obtain ⟨es, hes, quiet⟩ := h₁.trace
    obtain ⟨es', hes', quiet'⟩ := h₂.trace
    refine ⟨es' ++ es, by rw [hes', hes, List.append_assoc], fun e he => ?_⟩
    rcases List.mem_append.mp he with he | he
    · exact quiet' e he
    · exact quiet e he
  · intro p d hd
    rw [List.count_append]
    rcases h₁.kept p d hd with ⟨d', hd', same, zero⟩ | ⟨bound, dead, count⟩
    · rw [zero, Nat.zero_add, ← same]
      exact (h₂.kept p d' hd').imp_left fun ⟨d'', hd'', same', zero'⟩ =>
        ⟨d'', hd'', same'.trans rfl, zero'⟩
    · obtain ⟨zero, stays⟩ := h₂.absent p dead
      rw [zero, Nat.add_zero]
      exact .inr ⟨Nat.lt_of_lt_of_le bound h₂.ptr, stays bound, count⟩
  · intro p hn
    rw [List.count_append]
    obtain ⟨zero, stays⟩ := h₁.absent p hn
    refine ⟨?_, fun bound => (h₂.absent p (stays bound)).2 (Nat.lt_of_lt_of_le bound h₁.ptr)⟩
    rw [zero, Nat.zero_add]
    rcases apart with apart | ⟨rfl, -⟩
    · exact (h₂.absent p (apart p hn)).1
    · rfl
  · intro p m r h
    rcases apart with apart | ⟨-, apart⟩
    · rcases h₂.published p m r h with h | ⟨d', hd', flag⟩
      · exact h₁.published p m r h
      · cases hd : s.pool p with
        | none =>
            rw [apart p hd] at hd'
            cases hd'
        | some d =>
            rcases h₁.kept p d hd with ⟨e, he, same, -⟩ | ⟨-, dead, -⟩
            · rw [hd'] at he
              cases he
              exact .inr ⟨d, rfl, same.symm.trans flag⟩
            · rw [dead] at hd'
              cases hd'
    · exact h₁.published p m r (apart p m r h)

theorem HookStep.modify (hf : ∀ d, (f d).release = d.release) :
    HookStep [] s (s.modify p f) := by
  refine ⟨Nat.le_refl _, ⟨[], rfl, by simp⟩, ?_, ?_, fun p m r h => .inl h⟩
  · intro q d hd
    refine .inl ?_
    by_cases here : q = p
    · subst here
      exact ⟨f d, by rw [VfsState.modify_pool, if_pos rfl, hd, Option.map_some], hf d, rfl⟩
    · exact ⟨d, by rw [VfsState.modify_pool, if_neg here, hd], rfl, rfl⟩
  · intro q hn
    refine ⟨rfl, fun _ => ?_⟩
    rw [VfsState.modify_pool]
    split_ifs with here
    · rw [← here, hn, Option.map_none]
    · exact hn

theorem modify_absent (q : HandlePtr) (hn : s.pool q = none) : (s.modify p f).pool q = none := by
  rw [VfsState.modify_pool]
  split_ifs with here
  · rw [← here, hn, Option.map_none]
  · exact hn

theorem HookStep.setJobs {j : FlJobHandle} : HookStep [] s (s.modify p (setJobs j)) :=
  .modify fun _ => rfl

theorem HookStep.alloc {params : VfsOpParams} (hT : Table s)
    (halloc : allocateHandle s params = some (p, s')) : HookStep [] s s' := by
  obtain ⟨rfl, -, hpool, hptr, -, -, -, -, htrace, -⟩ := allocateHandle_some halloc
  refine ⟨by rw [hptr]; exact Nat.le_succ _, ⟨[], htrace, by simp⟩, ?_, ?_, ?_⟩
  · intro q d hd
    refine .inl ⟨d, ?_, rfl, rfl⟩
    rw [hpool, Function.update_of_ne (Nat.ne_of_lt (hT.poolBound q d hd)), hd]
  · intro q hn
    refine ⟨rfl, fun bound => ?_⟩
    rw [hpool, Function.update_of_ne (Nat.ne_of_lt bound), hn]
  · intro q m r h
    rw [htrace] at h
    exact .inl h

theorem HookStep.publish (s : VfsState) (p : HandlePtr) :
    HookStep [] s (vfsPublishHandle s p) := by
  unfold vfsPublishHandle
  split
  · rename_i d hd
    refine ⟨Nat.le_refl _, ⟨[_], rfl, by simp [Event.silent]⟩, ?_, ?_, ?_⟩
    · exact fun q e he => .inl ⟨e, he, rfl, rfl⟩
    · exact fun q hn => ⟨rfl, fun _ => hn⟩
    · intro q m r h
      rcases List.mem_cons.mp h with same | h
      · cases same
        exact .inr ⟨d, hd, rfl⟩
      · exact .inl h
  · exact .refl s

theorem freeResources_silent {e : Event} (he : e ∈ freeResources d) :
    e.silent = true ∧ ∀ p m r, e ≠ .published p m r := by
  rcases freeResources_neutral he with ⟨b, rfl⟩ | ⟨b, rfl⟩
  · exact ⟨rfl, fun _ _ _ h => by cases h⟩
  · exact ⟨rfl, fun _ _ _ h => by cases h⟩

/-- A freed handle hands over its hook, if it has one. -/
theorem HookStep.free (cause : FreeCause) (hT : Table s) :
    HookStep (vfsFreeHandleLocked s p cause).2 s (vfsFreeHandleLocked s p cause).1 := by
  cases hd : s.pool p with
  | none =>
      rw [free_dead hd]
      exact .refl s
  | some d =>
      obtain ⟨hpool, -, htrace, hhooks⟩ := free_live cause hd
      obtain ⟨-, -, hptr, -⟩ := free_frame s p cause
      rw [hhooks]
      refine ⟨Nat.le_of_eq hptr.symm, ?_, ?_, ?_, ?_⟩
      · refine ⟨.freed p d.mount cause :: freeResources d, htrace, fun e he => ?_⟩
        rcases List.mem_cons.mp he with rfl | he
        · rfl
        · exact (freeResources_silent he).1
      · intro q e he
        by_cases here : q = p
        · subst here
          rw [hd] at he
          cases he
          refine .inr ⟨by rw [hptr]; exact hT.poolBound q d hd, ?_, ?_⟩
          · rw [hpool, Function.update_self]
          · split_ifs <;> simp
        · refine .inl ⟨e, by rw [hpool, Function.update_of_ne here, he], rfl, ?_⟩
          split_ifs
          · exact List.count_eq_zero.mpr (by simpa using here)
          · rfl
      · intro q hn
        have here : q ≠ p := by
          rintro rfl
          rw [hd] at hn
          cases hn
        refine ⟨?_, fun _ => by rw [hpool, Function.update_of_ne here, hn]⟩
        split_ifs
        · exact List.count_eq_zero.mpr (by simpa using here)
        · rfl
      · intro q m r h
        rw [htrace] at h
        rcases List.mem_cons.mp h with h | h
        · cases h
        · rcases List.mem_append.mp h with h | h
          · exact absurd rfl ((freeResources_silent h).2 q m r)
          · exact .inl h

theorem free_absent (cause : FreeCause) (q : HandlePtr) (hn : s.pool q = none) :
    (vfsFreeHandleLocked s p cause).1.pool q = none := by
  by_contra live
  obtain ⟨e, he⟩ := Option.ne_none_iff_exists'.mp live
  rw [(free_pool_some he).2] at hn
  cases hn

theorem HookStep.freeHandles {ps : List HandlePtr} (hI : Inv s F)
    (hps : ∀ p ∈ ps, ∀ d, s.pool p = some d → s.mapGet d.id = some p ∧ Idle s d) :
    HookStep (freeHandles s ps cause).2 s (freeHandles s ps cause).1 := by
  induction ps generalizing s with
  | nil => exact .refl s
  | cons p ps ih =>
      have first : HookStep _ s _ := .free (p := p) cause hI.toTable
      refine first.trans ?_ (.inl (free_absent cause))
      cases hd : s.pool p with
      | none =>
          have rest := ih hI fun q hq => hps q (List.mem_cons_of_mem _ hq)
          simp only [FlowiVfs.freeHandles, free_dead hd]
          exact rest
      | some d =>
          obtain ⟨hmap, hidle⟩ := hps p List.mem_cons_self d hd
          have one : Sweep s (vfsFreeHandleLocked s p cause).1 :=
            .free cause hI.toTable hd hmap hidle
          refine ih (hI.free hd hmap hidle) fun q hq e he => ?_
          obtain ⟨he', hkeep⟩ := one.kept q e he
          obtain ⟨hm, hi⟩ := hps q (List.mem_cons_of_mem _ hq) e he'
          exact ⟨hkeep hm, by simpa [Idle, VfsState.jobDone_congr one.jobs] using hi⟩

theorem HookStep.freeVictims {victims ids : List FlVfsHandle} (hI : Inv s F)
    (hi : Instr.mountFree m ids ∈ F) (hsub : ∀ id ∈ victims, id ∈ ids) :
    HookStep (vfsFreeMountVictims s m victims).2 s (vfsFreeMountVictims s m victims).1 := by
  induction victims generalizing s with
  | nil => exact .refl s
  | cons id victims ih =>
      have hsub' : ∀ id ∈ victims, id ∈ ids := fun id' h' => hsub id' (List.mem_cons_of_mem _ h')
      unfold vfsFreeMountVictims
      split
      · exact ih hI hsub'
      · rename_i p d hl
        obtain ⟨hmap, hd⟩ := (VfsState.lookupHandle_some p).mp hl
        obtain ⟨d', hd', hid⟩ := hI.mapped id p hmap
        rw [hd] at hd'
        cases hd'
        obtain ⟨-, hv⟩ := hI.teardown _ hi m ids true rfl
        obtain ⟨-, h₂, h₃⟩ := hv p d hd (hid ▸ hsub id List.mem_cons_self)
        exact (HookStep.free _ hI.toTable).trans (ih (hI.free hd h₂ (h₃ rfl)) hsub')
          (.inl (free_absent _))

theorem HookStep.reclaim (hI : Inv s F) :
    HookStep (vfsReclaimClosedHandles s).2 s (vfsReclaimClosedHandles s).1 := by
  unfold vfsReclaimClosedHandles
  split_ifs
  · exact .refl s
  · exact .freeHandles hI (Inv.reclaim_idle hI.toTable)

theorem HookStep.closeFinish {h : FlVfsHandle} {borrows : Bool} (hI : Inv s F) :
    HookStep (closeFinish s t h borrows).2 s (closeFinish s t h borrows).1 := by
  unfold FlowiVfs.closeFinish
  split
  · exact .refl s
  · rename_i p d hl
    split_ifs
    · have hT : Table (s.emit (.closed p)) := (hI.emit (by simp) (by simp)).toTable
      have named : HookStep [] s (s.emit (.closed p)) := .emit rfl (by simp)
      exact named.trans (.free _ hT) (.inl fun _ h => h)
    · exact .refl s
    · exact .refl s
    · have counted : HookStep [] s { s with closedCount := s.closedCount + 1 } :=
        .same rfl rfl ⟨[], rfl, by simp⟩
      have marked : HookStep [] s ({ s with closedCount := s.closedCount + 1 }.modify p
          fun d => { d with closed := true }) :=
        counted.trans (.modify fun _ => rfl) (.inl fun _ h => h)
      exact marked.trans (.emit rfl (by simp)) (.inl fun q h => modify_absent q h)

end HookSteps

/-! ## Bodies -/

section Bodies

variable {s s' : VfsState} {F new : List Instr} {i : Instr} {c : ℕ} {t : Thread}
  {sched : Sched}

/-- A body runs one hook, or hands the hooks of the handles it frees to its call. -/
inductive HookBody (c : ℕ) (i : Instr) (new : List Instr) (s s' : VfsState) : Prop
  | run (p : HandlePtr) (ps : List HandlePtr) (point : i = .releases (p :: ps))
      (next : new = [.releases ps]) (same : s' = s.emit (.released c p))
  | frees (point : i.hooks = []) (step : HookStep (pendingHooks new) s s')

theorem HookBody.quiet (point : i.hooks = []) (none : pendingHooks new = [])
    (step : HookStep [] s s') : HookBody c i new s s' :=
  .frees point (none ▸ step)

theorem LaunchExec.hooks (hx : LaunchExec s t i s' new) (hT : Table s) :
    HookBody c i new s s' := by
  cases hx with
  | refused | prepareRefused => exact .quiet rfl rfl (.refl s)
  | allocated known halloc => exact .quiet rfl rfl (.alloc hT halloc)
  | prepared known halloc =>
      refine .quiet rfl rfl ((HookStep.alloc hT halloc).trans (.emit rfl (by simp)) ?_)
      exact .inr ⟨rfl, fun q m r h => by simpa using h⟩
  | queued =>
      exact .quiet rfl rfl ((HookStep.addJob _).trans .setJobs (.inl fun _ h => h))
  | inlined => exact .quiet rfl rfl (.addJob _)
  | ran => exact .quiet rfl rfl .setJobs
  | published => exact .quiet rfl rfl (.publish s _)

theorem MountExec.hooks (hx : MountExec s t i s' new) (hT : Table s) :
    HookBody c i new s s' := by
  cases hx with
  | opened lock halloc =>
      have listed : HookStep [] s { s with
          nextMount := s.nextMount + 1, mountList := s.mountList ++ [s.nextMount] } :=
        .same rfl rfl ⟨[], rfl, by simp⟩
      have hT' : Table { s with
          nextMount := s.nextMount + 1, mountList := s.mountList ++ [s.nextMount] } :=
        hT.of_core rfl (fun _ => rfl) rfl rfl rfl fun _ => ⟨Iff.rfl, Iff.rfl⟩
      exact .quiet rfl rfl (listed.trans (.alloc hT' halloc) (.inl fun _ h => h))
  | inlined => exact .quiet rfl rfl (.addJob _)
  | queued =>
      exact .quiet rfl rfl ((HookStep.addJob _).trans .setJobs (.inl fun _ h => h))
  | ran => exact .quiet rfl rfl .setJobs
  | @published m p j =>
      have known : HookStep [] s { s with mounts := Function.update s.mounts m (some ⟨j⟩) } :=
        .same rfl rfl ⟨[], rfl, by simp⟩
      exact .quiet rfl rfl (known.trans (.publish _ p) (.inl fun _ h => h))

theorem DispatchExec.hooks (hx : DispatchExec s t i s' new) : HookBody c i new s s' := by
  cases hx with
  | missing | ran => exact .quiet rfl rfl (.refl s)
  | @entered h p d hl =>
      have opened : HookStep [] s (s.modify p openWindow) := .modify fun _ => rfl
      exact .quiet rfl rfl (opened.trans (.emit rfl (by simp)) (.inl fun q h => modify_absent q h))
  | queued | inlined => exact .quiet rfl rfl (.addJob _)
  | recorded =>
      refine .quiet rfl rfl ?_
      unfold dispatchRecord
      split_ifs
      · exact .modify fun _ => rfl
      · exact .refl s

theorem ChainExec.hooks (hx : ChainExec s t i s' new) (hI : Inv s (i :: F)) :
    HookBody c i new s s' := by
  cases hx with
  | copiedOnly | copied =>
      exact .quiet rfl rfl (.same rfl rfl ⟨[_], rfl, by simp [Event.silent]⟩)
  | refused => exact .quiet rfl rfl (.refl s)
  | @entered h params f =>
      have opened : HookStep [] s (s.modify f openWindow) := .modify fun _ => rfl
      exact .quiet rfl rfl (opened.trans (.emit rfl (by simp)) (.inl fun q h => modify_absent q h))
  | allocated known halloc =>
      refine .quiet rfl rfl ((HookStep.alloc hI.toTable halloc).trans (.modify fun _ => rfl) ?_)
      exact .inr ⟨rfl, fun _ _ _ h => h⟩
  | unwound =>
      obtain ⟨d, -, -, -, hunwind⟩ := chainUnwind_live hI
      rw [hunwind]
      exact .quiet rfl rfl (.modify fun _ => rfl)
  | blocked => exact .quiet rfl rfl (.modify fun _ => rfl)
  | inlined => exact .quiet rfl rfl (.addJob _)
  | queued =>
      exact .quiet rfl rfl ((HookStep.addJob _).trans .setJobs (.inl fun _ h => h))
  | ran => exact .quiet rfl rfl .setJobs
  | @published h file p refused =>
      obtain ⟨d, op, -, -, -, -, -, hpublish⟩ := chainPublish_live hI
      rw [hpublish]
      have recorded : HookStep [] s (s.modify file (recordOn refused op.jobHandle)) :=
        .modify fun _ => rfl
      exact .quiet rfl rfl (recorded.trans (.publish _ p) (.inl fun q h => modify_absent q h))

theorem CloseExec.hooks (hx : CloseExec s c t i s' new) (hI : Inv s (i :: F)) :
    HookBody c i new s s' := by
  cases hx with
  | canceled => exact .quiet rfl rfl (.modify fun _ => rfl)
  | reclaimed =>
      refine .frees rfl ?_
      simpa [pendingHooks, Instr.hooks] using HookStep.reclaim (hI.drop rfl rfl)
  | @hook p ps => exact .run p ps rfl rfl rfl
  | closed =>
      refine .frees rfl ?_
      simpa [pendingHooks, Instr.hooks] using HookStep.closeFinish (hI.drop rfl rfl)
  | _ => exact .quiet rfl rfl (.refl s)

theorem TeardownExec.hooks (hx : TeardownExec s c i s' new) (hI : Inv s (i :: F))
    (hlive : s'.destroyed = false) : HookBody c i new s s' := by
  cases hx with
  | unlisted | snapshot => exact .quiet rfl rfl (.same rfl rfl ⟨[], rfl, by simp⟩)
  | unknown | draining | drained | next => exact .quiet rfl rfl (.refl s)
  | freed =>
      refine .frees rfl ?_
      simpa [pendingHooks, Instr.hooks] using
        HookStep.freeVictims hI List.mem_cons_self fun _ h => h
  | destroyed => exact .quiet rfl rfl (.same rfl rfl ⟨[_], rfl, by simp [Event.silent]⟩)
  | cleared => cases hlive

theorem body_hooks (hI : Inv s (i :: F)) (hx : execBody s c t sched i = some (s', new))
    (hlive : s'.destroyed = false) : HookBody c i new s s' := by
  cases execBody_some hx with
  | launch h => exact h.hooks hI.toTable
  | mount h => exact h.hooks hI.toTable
  | dispatch h => exact h.hooks
  | chain h => exact h.hooks hI
  | close h => exact h.hooks hI
  | teardown h => exact h.hooks hI hlive

end Bodies

/-! ## The invariants -/

/-- The hook of a live handle has not been run and is in no call's hands; that of a freed one,
if it has one, has been run or is in the hands of one call. -/
structure HookInv (s : VfsState) (F : List Instr) : Prop where
  live : ∀ p d, s.pool p = some d → hooksRun s.trace p + (pendingHooks F).count p = 0 ∧
    ∀ m r, .published p m r ∈ s.trace → d.release = r
  dead : ∀ p, s.pool p = none → ∀ m r, .published p m r ∈ s.trace →
    hooksRun s.trace p + (pendingHooks F).count p = if r then 1 else 0
  unborn : ∀ p, s.nextPtr ≤ p → hooksRun s.trace p + (pendingHooks F).count p = 0 ∧
    ∀ m r, .published p m r ∉ s.trace
  order : s.trace.Pairwise fun newer older =>
    ∀ c p, newer = .callback p → older ≠ .released c p

section Invariant

variable {s s' : VfsState} {F new : List Instr} {i : Instr} {c : ℕ} {es : List Event}
  {p : HandlePtr} {hooks : List HandlePtr}

theorem hooksRun_append (es es' : List Event) (p : HandlePtr) :
    hooksRun (es ++ es') p = hooksRun es p + hooksRun es' p :=
  List.countP_append

theorem hooksRun_silent (h : ∀ e ∈ es, e.silent = true) : hooksRun es p = 0 := by
  rw [hooksRun, List.countP_eq_zero]
  intro e he
  cases e <;> first | exact Bool.false_ne_true | cases h _ he

theorem pendingHooks_append (F G : List Instr) :
    pendingHooks (F ++ G) = pendingHooks F ++ pendingHooks G :=
  List.flatMap_append

theorem hooksRun_pos (h : 0 < hooksRun es p) : ∃ c, .released c p ∈ es := by
  obtain ⟨e, he, here⟩ := List.countP_pos_iff.mp h
  cases e with
  | released c q =>
      rw [← beq_iff_eq.mp here]
      exact ⟨c, he⟩
  | _ => cases here

theorem hooksRun_of_mem (h : .released c p ∈ es) : 0 < hooksRun es p :=
  List.countP_pos_iff.mpr ⟨_, h, beq_self_eq_true p⟩

namespace HookInv

theorem perm {G : List Instr} (hH : HookInv s F) (hp : F.Perm G) : HookInv s G := by
  have same : ∀ p, (pendingHooks G).count p = (pendingHooks F).count p := fun p =>
    (hp.flatMap_right Instr.hooks).symm.count_eq p
  refine ⟨?_, ?_, ?_, hH.order⟩
  · intro p d hd
    rw [same]
    exact hH.live p d hd
  · intro p hn m r h
    rw [same]
    exact hH.dead p hn m r h
  · intro p hp
    rw [same]
    exact hH.unborn p hp

/-- Events that are not hooks, and no read callback of a handle whose hook was run. -/
theorem order_append (hH : HookInv s F)
    (h : ∀ e ∈ es, (∀ c p, e ≠ .released c p) ∧ ∀ p, e = .callback p → hooksRun s.trace p = 0) :
    (es ++ s.trace).Pairwise fun newer older => ∀ c p, newer = .callback p → older ≠ .released c p := by
  rw [List.pairwise_append]
  refine ⟨?_, hH.order, ?_⟩
  · refine List.Pairwise.imp_of_mem ?_ (List.pairwise_of_forall fun _ _ => trivial)
    intro e e' _ he' _ c p _ same
    exact (h e' he').1 c p same
  · intro e he e' he' c p same released
    have run := hooksRun_of_mem (released ▸ he')
    rw [(h e he).2 p same] at run
    exact Nat.lt_irrefl 0 run

theorem step (hH : HookInv s (i :: F)) (hT : Table s) (point : i.hooks = [])
    (hS : HookStep (pendingHooks new) s s') : HookInv s' (new ++ F) := by
  obtain ⟨es, hes, quiet⟩ := hS.trace
  have count : ∀ p, hooksRun s'.trace p + (pendingHooks (new ++ F)).count p =
      (pendingHooks new).count p +
        (hooksRun s.trace p + (pendingHooks (i :: F)).count p) := by
    intro p
    have front : pendingHooks (i :: F) = pendingHooks F := by
      rw [pendingHooks, List.flatMap_cons, point, List.nil_append, pendingHooks]
    rw [hes, hooksRun_append, hooksRun_silent quiet, pendingHooks_append, List.count_append,
      front]
    omega
  refine ⟨?_, ?_, ?_, ?_⟩
  · intro p d' hd'
    rw [count]
    cases hd : s.pool p with
    | none =>
        obtain ⟨zero, stays⟩ := hS.absent p hd
        have fresh : s.nextPtr ≤ p := by
          by_contra old
          rw [stays (Nat.lt_of_not_le old)] at hd'
          cases hd'
        obtain ⟨none, unnamed⟩ := hH.unborn p fresh
        refine ⟨by rw [zero, none], fun m r h => ?_⟩
        rcases hS.published p m r h with h | ⟨e, he, -⟩
        · exact absurd h (unnamed m r)
        · rw [hd] at he
          cases he
    | some d =>
        rcases hS.kept p d hd with ⟨e, he, same, zero⟩ | ⟨-, gone, -⟩
        · rw [hd'] at he
          cases he
          obtain ⟨none, flag⟩ := hH.live p d hd
          refine ⟨by rw [zero, none], fun m r h => ?_⟩
          rw [same]
          rcases hS.published p m r h with h | ⟨d'', hd'', flag'⟩
          · exact flag m r h
          · rw [hd] at hd''
            cases hd''
            exact flag'
        · rw [gone] at hd'
          cases hd'
  · intro p hn m r h
    rw [count]
    cases hd : s.pool p with
    | none =>
        obtain ⟨zero, -⟩ := hS.absent p hd
        rw [zero, Nat.zero_add]
        rcases hS.published p m r h with h | ⟨e, he, -⟩
        · exact hH.dead p hd m r h
        · rw [hd] at he
          cases he
    | some d =>
        rcases hS.kept p d hd with ⟨e, he, -⟩ | ⟨-, -, taken⟩
        · rw [hn] at he
          cases he
        · obtain ⟨none, flag⟩ := hH.live p d hd
          rw [taken, none, Nat.add_zero]
          have same : d.release = r := by
            rcases hS.published p m r h with h | ⟨d'', hd'', flag'⟩
            · exact flag m r h
            · rw [hd] at hd''
              cases hd''
              exact flag'
          rw [same]
  · intro p hp
    have fresh : s.nextPtr ≤ p := Nat.le_trans hS.ptr hp
    have absent : s.pool p = none := by
      by_contra live
      obtain ⟨d, hd⟩ := Option.ne_none_iff_exists'.mp live
      exact Nat.not_lt_of_le fresh (hT.poolBound p d hd)
    obtain ⟨none, unnamed⟩ := hH.unborn p fresh
    rw [count, (hS.absent p absent).1, none]
    refine ⟨rfl, fun m r h => ?_⟩
    rcases hS.published p m r h with h | ⟨e, he, -⟩
    · exact unnamed m r h
    · rw [absent] at he
      cases he
  · rw [hes]
    apply hH.order_append
    intro e he
    constructor
    · rintro c p rfl
      cases quiet _ he
    · rintro p rfl
      cases quiet _ he

/-- A call runs the next of its hooks. -/
theorem run {q : HandlePtr} {ps : List HandlePtr} (hH : HookInv s (.releases (q :: ps) :: F))
    (c : ℕ) : HookInv (s.emit (.released c q)) (.releases ps :: F) := by
  have count : ∀ p, hooksRun (s.emit (.released c q)).trace p +
      (pendingHooks (.releases ps :: F)).count p =
        hooksRun s.trace p + (pendingHooks (.releases (q :: ps) :: F)).count p := by
    intro p
    simp only [VfsState.emit_trace, hooksRun, pendingHooks, List.flatMap_cons, Instr.hooks,
      List.countP_cons, List.cons_append, List.count_cons, Event.isRelease, beq_iff_eq]
    split_ifs <;> omega
  refine ⟨?_, ?_, ?_, ?_⟩
  · intro p d hd
    rw [count]
    refine (hH.live p d hd).imp_right fun flag m r h => flag m r ?_
    simpa using h
  · intro p hn m r h
    rw [count]
    exact hH.dead p hn m r (by simpa using h)
  · intro p hp
    rw [count]
    refine (hH.unborn p hp).imp_right fun unnamed m r h => unnamed m r ?_
    simpa using h
  · refine List.pairwise_cons.mpr ⟨?_, hH.order⟩
    intro e _ c' p same
    cases same

/-- Events other than hooks, on handles whose hook has not been run. -/
theorem record (hH : HookInv s F) (h : ∀ e ∈ es, (∀ c p, e ≠ .released c p) ∧
    (∀ p, e = .callback p → hooksRun s.trace p = 0) ∧ ∀ p m r, e ≠ .published p m r) :
    HookInv { s with trace := es ++ s.trace } F := by
  have count : ∀ p, hooksRun (es ++ s.trace) p = hooksRun s.trace p := by
    intro p
    have none : hooksRun es p = 0 := by
      by_contra some
      obtain ⟨c, hc⟩ := hooksRun_pos (Nat.pos_of_ne_zero some)
      exact (h _ hc).1 c p rfl
    rw [hooksRun_append, none, Nat.zero_add]
  have old : ∀ p m r, .published p m r ∈ es ++ s.trace → .published p m r ∈ s.trace := by
    intro p m r hp
    rcases List.mem_append.mp hp with hp | hp
    · exact absurd rfl ((h _ hp).2.2 p m r)
    · exact hp
  refine ⟨?_, ?_, ?_, ?_⟩
  · intro p d hd
    rw [count]
    exact (hH.live p d hd).imp_right fun flag m r hp => flag m r (old p m r hp)
  · intro p hn m r hp
    rw [count]
    exact hH.dead p hn m r (old p m r hp)
  · intro p hp
    rw [count]
    exact (hH.unborn p hp).imp_right fun unnamed m r hm => unnamed m r (old p m r hm)
  · exact hH.order_append fun e he => ⟨(h e he).1, (h e he).2.1⟩

theorem calls (hH : HookInv s F) (cs : List Call) : HookInv { s with calls := cs } F :=
  ⟨hH.live, hH.dead, hH.unborn, hH.order⟩

end HookInv

theorem Request.program_hooks (request : Request) : pendingHooks request.program = [] := by
  cases request <;> simp only [Request.program, vfsRead, vfsWrite, vfsWriteInternal, vfsClose,
    vfsWaitAll] <;> (try split_ifs) <;> rfl

/-- A job runs the read callback of a live handle. -/
theorem HookInv.jobMove {j : FlJobHandle} {k : Job} {d : VfsHandleData} {phase : JobPhase}
    {f : VfsHandleData → VfsHandleData} (hH : HookInv s F) (hT : Table s)
    (hd : s.pool k.target = some d) (hm : JobMove s j k d phase f es) :
    HookInv (afterMove s j k.target phase f es) F := by
  have keeps : ∀ d, (f d).release = d.release := by
    intro d
    cases hm <;> rfl
  have moved : HookStep [] s ((s.modify k.target f).setPhase j phase) :=
    (HookStep.modify keeps).trans (.same rfl rfl ⟨[], rfl, by simp⟩)
      (.inl fun q h => modify_absent q h)
  have begun : HookInv s (.reclaim :: F) := ⟨hH.live, hH.dead, hH.unborn, hH.order⟩
  have stepped : HookInv ((s.modify k.target f).setPhase j phase) ([] ++ F) :=
    begun.step hT rfl moved
  refine stepped.record fun e he => ?_
  have unrun : hooksRun s.trace k.target = 0 := by
    have none := (hH.live k.target d hd).1
    omega
  cases hm with
  | cancel | run =>
      rw [mem_callbackEvents he]
      refine ⟨by simp, ?_, by simp⟩
      intro p same
      cases same
      exact unrun
  | begin | find | fail | store => simp at he
  | enter | leave | finish =>
      rw [List.mem_singleton.mp he]
      exact ⟨by simp, by simp, by simp⟩

end Invariant

/-! ## The lock -/

/-- No call holds `handle_lock` now, and none did when a hook was run. -/
structure LockInv (trace : List Event) : Prop where
  free : lockHolder trace = none
  hooks : ∀ later c p earlier, trace = later ++ .released c p :: earlier → lockHolder earlier = none

section Lock

variable {s s' : VfsState} {es trace : List Event} {a : Action}

/-- Events that leave the lock alone and are no hooks. -/
def Event.unlocked : Event → Bool
  | .lock _ | .unlock _ | .released _ _ => false
  | _ => true

theorem Event.silent_unlocked {e : Event} (h : e.silent = true) : e.unlocked = true := by
  cases e <;> first | rfl | cases h

theorem lockHolder_append (h : ∀ e ∈ es, e.unlocked = true) :
    lockHolder (es ++ trace) = lockHolder trace := by
  induction es with
  | nil => rfl
  | cons e es ih =>
      have rest := ih fun e he => h e (List.mem_cons_of_mem _ he)
      have here := h e List.mem_cons_self
      cases e <;> first | exact rest | cases here

/-- A hook is found behind any events that are no hooks. -/
theorem released_behind {later earlier : List Event} {c : ℕ} {p : HandlePtr}
    (h : ∀ e ∈ es, ∀ c p, e ≠ .released c p)
    (same : es ++ trace = later ++ .released c p :: earlier) :
    ∃ later', trace = later' ++ .released c p :: earlier := by
  rcases List.append_eq_append_iff.mp same with ⟨x, -, rest⟩ | ⟨x, front, rest⟩
  · exact ⟨x, rest⟩
  · cases x with
    | nil => exact ⟨[], rest.symm⟩
    | cons e x =>
        simp only [List.cons_append, List.cons.injEq] at rest
        rw [front] at h
        exact absurd rest.1.symm (h e (by simp) c p)

namespace LockInv

theorem append (hL : LockInv trace) (h : ∀ e ∈ es, e.unlocked = true) :
    LockInv (es ++ trace) := by
  refine ⟨(lockHolder_append h).trans hL.free, ?_⟩
  intro later c p earlier same
  have none : ∀ e ∈ es, ∀ c p, e ≠ .released c p := by
    rintro e he c p rfl
    cases h _ he
  obtain ⟨later', rest⟩ := released_behind none same
  exact hL.hooks later' c p earlier rest

theorem release (hL : LockInv trace) (c : ℕ) (p : HandlePtr) :
    LockInv (.released c p :: trace) := by
  refine ⟨hL.free, ?_⟩
  intro later c' p' earlier same
  cases later with
  | nil =>
      cases same
      exact hL.free
  | cons e later =>
      simp only [List.cons_append, List.cons.injEq] at same
      exact hL.hooks later c' p' earlier same.2

/-- A critical section in which no hook is run. -/
theorem locked (hL : LockInv trace) (c : ℕ) (h : ∀ e ∈ es, e.unlocked = true) :
    LockInv (.unlock c :: (es ++ .lock c :: trace)) := by
  refine ⟨rfl, ?_⟩
  intro later c' p earlier same
  have none : ∀ e ∈ .unlock c :: (es ++ [.lock c]), ∀ c p, e ≠ .released c p := by
    rintro e he c p rfl
    rcases List.mem_cons.mp he with he | he
    · cases he
    rcases List.mem_append.mp he with he | he
    · cases h _ he
    · cases List.mem_singleton.mp he
  have split : .unlock c :: (es ++ [.lock c]) ++ trace = later ++ .released c' p :: earlier := by
    rw [← same]
    simp
  obtain ⟨later', rest⟩ := released_behind none split
  exact hL.hooks later' c' p earlier rest

/-- Before the end of `vfs_destroy`. -/
theorem stepLive (hL : LockInv s.trace) (hI : Inv s s.frames)
    (h : FlowiVfs.step s a = some s') (hlive : s'.destroyed = false) : LockInv s'.trace := by
  cases a with
  | start t request =>
      simp only [FlowiVfs.step] at h
      split_ifs at h
      cases h
      exact hL
  | job j input =>
      simp only [FlowiVfs.step] at h
      split_ifs at h
      obtain ⟨k, d, phase, f, es, -, -, hm, rfl⟩ := jobStep_cases h
      apply hL.append
      intro e he
      cases hm with
      | cancel | run =>
          rw [mem_callbackEvents he]
          rfl
      | begin | find | fail | store => simp at he
      | enter | leave | finish =>
          rw [List.mem_singleton.mp he]
          rfl
  | exec c sched =>
      obtain ⟨t, i, rest, s₁, new, hc, -, -, hx, rfl⟩ := step_exec h
      obtain ⟨F, hF, -⟩ := flatMap_set_todo new hc
      have hJ : Inv s (i :: F) := hI.perm hF
      obtain ⟨s₀, s₂, hbody, hlock⟩ := exec_body hx
      rcases hlock with ⟨locked, rfl, rfl⟩ | ⟨-, rfl, rfl⟩
      · rcases body_hooks (hJ.emit (by simp) (by simp)) hbody hlive with
          ⟨p, ps, rfl, -, -⟩ | ⟨-, hS⟩
        · cases locked
        · obtain ⟨es, hes, quiet⟩ := hS.trace
          have section_ := hL.locked c fun e he => Event.silent_unlocked (quiet e he)
          simp only [VfsState.emit_trace, hes]
          exact section_
      · rcases body_hooks hJ hbody hlive with ⟨p, ps, rfl, -, rfl⟩ | ⟨-, hS⟩
        · exact hL.release c p
        · obtain ⟨es, hes, quiet⟩ := hS.trace
          simp only [hes]
          exact hL.append fun e he => Event.silent_unlocked (quiet e he)

theorem step (hL : LockInv s.trace) (hI : s.destroyed = false → Inv s s.frames)
    (h : FlowiVfs.step s a = some s') : LockInv s'.trace := by
  cases hlive : s'.destroyed with
  | false => exact hL.stepLive (hI (step_keeps_destroyed h hlive)) h hlive
  | true =>
      cases live : s.destroyed with
      | false =>
          obtain ⟨c, sched, t, rest, -, -, -, rfl⟩ := step_destroys h live hlive
          have after : LockInv ([.destroyed c] ++ s.trace) := hL.append (by simp [Event.unlocked])
          exact after
      | true =>
          obtain ⟨c, t, i, rest, new, -, -, rfl | ⟨p, ps, -, -, rfl⟩⟩ := step_after_destroy h live
          · exact hL
          · exact hL.release c p

end LockInv

end Lock

/-! ## Runs -/

section Runs

variable {s s' : VfsState} {a : Action} {F : List Instr}

theorem HookInv.stepLive (hH : HookInv s s.frames) (hI : Inv s s.frames) (hD : Disciplined s a)
    (hstep : FlowiVfs.step s a = some s') (hlive : s'.destroyed = false) : HookInv s' s'.frames := by
  refine step_rule (P := HookInv) hI hD hstep hlive hH (fun _ _ _ h hp => h.perm hp)
    (fun _ _ cs h => h.calls cs) ?_ ?_ ?_ ?_
  · rintro s F c e (rfl | rfl) h
    · have after : HookInv { s with trace := [.lock c] ++ s.trace } F := h.record (by simp)
      exact after
    · have after : HookInv { s with trace := [.unlock c] ++ s.trace } F := h.record (by simp)
      exact after
  · intro t request _
    have same : pendingHooks (request.program ++ s.frames) = pendingHooks s.frames := by
      rw [pendingHooks_append, request.program_hooks, List.nil_append]
    refine ⟨?_, ?_, ?_, hH.order⟩
    · rw [same]
      exact hH.live
    · rw [same]
      exact hH.dead
    · rw [same]
      exact hH.unborn
  · intro j input k d phase g es _ _ hd hm
    exact hH.jobMove hI.toTable hd hm
  · intro c sched t i rest F s₀ s₂ new _ _ _ _ h hI _ hx hlive
    rcases body_hooks hI hx hlive with ⟨p, ps, rfl, rfl, rfl⟩ | ⟨point, hS⟩
    · exact h.run c
    · exact h.step hI.toTable point hS

/-- The end of `vfs_destroy`, and the hooks that are run after it. -/
theorem HookInv.stepDead (hH : HookInv s s.frames) (hstep : FlowiVfs.step s a = some s')
    (hdead : s'.destroyed = true) : HookInv s' s'.frames := by
  cases live : s.destroyed with
  | false =>
      obtain ⟨c, sched, t, rest, -, hc, -, rfl⟩ := step_destroys hstep live hdead
      obtain ⟨F, hF, hF'⟩ := flatMap_set_todo [] hc
      have before : HookInv s F := by
        have front := hH.perm hF
        exact ⟨front.live, front.dead, front.unborn, front.order⟩
      have after : HookInv { s with trace := [.destroyed c] ++ s.trace } F :=
        before.record (by simp)
      refine HookInv.perm (F := F) ?_ hF'.symm
      exact ⟨after.live, after.dead, after.unborn, after.order⟩
  | true =>
      cases a with
      | start t request => simp [FlowiVfs.step, live] at hstep
      | job j input => simp [FlowiVfs.step, live] at hstep
      | exec c sched =>
          obtain ⟨t, i, rest, s₁, new, hc, -, later, hx, rfl⟩ := step_exec hstep
          obtain ⟨F, hF, hF'⟩ := flatMap_set_todo new hc
          have front := hH.perm hF
          have out := later live
          have unlocked : i.locked = false := by
            cases i with
            | releases | waitJobs => rfl
            | _ => cases out
          obtain ⟨s₀, s₂, hbody, hlock⟩ := exec_body hx
          rcases hlock with ⟨locked, -⟩ | ⟨-, rfl, rfl⟩
          · rw [unlocked] at locked
            cases locked
          · refine HookInv.perm ?_ hF'.symm
            rcases body_outlives out hbody with ⟨rfl, shape⟩ | ⟨p, ps, rfl, rfl, rfl⟩
            · have same : pendingHooks (new ++ F) = pendingHooks (i :: F) := by
                rcases shape with ⟨rfl, rfl⟩ | ⟨rfl, rfl⟩ | ⟨j, js, rfl, rfl⟩ <;> rfl
              refine HookInv.calls ⟨?_, ?_, ?_, front.order⟩ _
              · rw [same]
                exact front.live
              · rw [same]
                exact front.dead
              · rw [same]
                exact front.unborn
            · exact (front.run c).calls _

theorem hookInv_reaches (h : Reaches FlowiVfs.step Careful .init s) : HookInv s s.frames := by
  refine h.invariant_of (I := fun s => s.destroyed = false → Inv s s.frames)
    (fun s h => careful_inv h) (P := fun s => HookInv s s.frames) ?_ ?_
  · refine ⟨?_, ?_, ?_, List.Pairwise.nil⟩
    all_goals simp [VfsState.init, VfsState.frames, hooksRun, pendingHooks]
  · intro t a u hI _ hH hC hstep
    cases hlive : u.destroyed with
    | false => exact hH.stepLive (hI (step_keeps_destroyed hstep hlive)) hC.1 hstep hlive
    | true => exact hH.stepDead hstep hlive

theorem lockInv_reaches (h : Reaches FlowiVfs.step Careful .init s) : LockInv s.trace := by
  refine h.invariant_of (I := fun s => s.destroyed = false → Inv s s.frames)
    (fun s h => careful_inv h) (P := fun s => LockInv s.trace) ?_ ?_
  · exact ⟨rfl, by simp [VfsState.init]⟩
  · intro t a u hI _ hL _ hstep
    exact hL.step hI hstep

/-- An unfinished job has its handle. -/
theorem running_reaches (h : Reaches FlowiVfs.step Careful .init s) :
    ∀ j k, s.jobs j = some k → k.phase.isFinished = false → ∃ d, s.pool k.target = some d := by
  refine h.invariant_of (I := fun s => s.destroyed = false → Inv s s.frames)
    (fun s h => careful_inv h)
    (P := fun s => ∀ j k, s.jobs j = some k → k.phase.isFinished = false →
      ∃ d, s.pool k.target = some d) ?_ ?_
  · intro j k hj
    simp [VfsState.init] at hj
  · intro t a u _ hI hP _ hstep j k hj unfinished
    cases hlive : u.destroyed with
    | false =>
        obtain ⟨d, hd, -⟩ := (hI hlive).running j k hj unfinished
        exact ⟨d, hd⟩
    | true =>
        obtain ⟨hpool, hjobs, -⟩ := destroyed_core hstep hlive
        rw [hjobs] at hj
        rw [hpool]
        exact hP j k hj unfinished

/-- What holds of the release hooks. The last field is about the end of `vfs_destroy`: what
the hooks lack then is in the hands of calls that have not returned. -/
structure HooksSound (s : VfsState) : Prop where
  once : ∀ p m r, .published p m r ∈ s.trace → hooksRun s.trace p ≤ if r then 1 else 0
  afterJobs : ∀ c p, .released c p ∈ s.trace → ∀ j k, s.jobs j = some k → k.target = p →
    k.phase.isFinished = true
  afterCallback : s.trace.Pairwise fun newer older =>
    ∀ c p, newer = .callback p → older ≠ .released c p
  unlocked : ∀ later c p earlier, s.trace = later ++ .released c p :: earlier →
    lockHolder earlier = none
  running : ∀ j k, s.jobs j = some k → k.phase.isFinished = false → ∃ d, s.pool k.target = some d
  settled : s.destroyed = true → ∀ p m r, .published p m r ∈ s.trace →
    hooksRun s.trace p + (pendingHooks s.frames).count p = if r then 1 else 0

/-- In every careful run hooks are run once, after the job and the callback, without the lock,
and up to those in the hands of unfinished calls all have been run when `vfs_destroy` ends. -/
theorem hooks_sound (h : Reaches FlowiVfs.step Careful .init s) : HooksSound s := by
  have hH := hookInv_reaches h
  have running := running_reaches h
  refine ⟨?_, ?_, hH.order, (lockInv_reaches h).hooks, running, ?_⟩
  · intro p m r named
    cases hd : s.pool p with
    | none =>
        have count := hH.dead p hd m r named
        omega
    | some d =>
        have count := (hH.live p d hd).1
        omega
  · intro c p released j k hj target
    by_contra unfinished
    obtain ⟨d, hd⟩ := running j k hj (by simpa using unfinished)
    have run := hooksRun_of_mem released
    have none := (hH.live k.target d hd).1
    rw [target] at none
    omega
  · intro dead p m r named
    exact hH.dead p (destroyed_empty h dead p) m r named

/-- A prepared read, never dispatched, is closed, and the VFS destroyed. -/
theorem hooks_sound_prepared : ∃ s, Reaches FlowiVfs.step Careful .init s ∧ s.destroyed = true ∧
    hooksRun s.trace 1 = 1 ∧ HooksSound s := by
  let actions := [.start .main .mountOpen] ++ callSteps 0 3 ++ jobRuns 1 completed ++
    [.start .main (.prepare ⟨0, true, true, 0⟩)] ++ callSteps 1 2 ++
    [.start .main (.close 2)] ++ callSteps 2 6 ++ [.start .main .destroy] ++ callSteps 3 17
  have hrun : ((replay FlowiVfs.step Careful actions .init).map
      fun s => (s.destroyed, hooksRun s.trace 1)) = some (true, 1) := by
    decide +kernel
  obtain ⟨s, hs, hfacts⟩ := Option.map_eq_some_iff.mp hrun
  simp only [Prod.mk.injEq] at hfacts
  have hreach := replay_reaches actions hs
  exact ⟨s, hreach, hfacts.1, hfacts.2, hooks_sound hreach⟩

/-- A worker has freed a read and has not run its hook when the main thread is through with
`vfs_destroy`. A read that is dispatched twice is freed under its first job. And the close of a
mount frees the read of another one, under its job, that was given the id of a victim. -/
theorem hook_outlives_destroy :
    (∃ s, Reaches FlowiVfs.step Careful .init s ∧ s.destroyed = true ∧
      .published 1 0 true ∈ s.trace ∧ hooksRun s.trace 1 = 0) ∧
    (∃ s k, Reaches FlowiVfs.step FreshIds .init s ∧ .released 4 1 ∈ s.trace ∧
      s.jobs 2 = some k ∧ k.target = 1 ∧ k.phase.isFinished = false) ∧
    ∃ s k, Reaches FlowiVfs.step FreshIds .init s ∧ .published 3 1 true ∈ s.trace ∧
      .released 3 3 ∈ s.trace ∧ s.jobs 4 = some k ∧ k.target = 3 ∧ k.phase.isFinished = false := by
  let prepared := [.start .main .mountOpen] ++ callSteps 0 3 ++ jobRuns 1 completed ++
    [.start .main (.prepare ⟨0, true, true, 0⟩)] ++ callSteps 1 2
  refine ⟨?_, ?_, ?_⟩
  · let actions := prepared ++ [.start (.worker 0) (.close 2)] ++ callSteps 2 4 ++
      [.start .main .destroy] ++ callSteps 3 17
    have hrun : ((replay FlowiVfs.step Careful actions .init).map fun s =>
        (s.destroyed, decide (.published 1 0 true ∈ s.trace), hooksRun s.trace 1)) =
          some (true, true, 0) := by
      decide +kernel
    obtain ⟨s, hs, hfacts⟩ := Option.map_eq_some_iff.mp hrun
    simp only [Prod.mk.injEq, decide_eq_true_eq] at hfacts
    exact ⟨s, replay_reaches actions hs, hfacts⟩
  · let actions := prepared ++ [.start .main (.dispatch 2)] ++ callSteps 2 3 ++
      [.start .main (.dispatch 2)] ++ callSteps 3 3 ++ jobRuns 3 completed ++
      [.start .main (.close 2)] ++ callSteps 4 5
    have hrun : ((replay FlowiVfs.step FreshIds actions .init).map fun s =>
        (decide (.released 4 1 ∈ s.trace),
          (s.jobs 2).map fun k => (k.target, k.phase.isFinished))) =
          some (true, some (1, false)) := by
      decide +kernel
    obtain ⟨s, hs, hfacts⟩ := Option.map_eq_some_iff.mp hrun
    simp only [Prod.mk.injEq, decide_eq_true_eq] at hfacts
    obtain ⟨k, hk, hjob⟩ := Option.map_eq_some_iff.mp hfacts.2
    simp only [Prod.mk.injEq] at hjob
    exact ⟨s, k, replay_reaches actions hs, hfacts.1, hk, hjob⟩
  · let actions := [.start .main .mountOpen] ++ callSteps 0 3 ++ jobRuns 1 completed ++
      [.start .main .mountOpen] ++ callSteps 1 3 ++ jobRuns 2 completed ++
      [.start .main (.openFile 0)] ++ callSteps 2 3 ++ jobRuns 3 (opened 7) ++
      [.start .main (.mountClose 0)] ++ callSteps 3 6 ++
      [.start (.worker 0) (.close 3)] ++ callSteps 4 5 ++
      [.start (.worker 0) (.readAll ⟨1, true, true, 3⟩)] ++ callSteps 5 3 ++ callSteps 3 4
    have hrun : ((replay FlowiVfs.step FreshIds actions .init).map fun s =>
        (decide (.published 3 1 true ∈ s.trace), decide (.released 3 3 ∈ s.trace),
          (s.jobs 4).map fun k => (k.target, k.phase.isFinished))) =
          some (true, true, some (3, false)) := by
      decide +kernel
    obtain ⟨s, hs, hfacts⟩ := Option.map_eq_some_iff.mp hrun
    simp only [Prod.mk.injEq, decide_eq_true_eq] at hfacts
    obtain ⟨k, hk, hjob⟩ := Option.map_eq_some_iff.mp hfacts.2.2
    simp only [Prod.mk.injEq] at hjob
    exact ⟨s, k, replay_reaches actions hs, hfacts.1, hfacts.2.1, hk, hjob⟩

end Runs

end FlowiVfs
