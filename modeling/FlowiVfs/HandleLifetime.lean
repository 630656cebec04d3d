import FlowiVfs.FileChains

/-!
# How long callers can name a handle

A handle enters the map when it is published and stays there, under its own id,
until it is freed; and it is freed only after `vfs_close` took it from its
callers, or by the close of its mount. `Retained s s'` says so for one step.
-/
namespace FlowiVfs

open Transition

/-- What a step leaves of the handles that callers can name. -/
structure Retained (s s' : VfsState) : Prop where
  ptr : s.nextPtr ≤ s'.nextPtr
  closing : ∀ m ∈ s.closing, m ∈ s'.closing
  trace : ∀ e ∈ s.trace, e ∈ s'.trace
  /-- A handle of the map stays there or is freed, which its close or that of its mount does. -/
  keeps : ∀ h p d, s.mapGet h = some p → s.pool p = some d →
    (∃ d', s'.pool p = some d' ∧ s'.mapGet h = some p ∧ d'.id = d.id ∧ d'.mount = d.mount) ∨
      (p < s'.nextPtr ∧ s'.pool p = none ∧
        (d.closed = true ∨ .closed p ∈ s'.trace ∨ d.mount ∈ s'.closing))
  dead : ∀ p < s.nextPtr, s.pool p = none → s'.pool p = none
  flag : ∀ p d', s'.pool p = some d' → d'.closed = true →
    .closed p ∈ s'.trace ∨ ∃ d, s.pool p = some d ∧ d.closed = true

section Lifetime

variable {s s' s'' : VfsState} {F new : List Instr} {i : Instr} {p : HandlePtr}
  {d : VfsHandleData} {h : FlVfsHandle} {c : ℕ} {t : Thread} {sched : Sched} {m : MountPtr}
  {f : VfsHandleData → VfsHandleData} {cause : FreeCause}

/-- A step that leaves the handles alone. -/
theorem Retained.quiet (hpool : s'.pool = s.pool) (hmap : ∀ h, s'.mapGet h = s.mapGet h)
    (hptr : s'.nextPtr = s.nextPtr) (hclosing : ∀ m ∈ s.closing, m ∈ s'.closing)
    (htrace : ∃ es, s'.trace = es ++ s.trace) : Retained s s' := by
  obtain ⟨es, hes⟩ := htrace
  refine ⟨Nat.le_of_eq hptr.symm, hclosing, fun e he => ?_, fun h p d hm hd => .inl ⟨d, ?_, ?_, rfl, rfl⟩,
    fun p _ hn => ?_, fun p d hd hc => .inr ⟨d, ?_, hc⟩⟩
  · rw [hes]; exact List.mem_append_right _ he
  · rw [hpool, hd]
  · rw [hmap, hm]
  · rw [hpool, hn]
  · rw [← hpool, hd]

theorem Retained.refl (s : VfsState) : Retained s s :=
  .quiet rfl (fun _ => rfl) rfl (fun _ h => h) ⟨[], rfl⟩

theorem Retained.trans (h₁ : Retained s s') (h₂ : Retained s' s'') : Retained s s'' where
  ptr := Nat.le_trans h₁.ptr h₂.ptr
  closing m hm := h₂.closing m (h₁.closing m hm)
  trace e he := h₂.trace e (h₁.trace e he)
  keeps h p d hm hd := by
    rcases h₁.keeps h p d hm hd with ⟨d', hd', hm', hid', hmount'⟩ | ⟨hp, hn, hcause⟩
    · rcases h₂.keeps h p d' hm' hd' with ⟨d'', hd'', hm'', hid'', hmount''⟩ | ⟨hp, hn, hcause⟩
      · exact .inl ⟨d'', hd'', hm'', hid''.trans hid', hmount''.trans hmount'⟩
      · refine .inr ⟨hp, hn, ?_⟩
        rcases hcause with hc | hc | hc
        · rcases h₁.flag p d' hd' hc with hc | ⟨e, he, hc⟩
          · exact .inr (.inl (h₂.trace _ hc))
          · rw [hd] at he
            cases he
            exact .inl hc
        · exact .inr (.inl hc)
        · exact .inr (.inr (hmount' ▸ hc))
    · exact .inr ⟨Nat.lt_of_lt_of_le hp h₂.ptr, h₂.dead p hp hn,
        hcause.imp_right fun hc => hc.imp (h₂.trace _) (h₂.closing _)⟩
  dead p hp hn := h₂.dead p (Nat.lt_of_lt_of_le hp h₁.ptr) (h₁.dead p hp hn)
  flag p d'' hd'' hc := by
    rcases h₂.flag p d'' hd'' hc with hc | ⟨d', hd', hc⟩
    · exact .inl hc
    · exact (h₁.flag p d' hd' hc).imp_left (h₂.trace _)

/-- A write to fields of a handle other than its id, its mount and the closed flag. -/
theorem Retained.touch (hf : KeepsIdentity f) (hclosed : ∀ d, (f d).closed = d.closed) :
    Retained s (s.modify p f) where
  ptr := le_rfl
  closing _ h := h
  trace _ h := h
  keeps h q d hm hd := by
    refine .inl ?_
    by_cases hq : q = p
    · subst hq
      exact ⟨f d, by simp [VfsState.modify_pool, hd], hm, (hf d).1, (hf d).2.1⟩
    · exact ⟨d, by rw [VfsState.modify_pool, if_neg hq, hd], hm, rfl, rfl⟩
  dead q _ hn := by
    rw [VfsState.modify_pool]
    split_ifs with hq
    · rw [← hq, hn]
      rfl
    · exact hn
  flag q d' hd' hc := by
    rcases modify_some hd' with ⟨rfl, d, hd, rfl⟩ | ⟨-, hd⟩
    · exact .inr ⟨d, hd, hclosed d ▸ hc⟩
    · exact .inr ⟨d', hd, hc⟩

theorem Retained.addJob (k : Job) : Retained s (s.addJob k) :=
  .quiet rfl (fun _ => rfl) rfl (fun _ h => h) ⟨[], rfl⟩

theorem Retained.emit (e : Event) : Retained s (s.emit e) :=
  .quiet rfl (fun _ => rfl) rfl (fun _ h => h) ⟨[e], rfl⟩

theorem Retained.openWindow (e : Event) : Retained s ((s.modify p openWindow).emit e) :=
  (Retained.touch (f := FlowiVfs.openWindow) (fun _ => ⟨rfl, rfl, rfl⟩) fun _ => rfl).trans (.emit e)

/-- `vfs_close` defers the freeing of a handle it cannot free yet. -/
theorem Retained.defer (n : ℤ) : Retained s
    (({ s with closedCount := n }.modify p fun d => { d with closed := true }).emit (.closed p)) where
  ptr := le_rfl
  closing _ h := h
  trace _ h := List.mem_cons_of_mem _ h
  keeps h q d hm hd := by
    refine .inl ?_
    by_cases hq : q = p
    · subst hq
      exact ⟨{ d with closed := true }, by simp [VfsState.modify_pool, hd], hm, rfl, rfl⟩
    · exact ⟨d, by rw [VfsState.emit_pool, VfsState.modify_pool, if_neg hq, hd], hm, rfl, rfl⟩
  dead q _ hn := by
    rw [VfsState.emit_pool, VfsState.modify_pool]
    split_ifs with hq
    · rw [← hq, hn]
      rfl
    · exact hn
  flag q d' hd' hc := by
    rcases modify_some hd' with ⟨rfl, -⟩ | ⟨-, hd⟩
    · exact .inl List.mem_cons_self
    · exact .inr ⟨d', hd, hc⟩

theorem Retained.alloc {params : VfsOpParams} (hT : Table s)
    (halloc : allocateHandle s params = some (p, s')) : Retained s s' := by
  obtain ⟨rfl, -, hpool, hptr, hmap, -, -, hclosing, htrace, -⟩ := allocateHandle_some halloc
  refine ⟨by rw [hptr]; exact Nat.le_succ _, fun m hm => hclosing ▸ hm, fun e he => htrace ▸ he,
    fun h q d hm hd => .inl ⟨d, ?_, ?_, rfl, rfl⟩, fun q hq hn => ?_,
    fun q d' hd' hc => .inr ⟨d', ?_, hc⟩⟩
  · rw [hpool, Function.update_of_ne (Nat.ne_of_lt (hT.poolBound q d hd)), hd]
  · rw [VfsState.mapGet_congr hmap, hm]
  · rw [hpool, Function.update_of_ne (Nat.ne_of_lt hq), hn]
  · rw [hpool, Function.update_apply] at hd'
    split_ifs at hd'
    · cases hd'
      cases hc
    · exact hd'

/-- The handles have different ids, so the new entry replaces none. -/
theorem Retained.publish (hT : Table s) : Retained s (vfsPublishHandle s p) := by
  unfold vfsPublishHandle
  split
  · rename_i d hd
    have hget : ∀ h q e, s.mapGet h = some q → s.pool q = some e →
        VfsState.mapGet { s with handleMap := s.handleMap.insert d.id p } h = some q := by
      intro h q e hm he
      rw [VfsState.mapGet_insert p rfl]
      split_ifs with hid
      · obtain ⟨e', he', hid'⟩ := hT.mapped h q hm
        rw [hT.distinct q p e' d he' hd (hid'.trans hid)]
      · exact hm
    refine ⟨le_rfl, fun _ h => h, fun _ h => List.mem_cons_of_mem _ h,
      fun h q e hm he => .inl ⟨e, he, hget h q e hm he, rfl, rfl⟩, fun _ _ hn => hn,
      fun q e he hc => .inr ⟨e, he, hc⟩⟩
  · exact .refl s

/-- Freeing a handle that was closed or whose mount is being closed. -/
theorem Retained.free (cause : FreeCause) (hT : Table s) (hd : s.pool p = some d) (hmap : s.mapGet d.id = some p)
    (hcause : d.closed = true ∨ .closed p ∈ s.trace ∨ d.mount ∈ s.closing) :
    Retained s (vfsFreeHandleLocked s p cause).1 := by
  obtain ⟨hpool, herase, htrace, -⟩ := free_live cause hd
  obtain ⟨-, -, hptr, hclosing, -⟩ := free_frame s p cause
  have hold : ∀ e ∈ s.trace, e ∈ (vfsFreeHandleLocked s p cause).1.trace := fun e he => by
    rw [htrace]
    exact List.mem_cons_of_mem _ (List.mem_append_right _ he)
  refine ⟨Nat.le_of_eq hptr.symm, fun m hm => by rwa [hclosing], hold, fun h q e hm he => ?_,
    fun q _ hn => ?_, fun q e he hc => .inr ⟨e, (free_pool_some he).2, hc⟩⟩
  · by_cases hq : q = p
    · subst hq
      rw [hd] at he
      cases he
      refine .inr ⟨hptr ▸ hT.poolBound q d hd, by rw [hpool, Function.update_self],
        hcause.imp_right fun hc => hc.imp (hold _) fun hc => by rwa [hclosing]⟩
    · refine .inl ⟨e, by rw [hpool, Function.update_of_ne hq, he], ?_, rfl, rfl⟩
      obtain ⟨e', he', hid⟩ := hT.mapped h q hm
      rw [VfsState.mapGet_erase herase, if_neg, hm]
      exact fun heq => hq (hT.distinct q p e' d he' hd (hid.trans heq))
  · rw [hpool, Function.update_apply]
    split_ifs
    · rfl
    · exact hn

/-- A handle that may be freed: it is in the map, idle, and closed or on a closing mount. -/
def Freeable (s : VfsState) (p : HandlePtr) : Prop :=
  ∀ d, s.pool p = some d → (s.mapGet d.id = some p ∧ Idle s d) ∧
    (d.closed = true ∨ .closed p ∈ s.trace ∨ d.mount ∈ s.closing)

theorem Freeable.free (hT : Table s) {q : HandlePtr} (hq : Freeable s q) (hd : s.pool p = some d)
    (hp : Freeable s p) : Freeable (vfsFreeHandleLocked s p cause).1 q := by
  obtain ⟨⟨hmap, hidle⟩, hcause⟩ := hp d hd
  intro e he
  obtain ⟨-, he'⟩ := free_pool_some he
  obtain ⟨⟨hm, hi⟩, hc⟩ := hq e he'
  have hsweep := Sweep.free cause hT hd hmap hidle
  have hkeep := Retained.free cause hT hd hmap hcause
  refine ⟨⟨(hsweep.kept q e he).2 hm, ?_⟩, hc.imp_right fun hc => ?_⟩
  · simpa [Idle, VfsState.jobDone_congr hsweep.jobs] using hi
  · exact hc.imp (hkeep.trace _) (hkeep.closing _)

theorem Retained.freeHandles {ps : List HandlePtr} (hI : Inv s F) (hps : ∀ p ∈ ps, Freeable s p) :
    Retained s (freeHandles s ps cause).1 := by
  induction ps generalizing s with
  | nil => exact .refl s
  | cons p ps ih =>
      have hp := hps p List.mem_cons_self
      cases hd : s.pool p with
      | none =>
          simp only [FlowiVfs.freeHandles, free_dead hd]
          exact ih hI fun q hq => hps q (List.mem_cons_of_mem _ hq)
      | some d =>
          obtain ⟨⟨hmap, hidle⟩, hcause⟩ := hp d hd
          refine (Retained.free cause hI.toTable hd hmap hcause).trans
            (ih (hI.free hd hmap hidle) fun q hq => ?_)
          exact (hps q (List.mem_cons_of_mem _ hq)).free hI.toTable hd hp

theorem Retained.freeVictims {victims ids : List FlVfsHandle} (hI : Inv s F)
    (hi : Instr.mountFree m ids ∈ F) (hsub : ∀ id ∈ victims, id ∈ ids) :
    Retained s (vfsFreeMountVictims s m victims).1 := by
  induction victims generalizing s with
  | nil => exact .refl s
  | cons id victims ih =>
      have hsub' : ∀ id ∈ victims, id ∈ ids := fun id' h' => hsub id' (List.mem_cons_of_mem _ h')
      unfold vfsFreeMountVictims
      split
      · exact ih hI hsub'
      · rename_i p d hl
        obtain ⟨hmap, hd⟩ := (VfsState.lookupHandle_some p).mp hl
        obtain ⟨d', hd', hid⟩ := hI.mapped id p hmap
        rw [hd] at hd'
        cases hd'
        obtain ⟨hclosing, hv⟩ := hI.teardown _ hi m ids true rfl
        obtain ⟨hm, h₂, h₃⟩ := hv p d hd (hid ▸ hsub id List.mem_cons_self)
        exact (Retained.free _ hI.toTable hd h₂ (.inr (.inr (hm ▸ hclosing)))).trans
          (ih (hI.free hd h₂ (h₃ rfl)) hsub')

theorem Retained.reclaim (hI : Inv s F) : Retained s (vfsReclaimClosedHandles s).1 := by
  unfold vfsReclaimClosedHandles
  split_ifs
  · exact .refl s
  · refine .freeHandles hI fun p hp d hd => ⟨Inv.reclaim_idle hI.toTable p hp d hd, .inl ?_⟩
    simp only [List.mem_map, List.mem_filter] at hp
    obtain ⟨⟨h, q, e⟩, ⟨hmem, hrec⟩, rfl⟩ := hp
    have he := (mem_mapEntries.mp hmem).2
    simp only at hd he hrec
    rw [he] at hd
    cases hd
    simp only [vfsHandleIsReclaimable, Bool.and_eq_true] at hrec
    exact hrec.1.1

theorem Retained.closeFinish {borrows : Bool} (hI : Inv s F) :
    Retained s (FlowiVfs.closeFinish s t h borrows).1 := by
  unfold FlowiVfs.closeFinish
  split
  · exact .refl s
  · rename_i p d hl
    obtain ⟨hmap, hd, -⟩ := (VfsState.lookupOpenHandle_some p).mp hl
    obtain ⟨d', hd', hid⟩ := hI.mapped h p hmap
    rw [hd] at hd'
    cases hd'
    split_ifs
    · have hT : Table (s.emit (.closed p)) := (hI.emit (by simp) (by simp)).toTable
      exact (Retained.emit _).trans
        (.free _ hT hd (by rw [hid]; exact hmap) (.inr (.inl List.mem_cons_self)))
    · exact .refl s
    · exact .refl s
    · exact .defer _

theorem Retained.setJobs {j : FlJobHandle} : Retained s (s.modify p (setJobs j)) :=
  .touch (fun _ => ⟨rfl, rfl, rfl⟩) fun _ => rfl

theorem LaunchExec.retained (hx : LaunchExec s t i s' new) (hT : Table s) : Retained s s' := by
  cases hx with
  | refused | prepareRefused => exact .refl s
  | allocated known halloc => exact .alloc hT halloc
  | prepared known halloc => exact (Retained.alloc hT halloc).trans (.emit _)
  | queued => exact (Retained.addJob _).trans .setJobs
  | inlined => exact .addJob _
  | ran => exact .setJobs
  | published => exact .publish hT

theorem MountExec.retained (hx : MountExec s t i s' new) (hT : Table s) : Retained s s' := by
  cases hx with
  | opened lock halloc =>
      have hlisted : Retained s { s with
          nextMount := s.nextMount + 1, mountList := s.mountList ++ [s.nextMount] } :=
        .quiet rfl (fun _ => rfl) rfl (fun _ h => h) ⟨[], rfl⟩
      have hT' : Table { s with
          nextMount := s.nextMount + 1, mountList := s.mountList ++ [s.nextMount] } :=
        hT.of_core rfl (fun _ => rfl) rfl rfl rfl fun _ => ⟨Iff.rfl, Iff.rfl⟩
      exact hlisted.trans (.alloc hT' halloc)
  | inlined => exact .addJob _
  | queued => exact (Retained.addJob _).trans .setJobs
  | ran => exact .setJobs
  | @published m p j =>
      have hset : Retained s { s with mounts := Function.update s.mounts m (some ⟨j⟩) } :=
        .quiet rfl (fun _ => rfl) rfl (fun _ h => h) ⟨[], rfl⟩
      exact hset.trans
        (.publish (hT.of_core rfl (fun _ => rfl) rfl rfl rfl fun _ => ⟨Iff.rfl, Iff.rfl⟩))

theorem DispatchExec.retained (hx : DispatchExec s t i s' new) : Retained s s' := by
  cases hx with
  | missing | ran => exact .refl s
  | entered => exact .openWindow _
  | queued | inlined => exact .addJob _
  | recorded =>
      unfold dispatchRecord
      split_ifs
      · exact .touch (fun _ => ⟨rfl, rfl, rfl⟩) fun _ => rfl
      · exact .refl s

theorem ChainExec.retained (hx : ChainExec s t i s' new) (hI : Inv s (i :: F)) :
    Retained s s' := by
  have hT := hI.toTable
  cases hx with
  | copiedOnly | copied => exact .quiet rfl (fun _ => rfl) rfl (fun _ h => h) ⟨[_], rfl⟩
  | refused => exact .refl s
  | entered => exact .openWindow _
  | allocated known halloc =>
      exact (Retained.alloc hT halloc).trans (.touch (fun _ => ⟨rfl, rfl, rfl⟩) fun _ => rfl)
  | unwound =>
      obtain ⟨d, -, -, -, hunwind⟩ := chainUnwind_live hI
      rw [hunwind]
      exact .touch (fun _ => ⟨rfl, rfl, rfl⟩) fun _ => rfl
  | blocked => exact .touch (fun _ => ⟨rfl, rfl, rfl⟩) fun _ => rfl
  | inlined => exact .addJob _
  | queued => exact (Retained.addJob _).trans .setJobs
  | ran => exact .setJobs
  | @published h file p refused =>
      obtain ⟨d, op, -, -, -, -, -, hpublish⟩ := chainPublish_live hI
      rw [hpublish]
      have hkeeps : KeepsIdentity (recordOn refused op.jobHandle) := fun _ => ⟨rfl, rfl, rfl⟩
      exact (Retained.touch hkeeps fun _ => rfl).trans (.publish (hT.modify hkeeps))

theorem CloseExec.retained (hx : CloseExec s c t i s' new) (hI : Inv s (i :: F)) :
    Retained s s' := by
  cases hx with
  | canceled => exact .touch (fun _ => ⟨rfl, rfl, rfl⟩) fun _ => rfl
  | reclaimed => exact .reclaim (hI.drop rfl rfl)
  | hook => exact .emit _
  | closed => exact .closeFinish (hI.drop rfl rfl)
  | _ => exact .refl s

theorem TeardownExec.retained (hx : TeardownExec s c i s' new) (hI : Inv s (i :: F))
    (hlive : s'.destroyed = false) : Retained s s' := by
  cases hx with
  | unlisted => exact .quiet rfl (fun _ => rfl) rfl (fun _ h => h) ⟨[], rfl⟩
  | snapshot => exact .quiet rfl (fun _ => rfl) rfl (fun _ h => List.mem_cons_of_mem _ h) ⟨[], rfl⟩
  | unknown | draining | drained | next => exact .refl s
  | freed => exact .freeVictims hI List.mem_cons_self fun _ h => h
  | destroyed => exact .quiet rfl (fun _ => rfl) rfl (fun _ h => h) ⟨[_], rfl⟩
  | cleared => cases hlive

/-- Every body, up to the end of `vfs_destroy`. -/
theorem body_retained (hI : Inv s (i :: F)) (hx : execBody s c t sched i = some (s', new))
    (hlive : s'.destroyed = false) : Retained s s' := by
  cases execBody_some hx with
  | launch h => exact h.retained hI.toTable
  | mount h => exact h.retained hI.toTable
  | dispatch h => exact h.retained
  | chain h => exact h.retained hI
  | close h => exact h.retained hI
  | teardown h => exact h.retained hI hlive

theorem JobMove.retained {j : FlJobHandle} {k : Job} {phase : JobPhase} {es : List Event}
    (hm : JobMove s j k d phase f es) : Retained s (afterMove s j p phase f es) := by
  have hclosed : ∀ d, (f d).closed = d.closed := by
    intro d
    cases hm <;> rfl
  exact (Retained.touch hm.keeps.1 hclosed).trans
    (.quiet rfl (fun _ => rfl) rfl (fun _ h => h) ⟨es, rfl⟩)

/-- A handle is only marked closed by `vfs_close`. -/
def CloseFlags (s : VfsState) : Prop :=
  ∀ p d, s.pool p = some d → d.closed = true → .closed p ∈ s.trace

theorem closeFlags_init : CloseFlags .init := by
  intro p d hd
  simp [VfsState.init] at hd

theorem CloseFlags.retained (hL : CloseFlags s) (h : Retained s s') : CloseFlags s' := by
  intro p d' hd' hc
  rcases h.flag p d' hd' hc with hc | ⟨d, hd, hc⟩
  · exact hc
  · exact h.trace _ (hL p d hd hc)

end Lifetime

/-! ## Steps and runs -/

section Runs

variable {s s' : VfsState} {a : Action} {p : HandlePtr} {d : VfsHandleData} {h : FlVfsHandle}

/-- A property that every `Retained` keeps is kept by every step before the end of `vfs_destroy`. -/
theorem step_retained {P : VfsState → Prop} (hI : Inv s s.frames) (hD : Disciplined s a)
    (hstep : step s a = some s') (hlive : s'.destroyed = false) (hP : P s)
    (keeps : ∀ u v, Retained u v → P u → P v) : P s' := by
  refine step_rule (P := fun s _ => P s) hI hD hstep hlive hP (fun _ _ _ h _ => h) ?_ ?_ ?_ ?_ ?_
  · exact fun s _ cs => keeps _ _ (.quiet rfl (fun _ => rfl) rfl (fun _ h => h) ⟨[], rfl⟩)
  · rintro s _ c e (rfl | rfl)
    · exact keeps _ _ (.emit _)
    · exact keeps _ _ (.emit _)
  · exact fun _ _ _ => hP
  · exact fun j input k d phase g es _ _ _ hm => keeps _ _ hm.retained hP
  · exact fun c sched t i rest F s₀ s₂ new _ _ _ _ h hI _ hx hlive =>
      keeps _ _ (body_retained hI hx hlive) h

theorem closeFlags_reaches (h : Reaches step Disciplined .init s) :
    s.destroyed = false → CloseFlags s := by
  refine h.invariant_of (I := fun s => s.destroyed = false → Inv s s.frames)
    (fun s h => inv_reaches (fun _ _ hok => hok) h)
    (P := fun s => s.destroyed = false → CloseFlags s) (fun _ => closeFlags_init) ?_
  intro t a u hI _ hL hD hstep hlive
  have hlive' := step_keeps_destroyed hstep hlive
  exact step_retained (hI hlive') hD hstep hlive (hL hlive') fun u v hr hL => hL.retained hr

/-- Neither the handle nor its mount has been closed. -/
def StillOpen (s : VfsState) (p : HandlePtr) (m : MountPtr) : Prop :=
  s.destroyed = false ∧ .closed p ∉ s.trace ∧ m ∉ s.closing

/-- The handle has kept its id, or it or its mount has been closed. -/
def KeptUnless (h : FlVfsHandle) (p : HandlePtr) (m : MountPtr) (s : VfsState) : Prop :=
  (∃ d, s.pool p = some d ∧ s.mapGet h = some p ∧ d.mount = m) ∨ .closed p ∈ s.trace ∨ m ∈ s.closing

theorem KeptUnless.retained {m : MountPtr} (hk : KeptUnless h p m s) (hL : CloseFlags s)
    (hr : Retained s s') : KeptUnless h p m s' := by
  rcases hk with ⟨d, hd, hm, hmount⟩ | hc | hc
  · rcases hr.keeps h p d hm hd with ⟨d', hd', hm', -, hmount'⟩ | ⟨-, -, hc | hc | hc⟩
    · exact .inl ⟨d', hd', hm', hmount'.trans hmount⟩
    · exact .inr (.inl (hr.trace _ (hL p d hd hc)))
    · exact .inr (.inl hc)
    · exact .inr (.inr (hmount ▸ hc))
  · exact .inr (.inl (hr.trace _ hc))
  · exact .inr (.inr (hr.closing _ hc))

theorem keptUnless_reaches {m : MountPtr} (hs : Reaches step Disciplined .init s)
    (h' : Reaches step Disciplined s s') (hk : s.destroyed = false → KeptUnless h p m s) :
    s'.destroyed = false → KeptUnless h p m s' := by
  refine h'.invariant_of (I := fun s => s.destroyed = false → Inv s s.frames ∧ CloseFlags s)
    (fun u hu hlive => ⟨inv_reaches (fun _ _ hok => hok) (hs.trans hu) hlive,
      closeFlags_reaches (hs.trans hu) hlive⟩)
    (P := fun u => u.destroyed = false → KeptUnless h p m u) hk ?_
  intro t a u hI _ hP hD hstep hlive
  have hlive' := step_keeps_destroyed hstep hlive
  obtain ⟨hInv, hL⟩ := hI hlive'
  exact (step_retained (P := fun u => CloseFlags u ∧ KeptUnless h p m u) hInv hD hstep hlive
    ⟨hL, hP hlive'⟩ fun u v hr hP => ⟨hP.1.retained hr, hP.2.retained hP.1 hr⟩).2

/-- A handle that callers can name keeps its id until it or its mount is closed. -/
theorem stays_open (hs : Reaches step Disciplined .init s) (h' : Reaches step Disciplined s s')
    (hl : s.lookupOpenHandle h = some (p, d)) (hopen : StillOpen s' p d.mount) :
    ∃ d', s'.lookupOpenHandle h = some (p, d') := by
  obtain ⟨hmap, hd, -⟩ := (VfsState.lookupOpenHandle_some p).mp hl
  obtain ⟨hlive, hnc, hnm⟩ := hopen
  rcases keptUnless_reaches hs h' (fun _ => .inl ⟨d, hd, hmap, rfl⟩) hlive with
    ⟨e, he, hm, -⟩ | hc | hc
  · refine ⟨e, (VfsState.lookupOpenHandle_some p).mpr ⟨hm, he, ?_⟩⟩
    by_contra hc
    exact hnc (closeFlags_reaches (hs.trans h') hlive p e he (by simpa using hc))
  · exact absurd hc hnc
  · exact absurd hc hnm

end Runs

end FlowiVfs
