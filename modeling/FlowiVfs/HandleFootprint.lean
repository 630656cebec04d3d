import FlowiVfs.HandleLifetime

/-!
# What a call leaves of the handles that it does not name

A call reaches a handle by an id that it looks up, or because it made the handle and has not
published it. Everything else it leaves as it is, except that the sweep frees handles that were
closed, and the close of a mount those of the mount. `SparesHandle` says so for one step.
-/
namespace FlowiVfs

/-- The id by which a program point reaches a handle of the map. -/
def Instr.names : Instr → Option FlVfsHandle
  | .dispatch h | .dispatchSchedule h _ | .dispatchInline h _ _ _ | .dispatchRecord h _ _
  | .copyData h _ | .chain h _ | .chainAlloc h _ _ _ _ _ | .chainUnwind h _
  | .chainRun h _ _ _ _ | .chainInline h _ _ _ | .chainPublish h _ _ _ | .cancel h
  | .closeSnapshot h | .closeFinish h _ | .waitSnapshot h => some h
  | _ => none

/-- The job executes the operation of the handle, or one chained onto it. -/
def Job.reaches (k : Job) (p : HandlePtr) : Prop := k.target = p ∨ ∃ n, k.chained = some (n, p)

/-- The handle keeps its data and its place in the map, and gets no job. -/
structure SparesHandle (s s' : VfsState) (p : HandlePtr) : Prop where
  pool : s'.pool p = s.pool p
  mapped : ∀ h, s.mapGet h = some p → s'.mapGet h = some p
  kept : ∀ j k, s.jobs j = some k → s'.jobs j = some k
  added : ∀ j k, s'.jobs j = some k → s.jobs j = some k ∨ ¬ k.reaches p

/-- The program point does not concern the handle, and nothing may free it. -/
structure Aside (s : VfsState) (i : Instr) (p : HandlePtr) : Prop where
  known : p < s.nextPtr
  unowned : i.owns ≠ some p
  unnamed : ∀ h ∈ i.names, s.mapGet h ≠ some p
  spared : ∀ d, s.pool p = some d → d.closed = false ∧ d.mount ∉ s.closing

section Spares

variable {s s' s'' : VfsState} {F new : List Instr} {i : Instr} {p q : HandlePtr}
  {d : VfsHandleData} {h : FlVfsHandle} {c : ℕ} {t : Thread} {sched : Sched} {m : MountPtr}
  {f : VfsHandleData → VfsHandleData} {cause : FreeCause}

theorem SparesHandle.same (hpool : s'.pool = s.pool) (hmap : ∀ h, s'.mapGet h = s.mapGet h)
    (hjobs : s'.jobs = s.jobs) : SparesHandle s s' p where
  pool := congrFun hpool p
  mapped h hm := (hmap h).trans hm
  kept _ _ hj := (congrFun hjobs _).trans hj
  added j _ hj := .inl ((congrFun hjobs j).symm.trans hj)

theorem SparesHandle.refl (s : VfsState) (p : HandlePtr) : SparesHandle s s p :=
  .same rfl (fun _ => rfl) rfl

theorem SparesHandle.trans (h₁ : SparesHandle s s' p) (h₂ : SparesHandle s' s'' p) :
    SparesHandle s s'' p where
  pool := h₂.pool.trans h₁.pool
  mapped h hm := h₂.mapped h (h₁.mapped h hm)
  kept j k hj := h₂.kept j k (h₁.kept j k hj)
  added j k hj := by
    rcases h₂.added j k hj with hj | hk
    · exact h₁.added j k hj
    · exact .inr hk

theorem SparesHandle.touch (hq : q ≠ p) : SparesHandle s (s.modify q f) p where
  pool := by rw [VfsState.modify_pool, if_neg hq.symm]
  mapped _ hm := hm
  kept _ _ hj := hj
  added _ _ hj := .inl hj

theorem SparesHandle.emit (e : Event) : SparesHandle s (s.emit e) p :=
  .same rfl (fun _ => rfl) rfl

theorem SparesHandle.addJob {k : Job} (hT : Table s) (hk : ¬ k.reaches p) :
    SparesHandle s (s.addJob k) p where
  pool := rfl
  mapped _ hm := hm
  kept j k' hj := hT.addJob_kept hj
  added j k' hj := by
    rcases VfsState.addJob_some hj with ⟨-, rfl⟩ | hj
    · exact .inr hk
    · exact .inl hj

theorem SparesHandle.alloc {params : VfsOpParams} (hp : p < s.nextPtr)
    (halloc : allocateHandle s params = some (q, s')) : SparesHandle s s' p := by
  obtain ⟨rfl, -, hpool, -, hmap, hjobs, -⟩ := allocateHandle_some halloc
  refine ⟨?_, fun h hm => ?_, fun j k hj => ?_, fun j k hj => .inl ?_⟩
  · rw [hpool, Function.update_of_ne (Nat.ne_of_lt hp)]
  · rw [VfsState.mapGet_congr hmap, hm]
  · rw [hjobs, hj]
  · rw [← hjobs, hj]

/-- The ids are distinct, so the entry of another handle replaces none of this one. -/
theorem SparesHandle.publish (hT : Table s) (hq : q ≠ p) :
    SparesHandle s (vfsPublishHandle s q) p := by
  unfold vfsPublishHandle
  split
  · rename_i d hd
    refine ⟨rfl, fun h hm => ?_, fun _ _ hj => hj, fun _ _ hj => .inl hj⟩
    have hget : VfsState.mapGet { s with handleMap := s.handleMap.insert d.id q } h = some p := by
      rw [VfsState.mapGet_insert q rfl, if_neg, hm]
      intro heq
      obtain ⟨e, he, hid⟩ := hT.mapped h p hm
      exact hq (hT.distinct q p d e hd he (heq.symm.trans hid.symm))
    exact hget
  · exact .refl s p

theorem SparesHandle.free (hT : Table s) (hq : q ≠ p) :
    SparesHandle s (vfsFreeHandleLocked s q cause).1 p := by
  cases hd : s.pool q with
  | none =>
      rw [free_dead hd]
      exact .refl s p
  | some d =>
      obtain ⟨hpool, herase, -⟩ := free_live cause hd
      obtain ⟨hjobs, -⟩ := free_frame s q cause
      refine ⟨?_, fun h hm => ?_, fun j k hj => ?_, fun j k hj => .inl ?_⟩
      · rw [hpool, Function.update_of_ne hq.symm]
      · rw [VfsState.mapGet_erase herase, if_neg, hm]
        intro heq
        obtain ⟨e, he, hid⟩ := hT.mapped h p hm
        exact hq (hT.distinct q p d e hd he (heq.symm.trans hid.symm))
      · rw [hjobs, hj]
      · rw [← hjobs, hj]

theorem SparesHandle.freeHandles {ps : List HandlePtr} (hI : Inv s F)
    (hps : ∀ q ∈ ps, q ≠ p ∧ Freeable s q) : SparesHandle s (freeHandles s ps cause).1 p := by
  induction ps generalizing s with
  | nil => exact .refl s p
  | cons q ps ih =>
      obtain ⟨hne, hq⟩ := hps q List.mem_cons_self
      have hrest : ∀ r ∈ ps, r ≠ p ∧ Freeable s r := fun r hr =>
        hps r (List.mem_cons_of_mem _ hr)
      cases hd : s.pool q with
      | none =>
          simp only [FlowiVfs.freeHandles, free_dead hd]
          exact ih hI hrest
      | some d =>
          obtain ⟨⟨hmap, hidle⟩, -⟩ := hq d hd
          refine (SparesHandle.free hI.toTable hne).trans
            (ih (hI.free hd hmap hidle) fun r hr => ?_)
          exact ⟨(hrest r hr).1, (hrest r hr).2.free hI.toTable hd hq⟩

/-- The close of a mount frees handles of that mount. -/
theorem SparesHandle.freeVictims {victims ids : List FlVfsHandle} (hI : Inv s F)
    (hi : Instr.mountFree m ids ∈ F) (hsub : ∀ id ∈ victims, id ∈ ids)
    (hp : ∀ d, s.pool p = some d → d.mount ∉ s.closing) :
    SparesHandle s (vfsFreeMountVictims s m victims).1 p := by
  induction victims generalizing s with
  | nil => exact .refl s p
  | cons id victims ih =>
      have hsub' : ∀ id ∈ victims, id ∈ ids := fun id' h' => hsub id' (List.mem_cons_of_mem _ h')
      unfold vfsFreeMountVictims
      split
      · exact ih hI hsub' hp
      · rename_i q d hl
        obtain ⟨hmap, hd⟩ := (VfsState.lookupHandle_some q).mp hl
        obtain ⟨d', hd', hid⟩ := hI.mapped id q hmap
        rw [hd] at hd'
        cases hd'
        obtain ⟨hclosing, hv⟩ := hI.teardown _ hi m ids true rfl
        obtain ⟨hm, h₂, h₃⟩ := hv q d hd (hid ▸ hsub id List.mem_cons_self)
        have hne : q ≠ p := by
          rintro rfl
          exact hp d hd (hm ▸ hclosing)
        have hfree : SparesHandle s (vfsFreeHandleLocked s q (.mountClose m)).1 p :=
          .free hI.toTable hne
        refine hfree.trans (ih (hI.free hd h₂ (h₃ rfl)) hsub' fun e he => ?_)
        obtain ⟨-, -, -, hsame, -⟩ := free_frame s q (.mountClose m)
        rw [hsame]
        exact hp e (hfree.pool ▸ he)

theorem SparesHandle.reclaim (hI : Inv s F) (hp : ∀ d, s.pool p = some d → d.closed = false) :
    SparesHandle s (vfsReclaimClosedHandles s).1 p := by
  unfold vfsReclaimClosedHandles
  split_ifs
  · exact .refl s p
  · refine .freeHandles hI fun q hq => ?_
    have hidle := Inv.reclaim_idle hI.toTable q hq
    simp only [List.mem_map, List.mem_filter] at hq
    obtain ⟨⟨h, q', e⟩, ⟨hmem, hrec⟩, rfl⟩ := hq
    have he := (mem_mapEntries.mp hmem).2
    simp only [vfsHandleIsReclaimable, Bool.and_eq_true] at hrec
    refine ⟨?_, fun d hd => ⟨hidle d hd, .inl ?_⟩⟩
    · rintro rfl
      have hopen := hp e he
      rw [hrec.1.1] at hopen
      cases hopen
    · simp only at he hd
      rw [he] at hd
      cases hd
      exact hrec.1.1

theorem SparesHandle.closeFinish {borrows : Bool} (hI : Inv s F) (hp : s.mapGet h ≠ some p) :
    SparesHandle s (FlowiVfs.closeFinish s t h borrows).1 p := by
  unfold FlowiVfs.closeFinish
  split
  · exact .refl s p
  · rename_i q d hl
    obtain ⟨hmap, -, -⟩ := (VfsState.lookupOpenHandle_some q).mp hl
    have hne : q ≠ p := by
      rintro rfl
      exact hp hmap
    split_ifs
    · have hT : Table (s.emit (.closed q)) := (hI.emit (by simp) (by simp)).toTable
      exact (SparesHandle.emit _).trans (.free hT hne)
    · exact .refl s p
    · exact .refl s p
    · have hcount : SparesHandle s { s with closedCount := s.closedCount + 1 } p :=
        .same rfl (fun _ => rfl) rfl
      exact (hcount.trans (.touch hne)).trans (.emit _)

/-- A window is open on the handle that the id names. -/
theorem window_named (hI : Inv s (i :: F)) (hw : i.window = some (h, q))
    (hn : s.mapGet h ≠ some p) : q ≠ p := by
  rintro rfl
  exact hn (hI.windowMapped i List.mem_cons_self h q hw)

theorem Aside.owner (ha : Aside s i p) (ho : i.owns = some q) : q ≠ p := by
  rintro rfl
  exact ha.unowned ho

theorem Aside.window (ha : Aside s i p) (hI : Inv s (i :: F)) (hw : i.window = some (h, q))
    (hn : i.names = some h) : q ≠ p :=
  window_named hI hw (ha.unnamed h hn)

theorem Aside.open {d : VfsHandleData} (ha : Aside s i p) (hn : i.names = some h)
    (hl : s.lookupOpenHandle h = some (q, d)) : q ≠ p := by
  rintro rfl
  exact ha.unnamed h hn ((VfsState.lookupOpenHandle_some q).mp hl).1

theorem not_reaches {dep : FlJobHandle} {phase : JobPhase} (hq : q ≠ p) :
    ¬ Job.reaches ⟨q, dep, none, phase⟩ p := by
  rintro (same | ⟨n, chained⟩)
  · exact hq same
  · cases chained

/-- A chained job reaches its operation and the file. -/
theorem not_reaches_chained {file : HandlePtr} {n : ℕ} {dep : FlJobHandle} {phase : JobPhase}
    (hq : q ≠ p) (hfile : file ≠ p) : ¬ Job.reaches ⟨q, dep, some (n, file), phase⟩ p := by
  rintro (same | ⟨m, chained⟩)
  · exact hq same
  · cases chained
    exact hfile rfl

theorem LaunchExec.spares (hx : LaunchExec s t i s' new) (hI : Inv s (i :: F))
    (ha : Aside s i p) : SparesHandle s s' p := by
  have hT := hI.toTable
  cases hx with
  | refused | prepareRefused => exact .refl s p
  | allocated known halloc => exact .alloc ha.known halloc
  | prepared known halloc => exact (SparesHandle.alloc ha.known halloc).trans (.emit _)
  | queued hd hm =>
      exact (SparesHandle.addJob hT (not_reaches (ha.owner rfl))).trans (.touch (ha.owner rfl))
  | inlined hd hm worker free hr => exact .addJob hT (not_reaches (ha.owner rfl))
  | ran finished => exact .touch (ha.owner rfl)
  | published => exact .publish hT (ha.owner rfl)

theorem MountExec.spares (hx : MountExec s t i s' new) (hI : Inv s (i :: F))
    (ha : Aside s i p) : SparesHandle s s' p := by
  have hT := hI.toTable
  cases hx with
  | opened lock halloc =>
      have hlisted : SparesHandle s { s with
          nextMount := s.nextMount + 1, mountList := s.mountList ++ [s.nextMount] } p :=
        .same rfl (fun _ => rfl) rfl
      have hknown : p < VfsState.nextPtr { s with
          nextMount := s.nextMount + 1, mountList := s.mountList ++ [s.nextMount] } := ha.known
      exact hlisted.trans (.alloc hknown halloc)
  | inlined worker => exact .addJob hT (not_reaches (ha.owner rfl))
  | queued main =>
      exact (SparesHandle.addJob hT (not_reaches (ha.owner rfl))).trans (.touch (ha.owner rfl))
  | ran finished => exact .touch (ha.owner rfl)
  | @published m q j =>
      have hset : SparesHandle s { s with mounts := Function.update s.mounts m (some ⟨j⟩) } p :=
        .same rfl (fun _ => rfl) rfl
      exact hset.trans (.publish
        (hT.of_core rfl (fun _ => rfl) rfl rfl rfl fun _ => ⟨Iff.rfl, Iff.rfl⟩) (ha.owner rfl))

theorem DispatchExec.spares (hx : DispatchExec s t i s' new) (hI : Inv s (i :: F))
    (ha : Aside s i p) : SparesHandle s s' p := by
  have hT := hI.toTable
  cases hx with
  | missing | ran => exact .refl s p
  | entered hl => exact (SparesHandle.touch (ha.open rfl hl)).trans (.emit _)
  | queued hd hm => exact .addJob hT (not_reaches (ha.window hI rfl rfl))
  | inlined hd hm worker free hr => exact .addJob hT (not_reaches (ha.window hI rfl rfl))
  | recorded =>
      unfold dispatchRecord
      split_ifs
      · exact .touch (ha.window hI rfl rfl)
      · exact .refl s p

theorem ChainExec.spares (hx : ChainExec s t i s' new) (hI : Inv s (i :: F))
    (ha : Aside s i p) : SparesHandle s s' p := by
  have hT := hI.toTable
  cases hx with
  | copiedOnly | copied => exact .same rfl (fun _ => rfl) rfl
  | refused => exact .refl s p
  | entered hmap hd hopen hop =>
      have hne := ha.open rfl ((VfsState.lookupOpenHandle_some _).mpr ⟨hmap, hd, hopen⟩)
      exact (SparesHandle.touch hne).trans (.emit _)
  | allocated known halloc =>
      exact (SparesHandle.alloc ha.known halloc).trans (.touch (Nat.ne_of_gt ha.known))
  | unwound =>
      obtain ⟨d, -, -, -, hunwind⟩ := chainUnwind_live hI
      rw [hunwind]
      exact .touch (ha.window hI rfl rfl)
  | blocked worker pending => exact .touch (ha.owner rfl)
  | inlined worker done =>
      exact .addJob hT (not_reaches_chained (ha.owner rfl) (ha.window hI rfl rfl))
  | queued main =>
      exact (SparesHandle.addJob hT
        (not_reaches_chained (ha.owner rfl) (ha.window hI rfl rfl))).trans (.touch (ha.owner rfl))
  | ran finished => exact .touch (ha.owner rfl)
  | published =>
      obtain ⟨d, op, -, -, -, -, -, hpublish⟩ := chainPublish_live hI
      rw [hpublish]
      exact (SparesHandle.touch (ha.window hI rfl rfl)).trans
        (.publish (hT.modify fun _ => ⟨rfl, rfl, rfl⟩) (ha.owner rfl))

theorem CloseExec.spares (hx : CloseExec s c t i s' new) (hI : Inv s (i :: F))
    (ha : Aside s i p) : SparesHandle s s' p := by
  cases hx with
  | canceled hl => exact .touch (ha.open rfl hl)
  | reclaimed => exact .reclaim (hI.drop rfl rfl) fun d hd => (ha.spared d hd).1
  | hook => exact .emit _
  | closed => exact .closeFinish hI (ha.unnamed _ rfl)
  | _ => exact .refl s p

theorem TeardownExec.spares (hx : TeardownExec s c i s' new) (hI : Inv s (i :: F))
    (hlive : s'.destroyed = false) (ha : Aside s i p) : SparesHandle s s' p := by
  cases hx with
  | freed =>
      exact .freeVictims hI List.mem_cons_self (fun _ h => h) fun d hd => (ha.spared d hd).2
  | unknown | draining | drained | next => exact .refl s p
  | unlisted | snapshot | destroyed => exact .same rfl (fun _ => rfl) rfl
  | cleared empty => cases hlive

/-- Every body spares the handles that it does not concern, up to the end of `vfs_destroy`. -/
theorem body_spares (hI : Inv s (i :: F)) (hx : execBody s c t sched i = some (s', new))
    (hlive : s'.destroyed = false) (ha : Aside s i p) : SparesHandle s s' p := by
  cases execBody_some hx with
  | launch h => exact h.spares hI ha
  | mount h => exact h.spares hI ha
  | dispatch h => exact h.spares hI ha
  | chain h => exact h.spares hI ha
  | close h => exact h.spares hI ha
  | teardown h => exact h.spares hI hlive ha

end Spares
end FlowiVfs
