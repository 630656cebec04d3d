import FlowiVfs.HandleIds
import FlowiVfs.HandleLifetime

/-!
# Closing a mount

`vfs_mount_close` copies the ids of the handles on its mount, waits until they are idle,
and looks the ids up again to free what they name. It finds all handles of the mount when
no operation is between its start and its publication at that moment, and no others as long
as no id of a victim is given to a new handle. `Torn` is the invariant behind the first:
a handle on a mount that is being closed has an id that the close looks up.
-/
namespace FlowiVfs

open Transition

/-- The mount of an operation that a call has begun and that is not in the map yet. -/
def Instr.launchesOn (s : VfsState) : Instr → Option MountPtr
  | .chainAlloc _ _ _ _ m _ => some m
  | i => i.owns.bind fun p => (s.pool p).map fun d => d.mount

theorem Instr.launchesOn_owns {s : VfsState} {i : Instr} {p : HandlePtr} {d : VfsHandleData}
    (ho : i.owns = some p) (hd : s.pool p = some d) : i.launchesOn s = some d.mount := by
  cases i <;> simp_all [Instr.launchesOn, Instr.owns]

/-- No operation is launched across the snapshot of `vfs_mount_close`. -/
def Instr.Orderly (s : VfsState) (F : List Instr) : Instr → Prop
  | .allocOp params => params.mount ∉ s.closing
  | .prepare params => params.mount ∉ s.closing
  | .mountSnapshot m => ∀ x ∈ F, x.launchesOn s ≠ some m
  | _ => True

instance (s : VfsState) (F : List Instr) (i : Instr) : Decidable (i.Orderly s F) :=
  match i with
  | .allocOp params => inferInstanceAs (Decidable (params.mount ∉ s.closing))
  | .prepare params => inferInstanceAs (Decidable (params.mount ∉ s.closing))
  | .mountSnapshot m => inferInstanceAs (Decidable (∀ x ∈ F, x.launchesOn s ≠ some m))
  | .schedule .. | .inlineOp .. | .publish .. | .mountOpen | .mountSchedule .. | .mountInline ..
  | .mountPublish .. | .dispatch .. | .dispatchSchedule .. | .dispatchInline ..
  | .dispatchRecord .. | .copyData .. | .chain .. | .chainAlloc .. | .chainUnwind ..
  | .chainRun .. | .chainInline .. | .chainPublish .. | .cancel .. | .reclaim | .releases ..
  | .closeSnapshot .. | .closeFinish .. | .waitJobs .. | .waitSnapshot .. | .waitAllSnapshot
  | .mountUnlist .. | .mountDrain .. | .mountFree .. | .mountDestroy .. | .destroyLoop =>
      inferInstanceAs (Decidable True)

/-- Every operation on a mount is published before the mount is closed. -/
def Orderly (s : VfsState) : Action → Prop
  | .exec c _ => ∀ i ∈ headInstr s c, i.Orderly s s.frames
  | _ => True

instance (s : VfsState) (a : Action) : Decidable (Orderly s a) :=
  match a with
  | .exec c _ => inferInstanceAs (Decidable (∀ i ∈ headInstr s c, i.Orderly s s.frames))
  | .start .. | .job .. => inferInstanceAs (Decidable True)

/-- The mount that a call has taken off the mount list and has not emptied yet. -/
def Instr.unlisted : Instr → Option MountPtr
  | .mountSnapshot m | .mountDrain m _ | .mountFree m _ => some m
  | _ => none

/-- The mount that a call of `vfs_mount_with_options` has listed. -/
def Instr.opens : Instr → Option MountPtr
  | .mountSchedule m _ | .mountInline m _ _ | .mountPublish m _ _ => some m
  | _ => none

/-- The mount is on the list, or its close has yet to empty it. -/
def Housed (s : VfsState) (F : List Instr) (m : MountPtr) : Prop :=
  m ∈ s.mountList ∨ ∃ i ∈ F, i.unlisted = some m

/-- Points that stand for no mount. -/
def Instr.plain : Instr → Bool
  | .mountSchedule _ _ | .mountInline _ _ _ | .mountPublish _ _ _ => false
  | .mountSnapshot _ | .mountDrain _ _ | .mountFree _ _ | .mountDestroy _ => false
  | .chainAlloc _ _ _ _ _ _ => false
  | _ => true

theorem Instr.plain_spec {i : Instr} (hi : i.plain = true) :
    i.teardown = none ∧ i.unlisted = none ∧ i.opens = none := by
  cases i <;> first | exact ⟨rfl, rfl, rfl⟩ | cases hi

/-- What is known of a mount at a point of its close. -/
structure Torn (s : VfsState) (F : List Instr) : Prop where
  victims : ∀ i ∈ F, ∀ m ids drained, i.teardown = some (m, ids, drained) →
    m ∈ s.closing ∧ ∀ p d, s.pool p = some d → d.mount = m → d.id ∈ ids
  emptied : ∀ m, (.mountDestroy m ∈ F ∨ ∃ c, .mountDestroyed c m ∈ s.trace) →
    m ∈ s.closing ∧ ∀ p d, s.pool p = some d → d.mount ≠ m
  launching : ∀ h f n params m after, .chainAlloc h f n params m after ∈ F → m ∉ s.closing
  bound : ∀ m, (m ∈ s.closing ∨ Housed s F m) → m < s.nextMount
  housed : ∀ p d, s.pool p = some d → Housed s F d.mount
  known : ∀ m, ((s.mounts m).isSome ∨ ∃ i ∈ F, i.opens = some m) →
    m ∈ s.closing ∨ Housed s F m

/-- What a step does to the handles of the mounts, if it is not one of their close. -/
structure Spares (s s' : VfsState) : Prop where
  closing : s'.closing = s.closing
  mountList : s'.mountList = s.mountList
  nextMount : s'.nextMount = s.nextMount
  mounts : s'.mounts = s.mounts
  handles : ∀ p d', s'.pool p = some d' →
    (∃ d, s.pool p = some d ∧ d'.id = d.id ∧ d'.mount = d.mount) ∨
      ((s.mounts d'.mount).isSome ∧ d'.mount ∉ s.closing)
  trace : ∀ c m, .mountDestroyed c m ∈ s'.trace → .mountDestroyed c m ∈ s.trace

section Spares

variable {s s' s'' : VfsState} {p : HandlePtr} {f : VfsHandleData → VfsHandleData}

theorem Spares.same (hpool : s'.pool = s.pool) (hclosing : s'.closing = s.closing)
    (hlist : s'.mountList = s.mountList) (hnext : s'.nextMount = s.nextMount)
    (hmounts : s'.mounts = s.mounts)
    (htrace : ∀ c m, .mountDestroyed c m ∈ s'.trace → .mountDestroyed c m ∈ s.trace) :
    Spares s s' where
  closing := hclosing
  mountList := hlist
  nextMount := hnext
  mounts := hmounts
  handles p d' hd' := by
    rw [hpool] at hd'
    exact .inl ⟨d', hd', rfl, rfl⟩
  trace := htrace

theorem Spares.refl (s : VfsState) : Spares s s :=
  .same rfl rfl rfl rfl rfl fun _ _ h => h

theorem Spares.trans (h₁ : Spares s s') (h₂ : Spares s' s'') : Spares s s'' where
  closing := h₂.closing.trans h₁.closing
  mountList := h₂.mountList.trans h₁.mountList
  nextMount := h₂.nextMount.trans h₁.nextMount
  mounts := h₂.mounts.trans h₁.mounts
  handles p d'' hd'' := by
    rcases h₂.handles p d'' hd'' with ⟨d', hd', hid', hm'⟩ | born
    · rcases h₁.handles p d' hd' with ⟨d, hd, hid, hm⟩ | born
      · exact .inl ⟨d, hd, hid'.trans hid, hm'.trans hm⟩
      · rw [← hm'] at born
        exact .inr born
    · rw [h₁.mounts, h₁.closing] at born
      exact .inr born
  trace c m h := h₁.trace c m (h₂.trace c m h)

theorem Spares.emit {e : Event} (he : ∀ c m, e ≠ .mountDestroyed c m) : Spares s (s.emit e) := by
  refine .same rfl rfl rfl rfl rfl fun c m h => ?_
  rcases List.mem_cons.mp h with rfl | h
  · exact absurd rfl (he c m)
  · exact h

theorem Spares.modify (hf : KeepsIdentity f) : Spares s (s.modify p f) where
  closing := rfl
  mountList := rfl
  nextMount := rfl
  mounts := rfl
  handles q d' hd' := by
    obtain ⟨d, hd, hid, hm, -⟩ := modify_origin hf hd'
    exact .inl ⟨d, hd, hid, hm⟩
  trace _ _ h := h

theorem Spares.addJob (k : Job) : Spares s (s.addJob k) :=
  .same rfl rfl rfl rfl rfl fun _ _ h => h

theorem Spares.setJobs {j : FlJobHandle} : Spares s (s.modify p (setJobs j)) :=
  .modify fun _ => ⟨rfl, rfl, rfl⟩

theorem Spares.publish (s : VfsState) (p : HandlePtr) : Spares s (vfsPublishHandle s p) := by
  unfold vfsPublishHandle
  split
  · rename_i d hd
    have inserted : Spares s { s with handleMap := s.handleMap.insert d.id p } :=
      .same rfl rfl rfl rfl rfl fun _ _ h => h
    exact inserted.trans (.emit fun _ _ h => Event.noConfusion h)
  · exact .refl s

/-- A handle is born on the mount of its parameters. -/
theorem Spares.alloc {params : VfsOpParams} (halloc : allocateHandle s params = some (p, s'))
    (hmount : (s.mounts params.mount).isSome) (hopen : params.mount ∉ s.closing) :
    Spares s s' := by
  have hnext := (allocateHandle_mountFrame halloc).nextMount
  obtain ⟨rfl, -, hpool, -, -, -, -, hclosing, htrace, -, -, hmounts, hlist⟩ :=
    allocateHandle_some halloc
  refine ⟨hclosing, hlist, hnext, hmounts, ?_, fun c m h => htrace ▸ h⟩
  intro q d' hd'
  rw [hpool, Function.update_apply] at hd'
  split_ifs at hd' with here
  · cases hd'
    exact .inr ⟨hmount, hopen⟩
  · exact .inl ⟨d', hd', rfl, rfl⟩

theorem Spares.free (s : VfsState) (p : HandlePtr) (cause : FreeCause) :
    Spares s (vfsFreeHandleLocked s p cause).1 := by
  obtain ⟨-, -, -, hclosing, hmounts, hlist, -, -⟩ := free_frame s p cause
  refine ⟨hclosing, hlist, (free_mountFrame s p cause).nextMount, hmounts, ?_, ?_⟩
  · intro q d' hd'
    exact .inl ⟨d', (free_pool_some hd').2, rfl, rfl⟩
  · intro c m h
    cases hd : s.pool p with
    | none =>
        rw [free_dead hd] at h
        exact h
    | some d =>
        rw [(free_live cause hd).2.2.1] at h
        rcases List.mem_cons.mp h with h | h
        · cases h
        · rcases List.mem_append.mp h with h | h
          · rcases freeResources_neutral h with ⟨b, h⟩ | ⟨b, h⟩
            · cases h
            · cases h
          · exact h

theorem Spares.freeHandles (s : VfsState) (ps : List HandlePtr) (cause : FreeCause) :
    Spares s (freeHandles s ps cause).1 := by
  induction ps generalizing s with
  | nil => exact .refl s
  | cons p ps ih => exact (Spares.free s p cause).trans (ih _)

theorem Spares.freeVictims (s : VfsState) (m : MountPtr) (victims : List FlVfsHandle) :
    Spares s (vfsFreeMountVictims s m victims).1 := by
  induction victims generalizing s with
  | nil => exact .refl s
  | cons id victims ih =>
      unfold vfsFreeMountVictims
      split
      · exact ih s
      · exact (Spares.free s _ _).trans (ih _)

theorem Spares.reclaim (s : VfsState) : Spares s (vfsReclaimClosedHandles s).1 := by
  unfold vfsReclaimClosedHandles
  split_ifs
  · exact .refl s
  · exact .freeHandles s _ _

theorem Spares.closeFinish (s : VfsState) (t : Thread) (h : FlVfsHandle) (borrows : Bool) :
    Spares s (closeFinish s t h borrows).1 := by
  unfold FlowiVfs.closeFinish
  split
  · exact .refl s
  · rename_i p d hl
    split_ifs
    · exact (Spares.emit fun _ _ h => Event.noConfusion h).trans (.free _ p .closed)
    · exact .refl s
    · exact .refl s
    · have counted : Spares s { s with closedCount := s.closedCount + 1 } :=
        .same rfl rfl rfl rfl rfl fun _ _ h => h
      have marked : KeepsIdentity fun d => { d with closed := true } :=
        fun _ => ⟨rfl, rfl, rfl⟩
      exact (counted.trans (.modify marked)).trans (.emit fun _ _ h => Event.noConfusion h)

end Spares

/-! ## Keeping the invariant -/

section Torn

variable {s s' : VfsState} {F new : List Instr} {i : Instr} {p : HandlePtr} {m : MountPtr}
  {h : FlVfsHandle} {c : ℕ} {t : Thread} {sched : Sched}

theorem Housed.perm {G : List Instr} (hH : Housed s F m) (hp : F.Perm G) : Housed s G m := by
  rcases hH with listed | ⟨i, hi, hm⟩
  · exact .inl listed
  · exact .inr ⟨i, hp.mem_iff.mp hi, hm⟩

namespace Torn

theorem perm {G : List Instr} (hT : Torn s F) (hp : F.Perm G) : Torn s G where
  victims i hi := hT.victims i (hp.mem_iff.mpr hi)
  emptied m hm := hT.emptied m (hm.imp_left hp.mem_iff.mpr)
  launching h f n params m after hi := hT.launching h f n params m after (hp.mem_iff.mpr hi)
  bound m hm := hT.bound m (hm.imp_right fun hH => hH.perm hp.symm)
  housed p d hd := (hT.housed p d hd).perm hp
  known m hm := by
    have before : (s.mounts m).isSome ∨ ∃ i ∈ F, i.opens = some m := by
      rcases hm with hm | ⟨i, hi, ho⟩
      · exact .inl hm
      · exact .inr ⟨i, hp.mem_iff.mpr hi, ho⟩
    exact (hT.known m before).imp_right fun hH => hH.perm hp

/-- A step that spares the mounts, with the calls where they are. -/
theorem spares (hT : Torn s F) (hs : Spares s s') : Torn s' F where
  victims i hi m ids drained ht := by
    obtain ⟨hm, hv⟩ := hT.victims i hi m ids drained ht
    refine ⟨hs.closing ▸ hm, ?_⟩
    intro p d' hd' hmount
    rcases hs.handles p d' hd' with ⟨d, hd, hid, same⟩ | ⟨-, born⟩
    · rw [hid]
      exact hv p d hd (same.symm.trans hmount)
    · exact absurd (hmount.symm ▸ hm) born
  emptied m hm := by
    obtain ⟨hclosing, hv⟩ := hT.emptied m (hm.imp_right fun ⟨c, hc⟩ => ⟨c, hs.trace c m hc⟩)
    refine ⟨hs.closing ▸ hclosing, ?_⟩
    intro p d' hd' hmount
    rcases hs.handles p d' hd' with ⟨d, hd, -, same⟩ | ⟨-, born⟩
    · exact hv p d hd (same.symm.trans hmount)
    · exact born (hmount.symm ▸ hclosing)
  launching h f n params m after hi := by
    rw [hs.closing]
    exact hT.launching h f n params m after hi
  bound m hm := by
    rw [hs.closing, Housed, hs.mountList] at hm
    rw [hs.nextMount]
    exact hT.bound m hm
  housed p d' hd' := by
    rw [Housed, hs.mountList]
    rcases hs.handles p d' hd' with ⟨d, hd, -, same⟩ | ⟨known, born⟩
    · rw [same]
      exact hT.housed p d hd
    · exact (hT.known _ (.inl known)).resolve_left born
  known m hm := by
    rw [hs.mounts] at hm
    rw [hs.closing, Housed, hs.mountList]
    exact hT.known m hm

/-- A call goes on to points that stand for the same mounts. -/
theorem goes (hT : Torn s (i :: F))
    (tears : ∀ x ∈ new, ∀ m ids b, x.teardown = some (m, ids, b) →
      ∃ b', i.teardown = some (m, ids, b'))
    (destroys : ∀ m, .mountDestroy m ∉ new)
    (launches : ∀ h f n params m after, .chainAlloc h f n params m after ∈ new → m ∉ s.closing)
    (houses : ∀ m, i.unlisted = some m ↔ ∃ x ∈ new, x.unlisted = some m)
    (opens : ∀ x ∈ new, ∀ m, x.opens = some m → i.opens = some m) : Torn s (new ++ F) := by
  have same : ∀ m, Housed s (new ++ F) m ↔ Housed s (i :: F) m := by
    intro m
    simp only [Housed, List.mem_append, List.mem_cons, or_and_right, exists_or,
      exists_eq_left, houses m]
  refine ⟨?_, ?_, ?_, ?_, ?_, ?_⟩
  · intro x hx m ids drained ht
    rcases List.mem_append.mp hx with hx | hx
    · obtain ⟨b, hi⟩ := tears x hx m ids drained ht
      exact hT.victims i List.mem_cons_self m ids b hi
    · exact hT.victims x (List.mem_cons_of_mem _ hx) m ids drained ht
  · intro m hm
    apply hT.emptied m
    rcases hm with hm | hm
    · rcases List.mem_append.mp hm with hm | hm
      · exact absurd hm (destroys m)
      · exact .inl (List.mem_cons_of_mem _ hm)
    · exact .inr hm
  · intro h f n params m after hi
    rcases List.mem_append.mp hi with hi | hi
    · exact launches h f n params m after hi
    · exact hT.launching h f n params m after (List.mem_cons_of_mem _ hi)
  · intro m hm
    rw [same] at hm
    exact hT.bound m hm
  · intro p d hd
    rw [same]
    exact hT.housed p d hd
  · intro m hm
    rw [same]
    apply hT.known m
    rcases hm with hm | ⟨x, hx, ho⟩
    · exact .inl hm
    · rcases List.mem_append.mp hx with hx | hx
      · exact .inr ⟨i, List.mem_cons_self, opens x hx m ho⟩
      · exact .inr ⟨x, List.mem_cons_of_mem _ hx, ho⟩

theorem goesPlain (hT : Torn s (i :: F)) (hi : i.unlisted = none)
    (hnew : ∀ x ∈ new, x.plain = true) : Torn s (new ++ F) := by
  apply hT.goes
  · intro x hx m ids b ht
    rw [(Instr.plain_spec (hnew x hx)).1] at ht
    cases ht
  · intro m hx
    cases hnew _ hx
  · intro h f n params m after hx
    cases hnew _ hx
  · intro m
    rw [hi]
    constructor
    · intro none
      cases none
    · rintro ⟨x, hx, hm⟩
      rw [(Instr.plain_spec (hnew x hx)).2.1] at hm
      cases hm
  · intro x hx m ho
    rw [(Instr.plain_spec (hnew x hx)).2.2] at ho
    cases ho

/-- A call begins. -/
theorem begin (hT : Torn s F) : Torn s (.reclaim :: F) := by
  have same : ∀ m, Housed s (.reclaim :: F) m ↔ Housed s F m := by
    intro m
    simp [Housed, Instr.unlisted]
  refine ⟨?_, ?_, ?_, ?_, ?_, ?_⟩
  · intro x hx m ids b ht
    rcases List.mem_cons.mp hx with rfl | hx
    · cases ht
    · exact hT.victims x hx m ids b ht
  · intro m hm
    exact hT.emptied m (by simpa using hm)
  · intro h f n params m after hx
    exact hT.launching h f n params m after (by simpa using hx)
  · intro m hm
    rw [same] at hm
    exact hT.bound m hm
  · intro p d hd
    rw [same]
    exact hT.housed p d hd
  · intro m hm
    rw [same]
    exact hT.known m (by simpa [Instr.opens] using hm)

/-- `vfs_mount_with_options` lists a mount that did not exist before. -/
theorem mountOpen (hT : Torn s (.mountOpen :: F))
    (halloc : allocateHandle
      { s with nextMount := s.nextMount + 1, mountList := s.mountList ++ [s.nextMount] }
      ⟨s.nextMount, .mount, false, false, FL_VFS_HANDLE_INVALID⟩ = some (p, s')) :
    Torn s' (.mountSchedule s.nextMount p :: F) := by
  have hnew : s'.nextMount = s.nextMount + 1 := (allocateHandle_mountFrame halloc).nextMount
  obtain ⟨-, -, hpool, -, -, -, -, hclosing, htrace, -, -, hmounts, hlist⟩ :=
    allocateHandle_some halloc
  have unborn : s.nextMount ∉ s.closing := by
    intro inside
    exact Nat.lt_irrefl _ (hT.bound _ (.inl inside))
  have grows : ∀ m, Housed s (.mountOpen :: F) m →
      Housed s' (.mountSchedule s.nextMount p :: F) m := by
    rintro m (listed | ⟨x, hx, hm⟩)
    · exact .inl (hlist ▸ List.mem_append_left _ listed)
    · rcases List.mem_cons.mp hx with rfl | hx
      · cases hm
      · exact .inr ⟨x, List.mem_cons_of_mem _ hx, hm⟩
  have here : Housed s' (.mountSchedule s.nextMount p :: F) s.nextMount :=
    .inl (hlist ▸ List.mem_append_right _ (List.mem_singleton_self _))
  have born : ∀ q d', s'.pool q = some d' → s.pool q = some d' ∨ d'.mount = s.nextMount := by
    intro q d' hd'
    rw [hpool, Function.update_apply] at hd'
    split_ifs at hd'
    · cases hd'
      exact .inr rfl
    · exact .inl hd'
  refine ⟨?_, ?_, ?_, ?_, ?_, ?_⟩
  · intro x hx m ids b ht
    rcases List.mem_cons.mp hx with rfl | hx
    · cases ht
    · obtain ⟨hm, hv⟩ := hT.victims x (List.mem_cons_of_mem _ hx) m ids b ht
      refine ⟨hclosing.symm ▸ hm, ?_⟩
      intro q d' hd' hmount
      rcases born q d' hd' with hd | fresh
      · exact hv q d' hd hmount
      · rw [← hmount, fresh] at hm
        exact absurd hm unborn
  · intro m hm
    rw [htrace] at hm
    have before : Instr.mountDestroy m ∈ Instr.mountOpen :: F ∨
        ∃ c, Event.mountDestroyed c m ∈ s.trace := by
      rcases hm with hm | hm
      · rcases List.mem_cons.mp hm with hm | hm
        · cases hm
        · exact .inl (List.mem_cons_of_mem _ hm)
      · exact .inr hm
    obtain ⟨inside, hv⟩ := hT.emptied m before
    refine ⟨hclosing.symm ▸ inside, ?_⟩
    intro q d' hd' hmount
    rcases born q d' hd' with hd | fresh
    · exact hv q d' hd hmount
    · rw [← hmount, fresh] at inside
      exact unborn inside
  · intro h f n params m after hx
    rw [hclosing]
    rcases List.mem_cons.mp hx with hx | hx
    · cases hx
    · exact hT.launching h f n params m after (List.mem_cons_of_mem _ hx)
  · intro m hm
    rw [hnew]
    rw [hclosing] at hm
    rcases hm with inside | listed | ⟨x, hx, hm⟩
    · exact Nat.lt_succ_of_lt (hT.bound m (.inl inside))
    · rw [hlist] at listed
      rcases List.mem_append.mp listed with listed | fresh
      · exact Nat.lt_succ_of_lt (hT.bound m (.inr (.inl listed)))
      · rw [List.mem_singleton.mp fresh]
        exact Nat.lt_succ_self _
    · rcases List.mem_cons.mp hx with rfl | hx
      · cases hm
      · exact Nat.lt_succ_of_lt
          (hT.bound m (.inr (.inr ⟨x, List.mem_cons_of_mem _ hx, hm⟩)))
  · intro q d' hd'
    rcases born q d' hd' with hd | fresh
    · exact grows _ (hT.housed q d' hd)
    · rw [fresh]
      exact here
  · intro m hm
    rw [hclosing]
    rcases hm with hm | ⟨x, hx, ho⟩
    · rw [hmounts] at hm
      exact (hT.known m (.inl hm)).imp_right (grows m)
    · rcases List.mem_cons.mp hx with rfl | hx
      · cases ho
        exact .inr here
      · exact (hT.known m (.inr ⟨x, List.mem_cons_of_mem _ hx, ho⟩)).imp_right (grows m)

/-- The pointer of a listed mount becomes known. -/
theorem publishes (hT : Torn s (i :: F)) (ho : i.opens = some m) (mount : FlVfsMount) :
    Torn { s with mounts := Function.update s.mounts m (some mount) } (i :: F) where
  victims := hT.victims
  emptied := hT.emptied
  launching := hT.launching
  bound := hT.bound
  housed := hT.housed
  known m' hm' := by
    rcases hm' with hm' | hm'
    · simp only [Function.update_apply] at hm'
      split_ifs at hm' with here
      · rw [here]
        exact hT.known m (.inr ⟨i, List.mem_cons_self, ho⟩)
      · exact hT.known m' (.inl hm')
    · exact hT.known m' (.inr hm')

theorem unlist (hT : Torn s (.mountUnlist m :: F)) (listed : m ∈ s.mountList) :
    Torn { s with mountList := s.mountList.erase m } (.mountSnapshot m :: F) := by
  have moves : ∀ m', Housed s (.mountUnlist m :: F) m' →
      Housed { s with mountList := s.mountList.erase m } (.mountSnapshot m :: F) m' := by
    rintro m' (hm' | ⟨x, hx, hm'⟩)
    · by_cases here : m' = m
      · exact .inr ⟨.mountSnapshot m, List.mem_cons_self, here ▸ rfl⟩
      · exact .inl ((List.mem_erase_of_ne here).mpr hm')
    · rcases List.mem_cons.mp hx with rfl | hx
      · cases hm'
      · exact .inr ⟨x, List.mem_cons_of_mem _ hx, hm'⟩
  refine ⟨?_, ?_, ?_, ?_, ?_, ?_⟩
  · intro x hx m' ids b ht
    rcases List.mem_cons.mp hx with rfl | hx
    · cases ht
    · exact hT.victims x (List.mem_cons_of_mem _ hx) m' ids b ht
  · intro m' hm'
    apply hT.emptied m'
    refine hm'.imp_left fun hm' => ?_
    rcases List.mem_cons.mp hm' with hm' | hm'
    · cases hm'
    · exact List.mem_cons_of_mem _ hm'
  · intro h f n params m' after hx
    rcases List.mem_cons.mp hx with hx | hx
    · cases hx
    · exact hT.launching h f n params m' after (List.mem_cons_of_mem _ hx)
  · intro m' hm'
    apply hT.bound m'
    rcases hm' with inside | hm' | ⟨x, hx, hm'⟩
    · exact .inl inside
    · exact .inr (.inl (List.mem_of_mem_erase hm'))
    · rcases List.mem_cons.mp hx with rfl | hx
      · cases hm'
        exact .inr (.inl listed)
      · exact .inr (.inr ⟨x, List.mem_cons_of_mem _ hx, hm'⟩)
  · intro p d hd
    exact moves _ (hT.housed p d hd)
  · intro m' hm'
    have before : (s.mounts m').isSome ∨ ∃ i ∈ Instr.mountUnlist m :: F, i.opens = some m' := by
      refine hm'.imp_right fun ⟨x, hx, ho⟩ => ?_
      rcases List.mem_cons.mp hx with rfl | hx
      · cases ho
      · exact ⟨x, List.mem_cons_of_mem _ hx, ho⟩
    exact (hT.known m' before).imp_right (moves m')

/-- A handle that is not in the map yet belongs to a call, and none of them is on `m`. -/
theorem snapshot (hT : Torn s (.mountSnapshot m :: F)) (hI : Inv s (.mountSnapshot m :: F))
    (alone : ∀ x ∈ F, x.launchesOn s ≠ some m) (jobs : List FlJobHandle) :
    Torn { s with closing := m :: s.closing } (.waitJobs jobs ::
      .mountDrain m ((vfsSnapshotMountVictims s m).map fun v => v.1) :: F) := by
  have mapped : ∀ p d, s.pool p = some d → d.mount = m → s.mapGet d.id = some p := by
    intro p d hd hm
    by_contra hidden
    have count := hI.owned p
    simp only [ownersAt, hd, if_neg hidden] at count
    have owned : 0 < owners (.mountSnapshot m :: F) p := by omega
    obtain ⟨x, hx, ho⟩ := exists_owner owned
    rcases List.mem_cons.mp hx with rfl | hx
    · cases ho
    · apply alone x hx
      rw [Instr.launchesOn_owns ho hd, hm]
  have same : ∀ m', Housed s (.mountSnapshot m :: F) m' ↔
      Housed { s with closing := m :: s.closing } (.waitJobs jobs ::
        .mountDrain m ((vfsSnapshotMountVictims s m).map fun v => v.1) :: F) m' := by
    intro m'
    simp [Housed, Instr.unlisted]
  refine ⟨?_, ?_, ?_, ?_, ?_, ?_⟩
  · intro x hx m' ids b ht
    rcases List.mem_cons.mp hx with rfl | hx
    · cases ht
    rcases List.mem_cons.mp hx with rfl | hx
    · cases ht
      refine ⟨List.mem_cons_self, ?_⟩
      intro p d hd hm
      exact mem_victims.mpr ⟨d.id, p, d, mapped p d hd hm, hd, hm, rfl⟩
    · obtain ⟨hm, hv⟩ := hT.victims x (List.mem_cons_of_mem _ hx) m' ids b ht
      exact ⟨List.mem_cons_of_mem _ hm, hv⟩
  · intro m' hm'
    have before : Instr.mountDestroy m' ∈ Instr.mountSnapshot m :: F ∨
        ∃ c, Event.mountDestroyed c m' ∈ s.trace := by
      refine hm'.imp_left fun hm' => ?_
      simpa using hm'
    obtain ⟨inside, hv⟩ := hT.emptied m' before
    exact ⟨List.mem_cons_of_mem _ inside, hv⟩
  · intro h f n params m' after hx
    have old : Instr.chainAlloc h f n params m' after ∈ F := by simpa using hx
    have other := hT.launching h f n params m' after (List.mem_cons_of_mem _ old)
    intro inside
    rcases List.mem_cons.mp inside with rfl | inside
    · exact alone _ old rfl
    · exact other inside
  · intro m' hm'
    rw [← same] at hm'
    rcases hm' with inside | hm'
    · rcases List.mem_cons.mp inside with rfl | inside
      · exact hT.bound m' (.inr (.inr ⟨_, List.mem_cons_self, rfl⟩))
      · exact hT.bound m' (.inl inside)
    · exact hT.bound m' (.inr hm')
  · intro p d hd
    rw [← same]
    exact hT.housed p d hd
  · intro m' hm'
    rw [← same]
    have before : (s.mounts m').isSome ∨ ∃ i ∈ Instr.mountSnapshot m :: F, i.opens = some m' := by
      refine hm'.imp_right fun inside => ?_
      obtain ⟨x, hx, ho⟩ := inside
      rcases List.mem_cons.mp hx with rfl | hx
      · cases ho
      rcases List.mem_cons.mp hx with rfl | hx
      · cases ho
      · exact ⟨x, List.mem_cons_of_mem _ hx, ho⟩
    exact (hT.known m' before).imp_left (List.mem_cons_of_mem _)

theorem drain {victims : List FlVfsHandle} {jobs : List FlJobHandle} {y : Instr}
    (hT : Torn s (.mountDrain m victims :: F))
    (hy : y = .mountDrain m victims ∨ y = .mountFree m victims) :
    Torn s ([.waitJobs jobs, y] ++ F) := by
  apply hT.goes
  · intro x hx m' ids b ht
    rcases List.mem_cons.mp hx with rfl | hx
    · cases ht
    · rw [List.mem_singleton.mp hx] at ht
      rcases hy with rfl | rfl
      · cases ht
        exact ⟨_, rfl⟩
      · cases ht
        exact ⟨_, rfl⟩
  · rcases hy with rfl | rfl <;> simp
  · rcases hy with rfl | rfl <;> simp
  · rcases hy with rfl | rfl <;> simp [Instr.unlisted]
  · rcases hy with rfl | rfl <;> simp [Instr.opens]

/-- The victims are freed: they are in the map under their ids. -/
theorem freesVictims {victims ids : List FlVfsHandle} {d : VfsHandleData} (hI : Inv s F)
    (hi : Instr.mountFree m ids ∈ F) (hsub : ∀ id ∈ victims, id ∈ ids)
    (hd : (vfsFreeMountVictims s m victims).1.pool p = some d) : d.id ∉ victims := by
  induction victims generalizing s with
  | nil => exact List.not_mem_nil
  | cons id victims ih =>
      have hsub' : ∀ id ∈ victims, id ∈ ids := fun id' h' => hsub id' (List.mem_cons_of_mem _ h')
      have live : s.pool p = some d := ((Sweep.freeVictims hI hi hsub).kept p d hd).1
      obtain ⟨-, hv⟩ := hI.teardown _ hi m ids true rfl
      unfold vfsFreeMountVictims at hd
      split at hd
      · rename_i missing
        have rest := ih hI hsub' hd
        intro inside
        rcases List.mem_cons.mp inside with same | inside
        · obtain ⟨-, hmap, -⟩ := hv p d live (same ▸ hsub id List.mem_cons_self)
          rw [same] at hmap
          rw [(VfsState.lookupHandle_some p).mpr ⟨hmap, live⟩] at missing
          cases missing
        · exact rest inside
      · rename_i q e hl
        obtain ⟨hmap, he⟩ := (VfsState.lookupHandle_some q).mp hl
        obtain ⟨e', he', hid⟩ := hI.mapped id q hmap
        rw [he] at he'
        cases he'
        obtain ⟨-, h₂, h₃⟩ := hv q e he (hid ▸ hsub id List.mem_cons_self)
        have hJ : Inv (vfsFreeHandleLocked s q (.mountClose m)).1 F := hI.free he h₂ (h₃ rfl)
        have rest := ih hJ hsub' hd
        intro inside
        rcases List.mem_cons.mp inside with same | inside
        · have later := ((Sweep.freeVictims hJ hi hsub').kept p d hd).1
          have other := (free_pool_some later).1
          exact other (hI.distinct p q d e live he (same.trans hid.symm))
        · exact rest inside

theorem free {victims : List FlVfsHandle} (hT : Torn s (.mountFree m victims :: F))
    (gone : ∀ p d, s.pool p = some d → d.mount ≠ m) (hooks : List HandlePtr) :
    Torn s (.releases hooks :: .mountDestroy m :: F) := by
  obtain ⟨closing, -⟩ := hT.victims _ List.mem_cons_self m victims true rfl
  have moves : ∀ m', m' ≠ m → Housed s (.mountFree m victims :: F) m' →
      Housed s (.releases hooks :: .mountDestroy m :: F) m' := by
    rintro m' other (listed | ⟨x, hx, hm'⟩)
    · exact .inl listed
    · rcases List.mem_cons.mp hx with rfl | hx
      · cases hm'
        exact absurd rfl other
      · exact .inr ⟨x, List.mem_cons_of_mem _ (List.mem_cons_of_mem _ hx), hm'⟩
  refine ⟨?_, ?_, ?_, ?_, ?_, ?_⟩
  · intro x hx m' ids b ht
    rcases List.mem_cons.mp hx with rfl | hx
    · cases ht
    rcases List.mem_cons.mp hx with rfl | hx
    · cases ht
    · exact hT.victims x (List.mem_cons_of_mem _ hx) m' ids b ht
  · intro m' hm'
    by_cases here : m' = m
    · rw [here]
      exact ⟨closing, gone⟩
    · apply hT.emptied m'
      refine hm'.imp_left fun hm' => ?_
      simpa [here] using hm'
  · intro h f n params m' after hx
    have old : Instr.chainAlloc h f n params m' after ∈ F := by simpa using hx
    exact hT.launching h f n params m' after (List.mem_cons_of_mem _ old)
  · intro m' hm'
    apply hT.bound m'
    refine hm'.imp_right fun hm' => hm'.imp_right fun ⟨x, hx, hu⟩ => ?_
    rcases List.mem_cons.mp hx with rfl | hx
    · cases hu
    rcases List.mem_cons.mp hx with rfl | hx
    · cases hu
    · exact ⟨x, List.mem_cons_of_mem _ hx, hu⟩
  · intro p d hd
    exact moves _ (gone p d hd) (hT.housed p d hd)
  · intro m' hm'
    by_cases here : m' = m
    · exact .inl (here ▸ closing)
    · have before : (s.mounts m').isSome ∨
          ∃ i ∈ Instr.mountFree m victims :: F, i.opens = some m' := by
        refine hm'.imp_right fun ⟨x, hx, ho⟩ => ?_
        rcases List.mem_cons.mp hx with rfl | hx
        · cases ho
        rcases List.mem_cons.mp hx with rfl | hx
        · cases ho
        · exact ⟨x, List.mem_cons_of_mem _ hx, ho⟩
      exact (hT.known m' before).imp_right (moves m' here)

theorem destroy (hT : Torn s (.mountDestroy m :: F)) (c : ℕ) :
    Torn ({ s with mounts := Function.update s.mounts m none }.emit (.mountDestroyed c m)) F := by
  have left : Torn s ([] ++ F) := hT.goesPlain rfl (by simp)
  refine ⟨left.victims, ?_, left.launching, left.bound, left.housed, ?_⟩
  · intro m' hm'
    by_cases here : m' = m
    · rw [here]
      exact hT.emptied m (.inl List.mem_cons_self)
    · apply left.emptied m'
      refine hm'.imp_right fun ⟨c', hc'⟩ => ?_
      rcases List.mem_cons.mp hc' with same | hc'
      · cases same
        exact absurd rfl here
      · exact ⟨c', hc'⟩
  · intro m' hm'
    apply left.known m'
    refine hm'.imp_left fun hm' => ?_
    simp only [VfsState.emit_mounts, Function.update_apply] at hm'
    split_ifs at hm'
    · cases hm'
    · exact hm'

/-- A point that goes on to `vfs_mount_with_options`'s next one keeps the mount it opens. -/
theorem goesOpening (hT : Torn s (i :: F)) (y : Instr) (hi : i.unlisted = none)
    (ht : y.teardown = none) (hy : y.unlisted = none) (ho : y.opens = i.opens)
    (destroys : ∀ m, y ≠ .mountDestroy m)
    (launches : ∀ h f n params m after, y ≠ .chainAlloc h f n params m after) :
    Torn s ([y] ++ F) := by
  apply hT.goes
  · intro x hx m ids b hx'
    rw [List.mem_singleton.mp hx, ht] at hx'
    cases hx'
  · intro m hx
    exact destroys m (List.mem_singleton.mp hx).symm
  · intro h f n params m after hx
    exact absurd (List.mem_singleton.mp hx).symm (launches h f n params m after)
  · simp [hi, hy]
  · intro x hx m hm
    rw [List.mem_singleton.mp hx, ho] at hm
    exact hm

end Torn

theorem LaunchExec.torn (hx : LaunchExec s t i s' new) (hT : Torn s (i :: F))
    (hO : i.Orderly s F) : Torn s' (new ++ F) := by
  cases hx with
  | refused | prepareRefused => exact hT.goesPlain rfl (by simp)
  | allocated known halloc =>
      exact (hT.goesPlain rfl (by simp [Instr.plain])).spares (.alloc halloc known hO)
  | prepared known halloc =>
      exact (hT.goesPlain rfl (by simp [Instr.plain])).spares
        ((Spares.alloc halloc known hO).trans (.emit fun _ _ h => Event.noConfusion h))
  | queued =>
      exact (hT.goesPlain rfl (by simp [Instr.plain])).spares ((Spares.addJob _).trans .setJobs)
  | inlined => exact (hT.goesPlain rfl (by simp [Instr.plain])).spares (.addJob _)
  | ran => exact (hT.goesPlain rfl (by simp [Instr.plain])).spares .setJobs
  | published => exact (hT.goesPlain rfl (by simp)).spares (.publish s _)

theorem MountExec.torn (hx : MountExec s t i s' new) (hT : Torn s (i :: F)) :
    Torn s' (new ++ F) := by
  cases hx with
  | opened lock halloc => exact hT.mountOpen halloc
  | @inlined m p =>
      exact (hT.goesOpening (.mountInline m p s.nextJob) rfl rfl rfl rfl nofun nofun).spares
        (.addJob _)
  | @queued m p =>
      exact (hT.goesOpening (.mountPublish m p s.nextJob) rfl rfl rfl rfl nofun nofun).spares
        ((Spares.addJob _).trans .setJobs)
  | @ran m p =>
      exact (hT.goesOpening (.mountPublish m p 0) rfl rfl rfl rfl nofun nofun).spares .setJobs
  | published => exact ((hT.publishes rfl _).goesPlain rfl (by simp)).spares (.publish _ _)

theorem DispatchExec.torn (hx : DispatchExec s t i s' new) (hT : Torn s (i :: F)) :
    Torn s' (new ++ F) := by
  cases hx with
  | missing => exact hT.goesPlain rfl (by simp)
  | entered =>
      have opened : KeepsIdentity openWindow := fun _ => ⟨rfl, rfl, rfl⟩
      exact (hT.goesPlain rfl (by simp [Instr.plain])).spares
        ((Spares.modify opened).trans (.emit fun _ _ h => Event.noConfusion h))
  | queued | inlined => exact (hT.goesPlain rfl (by simp [Instr.plain])).spares (.addJob _)
  | ran => exact hT.goesPlain rfl (by simp [Instr.plain])
  | recorded =>
      apply (hT.goesPlain rfl (by simp)).spares
      unfold dispatchRecord
      split_ifs
      · exact .modify fun _ => ⟨rfl, rfl, rfl⟩
      · exact .refl s

theorem ChainExec.torn (hx : ChainExec s t i s' new) (hT : Torn s (i :: F))
    (hI : Inv s (i :: F)) (hD : i.Disciplined s F) : Torn s' (new ++ F) := by
  cases hx with
  | copiedOnly | copied =>
      have counted : Spares s { s with nextBuffer := s.nextBuffer + 1 } :=
        .same rfl rfl rfl rfl rfl fun _ _ h => h
      exact (hT.goesPlain rfl (by simp [Instr.plain])).spares
        (counted.trans (.emit fun _ _ h => Event.noConfusion h))
  | refused => exact hT.goesPlain rfl (by simp)
  | @entered h params f d hmap hd hopen hop =>
      have calm := hD (f, d) ((VfsState.lookupOpenHandle_some f).mpr ⟨hmap, hd, hopen⟩)
      have opened : KeepsIdentity openWindow := fun _ => ⟨rfl, rfl, rfl⟩
      have goes : Torn s ([.chainAlloc h f s.trace.length params d.mount d.lastJob] ++ F) := by
        apply hT.goes
        · simp [Instr.teardown]
        · simp
        · intro h' f' n params' m after hx
          cases List.mem_singleton.mp hx
          exact calm
        · simp [Instr.unlisted]
        · simp [Instr.opens]
      exact goes.spares ((Spares.modify opened).trans (.emit fun _ _ h => Event.noConfusion h))
  | @allocated h file ticket params m after s₁ known halloc =>
      have opened := hT.launching h file ticket params m after List.mem_cons_self
      have filled : KeepsIdentity (chainFill h params) := fun _ => ⟨rfl, rfl, rfl⟩
      exact (hT.goesPlain rfl (by simp [Instr.plain])).spares
        ((Spares.alloc halloc known opened).trans (.modify filled))
  | unwound =>
      obtain ⟨d, -, -, -, hunwind⟩ := chainUnwind_live hI
      rw [hunwind]
      exact (hT.goesPlain rfl (by simp)).spares (.modify fun _ => ⟨rfl, rfl, rfl⟩)
  | blocked =>
      exact (hT.goesPlain rfl (by simp [Instr.plain])).spares (.modify fun _ => ⟨rfl, rfl, rfl⟩)
  | inlined => exact (hT.goesPlain rfl (by simp [Instr.plain])).spares (.addJob _)
  | queued =>
      exact (hT.goesPlain rfl (by simp [Instr.plain])).spares ((Spares.addJob _).trans .setJobs)
  | ran => exact (hT.goesPlain rfl (by simp [Instr.plain])).spares .setJobs
  | @published h file p refused =>
      obtain ⟨d, op, -, -, -, -, -, hpublish⟩ := chainPublish_live hI
      rw [hpublish]
      have recorded : KeepsIdentity (recordOn refused op.jobHandle) := fun _ => ⟨rfl, rfl, rfl⟩
      exact (hT.goesPlain rfl (by simp)).spares ((Spares.modify recorded).trans (.publish _ p))

theorem CloseExec.torn (hx : CloseExec s c t i s' new) (hT : Torn s (i :: F)) :
    Torn s' (new ++ F) := by
  cases hx with
  | canceled => exact (hT.goesPlain rfl (by simp)).spares (.modify fun _ => ⟨rfl, rfl, rfl⟩)
  | reclaimed => exact (hT.goesPlain rfl (by simp [Instr.plain])).spares (.reclaim s)
  | hook =>
      exact (hT.goesPlain rfl (by simp [Instr.plain])).spares
        (.emit fun _ _ h => Event.noConfusion h)
  | closed => exact (hT.goesPlain rfl (by simp [Instr.plain])).spares (.closeFinish s t _ _)
  | _ => exact hT.goesPlain rfl (by simp [Instr.plain])

theorem TeardownExec.torn (hx : TeardownExec s c i s' new) (hT : Torn s (i :: F))
    (hI : Inv s (i :: F)) (hO : i.Orderly s F) (hlive : s'.destroyed = false) :
    Torn s' (new ++ F) := by
  cases hx with
  | unlisted lock listed => exact hT.unlist listed
  | unknown => exact hT.goesPlain rfl (by simp)
  | snapshot => exact hT.snapshot hI hO _
  | draining => exact hT.drain (.inl rfl)
  | drained => exact hT.drain (.inr rfl)
  | @freed m victims =>
      have after := hT.spares (.freeVictims s m victims)
      refine after.free ?_ _
      intro p d hd hm
      obtain ⟨-, hv⟩ := after.victims _ List.mem_cons_self m victims true rfl
      exact Torn.freesVictims hI List.mem_cons_self (fun _ h => h) hd (hv p d hd hm)
  | destroyed => exact hT.destroy c
  | next => exact hT.goesPlain rfl (by simp [Instr.plain])
  | cleared => cases hlive

/-- Every body of an orderly run, up to the end of `vfs_destroy`. -/
theorem Torn.body (hT : Torn s (i :: F)) (hI : Inv s (i :: F)) (hD : i.Disciplined s F)
    (hO : i.Orderly s F) (hx : execBody s c t sched i = some (s', new))
    (hlive : s'.destroyed = false) : Torn s' (new ++ F) := by
  cases execBody_some hx with
  | launch h => exact h.torn hT hO
  | mount h => exact h.torn hT
  | dispatch h => exact h.torn hT
  | chain h => exact h.torn hT hI hD
  | close h => exact h.torn hT
  | teardown h => exact h.torn hT hI hO hlive

theorem Instr.Orderly.mono {G : List Instr} (hO : i.Orderly s G) (hF : ∀ x ∈ F, x ∈ G) :
    i.Orderly s F := by
  cases i with
  | mountSnapshot m => exact fun x hx => hO x (hF x hx)
  | _ => exact hO

/-- The events of the lock do not matter. -/
theorem Instr.Orderly.emit {e : Event} (hO : i.Orderly s F) : i.Orderly (s.emit e) F := by
  cases i with
  | mountSnapshot m =>
      intro x hx
      have same : x.launchesOn (s.emit e) = x.launchesOn s := by
        cases x <;> rfl
      rw [same]
      exact hO x hx
  | _ => exact hO

end Torn

/-! ## Runs -/

section Runs

variable {s s' : VfsState} {a : Action} {m : MountPtr}

theorem JobMove.noDestroy {j : FlJobHandle} {k : Job} {d : VfsHandleData} {phase : JobPhase}
    {f : VfsHandleData → VfsHandleData} {es : List Event} {e : Event}
    (hm : JobMove s j k d phase f es) (he : e ∈ es) : ∀ c m, e ≠ .mountDestroyed c m := by
  cases hm with
  | cancel | run => simp [mem_callbackEvents he]
  | begin | find | fail | store => simp at he
  | enter | leave | finish => simp only [List.mem_singleton] at he; simp [he]

theorem torn_init : Torn .init VfsState.init.frames := by
  refine ⟨?_, ?_, ?_, ?_, ?_, ?_⟩
  all_goals simp [VfsState.init, VfsState.frames, Housed]

theorem Request.program_plain (request : Request) : ∀ x ∈ request.program, x.plain = true := by
  intro x hx
  cases request with
  | read h size =>
      simp only [Request.program, vfsRead] at hx
      split_ifs at hx <;> simp_all [Instr.plain]
  | writeNoCopy h b size =>
      simp only [Request.program, vfsWriteInternal] at hx
      split_ifs at hx <;> simp_all [Instr.plain]
  | write h size =>
      simp only [Request.program, vfsWrite] at hx
      split_ifs at hx <;> simp_all [Instr.plain]
  | close h =>
      simp only [Request.program, vfsClose] at hx
      split_ifs at hx
      · cases hx
      · rcases List.mem_cons.mp hx with rfl | hx
        · rfl
        · rw [List.mem_singleton.mp hx]
          rfl
  | dispatch h | cancel h | wait h =>
      simp only [Request.program] at hx
      split_ifs at hx <;> simp_all [Instr.plain]
  | waitAll | destroy =>
      simp only [Request.program, vfsWaitAll] at hx
      simp only [List.mem_cons, List.mem_append, List.not_mem_nil, or_false] at hx
      rcases hx with (rfl | rfl) | rfl <;> rfl
  | _ =>
      simp only [Request.program, List.mem_singleton] at hx
      rw [hx]
      rfl

/-- An operation is launched on a mount, and an id given out, only as the callers of the
handle system must, and no operation is launched across the close of its mount. -/
def Careful (s : VfsState) (a : Action) : Prop := Disciplined s a ∧ Orderly s a

instance (s : VfsState) (a : Action) : Decidable (Careful s a) :=
  inferInstanceAs (Decidable (_ ∧ _))

theorem Torn.step (hT : Torn s s.frames) (hI : Inv s s.frames) (hC : Careful s a)
    (hstep : FlowiVfs.step s a = some s') (hlive : s'.destroyed = false) : Torn s' s'.frames := by
  refine step_rule (P := Torn) hI hC.1 hstep hlive hT (fun _ _ _ h hp => h.perm hp) ?_ ?_ ?_ ?_ ?_
  · intro s F cs h
    exact h.spares (.same rfl rfl rfl rfl rfl fun _ _ h => h)
  · rintro s F c e (rfl | rfl) h
    · exact h.spares (.emit fun _ _ h => Event.noConfusion h)
    · exact h.spares (.emit fun _ _ h => Event.noConfusion h)
  · intro t request _
    exact hT.begin.goesPlain rfl request.program_plain
  · intro j input k d phase g es _ _ _ hm
    have moved : Spares (s.modify k.target g) (afterMove s j k.target phase g es) := by
      refine .same rfl rfl rfl rfl rfl fun c m h => ?_
      rcases List.mem_append.mp h with h | h
      · exact absurd rfl (hm.noDestroy h c m)
      · exact h
    exact hT.spares ((Spares.modify hm.keeps.1).trans moved)
  · intro c sched t i rest F s₀ s₂ new ha hc hF hs₀ hT hI hD hx hlive
    subst ha
    have here : i.Orderly s F := by
      refine (hC.2 i (by simp [headInstr, hc])).mono fun x hx => ?_
      exact hF.mem_iff.mpr (List.mem_cons_of_mem i hx)
    have orderly : i.Orderly s₀ F := by
      rcases hs₀ with rfl | rfl
      · exact here
      · exact here.emit
    exact hT.body hI hD orderly hx hlive

theorem careful_inv (h : Reaches step Careful .init s) (hlive : s.destroyed = false) :
    Inv s s.frames :=
  inv_reaches (fun _ _ hC => hC.1) h hlive

theorem torn_reaches (h : Reaches FlowiVfs.step Careful .init s) :
    s.destroyed = false → Torn s s.frames := by
  refine h.invariant_of (I := fun s => s.destroyed = false → Inv s s.frames)
    (fun s h => careful_inv h) (P := fun s => s.destroyed = false → Torn s s.frames)
    (fun _ => torn_init) ?_
  intro t a u hI _ hT hC hstep hlive
  have before := step_keeps_destroyed hstep hlive
  exact (hT before).step (hI before) hC hstep hlive

/-- What is left of a mount whose storage has been destroyed: no handle, and no job of one. -/
structure ClosedDown (s : VfsState) (m : MountPtr) : Prop where
  unmapped : ∀ h p d, s.lookupHandle h = some (p, d) → d.mount ≠ m
  finished : ∀ j k, s.jobs j = some k → k.phase.isFinished = false →
    ∃ d, s.pool k.target = some d ∧ d.mount ≠ m

theorem Torn.closedDown {c : ℕ} (hT : Torn s s.frames) (hI : Inv s s.frames)
    (gone : .mountDestroyed c m ∈ s.trace) : ClosedDown s m := by
  obtain ⟨-, none⟩ := hT.emptied m (.inr ⟨c, gone⟩)
  constructor
  · intro h p d hl
    exact none p d ((VfsState.lookupHandle_some p).mp hl).2
  · intro j k hj running
    obtain ⟨d, hd, -⟩ := hI.running j k hj running
    exact ⟨d, hd, none _ d hd⟩

/-- In a careful run the close of a mount leaves no handle and no job on it, and frees no
handle of another mount. -/
theorem mounts_closed (h : Reaches FlowiVfs.step Careful .init s)
    (h' : Reaches FlowiVfs.step Careful s s') (hlive : s'.destroyed = false) :
    (∀ c m, .mountDestroyed c m ∈ s'.trace → ClosedDown s' m) ∧
      ∀ id p d, s.lookupOpenHandle id = some (p, d) → .closed p ∉ s'.trace →
        d.mount ∉ s'.closing → ∃ d', s'.lookupOpenHandle id = some (p, d') := by
  have whole := h.trans h'
  constructor
  · intro c m gone
    exact (torn_reaches whole hlive).closedDown (careful_inv whole hlive) gone
  · intro id p d hl named mount
    exact stays_open (h.mono fun _ _ hC => hC.1) (h'.mono fun _ _ hC => hC.1) hl
      ⟨hlive, named, mount⟩

/-- A read of the mount is being dispatched when its close takes the snapshot, a file of it is
open, and one of another mount, which stays. -/
theorem mounts_closed_open_file : ∃ s s' d d', Reaches FlowiVfs.step Careful .init s ∧
    Reaches FlowiVfs.step Careful s s' ∧ s.closing = [0] ∧ s.pool 4 = some d ∧
    d.mount = 0 ∧ d.pendingDispatches = 1 ∧ .mountDestroyed 6 0 ∈ s'.trace ∧ ClosedDown s' 0 ∧
    s'.lookupOpenHandle 4 = some (3, d') := by
  let actions := [.start .main .mountOpen] ++ callSteps 0 3 ++ jobRuns 1 completed ++
    [.start .main .mountOpen] ++ callSteps 1 3 ++ jobRuns 2 completed ++
    [.start .main (.openFile 0)] ++ callSteps 2 3 ++ jobRuns 3 (opened 7) ++
    [.start .main (.openFile 1)] ++ callSteps 3 3 ++ jobRuns 4 (opened 8) ++
    [.start .main (.prepare ⟨0, true, true, 0⟩)] ++ callSteps 4 2 ++
    [.start (.worker 0) (.dispatch 5)] ++ callSteps 5 1 ++
    [.start .main (.mountClose 0)] ++ callSteps 6 5
  let after := callSteps 5 1 ++ jobRuns 5 completed ++ callSteps 5 1 ++ callSteps 6 7
  have hrun : ((replay FlowiVfs.step Careful actions .init).bind fun s =>
      (replay FlowiVfs.step Careful after s).map fun s' =>
        ((s.pool 4).map fun d => (d.mount, d.pendingDispatches),
          (s.lookupOpenHandle 4).map fun r => (r.1, r.2.mount),
          decide (s.closing = [0] ∧ s'.closing = [0] ∧ s'.destroyed = false ∧
            .mountDestroyed 6 0 ∈ s'.trace ∧ .closed 3 ∉ s'.trace))) =
        some (some (0, 1), some (3, 1), true) := by
    decide +kernel
  obtain ⟨s, hs, hlater⟩ := Option.bind_eq_some_iff.mp hrun
  obtain ⟨s', hs', hfacts⟩ := Option.map_eq_some_iff.mp hlater
  simp only [Prod.mk.injEq, decide_eq_true_eq] at hfacts
  obtain ⟨hread, hfile, hclosing, hclosing', hlive, hdestroyed, hnamed⟩ := hfacts
  obtain ⟨d, hd, hwindow⟩ := Option.map_eq_some_iff.mp hread
  obtain ⟨⟨p, e⟩, hl, he⟩ := Option.map_eq_some_iff.mp hfile
  simp only [Prod.mk.injEq] at hwindow he
  obtain ⟨rfl, hmount⟩ := he
  have hreach := replay_reaches actions hs
  have hafter := replay_reaches after hs'
  obtain ⟨down, kept⟩ := mounts_closed hreach hafter hlive
  have hother : e.mount ∉ s'.closing := by
    rw [hmount, hclosing']
    decide
  obtain ⟨d', hl'⟩ := kept 4 _ e hl hnamed hother
  exact ⟨s, s', d, d', hreach, hafter, hclosing, hd, hwindow.1, hwindow.2, hdestroyed,
    down 6 0 hdestroyed, hl'⟩

/-- A read is between its two critical sections at the snapshot: it is published after it and
stays in the map. And a victim is closed before it is looked up again, and a read on another
mount reuses its id: the close frees that read. -/
theorem mount_close_misses_and_overreaches :
    (∃ s, Reaches FlowiVfs.step Disciplined .init s ∧ .mountDestroyed 3 0 ∈ s.trace ∧
      ¬ ClosedDown s 0) ∧
    ∃ s s' p d, Reaches FlowiVfs.step FreshIds .init s ∧ Reaches FlowiVfs.step FreshIds s s' ∧
      s.lookupOpenHandle 3 = some (p, d) ∧ .closed p ∉ s'.trace ∧ d.mount ∉ s'.closing ∧
        s'.lookupHandle 3 = none := by
  constructor
  · let actions := openFileScript ++ [.start (.worker 0) (.read 2 10)] ++ callSteps 2 1 ++
      [.start .main (.mountClose 0)] ++ callSteps 3 5 ++ callSteps 2 2 ++ chainedRuns 3 10 ++
      callSteps 2 2 ++ callSteps 3 6
    have hrun : ((replay FlowiVfs.step Disciplined actions .init).map fun s =>
        (decide (.mountDestroyed 3 0 ∈ s.trace), (s.lookupHandle 3).map fun r => r.2.mount)) =
          some (true, some 0) := by
      decide +kernel
    obtain ⟨s, hs, hfacts⟩ := Option.map_eq_some_iff.mp hrun
    simp only [Prod.mk.injEq, decide_eq_true_eq] at hfacts
    obtain ⟨⟨p, d⟩, hl, hm⟩ := Option.map_eq_some_iff.mp hfacts.2
    exact ⟨s, replay_reaches actions hs, hfacts.1, fun down => down.unmapped 3 p d hl hm⟩
  · let actions := [.start .main .mountOpen] ++ callSteps 0 3 ++ jobRuns 1 completed ++
      [.start .main .mountOpen] ++ callSteps 1 3 ++ jobRuns 2 completed ++
      [.start .main (.openFile 0)] ++ callSteps 2 3 ++ jobRuns 3 (opened 7) ++
      [.start .main (.mountClose 0)] ++ callSteps 3 5 ++
      [.start (.worker 0) (.close 3)] ++ callSteps 4 5 ++
      [.start (.worker 0) (.readAll ⟨1, false, false, 3⟩)] ++ callSteps 5 3 ++ jobRuns 4 completed
    have hrun : ((replay FlowiVfs.step FreshIds actions .init).bind fun s =>
        (replay FlowiVfs.step FreshIds (callSteps 3 6) s).map fun s' =>
          ((s.lookupOpenHandle 3).map fun r => (r.1, r.2.mount), decide (.closed 3 ∈ s'.trace),
            s'.closing, (s'.lookupHandle 3).isNone)) =
          some (some (3, 1), false, [0], true) := by
      decide +kernel
    obtain ⟨s, hs, hlater⟩ := Option.bind_eq_some_iff.mp hrun
    obtain ⟨s', hs', hfacts⟩ := Option.map_eq_some_iff.mp hlater
    simp only [Prod.mk.injEq, decide_eq_false_iff_not, Option.isNone_iff_eq_none] at hfacts
    obtain ⟨hopen, named, hclosing, hgone⟩ := hfacts
    obtain ⟨⟨p, d⟩, hl, hm⟩ := Option.map_eq_some_iff.mp hopen
    simp only [Prod.mk.injEq] at hm
    refine ⟨s, s', p, d, replay_reaches actions hs, replay_reaches _ hs', hl, ?_, ?_, hgone⟩
    · rw [hm.1]
      exact named
    · rw [hm.2, hclosing]
      decide

end Runs

end FlowiVfs
