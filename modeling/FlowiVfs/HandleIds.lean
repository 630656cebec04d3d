import FlowiVfs.FileChains

/-!
# Handle ids

`allocate_handle` checks an id to be reused against the handle map, and takes a
fresh one from a 32-bit counter that it checks against nothing. The handle enters
the map only later, in `vfs_publish_handle`. The ids of the live handles are
distinct exactly as long as no allocation gives out an id that a live handle has.
-/
namespace FlowiVfs

open Transition

/-- A valid id that no live handle has. -/
def UnusedId (s : VfsState) (id : FlVfsHandle) : Prop :=
  id ≠ FL_VFS_HANDLE_INVALID ∧ ∀ q < s.nextPtr, ∀ d ∈ s.pool q, d.id ≠ id

instance (s : VfsState) (id : FlVfsHandle) : Decidable (UnusedId s id) :=
  inferInstanceAs (Decidable (_ ∧ _))

/-- The id that an allocation with this `reuse_handle` gives out, unless it is refused. -/
def VfsState.givenId (s : VfsState) (reuse : FlVfsHandle) : Option FlVfsHandle :=
  if reuse ≠ FL_VFS_HANDLE_INVALID ∧ (s.mapGet reuse).isSome then none else some (s.idFor reuse)

/-- The id given out at a program point. -/
def Instr.newId (s : VfsState) : Instr → Option FlVfsHandle
  | .allocOp params => s.givenId params.reuseHandle
  | .prepare params => s.givenId params.reuseHandle
  | .mountOpen | .chainAlloc _ _ _ _ _ _ => s.givenId FL_VFS_HANDLE_INVALID
  | _ => none

/-- An allocation gives out no id that is in use. -/
def FreshIds (s : VfsState) : Action → Prop
  | .exec c _ => ∀ i ∈ headInstr s c, ∀ id ∈ i.newId s, UnusedId s id
  | _ => True

instance (s : VfsState) (a : Action) : Decidable (FreshIds s a) :=
  match a with
  | .exec c _ => inferInstanceAs (Decidable (∀ i ∈ headInstr s c, ∀ id ∈ i.newId s, UnusedId s id))
  | .start _ _ | .job _ _ => inferInstanceAs (Decidable True)

/-- The ids of the live handles identify them: publishing one replaces no other's entry in the
map, and every published one is found there. -/
structure IdsSound (s : VfsState) : Prop where
  distinct : ∀ p q d e, s.pool p = some d → s.pool q = some e → d.id = e.id → p = q
  valid : ∀ p d, s.pool p = some d → d.id ≠ FL_VFS_HANDLE_INVALID
  noOther : ∀ p q d, s.pool p = some d → s.mapGet d.id = some q → q = p
  reachable : s.destroyed = false → ∀ p m r, .published p m r ∈ s.trace →
    ∀ d, s.pool p = some d → s.mapGet d.id = some p

/-- What keeps the ids sound: the map only has entries of live handles, under their own ids. -/
structure IdInv (s : VfsState) : Prop where
  bound : ∀ p d, s.pool p = some d → p < s.nextPtr
  valid : ∀ p d, s.pool p = some d → d.id ≠ FL_VFS_HANDLE_INVALID
  distinct : ∀ p q d e, s.pool p = some d → s.pool q = some e → d.id = e.id → p = q
  mapped : ∀ h p, s.mapGet h = some p → ∃ d, s.pool p = some d ∧ d.id = h
  announced : ∀ p m r, .published p m r ∈ s.trace →
    p < s.nextPtr ∧ ∀ d, s.pool p = some d → s.mapGet d.id = some p

section Ids

variable {s s' : VfsState} {new : List Instr} {i : Instr} {p : HandlePtr} {d : VfsHandleData}
  {h id : FlVfsHandle} {c : ℕ} {t : Thread} {sched : Sched} {m : MountPtr}
  {f : VfsHandleData → VfsHandleData} {cause : FreeCause} {params : VfsOpParams}

theorem IdInv.sound (hI : IdInv s) : IdsSound s where
  distinct := hI.distinct
  valid := hI.valid
  noOther p q d hd hm := by
    obtain ⟨e, he, hid⟩ := hI.mapped _ q hm
    exact hI.distinct q p e d he hd hid
  reachable _ p m r hp := (hI.announced p m r hp).2

/-- A step that leaves the handles alone. -/
theorem IdInv.same (s' : VfsState) (hI : IdInv s) (hpool : s'.pool = s.pool)
    (hmap : s'.handleMap = s.handleMap) (hptr : s'.nextPtr = s.nextPtr)
    (htrace : ∃ es, s'.trace = es ++ s.trace ∧ ∀ e ∈ es, ∀ p m r, e ≠ .published p m r) :
    IdInv s' := by
  have hget : ∀ h, s'.mapGet h = s.mapGet h := fun h => VfsState.mapGet_congr hmap
  obtain ⟨es, hes, hall⟩ := htrace
  refine ⟨?_, ?_, ?_, ?_, fun p m r hp => ?_⟩
  · rw [hpool, hptr]; exact hI.bound
  · rw [hpool]; exact hI.valid
  · rw [hpool]; exact hI.distinct
  · simp only [hget, hpool]; exact hI.mapped
  · rw [hes] at hp
    have hold := (List.mem_append.mp hp).resolve_left fun he => hall _ he p m r rfl
    simp only [hpool, hptr, hget]
    exact hI.announced p m r hold

theorem IdInv.modify (hI : IdInv s) (hf : ∀ d, (f d).id = d.id) : IdInv (s.modify p f) := by
  have hback : ∀ {q e}, (s.modify p f).pool q = some e → ∃ d, s.pool q = some d ∧ e.id = d.id := by
    intro q e he
    rcases modify_some he with ⟨rfl, d, hd, rfl⟩ | ⟨-, hd⟩
    · exact ⟨d, hd, hf d⟩
    · exact ⟨e, hd, rfl⟩
  refine ⟨fun q e he => ?_, fun q e he => ?_, fun q r e e' he he' hid => ?_, fun h q hq => ?_,
    fun q m r hq => ⟨(hI.announced q m r hq).1, fun e he => ?_⟩⟩
  · obtain ⟨d, hd, -⟩ := hback he
    exact hI.bound q d hd
  · obtain ⟨d, hd, hid⟩ := hback he
    exact hid ▸ hI.valid q d hd
  · obtain ⟨d, hd, h₁⟩ := hback he
    obtain ⟨d', hd', h₂⟩ := hback he'
    exact hI.distinct q r d d' hd hd' (h₁ ▸ h₂ ▸ hid)
  · obtain ⟨d, hd, hid⟩ := hI.mapped h q hq
    rw [VfsState.modify_pool]
    split_ifs with hqp
    · subst hqp
      exact ⟨f d, by simp [hd], (hf d).trans hid⟩
    · exact ⟨d, hd, hid⟩
  · obtain ⟨d, hd, hid⟩ := hback he
    rw [hid]
    exact (hI.announced q m r hq).2 d hd

theorem IdInv.alloc (hI : IdInv s) (halloc : allocateHandle s params = some (p, s'))
    (hid : UnusedId s (s.idFor params.reuseHandle)) : IdInv s' := by
  obtain ⟨rfl, -, hpool, hptr, hmap, -, -, -, htrace, -⟩ := allocateHandle_some halloc
  have hget : ∀ h, s'.mapGet h = s.mapGet h := fun h => VfsState.mapGet_congr hmap
  have hback : ∀ {q e}, s'.pool q = some e → (q = s.nextPtr ∧ e.id = s.idFor params.reuseHandle) ∨
      (q ≠ s.nextPtr ∧ s.pool q = some e) := by
    intro q e he
    rw [hpool, Function.update_apply] at he
    split_ifs at he with hq
    · cases he
      exact .inl ⟨hq, rfl⟩
    · exact .inr ⟨hq, he⟩
  have hforth : ∀ {q e}, s.pool q = some e → s'.pool q = some e := fun {q e} he => by
    rw [hpool, Function.update_of_ne (Nat.ne_of_lt (hI.bound q e he)), he]
  have hother : ∀ {q e}, s.pool q = some e → e.id ≠ s.idFor params.reuseHandle := fun {q e} he =>
    hid.2 q (hI.bound q e he) e he
  refine ⟨fun q e he => ?_, fun q e he => ?_, fun q r e e' he he' heq => ?_, fun h q hq => ?_,
    fun q m r hq => ?_⟩
  · rw [hptr]
    rcases hback he with ⟨rfl, -⟩ | ⟨-, he⟩
    · exact Nat.lt_succ_self _
    · exact Nat.lt_succ_of_lt (hI.bound q e he)
  · rcases hback he with ⟨-, he⟩ | ⟨-, he⟩
    · exact he ▸ hid.1
    · exact hI.valid q e he
  · rcases hback he with ⟨rfl, h₁⟩ | ⟨-, h₁⟩
    · rcases hback he' with ⟨rfl, -⟩ | ⟨-, h₂⟩
      · rfl
      · exact absurd (heq.symm.trans h₁) (hother h₂)
    · rcases hback he' with ⟨rfl, h₂⟩ | ⟨-, h₂⟩
      · exact absurd (heq.trans h₂) (hother h₁)
      · exact hI.distinct q r e e' h₁ h₂ heq
  · rw [hget] at hq
    obtain ⟨e, he, heq⟩ := hI.mapped h q hq
    exact ⟨e, hforth he, heq⟩
  · rw [htrace] at hq
    obtain ⟨hlt, hm⟩ := hI.announced q m r hq
    refine ⟨hptr ▸ Nat.lt_succ_of_lt hlt, fun e he => ?_⟩
    rw [hget]
    rcases hback he with ⟨rfl, -⟩ | ⟨-, he⟩
    · exact absurd hlt (Nat.lt_irrefl _)
    · exact hm e he

theorem IdInv.publish (hI : IdInv s) : IdInv (vfsPublishHandle s p) := by
  unfold vfsPublishHandle
  split
  · rename_i d hd
    have hget : ∀ h, VfsState.mapGet { s with handleMap := s.handleMap.insert d.id p } h =
        if h = d.id then some p else s.mapGet h := fun h => VfsState.mapGet_insert p rfl
    have hkeep : ∀ q e, s.pool q = some e → (q = p ∨ s.mapGet e.id = some q) →
        VfsState.mapGet { s with handleMap := s.handleMap.insert d.id p } e.id = some q := by
      intro q e he hq
      rw [hget]
      split_ifs with hid
      · rw [hI.distinct q p e d he hd hid]
      · rcases hq with rfl | hq
        · rw [hd] at he
          cases he
          exact absurd rfl hid
        · exact hq
    refine ⟨hI.bound, hI.valid, hI.distinct, fun h q hq => ?_, fun q m r hq => ?_⟩
    · have hq : VfsState.mapGet { s with handleMap := s.handleMap.insert d.id p } h = some q := hq
      rw [hget] at hq
      split_ifs at hq with hid
      · cases hq
        exact ⟨d, hd, hid.symm⟩
      · exact hI.mapped h q hq
    · rcases List.mem_cons.mp hq with heq | hq
      · cases heq
        exact ⟨hI.bound p d hd, fun e he => hkeep p e he (.inl rfl)⟩
      · exact ⟨(hI.announced q m r hq).1, fun e he => hkeep q e he
          (.inr ((hI.announced q m r hq).2 e he))⟩
  · exact hI

/-- The entry that freeing erases is that of the handle itself. -/
theorem IdInv.free (hI : IdInv s) : IdInv (vfsFreeHandleLocked s p cause).1 := by
  cases hd : s.pool p with
  | none => rwa [free_dead hd]
  | some d =>
      obtain ⟨hpool, herase, htrace, -⟩ := free_live cause hd
      obtain ⟨-, -, hptr, -⟩ := free_frame s p cause
      have hget : ∀ h, (vfsFreeHandleLocked s p cause).1.mapGet h =
          if h = d.id then none else s.mapGet h := fun h => VfsState.mapGet_erase herase
      refine ⟨fun q e he => ?_, fun q e he => ?_, fun q r e e' he he' heq => ?_, fun h q hq => ?_,
        fun q m r hq => ?_⟩
      · exact hptr ▸ hI.bound q e (free_pool_some he).2
      · exact hI.valid q e (free_pool_some he).2
      · exact hI.distinct q r e e' (free_pool_some he).2 (free_pool_some he').2 heq
      · rw [hget] at hq
        split_ifs at hq with hid
        obtain ⟨e, he, heq⟩ := hI.mapped h q hq
        refine ⟨e, ?_, heq⟩
        rw [hpool, Function.update_of_ne, he]
        rintro rfl
        rw [hd] at he
        cases he
        exact hid heq.symm
      · have hold : .published q m r ∈ s.trace := by
          rw [htrace] at hq
          rcases List.mem_cons.mp hq with heq | hq
          · cases heq
          · refine (List.mem_append.mp hq).resolve_left fun he => ?_
            rcases freeResources_neutral he with ⟨b, heq⟩ | ⟨b, heq⟩ <;> cases heq
        obtain ⟨hlt, hm⟩ := hI.announced q m r hold
        refine ⟨hptr ▸ hlt, fun e he => ?_⟩
        obtain ⟨hne, he⟩ := free_pool_some he
        rw [hget, if_neg, hm e he]
        exact fun heq => hne (hI.distinct q p e d he hd heq)

theorem IdInv.freeHandles {ps : List HandlePtr} (hI : IdInv s) :
    IdInv (freeHandles s ps cause).1 := by
  induction ps generalizing s with
  | nil => exact hI
  | cons p ps ih => exact ih hI.free

theorem IdInv.freeVictims {victims : List FlVfsHandle} (hI : IdInv s) :
    IdInv (vfsFreeMountVictims s m victims).1 := by
  induction victims generalizing s with
  | nil => exact hI
  | cons id victims ih =>
      unfold vfsFreeMountVictims
      split
      · exact ih hI
      · exact ih hI.free

theorem IdInv.emit {e : Event} (hI : IdInv s) (he : ∀ p m r, e ≠ .published p m r) :
    IdInv (s.emit e) :=
  hI.same _ rfl rfl rfl ⟨[e], rfl, by simpa using he⟩

theorem IdInv.addJob {k : Job} (hI : IdInv s) : IdInv (s.addJob k) :=
  hI.same _ rfl rfl rfl ⟨[], rfl, by simp⟩

theorem IdInv.closeFinish {borrows : Bool} (hI : IdInv s) :
    IdInv (FlowiVfs.closeFinish s t h borrows).1 := by
  unfold FlowiVfs.closeFinish
  split
  · exact hI
  · rename_i p d hl
    split_ifs
    · have hclosed : IdInv (s.emit (.closed p)) := hI.emit (by simp)
      exact hclosed.free
    · exact hI
    · exact hI
    · have hcount : IdInv { s with closedCount := s.closedCount + 1 } :=
        hI.same _ rfl rfl rfl ⟨[], rfl, by simp⟩
      have hmarked := hcount.modify (p := p) (f := fun d => { d with closed := true }) fun _ => rfl
      exact IdInv.emit (e := .closed p) hmarked (by simp)

theorem givenId_some (halloc : allocateHandle s params = some (p, s')) :
    s.givenId params.reuseHandle = some (s.idFor params.reuseHandle) := by
  unfold allocateHandle at halloc
  unfold VfsState.givenId
  by_cases hr : params.reuseHandle ≠ FL_VFS_HANDLE_INVALID ∧
    (s.mapGet params.reuseHandle).isSome = true
  · rw [if_pos hr] at halloc
    cases halloc
  · rw [if_neg hr]

theorem LaunchExec.ids (hx : LaunchExec s t i s' new) (hI : IdInv s)
    (hid : ∀ id ∈ i.newId s, UnusedId s id) : IdInv s' := by
  cases hx with
  | refused | prepareRefused => exact hI
  | allocated known halloc => exact hI.alloc halloc (hid _ (givenId_some halloc))
  | prepared known halloc =>
      exact (hI.alloc halloc (hid _ (givenId_some halloc))).emit (by simp)
  | queued => exact hI.addJob.modify fun _ => rfl
  | inlined => exact hI.addJob
  | ran => exact hI.modify fun _ => rfl
  | published => exact hI.publish

theorem MountExec.ids (hx : MountExec s t i s' new) (hI : IdInv s)
    (hid : ∀ id ∈ i.newId s, UnusedId s id) : IdInv s' := by
  cases hx with
  | opened lock halloc =>
      have hlisted : IdInv { s with
          nextMount := s.nextMount + 1, mountList := s.mountList ++ [s.nextMount] } :=
        hI.same _ rfl rfl rfl ⟨[], rfl, by simp⟩
      exact hlisted.alloc halloc (hid _ (givenId_some halloc))
  | inlined => exact hI.addJob
  | queued => exact hI.addJob.modify fun _ => rfl
  | ran => exact hI.modify fun _ => rfl
  | @published m p j =>
      have hset : IdInv { s with mounts := Function.update s.mounts m (some ⟨j⟩) } :=
        hI.same _ rfl rfl rfl ⟨[], rfl, by simp⟩
      exact hset.publish

theorem DispatchExec.ids (hx : DispatchExec s t i s' new) (hI : IdInv s) : IdInv s' := by
  cases hx with
  | missing | ran => exact hI
  | @entered h p d hl =>
      have hopen : IdInv (s.modify p openWindow) := hI.modify fun _ => rfl
      exact hopen.emit (by simp)
  | queued | inlined => exact hI.addJob
  | recorded =>
      unfold dispatchRecord
      split_ifs
      · exact hI.modify fun _ => rfl
      · exact hI

theorem ChainExec.ids (hx : ChainExec s t i s' new) (hI : IdInv s)
    (hid : ∀ id ∈ i.newId s, UnusedId s id) : IdInv s' := by
  cases hx with
  | copiedOnly | copied => exact hI.same _ rfl rfl rfl ⟨[_], rfl, by simp⟩
  | refused => exact hI
  | @entered h params f d hmap hd hopen hop =>
      have hopened : IdInv (s.modify f openWindow) := hI.modify fun _ => rfl
      exact hopened.emit (by simp)
  | allocated known halloc =>
      exact (hI.alloc halloc (hid _ (givenId_some halloc))).modify fun _ => rfl
  | unwound =>
      unfold chainUnwind
      split
      · exact hI
      · exact hI.modify fun _ => rfl
  | blocked | ran => exact hI.modify fun _ => rfl
  | inlined => exact hI.addJob
  | queued => exact hI.addJob.modify fun _ => rfl
  | published =>
      unfold chainPublish
      split
      · exact IdInv.publish (hI.modify (f := recordOn _ _) fun _ => rfl)
      · exact hI.publish

theorem CloseExec.ids (hx : CloseExec s c t i s' new) (hI : IdInv s) : IdInv s' := by
  cases hx with
  | canceled => exact hI.modify fun _ => rfl
  | reclaimed =>
      unfold vfsReclaimClosedHandles
      split_ifs
      · exact hI
      · exact hI.freeHandles
  | hook => exact hI.emit (by simp)
  | closed => exact hI.closeFinish
  | _ => exact hI

theorem TeardownExec.ids (hx : TeardownExec s c i s' new) (hI : IdInv s)
    (hlive : s'.destroyed = false) : IdInv s' := by
  cases hx with
  | unlisted | snapshot => exact hI.same _ rfl rfl rfl ⟨[], rfl, by simp⟩
  | unknown | draining | drained | next => exact hI
  | freed => exact hI.freeVictims
  | destroyed => exact hI.same _ rfl rfl rfl ⟨[_], rfl, by simp⟩
  | cleared => cases hlive

/-- Every body whose allocation gives out an unused id, up to the end of `vfs_destroy`. -/
theorem IdInv.body (hI : IdInv s) (hid : ∀ id ∈ i.newId s, UnusedId s id)
    (hx : execBody s c t sched i = some (s', new)) (hlive : s'.destroyed = false) : IdInv s' := by
  cases execBody_some hx with
  | launch h => exact h.ids hI hid
  | mount h => exact h.ids hI hid
  | dispatch h => exact h.ids hI
  | chain h => exact h.ids hI hid
  | close h => exact h.ids hI
  | teardown h => exact h.ids hI hlive

theorem givenId_refused (halloc : allocateHandle s params = none) :
    s.givenId params.reuseHandle = none := by
  unfold allocateHandle at halloc
  unfold VfsState.givenId
  by_cases hr : params.reuseHandle ≠ FL_VFS_HANDLE_INVALID ∧
    (s.mapGet params.reuseHandle).isSome = true
  · rw [if_pos hr]
  · rw [if_neg hr] at halloc
    cases halloc

theorem allocateHandle_born (halloc : allocateHandle s params = some (p, s'))
    (hid : id ∈ s.givenId params.reuseHandle) :
    ∃ e, s'.pool s.nextPtr = some e ∧ e.id = id ∧ ∀ q ≠ s.nextPtr, s'.pool q = s.pool q := by
  rw [givenId_some halloc, Option.mem_some_iff] at hid
  obtain ⟨-, -, hpool, -⟩ := allocateHandle_some halloc
  refine ⟨newHandleData (s.idFor params.reuseHandle) params, ?_, hid, fun q hq => ?_⟩
  · rw [hpool, Function.update_self]
  · rw [hpool, Function.update_of_ne hq]

/-- The handle an allocation makes has the id given out. -/
theorem newId_born (hid : id ∈ i.newId s) (hx : execBody s c t sched i = some (s', new)) :
    ∃ e, s'.pool s.nextPtr = some e ∧ e.id = id ∧ ∀ q ≠ s.nextPtr, s'.pool q = s.pool q := by
  cases i with
  | allocOp params =>
      cases allocOp_exec hx with
      | refused halloc =>
          rw [Instr.newId, givenId_refused halloc] at hid
          cases hid
      | allocated known halloc => exact allocateHandle_born halloc hid
  | prepare params =>
      cases prepare_exec hx with
      | prepareRefused halloc =>
          have hnone := givenId_refused halloc
          rw [VfsReadAllParams.toOp] at hnone
          rw [Instr.newId, hnone] at hid
          cases hid
      | prepared known halloc =>
          have hgiven : id ∈ s.givenId params.toOp.reuseHandle := hid
          obtain ⟨e, he, heid, hother⟩ := allocateHandle_born halloc hgiven
          exact ⟨e, he, heid, hother⟩
  | mountOpen =>
      cases mountOpen_exec hx with
      | opened lock halloc =>
          obtain ⟨e, he, heid, hother⟩ := allocateHandle_born halloc hid
          exact ⟨e, he, heid, hother⟩
  | chainAlloc h file ticket params m after =>
      cases chainAlloc_exec hx with
      | allocated known halloc =>
          obtain ⟨e, he, heid, hother⟩ := allocateHandle_born halloc hid
          refine ⟨chainFill h params e, ?_, heid, fun q hq => ?_⟩
          · rw [VfsState.modify_pool, if_pos rfl, he]
            rfl
          · rw [VfsState.modify_pool, if_neg hq, hother q hq]
  | _ => cases hid

theorem JobMove.ids {j : FlJobHandle} {k : Job} {phase : JobPhase} {es : List Event} (hI : IdInv s)
    (hm : JobMove s j k d phase f es) : IdInv (afterMove s j p phase f es) := by
  refine (hI.modify fun d => (hm.keeps.1 d).1).same _ rfl rfl rfl ⟨es, rfl, ?_⟩
  intro e he p m r heq
  subst heq
  cases hm with
  | cancel | run => exact absurd (mem_callbackEvents he) nofun
  | begin | find | fail | store => simp at he
  | enter | leave | finish => exact absurd (List.mem_singleton.mp he) nofun

end Ids

/-! ## Steps and runs -/

section Runs

variable {s s' : VfsState} {a : Action} {ok : VfsState → Action → Prop}

theorem idInv_init : IdInv .init := by
  refine ⟨?_, ?_, ?_, ?_, ?_⟩
  all_goals simp [VfsState.init, VfsState.mapGet]

theorem IdInv.step (hI : IdInv s) (hfresh : FreshIds s a) (h : step s a = some s')
    (hlive : s'.destroyed = false) : IdInv s' := by
  cases a with
  | start t request =>
      simp only [FlowiVfs.step] at h
      split_ifs at h
      cases h
      exact hI.same _ rfl rfl rfl ⟨[], rfl, by simp⟩
  | job j input =>
      simp only [FlowiVfs.step] at h
      split_ifs at h
      obtain ⟨k, d, phase, f, es, -, -, hm, rfl⟩ := jobStep_cases h
      exact hm.ids hI
  | exec c sched =>
      obtain ⟨t, i, rest, s₁, new, hc, -, -, hx, rfl⟩ := step_exec h
      have hid : ∀ id ∈ i.newId s, UnusedId s id := hfresh i (by simp [headInstr, hc])
      obtain ⟨s₀, s₂, hbody, hlock⟩ := exec_body hx
      have hI₁ : IdInv s₁ := by
        rcases hlock with ⟨-, rfl, rfl⟩ | ⟨-, rfl, rfl⟩
        · have hlocked : IdInv (s.emit (.lock c)) := hI.emit (by simp)
          have hbodyI : IdInv s₂ := hlocked.body hid hbody hlive
          exact IdInv.emit (e := .unlock c) hbodyI (by simp)
        · exact hI.body hid hbody hlive
      exact hI₁.same _ rfl rfl rfl ⟨[], rfl, by simp⟩

/-- What the end of `vfs_destroy` and what comes after it leave of the ids. -/
theorem IdsSound.destroyed (hS : IdsSound s) (h : FlowiVfs.step s a = some s')
    (hdead : s'.destroyed = true) : IdsSound s' := by
  have hmap : ∀ h q, s'.mapGet h = some q → s.mapGet h = some q := by
    intro h q hq
    cases hs : s.destroyed with
    | false =>
        obtain ⟨c, sched, t, rest, -, -, -, rfl⟩ := step_destroys ‹_› hs hdead
        simp [VfsState.mapGet] at hq
    | true =>
        obtain ⟨c, t, i, rest, new, -, -, rfl | ⟨p, ps, -, -, rfl⟩⟩ := step_after_destroy ‹_› hs
        · exact hq
        · exact hq
  have hpool := (destroyed_core h hdead).1
  refine ⟨?_, ?_, ?_, fun hlive => ?_⟩
  · rw [hpool]; exact hS.distinct
  · rw [hpool]; exact hS.valid
  · rw [hpool]
    exact fun p q d hd hq => hS.noOther p q d hd (hmap _ q hq)
  · rw [hdead] at hlive
    cases hlive

theorem ids_reaches (h : Reaches step FreshIds .init s) :
    IdsSound s ∧ (s.destroyed = false → IdInv s) := by
  refine h.invariant (P := fun s => IdsSound s ∧ (s.destroyed = false → IdInv s))
    ⟨idInv_init.sound, fun _ => idInv_init⟩ ?_
  rintro t a u ⟨hS, hI⟩ hfresh hstep
  cases hlive : u.destroyed with
  | false =>
      have hI' := (hI (step_keeps_destroyed hstep hlive)).step hfresh hstep hlive
      exact ⟨hI'.sound, fun _ => hI'⟩
  | true => exact ⟨hS.destroyed hstep hlive, nofun⟩

/-- An allocation that leaves the ids distinct and valid gave out an unused one. -/
theorem FreshIds.of_sound (hbound : ∀ p d, s.pool p = some d → p < s.nextPtr)
    (h : step s a = some s') (hS : IdsSound s') : FreshIds s a := by
  cases a with
  | start | job => trivial
  | exec c sched =>
      obtain ⟨t, i, rest, s₁, new, hc, -, -, hx, rfl⟩ := step_exec h
      obtain ⟨s₀, s₂, hbody, hlock⟩ := exec_body hx
      intro i' hi' id hid
      simp only [headInstr, hc, Option.bind_some, List.head?_cons, Option.mem_some_iff] at hi'
      subst hi'
      obtain ⟨e, he, heid, hother⟩ : ∃ e, s₁.pool s.nextPtr = some e ∧ e.id = id ∧
          ∀ q ≠ s.nextPtr, s₁.pool q = s.pool q := by
        rcases hlock with ⟨-, rfl, rfl⟩ | ⟨-, rfl, rfl⟩
        · obtain ⟨e, he, heid, hother⟩ := newId_born (s := s.emit (.lock c)) hid hbody
          exact ⟨e, he, heid, hother⟩
        · exact newId_born hid hbody
      refine ⟨heid ▸ hS.valid _ e he, fun q hq d hd heq => ?_⟩
      have hne : q ≠ s.nextPtr := Nat.ne_of_lt hq
      have hd' : s₁.pool q = some d := (hother q hne).trans hd
      exact hne (hS.distinct q s.nextPtr d e hd' he (heq.trans heid.symm))

/-- Nothing is allocated once the VFS is destroyed. -/
theorem FreshIds.of_destroyed (hdead : s.destroyed = true) (h : step s a = some s') :
    FreshIds s a := by
  cases a with
  | start | job => trivial
  | exec c sched =>
      obtain ⟨t, i, rest, s₁, new, hc, -, hlater, -⟩ := step_exec h
      have hout := hlater hdead
      intro i' hi' id hid
      simp only [headInstr, hc, Option.bind_some, List.head?_cons, Option.mem_some_iff] at hi'
      subst hi'
      cases i with
      | releases | waitJobs => cases hid
      | _ => cases hout

/-- Along the runs that have given out unused ids only, ids are sound, and the next step leaves
them so exactly when it gives out none that is in use. -/
theorem ids_exact (h : Reaches step FreshIds .init s) :
    IdsSound s ∧ ∀ a s', step s a = some s' → (IdsSound s' ↔ FreshIds s a) := by
  obtain ⟨hS, hI⟩ := ids_reaches h
  refine ⟨hS, fun a s' hstep => ⟨fun hS' => ?_, fun hfresh => ?_⟩⟩
  · cases hs : s.destroyed with
    | false => exact FreshIds.of_sound (hI hs).bound hstep hS'
    | true => exact .of_destroyed hs hstep
  · exact (ids_reaches (h.trans (.step a .start hfresh hstep))).1

/-- A file is opened and closed, and its id is used again. -/
theorem ids_exact_reuse : ∃ s, Reaches step FreshIds .init s ∧ (s.mapGet 2).isSome = true ∧
    IdsSound s := by
  let actions := openFileScript ++ [.start .main (.close 2)] ++ callSteps 2 5 ++
    [.start .main (.readAll ⟨0, false, false, 2⟩)] ++ callSteps 3 3
  have hrun : ((replay step FreshIds actions .init).map fun s => (s.mapGet 2).isSome) =
      some true := by
    decide +kernel
  obtain ⟨s, hs, hmap⟩ := Option.map_eq_some_iff.mp hrun
  have hreach := replay_reaches actions hs
  exact ⟨s, hreach, hmap, (ids_exact hreach).1⟩

/-- Two workers read with the same closed id: both pass the check before either is published. -/
theorem reused_id_twice : ∃ s, Reaches step (fun _ _ => True) .init s ∧ ¬ IdsSound s := by
  let actions := openFileScript ++ [.start .main (.close 2)] ++ callSteps 2 5 ++
    [.start (.worker 0) (.readAll ⟨0, false, false, 2⟩),
      .start (.worker 1) (.readAll ⟨0, false, false, 2⟩)] ++ callSteps 3 1 ++ callSteps 4 1
  have hrun : ((replay step (fun _ _ => True) actions .init).map fun s =>
      ((s.pool 2).map fun d => d.id, (s.pool 3).map fun d => d.id)) = some (some 2, some 2) := by
    decide +kernel
  obtain ⟨s, hs, hfacts⟩ := Option.map_eq_some_iff.mp hrun
  simp only [Prod.mk.injEq] at hfacts
  obtain ⟨d, hd, hid⟩ := Option.map_eq_some_iff.mp hfacts.1
  obtain ⟨e, he, hid'⟩ := Option.map_eq_some_iff.mp hfacts.2
  refine ⟨s, replay_reaches actions hs, fun hS => ?_⟩
  exact absurd (hS.distinct 2 3 d e hd he (hid.trans hid'.symm)) (by decide)

end Runs

end FlowiVfs
