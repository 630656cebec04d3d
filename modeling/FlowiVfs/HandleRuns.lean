import FlowiVfs.HandleInvariant
import FlowiVfs.HandleBodies

/-!
# Every run keeps the invariant

`Disciplined` is what the handle system asks of its callers: ids are not handed
out twice, `vfs_dispatch` is called once on a handle that was prepared, and
nothing is dispatched or chained on a mount whose close has taken its snapshot.
Every step that meets it keeps `Inv`, up to the end of `vfs_destroy`.
-/
namespace FlowiVfs

open Transition

/-- The discipline at one program point, with `F` the points of all calls. -/
def Instr.Disciplined (s : VfsState) (F : List Instr) : Instr → Prop
  | .allocOp params =>
      (params.reuseHandle ≠ FL_VFS_HANDLE_INVALID ∧ (s.mapGet params.reuseHandle).isSome) ∨
        FreshId s F (s.idFor params.reuseHandle)
  | .prepare params =>
      (params.reuseHandle ≠ FL_VFS_HANDLE_INVALID ∧ (s.mapGet params.reuseHandle).isSome) ∨
        FreshId s F (s.idFor params.reuseHandle)
  | .mountOpen | .chainAlloc _ _ _ _ _ _ => FreshId s F (s.idFor FL_VFS_HANDLE_INVALID)
  | .dispatch h => ∀ r ∈ s.lookupOpenHandle h, Undispatched s.trace r.1 ∧ r.2.mount ∉ s.closing
  | .chain h _ => ∀ r ∈ s.lookupOpenHandle h, r.2.mount ∉ s.closing
  | _ => True

instance (s : VfsState) (F : List Instr) (i : Instr) : Decidable (i.Disciplined s F) := by
  unfold Instr.Disciplined
  split <;> infer_instance

/-- The program point a step of a call is at. -/
def headInstr (s : VfsState) (c : ℕ) : Option Instr := (s.calls[c]?).bind fun k => k.todo.head?

/-- The callers keep to the rules of the handle system. -/
def Disciplined (s : VfsState) : Action → Prop
  | .exec c _ => ∀ i ∈ headInstr s c, i.Disciplined s s.frames
  | _ => True

instance (s : VfsState) (a : Action) : Decidable (Disciplined s a) := by
  unfold Disciplined
  split <;> infer_instance

section Bodies

variable {s s' : VfsState} {F new : List Instr} {p : HandlePtr} {h : FlVfsHandle} {c : ℕ}
  {t : Thread} {sched : Sched} {j r : FlJobHandle} {i : Instr} {m : MountPtr}

theorem FreshId.mono {id : FlVfsHandle} (hid : FreshId s F id) {G : List Instr}
    (hG : ∀ x ∈ G, x ∈ F) : FreshId s G id :=
  ⟨hid.1, hid.2.1, fun x hx => hid.2.2 x (hG x hx)⟩

/-! ## Launching an operation -/

/-- A reused id that was given out was not in the map. -/
theorem allocateHandle_reuse {params : VfsOpParams} {Q : Prop}
    (halloc : allocateHandle s params = some (p, s'))
    (hid : (params.reuseHandle ≠ FL_VFS_HANDLE_INVALID ∧
      (s.mapGet params.reuseHandle).isSome) ∨ Q) : Q := by
  rcases hid with ⟨reused, mapped⟩ | hQ
  · rcases (allocateHandle_some halloc).2.1 with none | unmapped
    · exact absurd none reused
    · simp [unmapped] at mapped
  · exact hQ

theorem LaunchExec.inv (hx : LaunchExec s t i s' new) (hI : Inv s (i :: F))
    (hD : i.Disciplined s F) : Inv s' (new ++ F) := by
  cases hx with
  | refused | prepareRefused => exact hI.drop rfl rfl
  | allocated known halloc =>
      exact hI.alloc halloc (allocateHandle_reuse halloc hD) rfl rfl rfl rfl rfl rfl rfl
  | prepared known halloc =>
      obtain ⟨rfl, -, hpool, -, -, hjobs, -⟩ := allocateHandle_some halloc
      have hJ := hI.alloc (y := .publish s.nextPtr) halloc (allocateHandle_reuse halloc hD)
        rfl rfl rfl rfl rfl rfl rfl
      refine hJ.announce (by rw [hpool, Function.update_self]) rfl rfl fun j k hj => ?_
      rw [hjobs] at hj
      exact Nat.ne_of_lt (hI.targetBound j k hj)
  | @queued p d m hd hm =>
      have hJ := hI.addJob (y := .inlineOp p s.nextJob s.nextJob)
        (k := ⟨p, mountDependency s m, none, .queued⟩) hd rfl rfl rfl rfl rfl rfl rfl rfl rfl rfl
      exact hJ.record rfl rfl (.inl rfl) rfl rfl rfl rfl rfl
  | inlined hd hm worker free hr => exact hI.addJob hd rfl rfl rfl rfl rfl rfl rfl rfl rfl rfl
  | ran finished => exact hI.record rfl rfl (.inr finished) rfl rfl rfl rfl rfl
  | published => exact hI.publish rfl rfl rfl

/-! ## Opening a mount -/

theorem MountExec.inv (hx : MountExec s t i s' new) (hI : Inv s (i :: F))
    (hD : i.Disciplined s F) : Inv s' (new ++ F) := by
  cases hx with
  | opened lock halloc =>
      have hJ : Inv
          { s with nextMount := s.nextMount + 1, mountList := s.mountList ++ [s.nextMount] }
          (.mountOpen :: F) := hI.of_core rfl (fun _ => rfl) rfl rfl rfl (fun _ h => h) fun _ =>
        ⟨Iff.rfl, Iff.rfl⟩
      exact hJ.alloc halloc hD rfl rfl rfl rfl rfl rfl rfl
  | @inlined m p worker =>
      obtain ⟨d, hd, -⟩ := hI.owner_private (i := .mountSchedule m p) List.mem_cons_self rfl
      exact hI.addJob hd rfl rfl rfl rfl rfl rfl rfl rfl rfl rfl
  | @queued m p main =>
      obtain ⟨d, hd, -⟩ := hI.owner_private (i := .mountSchedule m p) List.mem_cons_self rfl
      have hJ := hI.addJob (y := .mountInline m p s.nextJob) (k := ⟨p, 0, none, .queued⟩) hd
        rfl rfl rfl rfl rfl rfl rfl rfl rfl rfl
      exact hJ.record rfl rfl (.inl rfl) rfl rfl rfl rfl rfl
  | ran finished => exact hI.record rfl rfl (.inr finished) rfl rfl rfl rfl rfl
  | @published m p j =>
      have hJ : Inv { s with mounts := Function.update s.mounts m (some ⟨j⟩) }
          (.mountPublish m p j :: F) :=
        hI.of_core rfl (fun _ => rfl) rfl rfl rfl (fun _ h => h) fun _ => ⟨Iff.rfl, Iff.rfl⟩
      exact hJ.publish rfl rfl rfl

/-! ## Dispatching -/

/-- An event that neither prepares nor dispatches. -/
theorem Inv.emit {e : Event} (hI : Inv s F) (hp : ∀ p, e ≠ .prepared p)
    (hd : ∀ p, e ≠ .dispatched p) : Inv (s.emit e) F :=
  hI.of_core rfl (fun _ => rfl) rfl rfl rfl (fun _ h => h) fun p =>
    ⟨by simp [Ne.symm (hp p)], by simp [Ne.symm (hd p)]⟩

/-- A dispatch only makes handles dispatched. -/
theorem Inv.emit_dispatched (hI : Inv s F) (hp : p < s.nextPtr) :
    Inv (s.emit (.dispatched p)) F := by
  have hund : ∀ q, Undispatched (s.emit (.dispatched p)).trace q → Undispatched s.trace q := by
    intro q hq
    simp only [Undispatched, VfsState.emit_trace, List.mem_cons, reduceCtorEq, false_or,
      not_or] at hq
    exact ⟨hq.1, hq.2.2⟩
  refine ⟨⟨hI.poolBound, hI.jobBound, hI.jobPos, hI.mapped, hI.idNonzero, hI.distinct, ?_,
    hI.targetBound⟩, hI.owned, hI.windows, hI.windowMapped, hI.running, ?_, hI.dispatching,
    fun q hq => hI.prepared q (hund q hq), hI.teardown⟩
  · intro q hq
    simp only [VfsState.emit_trace, List.mem_cons, Event.dispatched.injEq, reduceCtorEq,
      false_or] at hq
    rcases hq with hq | rfl | hq
    · exact hI.traceBound q (.inl hq)
    · exact hp
    · exact hI.traceBound q (.inr hq)
  · intro x hx q hu e he
    obtain ⟨h₁, h₂, h₃⟩ := hI.unset x hx q hu e he
    exact ⟨h₁, h₂, fun hq => h₃ (hund q hq)⟩

theorem DispatchExec.inv (hx : DispatchExec s t i s' new) (hI : Inv s (i :: F))
    (hD : i.Disciplined s F) : Inv s' (new ++ F) := by
  cases hx with
  | missing => exact hI.drop rfl rfl
  | @entered h p d hl =>
      have hI' := hI.drop rfl rfl
      obtain ⟨hund, hmount⟩ := hD (p, d) hl
      obtain ⟨hmap, hd, -⟩ := (VfsState.lookupOpenHandle_some p).mp hl
      obtain ⟨hop, hpend, hjob, hlast, -, -⟩ := hI.prepared p hund d hd
      refine (hI'.emit_dispatched (hI.poolBound p d hd)).raise hmap hd hmount ?_
        (fun d => ⟨rfl, rfl, rfl⟩) (fun d => ⟨rfl, rfl, rfl⟩) rfl rfl rfl ?_ ?_ ?_
      · simp [Undispatched]
      · intro x hx hdis
        obtain ⟨id, hw⟩ := Instr.dispatches_window hdis
        exact hI'.pending_zero_no_window hd hpend hx hw
      · exact fun q _ => ⟨hjob, hlast⟩
      · exact fun q _ => ⟨hpend, by simp [hop]⟩
  | queued hd hm => exact hI.addJob hd rfl rfl rfl rfl rfl rfl rfl rfl rfl rfl
  | inlined hd hm worker free hr => exact hI.addJob hd rfl rfl rfl rfl rfl rfl rfl rfl rfl rfl
  | ran finished =>
      refine hI.reframe rfl rfl rfl (.inr rfl) ?_ (.inl rfl)
      intro q j' hc
      cases hc
      exact .inr finished
  | @recorded h p j =>
      rw [dispatchRecord, if_pos (hI.windowMapped (.dispatchRecord h p j) List.mem_cons_self h p rfl)]
      have hJ := hI.lower (y := .releases [])
        (f := fun d => { d with jobHandle := j, lastJob := j,
                                pendingDispatches := d.pendingDispatches - 1 })
        rfl (fun d => ⟨rfl, rfl, rfl⟩) (fun d => rfl) (.inr ⟨j, rfl, fun d => rfl⟩) rfl rfl rfl rfl
      exact hJ.drop rfl rfl

/-! ## Chaining -/

/-- The file of a window is found again. -/
theorem chainUnwind_live {file : HandlePtr} (hI : Inv s (.chainUnwind h file :: F)) :
    ∃ d, s.pool file = some d ∧ d.id = h ∧ s.mapGet h = some file ∧
      chainUnwind s h = s.modify file closeWindow := by
  obtain ⟨d, hd, hid, hmap, -⟩ := hI.window_live (i := .chainUnwind h file) List.mem_cons_self rfl
  refine ⟨d, hd, hid, hmap, ?_⟩
  rw [chainUnwind, (VfsState.lookupHandle_some file).mpr ⟨hmap, hd⟩]
  rfl

theorem chainPublish_live {file : HandlePtr} {refused : Bool}
    (hI : Inv s (.chainPublish h file p refused :: F)) :
    ∃ d op, s.pool file = some d ∧ d.id = h ∧ s.mapGet h = some file ∧ s.pool p = some op ∧
      p ≠ file ∧
      chainPublish s h p refused =
        vfsPublishHandle (s.modify file (recordOn refused op.jobHandle)) p := by
  have hhead : Instr.chainPublish h file p refused ∈ Instr.chainPublish h file p refused :: F :=
    List.mem_cons_self
  obtain ⟨d, hd, hid, hmap, -⟩ := hI.window_live hhead rfl
  obtain ⟨op, hop, hprivate⟩ := hI.owner_private hhead rfl
  refine ⟨d, op, hd, hid, hmap, hop, ?_, ?_⟩
  · rintro rfl
    rw [hd] at hop
    cases hop
    exact hprivate (hid ▸ hmap)
  · simp only [chainPublish, (VfsState.lookupHandle_some file).mpr ⟨hmap, hd⟩, hop]
    rfl

theorem Inv.bufferAllocated (hI : Inv s F) :
    Inv ({ s with nextBuffer := s.nextBuffer + 1 }.emit (.bufferAllocated s.nextBuffer)) F := by
  have hJ : Inv { s with nextBuffer := s.nextBuffer + 1 } F :=
    hI.of_core rfl (fun _ => rfl) rfl rfl rfl (fun _ h => h) fun _ => ⟨Iff.rfl, Iff.rfl⟩
  exact hJ.emit (by simp) (by simp)

theorem ChainExec.inv (hx : ChainExec s t i s' new) (hI : Inv s (i :: F))
    (hD : i.Disciplined s F) : Inv s' (new ++ F) := by
  cases hx with
  | copiedOnly nothing => exact (hI.drop rfl rfl).bufferAllocated
  | copied something =>
      exact (hI.drop rfl rfl).bufferAllocated.push rfl rfl (by simp [Instr.teardown])
  | refused => exact hI.drop rfl rfl
  | @entered h params f d hmap hd hopen hop =>
      have hI' := hI.drop rfl rfl
      have hmount := hD (f, d) ((VfsState.lookupOpenHandle_some f).mpr ⟨hmap, hd, hopen⟩)
      refine (hI'.emit (e := Event.entered s.trace.length f) (by simp) (by simp)).raise hmap hd
        hmount ?_ (fun d => ⟨rfl, rfl, rfl⟩) (fun d => ⟨rfl, rfl, rfl⟩) rfl rfl rfl ?_ ?_ ?_
      · intro hund
        simp only [Undispatched, VfsState.emit_trace, List.mem_cons, reduceCtorEq, false_or] at hund
        have hread := (hI.prepared f hund d hd).1
        simp [hop] at hread
      · exact fun x hx hdis => (hI'.dispatching x hx f hdis d hd).2 hop
      · simp [Instr.unset]
      · simp [Instr.dispatches]
  | @allocated h file ticket params m after s₁ known halloc =>
      have hJ := hI.alloc (y := .chainRun h file ticket s.nextPtr after) halloc hD
        rfl rfl rfl rfl rfl rfl rfl
      exact hJ.touch (fun d => ⟨rfl, rfl, rfl⟩) (fun d => ⟨rfl, rfl, rfl⟩) (.inl fun d => rfl)
  | unwound =>
      obtain ⟨d, hd, -, -, hunwind⟩ := chainUnwind_live hI
      rw [hunwind]
      have hJ := hI.lower (y := .releases []) (f := closeWindow)
        rfl (fun d => ⟨rfl, rfl, rfl⟩) (fun d => rfl) (.inl ⟨rfl, fun d => rfl⟩) rfl rfl rfl rfl
      exact hJ.drop rfl rfl
  | @blocked h file ticket p after worker pending =>
      obtain ⟨d, hd, -⟩ :=
        hI.owner_private (i := .chainRun h file ticket p after) List.mem_cons_self rfl
      have hund := (hI.unset (.chainRun h file ticket p after) List.mem_cons_self p rfl d hd).2.2
      have hJ := hI.touch (p := p) (f := refuse) (fun d => ⟨rfl, rfl, rfl⟩)
        (fun d => ⟨rfl, rfl, rfl⟩) (.inr hund)
      exact hJ.reframe rfl rfl rfl (.inl rfl) (by simp [Instr.carries]) (.inl rfl)
  | @inlined h file ticket p after worker done =>
      obtain ⟨d, hd, -⟩ :=
        hI.owner_private (i := .chainRun h file ticket p after) List.mem_cons_self rfl
      exact hI.addJob hd rfl rfl rfl rfl rfl rfl rfl rfl rfl rfl
  | @queued h file ticket p after main =>
      obtain ⟨d, hd, -⟩ :=
        hI.owner_private (i := .chainRun h file ticket p after) List.mem_cons_self rfl
      have hJ := hI.addJob (y := .chainInline h file p s.nextJob)
        (k := ⟨p, after, some (ticket, file), .queued⟩) hd rfl rfl rfl rfl rfl rfl rfl rfl rfl rfl
      exact hJ.record rfl rfl (.inl rfl) rfl rfl rfl rfl rfl
  | ran finished => exact hI.record rfl rfl (.inr finished) rfl rfl rfl rfl rfl
  | @published h file p refused =>
      obtain ⟨d, op, hd, -, -, hop, -, hpublish⟩ := chainPublish_live hI
      rw [hpublish]
      have hJ := hI.lower (y := .publish p) (f := recordOn refused op.jobHandle)
        rfl (fun d => ⟨rfl, rfl, rfl⟩) (fun d => rfl) (.inl ⟨rfl, fun d => rfl⟩) rfl rfl rfl rfl
      exact hJ.publish rfl rfl rfl

/-! ## Closing -/

theorem mem_mapEntries {e : FlVfsHandle × HandlePtr × VfsHandleData} :
    e ∈ mapEntries s ↔ s.mapGet e.1 = some e.2.1 ∧ s.pool e.2.1 = some e.2.2 := by
  obtain ⟨h, p, d⟩ := e
  simp only [mapEntries, List.mem_filterMap, Option.map_eq_some_iff, Prod.mk.injEq]
  constructor
  · rintro ⟨⟨h', p'⟩, hmem, d', hd, rfl, rfl, rfl⟩
    exact ⟨AList.mem_lookup_iff.mpr hmem, hd⟩
  · rintro ⟨hmap, hd⟩
    exact ⟨⟨h, p⟩, AList.mem_lookup_iff.mp hmap, d, hd, rfl, rfl, rfl⟩

theorem handleJobs_finished {a b : FlJobHandle} :
    vfsJobsFinished s (vfsHandleJobs a b) = true ↔ s.jobDone a = true ∧ s.jobDone b = true := by
  unfold vfsHandleJobs vfsJobsFinished VfsState.jobDone
  by_cases ha : a = 0
  · by_cases hb : b = 0
    · simp [ha, hb]
    · simp [ha, hb]
  · by_cases hb : b = 0
    · simp [ha, hb]
    · by_cases hab : b = a
      · simp [ha, hab]
      · simp [ha, hb, hab]

theorem idle_iff {d : VfsHandleData} : Idle s d ↔
    d.pendingDispatches = 0 ∧ vfsJobsFinished s d.handleJobs = true := by
  rw [Idle, VfsHandleData.handleJobs, handleJobs_finished]

/-- The sweep takes idle handles of the map. -/
theorem Inv.reclaim_idle (hI : Table s) : ∀ p ∈ ((mapEntries s).filter fun e =>
      vfsHandleIsReclaimable s e.2.2).map (fun e => e.2.1),
    ∀ d, s.pool p = some d → s.mapGet d.id = some p ∧ Idle s d := by
  intro p hp d hd
  simp only [List.mem_map, List.mem_filter] at hp
  obtain ⟨⟨h, q, e⟩, ⟨hmem, hrec⟩, rfl⟩ := hp
  obtain ⟨hmap, he⟩ := mem_mapEntries.mp hmem
  simp only at hmap he hd hrec
  rw [he] at hd
  cases hd
  obtain ⟨e', he', hid⟩ := hI.mapped h q hmap
  rw [he] at he'
  cases he'
  refine ⟨hid ▸ hmap, idle_iff.mpr ?_⟩
  simp only [vfsHandleIsReclaimable, Bool.and_eq_true, beq_iff_eq] at hrec
  exact ⟨hrec.1.2, hrec.2⟩

theorem Inv.reclaim (hI : Inv s F) : Inv (vfsReclaimClosedHandles s).1 F := by
  unfold vfsReclaimClosedHandles
  split_ifs
  · exact hI
  · exact hI.freeHandles (reclaim_idle hI.toTable)

theorem Inv.closeFinish {borrows : Bool} (hI : Inv s F) :
    Inv (closeFinish s t h borrows).1 F := by
  unfold FlowiVfs.closeFinish
  split
  · exact hI
  · rename_i p d hl
    obtain ⟨hmap, hd, -⟩ := (VfsState.lookupOpenHandle_some p).mp hl
    obtain ⟨d', hd', hid⟩ := hI.mapped h p hmap
    rw [hd] at hd'
    cases hd'
    split_ifs with hidle
    · have hJ := hI.emit (e := .closed p) (by simp) (by simp)
      exact hJ.free (p := p) hd (by rw [hid]; exact hmap) (idle_iff.mpr hidle)
    · exact hI
    · exact hI
    · have hJ : Inv { s with closedCount := s.closedCount + 1 } F :=
        hI.of_core rfl (fun _ => rfl) rfl rfl rfl (fun _ h => h) fun _ => ⟨Iff.rfl, Iff.rfl⟩
      exact (hJ.touch (p := p) (f := fun d => { d with closed := true }) (fun d => ⟨rfl, rfl, rfl⟩)
        (fun d => ⟨rfl, rfl, rfl⟩) (.inl fun d => rfl)).emit (by simp) (by simp)

theorem CloseExec.inv (hx : CloseExec s c t i s' new) (hI : Inv s (i :: F)) :
    Inv s' (new ++ F) := by
  cases hx with
  | cancelMissing | released | closeMissing | waited | waitMissing => exact hI.drop rfl rfl
  | canceled hl =>
      exact (hI.drop rfl rfl).touch (fun d => ⟨rfl, rfl, rfl⟩) (fun d => ⟨rfl, rfl, rfl⟩)
        (.inl fun d => rfl)
  | reclaimed => exact (hI.drop rfl rfl).reclaim.push rfl rfl (by simp [Instr.teardown])
  | hook =>
      exact ((hI.drop rfl rfl).emit (by simp) (by simp)).push rfl rfl (by simp [Instr.teardown])
  | closeBorrowing hl borrows =>
      exact ((hI.drop rfl rfl).push rfl rfl (by simp [Instr.teardown])).push rfl rfl
        (by simp [Instr.teardown])
  | closed => exact (hI.drop rfl rfl).closeFinish.push rfl rfl (by simp [Instr.teardown])
  | closePlain | waitedOne | waitFound | waitAll =>
      exact (hI.drop rfl rfl).push rfl rfl (by simp [Instr.teardown])

/-! ## Closing a mount -/

/-- What the snapshot of the victims names are the ids of the handles on the mount. -/
theorem mem_victims {id : FlVfsHandle} :
    id ∈ (vfsSnapshotMountVictims s m).map (fun v => v.1) ↔
      ∃ h p d, s.mapGet h = some p ∧ s.pool p = some d ∧ d.mount = m ∧ d.id = id := by
  simp only [vfsSnapshotMountVictims, List.map_map, List.mem_map, List.mem_filter,
    Function.comp_apply, beq_iff_eq]
  constructor
  · rintro ⟨⟨h, p, d⟩, ⟨hmem, hm⟩, rfl⟩
    obtain ⟨hmap, hd⟩ := mem_mapEntries.mp hmem
    exact ⟨h, p, d, hmap, hd, hm, rfl⟩
  · rintro ⟨h, p, d, hmap, hd, hm, rfl⟩
    exact ⟨(h, p, d), ⟨mem_mapEntries.mpr ⟨hmap, hd⟩, hm⟩, rfl⟩

/-- The handles a close is to tear down are those on the mount. -/
theorem Inv.mountSnapshot (hI : Inv s F) :
    Inv { s with closing := m :: s.closing }
      (.mountDrain m ((vfsSnapshotMountVictims s m).map fun v => v.1) :: F) := by
  have hJ : Inv { s with closing := m :: s.closing } F :=
    hI.of_core rfl (fun _ => rfl) rfl rfl rfl (fun _ h => by simp [h]) fun _ => ⟨Iff.rfl, Iff.rfl⟩
  refine hJ.push rfl rfl ?_
  intro m' ids drained ht
  simp only [Instr.teardown, Option.some.injEq, Prod.mk.injEq] at ht
  obtain ⟨rfl, rfl, rfl⟩ := ht
  refine ⟨by simp, fun q e he hid => ?_⟩
  obtain ⟨h, p, d, hmap, hd, hm, hdid⟩ := mem_victims.mp hid
  obtain ⟨d', hd', hid'⟩ := hI.mapped h p hmap
  rw [hd] at hd'
  cases hd'
  have hqp := hI.distinct q p e d he hd hdid.symm
  subst hqp
  have he' : s.pool q = some e := he
  rw [hd] at he'
  cases he'
  refine ⟨hm, ?_, by simp⟩
  rw [hid']
  exact hmap

/-- Victims without outstanding work are idle. -/
theorem Inv.drained {victims : List FlVfsHandle} (hI : Inv s (.mountDrain m victims :: F))
    (hidle : ¬ (victims.map (refreshVictim s)).any (fun r => r.2) = true) :
    Inv s (.mountFree m victims :: F) := by
  obtain ⟨hm, hv⟩ := hI.teardown (.mountDrain m victims) (by simp) m victims false rfl
  refine (hI.drop rfl rfl).push rfl rfl ?_
  intro m' ids drained ht
  simp only [Instr.teardown, Option.some.injEq, Prod.mk.injEq] at ht
  obtain ⟨rfl, rfl, rfl⟩ := ht
  refine ⟨hm, fun p d hd hid => ?_⟩
  obtain ⟨h₁, h₂, -⟩ := hv p d hd hid
  refine ⟨h₁, h₂, fun _ => idle_iff.mpr ?_⟩
  have hl := (VfsState.lookupHandle_some p).mpr ⟨h₂, hd⟩
  have hnot : (refreshVictim s d.id).2 = false := by
    by_contra hne
    exact hidle (List.any_eq_true.mpr ⟨_, List.mem_map_of_mem hid, by simpa using hne⟩)
  simpa [refreshVictim, hl] using hnot

theorem Inv.freeVictims {victims ids : List FlVfsHandle} (hI : Inv s F)
    (hi : Instr.mountFree m ids ∈ F) (hsub : ∀ id ∈ victims, id ∈ ids) :
    Inv (vfsFreeMountVictims s m victims).1 F := by
  induction victims generalizing s with
  | nil => exact hI
  | cons id victims ih =>
      have hsub' : ∀ id ∈ victims, id ∈ ids := fun id' h' => hsub id' (by simp [h'])
      unfold vfsFreeMountVictims
      split
      · exact ih hI hsub'
      · rename_i p d hl
        obtain ⟨hmap, hd⟩ := (VfsState.lookupHandle_some p).mp hl
        obtain ⟨d', hd', hid⟩ := hI.mapped id p hmap
        rw [hd] at hd'
        cases hd'
        obtain ⟨-, hv⟩ := hI.teardown _ hi m ids true rfl
        obtain ⟨-, h₂, h₃⟩ := hv p d hd (hid ▸ hsub id (by simp))
        exact ih (hI.free hd h₂ (h₃ rfl)) hsub'

theorem TeardownExec.inv (hx : TeardownExec s c i s' new) (hI : Inv s (i :: F))
    (hlive : s'.destroyed = false) : Inv s' (new ++ F) := by
  cases hx with
  | @unlisted m lock listed =>
      have hJ : Inv { s with mountList := s.mountList.erase m } F :=
        (hI.drop rfl rfl).of_core rfl (fun _ => rfl) rfl rfl rfl (fun _ h => h) fun _ =>
          ⟨Iff.rfl, Iff.rfl⟩
      exact hJ.push rfl rfl (by simp [Instr.teardown])
  | unknown lock unlisted => exact hI.drop rfl rfl
  | snapshot => exact (hI.drop rfl rfl).mountSnapshot.push rfl rfl (by simp [Instr.teardown])
  | draining outstanding => exact hI.push rfl rfl (by simp [Instr.teardown])
  | drained idle => exact (hI.drained idle).push rfl rfl (by simp [Instr.teardown])
  | freed =>
      have hJ := (hI.freeVictims List.mem_cons_self fun _ h => h).drop rfl rfl
      exact (hJ.push rfl rfl (by simp [Instr.teardown])).push rfl rfl (by simp [Instr.teardown])
  | @destroyed m lock =>
      have hJ : Inv { s with mounts := Function.update s.mounts m none } F :=
        (hI.drop rfl rfl).of_core rfl (fun _ => rfl) rfl rfl rfl (fun _ h => h) fun _ =>
          ⟨Iff.rfl, Iff.rfl⟩
      exact hJ.emit (by simp) (by simp)
  | next listed =>
      exact ((hI.drop rfl rfl).push rfl rfl (by simp [Instr.teardown])).push rfl rfl
        (by simp [Instr.teardown])
  | cleared empty => cases hlive

/-! ## All bodies -/

/-- The body at every program point keeps the invariant, until the VFS is destroyed. -/
theorem Inv.body (hI : Inv s (i :: F)) (hD : i.Disciplined s F)
    (hx : execBody s c t sched i = some (s', new)) (hlive : s'.destroyed = false) :
    Inv s' (new ++ F) := by
  cases execBody_some hx with
  | launch h => exact h.inv hI hD
  | mount h => exact h.inv hI hD
  | dispatch h => exact h.inv hI hD
  | chain h => exact h.inv hI hD
  | close h => exact h.inv hI
  | teardown h => exact h.inv hI hlive

end Bodies

/-! ## Jobs -/

/-- The read callback of a finished read-all body, as the events it causes. -/
def callbackEvents (p : HandlePtr) (d : VfsHandleData) : List Event :=
  if d.opType = .readAll ∧ d.callback then [.callback p] else []

/-- What one step of job `j` does: the phase it enters, what it writes to its handle, and
the events it causes. -/
inductive JobMove (s : VfsState) (j : FlJobHandle) (k : Job) (d : VfsHandleData) :
    JobPhase → (VfsHandleData → VfsHandleData) → List Event → Prop
  | begin (at_ : k.phase = .queued) (dependency : s.jobDone k.dependency = true) :
      JobMove s j k d .started id []
  | cancel (at_ : k.phase = .started) (requested : d.cancelRequested = true) :
      JobMove s j k d .stored (storeCompletion (opFail VFS_ERROR_CANCELED (by decide)))
        (callbackEvents k.target d)
  | find (at_ : k.phase = .started) :
      JobMove s j k d (.fileFound ((s.lookupHandle d.fileHandle).map fun r => r.1))
        (fun d => { d with resultData := none }) []
  | run (r : Completion) (at_ : k.phase = .started) :
      JobMove s j k d (.bodyDone r) id (callbackEvents k.target d)
  | fail (r : Completion) (file : Option HandlePtr) (at_ : k.phase = .fileFound file) :
      JobMove s j k d (.bodyDone r) id []
  | enter (file : HandlePtr) (fd : VfsHandleData) (at_ : k.phase = .fileFound (some file))
      (live : s.pool file = some fd) :
      JobMove s j k d (.inDriver file) id [.driverStart ((k.chained.map fun x => x.1).getD 0) file]
  | leave (r : Completion) (file : HandlePtr) (fd : VfsHandleData) (at_ : k.phase = .inDriver file)
      (live : s.pool file = some fd) :
      JobMove s j k d (.bodyDone r) id [.driverEnd ((k.chained.map fun x => x.1).getD 0) file]
  | store (r : Completion) (at_ : k.phase = .bodyDone r) :
      JobMove s j k d .stored (storeCompletion r) []
  | finish (at_ : k.phase = .stored) : JobMove s j k d .finished id [.jobFinished j]

section JobSteps

variable {s s' : VfsState} {F : List Instr} {j : FlJobHandle} {k : Job} {d : VfsHandleData}
  {phase : JobPhase} {f : VfsHandleData → VfsHandleData} {es : List Event} {input : JobInput}

theorem modify_id (s : VfsState) (p : HandlePtr) : s.modify p id = s := by
  simp [VfsState.modify]

/-- The state after a step of a job. -/
def afterMove (s : VfsState) (j : FlJobHandle) (p : HandlePtr) (phase : JobPhase)
    (f : VfsHandleData → VfsHandleData) (es : List Event) : VfsState :=
  { (s.modify p f).setPhase j phase with trace := es ++ s.trace }

theorem fileOpChecks_ok {op : VfsHandleData} {file : Option (HandlePtr × VfsHandleData)}
    {p : HandlePtr} (h : fileOpChecks op file = .ok p) : ∃ d, file = some (p, d) := by
  unfold fileOpChecks at h
  split at h
  · cases h
  · rename_i q d
    split_ifs at h
    all_goals
      split at h
      · cases h
      · split at h
        · cases h
          exact ⟨d, rfl⟩
        · cases h

theorem jobStep_cases (h : jobStep s j input = some s') :
    ∃ k d phase f es, s.jobs j = some k ∧ s.pool k.target = some d ∧
      JobMove s j k d phase f es ∧ s' = afterMove s j k.target phase f es := by
  unfold jobStep at h
  split at h
  · cases h
  rename_i k hk
  split at h
  · cases h
  rename_i d hd
  have hcall : ∀ s₀ : VfsState, s₀.runCallback k.target d =
      { s₀ with trace := callbackEvents k.target d ++ s₀.trace } := by
    intro s₀
    unfold VfsState.runCallback callbackEvents
    split_ifs
    · rfl
    · rfl
  split at h
  · rename_i hphase
    split_ifs at h with hdep
    cases h
    exact ⟨k, d, _, _, _, hk, hd, .begin hphase hdep, by simp [afterMove, modify_id]; rfl⟩
  · rename_i hphase
    split_ifs at h with hcancel hborrows
    · cases h
      exact ⟨k, d, _, _, _, hk, hd, .cancel hphase hcancel, by rw [hcall]; rfl⟩
    · cases h
      exact ⟨k, d, _, _, _, hk, hd, .find hphase, rfl⟩
    · split at h
      · rename_i r
        cases h
        exact ⟨k, d, _, _, _, hk, hd, .run r hphase, by rw [hcall, afterMove, modify_id]; rfl⟩
      · cases h
  · rename_i file hphase
    split at h
    · cases h
      exact ⟨k, d, _, _, _, hk, hd, .fail _ none hphase, by rw [afterMove, modify_id]; rfl⟩
    · rename_i fp
      split at h
      · cases h
      · rename_i fd hfd
        split at h
        · split_ifs at h
          cases h
          exact ⟨k, d, _, _, _, hk, hd, .fail _ (some fp) hphase, by
            rw [afterMove, modify_id]; rfl⟩
        · rename_i q hq
          obtain ⟨e, he⟩ := fileOpChecks_ok hq
          cases he
          cases h
          exact ⟨k, d, _, _, _, hk, hd, .enter fp fd hphase hfd, by
            rw [afterMove, modify_id]; rfl⟩
  · rename_i fp hphase
    split at h
    · rename_i fd n hfd
      cases h
      exact ⟨k, d, _, _, _, hk, hd, .leave _ fp fd hphase hfd, by rw [afterMove, modify_id]; rfl⟩
    · cases h
  · rename_i r hphase
    cases h
    exact ⟨k, d, _, _, _, hk, hd, .store r hphase, rfl⟩
  · rename_i hphase
    cases h
    exact ⟨k, d, _, _, _, hk, hd, .finish hphase, by rw [afterMove, modify_id]; rfl⟩
  · cases h

theorem JobMove.unfinished (hm : JobMove s j k d phase f es) : k.phase.isFinished = false := by
  cases hm <;> simp_all [JobPhase.isFinished]

/-- A job writes results to its handle and nothing else. -/
theorem JobMove.keeps (hm : JobMove s j k d phase f es) : KeepsIdentity f ∧
    ∀ d, (f d).pendingDispatches = d.pendingDispatches ∧ (f d).jobHandle = d.jobHandle ∧
      (f d).lastJob = d.lastJob := by
  cases hm <;> exact ⟨fun d => ⟨rfl, rfl, rfl⟩, fun d => ⟨rfl, rfl, rfl⟩⟩

theorem mem_callbackEvents {e : Event} {p : HandlePtr} (h : e ∈ callbackEvents p d) :
    e = .callback p := by
  unfold callbackEvents at h
  split_ifs at h
  · simpa using h
  · simp at h

theorem JobMove.neutral (hm : JobMove s j k d phase f es) {e : Event} (he : e ∈ es) :
    (∀ p, e ≠ .prepared p) ∧ ∀ p, e ≠ .dispatched p := by
  cases hm with
  | cancel | run => simp [mem_callbackEvents he]
  | begin | find | fail | store => simp at he
  | enter | leave | finish => simp only [List.mem_singleton] at he; simp [he]

theorem Inv.jobStep (hI : Inv s F) (h : jobStep s j input = some s') : Inv s' F := by
  obtain ⟨k, d, phase, f, es, hk, hd, hm, rfl⟩ := jobStep_cases h
  have hund := hI.target_dispatched hk hd
  have hJ := (hI.touch hm.keeps.1 hm.keeps.2 (.inr hund)).setPhase phase
    (j := j) hk hm.unfinished
  refine hJ.of_core rfl (fun _ => rfl) rfl rfl rfl (fun _ h => h) fun p => ?_
  have hsub : ∀ e, (∀ x ∈ es, x ≠ e) → (e ∈ es ++ s.trace ↔ e ∈ s.trace) := by
    intro e he
    simp only [List.mem_append, or_iff_right_iff_imp]
    exact fun hmem => absurd rfl (he e hmem)
  exact ⟨hsub _ fun x hx => (hm.neutral hx).1 p, hsub _ fun x hx => (hm.neutral hx).2 p⟩

end JobSteps

/-! ## Steps and runs -/

section Runs

variable {s s' : VfsState} {a : Action}

theorem vfsWriteInternal_quiet {h : FlVfsHandle} {data : ℕ} {size : ℤ} {owned : Bool} :
    ∀ x ∈ vfsWriteInternal h data size owned,
      x.owns = none ∧ x.window = none ∧ x.teardown = none := by
  unfold vfsWriteInternal
  split_ifs
  · simp
  · simp [Instr.owns, Instr.window, Instr.teardown]

theorem program_quiet (request : Request) :
    ∀ x ∈ request.program, x.owns = none ∧ x.window = none ∧ x.teardown = none := by
  intro x hx
  cases request with
  | read h size =>
      simp only [Request.program, vfsRead] at hx
      split_ifs at hx <;> simp_all [Instr.owns, Instr.window, Instr.teardown]
  | writeNoCopy h b size => exact vfsWriteInternal_quiet x hx
  | write h size =>
      simp only [Request.program, vfsWrite] at hx
      split_ifs at hx <;> simp_all [Instr.owns, Instr.window, Instr.teardown]
  | close h =>
      simp only [Request.program, vfsClose] at hx
      split_ifs at hx
      · simp at hx
      · simp only [List.mem_cons, List.not_mem_nil, or_false] at hx
        rcases hx with rfl | rfl <;> exact ⟨rfl, rfl, rfl⟩
  | dispatch h | cancel h | wait h =>
      simp only [Request.program] at hx
      split_ifs at hx <;> simp_all [Instr.owns, Instr.window, Instr.teardown]
  | waitAll | destroy =>
      simp only [Request.program, vfsWaitAll, List.mem_cons, List.not_mem_nil, or_false,
        List.cons_append, List.nil_append] at hx
      rcases hx with rfl | rfl | rfl <;> exact ⟨rfl, rfl, rfl⟩
  | mountOpen | listing | openFile | readAll | prepare | update | mountClose =>
      simp only [Request.program, List.mem_singleton] at hx
      subst hx
      exact ⟨rfl, rfl, rfl⟩

theorem emit_disciplined {F : List Instr} {i : Instr} {c : ℕ} (h : i.Disciplined s F) :
    i.Disciplined (s.emit (.lock c)) F := by
  have hund : ∀ p, Undispatched (s.emit (.lock c)).trace p ↔ Undispatched s.trace p := by
    simp [Undispatched]
  cases i with
  | dispatch h' => exact fun r hr => ⟨(hund _).mpr (h r hr).1, (h r hr).2⟩
  | _ => exact h

theorem Instr.Disciplined.mono {F G : List Instr} {i : Instr} (h : i.Disciplined s F)
    (hG : ∀ x ∈ G, x ∈ F) : i.Disciplined s G := by
  cases i with
  | allocOp | prepare => exact h.imp_right fun hid => hid.mono hG
  | mountOpen | chainAlloc => exact FreshId.mono h hG
  | _ => exact h

/-- Once the VFS is destroyed only release hooks run, and waits come to an end. -/
theorem body_outlives {new : List Instr} {c : ℕ} {t : Thread} {sched : Sched} {i : Instr}
    (hout : i.outlivesVfs = true) (hx : execBody s c t sched i = some (s', new)) :
    (s' = s ∧ ((i = .releases [] ∧ new = []) ∨ (i = .waitJobs [] ∧ new = []) ∨
        ∃ j js, i = .waitJobs (j :: js) ∧ new = [.waitJobs js])) ∨
      ∃ p ps, i = .releases (p :: ps) ∧ s' = s.emit (.released c p) ∧ new = [.releases ps] := by
  cases i with
  | releases hooks =>
      cases releases_exec hx with
      | released => exact .inl ⟨rfl, .inl ⟨rfl, rfl⟩⟩
      | hook => exact .inr ⟨_, _, rfl, rfl, rfl⟩
  | waitJobs jobs =>
      cases waitJobs_exec hx with
      | waited => exact .inl ⟨rfl, .inr (.inl ⟨rfl, rfl⟩)⟩
      | waitedOne => exact .inl ⟨rfl, .inr (.inr ⟨_, _, rfl, rfl⟩)⟩
  | _ => cases hout

/-- A step of a call on a destroyed VFS only runs release hooks. -/
theorem step_after_destroy (h : step s a = some s') (hdead : s.destroyed = true) :
    ∃ c t i rest new, s.calls[c]? = some ⟨t, i :: rest⟩ ∧ i.outlivesVfs = true ∧
      (s' = { s with calls := s.calls.set c ⟨t, new ++ rest⟩ } ∨ ∃ p ps, i = .releases (p :: ps) ∧
        new = [.releases ps] ∧
        s' = { s.emit (.released c p) with calls := s.calls.set c ⟨t, new ++ rest⟩ }) := by
  cases a with
  | start t request => simp [step, hdead] at h
  | job j input => simp [step, hdead] at h
  | exec c sched =>
      obtain ⟨t, i, rest, s₁, new, hc, -, hlater, hx, rfl⟩ := step_exec h
      have hout := hlater hdead
      have hunlocked : i.locked = false := by
        cases i with
        | releases | waitJobs => rfl
        | _ => cases hout
      obtain ⟨s₀, s₂, hbody, hlock⟩ := exec_body hx
      rcases hlock with ⟨hl, -⟩ | ⟨-, rfl, rfl⟩
      · rw [hunlocked] at hl
        cases hl
      · refine ⟨c, t, i, rest, new, hc, hout, ?_⟩
        rcases body_outlives hout hbody with ⟨rfl, -⟩ | ⟨p, ps, rfl, rfl, rfl⟩
        · exact .inl rfl
        · exact .inr ⟨p, ps, rfl, rfl, rfl⟩

theorem step_keeps_destroyed (h : step s a = some s') (hlive : s'.destroyed = false) :
    s.destroyed = false := by
  by_contra hne
  have hdead : s.destroyed = true := by simpa using hne
  obtain ⟨c, t, i, rest, new, -, -, rfl | ⟨p, ps, -, -, rfl⟩⟩ := step_after_destroy h hdead
  · exact hne hlive
  · exact hne hlive

/-- The step that destroys the VFS. -/
theorem step_destroys (h : step s a = some s') (hs : s.destroyed = false)
    (hs' : s'.destroyed = true) : ∃ c sched t rest, a = .exec c sched ∧
      s.calls[c]? = some ⟨t, .destroyLoop :: rest⟩ ∧ s.mountList = [] ∧
      s' = { { s with handleMap := ∅, destroyed := true }.emit (.destroyed c) with
        calls := s.calls.set c ⟨t, rest⟩ } := by
  cases a with
  | start t request =>
      simp only [step] at h
      split_ifs at h
      cases h
      rw [hs] at hs'
      cases hs'
  | job j input =>
      simp only [step] at h
      split_ifs at h
      obtain ⟨k, d, phase, f, es, -, -, -, rfl⟩ := jobStep_cases h
      rw [show (afterMove s j k.target phase f es).destroyed = s.destroyed from rfl, hs] at hs'
      cases hs'
  | exec c sched =>
      obtain ⟨t, i, rest, s₁, new, hc, -, -, hx, rfl⟩ := step_exec h
      obtain ⟨s₀, s₂, hbody, hlock⟩ := exec_body hx
      have hcase : s₀.destroyed = s.destroyed ∧ s₁.destroyed = s₂.destroyed := by
        rcases hlock with ⟨-, rfl, rfl⟩ | ⟨-, rfl, rfl⟩ <;> exact ⟨rfl, rfl⟩
      rcases body_destroyed hbody with heq | ⟨rfl, hnil, rfl, rfl⟩
      · rw [show ({ s₁ with calls := s.calls.set c ⟨t, new ++ rest⟩ } : VfsState).destroyed =
          s₁.destroyed from rfl, hcase.2, heq, hcase.1, hs] at hs'
        cases hs'
      · rcases hlock with ⟨hl, -⟩ | ⟨-, rfl, rfl⟩
        · cases hl
        · exact ⟨c, sched, t, rest, rfl, hc, hnil, rfl⟩

/-- The end of `vfs_destroy` and what comes after it leave the pool and the jobs alone. -/
theorem destroyed_core (h : step s a = some s') (hdead : s'.destroyed = true) :
    s'.pool = s.pool ∧ s'.jobs = s.jobs ∧ ∃ es, s'.trace = es ++ s.trace := by
  cases hs : s.destroyed with
  | false =>
      obtain ⟨c, sched, t, rest, -, -, -, rfl⟩ := step_destroys h hs hdead
      exact ⟨rfl, rfl, [_], rfl⟩
  | true =>
      obtain ⟨c, t, i, rest, new, -, -, rfl | ⟨p, ps, -, -, rfl⟩⟩ := step_after_destroy h hs
      · exact ⟨rfl, rfl, [], rfl⟩
      · exact ⟨rfl, rfl, [_], rfl⟩

/-- One disciplined step keeps the invariant, until the VFS is destroyed. -/
theorem Inv.step (hI : Inv s s.frames) (hD : Disciplined s a) (h : step s a = some s')
    (hlive : s'.destroyed = false) : Inv s' s'.frames := by
  cases a with
  | start t request =>
      simp only [FlowiVfs.step] at h
      split_ifs at h with hs
      cases h
      have hJ := hI.pushAll (program_quiet request)
      have hK : Inv { s with calls := s.calls ++ [⟨t, request.program⟩] }
          (request.program ++ s.frames) := hJ.of_core rfl (fun _ => rfl) rfl rfl rfl
        (fun _ h => h) fun _ => ⟨Iff.rfl, Iff.rfl⟩
      refine hK.perm ?_
      simp only [VfsState.frames, List.flatMap_append, List.flatMap_cons, List.flatMap_nil,
        List.append_nil]
      exact List.perm_append_comm
  | job j input =>
      simp only [FlowiVfs.step] at h
      split_ifs at h with hs
      have hcalls : s'.frames = s.frames := by
        obtain ⟨k, d, phase, f, es, -, -, -, rfl⟩ := jobStep_cases h
        rfl
      rw [hcalls]
      exact hI.jobStep h
  | exec c sched =>
      obtain ⟨t, i, rest, s₁, new, hc, -, -, hx, rfl⟩ := step_exec h
      obtain ⟨F, hF, hF'⟩ := flatMap_set_todo new hc
      have hJ : Inv s (i :: F) := hI.perm hF
      have hDi : i.Disciplined s F := by
        refine (hD i (by simp [headInstr, hc])).mono fun x hx => ?_
        exact hF.mem_iff.mpr (List.mem_cons_of_mem i hx)
      obtain ⟨s₀, s₂, hbody, hlock⟩ := exec_body hx
      have hK : Inv s₁ (new ++ F) := by
        rcases hlock with ⟨-, rfl, rfl⟩ | ⟨-, rfl, rfl⟩
        · exact ((hJ.emit (e := .lock c) (by simp) (by simp)).body (emit_disciplined hDi) hbody
            hlive).emit (by simp) (by simp)
        · exact hJ.body hDi hbody hlive
      have hL : Inv { s₁ with calls := s.calls.set c ⟨t, new ++ rest⟩ } (new ++ F) :=
        hK.of_core rfl (fun _ => rfl) rfl rfl rfl (fun _ h => h) fun _ => ⟨Iff.rfl, Iff.rfl⟩
      exact hL.perm hF'.symm

/-- The step rule: a property of the state and of the points of all calls is kept by every step
if the calls' bookkeeping does not matter to it and starts, jobs and bodies keep it. -/
theorem step_rule {P : VfsState → List Instr → Prop} (hI : Inv s s.frames) (hD : Disciplined s a)
    (h : step s a = some s') (hlive : s'.destroyed = false) (hP : P s s.frames)
    (perm : ∀ s F G, P s F → F.Perm G → P s G)
    (calls : ∀ s F cs, P s F → P { s with calls := cs } F)
    (lock : ∀ s F c e, e = .lock c ∨ e = .unlock c → P s F → P (s.emit e) F)
    (start : ∀ t request, a = .start t request → P s (request.program ++ s.frames))
    (job : ∀ j input k d phase g es, a = .job j input → s.jobs j = some k →
      s.pool k.target = some d → JobMove s j k d phase g es →
        P (afterMove s j k.target phase g es) s.frames)
    (body : ∀ c sched t i rest F s₀ s₂ new, a = .exec c sched → s.calls[c]? = some ⟨t, i :: rest⟩ →
      s.frames.Perm (i :: F) → s₀ = s ∨ s₀ = s.emit (.lock c) → P s₀ (i :: F) → Inv s₀ (i :: F) →
      i.Disciplined s₀ F → execBody s₀ c t sched i = some (s₂, new) → s₂.destroyed = false →
        P s₂ (new ++ F)) : P s' s'.frames := by
  cases a with
  | start t request =>
      simp only [step] at h
      split_ifs at h
      cases h
      refine perm _ _ _ (calls s _ _ (start t request rfl)) ?_
      simp only [VfsState.frames, List.flatMap_append, List.flatMap_cons, List.flatMap_nil,
        List.append_nil]
      exact List.perm_append_comm
  | job j input =>
      simp only [step] at h
      split_ifs at h
      obtain ⟨k, d, phase, f, es, hk, hd, hm, rfl⟩ := jobStep_cases h
      exact job j input k d phase f es rfl hk hd hm
  | exec c sched =>
      obtain ⟨t, i, rest, s₁, new, hc, -, -, hx, rfl⟩ := step_exec h
      obtain ⟨F, hF, hF'⟩ := flatMap_set_todo new hc
      have hDi : i.Disciplined s F := (hD i (by simp [headInstr, hc])).mono fun x hx =>
        hF.mem_iff.mpr (List.mem_cons_of_mem i hx)
      obtain ⟨s₀, s₂, hbody, hlock⟩ := exec_body hx
      refine perm _ _ _ (calls s₁ _ _ ?_) hF'.symm
      rcases hlock with ⟨-, rfl, rfl⟩ | ⟨-, rfl, rfl⟩
      · refine lock _ _ c _ (.inr rfl) (body c sched t i rest F _ s₂ new rfl hc hF (.inr rfl)
          (lock _ _ c _ (.inl rfl) (perm _ _ _ hP hF)) ?_ (emit_disciplined hDi) hbody hlive)
        exact (hI.perm hF).emit (by simp) (by simp)
      · exact body c sched t i rest F _ _ new rfl hc hF (.inl rfl) (perm _ _ _ hP hF) (hI.perm hF)
          hDi hbody hlive

theorem inv_init : Inv .init VfsState.init.frames := by
  refine ⟨⟨?_, ?_, ?_, ?_, ?_, ?_, ?_, ?_⟩, ?_, ?_, ?_, ?_, ?_, ?_, ?_, ?_⟩
  all_goals simp [VfsState.init, VfsState.frames, VfsState.mapGet, ownersAt, pendingAt,
    Undispatched]

/-- The invariant holds in every state that disciplined runs reach before the VFS is gone. -/
theorem inv_reaches {ok : VfsState → Action → Prop} (hok : ∀ s a, ok s a → Disciplined s a)
    (h : Reaches step ok .init s) : s.destroyed = false → Inv s s.frames := by
  refine h.invariant (P := fun s => s.destroyed = false → Inv s s.frames) (fun _ => inv_init) ?_
  intro t a u ht hta hstep hlive
  exact (ht (step_keeps_destroyed hstep hlive)).step (hok t a hta) hstep hlive

end Runs

/-! ## Scripts of runs -/

/-- `n` steps of call `c`. -/
def callSteps (c n : ℕ) : List Action := List.replicate n (.exec c .queue)

/-- A queued job that is no read or write runs to its end, its body coming to `r`. -/
def jobRuns (j : FlJobHandle) (r : Completion) : List Action :=
  List.replicate 4 (.job j (.completed r))

/-- An inline read or write, found started, runs to its end. -/
def chainedRuns (j : FlJobHandle) (bytes : ℤ) : List Action := List.replicate 5 (.job j (.bytes bytes))

def completed : Completion := ⟨VFS_STATE_SUCCESS, none, none, none, 0, success_final⟩

/-- What a successful open of a file that can be read and written leaves. -/
def opened (driverFile : ℕ) : Completion :=
  ⟨VFS_STATE_SUCCESS, none, some ⟨true, true, true⟩, some driverFile, 0, success_final⟩

/-- The main thread opens a mount (handle 1) and a file on it (handle 2, data at 1). -/
def openFileScript : List Action :=
  [.start .main .mountOpen] ++ callSteps 0 3 ++ jobRuns 1 completed ++
    [.start .main (.openFile 0)] ++ callSteps 1 3 ++ jobRuns 2 (opened 7)

end FlowiVfs
