import FlowiVfs.HandleFrames

/-!
# The invariant of the handle system

`Inv s F` relates the shared state to the program points `F` that are left of the
calls in progress. A live handle is in the map or owned by exactly one call; its
`pending_dispatches` counts the windows open on it; an unfinished job is recorded
on its handle or carried by a call; and the victims of a mount being torn down
stay on that mount, idle once they have been drained.

The first half states what each elementary change of the state does to `Inv`.
-/
namespace FlowiVfs

/-- The handle was prepared and has not been dispatched. -/
def Undispatched (trace : List Event) (p : HandlePtr) : Prop :=
  Event.prepared p ∈ trace ∧ Event.dispatched p ∉ trace

instance (trace : List Event) (p : HandlePtr) : Decidable (Undispatched trace p) :=
  inferInstanceAs (Decidable (_ ∧ _))

/-- No window is open on the handle and its jobs are over. -/
def Idle (s : VfsState) (d : VfsHandleData) : Prop :=
  d.pendingDispatches = 0 ∧ s.jobDone d.jobHandle = true ∧ s.jobDone d.lastJob = true

def ownersAt (s : VfsState) (p : HandlePtr) : ℕ :=
  match s.pool p with
  | none => 0
  | some d => if s.mapGet d.id = some p then 0 else 1

def pendingAt (s : VfsState) (p : HandlePtr) : ℤ :=
  match s.pool p with
  | none => 0
  | some d => d.pendingDispatches

/-- The handle map, the pool, the job table and the trace fit together. -/
structure Table (s : VfsState) : Prop where
  poolBound : ∀ p d, s.pool p = some d → p < s.nextPtr
  jobBound : ∀ j k, s.jobs j = some k → 0 < j ∧ j < s.nextJob
  jobPos : 0 < s.nextJob
  mapped : ∀ h p, s.mapGet h = some p → ∃ d, s.pool p = some d ∧ d.id = h
  idNonzero : ∀ p d, s.pool p = some d → d.id ≠ FL_VFS_HANDLE_INVALID
  distinct : ∀ p q d e, s.pool p = some d → s.pool q = some e → d.id = e.id → p = q
  traceBound : ∀ p, Event.prepared p ∈ s.trace ∨ Event.dispatched p ∈ s.trace → p < s.nextPtr
  targetBound : ∀ j k, s.jobs j = some k → k.target < s.nextPtr

/-- The id given to a new handle is not in use and no teardown is looking for it. -/
def FreshId (s : VfsState) (F : List Instr) (id : FlVfsHandle) : Prop :=
  id ≠ FL_VFS_HANDLE_INVALID ∧ (∀ q < s.nextPtr, ∀ d ∈ s.pool q, d.id ≠ id) ∧
    ∀ x ∈ F, ∀ v ∈ x.teardown, id ∉ v.2.1

instance (s : VfsState) (F : List Instr) (id : FlVfsHandle) : Decidable (FreshId s F id) :=
  inferInstanceAs (Decidable (_ ∧ _ ∧ _))

structure Inv (s : VfsState) (F : List Instr) : Prop extends Table s where
  owned : ∀ p, owners F p = ownersAt s p
  windows : ∀ p, (openWindows F p : ℤ) = pendingAt s p
  windowMapped : ∀ i ∈ F, ∀ h p, i.window = some (h, p) → s.mapGet h = some p
  running : ∀ j k, s.jobs j = some k → k.phase.isFinished = false →
    ∃ d, s.pool k.target = some d ∧ (d.jobHandle = j ∨ ∃ i ∈ F, i.carries = some (k.target, j))
  unset : ∀ i ∈ F, ∀ p, i.unset = some p → ∀ d, s.pool p = some d →
    d.jobHandle = 0 ∧ d.lastJob = 0 ∧ ¬ Undispatched s.trace p
  dispatching : ∀ i ∈ F, ∀ p, i.dispatches = some p → ∀ d, s.pool p = some d →
    d.pendingDispatches = 1 ∧ d.opType ≠ .fileOpen
  prepared : ∀ p, Undispatched s.trace p → ∀ d, s.pool p = some d →
    d.opType = .readAll ∧ d.pendingDispatches = 0 ∧ d.jobHandle = 0 ∧ d.lastJob = 0 ∧
      d.errorStatus = VFS_STATE_PENDING ∧ ∀ j k, s.jobs j = some k → k.target ≠ p
  teardown : ∀ i ∈ F, ∀ m ids drained, i.teardown = some (m, ids, drained) → m ∈ s.closing ∧
    ∀ p d, s.pool p = some d → d.id ∈ ids →
      d.mount = m ∧ s.mapGet d.id = some p ∧ (drained = true → Idle s d)

section Table

variable {s s' : VfsState}

/-- `Table` reads the handles, the map, the jobs and, of the trace, what was prepared
and dispatched. -/
theorem Table.of_core (hT : Table s) (hpool : s'.pool = s.pool)
    (hmap : ∀ h, s'.mapGet h = s.mapGet h) (hjobs : s'.jobs = s.jobs)
    (hptr : s'.nextPtr = s.nextPtr) (hjob : s'.nextJob = s.nextJob)
    (htrace : ∀ p, (Event.prepared p ∈ s'.trace ↔ Event.prepared p ∈ s.trace) ∧
      (Event.dispatched p ∈ s'.trace ↔ Event.dispatched p ∈ s.trace)) : Table s' where
  poolBound := by rw [hpool, hptr]; exact hT.poolBound
  jobBound := by rw [hjobs, hjob]; exact hT.jobBound
  jobPos := by rw [hjob]; exact hT.jobPos
  mapped := by simp only [hpool, hmap]; exact hT.mapped
  idNonzero := by rw [hpool]; exact hT.idNonzero
  distinct := by rw [hpool]; exact hT.distinct
  traceBound p := by rw [(htrace p).1, (htrace p).2, hptr]; exact hT.traceBound p
  targetBound := by rw [hjobs, hptr]; exact hT.targetBound

end Table

namespace Inv

variable {s s' : VfsState} {F G : List Instr} {i y : Instr} {p q : HandlePtr}
  {d : VfsHandleData} {h : FlVfsHandle} {j : FlJobHandle} {k : Job} {c : ℕ} {t : Thread}

theorem perm (hI : Inv s F) (hp : F.Perm G) : Inv s G where
  toTable := hI.toTable
  owned p := (owners_perm hp).symm.trans (hI.owned p)
  windows p := (openWindows_perm hp) ▸ hI.windows p
  windowMapped i hi := hI.windowMapped i (hp.mem_iff.mpr hi)
  running j k hj hk := by
    obtain ⟨d, hd, hc⟩ := hI.running j k hj hk
    exact ⟨d, hd, hc.imp_right fun ⟨i, hi, he⟩ => ⟨i, hp.mem_iff.mp hi, he⟩⟩
  unset i hi := hI.unset i (hp.mem_iff.mpr hi)
  dispatching i hi := hI.dispatching i (hp.mem_iff.mpr hi)
  prepared := hI.prepared
  teardown i hi := hI.teardown i (hp.mem_iff.mpr hi)

/-- `Inv` reads the handles, the map, the jobs, the closing mounts and, of the trace,
what was prepared and dispatched. -/
theorem of_core (hI : Inv s F) (hpool : s'.pool = s.pool) (hmap : ∀ h, s'.mapGet h = s.mapGet h)
    (hjobs : s'.jobs = s.jobs) (hptr : s'.nextPtr = s.nextPtr) (hjob : s'.nextJob = s.nextJob)
    (hclosing : ∀ m ∈ s.closing, m ∈ s'.closing)
    (htrace : ∀ p, (Event.prepared p ∈ s'.trace ↔ Event.prepared p ∈ s.trace) ∧
      (Event.dispatched p ∈ s'.trace ↔ Event.dispatched p ∈ s.trace)) : Inv s' F := by
  have hu : ∀ p, Undispatched s'.trace p ↔ Undispatched s.trace p := fun p => by
    simp [Undispatched, (htrace p).1, (htrace p).2]
  have hidle : ∀ d, Idle s' d ↔ Idle s d := fun d => by
    simp [Idle, VfsState.jobDone, VfsState.jobFinished, hjobs]
  refine ⟨hI.toTable.of_core hpool hmap hjobs hptr hjob htrace, ?_, ?_, ?_, ?_, ?_, ?_, ?_, ?_⟩
  · intro p
    rw [hI.owned p]
    simp [ownersAt, hpool, hmap]
  · intro p
    rw [hI.windows p]
    simp [pendingAt, hpool]
  · simp only [hmap]; exact hI.windowMapped
  · rw [hpool, hjobs]; exact hI.running
  · simp only [hpool, hu]; exact hI.unset
  · rw [hpool]; exact hI.dispatching
  · simp only [hpool, hu, hjobs]; exact hI.prepared
  · intro i hi m ids drained ht
    obtain ⟨hm, hv⟩ := hI.teardown i hi m ids drained ht
    simp only [hpool, hmap, hidle]
    exact ⟨hclosing m hm, hv⟩

/-! ## Consequences -/

theorem owner_private (hI : Inv s F) (hi : i ∈ F) (ho : i.owns = some p) :
    ∃ d, s.pool p = some d ∧ s.mapGet d.id ≠ some p := by
  have hpos := owners_pos hi ho
  rw [hI.owned p, ownersAt] at hpos
  split at hpos
  · omega
  · rename_i d hd
    exact ⟨d, hd, fun he => by simp [he] at hpos⟩

theorem owner_unique (hI : Inv s (i :: F)) (ho : i.owns = some p) :
    ∀ y ∈ F, y.owns ≠ some p := by
  intro y hi' ho'
  have hpos := owners_pos hi' ho'
  have heq := hI.owned p
  rw [owners_cons, if_pos ho, ownersAt] at heq
  split at heq
  · omega
  · split_ifs at heq
    all_goals omega

theorem window_live (hI : Inv s F) (hi : i ∈ F) (hw : i.window = some (h, p)) :
    ∃ d, s.pool p = some d ∧ d.id = h ∧ s.mapGet h = some p ∧
      1 ≤ d.pendingDispatches := by
  have hmap := hI.windowMapped i hi h p hw
  obtain ⟨d, hd, hid⟩ := hI.mapped h p hmap
  have hpos := openWindows_pos hi hw
  have heq := hI.windows p
  simp only [pendingAt, hd] at heq
  exact ⟨d, hd, hid, hmap, by omega⟩

theorem owner_no_window (hI : Inv s F) (hi : i ∈ F) (ho : i.owns = some p) (hi' : y ∈ F)
    (hw : y.window = some (h, p)) : False := by
  obtain ⟨d, hd, hid, hmap, -⟩ := hI.window_live hi' hw
  obtain ⟨e, he, hne⟩ := hI.owner_private hi ho
  rw [hd] at he
  cases he
  exact hne (hid ▸ hmap)

theorem mapped_not_owned (hI : Inv s F) (hmap : s.mapGet h = some p) (hi : i ∈ F) :
    i.owns ≠ some p := by
  intro ho
  obtain ⟨d, hd, hid⟩ := hI.mapped h p hmap
  obtain ⟨e, he, hne⟩ := hI.owner_private hi ho
  rw [hd] at he
  cases he
  exact hne (hid ▸ hmap)

theorem pending_zero_no_window (hI : Inv s F) (hd : s.pool p = some d)
    (hz : d.pendingDispatches = 0) (hi : i ∈ F) : i.window ≠ some (h, p) := by
  intro hw
  obtain ⟨e, he, -, -, hpos⟩ := hI.window_live hi hw
  rw [hd] at he
  cases he
  omega

/-- Nobody carries a job of a handle that is in the map without an open window. -/
theorem not_carried (hI : Inv s F) (hmap : s.mapGet h = some p)
    (hd : s.pool p = some d) (hz : d.pendingDispatches = 0) (hi : i ∈ F) :
    i.carries ≠ some (p, j) := by
  intro hc
  rcases (Instr.carries_holder hc).2 with ho | hw
  · exact hI.mapped_not_owned hmap hi ho
  · obtain ⟨id, hw⟩ := Instr.dispatches_window hw
    exact hI.pending_zero_no_window hd hz hi hw

/-- An idle handle in the map has no unfinished job. -/
theorem idle_jobs_finished (hI : Inv s F) (hmap : s.mapGet h = some p)
    (hd : s.pool p = some d) (hidle : Idle s d) (hj : s.jobs j = some k) (hk : k.target = p) :
    k.phase.isFinished = true := by
  by_contra hne
  obtain ⟨e, he, hrun⟩ := hI.running j k hj (by simpa using hne)
  rw [hk, hd] at he
  cases he
  rcases hrun with hrun | ⟨i, hi, hc⟩
  · have hdone := hidle.2.1
    rw [hrun] at hdone
    have hj0 := (hI.jobBound j k hj).1
    simp only [VfsState.jobDone, VfsState.jobFinished, hj, Bool.or_eq_true, beq_iff_eq] at hdone
    rcases hdone with hz | hfin
    · exact Nat.ne_of_gt hj0 hz
    · exact hne hfin
  · exact hI.not_carried hmap hd hidle.1 hi (hk ▸ hc)

/-! ## Changes of the frames alone -/

/-- A call goes on with what it holds; a finished job need not be carried on. -/
theorem reframe (hI : Inv s (i :: F)) (howns : y.owns = i.owns) (hwin : y.window = i.window)
    (hdisp : y.dispatches = i.dispatches) (hunset : y.unset = none ∨ y.unset = i.unset)
    (hcarry : ∀ p j, i.carries = some (p, j) →
      y.carries = some (p, j) ∨ s.jobFinished j = true)
    (htear : y.teardown = none ∨ y.teardown = i.teardown) : Inv s (y :: F) where
  toTable := hI.toTable
  owned p := by
    have := hI.owned p
    rw [owners_cons] at this ⊢
    rwa [howns]
  windows p := by
    have := hI.windows p
    rw [openWindows_cons] at this ⊢
    rwa [hwin]
  windowMapped x hx id p hw := by
    rcases List.mem_cons.mp hx with rfl | hx
    · exact hI.windowMapped i (by simp) id p (hwin ▸ hw)
    · exact hI.windowMapped x (by simp [hx]) id p hw
  running j k hj hk := by
    obtain ⟨d, hd, hrun⟩ := hI.running j k hj hk
    refine ⟨d, hd, hrun.imp_right fun ⟨x, hx, hc⟩ => ?_⟩
    rcases List.mem_cons.mp hx with rfl | hx
    · rcases hcarry _ _ hc with hc' | hfin
      · exact ⟨y, by simp, hc'⟩
      · simp [VfsState.jobFinished, hj, hk] at hfin
    · exact ⟨x, by simp [hx], hc⟩
  unset x hx p hu := by
    rcases List.mem_cons.mp hx with rfl | hx
    · rcases hunset with hn | he
      · simp [hn] at hu
      · exact hI.unset i (by simp) p (he ▸ hu)
    · exact hI.unset x (by simp [hx]) p hu
  dispatching x hx p hd := by
    rcases List.mem_cons.mp hx with rfl | hx
    · exact hI.dispatching i (by simp) p (hdisp ▸ hd)
    · exact hI.dispatching x (by simp [hx]) p hd
  prepared := hI.prepared
  teardown x hx m ids drained ht := by
    rcases List.mem_cons.mp hx with rfl | hx
    · rcases htear with hn | he
      · simp [hn] at ht
      · exact hI.teardown i (by simp) m ids drained (he ▸ ht)
    · exact hI.teardown x (by simp [hx]) m ids drained ht

/-- A point that holds nothing may go. -/
theorem drop (hI : Inv s (i :: F)) (howns : i.owns = none) (hwin : i.window = none) : Inv s F where
  toTable := hI.toTable
  owned p := by simpa [owners_cons, howns] using hI.owned p
  windows p := by simpa [openWindows_cons, hwin] using hI.windows p
  windowMapped x hx := hI.windowMapped x (by simp [hx])
  running j k hj hk := by
    obtain ⟨d, hd, hrun⟩ := hI.running j k hj hk
    refine ⟨d, hd, hrun.imp_right fun ⟨x, hx, hc⟩ => ?_⟩
    rcases List.mem_cons.mp hx with rfl | hx
    · rcases (Instr.carries_holder hc).2 with ho | hdisp
      · simp [howns] at ho
      · obtain ⟨id, hw⟩ := Instr.dispatches_window hdisp
        simp [hwin] at hw
    · exact ⟨x, hx, hc⟩
  unset x hx := hI.unset x (by simp [hx])
  dispatching x hx := hI.dispatching x (by simp [hx])
  prepared := hI.prepared
  teardown x hx := hI.teardown x (by simp [hx])

/-- A point that owns nothing and has no window open may come, if what it says of a
teardown is so. -/
theorem push (hI : Inv s F) (howns : i.owns = none) (hwin : i.window = none)
    (htear : ∀ m ids drained, i.teardown = some (m, ids, drained) → m ∈ s.closing ∧
      ∀ p d, s.pool p = some d → d.id ∈ ids →
        d.mount = m ∧ s.mapGet d.id = some p ∧ (drained = true → Idle s d)) :
    Inv s (i :: F) where
  toTable := hI.toTable
  owned p := by simpa [owners_cons, howns] using hI.owned p
  windows p := by simpa [openWindows_cons, hwin] using hI.windows p
  windowMapped x hx id p hw := by
    rcases List.mem_cons.mp hx with rfl | hx
    · simp [hwin] at hw
    · exact hI.windowMapped x hx id p hw
  running j k hj hk := by
    obtain ⟨d, hd, hrun⟩ := hI.running j k hj hk
    exact ⟨d, hd, hrun.imp_right fun ⟨x, hx, hc⟩ => ⟨x, by simp [hx], hc⟩⟩
  unset x hx p hu := by
    rcases List.mem_cons.mp hx with rfl | hx
    · rcases Instr.unset_holder hu with ho | hdisp
      · simp [howns] at ho
      · obtain ⟨id, hw⟩ := Instr.dispatches_window hdisp
        simp [hwin] at hw
    · exact hI.unset x hx p hu
  dispatching x hx p hd := by
    rcases List.mem_cons.mp hx with rfl | hx
    · obtain ⟨id, hw⟩ := Instr.dispatches_window hd
      simp [hwin] at hw
    · exact hI.dispatching x hx p hd
  prepared := hI.prepared
  teardown x hx m ids drained ht := by
    rcases List.mem_cons.mp hx with rfl | hx
    · exact htear m ids drained ht
    · exact hI.teardown x hx m ids drained ht

theorem pushAll (hI : Inv s F) : ∀ {new : List Instr},
    (∀ i ∈ new, i.owns = none ∧ i.window = none ∧ i.teardown = none) → Inv s (new ++ F) := by
  intro new
  induction new with
  | nil => exact fun _ => hI
  | cons i new ih =>
      intro hnew
      obtain ⟨ho, hw, ht⟩ := hnew i (by simp)
      exact (ih fun x hx => hnew x (by simp [hx])).push ho hw (by simp [ht])

end Inv

/-! ## Writing to a handle -/

section Modify

variable {s : VfsState} {F G : List Instr} {i y : Instr} {p q : HandlePtr}
  {d e : VfsHandleData} {f : VfsHandleData → VfsHandleData} {h : FlVfsHandle} {j : FlJobHandle}

theorem modify_some (he : (s.modify p f).pool q = some e) :
    (q = p ∧ ∃ d, s.pool p = some d ∧ e = f d) ∨ (q ≠ p ∧ s.pool q = some e) := by
  rw [VfsState.modify_pool] at he
  split_ifs at he with hq
  · obtain ⟨d, hd, rfl⟩ := Option.map_eq_some_iff.mp he
    exact .inl ⟨hq, d, hd, rfl⟩
  · exact .inr ⟨hq, he⟩

/-- The fields that never change. -/
def KeepsIdentity (f : VfsHandleData → VfsHandleData) : Prop :=
  ∀ d, (f d).id = d.id ∧ (f d).mount = d.mount ∧ (f d).opType = d.opType

theorem modify_origin (hf : KeepsIdentity f) (he : (s.modify p f).pool q = some e) :
    ∃ d, s.pool q = some d ∧ e.id = d.id ∧ e.mount = d.mount ∧ e.opType = d.opType := by
  rcases modify_some he with ⟨rfl, d, hd, rfl⟩ | ⟨-, hd⟩
  · exact ⟨d, hd, hf d⟩
  · exact ⟨e, hd, rfl, rfl, rfl⟩

theorem modify_live (hf : KeepsIdentity f) (hd : s.pool q = some d) :
    ∃ e, (s.modify p f).pool q = some e ∧ e.id = d.id := by
  rw [VfsState.modify_pool]
  split_ifs with hq
  · subst hq
    exact ⟨f d, by simp [hd], (hf d).1⟩
  · exact ⟨d, hd, rfl⟩

theorem Table.modify (hT : Table s) (hf : KeepsIdentity f) : Table (s.modify p f) where
  poolBound q e he := by
    obtain ⟨d, hd, -⟩ := modify_origin hf he
    exact hT.poolBound q d hd
  jobBound := hT.jobBound
  jobPos := hT.jobPos
  mapped h q hq := by
    obtain ⟨d, hd, hid⟩ := hT.mapped h q hq
    obtain ⟨e, he, heq⟩ := modify_live hf hd
    exact ⟨e, he, heq.trans hid⟩
  idNonzero q e he := by
    obtain ⟨d, hd, hid, -⟩ := modify_origin hf he
    exact hid ▸ hT.idNonzero q d hd
  distinct q r e e' he he' heq := by
    obtain ⟨d, hd, hid, -⟩ := modify_origin hf he
    obtain ⟨d', hd', hid', -⟩ := modify_origin hf he'
    exact hT.distinct q r d d' hd hd' (hid ▸ hid' ▸ heq)
  traceBound := hT.traceBound
  targetBound := hT.targetBound

theorem ownersAt_modify (hf : KeepsIdentity f) : ownersAt (s.modify p f) q = ownersAt s q := by
  unfold ownersAt
  rw [VfsState.modify_pool]
  split_ifs with hq
  · subst hq
    cases hp : s.pool q with
    | none => rfl
    | some d => simp [(hf d).1]
  · rfl

theorem pendingAt_modify (hd : s.pool p = some d) (q : HandlePtr) :
    pendingAt (s.modify p f) q = if q = p then (f d).pendingDispatches else pendingAt s q := by
  unfold pendingAt
  rw [VfsState.modify_pool]
  split_ifs with hq
  · rw [hd]
    rfl
  · rfl

/-- Unfinished jobs stay recorded or carried when a handle is written to. -/
theorem Inv.running_modify (hI : Inv s F)
    (hjob : ∀ d j k, s.pool p = some d → s.jobs j = some k → k.target = p →
      k.phase.isFinished = false → (d.jobHandle = j ∨ ∃ x ∈ F, x.carries = some (p, j)) →
        (f d).jobHandle = j ∨ ∃ x ∈ G, x.carries = some (p, j))
    (hcarry : ∀ q j, q ≠ p → (∃ x ∈ F, x.carries = some (q, j)) →
      ∃ x ∈ G, x.carries = some (q, j)) :
    ∀ j k, s.jobs j = some k → k.phase.isFinished = false →
      ∃ e, (s.modify p f).pool k.target = some e ∧
        (e.jobHandle = j ∨ ∃ x ∈ G, x.carries = some (k.target, j)) := by
  intro j k hj hfin
  obtain ⟨d, hd, hrun⟩ := hI.running j k hj hfin
  rw [VfsState.modify_pool]
  split_ifs with hp
  · rw [hp] at hd hrun
    rw [hp, hd]
    exact ⟨f d, rfl, hjob d j k hd hj hp hfin hrun⟩
  · exact ⟨d, hd, hrun.imp_right (hcarry k.target j hp)⟩

/-- The victims of a teardown stay on their mount when a handle is written to. -/
theorem Inv.teardown_modify (hI : Inv s F) (hf : KeepsIdentity f)
    (hG : ∀ x ∈ G, x.teardown = none ∨ x ∈ F)
    (hidle : ∀ d, s.pool p = some d → d.mount ∈ s.closing → s.mapGet d.id = some p →
      Idle s d → Idle s (f d)) :
    ∀ x ∈ G, ∀ m ids drained, x.teardown = some (m, ids, drained) → m ∈ s.closing ∧
      ∀ q e, (s.modify p f).pool q = some e → e.id ∈ ids →
        e.mount = m ∧ s.mapGet e.id = some q ∧ (drained = true → Idle s e) := by
  intro x hx m ids drained ht
  rcases hG x hx with hnone | hx
  · rw [hnone] at ht
    cases ht
  · obtain ⟨hm, hv⟩ := hI.teardown x hx m ids drained ht
    refine ⟨hm, fun q e he hid => ?_⟩
    rcases modify_some he with ⟨rfl, d, hd, rfl⟩ | ⟨-, hd⟩
    · rw [(hf d).1] at hid ⊢
      obtain ⟨hmount, hmap, hdrained⟩ := hv q d hd hid
      exact ⟨(hf d).2.1.trans hmount, hmap, fun done =>
        hidle d hd (hmount ▸ hm) hmap (hdrained done)⟩
    · exact hv q e hd hid

/-- Writing fields that the invariant does not follow. -/
theorem Inv.touch (hI : Inv s F) (hf : KeepsIdentity f)
    (hjobs : ∀ d, (f d).pendingDispatches = d.pendingDispatches ∧
      (f d).jobHandle = d.jobHandle ∧ (f d).lastJob = d.lastJob)
    (hstatus : (∀ d, (f d).errorStatus = d.errorStatus) ∨ ¬ Undispatched s.trace p) :
    Inv (s.modify p f) F where
  toTable := hI.toTable.modify hf
  owned q := (hI.owned q).trans (ownersAt_modify hf).symm
  windows q := by
    rw [hI.windows q]
    unfold pendingAt
    rw [VfsState.modify_pool]
    split_ifs with hq
    · subst hq
      cases hp : s.pool q with
      | none => rfl
      | some d => simp [(hjobs d).1]
    · rfl
  windowMapped := hI.windowMapped
  running := hI.running_modify
    (fun d j k _ _ _ _ hrun => by rw [(hjobs d).2.1]; exact hrun) fun _ _ _ => id
  unset x hx q hu e he := by
    rcases modify_some he with ⟨rfl, d, hd, rfl⟩ | ⟨-, hd⟩
    · rw [(hjobs d).2.1, (hjobs d).2.2]
      exact hI.unset x hx q hu d hd
    · exact hI.unset x hx q hu e hd
  dispatching x hx q hu e he := by
    rcases modify_some he with ⟨rfl, d, hd, rfl⟩ | ⟨-, hd⟩
    · rw [(hjobs d).1, (hf d).2.2]
      exact hI.dispatching x hx q hu d hd
    · exact hI.dispatching x hx q hu e hd
  prepared q hq e he := by
    rcases modify_some he with ⟨rfl, d, hd, rfl⟩ | ⟨-, hd⟩
    · obtain ⟨ho, hp, hj, hl, hs, ht⟩ := hI.prepared q hq d hd
      obtain ⟨hp', hj', hl'⟩ := hjobs d
      refine ⟨(hf d).2.2.trans ho, hp'.trans hp, hj'.trans hj, hl'.trans hl, ?_, ht⟩
      rcases hstatus with hs' | hn
      · exact (hs' d).trans hs
      · exact absurd hq hn
    · exact hI.prepared q hq e hd
  teardown := hI.teardown_modify hf (fun _ => .inr) fun d _ _ _ hidle => by
    obtain ⟨hpending, hjob, hlast⟩ := hjobs d
    exact ⟨hpending.trans hidle.1, hjob ▸ hidle.2.1, hlast ▸ hidle.2.2⟩

/-- The owner of a handle records its job on it, and gives it up or goes on to publish. -/
theorem Inv.record (hI : Inv s (i :: F)) (howns : i.owns = some p) (hcarry : i.carries = some (p, j))
    {r : FlJobHandle} (hr : r = j ∨ s.jobFinished j = true)
    (howns' : y.owns = some p) (hwin : y.window = i.window) (hdisp : y.dispatches = none)
    (hunset : y.unset = none) (htear : y.teardown = none) :
    Inv (s.modify p (setJobs r)) (y :: F) := by
  have hf : KeepsIdentity (setJobs r) := fun d => ⟨rfl, rfl, rfl⟩
  obtain ⟨d₀, hd₀, hprivate⟩ := hI.owner_private (by simp) howns
  have hunset₀ := hI.unset i (by simp) p (Instr.carries_holder hcarry).1 d₀ hd₀
  have huniq := hI.owner_unique howns
  have hnowin : ∀ x ∈ i :: F, ∀ id, x.window ≠ some (id, p) := fun x hx id hw =>
    hI.owner_no_window (by simp) howns hx hw
  refine ⟨hI.toTable.modify hf, ?_, ?_, ?_, ?_, ?_, ?_, ?_, ?_⟩
  · intro q
    have := hI.owned q
    rw [owners_cons, howns] at this
    rw [owners_cons, howns', ownersAt_modify hf, this]
  · intro q
    have := hI.windows q
    rw [openWindows_cons] at this
    rw [openWindows_cons, hwin, this, pendingAt_modify hd₀]
    split_ifs with hq
    · rw [hq, pendingAt, hd₀]
      rfl
    · rfl
  · intro x hx id q hw
    rcases List.mem_cons.mp hx with rfl | hx
    · exact hI.windowMapped i (by simp) id q (hwin ▸ hw)
    · exact hI.windowMapped x (by simp [hx]) id q hw
  · refine hI.running_modify (fun d j' k hd hj _ hfin hrun => .inl ?_) fun q j' hq ⟨x, hx, hc⟩ => ?_
    · rw [hd₀] at hd
      cases hd
      rcases hrun with hrun | ⟨x, hx, hc⟩
      · exact absurd (hunset₀.1.symm.trans hrun) (Nat.ne_of_lt (hI.jobBound j' k hj).1)
      · rcases List.mem_cons.mp hx with rfl | hx
        · rw [hcarry] at hc
          cases hc
          rcases hr with rfl | hdone
          · rfl
          · rw [VfsState.jobFinished_of hj, hfin] at hdone
            cases hdone
        · rcases (Instr.carries_holder hc).2 with ho | hdis
          · exact absurd ho (huniq x hx)
          · obtain ⟨id, hw⟩ := Instr.dispatches_window hdis
            exact absurd hw (hnowin x (by simp [hx]) id)
    · rcases List.mem_cons.mp hx with rfl | hx
      · rw [hcarry] at hc
        cases hc
        exact absurd rfl hq
      · exact ⟨x, by simp [hx], hc⟩
  · intro x hx q hu e he
    rcases List.mem_cons.mp hx with rfl | hx
    · simp [hunset] at hu
    · have hq : q ≠ p := by
        rintro rfl
        rcases Instr.unset_holder hu with ho | hdis
        · exact huniq x hx ho
        · obtain ⟨id, hw⟩ := Instr.dispatches_window hdis
          exact hnowin x (by simp [hx]) id hw
      rcases modify_some he with ⟨rfl, -⟩ | ⟨-, hd⟩
      · exact absurd rfl hq
      · exact hI.unset x (by simp [hx]) q hu e hd
  · intro x hx q hu e he
    rcases List.mem_cons.mp hx with rfl | hx
    · simp [hdisp] at hu
    · rcases modify_some he with ⟨rfl, d, hd, rfl⟩ | ⟨-, hd⟩
      · exact hI.dispatching x (by simp [hx]) q hu d hd
      · exact hI.dispatching x (by simp [hx]) q hu e hd
  · intro q hq e he
    rcases modify_some he with ⟨rfl, d, hd, rfl⟩ | ⟨-, hd⟩
    · exact absurd hq hunset₀.2.2
    · exact hI.prepared q hq e hd
  · refine hI.teardown_modify hf (fun x hx => ?_) fun d hd _ hmap _ => ?_
    · rcases List.mem_cons.mp hx with rfl | hx
      · exact .inl htear
      · exact .inr (List.mem_cons_of_mem i hx)
    · rw [hd₀] at hd
      cases hd
      exact absurd hmap hprivate

end Modify

/-! ## Scheduling windows -/

section Windows

variable {s : VfsState} {F : List Instr} {i y : Instr} {p q : HandlePtr}
  {d : VfsHandleData} {f : VfsHandleData → VfsHandleData} {h : FlVfsHandle}

/-- At most one window is open on a handle being dispatched. -/
theorem Inv.dispatch_alone (hI : Inv s (i :: F)) (hwin : i.window = some (h, p)) {x : Instr}
    (hx : x ∈ F) : x.dispatches ≠ some p := by
  intro hdis
  obtain ⟨id, hw⟩ := Instr.dispatches_window hdis
  obtain ⟨d, hd, -⟩ := hI.window_live (by simp) hwin
  have hone := (hI.dispatching x (by simp [hx]) p hdis d hd).1
  have hpos := openWindows_pos hx hw
  have heq := hI.windows p
  simp only [openWindows_cons, hwin, Option.map_some, if_true, pendingAt, hd, hone] at heq
  omega

theorem Inv.window_no_unset (hI : Inv s (i :: F)) (hwin : i.window = some (h, p)) {x : Instr}
    (hx : x ∈ F) : x.unset ≠ some p := by
  intro hu
  rcases Instr.unset_holder hu with ho | hdis
  · exact hI.owner_no_window (by simp [hx]) ho (by simp) hwin
  · exact hI.dispatch_alone hwin hx hdis

theorem Inv.window_not_undispatched (hI : Inv s F) (hi : i ∈ F) (hwin : i.window = some (h, p)) :
    ¬ Undispatched s.trace p := by
  intro hu
  obtain ⟨d, hd, -, -, hpos⟩ := hI.window_live hi hwin
  have := (hI.prepared p hu d hd).2.1
  omega

/-- A call opens a window on a handle in the map. -/
theorem Inv.raise (hI : Inv s F) (hmap : s.mapGet h = some p) (hd : s.pool p = some d)
    (hmount : d.mount ∉ s.closing) (hund : ¬ Undispatched s.trace p)
    (hf : KeepsIdentity f) (hjobs : ∀ d, (f d).pendingDispatches = d.pendingDispatches + 1 ∧
      (f d).jobHandle = d.jobHandle ∧ (f d).lastJob = d.lastJob)
    (howns : i.owns = none) (hwin : i.window = some (h, p)) (htear : i.teardown = none)
    (hothers : ∀ x ∈ F, x.dispatches ≠ some p)
    (hunset : ∀ q, i.unset = some q → d.jobHandle = 0 ∧ d.lastJob = 0)
    (hdisp : ∀ q, i.dispatches = some q → d.pendingDispatches = 0 ∧ d.opType ≠ .fileOpen) :
    Inv (s.modify p f) (i :: F) := by
  have hfresh : ∀ x ∈ F, x.unset ≠ some p := by
    intro x hx hu
    rcases Instr.unset_holder hu with ho | hdis
    · exact hI.mapped_not_owned hmap hx ho
    · exact hothers x hx hdis
  have hwinOf : ∀ q, i.dispatches = some q → q = p := by
    intro q hq
    obtain ⟨id, hw⟩ := Instr.dispatches_window hq
    rw [hwin] at hw
    cases hw
    rfl
  refine ⟨hI.toTable.modify hf, ?_, ?_, ?_, ?_, ?_, ?_, ?_, ?_⟩
  · intro q
    rw [owners_cons, howns, ownersAt_modify hf]
    simpa using hI.owned q
  · intro q
    have := hI.windows q
    rw [openWindows_cons, hwin, pendingAt_modify hd]
    by_cases hq : q = p
    · rw [hq, pendingAt, hd] at this
      simp [hq, (hjobs d).1, this]
    · rw [if_neg hq, Option.map_some, if_neg (by simpa using Ne.symm hq), Nat.add_zero]
      exact this
  · intro x hx id q hw
    rcases List.mem_cons.mp hx with rfl | hx
    · rw [hwin] at hw
      cases hw
      exact hmap
    · exact hI.windowMapped x hx id q hw
  · have later : ∀ q j, (∃ x ∈ F, x.carries = some (q, j)) →
        ∃ x ∈ i :: F, x.carries = some (q, j) :=
      fun q j ⟨x, hx, hc⟩ => ⟨x, List.mem_cons_of_mem i hx, hc⟩
    refine hI.running_modify (fun e j k _ _ _ _ hrun => ?_) fun q j _ => later q j
    rw [(hjobs e).2.1]
    exact hrun.imp_right (later p j)
  · intro x hx q hu e he
    rcases List.mem_cons.mp hx with rfl | hx
    · have hq : q = p := by
        rcases Instr.unset_holder hu with ho | hdis
        · simp [howns] at ho
        · exact hwinOf q hdis
      subst hq
      rcases modify_some he with ⟨-, e, he', rfl⟩ | ⟨hne, -⟩
      · rw [hd] at he'
        cases he'
        rw [(hjobs d).2.1, (hjobs d).2.2]
        exact ⟨(hunset q hu).1, (hunset q hu).2, hund⟩
      · exact absurd rfl hne
    · rcases modify_some he with ⟨rfl, -⟩ | ⟨-, he⟩
      · exact absurd hu (hfresh x hx)
      · exact hI.unset x hx q hu e he
  · intro x hx q hq e he
    rcases List.mem_cons.mp hx with rfl | hx
    · have := hwinOf q hq
      subst this
      rcases modify_some he with ⟨-, e, he', rfl⟩ | ⟨hne, -⟩
      · rw [hd] at he'
        cases he'
        rw [(hjobs d).1, (hf d).2.2, (hdisp q hq).1]
        exact ⟨by simp, (hdisp q hq).2⟩
      · exact absurd rfl hne
    · rcases modify_some he with ⟨rfl, -⟩ | ⟨-, he⟩
      · exact absurd hq (hothers x hx)
      · exact hI.dispatching x hx q hq e he
  · intro q hq e he
    rcases modify_some he with ⟨rfl, -⟩ | ⟨-, he⟩
    · exact absurd hq hund
    · exact hI.prepared q hq e he
  · refine hI.teardown_modify hf (fun x hx => ?_) fun e he hclosing _ _ => ?_
    · rcases List.mem_cons.mp hx with rfl | hx
      · exact .inl htear
      · exact .inr hx
    · rw [hd] at he
      cases he
      exact absurd hclosing hmount

/-- A call closes its window and records what it carries. -/
theorem Inv.lower (hI : Inv s (i :: F)) (hwin : i.window = some (h, p)) (hf : KeepsIdentity f)
    (hpend : ∀ d, (f d).pendingDispatches = d.pendingDispatches - 1)
    (hrec : (i.carries = none ∧ ∀ d, (f d).jobHandle = d.jobHandle) ∨
      ∃ j, i.carries = some (p, j) ∧ ∀ d, (f d).jobHandle = j)
    (howns : y.owns = i.owns) (hwin' : y.window = none) (hunset : y.unset = none)
    (htear : y.teardown = none) : Inv (s.modify p f) (y :: F) := by
  obtain ⟨d₀, hd₀, hid₀, hmap, hpos⟩ := hI.window_live (by simp) hwin
  have hnodisp : ∀ q, y.dispatches ≠ some q := by
    intro q hq
    obtain ⟨id, hw⟩ := Instr.dispatches_window hq
    simp [hwin'] at hw
  refine ⟨hI.toTable.modify hf, ?_, ?_, ?_, ?_, ?_, ?_, ?_, ?_⟩
  · intro q
    have := hI.owned q
    rw [owners_cons] at this
    rw [owners_cons, howns, ownersAt_modify hf, this]
  · intro q
    have := hI.windows q
    rw [openWindows_cons, hwin] at this
    rw [openWindows_cons, hwin', pendingAt_modify hd₀]
    by_cases hq : q = p
    · subst hq
      simp only [pendingAt, hd₀, Option.map_some, if_true] at this
      simp only [if_true, hpend, Option.map_none, reduceCtorEq, if_false]
      omega
    · rw [if_neg hq]
      simpa [Ne.symm hq] using this
  · intro x hx id q hw
    rcases List.mem_cons.mp hx with rfl | hx
    · simp [hwin'] at hw
    · exact hI.windowMapped x (by simp [hx]) id q hw
  · refine hI.running_modify (fun e j k he hj _ _ hrun => ?_) fun q j hq ⟨x, hx, hc⟩ => ?_
    · rw [hd₀] at he
      cases he
      rcases hrun with hrun | ⟨x, hx, hc⟩
      · rcases hrec with ⟨-, hsame⟩ | ⟨j', hc, hj'⟩
        · exact .inl ((hsame d₀).trans hrun)
        · have hz := (hI.unset i (by simp) p (Instr.carries_holder hc).1 d₀ hd₀).1
          exact absurd (hz.symm.trans hrun) (Nat.ne_of_lt (hI.jobBound j k hj).1)
      · rcases List.mem_cons.mp hx with rfl | hx
        · rcases hrec with ⟨hn, -⟩ | ⟨j', hc', hj'⟩
          · simp [hn] at hc
          · rw [hc'] at hc
            cases hc
            exact .inl (hj' d₀)
        · exact absurd (Instr.carries_holder hc).1 (hI.window_no_unset hwin hx)
    · rcases List.mem_cons.mp hx with rfl | hx
      · rcases hrec with ⟨hn, -⟩ | ⟨j', hc', -⟩
        · simp [hn] at hc
        · rw [hc'] at hc
          cases hc
          exact absurd rfl hq
      · exact ⟨x, by simp [hx], hc⟩
  · intro x hx q hu e he
    rcases List.mem_cons.mp hx with rfl | hx
    · simp [hunset] at hu
    · rcases modify_some he with ⟨rfl, -⟩ | ⟨-, he⟩
      · exact absurd hu (hI.window_no_unset hwin hx)
      · exact hI.unset x (by simp [hx]) q hu e he
  · intro x hx q hq e he
    rcases List.mem_cons.mp hx with rfl | hx
    · exact absurd hq (hnodisp q)
    · rcases modify_some he with ⟨rfl, -⟩ | ⟨-, he⟩
      · exact absurd hq (hI.dispatch_alone hwin hx)
      · exact hI.dispatching x (by simp [hx]) q hq e he
  · intro q hq e he
    rcases modify_some he with ⟨rfl, -⟩ | ⟨-, he⟩
    · exact absurd hq (hI.window_not_undispatched (by simp) hwin)
    · exact hI.prepared q hq e he
  · refine hI.teardown_modify hf (fun x hx => ?_) fun e he _ _ hidle => ?_
    · rcases List.mem_cons.mp hx with rfl | hx
      · exact .inl htear
      · exact .inr (List.mem_cons_of_mem i hx)
    · rw [hd₀] at he
      cases he
      have := hidle.1
      omega

end Windows

/-! ## Birth and publication -/

section Birth

variable {s s' : VfsState} {F : List Instr} {i y : Instr} {p q : HandlePtr}
  {d : VfsHandleData} {params : VfsOpParams}

theorem allocateHandle_some (halloc : allocateHandle s params = some (p, s')) :
    p = s.nextPtr ∧
      (params.reuseHandle = FL_VFS_HANDLE_INVALID ∨ s.mapGet params.reuseHandle = none) ∧
      s'.pool = Function.update s.pool s.nextPtr
        (some (newHandleData (s.idFor params.reuseHandle) params)) ∧
      s'.nextPtr = s.nextPtr + 1 ∧ s'.handleMap = s.handleMap ∧ s'.jobs = s.jobs ∧
      s'.nextJob = s.nextJob ∧ s'.closing = s.closing ∧ s'.trace = s.trace ∧
      s'.calls = s.calls ∧ s'.destroyed = s.destroyed ∧ s'.mounts = s.mounts ∧
      s'.mountList = s.mountList := by
  unfold allocateHandle at halloc
  by_cases hr : params.reuseHandle ≠ FL_VFS_HANDLE_INVALID ∧
    (s.mapGet params.reuseHandle).isSome = true
  · simp [hr] at halloc
  rw [if_neg hr] at halloc
  simp only [Option.some.injEq, Prod.mk.injEq] at halloc
  obtain ⟨rfl, rfl⟩ := halloc
  refine ⟨rfl, ?_, rfl, rfl, rfl, rfl, rfl, rfl, rfl, rfl, rfl, rfl, rfl⟩
  by_cases h0 : params.reuseHandle = FL_VFS_HANDLE_INVALID
  · exact .inl h0
  · exact .inr (by simpa [h0] using hr)

theorem Table.nextPtr_none (hT : Table s) : s.pool s.nextPtr = none := by
  by_contra hne
  obtain ⟨d, hd⟩ := Option.ne_none_iff_exists'.mp hne
  exact Nat.lt_irrefl _ (hT.poolBound _ d hd)

/-- The handles after an allocation. -/
theorem allocateHandle_back {e : VfsHandleData} (halloc : allocateHandle s params = some (p, s'))
    (he : s'.pool q = some e) :
    (q = s.nextPtr ∧ e = newHandleData (s.idFor params.reuseHandle) params) ∨
      (q ≠ s.nextPtr ∧ s.pool q = some e) := by
  obtain ⟨-, -, hpool, -⟩ := allocateHandle_some halloc
  rw [hpool, Function.update_apply] at he
  split_ifs at he with hq
  · exact .inl ⟨hq, (Option.some.inj he).symm⟩
  · exact .inr ⟨hq, he⟩

theorem allocateHandle_kept (halloc : allocateHandle s params = some (p, s'))
    (hnone : s.pool s.nextPtr = none) (hd : s.pool q = some d) : s'.pool q = some d := by
  obtain ⟨-, -, hpool, -⟩ := allocateHandle_some halloc
  rw [hpool, Function.update_apply, if_neg, hd]
  rintro rfl
  rw [hnone] at hd
  cases hd

theorem Table.alloc (hT : Table s) (halloc : allocateHandle s params = some (p, s'))
    (hnonzero : s.idFor params.reuseHandle ≠ FL_VFS_HANDLE_INVALID)
    (hunused : ∀ q d, s.pool q = some d → d.id ≠ s.idFor params.reuseHandle) : Table s' := by
  have hback : ∀ q e, s'.pool q = some e →
      (q = s.nextPtr ∧ e = newHandleData (s.idFor params.reuseHandle) params) ∨
        (q ≠ s.nextPtr ∧ s.pool q = some e) := fun q e => allocateHandle_back halloc
  obtain ⟨-, -, -, hptr, hmap, hjobs, hjob, -, htrace, -⟩ := allocateHandle_some halloc
  constructor
  case poolBound =>
    intro q e he
    rw [hptr]
    rcases hback q e he with ⟨rfl, -⟩ | ⟨-, he⟩
    · exact Nat.lt_succ_self _
    · exact Nat.lt_succ_of_lt (hT.poolBound q e he)
  case jobBound =>
    rw [hjobs, hjob]
    exact hT.jobBound
  case jobPos =>
    rw [hjob]
    exact hT.jobPos
  case mapped =>
    intro h q hq
    rw [VfsState.mapGet_congr hmap] at hq
    obtain ⟨d, hd, hid⟩ := hT.mapped h q hq
    exact ⟨d, allocateHandle_kept halloc hT.nextPtr_none hd, hid⟩
  case idNonzero =>
    intro q e he
    rcases hback q e he with ⟨-, rfl⟩ | ⟨-, he⟩
    · exact hnonzero
    · exact hT.idNonzero q e he
  case distinct =>
    intro q r e e' he he' heq
    rcases hback q e he with ⟨rfl, rfl⟩ | ⟨-, he⟩
    · rcases hback r e' he' with ⟨rfl, -⟩ | ⟨-, he'⟩
      · rfl
      · exact absurd heq.symm (hunused r e' he')
    · rcases hback r e' he' with ⟨rfl, rfl⟩ | ⟨-, he'⟩
      · exact absurd heq (hunused q e he)
      · exact hT.distinct q r e e' he he' heq
  case traceBound =>
    intro q hq
    rw [htrace] at hq
    rw [hptr]
    exact Nat.lt_succ_of_lt (hT.traceBound q hq)
  case targetBound =>
    intro j k hj
    rw [hjobs] at hj
    rw [hptr]
    exact Nat.lt_succ_of_lt (hT.targetBound j k hj)

/-- The new handle is private. -/
theorem ownersAt_alloc (halloc : allocateHandle s params = some (p, s'))
    (hnone : s.pool s.nextPtr = none)
    (hunmapped : s.mapGet (s.idFor params.reuseHandle) ≠ some s.nextPtr) (q : HandlePtr) :
    ownersAt s' q = ownersAt s q + if some s.nextPtr = some q then 1 else 0 := by
  obtain ⟨-, -, hpool, -, hmap, -⟩ := allocateHandle_some halloc
  have hget : ∀ h, s'.mapGet h = s.mapGet h := fun h => VfsState.mapGet_congr hmap
  unfold ownersAt
  by_cases hq : q = s.nextPtr
  · subst hq
    rw [hpool, Function.update_self, hnone]
    simp [hget, newHandleData, hunmapped]
  · rw [hpool, Function.update_of_ne hq, if_neg (by simpa using Ne.symm hq)]
    simp only [hget, Nat.add_zero]

theorem pendingAt_alloc (halloc : allocateHandle s params = some (p, s'))
    (hnone : s.pool s.nextPtr = none) (q : HandlePtr) : pendingAt s' q = pendingAt s q := by
  obtain ⟨-, -, hpool, -⟩ := allocateHandle_some halloc
  unfold pendingAt
  by_cases hq : q = s.nextPtr
  · rw [hq, hpool, Function.update_self, hnone]
    rfl
  · rw [hpool, Function.update_of_ne hq]

/-- A handle is born, private to the call that allocated it. -/
theorem Inv.alloc (hI : Inv s (i :: F)) (halloc : allocateHandle s params = some (p, s'))
    (hid : FreshId s F (s.idFor params.reuseHandle))
    (howns : i.owns = none) (hcarry : i.carries = none) (hdisp : i.dispatches = none)
    (howns' : y.owns = some p) (hwin' : y.window = i.window) (hdisp' : y.dispatches = none)
    (htear' : y.teardown = none) : Inv s' (y :: F) := by
  obtain ⟨hnonzero, hunused, hunsought⟩ := hid
  replace hunused : ∀ q d, s.pool q = some d → d.id ≠ s.idFor params.reuseHandle :=
    fun q d hd => hunused q (hI.poolBound q d hd) d hd
  have hnone := hI.toTable.nextPtr_none
  have hback : ∀ q e, s'.pool q = some e →
      (q = s.nextPtr ∧ e = newHandleData (s.idFor params.reuseHandle) params) ∨
        (q ≠ s.nextPtr ∧ s.pool q = some e) := fun q e => allocateHandle_back halloc
  obtain ⟨rfl, -, -, -, hmap, hjobs, -, hclosing, htrace, -⟩ := allocateHandle_some halloc
  have hget : ∀ h, s'.mapGet h = s.mapGet h := fun h => VfsState.mapGet_congr hmap
  have hund : ¬ Undispatched s'.trace s.nextPtr := by
    rw [htrace]
    exact fun hu => Nat.lt_irrefl _ (hI.traceBound _ (.inl hu.1))
  have hunmapped : s.mapGet (s.idFor params.reuseHandle) ≠ some s.nextPtr := by
    intro hm
    obtain ⟨d, hd, -⟩ := hI.mapped _ _ hm
    rw [hnone] at hd
    cases hd
  have hdone : ∀ d, Idle s' d ↔ Idle s d := fun d => by
    simp [Idle, VfsState.jobDone_congr hjobs]
  refine ⟨hI.toTable.alloc halloc hnonzero hunused, fun q => ?_, fun q => ?_, ?_, ?_, ?_, ?_, ?_,
    ?_⟩
  · have howned := hI.owned q
    rw [owners_cons, howns] at howned
    rw [owners_cons, howns', ownersAt_alloc halloc hnone hunmapped, ← howned]
    simp
  · rw [pendingAt_alloc halloc hnone, ← hI.windows q, openWindows_cons, openWindows_cons, hwin']
  · intro x hx id q hw
    rw [hget]
    rcases List.mem_cons.mp hx with rfl | hx
    · exact hI.windowMapped i (by simp) id q (hwin' ▸ hw)
    · exact hI.windowMapped x (by simp [hx]) id q hw
  · intro j k hj hk
    rw [hjobs] at hj
    obtain ⟨d, hd, hrun⟩ := hI.running j k hj hk
    refine ⟨d, allocateHandle_kept halloc hnone hd, hrun.imp_right fun ⟨x, hx, hc⟩ => ?_⟩
    rcases List.mem_cons.mp hx with rfl | hx
    · simp [hcarry] at hc
    · exact ⟨x, by simp [hx], hc⟩
  · intro x hx q hu e he
    rcases hback q e he with ⟨rfl, rfl⟩ | ⟨hne, he⟩
    · exact ⟨rfl, rfl, hund⟩
    · rcases List.mem_cons.mp hx with rfl | hx
      · rcases Instr.unset_holder hu with ho | hd
        · rw [howns'] at ho
          cases ho
          exact absurd rfl hne
        · simp [hdisp'] at hd
      · rw [htrace]
        exact hI.unset x (by simp [hx]) q hu e he
  · intro x hx q hq e he
    rcases List.mem_cons.mp hx with rfl | hx
    · simp [hdisp'] at hq
    · rcases hback q e he with ⟨rfl, -⟩ | ⟨-, he⟩
      · obtain ⟨id, hw⟩ := Instr.dispatches_window hq
        obtain ⟨d, hd, -⟩ := hI.window_live (by simp [hx]) hw
        rw [hnone] at hd
        cases hd
      · exact hI.dispatching x (by simp [hx]) q hq e he
  · intro q hq e he
    rcases hback q e he with ⟨rfl, -⟩ | ⟨-, he⟩
    · exact absurd hq hund
    · rw [htrace] at hq
      rw [hjobs]
      exact hI.prepared q hq e he
  · intro x hx m ids drained ht
    rcases List.mem_cons.mp hx with rfl | hx
    · simp [htear'] at ht
    · obtain ⟨hm, hv⟩ := hI.teardown x (by simp [hx]) m ids drained ht
      rw [hclosing]
      refine ⟨hm, fun q e he heid => ?_⟩
      rcases hback q e he with ⟨-, rfl⟩ | ⟨-, he⟩
      · exact absurd heid (hunsought x hx _ ht)
      · simp only [hget, hdone]
        exact hv q e he heid

/-- `vfs_mount_read_all_prepare` goes on to publish without scheduling. -/
theorem Inv.announce (hI : Inv s (.publish p :: F)) (hd : s.pool p = some d)
    (hborn : d = newHandleData d.id params) (hop : params.opType = .readAll)
    (hnojob : ∀ j k, s.jobs j = some k → k.target ≠ p) :
    Inv (s.emit (.prepared p)) (.publish p :: F) := by
  have hsame : ∀ q, q ≠ p →
      (Undispatched (s.emit (.prepared p)).trace q ↔ Undispatched s.trace q) := by
    intro q hq
    simp [Undispatched, hq]
  have hidle : ∀ d, Idle (s.emit (.prepared p)) d ↔ Idle s d := fun _ => Iff.rfl
  have hnowin := fun x (hx : x ∈ Instr.publish p :: F) id =>
    fun hw => hI.owner_no_window (i := .publish p) (p := p) (h := id) (by simp) rfl hx hw
  refine ⟨⟨hI.poolBound, hI.jobBound, hI.jobPos, hI.mapped, hI.idNonzero, hI.distinct, ?_,
    hI.targetBound⟩, hI.owned, hI.windows, hI.windowMapped, hI.running, ?_, hI.dispatching, ?_,
    hI.teardown⟩
  · intro q hq
    simp only [VfsState.emit_trace, List.mem_cons, Event.prepared.injEq, reduceCtorEq,
      false_or] at hq
    rcases hq with (rfl | hq) | hq
    · exact hI.poolBound q d hd
    · exact hI.traceBound q (.inl hq)
    · exact hI.traceBound q (.inr hq)
  · intro x hx q hu e he
    have hne : q ≠ p := by
      rintro rfl
      rcases Instr.unset_holder hu with ho | hdis
      · rcases List.mem_cons.mp hx with rfl | hx
        · simp [Instr.unset] at hu
        · exact hI.owner_unique rfl x hx ho
      · obtain ⟨id, hw⟩ := Instr.dispatches_window hdis
        exact hnowin x hx id hw
    rw [hsame q hne]
    exact hI.unset x hx q hu e he
  · intro q hq e he
    by_cases hqp : q = p
    · subst hqp
      have he' : s.pool q = some e := he
      rw [hd] at he'
      cases he'
      rw [hborn]
      exact ⟨hop, rfl, rfl, rfl, rfl, hnojob⟩
    · exact hI.prepared q ((hsame q hqp).mp hq) e he

/-- What publishing a live handle leaves alone. -/
theorem publish_frame (hd : s.pool p = some d) :
    (vfsPublishHandle s p).pool = s.pool ∧ (vfsPublishHandle s p).jobs = s.jobs ∧
      (vfsPublishHandle s p).closing = s.closing ∧ (vfsPublishHandle s p).nextPtr = s.nextPtr ∧
      (vfsPublishHandle s p).nextJob = s.nextJob ∧
      (vfsPublishHandle s p).trace = .published p d.mount d.release :: s.trace := by
  simp [vfsPublishHandle, hd]

theorem publish_mapGet (hd : s.pool p = some d) (h : FlVfsHandle) :
    (vfsPublishHandle s p).mapGet h = if h = d.id then some p else s.mapGet h :=
  VfsState.mapGet_insert p (by simp [vfsPublishHandle, hd])

theorem Table.publish (hT : Table s) (hd : s.pool p = some d) :
    Table (vfsPublishHandle s p) := by
  obtain ⟨hpool, hjobs, -, hptr, hjob, htrace⟩ := publish_frame hd
  constructor
  case poolBound =>
    rw [hpool, hptr]
    exact hT.poolBound
  case jobBound =>
    rw [hjobs, hjob]
    exact hT.jobBound
  case jobPos =>
    rw [hjob]
    exact hT.jobPos
  case mapped =>
    intro h q hq
    rw [publish_mapGet hd] at hq
    rw [hpool]
    split_ifs at hq with hh
    · cases hq
      exact ⟨d, hd, hh.symm⟩
    · exact hT.mapped h q hq
  case idNonzero =>
    rw [hpool]
    exact hT.idNonzero
  case distinct =>
    rw [hpool]
    exact hT.distinct
  case traceBound =>
    intro q
    rw [htrace, hptr]
    simp only [List.mem_cons, reduceCtorEq, false_or]
    exact hT.traceBound q
  case targetBound =>
    rw [hjobs, hptr]
    exact hT.targetBound

/-- A private handle has no owner any more once it is published. -/
theorem ownersAt_publish (hd : s.pool p = some d) (hprivate : s.mapGet d.id ≠ some p)
    (hdistinct : ∀ q e, s.pool q = some e → e.id = d.id → q = p) (q : HandlePtr) :
    ownersAt s q = ownersAt (vfsPublishHandle s p) q + if some p = some q then 1 else 0 := by
  obtain ⟨hpool, -⟩ := publish_frame hd
  unfold ownersAt
  rw [hpool]
  by_cases hq : q = p
  · subst hq
    simp [hd, hprivate, publish_mapGet hd]
  · rw [if_neg (by simpa using Ne.symm hq), Nat.add_zero]
    cases he : s.pool q with
    | none => rfl
    | some e => simp only [publish_mapGet hd, if_neg fun heq => hq (hdistinct q e he heq)]

/-- The owner of a handle puts it in the map. -/
theorem Inv.publish (hI : Inv s (i :: F)) (howns : i.owns = some p) (hwin : i.window = none)
    (hcarry : i.carries = none) : Inv (vfsPublishHandle s p) F := by
  obtain ⟨d₀, hd₀, hprivate⟩ := hI.owner_private (by simp) howns
  obtain ⟨hpool, hjobs, hclosing, -, -, htrace⟩ := publish_frame hd₀
  have hget := publish_mapGet hd₀
  have hund : ∀ q, Undispatched (vfsPublishHandle s p).trace q ↔ Undispatched s.trace q := by
    intro q
    simp [Undispatched, htrace]
  have hsame : ∀ q e, s.pool q = some e → e.id = d₀.id → q = p := fun q e he heq =>
    hI.distinct q p e d₀ he hd₀ heq
  have hidle : ∀ d, Idle (vfsPublishHandle s p) d ↔ Idle s d := fun d => by
    simp [Idle, VfsState.jobDone_congr hjobs]
  refine ⟨hI.toTable.publish hd₀, fun q => ?_, fun q => ?_, ?_, ?_, ?_, ?_, ?_, ?_⟩
  · have howned := hI.owned q
    rw [owners_cons, howns, ownersAt_publish hd₀ hprivate hsame q] at howned
    exact Nat.add_right_cancel howned
  · have := hI.windows q
    rw [openWindows_cons, hwin] at this
    simpa [pendingAt, hpool] using this
  · intro x hx id q hw
    rw [hget]
    obtain ⟨d, hd, hid, hmap, -⟩ := hI.window_live (by simp [hx]) hw
    rw [if_neg]
    · exact hmap
    · rintro rfl
      have hqp := hI.distinct q p d d₀ hd hd₀ hid
      subst hqp
      exact hprivate hmap
  · intro j k hj hk
    rw [hjobs] at hj
    rw [hpool]
    obtain ⟨d, hd, hrun⟩ := hI.running j k hj hk
    refine ⟨d, hd, hrun.imp_right fun ⟨x, hx, hc⟩ => ?_⟩
    rcases List.mem_cons.mp hx with rfl | hx
    · simp [hcarry] at hc
    · exact ⟨x, hx, hc⟩
  · intro x hx q hu e he
    rw [hpool] at he
    rw [hund]
    exact hI.unset x (by simp [hx]) q hu e he
  · intro x hx q hq e he
    rw [hpool] at he
    exact hI.dispatching x (by simp [hx]) q hq e he
  · intro q hq e he
    rw [hpool] at he
    rw [hund] at hq
    rw [hjobs]
    exact hI.prepared q hq e he
  · intro x hx m ids drained ht
    obtain ⟨hm, hv⟩ := hI.teardown x (by simp [hx]) m ids drained ht
    rw [hclosing, hpool]
    refine ⟨hm, fun q e he hid => ?_⟩
    obtain ⟨h₁, h₂, h₃⟩ := hv q e he hid
    refine ⟨h₁, ?_, fun hdr => (hidle e).mpr (h₃ hdr)⟩
    rw [hget]
    split_ifs with hh
    · rw [hI.distinct q p e d₀ he hd₀ hh]
    · exact h₂

end Birth

/-! ## Jobs -/

section Jobs

variable {s s' : VfsState} {F : List Instr} {i y : Instr} {p q : HandlePtr}
  {d : VfsHandleData} {k : Job} {j : FlJobHandle} {phase : JobPhase} {h : FlVfsHandle}

theorem Table.nextJob_none (hT : Table s) : s.jobs s.nextJob = none := by
  by_contra hne
  obtain ⟨k, hk⟩ := Option.ne_none_iff_exists'.mp hne
  exact Nat.lt_irrefl _ (hT.jobBound _ k hk).2

theorem Table.addJob_kept {k' : Job} (hT : Table s) (hj : s.jobs j = some k') :
    (s.addJob k).jobs j = some k' := by
  rw [VfsState.addJob_jobs, if_neg (Nat.ne_of_lt (hT.jobBound j k' hj).2), hj]

/-- A new job finishes nothing. -/
theorem jobDone_addJob (hT : Table s) (hk : k.phase.isFinished = false) (j : FlJobHandle) :
    (s.addJob k).jobDone j = s.jobDone j := by
  unfold VfsState.jobDone VfsState.jobFinished
  rw [VfsState.addJob_jobs]
  by_cases hj : j = s.nextJob
  · subst hj
    simp [hT.nextJob_none, hk]
  · rw [if_neg hj]

/-- A call that has yet to set the job fields of a handle schedules its job. -/
theorem Inv.addJob (hI : Inv s (i :: F)) (hd : s.pool p = some d) (htarget : k.target = p)
    (hk : k.phase.isFinished = false) (hunset : i.unset = some p) (hcarry : i.carries = none)
    (howns' : y.owns = i.owns) (hwin' : y.window = i.window)
    (hdisp' : y.dispatches = i.dispatches) (hunset' : y.unset = some p)
    (hcarry' : y.carries = some (p, s.nextJob)) (htear' : y.teardown = none) :
    Inv (s.addJob k) (y :: F) := by
  have hidle : ∀ d, Idle (s.addJob k) d ↔ Idle s d := fun d => by
    simp [Idle, jobDone_addJob hI.toTable hk]
  refine ⟨⟨hI.poolBound, ?_, Nat.succ_pos _, hI.mapped, hI.idNonzero, hI.distinct, hI.traceBound,
    ?_⟩, ?_, ?_, ?_, ?_, ?_, ?_, ?_, ?_⟩
  · intro j k' hj
    rcases VfsState.addJob_some hj with ⟨rfl, -⟩ | hj
    · exact ⟨hI.jobPos, Nat.lt_succ_self _⟩
    · exact ⟨(hI.jobBound j k' hj).1, Nat.lt_succ_of_lt (hI.jobBound j k' hj).2⟩
  · intro j k' hj
    rcases VfsState.addJob_some hj with ⟨-, rfl⟩ | hj
    · exact htarget ▸ hI.poolBound p d hd
    · exact hI.targetBound j k' hj
  · intro q
    have := hI.owned q
    rw [owners_cons] at this
    rw [owners_cons, howns']
    exact this
  · intro q
    have := hI.windows q
    rw [openWindows_cons] at this
    rw [openWindows_cons, hwin']
    exact this
  · intro x hx id q hw
    rcases List.mem_cons.mp hx with rfl | hx
    · exact hI.windowMapped i (by simp) id q (hwin' ▸ hw)
    · exact hI.windowMapped x (by simp [hx]) id q hw
  · intro j k' hj hfin
    rcases VfsState.addJob_some hj with ⟨rfl, rfl⟩ | hj
    · exact ⟨d, htarget ▸ hd, .inr ⟨y, by simp, htarget ▸ hcarry'⟩⟩
    · obtain ⟨e, he, hrun⟩ := hI.running j k' hj hfin
      refine ⟨e, he, hrun.imp_right fun ⟨x, hx, hc⟩ => ?_⟩
      rcases List.mem_cons.mp hx with rfl | hx
      · simp [hcarry] at hc
      · exact ⟨x, by simp [hx], hc⟩
  · intro x hx q hu e he
    rcases List.mem_cons.mp hx with rfl | hx
    · rw [hunset'] at hu
      exact hI.unset i (by simp) q (hunset ▸ hu) e he
    · exact hI.unset x (by simp [hx]) q hu e he
  · intro x hx q hq e he
    rcases List.mem_cons.mp hx with rfl | hx
    · exact hI.dispatching i (by simp) q (hdisp' ▸ hq) e he
    · exact hI.dispatching x (by simp [hx]) q hq e he
  · intro q hq e he
    obtain ⟨h₁, h₂, h₃, h₄, h₅, h₆⟩ := hI.prepared q hq e he
    refine ⟨h₁, h₂, h₃, h₄, h₅, fun j k' hj => ?_⟩
    rcases VfsState.addJob_some hj with ⟨-, rfl⟩ | hj
    · rw [htarget]
      rintro rfl
      exact (hI.unset i (by simp) p hunset d hd).2.2 hq
    · exact h₆ j k' hj
  · intro x hx m ids drained ht
    rcases List.mem_cons.mp hx with rfl | hx
    · simp [htear'] at ht
    · simp only [hidle]
      exact hI.teardown x (by simp [hx]) m ids drained ht

theorem setPhase_some {k' : Job} (hj : (s.setPhase j phase).jobs q = some k') :
    (q = j ∧ ∃ k, s.jobs j = some k ∧ k' = { k with phase := phase }) ∨
      (q ≠ j ∧ s.jobs q = some k') := by
  rw [VfsState.setPhase_jobs] at hj
  split_ifs at hj with hq
  · obtain ⟨k, hk, rfl⟩ := Option.map_eq_some_iff.mp hj
    exact .inl ⟨hq, k, hk, rfl⟩
  · exact .inr ⟨hq, hj⟩

/-- A job that moves on never makes another one unfinished. -/
theorem jobDone_setPhase (hj : s.jobs j = some k) (hk : k.phase.isFinished = false)
    {j' : FlJobHandle} (hdone : s.jobDone j' = true) : (s.setPhase j phase).jobDone j' = true := by
  unfold VfsState.jobDone VfsState.jobFinished at hdone ⊢
  rw [VfsState.setPhase_jobs]
  split_ifs with hq
  · subst hq
    simp only [hj, hk, Bool.or_false, beq_iff_eq] at hdone
    simp [hdone]
  · exact hdone

theorem Inv.setPhase (hI : Inv s F) (phase : JobPhase) (hj : s.jobs j = some k) (hk : k.phase.isFinished = false) :
    Inv (s.setPhase j phase) F where
  poolBound := hI.poolBound
  jobBound q k' hq := by
    rcases setPhase_some hq with ⟨rfl, k, hk, -⟩ | ⟨-, hq⟩
    · exact hI.jobBound q k hk
    · exact hI.jobBound q k' hq
  jobPos := hI.jobPos
  mapped := hI.mapped
  idNonzero := hI.idNonzero
  distinct := hI.distinct
  traceBound := hI.traceBound
  targetBound q k' hq := by
    rcases setPhase_some hq with ⟨rfl, k, hk, rfl⟩ | ⟨-, hq⟩
    · exact hI.targetBound q k hk
    · exact hI.targetBound q k' hq
  owned := hI.owned
  windows := hI.windows
  windowMapped := hI.windowMapped
  running q k' hq hfin := by
    rcases setPhase_some hq with ⟨rfl, k₀, hk₀, rfl⟩ | ⟨-, hq⟩
    · rw [hj] at hk₀
      cases hk₀
      exact hI.running q k hj hk
    · exact hI.running q k' hq hfin
  unset := hI.unset
  dispatching := hI.dispatching
  prepared q hq e he := by
    obtain ⟨h₁, h₂, h₃, h₄, h₅, h₆⟩ := hI.prepared q hq e he
    refine ⟨h₁, h₂, h₃, h₄, h₅, fun r k' hr => ?_⟩
    rcases setPhase_some hr with ⟨rfl, k₀, hk₀, rfl⟩ | ⟨-, hr⟩
    · exact h₆ r k₀ hk₀
    · exact h₆ r k' hr
  teardown x hx m ids drained ht := by
    obtain ⟨hm, hv⟩ := hI.teardown x hx m ids drained ht
    refine ⟨hm, fun q e he hid => ?_⟩
    obtain ⟨h₁, h₂, h₃⟩ := hv q e he hid
    refine ⟨h₁, h₂, fun hdr => ?_⟩
    obtain ⟨i₁, i₂, i₃⟩ := h₃ hdr
    exact ⟨i₁, jobDone_setPhase hj hk i₂, jobDone_setPhase hj hk i₃⟩

/-- A job is unfinished only on a handle that is not waiting to be dispatched. -/
theorem Inv.target_dispatched (hI : Inv s F) (hj : s.jobs j = some k)
    (hd : s.pool k.target = some d) : ¬ Undispatched s.trace k.target := fun hu =>
  (hI.prepared k.target hu d hd).2.2.2.2.2 j k hj rfl

end Jobs

/-! ## Freeing -/

section Freeing

variable {s s' : VfsState} {F : List Instr} {i : Instr} {p q : HandlePtr} {d : VfsHandleData}
  {h : FlVfsHandle} {cause : FreeCause}

/-- What freeing a live handle does. -/
theorem free_live (cause : FreeCause) (hd : s.pool p = some d) :
    (vfsFreeHandleLocked s p cause).1.pool = Function.update s.pool p none ∧
      (vfsFreeHandleLocked s p cause).1.handleMap = s.handleMap.erase d.id ∧
      (vfsFreeHandleLocked s p cause).1.trace =
        .freed p d.mount cause :: (freeResources d ++ s.trace) ∧
      (vfsFreeHandleLocked s p cause).2 = if d.release then [p] else [] := by
  simp [vfsFreeHandleLocked, hd]

theorem free_dead (hd : s.pool p = none) : vfsFreeHandleLocked s p cause = (s, []) := by
  simp [vfsFreeHandleLocked, hd]

/-- What freeing leaves alone. -/
theorem free_frame (s : VfsState) (p : HandlePtr) (cause : FreeCause) :
    (vfsFreeHandleLocked s p cause).1.jobs = s.jobs ∧
    (vfsFreeHandleLocked s p cause).1.nextJob = s.nextJob ∧
    (vfsFreeHandleLocked s p cause).1.nextPtr = s.nextPtr ∧
    (vfsFreeHandleLocked s p cause).1.closing = s.closing ∧
    (vfsFreeHandleLocked s p cause).1.mounts = s.mounts ∧
    (vfsFreeHandleLocked s p cause).1.mountList = s.mountList ∧
    (vfsFreeHandleLocked s p cause).1.calls = s.calls ∧
    (vfsFreeHandleLocked s p cause).1.destroyed = s.destroyed := by
  unfold vfsFreeHandleLocked
  split
  · exact ⟨rfl, rfl, rfl, rfl, rfl, rfl, rfl, rfl⟩
  · exact ⟨rfl, rfl, rfl, rfl, rfl, rfl, rfl, rfl⟩

theorem freeResources_neutral {e : Event} (he : e ∈ freeResources d) :
    (∃ b, e = .driverClosed b) ∨ ∃ b, e = .bufferFreed b := by
  unfold freeResources at he
  split at he
  · split at he
    · split_ifs at he
      · exact .inl ⟨_, by simpa using he⟩
      · simp at he
    · simp at he
  · split at he
    · split_ifs at he
      · exact .inr ⟨_, by simpa using he⟩
      · simp at he
    · simp at he
  · simp at he

theorem free_pool_some {e : VfsHandleData}
    (he : (vfsFreeHandleLocked s p cause).1.pool q = some e) : q ≠ p ∧ s.pool q = some e := by
  cases hd : s.pool p with
  | none =>
      rw [free_dead hd] at he
      refine ⟨?_, he⟩
      rintro rfl
      rw [hd] at he
      cases he
  | some d =>
      rw [(free_live cause hd).1, Function.update_apply] at he
      split_ifs at he with hq
      exact ⟨hq, he⟩

theorem free_mapGet (cause : FreeCause) (hd : s.pool p = some d) (h : FlVfsHandle) :
    (vfsFreeHandleLocked s p cause).1.mapGet h = if h = d.id then none else s.mapGet h :=
  VfsState.mapGet_erase (free_live cause hd).2.1

theorem free_kept (cause : FreeCause) (hd : s.pool p = some d) (hq : q ≠ p) :
    (vfsFreeHandleLocked s p cause).1.pool q = s.pool q := by
  rw [(free_live cause hd).1, Function.update_of_ne hq]

/-- Freeing a handle tells of nothing prepared or dispatched. -/
theorem free_trace (cause : FreeCause) (hd : s.pool p = some d) (q : HandlePtr) :
    (Event.prepared q ∈ (vfsFreeHandleLocked s p cause).1.trace ↔ Event.prepared q ∈ s.trace) ∧
      (Event.dispatched q ∈ (vfsFreeHandleLocked s p cause).1.trace ↔
        Event.dispatched q ∈ s.trace) := by
  have hnot : ∀ e ∈ freeResources d, e ≠ .prepared q ∧ e ≠ .dispatched q := by
    intro e he
    rcases freeResources_neutral he with ⟨b, rfl⟩ | ⟨b, rfl⟩ <;> exact ⟨nofun, nofun⟩
  rw [(free_live cause hd).2.2.1]
  simp only [List.mem_cons, List.mem_append, reduceCtorEq, false_or]
  constructor
  · exact or_iff_right fun he => (hnot _ he).1 rfl
  · exact or_iff_right fun he => (hnot _ he).2 rfl

theorem Table.free (hT : Table s) (cause : FreeCause) (hd : s.pool p = some d) :
    Table (vfsFreeHandleLocked s p cause).1 := by
  obtain ⟨hjobs, hjob, hptr, -⟩ := free_frame s p cause
  constructor
  case poolBound =>
    intro q e he
    rw [hptr]
    exact hT.poolBound q e (free_pool_some he).2
  case jobBound =>
    rw [hjobs, hjob]
    exact hT.jobBound
  case jobPos =>
    rw [hjob]
    exact hT.jobPos
  case mapped =>
    intro h q hq
    rw [free_mapGet cause hd] at hq
    split_ifs at hq with hh
    obtain ⟨e, he, hid⟩ := hT.mapped h q hq
    refine ⟨e, ?_, hid⟩
    rw [free_kept cause hd, he]
    rintro rfl
    rw [hd] at he
    cases he
    exact hh hid.symm
  case idNonzero => exact fun q e he => hT.idNonzero q e (free_pool_some he).2
  case distinct =>
    exact fun q r e e' he he' => hT.distinct q r e e' (free_pool_some he).2 (free_pool_some he').2
  case traceBound =>
    intro q
    rw [(free_trace cause hd q).1, (free_trace cause hd q).2, hptr]
    exact hT.traceBound q
  case targetBound =>
    rw [hjobs, hptr]
    exact hT.targetBound

/-- A handle of the map has no owner, before it is freed and after that. -/
theorem ownersAt_free (cause : FreeCause) (hd : s.pool p = some d)
    (hmap : s.mapGet d.id = some p)
    (hdistinct : ∀ q e, s.pool q = some e → e.id = d.id → q = p) (q : HandlePtr) :
    ownersAt (vfsFreeHandleLocked s p cause).1 q = ownersAt s q := by
  unfold ownersAt
  by_cases hq : q = p
  · subst hq
    rw [(free_live cause hd).1, Function.update_self, hd]
    simp [hmap]
  · rw [free_kept cause hd hq]
    cases he : s.pool q with
    | none => rfl
    | some e => simp only [free_mapGet cause hd, if_neg fun heq => hq (hdistinct q e he heq)]

theorem pendingAt_free (cause : FreeCause) (hd : s.pool p = some d)
    (hpending : d.pendingDispatches = 0) (q : HandlePtr) :
    pendingAt (vfsFreeHandleLocked s p cause).1 q = pendingAt s q := by
  unfold pendingAt
  by_cases hq : q = p
  · subst hq
    rw [(free_live cause hd).1, Function.update_self, hd]
    exact hpending.symm
  · rw [free_kept cause hd hq]

/-- Freeing an idle handle of the map. -/
theorem Inv.free (hI : Inv s F) (hd : s.pool p = some d) (hmap : s.mapGet d.id = some p)
    (hidle : Idle s d) : Inv (vfsFreeHandleLocked s p cause).1 F := by
  obtain ⟨hjobs, -, -, hclosing, -⟩ := free_frame s p cause
  have hget := free_mapGet cause hd
  have hsame : ∀ q e, s.pool q = some e → e.id = d.id → q = p := fun q e he heq =>
    hI.distinct q p e d he hd heq
  have hund : ∀ q, Undispatched (vfsFreeHandleLocked s p cause).1.trace q ↔
      Undispatched s.trace q := fun q => by
    rw [Undispatched, Undispatched, (free_trace cause hd q).1, (free_trace cause hd q).2]
  have hidle' : ∀ e, Idle (vfsFreeHandleLocked s p cause).1 e ↔ Idle s e := fun e => by
    simp [Idle, VfsState.jobDone_congr hjobs]
  refine ⟨hI.toTable.free cause hd, fun q => ?_, fun q => ?_, ?_, ?_, ?_, ?_, ?_, ?_⟩
  · rw [ownersAt_free cause hd hmap hsame]
    exact hI.owned q
  · rw [pendingAt_free cause hd hidle.1]
    exact hI.windows q
  · intro x hx id q hw
    rw [hget, if_neg, hI.windowMapped x hx id q hw]
    rintro rfl
    obtain ⟨e, he, heid, hm, -⟩ := hI.window_live hx hw
    rw [hmap] at hm
    cases hm
    exact hI.pending_zero_no_window hd hidle.1 hx hw
  · intro j k hj hfin
    rw [hjobs] at hj
    obtain ⟨e, he, hrun⟩ := hI.running j k hj hfin
    refine ⟨e, ?_, hrun⟩
    rw [free_kept cause hd, he]
    intro hq
    rw [hI.idle_jobs_finished hmap hd hidle hj hq] at hfin
    cases hfin
  · intro x hx q hu e he
    rw [hund]
    exact hI.unset x hx q hu e (free_pool_some he).2
  · intro x hx q hq e he
    exact hI.dispatching x hx q hq e (free_pool_some he).2
  · intro q hq e he
    rw [hund] at hq
    rw [hjobs]
    exact hI.prepared q hq e (free_pool_some he).2
  · intro x hx m ids drained ht
    obtain ⟨hm, hv⟩ := hI.teardown x hx m ids drained ht
    rw [hclosing]
    refine ⟨hm, fun q e he hid => ?_⟩
    obtain ⟨hq, he⟩ := free_pool_some he
    obtain ⟨h₁, h₂, h₃⟩ := hv q e he hid
    refine ⟨h₁, ?_, fun hdr => (hidle' e).mpr (h₃ hdr)⟩
    rw [hget, if_neg fun heq => hq (hsame q e he heq), h₂]

/-- Handles are freed one after the other while each of them is idle. -/
theorem Inv.freeHandles {ps : List HandlePtr} (hI : Inv s F)
    (hps : ∀ p ∈ ps, ∀ d, s.pool p = some d → s.mapGet d.id = some p ∧ Idle s d) :
    Inv (freeHandles s ps cause).1 F := by
  induction ps generalizing s with
  | nil => exact hI
  | cons p ps ih =>
      refine ih ?_ ?_
      · cases hd : s.pool p with
        | none => rwa [free_dead hd]
        | some d =>
            obtain ⟨hmap, hidle⟩ := hps p (by simp) d hd
            exact hI.free hd hmap hidle
      · intro q hq e he
        obtain ⟨hne, he⟩ := free_pool_some he
        obtain ⟨hmap, hidle⟩ := hps q (by simp [hq]) e he
        have hjobs := (free_frame s p cause).1
        refine ⟨?_, by simpa [Idle, VfsState.jobDone_congr hjobs] using hidle⟩
        cases hd : s.pool p with
        | none => rwa [free_dead hd]
        | some d =>
            rw [VfsState.mapGet_erase (free_live cause hd).2.1, if_neg, hmap]
            exact fun heq => hne (hI.distinct q p e d he hd heq)

end Freeing

end FlowiVfs
