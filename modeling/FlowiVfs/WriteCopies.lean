import FlowiVfs.Shutdown
import Mathlib.Order.Nat

/-!
# The copies of `vfs_write`

`vfs_write` copies the caller's data, hands the copy down to `vfs_chain_file_op`, and
`vfs_free_handle_resources` frees it with the handle of the write. A copy is counted
where it is: with the calls that still have to place it, on the handles of the pool,
and among the frees of the trace. No program point but two changes the sum: `vfs_write`
makes a copy, and a write that is refused after that loses it.
-/
namespace FlowiVfs

open Transition

/-- The copy among the parameters of a file operation. -/
def VfsFileOpParams.copy (params : VfsFileOpParams) : Option ℕ :=
  if params.writeDataOwned then params.writeData else none

/-- The copy that is freed with the handle. -/
def VfsHandleData.copy (d : VfsHandleData) : Option ℕ :=
  if d.opType = .fileWrite ∧ d.writeDataOwned then d.writeData else none

/-- The copy on its way to its handle. -/
def Instr.copy : Instr → Option ℕ
  | .chain _ params | .chainAlloc _ _ _ params _ _ => params.copy
  | _ => none

/-- Copies belong to writes, and are of some bytes. -/
def Instr.Typed : Instr → Prop
  | .copyData _ size => 0 < size
  | .chain _ params | .chainAlloc _ _ _ params _ _ =>
      params.writeDataOwned = true → params.opType = .fileWrite
  | _ => True

def VfsState.copyAt (s : VfsState) (p : HandlePtr) : Option ℕ := (s.pool p).bind VfsHandleData.copy

/-- How many calls have `b` to place. -/
def carried (F : List Instr) (b : ℕ) : ℕ := F.countP fun i => i.copy = some b

/-- How many handles own `b`. -/
def held (s : VfsState) (b : ℕ) : ℕ := Nat.count (fun p => s.copyAt p = some b) s.nextPtr

def freed (trace : List Event) (b : ℕ) : ℕ := trace.count (.bufferFreed b)

/-- In how many places `b` is. -/
def places (s : VfsState) (b : ℕ) : ℕ := carried s.frames b + held s b + freed s.trace b

theorem count_same {P Q : ℕ → Prop} [DecidablePred P] [DecidablePred Q] {n : ℕ}
    (same : ∀ i, i < n → (P i ↔ Q i)) : Nat.count P n = Nat.count Q n := by
  induction n with
  | zero => simp
  | succ n ih =>
      rw [Nat.count_succ, Nat.count_succ, ih fun i hi => same i (Nat.lt_succ_of_lt hi)]
      simp only [same n (Nat.lt_succ_self n)]

/-- Changing one element changes the count by that element. -/
theorem count_change {P Q : ℕ → Prop} [DecidablePred P] [DecidablePred Q] {n k : ℕ} (hk : k < n)
    (same : ∀ i, i ≠ k → (P i ↔ Q i)) :
    Nat.count P n + (if Q k then 1 else 0) = Nat.count Q n + (if P k then 1 else 0) := by
  induction n with
  | zero => omega
  | succ n ih =>
      rw [Nat.count_succ, Nat.count_succ]
      by_cases hlast : k = n
      · subst hlast
        have hbelow : Nat.count P k = Nat.count Q k :=
          count_same fun i hi => same i (Nat.ne_of_lt hi)
        omega
      · have hrest := ih (by omega)
        have htop := same n (Ne.symm hlast)
        by_cases hP : P n
        · rw [if_pos hP, if_pos (htop.mp hP)]
          omega
        · rw [if_neg hP, if_neg (fun hQ => hP (htop.mpr hQ))]
          omega

section Carried

variable {F G : List Instr} {i : Instr} {b : ℕ}

@[simp] theorem carried_nil : carried [] b = 0 := rfl

theorem carried_cons : carried (i :: F) b = carried F b + if i.copy = some b then 1 else 0 := by
  simp [carried, List.countP_cons]

theorem carried_append : carried (F ++ G) b = carried F b + carried G b := by
  simp [carried]

theorem carried_perm (h : F.Perm G) : carried F b = carried G b := h.countP_eq _

theorem carried_none (h : ∀ x ∈ F, x.copy = none) : carried F b = 0 := by
  refine List.countP_eq_zero.mpr fun x hx => ?_
  simp [h x hx]

end Carried

/-! ## What a step leaves of the copies -/

/-- Handles live below `nextPtr`. -/
def VfsState.Bounded (s : VfsState) : Prop := ∀ p d, s.pool p = some d → p < s.nextPtr

/-- Allocations and frees of copies. -/
def Event.ofBuffer : Event → Bool
  | .bufferAllocated _ | .bufferFreed _ => true
  | _ => false

/-- A step that makes no copy and loses none, and places the copy `c` on a new handle. -/
structure Places (c : Option ℕ) (s s' : VfsState) : Prop where
  bounded : s'.Bounded
  ptr : s.nextPtr ≤ s'.nextPtr
  buffer : s'.nextBuffer = s.nextBuffer
  made : ∀ b, .bufferAllocated b ∈ s'.trace ↔ .bufferAllocated b ∈ s.trace
  sum : ∀ b, held s' b + freed s'.trace b =
    held s b + freed s.trace b + if c = some b then 1 else 0
  old : ∀ p < s.nextPtr, ∀ d', s'.pool p = some d' → ∃ d, s.pool p = some d ∧ d'.copy = d.copy
  fresh : ∀ p, s.nextPtr ≤ p → ∀ d', s'.pool p = some d' → d'.copy = none ∨ d'.copy = c

section Places

variable {s s' s'' : VfsState} {F new : List Instr} {i : Instr} {p : HandlePtr}
  {d : VfsHandleData} {f : VfsHandleData → VfsHandleData} {c : Option ℕ} {t : Thread}
  {sched : Sched} {cause : FreeCause} {m : MountPtr} {b : ℕ} {es : List Event}

theorem freed_append (h : ∀ e ∈ es, e.ofBuffer = false) :
    freed (es ++ s.trace) b = freed s.trace b := by
  have hnone : es.count (.bufferFreed b) = 0 := by
    refine List.count_eq_zero.mpr fun hmem => ?_
    cases h _ hmem
  simp [freed, hnone]

theorem made_append (h : ∀ e ∈ es, e.ofBuffer = false) :
    .bufferAllocated b ∈ es ++ s.trace ↔ .bufferAllocated b ∈ s.trace := by
  rw [List.mem_append]
  refine or_iff_right fun hmem => ?_
  cases h _ hmem

theorem held_congr (hpool : s'.pool = s.pool) (hptr : s'.nextPtr = s.nextPtr) :
    held s' b = held s b := by
  unfold held VfsState.copyAt
  rw [hptr]
  exact count_same fun q _ => by rw [hpool]

/-- A step that leaves the handles alone. -/
theorem Places.same (hB : s.Bounded) (hpool : s'.pool = s.pool) (hptr : s'.nextPtr = s.nextPtr)
    (hbuffer : s'.nextBuffer = s.nextBuffer)
    (htrace : ∃ es, s'.trace = es ++ s.trace ∧ ∀ e ∈ es, e.ofBuffer = false) :
    Places none s s' := by
  obtain ⟨es, hes, quiet⟩ := htrace
  refine ⟨?_, Nat.le_of_eq hptr.symm, hbuffer, ?_, ?_, ?_, ?_⟩
  · intro p d hd
    rw [hptr]
    rw [hpool] at hd
    exact hB p d hd
  · intro b
    rw [hes]
    exact made_append quiet
  · intro b
    rw [held_congr hpool hptr, hes, freed_append quiet]
    rfl
  · intro p _ d' hd'
    rw [hpool] at hd'
    exact ⟨d', hd', rfl⟩
  · intro p hp d' hd'
    rw [hpool] at hd'
    exact absurd (hB p d' hd') (Nat.not_lt.mpr hp)

theorem Places.refl (hB : s.Bounded) : Places none s s := .same hB rfl rfl rfl ⟨[], rfl, by simp⟩

theorem Places.emit {e : Event} (hB : s.Bounded) (he : e.ofBuffer = false) :
    Places none s (s.emit e) := by
  refine .same hB rfl rfl rfl ⟨[e], rfl, ?_⟩
  intro e' he'
  rw [List.mem_singleton.mp he']
  exact he

theorem Places.addJob (hB : s.Bounded) (k : Job) : Places none s (s.addJob k) :=
  .same hB rfl rfl rfl ⟨[], rfl, by simp⟩

theorem Places.trans (h₁ : Places c s s') (h₂ : Places none s' s'') : Places c s s'' where
  bounded := h₂.bounded
  ptr := Nat.le_trans h₁.ptr h₂.ptr
  buffer := h₂.buffer.trans h₁.buffer
  made b := (h₂.made b).trans (h₁.made b)
  sum b := by
    have hfirst := h₁.sum b
    have hthen := h₂.sum b
    simp only [reduceCtorEq, if_false] at hthen
    omega
  old p hp d'' hd'' := by
    obtain ⟨d', hd', hcopy'⟩ := h₂.old p (Nat.lt_of_lt_of_le hp h₁.ptr) d'' hd''
    obtain ⟨d, hd, hcopy⟩ := h₁.old p hp d' hd'
    exact ⟨d, hd, hcopy'.trans hcopy⟩
  fresh p hp d'' hd'' := by
    by_cases hold : p < s'.nextPtr
    · obtain ⟨d', hd', hcopy⟩ := h₂.old p hold d'' hd''
      rw [hcopy]
      exact h₁.fresh p hp d' hd'
    · have hnone := h₂.fresh p (Nat.not_lt.mp hold) d'' hd''
      exact .inl (hnone.elim id id)

theorem copyAt_modify (hf : ∀ d, (f d).copy = d.copy) (q : HandlePtr) :
    (s.modify p f).copyAt q = s.copyAt q := by
  unfold VfsState.copyAt
  rw [VfsState.modify_pool]
  split_ifs with here
  · rw [here]
    cases s.pool p with
    | none => rfl
    | some d => exact hf d
  · rfl

theorem Places.modify (hB : s.Bounded) (hf : ∀ d, (f d).copy = d.copy) :
    Places none s (s.modify p f) := by
  refine ⟨?_, Nat.le_refl _, rfl, fun _ => Iff.rfl, ?_, ?_, ?_⟩
  · intro q d' hd'
    rcases modify_some hd' with ⟨rfl, d, hd, -⟩ | ⟨-, hd⟩
    · exact hB q d hd
    · exact hB q d' hd
  · intro b
    have hheld : held (s.modify p f) b = held s b := by
      simp only [held, copyAt_modify hf]
      rfl
    rw [hheld]
    rfl
  · intro q _ d' hd'
    rcases modify_some hd' with ⟨rfl, d, hd, rfl⟩ | ⟨-, hd⟩
    · exact ⟨d, hd, hf d⟩
    · exact ⟨d', hd, rfl⟩
  · intro q hq d' hd'
    rcases modify_some hd' with ⟨rfl, d, hd, -⟩ | ⟨-, hd⟩
    · exact absurd (hB q d hd) (Nat.not_lt.mpr hq)
    · exact absurd (hB q d' hd) (Nat.not_lt.mpr hq)

theorem Places.setJobs {j : FlJobHandle} (hB : s.Bounded) : Places none s (s.modify p (setJobs j)) :=
  .modify hB fun _ => rfl

/-- A new handle is filled in, and its copy placed. -/
theorem Places.allocFill {params : VfsOpParams} (hB : s.Bounded)
    (hf : (f (newHandleData (s.idFor params.reuseHandle) params)).copy = c)
    (halloc : allocateHandle s params = some (p, s')) : Places c s (s'.modify p f) := by
  obtain ⟨rfl, -, hpool, hptr, -, -, -, -, htrace, -⟩ := allocateHandle_some halloc
  have hbuffer : s'.nextBuffer = s.nextBuffer := by
    unfold allocateHandle at halloc
    split at halloc
    · cases halloc
    · cases halloc
      rfl
  have hnew : ∀ q, (s'.modify s.nextPtr f).pool q = if q = s.nextPtr then
      some (f (newHandleData (s.idFor params.reuseHandle) params)) else s.pool q := by
    intro q
    rw [VfsState.modify_pool]
    split_ifs with here
    · rw [hpool, Function.update_self, Option.map_some]
    · rw [hpool, Function.update_of_ne here]
  refine ⟨?_, ?_, hbuffer, ?_, ?_, ?_, ?_⟩
  · intro q d hd
    have hnext : (s'.modify s.nextPtr f).nextPtr = s.nextPtr + 1 := hptr
    rw [hnext]
    rw [hnew] at hd
    split_ifs at hd with here
    · rw [here]
      exact Nat.lt_succ_self _
    · exact Nat.lt_succ_of_lt (hB q d hd)
  · have hnext : (s'.modify s.nextPtr f).nextPtr = s.nextPtr + 1 := hptr
    rw [hnext]
    exact Nat.le_succ _
  · intro b
    rw [VfsState.modify_trace, htrace]
  · intro b
    have hheld : held (s'.modify s.nextPtr f) b = held s b + if c = some b then 1 else 0 := by
      have hnext : (s'.modify s.nextPtr f).nextPtr = s.nextPtr + 1 := hptr
      unfold held
      rw [hnext, Nat.count_succ]
      congr 1
      · refine count_same fun q hq => ?_
        unfold VfsState.copyAt
        rw [hnew, if_neg (Nat.ne_of_lt hq)]
      · unfold VfsState.copyAt
        rw [hnew, if_pos rfl, Option.bind_some, hf]
    rw [hheld, VfsState.modify_trace, htrace]
    omega
  · intro q hq d' hd'
    rw [hnew, if_neg (Nat.ne_of_lt hq)] at hd'
    exact ⟨d', hd', rfl⟩
  · intro q hq d' hd'
    rw [hnew] at hd'
    split_ifs at hd' with here
    · cases hd'
      exact .inr hf
    · exact absurd (hB q d' hd') (Nat.not_lt.mpr hq)

theorem Places.alloc {params : VfsOpParams} (hB : s.Bounded)
    (halloc : allocateHandle s params = some (p, s')) : Places none s s' := by
  have hkeep : s'.modify p id = s' := modify_id s' p
  have hfill : Places none s (s'.modify p id) := .allocFill hB (if_neg (by simp [newHandleData])) halloc
  rwa [hkeep] at hfill

theorem Places.publish (hB : s.Bounded) : Places none s (vfsPublishHandle s p) := by
  unfold vfsPublishHandle
  split
  · exact .same hB rfl rfl rfl ⟨[_], rfl, by simp [Event.ofBuffer]⟩
  · exact .refl hB

theorem freeResources_freed (d : VfsHandleData) (b : ℕ) :
    (freeResources d).count (.bufferFreed b) = if d.copy = some b then 1 else 0 := by
  unfold freeResources VfsHandleData.copy
  cases d.opType with
  | fileWrite =>
      cases d.writeData with
      | none => simp
      | some x =>
          cases d.writeDataOwned with
          | false => simp
          | true => simp [List.count_singleton]
  | fileOpen =>
      cases d.pluginFileHandle with
      | none => simp
      | some g =>
          cases d.pluginEntry with
          | none => simp
          | some plugin => cases hclose : plugin.close <;> simp [hclose]
  | mount | mountList | fileRead | readAll => simp

/-- The copy of a handle is freed with it. -/
theorem Places.free (cause : FreeCause) (hB : s.Bounded) :
    Places none s (vfsFreeHandleLocked s p cause).1 := by
  cases hd : s.pool p with
  | none =>
      rw [free_dead hd]
      exact .refl hB
  | some d =>
      obtain ⟨hpool, -, htrace, -⟩ := free_live cause hd
      obtain ⟨-, -, hptr, -⟩ := free_frame s p cause
      have hbuffer : (vfsFreeHandleLocked s p cause).1.nextBuffer = s.nextBuffer := by
        unfold vfsFreeHandleLocked
        rw [hd]
      refine ⟨?_, Nat.le_of_eq hptr.symm, hbuffer, ?_, ?_, ?_, ?_⟩
      · intro q e he
        rw [hptr]
        exact hB q e (free_pool_some he).2
      · intro b
        rw [htrace, List.mem_cons, List.mem_append]
        constructor
        · rintro (h | h | h)
          · cases h
          · rcases freeResources_neutral h with ⟨x, h⟩ | ⟨x, h⟩ <;> cases h
          · exact h
        · exact fun h => .inr (.inr h)
      · intro b
        have hfreed : freed (vfsFreeHandleLocked s p cause).1.trace b =
            freed s.trace b + if d.copy = some b then 1 else 0 := by
          unfold freed
          rw [htrace, List.count_cons_of_ne (by simp), List.count_append, freeResources_freed]
          omega
        have hchange : held (vfsFreeHandleLocked s p cause).1 b +
            (if s.copyAt p = some b then 1 else 0) = held s b + 0 := by
          unfold held
          rw [hptr, count_change (k := p) (hB p d hd)
            (Q := fun q => s.copyAt q = some b) fun q hq => ?_]
          · have hgone : (vfsFreeHandleLocked s p cause).1.copyAt p = none := by
              unfold VfsState.copyAt
              rw [hpool, Function.update_self]
              rfl
            rw [hgone, if_neg (by simp)]
          · unfold VfsState.copyAt
            rw [hpool, Function.update_of_ne hq]
        have hcopy : s.copyAt p = d.copy := by
          unfold VfsState.copyAt
          rw [hd]
          rfl
        rw [hcopy] at hchange
        simp only [reduceCtorEq, if_false]
        omega
      · intro q _ e he
        exact ⟨e, (free_pool_some he).2, rfl⟩
      · intro q hq e he
        exact absurd (hB q e (free_pool_some he).2) (Nat.not_lt.mpr hq)

theorem Places.freeHandles (ps : List HandlePtr) (cause : FreeCause) (hB : s.Bounded) :
    Places none s (freeHandles s ps cause).1 := by
  induction ps generalizing s with
  | nil => exact .refl hB
  | cons p ps ih =>
      have hfirst : Places none s (vfsFreeHandleLocked s p cause).1 := .free cause hB
      exact hfirst.trans (ih hfirst.bounded)

theorem Places.freeVictims (victims : List FlVfsHandle) (hB : s.Bounded) :
    Places none s (vfsFreeMountVictims s m victims).1 := by
  induction victims generalizing s with
  | nil => exact .refl hB
  | cons h victims ih =>
      unfold vfsFreeMountVictims
      split
      · exact ih hB
      · rename_i p d _
        have hfirst : Places none s (vfsFreeHandleLocked s p (.mountClose m)).1 := .free _ hB
        exact hfirst.trans (ih hfirst.bounded)

theorem Places.reclaim (hB : s.Bounded) : Places none s (vfsReclaimClosedHandles s).1 := by
  unfold vfsReclaimClosedHandles
  split_ifs
  · exact .refl hB
  · exact .freeHandles _ _ hB

theorem Places.closeFinish {h : FlVfsHandle} {borrows : Bool} (hB : s.Bounded) :
    Places none s (closeFinish s t h borrows).1 := by
  unfold FlowiVfs.closeFinish
  split
  · exact .refl hB
  · rename_i p d _
    split_ifs
    · have hnamed : Places none s (s.emit (.closed p)) := .emit hB rfl
      exact hnamed.trans (.free .closed hnamed.bounded)
    · exact .refl hB
    · exact .refl hB
    · have hcounted : Places none s { s with closedCount := s.closedCount + 1 } :=
        .same hB rfl rfl rfl ⟨[], rfl, by simp⟩
      have hmarked : Places none s ({ s with closedCount := s.closedCount + 1 }.modify p
          fun d => { d with closed := true }) :=
        hcounted.trans (.modify hcounted.bounded fun _ => rfl)
      exact hmarked.trans (.emit hmarked.bounded rfl)

end Places

/-! ## Bodies -/

/-- A write is not refused after it has made a copy. -/
def Instr.KeepsCopy (s : VfsState) : Instr → Prop
  | .copyData h _ => h ≠ FL_VFS_HANDLE_INVALID
  | .chain h params =>
      params.copy = none ∨ ¬ ∀ r ∈ s.lookupOpenHandle h, r.2.opType ≠ .fileOpen
  | _ => True

instance (s : VfsState) (i : Instr) : Decidable (i.KeepsCopy s) :=
  match i with
  | .copyData h _ => inferInstanceAs (Decidable (h ≠ FL_VFS_HANDLE_INVALID))
  | .chain h params => inferInstanceAs (Decidable (params.copy = none ∨
      ¬ ∀ r ∈ s.lookupOpenHandle h, r.2.opType ≠ .fileOpen))
  | .allocOp _ | .prepare _ | .schedule _ | .inlineOp _ _ _ | .publish _ | .mountOpen
  | .mountSchedule _ _ | .mountInline _ _ _ | .mountPublish _ _ _ | .dispatch _
  | .dispatchSchedule _ _ | .dispatchInline _ _ _ _ | .dispatchRecord _ _ _
  | .chainAlloc _ _ _ _ _ _ | .chainUnwind _ _ | .chainRun _ _ _ _ _ | .chainInline _ _ _ _
  | .chainPublish _ _ _ _ | .cancel _ | .reclaim | .releases _ | .closeSnapshot _
  | .closeFinish _ _ | .waitJobs _ | .waitSnapshot _ | .waitAllSnapshot | .mountUnlist _
  | .mountSnapshot _ | .mountDrain _ _ | .mountFree _ _ | .mountDestroy _ | .destroyLoop =>
      isTrue trivial

def KeepsCopies (s : VfsState) : Action → Prop
  | .exec c _ => ∀ i ∈ headInstr s c, i.KeepsCopy s
  | _ => True

instance (s : VfsState) (a : Action) : Decidable (KeepsCopies s a) :=
  match a with
  | .exec c _ => inferInstanceAs (Decidable (∀ i ∈ headInstr s c, i.KeepsCopy s))
  | .start _ _ | .job _ _ => isTrue trivial

/-- Points of `vfs_write` and `vfs_chain_file_op` that may have a copy to place. -/
def Instr.ofWrite : Instr → Bool
  | .copyData _ _ | .chain _ _ | .chainAlloc _ _ _ _ _ _ => true
  | _ => false

/-- What a body does about copies. -/
inductive CopyBody (i : Instr) (new : List Instr) (s s' : VfsState) : Prop
  | places (c : Option ℕ) (step : Places c s s') (keeps : i.KeepsCopy s)
      (passes : ∀ b, carried [i] b = carried new b + if c = some b then 1 else 0)
  | copies (h : FlVfsHandle) (size : ℤ) (point : i = .copyData h size)
      (next : new = vfsWriteInternal h s.nextBuffer size true)
      (same : s' = { s with nextBuffer := s.nextBuffer + 1 }.emit (.bufferAllocated s.nextBuffer))
  | refuses (h : FlVfsHandle) (params : VfsFileOpParams) (point : i = .chain h params)
      (refused : ∀ r ∈ s.lookupOpenHandle h, r.2.opType ≠ .fileOpen) (next : new = [])
      (same : s' = s)

structure BodyCopies (i : Instr) (new : List Instr) (s s' : VfsState) : Prop where
  body : CopyBody i new s s'
  typed : ∀ x ∈ new, x.Typed

section Bodies

variable {s s' : VfsState} {F new : List Instr} {i : Instr} {c : ℕ} {t : Thread} {sched : Sched}

theorem Instr.KeepsCopy.emit {e : Event} (h : i.KeepsCopy (s.emit e)) : i.KeepsCopy s := by
  cases i <;> exact h

theorem Instr.ofWrite_none (hi : i.ofWrite = false) : i.copy = none ∧ i.KeepsCopy s := by
  cases i with
  | copyData | chain | chainAlloc => cases hi
  | _ => exact ⟨rfl, trivial⟩

/-- A body at points that have no copy to place. -/
theorem BodyCopies.quiet (hi : i.ofWrite = false) (hnew : ∀ x ∈ new, x.copy = none ∧ x.Typed)
    (step : Places none s s') : BodyCopies i new s s' := by
  obtain ⟨hcopy, hkeeps⟩ := Instr.ofWrite_none (s := s) hi
  refine ⟨.places none step hkeeps fun b => ?_, fun x hx => (hnew x hx).2⟩
  rw [carried_none fun x hx => (hnew x hx).1, carried_cons, hcopy]
  rfl

theorem chainFill_copy {h : FlVfsHandle} {params : VfsFileOpParams} {d : VfsHandleData}
    (htyped : params.writeDataOwned = true → params.opType = .fileWrite)
    (hop : d.opType = params.opType) : (chainFill h params d).copy = params.copy := by
  have hop' : (chainFill h params d).opType = params.opType := hop
  unfold VfsHandleData.copy VfsFileOpParams.copy
  rw [hop']
  cases howned : params.writeDataOwned with
  | false => simp [chainFill, howned]
  | true => simp [chainFill, howned, htyped howned]

theorem BodyCopies.still (hB : s.Bounded) (hi : i.ofWrite = false)
    (hnew : ∀ x ∈ new, x.copy = none ∧ x.Typed) : BodyCopies i new s s :=
  .quiet hi hnew (.refl hB)

theorem LaunchExec.copies (hx : LaunchExec s t i s' new) (hB : s.Bounded) :
    BodyCopies i new s s' := by
  cases hx with
  | refused | prepareRefused => exact .still hB rfl (by simp)
  | allocated known halloc =>
      exact .quiet rfl (by simp [Instr.copy, Instr.Typed]) (.alloc hB halloc)
  | prepared known halloc =>
      have hborn := Places.alloc hB halloc
      exact .quiet rfl (by simp [Instr.copy, Instr.Typed]) (hborn.trans (.emit hborn.bounded rfl))
  | @queued p d m hd hm =>
      have hqueued := Places.addJob hB ⟨p, mountDependency s m, none, .queued⟩
      exact .quiet rfl (by simp [Instr.copy, Instr.Typed])
        (hqueued.trans (.setJobs hqueued.bounded))
  | inlined hd hm worker free hr =>
      exact .quiet rfl (by simp [Instr.copy, Instr.Typed]) (.addJob hB _)
  | ran finished => exact .quiet rfl (by simp [Instr.copy, Instr.Typed]) (.setJobs hB)
  | published => exact .quiet rfl (by simp) (.publish hB)

theorem MountExec.copies (hx : MountExec s t i s' new) (hB : s.Bounded) :
    BodyCopies i new s s' := by
  cases hx with
  | opened lock halloc =>
      have hlisted : Places none s { s with
          nextMount := s.nextMount + 1, mountList := s.mountList ++ [s.nextMount] } :=
        .same hB rfl rfl rfl ⟨[], rfl, by simp⟩
      exact .quiet rfl (by simp [Instr.copy, Instr.Typed])
        (hlisted.trans (.alloc hlisted.bounded halloc))
  | inlined worker => exact .quiet rfl (by simp [Instr.copy, Instr.Typed]) (.addJob hB _)
  | @queued m p main =>
      have hqueued := Places.addJob hB ⟨p, 0, none, .queued⟩
      exact .quiet rfl (by simp [Instr.copy, Instr.Typed])
        (hqueued.trans (.setJobs hqueued.bounded))
  | ran finished => exact .quiet rfl (by simp [Instr.copy, Instr.Typed]) (.setJobs hB)
  | @published m p j =>
      have hknown : Places none s { s with mounts := Function.update s.mounts m (some ⟨j⟩) } :=
        .same hB rfl rfl rfl ⟨[], rfl, by simp⟩
      exact .quiet rfl (by simp) (hknown.trans (.publish hknown.bounded))

theorem Places.record {h : FlVfsHandle} {p : HandlePtr} {j : FlJobHandle} (hB : s.Bounded) :
    Places none s (dispatchRecord s h p j) := by
  unfold dispatchRecord
  split_ifs
  · exact .modify hB fun _ => rfl
  · exact .refl hB

theorem DispatchExec.copies (hx : DispatchExec s t i s' new) (hB : s.Bounded) :
    BodyCopies i new s s' := by
  cases hx with
  | missing => exact .still hB rfl (by simp)
  | @entered h p d hl =>
      have hopened : Places none s (s.modify p openWindow) := .modify hB fun _ => rfl
      exact .quiet rfl (by simp [Instr.copy, Instr.Typed])
        (hopened.trans (.emit hopened.bounded rfl))
  | queued hd hm => exact .quiet rfl (by simp [Instr.copy, Instr.Typed]) (.addJob hB _)
  | inlined hd hm worker free hr =>
      exact .quiet rfl (by simp [Instr.copy, Instr.Typed]) (.addJob hB _)
  | ran finished => exact .still hB rfl (by simp [Instr.copy, Instr.Typed])
  | recorded => exact .quiet rfl (by simp) (.record hB)

theorem Places.unwind {h : FlVfsHandle} (hB : s.Bounded) : Places none s (chainUnwind s h) := by
  unfold chainUnwind
  split
  · exact .refl hB
  · exact .modify hB fun _ => rfl

theorem Places.chainPublish {h : FlVfsHandle} {p : HandlePtr} {refused : Bool} (hB : s.Bounded) :
    Places none s (chainPublish s h p refused) := by
  unfold FlowiVfs.chainPublish
  split
  · rename_i f d op _ _
    have hrecorded : Places none s (s.modify f (recordOn refused op.jobHandle)) :=
      .modify hB fun _ => rfl
    exact hrecorded.trans (.publish hrecorded.bounded)
  · exact .publish hB

theorem ChainExec.copies (hx : ChainExec s t i s' new) (hB : s.Bounded) (hi : i.Typed) :
    BodyCopies i new s s' := by
  cases hx with
  | @copiedOnly h size nothing =>
      exact ⟨.copies h size rfl (if_pos nothing).symm rfl, by simp⟩
  | @copied h size something =>
      exact ⟨.copies h size rfl (if_neg something).symm rfl, by simp [Instr.Typed]⟩
  | refused none => exact ⟨.refuses _ _ rfl none rfl rfl, by simp⟩
  | @entered h params f d hmap hd hopen hop =>
      have hopened : Places none s (s.modify f openWindow) := .modify hB fun _ => rfl
      have hl : s.lookupOpenHandle h = some (f, d) :=
        (VfsState.lookupOpenHandle_some f).mpr ⟨hmap, hd, hopen⟩
      have hfile : ¬ ∀ r ∈ s.lookupOpenHandle h, r.2.opType ≠ .fileOpen :=
        fun hnone => hnone (f, d) hl hop
      refine ⟨.places none (hopened.trans (.emit hopened.bounded rfl)) (.inr hfile)
        fun b => ?_, ?_⟩
      · rw [carried_cons, carried_cons]
        rfl
      · intro x hx
        rw [List.mem_singleton.mp hx]
        exact hi
  | @allocated h file ticket params m after s₁ known halloc =>
      have hfilled : (chainFill h params (newHandleData (s.idFor FL_VFS_HANDLE_INVALID)
          ⟨m, params.opType, false, false, FL_VFS_HANDLE_INVALID⟩)).copy = params.copy :=
        chainFill_copy hi rfl
      refine ⟨.places params.copy (.allocFill hB hfilled halloc) trivial fun b => ?_, ?_⟩
      · have hplaced : carried [Instr.chainRun h file ticket s.nextPtr after] b = 0 := rfl
        rw [carried_cons, hplaced, carried_nil]
        rfl
      · simp [Instr.Typed]
  | unwound => exact .quiet rfl (by simp) (.unwind hB)
  | blocked worker pending =>
      exact .quiet rfl (by simp [Instr.copy, Instr.Typed]) (.modify hB fun _ => rfl)
  | inlined worker done => exact .quiet rfl (by simp [Instr.copy, Instr.Typed]) (.addJob hB _)
  | @queued h file ticket p after main =>
      have hqueued := Places.addJob hB ⟨p, after, some (ticket, file), .queued⟩
      exact .quiet rfl (by simp [Instr.copy, Instr.Typed])
        (hqueued.trans (.setJobs hqueued.bounded))
  | ran finished => exact .quiet rfl (by simp [Instr.copy, Instr.Typed]) (.setJobs hB)
  | published => exact .quiet rfl (by simp) (.chainPublish hB)

theorem CloseExec.copies (hx : CloseExec s c t i s' new) (hB : s.Bounded) :
    BodyCopies i new s s' := by
  cases hx with
  | canceled hl => exact .quiet rfl (by simp) (.modify hB fun _ => rfl)
  | reclaimed => exact .quiet rfl (by simp [Instr.copy, Instr.Typed]) (.reclaim hB)
  | hook => exact .quiet rfl (by simp [Instr.copy, Instr.Typed]) (.emit hB rfl)
  | closed => exact .quiet rfl (by simp [Instr.copy, Instr.Typed]) (.closeFinish hB)
  | _ => exact .still hB rfl (by simp [Instr.copy, Instr.Typed])

theorem TeardownExec.copies (hx : TeardownExec s c i s' new) (hB : s.Bounded) :
    BodyCopies i new s s' := by
  cases hx with
  | unlisted | snapshot =>
      exact .quiet rfl (by simp [Instr.copy, Instr.Typed])
        (.same hB rfl rfl rfl ⟨[], rfl, by simp⟩)
  | freed => exact .quiet rfl (by simp [Instr.copy, Instr.Typed]) (.freeVictims _ hB)
  | destroyed | cleared =>
      exact .quiet rfl (by simp) (.same hB rfl rfl rfl ⟨[_], rfl, by simp [Event.ofBuffer]⟩)
  | _ => exact .still hB rfl (by simp [Instr.copy, Instr.Typed])

/-- Every body, whatever the callers do. -/
theorem body_copies (hB : s.Bounded) (hi : i.Typed)
    (hx : execBody s c t sched i = some (s', new)) : BodyCopies i new s s' := by
  cases execBody_some hx with
  | launch h => exact h.copies hB
  | mount h => exact h.copies hB
  | dispatch h => exact h.copies hB
  | chain h => exact h.copies hB hi
  | close h => exact h.copies hB
  | teardown h => exact h.copies hB

end Bodies

/-! ## Steps -/

structure CopyInv (s : VfsState) : Prop where
  bounded : s.Bounded
  typed : ∀ i ∈ s.frames, i.Typed
  made : ∀ b, .bufferAllocated b ∈ s.trace ↔ b < s.nextBuffer
  limit : ∀ b, places s b ≤ if b < s.nextBuffer then 1 else 0

/-- What a step does to the number of places of the copies. -/
inductive Accounts (s : VfsState) (a : Action) (s' : VfsState) : Prop
  | same (keeps : KeepsCopies s a) (buffer : s'.nextBuffer = s.nextBuffer)
      (total : ∀ b, places s' b = places s b)
  | made (keeps : KeepsCopies s a) (buffer : s'.nextBuffer = s.nextBuffer + 1)
      (total : ∀ b, places s' b = places s b + if b = s.nextBuffer then 1 else 0)
  | unplaced (refuses : ¬ KeepsCopies s a) (buffer : s'.nextBuffer = s.nextBuffer + 1)
      (total : ∀ b, places s' b = places s b)
  | lost (x : ℕ) (refuses : ¬ KeepsCopies s a) (dropped : 0 < carried s.frames x)
      (buffer : s'.nextBuffer = s.nextBuffer)
      (total : ∀ b, places s' b + (if b = x then 1 else 0) = places s b)

structure CopyStep (s : VfsState) (a : Action) (s' : VfsState) : Prop where
  accounts : Accounts s a s'
  inv : CopyInv s'
  ptr : s.nextPtr ≤ s'.nextPtr
  old : ∀ p < s.nextPtr, ∀ d', s'.pool p = some d' → ∃ d, s.pool p = some d ∧ d'.copy = d.copy
  fresh : ∀ p, s.nextPtr ≤ p → ∀ d', s'.pool p = some d' → ∀ b, d'.copy = some b →
    0 < carried s.frames b
  calls : ∀ b < s.nextBuffer, carried s'.frames b ≤ carried s.frames b

section Steps

variable {s s' : VfsState} {a : Action} {c : Option ℕ} {e : Event} {F new : List Instr}
  {i : Instr} {b : ℕ}

/-- The events of the lock are around a body. -/
theorem Places.of_emit (he : e.ofBuffer = false) (h : Places c (s.emit e) s') : Places c s s' := by
  have hfreed : ∀ b, freed (e :: s.trace) b = freed s.trace b := fun b => by
    have hquiet : ∀ e' ∈ [e], e'.ofBuffer = false := by simpa using he
    exact freed_append hquiet
  refine ⟨h.bounded, h.ptr, h.buffer, fun b => ?_, fun b => ?_, h.old, h.fresh⟩
  · have hquiet : ∀ e' ∈ [e], e'.ofBuffer = false := by simpa using he
    exact (h.made b).trans (made_append hquiet)
  · have hsum := h.sum b
    rw [VfsState.emit_trace, hfreed] at hsum
    exact hsum

theorem CopyInv.ofAccounts (hC : CopyInv s) (hA : Accounts s a s') (hB : s'.Bounded)
    (htyped : ∀ i ∈ s'.frames, i.Typed)
    (hmade : ∀ b, .bufferAllocated b ∈ s'.trace ↔ b < s'.nextBuffer) : CopyInv s' := by
  refine ⟨hB, htyped, hmade, fun b => ?_⟩
  have hlimit := hC.limit b
  cases hA with
  | same _ hbuffer htotal =>
      rw [hbuffer, htotal]
      exact hlimit
  | made _ hbuffer htotal =>
      rw [hbuffer, htotal]
      split_ifs at hlimit ⊢ <;> omega
  | unplaced _ hbuffer htotal =>
      rw [hbuffer, htotal]
      split_ifs at hlimit ⊢ <;> omega
  | lost x _ _ hbuffer htotal =>
      have hless := htotal b
      rw [hbuffer]
      omega

theorem Request.program_copies (request : Request) :
    ∀ x ∈ request.program, x.copy = none ∧ x.Typed := by
  intro x hx
  cases request with
  | read h size =>
      simp only [Request.program, vfsRead] at hx
      split_ifs at hx
      · cases hx
      · rw [List.mem_singleton.mp hx]
        simp [Instr.copy, Instr.Typed, VfsFileOpParams.copy]
  | writeNoCopy h buffer size =>
      simp only [Request.program, vfsWriteInternal] at hx
      split_ifs at hx
      · cases hx
      · rw [List.mem_singleton.mp hx]
        simp [Instr.copy, Instr.Typed, VfsFileOpParams.copy]
  | write h size =>
      simp only [Request.program, vfsWrite] at hx
      split_ifs at hx with hsize
      · cases hx
      · rw [List.mem_singleton.mp hx]
        exact ⟨rfl, Int.not_le.mp hsize⟩
  | dispatch h | cancel h | wait h =>
      simp only [Request.program] at hx
      split_ifs at hx
      · cases hx
      · rw [List.mem_singleton.mp hx]
        simp [Instr.copy, Instr.Typed]
  | close h =>
      simp only [Request.program, vfsClose] at hx
      split_ifs at hx
      · cases hx
      · simp only [List.mem_cons, List.not_mem_nil, or_false] at hx
        rcases hx with rfl | rfl <;> simp [Instr.copy, Instr.Typed]
  | destroy | waitAll =>
      simp only [Request.program, vfsWaitAll, List.mem_append, List.mem_cons, List.not_mem_nil,
        or_false] at hx
      rcases hx with (rfl | rfl) | rfl <;> simp [Instr.copy, Instr.Typed]
  | mountOpen | listing | openFile | readAll | prepare | update | mountClose =>
      simp only [Request.program, List.mem_singleton] at hx
      subst hx
      simp [Instr.copy, Instr.Typed]

theorem JobMove.copies {j : FlJobHandle} {k : Job} {d : VfsHandleData} {phase : JobPhase}
    {f : VfsHandleData → VfsHandleData} {es : List Event} (hm : JobMove s j k d phase f es)
    (hB : s.Bounded) : Places none s (afterMove s j k.target phase f es) := by
  have hf : ∀ d, (f d).copy = d.copy := by
    intro d
    cases hm <;> rfl
  have hes : ∀ e ∈ es, e.ofBuffer = false := by
    intro e he
    cases hm with
    | cancel | run =>
        rw [mem_callbackEvents he]
        rfl
    | begin | find | fail | store => simp at he
    | enter | leave | finish =>
        rw [List.mem_singleton.mp he]
        rfl
  have hwritten : Places none s (s.modify k.target f) := .modify hB hf
  exact hwritten.trans (.same hwritten.bounded rfl rfl rfl ⟨es, rfl, hes⟩)

theorem headInstr_at {n : ℕ} {t : Thread} {rest : List Instr}
    (hc : s.calls[n]? = some ⟨t, i :: rest⟩) : headInstr s n = some i := by
  simp [headInstr, hc]

/-- A step that makes no copy and loses none keeps their number. -/
theorem Places.accounts (h : Places c s s') (hkeeps : KeepsCopies s a)
    (hframes : ∀ b, carried s.frames b = carried s'.frames b + if c = some b then 1 else 0) :
    Accounts s a s' := by
  refine .same hkeeps h.buffer fun b => ?_
  have hsum := h.sum b
  have hcalls := hframes b
  unfold places
  omega

theorem CopyInv.ofPlaces (hC : CopyInv s) (h : Places c s s') (hA : Accounts s a s')
    (htyped : ∀ i ∈ s'.frames, i.Typed)
    (hcalls : ∀ b, carried s'.frames b + (if c = some b then 1 else 0) ≤ carried s.frames b) :
    CopyStep s a s' := by
  have hinv : CopyInv s' :=
    hC.ofAccounts hA h.bounded htyped fun b => by rw [h.made, hC.made, h.buffer]
  refine ⟨hA, hinv, h.ptr, h.old, ?_, fun b _ => Nat.le_of_add_right_le (hcalls b)⟩
  intro p hp d' hd' b hcopy
  have hless := hcalls b
  rcases h.fresh p hp d' hd' with hnone | hplaced
  · rw [hnone] at hcopy
    cases hcopy
  · rw [← hplaced, if_pos hcopy] at hless
    omega

/-- A refused write loses the copy it has made, if it has made one. -/
theorem Accounts.ofRefusal {copy : Option ℕ} (h : Places none s s')
    (hkeeps : KeepsCopies s a ↔ copy = none)
    (hframes : ∀ b, carried s.frames b = carried s'.frames b + if copy = some b then 1 else 0) :
    Accounts s a s' := by
  have hloses : ∀ b, places s' b + (if copy = some b then 1 else 0) = places s b := by
    intro b
    have hsum := h.sum b
    have hcalls := hframes b
    simp only [reduceCtorEq, if_false] at hsum
    unfold places
    omega
  cases copy with
  | none =>
      refine .same (hkeeps.mpr rfl) h.buffer fun b => ?_
      simpa using hloses b
  | some x =>
      refine .lost x (fun hk => ?_) ?_ h.buffer fun b => ?_
      · cases hkeeps.mp hk
      · rw [hframes, if_pos rfl]
        exact Nat.succ_pos _
      · simpa [eq_comm] using hloses b

/-- `vfs_write` makes a copy, and hands it down unless the file handle is no handle. -/
theorem Accounts.ofCopy {h : FlVfsHandle} (hbuffer : s'.nextBuffer = s.nextBuffer + 1)
    (hpool : s'.pool = s.pool) (hptr : s'.nextPtr = s.nextPtr)
    (htrace : s'.trace = .bufferAllocated s.nextBuffer :: s.trace)
    (hkeeps : KeepsCopies s a ↔ h ≠ FL_VFS_HANDLE_INVALID)
    (hframes : ∀ b, carried s'.frames b = carried s.frames b +
      if h ≠ FL_VFS_HANDLE_INVALID ∧ b = s.nextBuffer then 1 else 0) : Accounts s a s' := by
  have hgains : ∀ b, places s' b =
      places s b + if h ≠ FL_VFS_HANDLE_INVALID ∧ b = s.nextBuffer then 1 else 0 := by
    intro b
    have hfreed : freed s'.trace b = freed s.trace b := by
      unfold freed
      rw [htrace, List.count_cons_of_ne (by simp)]
    have hheld : held s' b = held s b := held_congr hpool hptr
    have hcalls := hframes b
    unfold places
    omega
  by_cases hvalid : h = FL_VFS_HANDLE_INVALID
  · refine .unplaced (fun hk => hkeeps.mp hk hvalid) hbuffer fun b => ?_
    rw [hgains, if_neg fun hb => hb.1 hvalid]
    rfl
  · refine .made (hkeeps.mpr hvalid) hbuffer fun b => ?_
    rw [hgains]
    simp [hvalid]

theorem carried_write {h : FlVfsHandle} {x : ℕ} {size : ℤ} (hsize : 0 < size) (b : ℕ) :
    carried (vfsWriteInternal h x size true) b =
      if h ≠ FL_VFS_HANDLE_INVALID ∧ b = x then 1 else 0 := by
  unfold vfsWriteInternal
  by_cases hvalid : h = FL_VFS_HANDLE_INVALID
  · simp [hvalid]
  · rw [if_neg fun hrefused => hrefused.elim hvalid (Int.not_le.mpr hsize), carried_cons]
    simp [Instr.copy, VfsFileOpParams.copy, hvalid, eq_comm]

theorem CopyInv.exec {n : ℕ} {sched : Sched} (hC : CopyInv s)
    (hstep : step s (.exec n sched) = some s') : CopyStep s (.exec n sched) s' := by
  obtain ⟨t, i, rest, s₁, new, hc, -, -, hx, rfl⟩ := step_exec hstep
  obtain ⟨F, hF, hF'⟩ := flatMap_set_todo new hc
  have hhead := headInstr_at hc
  have hkeeps : KeepsCopies s (.exec n sched) ↔ i.KeepsCopy s := by
    simp only [KeepsCopies, hhead, Option.mem_some_iff, forall_eq']
  have hbefore : ∀ b, carried s.frames b = carried [i] b + carried F b := fun b => by
    rw [← carried_append]
    exact carried_perm hF
  have hafter : ∀ b, carried (VfsState.frames { s₁ with
      calls := s.calls.set n ⟨t, new ++ rest⟩ }) b = carried new b + carried F b := fun b => by
    rw [← carried_append]
    exact carried_perm hF'
  have hcurrent : i.Typed := hC.typed i (hF.mem_iff.mpr List.mem_cons_self)
  obtain ⟨s₀, s₂, hbody, hlock⟩ := exec_body hx
  have hB₀ : s₀.Bounded := by
    rcases hlock with ⟨-, rfl, -⟩ | ⟨-, rfl, -⟩
    · exact hC.bounded
    · exact hC.bounded
  obtain ⟨heffect, hnew⟩ := body_copies hB₀ hcurrent hbody
  have htyped : ∀ x ∈ (s.calls.set n ⟨t, new ++ rest⟩).flatMap Call.todo, x.Typed := by
    intro x hx
    rcases List.mem_append.mp (hF'.mem_iff.mp hx) with hx | hx
    · exact hnew x hx
    · exact hC.typed x (hF.mem_iff.mpr (List.mem_cons_of_mem _ hx))
  cases heffect with
  | places c hplaces hkept hpasses =>
      have hall : Places c s s₁ := by
        rcases hlock with ⟨-, rfl, rfl⟩ | ⟨-, rfl, rfl⟩
        · exact (hplaces.of_emit rfl).trans (.emit hplaces.bounded rfl)
        · exact hplaces
      have hkept' : i.KeepsCopy s := by
        rcases hlock with ⟨-, rfl, -⟩ | ⟨-, rfl, -⟩
        · exact hkept.emit
        · exact hkept
      have hset : Places c s { s₁ with calls := s.calls.set n ⟨t, new ++ rest⟩ } :=
        hall.trans (.same hall.bounded rfl rfl rfl ⟨[], rfl, by simp⟩)
      have hA : Accounts s (.exec n sched) _ := hset.accounts (hkeeps.mpr hkept') fun b => by
        rw [hbefore, hafter, hpasses]
        omega
      refine hC.ofPlaces hset hA htyped fun b => ?_
      rw [hbefore, hafter, hpasses]
      omega
  | copies h size hpoint hnext hmade =>
      subst hpoint hnext hmade
      obtain ⟨-, rfl, rfl⟩ := hlock.resolve_left fun hlocked => Bool.noConfusion hlocked.1
      have hA : Accounts s₀ (.exec n sched) { ({ s₀ with nextBuffer := s₀.nextBuffer + 1 }.emit
          (.bufferAllocated s₀.nextBuffer)) with
            calls := s₀.calls.set n ⟨t, vfsWriteInternal h s₀.nextBuffer size true ++ rest⟩ } := by
        refine .ofCopy rfl rfl rfl rfl hkeeps fun b => ?_
        have hnone : carried [Instr.copyData h size] b = 0 := rfl
        rw [hafter, hbefore, carried_write hcurrent, hnone]
        omega
      refine ⟨hA, hC.ofAccounts hA hC.bounded htyped fun b => ?_, Nat.le_refl _,
        fun p _ d' hd' => ⟨d', hd', rfl⟩, fun p hp d' hd' => ?_, fun b hb => ?_⟩
      · simp only [VfsState.emit_trace, List.mem_cons, hC.made, Event.bufferAllocated.injEq]
        exact Nat.lt_succ_iff_lt_or_eq.trans or_comm |>.symm
      · exact absurd (hC.bounded p d' hd') (Nat.not_lt.mpr hp)
      · rw [hafter, hbefore, carried_write hcurrent, if_neg fun hnew => Nat.ne_of_lt hb hnew.2]
        omega
  | refuses h params hpoint hrefused hnext hsame =>
      subst hpoint hnext hsame
      obtain ⟨-, rfl, rfl⟩ := hlock.resolve_right fun hunlocked => Bool.noConfusion hunlocked.1
      have hset : Places none s { ((s.emit (.lock n)).emit (.unlock n)) with
          calls := s.calls.set n ⟨t, [] ++ rest⟩ } :=
        .same hC.bounded rfl rfl rfl ⟨[.unlock n, .lock n], rfl, by simp [Event.ofBuffer]⟩
      have hlost : KeepsCopies s (.exec n sched) ↔ params.copy = none :=
        hkeeps.trans (or_iff_left fun hopen => hopen hrefused)
      have hA : Accounts s (.exec n sched) _ := .ofRefusal hset hlost fun b => by
        have hpoint : carried [Instr.chain h params] b =
            if params.copy = some b then 1 else 0 := by
          rw [carried_cons, carried_nil]
          exact Nat.zero_add _
        rw [hbefore, hafter, hpoint, carried_nil]
        omega
      refine hC.ofPlaces hset hA htyped fun b => ?_
      rw [hbefore, hafter, carried_nil]
      exact Nat.add_le_add_right (Nat.zero_le _) _

/-- Every step, whatever the callers do. -/
theorem CopyInv.step (hC : CopyInv s) (hstep : step s a = some s') : CopyStep s a s' := by
  cases a with
  | exec n sched => exact hC.exec hstep
  | start t request =>
      simp only [FlowiVfs.step] at hstep
      split_ifs at hstep
      cases hstep
      have hset : Places none s { s with calls := s.calls ++ [⟨t, request.program⟩] } :=
        .same hC.bounded rfl rfl rfl ⟨[], rfl, by simp⟩
      have hframes : VfsState.frames { s with calls := s.calls ++ [⟨t, request.program⟩] } =
          s.frames ++ request.program := by
        simp [VfsState.frames]
      have hcalls : ∀ b, carried s.frames b = carried (s.frames ++ request.program) b + 0 :=
        fun b => by
          rw [carried_append, carried_none fun x hx => (request.program_copies x hx).1]
          rfl
      have hA : Accounts s (.start t request) _ := hset.accounts trivial fun b => by
        rw [hframes]
        exact hcalls b
      refine hC.ofPlaces hset hA (fun x hx => ?_) fun b => ?_
      · rw [hframes] at hx
        rcases List.mem_append.mp hx with hx | hx
        · exact hC.typed x hx
        · exact (request.program_copies x hx).2
      · rw [hframes]
        exact Nat.le_of_eq (hcalls b).symm
  | job j input =>
      simp only [FlowiVfs.step] at hstep
      split_ifs at hstep
      obtain ⟨k, d, phase, f, es, -, -, hm, rfl⟩ := jobStep_cases hstep
      have hset := hm.copies hC.bounded
      have hA : Accounts s (.job j input) _ := hset.accounts trivial fun _ => rfl
      exact hC.ofPlaces hset hA hC.typed fun _ => Nat.le_refl _

theorem copyInv_init : CopyInv .init := by
  refine ⟨?_, ?_, ?_, ?_⟩
  · intro p d hd
    cases hd
  · intro i hi
    simp [VfsState.init, VfsState.frames] at hi
  · intro b
    simp [VfsState.init]
  · intro b
    have hnone : places .init b = 0 := by
      unfold places held
      rw [show VfsState.init.nextPtr = 0 from rfl, Nat.count_zero]
      rfl
    rw [hnone]
    exact Nat.zero_le _

/-- Any step of any callers. -/
def Any (_ : VfsState) (_ : Action) : Prop := True

instance (s : VfsState) (a : Action) : Decidable (Any s a) := inferInstanceAs (Decidable True)

theorem copyInv_reaches {ok : VfsState → Action → Prop} (h : Reaches FlowiVfs.step ok .init s) :
    CopyInv s :=
  h.invariant copyInv_init fun _ _ _ hC _ hstep => (hC.step hstep).inv

end Steps

/-! ## Runs -/

/-- The program points at which a write is refused. -/
def Instr.RefusesWrite (s : VfsState) : Instr → Prop
  | .copyData h _ => h = FL_VFS_HANDLE_INVALID
  | .chain h params =>
      params.opType = .fileWrite ∧ ∀ r ∈ s.lookupOpenHandle h, r.2.opType ≠ .fileOpen
  | _ => False

/-- A step at which a write returns `FL_VFS_HANDLE_INVALID`. -/
def RefusesWrite (s : VfsState) : Action → Prop
  | .start _ (.write h size) => (Request.write h size).program = []
  | .start _ (.writeNoCopy h buffer size) => (Request.writeNoCopy h buffer size).program = []
  | .exec n _ => ∃ i ∈ headInstr s n, i.RefusesWrite s
  | _ => False

/-- A copy that has been made and not freed. -/
def VfsState.Live (s : VfsState) (b : ℕ) : Prop :=
  .bufferAllocated b ∈ s.trace ∧ .bufferFreed b ∉ s.trace

/-- A refusal leaves the handles and the copies as they were. -/
structure Untouched (s s' : VfsState) : Prop where
  handleMap : s'.handleMap = s.handleMap
  pool : s'.pool = s.pool
  live : ∀ b, s'.Live b ↔ s.Live b

/-- What holds of the memory of writes. -/
structure WritesSound (s : VfsState) : Prop where
  /-- A copy is in the hands of one call, of one handle, or has been freed once. -/
  once : ∀ b, .bufferAllocated b ∈ s.trace → places s b = 1
  /-- From now on it is freed exactly when the handle that owns it is. -/
  withHandle : ∀ p d b s', s.pool p = some d → d.copy = some b → Reaches step Any s s' →
    freed s'.trace b = if (s'.pool p).isSome then 0 else 1
  /-- Nothing is freed but copies. -/
  lent : ∀ b, .bufferFreed b ∈ s.trace → .bufferAllocated b ∈ s.trace
  refused : ∀ a s', RefusesWrite s a → KeepsCopies s a → step s a = some s' → Untouched s s'

section Runs

variable {s s' : VfsState} {a : Action} {p q : HandlePtr} {d e : VfsHandleData} {b : ℕ}

theorem held_pos (hB : s.Bounded) (hd : s.pool p = some d) (hcopy : d.copy = some b) :
    0 < held s b := by
  unfold held
  rw [Nat.count_eq_card_filter_range]
  refine Finset.card_pos.mpr ⟨p, ?_⟩
  rw [Finset.mem_filter, Finset.mem_range]
  exact ⟨hB p d hd, by rw [VfsState.copyAt, hd, Option.bind_some, hcopy]⟩

theorem held_unique (hB : s.Bounded) (hone : held s b ≤ 1) (hd : s.pool p = some d)
    (hcopy : d.copy = some b) (he : s.pool q = some e) (hcopy' : e.copy = some b) : q = p := by
  unfold held at hone
  rw [Nat.count_eq_card_filter_range] at hone
  refine Finset.card_le_one.mp hone q ?_ p ?_
  · rw [Finset.mem_filter, Finset.mem_range]
    exact ⟨hB q e he, by rw [VfsState.copyAt, he, Option.bind_some, hcopy']⟩
  · rw [Finset.mem_filter, Finset.mem_range]
    exact ⟨hB p d hd, by rw [VfsState.copyAt, hd, Option.bind_some, hcopy]⟩

theorem held_none (h : ∀ q e, s.pool q = some e → e.copy ≠ some b) : held s b = 0 := by
  unfold held
  rw [Nat.count_eq_card_filter_range, Finset.card_eq_zero, Finset.filter_eq_empty_iff]
  intro q _ hcopy
  obtain ⟨e, he, hcopy'⟩ := Option.bind_eq_some_iff.mp hcopy
  exact h q e he hcopy'

/-- The copy `b` belongs to the handle `p`, which may have been freed. -/
structure Belongs (s : VfsState) (p : HandlePtr) (b : ℕ) : Prop where
  made : b < s.nextBuffer
  one : places s b = 1
  born : p < s.nextPtr
  placed : carried s.frames b = 0
  copy : ∀ d, s.pool p = some d → d.copy = some b
  alone : ∀ q e, s.pool q = some e → e.copy = some b → q = p

theorem Belongs.freed (hC : CopyInv s) (h : Belongs s p b) :
    freed s.trace b = if (s.pool p).isSome then 0 else 1 := by
  have hone := h.one
  have hplaced := h.placed
  unfold places at hone
  cases hd : s.pool p with
  | none =>
      have hheld : held s b = 0 := held_none fun q e he hcopy => by
        have hq := h.alone q e he hcopy
        rw [hq, hd] at he
        cases he
      simp only [Option.isSome_none, Bool.false_eq_true, if_false]
      omega
  | some d =>
      have hheld := held_pos hC.bounded hd (h.copy d hd)
      simp only [Option.isSome_some, if_true]
      omega

/-- A copy that a handle owns is not lost any more. -/
theorem Belongs.step (hC : CopyInv s) (h : Belongs s p b) (hstep : step s a = some s') :
    Belongs s' p b := by
  have hS := hC.step hstep
  have hlimit := hC.limit b
  have hplaced : carried s'.frames b = 0 :=
    Nat.le_zero.mp ((hS.calls b h.made).trans (Nat.le_of_eq h.placed))
  have hcopy : ∀ d, s'.pool p = some d → d.copy = some b := by
    intro d' hd'
    obtain ⟨d, hd, hsame⟩ := hS.old p h.born d' hd'
    exact hsame.trans (h.copy d hd)
  have halone : ∀ q e, s'.pool q = some e → e.copy = some b → q = p := by
    intro q e' he' hcopy'
    by_cases hq : q < s.nextPtr
    · obtain ⟨e, he, hsame⟩ := hS.old q hq e' he'
      exact h.alone q e he (hsame.symm.trans hcopy')
    · have hpos := hS.fresh q (Nat.not_lt.mp hq) e' he' b hcopy'
      rw [h.placed] at hpos
      exact absurd hpos (Nat.lt_irrefl 0)
  refine ⟨?_, ?_, Nat.lt_of_lt_of_le h.born hS.ptr, hplaced, hcopy, halone⟩
  · have hbuffer : s.nextBuffer ≤ s'.nextBuffer := by
      cases hS.accounts with
      | same _ hbuffer | lost _ _ _ hbuffer => exact Nat.le_of_eq hbuffer.symm
      | made _ hbuffer | unplaced _ hbuffer => exact hbuffer ▸ Nat.le_succ _
    exact Nat.lt_of_lt_of_le h.made hbuffer
  · cases hS.accounts with
    | same _ _ htotal | unplaced _ _ htotal => rw [htotal, h.one]
    | made _ _ htotal => rw [htotal, h.one, if_neg (Nat.ne_of_lt h.made)]
    | lost x _ hdropped _ htotal =>
        have hother : b ≠ x := by
          rintro rfl
          rw [h.placed] at hdropped
          exact Nat.lt_irrefl 0 hdropped
        have hsum := htotal b
        rw [if_neg hother, h.one] at hsum
        exact hsum

theorem belongs_reaches {ok : VfsState → Action → Prop} (hC : CopyInv s) (h : Belongs s p b)
    (hrun : Reaches step ok s s') : CopyInv s' ∧ Belongs s' p b :=
  hrun.invariant (P := fun s => CopyInv s ∧ Belongs s p b) ⟨hC, h⟩
    fun _ _ _ hP _ hstep => ⟨(hP.1.step hstep).inv, hP.2.step hP.1 hstep⟩

/-- A copy that is in one place belongs to the handle that owns it. -/
theorem CopyInv.belongs (hC : CopyInv s) (hone : places s b = 1) (hd : s.pool p = some d)
    (hcopy : d.copy = some b) : Belongs s p b := by
  have hheld := held_pos hC.bounded hd hcopy
  have hlimit := hC.limit b
  have hmade : b < s.nextBuffer := by
    split_ifs at hlimit with hmade
    · exact hmade
    · omega
  unfold places at hone
  refine ⟨hmade, hone, hC.bounded p d hd, by omega, fun e he => ?_, fun q e he hcopy' => ?_⟩
  · rw [hd] at he
    cases he
    exact hcopy
  · exact held_unique hC.bounded (by omega) hd hcopy he hcopy'

/-- Along runs that keep copies every copy is in one place. -/
theorem once_reaches (h : Reaches step KeepsCopies .init s) :
    ∀ b < s.nextBuffer, places s b = 1 := by
  refine h.invariant_of (I := CopyInv) (fun s h => copyInv_reaches h)
    (P := fun s => ∀ b < s.nextBuffer, places s b = 1) (fun b hb => ?_) ?_
  · cases hb
  · intro t a u hC _ hP hkeeps hstep b hb
    cases (hC.step hstep).accounts with
    | same _ hbuffer htotal =>
        rw [htotal]
        exact hP b (hbuffer ▸ hb)
    | made _ hbuffer htotal =>
        have hlimit := hC.limit b
        rw [htotal]
        by_cases hnew : b = t.nextBuffer
        · rw [if_neg (by omega)] at hlimit
          rw [if_pos hnew]
          omega
        · rw [if_neg hnew, hP b (by omega)]
    | unplaced hrefuses | lost _ hrefuses => exact absurd hkeeps hrefuses

/-- A run keeps its copies, or one of them is nowhere. -/
theorem keeps_or_lost (h : Reaches step Any .init s) :
    Reaches step KeepsCopies .init s ∨ ∃ b < s.nextBuffer, places s b = 0 := by
  refine h.invariant_of (I := CopyInv) (fun s h => copyInv_reaches h)
    (P := fun s => Reaches step KeepsCopies .init s ∨ ∃ b < s.nextBuffer, places s b = 0)
    (.inl .start) ?_
  intro t a u hC _ hP _ hstep
  rcases hP with hrun | ⟨b, hb, hnone⟩
  · cases (hC.step hstep).accounts with
    | same hkeeps | made hkeeps => exact .inl (.step a hrun hkeeps hstep)
    | unplaced _ hbuffer htotal =>
        refine .inr ⟨t.nextBuffer, by omega, ?_⟩
        have hlimit := hC.limit t.nextBuffer
        rw [if_neg (Nat.lt_irrefl _)] at hlimit
        rw [htotal]
        exact Nat.le_zero.mp hlimit
    | lost x _ hdropped hbuffer htotal =>
        have hlimit := hC.limit x
        have hsum := htotal x
        have hpos : 0 < places t x := by
          unfold places
          omega
        rw [if_pos rfl] at hsum
        split_ifs at hlimit with hx
        · exact .inr ⟨x, hbuffer ▸ hx, by omega⟩
        · omega
  · refine .inr ⟨b, ?_, ?_⟩
    · cases (hC.step hstep).accounts with
      | same _ hbuffer | lost _ _ _ hbuffer => exact hbuffer ▸ hb
      | made _ hbuffer | unplaced _ hbuffer => exact hbuffer ▸ Nat.lt_succ_of_lt hb
    · cases (hC.step hstep).accounts with
      | same _ _ htotal | unplaced _ _ htotal => rw [htotal, hnone]
      | made _ _ htotal => rw [htotal, hnone, if_neg (Nat.ne_of_lt hb)]
      | lost x _ _ _ htotal =>
          have hsum := htotal b
          omega

/-- A file operation that finds no open file ends its call there. -/
theorem chain_refused {n : ℕ} {t : Thread} {sched : Sched} {h : FlVfsHandle}
    {params : VfsFileOpParams} {new : List Instr}
    (hnone : ∀ r ∈ s.lookupOpenHandle h, r.2.opType ≠ .fileOpen)
    (hx : execBody s n t sched (.chain h params) = some (s', new)) : s' = s ∧ new = [] := by
  cases chain_exec hx with
  | refused => exact ⟨rfl, rfl⟩
  | @entered _ _ f d hmap hd hopen hop =>
      have hl := (VfsState.lookupOpenHandle_some f).mpr ⟨hmap, hd, hopen⟩
      exact absurd hop (hnone (f, d) hl)

theorem refused_untouched (hrefuses : RefusesWrite s a) (hkeeps : KeepsCopies s a)
    (hstep : step s a = some s') : Untouched s s' := by
  cases a with
  | start t request =>
      simp only [FlowiVfs.step] at hstep
      split_ifs at hstep
      cases hstep
      exact ⟨rfl, rfl, fun _ => Iff.rfl⟩
  | job j input => cases hrefuses
  | exec n sched =>
      obtain ⟨t, i, rest, s₁, new, hc, -, -, hx, rfl⟩ := step_exec hstep
      have hhead := headInstr_at hc
      obtain ⟨i', hi', hrefused⟩ := hrefuses
      have hkept := hkeeps i' hi'
      rw [hhead] at hi'
      cases hi'
      obtain ⟨s₀, s₂, hbody, hlock⟩ := exec_body hx
      cases i with
      | copyData h size => exact absurd hrefused hkept
      | chain h params =>
          obtain ⟨-, rfl, rfl⟩ := hlock.resolve_right fun hunlocked => Bool.noConfusion hunlocked.1
          have hnone : ∀ r ∈ (s.emit (.lock n)).lookupOpenHandle h, r.2.opType ≠ .fileOpen :=
            hrefused.2
          obtain ⟨rfl, -⟩ := chain_refused hnone hbody
          refine ⟨rfl, rfl, fun b => ?_⟩
          simp [VfsState.Live]
      | _ => cases hrefused

/-- In every reachable state the memory of writes is sound exactly if no write on the way was
refused after it had made its copy. -/
theorem writes_sound_iff (h : Reaches step Any .init s) :
    WritesSound s ↔ Reaches step KeepsCopies .init s := by
  have hC := copyInv_reaches h
  constructor
  · intro hW
    rcases keeps_or_lost h with hrun | ⟨b, hb, hnone⟩
    · exact hrun
    · have hone := hW.once b ((hC.made b).mpr hb)
      omega
  · intro hrun
    have honce : ∀ b < s.nextBuffer, places s b = 1 := once_reaches hrun
    refine ⟨fun b hb => honce b ((hC.made b).mp hb), ?_, ?_, fun a s' => refused_untouched⟩
    · intro p d b s' hd hcopy hrun'
      have hheld := held_pos hC.bounded hd hcopy
      have hlimit := hC.limit b
      have hmade : b < s.nextBuffer := by
        unfold places at hlimit
        split_ifs at hlimit with hmade
        · exact hmade
        · omega
      obtain ⟨hC', hbelongs⟩ := belongs_reaches hC (hC.belongs (honce b hmade) hd hcopy) hrun'
      exact hbelongs.freed hC'
    · intro b hfreed
      have hpos : 0 < freed s.trace b := List.count_pos_iff.mpr hfreed
      have hlimit := hC.limit b
      refine (hC.made b).mpr ?_
      unfold places at hlimit
      split_ifs at hlimit with hmade
      · exact hmade
      · omega

/-- A file is opened and written to, and the write closed. -/
theorem writes_sound_closed_write : ∃ s, WritesSound s ∧ .bufferAllocated 0 ∈ s.trace ∧
    freed s.trace 0 = 1 := by
  let actions := openFileScript ++ [.start .main (.write 2 3)] ++ callSteps 2 5 ++
    [.job 3 (.bytes 3)] ++ chainedRuns 3 3 ++ [.start .main (.close 3)] ++ callSteps 3 7
  have hrun : ((replay step KeepsCopies actions .init).map fun s =>
      (decide (.bufferAllocated 0 ∈ s.trace), freed s.trace 0)) = some (true, 1) := by
    decide +kernel
  obtain ⟨s, hs, hfacts⟩ := Option.map_eq_some_iff.mp hrun
  simp only [Prod.mk.injEq, decide_eq_true_eq] at hfacts
  have hreach := replay_reaches actions hs
  exact ⟨s, (writes_sound_iff (hreach.mono fun _ _ _ => trivial)).mpr hreach, hfacts⟩

/-- The copy of a write to a handle that does not exist is never freed. -/
theorem refused_write_leaks : ∃ s, Reaches step Careful .init s ∧
    s.calls = [⟨.main, []⟩] ∧ s.Live 0 ∧ s.handleMap.keys = [] ∧ ¬ WritesSound s := by
  let actions := [.start .main (.write 7 3)] ++ callSteps 0 2
  have hrun : ((replay step Careful actions .init).map fun s =>
      (s.calls, s.trace, s.handleMap.keys, places s 0)) =
        some ([⟨.main, []⟩], [.unlock 0, .lock 0, .bufferAllocated 0], [], 0) := by
    decide +kernel
  obtain ⟨s, hs, hfacts⟩ := Option.map_eq_some_iff.mp hrun
  simp only [Prod.mk.injEq] at hfacts
  obtain ⟨hcalls, htrace, hmap, hnone⟩ := hfacts
  have hmade : .bufferAllocated 0 ∈ s.trace := by
    rw [htrace]
    decide
  refine ⟨s, replay_reaches actions hs, hcalls, ⟨hmade, ?_⟩, hmap, fun hW => ?_⟩
  · rw [htrace]
    decide
  · have hone := hW.once 0 hmade
    omega

end Runs

end FlowiVfs
