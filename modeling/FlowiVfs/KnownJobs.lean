import FlowiVfs.JobWaits
import FlowiVfs.MountTeardown

/-!
# The jobs and mounts that the handle system refers to

Handles, mounts, jobs and calls in progress hold job handles. Each of them is 0 or that of a job
that was handed to the job system; what a call waits for is always a job, and a job waits only
for an earlier one. So no wait is for a job that is not there, and no two jobs wait for each
other. And the mount of a handle is open, or being opened by the call that owns the handle.

`Bookkeeping` is what a step does to all these references.
-/
namespace FlowiVfs

open Transition

def VfsState.HasJob (s : VfsState) (j : FlJobHandle) : Prop := ∃ k, s.jobs j = some k

/-- A job handle that a handle or a mount holds. -/
inductive VfsState.Mentions (s : VfsState) : FlJobHandle → Prop
  | none : s.Mentions 0
  | handle (p : HandlePtr) (d : VfsHandleData) (live : s.pool p = some d) : s.Mentions d.jobHandle
  | last (p : HandlePtr) (d : VfsHandleData) (live : s.pool p = some d) : s.Mentions d.lastJob
  | mount (m : MountPtr) (mount : FlVfsMount) (opened : s.mounts m = some mount) :
      s.Mentions mount.jobHandle

namespace Instr

/-- The jobs that a call waits for. -/
def awaits : Instr → List FlJobHandle
  | .inlineOp _ j _ | .mountInline _ _ j | .dispatchInline _ _ j _ | .chainInline _ _ _ j => [j]
  | .waitJobs jobs => jobs
  | _ => []

/-- The job that a call has to record, or to chain its operation after. -/
def records : Instr → FlJobHandle
  | .inlineOp _ _ r | .dispatchInline _ _ _ r | .dispatchRecord _ _ r | .mountPublish _ _ r => r
  | .chainAlloc _ _ _ _ _ after | .chainRun _ _ _ _ after => after
  | _ => 0

/-- The file that a call is chaining an operation onto, and the mount that it takes it to be on. -/
def chainsOn : Instr → Option (HandlePtr × MountPtr)
  | .chainAlloc _ file _ _ m _ => some (file, m)
  | _ => none

end Instr

/-- A job handle that a step of a call at `i` may come by. -/
def Learns (i : Instr) (s s' : VfsState) (j : FlJobHandle) : Prop :=
  s.Mentions j ∨ j = i.records ∨ s'.HasJob j

/-- What a step of a call at `i` leaves for point `x` of the call. -/
structure Instr.Hands (i : Instr) (s s' : VfsState) (x : Instr) : Prop where
  records : Learns i s s' x.records
  awaits : ∀ j ∈ x.awaits, j ∈ i.awaits ∨ s'.HasJob j ∨ (j ≠ 0 ∧ s.Mentions j)
  chains : ∀ f m, x.chainsOn = some (f, m) → ∃ d, s.pool f = some d ∧ d.mount = m

/-- Handle `d'` refers to what `d` refers to. -/
def SameRefs (d d' : VfsHandleData) : Prop :=
  d'.mount = d.mount ∧ d'.jobHandle = d.jobHandle ∧ d'.lastJob = d.lastJob

structure Bookkeeping (i : Instr) (new : List Instr) (s s' : VfsState) : Prop where
  added : ∀ j k, s'.jobs j = some k → s.jobs j = some k ∨
    (j = s.nextJob ∧ (s.Mentions k.dependency ∨ k.dependency = i.records))
  mentions : ∀ j, s'.Mentions j → Learns i s s' j
  points : ∀ x ∈ new, i.Hands s s' x
  mounts : ∀ m, (s.mounts m).isSome → (s'.mounts m).isSome ∨ i = .mountDestroy m
  handles : ∀ p d', s'.pool p = some d' → (∃ d, s.pool p = some d ∧ d'.mount = d.mount) ∨
    (s.nextPtr ≤ p ∧ ((s'.mounts d'.mount).isSome ∨
      ∃ x ∈ new, x.opens = some d'.mount ∧ x.owns = some p))
  opens : ∀ m p, i.opens = some m → i.owns = some p → (s'.mounts m).isSome ∨
    ∃ x ∈ new, x.opens = some m ∧ x.owns = some p

section Bookkeeping

variable {s s' s₀ s₁ : VfsState} {F new : List Instr} {i x : Instr} {p q : HandlePtr}
  {d : VfsHandleData} {h : FlVfsHandle} {c : ℕ} {t : Thread} {sched : Sched} {j : FlJobHandle}
  {k : Job} {f : VfsHandleData → VfsHandleData} {m : MountPtr} {params : VfsOpParams}

theorem SameRefs.refl (d : VfsHandleData) : SameRefs d d := ⟨rfl, rfl, rfl⟩

/-- A point at which a call refers to no job and no file. -/
theorem Instr.Hands.free (records : x.records = 0) (awaits : x.awaits = [])
    (chains : x.chainsOn = none) : i.Hands s s' x where
  records := .inl (records ▸ .none)
  awaits j hj := by
    rw [awaits] at hj
    cases hj
  chains f m hx := by
    rw [chains] at hx
    cases hx

/-- A call goes on with the jobs that it had. -/
theorem Instr.Hands.keeps (records : x.records = i.records) (awaits : x.awaits = [])
    (chains : x.chainsOn = none) : i.Hands s s' x where
  records := .inr (.inl records)
  awaits j hj := by
    rw [awaits] at hj
    cases hj
  chains f m hx := by
    rw [chains] at hx
    cases hx

/-- The job handles of a handle are written. -/
theorem Bookkeeping.write (hadded : ∀ j k, s'.jobs j = some k → s.jobs j = some k ∨
      (j = s.nextJob ∧ (s.Mentions k.dependency ∨ k.dependency = i.records)))
    (hpool : ∀ p d', s'.pool p = some d' → ∃ d, s.pool p = some d ∧ d'.mount = d.mount ∧
      Learns i s s' d'.jobHandle ∧ Learns i s s' d'.lastJob)
    (hmounts : s'.mounts = s.mounts)
    (hopens : ∀ m p, i.opens = some m → i.owns = some p →
      ∃ x ∈ new, x.opens = some m ∧ x.owns = some p)
    (hnew : ∀ x ∈ new, i.Hands s s' x) : Bookkeeping i new s s' where
  added := hadded
  mentions j hj := by
    cases hj with
    | none => exact .inl .none
    | handle p d' hd' =>
        obtain ⟨d, -, -, hjob, -⟩ := hpool p d' hd'
        exact hjob
    | last p d' hd' =>
        obtain ⟨d, -, -, -, hlast⟩ := hpool p d' hd'
        exact hlast
    | mount m mount hm => exact .inl (.mount m mount (hmounts ▸ hm))
  points := hnew
  mounts m hm := .inl (hmounts ▸ hm)
  handles p d' hd' := by
    obtain ⟨d, hd, hmount, -⟩ := hpool p d' hd'
    exact .inl ⟨d, hd, hmount⟩
  opens m p hm hp := .inr (hopens m p hm hp)

/-- The references of the handles stay what they were. -/
theorem Bookkeeping.same
    (hpool : ∀ p d', s'.pool p = some d' → ∃ d, s.pool p = some d ∧ SameRefs d d')
    (hjobs : s'.jobs = s.jobs) (hmounts : s'.mounts = s.mounts) (hopens : i.opens = none)
    (hnew : ∀ x ∈ new, i.Hands s s' x) : Bookkeeping i new s s' := by
  refine .write (fun j k hj => .inl (hjobs ▸ hj)) (fun p d' hd' => ?_)
    hmounts (fun m p hm => ?_) hnew
  · obtain ⟨d, hd, hmount, hjob, hlast⟩ := hpool p d' hd'
    exact ⟨d, hd, hmount, .inl (hjob ▸ .handle p d hd), .inl (hlast ▸ .last p d hd)⟩
  · rw [hopens] at hm
    cases hm

theorem Bookkeeping.idle (hopens : i.opens = none) (hnew : ∀ x ∈ new, i.Hands s s x) :
    Bookkeeping i new s s :=
  .same (fun _ d hd => ⟨d, hd, .refl d⟩) rfl rfl hopens hnew

theorem modify_refs (hf : ∀ d, SameRefs d (f d)) :
    ∀ q d', (s.modify p f).pool q = some d' → ∃ d, s.pool q = some d ∧ SameRefs d d' := by
  intro q d' hd'
  rcases modify_some hd' with ⟨rfl, d, hd, rfl⟩ | ⟨-, hd⟩
  · exact ⟨d, hd, hf d⟩
  · exact ⟨d', hd, .refl d'⟩

/-- Fields other than the references are written. -/
theorem Bookkeeping.touch (hf : ∀ d, SameRefs d (f d)) (hopens : i.opens = none)
    (hnew : ∀ x ∈ new, i.Hands s (s.modify p f) x) : Bookkeeping i new s (s.modify p f) :=
  .same (modify_refs hf) rfl rfl hopens hnew

theorem Bookkeeping.sweep (h : Sweep s s') (hopens : i.opens = none)
    (hnew : ∀ x ∈ new, i.Hands s s' x) : Bookkeeping i new s s' :=
  .same (fun q d hd => ⟨d, (h.kept q d hd).1, .refl d⟩) h.jobs h.mounts hopens hnew

/-- The job handle of an operation is written. -/
theorem Bookkeeping.record (hjob : Learns i s s' j) (hjobs : s'.jobs = s.jobs)
    (hpool : s'.pool = (s.modify p f).pool) (hmounts : s'.mounts = s.mounts)
    (hf : ∀ d, (f d).mount = d.mount ∧ (f d).jobHandle = j ∧ (f d).lastJob = j)
    (hopens : ∀ m p, i.opens = some m → i.owns = some p →
      ∃ x ∈ new, x.opens = some m ∧ x.owns = some p)
    (hnew : ∀ x ∈ new, i.Hands s s' x) : Bookkeeping i new s s' := by
  refine .write (fun j k hj => .inl (hjobs ▸ hj)) (fun q d' hd' => ?_) hmounts hopens hnew
  rw [hpool] at hd'
  rcases modify_some hd' with ⟨rfl, d, hd, rfl⟩ | ⟨-, hd⟩
  · obtain ⟨hmount, hhandle, hlast⟩ := hf d
    exact ⟨d, hd, hmount, hhandle ▸ hjob, hlast ▸ hjob⟩
  · exact ⟨d', hd, rfl, .inl (.handle q d' hd), .inl (.last q d' hd)⟩

/-- A new job, and perhaps its handle written to an operation. -/
theorem Bookkeeping.launch (hdep : s.Mentions k.dependency ∨ k.dependency = i.records)
    (hjobs : s'.jobs = (s.addJob k).jobs)
    (hpool : ∀ q d', s'.pool q = some d' → ∃ d, s.pool q = some d ∧
      (SameRefs d d' ∨ (d'.mount = d.mount ∧ d'.jobHandle = s.nextJob ∧ d'.lastJob = s.nextJob)))
    (hmounts : s'.mounts = s.mounts)
    (hopens : ∀ m p, i.opens = some m → i.owns = some p →
      ∃ x ∈ new, x.opens = some m ∧ x.owns = some p)
    (hnew : ∀ x ∈ new, i.Hands s s' x) : Bookkeeping i new s s' := by
  have hnewest : s'.HasJob s.nextJob := ⟨k, hjobs ▸ VfsState.addJob_newest⟩
  refine .write (fun j k' hj => ?_) (fun q d' hd' => ?_) hmounts hopens hnew
  · rw [hjobs] at hj
    rcases VfsState.addJob_some hj with ⟨hlast, rfl⟩ | hj
    · exact .inr ⟨hlast, hdep⟩
    · exact .inl hj
  · obtain ⟨d, hd, ⟨hmount, hjob, hlast⟩ | ⟨hmount, hjob, hlast⟩⟩ := hpool q d' hd'
    · exact ⟨d, hd, hmount, .inl (hjob ▸ .handle q d hd), .inl (hlast ▸ .last q d hd)⟩
    · exact ⟨d, hd, hmount, .inr (.inr (hjob ▸ hnewest)), .inr (.inr (hlast ▸ hnewest))⟩

/-- A new handle refers to no job. -/
theorem Bookkeeping.born (halloc : allocateHandle s₀ params = some (p, s₁))
    (hs₀ : s₀.pool = s.pool ∧ s₀.jobs = s.jobs ∧ s₀.nextPtr = s.nextPtr ∧ s₀.mounts = s.mounts)
    (hpool : ∀ q d', s'.pool q = some d' → ∃ d, s₁.pool q = some d ∧ SameRefs d d')
    (hjobs : s'.jobs = s₁.jobs) (hmounts : s'.mounts = s₁.mounts) (hopens : i.opens = none)
    (hmount : (s.mounts params.mount).isSome ∨
      ∃ x ∈ new, x.opens = some params.mount ∧ x.owns = some p)
    (hnew : ∀ x ∈ new, i.Hands s s' x) : Bookkeeping i new s s' := by
  obtain ⟨rfl, -, hpool₁, -, -, hjobs₁, -, -, -, -, -, hmounts₁, -⟩ := allocateHandle_some halloc
  obtain ⟨h₁, h₂, h₃, h₄⟩ := hs₀
  have hback : ∀ q d', s'.pool q = some d' →
      (q = s₀.nextPtr ∧ d'.mount = params.mount ∧ d'.jobHandle = 0 ∧ d'.lastJob = 0) ∨
        ∃ d, s.pool q = some d ∧ SameRefs d d' := by
    intro q d' hd'
    obtain ⟨d, hd, hsame⟩ := hpool q d' hd'
    rw [hpool₁, Function.update_apply, h₁] at hd
    split_ifs at hd with hq
    · cases hd
      exact .inl ⟨hq, hsame⟩
    · exact .inr ⟨d, hd, hsame⟩
  have hsame : s'.mounts = s.mounts := (hmounts.trans hmounts₁).trans h₄
  refine ⟨fun j k hj => .inl ?_, fun j hj => .inl ?_, hnew, fun m hm => .inl (hsame ▸ hm),
    fun q d' hd' => ?_, fun m q hm => ?_⟩
  · rwa [hjobs, hjobs₁, h₂] at hj
  · cases hj with
    | none => exact .none
    | handle q d' hd' =>
        rcases hback q d' hd' with ⟨-, -, hjob, -⟩ | ⟨d, hd, -, hjob, -⟩
        · exact hjob ▸ .none
        · exact hjob ▸ .handle q d hd
    | last q d' hd' =>
        rcases hback q d' hd' with ⟨-, -, -, hlast⟩ | ⟨d, hd, -, -, hlast⟩
        · exact hlast ▸ .none
        · exact hlast ▸ .last q d hd
    | mount m mount hm => exact .mount m mount (hsame ▸ hm)
  · rcases hback q d' hd' with ⟨rfl, hd, -⟩ | ⟨d, hd, hold, -⟩
    · exact .inr ⟨Nat.le_of_eq h₃.symm, hd ▸ hsame ▸ hmount⟩
    · exact .inl ⟨d, hd, hold⟩
  · rw [hopens] at hm
    cases hm

/-- A job waits for the mount's own job or for none. -/
theorem mountDependency_mentioned {ptr : MountPtr} {mount : FlVfsMount}
    (hm : s.mounts ptr = some mount) : s.Mentions (mountDependency s mount) := by
  unfold mountDependency
  split_ifs
  · exact .mount ptr mount hm
  · exact .none

/-- The handle whose job has just been made gets that job. -/
theorem setJobs_refs : ∀ q d', (s.modify p (setJobs s.nextJob)).pool q = some d' →
    ∃ d, s.pool q = some d ∧ (SameRefs d d' ∨
      (d'.mount = d.mount ∧ d'.jobHandle = s.nextJob ∧ d'.lastJob = s.nextJob)) := by
  intro q d' hd'
  rcases modify_some hd' with ⟨rfl, d, hd, rfl⟩ | ⟨-, hd⟩
  · exact ⟨d, hd, .inr ⟨rfl, rfl, rfl⟩⟩
  · exact ⟨d', hd, .inl (.refl d')⟩

theorem closeFinish_bookkeeping {borrows : Bool} (hI : Inv s F) (hopens : i.opens = none)
    (hnew : ∀ x ∈ new, i.Hands s (closeFinish s t h borrows).1 x) :
    Bookkeeping i new s (closeFinish s t h borrows).1 := by
  revert hnew
  unfold closeFinish
  split
  · exact fun hnew => .idle hopens hnew
  · rename_i p d hl
    obtain ⟨hmap, hd, -⟩ := (VfsState.lookupOpenHandle_some p).mp hl
    obtain ⟨d', hd', hid⟩ := hI.mapped h p hmap
    rw [hd] at hd'
    cases hd'
    split_ifs with hidle
    · intro hnew
      have hT : Table (s.emit (.closed p)) := (hI.emit (by simp) (by simp)).toTable
      have hsweep := Sweep.free .closed hT (p := p) hd (by rw [hid]; exact hmap)
        (idle_iff.mpr hidle)
      exact .same (fun q e he => ⟨e, (hsweep.kept q e he).1, .refl e⟩) hsweep.jobs hsweep.mounts
        hopens hnew
    · exact fun hnew => .idle hopens hnew
    · exact fun hnew => .idle hopens hnew
    · intro hnew
      exact .same (modify_refs fun _ => ⟨rfl, rfl, rfl⟩) rfl rfl hopens hnew

theorem mem_handleJobs (hj : j ∈ d.handleJobs) (hd : s.pool p = some d) :
    j ≠ 0 ∧ s.Mentions j := by
  unfold VfsHandleData.handleJobs vfsHandleJobs at hj
  rcases List.mem_append.mp hj with hj | hj
  · split_ifs at hj with hne
    · rw [List.mem_singleton.mp hj]
      exact ⟨hne, .handle p d hd⟩
    · cases hj
  · split_ifs at hj with hne
    · rw [List.mem_singleton.mp hj]
      exact ⟨hne.1, .last p d hd⟩
    · cases hj

/-- A wait for jobs of handles. -/
theorem Instr.Hands.waits {jobs : List FlJobHandle}
    (hjobs : ∀ j ∈ jobs, j ≠ 0 ∧ s.Mentions j) : i.Hands s s' (.waitJobs jobs) where
  records := .inl .none
  awaits j hj := .inr (.inr (hjobs j hj))
  chains f m hx := by cases hx

/-- A call waits for the job that it has just made. -/
theorem Instr.Hands.newest (hjobs : s'.jobs = (s.addJob k).jobs) (awaits : x.awaits = [s.nextJob])
    (records : x.records = 0 ∨ x.records = s.nextJob) (chains : x.chainsOn = none) :
    i.Hands s s' x := by
  have hnewest : s'.HasJob s.nextJob := ⟨k, hjobs ▸ VfsState.addJob_newest⟩
  refine ⟨?_, fun j hj => ?_, fun f m hx => ?_⟩
  · rcases records with hzero | hnew
    · exact .inl (hzero ▸ .none)
    · exact .inr (.inr (hnew ▸ hnewest))
  · rw [awaits, List.mem_singleton] at hj
    exact .inr (.inl (hj ▸ hnewest))
  · rw [chains] at hx
    cases hx

/-- A call has the job that it has just made to record. -/
theorem Instr.Hands.made (hjobs : s'.jobs = (s.addJob k).jobs) (awaits : x.awaits = [])
    (records : x.records = s.nextJob) (chains : x.chainsOn = none) : i.Hands s s' x where
  records := .inr (.inr ⟨k, by rw [records, hjobs, VfsState.addJob_newest]⟩)
  awaits j hj := by
    rw [awaits] at hj
    cases hj
  chains f m hx := by
    rw [chains] at hx
    cases hx

theorem LaunchExec.bookkeeping (hx : LaunchExec s t i s' new) : Bookkeeping i new s s' := by
  cases hx with
  | refused | prepareRefused => exact .idle rfl (List.forall_mem_nil _)
  | allocated known halloc | prepared known halloc =>
      exact .born halloc ⟨rfl, rfl, rfl, rfl⟩ (fun q d hd => ⟨d, hd, .refl d⟩) rfl rfl rfl
        (.inl known) (List.forall_mem_singleton.mpr (.free rfl rfl rfl))
  | queued hd hm =>
      exact .launch (.inl (mountDependency_mentioned hm)) rfl setJobs_refs rfl
        (fun m p hm => by cases hm) (List.forall_mem_singleton.mpr (.free rfl rfl rfl))
  | inlined hd hm worker free hr =>
      exact .launch (.inl .none) rfl (fun q d' hd' => ⟨d', hd', .inl (.refl d')⟩) rfl
        (fun m p hm => by cases hm) (List.forall_mem_singleton.mpr (.newest rfl rfl hr rfl))
  | ran finished =>
      exact .record (.inr (.inl rfl)) rfl rfl rfl (fun _ => ⟨rfl, rfl, rfl⟩)
        (fun m p hm => by cases hm) (List.forall_mem_singleton.mpr (.free rfl rfl rfl))
  | @published p =>
      obtain ⟨hpool, hjobs, -⟩ := vfsPublishHandle_core s p
      exact .same (fun q d hd => ⟨d, hpool ▸ hd, .refl d⟩) hjobs (publish_mountFrame s p).mounts
        rfl (List.forall_mem_nil _)

/-- Publishing a mount makes its job the job of the mount. -/
theorem mountPublish_bookkeeping :
    Bookkeeping (.mountPublish m p j) [] s (mountPublish s m p j) := by
  obtain ⟨hpool, hjobs, -⟩ := vfsPublishHandle_core
    { s with mounts := Function.update s.mounts m (some ⟨j⟩) } p
  have hmounts : (mountPublish s m p j).mounts = Function.update s.mounts m (some ⟨j⟩) :=
    (publish_mountFrame _ p).mounts
  have hhandles : ∀ q, (mountPublish s m p j).pool q = s.pool q := fun q => by
    rw [mountPublish, hpool]
  have hstays : ∀ m', (s.mounts m').isSome → ((mountPublish s m p j).mounts m').isSome := by
    intro m' hm'
    rw [hmounts, Function.update_apply]
    split_ifs
    · rfl
    · exact hm'
  refine ⟨fun j' k hj => .inl (hjobs ▸ hj), fun j' hj => ?_, List.forall_mem_nil _,
    fun m' hm' => .inl (hstays m' hm'), fun q d hd => .inl ⟨d, hhandles q ▸ hd, rfl⟩,
    fun m' p' hm _ => ?_⟩
  · cases hj with
    | none => exact .inl .none
    | handle q d hd => exact .inl (.handle q d (hhandles q ▸ hd))
    | last q d hd => exact .inl (.last q d (hhandles q ▸ hd))
    | mount m' mount hm =>
        rw [hmounts, Function.update_apply] at hm
        split_ifs at hm
        · cases hm
          exact .inr (.inl rfl)
        · exact .inl (.mount m' mount hm)
  · cases hm
    refine .inl ?_
    rw [hmounts, Function.update_self]
    rfl

theorem MountExec.bookkeeping (hx : MountExec s t i s' new) : Bookkeeping i new s s' := by
  -- the opened mount passes from point to point of the call
  have goes : ∀ {x y : Instr} {m' : MountPtr} {p' : HandlePtr}, x.opens = some m' →
      x.owns = some p' → y.opens = x.opens → y.owns = x.owns →
        ∃ z ∈ [y], z.opens = some m' ∧ z.owns = some p' := fun hm hp hopens howns =>
    ⟨_, List.mem_singleton_self _, hopens.trans hm, howns.trans hp⟩
  cases hx with
  | opened lock halloc =>
      exact .born halloc ⟨rfl, rfl, rfl, rfl⟩ (fun q d hd => ⟨d, hd, .refl d⟩) rfl rfl rfl
        (.inr ⟨_, List.mem_singleton_self _, rfl, rfl⟩)
        (List.forall_mem_singleton.mpr (.free rfl rfl rfl))
  | inlined worker =>
      exact .launch (.inl .none) rfl (fun q d' hd' => ⟨d', hd', .inl (.refl d')⟩) rfl
        (fun m' p' hm hp => goes hm hp rfl rfl)
        (List.forall_mem_singleton.mpr (.newest rfl rfl (.inl rfl) rfl))
  | @queued m p main =>
      exact .launch (k := ⟨p, 0, none, .queued⟩) (.inl .none) rfl setJobs_refs rfl
        (fun m' p' hm hp => goes hm hp rfl rfl)
        (List.forall_mem_singleton.mpr (.made (k := ⟨p, 0, none, .queued⟩) rfl rfl rfl rfl))
  | ran finished =>
      exact .record (.inl .none) rfl rfl rfl (fun _ => ⟨rfl, rfl, rfl⟩)
        (fun m' p' hm hp => goes hm hp rfl rfl)
        (List.forall_mem_singleton.mpr (.free rfl rfl rfl))
  | published => exact mountPublish_bookkeeping

theorem DispatchExec.bookkeeping (hx : DispatchExec s t i s' new) (hI : Inv s (i :: F)) :
    Bookkeeping i new s s' := by
  cases hx with
  | missing => exact .idle rfl (List.forall_mem_nil _)
  | entered hl =>
      exact .same (modify_refs fun _ => ⟨rfl, rfl, rfl⟩) rfl rfl rfl
        (List.forall_mem_singleton.mpr (.free rfl rfl rfl))
  | queued hd hm =>
      exact .launch (.inl (mountDependency_mentioned hm)) rfl
        (fun q d' hd' => ⟨d', hd', .inl (.refl d')⟩) rfl (fun m p hm => by cases hm)
        (List.forall_mem_singleton.mpr (.made rfl rfl rfl rfl))
  | inlined hd hm worker free hr =>
      exact .launch (.inl .none) rfl (fun q d' hd' => ⟨d', hd', .inl (.refl d')⟩) rfl
        (fun m p hm => by cases hm) (List.forall_mem_singleton.mpr (.newest rfl rfl hr rfl))
  | ran finished => exact .idle rfl (List.forall_mem_singleton.mpr (.keeps rfl rfl rfl))
  | @recorded h p =>
      rw [dispatchRecord, if_pos (hI.windowMapped _ List.mem_cons_self h p rfl)]
      exact .record (.inr (.inl rfl)) rfl rfl rfl (fun _ => ⟨rfl, rfl, rfl⟩)
        (fun m p hm => by cases hm) (List.forall_mem_nil _)

/-- The file handle gets the job of the operation. -/
theorem chainPublish_bookkeeping {file : HandlePtr} {refused : Bool}
    (hI : Inv s (.chainPublish h file p refused :: F)) :
    Bookkeeping (.chainPublish h file p refused) [] s (chainPublish s h p refused) := by
  obtain ⟨d, op, -, -, -, hop, -, hpublish⟩ := chainPublish_live hI
  obtain ⟨hpool, hjobs, -⟩ :=
    vfsPublishHandle_core (s.modify file (recordOn refused op.jobHandle)) p
  rw [hpublish]
  refine .write (fun j k hj => .inl (hjobs ▸ hj)) (fun q d' hd' => ?_)
    (publish_mountFrame _ p).mounts (fun m p hm => by cases hm) (List.forall_mem_nil _)
  rw [hpool] at hd'
  rcases modify_some hd' with ⟨rfl, e, he, rfl⟩ | ⟨-, he⟩
  · refine ⟨e, he, rfl, .inl (.handle _ e he), .inl ?_⟩
    unfold recordOn
    split_ifs
    · exact .last _ e he
    · exact .handle p op hop
  · exact ⟨d', he, rfl, .inl (.handle q d' he), .inl (.last q d' he)⟩

theorem ChainExec.bookkeeping (hx : ChainExec s t i s' new) (hI : Inv s (i :: F)) :
    Bookkeeping i new s s' := by
  cases hx with
  | copiedOnly nothing =>
      exact .same (fun q d hd => ⟨d, hd, .refl d⟩) rfl rfl rfl (List.forall_mem_nil _)
  | copied something =>
      exact .same (fun q d hd => ⟨d, hd, .refl d⟩) rfl rfl rfl
        (List.forall_mem_singleton.mpr (.free rfl rfl rfl))
  | refused => exact .idle rfl (List.forall_mem_nil _)
  | @entered h params f d hmap hd hopen hop =>
      refine .same (modify_refs fun _ => ⟨rfl, rfl, rfl⟩) rfl rfl rfl
        (List.forall_mem_singleton.mpr ⟨.inl (.last f d hd), List.forall_mem_nil _, ?_⟩)
      intro f' m' hf
      cases hf
      exact ⟨d, hd, rfl⟩
  | allocated known halloc =>
      exact .born halloc ⟨rfl, rfl, rfl, rfl⟩ (modify_refs fun _ => ⟨rfl, rfl, rfl⟩) rfl rfl rfl
        (.inl known) (List.forall_mem_singleton.mpr (.keeps rfl rfl rfl))
  | unwound =>
      obtain ⟨d, -, -, -, hunwind⟩ := chainUnwind_live hI
      rw [hunwind]
      exact .touch (fun _ => ⟨rfl, rfl, rfl⟩) rfl (List.forall_mem_nil _)
  | blocked worker pending =>
      exact .touch (fun _ => ⟨rfl, rfl, rfl⟩) rfl
        (List.forall_mem_singleton.mpr (.free rfl rfl rfl))
  | inlined worker done =>
      exact .launch (.inl .none) rfl (fun q d' hd' => ⟨d', hd', .inl (.refl d')⟩) rfl
        (fun m p hm => by cases hm)
        (List.forall_mem_singleton.mpr (.newest rfl rfl (.inl rfl) rfl))
  | @queued h file ticket p after main =>
      exact .launch (k := ⟨p, after, some (ticket, file), .queued⟩) (.inr rfl) rfl setJobs_refs rfl
        (fun m p hm => by cases hm) (List.forall_mem_singleton.mpr (.free rfl rfl rfl))
  | ran finished =>
      exact .record (.inl .none) rfl rfl rfl (fun _ => ⟨rfl, rfl, rfl⟩)
        (fun m p hm => by cases hm) (List.forall_mem_singleton.mpr (.free rfl rfl rfl))
  | published => exact chainPublish_bookkeeping hI

theorem CloseExec.bookkeeping (hx : CloseExec s c t i s' new) (hI : Inv s (i :: F)) :
    Bookkeeping i new s s' := by
  cases hx with
  | cancelMissing | released | closeMissing | waited | waitMissing =>
      exact .idle rfl (List.forall_mem_nil _)
  | canceled hl => exact .touch (fun _ => ⟨rfl, rfl, rfl⟩) rfl (List.forall_mem_nil _)
  | reclaimed =>
      exact .sweep (sweep_reclaim (hI.drop rfl rfl)) rfl
        (List.forall_mem_singleton.mpr (.free rfl rfl rfl))
  | hook =>
      exact .same (fun q d hd => ⟨d, hd, .refl d⟩) rfl rfl rfl
        (List.forall_mem_singleton.mpr (.free rfl rfl rfl))
  | closeBorrowing hl borrows =>
      refine .idle rfl
        (List.forall_mem_cons.mpr ⟨?_, List.forall_mem_singleton.mpr (.free rfl rfl rfl)⟩)
      exact .waits fun j hj =>
        mem_handleJobs hj ((VfsState.lookupOpenHandle_some _).mp hl).2.1
  | closePlain hl plain => exact .idle rfl (List.forall_mem_singleton.mpr (.free rfl rfl rfl))
  | closed =>
      exact closeFinish_bookkeeping (hI.drop rfl rfl) rfl
        (List.forall_mem_singleton.mpr (.free rfl rfl rfl))
  | waitedOne finished =>
      exact .idle rfl (List.forall_mem_singleton.mpr
        ⟨.inl .none, fun j hj => .inl (List.mem_cons_of_mem _ hj), fun f m hf => by cases hf⟩)
  | waitFound hl =>
      exact .idle rfl (List.forall_mem_singleton.mpr (.waits fun j hj =>
        mem_handleJobs hj ((VfsState.lookupOpenHandle_some _).mp hl).2.1))
  | waitAll =>
      refine .idle rfl (List.forall_mem_singleton.mpr (.waits fun j hj => ?_))
      obtain ⟨e, he, hj⟩ := List.mem_flatMap.mp hj
      exact mem_handleJobs hj (mem_mapEntries.mp he).2

/-- The jobs that `vfs_refresh_mount_victims` names are those of handles. -/
theorem mem_refreshVictim {id : FlVfsHandle} (hj : j ∈ (refreshVictim s id).1) :
    j ≠ 0 ∧ s.Mentions j := by
  unfold refreshVictim at hj
  split at hj
  · cases hj
  · rename_i p d hl
    exact mem_handleJobs hj ((VfsState.lookupHandle_some p).mp hl).2

/-- Destroying a mount takes no job away. -/
theorem mountDestroy_bookkeeping : Bookkeeping (.mountDestroy m) [] s
    ({ s with mounts := Function.update s.mounts m none }.emit (.mountDestroyed c m)) := by
  refine ⟨fun j k hj => .inl hj, fun j hj => .inl ?_, List.forall_mem_nil _, fun m' hm' => ?_,
    fun q d hd => .inl ⟨d, hd, rfl⟩, fun m' p hm => by cases hm⟩
  · cases hj with
    | none => exact .none
    | handle q d hd => exact .handle q d hd
    | last q d hd => exact .last q d hd
    | mount m' mount hm =>
        simp only [VfsState.emit_mounts, Function.update_apply] at hm
        split_ifs at hm
        exact .mount m' mount hm
  · simp only [VfsState.emit_mounts, Function.update_apply]
    split_ifs with same
    · exact .inr (same ▸ rfl)
    · exact .inl hm'

theorem TeardownExec.bookkeeping (hx : TeardownExec s c i s' new) (hI : Inv s (i :: F))
    (hlive : s'.destroyed = false) : Bookkeeping i new s s' := by
  cases hx with
  | unlisted lock listed =>
      exact .same (fun q d hd => ⟨d, hd, .refl d⟩) rfl rfl rfl
        (List.forall_mem_singleton.mpr (.free rfl rfl rfl))
  | unknown lock unlisted => exact .idle rfl (List.forall_mem_nil _)
  | snapshot =>
      refine .same (fun q d hd => ⟨d, hd, .refl d⟩) rfl rfl rfl
        (List.forall_mem_cons.mpr ⟨.waits fun j hj => ?_,
          List.forall_mem_singleton.mpr (.free rfl rfl rfl)⟩)
      obtain ⟨v, hv, hj⟩ := List.mem_flatMap.mp hj
      unfold vfsSnapshotMountVictims at hv
      obtain ⟨e, he, rfl⟩ := List.mem_map.mp hv
      exact mem_handleJobs hj (mem_mapEntries.mp (List.mem_of_mem_filter he)).2
  | draining outstanding =>
      refine .idle rfl (List.forall_mem_cons.mpr ⟨.waits fun j hj => ?_,
        List.forall_mem_singleton.mpr (.free rfl rfl rfl)⟩)
      obtain ⟨r, hr, hj⟩ := List.mem_flatMap.mp hj
      obtain ⟨v, -, rfl⟩ := List.mem_map.mp hr
      exact mem_refreshVictim hj
  | @drained m victims idle =>
      refine .idle rfl (List.forall_mem_cons.mpr ⟨.waits fun j hj => ?_,
        List.forall_mem_singleton.mpr (.free rfl rfl rfl)⟩)
      split_ifs at hj with own
      · rw [List.mem_singleton.mp hj]
        refine ⟨own, ?_⟩
        cases hm : s.mounts m with
        | none => exact .none
        | some mount => exact .mount m mount hm
      · cases hj
  | freed =>
      exact .sweep (Sweep.freeVictims hI List.mem_cons_self fun _ h => h) rfl
        (List.forall_mem_cons.mpr ⟨.free rfl rfl rfl,
          List.forall_mem_singleton.mpr (.free rfl rfl rfl)⟩)
  | destroyed lock => exact mountDestroy_bookkeeping
  | next listed =>
      exact .idle rfl (List.forall_mem_cons.mpr ⟨.free rfl rfl rfl,
        List.forall_mem_singleton.mpr (.free rfl rfl rfl)⟩)
  | cleared empty => cases hlive

/-- Every body, up to the end of `vfs_destroy`. -/
theorem body_bookkeeping (hI : Inv s (i :: F)) (hx : execBody s c t sched i = some (s', new))
    (hlive : s'.destroyed = false) : Bookkeeping i new s s' := by
  cases execBody_some hx with
  | launch h => exact h.bookkeeping
  | mount h => exact h.bookkeeping
  | dispatch h => exact h.bookkeeping hI
  | chain h => exact h.bookkeeping hI
  | close h => exact h.bookkeeping hI
  | teardown h => exact h.bookkeeping hI hlive

end Bookkeeping

/-! ## The job table -/

/-- Job handles in use are 0 or those of jobs, and a job waits only for an earlier one. -/
structure JobTable (s : VfsState) (F : List Instr) : Prop where
  earlier : ∀ j k, s.jobs j = some k → k.dependency = 0 ∨
    (k.dependency < j ∧ s.HasJob k.dependency)
  mentioned : ∀ j, s.Mentions j → j = 0 ∨ s.HasJob j
  recorded : ∀ x ∈ F, x.records = 0 ∨ s.HasJob x.records
  awaited : ∀ x ∈ F, ∀ j ∈ x.awaits, s.HasJob j

section JobTable

variable {s s' : VfsState} {F G new : List Instr} {i : Instr} {d : VfsHandleData} {c : ℕ}
  {t : Thread} {sched : Sched} {j : FlJobHandle} {k : Job} {a : Action}

theorem JobTable.perm (hJ : JobTable s F) (hp : F.Perm G) : JobTable s G where
  earlier := hJ.earlier
  mentioned := hJ.mentioned
  recorded x hx := hJ.recorded x (hp.mem_iff.mpr hx)
  awaited x hx := hJ.awaited x (hp.mem_iff.mpr hx)

theorem JobTable.of_same (s' : VfsState) (hJ : JobTable s F) (hpool : s'.pool = s.pool)
    (hjobs : s'.jobs = s.jobs) (hmounts : s'.mounts = s.mounts) : JobTable s' F := by
  have hknown : ∀ j, s.HasJob j → s'.HasJob j := fun j ⟨k, hk⟩ => ⟨k, hjobs ▸ hk⟩
  refine ⟨fun j k hj => ?_, fun j hj => ?_, fun x hx => ?_, fun x hx j hj => ?_⟩
  · rw [hjobs] at hj
    exact (hJ.earlier j k hj).imp_right fun h => ⟨h.1, hknown _ h.2⟩
  · refine (hJ.mentioned j ?_).imp_right (hknown j)
    cases hj with
    | none => exact .none
    | handle p d hd => exact .handle p d (hpool ▸ hd)
    | last p d hd => exact .last p d (hpool ▸ hd)
    | mount m mount hm => exact .mount m mount (hmounts ▸ hm)
  · exact (hJ.recorded x hx).imp_right (hknown _)
  · exact hknown j (hJ.awaited x hx j hj)

theorem JobTable.body (hJ : JobTable s (i :: F)) (hI : Inv s (i :: F)) (hD : i.Disciplined s F)
    (hx : execBody s c t sched i = some (s', new)) (hlive : s'.destroyed = false) :
    JobTable s' (new ++ F) := by
  have hbook := body_bookkeeping hI hx hlive
  have hknown : ∀ j, s.HasJob j → s'.HasJob j := fun j ⟨k, hk⟩ =>
    ⟨k, (body_work hI hD hx hlive).kept j k hk⟩
  have hrecords : i.records = 0 ∨ s.HasJob i.records := hJ.recorded i List.mem_cons_self
  have hlearns : ∀ j, Learns i s s' j → j = 0 ∨ s'.HasJob j := by
    intro j hj
    rcases hj with hmentions | rfl | hnew
    · exact (hJ.mentioned j hmentions).imp_right (hknown j)
    · exact hrecords.imp_right (hknown _)
    · exact .inr hnew
  refine ⟨fun j k hj => ?_, fun j hj => hlearns j (hbook.mentions j hj), fun x hx => ?_,
    fun x hx j hj => ?_⟩
  · rcases hbook.added j k hj with hold | ⟨rfl, hdep⟩
    · exact (hJ.earlier j k hold).imp_right fun h => ⟨h.1, hknown _ h.2⟩
    · have hdep : k.dependency = 0 ∨ s.HasJob k.dependency := by
        rcases hdep with hmentions | hrec
        · exact hJ.mentioned _ hmentions
        · exact hrec ▸ hrecords
      refine hdep.imp_right fun hjob => ⟨?_, hknown _ hjob⟩
      obtain ⟨k', hk'⟩ := hjob
      exact (hI.jobBound _ k' hk').2
  · rcases List.mem_append.mp hx with hx | hx
    · exact hlearns _ (hbook.points x hx).records
    · exact (hJ.recorded x (List.mem_cons_of_mem i hx)).imp_right (hknown _)
  · rcases List.mem_append.mp hx with hx | hx
    · rcases (hbook.points x hx).awaits j hj with hawaits | hnew | ⟨hne, hmentions⟩
      · exact hknown j (hJ.awaited i List.mem_cons_self j hawaits)
      · exact hnew
      · exact hknown j ((hJ.mentioned j hmentions).resolve_left hne)
    · exact hknown j (hJ.awaited x (List.mem_cons_of_mem i hx) j hj)

theorem JobTable.jobMove {phase : JobPhase} {g : VfsHandleData → VfsHandleData} {es : List Event}
    (hJ : JobTable s F) (hk : s.jobs j = some k) (hm : JobMove s j k d phase g es) :
    JobTable (afterMove s j k.target phase g es) F := by
  have hknown : ∀ x, s.HasJob x → (afterMove s j k.target phase g es).HasJob x := by
    intro x ⟨k₀, hk₀⟩
    obtain ⟨k', hk', -⟩ : ∃ k', (afterMove s j k.target phase g es).jobs x = some k' ∧ _ :=
      afterMove_forth hk₀
    exact ⟨k', hk'⟩
  refine ⟨fun x k' hx => ?_, fun x hx => (hJ.mentioned x ?_).imp_right (hknown x),
    fun x hx => (hJ.recorded x hx).imp_right (hknown _), fun x hx y hy =>
      hknown y (hJ.awaited x hx y hy)⟩
  · obtain ⟨k₀, hk₀, -, -, hdep, -⟩ := afterMove_back hk hx
    rw [hdep]
    exact (hJ.earlier x k₀ hk₀).imp_right fun h => ⟨h.1, hknown _ h.2⟩
  · cases hx with
    | none => exact .none
    | handle p e he =>
        rcases modify_some he with ⟨rfl, e', he', rfl⟩ | ⟨-, he⟩
        · rw [(hm.keeps.2 e').2.1]
          exact .handle _ e' he'
        · exact .handle p e he
    | last p e he =>
        rcases modify_some he with ⟨rfl, e', he', rfl⟩ | ⟨-, he⟩
        · rw [(hm.keeps.2 e').2.2]
          exact .last _ e' he'
        · exact .last p e he
    | mount m mount hm => exact .mount m mount hm

/-- A call that has just started refers to no job. -/
theorem program_jobs (request : Request) :
    ∀ x ∈ request.program, x.records = 0 ∧ x.awaits = [] := by
  intro x hx
  cases request with
  | read h size =>
      simp only [Request.program, vfsRead] at hx
      split_ifs at hx <;> simp_all [Instr.records, Instr.awaits]
  | writeNoCopy h b size =>
      simp only [Request.program, vfsWriteInternal] at hx
      split_ifs at hx <;> simp_all [Instr.records, Instr.awaits]
  | write h size =>
      simp only [Request.program, vfsWrite] at hx
      split_ifs at hx <;> simp_all [Instr.records, Instr.awaits]
  | close h =>
      simp only [Request.program, vfsClose] at hx
      split_ifs at hx
      · simp at hx
      · simp only [List.mem_cons, List.not_mem_nil, or_false] at hx
        rcases hx with rfl | rfl <;> exact ⟨rfl, rfl⟩
  | dispatch h | cancel h | wait h =>
      simp only [Request.program] at hx
      split_ifs at hx <;> simp_all [Instr.records, Instr.awaits]
  | waitAll | destroy =>
      simp only [Request.program, vfsWaitAll, List.mem_cons, List.not_mem_nil, or_false,
        List.cons_append, List.nil_append] at hx
      rcases hx with rfl | rfl | rfl <;> exact ⟨rfl, rfl⟩
  | mountOpen | listing | openFile | readAll | prepare | update | mountClose =>
      simp only [Request.program, List.mem_singleton] at hx
      subst hx
      exact ⟨rfl, rfl⟩

theorem JobTable.step (hJ : JobTable s s.frames) (hI : Inv s s.frames) (hD : Disciplined s a)
    (h : FlowiVfs.step s a = some s') (hlive : s'.destroyed = false) :
    JobTable s' s'.frames := by
  refine step_rule (P := JobTable) hI hD h hlive hJ (fun _ _ _ hJ hp => hJ.perm hp) ?_ ?_ ?_ ?_ ?_
  · exact fun s F cs hJ => hJ.of_same _ rfl rfl rfl
  · exact fun s F c e _ hJ => hJ.of_same _ rfl rfl rfl
  · intro t request _
    have hnew := program_jobs request
    refine ⟨hJ.earlier, hJ.mentioned, fun x hx => ?_, fun x hx j hj => ?_⟩
    · rcases List.mem_append.mp hx with hx | hx
      · exact .inl (hnew x hx).1
      · exact hJ.recorded x hx
    · rcases List.mem_append.mp hx with hx | hx
      · rw [(hnew x hx).2] at hj
        cases hj
      · exact hJ.awaited x hx j hj
  · exact fun j input k d phase g es _ hk _ hm => hJ.jobMove hk hm
  · exact fun c sched t i rest F s₀ s₂ new _ _ _ _ hJ hI hD hx hlive => hJ.body hI hD hx hlive

theorem jobTable_init : JobTable .init VfsState.init.frames := by
  refine ⟨?_, fun j hj => .inl ?_, ?_, ?_⟩
  · simp [VfsState.init]
  · cases hj with
    | none => rfl
    | handle p d hd => cases hd
    | last p d hd => cases hd
    | mount m mount hm => cases hm
  · simp [VfsState.init, VfsState.frames]
  · simp [VfsState.init, VfsState.frames]

theorem jobTable_reaches {ok : VfsState → Action → Prop} (hok : ∀ s a, ok s a → Disciplined s a)
    (h : Reaches step ok .init s) : s.destroyed = false → JobTable s s.frames := by
  refine h.invariant_of (I := fun s => s.destroyed = false → Inv s s.frames)
    (fun s h => inv_reaches hok h)
    (P := fun s => s.destroyed = false → JobTable s s.frames) (fun _ => jobTable_init) ?_
  intro t a u hI _ hJ hmeets hstep hlive
  have hlive' := step_keeps_destroyed hstep hlive
  exact (hJ hlive').step (hI hlive') (hok _ _ hmeets) hstep hlive

end JobTable
end FlowiVfs
