import FlowiVfs.CallStack

/-!
# Closing a file under its reads and writes

A file handle protects the operations chained onto it through two fields:
`pending_dispatches` while their calls are in progress and `last_job` afterwards.
The operations whose calls have returned form a chain of dependencies that ends
in `last_job`, and that is the invariant here. A worker that runs its operation
inline records 0 in `last_job`; the chain survives this only if the job recorded
there has finished by then.
-/
namespace FlowiVfs

open Transition

/-- No handle is freed under an operation chained onto it, and a file handle that looks
idle has none left. -/
structure ChainsSafe (s : VfsState) : Prop where
  live : ∀ j k n f, s.jobs j = some k → k.chained = some (n, f) → s.pool f = none →
    k.phase.isFinished = true
  idle : ∀ f d, s.pool f = some d → d.pendingDispatches = 0 → s.jobDone d.jobHandle = true →
    s.jobDone d.lastJob = true → ∀ j k n, s.jobs j = some k → k.chained = some (n, f) →
      k.phase.isFinished = true

/-- A worker that records its inline operation finds no unfinished job in `last_job`. -/
def Instr.InlineLast (s : VfsState) (t : Thread) : Instr → Prop
  | .chainPublish _ file _ refused =>
      t = .main ∨ refused = true ∨ ∀ d ∈ s.pool file, s.jobDone d.lastJob = true
  | _ => True

instance (s : VfsState) (t : Thread) (i : Instr) : Decidable (i.InlineLast s t) := by
  unfold Instr.InlineLast
  split <;> infer_instance

def InlineLast (s : VfsState) : Action → Prop
  | .exec c _ => ∀ k ∈ s.calls[c]?, ∀ i ∈ k.todo.head?, i.InlineLast s k.thread
  | _ => True

instance (s : VfsState) (a : Action) : Decidable (InlineLast s a) :=
  match a with
  | .exec c _ => inferInstanceAs (Decidable (∀ k ∈ s.calls[c]?, ∀ i ∈ k.todo.head?,
      i.InlineLast s k.thread))
  | .start _ _ => .isTrue trivial
  | .job _ _ => .isTrue trivial

/-! ## The invariant -/

/-- The handle of an operation whose job exists and whose call is in its window. -/
def Instr.chainOwns : Instr → Option HandlePtr
  | .chainInline _ _ p _ | .chainPublish _ _ p _ => some p
  | _ => none

/-- The file and the job a call will chain its operation after. -/
def Instr.chainAfter : Instr → Option (HandlePtr × FlJobHandle)
  | .chainAlloc _ file _ _ _ after | .chainRun _ file _ _ after => some (file, after)
  | _ => none

/-- An unfinished operation on `f` whose call has closed its window. -/
def Loose (s : VfsState) (F : List (Thread × Instr)) (f : HandlePtr) (j : FlJobHandle) : Prop :=
  ∃ k n, s.jobs j = some k ∧ k.chained = some (n, f) ∧ k.phase.isFinished = false ∧
    ∀ x ∈ F, x.2.chainOwns ≠ some k.target

/-- Every loose operation on `f` is `last` or one that a later loose operation waits for. -/
def Linked (s : VfsState) (F : List (Thread × Instr)) (f : HandlePtr) (last : FlJobHandle) : Prop :=
  ∀ j, Loose s F f j → j = last ∨
    ∃ j' k', Loose s F f j' ∧ s.jobs j' = some k' ∧ k'.dependency = j ∧ j < j'

structure CloseInv (s : VfsState) (F : List (Thread × Instr)) : Prop extends ChainBase s where
  files : ∀ x ∈ F, ∀ f, x.2.chainFile = some f → ∀ d, s.pool f = some d → d.opType = .fileOpen
  live : ∀ j k n f, s.jobs j = some k → k.chained = some (n, f) → k.phase.isFinished = false →
    ∃ d, s.pool f = some d
  linked : ∀ f d, s.pool f = some d → Linked s F f d.lastJob
  /-- The main thread chains after a job that covers the loose ones. -/
  before : ∀ x ∈ F, x.1 = .main → ∀ f after, x.2.chainAfter = some (f, after) → Linked s F f after
  /-- The main thread is about to record a job that waits for the loose ones. -/
  after : ∀ x ∈ F, x.1 = .main → ∀ h f p, x.2 = .chainPublish h f p false →
    ∀ op, s.pool p = some op → ∃ k n, s.jobs op.jobHandle = some k ∧ k.target = p ∧
      k.chained = some (n, f) ∧ Linked s F f k.dependency ∧
      ∀ j, Loose s F f j → j < op.jobHandle
  /-- A worker records no job. -/
  inline : ∀ x ∈ F, ∀ h f p refused, x.2 = .chainPublish h f p refused →
    (x.1 ≠ .main ∨ refused = true) → ∀ op, s.pool p = some op → op.jobHandle = 0
  worker : ∀ x ∈ F, ∀ h f p j, x.2 = .chainInline h f p j → x.1 ≠ .main
  /-- A call in its window owns the handle of an operation on the file of the window. -/
  covers : ∀ x ∈ F, ∀ f p, x.2.chainFile = some f → x.2.chainOwns = some p →
    ∀ j k, s.jobs j = some k → k.target = p → k.phase.isFinished = false →
      ∃ n, k.chained = some (n, f)

section Invariant

variable {s s' : VfsState} {F G : List (Thread × Instr)} {f p : HandlePtr} {j last : FlJobHandle}
  {k : Job} {d : VfsHandleData} {i : Instr} {t : Thread}

/-- Once the job that covers them has finished, there are no loose operations. -/
theorem Linked.none_left (hT : Table s) (hL : Linked s F f last) (hdone : s.jobDone last = true) :
    ¬ Loose s F f j := by
  -- Induction on the distance of `j` from the newest job.
  suffices ∀ n j, s.nextJob - j = n → ¬ Loose s F f j from this _ j rfl
  intro n
  induction n using Nat.strong_induction_on with
  | _ n ih =>
      intro j hn hloose
      rcases hL j hloose with rfl | ⟨j', k', hloose', hj', -, hlt⟩
      · obtain ⟨k, m, hj, -, hfin, -⟩ := hloose
        simp only [VfsState.jobDone, VfsState.jobFinished_of hj, hfin, Bool.or_false,
          beq_iff_eq] at hdone
        exact Nat.ne_of_gt (hT.jobBound j k hj).1 hdone
      · have hbound := Nat.lt_trans hlt (hT.jobBound j' k' hj').2
        exact ih (s.nextJob - j') (hn ▸ Nat.sub_lt_sub_left hbound hlt) j' rfl hloose'

theorem Loose.mono (hG : ∀ x ∈ F, x.2.chainOwns ≠ none → x ∈ G) (h : Loose s G f j) :
    Loose s F f j := by
  obtain ⟨k, n, hj, hc, hfin, hown⟩ := h
  refine ⟨k, n, hj, hc, hfin, fun x hx ho => hown x (hG x hx ?_) ho⟩
  rw [ho]
  exact Option.some_ne_none _

theorem Linked.congr (hL : Linked s F f last) (hloose : ∀ j, Loose s' G f j ↔ Loose s F f j)
    (hdep : ∀ j k, Loose s F f j → s.jobs j = some k → ∃ k', s'.jobs j = some k' ∧
      k'.dependency = k.dependency) : Linked s' G f last := by
  intro j hj
  rcases hL j ((hloose j).mp hj) with rfl | ⟨j', k', hl, hj', hd, hlt⟩
  · exact .inl rfl
  · obtain ⟨k'', hk'', hd'⟩ := hdep j' k' hl hj'
    exact .inr ⟨j', k'', (hloose j').mpr hl, hk'', hd'.trans hd, hlt⟩

/-- The job of a handle that a call owns is the one recorded on it. -/
theorem Inv.owner_job {G : List Instr} (hI : Inv s (i :: G)) (ho : i.owns = some p)
    (hcarry : i.carries = none) (hd : s.pool p = some d) (hj : s.jobs j = some k)
    (htarget : k.target = p) (hfin : k.phase.isFinished = false) : j = d.jobHandle := by
  obtain ⟨e, he, hrun⟩ := hI.running j k hj hfin
  rw [htarget, hd] at he
  cases he
  rcases hrun with hrun | ⟨x, hx, hc⟩
  · exact hrun.symm
  · rw [htarget] at hc
    rcases List.mem_cons.mp hx with rfl | hx
    · simp [hcarry] at hc
    · rcases (Instr.carries_holder hc).2 with ho' | hdis
      · exact absurd ho' (hI.owner_unique ho x hx)
      · obtain ⟨id, hw⟩ := Instr.dispatches_window hdis
        exact (hI.owner_no_window List.mem_cons_self ho (List.mem_cons_of_mem i hx) hw).elim

/-- A handle whose call has yet to set its job fields and carries no job has none. -/
theorem Inv.owner_no_job {G : List Instr} (hI : Inv s (i :: G)) (ho : i.owns = some p)
    (hcarry : i.carries = none) (hd : s.pool p = some d) (hzero : d.jobHandle = 0)
    (hj : s.jobs j = some k) (htarget : k.target = p) : k.phase.isFinished = true := by
  by_contra hne
  have := hI.owner_job ho hcarry hd hj htarget (by simpa using hne)
  rw [hzero] at this
  exact Nat.ne_of_gt (hI.jobBound j k hj).1 this

theorem CloseInv.perm (hC : CloseInv s F) (hp : F.Perm G) : CloseInv s G := by
  have hloose : ∀ f j, Loose s G f j ↔ Loose s F f j := fun f j => by
    simp only [Loose, hp.mem_iff]
  have hlinked : ∀ f last, Linked s F f last → Linked s G f last := fun f last h =>
    h.congr (hloose f) fun j k _ hj => ⟨k, hj, rfl⟩
  refine ⟨hC.toChainBase, fun x hx => hC.files x (hp.mem_iff.mpr hx), hC.live,
    fun f d hd => hlinked f _ (hC.linked f d hd),
    fun x hx hm f a ha => hlinked f a (hC.before x (hp.mem_iff.mpr hx) hm f a ha), ?_,
    fun x hx => hC.inline x (hp.mem_iff.mpr hx), fun x hx => hC.worker x (hp.mem_iff.mpr hx),
    fun x hx => hC.covers x (hp.mem_iff.mpr hx)⟩
  intro x hx hm h f p he op hop
  obtain ⟨k, n, hj, ht, hc, hl, hlt⟩ := hC.after x (hp.mem_iff.mpr hx) hm h f p he op hop
  exact ⟨k, n, hj, ht, hc, hlinked f _ hl, fun j hj => hlt j ((hloose f j).mp hj)⟩

/-- An unfinished operation on a file without a window is loose. -/
theorem CloseInv.loose (hC : CloseInv s F) (hI : Inv s (F.map Prod.snd))
    (hd : s.pool f = some d) (hpend : d.pendingDispatches = 0) {n : ℕ} (hj : s.jobs j = some k)
    (hc : k.chained = some (n, f)) (hfin : k.phase.isFinished = false) : Loose s F f j := by
  by_contra hloose
  simp only [Loose, not_exists, not_and, not_forall, Decidable.not_not] at hloose
  obtain ⟨x, hx, ho⟩ := hloose k n hj hc hfin
  have hwin : ∃ h g, x.2.window = some (h, g) ∧ x.2.chainFile = some g := by
    cases hi : x.2 with
    | chainInline h g p j => exact ⟨h, g, rfl, rfl⟩
    | chainPublish h g p r => exact ⟨h, g, rfl, rfl⟩
    | _ => simp [hi, Instr.chainOwns] at ho
  obtain ⟨h, g, hw, hg⟩ := hwin
  obtain ⟨m, hm⟩ := hC.covers x hx g k.target hg ho j k hj rfl hfin
  rw [hc] at hm
  cases hm
  exact hI.pending_zero_no_window hd hpend (List.mem_map_of_mem hx) hw

/-- An idle file handle has no unfinished operation. -/
theorem CloseInv.idle_finished (hC : CloseInv s F) (hI : Inv s (F.map Prod.snd))
    (hd : s.pool f = some d) (hpend : d.pendingDispatches = 0)
    (hlast : s.jobDone d.lastJob = true) {n : ℕ} (hj : s.jobs j = some k)
    (hc : k.chained = some (n, f)) : k.phase.isFinished = true := by
  by_contra hne
  have hloose := hC.loose hI hd hpend hj hc (by simpa using hne)
  exact (hC.linked f d hd).none_left hI.toTable hlast hloose

theorem CloseInv.safe (hC : CloseInv s F) (hI : Inv s (F.map Prod.snd)) : ChainsSafe s where
  live j k n f hj hc hnone := by
    by_contra hne
    obtain ⟨d, hd⟩ := hC.live j k n f hj hc (by simpa using hne)
    rw [hnone] at hd
    cases hd
  idle f d hd hpend _ hlast j k n hj hc := hC.idle_finished hI hd hpend hlast hj hc

end Invariant

/-! ## Elementary changes -/

section Changes

variable {s s' : VfsState} {F G : List (Thread × Instr)} {f p file : HandlePtr}
  {j last : FlJobHandle} {k : Job} {d op : VfsHandleData} {i y : Instr} {t : Thread}
  {g : VfsHandleData → VfsHandleData}

/-- `CloseInv` reads the pool and the jobs, apart from what `ChainBase` reads. -/
theorem CloseInv.of_same (hC : CloseInv s F) (hbase : ChainBase s') (hpool : s'.pool = s.pool)
    (hjobs : s'.jobs = s.jobs) : CloseInv s' F := by
  have hloose : ∀ f j, Loose s' F f j ↔ Loose s F f j := fun f j => by simp only [Loose, hjobs]
  have hlinked : ∀ f last, Linked s F f last → Linked s' F f last := fun f last h =>
    h.congr (hloose f) fun j k _ hj => ⟨k, hjobs ▸ hj, rfl⟩
  refine ⟨hbase, ?_, ?_, ?_, fun x hx hm f a ha => hlinked f a (hC.before x hx hm f a ha), ?_, ?_,
    hC.worker, ?_⟩
  · rw [hpool]; exact hC.files
  · rw [hpool, hjobs]; exact hC.live
  · intro f d hd
    rw [hpool] at hd
    exact hlinked f _ (hC.linked f d hd)
  · intro x hx hm h f p he op hop
    rw [hpool] at hop
    obtain ⟨k, n, hj, ht, hc, hl, hlt⟩ := hC.after x hx hm h f p he op hop
    exact ⟨k, n, hjobs ▸ hj, ht, hc, hlinked f _ hl, fun j hj => hlt j ((hloose f j).mp hj)⟩
  · rw [hpool]; exact hC.inline
  · rw [hjobs]; exact hC.covers

theorem CloseInv.of_core (s' : VfsState) (hC : CloseInv s F) (hs : SameCore s s') : CloseInv s' F :=
  hC.of_same (hC.toChainBase.of_core hs) hs.1 hs.2.2.1

/-- Writing fields of a handle other than its jobs. -/
theorem CloseInv.touch (hC : CloseInv s F) (hg : KeepsIdentity g)
    (hjobs : ∀ d, (g d).jobHandle = d.jobHandle ∧ (g d).lastJob = d.lastJob) :
    CloseInv (s.modify p g) F := by
  refine ⟨hC.toChainBase.modify hg, ?_, ?_, ?_, hC.before, ?_, ?_, hC.worker, hC.covers⟩
  · intro x hx f hf d hd
    obtain ⟨e, he, -, -, hop⟩ := modify_origin hg hd
    exact hop.trans (hC.files x hx f hf e he)
  · intro j k n f hj hc hfin
    obtain ⟨d, hd⟩ := hC.live j k n f hj hc hfin
    obtain ⟨e, he, -⟩ := modify_live hg hd
    exact ⟨e, he⟩
  · intro f d hd
    rcases modify_some hd with ⟨rfl, e, he, rfl⟩ | ⟨-, hd⟩
    · rw [(hjobs e).2]
      exact hC.linked f e he
    · exact hC.linked f d hd
  · intro x hx hm h f q he op hop
    rcases modify_some hop with ⟨rfl, e, hop', rfl⟩ | ⟨-, hop⟩
    · rw [(hjobs e).1]
      exact hC.after x hx hm h f _ he e hop'
    · exact hC.after x hx hm h f q he op hop
  · intro x hx h f q r he ht op hop
    rcases modify_some hop with ⟨rfl, e, hop', rfl⟩ | ⟨-, hop⟩
    · rw [(hjobs e).1]
      exact hC.inline x hx h f _ r he ht e hop'
    · exact hC.inline x hx h f q r he ht op hop

theorem chainFile_none (h : y.chainFile = none) : y.chainOwns = none ∧ y.chainAfter = none := by
  cases y <;> simp_all [Instr.chainFile, Instr.chainOwns, Instr.chainAfter]

theorem chainOwns_owns (h : y.chainOwns = some p) : y.owns = some p := by
  cases y with
  | chainInline | chainPublish => exact h
  | _ => cases h

theorem chainFile_window (h : y.chainFile = some f) : ∃ id, y.window = some (id, f) := by
  cases y with
  | chainAlloc | chainUnwind | chainRun | chainInline | chainPublish =>
      cases h
      exact ⟨_, rfl⟩
  | _ => cases h

/-- A window that waits in code of the caller is one of an inline execution. -/
theorem callsOut_chain (h : y.window ≠ none → y.callsOut = true) :
    y.chainAfter = none ∧ ∀ h f p, y ≠ .chainPublish h f p false := by
  cases y with
  | chainAlloc | chainRun | chainPublish => cases h (Option.some_ne_none _)
  | _ => exact ⟨rfl, fun _ _ _ => nofun⟩

/-- A call comes to a point that owns no operation or one without unfinished jobs. -/
theorem CloseInv.push (hC : CloseInv s F)
    (hown : ∀ q, y.chainOwns = some q → ∀ j k, s.jobs j = some k → k.target = q →
      k.phase.isFinished = true)
    (hfiles : ∀ f, y.chainFile = some f → ∀ d, s.pool f = some d → d.opType = .fileOpen)
    (hbefore : t = .main → ∀ f after, y.chainAfter = some (f, after) → Linked s F f after)
    (hafter : ∀ h f p, y = .chainPublish h f p false → t ≠ .main)
    (hinline : ∀ h f p refused, y = .chainPublish h f p refused →
      ∀ op, s.pool p = some op → op.jobHandle = 0)
    (hworker : ∀ h f p j, y = .chainInline h f p j → t ≠ .main) :
    CloseInv s ((t, y) :: F) := by
  have hloose : ∀ f j, Loose s ((t, y) :: F) f j ↔ Loose s F f j := by
    intro f j
    constructor
    · exact Loose.mono fun x hx _ => List.mem_cons_of_mem _ hx
    · rintro ⟨k, n, hj, hc, hfin, ho⟩
      refine ⟨k, n, hj, hc, hfin, fun x hx ho' => ?_⟩
      rcases List.mem_cons.mp hx with rfl | hx
      · rw [hown _ ho' j k hj rfl] at hfin
        cases hfin
      · exact ho x hx ho'
  have hlinked : ∀ f last, Linked s F f last → Linked s ((t, y) :: F) f last := fun f last h =>
    h.congr (hloose f) fun j k _ hj => ⟨k, hj, rfl⟩
  refine ⟨hC.toChainBase, ?_, hC.live, fun f d hd => hlinked f _ (hC.linked f d hd), ?_, ?_, ?_, ?_,
    ?_⟩
  · intro x hx
    rcases List.mem_cons.mp hx with rfl | hx
    · exact hfiles
    · exact hC.files x hx
  · intro x hx hm f a ha
    rcases List.mem_cons.mp hx with rfl | hx
    · exact hlinked f a (hbefore hm f a ha)
    · exact hlinked f a (hC.before x hx hm f a ha)
  · intro x hx hm h f p he op hop
    rcases List.mem_cons.mp hx with rfl | hx
    · exact absurd hm (hafter h f p he)
    · obtain ⟨k, n, hj, ht, hc, hl, hlt⟩ := hC.after x hx hm h f p he op hop
      exact ⟨k, n, hj, ht, hc, hlinked f _ hl, fun j hj => hlt j ((hloose f j).mp hj)⟩
  · intro x hx h f p r he ht op hop
    rcases List.mem_cons.mp hx with rfl | hx
    · exact hinline h f p r he op hop
    · exact hC.inline x hx h f p r he ht op hop
  · intro x hx h f p j he
    rcases List.mem_cons.mp hx with rfl | hx
    · exact hworker h f p j he
    · exact hC.worker x hx h f p j he
  · intro x hx f p hf ho j k hj htar hfin
    rcases List.mem_cons.mp hx with rfl | hx
    · rw [hown p ho j k hj htar] at hfin
      cases hfin
    · exact hC.covers x hx f p hf ho j k hj htar hfin

/-- Points outside `vfs_chain_file_op` may come. -/
theorem CloseInv.pushQuiet (hC : CloseInv s F) (new : List Instr)
    (hnew : ∀ x ∈ new, x.chainFile = none) : CloseInv s (new.map (fun y => (t, y)) ++ F) := by
  induction new with
  | nil => exact hC
  | cons y new ih =>
      have hy := hnew y (by simp)
      obtain ⟨ho, ha⟩ := chainFile_none hy
      refine (ih fun x hx => hnew x (by simp [hx])).push ?_ ?_ ?_ ?_ ?_ ?_
      · simp [ho]
      · simp [hy]
      · simp [ha]
      · rintro h f p rfl
        simp [Instr.chainFile] at hy
      · rintro h f p r rfl
        simp [Instr.chainFile] at hy
      · rintro h f p j rfl
        simp [Instr.chainFile] at hy

/-- A handle no call has published has nothing chained onto it. -/
theorem CloseInv.private_no_chain (hC : CloseInv s F) (hd : s.pool p = some d)
    (hprivate : s.mapGet d.id ≠ some p) : ¬ Loose s G p j := by
  rintro ⟨k, n, hj, hc, -⟩
  exact hprivate ((hC.toChainBase.file j p ⟨k, n, hj, hc⟩).2 d hd).1

theorem FileFrame.loose (hF : FileFrame i s s') (hi : i.chainOwns = none) :
    Loose s' F f j ↔ Loose s ((t, i) :: F) f j := by
  constructor
  · rintro ⟨k, n, hj, hc, hfin, ho⟩
    rcases hF.added j k hj with hj | ⟨-, hnone, -⟩
    · refine ⟨k, n, hj, hc, hfin, fun x hx => ?_⟩
      rcases List.mem_cons.mp hx with rfl | hx
      · simp [hi]
      · exact ho x hx
    · simp [hnone] at hc
  · rintro ⟨k, n, hj, hc, hfin, ho⟩
    exact ⟨k, n, hF.kept j k hj, hc, hfin, fun x hx => ho x (List.mem_cons_of_mem _ hx)⟩

theorem FileFrame.linked (hF : FileFrame i s s') (hi : i.chainOwns = none)
    (hL : Linked s ((t, i) :: F) f last) : Linked s' F f last :=
  hL.congr (fun _ => hF.loose hi) fun j k _ hj => ⟨k, hF.kept j k hj, rfl⟩

/-- A step outside the windows on files. -/
theorem CloseInv.quiet (hC : CloseInv s ((t, i) :: F)) (hI : Inv s (i :: F.map Prod.snd))
    (hi : i.chainOwns = none) (hF : FileFrame i s s') : CloseInv s' F := by
  have hloose : ∀ f j, Loose s' F f j ↔ Loose s ((t, i) :: F) f j := fun f j => hF.loose hi
  have hlinked : ∀ f last, Linked s ((t, i) :: F) f last → Linked s' F f last :=
    fun f last h => hF.linked hi h
  have hother : ∀ x ∈ F, ∀ q, x.2.chainOwns = some q → i.owns ≠ some q := by
    intro x hx q ho ho'
    exact hI.owner_unique ho' x.2 (List.mem_map_of_mem hx) (chainOwns_owns ho)
  have hops : ∀ x ∈ F, ∀ q, x.2.chainOwns = some q → ∀ e, s'.pool q = some e →
      ∃ d, s.pool q = some d ∧ e.jobHandle = d.jobHandle := by
    intro x hx q ho e he
    obtain ⟨d, hd, hprivate⟩ := hI.owner_private
      (List.mem_cons_of_mem i (List.mem_map_of_mem hx)) (chainOwns_owns ho)
    cases hF.handles q e he with
    | born fresh => exact absurd (hI.poolBound q d hd) (Nat.not_lt.mpr fresh)
    | same d' hd' _ _ hj => exact ⟨d', hd', hj⟩
    | set d' hd' _ _ _ howner =>
        rw [hd] at hd'
        cases hd'
        rcases howner with ho' | hm
        · exact absurd ho' (hother x hx q ho)
        · exact absurd hm hprivate
  refine ⟨hC.toChainBase.frame hF, ?_, ?_, ?_, ?_, ?_, ?_, ?_, ?_⟩
  · intro x hx f hf d hd
    have hfx := hC.files x (List.mem_cons_of_mem _ hx) f hf
    obtain ⟨h, hw⟩ := chainFile_window hf
    obtain ⟨e, he, -⟩ := hI.window_live (List.mem_cons_of_mem i (List.mem_map_of_mem hx)) hw
    cases hF.handles f d hd with
    | born fresh => exact absurd (hI.poolBound f e he) (Nat.not_lt.mpr fresh)
    | same e he hid => exact hid.2.1.trans (hfx e he)
    | set e he hid => exact hid.2.1.trans (hfx e he)
  · intro j k n f hj hc hfin
    rcases hF.added j k hj with hj | ⟨-, hnone, -⟩
    · obtain ⟨d, hd⟩ := hC.live j k n f hj hc hfin
      cases hgone : s'.pool f with
      | some e => exact ⟨e, rfl⟩
      | none =>
          obtain ⟨hmap, hidle⟩ := hF.gone f d hd hgone
          rw [hC.idle_finished (by simpa using hI) hd hidle.1 hidle.2.2 hj hc] at hfin
          cases hfin
    · simp [hnone] at hc
  · intro f d hd
    cases hF.handles f d hd with
    | born fresh =>
        intro j hj
        obtain ⟨k, n, hj, hc, -⟩ := (hloose f j).mp hj
        exact absurd (hC.toChainBase.file j f ⟨k, n, hj, hc⟩).1 (Nat.not_lt.mpr fresh)
    | same e he _ hl =>
        rw [hl]
        exact hlinked f _ (hC.linked f e he)
    | set e he _ _ hno =>
        intro j hj
        obtain ⟨k, n, hj, hc, -⟩ := (hloose f j).mp hj
        obtain ⟨h₁, h₂⟩ := (hC.toChainBase.file j f ⟨k, n, hj, hc⟩).2 e he
        rcases hno with hno | hno
        · exact absurd h₁ hno
        · exact absurd h₂ hno
  · exact fun x hx hm f a ha => hlinked f a (hC.before x (List.mem_cons_of_mem _ hx) hm f a ha)
  · intro x hx hm h f p he op hop
    obtain ⟨d, hd, hjh⟩ := hops x hx p (by rw [he]; rfl) op hop
    obtain ⟨k, n, hj, ht, hc, hl, hlt⟩ := hC.after x (List.mem_cons_of_mem _ hx) hm h f p he d hd
    rw [hjh]
    exact ⟨k, n, hF.kept _ k hj, ht, hc, hlinked f _ hl, fun j hj => hlt j ((hloose f j).mp hj)⟩
  · intro x hx h f p r he ht op hop
    obtain ⟨d, hd, hjh⟩ := hops x hx p (by rw [he]; rfl) op hop
    rw [hjh]
    exact hC.inline x (List.mem_cons_of_mem _ hx) h f p r he ht d hd
  · exact fun x hx => hC.worker x (List.mem_cons_of_mem _ hx)
  · intro x hx f p hf ho j k hj htar hfin
    rcases hF.added j k hj with hj | ⟨-, -, -, hunset⟩
    · exact hC.covers x (List.mem_cons_of_mem _ hx) f p hf ho j k hj htar hfin
    · rw [htar] at hunset
      rcases Instr.unset_holder hunset with ho' | hdis
      · exact absurd ho' (hother x hx p ho)
      · obtain ⟨id, hw⟩ := Instr.dispatches_window hdis
        exact (hI.owner_no_window (List.mem_cons_of_mem i (List.mem_map_of_mem hx))
          (chainOwns_owns ho) List.mem_cons_self hw).elim

/-- A point that owns no operation is left behind. -/
theorem CloseInv.pop (hC : CloseInv s ((t, i) :: F)) (hI : Inv s (i :: F.map Prod.snd))
    (hi : i.chainOwns = none) : CloseInv s F :=
  hC.quiet hI hi (.refl i s)

end Changes

/-! ## The points of a chain -/

section Chain

variable {s s' : VfsState} {F : List (Thread × Instr)} {new : List Instr} {f p file : HandlePtr}
  {j last after : FlJobHandle} {k : Job} {d op : VfsHandleData} {i : Instr} {t : Thread}
  {h : FlVfsHandle} {ticket : ℕ} {params : VfsFileOpParams} {m : MountPtr} {c : ℕ} {sched : Sched}
  {refused : Bool}

/-- The job that a call makes is not loose, since the call holds its operation. -/
theorem loose_launch {y : Instr} (hT : Table s) (hi : i.chainOwns = none)
    (hy : y.chainOwns = some p) (htarget : k.target = p)
    (hdone : ∀ j k', s.jobs j = some k' → k'.target = p → k'.phase.isFinished = true)
    (hjobs : s'.jobs = (s.addJob k).jobs) :
    Loose s' ((t, y) :: F) f j ↔ Loose s ((t, i) :: F) f j := by
  constructor
  · rintro ⟨k', m, hj, hc, hfin, ho⟩
    rw [hjobs] at hj
    rcases VfsState.addJob_some hj with ⟨rfl, rfl⟩ | hj
    · exact absurd (hy.trans (congrArg some htarget.symm)) (ho _ List.mem_cons_self)
    · refine ⟨k', m, hj, hc, hfin, fun x hx => ?_⟩
      rcases List.mem_cons.mp hx with rfl | hx
      · simp [hi]
      · exact ho x (List.mem_cons_of_mem _ hx)
  · rintro ⟨k', m, hj, hc, hfin, ho⟩
    refine ⟨k', m, hjobs ▸ hT.addJob_kept hj, hc, hfin, fun x hx => ?_⟩
    rcases List.mem_cons.mp hx with rfl | hx
    · intro ho'
      rw [hy] at ho'
      rw [hdone j k' hj (Option.some.inj ho').symm] at hfin
      cases hfin
    · exact ho x (List.mem_cons_of_mem _ hx)

/-- The call owns an operation that no job is for yet and gives it one. -/
theorem CloseInv.launch {y : Instr} {n : ℕ}
    (hC : CloseInv s ((t, .chainRun h file ticket p after) :: F))
    (hI : Inv s (.chainRun h file ticket p after :: F.map Prod.snd)) (hbase : ChainBase s')
    (htarget : k.target = p) (hchain : k.chained = some (n, file))
    (hjobs : s'.jobs = (s.addJob k).jobs)
    (hpool : ∀ q e, s'.pool q = some e → ∃ d, s.pool q = some d ∧ e.opType = d.opType ∧
      (q ≠ p → e.jobHandle = d.jobHandle ∧ e.lastJob = d.lastJob))
    (hpool' : ∀ q d, s.pool q = some d → ∃ e, s'.pool q = some e)
    (hy : (t ≠ .main ∧ y = .chainInline h file p s.nextJob) ∨
      (t = .main ∧ y = .chainPublish h file p false ∧ k.dependency = after ∧
        ∀ e, s'.pool p = some e → e.jobHandle = s.nextJob)) :
    CloseInv s' ((t, y) :: F) := by
  have hhead : Instr.chainRun h file ticket p after ∈
    Instr.chainRun h file ticket p after :: F.map Prod.snd := List.mem_cons_self
  obtain ⟨d, hd, hprivate⟩ := hI.owner_private hhead rfl
  obtain ⟨hzero, -, -⟩ := hI.unset _ hhead p rfl d hd
  have hown : y.chainOwns = some p := by
    rcases hy with ⟨-, rfl⟩ | ⟨-, rfl, -⟩ <;> rfl
  have hfile : y.chainFile = some file := by
    rcases hy with ⟨-, rfl⟩ | ⟨-, rfl, -⟩ <;> rfl
  have hafterY : y.chainAfter = none := by
    rcases hy with ⟨-, rfl⟩ | ⟨-, rfl, -⟩ <;> rfl
  have hnew : ∀ j k', s'.jobs j = some k' → (j = s.nextJob ∧ k' = k) ∨ s.jobs j = some k' :=
    fun j k' hj => VfsState.addJob_some (hjobs ▸ hj)
  have hold : ∀ j k', s.jobs j = some k' → s'.jobs j = some k' :=
    fun j k' hj => hjobs ▸ hI.toTable.addJob_kept hj
  have hdone : ∀ j k', s.jobs j = some k' → k'.target = p → k'.phase.isFinished = true :=
    fun j k' hj ht => hI.owner_no_job rfl rfl hd hzero hj ht
  have hloose : ∀ f j, Loose s' ((t, y) :: F) f j ↔
      Loose s ((t, .chainRun h file ticket p after) :: F) f j :=
    fun f j => loose_launch hI.toTable rfl hown htarget hdone hjobs
  have hlinked : ∀ f last, Linked s ((t, .chainRun h file ticket p after) :: F) f last →
      Linked s' ((t, y) :: F) f last := fun f last hL =>
    hL.congr (hloose f) fun j k' _ hj => ⟨k', hold j k' hj, rfl⟩
  have hother : ∀ x ∈ F, ∀ q, x.2.chainOwns = some q → q ≠ p := by
    rintro x hx q ho rfl
    exact hI.owner_unique rfl x.2 (List.mem_map_of_mem hx) (chainOwns_owns ho)
  refine ⟨hbase, ?_, ?_, ?_, ?_, ?_, ?_, ?_, ?_⟩
  · intro x hx g hg e he
    obtain ⟨d', hd', hop, -⟩ := hpool g e he
    rcases List.mem_cons.mp hx with rfl | hx
    · rw [hfile] at hg
      cases hg
      exact hop.trans (hC.files _ List.mem_cons_self file rfl d' hd')
    · exact hop.trans (hC.files x (List.mem_cons_of_mem _ hx) g hg d' hd')
  · intro j k' m g hj hc hfin
    rcases hnew j k' hj with ⟨rfl, rfl⟩ | hj
    · rw [hchain] at hc
      cases hc
      obtain ⟨e, he, -⟩ := hI.window_live hhead rfl
      exact hpool' _ e he
    · obtain ⟨e, he⟩ := hC.live j k' m g hj hc hfin
      exact hpool' g e he
  · intro g e he
    obtain ⟨d', hd', -, hsame⟩ := hpool g e he
    by_cases hg : g = p
    · subst hg
      intro j hj
      rw [hd] at hd'
      cases hd'
      exact absurd ((hloose g j).mp hj) (hC.private_no_chain hd hprivate)
    · rw [(hsame hg).2]
      exact hlinked g _ (hC.linked g d' hd')
  · intro x hx hm g a ha
    rcases List.mem_cons.mp hx with rfl | hx
    · rw [hafterY] at ha
      cases ha
    · exact hlinked g a (hC.before x (List.mem_cons_of_mem _ hx) hm g a ha)
  · intro x hx hm h' g q he e hq
    rcases List.mem_cons.mp hx with rfl | hx
    · rcases hy with ⟨hne, -⟩ | ⟨ht, hy, hdep, hjob⟩
      · exact absurd hm hne
      · rw [hy] at he
        cases he
        rw [hjob e hq]
        refine ⟨k, n, ?_, htarget, hchain, ?_, fun j hj => ?_⟩
        · exact hjobs ▸ VfsState.addJob_newest
        · rw [hdep]
          exact hlinked _ _ (hC.before _ List.mem_cons_self ht _ after rfl)
        · obtain ⟨k', m, hj, -⟩ := (hloose _ j).mp hj
          exact (hI.jobBound j k' hj).2
    · obtain ⟨d', hd', -, hsame⟩ := hpool q e hq
      have hq' := hother x hx q (by rw [he]; rfl)
      obtain ⟨k', m, hj, ht, hc, hl, hlt⟩ :=
        hC.after x (List.mem_cons_of_mem _ hx) hm h' g q he d' hd'
      rw [(hsame hq').1]
      exact ⟨k', m, hold _ k' hj, ht, hc, hlinked g _ hl, fun j hj => hlt j ((hloose g j).mp hj)⟩
  · intro x hx h' g q r he ht e hq
    rcases List.mem_cons.mp hx with rfl | hx
    · rcases hy with ⟨-, hy⟩ | ⟨hm, hy, -⟩
      · rw [hy] at he
        cases he
      · rw [hy] at he
        cases he
        rcases ht with ht | ht
        · exact absurd hm ht
        · cases ht
    · obtain ⟨d', hd', -, hsame⟩ := hpool q e hq
      have hq' := hother x hx q (by rw [he]; rfl)
      rw [(hsame hq').1]
      exact hC.inline x (List.mem_cons_of_mem _ hx) h' g q r he ht d' hd'
  · intro x hx h' g q j he
    rcases List.mem_cons.mp hx with rfl | hx
    · rcases hy with ⟨hne, -⟩ | ⟨-, hy, -⟩
      · exact hne
      · rw [hy] at he
        cases he
    · exact hC.worker x (List.mem_cons_of_mem _ hx) h' g q j he
  · intro x hx g q hg ho j k' hj htar hfin
    rcases List.mem_cons.mp hx with rfl | hx
    · rw [hfile] at hg
      rw [hown] at ho
      cases hg
      cases ho
      rcases hnew j k' hj with ⟨rfl, rfl⟩ | hj
      · exact ⟨n, hchain⟩
      · rw [hdone j k' hj htar] at hfin
        cases hfin
    · rcases hnew j k' hj with ⟨rfl, rfl⟩ | hj
      · exact absurd (htar.symm.trans htarget) (hother x hx q ho)
      · exact hC.covers x (List.mem_cons_of_mem _ hx) g q hg ho j k' hj htar hfin

theorem CloseInv.body_chainRun (hC : CloseInv s ((t, .chainRun h file ticket p after) :: F))
    (hI : Inv s (.chainRun h file ticket p after :: F.map Prod.snd)) (hbase : ChainBase s')
    (hx : execBody s c t sched (.chainRun h file ticket p after) = some (s', new)) :
    CloseInv s' (new.map (fun y => (t, y)) ++ F) := by
  have hhead : Instr.chainRun h file ticket p after ∈
    Instr.chainRun h file ticket p after :: F.map Prod.snd := List.mem_cons_self
  obtain ⟨d, hd, hprivate⟩ := hI.owner_private hhead rfl
  cases chainRun_exec hx with
  | blocked worker pending =>
      -- Refused: the operation never gets a job.
      obtain ⟨hzero, -, -⟩ := hI.unset _ hhead p rfl d hd
      have hpop := (hC.pop hI rfl).touch (p := p) (g := refuse) (fun d => ⟨rfl, rfl, rfl⟩)
        fun d => ⟨rfl, rfl⟩
      refine hpop.push ?_ ?_ (by simp [Instr.chainAfter]) (by simp) ?_ (by simp)
      · intro q hq j k hj htar
        cases hq
        exact hI.owner_no_job rfl rfl hd hzero hj htar
      · intro g hg e he
        cases hg
        obtain ⟨e', he', -, -, hop⟩ :=
          modify_origin (f := refuse) (fun d => ⟨rfl, rfl, rfl⟩) he
        exact hop.trans (hC.files _ List.mem_cons_self file rfl e' he')
      · rintro h' g q r hq op hop
        cases hq
        rw [VfsState.modify_pool, if_pos rfl, hd] at hop
        cases hop
        exact hzero
  | inlined worker done =>
      exact hC.launch hI hbase rfl rfl rfl (fun q e he => ⟨e, he, rfl, fun _ => ⟨rfl, rfl⟩⟩)
        (fun q d hd => ⟨d, hd⟩) (.inl ⟨worker, rfl⟩)
  | queued main =>
      refine hC.launch (k := ⟨p, after, some (ticket, file), .queued⟩) hI hbase rfl rfl rfl ?_ ?_
        (.inr ⟨main, rfl, rfl, ?_⟩)
      · intro q e he
        rcases modify_some he with ⟨rfl, e', he', rfl⟩ | ⟨hq, he⟩
        · exact ⟨e', he', rfl, fun hq => absurd rfl hq⟩
        · exact ⟨e, he, rfl, fun _ => ⟨rfl, rfl⟩⟩
      · intro q e he
        obtain ⟨e', he', -⟩ := modify_live
          (s := s.addJob ⟨p, after, some (ticket, file), .queued⟩) (f := setJobs s.nextJob)
          (fun d => ⟨rfl, rfl, rfl⟩) he
        exact ⟨e', he'⟩
      · intro e he
        rw [VfsState.modify_pool, if_pos rfl, VfsState.addJob_pool, hd] at he
        cases he
        rfl

/-- The worker has run the operation and clears its job fields. -/
theorem CloseInv.body_chainInline (hC : CloseInv s ((t, .chainInline h file p j) :: F))
    (hI : Inv s (.chainInline h file p j :: F.map Prod.snd)) (hbase : ChainBase s')
    (hbody : execBody s c t sched (.chainInline h file p j) = some (s', new)) :
    CloseInv s' (new.map (fun y => (t, y)) ++ F) := by
  obtain ⟨-, hnext⟩ := afterJob_some hbody
  cases hnext
  have hne := hC.worker _ List.mem_cons_self h file p j rfl
  have hhead : Instr.chainInline h file p j ∈ Instr.chainInline h file p j :: F.map Prod.snd :=
    List.mem_cons_self
  obtain ⟨d, hd, hprivate⟩ := hI.owner_private hhead rfl
  have hloose : ∀ f j', Loose (s.modify p (setJobs 0)) ((t, .chainPublish h file p false) :: F) f j' ↔
      Loose s ((t, .chainInline h file p j) :: F) f j' := by
    intro f j'
    simp only [Loose, VfsState.modify_jobs, List.forall_mem_cons, Instr.chainOwns]
  have hlinked : ∀ f last, Linked s ((t, .chainInline h file p j) :: F) f last →
      Linked (s.modify p (setJobs 0)) ((t, .chainPublish h file p false) :: F) f last :=
    fun f last hL => hL.congr (hloose f) fun j k _ hj => ⟨k, hj, rfl⟩
  have hother : ∀ x ∈ F, ∀ q, x.2.chainOwns = some q → q ≠ p := by
    intro x hx q ho hq
    exact hI.owner_unique rfl x.2 (List.mem_map_of_mem hx) (hq ▸ chainOwns_owns ho)
  have hkeep : KeepsIdentity (setJobs 0) := fun d => ⟨rfl, rfl, rfl⟩
  refine ⟨hbase, ?_, ?_, ?_, ?_, ?_, ?_, ?_, ?_⟩
  · intro x hx g hg e he
    obtain ⟨e', he', -, -, hop⟩ := modify_origin hkeep he
    rcases List.mem_cons.mp hx with rfl | hx
    · exact hop.trans (hC.files _ List.mem_cons_self g hg e' he')
    · exact hop.trans (hC.files x (List.mem_cons_of_mem _ hx) g hg e' he')
  · intro j' k n g hj hc hfin
    obtain ⟨e, he⟩ := hC.live j' k n g hj hc hfin
    obtain ⟨e', he', -⟩ := modify_live hkeep he
    exact ⟨e', he'⟩
  · intro g e he
    rcases modify_some he with ⟨rfl, e', he', rfl⟩ | ⟨-, he⟩
    · intro j' hj
      exact absurd ((hloose g j').mp hj) (hC.private_no_chain hd hprivate)
    · exact hlinked g _ (hC.linked g e he)
  · intro x hx hm g a ha
    rcases List.mem_cons.mp hx with rfl | hx
    · exact absurd hm hne
    · exact hlinked g a (hC.before x (List.mem_cons_of_mem _ hx) hm g a ha)
  · intro x hx hm h' g q he op hop
    rcases List.mem_cons.mp hx with rfl | hx
    · exact absurd hm hne
    · rcases modify_some hop with ⟨hq, -⟩ | ⟨-, hop⟩
      · exact absurd hq (hother x hx q (by rw [he]; rfl))
      · obtain ⟨k, n, hj, ht, hc, hl, hlt⟩ :=
          hC.after x (List.mem_cons_of_mem _ hx) hm h' g q he op hop
        exact ⟨k, n, hj, ht, hc, hlinked g _ hl, fun j hj => hlt j ((hloose g j).mp hj)⟩
  · intro x hx h' g q r he ht op hop
    rcases List.mem_cons.mp hx with rfl | hx
    · cases he
      rw [VfsState.modify_pool, if_pos rfl, hd] at hop
      cases hop
      rfl
    · rcases modify_some hop with ⟨hq, -⟩ | ⟨-, hop⟩
      · exact absurd hq (hother x hx q (by rw [he]; rfl))
      · exact hC.inline x (List.mem_cons_of_mem _ hx) h' g q r he ht op hop
  · intro x hx h' g q j' he
    rcases List.mem_cons.mp hx with rfl | hx
    · cases he
    · exact hC.worker x (List.mem_cons_of_mem _ hx) h' g q j' he
  · intro x hx g q hg ho
    rcases List.mem_cons.mp hx with rfl | hx
    · exact hC.covers _ List.mem_cons_self g q hg ho
    · exact hC.covers x (List.mem_cons_of_mem _ hx) g q hg ho

/-- Closing a window can only set loose the job recorded on the operation. -/
theorem CloseInv.loosened (hC : CloseInv s ((t, .chainPublish h file p refused) :: F))
    (hI : Inv s (.chainPublish h file p refused :: F.map Prod.snd)) (hop : s.pool p = some op)
    (hjobs : s'.jobs = s.jobs) (hl : Loose s' F f j) :
    Loose s ((t, .chainPublish h file p refused) :: F) f j ∨
      (j = op.jobHandle ∧ f = file ∧ s.jobDone j = false) := by
  obtain ⟨k, n, hj, hc, hfin, ho⟩ := hl
  rw [hjobs] at hj
  by_cases ht : k.target = p
  · refine .inr ⟨hI.owner_job rfl rfl hop hj ht hfin, ?_, ?_⟩
    · obtain ⟨m, hm⟩ := hC.covers _ List.mem_cons_self file p rfl rfl j k hj ht hfin
      rw [hc] at hm
      cases hm
      rfl
    · simp [VfsState.jobDone, VfsState.jobFinished_of hj, hfin, Nat.ne_of_gt (hI.jobBound j k hj).1]
  · refine .inl ⟨k, n, hj, hc, hfin, fun x hx => ?_⟩
    rcases List.mem_cons.mp hx with rfl | hx
    · exact fun he => ht (Option.some.inj he).symm
    · exact ho x hx

theorem Loose.shift (hjobs : s'.jobs = s.jobs) (h : Loose s ((t, i) :: F) f j) : Loose s' F f j := by
  obtain ⟨k, n, hj, hc, hfin, ho⟩ := h
  exact ⟨k, n, hjobs ▸ hj, hc, hfin, fun x hx => ho x (List.mem_cons_of_mem _ hx)⟩

/-- What the main thread records covers the loose operations. -/
theorem CloseInv.recorded (hC : CloseInv s ((.main, .chainPublish h file p false) :: F))
    (hI : Inv s (.chainPublish h file p false :: F.map Prod.snd)) (hop : s.pool p = some op)
    (hjobs : s'.jobs = s.jobs) : Linked s' F file op.jobHandle := by
  obtain ⟨k, n, hk, ht, hc, hlinked, hlt⟩ :=
    hC.after _ List.mem_cons_self rfl h file p rfl op hop
  intro j hj
  rcases hC.loosened hI hop hjobs hj with hold | ⟨rfl, -⟩
  · rcases hlinked j hold with rfl | ⟨j', k', hl, hj', hd, hlt'⟩
    · -- The operation waits for `j`, so it has not run either.
      obtain ⟨k', m, hj', hc', hfin', hown⟩ := hold
      have hfin : k.phase = .queued := by
        by_contra hne
        have := hC.started _ k hk hne
        simp only [VfsState.jobDone, VfsState.jobFinished_of hj', hfin', Bool.or_false,
          beq_iff_eq] at this
        exact Nat.ne_of_gt (hI.jobBound _ k' hj').1 this
      refine .inr ⟨op.jobHandle, k, ⟨k, n, hjobs ▸ hk, hc, by rw [hfin]; rfl, ?_⟩, hjobs ▸ hk, rfl,
        hlt _ ⟨k', m, hj', hc', hfin', hown⟩⟩
      intro x hx ho
      rw [ht] at ho
      exact hI.owner_unique rfl x.2 (List.mem_map_of_mem hx) (chainOwns_owns ho)
    · exact .inr ⟨j', k', hl.shift hjobs, hjobs ▸ hj', hd, hlt'⟩
  · exact .inl rfl

/-- Either no operation becomes loose, or the main thread records the one that does. -/
theorem CloseInv.loose_publish (hC : CloseInv s ((t, .chainPublish h file p refused) :: F))
    (hI : Inv s (.chainPublish h file p refused :: F.map Prod.snd)) (hop : s.pool p = some op)
    (hjobs : s'.jobs = s.jobs) :
    (∀ f j, Loose s' F f j ↔ Loose s ((t, .chainPublish h file p refused) :: F) f j) ∨
      (t = .main ∧ refused = false) := by
  by_cases hmain : t = .main ∧ refused = false
  · exact .inr hmain
  · have hzero := hC.inline _ List.mem_cons_self h file p refused rfl
      (by rw [not_and_or] at hmain; simpa using hmain) op hop
    refine .inl fun f j => ⟨fun hl => ?_, fun hl => hl.shift hjobs⟩
    rcases hC.loosened hI hop hjobs hl with hold | ⟨rfl, -, hdone⟩
    · exact hold
    · simp [VfsState.jobDone, hzero] at hdone

/-- The chains stay linked, but for the one onto which the main thread records. -/
theorem CloseInv.linked_publish (hC : CloseInv s ((t, .chainPublish h file p refused) :: F))
    (hI : Inv s (.chainPublish h file p refused :: F.map Prod.snd)) (hop : s.pool p = some op)
    (hjobs : s'.jobs = s.jobs) (hf : f ≠ file ∨ t ≠ .main ∨ refused = true)
    (hL : Linked s ((t, .chainPublish h file p refused) :: F) f last) : Linked s' F f last := by
  refine hL.congr (fun j => ⟨fun hl => ?_, fun hl => hl.shift hjobs⟩) fun j k _ hj =>
    ⟨k, hjobs ▸ hj, rfl⟩
  rcases hC.loose_publish hI hop hjobs with hcase | ⟨rfl, rfl⟩
  · exact (hcase f j).mp hl
  · rcases hC.loosened hI hop hjobs hl with hold | ⟨-, rfl, -⟩
    · exact hold
    · simp at hf

/-- A call records its operation on the file handle. -/
theorem CloseInv.body_chainPublish (hC : CloseInv s ((t, .chainPublish h file p refused) :: F))
    (hI : Inv s (.chainPublish h file p refused :: F.map Prod.snd))
    (hlast : (Instr.chainPublish h file p refused).InlineLast s t)
    (halone : ∀ x ∈ F, x.1 = t → x.2.window ≠ none → x.2.callsOut = true) (hbase : ChainBase s')
    (hx : execBody s c t sched (.chainPublish h file p refused) = some (s', new)) :
    CloseInv s' (new.map (fun y => (t, y)) ++ F) := by
  cases hx
  obtain ⟨d, op, hd, -, -, hop, -, hpublish⟩ := chainPublish_live hI
  rw [hpublish] at hbase ⊢
  have hkeep : KeepsIdentity (recordOn refused op.jobHandle) := fun d => ⟨rfl, rfl, rfl⟩
  obtain ⟨hpool, hjobs⟩ : (vfsPublishHandle (s.modify file (recordOn refused op.jobHandle)) p).pool =
      (s.modify file (recordOn refused op.jobHandle)).pool ∧
      (vfsPublishHandle (s.modify file (recordOn refused op.jobHandle)) p).jobs = s.jobs := by
    unfold vfsPublishHandle
    split <;> exact ⟨rfl, rfl⟩
  generalize vfsPublishHandle (s.modify file (recordOn refused op.jobHandle)) p = s' at *
  have hcase := hC.loose_publish hI hop hjobs
  have hnone : t = .main → ∀ x ∈ F, x.1 = .main → x.2.chainAfter = none ∧
      ∀ h f p, x.2 ≠ .chainPublish h f p false := by
    rintro rfl x hx hm
    exact callsOut_chain (halone x hx hm)
  have hlinked : ∀ f last, (f ≠ file ∨ t ≠ .main ∨ refused = true) →
      Linked s ((t, .chainPublish h file p refused) :: F) f last → Linked s' F f last :=
    fun f last hf hL => hC.linked_publish hI hop hjobs hf hL
  have hother : ∀ x ∈ F, ∀ f, (∃ a, x.1 = .main ∧ x.2.chainAfter = some (f, a)) ∨
      (∃ h p, x.1 = .main ∧ x.2 = .chainPublish h f p false) →
      t ≠ .main ∨ refused = true := by
    rintro x hx f (⟨a, hm, ha⟩ | ⟨h', p', hm, he⟩)
    · refine .inl fun ht => ?_
      rw [(hnone ht x hx hm).1] at ha
      cases ha
    · exact .inl fun ht => (hnone ht x hx hm).2 h' f p' he
  have hops : ∀ x ∈ F, ∀ h f q r, x.2 = .chainPublish h f q r → ∀ e, s'.pool q = some e →
      ∃ d, s.pool q = some d ∧ e.jobHandle = d.jobHandle := by
    intro x hx h' f q r he e hq
    rw [hpool] at hq
    rcases modify_some hq with ⟨rfl, e', he', rfl⟩ | ⟨-, hq⟩
    · exact ⟨e', he', rfl⟩
    · exact ⟨e, hq, rfl⟩
  refine ⟨hbase, ?_, ?_, ?_, ?_, ?_, ?_, ?_, ?_⟩
  · intro x hx g hg e he
    rw [hpool] at he
    obtain ⟨e', he', -, -, hop'⟩ := modify_origin hkeep he
    exact hop'.trans (hC.files x (List.mem_cons_of_mem _ hx) g hg e' he')
  · intro j k n g hj hc hfin
    rw [hjobs] at hj
    obtain ⟨e, he⟩ := hC.live j k n g hj hc hfin
    obtain ⟨e', he', -⟩ := modify_live hkeep he
    exact ⟨e', hpool ▸ he'⟩
  · intro g e he
    rw [hpool] at he
    rcases modify_some he with ⟨rfl, e', he', rfl⟩ | ⟨hg, he⟩
    · rw [hd] at he'
      cases he'
      have hL := hC.linked g d hd
      rcases hlast with rfl | rfl | hdone
      · cases refused with
        | true => exact hlinked g _ (.inr (.inr rfl)) hL
        | false => exact hC.recorded hI hop hjobs
      · exact hlinked g _ (.inr (.inr rfl)) hL
      · by_cases hmain : t = .main ∧ refused = false
        · obtain ⟨rfl, rfl⟩ := hmain
          exact hC.recorded hI hop hjobs
        · cases refused with
          | true => exact hlinked g _ (.inr (.inr rfl)) hL
          | false =>
              intro j hj
              have hold := (hcase.resolve_right hmain g j).mp hj
              exact absurd hold (hL.none_left hI.toTable (hdone d hd))
    · exact hlinked g _ (.inl hg) (hC.linked g e he)
  · intro x hx hm g a ha
    exact hlinked g a (.inr (hother x hx g (.inl ⟨a, hm, ha⟩)))
      (hC.before x (List.mem_cons_of_mem _ hx) hm g a ha)
  · intro x hx hm h' g q he e hq
    have hout := hother x hx g (.inr ⟨h', q, hm, he⟩)
    obtain ⟨d', hd', hjob⟩ := hops x hx h' g q false he e hq
    obtain ⟨k, n, hj, ht, hc, hl, hlt⟩ :=
      hC.after x (List.mem_cons_of_mem _ hx) hm h' g q he d' hd'
    rw [hjob]
    refine ⟨k, n, hjobs ▸ hj, ht, hc, hlinked g _ (.inr hout) hl, fun j hj => hlt j ?_⟩
    have hmain : ¬ (t = .main ∧ refused = false) := by
      rintro ⟨rfl, rfl⟩
      simp at hout
    exact (hcase.resolve_right hmain g j).mp hj
  · intro x hx h' g q r he ht e hq
    obtain ⟨d', hd', hjob⟩ := hops x hx h' g q r he e hq
    rw [hjob]
    exact hC.inline x (List.mem_cons_of_mem _ hx) h' g q r he ht d' hd'
  · exact fun x hx => hC.worker x (List.mem_cons_of_mem _ hx)
  · intro x hx g q hg ho j k hj
    exact hC.covers x (List.mem_cons_of_mem _ hx) g q hg ho j k (hjobs ▸ hj)

/-- A read or write enters its window after the last one recorded. -/
theorem CloseInv.body_chain (hC : CloseInv s ((t, .chain h params) :: F))
    (hI : Inv s (.chain h params :: F.map Prod.snd))
    (hx : execBody s c t sched (.chain h params) = some (s', new)) :
    CloseInv s' (new.map (fun y => (t, y)) ++ F) := by
  have hpop := hC.pop hI rfl
  cases chain_exec hx with
  | refused =>
      exact hpop
  | @entered _ _ f d hmap hd hopen hop =>
      have hJ := (hpop.touch (p := f) (g := openWindow) (fun d => ⟨rfl, rfl, rfl⟩)
        fun d => ⟨rfl, rfl⟩).of_core ((s.modify f openWindow).emit (.entered s.trace.length f))
        ⟨rfl, rfl, rfl, rfl, rfl⟩
      have hf : ((s.modify f openWindow).emit (.entered s.trace.length f)).pool f =
          some (openWindow d) := by
        rw [VfsState.emit_pool, VfsState.modify_pool, if_pos rfl, hd]
        rfl
      refine hJ.push (by simp [Instr.chainOwns]) ?_ ?_ (by simp) (by simp) (by simp)
      · intro g hg e he
        cases hg
        rw [hf] at he
        cases he
        exact hop
      · intro _ g a ha
        cases ha
        exact hJ.linked f (openWindow d) hf

theorem CloseInv.body_chainAlloc
    (hC : CloseInv s ((t, .chainAlloc h file ticket params m after) :: F))
    (hI : Inv s (.chainAlloc h file ticket params m after :: F.map Prod.snd))
    (hx : execBody s c t sched (.chainAlloc h file ticket params m after) = some (s', new)) :
    CloseInv s' (new.map (fun y => (t, y)) ++ F) := by
  cases chainAlloc_exec hx
  rename_i s₁ known halloc
  have hframe := FileFrame.alloc (i := .chainAlloc h file ticket params m after) halloc
  have hkeep : KeepsIdentity (chainFill h params) := fun d => ⟨rfl, rfl, rfl⟩
  have hL : t = .main → Linked s₁ F file after := fun ht =>
    hframe.linked rfl (hC.before _ List.mem_cons_self ht file after rfl)
  have hJ := (hC.quiet hI rfl hframe).touch (p := s.nextPtr) hkeep fun d => ⟨rfl, rfl⟩
  refine hJ.push (by simp [Instr.chainOwns]) ?_ ?_ (by simp) (by simp) (by simp)
  · intro g hg e he
    cases hg
    obtain ⟨e', he', -, -, hop⟩ := modify_origin hkeep he
    obtain ⟨d, hd, -⟩ := hI.window_live (i := .chainAlloc h file ticket params m after)
      List.mem_cons_self rfl
    cases hframe.handles file e' he' with
    | born fresh => exact absurd (hI.poolBound file d hd) (Nat.not_lt.mpr fresh)
    | same b hb hid =>
        exact hop.trans (hid.2.1.trans (hC.files _ List.mem_cons_self file rfl b hb))
    | set b hb hid =>
        exact hop.trans (hid.2.1.trans (hC.files _ List.mem_cons_self file rfl b hb))
  · intro ht g a ha
    cases ha
    exact hL ht

theorem CloseInv.body_chainUnwind (hC : CloseInv s ((t, .chainUnwind h file) :: F))
    (hI : Inv s (.chainUnwind h file :: F.map Prod.snd))
    (hx : execBody s c t sched (.chainUnwind h file) = some (s', new)) :
    CloseInv s' (new.map (fun y => (t, y)) ++ F) := by
  cases hx
  obtain ⟨d, -, -, -, hunwind⟩ := chainUnwind_live hI
  rw [hunwind]
  exact (hC.pop hI rfl).touch (fun d => ⟨rfl, rfl, rfl⟩) fun d => ⟨rfl, rfl⟩

/-- Every body, up to the end of `vfs_destroy`. -/
theorem CloseInv.body (hC : CloseInv s ((t, i) :: F)) (hI : Inv s (i :: F.map Prod.snd))
    (hD : i.Disciplined s (F.map Prod.snd)) (hlast : i.InlineLast s t)
    (halone : ∀ x ∈ F, x.1 = t → x.2.window ≠ none → x.2.callsOut = true)
    (hx : execBody s c t sched i = some (s', new)) (hlive : s'.destroyed = false) :
    CloseInv s' (new.map (fun y => (t, y)) ++ F) := by
  have hbase : ChainBase s' := hC.toChainBase.body hI hD
    (fun f hf d hd => hC.files _ List.mem_cons_self f hf d hd) hx hlive
  cases i with
  | chain h params => exact hC.body_chain hI hx
  | chainAlloc h file ticket params m after => exact hC.body_chainAlloc hI hx
  | chainUnwind h file => exact hC.body_chainUnwind hI hx
  | chainRun h file ticket p after => exact hC.body_chainRun hI hbase hx
  | chainInline h file p j => exact hC.body_chainInline hI hbase hx
  | chainPublish h file p refused => exact hC.body_chainPublish hI hlast halone hbase hx
  | _ => exact (hC.quiet hI rfl (body_frame hI hD rfl hx hlive)).pushQuiet _ (body_chainFile rfl hx)

end Chain

/-! ## Jobs, steps and runs -/

section Runs

variable {s s' : VfsState} {F : List (Thread × Instr)} {f : HandlePtr} {j last : FlJobHandle}
  {k : Job} {d : VfsHandleData} {phase : JobPhase} {g : VfsHandleData → VfsHandleData}
  {es : List Event} {a : Action}

theorem CloseInv.jobMove (hC : CloseInv s F) (hT : Table s) (hk : s.jobs j = some k)
    (hm : JobMove s j k d phase g es) : CloseInv (afterMove s j k.target phase g es) F := by
  have hkeep := hm.keeps.1
  have hfields := hm.keeps.2
  have hback : ∀ x k', (afterMove s j k.target phase g es).jobs x = some k' →
      ∃ k₀, s.jobs x = some k₀ ∧ k'.target = k₀.target ∧ k'.chained = k₀.chained ∧
        (k'.phase.isFinished = false → k₀.phase.isFinished = false) := by
    intro x k' hx
    obtain ⟨k₀, hk₀, ht, hc, -, hother, hmoved⟩ := afterMove_back hk hx
    refine ⟨k₀, hk₀, ht, hc, fun hfin => ?_⟩
    by_cases hxj : x = j
    · rw [(hmoved hxj).1]
      exact hm.unfinished
    · exact hother hxj ▸ hfin
  have hloose : ∀ f x, Loose (afterMove s j k.target phase g es) F f x → Loose s F f x := by
    rintro f x ⟨k', n, hx, hc, hfin, ho⟩
    obtain ⟨k₀, hk₀, ht, hc', hfin'⟩ := hback x k' hx
    exact ⟨k₀, n, hk₀, hc' ▸ hc, hfin' hfin, ht ▸ ho⟩
  have hlinked : ∀ f last, Linked s F f last → Linked (afterMove s j k.target phase g es) F f last
      := by
    intro f last hL x hx
    have hxs := hloose f x hx
    rcases hL x hxs with rfl | ⟨j', k', ⟨k'', n, hj'', hc, hfin, ho⟩, hj', hd, hlt⟩
    · exact .inl rfl
    · rw [hj'] at hj''
      cases hj''
      obtain ⟨k₁, hk₁, ht₁, hc₁, hd₁, hp₁⟩ := afterMove_forth hj'
      refine .inr ⟨j', k₁, ⟨k₁, n, hk₁, hc₁.trans hc, ?_, ht₁ ▸ ho⟩, hk₁, hd₁.trans hd, hlt⟩
      by_cases hjj : j' = j
      · -- The job that moves has a finished dependency once it runs, and `x` is unfinished.
        subst hjj
        rw [hk] at hj'
        cases hj'
        obtain ⟨k₀, m, hx₀, -, hfin₀, -⟩ := hxs
        have hundone : s.jobDone x = false := by
          simp [VfsState.jobDone, VfsState.jobFinished_of hx₀, hfin₀,
            Nat.ne_of_gt (hT.jobBound x k₀ hx₀).1]
        have hdep := hC.dependency_done hk hm
        rw [hd, hundone] at hdep
        cases hdep
      · rw [hp₁ hjj]
        exact hfin
  refine ⟨hC.toChainBase.jobMove hk hm, ?_, ?_, ?_, ?_, ?_, ?_, hC.worker, ?_⟩
  · intro x hx f hf e he
    obtain ⟨e', he', -, -, hop⟩ := modify_origin hkeep he
    exact hop.trans (hC.files x hx f hf e' he')
  · intro x k' n f hx hc hfin
    obtain ⟨k₀, hk₀, -, hc', hfin'⟩ := hback x k' hx
    obtain ⟨e, he⟩ := hC.live x k₀ n f hk₀ (hc' ▸ hc) (hfin' hfin)
    obtain ⟨e', he', -⟩ := modify_live hkeep he
    exact ⟨e', he'⟩
  · intro f e he
    rcases modify_some he with ⟨rfl, e', he', rfl⟩ | ⟨-, he⟩
    · rw [(hfields e').2.2]
      exact hlinked _ _ (hC.linked _ e' he')
    · exact hlinked f _ (hC.linked f e he)
  · exact fun x hx hmain f a ha => hlinked f a (hC.before x hx hmain f a ha)
  · intro x hx hmain h f p he op hop
    have hold : ∃ op', s.pool p = some op' ∧ op.jobHandle = op'.jobHandle := by
      rcases modify_some hop with ⟨rfl, e', he', rfl⟩ | ⟨-, hop⟩
      · exact ⟨e', he', (hfields e').2.1⟩
      · exact ⟨op, hop, rfl⟩
    obtain ⟨op', hop', hjob⟩ := hold
    obtain ⟨k', n, hj', ht, hc, hl, hlt⟩ := hC.after x hx hmain h f p he op' hop'
    obtain ⟨k₁, hk₁, ht₁, hc₁, hd₁, -⟩ := afterMove_forth hj'
    refine ⟨k₁, n, hjob ▸ hk₁, ht₁.trans ht, hc₁.trans hc, hd₁ ▸ hlinked f _ hl, fun y hy => ?_⟩
    rw [hjob]
    exact hlt y (hloose f y hy)
  · intro x hx h f p r he ht op hop
    rcases modify_some hop with ⟨rfl, e', he', rfl⟩ | ⟨-, hop⟩
    · rw [(hfields e').2.1]
      exact hC.inline x hx h f _ r he ht e' he'
    · exact hC.inline x hx h f p r he ht op hop
  · intro x hx f p hf ho y k' hy htar hfin
    obtain ⟨k₀, hk₀, ht₀, hc₀, hfin₀⟩ := hback y k' hy
    obtain ⟨n, hn⟩ := hC.covers x hx f p hf ho y k₀ hk₀ (ht₀ ▸ htar) (hfin₀ hfin)
    exact ⟨n, hc₀.trans hn⟩

/-- One step keeps the invariant, until the VFS is destroyed. -/
theorem CloseInv.step (hC : CloseInv s s.threadFrames) (hI : Inv s s.frames)
    (hS : Stacked s.calls) (hD : Disciplined s a) (hlast : InlineLast s a)
    (h : step s a = some s') (hlive : s'.destroyed = false) : CloseInv s' s'.threadFrames := by
  cases a with
  | start t request =>
      simp only [FlowiVfs.step] at h
      split_ifs at h
      cases h
      have hJ := hC.pushQuiet (t := t) request.program fun x hx => by
        by_contra hne
        obtain ⟨f, hf⟩ := Option.ne_none_iff_exists'.mp hne
        obtain ⟨id, hw⟩ := chainFile_window hf
        rw [(program_quiet request x hx).2.1] at hw
        cases hw
      refine (hJ.of_core { s with calls := s.calls ++ [⟨t, request.program⟩] }
        ⟨rfl, rfl, rfl, rfl, rfl⟩).perm ?_
      simp only [VfsState.threadFrames, List.flatMap_append, List.flatMap_cons, List.flatMap_nil,
        List.append_nil]
      exact List.perm_append_comm
  | job j input =>
      simp only [FlowiVfs.step] at h
      split_ifs at h
      obtain ⟨k, d, phase, f, es, hk, -, hm, rfl⟩ := jobStep_cases h
      exact hC.jobMove hI.toTable hk hm
  | exec c sched =>
      obtain ⟨t, i, rest, s₁, new, hc, htop, -, hx, rfl⟩ := step_exec h
      have hsplit := threadFrames_split hc
      have hJ : CloseInv s ((t, i) :: s.otherFrames c t rest) := hC.perm hsplit
      have hframes : s.frames.Perm (i :: (s.otherFrames c t rest).map Prod.snd) := by
        rw [← threadFrames_frames]
        exact hsplit.map Prod.snd
      have hK : Inv s (i :: (s.otherFrames c t rest).map Prod.snd) := hI.perm hframes
      have hDi : i.Disciplined s ((s.otherFrames c t rest).map Prod.snd) := by
        refine (hD i (by simp [headInstr, hc])).mono fun x hx => ?_
        exact hframes.mem_iff.mpr (List.mem_cons_of_mem i hx)
      have hlasti : i.InlineLast s t := hlast ⟨t, i :: rest⟩ (by simp [hc]) i (by simp)
      have halone := hS.alone hc htop
      obtain ⟨s₀, s₂, hbody, hlock⟩ := exec_body hx
      have hL : CloseInv s₁ (new.map (fun y => (t, y)) ++ s.otherFrames c t rest) := by
        rcases hlock with ⟨-, rfl, rfl⟩ | ⟨-, rfl, rfl⟩
        · have hJ' := hJ.of_core (s.emit (.lock c)) ⟨rfl, rfl, rfl, rfl, rfl⟩
          exact (hJ'.body (hK.emit (by simp) (by simp)) (emit_disciplined hDi) hlasti halone hbody
            hlive).of_core _ ⟨rfl, rfl, rfl, rfl, rfl⟩
        · exact hJ.body hK hDi hlasti halone hbody hlive
      exact (hL.of_core { s₁ with calls := s.calls.set c ⟨t, new ++ rest⟩ }
        ⟨rfl, rfl, rfl, rfl, rfl⟩).perm (threadFrames_set hc rfl).symm

theorem closeInv_init : CloseInv .init VfsState.init.threadFrames := by
  refine ⟨⟨?_, ?_⟩, ?_, ?_, ?_, ?_, ?_, ?_, ?_, ?_⟩
  all_goals simp [VfsState.init, VfsState.threadFrames, ChainedOn]

/-- The calls close and sweep safely in every run in which each worker finds the job
recorded on its file finished when it records its inline operation. -/
theorem chains_safe (h : Reaches step (fun s a => Disciplined s a ∧ InlineLast s a) .init s) :
    ChainsSafe s := by
  refine (h.invariant (P := fun s => ChainsSafe s ∧ (s.destroyed = false →
    Inv s s.frames ∧ CloseInv s s.threadFrames ∧ Stacked s.calls)) ?_ ?_).1
  · refine ⟨closeInv_init.safe ?_, fun _ => ⟨inv_init, closeInv_init, ?_⟩⟩
    · rw [threadFrames_frames]
      exact inv_init
    · exact stacked_init
  · rintro s a s' ⟨hsafe, hinv⟩ ⟨hD, hlast⟩ hstep
    cases hlive : s'.destroyed with
    | false =>
        obtain ⟨hI, hC, hS⟩ := hinv (step_keeps_destroyed hstep hlive)
        have hI' := hI.step hD hstep hlive
        have hC' := hC.step hI hS hD hlast hstep hlive
        exact ⟨hC'.safe (threadFrames_frames s' ▸ hI'), fun _ => ⟨hI', hC', hS.step hstep⟩⟩
    | true =>
        refine ⟨?_, nofun⟩
        obtain ⟨hpool, hjobs, -⟩ := destroyed_core hstep hlive
        have hdone := fun j => VfsState.jobDone_congr (j := j) hjobs
        exact ⟨by rw [hpool, hjobs]; exact hsafe.live,
          by simp only [hpool, hjobs, hdone]; exact hsafe.idle⟩

/-- Job `j` is a read or write on `f` that has or has not finished. -/
def chainedState (s : VfsState) (j : FlJobHandle) : Option (HandlePtr × Bool) :=
  (s.jobs j).bind fun k => k.chained.map fun c => (c.2, k.phase.isFinished)

theorem chainedState_some {b : Bool} (hj : chainedState s j = some (f, b)) :
    ∃ k n, s.jobs j = some k ∧ k.chained = some (n, f) ∧ k.phase.isFinished = b := by
  obtain ⟨k, hk, hc⟩ := Option.bind_eq_some_iff.mp hj
  obtain ⟨⟨n, g⟩, hc', he⟩ := Option.map_eq_some_iff.mp hc
  cases he
  exact ⟨k, n, hk, hc', rfl⟩

/-- A worker reads inline, and then the file is closed. -/
theorem chains_safe_inline_read : ∃ s, Reaches step (fun s a => Disciplined s a ∧ InlineLast s a)
    .init s ∧ s.pool 1 = none ∧ ChainedOn s 3 1 ∧ ChainsSafe s := by
  let actions := openFileScript ++ [.start (.worker 0) (.read 2 10)] ++ callSteps 2 3 ++
    chainedRuns 3 10 ++ callSteps 2 2 ++ [.start .main (.close 2)] ++ callSteps 3 4
  have hrun : ((replay step (fun s a => Disciplined s a ∧ InlineLast s a) actions .init).map
      fun s => ((s.pool 1).isNone, chainedState s 3)) = some (true, some (1, true)) := by
    decide +kernel
  obtain ⟨s, hs, hfacts⟩ := Option.map_eq_some_iff.mp hrun
  simp only [Prod.mk.injEq, Option.isNone_iff_eq_none] at hfacts
  obtain ⟨k, n, hk, hc, -⟩ := chainedState_some hfacts.2
  have hreach := replay_reaches actions hs
  exact ⟨s, hreach, hfacts.1, ⟨k, n, hk, hc⟩, chains_safe hreach⟩

/-- A worker enters its window first, the main thread queues a read, the worker runs its own
inline and clears `last_job`: the close that follows frees the file under the queued read. -/
theorem inline_read_unprotects_file : ∃ s, Reaches step Disciplined .init s ∧ ¬ ChainsSafe s := by
  let actions := openFileScript ++ [.start (.worker 0) (.read 2 10)] ++ callSteps 2 1 ++
    [.start .main (.read 2 10)] ++ callSteps 3 4 ++ callSteps 2 2 ++ chainedRuns 4 10 ++
    callSteps 2 2 ++ [.start .main (.close 2)] ++ callSteps 4 4
  have hrun : ((replay step Disciplined actions .init).map
      fun s => ((s.pool 1).isNone, chainedState s 3)) = some (true, some (1, false)) := by
    decide +kernel
  obtain ⟨s, hs, hfacts⟩ := Option.map_eq_some_iff.mp hrun
  simp only [Prod.mk.injEq, Option.isNone_iff_eq_none] at hfacts
  obtain ⟨k, n, hk, hc, hfin⟩ := chainedState_some hfacts.2
  refine ⟨s, replay_reaches actions hs, fun hsafe => ?_⟩
  rw [hsafe.live 3 k n 1 hk hc hfacts.1] at hfin
  cases hfin

end Runs

end FlowiVfs
