import FlowiVfs.FileChains

/-!
# The order of the reads and writes on a file

The operations launched on an open file are numbered twice: by the ticket of
their entry in `vfs_chain_file_op` and by the job that executes them. When no
call launches its operation behind a later entry or past an operation that
`chain_after` does not cover, both numberings agree, and an operation starts
only after all smaller ones have finished.
-/
namespace FlowiVfs

open Transition

/-- The operations chained onto a file execute one at a time, in the order of their
entry, and after the open of the file. -/
structure ChainsOrdered (s : VfsState) : Prop where
  /-- Tickets are times: that of an operation is the place of its entry in the trace. -/
  entered : ∀ j k n f, s.jobs j = some k → k.chained = some (n, f) →
    s.trace.reverse[n]? = some (.entered n f)
  order : ∀ j k n j' k' n' f, s.jobs j = some k → k.chained = some (n, f) →
    s.jobs j' = some k' → k'.chained = some (n', f) → n' < n → k.phase ≠ .queued →
      k'.phase.isFinished = true
  alone : ∀ j k n j' k' n' f g g', s.jobs j = some k → k.chained = some (n, f) →
    s.jobs j' = some k' → k'.chained = some (n', f) → k.phase = .inDriver g →
      k'.phase = .inDriver g' → j = j'
  opened : ∀ j k n f, s.jobs j = some k → k.chained = some (n, f) → k.phase ≠ .queued →
    ∀ j₀ k₀, s.jobs j₀ = some k₀ → k₀.target = f → k₀.phase.isFinished = true

/-! ## The condition -/

/-- Job `j` executes an operation chained onto `f`. -/
def VfsState.onFile (s : VfsState) (f : HandlePtr) (j : FlJobHandle) : Bool :=
  (s.jobs j).any fun k => k.chained.any fun c => c.2 == f

/-- The place of the entry of the operation that job `j` executes. -/
def VfsState.ticket (s : VfsState) (j : FlJobHandle) : Option ℕ :=
  (s.jobs j).bind fun k => k.chained.map Prod.fst

/-- An operation that is not refused is launched before those that entered after it, and
`chain_after` is the newest unfinished operation on the file, if there is one. -/
def Instr.InTurn (s : VfsState) (t : Thread) : Instr → Prop
  | .chainRun _ file ticket _ after => (t ≠ .main ∧ s.jobDone after = false) ∨
      ∀ j < s.nextJob, s.onFile file j = true → (∀ m ∈ s.ticket j, m < ticket) ∧
        (s.jobDone j = false → j ≤ after ∧ s.onFile file after = true)
  | _ => True

instance (s : VfsState) (t : Thread) (i : Instr) : Decidable (i.InTurn s t) :=
  match i with
  | .chainRun _ file ticket _ after => inferInstanceAs (Decidable
      ((t ≠ .main ∧ s.jobDone after = false) ∨
        ∀ j < s.nextJob, s.onFile file j = true → (∀ m ∈ s.ticket j, m < ticket) ∧
          (s.jobDone j = false → j ≤ after ∧ s.onFile file after = true)))
  | .allocOp _ | .prepare _ | .schedule _ | .inlineOp _ _ _ | .publish _ | .mountOpen
  | .mountSchedule _ _ | .mountInline _ _ _ | .mountPublish _ _ _ | .dispatch _
  | .dispatchSchedule _ _ | .dispatchInline _ _ _ _ | .dispatchRecord _ _ _ | .copyData _ _
  | .chain _ _ | .chainAlloc _ _ _ _ _ _ | .chainUnwind _ _ | .chainInline _ _ _ _
  | .chainPublish _ _ _ _ | .cancel _ | .reclaim | .releases _ | .closeSnapshot _
  | .closeFinish _ _ | .waitJobs _ | .waitSnapshot _ | .waitAllSnapshot | .mountUnlist _
  | .mountSnapshot _ | .mountDrain _ _ | .mountFree _ _ | .mountDestroy _ | .destroyLoop =>
      .isTrue trivial

def InTurn (s : VfsState) : Action → Prop
  | .exec c _ => ∀ k ∈ s.calls[c]?, ∀ i ∈ k.todo.head?, i.InTurn s k.thread
  | _ => True

instance (s : VfsState) (a : Action) : Decidable (InTurn s a) :=
  match a with
  | .exec c _ => inferInstanceAs (Decidable (∀ k ∈ s.calls[c]?, ∀ i ∈ k.todo.head?,
      i.InTurn s k.thread))
  | .start _ _ => .isTrue trivial
  | .job _ _ => .isTrue trivial

/-! ## The invariant -/

/-- `f` is an open file that callers can name, as long as its handle lives. -/
def IsFile (s : VfsState) (f : HandlePtr) : Prop :=
  f < s.nextPtr ∧ ∀ d, s.pool f = some d → s.mapGet d.id = some f ∧ d.opType = .fileOpen

/-- The jobs on `f` itself, which open it, have finished. -/
def Opened (s : VfsState) (f : HandlePtr) : Prop :=
  ∀ j k, s.jobs j = some k → k.target = f → k.phase.isFinished = true

/-- Once job `x` has finished, `f` has been opened. -/
def Covers (s : VfsState) (f : HandlePtr) (x : FlJobHandle) : Prop :=
  Opened s f ∨ ChainedOn s x f ∨ ∃ d, s.pool f = some d ∧ d.jobHandle = x

structure OrderInv (s : VfsState) (F : List Instr) : Prop extends ChainBase s where
  files : ∀ x ∈ F, ∀ f, x.chainFile = some f → ∀ d, s.pool f = some d → d.opType = .fileOpen
  stamped : ∀ j k n f, s.jobs j = some k → k.chained = some (n, f) →
    s.trace.reverse[n]? = some (.entered n f)
  waits : ∀ x ∈ F, ∀ f n after, x.waiting = some (f, n, after) →
    s.trace.reverse[n]? = some (.entered n f) ∧ Covers s f after
  /-- Of two operations on a file the older has finished or is waited for. -/
  serial : ∀ j k n j' k' n' f, s.jobs j = some k → k.chained = some (n, f) →
    s.jobs j' = some k' → k'.chained = some (n', f) → j' < j → n' < n ∧
      (k'.phase.isFinished = true ∨
        (k.phase = .queued ∧ j' ≤ k.dependency ∧ ChainedOn s k.dependency f))
  opened : ∀ j k n f, s.jobs j = some k → k.chained = some (n, f) →
    Covers s f k.dependency ∧ (k.phase ≠ .queued → Opened s f)
  last : ∀ f d, s.pool f = some d → d.opType = .fileOpen → d.lastJob = d.jobHandle ∨
    (s.mapGet d.id = some f ∧ Covers s f d.lastJob)
  inline : ∀ x ∈ F, ∀ h f p j, x = .chainInline h f p j → Opened s f
  recorded : ∀ x ∈ F, ∀ h f p, x = .chainPublish h f p false → ∀ op, s.pool p = some op →
    Covers s f op.jobHandle

section Invariant

variable {s s' : VfsState} {F G : List Instr} {f p : HandlePtr} {j x : FlJobHandle} {k : Job}
  {d : VfsHandleData} {i : Instr} {t : Thread} {n : ℕ} {e : Event}

theorem onFile_iff : s.onFile f j = true ↔ ChainedOn s j f := by
  simp only [VfsState.onFile, ChainedOn, Option.any_eq_true, beq_iff_eq]
  constructor
  · rintro ⟨k, hk, ⟨n, g⟩, hc, rfl⟩
    exact ⟨k, n, hk, hc⟩
  · rintro ⟨k, n, hk, hc⟩
    exact ⟨k, hk, (n, f), hc, rfl⟩

theorem ticket_of (hj : s.jobs j = some k) (hc : k.chained = some (n, f)) :
    s.ticket j = some n := by
  simp [VfsState.ticket, hj, hc]

/-- What happened at a time stays. -/
theorem stamp_keeps {old new : List Event} (hnew : ∃ es, new = es ++ old)
    (h : old.reverse[n]? = some e) : new.reverse[n]? = some e := by
  obtain ⟨es, rfl⟩ := hnew
  rw [List.reverse_append, List.getElem?_append_left (List.getElem?_eq_some_iff.mp h).1, h]

theorem OrderInv.ordered (hO : OrderInv s F) : ChainsOrdered s := by
  have horder : ∀ j k n j' k' n' f, s.jobs j = some k → k.chained = some (n, f) →
      s.jobs j' = some k' → k'.chained = some (n', f) → n' < n → k.phase ≠ .queued →
        k'.phase.isFinished = true := by
    intro j k n j' k' n' f hk hc hk' hc' hn hstarted
    rcases Nat.lt_trichotomy j' j with hj | rfl | hj
    · exact (hO.serial j k n j' k' n' f hk hc hk' hc' hj).2.resolve_right
        fun h => hstarted h.1
    · rw [hk] at hk'
      cases hk'
      rw [hc] at hc'
      cases hc'
      exact absurd hn (Nat.lt_irrefl n)
    · exact absurd (hO.serial j' k' n' j k n f hk' hc' hk hc hj).1 (Nat.lt_asymm hn)
  refine ⟨hO.stamped, horder, ?_, fun j k n f hk hc hs => (hO.opened j k n f hk hc).2 hs⟩
  intro j k n j' k' n' f g g' hk hc hk' hc' hin hin'
  have hfin : ∀ k : Job, ∀ g, k.phase = .inDriver g → k.phase ≠ .queued ∧
      k.phase.isFinished = false := by
    intro k g h
    simp [h, JobPhase.isFinished]
  rcases Nat.lt_trichotomy j j' with hj | hj | hj
  · have := (hO.serial j' k' n' j k n f hk' hc' hk hc hj).2.resolve_right
      fun h => (hfin k' g' hin').1 h.1
    rw [(hfin k g hin).2] at this
    cases this
  · exact hj
  · have := (hO.serial j k n j' k' n' f hk hc hk' hc' hj).2.resolve_right
      fun h => (hfin k g hin).1 h.1
    rw [(hfin k' g' hin').2] at this
    cases this

theorem OrderInv.perm (hO : OrderInv s F) (hp : F.Perm G) : OrderInv s G where
  toChainBase := hO.toChainBase
  files x hx := hO.files x (hp.mem_iff.mpr hx)
  stamped := hO.stamped
  waits x hx := hO.waits x (hp.mem_iff.mpr hx)
  serial := hO.serial
  opened := hO.opened
  last := hO.last
  inline x hx := hO.inline x (hp.mem_iff.mpr hx)
  recorded x hx := hO.recorded x (hp.mem_iff.mpr hx)

/-- A call that has yet to set the job fields of a handle has no file there. -/
theorem Inv.unset_no_file (hI : Inv s F) (hi : i ∈ F) (hu : i.unset = some f) : ¬ IsFile s f := by
  rintro ⟨-, hfile⟩
  rcases Instr.unset_holder hu with ho | hdis
  · obtain ⟨d, hd, hprivate⟩ := hI.owner_private hi ho
    exact hprivate (hfile d hd).1
  · obtain ⟨id, hw⟩ := Instr.dispatches_window hdis
    obtain ⟨d, hd, -⟩ := hI.window_live hi hw
    exact (hI.dispatching i hi f hdis d hd).2 (hfile d hd).2

/-- A file whose recorded open has finished has been opened. -/
theorem Inv.opened_of_done (hI : Inv s F) (hf : IsFile s f) (hd : s.pool f = some d)
    (hdone : s.jobDone d.jobHandle = true) : Opened s f := by
  intro j k hj ht
  by_contra hne
  have hfin : k.phase.isFinished = false := by simpa using hne
  obtain ⟨e, he, hrun⟩ := hI.running j k hj hfin
  rw [ht, hd] at he
  cases he
  rcases hrun with rfl | ⟨x, hx, hc⟩
  · simp only [VfsState.jobDone, VfsState.jobFinished_of hj, hfin, Bool.or_false,
      beq_iff_eq] at hdone
    exact Nat.ne_of_gt (hI.jobBound _ k hj).1 hdone
  · rw [ht] at hc
    exact hI.unset_no_file hx (Instr.carries_holder hc).1 hf

/-- A step leaves the job fields of a handle that another call owns. -/
theorem Inv.other_owner (hI : Inv s (i :: F)) (hF : FileFrame i s s') {y : Instr} (hy : y ∈ F)
    (ho : y.owns = some p) {e : VfsHandleData} (he : s'.pool p = some e) :
    ∃ d, s.pool p = some d ∧ e.jobHandle = d.jobHandle := by
  obtain ⟨d, hd, hprivate⟩ := hI.owner_private (List.mem_cons_of_mem i hy) ho
  cases hF.handles p e he with
  | born fresh => exact absurd (hI.poolBound p d hd) (Nat.not_lt.mpr fresh)
  | same d' hd' _ _ hj => exact ⟨d', hd', hj⟩
  | set d' hd' _ _ _ howner =>
      rw [hd] at hd'
      cases hd'
      rcases howner with ho' | hm
      · exact absurd ho (hI.owner_unique ho' y hy)
      · exact absurd hm hprivate

theorem ChainBase.isFile (hB : ChainBase s) (hj : ChainedOn s j f) : IsFile s f := hB.file j f hj

theorem OrderInv.frame_file (hO : OrderInv s F) (hI : Inv s F) (hi : i ∈ F)
    (hf : i.chainFile = some f) : IsFile s f := by
  have hw : ∃ id, i.window = some (id, f) := by
    cases i with
    | chainAlloc | chainUnwind | chainRun | chainInline | chainPublish =>
        cases hf
        exact ⟨_, rfl⟩
    | _ => cases hf
  obtain ⟨id, hw⟩ := hw
  obtain ⟨d, hd, hid, hmap, -⟩ := hI.window_live hi hw
  refine ⟨hI.poolBound f d hd, fun e he => ?_⟩
  rw [hd] at he
  cases he
  exact ⟨hid ▸ hmap, hO.files i hi f hf d hd⟩

theorem Opened.frame (h : Opened s f) (hI : Inv s (i :: F)) (hf : IsFile s f)
    (hF : FileFrame i s s') : Opened s' f := by
  intro j k hj ht
  rcases hF.added j k hj with hj | ⟨-, -, -, hu⟩
  · exact h j k hj ht
  · exact (hI.unset_no_file List.mem_cons_self (ht ▸ hu) hf).elim

theorem Covers.frame (h : Covers s f x) (hI : Inv s (i :: F)) (hf : IsFile s f)
    (hF : FileFrame i s s') : Covers s' f x := by
  rcases h with h | h | ⟨d, hd, hx⟩
  · exact .inl (h.frame hI hf hF)
  · exact .inr (.inl (hF.chainedOn.mpr h))
  · cases he : s'.pool f with
    | some e =>
        obtain ⟨d', hd', -, -, -, hjob, -⟩ := hF.openFile hf.1 he hf.2
        rw [hd] at hd'
        cases hd'
        exact .inr (.inr ⟨e, he, hjob.trans hx⟩)
    | none =>
        obtain ⟨hmap, hidle⟩ := hF.gone f d hd he
        have hopened : Opened s f := fun j k hj ht => hI.idle_jobs_finished hmap hd hidle hj ht
        exact .inl (hopened.frame hI hf hF)

theorem IsFile.frame (hf : IsFile s f) (hF : FileFrame i s s') : IsFile s' f := by
  refine ⟨Nat.lt_of_lt_of_le hf.1 hF.ptr, fun d hd => ?_⟩
  obtain ⟨e, he, hid, hop, -, -, -, hm⟩ := hF.openFile hf.1 hd hf.2
  exact ⟨hid ▸ hm, hop.trans (hf.2 e he).2⟩

/-- A step outside the launches; the point the call was at is left behind. -/
theorem OrderInv.quiet (hO : OrderInv s (i :: F)) (hI : Inv s (i :: F)) (hF : FileFrame i s s') :
    OrderInv s' F := by
  have htrace : ∃ es, s'.trace = es ++ s.trace := hF.trace.imp fun es h => h.1
  have hold : ∀ {j k n f}, s'.jobs j = some k → k.chained = some (n, f) → s.jobs j = some k := by
    intro j k n f hj hc
    rcases hF.added j k hj with hj | ⟨-, hnone, -⟩
    · exact hj
    · simp [hnone] at hc
  have hfileOf : ∀ {j k n f}, s.jobs j = some k → k.chained = some (n, f) → IsFile s f :=
    fun hj hc => hO.toChainBase.isFile ⟨_, _, hj, hc⟩
  refine ⟨hO.toChainBase.frame hF, ?_, ?_, ?_, ?_, ?_, ?_, ?_, ?_⟩
  · intro x hx f hf d hd
    have hfile := hO.frame_file hI (List.mem_cons_of_mem i hx) hf
    exact ((hfile.frame hF).2 d hd).2
  · exact fun j k n f hj hc => stamp_keeps htrace (hO.stamped j k n f (hold hj hc) hc)
  · intro x hx f n after hw
    obtain ⟨hstamp, hcov⟩ := hO.waits x (List.mem_cons_of_mem i hx) f n after hw
    have hfile := hO.frame_file hI (List.mem_cons_of_mem i hx) (waiting_chainFile hw)
    exact ⟨stamp_keeps htrace hstamp, hcov.frame hI hfile hF⟩
  · intro j k n j' k' n' f hj hc hj' hc' hlt
    obtain ⟨hn, hs⟩ := hO.serial j k n j' k' n' f (hold hj hc) hc (hold hj' hc') hc' hlt
    exact ⟨hn, hs.imp_right fun h => ⟨h.1, h.2.1, hF.chainedOn.mpr h.2.2⟩⟩
  · intro j k n f hj hc
    have hfile := hfileOf (hold hj hc) hc
    obtain ⟨hcov, hopen⟩ := hO.opened j k n f (hold hj hc) hc
    exact ⟨hcov.frame hI hfile hF, fun hs => (hopen hs).frame hI hfile hF⟩
  · intro f d hd hop
    cases hF.handles f d hd with
    | born fresh last | set e he hid last => exact .inl last
    | same e he hid hlast hjob hpend hm =>
        rcases hO.last f e he (hid.2.1.symm.trans hop) with h | ⟨hmap, hcov⟩
        · exact .inl (by rw [hlast, hjob, h])
        · refine .inr ⟨hid.1 ▸ hm hmap, ?_⟩
          have hfile : IsFile s f := ⟨hI.poolBound f e he, fun e' he' => by
            rw [he] at he'
            cases he'
            exact ⟨hmap, hid.2.1.symm.trans hop⟩⟩
          rw [hlast]
          exact hcov.frame hI hfile hF
  · intro x hx h f p j he
    have hfile := hO.frame_file hI (List.mem_cons_of_mem i hx) (by rw [he]; rfl)
    exact (hO.inline x (List.mem_cons_of_mem i hx) h f p j he).frame hI hfile hF
  · intro x hx h f p he op hop
    have hfile := hO.frame_file hI (List.mem_cons_of_mem i hx) (by rw [he]; rfl)
    have ho : x.owns = some p := by rw [he]; rfl
    obtain ⟨d, hd, hjob⟩ := hI.other_owner hF hx ho hop
    rw [hjob]
    exact (hO.recorded x (List.mem_cons_of_mem i hx) h f p he d hd).frame hI hfile hF

/-- The call at `i` moves on. -/
theorem OrderInv.pop (hO : OrderInv s (i :: F)) (hI : Inv s (i :: F)) : OrderInv s F :=
  hO.quiet hI (.refl i s)

end Invariant

/-! ## Elementary changes -/

/-- The fields of a handle that the chains read. -/
def VfsHandleData.chainFields (d : VfsHandleData) :
    FlVfsHandle × VfsOperationType × FlJobHandle × FlJobHandle :=
  (d.id, d.opType, d.jobHandle, d.lastJob)

/-- `s'` differs from `s` in nothing the chains read, except that more has happened. -/
structure SameChains (s s' : VfsState) : Prop where
  handles : ∀ q, (s'.pool q).map VfsHandleData.chainFields = (s.pool q).map VfsHandleData.chainFields
  map : ∀ f d, s.pool f = some d → s.mapGet d.id = some f → s'.mapGet d.id = some f
  jobs : s'.jobs = s.jobs
  ptr : s'.nextPtr = s.nextPtr
  trace : ∃ es, s'.trace = es ++ s.trace

section Changes

variable {s s' : VfsState} {F : List Instr} {f p q : HandlePtr} {j x : FlJobHandle} {k : Job}
  {d e : VfsHandleData} {i y : Instr} {g : VfsHandleData → VfsHandleData} {n : ℕ}
  {after : FlJobHandle}

theorem SameChains.back (hs : SameChains s s') (he : s'.pool q = some e) :
    ∃ d, s.pool q = some d ∧ e.id = d.id ∧ e.opType = d.opType ∧ e.jobHandle = d.jobHandle ∧
      e.lastJob = d.lastJob := by
  have h := hs.handles q
  rw [he] at h
  obtain ⟨d, hd, hfields⟩ := Option.map_eq_some_iff.mp h.symm
  simp only [VfsHandleData.chainFields, Prod.mk.injEq] at hfields
  exact ⟨d, hd, hfields.1.symm, hfields.2.1.symm, hfields.2.2.1.symm, hfields.2.2.2.symm⟩

theorem SameChains.forth (hs : SameChains s s') (hd : s.pool q = some d) :
    ∃ e, s'.pool q = some e ∧ e.jobHandle = d.jobHandle := by
  have h := hs.handles q
  rw [hd] at h
  obtain ⟨e, he, hfields⟩ := Option.map_eq_some_iff.mp h
  simp only [VfsHandleData.chainFields, Prod.mk.injEq] at hfields
  exact ⟨e, he, hfields.2.2.1⟩

theorem SameChains.chainedOn (hs : SameChains s s') : ChainedOn s' j f ↔ ChainedOn s j f := by
  rw [ChainedOn, ChainedOn, hs.jobs]

theorem SameChains.covers (hs : SameChains s s') (h : Covers s f x) : Covers s' f x := by
  rcases h with h | h | ⟨d, hd, hx⟩
  · exact .inl (by rw [Opened, hs.jobs]; exact h)
  · exact .inr (.inl (hs.chainedOn.mpr h))
  · obtain ⟨e, he, hjob⟩ := hs.forth hd
    exact .inr (.inr ⟨e, he, hjob.trans hx⟩)

theorem OrderInv.same (s' : VfsState) (hO : OrderInv s F) (hs : SameChains s s') :
    OrderInv s' F := by
  refine ⟨⟨?_, ?_⟩, ?_, ?_, ?_, ?_, ?_, ?_, ?_, ?_⟩
  · intro j f hj
    obtain ⟨hlt, hfile⟩ := hO.file j f (hs.chainedOn.mp hj)
    refine ⟨hs.ptr ▸ hlt, fun e he => ?_⟩
    obtain ⟨d, hd, hid, hop, -⟩ := hs.back he
    rw [hid, hop]
    exact ⟨hs.map f d hd (hfile d hd).1, (hfile d hd).2⟩
  · intro j k hj hk
    rw [VfsState.jobDone_congr hs.jobs]
    exact hO.started j k (hs.jobs ▸ hj) hk
  · intro x hx f hf e he
    obtain ⟨d, hd, -, hop, -⟩ := hs.back he
    exact hop.trans (hO.files x hx f hf d hd)
  · exact fun j k n f hj hc => stamp_keeps hs.trace (hO.stamped j k n f (hs.jobs ▸ hj) hc)
  · intro x hx f n after hw
    obtain ⟨hstamp, hcov⟩ := hO.waits x hx f n after hw
    exact ⟨stamp_keeps hs.trace hstamp, hs.covers hcov⟩
  · intro j k n j' k' n' f hj hc hj' hc' hlt
    obtain ⟨hn, h⟩ := hO.serial j k n j' k' n' f (hs.jobs ▸ hj) hc (hs.jobs ▸ hj') hc' hlt
    exact ⟨hn, h.imp_right fun h => ⟨h.1, h.2.1, hs.chainedOn.mpr h.2.2⟩⟩
  · intro j k n f hj hc
    obtain ⟨hcov, hopen⟩ := hO.opened j k n f (hs.jobs ▸ hj) hc
    exact ⟨hs.covers hcov, fun hk => by rw [Opened, hs.jobs]; exact hopen hk⟩
  · intro f e he hop
    obtain ⟨d, hd, hid, hop', hjob, hlast⟩ := hs.back he
    rw [hlast, hjob, hid]
    exact (hO.last f d hd (hop'.symm.trans hop)).imp_right fun h =>
      ⟨hs.map f d hd h.1, hs.covers h.2⟩
  · intro x hx h f p j he
    rw [Opened, hs.jobs]
    exact hO.inline x hx h f p j he
  · intro x hx h f p he op hop
    obtain ⟨d, hd, -, -, hjob, -⟩ := hs.back hop
    rw [hjob]
    exact hs.covers (hO.recorded x hx h f p he d hd)

/-- Writing fields of a handle that the chains do not read. -/
theorem SameChains.touch (hg : ∀ d, (g d).chainFields = d.chainFields) :
    SameChains s (s.modify p g) := by
  refine ⟨fun q => ?_, fun _ _ _ h => h, rfl, rfl, ⟨[], rfl⟩⟩
  rw [VfsState.modify_pool]
  split_ifs with hq
  · subst hq
    cases s.pool q with
    | none => rfl
    | some d => exact congrArg some (hg d)
  · rfl

theorem SameChains.of_core (hs : SameCore s s') (htrace : ∃ es, s'.trace = es ++ s.trace) :
    SameChains s s' := by
  obtain ⟨hpool, hmap, hjobs, hptr, -⟩ := hs
  exact ⟨fun q => by rw [hpool], fun f d _ h => (VfsState.mapGet_congr hmap).trans h, hjobs, hptr,
    htrace⟩

theorem SameChains.publish (hT : Table s) : SameChains s (vfsPublishHandle s p) := by
  unfold vfsPublishHandle
  split
  · rename_i d₀ hd₀
    refine ⟨fun _ => rfl, fun f e he hmap => ?_, rfl, rfl, ⟨[_], rfl⟩⟩
    rw [VfsState.emit_mapGet, VfsState.mapGet_insert p rfl]
    split_ifs with hh
    · rw [hT.distinct f p e d₀ he hd₀ hh]
    · exact hmap
  · exact ⟨fun _ => rfl, fun _ _ _ h => h, rfl, rfl, ⟨[], rfl⟩⟩

/-- A call comes to a new point. -/
theorem OrderInv.push (hO : OrderInv s F)
    (hfiles : ∀ f, y.chainFile = some f → ∀ d, s.pool f = some d → d.opType = .fileOpen)
    (hwaits : ∀ f n after, y.waiting = some (f, n, after) →
      s.trace.reverse[n]? = some (.entered n f) ∧ Covers s f after)
    (hinline : ∀ h f p j, y = .chainInline h f p j → Opened s f)
    (hrecorded : ∀ h f p, y = .chainPublish h f p false → ∀ op, s.pool p = some op →
      Covers s f op.jobHandle) : OrderInv s (y :: F) where
  toChainBase := hO.toChainBase
  files x hx := by
    rcases List.mem_cons.mp hx with rfl | hx
    · exact hfiles
    · exact hO.files x hx
  stamped := hO.stamped
  waits x hx f n after hw := by
    rcases List.mem_cons.mp hx with rfl | hx
    · exact hwaits f n after hw
    · exact hO.waits x hx f n after hw
  serial := hO.serial
  opened := hO.opened
  last := hO.last
  inline x hx := by
    rcases List.mem_cons.mp hx with rfl | hx
    · exact hinline
    · exact hO.inline x hx
  recorded x hx := by
    rcases List.mem_cons.mp hx with rfl | hx
    · exact hrecorded
    · exact hO.recorded x hx

/-- Points outside `vfs_chain_file_op` may come. -/
theorem OrderInv.pushQuiet (hO : OrderInv s F) (new : List Instr)
    (hnew : ∀ x ∈ new, x.chainFile = none) : OrderInv s (new ++ F) := by
  induction new with
  | nil => exact hO
  | cons y new ih =>
      have hy := hnew y (by simp)
      refine (ih fun x hx => hnew x (by simp [hx])).push (by simp [hy]) ?_ ?_ ?_
      · intro f n after hw
        rw [waiting_chainFile hw] at hy
        cases hy
      · rintro h f p j rfl
        cases hy
      · rintro h f p rfl
        cases hy

/-- A call writes the job fields of the handle it owns. -/
theorem OrderInv.setPrivate {r : FlJobHandle} (hO : OrderInv s F)
    (hbound : ∀ q e, s.pool q = some e → q < s.nextPtr) (hd : s.pool p = some d)
    (hprivate : s.mapGet d.id ≠ some p) (hother : ∀ x ∈ F, x.owns ≠ some p)
    (hF : ∀ x ∈ F, ∀ f, x.chainFile = some f → IsFile s f) :
    OrderInv (s.modify p (setJobs r)) F := by
  have hkeep : KeepsIdentity (setJobs r) := fun d => ⟨rfl, rfl, rfl⟩
  have hcovers : ∀ {f x}, IsFile s f → Covers s f x → Covers (s.modify p (setJobs r)) f x := by
    intro f x hfile h
    refine h.imp_right fun h => h.imp_right fun ⟨e, he, hx⟩ => ⟨e, ?_, hx⟩
    rw [VfsState.modify_pool, if_neg, he]
    rintro rfl
    exact hprivate (hfile.2 d hd).1
  refine ⟨hO.toChainBase.modify hkeep, ?_, hO.stamped, ?_, hO.serial, ?_, ?_, hO.inline, ?_⟩
  · intro x hx f hf e he
    obtain ⟨e', he', -, -, hop⟩ := modify_origin hkeep he
    exact hop.trans (hO.files x hx f hf e' he')
  · intro x hx f n after hw
    obtain ⟨hstamp, hcov⟩ := hO.waits x hx f n after hw
    exact ⟨hstamp, hcovers (hF x hx f (waiting_chainFile hw)) hcov⟩
  · intro j k n f hj hc
    obtain ⟨hcov, hopen⟩ := hO.opened j k n f hj hc
    exact ⟨hcovers (hO.toChainBase.isFile ⟨k, n, hj, hc⟩) hcov, hopen⟩
  · intro f e he hop
    rcases modify_some he with ⟨rfl, e', -, rfl⟩ | ⟨-, he⟩
    · exact .inl rfl
    · refine (hO.last f e he hop).imp_right fun ⟨hmap, hcov⟩ => ⟨hmap, hcovers
        ⟨hbound f e he, fun e' he' => ?_⟩ hcov⟩
      rw [he] at he'
      cases he'
      exact ⟨hmap, hop⟩
  · intro x hx h f q he op hop
    have hfile := hF x hx f (by rw [he]; rfl)
    rcases modify_some hop with ⟨rfl, -⟩ | ⟨-, hop⟩
    · exact absurd (by rw [he]; rfl) (hother x hx)
    · exact hcovers hfile (hO.recorded x hx h f q he op hop)

/-- A call records on a file a job that covers its open. -/
theorem OrderInv.record {refused : Bool} (hO : OrderInv s F) (hcov : refused = false → Covers s f x)
    (hmap : ∀ d, s.pool f = some d → s.mapGet d.id = some f) :
    OrderInv (s.modify f (recordOn refused x)) F := by
  have hkeep : KeepsIdentity (recordOn refused x) := fun d => ⟨rfl, rfl, rfl⟩
  have hback : ∀ {q e}, (s.modify f (recordOn refused x)).pool q = some e → ∃ d, s.pool q = some d ∧
      e.id = d.id ∧ e.opType = d.opType ∧ e.jobHandle = d.jobHandle ∧
        (e.lastJob = d.lastJob ∨ (q = f ∧ refused = false ∧ e.lastJob = x)) := by
    intro q e he
    rcases modify_some he with ⟨rfl, d, hd, rfl⟩ | ⟨-, hd⟩
    · refine ⟨d, hd, rfl, rfl, rfl, ?_⟩
      cases refused with
      | true => exact .inl rfl
      | false => exact .inr ⟨rfl, rfl, rfl⟩
    · exact ⟨e, hd, rfl, rfl, rfl, .inl rfl⟩
  have hcovers : ∀ {g y}, Covers s g y → Covers (s.modify f (recordOn refused x)) g y := by
    intro g y h
    refine h.imp_right fun h => h.imp_right fun ⟨d, hd, hy⟩ => ?_
    rw [VfsState.modify_pool]
    split_ifs with hg
    · subst hg
      exact ⟨recordOn refused x d, by rw [hd]; rfl, hy⟩
    · exact ⟨d, hd, hy⟩
  refine ⟨hO.toChainBase.modify hkeep, ?_, hO.stamped, ?_, hO.serial, ?_, ?_, hO.inline, ?_⟩
  · intro y hy g hg e he
    obtain ⟨d, hd, -, hop, -⟩ := hback he
    exact hop.trans (hO.files y hy g hg d hd)
  · intro y hy g n after hw
    exact (hO.waits y hy g n after hw).imp_right hcovers
  · intro j k n g hj hc
    obtain ⟨hco, hopen⟩ := hO.opened j k n g hj hc
    exact ⟨hcovers hco, hopen⟩
  · intro g e he hop
    obtain ⟨d, hd, hid, hop', hjob, hlast | ⟨rfl, hr, hlast⟩⟩ := hback he
    · rw [hlast, hjob, hid]
      exact (hO.last g d hd (hop'.symm.trans hop)).imp_right fun h => ⟨h.1, hcovers h.2⟩
    · refine .inr ⟨hid ▸ hmap d hd, ?_⟩
      rw [hlast]
      exact hcovers (hcov hr)
  · intro y hy h g q he op hop
    obtain ⟨d, hd, -, -, hjob, -⟩ := hback hop
    rw [hjob]
    exact hcovers (hO.recorded y hy h g q he d hd)

/-- The operations on a file have finished when the job that a worker chains after has. -/
theorem OrderInv.all_finished {k' : Job} {n' : ℕ} (hO : OrderInv s F) (hT : Table s)
    (hturn : ∀ j < s.nextJob, s.onFile f j = true → (∀ m ∈ s.ticket j, m < n) ∧
      (s.jobDone j = false → j ≤ after ∧ s.onFile f after = true))
    (hafter : s.jobDone after = true) (hj : s.jobs j = some k') (hc : k'.chained = some (n', f)) :
    k'.phase.isFinished = true := by
  by_contra hne
  have hfin : k'.phase.isFinished = false := by simpa using hne
  have hundone : s.jobDone j = false := by
    simp [VfsState.jobDone, VfsState.jobFinished_of hj, hfin, Nat.ne_of_gt (hT.jobBound j k' hj).1]
  obtain ⟨hle, hon⟩ :=
    (hturn j (hT.jobBound j k' hj).2 (onFile_iff.mpr ⟨k', n', hj, hc⟩)).2 hundone
  obtain ⟨ka, m, ha, hca⟩ := onFile_iff.mp hon
  have hafin : ka.phase.isFinished = true := by
    simpa [VfsState.jobDone, VfsState.jobFinished_of ha, Nat.ne_of_gt (hT.jobBound after ka ha).1]
      using hafter
  rcases Nat.lt_or_eq_of_le hle with hlt | rfl
  · rcases (hO.serial after ka m j k' n' f ha hca hj hc hlt).2 with h | ⟨hq, -⟩
    · exact hne h
    · rw [hq] at hafin
      cases hafin
  · rw [hundone] at hafter
    cases hafter

/-- When the job that covers the open has finished, the file has been opened. -/
theorem OrderInv.opened_after (hO : OrderInv s F) (hI : Inv s F) (hf : IsFile s f)
    (hcov : Covers s f x) (hx : s.jobDone x = true) : Opened s f := by
  rcases hcov with h | ⟨kx, m, hkx, hcx⟩ | ⟨d, hd, rfl⟩
  · exact h
  · refine (hO.opened x kx m f hkx hcx).2 fun hq => ?_
    simp [VfsState.jobDone, VfsState.jobFinished_of hkx, hq, JobPhase.isFinished,
      Nat.ne_of_gt (hI.jobBound x kx hkx).1] at hx
  · exact hI.opened_of_done hf hd hx

theorem ChainedOn.addJob (hc : ChainedOn s j f) (hT : Table s) : ChainedOn (s.addJob k) j f := by
  obtain ⟨k', m, hj, hk'⟩ := hc
  exact ⟨k', m, hT.addJob_kept hj, hk'⟩

/-- A new job opens no file when it is for a handle that is none. -/
theorem Opened.addJob (ho : Opened s f) (hf : IsFile s f) (hk : ¬ IsFile s k.target) :
    Opened (s.addJob k) f := by
  intro j k' hj ht
  rcases VfsState.addJob_some hj with ⟨rfl, rfl⟩ | hj
  · exact absurd (ht ▸ hf) hk
  · exact ho j k' hj ht

theorem Covers.addJob (hc : Covers s f x) (hT : Table s) (hf : IsFile s f)
    (hk : ¬ IsFile s k.target) : Covers (s.addJob k) f x :=
  hc.imp (fun ho => ho.addJob hf hk) fun h => h.imp_left fun hj => hj.addJob hT

/-- What is launched in turn comes behind the operations there, and starts behind them. -/
theorem OrderInv.serial_addJob (hO : OrderInv s F) (hT : Table s) (hk : k.chained = some (n, f))
    (hturn : ∀ j < s.nextJob, s.onFile f j = true → (∀ m ∈ s.ticket j, m < n) ∧
      (s.jobDone j = false → j ≤ after ∧ s.onFile f after = true))
    (hphase : (k.phase = .queued ∧ k.dependency = after) ∨
      (k.phase = .started ∧ k.dependency = 0 ∧ s.jobDone after = true)) :
    ∀ j k₁ n₁ j' k₂ n₂ g, (s.addJob k).jobs j = some k₁ → k₁.chained = some (n₁, g) →
      (s.addJob k).jobs j' = some k₂ → k₂.chained = some (n₂, g) → j' < j → n₂ < n₁ ∧
        (k₂.phase.isFinished = true ∨
          (k₁.phase = .queued ∧ j' ≤ k₁.dependency ∧ ChainedOn (s.addJob k) k₁.dependency g)) := by
  intro j k₁ n₁ j' k₂ n₂ g hj hc hj' hc' hjj
  rcases VfsState.addJob_some hj with ⟨rfl, rfl⟩ | hj₁
  · rw [hk] at hc
    cases hc
    rcases VfsState.addJob_some hj' with ⟨rfl, rfl⟩ | hj'
    · exact absurd hjj (Nat.lt_irrefl _)
    · obtain ⟨hlt, hwait⟩ := hturn j' hjj (onFile_iff.mpr ⟨k₂, n₂, hj', hc'⟩)
      refine ⟨hlt n₂ (ticket_of hj' hc'), ?_⟩
      rcases hphase with ⟨hq, hdep⟩ | ⟨-, -, hdone⟩
      · by_cases hf2 : k₂.phase.isFinished = true
        · exact .inl hf2
        · have hundone : s.jobDone j' = false := by
            simp [VfsState.jobDone, VfsState.jobFinished_of hj', hf2,
              Nat.ne_of_gt (hT.jobBound j' k₂ hj').1]
          obtain ⟨hle, hon⟩ := hwait hundone
          exact .inr ⟨hq, hdep ▸ hle, hdep ▸ (onFile_iff.mp hon).addJob hT⟩
      · exact .inl (hO.all_finished hT hturn hdone hj' hc')
  · rcases VfsState.addJob_some hj' with ⟨rfl, rfl⟩ | hj'
    · exact absurd hjj (Nat.lt_asymm (hT.jobBound j k₁ hj₁).2)
    · obtain ⟨hn, hs⟩ := hO.serial j k₁ n₁ j' k₂ n₂ g hj₁ hc hj' hc' hjj
      exact ⟨hn, hs.imp_right fun h => ⟨h.1, h.2.1, h.2.2.addJob hT⟩⟩

/-- A call launches its operation. -/
theorem OrderInv.launch {h : FlVfsHandle}
    (hO : OrderInv s (.chainRun h f n p after :: F)) (hI : Inv s (.chainRun h f n p after :: F))
    (hturn : ∀ j < s.nextJob, s.onFile f j = true → (∀ m ∈ s.ticket j, m < n) ∧
      (s.jobDone j = false → j ≤ after ∧ s.onFile f after = true))
    (htarget : k.target = p) (hk : k.chained = some (n, f))
    (hphase : (k.phase = .queued ∧ k.dependency = after) ∨
      (k.phase = .started ∧ k.dependency = 0 ∧ s.jobDone after = true)) :
    OrderInv (s.addJob k) F ∧ (k.phase = .started → Opened (s.addJob k) f) := by
  have hhead : Instr.chainRun h f n p after ∈ Instr.chainRun h f n p after :: F :=
    List.mem_cons_self
  have hfile := hO.frame_file hI hhead rfl
  have hpop := hO.pop hI
  obtain ⟨hstamp, hcov⟩ := hO.waits _ hhead f n after rfl
  have hnofile : ¬ IsFile s p := hI.unset_no_file hhead rfl
  have hfin : k.phase.isFinished = false := by
    rcases hphase with ⟨h, -⟩ | ⟨h, -⟩ <;> rw [h] <;> rfl
  have hopened : ∀ {g}, IsFile s g → Opened s g → Opened (s.addJob k) g :=
    fun hg ho => ho.addJob hg (htarget ▸ hnofile)
  have hcovers : ∀ {g x}, IsFile s g → Covers s g x → Covers (s.addJob k) g x :=
    fun hg hc => hc.addJob hI.toTable hg (htarget ▸ hnofile)
  have hstarted : k.phase = .started → Opened (s.addJob k) f := by
    intro hs
    rcases hphase with ⟨hq, -⟩ | ⟨-, -, hdone⟩
    · rw [hq] at hs
      cases hs
    · exact hopened hfile (hO.opened_after hI hfile hcov hdone)
  obtain ⟨d, hd, hid, hmap, -⟩ := hI.window_live hhead rfl
  refine ⟨⟨?_, hpop.files, ?_, ?_, ?_, ?_, ?_, ?_, ?_⟩, hstarted⟩
  · refine hO.toChainBase.addChained hI.toTable hk (fun hs => ?_) hd (hid ▸ hmap)
      (hfile.2 d hd).2 hfin
    rcases hphase with ⟨hq, -⟩ | ⟨-, h0, -⟩
    · exact absurd hq hs
    · exact h0
  · intro j k' m g hj hc
    rcases VfsState.addJob_some hj with ⟨rfl, rfl⟩ | hj
    · rw [hk] at hc
      cases hc
      exact hstamp
    · exact hO.stamped j k' m g hj hc
  · intro x hx g m a hw
    obtain ⟨hst, hco⟩ := hpop.waits x hx g m a hw
    refine ⟨hst, hcovers ?_ hco⟩
    exact hO.frame_file hI (List.mem_cons_of_mem _ hx) (waiting_chainFile hw)
  · exact hpop.serial_addJob hI.toTable hk hturn hphase
  · intro j k' m g hj hc
    rcases VfsState.addJob_some hj with ⟨rfl, rfl⟩ | hj
    · rw [hk] at hc
      cases hc
      rcases hphase with ⟨hq, hdep⟩ | ⟨hs, -⟩
      · exact ⟨hdep ▸ hcovers hfile hcov, fun hne => absurd hq hne⟩
      · exact ⟨.inl (hstarted hs), fun _ => hstarted hs⟩
    · have hg := hO.toChainBase.isFile ⟨k', m, hj, hc⟩
      obtain ⟨hco, hop⟩ := hO.opened j k' m g hj hc
      exact ⟨hcovers hg hco, fun hs => hopened hg (hop hs)⟩
  · intro g e he hop
    rcases hO.last g e he hop with hne | ⟨hm, hco⟩
    · exact .inl hne
    · refine .inr ⟨hm, hcovers ⟨hI.poolBound g e he, fun e' he' => ?_⟩ hco⟩
      rw [VfsState.addJob_pool] at he
      rw [he] at he'
      cases he'
      exact ⟨hm, hop⟩
  · intro x hx h' g q j he
    have hx' := List.mem_cons_of_mem (Instr.chainRun h f n p after) hx
    exact hopened (hO.frame_file hI hx' (by rw [he]; rfl)) (hO.inline x hx' h' g q j he)
  · intro x hx h' g q he op hop
    have hx' := List.mem_cons_of_mem (Instr.chainRun h f n p after) hx
    exact hcovers (hO.frame_file hI hx' (by rw [he]; rfl)) (hO.recorded x hx' h' g q he op hop)

end Changes

/-! ## The points of a chain -/

section Chain

variable {s s' : VfsState} {F new : List Instr} {f p file : HandlePtr} {j after : FlJobHandle}
  {i : Instr} {t : Thread} {h : FlVfsHandle} {n : ℕ} {params : VfsFileOpParams} {m : MountPtr}
  {c : ℕ} {sched : Sched} {refused : Bool}

theorem OrderInv.body_chain (hO : OrderInv s (.chain h params :: F))
    (hI : Inv s (.chain h params :: F))
    (hx : execBody s c t sched (.chain h params) = some (s', new)) : OrderInv s' (new ++ F) := by
  have hpop := hO.pop hI
  cases chain_exec hx with
  | refused =>
      exact hpop
  | @entered _ _ f d hmap hd hopen hop =>
      have hs : SameChains s ((s.modify f openWindow).emit (.entered s.trace.length f)) := by
        obtain ⟨h₁, h₂, h₃, h₄, -⟩ := SameChains.touch (s := s) (p := f) (g := openWindow) fun _ => rfl
        exact ⟨h₁, h₂, h₃, h₄, [_], rfl⟩
      obtain ⟨d', hd', hid⟩ := hI.mapped h f hmap
      rw [hd] at hd'
      cases hd'
      have hcov : Covers s f d.lastJob := by
        rcases hO.last f d hd hop with h | ⟨-, h⟩
        · exact .inr (.inr ⟨d, hd, h.symm⟩)
        · exact h
      refine (hpop.same _ hs).push ?_ ?_ (by simp) (by simp)
      · intro g hg e he
        cases hg
        obtain ⟨e', he', -, hop', -⟩ := hs.back he
        rw [hd] at he'
        cases he'
        exact hop'.trans hop
      · intro g n after hw
        cases hw
        exact ⟨by simp, hs.covers hcov⟩

theorem OrderInv.body_chainAlloc (hO : OrderInv s (.chainAlloc h file n params m after :: F))
    (hI : Inv s (.chainAlloc h file n params m after :: F))
    (hx : execBody s c t sched (.chainAlloc h file n params m after) = some (s', new)) :
    OrderInv s' (new ++ F) := by
  cases chainAlloc_exec hx
  rename_i s₁ known halloc
  have hhead : Instr.chainAlloc h file n params m after ∈
    Instr.chainAlloc h file n params m after :: F := List.mem_cons_self
  have hframe := FileFrame.alloc (i := .chainAlloc h file n params m after) halloc
  have hfile := hO.frame_file hI hhead rfl
  obtain ⟨hstamp, hcov⟩ := hO.waits _ hhead file n after rfl
  have hs : SameChains s₁ (s₁.modify s.nextPtr (chainFill h params)) := .touch fun _ => rfl
  have hJ := (hO.quiet hI hframe).same _ hs
  refine hJ.push ?_ ?_ (by simp) (by simp)
  · intro g hg e he
    cases hg
    obtain ⟨e', he', -, hop', -⟩ := hs.back he
    exact hop'.trans ((hfile.frame hframe).2 e' he').2
  · intro g m' a hw
    cases hw
    exact ⟨stamp_keeps (hframe.trace.imp fun _ h => h.1) hstamp,
      hs.covers (hcov.frame hI hfile hframe)⟩

theorem OrderInv.body_chainUnwind (hO : OrderInv s (.chainUnwind h file :: F))
    (hI : Inv s (.chainUnwind h file :: F))
    (hx : execBody s c t sched (.chainUnwind h file) = some (s', new)) :
    OrderInv s' (new ++ F) := by
  cases hx
  obtain ⟨d, -, -, -, hunwind⟩ := chainUnwind_live hI
  rw [hunwind]
  exact (hO.pop hI).same _ (.touch fun _ => rfl)

theorem OrderInv.body_chainRun (hO : OrderInv s (.chainRun h file n p after :: F))
    (hI : Inv s (.chainRun h file n p after :: F))
    (hturn : (Instr.chainRun h file n p after).InTurn s t)
    (hx : execBody s c t sched (.chainRun h file n p after) = some (s', new)) :
    OrderInv s' (new ++ F) := by
  have hhead : Instr.chainRun h file n p after ∈ Instr.chainRun h file n p after :: F :=
    List.mem_cons_self
  have hfile := hO.frame_file hI hhead rfl
  obtain ⟨d, hd, hprivate⟩ := hI.owner_private hhead rfl
  cases chainRun_exec hx with
  | blocked worker pending =>
      have hs : SameChains s (s.modify p refuse) := .touch fun _ => rfl
      refine ((hO.pop hI).same _ hs).push ?_ (by simp [Instr.waiting]) (by simp) (by simp)
      intro g hg e he
      cases hg
      obtain ⟨e', he', -, hop', -⟩ := hs.back he
      exact hop'.trans (hfile.2 e' he').2
  | inlined worker hdone =>
      rcases hturn with ⟨-, hnot⟩ | hturn
      · rw [hdone] at hnot
        cases hnot
      · obtain ⟨hJ, hopened⟩ := hO.launch (k := ⟨p, 0, some (n, file), .started⟩) hI hturn rfl
          rfl (.inr ⟨rfl, rfl, hdone⟩)
        refine hJ.push ?_ (by simp [Instr.waiting]) ?_ (by simp)
        · intro g hg e he
          cases hg
          exact (hfile.2 e he).2
        · rintro h' g q j he
          cases he
          exact hopened rfl
  | queued hm =>
      rcases hturn with ⟨hnot, -⟩ | hturn
      · exact absurd hm hnot
      · obtain ⟨hJ, -⟩ := hO.launch (k := ⟨p, after, some (n, file), .queued⟩) hI hturn rfl rfl
          (.inl ⟨rfl, rfl⟩)
        have hJ' := hJ.setPrivate (r := s.nextJob) hI.poolBound hd hprivate
          (fun x hx => hI.owner_unique rfl x hx) fun x hx g hg =>
            hO.frame_file hI (List.mem_cons_of_mem _ hx) hg
        refine hJ'.push ?_ (by simp [Instr.waiting]) (by simp) ?_
        · intro g hg e he
          cases hg
          obtain ⟨e', he', -, -, hop⟩ := modify_origin (f := setJobs s.nextJob)
            (s := s.addJob ⟨p, after, some (n, file), .queued⟩) (fun d => ⟨rfl, rfl, rfl⟩) he
          exact hop.trans (hfile.2 e' he').2
        · intro h' g q he op hop
          cases he
          rw [VfsState.modify_pool, if_pos rfl, VfsState.addJob_pool, hd] at hop
          cases hop
          refine .inr (.inl ⟨⟨p, after, some (n, file), .queued⟩, n, ?_, rfl⟩)
          exact VfsState.addJob_newest

theorem OrderInv.body_chainInline (hO : OrderInv s (.chainInline h file p j :: F))
    (hI : Inv s (.chainInline h file p j :: F))
    (hx : execBody s c t sched (.chainInline h file p j) = some (s', new)) :
    OrderInv s' (new ++ F) := by
  have hhead : Instr.chainInline h file p j ∈ Instr.chainInline h file p j :: F :=
    List.mem_cons_self
  obtain ⟨-, hnext⟩ := afterJob_some hx
  cases hnext
  have hframe : FileFrame (.chainInline h file p j) s (s.modify p (setJobs 0)) :=
    .setJobs hI hhead rfl (.inl rfl)
  have hfile := hO.frame_file hI hhead rfl
  refine (hO.quiet hI hframe).push ?_ (by simp [Instr.waiting]) (by simp) ?_
  · intro g hg e he
    cases hg
    exact ((hfile.frame hframe).2 e he).2
  · intro h' g q he op hop
    cases he
    exact .inl ((hO.inline _ hhead h _ p j rfl).frame hI hfile hframe)

theorem OrderInv.body_chainPublish (hO : OrderInv s (.chainPublish h file p refused :: F))
    (hI : Inv s (.chainPublish h file p refused :: F))
    (hx : execBody s c t sched (.chainPublish h file p refused) = some (s', new)) :
    OrderInv s' (new ++ F) := by
  cases hx
  obtain ⟨d, op, hd, hid, hmap, hop, -, hpublish⟩ := chainPublish_live hI
  rw [hpublish]
  have hJ : OrderInv (s.modify file (recordOn refused op.jobHandle)) F := by
    refine (hO.pop hI).record (fun hr => ?_) fun e he => ?_
    · subst hr
      exact hO.recorded _ List.mem_cons_self h file p rfl op hop
    · rw [hd] at he
      cases he
      exact hid ▸ hmap
  exact hJ.same _ (.publish (hI.toTable.modify fun d => ⟨rfl, rfl, rfl⟩))

/-- Every body, up to the end of `vfs_destroy`. -/
theorem OrderInv.body (hO : OrderInv s (i :: F)) (hI : Inv s (i :: F)) (hD : i.Disciplined s F)
    (hturn : i.InTurn s t) (hx : execBody s c t sched i = some (s', new))
    (hlive : s'.destroyed = false) : OrderInv s' (new ++ F) := by
  cases i with
  | chain h params => exact hO.body_chain hI hx
  | chainAlloc h file ticket params m after => exact hO.body_chainAlloc hI hx
  | chainUnwind h file => exact hO.body_chainUnwind hI hx
  | chainRun h file ticket p after => exact hO.body_chainRun hI hturn hx
  | chainInline h file p j => exact hO.body_chainInline hI hx
  | chainPublish h file p refused => exact hO.body_chainPublish hI hx
  | _ => exact (hO.quiet hI (body_frame hI hD rfl hx hlive)).pushQuiet _ (body_chainFile rfl hx)

end Chain

/-! ## Jobs, steps and runs -/

section Runs

variable {s s' : VfsState} {F : List Instr} {f : HandlePtr} {j : FlJobHandle} {k : Job}
  {d : VfsHandleData} {phase : JobPhase} {g : VfsHandleData → VfsHandleData} {es : List Event}
  {a : Action}

/-- An operation that starts finds the older ones on its file finished. -/
theorem OrderInv.older_finished {k' : Job} {n n' : ℕ} {j' : FlJobHandle} (hO : OrderInv s F)
    (hT : Table s) (hj : s.jobs j = some k) (hc : k.chained = some (n, f))
    (hj' : s.jobs j' = some k') (hc' : k'.chained = some (n', f)) (hlt : j' < j)
    (hdep : s.jobDone k.dependency = true) : k'.phase.isFinished = true := by
  rcases (hO.serial j k n j' k' n' f hj hc hj' hc' hlt).2 with h | ⟨-, hle, kd, m, hkd, hcd⟩
  · exact h
  · have hdfin : kd.phase.isFinished = true := by
      simpa [VfsState.jobDone, VfsState.jobFinished_of hkd,
        Nat.ne_of_gt (hT.jobBound _ kd hkd).1] using hdep
    rcases Nat.lt_or_eq_of_le hle with hlt' | rfl
    · rcases (hO.serial _ kd m j' k' n' f hkd hcd hj' hc' hlt').2 with h | ⟨hq, -⟩
      · exact h
      · rw [hq] at hdfin
        cases hdfin
    · rw [hj'] at hkd
      cases hkd
      exact hdfin

theorem OrderInv.jobMove (hO : OrderInv s F) (hI : Inv s F) (hk : s.jobs j = some k)
    (hm : JobMove s j k d phase g es) : OrderInv (afterMove s j k.target phase g es) F := by
  have hfields : ∀ d, (g d).chainFields = d.chainFields := fun d => by
    obtain ⟨hkeep, hjobs⟩ := hm.keeps
    simp [VfsHandleData.chainFields, (hkeep d).1, (hkeep d).2.2, (hjobs d).2.1, (hjobs d).2.2]
  have hpool : ∀ {q e}, (afterMove s j k.target phase g es).pool q = some e →
      ∃ d, s.pool q = some d ∧ e.id = d.id ∧ e.opType = d.opType ∧ e.jobHandle = d.jobHandle ∧
        e.lastJob = d.lastJob :=
    (SameChains.touch (s := s) (p := k.target) hfields).back
  have hpool' : ∀ {q d}, s.pool q = some d →
      ∃ e, (afterMove s j k.target phase g es).pool q = some e ∧ e.jobHandle = d.jobHandle :=
    (SameChains.touch (s := s) (p := k.target) hfields).forth
  have hfinished : ∀ {x k' k₀}, (afterMove s j k.target phase g es).jobs x = some k' →
      s.jobs x = some k₀ → k₀.phase.isFinished = true → k'.phase.isFinished = true := by
    intro x k' k₀ hx hk₀ hfin
    obtain ⟨k₁, hk₁, -, -, -, hother, hmoved⟩ := afterMove_back hk hx
    rw [hk₀] at hk₁
    cases hk₁
    by_cases hxj : x = j
    · rw [(hmoved hxj).1, hm.unfinished] at hfin
      cases hfin
    · rw [hother hxj]
      exact hfin
  have hopened : ∀ {f}, Opened s f → Opened (afterMove s j k.target phase g es) f := by
    intro f h x k' hx ht
    obtain ⟨k₀, hk₀, ht₀, -⟩ := afterMove_back hk hx
    exact hfinished hx hk₀ (h x k₀ hk₀ (ht₀ ▸ ht))
  have hchained : ∀ {x f}, ChainedOn s x f → ChainedOn (afterMove s j k.target phase g es) x f := by
    rintro x f ⟨k₀, n, hk₀, hc⟩
    obtain ⟨k', hk', -, hc', -⟩ := afterMove_forth hk₀
    exact ⟨k', n, hk', hc'.trans hc⟩
  have hcovers : ∀ {f x}, Covers s f x → Covers (afterMove s j k.target phase g es) f x := by
    intro f x h
    rcases h with h | h | ⟨d, hd, hx⟩
    · exact .inl (hopened h)
    · exact .inr (.inl (hchained h))
    · obtain ⟨e, he, hjob⟩ := hpool' hd
      exact .inr (.inr ⟨e, he, hjob.trans hx⟩)
  have htrace : ∃ new, (afterMove s j k.target phase g es).trace = new ++ s.trace := ⟨es, rfl⟩
  refine ⟨hO.toChainBase.jobMove hk hm, ?_, ?_, ?_, ?_, ?_, ?_, ?_, ?_⟩
  · intro x hx f hf e he
    obtain ⟨e', he', -, hop, -⟩ := hpool he
    exact hop.trans (hO.files x hx f hf e' he')
  · intro x k' n f hx hc
    obtain ⟨k₀, hk₀, -, hc₀, -⟩ := afterMove_back hk hx
    exact stamp_keeps htrace (hO.stamped x k₀ n f hk₀ (hc₀ ▸ hc))
  · intro x hx f n after hw
    obtain ⟨hstamp, hcov⟩ := hO.waits x hx f n after hw
    exact ⟨stamp_keeps htrace hstamp, hcovers hcov⟩
  · intro x k₁ n x' k₂ n' f hx hc hx' hc' hlt
    obtain ⟨k₁', hk₁, -, hc₁, hd₁, hother, hmoved⟩ := afterMove_back hk hx
    obtain ⟨k₂', hk₂, -, hc₂, -⟩ := afterMove_back hk hx'
    obtain ⟨hn, hs⟩ := hO.serial x k₁' n x' k₂' n' f hk₁ (hc₁ ▸ hc) hk₂ (hc₂ ▸ hc') hlt
    refine ⟨hn, ?_⟩
    by_cases hxj : x = j
    · -- The job that moves waits no longer.
      obtain ⟨rfl, -⟩ := hmoved hxj
      exact .inl (hfinished hx' hk₂ (hO.older_finished hI.toTable hk₁ (hc₁ ▸ hc) hk₂ (hc₂ ▸ hc')
        hlt (hO.dependency_done hk hm)))
    · rcases hs with hs | ⟨hq, hle, hch⟩
      · exact .inl (hfinished hx' hk₂ hs)
      · exact .inr ⟨(hother hxj).trans hq, hd₁ ▸ hle, hd₁ ▸ hchained hch⟩
  · intro x k' n f hx hc
    obtain ⟨k₀, hk₀, -, hc₀, hd₀, hother, hmoved⟩ := afterMove_back hk hx
    obtain ⟨hcov, hopen⟩ := hO.opened x k₀ n f hk₀ (hc₀ ▸ hc)
    refine ⟨hd₀ ▸ hcovers hcov, fun hs => hopened ?_⟩
    by_cases hxj : x = j
    · obtain ⟨rfl, -⟩ := hmoved hxj
      exact hO.opened_after hI (hO.toChainBase.isFile ⟨k₀, n, hk₀, hc₀ ▸ hc⟩) hcov
        (hO.dependency_done hk hm)
    · exact hopen (hother hxj ▸ hs)
  · intro f e he hop
    obtain ⟨d', hd', hid, hop', hjob, hlast⟩ := hpool he
    rw [hlast, hjob, hid]
    exact (hO.last f d' hd' (hop'.symm.trans hop)).imp_right fun h => ⟨h.1, hcovers h.2⟩
  · exact fun x hx h f p j he => hopened (hO.inline x hx h f p j he)
  · intro x hx h f p he op hop
    obtain ⟨d', hd', -, -, hjob, -⟩ := hpool hop
    rw [hjob]
    exact hcovers (hO.recorded x hx h f p he d' hd')

/-- One step keeps the invariant, until the VFS is destroyed. -/
theorem OrderInv.step (hO : OrderInv s s.frames) (hI : Inv s s.frames) (hD : Disciplined s a)
    (hturn : InTurn s a) (h : step s a = some s') (hlive : s'.destroyed = false) :
    OrderInv s' s'.frames := by
  refine step_rule hI hD h hlive hO (fun _ _ _ hO hp => hO.perm hp) ?_ ?_ ?_ ?_ ?_
  · exact fun s F cs hO => hO.same _ (.of_core ⟨rfl, rfl, rfl, rfl, rfl⟩ ⟨[], rfl⟩)
  · exact fun s F c e _ hO => hO.same _ (.of_core ⟨rfl, rfl, rfl, rfl, rfl⟩ ⟨[_], rfl⟩)
  · intro t request _
    refine hO.pushQuiet request.program fun x hx => ?_
    have hw := (program_quiet request x hx).2.1
    cases x with
    | chainAlloc | chainUnwind | chainRun | chainInline | chainPublish => cases hw
    | _ => rfl
  · intro j input k d phase g es _ hk _ hm
    exact hO.jobMove hI hk hm
  · intro c sched t i rest F s₀ s₂ new ha hc hF hs₀ hO₀ hI₀ hD₀ hx hlive₂
    subst ha
    have hturni : i.InTurn s t := hturn ⟨t, i :: rest⟩ (by simp [hc]) i (by simp)
    refine hO₀.body hI₀ hD₀ ?_ hx hlive₂
    rcases hs₀ with rfl | rfl
    · exact hturni
    · exact hturni

theorem orderInv_init : OrderInv .init VfsState.init.frames := by
  refine ⟨⟨?_, ?_⟩, ?_, ?_, ?_, ?_, ?_, ?_, ?_, ?_⟩
  all_goals simp [VfsState.init, VfsState.frames, ChainedOn]

/-- The operations on a file execute in order and one at a time in every run in which each of
them is launched in its turn. -/
theorem chains_ordered (h : Reaches step (fun s a => Disciplined s a ∧ InTurn s a) .init s) :
    ChainsOrdered s := by
  refine (h.invariant (P := fun s => ChainsOrdered s ∧ (s.destroyed = false →
    Inv s s.frames ∧ OrderInv s s.frames)) ?_ ?_).1
  · exact ⟨orderInv_init.ordered, fun _ => ⟨inv_init, orderInv_init⟩⟩
  · rintro s a s' ⟨hordered, hinv⟩ ⟨hD, hturn⟩ hstep
    cases hlive : s'.destroyed with
    | false =>
        obtain ⟨hI, hO⟩ := hinv (step_keeps_destroyed hstep hlive)
        have hO' := hO.step hI hD hturn hstep hlive
        exact ⟨hO'.ordered, fun _ => ⟨hI.step hD hstep hlive, hO'⟩⟩
    | true =>
        refine ⟨?_, nofun⟩
        obtain ⟨-, hjobs, htrace⟩ := destroyed_core hstep hlive
        refine ⟨fun j k n f hj hc => ?_, ?_, ?_, ?_⟩
        · exact stamp_keeps htrace (hordered.entered j k n f (hjobs ▸ hj) hc)
        · rw [hjobs]; exact hordered.order
        · rw [hjobs]; exact hordered.alone
        · rw [hjobs]; exact hordered.opened

/-- The file in whose driver job `j` is executing a read or write. -/
def driverFile (s : VfsState) (j : FlJobHandle) : Option HandlePtr :=
  (s.jobs j).bind fun k => k.chained.bind fun c =>
    match k.phase with
    | .inDriver _ => some c.2
    | _ => none

theorem driverFile_some (hj : driverFile s j = some f) :
    ∃ k n g, s.jobs j = some k ∧ k.chained = some (n, f) ∧ k.phase = .inDriver g := by
  obtain ⟨k, hk, hc⟩ := Option.bind_eq_some_iff.mp hj
  obtain ⟨⟨n, g⟩, hc', he⟩ := Option.bind_eq_some_iff.mp hc
  split at he
  · rename_i q hq
    cases he
    exact ⟨k, n, q, hk, hc', hq⟩
  · cases he

/-- The main thread queues two reads behind one another; the first is in the driver. -/
theorem chains_ordered_two_reads :
    ∃ s, Reaches step (fun s a => Disciplined s a ∧ InTurn s a) .init s ∧
      driverFile s 3 = some 1 ∧ ChainedOn s 4 1 ∧ ChainsOrdered s := by
  let actions := openFileScript ++ [.start .main (.read 2 10)] ++ callSteps 2 4 ++
    [.start .main (.read 2 10)] ++ callSteps 3 4 ++ List.replicate 3 (.job 3 (.bytes 10))
  have hrun : ((replay step (fun s a => Disciplined s a ∧ InTurn s a) actions .init).map
      fun s => (driverFile s 3, s.onFile 1 4)) = some (some 1, true) := by
    decide +kernel
  obtain ⟨s, hs, hfacts⟩ := Option.map_eq_some_iff.mp hrun
  simp only [Prod.mk.injEq] at hfacts
  have hreach := replay_reaches actions hs
  exact ⟨s, hreach, hfacts.1, onFile_iff.mp hfacts.2, chains_ordered hreach⟩

/-- Two workers read from one file: each finds the open finished and runs its read inline. -/
theorem inline_reads_overlap : ∃ s, Reaches step Disciplined .init s ∧ ¬ ChainsOrdered s := by
  let actions := openFileScript ++ [.start (.worker 0) (.read 2 10)] ++ callSteps 2 3 ++
    [.start (.worker 1) (.read 2 10)] ++ callSteps 3 3 ++
    List.replicate 2 (.job 3 (.bytes 10)) ++ List.replicate 2 (.job 4 (.bytes 10))
  have hrun : ((replay step Disciplined actions .init).map
      fun s => (driverFile s 3, driverFile s 4)) = some (some 1, some 1) := by
    decide +kernel
  obtain ⟨s, hs, hfacts⟩ := Option.map_eq_some_iff.mp hrun
  simp only [Prod.mk.injEq] at hfacts
  obtain ⟨k, n, g, hk, hc, hg⟩ := driverFile_some hfacts.1
  obtain ⟨k', n', g', hk', hc', hg'⟩ := driverFile_some hfacts.2
  refine ⟨s, replay_reaches actions hs, fun hordered => ?_⟩
  exact absurd (hordered.alone 3 k n 4 k' n' 1 g g' hk hc hk' hc' hg hg') (by decide)

end Runs

end FlowiVfs
