import FlowiVfs.Readiness
import FlowiVfs.ReservedHandles

/-!
# The calls of a worker that runs its operations inline

A worker that launches an operation runs it before the launch returns, so the handle that it is
given is complete from the start. It then waits for it, chains a read onto it or closes it, one
call after the other. `Progress` lists the points of such a call. While nobody else names the
handles that the worker has in hand, every step keeps `Secure`: no chain is refused, and a close
frees its handle.
-/
namespace FlowiVfs

/-- The id that the rest of a `vfs_close` is about. -/
def Instr.closes : Instr → Option FlVfsHandle
  | .closeSnapshot h | .closeFinish h _ => some h
  | _ => none

/-- The mount that the program point marks as closing. -/
def Instr.snapshots : Instr → Option MountPtr
  | .mountSnapshot m => some m
  | _ => none

/-- The handle that the program point publishes. -/
def Instr.publishes : Instr → Option HandlePtr
  | .publish p | .chainPublish _ _ p _ => some p
  | _ => none

/-- The id that a call returns when it ends with this program point. -/
def Instr.returns (s : VfsState) (i : Instr) : FlVfsHandle :=
  (i.publishes.bind s.pool).elim FL_VFS_HANDLE_INVALID VfsHandleData.id

/-- The points of `vfs_wait` and `vfs_close`, which return no handle. -/
def Instr.settles : Instr → Bool
  | .reclaim | .releases _ | .closeSnapshot _ | .closeFinish _ _ | .waitJobs _
  | .waitSnapshot _ => true
  | _ => false

/-- The windows that a call at this point has open on the handle with the id `t`, and the job of
the call that may still reach it. -/
def strain (todo : List Instr) (t : FlVfsHandle) : ℤ × FlJobHandle :=
  match todo with
  | .chainAlloc h _ _ _ _ _ :: _ | .chainRun h _ _ _ _ :: _ | .chainPublish h _ _ _ :: _ =>
      if h = t then (1, 0) else (0, 0)
  | .chainInline h _ _ j :: _ => if h = t then (1, j) else (0, 0)
  | _ => (0, 0)

/-- The ids of the handles that are the worker's own: those it keeps, the one that it is closing,
and the one that its call is about to return. -/
def inHand (tickets : List FlVfsHandle) (todo : List Instr) (ret : FlVfsHandle) :
    List FlVfsHandle :=
  tickets ++ todo.filterMap Instr.closes ++ if ret = FL_VFS_HANDLE_INVALID then [] else [ret]

/-- What is left of a call of a worker on the mount `m`. -/
inductive Progress (s : VfsState) (m : MountPtr) : List Instr → Prop
  | ended : Progress s m []
  | allocating {params : VfsOpParams} (onMount : params.mount = m)
      (anyId : params.reuseHandle = FL_VFS_HANDLE_INVALID) : Progress s m [.allocOp params]
  | scheduling {p : HandlePtr} {d : VfsHandleData} (own : Reserved s m p d 0 0) :
      Progress s m [.schedule p]
  | inline {p : HandlePtr} {d : VfsHandleData} {j r : FlJobHandle} (own : Reserved s m p d 0 j)
      (result : r = 0 ∨ r = j) : Progress s m [.inlineOp p j r]
  | publishing {p : HandlePtr} {d : VfsHandleData} (own : Reserved s m p d 0 0) :
      Progress s m [.publish p]
  | chaining {h : FlVfsHandle} {params : VfsFileOpParams} : Progress s m [.chain h params]
  | filling {h : FlVfsHandle} {file : HandlePtr} {n : ℕ} {params : VfsFileOpParams}
      {after : FlJobHandle} (named : s.mapGet h = some file) (before : s.jobDone after = true)
      (latest : EnteredBefore s file n) : Progress s m [.chainAlloc h file n params m after]
  | running {h : FlVfsHandle} {file p : HandlePtr} {n : ℕ} {d : VfsHandleData}
      {after : FlJobHandle} (named : s.mapGet h = some file) (before : s.jobDone after = true)
      (latest : EnteredBefore s file n) (own : Reserved s m p d 0 0) :
      Progress s m [.chainRun h file n p after]
  | reading {h : FlVfsHandle} {file p : HandlePtr} {d : VfsHandleData} {j : FlJobHandle}
      (named : s.mapGet h = some file) (own : Reserved s m p d 0 j) :
      Progress s m [.chainInline h file p j]
  | recording {h : FlVfsHandle} {file p : HandlePtr} {d : VfsHandleData}
      (named : s.mapGet h = some file) (own : Reserved s m p d 0 0) :
      Progress s m [.chainPublish h file p false]
  | waiting {h : FlVfsHandle} : Progress s m [.waitSnapshot h]
  | waited {js : List FlJobHandle} : Progress s m [.waitJobs js]
  | sweeping {h : FlVfsHandle} : Progress s m [.reclaim, .closeSnapshot h]
  | swept {ps : List HandlePtr} {h : FlVfsHandle} : Progress s m [.releases ps, .closeSnapshot h]
  | closing {h : FlVfsHandle} : Progress s m [.closeSnapshot h]
  | draining {js : List FlJobHandle} {h : FlVfsHandle} :
      Progress s m [.waitJobs js, .closeFinish h true]
  | finishing {h : FlVfsHandle} {borrows : Bool} : Progress s m [.closeFinish h borrows]
  | released {ps : List HandlePtr} : Progress s m [.releases ps]

/-- The worker is somewhere in a call, or between two, and its handles are reserved for it. -/
structure Secure (s : VfsState) (m : MountPtr) (tickets : List FlVfsHandle) (todo : List Instr)
    (ret : FlVfsHandle) : Prop where
  mount : m ∉ s.closing
  progress : Progress s m todo
  named : ∀ i ∈ todo, ∀ h ∈ i.names, h ∈ inHand tickets todo ret
  held : ∀ t ∈ inHand tickets todo ret, Held s m t (strain todo t).1 (strain todo t).2
  distinct : (inHand tickets todo ret).Nodup
  unreturned : todo ≠ [] → ret = FL_VFS_HANDLE_INVALID

/-- The handles that the worker has published are freed, or it has them in hand. -/
def Accounted (s : VfsState) (hand : List FlVfsHandle) (launched : List HandlePtr) : Prop :=
  ∀ p ∈ launched, p < s.nextPtr ∧ ∀ d, s.pool p = some d → s.mapGet d.id = some p ∧ d.id ∈ hand

section Calls

variable {s s' : VfsState} {F new todo rest : List Instr} {i y : Instr} {p q file : HandlePtr}
  {d : VfsHandleData} {t h ret : FlVfsHandle} {c : ℕ} {m : MountPtr} {w : ℤ} {x j : FlJobHandle}
  {th : Thread} {sched : Sched} {tickets : List FlVfsHandle}

/-! ## Steps of others -/

theorem Reserved.known (hR : Reserved s m p d w x) (hT : Table s) : p < s.nextPtr :=
  hT.poolBound p d hR.live

theorem Reserved.spared (hR : Reserved s m p d w x) (hm : m ∉ s.closing) :
    ∀ e, s.pool p = some e → e.closed = false ∧ e.mount ∉ s.closing := by
  intro e he
  rw [hR.live] at he
  cases he
  exact ⟨hR.isOpen, hR.mount ▸ hm⟩

/-- A handle that a call has yet to publish. -/
theorem Reserved.aside_owned (hR : Reserved s m p d w x) (hI : Inv s (i :: F))
    (hm : m ∉ s.closing) (hy : y ∈ F) (ho : y.owns = some p) : Aside s i p where
  known := hR.known hI.toTable
  unowned hi := hI.owner_unique hi y hy ho
  unnamed _ _ hmap := hI.mapped_not_owned hmap (List.mem_cons_of_mem i hy) ho
  spared := hR.spared hm

/-- A handle of the map under an id that the step does not name. -/
theorem Reserved.aside_mapped (hR : Reserved s m p d w x) (hI : Inv s (i :: F))
    (hm : m ∉ s.closing) (hmap : s.mapGet t = some p) (hne : ∀ h ∈ i.names, h ≠ t) :
    Aside s i p where
  known := hR.known hI.toTable
  unowned := hI.mapped_not_owned hmap List.mem_cons_self
  unnamed h hh hmap' := by
    obtain ⟨e, he, hid⟩ := hI.mapped t p hmap
    obtain ⟨e', he', hid'⟩ := hI.mapped h p hmap'
    rw [he] at he'
    cases he'
    exact hne h hh (hid'.symm.trans hid)
  spared := hR.spared hm

theorem Held.step (hH : Held s m t w x) (hI : Inv s (i :: F)) (hm : m ∉ s.closing)
    (hx : execBody s c th sched i = some (s', new)) (hlive : s'.destroyed = false)
    (hne : ∀ h ∈ i.names, h ≠ t) : Held s' m t w x := by
  obtain ⟨p, d, hmap, hR⟩ := hH
  have hspare := body_spares hI hx hlive (hR.aside_mapped hI hm hmap hne)
  exact ⟨p, d, hspare.mapped t hmap, hR.spares hspare⟩

/-- The points of a call stay what they are while its own handle stays reserved. -/
theorem Progress.keep (hP : Progress s m todo)
    (hown : ∀ i ∈ todo, ∀ p, i.owns = some p → ∀ d x, Reserved s m p d 0 x →
      ∃ d', Reserved s' m p d' 0 x)
    (hnamed : ∀ i ∈ todo, ∀ h file, i.window = some (h, file) → s.mapGet h = some file →
      s'.mapGet h = some file)
    (hlatest : ∀ i ∈ todo, ∀ h file n, i.window = some (h, file) → s.mapGet h = some file →
      EnteredBefore s file n → EnteredBefore s' file n)
    (hdone : ∀ y, s.jobDone y = true → s'.jobDone y = true) : Progress s' m todo := by
  cases hP with
  | ended => exact .ended
  | allocating onMount anyId => exact .allocating onMount anyId
  | scheduling own =>
      obtain ⟨d', hR⟩ := hown _ List.mem_cons_self _ rfl _ _ own
      exact .scheduling hR
  | inline own result =>
      obtain ⟨d', hR⟩ := hown _ List.mem_cons_self _ rfl _ _ own
      exact .inline hR result
  | publishing own =>
      obtain ⟨d', hR⟩ := hown _ List.mem_cons_self _ rfl _ _ own
      exact .publishing hR
  | chaining => exact .chaining
  | filling named before latest =>
      exact .filling (hnamed _ List.mem_cons_self _ _ rfl named) (hdone _ before)
        (hlatest _ List.mem_cons_self _ _ _ rfl named latest)
  | running named before latest own =>
      obtain ⟨d', hR⟩ := hown _ List.mem_cons_self _ rfl _ _ own
      exact .running (hnamed _ List.mem_cons_self _ _ rfl named) (hdone _ before)
        (hlatest _ List.mem_cons_self _ _ _ rfl named latest) hR
  | reading named own =>
      obtain ⟨d', hR⟩ := hown _ List.mem_cons_self _ rfl _ _ own
      exact .reading (hnamed _ List.mem_cons_self _ _ rfl named) hR
  | recording named own =>
      obtain ⟨d', hR⟩ := hown _ List.mem_cons_self _ rfl _ _ own
      exact .recording (hnamed _ List.mem_cons_self _ _ rfl named) hR
  | waiting => exact .waiting
  | waited => exact .waited
  | sweeping => exact .sweeping
  | swept => exact .swept
  | closing => exact .closing
  | draining => exact .draining
  | finishing => exact .finishing
  | released => exact .released

theorem window_names (hw : i.window = some (h, file)) : i.names = some h := by
  cases i <;> simp_all [Instr.window, Instr.names]

/-- Another call makes a step that names none of the worker's handles. -/
theorem Secure.other (hS : Secure s m tickets todo ret) (hI : Inv s (i :: F))
    (hD : i.Disciplined s F) (hmine : ∀ y ∈ todo, y ∈ F)
    (hx : execBody s c th sched i = some (s', new)) (hlive : s'.destroyed = false)
    (hne : ∀ h ∈ i.names, h ∉ inHand tickets todo ret) (hm : m ∉ s'.closing) :
    Secure s' m tickets todo ret where
  mount := hm
  progress := by
    have hspares : ∀ y ∈ todo, ∀ h file, y.window = some (h, file) → s.mapGet h = some file →
        SparesHandle s s' file := by
      intro y hy h file hw hmap
      have hin := hS.named y hy h (window_names hw)
      obtain ⟨p, d, hmap', hR⟩ := hS.held h hin
      rw [hmap] at hmap'
      cases hmap'
      have haside := hR.aside_mapped hI hS.mount hmap fun h' hh' e => hne h' hh' (e ▸ hin)
      exact body_spares hI hx hlive haside
    refine hS.progress.keep ?_ ?_ ?_ fun y hy => jobDone_kept (body_work hI hD hx hlive).kept hy
    · intro y hy p ho d x hR
      exact ⟨d, hR.spares (body_spares hI hx hlive (hR.aside_owned hI hS.mount (hmine y hy) ho))⟩
    · intro y hy h file hw hmap
      exact (hspares y hy h file hw hmap).mapped h hmap
    · intro y hy h file n hw hmap latest
      exact latest.spares (hspares y hy h file hw hmap)
  named := hS.named
  held t ht := (hS.held t ht).step hI hS.mount hx hlive fun h hh e => hne h hh (e ▸ ht)
  distinct := hS.distinct
  unreturned := hS.unreturned

/-- A job makes a step. -/
theorem Secure.job {input : JobInput} (hS : Secure s m tickets todo ret)
    (h : jobStep s j input = some s') : Secure s' m tickets todo ret := by
  obtain ⟨k, e, phase, f, es, hk, -, hm, hs'⟩ := jobStep_cases h
  have hmap : ∀ t, s'.mapGet t = s.mapGet t := by
    intro t
    rw [hs']
    rfl
  refine ⟨?_, hS.progress.keep ?_ ?_ ?_ ?_, hS.named, ?_, hS.distinct, hS.unreturned⟩
  · rw [hs']
    exact hS.mount
  · intro y _ p _ d x hR
    exact hR.job h
  · intro y _ t file _ hfile
    exact (hmap t).trans hfile
  · intro y _ t file n _ _ latest x k' n' hx hc
    rw [hs'] at hx
    obtain ⟨k₀, hk₀, -, hc₀, -⟩ := afterMove_back hk hx
    exact latest x k₀ n' hk₀ (hc₀ ▸ hc)
  · intro y hy
    rw [hs']
    exact jobDone_setPhase (s := s.modify k.target f) hk hm.unfinished hy
  · intro t ht
    obtain ⟨p, d, hmap', hR⟩ := hS.held t ht
    obtain ⟨d', hR'⟩ := hR.job h
    exact ⟨p, d', (hmap t).trans hmap', hR'⟩

/-! ## Steps of the worker -/

/-- What a step of the worker's own call leads to. -/
structure OwnStep (s s' : VfsState) (m : MountPtr) (tickets : List FlVfsHandle) (i : Instr)
    (rest new : List Instr) : Prop where
  secure : Secure s' m tickets (new ++ rest) (i.returns s)
  /-- A handle stays in hand until its close frees it. -/
  hand : ∀ t ∈ inHand tickets (i :: rest) FL_VFS_HANDLE_INVALID,
    t ∈ inHand tickets (new ++ rest) (i.returns s) ∨
      ∃ b, i = .closeFinish t b ∧ ∀ p, s.mapGet t = some p → s'.pool p = none
  /-- What comes to hand was in nobody's. -/
  fresh : ∀ t ∈ inHand tickets (new ++ rest) (i.returns s),
    t ∈ inHand tickets (i :: rest) FL_VFS_HANDLE_INVALID ∨ s.mapGet t = none
  published : ∀ p, i.publishes = some p →
    ∃ d, s'.pool p = some d ∧ s'.mapGet d.id = some p ∧ d.id = i.returns s

theorem mem_inHand : t ∈ inHand tickets todo ret ↔
    t ∈ tickets ∨ t ∈ todo.filterMap Instr.closes ∨ (ret ≠ FL_VFS_HANDLE_INVALID ∧ t = ret) := by
  unfold inHand
  by_cases hret : ret = FL_VFS_HANDLE_INVALID
  · simp [hret]
  · simp [hret]

theorem strain_chainAlloc {n : ℕ} {params : VfsFileOpParams} {after : FlJobHandle} :
    strain (.chainAlloc h file n params m after :: rest) h = (1, 0) := if_pos rfl

theorem strain_chainRun {n : ℕ} {after : FlJobHandle} :
    strain (.chainRun h file n p after :: rest) h = (1, 0) := if_pos rfl

theorem strain_chainInline : strain (.chainInline h file p j :: rest) h = (1, j) := if_pos rfl

theorem strain_chainPublish {refused : Bool} :
    strain (.chainPublish h file p refused :: rest) h = (1, 0) := if_pos rfl

/-- A handle that is not the one a call is working on is under no strain. -/
theorem strain_free (hne : ∀ i ∈ todo.head?, ∀ h file, i.window = some (h, file) → h ≠ t) :
    strain todo t = (0, 0) := by
  cases todo with
  | nil => rfl
  | cons i rest =>
      have hne := hne i rfl
      cases i with
      | chainAlloc h file n params m after => exact if_neg (hne h file rfl)
      | chainRun h file n p after => exact if_neg (hne h file rfl)
      | chainInline h file p j => exact if_neg (hne h file rfl)
      | chainPublish h file p refused => exact if_neg (hne h file rfl)
      | _ => rfl

/-- A step that publishes and frees nothing of the worker's. -/
theorem Secure.next (hS : Secure s m tickets (i :: rest) FL_VFS_HANDLE_INVALID)
    (hI : Inv s (i :: F)) (hx : execBody s c th sched i = some (s', new))
    (hlive : s'.destroyed = false) (hsnaps : i.snapshots = none)
    (hpublishes : i.publishes = none)
    (hcloses : (new ++ rest).filterMap Instr.closes = (i :: rest).filterMap Instr.closes)
    (hnames : ∀ y ∈ new, ∀ h ∈ y.names, i.names = some h)
    (hfree : ∀ y ∈ (new ++ rest).head?, ∀ h file, y.window = some (h, file) → i.names = some h)
    (hprogress : Progress s' m (new ++ rest))
    (hheld : ∀ h, i.names = some h → Held s m h (strain (i :: rest) h).1 (strain (i :: rest) h).2 →
      Held s' m h (strain (new ++ rest) h).1 (strain (new ++ rest) h).2) :
    OwnStep s s' m tickets i rest new := by
  have hret : i.returns s = FL_VFS_HANDLE_INVALID := by
    rw [Instr.returns, hpublishes]
    rfl
  have hsame : ∀ t, t ∈ inHand tickets (new ++ rest) FL_VFS_HANDLE_INVALID ↔
      t ∈ inHand tickets (i :: rest) FL_VFS_HANDLE_INVALID := by
    intro t
    rw [mem_inHand, mem_inHand, hcloses]
  refine ⟨⟨?_, hprogress, ?_, ?_, ?_, fun _ => hret⟩, ?_, ?_, ?_⟩
  · rcases body_closing hx with hsame | ⟨n, hn, -⟩
    · rw [hsame]
      exact hS.mount
    · rw [hn] at hsnaps
      cases hsnaps
  · intro y hy h hh
    rw [hret, hsame]
    rcases List.mem_append.mp hy with hy | hy
    · exact hS.named i List.mem_cons_self h (hnames y hy h hh)
    · exact hS.named y (List.mem_cons_of_mem i hy) h hh
  · intro t ht
    rw [hret, hsame] at ht
    by_cases hnamed : i.names = some t
    · exact hheld t hnamed (hS.held t ht)
    · have hfree' : strain (new ++ rest) t = (0, 0) := by
        apply strain_free
        rintro y hy h file hw rfl
        exact hnamed (hfree y hy h file hw)
      have hbefore : strain (i :: rest) t = (0, 0) := by
        apply strain_free
        rintro y hy h file hw rfl
        cases hy
        exact hnamed (window_names hw)
      have hheld := hS.held t ht
      rw [hbefore] at hheld
      rw [hfree']
      refine hheld.step hI hS.mount hx hlive ?_
      rintro h hh rfl
      exact hnamed hh
  · rw [hret]
    have hdistinct := hS.distinct
    unfold inHand at hdistinct ⊢
    rwa [hcloses]
  · intro t ht
    rw [hret]
    exact .inl ((hsame t).mpr ht)
  · intro t ht
    rw [hret, hsame] at ht
    exact .inl ht
  · intro p hp
    rw [hpublishes] at hp
    cases hp

/-- Nothing happens but that the call goes on. -/
theorem Secure.idle (hS : Secure s m tickets (i :: rest) FL_VFS_HANDLE_INVALID)
    (hI : Inv s (i :: F)) (hx : execBody s c th sched i = some (s, new))
    (hlive : s.destroyed = false) (hsnaps : i.snapshots = none)
    (hpublishes : i.publishes = none) (hwindow : i.window = none)
    (hcloses : (new ++ rest).filterMap Instr.closes = (i :: rest).filterMap Instr.closes)
    (hnames : ∀ y ∈ new, ∀ h ∈ y.names, i.names = some h)
    (hfree : ∀ y ∈ (new ++ rest).head?, y.window = none) (hprogress : Progress s m (new ++ rest)) :
    OwnStep s s m tickets i rest new := by
  refine hS.next hI hx hlive hsnaps hpublishes hcloses hnames ?_ hprogress ?_
  · intro y hy h file hw
    rw [hfree y hy] at hw
    cases hw
  · intro h _ hheld
    have hbefore : strain (i :: rest) h = (0, 0) := by
      apply strain_free
      intro y hy h' file hw
      cases hy
      rw [hwindow] at hw
      cases hw
    have hafter : strain (new ++ rest) h = (0, 0) := by
      apply strain_free
      intro y hy h' file hw
      rw [hfree y hy] at hw
      cases hw
    rw [hafter]
    rwa [hbefore] at hheld

theorem Reserved.same (hR : Reserved s m p d w x) (hpool : s'.pool p = s.pool p)
    (hjobs : s'.jobs = s.jobs) : Reserved s' m p d w x where
  live := hpool.trans hR.live
  isOpen := hR.isOpen
  mount := hR.mount
  windows := hR.windows
  done := by
    rw [VfsState.jobDone_congr hjobs, VfsState.jobDone_congr hjobs]
    exact hR.done
  quiet := hjobs ▸ hR.quiet

/-- Nothing that the worker relies on has changed. -/
theorem Secure.of_same (hS : Secure s m tickets todo ret) (hpool : s'.pool = s.pool)
    (hmap : s'.handleMap = s.handleMap) (hjobs : s'.jobs = s.jobs)
    (hclosing : s'.closing = s.closing) : Secure s' m tickets todo ret where
  mount := hclosing ▸ hS.mount
  progress := by
    refine hS.progress.keep ?_ ?_ ?_ fun y hy => ?_
    · exact fun _ _ p _ d x hR => ⟨d, hR.same (congrFun hpool p) hjobs⟩
    · exact fun _ _ h file _ hfile => (VfsState.mapGet_congr hmap).trans hfile
    · exact fun _ _ h file n _ _ latest j k n' hj => latest j k n' (hjobs ▸ hj)
    · rwa [VfsState.jobDone_congr hjobs]
  named := hS.named
  held t ht := by
    obtain ⟨p, d, hfile, hR⟩ := hS.held t ht
    exact ⟨p, d, (VfsState.mapGet_congr hmap).trans hfile, hR.same (congrFun hpool p) hjobs⟩
  distinct := hS.distinct
  unreturned := hS.unreturned

/-- Between two calls the worker may sort what it has in hand, and begin the next one. -/
theorem Secure.regroup {tickets' : List FlVfsHandle} {ret' : FlVfsHandle}
    (hS : Secure s m tickets [] ret)
    (hperm : (inHand tickets' todo ret').Perm (inHand tickets [] ret))
    (hprogress : Progress s m todo)
    (hnamed : ∀ i ∈ todo, ∀ h ∈ i.names, h ∈ inHand tickets [] ret)
    (hfree : ∀ i ∈ todo.head?, i.window = none)
    (hret : todo ≠ [] → ret' = FL_VFS_HANDLE_INVALID) : Secure s m tickets' todo ret' where
  mount := hS.mount
  progress := hprogress
  named i hi h hh := hperm.mem_iff.mpr (hnamed i hi h hh)
  held t ht := by
    have hstrain : strain todo t = (0, 0) := by
      apply strain_free
      intro i hi h file hw
      rw [hfree i hi] at hw
      cases hw
    rw [hstrain]
    exact hS.held t (hperm.mem_iff.mp ht)
  distinct := hperm.nodup_iff.mpr hS.distinct
  unreturned := hret

theorem publish_core (hd : s.pool p = some d) : (vfsPublishHandle s p).pool = s.pool ∧
    (vfsPublishHandle s p).jobs = s.jobs ∧ (vfsPublishHandle s p).mapGet d.id = some p := by
  unfold vfsPublishHandle
  rw [hd]
  refine ⟨rfl, rfl, ?_⟩
  have hget : VfsState.mapGet { s with handleMap := s.handleMap.insert d.id p } d.id = some p := by
    rw [VfsState.mapGet_insert p rfl, if_pos rfl]
  exact hget

/-- The last step of a launch: the worker is given the handle. -/
theorem Secure.publish (hS : Secure s m tickets [i] FL_VFS_HANDLE_INVALID) (hI : Inv s (i :: F))
    (hi : i.publishes = some p) (ho : i.owns = some p) (hcloses : i.closes = none)
    (hR : Reserved s m p d 0 0) (hclosing : s'.closing = s.closing)
    (hheld : ∀ t ∈ tickets, Held s' m t 0 0) (hR' : Reserved s' m p d 0 0)
    (hmap : s'.mapGet d.id = some p) : OwnStep s s' m tickets i [] [] := by
  have hret : i.returns s = d.id := by
    rw [Instr.returns, hi, Option.bind_some, hR.live]
    rfl
  have hid : d.id ≠ FL_VFS_HANDLE_INVALID := hI.toTable.idNonzero p d hR.live
  have hhand : ∀ t, t ∈ inHand tickets [i] FL_VFS_HANDLE_INVALID ↔ t ∈ tickets := by
    intro t
    rw [mem_inHand]
    simp [hcloses]
  have hnew : ∀ t, t ∈ inHand tickets [] d.id ↔ t ∈ tickets ∨ t = d.id := by
    intro t
    rw [mem_inHand]
    simp [hid]
  -- The call still owns the handle, so the map has no entry for its id.
  have hunmapped : s.mapGet d.id = none := by
    by_contra hne
    obtain ⟨q, hq⟩ := Option.ne_none_iff_exists'.mp hne
    obtain ⟨e, he, hid'⟩ := hI.mapped d.id q hq
    cases hI.distinct q p e d he hR.live hid'
    exact hI.mapped_not_owned hq List.mem_cons_self ho
  have hfresh : d.id ∉ tickets := by
    intro hin
    obtain ⟨q, e, hq, he⟩ := hS.held d.id ((hhand _).mpr hin)
    rw [hunmapped] at hq
    cases hq
  refine ⟨⟨?_, .ended, by simp, ?_, ?_, fun h => absurd rfl h⟩, ?_, ?_, ?_⟩
  · rw [hclosing]
    exact hS.mount
  · intro t ht
    rw [hret, List.append_nil, hnew] at ht
    rcases ht with ht | rfl
    · exact hheld t ht
    · exact ⟨p, d, hmap, hR'⟩
  · have hdistinct := hS.distinct
    rw [hret]
    unfold inHand at hdistinct ⊢
    simp only [List.filterMap_cons, hcloses, List.filterMap_nil, List.append_nil,
      if_pos] at hdistinct
    simp only [List.append_nil, List.filterMap_nil, if_neg hid]
    exact List.nodup_append'.mpr ⟨hdistinct, List.nodup_singleton _, by simpa using hfresh⟩
  · intro t ht
    rw [hret, List.append_nil, hnew]
    exact .inl (.inl ((hhand t).mp ht))
  · intro t ht
    rw [hret, List.append_nil, hnew] at ht
    rcases ht with ht | rfl
    · exact .inl ((hhand t).mpr ht)
    · exact .inr hunmapped
  · intro q hq
    rw [hi] at hq
    cases hq
    exact ⟨d, hR'.live, hmap, hret.symm⟩

/-- The last section of `vfs_close` finds the handle idle and frees it. -/
theorem Secure.close {b : Bool}
    (hS : Secure s m tickets [.closeFinish h b] FL_VFS_HANDLE_INVALID)
    (hI : Inv s (.closeFinish h b :: F))
    (hx : execBody s c th sched (.closeFinish h b) = some (s', new))
    (hlive : s'.destroyed = false) : OwnStep s s' m tickets (.closeFinish h b) [] new := by
  have hhand : ∀ t, t ∈ inHand tickets [.closeFinish h b] FL_VFS_HANDLE_INVALID ↔
      t ∈ tickets ∨ t = h := by
    intro t
    rw [mem_inHand]
    simp [Instr.closes]
  have hnodup : tickets.Nodup ∧ h ∉ tickets := by
    have hdistinct := hS.distinct
    unfold inHand at hdistinct
    simp only [List.filterMap_cons, Instr.closes, List.filterMap_nil, if_pos,
      List.append_nil] at hdistinct
    obtain ⟨hnodup, -, hapart⟩ := List.nodup_append'.mp hdistinct
    exact ⟨hnodup, fun hin => hapart hin (List.mem_singleton_self h)⟩
  have hothers : ∀ t ∈ tickets, Held s' m t 0 0 := by
    intro t ht
    have hheld : Held s m t 0 0 := hS.held t ((hhand t).mpr (.inl ht))
    refine hheld.step hI hS.mount hx hlive fun h' hh' => ?_
    cases hh'
    rintro rfl
    exact hnodup.2 ht
  obtain ⟨p, d, hmap, hR⟩ : Held s m h 0 0 := hS.held h ((hhand h).mpr (.inr rfl))
  have hlookup : s.lookupOpenHandle h = some (p, d) :=
    (VfsState.lookupOpenHandle_some p).mpr ⟨hmap, hR.live, hR.isOpen⟩
  have hfin : vfsJobsFinished s d.handleJobs = true := handleJobs_finished.mpr hR.done
  have hfree : execBody s c th sched (.closeFinish h b) =
      some ((vfsFreeHandleLocked (s.emit (.closed p)) p .closed).1,
        [.releases (vfsFreeHandleLocked (s.emit (.closed p)) p .closed).2]) := by
    simp only [execBody, closeFinish, hlookup, hR.windows, hfin, and_self, if_true]
  rw [hfree] at hx
  cases hx
  obtain ⟨hpool, -⟩ := free_live .closed (s := s.emit (.closed p)) hR.live
  obtain ⟨-, -, -, hclosing, -⟩ := free_frame (s.emit (.closed p)) p .closed
  have hret : Instr.returns s (.closeFinish h b) = FL_VFS_HANDLE_INVALID := rfl
  have hnew : ∀ ps : List HandlePtr, ∀ t,
      t ∈ inHand tickets ([.releases ps] ++ []) FL_VFS_HANDLE_INVALID ↔ t ∈ tickets := by
    intro ps t
    rw [mem_inHand]
    simp [Instr.closes]
  refine ⟨⟨?_, .released, ?_, ?_, ?_, fun _ => rfl⟩, ?_, ?_, by simp [Instr.publishes]⟩
  · rw [hclosing]
    exact hS.mount
  · intro y hy h' hh'
    cases List.mem_singleton.mp hy
    cases hh'
  · intro t ht
    rw [hret, hnew] at ht
    exact hothers t ht
  · rw [hret]
    unfold inHand
    simp only [List.append_nil, List.filterMap_cons, Instr.closes, List.filterMap_nil, if_pos]
    exact hnodup.1
  · intro t ht
    rw [hret, hnew]
    rcases (hhand t).mp ht with ht | rfl
    · exact .inl ht
    · refine .inr ⟨b, rfl, fun q hq => ?_⟩
      rw [hmap] at hq
      cases hq
      rw [hpool, Function.update_self]
  · intro t ht
    rw [hret, hnew] at ht
    exact .inl ((hhand t).mpr (.inl ht))

theorem runs_inline (hsched : sched ≠ .queue) :
    vfsOpsScheduleJob s th p sched ≠ some (s', .queued j) := by
  intro hx
  unfold vfsOpsScheduleJob at hx
  split at hx
  · cases hx
  · split at hx
    · cases hx
    · split at hx
      · exact hsched rfl
      · split_ifs at hx
        all_goals cases hx

/-- A step from a point of `vfs_chain_file_op` to the next. -/
theorem Secure.chained (hS : Secure s m tickets [i] FL_VFS_HANDLE_INVALID) (hI : Inv s (i :: F))
    (hx : execBody s c th sched i = some (s', [y])) (hlive : s'.destroyed = false)
    (hi : i.names = some h) (hcloses : i.closes = none) (hpublishes : i.publishes = none)
    (hy : y.window = some (h, file)) (hcloses' : y.closes = none) (hprogress : Progress s' m [y])
    (hheld : ∀ q d, s.mapGet h = some q → Reserved s m q d (strain [i] h).1 (strain [i] h).2 →
      Held s' m h (strain [y] h).1 (strain [y] h).2) : OwnStep s s' m tickets i [] [y] := by
  have hopen : i.snapshots = none := by
    cases i with
    | mountSnapshot => cases hi
    | _ => rfl
  refine hS.next hI hx hlive hopen hpublishes (by simp [hcloses, hcloses']) ?_ ?_ hprogress ?_
  · intro x hxy h' hh'
    cases List.mem_singleton.mp hxy
    rw [window_names hy] at hh'
    exact hi.trans hh'
  · intro x hxy h' q hw
    cases hxy
    rw [hy] at hw
    cases hw
    exact hi
  · rintro h' hh' ⟨q, d, hmap, hR⟩
    rw [hi] at hh'
    cases hh'
    exact hheld q d hmap hR

theorem Secure.own_allocOp {params : VfsOpParams}
    (hS : Secure s m tickets [.allocOp params] FL_VFS_HANDLE_INVALID)
    (hI : Inv s (.allocOp params :: F)) (hB : ChainsBorn s (.allocOp params :: F))
    (onMount : params.mount = m) (anyId : params.reuseHandle = FL_VFS_HANDLE_INVALID)
    (hx : execBody s c th sched (.allocOp params) = some (s', new))
    (hlive : s'.destroyed = false) : OwnStep s s' m tickets (.allocOp params) [] new := by
  cases allocOp_exec hx with
  | refused halloc => simp [allocateHandle, anyId] at halloc
  | allocated known halloc =>
      obtain ⟨d, hR⟩ := Reserved.born hI.toTable hB halloc
      rw [onMount] at hR
      exact hS.next hI hx hlive rfl rfl rfl (by simp [Instr.names]) (by simp [Instr.window])
        (.scheduling hR) (by simp [Instr.names])

/-- The job system runs the operation inline, so the call waits for no other job. -/
theorem Secure.own_schedule (hS : Secure s m tickets [.schedule p] FL_VFS_HANDLE_INVALID)
    (hI : Inv s (.schedule p :: F)) (own : Reserved s m p d 0 0) (hinline : sched ≠ .queue)
    (hx : execBody s c th sched (.schedule p) = some (s', new))
    (hlive : s'.destroyed = false) : OwnStep s s' m tickets (.schedule p) [] new := by
  have hx' := hx
  simp only [execBody] at hx'
  split at hx'
  · cases hx'
  · rename_i s₁ j hsched
    exact absurd hsched (runs_inline hinline)
  · rename_i s₁ j r hsched
    cases hx'
    obtain ⟨e, mount, -, -, ⟨-, hout⟩ | ⟨-, -, rfl, r', hr, hout⟩⟩ := scheduleJob_outcomes hsched
    all_goals cases hout
    exact hS.next hI hx hlive rfl rfl rfl (by simp [Instr.names]) (by simp [Instr.window])
      (.inline (own.launch hI.toTable) hr) (by simp [Instr.names])

theorem Secure.own_inlineOp {r : FlJobHandle}
    (hS : Secure s m tickets [.inlineOp p j r] FL_VFS_HANDLE_INVALID)
    (hI : Inv s (.inlineOp p j r :: F)) (own : Reserved s m p d 0 j) (result : r = 0 ∨ r = j)
    (hx : execBody s c th sched (.inlineOp p j r) = some (s', new))
    (hlive : s'.destroyed = false) : OwnStep s s' m tickets (.inlineOp p j r) [] new := by
  obtain ⟨hfin, hnext⟩ := afterJob_some hx
  cases hnext
  have hdone : s.jobDone r = true := by
    simp only [VfsState.jobDone, Bool.or_eq_true, beq_iff_eq]
    refine result.imp_right fun same => ?_
    rw [same]
    exact hfin
  exact hS.next hI hx hlive rfl rfl rfl (by simp [Instr.names]) (by simp [Instr.window])
    (.publishing ((own.finish hfin).write rfl rfl own.windows ⟨hdone, hdone⟩))
    (by simp [Instr.names])

theorem Secure.own_publish (hS : Secure s m tickets [.publish p] FL_VFS_HANDLE_INVALID)
    (hI : Inv s (.publish p :: F)) (own : Reserved s m p d 0 0)
    (hx : execBody s c th sched (.publish p) = some (s', new))
    (hlive : s'.destroyed = false) : OwnStep s s' m tickets (.publish p) [] new := by
  have hx' := hx
  cases hx'
  obtain ⟨hpool, hjobs, hmap⟩ := publish_core own.live
  refine hS.publish hI rfl rfl rfl own (publish_mountFrame s p).closing ?_
    (own.same (congrFun hpool p) hjobs) hmap
  intro t ht
  have hheld : Held s m t 0 0 := hS.held t (mem_inHand.mpr (.inl ht))
  exact hheld.step hI hS.mount hx hlive (by simp [Instr.names])

theorem Secure.own_chain {params : VfsFileOpParams}
    (hS : Secure s m tickets [.chain h params] FL_VFS_HANDLE_INVALID)
    (hI : Inv s (.chain h params :: F)) (hB : ChainsBorn s (.chain h params :: F))
    (hx : execBody s c th sched (.chain h params) = some (s', new))
    (hlive : s'.destroyed = false) : OwnStep s s' m tickets (.chain h params) [] new := by
  cases chain_exec hx with
  | refused =>
      exact hS.idle hI hx hlive rfl rfl rfl rfl (by simp) (by simp) .ended
  | @entered _ _ f d hmap hd hopen hop =>
      obtain ⟨p, e, hmap', hR⟩ : Held s m h 0 0 := hS.held h (hS.named _ List.mem_cons_self h rfl)
      rw [hmap] at hmap'
      cases hmap'
      obtain rfl : d = e := Option.some.inj (hd.symm.trans hR.live)
      obtain rfl : d.mount = m := hR.mount
      have hopened : Reserved (s.modify f openWindow) d.mount f (openWindow d) 1 0 :=
        hR.write rfl rfl (by simp [openWindow, hR.windows]) hR.done
      have latest : EnteredBefore s f s.trace.length := fun j k n hj hc =>
        (hB.chained j k n f hj hc).2
      refine hS.chained hI hx hlive rfl rfl rfl rfl rfl (.filling hmap hR.done.2 latest)
        fun _ _ _ _ => ?_
      rw [strain_chainAlloc]
      exact ⟨f, openWindow d, hmap, hopened.same rfl rfl⟩

theorem Secure.own_chainAlloc {n : ℕ} {params : VfsFileOpParams} {after : FlJobHandle}
    (hS : Secure s m tickets [.chainAlloc h file n params m after] FL_VFS_HANDLE_INVALID)
    (hI : Inv s (.chainAlloc h file n params m after :: F))
    (hB : ChainsBorn s (.chainAlloc h file n params m after :: F))
    (named : s.mapGet h = some file) (before : s.jobDone after = true)
    (latest : EnteredBefore s file n)
    (hx : execBody s c th sched (.chainAlloc h file n params m after) = some (s', new))
    (hlive : s'.destroyed = false) :
    OwnStep s s' m tickets (.chainAlloc h file n params m after) [] new := by
  have hT := hI.toTable
  cases chainAlloc_exec hx
  rename_i s₁ known halloc
  obtain ⟨d, hR⟩ := Reserved.born hT hB halloc
  obtain ⟨e, he, -⟩ := hI.mapped h file named
  have hne : file < s.nextPtr := hT.poolBound file e he
  have hspare : SparesHandle s (s₁.modify s.nextPtr (chainFill h params)) file :=
    (SparesHandle.alloc hne halloc).trans (.touch (Nat.ne_of_gt hne))
  have hfilled : Progress (s₁.modify s.nextPtr (chainFill h params)) m
      [.chainRun h file n s.nextPtr after] :=
    .running (hspare.mapped h named) (jobDone_kept hspare.kept before) (latest.spares hspare)
      (hR.write (g := chainFill h params) rfl rfl hR.windows hR.done)
  refine hS.chained hI hx hlive rfl rfl rfl rfl rfl hfilled fun q d' hmap hR' => ?_
  rw [named] at hmap
  cases hmap
  rw [strain_chainAlloc] at hR'
  rw [strain_chainRun]
  exact ⟨file, d', hspare.mapped h named, hR'.spares hspare⟩

theorem Secure.own_chainRun {n : ℕ} {after : FlJobHandle}
    (hS : Secure s m tickets [.chainRun h file n p after] FL_VFS_HANDLE_INVALID)
    (hI : Inv s (.chainRun h file n p after :: F)) (hth : th ≠ .main)
    (named : s.mapGet h = some file) (before : s.jobDone after = true)
    (own : Reserved s m p d 0 0)
    (hx : execBody s c th sched (.chainRun h file n p after) = some (s', new))
    (hlive : s'.destroyed = false) :
    OwnStep s s' m tickets (.chainRun h file n p after) [] new := by
  have hT := hI.toTable
  cases chainRun_exec hx with
  | blocked worker hno =>
      rw [before] at hno
      cases hno
  | inlined worker done =>
      refine hS.chained hI hx hlive rfl rfl rfl rfl rfl (.reading named (own.launch hT))
        fun q e hmap hR => ?_
      rw [strain_chainRun] at hR
      rw [strain_chainInline]
      exact ⟨q, e, hmap, hR.launch hT⟩
  | queued hmain =>
      exact absurd hmain hth

theorem Secure.own_chainInline
    (hS : Secure s m tickets [.chainInline h file p j] FL_VFS_HANDLE_INVALID)
    (hI : Inv s (.chainInline h file p j :: F)) (named : s.mapGet h = some file)
    (own : Reserved s m p d 0 j)
    (hx : execBody s c th sched (.chainInline h file p j) = some (s', new))
    (hlive : s'.destroyed = false) :
    OwnStep s s' m tickets (.chainInline h file p j) [] new := by
  obtain ⟨hfin, hnext⟩ := afterJob_some hx
  cases hnext
  have hzero : s.jobDone 0 = true := rfl
  have hrecording : Progress (s.modify p (setJobs 0)) m [.chainPublish h file p false] :=
    .recording named ((own.finish hfin).write rfl rfl own.windows ⟨hzero, hzero⟩)
  refine hS.chained hI hx hlive rfl rfl rfl rfl rfl hrecording fun q e hmap hR => ?_
  rw [strain_chainInline] at hR
  rw [strain_chainPublish]
  have hne : p ≠ q := fun same => hI.mapped_not_owned hmap List.mem_cons_self (same ▸ rfl)
  exact ⟨q, e, hmap, (hR.finish hfin).spares (.touch hne)⟩

theorem Secure.own_chainPublish
    (hS : Secure s m tickets [.chainPublish h file p false] FL_VFS_HANDLE_INVALID)
    (hI : Inv s (.chainPublish h file p false :: F)) (named : s.mapGet h = some file)
    (own : Reserved s m p d 0 0)
    (hx : execBody s c th sched (.chainPublish h file p false) = some (s', new))
    (hlive : s'.destroyed = false) :
    OwnStep s s' m tickets (.chainPublish h file p false) [] new := by
  have hT := hI.toTable
  have hpublished := hx
  cases hpublished
  obtain ⟨e, op, -, -, -, hop, hne, hpublish⟩ := chainPublish_live hI
  rw [hpublish] at hx hlive ⊢
  obtain rfl : d = op := Option.some.inj (own.live.symm.trans hop)
  have hkeeps : KeepsIdentity (recordOn false d.jobHandle) := fun _ => ⟨rfl, rfl, rfl⟩
  have hown : Reserved (s.modify file (recordOn false d.jobHandle)) m p d 0 0 :=
    own.spares (.touch hne.symm)
  obtain ⟨hpool, hjobs, hmap'⟩ := publish_core hown.live
  refine hS.publish hI rfl rfl rfl own (publish_mountFrame _ p).closing ?_
    (hown.same (congrFun hpool p) hjobs) hmap'
  intro t ht
  have hheld := hS.held t (mem_inHand.mpr (.inl ht))
  by_cases hsame : h = t
  · subst hsame
    rw [strain_chainPublish] at hheld
    obtain ⟨q, e', hq, hR⟩ := hheld
    rw [named] at hq
    cases hq
    have hwritten : Reserved (s.modify file (recordOn false d.jobHandle)) m file
        (recordOn false d.jobHandle e') 0 0 :=
      hR.write rfl rfl (by simp [recordOn, hR.windows]) ⟨hR.done.1, own.done.1⟩
    have hspare := SparesHandle.publish (hT.modify (p := file) hkeeps) hne
    exact ⟨file, _, hspare.mapped h named, hwritten.spares hspare⟩
  · have hstrain : strain [.chainPublish h file p false] t = (0, 0) := by simp [strain, hsame]
    rw [hstrain] at hheld
    refine hheld.step hI hS.mount hx hlive ?_
    intro h' hh' same
    cases hh'
    exact hsame same

/-- The points that only look handles up, wait or run release hooks. -/
theorem Secure.own_settling (hS : Secure s m tickets (i :: rest) FL_VFS_HANDLE_INVALID)
    (hI : Inv s (i :: F)) (hi : i.settles = true)
    (hno : ∀ h b, i ≠ .closeFinish h b) (hx : execBody s c th sched i = some (s', new))
    (hlive : s'.destroyed = false) : OwnStep s s' m tickets i rest new := by
  cases hS.progress with
  | waiting =>
      cases waitSnapshot_exec hx with
      | waitMissing => exact hS.idle hI hx hlive rfl rfl rfl rfl (by simp) (by simp) .ended
      | waitFound =>
          exact hS.idle hI hx hlive rfl rfl rfl rfl (by simp [Instr.names])
            (by simp [Instr.window]) .waited
  | waited =>
      cases waitJobs_exec hx with
      | waited => exact hS.idle hI hx hlive rfl rfl rfl rfl (by simp) (by simp) .ended
      | waitedOne =>
          exact hS.idle hI hx hlive rfl rfl rfl rfl (by simp [Instr.names])
            (by simp [Instr.window]) .waited
  | sweeping =>
      have hbody := hx
      cases hbody
      exact hS.next hI hx hlive rfl rfl rfl (by simp [Instr.names]) (by simp [Instr.window])
        .swept (by simp [Instr.names])
  | swept =>
      cases releases_exec hx with
      | released =>
          exact hS.idle hI hx hlive rfl rfl rfl rfl (by simp) (by simp [Instr.window]) .closing
      | hook =>
          exact hS.next hI hx hlive rfl rfl rfl (by simp [Instr.names]) (by simp [Instr.window])
            .swept (by simp [Instr.names])
  | @closing h =>
      cases closeSnapshot_exec hx with
      | closeMissing none =>
          obtain ⟨p, d, hmap, hR⟩ : Held s m h 0 0 :=
            hS.held h (hS.named _ List.mem_cons_self h rfl)
          rw [(VfsState.lookupOpenHandle_some p).mpr ⟨hmap, hR.live, hR.isOpen⟩] at none
          cases none
      | closeBorrowing =>
          exact hS.idle hI hx hlive rfl rfl rfl rfl (by simp [Instr.names])
            (by simp [Instr.window]) .draining
      | closePlain =>
          exact hS.idle hI hx hlive rfl rfl rfl rfl (by simp [Instr.names])
            (by simp [Instr.window]) .finishing
  | draining =>
      cases waitJobs_exec hx with
      | waited =>
          exact hS.idle hI hx hlive rfl rfl rfl rfl (by simp) (by simp [Instr.window]) .finishing
      | waitedOne =>
          exact hS.idle hI hx hlive rfl rfl rfl rfl (by simp [Instr.names])
            (by simp [Instr.window]) .draining
  | @finishing h b => exact absurd rfl (hno h b)
  | released =>
      cases releases_exec hx with
      | released => exact hS.idle hI hx hlive rfl rfl rfl rfl (by simp) (by simp) .ended
      | hook =>
          exact hS.next hI hx hlive rfl rfl rfl (by simp [Instr.names]) (by simp [Instr.window])
            .released (by simp [Instr.names])
  | _ => cases hi

/-- The worker's call makes a step. -/
theorem Secure.own (hS : Secure s m tickets (i :: rest) FL_VFS_HANDLE_INVALID)
    (hI : Inv s (i :: F)) (hB : ChainsBorn s (i :: F)) (hth : th ≠ .main)
    (hinline : ∀ p, i = .schedule p → sched ≠ .queue)
    (hx : execBody s c th sched i = some (s', new)) (hlive : s'.destroyed = false) :
    OwnStep s s' m tickets i rest new := by
  cases hS.progress with
  | allocating onMount anyId => exact hS.own_allocOp hI hB onMount anyId hx hlive
  | scheduling own => exact hS.own_schedule hI own (hinline _ rfl) hx hlive
  | inline own result => exact hS.own_inlineOp hI own result hx hlive
  | publishing own => exact hS.own_publish hI own hx hlive
  | chaining => exact hS.own_chain hI hB hx hlive
  | filling named before latest => exact hS.own_chainAlloc hI hB named before latest hx hlive
  | running named before latest own => exact hS.own_chainRun hI hth named before own hx hlive
  | reading named own => exact hS.own_chainInline hI named own hx hlive
  | recording named own => exact hS.own_chainPublish hI named own hx hlive
  | finishing => exact hS.close hI hx hlive
  | waiting | waited | sweeping | swept | closing | draining | released =>
      exact hS.own_settling hI rfl (fun _ _ same => by cases same) hx hlive

/-! ## What the worker has launched -/

theorem Accounted.before {hand : List FlVfsHandle} {launched : List HandlePtr}
    {d' : VfsHandleData} (hA : Accounted s hand launched) (hr : Retained s s')
    (hp : p ∈ launched) (hd' : s'.pool p = some d') :
    s.mapGet d'.id = some p ∧ s'.mapGet d'.id = some p ∧ d'.id ∈ hand := by
  obtain ⟨hlt, hlive⟩ := hA p hp
  cases hd : s.pool p with
  | none =>
      rw [hr.dead p hlt hd] at hd'
      cases hd'
  | some d =>
      obtain ⟨hmap, hin⟩ := hlive d hd
      rcases hr.keeps d.id p d hmap hd with ⟨e, he, hmap', hid, -⟩ | ⟨-, hgone, -⟩
      · rw [he] at hd'
        cases hd'
        rw [hid]
        exact ⟨hmap, hmap', hin⟩
      · rw [hgone] at hd'
        cases hd'

theorem Accounted.retained {hand : List FlVfsHandle} {launched : List HandlePtr}
    (hA : Accounted s hand launched) (hr : Retained s s') : Accounted s' hand launched := by
  intro p hp
  refine ⟨Nat.lt_of_lt_of_le (hA p hp).1 hr.ptr, fun d' hd' => ?_⟩
  exact (hA.before hr hp hd').2

theorem Accounted.own {launched : List HandlePtr}
    (hA : Accounted s (inHand tickets (i :: rest) FL_VFS_HANDLE_INVALID) launched)
    (hr : Retained s s') (ho : OwnStep s s' m tickets i rest new) (hT : Table s') :
    Accounted s' (inHand tickets (new ++ rest) (i.returns s)) (i.publishes.toList ++ launched) := by
  intro p hp
  rcases List.mem_append.mp hp with hp | hp
  · obtain ⟨d, hd, hmap, hid⟩ := ho.published p (Option.mem_toList.mp hp)
    refine ⟨hT.poolBound p d hd, fun d' hd' => ?_⟩
    rw [hd] at hd'
    cases hd'
    exact ⟨hmap, mem_inHand.mpr (.inr (.inr ⟨hid ▸ hT.idNonzero p d hd, hid⟩))⟩
  · refine ⟨Nat.lt_of_lt_of_le (hA p hp).1 hr.ptr, fun d' hd' => ?_⟩
    obtain ⟨hmap, hmap', hin⟩ := hA.before hr hp hd'
    refine ⟨hmap', ?_⟩
    rcases ho.hand _ hin with hkept | ⟨b, -, hgone⟩
    · exact hkept
    · rw [hgone p hmap] at hd'
      cases hd'

theorem settles_returns (hi : i.settles = true) : i.returns s = FL_VFS_HANDLE_INVALID := by
  cases i with
  | reclaim | releases | closeSnapshot | closeFinish | waitJobs | waitSnapshot => rfl
  | _ => cases hi

theorem settles_body (hx : execBody s c th sched i = some (s', new)) (hi : i.settles = true) :
    ∀ y ∈ new, y.settles = true := by
  cases execBody_some hx with
  | launch h | mount h | dispatch h | chain h | teardown h => cases h <;> cases hi
  | close h =>
      cases h with
      | cancelMissing | canceled | waitAll => cases hi
      | _ => simp [Instr.settles]

end Calls
end FlowiVfs
