import FlowiVfs.OpenMounts

/-!
# The walk of `vfs_update` over the mounts

`vfs_update` holds `mount_lock` while it goes through the list of mounts and processes what the
file watcher of each of them reports. It follows the links of the list as it finds them, and
everything that needs no `mount_lock` goes on meanwhile: reads and writes, closes of handles,
jobs, and closes of mounts that are off the list already.

`UpdateState` is the handle system with such a walk in progress. The walk ends with the sweep
of closed handles, which is the rest of `vfs_update`.
-/
namespace FlowiVfs

open Transition

/-- A thread in the loop of `vfs_update`. -/
structure Walk where
  thread : Thread
  /-- The mount that the loop has come to. -/
  mount : Option MountPtr
  /-- The mounts that it has been at. -/
  visited : List MountPtr
deriving DecidableEq, Repr

structure UpdateState where
  vfs : VfsState
  walk : Option Walk

inductive WalkAction
  /-- A step of the handle system. -/
  | vfs (a : Action)
  /-- `vfs_update` gets `mount_lock`. -/
  | enter (t : Thread)
  /-- It is done with the mount that it is at. -/
  | visit
  /-- It has come to the end of the list, and goes on to its sweep. -/
  | leave

/-- The mount behind `m` on the list. -/
def nextMountOf (mounts : List MountPtr) (m : MountPtr) : Option MountPtr :=
  (mounts.dropWhile (· != m)).tail.head?

/-- What the others may do while a thread is in the walk. -/
def Walk.allows (w : Walk) (s : VfsState) : Action → Bool
  | .start t _ => t != w.thread
  | .exec c _ => (s.calls[c]?).all fun k =>
      k.thread != w.thread && k.todo.head?.all fun i => !i.locksMounts
  | .job _ _ => true

/-- `vfs_update` starts with its walk. -/
def Action.startsUpdate : Action → Bool
  | .start _ .update => true
  | _ => false

def UpdateState.init : UpdateState := ⟨.init, none⟩

def updateStep (u : UpdateState) : WalkAction → Option UpdateState
  | .vfs a =>
      if !a.startsUpdate ∧ u.walk.all fun w => w.allows u.vfs a then
        (step u.vfs a).map fun s => { u with vfs := s }
      else none
  | .enter t =>
      if !u.vfs.destroyed ∧ u.walk.isNone ∧ u.vfs.threadFree t ∧ u.vfs.mountLockFree then
        some { u with walk := some ⟨t, u.vfs.mountList.head?, []⟩ }
      else none
  | .visit =>
      match u.walk with
      | some ⟨t, some m, visited⟩ =>
          some { u with walk := some ⟨t, nextMountOf u.vfs.mountList m, visited ++ [m]⟩ }
      | _ => none
  | .leave =>
      match u.walk with
      | some ⟨t, none, _⟩ => (step u.vfs (.start t .update)).map fun s => ⟨s, none⟩
      | _ => none

/-! ## The list of mounts -/

/-- The mount that a call has taken off the list. -/
def Instr.tearing : Instr → Option MountPtr
  | .mountSnapshot m | .mountDrain m _ | .mountFree m _ | .mountDestroy m => some m
  | _ => none

/-- The mounts on the list have storage, or their storage is being set up, and no close has
got hold of one of them. -/
structure Listed (s : VfsState) (F : List Instr) : Prop where
  nodup : s.mountList.Nodup
  bound : ∀ m, (m ∈ s.mountList ∨ m ∈ s.closing ∨ ∃ x ∈ F, x.tearing = some m) → m < s.nextMount
  stored : ∀ m ∈ s.mountList, (s.mounts m).isSome ∨ ∃ x ∈ F, x.opens = some m
  closing : ∀ m ∈ s.mountList, m ∉ s.closing
  tearing : ∀ m ∈ s.mountList, ∀ x ∈ F, x.tearing ≠ some m

/-- What a step of a call at `i` does to the list of mounts. -/
inductive ListMove (i : Instr) (new : List Instr) (s s' : VfsState) : Prop
  | still (list : s'.mountList = s.mountList) (next : s'.nextMount = s.nextMount)
      (closing : s'.closing = s.closing)
      (points : ∀ x ∈ new, ∀ m, x.tearing = some m → i.tearing = some m)
      (opens : ∀ x ∈ new, ∀ m, x.opens = some m → i.opens = some m)
  | opened (p : HandlePtr) (hat : i = .mountOpen)
      (list : s'.mountList = s.mountList ++ [s.nextMount])
      (next : s'.nextMount = s.nextMount + 1) (closing : s'.closing = s.closing)
      (points : new = [.mountSchedule s.nextMount p])
  | unlisted (m : MountPtr) (hat : i = .mountUnlist m) (listed : m ∈ s.mountList)
      (list : s'.mountList = s.mountList.erase m) (next : s'.nextMount = s.nextMount)
      (closing : s'.closing = s.closing) (points : new = [.mountSnapshot m])
  | snapshot (m : MountPtr) (hat : i = .mountSnapshot m) (list : s'.mountList = s.mountList)
      (next : s'.nextMount = s.nextMount) (closing : s'.closing = m :: s.closing)
      (points : ∀ x ∈ new, (∀ m', x.tearing = some m' → m' = m) ∧ x.opens = none)

section Bodies

variable {s s' s₁ : VfsState} {F new : List Instr} {i x : Instr} {m : MountPtr} {c : ℕ}
  {t : Thread} {sched : Sched} {p : HandlePtr} {h : FlVfsHandle}

/-- What the new points of a call that leaves the list alone stand for. -/
def Instr.Continues (i : Instr) (new : List Instr) : Prop :=
  ∀ x ∈ new, (x.tearing = none ∨ x.tearing = i.tearing) ∧ (x.opens = none ∨ x.opens = i.opens)

theorem ListMove.same (hlist : s'.mountList = s.mountList) (hnext : s'.nextMount = s.nextMount)
    (hclosing : s'.closing = s.closing) (hnew : i.Continues new) : ListMove i new s s' := by
  refine .still hlist hnext hclosing (fun x hx m hm => ?_) fun x hx m hm => ?_
  · rcases (hnew x hx).1 with hnone | hsame
    · rw [hnone] at hm
      cases hm
    · exact hsame ▸ hm
  · rcases (hnew x hx).2 with hnone | hsame
    · rw [hnone] at hm
      cases hm
    · exact hsame ▸ hm

theorem ListMove.framed (frame : MountFrame s s') (hnew : i.Continues new) :
    ListMove i new s s' :=
  .same frame.mountList frame.nextMount frame.closing hnew

theorem LaunchExec.continues (hx : LaunchExec s t i s' new) : i.Continues new := by
  cases hx <;> simp [Instr.Continues, Instr.tearing, Instr.opens]

theorem DispatchExec.continues (hx : DispatchExec s t i s' new) : i.Continues new := by
  cases hx <;> simp [Instr.Continues, Instr.tearing, Instr.opens]

theorem ChainExec.continues (hx : ChainExec s t i s' new) : i.Continues new := by
  cases hx <;> simp [Instr.Continues, Instr.tearing, Instr.opens]

theorem CloseExec.continues (hx : CloseExec s c t i s' new) : i.Continues new := by
  cases hx <;> simp [Instr.Continues, Instr.tearing, Instr.opens]

theorem MountExec.lists (hx : MountExec s t i s' new) : ListMove i new s s' := by
  cases hx with
  | opened lock halloc =>
      have frame := allocateHandle_mountFrame halloc
      exact .opened _ rfl frame.mountList frame.nextMount frame.closing rfl
  | @published m p j =>
      have frame := publish_mountFrame
        { s with mounts := Function.update s.mounts m (some ⟨j⟩) } p
      exact .same frame.mountList frame.nextMount frame.closing (List.forall_mem_nil _)
  | inlined | queued | ran =>
      exact .same rfl rfl rfl (List.forall_mem_singleton.mpr ⟨.inl rfl, .inr rfl⟩)

theorem TeardownExec.lists (hx : TeardownExec s c i s' new) : ListMove i new s s' := by
  cases hx with
  | unlisted lock listed => exact .unlisted _ rfl listed rfl rfl rfl rfl
  | unknown | destroyed | cleared => exact .same rfl rfl rfl (List.forall_mem_nil _)
  | snapshot =>
      exact .snapshot _ rfl rfl rfl rfl (List.forall_mem_cons.mpr
        ⟨⟨nofun, rfl⟩, List.forall_mem_singleton.mpr ⟨fun m hm => (Option.some.inj hm).symm, rfl⟩⟩)
  | draining | drained =>
      exact .same rfl rfl rfl (List.forall_mem_cons.mpr
        ⟨⟨.inl rfl, .inl rfl⟩, List.forall_mem_singleton.mpr ⟨.inr rfl, .inl rfl⟩⟩)
  | freed =>
      exact .framed (freeVictims_mountFrame s _ _) (List.forall_mem_cons.mpr
        ⟨⟨.inl rfl, .inl rfl⟩, List.forall_mem_singleton.mpr ⟨.inr rfl, .inl rfl⟩⟩)
  | next =>
      exact .same rfl rfl rfl (List.forall_mem_cons.mpr
        ⟨⟨.inl rfl, .inl rfl⟩, List.forall_mem_singleton.mpr ⟨.inl rfl, .inl rfl⟩⟩)

/-- Every body. -/
theorem body_lists (hx : execBody s c t sched i = some (s', new)) : ListMove i new s s' := by
  cases execBody_some hx with
  | launch h => exact .framed h.mountFrame h.continues
  | mount h => exact h.lists
  | dispatch h => exact .framed h.mountFrame h.continues
  | chain h => exact .framed h.mountFrame h.continues
  | close h => exact .framed h.mountFrame h.continues
  | teardown h => exact h.lists

end Bodies

section Listed

variable {s s' : VfsState} {F G new : List Instr} {i x : Instr} {m : MountPtr} {c : ℕ}
  {t : Thread} {sched : Sched} {a : Action}

theorem Listed.perm (hL : Listed s F) (hp : F.Perm G) : Listed s G where
  nodup := hL.nodup
  bound m hm := hL.bound m (hm.imp_right fun h => h.imp_right fun ⟨x, hx, ht⟩ =>
    ⟨x, hp.mem_iff.mpr hx, ht⟩)
  stored m hm := (hL.stored m hm).imp_right fun ⟨x, hx, ho⟩ => ⟨x, hp.mem_iff.mp hx, ho⟩
  closing := hL.closing
  tearing m hm x hx := hL.tearing m hm x (hp.mem_iff.mpr hx)

theorem Listed.of_same (s' : VfsState) (hL : Listed s F) (hlist : s'.mountList = s.mountList)
    (hnext : s'.nextMount = s.nextMount) (hclosing : s'.closing = s.closing)
    (hmounts : s'.mounts = s.mounts) : Listed s' F := by
  refine ⟨hlist ▸ hL.nodup, ?_, ?_, ?_, hlist ▸ hL.tearing⟩
  · rw [hlist, hnext, hclosing]
    exact hL.bound
  · rw [hlist, hmounts]
    exact hL.stored
  · rw [hlist, hclosing]
    exact hL.closing

theorem opens_owns (hm : i.opens = some m) : ∃ p, i.owns = some p := by
  cases i with
  | mountSchedule | mountInline | mountPublish => exact ⟨_, rfl⟩
  | _ => cases hm

/-- The mounts of the list keep their storage. -/
theorem Listed.keeps (hL : Listed s (i :: F)) (hI : Inv s (i :: F))
    (hx : execBody s c t sched i = some (s', new)) (hlive : s'.destroyed = false)
    (hm : m ∈ s.mountList) : (s'.mounts m).isSome ∨ ∃ x ∈ new ++ F, x.opens = some m := by
  have hbook := body_bookkeeping hI hx hlive
  rcases hL.stored m hm with hopen | ⟨x, hx, hopens⟩
  · refine .inl ((hbook.mounts m hopen).resolve_right fun hdestroys => ?_)
    exact hL.tearing m hm i List.mem_cons_self (by rw [hdestroys]; rfl)
  · rcases List.mem_cons.mp hx with rfl | hx
    · obtain ⟨p, howns⟩ := opens_owns hopens
      exact (hbook.opens m p hopens howns).imp_right fun ⟨y, hy, ho, _⟩ =>
        ⟨y, List.mem_append_left F hy, ho⟩
    · exact .inr ⟨x, List.mem_append_right new hx, hopens⟩

/-- A step that leaves the list alone. -/
theorem Listed.still (hL : Listed s (i :: F)) (hlist : s'.mountList = s.mountList)
    (hnext : s'.nextMount = s.nextMount) (hclosing : s'.closing = s.closing)
    (hpoints : ∀ x ∈ new, ∀ m, x.tearing = some m → i.tearing = some m)
    (hstored : ∀ m ∈ s.mountList, (s'.mounts m).isSome ∨ ∃ x ∈ new ++ F, x.opens = some m) :
    Listed s' (new ++ F) := by
  have hback : ∀ x ∈ new ++ F, ∀ m, x.tearing = some m → ∃ y ∈ i :: F, y.tearing = some m := by
    intro x hx m hm
    rcases List.mem_append.mp hx with hx | hx
    · exact ⟨i, List.mem_cons_self, hpoints x hx m hm⟩
    · exact ⟨x, List.mem_cons_of_mem i hx, hm⟩
  refine ⟨hlist ▸ hL.nodup, fun m hm => ?_, hlist ▸ hstored, ?_, fun m hm x hx htears => ?_⟩
  · rw [hlist, hclosing] at hm
    rw [hnext]
    exact hL.bound m (hm.imp_right fun h => h.imp_right fun ⟨x, hx, ht⟩ => hback x hx m ht)
  · rw [hlist, hclosing]
    exact hL.closing
  · rw [hlist] at hm
    obtain ⟨y, hy, hty⟩ := hback x hx m htears
    exact hL.tearing m hm y hy hty

/-- A new mount enters the list. -/
theorem Listed.opened {p : HandlePtr} (hL : Listed s (i :: F))
    (hlist : s'.mountList = s.mountList ++ [s.nextMount])
    (hnext : s'.nextMount = s.nextMount + 1) (hclosing : s'.closing = s.closing)
    (hstored : ∀ m ∈ s.mountList, (s'.mounts m).isSome ∨
      ∃ x ∈ .mountSchedule s.nextMount p :: F, x.opens = some m) :
    Listed s' (.mountSchedule s.nextMount p :: F) := by
  have hrest : ∀ x ∈ F, x ∈ i :: F := fun x hx => List.mem_cons_of_mem i hx
  have hfresh : s.nextMount ∉ s.mountList := fun hm =>
    absurd (hL.bound _ (.inl hm)) (Nat.lt_irrefl _)
  have hfree : ∀ x ∈ F, x.tearing ≠ some s.nextMount := fun x hx ht =>
    absurd (hL.bound _ (.inr (.inr ⟨x, hrest x hx, ht⟩))) (Nat.lt_irrefl _)
  have hgrown : ∀ m ∈ s'.mountList, m ∈ s.mountList ∨ m = s.nextMount := fun m hm => by
    rw [hlist] at hm
    exact (List.mem_append.mp hm).imp_right List.mem_singleton.mp
  refine ⟨?_, fun m hm => ?_, fun m hm => ?_, fun m hm => ?_, fun m hm x hx htears => ?_⟩
  · rw [hlist]
    exact hL.nodup.append (List.nodup_singleton _) (List.disjoint_singleton.mpr hfresh)
  · rw [hnext]
    rw [hclosing] at hm
    rcases hm with hm | hm | ⟨x, hx, ht⟩
    · rcases hgrown m hm with hm | rfl
      · exact Nat.lt_succ_of_lt (hL.bound m (.inl hm))
      · exact Nat.lt_succ_self _
    · exact Nat.lt_succ_of_lt (hL.bound m (.inr (.inl hm)))
    · rcases List.mem_cons.mp hx with rfl | hx
      · cases ht
      · exact Nat.lt_succ_of_lt (hL.bound m (.inr (.inr ⟨x, hrest x hx, ht⟩)))
  · rcases hgrown m hm with hm | rfl
    · exact hstored m hm
    · exact .inr ⟨_, List.mem_cons_self, rfl⟩
  · rw [hclosing]
    rcases hgrown m hm with hm | rfl
    · exact hL.closing m hm
    · exact fun hc => absurd (hL.bound _ (.inr (.inl hc))) (Nat.lt_irrefl _)
  · rcases List.mem_cons.mp hx with rfl | hx
    · cases htears
    · rcases hgrown m hm with hm | rfl
      · exact hL.tearing m hm x (hrest x hx) htears
      · exact hfree x hx htears

/-- `vfs_mount_close` takes a mount off the list. -/
theorem Listed.unlisted {u : MountPtr} (hL : Listed s (.mountUnlist u :: F))
    (hlisted : u ∈ s.mountList) (hlist : s'.mountList = s.mountList.erase u)
    (hnext : s'.nextMount = s.nextMount) (hclosing : s'.closing = s.closing)
    (hstored : ∀ m ∈ s.mountList, (s'.mounts m).isSome ∨
      ∃ x ∈ .mountSnapshot u :: F, x.opens = some m) :
    Listed s' (.mountSnapshot u :: F) := by
  have hsub : ∀ m ∈ s'.mountList, m ∈ s.mountList ∧ m ≠ u := by
    intro m hm
    rw [hlist] at hm
    exact ⟨List.mem_of_mem_erase hm, fun hsame => hL.nodup.not_mem_erase (hsame ▸ hm)⟩
  refine ⟨?_, fun m hm => ?_, fun m hm => hstored m (hsub m hm).1, fun m hm => ?_,
    fun m hm x hx htears => ?_⟩
  · rw [hlist]
    exact hL.nodup.erase u
  · rw [hnext]
    rw [hclosing] at hm
    rcases hm with hm | hm | ⟨x, hx, ht⟩
    · exact hL.bound m (.inl (hsub m hm).1)
    · exact hL.bound m (.inr (.inl hm))
    · rcases List.mem_cons.mp hx with rfl | hx
      · cases ht
        exact hL.bound _ (.inl hlisted)
      · exact hL.bound m (.inr (.inr ⟨x, List.mem_cons_of_mem _ hx, ht⟩))
  · rw [hclosing]
    exact hL.closing m (hsub m hm).1
  · obtain ⟨hold, hne⟩ := hsub m hm
    rcases List.mem_cons.mp hx with rfl | hx
    · cases htears
      exact hne rfl
    · exact hL.tearing m hold x (List.mem_cons_of_mem _ hx) htears

/-- The close of a mount that is off the list takes its snapshot. -/
theorem Listed.snapshot {u : MountPtr} (hL : Listed s (.mountSnapshot u :: F))
    (hlist : s'.mountList = s.mountList) (hnext : s'.nextMount = s.nextMount)
    (hclosing : s'.closing = u :: s.closing)
    (hpoints : ∀ x ∈ new, ∀ m, x.tearing = some m → m = u)
    (hstored : ∀ m ∈ s.mountList, (s'.mounts m).isSome ∨ ∃ x ∈ new ++ F, x.opens = some m) :
    Listed s' (new ++ F) := by
  have hhead : Instr.mountSnapshot u ∈ Instr.mountSnapshot u :: F := List.mem_cons_self
  have hoff : u ∉ s.mountList := fun hm => hL.tearing u hm _ hhead rfl
  have hu : u < s.nextMount := hL.bound u (.inr (.inr ⟨_, hhead, rfl⟩))
  refine ⟨hlist ▸ hL.nodup, fun m hm => ?_, hlist ▸ hstored, fun m hm => ?_,
    fun m hm x hx htears => ?_⟩
  · rw [hnext]
    rw [hlist, hclosing] at hm
    rcases hm with hm | hm | ⟨x, hx, ht⟩
    · exact hL.bound m (.inl hm)
    · rcases List.mem_cons.mp hm with rfl | hm
      · exact hu
      · exact hL.bound m (.inr (.inl hm))
    · rcases List.mem_append.mp hx with hx | hx
      · rw [hpoints x hx m ht]
        exact hu
      · exact hL.bound m (.inr (.inr ⟨x, List.mem_cons_of_mem _ hx, ht⟩))
  · rw [hclosing]
    rw [hlist] at hm
    intro hc
    rcases List.mem_cons.mp hc with rfl | hc
    · exact hoff hm
    · exact hL.closing m hm hc
  · rw [hlist] at hm
    rcases List.mem_append.mp hx with hx | hx
    · rw [hpoints x hx m htears] at hm
      exact hoff hm
    · exact hL.tearing m hm x (List.mem_cons_of_mem _ hx) htears

theorem Listed.body (hL : Listed s (i :: F)) (hI : Inv s (i :: F))
    (hx : execBody s c t sched i = some (s', new)) (hlive : s'.destroyed = false) :
    Listed s' (new ++ F) := by
  have hstored : ∀ m ∈ s.mountList, (s'.mounts m).isSome ∨ ∃ x ∈ new ++ F, x.opens = some m :=
    fun m hm => hL.keeps hI hx hlive hm
  cases body_lists hx with
  | still hlist hnext hclosing hpoints hopens =>
      exact hL.still hlist hnext hclosing hpoints hstored
  | opened p hat hlist hnext hclosing hpoints =>
      subst hpoints
      exact hL.opened hlist hnext hclosing hstored
  | unlisted u hat hlisted hlist hnext hclosing hpoints =>
      subst hat hpoints
      exact hL.unlisted hlisted hlist hnext hclosing hstored
  | snapshot u hat hlist hnext hclosing hpoints =>
      subst hat
      exact hL.snapshot hlist hnext hclosing (fun x hx => (hpoints x hx).1) hstored

theorem Listed.step (hL : Listed s s.frames) (hI : Inv s s.frames) (hD : Disciplined s a)
    (h : FlowiVfs.step s a = some s') (hlive : s'.destroyed = false) : Listed s' s'.frames := by
  refine step_rule (P := Listed) hI hD h hlive hL (fun _ _ _ hL hp => hL.perm hp) ?_ ?_ ?_ ?_ ?_
  · exact fun s F cs hL => hL.of_same _ rfl rfl rfl rfl
  · exact fun s F c e _ hL => hL.of_same _ rfl rfl rfl rfl
  · intro t request _
    have hnew : ∀ x ∈ request.program, x.tearing = none := by
      intro x hx
      have hplain := request.program_plain x hx
      cases x <;> first | rfl | cases hplain
    have hold : ∀ x ∈ request.program ++ s.frames, ∀ m, x.tearing = some m → x ∈ s.frames := by
      intro x hx m hm
      rcases List.mem_append.mp hx with hx | hx
      · rw [hnew x hx] at hm
        cases hm
      · exact hx
    refine ⟨hL.nodup, fun m hm => hL.bound m (hm.imp_right fun h => h.imp_right ?_),
      fun m hm => (hL.stored m hm).imp_right ?_, hL.closing, fun m hm x hx ht =>
        hL.tearing m hm x (hold x hx m ht) ht⟩
    · intro ⟨x, hx, ho⟩
      exact ⟨x, List.mem_append_right _ hx, ho⟩
    · intro ⟨x, hx, ht⟩
      exact ⟨x, hold x hx m ht, ht⟩
  · exact fun j input k d phase g es _ _ _ _ => hL.of_same _ rfl rfl rfl rfl
  · exact fun c sched t i rest F s₀ s₂ new _ _ _ _ hL hI _ hx hlive => hL.body hI hx hlive

theorem listed_init : Listed .init VfsState.init.frames := by
  refine ⟨?_, ?_, ?_, ?_, ?_⟩
  all_goals simp [VfsState.init, VfsState.frames]

end Listed

/-! ## The walk -/

/-- What the walk has been at, the mount it has come to and what is behind that are the list as
it is; while it holds the lock no call opens a mount. -/
structure OnList (w : Walk) (s : VfsState) : Prop where
  rest : ∃ rest, s.mountList = w.visited ++ rest ∧ w.mount = rest.head?
  unopened : ∀ x ∈ s.frames, x.opens = none

/-- The handle system keeps to its rules under the walk. -/
def UpdateState.Disciplined (u : UpdateState) : WalkAction → Prop
  | .vfs a => FlowiVfs.Disciplined u.vfs a
  | _ => True

instance (u : UpdateState) (a : WalkAction) : Decidable (u.Disciplined a) :=
  match a with
  | .vfs a => inferInstanceAs (Decidable (FlowiVfs.Disciplined u.vfs a))
  | .enter _ | .visit | .leave => .isTrue trivial

section Walks

variable {u u' : UpdateState} {w : Walk} {s s' : VfsState} {a : Action} {b : WalkAction}
  {m : MountPtr} {i : Instr} {before after : List MountPtr}

theorem nextMountOf_split (hnot : m ∉ before) :
    nextMountOf (before ++ m :: after) m = after.head? := by
  induction before with
  | nil => simp [nextMountOf]
  | cons x before ih =>
      obtain ⟨hne, hnot⟩ := not_or.mp (mt List.mem_cons.mpr hnot)
      have hskip : (x != m) = true := bne_iff_ne.mpr (Ne.symm hne)
      have hrest := ih hnot
      unfold nextMountOf at hrest ⊢
      rw [List.cons_append, List.dropWhile_cons, if_pos hskip]
      exact hrest

theorem holdsMountLock_opens (i : Instr) : i.holdsMountLock = i.opens.isSome := by
  cases i <;> rfl

theorem mountLockFree_iff : s.mountLockFree = true ↔ ∀ x ∈ s.frames, x.opens = none := by
  simp only [VfsState.mountLockFree, VfsState.frames, List.all_eq_true, List.mem_flatMap,
    holdsMountLock_opens, Bool.not_eq_true', Option.isSome_eq_false_iff, Option.isNone_iff_eq_none]
  constructor
  · intro h x hx
    obtain ⟨k, hk, hx⟩ := hx
    exact h k hk x hx
  · intro h k hk x hx
    exact h x ⟨k, hk, hx⟩

/-- A step that needs no `mount_lock` leaves the list, and opens no mount. -/
theorem OnList.step (hW : OnList w s) (hI : Inv s s.frames) (hallows : w.allows s a = true)
    (hD : FlowiVfs.Disciplined s a) (hstep : FlowiVfs.step s a = some s')
    (hlive : s'.destroyed = false) : OnList w s' := by
  have hkeeps : s'.mountList = s.mountList ∧ ∀ x ∈ s'.frames, x.opens = none := by
    refine step_rule (P := fun v F => v.mountList = s.mountList ∧ ∀ x ∈ F, x.opens = none) hI hD
      hstep hlive ⟨rfl, hW.unopened⟩ ?_ ?_ ?_ ?_ ?_ ?_
    · exact fun v F G h hp => ⟨h.1, fun x hx => h.2 x (hp.mem_iff.mpr hx)⟩
    · exact fun v F _ h => h
    · exact fun v F c e _ h => h
    · intro t request _
      refine ⟨rfl, fun x hx => ?_⟩
      rcases List.mem_append.mp hx with hx | hx
      · have hplain := request.program_plain x hx
        cases x <;> first | rfl | cases hplain
      · exact hW.unopened x hx
    · exact fun j input k d phase g es _ _ _ _ => ⟨rfl, hW.unopened⟩
    · intro c sched t i rest F s₀ s₂ new hexec hc _ _ hP hI _ hx _
      subst hexec
      have hlock : i.locksMounts = false := by
        simp only [Walk.allows, hc, Option.all_some, List.head?_cons, Bool.and_eq_true,
          Bool.not_eq_true'] at hallows
        exact hallows.2
      have hrest : ∀ x ∈ F, x.opens = none := fun x hx => hP.2 x (List.mem_cons_of_mem i hx)
      have hnew : (∀ x ∈ new, ∀ m, x.opens = some m → i.opens = some m) →
          ∀ x ∈ new ++ F, x.opens = none := by
        intro hopens x hx
        rcases List.mem_append.mp hx with hx | hx
        · refine Option.eq_none_iff_forall_ne_some.mpr fun m hm => ?_
          have hi := hopens x hx m hm
          rw [hP.2 i List.mem_cons_self] at hi
          cases hi
        · exact hrest x hx
      cases body_lists hx with
      | still hlist _ _ _ hopens => exact ⟨hlist.trans hP.1, hnew hopens⟩
      | opened _ hat =>
          rw [hat] at hlock
          cases hlock
      | unlisted _ hat =>
          rw [hat] at hlock
          cases hlock
      | snapshot _ _ hlist _ _ hpoints =>
          refine ⟨hlist.trans hP.1, hnew fun x hx m hm => ?_⟩
          rw [(hpoints x hx).2] at hm
          cases hm
  refine ⟨?_, hkeeps.2⟩
  rw [hkeeps.1]
  exact hW.rest

/-- What the steps of the walk and of the others make of each other. -/
theorem updateStep_cases (h : updateStep u b = some u') :
    (∃ a, b = .vfs a ∧ FlowiVfs.step u.vfs a = some u'.vfs ∧ u'.walk = u.walk ∧
      u.walk.all (fun w => w.allows u.vfs a) = true) ∨
    (∃ t, u'.vfs = u.vfs ∧ u'.walk = some ⟨t, u.vfs.mountList.head?, []⟩ ∧
      u.vfs.mountLockFree = true) ∨
    (∃ t m visited, u.walk = some ⟨t, some m, visited⟩ ∧ u'.vfs = u.vfs ∧
      u'.walk = some ⟨t, nextMountOf u.vfs.mountList m, visited ++ [m]⟩) ∨
    (∃ t, FlowiVfs.step u.vfs (.start t .update) = some u'.vfs ∧ u'.walk = none) := by
  cases b with
  | vfs a =>
      simp only [updateStep] at h
      split_ifs at h with hallows
      obtain ⟨s, hs, rfl⟩ := Option.map_eq_some_iff.mp h
      exact .inl ⟨a, rfl, hs, rfl, hallows.2⟩
  | enter t =>
      simp only [updateStep] at h
      split_ifs at h with hfree
      cases h
      exact .inr (.inl ⟨t, rfl, rfl, hfree.2.2.2⟩)
  | visit =>
      simp only [updateStep] at h
      split at h
      · rename_i t m visited hw
        cases h
        exact .inr (.inr (.inl ⟨t, m, visited, hw, rfl, rfl⟩))
      · cases h
  | leave =>
      simp only [updateStep] at h
      split at h
      · obtain ⟨s, hs, rfl⟩ := Option.map_eq_some_iff.mp h
        exact .inr (.inr (.inr ⟨_, hs, rfl⟩))
      · cases h

/-- Without the walks, it is a run of the handle system. -/
theorem update_vfs_reaches (h : Reaches updateStep UpdateState.Disciplined .init u) :
    Reaches FlowiVfs.step FlowiVfs.Disciplined .init u.vfs := by
  refine h.invariant (P := fun u => Reaches FlowiVfs.step FlowiVfs.Disciplined .init u.vfs)
    .start ?_
  intro u b u' hrun hD hstep
  rcases updateStep_cases hstep with ⟨a, rfl, hs, -⟩ | ⟨t, hs, -⟩ | ⟨t, m, visited, -, hs, -⟩ |
    ⟨t, hs, -⟩
  · exact .step a hrun hD hs
  · exact hs ▸ hrun
  · exact hs ▸ hrun
  · exact .step (.start t .update) hrun trivial hs

theorem listed_reaches (h : Reaches FlowiVfs.step FlowiVfs.Disciplined .init s) :
    s.destroyed = false → Listed s s.frames := by
  refine h.invariant_of (I := fun s => s.destroyed = false → Inv s s.frames)
    (fun s h => inv_reaches (fun _ _ h => h) h)
    (P := fun s => s.destroyed = false → Listed s s.frames) (fun _ => listed_init) ?_
  intro t a u hI _ hL hmeets hstep hlive
  have hlive' := step_keeps_destroyed hstep hlive
  exact (hL hlive').step (hI hlive') hmeets hstep hlive

theorem onList_reaches (h : Reaches updateStep UpdateState.Disciplined .init u) :
    u.vfs.destroyed = false → ∀ w, u.walk = some w → OnList w u.vfs := by
  refine h.invariant_of
    (I := fun u => Reaches FlowiVfs.step FlowiVfs.Disciplined .init u.vfs)
    (fun u h => update_vfs_reaches h)
    (P := fun u => u.vfs.destroyed = false → ∀ w, u.walk = some w → OnList w u.vfs)
    (fun _ w hw => (by cases hw)) ?_
  intro u b u' hu _ hW hD hstep hlive w hw
  rcases updateStep_cases hstep with ⟨a, rfl, hs, hsame, hallows⟩ | ⟨t, hs, hnow, hfree⟩ |
    ⟨t, m, visited, hbefore, hs, hnow⟩ | ⟨t, -, hnone⟩
  · rw [hsame] at hw
    rw [hw, Option.all_some] at hallows
    have hlive' := step_keeps_destroyed hs hlive
    exact (hW hlive' w hw).step (inv_reaches (fun _ _ h => h) hu hlive') hallows hD hs hlive
  · rw [hs]
    rw [hnow] at hw
    cases hw
    exact ⟨⟨_, rfl, rfl⟩, mountLockFree_iff.mp hfree⟩
  · rw [hs] at hlive ⊢
    rw [hnow] at hw
    cases hw
    obtain ⟨⟨rest, hlist, hhead⟩, hunopened⟩ := hW hlive _ hbefore
    obtain ⟨after, rfl⟩ : ∃ after, rest = m :: after := by
      cases rest with
      | nil => cases hhead
      | cons x after =>
          cases hhead
          exact ⟨after, rfl⟩
    have hnodup := (listed_reaches hu hlive).nodup
    rw [hlist] at hnodup
    have hnot : m ∉ visited := fun hm =>
      (List.disjoint_of_nodup_append hnodup) hm List.mem_cons_self
    refine ⟨⟨after, ?_, ?_⟩, hunopened⟩
    · rw [hlist, List.append_assoc, List.singleton_append]
    · rw [hlist]
      exact nextMountOf_split hnot
  · rw [hnone] at hw
    cases hw

/-- Whatever the others do while `vfs_update` goes through the mounts, all mounts on the list
keep their storage and none of them is in a close, and the loop comes to each of them once. -/
theorem update_walk_safe (hu : Reaches updateStep UpdateState.Disciplined .init u)
    (hlive : u.vfs.destroyed = false) (hw : u.walk = some w) :
    (∃ rest, u.vfs.mountList = w.visited ++ rest ∧ w.mount = rest.head?) ∧
    u.vfs.mountList.Nodup ∧
    ∀ m ∈ u.vfs.mountList, (u.vfs.mounts m).isSome ∧ m ∉ u.vfs.closing ∧
      ∀ x ∈ u.vfs.frames, x.tearing ≠ some m := by
  have hL := listed_reaches (update_vfs_reaches hu) hlive
  have hW := onList_reaches hu hlive w hw
  refine ⟨hW.rest, hL.nodup, fun m hm => ⟨?_, hL.closing m hm, hL.tearing m hm⟩⟩
  apply (hL.stored m hm).resolve_right
  intro ⟨x, hx, hopens⟩
  rw [hW.unopened x hx] at hopens
  cases hopens

/-- A worker is in its walk, at the second of two mounts; the main thread has queued a read on a
file of the first since it began. -/
theorem update_walk_safe_read : ∃ u : UpdateState, u.walk = some ⟨.worker 0, some 1, [0]⟩ ∧
    u.vfs.jobFinished 4 = false ∧ u.vfs.mountList = [0, 1] ∧ (u.vfs.mounts 1).isSome ∧
    1 ∉ u.vfs.closing := by
  let actions : List Action := openFileScript ++ [.start .main .mountOpen] ++ callSteps 2 3
  let meanwhile : List Action := [.start .main (.read 2 10)] ++ callSteps 3 4
  let all : List WalkAction :=
    actions.map .vfs ++ [.enter (.worker 0), .visit] ++ meanwhile.map .vfs
  have hrun : ((replay updateStep UpdateState.Disciplined all .init).map fun u =>
      decide (u.vfs.destroyed = false ∧ u.walk = some ⟨.worker 0, some 1, [0]⟩ ∧
        u.vfs.jobFinished 4 = false ∧ u.vfs.mountList = [0, 1])) = some true := by
    decide +kernel
  obtain ⟨u, hu, hfacts⟩ := Option.map_eq_some_iff.mp hrun
  simp only [decide_eq_true_eq] at hfacts
  obtain ⟨hlive, hwalk, hqueued, hlist⟩ := hfacts
  obtain ⟨-, -, hsafe⟩ := update_walk_safe (replay_reaches _ hu) hlive hwalk
  obtain ⟨hstored, hclosing, -⟩ := hsafe 1 (by simp [hlist])
  exact ⟨u, hwalk, hqueued, hlist, hstored, hclosing⟩

end Walks
end FlowiVfs
