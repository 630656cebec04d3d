import FlowiVfs.ChainedClose
import FlowiVfs.ChainedOrder
import FlowiVfs.WorkerProcess

/-!
# What the functions of `WorkerMount` can rely on

In every process whose other code keeps to its rules, a function finds each of its tickets open
and complete whenever it is between two calls, no read is refused for want of its file, and a
function that returns has freed all that it launched. The reads that it chains meet by themselves
what safety and order of chained operations ask of a worker.
-/
namespace FlowiVfs

open Program Transition

section Guarantees

variable {s : Process} {b b' : Body} {k k' : ℕ}

theorem Progress.accepted {s : VfsState} {m : MountPtr} {todo : List Instr}
    (hP : Progress s m todo) : ∀ i ∈ todo, ∀ h f p,
      i ≠ .chainPublish h f p true ∧ i ≠ .chainUnwind h f := by
  cases hP <;> simp

/-- Between its calls a function has every ticket that it may still use; each of them is a
finished operation of its mount, and nobody else has it. None of its reads is refused. -/
theorem worker_tickets_ready (h : Reaches processStep Respects .init s)
    (hk : s.bodies[k]? = some b) (hrun : b.isRunning = true) :
    (∀ i ∈ b.todo s.vfs, ∀ h f p, i ≠ .chainPublish h f p true ∧ i ≠ .chainUnwind h f) ∧
      (b.calling = none →
        (∀ t, Needs ticketHandles.vocabulary (fun _ => ∅) b.program t → t ∈ b.tickets) ∧
        (∀ t ∈ b.tickets, vfsIsReady s.vfs t = true ∧
          ∃ p d, s.vfs.lookupOpenHandle t = some (p, d) ∧ d.mount = b.mount) ∧
        ∀ k' b', k' ≠ k → s.bodies[k']? = some b' → b'.isRunning = true →
          ∀ t ∈ b.tickets, t ∉ b'.hand s.vfs) := by
  have hS := sound_reaches h
  have hb := List.mem_of_getElem? hk
  have hserving := hS.serving b hb hrun
  obtain ⟨hI, -⟩ := hS.handles (hS.alive b hb hrun)
  refine ⟨hserving.secure.progress.accepted, fun hcall => ?_⟩
  obtain ⟨-, howns⟩ := hserving.between hcall
  have hhand : ∀ t ∈ b.tickets, t ∈ b.hand s.vfs := fun t ht => mem_inHand.mpr (.inl ht)
  refine ⟨fun t ht => ?_, fun t ht => ?_, fun k' b' hne hk' hrun' t ht => ?_⟩
  · rcases howns.needs (fun _ _ _ _ n hn => absurd hn (Set.notMem_empty n)) ht with howned | hknown
    · exact howned
    · cases hknown
  · obtain ⟨p, d, hmap, hR⟩ := hserving.secure.held t (hhand t ht)
    rw [todo_none hcall] at hR
    have hvalid : t ≠ FL_VFS_HANDLE_INVALID := by
      obtain ⟨e, he, hid⟩ := hI.mapped t p hmap
      exact hid ▸ hI.idNonzero p e he
    exact ⟨hR.ready hmap hvalid, p, d,
      (VfsState.lookupOpenHandle_some p).mpr ⟨hmap, hR.live, hR.isOpen⟩, hR.mount⟩
  · exact (hS.apart k k' b b' hne.symm hk hk' hrun hrun').hands t (hhand t ht)

/-- A function that returns has freed every handle that it has launched. -/
theorem functions_free_handles (h : Reaches processStep Respects .init s) (hb : b ∈ s.bodies)
    (hreturned : b.hasReturned = true) : ∀ p ∈ b.launched, s.vfs.pool p = none :=
  fun p hp => ((sound_reaches h).freed b hb hreturned p hp).1

/-! ## A run of `read_prefix` -/

/-- Everything that the function asks for besides its launches is granted. -/
def grants : (op : MountOp) → op.Reply
  | .worker (.allocate _) => true
  | .worker (.vfsMountOpen _) => FL_VFS_HANDLE_INVALID
  | .worker (.vfsRead _ _) => FL_VFS_HANDLE_INVALID
  | .worker (.vfsWait _) => []
  | .worker (.vfsGetData _) => ⟨true, 10⟩
  | .worker (.vfsClose _) => ()
  | .worker (.each _) => true
  | .worker (.drain _) => some (.ok [])
  | .vfsMountReadAll _ => FL_VFS_HANDLE_INVALID
  | .vfsGetListing _ _ => FL_VFS_HANDLE_INVALID

def inVfs (actions : List Action) : List ProcessEvent := actions.map .vfs

/-- A mount is opened, and worker 3 reads the start of a file on it; it has opened the file and
read it, both inline, and has not waited for the read yet. -/
def prefixRead : List ProcessEvent :=
  inVfs ([.start .main .mountOpen] ++ callSteps 0 3 ++ jobRuns 1 completed) ++
    [.enter (.readPrefix [] 10) 0 3, .reply 0 grants, .call 0] ++
    inVfs ([.exec 1 .queue, .exec 1 (.inline true)] ++
      List.replicate 3 (.job 2 (.completed (opened 7))) ++ callSteps 1 2) ++
    [.reply 0 grants, .call 0] ++
    inVfs (callSteps 2 3 ++ chainedRuns 3 10 ++ callSteps 2 2) ++ [.reply 0 grants]

/-- The rest of it. -/
def prefixCloses : List ProcessEvent :=
  [.call 0] ++ inVfs (callSteps 3 2) ++ [.reply 0 grants, .reply 0 grants, .call 0] ++
    inVfs (callSteps 4 6) ++ [.reply 0 grants, .call 0] ++ inVfs (callSteps 5 5) ++
    [.reply 0 grants]

/-- The file and the read are both ready. -/
theorem worker_tickets_ready_prefix : ∃ s b, Reaches processStep Respects .init s ∧
    s.bodies[0]? = some b ∧ b.tickets = [3, 2] ∧ ∀ t ∈ b.tickets, vfsIsReady s.vfs t = true := by
  have hrun : ((replay processStep Respects prefixRead .init).bind fun s =>
      (s.bodies[0]?).map fun b => (b.tickets, b.isRunning, b.calling)) =
        some ([3, 2], true, none) := by
    decide +kernel
  obtain ⟨s, hs, hfacts⟩ := Option.bind_eq_some_iff.mp hrun
  obtain ⟨b, hk, hfacts⟩ := Option.map_eq_some_iff.mp hfacts
  simp only [Prod.mk.injEq] at hfacts
  have hreach := replay_reaches prefixRead hs
  refine ⟨s, b, hreach, hk, hfacts.1, fun t ht => ?_⟩
  exact (((worker_tickets_ready hreach hk hfacts.2.1).2 hfacts.2.2).2.1 t ht).1

/-- It has launched two operations, and both are gone. -/
theorem functions_free_handles_prefix : ∃ s b, Reaches processStep Respects .init s ∧
    b ∈ s.bodies ∧ b.launched = [2, 1] ∧ ∀ p ∈ b.launched, s.vfs.pool p = none := by
  have hrun : ((replay processStep Respects (prefixRead ++ prefixCloses) .init).bind fun s =>
      (s.bodies[0]?).map fun b => (b.launched, b.hasReturned)) = some ([2, 1], true) := by
    decide +kernel
  obtain ⟨s, hs, hfacts⟩ := Option.bind_eq_some_iff.mp hrun
  obtain ⟨b, hk, hfacts⟩ := Option.map_eq_some_iff.mp hfacts
  simp only [Prod.mk.injEq] at hfacts
  have hreach := replay_reaches (prefixRead ++ prefixCloses) hs
  have hb := List.mem_of_getElem? hk
  exact ⟨s, b, hreach, hb, hfacts.1, functions_free_handles hreach hb hfacts.2⟩

/-! ## The reads that functions chain -/

/-- Other code keeps to the conditions on chained operations. -/
def ChainsAside (s : Process) : ProcessEvent → Prop
  | .vfs (.exec c sched) => s.serves c ∨
      (InlineLast s.vfs (.exec c sched) ∧ InTurn s.vfs (.exec c sched))
  | _ => True

instance (s : Process) (e : ProcessEvent) : Decidable (ChainsAside s e) :=
  match e with
  | .vfs (.exec c sched) => inferInstanceAs (Decidable (s.serves c ∨
      (InlineLast s.vfs (.exec c sched) ∧ InTurn s.vfs (.exec c sched))))
  | .vfs (.start _ _) => .isTrue trivial
  | .vfs (.job _ _) => .isTrue trivial
  | .enter _ _ _ => .isTrue trivial
  | .call _ => .isTrue trivial
  | .reply _ _ => .isTrue trivial

/-- What chained operations need, and the invariants that give it. -/
structure Chained (s : VfsState) : Prop where
  safe : ChainsSafe s
  ordered : ChainsOrdered s
  stacked : Stacked s.calls
  closes : s.destroyed = false → CloseInv s s.threadFrames
  orders : s.destroyed = false → OrderInv s s.frames

theorem Chained.step {s v : VfsState} {a : Action} (hC : Chained s)
    (hI : s.destroyed = false → Inv s s.frames) (hD : Disciplined s a) (hlast : InlineLast s a)
    (hturn : InTurn s a) (hstep : step s a = some v) : Chained v := by
  have hstacked := hC.stacked.step hstep
  cases hlive : v.destroyed with
  | false =>
      have halive := step_keeps_destroyed hstep hlive
      have hI := hI halive
      have hclose := (hC.closes halive).step hI hC.stacked hD hlast hstep hlive
      have horder := (hC.orders halive).step hI hD hturn hstep hlive
      have hI' : Inv v (v.threadFrames.map Prod.snd) :=
        threadFrames_frames v ▸ hI.step hD hstep hlive
      exact ⟨hclose.safe hI', horder.ordered, hstacked, fun _ => hclose, fun _ => horder⟩
  | true =>
      obtain ⟨hpool, hjobs, htrace⟩ := destroyed_core hstep hlive
      have hdone := fun j => VfsState.jobDone_congr (j := j) hjobs
      have hdead : ¬ v.destroyed = false := by simp [hlive]
      refine ⟨⟨?_, ?_⟩, ⟨fun j k n f hj hc => ?_, ?_, ?_, ?_⟩, hstacked, fun h => absurd h hdead,
        fun h => absurd h hdead⟩
      · rw [hpool, hjobs]
        exact hC.safe.live
      · simp only [hpool, hjobs, hdone]
        exact hC.safe.idle
      · exact stamp_keeps htrace (hC.ordered.entered j k n f (hjobs ▸ hj) hc)
      · rw [hjobs]
        exact hC.ordered.order
      · rw [hjobs]
        exact hC.ordered.alone
      · rw [hjobs]
        exact hC.ordered.opened

theorem chained_init : Chained .init where
  safe := closeInv_init.safe (threadFrames_frames VfsState.init ▸ inv_init)
  ordered := orderInv_init.ordered
  stacked := stacked_init
  closes _ := closeInv_init
  orders _ := orderInv_init

/-- The file of a function's read, while the read is being chained. -/
theorem Body.Serving.file {s : VfsState} {i : Instr} {rest : List Instr} {h : FlVfsHandle}
    {file : HandlePtr} (hb : b.Serving s) (htodo : b.todo s = i :: rest)
    (hw : i.window = some (h, file)) (hmap : s.mapGet h = some file)
    (hstrain : strain (i :: rest) h = (1, 0)) : ∃ d, Reserved s b.mount file d 1 0 := by
  have hsecure := hb.secure
  rw [htodo] at hsecure
  obtain ⟨p, d, hmap', hR⟩ :=
    hsecure.held h (hsecure.named i List.mem_cons_self h (window_names hw))
  rw [hmap] at hmap'
  cases hmap'
  rw [hstrain] at hR
  exact ⟨d, hR⟩

/-- The steps of a function's call meet the conditions by themselves. -/
theorem Body.Serving.chains {s : VfsState} {c : ℕ} {sched : Sched} (hb : b.Serving s)
    (hcall : b.calling = some c) : InlineLast s (.exec c sched) ∧ InTurn s (.exec c sched) := by
  obtain ⟨todo, op, next, hk, -⟩ := hb.within c hcall
  cases todo with
  | nil =>
      refine ⟨fun k hc i hi => ?_, fun k hc i hi => ?_⟩
      all_goals
        rw [hk] at hc
        cases hc
        cases hi
  | cons i rest =>
      have htodo : b.todo s = i :: rest := by
        rw [todo_calling hcall, hk]
        rfl
      have hsecure := hb.secure
      rw [htodo] at hsecure
      refine ⟨fun k hc i' hi => ?_, fun k hc i' hi => ?_⟩
      all_goals
        rw [hk] at hc
        cases hc
        cases hi
      · cases hsecure.progress with
        | @recording h file p d named own =>
            obtain ⟨e, hR⟩ := hb.file htodo rfl named (by simp [strain])
            refine .inr (.inr fun d hd => ?_)
            rw [hR.live] at hd
            cases hd
            exact hR.done.2
        | _ => trivial
      · cases hsecure.progress with
        | @running h file p n d after named before latest own =>
            obtain ⟨e, hR⟩ := hb.file htodo rfl named (by simp [strain])
            refine .inr fun j _ hon => ⟨fun m hm => ?_, fun hno => ?_⟩
            · obtain ⟨k, m', hj, hchained⟩ := onFile_iff.mp hon
              rw [Option.mem_def, ticket_of hj hchained] at hm
              cases hm
              exact latest j k m hj hchained
            · obtain ⟨k, m, hj, hchained⟩ := onFile_iff.mp hon
              rcases hR.quiet j k hj (.inr ⟨m, hchained⟩) with hfin | rfl
              · have hdone : s.jobDone j = true := by
                  simp [VfsState.jobDone, VfsState.jobFinished_of hj, hfin]
                rw [hdone] at hno
                cases hno
              · cases hno
        | _ => trivial

/-- Where other code chains its operations safely and in turn, all chained operations are safe
and execute in order: the functions of `WorkerMount` need no discipline for theirs. -/
theorem worker_chains_safe
    (h : Reaches processStep (fun s e => Respects s e ∧ ChainsAside s e) .init s) :
    ChainsSafe s.vfs ∧ ChainsOrdered s.vfs := by
  have hchained : Chained s.vfs := by
    refine h.invariant_of (I := Process.Sound) (P := fun s => Chained s.vfs)
      (fun s h => sound_reaches (h.mono fun _ _ hok => hok.1)) chained_init ?_
    intro s e s' hS _ hC hok hstep
    have hI := fun halive => (hS.handles halive).1
    cases processStep_cases hstep with
    | @vfs a v taken =>
        have hconditions : InlineLast s.vfs a ∧ InTurn s.vfs a := by
          cases a with
          | start t request => exact ⟨trivial, trivial⟩
          | job j input => exact ⟨trivial, trivial⟩
          | exec c sched =>
              rcases hok.2 with ⟨b, hb, hcall⟩ | hconditions
              · have hrun := hS.running_of_calling hb hcall
                exact (hS.serving b hb hrun).chains hcall
              · exact hconditions
        exact hC.step hI hok.1.1 hconditions.1 hconditions.2 taken
    | enter f m worker => exact hC
    | call here program idle made taken =>
        exact hC.step (a := .start _ _) hI trivial trivial trivial taken
    | reply here program made ended => exact hC
  exact ⟨hchained.safe, hchained.ordered⟩

/-- The read was chained onto the file, which is gone with it. -/
theorem worker_chains_safe_prefix :
    ∃ s, Reaches processStep (fun s e => Respects s e ∧ ChainsAside s e) .init s ∧
      ChainedOn s.vfs 3 1 ∧ s.vfs.pool 1 = none ∧ ChainsSafe s.vfs ∧ ChainsOrdered s.vfs := by
  have hrun : ((replay processStep (fun s e => Respects s e ∧ ChainsAside s e)
      (prefixRead ++ prefixCloses) .init).map fun s =>
        (s.vfs.onFile 1 3, (s.vfs.pool 1).isNone)) = some (true, true) := by
    decide +kernel
  obtain ⟨s, hs, hfacts⟩ := Option.map_eq_some_iff.mp hrun
  simp only [Prod.mk.injEq, Option.isNone_iff_eq_none] at hfacts
  have hreach := replay_reaches (prefixRead ++ prefixCloses) hs
  exact ⟨s, hreach, onFile_iff.mp hfacts.1, hfacts.2, worker_chains_safe hreach⟩

end Guarantees
end FlowiVfs
