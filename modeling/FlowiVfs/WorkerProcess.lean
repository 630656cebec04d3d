import FlowiVfs.CallStack
import FlowiVfs.WorkerCalls
import FlowiVfs.WorkerTickets

/-!
# Functions of `WorkerMount` among everything else that uses the VFS

A process has a VFS and any number of functions of `WorkerMount` in progress on workers. A
function starts a call of the VFS, whose steps interleave with all other calls and jobs, and goes
on with what the call has returned; what it calls besides the VFS answers as it likes.

The rest of the process keeps to the rules of the handle system. It names none of the tickets of a
function in progress, nobody having been told them, and it closes no mount under one. The job
system runs what a worker schedules before it returns.
-/
namespace FlowiVfs

open Program Transition

/-- The call of the VFS that an operation is, if it is one that touches the handles. -/
def MountOp.request (m : MountPtr) : MountOp → Option Request
  | .worker (.vfsMountOpen _) => some (.openFile m)
  | .worker (.vfsRead file size) => some (.read file size)
  | .worker (.vfsWait ticket) => some (.wait ticket)
  | .worker (.vfsClose ticket) => some (.close ticket)
  | .vfsMountReadAll _ => some (.readAll ⟨m, false, false, FL_VFS_HANDLE_INVALID⟩)
  | .vfsGetListing _ _ => some (.listing m)
  | _ => none

/-- What the operation replies: a launch the handle that its call has returned. -/
def MountOp.answer (ret : FlVfsHandle) (others : (op : MountOp) → op.Reply) :
    (op : MountOp) → op.Reply
  | .worker (.vfsMountOpen _) => ret
  | .worker (.vfsRead _ _) => ret
  | .vfsMountReadAll _ => ret
  | .vfsGetListing _ _ => ret
  | op => others op

/-- A function in progress on a worker. -/
structure Body where
  worker : ℕ
  mount : MountPtr
  program : MountProgram Bool
  /-- The call of the VFS that it is in, and what that call has returned. -/
  calling : Option ℕ
  ret : FlVfsHandle
  /-- The tickets that it has and is not closing. -/
  tickets : List FlVfsHandle
  /-- The handles of all operations that it has launched. -/
  launched : List HandlePtr

structure Process where
  vfs : VfsState
  bodies : List Body

inductive ProcessEvent
  /-- Other code starts a call, or a call or a job makes a step. -/
  | vfs (a : Action)
  | enter (f : WorkerFunction) (m : MountPtr) (worker : ℕ)
  | call (k : ℕ)
  | reply (k : ℕ) (others : (op : MountOp) → op.Reply)

def Process.init : Process := ⟨.init, []⟩

namespace Body

def enter (f : WorkerFunction) (m : MountPtr) (worker : ℕ) : Body :=
  ⟨worker, m, f.program, none, FL_VFS_HANDLE_INVALID, [], []⟩

def isRunning (b : Body) : Bool :=
  match b.program with
  | .done _ => false
  | .perform _ _ => true

/-- The function has returned to its caller. -/
def hasReturned (b : Body) : Bool :=
  match b.program with
  | .done returned => returned
  | .perform _ _ => false

/-- What is left of the call that the function is in. -/
def todo (s : VfsState) (b : Body) : List Instr :=
  (b.calling.bind fun c => s.calls[c]?).elim [] Call.todo

def hand (s : VfsState) (b : Body) : List FlVfsHandle := inHand b.tickets (b.todo s) b.ret

/-- The function keeps what its call publishes. -/
def follow (s : VfsState) (a : Action) (b : Body) : Body :=
  match a with
  | .exec c _ =>
      if b.calling = some c then
        match headInstr s c with
        | some i => { b with ret := i.returns s, launched := i.publishes.toList ++ b.launched }
        | none => b
      else b
  | _ => b

/-- The function starts the call. -/
def starts (op : MountOp) (c : ℕ) (b : Body) : Body :=
  { b with
    calling := some c
    ret := FL_VFS_HANDLE_INVALID
    tickets := b.tickets.diff op.takes }

/-- The function goes on with `program`. -/
def resumes (program : MountProgram Bool) (b : Body) : Body :=
  { b with
    program := program
    calling := none
    ret := FL_VFS_HANDLE_INVALID
    tickets := given b.ret ++ b.tickets }

end Body

def processStep (s : Process) : ProcessEvent → Option Process
  | .vfs a => (step s.vfs a).map fun v => ⟨v, s.bodies.map (Body.follow s.vfs a)⟩
  | .enter f m worker => some { s with bodies := s.bodies ++ [.enter f m worker] }
  | .call k =>
      match s.bodies[k]? with
      | none => none
      | some b =>
        match b.program, b.calling with
        | .perform op _, none =>
            (op.request b.mount).bind fun request =>
              (step s.vfs (.start (.worker b.worker) request)).map fun v =>
                ⟨v, s.bodies.set k (b.starts op s.vfs.calls.length)⟩
        | _, _ => none
  | .reply k others =>
      match s.bodies[k]? with
      | none => none
      | some b =>
        match b.program with
        | .done _ => none
        | .perform op next =>
            if b.calling.isSome = (op.request b.mount).isSome ∧ b.todo s.vfs = [] then
              some { s with bodies := s.bodies.set k (b.resumes (next (op.answer b.ret others))) }
            else none

/-! ## The rest of the process -/

/-- Call `c` is one of a function in progress. -/
def Process.serves (s : Process) (c : ℕ) : Prop := ∃ b ∈ s.bodies, b.calling = some c

instance (s : Process) (c : ℕ) : Decidable (s.serves c) :=
  inferInstanceAs (Decidable (∃ b ∈ s.bodies, b.calling = some c))

/-- The step does nothing to the tickets and the mount of the function. -/
def Instr.SparesBody (s : VfsState) (i : Instr) (b : Body) : Prop :=
  (∀ h ∈ i.names, h ∉ b.hand s) ∧ i ≠ .mountSnapshot b.mount ∧ i ≠ .destroyLoop

instance (s : VfsState) (i : Instr) (b : Body) : Decidable (i.SparesBody s b) :=
  inferInstanceAs (Decidable
    ((∀ h ∈ i.names, h ∉ b.hand s) ∧ i ≠ .mountSnapshot b.mount ∧ i ≠ .destroyLoop))

/-- The point is about to schedule an operation. -/
def Instr.schedules : Instr → Bool
  | .schedule _ => true
  | _ => false

/-- What the functions in progress ask of a step. -/
def Undisturbed (s : Process) : Action → Prop
  | .exec c sched => ∀ i ∈ headInstr s.vfs c,
      if s.serves c then i.schedules = true → sched ≠ .queue
      else ∀ b ∈ s.bodies, b.isRunning = true → i.SparesBody s.vfs b
  | _ => True

instance (s : Process) (a : Action) : Decidable (Undisturbed s a) :=
  match a with
  | .exec c sched => inferInstanceAs (Decidable (∀ i ∈ headInstr s.vfs c,
      if s.serves c then i.schedules = true → sched ≠ .queue
      else ∀ b ∈ s.bodies, b.isRunning = true → i.SparesBody s.vfs b))
  | .start _ _ => .isTrue trivial
  | .job _ _ => .isTrue trivial

/-- The rest of the process keeps to its rules. -/
def Respects (s : Process) : ProcessEvent → Prop
  | .vfs a => Disciplined s.vfs a ∧ Undisturbed s a
  | .enter _ m _ => m ∉ s.vfs.closing ∧ s.vfs.destroyed = false
  | .call _ => True
  | .reply _ _ => True

instance (s : Process) (e : ProcessEvent) : Decidable (Respects s e) :=
  match e with
  | .vfs a => inferInstanceAs (Decidable (Disciplined s.vfs a ∧ Undisturbed s a))
  | .enter _ m _ => inferInstanceAs (Decidable (m ∉ s.vfs.closing ∧ s.vfs.destroyed = false))
  | .call _ => .isTrue trivial
  | .reply _ _ => .isTrue trivial

/-! ## The invariant -/

/-- Where a function returns, no ticket is left. -/
def Closed (O : Multiset FlVfsHandle) (_ : Set FlVfsHandle) (returned : Bool) : Prop :=
  returned = true → O = 0

def MountOp.launches : MountOp → Bool
  | .worker (.vfsMountOpen _) | .worker (.vfsRead _ _) | .vfsMountReadAll _
  | .vfsGetListing _ _ => true
  | _ => false

/-- A function in progress. -/
structure Body.Serving (s : VfsState) (b : Body) : Prop where
  secure : Secure s b.mount b.tickets (b.todo s) b.ret
  accounted : Accounted s (b.hand s) b.launched
  between : b.calling = none → b.ret = FL_VFS_HANDLE_INVALID ∧
    Owns ticketHandles Closed b.tickets ∅ b.program
  within : ∀ c, b.calling = some c → ∃ todo op next, s.calls[c]? = some ⟨.worker b.worker, todo⟩ ∧
    b.program = .perform op next ∧ (op.request b.mount).isSome = true ∧
    (∀ r, Owns ticketHandles Closed
      ((given (op.ticket r) : Multiset FlVfsHandle) + b.tickets) ∅ (next r)) ∧
    (op.launches = false → b.ret = FL_VFS_HANDLE_INVALID ∧ ∀ i ∈ todo, i.settles = true)

/-- The functions do not get in each other's way. -/
structure Body.Apart (s : VfsState) (b b' : Body) : Prop where
  hands : ∀ t ∈ b.hand s, t ∉ b'.hand s
  calls : ∀ c, b.calling = some c → b'.calling ≠ some c

structure Process.Sound (s : Process) : Prop where
  handles : s.vfs.destroyed = false →
    Inv s.vfs s.vfs.frames ∧ ChainsBorn s.vfs s.vfs.frames
  alive : ∀ b ∈ s.bodies, b.isRunning = true → s.vfs.destroyed = false
  serving : ∀ b ∈ s.bodies, b.isRunning = true → b.Serving s.vfs
  ended : ∀ b ∈ s.bodies, b.isRunning = false → b.calling = none
  freed : ∀ b ∈ s.bodies, b.hasReturned = true → ∀ p ∈ b.launched,
    s.vfs.pool p = none ∧ (s.vfs.destroyed = false → p < s.vfs.nextPtr)
  apart : ∀ (k k' : ℕ) (b b' : Body), k ≠ k' → s.bodies[k]? = some b → s.bodies[k']? = some b' →
    b.isRunning = true → b'.isRunning = true → b.Apart s.vfs b'

section Steps

variable {s v s₀ s₁ s₂ : VfsState} {a : Action} {b b' : Body} {c : ℕ} {sched : Sched} {t : Thread}
  {i : Instr} {rest new : List Instr} {m : MountPtr} {h : FlVfsHandle} {op : MountOp}
  {request : Request}

/-! ## Steps of the VFS -/

/-- A step of a call, without the lock and the bookkeeping of the calls. -/
theorem step_body (hI : Inv s s.frames) (hD : Disciplined s (.exec c sched))
    (hstep : step s (.exec c sched) = some v) (hlive : v.destroyed = false) :
    ∃ t i rest new s₀ s₂, s.calls[c]? = some ⟨t, i :: rest⟩ ∧
      v.calls = s.calls.set c ⟨t, new ++ rest⟩ ∧
      (SameCore s s₀ ∧ s₀.closing = s.closing) ∧ (SameCore s₂ v ∧ v.closing = s₂.closing) ∧
      (ChainsBorn s s.frames → ChainsBorn s₀ (i :: (s.otherFrames c t rest).map Prod.snd)) ∧
      Inv s₀ (i :: (s.otherFrames c t rest).map Prod.snd) ∧
      i.Disciplined s₀ ((s.otherFrames c t rest).map Prod.snd) ∧
      execBody s₀ c t sched i = some (s₂, new) ∧ s₂.destroyed = false := by
  obtain ⟨t, i, rest, s₁, new, hc, -, -, hx, rfl⟩ := step_exec hstep
  have hframes : s.frames.Perm (i :: (s.otherFrames c t rest).map Prod.snd) := by
    rw [← threadFrames_frames]
    exact (threadFrames_split hc).map Prod.snd
  have hJ := hI.perm hframes
  have hDi : i.Disciplined s ((s.otherFrames c t rest).map Prod.snd) := by
    refine (hD i (by simp [headInstr, hc])).mono fun x hx => ?_
    exact hframes.mem_iff.mpr (List.mem_cons_of_mem i hx)
  obtain ⟨s₀, s₂, hbody, hlock⟩ := exec_body hx
  refine ⟨t, i, rest, new, s₀, s₂, hc, rfl, ?_⟩
  rcases hlock with ⟨-, rfl, rfl⟩ | ⟨-, rfl, rfl⟩
  · exact ⟨⟨⟨rfl, rfl, rfl, rfl, rfl⟩, rfl⟩, ⟨⟨rfl, rfl, rfl, rfl, rfl⟩, rfl⟩,
      fun hB => (hB.perm hframes).same le_rfl ⟨[_], rfl⟩ rfl,
      hJ.emit (by simp) (by simp), emit_disciplined hDi, hbody, hlive⟩
  · exact ⟨⟨⟨rfl, rfl, rfl, rfl, rfl⟩, rfl⟩, ⟨⟨rfl, rfl, rfl, rfl, rfl⟩, rfl⟩,
      fun hB => hB.perm hframes, hJ, hDi, hbody, hlive⟩

theorem Secure.of_core {todo : List Instr} {held : List FlVfsHandle} {ret : FlVfsHandle}
    (hS : Secure s m held todo ret) (hs : SameCore s v ∧ v.closing = s.closing) :
    Secure v m held todo ret :=
  hS.of_same hs.1.1 hs.1.2.1 hs.1.2.2.1 hs.2

theorem headInstr_some (hc : s.calls[c]? = some ⟨t, i :: rest⟩) : headInstr s c = some i := by
  simp [headInstr, hc]

/-- The points of other calls. -/
theorem mem_otherFrames {c' : ℕ} {k : Call} {y : Instr} (hne : c' ≠ c)
    (hc : s.calls[c']? = some k) (hy : y ∈ k.todo) :
    y ∈ (s.otherFrames c t rest).map Prod.snd := by
  obtain ⟨hlt, hget⟩ := List.getElem?_eq_some_iff.mp hc
  simp only [VfsState.otherFrames, List.map_append, List.map_flatMap, List.map_map,
    Function.comp_def, List.map_id', List.mem_append, List.mem_flatMap]
  rcases Nat.lt_or_gt_of_ne hne with hbelow | habove
  · refine .inl (.inl ⟨k, ?_, hy⟩)
    rw [← hget]
    exact List.mem_take_iff_getElem.mpr ⟨c', by omega, rfl⟩
  · refine .inr ⟨k, ?_, hy⟩
    rw [← hget]
    exact List.mem_drop_iff_getElem.mpr ⟨c' - (c + 1), by omega, by congr 1; omega⟩

/-- The call of a function stays what it is in steps that are not its own. -/
theorem step_calls (hstep : step s a = some v) {k : Call} (hc : s.calls[c]? = some k)
    (hne : ∀ sched, a ≠ .exec c sched) : v.calls[c]? = some k := by
  cases a with
  | start t request =>
      simp only [step] at hstep
      split_ifs at hstep
      cases hstep
      rw [List.getElem?_append_left (List.getElem?_eq_some_iff.mp hc).1, hc]
  | job j input =>
      simp only [step] at hstep
      split_ifs at hstep
      obtain ⟨k', d, phase, f, es, -, -, -, rfl⟩ := jobStep_cases hstep
      exact hc
  | exec c' sched =>
      obtain ⟨t, i, rest, s₁, new, -, -, -, -, rfl⟩ := step_exec hstep
      have hother : c' ≠ c := fun same => hne sched (same ▸ rfl)
      rw [List.getElem?_set_ne hother, hc]

theorem chainsBorn_step (hB : ChainsBorn s s.frames) (hI : Inv s s.frames)
    (hD : Disciplined s a) (hstep : step s a = some v) (hlive : v.destroyed = false) :
    ChainsBorn v v.frames := by
  refine step_rule hI hD hstep hlive hB (fun _ _ _ hB hp => hB.perm hp) ?_ ?_ ?_ ?_ ?_
  · exact fun s F cs hB => hB.same le_rfl ⟨[], rfl⟩ rfl
  · exact fun s F c e _ hB => hB.same le_rfl ⟨[_], rfl⟩ rfl
  · intro t request _
    refine hB.push fun x hx w hw => ?_
    have hplain := (program_quiet request x hx).2.1
    cases x with
    | chainAlloc | chainRun => cases hplain
    | _ => cases hw
  · intro j input k d phase g es _ hk _ _
    exact hB.job hk
  · intro c sched t i rest F s₀ s₂ new _ _ _ _ hB₀ hI₀ hD₀ hx hlive₂
    exact hB₀.body hI₀ hD₀ hx hlive₂

/-! ## A function over a step of the VFS -/

theorem todo_calling (hb : b.calling = some c) : b.todo s = (s.calls[c]?).elim [] Call.todo := by
  rw [Body.todo, hb, Option.bind_some]

theorem todo_none (hb : b.calling = none) : b.todo s = [] := by
  rw [Body.todo, hb]
  rfl

/-- A function whose call does not move. -/
theorem Body.Serving.keep (hb : b.Serving s)
    (hcalls : ∀ c, b.calling = some c → v.calls[c]? = s.calls[c]?)
    (hsecure : Secure v b.mount b.tickets (b.todo s) b.ret)
    (hacc : Accounted v (b.hand s) b.launched) : b.Serving v ∧ b.todo v = b.todo s := by
  have htodo : b.todo v = b.todo s := by
    cases hc : b.calling with
    | none => rw [todo_none hc, todo_none hc]
    | some c => rw [todo_calling hc, todo_calling hc, hcalls c hc]
  have hhand : b.hand v = b.hand s := by
    rw [Body.hand, Body.hand, htodo]
  refine ⟨⟨htodo ▸ hsecure, hhand ▸ hacc, hb.between, fun c hc => ?_⟩, htodo⟩
  rw [hcalls c hc]
  exact hb.within c hc

/-- A step that is not one of the function's own call. -/
theorem Body.Serving.other (hb : b.Serving s) (hI : Inv s s.frames) (hD : Disciplined s a)
    (hstep : step s a = some v) (hlive : v.destroyed = false)
    (hnot : ∀ c, b.calling = some c → ∀ sched, a ≠ .exec c sched)
    (hspared : ∀ c sched, a = .exec c sched → ∀ i ∈ headInstr s c, i.SparesBody s b) :
    b.Serving v ∧ b.todo v = b.todo s := by
  have hcalls : ∀ c, b.calling = some c → v.calls[c]? = s.calls[c]? := by
    intro c hc
    obtain ⟨todo, -, -, hcall, -⟩ := hb.within c hc
    rw [hcall]
    exact step_calls hstep hcall (hnot c hc)
  have hacc : Accounted v (b.hand s) b.launched :=
    step_retained (P := fun s' => Accounted s' (b.hand s) b.launched) hI hD hstep hlive hb.accounted
      fun u w hr hA => hA.retained hr
  refine hb.keep hcalls ?_ hacc
  cases a with
  | start t request =>
      simp only [step] at hstep
      split_ifs at hstep
      cases hstep
      exact hb.secure.of_same rfl rfl rfl rfl
  | job j input =>
      simp only [step] at hstep
      split_ifs at hstep
      exact hb.secure.job hstep
  | exec c sched =>
      obtain ⟨t, i, rest, new, s₀, s₂, hc, -, hs₀, hv, -, hJ, hDi, hx, hlive₂⟩ :=
        step_body hI hD hstep hlive
      obtain ⟨hnames, hmount, -⟩ := hspared c sched rfl i (headInstr_some hc)
      refine Secure.of_core ?_ hv
      refine (hb.secure.of_core hs₀).other hJ hDi ?_ hx hlive₂ hnames ?_
      · intro y hy
        cases hcall : b.calling with
        | none =>
            rw [todo_none hcall] at hy
            cases hy
        | some c' =>
            obtain ⟨todo, op, next, hk, -⟩ := hb.within c' hcall
            rw [todo_calling hcall, hk] at hy
            refine mem_otherFrames ?_ hk hy
            rintro rfl
            exact hnot c' hcall sched rfl
      · rcases body_closing hx with hsame | ⟨m, rfl, hsame⟩
        · rw [hsame, hs₀.2]
          exact hb.secure.mount
        · rw [hsame, hs₀.2]
          simp only [List.mem_cons, not_or]
          exact ⟨fun same => hmount (same ▸ rfl), hb.secure.mount⟩

theorem Accounted.of_core {held : List FlVfsHandle} {launched : List HandlePtr}
    (hA : Accounted s held launched) (hs : SameCore s v) : Accounted v held launched := by
  obtain ⟨hpool, hmap, -, hptr, -⟩ := hs
  intro p hp
  obtain ⟨hlt, hlive⟩ := hA p hp
  refine ⟨hptr ▸ hlt, fun d hd => ?_⟩
  rw [VfsState.mapGet_congr hmap]
  exact hlive d (hpool ▸ hd)

theorem returns_congr (hpool : v.pool = s.pool) : i.returns v = i.returns s := by
  rw [Instr.returns, Instr.returns, hpool]

/-- A step of the function's own call. -/
theorem Body.Serving.own (hb : b.Serving s) (hI : Inv s s.frames) (hB : ChainsBorn s s.frames)
    (hD : Disciplined s (.exec c sched)) (hcall : b.calling = some c)
    (hstep : step s (.exec c sched) = some v) (hlive : v.destroyed = false)
    (hinline : ∀ i ∈ headInstr s c, i.schedules = true → sched ≠ .queue) :
    (b.follow s (.exec c sched)).Serving v ∧
      ∀ t ∈ (b.follow s (.exec c sched)).hand v, t ∈ b.hand s ∨ s.mapGet t = none := by
  obtain ⟨t, i, rest, new, s₀, s₂, hc, hcalls, hs₀, hv, hborn, hJ, hDi, hx, hlive₂⟩ :=
    step_body hI hD hstep hlive
  obtain ⟨todo, op, next, hk, hprogram, hrequest, howns, hsettles⟩ := hb.within c hcall
  rw [hc] at hk
  cases hk
  have htodo : b.todo s = i :: rest := by
    rw [todo_calling hcall, hc]
    rfl
  have hafter : v.calls[c]? = some ⟨.worker b.worker, new ++ rest⟩ := by
    rw [hcalls, List.getElem?_set_self (List.getElem?_eq_some_iff.mp hc).1]
  have hfollow : b.follow s (.exec c sched) =
      { b with ret := i.returns s, launched := i.publishes.toList ++ b.launched } := by
    simp only [Body.follow, hcall, if_true, headInstr_some hc]
  have htodo' : (b.follow s (.exec c sched)).todo v = new ++ rest := by
    rw [hfollow, todo_calling (by exact hcall), hafter]
    rfl
  have hret : b.ret = FL_VFS_HANDLE_INVALID := hb.secure.unreturned (by simp [htodo])
  have hsecure := hb.secure.of_core hs₀
  rw [htodo, hret] at hsecure
  have hworker : Thread.worker b.worker ≠ .main := by simp
  have hown := hsecure.own hJ (hborn hB) hworker
    (fun p hp => hinline i (headInstr_some hc) (hp ▸ rfl)) hx hlive₂
  have hreturns : i.returns s₀ = i.returns s := returns_congr hs₀.1.1
  have hacc := hb.accounted
  rw [Body.hand, htodo, hret] at hacc
  have hacc' := (hacc.of_core hs₀.1).own (body_retained hJ hx hlive₂) hown
    (hJ.body hDi hx hlive₂).toTable
  rw [hreturns] at hacc'
  have hhand : (b.follow s (.exec c sched)).hand v =
      inHand b.tickets (new ++ rest) (i.returns s) := by
    rw [Body.hand, htodo', hfollow]
  refine ⟨⟨?_, ?_, ?_, ?_⟩, ?_⟩
  · rw [htodo', hfollow]
    exact hreturns ▸ hown.secure.of_core hv
  · rw [hhand, hfollow]
    exact hacc'.of_core hv.1
  · intro hnone
    rw [hfollow] at hnone
    rw [show b.calling = none from hnone] at hcall
    cases hcall
  · intro c' hc'
    rw [hfollow] at hc' ⊢
    obtain rfl : c = c' := Option.some.inj (hcall.symm.trans hc')
    refine ⟨new ++ rest, op, next, hafter, hprogram, hrequest, howns, fun hno => ?_⟩
    obtain ⟨-, hall⟩ := hsettles hno
    have hi := hall i List.mem_cons_self
    refine ⟨settles_returns hi, fun y hy => ?_⟩
    rcases List.mem_append.mp hy with hy | hy
    · exact settles_body hx hi y hy
    · exact hall y (List.mem_cons_of_mem i hy)
  · intro t ht
    rw [hhand, ← hreturns] at ht
    rw [Body.hand, htodo, hret]
    refine (hown.fresh t ht).imp_right fun hnone => ?_
    rwa [VfsState.mapGet_congr hs₀.1.2.1] at hnone

theorem follow_program : (b.follow s a).program = b.program := by
  unfold Body.follow
  split
  · split_ifs
    · split
      · rfl
      · rfl
    · rfl
  · rfl

theorem follow_calling : (b.follow s a).calling = b.calling := by
  unfold Body.follow
  split
  · split_ifs
    · split
      · rfl
      · rfl
    · rfl
  · rfl

theorem follow_running : (b.follow s a).isRunning = b.isRunning := by
  rw [Body.isRunning, Body.isRunning, follow_program]

theorem returned_program (h : b.hasReturned = true) : b.program = .done true := by
  unfold Body.hasReturned at h
  split at h
  · rename_i hdone
    rw [hdone, h]
  · cases h

theorem follow_other (hnot : ∀ c, b.calling = some c → ∀ sched, a ≠ .exec c sched) :
    b.follow s a = b := by
  cases a with
  | exec c sched =>
      have hne : b.calling ≠ some c := fun hc => hnot c hc sched rfl
      exact if_neg hne
  | start t request => rfl
  | job j input => rfl

/-- The point at which a function's call is. -/
theorem Body.Serving.head (hb : b.Serving s) (hcall : b.calling = some c)
    (hi : i ∈ headInstr s c) : (∀ h ∈ i.names, h ∈ b.hand s) ∧ (∀ m, i ≠ .mountSnapshot m) ∧
      i ≠ .destroyLoop := by
  obtain ⟨todo, op, next, hk, -⟩ := hb.within c hcall
  have hhead : i ∈ todo.head? := by
    simpa [headInstr, hk] using hi
  cases todo with
  | nil => cases hhead
  | cons i' rest =>
      cases hhead
      have htodo : b.todo s = i :: rest := by
        rw [todo_calling hcall, hk]
        rfl
      have hsecure := hb.secure
      rw [htodo] at hsecure
      refine ⟨fun h hh => ?_, ?_⟩
      · rw [Body.hand, htodo]
        exact hsecure.named i List.mem_cons_self h hh
      · cases hsecure.progress <;> exact ⟨by simp, by simp⟩

end Steps

/-! ## A process over its events -/

section Events

variable {s s' : Process} {v : VfsState} {a : Action} {b b' : Body} {c k : ℕ} {sched : Sched}
  {t : FlVfsHandle} {i : Instr} {m : MountPtr} {op : MountOp}

theorem Process.Sound.running_of_calling (hS : s.Sound) (hb : b ∈ s.bodies)
    (hcall : b.calling = some c) : b.isRunning = true := by
  by_contra hno
  have hnone := hS.ended b hb (by simpa using hno)
  rw [hnone] at hcall
  cases hcall

theorem Process.Sound.head_spares (hS : s.Sound) (hk : s.bodies[k]? = some b)
    (hrun : b.isRunning = true) (hguard : Undisturbed s (.exec c sched))
    (hnot : b.calling ≠ some c) : ∀ i ∈ headInstr s.vfs c, i.SparesBody s.vfs b := by
  intro i hi
  have hb := List.mem_of_getElem? hk
  have hg := hguard i hi
  by_cases hserves : s.serves c
  · obtain ⟨b', hb', hcall⟩ := hserves
    obtain ⟨k', hk'⟩ := List.mem_iff_getElem?.mp hb'
    have hrun' := hS.running_of_calling hb' hcall
    have hne : k ≠ k' := by
      rintro rfl
      rw [hk] at hk'
      cases hk'
      exact hnot hcall
    obtain ⟨hnames, hmount, hdestroy⟩ := (hS.serving b' hb' hrun').head hcall hi
    have hapart := hS.apart k k' b b' hne hk hk' hrun hrun'
    exact ⟨fun h hh hin => hapart.hands h hin (hnames h hh), hmount b.mount, hdestroy⟩
  · rw [if_neg hserves] at hg
    exact hg b hb hrun

/-- No function is in progress when the VFS is destroyed. -/
theorem Process.Sound.stays_alive (hS : s.Sound) (hguard : Undisturbed s a)
    (hstep : step s.vfs a = some v) (hb : b ∈ s.bodies) (hrun : b.isRunning = true) :
    v.destroyed = false := by
  by_contra hne
  have halive := hS.alive b hb hrun
  obtain ⟨c, sched, t, rest, rfl, hc, -, -⟩ :=
    step_destroys hstep halive (by simpa using hne)
  have hhead : Instr.destroyLoop ∈ headInstr s.vfs c := headInstr_some hc
  by_cases hserves : s.serves c
  · obtain ⟨b', hb', hcall⟩ := hserves
    have hrun' := hS.running_of_calling hb' hcall
    exact ((hS.serving b' hb' hrun').head hcall hhead).2.2 rfl
  · have hg := hguard _ hhead
    rw [if_neg hserves] at hg
    exact (hg b hb hrun).2.2 rfl

/-- A function over a step of the VFS. -/
theorem Process.Sound.follows (hS : s.Sound) (hR : Respects s (.vfs a))
    (hstep : step s.vfs a = some v) (hk : s.bodies[k]? = some b) (hrun : b.isRunning = true) :
    (b.follow s.vfs a).Serving v ∧ ∀ t ∈ (b.follow s.vfs a).hand v, t ∈ b.hand s.vfs ∨
      s.vfs.mapGet t = none ∧ ∃ c sched, a = .exec c sched ∧ b.calling = some c := by
  have hb := List.mem_of_getElem? hk
  have hlive := hS.stays_alive hR.2 hstep hb hrun
  obtain ⟨hI, hB⟩ := hS.handles (hS.alive b hb hrun)
  have hserving := hS.serving b hb hrun
  by_cases hmine : ∃ c sched, a = .exec c sched ∧ b.calling = some c
  · obtain ⟨c, sched, rfl, hcall⟩ := hmine
    have hinline : ∀ i ∈ headInstr s.vfs c, i.schedules = true → sched ≠ .queue := by
      intro i hi
      have hg := hR.2 i hi
      rwa [if_pos ⟨b, hb, hcall⟩] at hg
    obtain ⟨hown, hhand⟩ := hserving.own hI hB hR.1 hcall hstep hlive hinline
    exact ⟨hown, fun t ht => (hhand t ht).imp_right fun hnone => ⟨hnone, c, sched, rfl, hcall⟩⟩
  · have hnot : ∀ c, b.calling = some c → ∀ sched, a ≠ .exec c sched :=
      fun c hcall sched ha => hmine ⟨c, sched, ha, hcall⟩
    rw [follow_other hnot]
    obtain ⟨hother, htodo⟩ := hserving.other hI hR.1 hstep hlive hnot fun c sched ha =>
      hS.head_spares hk hrun (ha ▸ hR.2) fun hcall => hnot c hcall sched ha
    refine ⟨hother, fun t ht => .inl ?_⟩
    rw [Body.hand, htodo] at ht
    exact ht

theorem Body.Serving.mapped (hb : b.Serving s.vfs) (ht : t ∈ b.hand s.vfs) :
    s.vfs.mapGet t ≠ none := by
  obtain ⟨p, d, hmap, -⟩ := hb.secure.held t ht
  rw [hmap]
  exact Option.some_ne_none p

theorem Process.Sound.vfs (hS : s.Sound) (hR : Respects s (.vfs a))
    (hstep : step s.vfs a = some v) :
    Process.Sound ⟨v, s.bodies.map (Body.follow s.vfs a)⟩ where
  handles hlive := by
    obtain ⟨hI, hB⟩ := hS.handles (step_keeps_destroyed hstep hlive)
    exact ⟨hI.step hR.1 hstep hlive, chainsBorn_step hB hI hR.1 hstep hlive⟩
  alive := by
    intro b' hb' hrun
    obtain ⟨b, hb, rfl⟩ := List.mem_map.mp hb'
    exact hS.stays_alive hR.2 hstep hb (follow_running ▸ hrun)
  serving := by
    intro b' hb' hrun
    obtain ⟨b, hb, rfl⟩ := List.mem_map.mp hb'
    obtain ⟨k, hk⟩ := List.mem_iff_getElem?.mp hb
    exact (hS.follows hR hstep hk (follow_running ▸ hrun)).1
  ended := by
    intro b' hb' hno
    obtain ⟨b, hb, rfl⟩ := List.mem_map.mp hb'
    rw [follow_calling]
    exact hS.ended b hb (follow_running ▸ hno)
  freed := by
    intro b' hb' hdone p hp
    obtain ⟨b, hb, rfl⟩ := List.mem_map.mp hb'
    have hreturned : b.hasReturned = true := by
      rwa [Body.hasReturned, follow_program] at hdone
    have hno : b.isRunning = false := by
      rw [Body.isRunning, returned_program hreturned]
    have hnone := hS.ended b hb hno
    rw [follow_other (fun c hc => by rw [hnone] at hc; cases hc)] at hp
    obtain ⟨hgone, hlt⟩ := hS.freed b hb hreturned p hp
    cases hlive : v.destroyed with
    | true => exact ⟨(destroyed_core hstep hlive).1 ▸ hgone, by simp⟩
    | false =>
        have halive := step_keeps_destroyed hstep hlive
        have hdead := step_retained (P := fun u => p < u.nextPtr ∧ u.pool p = none)
          (hS.handles halive).1 hR.1 hstep hlive ⟨hlt halive, hgone⟩
          fun u w hr hu => ⟨Nat.lt_of_lt_of_le hu.1 hr.ptr, hr.dead p hu.1 hu.2⟩
        exact ⟨hdead.2, fun _ => hdead.1⟩
  apart := by
    intro k k' b₁ b₁' hne hk hk' hrun hrun'
    rw [List.getElem?_map, Option.map_eq_some_iff] at hk hk'
    obtain ⟨b, hk, rfl⟩ := hk
    obtain ⟨b', hk', rfl⟩ := hk'
    rw [follow_running] at hrun hrun'
    have hb := List.mem_of_getElem? hk
    have hb' := List.mem_of_getElem? hk'
    have hapart := hS.apart k k' b b' hne hk hk' hrun hrun'
    obtain ⟨-, hhand⟩ := hS.follows hR hstep hk hrun
    obtain ⟨-, hhand'⟩ := hS.follows hR hstep hk' hrun'
    refine ⟨fun t ht ht' => ?_, fun c hc hc' => ?_⟩
    · rcases hhand t ht with hin | ⟨hnone, c, sched, rfl, hc⟩
      · rcases hhand' t ht' with hin' | ⟨hnone', -⟩
        · exact hapart.hands t hin hin'
        · exact (hS.serving b hb hrun).mapped hin hnone'
      · rcases hhand' t ht' with hin' | ⟨-, c', sched', hsame, hc'⟩
        · exact (hS.serving b' hb' hrun').mapped hin' hnone
        · cases hsame
          exact hapart.calls c hc hc'
    · rw [follow_calling] at hc hc'
      exact hapart.calls c hc hc'

/-- A function goes on, with no more in hand than before. -/
theorem Process.Sound.set (hS : s.Sound) (hk : s.bodies[k]? = some b) (hrun : b.isRunning = true)
    (hserving : b'.isRunning = true → b'.Serving s.vfs)
    (hended : b'.isRunning = false → b'.calling = none)
    (hfreed : b'.hasReturned = true → ∀ p ∈ b'.launched,
      s.vfs.pool p = none ∧ (s.vfs.destroyed = false → p < s.vfs.nextPtr))
    (hhand : ∀ t ∈ b'.hand s.vfs, t ∈ b.hand s.vfs)
    (hcalls : ∀ c, b'.calling = some c → ∀ b₂ ∈ s.bodies, b₂.calling ≠ some c) :
    Process.Sound { s with bodies := s.bodies.set k b' } where
  handles := hS.handles
  alive := by
    intro b₂ hb₂ hrun₂
    rcases List.mem_or_eq_of_mem_set hb₂ with hold | rfl
    · exact hS.alive b₂ hold hrun₂
    · exact hS.alive b (List.mem_of_getElem? hk) hrun
  serving := by
    intro b₂ hb₂ hrun₂
    rcases List.mem_or_eq_of_mem_set hb₂ with hold | rfl
    · exact hS.serving b₂ hold hrun₂
    · exact hserving hrun₂
  ended := by
    intro b₂ hb₂ hno
    rcases List.mem_or_eq_of_mem_set hb₂ with hold | rfl
    · exact hS.ended b₂ hold hno
    · exact hended hno
  freed := by
    intro b₂ hb₂ hdone
    rcases List.mem_or_eq_of_mem_set hb₂ with hold | rfl
    · exact hS.freed b₂ hold hdone
    · exact hfreed hdone
  apart := by
    intro k₁ k₂ b₁ b₂ hne hk₁ hk₂ hrun₁ hrun₂
    rw [List.getElem?_set] at hk₁ hk₂
    have hlt := (List.getElem?_eq_some_iff.mp hk).1
    by_cases h₁ : k = k₁
    · subst h₁
      rw [if_pos rfl, if_pos hlt] at hk₁
      cases hk₁
      rw [if_neg hne] at hk₂
      have hapart := hS.apart k k₂ b b₂ hne hk hk₂ hrun hrun₂
      exact ⟨fun t ht => hapart.hands t (hhand t ht), fun c hc => hcalls c hc b₂
        (List.mem_of_getElem? hk₂)⟩
    · rw [if_neg h₁] at hk₁
      by_cases h₂ : k = k₂
      · subst h₂
        rw [if_pos rfl, if_pos hlt] at hk₂
        cases hk₂
        have hapart := hS.apart k₁ k b₁ b hne hk₁ hk hrun₁ hrun
        exact ⟨fun t ht ht' => hapart.hands t ht (hhand t ht'), fun c hc hc' =>
          hcalls c hc' b₁ (List.mem_of_getElem? hk₁) hc⟩
      · rw [if_neg h₂] at hk₂
        exact hS.apart k₁ k₂ b₁ b₂ hne hk₁ hk₂ hrun₁ hrun₂

theorem Process.Sound.enter (hS : s.Sound) (f : WorkerFunction) (worker : ℕ)
    (hopen : m ∉ s.vfs.closing) (hlive : s.vfs.destroyed = false) :
    Process.Sound { s with bodies := s.bodies ++ [.enter f m worker] } := by
  have hhand : (Body.enter f m worker).hand s.vfs = [] := rfl
  have hsplit : ∀ (k : ℕ) (b : Body), (s.bodies ++ [.enter f m worker])[k]? = some b →
      (k < s.bodies.length ∧ s.bodies[k]? = some b) ∨
        (k = s.bodies.length ∧ b = .enter f m worker) := by
    intro k b hk
    rcases Nat.lt_or_ge k s.bodies.length with hlt | hge
    · rw [List.getElem?_append_left hlt] at hk
      exact .inl ⟨hlt, hk⟩
    · rw [List.getElem?_append_right hge, List.getElem?_singleton] at hk
      split_ifs at hk with hzero
      cases hk
      exact .inr ⟨by omega, rfl⟩
  refine ⟨hS.handles, fun _ _ _ => hlive, ?_, ?_, ?_, ?_⟩
  · intro b hb hrun
    rcases List.mem_append.mp hb with hold | hnew
    · exact hS.serving b hold hrun
    · cases List.mem_singleton.mp hnew
      exact ⟨⟨hopen, .ended, List.forall_mem_nil _, List.forall_mem_nil _, List.nodup_nil,
        fun h => absurd rfl h⟩, List.forall_mem_nil _, fun _ => ⟨rfl, program_owns f⟩,
        fun c hc => by cases hc⟩
  · intro b hb hno
    rcases List.mem_append.mp hb with hold | hnew
    · exact hS.ended b hold hno
    · cases List.mem_singleton.mp hnew
      rfl
  · intro b hb hdone
    rcases List.mem_append.mp hb with hold | hnew
    · exact hS.freed b hold hdone
    · cases List.mem_singleton.mp hnew
      exact List.forall_mem_nil _
  · intro k k' b b' hne hk hk' hrun hrun'
    rcases hsplit k b hk with ⟨-, hold⟩ | ⟨-, rfl⟩
    · rcases hsplit k' b' hk' with ⟨-, hold'⟩ | ⟨-, rfl⟩
      · exact hS.apart k k' b b' hne hold hold' hrun hrun'
      · exact ⟨fun t _ ht => absurd (hhand ▸ ht) List.not_mem_nil, fun c _ hc => by cases hc⟩
    · exact ⟨fun t ht => absurd (hhand ▸ ht) List.not_mem_nil, fun c hc => by cases hc⟩

/-! ## The calls that a function makes -/

variable {request : Request}

theorem request_closes (hrequest : op.request m = some request)
    (hvalid : ∀ t ∈ op.takes, t ≠ FL_VFS_HANDLE_INVALID) :
    request.program.filterMap Instr.closes = op.takes := by
  unfold MountOp.request at hrequest
  split at hrequest
  all_goals cases hrequest
  · rfl
  · simp only [Request.program, vfsRead]
    split_ifs
    all_goals rfl
  · simp only [Request.program]
    split_ifs
    all_goals rfl
  · have hne := hvalid _ (List.mem_singleton_self _)
    simp only [Request.program, vfsClose, if_neg hne]
    rfl
  · rfl
  · rfl

theorem request_progress {s : VfsState} (hrequest : op.request m = some request) :
    Progress s m request.program := by
  unfold MountOp.request at hrequest
  split at hrequest
  all_goals cases hrequest
  · exact .allocating rfl rfl
  · simp only [Request.program, vfsRead]
    split_ifs
    · exact .ended
    · exact .chaining
  · simp only [Request.program]
    split_ifs
    · exact .ended
    · exact .waiting
  · simp only [Request.program, vfsClose]
    split_ifs
    · exact .ended
    · exact .sweeping
  · exact .allocating rfl rfl
  · exact .allocating rfl rfl

theorem request_names (hrequest : op.request m = some request) :
    ∀ i ∈ request.program, ∀ h ∈ i.names, h ∈ op.uses ∨ h ∈ op.takes := by
  unfold MountOp.request at hrequest
  split at hrequest
  all_goals cases hrequest
  · simp [Request.program, Instr.names]
  · simp only [Request.program, vfsRead]
    split_ifs
    · simp
    · simp [Instr.names, MountOp.uses]
  · simp only [Request.program]
    split_ifs
    · simp
    · simp [Instr.names, MountOp.uses]
  · simp only [Request.program, vfsClose]
    split_ifs
    · simp
    · simp [Instr.names, MountOp.takes]
  · simp [Request.program, Instr.names]
  · simp [Request.program, Instr.names]

theorem request_settles (hrequest : op.request m = some request) (hno : op.launches = false) :
    ∀ i ∈ request.program, i.settles = true := by
  unfold MountOp.request at hrequest
  split at hrequest
  all_goals cases hrequest
  · cases hno
  · cases hno
  · simp only [Request.program]
    split_ifs
    all_goals simp [Instr.settles]
  · simp only [Request.program, vfsClose]
    split_ifs
    all_goals simp [Instr.settles]
  · cases hno
  · cases hno

theorem ticket_answer {ret : FlVfsHandle} {others : (op : MountOp) → op.Reply} :
    op.ticket (op.answer ret others) = if op.launches then ret else FL_VFS_HANDLE_INVALID := by
  cases op with
  | worker op => cases op <;> rfl
  | vfsMountReadAll path => rfl
  | vfsGetListing path depth => rfl

/-- An operation that is no call of the VFS neither launches nor closes. -/
theorem request_none (hnone : op.request m = none) : op.launches = false ∧ op.takes = [] := by
  cases op with
  | worker op =>
      cases op with
      | allocate | vfsGetData | each | drain => exact ⟨rfl, rfl⟩
      | vfsMountOpen | vfsRead | vfsWait | vfsClose => cases hnone
  | vfsMountReadAll path => cases hnone
  | vfsGetListing path depth => cases hnone

/-- A function between two calls starts the next one. -/
theorem Body.Serving.start {s v : VfsState} {next : op.Reply → MountProgram Bool}
    (hb : b.Serving s) (hI : Inv s s.frames) (hb' : b.Serving v) (hcall : b.calling = none)
    (hprogram : b.program = .perform op next) (hrequest : op.request b.mount = some request)
    (hc : v.calls[c]? = some ⟨.worker b.worker, request.program⟩) :
    (b.starts op c).Serving v ∧ ∀ t ∈ (b.starts op c).hand v, t ∈ b.hand v := by
  obtain ⟨hret, howns⟩ := hb.between hcall
  rw [hprogram] at howns
  obtain ⟨-, huses, left, hsplit, hnext⟩ := howns
  have htodo : b.todo v = [] := todo_none hcall
  have hleft : ((b.tickets.diff op.takes : List FlVfsHandle) : Multiset FlVfsHandle) = left := by
    rw [← Multiset.coe_sub, hsplit]
    exact add_tsub_cancel_left _ _
  have hvalid : ∀ t ∈ op.takes, t ≠ FL_VFS_HANDLE_INVALID := by
    intro t ht
    have hin : t ∈ b.tickets := by
      have hmem : t ∈ (b.tickets : Multiset FlVfsHandle) := by
        rw [hsplit]
        exact Multiset.mem_add.mpr (.inl ht)
      exact hmem
    obtain ⟨p, d, hmap, -⟩ := hb.secure.held t (mem_inHand.mpr (.inl hin))
    obtain ⟨e, he, hid⟩ := hI.mapped t p hmap
    exact hid ▸ hI.idNonzero p e he
  have htodo' : (b.starts op c).todo v = request.program := by
    rw [todo_calling rfl, hc]
    rfl
  have hperm : (inHand (b.tickets.diff op.takes) request.program FL_VFS_HANDLE_INVALID).Perm
      (inHand b.tickets [] FL_VFS_HANDLE_INVALID) := by
    rw [← Multiset.coe_eq_coe]
    unfold inHand
    rw [request_closes hrequest hvalid]
    simp only [if_pos, List.append_nil, List.filterMap_nil]
    rw [← Multiset.coe_add, hleft, hsplit]
    exact add_comm _ _
  have hsecure := hb'.secure
  rw [htodo, hret] at hsecure
  have hnamed : ∀ i ∈ request.program, ∀ h ∈ i.names,
      h ∈ inHand b.tickets [] FL_VFS_HANDLE_INVALID := by
    intro i hi h hh
    refine mem_inHand.mpr (.inl ?_)
    have hmem : h ∈ (b.tickets : Multiset FlVfsHandle) := by
      rcases request_names hrequest i hi h hh with hused | htaken
      · rcases huses h hused with howned | hknown
        · exact howned
        · cases hknown
      · rw [hsplit]
        exact Multiset.mem_add.mpr (.inl htaken)
    exact hmem
  have hstarted := hsecure.regroup hperm (request_progress hrequest) hnamed
    (fun i hi => (program_quiet request i (List.mem_of_mem_head? hi)).2.1) fun _ => rfl
  have hhand : (b.starts op c).hand v =
      inHand (b.tickets.diff op.takes) request.program FL_VFS_HANDLE_INVALID := by
    rw [Body.hand, htodo']
    rfl
  have hsame : ∀ t, t ∈ (b.starts op c).hand v ↔ t ∈ b.hand v := by
    intro t
    rw [hhand, hperm.mem_iff, Body.hand, htodo, hret]
  refine ⟨⟨?_, ?_, fun hc => (by cases hc), ?_⟩, fun t => (hsame t).mp⟩
  · rw [htodo']
    exact hstarted
  · intro p hp
    obtain ⟨hlt, hlive⟩ := hb'.accounted p hp
    exact ⟨hlt, fun d hd => (hlive d hd).imp_right (hsame d.id).mpr⟩
  · intro c' hc'
    cases hc'
    refine ⟨request.program, op, next, hc, hprogram, ?_, fun r => ?_, fun hno =>
      ⟨rfl, request_settles hrequest hno⟩⟩
    · rw [show (b.starts op c).mount = b.mount from rfl, hrequest]
      rfl
    · have howns : Owns ticketHandles Closed ((given (op.ticket r) : Multiset FlVfsHandle) +
          (b.tickets.diff op.takes : List FlVfsHandle)) (∅ ∪ ∅) (next r) := hleft ▸ hnext r
      rwa [Set.union_empty] at howns

/-- What the text of a function is left with when its call is over. -/
theorem Body.Serving.text {s : VfsState} {next : op.Reply → MountProgram Bool}
    {others : (op : MountOp) → op.Reply} (hb : b.Serving s)
    (hprogram : b.program = .perform op next)
    (hrequest : b.calling.isSome = (op.request b.mount).isSome) :
    Owns ticketHandles Closed
      ((given b.ret ++ b.tickets : List FlVfsHandle) : Multiset FlVfsHandle) ∅
      (next (op.answer b.ret others)) := by
  cases hcall : b.calling with
  | none =>
      obtain ⟨hret, howns⟩ := hb.between hcall
      rw [hcall] at hrequest
      have hnone : op.request b.mount = none := Option.isNone_iff_eq_none.mp (by
        rw [← Option.not_isSome, ← hrequest]
        rfl)
      obtain ⟨hno, hkept⟩ := request_none hnone
      rw [hprogram] at howns
      obtain ⟨-, -, left, hsplit, hnext⟩ := howns
      have hleft : left = (b.tickets : Multiset FlVfsHandle) := by
        rw [hsplit, show ticketHandles.takes op = (op.takes : Multiset FlVfsHandle) from rfl, hkept]
        exact (Multiset.zero_add left).symm
      have howns : Owns ticketHandles Closed ((given (op.ticket (op.answer b.ret others)) :
          Multiset FlVfsHandle) + b.tickets) (∅ ∪ ∅) (next (op.answer b.ret others)) :=
        hleft ▸ hnext _
      rw [Set.union_empty, ticket_answer, hno] at howns
      rw [hret]
      exact hret ▸ howns
  | some c =>
      obtain ⟨todo, op', next', -, hprogram', -, howns, hsettles⟩ := hb.within c hcall
      rw [hprogram] at hprogram'
      cases hprogram'
      have howns := howns (op.answer b.ret others)
      rw [ticket_answer] at howns
      cases hlaunch : op.launches with
      | true =>
          rw [hlaunch, if_pos rfl] at howns
          exact howns
      | false =>
          rw [hlaunch, if_neg Bool.false_ne_true, ← (hsettles hlaunch).1] at howns
          exact howns

/-- A function goes on when its call is over. -/
theorem Body.Serving.resume {s : VfsState} {next : op.Reply → MountProgram Bool}
    (others : (op : MountOp) → op.Reply) (hb : b.Serving s)
    (hprogram : b.program = .perform op next)
    (hrequest : b.calling.isSome = (op.request b.mount).isSome) (hover : b.todo s = []) :
    (b.resumes (next (op.answer b.ret others))).Serving s ∧
      ∀ t, t ∈ (b.resumes (next (op.answer b.ret others))).hand s ↔ t ∈ b.hand s := by
  have hsecure := hb.secure
  rw [hover] at hsecure
  have hperm : (inHand (given b.ret ++ b.tickets) [] FL_VFS_HANDLE_INVALID).Perm
      (inHand b.tickets [] b.ret) := by
    simp only [inHand, given, List.filterMap_nil, List.append_nil, if_pos]
    exact List.perm_append_comm
  have hsame : ∀ t, t ∈ (b.resumes (next (op.answer b.ret others))).hand s ↔ t ∈ b.hand s := by
    intro t
    rw [Body.hand, Body.hand, hover, todo_none rfl]
    exact hperm.mem_iff
  refine ⟨⟨?_, ?_, fun _ => ⟨rfl, hb.text hprogram hrequest⟩, fun c hc => by cases hc⟩,
    hsame⟩
  · rw [todo_none rfl]
    exact hsecure.regroup hperm .ended (List.forall_mem_nil _) (by simp) fun h => absurd rfl h
  · intro p hp
    obtain ⟨hlt, hlive⟩ := hb.accounted p hp
    exact ⟨hlt, fun d hd => (hlive d hd).imp_right (hsame d.id).mpr⟩

/-! ## Runs -/

theorem running_of_program {next : op.Reply → MountProgram Bool}
    (hprogram : b.program = .perform op next) : b.isRunning = true := by
  rw [Body.isRunning, hprogram]

theorem Process.Sound.call {next : op.Reply → MountProgram Bool} (hS : s.Sound)
    (hk : s.bodies[k]? = some b) (hprogram : b.program = .perform op next)
    (hcall : b.calling = none) (hrequest : op.request b.mount = some request)
    (hstep : FlowiVfs.step s.vfs (.start (.worker b.worker) request) = some v) :
    Process.Sound ⟨v, s.bodies.set k (b.starts op s.vfs.calls.length)⟩ := by
  have hb := List.mem_of_getElem? hk
  have hrun := running_of_program hprogram
  obtain ⟨hI, -⟩ := hS.handles (hS.alive b hb hrun)
  have hS' : Process.Sound ⟨v, s.bodies⟩ := by
    have hfollowed := hS.vfs (show Respects s (.vfs (.start _ _)) from ⟨trivial, trivial⟩) hstep
    have hsame : s.bodies.map (Body.follow s.vfs (.start (.worker b.worker) request)) = s.bodies :=
      List.map_id'' (fun _ => rfl) s.bodies
    rwa [hsame] at hfollowed
  have hc : v.calls[s.vfs.calls.length]? = some ⟨.worker b.worker, request.program⟩ := by
    simp only [FlowiVfs.step] at hstep
    split_ifs at hstep
    cases hstep
    exact List.getElem?_concat_length
  have hserving := hS.serving b hb hrun
  obtain ⟨hstarted, hhand⟩ :=
    hserving.start hI (hS'.serving b hb hrun) hcall hprogram hrequest hc
  refine hS'.set hk hrun (fun _ => hstarted) (fun hno => ?_) (fun hdone => ?_) hhand ?_
  · rw [running_of_program (b := b.starts op s.vfs.calls.length) hprogram] at hno
    cases hno
  · rw [Body.hasReturned, show (b.starts op s.vfs.calls.length).program = _ from hprogram] at hdone
    cases hdone
  · intro c hc b₂ hb₂ hc₂
    cases hc
    obtain ⟨todo, -, -, hold, -⟩ :=
      (hS.serving b₂ hb₂ (hS.running_of_calling hb₂ hc₂)).within _ hc₂
    exact Nat.lt_irrefl _ (List.getElem?_eq_some_iff.mp hold).1

theorem Process.Sound.reply {next : op.Reply → MountProgram Bool}
    {others : (op : MountOp) → op.Reply} (hS : s.Sound) (hk : s.bodies[k]? = some b)
    (hprogram : b.program = .perform op next)
    (hrequest : b.calling.isSome = (op.request b.mount).isSome) (hover : b.todo s.vfs = []) :
    Process.Sound
      { s with bodies := s.bodies.set k (b.resumes (next (op.answer b.ret others))) } := by
  have hb := List.mem_of_getElem? hk
  have hrun := running_of_program hprogram
  obtain ⟨hresumed, hhand⟩ :=
    (hS.serving b hb hrun).resume others hprogram hrequest hover
  refine hS.set hk hrun (fun _ => hresumed) (fun _ => rfl) (fun hdone p hp => ?_)
    (fun t => (hhand t).mp) fun c hc => by cases hc
  obtain ⟨-, howns⟩ := hresumed.between rfl
  rw [returned_program hdone] at howns
  have hnone : (b.resumes (next (op.answer b.ret others))).tickets = [] :=
    (Multiset.coe_eq_zero _).mp (howns rfl)
  have hempty : (b.resumes (next (op.answer b.ret others))).hand s.vfs = [] := by
    rw [Body.hand, todo_none rfl, hnone]
    rfl
  obtain ⟨hlt, hlive⟩ := hresumed.accounted p hp
  refine ⟨?_, fun _ => hlt⟩
  by_contra hne
  obtain ⟨d, hd⟩ := Option.ne_none_iff_exists'.mp hne
  have hin := (hlive d hd).2
  rw [hempty] at hin
  cases hin

/-- What an event can do. -/
inductive ProcessMove (s : Process) : ProcessEvent → Process → Prop
  | vfs {a : Action} {v : VfsState} (taken : step s.vfs a = some v) :
      ProcessMove s (.vfs a) ⟨v, s.bodies.map (Body.follow s.vfs a)⟩
  | enter (f : WorkerFunction) (m : MountPtr) (worker : ℕ) :
      ProcessMove s (.enter f m worker) { s with bodies := s.bodies ++ [.enter f m worker] }
  | call {k : ℕ} {b : Body} {op : MountOp} {next : op.Reply → MountProgram Bool}
      {request : Request} {v : VfsState} (here : s.bodies[k]? = some b)
      (program : b.program = .perform op next) (idle : b.calling = none)
      (made : op.request b.mount = some request)
      (taken : step s.vfs (.start (.worker b.worker) request) = some v) :
      ProcessMove s (.call k) ⟨v, s.bodies.set k (b.starts op s.vfs.calls.length)⟩
  | reply {k : ℕ} {b : Body} {op : MountOp} {next : op.Reply → MountProgram Bool}
      {others : (op : MountOp) → op.Reply} (here : s.bodies[k]? = some b)
      (program : b.program = .perform op next)
      (made : b.calling.isSome = (op.request b.mount).isSome) (ended : b.todo s.vfs = []) :
      ProcessMove s (.reply k others)
        { s with bodies := s.bodies.set k (b.resumes (next (op.answer b.ret others))) }

theorem processStep_cases {e : ProcessEvent} (h : processStep s e = some s') :
    ProcessMove s e s' := by
  cases e with
  | vfs a =>
      obtain ⟨v, hstep, rfl⟩ := Option.map_eq_some_iff.mp h
      exact .vfs hstep
  | enter f m worker =>
      cases h
      exact .enter f m worker
  | call k =>
      simp only [processStep] at h
      split at h
      · cases h
      · rename_i b hk
        split at h
        · rename_i op next hprogram hcall
          obtain ⟨request, hrequest, h⟩ := Option.bind_eq_some_iff.mp h
          obtain ⟨v, hstep, rfl⟩ := Option.map_eq_some_iff.mp h
          exact .call hk hprogram hcall hrequest hstep
        · cases h
  | reply k others =>
      simp only [processStep] at h
      split at h
      · cases h
      · rename_i b hk
        split at h
        · cases h
        · rename_i op next hprogram
          split_ifs at h with hready
          cases h
          exact .reply hk hprogram hready.1 hready.2

/-- Every event keeps the functions apart and their handles reserved. -/
theorem Process.Sound.step {e : ProcessEvent} (hS : s.Sound) (hR : Respects s e)
    (h : processStep s e = some s') : s'.Sound := by
  cases processStep_cases h with
  | vfs taken => exact hS.vfs hR taken
  | enter f m worker => exact hS.enter f worker hR.1 hR.2
  | call here program idle made taken => exact hS.call here program idle made taken
  | reply here program made ended => exact hS.reply here program made ended

theorem chainsBorn_init : ChainsBorn .init VfsState.init.frames :=
  ⟨nofun, List.forall_mem_nil _⟩

theorem sound_init : Process.init.Sound :=
  ⟨fun _ => ⟨inv_init, chainsBorn_init⟩, List.forall_mem_nil _,
    List.forall_mem_nil _, List.forall_mem_nil _, List.forall_mem_nil _,
    fun k k' b b' _ hk => by cases hk⟩

theorem sound_reaches (h : Reaches processStep Respects .init s) : s.Sound :=
  h.invariant sound_init fun _ _ _ hS hR hstep => hS.step hR hstep

end Events
end FlowiVfs
