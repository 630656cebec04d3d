import FlowiVfs.HandleMachine
import FlowiVfs.OwnedNames
import FlowiVfs.WorkerReads

/-!
# The tickets of the functions of `WorkerMount`

`read`, `read_prefix`, `read_chunks` and `listing` launch operations on their mount and close
what they have launched. Here they are programs over the functions of the VFS that they call, and
each of them is checked against its text: it uses no ticket but those that it was given and has
not closed, it closes none twice, and where it returns it has closed all of them. A panic in
foreign code leaves tickets behind.
-/
namespace FlowiVfs

open Program

/-- What the functions call: those of the reads, and the launches of the other two. -/
inductive MountOp
  | worker (op : WorkerMount.WorkerOp)
  | vfsMountReadAll (path : List Char)
  | vfsGetListing (path : List Char) (depth : ℤ)

abbrev MountOp.Reply : MountOp → Type
  | worker op => op.Reply
  | vfsMountReadAll _ => FlVfsHandle
  | vfsGetListing .. => FlVfsHandle

abbrev mountCalls : Signature := ⟨MountOp, MountOp.Reply⟩

abbrev MountProgram := Program mountCalls

def issue (op : MountOp) : MountProgram op.Reply := call (E := mountCalls) op

namespace WorkerMount

/-- A program of the reads, as one that may launch other operations too. -/
def onMount {A : Type} : WorkerProgram A → MountProgram A
  | .done a => .done a
  | .perform op next => .perform (MountOp.worker op) fun r => onMount (next r)

/-- `WorkerMount::read` -/
def read (path : List Char) : MountProgram (Exit Bytes) := do
  let ticket ← issue (.vfsMountReadAll path)
  onMount (drainBlocking ticket)

/-- `WorkerMount::listing`; the entries stand as the bytes that carry them. -/
def listing (path : List Char) (depth : ℤ) : MountProgram (Exit Bytes) := do
  let ticket ← issue (.vfsGetListing path depth)
  onMount (drainBlocking ticket)

/-- The function returns to its caller, with a result or with an error. -/
def Exit.isReturned {A : Type} : Exit A → Bool
  | .returned _ => true
  | .unwound => false

end WorkerMount

/-- The functions of `WorkerMount`; `read_chunks` within so many rounds. -/
inductive WorkerFunction
  | read (path : List Char)
  | readPrefix (path : List Char) (maxBytes : ℕ)
  | readChunks (path : List Char) (chunkSize rounds : ℕ)
  | listing (path : List Char) (depth : ℤ)

open WorkerMount in
/-- The function, and whether it has returned in the end. -/
def WorkerFunction.program : WorkerFunction → MountProgram Bool
  | .read path => do
      let exit ← WorkerMount.read path
      pure exit.isReturned
  | .readPrefix path maxBytes => do
      let exit ← onMount (WorkerMount.readPrefix path maxBytes)
      pure exit.isReturned
  | .readChunks path chunkSize rounds => do
      let exit ← onMount (WorkerMount.readChunks path chunkSize rounds)
      pure (exit.elim false Exit.isReturned)
  | .listing path depth => do
      let exit ← WorkerMount.listing path depth
      pure exit.isReturned

/-! ## The tickets -/

/-- The tickets that a call is about. -/
def MountOp.uses : MountOp → List FlVfsHandle
  | .worker (.vfsRead file _) => [file]
  | .worker (.vfsWait ticket) => [ticket]
  | .worker (.vfsGetData ticket) => [ticket]
  | .worker (.drain ticket) => [ticket]
  | _ => []

def MountOp.takes : MountOp → List FlVfsHandle
  | .worker (.vfsClose ticket) => [ticket]
  | _ => []

/-- The reply of a launch. -/
def MountOp.ticket : (op : MountOp) → op.Reply → FlVfsHandle
  | .worker (.vfsMountOpen _), t => t
  | .worker (.vfsRead _ _), t => t
  | .vfsMountReadAll _, t => t
  | .vfsGetListing _ _, t => t
  | _, _ => FL_VFS_HANDLE_INVALID

/-- The handle that a function was given, unless its launch was refused. -/
def given (t : FlVfsHandle) : List FlVfsHandle := if t = FL_VFS_HANDLE_INVALID then [] else [t]

def ticketHandles : Lending mountCalls FlVfsHandle where
  may _ := True
  uses op := {t | t ∈ op.uses}
  takes op := op.takes
  makes op r := given (op.ticket r)
  lends _ _ := ∅

section Owned

variable {O : Multiset FlVfsHandle} {K : Set FlVfsHandle} {A B : Type} {ticket file : FlVfsHandle}

@[simp] theorem onMount_bind (p : WorkerMount.WorkerProgram A)
    (f : A → WorkerMount.WorkerProgram B) :
    WorkerMount.onMount (p >>= f) =
      WorkerMount.onMount p >>= fun a => WorkerMount.onMount (f a) := by
  induction p with
  | done a => rfl
  | perform op next ih =>
      show Program.perform _ _ = Program.perform _ _
      congr 1
      funext r
      exact ih r

theorem given_invalid : (given FL_VFS_HANDLE_INVALID : Multiset FlVfsHandle) = 0 := rfl

theorem given_valid (valid : ticket ≠ FL_VFS_HANDLE_INVALID) :
    (given ticket : Multiset FlVfsHandle) = {ticket} := by
  rw [given, if_neg valid]
  rfl

/-- A launch adds its ticket. -/
theorem owns_launch (op : MountOp) (uses : ∀ t ∈ op.uses, t ∈ O) (kept : op.takes = []) :
    Owns ticketHandles (fun O' _ r => O' = (given (op.ticket r) : Multiset FlVfsHandle) + O) O K
      (issue op) := by
  refine ⟨trivial, fun t ht => .inl (uses t ht), O, ?_, fun r => rfl⟩
  show O = (op.takes : Multiset FlVfsHandle) + O
  rw [kept]
  exact (Multiset.zero_add O).symm

/-- A call that launches and closes nothing. -/
theorem owns_ask (op : MountOp) (uses : ∀ t ∈ op.uses, t ∈ O) (kept : op.takes = [])
    (unmade : ∀ r, op.ticket r = FL_VFS_HANDLE_INVALID) :
    Owns ticketHandles (fun O' _ _ => O' = O) O K (issue op) := by
  apply (owns_launch op uses kept).weaken
  intro O' K' r _ same
  rw [same, unmade r, given_invalid, Multiset.zero_add]

theorem owns_vfsClose :
    Owns ticketHandles (fun O' _ _ => O' = O) ({ticket} + O) K
      (WorkerMount.onMount (WorkerMount.perform (.vfsClose ticket))) :=
  ⟨trivial, List.forall_mem_nil _, O, rfl, fun _ => Multiset.zero_add O⟩

theorem mem_first : ticket ∈ ({ticket} : Multiset FlVfsHandle) + O :=
  Multiset.mem_add.mpr (.inl (Multiset.mem_singleton_self ticket))

/-! ## The functions -/

/-- Where it returns, the ticket is closed. -/
theorem drainBlocking_owns :
    Owns ticketHandles (fun O' _ exit => exit.isReturned = true → O' = O)
      ((given ticket : Multiset FlVfsHandle) + O) K
      (WorkerMount.onMount (WorkerMount.drainBlocking ticket)) := by
  unfold WorkerMount.drainBlocking
  by_cases invalid : ticket = FL_VFS_HANDLE_INVALID
  · rw [if_pos (show ticket = WorkerMount.FL_VFS_HANDLE_INVALID from invalid), invalid,
      given_invalid, Multiset.zero_add]
    exact fun _ => rfl
  rw [if_neg (show ¬ ticket = WorkerMount.FL_VFS_HANDLE_INVALID from invalid), given_valid invalid,
    onMount_bind]
  have used : ∀ t ∈ [ticket], t ∈ ({ticket} : Multiset FlVfsHandle) + O := by
    intro t ht
    cases List.mem_singleton.mp ht
    exact mem_first
  apply (owns_ask (.worker (.vfsWait ticket)) used rfl fun _ => rfl).bind
  intro O₁ K₁ _ _ same
  subst same
  rw [onMount_bind]
  apply (owns_ask (.worker (.drain ticket)) used rfl fun _ => rfl).bind
  intro O₂ K₂ drained _ same
  subst same
  cases drained with
  | none => exact fun h => Bool.noConfusion h
  | some result =>
      simp only [onMount_bind]
      apply owns_vfsClose.bind
      intro O₃ K₃ _ _ same _
      exact same

theorem read_owns (path : List Char) :
    Owns ticketHandles (fun O' _ exit => exit.isReturned = true → O' = O) O K
      (WorkerMount.read path) := by
  apply (owns_launch (.vfsMountReadAll path) (List.forall_mem_nil _) rfl).bind
  intro O₁ K₁ ticket _ same
  subst same
  exact drainBlocking_owns

theorem listing_owns (path : List Char) (depth : ℤ) :
    Owns ticketHandles (fun O' _ exit => exit.isReturned = true → O' = O) O K
      (WorkerMount.listing path depth) := by
  apply (owns_launch (.vfsGetListing path depth) (List.forall_mem_nil _) rfl).bind
  intro O₁ K₁ ticket _ same
  subst same
  exact drainBlocking_owns

/-- The file stays open from round to round. -/
theorem chunkLoop_owns (chunkSize rounds : ℕ) (buffer : WorkerMount.Bytes) :
    Owns ticketHandles (fun O' _ exit => exit.elim false WorkerMount.Exit.isReturned = true →
        O' = {file} + O) ({file} + O) K
      (WorkerMount.onMount (WorkerMount.chunkLoop file chunkSize rounds buffer)) := by
  induction rounds generalizing buffer K with
  | zero => exact fun h => Bool.noConfusion h
  | succ rounds ih =>
      have usedFile : ∀ t ∈ [file], t ∈ ({file} : Multiset FlVfsHandle) + O := by
        intro t ht
        cases List.mem_singleton.mp ht
        exact mem_first
      unfold WorkerMount.chunkLoop
      rw [onMount_bind]
      apply (owns_launch (.worker (.vfsRead file chunkSize)) usedFile rfl).bind
      intro O₁ K₁ read _ same
      subst same
      by_cases invalid : read = FL_VFS_HANDLE_INVALID
      · rw [if_pos (show read = WorkerMount.FL_VFS_HANDLE_INVALID from invalid)]
        show _ → (given read : Multiset FlVfsHandle) + _ = _
        rw [invalid, given_invalid, Multiset.zero_add]
        exact fun _ => rfl
      rw [if_neg (show ¬ read = WorkerMount.FL_VFS_HANDLE_INVALID from invalid)]
      show Owns _ _ ((given read : Multiset FlVfsHandle) + _) _ _
      rw [given_valid invalid, onMount_bind]
      have usedRead : ∀ t ∈ [read],
          t ∈ ({read} : Multiset FlVfsHandle) + ({file} + O) := by
        intro t ht
        cases List.mem_singleton.mp ht
        exact mem_first
      apply (owns_ask (.worker (.vfsWait read)) usedRead rfl fun _ => rfl).bind
      intro O₂ K₂ written _ same
      subst same
      rw [onMount_bind]
      apply (owns_ask (.worker (.vfsGetData read)) usedRead rfl fun _ => rfl).bind
      intro O₃ K₃ data _ same
      subst same
      rw [onMount_bind]
      apply owns_vfsClose.bind
      intro O₄ K₄ _ _ same
      subst same
      cases data.success with
      | false => exact fun _ => rfl
      | true =>
          simp only [not_true_eq_false, if_false]
          split
          · exact fun _ => rfl
          · rw [onMount_bind]
            apply (owns_ask (.worker (.each _)) (List.forall_mem_nil _) rfl fun _ => rfl).bind
            intro O₅ K₅ returned _ same
            subst same
            cases returned with
            | true => exact ih _
            | false => exact fun h => Bool.noConfusion h

theorem readChunks_owns (path : List Char) (chunkSize rounds : ℕ) :
    Owns ticketHandles (fun O' _ exit =>
        exit.elim false WorkerMount.Exit.isReturned = true → O' = O) O K
      (WorkerMount.onMount (WorkerMount.readChunks path chunkSize rounds)) := by
  unfold WorkerMount.readChunks
  split_ifs
  · exact fun _ => rfl
  rw [onMount_bind]
  apply (owns_ask (.worker (.allocate chunkSize)) (List.forall_mem_nil _) rfl fun _ => rfl).bind
  intro O₁ K₁ allocated _ same
  subst same
  cases allocated with
  | false => exact fun h => Bool.noConfusion h
  | true =>
      simp only [not_true_eq_false, if_false, onMount_bind]
      apply (owns_launch (.worker (.vfsMountOpen path)) (List.forall_mem_nil _) rfl).bind
      intro O₂ K₂ file _ same
      subst same
      by_cases invalid : file = FL_VFS_HANDLE_INVALID
      · rw [if_pos (show file = WorkerMount.FL_VFS_HANDLE_INVALID from invalid)]
        show _ → (given file : Multiset FlVfsHandle) + _ = _
        rw [invalid, given_invalid, Multiset.zero_add]
        exact fun _ => rfl
      rw [if_neg (show ¬ file = WorkerMount.FL_VFS_HANDLE_INVALID from invalid)]
      show Owns _ _ ((given file : Multiset FlVfsHandle) + _) _ _
      rw [given_valid invalid, onMount_bind]
      apply (chunkLoop_owns chunkSize rounds _).bind
      intro O₃ K₃ exit _ same
      cases exit with
      | none => exact fun h => Bool.noConfusion h
      | some exit =>
          cases exit with
          | unwound => exact fun h => Bool.noConfusion h
          | returned result =>
              rw [same rfl]
              simp only [onMount_bind]
              apply owns_vfsClose.bind
              intro O₄ K₄ _ _ closed _
              exact closed

theorem readPrefix_owns (path : List Char) (maxBytes : ℕ) :
    Owns ticketHandles (fun O' _ exit => exit.isReturned = true → O' = O) O K
      (WorkerMount.onMount (WorkerMount.readPrefix path maxBytes)) := by
  unfold WorkerMount.readPrefix
  split_ifs
  · exact fun _ => rfl
  rw [onMount_bind]
  apply (owns_ask (.worker (.allocate maxBytes)) (List.forall_mem_nil _) rfl fun _ => rfl).bind
  intro O₁ K₁ allocated _ same
  subst same
  cases allocated with
  | false => exact fun h => Bool.noConfusion h
  | true =>
      simp only [not_true_eq_false, if_false, onMount_bind]
      apply (owns_launch (.worker (.vfsMountOpen path)) (List.forall_mem_nil _) rfl).bind
      intro O₂ K₂ file _ same
      subst same
      by_cases invalid : file = FL_VFS_HANDLE_INVALID
      · rw [if_pos (show file = WorkerMount.FL_VFS_HANDLE_INVALID from invalid)]
        show _ → (given file : Multiset FlVfsHandle) + _ = _
        rw [invalid, given_invalid, Multiset.zero_add]
        exact fun _ => rfl
      rw [if_neg (show ¬ file = WorkerMount.FL_VFS_HANDLE_INVALID from invalid)]
      show Owns _ _ ((given file : Multiset FlVfsHandle) + _) _ _
      have usedFile : ∀ t ∈ [file], t ∈ ({file} : Multiset FlVfsHandle) + O₁ := by
        intro t ht
        cases List.mem_singleton.mp ht
        exact mem_first
      rw [given_valid invalid, onMount_bind]
      apply (owns_launch (.worker (.vfsRead file maxBytes)) usedFile rfl).bind
      intro O₃ K₃ read _ same
      subst same
      by_cases refused : read = FL_VFS_HANDLE_INVALID
      · rw [if_pos (show read = WorkerMount.FL_VFS_HANDLE_INVALID from refused), onMount_bind]
        show Owns _ _ ((given read : Multiset FlVfsHandle) + _) _ _
        rw [refused, given_invalid, Multiset.zero_add]
        apply owns_vfsClose.bind
        intro O₄ K₄ _ _ closed _
        exact closed
      rw [if_neg (show ¬ read = WorkerMount.FL_VFS_HANDLE_INVALID from refused)]
      show Owns _ _ ((given read : Multiset FlVfsHandle) + _) _ _
      rw [given_valid refused, onMount_bind]
      have usedRead : ∀ t ∈ [read],
          t ∈ ({read} : Multiset FlVfsHandle) + ({file} + O₁) := by
        intro t ht
        cases List.mem_singleton.mp ht
        exact mem_first
      apply (owns_ask (.worker (.vfsWait read)) usedRead rfl fun _ => rfl).bind
      intro O₄ K₄ written _ same
      subst same
      rw [onMount_bind]
      apply (owns_ask (.worker (.vfsGetData read)) usedRead rfl fun _ => rfl).bind
      intro O₅ K₅ data _ same
      subst same
      rw [onMount_bind]
      apply owns_vfsClose.bind
      intro O₆ K₆ _ _ same
      subst same
      rw [onMount_bind]
      apply owns_vfsClose.bind
      intro O₇ K₇ _ _ same
      subst same
      split
      · exact fun _ => rfl
      · exact fun _ => rfl

/-- Every function closes what it launches, if it returns. -/
theorem program_owns (f : WorkerFunction) :
    Owns ticketHandles (fun O' _ returned => returned = true → O' = O) O K f.program := by
  cases f with
  | read path => exact (read_owns path).bind fun _ _ _ _ closed => closed
  | readPrefix path maxBytes =>
      exact (readPrefix_owns path maxBytes).bind fun _ _ _ _ closed => closed
  | readChunks path chunkSize rounds =>
      exact (readChunks_owns path chunkSize rounds).bind fun _ _ _ _ closed => closed
  | listing path depth => exact (listing_owns path depth).bind fun _ _ _ _ closed => closed

end Owned
end FlowiVfs
