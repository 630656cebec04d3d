import FlowiVfs.ProgramLogic
import Mathlib.Data.Int.Notation
import Mathlib.Data.List.Basic

/-!
# Blocking reads on a worker

`WorkerMount::read_chunks`, `read_prefix` and `drain_blocking` launch tickets, wait for
them, and close them by hand. They are programs over the calls that they make into the VFS,
with the closure of `read_chunks` as one more call. A call of foreign code may unwind; the
tickets are plain numbers, and nothing closes them then.

The environment holds one file. It refuses launches and fails reads as it likes, and
a read that succeeds delivers the next bytes of the file, none at its end only.
-/
namespace FlowiVfs.WorkerMount

open Program

abbrev FlVfsHandle := ℕ
abbrev Bytes := List UInt8

def FL_VFS_HANDLE_INVALID : FlVfsHandle := 0

/-- `FlVfsData` without its pointer. -/
structure VfsData where
  success : Bool
  size : ℤ

inductive FlError
  | genericError
deriving DecidableEq

inductive WorkerOp
  /-- `vec![0u8; size]`, which unwinds when the size is no size of a buffer. -/
  | allocate (size : ℕ)
  | vfsMountOpen (path : List Char)
  | vfsRead (file : FlVfsHandle) (size : ℕ)
  /-- `vfs_wait`, with what the operation has written to the front of the buffer by then. -/
  | vfsWait (ticket : FlVfsHandle)
  | vfsGetData (ticket : FlVfsHandle)
  | vfsClose (ticket : FlVfsHandle)
  /-- The closure of `read_chunks`; it returns or unwinds. -/
  | each (piece : Bytes)
  /-- `Payload::drain`; it returns or unwinds. -/
  | drain (ticket : FlVfsHandle)

abbrev WorkerOp.Reply : WorkerOp → Type
  | allocate _ => Bool
  | vfsMountOpen _ => FlVfsHandle
  | vfsRead .. => FlVfsHandle
  | vfsWait _ => Bytes
  | vfsGetData _ => VfsData
  | vfsClose _ => Unit
  | each _ => Bool
  | drain _ => Option (Except FlError Bytes)

abbrev workerCalls : Signature := ⟨WorkerOp, WorkerOp.Reply⟩

abbrev WorkerProgram := Program workerCalls

def perform (op : WorkerOp) : WorkerProgram op.Reply := Program.call (E := workerCalls) op

/-- The ways out of a function. -/
inductive Exit (A : Type)
  | returned (result : Except FlError A)
  | unwound

/-- What a read writes at the front of the buffer. -/
def overwrite (buffer written : Bytes) : Bytes := written ++ buffer.drop written.length

/-! ## The functions -/

/-- The loop of `read_chunks`, within so many rounds. -/
def chunkLoop (file : FlVfsHandle) (chunkSize : ℕ) : ℕ → Bytes → WorkerProgram (Option (Exit Unit))
  | 0, _ => pure none
  | rounds + 1, buffer => do
      let read ← perform (.vfsRead file chunkSize)
      if read = FL_VFS_HANDLE_INVALID then pure (some (.returned (.error .genericError)))
      else
        let written ← perform (.vfsWait read)
        let data ← perform (.vfsGetData read)
        perform (.vfsClose read)
        if ¬ data.success then pure (some (.returned (.error .genericError)))
        else if min (max data.size 0).toNat chunkSize = 0 then pure (some (.returned (.ok ())))
        else
          let returned ← perform
            (.each ((overwrite buffer written).take (min (max data.size 0).toNat chunkSize)))
          if returned then chunkLoop file chunkSize rounds (overwrite buffer written)
          else pure (some .unwound)

/-- `WorkerMount::read_chunks`. When the closure unwinds, so does the function. -/
def readChunks (path : List Char) (chunkSize rounds : ℕ) : WorkerProgram (Option (Exit Unit)) :=
  if chunkSize = 0 then pure (some (.returned (.error .genericError)))
  else do
    let allocated ← perform (.allocate chunkSize)
    if ¬ allocated then pure (some .unwound)
    else
      let file ← perform (.vfsMountOpen path)
      if file = FL_VFS_HANDLE_INVALID then pure (some (.returned (.error .genericError)))
      else
        let exit ← chunkLoop file chunkSize rounds (List.replicate chunkSize 0)
        match exit with
        | some (.returned result) => do
            perform (.vfsClose file)
            pure (some (.returned result))
        | exit => pure exit

/-- `WorkerMount::read_prefix` -/
def readPrefix (path : List Char) (maxBytes : ℕ) : WorkerProgram (Exit Bytes) :=
  if maxBytes = 0 then pure (.returned (.ok []))
  else do
    let allocated ← perform (.allocate maxBytes)
    if ¬ allocated then pure .unwound
    else
      let file ← perform (.vfsMountOpen path)
      if file = FL_VFS_HANDLE_INVALID then pure (.returned (.error .genericError))
      else
        let read ← perform (.vfsRead file maxBytes)
        if read = FL_VFS_HANDLE_INVALID then do
          perform (.vfsClose file)
          pure (.returned (.error .genericError))
        else
          let written ← perform (.vfsWait read)
          let data ← perform (.vfsGetData read)
          perform (.vfsClose read)
          perform (.vfsClose file)
          if data.success then
            let readBytes := if 0 < data.size then min data.size.toNat maxBytes else 0
            pure (.returned (.ok ((overwrite (List.replicate maxBytes 0) written).take readBytes)))
          else pure (.returned (.error .genericError))

/-- `WorkerMount::drain_blocking` -/
def drainBlocking (ticket : FlVfsHandle) : WorkerProgram (Exit Bytes) :=
  if ticket = FL_VFS_HANDLE_INVALID then pure (.returned (.error .genericError))
  else do
    let _ ← perform (.vfsWait ticket)
    let drained ← perform (.drain ticket)
    match drained with
    | none => pure .unwound
    | some result =>
        perform (.vfsClose ticket)
        pure (.returned result)

/-! ## The world of a read -/

structure World where
  /-- The bytes of the file that reads have delivered, and those still ahead. -/
  delivered : Bytes := []
  ahead : Bytes
  /-- The size that the launched read was asked for. -/
  asked : ℕ := 0
  /-- What the operation that was waited for has delivered, if it has succeeded. -/
  current : Option Bytes := none
  /-- A read has found the end of the file. -/
  ended : Bool := false
  handed : List Bytes := []
  /-- The closure has unwound; a drain has. -/
  panicked : Bool := false
  drainUnwound : Bool := false
  launched : List FlVfsHandle := []
  closed : List FlVfsHandle := []

namespace World

variable (s : World)

def launch (t : FlVfsHandle) : World := { s with launched := t :: s.launched }

/-- Every ticket that was launched has been closed once, but for those in `held`. -/
def Closes (held : List FlVfsHandle) : Prop :=
  ∀ t, s.closed.count t + held.count t = s.launched.count t ∧ s.launched.count t ≤ 1

end World

/-- A launch is refused, or gives a new ticket. -/
def Launches (s : World) (t : FlVfsHandle) (s' : World) : Prop :=
  t = FL_VFS_HANDLE_INVALID ∧ s' = s ∨
    t ≠ FL_VFS_HANDLE_INVALID ∧ t ∉ s.launched ∧ s' = s.launch t

/-- The calls as one file answers them. -/
def FileWorld : Environment workerCalls World := fun s op r s' =>
  match op, r with
  | .allocate _, _ => s' = s
  | .vfsMountOpen _, t => Launches s t s'
  | .vfsRead _ size, t => Launches { s with asked := size } t s'
  | .vfsWait _, written =>
      (∃ rest, s.ahead = written ++ rest ∧ written.length ≤ s.asked ∧
        (written = [] → s.ahead = []) ∧
        s' = { s with
          delivered := s.delivered ++ written
          ahead := rest
          current := some written
          ended := written.isEmpty }) ∨
      written.length ≤ s.asked ∧ s' = { s with current := none }
  | .vfsGetData _, data =>
      s' = s ∧ data.success = s.current.isSome ∧ ∀ b ∈ s.current, data.size = b.length
  | .vfsClose t, _ => s' = { s with closed := t :: s.closed }
  | .each piece, returned =>
      s' = { s with handed := s.handed ++ [piece], panicked := s.panicked || !returned }
  | .drain _, result => s' = { s with drainUnwound := s.drainUnwound || result.isNone }

/-- What `read_chunks` should leave behind of a file. -/
structure ChunksRight (content : Bytes) (exit : Exit Unit) (s : World) : Prop where
  pieces : ∀ piece ∈ s.handed, piece ≠ []
  inOrder : s.handed.flatten = s.delivered ∧ s.delivered ++ s.ahead = content
  ok : exit = .returned (.ok ()) ↔ s.ended = true
  whole : exit = .returned (.ok ()) → s.handed.flatten = content
  closes : s.Closes []

/-! ## One round -/

/-- Where the loop is when a round begins. -/
structure Reading (content : Bytes) (file : FlVfsHandle) (s : World) : Prop where
  pieces : ∀ piece ∈ s.handed, piece ≠ []
  inOrder : s.handed.flatten = s.delivered ∧ s.delivered ++ s.ahead = content
  open_ : s.ended = false
  calm : s.panicked = false
  closes : s.Closes [file]

/-- How the loop ends. -/
structure Ended (content : Bytes) (file : FlVfsHandle) (exit : Exit Unit) (s : World) : Prop where
  pieces : ∀ piece ∈ s.handed, piece ≠ []
  inOrder : s.handed.flatten = s.delivered ∧ s.delivered ++ s.ahead = content
  ok : exit = .returned (.ok ()) ↔ s.ended = true
  end_ : s.ended = true → s.ahead = []
  panicked : exit = .unwound ↔ s.panicked = true
  closes : s.Closes [file]

section
variable {s t u v : World} {held : List FlVfsHandle} {ticket file : FlVfsHandle}
variable {content buffer : Bytes} {chunkSize rounds : ℕ}

theorem World.Closes.launch (h : s.Closes held) (fresh : ticket ∉ s.launched) :
    (s.launch ticket).Closes (ticket :: held) := by
  intro x
  obtain ⟨counts, once⟩ := h x
  have new := List.count_eq_zero_of_not_mem fresh
  show s.closed.count x + (ticket :: held).count x = (ticket :: s.launched).count x ∧ _
  by_cases same : ticket = x
  · subst same
    rw [World.launch, List.count_cons_self, List.count_cons_self]
    omega
  · rw [World.launch, List.count_cons_of_ne same, List.count_cons_of_ne same]
    exact ⟨counts, once⟩

theorem World.Closes.close (h : s.Closes (ticket :: held)) :
    World.Closes { s with closed := ticket :: s.closed } held := by
  intro x
  obtain ⟨counts, once⟩ := h x
  refine ⟨?_, once⟩
  show (ticket :: s.closed).count x + held.count x = s.launched.count x
  rw [← counts]
  by_cases same : ticket = x
  · subst same
    rw [List.count_cons_self, List.count_cons_self]
    omega
  · rw [List.count_cons_of_ne same, List.count_cons_of_ne same]

/-- A read that has delivered is handed on as it was delivered. -/
theorem take_overwrite {b : Bytes} {data : VfsData} (size : data.size = b.length)
    (fits : b.length ≤ chunkSize) : (overwrite buffer b).take (min (max data.size 0).toNat chunkSize) = b := by
  have length : min (max data.size 0).toNat chunkSize = b.length := by
    omega
  rw [length, overwrite, List.take_left]

/-- The world behind a read that has delivered `b` and been closed. -/
def World.afterRead (s : World) (read : FlVfsHandle) (asked : ℕ) (b rest : Bytes) : World :=
  { s with
    delivered := s.delivered ++ b
    ahead := rest
    asked := asked
    current := some b
    ended := b.isEmpty
    launched := read :: s.launched
    closed := read :: s.closed }

/-- One round of the loop: the read is refused, it fails, it finds the end, or it delivers a
piece, which the closure is given. -/
theorem chunkLoop_round {exit : Option (Exit Unit)} (closes : s.Closes [file])
    (run : Run FileWorld (chunkLoop file chunkSize (rounds + 1) buffer) s exit t) :
    (exit = some (.returned (.error .genericError)) ∧ t.Closes [file] ∧
      t.handed = s.handed ∧ t.delivered = s.delivered ∧ t.ahead = s.ahead ∧ t.ended = s.ended ∧
      t.panicked = s.panicked) ∨
    ∃ read b rest, s.ahead = b ++ rest ∧ (b = [] → s.ahead = []) ∧
      (s.afterRead read chunkSize b rest).Closes [file] ∧
      (b = [] ∧ exit = some (.returned (.ok ())) ∧ t = s.afterRead read chunkSize b rest ∨
        b ≠ [] ∧ ∃ returned u,
          u = { s.afterRead read chunkSize b rest with
            handed := s.handed ++ [b], panicked := s.panicked || !returned } ∧
          (returned = false ∧ exit = some .unwound ∧ t = u ∨
            returned = true ∧ Run FileWorld (chunkLoop file chunkSize rounds (overwrite buffer b)) u exit t)) := by
  obtain ⟨read, s₁, launched, run⟩ := run_bind.mp run
  have launch : Launches { s with asked := chunkSize } read s₁ := run_call.mp launched
  rcases launch with ⟨refused, same⟩ | ⟨valid, fresh, same⟩
  · subst same
    rw [if_pos refused] at run
    obtain ⟨rfl, rfl⟩ := run_done.mp run
    exact .inl ⟨rfl, closes, rfl, rfl, rfl, rfl, rfl⟩
  rw [if_neg valid] at run
  obtain ⟨written, s₂, waited, run⟩ := run_bind.mp run
  obtain ⟨data, s₃, got, run⟩ := run_bind.mp run
  obtain ⟨_, s₄, closed, run⟩ := run_bind.mp run
  obtain ⟨same₃, success, size⟩ := run_call.mp got
  have same₄ : s₄ = { s₃ with closed := read :: s₃.closed } := run_call.mp closed
  have shut := (World.Closes.launch (s := { s with asked := chunkSize }) closes fresh).close
  subst same
  subst same₃
  subst same₄
  rcases run_call.mp waited with ⟨rest, split, fits, finds, here⟩ | ⟨-, here⟩
  · subst here
    have exactly := size written rfl
    rw [success] at run
    refine .inr ⟨read, written, rest, split, finds, shut, ?_⟩
    by_cases empty : written = []
    · have zero : min (max data.size 0).toNat chunkSize = 0 := by
        rw [exactly, empty]
        simp
      simp only [Option.isSome_some, not_true_eq_false, if_false, if_pos zero] at run
      obtain ⟨rfl, rfl⟩ := run_done.mp run
      exact .inl ⟨empty, rfl, rfl⟩
    · have some_ : min (max data.size 0).toNat chunkSize ≠ 0 := by
        have positive := List.length_pos_iff.mpr empty
        have fits : written.length ≤ chunkSize := fits
        omega
      have piece : (overwrite buffer written).take (min (max data.size 0).toNat chunkSize) =
          written := take_overwrite exactly fits
      simp only [Option.isSome_some, not_true_eq_false, if_false, if_neg some_] at run
      obtain ⟨returned, u, called, run⟩ := run_bind.mp run
      have same : u = { s.afterRead read chunkSize written rest with
          handed := s.handed ++
            [(overwrite buffer written).take (min (max data.size 0).toNat chunkSize)]
          panicked := s.panicked || !returned } := run_call.mp called
      rw [piece] at same
      refine .inr ⟨empty, returned, u, same, ?_⟩
      cases returned with
      | true => exact .inr ⟨rfl, run⟩
      | false =>
          obtain ⟨rfl, rfl⟩ := run_done.mp run
          exact .inl ⟨rfl, rfl, rfl⟩
  · subst here
    rw [success] at run
    obtain ⟨rfl, rfl⟩ := run_done.mp run
    exact .inl ⟨rfl, shut, rfl, rfl, rfl, rfl, rfl⟩

theorem chunkLoop_ends {exit : Option (Exit Unit)} (reading : Reading content file s)
    (enough : s.ahead.length < rounds)
    (run : Run FileWorld (chunkLoop file chunkSize rounds buffer) s exit t) :
    ∃ way, exit = some way ∧ Ended content file way t := by
  induction rounds generalizing s buffer with
  | zero => omega
  | succ rounds ih =>
      rcases chunkLoop_round reading.closes run with
        ⟨rfl, closes, handed, delivered, ahead, ended, panicked⟩ |
          ⟨read, b, rest, split, finds, closes, run⟩
      · refine ⟨_, rfl, ?_, ?_, ?_, ?_, ?_, closes⟩
        · rw [handed]
          exact reading.pieces
        · rw [handed, delivered, ahead]
          exact reading.inOrder
        · simp [ended, reading.open_]
        · simp [ended, reading.open_]
        · simp [panicked, reading.calm]
      have whole : s.delivered ++ b ++ rest = content := by
        rw [List.append_assoc, ← split]
        exact reading.inOrder.2
      rcases run with ⟨rfl, rfl, rfl⟩ | ⟨nonempty, returned, u, rfl, run⟩
      · refine ⟨_, rfl, reading.pieces, ⟨?_, whole⟩, ?_, ?_, ?_, closes⟩
        · exact reading.inOrder.1.trans (List.append_nil _).symm
        · simp [World.afterRead]
        · intro _
          have done := finds rfl
          rw [split] at done
          exact done
        · simp [World.afterRead, reading.calm]
      have pieces : ∀ piece ∈ s.handed ++ [b], piece ≠ [] := by
        intro piece hp
        rcases List.mem_append.mp hp with hp | hp
        · exact reading.pieces piece hp
        · rw [List.mem_singleton.mp hp]
          exact nonempty
      have inOrder : (s.handed ++ [b]).flatten = s.delivered ++ b := by
        rw [List.flatten_append, reading.inOrder.1, List.flatten_singleton]
      have open_ : b.isEmpty = false := by
        simpa using nonempty
      rcases run with ⟨rfl, rfl, rfl⟩ | ⟨rfl, run⟩
      · refine ⟨_, rfl, pieces, ⟨inOrder, whole⟩, ?_, ?_, ?_, closes⟩
        · simp [World.afterRead, open_]
        · simp [World.afterRead, open_]
        · simp
      · have shorter : rest.length < rounds := by
          have positive := List.length_pos_iff.mpr nonempty
          rw [split, List.length_append] at enough
          omega
        have next : Reading content file { s.afterRead read chunkSize b rest with
            handed := s.handed ++ [b], panicked := s.panicked || !true } := by
          refine ⟨pieces, ⟨inOrder, whole⟩, open_, ?_, closes⟩
          simp [reading.calm]
        exact ih next shorter run

theorem World.Closes.new : World.Closes { ahead := content } [] := by
  intro x
  exact ⟨rfl, Nat.zero_le _⟩

theorem World.Closes.not_open (h : s.Closes [file]) : ¬ s.Closes [] := by
  intro all
  have open_ := (h file).1
  have shut := (all file).1
  rw [List.count_cons_self, List.count_nil] at open_
  rw [List.count_nil] at shut
  omega

theorem Launches.closes (h : s.Closes held) (launch : Launches s ticket t)
    (valid : ticket ≠ FL_VFS_HANDLE_INVALID) : t.Closes (ticket :: held) := by
  rcases launch with ⟨refused, -⟩ | ⟨-, fresh, rfl⟩
  · exact absurd refused valid
  · exact h.launch fresh

theorem Launches.refused (launch : Launches s ticket t) (invalid : ticket = FL_VFS_HANDLE_INVALID) :
    t = s := by
  rcases launch with ⟨-, same⟩ | ⟨valid, -, -⟩
  · exact same
  · exact absurd invalid valid

/-! ## The functions as wholes -/

theorem readChunks_right_iff {path : List Char} {exit : Option (Exit Unit)}
    (positive : 0 < chunkSize) (enough : content.length < rounds)
    (run : Run FileWorld (readChunks path chunkSize rounds) { ahead := content } exit t) :
    ∃ way, exit = some way ∧ (ChunksRight content way t ↔ t.panicked = false) := by
  have untouched : ∀ way, way ≠ .returned (.ok ()) →
      (ChunksRight content way { ahead := content } ↔ World.panicked { ahead := content } = false) := by
    intro way failed
    have same : way = .returned (.ok ()) ↔ false = true := by
      simp [failed]
    refine iff_of_true ⟨by simp, ⟨rfl, rfl⟩, same, ?_, .new⟩ rfl
    intro ok
    exact absurd ok failed
  rw [readChunks, if_neg (Nat.pos_iff_ne_zero.mp positive)] at run
  obtain ⟨allocated, s₁, granted, run⟩ := run_bind.mp run
  cases (run_call.mp granted : s₁ = { ahead := content })
  cases allocated with
  | false =>
      obtain ⟨rfl, rfl⟩ := run_done.mp run
      exact ⟨_, rfl, untouched _ (by simp)⟩
  | true =>
      obtain ⟨file, s₂, opened, run⟩ := run_bind.mp run
      have launch : Launches { ahead := content } file s₂ := run_call.mp opened
      by_cases invalid : file = FL_VFS_HANDLE_INVALID
      · rw [if_pos invalid] at run
        obtain ⟨rfl, rfl⟩ := run_done.mp run
        cases launch.refused invalid
        exact ⟨_, rfl, untouched _ (by simp)⟩
      rw [if_neg invalid] at run
      obtain ⟨exit, s₃, looped, run⟩ := run_bind.mp run
      have reading : Reading content file s₂ := by
        have closes := launch.closes .new invalid
        rcases launch with ⟨refused, -⟩ | ⟨-, -, rfl⟩
        · exact absurd refused invalid
        · exact ⟨by simp [World.launch], ⟨rfl, rfl⟩, rfl, rfl, closes⟩
      have ahead : s₂.ahead.length < rounds := by
        have whole := congrArg List.length reading.inOrder.2
        rw [List.length_append] at whole
        omega
      obtain ⟨way, rfl, ended⟩ := chunkLoop_ends reading ahead looped
      cases way with
      | unwound =>
          obtain ⟨rfl, rfl⟩ := run_done.mp run
          refine ⟨_, rfl, iff_of_false ?_ ?_⟩
          · intro right
            exact ended.closes.not_open right.closes
          · rw [ended.panicked.mp rfl]
            simp
      | returned result =>
          obtain ⟨_, s₄, closed, done⟩ := run_bind.mp run
          obtain ⟨rfl, rfl⟩ := run_done.mp done
          have shut : t = { s₃ with closed := file :: s₃.closed } := run_call.mp closed
          subst shut
          have calm : s₃.panicked = false := by
            rw [Bool.eq_false_iff, ne_eq, ← ended.panicked]
            simp
          refine ⟨_, rfl, iff_of_true ⟨ended.pieces, ended.inOrder, ended.ok, ?_, ended.closes.close⟩ calm⟩
          intro ok
          have atEnd := ended.end_ (ended.ok.mp ok)
          have whole := ended.inOrder.2
          rw [atEnd, List.append_nil] at whole
          exact ended.inOrder.1.trans whole

theorem readPrefix_closes {path : List Char} {maxBytes : ℕ} {exit : Exit Bytes}
    (run : Run FileWorld (readPrefix path maxBytes) { ahead := content } exit t) : t.Closes [] := by
  rw [readPrefix] at run
  split_ifs at run
  · obtain ⟨-, rfl⟩ := run_done.mp run
    exact .new
  obtain ⟨allocated, s₁, granted, run⟩ := run_bind.mp run
  cases (run_call.mp granted : s₁ = { ahead := content })
  cases allocated with
  | false =>
      obtain ⟨-, rfl⟩ := run_done.mp run
      exact .new
  | true =>
      obtain ⟨file, s₂, opened, run⟩ := run_bind.mp run
      have launch : Launches { ahead := content } file s₂ := run_call.mp opened
      by_cases invalid : file = FL_VFS_HANDLE_INVALID
      · rw [if_pos invalid] at run
        obtain ⟨-, rfl⟩ := run_done.mp run
        cases launch.refused invalid
        exact .new
      rw [if_neg invalid] at run
      have closes := launch.closes .new invalid
      obtain ⟨read, s₃, launched, run⟩ := run_bind.mp run
      have launch₂ : Launches { s₂ with asked := maxBytes } read s₃ := run_call.mp launched
      have asked : World.Closes { s₂ with asked := maxBytes } [file] := closes
      by_cases refused : read = FL_VFS_HANDLE_INVALID
      · rw [if_pos refused] at run
        obtain ⟨_, s₄, closed, done⟩ := run_bind.mp run
        obtain ⟨-, rfl⟩ := run_done.mp done
        have shut : t = { s₃ with closed := file :: s₃.closed } := run_call.mp closed
        subst shut
        cases launch₂.refused refused
        exact asked.close
      rw [if_neg refused] at run
      have both := launch₂.closes asked refused
      obtain ⟨written, s₄, waited, run⟩ := run_bind.mp run
      obtain ⟨data, s₅, got, run⟩ := run_bind.mp run
      obtain ⟨_, s₆, closedRead, run⟩ := run_bind.mp run
      obtain ⟨_, s₇, closedFile, run⟩ := run_bind.mp run
      have still : s₄.Closes [read, file] := by
        rcases run_call.mp waited with ⟨rest, -, -, -, rfl⟩ | ⟨-, rfl⟩
        · exact both
        · exact both
      have same₅ : s₅ = s₄ := (run_call.mp got).1
      have same₆ : s₆ = { s₅ with closed := read :: s₅.closed } := run_call.mp closedRead
      have same₇ : s₇ = { s₆ with closed := file :: s₆.closed } := run_call.mp closedFile
      have shut : s₇.Closes [] := by
        subst same₅
        subst same₆
        subst same₇
        exact still.close.close
      split at run
      · obtain ⟨-, rfl⟩ := run_done.mp run
        exact shut
      · obtain ⟨-, rfl⟩ := run_done.mp run
        exact shut

theorem drainBlocking_closes_iff {exit : Exit Bytes} (valid : ticket ≠ FL_VFS_HANDLE_INVALID)
    (closes : s.Closes [ticket]) (calm : s.drainUnwound = false)
    (run : Run FileWorld (drainBlocking ticket) s exit t) :
    t.Closes [] ↔ t.drainUnwound = false := by
  rw [drainBlocking, if_neg valid] at run
  obtain ⟨written, s₁, waited, run⟩ := run_bind.mp run
  obtain ⟨drained, s₂, taken, run⟩ := run_bind.mp run
  have still : s₁.Closes [ticket] ∧ s₁.drainUnwound = false := by
    rcases run_call.mp waited with ⟨rest, -, -, -, rfl⟩ | ⟨-, rfl⟩
    · exact ⟨closes, calm⟩
    · exact ⟨closes, calm⟩
  have same : s₂ = { s₁ with drainUnwound := s₁.drainUnwound || drained.isNone } :=
    run_call.mp taken
  subst same
  cases drained with
  | none =>
      obtain ⟨-, rfl⟩ := run_done.mp run
      refine iff_of_false ?_ ?_
      · have held : World.Closes { s₁ with drainUnwound := s₁.drainUnwound || true } [ticket] :=
          still.1
        exact held.not_open
      · simp
  | some result =>
      obtain ⟨_, s₃, closed, done⟩ := run_bind.mp run
      obtain ⟨-, rfl⟩ := run_done.mp done
      have shut : t = { s₁ with
          drainUnwound := s₁.drainUnwound || false, closed := ticket :: s₁.closed } :=
        run_call.mp closed
      subst shut
      refine iff_of_true ?_ ?_
      · have held : World.Closes { s₁ with drainUnwound := s₁.drainUnwound || false } [ticket] :=
          still.1
        exact held.close
      · simp [still.2]

/-- For every file, every chunk size, every sequence of outcomes of the launches and reads,
and every closure: `read_chunks` ends, and does what it should exactly if the closure
returns from every call. `read_prefix` closes its tickets always, and `drain_blocking`
exactly if the drain returns. -/
theorem worker_reads_iff (path : List Char) (content : Bytes) (chunkSize rounds maxBytes : ℕ)
    (ticket : FlVfsHandle) (s : World) :
    (0 < chunkSize → content.length < rounds → ∀ (exit : Option (Exit Unit)) (t : World),
      Run FileWorld (readChunks path chunkSize rounds) { ahead := content } exit t →
        ∃ way, exit = some way ∧ (ChunksRight content way t ↔ t.panicked = false)) ∧
    (∀ (exit : Exit Bytes) (t : World),
      Run FileWorld (readPrefix path maxBytes) { ahead := content } exit t → t.Closes []) ∧
    (ticket ≠ FL_VFS_HANDLE_INVALID → s.Closes [ticket] → s.drainUnwound = false →
      ∀ (exit : Exit Bytes) (t : World),
        Run FileWorld (drainBlocking ticket) s exit t → (t.Closes [] ↔ t.drainUnwound = false)) := by
  refine ⟨?_, ?_, ?_⟩
  · intro positive enough exit t run
    exact readChunks_right_iff positive enough run
  · intro exit t run
    exact readPrefix_closes run
  · intro valid closes calm exit t run
    exact drainBlocking_closes_iff valid closes calm run

end

/-! ## A file of three bytes -/

/-- Reads deliver what they are asked for, and the closure returns or not. -/
def answer (returns : Bool) : (op : WorkerOp) → World → Option (op.Reply × World)
  | .allocate _, s => some (true, s)
  | .vfsMountOpen _, s =>
      if 1 ∈ s.launched then none else some ((1 : ℕ), s.launch 1)
  | .vfsRead _ size, s =>
      if s.launched.length + 1 ∈ s.launched then none
      else some (s.launched.length + 1, { s with asked := size }.launch (s.launched.length + 1))
  | .vfsWait _, s =>
      if s.ahead.take s.asked = [] ∧ s.ahead ≠ [] then none
      else some (s.ahead.take s.asked, { s with
        delivered := s.delivered ++ s.ahead.take s.asked
        ahead := s.ahead.drop s.asked
        current := some (s.ahead.take s.asked)
        ended := (s.ahead.take s.asked).isEmpty })
  | .vfsGetData _, s => some (⟨s.current.isSome, ((s.current.getD []).length : ℤ)⟩, s)
  | .vfsClose t, s => some ((), { s with closed := t :: s.closed })
  | .each piece, s =>
      some (returns, { s with
        handed := s.handed ++ [piece], panicked := s.panicked || !returns })
  | .drain _, s => some (some (.ok []), { s with drainUnwound := s.drainUnwound || false })

theorem answer_allowed {returns : Bool} (s : World) (op : WorkerOp) (r : op.Reply) (t : World)
    (h : answer returns op s = some (r, t)) : FileWorld s op r t := by
  cases op with
  | vfsMountOpen path =>
      simp only [answer] at h
      split_ifs at h with fresh
      cases h
      exact .inr ⟨by decide, fresh, rfl⟩
  | vfsRead file size =>
      simp only [answer] at h
      split_ifs at h with fresh
      cases h
      exact .inr ⟨Nat.succ_ne_zero _, fresh, rfl⟩
  | vfsWait ticket =>
      simp only [answer] at h
      split_ifs at h with stuck
      cases h
      refine .inl ⟨s.ahead.drop s.asked, (List.take_append_drop ..).symm, ?_, ?_, rfl⟩
      · exact List.length_take_le ..
      · intro empty
        by_contra more
        exact stuck ⟨empty, more⟩
  | vfsGetData ticket =>
      cases h
      refine ⟨rfl, rfl, ?_⟩
      intro b delivered
      rw [Option.mem_def.mp delivered]
      rfl
  | allocate | vfsClose | each | drain =>
      cases h
      rfl

/-- The closure unwinds on the first piece, and the file is not closed. -/
theorem unwinding_closure_leaves_file_open : ∃ t,
    Run FileWorld (readChunks [] 2 4) { ahead := [7, 8, 9] } (some .unwound) t ∧
      ¬ ChunksRight [7, 8, 9] .unwound t := by
  obtain ⟨t, done, launched, closed⟩ : ∃ t,
      replay (answer false) (readChunks [] 2 4) { ahead := [7, 8, 9] } = some (some .unwound, t) ∧
        t.launched = [2, 1] ∧ t.closed = [2] := ⟨_, rfl, rfl, rfl⟩
  refine ⟨t, run_replay answer_allowed done, ?_⟩
  intro right
  have shut := (right.closes 1).1
  rw [launched, closed] at shut
  exact absurd shut (by decide)

/-- The file is read in two pieces. -/
theorem worker_reads_three_bytes : ∃ way t,
    Run FileWorld (readChunks [] 2 4) { ahead := [7, 8, 9] } (some way) t ∧
      t.handed = [[7, 8], [9]] ∧ (ChunksRight [7, 8, 9] way t ↔ t.panicked = false) := by
  obtain ⟨way, t, done, handed⟩ : ∃ way t,
      replay (answer true) (readChunks [] 2 4) { ahead := [7, 8, 9] } = some (some way, t) ∧
        t.handed = [[7, 8], [9]] := ⟨_, _, rfl, rfl⟩
  have run : Run FileWorld (readChunks [] 2 4) { ahead := [7, 8, 9] } (some way) t :=
    run_replay answer_allowed done
  obtain ⟨way', same, right⟩ :=
    (worker_reads_iff [] [7, 8, 9] 2 4 0 1 { ahead := [] }).1 (by decide) (by decide) (some way) t
      run
  cases same
  exact ⟨way, t, run, handed, right⟩

end FlowiVfs.WorkerMount
