import FlowiVfs.Drivers
import Mathlib.Data.List.Perm.Basic
import Mathlib.Data.List.Count
import Mathlib.Data.List.Nodup

/-!
# The ledger of handles and buffers

The drivers answer as they like, within what `FlVfsPlugin` promises about resources: a
handle that `open`, `clone` or `open_memory` returns is not one that is open, a buffer
that `mi_malloc` returns was not allocated before, and a driver takes a buffer exactly
when its `open_memory` returns a handle, and frees it when that handle is closed.

The ledger records who owns what. A call on a handle that is not open, and a use of a
buffer by someone who does not own it, are not excluded: they set `misused`.
-/
namespace FlowiVfs.Tree

structure OpenHandle where
  driver : ℕ
  handle : DriverPtr
deriving DecidableEq

structure Ledger where
  opened : List OpenHandle := []
  allocated : List BufferPtr := []
  /-- Buffers that the file system owns. -/
  held : List BufferPtr := []
  /-- Buffers that a driver took, each with the handle that owns it. -/
  taken : List (BufferPtr × OpenHandle) := []
  /-- Buffers given to `mi_free`. -/
  freed : List BufferPtr := []
  /-- Buffers that drivers freed when their owner was closed. -/
  released : List BufferPtr := []
  misused : Bool := false

namespace Ledger

variable (s : Ledger)

def misuse : Ledger := { s with misused := true }

def use (h : OpenHandle) : Ledger := if h ∈ s.opened then s else s.misuse

/-- A call on a handle that the caller did not check for null. -/
def useAt (driver : ℕ) : Option DriverPtr → Ledger
  | none => s.misuse
  | some handle => s.use ⟨driver, handle⟩

/-- An `open` relative to a handle, or absolute when there is none. -/
def openIn (driver : ℕ) : Option DriverPtr → Ledger
  | none => s
  | some handle => s.use ⟨driver, handle⟩

def lend (b : BufferPtr) : Ledger := if b ∈ s.held then s else s.misuse

def gain (h : OpenHandle) : Ledger := { s with opened := h :: s.opened }

def allocate (b : BufferPtr) : Ledger :=
  { s with allocated := b :: s.allocated, held := b :: s.held }

def close (h : OpenHandle) : Ledger :=
  if h ∈ s.opened then
    { s with
      opened := s.opened.erase h
      taken := s.taken.filter fun p => p.2 ≠ h
      released := (s.taken.filter fun p => p.2 = h).map Prod.fst ++ s.released }
  else s.misuse

def free : Option BufferPtr → Ledger
  | none => s
  | some b =>
      if b ∈ s.held then { s with held := s.held.erase b, freed := b :: s.freed }
      else s.misuse

/-- The buffer goes to the handle that took it. -/
def take (b : BufferPtr) (h : OpenHandle) : Ledger :=
  if b ∈ s.held then
    { s with opened := h :: s.opened, held := s.held.erase b, taken := (b, h) :: s.taken }
  else s.misuse

/-- Every allocation is in one place, every taken buffer belongs to an open handle. -/
structure Accounted (s : Ledger) : Prop where
  opened_nodup : s.opened.Nodup
  allocated_nodup : s.allocated.Nodup
  partition : s.allocated.Perm (s.held ++ s.taken.map Prod.fst ++ s.freed ++ s.released)
  owned : ∀ p ∈ s.taken, p.2 ∈ s.opened

end Ledger

/-- A call that may return a handle returns one that is not open. -/
def Gives (driver : ℕ) (reply : Option DriverPtr) (s t : Ledger) : Prop :=
  match reply with
  | none => t = s
  | some h => ⟨driver, h⟩ ∉ s.opened ∧ t = s.gain ⟨driver, h⟩

def Takes (driver : ℕ) (b : BufferPtr) (reply : Option DriverPtr) (s t : Ledger) : Prop :=
  match reply with
  | none => t = s.lend b
  | some h => ⟨driver, h⟩ ∉ s.opened ∧ t = s.take b ⟨driver, h⟩

/-- What `FlVfsPlugin` promises about handles and buffers. Replies are free otherwise. -/
def contract : Environment drivers Ledger := fun s op r t =>
  match op, r with
  | .canOpen .., _ => t = s
  | .openPath e parent _ _ _, r => Gives e.id r.handle (s.openIn e.id parent) t
  | .isDirectory e h, _ => t = s.use ⟨e.id, h⟩
  | .getSize e h _, _ => t = s.useAt e.id h
  | .read e h _ b _, _ => t = (s.useAt e.id h).lend b
  | .listDirectory e h _, _ => t = s.useAt e.id h
  | .clone e h, r => Gives e.id r.handle (s.use ⟨e.id, h⟩) t
  | .close e h, _ => t = s.close ⟨e.id, h⟩
  | .openMemory e b _ _ _, r => Takes e.id b r.handle s t
  | .getFilePath e h _, _ => t = s.useAt e.id h
  | .malloc _, b => b ∉ s.allocated ∧ t = s.allocate b
  | .free b, _ => t = s.free b

namespace Ledger

variable {s t : Ledger} {h : OpenHandle} {b : BufferPtr}

@[simp] theorem use_opened (hm : h ∈ s.opened) : s.use h = s := if_pos hm

@[simp] theorem useAt_opened {driver handle : ℕ} (hm : ⟨driver, handle⟩ ∈ s.opened) :
    s.useAt driver (some handle) = s := if_pos hm

@[simp] theorem lend_held (hm : b ∈ s.held) : s.lend b = s := if_pos hm

theorem use_cases (s : Ledger) (h : OpenHandle) : s.use h = s ∨ s.use h = s.misuse := by
  unfold use
  split_ifs
  · exact .inl rfl
  · exact .inr rfl

theorem lend_cases (s : Ledger) (b : BufferPtr) : s.lend b = s ∨ s.lend b = s.misuse := by
  unfold lend
  split_ifs
  · exact .inl rfl
  · exact .inr rfl

namespace Accounted

theorem empty : ({} : Ledger).Accounted :=
  ⟨List.nodup_nil, List.nodup_nil, .refl _, by simp⟩

theorem misuse (hs : s.Accounted) : s.misuse.Accounted :=
  ⟨hs.opened_nodup, hs.allocated_nodup, hs.partition, hs.owned⟩

theorem use (hs : s.Accounted) (h : OpenHandle) : (s.use h).Accounted := by
  rcases use_cases s h with e | e <;> rw [e]
  · exact hs
  · exact hs.misuse

theorem useAt (hs : s.Accounted) (driver : ℕ) (h : Option DriverPtr) :
    (s.useAt driver h).Accounted := by
  cases h with
  | none => exact hs.misuse
  | some handle => exact hs.use _

theorem openIn (hs : s.Accounted) (driver : ℕ) (h : Option DriverPtr) :
    (s.openIn driver h).Accounted := by
  cases h with
  | none => exact hs
  | some handle => exact hs.use _

theorem lend (hs : s.Accounted) (b : BufferPtr) : (s.lend b).Accounted := by
  rcases lend_cases s b with e | e <;> rw [e]
  · exact hs
  · exact hs.misuse

theorem gain (hs : s.Accounted) (fresh : h ∉ s.opened) : (s.gain h).Accounted where
  opened_nodup := List.nodup_cons.mpr ⟨fresh, hs.opened_nodup⟩
  allocated_nodup := hs.allocated_nodup
  partition := hs.partition
  owned p hp := List.mem_cons_of_mem _ (hs.owned p hp)

theorem gives {driver : ℕ} {reply : Option DriverPtr} (hs : s.Accounted)
    (gives : Gives driver reply s t) : t.Accounted := by
  cases reply with
  | none =>
      rw [gives]
      exact hs
  | some handle =>
      rw [gives.2]
      exact hs.gain gives.1

theorem allocate (hs : s.Accounted) (fresh : b ∉ s.allocated) : (s.allocate b).Accounted where
  opened_nodup := hs.opened_nodup
  allocated_nodup := List.nodup_cons.mpr ⟨fresh, hs.allocated_nodup⟩
  partition := hs.partition.cons b
  owned := hs.owned

theorem close (hs : s.Accounted) (h : OpenHandle) : (s.close h).Accounted := by
  unfold Ledger.close
  split_ifs with hm
  · refine ⟨hs.opened_nodup.erase h, hs.allocated_nodup, ?_, fun p hp => ?_⟩
    · have split : (s.taken.map Prod.fst).Perm
          ((s.taken.filter fun p => p.2 ≠ h).map Prod.fst ++
            (s.taken.filter fun p => p.2 = h).map Prod.fst) := by
        rw [← List.map_append]
        refine List.Perm.map _ (List.Perm.symm ?_)
        have both := List.filter_append_perm (fun p : BufferPtr × OpenHandle => p.2 ≠ h) s.taken
        simpa using both
      refine hs.partition.trans ?_
      simp only [List.append_assoc]
      refine List.Perm.append_left _ ?_
      refine (split.append_right _).trans ?_
      simp only [List.append_assoc]
      refine List.Perm.append_left _ ?_
      rw [← List.append_assoc, ← List.append_assoc]
      exact List.perm_append_comm.append_right _
    · have kept := List.mem_filter.mp hp
      have other : p.2 ≠ h := by simpa using kept.2
      exact (List.mem_erase_of_ne other).mpr (hs.owned p kept.1)
  · exact hs.misuse

theorem free (hs : s.Accounted) (b : Option BufferPtr) : (s.free b).Accounted := by
  cases b with
  | none => exact hs
  | some b =>
      unfold Ledger.free
      simp only
      split_ifs with hm
      · refine ⟨hs.opened_nodup, hs.allocated_nodup, ?_, hs.owned⟩
        refine hs.partition.trans ?_
        have front := List.perm_cons_erase hm
        refine (((front.append_right _).append_right _).append_right _).trans ?_
        simp only [List.cons_append, List.append_assoc]
        refine List.perm_middle.symm.trans ?_
        refine List.Perm.append_left _ ?_
        exact List.perm_middle.symm
      · exact hs.misuse

theorem take (hs : s.Accounted) (fresh : h ∉ s.opened) (b : BufferPtr) :
    (s.take b h).Accounted := by
  unfold Ledger.take
  split_ifs with hm
  · refine ⟨List.nodup_cons.mpr ⟨fresh, hs.opened_nodup⟩, hs.allocated_nodup, ?_,
      fun p hp => ?_⟩
    · refine hs.partition.trans ?_
      have front := List.perm_cons_erase hm
      refine (((front.append_right _).append_right _).append_right _).trans ?_
      simp only [List.map_cons, List.cons_append, List.append_assoc]
      exact List.perm_middle.symm
    · rcases List.mem_cons.mp hp with rfl | hp
      · exact List.mem_cons_self
      · exact List.mem_cons_of_mem _ (hs.owned p hp)
  · exact hs.misuse

theorem takes {driver : ℕ} {reply : Option DriverPtr} (hs : s.Accounted)
    (takes : Takes driver b reply s t) : t.Accounted := by
  cases reply with
  | none =>
      rw [takes]
      exact hs.lend b
  | some handle =>
      rw [takes.2]
      exact hs.take takes.1 b

/-- Whatever a driver answers, the accounts stay in order. -/
theorem step {op : drivers.Op} {r : drivers.Reply op} (hs : s.Accounted)
    (answer : contract s op r t) : t.Accounted := by
  cases op with
  | canOpen e p =>
      rw [show t = s from answer]
      exact hs
  | openPath e parent p flags options => exact (hs.openIn e.id parent).gives answer
  | isDirectory e h =>
      rw [show t = s.use _ from answer]
      exact hs.use _
  | getSize e h p =>
      rw [show t = s.useAt _ _ from answer]
      exact hs.useAt _ _
  | read e h p b size =>
      rw [show t = (s.useAt _ _).lend b from answer]
      exact (hs.useAt _ _).lend b
  | listDirectory e h p =>
      rw [show t = s.useAt _ _ from answer]
      exact hs.useAt _ _
  | clone e h => exact (hs.use _).gives answer
  | close e h =>
      rw [show t = s.close _ from answer]
      exact hs.close _
  | openMemory e b contents size p => exact hs.takes answer
  | getFilePath e h p =>
      rw [show t = s.useAt _ _ from answer]
      exact hs.useAt _ _
  | malloc size =>
      rw [show t = s.allocate _ from answer.2]
      exact hs.allocate answer.1
  | free b =>
      rw [show t = s.free b from answer]
      exact hs.free b

theorem run {A : Type} {p : DriverProgram A} {a : A} (hs : s.Accounted)
    (run : p.Run contract s a t) : t.Accounted :=
  run.keeps (fun _ _ _ _ hu answer => hu.step answer) hs

end Accounted
end Ledger
end FlowiVfs.Tree
