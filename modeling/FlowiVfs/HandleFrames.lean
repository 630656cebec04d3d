import FlowiVfs.HandleMachine

/-!
# What the calls in progress hold

The invariants of the handle system relate the shared state to what the calls in
progress have in their local variables: which private handle a call owns, on
which handle it has a scheduling window open, which job it has yet to record and
which handles it is tearing down. All of that is read off the program points
that are left, so the calls enter the invariants only as the list of those
points, up to permutation.
-/
namespace FlowiVfs

namespace Instr

/-- The handle that is private to the call until the call publishes it. -/
def owns : Instr → Option HandlePtr
  | .schedule p | .inlineOp p _ _ | .publish p => some p
  | .mountSchedule _ p | .mountInline _ p _ | .mountPublish _ p _ => some p
  | .chainRun _ _ _ p _ | .chainInline _ _ p _ | .chainPublish _ _ p _ => some p
  | _ => none

/-- The handle whose `pending_dispatches` the call has raised, with the id it goes by. -/
def window : Instr → Option (FlVfsHandle × HandlePtr)
  | .dispatchSchedule h p | .dispatchInline h p _ _ | .dispatchRecord h p _ => some (h, p)
  | .chainAlloc h file _ _ _ _ | .chainUnwind h file | .chainRun h file _ _ _
  | .chainInline h file _ _ | .chainPublish h file _ _ => some (h, file)
  | _ => none

/-- The handle a `vfs_dispatch` is scheduling. -/
def dispatches : Instr → Option HandlePtr
  | .dispatchSchedule _ p | .dispatchInline _ p _ _ | .dispatchRecord _ p _ => some p
  | _ => none

/-- The handle whose job fields the call has yet to write. -/
def unset : Instr → Option HandlePtr
  | .schedule p | .inlineOp p _ _ | .mountSchedule _ p | .mountInline _ p _ => some p
  | .dispatchSchedule _ p | .dispatchInline _ p _ _ | .dispatchRecord _ p _ => some p
  | .chainRun _ _ _ p _ | .chainInline _ _ p _ => some p
  | _ => none

/-- The job that only the call knows of so far, and its handle. -/
def carries : Instr → Option (HandlePtr × FlJobHandle)
  | .inlineOp p j _ | .mountInline _ p j => some (p, j)
  | .dispatchInline _ p j _ | .dispatchRecord _ p j => some (p, j)
  | .chainInline _ _ p j => some (p, j)
  | _ => none

/-- The mount being closed, its victims, and whether they have been drained. -/
def teardown : Instr → Option (MountPtr × List FlVfsHandle × Bool)
  | .mountDrain m victims => some (m, victims, false)
  | .mountFree m victims => some (m, victims, true)
  | _ => none

theorem dispatches_window {i : Instr} {p : HandlePtr} (h : i.dispatches = some p) :
    ∃ id, i.window = some (id, p) := by
  cases i <;> simp_all [dispatches, window]

theorem carries_holder {i : Instr} {p : HandlePtr} {j : FlJobHandle}
    (h : i.carries = some (p, j)) :
    i.unset = some p ∧ (i.owns = some p ∨ i.dispatches = some p) := by
  cases i <;> simp_all [carries, unset, owns, dispatches]

theorem unset_holder {i : Instr} {p : HandlePtr} (h : i.unset = some p) :
    i.owns = some p ∨ i.dispatches = some p := by
  cases i <;> simp_all [unset, owns, dispatches]

end Instr

/-- The program points left to the calls in progress. -/
def VfsState.frames (s : VfsState) : List Instr := s.calls.flatMap Call.todo

/-- How many calls own `p`. -/
def owners (F : List Instr) (p : HandlePtr) : ℕ := F.countP fun i => i.owns = some p

/-- How many windows are open on `p`. -/
def openWindows (F : List Instr) (p : HandlePtr) : ℕ :=
  F.countP fun i => i.window.map Prod.snd = some p

section Counting

variable {F G : List Instr} {i : Instr} {p : HandlePtr}

@[simp] theorem owners_nil : owners [] p = 0 := rfl

@[simp] theorem openWindows_nil : openWindows [] p = 0 := rfl

theorem owners_cons : owners (i :: F) p = owners F p + if i.owns = some p then 1 else 0 := by
  simp [owners, List.countP_cons]

theorem openWindows_cons :
    openWindows (i :: F) p = openWindows F p + if i.window.map Prod.snd = some p then 1 else 0 := by
  simp only [openWindows, List.countP_cons, decide_eq_true_eq]

theorem owners_perm (h : F.Perm G) : owners F p = owners G p := h.countP_eq _

theorem openWindows_perm (h : F.Perm G) : openWindows F p = openWindows G p := h.countP_eq _

theorem owners_pos (hi : i ∈ F) (h : i.owns = some p) : 0 < owners F p :=
  List.countP_pos_iff.mpr ⟨i, hi, by simpa using h⟩

theorem exists_owner (h : 0 < owners F p) : ∃ i ∈ F, i.owns = some p := by
  obtain ⟨i, hi, hp⟩ := List.countP_pos_iff.mp h
  exact ⟨i, hi, by simpa using hp⟩

theorem openWindows_pos {id : FlVfsHandle} (hi : i ∈ F) (h : i.window = some (id, p)) :
    0 < openWindows F p :=
  List.countP_pos_iff.mpr ⟨i, hi, by simp [h]⟩

theorem exists_window (h : 0 < openWindows F p) : ∃ i ∈ F, ∃ id, i.window = some (id, p) := by
  obtain ⟨i, hi, hp⟩ := List.countP_pos_iff.mp h
  simp only [decide_eq_true_eq, Option.map_eq_some_iff] at hp
  obtain ⟨⟨id, q⟩, hw, rfl⟩ := hp
  exact ⟨i, hi, id, hw⟩

end Counting

/-! ## Steps of calls -/

/-- Replacing the points of one call replaces them among the points of all calls. -/
theorem flatMap_set_todo {calls : List Call} {c : ℕ} {t : Thread} {i : Instr}
    {rest : List Instr} (new : List Instr) (h : calls[c]? = some ⟨t, i :: rest⟩) :
    ∃ F, (calls.flatMap Call.todo).Perm (i :: F) ∧
      ((calls.set c ⟨t, new ++ rest⟩).flatMap Call.todo).Perm (new ++ F) := by
  induction calls generalizing c with
  | nil => simp at h
  | cons k calls ih =>
      cases c with
      | zero =>
          simp only [List.getElem?_cons_zero, Option.some.injEq] at h
          subst h
          exact ⟨rest ++ calls.flatMap Call.todo, by simp, by simp⟩
      | succ c =>
          obtain ⟨F, h₁, h₂⟩ := ih (by simpa using h)
          refine ⟨k.todo ++ F, ?_, ?_⟩
          · simp only [List.flatMap_cons]
            exact (h₁.append_left _).trans List.perm_middle
          · simp only [List.set_cons_succ, List.flatMap_cons]
            refine (h₂.append_left _).trans ?_
            rw [← List.append_assoc, ← List.append_assoc]
            exact List.perm_append_comm.append_right F

/-- What a step of a call is. -/
theorem step_exec {s s' : VfsState} {c : ℕ} {sched : Sched}
    (h : step s (.exec c sched) = some s') :
    ∃ t i rest s₁ new, s.calls[c]? = some ⟨t, i :: rest⟩ ∧ s.onTop c t = true ∧
      (s.destroyed = true → i.outlivesVfs = true) ∧ i.exec s c t sched = some (s₁, new) ∧
      s' = { s₁ with calls := s.calls.set c ⟨t, new ++ rest⟩ } := by
  simp only [step] at h
  split at h
  · rename_i t i rest hc
    split_ifs at h with hon
    obtain ⟨⟨s₁, new⟩, hx, rfl⟩ := Option.map_eq_some_iff.mp h
    exact ⟨t, i, rest, s₁, new, hc, hon.1, hon.2, hx, rfl⟩
  · simp at h

/-- A step of a call runs one body; the lock events around it are all that is added. -/
theorem exec_body {s s₁ : VfsState} {c : ℕ} {t : Thread} {sched : Sched} {i : Instr}
    {new : List Instr} (h : i.exec s c t sched = some (s₁, new)) :
    ∃ s₀ s₂, execBody s₀ c t sched i = some (s₂, new) ∧
      ((i.locked = true ∧ s₀ = s.emit (.lock c) ∧ s₁ = s₂.emit (.unlock c)) ∨
        (i.locked = false ∧ s₀ = s ∧ s₁ = s₂)) := by
  unfold Instr.exec at h
  split_ifs at h with hl
  · obtain ⟨⟨s₂, new'⟩, hx, he⟩ := Option.map_eq_some_iff.mp h
    simp only [Prod.mk.injEq] at he
    obtain ⟨rfl, rfl⟩ := he
    exact ⟨_, s₂, hx, .inl ⟨hl, rfl, rfl⟩⟩
  · exact ⟨s, s₁, h, .inr ⟨by simpa using hl, rfl, rfl⟩⟩

end FlowiVfs
