import FlowiVfs.CallStack
import FlowiVfs.MountTeardown

/-!
# What `vfs_destroy` leaves

The main thread closes the mounts one after the other until the list is empty. A mount that
is off the list and not emptied yet has its close at the front of a call, behind a wait at
most; so when the main thread finds the list empty there is none, and no handle is left.
-/
namespace FlowiVfs

open Transition

/-- Points of `vfs_mount_close` and `vfs_destroy`. -/
def Instr.tearsDown : Instr → Bool
  | .mountUnlist _ | .mountSnapshot _ | .mountDrain _ _ | .mountFree _ _ | .mountDestroy _
  | .destroyLoop => true
  | _ => false

/-- What is left of a call behind its current point, or behind the one it waits in front of. -/
def Call.behind (todo : List Instr) : List Instr :=
  match todo with
  | .waitJobs _ :: rest => rest.tail
  | todo => todo.tail

/-- A mount that is off the list is at the front of a call. -/
def Tidy (todo : List Instr) : Prop := ∀ x ∈ Call.behind todo, x.unlisted = none

structure TeardownInv (calls : List Call) : Prop where
  onMain : ∀ k ∈ calls, ∀ x ∈ k.todo, x.tearsDown = true → k.thread = .main
  tidy : ∀ k ∈ calls, Tidy k.todo

section Points

variable {s s' : VfsState} {new rest : List Instr} {i : Instr} {c : ℕ} {t : Thread}
  {sched : Sched}

theorem Call.mem_of_behind {todo : List Instr} {x : Instr} (hx : x ∈ Call.behind todo) :
    x ∈ todo.tail := by
  unfold Call.behind at hx
  split at hx
  · exact List.mem_of_mem_tail hx
  · exact hx

theorem Tidy.of_none {todo : List Instr} (h : ∀ x ∈ todo.tail, x.unlisted = none) : Tidy todo :=
  fun x hx => h x (Call.mem_of_behind hx)

/-- A call that is at a point of no wait has nothing off the list behind it. -/
theorem Tidy.later (h : Tidy (i :: rest)) (hi : ∀ jobs, i ≠ .waitJobs jobs) :
    ∀ x ∈ rest, x.unlisted = none := by
  intro x hx
  apply h x
  unfold Call.behind
  split
  · rename_i jobs rest' same
    cases same
    exact absurd rfl (hi jobs)
  · exact hx

theorem Tidy.append (h : Tidy new) (hrest : ∀ x ∈ rest, x.unlisted = none) :
    Tidy (new ++ rest) := by
  intro x hx
  unfold Call.behind at hx
  cases new with
  | nil => exact hrest x (List.mem_of_mem_tail (Call.mem_of_behind hx))
  | cons y ys =>
      by_cases wait : ∃ jobs, y = .waitJobs jobs
      · obtain ⟨jobs, rfl⟩ := wait
        simp only [List.cons_append] at hx
        cases ys with
        | nil => exact hrest x (List.mem_of_mem_tail hx)
        | cons z zs =>
            rcases List.mem_append.mp hx with hx | hx
            · exact h x hx
            · exact hrest x hx
      · have front := Tidy.later h fun jobs same => wait ⟨jobs, same⟩
        have other : x ∈ ys ++ rest := by
          split at hx
          · rename_i jobs rest' same
            simp only [List.cons_append, List.cons.injEq] at same
            exact absurd ⟨jobs, same.1⟩ wait
          · exact hx
        rcases List.mem_append.mp other with hx | hx
        · exact front x hx
        · exact hrest x hx

/-- What comes after `i` tears down only where `i` does, and is tidy. -/
structure Instr.LeavesTidy (i : Instr) (new : List Instr) : Prop where
  tears : ∀ x ∈ new, x.tearsDown = true → i.tearsDown = true
  tidy : Tidy new

theorem Instr.LeavesTidy.nothing : i.LeavesTidy [] := ⟨by simp, .of_none (by simp)⟩

theorem Instr.LeavesTidy.single {y : Instr} (hy : y.tearsDown = true → i.tearsDown = true) :
    i.LeavesTidy [y] := by
  refine ⟨fun x hx => ?_, .of_none (by simp)⟩
  rw [List.mem_singleton.mp hx]
  exact hy

theorem LaunchExec.tidy (hx : LaunchExec s t i s' new) : i.LeavesTidy new := by
  cases hx with
  | refused | prepareRefused | published => exact .nothing
  | _ => exact .single (by simp [Instr.tearsDown])

theorem MountExec.tidy (hx : MountExec s t i s' new) : i.LeavesTidy new := by
  cases hx with
  | published => exact .nothing
  | _ => exact .single (by simp [Instr.tearsDown])

theorem DispatchExec.tidy (hx : DispatchExec s t i s' new) : i.LeavesTidy new := by
  cases hx with
  | missing | recorded => exact .nothing
  | _ => exact .single (by simp [Instr.tearsDown])

theorem ChainExec.tidy (hx : ChainExec s t i s' new) : i.LeavesTidy new := by
  cases hx with
  | copiedOnly | refused | unwound | published => exact .nothing
  | _ => exact .single (by simp [Instr.tearsDown])

theorem CloseExec.tidy (hx : CloseExec s c t i s' new) : i.LeavesTidy new := by
  cases hx with
  | cancelMissing | canceled | released | closeMissing | waited | waitMissing => exact .nothing
  | closeBorrowing hl borrows =>
      exact ⟨by simp [Instr.tearsDown], .of_none (by simp [Instr.unlisted])⟩
  | _ => exact .single (by simp [Instr.tearsDown])

theorem TeardownExec.tidy (hx : TeardownExec s c i s' new) : i.LeavesTidy new := by
  cases hx with
  | unknown | destroyed | cleared => exact .nothing
  | unlisted lock listed => exact .single fun _ => rfl
  | snapshot | draining | drained => exact ⟨fun _ _ _ => rfl, by simp [Tidy, Call.behind]⟩
  | freed | next => exact ⟨fun _ _ _ => rfl, .of_none (by simp [Instr.unlisted])⟩

/-- Only `vfs_mount_close` and `vfs_destroy` take mounts off the list, and they go on with a
mount that is off the list at once or after a wait. -/
theorem body_teardown (hx : execBody s c t sched i = some (s', new)) : i.LeavesTidy new := by
  cases execBody_some hx with
  | launch h => exact h.tidy
  | mount h => exact h.tidy
  | dispatch h => exact h.tidy
  | chain h => exact h.tidy
  | close h => exact h.tidy
  | teardown h => exact h.tidy

end Points

section Runs

variable {s s' : VfsState} {a : Action} {c : ℕ} {t : Thread} {rest : List Instr}

theorem Request.program_teardown (request : Request) :
    (∀ x ∈ request.program, x.tearsDown = true → request.allowedOn t = true → t = .main) ∧
      ∀ x ∈ request.program, x.unlisted = none := by
  have plain := request.program_plain
  refine ⟨fun x hx tears allowed => ?_, fun x hx => (Instr.plain_spec (plain x hx)).2.1⟩
  cases request with
  | mountClose m | destroy => simpa [Request.allowedOn] using allowed
  | read h size | writeNoCopy h b size =>
      simp only [Request.program, vfsRead, vfsWriteInternal] at hx
      split_ifs at hx <;> simp_all [Instr.tearsDown]
  | write h size =>
      simp only [Request.program, vfsWrite] at hx
      split_ifs at hx <;> simp_all [Instr.tearsDown]
  | close h =>
      simp only [Request.program, vfsClose] at hx
      split_ifs at hx
      · cases hx
      · simp only [List.mem_cons, List.not_mem_nil, or_false] at hx
        rcases hx with rfl | rfl <;> cases tears
  | dispatch h | cancel h | wait h =>
      simp only [Request.program] at hx
      split_ifs at hx <;> simp_all [Instr.tearsDown]
  | waitAll =>
      simp only [Request.program, vfsWaitAll, List.mem_cons, List.not_mem_nil, or_false] at hx
      rcases hx with rfl | rfl <;> cases tears
  | _ =>
      simp only [Request.program, List.mem_singleton] at hx
      rw [hx] at tears
      cases tears

theorem TeardownInv.step (hT : TeardownInv s.calls) (h : step s a = some s') :
    TeardownInv s'.calls := by
  cases a with
  | job j input =>
      simp only [FlowiVfs.step] at h
      split_ifs at h
      obtain ⟨k, d, phase, f, es, -, -, -, rfl⟩ := jobStep_cases h
      exact hT
  | start t request =>
      simp only [FlowiVfs.step] at h
      split_ifs at h with hfree
      cases h
      obtain ⟨main, none⟩ := request.program_teardown (t := t)
      constructor
      · intro k hk x hx tears
        rcases List.mem_append.mp hk with hk | hk
        · exact hT.onMain k hk x hx tears
        · rw [List.mem_singleton.mp hk] at hx ⊢
          exact main x hx tears hfree.2.1
      · intro k hk
        rcases List.mem_append.mp hk with hk | hk
        · exact hT.tidy k hk
        · rw [List.mem_singleton.mp hk]
          exact .of_none fun x hx => none x (List.mem_of_mem_tail hx)
  | exec c sched =>
      obtain ⟨t, i, rest, s₁, new, hc, -, -, hx, rfl⟩ := step_exec h
      obtain ⟨s₀, s₂, hbody, -⟩ := exec_body hx
      obtain ⟨tears, tidy⟩ := body_teardown hbody
      have here := List.mem_of_getElem? hc
      constructor
      · intro k hk x hx ht
        rcases List.mem_or_eq_of_mem_set hk with hk | rfl
        · exact hT.onMain k hk x hx ht
        · rcases List.mem_append.mp hx with hx | hx
          · exact hT.onMain ⟨t, i :: rest⟩ here i List.mem_cons_self (tears x hx ht)
          · exact hT.onMain ⟨t, i :: rest⟩ here x (List.mem_cons_of_mem i hx) ht
      · intro k hk
        rcases List.mem_or_eq_of_mem_set hk with hk | rfl
        · exact hT.tidy k hk
        · by_cases wait : ∃ jobs, i = .waitJobs jobs
          · obtain ⟨jobs, rfl⟩ := wait
            have back : ∀ x ∈ rest.tail, x.unlisted = none := hT.tidy _ here
            cases jobs with
            | nil =>
                cases hbody
                exact .of_none back
            | cons j js =>
                simp only [execBody] at hbody
                split_ifs at hbody
                cases hbody
                exact back
          · exact tidy.append ((hT.tidy _ here).later fun jobs same => wait ⟨jobs, same⟩)

theorem teardown_reaches {ok : VfsState → Action → Prop} (h : Reaches step ok .init s) :
    TeardownInv s.calls := by
  refine h.invariant (P := fun s => TeardownInv s.calls) ?_ ?_
  · exact ⟨by simp [VfsState.init], by simp [VfsState.init]⟩
  · exact fun _ _ _ hT _ hstep => hT.step hstep

/-- While the main thread looks at the mount list no mount is off it and not emptied. -/
theorem TeardownInv.alone (hT : TeardownInv s.calls) (hS : Stacked s.calls)
    (hc : s.calls[c]? = some ⟨t, .destroyLoop :: rest⟩) (htop : s.onTop c t = true) :
    ∀ i ∈ s.frames, i.unlisted = none := by
  intro i hi
  by_contra listed
  obtain ⟨k, hk, hi⟩ := List.mem_flatMap.mp hi
  have tears : i.tearsDown = true := by
    cases i <;> first | rfl | exact absurd rfl listed
  have main : k.thread = t :=
    (hT.onMain k hk i hi tears).trans (hT.onMain _ (List.mem_of_getElem? hc) _
      List.mem_cons_self rfl).symm
  obtain ⟨n, hn⟩ := List.mem_iff_getElem?.mp hk
  rcases Nat.lt_trichotomy n c with before | rfl | after
  · have out := hS.below n c k _ before hn hc main (by simp)
    cases todo : k.todo with
    | nil =>
        rw [todo] at hi
        cases hi
    | cons y ys =>
        have head : y.callsOut = true := by simpa [Call.callsOut, todo] using out
        have tidy := hT.tidy k hk
        rw [todo] at tidy hi
        rcases List.mem_cons.mp hi with rfl | hi
        · cases i <;> first | exact absurd rfl listed | cases head
        · apply listed
          refine tidy.later ?_ i hi
          rintro jobs rfl
          cases head
  · rw [hc] at hn
    cases hn
    rcases List.mem_cons.mp hi with rfl | hi
    · exact listed rfl
    · exact listed ((hT.tidy _ hk).later (by simp) i hi)
  · have later : k ∈ s.calls.drop (c + 1) := by
      rw [List.mem_iff_getElem?]
      refine ⟨n - (c + 1), ?_⟩
      rw [List.getElem?_drop, show c + 1 + (n - (c + 1)) = n by omega]
      exact hn
    have empty := List.all_eq_true.mp htop k later
    simp only [Bool.or_eq_true, bne_iff_ne, List.isEmpty_iff] at empty
    rcases empty with other | none
    · exact other main
    · rw [none] at hi
      cases hi

/-- `vfs_destroy` frees every handle. -/
theorem destroyed_empty (h : Reaches step Careful .init s) :
    s.destroyed = true → ∀ p, s.pool p = none := by
  refine h.invariant_of (I := fun s => (s.destroyed = false → Torn s s.frames) ∧
      Stacked s.calls ∧ TeardownInv s.calls)
    (fun s h => ⟨torn_reaches h, stacked_reaches h, teardown_reaches h⟩)
    (P := fun s => s.destroyed = true → ∀ p, s.pool p = none) (fun dead => by cases dead) ?_
  rintro u a v ⟨hT, hS, hD⟩ - empty - hstep dead p
  rw [(destroyed_core hstep dead).1]
  cases live : u.destroyed with
  | true => exact empty live p
  | false =>
      obtain ⟨c, sched, t, rest, rfl, hc, hlist, -⟩ := step_destroys hstep live dead
      obtain ⟨t', i', rest', s₁, new, hc', htop, -, -, -⟩ := step_exec hstep
      rw [hc] at hc'
      cases hc'
      cases hd : u.pool p with
      | none => rfl
      | some d =>
          rcases (hT live).housed p d hd with listed | ⟨i, hi, off⟩
          · rw [hlist] at listed
            cases listed
          · rw [hD.alone hS hc htop i hi] at off
            cases off

end Runs

end FlowiVfs
