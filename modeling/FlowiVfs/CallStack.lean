import FlowiVfs.FileChains

/-!
# The calls of a thread form a stack

A thread enters a new call only from code of the caller that an older call has
reached, and only its newest unfinished call moves. So while a call is between
two of its own program points no other call of the same thread is: in
particular the windows of the main thread never overlap.
-/
namespace FlowiVfs

/-- The program points left, each with its thread. -/
def VfsState.threadFrames (s : VfsState) : List (Thread × Instr) :=
  s.calls.flatMap fun k => k.todo.map fun i => (k.thread, i)

theorem threadFrames_frames (s : VfsState) : s.threadFrames.map Prod.snd = s.frames := by
  simp [VfsState.threadFrames, VfsState.frames, List.map_flatMap, Function.comp_def]

/-- The points of the calls other than `c`, and of `c` after its current point. -/
def VfsState.otherFrames (s : VfsState) (c : ℕ) (t : Thread) (rest : List Instr) :
    List (Thread × Instr) :=
  ((s.calls.take c).flatMap fun k => k.todo.map fun i => (k.thread, i)) ++
    rest.map (fun i => (t, i)) ++
    (s.calls.drop (c + 1)).flatMap fun k => k.todo.map fun i => (k.thread, i)

structure Stacked (calls : List Call) : Prop where
  /-- Below an unfinished call of a thread its calls are in code of the caller. -/
  below : ∀ (c c' : ℕ) (k k' : Call), c < c' → calls[c]? = some k → calls[c']? = some k' →
    k.thread = k'.thread → k'.todo ≠ [] → k.callsOut = true
  /-- Only the point a call is at has a window open. -/
  tails : ∀ k ∈ calls, ∀ i ∈ k.todo.tail, i.window = none

section Stack

variable {s s' : VfsState} {c : ℕ} {t : Thread} {i : Instr} {rest new : List Instr} {a : Action}
  {sched : Sched}

theorem threadFrames_split (h : s.calls[c]? = some ⟨t, i :: rest⟩) :
    s.threadFrames.Perm ((t, i) :: s.otherFrames c t rest) := by
  obtain ⟨hlt, hget⟩ := List.getElem?_eq_some_iff.mp h
  have hsplit : s.calls = s.calls.take c ++ ⟨t, i :: rest⟩ :: s.calls.drop (c + 1) := by
    rw [← hget, List.getElem_cons_drop, List.take_append_drop]
  have hcalls : s.threadFrames = ((s.calls.take c).flatMap fun k => k.todo.map fun i =>
      (k.thread, i)) ++ (t, i) :: (rest.map (fun i => (t, i)) ++
        (s.calls.drop (c + 1)).flatMap fun k => k.todo.map fun i => (k.thread, i)) := by
    unfold VfsState.threadFrames
    conv_lhs => rw [hsplit]
    simp
  rw [hcalls, VfsState.otherFrames, List.append_assoc]
  exact List.perm_middle

theorem threadFrames_set {s₁ : VfsState} (h : s.calls[c]? = some ⟨t, i :: rest⟩)
    (h₁ : s₁.calls = s.calls.set c ⟨t, new ++ rest⟩) :
    s₁.threadFrames.Perm (new.map (fun i => (t, i)) ++ s.otherFrames c t rest) := by
  obtain ⟨hlt, -⟩ := List.getElem?_eq_some_iff.mp h
  have hcalls : s₁.threadFrames = ((s.calls.take c).flatMap fun k => k.todo.map fun i =>
      (k.thread, i)) ++ (new.map (fun i => (t, i)) ++ (rest.map (fun i => (t, i)) ++
        (s.calls.drop (c + 1)).flatMap fun k => k.todo.map fun i => (k.thread, i))) := by
    rw [VfsState.threadFrames, h₁, List.set_eq_take_append_cons_drop, if_pos hlt]
    simp
  rw [hcalls, VfsState.otherFrames, List.append_assoc]
  exact List.perm_append_comm_assoc _ _ _

/-- While a call moves, the other points of its thread with a window are calling out. -/
theorem Stacked.alone (hS : Stacked s.calls) (h : s.calls[c]? = some ⟨t, i :: rest⟩)
    (htop : s.onTop c t = true) :
    ∀ x ∈ s.otherFrames c t rest, x.1 = t → x.2.window ≠ none → x.2.callsOut = true := by
  intro x hx ht hw
  simp only [VfsState.otherFrames, List.mem_append, List.mem_flatMap, List.mem_map] at hx
  rcases hx with (⟨k, hk, y, hy, rfl⟩ | ⟨y, hy, rfl⟩) | ⟨k, hk, y, hy, rfl⟩
  · obtain ⟨n, hn, hget⟩ := List.mem_iff_getElem.mp hk
    rw [List.getElem_take] at hget
    rw [List.length_take] at hn
    have hkget : s.calls[n]? = some k := by
      rw [List.getElem?_eq_some_iff]
      exact ⟨by omega, hget⟩
    have hout := hS.below n c k ⟨t, i :: rest⟩ (by omega) hkget h ht (by simp)
    cases htodo : k.todo with
    | nil => simp [htodo] at hy
    | cons z zs =>
        rw [htodo] at hy
        rcases List.mem_cons.mp hy with rfl | hy
        · simpa [Call.callsOut, htodo] using hout
        · exact absurd (hS.tails k (List.mem_of_mem_take hk) y (by simpa [htodo] using hy)) hw
  · refine absurd (hS.tails _ (List.mem_of_getElem? h) y (by simpa using hy)) hw
  · unfold VfsState.onTop at htop
    have := List.all_eq_true.mp htop k hk
    simp only [Bool.or_eq_true, bne_iff_ne, List.isEmpty_iff] at this
    rcases this with hne | hempty
    · exact absurd ht hne
    · simp [hempty] at hy

/-- The points a body leaves after its first one have no window open. -/
theorem body_tail (hx : execBody s c t sched i = some (s', new)) :
    ∀ x ∈ new.tail, x.window = none := by
  cases execBody_some hx with
  | launch h => cases h <;> simp
  | mount h => cases h <;> simp
  | dispatch h => cases h <;> simp
  | chain h => cases h <;> simp
  | close h => cases h <;> simp [Instr.window]
  | teardown h => cases h <;> simp [Instr.window]

theorem Stacked.step (hS : Stacked s.calls) (h : step s a = some s') : Stacked s'.calls := by
  cases a with
  | job j input =>
      simp only [FlowiVfs.step] at h
      split_ifs at h
      obtain ⟨k, d, phase, f, es, -, -, -, rfl⟩ := jobStep_cases h
      exact hS
  | start t request =>
      simp only [FlowiVfs.step] at h
      split_ifs at h with hfree
      cases h
      refine ⟨fun c c' k k' hlt hk hk' ht hne => ?_, fun k hk => ?_⟩
      · have hc' : c' < s.calls.length + 1 := by
          have := (List.getElem?_eq_some_iff.mp hk').1
          simpa using this
        rw [List.getElem?_append_left (by omega)] at hk
        by_cases hlast : c' < s.calls.length
        · rw [List.getElem?_append_left hlast] at hk'
          exact hS.below c c' k k' hlt hk hk' ht hne
        · have hc : c' = s.calls.length := by omega
          subst hc
          simp only [List.getElem?_concat_length, Option.some.injEq] at hk'
          subst hk'
          have hall := hfree.2.2
          unfold VfsState.threadFree at hall
          have := List.all_eq_true.mp hall k (List.mem_of_getElem? hk)
          simp only [Bool.or_eq_true, bne_iff_ne] at this
          exact this.resolve_left (fun hn => hn ht)
      · rcases List.mem_append.mp hk with hk | hk
        · exact hS.tails k hk
        · simp only [List.mem_singleton] at hk
          subst hk
          exact fun i hi => (program_quiet request i (List.mem_of_mem_tail hi)).2.1
  | exec c sched =>
      obtain ⟨t, i, rest, s₁, new, hc, htop, -, hx, rfl⟩ := step_exec h
      obtain ⟨s₀, s₂, hbody, -⟩ := exec_body hx
      have hclt := (List.getElem?_eq_some_iff.mp hc).1
      refine ⟨fun n n' k k' hlt hk hk' ht hne => ?_, fun k hk => ?_⟩
      · simp only [List.getElem?_set] at hk hk'
        by_cases hn' : c = n'
        · subst hn'
          simp only [hclt, if_true, Option.some.injEq] at hk'
          subst hk'
          have hnc : c ≠ n := by omega
          rw [if_neg hnc] at hk
          exact hS.below n c k _ hlt hk hc ht (by simp)
        · rw [if_neg hn'] at hk'
          by_cases hn : c = n
          · subst hn
            simp only [hclt, if_true, Option.some.injEq] at hk
            subst hk
            unfold VfsState.onTop at htop
            have hmem : k' ∈ s.calls.drop (c + 1) := by
              rw [List.mem_iff_getElem?]
              refine ⟨n' - (c + 1), ?_⟩
              rw [List.getElem?_drop, show c + 1 + (n' - (c + 1)) = n' by omega]
              exact hk'
            have := List.all_eq_true.mp htop k' hmem
            simp only [Bool.or_eq_true, bne_iff_ne, List.isEmpty_iff] at this
            rcases this with hd | he
            · exact absurd ht.symm hd
            · exact absurd he hne
          · rw [if_neg hn] at hk
            exact hS.below n n' k k' hlt hk hk' ht hne
      · rcases List.mem_or_eq_of_mem_set hk with hk | rfl
        · exact hS.tails k hk
        · intro y hy
          have hrest : ∀ z ∈ rest, z.window = none := fun z hz =>
            hS.tails _ (List.mem_of_getElem? hc) z (by simpa using hz)
          cases new with
          | nil => exact hrest y (List.mem_of_mem_tail (by simpa using hy))
          | cons z zs =>
              simp only [List.cons_append, List.tail_cons, List.mem_append] at hy
              rcases hy with hy | hy
              · exact body_tail hbody y (by simpa using hy)
              · exact hrest y hy

theorem stacked_init : Stacked VfsState.init.calls :=
  ⟨by simp [VfsState.init], by simp [VfsState.init]⟩

theorem stacked_reaches {ok : VfsState → Action → Prop}
    (h : Transition.Reaches step ok .init s) : Stacked s.calls :=
  h.invariant (P := fun s => Stacked s.calls) stacked_init fun _ _ _ hS _ hstep => hS.step hstep

end Stack

end FlowiVfs
