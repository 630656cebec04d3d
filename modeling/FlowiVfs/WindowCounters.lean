import FlowiVfs.CallStack
import FlowiVfs.HandleIds

/-!
# The two counters kept by hand

`pending_dispatches` of a handle and `closed_count` of the VFS are raised in one critical
section and lowered in another, some of which look the handle up again by its id. As long as
no id is given out twice and no mount is closed, the first is the number of scheduling windows
that calls have open on the handle, and the second the number of closed handles in the map.
Nothing is asked of the callers: a handle may be dispatched again, chained onto or closed while
windows are open on it.
-/
namespace FlowiVfs

open Transition

/-- The points of `vfs_mount_close`, and of the loop of `vfs_destroy` that calls it. -/
def Instr.closesMount : Instr → Bool
  | .mountUnlist _ | .mountSnapshot _ | .mountDrain _ _ | .mountFree _ _ | .mountDestroy _
  | .destroyLoop => true
  | _ => false

/-- No step is one of closing a mount. -/
def ClosesNoMount (s : VfsState) : Action → Prop
  | .exec c _ => ∀ i ∈ headInstr s c, i.closesMount = false
  | _ => True

instance (s : VfsState) (a : Action) : Decidable (ClosesNoMount s a) :=
  match a with
  | .exec c _ => inferInstanceAs (Decidable (∀ i ∈ headInstr s c, i.closesMount = false))
  | .start _ _ | .job _ _ => inferInstanceAs (Decidable True)

/-- Handle ids are unique and no mount is being closed. -/
def Steady (s : VfsState) (a : Action) : Prop := FreshIds s a ∧ ClosesNoMount s a

instance (s : VfsState) (a : Action) : Decidable (Steady s a) :=
  inferInstanceAs (Decidable (_ ∧ _))

/-- The handles in the map with `closed` set. -/
def closedHandles (s : VfsState) : List HandlePtr :=
  ((mapEntries s).filter fun e => e.2.2.closed).map fun e => e.2.1

/-- The counters count. -/
structure Counters (s : VfsState) (F : List Instr) : Prop where
  owned : ∀ p, owners F p = ownersAt s p
  windows : ∀ p, (openWindows F p : ℤ) = pendingAt s p
  windowMapped : ∀ i ∈ F, ∀ h p, i.window = some (h, p) → s.mapGet h = some p
  closedMapped : ∀ p d, s.pool p = some d → d.closed = true → s.mapGet d.id = some p
  closedCount : s.closedCount = (closedHandles s).length

/-- No handle with an open window is freed. -/
def Spared (s s' : VfsState) : Prop :=
  ∀ p d, s.pool p = some d → d.pendingDispatches ≠ 0 → ∃ d', s'.pool p = some d'

/-! ## Counting the closed handles -/

section Closed

variable {s s' : VfsState} {p q : HandlePtr} {d : VfsHandleData}

theorem mem_closedHandles (hI : IdInv s) : p ∈ closedHandles s ↔
    ∃ d, s.pool p = some d ∧ d.closed = true ∧ s.mapGet d.id = some p := by
  simp only [closedHandles, List.mem_map, List.mem_filter]
  constructor
  · rintro ⟨⟨h, q, d⟩, ⟨hmem, hclosed⟩, rfl⟩
    obtain ⟨hmap, hd⟩ := mem_mapEntries.mp hmem
    obtain ⟨e, he, hid⟩ := hI.mapped h q hmap
    have hed : e = d := Option.some.inj (he.symm.trans hd)
    subst hed
    exact ⟨e, he, hclosed, hid ▸ hmap⟩
  · rintro ⟨d, hd, hclosed, hmap⟩
    exact ⟨(d.id, p, d), ⟨mem_mapEntries.mpr ⟨hmap, hd⟩, hclosed⟩, rfl⟩

theorem closedHandles_nodup (hI : IdInv s) : (closedHandles s).Nodup := by
  have hentries : (mapEntries s).Nodup := by
    refine s.handleMap.nodupKeys.nodup.filterMap ?_
    rintro ⟨h, p⟩ ⟨h', p'⟩ b hb hb'
    simp only [Option.mem_def, Option.map_eq_some_iff] at hb hb'
    obtain ⟨d, -, rfl⟩ := hb
    obtain ⟨d', -, heq⟩ := hb'
    simp only [Prod.mk.injEq] at heq
    rw [heq.1, heq.2.1]
  refine (hentries.filter _).map_on ?_
  rintro ⟨h, p, d⟩ hx ⟨h', p', d'⟩ hy hp
  obtain ⟨hmap, hd⟩ := mem_mapEntries.mp (List.mem_filter.mp hx).1
  obtain ⟨hmap', hd'⟩ := mem_mapEntries.mp (List.mem_filter.mp hy).1
  have hpp : p = p' := hp
  subst hpp
  obtain ⟨e, he, hid⟩ := hI.mapped h p hmap
  obtain ⟨e', he', hid'⟩ := hI.mapped h' p hmap'
  have hdd : d = d' := Option.some.inj (hd.symm.trans hd')
  have hee : e = e' := Option.some.inj (he.symm.trans he')
  rw [← hid, ← hid', hdd, hee]

/-- A change that closes no handle and frees no closed one leaves their number. -/
theorem closedHandles_same (hI : IdInv s) (hI' : IdInv s')
    (hmem : ∀ q, q ∈ closedHandles s' ↔ q ∈ closedHandles s) :
    (closedHandles s').length = (closedHandles s).length :=
  ((List.perm_ext_iff_of_nodup (closedHandles_nodup hI') (closedHandles_nodup hI)).mpr
    hmem).length_eq

/-- One more closed handle. -/
theorem closedHandles_grow (hI : IdInv s) (hI' : IdInv s') (hp : p ∉ closedHandles s)
    (hmem : ∀ q, q ∈ closedHandles s' ↔ q = p ∨ q ∈ closedHandles s) :
    (closedHandles s').length = (closedHandles s).length + 1 := by
  have hnodup : (p :: closedHandles s).Nodup := List.nodup_cons.mpr ⟨hp, closedHandles_nodup hI⟩
  have hperm : (closedHandles s').Perm (p :: closedHandles s) := by
    refine (List.perm_ext_iff_of_nodup (closedHandles_nodup hI') hnodup).mpr fun q => ?_
    rw [hmem, List.mem_cons]
  rw [hperm.length_eq, List.length_cons]

end Closed

/-! ## What each change does to the counters -/

namespace Counters

variable {s s' : VfsState} {F G new : List Instr} {i y : Instr} {p q : HandlePtr}
  {d : VfsHandleData} {h : FlVfsHandle} {f : VfsHandleData → VfsHandleData}

theorem perm (hC : Counters s F) (hp : F.Perm G) : Counters s G where
  owned p := (owners_perm hp).symm.trans (hC.owned p)
  windows p := (openWindows_perm hp) ▸ hC.windows p
  windowMapped i hi := hC.windowMapped i (hp.mem_iff.mpr hi)
  closedMapped := hC.closedMapped
  closedCount := hC.closedCount

theorem same (hC : Counters s F) (hpool : s'.pool = s.pool) (hmap : s'.handleMap = s.handleMap)
    (hcount : s'.closedCount = s.closedCount) : Counters s' F := by
  have hget : ∀ h, s'.mapGet h = s.mapGet h := fun h => VfsState.mapGet_congr hmap
  have hclosed : closedHandles s' = closedHandles s := by
    simp only [closedHandles, mapEntries, hpool, hmap]
  refine ⟨fun p => ?_, fun p => ?_, fun i hi h p hw => ?_, fun p d hd hc => ?_, ?_⟩
  · simpa only [ownersAt, hpool, hget] using hC.owned p
  · simpa only [pendingAt, hpool] using hC.windows p
  · rw [hget]
    exact hC.windowMapped i hi h p hw
  · rw [hget]
    exact hC.closedMapped p d (hpool ▸ hd) hc
  · rw [hcount, hclosed, hC.closedCount]

theorem windowMapped_swap (hC : Counters s (i :: F)) (hwin : y.window = i.window) :
    ∀ x ∈ y :: F, ∀ h p, x.window = some (h, p) → s.mapGet h = some p := by
  intro x hx h p hw
  cases List.mem_cons.mp hx with
  | inl heq =>
      subst heq
      exact hC.windowMapped i List.mem_cons_self h p (hwin ▸ hw)
  | inr hx => exact hC.windowMapped x (List.mem_cons_of_mem _ hx) h p hw

/-- A call goes on with what it holds. -/
theorem goOn (hC : Counters s (i :: F)) (howns : y.owns = i.owns) (hwin : y.window = i.window) :
    Counters s (y :: F) where
  owned p := by
    have := hC.owned p
    rw [owners_cons] at this ⊢
    rwa [howns]
  windows p := by
    have := hC.windows p
    rw [openWindows_cons] at this ⊢
    rwa [hwin]
  windowMapped := hC.windowMapped_swap hwin
  closedMapped := hC.closedMapped
  closedCount := hC.closedCount

theorem drop (hC : Counters s (i :: F)) (howns : i.owns = none) (hwin : i.window = none) :
    Counters s F where
  owned p := by simpa [owners_cons, howns] using hC.owned p
  windows p := by simpa [openWindows_cons, hwin] using hC.windows p
  windowMapped x hx := hC.windowMapped x (List.mem_cons_of_mem _ hx)
  closedMapped := hC.closedMapped
  closedCount := hC.closedCount

theorem push (hC : Counters s F) (howns : i.owns = none) (hwin : i.window = none) :
    Counters s (i :: F) where
  owned p := by simpa [owners_cons, howns] using hC.owned p
  windows p := by simpa [openWindows_cons, hwin] using hC.windows p
  windowMapped x hx h p hw := by
    cases List.mem_cons.mp hx with
    | inl heq =>
        subst heq
        rw [hwin] at hw
        cases hw
    | inr hx => exact hC.windowMapped x hx h p hw
  closedMapped := hC.closedMapped
  closedCount := hC.closedCount

theorem pushAll (hC : Counters s F) (hnew : ∀ x ∈ new, x.owns = none ∧ x.window = none) :
    Counters s (new ++ F) := by
  induction new with
  | nil => exact hC
  | cons i new ih =>
      obtain ⟨howns, hwin⟩ := hnew i List.mem_cons_self
      exact (ih fun x hx => hnew x (List.mem_cons_of_mem _ hx)).push howns hwin

theorem owner_private (hC : Counters s F) (hi : i ∈ F) (ho : i.owns = some p) :
    ∃ d, s.pool p = some d ∧ s.mapGet d.id ≠ some p := by
  have hpos := owners_pos hi ho
  rw [hC.owned p, ownersAt] at hpos
  split at hpos
  · omega
  · rename_i d hd
    exact ⟨d, hd, fun he => by simp [he] at hpos⟩

theorem window_live (hC : Counters s F) (hI : IdInv s) (hi : i ∈ F)
    (hw : i.window = some (h, p)) : ∃ d, s.pool p = some d ∧ s.mapGet h = some p := by
  have hmap := hC.windowMapped i hi h p hw
  obtain ⟨d, hd, -⟩ := hI.mapped h p hmap
  exact ⟨d, hd, hmap⟩

/-! ### Writing to a handle -/

/-- Writing fields that keep the handle in its place. -/
theorem modify (hC : Counters s F) (hI : IdInv s)
    (hf : ∀ d, (f d).id = d.id ∧ (f d).closed = d.closed) (ho : ∀ q, owners G q = owners F q)
    (hw : ∀ q, (openWindows G q : ℤ) = pendingAt (s.modify p f) q)
    (hm : ∀ x ∈ G, ∀ h q, x.window = some (h, q) → s.mapGet h = some q) :
    Counters (s.modify p f) G := by
  have hI' : IdInv (s.modify p f) := hI.modify fun d => (hf d).1
  have hback : ∀ {q e}, (s.modify p f).pool q = some e →
      ∃ d, s.pool q = some d ∧ e.id = d.id ∧ e.closed = d.closed := by
    intro q e he
    rcases modify_some he with ⟨rfl, d, hd, rfl⟩ | ⟨-, hd⟩
    · exact ⟨d, hd, hf d⟩
    · exact ⟨e, hd, rfl, rfl⟩
  have hforth : ∀ {q d}, s.pool q = some d →
      ∃ e, (s.modify p f).pool q = some e ∧ e.id = d.id ∧ e.closed = d.closed := by
    intro q d hd
    rw [VfsState.modify_pool]
    split_ifs with hq
    · subst hq
      exact ⟨f d, by rw [hd]; rfl, hf d⟩
    · exact ⟨d, hd, rfl, rfl⟩
  refine ⟨fun q => ?_, hw, hm, fun q e he hc => ?_, ?_⟩
  · rw [ho q, hC.owned q]
    unfold ownersAt
    cases hd : s.pool q with
    | none =>
        have hnone : (s.modify p f).pool q = none := by
          rw [VfsState.modify_pool]
          split_ifs with hq
          · rw [← hq, hd]
            rfl
          · exact hd
        rw [hnone]
    | some d =>
        obtain ⟨e, he, hid, -⟩ := hforth hd
        simp only [he, hid, VfsState.modify_mapGet]
  · obtain ⟨d, hd, hid, hclosed⟩ := hback he
    rw [VfsState.modify_mapGet, hid]
    exact hC.closedMapped q d hd (hclosed ▸ hc)
  · have hsame := closedHandles_same hI hI' fun q => by
      rw [mem_closedHandles hI', mem_closedHandles hI]
      constructor
      · rintro ⟨e, he, hc, hmap⟩
        obtain ⟨d, hd, hid, hclosed⟩ := hback he
        exact ⟨d, hd, hclosed ▸ hc, hid ▸ hmap⟩
      · rintro ⟨d, hd, hc, hmap⟩
        obtain ⟨e, he, hid, hclosed⟩ := hforth hd
        exact ⟨e, he, hclosed ▸ hc, hid ▸ hmap⟩
    rw [hsame]
    exact hC.closedCount

theorem touch (hC : Counters s F) (hI : IdInv s) (hf : ∀ d, (f d).id = d.id ∧
    (f d).closed = d.closed ∧ (f d).pendingDispatches = d.pendingDispatches) :
    Counters (s.modify p f) F := by
  refine hC.modify hI (fun d => ⟨(hf d).1, (hf d).2.1⟩) (fun _ => rfl) (fun q => ?_)
    hC.windowMapped
  rw [hC.windows q]
  cases hd : s.pool p with
  | none =>
      unfold pendingAt
      rw [VfsState.modify_pool, hd]
      split_ifs with hq
      · rw [hq, hd]
        rfl
      · rfl
  | some d =>
      rw [pendingAt_modify hd]
      split_ifs with hq
      · rw [hq, pendingAt, hd, (hf d).2.2]
      · rfl

/-- A call opens a window on a handle of the map. -/
theorem raise (hC : Counters s F) (hI : IdInv s) (hmap : s.mapGet h = some p)
    (hd : s.pool p = some d) (howns : i.owns = none) (hwin : i.window = some (h, p)) :
    Counters (s.modify p openWindow) (i :: F) := by
  refine hC.modify hI (fun d => ⟨rfl, rfl⟩) (fun q => ?_) (fun q => ?_) (fun x hx h' q hw => ?_)
  · rw [owners_cons, howns]
    rfl
  · have hwindows := hC.windows q
    rw [openWindows_cons, hwin, pendingAt_modify hd]
    by_cases hq : q = p
    · rw [hq, pendingAt, hd] at hwindows
      simp [hq, openWindow, hwindows]
    · simpa [hq, Ne.symm hq] using hwindows
  · cases List.mem_cons.mp hx with
    | inl heq =>
        subst heq
        rw [hwin] at hw
        cases hw
        exact hmap
    | inr hx => exact hC.windowMapped x hx h' q hw

/-- A call closes its window. -/
theorem lower (hC : Counters s (i :: F)) (hI : IdInv s) (hwin : i.window = some (h, p))
    (hf : ∀ d, (f d).id = d.id ∧ (f d).closed = d.closed ∧
      (f d).pendingDispatches = d.pendingDispatches - 1)
    (howns : y.owns = i.owns) (hwin' : y.window = none) :
    Counters (s.modify p f) (y :: F) := by
  obtain ⟨d, hd, -⟩ := hC.window_live hI List.mem_cons_self hwin
  refine hC.modify hI (fun d => ⟨(hf d).1, (hf d).2.1⟩) (fun q => ?_) (fun q => ?_)
    (fun x hx h' q hw => ?_)
  · rw [owners_cons, owners_cons, howns]
  · have hwindows := hC.windows q
    rw [openWindows_cons, hwin] at hwindows
    rw [openWindows_cons, hwin', pendingAt_modify hd, (hf d).2.2]
    by_cases hq : q = p
    · rw [hq, pendingAt, hd] at hwindows
      simp only [Option.map_some, if_true, Nat.cast_add, Nat.cast_one] at hwindows
      simp only [hq, Option.map_none, reduceCtorEq, if_false, if_true, Nat.add_zero]
      omega
    · simpa [hq, Ne.symm hq] using hwindows
  · cases List.mem_cons.mp hx with
    | inl heq =>
        subst heq
        rw [hwin'] at hw
        cases hw
    | inr hx => exact hC.windowMapped x (List.mem_cons_of_mem _ hx) h' q hw

/-- The last section of `vfs_close` that defers: one more closed handle. -/
theorem close (hC : Counters s F) (hI : IdInv s) (hmap : s.mapGet d.id = some p)
    (hd : s.pool p = some d) (hopen : d.closed = false) :
    Counters ({ s with closedCount := s.closedCount + 1 }.modify p
      fun d => { d with closed := true }) F := by
  have hI' : IdInv ({ s with closedCount := s.closedCount + 1 }.modify p
      fun d => { d with closed := true }) :=
    (hI.same { s with closedCount := s.closedCount + 1 } rfl rfl rfl ⟨[], rfl, by simp⟩).modify
      fun _ => rfl
  have hpool : ∀ q, ({ s with closedCount := s.closedCount + 1 }.modify p
      fun d => { d with closed := true }).pool q =
        if q = p then some { d with closed := true } else s.pool q := by
    intro q
    rw [VfsState.modify_pool, hd]
    rfl
  refine ⟨fun q => ?_, fun q => ?_, hC.windowMapped, fun q e he hc => ?_, ?_⟩
  · rw [hC.owned q]
    unfold ownersAt
    rw [hpool q]
    split_ifs with hq
    · rw [hq, hd]
      rfl
    · rfl
  · rw [hC.windows q]
    unfold pendingAt
    rw [hpool q]
    split_ifs with hq
    · rw [hq, hd]
    · rfl
  · rw [hpool q] at he
    split_ifs at he with hq
    · cases he
      exact hq ▸ hmap
    · exact hC.closedMapped q e he hc
  · have hgrow := closedHandles_grow hI hI' (p := p)
      (by
        rw [mem_closedHandles hI]
        rintro ⟨e, he, hc, -⟩
        rw [hd] at he
        cases he
        rw [hopen] at hc
        cases hc)
      fun q => by
        rw [mem_closedHandles hI', mem_closedHandles hI, hpool q]
        by_cases hq : q = p
        · simp only [hq, if_true, true_or, iff_true]
          exact ⟨_, rfl, rfl, hmap⟩
        · simp only [hq, if_false, false_or]
          rfl
    rw [hgrow]
    push_cast
    rw [← hC.closedCount]
    rfl

/-! ### Birth, publication and freeing -/

/-- A handle is born, private to the call that allocated it. -/
theorem alloc {params : VfsOpParams} (hC : Counters s (i :: F)) (hI : IdInv s)
    (halloc : allocateHandle s params = some (p, s'))
    (hid : UnusedId s (s.idFor params.reuseHandle)) (howns : i.owns = none)
    (howns' : y.owns = some p) (hwin : y.window = i.window) : Counters s' (y :: F) := by
  have hI' : IdInv s' := hI.alloc halloc hid
  have hcount : s'.closedCount = s.closedCount := by
    unfold allocateHandle at halloc
    by_cases hr : params.reuseHandle ≠ FL_VFS_HANDLE_INVALID ∧
        (s.mapGet params.reuseHandle).isSome = true
    · rw [if_pos hr] at halloc
      cases halloc
    · rw [if_neg hr] at halloc
      cases halloc
      rfl
  obtain ⟨rfl, -, hpool, -, hmap, -⟩ := allocateHandle_some halloc
  have hget : ∀ h, s'.mapGet h = s.mapGet h := fun h => VfsState.mapGet_congr hmap
  have hnone : s.pool s.nextPtr = none := by
    by_contra hne
    obtain ⟨d, hd⟩ := Option.ne_none_iff_exists'.mp hne
    exact Nat.lt_irrefl _ (hI.bound _ d hd)
  have hborn : s'.pool s.nextPtr = some (newHandleData (s.idFor params.reuseHandle) params) := by
    rw [hpool, Function.update_self]
  have hother : ∀ q ≠ s.nextPtr, s'.pool q = s.pool q := fun q hq => by
    rw [hpool, Function.update_of_ne hq]
  have hunmapped : s.mapGet (s.idFor params.reuseHandle) ≠ some s.nextPtr := by
    intro hm
    obtain ⟨d, hd, -⟩ := hI.mapped _ _ hm
    rw [hnone] at hd
    cases hd
  refine ⟨fun q => ?_, fun q => ?_, fun x hx h q hw => ?_, fun q e he hc => ?_, ?_⟩
  · have howned := hC.owned q
    rw [owners_cons, howns] at howned
    rw [owners_cons, howns', ownersAt_alloc halloc hnone hunmapped, ← howned]
    simp
  · rw [pendingAt_alloc halloc hnone, ← hC.windows q, openWindows_cons, openWindows_cons, hwin]
  · rw [hget]
    exact hC.windowMapped_swap hwin x hx h q hw
  · by_cases hq : q = s.nextPtr
    · rw [hq, hborn] at he
      cases he
      cases hc
    · rw [hget]
      exact hC.closedMapped q e (hother q hq ▸ he) hc
  · rw [hcount, hC.closedCount, closedHandles_same hI hI' fun q => ?_]
    rw [mem_closedHandles hI', mem_closedHandles hI]
    by_cases hq : q = s.nextPtr
    · subst hq
      simp [hborn, hnone, newHandleData]
    · simp only [hother q hq, hget]

/-- The owner of a handle puts it in the map. -/
theorem publish (hC : Counters s (i :: F)) (hI : IdInv s) (howns : i.owns = some p)
    (hwin : i.window = none) : Counters (vfsPublishHandle s p) F := by
  have hI' : IdInv (vfsPublishHandle s p) := hI.publish
  obtain ⟨d, hd, hprivate⟩ := hC.owner_private List.mem_cons_self howns
  obtain ⟨hpool, -⟩ := publish_frame hd
  have hcount : (vfsPublishHandle s p).closedCount = s.closedCount := by
    simp [vfsPublishHandle, hd, VfsState.emit]
  have hother : ∀ q e, s.pool q = some e → q ≠ p →
      (vfsPublishHandle s p).mapGet e.id = s.mapGet e.id := fun q e he hq => by
    rw [publish_mapGet hd, if_neg fun heq => hq (hI.distinct q p e d he hd heq)]
  have hopen : d.closed = false := by
    by_contra hne
    exact hprivate (hC.closedMapped p d hd (by simpa using hne))
  refine ⟨fun q => ?_, fun q => ?_, fun x hx h q hw => ?_, fun q e he hc => ?_, ?_⟩
  · have howned := hC.owned q
    rw [owners_cons, howns, ownersAt_publish hd hprivate
      (fun r e he heq => hI.distinct r p e d he hd heq) q] at howned
    exact Nat.add_right_cancel howned
  · have hwindows := hC.windows q
    rw [openWindows_cons, hwin] at hwindows
    simpa [pendingAt, hpool] using hwindows
  · have hmap := hC.windowMapped x (List.mem_cons_of_mem _ hx) h q hw
    obtain ⟨e, he, hid⟩ := hI.mapped h q hmap
    have hq : q ≠ p := by
      rintro rfl
      rw [hd] at he
      cases he
      exact hprivate (hid ▸ hmap)
    rw [← hid, hother q e he hq, hid, hmap]
  · have hc' := hC.closedMapped q e (hpool ▸ he) hc
    have hq : q ≠ p := by
      rintro rfl
      rw [hpool, hd] at he
      cases he
      exact hprivate hc'
    rw [hother q e (hpool ▸ he) hq, hc']
  · rw [hcount, hC.closedCount, closedHandles_same hI hI' fun q => ?_]
    rw [mem_closedHandles hI', mem_closedHandles hI, hpool]
    refine exists_congr fun e => and_congr_right fun he => and_congr_right fun hc => ?_
    have hq : q ≠ p := by
      rintro rfl
      rw [hd] at he
      cases he
      rw [hopen] at hc
      cases hc
    rw [hother q e he hq]

/-- A handle of the map without an open window is freed. -/
theorem free {cause : FreeCause} (hC : Counters s F) (hI : IdInv s) (hd : s.pool p = some d)
    (hmap : s.mapGet d.id = some p) (hpending : d.pendingDispatches = 0) :
    Counters (vfsFreeHandleLocked s p cause).1 F := by
  have hI' : IdInv (vfsFreeHandleLocked s p cause).1 := hI.free
  have hcount : (vfsFreeHandleLocked s p cause).1.closedCount =
      if d.closed then s.closedCount - 1 else s.closedCount := by
    simp [vfsFreeHandleLocked, hd]
  have hgone : (vfsFreeHandleLocked s p cause).1.pool p = none := by
    rw [(free_live cause hd).1, Function.update_self]
  have hsame : ∀ q e, s.pool q = some e → e.id = d.id → q = p := fun q e he heq =>
    hI.distinct q p e d he hd heq
  have hother : ∀ q e, s.pool q = some e → q ≠ p →
      (vfsFreeHandleLocked s p cause).1.mapGet e.id = s.mapGet e.id := fun q e he hq => by
    rw [free_mapGet cause hd, if_neg fun heq => hq (hsame q e he heq)]
  refine ⟨fun q => ?_, fun q => ?_, fun x hx h q hw => ?_, fun q e he hc => ?_, ?_⟩
  · rw [ownersAt_free cause hd hmap hsame]
    exact hC.owned q
  · rw [pendingAt_free cause hd hpending]
    exact hC.windows q
  · have hm := hC.windowMapped x hx h q hw
    obtain ⟨e, he, hid⟩ := hI.mapped h q hm
    have hq : q ≠ p := by
      rintro rfl
      have hwindows := hC.windows q
      have hpos := openWindows_pos hx hw
      simp only [pendingAt, hd, hpending] at hwindows
      omega
    rw [← hid, hother q e he hq, hid, hm]
  · obtain ⟨hq, he⟩ := free_pool_some he
    rw [hother q e he hq]
    exact hC.closedMapped q e he hc
  · have hmem : ∀ q, q ∈ closedHandles (vfsFreeHandleLocked s p cause).1 ↔
        q ≠ p ∧ q ∈ closedHandles s := by
      intro q
      rw [mem_closedHandles hI', mem_closedHandles hI]
      by_cases hq : q = p
      · simp [hq, hgone]
      · rw [free_kept cause hd hq]
        simp only [ne_eq, hq, not_false_eq_true, true_and]
        exact exists_congr fun e => and_congr_right fun he => by rw [hother q e he hq]
    rw [hcount, hC.closedCount]
    cases hclosed : d.closed with
    | true =>
        have hgrow := closedHandles_grow hI' hI (p := p) (fun hp => ((hmem p).mp hp).1 rfl)
          fun q => by
            rw [hmem]
            by_cases hq : q = p
            · simp only [hq, true_or, iff_true]
              exact (mem_closedHandles hI).mpr ⟨d, hd, hclosed, hmap⟩
            · simp [hq]
        rw [hgrow]
        simp
    | false =>
        rw [closedHandles_same hI hI' fun q => ?_]
        · rfl
        · rw [hmem, and_iff_right_iff_imp]
          rintro hq rfl
          obtain ⟨e, he, hc, -⟩ := (mem_closedHandles hI).mp hq
          rw [hd] at he
          cases he
          rw [hclosed] at hc
          cases hc

/-- Handles are freed one after the other while none of them has an open window. -/
theorem freeHandles {ps : List HandlePtr} {cause : FreeCause} (hC : Counters s F) (hI : IdInv s)
    (hps : ∀ p ∈ ps, ∀ d, s.pool p = some d → s.mapGet d.id = some p ∧ d.pendingDispatches = 0) :
    Counters (FlowiVfs.freeHandles s ps cause).1 F := by
  induction ps generalizing s with
  | nil => exact hC
  | cons p ps ih =>
      cases hd : s.pool p with
      | none =>
          refine ih (by rwa [free_dead hd]) hI.free fun q hq e he => ?_
          rw [free_dead hd] at he ⊢
          exact hps q (List.mem_cons_of_mem _ hq) e he
      | some d =>
          obtain ⟨hmap, hpending⟩ := hps p List.mem_cons_self d hd
          refine ih (hC.free hI hd hmap hpending) hI.free fun q hq e he => ?_
          obtain ⟨hne, he⟩ := free_pool_some he
          obtain ⟨hm, hz⟩ := hps q (List.mem_cons_of_mem _ hq) e he
          refine ⟨?_, hz⟩
          rw [VfsState.mapGet_erase (free_live cause hd).2.1, if_neg, hm]
          exact fun heq => hne (hI.distinct q p e d he hd heq)

end Counters

/-! ## The sweep -/

section Sweep

variable {s : VfsState} {F : List Instr} {p q : HandlePtr} {d : VfsHandleData}

theorem freeHandles_pool (s : VfsState) (ps : List HandlePtr) (cause : FreeCause) (q : HandlePtr) :
    (freeHandles s ps cause).1.pool q = if q ∈ ps then none else s.pool q := by
  induction ps generalizing s with
  | nil => rfl
  | cons p ps ih =>
      have hfree : (vfsFreeHandleLocked s p cause).1.pool q =
          if q = p then none else s.pool q := by
        cases hd : s.pool p with
        | none =>
            rw [free_dead hd]
            split_ifs with hq
            · rw [hq, hd]
            · rfl
        | some d => rw [(free_live cause hd).1, Function.update_apply]
      refine (ih _).trans ?_
      rw [hfree]
      by_cases hq : q = p
      · simp [hq]
      · simp [hq]

/-- What the sweep collects. -/
theorem mem_reclaimable (hI : IdInv s) :
    p ∈ ((mapEntries s).filter fun e => vfsHandleIsReclaimable s e.2.2).map (fun e => e.2.1) ↔
      ∃ d, s.pool p = some d ∧ s.mapGet d.id = some p ∧ d.closed = true ∧
        d.pendingDispatches = 0 ∧ vfsJobsFinished s d.handleJobs = true := by
  simp only [List.mem_map, List.mem_filter, vfsHandleIsReclaimable, Bool.and_eq_true, beq_iff_eq]
  constructor
  · rintro ⟨⟨h, q, d⟩, ⟨hmem, ⟨hclosed, hpending⟩, hjobs⟩, rfl⟩
    obtain ⟨hmap, hd⟩ := mem_mapEntries.mp hmem
    obtain ⟨e, he, hid⟩ := hI.mapped h q hmap
    have hed : e = d := Option.some.inj (he.symm.trans hd)
    subst hed
    exact ⟨e, he, hid ▸ hmap, hclosed, hpending, hjobs⟩
  · rintro ⟨d, hd, hmap, hclosed, hpending, hjobs⟩
    exact ⟨(d.id, p, d), ⟨mem_mapEntries.mpr ⟨hmap, hd⟩, ⟨hclosed, hpending⟩, hjobs⟩, rfl⟩

/-- With `closed_count` at 0 there is nothing to sweep, and otherwise the sweep frees what it
collects, so it frees exactly the closed handles that have come to rest. -/
theorem reclaim_exact (hI : IdInv s) (hC : Counters s F) (hd : s.pool p = some d) :
    (vfsReclaimClosedHandles s).1.pool p = none ↔ d.closed = true ∧ d.pendingDispatches = 0 ∧
      vfsJobsFinished s d.handleJobs = true := by
  unfold vfsReclaimClosedHandles
  split_ifs with hzero
  · have hnil : closedHandles s = [] := by
      have hcount := hC.closedCount
      rw [hzero] at hcount
      exact List.length_eq_zero_iff.mp (by omega)
    rw [hd]
    refine ⟨nofun, fun hrest => ?_⟩
    have hmem := (mem_closedHandles hI).mpr ⟨d, hd, hrest.1, hC.closedMapped p d hd hrest.1⟩
    rw [hnil] at hmem
    cases hmem
  · rw [freeHandles_pool, ite_eq_left_iff, mem_reclaimable hI]
    constructor
    · intro hfreed
      by_contra hne
      have hkept := hfreed fun ⟨e, he, _, hrest⟩ => by
        rw [hd] at he
        cases he
        exact hne hrest
      rw [hd] at hkept
      cases hkept
    · intro hrest hne
      exact absurd ⟨d, hd, hC.closedMapped p d hd hrest.1, hrest⟩ hne

end Sweep

/-! ## Bodies -/

/-- No handle is freed. -/
def KeepsAll (s s' : VfsState) : Prop := ∀ p, (s.pool p).isSome → (s'.pool p).isSome

section Bodies

variable {s s' s'' : VfsState} {F new : List Instr} {i : Instr} {p : HandlePtr}
  {d : VfsHandleData} {h : FlVfsHandle} {c : ℕ} {t : Thread} {sched : Sched} {m : MountPtr}
  {f : VfsHandleData → VfsHandleData}

theorem KeepsAll.same (hpool : s'.pool = s.pool) : KeepsAll s s' := fun p hp => by
  rwa [hpool]

theorem KeepsAll.modify (hK : KeepsAll s s') : KeepsAll s (s'.modify p f) := by
  intro q hq
  rw [VfsState.modify_pool]
  split_ifs with hqp
  · subst hqp
    rw [Option.isSome_map]
    exact hK q hq
  · exact hK q hq

theorem KeepsAll.alloc {params : VfsOpParams} (halloc : allocateHandle s params = some (p, s')) :
    KeepsAll s s' := by
  obtain ⟨-, -, hpool, -⟩ := allocateHandle_some halloc
  intro q hq
  rw [hpool, Function.update_apply]
  split_ifs
  · rfl
  · exact hq

theorem KeepsAll.publish (hK : KeepsAll s s') : KeepsAll s (vfsPublishHandle s' p) := by
  intro q hq
  unfold vfsPublishHandle
  split
  · exact hK q hq
  · exact hK q hq

theorem KeepsAll.spared (hK : KeepsAll s s') : Spared s s' := fun p d hd _ =>
  Option.isSome_iff_exists.mp (hK p (by rw [hd]; rfl))

theorem Spared.congr {s₁ : VfsState} (hS : Spared s s') (hpool : s₁.pool = s'.pool) :
    Spared s s₁ := by
  unfold Spared
  rw [hpool]
  exact hS

theorem Counters.emit {e : Event} (hC : Counters s F) : Counters (s.emit e) F :=
  hC.same rfl rfl rfl

theorem Counters.addJob {k : Job} (hC : Counters s F) : Counters (s.addJob k) F :=
  hC.same rfl rfl rfl

theorem Counters.setJobs {j : FlJobHandle} (hC : Counters s F) (hI : IdInv s) :
    Counters (s.modify p (setJobs j)) F :=
  hC.touch hI fun _ => ⟨rfl, rfl, rfl⟩

theorem Counters.reclaim (hC : Counters s F) (hI : IdInv s) :
    Counters (vfsReclaimClosedHandles s).1 F ∧ Spared s (vfsReclaimClosedHandles s).1 := by
  constructor
  · unfold vfsReclaimClosedHandles
    split_ifs
    · exact hC
    · refine hC.freeHandles hI fun p hp d hd => ?_
      obtain ⟨e, he, hmap, -, hpending, -⟩ := (mem_reclaimable hI).mp hp
      rw [hd] at he
      cases he
      exact ⟨hmap, hpending⟩
  · intro p d hd hpending
    refine Option.ne_none_iff_exists'.mp fun hnone => hpending ?_
    exact ((reclaim_exact hI hC hd).mp hnone).2.1

theorem Counters.closeFinish {borrows : Bool} (hC : Counters s F) (hI : IdInv s) :
    Counters (FlowiVfs.closeFinish s t h borrows).1 F ∧
      Spared s (FlowiVfs.closeFinish s t h borrows).1 := by
  unfold FlowiVfs.closeFinish
  split
  · exact ⟨hC, (KeepsAll.same rfl).spared⟩
  · rename_i p d hl
    obtain ⟨hmap, hd, hopen⟩ := (VfsState.lookupOpenHandle_some p).mp hl
    obtain ⟨e, he, hid⟩ := hI.mapped h p hmap
    rw [hd] at he
    cases he
    split_ifs with hidle
    · have hclosed : IdInv (s.emit (.closed p)) := hI.emit (by simp)
      refine ⟨hC.emit.free hclosed hd (hid ▸ hmap) hidle.1, fun q e he hpending => ?_⟩
      have hq : q ≠ p := by
        rintro rfl
        rw [hd] at he
        cases he
        exact hpending hidle.1
      have hlive : (s.emit (.closed p)).pool p = some d := hd
      rw [(free_live .closed hlive).1, Function.update_of_ne hq]
      exact ⟨e, he⟩
    · exact ⟨hC, (KeepsAll.same rfl).spared⟩
    · exact ⟨hC, (KeepsAll.same rfl).spared⟩
    · refine ⟨(hC.close hI (hid ▸ hmap) hd hopen).emit, ?_⟩
      have hkept : KeepsAll s ({ s with closedCount := s.closedCount + 1 }.modify p
          fun d => { d with closed := true }) := (KeepsAll.same rfl).modify
      exact hkept.spared

/-- Points that hold nothing and leave the handles alone. -/
theorem Counters.quiet (hC : Counters s (i :: F)) (howns : i.owns = none) (hwin : i.window = none)
    (hpool : s'.pool = s.pool) (hmap : s'.handleMap = s.handleMap)
    (hcount : s'.closedCount = s.closedCount)
    (hnew : ∀ x ∈ new, x.owns = none ∧ x.window = none) :
    Counters s' (new ++ F) ∧ Spared s s' :=
  ⟨((hC.drop howns hwin).same hpool hmap hcount).pushAll hnew, (KeepsAll.same hpool).spared⟩

theorem LaunchExec.counters (hx : LaunchExec s t i s' new) (hC : Counters s (i :: F))
    (hI : IdInv s) (hid : ∀ id ∈ i.newId s, UnusedId s id) :
    Counters s' (new ++ F) ∧ Spared s s' := by
  cases hx with
  | refused | prepareRefused => exact hC.quiet rfl rfl rfl rfl rfl (by simp)
  | allocated known halloc =>
      exact ⟨hC.alloc hI halloc (hid _ (givenId_some halloc)) rfl rfl rfl,
        (KeepsAll.alloc halloc).spared⟩
  | @prepared params p s₁ known halloc =>
      have hborn : Counters s₁ (.publish p :: F) :=
        hC.alloc hI halloc (hid _ (givenId_some halloc)) rfl rfl rfl
      exact ⟨hborn.emit, (KeepsAll.alloc halloc).spared⟩
  | @queued p =>
      have hgo : Counters s (.publish p :: F) := hC.goOn rfl rfl
      exact ⟨hgo.addJob.setJobs hI.addJob, (KeepsAll.same rfl).modify.spared⟩
  | inlined => exact ⟨hC.addJob.goOn rfl rfl, (KeepsAll.same rfl).spared⟩
  | ran => exact ⟨(hC.setJobs hI).goOn rfl rfl, (KeepsAll.same rfl).modify.spared⟩
  | published => exact ⟨hC.publish hI rfl rfl, (KeepsAll.same rfl).publish.spared⟩

theorem MountExec.counters (hx : MountExec s t i s' new) (hC : Counters s (i :: F))
    (hI : IdInv s) (hid : ∀ id ∈ i.newId s, UnusedId s id) :
    Counters s' (new ++ F) ∧ Spared s s' := by
  cases hx with
  | opened lock halloc =>
      have hlisted : IdInv { s with
          nextMount := s.nextMount + 1, mountList := s.mountList ++ [s.nextMount] } :=
        hI.same _ rfl rfl rfl ⟨[], rfl, by simp⟩
      have hsame : Counters { s with
          nextMount := s.nextMount + 1, mountList := s.mountList ++ [s.nextMount] }
          (.mountOpen :: F) := hC.same rfl rfl rfl
      exact ⟨hsame.alloc hlisted halloc (hid _ (givenId_some halloc)) rfl rfl rfl,
        (KeepsAll.alloc halloc).spared⟩
  | inlined => exact ⟨hC.addJob.goOn rfl rfl, (KeepsAll.same rfl).spared⟩
  | @queued m p =>
      have hgo : Counters s (.mountPublish m p s.nextJob :: F) := hC.goOn rfl rfl
      exact ⟨hgo.addJob.setJobs hI.addJob, (KeepsAll.same rfl).modify.spared⟩
  | ran => exact ⟨(hC.setJobs hI).goOn rfl rfl, (KeepsAll.same rfl).modify.spared⟩
  | @published m p j =>
      have hset : IdInv { s with mounts := Function.update s.mounts m (some ⟨j⟩) } :=
        hI.same _ rfl rfl rfl ⟨[], rfl, by simp⟩
      have hsame : Counters { s with mounts := Function.update s.mounts m (some ⟨j⟩) }
          (.mountPublish m p j :: F) := hC.same rfl rfl rfl
      have hkept : KeepsAll s { s with mounts := Function.update s.mounts m (some ⟨j⟩) } :=
        .same rfl
      exact ⟨hsame.publish hset rfl rfl, hkept.publish.spared⟩

theorem DispatchExec.counters (hx : DispatchExec s t i s' new) (hC : Counters s (i :: F))
    (hI : IdInv s) : Counters s' (new ++ F) ∧ Spared s s' := by
  cases hx with
  | missing => exact hC.quiet rfl rfl rfl rfl rfl (by simp)
  | @entered h p d hl =>
      obtain ⟨hmap, hd, -⟩ := (VfsState.lookupOpenHandle_some p).mp hl
      have hopen : Counters (s.modify p openWindow) (.dispatchSchedule h p :: F) :=
        (hC.drop rfl rfl).raise hI hmap hd rfl rfl
      exact ⟨hopen.emit, ((KeepsAll.same rfl).modify (f := openWindow)).spared⟩
  | queued | inlined => exact ⟨hC.addJob.goOn rfl rfl, (KeepsAll.same rfl).spared⟩
  | ran => exact ⟨hC.goOn rfl rfl, (KeepsAll.same rfl).spared⟩
  | @recorded h p j =>
      rw [dispatchRecord, if_pos (hC.windowMapped _ List.mem_cons_self h p rfl)]
      have hlow := hC.lower (y := .releases []) (f := fun d => { d with
          jobHandle := j, lastJob := j, pendingDispatches := d.pendingDispatches - 1 }) hI rfl
        (fun _ => ⟨rfl, rfl, rfl⟩) rfl rfl
      exact ⟨hlow.drop rfl rfl, (KeepsAll.same rfl).modify.spared⟩

theorem ChainExec.counters (hx : ChainExec s t i s' new) (hC : Counters s (i :: F))
    (hI : IdInv s) (hid : ∀ id ∈ i.newId s, UnusedId s id) :
    Counters s' (new ++ F) ∧ Spared s s' := by
  cases hx with
  | copiedOnly | copied | refused =>
      exact hC.quiet rfl rfl rfl rfl rfl (by simp [Instr.owns, Instr.window])
  | @entered h params f d hmap hd hopen hop =>
      have hraised : Counters (s.modify f openWindow)
          (.chainAlloc h f s.trace.length params d.mount d.lastJob :: F) :=
        (hC.drop rfl rfl).raise hI hmap hd rfl rfl
      exact ⟨hraised.emit, ((KeepsAll.same rfl).modify (f := openWindow)).spared⟩
  | @allocated h file ticket params m after s₁ known halloc =>
      have hid₁ := hid _ (givenId_some halloc)
      have hborn : Counters s₁ (.chainRun h file ticket s.nextPtr after :: F) :=
        hC.alloc hI halloc hid₁ rfl rfl rfl
      exact ⟨hborn.touch (hI.alloc halloc hid₁) fun _ => ⟨rfl, rfl, rfl⟩,
        (KeepsAll.alloc halloc).modify.spared⟩
  | @unwound h file =>
      obtain ⟨d, hd, hmap⟩ := hC.window_live hI List.mem_cons_self
        (show (Instr.chainUnwind h file).window = some (h, file) from rfl)
      rw [chainUnwind, (VfsState.lookupHandle_some file).mpr ⟨hmap, hd⟩]
      have hlow := hC.lower (y := .releases []) (f := closeWindow) hI rfl
        (fun _ => ⟨rfl, rfl, rfl⟩) rfl rfl
      exact ⟨hlow.drop rfl rfl, ((KeepsAll.same rfl).modify (f := closeWindow)).spared⟩
  | @blocked h file ticket p =>
      have hgo : Counters s (.chainPublish h file p true :: F) := hC.goOn rfl rfl
      exact ⟨hgo.touch hI fun _ => ⟨rfl, rfl, rfl⟩, (KeepsAll.same rfl).modify.spared⟩
  | inlined => exact ⟨hC.addJob.goOn rfl rfl, (KeepsAll.same rfl).spared⟩
  | @queued h file ticket p =>
      have hgo : Counters s (.chainPublish h file p false :: F) := hC.goOn rfl rfl
      exact ⟨hgo.addJob.setJobs hI.addJob, (KeepsAll.same rfl).modify.spared⟩
  | ran => exact ⟨(hC.setJobs hI).goOn rfl rfl, (KeepsAll.same rfl).modify.spared⟩
  | @published h file p refused =>
      obtain ⟨d, hd, hmap⟩ := hC.window_live hI List.mem_cons_self
        (show (Instr.chainPublish h file p refused).window = some (h, file) from rfl)
      obtain ⟨op, hop, -⟩ := hC.owner_private (i := .chainPublish h file p refused)
        List.mem_cons_self rfl
      simp only [chainPublish, (VfsState.lookupHandle_some file).mpr ⟨hmap, hd⟩, hop]
      have hlow := hC.lower (y := .publish p) (f := recordOn refused op.jobHandle) hI rfl
        (fun _ => ⟨rfl, rfl, rfl⟩) rfl rfl
      have hlowI : IdInv (s.modify file (recordOn refused op.jobHandle)) :=
        hI.modify fun _ => rfl
      exact ⟨hlow.publish hlowI rfl rfl,
        ((KeepsAll.same rfl).modify (f := recordOn refused op.jobHandle)).publish.spared⟩

theorem CloseExec.counters (hx : CloseExec s c t i s' new) (hC : Counters s (i :: F))
    (hI : IdInv s) : Counters s' (new ++ F) ∧ Spared s s' := by
  have hreleases : ∀ ps, ∀ x ∈ [Instr.releases ps], x.owns = none ∧ x.window = none := by
    simp [Instr.owns, Instr.window]
  cases hx with
  | canceled =>
      exact ⟨(hC.drop rfl rfl).touch hI fun _ => ⟨rfl, rfl, rfl⟩,
        (KeepsAll.same rfl).modify.spared⟩
  | reclaimed =>
      obtain ⟨hcount, hspared⟩ := (hC.drop rfl rfl).reclaim hI
      exact ⟨hcount.pushAll (hreleases _), hspared⟩
  | @closed h borrows =>
      have hfinish : Counters (FlowiVfs.closeFinish s t h borrows).1 F ∧
          Spared s (FlowiVfs.closeFinish s t h borrows).1 := (hC.drop rfl rfl).closeFinish hI
      exact ⟨hfinish.1.pushAll (hreleases _), hfinish.2⟩
  | _ => exact hC.quiet rfl rfl rfl rfl rfl (by simp [Instr.owns, Instr.window])

/-- The body at every program point, except those of closing a mount. -/
theorem Counters.body (hC : Counters s (i :: F)) (hI : IdInv s)
    (hid : ∀ id ∈ i.newId s, UnusedId s id) (hm : i.closesMount = false)
    (hx : execBody s c t sched i = some (s', new)) : Counters s' (new ++ F) ∧ Spared s s' := by
  cases execBody_some hx with
  | launch h => exact h.counters hC hI hid
  | mount h => exact h.counters hC hI hid
  | dispatch h => exact h.counters hC hI
  | chain h => exact h.counters hC hI hid
  | close h => exact h.counters hC hI
  | teardown h => cases h <;> cases hm

end Bodies

/-! ## Steps and runs -/

section Runs

variable {s s' : VfsState} {a : Action}

/-- The step is the locked part of `vfs_reclaim_closed_handles`. -/
def Sweeps (s : VfsState) (a : Action) : Prop :=
  ∃ c sched, a = .exec c sched ∧ headInstr s c = some .reclaim

theorem Counters.step (hC : Counters s s.frames) (hI : IdInv s) (hok : Steady s a)
    (h : step s a = some s') : Counters s' s'.frames ∧ Spared s s' := by
  cases a with
  | start t request =>
      simp only [FlowiVfs.step] at h
      split_ifs at h
      cases h
      have hnew : Counters s (request.program ++ s.frames) := hC.pushAll fun x hx =>
        ⟨(program_quiet request x hx).1, (program_quiet request x hx).2.1⟩
      have hstarted : Counters { s with calls := s.calls ++ [⟨t, request.program⟩] }
          (request.program ++ s.frames) := hnew.same rfl rfl rfl
      refine ⟨hstarted.perm ?_, (KeepsAll.same rfl).spared⟩
      simp only [VfsState.frames, List.flatMap_append, List.flatMap_cons, List.flatMap_nil,
        List.append_nil]
      exact List.perm_append_comm
  | job j input =>
      simp only [FlowiVfs.step] at h
      split_ifs at h
      obtain ⟨k, d, phase, f, es, -, -, hm, rfl⟩ := jobStep_cases h
      have hwrite : ∀ d, (f d).id = d.id ∧ (f d).closed = d.closed ∧
          (f d).pendingDispatches = d.pendingDispatches := by
        cases hm <;> exact fun d => ⟨rfl, rfl, rfl⟩
      have hmoved : Counters (s.modify k.target f) s.frames := hC.touch hI hwrite
      have hkept : KeepsAll s (s.modify k.target f) := (KeepsAll.same rfl).modify
      exact ⟨hmoved.same rfl rfl rfl, hkept.spared⟩
  | exec c sched =>
      obtain ⟨t, i, rest, s₁, new, hc, -, -, hx, rfl⟩ := step_exec h
      obtain ⟨F, hF, hF'⟩ := flatMap_set_todo new hc
      have hhead : i ∈ headInstr s c := by simp [headInstr, hc]
      have hid : ∀ id ∈ i.newId s, UnusedId s id := hok.1 i hhead
      have hm : i.closesMount = false := hok.2 i hhead
      obtain ⟨s₀, s₂, hbody, hlock⟩ := exec_body hx
      have hbodies : Counters s₁ (new ++ F) ∧ Spared s s₁ := by
        rcases hlock with ⟨-, rfl, rfl⟩ | ⟨-, rfl, rfl⟩
        · have hlocked : IdInv (s.emit (.lock c)) := hI.emit (by simp)
          obtain ⟨hcount, hspared⟩ := (hC.perm hF).emit.body hlocked hid hm hbody
          have hkept : Spared s s₂ := hspared
          exact ⟨hcount.emit, hkept.congr rfl⟩
        · exact (hC.perm hF).body hI hid hm hbody
      have hcalls : Counters { s₁ with calls := s.calls.set c ⟨t, new ++ rest⟩ } (new ++ F) :=
        hbodies.1.same rfl rfl rfl
      exact ⟨hcalls.perm hF'.symm, hbodies.2.congr rfl⟩

theorem counters_init : Counters .init VfsState.init.frames := by
  refine ⟨?_, ?_, ?_, ?_, rfl⟩
  all_goals simp [VfsState.init, VfsState.frames, ownersAt, pendingAt]

/-- A VFS of which no mount is closed is not destroyed. -/
theorem Steady.live (hs : s.destroyed = false) (hok : Steady s a) (h : step s a = some s') :
    s'.destroyed = false := by
  by_contra hne
  obtain ⟨c, sched, t, rest, rfl, hc, -⟩ := step_destroys h hs (by simpa using hne)
  have hm : Instr.destroyLoop.closesMount = false := hok.2 _ (by simp [headInstr, hc])
  cases hm

theorem counters_reaches (h : Reaches step Steady .init s) :
    s.destroyed = false ∧ IdInv s ∧ Counters s s.frames := by
  refine h.invariant (P := fun s => s.destroyed = false ∧ IdInv s ∧ Counters s s.frames)
    ⟨rfl, idInv_init, counters_init⟩ ?_
  rintro t a u ⟨hlive, hI, hC⟩ hok hstep
  have hlive' := Steady.live hlive hok hstep
  exact ⟨hlive', hI.step hok.1 hstep hlive', (hC.step hI hok hstep).1⟩

/-- What a sweep does to the pool. -/
theorem sweep_pool (hsweep : Sweeps s a) (h : step s a = some s') :
    ∃ c, s'.pool = (vfsReclaimClosedHandles (s.emit (.lock c))).1.pool := by
  obtain ⟨c, sched, rfl, hhead⟩ := hsweep
  obtain ⟨t, i, rest, s₁, new, hc, -, -, hx, rfl⟩ := step_exec h
  simp only [headInstr, hc, Option.bind_some, List.head?_cons, Option.some.injEq] at hhead
  subst hhead
  simp only [Instr.exec, Instr.locked, if_true, execBody, Option.map_some, Option.some.injEq,
    Prod.mk.injEq] at hx
  obtain ⟨rfl, -⟩ := hx
  exact ⟨c, rfl⟩

/-- A call has at most one window open, at the point it is at. -/
theorem openWindows_le {calls : List Call} (hS : ∀ k ∈ calls, ∀ i ∈ k.todo.tail,
    i.window = none) (p : HandlePtr) :
    openWindows (calls.flatMap Call.todo) p ≤ calls.countP fun k => k.todo ≠ [] := by
  induction calls with
  | nil => exact le_rfl
  | cons k calls ih =>
      have hothers := ih fun k' hk' => hS k' (List.mem_cons_of_mem k hk')
      have hone : openWindows k.todo p ≤ if k.todo ≠ [] then 1 else 0 := by
        cases htodo : k.todo with
        | nil => exact le_rfl
        | cons i rest =>
            have hrest : openWindows rest p = 0 := by
              apply List.countP_eq_zero.mpr
              intro x hx
              have hquiet : x.window = none := hS k List.mem_cons_self x (by rw [htodo]; exact hx)
              simp [hquiet]
            rw [openWindows_cons, hrest, if_pos (List.cons_ne_nil i rest)]
            split_ifs <;> omega
      have hall : openWindows ((k :: calls).flatMap Call.todo) p =
          openWindows k.todo p + openWindows (calls.flatMap Call.todo) p := List.countP_append
      rw [hall, List.countP_cons]
      simp only [decide_eq_true_eq]
      omega

/-- The counters of the source have 32 bits. They stay below the number of calls in progress
and of handles in the map. -/
theorem counters_bounded (h : Reaches step Steady .init s) :
    (∀ p d, s.pool p = some d → 0 ≤ d.pendingDispatches ∧
      d.pendingDispatches ≤ s.calls.countP fun k => k.todo ≠ []) ∧
    0 ≤ s.closedCount ∧ s.closedCount ≤ (mapEntries s).length := by
  obtain ⟨-, hI, hC⟩ := counters_reaches h
  refine ⟨fun p d hd => ?_, ?_, ?_⟩
  · have hpending : d.pendingDispatches = openWindows s.frames p := by
      rw [hC.windows p, pendingAt, hd]
    rw [hpending]
    exact ⟨Int.natCast_nonneg _, Int.ofNat_le.mpr (openWindows_le (stacked_reaches h).tails p)⟩
  · rw [hC.closedCount]
    exact Int.natCast_nonneg _
  · rw [hC.closedCount, closedHandles, List.length_map]
    exact Int.ofNat_le.mpr (List.length_filter_le _ _)

/-- Whatever the order of dispatches, chains, closes and sweeps: `closed_count` is the number of
closed handles in the map, `pending_dispatches` the number of windows open on the handle, no
handle with an open window is freed, and a sweep frees exactly the closed handles that have no
open window and whose recorded jobs are finished. -/
theorem counters_exact (h : Reaches step Steady .init s) :
    s.closedCount = ((mapEntries s).filter fun e => e.2.2.closed).length ∧
    (∀ p d, s.pool p = some d → d.pendingDispatches = openWindows s.frames p) ∧
    (∀ p, s.pool p = none → openWindows s.frames p = 0) ∧
    ∀ a s', Steady s a → step s a = some s' →
      (∀ p d, s.pool p = some d → 0 < openWindows s.frames p → ∃ d', s'.pool p = some d') ∧
      (Sweeps s a → ∀ p d, s.pool p = some d → (s'.pool p = none ↔
        d.closed = true ∧ openWindows s.frames p = 0 ∧
          vfsJobsFinished s d.handleJobs = true)) := by
  obtain ⟨-, hI, hC⟩ := counters_reaches h
  have hpending : ∀ p d, s.pool p = some d → d.pendingDispatches = openWindows s.frames p := by
    intro p d hd
    rw [hC.windows p, pendingAt, hd]
  refine ⟨?_, hpending, fun p hp => ?_, fun a s' hok hstep => ⟨fun p d hd hopen => ?_,
    fun hsweep p d hd => ?_⟩⟩
  · rw [hC.closedCount, closedHandles, List.length_map]
  · have hwindows := hC.windows p
    simp only [pendingAt, hp] at hwindows
    exact_mod_cast hwindows
  · refine (hC.step hI hok hstep).2 p d hd ?_
    rw [hpending p d hd]
    omega
  · obtain ⟨c, hpool⟩ := sweep_pool hsweep hstep
    have hlocked : IdInv (s.emit (.lock c)) := hI.emit (by simp)
    have hd' : (s.emit (.lock c)).pool p = some d := hd
    have hjobs : vfsJobsFinished (s.emit (.lock c)) d.handleJobs =
      vfsJobsFinished s d.handleJobs := rfl
    rw [hpool, reclaim_exact hlocked hC.emit hd', hjobs, hpending p d hd,
      Nat.cast_eq_zero]

/-- A worker reads from a file that the main thread closes meanwhile: one window is open, the
close is deferred, and no sweep takes the handle yet. -/
theorem counters_exact_deferred : ∃ s, Reaches step Steady .init s ∧ s.closedCount = 1 ∧
    openWindows s.frames 1 = 1 ∧ ((mapEntries s).filter fun e => e.2.2.closed).length = 1 ∧
    ∀ a s', Steady s a → step s a = some s' → ∃ d', s'.pool 1 = some d' := by
  let actions := openFileScript ++ [.start (.worker 0) (.read 2 4)] ++ callSteps 2 1 ++
    [.start .main (.close 2)] ++ callSteps 3 5
  have hrun : ((replay step Steady actions .init).map fun s =>
      (s.closedCount, openWindows s.frames 1, (s.pool 1).isSome)) = some (1, 1, true) := by
    decide +kernel
  obtain ⟨s, hs, hfacts⟩ := Option.map_eq_some_iff.mp hrun
  simp only [Prod.mk.injEq] at hfacts
  obtain ⟨hcount, hopen, hlive⟩ := hfacts
  obtain ⟨d, hd⟩ := Option.isSome_iff_exists.mp hlive
  have hreach := replay_reaches actions hs
  obtain ⟨hclosed, -, -, hnext⟩ := counters_exact hreach
  refine ⟨s, hreach, hcount, hopen, by omega, fun a s' hok hstep => ?_⟩
  exact (hnext a s' hok hstep).1 1 d hd (by omega)

end Runs

end FlowiVfs
