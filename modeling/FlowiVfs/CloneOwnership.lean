import FlowiVfs.MemoryArchives
import FlowiVfs.Transition

/-!
# Clones of an archive in memory

A caller allocates buffers, opens archives on them, clones handles and closes them, in any
order. Buffers are sound as long as the handle that `open_memory` returned is closed after
all the handles that descend from it, and only then: a clone that is still open when it is
closed is left with a pointer to the freed buffer.
-/
namespace FlowiVfs.Memory

open Owned Transition
open FlowiVfs.Tree (Bytes)

/-- The calls of a driver that make and close handles of archives in memory. -/
structure MemoryDriver where
  Handle : Type
  openMemory : Option ObjectId → MemoryFile → HeapM (Option Handle)
  clone : Handle → HeapM (Option Handle)
  close : Handle → HeapM Unit
  foot : Footprint Handle

inductive ArchiveDriver
  | libarchive
  | lhasa
  | unlzx

def ArchiveDriver.calls (names : NameLibrary) : ArchiveDriver → MemoryDriver
  | .libarchive =>
      ⟨LibArchive.Handle, LibArchive.openMemory names, LibArchive.clone, LibArchive.close,
        LibArchive.footprint⟩
  | .lhasa => ⟨Lhasa.Handle, Lhasa.openMemory, Lhasa.clone, Lhasa.close, Lhasa.footprint⟩
  | .unlzx => ⟨Unlzx.Handle, Unlzx.openMemory, Unlzx.clone, Unlzx.close, Unlzx.footprint⟩

structure OpenHandle (H : Type) where
  number : ℕ
  handle : H
  /-- The number of the handle from `open_memory` that this one descends from. -/
  root : ℕ

/-- The heap, and what the caller knows of it. -/
structure Session (H : Type) where
  heap : Heap := {}
  /-- Buffers that the caller owns. -/
  callers : List ObjectId := []
  opened : List (OpenHandle H) := []
  nextNumber : ℕ := 0
  /-- Buffers that drivers took over, each with the handle that was returned for it. -/
  adopted : List (ObjectId × ℕ) := []

/-- One call of the caller, with what foreign code will answer in it. Handles are named by
their place among the open ones. -/
inductive Call
  | allocate
  | openMemory (data : Option ObjectId) (file : MemoryFile) (fate : List Bool)
  | clone (source : ℕ) (fate : List Bool)
  | close (handle : ℕ)

section Machine

variable (d : MemoryDriver)

/-- The driver takes the buffer over if it returns a handle. -/
def Session.openMemory (s : Session d.Handle) (data : Option ObjectId) (file : MemoryFile)
    (fate : List Bool) : Session d.Handle :=
  let answer := d.openMemory data file { s.heap with fate := fate }
  match answer.1 with
  | none => { s with heap := answer.2 }
  | some handle =>
      { heap := answer.2
        callers := data.elim s.callers s.callers.erase
        opened := ⟨s.nextNumber, handle, s.nextNumber⟩ :: s.opened
        nextNumber := s.nextNumber + 1
        adopted := data.toList.map (·, s.nextNumber) ++ s.adopted }

def Session.clone (s : Session d.Handle) (source : OpenHandle d.Handle) (fate : List Bool) :
    Session d.Handle :=
  let answer := d.clone source.handle { s.heap with fate := fate }
  match answer.1 with
  | none => { s with heap := answer.2 }
  | some handle =>
      { s with
        heap := answer.2
        opened := ⟨s.nextNumber, handle, source.root⟩ :: s.opened
        nextNumber := s.nextNumber + 1 }

/-- Only buffers of the caller are handed over, and only open handles are used. -/
def step (s : Session d.Handle) : Call → Option (Session d.Handle)
  | .allocate =>
      let answer := allocate s.heap
      some { s with heap := answer.2, callers := answer.1 :: s.callers }
  | .openMemory data file fate =>
      if ∀ b ∈ data, b ∈ s.callers then some (s.openMemory d data file fate) else none
  | .clone source fate => s.opened[source]?.map fun e => s.clone d e fate
  | .close handle => s.opened[handle]?.map fun e =>
      { s with heap := (d.close e.handle s.heap).2, opened := s.opened.eraseIdx handle }

/-- A handle from `open_memory` is closed when no other descends from it any more. -/
def ClosedLast (s : Session d.Handle) : Call → Prop
  | .close handle => ∀ e ∈ s.opened[handle]?, e.number = e.root →
      ∀ e' ∈ s.opened, e'.root = e.number → e'.number = e.number
  | _ => True

instance decidableClosedLast (s : Session d.Handle) : ∀ call, Decidable (ClosedLast d s call)
  | .close handle => inferInstanceAs (Decidable (∀ e ∈ s.opened[handle]?, e.number = e.root →
      ∀ e' ∈ s.opened, e'.root = e.number → e'.number = e.number))
  | .allocate => .isTrue trivial
  | .openMemory .. => .isTrue trivial
  | .clone .. => .isTrue trivial

/-- What the drivers promise: a buffer they took over is freed once, when its handle is
closed, other buffers are not touched, and no open handle has a pointer to freed memory. -/
structure MemorySound (s : Session d.Handle) : Prop where
  adopted : ∀ p ∈ s.adopted,
    s.heap.frees.count p.1 = if ∃ e ∈ s.opened, e.number = p.2 then 0 else 1
  callers : ∀ b ∈ s.callers, b ∉ s.heap.frees
  pointers : ∀ e ∈ s.opened, ∀ o ∈ d.foot.refers e.handle, o ∉ s.heap.frees

end Machine

/-! ## Laws of the drivers -/

structure MemoryDriver.Lawful (d : MemoryDriver) : Prop where
  openMemory : ∀ data file, Triple data.toList (d.openMemory data file) (Opens d.foot data)
  clone : ∀ source, Triple [] (d.clone source) (Clones d.foot source)
  close : ∀ handle, d.close handle = freeAll (d.foot.owned handle)
  refers : ∀ handle, d.foot.shared handle ⊆ d.foot.refers handle

theorem ArchiveDriver.lawful (names : NameLibrary) (driver : ArchiveDriver) :
    (driver.calls names).Lawful := by
  cases driver with
  | libarchive =>
      refine ⟨LibArchive.openMemory_triple names, LibArchive.clone_triple,
        LibArchive.close_eq, ?_⟩
      intro handle
      simp only [calls, LibArchive.footprint, LibArchive.Handle.shared, LibArchive.Handle.refers]
      intro o ho
      simp only [List.mem_append, List.mem_cons] at ho ⊢
      tauto
  | lhasa =>
      refine ⟨Lhasa.openMemory_triple, Lhasa.clone_triple, Lhasa.close_eq, ?_⟩
      intro handle
      simp [calls, Lhasa.footprint, Lhasa.Handle.shared, Lhasa.Handle.refers]
  | unlzx =>
      refine ⟨Unlzx.openMemory_triple, Unlzx.clone_triple, Unlzx.close_eq, ?_⟩
      intro handle
      simp [calls, Unlzx.footprint, Unlzx.Handle.shared, Unlzx.Handle.refers]

/-! ## The invariant -/

section Invariant

variable {d : MemoryDriver} {s s' : Session d.Handle} {e r : OpenHandle d.Handle}
  {rest : List (OpenHandle d.Handle)} {heap : Heap}

variable (d) in
def ownedBy (opened : List (OpenHandle d.Handle)) : List ObjectId :=
  opened.flatMap fun e => d.foot.owned e.handle

variable (d) in
/-- The handle `r` was returned by `open_memory` and frees what `e` shares with it. -/
structure RootOf (e r : OpenHandle d.Handle) : Prop where
  number : r.number = e.root
  root : r.root = r.number
  shared : d.foot.shared e.handle = d.foot.shared r.handle
  sharedOwned : d.foot.shared r.handle ⊆ d.foot.owned r.handle
  buffer : ∃ o, o ∈ d.foot.shared e.handle
  refers : d.foot.refers e.handle ⊆ d.foot.owned e.handle ++ d.foot.shared e.handle

variable (d) in
/-- Everything is owned by the caller or by one open handle, and the handle that a clone
descends from is open. -/
structure Kept (s : Session d.Handle) : Prop where
  owns : Owns s.heap (s.callers ++ ownedBy d s.opened)
  numbers : (s.opened.map OpenHandle.number).Nodup
  fresh : ∀ e ∈ s.opened, e.number < s.nextNumber
  roots : ∀ e ∈ s.opened, ∃ r ∈ s.opened, RootOf d e r
  adopted : ∀ p ∈ s.adopted, p.2 < s.nextNumber ∧
    ((∃ e ∈ s.opened, e.number = p.2 ∧ p.1 ∈ d.foot.owned e.handle) ∨
      ((∀ e ∈ s.opened, e.number ≠ p.2) ∧ p.1 ∈ s.heap.frees))

theorem Kept.start : Kept d {} where
  owns := Owns.empty
  numbers := List.nodup_nil
  fresh _ h := absurd h List.not_mem_nil
  roots _ h := absurd h List.not_mem_nil
  adopted _ h := absurd h List.not_mem_nil

/-- The order of the open handles does not matter. -/
theorem Kept.perm (h : Kept d s) {opened : List (OpenHandle d.Handle)}
    (hp : s.opened.Perm opened) : Kept d { s with opened := opened } where
  owns := h.owns.perm ((hp.flatMap_right _).append_left _)
  numbers := (hp.map _).nodup_iff.mp h.numbers
  fresh e he := h.fresh e (hp.mem_iff.mpr he)
  roots e he := by
    obtain ⟨r, hr, hroot⟩ := h.roots e (hp.mem_iff.mpr he)
    exact ⟨r, hp.mem_iff.mp hr, hroot⟩
  adopted p hmem := by
    obtain ⟨hlt, ⟨e, he, hrest⟩ | ⟨hclosed, hfreed⟩⟩ := h.adopted p hmem
    · exact ⟨hlt, .inl ⟨e, hp.mem_iff.mp he, hrest⟩⟩
    · exact ⟨hlt, .inr ⟨fun e he => hclosed e (hp.mem_iff.mpr he), hfreed⟩⟩

theorem Kept.owned_live (h : Kept d s) (he : e ∈ s.opened) {o : ObjectId}
    (ho : o ∈ d.foot.owned e.handle) : o ∉ s.heap.frees := by
  refine (h.owns.live o ?_).2
  exact List.mem_append_right _ (List.mem_flatMap.mpr ⟨e, he, ho⟩)

theorem Kept.sound (h : Kept d s) : MemorySound d s where
  adopted p hp := by
    obtain ⟨-, ⟨e, he, hn, ho⟩ | ⟨hclosed, hfreed⟩⟩ := h.adopted p hp
    · rw [if_pos ⟨e, he, hn⟩]
      exact List.count_eq_zero_of_not_mem (h.owned_live he ho)
    · rw [if_neg (fun ⟨e, he, hn⟩ => hclosed e he hn)]
      exact h.owns.count_freed hfreed
  callers b hb := (h.owns.live b (List.mem_append_left _ hb)).2
  pointers e he o ho := by
    obtain ⟨r, hr, hroot⟩ := h.roots e he
    rcases List.mem_append.mp (hroot.refers ho) with hown | hshared
    · exact h.owned_live he hown
    · apply h.owned_live hr
      exact hroot.sharedOwned (hroot.shared ▸ hshared)

/-! ## What calls do to it -/

theorem Kept.allocate (h : Kept d s) :
    Kept d { s with heap := (Owned.allocate s.heap).2
                    callers := (Owned.allocate s.heap).1 :: s.callers } where
  owns := h.owns.allocate
  numbers := h.numbers
  fresh := h.fresh
  roots := h.roots
  adopted := h.adopted

/-- A call frees nothing that is owned beside what it is given. -/
theorem Kept.frame (h : Kept d s) (hown : Owns heap (s.callers ++ ownedBy d s.opened))
    (hfrees : s.heap.frees ⊆ heap.frees) : Kept d { s with heap := heap } where
  owns := hown
  numbers := h.numbers
  fresh := h.fresh
  roots := h.roots
  adopted p hp := by
    obtain ⟨hlt, hopen | ⟨hclosed, hfreed⟩⟩ := h.adopted p hp
    · exact ⟨hlt, .inl hopen⟩
    · exact ⟨hlt, .inr ⟨hclosed, hfrees hfreed⟩⟩

/-- A new handle, with the buffer that it took over if it took one. -/
theorem Kept.gain (h : Kept d s) {handle : d.Handle} {root : ℕ} {callers : List ObjectId}
    (taken : List ObjectId)
    (hown : Owns heap (callers ++ ownedBy d (⟨s.nextNumber, handle, root⟩ :: s.opened)))
    (hfrees : s.heap.frees ⊆ heap.frees)
    (hroot : ∃ r ∈ (⟨s.nextNumber, handle, root⟩ : OpenHandle d.Handle) :: s.opened,
      RootOf d ⟨s.nextNumber, handle, root⟩ r)
    (htaken : taken ⊆ d.foot.owned handle) :
    Kept d { heap, callers, opened := ⟨s.nextNumber, handle, root⟩ :: s.opened
             nextNumber := s.nextNumber + 1
             adopted := taken.map (·, s.nextNumber) ++ s.adopted } where
  owns := hown
  numbers := by
    apply List.nodup_cons.mpr
    refine ⟨?_, h.numbers⟩
    intro hmem
    obtain ⟨e, he, hn⟩ := List.mem_map.mp hmem
    exact Nat.ne_of_lt (h.fresh e he) hn
  fresh e he := by
    rcases List.mem_cons.mp he with hnew | hold
    · subst hnew
      exact Nat.lt_succ_self _
    · exact Nat.lt_succ_of_lt (h.fresh e hold)
  roots e he := by
    rcases List.mem_cons.mp he with hnew | hold
    · exact hnew ▸ hroot
    · obtain ⟨r, hr, hroot⟩ := h.roots e hold
      exact ⟨r, List.mem_cons_of_mem _ hr, hroot⟩
  adopted p hp := by
    rcases List.mem_append.mp hp with hnew | hold
    · obtain ⟨b, hb, he⟩ := List.mem_map.mp hnew
      subst he
      exact ⟨Nat.lt_succ_self _, .inl ⟨_, List.mem_cons_self, rfl, htaken hb⟩⟩
    · obtain ⟨hlt, ⟨e, he, hrest⟩ | ⟨hclosed, hfreed⟩⟩ := h.adopted p hold
      · exact ⟨Nat.lt_succ_of_lt hlt, .inl ⟨e, List.mem_cons_of_mem _ he, hrest⟩⟩
      · refine ⟨Nat.lt_succ_of_lt hlt, .inr ⟨?_, hfrees hfreed⟩⟩
        intro e he
        rcases List.mem_cons.mp he with hnew | hold
        · subst hnew
          exact (Nat.ne_of_lt hlt).symm
        · exact hclosed e hold

theorem Kept.openMemory (hd : d.Lawful) (h : Kept d s) {data : Option ObjectId}
    (hdata : ∀ b ∈ data, b ∈ s.callers) (file : MemoryFile) (fate : List Bool) :
    Kept d (s.openMemory d data file fate) := by
  have hcallers : s.callers.Perm (data.toList ++ data.elim s.callers s.callers.erase) := by
    cases data with
    | none => exact List.Perm.refl _
    | some b => exact List.perm_cons_erase (hdata b rfl)
  have hstart : Owns s.heap (data.toList ++
      (data.elim s.callers s.callers.erase ++ ownedBy d s.opened)) := by
    apply h.owns.perm
    rw [← List.append_assoc]
    exact hcallers.append_right _
  obtain ⟨own, hown, hfrees, hpost⟩ := hd.openMemory data file _ _ (hstart.fated fate)
  unfold Session.openMemory
  simp only
  generalize d.openMemory data file { s.heap with fate := fate } = answer at hown hfrees hpost
  obtain ⟨r, heap⟩ := answer
  cases r with
  | none =>
      apply h.frame _ hfrees
      apply hown.perm
      rw [← List.append_assoc]
      exact ((List.Perm.append_right _ hpost).trans hcallers.symm).append_right _
  | some handle =>
      obtain ⟨hperm, hrefers, b, hb, hshared⟩ := hpost
      have hsub := hd.refers handle
      apply h.gain data.toList _ hfrees
      · refine ⟨_, List.mem_cons_self, rfl, rfl, rfl, List.Subset.trans hsub hrefers, ⟨b, hshared⟩, ?_⟩
        exact List.Subset.trans hrefers (List.subset_append_left _ _)
      · intro o ho
        have he : b = o := Option.mem_unique hb (Option.mem_toList.mp ho)
        exact he ▸ hrefers (hsub hshared)
      · apply hown.perm
        apply (List.Perm.append_right _ hperm).trans
        exact List.perm_append_comm_assoc _ _ _

theorem Kept.clone (hd : d.Lawful) (h : Kept d s) (he : e ∈ s.opened) (fate : List Bool) :
    Kept d (s.clone d e fate) := by
  obtain ⟨own, hown, hfrees, hpost⟩ := hd.clone e.handle _ _ (h.owns.fated fate)
  unfold Session.clone
  simp only
  generalize d.clone e.handle { s.heap with fate := fate } = answer at hown hfrees hpost
  obtain ⟨r, heap⟩ := answer
  cases r with
  | none =>
      apply h.frame _ hfrees
      exact hown.perm (List.Perm.append_right _ (List.Perm.of_eq hpost))
  | some handle =>
      obtain ⟨hperm, hshared, hrefers⟩ := hpost
      obtain ⟨r, hr, hroot⟩ := h.roots e he
      apply h.gain [] _ hfrees
      · refine ⟨r, List.mem_cons_of_mem _ hr, hroot.number, hroot.root, ?_, hroot.sharedOwned,
          ?_, hrefers⟩
        · exact hshared.trans hroot.shared
        · exact hshared ▸ hroot.buffer
      · exact List.nil_subset _
      · apply hown.perm
        apply (List.Perm.append_right _ hperm).trans
        exact List.perm_append_comm_assoc _ _ _

variable (d) in
def Session.close (s : Session d.Handle) (e : OpenHandle d.Handle)
    (rest : List (OpenHandle d.Handle)) : Session d.Handle :=
  { s with heap := (d.close e.handle s.heap).2, opened := rest }

theorem close_frees (hd : d.Lawful) (e : OpenHandle d.Handle) (heap : Heap) :
    (d.close e.handle heap).2.frees = (d.foot.owned e.handle).reverse ++ heap.frees := by
  rw [hd.close, freeAll_frees]

/-- A close in which no other handle descends from the closed one. -/
theorem Kept.close (hd : d.Lawful) (h : Kept d s) (hopened : s.opened = e :: rest)
    (hlast : e.number = e.root → ∀ e' ∈ rest, e'.root ≠ e.number) :
    Kept d (s.close d e rest) := by
  have hnumbers := h.numbers
  rw [hopened, List.map_cons, List.nodup_cons] at hnumbers
  have hne : ∀ e' ∈ rest, e'.number ≠ e.number :=
    fun e' he' hn => hnumbers.1 (List.mem_map.mpr ⟨e', he', hn⟩)
  have hstart : Owns s.heap (d.foot.owned e.handle ++ (s.callers ++ ownedBy d rest)) := by
    apply h.owns.perm
    rw [hopened]
    exact List.perm_append_comm_assoc _ _ _
  have hfrees := close_frees hd e s.heap
  refine ⟨?_, hnumbers.2, ?_, ?_, ?_⟩
  · have htriple : Triple (d.foot.owned e.handle ++ []) (freeAll (d.foot.owned e.handle))
        (fun _ own => own = []) := Triple.freeAll
    rw [← hd.close] at htriple
    obtain ⟨own, hown, -, he⟩ := htriple s.heap (s.callers ++ ownedBy d rest)
      (by rw [List.append_nil]; exact hstart)
    rw [he] at hown
    exact hown
  · intro e' he'
    exact h.fresh e' (hopened ▸ List.mem_cons_of_mem _ he')
  · intro e' he'
    obtain ⟨r, hr, hroot⟩ := h.roots e' (hopened ▸ List.mem_cons_of_mem _ he')
    rw [hopened] at hr
    rcases List.mem_cons.mp hr with hre | hr
    · subst hre
      exact absurd hroot.number.symm (hlast hroot.root.symm e' he')
    · exact ⟨r, hr, hroot⟩
  · intro p hp
    obtain ⟨hlt, ⟨e', he', hn, ho⟩ | ⟨hclosed, hfreed⟩⟩ := h.adopted p hp
    · rw [hopened] at he'
      refine ⟨hlt, ?_⟩
      rcases List.mem_cons.mp he' with hnew | hold
      · subst hnew
        refine .inr ⟨fun e'' he'' => hn ▸ hne e'' he'', ?_⟩
        change p.1 ∈ (d.close e'.handle s.heap).2.frees
        rw [hfrees]
        exact List.mem_append_left _ (List.mem_reverse.mpr ho)
      · exact .inl ⟨e', hold, hn, ho⟩
    · refine ⟨hlt, .inr ⟨?_, ?_⟩⟩
      · intro e' he'
        exact hclosed e' (hopened ▸ List.mem_cons_of_mem _ he')
      · change p.1 ∈ (d.close e.handle s.heap).2.frees
        rw [hfrees]
        exact List.mem_append_right _ hfreed

/-- Where another handle descends from the closed one it is left with a freed pointer. -/
theorem Kept.dangling (hd : d.Lawful) (h : Kept d s) (hopened : s.opened = e :: rest)
    {e' : OpenHandle d.Handle} (he' : e' ∈ rest) (hroot : e'.root = e.number) :
    ¬ MemorySound d (s.close d e rest) := by
  intro hsound
  obtain ⟨r, hr, hdescends⟩ := h.roots e' (hopened ▸ List.mem_cons_of_mem _ he')
  have hre : r = e := by
    apply List.inj_on_of_nodup_map h.numbers hr (hopened ▸ List.mem_cons_self)
    exact hdescends.number.trans hroot
  subst hre
  obtain ⟨o, ho⟩ := hdescends.buffer
  apply hsound.pointers e' he' o (hd.refers _ ho)
  change o ∈ (d.close r.handle s.heap).2.frees
  rw [close_frees hd, List.mem_append, List.mem_reverse]
  exact .inl (hdescends.sharedOwned (hdescends.shared ▸ ho))

/-- An open handle and the others, in the order of its close. -/
theorem Kept.front (h : Kept d s) {i : ℕ} (he : s.opened[i]? = some e) :
    s.opened.Perm (e :: s.opened.eraseIdx i) ∧
      Kept d { s with opened := e :: s.opened.eraseIdx i } := by
  obtain ⟨hi, hget⟩ := List.getElem?_eq_some_iff.mp he
  have hperm := (List.getElem_cons_eraseIdx_perm hi).symm
  rw [hget] at hperm
  exact ⟨hperm, h.perm hperm⟩

theorem Kept.step (hd : d.Lawful) (h : Kept d s) (call : Call) (hlast : ClosedLast d s call)
    (taken : step d s call = some s') : Kept d s' := by
  cases call with
  | allocate =>
      cases taken
      exact h.allocate
  | openMemory data file fate =>
      simp only [Memory.step] at taken
      split_ifs at taken with hdata
      cases taken
      exact h.openMemory hd hdata file fate
  | clone source fate =>
      obtain ⟨e, he, rfl⟩ := Option.map_eq_some_iff.mp taken
      exact h.clone hd (List.mem_of_getElem? he) fate
  | close i =>
      obtain ⟨e, he, rfl⟩ := Option.map_eq_some_iff.mp taken
      obtain ⟨hperm, hfront⟩ := h.front he
      apply hfront.close hd rfl
      intro hroot e' he' hdescends
      have hmem : e' ∈ s.opened := hperm.mem_iff.mpr (List.mem_cons_of_mem _ he')
      have hnumbers := hfront.numbers
      rw [List.map_cons, List.nodup_cons] at hnumbers
      apply hnumbers.1
      exact List.mem_map.mpr ⟨e', he', hlast e he hroot e' hmem hdescends⟩

theorem kept_of_reaches (hd : d.Lawful) (run : Reaches (step d) (ClosedLast d) {} s) :
    Kept d s :=
  run.invariant .start fun _ call _ h hlast taken => h.step hd call hlast taken

/-- A close that other handles descend from is never sound. -/
theorem Kept.closedLast (hd : d.Lawful) (h : Kept d s) (call : Call)
    (taken : Memory.step d s call = some s') (hsound : MemorySound d s') : ClosedLast d s call := by
  cases call with
  | allocate => trivial
  | openMemory => trivial
  | clone => trivial
  | close i =>
      obtain ⟨e, he, rfl⟩ := Option.map_eq_some_iff.mp taken
      obtain ⟨hperm, hfront⟩ := h.front he
      intro r hr hroot e' hmem hdescends
      have hre : r = e := Option.some.inj ((Option.mem_def.mp hr).symm.trans he)
      subst hre
      by_contra hne
      rcases List.mem_cons.mp (hperm.mem_iff.mp hmem) with heq | hrest
      · exact hne (heq ▸ rfl)
      · exact hfront.dangling hd rfl hrest hdescends hsound

end Invariant

/-- While every handle from `open_memory` is closed after those that descend from it, memory
is sound, and the first close in another order makes it unsound. -/
theorem memory_sound_iff (names : NameLibrary) (driver : ArchiveDriver)
    {s : Session (driver.calls names).Handle}
    (run : Reaches (step (driver.calls names)) (ClosedLast (driver.calls names)) {} s) :
    MemorySound (driver.calls names) s ∧
      ∀ call s', step (driver.calls names) s call = some s' →
        (MemorySound (driver.calls names) s' ↔ ClosedLast (driver.calls names) s call) := by
  have hd := driver.lawful names
  have hkept := kept_of_reaches hd run
  refine ⟨hkept.sound, fun call s' taken => ⟨?_, ?_⟩⟩
  · exact hkept.closedLast hd call taken
  · intro hlast
    exact (hkept.step hd call hlast taken).sound

/-! ## Runs -/

/-- Names end in their extension, and nothing is lost of them. -/
def suffixNames : NameLibrary where
  pathHasExtension path extension := ('.' :: extension).isSuffixOf path
  pathGetFilename path := path
  stringEqualsNocase a b := decide (a = b)

/-- A file that every one of the drivers may take for its own. -/
def songs (magic : Bytes) : MemoryFile := ⟨magic, "songs".toList⟩

def lhaMagic : Bytes := [22, 0, 45, 108, 104, 53, 45]

def lzxMagic : Bytes := [76, 90, 88, 0, 0, 0, 0, 0, 0, 0]

/-- An archive is opened and cloned. -/
def openAndClone (magic : Bytes) : List Call :=
  let fine := [true, true, true, true, true, true]
  [.allocate, .openMemory (some 0) (songs magic) fine, .clone 0 fine]

theorem memory_sound_clone :
    ∃ s : Session (ArchiveDriver.lhasa.calls suffixNames).Handle, s.opened.length = 2 ∧
      MemorySound (ArchiveDriver.lhasa.calls suffixNames) s ∧
      ∀ call s', step (ArchiveDriver.lhasa.calls suffixNames) s call = some s' →
        (MemorySound (ArchiveDriver.lhasa.calls suffixNames) s' ↔
          ClosedLast (ArchiveDriver.lhasa.calls suffixNames) s call) :=
  ⟨_, rfl, memory_sound_iff suffixNames .lhasa (replay_reaches (openAndClone lhaMagic) rfl)⟩

theorem not_sound_of_dangling {d : MemoryDriver} {s : Session d.Handle}
    (h : s.opened.any fun e => (d.foot.refers e.handle).any (· ∈ s.heap.frees)) :
    ¬ MemorySound d s := by
  intro hsound
  obtain ⟨e, he, hany⟩ := List.any_eq_true.mp h
  obtain ⟨o, ho, hfreed⟩ := List.any_eq_true.mp hany
  exact hsound.pointers e he o ho (of_decide_eq_true hfreed)

/-- With each of the drivers a clone is left with a freed buffer when the handle that it was
made from is closed. -/
theorem clone_outlives_buffer :
    (∃ s : Session (ArchiveDriver.libarchive.calls suffixNames).Handle,
      Reaches (step (ArchiveDriver.libarchive.calls suffixNames)) (fun _ _ => True) {} s ∧
        ¬ MemorySound (ArchiveDriver.libarchive.calls suffixNames) s) ∧
    (∃ s : Session (ArchiveDriver.lhasa.calls suffixNames).Handle,
      Reaches (step (ArchiveDriver.lhasa.calls suffixNames)) (fun _ _ => True) {} s ∧
        ¬ MemorySound (ArchiveDriver.lhasa.calls suffixNames) s) ∧
    ∃ s : Session (ArchiveDriver.unlzx.calls suffixNames).Handle,
      Reaches (step (ArchiveDriver.unlzx.calls suffixNames)) (fun _ _ => True) {} s ∧
        ¬ MemorySound (ArchiveDriver.unlzx.calls suffixNames) s := by
  refine ⟨?_, ?_, ?_⟩
  · exact ⟨_, replay_reaches (openAndClone lhaMagic ++ [.close 1]) rfl,
      not_sound_of_dangling (by decide)⟩
  · exact ⟨_, replay_reaches (openAndClone lhaMagic ++ [.close 1]) rfl,
      not_sound_of_dangling (by decide)⟩
  · exact ⟨_, replay_reaches (openAndClone lzxMagic ++ [.close 1]) rfl,
      not_sound_of_dangling (by decide)⟩

end FlowiVfs.Memory
