import FlowiVfs.MountPath
import FlowiVfs.DriverLedger

/-!
# Who owns what while a mount path is resolved

The ownership contracts in `vfs_private.h`, for arbitrary drivers. Each function of the
resolution is described by what it adds to the ledger: the handles it leaves open and
the buffers it leaves with its caller. The contract of a whole resolution follows by
putting these together along its text, with an induction over the rounds of the descent.
-/
namespace FlowiVfs.Tree

/-- What a piece of code leaves behind: handles that stay open, buffers that stay held. -/
structure Leaves (s t : Ledger) (handles : List OpenHandle) (buffers : List BufferPtr) :
    Prop where
  opened : t.opened = handles ++ s.opened
  held : t.held = buffers ++ s.held
  clean : t.misused = s.misused

namespace Leaves

variable {s t u : Ledger} {hs hs' : List OpenHandle} {bs bs' : List BufferPtr}

theorem refl (s : Ledger) : Leaves s s [] [] := ⟨rfl, rfl, rfl⟩

theorem trans (h : Leaves s t hs bs) (h' : Leaves t u hs' bs') :
    Leaves s u (hs' ++ hs) (bs' ++ bs) where
  opened := by rw [h'.opened, h.opened, List.append_assoc]
  held := by rw [h'.held, h.held, List.append_assoc]
  clean := h'.clean.trans h.clean

/-- Closing the handle that was opened last. -/
theorem close {x : OpenHandle} (h : Leaves s t (x :: hs) bs) : Leaves s (t.close x) hs bs := by
  have hm : x ∈ t.opened := by
    rw [h.opened]
    exact List.mem_cons_self
  simp only [Ledger.close, if_pos hm]
  refine ⟨?_, h.held, h.clean⟩
  show t.opened.erase x = _
  rw [h.opened, List.cons_append, List.erase_cons_head]

/-- Closing the handle below the one that was opened last. -/
theorem closeSecond {x y : OpenHandle} (h : Leaves s t (y :: x :: hs) bs)
    (accounted : t.Accounted) : Leaves s (t.close x) (y :: hs) bs := by
  have other : y ≠ x := by
    have distinct := accounted.opened_nodup
    rw [h.opened] at distinct
    rintro rfl
    exact (List.nodup_cons.mp distinct).1 List.mem_cons_self
  have hm : x ∈ t.opened := by
    rw [h.opened]
    exact List.mem_cons_of_mem _ List.mem_cons_self
  simp only [Ledger.close, if_pos hm]
  refine ⟨?_, h.held, h.clean⟩
  show t.opened.erase x = _
  rw [h.opened, List.cons_append, List.cons_append, List.erase_cons_tail (by simpa using other),
    List.erase_cons_head, List.cons_append]

theorem free {b : BufferPtr} (h : Leaves s t hs (b :: bs)) :
    Leaves s (t.free (some b)) hs bs := by
  have hm : b ∈ t.held := by
    rw [h.held]
    exact List.mem_cons_self
  simp only [Ledger.free, if_pos hm]
  refine ⟨h.opened, ?_, h.clean⟩
  show t.held.erase b = _
  rw [h.held, List.cons_append, List.erase_cons_head]

end Leaves

variable {self : VfsState} {s t : Ledger} {entry : PluginEntry} {handle : DriverPtr}

theorem loadData_leaves {readPath loadedPath : FlString} {size : ℤ} {split : ℕ}
    {data : LoadedData} (hm : ⟨entry.id, handle⟩ ∈ s.opened)
    (run : (loadDataFromPlugin entry handle readPath loadedPath size split).Run contract
      s data t) :
    Leaves s t [] [data.data] ∧ data.handle = handle ∧ data.pathSplitOffset = split := by
  simp only [loadDataFromPlugin, Program.run_bind, run_driver, Program.pure_eq,
    Program.run_done] at run
  obtain ⟨b, u, ⟨fresh, rfl⟩, r, v, rfl, rfl, rfl⟩ := run
  have opened : ⟨entry.id, handle⟩ ∈ (s.allocate b).opened := hm
  have held : b ∈ (s.allocate b).held := List.mem_cons_self
  refine ⟨?_, rfl, rfl⟩
  rw [Ledger.useAt_opened opened, Ledger.lend_held held]
  exact ⟨rfl, rfl, rfl⟩

/-- What `try_open_file` leaves open and allocated, by its result. -/
def TryLoadData.Leaves (entry : PluginEntry) (s t : Ledger) : TryLoadData → Prop
  | .nothing _ => Tree.Leaves s t [] []
  | .directory opened _ _ => Tree.Leaves s t [⟨entry.id, opened⟩] []
  | .loaded data => Tree.Leaves s t [⟨entry.id, data.handle⟩] [data.data]

theorem TryLoadData.Leaves.after {u : Ledger} {data : TryLoadData}
    (rest : data.Leaves entry u t) (first : Tree.Leaves s u [] []) : data.Leaves entry s t := by
  cases data with
  | nothing error => exact first.trans rest
  | directory opened split path => exact first.trans rest
  | loaded data => exact first.trans rest

/-- The split offset of a loaded file lies strictly behind the start of the range. -/
def TryLoadData.Advances (pos : ℕ) : TryLoadData → Prop
  | .loaded data => pos < data.pathSplitOffset
  | _ => True

theorem gives_some {driver h : ℕ} (given : Gives driver (some h) s t) :
    Leaves s t [⟨driver, h⟩] [] := by
  rw [given.2]
  exact ⟨rfl, rfl, rfl⟩

theorem Leaves.mem_opened {x : OpenHandle} {hs : List OpenHandle} {bs : List BufferPtr}
    (h : Leaves s t (x :: hs) bs) : x ∈ t.opened := by
  rw [h.opened]
  exact List.mem_cons_self

theorem tryOpenFrom_leaves {rangeStart rangeEnd : ℕ} {components : List FlString} {left : ℕ}
    {data : TryLoadData}
    (run : (tryOpenFrom self entry rangeStart rangeEnd components left).Run contract s data t) :
    data.Leaves entry s t ∧ data.Advances rangeEnd := by
  induction left generalizing s with
  | zero =>
      simp only [tryOpenFrom, Program.pure_eq, Program.run_done] at run
      obtain ⟨rfl, rfl⟩ := run
      exact ⟨.refl _, trivial⟩
  | succ left ih =>
      simp only [tryOpenFrom, Program.run_bind, run_driver] at run
      obtain ⟨openable, u, rfl, run⟩ := run
      split_ifs at run with ho
      · simp only [Program.run_bind, run_driver] at run
        obtain ⟨result, v, given, run⟩ := run
        cases hr : result.handle with
        | none =>
            simp only [hr] at run
            simp only [contract, hr] at given
            rw [show v = u from given] at run
            exact ih run
        | some h =>
            simp only [hr, Program.run_bind, run_driver] at run
            simp only [contract, hr] at given
            have opened := gives_some given
            obtain ⟨directory, w, rfl, run⟩ := run
            rw [Ledger.use_opened opened.mem_opened] at run
            split_ifs at run with hd
            · simp only [Program.pure_eq, Program.run_done] at run
              obtain ⟨rfl, rfl⟩ := run
              exact ⟨opened, trivial⟩
            · simp only [Program.run_bind, run_driver] at run
              obtain ⟨size, w, rfl, run⟩ := run
              rw [Ledger.useAt_opened opened.mem_opened] at run
              split_ifs at run with hz
              · simp only [Program.run_bind, closePluginHandle, run_driver] at run
                obtain ⟨_, w, rfl, run⟩ := run
                have closed : Leaves u (v.close ⟨entry.id, h⟩) [] [] := opened.close
                obtain ⟨rest, advances⟩ := ih run
                exact ⟨rest.after closed, advances⟩
              · simp only [Program.run_bind, Program.pure_eq, Program.run_done] at run
                obtain ⟨loaded, w, run, rfl, rfl⟩ := run
                obtain ⟨kept, rfl, at_⟩ := loadData_leaves opened.mem_opened run
                refine ⟨?_, ?_⟩
                · exact opened.trans kept
                · show rangeEnd < loaded.pathSplitOffset
                  omega
      · exact ih run

theorem tryOpenFile_leaves {rangeStart rangeEnd : ℕ} {components : List FlString}
    {data : TryLoadData}
    (run : (tryOpenFile self entry rangeStart rangeEnd components).Run contract s data t) :
    data.Leaves entry s t ∧ data.Advances rangeEnd := by
  unfold tryOpenFile at run
  split_ifs at run
  · simp only [Program.pure_eq, Program.run_done] at run
    obtain ⟨rfl, rfl⟩ := run
    exact ⟨.refl _, trivial⟩
  · exact tryOpenFrom_leaves run

/-- What a search for a driver leaves: nothing, or the handle it found. -/
def Found (s t : Ledger) : Option DriverHandle → Prop
  | none => Leaves s t [] []
  | some found => Leaves s t [⟨found.pluginEntry.id, found.handle⟩] []

theorem openRoot_found {tryPath : FlString} {trySegments : ℕ} {plugins : List PluginEntry}
    {found : Option DriverHandle}
    (run : (openRoot tryPath trySegments plugins).Run contract s found t) :
    Found s t found := by
  induction plugins generalizing s with
  | nil =>
      simp only [openRoot, Program.pure_eq, Program.run_done] at run
      obtain ⟨rfl, rfl⟩ := run
      exact .refl _
  | cons e rest ih =>
      simp only [openRoot, Program.run_bind, run_driver] at run
      obtain ⟨result, u, given, run⟩ := run
      cases hr : result.handle with
      | none =>
          simp only [hr] at run
          simp only [contract, hr] at given
          rw [show u = s from given] at run
          exact ih run
      | some h =>
          simp only [hr, Program.pure_eq, Program.run_done] at run
          obtain ⟨rfl, rfl⟩ := run
          simp only [contract, hr] at given
          exact gives_some given

theorem findRoot_found {components : List FlString} {start left : ℕ}
    {found : Option DriverHandle}
    (run : (findRootFrom self components start left).Run contract s found t) :
    Found s t found := by
  induction left generalizing s with
  | zero =>
      simp only [findRootFrom, Program.pure_eq, Program.run_done] at run
      obtain ⟨rfl, rfl⟩ := run
      exact .refl _
  | succ left ih =>
      simp only [findRootFrom, Program.run_bind] at run
      obtain ⟨root, u, first, run⟩ := run
      have opened := openRoot_found first
      cases root with
      | some root =>
          simp only [Program.pure_eq, Program.run_done] at run
          obtain ⟨rfl, rfl⟩ := run
          exact opened
      | none =>
          have rest := ih run
          cases found with
          | none => exact Leaves.trans opened rest
          | some found => exact Leaves.trans opened rest

/-- What a memory driver leaves: nothing, or a handle that has taken the buffer. -/
def FoundMemory (b : BufferPtr) (s t : Ledger) : Option DriverHandle → Prop
  | none => Leaves s t [] []
  | some inner =>
      t.opened = ⟨inner.pluginEntry.id, inner.handle⟩ :: s.opened ∧
        t.held = s.held.erase b ∧ t.misused = s.misused

theorem openMemory_found {path : FlString} {b : BufferPtr} {contents : Bytes} {size : ℤ}
    {plugins : List PluginEntry} {found : Option DriverHandle} (held : b ∈ s.held)
    (run : (openMemoryWith path b contents size plugins).Run contract s found t) :
    FoundMemory b s t found := by
  induction plugins with
  | nil =>
      simp only [openMemoryWith, Program.pure_eq, Program.run_done] at run
      obtain ⟨rfl, rfl⟩ := run
      exact .refl _
  | cons e rest ih =>
      unfold openMemoryWith at run
      split_ifs at run with skip
      · exact ih run
      · simp only [Program.run_bind, run_driver] at run
        obtain ⟨result, u, given, run⟩ := run
        cases hr : result.handle with
        | some h =>
            simp only [hr, Program.pure_eq, Program.run_done] at run
            obtain ⟨rfl, rfl⟩ := run
            simp only [contract, hr] at given
            obtain ⟨fresh, rfl⟩ := given
            simp only [Ledger.take, if_pos held]
            exact ⟨rfl, rfl, rfl⟩
        | none =>
            simp only [hr] at run
            simp only [contract, hr] at given
            have same : u = s := by
              rw [show u = s.lend b from given, Ledger.lend_held held]
            rw [same] at run
            split_ifs at run with corrupt
            · simp only [Program.pure_eq, Program.run_done] at run
              obtain ⟨rfl, rfl⟩ := run
              exact .refl _
            · exact ih run

theorem FoundMemory.after {u : Ledger} {hs : List OpenHandle} {bs : List BufferPtr}
    {b : BufferPtr} {inner : DriverHandle} (found : FoundMemory b u t (some inner))
    (before : Leaves s u hs (b :: bs)) :
    Leaves s t (⟨inner.pluginEntry.id, inner.handle⟩ :: hs) bs where
  opened := by rw [found.1, before.opened, List.cons_append]
  held := by rw [found.2.1, before.held, List.cons_append, List.erase_cons_head]
  clean := found.2.2.trans before.clean

def FinalDriver.Leaves (s t : Ledger) : FinalDriver → Prop
  | .resolved entry handle => Tree.Leaves s t [⟨entry.id, handle⟩] []
  | .failed _ => Tree.Leaves s t [] []

theorem verifyContainer_leaves {start : Ledger} {final : FinalDriver}
    (before : Leaves start s [⟨entry.id, handle⟩] [])
    (run : (verifyContainer entry handle).Run contract s final t) :
    final.Leaves start t := by
  simp only [verifyContainer, Program.run_bind, run_driver] at run
  obtain ⟨directory, u, rfl, run⟩ := run
  rw [Ledger.use_opened before.mem_opened] at run
  split_ifs at run
  · simp only [Program.pure_eq, Program.run_done] at run
    obtain ⟨rfl, rfl⟩ := run
    exact before
  · simp only [closePluginHandle, Program.run_bind, run_driver, Program.pure_eq,
      Program.run_done] at run
    obtain ⟨_, u, rfl, rfl, rfl⟩ := run
    exact before.close

/-- The descent consumes the handle it is given and needs one round for each segment
that is left, and one more to look at the end. -/
theorem descend_leaves {start : Ledger} {components : List FlString} {rounds pos : ℕ}
    {result : Option FinalDriver} (accounted : s.Accounted)
    (before : Leaves start s [⟨entry.id, handle⟩] [])
    (enough : components.length < pos + rounds ∧ 0 < rounds)
    (run : (descend self components rounds entry handle pos).Run contract s result t) :
    ∃ final, result = some final ∧ final.Leaves start t := by
  induction rounds generalizing s entry handle pos with
  | zero => exact absurd enough.2 (by omega)
  | succ rounds ih =>
      unfold descend at run
      split_ifs at run with more
      · simp only [Program.run_bind] at run
        obtain ⟨data, u, opening, run⟩ := run
        obtain ⟨left, advances⟩ := tryOpenFile_leaves opening
        cases data with
        | nothing error =>
            simp only [Program.run_bind, closePluginHandle, run_driver, Program.pure_eq,
              Program.run_done] at run
            obtain ⟨_, v, rfl, _, w, rfl, rfl, rfl⟩ := run
            refine ⟨_, rfl, ?_⟩
            exact Leaves.close (before.trans left)
        | directory opened split path =>
            simp only [Program.run_bind, closePluginHandle, run_driver, Program.pure_eq,
              Program.run_done] at run
            obtain ⟨_, v, rfl, rfl, rfl⟩ := run
            refine ⟨_, rfl, ?_⟩
            exact Leaves.closeSecond (before.trans left) (accounted.run opening)
        | loaded data =>
            have both : Leaves start u [⟨entry.id, data.handle⟩, ⟨entry.id, handle⟩]
                [data.data] := before.trans left
            dsimp only at run
            split_ifs at run with bad
            · simp only [Program.run_bind, closePluginHandle, run_driver, Program.pure_eq,
                Program.run_done] at run
              obtain ⟨_, v, rfl, _, w, rfl, _, x, rfl, rfl, rfl⟩ := run
              exact ⟨_, rfl, both.close.free.close⟩
            · simp only [Program.run_bind, closePluginHandle, run_driver] at run
              obtain ⟨memory, v, search, _, w, rfl, _, x, rfl, run⟩ := run
              have held : data.data ∈ u.held := by
                rw [both.held]
                exact List.mem_cons_self
              have found := openMemory_found held search
              have accountedV := (accounted.run opening).run search
              cases memory with
              | none =>
                  have kept : Leaves start v _ _ := both.trans found
                  simp only [Program.run_bind, run_driver, Program.pure_eq,
                    Program.run_done] at run
                  obtain ⟨_, y, rfl, rfl, rfl⟩ := run
                  exact ⟨_, rfl, kept.close.close.free⟩
              | some inner =>
                  have three := FoundMemory.after found both
                  have two := three.closeSecond accountedV
                  have one := two.closeSecond (accountedV.close _)
                  have step : pos < data.pathSplitOffset := advances
                  exact ih ((accountedV.close _).close _) one (by omega) run
      · simp only [Program.run_bind, Program.pure_eq, Program.run_done] at run
        obtain ⟨final, u, verify, rfl, rfl⟩ := run
        exact ⟨final, rfl, verifyContainer_leaves before verify⟩

theorem enterRootFile_leaves {start : Ledger} {components : List FlString}
    {result : VfsResolveError ⊕ DriverHandle} (accounted : s.Accounted)
    (before : Leaves start s [⟨entry.id, handle⟩] [])
    (run : (enterRootFile self components entry handle).Run contract s result t) :
    match result with
    | .inl _ => Leaves start t [] []
    | .inr inner => Leaves start t [⟨inner.pluginEntry.id, inner.handle⟩] [] := by
  simp only [enterRootFile, Program.run_bind, run_driver] at run
  obtain ⟨size, u, rfl, run⟩ := run
  rw [Ledger.useAt_opened before.mem_opened] at run
  split_ifs at run with hz
  · simp only [closePluginHandle, Program.run_bind, run_driver, Program.pure_eq,
      Program.run_done] at run
    obtain ⟨_, u, rfl, rfl, rfl⟩ := run
    exact before.close
  · simp only [Program.run_bind] at run
    obtain ⟨data, v, loading, run⟩ := run
    obtain ⟨kept, -, -⟩ := loadData_leaves before.mem_opened loading
    have both : Leaves start v [⟨entry.id, handle⟩] [data.data] := before.trans kept
    split_ifs at run with bad
    · simp only [closePluginHandle, Program.run_bind, run_driver, Program.pure_eq,
        Program.run_done] at run
      obtain ⟨_, w, rfl, _, x, rfl, rfl, rfl⟩ := run
      exact both.free.close
    · simp only [Program.run_bind] at run
      obtain ⟨memory, w, search, run⟩ := run
      have held : data.data ∈ v.held := by
        rw [both.held]
        exact List.mem_cons_self
      have found := openMemory_found held search
      cases memory with
      | none =>
          have same : Leaves start w _ _ := both.trans found
          simp only [closePluginHandle, Program.run_bind, run_driver, Program.pure_eq,
            Program.run_done] at run
          obtain ⟨_, x, rfl, _, y, rfl, rfl, rfl⟩ := run
          exact same.free.close
      | some inner =>
          simp only [closePluginHandle, Program.run_bind, run_driver, Program.pure_eq,
            Program.run_done] at run
          obtain ⟨_, x, rfl, rfl, rfl⟩ := run
          exact (found.after both).closeSecond ((accounted.run loading).run search)

/-- The contract of `vfs_tree_resolve_full_path`: it consumes the root handle. -/
theorem resolveFullPath_leaves {start : Ledger} {components : List FlString}
    {rounds pathStart : ℕ} {result : Option FinalDriver} (accounted : s.Accounted)
    (before : Leaves start s [⟨entry.id, handle⟩] [])
    (enough : components.length < pathStart + rounds ∧ 0 < rounds)
    (run : (vfsTreeResolveFullPath self rounds entry handle components pathStart).Run contract
      s result t) : ∃ final, result = some final ∧ final.Leaves start t := by
  unfold vfsTreeResolveFullPath at run
  split_ifs at run with consumed
  · simp only [Program.run_bind, run_driver] at run
    obtain ⟨directory, u, rfl, run⟩ := run
    rw [Ledger.use_opened before.mem_opened] at run
    split_ifs at run with hd
    · exact descend_leaves accounted before enough run
    · simp only [Program.run_bind] at run
      obtain ⟨entered, v, entering, run⟩ := run
      have left := enterRootFile_leaves accounted before entering
      cases entered with
      | inl error =>
          simp only [Program.pure_eq, Program.run_done] at run
          obtain ⟨rfl, rfl⟩ := run
          exact ⟨_, rfl, left⟩
      | inr inner => exact descend_leaves (accounted.run entering) left enough run
  · exact descend_leaves accounted before enough run

/-- The contract of `vfs_tree_mount_path`. -/
theorem mountPath_leaves {path : FlString} {rounds : ℕ} {result : Option FinalDriver}
    (accounted : s.Accounted) (enough : (self.paths.components path).length < rounds)
    (run : (vfsTreeMountPath self rounds path).Run contract s result t) :
    ∃ final, result = some final ∧ final.Leaves s t := by
  simp only [vfsTreeMountPath, Program.run_bind] at run
  obtain ⟨root, u, search, run⟩ := run
  have found := findRoot_found search
  cases root with
  | none =>
      simp only [Program.pure_eq, Program.run_done] at run
      obtain ⟨rfl, rfl⟩ := run
      exact ⟨_, rfl, found⟩
  | some root =>
      exact resolveFullPath_leaves (accounted.run search) found ⟨by omega, by omega⟩ run

/-- A buffer was freed by the file system, exactly once and by nobody else; or exactly
one handle took it, which is open and owns it or has freed it when it was closed. -/
def Ledger.SettledOnce (t : Ledger) (b : BufferPtr) : Prop :=
  (t.freed.count b = 1 ∧ b ∉ t.taken.map Prod.fst ∧ b ∉ t.released) ∨
    (b ∉ t.freed ∧ (t.taken.map Prod.fst).count b = 1 ∧ b ∉ t.released ∧
      ∃ owner ∈ t.opened, (b, owner) ∈ t.taken) ∨
    (b ∉ t.freed ∧ b ∉ t.taken.map Prod.fst ∧ t.released.count b = 1)

theorem Ledger.Accounted.held_allocated (accounted : s.Accounted) {b : BufferPtr}
    (hb : b ∈ s.held) : b ∈ s.allocated := by
  refine accounted.partition.mem_iff.mpr ?_
  simp only [List.mem_append]
  exact .inl (.inl (.inl hb))

theorem Ledger.Accounted.settledOnce (accounted : t.Accounted) {b : BufferPtr}
    (allocated : b ∈ t.allocated) (gone : b ∉ t.held) : t.SettledOnce b := by
  have once : t.allocated.count b = 1 := List.count_eq_one_of_mem accounted.allocated_nodup allocated
  have spread := accounted.partition.count_eq b
  simp only [List.count_append, once, List.count_eq_zero_of_not_mem gone] at spread
  by_cases inTaken : b ∈ t.taken.map Prod.fst
  · have positive := List.count_pos_iff.mpr inTaken
    obtain ⟨⟨c, owner⟩, hm, rfl⟩ := List.mem_map.mp inTaken
    exact .inr (.inl ⟨List.count_eq_zero.mp (by omega), by omega,
      List.count_eq_zero.mp (by omega), owner, accounted.owned _ hm, hm⟩)
  · have none := List.count_eq_zero_of_not_mem inTaken
    by_cases inFreed : b ∈ t.freed
    · have positive := List.count_pos_iff.mpr inFreed
      exact .inl ⟨by omega, inTaken, List.count_eq_zero.mp (by omega)⟩
    · have zero := List.count_eq_zero_of_not_mem inFreed
      exact .inr (.inr ⟨inFreed, inTaken, by omega⟩)

/-- The descent never runs out of rounds; on success one handle that it opened is open,
the one it returns, and on an error none; every buffer it loaded has one end; and no
handle was closed twice or used when it was not open. -/
theorem mount_path_ownership (self : VfsState) (path : FlString) {rounds : ℕ} {s t : Ledger}
    {result : Option FinalDriver} (enough : (self.paths.components path).length < rounds)
    (accounted : s.Accounted) (clean : s.misused = false)
    (run : (vfsTreeMountPath self rounds path).Run contract s result t) :
    ∃ final, result = some final ∧ t.misused = false ∧
      (match final with
        | .resolved entry handle => t.opened = ⟨entry.id, handle⟩ :: s.opened
        | .failed _ => t.opened = s.opened) ∧
      ∀ b ∈ t.allocated, b ∉ s.allocated → t.SettledOnce b := by
  obtain ⟨final, rfl, leaves⟩ := mountPath_leaves accounted enough run
  have settled : t.held = s.held → ∀ b ∈ t.allocated, b ∉ s.allocated → t.SettledOnce b := by
    intro held b allocated new
    refine (accounted.run run).settledOnce allocated fun hb => new ?_
    rw [held] at hb
    exact accounted.held_allocated hb
  cases final with
  | resolved entry handle =>
      exact ⟨_, rfl, leaves.clean.trans clean, leaves.opened, settled leaves.held⟩
  | failed error => exact ⟨_, rfl, leaves.clean.trans clean, leaves.opened, settled leaves.held⟩

section
/-! A conversation with a local driver, whose one directory and one file are named by
single letters, and an archive driver that takes any buffer. -/

/-- A number above all of a list. -/
def above : List ℕ → ℕ
  | [] => 0
  | n :: rest => n + 1 + above rest

theorem lt_above {n : ℕ} {ns : List ℕ} (hn : n ∈ ns) : n < above ns := by
  induction ns with
  | nil => exact absurd hn List.not_mem_nil
  | cons m rest ih =>
      simp only [above]
      rcases List.mem_cons.mp hn with rfl | hn
      · omega
      · have below := ih hn
        omega

def newHandle (s : Ledger) : DriverPtr := above (s.opened.map OpenHandle.handle)

def newBuffer (s : Ledger) : BufferPtr := above s.allocated

theorem newHandle_fresh (s : Ledger) (driver : ℕ) : ⟨driver, newHandle s⟩ ∉ s.opened :=
  fun hm => Nat.lt_irrefl _ (lt_above (List.mem_map_of_mem (f := OpenHandle.handle) hm))

theorem newBuffer_fresh (s : Ledger) : newBuffer s ∉ s.allocated :=
  fun hm => Nat.lt_irrefl _ (lt_above hm)

def obliging : Program.Handler drivers Ledger
  | .canOpen .., s => (true, s)
  | .openPath e parent path _ _, s =>
      let u := s.openIn e.id parent
      if e.id = 0 ∧ (path = ['d'] ∨ path = ['f']) then
        (⟨some (newHandle u), false, false⟩, u.gain ⟨e.id, newHandle u⟩)
      else (⟨none, false, false⟩, u)
  | .isDirectory e h, s => (e.id = 1 ∨ h = 0, s.use ⟨e.id, h⟩)
  | .getSize e h _, s => (3, s.useAt e.id h)
  | .read e h _ b size, s => (⟨size, [1, 2, 3]⟩, (s.useAt e.id h).lend b)
  | .listDirectory e h _, s => ([], s.useAt e.id h)
  | .clone e h, s => (⟨none, false, false⟩, s.use ⟨e.id, h⟩)
  | .close e h, s => ((), s.close ⟨e.id, h⟩)
  | .openMemory e b _ _ _, s =>
      (⟨some (newHandle s), true, false⟩, s.take b ⟨e.id, newHandle s⟩)
  | .getFilePath e h _, s => ([], s.useAt e.id h)
  | .malloc _, s => (newBuffer s, s.allocate (newBuffer s))
  | .free b, s => ((), s.free b)

theorem obliging_contract (s : Ledger) (op : drivers.Op) :
    contract s op (obliging op s).1 (obliging op s).2 := by
  cases op with
  | openPath e parent path flags options =>
      simp only [obliging, contract]
      split_ifs
      · exact ⟨newHandle_fresh _ _, rfl⟩
      · exact rfl
  | openMemory e b contents size path => exact ⟨newHandle_fresh s e.id, rfl⟩
  | malloc size => exact ⟨newBuffer_fresh s, rfl⟩
  | _ => exact rfl

def obligingState : VfsState where
  plugins := [⟨1, { name := ['z'], memory := true, hasOpenMemory := true }⟩, ⟨0, { name := ['l'] }⟩]
  paths := letters

theorem mount_path_ownership_nested : ∃ (t : Ledger) (result : Option FinalDriver),
    (vfsTreeMountPath obligingState 3 ['d', 'f']).Run contract {} result t ∧
      result = some (.resolved ⟨1, { name := ['z'], memory := true, hasOpenMemory := true }⟩ 3) ∧
      t.opened = [⟨1, 3⟩] ∧ t.taken = [(0, ⟨1, 3⟩)] ∧ t.misused = false ∧ t.SettledOnce 0 := by
  have run := Program.run_execute (p := vfsTreeMountPath obligingState 3 ['d', 'f']) (s := {})
    obliging_contract
  obtain ⟨final, isFinal, clean, opened, settled⟩ := mount_path_ownership obligingState
    ['d', 'f'] (by decide) .empty rfl run
  exact ⟨_, _, run, by decide, by decide, by decide, clean,
    settled 0 (by decide) (by decide)⟩

end

end FlowiVfs.Tree
