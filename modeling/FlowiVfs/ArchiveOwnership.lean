import FlowiVfs.MountOwnership
import FlowiVfs.MountWorld
import FlowiVfs.TreeRuns

/-!
# Who owns what while a file is loaded as an archive

`vfs_tree_try_load_as_archive` for arbitrary drivers within their contract, on a mount and
the ledger of its drivers. What each part of it acquires is a list of handles, of buffers
that the file system holds, and of buffers that a driver took. A section closes with the
drivers what it closes in the tree.
-/
namespace FlowiVfs.Tree

open Program

/-- What a piece of code has acquired since `s`. -/
structure Acquires (s t : Ledger) (handles : List OpenHandle) (buffers : List BufferPtr)
    (taken : List (BufferPtr × OpenHandle)) : Prop where
  opened : t.opened.Perm (handles ++ s.opened)
  held : t.held = buffers ++ s.held
  taken : t.taken = taken ++ s.taken
  clean : t.misused = s.misused

section
variable {s t u : Ledger} {hs hs' : List OpenHandle} {bs : List BufferPtr}
variable {ts : List (BufferPtr × OpenHandle)} {x : OpenHandle} {b : BufferPtr}

theorem Acquires.refl (s : Ledger) : Acquires s s [] [] [] := ⟨.refl _, rfl, rfl, rfl⟩

theorem Acquires.mem (h : Acquires s t hs bs ts) (hx : x ∈ hs) : x ∈ t.opened :=
  h.opened.mem_iff.mpr (List.mem_append_left _ hx)

theorem Acquires.of_perm (h : Acquires s t hs bs ts) (perm : hs.Perm hs') :
    Acquires s t hs' bs ts :=
  ⟨h.opened.trans (perm.append_right _), h.held, h.taken, h.clean⟩

/-- A handle that was acquired is not one that was open before. -/
theorem Acquires.fresh (h : Acquires s t hs bs ts) (accounted : t.Accounted) (hx : x ∈ hs) :
    x ∉ s.opened := by
  have distinct := h.opened.nodup_iff.mp accounted.opened_nodup
  intro before
  exact (List.nodup_append.mp distinct).2.2 x hx x before rfl

theorem Acquires.gain (h : Acquires s t hs bs ts) : Acquires s (t.gain x) (x :: hs) bs ts :=
  ⟨h.opened.cons x, h.held, h.taken, h.clean⟩

theorem Acquires.close (h : Acquires s t (x :: hs) bs ts) (start : s.Accounted)
    (accounted : t.Accounted) :
    Acquires s (t.close x) hs bs (ts.filter fun p => p.2 ≠ x) := by
  have fresh := h.fresh accounted List.mem_cons_self
  have kept : s.taken.filter (fun p => decide (p.2 ≠ x)) = s.taken := by
    refine List.filter_eq_self.mpr fun p hp => ?_
    have other : p.2 ≠ x := by
      intro same
      exact fresh (same ▸ start.owned p hp)
    simpa using other
  unfold Ledger.close
  rw [if_pos (h.mem List.mem_cons_self)]
  refine ⟨?_, h.held, ?_, h.clean⟩
  · have shorter := h.opened.erase x
    rwa [List.cons_append, List.erase_cons_head] at shorter
  · show t.taken.filter _ = _
    rw [h.taken, List.filter_append, kept]

theorem Acquires.allocate (h : Acquires s t hs bs ts) :
    Acquires s (t.allocate b) hs (b :: bs) ts :=
  ⟨h.opened, congrArg (List.cons b) h.held, h.taken, h.clean⟩

theorem Acquires.free (h : Acquires s t hs (b :: bs) ts) :
    Acquires s (t.free (some b)) hs bs ts := by
  have held : b ∈ t.held := by
    rw [h.held]
    exact List.mem_cons_self
  simp only [Ledger.free, if_pos held]
  refine ⟨h.opened, ?_, h.taken, h.clean⟩
  show t.held.erase b = _
  rw [h.held, List.cons_append, List.erase_cons_head]

theorem Acquires.take (h : Acquires s t hs (b :: bs) ts) :
    Acquires s (t.take b x) (x :: hs) bs ((b, x) :: ts) := by
  have held : b ∈ t.held := by
    rw [h.held]
    exact List.mem_cons_self
  unfold Ledger.take
  rw [if_pos held]
  refine ⟨h.opened.cons x, ?_, ?_, h.clean⟩
  · show t.held.erase b = _
    rw [h.held, List.cons_append, List.erase_cons_head]
  · show (b, x) :: t.taken = _
    rw [h.taken, List.cons_append]

end

/-! ## Clones -/

section
variable {s t u : Ledger} {entry : PluginEntry} {handle : DriverPtr}

/-- Handles of one driver. -/
def handlesOf (entry : PluginEntry) (handles : List DriverPtr) : List OpenHandle :=
  handles.map (OpenHandle.mk entry.id)

theorem closeClones_acquires {clones : List DriverPtr} {hs : List OpenHandle}
    {bs : List BufferPtr} {ts : List (BufferPtr × OpenHandle)} (start : s.Accounted)
    (accounted : u.Accounted) (owners : ∀ p ∈ ts, p.2 ∉ handlesOf entry clones)
    (acquired : Acquires s u (handlesOf entry clones ++ hs) bs ts)
    (run : (closeClones entry clones).Run contract u () t) :
    Acquires s t hs bs ts ∧ t.Accounted := by
  induction clones generalizing u with
  | nil =>
      obtain ⟨-, rfl⟩ := run_done.mp run
      exact ⟨acquired, accounted⟩
  | cons c rest ih =>
      obtain ⟨_, v, closed, run⟩ := run_bind.mp run
      cases (run_call.mp closed : v = u.close ⟨entry.id, c⟩)
      have shorter := acquired.close start accounted
      have kept : ts.filter (fun p => decide (p.2 ≠ ⟨entry.id, c⟩)) = ts := by
        refine List.filter_eq_self.mpr fun p hp => ?_
        have other : p.2 ≠ ⟨entry.id, c⟩ := by
          intro same
          exact owners p hp (same ▸ List.mem_cons_self)
        simpa using other
      rw [kept] at shorter
      exact ih (accounted.close _)
        (fun p hp inside => owners p hp (List.mem_cons_of_mem _ inside)) shorter run

/-- A row of slots is full of clones, or no clone is left. -/
theorem cloneLoop_acquires {left : ℕ} {clones : List DriverPtr} {row : VfsHandles}
    {hs : List OpenHandle} {bs : List BufferPtr} {ts : List (BufferPtr × OpenHandle)}
    (start : s.Accounted) (accounted : u.Accounted)
    (source : ⟨entry.id, handle⟩ ∈ hs) (owners : ∀ p ∈ ts, p.2 ∈ hs)
    (acquired : Acquires s u (handlesOf entry clones ++ hs) bs ts)
    (run : (cloneLoop entry handle left clones).Run contract u row t) :
    t.Accounted ∧
      ((row = [] ∧ Acquires s t hs bs ts) ∨
        ∃ new, row = some handle :: (clones ++ new).map some ∧ new.length = left ∧
          Acquires s t (handlesOf entry (clones ++ new) ++ hs) bs ts) := by
  induction left generalizing u clones with
  | zero =>
      obtain ⟨rfl, rfl⟩ := run_done.mp run
      refine ⟨accounted, .inr ⟨[], ?_, rfl, ?_⟩⟩
      · rw [List.append_nil]
      · rw [List.append_nil]
        exact acquired
  | succ left ih =>
      have apart : ∀ p ∈ ts, p.2 ∉ handlesOf entry clones := by
        intro p hp inside
        have distinct := (acquired.opened.nodup_iff.mp accounted.opened_nodup).of_append_left
        exact (List.nodup_append.mp distinct).2.2 _ inside _ (owners p hp) rfl
      have gives_up : ∀ {v : Ledger}, v = u →
          Run contract (do
            closeClones entry clones
            pure []) v row t → t.Accounted ∧ row = [] ∧ Acquires s t hs bs ts := by
        rintro _ rfl run
        obtain ⟨_, w, closed, done⟩ := run_bind.mp run
        obtain ⟨rfl, rfl⟩ := run_done.mp done
        have closes := closeClones_acquires start accounted apart acquired closed
        exact ⟨closes.2, rfl, closes.1⟩
      unfold cloneLoop at run
      cases has : entry.plugin.hasClone with
      | false =>
          rw [has, if_neg (by simp)] at run
          have ended := gives_up rfl run
          exact ⟨ended.1, .inl ended.2⟩
      | true =>
          rw [has, if_pos rfl] at run
          obtain ⟨res, v, made, run⟩ := run_bind.mp run
          have given := run_driver.mp made
          rw [contract] at given
          have inside := acquired.mem (List.mem_append_right _ source)
          rw [Ledger.use_opened inside] at given
          cases gotten : res.handle with
          | none =>
              simp only [gotten, Gives] at given run
              have ended := gives_up given run
              exact ⟨ended.1, .inl ended.2⟩
          | some clone =>
              simp only [gotten, Gives] at given run
              obtain ⟨fresh, rfl⟩ := given
              have more : Acquires s (u.gain ⟨entry.id, clone⟩)
                  (handlesOf entry (clones ++ [clone]) ++ hs) bs ts := by
                refine acquired.gain.of_perm ?_
                unfold handlesOf
                rw [List.map_append, List.append_assoc]
                exact List.perm_middle.symm
              obtain ⟨after, ended⟩ := ih (accounted.gain fresh) more run
              refine ⟨after, ended.imp_right ?_⟩
              rintro ⟨new, rfl, length, all⟩
              refine ⟨clone :: new, ?_, congrArg Nat.succ length, ?_⟩
              · rw [List.append_assoc]
                rfl
              · rwa [List.append_assoc] at all

end

/-! ## A mount and its drivers -/

/-- A mount, the ledger of its drivers, and the handles that opens have returned. -/
structure LoadState where
  mount : FlVfsMount
  ledger : Ledger
  opens : List OpenHandle := []

/-- The handle that an open returns, by path or in memory. -/
def opensOf : (op : DriverOp) → op.Reply → List OpenHandle
  | .openPath e _ _ _ _, r => r.handle.toList.map (OpenHandle.mk e.id)
  | .openMemory e _ _ _ _, r => r.handle.toList.map (OpenHandle.mk e.id)
  | _, _ => []

/-- The handles that a section has closed. -/
def closedSince (m m' : FlVfsMount) : List OpenHandle :=
  m'.tree.closed.drop m.tree.closed.length

def Loading (natural : NaturalCompare) : Environment vfs LoadState := fun s op r s' =>
  match op, r with
  | .driver op, r =>
      contract s.ledger op r s'.ledger ∧ s'.mount = s.mount ∧ s'.opens = s.opens ++ opensOf op r
  | .mount op, r =>
      (∃ fresh, op.run natural fresh s.mount = some (r, s'.mount)) ∧ s'.opens = s.opens ∧
        s'.ledger = (closedSince s.mount s'.mount).foldl Ledger.close s.ledger
  | _, _ => s' = s

section
variable {natural : NaturalCompare} {s t : LoadState}

/-- Calls of drivers leave the mount alone. -/
theorem loading_drivers {A : Type} {p : DriverProgram A} {a : A}
    (run : Run (Loading natural) (onDrivers p) s a t) :
    p.Run contract s.ledger a t.ledger ∧ t.mount = s.mount := by
  induction p generalizing s with
  | done c =>
      obtain ⟨rfl, rfl⟩ := run_done.mp run
      exact ⟨.done _ _, rfl⟩
  | perform op next ih =>
      obtain ⟨r, u, ⟨answer, mount, -⟩, rest⟩ := run_perform.mp run
      obtain ⟨tail, same⟩ := ih r rest
      exact ⟨.perform answer tail, same.trans mount⟩

/-- Programs that open nothing return no handle of an open. -/
theorem loading_opens {A : Type} {p : DriverProgram A} {a : A}
    (only : Only (fun op => ∀ r, opensOf op r = []) p)
    (run : Run (Loading natural) (onDrivers p) s a t) : t.opens = s.opens := by
  induction p generalizing s with
  | done c =>
      obtain ⟨-, rfl⟩ := run_done.mp run
      rfl
  | perform op next ih =>
      obtain ⟨r, u, ⟨-, -, opens⟩, rest⟩ := run_perform.mp run
      rw [only.1 r, List.append_nil] at opens
      exact (ih r (only.2 r) rest).trans opens

theorem closeClones_opens (entry : PluginEntry) (clones : List DriverPtr) :
    Only (fun op => ∀ r, opensOf op r = []) (closeClones entry clones) := by
  induction clones with
  | nil => trivial
  | cons c rest ih =>
      refine .bind (p := driver (.close entry c)) ?_ fun _ => ih
      exact ⟨fun _ => rfl, fun _ => trivial⟩

theorem cloneLoop_opens (entry : PluginEntry) (handle : DriverPtr) (left : ℕ)
    (clones : List DriverPtr) :
    Only (fun op => ∀ r, opensOf op r = []) (cloneLoop entry handle left clones) := by
  induction left generalizing clones with
  | zero => trivial
  | succ left ih =>
      have closes : Only (fun op => ∀ r, opensOf op r = []) (do
          closeClones entry clones
          pure ([] : VfsHandles)) := (closeClones_opens entry clones).bind fun _ => trivial
      unfold cloneLoop
      refine .ite ⟨fun _ => rfl, fun res => ?_⟩ closes
      cases res with
      | mk handle =>
          cases handle with
          | none => exact closes
          | some clone => exact ih _

end

/-! ## Loading by path and from memory -/

/-- What is held of what was acquired since `base`, on an unchanged mount. -/
structure Holding (base t : LoadState) (handles : List OpenHandle) (buffers : List BufferPtr)
    (taken : List (BufferPtr × OpenHandle)) : Prop where
  mount : t.mount = base.mount
  accounted : t.ledger.Accounted
  acquired : Acquires base.ledger t.ledger handles buffers taken
  opens : ∃ earlier, t.opens = base.opens ++ earlier

/-- What a load that succeeds has acquired before it swaps the driver of the node. -/
def Loads (natural : NaturalCompare) (slots : ℕ) (plugins : List PluginEntry) (node : NodePtr)
    (base t : LoadState) : Prop :=
  ∃ u e h clones memoryData memorySize, e ∈ plugins ∧ clones.length = slots - 1 ∧
    (∃ earlier, u.opens = base.opens ++ earlier ++ [⟨e.id, h⟩]) ∧
    Holding base u (handlesOf e clones ++ [⟨e.id, h⟩]) []
      ((memoryData : Option BufferPtr).toList.map fun b => (b, ⟨e.id, h⟩)) ∧
    Loading natural u (.mount (.installArchive node e ((h :: clones).map some) memoryData
      memorySize)) () t

section
variable {natural : NaturalCompare} {slots : ℕ} {base s t : LoadState} {node : NodePtr}
variable {hs : List OpenHandle} {bs : List BufferPtr} {ts : List (BufferPtr × OpenHandle)}
variable {e : PluginEntry}

/-- A call of a driver that opens nothing. -/
theorem Holding.calls {op : DriverOp} {r : op.Reply} (held : Holding base s hs bs ts)
    (quiet : ∀ r, opensOf op r = [])
    (run : Run (Loading natural) (onDrivers (driver op)) s r t) :
    contract s.ledger op r t.ledger ∧ t.mount = base.mount ∧ t.opens = s.opens ∧
      t.ledger.Accounted := by
  obtain ⟨answer, mount, opens⟩ := run_call.mp run
  rw [quiet r, List.append_nil] at opens
  exact ⟨answer, mount.trans held.mount, opens, held.accounted.step answer⟩

/-- A call of a driver that changes nothing. -/
theorem Holding.asks {op : DriverOp} {r : op.Reply} (held : Holding base s hs bs ts)
    (quiet : ∀ r, opensOf op r = [])
    (same : ∀ {l : Ledger}, contract s.ledger op r l → l = s.ledger)
    (run : Run (Loading natural) (onDrivers (driver op)) s r t) : Holding base t hs bs ts := by
  obtain ⟨answer, mount, opens, accounted⟩ := held.calls quiet run
  refine ⟨mount, accounted, ?_, ?_⟩
  · rw [same answer]
    exact held.acquired
  · rw [opens]
    exact held.opens

theorem Holding.closes {h : DriverPtr} (held : Holding base s (⟨e.id, h⟩ :: hs) bs ts)
    (start : base.ledger.Accounted)
    (run : Run (Loading natural) (onDrivers (closePluginHandle e h)) s () t) :
    Holding base t hs bs (ts.filter fun p => p.2 ≠ ⟨e.id, h⟩) := by
  obtain ⟨answer, mount, opens, accounted⟩ := held.calls (fun _ => rfl) run
  refine ⟨mount, accounted, ?_, ?_⟩
  · rw [show t.ledger = _ from answer]
    exact held.acquired.close start held.accounted
  · rw [opens]
    exact held.opens

/-- An open without a container returns a handle that was not open, or none. -/
theorem Holding.opens_path {path : FlString} {flags : ℕ} {options : MountOptions}
    {r : OpenResult} (held : Holding base s hs bs ts)
    (run : Run (Loading natural) (onDrivers (driver (.openPath e none path flags options))) s r t) :
    match r.handle with
    | none => Holding base t hs bs ts
    | some h => Holding base t (⟨e.id, h⟩ :: hs) bs ts ∧ t.opens = s.opens ++ [⟨e.id, h⟩] := by
  obtain ⟨answer, mount, opens⟩ := run_call.mp run
  have accounted := held.accounted.step answer
  obtain ⟨earlier, logged⟩ := held.opens
  simp only [contract] at answer
  simp only [opensOf] at opens
  cases gotten : r.handle with
  | none =>
      simp only [gotten, Gives] at answer
      refine ⟨mount.trans held.mount, accounted, ?_, earlier, ?_⟩
      · rw [answer]
        exact held.acquired
      · rw [opens, gotten, logged]
        simp
  | some h =>
      simp only [gotten, Gives] at answer
      have now : t.opens = s.opens ++ [⟨e.id, h⟩] := by
        rw [opens, gotten]
        rfl
      refine ⟨⟨mount.trans held.mount, accounted, ?_, earlier ++ [⟨e.id, h⟩], ?_⟩, now⟩
      · rw [answer.2]
        exact held.acquired.gain
      · rw [now, logged, List.append_assoc]

/-- The clones for the row of slots, or none. -/
theorem Holding.clones {h : DriverPtr} {row : VfsHandles} (start : base.ledger.Accounted)
    (held : Holding base s hs bs ts) (source : ⟨e.id, h⟩ ∈ hs) (owners : ∀ p ∈ ts, p.2 ∈ hs)
    (run : Run (Loading natural) (onDrivers (vfsTreeClonePluginHandle slots e h)) s row t) :
    t.opens = s.opens ∧
      ((row.slot 0 = none ∧ Holding base t hs bs ts) ∨
        ∃ new, row = (h :: new).map some ∧ new.length = slots - 1 ∧
          Holding base t (handlesOf e new ++ hs) bs ts) := by
  obtain ⟨loop, mount⟩ := loading_drivers run
  have opens := loading_opens (cloneLoop_opens e h (slots - 1) []) run
  have logged := held.opens
  rw [← opens] at logged
  have unmade : Acquires base.ledger s.ledger (handlesOf e [] ++ hs) bs ts := held.acquired
  obtain ⟨accounted, ended⟩ :=
    cloneLoop_acquires start held.accounted source owners unmade loop
  refine ⟨opens, ended.imp ?_ ?_⟩
  · rintro ⟨rfl, acquired⟩
    exact ⟨rfl, mount.trans held.mount, accounted, acquired, logged⟩
  · rintro ⟨new, rfl, length, acquired⟩
    exact ⟨new, rfl, length, mount.trans held.mount, accounted, acquired, logged⟩

theorem loadFromPath_acquires {filePath : FlString} {plugins all : List PluginEntry}
    {loaded : Bool} (start : base.ledger.Accounted) (clear : Holding base s [] [] [])
    (sub : plugins ⊆ all)
    (run : Run (Loading natural) (loadFromPath slots node filePath plugins) s loaded t) :
    (loaded = false ∧ Holding base t [] [] []) ∨
      (loaded = true ∧ Loads natural slots all node base t) := by
  induction plugins generalizing s with
  | nil =>
      obtain ⟨rfl, rfl⟩ := run_done.mp run
      exact .inl ⟨rfl, clear⟩
  | cons e rest ih =>
      obtain ⟨here, tail⟩ := List.cons_subset.mp sub
      unfold loadFromPath at run
      obtain ⟨openable, s₁, asked, run⟩ := run_bind.mp run
      have same : ∀ {l : Ledger}, contract s.ledger (.canOpen e filePath) openable l →
          l = s.ledger := fun same => same
      have asks := clear.asks (fun _ => rfl) same asked
      cases openable with
      | false => exact ih asks tail run
      | true =>
          obtain ⟨opened, s₂, opening, run⟩ := run_bind.mp run
          have opens := asks.opens_path opening
          cases gotten : opened.handle with
          | none =>
              simp only [gotten] at opens run
              exact ih opens tail run
          | some h =>
              simp only [gotten] at opens run
              obtain ⟨row, s₃, cloning, run⟩ := run_bind.mp run
              obtain ⟨logged, cloned⟩ := opens.1.clones start List.mem_cons_self (by simp) cloning
              rcases cloned with ⟨refused, back⟩ | ⟨new, rfl, length, all⟩
              · rw [if_pos refused] at run
                obtain ⟨_, s₄, closing, run⟩ := run_bind.mp run
                exact ih (back.closes start closing) tail run
              · rw [if_neg (by simp [VfsHandles.slot])] at run
                obtain ⟨_, s₄, swapped, done⟩ := run_bind.mp run
                obtain ⟨rfl, rfl⟩ := run_done.mp done
                obtain ⟨earlier, before⟩ := asks.opens
                refine .inr ⟨rfl, s₃, e, h, new, none, 0, here, length, ⟨earlier, ?_⟩, all,
                  run_call.mp swapped⟩
                rw [logged, opens.2, before]

variable (base hs bs ts) in
/-- A search for a memory driver found none, or one that took the buffer. -/
def Offered (b : BufferPtr) (plugins : List PluginEntry) (s t : LoadState) :
    Option DriverHandle → Prop
  | none => Holding base t hs (b :: bs) ts
  | some m => m.pluginEntry ∈ plugins ∧
      Holding base t (⟨m.pluginEntry.id, m.handle⟩ :: hs) bs
        ((b, ⟨m.pluginEntry.id, m.handle⟩) :: ts) ∧
      t.opens = s.opens ++ [⟨m.pluginEntry.id, m.handle⟩]

/-- A memory driver takes the buffer with the handle that it returns. -/
theorem Holding.opens_memory {path : FlString} {b : BufferPtr} {contents : Bytes} {size : ℤ}
    {plugins : List PluginEntry} {found : Option DriverHandle}
    (held : Holding base s hs (b :: bs) ts)
    (run : Run (Loading natural) (onDrivers (openMemoryWith path b contents size plugins))
      s found t) :
    Offered base hs bs ts b plugins s t found := by
  induction plugins generalizing s with
  | nil =>
      obtain ⟨rfl, rfl⟩ := run_done.mp run
      exact held
  | cons e rest ih =>
      have later : ∀ {u : LoadState}, u.opens = s.opens → Holding base u hs (b :: bs) ts →
          Run (Loading natural) (onDrivers (openMemoryWith path b contents size rest)) u found t →
          Offered base hs bs ts b (e :: rest) s t found := by
        intro u same held run
        have found_later := ih held run
        cases found with
        | none => exact found_later
        | some m =>
            obtain ⟨inside, holding, opens⟩ := found_later
            exact ⟨List.mem_cons_of_mem _ inside, holding, same ▸ opens⟩
      unfold openMemoryWith at run
      split_ifs at run with skip
      · exact later rfl held run
      · rw [onDrivers_bind] at run
        obtain ⟨opened, u, opening, run⟩ := run_bind.mp run
        obtain ⟨answer, mount, opens⟩ := run_call.mp opening
        have accounted := held.accounted.step answer
        have lent : b ∈ s.ledger.held := by
          rw [held.acquired.held]
          exact List.mem_cons_self
        obtain ⟨earlier, logged⟩ := held.opens
        simp only [contract] at answer
        simp only [opensOf] at opens
        cases gotten : opened.handle with
        | some h =>
            simp only [gotten, Takes] at answer run
            obtain ⟨rfl, rfl⟩ := run_done.mp run
            have now : t.opens = s.opens ++ [⟨e.id, h⟩] := by
              rw [opens, gotten]
              rfl
            refine ⟨List.mem_cons_self, ⟨mount.trans held.mount, accounted, ?_,
              earlier ++ [⟨e.id, h⟩], ?_⟩, now⟩
            · rw [answer.2]
              exact held.acquired.take
            · rw [now, logged, List.append_assoc]
        | none =>
            simp only [gotten, Takes] at answer run
            rw [Ledger.lend_held lent] at answer
            have quiet : u.opens = s.opens := by
              rw [opens, gotten]
              simp
            have kept : Holding base u hs (b :: bs) ts := by
              refine ⟨mount.trans held.mount, accounted, ?_, earlier, quiet.trans logged⟩
              rw [answer]
              exact held.acquired
            split_ifs at run with corrupt
            · obtain ⟨rfl, rfl⟩ := run_done.mp run
              exact kept
            · exact later quiet kept run

theorem loadFromMemory_acquires {self : VfsState} {entry : PluginEntry} {source : DriverPtr}
    {path : FlString} {size : ℤ} {loaded : Bool} (start : base.ledger.Accounted)
    (clear : Holding base s [] [] []) (isOpen : ⟨entry.id, source⟩ ∈ base.ledger.opened)
    (run : Run (Loading natural) (loadFromMemory self slots node entry (some source) path size)
      s loaded t) :
    (loaded = false ∧ Holding base t [] [] []) ∨
      (loaded = true ∧ Loads natural slots self.plugins node base t) := by
  unfold loadFromMemory at run
  obtain ⟨b, s₁, allocated, run⟩ := run_bind.mp run
  obtain ⟨⟨fresh, gained⟩, mount₁, opens₁, accounted₁⟩ := clear.calls (fun _ => rfl) allocated
  have buffered : Holding base s₁ [] [b] [] := by
    refine ⟨mount₁, accounted₁, ?_, ?_⟩
    · rw [gained]
      exact clear.acquired.allocate
    · rw [opens₁]
      exact clear.opens
  obtain ⟨r, s₂, reading, run⟩ := run_bind.mp run
  have opened : ⟨entry.id, source⟩ ∈ s₁.ledger.opened :=
    buffered.acquired.opened.mem_iff.mpr isOpen
  have same : ∀ {l : Ledger},
      contract s₁.ledger (.read entry (some source) path b size) r l → l = s₁.ledger := by
    intro l answer
    have lent : b ∈ s₁.ledger.held := by
      rw [buffered.acquired.held]
      exact List.mem_cons_self
    rw [show l = _ from answer, Ledger.useAt_opened opened, Ledger.lend_held lent]
  have read := buffered.asks (fun _ => rfl) same reading
  have gives_up : ∀ {u : LoadState}, Holding base u [] [b] [] →
      Run (Loading natural) (do
        onDrivers (driver (.free (some b)))
        pure false) u loaded t → loaded = false ∧ Holding base t [] [] [] := by
    intro u held run
    obtain ⟨_, v, freed, done⟩ := run_bind.mp run
    obtain ⟨rfl, rfl⟩ := run_done.mp done
    obtain ⟨answer, mount, opens, accounted⟩ := held.calls (fun _ => rfl) freed
    refine ⟨rfl, mount, accounted, ?_, ?_⟩
    · rw [show t.ledger = _ from answer]
      exact held.acquired.free
    · rw [opens]
      exact held.opens
  by_cases short : r.bytesRead ≠ size
  · rw [if_pos short] at run
    exact .inl (gives_up read run)
  · rw [if_neg short] at run
    obtain ⟨memory, s₃, finding, run⟩ := run_bind.mp run
    have found := read.opens_memory finding
    cases memory with
    | none => exact .inl (gives_up found run)
    | some m =>
        obtain ⟨inside, taken, opens⟩ := found
        obtain ⟨row, s₄, cloning, run⟩ := run_bind.mp run
        have owners : ∀ p ∈ [(b, (⟨m.pluginEntry.id, m.handle⟩ : OpenHandle))],
            p.2 ∈ [(⟨m.pluginEntry.id, m.handle⟩ : OpenHandle)] := by
          intro p hp
          cases List.mem_singleton.mp hp
          exact List.mem_singleton_self _
        obtain ⟨logged, cloned⟩ := taken.clones start List.mem_cons_self owners cloning
        rcases cloned with ⟨refused, back⟩ | ⟨new, rfl, length, all⟩
        · rw [if_pos refused] at run
          obtain ⟨_, s₅, closing, done⟩ := run_bind.mp run
          obtain ⟨rfl, rfl⟩ := run_done.mp done
          refine .inl ⟨rfl, ?_⟩
          simpa using back.closes start closing
        · rw [if_neg (by simp [VfsHandles.slot])] at run
          obtain ⟨_, s₅, swapped, done⟩ := run_bind.mp run
          obtain ⟨rfl, rfl⟩ := run_done.mp done
          obtain ⟨earlier, before⟩ := read.opens
          refine .inr ⟨rfl, s₄, m.pluginEntry, m.handle, new, some b, r.bytesRead, inside, length,
            ⟨earlier, ?_⟩, all, run_call.mp swapped⟩
          rw [logged, opens, before]

theorem tryLoadAsArchive_acquires {self : VfsState} {entry : PluginEntry} {source : DriverPtr}
    {path : FlString} {size : ℤ} {loaded : Bool} (start : base.ledger.Accounted)
    (isOpen : ⟨entry.id, source⟩ ∈ base.ledger.opened)
    (run : Run (Loading natural)
      (vfsTreeTryLoadAsArchive self slots node entry (some source) path size) base loaded t) :
    (loaded = false ∧ Holding base t [] [] []) ∨
      (loaded = true ∧ Loads natural slots self.plugins node base t) := by
  have clear : Holding base base [] [] [] := ⟨rfl, start, .refl _, [], by simp⟩
  unfold vfsTreeTryLoadAsArchive at run
  split_ifs at run with empty direct
  · obtain ⟨rfl, rfl⟩ := run_done.mp run
    exact .inl ⟨rfl, clear⟩
  · obtain ⟨filePath, s₁, asked, run⟩ := run_bind.mp run
    have same : ∀ {l : Ledger},
        contract base.ledger (.getFilePath entry (some source) path) filePath l →
          l = base.ledger := by
      intro l answer
      rw [show l = _ from answer, Ledger.useAt_opened isOpen]
    have asks := clear.asks (fun _ => rfl) same asked
    by_cases nothing : filePath = []
    · rw [if_pos nothing] at run
      exact loadFromMemory_acquires start asks isOpen run
    · rw [if_neg nothing] at run
      obtain ⟨byPath, s₂, trying, run⟩ := run_bind.mp run
      rcases loadFromPath_acquires start asks (List.Subset.refl _) trying with
        ⟨rfl, failed⟩ | ⟨rfl, loads⟩
      · exact loadFromMemory_acquires start failed isOpen run
      · obtain ⟨rfl, rfl⟩ := run_done.mp run
        exact .inr ⟨rfl, loads⟩
  · exact loadFromMemory_acquires start clear isOpen run

end

/-! ## The outcome of a load -/

/-- A buffer was freed once, by the file system or by a driver, and nobody has it. -/
def Ledger.GoneOnce (t : Ledger) (b : BufferPtr) : Prop :=
  b ∉ t.held ∧ b ∉ t.taken.map Prod.fst ∧ (t.freed ++ t.released).count b = 1

/-- A buffer is with one open handle, and with nobody else. -/
structure Ledger.OwnedBy (t : Ledger) (b : BufferPtr) (h : OpenHandle) : Prop where
  isOpen : h ∈ t.opened
  taken : (b, h) ∈ t.taken
  once : (t.taken.map Prod.fst).count b = 1
  held : b ∉ t.held
  freed : b ∉ t.freed
  released : b ∉ t.released

/-- A load that fails leaves the mount as it was, and nothing that it acquired. -/
structure LoadFailed (s t : LoadState) : Prop where
  mount : t.mount = s.mount
  opened : t.ledger.opened.Perm s.ledger.opened
  buffers : ∀ b ∈ t.ledger.allocated, b ∉ s.ledger.allocated → t.ledger.GoneOnce b
  clean : t.ledger.misused = false

/-- A load that succeeds has put a driver `e` and its handles into the node `n`, the first
of which is the last one that an open returned. -/
structure LoadSucceeded (slots : ℕ) (plugins : List PluginEntry) (node : NodePtr)
    (n n' : VfsTreeNode) (e : PluginEntry) (row : List DriverPtr) (s t : LoadState) : Prop where
  before : s.mount.tree.nodes node = some n
  after : t.mount.tree.nodes node = some n'
  others : ∀ x, x ≠ node → t.mount.tree.nodes x = s.mount.tree.nodes x
  registered : e ∈ plugins
  driver : n'.pluginEntry = some e
  slots : ∀ worker < slots, ∃ x, n'.handles.slot worker = some x ∧ ⟨e.id, x⟩ ∈ t.ledger.opened
  handles : n'.handles = row.map some
  first : ∃ h earlier, n'.handles.slot 0 = some h ∧ t.opens = s.opens ++ earlier ++ [⟨e.id, h⟩]
  /-- Every handle that the node held was closed, each one once. -/
  closed : ∃ cs, t.mount.tree.closed = s.mount.tree.closed ++ cs ∧ cs.Nodup ∧
    (∀ x, x ∈ cs ↔ n.HoldsHandle x) ∧
      (cs ++ t.ledger.opened).Perm (handlesOf e row ++ s.ledger.opened)
  owned : ∀ b h, n'.memoryData = some b → n'.handles.slot 0 = some h →
    t.ledger.OwnedBy b ⟨e.id, h⟩
  buffers : ∀ b ∈ t.ledger.allocated, b ∉ s.ledger.allocated →
    n'.memoryData = some b ∨ t.ledger.GoneOnce b
  clean : t.ledger.misused = false

section
variable {s t u : Ledger} {b : BufferPtr}

theorem Ledger.Accounted.goneOnce (accounted : t.Accounted) (allocated : b ∈ t.allocated)
    (held : b ∉ t.held) (taken : b ∉ t.taken.map Prod.fst) : t.GoneOnce b := by
  have once := List.count_eq_one_of_mem accounted.allocated_nodup allocated
  have spread := accounted.partition.count_eq b
  simp only [List.count_append, once, List.count_eq_zero_of_not_mem held,
    List.count_eq_zero_of_not_mem taken] at spread
  refine ⟨held, taken, ?_⟩
  rw [List.count_append]
  omega

theorem Ledger.Accounted.ownedBy {h : OpenHandle} (accounted : t.Accounted)
    (taken : (b, h) ∈ t.taken) : t.OwnedBy b h := by
  have inside : b ∈ t.taken.map Prod.fst := List.mem_map_of_mem (f := Prod.fst) taken
  have allocated : b ∈ t.allocated := by
    refine accounted.partition.mem_iff.mpr ?_
    simp only [List.mem_append]
    exact .inl (.inl (.inr inside))
  have once := List.count_eq_one_of_mem accounted.allocated_nodup allocated
  have spread := accounted.partition.count_eq b
  have some_taken := List.count_pos_iff.mpr inside
  simp only [List.count_append, once] at spread
  refine ⟨accounted.owned _ taken, taken, by omega, ?_, ?_, ?_⟩
  · exact List.count_eq_zero.mp (by omega)
  · exact List.count_eq_zero.mp (by omega)
  · exact List.count_eq_zero.mp (by omega)

theorem Ledger.Accounted.taken_allocated (accounted : s.Accounted)
    (taken : b ∈ s.taken.map Prod.fst) : b ∈ s.allocated := by
  refine accounted.partition.mem_iff.mpr ?_
  simp only [List.mem_append]
  exact .inl (.inl (.inr taken))

/-- What closing distinct open handles leaves. -/
structure Closes (cs : List OpenHandle) (u t : Ledger) : Prop where
  opened : (cs ++ t.opened).Perm u.opened
  held : t.held = u.held
  allocated : t.allocated = u.allocated
  clean : t.misused = u.misused
  kept : ∀ p ∈ u.taken, p.2 ∉ cs → p ∈ t.taken
  taken : ∀ p ∈ t.taken, p ∈ u.taken
  accounted : t.Accounted

theorem closes_all {cs : List OpenHandle} (accounted : u.Accounted) (distinct : cs.Nodup)
    (inside : ∀ x ∈ cs, x ∈ u.opened) : Closes cs u (cs.foldl Ledger.close u) := by
  induction cs generalizing u with
  | nil => exact ⟨.refl _, rfl, rfl, rfl, fun p hp _ => hp, fun p hp => hp, accounted⟩
  | cons c rest ih =>
      obtain ⟨other, distinct⟩ := List.nodup_cons.mp distinct
      have isOpen := inside c List.mem_cons_self
      have shut : u.close c =
          { u with
            opened := u.opened.erase c
            taken := u.taken.filter fun p => p.2 ≠ c
            released := (u.taken.filter fun p => p.2 = c).map Prod.fst ++ u.released } :=
        if_pos isOpen
      have left : ∀ x ∈ rest, x ∈ (u.close c).opened := by
        intro x hx
        rw [shut]
        refine (List.mem_erase_of_ne ?_).mpr (inside x (List.mem_cons_of_mem _ hx))
        rintro rfl
        exact other hx
      have after := ih (accounted.close c) distinct left
      rw [List.foldl_cons]
      have held := after.held
      have allocated := after.allocated
      have clean := after.clean
      have opened := after.opened
      have kept := after.kept
      have taken := after.taken
      rw [shut] at held allocated clean opened kept taken ⊢
      rw [shut] at after
      refine ⟨?_, held, allocated, clean, ?_, ?_, after.accounted⟩
      · rw [List.cons_append]
        exact (opened.cons c).trans (List.perm_cons_erase isOpen).symm
      · intro p hp notClosed
        refine kept p (List.mem_filter.mpr ⟨hp, ?_⟩) fun hr => ?_
        · have apart : p.2 ≠ c := fun same => notClosed (same ▸ List.mem_cons_self)
          simpa using apart
        · exact notClosed (List.mem_cons_of_mem _ hr)
      · intro p hp
        exact (List.mem_filter.mp (taken p hp)).1

end

section
variable {natural : NaturalCompare} {slots : ℕ} {s t : LoadState} {node : NodePtr}

theorem Holding.failed (start : s.ledger.Accounted) (clean : s.ledger.misused = false)
    (held : Holding s t [] [] []) : LoadFailed s t := by
  refine ⟨held.mount, held.acquired.opened, fun b allocated new => ?_,
    held.acquired.clean.trans clean⟩
  refine held.accounted.goneOnce allocated ?_ ?_
  · rw [held.acquired.held]
    exact fun inside => new (start.held_allocated inside)
  · rw [held.acquired.taken]
    exact fun inside => new (start.taken_allocated inside)

/-- The swap replaces the node, and closes what it held. -/
theorem swap_some {n : VfsTreeNode} {e : PluginEntry} {handles : VfsHandles}
    {memoryData : Option BufferPtr} {memorySize : ℤ} {u : LoadState}
    (hn : u.mount.tree.nodes node = some n)
    (swapped : Loading natural u
      (.mount (.installArchive node e handles memoryData memorySize)) () t) :
    t.mount.tree = { u.mount.tree.set node { n.closedNode with
                        pluginEntry := some e
                        handles := handles
                        memoryData := memoryData
                        memorySize := memorySize
                        isDirectory := true } with
                      closed := u.mount.tree.closed ++ n.closes } ∧
      t.opens = u.opens ∧ t.ledger = n.closes.foldl Ledger.close u.ledger := by
  obtain ⟨⟨fresh, run⟩, opens, ledger⟩ := swapped
  simp only [MountSection.run, MountTree.installArchive_some hn, Option.bind_eq_bind,
    Option.bind_some, Option.some.injEq, Prod.mk.injEq, true_and] at run
  refine ⟨?_, opens, ?_⟩
  · rw [← run]
  · rw [ledger, ← run]
    unfold closedSince
    simp

theorem Loads.succeeded {plugins : List PluginEntry} (start : s.ledger.Accounted)
    (clean : s.ledger.misused = false)
    (open_ : ∀ n, s.mount.tree.nodes node = some n →
      ∀ x, n.HoldsHandle x → x ∈ s.ledger.opened)
    (loads : Loads natural slots plugins node s t) :
    ∃ n n' e row, LoadSucceeded slots plugins node n n' e row s t := by
  obtain ⟨u, e, h, clones, memoryData, memorySize, registered, length, ⟨earlier, logged⟩, held,
    swapped⟩ := loads
  obtain ⟨n, hn⟩ : ∃ n, u.mount.tree.nodes node = some n := by
    obtain ⟨⟨fresh, run⟩, -⟩ := swapped
    cases found : u.mount.tree.nodes node with
    | some n => exact ⟨n, rfl⟩
    | none =>
        simp [MountSection.run, MountTree.installArchive, MountTree.closeNodeResources,
          found] at run
  obtain ⟨tree, opens, ledger⟩ := swap_some hn swapped
  have before : s.mount.tree.nodes node = some n := by
    rw [← held.mount]
    exact hn
  have inside : ∀ x ∈ n.closes, x ∈ s.ledger.opened :=
    fun x hx => open_ n before x (n.mem_closes.mp hx)
  have stillOpen : ∀ x ∈ n.closes, x ∈ u.ledger.opened := fun x hx =>
    held.acquired.opened.mem_iff.mpr (List.mem_append_right _ (inside x hx))
  have closes := closes_all held.accounted n.closes_nodup stillOpen
  rw [← ledger] at closes
  have rowPerm : (handlesOf e clones ++ [(⟨e.id, h⟩ : OpenHandle)]).Perm
      (handlesOf e (h :: clones)) := List.perm_append_comm
  have acquired := held.acquired.of_perm rowPerm
  have fresh : ∀ x ∈ h :: clones, (⟨e.id, x⟩ : OpenHandle) ∉ n.closes := by
    intro x hx closing
    have row : (⟨e.id, x⟩ : OpenHandle) ∈ handlesOf e (h :: clones) := List.mem_map_of_mem hx
    exact acquired.fresh held.accounted row (inside _ closing)
  have opened : ∀ x ∈ h :: clones, (⟨e.id, x⟩ : OpenHandle) ∈ t.ledger.opened := by
    intro x hx
    have row : (⟨e.id, x⟩ : OpenHandle) ∈ u.ledger.opened := acquired.mem (List.mem_map_of_mem hx)
    rcases List.mem_append.mp (closes.opened.mem_iff.mpr row) with wrong | here
    · exact absurd wrong (fresh x hx)
    · exact here
  have after : t.mount.tree.nodes node = some
      { n.closedNode with
        pluginEntry := some e
        handles := (h :: clones).map some
        memoryData := memoryData
        memorySize := memorySize
        isDirectory := true } := by
    rw [tree]
    exact MountTree.set_nodes_self
  have takenFrom : ∀ b ∈ t.ledger.taken.map Prod.fst, b ∉ s.ledger.allocated →
      memoryData = some b := by
    intro b hb new
    obtain ⟨p, hp, rfl⟩ := List.mem_map.mp hb
    have hu := closes.taken p hp
    rw [held.acquired.taken] at hu
    rcases List.mem_append.mp hu with hu | hu
    · obtain ⟨c, hc, rfl⟩ := List.mem_map.mp hu
      exact Option.mem_toList.mp hc
    · exact absurd (start.taken_allocated (List.mem_map_of_mem (f := Prod.fst) hu)) new
  refine ⟨n, _, e, h :: clones, before, after, ?_, registered, rfl, ?_, rfl, ?_, ?_, ?_, ?_, ?_⟩
  · intro x other
    rw [tree, ← held.mount]
    exact MountTree.set_nodes_ne other
  · intro worker bound
    have short : worker < (h :: clones).length := by
      rw [List.length_cons, length]
      omega
    refine ⟨(h :: clones)[worker], ?_, opened _ (List.getElem_mem short)⟩
    unfold VfsHandles.slot
    rw [List.getElem?_map, List.getElem?_eq_getElem short]
    rfl
  · refine ⟨h, earlier, rfl, ?_⟩
    rw [opens, logged]
  · refine ⟨n.closes, ?_, n.closes_nodup, fun x => n.mem_closes, ?_⟩
    · rw [tree, ← held.mount]
    · exact closes.opened.trans acquired.opened
  · intro b h' isData isFirst
    cases isFirst
    cases (isData : memoryData = some b)
    refine closes.accounted.ownedBy (closes.kept _ ?_ (fresh h List.mem_cons_self))
    rw [held.acquired.taken]
    exact List.mem_append_left _ (List.mem_singleton_self _)
  · intro b allocated new
    by_cases taken : b ∈ t.ledger.taken.map Prod.fst
    · exact .inl (takenFrom b taken new)
    · refine .inr (closes.accounted.goneOnce allocated ?_ taken)
      rw [closes.held, held.acquired.held]
      exact fun inside => new (start.held_allocated inside)
  · rw [closes.clean, held.acquired.clean, clean]

/-- A load of a file as an archive, for any drivers that keep to their contract: whatever it
acquired is gone when it fails; when it succeeds, the node has the row of handles of the new
driver in place of what it held, and a buffer that was loaded belongs to that driver. -/
theorem archive_load_ownership {self : VfsState} {entry : PluginEntry} {source : DriverPtr}
    {path : FlString} {size : ℤ} {loaded : Bool} (start : s.ledger.Accounted)
    (clean : s.ledger.misused = false) (isOpen : ⟨entry.id, source⟩ ∈ s.ledger.opened)
    (open_ : ∀ n, s.mount.tree.nodes node = some n →
      ∀ x, n.HoldsHandle x → x ∈ s.ledger.opened)
    (run : Run (Loading natural)
      (vfsTreeTryLoadAsArchive self slots node entry (some source) path size) s loaded t) :
    (loaded = false → LoadFailed s t) ∧
      (loaded = true → ∃ n n' e row, LoadSucceeded slots self.plugins node n n' e row s t) := by
  rcases tryLoadAsArchive_acquires start isOpen run with ⟨rfl, failed⟩ | ⟨rfl, loads⟩
  · refine ⟨fun _ => failed.failed start clean, fun wrong => ?_⟩
    cases wrong
  · refine ⟨fun wrong => ?_, fun _ => loads.succeeded start clean open_⟩
    cases wrong

end

def diskDriver : PluginEntry := ⟨0, { name := ['l'] }⟩

/-- A memory driver that clones. -/
def memoryDriver : PluginEntry :=
  ⟨1, { name := ['z'], memory := true, hasOpenMemory := true, hasClone := true }⟩

/-- A mount with two worker slots and a file `f` below its root. The file has been loaded by a
driver that is replaced. -/
def fileMount : FlVfsMount where
  tree :=
    { nodes := fun p =>
        if p = 0 then
          some { name := [], isDirectory := true, pluginEntry := some diskDriver,
                 handles := [some 0, some 1], firstChild := some 1 }
        else if p = 1 then
          some { name := ['f'], parent := some 0, isDirectory := true,
                 pluginEntry := some ⟨2, { name := ['o'] }⟩, handles := [some 9, some 8] }
        else none
      count := 2
      root := 0 }

def loadStart : LoadState := ⟨fileMount, { opened := [⟨0, 0⟩, ⟨2, 9⟩, ⟨2, 8⟩] }, []⟩

/-- The file is read, the memory driver takes the buffer, and its handle is cloned. -/
theorem memory_load_run : ∃ t,
    Run (Loading fun _ _ => 0)
      (vfsTreeTryLoadAsArchive ⟨[memoryDriver], letters⟩ 2 1 diskDriver (some 0) ['f'] 1)
      loadStart true t ∧ t.mount.tree.closed = [⟨2, 9⟩, ⟨2, 8⟩] := by
  let start : Ledger := loadStart.ledger
  have allocated : Loading (fun _ _ => 0) loadStart (.driver (.malloc 1)) (3 : ℕ)
      ⟨fileMount, start.allocate 3, []⟩ := ⟨⟨List.not_mem_nil, rfl⟩, rfl, rfl⟩
  have read : Loading (fun _ _ => 0) ⟨fileMount, start.allocate 3, []⟩
      (.driver (.read diskDriver (some 0) ['f'] 3 1)) (⟨1, [7]⟩ : ReadResult)
      ⟨fileMount, start.allocate 3, []⟩ := ⟨rfl, rfl, rfl⟩
  have taken : Loading (fun _ _ => 0) ⟨fileMount, start.allocate 3, []⟩
      (.driver (.openMemory memoryDriver 3 [7] 1 ['f'])) (⟨some 5, true, false⟩ : OpenResult)
      ⟨fileMount, (start.allocate 3).take 3 ⟨1, 5⟩, [⟨1, 5⟩]⟩ := ⟨⟨by decide, rfl⟩, rfl, rfl⟩
  have cloned : Loading (fun _ _ => 0) ⟨fileMount, (start.allocate 3).take 3 ⟨1, 5⟩, [⟨1, 5⟩]⟩
      (.driver (.clone memoryDriver 5)) (⟨some 6, false, false⟩ : OpenResult)
      ⟨fileMount, ((start.allocate 3).take 3 ⟨1, 5⟩).gain ⟨1, 6⟩, [⟨1, 5⟩]⟩ :=
    ⟨⟨by decide, rfl⟩, rfl, rfl⟩
  obtain ⟨m, swap, closed⟩ : ∃ m, MountSection.run (fun _ _ => 0) 0 fileMount
      (.installArchive 1 memoryDriver [some 5, some 6] (some 3) 1) = some ((), m) ∧
        m.tree.closed = [⟨2, 9⟩, ⟨2, 8⟩] := ⟨_, rfl, rfl⟩
  have swapped : Loading (fun _ _ => 0)
      ⟨fileMount, ((start.allocate 3).take 3 ⟨1, 5⟩).gain ⟨1, 6⟩, [⟨1, 5⟩]⟩
      (.mount (.installArchive 1 memoryDriver [some 5, some 6] (some 3) 1)) ()
      ⟨m, (closedSince fileMount m).foldl Ledger.close
        (((start.allocate 3).take 3 ⟨1, 5⟩).gain ⟨1, 6⟩), [⟨1, 5⟩]⟩ := ⟨⟨0, swap⟩, rfl, rfl⟩
  exact ⟨_, .perform allocated (.perform read (.perform taken (.perform cloned
    (.perform swapped (.done _ _))))), closed⟩

/-- The two handles of the replaced driver are closed, and two of the new one are in the row. -/
theorem archive_load_ownership_memory : ∃ t n n' e row,
    t.mount.tree.closed = [⟨2, 9⟩, ⟨2, 8⟩] ∧
    LoadSucceeded 2 [memoryDriver] 1 n n' e row loadStart t := by
  obtain ⟨t, run, closed⟩ := memory_load_run
  have accounted : loadStart.ledger.Accounted :=
    ⟨by decide, List.nodup_nil, .refl _, by simp [loadStart]⟩
  have isOpen : ∀ n, fileMount.tree.nodes 1 = some n →
      ∀ x, n.HoldsHandle x → x ∈ loadStart.ledger.opened := by
    rintro n hn x ⟨e, driver, same, inside⟩
    cases hn
    cases driver
    obtain ⟨driver, handle⟩ := x
    cases (same : driver = 2)
    rcases List.mem_pair.mp inside with first | second
    · cases first
      decide
    · cases second
      decide
  have outcome := (archive_load_ownership accounted rfl List.mem_cons_self isOpen run).2 rfl
  obtain ⟨n, n', e, row, succeeded⟩ := outcome
  exact ⟨t, n, n', e, row, closed, succeeded⟩

end FlowiVfs.Tree
