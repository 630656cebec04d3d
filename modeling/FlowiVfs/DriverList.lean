import FlowiVfs.DoublyLinked
import FlowiVfs.Drivers
import Mathlib.Logic.Function.Basic

/-!
# The list of registered drivers

`vfs_register_driver` as a change of the links of `VfsState`, `vfs_init` and
`vfs_register_builtin_drivers` as calls of it. Entries come from an arena and are numbered
in the order in which they are allocated, which is the order of their registrations.

Every driver but LocalFS goes directly in front of the fallback, behind the ones that were
registered before it.
-/
namespace FlowiVfs.DriverList

open Linked

/-- The plugin tables, by their address: those of the repository, and those of a host. -/
inductive PluginPtr
  | localFs
  | libarchive
  | lhasa
  | unlzx
  | host (number : ℕ)
deriving DecidableEq

/-- Address of a `VfsPluginEntry`. -/
abbrev EntryPtr := ℕ

structure VfsPluginEntry where
  plugin : PluginPtr
  pluginInstance : Option ℕ
  next : Option EntryPtr
  prev : Option EntryPtr
deriving DecidableEq

/-- The fields of `VfsState` that registration reads or writes. -/
structure VfsState where
  entries : EntryPtr → Option VfsPluginEntry := fun _ => none
  allocated : ℕ := 0
  pluginFirst : Option EntryPtr := none
  pluginLast : Option EntryPtr := none
  builtinFallback : Option EntryPtr := none

namespace VfsState

variable (self : VfsState)

/-- `arena_alloc_zero`, with what is stored into the entry first. -/
def alloc (n : VfsPluginEntry) : VfsState :=
  { self with
    entries := Function.update self.entries self.allocated (some n)
    allocated := self.allocated + 1 }

/-- A store through a pointer to an entry. -/
def modify (e : EntryPtr) (f : VfsPluginEntry → VfsPluginEntry) : Option VfsState := do
  let n ← self.entries e
  some { self with entries := Function.update self.entries e (some (f n)) }

/-- The branch of `vfs_register_driver` that keeps the fallback last. -/
def spliceBefore (fallback : EntryPtr) (plugin : PluginPtr) (pluginInstance : Option ℕ) :
    Option VfsState := do
  let n ← self.entries fallback
  let entry := self.allocated
  let new := self.alloc ⟨plugin, pluginInstance, some fallback, n.prev⟩
  let linked ← match n.prev with
    | some p => new.modify p fun x => { x with next := some entry }
    | none => some { new with pluginFirst := some entry }
  linked.modify fallback fun x => { x with prev := some entry }

/-- The branch that appends at the tail. -/
def appendLast (plugin : PluginPtr) (pluginInstance : Option ℕ) : Option VfsState := do
  let entry := self.allocated
  let new := self.alloc ⟨plugin, pluginInstance, none, self.pluginLast⟩
  let linked ← match self.pluginLast with
    | some l => new.modify l fun x => { x with next := some entry }
    | none => some { new with pluginFirst := some entry }
  some { linked with pluginLast := some entry }

def vfsRegisterDriver (plugin : Option PluginPtr) (pluginInstance : Option ℕ) :
    Option VfsState :=
  match plugin with
  | none => some self
  | some plugin =>
      match self.builtinFallback with
      | none => self.appendLast plugin pluginInstance
      | some fallback => do
          let n ← self.entries fallback
          if plugin ≠ n.plugin then self.spliceBefore fallback plugin pluginInstance
          else self.appendLast plugin pluginInstance

/-- A registration under an `#if`. -/
def registerBuilt (built : Bool) (plugin : PluginPtr) : Option VfsState :=
  if built then self.vfsRegisterDriver (some plugin) none else some self

end VfsState

def vfsInit : Option VfsState := do
  let self ← ({} : VfsState).vfsRegisterDriver (some .localFs) none
  some { self with builtinFallback := self.pluginLast }

/-- `FLOWI_VFS_DRIVER_LIBARCHIVE` and the others. -/
structure Build where
  libarchive : Bool
  lhasa : Bool
  unlzx : Bool

def vfsRegisterBuiltinDrivers (build : Build) (self : VfsState) : Option VfsState := do
  let self ← self.registerBuilt build.libarchive .libarchive
  let self ← self.registerBuilt build.lhasa .lhasa
  self.registerBuilt build.unlzx .unlzx

/-- A call of the host after `vfs_init`. -/
inductive Call
  | registerDriver (plugin : Option PluginPtr) (pluginInstance : Option ℕ)
  | registerBuiltinDrivers

def Call.run (build : Build) (self : VfsState) : Call → Option VfsState
  | registerDriver plugin pluginInstance => self.vfsRegisterDriver plugin pluginInstance
  | registerBuiltinDrivers => vfsRegisterBuiltinDrivers build self

def runCalls (build : Build) : List Call → VfsState → Option VfsState
  | [], self => some self
  | call :: rest, self => do
      let self ← call.run build self
      runCalls build rest self

/-! ## Registrations -/

abbrev Registration := PluginPtr × Option ℕ

def Call.registrations (build : Build) : Call → List Registration
  | registerDriver none _ => []
  | registerDriver (some plugin) pluginInstance => [(plugin, pluginInstance)]
  | registerBuiltinDrivers =>
      (if build.libarchive then [(.libarchive, none)] else []) ++
        (if build.lhasa then [(.lhasa, none)] else []) ++
        (if build.unlzx then [(.unlzx, none)] else [])

/-- Every registration of a run, the one of `vfs_init` first. -/
def registrations (build : Build) (calls : List Call) : List Registration :=
  (.localFs, none) :: calls.flatMap (Call.registrations build)

/-- The registrations of drivers other than LocalFS. -/
def others (regs : List Registration) : List Registration :=
  regs.filter fun r => decide (r.1 ≠ .localFs)

/-- The driver that was registered as the one of number `k`. -/
def driverOf (regs : List Registration) (k : EntryPtr) : Option PluginPtr :=
  regs[k]?.map Prod.fst

namespace VfsState

variable (self : VfsState)

def cells (e : EntryPtr) : Option (Cell EntryPtr) :=
  (self.entries e).map fun n => ⟨n.next, n.prev⟩

/-- The order in which a loop over the drivers visits them. -/
def tried : List EntryPtr := spell self.cells self.allocated self.pluginFirst

end VfsState

/-- What the list of drivers is meant to be after some registrations. -/
structure TriesInOrder (build : Build) (calls : List Call) (list : VfsState) : Prop where
  linked : Chain list.cells none none list.tried
  first : list.pluginFirst = list.tried.head?
  last : list.pluginLast = list.tried.getLast?
  inverse : ∀ p ∈ list.tried, ∀ q ∈ list.tried,
    (∃ c, list.cells p = some c ∧ c.next = some q) ↔ ∃ c, list.cells q = some c ∧ c.prev = some p
  /-- One entry for each registration. -/
  entries : list.tried.Perm (List.range (registrations build calls).length)
  contents : ∀ k r, (registrations build calls)[k]? = some r →
    ∃ n, list.entries k = some n ∧ n.plugin = r.1 ∧ n.pluginInstance = r.2
  fallbackLast : ∀ a b x, driverOf (registrations build calls) a = some .localFs →
    driverOf (registrations build calls) b = some x → x ≠ .localFs → [b, a].Sublist list.tried
  laterFirst : ∀ a b x y, a < b → driverOf (registrations build calls) a = some x →
    driverOf (registrations build calls) b = some y → x ≠ .localFs → y ≠ .localFs →
      [b, a].Sublist list.tried
  archivesFirst : build = ⟨true, true, true⟩ → .registerBuiltinDrivers ∈ calls →
    ∀ a b x, driverOf (registrations build calls) a = some .libarchive →
      driverOf (registrations build calls) b = some x → x = .lhasa ∨ x = .unlzx →
        [b, a].Sublist list.tried

/-! ## What a registration keeps -/

/-- The list after some registrations: the drivers other than LocalFS in the order of
their registrations, and then the ones of LocalFS. -/
structure Registered (list : VfsState) (regs : List Registration) (front locals : List EntryPtr) :
    Prop where
  chain : Chain list.cells none none (front ++ 0 :: locals)
  first : list.pluginFirst = (front ++ 0 :: locals).head?
  last : list.pluginLast = (front ++ 0 :: locals).getLast?
  allocated : list.allocated = regs.length
  perm : (front ++ 0 :: locals).Perm (List.range regs.length)
  contents : ∀ k r, regs[k]? = some r →
    ∃ n, list.entries k = some n ∧ n.plugin = r.1 ∧ n.pluginInstance = r.2
  front_other : ∀ k ∈ front, ∃ x, driverOf regs k = some x ∧ x ≠ .localFs
  locals_local : ∀ k ∈ 0 :: locals, driverOf regs k = some .localFs
  sorted : front.Pairwise (· < ·)
  count : front.length = (others regs).length

namespace Registered

variable {self : VfsState} {regs : List Registration} {front locals : List EntryPtr}

theorem nodup (h : Registered self regs front locals) : (front ++ 0 :: locals).Nodup :=
  h.perm.nodup_iff.mpr List.nodup_range

theorem lt (h : Registered self regs front locals) {k : EntryPtr}
    (hk : k ∈ front ++ 0 :: locals) : k < regs.length :=
  List.mem_range.mp (h.perm.mem_iff.mp hk)

theorem fresh (h : Registered self regs front locals) :
    regs.length ∉ front ++ 0 :: locals := by
  intro inside
  exact absurd (h.lt inside) (Nat.lt_irrefl _)

/-- The entry at an address of the list. -/
theorem live (h : Registered self regs front locals) {k : EntryPtr}
    (hk : k ∈ front ++ 0 :: locals) : ∃ n, self.entries k = some n := by
  obtain ⟨n, found, -⟩ := h.contents k _ (List.getElem?_eq_getElem (h.lt hk))
  exact ⟨n, found⟩

theorem tried (h : Registered self regs front locals) : self.tried = front ++ 0 :: locals := by
  unfold VfsState.tried
  rw [h.first]
  apply h.chain.spell_eq
  have length := h.perm.length_eq
  rw [List.length_range] at length
  exact Nat.le_of_eq (length.trans h.allocated.symm)

end Registered

theorem driverOf_append {regs : List Registration} {r : Registration} {k : EntryPtr}
    {x : PluginPtr} (h : driverOf regs k = some x) : driverOf (regs ++ [r]) k = some x := by
  unfold driverOf at *
  obtain ⟨s, found, rfl⟩ := Option.map_eq_some_iff.mp h
  have inside := (List.getElem?_eq_some_iff.mp found).1
  rw [List.getElem?_append_left inside, found]
  rfl

theorem driverOf_new (regs : List Registration) (r : Registration) :
    driverOf (regs ++ [r]) regs.length = some r.1 := by
  unfold driverOf
  simp

namespace VfsState

variable {self : VfsState} {e e' : EntryPtr} {n : VfsPluginEntry}

theorem cells_some (h : self.entries e = some n) : self.cells e = some ⟨n.next, n.prev⟩ := by
  unfold cells
  rw [h]
  rfl

theorem entries_of_cell {c : Cell EntryPtr} (h : self.cells e = some c) :
    ∃ n, self.entries e = some n ∧ n.next = c.next ∧ n.prev = c.prev := by
  obtain ⟨n, found, rfl⟩ := Option.map_eq_some_iff.mp h
  exact ⟨n, found, rfl, rfl⟩

/-- A store changes what it is a store into. -/
theorem modify_some {f : VfsPluginEntry → VfsPluginEntry} (h : self.entries e = some n) :
    self.modify e f =
      some { self with entries := Function.update self.entries e (some (f n)) } := by
  unfold modify
  rw [h]
  rfl

end VfsState

/-- The contents of an entry are not changed by the stores of a registration. -/
def SameContents (n n' : VfsPluginEntry) : Prop :=
  n'.plugin = n.plugin ∧ n'.pluginInstance = n.pluginInstance

/-- What is left to show of a registration, when its links are right. -/
theorem Registered.extend {self self' : VfsState} {regs : List Registration}
    {front locals front' locals' : List EntryPtr} {r : Registration}
    (h : Registered self regs front locals)
    (chain : Chain self'.cells none none (front' ++ 0 :: locals'))
    (first : self'.pluginFirst = (front' ++ 0 :: locals').head?)
    (last : self'.pluginLast = (front' ++ 0 :: locals').getLast?)
    (allocated : self'.allocated = regs.length + 1)
    (old : ∀ k n, k < regs.length → self.entries k = some n →
      ∃ n', self'.entries k = some n' ∧ SameContents n n')
    (new : ∃ n, self'.entries regs.length = some n ∧ n.plugin = r.1 ∧ n.pluginInstance = r.2)
    (lists : front' = front ++ [regs.length] ∧ locals' = locals ∧ r.1 ≠ .localFs ∨
      front' = front ∧ locals' = locals ++ [regs.length] ∧ r.1 = .localFs) :
    Registered self' (regs ++ [r]) front' locals' where
  chain := chain
  first := first
  last := last
  allocated := by
    rw [allocated]
    simp
  perm := by
    have all : (front' ++ 0 :: locals').Perm (front ++ 0 :: locals ++ [regs.length]) := by
      rcases lists with ⟨rfl, rfl, -⟩ | ⟨rfl, rfl, -⟩
      · rw [List.append_assoc]
        refine (List.perm_append_comm.append_left front).trans ?_
        simp
      · simp
    refine all.trans ?_
    rw [List.length_append, List.length_singleton, List.range_succ]
    exact h.perm.append_right _
  contents := by
    intro k s found
    rcases Nat.lt_or_ge k regs.length with inside | outside
    · rw [List.getElem?_append_left inside] at found
      obtain ⟨n, here, plugin, pluginInstance⟩ := h.contents k s found
      obtain ⟨n', there, same, same'⟩ := old k n inside here
      exact ⟨n', there, same.trans plugin, same'.trans pluginInstance⟩
    · rw [List.getElem?_append_right outside] at found
      rw [List.getElem?_singleton] at found
      split_ifs at found with index
      cases found
      obtain rfl := Nat.le_antisymm (Nat.sub_eq_zero_iff_le.mp index) outside
      exact new
  front_other := by
    intro k hk
    rcases lists with ⟨rfl, -, other⟩ | ⟨rfl, -, -⟩
    · rcases List.mem_append.mp hk with hk | hk
      · obtain ⟨x, driver, notLocal⟩ := h.front_other k hk
        exact ⟨x, driverOf_append driver, notLocal⟩
      · cases List.mem_singleton.mp hk
        exact ⟨r.1, driverOf_new regs r, other⟩
    · obtain ⟨x, driver, notLocal⟩ := h.front_other k hk
      exact ⟨x, driverOf_append driver, notLocal⟩
  locals_local := by
    intro k hk
    rcases lists with ⟨-, rfl, -⟩ | ⟨-, rfl, isLocal⟩
    · exact driverOf_append (h.locals_local k hk)
    · rw [← List.cons_append] at hk
      rcases List.mem_append.mp hk with hk | hk
      · exact driverOf_append (h.locals_local k hk)
      · cases List.mem_singleton.mp hk
        rw [driverOf_new, isLocal]
  sorted := by
    rcases lists with ⟨rfl, -, -⟩ | ⟨rfl, -, -⟩
    · refine List.pairwise_append.mpr ⟨h.sorted, List.pairwise_singleton _ _, ?_⟩
      intro k hk m hm
      cases List.mem_singleton.mp hm
      exact h.lt (List.mem_append_left _ hk)
    · exact h.sorted
  count := by
    unfold others
    rw [List.filter_append, List.length_append]
    rcases lists with ⟨rfl, -, other⟩ | ⟨rfl, -, isLocal⟩
    · rw [List.length_append, h.count]
      simp [others, other]
    · rw [h.count]
      simp [others, isLocal]

section
variable {self : VfsState} {regs : List Registration} {front locals : List EntryPtr}
variable {plugin : PluginPtr} {pluginInstance : Option ℕ}

variable (pluginInstance) in
theorem spliceBefore_registered (h : Registered self regs front locals)
    (other : plugin ≠ .localFs) :
    ∃ self', self.spliceBefore 0 plugin pluginInstance = some self' ∧
      self'.builtinFallback = self.builtinFallback ∧
      Registered self' (regs ++ [(plugin, pluginInstance)]) (front ++ [regs.length]) locals := by
  obtain ⟨n, found, next, prev⟩ := VfsState.entries_of_cell h.chain.cell
  simp only [Option.or_none] at next prev
  have fresh := h.fresh
  have notZero : regs.length ≠ 0 := by
    intro zero
    apply fresh
    rw [zero]
    simp
  have split : front ++ [regs.length] ++ 0 :: locals = front ++ regs.length :: 0 :: locals := by
    simp
  have zeroCell := VfsState.cells_some found
  unfold VfsState.spliceBefore VfsState.alloc
  rw [found, h.allocated]
  cases final : front.getLast? with
  | none =>
      obtain rfl := List.getLast?_eq_none_iff.mp final
      rw [final] at prev
      simp only [Option.bind_eq_bind, Option.bind_some, prev]
      rw [VfsState.modify_some (e := 0) (n := n) ((Function.update_of_ne notZero.symm _ _).trans found)]
      refine ⟨_, rfl, rfl, h.extend ?_ rfl ?_ rfl ?_ ?_ (.inl ⟨rfl, rfl, other⟩)⟩
      · rw [split]
        refine h.chain.insert h.nodup fresh ?_ ?_ (by simp) ?_
        · simp [VfsState.cells, notZero]
        · simp [VfsState.cells, found]
        · intro x notNew notFallback _
          simp [VfsState.cells, notNew, notFallback]
      · rw [h.last]
        simp
      · intro k m inside here
        by_cases isFallback : k = 0
        · subst isFallback
          cases found.symm.trans here
          exact ⟨{ n with prev := some regs.length }, by simp, rfl, rfl⟩
        · have old : k ≠ regs.length := Nat.ne_of_lt inside
          exact ⟨m, by simp [isFallback, old, here], rfl, rfl⟩
      · exact ⟨⟨plugin, pluginInstance, some 0, none⟩,
          by simp [notZero], rfl, rfl⟩
  | some p =>
      rw [final] at prev
      simp only [Option.bind_eq_bind, Option.bind_some, prev]
      have inFront := List.mem_of_getLast? final
      have notFallback : p ≠ 0 := by
        rintro rfl
        exact (List.nodup_append.mp h.nodup).2.2 _ inFront _ List.mem_cons_self rfl
      have notNew : p ≠ regs.length := by
        rintro rfl
        exact fresh (List.mem_append_left _ inFront)
      obtain ⟨m, there⟩ := h.live (List.mem_append_left _ inFront)
      rw [VfsState.modify_some (e := p) (n := m) ((Function.update_of_ne notNew _ _).trans there)]
      simp only [Option.bind_some]
      rw [VfsState.modify_some (e := 0) (n := n)
        ((Function.update_of_ne notFallback.symm _ _).trans
          ((Function.update_of_ne notZero.symm _ _).trans found))]
      refine ⟨_, rfl, rfl, h.extend ?_ ?_ ?_ rfl ?_ ?_ (.inl ⟨rfl, rfl, other⟩)⟩
      · rw [split]
        refine h.chain.insert h.nodup fresh ?_ ?_ ?_ ?_
        · simp [VfsState.cells, notZero, notNew.symm, final]
        · simp [VfsState.cells, found]
        · intro x isLast
          cases final.symm.trans isLast
          simp [VfsState.cells, there, notFallback]
        · intro x new fallback notLast
          have notP : x ≠ p := by
            rintro rfl
            exact notLast final
          simp [VfsState.cells, new, fallback, notP]
      · show self.pluginFirst = _
        rw [h.first]
        cases front <;> simp at final ⊢
      · show self.pluginLast = _
        rw [h.last]
        simp
      · intro k x inside here
        have old : k ≠ regs.length := Nat.ne_of_lt inside
        by_cases isFallback : k = 0
        · subst isFallback
          cases found.symm.trans here
          exact ⟨{ n with prev := some regs.length }, by simp, rfl, rfl⟩
        · by_cases isLast : k = p
          · subst isLast
            cases there.symm.trans here
            exact ⟨{ m with next := some regs.length },
              by simp [isFallback], rfl, rfl⟩
          · exact ⟨x, by simp [isFallback, isLast, old, here], rfl, rfl⟩
      · exact ⟨⟨plugin, pluginInstance, some 0, some p⟩,
          by simp [notZero, notNew.symm], rfl, rfl⟩

variable (pluginInstance) in
theorem appendLast_registered (h : Registered self regs front locals) :
    ∃ self', self.appendLast .localFs pluginInstance = some self' ∧
      self'.builtinFallback = self.builtinFallback ∧
      Registered self' (regs ++ [(.localFs, pluginInstance)]) front (locals ++ [regs.length]) := by
  have fresh := h.fresh
  have split : front ++ 0 :: (locals ++ [regs.length]) =
      (front ++ 0 :: locals) ++ [regs.length] := by
    simp
  obtain ⟨p, final⟩ : ∃ p, (front ++ 0 :: locals).getLast? = some p := by
    rw [List.getLast?_append_of_ne_nil _ (List.cons_ne_nil 0 locals)]
    exact ⟨_, List.getLast?_cons⟩
  have inside := List.mem_of_getLast? final
  have notNew : p ≠ regs.length := by
    rintro rfl
    exact fresh inside
  obtain ⟨m, there⟩ := h.live inside
  unfold VfsState.appendLast VfsState.alloc
  rw [h.last, final, h.allocated]
  simp only [Option.bind_eq_bind]
  rw [VfsState.modify_some (e := p) (n := m) ((Function.update_of_ne notNew _ _).trans there)]
  simp only [Option.bind_some]
  refine ⟨_, rfl, rfl, h.extend ?_ ?_ ?_ rfl ?_ ?_ (.inr ⟨rfl, rfl, rfl⟩)⟩
  · rw [split]
    refine h.chain.concat h.nodup fresh ?_ ?_ ?_
    · simp [VfsState.cells, notNew.symm, final]
    · intro x isLast
      cases final.symm.trans isLast
      simp [VfsState.cells, there]
    · intro x new notLast
      have notP : x ≠ p := by
        rintro rfl
        exact notLast final
      simp [VfsState.cells, new, notP]
  · show self.pluginFirst = _
    rw [h.first, split]
    cases front <;> simp
  · rw [split]
    exact List.getLast?_concat.symm
  · intro k x inside here
    have old : k ≠ regs.length := Nat.ne_of_lt inside
    by_cases isLast : k = p
    · subst isLast
      cases there.symm.trans here
      exact ⟨{ m with next := some regs.length }, by simp, rfl, rfl⟩
    · exact ⟨x, by simp [isLast, old, here], rfl, rfl⟩
  · exact ⟨⟨.localFs, pluginInstance, none, some p⟩,
      by simp [notNew.symm], rfl, rfl⟩

end

/-! ## Runs of registrations -/

/-- The list is as it is after some registrations, and LocalFS is its fallback. -/
def Listed (list : VfsState) (regs : List Registration) : Prop :=
  list.builtinFallback = some 0 ∧ ∃ front locals, Registered list regs front locals

section
variable {self : VfsState} {regs : List Registration}

theorem vfsRegisterDriver_listed (h : Listed self regs) (plugin : PluginPtr)
    (pluginInstance : Option ℕ) :
    ∃ self', self.vfsRegisterDriver (some plugin) pluginInstance = some self' ∧
      Listed self' (regs ++ [(plugin, pluginInstance)]) := by
  obtain ⟨fallback, front, locals, registered⟩ := h
  obtain ⟨n, found⟩ := registered.live (List.mem_append_right front List.mem_cons_self)
  have zero : n.plugin = .localFs := by
    have driver := registered.locals_local 0 List.mem_cons_self
    obtain ⟨r, entry, isLocal⟩ := Option.map_eq_some_iff.mp driver
    obtain ⟨n', found', plugin, -⟩ := registered.contents 0 r entry
    cases found.symm.trans found'
    exact plugin.trans isLocal
  unfold VfsState.vfsRegisterDriver
  rw [fallback]
  simp only [found, Option.bind_eq_bind, Option.bind_some, zero]
  by_cases other : plugin = .localFs
  · subst other
    rw [if_neg (not_not_intro rfl)]
    obtain ⟨self', run, kept, after⟩ :=
      appendLast_registered pluginInstance registered
    exact ⟨self', run, kept.trans fallback, _, _, after⟩
  · rw [if_pos other]
    obtain ⟨self', run, kept, after⟩ :=
      spliceBefore_registered pluginInstance registered other
    exact ⟨self', run, kept.trans fallback, _, _, after⟩

theorem vfsInit_listed : ∃ self, vfsInit = some self ∧ Listed self [(.localFs, none)] := by
  refine ⟨_, rfl, rfl, [], [], ?_⟩
  constructor
  · exact ⟨rfl, trivial⟩
  · rfl
  · rfl
  · rfl
  · exact .refl _
  · intro k r found
    rw [List.getElem?_singleton] at found
    split_ifs at found with index
    cases found
    subst index
    exact ⟨⟨.localFs, none, none, none⟩, rfl, rfl, rfl⟩
  · simp
  · simp [driverOf]
  · exact .nil
  · rfl

/-- A driver that may not be built in. -/
theorem builtin_listed (h : Listed self regs) (built : Bool) (plugin : PluginPtr) :
    ∃ self', self.registerBuilt built plugin = some self' ∧
      Listed self' (regs ++ if built then [(plugin, none)] else []) := by
  cases built with
  | false => exact ⟨self, rfl, by simpa using h⟩
  | true => exact vfsRegisterDriver_listed h plugin none

theorem call_listed (build : Build) (h : Listed self regs) (call : Call) :
    ∃ self', call.run build self = some self' ∧
      Listed self' (regs ++ call.registrations build) := by
  cases call with
  | registerDriver plugin pluginInstance =>
      cases plugin with
      | none => exact ⟨self, rfl, by simpa [Call.registrations] using h⟩
      | some plugin => exact vfsRegisterDriver_listed h plugin pluginInstance
  | registerBuiltinDrivers =>
      obtain ⟨s₁, first, listed₁⟩ := builtin_listed h build.libarchive .libarchive
      obtain ⟨s₂, second, listed₂⟩ := builtin_listed listed₁ build.lhasa .lhasa
      obtain ⟨s₃, third, listed₃⟩ := builtin_listed listed₂ build.unlzx .unlzx
      refine ⟨s₃, ?_, ?_⟩
      · simp only [Call.run, vfsRegisterBuiltinDrivers, first, second, third,
          Option.bind_eq_bind, Option.bind_some]
      · simpa [Call.registrations] using listed₃

theorem runCalls_listed (build : Build) (calls : List Call) (h : Listed self regs) :
    ∃ self', runCalls build calls self = some self' ∧
      Listed self' (regs ++ calls.flatMap (Call.registrations build)) := by
  induction calls generalizing self regs with
  | nil => exact ⟨self, rfl, by simpa using h⟩
  | cons call rest ih =>
      obtain ⟨s₁, first, listed₁⟩ := call_listed build h call
      obtain ⟨s₂, run, listed₂⟩ := ih listed₁
      refine ⟨s₂, ?_, ?_⟩
      · simp only [runCalls, first, Option.bind_eq_bind, Option.bind_some]
        exact run
      · simpa using listed₂

end

/-- `vfs_init`, and then the calls of a host. -/
def registered (build : Build) (calls : List Call) : Option VfsState :=
  vfsInit.bind (runCalls build calls)

theorem registered_listed (build : Build) (calls : List Call) :
    ∃ self, registered build calls = some self ∧ Listed self (registrations build calls) := by
  obtain ⟨s₀, init, listed₀⟩ := vfsInit_listed
  obtain ⟨s₁, run, listed₁⟩ := runCalls_listed build calls listed₀
  refine ⟨s₁, ?_, listed₁⟩
  unfold registered
  rw [init]
  exact run

/-! ## The order of the drivers -/

section
variable {self : VfsState} {regs : List Registration} {front locals : List EntryPtr}

theorem Registered.mem (h : Registered self regs front locals) {k : EntryPtr} {x : PluginPtr}
    (driver : driverOf regs k = some x) :
    k ∈ front ∧ x ≠ .localFs ∨ k ∈ 0 :: locals ∧ x = .localFs := by
  obtain ⟨r, found, rfl⟩ := Option.map_eq_some_iff.mp driver
  have inside := List.mem_range.mpr (List.getElem?_eq_some_iff.mp found).1
  rcases List.mem_append.mp (h.perm.mem_iff.mpr inside) with hk | hk
  · obtain ⟨x, same, other⟩ := h.front_other k hk
    cases driver.symm.trans same
    exact .inl ⟨hk, other⟩
  · have isLocal := h.locals_local k hk
    exact .inr ⟨hk, Option.some.inj (driver.symm.trans isLocal)⟩

theorem Registered.mem_front (h : Registered self regs front locals) {k : EntryPtr}
    {x : PluginPtr} (driver : driverOf regs k = some x) (other : x ≠ .localFs) : k ∈ front := by
  rcases h.mem driver with inside | wrong
  · exact inside.1
  · exact absurd wrong.2 other

/-- Two drivers other than LocalFS stay in the order of their registrations. -/
theorem Registered.reversed (h : Registered self regs front locals)
    (later : ∀ a b x y, a < b → driverOf regs a = some x → driverOf regs b = some y →
      x ≠ .localFs → y ≠ .localFs → [b, a].Sublist self.tried) :
    front.length ≤ 1 := by
  by_contra many
  rw [h.tried] at later
  match shape : front with
  | [] => simp at many
  | [_] => simp at many
  | a :: b :: rest =>
      have less := (List.pairwise_cons.mp h.sorted).1 b List.mem_cons_self
      obtain ⟨x, first, notLocal⟩ := h.front_other a List.mem_cons_self
      obtain ⟨y, second, notLocal'⟩ :=
        h.front_other b (List.mem_cons_of_mem _ List.mem_cons_self)
      have behind := later a b x y less first second notLocal notLocal'
      have fresh := (List.nodup_cons.mp h.nodup).1
      cases behind with
      | cons _ inside =>
          exact fresh (inside.subset (List.mem_cons_of_mem _ List.mem_cons_self))
      | cons_cons _ _ => exact Nat.lt_irrefl _ less

end

/-- The list of drivers is always well formed and ends with LocalFS, and it is tried in the
order that is meant exactly when at most one other driver is registered. -/
theorem tries_in_order_iff (build : Build) (calls : List Call) :
    ∃ self, registered build calls = some self ∧
      (TriesInOrder build calls self ↔ (others (registrations build calls)).length ≤ 1) := by
  obtain ⟨self, run, -, front, locals, h⟩ := registered_listed build calls
  refine ⟨self, run, ?_⟩
  constructor
  · intro order
    rw [← h.count]
    exact h.reversed order.laterFirst
  · intro single
    rw [← h.count] at single
    have same : ∀ a ∈ front, ∀ b ∈ front, a = b := by
      intro a ha b hb
      match front, single with
      | [c], _ => rw [List.mem_singleton.mp ha, List.mem_singleton.mp hb]
    have tried := h.tried
    constructor
    · rw [tried]
      exact h.chain
    · rw [tried]
      exact h.first
    · rw [tried]
      exact h.last
    · rw [tried]
      exact fun p hp q hq => h.chain.inverse hp hq
    · rw [tried]
      exact h.perm
    · exact h.contents
    · intro a b x isLocal driver other
      rw [tried]
      have front_b := h.mem_front driver other
      rcases h.mem isLocal with wrong | inside
      · exact absurd rfl wrong.2
      · exact (List.singleton_sublist.mpr front_b).append (List.singleton_sublist.mpr inside.1)
    · intro a b x y less first second notLocal notLocal'
      have equal := same a (h.mem_front first notLocal) b (h.mem_front second notLocal')
      exact absurd equal (Nat.ne_of_lt less)
    · intro _ _ a b x first second archive
      have notLocal : x ≠ .localFs := by
        rcases archive with rfl | rfl <;> decide
      have equal := same a (h.mem_front first (by decide)) b (h.mem_front second notLocal)
      subst equal
      cases first.symm.trans second
      rcases archive with wrong | wrong <;> cases wrong

/-- With all three archive drivers built in, libarchive is asked before the others. -/
theorem builtin_order_reversed : ∃ self,
    registered ⟨true, true, true⟩ [.registerBuiltinDrivers] = some self ∧
      self.tried.filterMap (driverOf (registrations ⟨true, true, true⟩
        [.registerBuiltinDrivers])) = [.libarchive, .lhasa, .unlzx, .localFs] ∧
      ¬ TriesInOrder ⟨true, true, true⟩ [.registerBuiltinDrivers] self := by
  refine ⟨_, rfl, rfl, fun order => ?_⟩
  have asked := order.archivesFirst rfl List.mem_cons_self 1 2 .lhasa rfl rfl (.inl rfl)
  have tried : [2, 1].Sublist [1, 2, 3, 0] := asked
  exact absurd tried (by decide)

/-! ## The drivers that path resolution sees -/

/-- The list of drivers as the rest of the development has it. -/
def pluginEntries (self : VfsState) (table : PluginPtr → Tree.Plugin) : List Tree.PluginEntry :=
  self.tried.filterMap fun e => (self.entries e).map fun n => ⟨e, table n.plugin⟩

/-- Path resolution asks LocalFS after every other driver. -/
theorem pluginEntries_fallback {build : Build} {calls : List Call} {self : VfsState}
    (table : PluginPtr → Tree.Plugin) (run : registered build calls = some self) :
    ∃ front locals, pluginEntries self table = front ++ locals ∧ locals ≠ [] ∧
      (∀ e ∈ front, ∃ x, x ≠ .localFs ∧ e.plugin = table x) ∧
      ∀ e ∈ locals, e.plugin = table .localFs := by
  obtain ⟨self', run', -, front, locals, h⟩ := registered_listed build calls
  cases run.symm.trans run'
  have entry : ∀ k x, driverOf (registrations build calls) k = some x →
      (self.entries k).map (fun n => (⟨k, table n.plugin⟩ : Tree.PluginEntry)) =
        some ⟨k, table x⟩ := by
    intro k x driver
    obtain ⟨r, found, rfl⟩ := Option.map_eq_some_iff.mp driver
    obtain ⟨n, there, plugin, -⟩ := h.contents k r found
    rw [there, ← plugin]
    rfl
  unfold pluginEntries
  rw [h.tried, List.filterMap_append]
  refine ⟨_, _, rfl, ?_, ?_, ?_⟩
  · rw [List.filterMap_cons, entry 0 .localFs (h.locals_local 0 List.mem_cons_self)]
    simp
  · intro e he
    obtain ⟨k, hk, made⟩ := List.mem_filterMap.mp he
    obtain ⟨x, driver, other⟩ := h.front_other k hk
    rw [entry k x driver] at made
    cases made
    exact ⟨x, other, rfl⟩
  · intro e he
    obtain ⟨k, hk, made⟩ := List.mem_filterMap.mp he
    rw [entry k .localFs (h.locals_local k hk)] at made
    cases made
    rfl

end FlowiVfs.DriverList
