import FlowiVfs.TreeRuns
import FlowiVfs.WalkFootprint

/-!
# Which driver a walk hands a path to

A walk goes down the tree along the segments of its path and remembers the last node with
a driver, as a driver view and a number of segments behind it. `Walking` says what the two
mean after any number of segments, and each way of taking a segment keeps it: the walk
enters a node with a driver, or passes one without. What the walk returns is read off at
the end: the driver of the deepest node that has one, and the segments behind that node.

The walk is alone on the mount. The drivers answer anything.
-/
namespace FlowiVfs.Tree

open Program Linked

/-- A section runs on the mount as the previous one left it, and a new node goes to a free
slot of the pool. -/
def Alone (natural : NaturalCompare) : Environment vfs FlVfsMount := fun m op r m' =>
  match op, r with
  | .mount op, r => ∃ fresh, m.tree.nodes fresh = none ∧ op.run natural fresh m = some (r, m')
  | _, _ => m' = m

theorem alone_drivers {natural : NaturalCompare} {m m' : FlVfsMount}
    (calls : Calls (Alone natural) IsDriverCall m m') : m' = m := by
  apply calls.keeps (I := fun u => u = m) ?_ rfl
  intro u op r v isDriver same answer
  cases op with
  | driver op => exact Eq.trans answer same
  | _ => cases isDriver

/-! ## Children by name -/

namespace Shaped

variable {t : MountTree} {w : Forest NodePtr} {p c : NodePtr} {n : VfsTreeNode}

theorem found {name : FlString} (h : Shaped t w)
    (search : t.findChildNode p name = some (some c)) :
    p ∈ w.nodes ∧ c ∈ (w.children p).level ∧ t.nameOf c = name := by
  have hp : p ∈ w.nodes := by
    cases hn : t.nodes p with
    | none => simp [MountTree.findChildNode, hn] at search
    | some n => exact h.live p n hn
  rw [h.findChildNode_eq hp, Option.some.injEq] at search
  refine ⟨hp, List.mem_of_find?_eq_some search, ?_⟩
  simpa using List.find?_some search

/-- A search among different names ends at the one entry that has the name. -/
theorem find_unique {names : NodePtr → FlString} {level : List NodePtr}
    (distinct : (level.map names).Nodup) (hc : c ∈ level) :
    level.find? (fun x => names x = names c) = some c := by
  induction level with
  | nil => cases hc
  | cons x rest ih =>
      obtain ⟨new, distinct⟩ := List.nodup_cons.mp distinct
      rcases List.mem_cons.mp hc with rfl | later
      · simp
      · have other : names x ≠ names c := fun e => new (e ▸ List.mem_map_of_mem later)
        rw [List.find?_cons_of_neg (by simpa using other)]
        exact ih distinct later

theorem finds (h : Shaped t w) (hp : p ∈ w.nodes) (hc : c ∈ (w.children p).level) :
    t.findChildNode p (t.nameOf c) = some (some c) := by
  rw [h.findChildNode_eq hp, find_unique (h.names.children hp).1 hc]

end Shaped

/-! ## Trees that a walk leaves behind -/

/-- What was found by a search for a child is still found. -/
structure Extends (t t' : MountTree) : Prop where
  root : t'.root = t.root
  found : ∀ p name c, t.findChildNode p name = some (some c) →
    t'.findChildNode p name = some (some c)

/-- Besides, every node keeps its driver. -/
structure Grows (t t' : MountTree) : Prop extends Extends t t' where
  driver : ∀ p n, t.nodes p = some n →
    ∃ n', t'.nodes p = some n' ∧ n'.pluginEntry = n.pluginEntry ∧ n'.handles = n.handles

section
variable {t t' : MountTree} {w w' : Forest NodePtr} {parent fresh p : NodePtr}
variable {n m : VfsTreeNode} {natural : NaturalCompare}

theorem Grows.refl (t : MountTree) : Grows t t where
  root := rfl
  found _ _ _ search := search
  driver _ n hn := ⟨n, hn, rfl, rfl⟩

theorem driver_of_data {d : VfsTreeNode} (h : t.dataOf p = some d) :
    ∃ n, t.nodes p = some n ∧ n.pluginEntry = d.pluginEntry ∧ n.handles = d.handles := by
  obtain ⟨n, hn, rfl⟩ := Option.map_eq_some_iff.mp h
  exact ⟨n, hn, rfl, rfl⟩

theorem Grown.grows (grown : Grown natural t t' w w' parent fresh n) (h : Shaped t w)
    (hp : parent ∈ w.nodes) (free : t.nodes fresh = none) : Grows t t' := by
  have new : fresh ∉ w.nodes := by
    intro inside
    obtain ⟨k, hk⟩ := h.node inside
    rw [free] at hk
    cases hk
  obtain ⟨pass, rfl, -⟩ := grown.shape
  have root : t'.root = t.root := by
    have top := grown.shaped.rooted
    rw [Forest.level_modify, h.rooted] at top
    exact (List.cons.inj top).1.symm
  refine ⟨⟨root, fun q name c search => ?_⟩, fun q k hk => ?_⟩
  · obtain ⟨hq, hc, rfl⟩ := h.found search
    have inside : c ∈ w.nodes := w.children_subset q ((w.children q).level_subset hc)
    have named : t'.nameOf c = t.nameOf c :=
      MountTree.nameOf_congr (grown.others c fun e => new (e ▸ inside))
    have elsewhere : q ≠ fresh := fun e => new (e ▸ hq)
    have stays : q ∈ (w.modify parent (Forest.insert pass fresh)).nodes :=
      (Forest.mem_modify_insert h.distinct elsewhere).mpr hq
    rw [← named]
    apply grown.shaped.finds stays
    by_cases here : q = parent
    · subst here
      rw [Forest.children_modify h.distinct hp, Forest.level_insert]
      rw [← List.takeWhile_append_dropWhile (p := pass) (l := (w.children q).level)] at hc
      rcases List.mem_append.mp hc with front | back
      · exact List.mem_append_left _ front
      · exact List.mem_append_right _ (List.mem_cons_of_mem _ back)
    · rw [Forest.level_children_modify h.distinct hq new here]
      exact hc
  · have elsewhere : q ≠ fresh := by
      rintro rfl
      rw [free] at hk
      cases hk
    have data : t'.dataOf q = some k.data := by
      rw [grown.others q elsewhere, MountTree.dataOf, hk, Option.map_some]
    obtain ⟨k', hk', entry, handles⟩ := driver_of_data data
    exact ⟨k', hk', entry, handles⟩

/-- A node that is written keeps its children and its name. -/
theorem Shaped.rewritten (h : Shaped t w) (hn : t.nodes p = some n)
    (links : m.toLinks = n.toLinks) (name : m.name = n.name)
    (nodes : t'.nodes = (t.set p m).nodes) (count : t'.count = t.count)
    (root : t'.root = t.root) : Shaped t' w ∧ Extends t t' := by
  have after := (h.set hn links name).of_nodes nodes count root
  refine ⟨after, root, fun q name' c search => ?_⟩
  obtain ⟨hq, hc, rfl⟩ := h.found search
  have named : t'.nameOf c = t.nameOf c := by
    simp only [MountTree.nameOf, nodes]
    by_cases here : c = p
    · subst here
      rw [MountTree.set_nodes_self, hn, Option.map_some, Option.map_some, name]
    · rw [MountTree.set_nodes_ne here]
  rw [← named]
  exact after.finds hq hc

end

/-! ## Paths from the root -/

namespace MountTree

variable {t t' : MountTree} {segments : List FlString} {segment : FlString} {p q c : NodePtr}

variable (t) in
/-- The segments lead from the root to the node. -/
def Leads (segments : List FlString) (p : NodePtr) : Prop :=
  t.findPath t.root segments = some (some p)

theorem findPath_extends (h : Extends t t') (search : t.findPath q segments = some (some p)) :
    t'.findPath q segments = some (some p) := by
  induction segments generalizing q with
  | nil => exact search
  | cons segment rest ih =>
      obtain ⟨child, found, search⟩ := Option.bind_eq_some_iff.mp search
      cases child with
      | none => cases search
      | some child =>
          rw [findPath, h.found q segment child found]
          exact ih search

theorem findPath_snoc (search : t.findPath q segments = some (some p))
    (child : t.findChildNode p segment = some (some c)) :
    t.findPath q (segments ++ [segment]) = some (some c) := by
  induction segments generalizing q with
  | nil =>
      cases search
      simp [findPath, child]
  | cons first rest ih =>
      obtain ⟨next, found, search⟩ := Option.bind_eq_some_iff.mp search
      cases next with
      | none => cases search
      | some next =>
          rw [List.cons_append, findPath, found]
          exact ih search

theorem Leads.extends (h : Extends t t') (leads : t.Leads segments p) : t'.Leads segments p := by
  unfold Leads
  rw [h.root]
  exact findPath_extends h leads

theorem Leads.snoc (leads : t.Leads segments p)
    (child : t.findChildNode p segment = some (some c)) : t.Leads (segments ++ [segment]) c :=
  findPath_snoc leads child

end MountTree

/-! ## The sections of a walk -/

section
variable {natural : NaturalCompare} {m m' : FlVfsMount} {w : Forest NodePtr}
variable {parent node c fresh : NodePtr} {segment : FlString} {worker : ℕ}

theorem look_spec {found : Option ChildView}
    (run : (MountSection.lookChild parent segment worker).run natural fresh m =
      some (found, m')) :
    m' = m ∧
      (found = none ∧ m.tree.findChildNode parent segment = some none ∨
        ∃ child n, found = some child ∧
          m.tree.findChildNode parent segment = some (some child.node) ∧
          m.tree.nodes child.node = some n ∧ child.isDirectory = n.isDirectory ∧
          child.driver = ⟨n.pluginEntry,
            if n.pluginEntry.isSome then n.handles.slot worker else none⟩) := by
  obtain ⟨view, looked, same⟩ := Option.bind_eq_some_iff.mp run
  cases same
  refine ⟨rfl, ?_⟩
  obtain ⟨child, search, viewed⟩ := Option.bind_eq_some_iff.mp looked
  cases child with
  | none =>
      cases viewed
      exact .inl ⟨rfl, search⟩
  | some child =>
      obtain ⟨n, hn, viewed⟩ := Option.bind_eq_some_iff.mp viewed
      cases viewed
      exact .inr ⟨_, n, rfl, search, hn, rfl, rfl⟩

theorem ensure_spec {mark : Bool} (shaped : Shaped m.tree w)
    (free : m.tree.nodes fresh = none)
    (run : (MountSection.ensureChildNodeExists parent segment mark).run natural fresh m =
      some (c, m')) :
    (∃ w', Shaped m'.tree w') ∧ Grows m.tree m'.tree ∧
      m'.tree.findChildNode parent segment = some (some c) ∧
      (m.tree.findChildNode parent segment = some none →
        ∃ n, m'.tree.nodes c = some n ∧ n.pluginEntry = none) := by
  obtain ⟨ensured, adding, same⟩ := Option.bind_eq_some_iff.mp run
  cases same
  have hp : parent ∈ w.nodes := by
    cases hn : m.tree.nodes parent with
    | none => simp [MountTree.ensureChildNodeExists, MountTree.findChildNode, hn] at adding
    | some n => exact shaped.live parent n hn
  obtain ⟨k, hk, name, there⟩ | ⟨t', w', added, grown⟩ :=
    shaped.ensureChild natural hp free segment mark
  · cases there.symm.trans adding
    have search := shaped.finds hp hk
    rw [name] at search
    refine ⟨⟨w, shaped⟩, .refl _, search, fun missing => ?_⟩
    cases search.symm.trans missing
  · cases added.symm.trans adding
    have data := grown.here
    obtain ⟨n, hn, entry, -⟩ := driver_of_data data
    have named : t'.nameOf fresh = segment := by
      obtain ⟨n', hn', same⟩ := Option.map_eq_some_iff.mp data
      rw [MountTree.nameOf_some hn']
      exact congrArg VfsTreeNode.name same
    obtain ⟨pass, rfl, -⟩ := grown.shape
    refine ⟨⟨_, grown.shaped⟩, grown.grows shaped hp free, ?_, fun _ => ⟨n, hn, entry⟩⟩
    rw [← named]
    apply grown.shaped.finds
    · refine (Forest.nodes_modify_insert pass fresh shaped.distinct hp).mem_iff.mpr ?_
      exact List.mem_cons_of_mem _ hp
    · rw [Forest.children_modify shaped.distinct hp, Forest.level_insert]
      exact List.mem_append_right _ List.mem_cons_self

theorem mark_spec (shaped : Shaped m.tree w)
    (run : (MountSection.markDirectory node).run natural fresh m = some ((), m')) :
    (∃ w', Shaped m'.tree w') ∧ Grows m.tree m'.tree := by
  obtain ⟨t, marked, same⟩ := Option.bind_eq_some_iff.mp run
  cases same
  obtain ⟨n, hn, rfl⟩ := Option.map_eq_some_iff.mp marked
  have after : Shaped (m.tree.set node { n with isDirectory := true }) w ∧
      Extends m.tree (m.tree.set node { n with isDirectory := true }) :=
    shaped.rewritten (m := { n with isDirectory := true }) hn rfl rfl rfl rfl rfl
  obtain ⟨kept, extended⟩ := after
  refine ⟨⟨w, kept⟩, extended, fun p k hk => ?_⟩
  by_cases here : p = node
  · subst here
    cases hn.symm.trans hk
    exact ⟨_, MountTree.set_nodes_self, rfl, rfl⟩
  · exact ⟨k, (MountTree.set_nodes_ne here).trans hk, rfl, rfl⟩

theorem install_spec {e : PluginEntry} {handles : VfsHandles} {memoryData : Option BufferPtr}
    {memorySize : ℤ} (shaped : Shaped m.tree w)
    (run : (MountSection.installArchive node e handles memoryData memorySize).run natural fresh
      m = some ((), m')) :
    (∃ w', Shaped m'.tree w') ∧ Extends m.tree m'.tree ∧
      ∃ n, m'.tree.nodes node = some n ∧ n.pluginEntry = some e := by
  obtain ⟨t, swapped, same⟩ := Option.bind_eq_some_iff.mp run
  cases same
  cases hn : m.tree.nodes node with
  | none => simp [MountTree.installArchive, MountTree.closeNodeResources, hn] at swapped
  | some n =>
      rw [MountTree.installArchive_some hn] at swapped
      cases swapped
      let installed : VfsTreeNode :=
        { n.closedNode with
          pluginEntry := some e
          handles := handles
          memoryData := memoryData
          memorySize := memorySize
          isDirectory := true }
      have after : Shaped
            { m.tree.set node installed with closed := m.tree.closed ++ n.closes } w ∧
          Extends m.tree
            { m.tree.set node installed with closed := m.tree.closed ++ n.closes } :=
        shaped.rewritten (m := installed) hn rfl rfl rfl rfl rfl
      obtain ⟨kept, extended⟩ := after
      exact ⟨⟨w, kept⟩, extended, installed, MountTree.set_nodes_self, rfl⟩

end

/-! ## The invariant of a walk -/

/-- Where a walk is after the segments `done`: the node of its driver is so many segments
back, and no node behind it has a driver. -/
structure Walking (worker : ℕ) (done : List FlString) (t : MountTree) (s : WalkState) : Prop where
  shaped : ∃ w, Shaped t w
  since : s.segmentsSincePlugin ≤ done.length
  here : t.Leads done s.currentNode
  owner : ∃ p n, t.Leads (done.take (done.length - s.segmentsSincePlugin)) p ∧
    t.nodes p = some n ∧ s.current = n.view worker ∧
    (n.pluginEntry = none → s.segmentsSincePlugin = done.length)
  bare : ∀ j, done.length - s.segmentsSincePlugin < j → j ≤ done.length →
    ∃ p n, t.Leads (done.take j) p ∧ t.nodes p = some n ∧ n.pluginEntry = none

namespace Walking

variable {worker : ℕ} {done : List FlString} {segment : FlString} {t t' : MountTree}
variable {s : WalkState} {c : NodePtr} {n : VfsTreeNode}

theorem start {w : Forest NodePtr} (shaped : Shaped t w) (hn : t.nodes t.root = some n) :
    Walking worker [] t { currentNode := t.root, current := n.view worker } where
  shaped := ⟨w, shaped⟩
  since := Nat.le_refl 0
  here := rfl
  owner := ⟨t.root, n, rfl, hn, rfl, fun _ => rfl⟩
  bare j := by
    intro after upTo
    simp only [List.length_nil] at after upTo
    omega

/-- A tree that has grown shows the walk where it was. -/
theorem grow (walking : Walking worker done t s) (shaped : ∃ w, Shaped t' w)
    (grows : Grows t t') : Walking worker done t' s where
  shaped := shaped
  since := walking.since
  here := walking.here.extends grows.toExtends
  owner := by
    obtain ⟨p, n, leads, hn, view, none⟩ := walking.owner
    obtain ⟨n', hn', entry, handles⟩ := grows.driver p n hn
    refine ⟨p, n', leads.extends grows.toExtends, hn', ?_, fun h => none (entry ▸ h)⟩
    rw [view, VfsTreeNode.view, VfsTreeNode.view, entry, handles]
  bare j := by
    intro after upTo
    obtain ⟨p, n, leads, hn, none⟩ := walking.bare j after upTo
    obtain ⟨n', hn', entry, -⟩ := grows.driver p n hn
    exact ⟨p, n', leads.extends grows.toExtends, hn', entry.trans none⟩

/-- The walk goes on to a child without a driver. -/
theorem pass (walking : Walking worker done t s)
    (child : t.findChildNode s.currentNode segment = some (some c))
    (hn : t.nodes c = some n) (none : n.pluginEntry = none) :
    Walking worker (done ++ [segment]) t
      { s with
        currentNode := c
        segmentsSincePlugin := s.segmentsSincePlugin + 1 } := by
  have length : (done ++ [segment]).length = done.length + 1 := by simp
  have since := walking.since
  have before : ∀ j, j ≤ done.length → (done ++ [segment]).take j = done.take j :=
    fun j upTo => List.take_append_of_le_length upTo
  constructor
  · exact walking.shaped
  · show s.segmentsSincePlugin + 1 ≤ _
    omega
  · exact walking.here.snoc child
  · obtain ⟨p, k, leads, hk, view, root⟩ := walking.owner
    refine ⟨p, k, ?_, hk, view, fun h => ?_⟩
    · show t.Leads ((done ++ [segment]).take (_ - (s.segmentsSincePlugin + 1))) p
      rw [length, Nat.add_sub_add_right, before _ (Nat.sub_le ..)]
      exact leads
    · show s.segmentsSincePlugin + 1 = _
      rw [length, root h]
  · intro j after upTo
    simp only [length] at after upTo
    by_cases last : j = done.length + 1
    · refine ⟨c, n, ?_, hn, none⟩
      rw [last, ← length, List.take_length]
      exact walking.here.snoc child
    · rw [before j (by omega)]
      exact walking.bare j (by omega) (by omega)

/-- The walk enters a child that has a driver. -/
theorem enter (shaped : ∃ w, Shaped t w) (leads : t.Leads (done ++ [segment]) c)
    (hn : t.nodes c = some n) (some : n.pluginEntry ≠ none) :
    Walking worker (done ++ [segment]) t { currentNode := c, current := n.view worker } := by
  constructor
  · exact shaped
  · exact Nat.zero_le _
  · exact leads
  · refine ⟨c, n, ?_, hn, rfl, fun h => absurd h some⟩
    rw [Nat.sub_zero, List.take_length]
    exact leads
  · intro j after upTo
    simp only [Nat.sub_zero] at after
    omega

end Walking

/-! ## A walk keeps it -/

section
variable {natural : NaturalCompare} {self : VfsState} {slots worker idx : ℕ}
variable {components done : List FlString} {segment : FlString} {m m' : FlVfsMount}
variable {s s' : WalkState} {c : NodePtr} {entry : PluginEntry}

/-- A load that succeeds enters the child, and one that fails leaves the mount as it is. -/
theorem load_walking {handle : Option DriverPtr} {path : FlString} {size : ℤ}
    {otherwise : VfsProgram WalkState} (walking : Walking worker done m.tree s)
    (child : m.tree.findChildNode s.currentNode segment = some (some c))
    (run : Run (Alone natural) (do
      let loaded ← vfsTreeTryLoadAsArchive self slots c entry handle path size
      if loaded then enterArchive c worker else otherwise) m s' m') :
    Walking worker (done ++ [segment]) m'.tree s' ∨
      Run (Alone natural) otherwise m s' m' := by
  obtain ⟨loaded, u, loading, run⟩ := run_bind.mp run
  obtain ⟨v, calls, ⟨rfl, rfl⟩ | ⟨rfl, e, handles, memoryData, memorySize, -, swapped⟩⟩ :=
    tryLoadAsArchive_ends loading
  · cases alone_drivers calls
    exact .inr run
  · cases alone_drivers calls
    left
    obtain ⟨w, shaped⟩ := walking.shaped
    obtain ⟨fresh, -, swapped⟩ := swapped
    obtain ⟨kept, extended, n, hn, installed⟩ := install_spec shaped swapped
    obtain ⟨view, x, reading, done⟩ := run_bind.mp run
    obtain ⟨rfl, rfl⟩ := run_done.mp done
    obtain ⟨fresh', -, read⟩ := run_call.mp reading
    obtain ⟨n', hn', same⟩ := Option.bind_eq_some_iff.mp read
    cases hn.symm.trans hn'
    cases same
    apply Walking.enter kept ((walking.here.snoc child).extends extended) hn
    rw [installed]
    exact Option.some_ne_none e

theorem walkChild_walking {child : ChildView} {n : VfsTreeNode}
    (walking : Walking worker done m.tree s)
    (search : m.tree.findChildNode s.currentNode segment = some (some child.node))
    (hn : m.tree.nodes child.node = some n)
    (driver : child.driver = ⟨n.pluginEntry,
      if n.pluginEntry.isSome then n.handles.slot worker else none⟩)
    (run : Run (Alone natural) (walkChild self slots components worker idx s child) m s' m') :
    Walking worker (done ++ [segment]) m'.tree s' := by
  unfold walkChild at run
  rw [driver] at run
  cases has : n.pluginEntry with
  | some e =>
      have view : child.driver = n.view worker := by
        rw [driver, VfsTreeNode.view, has]
        rfl
      simp only [has] at run
      obtain ⟨rfl, rfl⟩ := run_done.mp run
      have entered : Walking worker (done ++ [segment]) m'.tree
          { currentNode := child.node, current := n.view worker } :=
        .enter walking.shaped (walking.here.snoc search) hn (by simp [has])
      simpa [VfsTreeNode.view, has] using entered
  | none =>
      have passed := walking.pass search hn has
      simp only [has] at run
      cases current : s.current.pluginEntry with
      | none =>
          simp only [current] at run
          obtain ⟨rfl, rfl⟩ := run_done.mp run
          exact passed
      | some entry =>
          simp only [current] at run
          split_ifs at run
          · obtain ⟨rfl, rfl⟩ := run_done.mp run
            exact passed
          · obtain ⟨size, u, asked, run⟩ := run_bind.mp run
            cases alone_drivers (driverCalls asked)
            rcases load_walking walking search run with entered | run
            · exact entered
            · obtain ⟨rfl, rfl⟩ := run_done.mp run
              exact passed

/-- A child that was missing is created without a driver. -/
theorem ensure_walking {mark : Bool} (walking : Walking worker done m.tree s)
    (missing : m.tree.findChildNode s.currentNode segment = some none)
    (run : Run (Alone natural)
      (onMount (.ensureChildNodeExists s.currentNode segment mark)) m c m') :
    Walking worker done m'.tree s ∧
      m'.tree.findChildNode s.currentNode segment = some (some c) ∧
      ∃ n, m'.tree.nodes c = some n ∧ n.pluginEntry = none := by
  obtain ⟨w, shaped⟩ := walking.shaped
  obtain ⟨fresh, free, run⟩ := run_call.mp run
  obtain ⟨kept, grows, search, bare⟩ := ensure_spec shaped free run
  exact ⟨walking.grow kept grows, search, bare missing⟩

theorem advance_walking (walking : Walking worker done m.tree s)
    (missing : m.tree.findChildNode s.currentNode segment = some none)
    (run : Run (Alone natural) (advanceToVirtualDirectory segment s) m s' m') :
    Walking worker (done ++ [segment]) m'.tree s' := by
  obtain ⟨c, u, ensured, done⟩ := run_bind.mp run
  obtain ⟨rfl, rfl⟩ := run_done.mp done
  obtain ⟨walking, search, n, hn, none⟩ := ensure_walking walking missing ensured
  exact walking.pass search hn none

theorem walkUnlisted_walking (walking : Walking worker done m.tree s)
    (missing : m.tree.findChildNode s.currentNode segment = some none)
    (run : Run (Alone natural)
      (walkUnlisted self slots components worker idx segment entry s) m s' m') :
    Walking worker (done ++ [segment]) m'.tree s' := by
  obtain ⟨size, u, asked, run⟩ := run_bind.mp run
  cases alone_drivers (driverCalls asked)
  split_ifs at run
  · exact advance_walking walking missing run
  · obtain ⟨c, u, ensured, run⟩ := run_bind.mp run
    obtain ⟨walking, search, n, hn, none⟩ := ensure_walking walking missing ensured
    rcases load_walking walking search run with entered | run
    · exact entered
    · obtain ⟨_, v, marking, done⟩ := run_bind.mp run
      obtain ⟨rfl, rfl⟩ := run_done.mp done
      obtain ⟨w, shaped⟩ := walking.shaped
      obtain ⟨fresh, -, marked⟩ := run_call.mp marking
      obtain ⟨kept, grows⟩ := mark_spec shaped marked
      obtain ⟨n', hn', entry', -⟩ := grows.driver c n hn
      exact (walking.grow kept grows).pass (grows.found _ _ _ search) hn' (entry'.trans none)

theorem walkSegment_walking {forListing : Bool} (walking : Walking worker done m.tree s)
    (run : Run (Alone natural)
      (walkSegment self slots components worker forListing idx segment s) m (some s') m') :
    Walking worker (done ++ [segment]) m'.tree s' := by
  obtain ⟨found, u, looking, run⟩ := run_bind.mp run
  obtain ⟨fresh, -, looked⟩ := run_call.mp looking
  obtain ⟨rfl, ⟨rfl, missing⟩ | ⟨child, n, rfl, search, hn, -, driver⟩⟩ := look_spec looked
  · cases current : s.current.pluginEntry with
    | none =>
        simp only [current] at run
        obtain ⟨wrong, -⟩ := run_done.mp run
        cases wrong
    | some entry =>
        simp only [current] at run
        split_ifs at run
        · obtain ⟨next, v, step, done⟩ := run_bind.mp run
          obtain ⟨same, rfl⟩ := run_done.mp done
          cases same
          exact walkUnlisted_walking walking missing step
        · obtain ⟨next, v, step, done⟩ := run_bind.mp run
          obtain ⟨same, rfl⟩ := run_done.mp done
          cases same
          exact advance_walking walking missing step
  · obtain ⟨next, v, run, done⟩ := run_bind.mp run
    obtain ⟨same, rfl⟩ := run_done.mp done
    cases same
    exact walkChild_walking walking search hn driver run

theorem walkFrom_walking {forListing : Bool} {segments : List FlString}
    (walking : Walking worker done m.tree s)
    (run : Run (Alone natural)
      (walkFrom self slots components worker forListing idx segments s) m (.inr s') m') :
    Walking worker (done ++ segments) m'.tree s' := by
  induction segments generalizing idx done m s with
  | nil =>
      obtain ⟨same, rfl⟩ := run_done.mp run
      cases same
      rw [List.append_nil]
      exact walking
  | cons segment rest ih =>
      obtain ⟨next, u, first, run⟩ := run_bind.mp run
      cases next with
      | none =>
          obtain ⟨wrong, -⟩ := run_done.mp run
          cases wrong
      | some next =>
          have further := ih (walkSegment_walking walking first) run
          rw [List.append_assoc, List.singleton_append] at further
          exact further

end

/-! ## What a walk returns -/

/-- The segments that a walk goes down: those of a file but for its name. -/
def walkedSegments (components : List FlString) (forListing : Bool) : List FlString :=
  if forListing then components else components.dropLast

/-- The segments from `k` on as one path. The name of a file is a path by itself. -/
def pathBehind (paths : PathLibrary) (components : List FlString) (forListing : Bool) (k : ℕ) :
    FlString :=
  match components.drop k, forListing with
  | [], _ => []
  | [finalFile], false => finalFile
  | _, _ => paths.reconstruct components k components.length

section
variable {S : Type} {env : Environment vfs S} {self : VfsState} {components : List FlString}
variable {forListing : Bool} {s : WalkState} {u v : S} {path : FlString}

theorem pathBehind_listing {k : ℕ} (some : k < components.length) :
    pathBehind self.paths components true k =
      self.paths.reconstruct components k components.length := by
  unfold pathBehind
  split
  · next none =>
      rw [List.drop_eq_nil_iff] at none
      omega
  · contradiction
  · rfl

theorem pathBehind_reading {k : ℕ} (several : k + 1 < components.length) :
    pathBehind self.paths components false k =
      self.paths.reconstruct components k components.length := by
  have length : (components.drop k).length = components.length - k := List.length_drop
  unfold pathBehind
  split
  · next none =>
      rw [none, List.length_nil] at length
      omega
  · next single _ =>
      rw [single, List.length_singleton] at length
      omega
  · rfl

theorem walkPath_behind (segmented : components ≠ [])
    (since : s.segmentsSincePlugin ≤ (walkedSegments components forListing).length)
    (run : Run env (walkPath self components forListing s) u path v) :
    v = u ∧ path = pathBehind self.paths components forListing
      ((walkedSegments components forListing).length - s.segmentsSincePlugin) := by
  have positive : 0 < components.length := List.length_pos_iff.mpr segmented
  unfold walkPath at run
  cases forListing with
  | true =>
      have all : (walkedSegments components true).length = components.length := rfl
      rw [all] at since ⊢
      rw [if_pos rfl] at run
      split_ifs at run with behind
      · obtain ⟨rfl, rfl⟩ := run_done.mp run
        refine ⟨rfl, ?_⟩
        rw [pathBehind_listing (by omega)]
        rfl
      · obtain ⟨rfl, rfl⟩ := run_done.mp run
        refine ⟨rfl, ?_⟩
        have none : components.drop (components.length - s.segmentsSincePlugin) = [] := by
          rw [List.drop_eq_nil_iff]
          omega
        unfold pathBehind
        rw [none]
  | false =>
      have butLast : (walkedSegments components false).length = components.length - 1 :=
        List.length_dropLast
      rw [butLast] at since ⊢
      rw [if_neg Bool.false_ne_true] at run
      split_ifs at run with direct
      · rw [List.getLast?_eq_getLast_of_ne_nil segmented] at run
        obtain ⟨rfl, rfl⟩ := run_done.mp run
        refine ⟨rfl, ?_⟩
        have single : components.drop (components.length - 1) = [components.getLast segmented] :=
          List.drop_length_sub_one segmented
        rw [direct, Nat.sub_zero]
        unfold pathBehind
        rw [single]
      · obtain ⟨rfl, rfl⟩ := run_done.mp run
        refine ⟨rfl, ?_⟩
        rw [pathBehind_reading (by omega)]
        rfl

end

section
variable (self : VfsState) (slots : ℕ)

theorem walkFrom_fails (components : List FlString) (worker : ℕ) (forListing : Bool) (idx : ℕ)
    (segments : List FlString) (s : WalkState) :
    Returns (fun walked => ∀ failure, walked = .inl failure → failure.success = false)
      (walkFrom self slots components worker forListing idx segments s) := by
  induction segments generalizing idx s with
  | nil =>
      intro failure stopped
      cases stopped
  | cons segment rest ih =>
      apply Returns.bind
      intro next
      cases next with
      | some next => exact ih (idx + 1) next
      | none =>
          intro failure stopped
          cases stopped
          rfl

end

/-- What a walk returns: the node reached by the first `k` segments is the deepest one with a
driver on the way, or the root when there is none. -/
structure Resolved (paths : PathLibrary) (components : List FlString) (worker : ℕ)
    (forListing : Bool) (t : MountTree) (k : ℕ) (owner last : NodePtr)
    (result : TreeWalkResult) : Prop where
  within : k ≤ (walkedSegments components forListing).length
  atOwner : t.Leads ((walkedSegments components forListing).take k) owner
  driver : ∃ n, t.nodes owner = some n ∧ result.driver = n.view worker ∧
    (n.pluginEntry = none → k = 0)
  deepest : ∀ j, k < j → j ≤ (walkedSegments components forListing).length →
    ∃ p n, t.Leads ((walkedSegments components forListing).take j) p ∧
      t.nodes p = some n ∧ n.pluginEntry = none
  atLast : t.Leads (walkedSegments components forListing) last
  node : result.node = some last
  path : result.pathFromNode = pathBehind paths components forListing k

section
variable {natural : NaturalCompare} {self : VfsState} {slots worker : ℕ} {path : FlString}
variable {forListing : Bool} {m m' : FlVfsMount} {w : Forest NodePtr} {result : TreeWalkResult}

/-- A walk that succeeds returns the node at the end of the walked segments, the driver of the
deepest node with one among those it went through, and the segments behind that node. -/
theorem walk_resolves (shaped : Shaped m.tree w) (asked : path ≠ [])
    (segmented : self.paths.components path ≠ [])
    (run : Run (Alone natural) (vfsTreeWalkAndResolve self slots path worker forListing) m
      result m') (success : result.success = true) :
    ∃ k owner last,
      Resolved self.paths (self.paths.components path) worker forListing m'.tree k owner last
        result := by
  unfold vfsTreeWalkAndResolve at run
  by_cases slotless : slots ≤ worker
  · rw [if_pos slotless] at run
    obtain ⟨rfl, -⟩ := run_done.mp run
    cases success
  · rw [if_neg slotless] at run
    obtain ⟨root, u, rooting, rest⟩ := run_bind.mp run
    obtain ⟨fresh, -, rooted⟩ := run_call.mp rooting
    obtain ⟨n, hn, viewed⟩ := Option.bind_eq_some_iff.mp rooted
    cases viewed
    dsimp only at rest
    rw [if_neg asked] at rest
    obtain ⟨walked, v, walking, rest⟩ := run_bind.mp rest
    cases walked with
    | inl failure =>
        obtain ⟨rfl, -⟩ := run_done.mp rest
        have failed := (walkFrom_fails ..).run walking _ rfl
        rw [failed] at success
        cases success
    | inr s =>
        have arrived := walkFrom_walking (.start shaped hn) walking
        rw [List.nil_append] at arrived
        obtain ⟨behind, x, pathing, done⟩ := run_bind.mp rest
        obtain ⟨rfl, rfl⟩ := run_done.mp done
        obtain ⟨rfl, rfl⟩ := walkPath_behind segmented arrived.since pathing
        obtain ⟨owner, o, leads, ho, view, bare⟩ := arrived.owner
        refine ⟨(walkedSegments (self.paths.components path) forListing).length -
          s.segmentsSincePlugin, owner, s.currentNode, ?_⟩
        constructor
        · exact Nat.sub_le _ _
        · exact leads
        · refine ⟨o, ho, view, fun none => ?_⟩
          rw [bare none]
          exact Nat.sub_self _
        · exact arrived.bare
        · exact arrived.here
        · rfl
        · rfl

/-- The path `xy` is read on a fresh mount: `x` becomes a virtual directory. -/
theorem virtual_walk_run : ∃ t,
    Run (Alone fun _ _ => 0) (vfsTreeWalkAndResolve ⟨[], letters⟩ 1 ['x', 'y'] 0 false)
      { tree := (MountState.mounted 0 [] (some ⟨0, { name := ['l'] }⟩) [some 5]).tree }
      { node := some 1, driver := ⟨some ⟨0, { name := ['l'] }⟩, some 5⟩,
        pathFromNode := ['x', 'y'], success := true } t := by
  let m : FlVfsMount :=
    { tree := (MountState.mounted 0 [] (some ⟨0, { name := ['l'] }⟩) [some 5]).tree }
  have rooted : Alone (fun _ _ => 0) m (.mount (.rootDriver 0))
      ((0, ⟨some ⟨0, { name := ['l'] }⟩, some 5⟩) : NodePtr × DriverView) m := ⟨1, rfl, rfl⟩
  have looked : Alone (fun _ _ => 0) m (.mount (.lookChild 0 ['x'] 0)) (none : Option ChildView)
      m := ⟨1, rfl, rfl⟩
  obtain ⟨m', created⟩ : ∃ m', MountSection.run (fun _ _ => 0) 1 m
      (.ensureChildNodeExists 0 ['x'] true) = some ((1 : ℕ), m') := ⟨_, rfl⟩
  have ensured : Alone (fun _ _ => 0) m (.mount (.ensureChildNodeExists 0 ['x'] true)) (1 : ℕ)
      m' := ⟨1, rfl, created⟩
  exact ⟨m', .perform rooted (.perform looked (.perform ensured (.done _ _)))⟩

theorem walk_resolves_virtual : ∃ t k owner last,
    Resolved letters [['x'], ['y']] 0 false t k owner last
      { node := some 1, driver := ⟨some ⟨0, { name := ['l'] }⟩, some 5⟩,
        pathFromNode := ['x', 'y'], success := true } := by
  obtain ⟨m', run⟩ := virtual_walk_run
  have shaped := (Sound.mounted 0 [] (some ⟨0, { name := ['l'] }⟩) [some 5]).shaped
  have resolved := walk_resolves shaped (List.cons_ne_nil _ _) (List.cons_ne_nil _ _) run rfl
  exact ⟨m'.tree, resolved⟩

end

end FlowiVfs.Tree
