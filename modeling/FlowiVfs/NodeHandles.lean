import FlowiVfs.Custody
import FlowiVfs.HandleUses
import FlowiVfs.WatchedWalks

/-!
# The handles in the nodes of a mount

What the sections of an operation and the changes of the watcher do to the driver handles
that nodes hold: they take the handles out of some nodes and close them, in that order, and
put the handles that they were given into one node. All other nodes keep theirs.
-/
namespace FlowiVfs.Tree

open Program Linked

/-- The node whose driver a load replaces. -/
def MountSection.replaces : MountSection → Option NodePtr
  | installArchive node _ _ _ _ => some node
  | _ => none

/-- The handles of the nodes `emptied` were closed, and `target` has got others. -/
structure MovesHandles (m m' : FlVfsMount) (emptied : List NodePtr) (placed : List OpenHandle)
    (target : NodePtr) : Prop where
  moves : Moves m.tree.closesOf m'.tree.closesOf emptied placed target
  closes : closedSince m m' = emptied.flatMap m.tree.closesOf

section
variable {natural : NaturalCompare} {paths : PathLibrary} {m m' : FlVfsMount}
variable {w : Forest NodePtr} {fresh : NodePtr} {op : MountSection} {r : op.Reply}

theorem closesOf_none {t : MountTree} {x : NodePtr} (gone : t.nodes x = none) :
    t.closesOf x = [] := by
  rw [MountTree.closesOf, gone]
  rfl

theorem closesOf_grown {t t' : MountTree} {w' : Forest NodePtr} {parent : NodePtr}
    {n : VfsTreeNode} (grown : Grown natural t t' w w' parent fresh n)
    (free : t.nodes fresh = none) (plain : n.pluginEntry = none) (x : NodePtr) :
    t'.closesOf x = t.closesOf x := by
  by_cases e : x = fresh
  · subst e
    obtain ⟨k, hk, data⟩ := Option.map_eq_some_iff.mp grown.here
    have none : k.pluginEntry = none := by rw [← plain, ← data]; rfl
    rw [MountTree.closesOf_some hk, VfsTreeNode.closes, none, closesOf_none free]
  · exact MountTree.closesOf_congr (grown.others x e)

theorem closesOf_set {t t' : MountTree} {p : NodePtr} {n k : VfsTreeNode}
    (hn : t.nodes p = some n) (nodes : t'.nodes = (t.set p k).nodes)
    (closes : k.closes = n.closes) (x : NodePtr) : t'.closesOf x = t.closesOf x := by
  rw [MountTree.closesOf, MountTree.closesOf, nodes]
  by_cases e : x = p
  · rw [e, MountTree.set_nodes_self, hn, Option.map_some, Option.map_some, closes]
  · rw [MountTree.set_nodes_ne e]

theorem closedSince_same (closed : m'.tree.closed = m.tree.closed) : closedSince m m' = [] := by
  rw [closedSince, closed, List.drop_length]

theorem MovesHandles.none (closed : m'.tree.closed = m.tree.closed)
    (kept : ∀ n, m'.tree.closesOf n = m.tree.closesOf n) :
    MovesHandles m m' [] [] m.tree.root := by
  refine ⟨?_, closedSince_same closed⟩
  rw [funext kept]
  exact .none

/-- Sections other than those of the mount operation. -/
theorem section_moves (shaped : Shaped m.tree w) (free : m.tree.nodes fresh = none)
    (may : VfsOp.storesRoot (.mount op) = false) (run : op.run natural fresh m = some (r, m')) :
    ∃ target, MovesHandles m m' op.replaces.toList (VfsOp.takes (.mount op)) target := by
  cases op with
  | rootDriver worker =>
      obtain ⟨n, -, same⟩ := Option.bind_eq_some_iff.mp run
      cases same
      exact ⟨_, .none rfl fun _ => rfl⟩
  | lookChild parent segment worker =>
      obtain ⟨found, -, same⟩ := Option.bind_eq_some_iff.mp run
      cases same
      exact ⟨_, .none rfl fun _ => rfl⟩
  | readDriver node worker =>
      obtain ⟨n, -, same⟩ := Option.bind_eq_some_iff.mp run
      cases same
      exact ⟨_, .none rfl fun _ => rfl⟩
  | snapshot node =>
      obtain ⟨n, -, rest⟩ := Option.bind_eq_some_iff.mp run
      obtain ⟨infos, -, same⟩ := Option.bind_eq_some_iff.mp rest
      cases same
      exact ⟨_, .none rfl fun _ => rfl⟩
  | loadVersion =>
      cases run
      exact ⟨_, .none rfl fun _ => rfl⟩
  | loadOptions =>
      cases run
      exact ⟨_, .none rfl fun _ => rfl⟩
  | loadWatching =>
      cases run
      exact ⟨_, .none rfl fun _ => rfl⟩
  | ensureChildNodeExists parent segment mark =>
      obtain ⟨ensured, adding, same⟩ := Option.bind_eq_some_iff.mp run
      cases same
      obtain ⟨found, search, -⟩ := Option.bind_eq_some_iff.mp adding
      rcases shaped.ensureChild natural (parent_mem shaped search) free segment mark with
        ⟨c, -, -, there⟩ | ⟨t', w', added, grown⟩
      · cases there.symm.trans adding
        exact ⟨_, .none rfl fun _ => rfl⟩
      · cases added.symm.trans adding
        exact ⟨_, .none grown.closed (closesOf_grown grown free rfl)⟩
  | listEntry parent entry =>
      obtain ⟨t, adding, same⟩ := Option.bind_eq_some_iff.mp run
      cases same
      obtain ⟨found, search, -⟩ := Option.bind_eq_some_iff.mp adding
      rcases shaped.listEntry natural (parent_mem shaped search) free entry with
        ⟨c, -, n, hn, -, there⟩ | ⟨t', w', added, grown⟩
      · cases there.symm.trans adding
        exact ⟨_, .none rfl (closesOf_set hn rfl rfl)⟩
      · cases added.symm.trans adding
        exact ⟨_, .none grown.closed (closesOf_grown grown free rfl)⟩
  | markDirectory node =>
      obtain ⟨t, marked, same⟩ := Option.bind_eq_some_iff.mp run
      cases same
      obtain ⟨n, hn, rfl⟩ := Option.map_eq_some_iff.mp marked
      exact ⟨_, .none rfl (closesOf_set hn rfl rfl)⟩
  | installArchive node entry handles memoryData memorySize =>
      obtain ⟨t, swapped, same⟩ := Option.bind_eq_some_iff.mp run
      cases same
      obtain ⟨u, closed, -⟩ := Option.bind_eq_some_iff.mp swapped
      obtain ⟨n, hn, -⟩ := Option.bind_eq_some_iff.mp closed
      cases (MountTree.installArchive_some hn).symm.trans swapped
      have here : ∀ h, h ∈ MountTree.closesOf (MountTree.set { m.tree with
            closed := m.tree.closed ++ n.closes } node { n.closedNode with
              pluginEntry := some entry
              handles := handles
              memoryData := memoryData
              memorySize := memorySize
              isDirectory := true }) node ↔
          h ∈ handlesOf entry handles.reduceOption := by
        intro h
        rw [MountTree.closesOf_some (MountTree.set_nodes_self ..), VfsTreeNode.mem_closes]
        simp only [VfsTreeNode.HoldsHandle, Option.some.injEq, exists_eq_left', handlesOf,
          List.mem_map, List.reduceOption_mem_iff]
        constructor
        · rintro ⟨driver, slot⟩
          exact ⟨h.handle, slot, by rw [← driver]⟩
        · rintro ⟨x, slot, rfl⟩
          exact ⟨rfl, slot⟩
      refine ⟨node, ⟨List.nodup_singleton node, ?_, ?_, fun h => (here h).mpr⟩, ?_⟩
      · intro x hx
        have other : x ≠ node := fun e => hx (e ▸ List.mem_singleton_self node)
        rw [MountTree.closesOf, MountTree.closesOf, MountTree.set_nodes_ne other]
      · intro x hx h hh
        cases List.mem_singleton.mp hx
        exact ⟨(here h).mp hh, rfl⟩
      · rw [closedSince, List.drop_left, ← MountTree.closesOf_some hn]
        exact (List.flatMap_singleton ..).symm
  | storeRoot => cases may
  | clearRoot => cases may

/-- A change leaves the tree alone, or it takes out a subtree. -/
theorem change_prunes {change : FileChange} (shaped : Shaped m.tree w)
    (run : processChange paths change m = some m') :
    m'.tree = m.tree ∨ ∃ p n, p ∈ w.nodes ∧ Pruned m.tree m'.tree p n (w.children p) := by
  unfold processChange at run
  dsimp only at run
  split_ifs at run
  · cases run
    exact .inl rfl
  · obtain ⟨removal, removed, same⟩ := Option.bind_eq_some_iff.mp run
    cases same
    rcases shaped.removeByPath paths (vfsTreeWatcherRelativePath change.path m.sourcePath) with
      ⟨-, unchanged⟩ | ⟨p, k, t', -, -, -, hk, gone, pruned, -⟩
    · cases unchanged.symm.trans removed
      exact .inl rfl
    · cases gone.symm.trans removed
      exact .inr ⟨p, k, shaped.live p k hk, pruned⟩
  · cases run
    exact .inl rfl

/-- The nodes that a change frees lose their handles. -/
theorem change_moves {change : FileChange} (shaped : Shaped m.tree w)
    (run : processChange paths change m = some m') :
    MovesHandles m m' (m.tree.freedSince m'.tree) [] m.tree.root := by
  rcases change_prunes shaped run with same | ⟨p, k, hp, pruned⟩
  · rw [same, MountTree.freedSince, List.drop_length]
    exact .none (congrArg _ same) fun n => by rw [same]
  · have freed : m.tree.freedSince m'.tree = (w.children p).postorder ++ [p] := by
      rw [MountTree.freedSince, pruned.freed, List.drop_left]
    have order : ((w.children p).postorder ++ [p]).Perm (p :: (w.children p).nodes) :=
      List.perm_append_singleton .. |>.trans ((Forest.postorder_perm _).cons p)
    have notBelow : p ∉ (w.children p).nodes := Forest.not_mem_children shaped.distinct
    rw [freed]
    refine ⟨⟨?_, ?_, ?_, List.forall_mem_nil _⟩, ?_⟩
    · exact order.nodup_iff.mpr (List.nodup_cons.mpr
        ⟨notBelow, Forest.nodup_children shaped.distinct⟩)
    · intro n hn
      rw [order.mem_iff] at hn
      apply MountTree.closesOf_congr
      rw [MountTree.dataOf, pruned.others n hn, Option.map_map]
      rfl
    · intro n hn h hh
      rw [order.mem_iff] at hn
      rw [closesOf_none (pruned.gone n hn)] at hh
      cases hh
    · rw [closedSince, pruned.closed, List.drop_left]

/-! ## Views of nodes -/

theorem view_closes {t : MountTree} {p : NodePtr} {n : VfsTreeNode} {worker : ℕ}
    {h : OpenHandle} (hn : t.nodes p = some n) (lent : h ∈ (n.view worker).handles) :
    h ∈ t.closesOf p := by
  rw [MountTree.mem_closesOf]
  refine ⟨n, hn, ?_⟩
  unfold DriverView.handles VfsTreeNode.view at lent
  cases plugin : n.pluginEntry with
  | none =>
      rw [plugin] at lent
      cases lent
  | some e =>
      rw [plugin] at lent
      obtain ⟨x, hx, rfl⟩ := List.mem_map.mp lent
      refine ⟨e, plugin, rfl, ?_⟩
      have slot : (n.handles[worker]?).join = some x := Option.mem_toList.mp hx
      exact List.mem_of_getElem? (Option.join_eq_some_iff.mp slot)

/-- What a section lends comes from a node, and it closes nothing. -/
theorem section_lends {h : OpenHandle} (run : op.run natural fresh m = some (r, m'))
    (lent : h ∈ VfsOp.lends (.mount op) r) :
    (∃ n, h ∈ m.tree.closesOf n) ∧ closedSince m m' = [] := by
  cases op with
  | rootDriver worker =>
      obtain ⟨n, hn, same⟩ := Option.bind_eq_some_iff.mp run
      cases same
      exact ⟨⟨m.tree.root, view_closes hn lent⟩, closedSince_same rfl⟩
  | readDriver node worker =>
      obtain ⟨n, hn, same⟩ := Option.bind_eq_some_iff.mp run
      cases same
      exact ⟨⟨node, view_closes hn lent⟩, closedSince_same rfl⟩
  | lookChild parent segment worker =>
      obtain ⟨found, looked, same⟩ := Option.bind_eq_some_iff.mp run
      cases same
      obtain ⟨child, search, looked⟩ := Option.bind_eq_some_iff.mp looked
      cases child with
      | none =>
          cases looked
          cases lent
      | some child =>
          obtain ⟨n, hn, same⟩ := Option.bind_eq_some_iff.mp looked
          cases same
          have same : (DriverView.mk n.pluginEntry
              (if n.pluginEntry.isSome then n.handles.slot worker else none)).handles =
              (n.view worker).handles := by
            unfold VfsTreeNode.view
            cases n.pluginEntry <;> rfl
          have inside : h ∈ (n.view worker).handles := by
            rw [← same]
            simpa [VfsOp.lends] using lent
          exact ⟨⟨child, view_closes hn inside⟩, closedSince_same rfl⟩
  | _ => cases lent

end

end FlowiVfs.Tree
