import FlowiVfs.TreeRemoval
import FlowiVfs.Transition

/-!
# Runs of tree operations

The operations that change the tree of a mount, in any order: walks create nodes and load
archives into them, listing callbacks create and update nodes, the watcher removes
subtrees, and cleanup closes what is left. In every state that a run reaches the pool is a
tree, and every handle that was put into a node was either closed, once, or is held by
exactly one node.
-/
namespace FlowiVfs.Tree

open Linked

theorem mem_closeCalls {driver : ℕ} {done : List DriverPtr} {handles : VfsHandles}
    {h : OpenHandle} :
    h ∈ closeCalls driver done handles ↔
      h.driver = driver ∧ h.handle ∉ done ∧ some h.handle ∈ handles := by
  induction handles generalizing done with
  | nil => simp [closeCalls]
  | cons slot rest ih =>
      obtain ⟨d, k⟩ := h
      cases slot with
      | none => simp [closeCalls, ih]
      | some x =>
          by_cases seen : x ∈ done
          · rw [closeCalls, if_pos seen, ih]
            have other : k ∉ done → k ≠ x := fun h e => h (e ▸ seen)
            simp only [List.mem_cons, Option.some.injEq]
            tauto
          · rw [closeCalls, if_neg seen, List.mem_cons, ih, OpenHandle.mk.injEq]
            simp only [List.mem_cons, Option.some.injEq]
            by_cases e : k = x
            · subst e
              simp [seen]
            · simp [e]

theorem closeCalls_nodup (driver : ℕ) (done : List DriverPtr) (handles : VfsHandles) :
    (closeCalls driver done handles).Nodup := by
  induction handles generalizing done with
  | nil => exact List.nodup_nil
  | cons slot rest ih =>
      cases slot with
      | none => exact ih done
      | some x =>
          rw [closeCalls]
          split_ifs
          · exact ih done
          · refine List.nodup_cons.mpr ⟨fun again => ?_, ih _⟩
            exact (mem_closeCalls.mp again).2.1 List.mem_cons_self

theorem closeCalls_empty (driver : ℕ) (done : List DriverPtr) (handles : VfsHandles) :
    closeCalls driver done (handles.map fun _ => none) = [] := by
  induction handles with
  | nil => rfl
  | cons slot rest ih => exact ih

namespace VfsTreeNode

variable (n : VfsTreeNode)

/-- A slot of the node holds the handle. -/
def HoldsHandle (h : OpenHandle) : Prop :=
  ∃ e, n.pluginEntry = some e ∧ h.driver = e.id ∧ some h.handle ∈ n.handles

theorem mem_closes {h : OpenHandle} : h ∈ n.closes ↔ n.HoldsHandle h := by
  unfold closes HoldsHandle
  cases n.pluginEntry with
  | none => simp
  | some e => simp [mem_closeCalls]

theorem closes_nodup : n.closes.Nodup := by
  unfold closes
  cases n.pluginEntry with
  | none => exact List.nodup_nil
  | some e => exact closeCalls_nodup ..

@[simp] theorem closes_closedNode : n.closedNode.closes = [] := by
  unfold closes closedNode
  cases n.pluginEntry with
  | none => rfl
  | some e => exact closeCalls_empty ..

end VfsTreeNode

namespace MountTree

variable {t t' : MountTree} {p : NodePtr}

theorem closesOf_congr (h : t'.dataOf p = t.dataOf p) : t'.closesOf p = t.closesOf p := by
  have closes : ∀ u : MountTree, u.closesOf p = ((u.dataOf p).map VfsTreeNode.closes).getD [] := by
    intro u
    rw [dataOf, Option.map_map]
    rfl
  rw [closes, closes, h]

theorem mem_closesOf {h : OpenHandle} :
    h ∈ t.closesOf p ↔ ∃ n, t.nodes p = some n ∧ n.HoldsHandle h := by
  unfold closesOf
  cases t.nodes p with
  | none => simp
  | some n => simp [VfsTreeNode.mem_closes]

variable (t) in
/-- The handles that the nodes of a forest hold. -/
def held (w : Forest NodePtr) : List OpenHandle := w.nodes.flatMap t.closesOf

/-- The tree with the handles of a forest closed. -/
def shut (t : MountTree) (f : Forest NodePtr) : MountTree :=
  { t with
    nodes := fun x => if x ∈ f.nodes then (t.nodes x).map VfsTreeNode.closedNode else t.nodes x
    closed := t.closed ++ f.postorder.flatMap t.closesOf }

theorem shut_links (f : Forest NodePtr) : (t.shut f).links = t.links := by
  funext x
  simp only [links, shut]
  split_ifs
  · rw [Option.map_map]
    rfl
  · rfl

theorem shut_names (f : Forest NodePtr) : (t.shut f).nameOf = t.nameOf := by
  funext x
  simp only [nameOf, shut]
  split_ifs
  · rw [Option.map_map]
    rfl
  · rfl

theorem shut_cons {kids rest : Forest NodePtr} {n : VfsTreeNode}
    (hn : (t.shut kids).nodes p = some n) (hp : t.nodes p = some n)
    (distinct : (Forest.cons p kids rest).nodes.Nodup) :
    { (t.shut kids).set p n.closedNode with
      closed := (t.shut kids).closed ++ n.closes }.shut rest =
    t.shut (.cons p kids rest) := by
  obtain ⟨hpk, hpr, -, -, apart⟩ := Forest.nodup_cons distinct
  have nodesOf : ∀ x, x ≠ p → x ∉ kids.nodes →
      ((t.shut kids).set p n.closedNode).nodes x = t.nodes x := by
    intro x hx out
    rw [set_nodes_ne hx]
    simp only [shut, if_neg out]
  refine MountTree.ext (funext fun x => ?_) rfl rfl ?_ rfl
  · by_cases e : x = p
    · subst e
      simp only [shut, set, if_neg hpr, Function.update_self, Forest.nodes, List.mem_cons,
        true_or, if_true, hp, Option.map_some]
    · by_cases inRest : x ∈ rest.nodes
      · have all : x ∈ (Forest.cons p kids rest).nodes :=
          List.mem_cons_of_mem _ (List.mem_append_right _ inRest)
        have same := nodesOf x e fun h => apart h inRest
        simp only [shut, if_pos inRest, if_pos all] at same ⊢
        rw [← same]
      · have same : x ∈ (Forest.cons p kids rest).nodes ↔ x ∈ kids.nodes := by
          simp [Forest.nodes, e, inRest]
        simp only [shut, if_neg inRest, same]
        exact set_nodes_ne e
  · have rests : rest.postorder.flatMap
        ({ (t.shut kids).set p n.closedNode with
          closed := (t.shut kids).closed ++ n.closes } : MountTree).closesOf =
        rest.postorder.flatMap t.closesOf := by
      refine List.flatMap_congr fun x hx => ?_
      have inRest := rest.postorder_perm.mem_iff.mp hx
      have same := nodesOf x (fun e => hpr (e ▸ inRest)) fun h => apart h inRest
      show ((((t.shut kids).set p n.closedNode).nodes x).map VfsTreeNode.closes).getD [] = _
      rw [same]
      rfl
    show t.closed ++ _ ++ _ ++ _ = t.closed ++ (Forest.cons p kids rest).postorder.flatMap _
    rw [rests]
    simp only [Forest.postorder, List.flatMap_append, List.flatMap_cons, closesOf_some hp,
      List.append_assoc]

end MountTree

namespace MountTree
variable {t : MountTree}

/-- `vfs_tree_cleanup_node` on the children of a node. -/
theorem cleanupChildren_eq {f : Forest NodePtr} {parent : Option NodePtr} {left : ℕ}
    (held : f.Holds t.links parent) (distinct : f.nodes.Nodup)
    (enough : 2 * f.nodes.length ≤ left) :
    cleanupChildren left f.start t = some (t.shut f) := by
  induction f generalizing t parent left with
  | nil =>
      have same : t.shut .nil = t :=
        MountTree.ext (funext fun x => by simp [shut, Forest.nodes]) rfl rfl
          (List.append_nil _) rfl
      rw [same]
      cases left <;> rfl
  | cons p kids rest ihk ihr =>
      obtain ⟨hp, hk, hr⟩ := held
      obtain ⟨hpk, -, dk, dr, -⟩ := Forest.nodup_cons distinct
      simp only [Forest.nodes, List.length_cons, List.length_append] at enough
      obtain ⟨left, rfl⟩ : ∃ k, left = k + 2 := ⟨left - 2, by omega⟩
      obtain ⟨n, hn, linked⟩ := Option.map_eq_some_iff.mp hp
      have down : n.firstChild = kids.start := congrArg Links.firstChild linked
      have next : n.nextSibling = rest.start := congrArg Links.nextSibling linked
      have below := ihk hk dk (show 2 * kids.nodes.length ≤ left by omega)
      have here : (t.shut kids).nodes p = some n := by
        simp only [shut, if_neg hpk, hn]
      rw [← shut_cons here hn distinct]
      generalize hu : ({ (t.shut kids).set p n.closedNode with
        closed := (t.shut kids).closed ++ n.closes } : MountTree) = u
      have closed : (t.shut kids).closeNodeResources p = some u :=
        (closeNodeResources_some here).trans (congrArg some hu)
      have links : u.links = t.links := by
        rw [← shut_links (t := t) kids, ← hu]
        funext x
        by_cases e : x = p
        · subst e
          exact (links_some set_nodes_self).trans (links_some here).symm
        · exact links_set_ne e
      have others := ihr (t := u) (links ▸ hr) dr
        (show 2 * rest.nodes.length ≤ left + 1 by omega)
      rw [Forest.start_cons, cleanupChildren, hn, Option.bind_eq_bind, Option.bind_some,
        vfsTreeCleanupNode, hn]
      simp only [Option.bind_eq_bind, Option.bind_some, down, next, below, closed, others]

end MountTree
theorem MountTree.installArchive_some {t : MountTree} {p : NodePtr} {n : VfsTreeNode}
    {entry : PluginEntry} {handles : VfsHandles} {memoryData : Option BufferPtr} {memorySize : ℤ}
    (h : t.nodes p = some n) :
    t.installArchive p entry handles memoryData memorySize =
      some { t.set p { n.closedNode with
                        pluginEntry := some entry
                        handles := handles
                        memoryData := memoryData
                        memorySize := memorySize
                        isDirectory := true } with
             closed := t.closed ++ n.closes } := by
  rw [MountTree.installArchive, MountTree.closeNodeResources_some h, Option.bind_eq_bind,
    Option.bind_some]
  simp only [MountTree.update, MountTree.set, Function.update_self, Option.map_some,
    Function.update_idem]

/-- An operation on the tree of a mount. A node that it may create goes to the slot
`fresh`. -/
inductive TreeOp
  | ensureChild (parent : NodePtr) (segment : FlString) (markAsDirectory : Bool)
      (fresh : NodePtr)
  | listEntry (parent : NodePtr) (entry : Entry) (fresh : NodePtr)
  | markDirectory (node : NodePtr)
  | loadArchive (node : NodePtr) (entry : PluginEntry) (handles : VfsHandles)
      (memoryData : Option BufferPtr) (memorySize : ℤ)
  | removeByPath (path : FlString)
  | cleanup

/-- The tree of a mount, and the handles that were put into its nodes so far. -/
structure MountState where
  tree : MountTree
  opened : List OpenHandle

namespace MountState

/-- More opened than closed. -/
def IsOpen (s : MountState) (h : OpenHandle) : Prop :=
  s.tree.closed.count h < s.opened.count h

def rootNode (name : FlString) (entry : Option PluginEntry) (handles : VfsHandles) :
    VfsTreeNode :=
  { name := name, pluginEntry := entry, handles := handles, isDirectory := true }

/-- A resolved mount: its root holds what `vfs_op_mount` stored. -/
def mounted (root : NodePtr) (name : FlString) (entry : Option PluginEntry)
    (handles : VfsHandles) : MountState where
  tree :=
    { nodes := Function.update (fun _ => none) root (some (rootNode name entry handles))
      count := 1
      root := root }
  opened := (rootNode name entry handles).closes

end MountState

namespace TreeOp

def run (natural : NaturalCompare) (paths : PathLibrary) : TreeOp → MountTree → Option MountTree
  | ensureChild parent segment mark fresh, t =>
      (t.ensureChildNodeExists natural parent segment mark fresh).map Prod.snd
  | listEntry parent entry fresh, t => t.listEntry natural parent entry fresh
  | markDirectory node, t => t.update node fun n => { n with isDirectory := true }
  | loadArchive node entry handles memoryData memorySize, t =>
      t.installArchive node entry handles memoryData memorySize
  | removeByPath path, t => (vfsTreeRemoveNodeByPath paths path t).map Prod.snd
  | cleanup, t => vfsTreeCleanupNode (2 * t.count) t.root t

/-- The handles that an operation puts into the tree. -/
def opens : TreeOp → List OpenHandle
  | loadArchive _ entry handles _ _ => closeCalls entry.id [] handles
  | _ => []

/-- What the pool and the drivers promise: a slot that is handed out is free, and a
handle that is handed out is not open. -/
def Fits (s : MountState) : TreeOp → Prop
  | ensureChild _ _ _ fresh => s.tree.nodes fresh = none
  | listEntry _ _ fresh => s.tree.nodes fresh = none
  | loadArchive _ entry handles _ _ => ∀ h ∈ closeCalls entry.id [] handles, ¬ s.IsOpen h
  | _ => True

end TreeOp

section
variable (natural : NaturalCompare) (paths : PathLibrary)

/-- The states that runs of tree operations reach. -/
inductive Reaches : MountState → Prop
  | mounted (root : NodePtr) (name : FlString) (entry : Option PluginEntry)
      (handles : VfsHandles) : Reaches (.mounted root name entry handles)
  | step {s : MountState} {op : TreeOp} {t' : MountTree} (hs : Reaches s) (fits : op.Fits s)
      (run : op.run natural paths s.tree = some t') :
      Reaches { tree := t', opened := s.opened ++ op.opens }

end

/-- The tree has a shape, and its nodes hold the handles that are open, each one once. -/
structure Sound (s : MountState) (w : Forest NodePtr) : Prop where
  shaped : Shaped s.tree w
  accounted : s.opened.Perm (s.tree.closed ++ s.tree.held w)
  once : (s.tree.held w).Nodup

namespace Sound

open MountTree

variable {s : MountState} {w w' : Forest NodePtr} {t' : MountTree}

theorem mounted (root : NodePtr) (name : FlString) (entry : Option PluginEntry)
    (handles : VfsHandles) :
    Sound (.mounted root name entry handles) (.cons root .nil .nil) := by
  have here : (MountState.mounted root name entry handles).tree.nodes root =
      some (MountState.rootNode name entry handles) := by
    simp only [MountState.mounted, Function.update_self]
  have held : (MountState.mounted root name entry handles).tree.held (.cons root .nil .nil) =
      (MountState.mounted root name entry handles).opened := by
    show List.flatMap _ [root] = _
    rw [List.flatMap_singleton, closesOf_some here]
    rfl
  refine ⟨⟨rfl, ⟨links_some here, trivial, trivial⟩, List.nodup_singleton root, fun p n hp => ?_,
    rfl, ⟨List.nodup_nil, trivial, trivial⟩⟩, ?_, ?_⟩
  · by_cases e : p = root
    · exact e ▸ List.mem_cons_self
    · simp only [MountState.mounted, Function.update_of_ne e] at hp
      exact absurd hp (by simp)
  · rw [held]
    exact .refl _
  · rw [held]
    exact VfsTreeNode.closes_nodup _

/-- A write that keeps links, name and handles. -/
theorem set {p : NodePtr} {n m : VfsTreeNode} (h : Sound s w) (hn : s.tree.nodes p = some n)
    (links : m.toLinks = n.toLinks) (name : m.name = n.name) (closes : m.closes = n.closes) :
    Sound { s with tree := s.tree.set p m } w := by
  have same : (s.tree.set p m).closesOf = s.tree.closesOf := by
    funext x
    by_cases e : x = p
    · rw [e, closesOf_some set_nodes_self, closesOf_some hn, closes]
    · simp only [closesOf, set_nodes_ne e]
  have held : (s.tree.set p m).held w = s.tree.held w := by
    rw [MountTree.held, same, MountTree.held]
  exact ⟨h.shaped.set hn links name, held ▸ h.accounted, held ▸ h.once⟩

/-- A node more, which holds nothing. -/
theorem grown {natural : NaturalCompare} {parent fresh : NodePtr} {n : VfsTreeNode}
    (h : Sound s w) (g : Grown natural s.tree t' w w' parent fresh n)
    (hp : parent ∈ w.nodes) (empty : n.closes = [])
    (new : s.tree.nodes fresh = none) : Sound { s with tree := t' } w' := by
  obtain ⟨pass, shape, -⟩ := g.shape
  have nodes := Forest.nodes_modify_insert pass fresh h.shaped.distinct hp
  rw [← shape] at nodes
  have notOld : fresh ∉ w.nodes := fun hm => by
    obtain ⟨k, hk⟩ := h.shaped.node hm
    rw [new] at hk
    exact absurd hk (by simp)
  have atFresh : t'.closesOf fresh = [] := by
    obtain ⟨k, hk, data⟩ := Option.map_eq_some_iff.mp g.here
    rw [closesOf_some hk]
    show k.data.closes = []
    rw [data, empty]
  have held : (t'.held w').Perm (s.tree.held w) := by
    refine (nodes.flatMap_right _).trans ?_
    rw [List.flatMap_cons, atFresh, List.nil_append]
    refine .of_eq (List.flatMap_congr fun x hx => ?_)
    exact closesOf_congr (g.others x fun e => notOld (e ▸ hx))
  refine ⟨g.shaped, ?_, held.nodup_iff.mpr h.once⟩
  show s.opened.Perm (t'.closed ++ t'.held w')
  rw [g.closed]
  exact h.accounted.trans (held.symm.append_left _)

/-- A node whose handles are closed and replaced by others that are not open. -/
theorem loaded {p : NodePtr} {n m : VfsTreeNode} (h : Sound s w)
    (hn : s.tree.nodes p = some n) (links : m.toLinks = n.toLinks) (name : m.name = n.name)
    (fresh : ∀ x ∈ m.closes, ¬ s.IsOpen x) :
    Sound
      { tree := { s.tree.set p m with closed := s.tree.closed ++ n.closes }
        opened := s.opened ++ m.closes } w := by
  have hp := h.shaped.live p n hn
  obtain ⟨before, after, split⟩ := List.append_of_mem hp
  have front : w.nodes.Perm (p :: (before ++ after)) := by
    rw [split]
    exact List.perm_middle
  have notRest : p ∉ before ++ after := (List.nodup_cons.mp (front.nodup_iff.mp
    h.shaped.distinct)).1
  let t' : MountTree := { s.tree.set p m with closed := s.tree.closed ++ n.closes }
  have here : t'.nodes p = some m := set_nodes_self
  have same : ∀ x ∈ before ++ after, t'.closesOf x = s.tree.closesOf x := by
    intro x hx
    have e : x ≠ p := fun e => notRest (e ▸ hx)
    show (((s.tree.set p m).nodes x).map _).getD [] = _
    rw [set_nodes_ne e]
    rfl
  let rest := (before ++ after).flatMap s.tree.closesOf
  have old : (s.tree.held w).Perm (n.closes ++ rest) := by
    refine (front.flatMap_right _).trans (.of_eq ?_)
    rw [List.flatMap_cons, closesOf_some hn]
  have new : (t'.held w).Perm (m.closes ++ rest) := by
    refine (front.flatMap_right _).trans (.of_eq ?_)
    rw [List.flatMap_cons, closesOf_some here, List.flatMap_congr same]
  refine ⟨(h.shaped.set hn links name).of_nodes rfl rfl rfl, ?_, ?_⟩
  · show (s.opened ++ m.closes).Perm (s.tree.closed ++ n.closes ++ t'.held w)
    refine List.perm_iff_count.mpr fun x => ?_
    have all := List.perm_iff_count.mp h.accounted x
    have was := List.perm_iff_count.mp old x
    have now := List.perm_iff_count.mp new x
    simp only [List.count_append] at all was now ⊢
    omega
  · have restNodup := (List.nodup_append'.mp (old.nodup_iff.mp h.once)).2.1
    refine new.nodup_iff.mpr (List.nodup_append'.mpr ⟨m.closes_nodup, restNodup, ?_⟩)
    intro x hm hx
    refine fresh x hm ?_
    have all := List.perm_iff_count.mp h.accounted x
    have was := List.perm_iff_count.mp old x
    have some := List.count_pos_iff.mpr hx
    simp only [List.count_append] at all was
    unfold MountState.IsOpen
    omega

/-- A subtree less: its handles are closed. -/
theorem pruned {p : NodePtr} {n : VfsTreeNode} (h : Sound s w) (hn : s.tree.nodes p = some n)
    (done : Pruned s.tree t' p n (w.children p)) (shaped : Shaped t' (w.remove p)) :
    Sound { s with tree := t' } (w.remove p) := by
  have hp := h.shaped.live p n hn
  have nodes := Forest.nodes_remove h.shaped.distinct hp
  rw [← List.cons_append] at nodes
  obtain ⟨-, -, apart⟩ := List.nodup_append'.mp (nodes.nodup_iff.mp h.shaped.distinct)
  have kept : t'.held (w.remove p) = s.tree.held (w.remove p) := by
    refine List.flatMap_congr fun x hx => closesOf_congr ?_
    rw [dataOf, done.others x fun inside => apart inside hx, Option.map_map]
    rfl
  have order : ((w.children p).postorder ++ [p]).Perm (p :: (w.children p).nodes) :=
    List.perm_append_singleton .. |>.trans ((Forest.postorder_perm _).cons p)
  have parts : (s.tree.held w).Perm
      (((w.children p).postorder ++ [p]).flatMap s.tree.closesOf ++ s.tree.held (w.remove p)) := by
    refine (nodes.flatMap_right _).trans ?_
    rw [List.flatMap_append]
    exact (order.flatMap_right _).symm.append_right _
  refine ⟨shaped, ?_, ?_⟩
  · show s.opened.Perm (t'.closed ++ t'.held (w.remove p))
    rw [done.closed, kept, List.append_assoc]
    exact h.accounted.trans (parts.append_left _)
  · show (t'.held (w.remove p)).Nodup
    rw [kept]
    exact (List.nodup_append'.mp (parts.nodup_iff.mp h.once)).2.1

/-- The whole tree closed. -/
theorem shut (h : Sound s w) : Sound { s with tree := s.tree.shut w } w := by
  have empty : (s.tree.shut w).held w = [] := by
    refine List.flatMap_eq_nil_iff.mpr fun x hx => ?_
    obtain ⟨n, hn⟩ := h.shaped.node hx
    have here : (s.tree.shut w).nodes x = some n.closedNode := by
      simp only [MountTree.shut, if_pos hx, hn, Option.map_some]
    rw [closesOf_some here, VfsTreeNode.closes_closedNode]
  refine ⟨⟨h.shaped.rooted, ?_, h.shaped.distinct, fun p n hp => ?_, h.shaped.count, ?_⟩, ?_, ?_⟩
  · show w.Holds (s.tree.shut w).links none
    rw [shut_links]
    exact h.shaped.held
  · by_contra out
    simp only [MountTree.shut, if_neg out] at hp
    exact out (h.shaped.live p n hp)
  · show w.Siblings fun L => (L.map (s.tree.shut w).nameOf).Nodup
    rw [shut_names]
    exact h.shaped.names
  · show s.opened.Perm ((s.tree.closed ++ w.postorder.flatMap s.tree.closesOf) ++
      (s.tree.shut w).held w)
    rw [empty, List.append_nil]
    exact h.accounted.trans (((Forest.postorder_perm w).flatMap_right _).symm.append_left _)
  · show ((s.tree.shut w).held w).Nodup
    rw [empty]
    exact List.nodup_nil

theorem cleanup (h : Shaped s.tree w) :
    vfsTreeCleanupNode (2 * s.tree.count) s.tree.root s.tree = some (s.tree.shut w) := by
  have start : w.start = some s.tree.root := by
    rw [Forest.start_eq_head?, h.rooted]
    rfl
  obtain ⟨n, hn⟩ := h.node h.root_mem
  obtain ⟨l, hl, next⟩ := h.held.after_next (h.rooted ▸ List.mem_cons_self)
  have last : n.nextSibling = none := by
    rw [links_some hn] at hl
    cases hl
    rw [next]
    cases hw : w with
    | nil =>
        rw [hw] at start
        exact absurd start (by simp [Forest.start])
    | cons p kids rest =>
        have rooted := h.rooted
        rw [hw] at rooted
        obtain ⟨rfl, alone⟩ := List.cons.inj rooted
        cases rest with
        | nil => simp [Forest.after, Forest.start]
        | cons q _ _ => exact absurd alone (by simp [Forest.level])
  have enough : 2 * w.nodes.length ≤ 2 * s.tree.count + 1 := by
    have := h.count
    omega
  have whole := cleanupChildren_eq h.held h.distinct enough
  rw [start, cleanupChildren, hn, Option.bind_eq_bind, Option.bind_some] at whole
  obtain ⟨t', closed, rest⟩ := Option.bind_eq_some_iff.mp whole
  rw [last] at rest
  simp only [cleanupChildren] at rest
  exact closed.trans rest

/-- Each operation keeps the tree sound. -/
theorem step {natural : NaturalCompare} {paths : PathLibrary} {op : TreeOp} (h : Sound s w)
    (fits : op.Fits s) (run : op.run natural paths s.tree = some t') :
    ∃ w', Sound { tree := t', opened := s.opened ++ op.opens } w' := by
  have plain : op.opens = [] → ∀ {w'}, Sound { s with tree := t' } w' →
      ∃ w', Sound { tree := t', opened := s.opened ++ op.opens } w' := by
    intro none w' sound
    rw [none, List.append_nil]
    exact ⟨w', sound⟩
  cases op with
  | ensureChild parent segment mark fresh =>
      obtain ⟨⟨c, u⟩, found, rfl⟩ := Option.map_eq_some_iff.mp run
      have hp : parent ∈ w.nodes := by
        obtain ⟨_, search, -⟩ := Option.bind_eq_some_iff.mp found
        obtain ⟨n, hn, -⟩ := Option.bind_eq_some_iff.mp search
        exact h.shaped.live parent n hn
      rcases h.shaped.ensureChild natural hp fits segment mark with
        ⟨d, -, -, same⟩ | ⟨v, w', added, grown⟩
      · rw [found] at same
        cases same
        exact plain rfl h
      · rw [found] at added
        cases added
        exact plain rfl (h.grown grown hp rfl fits)
  | listEntry parent entry fresh =>
      have hp : parent ∈ w.nodes := by
        obtain ⟨_, search, -⟩ := Option.bind_eq_some_iff.mp run
        obtain ⟨n, hn, -⟩ := Option.bind_eq_some_iff.mp search
        exact h.shaped.live parent n hn
      rcases h.shaped.listEntry natural hp fits entry with
        ⟨c, -, n, hn, -, same⟩ | ⟨v, w', added, grown⟩
      · have updated := Option.some.inj (run.symm.trans same)
        rw [updated] at plain ⊢
        exact plain rfl (h.set hn rfl rfl rfl)
      · have result := Option.some.inj (run.symm.trans added)
        rw [← result] at grown
        exact plain rfl (h.grown grown hp rfl fits)
  | markDirectory node =>
      obtain ⟨n, hn, rfl⟩ := Option.map_eq_some_iff.mp run
      exact plain rfl (h.set hn rfl rfl rfl)
  | loadArchive node entry handles memoryData memorySize =>
      obtain ⟨_, closed, -⟩ := Option.bind_eq_some_iff.mp run
      obtain ⟨n, hn, -⟩ := Option.bind_eq_some_iff.mp closed
      have installed := Option.some.inj (run.symm.trans (installArchive_some hn))
      rw [installed]
      exact ⟨w, h.loaded hn rfl rfl fits⟩
  | removeByPath path =>
      obtain ⟨⟨b, u⟩, removed, rfl⟩ := Option.map_eq_some_iff.mp run
      rcases h.shaped.removeByPath paths path with
        ⟨-, same⟩ | ⟨p, n, v, -, -, -, hn, done, pruned, shaped⟩
      · rw [removed] at same
        cases same
        exact plain rfl h
      · rw [removed] at done
        cases done
        exact plain rfl (h.pruned hn pruned shaped)
  | cleanup =>
      have closed := Option.some.inj (run.symm.trans (cleanup h.shaped))
      rw [closed] at plain ⊢
      exact plain rfl h.shut

end Sound

theorem Reaches.sound {natural : NaturalCompare} {paths : PathLibrary} {s : MountState}
    (hs : Reaches natural paths s) : ∃ w, Sound s w := by
  induction hs with
  | mounted root name entry handles => exact ⟨_, Sound.mounted root name entry handles⟩
  | step _ fits run ih =>
      obtain ⟨w, sound⟩ := ih
      exact sound.step fits run

/-- A tree without the subtree at `p`: its nodes were given back once each, the handles
they held were closed once each, and the links to `p` lead to the sibling behind it. -/
structure Removes (t t' : MountTree) (w : Forest NodePtr) (p : NodePtr) (n : VfsTreeNode) :
    Prop where
  tree : Shaped t' (w.remove p)
  freed : ∃ L, t'.freed = t.freed ++ L ∧ L.Nodup ∧
    ∀ x, x ∈ L ↔ x = p ∨ x ∈ (w.children p).nodes
  gone : ∀ x, x = p ∨ x ∈ (w.children p).nodes → t'.nodes x = none
  closed : ∃ L, t'.closed = t.closed ++ L ∧ L.Nodup ∧
    ∀ h, h ∈ L ↔ ∃ x m, (x = p ∨ x ∈ (w.children p).nodes) ∧ t.nodes x = some m ∧
      m.HoldsHandle h
  others : ∀ x, ¬ (x = p ∨ x ∈ (w.children p).nodes) →
    t'.nodes x = (t.nodes x).map (VfsTreeNode.relinked p n.nextSibling)

theorem Sound.removes {s : MountState} {w : Forest NodePtr} {p : NodePtr} {n : VfsTreeNode}
    {t' : MountTree} (h : Sound s w) (hn : s.tree.nodes p = some n)
    (pruned : Pruned s.tree t' p n (w.children p)) (shaped : Shaped t' (w.remove p)) :
    Removes s.tree t' w p n := by
  have hp := h.shaped.live p n hn
  have nodes := Forest.nodes_remove h.shaped.distinct hp
  rw [← List.cons_append] at nodes
  have order : ((w.children p).postorder ++ [p]).Perm (p :: (w.children p).nodes) :=
    List.perm_append_singleton .. |>.trans ((Forest.postorder_perm _).cons p)
  have members : ∀ x, x ∈ (w.children p).postorder ++ [p] ↔
      x = p ∨ x ∈ (w.children p).nodes := fun x => by
    rw [order.mem_iff, List.mem_cons]
  refine ⟨shaped, ⟨_, pruned.freed, ?_, members⟩, fun x hx => ?_, ⟨_, pruned.closed, ?_, ?_⟩,
    fun x hx => ?_⟩
  · exact order.nodup_iff.mpr (List.nodup_append'.mp (nodes.nodup_iff.mp h.shaped.distinct)).1
  · exact pruned.gone x (List.mem_cons.mpr hx)
  · have held := (nodes.flatMap_right s.tree.closesOf).nodup_iff.mp h.once
    rw [List.flatMap_append] at held
    exact (order.flatMap_right _).nodup_iff.mpr (List.nodup_append'.mp held).1
  · intro c
    rw [List.mem_flatMap]
    constructor
    · rintro ⟨x, hx, hc⟩
      obtain ⟨m, hm, holds⟩ := MountTree.mem_closesOf.mp hc
      exact ⟨x, m, (members x).mp hx, hm, holds⟩
    · rintro ⟨x, m, hx, hm, holds⟩
      exact ⟨x, (members x).mpr hx, MountTree.mem_closesOf.mpr ⟨m, hm, holds⟩⟩
  · exact pruned.others x fun inside => hx (List.mem_cons.mp inside)

/-- In every run of tree operations the nodes of the pool form one tree below the root,
with different names among siblings, and removing by path takes out exactly the subtree
that the path resolves to. -/
theorem tree_operations_sound {natural : NaturalCompare} {paths : PathLibrary} {s : MountState}
    (hs : Reaches natural paths s) :
    ∃ w, Shaped s.tree w ∧ ∀ path,
      ((path = [] ∨ s.tree.findPath s.tree.root (paths.components path) = some none ∨
          s.tree.findPath s.tree.root (paths.components path) = some (some s.tree.root)) ∧
        vfsTreeRemoveNodeByPath paths path s.tree = some (false, s.tree)) ∨
      ∃ p n t', path ≠ [] ∧
        s.tree.findPath s.tree.root (paths.components path) = some (some p) ∧
        p ≠ s.tree.root ∧ s.tree.nodes p = some n ∧
        vfsTreeRemoveNodeByPath paths path s.tree = some (true, t') ∧
        Removes s.tree t' w p n := by
  obtain ⟨w, sound⟩ := hs.sound
  refine ⟨w, sound.shaped, fun path => ?_⟩
  rcases sound.shaped.removeByPath paths path with
    refused | ⟨p, n, t', notEmpty, found, notRoot, hn, removed, pruned, shaped⟩
  · exact .inl refused
  · exact .inr ⟨p, n, t', notEmpty, found, notRoot, hn, removed,
      sound.removes hn pruned shaped⟩

/-! ## A run -/

instance (s : MountState) (op : TreeOp) : Decidable (op.Fits s) :=
  match op with
  | .ensureChild .. | .listEntry .. => inferInstanceAs (Decidable (_ = none))
  | .loadArchive _ entry handles _ _ =>
      inferInstanceAs (Decidable (∀ h ∈ closeCalls entry.id [] handles,
        ¬ s.tree.closed.count h < s.opened.count h))
  | .markDirectory _ | .removeByPath _ | .cleanup => .isTrue trivial

/-- An operation, with the handles that it puts into the tree. -/
def treeStep (natural : NaturalCompare) (paths : PathLibrary) (s : MountState) (op : TreeOp) :
    Option MountState :=
  (op.run natural paths s.tree).map fun t => { tree := t, opened := s.opened ++ op.opens }

theorem Reaches.steps {natural : NaturalCompare} {paths : PathLibrary} {s s' : MountState}
    (hs : Reaches natural paths s)
    (run : Transition.Reaches (treeStep natural paths) (fun s op => op.Fits s) s s') :
    Reaches natural paths s' := by
  apply run.invariant hs
  intro t op u ht fits taken
  obtain ⟨t', run, rfl⟩ := Option.map_eq_some_iff.mp taken
  exact .step ht fits run

/-- A directory `a` with an archive `c` that has a directory `e`, and a directory `b`. -/
def nestedArchive : List TreeOp :=
  [.ensureChild 0 ['a'] true 1, .ensureChild 0 ['b'] true 2,
    .listEntry 1 { name := ['c'], size := 5, isDirectory := false } 3,
    .loadArchive 3 ⟨1, { name := ['z'] }⟩ [some 7, some 8, some 7] none 0,
    .ensureChild 3 ['e'] true 4]

/-- The directory is removed with the archive, whose two handles fill three slots. -/
theorem tree_operations_sound_archive :
    ∃ (s : MountState) (w : Forest NodePtr) (t' : MountTree) (n : VfsTreeNode),
      s.tree.count = 5 ∧ Shaped s.tree w ∧
      vfsTreeRemoveNodeByPath letters ['a'] s.tree = some (true, t') ∧
      Removes s.tree t' w 1 n ∧ t'.freed = [4, 3, 1] ∧ t'.closed = [⟨1, 7⟩, ⟨1, 8⟩] ∧
      (t'.nodes 2).isSome := by
  have ends : (Transition.replay (treeStep (fun _ _ => 0) letters) (fun s op => op.Fits s)
      nestedArchive (.mounted 0 [] none [])).map (fun s =>
        (decide (s.tree.count = 5 ∧
          s.tree.findPath s.tree.root (letters.components ['a']) = some (some 1)),
        (vfsTreeRemoveNodeByPath letters ['a'] s.tree).map fun r =>
          (r.1, decide (r.2.freed = [4, 3, 1] ∧ r.2.closed = [⟨1, 7⟩, ⟨1, 8⟩] ∧
            (r.2.nodes 2).isSome)))) = some (true, some (true, true)) := by
    decide +kernel
  obtain ⟨s, replayed, ends⟩ := Option.map_eq_some_iff.mp ends
  simp only [Prod.mk.injEq, decide_eq_true_eq] at ends
  obtain ⟨⟨count, leads⟩, ends⟩ := ends
  obtain ⟨⟨done, t⟩, removed, ends⟩ := Option.map_eq_some_iff.mp ends
  simp only [Prod.mk.injEq, decide_eq_true_eq] at ends
  obtain ⟨rfl, freed, closed, kept⟩ := ends
  have reached := (Reaches.mounted 0 [] none []).steps (Transition.replay_reaches _ replayed)
  obtain ⟨w, shaped, removal⟩ := tree_operations_sound reached
  rcases removal ['a'] with ⟨-, same⟩ | ⟨p, n, t', -, found, -, -, again, removes⟩
  · cases removed.symm.trans same
  · cases leads.symm.trans found
    cases removed.symm.trans again
    exact ⟨s, w, t, n, count, shaped, removed, removes, freed, closed, kept⟩

end FlowiVfs.Tree
