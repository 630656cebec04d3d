import FlowiVfs.MountOps
import FlowiVfs.OrderedList
import FlowiVfs.TreeRuns
import FlowiVfs.WalkFootprint
import FlowiVfs.Watcher

/-!
# The order of children

Children are sorted when they are inserted: directories before files, and each group by
name. A walk that loads an archive into a node, or that takes a missing segment for a
directory, makes a node a directory that is in its list already. `KeepsOrder` says when
the node may stay where it is. Operations and watcher changes are interleaved as they
like; as long as no other node is made a directory, every list of children is sorted
after every step, and so is what an unfiltered listing returns.
-/
namespace FlowiVfs.Tree

open Program Linked

/-- A comparison function of a total preorder. -/
structure TotalPreorder (natural : NaturalCompare) : Prop where
  swap : ∀ a b, natural a b ≤ 0 ↔ 0 ≤ natural b a
  trans : ∀ a b c, natural a b ≤ 0 → natural b c ≤ 0 → natural a c ≤ 0

/-- What children are sorted by: whether it is a directory, and the name. -/
abbrev SortKey := Bool × FlString

def Entry.key (e : Entry) : SortKey := (e.isDirectory, e.name)

def VfsTreeNode.key (n : VfsTreeNode) : SortKey := (n.isDirectory, n.name)

/-- Directories before files, and each group by name. -/
def SortsBefore (natural : NaturalCompare) (a b : SortKey) : Prop :=
  a.1 = true ∧ b.1 = false ∨ a.1 = b.1 ∧ natural a.2 b.2 ≤ 0

section
variable {natural : NaturalCompare}

theorem SortsBefore.trans (order : TotalPreorder natural) (a b c : SortKey)
    (h : SortsBefore natural a b) (h' : SortsBefore natural b c) : SortsBefore natural a c := by
  unfold SortsBefore at *
  rcases h with ⟨ha, hb⟩ | ⟨same, before⟩
  · rcases h' with ⟨hb', -⟩ | ⟨same', -⟩
    · rw [hb] at hb'
      cases hb'
    · exact .inl ⟨ha, same' ▸ hb⟩
  · rcases h' with ⟨hb', hc⟩ | ⟨same', before'⟩
    · exact .inl ⟨same ▸ hb', hc⟩
    · exact .inr ⟨same.trans same', order.trans _ _ _ before before'⟩

/-- A file that becomes a directory goes before what it went before. -/
theorem SortsBefore.raise {b : Bool} {name : FlString} {k : SortKey}
    (h : SortsBefore natural (b, name) k) : SortsBefore natural (true, name) k := by
  obtain ⟨kind, other⟩ := k
  unfold SortsBefore at *
  cases b <;> cases kind <;> simp_all

theorem compare_le_zero {n m : VfsTreeNode} :
    vfsTreeCompareNodes natural n m ≤ 0 ↔ SortsBefore natural n.key m.key := by
  unfold vfsTreeCompareNodes SortsBefore VfsTreeNode.key
  cases n.isDirectory <;> cases m.isDirectory <;> simp

theorem compare_pos (order : TotalPreorder natural) {n m : VfsTreeNode}
    (h : 0 < vfsTreeCompareNodes natural n m) : SortsBefore natural m.key n.key := by
  have swapped := (order.swap m.name n.name).mpr
  unfold vfsTreeCompareNodes at h
  unfold SortsBefore VfsTreeNode.key
  cases hn : n.isDirectory <;> cases hm : m.isDirectory <;> simp [hn, hm] at h ⊢
  · exact swapped (le_of_lt h)
  · exact swapped (le_of_lt h)

end

namespace MountTree

variable (t : MountTree)

def keyOf (p : NodePtr) : SortKey := ((t.nodes p).map VfsTreeNode.key).getD (false, [])

variable {t} {t' : MountTree} {p : NodePtr} {n : VfsTreeNode}

theorem keyOf_some (h : t.nodes p = some n) : t.keyOf p = n.key := by
  simp only [keyOf, h, Option.map_some, Option.getD_some]

theorem keyOf_congr (h : t'.dataOf p = t.dataOf p) : t'.keyOf p = t.keyOf p := by
  have keys : ∀ u : MountTree, u.keyOf p = ((u.dataOf p).map VfsTreeNode.key).getD (false, []) := by
    intro u
    rw [dataOf, Option.map_map]
    rfl
  rw [keys, keys, h]

/-- What the loop over the children copies. -/
theorem childInfos_level {f : Forest NodePtr} {parent : Option NodePtr} {left : ℕ}
    (h : f.Holds t.links parent) (enough : f.level.length ≤ left) :
    ∃ infos, t.childInfos left f.start = some infos ∧
      infos.map some = f.level.map fun c => (t.nodes c).map VfsTreeNode.info := by
  induction f generalizing left with
  | nil => exact ⟨[], by cases left <;> rfl, rfl⟩
  | cons p kids rest _ ih =>
      obtain ⟨left, rfl⟩ : ∃ m, left = m + 1 := by
        cases left with
        | zero => exact absurd enough (by simp [Forest.level])
        | succ m => exact ⟨m, rfl⟩
      obtain ⟨n, hn, linked⟩ := Option.map_eq_some_iff.mp h.1
      have next : n.nextSibling = rest.start := congrArg Links.nextSibling linked
      have shorter : rest.level.length ≤ left := by
        simp only [Forest.level, List.length_cons] at enough
        omega
      obtain ⟨infos, copied, level⟩ := ih h.2.2 shorter
      refine ⟨n.info :: infos, ?_, ?_⟩
      · simp only [Forest.start_cons, childInfos, hn, Option.bind_eq_bind, Option.bind_some, next,
          copied]
      · rw [List.map_cons, level, Forest.level, List.map_cons, hn]
        rfl

/-- What is copied has the keys of the nodes. -/
theorem childInfos_keys {level : List NodePtr} {infos : List Entry}
    (copied : infos.map some = level.map fun c => (t.nodes c).map VfsTreeNode.info) :
    infos.map Entry.key = level.map t.keyOf := by
  have keys := congrArg (List.map fun o => (o.map Entry.key).getD (false, [])) copied
  rw [List.map_map, List.map_map] at keys
  rw [show infos.map Entry.key =
    infos.map ((fun o => (o.map Entry.key).getD (false, [])) ∘ some) from rfl, keys]
  apply List.map_congr_left
  intro c _
  cases hn : t.nodes c <;> simp [keyOf, hn, VfsTreeNode.info, VfsTreeNode.key, Entry.key]

end MountTree

/-- The children of every node are sorted. -/
def Sorted (natural : NaturalCompare) (t : MountTree) : Prop :=
  ∀ p n, t.nodes p = some n → ∃ infos, t.childInfos t.count n.firstChild = some infos ∧
    (infos.map Entry.key).Pairwise (SortsBefore natural)

/-- A node may become a directory where it is: it is one, or it is the first child, or the
sibling in front of it is a directory that does not sort behind it. -/
def KeepsOrder (natural : NaturalCompare) (t : MountTree) (p : NodePtr) : Prop :=
  ∀ n q k, t.nodes p = some n → n.isDirectory = false → t.nodes q = some k →
    k.nextSibling = some p → k.isDirectory = true ∧ natural k.name n.name ≤ 0

/-! ## Steps -/

/-- The node that a section makes a directory. -/
def MountSection.marks : MountSection → Option NodePtr
  | installArchive node _ _ _ _ => some node
  | markDirectory node => some node
  | _ => none

section
variable (natural : NaturalCompare) (paths : PathLibrary) (φ : MountTree → NodePtr → Prop)

/-- A section that makes no node a directory but those that `φ` allows. -/
def Sections : Environment vfs FlVfsMount := fun m op r m' =>
  match op, r with
  | .mount op, r =>
      (∃ fresh, m.tree.nodes fresh = none ∧ op.run natural fresh m = some (r, m')) ∧
        ∀ p ∈ op.marks, φ m.tree p
  | _, _ => m' = m

/-- A step of anything on the mount: a section of an operation, a change that the watcher
has reported, or a version bump. -/
inductive MountStep (m m' : FlVfsMount) : Prop
  | operation (op : MountSection) (r : op.Reply) (answer : Sections natural φ m (.mount op) r m')
  | change (change : FileChange) (run : processChange paths change m = some m')
  | bump (bumped : m' = bumpVersion m)

/-- An operation whose steps are interleaved with those of others. -/
def Interleaved : Environment vfs FlVfsMount :=
  .between (Relation.ReflTransGen (MountStep natural paths φ)) (Sections natural φ)

end

section
variable {natural : NaturalCompare} {paths : PathLibrary} {φ : MountTree → NodePtr → Prop}
variable {m m' : FlVfsMount}

theorem interleaved_steps {op : VfsOp} {r : op.Reply}
    (answer : Interleaved natural paths φ m op r m') :
    Relation.ReflTransGen (MountStep natural paths φ) m m' := by
  obtain ⟨u, steps, answer⟩ := answer
  cases op with
  | mount op => exact steps.tail (.operation op r answer)
  | _ =>
      cases answer
      exact steps

/-- An operation takes steps. -/
theorem run_steps {A : Type} {p : VfsProgram A} {a : A}
    (run : Run (Interleaved natural paths φ) p m a m') :
    Relation.ReflTransGen (MountStep natural paths φ) m m' := by
  apply run.relates
  · exact fun u => .refl
  · exact fun u v w first rest => first.trans rest
  · exact fun u op r v answer => interleaved_steps answer

end

/-! ## Every step keeps the order -/

/-- A tree whose lists of children are in order. -/
structure Ordered (natural : NaturalCompare) (t : MountTree) (w : Forest NodePtr) : Prop where
  shaped : Shaped t w
  sorted : w.Siblings fun L => (L.map t.keyOf).Pairwise (SortsBefore natural)

namespace Ordered

variable {natural : NaturalCompare} {paths : PathLibrary} {t t' : MountTree}
variable {w w' : Forest NodePtr} {p parent fresh : NodePtr} {n k : VfsTreeNode}

theorem mounted (root : NodePtr) (name : FlString) (entry : Option PluginEntry)
    (handles : VfsHandles) :
    Ordered natural (MountState.mounted root name entry handles).tree (.cons root .nil .nil) :=
  ⟨(Sound.mounted root name entry handles).shaped, .nil, trivial, trivial⟩

theorem infos (h : Ordered natural t w) (hn : t.nodes p = some n) :
    ∃ infos, t.childInfos t.count n.firstChild = some infos ∧
      (infos.map Entry.key).Pairwise (SortsBefore natural) := by
  have hp := h.shaped.live p n hn
  obtain ⟨infos, copied, level⟩ :=
    MountTree.childInfos_level (h.shaped.held.children hp) (h.shaped.short p)
  refine ⟨infos, ?_, ?_⟩
  · rw [h.shaped.firstChild hn]
    exact copied
  · rw [MountTree.childInfos_keys level]
    exact (h.sorted.children hp).1

theorem grown (order : TotalPreorder natural) (h : Ordered natural t w)
    (g : Grown natural t t' w w' parent fresh n) (hp : parent ∈ w.nodes)
    (free : t.nodes fresh = none) : Ordered natural t' w' := by
  have new : fresh ∉ w.nodes := by
    intro inside
    obtain ⟨m, hm⟩ := h.shaped.node inside
    rw [free] at hm
    cases hm
  have elsewhere : ∀ x ∈ w.nodes, x ≠ fresh := fun x hx e => new (e ▸ hx)
  have others : ∀ x ∈ w.nodes, t'.keyOf x = t.keyOf x := fun x hx =>
    MountTree.keyOf_congr (g.others x (elsewhere x hx))
  have here : t'.keyOf fresh = n.key := by
    obtain ⟨m, hm, data⟩ := Option.map_eq_some_iff.mp g.here
    rw [MountTree.keyOf_some hm, ← data]
    rfl
  have sorted : w.Siblings fun L => (L.map t'.keyOf).Pairwise (SortsBefore natural) := by
    refine h.sorted.mono fun L hL old => ?_
    rw [List.map_congr_left fun x hx => others x (hL hx)]
    exact old
  obtain ⟨pass, rfl, judged⟩ := g.shape
  obtain ⟨kids, below⟩ := sorted.children hp
  refine ⟨g.shaped, sorted.modify h.shaped.distinct ?_ (below.insert .nil)⟩
  have inside : ∀ x ∈ (w.children parent).level, x ∈ w.nodes := fun x hx =>
    w.children_subset parent ((w.children parent).level_subset hx)
  rw [Forest.level_insert]
  apply pairwise_insert (SortsBefore.trans order) kids
  · intro x hx passed
    obtain ⟨m, hm⟩ := h.shaped.node (inside x hx)
    rw [judged x m (elsewhere x (inside x hx)) hm] at passed
    rw [here, others x (inside x hx), MountTree.keyOf_some hm]
    exact compare_pos order (of_decide_eq_true passed)
  · intro x hx stopped
    obtain ⟨m, hm⟩ := h.shaped.node (inside x hx)
    rw [judged x m (elsewhere x (inside x hx)) hm] at stopped
    rw [here, others x (inside x hx), MountTree.keyOf_some hm]
    exact compare_le_zero.mp (Int.not_lt.mp (of_decide_eq_false stopped))

/-- A write that keeps the links and the name, and makes a node a directory only where it
may stay. -/
theorem rewritten (order : TotalPreorder natural) (h : Ordered natural t w)
    (hn : t.nodes p = some n) (nodes : t'.nodes = (t.set p k).nodes)
    (count : t'.count = t.count) (root : t'.root = t.root) (links : k.toLinks = n.toLinks)
    (name : k.name = n.name)
    (kind : k.isDirectory = n.isDirectory ∨ k.isDirectory = true ∧ KeepsOrder natural t p) :
    Ordered natural t' w := by
  refine ⟨(h.shaped.set hn links name).of_nodes nodes count root, ?_⟩
  have here : t'.keyOf p = k.key := by
    apply MountTree.keyOf_some
    rw [nodes, MountTree.set_nodes_self]
  have others : ∀ x, x ≠ p → t'.keyOf x = t.keyOf x := by
    intro x hx
    simp only [MountTree.keyOf, nodes, MountTree.set_nodes_ne hx]
  by_cases same : k.isDirectory = n.isDirectory
  · have keys : t'.keyOf = t.keyOf := by
      funext x
      by_cases e : x = p
      · rw [e, here, MountTree.keyOf_some hn, VfsTreeNode.key, VfsTreeNode.key, same, name]
      · exact others x e
    rw [keys]
    exact h.sorted
  · obtain ⟨directory, keeps⟩ := kind.resolve_left same
    have file : n.isDirectory = false := by
      rw [directory] at same
      exact Bool.eq_false_iff.mpr (Ne.symm same)
    have key : t'.keyOf p = (true, n.name) := by
      rw [here, VfsTreeNode.key, directory, name]
    refine ((h.sorted.and h.shaped.names).and h.shaped.held.siblings_adjacent).mono
      fun L hL all => ?_
    obtain ⟨⟨sorted, named⟩, adjacent⟩ := all
    apply pairwise_rekey (SortsBefore.trans order) (List.Nodup.of_map _ named) sorted
    · exact fun x _ hx => others x hx
    · intro pre q post split
      obtain ⟨l, hl, next⟩ := adjacent pre q p post split
      obtain ⟨m, hm, rfl⟩ := Option.map_eq_some_iff.mp hl
      obtain ⟨first, before⟩ := keeps n q m hn file hm next
      rw [key, MountTree.keyOf_some hm]
      exact .inr ⟨first, before⟩
    · intro after before
      rw [MountTree.keyOf_some hn] at before
      rw [key]
      exact before.raise

theorem pruned (h : Ordered natural t w) (hn : t.nodes p = some n)
    (done : Pruned t t' p n (w.children p)) (shaped : Shaped t' (w.remove p)) :
    Ordered natural t' (w.remove p) := by
  refine ⟨shaped, ?_⟩
  have fewer : (w.remove p).Siblings fun L => (L.map t.keyOf).Pairwise (SortsBefore natural) :=
    h.sorted.remove h.shaped.distinct fun L sorted =>
      sorted.sublist (List.erase_sublist.map _)
  have nodes := Forest.nodes_remove h.shaped.distinct (h.shaped.live p n hn)
  rw [← List.cons_append] at nodes
  have apart := (List.nodup_append'.mp (nodes.nodup_iff.mp h.shaped.distinct)).2.2
  refine fewer.mono fun L hL sorted => ?_
  have same : ∀ x ∈ L, t'.keyOf x = t.keyOf x := by
    intro x hx
    have kept := done.others x fun inside => apart inside (hL hx)
    rw [MountTree.keyOf, kept, Option.map_map]
    rfl
  rw [List.map_congr_left same]
  exact sorted

end Ordered

/-! ## Sections and changes -/

section
variable {natural : NaturalCompare} {paths : PathLibrary} {m m' : FlVfsMount}
variable {w : Forest NodePtr}

theorem parent_mem {parent : NodePtr} {name : FlString} {found : Option NodePtr}
    (shaped : Shaped m.tree w) (search : m.tree.findChildNode parent name = some found) :
    parent ∈ w.nodes := by
  obtain ⟨n, hn, -⟩ := Option.bind_eq_some_iff.mp search
  exact shaped.live parent n hn

/-- What a section does to the tree: nothing, or it adds a child, or it writes a node that
keeps its place and its name, and makes it a directory at most. -/
inductive SectionEffect (natural : NaturalCompare) (w : Forest NodePtr) (fresh : NodePtr)
    (op : MountSection) (t t' : MountTree) : Prop
  | same (kept : t' = t)
  | grown (parent : NodePtr) (n : VfsTreeNode) (w' : Forest NodePtr) (inside : parent ∈ w.nodes)
      (grown : Grown natural t t' w w' parent fresh n)
  | written (p : NodePtr) (n k : VfsTreeNode) (here : t.nodes p = some n)
      (nodes : t'.nodes = (t.set p k).nodes) (count : t'.count = t.count)
      (root : t'.root = t.root) (links : k.toLinks = n.toLinks) (name : k.name = n.name)
      (kind : k.isDirectory = n.isDirectory ∨ k.isDirectory = true ∧ p ∈ op.marks)

theorem section_effect {op : MountSection} {r : op.Reply} {fresh : NodePtr}
    (shaped : Shaped m.tree w) (free : m.tree.nodes fresh = none)
    (run : op.run natural fresh m = some (r, m')) :
    SectionEffect natural w fresh op m.tree m'.tree := by
  cases op with
  | rootDriver worker =>
      obtain ⟨n, -, same⟩ := Option.bind_eq_some_iff.mp run
      cases same
      exact .same rfl
  | lookChild parent segment worker =>
      obtain ⟨found, -, same⟩ := Option.bind_eq_some_iff.mp run
      cases same
      exact .same rfl
  | readDriver node worker =>
      obtain ⟨n, -, same⟩ := Option.bind_eq_some_iff.mp run
      cases same
      exact .same rfl
  | snapshot node =>
      obtain ⟨n, -, rest⟩ := Option.bind_eq_some_iff.mp run
      obtain ⟨infos, -, same⟩ := Option.bind_eq_some_iff.mp rest
      cases same
      exact .same rfl
  | loadVersion =>
      cases run
      exact .same rfl
  | loadOptions =>
      cases run
      exact .same rfl
  | loadWatching =>
      cases run
      exact .same rfl
  | ensureChildNodeExists parent segment mark =>
      obtain ⟨ensured, adding, same⟩ := Option.bind_eq_some_iff.mp run
      cases same
      obtain ⟨found, search, -⟩ := Option.bind_eq_some_iff.mp adding
      have hp := parent_mem shaped search
      rcases shaped.ensureChild natural hp free segment mark with
        ⟨c, -, -, there⟩ | ⟨t', w', added, grown⟩
      · cases there.symm.trans adding
        exact .same rfl
      · cases added.symm.trans adding
        exact .grown parent _ w' hp grown
  | listEntry parent entry =>
      obtain ⟨t, adding, same⟩ := Option.bind_eq_some_iff.mp run
      cases same
      obtain ⟨found, search, -⟩ := Option.bind_eq_some_iff.mp adding
      have hp := parent_mem shaped search
      rcases shaped.listEntry natural hp free entry with
        ⟨c, -, n, hn, -, there⟩ | ⟨t', w', added, grown⟩
      · cases there.symm.trans adding
        exact .written c n _ hn rfl rfl rfl rfl rfl (.inl rfl)
      · cases added.symm.trans adding
        exact .grown parent _ w' hp grown
  | installArchive node entry handles memoryData memorySize =>
      obtain ⟨t, swapped, same⟩ := Option.bind_eq_some_iff.mp run
      cases same
      obtain ⟨u, closed, -⟩ := Option.bind_eq_some_iff.mp swapped
      obtain ⟨n, hn, -⟩ := Option.bind_eq_some_iff.mp closed
      cases (MountTree.installArchive_some hn).symm.trans swapped
      exact .written node n _ hn rfl rfl rfl rfl rfl (.inr ⟨rfl, rfl⟩)
  | markDirectory node =>
      obtain ⟨t, marked, same⟩ := Option.bind_eq_some_iff.mp run
      cases same
      obtain ⟨n, hn, rfl⟩ := Option.map_eq_some_iff.mp marked
      exact .written node n _ hn rfl rfl rfl rfl rfl (.inr ⟨rfl, rfl⟩)
  | storeRoot entry handles watcher =>
      obtain ⟨t, stored, same⟩ := Option.bind_eq_some_iff.mp run
      cases same
      obtain ⟨n, hn, rfl⟩ := Option.map_eq_some_iff.mp stored
      exact .written _ n _ hn rfl rfl rfl rfl rfl (.inl rfl)
  | clearRoot =>
      obtain ⟨t, cleared, same⟩ := Option.bind_eq_some_iff.mp run
      cases same
      obtain ⟨n, hn, rfl⟩ := Option.map_eq_some_iff.mp cleared
      exact .written _ n _ hn rfl rfl rfl rfl rfl (.inl rfl)

theorem section_ordered {op : MountSection} {r : op.Reply} (order : TotalPreorder natural)
    (h : Ordered natural m.tree w)
    (answer : Sections natural (KeepsOrder natural) m (.mount op) r m') :
    ∃ w', Ordered natural m'.tree w' := by
  obtain ⟨⟨fresh, free, run⟩, allowed⟩ := answer
  cases section_effect h.shaped free run with
  | same kept =>
      rw [kept]
      exact ⟨w, h⟩
  | grown parent n w' inside grown => exact ⟨w', h.grown order grown inside free⟩
  | written p n k hn nodes count root links name kind =>
      refine ⟨w, h.rewritten order hn nodes count root links name ?_⟩
      exact kind.imp_right fun marked => ⟨marked.1, allowed p marked.2⟩

theorem section_shaped {op : MountSection} {r : op.Reply} {fresh : NodePtr}
    (shaped : Shaped m.tree w) (free : m.tree.nodes fresh = none)
    (run : op.run natural fresh m = some (r, m')) : ∃ w', Shaped m'.tree w' := by
  cases section_effect shaped free run with
  | same kept =>
      rw [kept]
      exact ⟨w, shaped⟩
  | grown parent n w' inside grown => exact ⟨w', grown.shaped⟩
  | written p n k hn nodes count root links name kind =>
      exact ⟨w, (shaped.set hn links name).of_nodes nodes count root⟩

/-- A change that the watcher reports removes a node with all below it, or nothing. -/
theorem change_effect {change : FileChange} (shaped : Shaped m.tree w)
    (run : processChange paths change m = some m') :
    m'.tree = m.tree ∨ ∃ p n, m.tree.nodes p = some n ∧
      Pruned m.tree m'.tree p n (w.children p) ∧ Shaped m'.tree (w.remove p) := by
  unfold processChange at run
  dsimp only at run
  by_cases kept : ¬ change.deleted
  · rw [if_pos kept] at run
    cases run
    exact .inl rfl
  rw [if_neg kept] at run
  by_cases root : vfsTreeWatcherRelativePath change.path m.sourcePath = []
  · rw [if_pos root] at run
    cases run
    exact .inl rfl
  · rw [if_neg root] at run
    obtain ⟨removal, removed, same⟩ := Option.bind_eq_some_iff.mp run
    cases same
    rcases shaped.removeByPath paths (vfsTreeWatcherRelativePath change.path m.sourcePath) with
      ⟨-, nothing⟩ | ⟨p, n, t', -, -, -, hn, gone, pruned, after⟩
    · cases nothing.symm.trans removed
      exact .inl rfl
    · cases gone.symm.trans removed
      exact .inr ⟨p, n, hn, pruned, after⟩

theorem change_ordered {change : FileChange} (h : Ordered natural m.tree w)
    (run : processChange paths change m = some m') : ∃ w', Ordered natural m'.tree w' := by
  rcases change_effect h.shaped run with same | ⟨p, n, hn, pruned, shaped⟩
  · rw [same]
    exact ⟨w, h⟩
  · exact ⟨_, h.pruned hn pruned shaped⟩

theorem steps_shaped {φ : MountTree → NodePtr → Prop} (h : ∃ w, Shaped m.tree w)
    (steps : Relation.ReflTransGen (MountStep natural paths φ) m m') :
    ∃ w, Shaped m'.tree w := by
  induction steps with
  | refl => exact h
  | tail _ last ih =>
      obtain ⟨w, shaped⟩ := ih
      cases last with
      | operation op r answer =>
          obtain ⟨⟨fresh, free, run⟩, -⟩ := answer
          exact section_shaped shaped free run
      | change change run =>
          rcases change_effect shaped run with same | ⟨p, n, -, -, after⟩
          · rw [same]
            exact ⟨w, shaped⟩
          · exact ⟨_, after⟩
      | bump bumped =>
          subst bumped
          exact ⟨w, shaped⟩

theorem step_ordered (order : TotalPreorder natural) (h : ∃ w, Ordered natural m.tree w)
    (step : MountStep natural paths (KeepsOrder natural) m m') :
    ∃ w, Ordered natural m'.tree w := by
  obtain ⟨w, h⟩ := h
  cases step with
  | operation op r answer => exact section_ordered order h answer
  | change change run => exact change_ordered h run
  | bump bumped =>
      subst bumped
      exact ⟨w, h⟩

theorem steps_ordered (order : TotalPreorder natural) (h : ∃ w, Ordered natural m.tree w)
    (steps : Relation.ReflTransGen (MountStep natural paths (KeepsOrder natural)) m m') :
    ∃ w, Ordered natural m'.tree w := by
  induction steps with
  | refl => exact h
  | tail _ last ih => exact step_ordered order ih last

end

/-! ## Listings -/

section
variable {Score : Type} [LinearOrder Score] {matcher : Matcher Score} {self : VfsState}
variable {slots worker : ℕ} {path : FlString} {o : ListOutcome}

theorem finishList_copies {S : Type} {env : Environment vfs S} {s t : S} {node : NodePtr}
    {needle : FlString} (run : Run env (finishList matcher path needle node) s o t)
    (success : o.success = true) :
    ∃ u v entries, Calls env EnumerateOp s u ∧ env u (.mount (.snapshot node)) entries v ∧
      Calls env (· = .mount .loadVersion) v t ∧
      o.entries = filterEntries matcher needle entries := by
  obtain ⟨canceled, u, asked, run⟩ := run_bind.mp run
  cases canceled with
  | true =>
      obtain ⟨rfl, -⟩ := run_done.mp run
      cases success
  | false =>
      obtain ⟨entries, v, copied, run⟩ := run_bind.mp run
      obtain ⟨version, x, loaded, done⟩ := run_bind.mp run
      obtain ⟨rfl, rfl⟩ := run_done.mp done
      have polls : Only EnumerateOp shouldCancel := ⟨trivial, fun _ => trivial⟩
      have loads : Only (fun op : VfsOp => op = .mount .loadVersion) (onMount .loadVersion) :=
        ⟨rfl, fun _ => trivial⟩
      exact ⟨u, v, entries, polls.calls asked, run_call.mp copied, loads.calls loaded, rfl⟩

/-- A listing that succeeds returns what one section has copied of the node that its walk
has reached, filtered. -/
theorem vfsOpList_copies {S : Type} {env : Environment vfs S} {s t : S} {needle : FlString}
    (run : Run env (vfsOpList self slots matcher path needle worker) s o t)
    (success : o.success = true) :
    ∃ s₁ walk s₂ node u v entries, Calls env EnumerateOp s s₁ ∧
      Run env (vfsTreeWalkAndResolve self slots path worker true) s₁ walk s₂ ∧
      walk.node = some node ∧ Calls env EnumerateOp s₂ u ∧
      env u (.mount (.snapshot node)) entries v ∧ Calls env (· = .mount .loadVersion) v t ∧
      o.entries = filterEntries matcher needle entries := by
  obtain ⟨root, s₁, rooted, run⟩ := run_bind.mp run
  have roots : Only EnumerateOp (onMount (.rootDriver worker)) := ⟨trivial, fun _ => trivial⟩
  dsimp only at run
  split_ifs at run
  · obtain ⟨rfl, -⟩ := run_done.mp run
    cases success
  · obtain ⟨walk, s₂, walked, run⟩ := run_bind.mp run
    split at run
    · rename_i entry node reached _ _
      split_ifs at run
      · obtain ⟨reported, s₃, listed, run⟩ := run_bind.mp run
        obtain ⟨_, s₄, enumerated, run⟩ := run_bind.mp run
        obtain ⟨u, v, entries, calls, copied, loads, filtered⟩ := finishList_copies run success
        have asks := (only_onDrivers (fun _ => trivial) _ : Only EnumerateOp _).calls listed
        have adds := (enumerate_only ..).calls enumerated
        exact ⟨s₁, walk, s₂, node, u, v, entries, roots.calls rooted, walked, by assumption,
          asks.trans (adds.trans calls), copied, loads, filtered⟩
      · obtain ⟨rfl, -⟩ := run_done.mp run
        cases success
    · obtain ⟨rfl, -⟩ := run_done.mp run
      cases success

end

section
variable {natural : NaturalCompare} {paths : PathLibrary} {m₀ m : FlVfsMount}
variable {root : NodePtr} {name : FlString} {entry : Option PluginEntry} {handles : VfsHandles}

/-- Whatever operations and watcher changes run on a mount, and however their steps are
interleaved: as long as no node becomes a directory that may not stay where it is, the
children of every node are sorted, and so is every unfiltered listing. -/
theorem children_sorted (order : TotalPreorder natural)
    (mounted : m₀.tree = (MountState.mounted root name entry handles).tree)
    (steps : Relation.ReflTransGen (MountStep natural paths (KeepsOrder natural)) m₀ m) :
    Sorted natural m.tree ∧
      ∀ (Score : Type) [LinearOrder Score] (matcher : Matcher Score) (self : VfsState)
        (slots worker : ℕ) (path : FlString) (o : ListOutcome) (m' : FlVfsMount),
        Run (Interleaved natural paths (KeepsOrder natural))
          (vfsOpList self slots matcher path [] worker) m o m' →
        o.success = true → (o.entries.map Entry.key).Pairwise (SortsBefore natural) := by
  have start : ∃ w, Ordered natural m₀.tree w := by
    rw [mounted]
    exact ⟨_, .mounted root name entry handles⟩
  have here := steps_ordered order start steps
  constructor
  · obtain ⟨w, ordered⟩ := here
    intro p n hn
    exact ordered.infos hn
  · intro Score _ matcher self slots worker path o m' run success
    obtain ⟨s₁, walk, s₂, node, u, v, entries, rooted, walked, -, calls, answer, -, filtered⟩ :=
      vfsOpList_copies run success
    rw [filterEntries, if_pos rfl] at filtered
    rw [filtered]
    have walks := (walk_only self slots path worker true).mono fun _ => WalkOp.enumerate
    have all : Calls (Interleaved natural paths (KeepsOrder natural)) EnumerateOp m u :=
      rooted.trans ((walks.calls walked).trans calls)
    have atCopy : ∃ w, Ordered natural u.tree w :=
      all.keeps (fun x op r y _ h answer => steps_ordered order h (interleaved_steps answer)) here
    obtain ⟨x, steps, ⟨fresh, -, copied⟩, -⟩ := answer
    obtain ⟨w, ordered⟩ := steps_ordered order atCopy steps
    obtain ⟨n, hn, copied⟩ := Option.bind_eq_some_iff.mp copied
    obtain ⟨infos, loop, sorted⟩ := ordered.infos hn
    rw [Option.bind_eq_bind, loop, Option.bind_some] at copied
    cases copied
    exact sorted

end

/-! ## A file that becomes an archive behind another file -/

/-- Names by the code of their first letter. -/
def byFirstLetter : NaturalCompare := fun a b =>
  ((a.headD 'a').toNat : ℤ) - ((b.headD 'a').toNat : ℤ)

theorem byFirstLetter_order : TotalPreorder byFirstLetter where
  swap a b := by
    unfold byFirstLetter
    omega
  trans a b c := by
    unfold byFirstLetter
    omega

def lister : PluginEntry := ⟨0, { name := ['l'] }⟩

def archiver : PluginEntry := ⟨1, { name := ['z'], memory := true, hasOpenMemory := true }⟩

/-- A root with a driver. -/
def listedMount : FlVfsMount :=
  { tree := (MountState.mounted 0 [] (some lister) [some 4]).tree }

/-- The root has the files `a` and `b`, and the second driver takes a file that was read. -/
def answerArchive : (op : VfsOp) → FlVfsMount → Option (op.Reply × FlVfsMount)
  | .mount op, m =>
      if (m.tree.nodes m.tree.count).isNone then op.run byFirstLetter m.tree.count m else none
  | .driver (.listDirectory entry _ _), m =>
      some (if entry.id = 0 then
        [{ name := ['a'], size := 1, isDirectory := false },
          { name := ['b'], size := 1, isDirectory := false }]
        else [], m)
  | .driver (.getSize ..), m => some ((1 : ℤ), m)
  | .driver (.malloc _), m => some ((3 : ℕ), m)
  | .driver (.read ..), m => some (⟨1, [7]⟩, m)
  | .driver (.openMemory ..), m => some (⟨some 5, true, false⟩, m)
  | .shouldCancel, m => some (false, m)
  | _, _ => none

theorem answerArchive_sections {m : FlVfsMount} {op : VfsOp} {r : op.Reply} {m' : FlVfsMount}
    (h : answerArchive op m = some (r, m')) :
    Sections byFirstLetter (fun _ _ => True) m op r m' := by
  unfold answerArchive at h
  split at h
  · split_ifs at h with free
    exact ⟨⟨_, Option.isNone_iff_eq_none.mp free, h⟩, fun _ _ => trivial⟩
  all_goals cases h <;> rfl

theorem answerArchive_allowed {paths : PathLibrary} (m : FlVfsMount) (op : VfsOp) (r : op.Reply)
    (m' : FlVfsMount) (h : answerArchive op m = some (r, m')) :
    Interleaved byFirstLetter paths (fun _ _ => True) m op r m' :=
  ⟨m, .refl, answerArchive_sections h⟩

def matchAll : Matcher ℕ := ⟨fun _ _ => true, fun _ _ => 0⟩

/-- The unfiltered listing of a path. -/
def listArchives (path : FlString) : VfsProgram ListOutcome :=
  vfsOpList ⟨[lister, archiver], letters⟩ 1 matchAll path [] 0

theorem listArchives_run {path : FlString} {m m' : FlVfsMount} {o : ListOutcome}
    (h : replay answerArchive (listArchives path) m = some (o, m')) :
    Run (Interleaved byFirstLetter letters fun _ _ => True) (listArchives path) m o m' :=
  run_replay answerArchive_allowed h

/-- Listing the root, then the archive `b`, and then the root again. -/
theorem children_unsorted :
    TotalPreorder byFirstLetter ∧ ∃ o₁ m₁ o₂ m₂ o₃ m₃,
      Run (Interleaved byFirstLetter letters fun _ _ => True) (listArchives []) listedMount o₁ m₁ ∧
      Run (Interleaved byFirstLetter letters fun _ _ => True) (listArchives ['b']) m₁ o₂ m₂ ∧
      ¬ Sorted byFirstLetter m₂.tree ∧
      Run (Interleaved byFirstLetter letters fun _ _ => True) (listArchives []) m₂ o₃ m₃ ∧
      o₃.success = true ∧
      ¬ (o₃.entries.map Entry.key).Pairwise (SortsBefore byFirstLetter) := by
  obtain ⟨o₁, m₁, o₂, m₂, o₃, m₃, n, infos, first, second, third, success, listed, root, copied,
      keys⟩ :
      ∃ o₁ m₁ o₂ m₂ o₃ m₃ n infos,
        replay answerArchive (listArchives []) listedMount = some (o₁, m₁) ∧
        replay answerArchive (listArchives ['b']) m₁ = some (o₂, m₂) ∧
        replay answerArchive (listArchives []) m₂ = some (o₃, m₃) ∧ o₃.success = true ∧
        o₃.entries.map Entry.key = [(false, ['a']), (true, ['b'])] ∧
        m₂.tree.nodes 0 = some n ∧
        m₂.tree.childInfos m₂.tree.count n.firstChild = some infos ∧
        infos.map Entry.key = [(false, ['a']), (true, ['b'])] :=
    ⟨_, _, _, _, _, _, _, _, rfl, rfl, rfl, rfl, rfl, rfl, rfl, rfl⟩
  have disorder : ¬ [(false, ['a']), (true, ['b'])].Pairwise (SortsBefore byFirstLetter) := by
    simp [SortsBefore]
  refine ⟨byFirstLetter_order, o₁, m₁, o₂, m₂, o₃, m₃, listArchives_run first,
    listArchives_run second, ?_, listArchives_run third, success, ?_⟩
  · intro sorted
    obtain ⟨infos', copied', order⟩ := sorted 0 n root
    cases copied.symm.trans copied'
    rw [keys] at order
    exact disorder order
  · rw [listed]
    exact disorder

/-- A directory `a`, and the files `b` and `c`. -/
def threeEntries : List Entry :=
  [{ name := ['a'], size := 0, isDirectory := true },
    { name := ['b'], size := 1, isDirectory := false },
    { name := ['c'], size := 1, isDirectory := false }]

/-- The root has the three entries, and no section makes a node a directory. -/
def answerThree : (op : VfsOp) → FlVfsMount → Option (op.Reply × FlVfsMount)
  | .mount op, m =>
      if (m.tree.nodes m.tree.count).isNone ∧ op.marks = none then
        op.run byFirstLetter m.tree.count m
      else none
  | .driver (.listDirectory ..), m => some (threeEntries, m)
  | .shouldCancel, m => some (false, m)
  | _, _ => none

theorem answerThree_run {path : FlString} {m m' : FlVfsMount} {o : ListOutcome}
    (h : replay answerThree (listArchives path) m = some (o, m')) :
    Run (Interleaved byFirstLetter letters (KeepsOrder byFirstLetter)) (listArchives path) m o
      m' := by
  refine run_replay (fun u op r v answered => ⟨u, .refl, ?_⟩) h
  unfold answerThree at answered
  split at answered
  · split_ifs at answered with allowed
    refine ⟨⟨_, Option.isNone_iff_eq_none.mp allowed.1, answered⟩, fun p hp => ?_⟩
    rw [allowed.2] at hp
    cases hp
  all_goals cases answered <;> rfl

/-- An archive is loaded into the file `b`, in front of which is the directory `a`. -/
theorem loads_behind {m : FlVfsMount} {o : ListOutcome}
    (listed : replay answerThree (listArchives []) listedMount = some (o, m)) :
    KeepsOrder byFirstLetter m.tree 2 := by
  cases listed
  intro n q k hn _ hk next
  by_cases c : q = 3
  · subst c
    cases hk
    cases next
  by_cases b : q = 2
  · subst b
    cases hk
    cases next
  by_cases a : q = 1
  · subst a
    cases hn
    cases hk
    exact ⟨rfl, by decide⟩
  by_cases root : q = 0
  · subst root
    cases hk
    cases next
  · simp [listedMount, MountState.mounted, Function.update, a, b, c, root] at hk

/-- The root is listed, an archive is loaded into the file `b` behind the directory `a`, and the
root is listed again. -/
theorem children_sorted_behind : ∃ o₁ m₁ m₂ o m',
    Run (Interleaved byFirstLetter letters (KeepsOrder byFirstLetter)) (listArchives []) listedMount
      o₁ m₁ ∧
    o₁.entries.map Entry.key = [(true, ['a']), (false, ['b']), (false, ['c'])] ∧
    MountSection.run byFirstLetter 4 m₁ (.installArchive 2 archiver [some 5] (some 3) 1) =
      some ((), m₂) ∧
    Sorted byFirstLetter m₂.tree ∧
    Run (Interleaved byFirstLetter letters (KeepsOrder byFirstLetter)) (listArchives []) m₂ o m' ∧
    o.entries.map Entry.key = [(true, ['a']), (true, ['b']), (false, ['c'])] ∧
    (o.entries.map Entry.key).Pairwise (SortsBefore byFirstLetter) := by
  obtain ⟨o₁, m₁, m₂, o, m', first, keys₁, free, loaded, second, success, keys⟩ :
      ∃ o₁ m₁ m₂ o m', replay answerThree (listArchives []) listedMount = some (o₁, m₁) ∧
        o₁.entries.map Entry.key = [(true, ['a']), (false, ['b']), (false, ['c'])] ∧
        m₁.tree.nodes 4 = none ∧
        MountSection.run byFirstLetter 4 m₁ (.installArchive 2 archiver [some 5] (some 3) 1) =
          some ((), m₂) ∧
        replay answerThree (listArchives []) m₂ = some (o, m') ∧ o.success = true ∧
        o.entries.map Entry.key = [(true, ['a']), (true, ['b']), (false, ['c'])] :=
    ⟨_, _, _, _, _, rfl, rfl, rfl, rfl, rfl, rfl, rfl⟩
  have load : MountStep byFirstLetter letters (KeepsOrder byFirstLetter) m₁ m₂ := by
    apply MountStep.operation (.installArchive 2 archiver [some 5] (some 3) 1) ()
    refine ⟨⟨4, free, loaded⟩, fun p hp => ?_⟩
    cases hp
    exact loads_behind first
  have sorted := children_sorted byFirstLetter_order rfl
    ((run_steps (answerThree_run first)).tail load)
  have again := answerThree_run second
  exact ⟨o₁, m₁, m₂, o, m', answerThree_run first, keys₁, loaded, sorted.1, again, keys,
    sorted.2 ℕ matchAll ⟨[lister, archiver], letters⟩ 1 0 [] o m' again success⟩

end FlowiVfs.Tree
