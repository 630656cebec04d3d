import FlowiVfs.TreeHeap

/-!
# The shape of a mount's tree

`Shaped t w` says that the pool of `t` is exactly the tree `w`: the links of its nodes
spell it, no node occurs twice, there are no other nodes, and siblings have different
names. Each operation of `vfs_tree.c` is shown to succeed on such a tree, with the tree
that results and with what it leaves unchanged.
-/
namespace FlowiVfs.Tree

open Linked

namespace VfsTreeNode

/-- Everything about a node but its place in the tree. -/
def data (n : VfsTreeNode) : VfsTreeNode := { n with toLinks := {} }

end VfsTreeNode

namespace MountTree

variable (t : MountTree)

/-- The tree with one node overwritten. -/
def set (p : NodePtr) (n : VfsTreeNode) : MountTree :=
  { t with nodes := Function.update t.nodes p (some n) }

variable {t} {p q : NodePtr} {n : VfsTreeNode}

@[simp] theorem set_nodes_self : (t.set p n).nodes p = some n := Function.update_self ..

theorem set_nodes_ne (h : q ≠ p) : (t.set p n).nodes q = t.nodes q := Function.update_of_ne h ..

@[simp] theorem set_count : (t.set p n).count = t.count := rfl
@[simp] theorem set_root : (t.set p n).root = t.root := rfl
@[simp] theorem set_closed : (t.set p n).closed = t.closed := rfl
@[simp] theorem set_freed : (t.set p n).freed = t.freed := rfl

@[simp] theorem set_set {m : VfsTreeNode} : (t.set p n).set p m = t.set p m := by
  simp only [set, Function.update_idem]

theorem update_some {f : VfsTreeNode → VfsTreeNode} (h : t.nodes p = some n) :
    t.update p f = some (t.set p (f n)) := by
  simp only [update, h, Option.map_some, set]

theorem links_some (h : t.nodes p = some n) : t.links p = some n.toLinks := by
  simp only [links, h, Option.map_some]

theorem links_set_self : (t.set p n).links p = some n.toLinks := links_some set_nodes_self

theorem links_set_ne (h : q ≠ p) : (t.set p n).links q = t.links q := by
  simp only [links, set_nodes_ne h]

variable (t) in
def nameOf (p : NodePtr) : FlString := ((t.nodes p).map VfsTreeNode.name).getD []

variable (t) in
def dataOf (p : NodePtr) : Option VfsTreeNode := (t.nodes p).map VfsTreeNode.data

theorem nameOf_some (h : t.nodes p = some n) : t.nameOf p = n.name := by
  simp only [nameOf, h, Option.map_some, Option.getD_some]

/-- Names are part of the data. -/
theorem nameOf_congr {t' : MountTree} (h : t'.dataOf p = t.dataOf p) :
    t'.nameOf p = t.nameOf p := by
  simp only [dataOf] at h
  simp only [nameOf]
  cases ht : t.nodes p with
  | none =>
      rw [ht] at h
      rw [Option.map_eq_none_iff.mp h]
  | some n =>
      rw [ht] at h
      obtain ⟨m, hm, same⟩ := Option.map_eq_some_iff.mp h
      rw [hm]
      show m.data.name = n.data.name
      rw [same]

theorem dataOf_set_links {l : Links NodePtr} (h : t.nodes p = some n) (x : NodePtr) :
    (t.set p { n with toLinks := l }).dataOf x = t.dataOf x := by
  by_cases e : x = p
  · subst e
    simp only [dataOf, set_nodes_self, h, Option.map_some, VfsTreeNode.data]
  · simp only [dataOf, set_nodes_ne e]

variable (t) in
/-- Whether a node sorts before a child to be inserted. -/
def sortsBefore (natural : NaturalCompare) (c : VfsTreeNode) (x : NodePtr) : Bool :=
  (t.nodes x).any fun n => 0 < vfsTreeCompareNodes natural c n

theorem findIn_eq {f : Forest NodePtr} {parent : Option NodePtr} {name : FlString} {left : ℕ}
    (h : f.Holds t.links parent) (enough : f.level.length ≤ left) :
    t.findIn name left f.start = some (f.level.find? fun x => t.nameOf x = name) := by
  induction f generalizing left with
  | nil => simp [findIn, Forest.start, Forest.level]
  | cons p kids rest _ ih =>
      obtain ⟨left, rfl⟩ : ∃ m, left = m + 1 := by
        cases left with
        | zero => exact absurd enough (by simp [Forest.level])
        | succ m => exact ⟨m, rfl⟩
      obtain ⟨n, hn, linked⟩ := Option.map_eq_some_iff.mp h.1
      have next : n.nextSibling = rest.start := congrArg Links.nextSibling linked
      have shorter : rest.level.length ≤ left := by
        simp only [Forest.level, List.length_cons] at enough
        omega
      simp only [Forest.start_cons, findIn, hn, Option.bind_eq_bind, Option.bind_some,
        Forest.level, List.find?_cons, nameOf_some hn, next, ih h.2.2 shorter]
      by_cases e : n.name = name <;> simp [e]

theorem insertionPoint_eq (natural : NaturalCompare) (c : VfsTreeNode) {f : Forest NodePtr}
    {parent : Option NodePtr} (prev : Option NodePtr) {left : ℕ} (h : f.Holds t.links parent)
    (enough : f.level.length ≤ left) :
    t.insertionPoint natural c left prev f.start =
      some ((f.passed (t.sortsBefore natural c)).or prev) := by
  induction f generalizing left prev with
  | nil => simp [insertionPoint, Forest.start, Forest.passed]
  | cons p kids rest _ ih =>
      obtain ⟨left, rfl⟩ : ∃ m, left = m + 1 := by
        cases left with
        | zero => exact absurd enough (by simp [Forest.level])
        | succ m => exact ⟨m, rfl⟩
      obtain ⟨n, hn, linked⟩ := Option.map_eq_some_iff.mp h.1
      have next : n.nextSibling = rest.start := congrArg Links.nextSibling linked
      have shorter : rest.level.length ≤ left := by
        simp only [Forest.level, List.length_cons] at enough
        omega
      have sorts : t.sortsBefore natural c p = decide (0 < vfsTreeCompareNodes natural c n) := by
        simp only [sortsBefore, hn, Option.any_some]
      simp only [Forest.start_cons, insertionPoint, hn, Option.bind_eq_bind, Option.bind_some,
        Forest.passed, sorts, next, ih _ h.2.2 shorter, decide_eq_true_eq]
      by_cases pass : 0 < vfsTreeCompareNodes natural c n
      · simp only [if_pos pass]
        cases rest.passed (t.sortsBefore natural c) <;> rfl
      · simp only [if_neg pass, Option.none_or]

end MountTree

/-- Two trees that differ in links only. -/
structure SameData (t t' : MountTree) : Prop where
  data : ∀ x, t'.dataOf x = t.dataOf x
  count : t'.count = t.count
  root : t'.root = t.root
  closed : t'.closed = t.closed
  freed : t'.freed = t.freed

namespace SameData

variable {t t' t'' : MountTree} {p : NodePtr} {n : VfsTreeNode}

theorem trans (h : SameData t t') (h' : SameData t' t'') : SameData t t'' where
  data x := (h'.data x).trans (h.data x)
  count := h'.count.trans h.count
  root := h'.root.trans h.root
  closed := h'.closed.trans h.closed
  freed := h'.freed.trans h.freed

theorem relink {l : Links NodePtr} (h : t.nodes p = some n) :
    SameData t (t.set p { n with toLinks := l }) :=
  ⟨MountTree.dataOf_set_links h, rfl, rfl, rfl, rfl⟩

theorem live (h : SameData t t') (hn : t'.nodes p = some n) : ∃ m, t.nodes p = some m := by
  have same := h.data p
  simp only [MountTree.dataOf, hn, Option.map_some] at same
  obtain ⟨m, hm, -⟩ := Option.map_eq_some_iff.mp same.symm
  exact ⟨m, hm⟩

end SameData

section
variable {t : MountTree} {w : Forest NodePtr} {parent child : NodePtr} {c p : VfsTreeNode}
  {natural : NaturalCompare}

/-- The links that adding a child leaves: the child's own, those of the sibling in front of
it, and the parent's when it is the first. -/
theorem addChild_held {t' : MountTree} {pass : NodePtr → Bool} (held : w.Holds t.links none)
    (distinct : w.nodes.Nodup) (hp : parent ∈ w.nodes) (new : child ∉ w.nodes)
    (own : t'.links child = some ⟨some parent, none, (w.children parent).stopped pass⟩)
    (front : ∀ a l, (w.children parent).passed pass = some a → t.links a = some l →
      t'.links a = some { l with nextSibling := some child })
    (first : ∀ l, t.links parent = some l → t'.links parent =
      some { l with firstChild := ((w.children parent).insert pass child).start })
    (others : ∀ x, x ≠ child → x ≠ parent → (w.children parent).passed pass ≠ some x →
      t'.links x = t.links x) :
    (w.modify parent (Forest.insert pass child)).Holds t'.links none := by
  have inside := w.children_subset parent
  have notParent : ∀ x ∈ (w.children parent).nodes, x ≠ parent := by
    rintro x hx rfl
    exact Forest.not_mem_children distinct hx
  have notChild : ∀ x ∈ w.nodes, x ≠ child := by
    rintro x hx rfl
    exact new hx
  refine held.modify distinct hp (fun x hx notSelf notKid => ?_) first ?_
  · refine others x (notChild x hx) notSelf fun e => notKid ?_
    exact (w.children parent).level_subset (Forest.passed_mem e)
  · refine (held.children hp).insert (Forest.nodup_children distinct) (fun x hx e => ?_) front own
    exact others x (notChild x (inside hx)) (notParent x hx) e

/-- The child becomes the first one: its own links are written, then the parent's. -/
theorem addChild_first {t' : MountTree} {pass : NodePtr → Bool} (held : w.Holds t.links none)
    (distinct : w.nodes.Nodup) (hp : parent ∈ w.nodes) (new : child ∉ w.nodes)
    (hpn : t.nodes parent = some p) (hc : t.nodes child = some c) (childless : c.firstChild = none)
    (unpassed : (w.children parent).passed pass = none)
    (ht' : t' = (t.set child { c with
      parent := some parent, nextSibling := (w.children parent).start }).set parent
        { p with firstChild := some child }) :
    SameData t t' ∧ (w.modify parent (Forest.insert pass child)).Holds t'.links none := by
  subst ht'
  have apart : parent ≠ child := fun e => new (e ▸ hp)
  obtain ⟨front, stop⟩ := Forest.insert_unpassed (c := child) unpassed
  refine ⟨(SameData.relink hc).trans (SameData.relink ((MountTree.set_nodes_ne apart).trans hpn)), ?_⟩
  refine addChild_held held distinct hp new ?_ ?_ ?_ fun x hx hxp _ => ?_
  · rw [MountTree.links_set_ne (Ne.symm apart), MountTree.links_set_self, stop, ← childless]
  · rw [unpassed]
    exact fun a l h => absurd h (by simp)
  · intro l hl
    rw [MountTree.links_some hpn] at hl
    cases hl
    rw [MountTree.links_set_self, front]
    rfl
  · rw [MountTree.links_set_ne hxp, MountTree.links_set_ne hx]

/-- The child goes behind a sibling: its own links are written, then the sibling's. -/
theorem addChild_behind {t' : MountTree} {pass : NodePtr → Bool} {before : NodePtr}
    {b : VfsTreeNode} (held : w.Holds t.links none) (distinct : w.nodes.Nodup)
    (hp : parent ∈ w.nodes) (new : child ∉ w.nodes) (hc : t.nodes child = some c)
    (childless : c.firstChild = none) (hprev : (w.children parent).passed pass = some before)
    (hb : t.nodes before = some b)
    (ht' : t' = (t.set child { c with
      parent := some parent, nextSibling := b.nextSibling }).set before
        { b with nextSibling := some child }) :
    SameData t t' ∧ (w.modify parent (Forest.insert pass child)).Holds t'.links none := by
  subst ht'
  have apart : parent ≠ child := fun e => new (e ▸ hp)
  have inside : before ∈ (w.children parent).nodes :=
    (w.children parent).level_subset (Forest.passed_mem hprev)
  have notChild : before ≠ child := by
    rintro rfl
    exact new (w.children_subset parent inside)
  have notParent : before ≠ parent := by
    rintro rfl
    exact Forest.not_mem_children distinct inside
  obtain ⟨lb, hlb, next⟩ := (held.children hp).passed_next hprev
  rw [MountTree.links_some hb] at hlb
  cases hlb
  refine ⟨(SameData.relink hc).trans
    (SameData.relink ((MountTree.set_nodes_ne notChild).trans hb)), ?_⟩
  refine addChild_held held distinct hp new ?_ ?_ ?_ fun x hx hxp hxb => ?_
  · rw [MountTree.links_set_ne (Ne.symm notChild), MountTree.links_set_self, ← next, ← childless]
  · intro a l ha hl
    rw [hprev] at ha
    cases ha
    rw [MountTree.links_some hb] at hl
    cases hl
    rw [MountTree.links_set_self]
  · intro l hl
    obtain ⟨l', hl', first⟩ := held.firstChild hp
    rw [hl] at hl'
    cases hl'
    rw [MountTree.links_set_ne (Ne.symm notParent), MountTree.links_set_ne apart, hl,
      Forest.start_insert hprev, ← first]
  · rw [hprev] at hxb
    rw [MountTree.links_set_ne fun e => hxb (congrArg some e.symm), MountTree.links_set_ne hx]

variable (natural) in
theorem addChildNode_spec (held : w.Holds t.links none) (distinct : w.nodes.Nodup)
    (hp : parent ∈ w.nodes) (new : child ∉ w.nodes) (hc : t.nodes child = some c)
    (childless : c.firstChild = none)
    (short : (w.children parent).level.length ≤ t.count) :
    ∃ t' pass, t.addChildNode natural parent child = some t' ∧ SameData t t' ∧
      (w.modify parent (Forest.insert pass child)).Holds t'.links none ∧
      ∀ x n, x ≠ child → t.nodes x = some n →
        pass x = decide (0 < vfsTreeCompareNodes natural c n) := by
  obtain ⟨l, hl, first⟩ := held.firstChild hp
  obtain ⟨p, hpn, rfl⟩ := Option.map_eq_some_iff.mp hl
  have apart : parent ≠ child := fun e => new (e ▸ hp)
  have parent₁ : ∀ n, (t.set child n).nodes parent = some p := fun n =>
    (MountTree.set_nodes_ne apart).trans hpn
  have judged : ∀ x n, x ≠ child → t.nodes x = some n →
      (t.set child { c with parent := some parent, nextSibling := none }).sortsBefore natural
        { c with parent := some parent, nextSibling := none } x =
          decide (0 < vfsTreeCompareNodes natural c n) := by
    intro x n hx hn
    simp only [MountTree.sortsBefore, MountTree.set_nodes_ne hx, hn, Option.any_some]
    rfl
  have kids₁ : (w.children parent).Holds
      (t.set child { c with parent := some parent, nextSibling := none }).links (some parent) := by
    refine (held.children hp).congr fun x hx => MountTree.links_set_ne ?_
    rintro rfl
    exact new (w.children_subset parent hx)
  have point := MountTree.insertionPoint_eq natural
    { c with parent := some parent, nextSibling := none } none kids₁ short
  rw [Option.or_none] at point
  simp only [MountTree.addChildNode, MountTree.update_some hc, Option.bind_eq_bind,
    Option.bind_some, parent₁, MountTree.set_nodes_self]
  generalize (t.set child _).sortsBefore natural _ = pass at point judged
  cases hstart : (w.children parent).start with
  | none =>
      have unpassed : (w.children parent).passed pass = none := by
        cases hk : w.children parent with
        | nil => rfl
        | cons x kids rest =>
            rw [hk] at hstart
            exact absurd hstart (by simp)
      rw [first, hstart]
      refine ⟨_, pass, MountTree.update_some (parent₁ _), ?_⟩
      obtain ⟨same, holds⟩ := addChild_first held distinct hp new hpn hc childless unpassed rfl
      rw [hstart] at same holds
      exact ⟨same, holds, judged⟩
  | some head =>
      rw [hstart] at point
      rw [first, hstart]
      simp only [MountTree.set_count, point, Option.bind_some]
      cases hprev : (w.children parent).passed pass with
      | none =>
          simp only [MountTree.update_some MountTree.set_nodes_self, Option.bind_some,
            MountTree.set_set]
          refine ⟨_, pass, MountTree.update_some (parent₁ _), ?_⟩
          obtain ⟨same, holds⟩ := addChild_first held distinct hp new hpn hc childless hprev rfl
          rw [hstart] at same holds
          exact ⟨same, holds, judged⟩
      | some before =>
          have inside : before ∈ w.nodes :=
            w.children_subset parent ((w.children parent).level_subset (Forest.passed_mem hprev))
          have notChild : before ≠ child := by
            rintro rfl
            exact new inside
          obtain ⟨lb, hlb⟩ := held.live inside
          obtain ⟨b, hb, rfl⟩ := Option.map_eq_some_iff.mp hlb
          simp only [MountTree.set_nodes_ne notChild, hb, Option.bind_some,
            MountTree.update_some MountTree.set_nodes_self, MountTree.set_set]
          refine ⟨_, pass, MountTree.update_some ((MountTree.set_nodes_ne notChild).trans hb), ?_⟩
          obtain ⟨same, holds⟩ :=
            addChild_behind held distinct hp new hc childless hprev hb rfl
          exact ⟨same, holds, judged⟩

end

/-- The pool of a mount is exactly the tree `w`. -/
structure Shaped (t : MountTree) (w : Forest NodePtr) : Prop where
  rooted : w.level = [t.root]
  held : w.Holds t.links none
  distinct : w.nodes.Nodup
  live : ∀ p n, t.nodes p = some n → p ∈ w.nodes
  count : w.nodes.length = t.count
  names : w.Siblings fun L => (L.map t.nameOf).Nodup

namespace Shaped

variable {t : MountTree} {w : Forest NodePtr} {p : NodePtr} {n : VfsTreeNode}

theorem node (h : Shaped t w) (hp : p ∈ w.nodes) : ∃ n, t.nodes p = some n := by
  obtain ⟨l, hl⟩ := h.held.live hp
  obtain ⟨n, hn, -⟩ := Option.map_eq_some_iff.mp hl
  exact ⟨n, hn⟩

theorem short (h : Shaped t w) (p : NodePtr) : (w.children p).level.length ≤ t.count := by
  have inside : (w.children p).level ⊆ w.nodes :=
    List.Subset.trans (w.children p).level_subset (w.children_subset p)
  rw [← h.count]
  exact (List.subperm_of_subset (Forest.nodup_level (Forest.nodup_children h.distinct))
    inside).length_le

theorem root_mem (h : Shaped t w) : t.root ∈ w.nodes := by
  refine w.level_subset ?_
  rw [h.rooted]
  exact List.mem_cons_self

theorem firstChild (h : Shaped t w) (hn : t.nodes p = some n) :
    n.firstChild = (w.children p).start := by
  obtain ⟨l, hl, first⟩ := h.held.firstChild (h.live p n hn)
  rw [MountTree.links_some hn] at hl
  cases hl
  exact first

theorem findChildNode_eq (h : Shaped t w) (hp : p ∈ w.nodes) (name : FlString) :
    t.findChildNode p name =
      some ((w.children p).level.find? fun x => t.nameOf x = name) := by
  obtain ⟨n, hn⟩ := h.node hp
  simp only [MountTree.findChildNode, hn, Option.bind_eq_bind, Option.bind_some,
    h.firstChild hn]
  exact MountTree.findIn_eq (h.held.children hp) (h.short p)

theorem findChildNode_mem {q c : NodePtr} (h : Shaped t w) (hq : q ∈ w.nodes)
    (hc : c ∈ (w.children q).level) :
    t.findChildNode q (t.nameOf c) = some (some c) := by
  rw [h.findChildNode_eq hq]
  obtain ⟨found, first⟩ := Option.isSome_iff_exists.mp
    (List.find?_isSome (p := fun x => decide (t.nameOf x = t.nameOf c)).mpr
      ⟨c, hc, decide_eq_true rfl⟩)
  have same : t.nameOf found = t.nameOf c := by simpa using List.find?_some first
  rw [first, List.inj_on_of_nodup_map (h.names.children hq).1
    (List.mem_of_find?_eq_some first) hc same]

/-- The shape is about the nodes only. -/
theorem of_nodes {t' : MountTree} (h : Shaped t w) (nodes : t'.nodes = t.nodes)
    (count : t'.count = t.count) (root : t'.root = t.root) : Shaped t' w := by
  have links : t'.links = t.links := funext fun p => by simp only [MountTree.links, nodes]
  have names : t'.nameOf = t.nameOf := funext fun p => by simp only [MountTree.nameOf, nodes]
  refine ⟨root ▸ h.rooted, links ▸ h.held, h.distinct, nodes ▸ h.live, count ▸ h.count, ?_⟩
  rw [names]
  exact h.names

/-- A write that keeps a node's links and its name keeps the shape. -/
theorem set (h : Shaped t w) (hn : t.nodes p = some n) {m : VfsTreeNode}
    (links : m.toLinks = n.toLinks) (name : m.name = n.name) : Shaped (t.set p m) w := by
  have sameLinks : (t.set p m).links = t.links := by
    funext x
    by_cases e : x = p
    · rw [e, MountTree.links_set_self, MountTree.links_some hn, links]
    · exact MountTree.links_set_ne e
  have sameNames : (t.set p m).nameOf = t.nameOf := by
    funext x
    by_cases e : x = p
    · rw [e, MountTree.nameOf_some MountTree.set_nodes_self, MountTree.nameOf_some hn, name]
    · simp only [MountTree.nameOf, MountTree.set_nodes_ne e]
  refine ⟨h.rooted, sameLinks ▸ h.held, h.distinct, fun x k hk => ?_, h.count, ?_⟩
  · by_cases e : x = p
    · exact e ▸ h.live p n hn
    · rw [MountTree.set_nodes_ne e] at hk
      exact h.live x k hk
  · rw [sameNames]
    exact h.names

/-- The names of siblings after one with a new name has been put among them. -/
theorem names_insert {names : NodePtr → FlString} {f : Forest NodePtr} {c : NodePtr}
    {pass : NodePtr → Bool} (h : (f.level.map names).Nodup)
    (new : ∀ x ∈ f.level, names x ≠ names c) : ((f.insert pass c).level.map names).Nodup := by
  have behind : (f.insert pass c).level.Perm (c :: f.level) := by
    rw [Forest.level_insert]
    refine List.perm_middle.trans ?_
    rw [List.takeWhile_append_dropWhile]
  refine (behind.map names).nodup_iff.mpr ?_
  refine List.nodup_cons.mpr ⟨fun hm => ?_, h⟩
  obtain ⟨x, hx, e⟩ := List.mem_map.mp hm
  exact new x hx e

end Shaped

/-- What adding a node does to the tree: the node is put among the children of `parent`,
and nothing else changes but links. -/
structure Grown (natural : NaturalCompare) (t t' : MountTree) (w w' : Forest NodePtr)
    (parent fresh : NodePtr) (n : VfsTreeNode) : Prop where
  shaped : Shaped t' w'
  shape : ∃ pass, w' = w.modify parent (Forest.insert pass fresh) ∧
    ∀ x m, x ≠ fresh → t.nodes x = some m →
      pass x = decide (0 < vfsTreeCompareNodes natural n m)
  here : t'.dataOf fresh = some n
  others : ∀ x, x ≠ fresh → t'.dataOf x = t.dataOf x
  closed : t'.closed = t.closed
  freed : t'.freed = t.freed

section
variable {t : MountTree} {w : Forest NodePtr} {parent fresh : NodePtr} {natural : NaturalCompare}

/-- The tree with one node more, which is not linked yet. -/
def MountTree.add (t : MountTree) (fresh : NodePtr) (n : VfsTreeNode) : MountTree :=
  { t with nodes := Function.update t.nodes fresh (some n), count := t.count + 1 }

theorem createNode_some {name : FlString} (free : t.nodes fresh = none) :
    t.createNode fresh name = some (t.add fresh { name := name }) := by
  simp only [MountTree.createNode, free, Option.isSome_none, Bool.false_eq_true, if_false,
    MountTree.add]

theorem update_added {n : VfsTreeNode} {fill : VfsTreeNode → VfsTreeNode} :
    (t.add fresh n).update fresh fill = some (t.add fresh (fill n)) := by
  simp only [MountTree.update, MountTree.add, Function.update_self, Option.map_some,
    Function.update_idem]

variable (natural) in
/-- A new node among the children of `parent`, when none of them has its name. -/
theorem Shaped.grow (h : Shaped t w) (hp : parent ∈ w.nodes) (free : t.nodes fresh = none)
    {n : VfsTreeNode} (alone : n.toLinks = {})
    (unnamed : ∀ x ∈ (w.children parent).level, t.nameOf x ≠ n.name) :
    ∃ t' w', (t.add fresh n).addChildNode natural parent fresh = some t' ∧
      Grown natural t t' w w' parent fresh n := by
  have new : fresh ∉ w.nodes := by
    intro hm
    obtain ⟨m, hm⟩ := h.node hm
    rw [free] at hm
    exact absurd hm (by simp)
  have elsewhere : ∀ x ∈ w.nodes, x ≠ fresh := fun x hx e => new (e ▸ hx)
  let t₁ := t.add fresh n
  have held₁ : w.Holds t₁.links none :=
    h.held.congr fun x hx => MountTree.links_set_ne (elsewhere x hx)
  have here₁ : t₁.nodes fresh = some n := MountTree.set_nodes_self
  obtain ⟨t', pass, added, same, held, judged⟩ := addChildNode_spec natural
    held₁ h.distinct hp new here₁ (congrArg Links.firstChild alone)
    (show _ ≤ t.count + 1 from Nat.le_succ_of_le (h.short parent))
  have data₁ : ∀ x, x ≠ fresh → t₁.dataOf x = t.dataOf x := fun x hx => by
    show ((t.set fresh n).nodes x).map _ = _
    rw [MountTree.set_nodes_ne hx]
    rfl
  have others : ∀ x, x ≠ fresh → t'.dataOf x = t.dataOf x := fun x hx =>
    (same.data x).trans (data₁ x hx)
  have nameHere : t'.nameOf fresh = n.name :=
    (MountTree.nameOf_congr (same.data fresh)).trans (MountTree.nameOf_some here₁)
  have nameOthers : ∀ x ∈ w.nodes, t'.nameOf x = t.nameOf x := fun x hx =>
    MountTree.nameOf_congr (others x (elsewhere x hx))
  have nodes := Forest.nodes_modify_insert pass fresh h.distinct hp
  refine ⟨t', _, added, ?_, ⟨pass, rfl, fun x m hx hm => ?_⟩, ?_, others, same.closed,
    same.freed⟩
  · refine ⟨?_, held, ?_, fun x m hm => ?_, ?_, ?_⟩
    · rw [Forest.level_modify, h.rooted, same.root]
      rfl
    · exact nodes.nodup_iff.mpr (List.nodup_cons.mpr ⟨new, h.distinct⟩)
    · refine nodes.mem_iff.mpr ?_
      by_cases e : x = fresh
      · exact e ▸ List.mem_cons_self
      · obtain ⟨k, hk⟩ := same.live hm
        exact List.mem_cons_of_mem _ (h.live x k ((MountTree.set_nodes_ne e).symm.trans hk))
    · rw [nodes.length_eq, List.length_cons, h.count, same.count]
      rfl
    · have names : w.Siblings fun L => (L.map t'.nameOf).Nodup := by
        refine h.names.mono fun L hL hd => ?_
        rw [List.map_congr_left fun x hx => nameOthers x (hL hx)]
        exact hd
      obtain ⟨kids, below⟩ := names.children hp
      refine names.modify h.distinct (Shaped.names_insert kids fun x hx => ?_)
        (below.insert List.nodup_nil)
      rw [nameHere, nameOthers x (w.children_subset parent ((w.children parent).level_subset hx))]
      exact unnamed x hx
  · exact judged x m hx ((MountTree.set_nodes_ne hx).trans hm)
  · rw [same.data fresh]
    show (t₁.nodes fresh).map _ = _
    rw [here₁, Option.map_some, VfsTreeNode.data, ← alone]

/-- Among siblings with different names a search by name decides. -/
theorem find_none_unnamed {f : Forest NodePtr} {names : NodePtr → FlString} {name : FlString}
    (h : f.level.find? (fun x => names x = name) = none) : ∀ x ∈ f.level, names x ≠ name := by
  intro x hx
  simpa using List.find?_eq_none.mp h x hx

variable (natural) in
/-- `ensure_child_node_exists` finds the child of that name or adds one. -/
theorem Shaped.ensureChild (h : Shaped t w) (hp : parent ∈ w.nodes) (free : t.nodes fresh = none)
    (segment : FlString) (mark : Bool) :
    (∃ c ∈ (w.children parent).level, t.nameOf c = segment ∧
      t.ensureChildNodeExists natural parent segment mark fresh = some (c, t)) ∨
    ∃ t' w', t.ensureChildNodeExists natural parent segment mark fresh = some (fresh, t') ∧
      Grown natural t t' w w' parent fresh { name := segment, isDirectory := mark } := by
  unfold MountTree.ensureChildNodeExists
  rw [h.findChildNode_eq hp]
  cases hf : (w.children parent).level.find? fun x => t.nameOf x = segment with
  | some c =>
      refine .inl ⟨c, List.mem_of_find?_eq_some hf, ?_, rfl⟩
      simpa using List.find?_some hf
  | none =>
      right
      obtain ⟨t', w', added, grown⟩ := h.grow natural hp free
        (n := { name := segment, isDirectory := mark }) rfl (find_none_unnamed hf)
      refine ⟨t', w', ?_, grown⟩
      have filled : (if mark then ({ name := segment, isDirectory := true } : VfsTreeNode)
          else { name := segment }) = { name := segment, isDirectory := mark } := by
        cases mark <;> rfl
      simp only [Option.bind_eq_bind, Option.bind_some, createNode_some free, update_added,
        filled, added]

variable (natural) in
/-- The section of the listing callback updates the child of that name or adds one. -/
theorem Shaped.listEntry (h : Shaped t w) (hp : parent ∈ w.nodes) (free : t.nodes fresh = none)
    (entry : Entry) :
    (∃ c ∈ (w.children parent).level, ∃ n, t.nodes c = some n ∧ n.name = entry.name ∧
      t.listEntry natural parent entry fresh =
        some (t.set c { n with size := entry.size, attributes := entry.attributes })) ∨
    ∃ t' w', t.listEntry natural parent entry fresh = some t' ∧
      Grown natural t t' w w' parent fresh
        { name := entry.name
          isDirectory := entry.isDirectory
          isArchive := entry.isArchive
          size := entry.size
          attributes := entry.attributes } := by
  unfold MountTree.listEntry
  rw [h.findChildNode_eq hp]
  cases hf : (w.children parent).level.find? fun x => t.nameOf x = entry.name with
  | some c =>
      have hc := List.mem_of_find?_eq_some hf
      obtain ⟨n, hn⟩ := h.node (w.children_subset parent ((w.children parent).level_subset hc))
      have name : t.nameOf c = entry.name := by simpa using List.find?_some hf
      refine .inl ⟨c, hc, n, hn, (MountTree.nameOf_some hn).symm.trans name, ?_⟩
      exact MountTree.update_some hn
  | none =>
      right
      obtain ⟨t', w', added, grown⟩ := h.grow natural hp free
        (n := { name := entry.name, isDirectory := entry.isDirectory, isArchive := entry.isArchive,
                size := entry.size, attributes := entry.attributes }) rfl (find_none_unnamed hf)
      refine ⟨t', w', ?_, grown⟩
      simp only [Option.bind_eq_bind, Option.bind_some, createNode_some free, update_added, added]

end
end FlowiVfs.Tree
