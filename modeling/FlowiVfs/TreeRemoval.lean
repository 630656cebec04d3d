import FlowiVfs.TreeShape

/-!
# Removing a subtree

`vfs_tree_remove_node_by_path` frees the children of a node before the node itself, each
of them unlinked from the front of a list that is being iterated. Emptying a node is
described exactly, by induction on the forest of its children; unlinking the node itself
then changes one link in its parent or in the sibling in front of it.
-/
namespace FlowiVfs.Tree

open Linked

namespace MountTree

variable (t : MountTree)

/-- The close calls that freeing a node makes. -/
def closesOf (p : NodePtr) : List OpenHandle := ((t.nodes p).map VfsTreeNode.closes).getD []

/-- The tree without one node, which has been closed. -/
def drop (p : NodePtr) (n : VfsTreeNode) : MountTree :=
  { t with
    nodes := Function.update t.nodes p none
    count := t.count - 1
    closed := t.closed ++ n.closes
    freed := t.freed ++ [p] }

/-- The tree after the children of `q`, whose node is `m`, have been removed. -/
def purge (q : NodePtr) (m : VfsTreeNode) (kids : Forest NodePtr) : MountTree :=
  { t with
    nodes := fun x =>
      if x ∈ kids.nodes then none
      else if x = q then some { m with firstChild := none }
      else t.nodes x
    count := t.count - kids.nodes.length
    closed := t.closed ++ kids.postorder.flatMap t.closesOf
    freed := t.freed ++ kids.postorder }

variable {t} {p q : NodePtr} {n m : VfsTreeNode}

theorem purge_closed (kids : Forest NodePtr) :
    (t.purge q m kids).closed = t.closed ++ kids.postorder.flatMap t.closesOf := rfl

theorem purge_freed (kids : Forest NodePtr) :
    (t.purge q m kids).freed = t.freed ++ kids.postorder := rfl

theorem purge_count (kids : Forest NodePtr) :
    (t.purge q m kids).count = t.count - kids.nodes.length := rfl

theorem drop_closed : (t.drop p n).closed = t.closed ++ n.closes := rfl

theorem drop_freed : (t.drop p n).freed = t.freed ++ [p] := rfl

theorem drop_count : (t.drop p n).count = t.count - 1 := rfl

theorem drop_nodes_ne {x : NodePtr} (h : x ≠ p) : (t.drop p n).nodes x = t.nodes x :=
  Function.update_of_ne h ..

theorem drop_nodes_self : (t.drop p n).nodes p = none := Function.update_self ..

theorem closesOf_some (h : t.nodes p = some n) : t.closesOf p = n.closes := by
  simp only [closesOf, h, Option.map_some, Option.getD_some]

theorem closeNodeResources_some (h : t.nodes p = some n) :
    t.closeNodeResources p =
      some { t.set p n.closedNode with closed := t.closed ++ n.closes } := by
  simp only [closeNodeResources, h, update_some h, Option.bind_eq_bind, Option.bind_some]
  rfl

theorem findPrevious_eq {f : Forest NodePtr} {parent : Option NodePtr} {left : ℕ}
    (h : f.Holds t.links parent) (enough : f.level.length ≤ left) :
    t.findPrevious p left f.start = some (f.before p) := by
  induction f generalizing left with
  | nil => simp [findPrevious, Forest.start, Forest.before]
  | cons x kids rest _ ih =>
      obtain ⟨left, rfl⟩ : ∃ k, left = k + 1 := by
        cases left with
        | zero => exact absurd enough (by simp [Forest.level])
        | succ k => exact ⟨k, rfl⟩
      obtain ⟨n, hn, linked⟩ := Option.map_eq_some_iff.mp h.1
      have next : n.nextSibling = rest.start := congrArg Links.nextSibling linked
      have shorter : rest.level.length ≤ left := by
        simp only [Forest.level, List.length_cons] at enough
        omega
      rw [Forest.start_cons, findPrevious, hn, Option.bind_eq_bind, Option.bind_some, next,
        ih h.2.2 shorter, Forest.before]
      split_ifs <;> rfl

theorem close_then_free (h : t.nodes p = some n) :
    (t.closeNodeResources p).bind (fun t => t.freeNode p) = some (t.drop p n) := by
  rw [closeNodeResources_some h, Option.bind_some]
  simp only [freeNode, set, Function.update_self, Option.map_some, Function.update_idem, drop]

/-- A node that is the first child of its parent is unlinked from it, closed and freed. -/
theorem removeFirst (hp : t.nodes p = some n) (hq : t.nodes q = some m) (apart : p ≠ q)
    (parent : n.parent = some q) (first : m.firstChild = some p) :
    t.removeNodeUnlocked p = some ((t.set q { m with firstChild := n.nextSibling }).drop p n) := by
  have still : (t.set q { m with firstChild := n.nextSibling }).nodes p = some n :=
    (set_nodes_ne apart).trans hp
  simp only [removeNodeUnlocked, hp, hq, parent, first, if_true, Option.bind_eq_bind,
    Option.bind_some, update_some hq]
  exact close_then_free still

/-- A node behind another child is unlinked from that one. -/
theorem removeBehind {f : Forest NodePtr} {a : NodePtr} {b : VfsTreeNode}
    (hp : t.nodes p = some n) (hq : t.nodes q = some m) (parent : n.parent = some q)
    (kids : f.Holds t.links (some q)) (enough : f.level.length ≤ t.count)
    (first : m.firstChild = f.start) (notFirst : f.start ≠ some p)
    (before : f.before p = some a) (ha : t.nodes a = some b) (apart : p ≠ a) :
    t.removeNodeUnlocked p = some ((t.set a { b with nextSibling := n.nextSibling }).drop p n) := by
  have still : (t.set a { b with nextSibling := n.nextSibling }).nodes p = some n :=
    (set_nodes_ne apart).trans hp
  simp only [removeNodeUnlocked, hp, hq, parent, first, if_neg notFirst, Option.bind_eq_bind,
    Option.bind_some, findPrevious_eq kids enough, before, update_some ha]
  exact close_then_free still

theorem purge_nil (hq : t.nodes q = some m) (childless : m.firstChild = none) :
    t.purge q m .nil = t := by
  have same : ({ m with firstChild := none } : VfsTreeNode) = m := by rw [← childless]
  refine MountTree.ext (funext fun x => ?_) rfl rfl (List.append_nil _) (List.append_nil _)
  simp only [purge, Forest.nodes, List.not_mem_nil, if_false, same]
  split_ifs with e
  · rw [e, hq]
  · rfl

theorem purge_nodes_ne {kids : Forest NodePtr} {x : NodePtr} (out : x ∉ kids.nodes)
    (other : x ≠ q) : (t.purge q m kids).nodes x = t.nodes x := by
  simp only [purge, if_neg out, if_neg other]

/-- One child removed, then the others. -/
theorem purge_cons {kids rest : Forest NodePtr} (hn : t.nodes p = some n)
    (distinct : (Forest.cons p kids rest).nodes.Nodup)
    (outside : q ∉ (Forest.cons p kids rest).nodes) :
    (((t.purge p n kids).set q { m with firstChild := n.nextSibling }).drop p
        { n with firstChild := none }).purge q { m with firstChild := n.nextSibling } rest =
      t.purge q m (.cons p kids rest) := by
  obtain ⟨hpk, hpr, dk, dr, apart⟩ := Forest.nodup_cons distinct
  have notSelf : q ≠ p := fun e => outside (e ▸ List.mem_cons_self)
  have notKids : q ∉ kids.nodes := fun hm =>
    outside (List.mem_cons_of_mem _ (List.mem_append_left _ hm))
  generalize hu : (t.purge p n kids).set q { m with firstChild := n.nextSibling } = u
  have uNodes : ∀ x, x ≠ q → x ≠ p → x ∉ kids.nodes → u.nodes x = t.nodes x := by
    intro x hq hp hk
    rw [← hu, set_nodes_ne hq, purge_nodes_ne hk hp]
  have restNodes : ∀ x ∈ rest.nodes,
      (u.drop p { n with firstChild := none }).nodes x = t.nodes x := by
    intro x hx
    have hxp : x ≠ p := fun e => hpr (e ▸ hx)
    have hxq : x ≠ q := fun e =>
      outside (e ▸ List.mem_cons_of_mem _ (List.mem_append_right _ hx))
    rw [drop_nodes_ne hxp, uNodes x hxq hxp fun h => apart h hx]
  have counted : u.count = t.count - kids.nodes.length := by rw [← hu]; rfl
  have closed : u.closed = t.closed ++ kids.postorder.flatMap t.closesOf := by rw [← hu]; rfl
  have freed : u.freed = t.freed ++ kids.postorder := by rw [← hu]; rfl
  refine MountTree.ext (funext fun x => ?_) ?_ (by rw [← hu]; rfl) ?_ ?_
  · by_cases inRest : x ∈ rest.nodes
    · have inAll : x ∈ (Forest.cons p kids rest).nodes :=
        List.mem_cons_of_mem _ (List.mem_append_right _ inRest)
      simp only [purge, if_pos inRest, if_pos inAll]
    · by_cases self : x = q
      · simp only [purge, if_neg inRest, if_pos self, if_neg (self ▸ outside)]
      · by_cases here : x = p
        · have inAll : x ∈ (Forest.cons p kids rest).nodes := here ▸ List.mem_cons_self
          rw [purge_nodes_ne inRest self, here, drop_nodes_self]
          simp only [purge, if_pos (here ▸ inAll)]
        · by_cases inKids : x ∈ kids.nodes
          · have inAll : x ∈ (Forest.cons p kids rest).nodes :=
              List.mem_cons_of_mem _ (List.mem_append_left _ inKids)
            rw [purge_nodes_ne inRest self, drop_nodes_ne here, ← hu, set_nodes_ne self]
            simp only [purge, if_pos inKids, if_pos inAll]
          · have notAll : x ∉ (Forest.cons p kids rest).nodes := by
              simp [Forest.nodes, here, inKids, inRest]
            rw [purge_nodes_ne inRest self, drop_nodes_ne here, uNodes x self here inKids,
              purge_nodes_ne notAll self]
  · rw [purge_count, purge_count, drop_count, counted]
    simp only [Forest.nodes, List.length_cons, List.length_append]
    omega
  · have closes : rest.postorder.flatMap (u.drop p { n with firstChild := none }).closesOf =
        rest.postorder.flatMap t.closesOf := by
      refine List.flatMap_congr fun x hx => ?_
      simp only [closesOf, restNodes x (rest.postorder_perm.mem_iff.mp hx)]
    rw [purge_closed, purge_closed, closes, drop_closed, closed]
    simp only [Forest.postorder, List.flatMap_append, List.flatMap_cons, closesOf_some hn,
      List.append_assoc]
    rfl
  · rw [purge_freed, purge_freed, drop_freed, freed]
    simp only [Forest.postorder, List.append_assoc, List.singleton_append]

/-- The children of a node, removed from the front. -/
theorem removeChildren_eq {kids : Forest NodePtr} {left : ℕ} (held : kids.Holds t.links (some q))
    (distinct : kids.nodes.Nodup) (outside : q ∉ kids.nodes) (hq : t.nodes q = some m)
    (first : m.firstChild = kids.start) (enough : 2 * kids.nodes.length ≤ left) :
    removeChildren left kids.start t = some (t.purge q m kids) := by
  induction kids generalizing t q m left with
  | nil =>
      rw [purge_nil hq first]
      cases left <;> rfl
  | cons p kids rest ihk ihr =>
      obtain ⟨hp, hk, hr⟩ := held
      obtain ⟨hpk, hpr, dk, dr, apart⟩ := Forest.nodup_cons distinct
      simp only [Forest.nodes, List.length_cons, List.length_append] at enough
      obtain ⟨left, rfl⟩ : ∃ k, left = k + 2 := ⟨left - 2, by omega⟩
      obtain ⟨n, hn, linked⟩ := Option.map_eq_some_iff.mp hp
      have parent : n.parent = some q := congrArg Links.parent linked
      have down : n.firstChild = kids.start := congrArg Links.firstChild linked
      have next : n.nextSibling = rest.start := congrArg Links.nextSibling linked
      have notSelf : q ≠ p := fun e => outside (e ▸ List.mem_cons_self)
      have emptied := ihk hk dk hpk hn down (show 2 * kids.nodes.length ≤ left by omega)
      have notKids : q ∉ kids.nodes := fun hm =>
        outside (List.mem_cons_of_mem _ (List.mem_append_left _ hm))
      have here : (t.purge p n kids).nodes p = some { n with firstChild := none } := by
        simp only [purge, if_neg hpk, if_true]
      have there : (t.purge p n kids).nodes q = some m :=
        (purge_nodes_ne notKids notSelf).trans hq
      have again : (t.purge p n kids).set p { n with firstChild := none } = t.purge p n kids :=
        MountTree.ext (Function.update_eq_self_iff.mpr here.symm) rfl rfl rfl rfl
      have removed := removeFirst here there (Ne.symm notSelf) parent
        (first.trans (Forest.start_cons p kids rest))
      rw [← purge_cons hn distinct outside]
      generalize hu : (t.purge p n kids).set q { m with firstChild := n.nextSibling } = u
        at removed
      have uNodes : ∀ x ∈ rest.nodes,
          (u.drop p { n with firstChild := none }).nodes x = t.nodes x := by
        intro x hx
        have hxp : x ≠ p := fun e => hpr (e ▸ hx)
        have hxq : x ≠ q := fun e =>
          outside (e ▸ List.mem_cons_of_mem _ (List.mem_append_right _ hx))
        rw [drop_nodes_ne hxp, ← hu, set_nodes_ne hxq, purge_nodes_ne (fun h => apart h hx) hxp]
      have heldRest : rest.Holds (u.drop p { n with firstChild := none }).links (some q) :=
        hr.congr fun x hx => by simp only [links, uNodes x hx]
      have hereQ : (u.drop p { n with firstChild := none }).nodes q =
          some { m with firstChild := n.nextSibling } := by
        rw [drop_nodes_ne notSelf, ← hu, set_nodes_self]
      have others := ihr heldRest dr (fun h => outside
        (List.mem_cons_of_mem _ (List.mem_append_right _ h))) hereQ next
        (show 2 * rest.nodes.length ≤ left + 1 by omega)
      rw [Forest.start_cons, removeChildren, hn, Option.bind_eq_bind, Option.bind_some,
        removeNodeRecursiveUnlocked, hn]
      rw [← next] at others
      simp only [Option.bind_eq_bind, Option.bind_some, down, emptied]
      rw [update_some here, Option.bind_some]
      simp only [again, removed, Option.bind_some, others]

end MountTree

namespace VfsTreeNode

/-- A node whose links to `p` lead to `next` instead. -/
def relinked (p : NodePtr) (next : Option NodePtr) (n : VfsTreeNode) : VfsTreeNode :=
  { n with
    firstChild := if n.firstChild = some p then next else n.firstChild
    nextSibling := if n.nextSibling = some p then next else n.nextSibling }

theorem relinked_other {p : NodePtr} {next : Option NodePtr} {n : VfsTreeNode}
    (first : n.firstChild ≠ some p) (sibling : n.nextSibling ≠ some p) :
    n.relinked p next = n := by
  simp only [relinked, if_neg first, if_neg sibling]

theorem relinked_first {p : NodePtr} {next : Option NodePtr} {n : VfsTreeNode}
    (first : n.firstChild = some p) (sibling : n.nextSibling ≠ some p) :
    n.relinked p next = { n with firstChild := next } := by
  simp only [relinked, if_pos first, if_neg sibling]

theorem relinked_behind {p : NodePtr} {next : Option NodePtr} {n : VfsTreeNode}
    (first : n.firstChild ≠ some p) (sibling : n.nextSibling = some p) :
    n.relinked p next = { n with nextSibling := next } := by
  simp only [relinked, if_neg first, if_pos sibling]

end VfsTreeNode

/-- A tree without one of its nodes: the links to that node lead behind it. -/
structure Unlinked (t t' : MountTree) (p : NodePtr) (n : VfsTreeNode) : Prop where
  gone : t'.nodes p = none
  others : ∀ x, x ≠ p → t'.nodes x = (t.nodes x).map (VfsTreeNode.relinked p n.nextSibling)
  root : t'.root = t.root
  count : t'.count = t.count - 1
  closed : t'.closed = t.closed ++ n.closes
  freed : t'.freed = t.freed ++ [p]

namespace Shaped

open MountTree

variable {t : MountTree} {w : Forest NodePtr} {p q : NodePtr} {n m : VfsTreeNode}

theorem purge_data (p : NodePtr) (kids : Forest NodePtr) (hn : t.nodes p = some n)
    {x : NodePtr} (out : x ∉ kids.nodes) : (t.purge p n kids).dataOf x = t.dataOf x := by
  by_cases e : x = p
  · subst e
    simp only [dataOf, purge, if_neg out, if_true, hn, Option.map_some, VfsTreeNode.data]
  · simp only [dataOf, purge_nodes_ne out e]

/-- A node without the subtrees of its children. -/
theorem emptied (h : Shaped t w) (hn : t.nodes p = some n) :
    Shaped (t.purge p n (w.children p)) (w.modify p fun _ => .nil) := by
  have hp := h.live p n hn
  have notBelow : p ∉ (w.children p).nodes := Forest.not_mem_children h.distinct
  have nodes := Forest.nodes_modify (g := fun _ => .nil) h.distinct hp
  rw [show (Forest.nil : Forest NodePtr).nodes = [] from rfl, List.append_nil] at nodes
  have both := nodes.nodup_iff.mpr h.distinct
  obtain ⟨distinct, -, apart⟩ := List.nodup_append'.mp both
  refine ⟨?_, ?_, distinct, fun x k hk => ?_, ?_, ?_⟩
  · rw [Forest.level_modify, h.rooted]
    rfl
  · refine h.held.modify h.distinct hp (fun x hx other out => ?_) (fun l hl => ?_) trivial
    · simp only [links, purge_nodes_ne out other]
    · rw [links_some hn] at hl
      cases hl
      simp only [links, purge, if_neg notBelow, if_true, Option.map_some, Forest.start]
  · by_cases inside : x ∈ (w.children p).nodes
    · simp only [purge, if_pos inside] at hk
      exact absurd hk (by simp)
    · have live : x ∈ w.nodes := by
        by_cases e : x = p
        · exact e ▸ hp
        · rw [purge_nodes_ne inside e] at hk
          exact h.live x k hk
      exact (List.mem_append.mp (nodes.mem_iff.mpr live)).resolve_right inside
  · have lengths := nodes.length_eq
    rw [List.length_append, h.count] at lengths
    rw [purge_count]
    omega
  · have kept : (w.modify p fun _ => .nil).Siblings fun L => (L.map t.nameOf).Nodup :=
      h.names.modify h.distinct List.nodup_nil trivial
    refine kept.mono fun L hL distinct => ?_
    rw [List.map_congr_left fun x hx => nameOf_congr (purge_data p _ hn (apart (hL hx)))]
    exact distinct

/-- Only the parent of a node has it as its first child. -/
theorem parent_of_first (h : Shaped t w) (hn : t.nodes p = some n) (hm : t.nodes q = some m)
    (first : m.firstChild = some p) : n.parent = some q := by
  have start := (h.firstChild hm).symm.trans first
  obtain ⟨l, hl, parent⟩ := (h.held.children (h.live q m hm)).parent_of_level
    (Forest.mem_level_of_start start)
  rw [links_some hn] at hl
  cases hl
  exact parent

/-- Only the sibling in front of a node has it as its next sibling. -/
theorem before_of_next {x : NodePtr} {k : VfsTreeNode} (h : Shaped t w)
    (hp : p ∈ (w.children q).level) (hq : q ∈ w.nodes) (hx : t.nodes x = some k)
    (next : k.nextSibling = some p) : (w.children q).before p = some x := by
  have inside := h.live x k hx
  obtain ⟨-, l, hl, same⟩ := h.held.sibling_parent inside (links_some hx) next
  obtain ⟨l', hl', up⟩ := (h.held.children hq).parent_of_level hp
  rw [hl] at hl'
  cases hl'
  have deep : x ∉ w.level := by
    intro top
    obtain ⟨l', hl', alone⟩ := h.held.parent_of_level top
    rw [links_some hx] at hl'
    cases hl'
    rw [← same, up] at alone
    exact absurd alone (by simp)
  obtain ⟨q', -, child, l', hl', up'⟩ := h.held.parent_of h.distinct inside deep
  rw [links_some hx] at hl'
  cases hl'
  have e : q' = q := by
    rw [← same, up] at up'
    exact (Option.some.inj up').symm
  subst e
  obtain ⟨l', hl', after⟩ := (h.held.children hq).after_next child
  rw [links_some hx] at hl'
  cases hl'
  exact Forest.before_of_after (Forest.nodup_level (Forest.nodup_children h.distinct)) child
    (after.symm.trans next)

section
variable {t' : MountTree} (h : Shaped t w) (hn : t.nodes p = some n)
  (hq : q ∈ w.nodes) (child : p ∈ (w.children q).level)
include h hn hq child

theorem parent_eq : n.parent = some q := by
  obtain ⟨l, hl, up⟩ := (h.held.children hq).parent_of_level child
  rw [links_some hn] at hl
  cases hl
  exact up

theorem not_first {x : NodePtr} {k : VfsTreeNode} (hx : t.nodes x = some k) (other : x ≠ q) :
    k.firstChild ≠ some p := by
  intro first
  have up := h.parent_of_first hn hx first
  rw [h.parent_eq hn hq child] at up
  exact other (Option.some.inj up).symm

/-- Taking a node out of the list that it is in. -/
theorem unlinked (done : Unlinked t t' p n) (childless : w.children p = .nil) :
    Shaped t' (w.remove p) := by
  have hp := h.live p n hn
  have distinctKids := Forest.nodup_children (q := q) h.distinct
  have notSelf : q ∉ (w.children q).nodes := Forest.not_mem_children h.distinct
  have notTop : p ∉ w.level := by
    intro top
    obtain ⟨l, hl, alone⟩ := h.held.parent_of_level top
    rw [links_some hn] at hl
    cases hl
    rw [h.parent_eq hn hq child] at alone
    exact absurd alone (by simp)
  obtain ⟨l, hl, next⟩ := (h.held.children hq).after_next child
  rw [links_some hn] at hl
  cases hl
  have kept : ∀ x ∈ w.nodes, x ≠ p → x ≠ q → (w.children q).before p ≠ some x →
      t'.links x = t.links x := by
    intro x hx notP notQ notBefore
    obtain ⟨k, hk⟩ := h.node hx
    rw [links, done.others x notP, hk, Option.map_some, VfsTreeNode.relinked_other
      (h.not_first hn hq child hk notQ)
      fun sibling => notBefore (h.before_of_next child hq hk sibling)]
    exact (links_some hk).symm
  have nodes := Forest.nodes_remove h.distinct hp
  rw [childless] at nodes
  have parts := List.nodup_cons.mp (nodes.nodup_iff.mp h.distinct)
  have shape := Forest.remove_eq (g := id) h.distinct hq child
  rw [Forest.modify_id] at shape
  refine ⟨?_, ?_, parts.2, fun x k hk => ?_, ?_, ?_⟩
  · rw [Forest.level_remove h.distinct, List.erase_of_not_mem notTop, h.rooted, done.root]
  · rw [← shape]
    refine h.held.modify h.distinct hq (fun x hx notQ out => ?_) (fun l hl => ?_) ?_
    · refine kept x hx (fun e => ?_) notQ fun before => ?_
      · exact out (e ▸ (w.children q).level_subset child)
      · exact out ((w.children q).level_subset (Forest.before_mem before))
    · obtain ⟨m, hm⟩ := h.node hq
      rw [links_some hm] at hl
      cases hl
      have notP : q ≠ p := fun e => notSelf (e ▸ (w.children q).level_subset child)
      have notNext : m.nextSibling ≠ some p := fun sibling =>
        notSelf ((w.children q).level_subset (Forest.before_mem
          (h.before_of_next child hq hm sibling)))
      have first := h.firstChild hm
      rw [links, done.others q notP, hm, Option.map_some, Option.map_some]
      by_cases front : (w.children q).start = some p
      · rw [VfsTreeNode.relinked_first (first.trans front) notNext, next,
          Forest.start_erase_first front]
      · rw [VfsTreeNode.relinked_other (fun e => front (first.symm.trans e)) notNext,
          Forest.start_erase front, ← first]
    · refine (h.held.children hq).erase distinctKids child (fun x hx notBefore => ?_)
        fun a l before hl => ?_
      · have inside := Forest.erase_subset p _ hx
        refine kept x (w.children_subset q inside) (fun e => ?_) (fun e => notSelf (e ▸ inside))
          notBefore
        subst e
        have split := Forest.nodes_erase child distinctKids
        have apart := List.nodup_cons.mp (split.nodup_iff.mp distinctKids)
        exact apart.1 (List.mem_append_right _ hx)
      · have inside := (w.children q).level_subset (Forest.before_mem before)
        obtain ⟨b, hb⟩ := h.node (w.children_subset q inside)
        rw [links_some hb] at hl
        cases hl
        have notP : a ≠ p := Forest.before_ne (Forest.nodup_level distinctKids) before
        rw [links, done.others a notP, hb, Option.map_some, Option.map_some]
        obtain ⟨l, hl, linked⟩ := (h.held.children hq).before_next before
        rw [links_some hb] at hl
        cases hl
        rw [VfsTreeNode.relinked_behind
          (h.not_first hn hq child hb fun e => notSelf (e ▸ inside)) linked, next]
  · by_cases e : x = p
    · rw [e, done.gone] at hk
      exact absurd hk (by simp)
    · rw [done.others x e] at hk
      obtain ⟨k', hk', -⟩ := Option.map_eq_some_iff.mp hk
      have all := nodes.mem_iff.mp (h.live x k' hk')
      exact (List.mem_cons.mp all).resolve_left e
  · have lengths := nodes.length_eq
    rw [h.count] at lengths
    rw [done.count, lengths]
    simp [Forest.nodes]
  · refine (h.names.remove h.distinct fun L hL => ?_).mono fun L hL distinct => ?_
    · exact hL.sublist ((List.erase_sublist ..).map _)
    · have same : ∀ x ∈ L, t'.nameOf x = t.nameOf x := by
        intro x hx
        have notP : x ≠ p := fun e => parts.1 (e ▸ hL hx)
        rw [nameOf, done.others x notP, Option.map_map]
        rfl
      rw [List.map_congr_left same]
      exact distinct

end

/-- `remove_node_unlocked` takes out a node that has no children left. -/
theorem removeNode (h : Shaped t w) (hn : t.nodes p = some n) (notRoot : p ≠ t.root)
    (childless : w.children p = .nil) :
    ∃ t', t.removeNodeUnlocked p = some t' ∧ Unlinked t t' p n ∧ Shaped t' (w.remove p) := by
  have hp := h.live p n hn
  have deep : p ∉ w.level := by
    rw [h.rooted]
    simpa using notRoot
  obtain ⟨q, hq, child, -⟩ := h.held.parent_of h.distinct hp deep
  have parent := h.parent_eq hn hq child
  obtain ⟨m, hm⟩ := h.node hq
  have notSelf : q ∉ (w.children q).nodes := Forest.not_mem_children h.distinct
  have apart : p ≠ q := fun e => notSelf (e ▸ (w.children q).level_subset child)
  have distinctKids := Forest.nodup_level (Forest.nodup_children (q := q) h.distinct)
  have first := h.firstChild hm
  suffices found : ∃ t', t.removeNodeUnlocked p = some t' ∧ Unlinked t t' p n by
    obtain ⟨t', removed, done⟩ := found
    exact ⟨t', removed, done, h.unlinked hn hq child done childless⟩
  cases before : (w.children q).before p with
  | none =>
      have front := (Forest.before_eq_none distinctKids child).mp before
      refine ⟨_, removeFirst hn hm apart parent (first.trans front), drop_nodes_self,
        fun x notP => ?_, rfl, rfl, rfl, rfl⟩
      have notNext : ∀ k, t.nodes x = some k → k.nextSibling ≠ some p := fun k hk sibling => by
        rw [h.before_of_next child hq hk sibling] at before
        exact absurd before (by simp)
      rw [drop_nodes_ne notP]
      by_cases e : x = q
      · subst e
        rw [set_nodes_self, hm, Option.map_some,
          VfsTreeNode.relinked_first (first.trans front) (notNext m hm)]
      · rw [set_nodes_ne e]
        cases hk : t.nodes x with
        | none => rfl
        | some k =>
            rw [Option.map_some,
              VfsTreeNode.relinked_other (h.not_first hn hq child hk e) (notNext k hk)]
  | some a =>
      have inside := (w.children q).level_subset (Forest.before_mem before)
      obtain ⟨b, hb⟩ := h.node (w.children_subset q inside)
      have behind : (w.children q).start ≠ some p := fun front => by
        rw [(Forest.before_eq_none distinctKids child).mpr front] at before
        exact absurd before (by simp)
      have notP : a ≠ p := Forest.before_ne distinctKids before
      refine ⟨_, removeBehind hn hm parent (h.held.children hq) (h.short q) first behind before hb
        (Ne.symm notP), drop_nodes_self, fun x notP => ?_, rfl, rfl, rfl, rfl⟩
      rw [drop_nodes_ne notP]
      by_cases e : x = a
      · subst e
        obtain ⟨l, hl, linked⟩ := (h.held.children hq).before_next before
        rw [links_some hb] at hl
        cases hl
        rw [set_nodes_self, hb, Option.map_some, VfsTreeNode.relinked_behind
          (h.not_first hn hq child hb fun e => notSelf (e ▸ inside)) linked]
      · rw [set_nodes_ne e]
        cases hk : t.nodes x with
        | none => rfl
        | some k =>
            have notFirst : k.firstChild ≠ some p := by
              by_cases e : x = q
              · subst e
                rw [hm] at hk
                cases hk
                exact fun front => behind (first.symm.trans front)
              · exact h.not_first hn hq child hk e
            have notNext : k.nextSibling ≠ some p := fun sibling => e <| by
              rw [h.before_of_next child hq hk sibling] at before
              exact Option.some.inj before
            rw [Option.map_some, VfsTreeNode.relinked_other notFirst notNext]

end Shaped

/-- A tree without the subtree at one of its nodes. -/
structure Pruned (t t' : MountTree) (p : NodePtr) (n : VfsTreeNode) (kids : Forest NodePtr) :
    Prop where
  gone : ∀ x ∈ p :: kids.nodes, t'.nodes x = none
  others : ∀ x ∉ p :: kids.nodes,
    t'.nodes x = (t.nodes x).map (VfsTreeNode.relinked p n.nextSibling)
  root : t'.root = t.root
  closed : t'.closed = t.closed ++ (kids.postorder ++ [p]).flatMap t.closesOf
  freed : t'.freed = t.freed ++ (kids.postorder ++ [p])

namespace Shaped

open MountTree

variable {t : MountTree} {w : Forest NodePtr} {p : NodePtr} {n : VfsTreeNode}

/-- `remove_node_recursive_unlocked` takes out a node with everything below it. -/
theorem removeSubtree (h : Shaped t w) (hn : t.nodes p = some n) (notRoot : p ≠ t.root) :
    ∃ t', removeNodeRecursiveUnlocked (2 * t.count) p t = some t' ∧
      Pruned t t' p n (w.children p) ∧ Shaped t' (w.remove p) := by
  have hp := h.live p n hn
  have notBelow : p ∉ (w.children p).nodes := Forest.not_mem_children h.distinct
  have size := (Forest.nodes_remove h.distinct hp).length_eq
  rw [h.count, List.length_cons, List.length_append] at size
  obtain ⟨left, enough⟩ : ∃ k, 2 * t.count = k + 1 := ⟨2 * t.count - 1, by omega⟩
  have children := removeChildren_eq (h.held.children hp) (Forest.nodup_children h.distinct)
    notBelow hn (h.firstChild hn) (show 2 * (w.children p).nodes.length ≤ left by omega)
  generalize hu : t.purge p n (w.children p) = u at children
  have shaped : Shaped u (w.modify p fun _ => .nil) := hu ▸ h.emptied hn
  have here : u.nodes p = some { n with firstChild := none } := by
    rw [← hu]
    simp only [purge, if_neg notBelow, if_true]
  have again : u.set p { n with firstChild := none } = u :=
    MountTree.ext (Function.update_eq_self_iff.mpr here.symm) rfl rfl rfl rfl
  have childless : (w.modify p fun _ => .nil).children p = .nil :=
    Forest.children_modify h.distinct hp
  obtain ⟨t', removed, done, result⟩ := shaped.removeNode here (hu ▸ notRoot) childless
  rw [Forest.remove_modify] at result
  refine ⟨t', ?_, ⟨fun x hx => ?_, fun x hx => ?_, ?_, ?_, ?_⟩, result⟩
  · rw [enough, removeNodeRecursiveUnlocked, hn, Option.bind_eq_bind, Option.bind_some,
      h.firstChild hn]
    simp only [Option.bind_eq_bind, Option.bind_some, children]
    rw [update_some here, Option.bind_some]
    simp only [again, removed]
  · by_cases e : x = p
    · exact e ▸ done.gone
    · have below := (List.mem_cons.mp hx).resolve_left e
      rw [done.others x e, ← hu]
      simp only [purge, if_pos below, Option.map_none]
  · obtain ⟨notP, out⟩ := not_or.mp fun h => hx (List.mem_cons.mpr h)
    rw [done.others x notP, ← hu, purge_nodes_ne out notP]
  · rw [done.root, ← hu]
    rfl
  · rw [done.closed, ← hu, purge_closed, List.flatMap_append, List.flatMap_singleton,
      closesOf_some hn, List.append_assoc]
    rfl
  · rw [done.freed, ← hu, purge_freed, List.append_assoc]

theorem findPath_some (h : Shaped t w) (hp : p ∈ w.nodes) (segments : List FlString) :
    t.findPath p segments = some none ∨
      ∃ q ∈ w.nodes, t.findPath p segments = some (some q) := by
  induction segments generalizing p with
  | nil => exact .inr ⟨p, hp, rfl⟩
  | cons segment rest ih =>
      simp only [findPath, h.findChildNode_eq hp, Option.bind_eq_bind, Option.bind_some]
      cases hf : (w.children p).level.find? fun x => t.nameOf x = segment with
      | none => exact .inl rfl
      | some c =>
          have hc := List.mem_of_find?_eq_some hf
          exact ih (w.children_subset p ((w.children p).level_subset hc))

/-- A path leads from a node to itself and to the nodes below it. -/
theorem findPath_iff {q n : NodePtr} (h : Shaped t w) (hq : q ∈ w.nodes) :
    (∃ segments, t.findPath q segments = some (some n)) ↔ n ∈ q :: (w.children q).nodes := by
  constructor
  · rintro ⟨segments, leads⟩
    induction segments generalizing q with
    | nil =>
        cases leads
        exact List.mem_cons_self
    | cons segment rest ih =>
        rw [MountTree.findPath, h.findChildNode_eq hq, Option.bind_eq_bind, Option.bind_some] at leads
        cases hf : (w.children q).level.find? fun x => t.nameOf x = segment with
        | none =>
            rw [hf] at leads
            cases leads
        | some c =>
            rw [hf] at leads
            have hc := (w.children q).level_subset (List.mem_of_find?_eq_some hf)
            refine List.mem_cons_of_mem _ ?_
            rcases List.mem_cons.mp (ih (w.children_subset q hc) leads) with rfl | below
            · exact hc
            · rw [← Forest.children_children h.distinct hc] at below
              exact (w.children q).children_subset c below
  · obtain ⟨size, bound⟩ : ∃ k, (w.children q).nodes.length ≤ k := ⟨_, Nat.le_refl _⟩
    induction size generalizing q with
    | zero =>
        intro hn
        rw [List.length_eq_zero_iff.mp (Nat.le_zero.mp bound)] at hn
        exact ⟨[], by rw [List.mem_singleton.mp hn]; rfl⟩
    | succ size ih =>
        intro hn
        rcases List.mem_cons.mp hn with rfl | hn
        · exact ⟨[], rfl⟩
        have distinct := Forest.nodup_children (q := q) h.distinct
        obtain ⟨c, hc, at_or_below⟩ := (Forest.mem_nodes_iff distinct).mp hn
        have inside := (w.children q).level_subset hc
        rw [Forest.children_children h.distinct inside] at at_or_below
        have smaller : (w.children c).nodes.length < (w.children q).nodes.length := by
          have notBelow := Forest.not_mem_children (q := c) h.distinct
          have sub : c :: (w.children c).nodes ⊆ (w.children q).nodes := by
            rw [← Forest.children_children h.distinct inside]
            exact List.cons_subset.mpr ⟨inside, Forest.children_subset c _⟩
          exact (List.subperm_of_subset
            (List.nodup_cons.mpr ⟨notBelow, Forest.nodup_children h.distinct⟩) sub).length_le
        obtain ⟨rest, leads⟩ := ih (w.children_subset q inside) (by omega)
          (List.mem_cons.mpr at_or_below)
        refine ⟨t.nameOf c :: rest, ?_⟩
        rw [MountTree.findPath, h.findChildNode_mem hq hc]
        exact leads
/-- A path that does not resolve to a node below the root changes nothing; from any other
one the subtree is removed that it resolves to. -/
theorem removeByPath (h : Shaped t w) (paths : PathLibrary) (path : FlString) :
    ((path = [] ∨ t.findPath t.root (paths.components path) = some none ∨
        t.findPath t.root (paths.components path) = some (some t.root)) ∧
      vfsTreeRemoveNodeByPath paths path t = some (false, t)) ∨
    ∃ p n t', path ≠ [] ∧ t.findPath t.root (paths.components path) = some (some p) ∧
      p ≠ t.root ∧ t.nodes p = some n ∧
      vfsTreeRemoveNodeByPath paths path t = some (true, t') ∧
      Pruned t t' p n (w.children p) ∧ Shaped t' (w.remove p) := by
  unfold vfsTreeRemoveNodeByPath
  by_cases empty : path = []
  · exact .inl ⟨.inl empty, if_pos empty⟩
  · rw [if_neg empty, Option.bind_eq_bind]
    rcases h.findPath_some h.root_mem (paths.components path) with absent | ⟨p, hp, found⟩
    · rw [absent]
      exact .inl ⟨.inr (.inl rfl), rfl⟩
    · rw [found, Option.bind_some]
      by_cases root : p = t.root
      · exact .inl ⟨.inr (.inr (root ▸ rfl)), if_pos root⟩
      · obtain ⟨n, hn⟩ := h.node hp
        obtain ⟨t', removed, pruned, shaped⟩ := h.removeSubtree hn root
        refine .inr ⟨p, n, t', empty, rfl, root, hn, ?_, pruned, shaped⟩
        simp only [if_neg root, removed, Option.bind_eq_bind, Option.bind_some]

end Shaped
end FlowiVfs.Tree
