import FlowiVfs.DriverLedger
import FlowiVfs.LinkedForest

/-!
# The node tree of a mount

The operations of `vfs_tree.c` on the intrusive tree of a mount, on a pool of nodes that
refer to each other by pointers. Each function dereferences the pointers that the code
does, and has no result where one of them is not a node of the pool. Its loops run over
sibling lists and subtrees, and are bounded by the number of nodes in the pool.

Two logs record, in order, the driver handles that were closed and the nodes that were
given back to the pool.
-/
namespace FlowiVfs.Tree

open Linked

abbrev NodePtr := ℕ

/-- `VfsHandles`: one slot for each worker. A slot beyond the end of the list is null. -/
abbrev VfsHandles := List (Option DriverPtr)

def VfsHandles.slot (handles : VfsHandles) (worker : ℕ) : Option DriverPtr :=
  (handles[worker]?).join

structure VfsTreeNode extends Links NodePtr where
  name : FlString
  pluginEntry : Option PluginEntry := none
  handles : VfsHandles := []
  memoryData : Option BufferPtr := none
  memorySize : ℤ := 0
  isDirectory : Bool := false
  isArchive : Bool := false
  size : ℤ := 0
  attributes : ℕ := 0

@[ext]
structure MountTree where
  /-- `nodes_pool` -/
  nodes : NodePtr → Option VfsTreeNode
  count : ℕ
  root : NodePtr
  closed : List OpenHandle := []
  freed : List NodePtr := []

/-- `string_compare_natural` of `core/string.h`, which is not part of the repository. -/
abbrev NaturalCompare := FlString → FlString → ℤ

/-- Directories before files, each in natural order. -/
def vfsTreeCompareNodes (natural : NaturalCompare) (a b : VfsTreeNode) : ℤ :=
  if a.isDirectory ∧ ¬ b.isDirectory then -1
  else if ¬ a.isDirectory ∧ b.isDirectory then 1
  else natural a.name b.name

/-- The close calls for a row of slots: one for each pointer not closed before. -/
def closeCalls (driver : ℕ) : List DriverPtr → VfsHandles → List OpenHandle
  | _, [] => []
  | done, none :: rest => closeCalls driver done rest
  | done, some h :: rest =>
      if h ∈ done then closeCalls driver done rest
      else ⟨driver, h⟩ :: closeCalls driver (h :: done) rest

/-- The driver handles that closing a node closes. -/
def VfsTreeNode.closes (n : VfsTreeNode) : List OpenHandle :=
  match n.pluginEntry with
  | none => []
  | some e => closeCalls e.id [] n.handles

/-- A node as `close_node_resources` leaves it. -/
def VfsTreeNode.closedNode (n : VfsTreeNode) : VfsTreeNode :=
  { n with
    handles := if n.pluginEntry.isSome then n.handles.map fun _ => none else n.handles
    memoryData := none
    memorySize := 0 }

namespace MountTree

variable (t : MountTree)

def links (p : NodePtr) : Option (Links NodePtr) := (t.nodes p).map VfsTreeNode.toLinks

/-- A write through a node pointer. -/
def update (p : NodePtr) (f : VfsTreeNode → VfsTreeNode) : Option MountTree :=
  (t.nodes p).map fun n => { t with nodes := Function.update t.nodes p (some (f n)) }

/-- `vfs_tree_create_node`, in a slot that the pool has free. -/
def createNode (fresh : NodePtr) (name : FlString) : Option MountTree :=
  if (t.nodes fresh).isSome then none
  else some { t with
    nodes := Function.update t.nodes fresh (some { name := name })
    count := t.count + 1 }

def freeNode (p : NodePtr) : Option MountTree :=
  (t.nodes p).map fun _ => { t with
    nodes := Function.update t.nodes p none
    count := t.count - 1
    freed := t.freed ++ [p] }

/-- The loop of `vfs_tree_find_child_node`. -/
def findIn (name : FlString) : ℕ → Option NodePtr → Option (Option NodePtr)
  | _, none => some none
  | 0, some _ => none
  | left + 1, some c => do
      let n ← t.nodes c
      if n.name = name then some (some c) else findIn name left n.nextSibling

def findChildNode (parent : NodePtr) (name : FlString) : Option (Option NodePtr) := do
  let p ← t.nodes parent
  t.findIn name t.count p.firstChild

/-- The loop of `vfs_tree_add_child_node`: the last sibling that sorts before the child. -/
def insertionPoint (natural : NaturalCompare) (child : VfsTreeNode) :
    ℕ → Option NodePtr → Option NodePtr → Option (Option NodePtr)
  | _, prev, none => some prev
  | 0, _, some _ => none
  | left + 1, prev, some current => do
      let n ← t.nodes current
      if 0 < vfsTreeCompareNodes natural child n then
        insertionPoint natural child left (some current) n.nextSibling
      else some prev

def addChildNode (natural : NaturalCompare) (parent child : NodePtr) : Option MountTree := do
  let t ← t.update child fun n => { n with parent := some parent, nextSibling := none }
  let p ← t.nodes parent
  let c ← t.nodes child
  match p.firstChild with
  | none => t.update parent fun n => { n with firstChild := some child }
  | some first =>
      let prev ← t.insertionPoint natural c t.count none (some first)
      match prev with
      | none =>
          let t ← t.update child fun n => { n with nextSibling := p.firstChild }
          t.update parent fun n => { n with firstChild := some child }
      | some before =>
          let b ← t.nodes before
          let t ← t.update child fun n => { n with nextSibling := b.nextSibling }
          t.update before fun n => { n with nextSibling := some child }

/-- `ensure_child_node_exists` -/
def ensureChildNodeExists (natural : NaturalCompare) (parent : NodePtr) (segment : FlString)
    (markAsDirectory : Bool) (fresh : NodePtr) : Option (NodePtr × MountTree) := do
  let found ← t.findChildNode parent segment
  match found with
  | some child => some (child, t)
  | none =>
      let t ← t.createNode fresh segment
      let t ← t.update fresh fun n =>
        if markAsDirectory then { n with isDirectory := true } else n
      let t ← t.addChildNode natural parent fresh
      some (fresh, t)

/-- The locked section of `vfs_dir_entry_callback`. -/
def listEntry (natural : NaturalCompare) (parent : NodePtr) (entry : Entry)
    (fresh : NodePtr) : Option MountTree := do
  let found ← t.findChildNode parent entry.name
  match found with
  | some child =>
      t.update child fun n => { n with size := entry.size, attributes := entry.attributes }
  | none =>
      let t ← t.createNode fresh entry.name
      let t ← t.update fresh fun n =>
        { n with
          isDirectory := entry.isDirectory
          isArchive := entry.isArchive
          size := entry.size
          attributes := entry.attributes }
      t.addChildNode natural parent fresh

/-- `close_node_resources` -/
def closeNodeResources (p : NodePtr) : Option MountTree := do
  let n ← t.nodes p
  let t ← t.update p VfsTreeNode.closedNode
  some { t with closed := t.closed ++ n.closes }

/-- The locked section of `vfs_tree_try_load_as_archive`. -/
def installArchive (p : NodePtr) (entry : PluginEntry) (handles : VfsHandles)
    (memoryData : Option BufferPtr) (memorySize : ℤ) : Option MountTree := do
  let t ← t.closeNodeResources p
  t.update p fun n =>
    { n with
      pluginEntry := some entry
      handles := handles
      memoryData := memoryData
      memorySize := memorySize
      isDirectory := true }

/-- The loop of `find_node_by_path_unlocked`. -/
def findPath : NodePtr → List FlString → Option (Option NodePtr)
  | current, [] => some (some current)
  | current, segment :: rest => do
      let child ← t.findChildNode current segment
      match child with
      | none => some none
      | some child => findPath child rest

/-- The search of `remove_node_unlocked` for the sibling in front of a node. -/
def findPrevious (node : NodePtr) : ℕ → Option NodePtr → Option (Option NodePtr)
  | _, none => some none
  | 0, some _ => none
  | left + 1, some current => do
      let n ← t.nodes current
      if n.nextSibling = some node then some (some current)
      else findPrevious node left n.nextSibling

def removeNodeUnlocked (node : NodePtr) : Option MountTree := do
  let n ← t.nodes node
  match n.parent with
  | none => some t
  | some parent =>
      let p ← t.nodes parent
      let t ←
        if p.firstChild = some node then
          t.update parent fun m => { m with firstChild := n.nextSibling }
        else do
          let prev ← t.findPrevious node t.count p.firstChild
          match prev with
          | none => some t
          | some before => t.update before fun m => { m with nextSibling := n.nextSibling }
      let t ← t.closeNodeResources node
      t.freeNode node

end MountTree

mutual

/-- `remove_node_recursive_unlocked`, with a bound on the depth of its calls. -/
def removeNodeRecursiveUnlocked : ℕ → NodePtr → MountTree → Option MountTree
  | 0, _, _ => none
  | left + 1, node, t => do
      let n ← t.nodes node
      let t ← removeChildren left n.firstChild t
      let t ← t.update node fun m => { m with firstChild := none }
      t.removeNodeUnlocked node

/-- Its loop over the children. -/
def removeChildren : ℕ → Option NodePtr → MountTree → Option MountTree
  | _, none, t => some t
  | 0, some _, _ => none
  | left + 1, some child, t => do
      let c ← t.nodes child
      let t ← removeNodeRecursiveUnlocked left child t
      removeChildren left c.nextSibling t

end

mutual

/-- `vfs_tree_cleanup_node` -/
def vfsTreeCleanupNode : ℕ → NodePtr → MountTree → Option MountTree
  | 0, _, _ => none
  | left + 1, node, t => do
      let n ← t.nodes node
      let t ← cleanupChildren left n.firstChild t
      t.closeNodeResources node

def cleanupChildren : ℕ → Option NodePtr → MountTree → Option MountTree
  | _, none, t => some t
  | 0, some _, _ => none
  | left + 1, some child, t => do
      let c ← t.nodes child
      let t ← vfsTreeCleanupNode left child t
      cleanupChildren left c.nextSibling t

end

/-- `vfs_tree_remove_node_by_path`, on the components of the path. -/
def vfsTreeRemoveNodeByPath (paths : PathLibrary) (relativePath : FlString) (t : MountTree) :
    Option (Bool × MountTree) :=
  if relativePath = [] then some (false, t)
  else do
    let node ← t.findPath t.root (paths.components relativePath)
    match node with
    | none => some (false, t)
    | some node =>
        if node = t.root then some (false, t)
        else do
          let t ← removeNodeRecursiveUnlocked (2 * t.count) node t
          some (true, t)

end FlowiVfs.Tree
