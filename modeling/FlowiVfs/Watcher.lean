import FlowiVfs.MountSections
import Mathlib.Algebra.Group.Nat.Defs

/-!
# Watcher changes

`vfs_update` on one mount: the changes that the file watcher reports are processed one by
one, a deletion by removing the node that its path leads to, and then the version of the
mount is counted up.
-/
namespace FlowiVfs.Tree

/-- A `FileChange`, with whether `FlFileChangeType_Deleted` is set. -/
structure FileChange where
  path : FlString
  deleted : Bool

def isSeparator (c : Char) : Bool := c = '/' || c = '\\'

/-- The search for `source_path` as a part of `change_path` behind a separator, from `i` on. -/
def watcherSearch (changePath sourcePath : FlString) : ℕ → ℕ → FlString
  | 0, _ => changePath
  | left + 1, i =>
      let precededBySlash := i = 0 || (changePath[i - 1]?).any isSeparator
      if precededBySlash ∧ (changePath.drop i).take sourcePath.length = sourcePath then
        (changePath.drop (i + sourcePath.length)).dropWhile isSeparator
      else watcherSearch changePath sourcePath left (i + 1)

def vfsTreeWatcherRelativePath (changePath sourcePath : FlString) : FlString :=
  if sourcePath.isPrefixOf changePath then
    (changePath.drop sourcePath.length).dropWhile isSeparator
  else if sourcePath = [] ∨ changePath.length ≤ sourcePath.length then changePath
  else watcherSearch changePath sourcePath (changePath.length - sourcePath.length + 1) 0

/-- One round of the loop of `process_file_watcher_changes`. -/
def processChange (paths : PathLibrary) (change : FileChange) (m : FlVfsMount) :
    Option FlVfsMount :=
  if ¬ change.deleted then some m
  else
    let relative := vfsTreeWatcherRelativePath change.path m.sourcePath
    if relative = [] then some m
    else do
      let (_, t) ← vfsTreeRemoveNodeByPath paths relative m.tree
      some { m with tree := t }

/-- The `atomic_fetch_add` behind the loop. -/
def bumpVersion (m : FlVfsMount) : FlVfsMount := { m with version := (m.version + 1) % 2 ^ 32 }

end FlowiVfs.Tree
