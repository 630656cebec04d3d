import FlowiVfs.MountPath
import Mathlib.Data.List.Basic

/-!
# Mount paths and containers

Here the drivers are deterministic: a `Backing` says what each of them would open, in a
container or absolutely, and what is in it. A handle refers to an object, and a resolution
is executed in a world that also watches the descent: every `open` issued behind the root
is noted together with the container that the path has led into so far.

`Backing.mounted` is the resolution that the driver interface intends, on objects: each
name is looked up inside the current container. The code meets it exactly when it never
comes to look a name up.
-/
namespace FlowiVfs.Tree

structure Backing (O : Type) where
  canOpen : PluginEntry → FlString → Bool
  openAbsolute : PluginEntry → FlString → Option O
  openIn : PluginEntry → O → FlString → Option O
  isDirectory : PluginEntry → O → Bool
  /-- The size of what a relative path names; the empty path is the object itself. -/
  getSize : PluginEntry → O → FlString → ℤ
  read : PluginEntry → O → FlString → ℤ → ReadResult
  openMemory : PluginEntry → Bytes → ℤ → FlString → Option O
  archiveCorrupt : PluginEntry → Bytes → ℤ → FlString → Bool

structure World (O : Type) where
  /-- What each handle refers to; handles are numbered in the order of their opening. -/
  objects : List O := []
  /-- The handle that the path has led into, once a root is open. -/
  container : Option DriverPtr := none
  /-- The `open` calls behind the root: the parent given, and the container then. -/
  inside : List (Option DriverPtr × DriverPtr) := []

namespace World

variable {O : Type} (w : World O)

/-- A new handle. The first one is the root of the mount. -/
def enter (o : O) : World O :=
  { w with
    objects := w.objects ++ [o]
    container := w.container.orElse fun _ => some w.objects.length }

/-- A new handle that is the container from here on. -/
def switch (o : O) : World O :=
  { w with objects := w.objects ++ [o], container := some w.objects.length }

def note (parent : Option DriverPtr) : World O :=
  match w.container with
  | none => w
  | some c => { w with inside := (parent, c) :: w.inside }

/-- Every name was looked up in the container the path had led into. -/
def Contained : Prop := ∀ x ∈ w.inside, x.1 = some x.2

instance : Decidable w.Contained := inferInstanceAs (Decidable (∀ x ∈ w.inside, x.1 = some x.2))

end World

namespace Backing

variable {O : Type} (b : Backing O)

def lookup (e : PluginEntry) (parent : Option DriverPtr) (path : FlString) (w : World O) :
    Option O :=
  match parent with
  | none => b.openAbsolute e path
  | some h => (w.objects[h]?).bind fun o => b.openIn e o path

/-- The drivers as a handler. What a resolution never asks for is answered with nothing. -/
def answers : Program.Handler drivers (World O)
  | .canOpen e path, w => (b.canOpen e path, w)
  | .openPath e parent path _ _, w =>
      match b.lookup e parent path w with
      | none => (⟨none, false, false⟩, w.note parent)
      | some o => (⟨some w.objects.length, b.isDirectory e o, false⟩, (w.note parent).enter o)
  | .isDirectory e h, w => ((w.objects[h]?).any (b.isDirectory e), w)
  | .getSize e h path, w =>
      (((h.bind (w.objects[·]?)).map fun o => b.getSize e o path).getD (-1), w)
  | .read e h path _ size, w =>
      (((h.bind (w.objects[·]?)).map fun o => b.read e o path size).getD ⟨-1, []⟩, w)
  | .listDirectory .., w => ([], w)
  | .clone .., w => (⟨none, false, false⟩, w)
  | .close .., w => ((), w)
  | .openMemory e _ contents size path, w =>
      match b.openMemory e contents size path with
      | none => (⟨none, false, b.archiveCorrupt e contents size path⟩, w)
      | some o => (⟨some w.objects.length, b.isDirectory e o, false⟩, w.switch o)
  | .getFilePath .., w => ([], w)
  | .malloc _, w => (0, w)
  | .free _, w => ((), w)

/-! ## The intended resolution, on objects -/

section
variable (self : VfsState)

/-- The first driver that opens the path absolutely. -/
def rootAt (path : FlString) : List PluginEntry → Option (PluginEntry × O)
  | [] => none
  | e :: rest =>
      match b.openAbsolute e path with
      | none => rootAt path rest
      | some o => some (e, o)

/-- The longest prefix of the path that some driver opens, and its number of segments. -/
def rootOf (components : List FlString) : ℕ → Option (PluginEntry × O × ℕ)
  | 0 => none
  | k + 1 =>
      match b.rootAt (self.paths.reconstruct components 0 (k + 1)) self.plugins with
      | none => rootOf components k
      | some (e, o) => some (e, o, k + 1)

/-- A memory driver for the contents of a file. -/
def archiveOf (contents : Bytes) (size : ℤ) (path : FlString) :
    List PluginEntry → Option (PluginEntry × O)
  | [] => none
  | e :: rest =>
      if ¬ e.plugin.memory ∨ ¬ e.plugin.hasOpenMemory then archiveOf contents size path rest
      else match b.openMemory e contents size path with
        | some o => some (e, o)
        | none =>
            if b.archiveCorrupt e contents size path then none
            else archiveOf contents size path rest

/-- The archive that a file is, if it can be read and some driver accepts it. -/
def fileArchive (e : PluginEntry) (o : O) (path : FlString) : Option (PluginEntry × O) :=
  let size := b.getSize e o []
  if size < 0 then none
  else
    let result := b.read e o [] size
    if result.bytesRead = size then
      b.archiveOf result.contents result.bytesRead path self.plugins
    else none

/-- The longest part of the remaining path that names something in a container: a
directory that is all of it, or a file, which must be an archive. The result is the next
container and the number of segments that led to it. -/
def nextFrom (e : PluginEntry) (o : O) (components : List FlString) (pos : ℕ) :
    ℕ → Option (PluginEntry × O × ℕ)
  | 0 => none
  | left + 1 =>
      let stop := pos + (left + 1)
      let path := self.paths.reconstruct components pos stop
      match b.openIn e o path with
      | none => nextFrom e o components pos left
      | some found =>
          if b.isDirectory e found ∧ stop = components.length then some (e, found, stop)
          else if b.getSize e found [] < 0 then nextFrom e o components pos left
          else (b.fileArchive self e found path).map fun x => (x.1, x.2, stop)

/-- From a container on to the end of the path, with one round for each segment that is
left and one to look at the end. -/
def within (components : List FlString) :
    ℕ → PluginEntry → O → ℕ → Option (PluginEntry × O)
  | 0, _, _, _ => none
  | rounds + 1, e, o, pos =>
      if pos < components.length then
        (b.nextFrom self e o components pos (components.length - pos)).bind fun x =>
          within components rounds x.1 x.2.1 x.2.2
      else if b.isDirectory e o then some (e, o) else none

/-- The root as a container: itself, or the archive that it is. -/
def rootContainer (e : PluginEntry) (o : O) (path : FlString) : Option (PluginEntry × O) :=
  if b.isDirectory e o then some (e, o) else b.fileArchive self e o path

/-- The directory or archive that a mount path names. -/
def mounted (path : FlString) : Option (PluginEntry × O) :=
  let components := self.paths.components path
  (b.rootOf self components components.length).bind fun root =>
    (b.rootContainer self root.1 root.2.1
        (self.paths.reconstruct components 0 root.2.2)).bind fun inner =>
      b.within self components (components.length + 1) inner.1 inner.2 root.2.2

/-- No driver opens a prefix of the path; or the longest one that opens is all of it; or
the driver of the root declines every name behind the root, and there is nothing there. -/
def EndsAtRoot (path : FlString) : Prop :=
  let components := self.paths.components path
  ∀ root, b.rootOf self components components.length = some root →
    root.2.2 = components.length ∨
      (∀ stop, root.2.2 < stop → stop ≤ components.length →
        b.canOpen root.1 (self.paths.reconstruct components root.2.2 stop) = false) ∧
      b.mounted self path = none

end
end Backing

/-- What a resolution came to, on objects. -/
def FinalDriver.object {O : Type} (w : World O) :
    Option FinalDriver → Option (PluginEntry × O)
  | some (.resolved e h) => (w.objects[h]?).map fun o => (e, o)
  | _ => none

namespace Backing

variable {O : Type} (b : Backing O) (self : VfsState) {w : World O} {e : PluginEntry}
  {h : DriverPtr} {o : O} {components : List FlString}

theorem execute_openRoot (fresh : w.container = none) (path : FlString) (k : ℕ)
    (plugins : List PluginEntry) :
    (openRoot path k plugins).execute b.answers w =
      match b.rootAt path plugins with
      | none => (none, w)
      | some (e, o) => (some ⟨e, w.objects.length, k⟩, w.enter o) := by
  have quiet : w.note none = w := by simp only [World.note, fresh]
  induction plugins with
  | nil => rfl
  | cons e rest ih =>
      simp only [openRoot, Program.execute_bind, execute_driver, answers, lookup, rootAt]
      cases b.openAbsolute e path with
      | none => simpa only [quiet] using ih
      | some o => simp only [quiet, Program.pure_eq, Program.execute_done]

theorem execute_findRoot (fresh : w.container = none) (k : ℕ) :
    (findRootFrom self components 0 k).execute b.answers w =
      match b.rootOf self components k with
      | none => (none, w)
      | some (e, o, stop) => (some ⟨e, w.objects.length, stop⟩, w.enter o) := by
  induction k with
  | zero => rfl
  | succ k ih =>
      simp only [findRootFrom, Program.execute_bind, Nat.zero_add, b.execute_openRoot fresh,
        rootOf]
      cases b.rootAt (self.paths.reconstruct components 0 (k + 1)) self.plugins with
      | none => simpa only using ih
      | some root => rfl

theorem answers_accepted {d : BufferPtr} {contents : Bytes} {size : ℤ} {path : FlString}
    (accepted : b.openMemory e contents size path = some o) :
    b.answers (.openMemory e d contents size path) w =
      (⟨some w.objects.length, b.isDirectory e o, false⟩, w.switch o) := by
  simp only [answers, accepted]

theorem answers_refused {d : BufferPtr} {contents : Bytes} {size : ℤ} {path : FlString}
    (refused : b.openMemory e contents size path = none) :
    b.answers (.openMemory e d contents size path) w =
      (⟨none, false, b.archiveCorrupt e contents size path⟩, w) := by
  simp only [answers, refused]

theorem execute_openMemory (path : FlString) (d : BufferPtr) (contents : Bytes) (size : ℤ)
    (plugins : List PluginEntry) :
    (openMemoryWith path d contents size plugins).execute b.answers w =
      match b.archiveOf contents size path plugins with
      | none => (none, w)
      | some (e, o) => (some { pluginEntry := e, handle := w.objects.length }, w.switch o) := by
  induction plugins with
  | nil => rfl
  | cons e rest ih =>
      unfold openMemoryWith archiveOf
      by_cases skip : ¬ e.plugin.memory ∨ ¬ e.plugin.hasOpenMemory
      · rw [if_pos skip, if_pos skip]
        exact ih
      · rw [if_neg skip, if_neg skip]
        rw [Program.execute_bind, execute_driver]
        cases hm : b.openMemory e contents size path with
        | some o =>
            rw [b.answers_accepted hm]
            rfl
        | none =>
            rw [b.answers_refused hm]
            by_cases corrupt : b.archiveCorrupt e contents size path
            · simp only [if_pos corrupt, Program.pure_eq, Program.execute_done]
            · simp only [if_neg corrupt]
              exact ih

theorem execute_verify (at_ : w.objects[h]? = some o) :
    (verifyContainer e h).execute b.answers w =
      (if b.isDirectory e o then .resolved e h else .failed .notMountable, w) := by
  simp only [verifyContainer, Program.execute_bind, execute_driver, answers, at_, Option.any_some]
  split_ifs <;> rfl

/-- A root that is a file is replaced by the archive it is, or closed. -/
theorem execute_enterRootFile (components : List FlString) (at_ : w.objects[h]? = some o) :
    match b.fileArchive self e o (self.paths.reconstruct components 0 components.length) with
    | none => ∃ error, (enterRootFile self components e h).execute b.answers w = (.inl error, w)
    | some (e', o') =>
        (enterRootFile self components e h).execute b.answers w =
          (.inr { pluginEntry := e', handle := w.objects.length }, w.switch o') := by
  simp only [fileArchive, enterRootFile, Program.execute_bind, execute_driver, answers, at_,
    Option.bind_some, Option.map_some, Option.getD_some]
  by_cases hz : b.getSize e o [] < 0
  · simp only [if_pos hz]
    exact ⟨_, rfl⟩
  · simp only [if_neg hz, loadDataFromPlugin, Program.execute_bind, execute_driver, answers, at_,
      Option.bind_some, Option.map_some, Option.getD_some, Program.pure_eq,
      Program.execute_done]
    by_cases whole : (b.read e o [] (b.getSize e o [])).bytesRead = b.getSize e o []
    · simp only [if_pos whole, ne_eq, not_true_eq_false, if_false, vfsTreeFindPluginForMemory,
        Program.execute_bind, b.execute_openMemory]
      cases b.archiveOf (b.read e o [] (b.getSize e o [])).contents
          (b.read e o [] (b.getSize e o [])).bytesRead
          (self.paths.reconstruct components 0 components.length) self.plugins with
      | none => exact ⟨_, rfl⟩
      | some inner => rfl
    · simp only [if_neg whole]
      exact ⟨_, rfl⟩

theorem execute_descend_end (rounds : ℕ) {pos : ℕ} (ended : components.length ≤ pos)
    (at_ : w.objects[h]? = some o) :
    (descend self components (rounds + 1) e h pos).execute b.answers w =
      (some (if b.isDirectory e o then .resolved e h else .failed .notMountable), w) := by
  unfold descend
  rw [if_neg (by omega)]
  simp only [Program.execute_bind, b.execute_verify at_, Program.pure_eq, Program.execute_done]

/-- A root that consumed the whole path: the mount is what it contains. -/
theorem execute_whole_root (components : List FlString) (rounds : ℕ)
    (at_ : w.objects[h]? = some o) :
    let done := (vfsTreeResolveFullPath self (rounds + 1) e h components
      components.length).execute b.answers w
    FinalDriver.object done.2 done.1 =
        (b.rootContainer self e o (self.paths.reconstruct components 0 components.length)).bind
          (fun x => if b.isDirectory x.1 x.2 then some x else none) ∧
      done.2.inside = w.inside := by
  have directory : b.answers (.isDirectory e h) w = (b.isDirectory e o, w) := by
    simp only [answers, at_, Option.any_some]
  simp only [vfsTreeResolveFullPath, if_pos (Nat.le_refl _), Program.execute_bind,
    execute_driver, directory, rootContainer]
  by_cases hd : b.isDirectory e o
  · simp only [if_pos hd, b.execute_descend_end self rounds (Nat.le_refl _) at_,
      FinalDriver.object, at_, Option.map_some, Option.bind_some]
    exact ⟨trivial, trivial⟩
  · simp only [if_neg hd, Program.execute_bind]
    have entering := b.execute_enterRootFile self components at_ (e := e)
    cases hf : b.fileArchive self e o (self.paths.reconstruct components 0 components.length) with
    | none =>
        rw [hf] at entering
        obtain ⟨error, entering⟩ := entering
        rw [entering]
        exact ⟨rfl, rfl⟩
    | some inner =>
        rw [hf] at entering
        dsimp only at entering
        rw [entering]
        have at_inner : (w.switch inner.2).objects[w.objects.length]? = some inner.2 := by
          simp [World.switch]
        simp only [b.execute_descend_end self rounds (Nat.le_refl _) at_inner, Option.bind_some]
        refine ⟨?_, rfl⟩
        by_cases hi : b.isDirectory inner.1 inner.2
        · simp only [if_pos hi, FinalDriver.object, at_inner, Option.map_some]
        · simp only [if_neg hi, FinalDriver.object]

/-- A driver that declines every name is asked for nothing else. -/
theorem execute_tryOpen_declined {pos left : ℕ}
    (declined : ∀ stop, pos < stop → stop ≤ pos + left →
      b.canOpen e (self.paths.reconstruct components pos stop) = false) (start : ℕ) :
    (tryOpenFrom self e start pos components left).execute b.answers w =
      (.nothing .fileNotFound, w) := by
  induction left with
  | zero => rfl
  | succ left ih =>
      simp only [tryOpenFrom, Program.execute_bind, execute_driver, answers,
        declined (pos + (left + 1)) (by omega) (Nat.le_refl _), Bool.false_eq_true, if_false]
      exact ih fun stop above below => declined stop above (by omega)

theorem answers_inside (op : drivers.Op) : w.inside ⊆ (b.answers op w).2.inside := by
  cases op with
  | openPath e parent path flags options =>
      have noted : w.inside ⊆ (w.note parent).inside := by
        unfold World.note
        split
        · exact List.Subset.refl _
        · exact List.subset_cons_self _ _
      simp only [answers]
      split <;> exact noted
  | openMemory e d contents size path =>
      simp only [answers]
      split <;> exact List.Subset.refl _
  | _ => exact List.Subset.refl _

theorem answers_notes {c : DriverPtr} (led : w.container = some c) {parent : Option DriverPtr}
    {path : FlString} {flags : ℕ} {options : MountOptions} :
    (parent, c) ∈ (b.answers (.openPath e parent path flags options) w).2.inside := by
  have noted : (parent, c) ∈ (w.note parent).inside := by
    simp only [World.note, led]
    exact List.mem_cons_self
  simp only [answers]
  split <;> exact noted

/-- What was noted about an `open` stays noted. -/
theorem execute_inside {A : Type} (p : DriverProgram A) :
    w.inside ⊆ (p.execute b.answers w).2.inside := by
  induction p generalizing w with
  | done a => exact List.Subset.refl _
  | perform op next ih => exact List.Subset.trans (b.answers_inside op) (ih _)

/-- The first name that the driver does not decline is opened absolutely. -/
theorem execute_tryOpen_absolute {c : DriverPtr} (led : w.container = some c) {pos left stop : ℕ}
    (above : pos < stop) (below : stop ≤ pos + left)
    (openable : b.canOpen e (self.paths.reconstruct components pos stop)) (start : ℕ) :
    (none, c) ∈ ((tryOpenFrom self e start pos components left).execute b.answers w).2.inside := by
  induction left with
  | zero => omega
  | succ left ih =>
      have asked : b.answers (.canOpen e (self.paths.reconstruct components pos (pos + (left + 1))))
          w = (b.canOpen e (self.paths.reconstruct components pos (pos + (left + 1))), w) := rfl
      simp only [tryOpenFrom, Program.execute_bind, execute_driver, asked]
      by_cases ho : b.canOpen e (self.paths.reconstruct components pos (pos + (left + 1)))
      · rw [if_pos ho, Program.execute_bind, execute_driver]
        exact b.execute_inside _ (b.answers_notes led)
      · have earlier : stop ≤ pos + left := by
          rcases Nat.lt_or_ge (pos + left) stop with late | early
          · have last : stop = pos + (left + 1) := by omega
            rw [last] at openable
            exact absurd openable ho
          · exact early
        rw [if_neg ho]
        exact ih earlier

theorem rootOf_le {k : ℕ} {root : PluginEntry × O × ℕ}
    (found : b.rootOf self components k = some root) : root.2.2 ≤ k := by
  induction k with
  | zero => exact absurd found (by simp [rootOf])
  | succ k ih =>
      unfold rootOf at found
      split at found
      · exact Nat.le_succ_of_le (ih found)
      · cases found
        exact Nat.le_refl _

theorem execute_mountPath (rounds : ℕ) (path : FlString) :
    (vfsTreeMountPath self rounds path).execute b.answers {} =
      match b.rootOf self (self.paths.components path) (self.paths.components path).length with
      | none => (some (.failed .noDriver), {})
      | some (e, o, k) =>
          (vfsTreeResolveFullPath self rounds e 0 (self.paths.components path) k).execute
            b.answers { objects := [o], container := some 0 } := by
  simp only [vfsTreeMountPath, vfsTreeFindRootPluginForPath, Program.execute_bind, Nat.sub_zero]
  rw [b.execute_findRoot self (w := {}) rfl]
  cases b.rootOf self (self.paths.components path) (self.paths.components path).length with
  | none => rfl
  | some root => rfl

theorem mounted_of_whole {path : FlString}
    (root : b.rootOf self (self.paths.components path) (self.paths.components path).length =
      some (e, o, (self.paths.components path).length)) :
    b.mounted self path =
      (b.rootContainer self e o (self.paths.reconstruct (self.paths.components path) 0
        (self.paths.components path).length)).bind
          (fun x => if b.isDirectory x.1 x.2 then some x else none) := by
  simp only [mounted, root, Option.bind_some, within, Nat.lt_irrefl, if_false]

/-- Behind the root everything starts with `try_open_file`. -/
theorem resolve_behind_root (rounds : ℕ) {k : ℕ} (behind : k < components.length) :
    vfsTreeResolveFullPath self (rounds + 1) e h components k =
      descend self components (rounds + 1) e h k := by
  unfold vfsTreeResolveFullPath
  rw [if_neg (by omega)]

theorem tryOpenFile_behind {k : ℕ} (behind : k < components.length) :
    tryOpenFile self e components.length k components =
      tryOpenFrom self e components.length k components (components.length - k) := by
  unfold tryOpenFile
  rw [if_neg (by omega)]

theorem execute_declined (rounds : ℕ) {k : ℕ} (behind : k < components.length)
    (declined : ∀ stop, k < stop → stop ≤ components.length →
      b.canOpen e (self.paths.reconstruct components k stop) = false) :
    (vfsTreeResolveFullPath self (rounds + 1) e h components k).execute b.answers w =
      (some (.failed .fileNotFound), w) := by
  rw [resolve_behind_root self rounds behind]
  unfold descend
  rw [if_pos behind, Program.execute_bind, tryOpenFile_behind self behind,
    b.execute_tryOpen_declined self fun stop above below => declined stop above (by omega)]
  rfl

theorem execute_escapes (rounds : ℕ) {k stop : ℕ} {c : DriverPtr} (led : w.container = some c)
    (above : k < stop) (below : stop ≤ components.length)
    (openable : b.canOpen e (self.paths.reconstruct components k stop)) :
    (none, c) ∈ ((vfsTreeResolveFullPath self (rounds + 1) e h components k).execute
      b.answers w).2.inside := by
  have behind : k < components.length := by omega
  rw [resolve_behind_root self rounds behind]
  unfold descend
  rw [if_pos behind, Program.execute_bind, tryOpenFile_behind self behind]
  refine b.execute_inside _ ?_
  exact b.execute_tryOpen_absolute self led above (by omega) openable _

/-- The resolution looks up every name inside the container that the path has led into, and
comes to what the path names there, exactly when it never has to look behind the root. -/
theorem mount_path_contained {rounds : ℕ} (path : FlString)
    (enough : (self.paths.components path).length < rounds) :
    let done := (vfsTreeMountPath self rounds path).execute b.answers {}
    (done.2.Contained ∧ FinalDriver.object done.2 done.1 = b.mounted self path) ↔
      b.EndsAtRoot self path := by
  obtain ⟨rounds, rfl⟩ : ∃ m, rounds = m + 1 := ⟨rounds - 1, by omega⟩
  simp only [b.execute_mountPath, EndsAtRoot]
  cases hr : b.rootOf self (self.paths.components path) (self.paths.components path).length with
  | none =>
      have nothing : b.mounted self path = none := by simp [mounted, hr]
      simp [nothing, FinalDriver.object, World.Contained]
  | some root =>
      obtain ⟨e, o, k⟩ := root
      have below : k ≤ (self.paths.components path).length := b.rootOf_le self hr
      simp only [Option.some.injEq, forall_eq']
      by_cases whole : k = (self.paths.components path).length
      · subst whole
        have done := b.execute_whole_root self (self.paths.components path) rounds (e := e)
          (h := 0) (o := o) (w := { objects := [o], container := some 0 }) rfl
        refine ⟨fun _ => .inl rfl, fun _ => ⟨?_, ?_⟩⟩
        · intro x hx
          rw [done.2] at hx
          exact absurd hx List.not_mem_nil
        · rw [done.1, b.mounted_of_whole self hr]
      · have behind : k < (self.paths.components path).length := by omega
        by_cases declined : ∀ stop, k < stop → stop ≤ (self.paths.components path).length →
            b.canOpen e (self.paths.reconstruct (self.paths.components path) k stop) = false
        · rw [b.execute_declined self rounds behind declined]
          constructor
          · rintro ⟨-, same⟩
            exact .inr ⟨declined, same.symm⟩
          · rintro (h | ⟨-, nothing⟩)
            · exact absurd h whole
            · exact ⟨fun x hx => absurd hx List.not_mem_nil, nothing.symm⟩
        · constructor
          · rintro ⟨contained, -⟩
            push Not at declined
            obtain ⟨stop, above, within, openable⟩ := declined
            have escaped := b.execute_escapes self rounds (e := e) (h := 0)
              (w := { objects := [o], container := some 0 }) rfl above within
              (by simpa using openable)
            exact absurd (contained _ escaped) (by simp)
          · rintro (h | ⟨h, -⟩)
            · exact absurd h whole
            · exact absurd h declined

section
/-! A local driver beside a driver for archives in memory. The file `a` is an archive with
a directory `s`, and another directory is what `s` means to the local driver. -/

inductive Place
  | file
  | archive
  | sInArchive
  | sElsewhere
deriving DecidableEq

def archiveDriver : PluginEntry := ⟨1, { name := ['z'], memory := true, hasOpenMemory := true }⟩

def localDriver : PluginEntry := ⟨0, { name := ['l'] }⟩

def places : Backing Place where
  canOpen e path := e = localDriver ∧ (path = ['a'] ∨ path = ['s'])
  openAbsolute e path :=
    if e = localDriver ∧ path = ['a'] then some .file
    else if e = localDriver ∧ path = ['s'] then some .sElsewhere
    else none
  openIn e place path :=
    if e = archiveDriver ∧ place = .archive ∧ path = ['s'] then some .sInArchive else none
  isDirectory _ place := place ≠ .file
  getSize _ place _ := if place = .file then 1 else -1
  read _ place _ size := if place = .file then ⟨size, [7]⟩ else ⟨-1, []⟩
  openMemory e contents _ _ := if e = archiveDriver ∧ contents = [7] then some .archive else none
  archiveCorrupt _ _ _ _ := false

def bothDrivers : VfsState where
  plugins := [archiveDriver, localDriver]
  paths := letters

theorem mount_path_contained_root :
    let done := (vfsTreeMountPath bothDrivers 2 ['a']).execute places.answers {}
    done.2.Contained ∧ FinalDriver.object done.2 done.1 = places.mounted bothDrivers ['a'] := by
  refine (mount_path_contained places bothDrivers ['a'] (by decide)).mpr fun root found => ?_
  have only : places.rootOf bothDrivers [['a']] 1 = some (localDriver, .file, 1) := by decide
  rw [show root = _ from Option.some.inj (found.symm.trans only)]
  exact .inl rfl

/-- The mount of `a/s` is the other `s`. -/
theorem mount_path_escapes :
    let done := (vfsTreeMountPath bothDrivers 3 ['a', 's']).execute places.answers {}
    FinalDriver.object done.2 done.1 = some (localDriver, .sElsewhere) ∧
      places.mounted bothDrivers ['a', 's'] = some (archiveDriver, .sInArchive) ∧
      ¬ (done.2.Contained ∧
        FinalDriver.object done.2 done.1 = places.mounted bothDrivers ['a', 's']) := by
  decide

end

end Backing
end FlowiVfs.Tree
