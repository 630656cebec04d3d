import FlowiVfs.ChildOrder
import FlowiVfs.HeldNodes
import FlowiVfs.MountWorld

/-!
# Operations and deletions on one mount

Operations of any number of workers run section by section on one mount, and in between
`vfs_update` processes the changes that the file watcher reports. A section that follows a
pointer to a node that has been freed since the operation got the pointer has strayed, also
when the pool has handed out the slot of that node again.

No section strays as long as no deletion frees a node that an operation in progress holds.
The first deletion that does leaves the operation with a pointer that it may follow.
-/
namespace FlowiVfs.Tree

open Program Linked

/-! ## Sections on nodes of the tree -/

section
variable {natural : NaturalCompare} {m m' : FlVfsMount} {w : Forest NodePtr} {fresh n : NodePtr}
variable {op : MountSection} {r : op.Reply}

/-- A section has a result when the nodes that it names are in the tree. -/
theorem section_total (shaped : Shaped m.tree w) (free : m.tree.nodes fresh = none)
    (named : ∀ n ∈ op.names, (m.tree.nodes n).isSome) :
    ∃ r m', op.run natural fresh m = some (r, m') := by
  have member : ∀ n ∈ op.names, n ∈ w.nodes := by
    intro n hn
    obtain ⟨k, hk⟩ := Option.isSome_iff_exists.mp (named n hn)
    exact shaped.live n k hk
  obtain ⟨root, hroot⟩ := shaped.node shaped.root_mem
  cases op with
  | rootDriver worker => exact ⟨_, _, by rw [MountSection.run, hroot]; rfl⟩
  | lookChild parent segment worker =>
      have search := shaped.findChildNode_eq (member parent List.mem_cons_self) segment
      cases hf : (w.children parent).level.find? fun x => m.tree.nameOf x = segment with
      | none => exact ⟨none, m, by simp [MountSection.run, MountTree.lookChild, search, hf]⟩
      | some child =>
          have inside := (w.children parent).level_subset (List.mem_of_find?_eq_some hf)
          obtain ⟨k, hk⟩ := shaped.node (w.children_subset parent inside)
          exact ⟨_, m, by
            simp only [MountSection.run, MountTree.lookChild, search, hf, hk,
              Option.bind_eq_bind, Option.bind_some]
            rfl⟩
  | ensureChildNodeExists parent segment mark =>
      rcases shaped.ensureChild natural (member parent List.mem_cons_self) free segment mark with
        ⟨c, -, -, there⟩ | ⟨t', w', added, -⟩
      · exact ⟨c, _, by rw [MountSection.run, there]; rfl⟩
      · exact ⟨fresh, _, by rw [MountSection.run, added]; rfl⟩
  | installArchive node entry handles memoryData memorySize =>
      obtain ⟨k, hk⟩ := shaped.node (member node List.mem_cons_self)
      exact ⟨(), _, by rw [MountSection.run, MountTree.installArchive_some hk]; rfl⟩
  | readDriver node worker =>
      obtain ⟨k, hk⟩ := shaped.node (member node List.mem_cons_self)
      exact ⟨_, _, by rw [MountSection.run, hk]; rfl⟩
  | markDirectory node =>
      obtain ⟨k, hk⟩ := shaped.node (member node List.mem_cons_self)
      exact ⟨(), _, by rw [MountSection.run, MountTree.update_some hk]; rfl⟩
  | listEntry parent entry =>
      rcases shaped.listEntry natural (member parent List.mem_cons_self) free entry with
        ⟨c, -, k, -, -, there⟩ | ⟨t', w', added, -⟩
      · exact ⟨(), _, by rw [MountSection.run, there]; rfl⟩
      · exact ⟨(), _, by rw [MountSection.run, added]; rfl⟩
  | snapshot node =>
      have inside := member node List.mem_cons_self
      obtain ⟨k, hk⟩ := shaped.node inside
      obtain ⟨infos, copied, -⟩ :=
        MountTree.childInfos_level (shaped.held.children inside) (shaped.short node)
      rw [← shaped.firstChild hk] at copied
      exact ⟨infos, m, by
        simp only [MountSection.run, hk, copied, Option.bind_eq_bind, Option.bind_some]⟩
  | loadVersion => exact ⟨_, _, rfl⟩
  | loadOptions => exact ⟨_, _, rfl⟩
  | loadWatching => exact ⟨_, _, rfl⟩
  | storeRoot entry handles watcher =>
      exact ⟨(), _, by rw [MountSection.run, MountTree.update_some hroot]; rfl⟩
  | clearRoot => exact ⟨(), _, by rw [MountSection.run, MountTree.update_some hroot]; rfl⟩

/-- Sections free no node. -/
theorem section_keeps (shaped : Shaped m.tree w) (free : m.tree.nodes fresh = none)
    (run : op.run natural fresh m = some (r, m')) (live : (m.tree.nodes n).isSome) :
    (m'.tree.nodes n).isSome := by
  cases section_effect shaped free run with
  | same kept =>
      rw [kept]
      exact live
  | grown parent c w' inside grown =>
      have other : n ≠ fresh := by
        rintro rfl
        rw [free] at live
        cases live
      have same := congrArg Option.isSome (grown.others n other)
      rw [MountTree.dataOf, MountTree.dataOf, Option.isSome_map, Option.isSome_map] at same
      rw [same]
      exact live
  | written p k k' here nodes count root links name kind =>
      rw [nodes]
      by_cases e : n = p
      · rw [e, MountTree.set_nodes_self]
        rfl
      · rw [MountTree.set_nodes_ne e]
        exact live

/-- A section returns pointers to nodes that are in the tree behind it. -/
theorem section_gives (shaped : Shaped m.tree w) (free : m.tree.nodes fresh = none)
    (run : op.run natural fresh m = some (r, m')) (given : n ∈ op.gives r) :
    (m'.tree.nodes n).isSome := by
  cases op with
  | rootDriver worker =>
      obtain ⟨k, hk, same⟩ := Option.bind_eq_some_iff.mp run
      cases same
      cases List.mem_singleton.mp given
      exact Option.isSome_iff_exists.mpr ⟨k, hk⟩
  | lookChild parent segment worker =>
      obtain ⟨found, looked, same⟩ := Option.bind_eq_some_iff.mp run
      cases same
      obtain ⟨child, search, looked⟩ := Option.bind_eq_some_iff.mp looked
      cases child with
      | none =>
          cases looked
          cases given
      | some child =>
          obtain ⟨k, hk, same⟩ := Option.bind_eq_some_iff.mp looked
          cases same
          cases List.mem_singleton.mp given
          exact Option.isSome_iff_exists.mpr ⟨k, hk⟩
  | ensureChildNodeExists parent segment mark =>
      obtain ⟨ensured, adding, same⟩ := Option.bind_eq_some_iff.mp run
      cases same
      cases List.mem_singleton.mp given
      obtain ⟨found, search, -⟩ := Option.bind_eq_some_iff.mp adding
      have hp := parent_mem shaped search
      rcases shaped.ensureChild natural hp free segment mark with
        ⟨c, inside, -, there⟩ | ⟨t', w', added, grown⟩
      · cases there.symm.trans adding
        have inTree := w.children_subset parent ((w.children parent).level_subset inside)
        exact Option.isSome_iff_exists.mpr (shaped.node inTree)
      · cases added.symm.trans adding
        obtain ⟨k, hk, -⟩ := Option.map_eq_some_iff.mp grown.here
        exact Option.isSome_iff_exists.mpr ⟨k, hk⟩
  | _ => cases given

end

/-! ## Changes -/

/-- The change deletes the node: its path leads to the node, or to one above it. -/
def Deletes (paths : PathLibrary) (change : FileChange) (m : FlVfsMount) (n : NodePtr) : Prop :=
  change.deleted = true ∧ vfsTreeWatcherRelativePath change.path m.sourcePath ≠ [] ∧
    ∃ p segments, p ≠ m.tree.root ∧
      m.tree.findPath m.tree.root
        (paths.components (vfsTreeWatcherRelativePath change.path m.sourcePath)) =
          some (some p) ∧
      m.tree.findPath p segments = some (some n)

/-- The nodes that were freed between two states of a tree. -/
def MountTree.freedSince (t t' : MountTree) : List NodePtr := t'.freed.drop t.freed.length

section
variable {paths : PathLibrary} {change : FileChange} {m m' : FlVfsMount} {w : Forest NodePtr}

/-- What a change frees are the nodes that it deletes, and the others stay. -/
theorem change_frees (shaped : Shaped m.tree w) (run : processChange paths change m = some m') :
    (∃ w', Shaped m'.tree w') ∧
      (∀ n, n ∈ m.tree.freedSince m'.tree ↔ Deletes paths change m n) ∧
      ∀ n, (m.tree.nodes n).isSome → ¬ Deletes paths change m n → (m'.tree.nodes n).isSome := by
  have nothing : m'.tree = m.tree → (∀ n, ¬ Deletes paths change m n) →
      (∃ w', Shaped m'.tree w') ∧
        (∀ n, n ∈ m.tree.freedSince m'.tree ↔ Deletes paths change m n) ∧
        ∀ n, (m.tree.nodes n).isSome → ¬ Deletes paths change m n →
          (m'.tree.nodes n).isSome := by
    intro same spares
    rw [same]
    refine ⟨⟨w, shaped⟩, fun n => iff_of_false ?_ (spares n), fun n live _ => live⟩
    rw [MountTree.freedSince, List.drop_length]
    exact List.not_mem_nil
  unfold processChange at run
  dsimp only at run
  by_cases kept : ¬ change.deleted
  · rw [if_pos kept] at run
    cases run
    exact nothing rfl fun n deletes => kept deletes.1
  rw [if_neg kept] at run
  by_cases root : vfsTreeWatcherRelativePath change.path m.sourcePath = []
  · rw [if_pos root] at run
    cases run
    exact nothing rfl fun n deletes => deletes.2.1 root
  rw [if_neg root] at run
  obtain ⟨removal, removed, same⟩ := Option.bind_eq_some_iff.mp run
  cases same
  rcases shaped.removeByPath paths (vfsTreeWatcherRelativePath change.path m.sourcePath) with
    ⟨nowhere, unchanged⟩ | ⟨p, k, t', -, leads, notRoot, hk, gone, pruned, after⟩
  · cases unchanged.symm.trans removed
    apply nothing rfl
    rintro n ⟨-, -, p, segments, notRoot, leads, -⟩
    rcases nowhere with empty | absent | atRoot
    · exact root empty
    · cases absent.symm.trans leads
    · cases atRoot.symm.trans leads
      exact notRoot rfl
  · cases gone.symm.trans removed
    have deletes : ∀ n, Deletes paths change m n ↔ n ∈ p :: (w.children p).nodes := by
      intro n
      rw [← shaped.findPath_iff (shaped.live p k hk)]
      constructor
      · rintro ⟨-, -, q, segments, -, found, further⟩
        cases leads.symm.trans found
        exact ⟨segments, further⟩
      · rintro ⟨segments, further⟩
        exact ⟨of_not_not kept, root, p, segments, notRoot, leads, further⟩
    refine ⟨⟨_, after⟩, fun n => ?_, fun n live spared => ?_⟩
    · rw [deletes, MountTree.freedSince, pruned.freed, List.drop_left, List.mem_append,
        (w.children p).postorder_perm.mem_iff, List.mem_singleton, List.mem_cons, or_comm]
    · rw [deletes] at spared
      show (t'.nodes n).isSome
      rw [pruned.others n spared, Option.isSome_map]
      exact live

end

/-! ## The machine -/

/-- An operation in progress, with the nodes that were freed since it was last given them. -/
structure InFlight where
  program : VfsProgram CallOutcome
  dangling : List NodePtr := []

structure WatchedMount where
  mount : FlVfsMount
  operations : List InFlight := []
  /-- A section has followed a pointer to a freed node. -/
  strayed : Bool := false

inductive WatchEvent
  | start (worker : ℕ) (call : MountCall)
  /-- The next step of an operation: a section, which creates a node at `fresh`, or a call
  of something outside of the mount, with its reply. -/
  | advance (i : ℕ) (fresh : NodePtr) (answer : (op : VfsOp) → op.Reply)
  | change (change : FileChange)
  | bump

section
variable (natural : NaturalCompare) (paths : PathLibrary) (self : VfsState) (slots : ℕ)
variable {Score : Type} [LinearOrder Score] (matcher : Matcher Score)

namespace WatchedMount

variable (s : WatchedMount)

def advance (i : ℕ) (fresh : NodePtr) (answer : (op : VfsOp) → op.Reply) :
    Option WatchedMount :=
  match s.operations[i]? with
  | some ⟨.perform (.mount op) next, dangling⟩ =>
      if (s.mount.tree.nodes fresh).isSome then none
      else if op.names.any (· ∈ dangling) then some { s with strayed := true }
      else
        match op.run natural fresh s.mount with
        | none => some { s with strayed := true }
        | some (r, m) =>
            some { s with
              mount := m
              operations :=
                s.operations.set i ⟨next r, dangling.filter (· ∉ op.gives r)⟩ }
  | some ⟨.perform op next, dangling⟩ =>
      some { s with operations := s.operations.set i ⟨next (answer op), dangling⟩ }
  | _ => none

/-- A change, processed under the lock. -/
def process (change : FileChange) : Option WatchedMount :=
  (processChange paths change s.mount).map fun m =>
    { s with
      mount := m
      operations := s.operations.map fun f =>
        { f with dangling := f.dangling ++ s.mount.tree.freedSince m.tree } }

def step : WatchEvent → Option WatchedMount
  | .start worker call =>
      some { s with
        operations := s.operations ++ [⟨vfsOpsExecute self slots matcher worker call, []⟩] }
  | .advance i fresh answer => s.advance natural i fresh answer
  | .change change => s.process paths change
  | .bump => some { s with mount := bumpVersion s.mount }

end WatchedMount

end

/-- No section has followed a pointer to a freed node, and none will unless a further node is
freed: the nodes that operations hold are in the tree, and have been since. -/
structure WatchedMount.Sound (s : WatchedMount) : Prop where
  straight : s.strayed = false
  held : ∀ f ∈ s.operations, ∀ n, Holds nodePtrs f.program n →
    (s.mount.tree.nodes n).isSome ∧ n ∉ f.dangling

/-- The change deletes no node that an operation in progress holds. -/
def SparesHeld (paths : PathLibrary) (s : WatchedMount) : WatchEvent → Prop
  | .change change => ∀ f ∈ s.operations, ∀ n, Holds nodePtrs f.program n →
      ¬ Deletes paths change s.mount n
  | _ => True

/-! ## Steps -/

section
variable {natural : NaturalCompare} {paths : PathLibrary} {self : VfsState} {slots : ℕ}
variable {Score : Type} [LinearOrder Score] {matcher : Matcher Score} {s s' : WatchedMount}

/-- What the next step of an operation does, with `fresh` for a node that it creates. -/
inductive Advanced (natural : NaturalCompare) (s : WatchedMount) (i : ℕ) (fresh : NodePtr) :
    WatchedMount → Prop
  | entered {op : MountSection} {next : op.Reply → VfsProgram CallOutcome}
      {dangling : List NodePtr} {r : op.Reply} {m : FlVfsMount}
      (here : s.operations[i]? = some ⟨.perform (VfsOp.mount op) next, dangling⟩)
      (free : s.mount.tree.nodes fresh = none)
      (run : op.run natural fresh s.mount = some (r, m)) :
      Advanced natural s i fresh { s with
        mount := m
        operations := s.operations.set i ⟨next r, dangling.filter (· ∉ op.gives r)⟩ }
  | strayed {op : MountSection} {next : op.Reply → VfsProgram CallOutcome}
      {dangling : List NodePtr}
      (here : s.operations[i]? = some ⟨.perform (VfsOp.mount op) next, dangling⟩)
      (free : s.mount.tree.nodes fresh = none)
      (stray : (∃ n ∈ op.names, n ∈ dangling) ∨ op.run natural fresh s.mount = none) :
      Advanced natural s i fresh { s with strayed := true }
  | outside {op : VfsOp} {next : op.Reply → VfsProgram CallOutcome} {dangling : List NodePtr}
      (r : op.Reply) (here : s.operations[i]? = some ⟨.perform op next, dangling⟩)
      (gives : nodePtrs.gives op r = ∅) :
      Advanced natural s i fresh { s with operations := s.operations.set i ⟨next r, dangling⟩ }

theorem advance_cases {i : ℕ} {fresh : NodePtr} {answer : (op : VfsOp) → op.Reply}
    (h : s.advance natural i fresh answer = some s') : Advanced natural s i fresh s' := by
  unfold WatchedMount.advance at h
  cases here : s.operations[i]? with
  | none =>
      rw [here] at h
      cases h
  | some f =>
      obtain ⟨p, dangling⟩ := f
      rw [here] at h
      cases p with
      | done a => cases h
      | perform op next =>
          cases op with
          | mount op =>
              dsimp only at h
              split_ifs at h with taken stray
              · cases h
                refine .strayed here (Option.not_isSome_iff_eq_none.mp taken) (.inl ?_)
                simpa using stray
              · cases ran : op.run natural fresh s.mount with
                | none =>
                    rw [ran] at h
                    cases h
                    exact .strayed here (Option.not_isSome_iff_eq_none.mp taken) (.inr ran)
                | some result =>
                    rw [ran] at h
                    cases h
                    exact .entered here (Option.not_isSome_iff_eq_none.mp taken) ran
          | _ =>
              cases h
              exact .outside _ here rfl

variable {w : Forest NodePtr}

/-- A step of an operation leaves what the others hold as it was. -/
theorem WatchedMount.Sound.set (h : s.Sound) {i : ℕ} {m : FlVfsMount} {f : InFlight}
    (kept : ∀ n, (s.mount.tree.nodes n).isSome → (m.tree.nodes n).isSome)
    (held : ∀ n, Holds nodePtrs f.program n → (m.tree.nodes n).isSome ∧ n ∉ f.dangling) :
    WatchedMount.Sound { s with mount := m, operations := s.operations.set i f } := by
  refine ⟨h.straight, ?_⟩
  intro g hg n holds
  rcases List.mem_or_eq_of_mem_set hg with old | rfl
  · obtain ⟨live, intact⟩ := h.held g old n holds
    exact ⟨kept n live, intact⟩
  · exact held n holds

theorem advanced_sound {i : ℕ} {fresh : NodePtr} (h : s.Sound) (shaped : Shaped s.mount.tree w)
    (advanced : Advanced natural s i fresh s') : s'.Sound ∧ ∃ w', Shaped s'.mount.tree w' := by
  cases advanced with
  | @entered op next dangling r m here free run =>
      refine ⟨h.set (fun n => section_keeps shaped free run) ?_, section_shaped shaped free run⟩
      intro n holds
      have back : n ∈ nodePtrs.gives (VfsOp.mount op) r ∨
          Holds nodePtrs (.perform (VfsOp.mount op) next) n := Holds.back holds
      rcases back with given | before
      · refine ⟨section_gives shaped free run given, fun old => ?_⟩
        exact of_decide_eq_true (List.mem_filter.mp old).2 given
      · obtain ⟨live, intact⟩ := h.held _ (List.mem_of_getElem? here) n before
        exact ⟨section_keeps shaped free run live, fun old => intact (List.mem_filter.mp old).1⟩
  | @strayed op next dangling here free stray =>
      have held := h.held _ (List.mem_of_getElem? here)
      have named : ∀ n ∈ op.names, (s.mount.tree.nodes n).isSome ∧ n ∉ dangling := by
        intro n hn
        have now : Holds nodePtrs (.perform (VfsOp.mount op) next) n := .now hn
        exact held n now
      rcases stray with ⟨n, hn, dangles⟩ | stuck
      · exact absurd dangles (named n hn).2
      · have total : ∃ r m, op.run natural fresh s.mount = some (r, m) :=
          section_total shaped free fun n hn => (named n hn).1
        obtain ⟨r, m, run⟩ := total
        cases stuck.symm.trans run
  | @outside op next dangling r here gives =>
      refine ⟨h.set (fun _ live => live) ?_, w, shaped⟩
      intro n holds
      have back : n ∈ nodePtrs.gives op r ∨ Holds nodePtrs (.perform op next) n :=
        Holds.back holds
      rcases back with given | before
      · rw [gives] at given
        exact given.elim
      · exact h.held _ (List.mem_of_getElem? here) n before

theorem process_sound_iff {change : FileChange} (h : s.Sound) (shaped : Shaped s.mount.tree w)
    (run : s.process paths change = some s') :
    (s'.Sound ↔ SparesHeld paths s (.change change)) ∧ ∃ w', Shaped s'.mount.tree w' := by
  obtain ⟨m, processed, rfl⟩ := Option.map_eq_some_iff.mp run
  obtain ⟨shaped', freed, kept⟩ := change_frees shaped processed
  refine ⟨⟨?_, ?_⟩, shaped'⟩
  · intro sound f hf n holds deletes
    apply (sound.held _ (List.mem_map_of_mem hf) n holds).2
    exact List.mem_append_right _ ((freed n).mpr deletes)
  · intro spares
    refine ⟨h.straight, ?_⟩
    intro g hg n holds
    obtain ⟨f, hf, rfl⟩ := List.mem_map.mp hg
    obtain ⟨live, intact⟩ := h.held f hf n holds
    have spared := spares f hf n holds
    refine ⟨kept n live spared, fun dangles => ?_⟩
    rcases List.mem_append.mp dangles with old | new
    · exact intact old
    · exact spared ((freed n).mp new)

theorem step_sound_iff {e : WatchEvent} (h : s.Sound) (shaped : Shaped s.mount.tree w)
    (taken : s.step natural paths self slots matcher e = some s') :
    (s'.Sound ↔ SparesHeld paths s e) ∧ ∃ w', Shaped s'.mount.tree w' := by
  cases e with
  | start worker call =>
      cases taken
      refine ⟨iff_of_true ⟨h.straight, ?_⟩ trivial, w, shaped⟩
      intro f hf n holds
      rcases List.mem_append.mp hf with old | new
      · exact h.held f old n holds
      · cases List.mem_singleton.mp new
        have known := vfsOpsExecute_knows (K := ∅) self slots matcher worker call
        exact (known.holds holds).elim
  | advance i fresh answer =>
      obtain ⟨sound, shaped'⟩ := advanced_sound h shaped (advance_cases taken)
      exact ⟨iff_of_true sound trivial, shaped'⟩
  | change change => exact process_sound_iff h shaped taken
  | bump =>
      cases taken
      exact ⟨iff_of_true ⟨h.straight, h.held⟩ trivial, w, shaped⟩

/-! ## Runs -/

variable {s₀ : WatchedMount} {root : NodePtr} {name : FlString} {entry : Option PluginEntry}
variable {handles : VfsHandles}

/-- Operations on a mount and changes that `vfs_update` processes, in any order of their
sections: as long as no deletion frees a node that an operation in progress holds, no section
follows a pointer to a freed node, and every node that an operation holds is in the tree. The
first deletion that does free one leaves the operation with a dangling pointer. -/
theorem held_nodes_live
    (mounted : s₀.mount.tree = (MountState.mounted root name entry handles).tree)
    (idle : s₀.operations = []) (straight : s₀.strayed = false)
    (run : Transition.Reaches (WatchedMount.step natural paths self slots matcher)
      (SparesHeld paths) s₀ s) :
    s.Sound ∧ ∀ e s', s.step natural paths self slots matcher e = some s' →
      (s'.Sound ↔ SparesHeld paths s e) := by
  have start : s₀.Sound ∧ ∃ w, Shaped s₀.mount.tree w := by
    refine ⟨⟨straight, ?_⟩, ?_⟩
    · rw [idle]
      exact List.forall_mem_nil _
    · rw [mounted]
      exact ⟨_, (Sound.mounted root name entry handles).shaped⟩
  have here : s.Sound ∧ ∃ w, Shaped s.mount.tree w := by
    apply run.invariant start
    intro t e u ht spares taken
    obtain ⟨sound, w, shaped⟩ := ht
    obtain ⟨next, shaped'⟩ := step_sound_iff sound shaped taken
    exact ⟨next.mpr spares, shaped'⟩
  obtain ⟨sound, w, shaped⟩ := here
  exact ⟨sound, fun e s' taken => (step_sound_iff sound shaped taken).1⟩

end

/-! ## A directory that is deleted under a walk -/

/-- A driver that knows no sizes, opens nothing, and reports a file in every directory. -/
def plainReply : (op : VfsOp) → op.Reply
  | .driver (.canOpen ..) => false
  | .driver (.openPath ..) => ⟨none, false, false⟩
  | .driver (.isDirectory ..) => false
  | .driver (.getSize ..) => (-1 : ℤ)
  | .driver (.read ..) => ⟨0, []⟩
  | .driver (.listDirectory ..) => [{ name := ['e'], size := 1, isDirectory := false }]
  | .driver (.clone ..) => ⟨none, false, false⟩
  | .driver (.close ..) => ()
  | .driver (.openMemory ..) => ⟨none, false, false⟩
  | .driver (.getFilePath ..) => []
  | .driver (.malloc _) => (0 : ℕ)
  | .driver (.free _) => ()
  | .mount op => op.fallback
  | .shouldCancel => false
  | .allocate _ => none
  | .reallocate .. => none
  | .release _ => ()
  | .readFile .. => ⟨0, []⟩
  | .callback .. => none
  | .fileWatcherStart _ => (0 : ℕ)
  | .strayString => []

/-- A step of the first operation; a node that it creates goes to the slot `fresh`. -/
def plainStep (fresh : NodePtr) : WatchEvent := .advance 0 fresh plainReply

def deletesD : WatchEvent := .change { path := ['d'], deleted := true }

/-- The steps of a mount whose root has a driver. -/
def listedStep : WatchedMount → WatchEvent → Option WatchedMount :=
  WatchedMount.step byFirstLetter letters ⟨[lister, archiver], letters⟩ 1 matchAll

/-- Some events from a mounted tree without operations, whatever they delete. -/
def strays (events : List WatchEvent) : Option Bool :=
  (Transition.replay listedStep (fun _ _ => True) events ⟨listedMount, [], false⟩).map
    WatchedMount.strayed

theorem strays_reaches {events : List WatchEvent} (h : strays events = some true) :
    ∃ s, Transition.Reaches listedStep (fun _ _ => True) ⟨listedMount, [], false⟩ s ∧
      s.strayed = true := by
  obtain ⟨s, run, strayed⟩ := Option.map_eq_some_iff.mp h
  exact ⟨s, Transition.replay_reaches events run, strayed⟩

/-- The watcher deletes `d` when an operation has got the pointer to it: a walk to `d/e/f`,
which goes on from there, and a listing of `d`, which puts an entry below it. -/
theorem walk_follows_freed :
    strays (.start 0 (.fileOpen ['d', 'e', 'f'] 1) :: List.replicate 5 (plainStep 1) ++
      [deletesD, plainStep 1]) = some true ∧
    strays (.start 0 (.list ['d'] []) :: List.replicate 6 (plainStep 1) ++
      [plainStep 2, deletesD, plainStep 1, plainStep 1]) = some true ∧
    ∃ s, Transition.Reaches listedStep (fun _ _ => True) ⟨listedMount, [], false⟩ s ∧
      s.strayed = true := by
  have walk : strays (.start 0 (.fileOpen ['d', 'e', 'f'] 1) :: List.replicate 5 (plainStep 1) ++
      [deletesD, plainStep 1]) = some true := by
    decide +kernel
  refine ⟨walk, ?_, strays_reaches walk⟩
  decide +kernel

/-! ## Deletions that no operation in progress meets -/

/-- The operation has ended. -/
def InFlight.isDone (f : InFlight) : Bool :=
  match f.program with
  | .done _ => true
  | _ => false

theorem InFlight.isDone_holds {f : InFlight} {n : NodePtr} (h : f.isDone = true) :
    ¬ Holds nodePtrs f.program n := by
  obtain ⟨p, dangling⟩ := f
  cases p with
  | done a => exact not_holds_done
  | perform op next => cases h

/-- No section gives an operation one of the nodes `zs`, and a change comes behind every
operation, or frees only such nodes. -/
def avoids (natural : NaturalCompare) (paths : PathLibrary) (zs : List NodePtr)
    (s : WatchedMount) : WatchEvent → Bool
  | .advance i fresh _ =>
      match s.operations[i]? with
      | some ⟨.perform (.mount op) _, _⟩ =>
          (op.run natural fresh s.mount).all fun r => (op.gives r.1).all (· ∉ zs)
      | _ => true
  | .change change =>
      s.operations.all InFlight.isDone ||
        (processChange paths change s.mount).all fun m =>
          (s.mount.tree.freedSince m.tree).all (· ∈ zs)
  | _ => true

/-- No operation in progress can have a pointer to one of the nodes. -/
def Unknown (zs : List NodePtr) (s : WatchedMount) : Prop :=
  ∀ f ∈ s.operations, Knows nodePtrs (fun _ _ => True) {n | n ∉ zs} f.program

section
variable {natural : NaturalCompare} {paths : PathLibrary} {self : VfsState} {slots : ℕ}
variable {Score : Type} [LinearOrder Score] {matcher : Matcher Score} {s₀ s s' : WatchedMount}
variable {zs : List NodePtr} {e : WatchEvent} {w : Forest NodePtr}

theorem unknown_spares (shaped : Shaped s.mount.tree w) (unknown : Unknown zs s)
    (avoid : avoids natural paths zs s e = true)
    (taken : s.step natural paths self slots matcher e = some s') : SparesHeld paths s e := by
  cases e with
  | change change =>
      intro f hf n holds deleted
      obtain ⟨m, processed, -⟩ := Option.map_eq_some_iff.mp taken
      simp only [avoids, processed, Option.all_some, Bool.or_eq_true] at avoid
      rcases avoid with finished | behind
      · exact InFlight.isDone_holds (List.all_eq_true.mp finished f hf) holds
      · have freed := ((change_frees shaped processed).2.1 n).mpr deleted
        have known : n ∉ zs := (unknown f hf).holds holds
        exact known (of_decide_eq_true (List.all_eq_true.mp behind n freed))
  | _ => trivial

theorem unknown_step (unknown : Unknown zs s) (avoid : avoids natural paths zs s e = true)
    (taken : s.step natural paths self slots matcher e = some s') : Unknown zs s' := by
  have set : ∀ {i : ℕ} {f : InFlight} {m : FlVfsMount},
      Knows nodePtrs (fun _ _ => True) {n | n ∉ zs} f.program →
        Unknown zs { s with mount := m, operations := s.operations.set i f } := by
    intro i f m known g hg
    rcases List.mem_or_eq_of_mem_set hg with old | rfl
    · exact unknown g old
    · exact known
  cases e with
  | start worker call =>
      cases taken
      intro f hf
      rcases List.mem_append.mp hf with old | new
      · exact unknown f old
      · cases List.mem_singleton.mp new
        exact vfsOpsExecute_knows self slots matcher worker call
  | advance i fresh answer =>
      have advanced : Advanced natural s i fresh s' := advance_cases taken
      cases advanced with
      | @entered op next dangling r m here free run =>
          simp only [avoids, here, run, Option.all_some] at avoid
          apply set
          apply (unknown _ (List.mem_of_getElem? here)).reply
          intro n given
          exact of_decide_eq_true (List.all_eq_true.mp avoid n given)
      | strayed => exact unknown
      | @outside op next dangling r here gives =>
          apply set
          apply (unknown _ (List.mem_of_getElem? here)).reply
          rw [gives]
          exact Set.empty_subset _
  | change change =>
      obtain ⟨m, -, rfl⟩ := Option.map_eq_some_iff.mp taken
      intro f hf
      obtain ⟨g, hg, rfl⟩ := List.mem_map.mp hf
      exact unknown g hg
  | bump =>
      cases taken
      exact unknown

/-- No operation has strayed, and none in progress can have a pointer to one of the nodes. -/
structure Apart (zs : List NodePtr) (s : WatchedMount) : Prop where
  sound : s.Sound
  unknown : Unknown zs s
  shaped : ∃ w, Shaped s.mount.tree w

theorem Apart.idle (shaped : Shaped s.mount.tree w) (straight : s.strayed = false)
    (idle : s.operations = []) : Apart zs s := by
  have none : ∀ f ∈ s.operations, False := by
    rw [idle]
    exact List.forall_mem_nil _
  exact ⟨⟨straight, fun f hf => (none f hf).elim⟩, fun f hf => (none f hf).elim, w, shaped⟩

theorem Apart.step (apart : Apart zs s) (avoid : avoids natural paths zs s e = true)
    (taken : s.step natural paths self slots matcher e = some s') : Apart zs s' := by
  obtain ⟨w, shaped⟩ := apart.shaped
  have spares := unknown_spares shaped apart.unknown avoid taken
  obtain ⟨next, shaped'⟩ := step_sound_iff apart.sound shaped taken
  exact ⟨next.mpr spares, unknown_step apart.unknown avoid taken, shaped'⟩

/-- Such a run spares the nodes that operations hold. -/
theorem Apart.run (apart : Apart zs s₀)
    (run : Transition.Reaches (WatchedMount.step natural paths self slots matcher)
      (fun s e => avoids natural paths zs s e = true) s₀ s) :
    Transition.Reaches (WatchedMount.step natural paths self slots matcher)
      (SparesHeld paths) s₀ s ∧ Apart zs s := by
  have keeps : ∀ t e u, Apart zs t → avoids natural paths zs t e = true →
      t.step natural paths self slots matcher e = some u → Apart zs u :=
    fun t e u ht avoid taken => ht.step avoid taken
  refine ⟨run.strengthen apart ?_ keeps, run.invariant apart keeps⟩
  intro t e u ht avoid taken
  obtain ⟨w, shaped⟩ := ht.shaped
  exact unknown_spares shaped ht.unknown avoid taken

end

/-- The root is listed, which makes a node for `e`. -/
def listsE : List WatchEvent :=
  .start 0 (.list [] []) :: List.replicate 6 (plainStep 1) ++ List.replicate 3 (plainStep 2)

/-- Steps of the second operation. -/
def secondSteps (steps : ℕ) (fresh : NodePtr) : List WatchEvent :=
  List.replicate steps (.advance 1 fresh plainReply)

/-- An open of `d/e/f` has got as far as the node of `d`. -/
def opensD : List WatchEvent := .start 0 (.fileOpen ['d', 'e', 'f'] 1) :: secondSteps 5 2

def deletesE : WatchEvent := .change { path := ['e'], deleted := true }

/-- The next section of the operation follows a pointer to the node. -/
def InFlight.isAt (n : NodePtr) (f : InFlight) : Bool :=
  match f.program with
  | .perform (.mount op) _ => op.names.contains n
  | _ => false

theorem InFlight.isAt_holds {f : InFlight} {n : NodePtr} (h : f.isAt n = true) :
    Holds nodePtrs f.program n := by
  obtain ⟨p, dangling⟩ := f
  cases p with
  | done a => cases h
  | perform op next =>
      cases op with
      | mount op => exact .now (List.contains_iff_mem.mp h)
      | _ => cases h

/-- The watcher deletes `e` while the open of `d/e/f` stands on the node of `d`, and the open
goes on from there to its end. -/
theorem held_nodes_live_elsewhere : ∃ t s : WatchedMount,
    (∃ f ∈ t.operations, Holds nodePtrs f.program 2) ∧ t.mount.tree.freed = [] ∧
    Transition.Reaches listedStep (SparesHeld letters) t s ∧
    s.mount.tree.freed = [1] ∧ s.operations.all InFlight.isDone ∧ s.Sound ∧
    ∀ e s', listedStep s e = some s' → (s'.Sound ↔ SparesHeld letters s e) := by
  have ends : ((Transition.replay listedStep
      (fun s e => avoids byFirstLetter letters [1] s e = true) (listsE ++ opensD)
      ⟨listedMount, [], false⟩).bind fun t =>
        (Transition.replay listedStep (fun s e => avoids byFirstLetter letters [1] s e = true)
          (deletesE :: secondSteps 2 3 ++ secondSteps 2 4) t).map fun s =>
            (t.operations.any (InFlight.isAt 2), t.mount.tree.freed, s.mount.tree.freed,
              s.operations.all InFlight.isDone)) = some (true, [], [1], true) := by
    decide +kernel
  obtain ⟨t, before, ends⟩ := Option.bind_eq_some_iff.mp ends
  obtain ⟨s, behind, ends⟩ := Option.map_eq_some_iff.mp ends
  simp only [Prod.mk.injEq] at ends
  obtain ⟨stands, nothing, freed, finished⟩ := ends
  obtain ⟨f, hf, at2⟩ := List.any_eq_true.mp stands
  have start : Apart [1] ⟨listedMount, [], false⟩ :=
    .idle (Sound.mounted 0 [] (some lister) [some 4]).shaped rfl rfl
  obtain ⟨reached, apart⟩ := start.run (Transition.replay_reaches _ before)
  obtain ⟨rest, -⟩ := apart.run (Transition.replay_reaches _ behind)
  exact ⟨t, s, ⟨f, hf, InFlight.isAt_holds at2⟩, nothing, rest, freed, finished,
    held_nodes_live rfl rfl rfl (reached.trans rest)⟩

end FlowiVfs.Tree
