import FlowiVfs.NodeHandles

/-!
# Every driver handle of a mount

Operations of any number of workers and the changes of the watcher on one mount, as in
`WatchedWalks`, with every driver handle from the call that opens it to the call that closes
it. A file that was opened is read, and closed with the handle of its operation.

A load closes the handles that its node had, and a deletion those of the nodes that it
frees, whoever has copied them: an operation in progress, or a file that was opened from
one. No driver is passed a closed handle as long as these come when nobody has. Whatever
they meet, no handle is closed twice and none is lost, as long as no deletion frees a node that
an operation in progress holds.

Handles are named by the call that opened them: a driver never opens the same one twice.
-/
namespace FlowiVfs.Tree

open Program Linked

/-! ## The machine -/

/-- The handle that a call closes. -/
def VfsOp.closes : VfsOp → List OpenHandle
  | .driver (.close entry handle) => handleOf entry (some handle)
  | _ => []

namespace WatchedMount

variable (s : WatchedMount)

/-- The call that a step performs, with the reply to it. -/
def performed : WatchEvent → Option ((op : VfsOp) × op.Reply)
  | .advance i _ answer =>
      match s.operations[i]? with
      | some ⟨.perform op _, _⟩ => some ⟨op, answer op⟩
      | _ => none
  | _ => none

/-- What an operation came to, when it has ended. -/
def ended (i : ℕ) : Option CallOutcome :=
  match s.operations[i]? with
  | some ⟨.done outcome, _⟩ => some outcome
  | _ => none

end WatchedMount

structure LedgerMount extends WatchedMount where
  /-- The handles that drivers have opened. -/
  issued : List OpenHandle := []
  closed : List OpenHandle := []
  /-- A driver was passed a closed handle. -/
  misused : Bool := false

inductive LedgerEvent
  | watch (e : WatchEvent)
  /-- `vfs_op_file_read` on the file that an operation has opened. -/
  | read (i : ℕ)
  /-- `vfs_close` of the handle of an operation that has ended. -/
  | close (i : ℕ)

section
variable (natural : NaturalCompare) (paths : PathLibrary) (self : VfsState) (slots : ℕ)
variable {Score : Type} [LinearOrder Score] (matcher : Matcher Score)

namespace LedgerMount

variable (s : LedgerMount)

/-- A step of the mount, with the handles that were passed to drivers in it, those that they
opened, and those that the operation closed. What the mount closes is passed to them too. -/
def book (w : WatchedMount) (used made shut : List OpenHandle) : LedgerMount where
  toWatchedMount := w
  issued := s.issued ++ made
  closed := s.closed ++ (closedSince s.mount w.mount ++ shut)
  misused := s.misused || (used ++ closedSince s.mount w.mount).any (· ∈ s.closed)

def watch (e : WatchEvent) : Option LedgerMount :=
  (s.toWatchedMount.step natural paths self slots matcher e).bind fun w =>
    match s.performed e with
    | none => some (s.book w [] [] [])
    | some ⟨op, r⟩ =>
        if (op.makes r).any (· ∈ s.issued) then none
        else some (s.book w op.uses (op.makes r) op.closes)

/-- A read is passed the handle of the file, and the driver may look into the one that the
file was opened from. -/
def readFile (i : ℕ) : Option LedgerMount :=
  (s.ended i).map fun outcome =>
    s.book s.toWatchedMount (outcome.handles ++ outcome.borrows) [] []

/-- What is left is what `vfs_get_status` returns for a handle that is not there. -/
def closeHandle (i : ℕ) : Option LedgerMount :=
  (s.ended i).map fun outcome =>
    s.book { s.toWatchedMount with
        operations := s.operations.set i ⟨.done (.fileOpen (.failed VFS_STATE_ERROR)), []⟩ }
      outcome.handles [] outcome.handles

def step : LedgerEvent → Option LedgerMount
  | .watch e => s.watch natural paths self slots matcher e
  | .read i => s.readFile i
  | .close i => s.closeHandle i

end LedgerMount

end

/-- The file that an operation returns depends on its own handle and on its container's. -/
def CallOutcome.depends (outcome : CallOutcome) : Set OpenHandle :=
  {h | h ∈ outcome.handles ∨ h ∈ outcome.borrows}

/-- The operation may pass the handle to a driver, or returns a file that depends on it. -/
def InFlight.Needs (f : InFlight) (h : OpenHandle) : Prop :=
  Program.Needs driverHandles.vocabulary CallOutcome.depends f.program h

/-- No driver was passed a closed handle and no section followed a pointer to a freed node,
and none will unless further handles are closed or nodes freed. -/
structure LedgerMount.Sound (s : LedgerMount) : Prop where
  nodes : s.toWatchedMount.Sound
  straight : s.misused = false
  available : ∀ f ∈ s.operations, ∀ h, f.Needs h → h ∉ s.closed

/-- The handles that a step takes out of nodes and closes. -/
def Closing (paths : PathLibrary) (s : WatchedMount) (h : OpenHandle) : WatchEvent → Prop
  | .advance i _ _ => ∃ (op : MountSection) (next : op.Reply → VfsProgram CallOutcome)
      (dangling : List NodePtr), s.operations[i]? = some ⟨.perform (VfsOp.mount op) next, dangling⟩ ∧
        ∃ node ∈ op.replaces, h ∈ s.mount.tree.closesOf node
  | .change change => ∃ n, Deletes paths change s.mount n ∧ h ∈ s.mount.tree.closesOf n
  | _ => False

/-- A deletion frees no node that an operation in progress holds. -/
def SparesNodes (paths : PathLibrary) (s : LedgerMount) : LedgerEvent → Prop
  | .watch e => SparesHeld paths s.toWatchedMount e
  | _ => True

/-- And no handle is closed in a node that an operation or an open file needs. -/
def SparesNeeded (paths : PathLibrary) (s : LedgerMount) (e : LedgerEvent) : Prop :=
  SparesNodes paths s e ∧ ∀ w h, e = .watch w → Closing paths s.toWatchedMount h w →
    ∀ f ∈ s.operations, ¬ f.Needs h

/-! ## Who has what -/

/-- Operations own what they opened and have not given away, nodes have what was put into
them, and `P` is what was in a node at some time. -/
structure Entrusted (s : LedgerMount) (own : ℕ → Multiset OpenHandle) (P : Set OpenHandle) :
    Prop where
  typed : ∀ i f, s.operations[i]? = some f → Owns driverHandles Settled (own i) P f.program
  idle : ∀ i, s.operations[i]? = none → own i = 0
  custody : Custody s.mount.tree.closesOf s.issued s.closed own P
  shaped : ∃ w, Shaped s.mount.tree w

theorem settled_grows (O : Multiset OpenHandle) (K₁ K₂ : Set OpenHandle) (outcome : CallOutcome)
    (more : K₁ ⊆ K₂) (h : Settled O K₁ outcome) : Settled O K₂ outcome :=
  ⟨h.1, fun x hx => more (h.2 x hx)⟩

theorem settled_depends (O : Multiset OpenHandle) (K : Set OpenHandle) (outcome : CallOutcome)
    (h : Settled O K outcome) : ∀ n ∈ outcome.depends, n ∈ O ∨ n ∈ K := by
  obtain ⟨rfl, known⟩ := h
  exact fun n depends => depends.imp_right (known n)

theorem closesOf_nodup (t : MountTree) (n : NodePtr) : (t.closesOf n).Nodup := by
  rw [MountTree.closesOf]
  cases t.nodes n with
  | none => exact List.nodup_nil
  | some k => exact k.closes_nodup

section
variable {natural : NaturalCompare} {paths : PathLibrary} {self : VfsState} {slots : ℕ}
variable {Score : Type} [LinearOrder Score] {matcher : Matcher Score} {s s' : LedgerMount}
variable {own : ℕ → Multiset OpenHandle} {P : Set OpenHandle} {i : ℕ} {f : InFlight}

namespace Entrusted

/-- What an operation needs is its own, or is or was in a node. -/
theorem needs (c : Entrusted s own P) {h : OpenHandle} (here : s.operations[i]? = some f)
    (needs : f.Needs h) : h ∈ own i ∨ h ∈ P :=
  (c.typed i f here).needs settled_depends needs

/-- A step of one operation, which keeps `rest` and puts handles into a node or closes them. -/
theorem book (c : Entrusted s own P) (w : WatchedMount) (used made shut placed : List OpenHandle)
    (rest : Multiset OpenHandle) {f' : InFlight} {emptied : List NodePtr} {target : NodePtr}
    (moves : MovesHandles s.mount w.mount emptied placed target)
    (split : own i = ((placed ++ shut : List OpenHandle) : Multiset OpenHandle) + rest)
    (new : ∀ h ∈ made, h ∉ s.issued) (distinct : made.Nodup)
    (here : w.operations[i]? = some f') (others : ∀ k, k ≠ i → w.operations[k]? = s.operations[k]?)
    (typed : Owns driverHandles Settled ((made : Multiset OpenHandle) + rest)
      (P ∪ {h | h ∈ placed}) f'.program)
    (shaped : ∃ w', Shaped w.mount.tree w') :
    Entrusted (s.book w used made shut)
      (Function.update own i ((made : Multiset OpenHandle) + rest)) (P ∪ {h | h ∈ placed}) := by
  have after := c.custody.move moves.moves (closesOf_nodup w.mount.tree) split new distinct
  rw [← moves.closes] at after
  refine ⟨?_, ?_, after, shaped⟩
  · intro k f hk
    by_cases e : k = i
    · subst e
      cases here.symm.trans hk
      rw [Function.update_self]
      exact typed
    · rw [Function.update_of_ne e]
      exact (c.typed k f ((others k e).symm.trans hk)).mono Set.subset_union_left settled_grows
  · intro k hk
    have e : k ≠ i := by
      rintro rfl
      cases here.symm.trans hk
    rw [Function.update_of_ne e]
    exact c.idle k ((others k e).symm.trans hk)

/-- A change of the watcher, which leaves what the operations own. -/
theorem sweep (c : Entrusted s own P) (w : WatchedMount) (used : List OpenHandle)
    {emptied : List NodePtr} {target : NodePtr} (moves : MovesHandles s.mount w.mount emptied [] target)
    (same : ∀ k : ℕ, (w.operations[k]?).map InFlight.program = (s.operations[k]?).map InFlight.program)
    (shaped : ∃ w', Shaped w.mount.tree w') : Entrusted (s.book w used [] []) own P := by
  have after := c.custody.sweep moves.moves (closesOf_nodup w.mount.tree) 0
  rw [← moves.closes] at after
  refine ⟨?_, ?_, ?_, shaped⟩
  · intro k f hk
    have program := same k
    rw [show w.operations[k]? = some f from hk] at program
    obtain ⟨g, hg, e⟩ := Option.map_eq_some_iff.mp program.symm
    exact e ▸ c.typed k g hg
  · intro k hk
    have program := same k
    rw [show w.operations[k]? = none from hk] at program
    exact c.idle k (Option.map_eq_none_iff.mp program.symm)
  · show Custody _ (s.issued ++ []) (s.closed ++ (closedSince s.mount w.mount ++ [])) own P
    rw [List.append_nil, List.append_nil]
    exact after

theorem same_mount (m : FlVfsMount) : MovesHandles m m [] [] m.tree.root :=
  .none rfl fun _ => rfl

end Entrusted

/-! ## Steps -/

/-- What the next step of an operation does. -/
inductive LedgerStep (natural : NaturalCompare) (s : LedgerMount) (i : ℕ) : LedgerMount → Prop
  | entered {op : MountSection} {next : op.Reply → VfsProgram CallOutcome}
      {dangling : List NodePtr} {fresh : NodePtr} {r : op.Reply} {m : FlVfsMount}
      (here : s.operations[i]? = some ⟨.perform (VfsOp.mount op) next, dangling⟩)
      (free : s.mount.tree.nodes fresh = none)
      (run : op.run natural fresh s.mount = some (r, m)) :
      LedgerStep natural s i (s.book { s.toWatchedMount with
        mount := m
        operations := s.operations.set i ⟨next r, dangling.filter (· ∉ op.gives r)⟩ } [] [] [])
  | strayed : LedgerStep natural s i (s.book { s.toWatchedMount with strayed := true } [] [] [])
  | called {op : VfsOp} {next : op.Reply → VfsProgram CallOutcome} {dangling : List NodePtr}
      (r : op.Reply) (here : s.operations[i]? = some ⟨.perform op next, dangling⟩)
      (outside : ∀ x, op ≠ .mount x) (new : ∀ h ∈ op.makes r, h ∉ s.issued) :
      LedgerStep natural s i (s.book { s.toWatchedMount with
        operations := s.operations.set i ⟨next r, dangling⟩ } op.uses (op.makes r) op.closes)

theorem ledger_cases {fresh : NodePtr} {answer : (op : VfsOp) → op.Reply}
    (h : s.watch natural paths self slots matcher (.advance i fresh answer) = some s') :
    LedgerStep natural s i s' := by
  obtain ⟨w, advanced, booked⟩ := Option.bind_eq_some_iff.mp h
  change s.toWatchedMount.advance natural i fresh answer = some w at advanced
  unfold WatchedMount.advance at advanced
  cases here : s.operations[i]? with
  | none =>
      rw [here] at advanced
      cases advanced
  | some f =>
      obtain ⟨p, dangling⟩ := f
      rw [here] at advanced
      cases p with
      | done a => cases advanced
      | perform op next =>
          have performed : s.performed (.advance i fresh answer) = some ⟨op, answer op⟩ := by
            rw [WatchedMount.performed, here]
          rw [performed] at booked
          cases op with
          | mount op =>
              dsimp only at advanced
              split_ifs at advanced with taken stray
              · cases advanced
                cases booked
                exact .strayed
              · cases ran : op.run natural fresh s.mount with
                | none =>
                    rw [ran] at advanced
                    cases advanced
                    cases booked
                    exact .strayed
                | some result =>
                    rw [ran] at advanced
                    cases advanced
                    cases booked
                    exact .entered here (Option.not_isSome_iff_eq_none.mp taken) ran
          | _ =>
              cases advanced
              dsimp only at booked
              split_ifs at booked with taken
              cases booked
              refine .called _ here (fun _ e => nomatch e) ?_
              simpa using taken

theorem lends_outside {op : VfsOp} (outside : ∀ x, op ≠ .mount x) (r : op.Reply) :
    op.lends r = [] := by
  cases op with
  | mount x => exact absurd rfl (outside x)
  | _ => rfl

theorem takes_outside {op : VfsOp} (outside : ∀ x, op ≠ .mount x) : op.takes = op.closes := by
  cases op with
  | mount x => exact absurd rfl (outside x)
  | driver op => cases op <;> rfl
  | _ => rfl

theorem makes_nodup (op : VfsOp) (r : op.Reply) : (op.makes r).Nodup := by
  have one : ∀ (entry : PluginEntry) (handle : Option DriverPtr), (handleOf entry handle).Nodup := by
    intro entry handle
    cases handle with
    | none => exact List.nodup_nil
    | some h => exact List.nodup_singleton _
  cases op with
  | driver op =>
      cases op with
      | openPath => exact one _ _
      | clone => exact one _ _
      | openMemory => exact one _ _
      | _ => exact List.nodup_nil
  | _ => exact List.nodup_nil

/-- The operation at `i` takes a step; the others stay as they are. -/
theorem set_others {l : List InFlight} {i : ℕ} {f : InFlight} (f' : InFlight)
    (here : l[i]? = some f) :
    (l.set i f')[i]? = some f' ∧ ∀ k, k ≠ i → (l.set i f')[k]? = l[k]? :=
  ⟨List.getElem?_set_self (List.getElem?_eq_some_iff.mp here).1,
    fun _ e => List.getElem?_set_ne (Ne.symm e)⟩

namespace Entrusted

/-- An operation that has run a section owns what it did not put into a node. -/
theorem entered (c : Entrusted s own P) {op : MountSection}
    {next : op.Reply → VfsProgram CallOutcome} {dangling : List NodePtr}
    {fresh : NodePtr} {r : op.Reply} {m : FlVfsMount} (dangling' : List NodePtr)
    (here : s.operations[i]? = some ⟨.perform (VfsOp.mount op) next, dangling⟩)
    (free : s.mount.tree.nodes fresh = none)
    (run : op.run natural fresh s.mount = some (r, m)) :
    ∃ own', Entrusted (s.book { s.toWatchedMount with
        mount := m
        operations := s.operations.set i ⟨next r, dangling'⟩ } [] [] [])
      own' (P ∪ {h | h ∈ VfsOp.takes (.mount op)}) := by
  obtain ⟨w, shaped⟩ := c.shaped
  obtain ⟨may, -, rest, split, owns⟩ := c.typed i _ here
  obtain ⟨target, moves⟩ := section_moves shaped free may run
  obtain ⟨now, others⟩ := set_others ⟨next r, dangling'⟩ here
  refine ⟨_, c.book _ [] [] [] _ rest moves ?_ (List.forall_mem_nil _) List.nodup_nil now others
    ?_ (section_shaped shaped free run)⟩
  · rw [List.append_nil]
    exact split
  · apply (owns r).mono _ settled_grows
    rintro h (known | lent)
    · exact .inl known
    · obtain ⟨⟨n, hn⟩, -⟩ := section_lends run lent
      exact .inl (c.custody.kept n h hn).1

/-- An operation that has called a driver owns what the driver has opened. -/
theorem called (c : Entrusted s own P) {op : VfsOp} {next : op.Reply → VfsProgram CallOutcome}
    {dangling : List NodePtr} (r : op.Reply)
    (here : s.operations[i]? = some ⟨.perform op next, dangling⟩)
    (outside : ∀ x, op ≠ .mount x) (new : ∀ h ∈ op.makes r, h ∉ s.issued) :
    ∃ own', Entrusted (s.book { s.toWatchedMount with
        operations := s.operations.set i ⟨next r, dangling⟩ } op.uses (op.makes r) op.closes)
      own' P := by
  obtain ⟨-, -, rest, split, owns⟩ := c.typed i _ here
  obtain ⟨now, others⟩ := set_others ⟨next r, dangling⟩ here
  have none : P ∪ {h | h ∈ ([] : List OpenHandle)} = P := by simp
  have after : Entrusted _ _ (P ∪ {h | h ∈ ([] : List OpenHandle)}) :=
    c.book { s.toWatchedMount with operations := s.operations.set i ⟨next r, dangling⟩ } op.uses
      (op.makes r) op.closes [] rest (same_mount s.mount) ?_ new (makes_nodup op r) now others ?_
      c.shaped
  · rw [none] at after
    exact ⟨_, after⟩
  · rw [List.nil_append, ← takes_outside outside]
    exact split
  · rw [none]
    apply (owns r).mono _ settled_grows
    rintro h (known | lent)
    · exact known
    · have none : h ∈ op.lends r := lent
      rw [lends_outside outside] at none
      cases none

/-- A file whose handle is closed is no longer there. -/
theorem closed (c : Entrusted s own P) {outcome : CallOutcome} {dangling : List NodePtr}
    (here : s.operations[i]? = some ⟨.done outcome, dangling⟩) :
    ∃ own', Entrusted (s.book { s.toWatchedMount with
        operations := s.operations.set i ⟨.done (.fileOpen (.failed VFS_STATE_ERROR)), []⟩ }
      outcome.handles [] outcome.handles) own' P := by
  obtain ⟨own', -⟩ := c.typed i _ here
  obtain ⟨now, others⟩ := set_others ⟨.done (.fileOpen (.failed VFS_STATE_ERROR)), []⟩ here
  have none : P ∪ {h | h ∈ ([] : List OpenHandle)} = P := by simp
  have after := c.book { s.toWatchedMount with
      operations := s.operations.set i ⟨.done (.fileOpen (.failed VFS_STATE_ERROR)), []⟩ }
    outcome.handles [] outcome.handles [] 0 (same_mount s.mount) ?_ (List.forall_mem_nil _)
    List.nodup_nil now others ?_ c.shaped
  · rw [none] at after
    exact ⟨_, after⟩
  · rw [List.nil_append, Multiset.add_zero]
    exact own'
  · exact ⟨rfl, List.forall_mem_nil _⟩

variable (self slots matcher) in
theorem start (c : Entrusted s own P) (worker : ℕ) (call : MountCall) :
    ∃ own', Entrusted (s.book { s.toWatchedMount with
        operations := s.operations ++ [⟨vfsOpsExecute self slots matcher worker call, []⟩] }
      [] [] []) own' P := by
  have none : P ∪ {h | h ∈ ([] : List OpenHandle)} = P := by simp
  have after := c.book (i := s.operations.length) { s.toWatchedMount with
      operations := s.operations ++ [⟨vfsOpsExecute self slots matcher worker call, []⟩] }
    [] [] [] [] 0 (same_mount s.mount) ?_ (List.forall_mem_nil _) List.nodup_nil
    List.getElem?_concat_length ?_ ?_ c.shaped
  · rw [none] at after
    exact ⟨_, after⟩
  · rw [c.idle _ (List.getElem?_eq_none (Nat.le_refl _))]
    rfl
  · intro k other
    rcases Nat.lt_or_ge k s.operations.length with below | above
    · exact List.getElem?_append_left below
    · rw [List.getElem?_eq_none above, List.getElem?_eq_none]
      rw [List.length_append, List.length_singleton]
      omega
  · exact (vfsOpsExecute_owns self slots matcher worker call).mono (Set.empty_subset _)
      settled_grows

end Entrusted

/-! ## What stays open -/

/-- What the next step of an operation brings into its need. -/
theorem needs_back (op : VfsOp) (next : op.Reply → VfsProgram CallOutcome) (r : op.Reply)
    (dangling : List NodePtr) {dangling' : List NodePtr} {h : OpenHandle}
    (needs : InFlight.Needs ⟨next r, dangling'⟩ h) :
    h ∈ op.lends r ∨ h ∈ op.makes r ∨ InFlight.Needs ⟨.perform op next, dangling⟩ h := by
  have back : h ∈ driverHandles.vocabulary.gives op r ∨
      InFlight.Needs ⟨.perform op next, dangling⟩ h := Program.Needs.back needs
  rcases back with (lent | made) | before
  · exact .inl lent
  · exact .inr (.inl made)
  · exact .inr (.inr before)

/-- When what is needed behind a step was open before it, then only what the mount has closed
in the step may be missed. -/
theorem book_sound_iff {w : WatchedMount} {used made shut : List OpenHandle}
    {own' : ℕ → Multiset OpenHandle} {P' : Set OpenHandle}
    (after : Entrusted (s.book w used made shut) own' P') (sound : s.Sound) (nodes : w.Sound)
    (mine : ∀ h ∈ used, h ∉ s.closed) (apart : ∀ h ∈ shut, h ∉ P')
    (closes : ∀ h ∈ closedSince s.mount w.mount, h ∉ s.closed)
    (before : ∀ f ∈ w.operations, ∀ h ∈ P', f.Needs h → h ∉ s.closed) :
    (s.book w used made shut).Sound ↔
      ∀ h ∈ closedSince s.mount w.mount, ∀ f ∈ w.operations, ¬ f.Needs h := by
  constructor
  · intro next h out f hf needs
    exact next.available f hf h needs
      (List.mem_append_right _ (List.mem_append_left _ out))
  · intro unneeded
    refine ⟨nodes, ?_, ?_⟩
    · show (s.misused || (used ++ closedSince s.mount w.mount).any (· ∈ s.closed)) = false
      rw [sound.straight, Bool.false_or, List.any_eq_false]
      intro h hh
      rcases List.mem_append.mp hh with used | out
      · simpa using mine h used
      · simpa using closes h out
    · intro f hf h needs isClosed
      obtain ⟨k, hk⟩ := List.getElem?_of_mem hf
      rcases after.needs hk needs with owned | known
      · exact (after.custody.owned k h owned).2.1 isClosed
      · rcases List.mem_append.mp isClosed with old | now
        · exact before f hf h known needs old
        rcases List.mem_append.mp now with out | byOwner
        · exact unneeded h out f hf needs
        · exact apart h byOwner known

/-- What a section closes was in a node that it names. -/
theorem section_closes (c : Entrusted s own P) {op : MountSection} {fresh : NodePtr}
    {r : op.Reply} {m : FlVfsMount} (free : s.mount.tree.nodes fresh = none)
    (may : VfsOp.storesRoot (.mount op) = false)
    (run : op.run natural fresh s.mount = some (r, m)) (h : OpenHandle) :
    h ∈ closedSince s.mount m ↔ ∃ node ∈ op.replaces, h ∈ s.mount.tree.closesOf node := by
  obtain ⟨w, shaped⟩ := c.shaped
  obtain ⟨target, moves⟩ := section_moves shaped free may run
  rw [moves.closes, List.mem_flatMap]
  simp only [Option.mem_toList, Option.mem_def]

theorem entered_sound_iff (c : Entrusted s own P) (sound : s.Sound) {op : MountSection}
    {next : op.Reply → VfsProgram CallOutcome} {dangling dangling' : List NodePtr}
    {fresh : NodePtr} {r : op.Reply} {m : FlVfsMount}
    (here : s.operations[i]? = some ⟨.perform (VfsOp.mount op) next, dangling⟩)
    (free : s.mount.tree.nodes fresh = none)
    (run : op.run natural fresh s.mount = some (r, m))
    (nodes : WatchedMount.Sound { s.toWatchedMount with
      mount := m, operations := s.operations.set i ⟨next r, dangling'⟩ }) :
    (s.book { s.toWatchedMount with
        mount := m, operations := s.operations.set i ⟨next r, dangling'⟩ } [] [] []).Sound ↔
      ∀ node ∈ op.replaces, ∀ h ∈ s.mount.tree.closesOf node, ∀ f ∈ s.operations, ¬ f.Needs h := by
  have may := (c.typed i _ here).1
  have closes := section_closes c free may run
  obtain ⟨own', after⟩ := c.entered dangling' here free run
  have mem := List.mem_of_getElem? here
  rw [book_sound_iff after sound nodes (List.forall_mem_nil _) (List.forall_mem_nil _)]
  · constructor
    · intro unneeded node hnode h inside f hf needs
      have out := (closes h).mpr ⟨node, hnode, inside⟩
      obtain ⟨k, hk⟩ := List.getElem?_of_mem hf
      by_cases e : k = i
      · subst e
        cases here.symm.trans hk
        cases op with
        | installArchive target entry handles memoryData memorySize =>
            cases needs with
            | now named =>
                rcases named with used | taken
                · cases used
                · obtain ⟨-, -, rest, split, -⟩ := c.typed k _ here
                  have own : h ∈ own k := by
                    rw [split]
                    exact Multiset.mem_add.mpr (.inl taken)
                  exact (c.custody.owned k h own).1 (c.custody.kept node h inside).1
            | later r' _ rest =>
                exact unneeded h out _ (List.mem_of_getElem? (set_others _ here).1) rest
        | _ => cases hnode
      · exact unneeded h out f
          (List.mem_of_getElem? (((set_others _ here).2 k e).trans hk)) needs
    · intro unneeded h out f hf needs
      obtain ⟨node, hnode, inside⟩ := (closes h).mp out
      rcases List.mem_or_eq_of_mem_set hf with old | rfl
      · exact unneeded node hnode h inside f old needs
      · rcases needs_back (.mount op) next r dangling needs with lent | made | before
        · rw [(section_lends run lent).2] at out
          cases out
        · cases made
        · exact unneeded node hnode h inside _ mem before
  · intro h out
    obtain ⟨node, -, inside⟩ := (closes h).mp out
    exact (c.custody.kept node h inside).2
  · intro f hf h _ needs
    rcases List.mem_or_eq_of_mem_set hf with old | rfl
    · exact sound.available f old h needs
    · rcases needs_back (.mount op) next r dangling needs with lent | made | before
      · obtain ⟨⟨n, hn⟩, -⟩ := section_lends run lent
        exact (c.custody.kept n h hn).2
      · cases made
      · exact sound.available _ mem h before

/-- A call passes no closed handle to a driver, and nobody else needs what it closes. -/
theorem called_sound (c : Entrusted s own P) (sound : s.Sound) {op : VfsOp}
    {next : op.Reply → VfsProgram CallOutcome} {dangling : List NodePtr} (r : op.Reply)
    (here : s.operations[i]? = some ⟨.perform op next, dangling⟩)
    (outside : ∀ x, op ≠ .mount x) (new : ∀ h ∈ op.makes r, h ∉ s.issued)
    (nodes : WatchedMount.Sound { s.toWatchedMount with
      operations := s.operations.set i ⟨next r, dangling⟩ }) :
    (s.book { s.toWatchedMount with operations := s.operations.set i ⟨next r, dangling⟩ } op.uses
      (op.makes r) op.closes).Sound := by
  obtain ⟨own', after⟩ := c.called r here outside new
  have mem := List.mem_of_getElem? here
  have nothing : closedSince s.mount s.mount = [] := closedSince_same rfl
  rw [book_sound_iff after sound nodes]
  · rw [show closedSince s.mount _ = [] from nothing]
    exact List.forall_mem_nil _
  · intro h used
    have now : InFlight.Needs ⟨.perform op next, dangling⟩ h := .now (.inl used)
    exact sound.available _ mem h now
  · intro h closes
    rw [← takes_outside outside] at closes
    obtain ⟨-, -, rest, split, -⟩ := c.typed i _ here
    have own : h ∈ own i := by
      rw [split]
      exact Multiset.mem_add.mpr (.inl closes)
    exact (c.custody.owned i h own).1
  · rw [show closedSince s.mount _ = [] from nothing]
    exact List.forall_mem_nil _
  · intro f hf h known needs
    rcases List.mem_or_eq_of_mem_set hf with old | rfl
    · exact sound.available f old h needs
    · rcases needs_back op next r dangling needs with lent | made | before
      · rw [lends_outside outside] at lent
        cases lent
      · exact absurd (c.custody.known h known) (new h made)
      · exact sound.available _ mem h before

theorem closed_sound (c : Entrusted s own P) (sound : s.Sound) {outcome : CallOutcome}
    {dangling : List NodePtr} (here : s.operations[i]? = some ⟨.done outcome, dangling⟩) :
    (s.book { s.toWatchedMount with
        operations := s.operations.set i ⟨.done (.fileOpen (.failed VFS_STATE_ERROR)), []⟩ }
      outcome.handles [] outcome.handles).Sound := by
  obtain ⟨own', after⟩ := c.closed here
  have nothing : closedSince s.mount s.mount = [] := closedSince_same rfl
  rw [book_sound_iff after sound]
  · rw [show closedSince s.mount _ = [] from nothing]
    exact List.forall_mem_nil _
  · refine ⟨sound.nodes.straight, fun f hf n holds => ?_⟩
    rcases List.mem_or_eq_of_mem_set hf with old | rfl
    · exact sound.nodes.held f old n holds
    · exact absurd holds not_holds_done
  · intro h mine
    have now : InFlight.Needs ⟨.done outcome, dangling⟩ h := .ended (.inl mine)
    exact sound.available _ (List.mem_of_getElem? here) h now
  · intro h mine
    have own : h ∈ own i := by
      rw [(c.typed i _ here).1]
      exact mine
    exact (c.custody.owned i h own).1
  · rw [show closedSince s.mount _ = [] from nothing]
    exact List.forall_mem_nil _
  · intro f hf h _ needs
    rcases List.mem_or_eq_of_mem_set hf with old | rfl
    · exact sound.available f old h needs
    · cases needs with
      | ended named =>
          rcases named with own | borrowed
          · cases own
          · cases borrowed

/-- A step that closes nothing and leaves the operations where they are. -/
theorem quiet_sound (c : Entrusted s own P) (sound : s.Sound) (w : WatchedMount)
    (used : List OpenHandle) {target : NodePtr} (moves : MovesHandles s.mount w.mount [] [] target)
    (same : w.operations = s.operations) (shaped : ∃ w', Shaped w.mount.tree w') (nodes : w.Sound)
    (mine : ∀ h ∈ used, h ∉ s.closed) : (s.book w used [] []).Sound := by
  have after := c.sweep w used moves (fun k => by rw [same]) shaped
  rw [book_sound_iff after sound nodes mine (List.forall_mem_nil _)]
  · rw [moves.closes]
    exact List.forall_mem_nil _
  · rw [moves.closes]
    exact List.forall_mem_nil _
  · rw [same]
    exact fun f hf h _ needs => sound.available f hf h needs

theorem read_sound (c : Entrusted s own P) (sound : s.Sound) {outcome : CallOutcome}
    {dangling : List NodePtr} (here : s.operations[i]? = some ⟨.done outcome, dangling⟩) :
    (s.book s.toWatchedMount (outcome.handles ++ outcome.borrows) [] []).Sound := by
  apply quiet_sound c sound _ _ (Entrusted.same_mount s.mount) rfl c.shaped sound.nodes
  intro h hh
  have now : InFlight.Needs ⟨.done outcome, dangling⟩ h := .ended (List.mem_append.mp hh)
  exact sound.available _ (List.mem_of_getElem? here) h now

/-- A change leaves what the operations own; the nodes that it frees lose their handles. -/
theorem Entrusted.changed (c : Entrusted s own P) {change : FileChange} {w : WatchedMount}
    (run : s.toWatchedMount.process paths change = some w) :
    Entrusted (s.book w [] [] []) own P := by
  obtain ⟨m, processed, rfl⟩ := Option.map_eq_some_iff.mp run
  obtain ⟨f, shaped⟩ := c.shaped
  refine c.sweep _ [] (change_moves shaped processed) (fun k => ?_)
    (change_frees shaped processed).1
  show ((s.operations.map _)[k]?).map InFlight.program = _
  rw [List.getElem?_map, Option.map_map]
  rfl

/-- A change closes the handles of the nodes that it deletes. -/
theorem change_closes {change : FileChange} {m : FlVfsMount} {w : Forest NodePtr}
    (shaped : Shaped s.mount.tree w) (processed : processChange paths change s.mount = some m)
    (h : OpenHandle) :
    h ∈ closedSince s.mount m ↔ Closing paths s.toWatchedMount h (.change change) := by
  rw [(change_moves shaped processed).closes, List.mem_flatMap]
  simp only [(change_frees shaped processed).2.1]
  rfl

theorem changed_sound_iff (c : Entrusted s own P) (sound : s.Sound) {change : FileChange}
    {w : WatchedMount} (run : s.toWatchedMount.process paths change = some w) (nodes : w.Sound) :
    (s.book w [] [] []).Sound ↔
      ∀ h, Closing paths s.toWatchedMount h (.change change) → ∀ f ∈ s.operations, ¬ f.Needs h := by
  have after := c.changed run
  obtain ⟨m, processed, rfl⟩ := Option.map_eq_some_iff.mp run
  obtain ⟨shape, shaped⟩ := c.shaped
  have closes := change_closes (s := s) shaped processed
  rw [book_sound_iff after sound nodes (List.forall_mem_nil _) (List.forall_mem_nil _)]
  · constructor
    · intro unneeded h out f hf needs
      exact unneeded h ((closes h).mpr out) _ (List.mem_map_of_mem hf) needs
    · intro unneeded h out f hf needs
      obtain ⟨g, hg, rfl⟩ := List.mem_map.mp hf
      exact unneeded h ((closes h).mp out) g hg needs
  · intro h out
    obtain ⟨n, -, inside⟩ := (closes h).mp out
    exact (c.custody.kept n h inside).2
  · intro f hf h _ needs
    obtain ⟨g, hg, rfl⟩ := List.mem_map.mp hf
    exact sound.available g hg h needs

theorem started_sound (c : Entrusted s own P) (sound : s.Sound) (worker : ℕ) (call : MountCall)
    (nodes : WatchedMount.Sound { s.toWatchedMount with
      operations := s.operations ++ [⟨vfsOpsExecute self slots matcher worker call, []⟩] }) :
    (s.book { s.toWatchedMount with
        operations := s.operations ++ [⟨vfsOpsExecute self slots matcher worker call, []⟩] }
      [] [] []).Sound := by
  have fresh : ∀ h, ¬ InFlight.Needs ⟨vfsOpsExecute self slots matcher worker call, []⟩ h := by
    intro h needs
    rcases (vfsOpsExecute_owns self slots matcher worker call).needs settled_depends needs with
      own | known
    · exact Multiset.notMem_zero h own
    · exact known
  obtain ⟨own', after⟩ := c.start self slots matcher worker call
  have nothing : closedSince s.mount s.mount = [] := closedSince_same rfl
  rw [book_sound_iff after sound nodes (List.forall_mem_nil _) (List.forall_mem_nil _)]
  · rw [show closedSince s.mount _ = [] from nothing]
    exact List.forall_mem_nil _
  · rw [show closedSince s.mount _ = [] from nothing]
    exact List.forall_mem_nil _
  · intro f hf h _ needs
    rcases List.mem_append.mp hf with old | new
    · exact sound.available f old h needs
    · cases List.mem_singleton.mp new
      exact absurd needs (fresh h)

theorem ended_some {outcome : CallOutcome} (h : s.ended i = some outcome) :
    ∃ dangling, s.operations[i]? = some ⟨.done outcome, dangling⟩ := by
  unfold WatchedMount.ended at h
  split at h
  · rename_i a dangling here
    cases h
    exact ⟨dangling, here⟩
  · cases h

/-- The ledger follows the mount. -/
theorem watch_watched {e : WatchEvent}
    (taken : s.watch natural paths self slots matcher e = some s') :
    s.toWatchedMount.step natural paths self slots matcher e = some s'.toWatchedMount := by
  obtain ⟨w, stepped, booked⟩ := Option.bind_eq_some_iff.mp taken
  rw [stepped]
  split at booked
  · cases booked
    rfl
  · split_ifs at booked
    cases booked
    rfl

theorem ledger_step_entrusted {e : LedgerEvent} (c : Entrusted s own P)
    (taken : s.step natural paths self slots matcher e = some s') :
    ∃ own' P', Entrusted s' own' P' := by
  cases e with
  | watch e =>
      cases e with
      | start worker call =>
          cases taken
          obtain ⟨own', after⟩ := c.start self slots matcher worker call
          exact ⟨own', P, after⟩
      | advance i fresh answer =>
          cases ledger_cases taken with
          | entered here free run =>
              obtain ⟨own', after⟩ := c.entered _ here free run
              exact ⟨own', _, after⟩
          | strayed => exact ⟨own, P, c.sweep _ [] (Entrusted.same_mount _) (fun _ => rfl) c.shaped⟩
          | called r here outside new =>
              obtain ⟨own', after⟩ := c.called r here outside new
              exact ⟨own', P, after⟩
      | change change =>
          obtain ⟨w, run, booked⟩ := Option.bind_eq_some_iff.mp taken
          cases booked
          exact ⟨own, P, c.changed run⟩
      | bump =>
          cases taken
          have moves : MovesHandles s.mount (bumpVersion s.mount) [] [] _ := .none rfl fun _ => rfl
          exact ⟨own, P, c.sweep _ [] moves (fun _ => rfl) c.shaped⟩
  | read i =>
      obtain ⟨outcome, -, rfl⟩ := Option.map_eq_some_iff.mp taken
      exact ⟨own, P, c.sweep _ _ (Entrusted.same_mount _) (fun _ => rfl) c.shaped⟩
  | close i =>
      obtain ⟨outcome, ended, rfl⟩ := Option.map_eq_some_iff.mp taken
      obtain ⟨dangling, here⟩ := ended_some ended
      obtain ⟨own', after⟩ := c.closed here
      exact ⟨own', P, after⟩

/-- What no operation holds may be freed, whatever is closed. -/
theorem ledger_step_nodes {e : LedgerEvent} {w : Forest NodePtr}
    (shaped : Shaped s.mount.tree w) (nodes : s.toWatchedMount.Sound)
    (taken : s.step natural paths self slots matcher e = some s') :
    s'.toWatchedMount.Sound ↔ SparesNodes paths s e := by
  cases e with
  | watch e => exact (step_sound_iff nodes shaped (watch_watched taken)).1
  | read i =>
      obtain ⟨outcome, -, rfl⟩ := Option.map_eq_some_iff.mp taken
      exact iff_of_true nodes trivial
  | close i =>
      obtain ⟨outcome, -, rfl⟩ := Option.map_eq_some_iff.mp taken
      refine iff_of_true ?_ trivial
      exact nodes.set (fun _ live => live) fun n holds => absurd holds not_holds_done

theorem ledger_step_iff {e : LedgerEvent} (c : Entrusted s own P) (sound : s.Sound)
    (taken : s.step natural paths self slots matcher e = some s') :
    s'.Sound ↔ SparesNeeded paths s e := by
  obtain ⟨shape, shaped⟩ := c.shaped
  cases e with
  | watch e =>
      have nodes := (step_sound_iff sound.nodes shaped (watch_watched taken)).1
      cases e with
      | start worker call =>
          have plain := nodes.mpr trivial
          cases taken
          refine iff_of_true (started_sound c sound worker call plain) ⟨trivial, ?_⟩
          rintro w h ⟨⟩ closing
          exact closing.elim
      | advance i fresh answer =>
          have plain := nodes.mpr trivial
          cases ledger_cases taken with
          | @entered op next dangling _ r m here free run =>
              rw [entered_sound_iff c sound here free run plain]
              constructor
              · intro unneeded
                refine ⟨trivial, ?_⟩
                rintro w h ⟨⟩ ⟨op', next', dangling', here', node, hnode, inside⟩
                cases here.symm.trans here'
                exact unneeded node hnode h inside
              · intro spares node hnode h inside
                exact spares.2 _ h rfl ⟨op, next, dangling, here, node, hnode, inside⟩
          | strayed => cases plain.straight
          | @called op next dangling r here outside new =>
              refine iff_of_true (called_sound c sound r here outside new plain) ⟨trivial, ?_⟩
              rintro w h ⟨⟩ ⟨op', next', dangling', here', -⟩
              cases here.symm.trans here'
              exact absurd rfl (outside op')
      | change change =>
          obtain ⟨w, run, booked⟩ := Option.bind_eq_some_iff.mp taken
          cases booked
          constructor
          · intro after
            refine ⟨nodes.mp after.nodes, ?_⟩
            rintro w' h ⟨⟩ closing
            exact (changed_sound_iff c sound run after.nodes).mp after h closing
          · intro spares
            rw [changed_sound_iff c sound run (nodes.mpr spares.1)]
            exact fun h closing => spares.2 _ h rfl closing
      | bump =>
          have plain := nodes.mpr trivial
          cases taken
          refine iff_of_true ?_ ⟨trivial, ?_⟩
          · exact quiet_sound c sound _ [] (.none rfl fun _ => rfl) rfl c.shaped plain
              (List.forall_mem_nil _)
          · rintro w h ⟨⟩ closing
            exact closing.elim
  | read i =>
      obtain ⟨outcome, ended, rfl⟩ := Option.map_eq_some_iff.mp taken
      obtain ⟨dangling, here⟩ := ended_some ended
      refine iff_of_true (read_sound c sound here) ⟨trivial, ?_⟩
      rintro w h ⟨⟩
  | close i =>
      obtain ⟨outcome, ended, rfl⟩ := Option.map_eq_some_iff.mp taken
      obtain ⟨dangling, here⟩ := ended_some ended
      refine iff_of_true (closed_sound c sound here) ⟨trivial, ?_⟩
      rintro w h ⟨⟩

/-! ## Runs -/

variable {s₀ : LedgerMount} {root : NodePtr} {name : FlString} {entry : Option PluginEntry}
variable {handles : VfsHandles}

/-- A mount behind its mount operation. -/
structure LedgerMount.Mounted (s₀ : LedgerMount) (root : NodePtr) (name : FlString)
    (entry : Option PluginEntry) (handles : VfsHandles) : Prop where
  tree : s₀.mount.tree = (MountState.mounted root name entry handles).tree
  idle : s₀.operations = []
  straight : s₀.strayed = false ∧ s₀.misused = false
  issued : s₀.issued = s₀.mount.tree.closesOf root
  closed : s₀.closed = []

theorem LedgerMount.Mounted.entrusted (h : s₀.Mounted root name entry handles) :
    s₀.Sound ∧ Entrusted s₀ (fun _ => 0) {h | h ∈ s₀.mount.tree.closesOf root} := by
  have alone : ∀ n x, x ∈ s₀.mount.tree.closesOf n → n = root := by
    intro n x hx
    rw [h.tree] at hx
    obtain ⟨k, hk, -⟩ := MountTree.mem_closesOf.mp hx
    by_contra other
    simp only [MountState.mounted, Function.update_of_ne other] at hk
    cases hk
  refine ⟨⟨⟨h.straight.1, ?_⟩, h.straight.2, ?_⟩, ?_, fun _ _ => rfl, ?_, ?_⟩
  · rw [h.idle]
    exact List.forall_mem_nil _
  · rw [h.idle]
    exact List.forall_mem_nil _
  · intro i f hf
    rw [h.idle] at hf
    cases hf
  · refine ⟨fun _ => Multiset.nodup_zero, ?_, ?_, closesOf_nodup _, ?_, ?_, ?_, ?_, ?_, ?_⟩
    · exact fun i j x hi => absurd hi (Multiset.notMem_zero x)
    · exact fun _ x hi => absurd hi (Multiset.notMem_zero x)
    · exact fun n k x hn hk => (alone n x hn).trans (alone k x hk).symm
    · intro n x hn
      rw [h.closed]
      exact ⟨alone n x hn ▸ hn, List.not_mem_nil⟩
    · rw [h.issued]
      exact fun x hx => hx
    · rw [h.closed]
      exact List.forall_mem_nil _
    · rw [h.issued, h.closed]
      exact ⟨closesOf_nodup _ _, List.nodup_nil⟩
    · rw [h.issued]
      exact fun x hx => .inr (.inl ⟨root, hx⟩)
  · rw [h.tree]
    exact ⟨_, (Sound.mounted root name entry handles).shaped⟩

/-- Operations of any number of workers on a mount, changes that the watcher reports, and
reads and closes of the files that were opened, in any order: as long as no load and no
deletion closes a handle that an operation in progress or an open file needs, and no deletion
frees a node that an operation holds, no driver is passed a closed handle and no section follows
a pointer to a freed node. The first that does leaves one of them with what is gone. -/
theorem needed_handles_open (mounted : s₀.Mounted root name entry handles)
    (run : Transition.Reaches (LedgerMount.step natural paths self slots matcher)
      (SparesNeeded paths) s₀ s) :
    s.Sound ∧ ∀ e s', s.step natural paths self slots matcher e = some s' →
      (s'.Sound ↔ SparesNeeded paths s e) := by
  have here : s.Sound ∧ ∃ own P, Entrusted s own P := by
    apply run.invariant (P := fun s => s.Sound ∧ ∃ own P, Entrusted s own P)
      ⟨mounted.entrusted.1, _, _, mounted.entrusted.2⟩
    intro t e u ht spares taken
    obtain ⟨sound, own, P, c⟩ := ht
    exact ⟨(ledger_step_iff c sound taken).mpr spares, ledger_step_entrusted c taken⟩
  obtain ⟨sound, own, P, c⟩ := here
  exact ⟨sound, fun e s' taken => ledger_step_iff c sound taken⟩

/-- An operation has ended, and the file that it opened was closed. -/
def InFlight.Over (f : InFlight) : Prop :=
  ∃ outcome : CallOutcome, f.program = .done outcome ∧ outcome.handles = []

/-- In every run whose deletions free no node that an operation in progress holds, whatever its
loads meet and whichever handles its deletions close, no section follows a pointer to a freed
node, and drivers are told to close only handles that they opened, each of them once, and never
one that a node holds. When all operations are over, `vfs_tree_cleanup_node` closes the rest:
every handle was closed exactly once. -/
theorem handles_closed_once (mounted : s₀.Mounted root name entry handles)
    (run : Transition.Reaches (LedgerMount.step natural paths self slots matcher)
      (SparesNodes paths) s₀ s) :
    s.strayed = false ∧ s.closed.Nodup ∧ s.closed ⊆ s.issued ∧
      (∀ n, ∀ h ∈ s.mount.tree.closesOf n, h ∈ s.issued ∧ h ∉ s.closed) ∧
      ((∀ f ∈ s.operations, f.Over) →
        ∃ t, vfsTreeCleanupNode (2 * s.mount.tree.count) s.mount.tree.root s.mount.tree = some t ∧
          s.issued.Perm (s.closed ++ t.closed.drop s.mount.tree.closed.length)) := by
  have here : s.toWatchedMount.Sound ∧ ∃ own P, Entrusted s own P := by
    apply run.invariant (P := fun s => s.toWatchedMount.Sound ∧ ∃ own P, Entrusted s own P)
      ⟨mounted.entrusted.1.nodes, _, _, mounted.entrusted.2⟩
    intro t e u ht spares taken
    obtain ⟨nodes, own, P, c⟩ := ht
    obtain ⟨w, shaped⟩ := c.shaped
    exact ⟨(ledger_step_nodes shaped nodes taken).mpr spares, ledger_step_entrusted c taken⟩
  obtain ⟨nodes, own, P, c⟩ := here
  obtain ⟨w, shaped⟩ := c.shaped
  refine ⟨nodes.straight, c.custody.once.2, c.custody.genuine, ?_, ?_⟩
  · intro n h hn
    obtain ⟨known, isOpen⟩ := c.custody.kept n h hn
    exact ⟨c.custody.known h known, isOpen⟩
  · intro finished
    have none : ∀ i, own i = 0 := by
      intro i
      cases here : s.operations[i]? with
      | none => exact c.idle i here
      | some f =>
          obtain ⟨outcome, done, nothing⟩ := finished f (List.mem_of_getElem? here)
          have typed := c.typed i f here
          rw [done] at typed
          rw [typed.1, nothing]
          rfl
    refine ⟨s.mount.tree.shut w, ?_, ?_⟩
    · exact Sound.cleanup (s := { tree := s.mount.tree, opened := [] }) shaped
    · have order := c.custody.settled none w.postorder ?_ ?_
      · show s.issued.Perm (s.closed ++ List.drop _ (s.mount.tree.closed ++ _))
        rw [List.drop_left]
        exact order
      · exact (Forest.postorder_perm w).nodup_iff.mpr shaped.distinct
      · intro n h hn
        obtain ⟨k, hk, -⟩ := MountTree.mem_closesOf.mp hn
        exact (Forest.postorder_perm w).mem_iff.mpr (shaped.live n k hk)

end

/-! ## Two archives in one node -/

/-- A driver of archives in memory takes every file, and opens the handle `h`. -/
def archiveReply (h : DriverPtr) : (op : VfsOp) → op.Reply
  | .driver (.openPath ..) => ⟨some h, false, false⟩
  | .driver (.openMemory ..) => ⟨some h, true, false⟩
  | .driver (.getSize ..) => (1 : ℤ)
  | .driver (.read ..) => ⟨1, [7]⟩
  | .driver (.listDirectory ..) => []
  | op => plainReply op

/-- Steps of the operation `i`. -/
def archiveSteps (i steps : ℕ) (fresh : NodePtr) (h : DriverPtr) : List LedgerEvent :=
  List.replicate steps (.watch (.advance i fresh (archiveReply h)))

def listB : LedgerEvent := .watch (.start 0 (.list ['b'] []))

def deletesB : LedgerEvent := .watch (.change { path := ['b'], deleted := true })

/-- The archive `b` is listed, and a file in it opened. -/
def opensC : List LedgerEvent :=
  listB :: archiveSteps 0 6 1 9 ++ archiveSteps 0 9 2 9 ++
    .watch (.start 0 (.fileOpen ['b', 'c'] 1)) :: archiveSteps 1 6 2 10

def ledgerStep : LedgerMount → LedgerEvent → Option LedgerMount :=
  LedgerMount.step byFirstLetter letters ⟨[lister, archiver], letters⟩ 1 matchAll

def listedLedger : LedgerMount := { mount := listedMount, issued := [⟨0, 4⟩] }

theorem listedLedger_mounted : listedLedger.Mounted 0 [] (some lister) [some 4] :=
  ⟨rfl, rfl, ⟨rfl, rfl⟩, rfl, rfl⟩

def InFlight.isOver (f : InFlight) : Bool :=
  match f.program with
  | .done outcome => outcome.handles.isEmpty && outcome.borrows.isEmpty
  | _ => false

theorem InFlight.isOver_done {f : InFlight} (h : f.isOver = true) :
    ∃ outcome : CallOutcome, f.program = .done outcome ∧ outcome.handles = [] ∧
      outcome.borrows = [] := by
  obtain ⟨p, dangling⟩ := f
  cases p with
  | done outcome =>
      obtain ⟨own, borrowed⟩ := Bool.and_eq_true_iff.mp h
      exact ⟨outcome, rfl, List.isEmpty_iff.mp own, List.isEmpty_iff.mp borrowed⟩
  | perform op next => cases h

/-- No operation is given one of the nodes `zs`, and a deletion comes behind every operation, or
frees only such nodes. -/
def avoiding (zs : List NodePtr) : LedgerMount → LedgerEvent → Bool
  | s, .watch e => avoids byFirstLetter letters zs s.toWatchedMount e
  | _, _ => true

section
variable {zs : List NodePtr} {s s' : LedgerMount} {e : LedgerEvent}

theorem Apart.ledger (apart : Apart zs s.toWatchedMount) (avoid : avoiding zs s e = true)
    (taken : ledgerStep s e = some s') : Apart zs s'.toWatchedMount := by
  cases e with
  | watch e => exact apart.step avoid (watch_watched taken)
  | read i =>
      obtain ⟨outcome, -, rfl⟩ := Option.map_eq_some_iff.mp taken
      exact apart
  | close i =>
      obtain ⟨w, shaped⟩ := apart.shaped
      have nodes := (ledger_step_nodes shaped apart.sound taken).mpr trivial
      obtain ⟨outcome, -, rfl⟩ := Option.map_eq_some_iff.mp taken
      refine ⟨nodes, ?_, w, shaped⟩
      intro f hf
      rcases List.mem_or_eq_of_mem_set hf with old | rfl
      · exact apart.unknown f old
      · trivial

theorem avoiding_spares (apart : Apart zs s.toWatchedMount) (avoid : avoiding zs s e = true)
    (taken : ledgerStep s e = some s') : SparesNodes letters s e := by
  obtain ⟨w, shaped⟩ := apart.shaped
  exact (ledger_step_nodes shaped apart.sound taken).mp (apart.ledger avoid taken).sound

/-- The operation has ended, and what it returned does not depend on the handle. -/
def InFlight.isFreeOf (h : OpenHandle) (f : InFlight) : Bool :=
  match f.program with
  | .done outcome => h ∉ outcome.handles && h ∉ outcome.borrows
  | _ => false

theorem InFlight.isFreeOf_needs {h : OpenHandle} {f : InFlight} (free : f.isFreeOf h = true) :
    ¬ f.Needs h := by
  obtain ⟨p, dangling⟩ := f
  cases p with
  | done outcome =>
      obtain ⟨own, borrowed⟩ := Bool.and_eq_true_iff.mp free
      intro needs
      cases needs with
      | ended named =>
          rcases named with mine | lent
          · exact of_decide_eq_true own mine
          · exact of_decide_eq_true borrowed lent
  | perform op next => cases free

/-- And archives are loaded into nodes without a driver, and a handle that a deletion closes is
none that the open files depend on. -/
def orderly (zs : List NodePtr) (s : LedgerMount) (e : LedgerEvent) : Bool :=
  avoiding zs s e &&
    match e with
    | .watch (.advance i _ _) =>
        match s.operations[i]? with
        | some ⟨.perform (.mount op) _, _⟩ =>
            op.replaces.all fun node => (s.mount.tree.closesOf node).isEmpty
        | _ => true
    | .watch (.change change) =>
        (processChange letters change s.mount).all fun m =>
          (closedSince s.mount m).all fun h => s.operations.all (InFlight.isFreeOf h)
    | _ => true

theorem orderly_spares (apart : Apart zs s.toWatchedMount) (avoid : orderly zs s e = true)
    (taken : ledgerStep s e = some s') : SparesNeeded letters s e := by
  obtain ⟨avoid, order⟩ := Bool.and_eq_true_iff.mp avoid
  refine ⟨avoiding_spares apart avoid taken, ?_⟩
  rintro w x rfl closing f hf
  cases w with
  | advance i fresh answer =>
      obtain ⟨op, next, dangling, here, node, hnode, inside⟩ := closing
      simp only [here] at order
      have empty := Option.all_eq_true _ _ |>.mp order node hnode
      rw [List.isEmpty_iff.mp empty] at inside
      cases inside
  | change change =>
      obtain ⟨m, processed, -⟩ := Option.map_eq_some_iff.mp (watch_watched taken)
      obtain ⟨shape, shaped⟩ := apart.shaped
      simp only [processed, Option.all_some] at order
      have closed := (change_closes (s := s) shaped processed x).mpr closing
      have unneeded := List.all_eq_true.mp (List.all_eq_true.mp order x closed) f hf
      exact InFlight.isFreeOf_needs unneeded
  | start => exact closing.elim
  | bump => exact closing.elim

end

theorem listedLedger_apart (zs : List NodePtr) : Apart zs listedLedger.toWatchedMount :=
  .idle (Sound.mounted 0 [] (some lister) [some 4]).shaped rfl rfl

def deletes (name : FlString) : LedgerEvent := .watch (.change { path := name, deleted := true })

/-- The archive `b` is loaded by a listing, and `e` deleted meanwhile. A file of `b` is opened,
and the archive `d` is loaded, and deleted while the file is open. -/
def opensBeside : List LedgerEvent :=
  listsE.map .watch ++ listB :: archiveSteps 1 6 2 9 ++ deletes ['e'] :: archiveSteps 1 9 3 9 ++
    .watch (.start 0 (.fileOpen ['b', 'c'] 1)) :: archiveSteps 2 6 3 10 ++
    .watch (.start 0 (.list ['d'] [])) :: archiveSteps 3 6 3 11 ++ archiveSteps 3 9 4 11 ++
    [deletes ['d']]

/-- The file is read and closed behind the deletion of the other archive, before the watcher
deletes its own. -/
theorem needed_handles_open_beside : ∃ s : LedgerMount, s.closed = [⟨1, 11⟩, ⟨1, 10⟩, ⟨1, 9⟩] ∧
    s.mount.tree.freed = [1, 3, 2] ∧ s.Sound ∧
    ∀ e s', ledgerStep s e = some s' → (s'.Sound ↔ SparesNeeded letters s e) := by
  have ends : (Transition.replay ledgerStep (fun s e => orderly [1] s e = true)
      (opensBeside ++ [.read 2, .close 2, deletesB]) listedLedger).map
        (fun s => (s.closed, s.mount.tree.freed)) =
        some ([⟨1, 11⟩, ⟨1, 10⟩, ⟨1, 9⟩], [1, 3, 2]) := by
    decide +kernel
  obtain ⟨s, replayed, ends⟩ := Option.map_eq_some_iff.mp ends
  obtain ⟨closed, freed⟩ := Prod.mk.injEq .. |>.mp ends
  have run : Transition.Reaches ledgerStep (SparesNeeded letters) listedLedger s := by
    apply (Transition.replay_reaches _ replayed).strengthen
        (I := fun s => Apart [1] s.toWatchedMount) (listedLedger_apart [1])
    · exact fun t e u apart avoid taken => orderly_spares apart avoid taken
    · exact fun t e u apart avoid taken => apart.ledger (Bool.and_eq_true_iff.mp avoid).1 taken
  exact ⟨s, closed, freed, needed_handles_open listedLedger_mounted run⟩

/-- The watcher deletes the archive under the open file, and a read is passed its handle. -/
example : (Transition.replay ledgerStep (fun _ _ => True) (opensC ++ [deletesB, .read 1])
    listedLedger).map LedgerMount.misused = some true := by
  decide +kernel

/-- Two listings load `b` at the same time: the second load closes the handle of the first,
which its listing then passes to the driver. Meanwhile the watcher deletes `e`, and behind them
`b`. -/
def loadsTwice : List LedgerEvent :=
  listsE.map .watch ++ [listB, listB] ++ archiveSteps 1 6 2 9 ++ archiveSteps 1 3 3 9 ++
    archiveSteps 2 10 3 11 ++ archiveSteps 1 1 3 9 ++ deletes ['e'] :: archiveSteps 2 4 3 11 ++
    archiveSteps 1 5 3 9 ++ [deletesB]

/-- Also in that run the handles are closed once, the last one when the mount is closed. -/
theorem handles_closed_once_twice : ∃ (s : LedgerMount) (t : MountTree), s.misused = true ∧
    s.strayed = false ∧ s.mount.tree.freed = [1, 2] ∧
    s.closed = [⟨1, 11⟩, ⟨1, 9⟩] ∧ s.issued = [⟨0, 4⟩, ⟨1, 9⟩, ⟨1, 11⟩] ∧
    vfsTreeCleanupNode (2 * s.mount.tree.count) s.mount.tree.root s.mount.tree = some t ∧
    s.issued.Perm (s.closed ++ t.closed.drop s.mount.tree.closed.length) := by
  have ends : (Transition.replay ledgerStep (fun s e => avoiding [1] s e = true) loadsTwice
      listedLedger).map
      (fun s => (s.misused, s.mount.tree.freed, s.closed, s.issued,
        s.operations.all InFlight.isOver)) =
        some (true, [1, 2], [⟨1, 11⟩, ⟨1, 9⟩], [⟨0, 4⟩, ⟨1, 9⟩, ⟨1, 11⟩], true) := by
    decide +kernel
  obtain ⟨s, replayed, ends⟩ := Option.map_eq_some_iff.mp ends
  simp only [Prod.mk.injEq] at ends
  obtain ⟨misused, freed, closed, issued, finished⟩ := ends
  have run : Transition.Reaches ledgerStep (SparesNodes letters) listedLedger s := by
    apply (Transition.replay_reaches _ replayed).strengthen
        (I := fun s => Apart [1] s.toWatchedMount) (listedLedger_apart [1])
    · exact fun t e u apart avoid taken => avoiding_spares apart avoid taken
    · exact fun t e u apart avoid taken => apart.ledger avoid taken
  obtain ⟨straight, -, -, -, rest⟩ := handles_closed_once listedLedger_mounted run
  obtain ⟨t, cleaned, order⟩ := rest fun f hf => by
    obtain ⟨outcome, done, own, -⟩ := InFlight.isOver_done (List.all_eq_true.mp finished f hf)
    exact ⟨outcome, done, own⟩
  exact ⟨s, t, misused, straight, freed, closed, issued, cleaned, order⟩

end FlowiVfs.Tree
