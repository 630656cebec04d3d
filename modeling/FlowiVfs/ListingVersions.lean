import FlowiVfs.Watcher
import FlowiVfs.WalkFootprint

/-!
# Listings and the version of a mount

A listing job and `vfs_update` take their steps in any order. The listing copies the
children of its directory in one section and reads the version of the mount in a later
step, and `vfs_is_listing_current` compares that version with the one the mount has then.

Counters remember how many changes were processed, how many of them a version bump has
reported, and how many bumps there were; the run remembers them at the snapshot and at the
load of the version. Nothing in the code reads them.
-/
namespace FlowiVfs.Tree

open Program

structure ListingRun where
  mount : FlVfsMount
  /-- What the listing job has left to do. -/
  job : VfsProgram ListOutcome
  /-- The changes that an update in progress has left to process. -/
  batch : Option (List FileChange) := none
  processed : ℕ := 0
  reported : ℕ := 0
  bumps : ℕ := 0
  /-- `processed` when the listing took its snapshot. -/
  copied : Option ℕ := none
  /-- `bumps` and `reported` when the listing loaded the version. -/
  loaded : Option (ℕ × ℕ) := none

inductive ListingEvent
  | job
  | begin
  | process
  | bump

/-- How an operation of the job may be answered. A section that fails leaves the mount as
it was. -/
def Answers (natural : NaturalCompare) (m : FlVfsMount) : (op : VfsOp) → op.Reply → FlVfsMount → Prop
  | .mount op, r, m' =>
      ∃ fresh, op.run natural fresh m = some (r, m') ∨ op.run natural fresh m = none ∧ m' = m
  | _, _, m' => m' = m

def IsSnapshot : VfsOp → Prop
  | .mount (.snapshot _) => True
  | _ => False

instance : DecidablePred IsSnapshot := fun op => by
  unfold IsSnapshot
  split <;> infer_instance

def IsLoadVersion : VfsOp → Prop
  | .mount .loadVersion => True
  | _ => False

instance : DecidablePred IsLoadVersion := fun op => by
  unfold IsLoadVersion
  split <;> infer_instance

section
variable (natural : NaturalCompare) (paths : PathLibrary)

inductive ListingStep : ListingEvent → ListingRun → ListingRun → Prop
  | job {s : ListingRun} {op : VfsOp} {next : op.Reply → VfsProgram ListOutcome} {r : op.Reply}
      {m' : FlVfsMount} (job : s.job = .perform op next)
      (answer : Answers natural s.mount op r m') :
      ListingStep .job s
        { s with
          mount := m'
          job := next r
          copied := if IsSnapshot op then some s.processed else s.copied
          loaded := if IsLoadVersion op then some (s.bumps, s.reported) else s.loaded }
  | begin {s : ListingRun} (changes : List FileChange) (idle : s.batch = none) :
      ListingStep .begin s { s with batch := some changes }
  | process {s : ListingRun} {change : FileChange} {rest : List FileChange}
      (batch : s.batch = some (change :: rest)) :
      ListingStep .process s
        { s with
          mount := (processChange paths change s.mount).getD s.mount
          batch := some rest
          processed := s.processed + 1 }
  | bump {s : ListingRun} (batch : s.batch = some []) :
      ListingStep .bump s
        { s with
          mount := bumpVersion s.mount
          batch := none
          reported := s.processed
          bumps := s.bumps + 1 }

/-- The runs of which every step satisfies `φ` in the state before it. -/
inductive ListingReaches (φ : ListingEvent → ListingRun → Prop) (s₀ : ListingRun) :
    ListingRun → Prop
  | start : ListingReaches φ s₀ s₀
  | step {s s' : ListingRun} {event : ListingEvent} (before : ListingReaches φ s₀ s)
      (allowed : φ event s) (step : ListingStep natural paths event s s') :
      ListingReaches φ s₀ s'

end

/-- `vfs_is_listing_current` on a listing that has completed. -/
def IsListingCurrent (s : ListingRun) (o : ListOutcome) : Prop := o.mountVersion = s.mount.version

/-- The version is not counted up between the snapshot of the listing and its load of the
version, when a change was processed behind the snapshot. -/
def Spares (event : ListingEvent) (s : ListingRun) : Prop :=
  match event with
  | .bump => s.copied.isSome → s.loaded = none → s.copied = some s.processed
  | _ => True

theorem IsSnapshot.not_load {op : VfsOp} (h : IsSnapshot op) : ¬ IsLoadVersion op := by
  unfold IsLoadVersion
  split
  · exact absurd h id
  · exact id

theorem not_snapshot {op : VfsOp} (h : EnumerateOp op) : ¬ IsSnapshot op := by
  unfold IsSnapshot
  split
  · exact absurd h id
  · exact id

theorem not_load {op : VfsOp} (h : EnumerateOp op) : ¬ IsLoadVersion op := by
  unfold IsLoadVersion
  split
  · exact absurd h id
  · exact id

/-! ## The text of a listing -/

/-- A listing behind its snapshot: it loads the version, and returns it. -/
def Unloaded (p : VfsProgram ListOutcome) : Prop :=
  ∃ next, p = .perform (VfsOp.mount .loadVersion) next ∧
    ∀ v : ℕ, ∃ o, next v = .done o ∧ o.mountVersion = v

/-- A listing before its snapshot: without one it does not succeed. -/
def Uncopied : VfsProgram ListOutcome → Prop
  | .done o => o.success = false
  | .perform op next =>
      (IsSnapshot op ∧ ∀ r, Unloaded (next r)) ∨ (EnumerateOp op ∧ ∀ r, Uncopied (next r))

theorem Uncopied.bind {A : Type} {p : VfsProgram A} {f : A → VfsProgram ListOutcome}
    (hp : Only EnumerateOp p) (hf : ∀ a, Uncopied (f a)) : Uncopied (p >>= f) := by
  induction p with
  | done a => exact hf a
  | perform op next ih => exact .inr ⟨hp.1, fun r => ih r (hp.2 r)⟩

section
variable (self : VfsState) (slots : ℕ)
variable {Score : Type} [LinearOrder Score] (matcher : Matcher Score)

theorem finishList_uncopied (path needle : FlString) (node : NodePtr) :
    Uncopied (finishList matcher path needle node) := by
  refine .bind (p := shouldCancel) ⟨trivial, fun _ => trivial⟩ fun canceled => ?_
  cases canceled with
  | true => exact rfl
  | false => exact .inl ⟨trivial, fun entries => ⟨_, rfl, fun v => ⟨_, rfl, rfl⟩⟩⟩

theorem vfsOpList_uncopied (path needle : FlString) (worker : ℕ) :
    Uncopied (vfsOpList self slots matcher path needle worker) := by
  refine .bind (p := onMount (.rootDriver worker)) ⟨trivial, fun _ => trivial⟩ fun root => ?_
  have walk := (walk_only self slots path worker true).mono fun _ => WalkOp.enumerate
  show Uncopied (if root.2.pluginEntry = none then _ else _)
  split_ifs
  · exact rfl
  · refine .bind walk fun found => ?_
    obtain ⟨node, driver, pathFromNode, success⟩ := found
    cases success with
    | false => exact rfl
    | true =>
        cases driver.pluginEntry with
        | none => exact rfl
        | some entry =>
            cases node with
            | none => exact rfl
            | some node =>
                show Uncopied (if ¬ entry.plugin.hasListDirectory then _ else _)
                split_ifs
                · refine .bind (only_onDrivers (fun _ => trivial) _) fun reported => ?_
                  exact .bind (enumerate_only ..) fun _ => finishList_uncopied ..
                · exact rfl

end
/-! ## Runs -/

section
variable {natural : NaturalCompare} {paths : PathLibrary}

/-- Before its snapshot a listing leaves the version alone. -/
theorem Answers.version {m m' : FlVfsMount} {op : VfsOp} {r : op.Reply}
    (h : Answers natural m op r m') (kind : IsSnapshot op ∨ EnumerateOp op) :
    m'.version = m.version := by
  cases op with
  | mount op =>
      obtain ⟨fresh, run | ⟨-, rfl⟩⟩ := h
      · cases op with
        | rootDriver worker =>
            obtain ⟨n, -, e⟩ := Option.bind_eq_some_iff.mp run
            cases e
            rfl
        | lookChild parent segment worker =>
            obtain ⟨n, -, e⟩ := Option.bind_eq_some_iff.mp run
            cases e
            rfl
        | ensureChildNodeExists parent segment mark =>
            obtain ⟨n, -, e⟩ := Option.bind_eq_some_iff.mp run
            cases e
            rfl
        | installArchive node entry handles data size =>
            obtain ⟨n, -, e⟩ := Option.bind_eq_some_iff.mp run
            cases e
            rfl
        | readDriver node worker =>
            obtain ⟨n, -, e⟩ := Option.bind_eq_some_iff.mp run
            cases e
            rfl
        | markDirectory node =>
            obtain ⟨n, -, e⟩ := Option.bind_eq_some_iff.mp run
            cases e
            rfl
        | listEntry parent entry =>
            obtain ⟨n, -, e⟩ := Option.bind_eq_some_iff.mp run
            cases e
            rfl
        | snapshot node =>
            obtain ⟨n, -, rest⟩ := Option.bind_eq_some_iff.mp run
            obtain ⟨infos, -, e⟩ := Option.bind_eq_some_iff.mp rest
            cases e
            rfl
        | loadVersion => exact absurd kind (by simp [IsSnapshot, EnumerateOp, WalkOp])
        | loadOptions => exact absurd kind (by simp [IsSnapshot, EnumerateOp, WalkOp])
        | loadWatching => exact absurd kind (by simp [IsSnapshot, EnumerateOp, WalkOp])
        | storeRoot entry handles watcher =>
            exact absurd kind (by simp [IsSnapshot, EnumerateOp, WalkOp])
        | clearRoot => exact absurd kind (by simp [IsSnapshot, EnumerateOp, WalkOp])
      · rfl
  | _ => exact congrArg FlVfsMount.version h

theorem processChange_version (paths : PathLibrary) (change : FileChange) (m : FlVfsMount) :
    ((processChange paths change m).getD m).version = m.version := by
  unfold processChange
  by_cases deleted : change.deleted
  · rw [if_neg (not_not_intro deleted)]
    simp only
    by_cases empty : vfsTreeWatcherRelativePath change.path m.sourcePath = []
    · rw [if_pos empty]
      rfl
    · rw [if_neg empty]
      cases vfsTreeRemoveNodeByPath paths
        (vfsTreeWatcherRelativePath change.path m.sourcePath) m.tree <;> rfl
  · rw [if_pos deleted]
    rfl

/-- Where a listing is, and what the counters say about it. -/
inductive ListingPhase (v₀ : ℕ) (s : ListingRun) : Prop
  | before (copied : s.copied = none) (loaded : s.loaded = none) (text : Uncopied s.job)
  | between (c : ℕ) (copied : s.copied = some c) (loaded : s.loaded = none)
      (text : Unloaded s.job) (behind : s.reported ≤ c) (past : c ≤ s.processed)
  | behind (c b r : ℕ) (o : ListOutcome) (copied : s.copied = some c)
      (loaded : s.loaded = some (b, r)) (text : s.job = .done o)
      (version : o.mountVersion = (v₀ + b) % 2 ^ 32) (covers : r ≤ c) (past : c ≤ s.processed)
      (bumps : b ≤ s.bumps) (unbumped : b = s.bumps → s.reported = r)

structure ListingInv (v₀ : ℕ) (s : ListingRun) : Prop where
  version : s.mount.version = (v₀ + s.bumps) % 2 ^ 32
  reported : s.reported ≤ s.processed
  phase : ListingPhase v₀ s

theorem ListingInv.job {v₀ : ℕ} {s : ListingRun} {op : VfsOp}
    {next : op.Reply → VfsProgram ListOutcome} {r : op.Reply} {m' : FlVfsMount}
    (h : ListingInv v₀ s) (job : s.job = .perform op next)
    (answer : Answers natural s.mount op r m') :
    ListingInv v₀
      { s with
        mount := m'
        job := next r
        copied := if IsSnapshot op then some s.processed else s.copied
        loaded := if IsLoadVersion op then some (s.bumps, s.reported) else s.loaded } := by
  cases h.phase with
  | before copied loaded text =>
      rw [job] at text
      rcases text with ⟨snapshot, unloaded⟩ | ⟨enumerates, uncopied⟩
      · refine ⟨(answer.version (.inl snapshot)).trans h.version, h.reported, ?_⟩
        refine .between s.processed (if_pos snapshot) ?_ (unloaded r) h.reported le_rfl
        exact (if_neg snapshot.not_load).trans loaded
      · refine ⟨(answer.version (.inr enumerates)).trans h.version, h.reported, ?_⟩
        exact .before ((if_neg (not_snapshot enumerates)).trans copied)
          ((if_neg (not_load enumerates)).trans loaded) (uncopied r)
  | between c copied loaded text behind past =>
      obtain ⟨f, load, returns⟩ := text
      rw [job] at load
      cases load
      obtain ⟨fresh, run | ⟨failed, -⟩⟩ := answer
      · cases run
        obtain ⟨o, ends, version⟩ := returns s.mount.version
        refine ⟨h.version, h.reported, ?_⟩
        exact .behind c s.bumps s.reported o copied rfl ends (version.trans h.version) behind past
          le_rfl fun _ => rfl
      · exact absurd failed (by simp [MountSection.run])
  | behind c b r' o copied loaded text version covers past bumps unbumped =>
      rw [job] at text
      cases text

theorem ListingInv.step {v₀ : ℕ} {event : ListingEvent} {s s' : ListingRun}
    (h : ListingInv v₀ s) (spares : Spares event s)
    (step : ListingStep natural paths event s s') : ListingInv v₀ s' := by
  cases step with
  | job job answer => exact h.job job answer
  | begin changes idle =>
      refine ⟨h.version, h.reported, ?_⟩
      cases h.phase with
      | before copied loaded text => exact .before copied loaded text
      | between c copied loaded text behind past =>
          exact .between c copied loaded text behind past
      | behind c b r o copied loaded text version covers past bumps unbumped =>
          exact .behind c b r o copied loaded text version covers past bumps unbumped
  | process batch =>
      refine ⟨(processChange_version ..).trans h.version, Nat.le_succ_of_le h.reported, ?_⟩
      cases h.phase with
      | before copied loaded text => exact .before copied loaded text
      | between c copied loaded text behind past =>
          exact .between c copied loaded text behind (Nat.le_succ_of_le past)
      | behind c b r o copied loaded text version covers past bumps unbumped =>
          exact .behind c b r o copied loaded text version covers (Nat.le_succ_of_le past) bumps
            unbumped
  | bump batch =>
      refine ⟨?_, le_rfl, ?_⟩
      · show (s.mount.version + 1) % 2 ^ 32 = (v₀ + (s.bumps + 1)) % 2 ^ 32
        rw [h.version, Nat.mod_add_mod, Nat.add_assoc]
      · cases h.phase with
        | before copied loaded text => exact .before copied loaded text
        | between c copied loaded text behind past =>
            have same : s.copied = some s.processed :=
              spares (by rw [copied]; rfl) loaded
            have e : c = s.processed := Option.some.inj (copied.symm.trans same)
            exact .between c copied loaded text (e ▸ le_rfl) past
        | behind c b r o copied loaded text version covers past bumps unbumped =>
            refine .behind c b r o copied loaded text version covers past
              (Nat.le_succ_of_le bumps) fun e => ?_
            exact absurd e (by show b ≠ s.bumps + 1; omega)

theorem ListingReaches.inv {s₀ s : ListingRun}
    (h : ListingReaches natural paths Spares s₀ s) (inv : ListingInv s₀.mount.version s₀) :
    ListingInv s₀.mount.version s := by
  induction h with
  | start => exact inv
  | step _ allowed step ih => exact ih.step allowed step

theorem ListingReaches.mono
    {φ ψ : ListingEvent → ListingRun → Prop} {s₀ s : ListingRun}
    (run : ListingReaches natural paths φ s₀ s) (h : ∀ event s, φ event s → ψ event s) :
    ListingReaches natural paths ψ s₀ s := by
  induction run with
  | start => exact .start
  | step _ allowed step ih => exact ih.step (h _ _ allowed) step

/-- A whole update can run between the snapshot of a listing and its load of the version. -/
theorem ListingReaches.update_before_load
    {s₀ s : ListingRun} {next : ℕ → VfsProgram ListOutcome} (change : FileChange)
    (run : ListingReaches natural paths (fun _ _ => True) s₀ s)
    (job : s.job = .perform (VfsOp.mount .loadVersion) next) (idle : s.batch = none) :
    ∃ s', ListingReaches natural paths (fun _ _ => True) s₀ s' ∧
      s'.mount = bumpVersion ((processChange paths change s.mount).getD s.mount) ∧
      s'.job = next s'.mount.version ∧ s'.copied = s.copied ∧
      s'.processed = s.processed + 1 ∧ s'.reported = s.processed + 1 := by
  have begun := run.step trivial (.begin [change] idle)
  have processed := begun.step trivial (.process rfl)
  have bumped := processed.step trivial (.bump rfl)
  exact ⟨_, bumped.step trivial (.job job ⟨0, .inl rfl⟩), rfl, rfl, rfl, rfl, rfl⟩

/-- An update behind the load of the version spares the listing. -/
theorem ListingReaches.update_behind_load {s₀ s : ListingRun} (change : FileChange)
    (run : ListingReaches natural paths Spares s₀ s) (idle : s.batch = none)
    (loaded : s.loaded.isSome) :
    ∃ s', ListingReaches natural paths Spares s₀ s' ∧ s'.job = s.job ∧
      s'.bumps = s.bumps + 1 ∧ s'.mount.version = (s.mount.version + 1) % 2 ^ 32 := by
  have begins : Spares .begin s := trivial
  have begun := run.step begins (.begin [change] idle)
  have processes : ∀ s, Spares .process s := fun _ => trivial
  have processed := begun.step (processes _) (.process rfl)
  have bumps : ∀ s : ListingRun, s.loaded.isSome → Spares .bump s := by
    intro s some _ none
    rw [none] at some
    cases some
  refine ⟨_, processed.step (bumps _ loaded) (.bump rfl), rfl, rfl, ?_⟩
  show (_ + 1) % 2 ^ 32 = _
  rw [processChange_version]

end

/-- A listing that starts, with no update in progress. -/
def listingStart (self : VfsState) (slots : ℕ) {Score : Type} [LinearOrder Score]
    (matcher : Matcher Score) (path needle : FlString) (worker : ℕ) (m : FlVfsMount) :
    ListingRun :=
  { mount := m, job := vfsOpList self slots matcher path needle worker }

/-- In a run that spares the listing, the version a listing carries is that of a tree no
newer than the one its entries were copied from; and when it is current, while no change
is processed and not yet reported, no change has been processed since the snapshot. -/
theorem listing_current_of_spared {self : VfsState} {slots : ℕ} {Score : Type}
    [LinearOrder Score] {matcher : Matcher Score} {path needle : FlString} {worker : ℕ}
    {natural : NaturalCompare} {m : FlVfsMount} {s : ListingRun} {o : ListOutcome}
    (word : m.version < 2 ^ 32)
    (run : ListingReaches natural self.paths Spares
      (listingStart self slots matcher path needle worker m) s)
    (few : s.bumps < 2 ^ 32) (completed : s.job = .done o) (success : o.success = true) :
    ∃ c b r, s.copied = some c ∧ s.loaded = some (b, r) ∧ r ≤ c ∧
      (s.reported = s.processed → IsListingCurrent s o → s.processed = c) := by
  have start : ListingInv m.version (listingStart self slots matcher path needle worker m) :=
    ⟨(Nat.mod_eq_of_lt word).symm, le_rfl, .before rfl rfl (vfsOpList_uncopied ..)⟩
  have inv := run.inv start
  cases inv.phase with
  | before copied loaded text =>
      rw [completed] at text
      exact absurd (success.symm.trans text) (by simp)
  | between c copied loaded text behind past =>
      obtain ⟨f, load, -⟩ := text
      rw [completed] at load
      cases load
  | behind c b r o' copied loaded text version covers past bumps unbumped =>
      rw [completed] at text
      cases text
      refine ⟨c, b, r, copied, loaded, covers, fun reported current => ?_⟩
      have same : (m.version + b) % 2 ^ 32 = (m.version + s.bumps) % 2 ^ 32 :=
        version.symm.trans (current.trans inv.version)
      have e : b = s.bumps := by omega
      have r_eq := unbumped e
      omega

/-! ## A directory with one file -/

def anyName : Matcher ℕ := ⟨fun _ _ => true, fun _ _ => 0⟩

def oneDriver : PluginEntry := ⟨0, { name := ['l'] }⟩

def oneDriverState : VfsState := ⟨[oneDriver], letters⟩

/-- A mount of one file. -/
def oneFile : FlVfsMount where
  tree :=
    { nodes := fun p =>
        if p = 0 then
          some { name := [], isDirectory := true, pluginEntry := some oneDriver,
                 handles := [some 0, some 1], firstChild := some 1 }
        else if p = 1 then some { name := ['a'], parent := some 0 }
        else none
      count := 2
      root := 0 }

def staleStart : ListingRun := listingStart oneDriverState 2 anyName [] [] 0 oneFile

/-- The listing up to its load of the version. -/
theorem staleStart_copies {natural : NaturalCompare} : ∃ s next,
    ListingReaches natural letters (fun event _ => event = .job) staleStart s ∧
      s.job = .perform (VfsOp.mount .loadVersion) next ∧ s.mount = oneFile ∧ s.batch = none ∧
      s.copied = some 0 ∧ s.loaded = none ∧ s.processed = 0 ∧ s.reported = 0 ∧ s.bumps = 0 ∧
      ∀ v : ℕ, ∃ o, next v = .done o ∧ o.success = true ∧ o.mountVersion = v ∧
        o.entries.map Entry.name = [['a']] := by
  have guarded := (ListingReaches.start :
      ListingReaches natural letters (fun event _ => event = .job) staleStart staleStart).step rfl
    (.job (r := (0, ⟨some oneDriver, some 0⟩)) rfl ⟨0, .inl rfl⟩)
  have walked := guarded.step rfl
    (.job (r := (0, ⟨some oneDriver, some 0⟩)) rfl ⟨0, .inl rfl⟩)
  have listed := walked.step rfl (.job (r := ([] : List Entry)) rfl rfl)
  have polled := listed.step rfl (.job (r := false) rfl rfl)
  have copied := polled.step rfl (.job rfl ⟨0, .inl rfl⟩)
  exact ⟨_, _, copied, rfl, rfl, rfl, rfl, rfl, rfl, rfl, rfl, fun v => ⟨_, rfl, rfl, rfl, rfl⟩⟩

/-- An update that deletes the listed file behind the snapshot: the listing still names it,
and is current. -/
theorem listing_current_but_stale : ∃ s o,
    ListingReaches (fun _ _ => 0) letters (fun _ _ => True) staleStart s ∧
      s.job = .done o ∧ o.success = true ∧ s.reported = s.processed ∧ IsListingCurrent s o ∧
      s.copied = some 0 ∧ s.processed = 1 ∧ o.entries.map Entry.name = [['a']] ∧
      s.mount.tree.freed = [1] := by
  obtain ⟨s, next, run, job, mount, idle, copied, -, processed, -, -, returns⟩ :=
    @staleStart_copies fun _ _ => 0
  obtain ⟨s', run', mount', job', copied', processed', reported'⟩ :=
    (run.mono fun _ _ _ => trivial).update_before_load ⟨['a'], true⟩ job idle
  obtain ⟨o, done, success, version, names⟩ := returns s'.mount.version
  rw [mount] at mount'
  refine ⟨s', o, run', job'.trans done, success, ?_, version, copied'.trans copied, ?_, names, ?_⟩
  · rw [reported', processed']
  · rw [processed', processed]
  · rw [mount']
    decide

/-! ## Two updates, before the snapshot and behind the load -/

/-- A mount of two files. -/
def twoFiles : FlVfsMount where
  tree :=
    { nodes := fun p =>
        if p = 0 then
          some { name := [], isDirectory := true, pluginEntry := some oneDriver,
                 handles := [some 0, some 1], firstChild := some 1 }
        else if p = 1 then some { name := ['a'], parent := some 0, nextSibling := some 2 }
        else if p = 2 then some { name := ['b'], parent := some 0 }
        else none
      count := 3
      root := 0 }

def deletion (name : FlString) : FileChange := { path := name, deleted := true }

def listsTwo : ListingRun := listingStart oneDriverState 2 anyName [] [] 0 twoFiles

/-- An update has deleted `b` when the listing takes its snapshot, and is reported before the
listing loads the version. -/
theorem listsTwo_spared {natural : NaturalCompare} : ∃ s o,
    ListingReaches natural letters Spares listsTwo s ∧ s.job = .done o ∧ o.success = true ∧
      s.batch = none ∧ s.processed = 1 ∧ s.reported = 1 ∧ s.bumps = 1 ∧ s.loaded = some (1, 1) ∧
      s.mount.version = 1 ∧ s.mount.tree.freed = [2] ∧ o.mountVersion = 1 ∧
      o.entries.map Entry.name = [['a']] := by
  have begins : ∀ s, Spares .begin s := fun _ => trivial
  have processes : ∀ s, Spares .process s := fun _ => trivial
  have works : ∀ s, Spares .job s := fun _ => trivial
  have begun := (ListingReaches.start :
      ListingReaches natural letters Spares listsTwo listsTwo).step (begins _)
    (.begin [deletion ['b']] rfl)
  have processed := begun.step (processes _) (.process rfl)
  have guarded := processed.step (works _)
    (.job (r := (0, ⟨some oneDriver, some 0⟩)) rfl ⟨0, .inl rfl⟩)
  have walked := guarded.step (works _)
    (.job (r := (0, ⟨some oneDriver, some 0⟩)) rfl ⟨0, .inl rfl⟩)
  have listed := walked.step (works _) (.job (r := ([] : List Entry)) rfl rfl)
  have polled := listed.step (works _) (.job (r := false) rfl rfl)
  have copied := polled.step (works _) (.job rfl ⟨0, .inl rfl⟩)
  have counts : ∀ s : ListingRun, s.copied = some s.processed → Spares .bump s :=
    fun s same _ _ => same
  have bumped := copied.step (counts _ rfl) (.bump rfl)
  have loaded := bumped.step (works _) (.job rfl ⟨0, .inl rfl⟩)
  exact ⟨_, _, loaded, rfl, rfl, rfl, rfl, rfl, rfl, rfl, rfl, rfl, rfl, rfl⟩

/-- The listing is current, since no change was processed behind its snapshot. Then another
update deletes `a`, and it is no more. -/
theorem listing_current_of_spared_updates : ∃ s t o,
    ListingReaches (fun _ _ => 0) letters Spares listsTwo s ∧ s.job = .done o ∧
    s.bumps = 1 ∧ IsListingCurrent s o ∧ s.copied = some s.processed ∧
    ListingReaches (fun _ _ => 0) letters Spares listsTwo t ∧ t.job = .done o ∧
    t.bumps = 2 ∧ ¬ IsListingCurrent t o ∧
    ∃ c b r, t.copied = some c ∧ t.loaded = some (b, r) ∧ r ≤ c ∧
      (t.reported = t.processed → IsListingCurrent t o → t.processed = c) := by
  obtain ⟨s, o, run, done, success, idle, processed, reported, bumps, loaded, version, -,
    carries, -⟩ := @listsTwo_spared fun _ _ => 0
  have small : twoFiles.version < 2 ^ 32 := by decide
  have current : IsListingCurrent s o := carries.trans version.symm
  have spared : ∀ u, ListingReaches (fun _ _ => 0) letters Spares listsTwo u →
      ListingReaches (fun _ _ => 0) oneDriverState.paths Spares
        (listingStart oneDriverState 2 anyName [] [] 0 twoFiles) u := fun _ run => run
  obtain ⟨c, b, r, copied, -, -, same⟩ :=
    listing_current_of_spared small (spared s run) (by rw [bumps]; decide) done success
  have here := same (reported.trans processed.symm) current
  obtain ⟨t, run', done', bumps', version'⟩ := run.update_behind_load (deletion ['a']) idle (by
    rw [loaded]
    rfl)
  have outdated : ¬ IsListingCurrent t o := by
    unfold IsListingCurrent
    rw [version', carries, version]
    decide
  refine ⟨s, t, o, run, done, bumps, current, copied.trans (congrArg some here.symm), run',
    done'.trans done, ?_, outdated, ?_⟩
  · rw [bumps', bumps]
  · exact listing_current_of_spared small (spared t run') (by rw [bumps', bumps]; decide)
      (done'.trans done) success

end FlowiVfs.Tree
