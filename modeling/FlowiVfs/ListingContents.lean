import FlowiVfs.FilteredListing
import FlowiVfs.WalkPrefix

/-!
# What an unfiltered listing returns

A listing puts what the driver reports into the tree and returns the children of its node.
A child that is there already keeps its `is_directory` and `is_archive`, and one that the
driver does not report stays. `Mirrors` says when none of this shows: every child of the
node is reported, and what it keeps is what is reported with its last size and attributes.

The mount is any that operations and watcher changes lead to. The listing is alone on it
and is not canceled.
-/
namespace FlowiVfs.Tree

open Program Linked

/-- An entry that the driver has reported, with the flag that the callback has computed. -/
structure Report where
  entry : Entry
  isArchive : Bool

namespace Report

def name (r : Report) : FlString := r.entry.name

/-- What is put into the tree. -/
def shown (r : Report) : Entry := { r.entry with isArchive := r.isArchive }

/-- What `e` says is what was reported in `r`; the flag is the driver's or the computed one. -/
structure Matches (r : Report) (e : Entry) : Prop where
  name : r.name = e.name
  size : e.size = r.entry.size
  attributes : e.attributes = r.entry.attributes
  isDirectory : e.isDirectory = r.entry.isDirectory
  isArchive : e.isArchive = r.entry.isArchive ∨ e.isArchive = r.isArchive

end Report

/-- One entry for each name that was reported, and no others. -/
structure IsExact (reports : List Report) (entries : List Entry) : Prop where
  once : (entries.map Entry.name).Nodup
  names : ∀ name, (∃ e ∈ entries, e.name = name) ↔ ∃ r ∈ reports, r.name = name
  reported : ∀ e ∈ entries, ∃ r ∈ reports, r.Matches e

/-! ## Children by name -/

/-- The child of that name, as a listing copies it. -/
def MountTree.childInfo (t : MountTree) (parent : NodePtr) (name : FlString) : Option Entry := do
  let found ← t.findChildNode parent name
  let c ← found
  let n ← t.nodes c
  some n.info

/-- What the callback makes of a child. -/
def Entry.updated (child : Option Entry) (e : Entry) : Entry :=
  match child with
  | none => e
  | some k => { k with size := e.size, attributes := e.attributes }

section
variable {natural : NaturalCompare} {t t' : MountTree} {w : Forest NodePtr}
variable {parent fresh c : NodePtr} {name : FlString} {e : Entry} {n : VfsTreeNode}

theorem info_of_data {d : VfsTreeNode} (h : t.dataOf c = some d) :
    (t.nodes c).map VfsTreeNode.info = some d.info := by
  obtain ⟨n, hn, rfl⟩ := Option.map_eq_some_iff.mp h
  rw [hn]
  rfl

theorem childInfo_some (search : t.findChildNode parent name = some (some c)) :
    t.childInfo parent name = (t.nodes c).map VfsTreeNode.info := by
  simp only [MountTree.childInfo, search, Option.bind_eq_bind, Option.bind_some]
  cases t.nodes c <;> rfl

theorem childInfo_none (search : t.findChildNode parent name = some none) :
    t.childInfo parent name = none := by
  simp only [MountTree.childInfo, search, Option.bind_eq_bind, Option.bind_some, Option.bind_none]

namespace Shaped

/-- A child of some name is a child that bears it. -/
theorem childInfo_iff (h : Shaped t w) (hp : parent ∈ w.nodes) :
    t.childInfo parent name = some e ↔
      e.name = name ∧ ∃ c ∈ (w.children parent).level,
        (t.nodes c).map VfsTreeNode.info = some e := by
  have named : ∀ c, (t.nodes c).map VfsTreeNode.info = some e → t.nameOf c = e.name := by
    intro c copied
    obtain ⟨n, hn, rfl⟩ := Option.map_eq_some_iff.mp copied
    exact MountTree.nameOf_some hn
  constructor
  · intro child
    obtain ⟨found, search, rest⟩ := Option.bind_eq_some_iff.mp child
    cases found with
    | none => cases rest
    | some c =>
        rw [childInfo_some search] at child
        obtain ⟨-, inside, name⟩ := h.found search
        exact ⟨(named c child).symm.trans name, c, inside, child⟩
  · intro bears
    obtain ⟨rfl, c, inside, copied⟩ := bears
    rw [← named c copied, childInfo_some (h.finds hp inside)]
    exact copied

/-- What a listing copies are the children by their names. -/
theorem copies (h : Shaped t w) (hn : t.nodes parent = some n) :
    ∃ infos, t.childInfos t.count n.firstChild = some infos ∧
      (infos.map Entry.name).Nodup ∧
      ∀ e, e ∈ infos ↔ t.childInfo parent e.name = some e := by
  have hp := h.live parent n hn
  obtain ⟨infos, copied, level⟩ :=
    MountTree.childInfos_level (h.held.children hp) (h.short parent)
  refine ⟨infos, ?_, ?_, ?_⟩
  · rw [h.firstChild hn]
    exact copied
  · have keys := congrArg (List.map Prod.snd) (MountTree.childInfos_keys level)
    rw [List.map_map, List.map_map] at keys
    have names : (w.children parent).level.map (Prod.snd ∘ t.keyOf) =
        (w.children parent).level.map t.nameOf := by
      apply List.map_congr_left
      intro c _
      cases hc : t.nodes c <;>
        simp [MountTree.keyOf, MountTree.nameOf, hc, VfsTreeNode.key]
    rw [show infos.map Entry.name = infos.map (Prod.snd ∘ Entry.key) from rfl, keys, names]
    exact (h.names.children hp).1
  · intro e
    rw [h.childInfo_iff hp, ← List.mem_map_of_injective (Option.some_injective _), level]
    simp

theorem insert_level (h : Shaped t w) (hp : parent ∈ w.nodes) (pass : NodePtr → Bool) :
    c ∈ ((w.modify parent (Forest.insert pass fresh)).children parent).level ↔
      c = fresh ∨ c ∈ (w.children parent).level := by
  rw [Forest.children_modify h.distinct hp, Forest.level_insert, List.mem_append, List.mem_cons]
  have split : c ∈ (w.children parent).level ↔
      c ∈ (w.children parent).level.takeWhile pass ∨
        c ∈ (w.children parent).level.dropWhile pass := by
    rw [← List.mem_append, List.takeWhile_append_dropWhile]
  rw [split]
  exact or_left_comm

/-- A child that is there is written over. -/
theorem childInfo_set (h : Shaped t w) (hp : parent ∈ w.nodes)
    (inside : c ∈ (w.children parent).level) (hn : t.nodes c = some n) (name : n.name = e.name) :
    (t.set c { n with size := e.size, attributes := e.attributes }).childInfo parent =
      Function.update (t.childInfo parent) e.name
        (some (e.updated (t.childInfo parent e.name))) := by
  have after := h.set (m := { n with size := e.size, attributes := e.attributes }) hn rfl rfl
  have before : t.childInfo parent e.name = some n.info := by
    apply (h.childInfo_iff hp).mpr
    exact ⟨name, c, inside, by rw [hn]; rfl⟩
  funext x
  by_cases same : x = e.name
  · subst same
    rw [Function.update_self, before]
    apply (after.childInfo_iff hp).mpr
    exact ⟨name, c, inside, by rw [MountTree.set_nodes_self]; rfl⟩
  · rw [Function.update_of_ne same]
    apply Option.ext
    intro k
    rw [after.childInfo_iff hp, h.childInfo_iff hp]
    refine and_congr_right fun bears => exists_congr fun d => and_congr_right fun _ => ?_
    by_cases here : d = c
    · subst here
      rw [MountTree.set_nodes_self, hn]
      constructor
      · intro copied
        cases copied
        exact absurd (bears.symm.trans name) same
      · intro copied
        cases copied
        exact absurd (bears.symm.trans name) same
    · rw [MountTree.set_nodes_ne here]

/-- A child that is added bears the name. -/
theorem childInfo_grown {w' : Forest NodePtr} (h : Shaped t w) (hp : parent ∈ w.nodes)
    (free : t.nodes fresh = none) (grown : Grown natural t t' w w' parent fresh n)
    (shown : n.info = e) :
    parent ∈ w'.nodes ∧ t'.childInfo parent =
      Function.update (t.childInfo parent) e.name
        (some (e.updated (t.childInfo parent e.name))) := by
  have new : fresh ∉ w.nodes := by
    intro inside
    obtain ⟨k, hk⟩ := h.node inside
    rw [free] at hk
    cases hk
  have grows := grown.grows h hp free
  have after := grown.shaped
  have copied : (t'.nodes fresh).map VfsTreeNode.info = some e := by
    rw [info_of_data grown.here, shown]
  have others : ∀ d, d ≠ fresh →
      (t'.nodes d).map VfsTreeNode.info = (t.nodes d).map VfsTreeNode.info := by
    intro d other
    have data := congrArg (Option.map VfsTreeNode.info) (grown.others d other)
    simp only [MountTree.dataOf, Option.map_map] at data
    exact data
  obtain ⟨pass, rfl, -⟩ := grown.shape
  have hp' : parent ∈ (w.modify parent (Forest.insert pass fresh)).nodes :=
    (Forest.mem_modify_insert h.distinct fun same : parent = fresh => new (same ▸ hp)).mpr hp
  have inside : fresh ∈ ((w.modify parent (Forest.insert pass fresh)).children parent).level :=
    (h.insert_level hp pass).mpr (.inl rfl)
  have named : t'.nameOf fresh = e.name := by
    obtain ⟨k, hk, rfl⟩ := Option.map_eq_some_iff.mp copied
    exact MountTree.nameOf_some hk
  have found := after.finds hp' inside
  rw [named] at found
  have missing : t.childInfo parent e.name = none := by
    cases child : t.childInfo parent e.name with
    | none => rfl
    | some k =>
        obtain ⟨search, there, -⟩ := Option.bind_eq_some_iff.mp child
        cases search with
        | none =>
            rw [childInfo_none there] at child
            cases child
        | some c =>
            cases (grows.found parent e.name c there).symm.trans found
            obtain ⟨-, old, -⟩ := h.found there
            exact absurd (w.children_subset parent ((w.children parent).level_subset old)) new
  refine ⟨hp', ?_⟩
  funext x
  by_cases same : x = e.name
  · subst same
    rw [Function.update_self, missing, childInfo_some found]
    exact copied
  · rw [Function.update_of_ne same]
    apply Option.ext
    intro k
    rw [after.childInfo_iff hp', h.childInfo_iff hp]
    refine and_congr_right fun bears => exists_congr fun d => ?_
    rw [h.insert_level hp pass]
    by_cases here : d = fresh
    · subst here
      constructor
      · intro both
        cases copied.symm.trans both.2
        exact absurd bears.symm same
      · intro both
        exact absurd (w.children_subset parent ((w.children parent).level_subset both.1)) new
    · rw [others d here]
      simp only [here, false_or]

/-- The section of the callback puts its entry among the children. -/
theorem childInfo_listEntry (h : Shaped t w) (hp : parent ∈ w.nodes)
    (free : t.nodes fresh = none) (run : t.listEntry natural parent e fresh = some t') :
    ∃ w', Shaped t' w' ∧ parent ∈ w'.nodes ∧ t'.childInfo parent =
      Function.update (t.childInfo parent) e.name
        (some (e.updated (t.childInfo parent e.name))) := by
  rcases h.listEntry natural hp free e with ⟨c, inside, n, hn, name, there⟩ | ⟨u, w', added, grown⟩
  · cases there.symm.trans run
    exact ⟨w, h.set hn rfl rfl, hp, h.childInfo_set hp inside hn name⟩
  · cases added.symm.trans run
    exact ⟨w', grown.shaped, h.childInfo_grown hp free grown rfl⟩

end Shaped

end

/-! ## The reports of an enumeration -/

/-- The children by name when the callback was called with each report. -/
def afterReports (children : FlString → Option Entry) :
    List Report → FlString → Option Entry
  | [] => children
  | r :: rest =>
      afterReports
        (Function.update children r.name (some (r.shown.updated (children r.name)))) rest

def firstReport (reports : List Report) (name : FlString) : Option Report :=
  reports.find? fun r => r.name = name

def lastReport (reports : List Report) (name : FlString) : Option Report :=
  firstReport reports.reverse name

/-- The child that keeps its `is_directory` and `is_archive`: the one that was there, or the
one that the first report of the name has made. -/
def keptChild (children : FlString → Option Entry) (reports : List Report) (name : FlString) :
    Option Entry :=
  (children name).or ((firstReport reports name).map Report.shown)

/-- Every child that was there is reported, and what a reported name keeps is reported for
it together with the size and the attributes of its last report. -/
structure Mirrors (children : FlString → Option Entry) (reports : List Report) : Prop where
  reported : ∀ name, (children name).isSome → ∃ r ∈ reports, r.name = name
  kept : ∀ name k last, keptChild children reports name = some k →
    lastReport reports name = some last → ∃ r ∈ reports, r.name = name ∧
      r.entry.size = last.entry.size ∧ r.entry.attributes = last.entry.attributes ∧
      r.entry.isDirectory = k.isDirectory ∧
      (k.isArchive = r.entry.isArchive ∨ k.isArchive = r.isArchive)

section
variable {children : FlString → Option Entry} {reports : List Report} {name : FlString}
variable {r : Report}

theorem firstReport_some (h : firstReport reports name = some r) :
    r ∈ reports ∧ r.name = name := by
  refine ⟨List.mem_of_find?_eq_some h, ?_⟩
  simpa using List.find?_some h

theorem exists_firstReport (h : r ∈ reports) : ∃ first, firstReport reports r.name = some first := by
  apply Option.isSome_iff_exists.mp
  rw [firstReport, List.find?_isSome]
  exact ⟨r, h, by simp⟩

theorem lastReport_some (h : lastReport reports name = some r) :
    r ∈ reports ∧ r.name = name := by
  have found := firstReport_some h
  rw [List.mem_reverse] at found
  exact found

theorem exists_lastReport (h : r ∈ reports) : ∃ last, lastReport reports r.name = some last :=
  exists_firstReport (List.mem_reverse.mpr h)

theorem lastReport_cons :
    lastReport (r :: reports) name =
      (lastReport reports name).or (if r.name = name then some r else none) := by
  rw [lastReport, lastReport, firstReport, firstReport, List.reverse_cons, List.find?_append]
  by_cases here : r.name = name <;> simp [here]

/-- A name has the child it keeps, with the size and the attributes of its last report. -/
theorem afterReports_eq :
    afterReports children reports name =
      match lastReport reports name with
      | none => children name
      | some last => (keptChild children reports name).map fun k => last.shown.updated (some k) := by
  induction reports generalizing children with
  | nil => rfl
  | cons r rest ih =>
      rw [afterReports, ih, lastReport_cons]
      by_cases here : r.name = name
      · subst here
        cases lastReport rest r.name <;> cases old : children r.name <;>
          simp [keptChild, firstReport, old, Entry.updated]
      · have other : name ≠ r.name := fun e => here e.symm
        cases lastReport rest name <;>
          simp [keptChild, firstReport, Function.update_of_ne other, here]

end

section
variable {children : FlString → Option Entry} {reports : List Report} {entries : List Entry}

/-- Entries that are the children by their names are exact just when the reports mirror
the children that were there. -/
theorem exact_iff_mirrors (once : (entries.map Entry.name).Nodup)
    (named : ∀ name e, children name = some e → e.name = name)
    (all : ∀ e, e ∈ entries ↔ afterReports children reports e.name = some e) :
    IsExact reports entries ↔ Mirrors children reports := by
  have keeps : ∀ name k, keptChild children reports name = some k → k.name = name := by
    intro name k kept
    rcases Option.or_eq_some_iff.mp kept with old | ⟨-, new⟩
    · exact named name k old
    · obtain ⟨r, first, rfl⟩ := Option.map_eq_some_iff.mp new
      exact (firstReport_some first).2
  have entry : ∀ name k last, keptChild children reports name = some k →
      lastReport reports name = some last → last.shown.updated (some k) ∈ entries := by
    intro name k last kept last_eq
    apply (all _).mpr
    rw [show (last.shown.updated (some k)).name = name from keeps name k kept, afterReports_eq,
      last_eq, kept]
    rfl
  constructor
  · intro exact
    constructor
    · intro name there
      obtain ⟨k, old⟩ := Option.isSome_iff_exists.mp there
      have kept : keptChild children reports name = some k := by
        rw [keptChild, old, Option.some_or]
      cases lastEq : lastReport reports name with
      | some last => exact ⟨last, lastReport_some lastEq⟩
      | none =>
          apply (exact.names name).mp
          refine ⟨k, (all k).mpr ?_, named name k old⟩
          rw [named name k old, afterReports_eq, lastEq]
          exact old
    · intro name k last kept lastEq
      obtain ⟨r, inside, told⟩ := exact.reported _ (entry name k last kept lastEq)
      exact ⟨r, inside, told.name.trans (keeps name k kept), told.size.symm,
        told.attributes.symm, told.isDirectory.symm, told.isArchive⟩
  · intro mirrors
    have reported : ∀ e ∈ entries, ∃ last, lastReport reports e.name = some last ∧
        ∃ k, keptChild children reports e.name = some k ∧ last.shown.updated (some k) = e := by
      intro e inside
      have after := (all e).mp inside
      rw [afterReports_eq] at after
      cases lastEq : lastReport reports e.name with
      | none =>
          rw [lastEq] at after
          have old : children e.name = some e := after
          obtain ⟨r, there, name⟩ := mirrors.reported e.name (Option.isSome_iff_exists.mpr ⟨e, old⟩)
          obtain ⟨last, found⟩ := exists_lastReport there
          rw [name, lastEq] at found
          cases found
      | some last =>
          rw [lastEq] at after
          exact ⟨last, rfl, Option.map_eq_some_iff.mp after⟩
    refine ⟨once, fun name => ⟨?_, ?_⟩, ?_⟩
    · intro listed
      obtain ⟨e, inside, rfl⟩ := listed
      obtain ⟨last, lastEq, -⟩ := reported e inside
      exact ⟨last, lastReport_some lastEq⟩
    · intro told
      obtain ⟨r, inside, rfl⟩ := told
      obtain ⟨last, lastEq⟩ := exists_lastReport inside
      obtain ⟨first, firstEq⟩ := exists_firstReport inside
      obtain ⟨k, kept⟩ : ∃ k, keptChild children reports r.name = some k := by
        rw [keptChild, firstEq]
        cases children r.name <;> simp
      exact ⟨_, entry r.name k last kept lastEq, keeps r.name k kept⟩
    · intro e inside
      obtain ⟨last, lastEq, k, kept, rfl⟩ := reported e inside
      obtain ⟨r, there, name, size, attributes, directory, archive⟩ :=
        mirrors.kept _ k last kept lastEq
      exact ⟨r, there, name, size.symm, attributes.symm, directory.symm, archive⟩

end

/-! ## A listing that is not canceled -/

/-- The operation is alone on its mount, and `vfs_should_cancel` returns false. -/
def Uncanceled (natural : NaturalCompare) : Environment vfs FlVfsMount := fun m op r m' =>
  Alone natural m op r m' ∧
    match op, r with
    | .shouldCancel, r => r = false
    | _, _ => True

/-- What the callback leaves out. -/
def Entry.IsDots (e : Entry) : Prop := e.name = ".".toList ∨ e.name = "..".toList

instance (e : Entry) : Decidable e.IsDots := inferInstanceAs (Decidable (_ ∨ _))

/-- The callback on each entry that the driver reports. -/
inductive Callbacks (natural : NaturalCompare) (self : VfsState) (lister : PluginEntry)
    (handle : Option DriverPtr) (parent : NodePtr) :
    FlVfsMount → List Entry → List Report → FlVfsMount → Prop
  | done (m : FlVfsMount) : Callbacks natural self lister handle parent m [] [] m
  | dots {m m' : FlVfsMount} {entry : Entry} {rest : List Entry} {reports : List Report}
      (dots : entry.IsDots)
      (later : Callbacks natural self lister handle parent m rest reports m') :
      Callbacks natural self lister handle parent m (entry :: rest) reports m'
  | child {m m₁ m₂ m' : FlVfsMount} {entry : Entry} {flag : Bool} {rest : List Entry}
      {reports : List Report}
      (named : ¬ entry.IsDots)
      (flagged : Run (Uncanceled natural) (onDrivers (entryIsArchive self lister handle entry))
        m flag m₁)
      (put : Run (Uncanceled natural)
        (onMount (.listEntry parent { entry with isArchive := flag })) m₁ () m₂)
      (later : Callbacks natural self lister handle parent m₂ rest reports m') :
      Callbacks natural self lister handle parent m (entry :: rest) (⟨entry, flag⟩ :: reports) m'

section
variable {Score : Type} [LinearOrder Score] (natural : NaturalCompare) (self : VfsState)
variable (slots : ℕ) (matcher : Matcher Score) (path : FlString) (worker : ℕ)

/-- An unfiltered listing: the walk leads to `node` of the mount `begun`, where the driver
enumerates the directory, with the callback on each entry; then the children are copied. -/
def Lists (m begun : FlVfsMount) (node : NodePtr) (reports : List Report) (o : ListOutcome)
    (m' : FlVfsMount) : Prop :=
  ∃ walk lister reported m₁ m₂,
    Run (Uncanceled natural) (vfsTreeWalkAndResolve self slots path worker true) m walk begun ∧
    walk.driver.pluginEntry = some lister ∧ walk.node = some node ∧
    Run (Uncanceled natural) (onDrivers (driver
      (.listDirectory lister walk.driver.handle walk.pathFromNode))) begun reported m₁ ∧
    Callbacks natural self lister walk.driver.handle node m₁ reported reports m₂ ∧
    Run (Uncanceled natural) (finishList matcher path [] node) m₂ o m'

end

/-- What a listing hears from a driver, and what it puts into the tree. -/
inductive ListNote
  | reported (entries : List Entry)
  | put (parent : NodePtr) (entry : Entry)

def listNotes : (op : VfsOp) → op.Reply → List ListNote
  | .driver (.listDirectory ..), entries => [.reported entries]
  | .mount (.listEntry parent entry), _ => [.put parent entry]
  | _, _ => []

/-- The same, with a record of the reports and of what is put into the tree. -/
def Noted (natural : NaturalCompare) : Environment vfs (FlVfsMount × List ListNote) :=
  (Uncanceled natural).noting listNotes

theorem listNotes_walk {op : VfsOp} {r : op.Reply} (h : WalkOp op) : listNotes op r = [] := by
  unfold listNotes
  split
  · exact h.elim
  · exact h.elim
  · rfl

section
variable {natural : NaturalCompare} {self : VfsState} {lister : PluginEntry}
variable {handle : Option DriverPtr} {parent : NodePtr} {m m' : FlVfsMount}
variable {w : Forest NodePtr}

theorem uncanceled_drivers {A : Type} {p : DriverProgram A} {a : A}
    (run : Run (Uncanceled natural) (onDrivers p) m a m') : m' = m := by
  have calls : Calls (Uncanceled natural) IsDriverCall m m' := driverCalls run
  have alone : Calls (Alone natural) IsDriverCall m m' := by
    refine Relation.ReflTransGen.mono ?_ _ _ calls
    intro u v called
    obtain ⟨op, r, isDriver, answer, -⟩ := called
    exact ⟨op, r, isDriver, answer⟩
  exact alone_drivers alone

theorem uncanceled_shaped (shaped : ∃ w, Shaped m.tree w) {A : Type} {p : VfsProgram A} {a : A}
    (run : Run (Uncanceled natural) p m a m') : ∃ w, Shaped m'.tree w := by
  apply run.keeps (I := fun u => ∃ w, Shaped u.tree w) ?_ shaped
  intro u op r v shaped answer
  obtain ⟨alone, -⟩ := answer
  cases op with
  | mount op =>
      obtain ⟨w, shaped⟩ := shaped
      obtain ⟨fresh, free, run⟩ := alone
      exact section_shaped shaped free run
  | _ =>
      cases alone
      exact shaped

/-- The enumeration calls the callback on every entry, and puts all but the dots. -/
theorem enumerate_callbacks {reported : List Entry} {log log' : List ListNote}
    (run : Run (Noted natural) (enumerate self lister handle parent reported) (m, log) ()
      (m', log')) :
    ∃ reports, Callbacks natural self lister handle parent m reported reports m' ∧
      reports.map Report.entry = reported.filter (fun e => ¬ e.IsDots) ∧
      log' = log ++ reports.map fun r => .put parent r.shown := by
  induction reported generalizing m log with
  | nil =>
      obtain ⟨-, same⟩ := run_done.mp run
      cases same
      exact ⟨[], .done _, rfl, (List.append_nil _).symm⟩
  | cons entry rest ih =>
      obtain ⟨goOn, u, callback, remaining⟩ := run_bind.mp run
      obtain ⟨canceled, ⟨m₁, log₁⟩, asked, called⟩ := run_bind.mp callback
      obtain ⟨⟨same, answer⟩, silent⟩ := run_call.mp asked
      cases same
      cases answer
      have start : log₁ = log := silent.trans (List.append_nil log)
      subst start
      rw [if_neg Bool.false_ne_true] at called
      by_cases dots : entry.name = ".".toList ∨ entry.name = "..".toList
      · rw [if_pos dots] at called
        obtain ⟨rfl, rfl⟩ := run_done.mp called
        obtain ⟨reports, later, heard, put⟩ := ih remaining
        refine ⟨reports, .dots dots later, ?_, put⟩
        rw [heard, List.filter_cons_of_neg]
        exact fun kept => of_decide_eq_true kept dots
      · rw [if_neg dots] at called
        obtain ⟨flag, x, flagged, called⟩ := run_bind.mp called
        obtain ⟨_, y, puts, done⟩ := run_bind.mp called
        obtain ⟨rfl, rfl⟩ := run_done.mp done
        obtain ⟨reports, later, heard, put⟩ := ih remaining
        have unheard := (walk_onDrivers (entryIsArchive_only ..)).unrecorded
          (fun _ _ => listNotes_walk) flagged
        refine ⟨⟨entry, flag⟩ :: reports, ?_, ?_, ?_⟩
        · exact .child dots flagged.unnoted puts.unnoted later
        · rw [List.map_cons, heard, List.filter_cons_of_pos]
          exact decide_eq_true dots
        · rw [put, (run_call.mp puts).2, unheard, List.append_assoc]
          rfl

/-- What the callbacks leave of the children. -/
theorem Callbacks.contents {reported : List Entry} {reports : List Report}
    (calls : Callbacks natural self lister handle parent m reported reports m')
    (shaped : ∃ w, Shaped m.tree w) :
    (∃ w, Shaped m'.tree w) ∧
      m'.tree.childInfo parent = afterReports (m.tree.childInfo parent) reports := by
  induction calls with
  | done => exact ⟨shaped, rfl⟩
  | dots _ _ ih => exact ih shaped
  | child named flagged put _ ih =>
      cases uncanceled_drivers flagged
      obtain ⟨⟨fresh, free, run⟩, -⟩ := run_call.mp put
      obtain ⟨t, listed, same⟩ := Option.bind_eq_some_iff.mp run
      cases same
      obtain ⟨w, shaped⟩ := shaped
      obtain ⟨found, search, -⟩ := Option.bind_eq_some_iff.mp listed
      obtain ⟨w', after, -, put⟩ :=
        shaped.childInfo_listEntry (parent_mem shaped search) free listed
      obtain ⟨kept, contents⟩ := ih ⟨w', after⟩
      exact ⟨kept, contents.trans (congrArg (afterReports · _) put)⟩

end

section
variable {Score : Type} [LinearOrder Score] {natural : NaturalCompare} {self : VfsState}
variable {slots worker : ℕ} {matcher : Matcher Score} {path : FlString}
variable {m m' begun : FlVfsMount} {node : NodePtr} {reports : List Report} {o : ListOutcome}

theorem finishList_silent (node : NodePtr) :
    Only (fun op => ∀ r, listNotes op r = []) (finishList matcher path [] node) := by
  refine .bind (p := shouldCancel) ⟨fun _ => rfl, fun _ => trivial⟩ fun canceled => ?_
  cases canceled with
  | true => trivial
  | false => exact ⟨fun _ => rfl, fun entries => ⟨fun _ => rfl, fun version => trivial⟩⟩

/-- A listing that succeeds has enumerated a directory. Its reports are those that it heard
and put into the tree. -/
theorem vfsOpList_lists {log : List ListNote}
    (run : Run (Noted natural) (vfsOpList self slots matcher path [] worker) (m, []) o (m', log))
    (success : o.success = true) :
    ∃ begun node reported reports,
      Lists natural self slots matcher path worker m begun node reports o m' ∧
      reports.map Report.entry = reported.filter (fun e => ¬ e.IsDots) ∧
      log = .reported reported :: reports.map fun r => .put node r.shown := by
  obtain ⟨root, u, rooted, run⟩ := run_bind.mp run
  obtain ⟨⟨⟨fresh, -, looked⟩, -⟩, silent⟩ := run_call.mp rooted
  obtain ⟨n, -, same⟩ := Option.bind_eq_some_iff.mp looked
  obtain ⟨u, log₁⟩ := u
  cases same
  cases silent
  dsimp only at run
  split_ifs at run
  · obtain ⟨rfl, -⟩ := run_done.mp run
    cases success
  · obtain ⟨walk, ⟨begun, log₂⟩, walked, run⟩ := run_bind.mp run
    cases (walk_only ..).unrecorded (fun _ _ => listNotes_walk) walked
    split at run
    · rename_i lister node _ driver reached
      split_ifs at run
      · obtain ⟨reported, ⟨m₁, log₃⟩, listed, run⟩ := run_bind.mp run
        obtain ⟨_, ⟨m₂, log₄⟩, enumerated, finished⟩ := run_bind.mp run
        obtain ⟨reports, calls, heard, put⟩ := enumerate_callbacks enumerated
        refine ⟨begun, node, reported, reports, ?_, heard, ?_⟩
        · exact ⟨walk, lister, reported, m₁, m₂, walked.unnoted, driver, reached,
            listed.unnoted, calls, finished.unnoted⟩
        · have told : log₃ = [.reported reported] := (run_call.mp listed).2
          have last : log = log₄ := (finishList_silent ..).unrecorded (fun _ _ h => h _) finished
          rw [last, put, told]
          rfl
      · obtain ⟨rfl, -⟩ := run_done.mp run
        cases success
    · obtain ⟨rfl, -⟩ := run_done.mp run
      cases success

/-- What a listing returns are the children by their names. -/
theorem Lists.entries (lists : Lists natural self slots matcher path worker m begun node reports o m')
    (shaped : ∃ w, Shaped m.tree w) :
    (o.entries.map Entry.name).Nodup ∧
      (∀ name e, begun.tree.childInfo node name = some e → e.name = name) ∧
      ∀ e, e ∈ o.entries ↔ afterReports (begun.tree.childInfo node) reports e.name = some e := by
  obtain ⟨walk, lister, reported, m₁, m₂, walked, -, -, listed, calls, finished⟩ := lists
  obtain ⟨w, before⟩ := uncanceled_shaped shaped walked
  cases uncanceled_drivers listed
  obtain ⟨⟨w', after⟩, contents⟩ := calls.contents ⟨w, before⟩
  obtain ⟨canceled, u, asked, finished⟩ := run_bind.mp finished
  obtain ⟨same, answer⟩ := run_call.mp asked
  cases same
  cases answer
  obtain ⟨entries, v, copied, finished⟩ := run_bind.mp finished
  obtain ⟨⟨fresh, -, copied⟩, -⟩ := run_call.mp copied
  obtain ⟨n, hn, copied⟩ := Option.bind_eq_some_iff.mp copied
  obtain ⟨infos, loop, same⟩ := Option.bind_eq_some_iff.mp copied
  cases same
  obtain ⟨version, x, -, done⟩ := run_bind.mp finished
  obtain ⟨rfl, -⟩ := run_done.mp done
  obtain ⟨infos', loop', once, all⟩ := after.copies hn
  cases loop.symm.trans loop'
  refine ⟨?_, ?_, ?_⟩
  · exact once
  · intro name e child
    by_cases hp : node ∈ w.nodes
    · exact ((before.childInfo_iff hp).mp child).1
    · obtain ⟨found, search, -⟩ := Option.bind_eq_some_iff.mp child
      exact absurd (parent_mem before search) hp
  · intro e
    rw [← contents]
    exact all e

end

section
variable {Score : Type} [LinearOrder Score] {natural : NaturalCompare} {paths : PathLibrary}
variable {φ : MountTree → NodePtr → Prop} {self : VfsState} {slots worker : ℕ}
variable {matcher : Matcher Score} {path : FlString} {m₀ m : FlVfsMount}
variable {root : NodePtr} {name : FlString} {entry : Option PluginEntry} {handles : VfsHandles}

/-- Whatever operations and watcher changes have run on a mount, an unfiltered listing that
succeeds enumerates a directory: its reports are what the driver has reported in this run but
for the dots, and what the run has put into the tree. It returns exactly what was reported,
when and only when the reports mirror the children that the node had before. -/
theorem list_exact_iff
    (mounted : m₀.tree = (MountState.mounted root name entry handles).tree)
    (steps : Relation.ReflTransGen (MountStep natural paths φ) m₀ m) :
    (∀ o m' log,
      Run (Noted natural) (vfsOpList self slots matcher path [] worker) (m, []) o (m', log) →
        o.success = true → ∃ begun node reported reports,
          Lists natural self slots matcher path worker m begun node reports o m' ∧
          reports.map Report.entry = reported.filter (fun e => ¬ e.IsDots) ∧
          log = .reported reported :: reports.map fun r => .put node r.shown) ∧
    ∀ begun node reports o m',
      Lists natural self slots matcher path worker m begun node reports o m' →
        (IsExact reports o.entries ↔ Mirrors (begun.tree.childInfo node) reports) := by
  have shaped : ∃ w, Shaped m.tree w := by
    refine steps_shaped ?_ steps
    rw [mounted]
    exact ⟨_, (Sound.mounted root name entry handles).shaped⟩
  constructor
  · intro o m' log run success
    exact vfsOpList_lists run success
  · intro begun node reports o m' lists
    obtain ⟨once, named, all⟩ := lists.entries shaped
    exact exact_iff_mirrors once named all

end

/-! ## A read of a path that does not exist -/

/-- The root has the files `a` and `b`, and nothing else can be opened. -/
def answerTwoFiles : (op : VfsOp) → FlVfsMount → Option (op.Reply × FlVfsMount)
  | .driver (.openPath ..), m => some (⟨none, false, false⟩, m)
  | .callback .., m => some (none, m)
  | op, m => answerArchive op m

theorem answerTwoFiles_allowed (m : FlVfsMount) (op : VfsOp) (r : op.Reply) (m' : FlVfsMount)
    (h : answerTwoFiles op m = some (r, m')) : Uncanceled byFirstLetter m op r m' := by
  unfold answerTwoFiles at h
  split at h
  · cases h
    exact ⟨rfl, trivial⟩
  · cases h
    exact ⟨rfl, trivial⟩
  unfold answerArchive at h
  split at h
  · split_ifs at h with free
    exact ⟨⟨_, Option.isNone_iff_eq_none.mp free, h⟩, trivial⟩
  all_goals cases h <;> exact ⟨rfl, by trivial⟩

def fileReport (name : Char) : Report :=
  ⟨{ name := [name], size := 1, isDirectory := false }, false⟩

theorem uncanceled_steps {A : Type} {p : VfsProgram A} {a : A} {m m' : FlVfsMount}
    {natural : NaturalCompare} {paths : PathLibrary} (run : Run (Uncanceled natural) p m a m') :
    Relation.ReflTransGen (MountStep natural paths fun _ _ => True) m m' := by
  apply run.relates (fun _ => .refl) (fun _ _ _ => .trans)
  intro u op r v answer
  obtain ⟨alone, -⟩ := answer
  cases op with
  | mount op => exact .single (.operation op r ⟨alone, fun _ _ => trivial⟩)
  | _ =>
      cases alone
      exact .refl

def toldTwoFiles : List ListNote :=
  [.reported [(fileReport 'a').entry, (fileReport 'b').entry], .put 0 (fileReport 'a').shown,
    .put 0 (fileReport 'b').shown]

theorem twoFiles_reports {node : NodePtr} {reported : List Entry} {reports : List Report}
    (heard : reports.map Report.entry = reported.filter (fun e => ¬ e.IsDots))
    (told : toldTwoFiles = .reported reported :: reports.map fun r => .put node r.shown) :
    reports = [fileReport 'a', fileReport 'b'] := by
  obtain ⟨first, puts⟩ := List.cons.inj told
  cases first
  have entries : reports.map Report.entry = [(fileReport 'a').entry, (fileReport 'b').entry] :=
    heard
  have two : reports.length = 2 := by simpa using congrArg List.length entries
  obtain ⟨⟨a, flagA⟩, ⟨b, flagB⟩, rfl⟩ := List.length_eq_two.mp two
  cases entries
  cases puts
  rfl

theorem twoFiles_exact :
    IsExact [fileReport 'a', fileReport 'b'] [(fileReport 'a').shown, (fileReport 'b').shown] := by
  constructor
  · decide
  · intro name
    simp [fileReport, Report.name, Report.shown]
  · intro e listed
    rcases List.mem_pair.mp listed with rfl | rfl
    · exact ⟨fileReport 'a', List.mem_cons_self, rfl, rfl, rfl, rfl, .inl rfl⟩
    · exact ⟨fileReport 'b', List.mem_cons_of_mem _ List.mem_cons_self, rfl, rfl, rfl, rfl,
        .inl rfl⟩

/-- The root is listed behind another listing of it and a read of `a` that has failed. -/
theorem list_exact_again : ∃ earlier m₁ failed m₂ o m' begun node,
    Run (Uncanceled byFirstLetter) (listArchives []) listedMount earlier m₁ ∧
    Run (Uncanceled byFirstLetter) (vfsOpReadAll ⟨[lister, archiver], letters⟩ 1 ['a'] 0) m₁
      failed m₂ ∧
    failed.status = VFS_ERROR_FILE_NOT_FOUND ∧
    Run (Noted byFirstLetter) (listArchives []) (m₂, []) o (m', toldTwoFiles) ∧
    Lists byFirstLetter ⟨[lister, archiver], letters⟩ 1 matchAll [] 0 m₂ begun node
      [fileReport 'a', fileReport 'b'] o m' ∧
    IsExact [fileReport 'a', fileReport 'b'] o.entries ∧
    Mirrors (begun.tree.childInfo node) [fileReport 'a', fileReport 'b'] := by
  obtain ⟨earlier, m₁, failed, m₂, o, m', first, read, status, again, success, entries⟩ :
      ∃ earlier m₁ failed m₂ o m',
        replay answerTwoFiles (listArchives []) listedMount = some (earlier, m₁) ∧
        replay answerTwoFiles (vfsOpReadAll ⟨[lister, archiver], letters⟩ 1 ['a'] 0) m₁ =
          some (failed, m₂) ∧
        failed.status = VFS_ERROR_FILE_NOT_FOUND ∧
        replay (recording listNotes answerTwoFiles) (listArchives []) (m₂, []) =
          some (o, m', toldTwoFiles) ∧
        o.success = true ∧ o.entries = [(fileReport 'a').shown, (fileReport 'b').shown] :=
    ⟨_, _, _, _, _, _, rfl, rfl, rfl, rfl, rfl, rfl⟩
  have listing := run_replay answerTwoFiles_allowed first
  have reading := run_replay answerTwoFiles_allowed read
  have listingAgain : Run (Noted byFirstLetter) (listArchives []) (m₂, []) o (m', toldTwoFiles) :=
    run_replay (recording_allowed answerTwoFiles_allowed) again
  have history : Relation.ReflTransGen (MountStep byFirstLetter letters fun _ _ => True)
      listedMount m₂ := (uncanceled_steps listing).trans (uncanceled_steps reading)
  obtain ⟨begun, node, reported, reports, lists, heard, told⟩ :=
    (list_exact_iff rfl history).1 o m' toldTwoFiles listingAgain success
  obtain rfl := twoFiles_reports heard told
  have exact : IsExact [fileReport 'a', fileReport 'b'] o.entries := by
    rw [entries]
    exact twoFiles_exact
  have mirrored := ((list_exact_iff rfl history).2 begun node _ o m' lists).mp exact
  exact ⟨earlier, m₁, failed, m₂, o, m', begun, node, listing, reading, status, listingAgain,
    lists, exact, mirrored⟩

/-- The read of `x/y` fails and leaves a directory `x`, which the next listing returns. -/
theorem failed_read_listed : ∃ failed m₁ begun node o m',
    Run (Uncanceled byFirstLetter) (vfsOpReadAll ⟨[lister, archiver], letters⟩ 1 ['x', 'y'] 0)
      listedMount failed m₁ ∧
    failed.status = VFS_ERROR_FILE_NOT_FOUND ∧
    Run (Noted byFirstLetter) (listArchives []) (m₁, []) o (m', toldTwoFiles) ∧
    o.success = true ∧
    Lists byFirstLetter ⟨[lister, archiver], letters⟩ 1 matchAll [] 0 m₁ begun node
      [fileReport 'a', fileReport 'b'] o m' ∧
    ¬ IsExact [fileReport 'a', fileReport 'b'] o.entries := by
  obtain ⟨failed, m₁, o, m', read, status, listed, success, names⟩ :
      ∃ failed m₁ o m',
        replay answerTwoFiles (vfsOpReadAll ⟨[lister, archiver], letters⟩ 1 ['x', 'y'] 0)
          listedMount = some (failed, m₁) ∧
        failed.status = VFS_ERROR_FILE_NOT_FOUND ∧
        replay (recording listNotes answerTwoFiles) (listArchives []) (m₁, []) =
          some (o, m', toldTwoFiles) ∧
        o.success = true ∧ o.entries.map Entry.name = [['x'], ['a'], ['b']] :=
    ⟨_, _, _, _, rfl, rfl, rfl, rfl, rfl⟩
  have listing : Run (Noted byFirstLetter) (listArchives []) (m₁, []) o (m', toldTwoFiles) :=
    run_replay (recording_allowed answerTwoFiles_allowed) listed
  obtain ⟨begun, node, reported, reports, lists, heard, told⟩ := vfsOpList_lists listing success
  obtain rfl := twoFiles_reports heard told
  refine ⟨failed, m₁, begun, node, o, m', run_replay answerTwoFiles_allowed read, status, listing,
    success, lists, ?_⟩
  intro exact
  have phantom : ∃ e ∈ o.entries, e.name = ['x'] := by
    rw [← List.mem_map, names]
    exact List.mem_cons_self
  obtain ⟨r, inside, name⟩ := (exact.names ['x']).mp phantom
  rcases List.mem_pair.mp inside with rfl | rfl
  · exact absurd name (by decide)
  · exact absurd name (by decide)

end FlowiVfs.Tree
