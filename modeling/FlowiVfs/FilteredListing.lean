import FlowiVfs.ChildOrder
import FlowiVfs.InsertionSort

/-!
# The second pass of a listing

`vfs_op_list` copies the children of its directory into one array, scores those that match
the needle into another one, sorts that in place, and fills the result from the array that
it needs. `sortScored` is the sort with its index as the code has it, a signed 32-bit value
that is made from the unsigned counter of the rounds. Below 2^31 entries it stays within
the array and is the stable sort by descending score.
-/
namespace FlowiVfs.Tree

open Program InsertionSort

section
variable {Score : Type} [LinearOrder Score]

/-- The array of the children that match, with their scores. -/
def scoreNodes (matcher : Matcher Score) (needleCstr : FlString) : List Entry → List (Entry × Score)
  | [] => []
  | info :: rest =>
      if matcher.hasMatch needleCstr info.name then
        (info, matcher.score needleCstr info.name) :: scoreNodes matcher needleCstr rest
      else scoreNodes matcher needleCstr rest

/-- `int j = i - 1` -/
def indexBelow (i : ℕ) : ℤ := (BitVec.ofNat 32 i - 1).toInt

/-- The rounds of the insertion sort from `i` on. The inner loop starts with its gap behind
`j`; any `j` below -1 is outside of the array. -/
def sortScored : ℕ → ℕ → List (Entry × Score) → Option (List (Entry × Score))
  | 0, _, scored => some scored
  | left + 1, i, scored => do
      let key ← scored[i]?
      let scored ← if indexBelow i < -1 then none
        else sinkKey (byScore Prod.snd) key (indexBelow i + 1).toNat scored
      sortScored left (i + 1) scored

/-- The entries of the result, from the snapshot of all children. -/
def resultEntries (matcher : Matcher Score) (needle : FlString) (allNodes : List Entry) :
    Option (List Entry) :=
  if needle ≠ [] ∧ 0 < allNodes.length then do
    let scoredNodes := scoreNodes matcher (needle.map Char.toLower) allNodes
    let sorted ← sortScored (scoredNodes.length - 1) 1 scoredNodes
    some (sorted.map Prod.fst)
  else some allNodes

/-- What a listing with a filter should return of its children. -/
def IsFiltered (matcher : Matcher Score) (needle : FlString) (children listed : List Entry) : Prop :=
  if needle = [] then listed = children
  else StableSort (fun e => matcher.score (needle.map Char.toLower) e.name)
    (children.filter fun e => matcher.hasMatch (needle.map Char.toLower) e.name) listed

end

/-! ## The sort -/

section
variable {Score : Type} [LinearOrder Score] {matcher : Matcher Score} {needle : FlString}

theorem indexBelow_eq {i : ℕ} (positive : 0 < i) (small : i ≤ 2 ^ 31) : indexBelow i = (i : ℤ) - 1 := by
  unfold indexBelow
  have one : (1 : BitVec 32).toNat = 1 := rfl
  rw [BitVec.toInt_eq_toNat_cond, BitVec.toNat_sub, BitVec.toNat_ofNat, one]
  split_ifs <;> omega

/-- Below 2^31 elements the signed index is the place in front of the key. -/
theorem sortScored_eq {left i : ℕ} {scored : List (Entry × Score)} (positive : 0 < i)
    (small : i + left ≤ 2 ^ 31) : sortScored left i scored = sortFrom (byScore Prod.snd) left i scored := by
  induction left generalizing i scored with
  | zero => rfl
  | succ left ih =>
      have index := indexBelow_eq positive (by omega)
      have inside : ¬ indexBelow i < -1 := by omega
      have gap : (indexBelow i + 1).toNat = i := by omega
      simp only [sortScored, sortFrom, sortRound, if_neg inside, gap]
      cases scored[i]? with
      | none => rfl
      | some key =>
          simp only [Option.bind_eq_bind, Option.bind_some]
          congr 1
          funext sorted
          exact ih (by omega) (by omega)

omit [LinearOrder Score] in
theorem scoreNodes_eq (needleCstr : FlString) (allNodes : List Entry) :
    scoreNodes matcher needleCstr allNodes =
      (allNodes.filter fun e => matcher.hasMatch needleCstr e.name).map
        fun e => (e, matcher.score needleCstr e.name) := by
  induction allNodes with
  | nil => rfl
  | cons info rest ih =>
      by_cases found : matcher.hasMatch needleCstr info.name = true
      · simp [scoreNodes, found, ih]
      · simp [scoreNodes, found, ih]

omit [LinearOrder Score] in
theorem scoreNodes_length (needleCstr : FlString) (allNodes : List Entry) :
    (scoreNodes matcher needleCstr allNodes).length ≤ allNodes.length := by
  rw [scoreNodes_eq, List.length_map]
  exact List.length_filter_le ..

/-- The arrays hold what the listing returns. -/
theorem resultEntries_eq {allNodes : List Entry} (small : allNodes.length < 2 ^ 31) :
    resultEntries matcher needle allNodes = some (filterEntries matcher needle allNodes) := by
  unfold resultEntries filterEntries
  by_cases unfiltered : needle = []
  · simp [unfiltered]
  rw [if_neg unfiltered]
  cases allNodes with
  | nil => simp
  | cons info rest =>
      have fewer : (scoreNodes matcher (needle.map Char.toLower) (info :: rest)).length ≤
          (info :: rest).length := scoreNodes_length ..
      have sorted := sortInPlace_eq (byScore Prod.snd)
        (scoreNodes matcher (needle.map Char.toLower) (info :: rest))
      rw [if_pos ⟨unfiltered, by simp⟩]
      dsimp only
      rw [sortScored_eq (by decide) (by omega), ← sortInPlace, sorted, scoreNodes_eq]
      rfl

theorem filterEntries_filtered (children : List Entry) :
    IsFiltered matcher needle children (filterEntries matcher needle children) := by
  unfold IsFiltered filterEntries
  by_cases unfiltered : needle = []
  · rw [if_pos unfiltered, if_pos unfiltered]
  rw [if_neg unfiltered, if_neg unfiltered]
  have sorted := foldl_insertKey_map (byScore Prod.snd)
    (fun e : Entry => (e, matcher.score (needle.map Char.toLower) e.name))
    (children.filter fun e => matcher.hasMatch (needle.map Char.toLower) e.name) []
  dsimp only
  rw [List.map_nil] at sorted
  rw [show insertScored = insertKey (byScore (Prod.snd : Entry × Score → Score)) from rfl, sorted,
    List.map_map]
  have plain : ∀ l : List Entry, l.map (Prod.fst ∘ fun e : Entry =>
      (e, matcher.score (needle.map Char.toLower) e.name)) = l := fun l => List.map_id l
  rw [plain]
  exact foldl_insertKey_stable _

end

/-! ## Runs of a listing -/

/-- The nodes of a list of siblings, in its order. -/
def MountTree.IsSiblings (t : MountTree) : Option NodePtr → List VfsTreeNode → Prop
  | first, [] => first = none
  | first, n :: rest => ∃ p, first = some p ∧ t.nodes p = some n ∧ t.IsSiblings n.nextSibling rest

theorem MountTree.childInfos_siblings {t : MountTree} {left : ℕ} {first : Option NodePtr}
    {infos : List Entry} (copied : t.childInfos left first = some infos) :
    ∃ kids, t.IsSiblings first kids ∧ infos = kids.map VfsTreeNode.info := by
  induction left generalizing first infos with
  | zero =>
      cases first with
      | none =>
          cases copied
          exact ⟨[], rfl, rfl⟩
      | some p => cases copied
  | succ left ih =>
      cases first with
      | none =>
          cases copied
          exact ⟨[], rfl, rfl⟩
      | some p =>
          obtain ⟨n, hn, copied⟩ := Option.bind_eq_some_iff.mp copied
          obtain ⟨rest, tail, done⟩ := Option.bind_eq_some_iff.mp copied
          cases done
          obtain ⟨kids, chain, rfl⟩ := ih tail
          exact ⟨n :: kids, ⟨p, rfl, hn, chain⟩, rfl⟩

/-- The node whose children a section copies, and the tree that it copies them from. -/
def copyOf (m : FlVfsMount) : VfsOp → List (NodePtr × MountTree)
  | .mount (.snapshot node) => [(node, m.tree)]
  | _ => []

/-- Each section runs on the mount as it finds it, whatever has happened to the mount since
the last one. The run remembers what it copied, and of which tree. -/
def Copied (natural : NaturalCompare) : Environment vfs (FlVfsMount × List (NodePtr × MountTree)) :=
  fun s op r s' => ∃ m, Sections natural (fun _ _ => True) m op r s'.1 ∧ s'.2 = s.2 ++ copyOf m op

section
variable {Score : Type} [LinearOrder Score] {matcher : Matcher Score} {needle path : FlString}
variable {natural : NaturalCompare} {self : VfsState} {slots worker : ℕ} {m m' : FlVfsMount}
variable {o : ListOutcome} {copies : List (NodePtr × MountTree)}

theorem copyOf_enumerate {op : VfsOp} (h : EnumerateOp op) (m : FlVfsMount) : copyOf m op = [] := by
  unfold copyOf
  split
  · exact absurd h id
  · rfl

/-- Calls that copy nothing. -/
theorem copied_still {φ : VfsOp → Prop} {s t : FlVfsMount × List (NodePtr × MountTree)}
    (calls : Calls (Copied natural) φ s t) (none : ∀ m op, φ op → copyOf m op = []) : t.2 = s.2 := by
  refine calls.keeps (I := fun u => u.2 = s.2) (fun u op r v allowed same answer => ?_) rfl
  obtain ⟨m, -, log⟩ := answer
  rw [log, none m op allowed, List.append_nil]
  exact same

/-- A listing that succeeds has copied the children of one node, of which its walk says that it
is there, in one tree that it met; it returns these children: all of them in tree order, or
those that match the needle, sorted by their scores with ties in tree order. -/
theorem list_filtered
    (run : Run (Copied natural) (vfsOpList self slots matcher path needle worker) (m, []) o
      (m', copies))
    (success : o.success = true) :
    ∃ m₁ walk m₂ node t n kids, copies = [(node, t)] ∧
      Run (Copied natural) (vfsTreeWalkAndResolve self slots path worker true) (m₁, []) walk
        (m₂, []) ∧
      walk.node = some node ∧ t.nodes node = some n ∧ t.IsSiblings n.firstChild kids ∧
      (kids.length < 2 ^ 31 →
        resultEntries matcher needle (kids.map VfsTreeNode.info) = some o.entries ∧
          IsFiltered matcher needle (kids.map VfsTreeNode.info) o.entries) := by
  obtain ⟨⟨m₁, c₁⟩, walk, ⟨m₂, c₂⟩, node, u, v, entries, rooted, walked, reached, lists, answer,
    loads, filtered⟩ := vfsOpList_copies run success
  have walks := (walk_only self slots path worker true).mono fun _ => WalkOp.enumerate
  have log₁ : c₁ = [] := copied_still rooted fun m op h => copyOf_enumerate h m
  have log₂ : c₂ = c₁ := copied_still (walks.calls walked) fun m op h => copyOf_enumerate h m
  have logged : u.2 = c₂ := copied_still lists fun m op h => copyOf_enumerate h m
  subst log₂ log₁
  obtain ⟨x, ⟨⟨fresh, -, copied⟩, -⟩, log⟩ := answer
  have last : copies = v.2 := copied_still loads fun m op h => by
    subst h
    rfl
  obtain ⟨n, hn, copied⟩ := Option.bind_eq_some_iff.mp copied
  obtain ⟨infos, loop, same⟩ := Option.bind_eq_some_iff.mp copied
  cases same
  obtain ⟨kids, chain, rfl⟩ := MountTree.childInfos_siblings loop
  refine ⟨m₁, walk, m₂, node, v.1.tree, n, kids, ?_, walked, reached, hn, chain, fun small => ?_⟩
  · rw [last, log, logged]
    rfl
  · rw [filtered]
    exact ⟨resultEntries_eq (by simpa using small), filterEntries_filtered _⟩

end

/-- Names of one letter match a needle of one letter, and score by that letter. -/
def byLetter : Matcher ℕ :=
  ⟨fun needle name => needle.length = name.length, fun _ name => (name.headD 'a').toNat⟩

/-- The answers of `answerArchive`, and what was copied. -/
def answerCopied (op : VfsOp) (s : FlVfsMount × List (NodePtr × MountTree)) :
    Option (op.Reply × FlVfsMount × List (NodePtr × MountTree)) :=
  (answerArchive op s.1).map fun r => (r.1, r.2, s.2 ++ copyOf s.1 op)

theorem answerCopied_allowed (s : FlVfsMount × List (NodePtr × MountTree)) (op : VfsOp)
    (r : op.Reply) (t : FlVfsMount × List (NodePtr × MountTree))
    (h : answerCopied op s = some (r, t)) : Copied byFirstLetter s op r t := by
  obtain ⟨⟨r', m'⟩, answered, same⟩ := Option.map_eq_some_iff.mp h
  cases same
  exact ⟨s.1, answerArchive_sections answered, rfl⟩

/-- The listing of a root with the files `a` and `b`, filtered by `A`. -/
theorem list_filtered_letters : ∃ o m' t n kids,
    o.entries.map Entry.name = [['b'], ['a']] ∧
      Run (Copied byFirstLetter)
        (vfsOpList ⟨[lister, archiver], letters⟩ 1 byLetter [] ['A'] 0) (listedMount, []) o
        (m', [(0, t)]) ∧
      t.nodes 0 = some n ∧ t.IsSiblings n.firstChild kids ∧
      (kids.length < 2 ^ 31 →
        resultEntries byLetter ['A'] (kids.map VfsTreeNode.info) = some o.entries ∧
          IsFiltered byLetter ['A'] (kids.map VfsTreeNode.info) o.entries) := by
  obtain ⟨o, m', t, done, success, names⟩ : ∃ o m' t,
      replay answerCopied (vfsOpList ⟨[lister, archiver], letters⟩ 1 byLetter [] ['A'] 0)
        (listedMount, []) = some (o, m', [(0, t)]) ∧ o.success = true ∧
        o.entries.map Entry.name = [['b'], ['a']] :=
    ⟨_, _, _, rfl, rfl, rfl⟩
  have run := run_replay answerCopied_allowed done
  obtain ⟨m₁, walk, m₂, node, t', n, kids, copied, -, -, hn, chain, all⟩ :=
    list_filtered run success
  cases copied
  exact ⟨o, m', t, n, kids, names, run, hn, chain, all⟩

end FlowiVfs.Tree
