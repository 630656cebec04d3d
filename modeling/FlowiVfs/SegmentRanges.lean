import FlowiVfs.TreeWalk
import Mathlib.Algebra.Group.Int.Defs
import Mathlib.Algebra.Group.Nat.Defs

/-!
# The segments a walk reads

`vfs_tree_walk_and_resolve` once more, with the indices that it computes. It keeps the
segments of the path only as an array of `count` strings, so here every access of that array
is an operation: an item, a range to reconstruct, the rest of the path from an index on. The
indices are integers, `int` where the source has one. What the macro `for_count` does, which
is not part of the repository, is a parameter: the number of rounds for a bound.

`readSegments` answers the accesses from a list of segments, and turns the walk into the one
of the mount.
-/
namespace FlowiVfs.Tree

open Program

/-- The accesses of `components`. -/
inductive SegmentOp
  /-- The body of the loop begins with this `segment_idx`. -/
  | round (idx : ℤ)
  /-- `components.segments.items[idx]` -/
  | item (idx : ℤ)
  /-- `path_reconstruct_from_segments` -/
  | reconstruct (start stop : ℤ)
  /-- `path_get_remaining_from_segments` -/
  | remaining (start : ℤ)

abbrev SegmentOp.Reply : SegmentOp → Type
  | round _ => Unit
  | item _ => FlString
  | reconstruct .. => FlString
  | remaining _ => FlString

abbrev walks : Signature := ⟨VfsOp ⊕ SegmentOp, Sum.elim VfsOp.Reply SegmentOp.Reply⟩

abbrev WalkProgram := Program walks

def onSegments (op : SegmentOp) : WalkProgram op.Reply := Program.call (E := walks) (.inr op)

/-- A part of the walk that leaves the segments alone. -/
def onVfs {A : Type} : VfsProgram A → WalkProgram A
  | .done a => .done a
  | .perform op next => Program.perform (E := walks) (.inl op) fun r => onVfs (next r)

/-- The conversion to `int`. -/
def toInt (n : ℤ) : ℤ := (n + 2 ^ 31) % 2 ^ 32 - 2 ^ 31

/-- Where a walk is. -/
structure IndexedWalk where
  currentNode : NodePtr
  current : DriverView
  segmentsSincePlugin : ℤ := 0

section
variable (self : VfsState) (slots : ℕ)

/-- The walk has loaded an archive into `child`. -/
def reenter (child : NodePtr) (worker : ℕ) : WalkProgram IndexedWalk := do
  let w ← onVfs (enterArchive child worker)
  pure { currentNode := w.currentNode, current := w.current }

/-- A round for a segment that names a child of the current node. -/
def roundChild (worker : ℕ) (idx : ℤ) (w : IndexedWalk) (child : ChildView) :
    WalkProgram IndexedWalk :=
  match child.driver.pluginEntry with
  | some _ => pure { currentNode := child.node, current := child.driver }
  | none =>
      let behind : IndexedWalk :=
        { w with
          currentNode := child.node
          segmentsSincePlugin := w.segmentsSincePlugin + 1 }
      match w.current.pluginEntry with
      | none => pure behind
      | some entry =>
          if child.isDirectory then pure behind
          else do
            let path ← onSegments (.reconstruct (idx - w.segmentsSincePlugin) (idx + 1))
            let size ← onVfs (onDrivers (driver (.getSize entry w.current.handle path)))
            let loaded ← onVfs (vfsTreeTryLoadAsArchive self slots child.node entry
              w.current.handle path size)
            if loaded then reenter child.node worker else pure behind

/-- `advance_to_virtual_directory` -/
def roundVirtual (segment : FlString) (w : IndexedWalk) : WalkProgram IndexedWalk := do
  let child ← onVfs (onMount (.ensureChildNodeExists w.currentNode segment true))
  pure
    { w with
      currentNode := child
      segmentsSincePlugin := w.segmentsSincePlugin + 1 }

/-- A round of a listing for a segment that names no child. -/
def roundUnlisted (worker : ℕ) (idx : ℤ) (segment : FlString) (entry : PluginEntry)
    (w : IndexedWalk) : WalkProgram IndexedWalk := do
  let path ← onSegments (.reconstruct (idx - w.segmentsSincePlugin) (idx + 1))
  let size ← onVfs (onDrivers (driver (.getSize entry w.current.handle path)))
  if size < 0 then roundVirtual segment w
  else
    let child ← onVfs (onMount (.ensureChildNodeExists w.currentNode segment false))
    let loaded ← onVfs (vfsTreeTryLoadAsArchive self slots child entry w.current.handle path size)
    if loaded then reenter child worker
    else
      onVfs (onMount (.markDirectory child))
      pure
        { w with
          currentNode := child
          segmentsSincePlugin := w.segmentsSincePlugin + 1 }

/-- One round of the loop. It ends the walk when the segment names no child and no driver can
be asked for it. -/
def roundAt (worker : ℕ) (forListing : Bool) (idx : ℤ) (w : IndexedWalk) :
    WalkProgram (TreeWalkResult ⊕ IndexedWalk) := do
  let segment ← onSegments (.item idx)
  let found ← onVfs (onMount (.lookChild w.currentNode segment worker))
  match found with
  | some child =>
      let w ← roundChild self slots worker idx w child
      pure (.inr w)
  | none =>
      match w.current.pluginEntry with
      | none =>
          let remaining ← onSegments (.remaining idx)
          pure (.inl { node := some w.currentNode, pathFromNode := remaining })
      | some entry =>
          let w ← if forListing then roundUnlisted self slots worker idx segment entry w
            else roundVirtual segment w
          pure (.inr w)

/-- The rounds that are left, the next one being that of `idx`. -/
def rounds (worker : ℕ) (forListing : Bool) :
    ℕ → ℤ → IndexedWalk → WalkProgram (TreeWalkResult ⊕ IndexedWalk)
  | 0, _, w => pure (.inr w)
  | left + 1, idx, w => do
      onSegments (.round idx)
      let next ← roundAt self slots worker forListing idx w
      match next with
      | .inl failure => pure (.inl failure)
      | .inr w => rounds worker forListing left (idx + 1) w

/-- `segments_to_process` -/
def segmentsToProcess (count : ℤ) (forListing : Bool) : ℤ :=
  if forListing then toInt count else toInt (toInt count - 1)

/-- The path that the driver of the walk is asked for. -/
def readPath (count : ℤ) (forListing : Bool) (w : IndexedWalk) : WalkProgram FlString :=
  if forListing then
    let stop := segmentsToProcess count forListing
    if 0 < w.segmentsSincePlugin then
      onSegments (.reconstruct (stop - w.segmentsSincePlugin) stop)
    else pure []
  else do
    let finalFile ← onSegments (.item (count - 1))
    if w.segmentsSincePlugin = 0 then pure finalFile
    else onSegments (.reconstruct (count - 1 - w.segmentsSincePlugin) count)

/-- `vfs_tree_walk_and_resolve` for a path of `count` segments. -/
def indexedWalk (forCount : ℤ → ℕ) (count : ℤ) (path : FlString) (worker : ℕ)
    (forListing : Bool) : WalkProgram TreeWalkResult :=
  if slots ≤ worker then pure {}
  else do
    let (root, current) ← onVfs (onMount (.rootDriver worker))
    if path = [] then pure { node := some root, driver := current, success := true }
    else
      let walked ← rounds self slots worker forListing
        (forCount (segmentsToProcess count forListing)) 0 { currentNode := root, current := current }
      match walked with
      | .inl failure => pure failure
      | .inr w =>
          let pathFromNode ← readPath count forListing w
          pure
            { node := some w.currentNode
              driver := w.current
              pathFromNode := pathFromNode
              success := true }

end

/-! ## Ranges within the array -/

/-- The access stays within an array of `count` segments. -/
def SegmentOp.Within (count : ℤ) : SegmentOp → Prop
  | round idx => 0 ≤ idx ∧ idx < count
  | item idx => 0 ≤ idx ∧ idx < count
  | reconstruct start stop => 0 ≤ start ∧ start ≤ stop ∧ stop ≤ count
  | remaining start => 0 ≤ start ∧ start ≤ count

def SegmentOp.IsRound : SegmentOp → Prop
  | round _ => True
  | _ => False

/-- What the walk may do to an array of `count` segments. -/
def Accesses (count : ℤ) : VfsOp ⊕ SegmentOp → Prop :=
  Sum.elim (fun _ => True) (SegmentOp.Within count)

/-- What begins a round. -/
def BeginsRound : VfsOp ⊕ SegmentOp → Prop := Sum.elim (fun _ => False) SegmentOp.IsRound

/-- Whatever the world answers, every access is within the array, and there are at most `count`
rounds. -/
def StaysWithin {A : Type} (count : ℕ) (p : WalkProgram A) : Prop :=
  Only (Accesses count) p ∧ AtMost BeginsRound p count

section
variable {self : VfsState} {slots worker : ℕ} {count idx stop : ℤ} {forListing : Bool}
  {w : IndexedWalk} {left : ℕ}

theorem segmentsToProcess_le (h : 0 ≤ count) : segmentsToProcess count forListing ≤ count := by
  unfold segmentsToProcess toInt
  split_ifs <;> omega

theorem segmentsToProcess_lt (h : 0 < count) : segmentsToProcess count false < count := by
  unfold segmentsToProcess toInt
  simp only [Bool.false_eq_true, if_false]
  omega

/-- The accesses of a round. -/
def SegmentOp.Reads (count : ℤ) (op : SegmentOp) : Prop := op.Within count ∧ ¬ op.IsRound

/-- The operations of a round. -/
def InRound (count : ℤ) : VfsOp ⊕ SegmentOp → Prop :=
  Sum.elim (fun _ => True) (SegmentOp.Reads count)

/-- The driver of the walk has to resolve no more segments than the loop has passed. -/
def IndexedWalk.Behind (idx : ℤ) (w : IndexedWalk) : Prop :=
  0 ≤ w.segmentsSincePlugin ∧ w.segmentsSincePlugin ≤ idx

theorem inRound_onVfs {A : Type} (p : VfsProgram A) : Only (InRound count) (onVfs p) := by
  induction p with
  | done a => trivial
  | perform op next ih => exact ⟨trivial, ih⟩

theorem inRound_reconstruct {start : ℤ} (h : 0 ≤ start ∧ start ≤ stop ∧ stop ≤ count) :
    Only (InRound count) (onSegments (.reconstruct start stop)) :=
  ⟨⟨h, fun no => no⟩, fun _ => trivial⟩

variable (count worker) in
theorem reenter_inRound (child : NodePtr) (h : 0 ≤ idx) :
    Only (InRound count) (reenter child worker) ∧
      Returns (IndexedWalk.Behind idx) (reenter child worker) :=
  ⟨(inRound_onVfs _).bind fun _ => trivial, Returns.bind fun _ => ⟨Int.le_refl 0, h⟩⟩

variable (count) in
theorem roundVirtual_inRound (segment : FlString) (h : w.Behind idx) :
    Only (InRound count) (roundVirtual segment w) ∧
      Returns (IndexedWalk.Behind (idx + 1)) (roundVirtual segment w) := by
  obtain ⟨hlow, hhigh⟩ := h
  refine ⟨(inRound_onVfs _).bind fun _ => trivial, Returns.bind fun child => ?_⟩
  have hlow' : 0 ≤ w.segmentsSincePlugin + 1 := by omega
  exact ⟨hlow', Int.add_le_add_right hhigh 1⟩

theorem roundChild_inRound (child : ChildView) (h : w.Behind idx) (hidx : idx < count) :
    Only (InRound count) (roundChild self slots worker idx w child) ∧
      Returns (IndexedWalk.Behind (idx + 1)) (roundChild self slots worker idx w child) := by
  obtain ⟨hlow, hhigh⟩ := h
  have hbehind : IndexedWalk.Behind (idx + 1)
      { w with currentNode := child.node, segmentsSincePlugin := w.segmentsSincePlugin + 1 } := by
    constructor
    · change 0 ≤ w.segmentsSincePlugin + 1
      omega
    · exact Int.add_le_add_right hhigh 1
  unfold roundChild
  cases child.driver.pluginEntry with
  | some entry => exact ⟨trivial, Int.le_refl 0, show (0 : ℤ) ≤ idx + 1 by omega⟩
  | none =>
      cases w.current.pluginEntry with
      | none => exact ⟨trivial, hbehind⟩
      | some entry =>
          dsimp only
          split_ifs
          · exact ⟨trivial, hbehind⟩
          · have hreenter := reenter_inRound worker count child.node
              (show 0 ≤ idx + 1 by omega)
            constructor
            · refine (inRound_reconstruct (by omega)).bind fun path => ?_
              refine (inRound_onVfs _).bind fun size => (inRound_onVfs _).bind fun loaded => ?_
              exact .ite hreenter.1 trivial
            · refine Returns.bind fun path => Returns.bind fun size => Returns.bind fun loaded => ?_
              exact .ite hreenter.2 hbehind

theorem roundUnlisted_inRound (segment : FlString) (entry : PluginEntry) (h : w.Behind idx)
    (hidx : idx < count) :
    Only (InRound count) (roundUnlisted self slots worker idx segment entry w) ∧
      Returns (IndexedWalk.Behind (idx + 1))
        (roundUnlisted self slots worker idx segment entry w) := by
  have hvirtual := roundVirtual_inRound count segment h
  obtain ⟨hlow, hhigh⟩ := h
  have hbehind : ∀ child, IndexedWalk.Behind (idx + 1)
      { w with currentNode := child, segmentsSincePlugin := w.segmentsSincePlugin + 1 } := by
    intro child
    constructor
    · change 0 ≤ w.segmentsSincePlugin + 1
      omega
    · exact Int.add_le_add_right hhigh 1
  have hreenter := fun child => reenter_inRound worker count child
    (show 0 ≤ idx + 1 by omega)
  constructor
  · refine (inRound_reconstruct (by omega)).bind fun path => (inRound_onVfs _).bind fun size => ?_
    refine .ite hvirtual.1 ((inRound_onVfs _).bind fun child => ?_)
    refine (inRound_onVfs _).bind fun loaded => .ite (hreenter child).1 ?_
    exact (inRound_onVfs _).bind fun _ => trivial
  · refine Returns.bind fun path => Returns.bind fun size => .ite hvirtual.2 ?_
    refine Returns.bind fun child => Returns.bind fun loaded => .ite (hreenter child).2 ?_
    exact Returns.bind fun _ => hbehind child

/-- What a round hands on. -/
def Continues (idx : ℤ) : TreeWalkResult ⊕ IndexedWalk → Prop :=
  Sum.elim (fun _ => True) (IndexedWalk.Behind idx)

variable (self slots worker forListing) in
theorem roundAt_inRound (h : w.Behind idx) (hidx : idx < count) :
    Only (InRound count) (roundAt self slots worker forListing idx w) ∧
      Returns (Continues (idx + 1)) (roundAt self slots worker forListing idx w) := by
  have hlow : 0 ≤ idx := Int.le_trans h.1 h.2
  have hitem : Only (InRound count) (onSegments (.item idx)) :=
    ⟨⟨⟨hlow, hidx⟩, fun no => no⟩, fun _ => trivial⟩
  have hrest : Only (InRound count) (onSegments (.remaining idx)) :=
    ⟨⟨⟨hlow, by omega⟩, fun no => no⟩, fun _ => trivial⟩
  constructor
  · refine hitem.bind fun segment => (inRound_onVfs _).bind fun found => ?_
    cases found with
    | some child => exact (roundChild_inRound child h hidx).1.bind fun _ => trivial
    | none =>
        dsimp only
        cases w.current.pluginEntry with
        | none => exact hrest.bind fun _ => trivial
        | some entry =>
            refine .ite ?_ ?_
            · exact (roundUnlisted_inRound segment entry h hidx).1.bind fun _ => trivial
            · exact (roundVirtual_inRound count segment h).1.bind fun _ => trivial
  · refine Returns.bind fun segment => Returns.bind fun found => ?_
    cases found with
    | some child => exact (roundChild_inRound child h hidx).2.andThen fun _ hw => hw
    | none =>
        dsimp only
        cases w.current.pluginEntry with
        | none => exact Returns.bind fun _ => trivial
        | some entry =>
            refine .ite ?_ ?_
            · exact (roundUnlisted_inRound segment entry h hidx).2.andThen fun _ hw => hw
            · exact (roundVirtual_inRound count segment h).2.andThen fun _ hw => hw

theorem InRound.accesses {op : VfsOp ⊕ SegmentOp} (h : InRound count op) : Accesses count op := by
  cases op with
  | inl op => trivial
  | inr op => exact h.1

theorem InRound.no_round {op : VfsOp ⊕ SegmentOp} (h : InRound count op) : ¬ BeginsRound op := by
  cases op with
  | inl op => exact fun no => no
  | inr op => exact h.2

variable (self slots worker forListing) in
/-- The loop from `idx` on: the counter never exceeds the index. -/
theorem rounds_within (h : w.Behind idx) (hleft : idx + left ≤ count) :
    Only (Accesses count) (rounds self slots worker forListing left idx w) ∧
      Returns (Continues (idx + left)) (rounds self slots worker forListing left idx w) ∧
      AtMost BeginsRound (rounds self slots worker forListing left idx w) left := by
  induction left generalizing idx w with
  | zero => exact ⟨trivial, by simpa [rounds, Returns, Continues] using h, trivial⟩
  | succ left ih =>
      have hidx : idx < count := by omega
      have hlow : 0 ≤ idx := Int.le_trans h.1 h.2
      obtain ⟨honly, hreturns⟩ := roundAt_inRound self slots worker forListing h hidx
      have hrest := fun w (hw : IndexedWalk.Behind (idx + 1) w) => ih hw (by omega)
      refine ⟨⟨⟨hlow, hidx⟩, fun _ => ?_⟩, fun _ => ?_, .inr ⟨left, rfl, fun _ => ?_⟩⟩
      · refine (honly.mono fun op hop => hop.accesses).andThen hreturns fun next hn => ?_
        cases next with
        | inl failure => trivial
        | inr w => exact (hrest w hn).1
      · refine hreturns.andThen fun next hn => ?_
        cases next with
        | inl failure => trivial
        | inr w =>
            have hstop : idx + 1 + left = idx + (left + 1 : ℕ) := by omega
            exact hstop ▸ (hrest w hn).2.1
      · have hround : AtMost BeginsRound (roundAt self slots worker forListing idx w) 0 :=
          atMost_of_only (honly.mono fun op hop => hop.no_round)
        refine hround.andThen hreturns (fun next hn => ?_) (Nat.zero_add left).symm
        cases next with
        | inl failure => trivial
        | inr w => exact (hrest w hn).2.2

/-- Behind the loop the path for the driver is a range of the array, if there is one to take
the last item of. -/
theorem readPath_within (hcount : forListing = true ∨ 0 < count)
    (h : w.Behind (segmentsToProcess count forListing).toNat)
    (hstop : segmentsToProcess count forListing ≤ count)
    (hlast : forListing = false → segmentsToProcess count forListing < count) :
    Only (InRound count) (readPath count forListing w) := by
  obtain ⟨hlow, hhigh⟩ := h
  cases forListing with
  | true =>
      have hpath : readPath count true w = if 0 < w.segmentsSincePlugin then
          onSegments (.reconstruct (segmentsToProcess count true - w.segmentsSincePlugin)
            (segmentsToProcess count true)) else pure [] := rfl
      rw [hpath]
      split_ifs with hpos
      · exact inRound_reconstruct (by omega)
      · trivial
  | false =>
      have hpos : 0 < count := hcount.resolve_left (by decide)
      have hbound := hlast rfl
      have hlastItem : Only (InRound count) (onSegments (.item (count - 1))) :=
        ⟨⟨⟨by omega, by omega⟩, fun no => no⟩, fun _ => trivial⟩
      refine hlastItem.bind fun finalFile => .ite trivial (inRound_reconstruct ?_)
      omega

theorem accesses_onVfs {A : Type} (p : VfsProgram A) : Only (Accesses count) (onVfs p) :=
  (inRound_onVfs p).mono fun _ hop => hop.accesses

end

section
variable (self : VfsState) {slots worker count : ℕ} {path : FlString} {forListing : Bool}
  {forCount : ℤ → ℕ}

theorem indexedWalk_within (hloop : ∀ n, forCount n = n.toNat)
    (hlast : forListing = true ∨ 0 < count) :
    StaysWithin count (indexedWalk self slots forCount count path worker forListing) := by
  have hstop : segmentsToProcess count forListing ≤ count := segmentsToProcess_le (by omega)
  have hstart : ∀ root current, IndexedWalk.Behind 0
      { currentNode := root, current := current } := fun _ _ => ⟨Int.le_refl 0, Int.le_refl 0⟩
  have hrounds := fun w (hw : IndexedWalk.Behind 0 w) =>
    rounds_within self slots worker forListing hw
      (show 0 + (forCount (segmentsToProcess count forListing) : ℤ) ≤ count by rw [hloop]; omega)
  have hread := fun w (hw : IndexedWalk.Behind
      (0 + forCount (segmentsToProcess count forListing)) w) => by
    rw [hloop, Int.zero_add] at hw
    refine readPath_within (hlast.imp_right fun h => by omega) hw hstop fun hf => ?_
    subst hf
    have hpos : 0 < count := hlast.resolve_left (by decide)
    exact segmentsToProcess_lt (by omega)
  constructor
  · refine .ite trivial ((accesses_onVfs _).bind fun root => .ite trivial ?_)
    refine (hrounds _ (hstart _ _)).1.andThen (hrounds _ (hstart _ _)).2.1 fun walked hw => ?_
    cases walked with
    | inl failure => trivial
    | inr w => exact ((hread w hw).mono fun _ hop => hop.accesses).bind fun _ => trivial
  · refine .ite trivial (.inl ⟨fun no => no, fun root => .ite trivial ?_⟩)
    refine (hrounds _ (hstart _ _)).2.2.andThen (n := count - (segmentsToProcess count
      forListing).toNat) (hrounds _ (hstart _ _)).2.1 (fun walked hw => ?_) ?_
    · cases walked with
      | inl failure => trivial
      | inr w =>
          refine atMost_of_only (Only.bind ?_ fun _ => trivial)
          exact (hread w hw).mono fun op hop => hop.no_round
    · rw [hloop]
      omega

/-- In every mode but the reading of a path without segments, whatever the tree, the drivers
and the other threads answer. -/
theorem walk_ranges_iff (hloop : ∀ n, forCount n = n.toNat) (hworker : worker < slots)
    (hpath : path ≠ []) :
    StaysWithin count (indexedWalk self slots forCount count path worker forListing) ↔
      forListing = true ∨ 0 < count := by
  refine ⟨fun h => ?_, indexedWalk_within self hloop⟩
  by_contra hne
  obtain ⟨hmode, hzero⟩ := not_or.mp hne
  have hcount : count = 0 := by omega
  have hread : forListing = false := by simpa using hmode
  subst hcount hread
  have honly := h.1
  have hrounds : forCount (segmentsToProcess (0 : ℕ) false) = 0 := by
    rw [hloop]
    decide
  rw [indexedWalk, if_neg (by omega)] at honly
  have hrest := honly.2 (0, {})
  change Only (E := walks) (Accesses (0 : ℕ)) (ite (path = []) _ _) at hrest
  rw [if_neg hpath, hrounds] at hrest
  exact absurd hrest.1.1 (by decide)

end

/-- The reading of a path of two segments. -/
theorem walk_ranges_two_segments : StaysWithin (letters.components ['a', 'b']).length
    (indexedWalk ⟨[], letters⟩ 1 Int.toNat (letters.components ['a', 'b']).length ['a', 'b'] 0
      false) :=
  (walk_ranges_iff ⟨[], letters⟩ (fun _ => rfl) (by decide) (by decide)).mpr (.inr (by decide))

/-- A path library that splits paths at the separators. -/
def separated : PathLibrary where
  components path := (path.splitOn '/').filter fun segment => segment ≠ []
  reconstruct components start stop :=
    (((components.take stop).drop start).intersperse ['/']).flatten

/-- The file to read is the last segment, also where there is none. -/
theorem separators_only_stray : ¬ StaysWithin (separated.components ['/']).length
    (indexedWalk ⟨[], separated⟩ 1 Int.toNat (separated.components ['/']).length ['/'] 0
      false) := by
  have hcount : (separated.components ['/']).length = 0 := by decide
  rw [hcount]
  rintro ⟨honly, -⟩
  exact absurd (honly.2 (0, {})).1.1 (by decide)

/-! ## The walk of the mount -/

section
variable (paths : PathLibrary) (components : List FlString)

/-- What an array of segments answers. Outside of it there is a stray string. -/
def SegmentOp.answer : (op : SegmentOp) → VfsProgram op.Reply
  | round _ => pure ()
  | item idx =>
      match (if 0 ≤ idx then components[idx.toNat]? else none) with
      | some segment => pure segment
      | none => perform .strayString
  | reconstruct start stop => pure (paths.reconstruct components start.toNat stop.toNat)
  | remaining start => pure (paths.reconstruct components start.toNat components.length)

def readSegments {A : Type} : WalkProgram A → VfsProgram A
  | .done a => .done a
  | .perform (.inl op) next => .perform op fun r => readSegments (next r)
  | .perform (.inr op) next => op.answer paths components >>= fun r => readSegments (next r)

variable {paths components}

@[simp] theorem readSegments_done {A : Type} (a : A) :
    readSegments paths components (.done a) = .done a := rfl

@[simp] theorem readSegments_bind {A B : Type} (p : WalkProgram A) (f : A → WalkProgram B) :
    readSegments paths components (p >>= f) =
      readSegments paths components p >>= fun a => readSegments paths components (f a) := by
  induction p with
  | done a => rfl
  | perform op next ih =>
      rw [Program.perform_bind]
      cases op with
      | inl op =>
          simp only [readSegments, Program.perform_bind]
          congr 1
          funext r
          exact ih r
      | inr op =>
          simp only [readSegments, Program.bind_assoc]
          congr 1
          funext r
          exact ih r

@[simp] theorem readSegments_onVfs {A : Type} (p : VfsProgram A) :
    readSegments paths components (onVfs p) = p := by
  induction p with
  | done a => rfl
  | perform op next ih =>
      simp only [onVfs, readSegments]
      congr 1
      funext r
      exact ih r

theorem readSegments_reconstruct (start stop : ℤ) :
    readSegments paths components (onSegments (.reconstruct start stop)) =
      .done (paths.reconstruct components start.toNat stop.toNat) := rfl

theorem readSegments_item {idx : ℕ} {segment : FlString} (h : components[idx]? = some segment) :
    readSegments paths components (onSegments (.item idx)) = .done segment := by
  have hanswer : SegmentOp.answer paths components (.item idx) = .done segment := by
    simp [SegmentOp.answer, h]
  change SegmentOp.answer paths components (.item idx) >>= _ = _
  rw [hanswer]
  rfl

/-- The state of the walk with its counter as an integer. -/
def WalkState.indexed (w : WalkState) : IndexedWalk where
  currentNode := w.currentNode
  current := w.current
  segmentsSincePlugin := w.segmentsSincePlugin

end

section
variable {self : VfsState} {slots : ℕ} {components : List FlString}

theorem reenter_reads (child : NodePtr) (worker : ℕ) :
    readSegments self.paths components (reenter child worker) =
      enterArchive child worker >>= fun w => pure w.indexed := by
  simp only [reenter, readSegments_bind, readSegments_onVfs]
  rfl

theorem pathToCheck_reads {A : Type} (w : WalkState) (idx : ℕ) (f : FlString → WalkProgram A) :
    readSegments self.paths components
        (onSegments (.reconstruct (idx - w.indexed.segmentsSincePlugin) (idx + 1)) >>= f) =
      readSegments self.paths components (f (pathToCheck self components w idx (idx + 1))) := by
  have hstart : ((idx : ℤ) - w.indexed.segmentsSincePlugin).toNat =
    idx - w.segmentsSincePlugin := Int.toNat_sub ..
  have hstop : ((idx : ℤ) + 1).toNat = idx + 1 := by omega
  rw [readSegments_bind, readSegments_reconstruct, hstart, hstop]
  rfl

theorem roundChild_reads (worker idx : ℕ) (w : WalkState) (child : ChildView) :
    readSegments self.paths components (roundChild self slots worker idx w.indexed child) =
      walkChild self slots components worker idx w child >>= fun w => pure w.indexed := by
  unfold roundChild walkChild
  cases child.driver.pluginEntry with
  | some entry => rfl
  | none =>
      have hcurrent : w.indexed.current = w.current := rfl
      rw [hcurrent]
      cases w.current.pluginEntry with
      | none => simp [WalkState.indexed]
      | some entry =>
          dsimp only
          split_ifs with hdir
          · simp [WalkState.indexed]
          · rw [pathToCheck_reads]
            simp only [readSegments_bind, readSegments_onVfs, bind_assoc]
            congr 1
            funext size
            congr 1
            funext loaded
            cases loaded with
            | true => simp [reenter_reads]
            | false => simp [WalkState.indexed]

theorem roundVirtual_reads (segment : FlString) (w : WalkState) :
    readSegments self.paths components (roundVirtual segment w.indexed) =
      advanceToVirtualDirectory segment w >>= fun w => pure w.indexed := by
  simp only [roundVirtual, advanceToVirtualDirectory, readSegments_bind, readSegments_onVfs,
    bind_assoc]
  simp [WalkState.indexed]

theorem roundUnlisted_reads (worker idx : ℕ) (segment : FlString) (entry : PluginEntry)
    (w : WalkState) :
    readSegments self.paths components
        (roundUnlisted self slots worker idx segment entry w.indexed) =
      walkUnlisted self slots components worker idx segment entry w >>= fun w =>
        pure w.indexed := by
  unfold roundUnlisted walkUnlisted
  rw [pathToCheck_reads]
  simp only [readSegments_bind, readSegments_onVfs, bind_assoc]
  congr 1
  funext size
  split_ifs with hsize
  · exact roundVirtual_reads segment w
  · simp only [readSegments_bind, readSegments_onVfs, bind_assoc]
    congr 1
    funext child
    congr 1
    funext loaded
    cases loaded with
    | true => simp [reenter_reads]
    | false => simp [WalkState.indexed, bind_assoc]

/-- What a round of the mount's walk comes to, the failure with the rest of the path. -/
def handOn (paths : PathLibrary) (components : List FlString) (idx : ℕ) (w : WalkState) :
    Option WalkState → TreeWalkResult ⊕ IndexedWalk
  | some w => .inr w.indexed
  | none => .inl
      { node := some w.currentNode
        pathFromNode := paths.reconstruct components idx components.length }

variable (self slots) in
theorem roundAt_reads {idx : ℕ} {segment : FlString} (h : components[idx]? = some segment)
    (worker : ℕ) (forListing : Bool) (w : WalkState) :
    readSegments self.paths components
        (roundAt self slots worker forListing idx w.indexed) =
      walkSegment self slots components worker forListing idx segment w >>= fun next =>
        pure (handOn self.paths components idx w next) := by
  unfold roundAt walkSegment
  have hitem : ∀ f : FlString → WalkProgram (TreeWalkResult ⊕ IndexedWalk),
      readSegments self.paths components (onSegments (.item idx) >>= f) =
        readSegments self.paths components (f segment) := by
    intro f
    rw [readSegments_bind, readSegments_item h]
    rfl
  rw [hitem]
  simp only [readSegments_bind, readSegments_onVfs, bind_assoc]
  congr 1
  funext found
  cases found with
  | some child =>
      simp only [readSegments_bind, roundChild_reads, bind_assoc]
      rfl
  | none =>
      have hcurrent : w.indexed.current = w.current := rfl
      rw [hcurrent]
      cases w.current.pluginEntry with
      | none => rfl
      | some entry =>
          dsimp only
          split_ifs
          · simp only [readSegments_bind, roundUnlisted_reads, bind_assoc]
            rfl
          · simp only [readSegments_bind, roundVirtual_reads, bind_assoc]
            rfl

variable (self slots) in
theorem rounds_reads (worker : ℕ) (forListing : Bool) (left idx : ℕ) (w : WalkState)
    (h : idx + left ≤ components.length) :
    readSegments self.paths components
        (rounds self slots worker forListing left idx w.indexed) =
      walkFrom self slots components worker forListing idx ((components.drop idx).take left) w >>=
        fun walked => pure (walked.map id WalkState.indexed) := by
  induction left generalizing idx w with
  | zero => rfl
  | succ left ih =>
      have hidx : idx < components.length := by omega
      have hcons : (components.drop idx).take (left + 1) =
          components[idx] :: (components.drop (idx + 1)).take left := by
        rw [List.drop_eq_getElem_cons hidx, List.take_succ_cons]
      have hround := roundAt_reads self slots
        (List.getElem?_eq_getElem hidx) worker forListing w
      have hnext : ((idx : ℤ) + 1) = ((idx + 1 : ℕ) : ℤ) := by omega
      rw [hcons, walkFrom]
      change readSegments self.paths components (roundAt self slots worker forListing idx
        w.indexed >>= _) = _
      rw [readSegments_bind, hround, bind_assoc, bind_assoc]
      congr 1
      funext next
      cases next with
      | none => rfl
      | some w =>
          change readSegments self.paths components (rounds self slots worker forListing left
            ((idx : ℤ) + 1) w.indexed) = _
          rw [hnext]
          exact ih (idx + 1) w (by omega)

theorem readPath_reads (forListing : Bool) (w : WalkState)
    (h : components.length < 2 ^ 31)
    (hempty : components = [] → w.segmentsSincePlugin = 0) :
    readSegments self.paths components (readPath components.length forListing w.indexed) =
      walkPath self components forListing w := by
  have hcount : w.indexed.segmentsSincePlugin = (w.segmentsSincePlugin : ℤ) := rfl
  unfold readPath walkPath
  cases forListing with
  | true =>
      have hstop : segmentsToProcess components.length true = components.length := by
        unfold segmentsToProcess toInt
        simp only [if_true]
        omega
      simp only [if_true, hcount, Int.natCast_pos]
      split_ifs
      · rw [readSegments_reconstruct, hstop, hcount, Int.toNat_sub, Int.toNat_natCast]
        rfl
      · rfl
  | false =>
      simp only [Bool.false_eq_true, if_false, hcount, Int.natCast_eq_zero]
      by_cases hnil : components = []
      · subst hnil
        rw [hempty rfl]
        rfl
      · have hlast : components[components.length - 1]? = components.getLast? :=
          List.getLast?_eq_getElem?.symm
        have hsome := List.getLast?_eq_some_getLast hnil
        have hpos : 0 < components.length := List.length_pos_iff.mpr hnil
        have hidx : ((components.length : ℤ) - 1) = ((components.length - 1 : ℕ) : ℤ) := by omega
        have hitem : ∀ f : FlString → WalkProgram FlString,
            readSegments self.paths components
                (onSegments (.item ((components.length : ℤ) - 1)) >>= f) =
              readSegments self.paths components (f (components.getLast hnil)) := by
          intro f
          rw [hidx, readSegments_bind, readSegments_item (hlast.trans hsome)]
          rfl
        rw [hitem, hsome]
        split_ifs
        · rfl
        · rw [readSegments_reconstruct, hidx, hcount, Int.toNat_sub, Int.toNat_natCast]
          rfl

/-- Read from the segments of its path, the walk is the one of the mount. -/
theorem indexedWalk_reads (path : FlString) (worker : ℕ) (forListing : Bool)
    (h : (self.paths.components path).length < 2 ^ 31) :
    readSegments self.paths (self.paths.components path)
        (indexedWalk self slots Int.toNat (self.paths.components path).length path worker
          forListing) =
      vfsTreeWalkAndResolve self slots path worker forListing := by
  unfold indexedWalk vfsTreeWalkAndResolve
  by_cases hworker : slots ≤ worker
  · rw [if_pos hworker, if_pos hworker]
    rfl
  · rw [if_neg hworker, if_neg hworker]
    simp only [readSegments_bind, readSegments_onVfs]
    congr 1
    funext root
    obtain ⟨root, current⟩ := root
    by_cases hpath : path = []
    · rw [if_pos hpath, if_pos hpath]
      rfl
    · rw [if_neg hpath, if_neg hpath]
      generalize self.paths.components path = components at h ⊢
      have hstop : (segmentsToProcess components.length forListing).toNat =
          if forListing then components.length else components.length - 1 := by
        unfold segmentsToProcess toInt
        split_ifs <;> omega
      have hsegments : (if forListing then components else components.dropLast) =
          (components.drop 0).take (segmentsToProcess components.length forListing).toNat := by
        rw [hstop]
        split_ifs
        · simp
        · simp [List.dropLast_eq_take]
      have hbound : 0 + (segmentsToProcess components.length forListing).toNat ≤
          components.length := by
        rw [hstop]
        split_ifs <;> omega
      have hrounds := rounds_reads self slots worker forListing
        (segmentsToProcess components.length forListing).toNat 0
        { currentNode := root, current := current } hbound
      rw [hsegments, readSegments_bind]
      change readSegments self.paths components (rounds self slots worker forListing _ (0 : ℕ)
        (WalkState.indexed { currentNode := root, current := current })) >>= _ = _
      rw [hrounds, bind_assoc]
      have hpath : ∀ w : WalkState, (components = [] → w.segmentsSincePlugin = 0) →
          readSegments self.paths components (readPath components.length forListing w.indexed >>=
            fun found => (pure ⟨some w.currentNode, w.current, found, true⟩ :
              WalkProgram TreeWalkResult)) =
          walkPath self components forListing w >>=
            fun found => pure ⟨some w.currentNode, w.current, found, true⟩ := by
        intro w hw
        rw [readSegments_bind, readPath_reads forListing w h hw]
        rfl
      by_cases hnil : components = []
      · subst hnil
        rw [List.drop_nil, List.take_nil]
        exact hpath { currentNode := root, current := current } fun _ => rfl
      · congr 1
        funext walked
        cases walked with
        | inl failure => rfl
        | inr w => exact hpath w fun hn => absurd hn hnil

end

end FlowiVfs.Tree
