import Mathlib.Data.List.Perm.Basic
import Mathlib.Data.Multiset.AddSub
import Mathlib.Data.Multiset.UnionInter
import Mathlib.Data.Set.Basic
import Mathlib.Logic.Function.Basic

/-!
# Things that are owned, kept in places, and closed once

Things are made, belong to an owner, may be put into a place, and are closed in the end,
by their owner or by whoever empties the place. `Custody` says that no two of these hold of
a thing at a time and that one of them always does. Every transfer keeps it, so in the end
everything that was made was closed, and nothing was closed twice.

The set `P` has everything that was in a place at some time: that is what others may have
seen there and may still use.
-/
namespace FlowiVfs

variable {N H I : Type}

/-- The places `emptied` have lost what was in them, and `target` has got other things. -/
structure Moves (place place' : N → List H) (emptied : List N) (placed : List H) (target : N) :
    Prop where
  distinct : emptied.Nodup
  others : ∀ n, n ∉ emptied → place' n = place n
  filled : ∀ n ∈ emptied, ∀ h ∈ place' n, h ∈ placed ∧ n = target
  inside : ∀ h ∈ placed, h ∈ place' target

theorem Moves.none {place : N → List H} {target : N} : Moves place place [] [] target :=
  ⟨List.nodup_nil, fun _ _ => rfl, List.forall_mem_nil _, List.forall_mem_nil _⟩

structure Custody (place : N → List H) (issued closed : List H) (own : I → Multiset H)
    (P : Set H) : Prop where
  nodup : ∀ i, (own i).Nodup
  apart : ∀ i j h, h ∈ own i → h ∈ own j → i = j
  owned : ∀ i h, h ∈ own i → h ∉ P ∧ h ∉ closed ∧ h ∈ issued
  separate : ∀ n, (place n).Nodup
  unique : ∀ n k h, h ∈ place n → h ∈ place k → n = k
  kept : ∀ n h, h ∈ place n → h ∈ P ∧ h ∉ closed
  known : ∀ h ∈ P, h ∈ issued
  genuine : ∀ h ∈ closed, h ∈ issued
  once : issued.Nodup ∧ closed.Nodup
  accounted : ∀ h ∈ issued, h ∈ closed ∨ (∃ n, h ∈ place n) ∨ ∃ i, h ∈ own i

namespace Custody

variable {place place' : N → List H} {issued closed made placed shut : List H}
variable {own : I → Multiset H} {P : Set H} {emptied : List N} {target : N} {i : I}
variable {rest : Multiset H}

/-- What was in a place is still there, or its place was emptied. -/
theorem stays (moves : Moves place place' emptied placed target) {n : N} {h : H}
    (here : h ∈ place n) : h ∈ emptied.flatMap place ∨ h ∈ place' n := by
  by_cases e : n ∈ emptied
  · exact .inl (List.mem_flatMap.mpr ⟨n, e, here⟩)
  · rw [moves.others n e]
    exact .inr here

/-- What is in a place was put there, or was there before and was not taken out. -/
theorem came (c : Custody place issued closed own P)
    (moves : Moves place place' emptied placed target) {n : N} {h : H} (here : h ∈ place' n) :
    (h ∈ placed ∧ n = target) ∨ (h ∈ place n ∧ h ∉ emptied.flatMap place) := by
  by_cases e : n ∈ emptied
  · exact .inl (moves.filled n e h here)
  · rw [moves.others n e] at here
    refine .inr ⟨here, fun out => e ?_⟩
    obtain ⟨k, hk, there⟩ := List.mem_flatMap.mp out
    rwa [c.unique n k h here there]

theorem emptied_nodup (c : Custody place issued closed own P) (distinct : emptied.Nodup) :
    (emptied.flatMap place).Nodup := by
  rw [List.nodup_flatMap]
  refine ⟨fun n _ => c.separate n, distinct.imp ?_⟩
  intro n k other
  refine List.disjoint_left.mpr ?_
  intro h hn hk
  exact other (c.unique n k h hn hk)

/-- When nobody owns anything, what was made was closed or is in one of the places. -/
theorem settled (c : Custody place issued closed own P) (none : ∀ i, own i = 0)
    (nodes : List N) (distinct : nodes.Nodup) (all : ∀ n h, h ∈ place n → n ∈ nodes) :
    issued.Perm (closed ++ nodes.flatMap place) := by
  have apart : (closed ++ nodes.flatMap place).Nodup := by
    refine List.nodup_append'.mpr ⟨c.once.2, c.emptied_nodup distinct, fun h isClosed here => ?_⟩
    obtain ⟨n, -, hn⟩ := List.mem_flatMap.mp here
    exact (c.kept n h hn).2 isClosed
  rw [List.perm_ext_iff_of_nodup c.once.1 apart]
  intro h
  rw [List.mem_append, List.mem_flatMap]
  constructor
  · intro known
    rcases c.accounted h known with isClosed | ⟨n, hn⟩ | ⟨i, hi⟩
    · exact .inl isClosed
    · exact .inr ⟨n, all n h hn, hn⟩
    · rw [none i] at hi
      exact absurd hi (Multiset.notMem_zero h)
  · rintro (isClosed | ⟨n, -, hn⟩)
    · exact c.genuine h isClosed
    · exact c.known h (c.kept n h hn).1

theorem out_kept (c : Custody place issued closed own P) {h : H}
    (out : h ∈ emptied.flatMap place) : h ∈ P ∧ h ∉ closed := by
  obtain ⟨n, -, hn⟩ := List.mem_flatMap.mp out
  exact c.kept n h hn

/-- What its owner puts into a place or closes was in no place and is not closed. -/
theorem given (c : Custody place issued closed own P)
    (split : own i = ((placed ++ shut : List H) : Multiset H) + rest) {h : H}
    (away : h ∈ placed ∨ h ∈ shut) : h ∉ P ∧ h ∉ closed ∧ h ∈ issued := by
  refine c.owned i h ?_
  rw [split, Multiset.mem_add, Multiset.mem_coe, List.mem_append]
  exact .inl away

theorem mem_shut {out : List H} {h : H} :
    h ∈ closed ++ (out ++ shut) ↔ h ∈ closed ∨ h ∈ out ∨ h ∈ shut := by
  rw [List.mem_append, List.mem_append]

section Transfer

variable [DecidableEq I]

/-- What an owner has after a transfer is new, or was its own and neither placed nor closed. -/
theorem own_after (c : Custody place issued closed own P)
    (split : own i = ((placed ++ shut : List H) : Multiset H) + rest) {k : I} {h : H}
    (hk : h ∈ Function.update own i ((made : Multiset H) + rest) k) :
    (k = i ∧ h ∈ made) ∨ (h ∈ own k ∧ h ∉ placed ∧ h ∉ shut) := by
  have mine : h ∈ own i ↔ (h ∈ placed ∨ h ∈ shut) ∨ h ∈ rest := by
    rw [split, Multiset.mem_add, Multiset.mem_coe, List.mem_append]
  by_cases e : k = i
  · subst e
    rw [Function.update_self] at hk
    rcases Multiset.mem_add.mp hk with isNew | old
    · exact .inl ⟨rfl, isNew⟩
    · have parts := Multiset.nodup_add.mp (split ▸ c.nodup k)
      have notGiven : h ∉ placed ++ shut := fun given =>
        Multiset.disjoint_left.mp parts.2.2 given old
      rw [List.mem_append, not_or] at notGiven
      exact .inr ⟨mine.mpr (.inr old), notGiven⟩
  · rw [Function.update_of_ne e] at hk
    refine .inr ⟨hk, fun given => e ?_, fun given => e ?_⟩
    · exact c.apart k i h hk (mine.mpr (.inl (.inl given)))
    · exact c.apart k i h hk (mine.mpr (.inl (.inr given)))

theorem own_nodup (c : Custody place issued closed own P)
    (split : own i = ((placed ++ shut : List H) : Multiset H) + rest)
    (new : ∀ h ∈ made, h ∉ issued) (distinct : made.Nodup) (k : I) :
    (Function.update own i ((made : Multiset H) + rest) k).Nodup := by
  by_cases e : k = i
  · subst e
    have parts := Multiset.nodup_add.mp (split ▸ c.nodup k)
    rw [Function.update_self]
    refine Multiset.nodup_add.mpr
      ⟨Multiset.coe_nodup.mpr distinct, parts.2.1, Multiset.disjoint_left.mpr ?_⟩
    intro h isNew old
    refine new h isNew (c.owned k h ?_).2.2
    rw [split]
    exact Multiset.mem_add.mpr (.inr old)
  · rw [Function.update_of_ne e]
    exact c.nodup k

theorem own_apart (c : Custody place issued closed own P)
    (split : own i = ((placed ++ shut : List H) : Multiset H) + rest)
    (new : ∀ h ∈ made, h ∉ issued) {j k : I} {h : H}
    (hj : h ∈ Function.update own i ((made : Multiset H) + rest) j)
    (hk : h ∈ Function.update own i ((made : Multiset H) + rest) k) : j = k := by
  rcases c.own_after split hj with ⟨rfl, isNew⟩ | ⟨ownJ, -⟩
  · rcases c.own_after split hk with ⟨rfl, -⟩ | ⟨ownK, -⟩
    · rfl
    · exact absurd (c.owned k h ownK).2.2 (new h isNew)
  · rcases c.own_after split hk with ⟨-, isNew⟩ | ⟨ownK, -⟩
    · exact absurd (c.owned j h ownJ).2.2 (new h isNew)
    · exact c.apart j k h ownJ ownK

/-- What an owner has was in no place, and is open. -/
theorem own_open (c : Custody place issued closed own P)
    (split : own i = ((placed ++ shut : List H) : Multiset H) + rest)
    (new : ∀ h ∈ made, h ∉ issued) {k : I} {h : H}
    (hk : h ∈ Function.update own i ((made : Multiset H) + rest) k) :
    h ∉ P ∪ {h | h ∈ placed} ∧ h ∉ closed ++ (emptied.flatMap place ++ shut) ∧
      h ∈ issued ++ made := by
  rcases c.own_after split hk with ⟨-, isNew⟩ | ⟨before, notPlaced, notShut⟩
  · refine ⟨?_, fun isClosed => ?_, List.mem_append_right _ isNew⟩
    · rintro (old | put)
      · exact new h isNew (c.known h old)
      · exact new h isNew (c.given split (.inl put)).2.2
    · rcases mem_shut.mp isClosed with old | out | byOwner
      · exact new h isNew (c.genuine h old)
      · exact new h isNew (c.known h (c.out_kept out).1)
      · exact new h isNew (c.given split (.inr byOwner)).2.2
  · obtain ⟨unplaced, isOpen, known⟩ := c.owned k h before
    refine ⟨?_, fun isClosed => ?_, List.mem_append_left _ known⟩
    · rintro (old | put)
      · exact unplaced old
      · exact notPlaced put
    · rcases mem_shut.mp isClosed with old | out | byOwner
      · exact isOpen old
      · exact unplaced (c.out_kept out).1
      · exact notShut byOwner

/-- What was made stays accounted for. -/
theorem own_accounted (c : Custody place issued closed own P)
    (moves : Moves place place' emptied placed target)
    (split : own i = ((placed ++ shut : List H) : Multiset H) + rest) {h : H}
    (known : h ∈ issued ++ made) :
    h ∈ closed ++ (emptied.flatMap place ++ shut) ∨ (∃ n, h ∈ place' n) ∨
      ∃ k, h ∈ Function.update own i ((made : Multiset H) + rest) k := by
  rcases List.mem_append.mp known with old | isNew
  · rcases c.accounted h old with isClosed | ⟨n, hn⟩ | ⟨k, hk⟩
    · exact .inl (mem_shut.mpr (.inl isClosed))
    · rcases stays moves hn with out | still
      · exact .inl (mem_shut.mpr (.inr (.inl out)))
      · exact .inr (.inl ⟨n, still⟩)
    · by_cases e : k = i
      · rw [e, split, Multiset.mem_add, Multiset.mem_coe, List.mem_append] at hk
        rcases hk with (put | byOwner) | left
        · exact .inr (.inl ⟨target, moves.inside h put⟩)
        · exact .inl (mem_shut.mpr (.inr (.inr byOwner)))
        · refine .inr (.inr ⟨i, ?_⟩)
          rw [Function.update_self]
          exact Multiset.mem_add.mpr (.inr left)
      · exact .inr (.inr ⟨k, by rwa [Function.update_of_ne e]⟩)
  · refine .inr (.inr ⟨i, ?_⟩)
    rw [Function.update_self]
    exact Multiset.mem_add.mpr (.inl isNew)

end Transfer

/-- A thing is in one place, whether it was there before or was put there. -/
theorem place_unique (c : Custody place issued closed own P)
    (moves : Moves place place' emptied placed target)
    (split : own i = ((placed ++ shut : List H) : Multiset H) + rest) {n k : N} {h : H}
    (hn : h ∈ place' n) (hk : h ∈ place' k) : n = k := by
  have clash : h ∈ placed → ∀ x, h ∉ place x := fun put x hx =>
    (c.given split (.inl put)).1 (c.kept x h hx).1
  rcases c.came moves hn with ⟨put, rfl⟩ | ⟨before, -⟩
  · rcases c.came moves hk with ⟨-, rfl⟩ | ⟨before, -⟩
    · rfl
    · exact absurd before (clash put k)
  · rcases c.came moves hk with ⟨put, -⟩ | ⟨before', -⟩
    · exact absurd before (clash put n)
    · exact c.unique n k h before before'

theorem place_open (c : Custody place issued closed own P)
    (moves : Moves place place' emptied placed target)
    (split : own i = ((placed ++ shut : List H) : Multiset H) + rest) {n : N} {h : H}
    (hn : h ∈ place' n) :
    h ∈ P ∪ {h | h ∈ placed} ∧ h ∉ closed ++ (emptied.flatMap place ++ shut) := by
  have apart : ∀ h ∈ placed, h ∉ shut := fun h put byOwner =>
    List.disjoint_left.mp (List.nodup_append'.mp
      (Multiset.coe_nodup.mp (Multiset.nodup_add.mp (split ▸ c.nodup i)).1)).2.2 put byOwner
  rcases c.came moves hn with ⟨put, -⟩ | ⟨before, notOut⟩
  · obtain ⟨unplaced, isOpen, -⟩ := c.given split (.inl put)
    refine ⟨.inr put, fun isClosed => ?_⟩
    rcases mem_shut.mp isClosed with old | out | byOwner
    · exact isOpen old
    · exact unplaced (c.out_kept out).1
    · exact apart h put byOwner
  · obtain ⟨known, isOpen⟩ := c.kept n h before
    refine ⟨.inl known, fun isClosed => ?_⟩
    rcases mem_shut.mp isClosed with old | out | byOwner
    · exact isOpen old
    · exact notOut out
    · exact (c.given split (.inr byOwner)).1 known

/-- Nothing is closed twice. -/
theorem shut_once (c : Custody place issued closed own P) (distinct : emptied.Nodup)
    (split : own i = ((placed ++ shut : List H) : Multiset H) + rest) :
    (closed ++ (emptied.flatMap place ++ shut)).Nodup := by
  have shutOnce : shut.Nodup := (List.nodup_append'.mp
    (Multiset.coe_nodup.mp (Multiset.nodup_add.mp (split ▸ c.nodup i)).1)).2.1
  refine List.nodup_append'.mpr ⟨c.once.2, List.nodup_append'.mpr
    ⟨c.emptied_nodup distinct, shutOnce, fun h out byOwner => ?_⟩, fun h old now => ?_⟩
  · exact (c.given split (.inr byOwner)).1 (c.out_kept out).1
  · rcases List.mem_append.mp now with out | byOwner
    · exact (c.out_kept out).2 old
    · exact (c.given split (.inr byOwner)).2.1 old

variable [DecidableEq I]

/-- One owner puts things into a place or closes them, and makes others; what the place held
is closed. -/
theorem move (c : Custody place issued closed own P)
    (moves : Moves place place' emptied placed target) (separate : ∀ n, (place' n).Nodup)
    (split : own i = ((placed ++ shut : List H) : Multiset H) + rest)
    (new : ∀ h ∈ made, h ∉ issued) (distinct : made.Nodup) :
    Custody place' (issued ++ made) (closed ++ (emptied.flatMap place ++ shut))
      (Function.update own i ((made : Multiset H) + rest)) (P ∪ {h | h ∈ placed}) where
  nodup := c.own_nodup split new distinct
  apart _ _ _ hj hk := c.own_apart split new hj hk
  owned _ _ hk := c.own_open split new hk
  separate := separate
  unique _ _ _ hn hk := c.place_unique moves split hn hk
  kept _ _ hn := c.place_open moves split hn
  known h put := by
    refine List.mem_append_left _ ?_
    rcases put with old | put
    · exact c.known h old
    · exact (c.given split (.inl put)).2.2
  genuine h isClosed := by
    refine List.mem_append_left _ ?_
    rcases mem_shut.mp isClosed with old | out | byOwner
    · exact c.genuine h old
    · exact c.known h (c.out_kept out).1
    · exact (c.given split (.inr byOwner)).2.2
  once := ⟨List.nodup_append'.mpr ⟨c.once.1, distinct, fun h old isNew => new h isNew old⟩,
    c.shut_once moves.distinct split⟩
  accounted _ known := c.own_accounted moves split known

/-- The places are emptied by nobody in particular. -/
theorem sweep (c : Custody place issued closed own P)
    (moves : Moves place place' emptied [] target) (separate : ∀ n, (place' n).Nodup) (i : I) :
    Custody place' issued (closed ++ emptied.flatMap place) own P := by
  have split : own i = (([] ++ [] : List H) : Multiset H) + own i := (Multiset.zero_add _).symm
  have after := c.move moves separate split (List.forall_mem_nil (· ∉ issued))
    (List.nodup_nil (α := H))
  have same : Function.update own i (([] : List H) + own i) = own := by
    rw [Multiset.coe_nil, Multiset.zero_add, Function.update_eq_self]
  rw [List.append_nil, List.append_nil, same] at after
  have none : P ∪ {h | h ∈ ([] : List H)} = P := by simp
  rwa [none] at after

end Custody
end FlowiVfs
