import Mathlib

/-!
# Insertion sort in place

The sort walks an array from the left. At each index it takes the element out as the key,
moves the larger part of what is sorted one place to the right, and puts the key into the
gap. The array is a list that is only read and written at indices.

`sinkKey_append` says what one round does to the list that the array holds, and the sort is
then the fold of `insertKey`. For an order by a score, the result is the stable sort:
a permutation, descending, and equal scores keep their order.
-/
namespace FlowiVfs.InsertionSort

variable {A : Type} (less : A → A → Bool)

/-- Put the key behind the last element that it does not exceed. -/
def insertKey (sorted : List A) (key : A) : List A :=
  (sorted.reverse.dropWhile (less · key)).reverse ++
    key :: (sorted.reverse.takeWhile (less · key)).reverse

/-- The inner loop with the key, from the place of the gap. A read or write outside of the
array has no result. -/
def sinkKey (key : A) : ℕ → List A → Option (List A)
  | 0, a => if 0 < a.length then some (a.set 0 key) else none
  | j + 1, a =>
      if j + 1 < a.length then
        match a[j]? with
        | none => none
        | some x =>
            if less x key then sinkKey key j (a.set (j + 1) x) else some (a.set (j + 1) key)
      else none

/-- One round of the outer loop: the element at `i` is the key, and the gap is there. -/
def sortRound (a : List A) (i : ℕ) : Option (List A) := do
  let key ← a[i]?
  sinkKey less key i a

/-- The rounds from index `i` on, as many as are left. -/
def sortFrom : ℕ → ℕ → List A → Option (List A)
  | 0, _, a => some a
  | left + 1, i, a => do
      let a ← sortRound less a i
      sortFrom left (i + 1) a

/-- The sort, which starts at the second element. -/
def sortInPlace (a : List A) : Option (List A) := sortFrom less (a.length - 1) 1 a

/-! ## What a round does -/

section
variable {less} {key x hole : A} {front back : List A}

@[simp] theorem insertKey_nil : insertKey less [] key = [key] := rfl

theorem insertKey_concat_of_less (h : less x key = true) :
    insertKey less (front ++ [x]) key = insertKey less front key ++ [x] := by
  simp [insertKey, h]

theorem insertKey_concat_of_not_less (h : less x key = false) :
    insertKey less (front ++ [x]) key = front ++ [x, key] := by
  simp [insertKey, h]

/-- The key sinks through the sorted part in front of the gap. -/
theorem sinkKey_append (key hole : A) (front back : List A) :
    sinkKey less key front.length (front ++ hole :: back) =
      some (insertKey less front key ++ back) := by
  induction front using List.reverseRecOn generalizing hole back with
  | nil => simp [sinkKey]
  | append_singleton front x ih =>
      have inside : front.length + 1 < (front ++ [x] ++ hole :: back).length := by
        simp
      have read : (front ++ [x] ++ hole :: back)[front.length]? = some x := by
        simp
      have write : ∀ y : A, (front ++ [x] ++ hole :: back).set (front.length + 1) y =
          front ++ x :: y :: back := by
        intro y
        simp
      rw [List.length_append, List.length_singleton, sinkKey, if_pos inside, read]
      dsimp only
      cases small : less x key with
      | true =>
          rw [if_pos rfl, write, ih, insertKey_concat_of_less small]
          simp
      | false =>
          rw [if_neg (by simp), write, insertKey_concat_of_not_less small]
          simp

theorem sortFrom_append (done rest : List A) :
    sortFrom less rest.length done.length (done ++ rest) =
      some (rest.foldl (insertKey less) done) := by
  induction rest generalizing done with
  | nil => simp [sortFrom]
  | cons key rest ih =>
      have read : (done ++ key :: rest)[done.length]? = some key := by
        simp
      have grown : (insertKey less done key).length = done.length + 1 := by
        simp only [insertKey, List.length_append, List.length_cons, List.length_reverse]
        have split := congrArg List.length
          (List.takeWhile_append_dropWhile (p := fun x => less x key) (l := done.reverse))
        rw [List.length_append, List.length_reverse] at split
        omega
      have round : sortRound less (done ++ key :: rest) done.length =
          some (insertKey less done key ++ rest) := by
        simp only [sortRound, read, Option.bind_eq_bind, Option.bind_some]
        exact sinkKey_append key key done rest
      rw [List.length_cons, sortFrom, round, Option.bind_eq_bind, Option.bind_some, ← grown, ih]
      rfl

/-- The sort stays within the array, and inserts one element after the other. -/
theorem sortInPlace_eq (less : A → A → Bool) (a : List A) : sortInPlace less a = some (a.foldl (insertKey less) []) := by
  cases a with
  | nil => rfl
  | cons x rest => exact sortFrom_append [x] rest

/-- Inserting images is inserting, compared through the images. -/
theorem insertKey_map {B : Type} (g : B → A) (sorted : List B) (key : B) :
    insertKey less (sorted.map g) (g key) =
      (insertKey (fun x y => less (g x) (g y)) sorted key).map g := by
  simp only [insertKey, ← List.map_reverse, List.dropWhile_map, List.takeWhile_map,
    List.map_append, List.map_cons, Function.comp_def]

theorem foldl_insertKey_map (less : A → A → Bool) {B : Type} (g : B → A) (a sorted : List B) :
    (a.map g).foldl (insertKey less) (sorted.map g) =
      (a.foldl (insertKey fun x y => less (g x) (g y)) sorted).map g := by
  induction a generalizing sorted with
  | nil => rfl
  | cons x a ih =>
      rw [List.map_cons, List.foldl_cons, insertKey_map]
      exact ih _

end

/-! ## Sorting by a score -/

section
variable {Score : Type} [LinearOrder Score] (score : A → Score)

/-- Scores that are lower go behind. -/
def byScore (x key : A) : Bool := decide (score x < score key)

variable {score} {sorted : List A} {key : A}

theorem insertKey_split (score : A → Score) (sorted : List A) (key : A) : ∃ high low, sorted = high ++ low ∧
    insertKey (byScore score) sorted key = high ++ key :: low ∧
    (∀ x ∈ low, score x < score key) ∧ ∀ x ∈ high.getLast?, score key ≤ score x := by
  refine ⟨_, _, ?_, rfl, ?_, ?_⟩
  · rw [← List.reverse_append, List.takeWhile_append_dropWhile, List.reverse_reverse]
  · intro x hx
    have small := List.mem_takeWhile_imp (List.mem_reverse.mp hx)
    exact of_decide_eq_true small
  · intro x hx
    rw [List.getLast?_reverse] at hx
    have stopped := List.head?_dropWhile_not (fun x => byScore score x key) sorted.reverse
    rw [Option.mem_def.mp hx] at stopped
    simp only [byScore] at stopped
    exact not_lt.mp (of_decide_eq_false stopped)

theorem insertKey_perm : (insertKey (byScore score) sorted key).Perm (key :: sorted) := by
  obtain ⟨high, low, split, inserted, -, -⟩ := insertKey_split score sorted key
  rw [inserted, split]
  exact List.perm_middle

theorem insertKey_descending (h : sorted.Pairwise fun x y => score y ≤ score x) :
    (insertKey (byScore score) sorted key).Pairwise fun x y => score y ≤ score x := by
  obtain ⟨high, low, split, inserted, small, large⟩ := insertKey_split score sorted key
  rw [split, List.pairwise_append] at h
  obtain ⟨ofHigh, ofLow, across⟩ := h
  have above : ∀ x ∈ high, score key ≤ score x := by
    intro x hx
    obtain ⟨front, last, same⟩ : ∃ front last, high = front ++ [last] := by
      exact ⟨_, _, (List.dropLast_append_getLast (List.ne_nil_of_mem hx)).symm⟩
    subst same
    have least := large last (by simp)
    rcases List.mem_append.mp hx with hx | hx
    · have ordered := (List.pairwise_append.mp ofHigh).2.2 x hx last (List.mem_singleton_self last)
      exact least.trans ordered
    · rw [List.mem_singleton.mp hx]
      exact least
  rw [inserted, List.pairwise_append]
  refine ⟨ofHigh, ?_, ?_⟩
  · rw [List.pairwise_cons]
    exact ⟨fun y hy => (small y hy).le, ofLow⟩
  · intro x hx y hy
    rcases List.mem_cons.mp hy with rfl | hy
    · exact above x hx
    · exact across x hx y hy

/-- Elements of one score keep their order, the key coming last. -/
theorem insertKey_ties (r : Score) :
    (insertKey (byScore score) sorted key).filter (fun x => score x = r) =
      (sorted ++ [key]).filter fun x => score x = r := by
  obtain ⟨high, low, split, inserted, small, -⟩ := insertKey_split score sorted key
  rw [inserted, split]
  by_cases same : score key = r
  · have none : low.filter (fun x => score x = r) = [] := by
      rw [List.filter_eq_nil_iff]
      intro x hx
      have lower := small x hx
      rw [same] at lower
      simpa using lower.ne
    simp [List.filter_append, same, none]
  · simp [List.filter_append, same]

/-- The list is the stable sort of another by descending score. -/
structure StableSort (score : A → Score) (a sorted : List A) : Prop where
  perm : sorted.Perm a
  descending : sorted.Pairwise fun x y => score y ≤ score x
  ties : ∀ r, sorted.filter (fun x => score x = r) = a.filter fun x => score x = r

theorem foldl_insertKey {a b : List A} (h : StableSort score a sorted) :
    StableSort score (a ++ b) (b.foldl (insertKey (byScore score)) sorted) := by
  induction b generalizing a sorted with
  | nil => simpa using h
  | cons key b ih =>
      have next : StableSort score (a ++ [key]) (insertKey (byScore score) sorted key) := by
        refine ⟨?_, insertKey_descending h.descending, ?_⟩
        · have moved : (key :: sorted).Perm (a ++ [key]) :=
            (h.perm.cons key).trans (List.perm_append_singleton key a).symm
          exact insertKey_perm.trans moved
        · intro r
          rw [insertKey_ties, List.filter_append, h.ties r, List.filter_append]
      simpa using ih next

theorem foldl_insertKey_stable (a : List A) :
    StableSort score a (a.foldl (insertKey (byScore score)) []) := by
  have empty : StableSort score [] ([] : List A) := ⟨.nil, .nil, fun _ => rfl⟩
  exact foldl_insertKey empty

end
end FlowiVfs.InsertionSort
