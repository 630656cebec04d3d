import Mathlib.Data.List.Basic
import Mathlib.Data.List.Nodup

/-!
# Doubly linked lists

`Chain` says that a store of links spells a list between a predecessor of its first node
and a successor of its last one. A chain splits at any place, so a change of the links
around one place is a statement about two chains.
-/
namespace FlowiVfs.Linked

structure Cell (P : Type) where
  next : Option P := none
  prev : Option P := none

section
variable {P : Type}

/-- The links of the nodes of a list, with `before` in front of it and `behind` after it. -/
def Chain (l : P → Option (Cell P)) (behind : Option P) : Option P → List P → Prop
  | _, [] => True
  | before, p :: rest => l p = some ⟨rest.head?.or behind, before⟩ ∧ Chain l behind (some p) rest

variable {l l' : P → Option (Cell P)} {before behind : Option P} {xs ys : List P}

theorem Chain.congr (h : Chain l behind before xs) (same : ∀ x ∈ xs, l' x = l x) :
    Chain l' behind before xs := by
  induction xs generalizing before with
  | nil => trivial
  | cons p rest ih =>
      constructor
      · rw [same p List.mem_cons_self]
        exact h.1
      · exact ih h.2 fun x hx => same x (List.mem_cons_of_mem _ hx)

theorem chain_append :
    Chain l behind before (xs ++ ys) ↔
      Chain l (ys.head?.or behind) before xs ∧ Chain l behind (xs.getLast?.or before) ys := by
  induction xs generalizing before with
  | nil => simp [Chain]
  | cons p rest ih =>
      have next : (rest ++ ys).head?.or behind = rest.head?.or (ys.head?.or behind) := by
        cases rest <;> simp
      have last : ((p :: rest).getLast?).or before = rest.getLast?.or (some p) := by
        cases rest <;> simp [List.getLast?_cons]
      simp only [List.cons_append, Chain, ih, next, last, and_assoc]

/-- The links of one node of a chain. -/
theorem Chain.cell {p : P} (h : Chain l behind before (xs ++ p :: ys)) :
    l p = some ⟨ys.head?.or behind, xs.getLast?.or before⟩ :=
  (chain_append.mp h).2.1

/-- The links of a chain are inverse to each other. -/
theorem Chain.inverse (h : Chain l none none xs) {p q : P} (hp : p ∈ xs) (hq : q ∈ xs) :
    (∃ c, l p = some c ∧ c.next = some q) ↔ ∃ c, l q = some c ∧ c.prev = some p := by
  constructor
  · rintro ⟨c, cell, next⟩
    obtain ⟨front, back, rfl⟩ := List.append_of_mem hp
    rw [h.cell] at cell
    cases cell
    obtain ⟨rest, rfl⟩ := List.head?_eq_some_iff.mp ((Option.or_none).symm.trans next)
    have split : front ++ p :: q :: rest = (front ++ [p]) ++ q :: rest := by simp
    rw [split] at h
    exact ⟨_, h.cell, by simp⟩
  · rintro ⟨c, cell, prev⟩
    obtain ⟨front, back, rfl⟩ := List.append_of_mem hq
    rw [h.cell] at cell
    cases cell
    obtain ⟨rest, rfl⟩ := List.getLast?_eq_some_iff.mp ((Option.or_none).symm.trans prev)
    have split : rest ++ [p] ++ q :: back = rest ++ p :: q :: back := by simp
    rw [split] at h
    exact ⟨_, h.cell, by simp⟩

/-- The list that the links spell from a node on, of at most `left` nodes. -/
def spell (l : P → Option (Cell P)) : ℕ → Option P → List P
  | 0, _ => []
  | _ + 1, none => []
  | left + 1, some p =>
      match l p with
      | none => []
      | some c => p :: spell l left c.next

theorem Chain.spell_eq (h : Chain l none before xs) {left : ℕ} (enough : xs.length ≤ left) :
    spell l left xs.head? = xs := by
  induction xs generalizing before left with
  | nil => cases left <;> rfl
  | cons p rest ih =>
      cases left with
      | zero => simp at enough
      | succ left =>
          have tail := ih h.2 (Nat.le_of_succ_le_succ enough)
          simp only [spell, List.head?_cons, h.1, Option.or_none]
          rw [tail]

/-- A node put in front of another one. -/
theorem Chain.insert {p q : P} (h : Chain l behind before (xs ++ q :: ys))
    (distinct : (xs ++ q :: ys).Nodup) (fresh : p ∉ xs ++ q :: ys)
    (new : l' p = some ⟨some q, xs.getLast?.or before⟩)
    (moved : l' q = (l q).map fun c => { c with prev := some p })
    (last : ∀ x, xs.getLast? = some x → l' x = (l x).map fun c => { c with next := some p })
    (same : ∀ x, x ≠ p → x ≠ q → xs.getLast? ≠ some x → l' x = l x) :
    Chain l' behind before (xs ++ p :: q :: ys) := by
  obtain ⟨front, back⟩ := chain_append.mp h
  obtain ⟨hxs, hys, apart⟩ := List.nodup_append.mp distinct
  have notYs : ∀ x ∈ ys, l' x = l x := by
    intro x hx
    apply same
    · rintro rfl
      exact fresh (List.mem_append_right _ (List.mem_cons_of_mem _ hx))
    · rintro rfl
      exact (List.nodup_cons.mp hys).1 hx
    · intro isLast
      exact apart x (List.mem_of_getLast? isLast) x (List.mem_cons_of_mem _ hx) rfl
  refine chain_append.mpr ⟨?_, new, ?_, back.2.congr notYs⟩
  · rcases List.eq_nil_or_concat xs with rfl | ⟨rest, x, rfl⟩
    · trivial
    · rw [List.concat_eq_append] at *
      obtain ⟨init, final⟩ := chain_append.mp front
      have isLast : (rest ++ [x]).getLast? = some x := by simp
      refine chain_append.mpr ⟨init.congr fun y hy => ?_, ?_, trivial⟩
      · apply same
        · rintro rfl
          exact fresh (List.mem_append_left _ (List.mem_append_left _ hy))
        · rintro rfl
          exact apart y (List.mem_append_left _ hy) y List.mem_cons_self rfl
        · rw [isLast]
          rintro ⟨⟩
          exact (List.nodup_append.mp hxs).2.2 x hy x (List.mem_singleton_self x) rfl
      · rw [last x isLast, final.1]
        simp
  · rw [moved, back.1]
    simp

/-- A node put behind the last one. -/
theorem Chain.concat {p : P} (h : Chain l none before xs) (distinct : xs.Nodup) (fresh : p ∉ xs)
    (new : l' p = some ⟨none, xs.getLast?.or before⟩)
    (last : ∀ x, xs.getLast? = some x → l' x = (l x).map fun c => { c with next := some p })
    (same : ∀ x, x ≠ p → xs.getLast? ≠ some x → l' x = l x) :
    Chain l' none before (xs ++ [p]) := by
  refine chain_append.mpr ⟨?_, new, trivial⟩
  rcases List.eq_nil_or_concat xs with rfl | ⟨rest, x, rfl⟩
  · trivial
  · rw [List.concat_eq_append] at *
    obtain ⟨init, final⟩ := chain_append.mp h
    have isLast : (rest ++ [x]).getLast? = some x := by simp
    refine chain_append.mpr ⟨init.congr fun y hy => ?_, ?_, trivial⟩
    · apply same
      · rintro rfl
        exact fresh (List.mem_append_left _ hy)
      · rw [isLast]
        rintro ⟨⟩
        exact (List.nodup_append.mp distinct).2.2 x hy x (List.mem_singleton_self x) rfl
    · rw [last x isLast, final.1]
      simp

end
end FlowiVfs.Linked
