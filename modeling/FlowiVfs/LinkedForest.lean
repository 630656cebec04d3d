import Mathlib.Data.List.Basic
import Mathlib.Data.List.Nodup
import Mathlib.Data.List.Perm.Basic

/-!
# Trees of first-child and next-sibling links

A node that is linked to its parent, its first child and its next sibling represents a
tree whose nodes have ordered lists of children. Read as a binary tree, whose branches are
the children and the later siblings, the shape is a plain inductive type, and the links
are a function of it: `Holds` says that a store of links spells a given forest.

The lemmas say how a local change of links changes the forest: a child inserted behind
the siblings that satisfy a predicate, and a child taken out.
-/
namespace FlowiVfs.Linked

structure Links (P : Type) where
  parent : Option P := none
  firstChild : Option P := none
  nextSibling : Option P := none

/-- A list of trees: the first one by its root and its children, and the others. -/
inductive Forest (P : Type)
  | nil
  | cons (p : P) (kids rest : Forest P)

namespace Forest

variable {P : Type}

def nodes : Forest P → List P
  | nil => []
  | cons p kids rest => p :: (kids.nodes ++ rest.nodes)

/-- The roots, which are siblings of each other. -/
def level : Forest P → List P
  | nil => []
  | cons p _ rest => p :: rest.level

/-- Children before their parent, siblings in order. -/
def postorder : Forest P → List P
  | nil => []
  | cons p kids rest => kids.postorder ++ p :: rest.postorder

def start : Forest P → Option P
  | nil => none
  | cons p _ _ => some p

@[simp] theorem start_cons (p : P) (kids rest : Forest P) :
    (cons p kids rest).start = some p := rfl

theorem level_subset (f : Forest P) : f.level ⊆ f.nodes := by
  induction f with
  | nil => exact List.Subset.refl _
  | cons p kids rest _ ih =>
      refine List.cons_subset_cons p ?_
      exact List.Subset.trans ih (List.subset_append_right _ _)

theorem postorder_perm (f : Forest P) : f.postorder.Perm f.nodes := by
  induction f with
  | nil => exact .refl _
  | cons p kids rest ihk ihr =>
      simp only [postorder, nodes]
      refine List.perm_middle.trans ?_
      exact (ihk.append ihr).cons p

theorem start_eq_head? (f : Forest P) : f.start = f.level.head? := by
  cases f <;> rfl

theorem mem_level_of_start {p : P} {f : Forest P} (h : f.start = some p) : p ∈ f.level := by
  rw [start_eq_head?] at h
  exact List.mem_of_head? h

theorem nodup_level {f : Forest P} (h : f.nodes.Nodup) : f.level.Nodup := by
  induction f with
  | nil => exact List.nodup_nil
  | cons p kids rest _ ih =>
      have parts := List.nodup_cons.mp h
      refine List.nodup_cons.mpr ⟨fun hp => parts.1 ?_, ih ?_⟩
      · exact List.mem_append_right _ (rest.level_subset hp)
      · exact (List.nodup_append'.mp parts.2).2.1

/-- The parts of a forest without repetitions. -/
theorem nodup_cons {p : P} {kids rest : Forest P} (h : (cons p kids rest).nodes.Nodup) :
    p ∉ kids.nodes ∧ p ∉ rest.nodes ∧ kids.nodes.Nodup ∧ rest.nodes.Nodup ∧
      kids.nodes.Disjoint rest.nodes := by
  obtain ⟨hp, both⟩ := List.nodup_cons.mp h
  obtain ⟨hk, hr, apart⟩ := List.nodup_append'.mp both
  exact ⟨fun hm => hp (List.mem_append_left _ hm), fun hm => hp (List.mem_append_right _ hm),
    hk, hr, apart⟩

/-- The links that a store must have to spell the forest as the children of `parent`. -/
def Holds (l : P → Option (Links P)) : Option P → Forest P → Prop
  | _, nil => True
  | parent, cons p kids rest =>
      l p = some ⟨parent, kids.start, rest.start⟩ ∧ Holds l (some p) kids ∧ Holds l parent rest

theorem Holds.congr {l l' : P → Option (Links P)} {parent : Option P} {f : Forest P}
    (h : Holds l parent f) (same : ∀ x ∈ f.nodes, l' x = l x) : Holds l' parent f := by
  induction f generalizing parent with
  | nil => trivial
  | cons p kids rest ihk ihr =>
      obtain ⟨hp, hk, hr⟩ := h
      refine ⟨(same p List.mem_cons_self).trans hp, ihk hk fun x hx => ?_, ihr hr fun x hx => ?_⟩
      · exact same x (List.mem_cons_of_mem _ (List.mem_append_left _ hx))
      · exact same x (List.mem_cons_of_mem _ (List.mem_append_right _ hx))

theorem Holds.live {l : P → Option (Links P)} {parent : Option P} {f : Forest P}
    (h : Holds l parent f) {x : P} (hx : x ∈ f.nodes) : ∃ n, l x = some n := by
  induction f generalizing parent with
  | nil => exact absurd hx List.not_mem_nil
  | cons p kids rest ihk ihr =>
      obtain ⟨hp, hk, hr⟩ := h
      rcases List.mem_cons.mp hx with rfl | hx
      · exact ⟨_, hp⟩
      · rcases List.mem_append.mp hx with hx | hx
        · exact ihk hk hx
        · exact ihr hr hx

/-- The siblings at the top have the parent that the forest is held under. -/
theorem Holds.parent_of_level {l : P → Option (Links P)} {parent : Option P} {f : Forest P}
    (h : Holds l parent f) {x : P} (hx : x ∈ f.level) :
    ∃ n, l x = some n ∧ n.parent = parent := by
  induction f with
  | nil => exact absurd hx List.not_mem_nil
  | cons p kids rest _ ih =>
      rcases List.mem_cons.mp hx with rfl | hx
      · exact ⟨_, h.1, rfl⟩
      · exact ih h.2.2 hx

/-- Linked siblings have the same parent. -/
theorem Holds.sibling_parent {l : P → Option (Links P)} {parent : Option P} {f : Forest P}
    {x p : P} {n : Links P} (h : Holds l parent f) (hx : x ∈ f.nodes) (hn : l x = some n)
    (linked : n.nextSibling = some p) :
    p ∈ f.nodes ∧ ∃ m, l p = some m ∧ m.parent = n.parent := by
  induction f generalizing parent with
  | nil => exact absurd hx List.not_mem_nil
  | cons y kids rest ihk ihr =>
      obtain ⟨hy, hk, hr⟩ := h
      rcases List.mem_cons.mp hx with rfl | hx
      · rw [hy] at hn
        cases hn
        have top := mem_level_of_start linked
        exact ⟨List.mem_cons_of_mem _ (List.mem_append_right _ (rest.level_subset top)),
          hr.parent_of_level top⟩
      · rcases List.mem_append.mp hx with hx | hx
        · obtain ⟨inside, same⟩ := ihk hk hx
          exact ⟨List.mem_cons_of_mem _ (List.mem_append_left _ inside), same⟩
        · obtain ⟨inside, same⟩ := ihr hr hx
          exact ⟨List.mem_cons_of_mem _ (List.mem_append_right _ inside), same⟩

/-- A property of every list of children in a forest. -/
def Siblings (φ : List P → Prop) : Forest P → Prop
  | nil => True
  | cons _ kids rest => φ kids.level ∧ kids.Siblings φ ∧ rest.Siblings φ

theorem Siblings.mono {φ ψ : List P → Prop} {f : Forest P} (h : f.Siblings φ)
    (imp : ∀ L, L ⊆ f.nodes → φ L → ψ L) : f.Siblings ψ := by
  induction f with
  | nil => trivial
  | cons p kids rest ihk ihr =>
      have kidsIn : kids.nodes ⊆ (cons p kids rest).nodes :=
        List.subset_cons_of_subset _ (List.subset_append_left _ _)
      have restIn : rest.nodes ⊆ (cons p kids rest).nodes :=
        List.subset_cons_of_subset _ (List.subset_append_right _ _)
      refine ⟨imp _ (List.Subset.trans kids.level_subset kidsIn) h.1, ?_, ?_⟩
      · exact ihk h.2.1 fun L hL => imp L (List.Subset.trans hL kidsIn)
      · exact ihr h.2.2 fun L hL => imp L (List.Subset.trans hL restIn)

theorem Siblings.and {φ ψ : List P → Prop} {f : Forest P} (h : f.Siblings φ)
    (h' : f.Siblings ψ) : f.Siblings fun L => φ L ∧ ψ L := by
  induction f with
  | nil => trivial
  | cons p kids rest ihk ihr => exact ⟨⟨h.1, h'.1⟩, ihk h.2.1 h'.2.1, ihr h.2.2 h'.2.2⟩

/-- Neighbours in a list are linked. -/
def Adjacent (l : P → Option (Links P)) (L : List P) : Prop :=
  ∀ pre q p post, L = pre ++ q :: p :: post → ∃ n, l q = some n ∧ n.nextSibling = some p

theorem Holds.adjacent {l : P → Option (Links P)} {parent : Option P} {f : Forest P}
    (h : Holds l parent f) : Adjacent l f.level := by
  intro pre
  induction f generalizing pre with
  | nil => simp [level]
  | cons x kids rest _ ih =>
      intro q p post split
      cases pre with
      | nil =>
          obtain ⟨rfl, next⟩ := List.cons.inj split
          refine ⟨_, h.1, ?_⟩
          show rest.start = some p
          rw [start_eq_head?, next]
          rfl
      | cons y pre => exact ih h.2.2 pre q p post (List.cons.inj split).2

theorem Holds.siblings_adjacent {l : P → Option (Links P)} {parent : Option P} {f : Forest P}
    (h : Holds l parent f) : f.Siblings (Adjacent l) := by
  induction f generalizing parent with
  | nil => trivial
  | cons p kids rest ihk ihr => exact ⟨h.2.1.adjacent, ihk h.2.1, ihr h.2.2⟩

/-! ## One more child -/

/-- A node without children put behind the siblings that satisfy `pass`, up to the first
that does not. -/
def insert (pass : P → Bool) (c : P) : Forest P → Forest P
  | nil => cons c nil nil
  | cons p kids rest =>
      if pass p then cons p kids (rest.insert pass c) else cons c nil (cons p kids rest)

/-- The last sibling that is passed. -/
def passed (pass : P → Bool) : Forest P → Option P
  | nil => none
  | cons p _ rest => if pass p then (rest.passed pass).or (some p) else none

/-- The first sibling that is not passed. -/
def stopped (pass : P → Bool) : Forest P → Option P
  | nil => none
  | cons p _ rest => if pass p then rest.stopped pass else some p

theorem level_insert (pass : P → Bool) (c : P) (f : Forest P) :
    (f.insert pass c).level = f.level.takeWhile pass ++ c :: f.level.dropWhile pass := by
  induction f with
  | nil => rfl
  | cons p kids rest _ ih =>
      unfold insert
      by_cases hp : pass p
      · simp only [if_pos hp, level, ih, List.takeWhile_cons_of_pos hp,
          List.dropWhile_cons_of_pos hp, List.cons_append]
      · simp only [if_neg hp, level, List.takeWhile_cons_of_neg hp,
          List.dropWhile_cons_of_neg hp, List.nil_append]

theorem nodes_insert (pass : P → Bool) (c : P) (f : Forest P) :
    (f.insert pass c).nodes.Perm (c :: f.nodes) := by
  induction f with
  | nil => exact .refl _
  | cons p kids rest _ ih =>
      unfold insert
      split_ifs
      · simp only [nodes]
        refine ((ih.append_left kids.nodes).trans List.perm_middle).cons p |>.trans ?_
        exact List.Perm.swap c p _
      · exact .refl _

theorem passed_mem {pass : P → Bool} {f : Forest P} {a : P} (h : f.passed pass = some a) :
    a ∈ f.level := by
  induction f with
  | nil => exact absurd h (by simp [passed])
  | cons p kids rest _ ih =>
      unfold passed at h
      split_ifs at h
      cases hr : rest.passed pass with
      | none =>
          rw [hr] at h
          cases h
          exact List.mem_cons_self
      | some b =>
          rw [hr] at h
          cases h
          exact List.mem_cons_of_mem _ (ih hr)

theorem insert_unpassed {pass : P → Bool} {c : P} {f : Forest P} (h : f.passed pass = none) :
    f.insert pass c = cons c nil f ∧ f.stopped pass = f.start := by
  cases f with
  | nil => exact ⟨rfl, rfl⟩
  | cons p kids rest =>
      unfold passed at h
      split_ifs at h with hp
      · cases hr : rest.passed pass <;> rw [hr] at h <;> exact absurd h (by simp)
      · simp only [insert, stopped, if_neg hp, start, and_self]

theorem start_insert {pass : P → Bool} {c a : P} {f : Forest P} (h : f.passed pass = some a) :
    (f.insert pass c).start = f.start := by
  cases f with
  | nil => exact absurd h (by simp [passed])
  | cons p kids rest =>
      unfold passed at h
      split_ifs at h with hp
      simp only [insert, if_pos hp, start]

/-- The last sibling that is passed is linked to the first that is not. -/
theorem Holds.passed_next {l : P → Option (Links P)} {parent : Option P} {f : Forest P} {a : P}
    {pass : P → Bool} (h : Holds l parent f) (ha : f.passed pass = some a) :
    ∃ n, l a = some n ∧ n.nextSibling = f.stopped pass := by
  induction f with
  | nil => exact absurd ha (by simp [passed])
  | cons p kids rest _ ih =>
      unfold passed at ha
      split_ifs at ha with pp
      rw [stopped, if_pos pp]
      cases hr : rest.passed pass with
      | none =>
          rw [hr] at ha
          cases ha
          refine ⟨_, h.1, ?_⟩
          cases rest with
          | nil => rfl
          | cons x ks rest' => exact ((insert_unpassed (c := x) hr).2).symm
      | some b =>
          rw [hr] at ha
          cases ha
          exact ih h.2.2 hr

theorem Holds.insert {l l' : P → Option (Links P)} {parent : Option P} {f : Forest P} {c : P}
    {pass : P → Bool} (h : Holds l parent f) (distinct : f.nodes.Nodup)
    (same : ∀ x ∈ f.nodes, f.passed pass ≠ some x → l' x = l x)
    (prev : ∀ a n, f.passed pass = some a → l a = some n →
      l' a = some { n with nextSibling := some c })
    (new : l' c = some ⟨parent, none, f.stopped pass⟩) :
    Holds l' parent (f.insert pass c) := by
  induction f with
  | nil => exact ⟨new, trivial, trivial⟩
  | cons p kids rest _ ih =>
      obtain ⟨hp, hk, hr⟩ := h
      obtain ⟨hpk, hpr, dk, dr, apart⟩ := nodup_cons distinct
      by_cases pp : pass p
      · simp only [Forest.passed, Forest.stopped, if_pos pp] at same prev new
        have sameKids : ∀ x ∈ kids.nodes, l' x = l x := by
          intro x hx
          refine same x (List.mem_cons_of_mem _ (List.mem_append_left _ hx)) fun e => ?_
          have e' : (cons p kids rest).passed pass = some x := by
            simpa only [Forest.passed, if_pos pp] using e
          have top := passed_mem e'
          rcases List.mem_cons.mp top with rfl | top
          · exact hpk hx
          · exact apart hx (rest.level_subset top)
        simp only [Forest.insert, if_pos pp]
        cases hrest : rest.passed pass with
        | none =>
            obtain ⟨front, stop⟩ := insert_unpassed (c := c) hrest
            simp only [hrest, Option.none_or] at same prev
            rw [front]
            refine ⟨prev p _ rfl hp, hk.congr sameKids, ?_, trivial, hr.congr fun x hx => ?_⟩
            · rw [new, stop]
              rfl
            · refine same x (List.mem_cons_of_mem _ (List.mem_append_right _ hx)) fun e => ?_
              cases e
              exact hpr hx
        | some a =>
            have ha : a ∈ rest.nodes := rest.level_subset (passed_mem hrest)
            simp only [hrest, Option.some_or] at same prev
            refine ⟨?_, hk.congr sameKids, ih hr dr (fun x hx e => ?_) (fun b n e hb => ?_) new⟩
            · rw [start_insert hrest, ← hp]
              refine same p List.mem_cons_self fun e => ?_
              cases e
              exact hpr ha
            · rw [hrest] at e
              exact same x (List.mem_cons_of_mem _ (List.mem_append_right _ hx)) e
            · rw [hrest] at e
              exact prev b n e hb
      · simp only [Forest.passed, Forest.stopped, if_neg pp] at same new
        simp only [Forest.insert, if_neg pp]
        refine ⟨new, trivial, ?_⟩
        exact Holds.congr (f := cons p kids rest) ⟨hp, hk, hr⟩ fun x hx => same x hx (by simp)

theorem Siblings.insert {φ : List P → Prop} {f : Forest P} {c : P} {pass : P → Bool}
    (h : f.Siblings φ) (empty : φ []) : (f.insert pass c).Siblings φ := by
  induction f with
  | nil => exact ⟨empty, trivial, trivial⟩
  | cons p kids rest _ ih =>
      unfold Forest.insert
      split_ifs
      · exact ⟨h.1, h.2.1, ih h.2.2⟩
      · exact ⟨empty, trivial, h⟩

/-! ## The children of one node -/

variable [DecidableEq P]

/-- The children of a node. -/
def children (q : P) : Forest P → Forest P
  | nil => nil
  | cons p kids rest =>
      if p = q then kids else if q ∈ kids.nodes then kids.children q else rest.children q

/-- The children of one node replaced. -/
def modify (q : P) (g : Forest P → Forest P) : Forest P → Forest P
  | nil => nil
  | cons p kids rest =>
      if p = q then cons p (g kids) rest else cons p (kids.modify q g) (rest.modify q g)

@[simp] theorem start_modify (q : P) (g : Forest P → Forest P) (f : Forest P) :
    (f.modify q g).start = f.start := by
  cases f with
  | nil => rfl
  | cons p kids rest =>
      unfold modify
      split_ifs <;> rfl

theorem level_modify (q : P) (g : Forest P → Forest P) (f : Forest P) :
    (f.modify q g).level = f.level := by
  induction f with
  | nil => rfl
  | cons p kids rest _ ih =>
      unfold modify
      split_ifs
      · rfl
      · simp only [level, ih]

theorem modify_of_not_mem {q : P} {g : Forest P → Forest P} {f : Forest P}
    (h : q ∉ f.nodes) : f.modify q g = f := by
  induction f with
  | nil => rfl
  | cons p kids rest ihk ihr =>
      have hp : p ≠ q := fun e => h (e ▸ List.mem_cons_self)
      have hk : q ∉ kids.nodes := fun hm =>
        h (List.mem_cons_of_mem _ (List.mem_append_left _ hm))
      have hr : q ∉ rest.nodes := fun hm =>
        h (List.mem_cons_of_mem _ (List.mem_append_right _ hm))
      simp only [modify, if_neg hp, ihk hk, ihr hr]

theorem children_subset (q : P) (f : Forest P) : (f.children q).nodes ⊆ f.nodes := by
  induction f with
  | nil => exact List.Subset.refl _
  | cons p kids rest ihk ihr =>
      unfold children
      intro x hx
      split_ifs at hx
      · exact List.mem_cons_of_mem _ (List.mem_append_left _ hx)
      · exact List.mem_cons_of_mem _ (List.mem_append_left _ (ihk hx))
      · exact List.mem_cons_of_mem _ (List.mem_append_right _ (ihr hx))

/-- A node is not among its own descendants. -/
theorem not_mem_children {q : P} {f : Forest P} (h : f.nodes.Nodup) : q ∉ (f.children q).nodes := by
  induction f with
  | nil => exact List.not_mem_nil
  | cons p kids rest ihk ihr =>
      obtain ⟨hpk, -, hk, hr, -⟩ := nodup_cons h
      unfold children
      split_ifs with e hq
      · exact e ▸ hpk
      · exact ihk hk
      · exact ihr hr

theorem nodup_children {q : P} {f : Forest P} (h : f.nodes.Nodup) : (f.children q).nodes.Nodup := by
  induction f with
  | nil => exact List.nodup_nil
  | cons p kids rest ihk ihr =>
      obtain ⟨-, -, hk, hr, -⟩ := nodup_cons h
      unfold children
      split_ifs
      · exact hk
      · exact ihk hk
      · exact ihr hr

theorem Holds.children {l : P → Option (Links P)} {parent : Option P} {f : Forest P} {q : P}
    (h : Holds l parent f) (hq : q ∈ f.nodes) : Holds l (some q) (f.children q) := by
  induction f generalizing parent with
  | nil => exact absurd hq List.not_mem_nil
  | cons p kids rest ihk ihr =>
      obtain ⟨hp, hk, hr⟩ := h
      unfold Forest.children
      split_ifs with e inKids
      · exact e ▸ hk
      · exact ihk hk inKids
      · refine ihr hr ?_
        rcases List.mem_cons.mp hq with rfl | hq
        · exact absurd rfl e
        · exact (List.mem_append.mp hq).resolve_left inKids

/-- A node is linked to the first of its children. -/
theorem Holds.firstChild {l : P → Option (Links P)} {parent : Option P} {f : Forest P} {q : P}
    (h : Holds l parent f) (hq : q ∈ f.nodes) :
    ∃ n, l q = some n ∧ n.firstChild = (f.children q).start := by
  induction f generalizing parent with
  | nil => exact absurd hq List.not_mem_nil
  | cons p kids rest ihk ihr =>
      obtain ⟨hp, hk, hr⟩ := h
      unfold Forest.children
      split_ifs with e inKids
      · exact ⟨_, e ▸ hp, rfl⟩
      · exact ihk hk inKids
      · refine ihr hr ?_
        rcases List.mem_cons.mp hq with rfl | hq
        · exact absurd rfl e
        · exact (List.mem_append.mp hq).resolve_left inKids

/-- Links that differ only at a node and among its children spell the forest with these
children replaced. -/
theorem Holds.modify {l l' : P → Option (Links P)} {parent : Option P} {f : Forest P} {q : P}
    {g : Forest P → Forest P} (h : Holds l parent f) (distinct : f.nodes.Nodup)
    (hq : q ∈ f.nodes)
    (same : ∀ x ∈ f.nodes, x ≠ q → x ∉ (f.children q).nodes → l' x = l x)
    (head : ∀ n, l q = some n → l' q = some { n with firstChild := (g (f.children q)).start })
    (kids : Holds l' (some q) (g (f.children q))) : Holds l' parent (f.modify q g) := by
  induction f generalizing parent with
  | nil => exact absurd hq List.not_mem_nil
  | cons p ks rest ihk ihr =>
      obtain ⟨hp, hk, hr⟩ := h
      obtain ⟨hpk, hpr, dk, dr, apart⟩ := nodup_cons distinct
      by_cases e : p = q
      · subst e
        simp only [Forest.children, if_true] at same head kids
        simp only [Forest.modify, if_true]
        refine ⟨head _ hp, kids, hr.congr fun x hx => same x ?_ ?_ ?_⟩
        · exact List.mem_cons_of_mem _ (List.mem_append_right _ hx)
        · exact fun e => hpr (e ▸ hx)
        · exact fun hk => apart hk hx
      · simp only [Forest.modify, if_neg e]
        by_cases inKids : q ∈ ks.nodes
        · simp only [Forest.children, if_neg e, if_pos inKids] at same head kids
          have notRest : q ∉ rest.nodes := fun hx => apart inKids hx
          rw [modify_of_not_mem notRest]
          refine ⟨?_, ihk hk dk inKids (fun x hx => ?_) head kids, hr.congr fun x hx => ?_⟩
          · rw [start_modify]
            exact (same p List.mem_cons_self e fun hm => hpk (children_subset q ks hm)).trans hp
          · exact same x (List.mem_cons_of_mem _ (List.mem_append_left _ hx))
          · refine same x (List.mem_cons_of_mem _ (List.mem_append_right _ hx)) ?_ ?_
            · exact fun e => notRest (e ▸ hx)
            · exact fun hm => apart (children_subset q ks hm) hx
        · have inRest : q ∈ rest.nodes := by
            rcases List.mem_cons.mp hq with e' | hm
            · exact absurd e'.symm e
            · exact (List.mem_append.mp hm).resolve_left inKids
          simp only [Forest.children, if_neg e, if_neg inKids] at same head kids
          rw [modify_of_not_mem inKids]
          refine ⟨?_, hk.congr fun x hx => ?_, ihr hr dr inRest (fun x hx => ?_) head kids⟩
          · rw [start_modify]
            exact (same p List.mem_cons_self e fun hm => hpr (children_subset q rest hm)).trans hp
          · refine same x (List.mem_cons_of_mem _ (List.mem_append_left _ hx)) ?_ ?_
            · exact fun e => inKids (e ▸ hx)
            · exact fun hm => apart hx (children_subset q rest hm)
          · exact same x (List.mem_cons_of_mem _ (List.mem_append_right _ hx))

/-- Replacing the children of a node exchanges their nodes. -/
theorem nodes_modify {q : P} {g : Forest P → Forest P} {f : Forest P}
    (distinct : f.nodes.Nodup) (hq : q ∈ f.nodes) :
    ((f.modify q g).nodes ++ (f.children q).nodes).Perm
      (f.nodes ++ (g (f.children q)).nodes) := by
  induction f with
  | nil => exact absurd hq List.not_mem_nil
  | cons p kids rest ihk ihr =>
      obtain ⟨-, -, dk, dr, apart⟩ := nodup_cons distinct
      refine List.perm_iff_count.mpr fun y => ?_
      by_cases e : p = q
      · rw [modify, children, if_pos e, if_pos e]
        simp only [nodes, List.count_cons, List.count_append]
        omega
      · rw [modify, children, if_neg e, if_neg e]
        by_cases inKids : q ∈ kids.nodes
        · have counts := List.perm_iff_count.mp (ihk dk inKids) y
          rw [if_pos inKids, modify_of_not_mem fun hx => apart inKids hx]
          simp only [nodes, List.count_cons, List.count_append] at counts ⊢
          omega
        · have inRest : q ∈ rest.nodes := by
            rcases List.mem_cons.mp hq with e' | hm
            · exact absurd e'.symm e
            · exact (List.mem_append.mp hm).resolve_left inKids
          have counts := List.perm_iff_count.mp (ihr dr inRest) y
          rw [if_neg inKids, modify_of_not_mem inKids]
          simp only [nodes, List.count_cons, List.count_append] at counts ⊢
          omega

/-- A child inserted below a node is one more node. -/
theorem nodes_modify_insert {q : P} (pass : P → Bool) (c : P) {f : Forest P}
    (distinct : f.nodes.Nodup) (hq : q ∈ f.nodes) :
    (f.modify q (insert pass c)).nodes.Perm (c :: f.nodes) := by
  refine List.perm_iff_count.mpr fun y => ?_
  have whole := List.perm_iff_count.mp (nodes_modify (g := insert pass c) distinct hq) y
  have part := List.perm_iff_count.mp (nodes_insert pass c (f.children q)) y
  simp only [List.count_append, List.count_cons] at whole part ⊢
  omega

theorem Siblings.children {φ : List P → Prop} {f : Forest P} {q : P} (h : f.Siblings φ)
    (hq : q ∈ f.nodes) : φ (f.children q).level ∧ (f.children q).Siblings φ := by
  induction f with
  | nil => exact absurd hq List.not_mem_nil
  | cons p kids rest ihk ihr =>
      unfold Forest.children
      split_ifs with e inKids
      · exact ⟨h.1, h.2.1⟩
      · exact ihk h.2.1 inKids
      · refine ihr h.2.2 ?_
        rcases List.mem_cons.mp hq with e' | hq
        · exact absurd e'.symm e
        · exact (List.mem_append.mp hq).resolve_left inKids

theorem Siblings.modify {φ : List P → Prop} {f : Forest P} {q : P} {g : Forest P → Forest P}
    (h : f.Siblings φ) (distinct : f.nodes.Nodup) (here : φ (g (f.children q)).level)
    (kids : (g (f.children q)).Siblings φ) : (f.modify q g).Siblings φ := by
  induction f with
  | nil => trivial
  | cons p ks rest ihk ihr =>
      obtain ⟨-, -, dk, dr, apart⟩ := nodup_cons distinct
      by_cases e : p = q
      · rw [Forest.children, if_pos e] at here kids
        rw [Forest.modify, if_pos e]
        exact ⟨here, kids, h.2.2⟩
      · rw [Forest.children, if_neg e] at here kids
        rw [Forest.modify, if_neg e]
        by_cases inKids : q ∈ ks.nodes
        · rw [if_pos inKids] at here kids
          rw [modify_of_not_mem fun hx => apart inKids hx]
          refine ⟨?_, ihk h.2.1 dk here kids, h.2.2⟩
          rw [level_modify]
          exact h.1
        · rw [if_neg inKids] at here kids
          rw [modify_of_not_mem inKids]
          exact ⟨h.1, h.2.1, ihr h.2.2 dr here kids⟩

/-! ## One child less -/

/-- A sibling taken out, with everything below it. -/
def erase (p : P) : Forest P → Forest P
  | nil => nil
  | cons x kids rest => if x = p then rest else cons x kids (rest.erase p)

/-- The sibling in front of a sibling. -/
def before (p : P) : Forest P → Option P
  | nil => none
  | cons x _ rest => if rest.start = some p then some x else rest.before p

/-- The sibling behind a sibling. -/
def after (p : P) : Forest P → Option P
  | nil => none
  | cons x _ rest => if x = p then rest.start else rest.after p

theorem nodes_erase {p : P} {f : Forest P} (hp : p ∈ f.level) (distinct : f.nodes.Nodup) :
    f.nodes.Perm (p :: ((f.children p).nodes ++ (f.erase p).nodes)) := by
  induction f with
  | nil => exact absurd hp List.not_mem_nil
  | cons x kids rest _ ih =>
      obtain ⟨-, -, -, dr, apart⟩ := nodup_cons distinct
      by_cases e : x = p
      · subst e
        simp only [nodes, erase, children, if_true]
        exact .refl _
      · have hr : p ∈ rest.level := (List.mem_cons.mp hp).resolve_left (Ne.symm e)
        have notKids : p ∉ kids.nodes := fun hk => apart hk (rest.level_subset hr)
        simp only [nodes, erase, children, if_neg e, if_neg notKids]
        refine List.perm_iff_count.mpr fun y => ?_
        have counts := List.perm_iff_count.mp (ih hr dr) y
        simp only [List.count_cons, List.count_append] at counts ⊢
        omega

theorem erase_subset (p : P) (f : Forest P) : (f.erase p).nodes ⊆ f.nodes := by
  induction f with
  | nil => exact List.Subset.refl _
  | cons x kids rest _ ih =>
      unfold erase
      split_ifs
      · exact List.subset_cons_of_subset _ (List.subset_append_right _ _)
      · refine List.cons_subset_cons x (List.append_subset.mpr ⟨?_, ?_⟩)
        · exact List.subset_append_left _ _
        · exact List.Subset.trans ih (List.subset_append_right _ _)

theorem before_mem {p a : P} {f : Forest P} (h : f.before p = some a) : a ∈ f.level := by
  induction f with
  | nil => exact absurd h (by simp [before])
  | cons x kids rest _ ih =>
      unfold before at h
      split_ifs at h
      · cases h
        exact List.mem_cons_self
      · exact List.mem_cons_of_mem _ (ih h)

theorem before_ne {p a : P} {f : Forest P} (distinct : f.level.Nodup)
    (h : f.before p = some a) : a ≠ p := by
  induction f with
  | nil => exact absurd h (by simp [before])
  | cons x kids rest _ ih =>
      obtain ⟨hx, dr⟩ := List.nodup_cons.mp distinct
      unfold before at h
      split_ifs at h with first
      · cases h
        exact fun e => hx (e ▸ mem_level_of_start first)
      · exact ih dr h

theorem before_absent {p : P} {f : Forest P} (hp : p ∉ f.level) : f.before p = none := by
  induction f with
  | nil => rfl
  | cons x kids rest _ ih =>
      have hr : p ∉ rest.level := fun h => hp (List.mem_cons_of_mem _ h)
      rw [before, if_neg fun h => hr (mem_level_of_start h)]
      exact ih hr

/-- The first sibling has none in front of it, every other one has. -/
theorem before_eq_none {p : P} {f : Forest P} (distinct : f.level.Nodup) (hp : p ∈ f.level) :
    f.before p = none ↔ f.start = some p := by
  induction f with
  | nil => exact absurd hp List.not_mem_nil
  | cons x kids rest _ ih =>
      obtain ⟨hx, dr⟩ := List.nodup_cons.mp distinct
      rw [before, start_cons, Option.some.injEq]
      by_cases hr : p ∈ rest.level
      · have other : x ≠ p := fun e => hx (e ▸ hr)
        split_ifs with first
        · simp [other]
        · rw [ih dr hr]
          simp [first, other]
      · have e : x = p := ((List.mem_cons.mp hp).resolve_right hr).symm
        rw [if_neg fun h => hr (mem_level_of_start h), before_absent hr]
        simp [e]

theorem start_erase {p : P} {f : Forest P} (h : f.start ≠ some p) :
    (f.erase p).start = f.start := by
  cases f with
  | nil => rfl
  | cons x kids rest =>
      have other : x ≠ p := fun e => h (congrArg some e)
      rw [erase, if_neg other, start_cons, start_cons]

theorem start_erase_first {p : P} {f : Forest P} (h : f.start = some p) :
    (f.erase p).start = f.after p := by
  cases f with
  | nil => exact absurd h (by simp [start])
  | cons x kids rest =>
      have first : x = p := Option.some.inj h
      simp only [erase, after, if_pos first]

theorem Holds.erase {l l' : P → Option (Links P)} {parent : Option P} {f : Forest P} {p : P}
    (h : Holds l parent f) (distinct : f.nodes.Nodup) (hp : p ∈ f.level)
    (same : ∀ x ∈ (f.erase p).nodes, f.before p ≠ some x → l' x = l x)
    (prev : ∀ a n, f.before p = some a → l a = some n →
      l' a = some { n with nextSibling := f.after p }) :
    Holds l' parent (f.erase p) := by
  induction f with
  | nil => exact absurd hp List.not_mem_nil
  | cons x kids rest _ ih =>
      obtain ⟨hx, hk, hr⟩ := h
      obtain ⟨hxk, hxr, -, dr, apart⟩ := nodup_cons distinct
      by_cases e : x = p
      · subst e
        rw [Forest.erase, if_pos rfl] at same ⊢
        refine hr.congr fun y hy => same y hy ?_
        have absent : x ∉ rest.level := fun h => hxr (rest.level_subset h)
        rw [Forest.before, if_neg fun h => absent (mem_level_of_start h), before_absent absent]
        simp
      · have hpr : p ∈ rest.level := (List.mem_cons.mp hp).resolve_left (Ne.symm e)
        rw [Forest.erase, if_neg e] at same ⊢
        rw [Forest.after, if_neg e] at prev
        have inFront : ∀ y, y ∈ kids.nodes ∨ y ∈ rest.nodes → y ≠ x := by
          rintro y (hy | hy) rfl
          · exact hxk hy
          · exact hxr hy
        have sameKids : ∀ y ∈ kids.nodes, l' y = l y := by
          intro y hy
          refine same y (List.mem_cons_of_mem _ (List.mem_append_left _ hy)) fun h => ?_
          rcases List.mem_cons.mp (before_mem h) with e | top
          · exact inFront y (.inl hy) e
          · exact apart hy (rest.level_subset top)
        by_cases first : rest.start = some p
        · rw [Forest.before, if_pos first] at same prev
          refine ⟨?_, hk.congr sameKids, ?_⟩
          · rw [start_erase_first first]
            exact prev x _ rfl hx
          · have none : rest.before p = none :=
              (before_eq_none (nodup_level dr) hpr).mpr first
            refine ih hr dr hpr (fun y hy _ => ?_) fun a n h => ?_
            · refine same y (List.mem_cons_of_mem _ (List.mem_append_right _ hy)) fun h => ?_
              exact inFront y (.inr (erase_subset p rest hy)) (Option.some.inj h).symm
            · rw [none] at h
              exact absurd h (by simp)
        · rw [Forest.before, if_neg first] at same prev
          refine ⟨?_, hk.congr sameKids, ih hr dr hpr (fun y hy => ?_) prev⟩
          · rw [start_erase first]
            refine (same x List.mem_cons_self fun h => ?_).trans hx
            exact hxr (rest.level_subset (before_mem h))
          · exact same y (List.mem_cons_of_mem _ (List.mem_append_right _ hy))

/-- The sibling in front of a sibling is linked to it. -/
theorem Holds.before_next {l : P → Option (Links P)} {parent : Option P} {f : Forest P}
    {p a : P} (h : Holds l parent f) (ha : f.before p = some a) :
    ∃ n, l a = some n ∧ n.nextSibling = some p := by
  induction f with
  | nil => exact absurd ha (by simp [before])
  | cons x kids rest _ ih =>
      unfold before at ha
      split_ifs at ha with first
      · cases ha
        exact ⟨_, h.1, first⟩
      · exact ih h.2.2 ha

/-- A sibling is linked to the one behind it. -/
theorem Holds.after_next {l : P → Option (Links P)} {parent : Option P} {f : Forest P}
    {p : P} (h : Holds l parent f) (hp : p ∈ f.level) :
    ∃ n, l p = some n ∧ n.nextSibling = f.after p := by
  induction f with
  | nil => exact absurd hp List.not_mem_nil
  | cons x kids rest _ ih =>
      by_cases e : x = p
      · rw [after, if_pos e]
        exact ⟨_, e ▸ h.1, rfl⟩
      · rw [after, if_neg e]
        exact ih h.2.2 ((List.mem_cons.mp hp).resolve_left (Ne.symm e))

/-- Every node that is not at the top is a child of the node it is linked to. -/
theorem Holds.parent_of {l : P → Option (Links P)} {parent : Option P} {f : Forest P} {x : P}
    (h : Holds l parent f) (distinct : f.nodes.Nodup) (hx : x ∈ f.nodes) (deep : x ∉ f.level) :
    ∃ q ∈ f.nodes, x ∈ (f.children q).level ∧ ∃ n, l x = some n ∧ n.parent = some q := by
  induction f generalizing parent with
  | nil => exact absurd hx List.not_mem_nil
  | cons p kids rest ihk ihr =>
      obtain ⟨hp, hk, hr⟩ := h
      obtain ⟨hpk, hpr, dk, dr, apart⟩ := nodup_cons distinct
      have notTop : x ≠ p := fun e => deep (e ▸ List.mem_cons_self)
      have notRest : x ∉ rest.level := fun hm => deep (List.mem_cons_of_mem _ hm)
      rcases List.mem_append.mp ((List.mem_cons.mp hx).resolve_left notTop) with inKids | inRest
      · by_cases top : x ∈ kids.level
        · refine ⟨p, List.mem_cons_self, ?_, hk.parent_of_level top⟩
          rw [Forest.children, if_pos rfl]
          exact top
        · obtain ⟨q, hq, child, linked⟩ := ihk hk dk inKids top
          have other : p ≠ q := fun e => hpk (e ▸ hq)
          refine ⟨q, List.mem_cons_of_mem _ (List.mem_append_left _ hq), ?_, linked⟩
          rw [Forest.children, if_neg other, if_pos hq]
          exact child
      · obtain ⟨q, hq, child, linked⟩ := ihr hr dr inRest notRest
        have other : p ≠ q := fun e => hpr (e ▸ hq)
        refine ⟨q, List.mem_cons_of_mem _ (List.mem_append_right _ hq), ?_, linked⟩
        rw [Forest.children, if_neg other, if_neg fun hk => apart hk hq]
        exact child

/-- The forest without a node and everything below it. -/
def remove (p : P) : Forest P → Forest P
  | nil => nil
  | cons x kids rest => if x = p then rest else cons x (kids.remove p) (rest.remove p)

theorem remove_of_not_mem {p : P} {f : Forest P} (h : p ∉ f.nodes) : f.remove p = f := by
  induction f with
  | nil => rfl
  | cons x kids rest ihk ihr =>
      have hx : x ≠ p := fun e => h (e ▸ List.mem_cons_self)
      have hk : p ∉ kids.nodes := fun hm =>
        h (List.mem_cons_of_mem _ (List.mem_append_left _ hm))
      have hr : p ∉ rest.nodes := fun hm =>
        h (List.mem_cons_of_mem _ (List.mem_append_right _ hm))
      rw [remove, if_neg hx, ihk hk, ihr hr]

theorem remove_of_level {p : P} {g : Forest P → Forest P} {f : Forest P}
    (distinct : f.nodes.Nodup) (hp : p ∈ f.level) : (f.modify p g).erase p = f.remove p := by
  induction f with
  | nil => exact absurd hp List.not_mem_nil
  | cons x kids rest _ ih =>
      obtain ⟨-, -, -, dr, apart⟩ := nodup_cons distinct
      by_cases e : x = p
      · rw [modify, if_pos e, erase, if_pos e, remove, if_pos e]
      · have hr : p ∈ rest.level := (List.mem_cons.mp hp).resolve_left (Ne.symm e)
        have notKids : p ∉ kids.nodes := fun hk => apart hk (rest.level_subset hr)
        rw [modify, if_neg e, erase, if_neg e, remove, if_neg e, ih dr hr,
          modify_of_not_mem notKids, remove_of_not_mem notKids]

/-- Emptying a node and then taking it out of its parent's children removes it. -/
theorem remove_eq {p q : P} {g : Forest P → Forest P} {f : Forest P} (distinct : f.nodes.Nodup)
    (hq : q ∈ f.nodes) (hp : p ∈ (f.children q).level) :
    (f.modify p g).modify q (erase p) = f.remove p := by
  induction f with
  | nil => exact absurd hq List.not_mem_nil
  | cons x kids rest ihk ihr =>
      obtain ⟨hxk, hxr, dk, dr, apart⟩ := nodup_cons distinct
      rw [children] at hp
      by_cases e : x = q
      · rw [if_pos e] at hp
        have inKids : p ∈ kids.nodes := kids.level_subset hp
        have other : x ≠ p := fun h => hxk (h ▸ inKids)
        have notRest : p ∉ rest.nodes := fun h => apart inKids h
        rw [modify, if_neg other, modify, if_pos e, remove, if_neg other,
          remove_of_level dk hp, modify_of_not_mem notRest, remove_of_not_mem notRest]
      · rw [if_neg e] at hp
        by_cases qKids : q ∈ kids.nodes
        · rw [if_pos qKids] at hp
          have inKids : p ∈ kids.nodes :=
            children_subset q kids ((kids.children q).level_subset hp)
          have other : x ≠ p := fun h => hxk (h ▸ inKids)
          have notRest : p ∉ rest.nodes := fun h => apart inKids h
          have qRest : q ∉ rest.nodes := fun h => apart qKids h
          rw [modify, if_neg other, modify, if_neg e, remove, if_neg other,
            ihk dk qKids hp, modify_of_not_mem notRest, modify_of_not_mem qRest,
            remove_of_not_mem notRest]
        · rw [if_neg qKids] at hp
          have qRest : q ∈ rest.nodes := by
            rcases List.mem_cons.mp hq with e' | hm
            · exact absurd e'.symm e
            · exact (List.mem_append.mp hm).resolve_left qKids
          have inRest : p ∈ rest.nodes :=
            children_subset q rest ((rest.children q).level_subset hp)
          have other : x ≠ p := fun h => hxr (h ▸ inRest)
          have notKids : p ∉ kids.nodes := fun h => apart h inRest
          rw [modify, if_neg other, modify, if_neg e, remove, if_neg other,
            ihr dr qRest hp, modify_of_not_mem notKids, modify_of_not_mem qKids,
            remove_of_not_mem notKids]

/-- The nodes that are removed are a node and its descendants. -/
theorem nodes_remove {p : P} {f : Forest P} (distinct : f.nodes.Nodup) (hp : p ∈ f.nodes) :
    f.nodes.Perm (p :: ((f.children p).nodes ++ (f.remove p).nodes)) := by
  induction f with
  | nil => exact absurd hp List.not_mem_nil
  | cons x kids rest ihk ihr =>
      obtain ⟨-, -, dk, dr, apart⟩ := nodup_cons distinct
      refine List.perm_iff_count.mpr fun y => ?_
      by_cases e : x = p
      · rw [children, if_pos e, remove, if_pos e, e]
        rfl
      · rw [children, if_neg e, remove, if_neg e]
        rcases List.mem_append.mp ((List.mem_cons.mp hp).resolve_left (Ne.symm e)) with hk | hr
        · have counts := List.perm_iff_count.mp (ihk dk hk) y
          rw [if_pos hk, remove_of_not_mem fun h => apart hk h]
          simp only [nodes, List.count_cons, List.count_append] at counts ⊢
          omega
        · have notKids : p ∉ kids.nodes := fun h => apart h hr
          have counts := List.perm_iff_count.mp (ihr dr hr) y
          rw [if_neg notKids, remove_of_not_mem notKids]
          simp only [nodes, List.count_cons, List.count_append] at counts ⊢
          omega

theorem level_remove {p : P} {f : Forest P} (distinct : f.nodes.Nodup) :
    (f.remove p).level = f.level.erase p := by
  induction f with
  | nil => rfl
  | cons x kids rest _ ih =>
      obtain ⟨-, -, -, dr, -⟩ := nodup_cons distinct
      unfold remove
      by_cases e : x = p
      · rw [if_pos e, level, e, List.erase_cons_head]
      · have other : (x == p) = false := beq_false_of_ne e
        rw [if_neg e, level, level, ih dr,
          List.erase_cons_tail (by rw [other]; exact Bool.false_ne_true)]

theorem Siblings.remove {φ : List P → Prop} {f : Forest P} {p : P} (h : f.Siblings φ)
    (distinct : f.nodes.Nodup) (sublist : ∀ L, φ L → φ (L.erase p)) :
    (f.remove p).Siblings φ := by
  induction f with
  | nil => trivial
  | cons x kids rest ihk ihr =>
      obtain ⟨-, -, dk, dr, -⟩ := nodup_cons distinct
      unfold Forest.remove
      split_ifs
      · exact h.2.2
      · refine ⟨?_, ihk h.2.1 dk, ihr h.2.2 dr⟩
        rw [level_remove dk]
        exact sublist _ h.1

theorem modify_id (q : P) (f : Forest P) : f.modify q id = f := by
  induction f with
  | nil => rfl
  | cons x kids rest ihk ihr =>
      unfold modify
      split_ifs
      · rfl
      · rw [ihk, ihr]

/-- Nothing of what is below a node is left when it has been removed. -/
theorem remove_modify (p : P) (g : Forest P → Forest P) (f : Forest P) :
    (f.modify p g).remove p = f.remove p := by
  induction f with
  | nil => rfl
  | cons x kids rest ihk ihr =>
      by_cases e : x = p
      · rw [modify, if_pos e, remove, remove, if_pos e, if_pos e]
      · rw [modify, if_neg e, remove, remove, if_neg e, if_neg e, ihk, ihr]

theorem children_modify {q : P} {g : Forest P → Forest P} {f : Forest P}
    (distinct : f.nodes.Nodup) (hq : q ∈ f.nodes) :
    (f.modify q g).children q = g (f.children q) := by
  induction f with
  | nil => exact absurd hq List.not_mem_nil
  | cons p kids rest ihk ihr =>
      obtain ⟨-, -, dk, dr, apart⟩ := nodup_cons distinct
      by_cases e : p = q
      · rw [modify, if_pos e, children, children, if_pos e, if_pos e]
      · rw [modify, if_neg e, children, children, if_neg e, if_neg e]
        have still : ∀ k : Forest P, k.nodes.Nodup → (q ∈ (k.modify q g).nodes ↔ q ∈ k.nodes) := by
          intro k dk
          by_cases hm : q ∈ k.nodes
          · refine iff_of_true ?_ hm
            have both := nodes_modify (g := g) dk hm
            have inBoth : q ∈ (k.modify q g).nodes ++ (k.children q).nodes :=
              both.mem_iff.mpr (List.mem_append_left _ hm)
            exact (List.mem_append.mp inBoth).resolve_right (not_mem_children dk)
          · rw [modify_of_not_mem hm]
        by_cases inKids : q ∈ kids.nodes
        · rw [if_pos inKids, if_pos ((still kids dk).mpr inKids), ihk dk inKids]
        · have inRest : q ∈ rest.nodes := by
            rcases List.mem_cons.mp hq with e' | hm
            · exact absurd e'.symm e
            · exact (List.mem_append.mp hm).resolve_left inKids
          rw [if_neg inKids, if_neg fun h => inKids ((still kids dk).mp h), ihr dr inRest]

/-- A new sibling has no part in the children of the others. -/
theorem children_insert {q c : P} {pass : P → Bool} {f : Forest P} (hq : q ∈ f.nodes)
    (fresh : c ∉ f.nodes) : (f.insert pass c).children q = f.children q := by
  induction f with
  | nil => exact absurd hq List.not_mem_nil
  | cons p kids rest _ ih =>
      have apart : c ≠ q := fun e => fresh (e ▸ hq)
      unfold insert
      split_ifs
      · unfold children
        split_ifs with here inKids
        · rfl
        · rfl
        · have inRest : q ∈ rest.nodes := by
            rcases List.mem_cons.mp hq with e | hm
            · exact absurd e.symm here
            · exact (List.mem_append.mp hm).resolve_left inKids
          refine ih inRest fun hm => fresh ?_
          exact List.mem_cons_of_mem _ (List.mem_append_right _ hm)
      · rw [children, if_neg apart, if_neg (by simp [nodes])]

/-- Which nodes there are after a child has been inserted below a node. -/
theorem mem_modify_insert {q p c : P} {pass : P → Bool} {f : Forest P} (distinct : f.nodes.Nodup)
    (other : q ≠ c) : q ∈ (f.modify p (insert pass c)).nodes ↔ q ∈ f.nodes := by
  by_cases hp : p ∈ f.nodes
  · rw [(nodes_modify_insert pass c distinct hp).mem_iff, List.mem_cons]
    exact or_iff_right other
  · rw [modify_of_not_mem hp]

/-- A child inserted below one node is no child of another. -/
theorem level_children_modify {q p c : P} {pass : P → Bool} {f : Forest P}
    (distinct : f.nodes.Nodup) (hq : q ∈ f.nodes) (fresh : c ∉ f.nodes) (other : q ≠ p) :
    ((f.modify p (insert pass c)).children q).level = (f.children q).level := by
  induction f with
  | nil => exact absurd hq List.not_mem_nil
  | cons x kids rest ihk ihr =>
      obtain ⟨-, -, dk, dr, -⟩ := nodup_cons distinct
      have apart : q ≠ c := fun e => fresh (e ▸ hq)
      have freshKids : c ∉ kids.nodes := fun hm =>
        fresh (List.mem_cons_of_mem _ (List.mem_append_left _ hm))
      have freshRest : c ∉ rest.nodes := fun hm =>
        fresh (List.mem_cons_of_mem _ (List.mem_append_right _ hm))
      have inRest : x ≠ q → q ∉ kids.nodes → q ∈ rest.nodes := by
        intro here inKids
        rcases List.mem_cons.mp hq with e | hm
        · exact absurd e.symm here
        · exact (List.mem_append.mp hm).resolve_left inKids
      unfold modify
      split_ifs with isParent
      · subst isParent
        have inserted : q ∈ (kids.insert pass c).nodes ↔ q ∈ kids.nodes := by
          rw [(nodes_insert pass c kids).mem_iff, List.mem_cons]
          exact or_iff_right apart
        simp only [children, if_neg other.symm, inserted]
        split_ifs with inKids
        · rw [children_insert inKids freshKids]
        · rfl
      · simp only [children, mem_modify_insert dk apart]
        split_ifs with here inKids
        · rw [level_modify]
        · exact ihk dk inKids freshKids
        · exact ihr dr (inRest here inKids) freshRest

theorem before_of_after {p x : P} {f : Forest P} (distinct : f.level.Nodup) (hx : x ∈ f.level)
    (h : f.after x = some p) : f.before p = some x := by
  induction f with
  | nil => exact absurd hx List.not_mem_nil
  | cons y kids rest _ ih =>
      obtain ⟨hy, dr⟩ := List.nodup_cons.mp distinct
      by_cases e : y = x
      · rw [after, if_pos e] at h
        rw [before, if_pos h, e]
      · rw [after, if_neg e] at h
        have inRest : x ∈ rest.level := (List.mem_cons.mp hx).resolve_left (Ne.symm e)
        rw [before, if_neg fun first => ?_]
        · exact ih dr inRest h
        · have none := (before_eq_none dr (mem_level_of_start first)).mpr first
          rw [ih dr inRest h] at none
          exact absurd none (by simp)

/-- The nodes below a node of a subtree, which are those below it in the whole tree. -/
theorem children_children {q c : P} {f : Forest P} (distinct : f.nodes.Nodup)
    (hc : c ∈ (f.children q).nodes) : (f.children q).children c = f.children c := by
  induction f with
  | nil => rfl
  | cons p kids rest ihk ihr =>
      obtain ⟨hpk, hpr, dk, dr, apart⟩ := nodup_cons distinct
      have inKids : c ∈ kids.nodes → (cons p kids rest).children c = kids.children c := by
        intro hk
        have other : p ≠ c := fun e => hpk (e ▸ hk)
        rw [children, if_neg other, if_pos hk]
      have inRest : c ∈ rest.nodes → (cons p kids rest).children c = rest.children c := by
        intro hr
        have other : p ≠ c := fun e => hpr (e ▸ hr)
        rw [children, if_neg other, if_neg fun hk => apart hk hr]
      rw [children] at hc ⊢
      split_ifs at hc ⊢ with here below
      · exact (inKids hc).symm
      · rw [ihk dk hc, inKids (kids.children_subset q hc)]
      · rw [ihr dr hc, inRest (rest.children_subset q hc)]

/-- Every node of a forest is one of its roots or below one. -/
theorem mem_nodes_iff {x : P} {f : Forest P} (distinct : f.nodes.Nodup) :
    x ∈ f.nodes ↔ ∃ c ∈ f.level, x = c ∨ x ∈ (f.children c).nodes := by
  constructor
  · intro hx
    induction f with
    | nil => exact absurd hx List.not_mem_nil
    | cons p kids rest _ ih =>
        obtain ⟨-, hpr, -, dr, apart⟩ := nodup_cons distinct
        rcases List.mem_cons.mp hx with rfl | hx
        · exact ⟨x, List.mem_cons_self, .inl rfl⟩
        rcases List.mem_append.mp hx with hk | hr
        · refine ⟨p, List.mem_cons_self, .inr ?_⟩
          rw [children, if_pos rfl]
          exact hk
        · obtain ⟨c, hc, below⟩ := ih dr hr
          have inRest := rest.level_subset hc
          refine ⟨c, List.mem_cons_of_mem _ hc, ?_⟩
          have other : p ≠ c := fun e => hpr (e ▸ inRest)
          rw [children, if_neg other, if_neg fun hk => apart hk inRest]
          exact below
  · rintro ⟨c, hc, rfl | below⟩
    · exact f.level_subset hc
    · exact f.children_subset c below

end Forest
end FlowiVfs.Linked
