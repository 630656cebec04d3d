import Mathlib.Data.List.Basic
import Mathlib.Data.List.Nodup
import Mathlib.Data.List.Perm.Basic

/-!
# Programs that own heap objects

Objects are numbered as they are allocated, and the heap keeps a list of everything that
was freed. A program may also ask foreign code, whose answers are fixed beforehand.

`Owns heap own` is a statement of the owners: none of the objects in `own` was freed, and no
object at all was freed twice. A triple says what a program makes of the objects it is given,
whatever else is owned beside them. So a program that meets a triple frees nothing but what
it owns: the frame rule is part of the definition.
-/
namespace FlowiVfs.Owned

abbrev ObjectId := ℕ

structure Heap where
  next : ObjectId := 0
  /-- The latest comes first. -/
  frees : List ObjectId := []
  /-- What foreign code will answer. It fails where nothing is left. -/
  fate : List Bool := []
deriving DecidableEq

abbrev HeapM := StateM Heap

def ask : HeapM Bool := fun heap =>
  match heap.fate with
  | [] => (false, heap)
  | answer :: rest => (answer, { heap with fate := rest })

def allocate : HeapM ObjectId := fun heap => (heap.next, { heap with next := heap.next + 1 })

def tryAllocate : HeapM (Option ObjectId) := do
  if ← ask then
    let o ← allocate
    return some o
  else return none

def free (o : ObjectId) : HeapM Unit := fun heap => ((), { heap with frees := o :: heap.frees })

def freeOptional : Option ObjectId → HeapM Unit
  | none => pure ()
  | some o => free o

def freeAll : List ObjectId → HeapM Unit
  | [] => pure ()
  | o :: os => do
      free o
      freeAll os

/-! ## Owners -/

structure Owns (heap : Heap) (own : List ObjectId) : Prop where
  nodup : own.Nodup
  live : ∀ o ∈ own, o < heap.next ∧ o ∉ heap.frees
  once : heap.frees.Nodup
  known : ∀ o ∈ heap.frees, o < heap.next

namespace Owns

variable {heap : Heap} {own own' : List ObjectId} {o : ObjectId}

theorem empty : Owns {} [] where
  nodup := List.nodup_nil
  live _ h := absurd h List.not_mem_nil
  once := List.nodup_nil
  known _ h := absurd h List.not_mem_nil

theorem perm (h : Owns heap own) (hp : own.Perm own') : Owns heap own' where
  nodup := hp.nodup_iff.mp h.nodup
  live o ho := h.live o (hp.mem_iff.mpr ho)
  once := h.once
  known := h.known

theorem fated (h : Owns heap own) (fate : List Bool) : Owns { heap with fate := fate } own :=
  ⟨h.nodup, h.live, h.once, h.known⟩

theorem allocate (h : Owns heap own) :
    Owns { heap with next := heap.next + 1 } (heap.next :: own) where
  nodup := by
    apply List.nodup_cons.mpr
    exact ⟨fun hmem => Nat.lt_irrefl _ (h.live _ hmem).1, h.nodup⟩
  live o ho := by
    rcases List.mem_cons.mp ho with he | ho
    · subst he
      exact ⟨Nat.lt_succ_self _, fun hmem => Nat.lt_irrefl _ (h.known _ hmem)⟩
    · exact ⟨Nat.lt_succ_of_lt (h.live o ho).1, (h.live o ho).2⟩
  once := h.once
  known o ho := Nat.lt_succ_of_lt (h.known o ho)

theorem free (h : Owns heap (o :: own)) : Owns { heap with frees := o :: heap.frees } own where
  nodup := (List.nodup_cons.mp h.nodup).2
  live p hp := by
    obtain ⟨hnext, hfrees⟩ := h.live p (List.mem_cons_of_mem o hp)
    refine ⟨hnext, ?_⟩
    apply mt List.mem_cons.mp
    rintro (he | hmem)
    · exact (List.nodup_cons.mp h.nodup).1 (he ▸ hp)
    · exact hfrees hmem
  once := List.nodup_cons.mpr ⟨(h.live o List.mem_cons_self).2, h.once⟩
  known p hp := by
    rcases List.mem_cons.mp hp with he | hp
    · exact he ▸ (h.live o List.mem_cons_self).1
    · exact h.known p hp

theorem count_freed (h : Owns heap own) (ho : o ∈ heap.frees) : heap.frees.count o = 1 :=
  List.count_eq_one_of_mem h.once ho

end Owns

/-! ## Triples -/

/-- What `m` makes of the objects in `own`, whatever is owned beside them: it returns some
result and leaves behind some objects that meet `post`. -/
def Triple {A : Type} (own : List ObjectId) (m : HeapM A) (post : A → List ObjectId → Prop) : Prop :=
  ∀ heap frame, Owns heap (own ++ frame) →
    ∃ own', Owns (m heap).2 (own' ++ frame) ∧ heap.frees ⊆ (m heap).2.frees ∧
      post (m heap).1 own'

namespace Triple

variable {A B : Type} {own own' rest os : List ObjectId} {o : ObjectId} {m : HeapM A} {f : A → HeapM B}
  {post mid : A → List ObjectId → Prop} {post' : B → List ObjectId → Prop}

theorem perm (h : Triple own m post) (hp : own'.Perm own) : Triple own' m post :=
  fun heap frame ho => h heap frame (ho.perm (hp.append_right frame))

theorem pure {a : A} (h : post a own) : Triple own (Pure.pure a : HeapM A) post :=
  fun _ _ ho => ⟨own, ho, List.Subset.refl _, h⟩

theorem bind (hm : Triple own m mid) (hf : ∀ a own', mid a own' → Triple own' (f a) post') :
    Triple own (m >>= f) post' := by
  intro heap frame ho
  obtain ⟨own', h₁, h₂, h₃⟩ := hm heap frame ho
  obtain ⟨own'', h₄, h₅, h₆⟩ := hf _ _ h₃ _ _ h₁
  exact ⟨own'', h₄, List.Subset.trans h₂ h₅, h₆⟩

theorem ite {c : Prop} [Decidable c] {m' : HeapM A} (ht : c → Triple own m post)
    (hf : ¬ c → Triple own m' post) : Triple own (if c then m else m') post := by
  split
  · exact ht ‹_›
  · exact hf ‹_›

theorem ask : Triple own ask (fun _ own' => own' = own) := by
  intro heap frame ho
  refine ⟨own, ?_, ?_, rfl⟩
  · unfold Owned.ask
    split
    · exact ho
    · exact ho.fated _
  · unfold Owned.ask
    split <;> exact List.Subset.refl _

theorem allocate : Triple own allocate (fun o own' => own' = o :: own) :=
  fun heap _ ho => ⟨heap.next :: own, ho.allocate, List.Subset.refl _, rfl⟩

theorem tryAllocate :
    Triple own tryAllocate (fun answer own' => own' = answer.toList ++ own) := by
  apply Triple.bind Triple.ask
  intro answer own' he
  subst he
  apply Triple.ite
  · intro _
    apply Triple.bind Triple.allocate
    intro o own' he
    exact Triple.pure he
  · intro _
    exact Triple.pure rfl

theorem free : Triple (o :: own) (free o) (fun _ own' => own' = own) :=
  fun _ _ ho => ⟨own, ho.free, List.subset_cons_self _ _, rfl⟩

theorem freeAll : Triple (os ++ own) (freeAll os) (fun _ own' => own' = own) := by
  induction os with
  | nil => exact Triple.pure rfl
  | cons o os ih =>
      apply Triple.bind Triple.free
      intro _ own' he
      exact he ▸ ih

end Triple

/-! ## Lists of frees -/

@[simp] theorem freeAll_nil : freeAll [] = pure () := rfl

theorem freeAll_append (os rest : List ObjectId) :
    freeAll (os ++ rest) = (do freeAll os; freeAll rest) := by
  induction os with
  | nil => rfl
  | cons o os ih =>
      rw [List.cons_append, freeAll, freeAll, ih]
      rfl

theorem freeAll_singleton (o : ObjectId) : freeAll [o] = free o := rfl

theorem freeAll_optional (o : Option ObjectId) : freeAll o.toList = freeOptional o := by
  cases o <;> rfl

theorem freeAll_frees (os : List ObjectId) (heap : Heap) :
    (freeAll os heap).2.frees = os.reverse ++ heap.frees := by
  induction os generalizing heap with
  | nil => rfl
  | cons o os ih =>
      change (freeAll os { heap with frees := o :: heap.frees }).2.frees = _
      rw [ih, List.reverse_cons, List.append_assoc]
      rfl

end FlowiVfs.Owned
