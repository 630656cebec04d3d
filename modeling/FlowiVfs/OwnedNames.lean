import FlowiVfs.HeldNames
import Mathlib.Data.Multiset.AddSub

/-!
# What a program owns and what it was lent

Some replies make things that the program owns from then on, until an operation takes them
away; others lend it things that somebody else owns. A program is checked against its text
alone: `Owns` follows what it owns as a multiset, so that every operation takes things that
were made and not taken yet, and no thing twice. `Needs` has what it may still come to use
or to end with.
-/
namespace FlowiVfs

structure Lending (E : Signature) (N : Type) where
  /-- The operations that a program may perform at all. -/
  may : E.Op → Prop
  uses : E.Op → Set N
  takes : E.Op → Multiset N
  makes : (op : E.Op) → E.Reply op → Multiset N
  lends : (op : E.Op) → E.Reply op → Set N

/-- What a program has to hold, and what it is given, to own or not. -/
def Lending.vocabulary {E : Signature} {N : Type} (v : Lending E N) : Vocabulary E N where
  names op := {n | n ∈ v.uses op ∨ n ∈ v.takes op}
  gives op r := {n | n ∈ v.lends op r ∨ n ∈ v.makes op r}

namespace Program

variable {E : Signature} {N A B : Type} (v : Lending E N)

/-- The program uses what it owns or knows, and gives away what it owns. -/
def Owns (post : Multiset N → Set N → A → Prop) : Multiset N → Set N → Program E A → Prop
  | O, K, .done a => post O K a
  | O, K, .perform op next =>
      v.may op ∧ (∀ n ∈ v.uses op, n ∈ O ∨ n ∈ K) ∧
        ∃ rest, O = v.takes op + rest ∧
          ∀ r, Owns post (v.makes op r + rest) (K ∪ v.lends op r) (next r)

/-- The program may use the thing, or end with it, without being given it again. -/
inductive Needs (v : Vocabulary E N) (ends : A → Set N) : Program E A → N → Prop
  | ended {a : A} {n : N} (named : n ∈ ends a) : Needs v ends (.done a) n
  | now {op : E.Op} {next : E.Reply op → Program E A} {n : N} (named : n ∈ v.names op) :
      Needs v ends (.perform op next) n
  | later {op : E.Op} {next : E.Reply op → Program E A} {n : N} (r : E.Reply op)
      (kept : n ∉ v.gives op r) (rest : Needs v ends (next r) n) :
      Needs v ends (.perform op next) n

theorem Needs.back {v : Vocabulary E N} {ends : A → Set N} {op : E.Op}
    {next : E.Reply op → Program E A} {r : E.Reply op} {n : N} (h : Needs v ends (next r) n) :
    n ∈ v.gives op r ∨ Needs v ends (.perform op next) n := by
  by_cases given : n ∈ v.gives op r
  · exact .inl given
  · exact .inr (.later r given h)

variable {v} {O : Multiset N} {K K' : Set N} {post mid : Multiset N → Set N → A → Prop}
  {post' : Multiset N → Set N → B → Prop} {p : Program E A} {f : A → Program E B} {n : N}

theorem Owns.needs {ends : A → Set N} (h : Owns v post O K p)
    (final : ∀ O K a, post O K a → ∀ n ∈ ends a, n ∈ O ∨ n ∈ K)
    (needs : Needs v.vocabulary ends p n) : n ∈ O ∨ n ∈ K := by
  induction needs generalizing O K with
  | ended named => exact final O K _ h _ named
  | now named =>
      obtain ⟨-, uses, rest, rfl, -⟩ := h
      rcases named with used | taken
      · exact uses _ used
      · exact .inl (Multiset.mem_add.mpr (.inl taken))
  | later r kept _ ih =>
      obtain ⟨-, -, rest, rfl, next⟩ := h
      rcases ih (next r) with owned | known
      · rcases Multiset.mem_add.mp owned with made | before
        · exact absurd (.inr made) kept
        · exact .inl (Multiset.mem_add.mpr (.inr before))
      · rcases known with before | lent
        · exact .inr before
        · exact absurd (.inl lent) kept

theorem Owns.weaken (h : Owns v mid O K p)
    (weaker : ∀ O' K' a, K ⊆ K' → mid O' K' a → post O' K' a) : Owns v post O K p := by
  induction p generalizing O K with
  | done a => exact weaker O K a (Set.Subset.refl K) h
  | perform op next ih =>
      obtain ⟨may, uses, rest, split, owns⟩ := h
      refine ⟨may, uses, rest, split, fun r => ih r (owns r) ?_⟩
      intro O' K' a sub hmid
      exact weaker O' K' a (Set.Subset.trans Set.subset_union_left sub) hmid

theorem Owns.bind (hp : Owns v mid O K p)
    (hf : ∀ O' K' a, K ⊆ K' → mid O' K' a → Owns v post' O' K' (f a)) :
    Owns v post' O K (p >>= f) := by
  induction p generalizing O K with
  | done a => exact hf O K a (Set.Subset.refl K) hp
  | perform op next ih =>
      obtain ⟨may, uses, rest, split, owns⟩ := hp
      refine ⟨may, uses, rest, split, fun r => ih r (owns r) ?_⟩
      intro O' K' a sub hmid
      exact hf O' K' a (Set.Subset.trans Set.subset_union_left sub) hmid

theorem Owns.ite {c : Prop} [Decidable c] {q : Program E A} (hp : Owns v post O K p)
    (hq : Owns v post O K q) : Owns v post O K (if c then p else q) := by
  split
  · exact hp
  · exact hq

/-- To know more does no harm. -/
theorem Owns.mono (h : Owns v post O K p) (more : K ⊆ K')
    (grows : ∀ O₁ K₁ K₂ a, K₁ ⊆ K₂ → post O₁ K₁ a → post O₁ K₂ a) : Owns v post O K' p := by
  induction p generalizing O K K' with
  | done a => exact grows O K K' a more h
  | perform op next ih =>
      obtain ⟨may, uses, rest, split, owns⟩ := h
      refine ⟨may, fun n hn => (uses n hn).imp_right (@more n), rest, split, fun r => ?_⟩
      exact ih r (owns r) (Set.union_subset_union_left _ more)

/-- Calls that neither take nor make anything. -/
theorem owns_call {op : E.Op} (may : v.may op) (uses : ∀ n ∈ v.uses op, n ∈ O ∨ n ∈ K)
    (kept : v.takes op = 0) (unmade : ∀ r, v.makes op r = 0) :
    Owns v (fun O' K' r => O' = O ∧ v.lends op r ⊆ K') O K (call op) := by
  refine ⟨may, uses, O, ?_, fun r => ⟨?_, Set.subset_union_right⟩⟩
  · rw [kept, Multiset.zero_add]
  · rw [unmade r, Multiset.zero_add]

end Program
end FlowiVfs
