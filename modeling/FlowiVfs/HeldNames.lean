import FlowiVfs.ProgramLogic
import Mathlib.Data.Set.Basic

/-!
# What a program still holds

Some operations name things, pointers for instance, and some replies give them. A program
holds a thing as long as it may name it without being given it again. So the things that a
program in progress depends on are said from its text alone, without a list of its variables.

`Knows K post p` is the rule to find them: the program names only what is in `K` or what it
was given on the way, and it returns with what it knows in `post`.
-/
namespace FlowiVfs

structure Vocabulary (E : Signature) (N : Type) where
  names : E.Op → Set N
  gives : (op : E.Op) → E.Reply op → Set N

namespace Program

variable {E : Signature} {N A B : Type} (v : Vocabulary E N)

inductive Holds : Program E A → N → Prop
  | now {op : E.Op} {next : E.Reply op → Program E A} {n : N} (named : n ∈ v.names op) :
      Holds (.perform op next) n
  | later {op : E.Op} {next : E.Reply op → Program E A} {n : N} (r : E.Reply op)
      (kept : n ∉ v.gives op r) (rest : Holds (next r) n) : Holds (.perform op next) n

def Knows (post : Set N → A → Prop) : Set N → Program E A → Prop
  | K, .done a => post K a
  | K, .perform op next => v.names op ⊆ K ∧ ∀ r, Knows post (K ∪ v.gives op r) (next r)

variable {v} {K K' : Set N} {post mid : Set N → A → Prop} {post' : Set N → B → Prop}
  {p : Program E A} {f : A → Program E B} {n : N}

theorem not_holds_done {a : A} : ¬ Holds v (.done a : Program E A) n := by
  intro h
  cases h

/-- What is held behind a reply was held before, or came with it. -/
theorem Holds.back {op : E.Op} {next : E.Reply op → Program E A} {r : E.Reply op}
    (h : Holds v (next r) n) : n ∈ v.gives op r ∨ Holds v (.perform op next) n := by
  by_cases given : n ∈ v.gives op r
  · exact .inl given
  · exact .inr (.later r given h)

theorem Knows.holds (h : Knows v post K p) (holds : Holds v p n) : n ∈ K := by
  induction holds generalizing K with
  | now named => exact h.1 named
  | later r kept _ ih =>
      rcases ih (h.2 r) with known | given
      · exact known
      · exact absurd given kept

theorem Knows.bind (hp : Knows v mid K p)
    (hf : ∀ K' a, K ⊆ K' → mid K' a → Knows v post' K' (f a)) : Knows v post' K (p >>= f) := by
  induction p generalizing K with
  | done a => exact hf K a (Set.Subset.refl K) hp
  | perform op next ih =>
      refine ⟨hp.1, fun r => ih r (hp.2 r) ?_⟩
      intro K' a sub hmid
      exact hf K' a (Set.Subset.trans Set.subset_union_left sub) hmid

theorem Knows.ite {c : Prop} [Decidable c] {q : Program E A} (hp : Knows v post K p)
    (hq : Knows v post K q) : Knows v post K (if c then p else q) := by
  split
  · exact hp
  · exact hq

/-- A reply that gives nothing new. -/
theorem Knows.reply {op : E.Op} {next : E.Reply op → Program E A} {r : E.Reply op}
    (h : Knows v post K (.perform op next)) (given : v.gives op r ⊆ K) :
    Knows v post K (next r) := by
  have known : Knows v post (K ∪ v.gives op r) (next r) := h.2 r
  rwa [Set.union_eq_left.mpr given] at known

/-- Operations that name nothing. -/
theorem knows_of_only (h : Only (fun op => v.names op = ∅) p) :
    Knows v (fun _ _ => True) K p := by
  induction p generalizing K with
  | done a => trivial
  | perform op next ih =>
      refine ⟨?_, fun r => ih r (h.2 r)⟩
      rw [h.1]
      exact Set.empty_subset K

end Program
end FlowiVfs
