import FlowiVfs.Program
import Mathlib.Logic.Relation

/-!
# What a run of a program can do

`execute` answers the operations of a program by a function. Here they are answered
by an environment that may choose: it relates the state before an operation, the
reply, and the state after it. `Run` collects the complete runs of a program in an
environment. Interference of other activities is part of the environment: they may
change the state before each operation.

The inversion lemmas `run_done`, `run_perform` and `run_bind` take a run apart along
the text of its program, so a fact about a program is proved from one fact about each
of its parts.
-/
namespace FlowiVfs

/-- How operations may be answered, and what each answer does to the state. -/
abbrev Environment (E : Signature) (S : Type) :=
  S → (op : E.Op) → E.Reply op → S → Prop

namespace Environment

variable {E : Signature} {S : Type}

/-- The same environment, with other activities in front of every operation. -/
def between (drift : S → S → Prop) (env : Environment E S) : Environment E S :=
  fun s op r t => ∃ u, drift s u ∧ env u op r t

/-- The same environment, with a record of what each operation and its reply tell. -/
def noting {L : Type} (env : Environment E S) (note : (op : E.Op) → E.Reply op → List L) :
    Environment E (S × List L) :=
  fun s op r t => env s.1 op r t.1 ∧ t.2 = s.2 ++ note op r

end Environment

namespace Program

variable {E : Signature} {A B S : Type}

/-- The complete runs of a program: where it started, its result, where it ended. -/
inductive Run (env : Environment E S) : Program E A → S → A → S → Prop
  | done (a : A) (s : S) : Run env (.done a) s a s
  | perform {op : E.Op} {next : E.Reply op → Program E A} {s u t : S} {r : E.Reply op}
      {a : A} (answer : env s op r u) (rest : Run env (next r) u a t) :
      Run env (.perform op next) s a t

variable {env : Environment E S} {s t : S} {a : A} {b : B}

@[simp] theorem run_done {c : A} : Run env (.done c) s a t ↔ a = c ∧ t = s := by
  constructor
  · intro h
    cases h
    exact ⟨rfl, rfl⟩
  · rintro ⟨rfl, rfl⟩
    exact .done a t

@[simp] theorem run_perform {op : E.Op} {next : E.Reply op → Program E A} :
    Run env (.perform op next) s a t ↔ ∃ r u, env s op r u ∧ Run env (next r) u a t := by
  constructor
  · intro h
    cases h with
    | perform answer rest => exact ⟨_, _, answer, rest⟩
  · rintro ⟨r, u, answer, rest⟩
    exact .perform answer rest

theorem run_call {op : E.Op} {r : E.Reply op} :
    Run env (call op) s r t ↔ env s op r t := by
  simp [call]

@[simp] theorem run_bind {p : Program E A} {f : A → Program E B} :
    Run env (p >>= f) s b t ↔ ∃ a u, Run env p s a u ∧ Run env (f a) u b t := by
  induction p generalizing s with
  | done c => simp
  | perform op next ih =>
      simp only [perform_bind, run_perform, ih]
      constructor
      · rintro ⟨r, u, answer, a, v, first, rest⟩
        exact ⟨a, v, ⟨r, u, answer, first⟩, rest⟩
      · rintro ⟨a, v, ⟨r, u, answer, first⟩, rest⟩
        exact ⟨r, u, answer, a, v, first, rest⟩

/-- The run rule: what every answer keeps, every run keeps. -/
theorem Run.keeps {p : Program E A} {I : S → Prop} (run : Run env p s a t)
    (step : ∀ u op r v, I u → env u op r v → I v) (hs : I s) : I t := by
  induction run with
  | done => exact hs
  | perform answer _ ih => exact ih (step _ _ _ _ hs answer)

/-- The run rule for a relation that composes. -/
theorem Run.relates {p : Program E A} {R : S → S → Prop} (run : Run env p s a t)
    (refl : ∀ u, R u u) (trans : ∀ u v w, R u v → R v w → R u w)
    (step : ∀ u op r v, env u op r v → R u v) : R s t := by
  induction run with
  | done => exact refl _
  | perform answer _ ih => exact trans _ _ _ (step _ _ _ _ answer) ih

/-- A handler that always answers as the environment allows exhibits a run. -/
theorem run_execute {handle : Handler E S} {p : Program E A}
    (allowed : ∀ u op, env u op (handle op u).1 (handle op u).2) :
    Run env p s (execute handle p s).1 (execute handle p s).2 := by
  induction p generalizing s with
  | done c => exact .done c s
  | perform op next ih => exact .perform (allowed s op) (ih _)

/-- The execution in which a handler that may fail answers every operation. -/
def replay (handle : (op : E.Op) → S → Option (E.Reply op × S)) :
    Program E A → S → Option (A × S)
  | .done a, s => some (a, s)
  | .perform op next, s => (handle op s).bind fun answer => replay handle (next answer.1) answer.2

theorem run_replay {handle : (op : E.Op) → S → Option (E.Reply op × S)} {p : Program E A}
    (allowed : ∀ u op r v, handle op u = some (r, v) → env u op r v)
    (h : replay handle p s = some (a, t)) : Run env p s a t := by
  induction p generalizing s with
  | done c =>
      cases h
      exact .done _ _
  | perform op next ih =>
      obtain ⟨answer, handled, rest⟩ := Option.bind_eq_some_iff.mp h
      exact .perform (allowed _ _ _ _ handled) (ih _ rest)

/-! ## The operations of a program -/

/-- Whatever the replies, the program only performs operations that satisfy `φ`. -/
def Only (φ : E.Op → Prop) : Program E A → Prop
  | .done _ => True
  | .perform op next => φ op ∧ ∀ r, Only φ (next r)

variable {φ ψ : E.Op → Prop}

@[simp] theorem only_done (a : A) : Only φ (.done a : Program E A) := trivial

theorem only_call {op : E.Op} (h : φ op) : Only φ (call op) := ⟨h, fun _ => trivial⟩

theorem Only.bind {p : Program E A} {f : A → Program E B} (hp : Only φ p)
    (hf : ∀ a, Only φ (f a)) : Only φ (p >>= f) := by
  induction p with
  | done a => exact hf a
  | perform op next ih => exact ⟨hp.1, fun r => ih r (hp.2 r)⟩

theorem Only.mono {p : Program E A} (hp : Only φ p) (imp : ∀ op, φ op → ψ op) : Only ψ p := by
  induction p with
  | done a => trivial
  | perform op next ih => exact ⟨imp op hp.1, fun r => ih r (hp.2 r)⟩

/-- The run rule for a program of few operations. -/
theorem Only.keeps {p : Program E A} {I : S → Prop} (only : Only φ p) (run : Run env p s a t)
    (step : ∀ u op r v, φ op → I u → env u op r v → I v) (hs : I s) : I t := by
  induction run with
  | done => exact hs
  | perform answer _ ih => exact ih (only.2 _) (step _ _ _ _ only.1 hs answer)

section
variable {L : Type} {note : (op : E.Op) → E.Reply op → List L} {p : Program E A}

/-- A record changes nothing of what a run does. -/
theorem Run.unnoted {s t : S × List L} (run : Run (env.noting note) p s a t) :
    Run env p s.1 a t.1 := by
  induction run with
  | done => exact .done _ _
  | perform answer _ ih => exact .perform answer.1 ih

/-- The handler that keeps a record. -/
def recording (note : (op : E.Op) → E.Reply op → List L)
    (handle : (op : E.Op) → S → Option (E.Reply op × S)) (op : E.Op) (s : S × List L) :
    Option (E.Reply op × S × List L) :=
  (handle op s.1).map fun answer => (answer.1, answer.2, s.2 ++ note op answer.1)

theorem recording_allowed {handle : (op : E.Op) → S → Option (E.Reply op × S)}
    (allowed : ∀ u op r v, handle op u = some (r, v) → env u op r v) (s : S × List L) (op : E.Op)
    (r : E.Reply op) (t : S × List L) (h : recording note handle op s = some (r, t)) :
    env.noting note s op r t := by
  obtain ⟨answer, handled, same⟩ := Option.map_eq_some_iff.mp h
  cases same
  exact ⟨allowed _ _ _ _ handled, rfl⟩

/-- Operations that tell nothing leave the record alone. -/
theorem Only.unrecorded {s t : S × List L} (only : Only φ p)
    (silent : ∀ op r, φ op → note op r = []) (run : Run (env.noting note) p s a t) :
    t.2 = s.2 := by
  apply only.keeps run (I := fun u => u.2 = s.2) ?_ rfl
  intro u op r v allowed same answer
  rw [answer.2, silent op r allowed, List.append_nil]
  exact same

end

/-- Some calls that satisfy `φ`, one after the other. -/
def Calls (env : Environment E S) (φ : E.Op → Prop) : S → S → Prop :=
  Relation.ReflTransGen fun s t => ∃ op r, φ op ∧ env s op r t

theorem Only.calls {p : Program E A} (only : Only φ p) (run : Run env p s a t) :
    Calls env φ s t := by
  induction run with
  | done => exact .refl
  | perform answer _ ih => exact .head ⟨_, _, only.1, answer⟩ (ih (only.2 _))

theorem Run.calls {p : Program E A} (run : Run env p s a t) : Calls env (fun _ => True) s t := by
  induction run with
  | done => exact .refl
  | perform answer _ ih => exact .head ⟨_, _, trivial, answer⟩ ih

theorem Calls.keeps {I : S → Prop} (calls : Calls env φ s t)
    (step : ∀ u op r v, φ op → I u → env u op r v → I v) (hs : I s) : I t := by
  induction calls with
  | refl => exact hs
  | tail _ last ih =>
      obtain ⟨op, r, allowed, answer⟩ := last
      exact step _ op r _ allowed ih answer

theorem Only.ite {c : Prop} [Decidable c] {p q : Program E A} (hp : Only φ p) (hq : Only φ q) :
    Only φ (if c then p else q) := by
  split_ifs
  · exact hp
  · exact hq

/-- Whatever the replies, the result satisfies `φ`. -/
def Returns (φ : A → Prop) : Program E A → Prop
  | .done a => φ a
  | .perform _ next => ∀ r, Returns φ (next r)

theorem Returns.run {φ : A → Prop} {p : Program E A} (h : Returns φ p) (run : Run env p s a t) :
    φ a := by
  induction run with
  | done => exact h
  | perform _ _ ih => exact ih (h _)

theorem Returns.bind {φ : B → Prop} {p : Program E A} {f : A → Program E B}
    (hf : ∀ a, Returns φ (f a)) : Returns φ (p >>= f) := by
  induction p with
  | done a => exact hf a
  | perform op next ih => exact fun r => ih r

/-- The same, where the first program says something about what it hands on. -/
theorem Returns.andThen {φ : A → Prop} {ψ : B → Prop} {p : Program E A} {f : A → Program E B}
    (hp : Returns φ p) (hf : ∀ a, φ a → Returns ψ (f a)) : Returns ψ (p >>= f) := by
  induction p with
  | done a => exact hf a hp
  | perform op next ih => exact fun r => ih r (hp r)

theorem Returns.ite {φ : A → Prop} {c : Prop} [Decidable c] {p q : Program E A}
    (hp : Returns φ p) (hq : Returns φ q) : Returns φ (if c then p else q) := by
  split_ifs
  · exact hp
  · exact hq

/-- The operations of a program behind another one, with what that one hands on. -/
theorem Only.andThen {χ : A → Prop} {p : Program E A} {f : A → Program E B} (hp : Only φ p)
    (hr : Returns χ p) (hf : ∀ a, χ a → Only φ (f a)) : Only φ (p >>= f) := by
  induction p with
  | done a => exact hf a hr
  | perform op next ih => exact ⟨hp.1, fun r => ih r (hp.2 r) (hr r)⟩

/-- Whatever the replies, the program performs at most so many operations that satisfy `φ`. -/
def AtMost (φ : E.Op → Prop) : Program E A → ℕ → Prop
  | .done _, _ => True
  | .perform op next, n =>
      (¬ φ op ∧ ∀ r, AtMost φ (next r) n) ∨ ∃ m, n = m + 1 ∧ ∀ r, AtMost φ (next r) m

theorem atMost_of_only {p : Program E A} {n : ℕ} (hp : Only (fun op => ¬ φ op) p) :
    AtMost φ p n := by
  induction p with
  | done a => trivial
  | perform op next ih => exact .inl ⟨hp.1, fun r => ih r (hp.2 r)⟩

theorem AtMost.weaken {p : Program E A} {n : ℕ} (hp : AtMost φ p n) (k : ℕ) :
    AtMost φ p (k + n) := by
  induction p generalizing n with
  | done a => trivial
  | perform op next ih =>
      rcases hp with ⟨no, rest⟩ | ⟨m, rfl, rest⟩
      · exact .inl ⟨no, fun r => ih r (rest r)⟩
      · exact .inr ⟨k + m, by omega, fun r => ih r (rest r)⟩

theorem AtMost.andThen {χ : A → Prop} {p : Program E A} {f : A → Program E B} {k m n : ℕ}
    (hp : AtMost φ p m) (hr : Returns χ p) (hf : ∀ a, χ a → AtMost φ (f a) n) (hk : k = m + n) :
    AtMost φ (p >>= f) k := by
  subst hk
  induction p generalizing m with
  | done a => exact (hf a hr).weaken m
  | perform op next ih =>
      rcases hp with ⟨no, rest⟩ | ⟨k, rfl, rest⟩
      · exact .inl ⟨no, fun r => ih r (rest r) (hr r)⟩
      · exact .inr ⟨k + n, by omega, fun r => ih r (rest r) (hr r)⟩

theorem AtMost.ite {c : Prop} [Decidable c] {p q : Program E A} {n : ℕ} (hp : AtMost φ p n)
    (hq : AtMost φ q n) : AtMost φ (if c then p else q) n := by
  split_ifs
  · exact hp
  · exact hq

end Program
end FlowiVfs
