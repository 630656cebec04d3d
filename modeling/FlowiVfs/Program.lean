import FlowiVfs.Transition
import Mathlib.Control.Basic
import Mathlib.Data.List.Basic

/-!
# Programs over a set of operations

A program either returns or performs one operation and continues with its reply.
The operations stand for everything a piece of code does to the world around it:
calls of foreign code, locked sections on shared data, single accesses of shared
memory. The same program is read in two ways.

* `execute` runs it alone against a handler, which is its sequential meaning.
* `Pool` holds a shared state and any number of programs in progress; `advance`
  performs the next operation of one of them, so a run of the pool is an
  interleaving at the granularity of operations.

`Pool.alone` connects the two: a thread that is scheduled without interruption
ends in the result and the state that `execute` computes.
-/
namespace FlowiVfs

/-- Operations together with the type of each one's reply. -/
structure Signature where
  Op : Type
  Reply : Op → Type

inductive Program (E : Signature) (A : Type) : Type
  | done (a : A)
  | perform (op : E.Op) (next : E.Reply op → Program E A)

namespace Program

variable {E : Signature} {A B C S : Type}

def bind : Program E A → (A → Program E B) → Program E B
  | .done a, f => f a
  | .perform op next, f => .perform op (fun r => (next r).bind f)

instance : Monad (Program E) where
  pure := .done
  bind := bind

/-- The program that performs one operation and returns its reply. -/
def call (op : E.Op) : Program E (E.Reply op) := .perform op .done

@[simp] theorem pure_eq (a : A) : (pure a : Program E A) = .done a := rfl

@[simp] theorem done_bind (a : A) (f : A → Program E B) : (Program.done a >>= f) = f a := rfl

@[simp] theorem perform_bind (op : E.Op) (next : E.Reply op → Program E A)
    (f : A → Program E B) :
    (Program.perform op next >>= f) = .perform op (fun r => next r >>= f) := rfl

@[simp] theorem call_bind (op : E.Op) (f : E.Reply op → Program E B) :
    (call op >>= f) = .perform op f := rfl

theorem bind_assoc (p : Program E A) (f : A → Program E B) (g : B → Program E C) :
    ((p >>= f) >>= g) = (p >>= fun a => f a >>= g) := by
  induction p with
  | done a => rfl
  | perform op next ih =>
      simp only [perform_bind]
      congr 1
      funext r
      exact ih r

/-- What a handler does with one operation: it replies and updates the state. -/
abbrev Handler (E : Signature) (S : Type) := (op : E.Op) → S → E.Reply op × S

/-- The sequential meaning of a program. -/
def execute (handle : Handler E S) : Program E A → S → A × S
  | .done a, s => (a, s)
  | .perform op next, s => execute handle (next (handle op s).1) (handle op s).2

variable (handle : Handler E S)

@[simp] theorem execute_done (a : A) (s : S) :
    execute handle (.done a : Program E A) s = (a, s) := rfl

@[simp] theorem execute_perform (op : E.Op) (next : E.Reply op → Program E A) (s : S) :
    execute handle (.perform op next) s = execute handle (next (handle op s).1) (handle op s).2 :=
  rfl

@[simp] theorem execute_call (op : E.Op) (s : S) : execute handle (call op) s = handle op s := rfl

@[simp] theorem execute_bind (p : Program E A) (f : A → Program E B) (s : S) :
    execute handle (p >>= f) s =
      execute handle (f (execute handle p s).1) (execute handle p s).2 := by
  induction p generalizing s with
  | done a => rfl
  | perform op next ih => simp only [perform_bind, execute_perform, ih]

end Program

/-- Programs in progress over one shared state. -/
structure Pool (E : Signature) (S A : Type) where
  shared : S
  threads : List (Program E A)

namespace Pool

variable {E : Signature} {A S : Type}

/-- Perform the next operation of thread `w`; not enabled once it has returned. -/
def advance (handle : Program.Handler E S) (q : Pool E S A) (w : ℕ) : Option (Pool E S A) :=
  match q.threads[w]? with
  | some (.perform op next) =>
      some ⟨(handle op q.shared).2, q.threads.set w (next (handle op q.shared).1)⟩
  | _ => none

/-- A thread that runs without interruption computes what `execute` says. -/
theorem alone (handle : Program.Handler E S) (q : Pool E S A) (w : ℕ) (p : Program E A)
    (h : q.threads[w]? = some p) :
    Transition.Reaches (advance handle) (fun _ v => v = w) q
      ⟨(p.execute handle q.shared).2,
        q.threads.set w (.done (p.execute handle q.shared).1)⟩ := by
  induction p generalizing q with
  | done a =>
      have hset : q.threads.set w (.done a) = q.threads := by
        obtain ⟨hw, he⟩ := List.getElem?_eq_some_iff.mp h
        rw [← he, List.set_getElem_self]
      simp only [Program.execute_done, hset]
      exact .start
  | perform op next ih =>
      have hw : w < q.threads.length := (List.getElem?_eq_some_iff.mp h).1
      have taken : advance handle q w = some ⟨(handle op q.shared).2,
          q.threads.set w (next (handle op q.shared).1)⟩ := by
        simp only [advance, h]
      have first : Transition.Reaches (advance handle) (fun _ v => v = w) q
          ⟨(handle op q.shared).2, q.threads.set w (next (handle op q.shared).1)⟩ :=
        .step w .start rfl taken
      have rest := ih (handle op q.shared).1
        ⟨(handle op q.shared).2, q.threads.set w (next (handle op q.shared).1)⟩
        (by simp [hw])
      simp only [List.set_set] at rest
      exact first.trans rest

end Pool
end FlowiVfs
