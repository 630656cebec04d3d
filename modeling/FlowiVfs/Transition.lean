import Mathlib.Tactic.SplitIfs

/-!
# Guarded runs of a partial step function

A machine is a partial function from a state and an action to the next state:
`none` says that the action is not enabled. `Reaches step ok` relates two states
when some sequence of enabled actions leads from one to the other and each of
them satisfied `ok` in the state it was taken in. Assumptions on the environment
of a machine are stated as such an `ok`, so a safety property is proved by one
induction: it holds initially, and every step that satisfies `ok` keeps it.

`replay` evaluates a concrete run. It is how a particular run is exhibited.
-/
namespace FlowiVfs.Transition

variable {S A : Type}

/-- The states that runs of `step` from `s` end in, every step meeting `ok`. -/
inductive Reaches (step : S → A → Option S) (ok : S → A → Prop) (s : S) : S → Prop
  | start : Reaches step ok s s
  | step {t u : S} (a : A) (run : Reaches step ok s t) (meets : ok t a)
      (taken : step t a = some u) : Reaches step ok s u

variable {step : S → A → Option S} {ok ok' : S → A → Prop} {s t u : S}

theorem Reaches.trans (h₁ : Reaches step ok s t) (h₂ : Reaches step ok t u) :
    Reaches step ok s u := by
  induction h₂ with
  | start => exact h₁
  | step a _ meets taken ih => exact .step a ih meets taken

/-- The run rule: a property that holds initially and is kept by every step that
meets the guard holds in every state reached. -/
theorem Reaches.invariant {P : S → Prop} (h : Reaches step ok s t) (hs : P s)
    (keeps : ∀ t a u, P t → ok t a → step t a = some u → P u) : P t := by
  induction h with
  | start => exact hs
  | step a _ meets taken ih => exact keeps _ a _ ih meets taken

/-- The run rule on top of an invariant that is already known. -/
theorem Reaches.invariant_of {I P : S → Prop} (h : Reaches step ok s t)
    (known : ∀ t, Reaches step ok s t → I t) (hs : P s)
    (keeps : ∀ t a u, I t → I u → P t → ok t a → step t a = some u → P u) : P t := by
  induction h with
  | start => exact hs
  | step a run meets taken ih =>
      exact keeps _ a _ (known _ run) (known _ (.step a run meets taken)) ih meets taken

theorem Reaches.mono (h : Reaches step ok s t) (weaker : ∀ s a, ok s a → ok' s a) :
    Reaches step ok' s t := by
  induction h with
  | start => exact .start
  | step a _ meets taken ih => exact .step a ih (weaker _ _ meets) taken

/-- A guard that follows from another one where an invariant holds. -/
theorem Reaches.strengthen {I : S → Prop} (h : Reaches step ok s t) (hs : I s)
    (stronger : ∀ t a u, I t → ok t a → step t a = some u → ok' t a)
    (keeps : ∀ t a u, I t → ok t a → step t a = some u → I u) : Reaches step ok' s t := by
  induction h with
  | start => exact .start
  | step a run meets taken ih =>
      exact .step a ih (stronger _ a _ (run.invariant hs keeps) meets taken) taken

/-- The simulation rule: where every step of one machine is matched by a run of the other, so is
every run. -/
theorem Reaches.simulate {S' A' : Type} {step' : S' → A' → Option S'} {ok' : S' → A' → Prop}
    {R : S → S' → Prop} {s' : S'} (h : Reaches step ok s t) (hs : R s s')
    (follows : ∀ t a u t', R t t' → ok t a → step t a = some u →
      ∃ u', Reaches step' ok' t' u' ∧ R u u') : ∃ t', Reaches step' ok' s' t' ∧ R t t' := by
  induction h with
  | start => exact ⟨s', .start, hs⟩
  | step a _ meets taken ih =>
      obtain ⟨t', hrun, ht⟩ := ih
      obtain ⟨u', hrest, hu⟩ := follows _ a _ t' ht meets taken
      exact ⟨u', hrun.trans hrest, hu⟩

/-- Perform a list of actions, checking the guard of each one. -/
def replay (step : S → A → Option S) (ok : S → A → Prop) [∀ s a, Decidable (ok s a)] :
    List A → S → Option S
  | [], s => some s
  | a :: as, s => if ok s a then (step s a).bind (replay step ok as) else none

theorem replay_reaches [∀ s a, Decidable (ok s a)] (as : List A)
    (h : replay step ok as s = some t) : Reaches step ok s t := by
  induction as generalizing s with
  | nil =>
      simp only [replay, Option.some.injEq] at h
      exact h ▸ .start
  | cons a as ih =>
      simp only [replay] at h
      split_ifs at h with hok
      obtain ⟨v, hv, hrest⟩ := Option.bind_eq_some_iff.mp h
      exact (Reaches.step a .start hok hv).trans (ih hrest)

end FlowiVfs.Transition
