import Mathlib.Data.List.Basic
import Mathlib.Data.List.Infix

/-!
# Readers that deliver a sequence in order

A reader is asked for at most `n` elements of what it has before it, and delivers some of
them or fails. `InOrder` bounds everything a reader may still deliver by one sequence, so
that what was delivered so far, in one piece, is always a prefix of it. `fill` asks again
until it has `n` elements; if it fails on the way, what it had is lost.
-/
namespace FlowiVfs.Ordered

variable {R A : Type}

/-- The answer, and the reader afterwards. -/
abbrev Read (R A : Type) := R → ℕ → Option (List A) × R

/-- What a reader delivers, and what it may deliver later, is `remaining`, or less of it. -/
structure InOrder (read : Read R A) (remaining : R → List A) : Prop where
  fits : ∀ r n chunk, (read r n).1 = some chunk → chunk.length ≤ n
  delivers : ∀ r n, (read r n).1.getD [] ++ remaining (read r n).2 <+: remaining r

/-- Read until there are `n` elements, or until nothing is delivered. As every round takes
one element at least, `n` rounds are enough. -/
def fillFrom (read : Read R A) : ℕ → R → ℕ → Option (List A) × R
  | 0, r, _ => (some [], r)
  | fuel + 1, r, n =>
      if n = 0 then (some [], r)
      else
        match read r n with
        | (none, r') => (none, r')
        | (some chunk, r') =>
            if chunk = [] then (some [], r')
            else
              let rest := fillFrom read fuel r' (n - chunk.length)
              (rest.1.map (chunk ++ ·), rest.2)

def fill (read : Read R A) (r : R) (n : ℕ) : Option (List A) × R := fillFrom read n r n

/-- A reader fails after it has delivered something of the `n` elements. -/
inductive Interrupted (read : Read R A) : R → ℕ → Prop
  | next {r r' : R} {n : ℕ} {chunk : List A} (delivered : read r n = (some chunk, r'))
      (some : chunk ≠ []) (more : chunk.length < n)
      (fails : (read r' (n - chunk.length)).1 = none) : Interrupted read r n
  | later {r r' : R} {n : ℕ} {chunk : List A} (delivered : read r n = (some chunk, r'))
      (some : chunk ≠ []) (more : chunk.length < n)
      (rest : Interrupted read r' (n - chunk.length)) : Interrupted read r n

section

variable {read : Read R A} {remaining : R → List A} {r r' : R} {n fuel : ℕ} {chunk : List A}

theorem InOrder.of_some (h : InOrder read remaining) (hr : read r n = (some chunk, r')) :
    chunk.length ≤ n ∧ chunk ++ remaining r' <+: remaining r := by
  have hfits := h.fits r n chunk (by rw [hr])
  have hdelivers := h.delivers r n
  rw [hr] at hdelivers
  exact ⟨hfits, hdelivers⟩

theorem InOrder.of_none (h : InOrder read remaining) (hr : read r n = (none, r')) :
    remaining r' <+: remaining r := by
  have hdelivers := h.delivers r n
  rw [hr] at hdelivers
  exact hdelivers

/-- More rounds than there are elements make no difference. -/
theorem fillFrom_fuel {fuel' : ℕ} (hn : n ≤ fuel) (hn' : n ≤ fuel') :
    fillFrom read fuel r n = fillFrom read fuel' r n := by
  induction fuel generalizing fuel' n r with
  | zero =>
      have hzero : n = 0 := Nat.le_zero.mp hn
      subst hzero
      cases fuel' <;> simp [fillFrom]
  | succ fuel ih =>
      cases fuel' with
      | zero =>
          have hzero : n = 0 := Nat.le_zero.mp hn'
          subst hzero
          simp [fillFrom]
      | succ fuel' =>
          simp only [fillFrom]
          split
          · rfl
          · cases hr : read r n with
            | mk answer r' =>
              cases answer with
              | none => rfl
              | some chunk =>
                  simp only
                  split
                  · rfl
                  · rename_i hne
                    have hpos := List.length_pos_iff.mpr hne
                    have hsame : fillFrom read fuel r' (n - chunk.length) =
                        fillFrom read fuel' r' (n - chunk.length) := ih (by omega) (by omega)
                    rw [hsame]

/-- The rounds never run out. -/
theorem fill_eq (hn : n ≠ 0) (hr : read r n = (some chunk, r')) (hne : chunk ≠ []) :
    fill read r n = ((fill read r' (n - chunk.length)).1.map (chunk ++ ·),
      (fill read r' (n - chunk.length)).2) := by
  obtain ⟨fuel, rfl⟩ := Nat.exists_eq_succ_of_ne_zero hn
  have hpos := List.length_pos_iff.mpr hne
  simp only [fill, fillFrom, if_neg hn, hr, if_neg hne]
  have hfuel : fillFrom read fuel r' (fuel.succ - chunk.length) =
      fillFrom read (fuel.succ - chunk.length) r' (fuel.succ - chunk.length) :=
    fillFrom_fuel (by omega) le_rfl
  rw [hfuel]

theorem fill_zero : fill read r 0 = (some [], r) := rfl

theorem fill_fails (hn : n ≠ 0) (hr : read r n = (none, r')) : fill read r n = (none, r') := by
  obtain ⟨fuel, rfl⟩ := Nat.exists_eq_succ_of_ne_zero hn
  simp only [fill, fillFrom, if_neg hn, hr]

theorem fill_ends (hn : n ≠ 0) (hr : read r n = (some [], r')) :
    fill read r n = (some [], r') := by
  obtain ⟨fuel, rfl⟩ := Nat.exists_eq_succ_of_ne_zero hn
  simp only [fill, fillFrom, if_neg hn, hr, if_true]

/-- What a `fill` returns is in order too. -/
theorem fill_delivers (h : InOrder read remaining) (hr : fill read r n = (some chunk, r')) :
    chunk.length ≤ n ∧ chunk ++ remaining r' <+: remaining r := by
  induction n using Nat.strong_induction_on generalizing r chunk with
  | h n ih =>
    by_cases hn : n = 0
    · subst hn
      cases hr
      exact ⟨Nat.zero_le 0, List.prefix_rfl⟩
    cases hread : read r n with
    | mk answer r₁ =>
      cases answer with
      | none =>
          rw [fill_fails hn hread] at hr
          cases hr
      | some first =>
          obtain ⟨hfits, hprefix⟩ := h.of_some hread
          by_cases hne : first = []
          · subst hne
            rw [fill_ends hn hread] at hr
            cases hr
            exact ⟨Nat.zero_le n, hprefix⟩
          · rw [fill_eq hn hread hne] at hr
            have hpos := List.length_pos_iff.mpr hne
            cases hrest : fill read r₁ (n - first.length) with
            | mk rest r₂ =>
              rw [hrest] at hr
              cases rest with
              | none => cases hr
              | some rest =>
                  cases hr
                  obtain ⟨hrestFits, hrestPrefix⟩ := ih _ (by omega) hrest
                  refine ⟨?_, ?_⟩
                  · rw [List.length_append]
                    omega
                  · rw [List.append_assoc]
                    exact ((List.prefix_append_right_inj first).mpr hrestPrefix).trans hprefix

/-- A `fill` fails on its first read, or after it has delivered something. -/
theorem fill_none (h : InOrder read remaining) (hr : fill read r n = (none, r')) :
    read r n = (none, r') ∨ Interrupted read r n := by
  induction n using Nat.strong_induction_on generalizing r with
  | h n ih =>
    by_cases hn : n = 0
    · subst hn
      cases hr
    cases hread : read r n with
    | mk answer r₁ =>
      cases answer with
      | none =>
          rw [fill_fails hn hread] at hr
          cases hr
          exact .inl rfl
      | some first =>
          right
          by_cases hne : first = []
          · subst hne
            rw [fill_ends hn hread] at hr
            cases hr
          · rw [fill_eq hn hread hne] at hr
            have hpos := List.length_pos_iff.mpr hne
            have hfits := (h.of_some hread).1
            cases hrest : fill read r₁ (n - first.length) with
            | mk rest r₂ =>
              rw [hrest] at hr
              cases rest with
              | some rest => cases hr
              | none =>
                  cases hr
                  have hmore : first.length < n := by
                    apply Nat.lt_of_le_of_ne hfits
                    intro he
                    rw [he, Nat.sub_self, fill_zero] at hrest
                    cases hrest
                  rcases ih (n - first.length) (by omega) hrest with hfails | hlater
                  · exact .next hread hne hmore (by rw [hfails])
                  · exact .later hread hne hmore hlater

/-- Unless it is interrupted a `fill` keeps the order, as one read does. -/
theorem fill_ordered (h : InOrder read remaining) (hwhole : ¬ Interrupted read r n) :
    (fill read r n).1.getD [] ++ remaining (fill read r n).2 <+: remaining r := by
  cases hr : fill read r n with
  | mk answer r' =>
    cases answer with
    | some chunk => exact (fill_delivers h hr).2
    | none =>
        rcases fill_none h hr with hfails | hlost
        · exact h.of_none hfails
        · exact absurd hlost hwhole

/-- What a `fill` returns starts what was before the reader, interrupted or not. -/
theorem fill_starts (h : InOrder read remaining) (r : R) (n : ℕ) :
    (fill read r n).1.getD [] <+: remaining r := by
  cases hr : fill read r n with
  | mk answer r' =>
    cases answer with
    | some chunk => exact (List.prefix_append _ _).trans (fill_delivers h hr).2
    | none => exact List.nil_prefix

end
end FlowiVfs.Ordered
