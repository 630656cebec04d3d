import FlowiVfs.ProgramLogic

/-!
# Programs that poll a flag

A flag is raised once, by somebody else and at any moment, and a program looks at it
with some of its operations: `flag op` are the replies of such a poll when the flag is
up and when it is not. `timed` runs a program in a world of its own with the flag
raised at a given moment, counted in operations of the program, or never.

`Stops φ ψ p` says what happens once the flag is up: the program performs only
operations that satisfy `φ`, and what it returns satisfies `ψ`. `HeedsFlag ψ p` says
that the program stops so whenever a poll finds the flag up, wherever that is. The two
runs of such a program, with the flag raised and without, are compared in
`execute_timed`.
-/
namespace FlowiVfs.Program

variable {E F : Signature} {A B S : Type}

/-- The replies of the polls: with the flag up, and with the flag down. -/
abbrev Flag (E : Signature) := (op : E.Op) → Option (E.Reply op × E.Reply op)

variable (flag : Flag E)

/-- Whatever it is answered, once the flag is up. -/
def Stops (φ : E.Op → Prop) (ψ : A → Prop) : Program E A → Prop
  | .done a => ψ a
  | .perform op next => φ op ∧ ∀ r, (∀ x ∈ flag op, r = x.1) → Stops φ ψ (next r)

/-- A poll that finds the flag up makes the program return something that satisfies `ψ`. -/
def HeedsFlag (ψ : A → Prop) : Program E A → Prop
  | .done _ => True
  | .perform op next => (∀ x ∈ flag op, Stops flag (fun _ => True) ψ (next x.1)) ∧
      ∀ r, (∀ x ∈ flag op, r = x.2) → HeedsFlag ψ (next r)

section
variable {flag} {φ : E.Op → Prop} {ψ : A → Prop} {χ : B → Prop} {p : Program E A}

theorem Stops.weaken (h : Stops flag φ ψ p) : Stops flag (fun _ => True) ψ p := by
  induction p with
  | done a => exact h
  | perform op next ih => exact ⟨trivial, fun r hr => ih r (h.2 r hr)⟩

theorem Stops.bind {f : A → Program E B} (hp : Stops flag φ ψ p)
    (hf : ∀ a, ψ a → Stops flag φ χ (f a)) : Stops flag φ χ (p >>= f) := by
  induction p with
  | done a => exact hf a hp
  | perform op next ih => exact ⟨hp.1, fun r hr => ih r (hp.2 r hr)⟩

/-- Every result of the program stops it. -/
theorem stops_of_returns (h : Returns ψ p) : Stops flag (fun _ => True) ψ p := by
  induction p with
  | done a => exact h
  | perform op next ih => exact ⟨trivial, fun r _ => ih r (h r)⟩

/-- A program behind another one that has not seen the flag. -/
theorem HeedsFlag.bind {f : A → Program E B} (hp : HeedsFlag flag ψ p)
    (hstop : ∀ a, ψ a → Stops flag (fun _ => True) χ (f a)) (hf : ∀ a, HeedsFlag flag χ (f a)) :
    HeedsFlag flag χ (p >>= f) := by
  induction p with
  | done a => exact hf a
  | perform op next ih =>
      exact ⟨fun x hx => (hp.1 x hx).bind hstop, fun r hr => ih r (hp.2 r hr)⟩

/-- A program that does not poll. -/
theorem heeds_of_only (h : Only (fun op => flag op = none) p) : HeedsFlag flag ψ p := by
  induction p with
  | done a => trivial
  | perform op next ih =>
      have hnone := h.1
      refine ⟨?_, fun r _ => ih r (h.2 r)⟩
      rw [hnone]
      exact nofun

theorem HeedsFlag.ite {c : Prop} [Decidable c] {q : Program E A} (hp : HeedsFlag flag ψ p)
    (hq : HeedsFlag flag ψ q) : HeedsFlag flag ψ (if c then p else q) := by
  split_ifs
  · exact hp
  · exact hq

theorem HeedsFlag.behind {f : A → Program E B} (h : Only (fun op => flag op = none) p)
    (hf : ∀ a, HeedsFlag flag χ (f a)) : HeedsFlag flag χ (p >>= f) :=
  .bind (ψ := fun _ => False) (heeds_of_only h) nofun hf

end

/-! ## The flag in a run -/

/-- The flag is up when `n` operations have been performed. -/
def Raised (moment : Option ℕ) (n : ℕ) : Prop :=
  match moment with
  | none => False
  | some k => k ≤ n

instance (moment : Option ℕ) (n : ℕ) : Decidable (Raised moment n) :=
  match moment with
  | none => inferInstanceAs (Decidable False)
  | some k => inferInstanceAs (Decidable (k ≤ n))

/-- The world, with the flag raised at a moment. The operations performed are recorded, newest
first. -/
def timed (world : Handler E S) (moment : Option ℕ) : Handler E (S × List E.Op) := fun op s =>
  (match flag op with
    | some (up, down) => if Raised moment s.2.length then up else down
    | none => (world op s.1).1,
    (world op s.1).2, op :: s.2)

/-- A poll among the operations after `past` found the flag up. -/
def SawFlag (moment : Option ℕ) (past log : List E.Op) : Prop :=
  ∃ op l, (flag op).isSome ∧ op :: l <:+ log ∧ past <:+ l ∧ Raised moment l.length

section
variable {flag} {φ : E.Op → Prop} {ψ : A → Prop} {world : Handler E S} {moment : Option ℕ}
variable {p : Program E A} {s : S} {past : List E.Op}

theorem Raised.mono {n m : ℕ} (h : Raised moment n) (hle : n ≤ m) : Raised moment m := by
  cases moment with
  | none => exact h
  | some k => exact Nat.le_trans h hle

theorem timed_up {op : E.Op} (h : Raised moment past.length) :
    ∀ x ∈ flag op, (timed flag world moment op (s, past)).1 = x.1 := by
  intro x hx
  simp [timed, Option.mem_def.mp hx, h]

theorem timed_down {op : E.Op} (h : ¬ Raised moment past.length) :
    ∀ x ∈ flag op, (timed flag world moment op (s, past)).1 = x.2 := by
  intro x hx
  simp [timed, Option.mem_def.mp hx, h]

theorem log_suffix (world : Handler E S) (moment : Option ℕ) (p : Program E A) (s : S)
    (past : List E.Op) : past <:+ (execute (timed flag world moment) p (s, past)).2.2 := by
  induction p generalizing s past with
  | done a => exact List.suffix_refl past
  | perform op next ih => exact (List.suffix_cons op past).trans (ih _ _ (op :: past))

/-- An operation performed after `past` is the first one or was performed after that. -/
theorem later_op {op op' : E.Op} {l log : List E.Op} (hl : op' :: l <:+ log) (hpast : past <:+ l)
    (hlog : op :: past <:+ log) : (op' = op ∧ l = past) ∨ op :: past <:+ l := by
  rcases List.suffix_or_suffix_of_suffix hl hlog with hle | hle
  · left
    have heq := hle.eq_of_length_le (by simpa using hpast.length_le)
    cases heq
    exact ⟨rfl, rfl⟩
  · rcases List.suffix_cons_iff.mp hle with heq | hle
    · left
      cases heq
      exact ⟨rfl, rfl⟩
    · exact .inr hle

/-- What a program does after the flag was raised. -/
theorem Stops.execute (h : Stops flag φ ψ p) (world : Handler E S) (s : S) (past : List E.Op)
    (hraised : Raised moment past.length) :
    ψ (execute (timed flag world moment) p (s, past)).1 ∧
      ∀ op l, op :: l <:+ (execute (timed flag world moment) p (s, past)).2.2 →
        past <:+ l → φ op := by
  induction p generalizing s past with
  | done a =>
      refine ⟨h, fun op l hl hpast => ?_⟩
      have hlength := hl.length_le
      have hshort := hpast.length_le
      simp only [execute_done, List.length_cons] at hlength
      omega
  | perform op next ih =>
      obtain ⟨hresult, hops⟩ := ih _ (h.2 _ (timed_up hraised)) (world op s).2 (op :: past)
        (hraised.mono (Nat.le_succ _))
      refine ⟨hresult, fun op' l hl hpast => ?_⟩
      rcases later_op hl hpast (log_suffix world moment _ _ (op :: past)) with ⟨rfl, -⟩ | hle
      · exact h.1
      · exact hops op' l hl hle

/-- Raising the flag changes nothing of what a program returns that heeds it, or the program
returns something that satisfies `ψ`; and so it does where a poll found the flag up. -/
theorem HeedsFlag.execute (h : HeedsFlag flag ψ p) (world : Handler E S) (moment : Option ℕ) (s : S)
    (past : List E.Op) :
    ((execute (timed flag world moment) p (s, past)).1 =
        (execute (timed flag world none) p (s, past)).1 ∨
      ψ (execute (timed flag world moment) p (s, past)).1) ∧
    (SawFlag flag moment past (execute (timed flag world moment) p (s, past)).2.2 →
      ψ (execute (timed flag world moment) p (s, past)).1) := by
  induction p generalizing s past with
  | done a =>
      refine ⟨.inl rfl, ?_⟩
      rintro ⟨op, l, -, hl, hpast, -⟩
      have hlength := hl.length_le
      have hshort := hpast.length_le
      simp only [execute_done, List.length_cons] at hlength
      omega
  | perform op next ih =>
      have hlog : op :: past <:+ (Program.execute (timed flag world moment)
          (next (timed flag world moment op (s, past)).1) ((world op s).2, op :: past)).2.2 :=
        log_suffix world moment _ _ _
      by_cases hup : (flag op).isSome ∧ Raised moment past.length
      · obtain ⟨x, hx⟩ := Option.isSome_iff_exists.mp hup.1
        have hstops := h.1 x hx
        have hreply : (timed flag world moment op (s, past)).1 = x.1 := timed_up hup.2 x hx
        rw [← hreply] at hstops
        have hresult := (hstops.execute world (world op s).2 (op :: past)
          (hup.2.mono (Nat.le_succ _))).1
        exact ⟨.inr hresult, fun _ => hresult⟩
      · -- Both runs go on alike.
        have hsame : (timed flag world moment op (s, past)).1 =
            (timed flag world none op (s, past)).1 := by
          unfold timed
          cases hflag : flag op with
          | none => rfl
          | some x =>
              have hdown : ¬ Raised moment past.length := fun hr => hup ⟨by simp [hflag], hr⟩
              simp only [if_neg hdown]
              exact (if_neg id).symm
        have hnext : HeedsFlag flag ψ (next (timed flag world moment op (s, past)).1) := by
          apply h.2
          intro x hx
          apply timed_down _ x hx
          intro hr
          exact hup ⟨by simp [Option.mem_def.mp hx], hr⟩
        obtain ⟨hresult, hsaw⟩ := ih _ hnext (world op s).2 (op :: past)
        refine ⟨?_, ?_⟩
        · rw [execute_perform, execute_perform, ← hsame]
          exact hresult
        · rintro ⟨op', l, hflag, hl, hpast, hraised⟩
          rcases later_op hl hpast hlog with ⟨rfl, rfl⟩ | hle
          · exact absurd ⟨hflag, hraised⟩ hup
          · exact hsaw ⟨op', l, hflag, hl, hle, hraised⟩

end

end FlowiVfs.Program
