import Mathlib.Order.WellFounded
import Mathlib.Tactic.Common

/-!
# Loops that may not terminate

A `while` loop over a state `σ` is a step function `σ → Option σ`: `some t` is one
more iteration, `none` leaves the loop. `run` executes it on fuel, and answers
`none` exactly when the fuel runs out before the loop is left.

## Main results

* `run_mono` — more fuel gives the same answer.
* `run_invariant` — what every iteration preserves holds when the loop is left.
* `run_simulation` — a loop that follows another one ends in a corresponding state.
* `run_rel` — two loops in step, on the same fuel.
* `terminates` — a well-founded relation that every iteration follows.
* `diverges` — a set of states the loop never leaves.
-/

namespace Loop

variable {σ : Type*} (step : σ → Option σ)

/-- Run a loop on `fuel` iterations, the last test included. -/
def run : ℕ → σ → Option σ
  | 0, _ => none
  | n + 1, s =>
    match step s with
    | none => some s
    | some t => run n t

@[simp] theorem run_zero (s : σ) : run step 0 s = none := rfl

variable {step}

theorem run_succ_of_exit {s : σ} (h : step s = none) (n : ℕ) : run step (n + 1) s = some s := by
  simp [run, h]

theorem run_succ_of_step {s t : σ} (h : step s = some t) (n : ℕ) :
    run step (n + 1) s = run step n t := by
  simp [run, h]

/-- More fuel gives the same answer. -/
theorem run_mono {n m : ℕ} {s t : σ} (h : run step n s = some t) (hnm : n ≤ m) :
    run step m s = some t := by
  induction n generalizing m s with
  | zero => simp at h
  | succ n ih =>
    obtain ⟨k, rfl⟩ : ∃ k, m = k + 1 := ⟨m - 1, by omega⟩
    cases hs : step s with
    | none => rw [run_succ_of_exit hs] at h ⊢; exact h
    | some u =>
      rw [run_succ_of_step hs] at h ⊢
      exact ih h (by omega)

/-- The loop rule: an invariant of the body holds at the exit, where the test fails. -/
theorem run_invariant (P : σ → Prop) (hstep : ∀ s t, P s → step s = some t → P t) {n : ℕ}
    {s t : σ} (hs : P s) (h : run step n s = some t) : P t ∧ step t = none := by
  induction n generalizing s with
  | zero => simp at h
  | succ n ih =>
    cases hc : step s with
    | none =>
      rw [run_succ_of_exit hc] at h
      obtain rfl := Option.some.inj h
      exact ⟨hs, hc⟩
    | some u =>
      rw [run_succ_of_step hc] at h
      exact ih (hstep s u hs hc) h

/-- A loop that makes an iteration whenever another one does, and leaves with it. -/
theorem run_simulation {τ : Type*} {step' : τ → Option τ} (R : σ → τ → Prop)
    (hexit : ∀ s s', R s s' → step s = none → step' s' = none)
    (hstep : ∀ s s' t, R s s' → step s = some t → ∃ t', step' s' = some t' ∧ R t t') {n : ℕ}
    {s t : σ} {s' : τ} (hs : R s s') (h : run step n s = some t) :
    ∃ t', run step' n s' = some t' ∧ R t t' := by
  induction n generalizing s s' with
  | zero => simp at h
  | succ n ih =>
    cases hc : step s with
    | none =>
      rw [run_succ_of_exit hc] at h
      obtain rfl := Option.some.inj h
      exact ⟨s', run_succ_of_exit (hexit s s' hs hc) n, hs⟩
    | some u =>
      rw [run_succ_of_step hc] at h
      obtain ⟨u', hu', hR⟩ := hstep s s' u hs hc
      rw [run_succ_of_step hu']
      exact ih hR h

/-- Two loops that make the same iterations, on the same fuel. -/
theorem run_rel {τ : Type*} {step' : τ → Option τ} (R : σ → τ → Prop)
    (hstep : ∀ s s', R s s' → Option.Rel R (step s) (step' s')) (n : ℕ) {s : σ} {s' : τ}
    (hs : R s s') : Option.Rel R (run step n s) (run step' n s') := by
  induction n generalizing s s' with
  | zero => exact .none
  | succ n ih =>
    have h := hstep s s' hs
    rw [run, run]
    generalize step s = next, step' s' = next' at h
    cases h with
    | some hR => exact ih hR
    | none => exact .some hs

/-- A loop whose iterations descend along a well-founded relation is left. -/
theorem terminates {r : σ → σ → Prop} (wf : WellFounded r) (P : σ → Prop)
    (hstep : ∀ s t, P s → step s = some t → P t ∧ r t s) {s : σ} (hs : P s) :
    ∃ n t, run step n s = some t := by
  induction s using wf.induction with
  | h s ih =>
    cases hc : step s with
    | none => exact ⟨1, s, run_succ_of_exit hc 0⟩
    | some u =>
      obtain ⟨hu, hlt⟩ := hstep s u hs hc
      obtain ⟨n, t, ht⟩ := ih u hlt hu
      exact ⟨n + 1, t, by rw [run_succ_of_step hc, ht]⟩

/-- A loop that can always take one more iteration inside `P` never answers. -/
theorem diverges (P : σ → Prop) (hstep : ∀ s, P s → ∃ t, step s = some t ∧ P t) {s : σ}
    (hs : P s) (n : ℕ) : run step n s = none := by
  induction n generalizing s with
  | zero => rfl
  | succ n ih =>
    obtain ⟨t, ht, hPt⟩ := hstep s hs
    rw [run_succ_of_step ht]
    exact ih hPt

end Loop
