import Mathlib.Algebra.Order.Ring.Nat

/-!
# Loops by their turns

A loop is the function of one turn, which yields the next state or nothing when
the loop is left. A run has a budget of turns; the loop ends if some budget is
enough.
-/

universe u

namespace StepLoop

variable {σ : Type u} (turn : σ → Option σ)

/-- The state in which the loop is left, if that happens within the budget. -/
def run : Nat → σ → Option σ
  | 0, _ => none
  | budget + 1, s =>
    match turn s with
    | some t => run budget t
    | none => some s

variable {turn} {s t r : σ} {budget : Nat}

theorem run_of_turn (more : turn s = some t) : run turn (budget + 1) s = run turn budget t := by
  rw [run, more]

theorem run_of_left (left : turn s = none) : run turn (budget + 1) s = some s := by
  rw [run, left]

theorem run_mono (ends : run turn budget s = some t) : run turn (budget + 1) s = some t := by
  induction budget generalizing s with
  | zero => cases ends
  | succ budget ih =>
    cases more : turn s with
    | some r =>
      rw [run_of_turn more] at ends ⊢
      exact ih ends
    | none =>
      rw [run_of_left more] at ends ⊢
      exact ends

theorem run_add (ends : run turn budget s = some t) (extra : Nat) :
    run turn (budget + extra) s = some t := by
  induction extra with
  | zero => exact ends
  | succ extra ih => exact run_mono ih

/-- Two budgets that are enough show the same end. -/
theorem run_unique {budget' : Nat} (ends : run turn budget s = some t)
    (ends' : run turn budget' s = some r) : t = r := by
  have one := run_add ends budget'
  have other := run_add ends' budget
  rw [Nat.add_comm, one] at other
  exact Option.some.inj other

/-- A counted loop ends with what its invariant says at the last count. -/
theorem run_of_count {I : Nat → σ → Prop} {n : Nat}
    (goes : ∀ i s, i < n → I i s → ∃ t, turn s = some t ∧ I (i + 1) t)
    (left : ∀ s, I n s → turn s = none) {i rest : Nat} (count : i + rest = n) (start : I i s) :
    ∃ t, run turn (rest + 1) s = some t ∧ I n t := by
  induction rest generalizing i s with
  | zero =>
    obtain rfl : i = n := count
    exact ⟨s, run_of_left (left s start), start⟩
  | succ rest ih =>
    obtain ⟨t, more, next⟩ := goes i s (by omega) start
    rw [run_of_turn more]
    exact ih (by omega) next

/-- A loop that can always take another turn is never left. -/
theorem run_eq_none {I : σ → Prop} (goes : ∀ s, I s → ∃ t, turn s = some t ∧ I t)
    (start : I s) (budget : Nat) : run turn budget s = none := by
  induction budget generalizing s with
  | zero => rfl
  | succ budget ih =>
    obtain ⟨t, more, next⟩ := goes s start
    rw [run_of_turn more]
    exact ih next

end StepLoop
