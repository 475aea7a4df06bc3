import Mathlib.Algebra.Order.Ring.Nat
import Mathlib.Data.List.Range

/-!
# Periodic timers

A timer started at `start` is due at every multiple of its period after that,
and never at `start` itself. Whoever looks at it at the next due time and not
later sees every due time once.
-/

structure PeriodicTimer where
  start : Nat
  period : Nat

namespace PeriodicTimer

variable (T : PeriodicTimer) (now : Nat)

/-- How many times the timer has been due. -/
def count : Nat := (now - T.start) / T.period

/-- The due time with number n + 1. -/
def due (n : Nat) : Nat := T.start + (n + 1) * T.period

/-- The due times up to now, in order. -/
def elapsed : List Nat := (List.range (T.count now)).map T.due

def next : Nat := T.due (T.count now)

variable {T now}

theorem count_start : T.count T.start = 0 := by
  rw [count, Nat.sub_self, Nat.zero_div]

theorem elapsed_start : T.elapsed T.start = [] := by
  rw [elapsed, count_start]
  rfl

theorem next_start : T.next T.start = T.start + T.period := by
  rw [next, count_start, due, Nat.zero_add, Nat.one_mul]

theorem lt_next (positive : 0 < T.period) : now < T.next now := by
  have division := Nat.lt_div_mul_add (a := now - T.start) positive
  rw [next, due, count, Nat.add_mul, Nat.one_mul]
  omega

theorem count_of_early (later : T.start ≤ now) {t : Nat} (forward : now ≤ t)
    (early : t < T.next now) : T.count t = T.count now := by
  rw [next, due] at early
  apply Nat.div_eq_of_lt_le
  · have := Nat.div_mul_le_self (now - T.start) T.period
    rw [count]
    omega
  · omega

/-- Between two due times nothing is due. -/
theorem elapsed_of_early (later : T.start ≤ now) {t : Nat} (forward : now ≤ t)
    (early : t < T.next now) : T.elapsed t = T.elapsed now ∧ T.next t = T.next now := by
  rw [elapsed, elapsed, next, next, count_of_early later forward early]
  exact ⟨rfl, rfl⟩

theorem count_next (positive : 0 < T.period) : T.count (T.next now) = T.count now + 1 := by
  rw [count, next, due, Nat.add_sub_cancel_left]
  exact Nat.mul_div_cancel _ positive

/-- At the next due time exactly that one is added. -/
theorem elapsed_next (positive : 0 < T.period) :
    T.elapsed (T.next now) = T.elapsed now ++ [T.next now] ∧
      T.next (T.next now) = T.next now + T.period := by
  constructor
  · rw [elapsed, count_next positive, List.range_succ, List.map_append]
    rfl
  · rw [next, count_next positive, due, Nat.succ_mul, ← Nat.add_assoc]
    rfl

/-- A visit no later than the next due time serves that one if it has come. -/
theorem visit (positive : 0 < T.period) (later : T.start ≤ now) {t : Nat} (forward : now ≤ t)
    (soon : t ≤ T.next now) :
    T.elapsed t = T.elapsed now ++ (if T.next now ≤ t then [t] else []) ∧
      T.next t = if T.next now ≤ t then T.next now + T.period else T.next now := by
  by_cases come : T.next now ≤ t
  · obtain rfl : t = T.next now := Nat.le_antisymm soon come
    rw [if_pos come, if_pos come]
    exact elapsed_next positive
  · rw [if_neg come, if_neg come, List.append_nil]
    exact elapsed_of_early later forward (Nat.lt_of_not_le come)

end PeriodicTimer
