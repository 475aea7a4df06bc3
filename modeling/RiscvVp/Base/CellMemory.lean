import Mathlib.Algebra.Order.Ring.Nat
import Mathlib.Logic.Function.Basic

/-!
# Memories as functions from addresses to cells

A burst of writes goes through a list of positions; where no two positions
share an address, each address ends with the value of its own position.
-/

universe u v

namespace CellMemory

variable {A : Type u} {V : Type v} [DecidableEq A]

/-- Write `val i` at `addr i` for i = 0, ..., n-1. -/
def writeBurst (m : A → V) (addr : Nat → A) (val : Nat → V) (n : Nat) : A → V :=
  (List.range n).foldl (fun m i => Function.update m (addr i) (val i)) m

theorem writeBurst_succ (m : A → V) (addr : Nat → A) (val : Nat → V) (n : Nat) :
    writeBurst m addr val (n + 1) =
      Function.update (writeBurst m addr val n) (addr n) (val n) := by
  simp [writeBurst, List.range_succ]

theorem writeBurst_of_ne (m : A → V) (addr : Nat → A) (val : Nat → V) {n : Nat} {a : A}
    (apart : ∀ i, i < n → addr i ≠ a) : writeBurst m addr val n a = m a := by
  induction n with
  | zero => rfl
  | succ n ih =>
    rw [writeBurst_succ, Function.update_of_ne (apart n (by omega)).symm]
    exact ih fun i hi => apart i (by omega)

/-- The latest write to an address decides its value. -/
theorem writeBurst_of_last (m : A → V) (addr : Nat → A) (val : Nat → V) {n i : Nat} (hi : i < n)
    (last : ∀ j, i < j → j < n → addr j ≠ addr i) :
    writeBurst m addr val n (addr i) = val i := by
  induction n with
  | zero => omega
  | succ n ih =>
    rw [writeBurst_succ]
    by_cases h : i = n
    · subst h
      exact Function.update_self ..
    · rw [Function.update_of_ne (last n (by omega) (by omega)).symm]
      exact ih (by omega) fun j hij hjn => last j hij (by omega)

/-- The last position of a burst that goes to an address, if one does. -/
def lastAt (addr : Nat → A) (n : Nat) (a : A) : Option Nat :=
  (List.range n).reverse.find? fun i => addr i = a

theorem writeBurst_eq_lastAt (m : A → V) (addr : Nat → A) (val : Nat → V) (n : Nat) (a : A) :
    writeBurst m addr val n a = ((lastAt addr n a).map val).getD (m a) := by
  induction n with
  | zero => rfl
  | succ n ih =>
    rw [writeBurst_succ, lastAt, List.range_succ, List.reverse_append, List.reverse_singleton,
      List.singleton_append, List.find?_cons]
    by_cases here : addr n = a
    · subst here
      rw [Function.update_self]
      simp
    · rw [Function.update_of_ne (Ne.symm here), ih, decide_eq_false here]
      rfl

theorem lt_of_lastAt {addr : Nat → A} {n i : Nat} {a : A} (last : lastAt addr n a = some i) :
    i < n := by
  have hi := List.mem_of_find?_eq_some last
  rw [List.mem_reverse, List.mem_range] at hi
  exact hi

theorem lastAt_isSome {addr : Nat → A} {n i : Nat} (hi : i < n) :
    (lastAt addr n (addr i)).isSome = true := by
  rw [lastAt, List.find?_isSome]
  exact ⟨i, by simpa using hi, by simp⟩

end CellMemory
