import RiscvVp.Base.EventMachine
import Mathlib.Order.Interval.Set.Basic
import Mathlib.Order.WellFounded

/-!
# Runs without end

What cannot go on for ever in a run that does. A rank that never rises falls
only finitely often, so if whatever happens at one time lowers a rank, time
passes every bound.
-/

universe u v w

/-- One event after another, for ever. -/
structure EndlessRun {σ : Type u} {ε : Type v} (M : EventMachine σ ε) (s : σ) where
  state : Nat → σ
  event : Nat → ε
  start : state 0 = s
  enabled : ∀ n, M.Enabled (state n) (event n)
  next : ∀ n, state (n + 1) = M.next (state n) (event n)

namespace EndlessRun

variable {σ : Type u} {ε : Type v} {M : EventMachine σ ε} {s : σ}

/-- The first n events. -/
def trace (r : EndlessRun M s) (n : Nat) : List ε := (List.range n).map r.event

theorem trace_succ (r : EndlessRun M s) (n : Nat) : r.trace (n + 1) = r.trace n ++ [r.event n] := by
  rw [trace, List.range_succ, List.map_append]
  rfl

theorem run (r : EndlessRun M s) (n : Nat) : M.Run s (r.trace n) (r.state n) := by
  induction n with
  | zero =>
    rw [r.start]
    exact .refl
  | succ n ih =>
    rw [trace_succ, r.next]
    exact ih.snoc (r.enabled n)

/-- The run from its state n on. -/
def drop (r : EndlessRun M s) (n : Nat) : EndlessRun M (r.state n) where
  state k := r.state (n + k)
  event k := r.event (n + k)
  start := rfl
  enabled k := r.enabled (n + k)
  next k := r.next (n + k)

/-- A machine that can always go on has such a run. -/
theorem exists_of_moves (I : σ → Prop) (moves : ∀ t, I t → ∃ e, M.Enabled t e ∧ I (M.next t e))
    (start : I s) : ∃ r : EndlessRun M s, ∀ n, I (r.state n) := by
  have some : Nonempty ε := (moves s start).nonempty
  choose! e enabled stays using moves
  have keeps (n : Nat) : I ((fun t => M.next t (e t))^[n] s) := by
    induction n with
    | zero => exact start
    | succ n ih =>
      rw [Function.iterate_succ_apply']
      exact stays _ ih
  refine ⟨⟨fun n => (fun t => M.next t (e t))^[n] s, fun n => e ((fun t => M.next t (e t))^[n] s),
    rfl, fun n => enabled _ (keeps n), fun n => ?_⟩, keeps⟩
  exact Function.iterate_succ_apply' ..

section Ranks
variable {α : Type w} [Preorder α] [WellFoundedLT α] {first : Nat}

/-- A rank that never rises falls only finitely often. -/
theorem eventually_still (rank : Nat → α) (moves : Nat → Prop)
    (stays : ∀ n, first ≤ n → rank (n + 1) ≤ rank n)
    (falls : ∀ n, first ≤ n → moves n → rank (n + 1) < rank n) :
    ∃ last, first ≤ last ∧ ∀ n, last ≤ n → ¬ moves n := by
  obtain ⟨_, ⟨last, after, rfl⟩, least⟩ := wellFounded_lt.has_min (rank '' Set.Ici first)
    (Set.nonempty_Ici.image rank)
  have below (k : Nat) : rank (last + k) ≤ rank last := by
    induction k with
    | zero => exact le_refl _
    | succ k ih => exact (stays _ (Nat.le_add_right_of_le after)).trans ih
  refine ⟨last, after, fun n later moves => ?_⟩
  obtain ⟨k, rfl⟩ := Nat.exists_eq_add_of_le later
  refine least _ ⟨last + k + 1, ?_, rfl⟩ ((falls _ ?_ moves).trans_le (below k))
  · exact Set.mem_Ici.mpr (by have := Set.mem_Ici.mp after; omega)
  · exact Nat.le_add_right_of_le after

/-- Where each event moves the clock or lowers a rank, the clock passes every time. -/
theorem clock_passes (r : EndlessRun M s) (clock : σ → Nat) (rank : σ → α)
    (step : ∀ n, clock (r.state n) < clock (r.state (n + 1)) ∨
      clock (r.state (n + 1)) = clock (r.state n) ∧ rank (r.state (n + 1)) < rank (r.state n))
    (t first : Nat) : ∃ n, first ≤ n ∧ t ≤ clock (r.state n) := by
  by_contra never
  push Not at never
  obtain ⟨last, after, stands⟩ := eventually_still (fun n => t - clock (r.state n))
    (fun n => clock (r.state n) < clock (r.state (n + 1)))
    (fun n (_ : first ≤ n) => by
      rcases step n with moves | ⟨same, _⟩
      · exact Nat.sub_le_sub_left moves.le t
      · rw [same])
    (fun n later moves => by
      have early := never n later
      change t - _ < t - _
      omega)
  have falls (n : Nat) (later : last ≤ n) : rank (r.state (n + 1)) < rank (r.state n) :=
    ((step n).resolve_left (stands n later)).2
  obtain ⟨n, _, nothing⟩ := eventually_still (fun n => rank (r.state n)) (fun _ => True)
    (fun n later => (falls n later).le) fun n later _ => falls n later
  exact nothing n (Nat.le_refl n) trivial

end Ranks

end EndlessRun
