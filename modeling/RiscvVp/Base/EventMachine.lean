import Mathlib.Algebra.Order.Ring.Nat
import Mathlib.Data.List.Basic

/-!
# Machines driven by events

A machine says which events are possible in a state and which state each of
them leads to. Runs are finite and list their events oldest first. The rules
below are the only ones the developments over it need: invariants carried by
the trace, simulations that answer one event by several, and budgets that
bound the length of every run.
-/

universe u v w x

structure EventMachine (σ : Type u) (ε : Type v) where
  Enabled : σ → ε → Prop
  next : σ → ε → σ

namespace EventMachine

variable {σ : Type u} {ε : Type v} {τ : Type w} {δ : Type x}

inductive Run (M : EventMachine σ ε) (s : σ) : List ε → σ → Prop
  | refl : Run M s [] s
  | snoc {tr : List ε} {t : σ} {e : ε} :
      Run M s tr t → M.Enabled t e → Run M s (tr ++ [e]) (M.next t e)

variable {M : EventMachine σ ε} {N : EventMachine τ δ}

theorem Run.single {s : σ} {e : ε} (he : M.Enabled s e) : M.Run s [e] (M.next s e) :=
  show M.Run s ([] ++ [e]) _ from .snoc .refl he

theorem Run.trans {s t r : σ} {tr ur : List ε} (first : M.Run s tr t)
    (second : M.Run t ur r) : M.Run s (tr ++ ur) r := by
  induction second with
  | refl => simpa using first
  | snoc _ he ih => simpa only [List.append_assoc] using ih.snoc he

theorem Run.cons {s t : σ} {e : ε} {tr : List ε} (he : M.Enabled s e)
    (rest : M.Run (M.next s e) tr t) : M.Run s (e :: tr) t :=
  (Run.single he).trans rest

/-- What holds at the start and survives every event holds after every run. -/
theorem Run.invariant {s t : σ} {tr : List ε} (I : List ε → σ → Prop) (start : I [] s)
    (step : ∀ tr t e, I tr t → M.Enabled t e → I (tr ++ [e]) (M.next t e))
    (run : M.Run s tr t) : I tr t := by
  induction run with
  | refl => exact start
  | snoc _ he ih => exact step _ _ _ ih he

/-- A run of M is answered by a run of N, each event by as many events as it takes.
The relation may compare the two traces as well as the two states. -/
theorem Run.simulate {s t : σ} {tr : List ε} {s' : τ}
    (R : List ε → List δ → σ → τ → Prop)
    (step : ∀ tr ur t t' e, R tr ur t t' → M.Enabled t e →
      ∃ vr r', N.Run t' vr r' ∧ R (tr ++ [e]) (ur ++ vr) (M.next t e) r')
    (related : R [] [] s s') (run : M.Run s tr t) :
    ∃ ur t', N.Run s' ur t' ∧ R tr ur t t' := by
  induction run with
  | refl => exact ⟨[], s', .refl, related⟩
  | snoc _ he ih =>
    obtain ⟨ur, t', hrun, hrel⟩ := ih
    obtain ⟨vr, r', hlast, hrel'⟩ := step _ _ _ _ _ hrel he
    exact ⟨ur ++ vr, r', hrun.trans hlast, hrel'⟩

/-- Each event before the end spends budget, so an unfinished run is no longer
than what it started with. -/
theorem Run.length_add_budget_le {s t : σ} {tr : List ε} (I : σ → Prop) (Finished : σ → Prop)
    (budget : σ → Nat) (keeps : ∀ t e, I t → M.Enabled t e → I (M.next t e))
    (stays : ∀ t e, Finished t → M.Enabled t e → Finished (M.next t e))
    (spends : ∀ t e, I t → ¬ Finished t → M.Enabled t e → budget (M.next t e) < budget t)
    (start : I s) (run : M.Run s tr t) (unfinished : ¬ Finished t) :
    tr.length + budget t ≤ budget s := by
  have both : I t ∧ (¬ Finished t → tr.length + budget t ≤ budget s) := by
    clear unfinished
    induction run with
    | refl => exact ⟨start, fun _ => by simp⟩
    | @snoc tr t e _ he ih =>
      refine ⟨keeps _ _ ih.1 he, fun unfinished => ?_⟩
      have before : ¬ Finished t := fun done => unfinished (stays _ _ done he)
      have hspend := spends _ _ ih.1 before he
      have hbound := ih.2 before
      simp only [List.length_append, List.length_singleton]
      omega
  exact both.2 unfinished

/-- Where unfinished states can always move and moves spend budget, some run finishes. -/
theorem exists_run_finished (I : σ → Prop) (Finished : σ → Prop) (budget : σ → Nat)
    (moves : ∀ t, I t → ¬ Finished t → ∃ e, M.Enabled t e ∧ I (M.next t e) ∧
      budget (M.next t e) < budget t) {s : σ} (start : I s) :
    ∃ tr t, M.Run s tr t ∧ I t ∧ Finished t := by
  obtain ⟨n, hn⟩ : ∃ n, budget s = n := ⟨_, rfl⟩
  induction n using Nat.strongRecOn generalizing s with
  | ind n ih =>
    by_cases done : Finished s
    · exact ⟨[], s, .refl, start, done⟩
    · obtain ⟨e, he, hinv, hlt⟩ := moves s start done
      obtain ⟨tr, t, hrun, ht, hdone⟩ := ih _ (hn ▸ hlt) hinv rfl
      exact ⟨e :: tr, t, .cons he hrun, ht, hdone⟩

/-- The state a trace leads to, whether or not its events are enabled. -/
def after (M : EventMachine σ ε) (s : σ) (tr : List ε) : σ := tr.foldl M.next s

/-- Every event of the trace is enabled when its turn comes. -/
def Admits (M : EventMachine σ ε) : σ → List ε → Prop
  | _, [] => True
  | s, e :: tr => M.Enabled s e ∧ Admits M (M.next s e) tr

instance decidableAdmits [∀ s e, Decidable (M.Enabled s e)] :
    ∀ (s : σ) (tr : List ε), Decidable (M.Admits s tr)
  | _, [] => inferInstanceAs (Decidable True)
  | s, e :: tr =>
    have := decidableAdmits (M.next s e) tr
    inferInstanceAs (Decidable (_ ∧ _))

/-- A trace that is admitted event by event is a run. -/
theorem run_of_admits {s : σ} {tr : List ε} (admits : M.Admits s tr) :
    M.Run s tr (M.after s tr) := by
  induction tr generalizing s with
  | nil => exact .refl
  | cons e tr ih => exact .cons admits.1 (ih admits.2)

end EventMachine
