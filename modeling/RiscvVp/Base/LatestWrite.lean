import Mathlib.Data.List.Basic
/-!
# The latest write in a history

A history lists writes newest first, and a cell of a memory is found by asking
each write whether it stored there. Two ways of asking give the same cell when
they agree on the first write that answers either of them.
-/

universe u v

namespace LatestWrite

variable {W : Type u} {V : Type v}

/-- What the latest write that stored something left behind. -/
def latest (stored : W → Option V) (blank : V) (history : List W) : V :=
  (history.findSome? stored).getD blank

variable {f g : W → Option V} {blank : V} {h old : List W} {w : W}

theorem latest_cons (stored : W → Option V) (blank : V) (w : W) (h : List W) :
    latest stored blank (w :: h) = (stored w).getD (latest stored blank h) := by
  rw [latest, List.findSome?_cons]
  cases stored w <;> rfl

/-- The writes before the latest one that answers are out of sight. -/
theorem latest_append (silent : ∀ w ∈ h, f w = none) :
    latest f blank (h ++ old) = latest f blank old := by
  induction h with
  | nil => rfl
  | cons w h ih =>
    rw [List.cons_append, latest_cons, silent w List.mem_cons_self]
    exact ih fun v hv => silent v (List.mem_cons_of_mem w hv)

theorem latest_eq_blank (stores : ∀ w ∈ h, f w = none ∨ f w = some blank) :
    latest f blank h = blank := by
  induction h with
  | nil => rfl
  | cons w h ih =>
    rw [latest_cons]
    rcases stores w List.mem_cons_self with none | same
    · rw [none]
      exact ih fun v hv => stores v (List.mem_cons_of_mem w hv)
    · rw [same]
      rfl

/-- The writes after the latest one that answers either question answer neither. -/
theorem split_of_find (found : h.find? (fun w => (f w).isSome || (g w).isSome) = some w) :
    ((f w).isSome || (g w).isSome) = true ∧ ∃ newer older, h = newer ++ w :: older ∧
      ∀ v ∈ newer, f v = none ∧ g v = none := by
  obtain ⟨answers, newer, older, split, silent⟩ := List.find?_eq_some_iff_append.mp found
  refine ⟨answers, newer, older, split, fun v hv => ?_⟩
  have none := silent v hv
  rw [Bool.not_eq_true', Bool.or_eq_false_iff] at none
  exact ⟨Option.isNone_iff_eq_none.mp (Option.isSome_eq_false_iff.mp none.1),
    Option.isNone_iff_eq_none.mp (Option.isSome_eq_false_iff.mp none.2)⟩

/-- The latest write that answers either question decides both. -/
theorem latest_eq_of_find {blank' : V}
    (found : h.find? (fun w => (f w).isSome || (g w).isSome) = some w) (agree : f w = g w) :
    latest f blank h = latest g blank' h := by
  obtain ⟨answers, newer, older, rfl, quiet⟩ := split_of_find found
  rw [latest_append fun v hv => (quiet v hv).1, latest_append fun v hv => (quiet v hv).2,
    latest_cons, latest_cons]
  rw [agree, Bool.or_self, Option.isSome_iff_exists] at answers
  obtain ⟨v, hv⟩ := answers
  rw [agree, hv]
  rfl

theorem latest_congr
    (agree : ∀ w, h.find? (fun w => (f w).isSome || (g w).isSome) = some w → f w = g w) :
    latest f blank h = latest g blank h := by
  cases found : h.find? (fun w => (f w).isSome || (g w).isSome) with
  | some w => exact latest_eq_of_find found (agree w found)
  | none =>
    have silent : ∀ v ∈ h, f v = none ∧ g v = none := by
      intro v hv
      have none := List.find?_eq_none.mp found v hv
      simpa using none
    rw [latest_eq_blank fun v hv => Or.inl (silent v hv).1,
      latest_eq_blank fun v hv => Or.inl (silent v hv).2]

end LatestWrite
