import Mathlib.Algebra.Order.Ring.Nat
import Mathlib.Data.List.Basic

/-!
# Bounded first-in first-out channels

The capacity is part of the type, so no channel holds more than it can.
-/

universe u

/-- Items wait in arrival order, oldest first. -/
structure BoundedFifo (α : Type u) (depth : Nat) where
  items : List α
  fits : items.length ≤ depth

namespace BoundedFifo

variable {α : Type u} {depth : Nat}

@[ext] theorem ext {f g : BoundedFifo α depth} (same : f.items = g.items) : f = g := by
  cases f
  cases g
  cases same
  rfl

instance [DecidableEq α] : DecidableEq (BoundedFifo α depth) := fun f g =>
  decidable_of_iff (f.items = g.items) ⟨ext, fun h => h ▸ rfl⟩

def empty : BoundedFifo α depth := ⟨[], Nat.zero_le _⟩

@[simp] theorem empty_items : (empty : BoundedFifo α depth).items = [] := rfl

/-- A write that does not wait fails exactly on a full channel. -/
def nbWrite (f : BoundedFifo α depth) (a : α) : Option (BoundedFifo α depth) :=
  if room : f.items.length < depth then
    some ⟨f.items ++ [a], by rw [List.length_append]; exact room⟩
  else none

/-- A read that does not wait fails exactly on an empty channel. -/
def nbRead (f : BoundedFifo α depth) : Option (α × BoundedFifo α depth) :=
  match f with
  | ⟨[], _⟩ => none
  | ⟨a :: rest, fits⟩ => some (a, ⟨rest, by simp at fits; omega⟩)

theorem nbWrite_eq_some {f g : BoundedFifo α depth} {a : α} :
    f.nbWrite a = some g ↔ f.items.length < depth ∧ g.items = f.items ++ [a] := by
  rw [nbWrite]
  split
  · rename_i room
    constructor
    · intro h
      cases h
      exact ⟨room, rfl⟩
    · rintro ⟨_, h⟩
      exact congrArg some (ext h.symm)
  · rename_i full
    simp [full]

theorem nbWrite_eq_none {f : BoundedFifo α depth} {a : α} :
    f.nbWrite a = none ↔ f.items.length = depth := by
  have := f.fits
  simp only [nbWrite, dite_eq_right_iff, reduceCtorEq, imp_false]
  omega

theorem nbRead_eq_some {f g : BoundedFifo α depth} {a : α} :
    f.nbRead = some (a, g) ↔ f.items = a :: g.items := by
  obtain ⟨items, fits⟩ := f
  cases items with
  | nil => simp [nbRead]
  | cons b rest =>
    simp only [nbRead, Option.some.injEq, Prod.mk.injEq, List.cons.injEq]
    exact ⟨fun h => ⟨h.1, congrArg BoundedFifo.items h.2⟩, fun h => ⟨h.1, ext h.2⟩⟩

theorem nbRead_eq_none {f : BoundedFifo α depth} : f.nbRead = none ↔ f.items = [] := by
  obtain ⟨items, fits⟩ := f
  cases items <;> simp [nbRead]

end BoundedFifo
