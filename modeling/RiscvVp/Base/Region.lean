import Mathlib.Algebra.Order.Ring.Nat
/-!
# Regions of an address space

Addresses are natural numbers, so a range never wraps. Rounding an address down
to its page decides membership in regions that consist of whole pages.
-/

structure Region where
  base : Nat
  size : Nat
deriving DecidableEq, Repr

namespace Region

variable {r q : Region} {a n page : Nat}

/-- The n addresses from a on all lie in the region. -/
def Contains (r : Region) (a n : Nat) : Prop := r.base ≤ a ∧ a + n ≤ r.base + r.size

instance (r : Region) (a n : Nat) : Decidable (r.Contains a n) :=
  inferInstanceAs (Decidable (_ ∧ _))

def Disjoint (r q : Region) : Prop := ∀ a, r.Contains a 1 → ¬ q.Contains a 1

/-- The region starts and ends at a page boundary. -/
def Paged (page : Nat) (r : Region) : Prop := page ∣ r.base ∧ page ∣ r.size

theorem Contains.first (inside : r.Contains a n) (nonempty : 0 < n) : r.Contains a 1 := by
  obtain ⟨lower, upper⟩ := inside
  constructor
  · exact lower
  · omega

theorem Disjoint.symm (apart : r.Disjoint q) : q.Disjoint r :=
  fun a inside outside => apart a outside inside

/-- A region of whole pages contains an address and its page together. -/
theorem Paged.contains_page (paged : r.Paged page) (positive : 0 < page) :
    r.Contains (a / page * page) page ↔ r.Contains a 1 := by
  obtain ⟨⟨first, hbase⟩, ⟨pages, hsize⟩⟩ := paged
  have split := Nat.div_add_mod a page
  have small := Nat.mod_lt a positive
  rw [Nat.mul_comm] at split
  rw [Contains, Contains, hbase, hsize, Nat.mul_comm page, Nat.mul_comm page]
  constructor
  · rintro ⟨lower, upper⟩
    constructor <;> omega
  · rintro ⟨lower, upper⟩
    have above : first ≤ a / page := (Nat.le_div_iff_mul_le positive).mpr lower
    have below : a / page < first + pages := by
      rw [Nat.div_lt_iff_lt_mul positive, Nat.add_mul]
      omega
    have lower' := Nat.mul_le_mul_right page above
    have upper' := Nat.mul_le_mul_right page (Nat.succ_le_of_lt below)
    rw [Nat.add_mul, Nat.succ_mul] at upper'
    exact ⟨lower', upper'⟩

end Region
