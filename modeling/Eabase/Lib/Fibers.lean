import Mathlib.Data.Set.Card

/-!
# Fibers

How many things have a value, when a function says which value each of them
has: the size of the fiber, which a write at one thing changes by one at most.
-/

namespace Eabase.Lib

open Function

variable {κ α : Type*} [DecidableEq κ] {f : κ → α} {x : κ} {v w : α}

/-- The things with the value `v`. -/
def fiber (f : κ → α) (v : α) : Set κ :=
  {x | f x = v}

omit [DecidableEq κ] in
theorem mem_fiber : x ∈ fiber f v ↔ f x = v := Iff.rfl

/-- A thing that comes in. -/
theorem fiber_update_self (f : κ → α) (x : κ) (v : α) : fiber (update f x v) v
      = insert x (fiber f v) := by
  ext y
  obtain rfl | hy := eq_or_ne y x
  · simp only [mem_fiber, update_self, Set.mem_insert_iff, true_or]
  · simp only [mem_fiber, update_of_ne hy, Set.mem_insert_iff, hy, false_or]

/-- A thing that goes out. -/
theorem fiber_update_of_ne (f : κ → α) (x : κ) (h : w ≠ v) :
    fiber (update f x w) v = fiber f v \ {x} := by
  ext y
  obtain rfl | hy := eq_or_ne y x
  · simp only [mem_fiber, update_self, h, Set.mem_sdiff, Set.mem_singleton_iff, not_true_eq_false,
      and_false]
  · simp only [mem_fiber, update_of_ne hy, Set.mem_sdiff, Set.mem_singleton_iff, hy, not_false_eq_true,
      and_true]

/-- The fibers of other values stay as they are. -/
theorem fiber_update (h : f x = v ↔ w = v) : fiber (update f x w) v = fiber f v := by
  ext y
  obtain rfl | hy := eq_or_ne y x
  · rw [mem_fiber, update_self, mem_fiber]
    exact h.symm
  · rw [mem_fiber, update_of_ne hy, mem_fiber]

theorem encard_fiber_insert (h : f x ≠ v) : (fiber (update f x v) v).encard = (fiber f v).encard + 1 := by
  rw [fiber_update_self]
  exact Set.encard_insert_of_notMem h

theorem encard_fiber_erase (h : f x = v) (hw : w ≠ v) :
    (fiber (update f x w) v).encard + 1 = (fiber f v).encard := by
  rw [fiber_update_of_ne f x hw]
  exact Set.encard_sdiff_singleton_add_one h

/-- A count of a fiber, and of the fiber without one of its things. -/
theorem card_pred {x : ℕ∞} {n : ℤ} (hn : 1 ≤ n) (h : x + 1 = n.toNat) : x = (n + -1).toNat := by
  have hsucc : n.toNat = (n + -1).toNat + 1 := by lia
  rw [hsucc, Nat.cast_add, Nat.cast_one] at h
  exact ENat.add_left_injective_of_ne_top (ENat.natCast_ne_top 1) h

end Eabase.Lib
