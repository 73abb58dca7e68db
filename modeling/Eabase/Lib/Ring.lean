import Mathlib.Data.List.Basic
import Mathlib.Data.Nat.Bitwise
import Mathlib.Data.Nat.ModEq

/-!
# Windows of a circular array

An array of `c` cells is read as a circular one through `i ↦ i % c`. The
window of `n` cells that begins at `start` is the list `ringList f c start n`.
The array itself is a total function on indices: cells outside the window
are unrestricted, as they are in the arrays this is used for.

When the capacity is a power of two the code masks instead of dividing;
`land_mask` is the bridge.
-/

namespace Eabase.Lib

open Function List

variable {α : Type*} {f : ℕ → α} {c start n i j : ℕ} {a : α}

/-- The `n` cells from `start` on, wrapping at `c`. -/
def ringList (f : ℕ → α) (c start n : ℕ) : List α :=
  (List.range n).map fun i => f ((start + i) % c)

/-- Masking with `c - 1` is the remainder modulo a power of two. -/
theorem land_mask (hc : ∃ k, c = 2 ^ k) (x : ℕ) : x &&& (c - 1) = x % c := by
  obtain ⟨k, rfl⟩ := hc
  exact Nat.and_two_pow_sub_one_eq_mod x k

@[simp] theorem ringList_length : (ringList f c start n).length = n := by
  simp [ringList]

@[simp] theorem ringList_zero : ringList f c start 0 = [] := rfl

theorem ringList_getElem? (hi : i < n) :
    (ringList f c start n)[i]? = some (f ((start + i) % c)) := by
  simp [ringList, hi]

/-- The window one longer: the new cell comes last. -/
theorem ringList_succ :
    ringList f c start (n + 1) = ringList f c start n ++ [f ((start + n) % c)] := by
  simp [ringList, range_succ]

/-- The window read from its front. -/
theorem ringList_cons :
    ringList f c start (n + 1) = f (start % c) :: ringList f c (start + 1) n := by
  simp only [ringList, range_succ_eq_map, map_cons, map_map, add_zero]
  congr 1
  apply map_congr_left
  intro i _
  simp only [Function.comp_apply]
  congr 2
  lia

/-- The start counts modulo the capacity. -/
theorem ringList_mod : ringList f c (start % c) n = ringList f c start n := by
  simp only [ringList, Nat.mod_add_mod]

/-- Two different offsets of a window address different cells. -/
theorem ring_index_inj (hi : i < c) (hj : j < c)
    (h : (start + i) % c = (start + j) % c) : i = j := by
  have hmod : i ≡ j [MOD c] := Nat.ModEq.add_left_cancel' start h
  exact Nat.ModEq.eq_of_lt_of_lt hmod hi hj

/-- Writing a cell of the window replaces that element. -/
theorem ringList_update (hi : i < n) (hn : n ≤ c) :
    ringList (update f ((start + i) % c) a) c start n = (ringList f c start n).set i a := by
  apply ext_getElem?
  intro j
  rw [getElem?_set]
  by_cases hj : j < n
  · rw [ringList_getElem? hj, ringList_length, ringList_getElem? hj]
    obtain rfl | hij := eq_or_ne i j
    · simp [hi]
    · have hne : (start + j) % c ≠ (start + i) % c := fun h =>
        hij (ring_index_inj (by lia) (by lia) h.symm)
      simp [update_of_ne hne, hij]
  · have h1 : (ringList (update f ((start + i) % c) a) c start n)[j]? = none := by
      simp; lia
    have h2 : (ringList f c start n)[j]? = none := by simp; lia
    have hij : i ≠ j := by lia
    simp only [h1, h2, if_neg hij]

/-- Writing the first cell behind the window leaves the window as it was. -/
theorem ringList_update_end (hn : n < c) :
    ringList (update f ((start + n) % c) a) c start n = ringList f c start n := by
  apply map_congr_left
  intro j hj
  have hj : j < n := mem_range.1 hj
  refine update_of_ne (fun h => ?_) _ _
  have := ring_index_inj (by lia) hn h
  lia

/-- **Push.** Writing the first cell behind the window appends. -/
theorem ringList_push (hn : n < c) : ringList (update f ((start + n) % c) a) c start (n + 1) =
      ringList f c start n ++ [a] := by
  rw [ringList_succ, ringList_update_end hn, update_self]

/-- **Turn.** Writing the first cell of a full window and starting behind it drops the first element
and appends. -/
theorem ringList_turn (hs : start < c) :
    ringList (update f start a) c ((start + 1) % c) c = (ringList f c start c).tail ++ [a] := by
  obtain ⟨m, rfl⟩ : ∃ m, c = m + 1 := ⟨c - 1, by lia⟩
  have hrest : ringList (update f start a) (m + 1) (start + 1) m = ringList f (m + 1) (start + 1) m := by
    apply map_congr_left
    intro j hj
    have hj : j < m := mem_range.1 hj
    refine update_of_ne (fun h => ?_) _ _
    have hmod : (start + (j + 1)) % (m + 1) = (start + 0) % (m + 1) := by
      rw [show start + (j + 1) = start + 1 + j by lia, h, add_zero, Nat.mod_eq_of_lt hs]
    have hindex := ring_index_inj (by lia) (by lia) hmod
    lia
  have hlast : (start + 1 + m) % (m + 1) = start := by
    rw [show start + 1 + m = start + (m + 1) by lia, Nat.add_mod_right, Nat.mod_eq_of_lt hs]
  rw [ringList_mod, ringList_succ, hrest, hlast, update_self, ringList_cons, tail_cons]

/-- The next start. -/
theorem succ_mod_eq (hs : start < c) : (start + 1) % c = if start + 1 ≥ c then 0 else start + 1 := by
  split
  · rw [show start + 1 = c by lia, Nat.mod_self]
  · exact Nat.mod_eq_of_lt (by lia)

/-- What is written outside does not matter. -/
theorem ringList_congr {g : ℕ → α} (hc : 0 < c) (h : ∀ i < c, f i = g i) : ringList f c start n
      = ringList g c start n := by
  apply map_congr_left
  intro i _
  exact h _ (Nat.mod_lt _ hc)

/-- A full window from the first cell on is the array. -/
theorem ringList_whole : ringList f c 0 c = (range c).map f := by
  apply map_congr_left
  intro i hi
  rw [zero_add, Nat.mod_eq_of_lt (mem_range.1 hi)]

end Eabase.Lib
