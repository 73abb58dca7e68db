import Mathlib.Data.List.Nodup
import Mathlib.Data.List.Perm.Subperm
import Mathlib.Data.List.Range
import Mathlib.Data.Nat.Find
import Mathlib.Data.Nat.ModEq

/-!
# Walking around a circle in strides

A walk starts at `a` and takes `n` strides of length `o`; its position counts
modulo `M`, and the place it looks at is the position modulo `n`. When `o` is
coprime to `n`, a walk whose position never wraps at `M` sees each of the `n`
places once. When the position wraps, what is lost is a multiple of `M`, which
is harmless exactly if `n` divides it.
-/

namespace Eabase.Lib

open List

variable {f : ℕ → ℕ} {n a o M i j : ℕ}

/-- The place that a walk looks at in turn `i`. -/
def place (M n a o i : ℕ) : ℕ :=
  (a + i * o) % M % n

/-- Looking at `n` places, among `n`, is seeing each once iff no place is seen twice. -/
theorem perm_range_iff_inj (hf : ∀ i < n, f i < n) :
    ((range n).map f).Perm (range n) ↔ ∀ i < n, ∀ j < n, f i = f j → i = j := by
  constructor
  · intro h i hi j hj heq
    have hnodup : ((range n).map f).Nodup := h.nodup_iff.2 nodup_range
    exact inj_on_of_nodup_map hnodup (mem_range.2 hi) (mem_range.2 hj) heq
  · intro h
    have hnodup : ((range n).map f).Nodup := by
      apply List.Nodup.map_on _ nodup_range
      intro i hi j hj
      exact h i (mem_range.1 hi) j (mem_range.1 hj)
    have hsub : (range n).map f ⊆ range n := by
      intro x hx
      obtain ⟨i, hi, rfl⟩ := mem_map.1 hx
      exact mem_range.2 (hf i (mem_range.1 hi))
    apply (hnodup.subperm hsub).perm_of_length_le
    rw [length_map]

/-- Strides coprime to `n` come back to a place after `n` of them, and no earlier. -/
theorem stride_inj (ho : o.Coprime n) (hi : i < n) (hj : j < n)
    (h : a + i * o ≡ a + j * o [MOD n]) : i = j := by
  have hmul : i * o ≡ j * o [MOD n] := Nat.ModEq.add_left_cancel' a h
  exact (Nat.ModEq.cancel_right_of_coprime ho.symm hmul).eq_of_lt_of_lt hi hj

/-- A walk that wraps at `M` sees a place twice, unless `n` divides `M`. -/
theorem place_twice (ho : o.Coprime n) (hn : 0 < n) (ha : a < M) (hfar : (n - 1) * o < M)
    (hwrap : M ≤ a + (n - 1) * o) (hdvd : ¬ n ∣ M) :
    ∃ i < n, ∃ j < n, i ≠ j ∧ place M n a o i = place M n a o j := by
  -- `k` is the first turn whose position has wrapped, and `t` strides make up for the wrap
  have hex : ∃ k, M ≤ a + k * o := ⟨_, hwrap⟩
  obtain ⟨k, hk, hmin⟩ : ∃ k, M ≤ a + k * o ∧ ∀ j < k, a + j * o < M :=
    ⟨Nat.find hex, Nat.find_spec hex, fun j hj => not_le.1 (Nat.find_min hex hj)⟩
  obtain ⟨t, ht, hto⟩ : ∃ t < n, o * t ≡ M [MOD n] := Nat.exists_mul_mod_eq_of_coprime M ho hn.ne'
  rw [mul_comm] at hto
  have hkn : k ≤ n - 1 := by
    by_contra hlt
    exact absurd (hmin _ (not_le.1 hlt)) (not_lt.2 hwrap)
  have hkpos : 0 < k := by
    apply Nat.pos_of_ne_zero
    rintro rfl
    rw [zero_mul, add_zero] at hk
    exact absurd ha (not_lt.2 hk)
  have htpos : 0 < t := by
    apply Nat.pos_of_ne_zero
    rintro rfl
    rw [zero_mul] at hto
    exact hdvd ((Nat.modEq_zero_iff_dvd).1 hto.symm)
  -- a turn behind the wrap and the one `t` turns earlier, if that is before it, meet
  have hmeet : ∀ j < k, k ≤ j + t → j + t < n → place M n a o (j + t) = place M n a o j := by
    intro j hj hjt hlt
    have hlow : a + j * o < M := hmin j hj
    have hhigh : M ≤ a + (j + t) * o := hk.trans (Nat.add_le_add_left (Nat.mul_le_mul_right o hjt) a)
    have hfit : (j + t) * o < M := (Nat.mul_le_mul_right o (Nat.le_sub_one_of_lt hlt)).trans_lt hfar
    have hsub : (a + (j + t) * o) % M = a + (j + t) * o - M := by
      rw [Nat.mod_eq_sub_mod hhigh, Nat.mod_eq_of_lt (by lia)]
    rw [place, place, hsub, Nat.mod_eq_of_lt hlow]
    apply Nat.ModEq.add_right_cancel' M
    rw [Nat.sub_add_cancel hhigh, add_mul, ← add_assoc]
    exact Nat.ModEq.add_left _ hto
  rcases lt_or_ge t k with htk | htk
  · refine ⟨k - t + t, by lia, k - t, by lia, by lia, ?_⟩
    exact hmeet (k - t) (by lia) (by lia) (by lia)
  · refine ⟨0 + t, by lia, 0, hn, by lia, ?_⟩
    exact hmeet 0 hkpos (by lia) (by lia)

/-- **A walk sees every place once** iff its position does not wrap, or wraps at a multiple of the
places. -/
theorem walk_perm_iff (ho : o.Coprime n) (hn : 0 < n) (ha : a < M) (hfar : (n - 1) * o < M) :
    ((range n).map (place M n a o)).Perm (range n) ↔ a + (n - 1) * o < M ∨ n ∣ M := by
  rw [perm_range_iff_inj (f := place M n a o) fun i _ => Nat.mod_lt _ hn]
  constructor
  · intro h
    by_contra hnot
    obtain ⟨hwrap, hdvd⟩ := not_or.1 hnot
    obtain ⟨i, hi, j, hj, hne, heq⟩ := place_twice ho hn ha hfar (not_lt.1 hwrap) hdvd
    exact hne (h i hi j hj heq)
  · intro h i hi j hj heq
    apply stride_inj (a := a) ho hi hj
    rcases h with hfit | hdvd
    · have hlt : ∀ i < n, a + i * o < M := fun i hi =>
        (Nat.add_le_add_left (Nat.mul_le_mul_right o (Nat.le_sub_one_of_lt hi)) a).trans_lt hfit
      rw [place, place, Nat.mod_eq_of_lt (hlt i hi), Nat.mod_eq_of_lt (hlt j hj)] at heq
      exact heq
    · rw [place, place, Nat.mod_mod_of_dvd _ hdvd, Nat.mod_mod_of_dvd _ hdvd] at heq
      exact heq

end Eabase.Lib
