import Mathlib.Data.Multiset.AddSub
import Mathlib.Data.List.GetD

/-!
# Taking elements out of an array

An element is taken out of the first `n` elements of an array: the last of them
is put in its place, and the first `n - 1` elements are what is left. An element
is put into a full array in the place of another one.
-/

namespace Eabase.Lib

open List Multiset

variable {α : Type*} {j n : ℕ} {l : List α}

/-- The element at `j` and what is left are the elements that were there. -/
theorem cons_take_set_perm (d : α) (hj : j < n) (hn : n ≤ l.length) :
    (l.getD j d :: (l.set j (l.getD (n - 1) d)).take (n - 1)).Perm (l.take n) := by
  have hlen : (l.take n).length = n := length_take_of_le hn
  have hlast : n - 1 < (l.take n).length := by
    rw [hlen]
    exact Nat.sub_one_lt_of_lt hj
  have hj' : j < (l.take n).length := hj.trans_eq hlen.symm
  have hgetj : l.getD j d = (l.take n)[j] := by
    rw [getElem_take, getD_eq_getElem l d (hj.trans_le hn)]
  have hgetl : l.getD (n - 1) d = (l.take n)[n - 1] := by
    rw [getElem_take, getD_eq_getElem l d (by lia)]
  have hswap := set_set_perm hj' hlast
  rw [hgetj, hgetl]
  generalize (l.take n)[j] = x at hswap ⊢
  generalize (l.take n)[n - 1] = y at hswap ⊢
  have hsplit : ((l.take n).set j y).set (n - 1) x = (l.set j y).take (n - 1) ++ [x] := by
    have hset : n - 1 < ((l.take n).set j y).length := by rwa [length_set]
    have hdrop : ((l.take n).set j y).drop (n - 1 + 1) = [] := by
      apply drop_eq_nil_of_le
      rw [length_set, hlen]
      lia
    rw [set_eq_take_append_cons_drop, if_pos hset, hdrop, ← take_set, take_take,
      min_eq_left (Nat.sub_le n 1)]
  rw [hsplit] at hswap
  exact (perm_append_singleton _ _).symm.trans hswap

/-- What is left is a part of what was there. -/
theorem take_set_subperm (d : α) (hj : j < n) (hn : n ≤ l.length) :
    ((l.set j (l.getD (n - 1) d)).take (n - 1)).Subperm (l.take n) :=
  (sublist_cons_self _ _).subperm.trans (cons_take_set_perm d hj hn).subperm

/-- Exchanging instead of overwriting leaves the same. -/
theorem take_swap (l : List α) (n j : ℕ) (x y : α) :
    ((l.set j x).set (n - 1) y).take (n - 1) = (l.set j x).take (n - 1) :=
  take_set_of_le le_rfl

/-- An element that is put in the place of another one. -/
theorem coe_set_le (l : List α) (k : ℕ) (x : α) : (↑(l.set k x) : Multiset α) ≤ ↑l + {x} := by
  induction l generalizing k with
  | nil => exact zero_le _
  | cons y l ih =>
    cases k with
    | zero =>
      rw [set_cons_zero, ← Multiset.cons_coe, ← Multiset.cons_coe, Multiset.add_comm,
        Multiset.singleton_add]
      exact cons_le_cons x (le_cons_self _ y)
    | succ k =>
      rw [set_cons_succ, ← cons_coe, ← cons_coe, cons_add]
      exact cons_le_cons y (ih k)

end Eabase.Lib
