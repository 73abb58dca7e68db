import Mathlib.Data.List.DropRight

/-!
# Blocks of a sequence

A sequence that grows at its end is cut into blocks of one length, from its
beginning on; the last, incomplete one does not count. A block is complete when
the length is a multiple, and it is the end of the sequence then.

With an associative operation the fold of a block of blocks is the fold of the
larger block.
-/

namespace Eabase.Lib

open List

variable {α : Type*} {xs ys : List α} {x a : α} {m k n : ℕ}

/-- The complete blocks of `m` elements. -/
def blocks (m : ℕ) (xs : List α) : List (List α) :=
  (List.range (xs.length / m)).map fun k => (xs.drop (k * m)).take m

@[simp] theorem blocks_nil : blocks m ([] : List α) = [] := by
  rw [blocks, length_nil, Nat.zero_div]
  rfl

@[simp] theorem length_blocks : (blocks m xs).length = xs.length / m := by
  rw [blocks, length_map, length_range]

theorem length_of_mem_blocks {b : List α} (h : b ∈ blocks m xs) : b.length = m := by
  obtain ⟨k, hk, rfl⟩ := mem_map.1 h
  have hlt : k + 1 ≤ xs.length / m := mem_range.1 hk
  have hle : (k + 1) * m ≤ xs.length := (Nat.mul_le_mul_right m hlt).trans (Nat.div_mul_le_self _ _)
  rw [Nat.succ_mul] at hle
  rw [length_take, length_drop]
  lia

/-- One more element makes no block complete, or it makes the end of the sequence one. -/
theorem blocks_concat (hm : 0 < m) :
    blocks m (xs ++ [x]) = if (xs.length + 1) % m = 0 then blocks m xs ++
    [(xs ++ [x]).rtake m] else blocks m xs := by
  have hold : ∀ k < xs.length / m, ((xs ++ [x]).drop (k * m)).take m = (xs.drop (k * m)).take m := by
    intro k hk
    have hle : (k + 1) * m ≤ xs.length := (Nat.mul_le_mul_right m hk).trans (Nat.div_mul_le_self _ _)
    rw [Nat.succ_mul] at hle
    rw [drop_append_of_le_length (by lia), take_append_of_le_length (by rw [length_drop]; lia)]
  have hsame : (range (xs.length / m)).map (fun k => ((xs ++ [x]).drop (k * m)).take m)
      = blocks m xs := by
    apply map_congr_left
    intro k hk
    exact hold k (mem_range.1 hk)
  rw [blocks, length_append, length_singleton, Nat.succ_div]
  by_cases hdvd : m ∣ xs.length + 1
  · rw [if_pos hdvd, if_pos (Nat.mod_eq_zero_of_dvd hdvd), range_succ, map_append, hsame]
    congr 1
    obtain ⟨j, hj⟩ := hdvd
    have hdiv : xs.length / m = j - 1 := by
      have hsucc : (xs.length + 1) / m = xs.length / m + _ := Nat.succ_div
      rw [if_pos ⟨j, hj⟩, hj, Nat.mul_div_cancel_left j hm] at hsucc
      exact (Nat.sub_eq_of_eq_add hsucc).symm
    have hpos : 0 < j := by
      rcases Nat.eq_zero_or_pos j with rfl | hpos
      · rw [Nat.mul_zero] at hj
        exact absurd hj (Nat.succ_ne_zero _)
      · exact hpos
    obtain ⟨i, rfl⟩ : ∃ i, j = i + 1 := ⟨j - 1, by lia⟩
    have hmul : m * (i + 1) = i * m + m := by rw [Nat.mul_comm, Nat.succ_mul]
    rw [map_singleton, hdiv, Nat.add_sub_cancel, rtake, length_append, length_singleton, hj, hmul,
      Nat.add_sub_cancel]
    congr 1
    apply take_of_length_le
    rw [length_drop, length_append, length_singleton, hj, hmul]
    lia
  · rw [if_neg hdvd, if_neg (fun h => hdvd (Nat.dvd_of_mod_eq_zero h)), Nat.add_zero, hsame]

/-- The last elements of a sequence that has one more. -/
theorem rtake_concat (hn : 0 < n) (hlen : n ≤ xs.length) :
    (xs ++ [x]).rtake n = (xs.rtake n).tail ++ [x] := by
  obtain ⟨k, rfl⟩ : ∃ k, n = k + 1 := ⟨n - 1, by lia⟩
  rw [rtake_concat_succ, rtake, rtake, tail_drop]
  congr 3
  lia

theorem rtake_append_of_le (h : n ≤ ys.length) : (xs ++ ys).rtake n = ys.rtake n := by
  rw [rtake, rtake, length_append, Nat.add_sub_assoc h, drop_append, Nat.add_sub_cancel_left,
    drop_eq_nil_of_le (Nat.le_add_right _ _), nil_append]

/-! ## Folds -/

/-- The fold of a sequence by an operation without a neutral element; `z` when there is nothing. -/
def opFold (op : α → α → α) (z : α) : List α → α
  | [] => z
  | x :: xs => xs.foldl op x

variable {op : α → α → α} {z : α}

section

variable (hop : ∀ a b c, op (op a b) c = op a (op b c))
include hop

theorem foldl_assoc (a x : α) (xs : List α) :
    xs.foldl op (op a x) = op a (xs.foldl op x) := by
  induction xs generalizing x with
  | nil => rfl
  | cons y xs ih => rw [foldl_cons, foldl_cons, hop, ih]

/-- The fold of two parts. -/
theorem opFold_append (hxs : xs ≠ []) (hys : ys ≠ []) :
    opFold op z (xs ++ ys) = op (opFold op z xs) (opFold op z ys) := by
  cases xs with
  | nil => exact absurd rfl hxs
  | cons x xs =>
    cases ys with
    | nil => exact absurd rfl hys
    | cons y ys => rw [cons_append, opFold, opFold, opFold, foldl_append, foldl_cons, foldl_assoc hop]

/-- The fold of the folds of parts. -/
theorem opFold_map_opFold {xss : List (List α)}
    (hxss : ∀ xs ∈ xss, xs ≠ []) : opFold op z (xss.map (opFold op z)) = opFold op z xss.flatten := by
  induction xss using reverseRecOn with
  | nil => rfl
  | append_singleton xss xs ih =>
    have hxs : xs ≠ [] := hxss xs (mem_append_right _ mem_cons_self)
    have hrest : ∀ ys ∈ xss, ys ≠ [] := fun ys hys => hxss ys (mem_append_left _ hys)
    rw [map_append, map_singleton, flatten_append, flatten_singleton]
    by_cases hnil : xss = []
    · subst hnil
      rfl
    · have hmap : xss.map (opFold op z) ≠ [] := fun h => hnil (map_eq_nil_iff.1 h)
      have hflat : xss.flatten ≠ [] := by
        obtain ⟨ys, hys⟩ := exists_mem_of_ne_nil _ hnil
        intro h
        exact hrest ys hys (flatten_eq_nil_iff.1 h ys hys)
      rw [opFold_append hop hmap (cons_ne_nil _ _), opFold_append hop hflat hxs, ih hrest]
      rfl

end

/-- The elements of a run of blocks. -/
theorem flatten_blocks {i : ℕ} (h : i + n ≤ xs.length / m) :
    (((blocks m xs).drop i).take n).flatten = (xs.drop (i * m)).take (n * m) := by
  have hrun : ((blocks m xs).drop i).take n = (range n).map fun t => (xs.drop ((i + t) * m)).take m := by
    apply ext_getElem
    · rw [length_take, length_drop, length_blocks, length_map, length_range]
      exact Nat.min_eq_left (Nat.le_sub_of_add_le (by rwa [Nat.add_comm]))
    · intro t _ _
      rw [getElem_take, getElem_drop, getElem_map, getElem_range]
      simp only [blocks, getElem_map, getElem_range]
  rw [hrun]
  clear hrun h
  induction n with
  | zero =>
    rw [Nat.zero_mul, take_zero]
    rfl
  | succ n ih =>
    rw [range_succ, map_append, flatten_append, ih, map_singleton, flatten_singleton,
      Nat.succ_mul, take_add, drop_drop, ← Nat.add_mul]

/-- Blocks of blocks are larger blocks. -/
theorem blocks_map_opFold (hop : ∀ a b c, op (op a b) c = op a (op b c)) (hm : 0 < m) (n : ℕ)
    (xs : List α) :
    (blocks n ((blocks m xs).map (opFold op z))).map (opFold op z)
      = (blocks (n * m) xs).map (opFold op z) := by
  have hcount : ((blocks m xs).map (opFold op z)).length / n = xs.length / (n * m) := by
    rw [length_map, length_blocks, Nat.div_div_eq_div_mul, Nat.mul_comm]
  have hblocks : blocks n ((blocks m xs).map (opFold op z)) = (range (xs.length / (n * m))).map fun k =>
      (((blocks m xs).map (opFold op z)).drop (k * n)).take n := by
    rw [← hcount]
    rfl
  rw [hblocks, blocks.eq_def (n * m), map_map, map_map]
  apply map_congr_left
  intro k hk
  have hk : k + 1 ≤ xs.length / (n * m) := mem_range.1 hk
  have hle : k * n + n ≤ xs.length / m := by
    have hmul := Nat.mul_le_mul_right n hk
    rw [Nat.mul_comm n m, ← Nat.div_div_eq_div_mul, Nat.succ_mul] at hmul
    exact hmul.trans (Nat.div_mul_le_self _ _)
  have hne : ∀ ys ∈ ((blocks m xs).drop (k * n)).take n, ys ≠ [] := by
    intro ys hys hnil
    have hlen := length_of_mem_blocks (mem_of_mem_drop (mem_of_mem_take hys))
    rw [hnil, length_nil] at hlen
    lia
  show opFold op z ((((blocks m xs).map (opFold op z)).drop (k * n)).take n) = _
  rw [← map_drop, ← map_take, opFold_map_opFold hop hne, flatten_blocks hle, Nat.mul_assoc]
  rfl

end Eabase.Lib
