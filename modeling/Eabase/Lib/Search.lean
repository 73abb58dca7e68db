import Mathlib.Data.List.Infix
import Mathlib.Data.Nat.Find

/-!
# Searching a text that is read once

A text is read letter by letter, in pieces that mean nothing, with a state that
follows what has been read. A search stops at the first letter after which the
state is a hit; where that is depends on the whole text only.
-/

namespace Eabase.Lib

open List

variable {α σ : Type*} {next : σ → α → σ} {hit : σ → Bool} {d s : List α} {i j : ℕ} {w : ℕ}

/-! ## The first occurrence -/

structure FirstAt (d s : List α) (i : ℕ) : Prop where
  at_place : d <+: s.drop i
  first : ∀ j < i, ¬d <+: s.drop j

theorem infix_iff_exists_drop : d <:+: s ↔ ∃ i, d <+: s.drop i := by
  constructor
  · rintro ⟨t, u, rfl⟩
    refine ⟨t.length, ?_⟩
    rw [append_assoc, drop_left]
    exact prefix_append d u
  · rintro ⟨i, hi⟩
    exact hi.isInfix.trans (drop_suffix i s).isInfix

theorem FirstAt.isInfix (h : FirstAt d s i) : d <:+: s :=
  infix_iff_exists_drop.2 ⟨i, h.at_place⟩

theorem FirstAt.unique (h : FirstAt d s i) (h' : FirstAt d s j) : i = j := by
  rcases Nat.lt_trichotomy i j with hlt | heq | hgt
  · exact absurd h.at_place (h'.first i hlt)
  · exact heq
  · exact absurd h'.at_place (h.first j hgt)

/-- A word that is not empty ends within the text. -/
theorem FirstAt.le (h : FirstAt d s i) (hd : d ≠ []) : i + d.length ≤ s.length := by
  have hle := h.at_place.length_le
  have hpos := length_pos_iff.2 hd
  rw [length_drop] at hle
  lia

/-- In a window, a word stands where it stands in the text, as long as it ends in the window. -/
theorem prefix_drop_take_iff (hle : i + d.length ≤ w) : d <+: (s.take w).drop i ↔ d <+: s.drop i := by
  rw [drop_take]
  constructor
  · exact fun h => h.trans ( take_prefix _ _)
  · intro h
    rw [prefix_take_iff]
    exact ⟨h, by lia⟩

theorem FirstAt.of_take (h : FirstAt d (s.take w) i) (hd : d ≠ []) : FirstAt d s i := by
  have hle := h.le hd
  have hw := length_take_le w s
  refine ⟨(prefix_drop_take_iff (hle.trans hw)).1 h.at_place, ?_⟩
  intro j hj hat
  exact h.first j hj ((prefix_drop_take_iff (by lia)).2 hat)

/-- Where the word stands first behind a place before which it does not begin. -/
theorem FirstAt.of_drop {m : ℕ} (h : FirstAt d (s.drop m) i) (hno : ∀ j < m, ¬d <+: s.drop j) :
    FirstAt d s (m + i) := by
  refine ⟨by simpa [drop_drop] using h.at_place, ?_⟩
  intro j hj hat
  by_cases hlt : j < m
  · exact hno j hlt hat
  · apply h.first (j - m) (by lia)
    rwa [drop_drop, Nat.add_sub_cancel' (Nat.le_of_not_lt hlt)]

/-! ## The scan -/

/-- Reads the letters of a piece, `n` letters having been read: where it stops, or the state and the
number behind the piece. -/
def scan (next : σ → α → σ) (hit : σ → Bool) : List α → σ → ℕ → ℕ ⊕ σ × ℕ
  | [], st, n => .inr (st, n)
  | c :: cs, st, n =>
    let st := next st c
    if hit st then .inl n else scan next hit cs st (n + 1)

structure FirstHit (next : σ → α → σ) (hit : σ → Bool) (st : σ) (s : List α) (n : ℕ) : Prop where
  lt : n < s.length
  hits : hit ((s.take (n + 1)).foldl next st) = true
  first : ∀ m < n, hit ((s.take (m + 1)).foldl next st) = false

theorem scan_append (s t : List α) (st : σ) (n : ℕ) : scan next hit (s ++ t) st n =
      match scan next hit s st n with
      | .inl n => .inl n
      | .inr (st, n) => scan next hit t st n := by
  induction s generalizing st n with
  | nil => rfl
  | cons c s ih =>
    rw [cons_append, scan, scan]
    by_cases hhit : hit (next st c) = true
    · simp only [if_pos hhit]
    · simp only [if_neg hhit]
      exact ih _ _

end Eabase.Lib
