import Mathlib.Algebra.Order.Ring.Int
import Mathlib.Data.List.DropRight

/-!
# Splitting at separators

The pieces of a list between the elements that are separators, with the empty
ones left out, or with only an empty last one left out. Both are read off from
the front: the next piece is what stands before the first separator.
-/

namespace Eabase.Lib

open List

variable {α : Type*} {p : α → Bool} {a : α} {s : List α}

/-- The runs without separators that are as long as possible and not empty. -/
def runs (p : α → Bool) (s : List α) : List (List α) :=
  (s.splitOnP p).filter (· ≠ [])

/-- Without an empty list at the end. -/
def dropEmptyLast (l : List (List α)) : List (List α) :=
  if l.getLastD [] = [] then l.dropLast else l

/-- The pieces between separators, without an empty one at the end. -/
def pieces (p : α → Bool) (s : List α) : List (List α) :=
  dropEmptyLast (s.splitOnP p)

theorem dropEmptyLast_cons {l : List (List α)} (f : List α) (hl : l ≠ []) :
    dropEmptyLast (f :: l) = f :: dropEmptyLast l := by
  obtain ⟨b, l, rfl⟩ := exists_cons_of_ne_nil hl
  exact (apply_ite (cons f) _ _ _).symm

/-- The first piece and what is behind the separator after it. -/
theorem splitOnP_eq (p : α → Bool) (s : List α) : s.splitOnP p = s.takeWhile (!p ·) ::
      match s.dropWhile (!p ·) with
      | [] => []
      | _ :: t => t.splitOnP p := by
  have hfree : ∀ x ∈ s.takeWhile (!p ·), p x = false := by
    intro x hx
    have hx := mem_takeWhile_imp hx
    rwa [Bool.not_eq_true'] at hx
  rcases hdrop : s.dropWhile (!p ·) with - | ⟨a, t⟩
  · have hs : s.takeWhile (!p ·) = s := by
      rw [← append_nil (s.takeWhile _), ← hdrop, takeWhile_append_dropWhile]
    rw [hs] at hfree ⊢
    exact splitOnP_eq_singleton hfree
  · have ha : p a = true := by
      have hhead := head?_dropWhile_not (!p ·) s
      rw [hdrop] at hhead
      simpa using hhead
    have hs : s = s.takeWhile (!p ·) ++ a :: t := by
      rw [← hdrop, takeWhile_append_dropWhile]
    conv_lhs => rw [hs]
    exact splitOnP_append_cons_of_forall_mem hfree a ha t

theorem runs_cons (ha : p a = true) : runs p (a :: s) = runs p s := by
  rw [runs, runs, splitOnP_cons_eq_if_modifyHead, if_pos ha]
  exact filter_cons_of_neg (by simp)

/-- Separators at the front are no part of a run. -/
theorem runs_dropWhile (p : α → Bool) (s : List α) : runs p (s.dropWhile p) = runs p s := by
  induction s with
  | nil => rfl
  | cons a s ih =>
    rw [dropWhile_cons]
    split
    case isTrue ha => rw [ih, runs_cons ha]
    case isFalse => rfl

/-- A list that begins with no separator begins with its first run. -/
theorem runs_eq (hs : ∀ a ∈ s.head?, p a = false) (hne : s ≠ []) :
    runs p s = s.takeWhile (!p ·) :: runs p (s.dropWhile (!p ·)).tail := by
  have hfirst : s.takeWhile (!p ·) ≠ [] := by
    rcases s with - | ⟨a, s⟩
    · exact absurd rfl hne
    · rw [takeWhile_cons_of_pos (by rw [hs a rfl]; rfl)]
      exact cons_ne_nil _ _
  rw [runs, splitOnP_eq, filter_cons_of_pos (by simpa using hfirst)]
  rcases s.dropWhile (!p ·) with - | ⟨a, t⟩
  · rfl
  · rfl

theorem runs_nil : runs p ([] : List α) = [] := by
  rw [runs, splitOnP_nil]
  rfl

theorem pieces_nil : pieces p ([] : List α) = [] := by
  rw [pieces, splitOnP_nil]
  rfl

theorem pieces_eq (hne : s ≠ []) :
    pieces p s = s.takeWhile (!p ·) :: pieces p (s.dropWhile (!p ·)).tail := by
  rw [pieces, splitOnP_eq]
  rcases hdrop : s.dropWhile (!p ·) with - | ⟨a, t⟩
  · -- No separator is left, so that the list itself is the last piece.
    have hs : s.takeWhile (!p ·) = s := by
      rw [← append_nil (s.takeWhile _), ← hdrop, takeWhile_append_dropWhile]
    rw [hs, tail_nil, pieces_nil]
    exact if_neg hne
  · exact dropEmptyLast_cons _ (splitOnP_ne_nil p t)

end Eabase.Lib
