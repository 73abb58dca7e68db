import Mathlib.Data.List.DropRight

/-!
# Places in a sequence of pieces

A sequence is stored in pieces and changes at its back only: elements come in a
new piece or are added to the last one, and the last piece is taken off or made
shorter. A place, given as the number of a piece and an offset into it, stays
the same place of the sequence as long as the sequence reaches beyond it.
-/

namespace Eabase.Lib

open List

variable {α : Type*} {A B : α → Prop} {L L' M : List (List α)} {x y : List α} {idx off place : ℕ}

/-- Elements with the property `A` are added at the back. -/
inductive GrowsBy (A : α → Prop) (L : List (List α)) : List (List α) → Prop
  | refl : GrowsBy A L L
  | push {M : List (List α)} {x : List α} : GrowsBy A L M → (∀ a ∈ x, A a) → GrowsBy A L (M ++ [x])
  | extend {M : List (List α)} {y x : List α} :
      GrowsBy A L (M ++ [y]) → (∀ a ∈ x, A a) → GrowsBy A L (M ++ [y ++ x])

inductive Shrinks (L : List (List α)) : List (List α) → Prop
  | refl : Shrinks L L
  | drop {M : List (List α)} {x : List α} : Shrinks L (M ++ [x]) → Shrinks L M
  | trim {M : List (List α)} {x y : List α} : Shrinks L (M ++ [x]) → y <+: x → Shrinks L (M ++ [y])

/-- The offset `off` in the piece `idx` is the place `place` of the sequence. -/
def PlaceAt (L : List (List α)) (idx off place : ℕ) : Prop :=
  ∃ front x back, L = front ++ x :: back ∧ front.length = idx ∧ off < x.length ∧
    front.flatten.length + off = place

/-! ## Growing -/

theorem GrowsBy.trans (h : GrowsBy A L M) (h' : GrowsBy A M L') : GrowsBy A L L' := by
  induction h' with
  | refl => exact h
  | push _ hx ih => exact ih.push hx
  | extend _ hx ih => exact ih.extend hx

theorem GrowsBy.mono (h : GrowsBy A L L') (hAB : ∀ a, A a → B a) : GrowsBy B L L' := by
  induction h with
  | refl => exact .refl
  | push _ hx ih => exact ih.push fun a ha => hAB a (hx a ha)
  | extend _ hx ih => exact ih.extend fun a ha => hAB a (hx a ha)

/-- What is there stays in front, and what is added has the property. -/
theorem GrowsBy.flatten (h : GrowsBy A L L') : ∃ new, L'.flatten = L.flatten ++ new ∧ ∀ a ∈ new, A a := by
  induction h with
  | refl => exact ⟨[], (append_nil _).symm, fun a ha => absurd ha not_mem_nil⟩
  | @push M x _ hx ih =>
    obtain ⟨new, hnew, hA⟩ := ih
    refine ⟨new ++ x, ?_, ?_⟩
    · rw [flatten_concat, hnew, append_assoc]
    · intro a ha
      rcases mem_append.1 ha with ha | ha
      · exact hA a ha
      · exact hx a ha
  | @extend M y x _ hx ih =>
    obtain ⟨new, hnew, hA⟩ := ih
    refine ⟨new ++ x, ?_, ?_⟩
    · rw [flatten_concat, ← append_assoc, ← flatten_concat, hnew, append_assoc]
    · intro a ha
      rcases mem_append.1 ha with ha | ha
      · exact hA a ha
      · exact hx a ha

/-! ## Shrinking -/

theorem Shrinks.flatten (h : Shrinks L L') : L'.flatten <+: L.flatten := by
  induction h with
  | refl => exact prefix_refl _
  | @drop M x _ ih =>
    rw [flatten_concat] at ih
    exact (prefix_append _ _).trans ih
  | @trim M x y _ hy ih =>
    rw [flatten_concat] at ih ⊢
    exact ((prefix_append_right_inj _).2 hy).trans ih

theorem Shrinks.trans (h : Shrinks L M) (h' : Shrinks M L') : Shrinks L L' := by
  induction h' with
  | refl => exact h
  | drop _ ih => exact ih.drop
  | trim _ hy ih => exact ih.trim hy

theorem Shrinks.nil : ∀ L : List (List α), Shrinks L [] := by
  have hall : ∀ L M : List (List α), Shrinks L M → Shrinks L [] := by
    intro L M
    induction M using reverseRecOn with
    | nil => exact id
    | append_singleton M x ih => exact fun h => ih h.drop
  exact fun L => hall L L .refl

/-! ## Places -/

/-- The last piece is the one of the place, or it is behind it. -/
theorem PlaceAt.cases_last (h : PlaceAt (M ++ [x]) idx off place) :
    (M.length = idx ∧ off < x.length ∧ M.flatten.length + off = place) ∨ PlaceAt M idx off place := by
  obtain ⟨front, z, back, hL, hidx, hoff, hplace⟩ := h
  induction back using reverseRecOn with
  | nil =>
    left
    obtain ⟨rfl, hz⟩ := append_inj' hL rfl
    obtain rfl : x = z := singleton_inj.1 hz
    exact ⟨hidx, hoff, hplace⟩
  | append_singleton back w _ =>
    right
    rw [← cons_append, ← append_assoc] at hL
    obtain ⟨rfl, -⟩ := append_inj' hL rfl
    exact ⟨front, z, back, rfl, hidx, hoff, hplace⟩

theorem PlaceAt.push (h : PlaceAt M idx off place) (x : List α) : PlaceAt (M ++ [x]) idx off place := by
  obtain ⟨front, z, back, rfl, hidx, hoff, hplace⟩ := h
  refine ⟨front, z, back ++ [x], ?_, hidx, hoff, hplace⟩
  rw [append_assoc, cons_append]

theorem placeAt_last (hoff : off < x.length) : PlaceAt (M ++ [x]) M.length off (M.flatten.length + off) :=
  ⟨M, x, [], rfl, rfl, hoff, rfl⟩

section

variable (h : PlaceAt L idx off place)
include h

/-- **A place is kept when the sequence grows.** -/
theorem PlaceAt.growsBy (hg : GrowsBy A L L') : PlaceAt L' idx off place := by
  induction hg with
  | refl => exact h
  | push _ _ ih => exact ih.push _
  | @extend M y x _ _ ih =>
    rcases ih.cases_last with ⟨rfl, hoff, rfl⟩ | hM
    · apply placeAt_last
      rw [length_append]
      exact lt_of_lt_of_le hoff (Nat.le_add_right _ _)
    · exact hM.push _

/-- **A place is kept when the sequence shrinks and still reaches beyond it.** -/
theorem PlaceAt.shrinks (hs : Shrinks L L') (hlt : place < L'.flatten.length) :
    PlaceAt L' idx off place := by
  induction hs with
  | refl => exact h
  | @drop M x _ ih =>
    have hmore : place < (M ++ [x]).flatten.length := by
      rw [flatten_concat, length_append]
      exact lt_of_lt_of_le hlt (Nat.le_add_right _ _)
    rcases (ih hmore).cases_last with ⟨-, -, rfl⟩ | hM
    · exact absurd hlt (Nat.not_lt.2 (Nat.le_add_right _ _))
    · exact hM
  | @trim M x y _ hy ih =>
    have hmore : place < (M ++ [x]).flatten.length := by
      rw [flatten_concat, length_append] at hlt ⊢
      exact lt_of_lt_of_le hlt (Nat.add_le_add_left hy.length_le _)
    rcases (ih hmore).cases_last with ⟨rfl, -, rfl⟩ | hM
    · apply placeAt_last
      rw [flatten_concat, length_append] at hlt
      exact Nat.lt_of_add_lt_add_left hlt
    · exact hM.push _

/-- From the piece of the place on, behind the offset, there is what is behind the place. -/
theorem PlaceAt.drop : ((L.drop idx).flatten).drop off = L.flatten.drop place := by
  obtain ⟨front, z, back, rfl, rfl, -, rfl⟩ := h
  rw [drop_left, flatten_append, ← drop_drop, drop_left]

end

end Eabase.Lib
