import Mathlib.Data.Finset.Basic
import Mathlib.Data.Finset.Image
import Mathlib.Algebra.Order.Group.Multiset

/-!
# What a set of cells contains

A memory is a function from cells to values. What a finite set of cells
contains is the multiset of their values: a write takes the old value out and
puts the new one in, and moving values around by a permutation of the cells
changes nothing.
-/

namespace Eabase.Lib

open Function Multiset

variable {κ α : Type*} {f g : κ → α} {C D : Finset κ} {p : κ} {v : α}

/-- The values in the cells `C`, with repetition. -/
def contents (f : κ → α) (C : Finset κ) : Multiset α :=
  C.val.map f

theorem contents_congr (h : ∀ p ∈ C, f p = g p) : contents f C = contents g C :=
  map_congr rfl h

theorem contents_insert [DecidableEq κ] (hp : p ∉ C) : contents f (insert p C)
      = f p ::ₘ contents f C := by
  rw [contents, Finset.insert_val_of_notMem hp, map_cons]
  rfl

/-- Disjoint sets of cells. -/
theorem contents_disjUnion (h : Disjoint C D) :
    contents f (C.disjUnion D h) = contents f C + contents f D :=
  map_add ..

/-- The **write rule**: the new value comes in for the old one. -/
theorem contents_update [DecidableEq κ] (hp : p ∈ C) :
    contents (update f p v) C + {f p} = contents f C + {v} := by
  obtain ⟨D, hD, rfl⟩ : ∃ D : Finset κ, p ∉ D ∧ C = insert p D :=
    ⟨C.erase p, Finset.notMem_erase p C, (Finset.insert_erase hp).symm⟩
  have hsame : contents (update f p v) D = contents f D := by
    apply contents_congr
    intro q hq
    apply update_of_ne
    rintro rfl
    exact hD hq
  rw [contents_insert hD, contents_insert hD, hsame, update_self]
  rw [← singleton_add, ← singleton_add]
  calc {v} + contents f D + {f p} = {v} + {f p} + contents f D := add_right_comm ..
    _ = {f p} + {v} + contents f D := by rw [add_comm ({v} : Multiset α)]
    _ = {f p} + contents f D + {v} := add_right_comm ..

/-- The **move rule**: a permutation of the cells moves the values around. -/
theorem contents_comp (σ : Equiv.Perm κ) (hσ : ∀ p, σ p ∈ C ↔ p ∈ C) :
    contents (f ∘ σ) C = contents f C := by
  have hmap : C.val.map σ = C.val := by
    apply (Multiset.Nodup.ext (C.nodup.map σ.injective) C.nodup).2
    intro p
    rw [mem_map]
    constructor
    · rintro ⟨q, hq, rfl⟩
      exact (hσ q).2 hq
    · intro hp
      refine ⟨σ.symm p, ?_, σ.apply_symm_apply p⟩
      apply (hσ _).1
      rw [σ.apply_symm_apply]
      exact hp
  calc contents (f ∘ σ) C = (C.val.map σ).map f := (map_map ..).symm
    _ = contents f C := by rw [hmap]; rfl

end Eabase.Lib
