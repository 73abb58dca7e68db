import Mathlib.Algebra.BigOperators.Group.Multiset.Basic
import Mathlib.Data.List.GetD
import Mathlib.Data.Multiset.Range

/-!
# Tallies

A value of a commutative monoid that is a product of updates, with the numbers
of these updates. Tallies are multiplied as their values are. When the values
of all updates are in a log, a tally *is of* the log when its value is the
product of what the log has under its numbers; then the tally of all numbers
has the product of the whole log, however it was put together.
-/

namespace Eabase.Lib

open List

variable {M : Type*} [CommMonoid M]

/-- A value and the numbers of the updates that it is made of. -/
structure Tally (M : Type*) where
  val : M
  ups : Multiset ℕ

namespace Tally

omit [CommMonoid M] in
@[ext] theorem ext {p q : Tally M} (hval : p.val = q.val) (hups : p.ups = q.ups) : p = q := by
  cases p
  cases q
  simp_all

instance : CommMonoid (Tally M) where
  mul p q := ⟨p.val * q.val, p.ups + q.ups⟩
  one := ⟨1, 0⟩
  mul_assoc _ _ _ := Tally.ext (mul_assoc ..) (add_assoc ..)
  one_mul _ := Tally.ext (one_mul _) (zero_add _)
  mul_one _ := Tally.ext (mul_one _) (add_zero _)
  mul_comm _ _ := Tally.ext (mul_comm ..) (add_comm ..)

@[simp] theorem val_one : (1 : Tally M).val = 1 := rfl
@[simp] theorem ups_one : (1 : Tally M).ups = 0 := rfl
@[simp] theorem val_mul (p q : Tally M) : (p * q).val = p.val * q.val := rfl
@[simp] theorem ups_mul (p q : Tally M) : (p * q).ups = p.ups + q.ups := rfl

/-- The value of an update; numbers that the log does not have count nothing. -/
def entry (log : List M) (n : ℕ) : M :=
  log.getD n 1

structure Of (log : List M) (p : Tally M) : Prop where
  val : p.val = (p.ups.map (entry log)).prod
  lt : ∀ n ∈ p.ups, n < log.length

variable {log : List M} {p q : Tally M}

theorem Of.one : Of log 1 where
  val := rfl
  lt _ := nofun

theorem Of.mul (hp : Of log p) (hq : Of log q) : Of log (p * q) where
  val := by
    rw [val_mul, ups_mul, Multiset.map_add, Multiset.prod_add, hp.val, hq.val]
  lt n hn := by
    rcases Multiset.mem_add.1 hn with hn | hn
    · exact hp.lt n hn
    · exact hq.lt n hn

theorem Of.prod {l : List (Tally M)} (h : ∀ p ∈ l, Of log p) : Of log l.prod := by
  induction l with
  | nil => exact Of.one
  | cons p l ih =>
    rw [prod_cons]
    exact (h p mem_cons_self).mul (ih fun q hq => h q (mem_cons_of_mem _ hq))

/-- A tally stays one of the log when the log grows. -/
theorem Of.append (h : Of log p) (log' : List M) : Of (log ++ log') p where
  val := by
    rw [h.val]
    congr 1
    apply Multiset.map_congr rfl
    intro n hn
    exact (getD_append _ _ _ _ (h.lt n hn)).symm
  lt n hn := by
    rw [length_append]
    exact Nat.lt_add_right _ (h.lt n hn)

/-- The tally of a new update. -/
theorem Of.last (log : List M) (v : M) : Of (log ++ [v]) ⟨v, {log.length}⟩ where
  val := by
    rw [Multiset.map_singleton, Multiset.prod_singleton, entry, getD_append_right _ _ _ _ le_rfl]
    simp
  lt n hn := by
    rw [Multiset.mem_singleton.1 hn, length_append]
    exact Nat.lt_succ_self _

theorem prod_entries (log : List M) : ((Multiset.range log.length).map (entry log)).prod = log.prod := by
  induction log using reverseRecOn with
  | nil => rfl
  | append_singleton log v ih =>
    have hsame : (Multiset.range log.length).map (entry (log ++ [v]))
        = (Multiset.range log.length).map (entry log) := by
      apply Multiset.map_congr rfl
      intro n hn
      exact getD_append _ _ _ _ (Multiset.mem_range.1 hn)
    have hlast : entry (log ++ [v]) log.length = v := by
      rw [entry, getD_append_right _ _ _ _ le_rfl]
      simp
    rw [length_append, length_singleton, Multiset.range_succ, Multiset.map_cons, Multiset.prod_cons,
      hsame, ih, hlast, prod_append, prod_singleton, mul_comm]

/-- The **tally rule**: a tally of all updates, each once, has the product of the log. -/
theorem Of.all (h : Of log p) (hall : p.ups = Multiset.range log.length) : p.val = log.prod := by
  rw [h.val, hall, prod_entries]

end Tally

end Eabase.Lib
