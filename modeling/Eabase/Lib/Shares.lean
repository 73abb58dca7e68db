import Mathlib.Algebra.BigOperators.Group.List.Basic
import Mathlib.Algebra.Order.Group.Nat

/-!
# Shares of a total

Each of a list of holders has a share of a total. When one share changes the
total changes with it, and the shares of those who are not in the list do not
count.
-/

namespace Eabase.Lib

variable {ι N : Type*} [DecidableEq ι] [AddCommMonoid N] {l : List ι} {f g : ι → N} {t : ι}

/-- The shares of the holders in the list. -/
def shares (l : List ι) (f : ι → N) : N :=
  (l.map f).sum

section

omit [DecidableEq ι]

@[simp] theorem shares_nil (f : ι → N) : shares [] f = 0 := rfl

@[simp] theorem shares_cons (t : ι) (l : List ι) (f : ι → N) : shares (t :: l) f = f t + shares l f :=
  List.sum_cons

@[simp] theorem shares_append (l l' : List ι) (f : ι → N) : shares (l ++ l') f = shares l f
      + shares l' f := by
  rw [shares, List.map_append, List.sum_append]
  rfl

theorem shares_congr (h : ∀ u ∈ l, g u = f u) : shares l g = shares l f :=
  congrArg List.sum (List.map_congr_left h)

theorem shares_add (l : List ι) (f g : ι → N) : shares l (fun u => f u + g u) = shares l f + shares l g :=
  List.sum_map_add

end

omit [DecidableEq ι] in
theorem shares_le {l : List ι} {f g : ι → ℕ} (h : ∀ u ∈ l, f u ≤ g u) : shares l f ≤ shares l g := by
  induction l with
  | nil => exact le_rfl
  | cons u l ih =>
    rw [shares_cons, shares_cons]
    exact Nat.add_le_add (h u List.mem_cons_self) (ih fun v hv => h v (List.mem_cons_of_mem _ hv))

/-- The share of one holder, and those of the others. -/
theorem shares_erase (f : ι → N) (ht : t ∈ l) : shares l f = f t + shares (l.erase t) f := by
  rw [shares, shares, List.sum_map_erase f ht]

/-- The **change rule**: one holder's share changes. -/
theorem shares_change (hnd : l.Nodup) (ht : t ∈ l) (h : ∀ u ∈ l, u ≠ t → g u = f u) :
    shares l g + f t = shares l f + g t := by
  have hrest : shares (l.erase t) g = shares (l.erase t) f := by
    apply shares_congr
    intro u hu
    apply h u (List.mem_of_mem_erase hu)
    rintro rfl
    exact hnd.not_mem_erase hu
  calc shares l g + f t = g t + shares (l.erase t) g + f t := by rw [← shares_erase g ht]
    _ = f t + shares (l.erase t) f + g t := by rw [hrest]; ac_rfl
    _ = shares l f + g t := by rw [← shares_erase f ht]

end Eabase.Lib
