import Mathlib.Data.Multiset.Sort
import Eabase.Var.PercentileIndex
import Eabase.Var.PercentileInterval

/-!
# The number at a rank

`PercentileSamples::get_number` finds the interval that a rank is in from the
added counts, and the sample in it by sorting the interval. The intervals follow
each other, so that as long as every interval has all its samples this is the
latency of that rank.

Latencies that threads record while nothing is dropped and that one `reset`
collects are all there, each in its interval.
-/

namespace Eabase.Var.Percentile

open Lib Function List
open Multiset (coe_card coe_eq_coe length_sort pairwise_sort singleton_add sort_eq)

/-! ## `get_number` -/

/-- `PercentileSamples` with the flags `_sorted` of the intervals. -/
structure Sorting where
  samples : Samples
  sorted : Fin 32 → Bool

/-- `get_sample_at`: the sample, and the interval afterwards. -/
def Interval.getSampleAt (i : Interval) (sorted : Bool) (index : ℕ) : ℕ × Interval × Bool :=
  let savedNum := i.samples.length
  if index ≥ savedNum ∧ savedNum = 0 then (0, i, sorted)
  else
    let index := if index ≥ savedNum then savedNum - 1 else index
    let samples := if sorted then i.samples else i.samples.mergeSort
    (samples.getD index 0, ⟨i.numAdded, samples⟩, true)

/-- The loop of `get_number` over the intervals; `none` is the `CHECK` behind it. -/
def getNumberFrom (q : Sorting) : List (Fin 32) → ℕ → Option ℕ × Sorting
  | [], _ => (none, q)
  | index :: rest, n =>
    match q.samples.intervals index with
    | none => getNumberFrom q rest n
    | some invl =>
      if n ≤ invl.numAdded then
        let sampleN := n * invl.samples.length / invl.numAdded
        let sampleIndex := if sampleN ≠ 0 then sampleN - 1 else 0
        let (x, invl, sorted) := invl.getSampleAt (q.sorted index) sampleIndex
        (some x, ⟨⟨q.samples.numAdded, update q.samples.intervals index (some invl)⟩,
          update q.sorted index sorted⟩)
      else getNumberFrom q rest (n - invl.numAdded)

/-- `get_number`; `n` is `ceil(ratio * _num_added)`. -/
def getNumber (q : Sorting) (n : ℕ) : Option ℕ × Sorting :=
  if n > q.samples.numAdded then getNumberFrom q (List.finRange 32) q.samples.numAdded
  else if n = 0 then (some 0, q)
  else getNumberFrom q (List.finRange 32) n

/-- The calls of `get_number` with these ranks. -/
def getNumbers (q : Sorting) (ns : List ℕ) : Sorting :=
  ns.foldl (fun q n => (getNumber q n).2) q

/-- A `PercentileSamples` that was not asked yet. -/
def Samples.fresh (s : Samples) : Sorting := ⟨s, fun _ => false⟩

/-! ## What it is for -/

/-- A latency as it counts: latencies above the largest `uint32_t` count as that. -/
def clamped (latency : ℤ) : ℕ :=
  (min latency (2 ^ 32 - 1)).toNat

/-- The `n`-th smallest one. -/
def nthSmallest (xs : Multiset ℕ) (n : ℕ) : ℕ :=
  xs.sort.getD (n - 1) 0

def bagOf (log : Multiset ℤ) (index : Fin 32) : Multiset ℕ :=
  (log.filter (fun latency => indexOf latency = index)).map clamped

def Samples.bag (s : Samples) (index : Fin 32) : Multiset ℕ :=
  (s.intervalAt index).samples

/-- The samples are all the latencies of the log, each in its interval. -/
structure Samples.Exact (log : Multiset ℤ) (s : Samples) : Prop where
  numAdded : s.numAdded = log.card
  count : ∀ index, s.count index = (s.bag index).card
  bag : ∀ index, s.bag index = bagOf log index

/-! ## Bags -/

theorem bagOf_add (log log' : Multiset ℤ) (index : Fin 32) :
    bagOf (log + log') index = bagOf log index + bagOf log' index := by
  rw [bagOf, Multiset.filter_add, Multiset.map_add]
  rfl

theorem bagOf_cons (latency : ℤ) (log : Multiset ℤ) (index : Fin 32) : bagOf (latency ::ₘ log) index
      = (if index = indexOf latency then {clamped latency} else 0) + bagOf log index := by
  rw [← singleton_add, bagOf_add]
  congr 1
  by_cases h : index = indexOf latency
  · rw [if_pos h, bagOf, Multiset.filter_singleton, if_pos h.symm, Multiset.map_singleton]
  · rw [if_neg h, bagOf, Multiset.filter_singleton, if_neg (fun h' => h h'.symm)]
    rfl

theorem sum_bagOf (log : Multiset ℤ) : ∑ index, bagOf log index = log.map clamped := by
  induction log using Multiset.induction with
  | empty => exact Finset.sum_const_zero
  | cons latency log ih =>
    simp only [bagOf_cons]
    rw [Finset.sum_add_distrib, ih, Finset.sum_ite_eq' Finset.univ, if_pos (Finset.mem_univ _),
      singleton_add, Multiset.map_cons]

theorem mem_bagOf {log : Multiset ℤ} {index : Fin 32} {x : ℕ} (h : x ∈ bagOf log index) :
    ∃ latency ∈ log, indexOf latency = index ∧ clamped latency = x := by
  obtain ⟨latency, hmem, hx⟩ := Multiset.mem_map.1 h
  obtain ⟨hlog, hindex⟩ := Multiset.mem_filter.1 hmem
  exact ⟨latency, hlog, hindex, hx⟩

theorem clamped_eq (latency : ℤ) : clamped latency = (stored latency).toNat := by
  rw [stored_eq]
  rfl

theorem bagOf_le {log : Multiset ℤ} {i j : Fin 32} (hij : i < j) {x y : ℕ} (hx : x ∈ bagOf log i)
    (hy : y ∈ bagOf log j) : x ≤ y := by
  obtain ⟨a, -, rfl, rfl⟩ := mem_bagOf hx
  obtain ⟨b, -, rfl, rfl⟩ := mem_bagOf hy
  rw [clamped_eq, clamped_eq]
  exact Int.toNat_le_toNat (stored_le hij)

/-- The bags of some intervals, one after the other and each one sorted. -/
def sortedBags (log : Multiset ℤ) (indices : List (Fin 32)) : List ℕ :=
  indices.flatMap fun index => (bagOf log index).sort

theorem coe_sortedBags (log : Multiset ℤ) (indices : List (Fin 32)) :
    (sortedBags log indices : Multiset ℕ) = (indices.map (bagOf log)).sum := by
  induction indices with
  | nil => rfl
  | cons index indices ih =>
    have hcons : sortedBags log (index :: indices) = (bagOf log index).sort ++
        sortedBags log indices := rfl
    rw [hcons, ← Multiset.coe_add, sort_eq, ih, map_cons, sum_cons]

variable {indices : List (Fin 32)}

theorem sortedBags_pairwise (log : Multiset ℤ) (h : indices.Pairwise (· < ·)) :
    (sortedBags log indices).Pairwise (· ≤ ·) := by
  apply pairwise_flatMap.2
  constructor
  · intro index _
    exact pairwise_sort ..
  · apply h.imp
    intro i j hij x hx y hy
    rw [Multiset.mem_sort] at hx hy
    exact bagOf_le hij hx hy

theorem sortedBags_finRange (log : Multiset ℤ) :
    sortedBags log (finRange 32) = (log.map clamped).sort := by
  have hcoe : (sortedBags log (finRange 32) : Multiset ℕ) = ((log.map clamped).sort : Multiset ℕ) := by
    rw [coe_sortedBags, ← Fin.sum_univ_def, sum_bagOf, sort_eq]
  have hperm := coe_eq_coe.1 hcoe
  exact hperm.eq_of_pairwise' (sortedBags_pairwise log (pairwise_lt_finRange 32)) (pairwise_sort ..)

/-! ## Reading -/

/-- What was read has the samples of `e`, and an interval that is marked as sorted is. -/
structure Sorting.Reads (e : Samples) (q : Sorting) : Prop where
  numAdded : q.samples.numAdded = e.numAdded
  count : ∀ index, q.samples.count index = e.count index
  bag : ∀ index, q.samples.bag index = e.bag index
  sorted : ∀ index, q.sorted index = true → (q.samples.intervalAt index).samples.Pairwise (· ≤ ·)

variable {e : Samples} {log : Multiset ℤ} {q : Sorting} {index : Fin 32} {n : ℕ} {sorted : Bool}

open Samples

theorem Samples.fresh_reads (e : Samples) : e.fresh.Reads e where
  numAdded := rfl
  count _ := rfl
  bag _ := rfl
  sorted _ := nofun

/-- `get_sample_at` leaves the samples that there are, sorted when they are marked. -/
theorem Interval.getSampleAt_reads (i : Interval) (hsorted : sorted = true → i.samples.Pairwise (· ≤ ·))
    (index : ℕ) :
    (i.getSampleAt sorted index).2.1.numAdded = i.numAdded ∧
      (i.getSampleAt sorted index).2.1.samples.Perm i.samples ∧
      ((i.getSampleAt sorted index).2.2 = true →
        (i.getSampleAt sorted index).2.1.samples.Pairwise (· ≤ ·)) := by
  simp only [Interval.getSampleAt]
  split
  · exact ⟨rfl, List.Perm.refl _, hsorted⟩
  cases sorted with
  | true => exact ⟨rfl, List.Perm.refl _, fun _ => hsorted rfl⟩
  | false => exact ⟨rfl, mergeSort_perm .., fun _ => pairwise_mergeSort' (· ≤ ·) _⟩

theorem Interval.getSampleAt_eq (i : Interval) (hsorted : sorted = true → i.samples.Pairwise (· ≤ ·))
    {index : ℕ} (hindex : index < i.samples.length) :
    (i.getSampleAt sorted index).1 = (i.samples : Multiset ℕ).sort.getD index 0 := by
  have hnot : ¬(index ≥ i.samples.length ∧ i.samples.length = 0) := fun h => absurd h.1 (not_le.2 hindex)
  have hmark : (if sorted then i.samples else i.samples.mergeSort) = (i.samples : Multiset ℕ).sort := by
    cases sorted with
    | true =>
      have hperm : i.samples.Perm (i.samples : Multiset ℕ).sort :=
        coe_eq_coe.1 (sort_eq ..).symm
      exact hperm.eq_of_pairwise' (hsorted rfl) (pairwise_sort ..)
    | false => exact (Multiset.coe_sort ..).symm
  simp only [Interval.getSampleAt, if_neg hnot, if_neg (not_le.2 hindex), hmark]

theorem Interval.getSampleAt_mem (i : Interval) (sorted : Bool) (index : ℕ) (hne : i.samples ≠ []) :
    (i.getSampleAt sorted index).1 ∈ i.samples := by
  have hpos : 0 < i.samples.length := length_pos_iff.2 hne
  have hnot : ¬(index ≥ i.samples.length ∧ i.samples.length = 0) := fun h => hpos.ne' h.2
  have hlt : (if index ≥ i.samples.length then i.samples.length - 1 else index) < i.samples.length := by
    split <;> lia
  simp only [Interval.getSampleAt, if_neg hnot]
  cases sorted with
  | true =>
    rw [if_pos rfl, getD_eq_getElem _ _ hlt]
    exact getElem_mem ..
  | false =>
    rw [if_neg Bool.false_ne_true]
    have hlen : i.samples.mergeSort.length = i.samples.length := length_mergeSort ..
    rw [getD_eq_getElem _ _ (hlt.trans_eq hlen.symm)]
    exact (mergeSort_perm i.samples _).mem_iff.1 (getElem_mem ..)

section

variable (h : q.Reads e)
include h

theorem Sorting.Reads.update {invl invl' : Interval}
    (hinvl : q.samples.intervals index = some invl) (hadded : invl'.numAdded = invl.numAdded)
    (hperm : invl'.samples.Perm invl.samples) (hsorted : sorted = true → invl'.samples.Pairwise (· ≤ ·)) :
    Sorting.Reads e ⟨⟨q.samples.numAdded, Function.update q.samples.intervals index (some invl')⟩,
      Function.update q.sorted index sorted⟩ := by
  set s' : Samples :=
    ⟨q.samples.numAdded, Function.update q.samples.intervals index (some invl')⟩ with hs'
  have hself : s'.intervalAt index = invl' := by simp [intervalAt, hs']
  have hother : ∀ j, j ≠ index → s'.intervalAt j = q.samples.intervalAt j := by
    intro j hj
    simp [intervalAt, hs', update_of_ne hj]
  have hold : q.samples.intervalAt index = invl := by simp [intervalAt, hinvl]
  constructor
  · exact h.numAdded
  · intro j
    rw [← h.count j]
    by_cases hj : j = index
    · rw [hj, Samples.count, Samples.count, hself, hold, hadded]
    · rw [Samples.count, hother j hj]
      rfl
  · intro j
    rw [← h.bag j]
    by_cases hj : j = index
    · rw [hj, Samples.bag, Samples.bag, hself, hold]
      exact coe_eq_coe.2 hperm
    · rw [Samples.bag, hother j hj]
      rfl
  · intro j hj
    by_cases hji : j = index
    · rw [hji] at hj ⊢
      rw [hself]
      exact hsorted (by simpa using hj)
    · rw [hother j hji]
      exact h.sorted j (by simpa [update_of_ne hji] using hj)

theorem Sorting.Reads.marked {invl : Interval} (hinvl : q.samples.intervals index = some invl) :
    q.sorted index = true → invl.samples.Pairwise (· ≤ ·) := by
  intro hsorted
  have hread := h.sorted index hsorted
  rwa [intervalAt, hinvl] at hread

theorem getNumberFrom_reads (indices : List (Fin 32)) (n : ℕ) :
    (getNumberFrom q indices n).2.Reads e := by
  induction indices generalizing n with
  | nil => exact h
  | cons index indices ih =>
    simp only [getNumberFrom]
    split
    · exact ih n
    next invl hinvl =>
      split
      · obtain ⟨hadded, hperm, hsorted⟩ := invl.getSampleAt_reads (h.marked hinvl)
          (if n * invl.samples.length / invl.numAdded ≠ 0 then n
            * invl.samples.length / invl.numAdded - 1 else 0)
        exact h.update hinvl hadded hperm hsorted
      · exact ih _

theorem getNumber_reads (n : ℕ) : (getNumber q n).2.Reads e := by
  unfold getNumber
  split
  · exact getNumberFrom_reads h ..
  split
  · exact h
  · exact getNumberFrom_reads h ..

theorem getNumbers_reads (ns : List ℕ) : (getNumbers q ns).Reads e := by
  induction ns generalizing q with
  | nil => exact h
  | cons n ns ih => exact ih (getNumber_reads h n)

/-- A rank is found in some interval, and a sample of it is returned, when every interval that
counts has one. -/
theorem getNumberFrom_mem (hne : ∀ index, 0 < e.count index → e.bag index ≠ 0)
    (hpos : 1 ≤ n) (hn : n ≤ (indices.map e.count).sum) :
    ∃ x, (getNumberFrom q indices n).1 = some x ∧ ∃ index, x ∈ e.bag index := by
  induction indices generalizing n with
  | nil => exact absurd (hpos.trans hn) (Nat.not_succ_le_zero 0)
  | cons index indices ih =>
    have hcount := h.count index
    have hbag := h.bag index
    rw [Samples.count, Samples.intervalAt] at hcount
    rw [bag, intervalAt] at hbag
    rw [map_cons, sum_cons] at hn
    simp only [getNumberFrom]
    split
    next hnone =>
      rw [hnone] at hcount
      rw [← hcount] at hn
      exact ih hpos (hn.trans_eq (zero_add _))
    next invl hinvl =>
      rw [hinvl, Option.getD_some] at hcount hbag
      split
      next hle =>
        have hsamples : invl.samples ≠ [] := by
          intro hnil
          apply hne index (by lia)
          rw [← hbag, hnil]
          rfl
        refine ⟨_, rfl, index, ?_⟩
        rw [← hbag]
        exact Multiset.mem_coe.2 (invl.getSampleAt_mem _ _ hsamples)
      · exact ih (by lia) (by lia)

theorem getNumber_mem (hne : ∀ index, 0 < e.count index → e.bag index ≠ 0)
    (htotal : e.numAdded = e.total) (hpos : 1 ≤ n) (hn : n ≤ e.numAdded) :
    ∃ x, (getNumber q n).1 = some x ∧ ∃ index, x ∈ e.bag index := by
  have hsum : e.total = ((finRange 32).map e.count).sum := Fin.sum_univ_def _
  have hadded := h.numAdded
  unfold getNumber
  rw [if_neg (by lia), if_neg (Nat.one_le_iff_ne_zero.1 hpos)]
  exact getNumberFrom_mem h hne hpos (hn.trans_eq (htotal.trans hsum))

end

/-! ## `get_number` on all the latencies -/

theorem getNumberFrom_eq (h : q.Reads e) (he : e.Exact log) (hpos : 1 ≤ n)
    (hn : n ≤ (sortedBags log indices).length) :
    (getNumberFrom q indices n).1 = some ((sortedBags log indices).getD (n - 1) 0) := by
  induction indices generalizing n with
  | nil => exact absurd (hpos.trans hn) (Nat.not_succ_le_zero 0)
  | cons index indices ih =>
    have hcons : sortedBags log (index :: indices) = (bagOf log index).sort ++
        sortedBags log indices := rfl
    have hbag := (h.bag index).trans (he.bag index)
    have hcount := (h.count index).trans ((he.count index).trans (congrArg _ (h.bag index).symm))
    rw [Samples.count] at hcount
    rw [bag] at hcount hbag
    rw [hcons, length_append, length_sort] at hn
    simp only [getNumberFrom]
    split
    · -- the interval was not created: it has no samples
      rename_i hnone
      have hnil : bagOf log index = 0 := by
        rw [← hbag, intervalAt, hnone]
        rfl
      rw [hnil, Multiset.card_zero, zero_add] at hn
      rw [hcons, hnil, Multiset.sort_zero, nil_append]
      exact ih hpos hn
    next invl hinvl =>
      rw [intervalAt, hinvl, Option.getD_some] at hcount hbag
      rw [coe_card] at hcount
      have hcard : (bagOf log index).card = invl.numAdded := by rw [← hbag, coe_card, hcount]
      rw [hcard] at hn
      have hsortlen : (bagOf log index).sort.length = invl.numAdded := (length_sort ..).trans hcard
      split
      · -- all samples are there: the rank is the index
        rename_i hle
        have hscale : n * invl.samples.length / invl.numAdded = n := by
          rw [← hcount]
          exact Nat.mul_div_cancel n (hpos.trans hle)
        have hlt : n - 1 < invl.numAdded := by lia
        have hsample := invl.getSampleAt_eq (h.marked hinvl) (hlt.trans_eq hcount)
        have hne : n ≠ 0 := Nat.one_le_iff_ne_zero.1 hpos
        rw [hcons, getD_append _ _ _ _ (hlt.trans_eq hsortlen.symm), ← hbag]
        simp only [hscale, if_pos hne]
        exact congrArg some hsample
      next hgt =>
        have hgt' : invl.numAdded < n := not_le.1 hgt
        have hrest := ih (n := n - invl.numAdded) (Nat.sub_pos_of_lt hgt') (by lia)
        rw [hrest, hcons, getD_append_right _ _ _ _ (by lia), hsortlen]
        congr 2
        lia

theorem getNumber_eq (h : q.Reads e) (he : e.Exact log) (hpos : 1 ≤ n) (hn : n ≤ log.card) :
    (getNumber q n).1 = some (nthSmallest (log.map clamped) n) := by
  have hadded := h.numAdded.trans he.numAdded
  have hlen : (sortedBags log (finRange 32)).length = log.card := by
    rw [sortedBags_finRange, length_sort, Multiset.card_map]
  unfold getNumber
  rw [if_neg (by lia), if_neg (Nat.one_le_iff_ne_zero.1 hpos),
    getNumberFrom_eq h he hpos (hn.trans_eq hlen.symm),
    sortedBags_finRange]
  rfl

end Eabase.Var.Percentile
