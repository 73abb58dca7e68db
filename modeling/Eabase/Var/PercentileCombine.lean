import Eabase.Var.PercentileReset

/-!
# Combining the percentiles of a window

`PercentileSamples::combine_of` mixes the intervals of several
`PercentileSamples`. Of each it takes a share of the samples that is rounded up
or down by chance, in the order in which `merge_with_expectation` shuffles them;
when there is no room any more a sample takes the place of another one.

The counts are the sums of the counts, and the samples are samples of the
inputs. A share may well be rounded to zero: an interval of which nobody gives
a sample has none, however much it counts, and `get_number` returns 0 there.
-/

namespace Eabase.Var.Percentile

open Lib Function List

/-! ## `merge_with_expectation` -/

/-- What `fast_rand` returns when an interval is mixed in: in `round_of_expectation`, for the sample
that is picked when `n` are left, for the one whose place it takes. -/
structure MixDraws where
  coin : ℕ
  pick : ℕ → ℕ
  slot : ℕ → ℕ

namespace Interval

/-- A sample is stored behind the others, or in the place of one of them when there is no room. -/
def store (size slot : ℕ) (samples : List ℕ) (x : ℕ) : List ℕ :=
  if samples.length < size then (samples ++ [x]).take ((samples.length + 1) % two16)
  else samples.set (slot % samples.length) x

/-- The loop of `merge_with_expectation`: `k` samples are still to be picked out of the first `n`
ones of `rhs`. -/
def pickInto (size : ℕ) (draws : MixDraws) : ℕ → ℕ → List ℕ → List ℕ → List ℕ × List ℕ
  | 0, _, samples, rhs => (samples, rhs)
  | k + 1, n, samples, rhs =>
    let index := draws.pick n % n
    let x := rhs.getD index 0
    pickInto size draws k (n - 1) (store size (draws.slot n) samples x)
      ((rhs.set index (rhs.getD (n - 1) 0)).set (n - 1) x)

/-- `merge_with_expectation`: the interval, and `mutable_rhs` afterwards; `none` when the `CHECK`
fails. -/
def mergeWithExpectation (size : ℕ) (draws : MixDraws) (i rhs : Interval) (n : ℕ) :
    Option (Interval × Interval) :=
  if n > rhs.samples.length then none
  else
    let numAdded := (i.numAdded + rhs.numAdded) % two32
    if i.samples.length + n ≤ size ∧ n = rhs.samples.length then
      some (⟨numAdded, (i.samples ++ rhs.samples).take ((i.samples.length + n) % two16)⟩, rhs)
    else
      let picked := pickInto size draws n rhs.samples.length i.samples rhs.samples
      some (⟨numAdded, picked.1⟩, ⟨rhs.numAdded, picked.2⟩)

/-- How many samples `combine_of` takes of an interval, when all of them count `total`. -/
def share (size total coin : ℕ) (i : Interval) : ℕ :=
  if total ≤ size then i.samples.length
  else min (roundOfExpectation coin (i.numAdded * size) total) i.samples.length

end Interval

/-! ## `combine_of` -/

/-- The inner loop of `combine_of`, over the intervals of the inputs: the combined interval, and the
intervals afterwards. -/
def mixAll (size total : ℕ) : (ℕ → MixDraws) → Option Interval → List (Option Interval) →
    Option (Option Interval × List (Option Interval))
  | _, dest, [] => some (dest, [])
  | draws, dest, o :: rest =>
    let next := fun k => draws (k + 1)
    match Samples.nonempty o with
    | none => (mixAll size total next dest rest).map fun (dest, rest) => (dest, o :: rest)
    | some invl =>
      (Interval.mergeWithExpectation size (draws 0) (dest.getD .empty) invl
          (invl.share size total (draws 0).coin)).bind
        fun (dest, invl) => (mixAll size total next (some dest) rest).map fun (dest, rest) =>
          (dest, some invl :: rest)

def column (inputs : List Samples) (index : Fin 32) : List (Option Interval) :=
  inputs.map fun input => input.intervals index

def setColumn (inputs : List Samples) (index : Fin 32) (os : List (Option Interval)) : List Samples :=
  List.zipWith (fun input o => ⟨input.numAdded, update input.intervals index o⟩) inputs os

def columnTotal (os : List (Option Interval)) : ℕ :=
  (os.map fun o => (o.getD .empty).numAdded).sum

/-- The loop of `combine_of` over the intervals. -/
def combineLoop (size : ℕ) (draws : Fin 32 → ℕ → MixDraws) : List (Fin 32) → Samples → List Samples →
    Option (Samples × List Samples)
  | [], dest, inputs => some (dest, inputs)
  | index :: rest, dest, inputs =>
    let total := columnTotal (column inputs index) % two64
    if total = 0 then combineLoop size draws rest dest inputs
    else
      (mixAll size total (draws index) (dest.intervals index) (column inputs index)).bind fun
        (invl, os) =>
        combineLoop size draws rest ⟨dest.numAdded, update dest.intervals index invl⟩
          (setColumn inputs index os)

/-- `combine_of`, into samples with room for `size` samples in an interval; also what is left of the
inputs. -/
def combineOf (size : ℕ) (draws : Fin 32 → ℕ → MixDraws) (dest : Samples) (inputs : List Samples) :
    Option (Samples × List Samples) :=
  let dest : Samples :=
    if dest.numAdded ≠ 0 then ⟨0, fun index => (dest.intervals index).map fun _ => .empty⟩ else dest
  let numAdded := (dest.numAdded + (inputs.map Samples.numAdded).sum) % two64
  combineLoop size draws (List.finRange 32) ⟨numAdded, dest.intervals⟩ inputs

/-- `CombinedPercentileSamples::SAMPLE_SIZE`. -/
def combinedSize : ℕ := 1022

/-! ## What it is for -/

def columnSamples (os : List (Option Interval)) : Multiset ℕ :=
  (os.map fun o => ((o.getD .empty).samples : Multiset ℕ)).sum

def columnShares (size total : ℕ) : (ℕ → MixDraws) → List (Option Interval) → ℕ
  | _, [] => 0
  | draws, o :: rest =>
    (o.getD .empty).share size total (draws 0).coin
      + columnShares size total (fun k => draws (k + 1)) rest

/-- What `combine_of` makes of its inputs. -/
structure Combined (size : ℕ) (draws : Fin 32 → ℕ → MixDraws) (inputs : List Samples)
    (out : Samples) : Prop where
  numAdded : out.numAdded = (inputs.map Samples.numAdded).sum
  count : ∀ index, out.count index = columnTotal (column inputs index) % two32
  length : ∀ index, (out.bag index).card ≤ size
  sub : ∀ index, out.bag index ≤ columnSamples (column inputs index)
  all : ∀ index, columnTotal (column inputs index) ≤ size →
    out.bag index = columnSamples (column inputs index)
  /-- An interval has no sample just when the share of every input was rounded to zero. -/
  nil : ∀ index, out.bag index = 0
    ↔ columnShares size (columnTotal (column inputs index)) (draws index) (column inputs index) = 0

structure Shuffled (o o' : Option Interval) : Prop where
  isSome : o'.isSome = o.isSome
  numAdded : (o'.getD .empty).numAdded = (o.getD .empty).numAdded
  samples : (o'.getD .empty).samples.Perm (o.getD .empty).samples

variable {size total : ℕ} {o : Option Interval} {draws : ℕ → MixDraws}

/-! ## One interval -/

namespace Interval

theorem length_store (hsize : size < two16) {samples : List ℕ} (slot x : ℕ)
    (hle : samples.length ≤ size) :
    (store size slot samples x).length = min (samples.length + 1) size := by
  unfold store
  split
  next hlt =>
    rw [Nat.mod_eq_of_lt (lt_of_le_of_lt hlt hsize), length_take, length_append, length_singleton]
    lia
  · rw [length_set]
    lia

theorem store_le (slot x : ℕ) (samples : List ℕ) :
    (store size slot samples x : Multiset ℕ) ≤ ↑samples + {x} := by
  unfold store
  split
  · rw [show (↑samples + {x} : Multiset ℕ) = ↑(samples ++ [x]) from rfl]
    exact Multiset.coe_le.2 (take_sublist ..).subperm
  · exact coe_set_le samples _ x

theorem min_min_add (a b size : ℕ) : min (min a size + b) size = min (a + b) size := by
  rcases le_total a size with hle | hle
  · rw [min_eq_left hle]
  · rw [min_eq_right hle, min_eq_right (Nat.le_add_right _ _), min_eq_right (Nat.le_add_right_of_le hle)]

variable {n : ℕ}

/-- What the loop does: it takes samples of `rhs`, as long as there is room, and shuffles the
rest. -/
theorem pickInto_spec (hsize : size < two16) (draws : MixDraws) {k : ℕ} (samples rhs : List ℕ)
    (hk : k ≤ n)
    (hn : n ≤ rhs.length) (hle : samples.length ≤ size) :
    ((pickInto size draws k n samples rhs).1 : Multiset ℕ) ≤ ↑samples + ↑(rhs.take n) ∧
      (pickInto size draws k n samples rhs).1.length = min (samples.length + k) size ∧
      (pickInto size draws k n samples rhs).2.Perm rhs := by
  induction k generalizing n samples rhs with
  | zero => exact ⟨Multiset.le_add_right _ _, (min_eq_left hle).symm, List.Perm.refl _⟩
  | succ k ih =>
    have hpos : 0 < n := Nat.zero_lt_of_lt hk
    have hindex : draws.pick n % n < n := Nat.mod_lt _ hpos
    have hlast : n - 1 < rhs.length := by lia
    simp only [pickInto]
    set index := draws.pick n % n
    set rhs' := (rhs.set index (rhs.getD (n - 1) 0)).set (n - 1) (rhs.getD index 0) with hrhs'
    have hlen : rhs'.length = rhs.length := by rw [hrhs', length_set, length_set]
    have hstore := length_store hsize (draws.slot n) (rhs.getD index 0) hle
    obtain ⟨hsub, hlength, hperm⟩ := ih (n := n - 1)
      (store size (draws.slot n) samples (rhs.getD index 0)) rhs' (by lia) (by lia) (by lia)
    refine ⟨?_, ?_, ?_⟩
    · -- the sample that is picked and what is left are the first `n` samples
      have hleft : rhs'.take (n - 1) = (rhs.set index (rhs.getD (n - 1) 0)).take (n - 1) := take_swap ..
      have htaken : (rhs.getD index 0 ::ₘ ↑((rhs.set index (rhs.getD (n - 1) 0)).take (n - 1)) :
          Multiset ℕ)
          = ↑(rhs.take n) := Multiset.coe_eq_coe.2 (cons_take_set_perm 0 hindex hn)
      rw [hleft] at hsub
      rw [← htaken, ← Multiset.singleton_add, ← add_assoc]
      exact hsub.trans (add_le_add_left (store_le ..) _)
    · rw [hlength, hstore, min_min_add, add_assoc, add_comm 1 k]
    · apply hperm.trans
      have hget : ∀ {j} (hj : j < rhs.length), rhs.getD j 0 = rhs[j] := fun hj => getD_eq_getElem rhs 0 hj
      rw [hrhs', hget (hindex.trans_le hn), hget hlast]
      exact set_set_perm (hindex.trans_le hn) hlast

/-- `merge_with_expectation` takes `n` samples, as long as there is room. -/
theorem mergeWithExpectation_spec (hsize : size < two16) (draws : MixDraws) {i rhs : Interval}
    (hn : n ≤ rhs.samples.length) (hle : i.samples.length ≤ size) :
    ∃ i' rhs', mergeWithExpectation size draws i rhs n = some (i', rhs') ∧
      i'.numAdded = (i.numAdded + rhs.numAdded) % two32 ∧ (i'.samples : Multiset ℕ) ≤ ↑i.samples
        + ↑rhs.samples ∧
      i'.samples.length = min (i.samples.length + n) size ∧ Shuffled (some rhs) (some rhs') := by
  unfold mergeWithExpectation
  rw [if_neg (not_lt.2 hn)]
  split
  next hfast =>
    obtain ⟨hroom, hall⟩ := hfast
    refine ⟨_, _, rfl, rfl, ?_, ?_, rfl, rfl, List.Perm.refl _⟩
    · rw [Multiset.coe_add]
      exact Multiset.coe_le.2 (take_sublist ..).subperm
    · rw [Nat.mod_eq_of_lt (hroom.trans_lt hsize), length_take, length_append]
      lia
  · obtain ⟨hsub, hlength, hperm⟩ := pickInto_spec hsize draws _ _ hn le_rfl hle
    rw [take_length] at hsub
    exact ⟨_, _, rfl, rfl, hsub, hlength, rfl, rfl, hperm⟩

theorem share_le (size total coin : ℕ) (i : Interval) : i.share size total coin ≤ i.samples.length := by
  unfold share
  split
  · exact le_rfl
  · exact min_le_right _ _

end Interval

/-! ## One column -/

theorem Shuffled.refl (o : Option Interval) : Shuffled o o := ⟨rfl, rfl, List.Perm.refl _⟩

theorem shuffled_trans {os os' os'' : List (Option Interval)} (h : List.Forall₂ Shuffled os os')
    (h' : List.Forall₂ Shuffled os' os'') : List.Forall₂ Shuffled os os'' := by
  induction h generalizing os'' with
  | nil => exact h'
  | cons hab _ ih =>
    cases h' with
    | cons hbc hrest =>
      refine .cons ⟨hbc.isSome.trans hab.isSome, hbc.numAdded.trans hab.numAdded, ?_⟩ (ih hrest)
      exact hbc.samples.trans hab.samples

/-- An interval has no sample only when nothing was added. -/
def Settled (o : Option Interval) : Prop :=
  (o.getD .empty).samples = [] → (o.getD .empty).numAdded = 0

open Samples

theorem mixAll_spec (hsize : size < two16) (total : ℕ) (draws : ℕ → MixDraws) (dest : Option Interval)
    {os : List (Option Interval)} (hos : ∀ o ∈ os, Settled o)
    (hadded : (dest.getD .empty).numAdded < two32)
    (hle : (dest.getD .empty).samples.length ≤ size) :
    ∃ dest' os', mixAll size total draws dest os = some (dest', os') ∧
      (dest'.getD .empty).numAdded = ((dest.getD .empty).numAdded + columnTotal os) % two32 ∧
      ((dest'.getD .empty).samples : Multiset ℕ) ≤ ↑(dest.getD .empty).samples + columnSamples os ∧
      (dest'.getD .empty).samples.length
        = min ((dest.getD .empty).samples.length + columnShares size total draws os) size ∧
      List.Forall₂ Shuffled os os' := by
  induction os generalizing draws dest with
  | nil =>
    exact ⟨dest, [], rfl, (Nat.mod_eq_of_lt hadded).symm, le_rfl.trans_eq (add_zero _).symm,
      (min_eq_left hle).symm, .nil⟩
  | cons o os ih =>
    have hrest : ∀ o ∈ os, Settled o := fun o' ho' => hos o' (mem_cons_of_mem _ ho')
    have htotal : columnTotal (o :: os) = (o.getD .empty).numAdded + columnTotal os := sum_cons
    have hsamples : columnSamples (o :: os) = ↑(o.getD .empty).samples + columnSamples os := sum_cons
    have hshares : columnShares size total draws (o :: os)
        = (o.getD .empty).share size total (draws 0).coin +
        columnShares size total (fun k => draws (k + 1)) os := rfl
    rw [htotal, hsamples, hshares]
    simp only [mixAll]
    cases ho : nonempty o with
    | none =>
      -- the interval is not there or empty: it has nothing to give
      have hnil : (o.getD .empty).samples = [] := by
        rw [← nonempty_samples, ho]
        rfl
      have hzero := hos o mem_cons_self hnil
      have hshare : (o.getD .empty).share size total (draws 0).coin = 0 :=
        Nat.le_zero.1 ((Interval.share_le ..).trans_eq (congrArg length hnil))
      obtain ⟨dest', os', hmix, hcount, hsub, hlength, hshuffled⟩ :=
        ih (fun k => draws (k + 1)) dest hrest hadded hle
      refine ⟨dest', o :: os', ?_, ?_, ?_, ?_, hshuffled.cons (.refl o)⟩
      · simp only [hmix, Option.map_some]
      · rw [hzero, zero_add]
        exact hcount
      · rw [hnil, Multiset.coe_nil, zero_add]
        exact hsub
      · rw [hshare, zero_add]
        exact hlength
    | some invl =>
      have ho' : o = some invl := (Option.filter_eq_some_iff.1 ho).1
      subst ho'
      obtain ⟨i, invl', hmerge, hnum, hpart, hlen, hshuf⟩ :=
        Interval.mergeWithExpectation_spec hsize (draws 0)
        (Interval.share_le size total (draws 0).coin invl) hle
      have hlen' : i.samples.length ≤ size := by
        rw [hlen]
        exact min_le_right _ _
      obtain ⟨dest', os', hmix, hcount, hsub, hlength, hshuffled⟩ := ih (fun k => draws (k + 1)) (some i)
        hrest (by rw [Option.getD_some, hnum]; exact Nat.mod_lt _ (Nat.two_pow_pos 32)) hlen'
      rw [Option.getD_some] at hcount hsub hlength
      refine ⟨dest', some invl' :: os', ?_, ?_, ?_, ?_, hshuffled.cons hshuf⟩
      · simp only [hmerge, Option.bind_some, hmix, Option.map_some]
      · rw [hcount, hnum, Nat.mod_add_mod, add_assoc]
        rfl
      · rw [← add_assoc]
        exact hsub.trans (add_le_add_left hpart _)
      · rw [hlength, hlen, Interval.min_min_add, add_assoc]
        rfl

structure Mixed (size : ℕ) (draws : ℕ → MixDraws) (os : List (Option Interval))
    (o : Option Interval) : Prop where
  numAdded : (o.getD .empty).numAdded = columnTotal os % two32
  sub : ((o.getD .empty).samples : Multiset ℕ) ≤ columnSamples os
  length : (o.getD .empty).samples.length = min (columnShares size (columnTotal os) draws os) size

/-- An interval as `reset` returns it. -/
def Whole (o : Option Interval) : Prop :=
  (o.getD .empty).Wf globalSize

theorem Whole.settled (h : Whole o) : Settled o :=
  (h.samples_eq_nil (by decide)).1

theorem columnSamples_card {os : List (Option Interval)} (h : ∀ o ∈ os, Whole o) :
    (columnSamples os).card ≤ columnTotal os := by
  induction os with
  | nil => exact le_rfl
  | cons o os ih =>
    have htotal : columnTotal (o :: os) = (o.getD .empty).numAdded + columnTotal os := sum_cons
    have hsamples : columnSamples (o :: os) = ↑(o.getD .empty).samples + columnSamples os := sum_cons
    have hlen := (h o mem_cons_self).length
    have hrest := ih fun o' ho' => h o' (mem_cons_of_mem _ ho')
    rw [htotal, hsamples, Multiset.card_add, Multiset.coe_card]
    lia

theorem columnShares_le (size total : ℕ) (draws : ℕ → MixDraws) (os : List (Option Interval)) :
    columnShares size total draws os ≤ (columnSamples os).card := by
  induction os generalizing draws with
  | nil => exact le_rfl
  | cons o os ih =>
    have hsamples : columnSamples (o :: os) = ↑(o.getD .empty).samples + columnSamples os := sum_cons
    rw [hsamples, Multiset.card_add, Multiset.coe_card, columnShares]
    exact Nat.add_le_add (Interval.share_le ..) (ih _)

theorem columnShares_eq (h : total ≤ size) (draws : ℕ → MixDraws) (os : List (Option Interval)) :
    columnShares size total draws os = (columnSamples os).card := by
  induction os generalizing draws with
  | nil => rfl
  | cons o os ih =>
    have hsamples : columnSamples (o :: os) = ↑(o.getD .empty).samples + columnSamples os := sum_cons
    rw [hsamples, Multiset.card_add, Multiset.coe_card, columnShares, ih, Interval.share, if_pos h]

theorem Mixed.all {os : List (Option Interval)}
    (h : Mixed size draws os o) (hos : ∀ o ∈ os, Whole o) (hle : columnTotal os ≤ size) :
    ((o.getD .empty).samples : Multiset ℕ) = columnSamples os := by
  apply Multiset.eq_of_le_of_card_le h.sub
  rw [Multiset.coe_card, h.length, columnShares_eq hle, min_eq_left ((columnSamples_card hos).trans hle)]

theorem mixed_zero {os : List (Option Interval)}
    (hos : ∀ o ∈ os, Whole o) (hzero : columnTotal os = 0) (ho : o.getD .empty = .empty) :
    Mixed size draws os o := by
  have hcard : (columnSamples os).card = 0 := Nat.le_zero.1 ((columnSamples_card hos).trans_eq hzero)
  have hshares : columnShares size (columnTotal os) draws os = 0 := Nat.le_zero.1
    ((columnShares_le ..).trans_eq hcard)
  constructor
  · rw [ho, hzero]
    rfl
  · rw [ho]
    exact Multiset.zero_le _
  · rw [ho, hshares, Nat.zero_min]
    rfl

/-! ## All columns -/

section Columns

variable {inputs : List Samples} {index j : Fin 32} {os : List (Option Interval)}

theorem column_setColumn_self (hlen : os.length = inputs.length) :
    column (setColumn inputs index os) index = os := by
  induction inputs generalizing os with
  | nil => rw [length_eq_zero_iff.1 hlen]; rfl
  | cons input inputs ih =>
    obtain ⟨o, os, rfl⟩ := exists_cons_of_length_eq_add_one hlen
    have hlen' : os.length = inputs.length := by simpa using hlen
    have hrest := ih hlen'
    simp only [column, setColumn, zipWith_cons_cons, map_cons, update_self] at hrest ⊢
    rw [hrest]

theorem column_setColumn_of_ne (hlen : os.length = inputs.length) (hj : j ≠ index) :
    column (setColumn inputs index os) j = column inputs j := by
  induction inputs generalizing os with
  | nil => rfl
  | cons input inputs ih =>
    obtain ⟨o, os, rfl⟩ := exists_cons_of_length_eq_add_one hlen
    have hlen' : os.length = inputs.length := by simpa using hlen
    have hrest := ih hlen'
    simp only [column, setColumn, zipWith_cons_cons, map_cons, update_of_ne hj] at hrest ⊢
    rw [hrest]

theorem length_column (inputs : List Samples) (index : Fin 32) : (column inputs index).length
      = inputs.length :=
  length_map ..

/-- What the loop makes of the columns that are still to come; the others stay as they are. -/
theorem combineLoop_spec (hsize : size < two16) (draws : Fin 32 → ℕ → MixDraws) {indices : List (Fin 32)}
    (hnd : indices.Nodup) (dest : Samples) (inputs : List Samples)
    (hwhole : ∀ index ∈ indices, ∀ o ∈ column inputs index, Whole o)
    (htotal : ∀ index ∈ indices, columnTotal (column inputs index) < two64)
    (hdest : ∀ index ∈ indices, dest.intervalAt index = .empty) :
    ∃ out inputs', combineLoop size draws indices dest inputs = some (out, inputs') ∧
      out.numAdded = dest.numAdded ∧ (∀ index ∉ indices, out.intervals index = dest.intervals index) ∧
      (∀ index ∈ indices, Mixed size (draws index) (column inputs index) (out.intervals index)) ∧
      ∀ index, List.Forall₂ Shuffled (column inputs index) (column inputs' index) := by
  induction indices generalizing dest inputs with
  | nil =>
    exact ⟨dest, inputs, rfl, rfl, fun _ _ => rfl, nofun,
      fun index => forall₂_same.2 fun o _ => .refl o⟩
  | cons index indices ih =>
    obtain ⟨hindex, hnd'⟩ := nodup_cons.1 hnd
    have hne : ∀ j ∈ indices, j ≠ index := by
      rintro j hj rfl
      exact hindex hj
    have hlt := htotal index mem_cons_self
    have hempty := hdest index mem_cons_self
    have hos := hwhole index mem_cons_self
    rw [intervalAt] at hempty
    simp only [combineLoop, Nat.mod_eq_of_lt hlt]
    split
    next hzero =>
      obtain ⟨out, inputs', hrun, hadded, hout, hmixed, hshuffled⟩ := ih hnd' dest inputs
        (fun j hj => hwhole j (mem_cons_of_mem _ hj)) (fun j hj => htotal j (mem_cons_of_mem _ hj))
        (fun j hj => hdest j (mem_cons_of_mem _ hj))
      refine ⟨out, inputs', hrun, hadded, fun j hj => hout j fun hmem => hj (mem_cons_of_mem _ hmem), ?_,
        hshuffled⟩
      refine forall_mem_cons.2 ⟨?_, hmixed⟩
      apply mixed_zero hos hzero
      rw [hout index hindex]
      exact hempty
    · obtain ⟨o, os, hmix, hcount, hsub, hlength, hshuf⟩ := mixAll_spec hsize
        (columnTotal (column inputs index)) (draws index) (dest.intervals index)
          (fun o ho => (hos o ho).settled)
        (by rw [hempty]; exact Nat.two_pow_pos 32) (by rw [hempty]; exact Nat.zero_le _)
      rw [hempty] at hcount hsub hlength
      have hlen : os.length = inputs.length := hshuf.length_eq.symm.trans (length_column ..)
      have hcol : ∀ j ∈ indices, column (setColumn inputs index os) j = column inputs j := fun j hj =>
        column_setColumn_of_ne hlen (hne j hj)
      set dest' : Samples := ⟨dest.numAdded, update dest.intervals index o⟩
      obtain ⟨out, inputs', hrun, hadded, hout, hmixed, hshuffled⟩ := ih hnd' dest'
        (setColumn inputs index os)
        (fun j hj => by rw [hcol j hj]; exact hwhole j (mem_cons_of_mem _ hj))
        (fun j hj => by rw [hcol j hj]; exact htotal j (mem_cons_of_mem _ hj))
        (fun j hj => by
          have hsame : dest'.intervals j = dest.intervals j := update_of_ne (hne j hj) ..
          rw [intervalAt, hsame]
          exact hdest j (mem_cons_of_mem _ hj))
      refine ⟨out, inputs', ?_, hadded, ?_, ?_, ?_⟩
      · simp only [hmix, Option.bind_some]
        exact hrun
      · intro j hj
        rw [hout j fun hmem => hj (mem_cons_of_mem _ hmem)]
        apply update_of_ne
        rintro rfl
        exact hj mem_cons_self
      · refine forall_mem_cons.2 ⟨?_, fun j hj => ?_⟩
        · have hself : out.intervals index = o := (hout index hindex).trans (update_self ..)
          rw [hself]
          constructor
          · rw [hcount]
            exact congrArg (· % two32) (zero_add _)
          · exact hsub.trans_eq (zero_add _)
          · rw [hlength]
            exact congrArg (min · size) (zero_add _)
        · have hm := hmixed j hj
          rwa [hcol j hj] at hm
      · intro j
        have hj := hshuffled j
        by_cases hji : j = index
        · rw [hji, column_setColumn_self hlen] at hj
          rw [hji]
          exact shuffled_trans hshuf hj
        · rwa [column_setColumn_of_ne hlen hji] at hj

end Columns

/-! ## Combining what resets returned -/

variable {ι : Type*} [DecidableEq ι]

/-- A run in which no `CHECK` fails and a `reset` returns these samples. -/
def Produces (as : List (Act ι)) (e : Samples) : Prop :=
  Along step Checks (start ι) as ∧
    ∃ r ∈ (runFrom step (start ι) as).results, r.reset = true ∧ r.value = e

/-- The samples of a window: each was returned by a `reset` of some run. -/
def Produced (ι : Type*) [DecidableEq ι] (inputs : List Samples) : Prop :=
  ∀ input ∈ inputs, ∃ as : List (Act ι), Produces as input

variable {inputs : List Samples} {e : Samples} {as : List (Act ι)}

theorem Produces.sound (h : Produces as e) :
    e.Wf (Interval.Wf globalSize) ∧ e.Within (latencies as) := by
  obtain ⟨hchecks, r, hr, -, rfl⟩ := h
  exact (run_sound as hchecks).result r hr

theorem Produced.wf (h : Produced ι inputs) : ∀ input ∈ inputs, input.Wf (Interval.Wf globalSize) := by
  intro input hinput
  obtain ⟨as, has⟩ := h input hinput
  exact has.sound.1

theorem Produced.whole (h : Produced ι inputs) (index : Fin 32) : ∀ o ∈ column inputs index, Whole o := by
  intro o ho
  obtain ⟨input, hinput, rfl⟩ := mem_map.1 ho
  exact (h.wf input hinput).interval index

theorem sum_numAdded (h : ∀ input ∈ inputs, input.Wf (Interval.Wf globalSize)) :
    (inputs.map numAdded).sum = ∑ index, columnTotal (column inputs index) := by
  induction inputs with
  | nil => exact Finset.sum_const_zero.symm
  | cons input inputs ih =>
    have hcolumn : ∀ index, columnTotal (column (input :: inputs) index)
        = input.count index + columnTotal (column inputs index) := fun index => sum_cons
    rw [map_cons, sum_cons, ih fun e he => h e (mem_cons_of_mem _ he),
      (h input mem_cons_self).numAdded, Finset.sum_congr rfl fun index _ => hcolumn index,
      Finset.sum_add_distrib]
    rfl

theorem mem_columnSamples {index : Fin 32} {x : ℕ} (h : x ∈ columnSamples (column inputs index)) :
    ∃ input ∈ inputs, x ∈ input.bag index := by
  induction inputs with
  | nil => exact absurd h (Multiset.notMem_zero x)
  | cons input inputs ih =>
    have hcons : columnSamples (column (input :: inputs) index)
        = input.bag index + columnSamples (column inputs index) := sum_cons
    rw [hcons] at h
    rcases Multiset.mem_add.1 h with h | h
    · exact ⟨input, mem_cons_self, h⟩
    · obtain ⟨e, he, hx⟩ := ih h
      exact ⟨e, mem_cons_of_mem _ he, hx⟩

/-- `combine_of` passes its `CHECK`s and combines the counts and the samples of its inputs. -/
theorem combineOf_spec (size : ℕ) (hpos : 0 < size) (hsize : size < two16) (draws : Fin 32 → ℕ → MixDraws)
    (dest : Samples) (hdest : dest.numAdded = 0 → ∀ index, dest.intervalAt index = .empty)
    (h : Produced ι inputs)
    (htotal : (inputs.map numAdded).sum < two64) :
    ∃ out inputs', combineOf size draws dest inputs = some (out, inputs') ∧
    Combined size draws inputs out ∧
      ∀ index, List.Forall₂ Shuffled (column inputs index) (column inputs' index) := by
  have hcolumn : ∀ index, columnTotal (column inputs index) < two64 := by
    intro index
    apply lt_of_le_of_lt _ htotal
    rw [sum_numAdded h.wf]
    exact Finset.single_le_sum (f := fun index => columnTotal (column inputs index))
      (fun _ _ => Nat.zero_le _)
      (Finset.mem_univ index)
  set dest' : Samples := if dest.numAdded
    ≠ 0 then ⟨0, fun index => (dest.intervals index).map fun _ => .empty⟩
    else dest with hdest'
  have hclear : dest'.numAdded = 0 ∧ ∀ index, dest'.intervalAt index = .empty := by
    rw [hdest']
    split
    · refine ⟨rfl, fun index => ?_⟩
      show ((dest.intervals index).map fun _ => Interval.empty).getD .empty = .empty
      cases dest.intervals index <;> rfl
    next hzero =>
      exact ⟨not_not.1 hzero, hdest (not_not.1 hzero)⟩
  obtain ⟨out, inputs', hrun, hadded, -, hmixed, hshuffled⟩ := combineLoop_spec hsize draws
    (nodup_finRange 32) ⟨(dest'.numAdded + (inputs.map numAdded).sum) % two64, dest'.intervals⟩
      inputs (fun index _ => h.whole index) (fun index _ => hcolumn index)
    (fun index _ => hclear.2 index)
  have hm : ∀ index, Mixed size (draws index) (column inputs index) (out.intervals index) := fun index =>
    hmixed index (mem_finRange index)
  refine ⟨out, inputs', hrun, ?_, hshuffled⟩
  constructor
  · rw [hadded, hclear.1, zero_add, Nat.mod_eq_of_lt htotal]
  · exact fun index => (hm index).numAdded
  · intro index
    show (out.intervalAt index).samples.length ≤ size
    rw [intervalAt, (hm index).length]
    exact min_le_right _ _
  · exact fun index => (hm index).sub
  · exact fun index hle => (hm index).all (h.whole index) hle
  · intro index
    have hlen := (hm index).length
    rw [← Multiset.card_eq_zero]
    show (out.intervalAt index).samples.length = 0 ↔ _
    rw [intervalAt, hlen]
    lia

/-- **Combining a window is sound**: the counts are the sums, the samples are samples of the inputs,
all of them when there is room, and an interval is without samples just when every share was rounded
to zero. When that happens to no interval that counts, `get_number` of any rank returns a latency
that was recorded. -/
theorem combineOf_sound (size : ℕ) (hpos : 0 < size) (hsize : size < two16)
    (draws : Fin 32 → ℕ → MixDraws) (dest : Samples)
    (hdest : dest.numAdded = 0 → ∀ index, dest.intervalAt index = .empty) (inputs : List Samples)
    (h : Produced ι inputs) (htotal : (inputs.map Samples.numAdded).sum < two64) :
    ∃ out inputs', combineOf size draws dest inputs = some (out, inputs') ∧
    Combined size draws inputs out ∧
      ((∀ index, 0 < columnTotal (column inputs index) → columnTotal (column inputs index) < two32 ∧
          0 < columnShares size (columnTotal (column inputs index)) (draws index) (column inputs index)) →
        ∀ (before : List ℕ) (n : ℕ), 1 ≤ n → n ≤ out.numAdded →
          ∃ x, (getNumber (getNumbers out.fresh before) n).1 = some x ∧
            ∃ input ∈ inputs, (∃ index, x ∈ input.bag index) ∧
              ∀ as : List (Act ι), Produces as input → ∃ latency ∈ latencies as,
              clamped latency = x) := by
  obtain ⟨out, inputs', hrun, hout, -⟩ := combineOf_spec size hpos hsize draws dest hdest h htotal
  refine ⟨out, inputs', hrun, hout, fun hgood before n hpos hn => ?_⟩
  have hcount : ∀ index, out.count index = columnTotal (column inputs index) := by
    intro index
    rw [hout.count]
    rcases Nat.eq_zero_or_pos (columnTotal (column inputs index)) with hzero | hcounts
    · rw [hzero]
      rfl
    · exact Nat.mod_eq_of_lt (hgood index hcounts).1
  have htotal : out.numAdded = out.total := by
    rw [hout.numAdded, sum_numAdded h.wf, total]
    exact Finset.sum_congr rfl fun index _ => (hcount index).symm
  have hne : ∀ index, 0 < out.count index → out.bag index ≠ 0 := by
    intro index hcounts hnil
    rw [hcount] at hcounts
    exact (hgood index hcounts).2.ne' ((hout.nil index).1 hnil)
  obtain ⟨x, hx, index, hmem⟩ := getNumber_mem (getNumbers_reads out.fresh_reads before) hne htotal
    hpos hn
  obtain ⟨input, hinput, hbag⟩ := mem_columnSamples (Multiset.mem_of_le (hout.sub index) hmem)
  refine ⟨x, hx, input, hinput, ⟨index, hbag⟩, fun as has => ?_⟩
  obtain ⟨latency, hlatency, rfl⟩ := Multiset.mem_map.1 (has.sound.2 index x hbag)
  exact ⟨latency, hlatency, rfl⟩

/-- What `resetRun` returns: one latency. -/
def oneLatency : Samples :=
  ⟨1, fun index => if index = indexOf 5 then some ⟨1, [5]⟩ else none⟩

theorem resetRun_produces : Produces resetRun oneLatency := by
  have hvalue : ∀ index, (match (runFrom step (start Bool) resetRun).results with
      | r :: _ => r.value.intervals index
      | [] => none) = oneLatency.intervals index := by decide
  refine ⟨?_, _, mem_cons_self, rfl, congrArg (mk 1) (funext hvalue)⟩
  refine ⟨trivial, trivial, trivial, trivial, trivial, fun index => ?_, trivial, trivial⟩
  revert index
  decide

theorem produced_replicate (n : ℕ) : Produced Bool (replicate n oneLatency) := by
  intro input hinput
  exact ⟨resetRun, (eq_of_mem_replicate hinput).symm ▸ resetRun_produces⟩

/-- Two seconds with one latency each, and room for one sample; half a sample of each is rounded
up. -/
theorem combineOf_sound_two :
    ∃ out inputs', combineOf 1 (fun _ _ => ⟨0, fun _ => 0, fun _ => 0⟩) .new (List.replicate 2 oneLatency)
        = some (out, inputs') ∧
      Combined 1 (fun _ _ => ⟨0, fun _ => 0, fun _ => 0⟩) (List.replicate 2 oneLatency) out ∧
      ∀ (before : List ℕ) (n : ℕ), 1 ≤ n → n ≤ out.numAdded →
        ∃ x, (getNumber (getNumbers out.fresh before) n).1 = some x ∧
          ∃ input ∈ List.replicate 2 oneLatency, (∃ index, x ∈ input.bag index) ∧
            ∀ as : List (Act Bool), Produces as input → ∃ latency ∈ latencies as,
            clamped latency = x := by
  obtain ⟨out, inputs', hrun, hout, hnumber⟩ := combineOf_sound 1 (by decide) (by decide)
    (fun _ _ => ⟨0, fun _ => 0, fun _ => 0⟩) .new (fun _ _ => rfl) (replicate 2 oneLatency)
    (produced_replicate 2) (by decide)
  exact ⟨out, inputs', hrun, hout, hnumber (by decide)⟩

theorem columnTotal_replicate (n : ℕ) :
    columnTotal (column (replicate n oneLatency) (indexOf 5)) = n := by
  simp [column, columnTotal, oneLatency]

theorem columnShares_replicate {draws : MixDraws}
    (h : (o.getD .empty).share size total draws.coin = 0) (n : ℕ) :
    columnShares size total (fun _ => draws) (replicate n o) = 0 := by
  induction n with
  | zero => rfl
  | succ n ih => rw [replicate_succ, columnShares, h, zero_add, ih]

/-- 1023 seconds with one latency each: the share of each is a little less than one sample, and all
of them are rounded to zero. -/
theorem combineOf_loses_all :
    ¬ ∀ (draws : Fin 32 → ℕ → MixDraws) (inputs : List Samples) (_ : Produced Bool inputs),
      ∃ out inputs', combineOf combinedSize draws .new inputs = some (out, inputs') ∧
        ∀ index, 0 < out.count index → out.bag index ≠ 0 := by
  intro h
  set draws : MixDraws := ⟨1022, fun _ => 0, fun _ => 0⟩
  set inputs := replicate 1023 oneLatency with hinputs
  have hproduced := produced_replicate 1023
  have htotal : (inputs.map numAdded).sum = 1023 := by
    rw [hinputs, map_replicate, sum_replicate]
    rfl
  obtain ⟨out, inputs', hrun, hout, -⟩ := combineOf_spec combinedSize (by decide) (by decide)
    (fun _ _ => draws) .new (fun _ _ => rfl) hproduced (htotal.trans_lt (by decide))
  obtain ⟨out', inputs'', hrun', hsampled⟩ := h (fun _ _ => draws) inputs hproduced
  have hsame : out = out' := congrArg Prod.fst (Option.some.inj (hrun.symm.trans hrun'))
  subst hsame
  have hcolumn := columnTotal_replicate 1023
  apply hsampled (indexOf 5)
  · rw [hout.count, hcolumn, Nat.mod_eq_of_lt (by decide)]
    exact Nat.zero_lt_succ _
  · rw [hout.nil, hcolumn]
    have hos : column inputs (indexOf 5) = replicate 1023 (some ⟨1, [5]⟩) := by
      rw [hinputs, column, map_replicate]
      rfl
    have hshare : Interval.share combinedSize 1023 draws.coin ⟨1, [5]⟩ = 0 := by decide
    rw [hos]
    exact columnShares_replicate (o := some ⟨1, [5]⟩) hshare 1023

end Eabase.Var.Percentile
