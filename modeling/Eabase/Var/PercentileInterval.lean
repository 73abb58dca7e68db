import Mathlib.Tactic.Ring
import Eabase.Lib.SwapRemove
import Eabase.Var.Percentile

/-!
# Merging intervals

`PercentileInterval::merge` into an interval with room for any `SAMPLE_SIZE`
samples, with its `CHECK`s and with the 16 bits of `_num_samples`.

How many samples stay of each side is a proportion that is rounded up or down by
chance. It is never more than this side has, and what the other side has to give
for the rest is there as well. What goes wrong is the number of samples itself
when `SAMPLE_SIZE` is 65536, which the `static_assert` lets pass: it counts to 0.
-/

namespace Eabase.Var.Percentile

open Lib List
open Multiset (coe_add coe_card coe_le le_add_right)

/-- The values of a `uint16_t`. -/
def two16 : ℕ := 2 ^ 16

/-- What `fast_rand` returns in a `merge`: in `round_of_expectation`, when the `i`-th sample is
dropped, when one of `n` samples is picked. -/
structure Draws where
  coin : ℕ
  drop : ℕ → ℕ
  pick : ℕ → ℕ

namespace Interval

/-! ## `merge` -/

/-- `merge` into an interval with room for `size` samples; `none` when a `CHECK` fails. -/
def mergeInto (size : ℕ) (draws : Draws) (i rhs : Interval) : Option Interval :=
  if rhs.numAdded = 0 then some i
  else if rhs.samples.length ≠ rhs.numAdded then none
  else
    let total := (i.numAdded + rhs.numAdded) % two32
    if total ≤ size then
      if i.samples.length ≠ i.numAdded then none
      else
        -- `_num_samples` has 16 bits: what is behind it is not there
        let numSamples := (i.samples.length + rhs.samples.length) % two16
        some ⟨total, (i.samples ++ rhs.samples).take numSamples⟩
    else
      let numRemain := roundOfExpectation draws.coin (i.numAdded * size) total
      if numRemain > i.samples.length then none
      else
        let kept := dropSamples draws.drop (i.samples.length - numRemain) i.samples.length i.samples
        let numRemainFromRhs := size - numRemain
        if numRemainFromRhs > rhs.samples.length then none
        else
          let picked := pickSamples draws.pick numRemainFromRhs rhs.samples.length rhs.samples
          let numSamples := (numRemain + numRemainFromRhs) % two16
          if numSamples ≠ size then none else some ⟨total, kept.take numRemain ++ picked⟩

/-- One `merge` after the other. -/
def mergeAll (size : ℕ) : List (Draws × Interval) → Interval → Option Interval
  | [], i => some i
  | (draws, rhs) :: rest, i => (mergeInto size draws i rhs).bind (mergeAll size rest)

/-! ## What it is for -/

/-- An interval with room for `size` samples that was filled by `add32`. -/
structure Filled (size : ℕ) (i : Interval) : Prop where
  length : i.samples.length = i.numAdded
  le : i.numAdded ≤ size
  lt : i.numAdded < two16

def totalOf (rhss : List Interval) : ℕ :=
  (rhss.map numAdded).sum

def samplesOf (rhss : List Interval) : Multiset ℕ :=
  (rhss.map fun rhs => (rhs.samples : Multiset ℕ)).sum

/-- The interval has samples of what was added, as many as it has room for. -/
structure Sampled (size : ℕ) (rhss : List Interval) (i : Interval) : Prop where
  numAdded : i.numAdded = totalOf rhss
  length : i.samples.length = min (totalOf rhss) size
  sub : (i.samples : Multiset ℕ) ≤ samplesOf rhss
  all : totalOf rhss ≤ size → (i.samples : Multiset ℕ) = samplesOf rhss

variable {i rhs : Interval} {rhss : List Interval} {size size2 : ℕ} {draws : Draws}
  {i' : Interval} {n : ℕ} {k : ℕ} {ps : List (Draws × Interval)}

/-! ## Filling -/

theorem filled_empty (size : ℕ) : Filled size empty where
  length := rfl
  le := Nat.zero_le size
  lt := Nat.two_pow_pos 16

theorem Filled.mono (h : Filled size2 i) (hle : size2 ≤ size) : Filled size i where
  length := h.length
  le := h.le.trans hle
  lt := h.lt

theorem totalOf_concat (rhss : List Interval) (rhs : Interval) :
    totalOf (rhss ++ [rhs]) = totalOf rhss + rhs.numAdded := by
  simp [totalOf]

theorem samplesOf_concat (rhss : List Interval) (rhs : Interval) :
    samplesOf (rhss ++ [rhs]) = samplesOf rhss + rhs.samples := by
  simp [samplesOf]

theorem card_samplesOf (h : ∀ rhs ∈ rhss, rhs.samples.length = rhs.numAdded) :
    (samplesOf rhss).card = totalOf rhss := by
  induction rhss with
  | nil => rfl
  | cons rhs rhss ih =>
    have hrest := ih fun r hr => h r (mem_cons_of_mem _ hr)
    have hhead := h rhs mem_cons_self
    simp only [samplesOf, totalOf, map_cons, sum_cons] at hrest ⊢
    rw [Multiset.card_add, coe_card, hhead, hrest]

/-! ## The two loops -/

theorem dropSamples_subperm (draw : ℕ → ℕ) {samples : List ℕ} (hk : k ≤ n) (hn : n ≤ samples.length) :
    ((dropSamples draw k n samples).take (n - k)).Subperm (samples.take n) := by
  induction k generalizing n samples with
  | zero => exact List.Subperm.refl _
  | succ k ih =>
    have hpos : 0 < n := Nat.zero_lt_of_lt hk
    rw [dropSamples]
    have hlen : n - 1 ≤ (samples.set (draw n % n) (samples.getD (n - 1) 0)).length := by
      rw [length_set]
      lia
    have hrest := ih (Nat.le_sub_one_of_lt hk) hlen
    rw [show n - 1 - k = n - (k + 1) from Nat.sub_sub n 1 k |>.trans (by rw [add_comm])] at hrest
    exact hrest.trans (take_set_subperm 0 (Nat.mod_lt _ hpos) hn)

theorem pickSamples_subperm (draw : ℕ → ℕ) {tmp : List ℕ} (hk : k ≤ n) (hn : n ≤ tmp.length) :
    (pickSamples draw k n tmp).Subperm (tmp.take n) := by
  induction k generalizing n tmp with
  | zero => exact nil_subperm
  | succ k ih =>
    have hpos : 0 < n := Nat.zero_lt_of_lt hk
    rw [pickSamples]
    have hlen : n - 1 ≤ (tmp.set (draw n % n) (tmp.getD (n - 1) 0)).length := by
      rw [length_set]
      lia
    have hrest := ih (Nat.le_sub_one_of_lt hk) hlen
    have htaken := cons_take_set_perm 0 (Nat.mod_lt (draw n) hpos) hn
    exact ((subperm_cons _).2 hrest).trans htaken.subperm

/-! ## The bounds of the proportion -/

theorem size_sub_round_le {a r size : ℕ} (coin : ℕ) (hr : r ≤ size) (hlt : size < a + r) :
    size - roundOfExpectation coin (a * size) (a + r) ≤ r := by
  have hpos : 0 < a + r := Nat.zero_lt_of_lt hlt
  have hfloor : size - r ≤ a * size / (a + r) := by
    rw [Nat.le_div_iff_mul_le hpos]
    obtain ⟨d, rfl⟩ := Nat.exists_eq_add_of_le hr
    have hd : d ≤ a := by lia
    rw [Nat.add_sub_cancel_left]
    calc d * (a + r) = d * a + d * r := mul_add d a r
      _ ≤ d * a + a * r := Nat.add_le_add_left (Nat.mul_le_mul_right r hd) _
      _ = a * (r + d) := by ring
  have hround : a * size / (a + r) ≤ roundOfExpectation coin (a * size) (a + r) := by
    unfold roundOfExpectation
    rw [if_neg hpos.ne']
    exact Nat.le_add_right _ _
  lia

/-! ## One merge -/

/-- The last of the properties of `Sampled` follows from the others. -/
theorem Sampled.mk' (hfilled : ∀ rhs ∈ rhss, rhs.samples.length = rhs.numAdded)
    (hadded : i.numAdded = totalOf rhss) (hlen : i.samples.length = min (totalOf rhss) size)
    (hsub : (i.samples : Multiset ℕ) ≤ samplesOf rhss) : Sampled size rhss i where
  numAdded := hadded
  length := hlen
  sub := hsub
  all hle := by
    apply Multiset.eq_of_le_of_card_le hsub
    rw [card_samplesOf hfilled, coe_card, hlen, min_eq_left hle]

/-- `merge` passes its `CHECK`s and keeps the interval sampled, when the number of samples fits. -/
theorem Sampled.mergeInto (h : Sampled size rhss i)
    (hrhss : ∀ rhs ∈ rhss, rhs.samples.length = rhs.numAdded)
    (hr : Filled size rhs) (htotal : totalOf (rhss ++ [rhs]) < two32)
    (hfits : size < two16 ∨ totalOf (rhss ++ [rhs]) < two16) (draws : Draws) :
    ∃ i', mergeInto size draws i rhs = some i' ∧ Sampled size (rhss ++ [rhs]) i' := by
  have hall : ∀ r ∈ rhss ++ [rhs], r.samples.length = r.numAdded := by
    intro r hmem
    rcases mem_append.1 hmem with hmem | hmem
    · exact hrhss r hmem
    · rw [mem_singleton.1 hmem]
      exact hr.length
  have hadded := h.numAdded
  have hlength := h.length
  have hconcat := totalOf_concat rhss rhs
  unfold Interval.mergeInto
  split
  next hzero =>
    have hnil : rhs.samples = [] := length_eq_zero_iff.1 (hr.length.trans hzero)
    refine ⟨i, rfl, .mk' hall ?_ ?_ ?_⟩
    · rw [hconcat, hzero]
      exact hadded
    · rw [hconcat, hzero]
      exact hlength
    · rw [samplesOf_concat, hnil]
      exact h.sub.trans (le_add_right _ _)
  rename_i hpos
  rw [if_neg (not_not_intro hr.length), hadded, ← hconcat, Nat.mod_eq_of_lt htotal]
  by_cases hle : totalOf (rhss ++ [rhs]) ≤ size
  · -- no sample is dropped
    have hlen : i.samples.length = totalOf rhss := by lia
    have hfit : i.samples.length + rhs.samples.length < two16 := by
      rw [hlen, hr.length]
      lia
    have htake : (i.samples ++ rhs.samples).take (i.samples.length + rhs.samples.length)
        = i.samples ++ rhs.samples := take_of_length_le (length_append ..).le
    simp only [if_pos hle, if_neg (not_not_intro hlen), Nat.mod_eq_of_lt hfit, htake]
    refine ⟨_, rfl, .mk' hall rfl ?_ ?_⟩
    · rw [length_append, hlen, hr.length, ← hconcat, min_eq_left hle]
    · rw [samplesOf_concat, ← coe_add]
      exact Multiset.add_le_add_right h.sub
  · -- a part of the samples of both sides is kept
    have hgt : size < totalOf rhss + rhs.numAdded := by lia
    have hsize : size < two16 := hfits.elim id (not_le.1 hle).trans
    have hrest := size_sub_round_le draws.coin hr.le hgt
    rw [← hconcat] at hrest
    simp only [if_neg hle]
    set numRemain := roundOfExpectation draws.coin (totalOf rhss * size)
      (totalOf (rhss ++ [rhs]))
    have hround : numRemain ≤ totalOf rhss := round_le (Nat.mul_le_mul_left _ (not_le.1 hle).le)
    have hroom : numRemain ≤ size := by
      apply round_le
      rw [mul_comm]
      exact Nat.mul_le_mul_left _ (by lia)
    have hkeep : numRemain ≤ i.samples.length := by
      rw [hlength]
      exact le_min hround hroom
    have hgive : size - numRemain ≤ rhs.samples.length := hrest.trans_eq hr.length.symm
    have hmod : (numRemain + (size - numRemain)) % two16 = size := by
      rw [Nat.add_sub_cancel' hroom, Nat.mod_eq_of_lt hsize]
    simp only [if_neg (not_lt.2 hkeep), if_neg (not_lt.2 hgive), if_neg (not_not_intro hmod)]
    refine ⟨_, rfl, .mk' hall rfl ?_ ?_⟩
    · rw [length_append, length_take, length_dropSamples, length_pickSamples, min_eq_left hkeep,
        Nat.add_sub_cancel' hroom, min_eq_right (not_le.1 hle).le]
    · have hdrop := dropSamples_subperm draws.drop (Nat.sub_le i.samples.length numRemain) le_rfl
      rw [Nat.sub_sub_self hkeep, take_length] at hdrop
      have hpick := pickSamples_subperm draws.pick hgive le_rfl
      rw [take_length] at hpick
      rw [samplesOf_concat, ← coe_add]
      exact add_le_add ((coe_le.2 hdrop).trans h.sub) (coe_le.2 hpick)

theorem mergeInto_lt (h : mergeInto size draws i rhs = some i')
    (hlt : i.samples.length < two16) : i'.samples.length < two16 := by
  have hmod : ∀ n, n % two16 < two16 := fun n => Nat.mod_lt n (Nat.two_pow_pos 16)
  simp only [Interval.mergeInto] at h
  split at h
  · rwa [← Option.some.inj h]
  split at h
  · exact nomatch h
  split at h
  · split at h
    · exact nomatch h
    · rw [← Option.some.inj h, length_take]
      exact (min_le_left _ _).trans_lt (hmod _)
  split at h
  · exact nomatch h
  rename_i hkeep
  split at h
  · exact nomatch h
  split at h
  · exact nomatch h
  next hsize =>
    rw [← Option.some.inj h, length_append, length_take, length_dropSamples, length_pickSamples,
      min_eq_left (not_lt.1 hkeep)]
    set numRemain := roundOfExpectation draws.coin (i.numAdded * size)
      ((i.numAdded + rhs.numAdded) % two32)
    have hlt' := hmod (numRemain + (size - numRemain))
    have heq := not_not.1 hsize
    lia

theorem mergeInto_le (h : mergeInto size draws i rhs = some i') :
    (i'.samples : Multiset ℕ) ≤ i.samples + rhs.samples := by
  simp only [Interval.mergeInto] at h
  split at h
  · rw [← Option.some.inj h]
    exact le_add_right _ _
  split at h
  · exact nomatch h
  split at h
  · split at h
    · exact nomatch h
    · rw [← Option.some.inj h, coe_add]
      exact coe_le.2 (take_sublist ..).subperm
  split at h
  · exact nomatch h
  rename_i hkeep
  split at h
  · exact nomatch h
  rename_i hgive
  split at h
  · exact nomatch h
  have hdrop := dropSamples_subperm draws.drop (Nat.sub_le i.samples.length
    (roundOfExpectation draws.coin (i.numAdded * size) ((i.numAdded + rhs.numAdded) % two32))) le_rfl
  rw [Nat.sub_sub_self (not_lt.1 hkeep), take_length] at hdrop
  have hpick := pickSamples_subperm draws.pick (not_lt.1 hgive) le_rfl
  rw [take_length] at hpick
  rw [← Option.some.inj h, ← coe_add]
  exact add_le_add (coe_le.2 hdrop) (coe_le.2 hpick)

/-! ## A sequence of merges -/

theorem Sampled.mergeAll (h : Sampled size rhss i)
    (hrhss : ∀ rhs ∈ rhss, rhs.samples.length = rhs.numAdded) (hps : ∀ p ∈ ps, Filled size p.2)
    (htotal : totalOf (rhss ++ ps.map Prod.snd) < two32)
    (hfits : size < two16 ∨ totalOf (rhss ++ ps.map Prod.snd) < two16) :
    ∃ i', mergeAll size ps i = some i' ∧ Sampled size (rhss ++ ps.map Prod.snd) i' := by
  induction ps generalizing rhss i with
  | nil =>
    rw [map_nil, append_nil]
    exact ⟨i, rfl, h⟩
  | cons p ps ih =>
    have hp := hps p mem_cons_self
    have hsplit : rhss ++ (p :: ps).map Prod.snd = (rhss ++ [p.2]) ++ ps.map Prod.snd := by simp
    have hle : totalOf (rhss ++ [p.2]) ≤ totalOf (rhss ++ (p :: ps).map Prod.snd) := by
      simp [totalOf]
    rw [hsplit] at htotal hfits ⊢
    rw [hsplit] at hle
    obtain ⟨i1, hstep, hi1⟩ := h.mergeInto hrhss hp (hle.trans_lt htotal)
      (hfits.imp_right hle.trans_lt) p.1
    have hrhss' : ∀ rhs ∈ rhss ++ [p.2], rhs.samples.length = rhs.numAdded := by
      intro r hmem
      rcases mem_append.1 hmem with hmem | hmem
      · exact hrhss r hmem
      · rw [mem_singleton.1 hmem]
        exact hp.length
    obtain ⟨i', hrun, hi'⟩ := ih hi1 hrhss' (fun q hq => hps q (mem_cons_of_mem _ hq)) htotal hfits
    refine ⟨i', ?_, hi'⟩
    rw [Interval.mergeAll, hstep]
    exact hrun

theorem mergeAll_lt (h : mergeAll size ps i = some i')
    (hlt : i.samples.length < two16) : i'.samples.length < two16 := by
  induction ps generalizing i with
  | nil => rwa [← Option.some.inj h]
  | cons p ps ih =>
    obtain ⟨i1, hstep, hrest⟩ := Option.bind_eq_some_iff.1 h
    exact ih hrest (mergeInto_lt hstep hlt)

theorem sampled_empty (size : ℕ) : Sampled size [] empty where
  numAdded := rfl
  length := (Nat.zero_min size).symm
  sub := le_rfl
  all _ := rfl

/-- **A merged interval is a sample** of what was added, as large as there is room, in every
sequence of merges and whatever is drawn, just when there is no room for 65536 samples or fewer were
added. -/
theorem mergeAll_sampled_iff (hsize : size ≤ two16) (ps : List (Draws × Interval))
    (hps : ∀ p ∈ ps, ∃ size2 ≤ size, Filled size2 p.2) (htotal : totalOf (ps.map Prod.snd) < two32) :
    (∃ i, mergeAll size ps empty = some i ∧ Sampled size (ps.map Prod.snd) i)
      ↔ size < two16 ∨ totalOf (ps.map Prod.snd) < two16 := by
  constructor
  · rintro ⟨i, hrun, hi⟩
    have hlt := mergeAll_lt hrun (Nat.two_pow_pos 16)
    have hlen := hi.length
    lia
  · intro hfits
    have hfilled : ∀ p ∈ ps, Filled size p.2 := by
      intro p hp
      obtain ⟨size2, hle, hfill⟩ := hps p hp
      exact hfill.mono hle
    exact (sampled_empty size).mergeAll (nofun) hfilled htotal hfits

/-- Two intervals of different sizes, merged into a small one. -/
theorem mergeAll_sampled_two :
    ∃ i, mergeAll 2 [(⟨0, fun _ => 0, fun _ => 0⟩, ⟨1, [5]⟩),
      (⟨1, fun _ => 1, fun _ => 1⟩, ⟨2, [7, 9]⟩)] empty
        = some i ∧ Sampled 2 [⟨1, [5]⟩, ⟨2, [7, 9]⟩] i :=
  (mergeAll_sampled_iff (by decide) _ (by
      intro p hp
      rcases mem_cons.1 hp with rfl | hp
      · exact ⟨1, by decide, rfl, by decide, by decide⟩
      · rw [mem_singleton.1 hp]
        exact ⟨2, by decide, rfl, by decide, by decide⟩)
    (by decide)).2 (.inl (by decide))

theorem filled_replicate (hle : n ≤ size) (hlt : n < two16) : Filled size ⟨n, replicate n 0⟩ where
  length := length_replicate
  le := hle
  lt := hlt

/-- Two intervals with 32768 samples each, merged into one with room for 65536: it has no samples
then. -/
theorem mergeAll_counts_to_zero :
    ¬ ∀ (size : ℕ) (_ : size ≤ two16) (ps : List (Draws × Interval))
      (_ : ∀ p ∈ ps, ∃ size2 ≤ size, Filled size2 p.2) (_ : totalOf (ps.map Prod.snd) < two32),
      ∃ i, mergeAll size ps empty = some i ∧ Sampled size (ps.map Prod.snd) i := by
  intro h
  have hno : ∀ n, n + n = two16 → False := by
    intro n hn
    set half : Draws × Interval := (⟨0, fun _ => 0, fun _ => 0⟩, ⟨n, replicate n 0⟩) with hhalf
    have hlt : n < two16 := by
      have hpos : 0 < two16 := Nat.two_pow_pos 16
      lia
    have hfilled : ∀ p ∈ [half, half], ∃ size2 ≤ two16, Filled size2 p.2 := by
      intro p hp
      have hp' : p = half := by simpa using hp
      rw [hp']
      exact ⟨n, hlt.le, filled_replicate le_rfl hlt⟩
    have htotal : totalOf ([half, half].map Prod.snd) = two16 := by
      rw [← hn, hhalf]
      simp [totalOf]
    have hlt32 : two16 < two32 := by decide
    obtain ⟨i, hrun, hi⟩ := h two16 le_rfl [half, half] hfilled (htotal.trans_lt hlt32)
    have hlen := mergeAll_lt hrun (Nat.two_pow_pos 16)
    rw [hi.length, htotal, Nat.min_self] at hlen
    exact lt_irrefl _ hlen
  exact hno 32768 rfl

/-! ## `GlobalPercentileSamples` -/

/-- What `merge` does where it is used: an interval of a thread is merged into one of the
combiner. -/
theorem mergeInto_globalSize (h : Wf globalSize i) (hr : Local rhs) (draw : ℕ → ℕ)
    (hlt : i.numAdded + rhs.numAdded < two32) :
    mergeInto globalSize ⟨draw 0, draw, draw⟩ i rhs = some (i.merge draw rhs) := by
  have hlen := h.length
  have hlen' := hr.length
  have hlocal := hr.le
  have hsizes : localSize ≤ globalSize := by decide
  have hsize : globalSize < two16 := by decide
  unfold Interval.mergeInto Interval.merge
  split
  · rfl
  rw [if_neg (not_not_intro hr.length)]
  simp only [Nat.mod_eq_of_lt hlt]
  split
  next hle =>
    have hall : i.samples.length = i.numAdded := by lia
    have hfit : i.samples.length + rhs.samples.length < two16 := by lia
    rw [if_neg (not_not_intro hall), Nat.mod_eq_of_lt hfit, ← length_append, take_length]
  next hle =>
    have hgt : globalSize < i.numAdded + rhs.numAdded := not_le.1 hle
    have hrest := size_sub_round_le (draw 0) (hr.le.trans hsizes) hgt
    set numRemain := roundOfExpectation (draw 0) (i.numAdded * globalSize) (i.numAdded + rhs.numAdded)
    have hround : numRemain ≤ i.numAdded := round_le (Nat.mul_le_mul_left _ hgt.le)
    have hroom : numRemain ≤ globalSize := by
      apply round_le
      rw [mul_comm]
      exact Nat.mul_le_mul_left _ (Nat.le_add_right _ _)
    have hmod : (numRemain + (globalSize - numRemain)) % two16 = globalSize := by
      rw [Nat.add_sub_cancel' hroom, Nat.mod_eq_of_lt hsize]
    rw [if_neg (by lia), if_neg (by lia), if_neg (not_not_intro hmod)]

theorem lt_of_mergeInto_isSome (h : Wf globalSize i) (hr : Local rhs)
    (hsome : (mergeInto globalSize draws i rhs).isSome) : i.numAdded + rhs.numAdded < two32 := by
  by_contra hge
  have hlt := h.lt
  have hlen := h.length
  have hle := hr.le
  have hlocal : localSize < globalSize := by decide
  have hglobal : globalSize + localSize < two32 := by decide
  have hne : rhs.numAdded ≠ 0 := by lia
  have hmod : (i.numAdded + rhs.numAdded) % two32 = i.numAdded + rhs.numAdded - two32 := by
    rw [Nat.mod_eq_sub_mod (not_lt.1 hge), Nat.mod_eq_of_lt (by lia)]
  rw [mergeInto, if_neg hne, if_neg (not_not_intro hr.length)] at hsome
  simp only [hmod] at hsome
  rw [if_pos (by lia), if_pos (by lia)] at hsome
  exact nomatch hsome

end Interval

end Eabase.Var.Percentile
