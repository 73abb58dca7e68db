import Eabase.Var.PercentileCombine

/-!
# Order statistics

`PercentileInterval::get_sample_at` sorts the samples when it is called first and
notes that in `_sorted`. Only `clear` takes the note back: samples that come in
later are left where they are, and so is what `merge_with_expectation` does to
the order of its source.

The intervals are any number of objects, each with room for `SAMPLE_SIZE` samples
of its own. A run ends with a `CHECK` that fails: what the code does behind it, when
`crash_on_fatal_log` is off, is not described.
-/

/-- `PercentileInterval`, with `_sorted`. -/
structure Eabase.Var.Percentile.CachedInterval where
  interval : Eabase.Var.Percentile.Interval
  sorted : Bool

namespace Eabase.Var.Percentile.CachedInterval

open Lib Function

/-- The constructor, and `clear`. -/
def empty : CachedInterval := ⟨.empty, false⟩

/-- `add32`. -/
def add32 (size : ℕ) (c : CachedInterval) (x : ℕ) : CachedInterval :=
  let samples := c.interval.samples
  if samples.length ≥ size then c
  -- `_num_samples` has 16 bits
  else { c with interval := ⟨(c.interval.numAdded + 1) % two32,
    (samples ++ [x]).take ((samples.length + 1) % two16)⟩ }

/-- `get_sample_at`: the sample, and the interval afterwards. -/
def getSampleAt (c : CachedInterval) (index : ℕ) : ℕ × CachedInterval :=
  let savedNum := c.interval.samples.length
  if index ≥ savedNum ∧ savedNum = 0 then (0, c)
  else
    let index := if index ≥ savedNum then savedNum - 1 else index
    let samples := if c.sorted then c.interval.samples else c.interval.samples.mergeSort (· ≤ ·)
    (samples.getD index 0, ⟨{ c.interval with samples := samples }, true⟩)

/-- A call; `merge` and `merge_with_expectation` are for another interval. -/
inductive Act (ι : Type*) where
  | add32 (i : ι) (x : ℕ)
  | merge (i rhs : ι) (draws : Draws)
  | mergeWithExpectation (i rhs : ι) (n : ℕ) (draws : MixDraws)
  | clear (i : ι)
  | getSampleAt (i : ι) (index : ℕ)

variable {ι : Type*} [DecidableEq ι] {c : CachedInterval}

/-- A call on the intervals; there are none any more when a `CHECK` fails. -/
def call (size : ι → ℕ) (s : ι → CachedInterval) : Act ι → Option (ι → CachedInterval)
  | .add32 i x => some (update s i ((s i).add32 (size i) x))
  | .merge i rhs draws =>
    -- the `static_assert` of `merge`
    if i ≠ rhs ∧ size rhs ≤ size i then
      (Interval.mergeInto (size i) draws (s i).interval (s rhs).interval).map fun merged =>
        update s i { s i with interval := merged }
    else some s
  | .mergeWithExpectation i rhs n draws =>
    if i ≠ rhs then
      (Interval.mergeWithExpectation (size i) draws (s i).interval (s rhs).interval n).map fun mixed =>
        update (update s i { s i with interval := mixed.1 }) rhs { s rhs with interval := mixed.2 }
    else some s
  | .clear i => some (update s i .empty)
  | .getSampleAt i index => some (update s i ((s i).getSampleAt index).2)

def step (size : ι → ℕ) (s : Option (ι → CachedInterval)) (act : Act ι) : Option (ι → CachedInterval) :=
  s.bind fun s => call size s act

/-! ## What is expected -/

/-- The `index`-th smallest, the largest if `index` is past the end, and 0 if there is none. -/
def orderStatistic (samples : Multiset ℕ) (index : ℕ) : ℕ :=
  (samples.sort (· ≤ ·)).getD (min index (samples.card - 1)) 0

/-- Whatever `get_sample_at` is asked for next, it returns the order statistic. -/
def ReturnsOrderStatistics (s : Option (ι → CachedInterval)) : Prop :=
  ∀ intervals ∈ s, ∀ i index,
    ((intervals i).getSampleAt index).1 = orderStatistic (intervals i).interval.samples index

/-- The samples `more` can be put behind those of an interval that is sorted already. -/
def TakesBehind (c : CachedInterval) (more : List ℕ) : Prop :=
  more.Pairwise (· ≤ ·) ∧ ∀ x ∈ c.interval.samples, ∀ y ∈ more, x ≤ y

/-- `merge_with_expectation` takes all samples of the other interval and leaves them in their
places. -/
def TakesWhole (size : ℕ) (c rhs : CachedInterval) (n : ℕ) : Prop :=
  c.interval.samples.length + n ≤ size ∧ n = rhs.interval.samples.length

/-- What a call must heed, of the intervals it finds. One that is sorted already gets only samples
that belong behind its own, and none that are picked at random; nor are any picked from it. -/
def Heeds (size : ι → ℕ) (s : Option (ι → CachedInterval)) (act : Act ι) : Prop :=
  ∀ intervals ∈ s,
    match act with
    | .add32 i x => (intervals i).sorted = true →
      size i ≤ (intervals i).interval.samples.length ∨ (intervals i).TakesBehind [x]
    | .merge i rhs _ => (intervals i).sorted = true → (intervals rhs).interval.numAdded = 0 ∨
      ((intervals i).interval.numAdded + (intervals rhs).interval.numAdded) % two32 ≤ size i ∧
        (intervals i).TakesBehind (intervals rhs).interval.samples
    | .mergeWithExpectation i rhs n _ => n = 0 ∨
      ((intervals i).sorted = true → TakesWhole (size i) (intervals i) (intervals rhs) n ∧
        (intervals i).TakesBehind (intervals rhs).interval.samples) ∧
      ((intervals rhs).sorted = true → TakesWhole (size i) (intervals i) (intervals rhs) n)
    | .clear _ => True
    | .getSampleAt _ _ => True

/-! ## One interval -/

/-- `_sorted` is right. -/
def Ordered (c : CachedInterval) : Prop :=
  c.sorted = true → c.interval.samples.Pairwise (· ≤ ·)

theorem orderStatistic_eq {samples l : List ℕ} (hperm : l.Perm samples) (hl : l.Pairwise (· ≤ ·))
    (index : ℕ) :
    orderStatistic samples index = l.getD (min index (samples.length - 1)) 0 := by
  have hsort : (samples : Multiset ℕ).sort (· ≤ ·) = l := by
    apply List.Perm.eq_of_pairwise' (Multiset.pairwise_sort _ _) hl
    rw [Multiset.coe_sort]
    exact (List.mergeSort_perm ..).trans hperm.symm
  rw [orderStatistic, hsort, Multiset.coe_card]

/-- What `get_sample_at` returns, of the samples that it looks at. -/
theorem getSampleAt_fst (c : CachedInterval) (index : ℕ) : (c.getSampleAt index).1 =
      (if c.sorted then c.interval.samples else c.interval.samples.mergeSort (· ≤ ·)).getD
        (min index (c.interval.samples.length - 1)) 0 := by
  simp only [getSampleAt]
  split
  case isTrue h =>
    have hnil : c.interval.samples = [] := List.length_eq_zero_iff.1 h.2
    simp [hnil]
  case isFalse h =>
    have hmin : (if index ≥ c.interval.samples.length then c.interval.samples.length - 1 else index) =
        min index (c.interval.samples.length - 1) := by split <;> lia
    rw [hmin]

theorem returns_of_ordered (h : c.Ordered) (index : ℕ) :
    (c.getSampleAt index).1 = orderStatistic c.interval.samples index := by
  rw [getSampleAt_fst]
  split
  case isTrue hs => exact (orderStatistic_eq (List.Perm.refl _) (h hs) index).symm
  case isFalse =>
    exact (orderStatistic_eq (List.mergeSort_perm ..) (List.pairwise_mergeSort' _ _) index).symm

theorem ordered_of_returns
    (h : ∀ index, (c.getSampleAt index).1 = orderStatistic c.interval.samples index) : c.Ordered := by
  intro hs
  have hperm : (c.interval.samples.mergeSort (· ≤ ·)).Perm c.interval.samples := List.mergeSort_perm ..
  have hpair : (c.interval.samples.mergeSort (· ≤ ·)).Pairwise (· ≤ ·) := List.pairwise_mergeSort' _ _
  have heq : c.interval.samples = c.interval.samples.mergeSort (· ≤ ·) := by
    apply List.ext_getElem hperm.length_eq.symm
    intro k hk hk'
    have hget := h k
    have hmin : min k (c.interval.samples.length - 1) = k := by lia
    rw [getSampleAt_fst, if_pos hs, orderStatistic_eq hperm hpair, hmin] at hget
    rwa [List.getD_eq_getElem _ _ hk, List.getD_eq_getElem _ _ hk'] at hget
  rw [heq]
  exact hpair

theorem ordered_getSampleAt (h : c.Ordered) (index : ℕ) : (c.getSampleAt index).2.Ordered := by
  simp only [getSampleAt]
  split
  case isTrue => exact h
  case isFalse =>
    intro _
    show (if c.sorted then c.interval.samples else _).Pairwise (· ≤ ·)
    split
    case isTrue hs => exact h hs
    case isFalse => exact List.pairwise_mergeSort' _ _

/-! ## All intervals -/

/-- `_sorted` is right in every interval. -/
def AllOrdered (s : Option (ι → CachedInterval)) : Prop :=
  ∀ intervals ∈ s, ∀ i, (intervals i).Ordered

omit [DecidableEq ι] in
theorem returns_iff (s : Option (ι → CachedInterval)) : ReturnsOrderStatistics s ↔ AllOrdered s := by
  constructor
  · intro h intervals hs i
    exact ordered_of_returns (h intervals hs i)
  · intro h intervals hs i
    exact returns_of_ordered (h intervals hs i)

/-- Samples that belong behind the others are put there; the last ones may be cut off. -/
theorem Ordered.takes (h : c.Ordered) {more : List ℕ} (hmore : c.sorted = true → c.TakesBehind more)
    (n m : ℕ) :
    Ordered ⟨⟨m, (c.interval.samples ++ more).take n⟩, c.sorted⟩ := by
  intro hs
  obtain ⟨hpair, hle⟩ := hmore hs
  have happend : (c.interval.samples ++ more).Pairwise (· ≤ ·) :=
    List.pairwise_append.2 ⟨h hs, hpair, hle⟩
  exact happend.sublist (List.take_sublist ..)

theorem ordered_add32 (h : c.Ordered) (size x : ℕ)
    (hx : c.sorted = true → size ≤ c.interval.samples.length ∨ c.TakesBehind [x]) :
    (c.add32 size x).Ordered := by
  unfold add32
  dsimp only
  split
  case isTrue => exact h
  case isFalse hroom => exact h.takes (fun hs => (hx hs).resolve_left hroom) _ _

theorem ordered_mergeInto (h : c.Ordered) {rhs : CachedInterval} {size : ℕ} {draws : Draws}
    {merged : Interval}
    (hmerge : Interval.mergeInto size draws c.interval rhs.interval = some merged)
    (hheed : c.sorted = true → rhs.interval.numAdded = 0 ∨
      (c.interval.numAdded + rhs.interval.numAdded) % two32 ≤ size ∧ c.TakesBehind rhs.interval.samples) :
    Ordered { c with interval := merged } := by
  unfold Interval.mergeInto at hmerge
  split at hmerge
  case isTrue =>
    cases hmerge
    exact h
  case isFalse hadded =>
    split at hmerge
    case isTrue => cases hmerge
    case isFalse =>
      dsimp only at hmerge
      split at hmerge
      case isTrue =>
        split at hmerge
        case isTrue => cases hmerge
        case isFalse =>
          cases hmerge
          exact h.takes (fun hs => ((hheed hs).resolve_left hadded).2) _ _
      case isFalse hmany => exact fun hs => absurd ((hheed hs).resolve_left hadded).1 hmany

theorem ordered_mergeWithExpectation (h : c.Ordered) {rhs : CachedInterval} (hrhs : rhs.Ordered)
    {size n : ℕ}
    {draws : MixDraws} {mixed : Interval × Interval}
    (hmerge : Interval.mergeWithExpectation size draws c.interval rhs.interval n = some mixed)
    (hheed : n = 0 ∨ (c.sorted = true → TakesWhole size c rhs n ∧ c.TakesBehind rhs.interval.samples) ∧
      (rhs.sorted = true → TakesWhole size c rhs n)) :
    Ordered { c with interval := mixed.1 } ∧ Ordered { rhs with interval := mixed.2 } := by
  unfold Interval.mergeWithExpectation at hmerge
  split at hmerge
  case isTrue => cases hmerge
  case isFalse =>
    dsimp only at hmerge
    split at hmerge
    case isTrue hwhole =>
      cases hmerge
      refine ⟨h.takes ?_ _ _, hrhs⟩
      intro hs
      rcases hheed with rfl | hheed
      · -- The other interval is empty.
        have hnil : rhs.interval.samples = [] := List.eq_nil_of_length_eq_zero hwhole.2.symm
        rw [TakesBehind, hnil]
        exact ⟨List.Pairwise.nil, fun _ _ => nofun⟩
      · exact (hheed.1 hs).2
    case isFalse hpart =>
      cases hmerge
      rcases hheed with rfl | hheed
      · exact ⟨h, hrhs⟩
      · exact ⟨fun hs => absurd (hheed.1 hs).1 hpart, fun hs => absurd (hheed.2 hs) hpart⟩

theorem ordered_update {s : ι → CachedInterval} (h : ∀ i, (s i).Ordered) {i : ι} (hc : c.Ordered)
    (j : ι) :
    (update s i c j).Ordered := by
  obtain rfl | hne := eq_or_ne j i
  · rw [update_self]
    exact hc
  · rw [update_of_ne hne]
    exact h j

/-- **One call.** -/
theorem heeds_ordered (size : ι → ℕ) {s : Option (ι → CachedInterval)} {act : Act ι} (h : AllOrdered s)
    (hheeds : Heeds size s act) : AllOrdered (step size s act) := by
  rintro t ht
  obtain ⟨s, rfl, hcall⟩ := Option.bind_eq_some_iff.1 ht
  have hs : ∀ i, (s i).Ordered := h s rfl
  have hheed := hheeds s rfl
  cases act with
  | add32 i x =>
    cases hcall
    exact ordered_update hs (ordered_add32 (hs i) (size i) x hheed)
  | merge i rhs draws =>
    simp only [call] at hcall
    split at hcall
    case isTrue =>
      obtain ⟨merged, hmerge, rfl⟩ := Option.map_eq_some_iff.1 hcall
      exact ordered_update hs (ordered_mergeInto (hs i) hmerge hheed)
    case isFalse =>
      cases hcall
      exact hs
  | mergeWithExpectation i rhs n draws =>
    simp only [call] at hcall
    split at hcall
    case isTrue =>
      obtain ⟨mixed, hmerge, rfl⟩ := Option.map_eq_some_iff.1 hcall
      obtain ⟨hdest, hsource⟩ := ordered_mergeWithExpectation (hs i) (hs rhs) hmerge hheed
      exact ordered_update (ordered_update hs hdest) hsource
    case isFalse =>
      cases hcall
      exact hs
  | clear i =>
    cases hcall
    exact ordered_update hs nofun
  | getSampleAt i index =>
    cases hcall
    exact ordered_update hs (ordered_getSampleAt (hs i) index)

/-! ## Runs -/

/-- The intervals as they are constructed. -/
def constructed (ι : Type*) : Option (ι → CachedInterval) :=
  some fun _ => .empty

/-- **Order statistics are returned** in every state of a run whose calls give an interval that is
sorted already only samples that belong behind its own. -/
theorem run_returns (size : ι → ℕ) (acts : List (Act ι))
    (hheeds : Along (step size) (Heeds size) (constructed ι) acts) :
    ∀ initial, initial <+: acts → ReturnsOrderStatistics
    (runFrom (step size) (constructed ι) initial) := by
  intro initial hinitial
  have hstart : AllOrdered (constructed ι) := by
    rintro _ ⟨⟩ i
    exact nofun
  rw [returns_iff]
  exact (hheeds.initial hinitial).run (fun s act hs hheed => heeds_ordered size hs hheed) hstart

/-- Two intervals are merged before they are sorted, and samples of the sorted one go behind those
of the other. -/
theorem run_returns_merged :
    ReturnsOrderStatistics (runFrom (step fun _ => 30) (constructed Bool)
      [.add32 false 2, .add32 false 1, .getSampleAt false 0, .add32 true 7,
        .merge false true ⟨0, id, id⟩, .getSampleAt false 5,
        .mergeWithExpectation true false 3 ⟨0, id, id⟩]) := by
  apply run_returns (fun _ => 30) _ ?_ _ (List.prefix_refl _)
  simp [Along, Heeds, constructed, step, call, add32, getSampleAt, empty, Interval.empty, two16,
    two32, TakesBehind,
    TakesWhole, Interval.mergeInto]

/-- A sample is read, and then a smaller one is added. -/
theorem run_not_returns :
    ¬∀ (size : Unit → ℕ) (acts : List (Act Unit)) (initial), initial <+: acts →
      ReturnsOrderStatistics (runFrom (step size) (constructed Unit) initial) := by
  intro h
  obtain ⟨s, hrun, hs⟩ : ∃ s, runFrom (step fun _ => 30)
      (constructed Unit) [.add32 () 2, .getSampleAt () 0, .add32 () 1]
      = some s ∧ s () = ⟨⟨2, [2, 1]⟩, true⟩ := by
    refine ⟨_, rfl, ?_⟩
    simp [add32, getSampleAt, empty, Interval.empty, two16, two32]
  have hreturns := h (fun _ => 30) _ _ (List.prefix_refl _) s hrun () 0
  rw [hs, orderStatistic_eq (List.Perm.swap 2 1 []) (by decide)] at hreturns
  exact absurd hreturns (by decide)

end Eabase.Var.Percentile.CachedInterval
