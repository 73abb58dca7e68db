import Eabase.Var.Sampler

/-!
# The samples of a window

`get_samples` delivers the samples of a window where `get_value` folds them: the
two scans have the same oldest sample, but that of `get_samples` begins behind
the latest sample, which `get_value` takes before its loop. So the samples are
those of all intervals of the window but the latest one.
-/

namespace Eabase.Var.Sampler

open Lib Utility List

variable {M : Type*}

/-- The loop of `get_samples`, from the `i`-th sample before the latest one on; `none` when it runs
out of the queue. -/
def pushSamples (q : BoundedQueue (Sample M)) (oldest : ℕ) : ℕ → ℕ → List M → Option (List M)
  | 0, _, _ => none
  | fuel + 1, i, samples =>
    match q.bottom i with
    | none => none
    | some e => if e = oldest then some samples
        else pushSamples q oldest fuel (i + 1) (samples ++ [(q.items e).data])

/-- `get_samples`, after what is in `samples`. -/
def getSamples (s : State M) (samples : List M) (windowSize : ℤ) : Option (List M) :=
  if windowSize ≤ 0 then some samples
  else if s.q.count ≤ 1 then some samples
  else
    let oldest := match s.q.bottom windowSize.toNat with
      | none => s.q.top
      | some e => some e
    match oldest with
    | some oldest => pushSamples s.q oldest s.q.count 1 samples
    | none => none

variable [CommMonoid M]

/-- The entries whose intervals make up the last `k`, the latest one apart. -/
def behindLatest (entries : List (Entry M)) (k : ℕ) : List (Entry M) :=
  (entries.take (entries.length - 1)).drop (entries.length - k)

/-- What was added in the latest interval changes nothing: together with the rest of the last `k`
intervals it has the value of the rest. -/
def LatestAddsNothing (entries : List (Entry M)) (k : ℕ) : Prop :=
  (valuesOf (behindLatest entries k)).prod * (valuesOf (entries.drop (entries.length - 1))).prod
    = (valuesOf (behindLatest entries k)).prod

variable {o : Operators M} {s : State M} {tr : Trace M} {entries : List (Entry M)} {k : ℕ}

theorem prod_valuesOf (entries : List (Entry M)) :
    (entries.map fun e => e.values.prod).prod = (valuesOf entries).prod := by
  induction entries with
  | nil => rfl
  | cons e entries ih => rw [map_cons, prod_cons, ih, valuesOf_cons, prod_append]

theorem valuesOf_split (hk : 1 ≤ k) (hlt : k ≤ entries.length) :
    (valuesOf (entries.drop (entries.length - k))).prod
      = (valuesOf (behindLatest entries k)).prod
        * (valuesOf (entries.drop (entries.length - 1))).prod := by
  have hsplit : entries.drop (entries.length - k)
      = behindLatest entries k ++ entries.drop (entries.length - 1) := by
    have hle : entries.length - k ≤ (entries.take (entries.length - 1)).length := by
      rw [length_take]
      lia
    rw [behindLatest, ← drop_append_of_le_length hle, take_append_drop]
  rw [hsplit, valuesOf_append, prod_append]

/-- What the loop pushes from the `i`-th sample on: the samples between the oldest one and that one,
the later ones first. -/
theorem Inv.pushSamples (h : Inv o s tr) (hvoid : o.invOp = none) {oldest : ℕ} (hk : k < s.q.count)
    (holdest : s.q.bottom k = some oldest) (fuel : ℕ) {i : ℕ} (hi : i ≤ k) (hfuel : k < fuel + i)
    (samples : List M) :
    Sampler.pushSamples s.q oldest fuel i samples = some (samples ++
      (((tr.entries.take (tr.entries.length - i)).drop (tr.entries.length - k)).map fun e =>
        e.values.prod).reverse) := by
  have hle := h.count_le
  induction fuel generalizing i samples with
  | zero => exact absurd hfuel (by lia)
  | succ fuel ih =>
    obtain ⟨a, e, ha, he, hitem⟩ := h.bottom (hi.trans_lt hk)
    simp only [Sampler.pushSamples, ha]
    obtain rfl | hik := eq_or_ne i k
    · have hempty : (tr.entries.take (tr.entries.length - i)).drop (tr.entries.length - i) = [] := by
        apply drop_eq_nil_of_le
        exact length_take_le _ _
      rw [if_pos (Option.some.inj (ha.symm.trans holdest)), hempty, map_nil, reverse_nil, append_nil]
    · have hne : a ≠ oldest := by
        rintro rfl
        exact hik (h.wf.bottom_inj (hi.trans_lt hk) hk (ha.trans holdest.symm))
      have htake : tr.entries.take (tr.entries.length - i)
          = tr.entries.take (tr.entries.length - (i + 1)) ++ [e] := by
        rw [show tr.entries.length - i = tr.entries.length - 1 - i + 1 by lia, take_add_one, he,
          show tr.entries.length - 1 - i = tr.entries.length - (i + 1) by lia]
        rfl
      have hdata : (s.q.items a).data = e.values.prod := by
        rw [hitem, hvoid]
        rfl
      have hlater : tr.entries.length - k ≤ (tr.entries.take (tr.entries.length - (i + 1))).length := by
        rw [length_take]
        lia
      rw [if_neg hne, ih (by lia) (by lia), htake, drop_append_of_le_length hlater, map_append,
        reverse_append, hdata, append_assoc]
      rfl

theorem Inv.getSamples (h : Inv o s tr) (hvoid : o.invOp = none) (htwo : 2 ≤ s.q.count) {w : ℤ}
    (hw : 1 ≤ w)
    (hk : k = min w.toNat (s.q.count - 1)) :
    getSamples s [] w = some ((behindLatest tr.entries k).map fun e => e.values.prod).reverse := by
  have hpos : 1 ≤ k := by lia
  have hlt : k < s.q.count := by lia
  obtain ⟨a, e, ha, -, -⟩ := h.bottom hlt
  have hold := h.oldest (by lia) w.toNat
  rw [← hk, ha] at hold
  rw [Sampler.getSamples, if_neg (by lia), if_neg (by lia)]
  have hpush := h.pushSamples hvoid hlt ha s.q.count hpos (by lia) []
  cases hbottom : s.q.bottom w.toNat with
  | none =>
    rw [hbottom] at hold
    simp only [hold, hpush]
    rfl
  | some b =>
    rw [hbottom] at hold
    simp only [Option.some.inj hold, hpush]
    rfl

/-- **The samples of a window fold to its value just when its latest interval adds nothing**: in
every run of a sampler without an inverse operator, when two samples have been taken. -/
theorem run_samples_iff (o : Operators M) (hvoid : o.invOp = none) (items : ℕ → Sample M)
    (as : List (Act M))
    {s : State M} {tr : Trace M} (hrun : runFrom (watch o) (new items, ⟨[], []⟩) as = (s, tr))
    (htwo : 2 ≤ tr.entries.length) (w : ℤ) (hw : 1 ≤ w) :
    ∃ samples result, getSamples s [] w = some samples ∧ getValue o s w = some result ∧
      (samples.prod = result.data ↔ LatestAddsNothing tr.entries (min w.toNat (s.q.count - 1))) := by
  have hinv : Inv o s tr := by
    have hkeeps : Inv o (runFrom (watch o) (new items, ⟨[], []⟩) as).1
        (runFrom (watch o) (new items, ⟨[], []⟩) as).2 :=
      Keeps.run (I := fun p : State M × Trace M => Inv o p.1 p.2) (fun _ a h => step_inv h a)
        (new_inv o items) as
    rw [hrun] at hkeeps
    exact hkeeps
  have hcount := hinv.two_le htwo
  have hle := hinv.count_le
  obtain ⟨oldest, latest, -, -, hvalue⟩ := hinv.getValue hcount hw rfl
  refine ⟨_, _, hinv.getSamples hvoid hcount hw rfl, hvalue, ?_⟩
  rw [(reverse_perm _).prod_eq, prod_valuesOf, LatestAddsNothing, eq_comm]
  have hpos : 1 ≤ min w.toNat (s.q.count - 1) := by lia
  have hsplit := valuesOf_split hpos ((min_le_right _ _).trans (by lia) : _ ≤ tr.entries.length)
  constructor
  · intro heq
    exact hsplit.symm.trans heq
  · intro hnothing
    exact hsplit.trans hnothing

theorem run_samples_iff_two :
    ∃ samples result,
      getSamples (runFrom (watch (⟨none, nofun⟩ : Operators ℕ)) (new fun _ => ⟨0, 0⟩, ⟨[], []⟩)
        twoSamples).1 [] 3
        = some samples ∧
      getValue ⟨none, nofun⟩ (runFrom (watch ⟨none, nofun⟩) (new fun _ => ⟨0, 0⟩, ⟨[], []⟩)
        twoSamples).1 3
        = some result ∧
      (samples.prod = result.data ↔ LatestAddsNothing
        (runFrom (watch (⟨none, nofun⟩ : Operators ℕ)) (new fun _ => ⟨0, 0⟩, ⟨[], []⟩)
          twoSamples).2.entries
        (min 3
          ((runFrom (watch (⟨none, nofun⟩ : Operators ℕ)) (new fun _ => ⟨0, 0⟩, ⟨[], []⟩)
          twoSamples).1.q.count - 1))) :=
  run_samples_iff ⟨none, nofun⟩ rfl (fun _ => ⟨0, 0⟩) twoSamples rfl (by decide) 3 (by decide)

/-- Two samples, and values that are multiplied between them: none of it is in the samples of the
window. -/
theorem latest_not_delivered :
    getSamples (runFrom (watch (⟨none, nofun⟩ : Operators ℕ)) (new fun _ => ⟨0, 0⟩, ⟨[], []⟩)
      twoSamples).1 [] 3
        = some [] ∧
      (getValue ⟨none, nofun⟩ (runFrom (watch (⟨none, nofun⟩ : Operators ℕ))
        (new fun _ => ⟨0, 0⟩, ⟨[], []⟩)
        twoSamples).1 3).map Sample.data = some 10 ∧
      ([] : List ℕ).prod ≠ 10 := by
  refine ⟨by decide, by decide, by decide⟩

end Eabase.Var.Sampler
