import Mathlib.Algebra.BigOperators.Group.List.Basic
import Eabase.Lib.Machine
import Eabase.Utility.BoundedQueue

/-!
# ReducerSampler

The sampler of a reducer takes a sample every second and keeps the latest ones
in a `BoundedQueue` that grows when a larger window is asked for. With an inverse
operator a sample is the running total, and the value of a window is the latest
one without the oldest one. Without it the reducer is reset and the value of a
window is folded from the samples.

In both cases it is the value of what was added between the oldest sample that
is considered and the latest one, and the queue keeps as many samples as the
window had need of when they were taken.
-/

namespace Eabase.Var.Sampler

open Lib Utility List

variable {M : Type*} [CommMonoid M]

/-! ## The sampler -/

/-- The operators of a reducer: `Op` is the product, and there is an `InvOp` that takes the first
factor out of a product, or none (`VoidOp`). -/
structure Operators (M : Type*) [CommMonoid M] where
  invOp : Option (M → M → M)
  invOp_mul : ∀ inv ∈ invOp, ∀ x y, inv (x * y) x = y

/-- `Sample`. -/
structure Sample (M : Type*) where
  data : M
  timeUs : ℤ

/-- `ReducerSampler`, with what is in its reducer. -/
structure State (M : Type*) where
  reducer : M
  windowSize : ℕ
  q : BoundedQueue (Sample M)

/-- `MAX_SECONDS_LIMIT`. -/
def maxSecondsLimit : ℤ := 3600

/-- A new sampler, in front of the `take_sample` of its constructor. -/
def new (items : ℕ → Sample M) : State M := ⟨1, 1, .ofMemory items 0⟩

/-- `_q` made ready: larger when it cannot hold a window; `none` when `malloc` fails. -/
def ready (s : State M) (mem : Option (ℕ → Sample M)) : Option (BoundedQueue (Sample M)) :=
  if s.windowSize + 1 > s.q.cap then
    mem.map fun items =>
      BoundedQueue.moveAll s.q.count s.q (.ofMemory items (max (s.q.cap * 2) (s.windowSize + 1)))
  else some s.q

/-- `take_sample`; without an inverse operator the reducer is reset. -/
def takeSample (o : Operators M) (s : State M) (mem : Option (ℕ → Sample M)) (now : ℤ) : State M :=
  match ready s mem with
  | none => s
  | some q =>
    match o.invOp with
    | none => { s with reducer := 1, q := q.elimPush ⟨s.reducer, now⟩ }
    | some _ => { s with q := q.elimPush ⟨s.reducer, now⟩ }

/-- The loop of `get_value` without an inverse operator, from the `i`-th sample before the latest
one on; `none` when it runs out of the queue. -/
def sumUp (q : BoundedQueue (Sample M)) (oldest : ℕ) : ℕ → ℕ → M → Option M
  | 0, _, _ => none
  | fuel + 1, i, data =>
    match q.bottom i with
    | none => none
    | some e => if e = oldest then some data else sumUp q oldest fuel (i + 1) (data * (q.items e).data)

/-- `get_value`. -/
def getValue (o : Operators M) (s : State M) (windowSize : ℤ) : Option (Sample M) :=
  if windowSize ≤ 0 then none
  else if s.q.count ≤ 1 then none
  else
    let oldest := match s.q.bottom windowSize.toNat with
      | none => s.q.top
      | some e => some e
    match oldest, s.q.bottom 0 with
    | some oldest, some latest =>
      let timeUs := (s.q.items latest).timeUs - (s.q.items oldest).timeUs
      match o.invOp with
      | none => (sumUp s.q oldest s.q.count 1 (s.q.items latest).data).map fun data => ⟨data, timeUs⟩
      | some inv => some ⟨inv (s.q.items latest).data (s.q.items oldest).data, timeUs⟩
    | _, _ => none

/-- `set_window_size`. -/
def setWindowSize (s : State M) (windowSize : ℤ) : State M :=
  if windowSize ≤ 0 ∨ windowSize > maxSecondsLimit then s
  else if windowSize > s.windowSize then { s with windowSize := windowSize.toNat }
  else s

/-- One label of a run; `mem` is what `malloc` returns. -/
inductive Act (M : Type*) where
  | add (x : M)
  | takeSample (mem : Option (ℕ → Sample M)) (now : ℤ)
  | setWindowSize (windowSize : ℤ)

def step (o : Operators M) (s : State M) : Act M → State M
  | .add x => { s with reducer := s.reducer * x }
  | .takeSample mem now => takeSample o s mem now
  | .setWindowSize windowSize => setWindowSize s windowSize

/-! ## What holds -/

/-- A sample that was taken: what had been added since the one before, and the window in force. -/
structure Entry (M : Type*) where
  values : List M
  window : ℕ
  timeUs : ℤ

/-- The samples that were taken, and what was added since. -/
structure Trace (M : Type*) where
  entries : List (Entry M)
  pending : List M

/-- What happens, written down. -/
def record (s : State M) (tr : Trace M) : Act M → Trace M
  | .add x => { tr with pending := tr.pending ++ [x] }
  | .takeSample mem now =>
    if (ready s mem).isSome then ⟨tr.entries ++ [⟨tr.pending, s.windowSize, now⟩], []⟩ else tr
  | .setWindowSize _ => tr

def watch (o : Operators M) (p : State M × Trace M) (a : Act M) : State M × Trace M :=
  (step o p.1 a, record p.1 p.2 a)

def valuesOf (entries : List (Entry M)) : List M :=
  entries.flatMap Entry.values

/-- What `get_value` returns when it covers the last `k` intervals. -/
structure Covers (o : Operators M) (s : State M) (tr : Trace M) (windowSize : ℤ) (k : ℕ) : Prop where
  /-- The oldest sample is that of the window, or the earliest one that is retained. -/
  oldest : k = min windowSize.toNat (s.q.count - 1)
  pos : 1 ≤ k
  lt : k < tr.entries.length
  value : ∃ oldest latest, tr.entries[tr.entries.length - 1 - k]? = some oldest ∧
    tr.entries[tr.entries.length - 1]? = some latest ∧
    getValue o s windowSize
      = some ⟨(valuesOf (tr.entries.drop (tr.entries.length - k))).prod, latest.timeUs - oldest.timeUs⟩
  /-- The window is covered, or all that was taken, when it was in force since these samples were
  taken. -/
  enough :
    (∀ e ∈ tr.entries.drop (tr.entries.length - (min windowSize.toNat (tr.entries.length - 1) + 1)),
    windowSize.toNat ≤ e.window) → min windowSize.toNat (tr.entries.length - 1) ≤ k

/-! ## The samples -/

/-- The samples as they are in the queue, when `before` was added before the first one. -/
def samplesFrom (o : Operators M) (before : M) : List (Entry M) → List (Sample M)
  | [] => []
  | e :: entries =>
    ⟨if o.invOp.isSome then before * e.values.prod else e.values.prod, e.timeUs⟩ ::
      samplesFrom o (before * e.values.prod) entries

variable {o : Operators M} {s : State M} {tr : Trace M} {entries : List (Entry M)} {e : Entry M}
  {before : M} {i k : ℕ} {q : BoundedQueue (Sample M)} {w : ℤ}

section

omit [CommMonoid M]

@[simp] theorem valuesOf_nil : valuesOf ([] : List (Entry M)) = [] := rfl

@[simp] theorem valuesOf_cons : valuesOf (e :: entries) = e.values ++ valuesOf entries := rfl

@[simp] theorem valuesOf_append (entries entries' : List (Entry M)) :
    valuesOf (entries ++ entries') = valuesOf entries ++ valuesOf entries' :=
  flatMap_append

end

@[simp] theorem length_samplesFrom : (samplesFrom o before entries).length = entries.length := by
  induction entries generalizing before with
  | nil => rfl
  | cons e entries ih => rw [samplesFrom, length_cons, length_cons, ih]

theorem samplesFrom_concat : samplesFrom o before (entries ++ [e]) = samplesFrom o before entries ++
      [⟨if o.invOp.isSome then before * (valuesOf entries).prod * e.values.prod else e.values.prod,
        e.timeUs⟩] := by
  induction entries generalizing before with
  | nil =>
    rw [valuesOf_nil, prod_nil, mul_one]
    rfl
  | cons e' entries ih =>
    rw [cons_append, samplesFrom, ih, samplesFrom, valuesOf_cons, prod_append, mul_assoc before]
    rfl

theorem samplesFrom_getElem? (before : M) {j : ℕ} (h : entries[j]? = some e) :
    (samplesFrom o before entries)[j]? = some ⟨if o.invOp.isSome then
      before * (valuesOf (entries.take (j + 1))).prod else e.values.prod, e.timeUs⟩ := by
  induction entries generalizing before j with
  | nil => exact nomatch h
  | cons e' entries ih =>
    cases j with
    | zero =>
      obtain rfl : e' = e := Option.some.inj h
      simp [samplesFrom]
    | succ j =>
      have hrest := ih (before * e'.values.prod) (by simpa using h)
      rw [samplesFrom, getElem?_cons_succ, hrest, take_succ_cons, valuesOf_cons, prod_append, mul_assoc]

/-! ## The invariant -/

structure Inv (o : Operators M) (s : State M) (tr : Trace M) : Prop where
  wf : s.q.Wf
  window : 1 ≤ s.windowSize
  reducer : s.reducer = (if o.invOp.isSome then (valuesOf tr.entries).prod else 1) * tr.pending.prod
  count_le : s.q.count ≤ tr.entries.length
  /-- The queue has the latest samples. -/
  items : s.q.toList = (samplesFrom o 1 tr.entries).drop (tr.entries.length - s.q.count)
  /-- A sample was taken when the queue could hold the window. -/
  fits : ∀ e ∈ tr.entries, 1 ≤ e.window ∧ e.window + 1 ≤ s.q.cap
  /-- From a sample on the queue has all samples, or those of the window then in force. -/
  kept : ∀ j e, tr.entries[j]? = some e → min (tr.entries.length - j) (e.window + 1) ≤ s.q.count

open BoundedQueue

theorem new_inv (o : Operators M) (items : ℕ → Sample M) : Inv o (new items) ⟨[], []⟩ where
  wf := wf_ofMemory items 0
  window := le_rfl
  reducer := by
    show (1 : M) = (if o.invOp.isSome then (1 : M) else 1) * 1
    rw [ite_self, mul_one]
  count_le := le_rfl
  items := rfl
  fits := nofun
  kept _ _ := nofun

omit [CommMonoid M] in
/-- `_q` is ready when it has the same items and room for the window. -/
theorem ready_spec (h : s.q.Wf) {mem : Option (ℕ → Sample M)}
    (hready : ready s mem = some q) :
    q.Wf ∧ q.toList = s.q.toList ∧ s.windowSize + 1 ≤ q.cap ∧ s.q.cap ≤ q.cap := by
  rw [ready] at hready
  split at hready
  next hsmall =>
    obtain ⟨items, -, rfl⟩ := Option.map_eq_some_iff.1 hready
    have hcount := h.count_le
    have hroom : s.q.count ≤ max (s.q.cap * 2) (s.windowSize + 1) := by lia
    obtain ⟨hwf, hcap, hlist⟩ := moveAll_spec _ _ rfl h
      (wf_ofMemory items (max (s.q.cap * 2) (s.windowSize + 1))) ((zero_add _).trans_le hroom)
    have hcap' : (moveAll s.q.count s.q (.ofMemory items (max (s.q.cap * 2) (s.windowSize + 1)))).cap
        = max (s.q.cap * 2) (s.windowSize + 1) := hcap
    refine ⟨hwf, ?_, ?_, ?_⟩
    · rw [hlist, toList_ofMemory, nil_append]
    · rw [hcap']
      exact le_max_right _ _
    · rw [hcap']
      lia
  next hlarge =>
    obtain rfl := Option.some.inj hready
    exact ⟨h, rfl, not_lt.1 hlarge, le_rfl⟩

/-- A sample is taken: the queue has it, and the earliest one is dropped when there is no room. -/
theorem Inv.take (h : Inv o s tr) (hq : q.Wf) (hlist : q.toList = s.q.toList)
    (hwindow : s.windowSize + 1 ≤ q.cap) (hcap : s.q.cap ≤ q.cap) (now : ℤ) :
    Inv o { s with reducer := if o.invOp.isSome then s.reducer else 1, q := q.elimPush ⟨s.reducer, now⟩ }
      ⟨tr.entries ++ [⟨tr.pending, s.windowSize, now⟩], []⟩ := by
  have hcount : q.count = s.q.count := by rw [← length_toList, hlist, length_toList]
  have hpos : 0 < q.cap := Nat.zero_lt_of_lt hwindow
  obtain ⟨hwf, hcap', hitems⟩ := hq.elimPush ⟨s.reducer, now⟩ hpos
  set q' := q.elimPush ⟨s.reducer, now⟩
  have hlen : q'.count = if q.count < q.cap then q.count + 1 else q.count := by
    rw [← length_toList, hitems]
    split
    · rw [length_append, length_toList]
      rfl
    next hfull =>
      rw [length_append, length_tail, length_toList, length_singleton]
      lia
  have hle := h.count_le
  have hle' := hq.count_le
  have hnew : samplesFrom o 1 (tr.entries ++ [⟨tr.pending, s.windowSize, now⟩])
      = samplesFrom o 1 tr.entries ++ [⟨s.reducer, now⟩] := by
    rw [samplesFrom_concat, h.reducer, one_mul]
    cases o.invOp with
    | none => simp
    | some inv => simp
  constructor
  · exact hwf
  · exact h.window
  · rw [h.reducer]
    cases o.invOp with
    | none => simp
    | some inv => simp
  · rw [length_append, length_singleton]
    show q'.count ≤ _
    split at hlen <;> lia
  · rw [hitems, hnew, hlist, h.items, length_append, length_singleton]
    show _ = drop (tr.entries.length + 1 - q'.count) _
    rw [drop_append_of_le_length (by rw [length_samplesFrom]; split at hlen <;> lia), hlen]
    split
    · rw [Nat.add_sub_add_right, hcount]
    next hfull =>
      rw [tail_drop, hcount, Nat.sub_add_comm hle]
  · intro e he
    rw [hcap']
    rcases mem_append.1 he with he | he
    · exact ⟨(h.fits e he).1, (h.fits e he).2.trans hcap⟩
    · rw [mem_singleton.1 he]
      exact ⟨h.window, hwindow⟩
  · intro j e he
    show min ((tr.entries ++ [_]).length - j) (e.window + 1) ≤ q'.count
    rw [length_append, length_singleton]
    rcases lt_or_ge j tr.entries.length with hj | hj
    · rw [getElem?_append_left hj] at he
      have hkept := h.kept j e he
      have hfits := (h.fits e (mem_of_getElem? he)).2
      split at hlen <;> lia
    · split at hlen <;> lia

theorem takeSample_inv (h : Inv o s tr) (mem : Option (ℕ → Sample M)) (now : ℤ) :
    Inv o (takeSample o s mem now) (record s tr (.takeSample mem now)) := by
  simp only [record]
  unfold takeSample
  cases hready : ready s mem with
  | none => exact h
  | some q =>
    obtain ⟨hwf, hlist, hwindow, hcap⟩ := ready_spec h.wf hready
    have hinv := h.take hwf hlist hwindow hcap now
    rw [Option.isSome_some, if_pos rfl]
    cases hop : o.invOp with
    | none =>
      rw [hop, Option.isSome_none, if_neg Bool.false_ne_true] at hinv
      exact hinv
    | some inv =>
      rw [hop, Option.isSome_some, if_pos rfl] at hinv
      exact hinv

theorem step_inv (h : Inv o s tr) (a : Act M) : Inv o (step o s a) (record s tr a) := by
  cases a with
  | add x =>
    refine { h with reducer := ?_ }
    show s.reducer * x = _ * (tr.pending ++ [x]).prod
    rw [h.reducer, prod_append, prod_singleton, mul_assoc]
    rfl
  | takeSample mem now => exact takeSample_inv h mem now
  | setWindowSize windowSize =>
    simp only [step, setWindowSize]
    split
    · exact h
    split
    next hlarger =>
      have hwindow := h.window
      exact { h with window := by show 1 ≤ windowSize.toNat; lia }
    · exact h

/-! ## `get_value` -/

section

variable (h : Inv o s tr)
include h

theorem Inv.bottom (hi : i < s.q.count) :
    ∃ a e, s.q.bottom i = some a ∧ tr.entries[tr.entries.length - 1 - i]? = some e ∧
      s.q.items a = ⟨if o.invOp.isSome then (valuesOf (tr.entries.take (tr.entries.length - i))).prod
        else e.values.prod, e.timeUs⟩ := by
  have hle := h.count_le
  obtain ⟨a, ha, hitem⟩ := bottom_eq hi
  have hlt : tr.entries.length - 1 - i < tr.entries.length := by lia
  refine ⟨a, tr.entries[tr.entries.length - 1 - i], ha, getElem?_eq_getElem hlt, ?_⟩
  have hsample := samplesFrom_getElem? (o := o) 1 (getElem?_eq_getElem hlt)
  rw [h.items, getElem?_drop,
    show tr.entries.length - s.q.count + (s.q.count - 1 - i) = tr.entries.length - 1 - i by lia, hsample,
    one_mul, show tr.entries.length - 1 - i + 1 = tr.entries.length - i by lia] at hitem
  exact (Option.some.inj hitem).symm

/-- What is folded so far is what was added since the `i`-th sample before the latest one. -/
theorem Inv.sumUp (hvoid : o.invOp = none) {oldest : ℕ} (hk : k < s.q.count)
    (holdest : s.q.bottom k = some oldest) (fuel : ℕ) (hi : i ≤ k) (hfuel : k < fuel + i) :
    Sampler.sumUp s.q oldest fuel i (valuesOf (tr.entries.drop (tr.entries.length - i))).prod
      = some (valuesOf (tr.entries.drop (tr.entries.length - k))).prod := by
  induction fuel generalizing i with
  | zero => exact absurd hfuel (by lia)
  | succ fuel ih =>
    obtain ⟨a, e, ha, he, hitem⟩ := h.bottom (hi.trans_lt hk)
    simp only [Sampler.sumUp, ha]
    obtain rfl | hik := eq_or_ne i k
    · rw [if_pos (Option.some.inj (ha.symm.trans holdest))]
    · have hne : a ≠ oldest := by
        rintro rfl
        exact hik (h.wf.bottom_inj (hi.trans_lt hk) hk (ha.trans holdest.symm))
      have hle := h.count_le
      have hdrop : tr.entries.drop (tr.entries.length - (i + 1))
          = e :: tr.entries.drop (tr.entries.length - i) := by
        rw [show tr.entries.length - (i + 1) = tr.entries.length - 1 - i by lia,
          drop_eq_getElem?_toList_append, he, show tr.entries.length - 1 - i + 1 = tr.entries.length
            - i by lia]
        rfl
      have hdata : (valuesOf (tr.entries.drop (tr.entries.length - i))).prod * (s.q.items a).data
          = (valuesOf (tr.entries.drop (tr.entries.length - (i + 1)))).prod := by
        rw [hdrop, valuesOf_cons, prod_append, mul_comm, hitem, hvoid]
        rfl
      rw [if_neg hne, hdata]
      exact ih (by lia) (by lia)

/-- Two samples are retained when two were taken: a window has at least one interval. -/
theorem Inv.two_le (htwo : 2 ≤ tr.entries.length) : 2 ≤ s.q.count := by
  have hlt : tr.entries.length - 2 < tr.entries.length := by lia
  have hkept := h.kept (tr.entries.length - 2) _ (getElem?_eq_getElem hlt)
  have hfits := (h.fits _ (getElem_mem hlt)).1
  lia

theorem Inv.oldest (hpos : s.q.count ≠ 0) (w : ℕ) : (match s.q.bottom w with
      | none => s.q.top
      | some e => some e) = s.q.bottom (min w (s.q.count - 1)) := by
  by_cases hw : w < s.q.count
  · obtain ⟨a, ha, -⟩ := bottom_eq hw
    rw [min_eq_left (by lia), ha]
  · rw [min_eq_right (by lia), ← BoundedQueue.top_eq_bottom h.wf hpos, BoundedQueue.bottom, if_neg hw]

theorem Inv.getValue (htwo : 2 ≤ s.q.count) (hw : 1 ≤ w)
    (hk : k = min w.toNat (s.q.count - 1)) :
    ∃ oldest latest, tr.entries[tr.entries.length - 1 - k]? = some oldest ∧
      tr.entries[tr.entries.length - 1]? = some latest ∧
      getValue o s w
        = some ⟨(valuesOf (tr.entries.drop (tr.entries.length - k))).prod,
          latest.timeUs - oldest.timeUs⟩ := by
  have hle := h.count_le
  have hpos : 1 ≤ k := by lia
  have hlt : k < s.q.count := by lia
  obtain ⟨a, e, ha, he, hitem⟩ := h.bottom hlt
  obtain ⟨a0, e0, ha0, he0, hitem0⟩ := h.bottom (i := 0) (by lia)
  refine ⟨e, e0, he, he0, ?_⟩
  have hold := h.oldest (by lia) w.toNat
  rw [← hk, ha] at hold
  rw [Sampler.getValue, if_neg (by lia), if_neg (by lia)]
  simp only [hold, ha0]
  cases hop : o.invOp with
  | none =>
    have hlast : (s.q.items a0).data = (valuesOf (tr.entries.drop (tr.entries.length - 1))).prod := by
      have hdrop : tr.entries.drop (tr.entries.length - 1) = [e0] := by
        have hrest : tr.entries.length ≤ tr.entries.length - 1 + 1 := by lia
        rw [drop_eq_getElem?_toList_append, show tr.entries[tr.entries.length - 1]? = some e0 from he0,
          drop_eq_nil_of_le hrest]
        rfl
      rw [hitem0, hop, hdrop, valuesOf_cons, valuesOf_nil, append_nil]
      rfl
    have hsum := h.sumUp hop hlt ha s.q.count hpos (by lia)
    rw [hlast, hsum, Option.map_some, hitem, hitem0]
  | some inv =>
    have hsplit : (valuesOf (tr.entries.take (tr.entries.length - 0))).prod
        = (valuesOf (tr.entries.take (tr.entries.length - k))).prod *
          (valuesOf (tr.entries.drop (tr.entries.length - k))).prod := by
      rw [Nat.sub_zero, take_length, ← prod_append, ← valuesOf_append, take_append_drop]
    simp only [hitem, hitem0, hop, Option.isSome_some, if_true, hsplit,
      o.invOp_mul inv (by rw [hop]; rfl)]

theorem Inv.covers (htwo : 2 ≤ tr.entries.length) (hw : 1 ≤ w) :
    Covers o s tr w (min w.toNat (s.q.count - 1)) := by
  have hcount := h.two_le htwo
  have hle := h.count_le
  constructor
  · rfl
  · lia
  · lia
  · exact h.getValue hcount hw rfl
  · intro hforce
    set n := min w.toNat (tr.entries.length - 1)
    have hlt : tr.entries.length - (n + 1) < tr.entries.length := by lia
    have hmem : tr.entries[tr.entries.length - (n + 1)]
        ∈ tr.entries.drop (tr.entries.length - (n + 1)) := by
      rw [drop_eq_getElem_cons hlt]
      exact mem_cons_self
    have hwindow := hforce _ hmem
    have hkept := h.kept _ _ (getElem?_eq_getElem hlt)
    lia

end

/-- **The value of a window covers just the window**: in every run, when two samples have been
taken, `get_value` is the product of what was added between the oldest sample that it considers and
the latest one. -/
theorem run_covers (o : Operators M) (items : ℕ → Sample M) (as : List (Act M)) {s : State M}
    {tr : Trace M}
    (hrun : runFrom (watch o) (new items, ⟨[], []⟩) as = (s, tr)) (htwo : 2 ≤ tr.entries.length) (w : ℤ)
    (hw : 1 ≤ w) : ∃ k, Covers o s tr w k := by
  have hinv : Inv o (runFrom (watch o) (new items, ⟨[], []⟩) as).1
      (runFrom (watch o) (new items, ⟨[], []⟩) as).2 :=
    Keeps.run (I := fun p : State M × Trace M => Inv o p.1 p.2) (fun _ a h => step_inv h a)
      (new_inv o items) as
  rw [hrun] at hinv
  exact ⟨_, hinv.covers htwo hw⟩

/-- Two samples, and values that are multiplied between them. -/
def twoSamples : List (Act ℕ) :=
  [.takeSample (some fun _ => ⟨0, 0⟩) 0, .add 2, .setWindowSize 3, .add 5,
    .takeSample (some fun _ => ⟨0, 0⟩) 1000000]

/-- Sums, with the difference as `InvOp`. -/
def sums : Operators (Multiplicative ℤ) where
  invOp := some fun x y => x / y
  invOp_mul := by
    rintro _ ⟨⟩ x y
    exact mul_div_cancel_left x y

def twoTotals : List (Act (Multiplicative ℤ)) :=
  [.takeSample (some fun _ => ⟨1, 0⟩) 0, .add (.ofAdd 2), .setWindowSize 3, .add (.ofAdd 5),
    .takeSample (some fun _ => ⟨1, 0⟩) 1000000]

theorem run_covers_two :
    (∃ k, Covers (⟨none, nofun⟩ : Operators ℕ)
      (runFrom (watch ⟨none, nofun⟩) (new fun _ => ⟨0, 0⟩, ⟨[], []⟩) twoSamples).1
      (runFrom (watch ⟨none, nofun⟩) (new fun _ => ⟨0, 0⟩, ⟨[], []⟩) twoSamples).2 3 k) ∧
    ∃ k, Covers sums (runFrom (watch sums) (new fun _ => ⟨1, 0⟩, ⟨[], []⟩) twoTotals).1
      (runFrom (watch sums) (new fun _ => ⟨1, 0⟩, ⟨[], []⟩) twoTotals).2 3 k :=
  ⟨run_covers ⟨none, nofun⟩ (fun _ => ⟨0, 0⟩) twoSamples rfl (by decide) 3 (by decide),
    run_covers sums (fun _ => ⟨1, 0⟩) twoTotals rfl (by decide) 3 (by decide)⟩

end Eabase.Var.Sampler
