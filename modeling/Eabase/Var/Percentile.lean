import Mathlib.Algebra.BigOperators.Fin
import Mathlib.Algebra.Order.BigOperators.Group.Finset
import Mathlib.Data.Nat.Size
import Eabase.Lib.Machine
import Eabase.Lib.Shares

/-!
# Percentile

`detail::Percentile`: latencies are counted in 32 intervals, first in a thread's
own samples and, when an interval of these is full, in the combiner's. For that
`AddLatency` gives up the lock of the element, takes that of the combiner,
merges, gives that up and takes the first one again.

A step is a critical section of an element's lock or of the combiner's; the
walks of `reset` and `get_value` hold the combiner's and visit the elements one
by one. The threads do not exit: `commit_and_erase` is not an action here.

Between the two locks the samples that were merged are still in the element,
and a walk that comes by counts them again. An interval counts modulo `2 ^ 32`.
The rest is sound: that is what holds in runs in which neither happens.
-/

namespace Eabase.Var.Percentile

open Lib Function List
open Finset (mem_univ sum_congr sum_const_zero univ)

/-! ## Intervals and samples -/

/-- `PercentileInterval`. -/
structure Interval where
  numAdded : ℕ
  samples : List ℕ
  deriving DecidableEq

/-- The values of a `uint32_t`. -/
def two32 : ℕ := 2 ^ 32

/-- The values of a `size_t`. -/
def two64 : ℕ := 2 ^ 64

/-- `ThreadLocalPercentileSamples::SAMPLE_SIZE`. -/
def localSize : ℕ := 30

/-- `GlobalPercentileSamples::SAMPLE_SIZE`. -/
def globalSize : ℕ := 254

namespace Interval

/-- The constructor, and `clear`. -/
def empty : Interval := ⟨0, []⟩

def full (size : ℕ) (i : Interval) : Bool := i.samples.length = size

/-- `add32`; a full interval stays as it is. -/
def add32 (size : ℕ) (i : Interval) (x : ℕ) : Interval :=
  if i.samples.length ≥ size then i else ⟨(i.numAdded + 1) % two32, i.samples ++ [x]⟩

/-- `add64`. -/
def add64 (size : ℕ) (i : Interval) (x : ℤ) : Interval :=
  if x ≥ 0 then i.add32 size (x.toNat % two32) else i

/-- `round_of_expectation`; `draw` is what `fast_rand` returns. -/
def roundOfExpectation (draw a b : ℕ) : ℕ :=
  if b = 0 then 0 else a / b + if draw % b < a % b then 1 else 0

/-- Randomly drop samples of this: from the `i`-th on, `k` of them. -/
def dropSamples (draw : ℕ → ℕ) : ℕ → ℕ → List ℕ → List ℕ
  | 0, _, samples => samples
  | k + 1, i, samples => dropSamples draw k (i - 1) (samples.set (draw i % i) (samples.getD (i - 1) 0))

/-- Randomly pick `k` samples out of the first `n` ones of `tmp`. -/
def pickSamples (draw : ℕ → ℕ) : ℕ → ℕ → List ℕ → List ℕ
  | 0, _, _ => []
  | k + 1, n, tmp =>
    let index := draw n % n
    tmp.getD index 0 :: pickSamples draw k (n - 1) (tmp.set index (tmp.getD (n - 1) 0))

/-- `merge` into an interval of `GlobalPercentileSamples`. -/
def merge (draw : ℕ → ℕ) (i rhs : Interval) : Interval :=
  if rhs.numAdded = 0 then i
  else
    let total := (i.numAdded + rhs.numAdded) % two32
    if total ≤ globalSize then ⟨total, i.samples ++ rhs.samples⟩
    else
      let numRemain := roundOfExpectation (draw 0) (i.numAdded * globalSize) total
      let kept := dropSamples draw (i.samples.length - numRemain) i.samples.length i.samples
      ⟨total, kept.take numRemain ++
        pickSamples draw (globalSize - numRemain) rhs.samples.length rhs.samples⟩

end Interval

/-- `PercentileSamples`; an interval that was not created yet is `none`. -/
structure Samples where
  numAdded : ℕ
  intervals : Fin 32 → Option Interval
  deriving DecidableEq

namespace Samples

def new : Samples := ⟨0, fun _ => none⟩

/-- `get_interval_at`. -/
def intervalAt (s : Samples) (index : Fin 32) : Interval :=
  (s.intervals index).getD .empty

/-- The interval, and `_num_added` with it. -/
def setInterval (s : Samples) (index : Fin 32) (i : Interval) (numAdded : ℕ) : Samples :=
  ⟨numAdded % two64, update s.intervals index (some i)⟩

/-- An interval that is there and not empty. -/
def nonempty (i : Option Interval) : Option Interval :=
  i.filter (fun i => i.samples ≠ [])

def copy (rhs : Samples) : Samples :=
  ⟨rhs.numAdded, fun index => nonempty (rhs.intervals index)⟩

/-- `operator=`. -/
def assign (s rhs : Samples) : Samples :=
  ⟨rhs.numAdded, fun index =>
    match nonempty (rhs.intervals index) with
    | some i => some i
    | none => (s.intervals index).map (fun _ => .empty)⟩

/-- `merge` of thread-local samples. -/
def merge (draw : Fin 32 → ℕ → ℕ) (s rhs : Samples) : Samples :=
  ⟨(s.numAdded + rhs.numAdded) % two64, fun index =>
    match nonempty (rhs.intervals index) with
    | some i => some ((s.intervalAt index).merge (draw index) i)
    | none => s.intervals index⟩

/-- `added_count` of an interval. -/
def count (s : Samples) (index : Fin 32) : ℕ :=
  (s.intervalAt index).numAdded

def total (s : Samples) : ℕ :=
  ∑ index, s.count index

end Samples

/-- `log2`, which rounds up: `ones32` of the smeared `x` is its number of bits, and `y` is `-1` when
`x` is no power of two. -/
def log2 (x : ℕ) : ℕ :=
  if x &&& (x - 1) = 0 then x.size - 1 else x.size

/-- `get_interval_index`; the second component is what it leaves in `x`. -/
def getIntervalIndex (x : ℤ) : ℕ × ℤ :=
  if x ≤ 2 then (0, x) else if x > 2 ^ 32 - 1 then (31, 2 ^ 32 - 1) else (log2 x.toNat - 1, x)

theorem log2_le {x : ℕ} (hx : x < 2 ^ 32) : log2 x ≤ 32 := by
  have hsize : x.size ≤ 32 := Nat.size_le.2 hx
  unfold log2
  split
  · exact (Nat.sub_le _ _).trans hsize
  · exact hsize

theorem getIntervalIndex_lt (x : ℤ) : (getIntervalIndex x).1 < 32 := by
  unfold getIntervalIndex
  split
  · exact Nat.zero_lt_succ _
  split
  · exact Nat.lt_succ_self _
  · have hx : x.toNat < 2 ^ 32 := by lia
    have hlog := log2_le hx
    lia

/-- The interval that a latency goes to. -/
def indexOf (latency : ℤ) : Fin 32 :=
  ⟨(getIntervalIndex latency).1, getIntervalIndex_lt latency⟩

def stored (latency : ℤ) : ℤ :=
  (getIntervalIndex latency).2

/-! ## The machine -/

/-- Where a thread stands: in `operator<<` in front of the `Append` of its agent, of the lock of its
element, between that and the lock of the combiner, between that and the lock of the element; in
`get_value` or `reset` in front of the lock, at a node. -/
inductive Pc (ι : Type*) where
  | idle
  | append (latency : ℤ)
  | element (latency : ℤ)
  | merging (latency : ℤ)
  | clearing (latency : ℤ)
  | lock (reset : Bool) (start : ℕ)
  | walk (reset : Bool) (start : ℕ) (ret tmp : Samples) (nodes : List ι)

/-- What a `get_value` or a `reset` returned; how many latencies had been added when it began and
when it returned, and how many of them earlier resets had returned. -/
structure Result where
  reset : Bool
  start : ℕ
  stop : ℕ
  earlier : ℕ
  value : Samples

/-- The combiner with its agents and their elements. What is kept besides: how many latencies were
added that are not negative, what a reset under way has collected, and what was returned. -/
structure State (ι : Type*) where
  combinerLock : Option ι
  globalResult : Samples
  agents : List ι
  elements : ι → Samples
  pc : ι → Pc ι
  added : ℕ
  transit : ℕ
  results : List Result

/-- A new `Percentile`. -/
def start (ι : Type*) : State ι where
  combinerLock := none
  globalResult := .new
  agents := []
  elements _ := .new
  pc _ := .idle
  added := 0
  transit := 0
  results := []

/-- One label of a run; `draw` is what `fast_rand` returns, for each interval. -/
inductive Act (ι : Type*) where
  | add (t : ι) (latency : ℤ)
  | getValue (t : ι)
  | reset (t : ι)
  | go (t : ι) (draw : Fin 32 → ℕ → ℕ)

variable {ι : Type*} [DecidableEq ι]

section

variable (s : State ι) (t : ι)

def State.goto (p : Pc ι) : State ι :=
  { s with pc := update s.pc t p }

def State.setElement (e : Samples) : State ι :=
  { s with elements := update s.elements t e }

/-- `operator<<`, up to the `Append` of the agent or to the element. -/
def addStep (latency : ℤ) : State ι :=
  if t ∈ s.agents then if latency < 0 then s else s.goto t (.element latency)
  else (s.setElement t ((s.elements t).assign .new)).goto t (.append latency)

/-- `_agents.Append`; a negative latency is dropped. -/
def appendStep (latency : ℤ) : State ι :=
  if s.combinerLock = none then
    { s with agents := s.agents ++ [t] }.goto t (if latency < 0 then .idle else .element latency)
  else s

end

/-- The element with the latency in the interval `i`. -/
def Samples.addLatency (e : Samples) (latency : ℤ) (i : Interval) (numAdded : ℕ) : Samples :=
  e.setInterval (indexOf latency) (i.add64 localSize (stored latency)) (numAdded + 1)

section

variable (s : State ι)

/-- `AddLatency`, up to the lock of the combiner when the interval is full. -/
def elementStep (t : ι) (latency : ℤ) : State ι :=
  let e := s.elements t
  let interval := e.intervalAt (indexOf latency)
  if interval.full localSize then s.goto t (.merging latency)
  else { s.setElement t (e.addLatency latency interval e.numAdded) with added := s.added + 1 }.goto
    t .idle

/-- `AddLatency` with the lock of the combiner. -/
def mergingStep (t : ι) (latency : ℤ) (draw : Fin 32 → ℕ → ℕ) : State ι :=
  let g := s.globalResult
  let index := indexOf latency
  let interval := (s.elements t).intervalAt index
  if s.combinerLock = none then
    { s with
      globalResult :=
        g.setInterval index ((g.intervalAt index).merge (draw index) interval)
          (g.numAdded + interval.numAdded) }.goto t (.clearing latency)
  else s

/-- The rest of `AddLatency`, with the lock of the element again. -/
def clearingStep (t : ι) (latency : ℤ) : State ι :=
  let e := s.elements t
  let interval := e.intervalAt (indexOf latency)
  { s.setElement t (e.addLatency latency .empty (e.numAdded + two64 - interval.numAdded)) with
    added := s.added + 1 }.goto t .idle

/-- The lock of `combine_agents` or `reset_all_agents`, and the global result. -/
def lockStep (t : ι) (reset : Bool) (start : ℕ) : State ι :=
  if s.combinerLock = none then
    let s' :=
      if reset then
        { s with globalResult := s.globalResult.assign .new, transit := s.globalResult.copy.total }
      else s
    { s' with combinerLock := some t }.goto t (.walk reset start s.globalResult.copy .new s.agents)
  else s

def State.resets : ℕ :=
  ((s.results.filter Result.reset).map fun r => r.value.total).sum

/-- A node of `combine_agents` or `reset_all_agents`, or the end of the list. -/
def walkStep (t : ι) (reset : Bool) (start : ℕ) (ret tmp : Samples) (nodes : List ι)
    (draw : Fin 32 → ℕ → ℕ) : State ι :=
  match nodes with
  | [] =>
    { s with
      combinerLock := none
      transit := 0
      results := ⟨reset, start, s.added, s.resets, ret.copy⟩ :: s.results }.goto t .idle
  | node :: nodes =>
    let tmp' := tmp.assign (s.elements node)
    let ret' := ret.merge draw tmp'
    if reset then
      { s.setElement node ((s.elements node).assign .new) with transit := ret'.total }.goto t
        (.walk reset start ret' tmp' nodes)
    else s.goto t (.walk reset start ret' tmp' nodes)

/-- The next step of thread `t`. -/
def goStep (t : ι) (draw : Fin 32 → ℕ → ℕ) : State ι :=
  match s.pc t with
  | .idle => s
  | .append latency => appendStep s t latency
  | .element latency => elementStep s t latency
  | .merging latency => mergingStep s t latency draw
  | .clearing latency => clearingStep s t latency
  | .lock reset start => lockStep s t reset start
  | .walk reset start ret tmp nodes => walkStep s t reset start ret tmp nodes draw

def step : Act ι → State ι
  | .add t latency => if s.pc t matches .idle then addStep s t latency else s
  | .getValue t => if s.pc t matches .idle then s.goto t (.lock false s.added) else s
  | .reset t => if s.pc t matches .idle then s.goto t (.lock true s.added) else s
  | .go t draw => goStep s t draw

end

/-! ## What holds -/

/-- The samples that a thread has merged and not cleared yet. -/
def State.pending (s : State ι) (t : ι) : ℕ :=
  match s.pc t with
  | .clearing latency => (s.elements t).count (indexOf latency)
  | _ => 0

/-- The added counts that a `get_value` would find. -/
def State.valueCount (s : State ι) : ℕ :=
  s.globalResult.total + shares s.agents (fun t => (s.elements t).total)

structure CountsOnce (s : State ι) : Prop where
  /-- What the resets returned, with what a reset under way has collected and with the value that is
  there, is the number of latencies added, but for those that were merged and not cleared yet. -/
  conserve : s.resets + s.transit + s.valueCount = s.added + shares s.agents s.pending
  settled : s.combinerLock = none → s.transit = 0
  /-- What is returned is, with what earlier resets returned, all that had been added when the call
  began, and no more than had been added when it returned. -/
  covers : ∀ r ∈ s.results, r.start ≤ r.earlier + r.value.total ∧ r.earlier + r.value.total ≤ r.stop
  /-- The total of what is returned is the sum over its intervals. -/
  numAdded : ∀ r ∈ s.results, r.value.numAdded = r.value.total

/-- No walk comes to an element between the two locks of its owner's `AddLatency`, and no interval
counts to `2 ^ 32`. -/
def Heeds (s : State ι) : Act ι → Prop
  | .go t _ =>
    match s.pc t with
    | .merging latency =>
      s.globalResult.count (indexOf latency) + (s.elements t).count (indexOf latency) < two32
    | .walk _ _ ret _ (node :: _) =>
      s.pending node = 0 ∧ ∀ index, ret.count index + (s.elements node).count index < two32
    | _ => True
  | _ => True

/-! ## Intervals -/

namespace Interval

theorem round_le {draw a b m : ℕ} (h : a ≤ m * b) : roundOfExpectation draw a b ≤ m := by
  unfold roundOfExpectation
  split
  · exact Nat.zero_le _
  split
  next hb hcoin =>
    have hmod : 0 < a % b := Nat.zero_lt_of_lt hcoin
    have hdiv := Nat.div_add_mod a b
    by_contra hlt
    have hmul : m * b ≤ b * (a / b) := by
      rw [mul_comm m b]
      exact Nat.mul_le_mul_left b (by lia)
    lia
  · exact Nat.div_le_of_le_mul (by rwa [mul_comm])

theorem length_dropSamples (draw : ℕ → ℕ) (k i : ℕ) (samples : List ℕ) :
    (dropSamples draw k i samples).length = samples.length := by
  induction k generalizing i samples with
  | zero => rfl
  | succ k ih => rw [dropSamples, ih, length_set]

theorem length_pickSamples (draw : ℕ → ℕ) (k n : ℕ) (tmp : List ℕ) :
    (pickSamples draw k n tmp).length = k := by
  induction k generalizing n tmp with
  | zero => rfl
  | succ k ih => rw [pickSamples, length_cons, ih]

/-- The interval has as many samples as were added, as long as there is room. -/
structure Wf (size : ℕ) (i : Interval) : Prop where
  length : i.samples.length = min i.numAdded size
  lt : i.numAdded < two32

/-- An interval of a thread, which is merged before it gets too many samples. -/
structure Local (i : Interval) : Prop where
  length : i.samples.length = i.numAdded
  le : i.numAdded ≤ localSize

variable {i rhs : Interval} {size : ℕ}

theorem wf_empty : Wf size empty := ⟨(Nat.zero_min size).symm, Nat.two_pow_pos 32⟩

theorem local_empty : Local empty := ⟨rfl, Nat.zero_le _⟩

theorem Wf.samples_eq_nil (h : Wf size i) (hs : 0 < size) : i.samples = [] ↔ i.numAdded = 0 := by
  rw [← length_eq_zero_iff, h.length]
  lia

theorem Local.wf (h : Local i) : Wf localSize i where
  length := h.length.trans (Nat.min_eq_left h.le).symm
  lt := lt_of_le_of_lt h.le (by decide)

/-- `merge` adds the counts, and keeps as many samples as it has room for. -/
theorem Wf.merge (h : Wf globalSize i) (hr : Local rhs) (draw : ℕ → ℕ)
    (hlt : i.numAdded + rhs.numAdded < two32) :
    Wf globalSize (i.merge draw rhs) ∧ (i.merge draw rhs).numAdded = i.numAdded + rhs.numAdded := by
  unfold Interval.merge
  split
  next hzero =>
    rw [hzero]
    exact ⟨h, rfl⟩
  rename_i hzero
  simp only [Nat.mod_eq_of_lt hlt]
  split
  next hle =>
    refine ⟨⟨?_, hlt⟩, rfl⟩
    have hlen := h.length
    have hlen' := hr.length
    simp only [length_append]
    lia
  next hle =>
    refine ⟨⟨?_, hlt⟩, rfl⟩
    set total := i.numAdded + rhs.numAdded
    set numRemain := roundOfExpectation (draw 0) (i.numAdded * globalSize) total
    have hadded : numRemain ≤ i.numAdded := round_le (Nat.mul_le_mul_left _ (by lia))
    have hsize : numRemain ≤ globalSize := by
      apply round_le
      rw [mul_comm]
      exact Nat.mul_le_mul_left _ (by lia)
    have hlen := h.length
    simp only [length_append, length_take, length_dropSamples, length_pickSamples]
    lia

theorem Local.add64 (h : Local i) {x : ℤ} (hx : 0 ≤ x) (hfull : i.full localSize = false) :
    Local (i.add64 localSize x) ∧ (i.add64 localSize x).numAdded = i.numAdded + 1 := by
  have hne : i.samples.length ≠ localSize := by simpa [Interval.full] using hfull
  have hlen := h.length
  have hle := h.le
  have hlt : i.numAdded + 1 < two32 := lt_of_le_of_lt (Nat.add_le_add_right hle 1) (by decide)
  have hadd : i.add64 localSize x = ⟨i.numAdded + 1, i.samples ++ [x.toNat % two32]⟩ := by
    rw [Interval.add64, if_pos hx, Interval.add32, if_neg (by lia), Nat.mod_eq_of_lt hlt]
  rw [hadd]
  refine ⟨⟨?_, ?_⟩, rfl⟩
  · rw [length_append, hlen]
    rfl
  · show i.numAdded + 1 ≤ localSize
    lia

end Interval

open Samples

/-! ## Samples -/

namespace Samples

/-- The samples, as the intervals are and with the right total. -/
structure Wf (P : Interval → Prop) (s : Samples) : Prop where
  interval : ∀ index, P (s.intervalAt index)
  numAdded : s.numAdded = s.total

variable {s rhs : Samples} {P : Interval → Prop} {index : Fin 32} {i : Interval}

theorem wf_new (hP : P .empty) : Wf P new where
  interval _ := hP
  numAdded := sum_const_zero.symm

theorem count_le_total (s : Samples) (index : Fin 32) : s.count index ≤ s.total :=
  Finset.single_le_sum (f := s.count) (fun _ _ => Nat.zero_le _) (mem_univ index)

/-- What `P` says of an interval tells that it is empty when it has no samples. -/
structure Kind (P : Interval → Prop) : Prop where
  empty : P .empty
  nil : ∀ i, P i → i.samples = [] → i.numAdded = 0

theorem kind_global : Kind (Interval.Wf globalSize) where
  empty := Interval.wf_empty
  nil _ h hs := (h.samples_eq_nil (by decide)).mp hs

theorem kind_local : Kind Interval.Local where
  empty := Interval.local_empty
  nil i h hs := by rw [← h.length, hs]; rfl

theorem Kind.nonempty (hk : Kind P) {o : Option Interval} (h : P (o.getD .empty)) :
    P ((nonempty o).getD .empty) ∧ ((nonempty o).getD .empty).numAdded = (o.getD .empty).numAdded := by
  cases o with
  | none => exact ⟨h, rfl⟩
  | some i =>
    rw [Samples.nonempty, Option.filter_some]
    split
    · exact ⟨h, rfl⟩
    next hs =>
      refine ⟨hk.empty, ?_⟩
      exact (hk.nil i h (by simpa using hs)).symm

theorem total_congr (h : ∀ index, s.count index = rhs.count index) : s.total = rhs.total :=
  sum_congr rfl fun index _ => h index

theorem copy_count (hk : Kind P) (h : Wf P s) (index : Fin 32) : s.copy.count index = s.count index :=
  (hk.nonempty (h.interval index)).2

theorem copy_wf (hk : Kind P) (h : Wf P s) : Wf P s.copy ∧ s.copy.total = s.total := by
  have htotal := total_congr (copy_count hk h)
  exact ⟨⟨fun index => (hk.nonempty (h.interval index)).1, h.numAdded.trans htotal.symm⟩, htotal⟩

theorem assign_interval (s rhs : Samples) (index : Fin 32) :
    (s.assign rhs).intervalAt index = (nonempty (rhs.intervals index)).getD .empty := by
  simp only [intervalAt, assign]
  cases nonempty (rhs.intervals index) with
  | some i => rfl
  | none => cases s.intervals index <;> rfl

theorem assign_count (hk : Kind P) (h : Wf P rhs) (s : Samples) (index : Fin 32) :
    (s.assign rhs).count index = rhs.count index := by
  rw [count, assign_interval]
  exact (hk.nonempty (h.interval index)).2

theorem assign_wf (hk : Kind P) (h : Wf P rhs) (s : Samples) :
    Wf P (s.assign rhs) ∧ (s.assign rhs).total = rhs.total := by
  have htotal := total_congr (assign_count hk h s)
  refine ⟨⟨fun index => ?_, h.numAdded.trans htotal.symm⟩, htotal⟩
  rw [assign_interval]
  exact (hk.nonempty (h.interval index)).1

theorem setInterval_total (s : Samples) (index : Fin 32) (i : Interval) (n : ℕ) :
    (s.setInterval index i n).total + s.count index = s.total + i.numAdded := by
  have hcount : ∀ j, j ≠ index → (s.setInterval index i n).count j = s.count j := by
    intro j hj
    simp only [count, intervalAt, setInterval, update_of_ne hj]
  have hself : (s.setInterval index i n).count index = i.numAdded := by
    simp only [count, intervalAt, setInterval, update_self, Option.getD_some]
  have hrest : ∑ j ∈ univ.erase index, (s.setInterval index i n).count j
      = ∑ j ∈ univ.erase index, s.count j :=
    sum_congr rfl fun j hj => hcount j (Finset.ne_of_mem_erase hj)
  have h1 := Finset.add_sum_erase univ (s.setInterval index i n).count (mem_univ index)
  have h2 := Finset.add_sum_erase univ s.count (mem_univ index)
  rw [hself] at h1
  rw [total, total]
  lia

theorem setInterval_interval (s : Samples) (index : Fin 32) (i : Interval) (n : ℕ) (j : Fin 32) :
    (s.setInterval index i n).intervalAt j = if j = index then i else s.intervalAt j := by
  obtain rfl | hj := eq_or_ne j index
  · simp only [intervalAt, setInterval, update_self, if_true, Option.getD_some]
  · simp only [intervalAt, setInterval, update_of_ne hj, if_neg hj]

theorem total_lt (h : ∀ index, s.count index < two32) : s.total < two64 := by
  have hsum : s.total ≤ ∑ _index : Fin 32, two32 := Finset.sum_le_sum fun index _ => (h index).le
  rw [Finset.sum_const, Finset.card_univ, Fintype.card_fin] at hsum
  exact lt_of_le_of_lt hsum (by decide)

theorem setInterval_wf (h : Wf P s) (hi : P i) (hlt : ∀ i, P i → i.numAdded < two32) {n : ℕ}
    (hn : ∃ k, n + s.count index = s.total + i.numAdded + two64 * k) :
    Wf P (s.setInterval index i n) := by
  have hP : ∀ j, P ((s.setInterval index i n).intervalAt j) := by
    intro j
    rw [setInterval_interval]
    split
    · exact hi
    · exact h.interval j
  refine ⟨hP, ?_⟩
  have htotal := setInterval_total s index i n
  have hbound := total_lt fun j => hlt _ (hP j)
  obtain ⟨k, hk⟩ := hn
  have hn : n = (s.setInterval index i n).total + two64 * k := by lia
  calc n % two64 = ((s.setInterval index i n).total + two64 * k) % two64 := congrArg (· % two64) hn
    _ = (s.setInterval index i n).total := by rw [Nat.add_mul_mod_self_left, Nat.mod_eq_of_lt hbound]

section

variable (hs : Wf (Interval.Wf globalSize) s) (hr : Wf Interval.Local rhs)
    (hlt : ∀ index, s.count index + rhs.count index < two32) (draw : Fin 32 → ℕ → ℕ)
include hs hr hlt draw

theorem merge_count (index : Fin 32) :
    ((s.merge draw rhs).intervalAt index).Wf globalSize ∧
      (s.merge draw rhs).count index = s.count index + rhs.count index := by
  have hne := kind_local.nonempty (hr.interval index)
  simp only [count, intervalAt, merge]
  cases ho : nonempty (rhs.intervals index) with
  | some i =>
    rw [ho] at hne
    have hi : i.numAdded = rhs.count index := hne.2
    have hm := Interval.Wf.merge (hs.interval index) hne.1 (draw index) (by
      show s.count index + i.numAdded < two32
      rw [hi]
      exact hlt index)
    rw [← intervalAt, ← intervalAt]
    exact ⟨hm.1, hm.2.trans (congrArg _ hi)⟩
  | none =>
    rw [ho] at hne
    have hzero : ((rhs.intervals index).getD .empty).numAdded = 0 := hne.2.symm
    rw [hzero]
    exact ⟨hs.interval index, rfl⟩

theorem merge_wf :
    Wf (Interval.Wf globalSize) (s.merge draw rhs) ∧ (s.merge draw rhs).total = s.total + rhs.total := by
  have htotal : (s.merge draw rhs).total = s.total + rhs.total := by
    rw [total, total, total, ← Finset.sum_add_distrib]
    exact sum_congr rfl fun index _ => (merge_count hs hr hlt draw index).2
  refine ⟨⟨fun index => (merge_count hs hr hlt draw index).1, ?_⟩, htotal⟩
  have hbound : (s.merge draw rhs).total < two64 := total_lt fun index =>
    (merge_count hs hr hlt draw index).1.lt
  show (s.numAdded + rhs.numAdded) % two64 = _
  rw [hs.numAdded, hr.numAdded, ← htotal, Nat.mod_eq_of_lt hbound]

end

end Samples

/-! ## The invariant -/

/-- What counts in the element of a thread: not what was merged and is to be cleared. -/
def State.net (s : State ι) (t : ι) : ℕ :=
  (s.elements t).total - s.pending t

structure Walked (s : State ι) (reset : Bool) (start : ℕ) (ret : Samples) (nodes : List ι) : Prop where
  wf : ret.Wf (Interval.Wf globalSize)
  all : start ≤ s.resets + (ret.total + shares nodes s.net)
  transit : s.transit = if reset then ret.total else 0
  part : ∃ visited, s.agents = visited ++ nodes ∧
    (reset = false → ret.total ≤ s.globalResult.total + shares visited s.net)

/-- What thread `t` knows where it stands. -/
def Pc.Ok (s : State ι) (t : ι) : Pc ι → Prop
  | .append _ => t ∉ s.agents ∧ (s.elements t).total = 0
  | .element latency | .merging latency | .clearing latency => t ∈ s.agents ∧ 0 ≤ latency
  | .lock _ start => start ≤ s.added
  | .walk reset start ret _ nodes => s.combinerLock = some t ∧ Walked s reset start ret nodes
  | .idle => True

structure Inv (s : State ι) : Prop where
  phase : ∀ t, (s.pc t).Ok s t
  nodup : s.agents.Nodup
  global : s.globalResult.Wf (Interval.Wf globalSize)
  element : ∀ t, (s.elements t).Wf Interval.Local
  conserve : s.resets + s.transit + s.globalResult.total + shares s.agents s.net = s.added
  settled : s.combinerLock = none → s.transit = 0
  covers : ∀ r ∈ s.results, r.start ≤ r.earlier + r.value.total ∧ r.earlier + r.value.total ≤ r.stop
  numAdded : ∀ r ∈ s.results, r.value.numAdded = r.value.total

open State

omit [DecidableEq ι] in
theorem start_inv : Inv (start ι) where
  phase _ := trivial
  nodup := nodup_nil
  global := wf_new Interval.wf_empty
  element _ := wf_new Interval.local_empty
  conserve := by
    have htotal : new.total = 0 := sum_const_zero
    simp [start, resets, htotal]
  settled _ := rfl
  covers _ := nofun
  numAdded _ := nofun

variable {s s' : State ι} {t : ι} {p : Pc ι} {reset : Bool} {ret : Samples} {nodes : List ι}
  {tmp : Samples} {u : ι}

section

omit [DecidableEq ι]

theorem pending_le (s : State ι) (t : ι) : s.pending t ≤ (s.elements t).total := by
  unfold pending
  split
  · exact count_le_total ..
  · exact Nat.zero_le _

theorem pending_zero (hpc : ∀ latency, s.pc t ≠ .clearing latency) : s.pending t = 0 := by
  unfold pending
  split
  · exact absurd ‹_› (hpc _)
  · rfl

theorem total_eq (s : State ι) (t : ι) : (s.elements t).total = s.net t + s.pending t :=
  (Nat.sub_add_cancel (pending_le s t)).symm

theorem Inv.countsOnce (h : Inv s) : CountsOnce s where
  conserve := by
    have hsplit : shares s.agents (fun t => (s.elements t).total)
        = shares s.agents s.net + shares s.agents s.pending := by
      rw [← shares_add]
      exact shares_congr fun t _ => total_eq s t
    have hconserve := h.conserve
    rw [valueCount, hsplit]
    lia
  settled := h.settled
  covers := h.covers
  numAdded := h.numAdded

end

/-! ## The steps -/

section

omit [DecidableEq ι]

/-- The count of a thread changes only when its element does, or when it comes to or leaves the
place between the locks. -/
theorem net_congr (helem : s'.elements u = s.elements u) (hpc : s'.pc u = s.pc u) :
    s'.net u = s.net u := by
  simp only [net, pending, helem, hpc]

theorem Walked.mono {start : ℕ}
    (h : Walked s reset start ret nodes) (s' : State ι) (hagents : s'.agents = s.agents)
    (hresets : s'.resets = s.resets)
    (htransit : s'.transit = s.transit) (hglobal : s'.globalResult = s.globalResult)
    (hnet : ∀ u ∈ s.agents, s.net u ≤ s'.net u) : Walked s' reset start ret nodes := by
  obtain ⟨visited, hvisited, hpart⟩ := h.part
  have hnodes : shares nodes s.net ≤ shares nodes s'.net := by
    apply shares_le
    intro u hu
    apply hnet
    rw [hvisited]
    exact mem_append_right _ hu
  have hvis : shares visited s.net ≤ shares visited s'.net := by
    apply shares_le
    intro u hu
    apply hnet
    rw [hvisited]
    exact mem_append_left _ hu
  refine ⟨h.wf, ?_, htransit.trans h.transit, visited, hagents.trans hvisited, fun hr => ?_⟩
  · rw [hresets]
    exact h.all.trans (Nat.add_le_add_left (Nat.add_le_add_left hnodes _) _)
  · rw [hglobal]
    exact (hpart hr).trans (Nat.add_le_add_left hvis _)

theorem Pc.Ok.stay (h : p.Ok s u) (hmem : u ∈ s'.agents ↔ u ∈ s.agents)
    (helem : u ∉ s.agents → s'.elements u = s.elements u) (hadded : s.added ≤ s'.added)
    (hwalk : s.combinerLock = some u → ∀ reset start ret nodes, Walked s reset start ret nodes →
      s'.combinerLock = some u ∧ Walked s' reset start ret nodes) : p.Ok s' u := by
  cases p with
  | idle => trivial
  | append latency =>
    obtain ⟨hout, hzero⟩ := h
    refine ⟨fun hu => hout (hmem.1 hu), ?_⟩
    rw [helem hout]
    exact hzero
  | element latency => exact ⟨hmem.2 h.1, h.2⟩
  | merging latency => exact ⟨hmem.2 h.1, h.2⟩
  | clearing latency => exact ⟨hmem.2 h.1, h.2⟩
  | lock reset start => exact le_trans h hadded
  | walk reset start ret tmp nodes => exact hwalk h.1 _ _ _ _ h.2

end

theorem phases (hpc : s'.pc = update s.pc t p) (hp : p.Ok s' t)
    (hother : ∀ u, u ≠ t → (s.pc u).Ok s' u) : ∀ u, (s'.pc u).Ok s' u := by
  rw [hpc]
  exact (forall_update_iff s.pc (fun u q => q.Ok s' u)).2 ⟨hp, hother⟩

theorem Inv.goto (h : Inv s) (hpc : ∀ latency, s.pc t ≠ .clearing latency)
    (hp : ∀ latency, p ≠ .clearing latency)
    (hok : p.Ok s t) : Inv (s.goto t p) := by
  have hnet : (s.goto t p).net = s.net := by
    ext1 u
    obtain rfl | hut := eq_or_ne u t
    · have hzero : s.pending u = 0 := pending_zero hpc
      have hzero' : (s.goto u p).pending u = 0 := by
        apply pending_zero
        intro latency hl
        have hpc' : (s.goto u p).pc u = p := update_self ..
        exact hp latency (hpc'.symm.trans hl)
      rw [net, net, hzero, hzero']
      rfl
    · exact net_congr rfl (update_of_ne hut ..)
  have hwalk : ∀ {reset start ret nodes}, Walked s reset start ret nodes →
      Walked (s.goto t p) reset start ret nodes := fun hw => by
    apply hw.mono (s.goto t p) rfl rfl rfl rfl
    intro u _
    rw [hnet]
  refine { h with phase := phases rfl ?_ ?_, conserve := by rw [hnet]; exact h.conserve }
  · exact hok.stay Iff.rfl (fun _ => rfl) le_rfl (fun hl _ _ _ _ hw => ⟨hl, hwalk hw⟩)
  · intro u _
    exact (h.phase u).stay Iff.rfl (fun _ => rfl) le_rfl (fun hl _ _ _ _ hw => ⟨hl, hwalk hw⟩)

/-! ### `operator<<` -/

theorem Inv.adopt (h : Inv s) (hpc : s.pc t = .idle) (hout : t ∉ s.agents) (latency : ℤ) :
    Inv ((s.setElement t ((s.elements t).assign .new)).goto t (.append latency)) := by
  set s' := (s.setElement t ((s.elements t).assign .new)).goto t (.append latency)
  have hne : ∀ u, u ≠ t → s'.elements u = s.elements u := fun u hu => update_of_ne hu ..
  have hself : s'.elements t = (s.elements t).assign .new := update_self ..
  have hassign := assign_wf kind_local (wf_new Interval.local_empty) (s.elements t)
  have hnet : ∀ u ∈ s.agents, s'.net u = s.net u := by
    intro u hu
    have hut : u ≠ t := by
      rintro rfl
      exact hout hu
    exact net_congr (hne u hut) (update_of_ne hut ..)
  refine { h with phase := phases (p := .append latency) rfl ?_ ?_, element := ?_, conserve := ?_ }
  · refine ⟨hout, ?_⟩
    rw [hself, hassign.2]
    exact sum_const_zero
  · intro u hu
    refine (h.phase u).stay Iff.rfl (fun _ => hne u hu) le_rfl (fun hl _ _ _ _ hw => ⟨hl, ?_⟩)
    exact hw.mono s' rfl rfl rfl rfl fun v hv => (hnet v hv).ge
  · intro u
    obtain rfl | hut := eq_or_ne u t
    · rw [hself]
      exact hassign.1
    · rw [hne u hut]
      exact h.element u
  · rw [show shares s'.agents s'.net = shares s.agents s.net from shares_congr hnet]
    exact h.conserve

theorem addStep_inv (h : Inv s) (hpc : s.pc t = .idle) (latency : ℤ) : Inv (addStep s t latency) := by
  unfold addStep
  split
  next hmem =>
    split
    · exact h
    next hneg =>
      exact h.goto (by rw [hpc]; nofun) nofun ⟨hmem, not_lt.1 hneg⟩
  next hout =>
    exact h.adopt hpc hout latency

theorem appendStep_inv (h : Inv s) {latency : ℤ} (hpc : s.pc t = .append latency) :
    Inv (appendStep s t latency) := by
  obtain ⟨hout, hzero⟩ : (Pc.append latency).Ok s t := hpc ▸ h.phase t
  unfold appendStep
  split
  case isFalse => exact h
  rename_i hlock
  set p : Pc ι := if latency < 0 then .idle else .element latency with hp
  set s' := { s with agents := s.agents ++ [t] }.goto t p
  have hpend : s'.pending t = 0 := by
    apply pending_zero
    intro l hl
    have hpc' : s'.pc t = p := update_self ..
    rw [hpc', hp] at hl
    split at hl <;> exact nomatch hl
  have hnet : s'.net = s.net := by
    ext1 u
    obtain rfl | hut := eq_or_ne u t
    · have hpend' : s.pending u = 0 := pending_zero (by rw [hpc]; nofun)
      rw [net, net, hpend, hpend']
      rfl
    · exact net_congr rfl (update_of_ne hut ..)
  have hshare : s.net t = 0 := by
    have heq := total_eq s t
    lia
  refine { h with phase := phases rfl ?_ ?_, nodup := ?_, conserve := ?_ }
  · rw [hp]
    split
    · trivial
    next hneg =>
      exact ⟨mem_append_right _ mem_cons_self, not_lt.1 hneg⟩
  · intro u hu
    refine (h.phase u).stay ?_ (fun _ => rfl) le_rfl (fun hl => nomatch hlock.symm.trans hl)
    show u ∈ s.agents ++ [t] ↔ u ∈ s.agents
    rw [mem_append, mem_singleton]
    exact or_iff_left hu
  · refine nodup_append'.2 ⟨h.nodup, nodup_singleton t, ?_⟩
    rintro u hu hut
    rw [mem_singleton.1 hut] at hu
    exact hout hu
  · have hconserve := h.conserve
    show s.resets + s.transit + s.globalResult.total + shares (s.agents ++ [t]) s'.net = s.added
    rw [hnet, shares_append, shares_cons, shares_nil, hshare]
    exact hconserve

theorem Inv.took (h : Inv s) (hmem : t ∈ s.agents) {e : Samples} (he : e.Wf Interval.Local)
    (htotal : e.total = s.net t + 1) :
    Inv ({ s.setElement t e with added := s.added + 1 }.goto t .idle) := by
  set s' := { s.setElement t e with added := s.added + 1 }.goto t .idle
  have hne : ∀ u, u ≠ t → s'.elements u = s.elements u := fun u hu => update_of_ne hu ..
  have hself : s'.elements t = e := update_self ..
  have hpend : s'.pending t = 0 := by
    apply pending_zero
    intro l hl
    have hpc' : s'.pc t = .idle := update_self ..
    exact nomatch hpc'.symm.trans hl
  have hnet : s'.net t = s.net t + 1 := by
    rw [net, hself, hpend, htotal]
    rfl
  have hothers : ∀ u, u ≠ t → s'.net u = s.net u := fun u hu =>
    net_congr (hne u hu) (update_of_ne hu ..)
  have hgrow : ∀ u ∈ s.agents, s.net u ≤ s'.net u := by
    intro u _
    obtain rfl | hut := eq_or_ne u t
    · rw [hnet]
      exact Nat.le_succ _
    · exact (hothers u hut).ge
  refine { h with phase := phases (p := .idle) rfl trivial ?_, element := ?_, conserve := ?_ }
  · intro u hu
    exact (h.phase u).stay Iff.rfl (fun _ => hne u hu) (Nat.le_succ _)
      (fun hl _ _ _ _ hw => ⟨hl, hw.mono s' rfl rfl rfl rfl hgrow⟩)
  · intro u
    obtain rfl | hut := eq_or_ne u t
    · rw [hself]
      exact he
    · rw [hne u hut]
      exact h.element u
  · have hconserve := h.conserve
    have hchange := shares_change h.nodup hmem (fun u _ hu => hothers u hu)
    show s.resets + s.transit + s.globalResult.total + shares s.agents s'.net = s.added + 1
    lia

theorem stored_nonneg {latency : ℤ} (h : 0 ≤ latency) : 0 ≤ stored latency := by
  unfold stored getIntervalIndex
  split
  · exact h
  split
  · exact Int.le_of_sub_nonneg (by decide)
  · exact h

theorem Interval.Local.lt {i : Interval} (h : i.Local) : i.numAdded < two32 := h.wf.lt

namespace Samples

variable {e : Samples} {latency : ℤ}

theorem Wf.addLatency (he : e.Wf Interval.Local) (hlat : 0 ≤ latency)
    (hfull : (e.intervalAt (indexOf latency)).full localSize = false) :
    (e.addLatency latency (e.intervalAt (indexOf latency)) e.numAdded).Wf Interval.Local ∧
      (e.addLatency latency (e.intervalAt (indexOf latency)) e.numAdded).total = e.total + 1 := by
  have hadd := Interval.Local.add64 (he.interval (indexOf latency)) (stored_nonneg hlat) hfull
  have hcount : e.count (indexOf latency) = (e.intervalAt (indexOf latency)).numAdded := rfl
  constructor
  · apply setInterval_wf he hadd.1 (fun i hi => hi.lt)
    refine ⟨0, ?_⟩
    rw [hadd.2, he.numAdded, hcount]
    lia
  · have htotal := setInterval_total e (indexOf latency)
      ((e.intervalAt (indexOf latency)).add64 localSize (stored latency)) (e.numAdded + 1)
    rw [hadd.2, hcount] at htotal
    show (setInterval _ _ _ _).total = _
    lia

theorem Wf.clearLatency (he : e.Wf Interval.Local) (hlat : 0 ≤ latency) :
    (e.addLatency latency .empty (e.numAdded + two64 - (e.intervalAt (indexOf latency)).numAdded)).Wf
        Interval.Local ∧
      (e.addLatency latency .empty (e.numAdded + two64 - (e.intervalAt (indexOf latency)).numAdded)).total
        = e.total - e.count (indexOf latency) + 1 := by
  have hadd := Interval.local_empty.add64 (stored_nonneg hlat) (by decide)
  have hle := count_le_total e (indexOf latency)
  have hcount : (e.intervalAt (indexOf latency)).numAdded = e.count (indexOf latency) := rfl
  have hzero : Interval.empty.numAdded = 0 := rfl
  constructor
  · apply setInterval_wf he hadd.1 (fun i hi => hi.lt)
    refine ⟨1, ?_⟩
    rw [hadd.2, he.numAdded, hcount, hzero]
    lia
  · have htotal := setInterval_total e (indexOf latency) (Interval.empty.add64 localSize (stored latency))
      (e.numAdded + two64 - (e.intervalAt (indexOf latency)).numAdded + 1)
    rw [hadd.2, hzero] at htotal
    show (setInterval _ _ _ _).total = _
    lia

theorem Wf.mergeInterval {g : Samples} {interval : Interval} (hg : g.Wf (Interval.Wf globalSize))
    (hi : interval.Local) {index : Fin 32} (draw : ℕ → ℕ)
    (hlt : g.count index + interval.numAdded < two32) :
    (g.setInterval index ((g.intervalAt index).merge draw interval) (g.numAdded + interval.numAdded)).Wf
        (Interval.Wf globalSize) ∧
      (g.setInterval index ((g.intervalAt index).merge draw interval)
        (g.numAdded + interval.numAdded)).total
        = g.total + interval.numAdded := by
  have hm := (hg.interval index).merge hi draw hlt
  have hcount : g.count index = (g.intervalAt index).numAdded := rfl
  constructor
  · apply setInterval_wf hg hm.1 (fun i hi => hi.lt)
    refine ⟨0, ?_⟩
    rw [hm.2, hg.numAdded, hcount]
    lia
  · have hset := setInterval_total g index ((g.intervalAt index).merge draw interval)
      (g.numAdded + interval.numAdded)
    rw [hm.2, hcount] at hset
    lia

end Samples

theorem elementStep_inv (h : Inv s) {latency : ℤ} (hpc : s.pc t = .element latency) :
    Inv (elementStep s t latency) := by
  obtain ⟨hmem, hlat⟩ : (Pc.element latency).Ok s t := hpc ▸ h.phase t
  simp only [elementStep]
  split
  · exact h.goto (by rw [hpc]; nofun) nofun ⟨hmem, hlat⟩
  next hfull =>
    obtain ⟨hwf, htotal⟩ := (h.element t).addLatency hlat (Bool.eq_false_of_not_eq_true hfull)
    have hnet := total_eq s t
    rw [pending_zero (by rw [hpc]; nofun)] at hnet
    exact h.took hmem hwf (htotal.trans (congrArg (· + 1) hnet))

theorem clearingStep_inv (h : Inv s) {latency : ℤ} (hpc : s.pc t = .clearing latency) :
    Inv (clearingStep s t latency) := by
  obtain ⟨hmem, hlat⟩ : (Pc.clearing latency).Ok s t := hpc ▸ h.phase t
  obtain ⟨hwf, htotal⟩ := (h.element t).clearLatency hlat
  have hpend : s.pending t = (s.elements t).count (indexOf latency) := by
    unfold pending
    rw [hpc]
  rw [← hpend] at htotal
  exact h.took hmem hwf htotal

/-- The samples of the interval are in the global result, and no share of the thread any more. -/
theorem mergingStep_inv (h : Inv s) {latency : ℤ} (hpc : s.pc t = .merging latency)
    (draw : Fin 32 → ℕ → ℕ)
    (hlt : s.globalResult.count (indexOf latency) + (s.elements t).count (indexOf latency) < two32) :
    Inv (mergingStep s t latency draw) := by
  obtain ⟨hmem, hlat⟩ : (Pc.merging latency).Ok s t := hpc ▸ h.phase t
  simp only [mergingStep]
  split
  case isFalse => exact h
  rename_i hlock
  set index := indexOf latency
  set interval := (s.elements t).intervalAt index
  obtain ⟨hwf, htotal⟩ := h.global.mergeInterval ((h.element t).interval index) (draw index) hlt
  set g := s.globalResult.setInterval index
    ((s.globalResult.intervalAt index).merge (draw index) interval)
    (s.globalResult.numAdded + interval.numAdded)
  set s' := { s with globalResult := g }.goto t (.clearing latency)
  have hpend : s'.pending t = ((s.elements t).intervalAt index).numAdded := by
    have hpc' : s'.pc t = .clearing latency := update_self ..
    unfold pending
    rw [hpc']
    rfl
  have hpend' : s.pending t = 0 := pending_zero (by rw [hpc]; nofun)
  refine { h with phase := phases (p := .clearing latency) rfl ⟨hmem, hlat⟩ ?_, global := hwf, conserve := ?_ }
  · intro u hu
    exact (h.phase u).stay Iff.rfl (fun _ => rfl) le_rfl (fun hl => nomatch hlock.symm.trans hl)
  · have hconserve := h.conserve
    have hnet := total_eq s t
    have hnet' := total_eq s' t
    have helem : s'.elements t = s.elements t := rfl
    rw [helem] at hnet'
    have hchange := shares_change (f := s.net) (g := s'.net) h.nodup hmem
      (fun u _ hu => net_congr rfl (update_of_ne hu ..))
    show s.resets + s.transit + g.total + shares s.agents s'.net = s.added
    lia

/-! ### `get_value` and `reset` -/

theorem lockStep_inv (h : Inv s) {start : ℕ} (hpc : s.pc t = .lock reset start) :
    Inv (lockStep s t reset start) := by
  have hstart : start ≤ s.added := (hpc ▸ h.phase t : (Pc.lock reset start).Ok s t)
  unfold lockStep
  split
  case isFalse => exact h
  rename_i hlock
  have hcopy := copy_wf kind_global h.global
  have hnew := assign_wf kind_global (wf_new Interval.wf_empty) s.globalResult
  have hzero : new.total = 0 := sum_const_zero
  have htransit := h.settled hlock
  have hconserve := h.conserve
  set p : Pc ι := .walk reset start s.globalResult.copy .new s.agents
  have hnet : ∀ s' : State ι, s'.elements = s.elements → s'.pc = update s.pc t p → s'.net = s.net := by
    intro s' helem hpc'
    ext1 u
    obtain rfl | hut := eq_or_ne u t
    · have hpend : s.pending u = 0 := pending_zero (by rw [hpc]; nofun)
      have hpend' : s'.pending u = 0 := pending_zero (by rw [hpc', update_self]; nofun)
      rw [net, net, hpend, hpend', helem]
    · exact net_congr (congrFun helem u) ((congrFun hpc' u).trans (update_of_ne hut ..))
  have hstay : ∀ {s' : State ι}, s'.agents = s.agents → s'.elements = s.elements → s'.added = s.added →
      ∀ u, u ≠ t → (s.pc u).Ok s' u := fun hagents helem hadded u _ =>
    (h.phase u).stay (by rw [hagents]) (fun _ => congrFun helem u) hadded.ge
      (fun hl => nomatch hlock.symm.trans hl)
  cases reset with
  | false =>
    simp only [Bool.false_eq_true, if_false]
    have hn := hnet ({ s with combinerLock := some t }.goto t p) rfl rfl
    refine { h with phase := phases rfl ?_ (hstay rfl rfl rfl), conserve := hn.symm ▸ h.conserve, settled := nofun }
    refine ⟨rfl, hcopy.1, ?_, htransit, [], rfl, fun _ => ?_⟩
    · rw [hn, hcopy.2]
      show start ≤ s.resets + (s.globalResult.total + shares s.agents s.net)
      lia
    · rw [hcopy.2]
      exact Nat.le_add_right ..
  | true =>
    simp only [if_true]
    have hn := hnet ({ s with
      globalResult := s.globalResult.assign .new
      transit := s.globalResult.copy.total
      combinerLock := some t }.goto t p) rfl rfl
    refine { h with
      phase := phases rfl ?_ (hstay rfl rfl rfl), global := hnew.1, conserve := ?_, settled := nofun }
    · refine ⟨rfl, hcopy.1, ?_, rfl, [], rfl, nofun⟩
      rw [hn, hcopy.2]
      show start ≤ s.resets + (s.globalResult.total + shares s.agents s.net)
      lia
    · rw [hn]
      show s.resets + s.globalResult.copy.total + (s.globalResult.assign .new).total
          + shares s.agents s.net = s.added
      rw [hcopy.2, hnew.2, hzero]
      lia

/-- `get_value` loads an element, or `reset` exchanges it, while its owner is not between the
locks. -/
theorem visit_inv (h : Inv s) {start : ℕ} {node : ι}
    (hpc : s.pc t = .walk reset start ret tmp (node :: nodes)) (draw : Fin 32 → ℕ → ℕ)
    (hpend : s.pending node = 0) (hlt : ∀ index, ret.count index + (s.elements node).count index
      < two32) :
    Inv (walkStep s t reset start ret tmp (node :: nodes) draw) := by
  obtain ⟨hlock, hw⟩ : (Pc.walk reset start ret tmp (node :: nodes)).Ok s t := hpc ▸ h.phase t
  obtain ⟨visited, hagents, hpart⟩ := hw.part
  have hmem : node ∈ s.agents := by
    rw [hagents]
    exact mem_append_right _ mem_cons_self
  have hnodes : node ∉ nodes := by
    have hnd := h.nodup
    rw [hagents] at hnd
    exact (nodup_cons.1 (nodup_append'.1 hnd).2.1).1
  set tmp' := tmp.assign (s.elements node)
  set ret' := ret.merge draw tmp'
  have hassign := assign_wf kind_local (h.element node) tmp
  have hmerge := merge_wf hw.wf hassign.1
    (fun index => by rw [assign_count kind_local (h.element node)]; exact hlt index) draw
  have htotal : ret'.total = ret.total + (s.elements node).total := hmerge.2.trans (congrArg _ hassign.2)
  have hshare : (s.elements node).total = s.net node := by
    have heq := total_eq s node
    lia
  have hall := hw.all
  rw [shares_cons] at hall
  have hnext : s.agents = (visited ++ [node]) ++ nodes := by rw [hagents, append_assoc]; rfl
  cases reset with
  | false =>
    have htransit : s.transit = 0 := hw.transit
    have hok : (Pc.walk false start ret' tmp' nodes).Ok s t := by
      refine ⟨hlock, hmerge.1, ?_, htransit, visited ++ [node], hnext, fun hr => ?_⟩
      · lia
      · have hp := hpart hr
        rw [shares_append, shares_cons, shares_nil]
        lia
    exact h.goto (by rw [hpc]; nofun) (by intro l hl; cases hl) hok
  | true =>
    simp only [walkStep, if_true]
    set e := (s.elements node).assign .new
    set p : Pc ι := .walk true start ret' tmp' nodes with hp
    set s' : State ι := { s.setElement node e with transit := ret'.total }.goto t p
    have hnew := assign_wf kind_local (wf_new Interval.local_empty) (s.elements node)
    have hzero : e.total = 0 := hnew.2.trans sum_const_zero
    have hself : s'.elements node = e := update_self ..
    have hne : ∀ u, u ≠ node → s'.elements u = s.elements u := fun u hu => update_of_ne hu ..
    have hnode : s'.net node = 0 := by rw [net, hself, hzero, Nat.zero_sub]
    have hnet : ∀ u, u ≠ node → s'.net u = s.net u := by
      intro u hu
      obtain rfl | hut := eq_or_ne u t
      · have hpend' : s.pending u = 0 := pending_zero (by rw [hpc]; nofun)
        have hpc' : s'.pc u = p := update_self ..
        have hpend'' : s'.pending u = 0 := pending_zero (by rw [hpc']; nofun)
        rw [net, net, hpend', hpend'', hne u hu]
      · exact net_congr (hne u hu) (update_of_ne hut ..)
    have hrest : shares nodes s'.net = shares nodes s.net := by
      apply shares_congr
      intro u hu
      apply hnet
      rintro rfl
      exact hnodes hu
    have htransit : s.transit = ret.total := hw.transit
    refine { h with phase := phases (p := p) rfl ?_ ?_, element := ?_, conserve := ?_, settled := ?_ }
    · refine ⟨hlock, hmerge.1, ?_, rfl, visited ++ [node], hnext, nofun⟩
      show start ≤ s.resets + (ret'.total + shares nodes s'.net)
      lia
    · intro u hu
      refine (h.phase u).stay Iff.rfl (fun hout => hne u ?_) le_rfl
        (fun hl => absurd (Option.some.inj (hl.symm.trans hlock)) hu)
      rintro rfl
      exact hout hmem
    · intro u
      obtain rfl | hun := eq_or_ne u node
      · rw [hself]
        exact hnew.1
      · rw [hne u hun]
        exact h.element u
    · have hconserve := h.conserve
      have hchange := shares_change h.nodup hmem (fun u _ hu => hnet u hu)
      show s.resets + ret'.total + s.globalResult.total + shares s.agents s'.net = s.added
      lia
    · exact fun hl => nomatch hlock.symm.trans hl

theorem finish_inv (h : Inv s) {start : ℕ}
    (hpc : s.pc t = .walk reset start ret tmp []) (draw : Fin 32 → ℕ → ℕ) :
    Inv (walkStep s t reset start ret tmp [] draw) := by
  obtain ⟨hlock, hw⟩ : (Pc.walk reset start ret tmp []).Ok s t := hpc ▸ h.phase t
  obtain ⟨visited, hagents, hpart⟩ := hw.part
  rw [append_nil] at hagents
  have hcopy := copy_wf kind_global hw.wf
  have hall := hw.all
  rw [shares_nil] at hall
  have hconserve := h.conserve
  have htransit := hw.transit
  set r : Result := ⟨reset, start, s.added, s.resets, ret.copy⟩ with hr
  set s' : State ι := { s with combinerLock := none, transit := 0, results := r :: s.results }.goto
    t .idle
  have hresets : s'.resets = s.resets + if reset then ret.total else 0 := by
    have hunfold : s'.resets = (((r :: s.results).filter Result.reset).map fun r =>
        r.value.total).sum := rfl
    rw [hunfold]
    cases reset with
    | false => rw [filter_cons_of_neg (by simp [hr])]; rfl
    | true =>
      rw [filter_cons_of_pos rfl, map_cons, sum_cons, add_comm]
      exact congrArg _ hcopy.2
  have hnet : s'.net = s.net := by
    ext1 u
    obtain rfl | hut := eq_or_ne u t
    · have hpend : s.pending u = 0 := pending_zero (by rw [hpc]; nofun)
      have hpc' : s'.pc u = .idle := update_self ..
      have hpend' : s'.pending u = 0 := pending_zero (by rw [hpc']; nofun)
      rw [net, net, hpend, hpend']
      rfl
    · exact net_congr rfl (update_of_ne hut ..)
  have hstop : s.resets + ret.total ≤ s.added := by
    cases reset with
    | false =>
      have hp := hpart rfl
      rw [hagents] at hconserve
      lia
    | true =>
      rw [if_pos rfl] at htransit
      lia
  refine { h with
    phase := phases (p := .idle) rfl trivial ?_, conserve := ?_, settled := fun _ => rfl
    covers := forall_mem_cons.2 ⟨⟨?_, ?_⟩, h.covers⟩
    numAdded := forall_mem_cons.2 ⟨hcopy.1.numAdded, h.numAdded⟩ }
  · intro u hu
    exact (h.phase u).stay Iff.rfl (fun _ => rfl) le_rfl
      (fun hl => absurd (Option.some.inj (hl.symm.trans hlock)) hu)
  · show s'.resets + 0 + s.globalResult.total + shares s.agents s'.net = s.added
    rw [hresets, hnet]
    lia
  · show start ≤ s.resets + ret.copy.total
    lia
  · show s.resets + ret.copy.total ≤ s.added
    lia

/-! ## Runs -/

theorem goStep_inv (h : Inv s) (t : ι) (draw : Fin 32 → ℕ → ℕ) (hheeds : Heeds s (.go t draw)) :
    Inv (goStep s t draw) := by
  unfold goStep
  simp only [Heeds] at hheeds
  cases hpc : s.pc t with
  | idle => exact h
  | append latency => exact appendStep_inv h hpc
  | element latency => exact elementStep_inv h hpc
  | merging latency =>
    rw [hpc] at hheeds
    exact mergingStep_inv h hpc draw hheeds
  | clearing latency => exact clearingStep_inv h hpc
  | lock reset start => exact lockStep_inv h hpc
  | walk reset start ret tmp nodes =>
    cases nodes with
    | nil => exact finish_inv h hpc draw
    | cons node nodes =>
      rw [hpc] at hheeds
      exact visit_inv h hpc draw hheeds.1 hheeds.2

theorem step_inv (s : State ι) (a : Act ι) (h : Inv s) (hheeds : Heeds s a) : Inv (step s a) := by
  cases a with
  | add t latency =>
    simp only [step]
    split
    next hidle =>
      exact addStep_inv h hidle latency
    · exact h
  | getValue t =>
    simp only [step]
    split
    next hidle =>
      exact h.goto (by rw [hidle]; nofun) nofun le_rfl
    · exact h
  | reset t =>
    simp only [step]
    split
    next hidle =>
      exact h.goto (by rw [hidle]; nofun) nofun le_rfl
    · exact h
  | go t draw => exact goStep_inv h t draw hheeds

/-- **Every latency is counted once** in a run in which no walk comes between the locks of
`AddLatency`. -/
theorem run_countsOnce (as : List (Act ι)) (hheeds : Along step Heeds (start ι) as) :
    CountsOnce (runFrom step (start ι) as) := by
  have hinv : Inv (runFrom step (start ι) as) := hheeds.run step_inv start_inv
  exact hinv.countsOnce

/-- A latency is added, and another thread resets. -/
def resetRun : List (Act Bool) :=
  [.add true 5, .go true default, .go true default, .reset false, .go false default, .go false default,
    .go false default]

instance (s : State ι) : ∀ a, Decidable (Heeds s a)
  | .go t _ =>
    match hpc : s.pc t with
    | .merging latency =>
      decidable_of_iff (s.globalResult.count (indexOf latency)
        + (s.elements t).count (indexOf latency) < two32)
        (by rw [Heeds, hpc])
    | .walk _ _ ret _ (node :: _) =>
      decidable_of_iff (s.pending node = 0 ∧ ∀ index,
        ret.count index + (s.elements node).count index < two32)
        (by rw [Heeds, hpc])
    | .walk _ _ _ _ [] | .idle | .append _ | .element _ | .clearing _ | .lock _ _ =>
      isTrue (by rw [Heeds, hpc]; trivial)
  | .add _ _ | .getValue _ | .reset _ => isTrue trivial

/-- Thirty-one latencies of one interval, of which the first thirty are merged, and a reset. -/
def mergeRun : List (Act Bool) :=
  [.add true 5, .go true default] ++ (List.replicate 30 [.go true default, .add true 5]).flatten ++
    [.go true default, .go true default, .go true default, .reset false, .go false default,
      .go false default,
      .go false default]

theorem run_countsOnce_merge :
    Along step Heeds (start Bool) mergeRun ∧ CountsOnce (runFrom step (start Bool) mergeRun) := by
  have hheeds : Along step Heeds (start Bool) mergeRun := by decide +kernel
  exact ⟨hheeds, run_countsOnce mergeRun hheeds⟩

/-- Thirty-one latencies of one interval, and a reset when the samples of the first thirty of them
are merged and not cleared yet. -/
def gapRun : List (Act Bool) :=
  [.add true 5, .go true default] ++ (List.replicate 30 [.go true default, .add true 5]).flatten ++
    [.go true default, .go true default, .reset false, .go false default, .go false default,
      .go false default]

/-- The reset returns the thirty twice. -/
theorem reset_between_locks : ¬CountsOnce (runFrom step (start Bool) gapRun) := by
  intro h
  have hcovers := h.covers
  revert hcovers
  decide +kernel

end Eabase.Var.Percentile
