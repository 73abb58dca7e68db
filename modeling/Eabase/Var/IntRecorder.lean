import Mathlib.Data.BitVec
import Mathlib.Data.Int.Order.Lemmas
import Mathlib.Data.Nat.Bitwise
import Eabase.Lib.Machine

/-!
# IntRecorder

`IntRecorder` adds up samples and counts them, both in one 64-bit word of a
thread: 20 bits for the number, 44 bits for the sum with its sign. Before either
of them overflows the word is added to the result of the combiner and cleared;
`reset` clears it at any moment.

One thread adds samples, any others call `reset` and `get_value`. A step is an
access to the word, or a critical section of the combiner's lock in which nobody
else can touch the word; `reset` and `get_value` hold the lock while they walk.
-/

namespace Eabase.Var.IntRecorder

open Lib Function List

/-! ## The word -/

/-- The values of a `uint64_t`. -/
def two64 : ℕ := 2 ^ 64

/-- A `uint64_t` as an `int64_t`. -/
def toInt64 (n : ℕ) : ℤ :=
  if n < 2 ^ 63 then n else n - 2 ^ 64

/-- `MAX_SUM_PER_THREAD`. -/
def maxSumPerThread : ℕ := 2 ^ 44 - 1

/-- `MAX_NUM_PER_THREAD`. -/
def maxNumPerThread : ℕ := 2 ^ 20 - 1

/-- `_get_sum`. -/
def getSum (n : ℕ) : ℕ := n &&& maxSumPerThread

/-- `_get_num`. -/
def getNum (n : ℕ) : ℕ := n >>> 44

/-- `_extend_sign_bit`. -/
def extendSignBit (sum : ℕ) : ℤ :=
  toInt64 (((1 <<< 21 - 1) * (1 <<< 43 &&& sum)) % two64 ||| sum)

/-- `_get_complement`. -/
def getComplement (n : ℤ) : ℕ := (n % 2 ^ 64).toNat &&& maxSumPerThread

/-- `_compress`. -/
def compress (num sum : ℕ) : ℕ := (num <<< 44) % two64 ||| (sum &&& maxSumPerThread)

/-- `_will_overflow`. -/
def willOverflow (lhs rhs : ℤ) : Bool :=
  (lhs > 0 && rhs > 0 && lhs + rhs > maxSumPerThread / 2) ||
    (lhs < 0 && rhs < 0 && lhs + rhs < -(maxSumPerThread / 2) - 1)

/-- The sample as it is added: at the bounds of an `int`. -/
def clamp (sample : ℤ) : ℤ :=
  if sample > 2 ^ 31 - 1 then 2 ^ 31 - 1 else if sample < -2 ^ 31 then -2 ^ 31 else sample

theorem getSum_eq (n : ℕ) : getSum n = n % 2 ^ 44 :=
  Nat.and_two_pow_sub_one_eq_mod n 44

theorem getNum_eq (n : ℕ) : getNum n = n / 2 ^ 44 :=
  Nat.shiftRight_eq_div_pow n 44

theorem getSum_lt (n : ℕ) : getSum n < 2 ^ 44 := by
  rw [getSum_eq]
  exact Nat.mod_lt n (Nat.two_pow_pos 44)

variable {sum : ℕ} {x : ℤ}

theorem extendSignBit_eq (h : sum < 2 ^ 44) :
    extendSignBit sum = if sum < 2 ^ 43 then (sum : ℤ) else sum - 2 ^ 44 := by
  have hbit : 1 <<< 43 &&& sum = (sum.testBit 43).toNat * 2 ^ 43 := by
    rw [Nat.one_shiftLeft, Nat.two_pow_and, mul_comm]
  rw [extendSignBit, hbit]
  by_cases hneg : sum < 2 ^ 43
  · rw [Nat.testBit_lt_two_pow hneg, if_pos hneg, Bool.toNat_false, zero_mul, mul_zero, Nat.zero_mod,
      Nat.zero_or, toInt64, if_pos (by lia)]
  · obtain ⟨r, rfl⟩ := Nat.exists_eq_add_of_le (not_lt.1 hneg)
    have hr : r < 2 ^ 43 := by lia
    have htop : (2 ^ 43 + r).testBit 43 = true := by
      rw [Nat.testBit_two_pow_add_eq, Nat.testBit_lt_two_pow hr]
      rfl
    have hones : (1 <<< 21 - 1) * ((2 ^ 43 + r).testBit 43).toNat * 2 ^ 43 % two64
        = (2 ^ 21 - 1) <<< 43 := by
      rw [htop]
      decide
    have hlow : 2 ^ 43 + r = 1 <<< 43 ||| r := by
      rw [← Nat.shiftLeft_add_eq_or_of_lt hr, Nat.one_shiftLeft]
    have hor : (2 ^ 21 - 1) <<< 43 ||| (2 ^ 43 + r) = (2 ^ 21 - 1) <<< 43 + r := by
      rw [hlow, ← Nat.or_assoc, ← Nat.shiftLeft_or_distrib, Nat.shiftLeft_add_eq_or_of_lt hr]
      rfl
    have hshift : (2 ^ 21 - 1) <<< 43 = 2 ^ 64 - 2 ^ 43 := by decide
    rw [← mul_assoc, hones, hor, hshift, toInt64, if_neg (by lia), if_neg hneg]
    lia

theorem extendSignBit_of_emod (h : sum < 2 ^ 44) (hmod : (sum : ℤ) % 2 ^ 44 = x % 2 ^ 44)
    (hlow : -2 ^ 43 ≤ x) (hhigh : x < 2 ^ 43) : extendSignBit sum = x := by
  rw [extendSignBit_eq h]
  split <;> lia

theorem emod_extendSignBit (h : sum < 2 ^ 44) : (sum : ℤ) % 2 ^ 44 = extendSignBit sum % 2 ^ 44 := by
  rw [extendSignBit_eq h]
  split <;> lia

theorem getComplement_emod (n : ℤ) : (getComplement n : ℤ) = n % 2 ^ 44 := by
  have hcomp : getComplement n = (n % 2 ^ 64).toNat % 2 ^ 44 := Nat.and_two_pow_sub_one_eq_mod _ 44
  rw [hcomp]
  lia

variable {num : ℕ}

theorem compress_eq (h : num < 2 ^ 20) : compress num sum = num * 2 ^ 44 + sum % 2 ^ 44 := by
  have hsum : sum &&& maxSumPerThread = sum % 2 ^ 44 := Nat.and_two_pow_sub_one_eq_mod sum 44
  have hnum : (num <<< 44) % two64 = num <<< 44 := by
    rw [Nat.shiftLeft_eq]
    exact Nat.mod_eq_of_lt (by rw [two64]; lia)
  rw [compress, hsum, hnum, ← Nat.shiftLeft_add_eq_or_of_lt (Nat.mod_lt _ (Nat.two_pow_pos 44)),
    Nat.shiftLeft_eq]

theorem getNum_compress (sum : ℕ) (h : num < 2 ^ 20) : getNum (compress num sum) = num := by
  rw [getNum_eq, compress_eq h]
  lia

theorem getSum_compress (sum : ℕ) (h : num < 2 ^ 20) : getSum (compress num sum) = sum % 2 ^ 44 := by
  rw [getSum_eq, compress_eq h]
  lia

theorem clamp_bounds (sample : ℤ) : -2 ^ 31 ≤ clamp sample ∧ clamp sample ≤ 2 ^ 31 - 1 := by
  unfold clamp
  split
  · lia
  split <;> lia

theorem add_bounds {lhs rhs : ℤ} (h : willOverflow lhs rhs = false) (hlhs : -2 ^ 43 ≤ lhs ∧ lhs < 2 ^ 43)
    (hrhs : -2 ^ 31 ≤ rhs ∧ rhs ≤ 2 ^ 31 - 1) : -2 ^ 43 ≤ lhs + rhs ∧ lhs + rhs < 2 ^ 43 := by
  have hmax : ((maxSumPerThread / 2 : ℕ) : ℤ) = 2 ^ 43 - 1 := by decide
  have hmax' : (maxSumPerThread : ℤ) / 2 = 2 ^ 43 - 1 := by decide
  simp only [willOverflow, Bool.or_eq_false_iff, Bool.and_eq_false_iff, decide_eq_false_iff_not,
    hmax'] at h
  lia

variable {n : ℕ}

theorem decode_add (hnum : getNum n + 1 ≤ maxNumPerThread)
    (hover : willOverflow (extendSignBit (getSum n)) x = false) (hx : -2 ^ 31 ≤ x ∧ x ≤ 2 ^ 31 - 1) :
    getNum (compress (getNum n + 1) ((getSum n + getComplement x) % two64)) = getNum n + 1 ∧
      extendSignBit (getSum (compress (getNum n + 1) ((getSum n + getComplement x) % two64)))
        = extendSignBit (getSum n) + x := by
  have hsum := getSum_lt n
  have hlt : getNum n + 1 < 2 ^ 20 := lt_of_le_of_lt hnum (by decide)
  have hbounds : -2 ^ 43 ≤ extendSignBit (getSum n) ∧ extendSignBit (getSum n) < 2 ^ 43 := by
    rw [extendSignBit_eq hsum]
    split <;> lia
  have hadd := add_bounds hover hbounds hx
  have hsign := emod_extendSignBit hsum
  have hcomp := getComplement_emod x
  have hwrap : (getSum n + getComplement x) % two64 = getSum n + getComplement x :=
    Nat.mod_eq_of_lt (by rw [two64]; lia)
  rw [getNum_compress _ hlt, getSum_compress _ hlt, hwrap]
  refine ⟨rfl, extendSignBit_of_emod (Nat.mod_lt _ (Nat.two_pow_pos 44)) ?_ hadd.1 hadd.2⟩
  lia

/-! ## Stat -/

/-- `Stat`. -/
@[ext] structure Stat where
  sum : BitVec 64
  num : BitVec 64
  deriving DecidableEq

instance : Zero Stat := ⟨⟨0, 0⟩⟩

instance : Add Stat := ⟨fun lhs rhs => ⟨lhs.sum + rhs.sum, lhs.num + rhs.num⟩⟩

/-- `AddToStat`. -/
def addToStat (lhs : Stat) (rhs : ℕ) : Stat where
  sum := lhs.sum + BitVec.ofInt 64 (extendSignBit (getSum rhs))
  num := lhs.num + BitVec.ofNat 64 (getNum rhs)

def Stat.of (l : List ℤ) : Stat :=
  ⟨BitVec.ofInt 64 l.sum, BitVec.ofNat 64 l.length⟩

/-- The sum and the number are values of an `int64_t`. -/
def Fits (l : List ℤ) : Prop :=
  -2 ^ 63 ≤ l.sum ∧ l.sum < 2 ^ 63 ∧ l.length < 2 ^ 63

open Stat

theorem Stat.of_append (l m : List ℤ) : of (l ++ m) = of l + of m := by
  ext1
  · rw [of, sum_append, BitVec.ofInt_add]
    rfl
  · rw [of, length_append, BitVec.ofNat_add]
    rfl

variable {l : List ℤ}

theorem Stat.toInt_of (h : Fits l) :
    (of l).sum.toInt = l.sum ∧ (of l).num.toInt = l.length := by
  obtain ⟨hlow, hhigh, hlen⟩ := h
  constructor
  · exact BitVec.toInt_ofInt_eq_self (by decide) hlow hhigh
  · rw [of, ← BitVec.ofInt_natCast]
    apply BitVec.toInt_ofInt_eq_self (by decide)
    · exact le_trans (by decide) (Int.natCast_nonneg _)
    · exact_mod_cast hlen

/-- A word that holds the samples `l`. -/
structure Word (n : ℕ) (l : List ℤ) : Prop where
  num : getNum n = l.length
  sum : extendSignBit (getSum n) = l.sum

theorem Word.zero : Word 0 [] := ⟨rfl, by decide⟩

theorem Word.addToStat {m : List ℤ} (h : Word n l) : addToStat (of m) n = of (m ++ l) := by
  rw [of_append, IntRecorder.addToStat, h.num, h.sum]
  rfl

/-! ## The machine -/

variable {ι : Type*} [DecidableEq ι] {ret : Batch}

structure Batch where
  stat : Stat
  samples : List ℤ
  deriving DecidableEq

/-- `call_op_returning_void(_op, ret, n)` for a word with the samples `l`. -/
def Batch.take (ret : Batch) (n : ℕ) (l : List ℤ) : Batch :=
  ⟨addToStat ret.stat n, ret.samples ++ l⟩

instance : Zero Batch := ⟨⟨0, []⟩⟩

/-- What a `get_value` or a `reset` returned, and how many samples had been added when it began and
when it returned. -/
structure Result where
  reset : Bool
  start : ℕ
  stop : ℕ
  batch : Batch
  deriving DecidableEq

/-- Where the thread that adds stands: in `operator<<` in front of the `Append` of its agent, of
`element.load`, of the test and the `compare_exchange_weak`, of `commit_and_clear`. -/
inductive Adder where
  | idle
  | append (sample : ℤ)
  | load (sample : ℤ)
  | cas (sample : ℤ) (n : ℕ)
  | flush (sample : ℤ)
  deriving DecidableEq

/-- Where another thread stands: in front of the lock, of the agent, of the end of the list. -/
inductive Pc where
  | idle
  | lock (reset : Bool) (start : ℕ)
  | visit (reset : Bool) (start : ℕ) (ret : Batch)
  | finish (reset : Bool) (start : ℕ) (ret : Batch)
  deriving DecidableEq

/-- The combiner with the agent of the thread that adds. What is kept besides: the samples that are
in the element and those that a reset under way has collected, all samples given, those that were
added, and what was returned (newest first). -/
structure State (ι : Type*) where
  lock : Option ι
  globalResult : Batch
  agents : Bool
  element : ℕ
  samples : List ℤ
  transit : List ℤ
  adder : Adder
  pc : ι → Pc
  given : List ℤ
  added : List ℤ
  results : List Result

def start (ι : Type*) : State ι where
  lock := none
  globalResult := 0
  agents := false
  element := 0
  samples := []
  transit := []
  adder := .idle
  pc _ := .idle
  given := []
  added := []
  results := []

/-- One label of a run; `ok` says whether a `compare_exchange_weak` that may succeed does. -/
inductive Act (ι : Type*) where
  | add (sample : ℤ)
  | goAdder (ok : Bool)
  | getValue (t : ι)
  | reset (t : ι)
  | go (t : ι)

section

variable (s : State ι)

def State.goto (t : ι) (p : Pc) : State ι :=
  { s with pc := update s.pc t p }

/-- `operator<<`, up to the agent. -/
def addStep (sample : ℤ) : State ι :=
  let s := { s with given := s.given ++ [sample] }
  if s.agents then { s with adder := .load (clamp sample) }
  else { s with element := 0, samples := [], adder := .append (clamp sample) }

/-- `_agents.Append`. -/
def appendStep (sample : ℤ) : State ι :=
  if s.lock = none then { s with agents := true, adder := .load sample } else s

/-- The test and the `compare_exchange_weak`. -/
def casStep (sample : ℤ) (n : ℕ) (ok : Bool) : State ι :=
  let num := getNum n
  let sum := getSum n
  if num + 1 > maxNumPerThread || willOverflow (extendSignBit sum) sample
    then { s with adder := .flush sample }
  else if s.element = n ∧ ok then
    { s with
      element := compress (num + 1) ((sum + getComplement sample) % two64)
      samples := s.samples ++ [sample]
      added := s.added ++ [sample]
      adder := .idle }
  else { s with adder := .cas sample s.element }

/-- `commit_and_clear`; the `compare_exchange_weak` after it expects an empty word. -/
def flushStep (sample : ℤ) : State ι :=
  if s.lock = none then
    { s with
      globalResult := s.globalResult.take s.element s.samples
      element := 0
      samples := []
      adder := .cas sample 0 }
  else s

def goAdder (ok : Bool) : State ι :=
  match s.adder with
  | .idle => s
  | .append sample => appendStep s sample
  | .load sample => { s with adder := .cas sample s.element }
  | .cas sample n => casStep s sample n ok
  | .flush sample => flushStep s sample

section

variable (t : ι) (reset : Bool) (start : ℕ)

/-- The lock of `combine_agents` or `reset_all_agents`, and the global result. -/
def lockStep : State ι :=
  if s.lock = none then
    let s' := { s with lock := some t }.goto t (.visit reset start s.globalResult)
    if reset then { s' with globalResult := 0, transit := s.globalResult.samples } else s'
  else s

def visitStep (ret : Batch) : State ι :=
  if s.agents then
    let ret' := ret.take s.element s.samples
    let s' := s.goto t (.finish reset start ret')
    if reset then { s' with element := 0, samples := [], transit := ret'.samples } else s'
  else s.goto t (.finish reset start ret)

/-- The end of `combine_agents` or `reset_all_agents`. -/
def finishStep (ret : Batch) : State ι :=
  { s with
    lock := none
    transit := []
    results := ⟨reset, start, s.added.length, ret⟩ :: s.results }.goto t .idle

end

def goStep (t : ι) : State ι :=
  match s.pc t with
  | .idle => s
  | .lock reset start => lockStep s t reset start
  | .visit reset start ret => visitStep s t reset start ret
  | .finish reset start ret => finishStep s t reset start ret

def step : Act ι → State ι
  | .add sample => if s.adder = .idle then addStep s sample else s
  | .goAdder ok => goAdder s ok
  | .getValue t => if s.pc t = .idle then s.goto t (.lock false s.added.length) else s
  | .reset t => if s.pc t = .idle then s.goto t (.lock true s.added.length) else s
  | .go t => goStep s t

end

/-! ## What holds -/

/-- What `get_value` returns when nothing else happens. -/
def State.value (s : State ι) : Batch :=
  if s.agents then s.globalResult.take s.element s.samples else s.globalResult

/-- The sample that is not added yet. -/
def Adder.pending : Adder → List ℤ
  | .idle => []
  | .append sample => [sample]
  | .load sample => [sample]
  | .cas sample _ => [sample]
  | .flush sample => [sample]

def handedOut : List Result → List ℤ
  | [] => []
  | r :: rs => if r.reset then handedOut rs ++ r.batch.samples else handedOut rs

def total : List Result → Stat
  | [] => 0
  | r :: rs => if r.reset then total rs + r.batch.stat else total rs

def Batch.Exact (b : Batch) : Prop :=
  b.stat = Stat.of b.samples

/-- The result is that of the samples added up to some moment of the call, less those that the
resets before it, in `rs`, returned. -/
structure Result.Covers (added : List ℤ) (rs : List Result) (r : Result) : Prop where
  exact : r.batch.Exact
  upTo : handedOut rs ++ r.batch.samples <+: added
  start : r.start ≤ (handedOut rs ++ r.batch.samples).length
  stop : (handedOut rs ++ r.batch.samples).length ≤ r.stop

/-- The results of all resets, what one under way has collected, and the current value, added up. -/
def State.altogether (s : State ι) : Stat :=
  total s.results + (Stat.of s.transit + s.value.stat)

structure Exact (s : State ι) : Prop where
  /-- Each sample given is added, clamped, but for the one of the call under way. -/
  all : s.added ++ s.adder.pending = s.given.map clamp
  /-- It is in what one reset returned, in what a reset under way has collected, or in the current
  value. -/
  once : handedOut s.results ++ (s.transit ++ s.value.samples) = s.added
  settled : s.lock = none → s.transit = []
  /-- The word holds the number and the sum of its samples. -/
  word : Word s.element s.samples
  value : s.value.Exact
  covered : ∀ r rs, r :: rs <:+ s.results → r.Covers s.added rs
  altogether : s.altogether = Stat.of s.added
  /-- That is the sum and the number of the samples, where they fit; and so it is of each result. -/
  fits : Fits s.added →
    s.altogether.sum.toInt = s.added.sum ∧ s.altogether.num.toInt = s.added.length
  parts : ∀ r ∈ s.results, Fits r.batch.samples →
    r.batch.stat.sum.toInt = r.batch.samples.sum ∧ r.batch.stat.num.toInt = r.batch.samples.length

/-! ## The invariant -/

/-- The sample of the call fits, and the agent is in the list behind `Append`. -/
def AdderOk (agents : Bool) : Adder → Prop
  | .idle => True
  | .append sample => clamp sample = sample ∧ agents = false
  | .load sample => clamp sample = sample ∧ agents = true
  | .cas sample _ => clamp sample = sample ∧ agents = true
  | .flush sample => clamp sample = sample ∧ agents = true

def PcOk (s : State ι) (t : ι) : Pc → Prop
  | .idle => True
  | .lock _ start => start ≤ s.added.length
  | .visit reset start ret =>
    s.lock = some t ∧ start ≤ s.added.length ∧ ret.Exact ∧
      if reset then s.globalResult = 0 ∧ s.transit = ret.samples
      else s.globalResult.samples = ret.samples ∧ s.transit = []
  | .finish reset start ret =>
    s.lock = some t ∧ ret.Exact ∧ start ≤ (handedOut s.results ++ ret.samples).length ∧
      handedOut s.results ++ ret.samples <+: s.added ∧ if reset then s.transit = ret.samples
        else s.transit = []

structure Inv (s : State ι) : Prop where
  all : s.added ++ s.adder.pending = s.given.map clamp
  once : handedOut s.results ++ (s.transit ++ (s.globalResult.samples ++ s.samples)) = s.added
  settled : s.lock = none → s.transit = []
  word : Word s.element s.samples
  global : s.globalResult.Exact
  /-- Without an agent nothing has been added. -/
  unborn : s.agents = false → s.samples = [] ∧ s.globalResult.samples = []
  covered : ∀ r rs, r :: rs <:+ s.results → r.Covers s.added rs
  adderOk : AdderOk s.agents s.adder
  pcOk : ∀ t, PcOk s t (s.pc t)

theorem Batch.Exact.zero : (0 : Batch).Exact := rfl

theorem Batch.Exact.take (h : ret.Exact) (hw : Word n l) : (ret.take n l).Exact := by
  rw [Batch.Exact, Batch.take, h, hw.addToStat]

theorem clamp_clamp (sample : ℤ) : clamp (clamp sample) = clamp sample := by
  obtain ⟨hlow, hhigh⟩ := clamp_bounds sample
  rw [clamp, if_neg (not_lt.2 hhigh), if_neg (not_lt.2 hlow)]

section

omit [DecidableEq ι]

theorem Inv.init : Inv (start ι) where
  all := rfl
  once := rfl
  settled _ := rfl
  word := .zero
  global := .zero
  unborn _ := ⟨rfl, rfl⟩
  covered r rs h := by cases suffix_nil.mp h
  adderOk := trivial
  pcOk _ := trivial

/-- A call that has not taken the lock, and one that has, while more samples are added. -/
theorem PcOk.mono {s s' : State ι} {t : ι} {p : Pc} (h : PcOk s t p) (hadded : s.added <+: s'.added)
    (hresults : s'.results = s.results) (hlock : s'.lock = s.lock)
    (hglobal : s'.globalResult = s.globalResult)
    (htransit : s'.transit = s.transit) : PcOk s' t p := by
  cases p with
  | idle => trivial
  | lock reset start => exact le_trans (show start ≤ _ from h) hadded.length_le
  | visit reset start ret =>
    obtain ⟨hl, hstart, hret, hcase⟩ := h
    simp only [PcOk, hlock, hglobal, htransit]
    exact ⟨hl, hstart.trans hadded.length_le, hret, hcase⟩
  | finish reset start ret =>
    obtain ⟨hl, hret, hstart, hpre, hcase⟩ := h
    simp only [PcOk, hlock, hresults, htransit]
    exact ⟨hl, hret, hstart, hpre.trans hadded, hcase⟩

/-- Where the lock is not the thread's, nothing but the number of samples counts. -/
theorem PcOk.of_lock {s s' : State ι} {t : ι} {p : Pc} (h : PcOk s t p) (hlock : s.lock ≠ some t)
    (hadded : s.added <+: s'.added) : PcOk s' t p := by
  cases p with
  | idle => trivial
  | lock reset start => exact le_trans (show start ≤ _ from h) hadded.length_le
  | visit reset start ret => exact absurd h.1 hlock
  | finish reset start ret => exact absurd h.1 hlock

end

theorem Result.Covers.mono {added added' : List ℤ} {rs : List Result} {r : Result} (h : r.Covers added rs)
    (hadded : added <+: added') : r.Covers added' rs :=
  { h with upTo := h.upTo.trans hadded }

/-! ## What the thread that adds does -/

variable {s : State ι} {sample : ℤ}

section

omit [DecidableEq ι]

theorem Inv.addStep (h : Inv s) (hidle : s.adder = .idle) (sample : ℤ) : Inv (addStep s sample) := by
  have hall : s.added ++ [clamp sample] = (s.given ++ [sample]).map clamp := by
    rw [map_append, ← h.all, hidle, Adder.pending, append_nil]
    rfl
  simp only [IntRecorder.addStep]
  split
  case isTrue hagents =>
    exact
      { h with
        all := hall
        adderOk := ⟨clamp_clamp sample, hagents⟩
        pcOk := fun t => (h.pcOk t).mono (prefix_refl _) rfl rfl rfl rfl }
  case isFalse hagents =>
    have hno : s.agents = false := Bool.eq_false_iff.2 hagents
    have hempty := h.unborn hno
    have honce := h.once
    rw [hempty.1] at honce
    exact
      { h with
        all := hall
        once := honce
        word := .zero
        unborn := fun _ => ⟨rfl, hempty.2⟩
        adderOk := ⟨clamp_clamp sample, hno⟩
        pcOk := fun t => (h.pcOk t).mono (prefix_refl _) rfl rfl rfl rfl }

theorem Inv.appendStep (h : Inv s) (ha : s.adder = .append sample) : Inv (appendStep s sample) := by
  have hok := h.adderOk
  rw [ha] at hok
  unfold IntRecorder.appendStep
  split
  · exact
      { h with
        all := by rw [← h.all, ha]; rfl
        unborn := fun hno => absurd hno Bool.true_eq_false.mp
        adderOk := ⟨hok.1, rfl⟩
        pcOk := fun t => (h.pcOk t).mono (prefix_refl _) rfl rfl rfl rfl }
  · exact h

theorem Inv.goes (h : Inv s) {a : Adder} (hp : a.pending = s.adder.pending) (hok : AdderOk s.agents a) :
    Inv { s with adder := a } :=
  { h with
    all := by rw [← h.all, ← hp]
    adderOk := hok
    pcOk := fun t => (h.pcOk t).mono (prefix_refl _) rfl rfl rfl rfl }

end

section

omit [DecidableEq ι]

theorem Inv.casStep (h : Inv s) (ha : s.adder = .cas sample n) (ok : Bool) :
    Inv (casStep s sample n ok) := by
  have hok := h.adderOk
  rw [ha] at hok
  simp only [IntRecorder.casStep]
  split
  case isTrue => exact h.goes (by rw [ha]; rfl) hok
  case isFalse hfits =>
    split
    case isTrue hcas =>
      obtain ⟨rfl, -⟩ := hcas
      simp only [Bool.or_eq_true, not_or, decide_eq_true_eq, not_lt, Bool.not_eq_true] at hfits
      obtain ⟨hnum, hsum⟩ := decode_add hfits.1 hfits.2 (hok.1 ▸ clamp_bounds sample)
      have hpre : s.added <+: s.added ++ [sample] := prefix_append _ _
      exact
        { h with
          all := by
            rw [← h.all, ha]
            exact append_nil _
          once := by
            rw [← h.once]
            simp only [append_assoc]
          word :=
            { num := by rw [hnum, h.word.num, length_append, length_singleton]
              sum := by rw [hsum, h.word.sum, sum_append, sum_singleton] }
          unborn := fun hno => absurd hno (by rw [hok.2]; decide)
          covered := fun r rs hr => (h.covered r rs hr).mono hpre
          adderOk := trivial
          pcOk := fun t => (h.pcOk t).mono hpre rfl rfl rfl rfl }
    case isFalse => exact h.goes (by rw [ha]; rfl) hok

theorem Inv.flushStep (h : Inv s) (ha : s.adder = .flush sample) : Inv (flushStep s sample) := by
  have hok := h.adderOk
  rw [ha] at hok
  unfold IntRecorder.flushStep
  split
  case isTrue hlock =>
    exact
      { h with
        all := by rw [← h.all, ha]; rfl
        once := by
          rw [← h.once]
          simp only [Batch.take, append_nil]
        word := .zero
        global := h.global.take h.word
        unborn := fun hno => absurd hno (by rw [hok.2]; decide)
        adderOk := hok
        pcOk := fun t => (h.pcOk t).of_lock
          (by simp only [hlock, ne_eq, reduceCtorEq, not_false_eq_true]) (prefix_refl _) }
  case isFalse => exact h

theorem Inv.goAdder (h : Inv s) (ok : Bool) : Inv (goAdder s ok) := by
  cases ha : s.adder with
  | idle =>
    simp only [IntRecorder.goAdder, ha]
    exact h
  | append sample =>
    simp only [IntRecorder.goAdder, ha]
    exact h.appendStep ha
  | load sample =>
    simp only [IntRecorder.goAdder, ha]
    have hok := h.adderOk
    rw [ha] at hok
    exact h.goes (by rw [ha]; rfl) hok
  | cas sample n =>
    simp only [IntRecorder.goAdder, ha]
    exact h.casStep ha ok
  | flush sample =>
    simp only [IntRecorder.goAdder, ha]
    exact h.flushStep ha

end

/-! ## What the other threads do -/

variable {t : ι} {reset : Bool}

theorem State.goto_same (s : State ι) (t : ι) (p : Pc) : (s.goto t p).pc t = p :=
  update_self _ _ _

theorem State.goto_other (s : State ι) {t u : ι} (h : u ≠ t) (p : Pc) : (s.goto t p).pc u = s.pc u :=
  update_of_ne h _ _

/-- All threads after a step of thread `t`, when the others do not hold the lock. -/
theorem Inv.pcOk_goto (h : Inv s) {s' : State ι} {p : Pc} (hpc : s'.pc = update s.pc t p)
    (ht : PcOk s' t p) (hlock : ∀ u, u ≠ t → s.lock ≠ some u) (hadded : s'.added = s.added) (u : ι) :
    PcOk s' u (s'.pc u) := by
  rw [hpc]
  by_cases hut : u = t
  · rw [hut, update_self]
    exact ht
  · rw [update_of_ne hut]
    exact (h.pcOk u).of_lock (hlock u hut) (hadded ▸ prefix_refl _)

theorem Inv.call (h : Inv s) (reset : Bool) : Inv (s.goto t (.lock reset s.added.length)) :=
  { h with
    pcOk := fun u => by
      by_cases hut : u = t
      · rw [hut, State.goto_same]
        exact le_rfl
      · rw [State.goto_other s hut]
        exact (h.pcOk u).mono (prefix_refl _) rfl rfl rfl rfl }

theorem Inv.lockStep (h : Inv s) {start : ℕ} (hpc : s.pc t = .lock reset start) :
    Inv (lockStep s t reset start) := by
  have hok := h.pcOk t
  rw [hpc] at hok
  simp only [IntRecorder.lockStep]
  split
  case isFalse => exact h
  case isTrue hlock =>
    have hfree : ∀ u, u ≠ t → s.lock ≠ some u := fun u _ =>
      by rw [hlock]; exact (Option.some_ne_none u).symm
    have htransit := h.settled hlock
    cases reset with
    | false =>
      exact
        { h with
          settled := fun hl => absurd hl (Option.some_ne_none t)
          pcOk := h.pcOk_goto rfl ⟨rfl, hok, h.global, rfl, htransit⟩ hfree rfl }
    | true =>
      exact
        { h with
          once := by
            rw [← h.once, htransit]
            rfl
          settled := fun hl => absurd hl (Option.some_ne_none t)
          global := .zero
          unborn := fun hno => ⟨(h.unborn hno).1, rfl⟩
          pcOk := h.pcOk_goto rfl ⟨rfl, hok, h.global, rfl, rfl⟩ hfree rfl }

omit [DecidableEq ι] in
theorem others_of_lock (hlock : s.lock = some t) : ∀ u, u ≠ t → s.lock ≠ some u := by
  intro u hut hl
  rw [hlock] at hl
  exact hut (Option.some.inj hl).symm

omit [DecidableEq ι] in
/-- What is there when the agent is visited are all samples that no earlier reset returned. -/
theorem Inv.visited (h : Inv s) {start : ℕ} (hpc : s.pc t = .visit reset start ret) :
    handedOut s.results ++ (ret.samples ++ s.samples) = s.added := by
  obtain ⟨-, -, -, hcase⟩ := hpc ▸ h.pcOk t
  rw [← h.once]
  cases reset with
  | false =>
    obtain ⟨hglobal, htransit⟩ := hcase
    rw [htransit, hglobal]
    rfl
  | true =>
    obtain ⟨hglobal, htransit⟩ := hcase
    rw [htransit, hglobal]
    rfl

theorem Inv.visitStep (h : Inv s) {start : ℕ} (hpc : s.pc t = .visit reset start ret) :
    Inv (visitStep s t reset start ret) := by
  have hvisited := h.visited hpc
  obtain ⟨hlock, hstart, hret, hcase⟩ := hpc ▸ h.pcOk t
  have hothers := others_of_lock hlock
  simp only [IntRecorder.visitStep]
  split
  case isTrue =>
    have hnew := hret.take h.word
    cases reset with
    | false =>
      refine { h with pcOk := h.pcOk_goto rfl ⟨hlock, hnew, ?_, ?_, hcase.2⟩ hothers rfl }
      · show start ≤ (handedOut s.results ++ (ret.samples ++ s.samples)).length
        rw [hvisited]
        exact hstart
      · show handedOut s.results ++ (ret.samples ++ s.samples) <+: s.added
        rw [hvisited]
    | true =>
      refine
        { h with
          once := ?_
          settled := fun hl => absurd (hlock.symm.trans hl) (Option.some_ne_none t)
          word := .zero
          unborn := fun hno => ⟨rfl, (h.unborn hno).2⟩
          pcOk := h.pcOk_goto rfl ⟨hlock, hnew, ?_, ?_, rfl⟩ hothers rfl }
      · show handedOut s.results ++ (ret.samples ++ s.samples ++ (s.globalResult.samples ++ [])) = s.added
        rw [hcase.1, ← hvisited]
        exact congrArg _ (append_nil _)
      · show start ≤ (handedOut s.results ++ (ret.samples ++ s.samples)).length
        rw [hvisited]
        exact hstart
      · show handedOut s.results ++ (ret.samples ++ s.samples) <+: s.added
        rw [hvisited]
  case isFalse hagents =>
    rw [(h.unborn (Bool.eq_false_iff.2 hagents)).1, append_nil] at hvisited
    refine { h with pcOk := h.pcOk_goto rfl ⟨hlock, hret, ?_, ?_, ?_⟩ hothers rfl }
    · show start ≤ (handedOut s.results ++ ret.samples).length
      rw [hvisited]
      exact hstart
    · show handedOut s.results ++ ret.samples <+: s.added
      rw [hvisited]
    · cases reset with
      | false => exact hcase.2
      | true => exact hcase.2

theorem Inv.finishStep (h : Inv s) {start : ℕ} (hpc : s.pc t = .finish reset start ret) :
    Inv (finishStep s t reset start ret) := by
  obtain ⟨hlock, hret, hstart, hpre, hcase⟩ := hpc ▸ h.pcOk t
  have hothers := others_of_lock hlock
  have honce := h.once
  refine
    { h with
      once := ?_
      settled := fun _ => rfl
      covered := ?_
      pcOk := h.pcOk_goto rfl trivial hothers rfl }
  · cases reset with
    | false =>
      rw [show s.transit = [] from hcase] at honce
      exact honce
    | true =>
      rw [show s.transit = ret.samples from hcase, ← append_assoc] at honce
      exact honce
  · intro r rs hr
    rcases suffix_cons_iff.1 hr with heq | hr
    · obtain ⟨rfl, rfl⟩ := cons_eq_cons.1 heq
      exact ⟨hret, hpre, hstart, hpre.length_le⟩
    · exact h.covered r rs hr

theorem Inv.goStep (h : Inv s) : Inv (goStep s t) := by
  unfold IntRecorder.goStep
  split
  case h_1 => exact h
  case h_2 reset start hpc => exact h.lockStep hpc
  case h_3 reset start ret hpc => exact h.visitStep hpc
  case h_4 reset start ret hpc => exact h.finishStep hpc

theorem step_inv (s : State ι) (a : Act ι) (h : Inv s) : Inv (step s a) := by
  cases a with
  | add sample =>
    simp only [step]
    split
    case isTrue hidle => exact h.addStep hidle sample
    case isFalse => exact h
  | goAdder ok => exact h.goAdder ok
  | getValue t =>
    simp only [step]
    split
    · exact h.call false
    · exact h
  | reset t =>
    simp only [step]
    split
    · exact h.call true
    · exact h
  | go t => exact h.goStep

/-! ## The result -/

omit [DecidableEq ι] in
theorem State.value_exact (h : Inv s) : s.value.Exact := by
  unfold State.value
  split
  · exact h.global.take h.word
  · exact h.global

omit [DecidableEq ι] in
theorem State.value_samples (h : Inv s) : s.value.samples = s.globalResult.samples ++ s.samples := by
  unfold State.value
  split
  case isTrue => rfl
  case isFalse hagents => rw [(h.unborn (Bool.eq_false_iff.2 hagents)).1, append_nil]

theorem total_eq {results : List Result} (h : ∀ r ∈ results, r.batch.Exact) :
    total results = of (handedOut results) := by
  induction results with
  | nil => rfl
  | cons r rs ih =>
    have hrs := ih (fun r' hr' => h r' (mem_cons_of_mem _ hr'))
    have hr := h r mem_cons_self
    simp only [total, handedOut]
    split
    · rw [of_append, hrs, hr]
    · exact hrs

omit [DecidableEq ι] in
theorem Inv.exact (h : Inv s) : Exact s := by
  have honce : handedOut s.results ++ (s.transit ++ s.value.samples) = s.added := by
    rw [State.value_samples h]
    exact h.once
  have hresults : ∀ r ∈ s.results, r.batch.Exact := by
    intro r hr
    obtain ⟨l, rs, hl⟩ := append_of_mem hr
    exact (h.covered r rs (hl ▸ suffix_append l _)).exact
  have haltogether : s.altogether = .of s.added := by
    rw [State.altogether, total_eq hresults, State.value_exact h, ← of_append, ← of_append, honce]
  refine
    { all := h.all
      once := honce
      settled := h.settled
      word := h.word
      value := State.value_exact h
      covered := h.covered
      altogether := haltogether
      fits := ?_
      parts := ?_ }
  · intro hfits
    rw [haltogether]
    exact toInt_of hfits
  · intro r hr hfits
    rw [hresults r hr]
    exact toInt_of hfits

/-- Whatever the samples, the interleaving of the threads and the failures of
`compare_exchange_weak`, the results of the resets and the current value are exact, and the word
keeps its fields apart. -/
theorem run_addsUp (as : List (Act ι)) : Exact (runFrom step (start ι) as) :=
  (Keeps.run (I := Inv) step_inv Inv.init as).exact

end Eabase.Var.IntRecorder
