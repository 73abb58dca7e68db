import Mathlib.Tactic.Ring

/-!
# Time

What `time.h` computes with `timespec`s, in signed words of 64 bits. A word that
overflows wraps round, so every function is right modulo `2 ^ 64`; it is right
as long as the nanoseconds fit, which they do until the year 2262.
-/

namespace Eabase.Utility.Time

/-- A number as an `int64_t`. -/
def int64 (x : ℤ) : ℤ := x.bmod (2 ^ 64)

/-- `tv_sec` and `tv_nsec`. -/
structure Timespec where
  sec : ℤ
  nsec : ℤ
  deriving DecidableEq

/-- `tv_sec` and `tv_usec`. -/
structure Timeval where
  sec : ℤ
  usec : ℤ
  deriving DecidableEq

def timespecNormalize (tm : Timespec) : Timespec :=
  if 1000000000 ≤ tm.nsec then
    let addedSec := tm.nsec.tdiv 1000000000
    ⟨int64 (tm.sec + addedSec), int64 (tm.nsec - int64 (addedSec * 1000000000))⟩
  else if tm.nsec < 0 then
    let subSec := (int64 (tm.nsec - 999999999)).tdiv 1000000000
    ⟨int64 (tm.sec + subSec), int64 (tm.nsec - int64 (subSec * 1000000000))⟩
  else tm

def nanosecondsFrom (startTime : Timespec) (nanoseconds : ℤ) : Timespec :=
  timespecNormalize { startTime with nsec := int64 (startTime.nsec + nanoseconds) }

/-- `nanoseconds_from_now`, when the clock shows `now`. -/
def nanosecondsFromNow (now : Timespec) (nanoseconds : ℤ) : Timespec :=
  nanosecondsFrom now nanoseconds

def microsecondsFromNow (now : Timespec) (microseconds : ℤ) : Timespec :=
  nanosecondsFromNow now (int64 (microseconds * 1000))

def timespecToNanoseconds (ts : Timespec) : ℤ :=
  int64 (int64 (ts.sec * 1000000000) + ts.nsec)

def timespecToMicroseconds (ts : Timespec) : ℤ :=
  (timespecToNanoseconds ts).tdiv 1000

def nanosecondsToTimespec (ns : ℤ) : Timespec :=
  let sec := ns.tdiv 1000000000
  ⟨sec, int64 (ns - int64 (sec * 1000000000))⟩

def microsecondsToTimespec (us : ℤ) : Timespec :=
  nanosecondsToTimespec (int64 (us * 1000))

/-- `gettimeofday_us`, when the clock shows `now`. -/
def gettimeofdayUs (now : Timeval) : ℤ :=
  int64 (int64 (now.sec * 1000000) + now.usec)

/-! ## Words -/

theorem int64_bounds (x : ℤ) : -2 ^ 63 ≤ int64 x ∧ int64 x < 2 ^ 63 := by
  constructor
  · exact Int.le_bmod (by decide)
  · exact Int.bmod_lt (by decide)

theorem int64_eq {x : ℤ} (hlow : -2 ^ 63 ≤ x) (hhigh : x < 2 ^ 63) : int64 x = x :=
  Int.bmod_eq_of_le hlow hhigh

/-- A number and its word are apart by a multiple of `2 ^ 64`. -/
theorem exists_int64 (x : ℤ) : ∃ k, x = int64 x + 2 ^ 64 * k :=
  ⟨x.bdiv (2 ^ 64), (Int.bmod_add_bdiv x (2 ^ 64)).symm⟩

@[simp] theorem int64_add_int64 (x y : ℤ) : int64 (x + int64 y) = int64 (x + y) :=
  Int.add_bmod_bmod

@[simp] theorem int64_int64_add (x y : ℤ) : int64 (int64 x + y) = int64 (x + y) :=
  Int.bmod_add_bmod

@[simp] theorem int64_sub_int64 (x y : ℤ) : int64 (x - int64 y) = int64 (x - y) :=
  Int.sub_bmod_bmod

@[simp] theorem int64_int64_mul (x y : ℤ) : int64 (int64 x * y) = int64 (x * y) :=
  Int.bmod_mul_bmod

/-! ## Nanoseconds -/

/-- The nanoseconds of a `timespec`, whether they fit or not. -/
def Timespec.total (ts : Timespec) : ℤ :=
  ts.sec * 1000000000 + ts.nsec

theorem timespecToNanoseconds_eq (ts : Timespec) : timespecToNanoseconds ts = int64 ts.total :=
  int64_int64_add ..

/-- Seconds that are moved between the two words leave the nanoseconds as they are, modulo `2 ^
64`. -/
theorem int64_carry (sec nsec n : ℤ) :
    int64 (Timespec.total ⟨int64 (sec + n), int64 (nsec - int64 (n * 1000000000))⟩) =
      int64 (Timespec.total ⟨sec, nsec⟩) := by
  calc int64 (int64 (sec + n) * 1000000000 + int64 (nsec - int64 (n * 1000000000)))
      = int64 (int64 (int64 (sec + n) * 1000000000) + (nsec - n * 1000000000)) := by
        rw [int64_sub_int64, int64_add_int64, int64_int64_add]
    _ = int64 ((sec + n) * 1000000000 + (nsec - n * 1000000000)) := by
        rw [int64_int64_mul, int64_int64_add]
    _ = int64 (sec * 1000000000 + nsec) := by
        congr 1
        ring

theorem timespecNormalize_total (tm : Timespec) : int64 (timespecNormalize tm).total
      = int64 tm.total := by
  unfold timespecNormalize
  split
  · exact int64_carry ..
  · split
    · exact int64_carry ..
    · rfl

/-- `nanoseconds_from` is right modulo `2 ^ 64`, whatever it overflows. -/
theorem nanosecondsFrom_total (t : Timespec) (n : ℤ) :
    int64 (nanosecondsFrom t n).total = int64 (t.total + n) := by
  rw [nanosecondsFrom, timespecNormalize_total, Timespec.total, int64_add_int64, Timespec.total,
    add_assoc]

theorem nanosecondsFrom_eq {t : Timespec} {n : ℤ} (hsec : 0 ≤ t.sec ∧ t.sec < 2 ^ 33)
    (hnsec : 0 ≤ t.nsec) (hn : 0 ≤ n) (hfit : t.nsec + n < 2 ^ 63) :
    (nanosecondsFrom t n).total = t.total + n := by
  have hword : int64 (t.nsec + n) = t.nsec + n := int64_eq (by lia) hfit
  rw [nanosecondsFrom, hword, timespecNormalize]
  simp only
  split
  case isTrue hbig =>
    have hdiv : (t.nsec + n).tdiv 1000000000 = (t.nsec + n) / 1000000000 :=
      Int.tdiv_eq_ediv_of_nonneg (by lia)
    rw [hdiv, int64_eq (by lia) (by lia), int64_eq (x := _ * _) (by lia) (by lia),
      int64_eq (by lia) (by lia)]
    simp only [Timespec.total]
    lia
  case isFalse hsmall =>
    rw [if_neg (by lia)]
    simp only [Timespec.total]
    lia

/-! ## Microseconds -/

theorem tdiv_nonpos {x : ℤ} (hx : x < 0) : x.tdiv 1000 ≤ 0 := by
  have hneg : 0 ≤ (-x).tdiv 1000 := Int.tdiv_nonneg (by lia) (by decide)
  rw [Int.neg_tdiv] at hneg
  lia

theorem timespecToMicroseconds_bounds (ts : Timespec) :
    -2 ^ 54 < timespecToMicroseconds ts ∧ timespecToMicroseconds ts < 2 ^ 54 := by
  have hb := int64_bounds ts.total
  have habs : (timespecToMicroseconds ts).natAbs = (int64 ts.total).natAbs / 1000 := by
    rw [timespecToMicroseconds, timespecToNanoseconds_eq, Int.natAbs_tdiv]
    rfl
  lia

variable {ts : Timespec}

theorem timespecToMicroseconds_eq (hpos : 0 ≤ ts.total) (hfit : ts.total < 2 ^ 63) :
    timespecToMicroseconds ts = ts.total / 1000 := by
  rw [timespecToMicroseconds, timespecToNanoseconds_eq, int64_eq (by lia) hfit]
  exact Int.tdiv_eq_ediv_of_nonneg hpos

theorem timespecToMicroseconds_lt {t : ℤ} (hbig : 2 ^ 63 ≤ t) (hts : int64 ts.total = int64 t) :
    timespecToMicroseconds ts < t / 1000 := by
  rw [timespecToMicroseconds, timespecToNanoseconds_eq, hts]
  obtain ⟨k, hk⟩ := exists_int64 t
  have hb := int64_bounds t
  by_cases hneg : int64 t < 0
  · have hle := tdiv_nonpos hneg
    lia
  · rw [Int.tdiv_eq_ediv_of_nonneg (by lia)]
    lia

/-- The microseconds reach `m` when the word of the nanoseconds does. -/
theorem le_timespecToMicroseconds {m : ℤ} (hm : 0 < m) :
    m ≤ timespecToMicroseconds ts ↔ m * 1000 ≤ int64 ts.total := by
  rw [timespecToMicroseconds, timespecToNanoseconds_eq]
  by_cases hneg : int64 ts.total < 0
  · have hle := tdiv_nonpos hneg
    lia
  · rw [Int.tdiv_eq_ediv_of_nonneg (by lia)]
    lia

end Eabase.Utility.Time
