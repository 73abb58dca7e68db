import Eabase.Fiber.TimerThread
import Eabase.Utility.Time

/-!
# Deadlines

A deadline is a `timespec`, and its microseconds go through nanoseconds in a word
of 64 bits. `schedule` stores them, `butex_wait` and `wait_pthread` compare them
with the clock before they wait, `usleep` makes a deadline from the clock and
schedules it.

Deadlines whose nanoseconds fit are never early. Later ones wrap round and are:
a sleep of `UINT64_MAX` microseconds ends before it begins.
-/

namespace Eabase.Fiber.Deadline

open Fiber.TimerThread Utility.Time

variable {n : ℕ} {ι : Type*} [DecidableEq ι]

def MIN_SLEEP_US : ℤ := 2

/-- `TimerThread::schedule` up to its section, in the slot and the bucket that it gets. -/
def scheduleAt (s : TimerThread.State n ι) (i : ι) (slot : ℕ) (b : Fin n) (abstime : Timespec) :
    TimerThread.State n ι :=
  schedule s i slot b (timespecToMicroseconds abstime)

/-- How a wait begins: it returns with an error, or it sleeps, a pthread for `timeout`. -/
inductive Begins where
  | ewouldblock
  | eintr
  | etimedout
  | sleeps (timeout : Option Timespec)
  deriving DecidableEq

/-- `butex_wait` of a fiber, when the clock shows `now`. -/
def butexWait (value expectedValue : ℤ) (abstime : Option Timespec) (now : Timeval) : Begins :=
  if value ≠ expectedValue then .ewouldblock
  else
    match abstime with
    | none => .sleeps none
    | some t =>
      if timespecToMicroseconds t < int64 (gettimeofdayUs now + MIN_SLEEP_US) then .etimedout
        else .sleeps none

/-- One turn of the loop of `wait_pthread`. -/
def waitPthread (abstime : Option Timespec) (now : Timeval) : Begins :=
  match abstime with
  | none => .sleeps none
  | some t =>
    let timeoutUs := int64 (timespecToMicroseconds t - gettimeofdayUs now)
    if timeoutUs > MIN_SLEEP_US then .sleeps (some (microsecondsToTimespec timeoutUs)) else .etimedout

def butexWaitFromPthread (value expectedValue : ℤ) (interrupted : Bool) (abstime : Option Timespec)
    (now : Timeval) :
    Begins :=
  if value ≠ expectedValue then .ewouldblock
  else if interrupted then .eintr
  else waitPthread abstime now

/-- The deadline of `usleep`, whose `uint64_t` becomes an `int64_t`; without microseconds it
yields. -/
def usleepUntil (timeoutUs : ℕ) (now : Timespec) : Option Timespec :=
  if timeoutUs = 0 then none else some (microsecondsFromNow now (int64 timeoutUs))

/-! ## The property -/

/-- `tv_sec` is a word and not negative, `tv_nsec` is less than a second. -/
structure Proper (ts : Timespec) : Prop where
  sec_nonneg : 0 ≤ ts.sec
  sec_lt : ts.sec < 2 ^ 63
  nsec_nonneg : 0 ≤ ts.nsec
  nsec_lt : ts.nsec < 1000000000

instance (ts : Timespec) : Decidable (Proper ts) :=
  decidable_of_iff (0 ≤ ts.sec ∧ ts.sec < 2 ^ 63 ∧ 0 ≤ ts.nsec ∧ ts.nsec < 1000000000)
    ⟨fun ⟨h1, h2, h3, h4⟩ => ⟨h1, h2, h3, h4⟩, fun ⟨h1, h2, h3, h4⟩ => ⟨h1, h2, h3, h4⟩⟩

/-- What `gettimeofday` says at that time. -/
def timeval (now : Timespec) : Timeval :=
  ⟨now.sec, now.nsec / 1000⟩

/-- The task in the slot is not to run before the microsecond of `t` nanoseconds. -/
def StoredNotBefore (s : TimerThread.State n ι) (slot : ℕ) (t : ℤ) : Prop :=
  t / 1000 ≤ (s.tasks slot).runTime

/-- `butex_wait` says that a deadline is over only if it is less than 2 microseconds ahead. -/
def WaitsLongEnough (abstime now : Timespec) : Prop :=
  ∀ value expectedValue, butexWait value expectedValue (some abstime) (timeval now) = .etimedout →
    abstime.total < now.total + 2000

/-- A pthread says so only if it is less than 3 microseconds ahead. -/
def PthreadWaitsLongEnough (abstime now : Timespec) : Prop :=
  ∀ value expectedValue interrupted,
    butexWaitFromPthread value expectedValue interrupted (some abstime) (timeval now) = .etimedout →
      abstime.total < now.total + 3000

/-- The timer of `usleep` is not before now plus the microseconds. -/
def SleepsLongEnough (s : TimerThread.State n ι) (i : ι) (slot : ℕ) (b : Fin n) (timeoutUs : ℕ)
    (now : Timespec) :
    Prop :=
  ∀ abstime ∈ usleepUntil timeoutUs now, now.total + timeoutUs * 1000 ≤ abstime.total ∧
    StoredNotBefore (scheduleAt s i slot b abstime) slot (now.total + timeoutUs * 1000)

/-! ## When it holds -/

variable {s : TimerThread.State n ι} {i : ι} {slot : ℕ} {b : Fin n} {abstime now : Timespec}
    {timeoutUs : ℕ}

theorem Proper.total_nonneg (h : Proper abstime) : 0 ≤ abstime.total := by
  obtain ⟨hsec, _, hnsec, _⟩ := h
  rw [Timespec.total]
  lia

theorem scheduleAt_runTime (s : TimerThread.State n ι) (i : ι) (slot : ℕ) (b : Fin n)
    (abstime : Timespec) :
    ((scheduleAt s i slot b abstime).tasks slot).runTime = timespecToMicroseconds abstime := by
  show (Function.update s.tasks slot _ slot).runTime = _
  rw [Function.update_self]

/-- The deadline is stored right when the nanoseconds `t` that it stands for fit. -/
theorem storedNotBefore_iff {t : ℤ} (ht : 0 ≤ t) (hword : int64 abstime.total = int64 t) :
    StoredNotBefore (scheduleAt s i slot b abstime) slot t ↔ t < 2 ^ 63 := by
  rw [StoredNotBefore, scheduleAt_runTime]
  constructor
  · intro hle
    by_contra hbig
    have hlt := timespecToMicroseconds_lt (not_lt.1 hbig) hword
    lia
  · intro hfit
    rw [timespecToMicroseconds, timespecToNanoseconds_eq, hword, int64_eq (by lia) hfit,
      Int.tdiv_eq_ediv_of_nonneg ht]

theorem gettimeofdayUs_eq (hnow : Proper now) (hsec : now.sec < 2 ^ 33) :
    gettimeofdayUs (timeval now) = now.total / 1000 := by
  obtain ⟨hpos, _, hnsec, hlt⟩ := hnow
  show int64 (int64 (now.sec * 1000000) + now.nsec / 1000) = _
  rw [int64_int64_add, int64_eq (by lia) (by lia), Timespec.total]
  lia

theorem now_total_lt (hnow : Proper now) (hsec : now.sec < 2 ^ 33) : now.total < 2 ^ 63 - 2 ^ 58 := by
  have hlt := hnow.nsec_lt
  rw [Timespec.total]
  lia

section

variable (habs : Proper abstime) (hnow : Proper now) (hsec : now.sec < 2 ^ 33)
include habs hnow hsec

/-- A clock comparison with a margin of `m` microseconds is right when the deadline fits, or is seen
too late by chance. -/
theorem early_iff {m : ℤ} (hm : 0 < m)
    (hm' : m < 1000000) :
    (timespecToMicroseconds abstime < now.total / 1000 + m → abstime.total < now.total + m * 1000) ↔
      (abstime.total < 2 ^ 63 ∨ (now.total / 1000 + m) * 1000 ≤ int64 abstime.total) := by
  have hpos := habs.total_nonneg
  have hclock := hnow.total_nonneg
  have hlate := now_total_lt hnow hsec
  have hle := @le_timespecToMicroseconds abstime (now.total / 1000 + m) (by lia)
  constructor
  · intro h
    by_contra hnot
    rw [not_or, not_lt, ← hle, not_le] at hnot
    have hlt := h hnot.2
    lia
  · rintro (hfit | hlate') hearly
    · rw [timespecToMicroseconds_eq hpos hfit] at hearly
      lia
    · exact absurd (hle.2 hlate') (not_le.2 hearly)

theorem waitsLongEnough_iff :
    WaitsLongEnough abstime now ↔
      (abstime.total < 2 ^ 63 ∨ (now.total / 1000 + 2) * 1000 ≤ int64 abstime.total) := by
  have hclock := hnow.total_nonneg
  have hlate := now_total_lt hnow hsec
  have hdue : int64 (gettimeofdayUs (timeval now) + MIN_SLEEP_US) = now.total / 1000 + 2 := by
    rw [gettimeofdayUs_eq hnow hsec, MIN_SLEEP_US, int64_eq (by lia) (by lia)]
  rw [← early_iff habs hnow hsec (by decide) (by decide), WaitsLongEnough, ← hdue]
  constructor
  · intro h hearly
    apply h 0 0
    rw [butexWait, if_neg (not_not.2 rfl)]
    exact if_pos hearly
  · intro h value expectedValue htimedout
    apply h
    rw [butexWait] at htimedout
    split at htimedout
    · cases htimedout
    · split at htimedout
      case isTrue hearly => exact hearly
      case isFalse => cases htimedout

theorem pthreadWaitsLongEnough_iff :
    PthreadWaitsLongEnough abstime now ↔
      (abstime.total < 2 ^ 63 ∨ (now.total / 1000 + 3) * 1000 ≤ int64 abstime.total) := by
  have hclock := hnow.total_nonneg
  have hlate := now_total_lt hnow hsec
  have hb := timespecToMicroseconds_bounds abstime
  have hleft : int64 (timespecToMicroseconds abstime - gettimeofdayUs (timeval now)) =
      timespecToMicroseconds abstime - now.total / 1000 := by
    rw [gettimeofdayUs_eq hnow hsec, int64_eq (by lia) (by lia)]
  have hdue : ¬timespecToMicroseconds abstime - now.total / 1000 > MIN_SLEEP_US ↔
      timespecToMicroseconds abstime < now.total / 1000 + 3 := by
    rw [MIN_SLEEP_US]
    lia
  rw [← early_iff habs hnow hsec (by decide) (by decide), PthreadWaitsLongEnough, ← hdue, ← hleft]
  constructor
  · intro h hearly
    apply h 0 0 false
    rw [butexWaitFromPthread, if_neg (not_not.2 rfl), if_neg nofun]
    exact if_neg hearly
  · intro h value expectedValue interrupted htimedout
    apply h
    rw [butexWaitFromPthread] at htimedout
    split at htimedout
    · cases htimedout
    · split at htimedout
      · cases htimedout
      · simp only [waitPthread] at htimedout
        split at htimedout
        case isTrue => cases htimedout
        case isFalse hearly => exact hearly

end

theorem usleepUntil_total (now : Timespec) (timeoutUs : ℕ) :
    int64 (microsecondsFromNow now (int64 timeoutUs)).total = int64 (now.total + timeoutUs * 1000) := by
  rw [microsecondsFromNow, nanosecondsFromNow, nanosecondsFrom_total, int64_int64_mul, int64_add_int64]

theorem sleepsLongEnough_iff (hnow : Proper now) (hsec : now.sec < 2 ^ 33) :
    SleepsLongEnough s i slot b timeoutUs now ↔ now.total + timeoutUs * 1000 < 2 ^ 63 := by
  have hclock := hnow.total_nonneg
  have hlate := now_total_lt hnow hsec
  have hstored : StoredNotBefore (scheduleAt s i slot b (microsecondsFromNow now (int64 timeoutUs))) slot
      (now.total + timeoutUs * 1000) ↔ now.total + timeoutUs * 1000 < 2 ^ 63 :=
    storedNotBefore_iff (by lia) (usleepUntil_total now timeoutUs)
  rw [SleepsLongEnough, usleepUntil]
  split
  case isTrue hzero =>
    subst hzero
    exact iff_of_true nofun (by lia)
  case isFalse hne =>
    constructor
    · intro h
      exact hstored.1 (h _ rfl).2
    · rintro hfit _ ⟨⟩
      refine ⟨?_, hstored.2 hfit⟩
      have hle : now.nsec ≤ now.total := by
        have := hnow.sec_nonneg
        rw [Timespec.total]
        lia
      rw [microsecondsFromNow, nanosecondsFromNow, int64_eq (x := timeoutUs) (by lia) (by lia),
        int64_eq (by lia) (by lia),
        nanosecondsFrom_eq ⟨hnow.sec_nonneg, hsec⟩ hnow.nsec_nonneg (by lia) (by lia)]

/-- **Deadlines are not early** exactly when their nanoseconds fit in a word; of those that do not
fit, the two waits also stand the ones whose word happens to lie ahead of the clock. -/
theorem deadlines_not_early_iff (s : TimerThread.State n ι) (i : ι) (slot : ℕ) (b : Fin n) (timeoutUs : ℕ)
    (habs : Proper abstime) (hnow : Proper now) (hsec : now.sec < 2 ^ 33) :
    (StoredNotBefore (scheduleAt s i slot b abstime) slot abstime.total ↔ abstime.total < 2 ^ 63) ∧
      (WaitsLongEnough abstime now ↔
        (abstime.total < 2 ^ 63 ∨ (now.total / 1000 + 2) * 1000 ≤ int64 abstime.total)) ∧
      (PthreadWaitsLongEnough abstime now ↔
        (abstime.total < 2 ^ 63 ∨ (now.total / 1000 + 3) * 1000 ≤ int64 abstime.total)) ∧
      (SleepsLongEnough s i slot b timeoutUs now ↔ now.total + timeoutUs * 1000 < 2 ^ 63) :=
  ⟨storedNotBefore_iff habs.total_nonneg rfl, waitsLongEnough_iff habs hnow hsec,
    pthreadWaitsLongEnough_iff habs hnow hsec, sleepsLongEnough_iff hnow hsec⟩

/-- A deadline one second ahead, and a sleep of one second. -/
theorem deadlines_not_early_second :
    StoredNotBefore (scheduleAt (TimerThread.start 1 Unit) () 0 0 ⟨1700000001, 0⟩) 0 1700000001000000000 ∧
      WaitsLongEnough ⟨1700000001, 0⟩ ⟨1700000000, 0⟩ ∧
      PthreadWaitsLongEnough ⟨1700000001, 0⟩ ⟨1700000000, 0⟩ ∧
      SleepsLongEnough (TimerThread.start 1 Unit) () 0 0 1000000 ⟨1700000000, 0⟩ := by
  obtain ⟨hstored, hwait, hpthread, hsleep⟩ :=
    deadlines_not_early_iff (TimerThread.start 1 Unit) () 0 0 1000000
      (show Proper ⟨1700000001, 0⟩ by decide) (show Proper ⟨1700000000, 0⟩ by decide) (by decide)
  exact ⟨hstored.2 (by decide), hwait.2 (by decide), hpthread.2 (by decide), hsleep.2 (by decide)⟩

/-- The last second of a `time_t` is scheduled for a second before 1970, and nobody waits for it; a
sleep of `UINT64_MAX` microseconds ends a microsecond before it begins. -/
theorem unlimited_is_early :
    ¬StoredNotBefore (scheduleAt (TimerThread.start 1 Unit) () 0 0 ⟨2 ^ 63 - 1, 0⟩) 0
    ((2 ^ 63 - 1) * 1000000000) ∧
      ¬WaitsLongEnough ⟨2 ^ 63 - 1, 0⟩ ⟨1700000000, 0⟩ ∧
      ¬PthreadWaitsLongEnough ⟨2 ^ 63 - 1, 0⟩ ⟨1700000000, 0⟩ ∧
      ¬SleepsLongEnough (TimerThread.start 1 Unit) () 0 0 (2 ^ 64 - 1) ⟨1700000000, 0⟩ := by
  refine ⟨?_, ?_, ?_, ?_⟩
  · exact mt (storedNotBefore_iff (by decide) (by decide)).1 (by decide)
  · exact mt (waitsLongEnough_iff (by decide) (by decide) (by decide)).1 (by decide)
  · exact mt (pthreadWaitsLongEnough_iff (by decide) (by decide) (by decide)).1 (by decide)
  · exact mt (sleepsLongEnough_iff (by decide) (by decide)).1 (by decide)

end Eabase.Fiber.Deadline
