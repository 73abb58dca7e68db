import Eabase.Lib.Machine

/-!
# Sleeping and interrupting

One fiber that sleeps again and again, or waits on a butex in between, with any
number of interrupters. Each `usleep` has a number; its remained function
`_add_sleep_event` runs on a worker of its own, schedules the timer and then
records the timer's id under the version lock. The timer task of a sleep is what
`Fiber.TimerTask` says about it: it is called at most once, and `unschedule`
takes it away only before that.

The fiber is suspended before `_add_sleep_event` starts, so the timer can fire
and the fiber can go on while the id is not yet recorded. `usleep` then takes
the missing id for a failure, and the late record is left behind. The rest of
the protocol is sound: that is what holds in runs where no timer fires between
the two steps of its `_add_sleep_event`.

The fiber lives throughout, so the version tests of the sections succeed, and
the timer thread is running, so that `schedule` gives an id.
-/

namespace Eabase.Fiber.Sleep

open Lib Function

variable {ι : Type*} [DecidableEq ι]

/-- Where the fiber stands. From `resumed` on it is back in `usleep`: the test of `current_sleep`,
the test of `interrupted` that follows it, the two writes and the test between them; from `waiting`
on in `butex_wait`: suspended, in the loop that takes `current_waiter` back, at the test and the
reset of `interrupted`. -/
inductive Sleeper where
  | running
  | sleeping
  | runnable
  | resumed
  | zeroSleep
  | clearSleep
  | test
  | clear
  | waiting
  | reclaim
  | waitTest
  | waitClear
  deriving DecidableEq

/-- The worker in `_add_sleep_event`: in front of `schedule`, of the section, of `unschedule`, of
`ready_to_run`. -/
inductive Recorder where
  | none
  | schedule
  | record
  | undo
  | wake
  | done
  deriving DecidableEq

/-- The timer task of a sleep. It is `firing` from the start of `ready_to_run_from_timer_thread`
until it has made the fiber runnable. -/
inductive Timer where
  | none
  | pending
  | firing
  | fired
  | done
  | cancelled
  deriving DecidableEq

/-- Where an interrupter stands: with what its section took (a waiter or not, a sleep or 0), in
front of `set_butex_waiter`, in front of `ready_to_run`. -/
inductive Interrupter where
  | idle
  | took (waiter : Bool) (sleep : ℕ)
  | putBack
  | wake (sleep : ℕ)
  deriving DecidableEq

inductive Errno where
  | EINTR
  | ESTOP
  deriving DecidableEq

/-- What a `usleep` returned: 0, or -1 with an errno. The number is that of the interruptions since
the flag was last reset. -/
inductive Outcome where
  | slept
  | failed (errno : Errno) (interruptions : ℕ)
  deriving DecidableEq

/-- The fields of the `TaskMeta`, the parties, and what is counted: the sleeps so far (their number
is their timer's id), how often the fiber was made runnable for each, the interruptions since the
flag was reset. `checkFailed` is the `CHECK` of `interrupt`. -/
structure State (ι : Type*) where
  interrupted : Bool
  stop : Bool
  currentWaiter : Bool
  currentSleep : ℕ
  fiber : Sleeper
  recorder : ℕ → Recorder
  timer : ℕ → Timer
  interrupter : ι → Interrupter
  sleeps : ℕ
  readied : ℕ → ℕ
  interruptions : ℕ
  outcomes : List Outcome
  checkFailed : Bool

/-- A fiber that runs and has neither slept nor been interrupted. -/
def start (ι : Type*) : State ι where
  interrupted := false
  stop := false
  currentWaiter := false
  currentSleep := 0
  fiber := .running
  recorder _ := .none
  timer _ := .none
  interrupter _ := .idle
  sleeps := 0
  readied _ := 0
  interruptions := 0
  outcomes := []
  checkFailed := false

/-- One label of a run. `wakeWaiter` is whatever ends the fiber's wait on its butex. -/
inductive Act (ι : Type*) where
  | usleep
  | wait
  | wakeWaiter
  | setStopped
  | fiber
  | recorder (k : ℕ)
  | timer (k : ℕ)
  | interrupt (i : ι)
  | go (i : ι)

section

variable (s : State ι)

def State.setRecorder (k : ℕ) (r : Recorder) : State ι :=
  { s with recorder := update s.recorder k r }

def State.setTimer (k : ℕ) (t : Timer) : State ι :=
  { s with timer := update s.timer k t }

def State.setInterrupter (i : ι) (c : Interrupter) : State ι :=
  { s with interrupter := update s.interrupter i c }

/-- `ready_to_run` of the fiber, on behalf of sleep `k`. -/
def State.ready (k : ℕ) : State ι :=
  { s with
    fiber := if s.fiber = .sleeping then .runnable else s.fiber
    readied := update s.readied k (s.readied k + 1) }

/-- The next step of the fiber inside `usleep` or `butex_wait`. -/
def fiberStep : State ι :=
  match s.fiber with
  | .running | .sleeping | .waiting => s
  | .runnable => { s with fiber := .resumed }
  | .resumed => { s with fiber := if s.currentSleep = 0 then .zeroSleep else .clearSleep }
  | .zeroSleep =>
    if s.interrupted then { s with fiber := .clearSleep }
    else { s with fiber := .running, outcomes := .failed .ESTOP s.interruptions :: s.outcomes }
  | .clearSleep => { s with currentSleep := 0, fiber := .test }
  | .test =>
    if s.interrupted then { s with fiber := .clear }
    else { s with fiber := .running, outcomes := .slept :: s.outcomes }
  | .clear =>
    { s with
      interrupted := false
      interruptions := 0
      fiber := .running
      outcomes := .failed (if s.stop then .ESTOP else .EINTR) s.interruptions :: s.outcomes }
  | .reclaim => if s.currentWaiter then { s with currentWaiter := false, fiber := .waitTest } else s
  | .waitTest => { s with fiber := if s.interrupted then .waitClear else .running }
  | .waitClear => { s with interrupted := false, interruptions := 0, fiber := .running }

/-- The next step of `_add_sleep_event` for sleep `k`. -/
def recorderStep (k : ℕ) : State ι :=
  match s.recorder k with
  | .none | .done => s
  | .schedule => (s.setTimer k .pending).setRecorder k .record
  | .record =>
    if s.interrupted then s.setRecorder k .undo
    else { s with currentSleep := k }.setRecorder k .done
  | .undo =>
    if s.timer k = .pending then (s.setTimer k .cancelled).setRecorder k .wake
    else s.setRecorder k .done
  | .wake => (s.ready k).setRecorder k .done

/-- The next step of the timer thread with the task of sleep `k`. -/
def timerStep (k : ℕ) : State ι :=
  match s.timer k with
  | .pending => s.setTimer k .firing
  | .firing => (s.ready k).setTimer k .fired
  | .fired => s.setTimer k .done
  | .none | .done | .cancelled => s

/-- `interrupt_and_consume_waiters`. -/
def interruptStep (i : ι) : State ι :=
  { s with
    currentWaiter := false
    currentSleep := 0
    interrupted := true
    interruptions := s.interruptions + 1 }.setInterrupter i (.took s.currentWaiter s.currentSleep)

/-- The rest of `interrupt`. The waiter is erased from its butex in between, which may wake the
fiber. -/
def goStep (i : ι) : State ι :=
  match s.interrupter i with
  | .idle => s
  | .took waiter sleep =>
    let s := { s with checkFailed := s.checkFailed || (waiter && sleep != 0) }
    if waiter then s.setInterrupter i .putBack
    else if sleep ≠ 0 ∧ s.timer sleep = .pending then
      (s.setTimer sleep .cancelled).setInterrupter i (.wake sleep)
    else s.setInterrupter i .idle
  | .putBack => { s with currentWaiter := true }.setInterrupter i .idle
  | .wake sleep => (s.ready sleep).setInterrupter i .idle

def step : Act ι → State ι
  | .usleep =>
    if s.fiber = .running then
      { s with fiber := .sleeping, sleeps := s.sleeps + 1 }.setRecorder (s.sleeps + 1) .schedule
    else s
  | .wait => if s.fiber = .running then { s with fiber := .waiting, currentWaiter := true } else s
  | .wakeWaiter => if s.fiber = .waiting then { s with fiber := .reclaim } else s
  | .setStopped => { s with stop := true }
  | .fiber => fiberStep s
  | .recorder k => recorderStep s k
  | .timer k => timerStep s k
  | .interrupt i => if s.interrupter i = .idle then interruptStep s i else s
  | .go i => goStep s i

end

/-! ## The property -/

/-- The fiber is suspended in sleep `k` and has not been made runnable. -/
def State.Asleep (s : State ι) (k : ℕ) : Prop := s.fiber = .sleeping ∧ s.sleeps = k

/-- Somebody will make the fiber runnable for sleep `k`: the timer, now or when it is scheduled, or
whoever has taken the task away from the timer. -/
def State.Due (s : State ι) (k : ℕ) : Prop :=
  s.recorder k = .schedule ∨ s.timer k = .pending ∨ s.timer k = .firing ∨ s.recorder k = .wake ∨
    ∃ i, s.interrupter i = .wake k

/-- The fiber is between the start of `usleep` and its reset of `current_sleep`. -/
def Sleeper.inSleep : Sleeper → Bool
  | .sleeping | .runnable | .resumed | .zeroSleep | .clearSleep => true
  | _ => false

structure Agrees (s : State ι) : Prop where
  /-- the fiber is made runnable exactly once for every sleep: once for those it is back from, and
  not yet but soon for the one it is in -/
  readied : ∀ k, 0 < k → k ≤ s.sleeps →
    (s.Asleep k ∧ s.readied k = 0 ∧ s.Due k) ∨ (¬ s.Asleep k ∧ s.readied k = 1)
  /-- `usleep` fails only if there was an interruption -/
  outcomes : ∀ e n, .failed e n ∈ s.outcomes → 0 < n
  /-- `current_sleep` is the id of the sleep in progress or 0 -/
  currentSleep : s.currentSleep ≠ 0 → s.currentSleep = s.sleeps ∧ s.fiber.inSleep = true
  /-- a fiber has not both a sleep and a waiter -/
  check : s.checkFailed = false

/-- The condition on a step: no timer starts to fire between the two steps of `_add_sleep_event`. -/
def Heeds (s : State ι) : Act ι → Prop
  | .timer k => s.timer k = .pending → s.recorder k ≠ .record
  | _ => True

instance (s : State ι) : ∀ a, Decidable (Heeds s a)
  | .timer k => inferInstanceAs (Decidable (s.timer k = .pending → s.recorder k ≠ .record))
  | .usleep | .wait | .wakeWaiter | .setStopped | .fiber | .recorder _ | .interrupt _ | .go _ =>
    isTrue trivial

/-! ## The invariant -/

/-- The parties of sleep `k`. At most one of them makes the fiber runnable. -/
structure SleepOk (s : State ι) (k : ℕ) : Prop where
  unused : s.recorder k = .none → s.timer k = .none
  schedule : s.recorder k = .schedule → s.Asleep k ∧ s.timer k = .none
  record : s.recorder k = .record → s.timer k = .pending
  undo : s.recorder k = .undo → s.timer k ≠ .none
  wake : s.recorder k = .wake →
    s.Asleep k ∧ s.timer k = .cancelled ∧ ∀ i, s.interrupter i ≠ .wake k
  pending : s.timer k = .pending → s.Asleep k
  firing : s.timer k = .firing → s.Asleep k ∧ (s.recorder k = .undo ∨ s.recorder k = .done)
  taken : ∀ i, s.interrupter i = .wake k → s.Asleep k ∧ s.timer k = .cancelled
  takenBy : ∀ i j, s.interrupter i = .wake k → s.interrupter j = .wake k → i = j
  known : ∀ i w, s.interrupter i = .took w k ∨ s.interrupter i = .wake k →
    k ≠ 0 → s.recorder k = .done
  due : s.Asleep k → s.Due k
  readied : 0 < k → k ≤ s.sleeps → (s.Asleep k ∧ s.readied k = 0) ∨ (¬ s.Asleep k ∧ s.readied k = 1)
  future : s.sleeps < k ∨ k = 0 → s.recorder k = .none ∧ s.timer k = .none ∧ s.readied k = 0

def Interrupter.holds : Interrupter → Bool
  | .took waiter _ => waiter
  | .putBack => true
  | _ => false

/-- There is no waiter, neither in `current_waiter` nor with an interrupter. -/
def State.NoWaiter (s : State ι) : Prop :=
  s.currentWaiter = false ∧ ∀ i, (s.interrupter i).holds = false

def State.OneWaiter (s : State ι) : Prop :=
  (s.currentWaiter = true → ∀ i, (s.interrupter i).holds = false) ∧
    ∀ i j, (s.interrupter i).holds = true → (s.interrupter j).holds = true → i = j

/-- The timer's id is in `current_sleep`. -/
def State.Recorded (s : State ι) : Prop :=
  s.currentSleep = s.sleeps ∧ s.recorder s.sleeps = .done

/-- What a fiber that comes back from its sleep relies on: the id is there, or it was
interrupted. -/
def State.Noted (s : State ι) : Prop :=
  s.Recorded ∨ (s.currentSleep = 0 ∧ s.interrupted = true)

def Recorder.past : Recorder → Bool
  | .undo | .wake | .done => true
  | _ => false

/-- What holds of the `TaskMeta`, by where the fiber is. -/
def State.FiberOk (s : State ι) : Sleeper → Prop
  | .running | .test | .waitTest | .waitClear => s.NoWaiter ∧ s.currentSleep = 0
  | .clear => s.NoWaiter ∧ s.currentSleep = 0 ∧ s.interrupted = true
  | .sleeping => s.NoWaiter ∧ 0 < s.sleeps ∧
      (((s.recorder s.sleeps).past = false ∧ s.currentSleep = 0) ∨ s.Noted)
  | .runnable | .resumed => s.NoWaiter ∧ 0 < s.sleeps ∧ s.Noted
  | .zeroSleep => s.NoWaiter ∧ 0 < s.sleeps ∧ s.currentSleep = 0 ∧ s.interrupted = true
  | .clearSleep => s.NoWaiter ∧ 0 < s.sleeps ∧ (s.currentSleep = 0 ∨ s.Recorded)
  | .waiting | .reclaim => s.OneWaiter ∧ s.currentSleep = 0

structure Inv (s : State ι) : Prop where
  sleep : ∀ k, SleepOk s k
  fiber : s.FiberOk s.fiber
  flag : s.interrupted = true ↔ 0 < s.interruptions
  apart : ∀ i sleep, s.interrupter i = .took true sleep → sleep = 0
  outcomes : ∀ e n, .failed e n ∈ s.outcomes → 0 < n
  check : s.checkFailed = false

omit [DecidableEq ι] in
theorem start_inv : Inv (start ι) := by
  refine ⟨?_, ⟨⟨rfl, fun _ => rfl⟩, rfl⟩, by simp [start], ?_, ?_, rfl⟩
  · intro k
    constructor <;> simp [start, State.Asleep]
    lia
  · intro i sleep hi
    cases hi
  · intro e n hn
    cases hn

omit [DecidableEq ι] in
theorem Inv.currentSleep {s : State ι} (h : Inv s) (hne : s.currentSleep ≠ 0) :
    s.currentSleep = s.sleeps ∧ s.recorder s.sleeps = .done ∧ s.fiber.inSleep = true := by
  have hf := h.fiber
  cases hpc : s.fiber with
  | running | test | waitTest | waitClear | clear | zeroSleep | waiting | reclaim =>
    rw [hpc] at hf
    simp_all [State.FiberOk]
  | sleeping | runnable | resumed | clearSleep =>
    rw [hpc] at hf
    simp_all [State.FiberOk, State.Noted, State.Recorded, Sleeper.inSleep]

open State

omit [DecidableEq ι] in
theorem Inv.agrees {s : State ι} (h : Inv s) : Agrees s where
  readied k hpos hle := by
    rcases (h.sleep k).readied hpos hle with ⟨ha, hr⟩ | hr
    · exact .inl ⟨ha, hr, (h.sleep k).due ha⟩
    · exact .inr hr
  outcomes := h.outcomes
  currentSleep hne := ⟨(h.currentSleep hne).1, (h.currentSleep hne).2.2⟩
  check := h.check

section Steps

variable {s s' : State ι} {i : ι} {k : ℕ} {c : Interrupter}

section

omit [DecidableEq ι]

theorem SleepOk.congr (h : SleepOk s k) (hr : s'.recorder k = s.recorder k)
    (ht : s'.timer k = s.timer k) (hn : s'.readied k = s.readied k)
    (ha : s'.Asleep k ↔ s.Asleep k) (hsl : k ≤ s'.sleeps → k ≤ s.sleeps)
    (hsl' : s'.sleeps < k → s.sleeps < k)
    (hw : ∀ i, s'.interrupter i = .wake k ↔ s.interrupter i = .wake k)
    (htook : ∀ i w, s'.interrupter i = .took w k → k ≠ 0 →
      s.interrupter i = .took w k ∨ s.recorder k = .done) : SleepOk s' k := by
  constructor
  · rw [hr, ht]
    exact h.unused
  · rw [hr, ht, ha]
    exact h.schedule
  · rw [hr, ht]
    exact h.record
  · rw [hr, ht]
    exact h.undo
  · rw [hr, ht, ha]
    simp only [ne_eq, hw]
    exact h.wake
  · rw [ht, ha]
    exact h.pending
  · rw [ht, ha, hr]
    exact h.firing
  · simp only [hw, ha, ht]
    exact h.taken
  · simp only [hw]
    exact h.takenBy
  · rw [hr]
    rintro i w (hi | hi) hk
    · rcases htook i w hi hk with hi | hd
      · exact h.known i w (.inl hi) hk
      · exact hd
    · exact h.known i w (.inr ((hw i).1 hi)) hk
  · simp only [State.Due, hr, ht, hw, ha]
    exact h.due
  · rw [ha, hn]
    exact fun hpos hle => h.readied hpos (hsl hle)
  · rw [hr, ht, hn]
    rintro (hlt | hz)
    · exact h.future (.inl (hsl' hlt))
    · exact h.future (.inr hz)

theorem SleepOk.awake (h : SleepOk s k) (hf : s.fiber ≠ .sleeping) (hf' : s'.fiber ≠ .sleeping)
    (hr : s'.recorder = s.recorder) (ht : s'.timer = s.timer) (hn : s'.readied = s.readied)
    (hsl : s'.sleeps = s.sleeps) (hi : s'.interrupter = s.interrupter) : SleepOk s' k := by
  refine h.congr (by rw [hr]) (by rw [ht]) (by rw [hn]) ?_ (by rw [hsl]; exact id)
    (by rw [hsl]; exact id) (fun i => by rw [hi]) (fun i w hw _ => .inl (by rw [← hi]; exact hw))
  simp [State.Asleep, hf, hf']

theorem Inv.awake (h : Inv s) (hf : s.fiber ≠ .sleeping) (hf' : s'.fiber ≠ .sleeping)
    (hr : s'.recorder = s.recorder) (ht : s'.timer = s.timer) (hn : s'.readied = s.readied)
    (hsl : s'.sleeps = s.sleeps) (hi : s'.interrupter = s.interrupter)
    (hok : s'.FiberOk s'.fiber) (hflag : s'.interrupted = true ↔ 0 < s'.interruptions)
    (hout : ∀ e n, .failed e n ∈ s'.outcomes → .failed e n ∈ s.outcomes ∨ 0 < n)
    (hcheck : s'.checkFailed = s.checkFailed) : Inv s' := by
  refine ⟨fun k => (h.sleep k).awake hf hf' hr ht hn hsl hi, hok, hflag, ?_, ?_, ?_⟩
  · rw [hi]
    exact h.apart
  · intro e n hmem
    rcases hout e n hmem with hmem | hpos
    · exact h.outcomes e n hmem
    · exact hpos
  · rw [hcheck]
    exact h.check

theorem fiberStep_inv (h : Inv s) : Inv (fiberStep s) := by
  have hf := h.fiber
  unfold fiberStep
  split
  · exact h
  · exact h
  · exact h
  next hpc =>
    rw [hpc] at hf
    exact h.awake (by simp [hpc]) (by simp) rfl rfl rfl rfl rfl hf h.flag (fun _ _ => .inl) rfl
  next hpc =>
    rw [hpc] at hf
    obtain ⟨hw, hpos, hnoted⟩ := hf
    -- an id that is missing was taken by an interrupter
    split
    next hzero =>
      have hint : s.interrupted = true := by
        rcases hnoted with ⟨heq, -⟩ | ⟨-, hi⟩
        · lia
        · exact hi
      exact h.awake (by simp [hpc]) (by simp) rfl rfl rfl rfl rfl ⟨hw, hpos, hzero, hint⟩ h.flag
        (fun _ _ => .inl) rfl
    next hne =>
      have hrec : s.Recorded := hnoted.resolve_right fun hz => hne hz.1
      exact h.awake (by simp [hpc]) (by simp) rfl rfl rfl rfl rfl ⟨hw, hpos, .inr hrec⟩ h.flag
        (fun _ _ => .inl) rfl
  next hpc =>
    rw [hpc] at hf
    obtain ⟨hw, hpos, hzero, hint⟩ := hf
    rw [if_pos hint]
    exact h.awake (by simp [hpc]) (by simp) rfl rfl rfl rfl rfl ⟨hw, hpos, .inl hzero⟩ h.flag
      (fun _ _ => .inl) rfl
  next hpc =>
    rw [hpc] at hf
    exact h.awake (by simp [hpc]) (by simp) rfl rfl rfl rfl rfl ⟨hf.1, rfl⟩ h.flag
      (fun _ _ => .inl) rfl
  next hpc =>
    rw [hpc] at hf
    split
    next hint =>
      exact h.awake (by simp [hpc]) (by simp) rfl rfl rfl rfl rfl ⟨hf.1, hf.2, hint⟩ h.flag
        (fun _ _ => .inl) rfl
    · refine h.awake (by simp [hpc]) (by simp) rfl rfl rfl rfl rfl hf h.flag ?_ rfl
      intro e n hmem
      exact .inl (by simpa using hmem)
  next hpc =>
    rw [hpc] at hf
    obtain ⟨hw, hzero, hint⟩ := hf
    refine h.awake (by simp [hpc]) (by simp) rfl rfl rfl rfl rfl ⟨hw, hzero⟩ (by simp) ?_ rfl
    intro e n hmem
    rcases List.mem_cons.1 hmem with heq | hmem
    · cases heq
      exact .inr (h.flag.1 hint)
    · exact .inl hmem
  next hpc =>
    rw [hpc] at hf
    split
    next hw =>
      refine h.awake (by simp [hpc]) (by simp) rfl rfl rfl rfl rfl ⟨⟨rfl, hf.1.1 hw⟩, hf.2⟩ h.flag
        (fun _ _ => .inl) rfl
    · exact h
  next hpc =>
    rw [hpc] at hf
    split
    · exact h.awake (by simp [hpc]) (by simp) rfl rfl rfl rfl rfl hf h.flag (fun _ _ => .inl) rfl
    · exact h.awake (by simp [hpc]) (by simp) rfl rfl rfl rfl rfl hf h.flag (fun _ _ => .inl) rfl
  next hpc =>
    rw [hpc] at hf
    exact h.awake (by simp [hpc]) (by simp) rfl rfl rfl rfl rfl hf (by simp) (fun _ _ => .inl) rfl

theorem usleep_inv (h : Inv s) (hpc : s.fiber = .running) :
    Inv ({ s with fiber := .sleeping, sleeps := s.sleeps + 1 }.setRecorder (s.sleeps + 1)
      .schedule) := by
  have hf := h.fiber
  rw [hpc] at hf
  obtain ⟨hr, ht, hn⟩ := (h.sleep (s.sleeps + 1)).future (.inl (Nat.lt_succ_self _))
  have hnone : ∀ i w, ¬ (s.interrupter i = .took w (s.sleeps + 1) ∨
      s.interrupter i = .wake (s.sleeps + 1)) := by
    intro i w hi
    have := (h.sleep _).known i w hi (Nat.succ_ne_zero _)
    rw [hr] at this
    cases this
  have hnowake : ∀ i, s.interrupter i ≠ .wake (s.sleeps + 1) := fun i hi =>
    hnone i false (.inr hi)
  refine ⟨?_, ?_, h.flag, h.apart, h.outcomes, h.check⟩
  · intro k
    obtain rfl | hk := eq_or_ne k (s.sleeps + 1)
    · have hnotook : ∀ i w, s.interrupter i ≠ .took w (s.sleeps + 1) := fun i w hi =>
        hnone i w (.inl hi)
      constructor <;> simp [setRecorder, State.Asleep, State.Due, ht, hn, hnowake, hnotook]
    · refine (h.sleep k).congr ?_ rfl rfl ?_ ?_ ?_ (fun _ => Iff.rfl) (fun _ _ hw _ => .inl hw)
      · simp [setRecorder, hk]
      · simp [State.Asleep, setRecorder, hpc, hk.symm]
      · simp only [setRecorder]
        lia
      · simp only [setRecorder]
        lia
  · refine ⟨hf.1, Nat.succ_pos _, .inl ⟨?_, hf.2⟩⟩
    simp [setRecorder, Recorder.past]

/-- What the recorder of sleep `k` may turn into without telling anybody. -/
theorem FiberOk.recorder {c : Sleeper} {r : Recorder} (h : s.FiberOk c)
    (hr : s.recorder k = .done → r = .done)
    (hpast : c = .sleeping → s.sleeps = k → s.currentSleep = 0 →
      r.past = false ∨ s.interrupted = true) :
    (s.setRecorder k r).FiberOk c := by
  have hrec : s.Recorded → (s.setRecorder k r).Recorded := by
    rintro ⟨heq, hd⟩
    refine ⟨heq, ?_⟩
    obtain rfl | hk := eq_or_ne s.sleeps k
    · simp [setRecorder, hr hd]
    · simp [setRecorder, hk, hd]
  have hnoted : s.Noted → (s.setRecorder k r).Noted := by
    rintro (hR | hi)
    · exact .inl (hrec hR)
    · exact .inr hi
  cases c with
  | sleeping =>
    obtain ⟨hw, hpos, hcur⟩ := h
    refine ⟨hw, hpos, ?_⟩
    rcases hcur with ⟨hp, hz⟩ | hN
    · by_cases hk : s.sleeps = k
      · rcases hpast rfl hk hz with hp' | hi
        · left
          subst hk
          simpa [setRecorder, hp'] using hz
        · exact .inr (.inr ⟨hz, hi⟩)
      · left
        simpa [setRecorder, hk, hp] using hz
    · exact .inr (hnoted hN)
  | runnable | resumed => exact ⟨h.1, h.2.1, hnoted h.2.2⟩
  | clearSleep =>
    refine ⟨h.1, h.2.1, ?_⟩
    rcases h.2.2 with hz | hR
    · exact .inl hz
    · exact .inr (hrec hR)
  | _ => exact h

theorem Inv.parties (h : Inv s) (hr : ∀ j, j ≠ k → s'.recorder j = s.recorder j)
    (ht : ∀ j, j ≠ k → s'.timer j = s.timer j) (hn : s'.readied = s.readied)
    (hfib : s'.fiber = s.fiber) (hsl : s'.sleeps = s.sleeps)
    (hi : s'.interrupter = s.interrupter) (hint : s'.interrupted = s.interrupted)
    (hcount : s'.interruptions = s.interruptions) (hout : s'.outcomes = s.outcomes)
    (hcheck : s'.checkFailed = s.checkFailed) (hk : SleepOk s' k)
    (hok : s'.FiberOk s'.fiber) : Inv s' := by
  refine ⟨?_, hok, by rw [hint, hcount]; exact h.flag, by rw [hi]; exact h.apart,
    by rw [hout]; exact h.outcomes, by rw [hcheck]; exact h.check⟩
  intro j
  obtain rfl | hj := eq_or_ne j k
  · exact hk
  · refine (h.sleep j).congr (hr j hj) (ht j hj) (by rw [hn]) ?_ (by rw [hsl]; exact id)
      (by rw [hsl]; exact id) (fun i => by rw [hi]) (fun i w hw _ => .inl (by rw [← hi]; exact hw))
    simp [State.Asleep, hfib, hsl]

theorem schedule_inv (h : Inv s) (hrec : s.recorder k = .schedule) :
    Inv ((s.setTimer k .pending).setRecorder k .record) := by
  have hk := h.sleep k
  obtain ⟨ha, ht⟩ := hk.schedule hrec
  have hnone : ∀ i w, ¬ (s.interrupter i = .took w k ∨ s.interrupter i = .wake k) := by
    intro i w hi
    have hk0 : k ≠ 0 := by
      rintro rfl
      have := (hk.future (.inr rfl)).1
      rw [hrec] at this
      cases this
    have := hk.known i w hi hk0
    rw [hrec] at this
    cases this
  have hnowake : ∀ i, s.interrupter i ≠ .wake k := fun i hi => hnone i false (.inr hi)
  have hnotook : ∀ i w, s.interrupter i ≠ .took w k := fun i w hi => hnone i w (.inl hi)
  refine h.parties (k := k) ?_ ?_ rfl rfl rfl rfl rfl rfl rfl rfl ?_ ?_
  · intro j hj
    simp [setRecorder, setTimer, hj]
  · intro j hj
    simp [setRecorder, setTimer, hj]
  · have ha' : ((s.setTimer k .pending).setRecorder k .record).Asleep k := ha
    have hread := hk.readied
    have hfut := hk.future
    constructor <;> simp_all [setRecorder, setTimer, State.Due]
  · have := h.fiber
    refine FiberOk.recorder (s := s.setTimer k .pending) this ?_ ?_
    · intro hd
      rw [show (s.setTimer k .pending).recorder k = s.recorder k from rfl, hrec] at hd
      cases hd
    · exact fun _ _ _ => .inl rfl

theorem SleepOk.started (h : SleepOk s k) (hr : s.recorder k ≠ .none) : 0 < k ∧ k ≤ s.sleeps := by
  constructor
  · apply Nat.pos_of_ne_zero
    rintro rfl
    exact hr (h.future (.inr rfl)).1
  · apply Nat.le_of_not_lt
    intro hlt
    exact hr (h.future (.inl hlt)).1

theorem record_inv (h : Inv s) (hrec : s.recorder k = .record) :
    Inv (if s.interrupted then s.setRecorder k .undo
      else { s with currentSleep := k }.setRecorder k .done) := by
  have hk := h.sleep k
  have ht := hk.record hrec
  have ha := hk.pending ht
  have hnowake : ∀ i, s.interrupter i ≠ .wake k := by
    intro i hi
    have := (hk.taken i hi).2
    rw [ht] at this
    cases this
  have hread := hk.readied
  have hfut := hk.future
  have hknown := hk.known
  split
  next hint =>
    refine h.parties (k := k) ?_ (fun _ _ => rfl) rfl rfl rfl rfl rfl rfl rfl rfl ?_ ?_
    · intro j hj
      simp [setRecorder, hj]
    · have ha' : (s.setRecorder k .undo).Asleep k := ha
      constructor <;> simp_all [setRecorder, State.Due]
    · refine FiberOk.recorder h.fiber ?_ (fun _ _ _ => .inr hint)
      intro hd
      rw [hrec] at hd
      cases hd
  · refine h.parties (k := k) ?_ (fun _ _ => rfl) rfl rfl rfl rfl rfl rfl rfl rfl ?_ ?_
    · intro j hj
      simp [setRecorder, hj]
    · have ha' : State.Asleep ({ s with currentSleep := k }.setRecorder k .done) k := ha
      constructor <;> simp_all [setRecorder, State.Due]
    · -- the fiber is suspended in this sleep, so the id is that of the sleep in progress
      have hf := h.fiber
      have hfib : ({ s with currentSleep := k }.setRecorder k .done).fiber = .sleeping := ha.1
      rw [ha.1] at hf
      rw [hfib]
      refine ⟨hf.1, hf.2.1, .inr (.inl ⟨ha.2.symm, ?_⟩)⟩
      simp [setRecorder, ha.2]

/-- A recorder that gives up has seen the flag, which stays while the fiber is suspended. -/
theorem Inv.undo_interrupted (h : Inv s) (hrec : s.recorder k = .undo)
    (hfib : s.fiber = .sleeping) (hsl : s.sleeps = k) : s.interrupted = true := by
  have hf := h.fiber
  rw [hfib] at hf
  rcases hf.2.2 with ⟨hp, -⟩ | hR | ⟨-, hi⟩
  · rw [hsl, hrec] at hp
    cases hp
  · have := hR.2
    rw [hsl, hrec] at this
    cases this
  · exact hi

theorem undo_inv (h : Inv s) (hrec : s.recorder k = .undo) :
    Inv (if s.timer k = .pending then (s.setTimer k .cancelled).setRecorder k .wake
      else s.setRecorder k .done) := by
  have hk := h.sleep k
  have hread := hk.readied
  have hfut := hk.future
  have hknown := hk.known
  split
  next ht =>
    have ha := hk.pending ht
    have hnowake : ∀ i, s.interrupter i ≠ .wake k := by
      intro i hi
      have := (hk.taken i hi).2
      rw [ht] at this
      cases this
    refine h.parties (k := k) ?_ ?_ rfl rfl rfl rfl rfl rfl rfl rfl ?_ ?_
    · intro j hj
      simp [setRecorder, setTimer, hj]
    · intro j hj
      simp [setRecorder, setTimer, hj]
    · have ha' : ((s.setTimer k .cancelled).setRecorder k .wake).Asleep k := ha
      constructor <;> simp_all [setRecorder, setTimer, State.Due]
    · have hf := h.fiber
      refine FiberOk.recorder (s := s.setTimer k .cancelled) hf ?_ ?_
      · intro hd
        rw [show (s.setTimer k .cancelled).recorder k = s.recorder k from rfl, hrec] at hd
        cases hd
      · exact fun hfib hsl _ => .inr (h.undo_interrupted hrec hfib hsl)
  next ht =>
    refine h.parties (k := k) ?_ (fun _ _ => rfl) rfl rfl rfl rfl rfl rfl rfl rfl ?_ ?_
    · intro j hj
      simp [setRecorder, hj]
    · have hasl : (s.setRecorder k .done).Asleep k ↔ s.Asleep k := Iff.rfl
      have hfire := hk.firing
      have htaken := hk.taken
      have htakenBy := hk.takenBy
      have hdue := hk.due
      constructor <;> simp_all [setRecorder, State.Due]
    · exact FiberOk.recorder h.fiber (fun _ => rfl)
        (fun hfib hsl _ => .inr (h.undo_interrupted hrec hfib hsl))

/-- The fiber is made runnable for sleep `k` by the one party that owes it. -/
theorem Inv.readied (h : Inv s) (ha : s.Asleep k) (hpast : (s.recorder k).past = true)
    (hfib : s'.fiber = .runnable) (hn : s'.readied = update s.readied k (s.readied k + 1))
    (hr : ∀ j, j ≠ k → s'.recorder j = s.recorder j) (ht : ∀ j, j ≠ k → s'.timer j = s.timer j)
    (hrk : s'.recorder k = .undo ∨ s'.recorder k = .done)
    (hrk' : s.recorder k = .done → s'.recorder k = .done)
    (htk : s'.timer k = .fired ∨ s'.timer k = .cancelled)
    (hwake : ∀ i j, s'.interrupter i = .wake j ↔ j ≠ k ∧ s.interrupter i = .wake j)
    (htook : ∀ i w j, s'.interrupter i = .took w j → s.interrupter i = .took w j)
    (hholds : ∀ i, (s'.interrupter i).holds = (s.interrupter i).holds)
    (hsl : s'.sleeps = s.sleeps) (hcur : s'.currentSleep = s.currentSleep)
    (hcw : s'.currentWaiter = s.currentWaiter) (hint : s'.interrupted = s.interrupted)
    (hcount : s'.interruptions = s.interruptions) (hout : s'.outcomes = s.outcomes)
    (hcheck : s'.checkFailed = s.checkFailed) : Inv s' := by
  have hk := h.sleep k
  have hna : ∀ j, ¬ s'.Asleep j := by
    rintro j ⟨hj, -⟩
    rw [hfib] at hj
    cases hj
  have hrn : s.recorder k ≠ .none := by
    intro heq
    rw [heq] at hpast
    cases hpast
  obtain ⟨hpos, hle⟩ := hk.started hrn
  have hzero : s.readied k = 0 := by
    rcases hk.readied hpos hle with hz | hz
    · exact hz.2
    · exact absurd ha hz.1
  refine ⟨?_, ?_, by rw [hint, hcount]; exact h.flag, ?_, by rw [hout]; exact h.outcomes,
    by rw [hcheck]; exact h.check⟩
  · intro j
    obtain rfl | hj := eq_or_ne j k
    · have hnw : ∀ i, s'.interrupter i ≠ .wake j := by
        intro i hi
        exact ((hwake i j).1 hi).1 rfl
      have hdone : ∀ i w, s'.interrupter i = .took w j → s'.recorder j = .done := by
        intro i w hi
        exact hrk' (hk.known i w (.inl (htook i w j hi)) (Nat.ne_of_gt hpos))
      constructor
      · intro hz; rcases hrk with hrk | hrk <;> rw [hrk] at hz <;> cases hz
      · intro hz; rcases hrk with hrk | hrk <;> rw [hrk] at hz <;> cases hz
      · intro hz; rcases hrk with hrk | hrk <;> rw [hrk] at hz <;> cases hz
      · intro _ hz; rcases htk with htk | htk <;> rw [htk] at hz <;> cases hz
      · intro hz; rcases hrk with hrk | hrk <;> rw [hrk] at hz <;> cases hz
      · intro hz; rcases htk with htk | htk <;> rw [htk] at hz <;> cases hz
      · intro hz; rcases htk with htk | htk <;> rw [htk] at hz <;> cases hz
      · exact fun i hi => absurd hi (hnw i)
      · exact fun i _ hi => absurd hi (hnw i)
      · rintro i w (hi | hi) -
        · exact hdone i w hi
        · exact absurd hi (hnw i)
      · exact fun hz => absurd hz (hna j)
      · exact fun _ _ => .inr ⟨hna j, by rw [hn, update_self, hzero]⟩
      · rintro (hlt | hz)
        · rw [hsl] at hlt
          exact absurd hle (Nat.not_le_of_lt hlt)
        · exact absurd hz (Nat.ne_of_gt hpos)
    · have hnaj : ¬ s.Asleep j := fun hz => hj (hz.2.symm.trans ha.2)
      refine (h.sleep j).congr (hr j hj) (ht j hj) (by rw [hn, update_of_ne hj]) ?_
        (by rw [hsl]; exact id) (by rw [hsl]; exact id) ?_ (fun i w hw _ => .inl (htook i w j hw))
      · simp [hna j, hnaj]
      · intro i
        rw [hwake]
        simp [hj]
  · have hf := h.fiber
    rw [ha.1] at hf
    rw [hfib]
    obtain ⟨⟨hcw0, hh⟩, hposl, hN⟩ := hf
    refine ⟨⟨by rw [hcw]; exact hcw0, fun i => by rw [hholds]; exact hh i⟩, by rw [hsl]; exact hposl, ?_⟩
    rcases hN with ⟨hp, -⟩ | ⟨heq, hd⟩ | ⟨hz, hi⟩
    · rw [ha.2, hpast] at hp
      cases hp
    · left
      refine ⟨by rw [hcur, hsl]; exact heq, ?_⟩
      rw [ha.2] at hd
      rw [hsl, ha.2]
      exact hrk' hd
    · exact .inr ⟨by rw [hcur]; exact hz, by rw [hint]; exact hi⟩
  · intro i sleep hi
    exact h.apart i sleep (htook i true sleep hi)

theorem recorderStep_inv (h : Inv s) : Inv (recorderStep s k) := by
  unfold recorderStep
  split
  · exact h
  · exact h
  next hrec =>
    exact schedule_inv h hrec
  next hrec =>
    exact record_inv h hrec
  next hrec =>
    exact undo_inv h hrec
  next hrec =>
    obtain ⟨ha, ht, hnw⟩ := (h.sleep k).wake hrec
    refine h.readied (k := k) ha (by rw [hrec]; rfl) ?_ rfl ?_ (fun _ _ => rfl) ?_ ?_ (.inr ht) ?_
      (fun _ _ _ => id) (fun _ => rfl) rfl rfl rfl rfl rfl rfl rfl
    · simp [setRecorder, ready, ha.1]
    · intro j hj
      simp [setRecorder, ready, hj]
    · simp [setRecorder]
    · simp [setRecorder]
    · intro i j
      constructor
      · intro hi
        refine ⟨?_, hi⟩
        rintro rfl
        exact hnw i hi
      · exact fun hi => hi.2

theorem timerStep_inv (h : Inv s) (hc : s.timer k = .pending → s.recorder k ≠ .record) :
    Inv (timerStep s k) := by
  have hk := h.sleep k
  unfold timerStep
  split
  next ht =>
    have ha := hk.pending ht
    have hnowake : ∀ i, s.interrupter i ≠ .wake k := by
      intro i hi
      have := (hk.taken i hi).2
      rw [ht] at this
      cases this
    have hrec : s.recorder k = .undo ∨ s.recorder k = .done := by
      cases hr : s.recorder k with
      | none =>
        have := hk.unused hr
        rw [ht] at this
        cases this
      | schedule =>
        have := (hk.schedule hr).2
        rw [ht] at this
        cases this
      | record => exact absurd hr (hc ht)
      | undo => exact .inl rfl
      | wake =>
        have := (hk.wake hr).2.1
        rw [ht] at this
        cases this
      | done => exact .inr rfl
    refine h.parties (k := k) (fun _ _ => rfl) ?_ rfl rfl rfl rfl rfl rfl rfl rfl ?_ h.fiber
    · intro j hj
      simp [setTimer, hj]
    · have ha' : (s.setTimer k .firing).Asleep k := ha
      have hread := hk.readied
      have hfut := hk.future
      have hknown := hk.known
      constructor <;> simp_all [setTimer, State.Due]
      all_goals rcases hrec with hrec | hrec <;> simp_all
  next ht =>
    obtain ⟨ha, hrec⟩ := hk.firing ht
    refine h.readied (k := k) ha ?_ ?_ rfl (fun _ _ => rfl) ?_ hrec id ?_ ?_
      (fun _ _ _ => id) (fun _ => rfl) rfl rfl rfl rfl rfl rfl rfl
    · rcases hrec with hrec | hrec <;> rw [hrec] <;> rfl
    · simp [setTimer, ready, ha.1]
    · intro j hj
      simp [setTimer, ready, hj]
    · simp [setTimer]
    · intro i j
      constructor
      · intro hi
        refine ⟨?_, hi⟩
        rintro rfl
        have := (hk.taken i hi).2
        rw [ht] at this
        cases this
      · exact fun hi => hi.2
  next ht =>
    refine h.parties (k := k) (fun _ _ => rfl) ?_ rfl rfl rfl rfl rfl rfl rfl rfl ?_ h.fiber
    · intro j hj
      simp [setTimer, hj]
    · have hasl : (s.setTimer k .done).Asleep k ↔ s.Asleep k := Iff.rfl
      have hsch := hk.schedule
      have hun := hk.unused
      have hrec := hk.record
      have hwk := hk.wake
      have htaken := hk.taken
      have htakenBy := hk.takenBy
      have hdue := hk.due
      have hread := hk.readied
      have hfut := hk.future
      have hknown := hk.known
      constructor <;> simp_all [setTimer, State.Due]
      exact hknown
  · exact h
  · exact h
  · exact h

end

/-- Interrupter `i` moves without a wake, while no timer and no recorder does. -/
theorem SleepOk.interrupter (h : SleepOk s k)
    (hr : s'.recorder = s.recorder) (ht : s'.timer = s.timer) (hn : s'.readied = s.readied)
    (hfib : s'.fiber = s.fiber) (hsl : s'.sleeps = s.sleeps)
    (hi : s'.interrupter = update s.interrupter i c)
    (hold : ∀ j, s.interrupter i ≠ .wake j) (hnew : ∀ j, c ≠ .wake j)
    (htook : ∀ w, c = .took w k → k ≠ 0 → s.recorder k = .done) : SleepOk s' k := by
  refine h.congr (by rw [hr]) (by rw [ht]) (by rw [hn]) ?_ (by rw [hsl]; exact id)
    (by rw [hsl]; exact id) ?_ ?_
  · simp [State.Asleep, hfib, hsl]
  · intro j
    rw [hi]
    obtain rfl | hj := eq_or_ne j i
    · simp [hold, hnew]
    · rw [update_of_ne hj]
  · intro j w hw hk
    rw [hi] at hw
    obtain rfl | hj := eq_or_ne j i
    · rw [update_self] at hw
      exact .inr (htook w hw hk)
    · rw [update_of_ne hj] at hw
      exact .inl hw

section

variable (h : Inv s)
include h

theorem interruptStep_inv (hidle : s.interrupter i = .idle) :
    Inv (interruptStep s i) := by
  set s' := interruptStep s i
  have hself : s'.interrupter i = .took s.currentWaiter s.currentSleep := update_self ..
  have hother : ∀ j, j ≠ i → s'.interrupter j = s.interrupter j := fun j hj =>
    update_of_ne hj ..
  have hidleh : (s.interrupter i).holds = false := by rw [hidle]; rfl
  have hnow : s.NoWaiter → s'.NoWaiter := by
    rintro ⟨hcw, hh⟩
    refine ⟨rfl, ?_⟩
    intro j
    obtain rfl | hj := eq_or_ne j i
    · rw [hself, hcw]
      rfl
    · rw [hother j hj]
      exact hh j
  have hone : s.OneWaiter → s'.OneWaiter := by
    rintro ⟨hcw, hh⟩
    refine ⟨(nofun), ?_⟩
    -- if the interrupter takes the waiter, nobody else has it
    have hexcl : ∀ j, j ≠ i → (s'.interrupter i).holds = true → (s'.interrupter j).holds = false := by
      intro j hj hi
      rw [hself] at hi
      rw [hother j hj]
      exact hcw hi j
    intro j l hj hl
    obtain rfl | hji := eq_or_ne j i
    · obtain rfl | hlj := eq_or_ne l j
      · rfl
      · rw [hexcl l hlj hj] at hl
        cases hl
    · obtain rfl | hli := eq_or_ne l i
      · rw [hexcl j hji hl] at hj
        cases hj
      · rw [hother j hji] at hj
        rw [hother l hli] at hl
        exact hh j l hj hl
  have hnoted : s'.Noted := .inr ⟨rfl, rfl⟩
  refine ⟨?_, ?_, ?_, ?_, h.outcomes, h.check⟩
  · intro k
    refine (h.sleep k).interrupter (i := i) rfl rfl rfl rfl rfl rfl (by simp [hidle]) (by simp) ?_
    rintro w heq hk
    obtain ⟨-, rfl⟩ := Interrupter.took.inj heq
    have hc := h.currentSleep hk
    rw [hc.1]
    exact hc.2.1
  · have hf := h.fiber
    change s'.FiberOk s.fiber
    cases hpc : s.fiber with
    | running | test | waitTest | waitClear =>
      rw [hpc] at hf
      exact ⟨hnow hf.1, rfl⟩
    | clear =>
      rw [hpc] at hf
      exact ⟨hnow hf.1, rfl, rfl⟩
    | sleeping =>
      rw [hpc] at hf
      exact ⟨hnow hf.1, hf.2.1, .inr hnoted⟩
    | runnable | resumed =>
      rw [hpc] at hf
      exact ⟨hnow hf.1, hf.2.1, hnoted⟩
    | zeroSleep =>
      rw [hpc] at hf
      exact ⟨hnow hf.1, hf.2.1, rfl, rfl⟩
    | clearSleep =>
      rw [hpc] at hf
      exact ⟨hnow hf.1, hf.2.1, .inl rfl⟩
    | waiting | reclaim =>
      rw [hpc] at hf
      exact ⟨hone hf.1, rfl⟩
  · exact ⟨fun _ => Nat.succ_pos _, fun _ => rfl⟩
  · intro j sleep hj
    obtain rfl | hji := eq_or_ne j i
    · rw [hself] at hj
      obtain ⟨hcw, rfl⟩ := Interrupter.took.inj hj
      -- a fiber with a waiter is not asleep
      have hf := h.fiber
      cases hpc : s.fiber with
      | waiting | reclaim =>
        rw [hpc] at hf
        exact hf.2
      | _ =>
        rw [hpc] at hf
        have := hf.1.1
        rw [hcw] at this
        cases this
    · rw [hother j hji] at hj
      exact h.apart j sleep hj

/-- Interrupter `i` moves on with nothing but its own state changed. -/
theorem Inv.interrupter (hold : ∀ j, s.interrupter i ≠ .wake j)
    (hnew : ∀ j, c ≠ .wake j) (hntook : ∀ w j, c ≠ .took w j)
    (hholds : c.holds = (s.interrupter i).holds) : Inv (s.setInterrupter i c) := by
  have hh : ∀ j, ((s.setInterrupter i c).interrupter j).holds = (s.interrupter j).holds := by
    intro j
    obtain rfl | hj := eq_or_ne j i
    · simpa [setInterrupter] using hholds
    · simp [setInterrupter, hj]
  refine ⟨?_, ?_, h.flag, ?_, h.outcomes, h.check⟩
  · intro k
    exact (h.sleep k).interrupter (i := i) rfl rfl rfl rfl rfl rfl hold hnew
      (fun w hw => absurd hw (hntook w k))
  · have hnow : s.NoWaiter → (s.setInterrupter i c).NoWaiter := by
      rintro ⟨hcw, hn⟩
      exact ⟨hcw, fun j => (hh j).trans (hn j)⟩
    have hone : s.OneWaiter → (s.setInterrupter i c).OneWaiter := by
      rintro ⟨hcw, hn⟩
      refine ⟨fun hw j => (hh j).trans (hcw hw j), ?_⟩
      intro j l hj hl
      rw [hh] at hj hl
      exact hn j l hj hl
    have hf := h.fiber
    change (s.setInterrupter i c).FiberOk s.fiber
    cases hpc : s.fiber with
    | waiting | reclaim =>
      rw [hpc] at hf
      exact ⟨hone hf.1, hf.2⟩
    | _ =>
      rw [hpc] at hf
      exact ⟨hnow hf.1, hf.2⟩
  · intro j sleep hj
    obtain rfl | hji := eq_or_ne j i
    · simp only [setInterrupter, update_self] at hj
      exact absurd hj (hntook _ _)
    · simp only [setInterrupter, update_of_ne hji] at hj
      exact h.apart j sleep hj

theorem cancel_inv (hi : s.interrupter i = .took false k) (hk0 : k ≠ 0)
    (ht : s.timer k = .pending) :
    Inv ((s.setTimer k .cancelled).setInterrupter i (.wake k)) := by
  set s' := (s.setTimer k .cancelled).setInterrupter i (.wake k)
  have hk := h.sleep k
  have ha := hk.pending ht
  have hrec := hk.known i false (.inl hi) hk0
  have hself : s'.interrupter i = .wake k := update_self ..
  have hother : ∀ j, j ≠ i → s'.interrupter j = s.interrupter j := fun j hj =>
    update_of_ne hj ..
  have htk : s'.timer k = .cancelled := update_self ..
  have hholds : ∀ j, (s'.interrupter j).holds = (s.interrupter j).holds := by
    intro j
    obtain rfl | hj := eq_or_ne j i
    · rw [hself, hi]
      rfl
    · rw [hother j hj]
  -- nobody else has taken it
  have honly : ∀ j, s'.interrupter j = .wake k → j = i := by
    intro j hj
    by_contra hji
    rw [hother j hji] at hj
    have := (hk.taken j hj).2
    rw [ht] at this
    cases this
  refine ⟨?_, ?_, h.flag, ?_, h.outcomes, h.check⟩
  · intro j
    obtain rfl | hj := eq_or_ne j k
    · have ha' : s'.Asleep j := ha
      have hrec' : s'.recorder j = .done := hrec
      constructor
      · intro hz; rw [hrec'] at hz; cases hz
      · intro hz; rw [hrec'] at hz; cases hz
      · intro hz; rw [hrec'] at hz; cases hz
      · intro hz; rw [hrec'] at hz; cases hz
      · intro hz; rw [hrec'] at hz; cases hz
      · intro hz; rw [htk] at hz; cases hz
      · intro hz; rw [htk] at hz; cases hz
      · exact fun _ _ => ⟨ha', htk⟩
      · exact fun a b hwa hwb => (honly a hwa).trans (honly b hwb).symm
      · exact fun _ _ _ _ => hrec'
      · exact fun _ => .inr (.inr (.inr (.inr ⟨i, hself⟩)))
      · exact hk.readied
      · intro hz
        have := (hk.future hz).2.1
        rw [ht] at this
        cases this
    · refine (h.sleep j).congr rfl (update_of_ne hj ..) rfl Iff.rfl id id ?_ ?_
      · intro l
        obtain rfl | hl := eq_or_ne l i
        · rw [hself, hi]
          simp [hj.symm]
        · rw [hother l hl]
      · intro l w hw _
        obtain rfl | hl := eq_or_ne l i
        · rw [hself] at hw
          cases hw
        · rw [hother l hl] at hw
          exact .inl hw
  · have hf := h.fiber
    rw [ha.1] at hf
    change s'.FiberOk s.fiber
    rw [ha.1]
    exact ⟨⟨hf.1.1, fun j => (hholds j).trans (hf.1.2 j)⟩, hf.2⟩
  · intro j sleep hj
    obtain rfl | hji := eq_or_ne j i
    · rw [hself] at hj
      cases hj
    · rw [hother j hji] at hj
      exact h.apart j sleep hj

/-- The waiter is put back: the interrupter had it, so that the fiber is still in `butex_wait`. -/
theorem putBack_inv (hi : s.interrupter i = .putBack) :
    Inv ({ s with currentWaiter := true }.setInterrupter i .idle) := by
  set s' := ({ s with currentWaiter := true }.setInterrupter i .idle)
  have hself : s'.interrupter i = .idle := update_self ..
  have hother : ∀ j, j ≠ i → s'.interrupter j = s.interrupter j := fun j hj =>
    update_of_ne hj ..
  have hholds : (s.interrupter i).holds = true := by rw [hi]; rfl
  have hone : s.OneWaiter → s'.OneWaiter := by
    rintro ⟨-, hn⟩
    have hnone : ∀ j, (s'.interrupter j).holds = false := by
      intro j
      obtain rfl | hj := eq_or_ne j i
      · rw [hself]
        rfl
      · rw [hother j hj, Bool.eq_false_iff]
        exact fun hjh => hj (hn j i hjh hholds)
    refine ⟨fun _ => hnone, ?_⟩
    intro j l hj
    rw [hnone j] at hj
    cases hj
  refine ⟨?_, ?_, h.flag, ?_, h.outcomes, h.check⟩
  · intro k
    exact (h.sleep k).interrupter (i := i) rfl rfl rfl rfl rfl rfl (by simp [hi]) (by simp) (by simp)
  · have hf := h.fiber
    change s'.FiberOk s.fiber
    cases hpc : s.fiber with
    | waiting | reclaim =>
      rw [hpc] at hf
      exact ⟨hone hf.1, hf.2⟩
    | _ =>
      rw [hpc] at hf
      have := hf.1.2 i
      rw [hholds] at this
      cases this
  · intro j sleep hj
    obtain rfl | hji := eq_or_ne j i
    · rw [hself] at hj
      cases hj
    · rw [hother j hji] at hj
      exact h.apart j sleep hj

theorem goStep_inv : Inv (goStep s i) := by
  unfold goStep
  split
  · exact h
  next waiter sleep hi =>
    -- the check holds, since a waiter was taken alone
    have hcheck : (s.checkFailed || (waiter && sleep != 0)) = s.checkFailed := by
      cases waiter with
      | false => simp
      | true => simp [h.apart i sleep hi]
    simp only [hcheck]
    split
    next hw =>
      subst hw
      exact h.interrupter (by simp [hi]) (by simp) (by simp) (by rw [hi]; rfl)
    next hw =>
      have hw : waiter = false := by simpa using hw
      subst hw
      split
      next hg =>
        exact cancel_inv h hi hg.1 hg.2
      · exact h.interrupter (by simp [hi]) (by simp) (by simp) (by rw [hi]; rfl)
  next hi =>
    exact putBack_inv h hi
  next sleep hi =>
    have hk := h.sleep sleep
    obtain ⟨ha, ht⟩ := hk.taken i hi
    have hk0 : sleep ≠ 0 := by
      rintro rfl
      have := (hk.future (.inr rfl)).2.1
      rw [ht] at this
      cases this
    have hrec := hk.known i false (.inr hi) hk0
    refine h.readied (k := sleep) ha (by rw [hrec]; rfl) ?_ rfl (fun _ _ => rfl) (fun _ _ => rfl)
      (.inr hrec) id (.inr ht) ?_ ?_ ?_ rfl rfl rfl rfl rfl rfl rfl
    · simp [setInterrupter, ready, ha.1]
    · intro j l
      obtain rfl | hj := eq_or_ne j i
      · simp only [setInterrupter, update_self, hi]
        simp
        exact fun hne heq => hne heq.symm
      · simp only [setInterrupter, update_of_ne hj]
        constructor
        · intro hw
          refine ⟨?_, hw⟩
          rintro rfl
          exact hj (hk.takenBy j i hw hi)
        · exact fun hw => hw.2
    · intro j w l hw
      obtain rfl | hj := eq_or_ne j i
      · simp [setInterrupter] at hw
      · simpa [setInterrupter, ready, hj] using hw
    · intro j
      obtain rfl | hj := eq_or_ne j i
      · simp [setInterrupter, hi, Interrupter.holds]
      · simp [setInterrupter, ready, hj]

theorem step_inv {a : Act ι} (hc : Heeds s a) : Inv (step s a) := by
  cases a with
  | usleep =>
    simp only [step]
    split
    next hpc =>
      exact usleep_inv h hpc
    · exact h
  | wait =>
    simp only [step]
    split
    next hpc =>
      have hf := h.fiber
      rw [hpc] at hf
      refine h.awake (by simp [hpc]) (by simp) rfl rfl rfl rfl rfl ⟨⟨fun _ => hf.1.2, ?_⟩, hf.2⟩
        h.flag (fun _ _ => .inl) rfl
      intro j l hj
      rw [hf.1.2 j] at hj
      cases hj
    · exact h
  | wakeWaiter =>
    simp only [step]
    split
    next hpc =>
      have hf := h.fiber
      rw [hpc] at hf
      exact h.awake (by simp [hpc]) (by simp) rfl rfl rfl rfl rfl hf h.flag (fun _ _ => .inl) rfl
    · exact h
  | setStopped =>
    exact ⟨fun k => (h.sleep k).congr rfl rfl rfl Iff.rfl id id (fun _ => Iff.rfl)
      (fun _ _ hw _ => .inl hw), h.fiber, h.flag, h.apart, h.outcomes, h.check⟩
  | fiber => exact fiberStep_inv h
  | recorder k => exact recorderStep_inv h
  | timer k => exact timerStep_inv h hc
  | interrupt i =>
    simp only [step]
    split
    next hidle =>
      exact interruptStep_inv h hidle
    · exact h
  | go i => exact goStep_inv h

end

end Steps

/-- **Sleep and interrupt agree** in every run in which no timer fires between the two steps of its
`_add_sleep_event`. -/
theorem run_agrees (acts : List (Act ι)) (hc : Along step Heeds (start ι) acts) :
    Agrees (runFrom step (start ι) acts) := by
  have h : Inv (runFrom step (start ι) acts) :=
    hc.run (fun s a hs ha => step_inv hs ha) start_inv
  exact h.agrees

local instance neZero1 : NeZero 1 := ⟨by decide⟩

/-- A sleep that is interrupted: the interrupter takes the id and the timer and makes the fiber
runnable. -/
def interruptActs : List (Act (Fin 1)) :=
  [.usleep, .recorder 1, .recorder 1, .interrupt 0, .go 0, .timer 1, .go 0] ++ List.replicate 6 .fiber

theorem run_agrees_interrupt :
    let s := runFrom step (start (Fin 1)) interruptActs
    s.outcomes = [.failed .EINTR 1] ∧ Along step Heeds (start (Fin 1)) interruptActs ∧ Agrees s := by
  intro s
  have hc : Along step Heeds (start (Fin 1)) interruptActs := by decide
  exact ⟨by decide, hc, run_agrees interruptActs hc⟩

/-- The timer fires before its id is recorded: `usleep` returns -1 although nobody interrupted, and
the id is recorded in a fiber that now waits on a butex. The first interrupter of that wait then
finds both. -/
def earlyActs : List (Act (Fin 1)) :=
  [.usleep, .recorder 1, .timer 1, .timer 1] ++ List.replicate 3 .fiber ++
    [.wait, .recorder 1, .interrupt 0, .go 0]

theorem early_timer_disagrees :
    let s := runFrom step (start (Fin 1)) earlyActs
    s.outcomes = [.failed .ESTOP 0] ∧ s.checkFailed = true ∧ ¬ Agrees s := by
  intro s
  have hout : s.outcomes = [.failed .ESTOP 0] := by decide
  have hcheck : s.checkFailed = true := by decide
  refine ⟨hout, hcheck, ?_⟩
  intro h
  have := h.outcomes .ESTOP 0 (by rw [hout]; exact List.mem_cons_self)
  exact absurd this (Nat.lt_irrefl 0)

end Eabase.Fiber.Sleep
