import Mathlib.Data.List.Nodup
import Eabase.Lib.Machine

/-!
# The timer thread

Schedulers put tasks into buckets, each under the bucket's mutex, and tell the
timer thread about a task that is the nearest of its bucket under the global
mutex. The timer thread forgets the nearest time, pulls the buckets one after
the other into a heap, runs what is due, and goes to sleep until the first
task of the heap unless the nearest time says that an earlier one has come.

Every mutex section and every access to an atomic `version` is one step. The
thread's own heap is a list: which of its minimal tasks is `tasks[0]` is left
to the label. `stop_and_join` is not part of the machine: the thread is running
and stays so.
-/

namespace Eabase.Fiber.TimerThread

open Lib Function List

variable {n : ℕ} {ι : Type*} [DecidableEq ι]

/-- `std::numeric_limits<int64_t>::max()`. -/
def timeMax : ℤ := 2 ^ 63 - 1

/-- `make_task_id(slot, version)`. -/
structure TaskId where
  slot : ℕ
  version : ℕ
  deriving DecidableEq

/-- A `Task` of the pool. `idVersion` is `version_of_task_id(task_id)`; the slot part of
`task_id` is the slot itself. -/
structure Task where
  runTime : ℤ
  idVersion : ℕ
  version : ℕ

/-- `Bucket`: the list from `_task_head` on, and `_nearest_run_time`. -/
structure Bucket where
  tasks : List ℕ
  nearest : ℤ

/-- Where a scheduler stands: in front of the section of `Bucket::schedule`, or in front of the
global one that an `earlier` task calls for. -/
inductive Pc (n : ℕ) where
  | idle
  | insert (slot : ℕ) (b : Fin n)
  | update (runTime : ℤ)

/-- Where the timer thread stands in `run`. `pull`, `take`, `sift` and `drop` visit bucket `k`:
the unlocked look at the head, the locked section, the first load of `try_delete`, the rest of it.
`exec`, `call` and `giveBack` are the three steps of `run_and_delete`. -/
inductive TimerPc where
  | reset
  | pull (k : ℕ)
  | take (k : ℕ)
  | sift (k : ℕ) (ps : List ℕ)
  | drop (k p : ℕ) (ps : List ℕ)
  | run
  | check (p : ℕ)
  | exec (p : ℕ)
  | call (p : ℕ)
  | giveBack (p : ℕ)
  | decide (T : ℤ)
  | sleep (T : ℤ) (expectedNsignals : ℕ)

/-- What happened to a task: its scheduling, the call of its function, an `unschedule` that
returned 0, the return of its slot to the pool. -/
inductive Event where
  | scheduled (id : TaskId)
  | ran (id : TaskId)
  | cancelled (id : TaskId)
  | returned (id : TaskId)
  deriving DecidableEq

/-- The pool of tasks, the buckets, the fields of `TimerThread` and the threads. `failed` is set by
the `CHECK` of `try_delete` and by the last branch of `run_and_delete`; `history` records what
happened, the latest first. `_nsignals` is a signed `int` that must not overflow. -/
structure State (n : ℕ) (ι : Type*) where
  tasks : ℕ → Task
  free : ℕ → Bool
  buckets : Fin n → Bucket
  nearest : ℤ
  nsignals : ℕ
  heap : List ℕ
  timer : TimerPc
  pc : ι → Pc n
  failed : Bool
  history : List Event

/-- After `start`: the thread enters its loop, every slot of the pool is unused. -/
def start (n : ℕ) (ι : Type*) : State n ι where
  tasks _ := { runTime := 0, idVersion := 0, version := 2 }
  free _ := true
  buckets _ := { tasks := [], nearest := timeMax }
  nearest := timeMax
  nsignals := 0
  heap := []
  timer := .reset
  pc _ := .idle
  failed := false
  history := []

/-- One label of a run. `schedule` says which free slot `get_resource` hands out and in which
bucket the caller's thread id hashes, `timer` which task of the heap is `tasks[0]` and what
`gettimeofday_us` returns. -/
inductive Act (n : ℕ) (ι : Type*) where
  | schedule (i : ι) (slot : ℕ) (b : Fin n) (runTime : ℤ)
  | go (i : ι)
  | unschedule (id : TaskId)
  | timer (top : ℕ) (now : ℤ)

section

variable (s : State n ι)

/-- Scheduler `i` goes to `p`. -/
def State.goto (i : ι) (p : Pc n) : State n ι :=
  { s with pc := update s.pc i p }

/-- The id of the task in slot `p`. -/
def State.taskId (p : ℕ) : TaskId := ⟨p, (s.tasks p).idVersion⟩

/-- `version` of slot `p` is written. -/
def State.setVersion (p v : ℕ) : State n ι :=
  { s with tasks := update s.tasks p { s.tasks p with version := v } }

/-- `return_resource`. -/
def State.returnResource (p : ℕ) : State n ι :=
  { s with
    free := update s.free p true
    history := .returned (s.taskId p) :: s.history }

/-- `Bucket::schedule` up to its section: a slot is taken and filled in, version 0 is skipped. -/
def schedule (i : ι) (slot : ℕ) (b : Fin n) (runTime : ℤ) : State n ι :=
  let version := if (s.tasks slot).version = 0 then 2 else (s.tasks slot).version
  { s with
    tasks := update s.tasks slot { runTime, idVersion := version, version }
    free := update s.free slot false
    history := .scheduled ⟨slot, version⟩ :: s.history }.goto i (.insert slot b)

/-- The section of `Bucket::schedule`. -/
def insertTask (i : ι) (slot : ℕ) (b : Fin n) : State n ι :=
  let runTime := (s.tasks slot).runTime
  let bucket := s.buckets b
  if runTime < bucket.nearest then
    { s with
      buckets := update s.buckets b
        { tasks := slot :: bucket.tasks, nearest := runTime } }.goto i (.update runTime)
  else
    { s with
      buckets := update s.buckets b
        { bucket with tasks := slot :: bucket.tasks } }.goto i .idle

/-- The global section of `schedule`. -/
def updateNearest (i : ι) (runTime : ℤ) : State n ι :=
  if runTime < s.nearest then
    { s with nearest := runTime, nsignals := s.nsignals + 1 }.goto i .idle
  else s.goto i .idle

/-- `unschedule`: its result and the state it leaves. -/
def unschedule (id : TaskId) : ℤ × State n ι :=
  if (s.tasks id.slot).version = id.version then
    (0, { s.setVersion id.slot ((id.version + 2) % 2 ^ 32) with
      history := .cancelled id :: s.history })
  else
    (if (s.tasks id.slot).version = (id.version + 1) % 2 ^ 32 then 1 else -1, s)

/-- One step of `run`. -/
def timerStep (top : ℕ) (now : ℤ) : State n ι :=
  match s.timer with
  | .reset => { s with nearest := timeMax, timer := .pull 0 }
  | .pull k =>
    if h : k < n then
      if (s.buckets ⟨k, h⟩).tasks = [] then { s with timer := .pull (k + 1) }
      else { s with timer := .take k }
    else { s with timer := .run }
  | .take k =>
    if h : k < n then
      if (s.buckets ⟨k, h⟩).tasks = [] then { s with timer := .sift k [] }
      else
        { s with
          buckets := update s.buckets ⟨k, h⟩ { tasks := [], nearest := timeMax }
          timer := .sift k (s.buckets ⟨k, h⟩).tasks }
    else s
  | .sift k [] => { s with timer := .pull (k + 1) }
  | .sift k (p :: ps) =>
    if (s.tasks p).version = (s.tasks p).idVersion then
      { s with heap := p :: s.heap, timer := .sift k ps }
    else { s with timer := .drop k p ps }
  | .drop k p ps =>
    { s.returnResource p with
      failed := s.failed || (s.tasks p).version != ((s.tasks p).idVersion + 2) % 2 ^ 32
      timer := .sift k ps }
  | .run =>
    if s.heap = [] then { s with timer := .decide timeMax }
    else if top ∈ s.heap ∧ ∀ q ∈ s.heap, (s.tasks top).runTime ≤ (s.tasks q).runTime then
      if now < (s.tasks top).runTime then { s with timer := .decide (s.tasks top).runTime }
      else { s with timer := .check top }
    else s
  | .check p =>
    if (s.tasks p).runTime > s.nearest then { s with timer := .reset }
    else { s with heap := s.heap.erase p, timer := .exec p }
  | .exec p =>
    let idVersion := (s.tasks p).idVersion
    if (s.tasks p).version = idVersion then
      { s.setVersion p ((idVersion + 1) % 2 ^ 32) with
        history := .ran (s.taskId p) :: s.history
        timer := .call p }
    else if (s.tasks p).version = (idVersion + 2) % 2 ^ 32 then { s with timer := .giveBack p }
    else { s with failed := true, timer := .run }
  | .call p =>
    { s.setVersion p (((s.tasks p).idVersion + 2) % 2 ^ 32) with timer := .giveBack p }
  | .giveBack p => { s.returnResource p with timer := .run }
  | .decide T =>
    if T > s.nearest then { s with timer := .reset }
    else { s with nearest := T, timer := .sleep T s.nsignals }
  | .sleep _ _ => { s with timer := .reset }

/-- One step of the machine. `unschedule` is called with ids that `schedule` made. -/
def step : Act n ι → State n ι
  | .schedule i slot b runTime =>
    match s.pc i with
    | .idle => if s.free slot = true then schedule s i slot b runTime else s
    | _ => s
  | .go i =>
    match s.pc i with
    | .idle => s
    | .insert slot b => insertTask s i slot b
    | .update runTime => updateNearest s i runTime
  | .unschedule id => if .scheduled id ∈ s.history then (unschedule s id).2 else s
  | .timer top now => timerStep s top now

end

/-! ## Where a task is -/

/-- The places a slot can be in. `gone` holds the slot that the timer thread is about to
return. -/
inductive Place (n : ℕ) (ι : Type*) where
  | pool
  | insert (i : ι)
  | bucket (b : Fin n)
  | pulled
  | heap
  | exec
  | call
  | gone

/-- The tasks of the visited bucket that are still to be looked at. -/
def TimerPc.pulled : TimerPc → List ℕ
  | .sift _ ps | .drop _ _ ps => ps
  | _ => []

/-- The slot in front of `return_resource`. -/
def TimerPc.gone : TimerPc → Option ℕ
  | .drop _ p _ | .giveBack p => some p
  | _ => none

/-- Slot `p` is in the place `x`. -/
def State.At (s : State n ι) (p : ℕ) : Place n ι → Prop
  | .pool => s.free p = true
  | .insert i => ∃ b, s.pc i = .insert p b
  | .bucket b => p ∈ (s.buckets b).tasks
  | .pulled => p ∈ s.timer.pulled
  | .heap => p ∈ s.heap
  | .exec => s.timer = .exec p
  | .call => s.timer = .call p
  | .gone => s.timer.gone = some p

open State

open TimerPc

structure Placed (s : State n ι) : Prop where
  unique : ∀ p x y, s.At p x → s.At p y → x = y
  bucket : ∀ b, (s.buckets b).tasks.Nodup
  pulled : s.timer.pulled.Nodup
  heap : s.heap.Nodup
  check : ∀ p, s.timer = .check p → p ∈ s.heap

section Steps

variable {s s' : State n ι} {i : ι} {p : ℕ} {b : Fin n} {k slot : ℕ} {ps : List ℕ} {runTime : ℤ}
  {t : TimerPc} {f : Bool} {g : ℤ} {q : Pc n} {tasks : ℕ → Task} {x : Place n ι}

omit [DecidableEq ι] in
theorem start_placed : Placed (start n ι) := by
  refine ⟨?_, fun _ => nodup_nil, nodup_nil, nodup_nil, by simp [start]⟩
  intro p x y hx hy
  cases x <;> cases y <;> simp_all [State.At, start, pulled, gone]

def Stays (s s' : State n ι) : Prop := ∀ p x, s'.At p x ↔ s.At p x

/-- The slot `q` moves from `x` to `y`, and no other. -/
def Moves (s s' : State n ι) (q : ℕ) (x y : Place n ι) : Prop :=
  s.At q x ∧ ∀ p z, s'.At p z ↔ (p = q ∧ z = y) ∨ (s.At p z ∧ ¬ (p = q ∧ z = x))

omit [DecidableEq ι] in
theorem Placed.stays (h : Placed s) (hat : Stays s s') (hb : ∀ b, (s'.buckets b).tasks.Nodup)
    (hp : s'.timer.pulled.Nodup) (hh : s'.heap.Nodup)
    (hc : ∀ p, s'.timer = .check p → p ∈ s'.heap) : Placed s' :=
  ⟨fun p x y hx hy => h.unique p x y ((hat p x).1 hx) ((hat p y).1 hy), hb, hp, hh, hc⟩

omit [DecidableEq ι] in
theorem Placed.moves (h : Placed s) {q : ℕ} {y : Place n ι} (hm : Moves s s' q x y)
    (hb : ∀ b, (s'.buckets b).tasks.Nodup) (hp : s'.timer.pulled.Nodup) (hh : s'.heap.Nodup)
    (hc : ∀ p, s'.timer = .check p → p ∈ s'.heap) : Placed s' := by
  obtain ⟨hq, hat⟩ := hm
  have hleft : ∀ z, s.At q z → ¬ z ≠ x := fun z hz hne => hne (h.unique q z x hz hq)
  refine ⟨?_, hb, hp, hh, hc⟩
  intro p z w hz hw
  rcases (hat p z).1 hz with ⟨rfl, rfl⟩ | ⟨hz, hzx⟩ <;>
    rcases (hat p w).1 hw with ⟨hpq, rfl⟩ | ⟨hw, hwx⟩
  · rfl
  · exact absurd (fun heq => hwx ⟨rfl, heq⟩) (hleft w hw)
  · subst hpq
    exact absurd (fun heq => hzx ⟨rfl, heq⟩) (hleft z hz)
  · exact h.unique p z w hz hw

/-! ### What each step moves -/

theorem schedule_moves (hpc : s.pc i = .idle)
    (hfree : s.free slot = true) :
    Moves s (schedule s i slot b runTime) slot .pool (.insert i) := by
  refine ⟨hfree, ?_⟩
  intro p z
  cases z with
  | pool =>
    obtain rfl | hne := eq_or_ne p slot
    · simp [State.At, schedule, goto]
    · simp [State.At, schedule, goto, hne]
  | insert j =>
    obtain rfl | hj := eq_or_ne j i
    · simp [State.At, schedule, goto, hpc, eq_comm]
    · simp [State.At, schedule, goto, hj]
  | _ => simp [State.At, schedule, goto]

/-- A scheduler links its slot in front of bucket `b` and goes on to `q`. -/
theorem link_moves {nearest : ℤ}
    (hpc : s.pc i = .insert slot b) (hq : ∀ p b, q ≠ .insert p b) :
    Moves s ({ s with
      buckets := update s.buckets b
        { tasks := slot :: (s.buckets b).tasks, nearest } }.goto i q)
      slot (.insert i) (.bucket b) := by
  refine ⟨⟨b, hpc⟩, ?_⟩
  intro p z
  cases z with
  | insert j =>
    obtain rfl | hj := eq_or_ne j i
    · have hold : (∃ c, s.pc j = .insert p c) ↔ p = slot := by
        simp [hpc, eq_comm]
      simp [State.At, goto, hq, hold]
    · simp [State.At, goto, hj]
  | bucket c =>
    obtain rfl | hc := eq_or_ne c b
    · simp [State.At, goto]
    · simp [State.At, goto, hc]
  | _ => simp [State.At, goto]

theorem goto_stays (hi : ∀ p b, s.pc i ≠ .insert p b) (hq : ∀ p b, q ≠ .insert p b) :
    Stays s (s.goto i q) := by
  intro p x
  cases x with
  | insert j =>
    obtain rfl | hj := eq_or_ne j i
    · simp [State.At, goto, hi, hq]
    · simp [State.At, goto, update_of_ne hj]
  | _ => rfl

omit [DecidableEq ι] in
theorem unschedule_stays (id : TaskId) : Stays s (unschedule s id).2 := by
  intro p x
  unfold unschedule
  split
  · cases x <;> rfl
  · rfl

def TimerPc.Calm (t : TimerPc) : Prop :=
  t.pulled = [] ∧ t.gone = none ∧ (∀ p, t ≠ .exec p) ∧ ∀ p, t ≠ .call p

section

omit [DecidableEq ι]

theorem calm_stays (ht : t.Calm) (hs : s.timer.Calm) :
    Stays s { s with nearest := g, timer := t } := by
  obtain ⟨hp, hg, he, hc⟩ := ht
  obtain ⟨hp', hg', he', hc'⟩ := hs
  intro p x
  cases x with
  | pulled => simp [State.At, hp, hp']
  | exec => simp [State.At, he, he']
  | call => simp [State.At, hc, hc']
  | gone => simp [State.At, hg, hg']
  | _ => rfl

theorem take_at (hk : k < n) (ht : s.timer = .take k) (p : ℕ) (x : Place n ι) :
    State.At { s with
      buckets := update s.buckets ⟨k, hk⟩ { tasks := [], nearest := timeMax }
      timer := .sift k (s.buckets ⟨k, hk⟩).tasks } p x ↔
      (x = .pulled ∧ s.At p (.bucket ⟨k, hk⟩)) ∨ (s.At p x ∧ x ≠ .bucket ⟨k, hk⟩) := by
  cases x with
  | bucket c =>
    obtain rfl | hc := eq_or_ne c ⟨k, hk⟩
    · simp [State.At]
    · simp [State.At, hc]
  | pulled => simp [State.At, ht, pulled]
  | exec => simp [State.At, ht]
  | call => simp [State.At, ht]
  | gone => simp [State.At, ht, gone]
  | _ => simp [State.At]

theorem Placed.sift_nodup (h : Placed s)
    (ht : s.timer = .sift k (p :: ps)) : (p :: ps).Nodup := by
  simpa [ht, TimerPc.pulled] using h.pulled

end

omit [DecidableEq ι] in
theorem push_moves (h : Placed s) (ht : s.timer = .sift k (p :: ps)) :
    Moves s { s with heap := p :: s.heap, timer := .sift k ps } p .pulled .heap := by
  have hnot : p ∉ ps := (nodup_cons.1 (h.sift_nodup ht)).1
  refine ⟨by simp [State.At, ht, pulled], ?_⟩
  intro q x
  cases x with
  | pulled =>
    obtain rfl | hne := eq_or_ne q p
    · simp [State.At, ht, pulled, hnot]
    · simp [State.At, ht, pulled, hne]
  | exec => simp [State.At, ht]
  | call => simp [State.At, ht]
  | gone => simp [State.At, ht, gone]
  | _ => simp [State.At]

omit [DecidableEq ι] in
theorem sift_moves (h : Placed s) (ht : s.timer = .sift k (p :: ps)) :
    Moves s { s with timer := .drop k p ps } p .pulled .gone := by
  have hnot : p ∉ ps := (nodup_cons.1 (h.sift_nodup ht)).1
  refine ⟨by simp [State.At, ht, pulled], ?_⟩
  intro q x
  cases x with
  | pulled =>
    obtain rfl | hne := eq_or_ne q p
    · simp [State.At, ht, pulled, hnot]
    · simp [State.At, ht, pulled, hne]
  | exec => simp [State.At, ht]
  | call => simp [State.At, ht]
  | gone => simp [State.At, ht, gone, eq_comm]
  | _ => simp [State.At]

section

omit [DecidableEq ι]

theorem give_moves (hp : s.timer.gone = some p)
    (ht : t.pulled = s.timer.pulled) (hg : t.gone = none) (he : ∀ p, t ≠ .exec p)
    (hc : ∀ p, t ≠ .call p) :
    Moves s { s.returnResource p with failed := f, timer := t } p .gone .pool := by
  refine ⟨hp, ?_⟩
  have hexec : ∀ q, s.timer ≠ .exec q := by
    intro q heq
    rw [heq] at hp
    cases hp
  have hcall : ∀ q, s.timer ≠ .call q := by
    intro q heq
    rw [heq] at hp
    cases hp
  intro q x
  cases x with
  | pool =>
    obtain rfl | hne := eq_or_ne q p
    · simp [State.At, returnResource]
    · simp [State.At, returnResource, hne]
  | pulled => simp [State.At, ht]
  | exec => simp [State.At, he, hexec]
  | call => simp [State.At, hc, hcall]
  | gone => simp [State.At, hg, hp, eq_comm]
  | _ => simp [State.At, returnResource]

theorem pop_moves (h : Placed s) (ht : s.timer = .check p) :
    Moves s { s with heap := s.heap.erase p, timer := .exec p } p .heap .exec := by
  refine ⟨h.check p ht, ?_⟩
  intro q x
  cases x with
  | heap => simp [State.At, h.heap.mem_erase_iff, and_comm]
  | pulled => simp [State.At, ht, pulled]
  | exec => simp [State.At, ht, eq_comm]
  | call => simp [State.At, ht]
  | gone => simp [State.At, ht, gone]
  | _ => simp [State.At]

theorem call_moves {history : List Event} (ht : s.timer = .exec p) :
    Moves s { s with tasks, history, timer := .call p } p .exec .call := by
  refine ⟨ht, ?_⟩
  intro q x
  cases x with
  | pulled => simp [State.At, ht, pulled]
  | exec => simp [State.At, ht, eq_comm]
  | call => simp [State.At, ht, eq_comm]
  | gone => simp [State.At, ht, gone]
  | _ => simp [State.At]

theorem done_moves
    (hx : (s.timer = .exec p ∧ x = .exec) ∨ (s.timer = .call p ∧ x = .call)) :
    Moves s { s with tasks, timer := .giveBack p } p x .gone := by
  rcases hx with ⟨ht, rfl⟩ | ⟨ht, rfl⟩
  all_goals
    refine ⟨ht, ?_⟩
    intro q z
    cases z with
    | pulled => simp [State.At, ht, pulled]
    | exec => simp [State.At, ht, eq_comm]
    | call => simp [State.At, ht, eq_comm]
    | gone => simp [State.At, ht, gone, eq_comm]
    | _ => simp [State.At]

end

/-! ### Every slot stays in one place -/

theorem insertTask_placed (h : Placed s) (hpc : s.pc i = .insert slot b) :
    Placed (insertTask s i slot b) := by
  have hnot : slot ∉ (s.buckets b).tasks := fun hmem => by
    cases h.unique slot (.bucket b) (.insert i) hmem ⟨b, hpc⟩
  have hnd : ∀ nearest c, (update s.buckets b
      { tasks := slot :: (s.buckets b).tasks, nearest } c).tasks.Nodup := by
    intro nearest c
    obtain rfl | hc := eq_or_ne c b
    · simpa using ⟨hnot, h.bucket c⟩
    · simpa [update_of_ne hc] using h.bucket c
  simp only [insertTask]
  split
  · exact h.moves (link_moves hpc (by simp)) (hnd _) h.pulled h.heap h.check
  · exact h.moves (link_moves hpc (by simp)) (hnd _) h.pulled h.heap h.check

theorem updateNearest_stays (hpc : s.pc i = .update runTime) :
    Stays s (updateNearest s i runTime) := by
  unfold updateNearest
  split
  · intro p x
    rw [goto_stays (by simp [hpc]) (by simp) p x]
    cases x <;> rfl
  · exact goto_stays (by simp [hpc]) (by simp)

section

variable (h : Placed s)
include h

theorem updateNearest_placed (hpc : s.pc i = .update runTime) :
    Placed (updateNearest s i runTime) := by
  refine h.stays (updateNearest_stays hpc) ?_ ?_ ?_ ?_ <;> unfold updateNearest <;> split
  · exact h.bucket
  · exact h.bucket
  · exact h.pulled
  · exact h.pulled
  · exact h.heap
  · exact h.heap
  · exact h.check
  · exact h.check

section

omit [DecidableEq ι]

theorem unschedule_placed (id : TaskId) : Placed (unschedule s id).2 := by
  refine h.stays (unschedule_stays id) ?_ ?_ ?_ ?_ <;> unfold unschedule <;> split
  · exact h.bucket
  · exact h.bucket
  · exact h.pulled
  · exact h.pulled
  · exact h.heap
  · exact h.heap
  · exact h.check
  · exact h.check

theorem take_placed (hk : k < n) (ht : s.timer = .take k) : Placed { s with
      buckets := update s.buckets ⟨k, hk⟩ { tasks := [], nearest := timeMax }
      timer := .sift k (s.buckets ⟨k, hk⟩).tasks } := by
  refine ⟨?_, ?_, h.bucket _, h.heap, by simp⟩
  · intro p x y hx hy
    rcases (take_at hk ht p x).1 hx with ⟨rfl, hb⟩ | ⟨hx, hxb⟩ <;>
      rcases (take_at hk ht p y).1 hy with ⟨rfl, hb'⟩ | ⟨hy, hyb⟩
    · rfl
    · exact absurd (h.unique p _ _ hy hb) hyb
    · exact absurd (h.unique p _ _ hx hb') hxb
    · exact h.unique p x y hx hy
  · intro c
    obtain rfl | hc := eq_or_ne c ⟨k, hk⟩
    · simp
    · simpa [update_of_ne hc] using h.bucket c

theorem Placed.calm (ht : t.Calm)
    (hk : ∀ p, t = .check p → p ∈ s.heap) :
    Placed { s with nearest := g, failed := f, timer := t } := by
  obtain ⟨hp, hg, he, hc⟩ := ht
  have hat : ∀ p x, State.At { s with nearest := g, failed := f, timer := t } p x → s.At p x := by
    intro p x hx
    cases x with
    | pulled => simp [State.At, hp] at hx
    | exec => exact absurd hx (he p)
    | call => exact absurd hx (hc p)
    | gone => simp [State.At, hg] at hx
    | _ => exact hx
  exact ⟨fun p x y hx hy => h.unique p x y (hat p x hx) (hat p y hy), h.bucket,
    by rw [hp]; exact nodup_nil, h.heap, hk⟩

theorem timerStep_placed (top : ℕ) (now : ℤ) : Placed (timerStep s top now) := by
  unfold timerStep
  split
  · exact h.calm ⟨rfl, rfl, by simp, by simp⟩ (by simp)
  · split
    · split <;> exact h.calm ⟨rfl, rfl, by simp, by simp⟩ (by simp)
    · exact h.calm ⟨rfl, rfl, by simp, by simp⟩ (by simp)
  next k ht =>
    split
    next hk =>
      split
      · exact h.calm ⟨rfl, rfl, by simp, by simp⟩ (by simp)
      · exact take_placed h hk ht
    · exact h
  · exact h.calm ⟨rfl, rfl, by simp, by simp⟩ (by simp)
  next k p ps ht =>
    have hnd := h.sift_nodup ht
    have hnot : p ∉ s.heap := fun hmem => by
      cases h.unique p .heap .pulled hmem (by simp [State.At, ht, pulled])
    split
    · exact h.moves (push_moves h ht) h.bucket (nodup_cons.1 hnd).2
        (nodup_cons.2 ⟨hnot, h.heap⟩) (by simp)
    · exact h.moves (sift_moves h ht) h.bucket (nodup_cons.1 hnd).2 h.heap (by simp)
  next k p ps ht =>
    have hnd : ps.Nodup := by simpa [ht, pulled] using h.pulled
    exact h.moves (give_moves (by rw [ht]; rfl) (by rw [ht]; rfl) rfl (by simp) (by simp)) h.bucket
      hnd h.heap (by simp)
  · split
    · exact h.calm ⟨rfl, rfl, by simp, by simp⟩ (by simp)
    · split
      next htop =>
        split
        · exact h.calm ⟨rfl, rfl, by simp, by simp⟩ (by simp)
        · exact h.calm ⟨rfl, rfl, by simp, by simp⟩ (by simpa using htop.1)
      · exact h
  next p ht =>
    split
    · exact h.calm ⟨rfl, rfl, by simp, by simp⟩ (by simp)
    · exact h.moves (pop_moves h ht) h.bucket nodup_nil (h.heap.erase p) (by simp)
  next p ht =>
    simp only
    split
    · exact h.moves (call_moves ht) h.bucket nodup_nil h.heap (by simp)
    · split
      · exact h.moves (done_moves (.inl ⟨ht, rfl⟩)) h.bucket nodup_nil h.heap (by simp)
      · exact h.calm ⟨rfl, rfl, by simp, by simp⟩ (by simp)
  next p ht =>
    exact h.moves (done_moves (.inr ⟨ht, rfl⟩)) h.bucket nodup_nil h.heap (by simp)
  next p ht =>
    exact h.moves (give_moves (by rw [ht]; rfl) (by rw [ht]; rfl) rfl (by simp) (by simp)) h.bucket
      nodup_nil h.heap (by simp)
  · split <;> exact h.calm ⟨rfl, rfl, by simp, by simp⟩ (by simp)
  · exact h.calm ⟨rfl, rfl, by simp, by simp⟩ (by simp)

end

theorem step_placed (a : Act n ι) : Placed (step s a) := by
  cases a with
  | schedule i slot b runTime =>
    simp only [step]
    split
    next hpc =>
      split
      next hfree =>
        exact h.moves (schedule_moves hpc hfree) h.bucket h.pulled h.heap h.check
      · exact h
    · exact h
  | go i =>
    simp only [step]
    split
    · exact h
    next slot b hpc =>
      exact insertTask_placed h hpc
    next runTime hpc =>
      exact updateNearest_placed h hpc
  | unschedule id =>
    simp only [step]
    split
    · exact unschedule_placed h id
    · exact h
  | timer top now => exact timerStep_placed h top now

end

end Steps

/-! ## The nearest time -/

/-- While the thread is committed to sleep until `T` and no scheduler is between its two
sections, nothing that is due before `T` is left in a bucket or in the heap, or the futex will not
wait. -/
def NeverOversleeps (s : State n ι) : Prop :=
  ∀ T expectedNsignals, s.timer = .sleep T expectedNsignals →
    (∀ i runTime, s.pc i ≠ .update runTime) →
    ((∀ b, ∀ p ∈ (s.buckets b).tasks, T ≤ (s.tasks p).runTime) ∧
      ∀ p ∈ s.heap, T ≤ (s.tasks p).runTime) ∨
    s.nsignals ≠ expectedNsignals

/-- The buckets `b` with `b < visited` have been visited since the nearest time was reset. -/
def TimerPc.visited (n : ℕ) : TimerPc → ℕ
  | .reset => 0
  | .pull k | .take k => k
  | .sift k _ | .drop k _ _ => k + 1
  | _ => n

/-- The time that the thread has read from its heap. -/
def TimerPc.target : TimerPc → Option ℤ
  | .decide T | .sleep T _ => some T
  | _ => none

/-- A scheduler on its way to the global section with a time that is not after `t`. -/
def State.Reported (s : State n ι) (t : ℤ) : Prop :=
  ∃ i runTime, s.pc i = .update runTime ∧ runTime ≤ t

/-- The invariant. A bucket that was visited since the last reset is covered by the global nearest
time, or by a scheduler that will lower it: `covered`. -/
structure Timely (s : State n ι) : Prop where
  floor : ∀ b, ∀ p ∈ (s.buckets b).tasks, (s.buckets b).nearest ≤ (s.tasks p).runTime
  empty : ∀ b, (s.buckets b).tasks = [] → (s.buckets b).nearest = timeMax
  le_max : s.nearest ≤ timeMax
  covered : ∀ b : Fin n, b < s.timer.visited n →
    s.nearest ≤ (s.buckets b).nearest ∨ s.Reported (s.buckets b).nearest
  target : ∀ T ∈ s.timer.target, ∀ p ∈ s.heap, T ≤ (s.tasks p).runTime
  signals : ∀ T k, s.timer = .sleep T k → (s.nsignals = k ∧ s.nearest = T) ∨ k < s.nsignals

omit [DecidableEq ι] in
theorem Timely.neverOversleeps {s : State n ι} (h : Timely s) : NeverOversleeps s := by
  intro T k ht hidle
  rcases h.signals T k ht with ⟨-, hT⟩ | hk
  · left
    refine ⟨?_, h.target T (by rw [ht]; rfl)⟩
    intro b p hp
    have hcov := h.covered b (by rw [ht]; exact b.isLt)
    rcases hcov with hle | ⟨i, r, hi, -⟩
    · calc T = s.nearest := hT.symm
        _ ≤ (s.buckets b).nearest := hle
        _ ≤ (s.tasks p).runTime := h.floor b p hp
    · exact absurd hi (hidle i r)
  · exact .inr (Nat.ne_of_gt hk)

omit [DecidableEq ι] in
theorem start_timely : Timely (start n ι) := by
  refine ⟨?_, fun _ _ => rfl, Int.le_refl _, ?_, ?_, ?_⟩
  · intro b p hp
    cases hp
  · intro b hb
    cases hb
  · intro T hT
    cases hT
  · intro T k ht
    cases ht

section Steps

variable {s s' : State n ι} {i : ι} {p : ℕ} {b : Fin n} {slot : ℕ} {q : Pc n}

omit [DecidableEq ι] in
theorem Timely.tasks (h : Timely s) {tasks : ℕ → Task} {free : ℕ → Bool} {f : Bool}
    {history : List Event}
    (hb : ∀ b, ∀ p ∈ (s.buckets b).tasks, (tasks p).runTime = (s.tasks p).runTime)
    (hh : ∀ p ∈ s.heap, (tasks p).runTime = (s.tasks p).runTime) :
    Timely { s with tasks, free, failed := f, history } := by
  refine ⟨?_, h.empty, h.le_max, h.covered, ?_, h.signals⟩
  · intro b p hp
    rw [hb b p hp]
    exact h.floor b p hp
  · intro T hT p hp
    rw [hh p hp]
    exact h.target T hT p hp

omit [DecidableEq ι] in
theorem setVersion_runTime {q v : ℕ} :
    ((s.setVersion q v).tasks p).runTime = (s.tasks p).runTime := by
  obtain rfl | hne := eq_or_ne p q
  · simp [setVersion]
  · simp [setVersion, update_of_ne hne]

theorem Timely.goto (h : Timely s) (hi : ∀ r, s.pc i ≠ .update r) :
    Timely (s.goto i q) := by
  refine ⟨h.floor, h.empty, h.le_max, ?_, h.target, h.signals⟩
  intro b hb
  rcases h.covered b hb with hle | ⟨j, r, hj, hr⟩
  · exact .inl hle
  · have hji : j ≠ i := fun heq => hi r (heq ▸ hj)
    exact .inr ⟨j, r, by simpa [State.goto, update_of_ne hji] using hj, hr⟩

theorem schedule_timely (hp : Placed s) (h : Timely s) {runTime : ℤ}
    (hpc : s.pc i = .idle) (hfree : s.free slot = true) :
    Timely (schedule s i slot b runTime) := by
  have hb : ∀ c, ∀ p ∈ (s.buckets c).tasks, p ≠ slot := by
    rintro c p hmem rfl
    cases hp.unique p (.bucket c) .pool hmem hfree
  have hh : ∀ p ∈ s.heap, p ≠ slot := by
    rintro p hmem rfl
    cases hp.unique p .heap .pool hmem hfree
  refine Timely.goto (.tasks (f := s.failed) h ?_ ?_) (by simp [hpc])
  · intro c p hmem
    rw [update_of_ne (hb c p hmem)]
  · intro p hmem
    rw [update_of_ne (hh p hmem)]

section

variable (h : Timely s)
include h

/-- A scheduler links its slot; `nearest` is the new nearest time of the bucket. -/
theorem Timely.linked {nearest : ℤ}
    (hpc : s.pc i = .insert slot b) (hle : nearest ≤ (s.buckets b).nearest)
    (hslot : nearest ≤ (s.tasks slot).runTime)
    (hq : nearest = (s.buckets b).nearest ∨ q = .update nearest) :
    Timely ({ s with
      buckets := update s.buckets b
        { tasks := slot :: (s.buckets b).tasks, nearest } }.goto i q) := by
  have hkeep : ∀ t, s.Reported t → State.Reported ({ s with
      buckets := update s.buckets b
        { tasks := slot :: (s.buckets b).tasks, nearest } }.goto i q) t := by
    rintro t ⟨j, r, hj, hr⟩
    have hji : j ≠ i := by
      rintro rfl
      rw [hpc] at hj
      cases hj
    exact ⟨j, r, by simpa [State.goto, update_of_ne hji] using hj, hr⟩
  refine ⟨?_, ?_, h.le_max, ?_, h.target, h.signals⟩
  · intro c p hp
    obtain rfl | hc := eq_or_ne c b
    · simp only [State.goto, update_self, mem_cons] at hp ⊢
      rcases hp with rfl | hp
      · exact hslot
      · exact Int.le_trans hle (h.floor c p hp)
    · simp only [State.goto, update_of_ne hc] at hp ⊢
      exact h.floor c p hp
  · intro c hc
    obtain rfl | hcb := eq_or_ne c b
    · simp [State.goto] at hc
    · simp only [State.goto, update_of_ne hcb] at hc ⊢
      exact h.empty c hc
  · intro c hc
    obtain rfl | hcb := eq_or_ne c b
    · simp only [State.goto, update_self]
      rcases hq with rfl | rfl
      · rcases h.covered c hc with hle | hrep
        · exact .inl hle
        · exact .inr (hkeep _ hrep)
      · exact .inr ⟨i, nearest, update_self .., Int.le_refl _⟩
    · simp only [State.goto, update_of_ne hcb]
      rcases h.covered c hc with hle | hrep
      · exact .inl hle
      · exact .inr (hkeep _ hrep)

theorem insertTask_timely (hpc : s.pc i = .insert slot b) :
    Timely (insertTask s i slot b) := by
  simp only [insertTask]
  split
  next hlt =>
    exact h.linked hpc (Int.le_of_lt hlt) (Int.le_refl _) (.inr rfl)
  next hge =>
    exact h.linked hpc (Int.le_refl _) (Int.not_lt.1 hge) (.inl rfl)

theorem updateNearest_timely {runTime : ℤ} (hpc : s.pc i = .update runTime) :
    Timely (updateNearest s i runTime) := by
  have hrep : ∀ t, s.Reported t → runTime ≤ t ∨ ∃ j r, j ≠ i ∧ s.pc j = .update r ∧ r ≤ t := by
    rintro t ⟨j, r, hj, hr⟩
    obtain rfl | hji := eq_or_ne j i
    · rw [hpc] at hj
      cases hj
      exact .inl hr
    · exact .inr ⟨j, r, hji, hj, hr⟩
  unfold updateNearest
  split
  next hlt =>
    refine ⟨h.floor, h.empty, Int.le_trans (Int.le_of_lt hlt) h.le_max, ?_, h.target, ?_⟩
    · intro b hb
      rcases h.covered b hb with hle | hr
      · exact .inl (Int.le_trans (Int.le_of_lt hlt) hle)
      · rcases hrep _ hr with hle | ⟨j, r, hji, hj, hr⟩
        · exact .inl hle
        · exact .inr ⟨j, r, by simpa [goto, update_of_ne hji] using hj, hr⟩
    · -- a committed thread is told
      intro T k ht
      right
      rcases h.signals T k ht with ⟨rfl, -⟩ | hk
      · exact Nat.lt_succ_self _
      · exact Nat.lt_succ_of_lt hk
  next hge =>
    refine ⟨h.floor, h.empty, h.le_max, ?_, h.target, h.signals⟩
    intro b hb
    rcases h.covered b hb with hle | hr
    · exact .inl hle
    · rcases hrep _ hr with hle | ⟨j, r, hji, hj, hr⟩
      · exact .inl (Int.le_trans (Int.not_lt.1 hge) hle)
      · exact .inr ⟨j, r, by simpa [goto, update_of_ne hji] using hj, hr⟩

omit [DecidableEq ι] in
theorem unschedule_timely (id : TaskId) : Timely (unschedule s id).2 := by
  unfold unschedule
  split
  · exact Timely.tasks (f := s.failed) h (fun _ _ _ => setVersion_runTime)
      (fun _ _ => setVersion_runTime)
  · exact h

section

omit [DecidableEq ι]

theorem Timely.calm {t : TimerPc} {heap : List ℕ} (hv : t.visited n ≤ s.timer.visited n)
    (ht : ∀ T ∈ t.target, ∀ p ∈ heap, T ≤ (s.tasks p).runTime) (hs : ∀ T k, t ≠ .sleep T k) :
    Timely { s with heap, timer := t } :=
  ⟨h.floor, h.empty, h.le_max, fun b hb => h.covered b (Nat.lt_of_lt_of_le hb hv), ht,
    fun T k heq => absurd heq (hs T k)⟩

theorem Timely.passed {t : TimerPc} {k : ℕ} (hk : k < n)
    (hs : s.timer.visited n = k) (hb : (s.buckets ⟨k, hk⟩).tasks = []) (hv : t.visited n = k + 1)
    (ht : t.target = none) : Timely { s with timer := t } := by
  refine ⟨h.floor, h.empty, h.le_max, ?_, by simp [ht], ?_⟩
  · intro b hlt
    simp only [hv] at hlt
    rcases Nat.lt_succ_iff_lt_or_eq.1 hlt with hlt | heq
    · exact h.covered b (by rw [hs]; exact hlt)
    · left
      obtain rfl : b = ⟨k, hk⟩ := Fin.ext heq
      rw [h.empty _ hb]
      exact h.le_max
  · intro T j heq
    subst heq
    cases ht

theorem take_timely {k : ℕ} (hk : k < n) (ht : s.timer = .take k) : Timely { s with
      buckets := update s.buckets ⟨k, hk⟩ { tasks := [], nearest := timeMax }
      timer := .sift k (s.buckets ⟨k, hk⟩).tasks } := by
  refine ⟨?_, ?_, h.le_max, ?_, by simp [target], by simp⟩
  · intro b p hp
    obtain rfl | hb := eq_or_ne b ⟨k, hk⟩
    · simp at hp
    · simp only [update_of_ne hb] at hp ⊢
      exact h.floor b p hp
  · intro b hnil
    obtain rfl | hb := eq_or_ne b ⟨k, hk⟩
    · simp
    · simp only [update_of_ne hb] at hnil ⊢
      exact h.empty b hnil
  · intro b hlt
    obtain rfl | hb := eq_or_ne b ⟨k, hk⟩
    · simp only [update_self]
      exact .inl h.le_max
    · simp only [update_of_ne hb]
      refine h.covered b ?_
      have hne : (b : ℕ) ≠ k := fun heq => hb (Fin.ext heq)
      rw [ht]
      exact Nat.lt_of_le_of_ne (Nat.lt_succ_iff.1 hlt) hne

end

omit [DecidableEq ι] in
theorem timerStep_timely (top : ℕ) (now : ℤ) : Timely (timerStep s top now) := by
  unfold timerStep
  split
  · exact ⟨h.floor, h.empty, Int.le_refl _, by simp [visited], by simp [target],
      by simp⟩
  next k ht =>
    split
    next hk =>
      split
      next hnil =>
        exact h.passed hk (by rw [ht]; rfl) hnil rfl rfl
      · exact h.calm (by rw [ht]; exact Nat.le_refl _) (by simp [target]) (by simp)
    next hk =>
      exact h.calm (by rw [ht]; exact Nat.not_lt.1 hk) (by simp [target]) (by simp)
  next k ht =>
    split
    next hk =>
      split
      next hnil =>
        exact h.passed hk (by rw [ht]; rfl) hnil rfl rfl
      · exact take_timely h hk ht
    · exact h
  next k ht =>
    exact h.calm (by rw [ht]; exact Nat.le_refl _) (by simp [target]) (by simp)
  next k p ps ht =>
    split <;> exact h.calm (by rw [ht]; exact Nat.le_refl _) (by simp [target]) (by simp)
  next k p ps ht =>
    refine Timely.tasks (h.calm (t := .sift k ps) ?_ (by simp [target]) (by simp))
      (fun _ _ _ => rfl) (fun _ _ => rfl)
    rw [ht]
    exact Nat.le_refl _
  next ht =>
    split
    next hnil =>
      exact h.calm (by rw [ht]; exact Nat.le_refl _) (by simp [hnil]) (by simp)
    · split
      next htop =>
        split
        · refine h.calm (by rw [ht]; exact Nat.le_refl _) ?_ (by simp)
          intro T hT
          cases hT
          exact htop.2
        · exact h.calm (by rw [ht]; exact Nat.le_refl _) (by simp [target]) (by simp)
      · exact h
  next p ht =>
    split
    · exact h.calm (Nat.zero_le _) (by simp [target]) (by simp)
    · exact h.calm (by rw [ht]; exact Nat.le_refl _) (by simp [target]) (by simp)
  next p ht =>
    have hn : s.timer.visited n = n := by rw [ht]; rfl
    simp only
    split
    · exact Timely.tasks (f := s.failed)
        (h.calm (t := .call p) (Nat.le_of_eq hn.symm) (by simp [target]) (by simp))
        (fun _ _ _ => setVersion_runTime) (fun _ _ => setVersion_runTime)
    · split
      · exact h.calm (Nat.le_of_eq hn.symm) (by simp [target]) (by simp)
      · exact Timely.tasks
          (h.calm (t := .run) (Nat.le_of_eq hn.symm) (by simp [target]) (by simp))
          (fun _ _ _ => rfl) (fun _ _ => rfl)
  next p ht =>
    have hn : s.timer.visited n = n := by rw [ht]; rfl
    exact Timely.tasks (f := s.failed)
      (h.calm (t := .giveBack p) (Nat.le_of_eq hn.symm) (by simp [target]) (by simp))
      (fun _ _ _ => setVersion_runTime) (fun _ _ => setVersion_runTime)
  next p ht =>
    have hn : s.timer.visited n = n := by rw [ht]; rfl
    exact Timely.tasks (f := s.failed)
      (h.calm (t := .run) (Nat.le_of_eq hn.symm) (by simp [target]) (by simp))
      (fun _ _ _ => rfl) (fun _ _ => rfl)
  next T ht =>
    split
    · exact h.calm (Nat.zero_le _) (by simp [target]) (by simp)
    next hle =>
      have hle : T ≤ s.nearest := Int.not_lt.1 hle
      refine ⟨h.floor, h.empty, Int.le_trans hle h.le_max, ?_, ?_, ?_⟩
      · intro b _
        rcases h.covered b (by rw [ht]; exact b.isLt) with hcov | hrep
        · exact .inl (Int.le_trans hle hcov)
        · exact .inr hrep
      · intro T' hT'
        exact h.target T' (by rw [ht]; exact hT')
      · intro T' k heq
        cases heq
        exact .inl ⟨rfl, rfl⟩
  · exact h.calm (Nat.zero_le _) (by simp [target]) (by simp)

end

theorem step_timely (hp : Placed s) (h : Timely s) (a : Act n ι) : Timely (step s a) := by
  cases a with
  | schedule i slot b runTime =>
    simp only [step]
    split
    next hpc =>
      split
      next hfree =>
        exact schedule_timely hp h hpc hfree
      · exact h
    · exact h
  | go i =>
    simp only [step]
    split
    · exact h
    next slot b hpc =>
      exact insertTask_timely h hpc
    next runTime hpc =>
      exact updateNearest_timely h hpc
  | unschedule id =>
    simp only [step]
    split
    · exact unschedule_timely h id
    · exact h
  | timer top now => exact timerStep_timely h top now

end Steps

theorem placed_timely_keeps : Keeps (step (n := n) (ι := ι)) (fun s => Placed s ∧ Timely s) := by
  intro s a h
  exact ⟨step_placed h.1 a, step_timely h.1 h.2 a⟩

/-- **The timer thread never oversleeps**, in any interleaving of any number of schedulers with
its loop. -/
theorem run_neverOversleeps (n : ℕ) (acts : List (Act n ι)) :
    NeverOversleeps (runFrom step (start n ι) acts) := by
  have h := placed_timely_keeps.run (s := start n ι) ⟨start_placed, start_timely⟩ acts
  exact h.2.neverOversleeps

end Eabase.Fiber.TimerThread
