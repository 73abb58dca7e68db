import Mathlib.Data.List.Nodup
import Mathlib.Data.List.Lattice
import Mathlib.Data.Fin.Basic
import Eabase.Lib.Machine

/-!
# Butex

Threads that wait on butexes, and the parties that take them out of the lists
again: wakers, timers, interrupters, and a pthread whose own wait timed out. A
waiter lives on the stack of the thread that waits, so it is named by that
thread, and a use of it after the wait is over would be seen as a use of the
next one.

A section under `waiter_lock` is one step, also the one of `butex_requeue` that
holds two locks, and so is one under `version_lock`. Between the load of
`container` and the section under the lock of the butex that was found there
the other parties move.

The value of a butex is changed by its users at any time; whether it matches is
a choice of the label. The timer thread is running, so that `schedule` gives an
id.
-/

namespace Eabase.Fiber.Butex

open Lib Function List

variable {κ ι β : Type*} [DecidableEq κ] [DecidableEq ι] [DecidableEq β]

/-- Who waits: a fiber, a fiber that runs on the stack of its pthread or the main task of a worker,
a pthread that is no worker. The last has no `TaskMeta`. -/
inductive Kind where
  | fiber
  | pthreadTask
  | pthread
  deriving DecidableEq

/-- Where a thread stands. `publish` and `enter` are in front of the store to `current_waiter` and
of the section that links the waiter, `skip` is a fiber that was not linked and makes itself ready.
`erase` to `failed` are the steps of a pthread that timed out. `unsleep` is the loop of a fiber that
is back, `back` the loop that takes `current_waiter`, `clear` and `finish` reset `interrupted`. -/
inductive Pc (β : Type*) where
  | idle
  | publish (b : β) (timed : Bool)
  | enter (b : β) (timed : Bool)
  | skip
  | queued (timed : Bool)
  | erase
  | eraseLock (b : β)
  | failed
  | unsleep
  | clear
  | back
  | finish
  deriving DecidableEq

/-- The timer task of a fiber's waiter, `erase_from_butex_and_wakeup`: in front of the load of
`container`, of the section, of `ready_to_run_general`, of its end. -/
inductive Timer (β : Type*) where
  | none
  | pending
  | load
  | lock (b : β)
  | wake
  | returning
  | done
  | cancelled
  deriving DecidableEq

/-- What a wake function still has to do for the waiters that it removed: `unsleep_if_necessary`,
`ready_to_run`, `wakeup_pthread`. -/
inductive Job (κ : Type*) where
  | unsleep (t : κ)
  | ready (t : κ)
  | signal (t : κ)
  deriving DecidableEq

/-- Where a caller stands: in a wake function with its jobs, the number of waiters that were woken
and of those that the section removed, or in `interrupt` with the waiter that it took. -/
inductive Caller (κ β : Type*) where
  | idle
  | working (jobs : List (Job κ)) (nwakeup removed : ℕ)
  | erase (t : κ)
  | eraseLock (t : κ) (b : β)
  | eraseWake (t : κ)
  | putBack (t : κ)
  deriving DecidableEq

inductive Party (ι : Type*) where
  | caller (i : ι)
  | timer
  | self
  deriving DecidableEq

/-- The butexes, the waiters and the parties. What is counted: who has removed and who has resumed
the waiter of the wait in progress or of the last one, whether that waiter was ever `linked`, the
time `since` when it is in its list; and for each wake function that has returned, what it returned
and how many waiters it removed. -/
structure State (κ ι β : Type*) where
  waiters : β → List κ
  container : κ → Option β
  sig : κ → Bool
  currentWaiter : κ → Bool
  interrupted : κ → Bool
  timer : κ → Timer β
  pc : κ → Pc β
  caller : ι → Caller κ β
  removals : κ → List (Party ι)
  resumes : κ → List (Party ι)
  linked : κ → Bool
  since : κ → ℕ
  clock : ℕ
  results : List (ℕ × ℕ)

def start (κ ι β : Type*) : State κ ι β where
  waiters _ := []
  container _ := none
  sig _ := false
  currentWaiter _ := false
  interrupted _ := false
  timer _ := .none
  pc _ := .idle
  caller _ := .idle
  removals _ := []
  resumes _ := []
  linked _ := false
  since _ := 0
  clock := 0
  results := []

/-- One label of a run. `wait` builds the waiter of thread `t`, where `garbage` is what a pthread
finds in the memory of its `container`; `timeout` is a futex that times out. -/
inductive Act (κ ι β : Type*) where
  | wait (t : κ) (b : β) (timed : Bool) (garbage : Option β)
  | go (t : κ) (matched : Bool)
  | timeout (t : κ)
  | timer (t : κ)
  | wake (i : ι) (b : β)
  | wakeAll (i : ι) (b : β)
  | wakeExcept (i : ι) (b : β) (excluded : Option κ)
  | requeue (i : ι) (b m : β)
  | interrupt (i : ι) (t : κ)
  | call (i : ι)

section

variable (s : State κ ι β)

/-- Thread `t` goes to `c`. -/
def State.goto (t : κ) (c : Pc β) : State κ ι β :=
  { s with pc := update s.pc t c }

/-- Caller `i` goes to `c`. -/
def State.callTo (i : ι) (c : Caller κ β) : State κ ι β :=
  { s with caller := update s.caller i c }

def State.setTimer (t : κ) (x : Timer β) : State κ ι β :=
  { s with timer := update s.timer t x }

/-- `b->waiters.Append` and `container.store(b)`. -/
def State.append (b : β) (t : κ) : State κ ι β :=
  { s with
    waiters := update s.waiters b (s.waiters b ++ [t])
    container := update s.container t (some b)
    since := update s.since t s.clock
    clock := s.clock + 1 }

/-- `RemoveFromList` and `container.store(NULL)` for the waiters `ts`, in the name of `p`. -/
def State.unlink (ts : List κ) (p : Party ι) : State κ ι β :=
  { s with
    waiters := fun b => (s.waiters b).diff ts
    container := fun t => if t ∈ ts then none else s.container t
    removals := fun t => if t ∈ ts then p :: s.removals t else s.removals t }

end

/-- `ready_to_run` for a fiber, `wakeup_pthread` for the others, in the name of `p`. -/
def State.resume (kind : κ → Kind) (s : State κ ι β) (t : κ) (p : Party ι) : State κ ι β :=
  let s := { s with resumes := update s.resumes t (p :: s.resumes t) }
  if kind t = .fiber then s.goto t .unsleep else { s with sig := update s.sig t true }

/-- `unschedule` of a timer that is not yet running. -/
def State.unsleep (s : State κ ι β) (t : κ) : State κ ι β :=
  if s.timer t = .pending then s.setTimer t .cancelled else s

/-- The test of `erase_from_butex` under the lock of `b`. -/
def State.StillIn (s : State κ ι β) (t : κ) (b : β) : Prop := s.container t = some b

instance (s : State κ ι β) (t : κ) (b : β) : Decidable (s.StillIn t b) :=
  inferInstanceAs (Decidable (_ = _))

section

variable (kind : κ → Kind)

/-- The next step of thread `t`. -/
def goStep (s : State κ ι β) (t : κ) (matched : Bool) : State κ ι β :=
  match s.pc t with
  | .idle => s
  | .publish b timed =>
    if kind t = .pthread then s.goto t (.enter b timed)
    else { s with currentWaiter := update s.currentWaiter t true }.goto t (.enter b timed)
  | .enter b timed =>
    if matched = false then s.goto t (if kind t = .fiber then .skip else .back)
    else if s.interrupted t = true ∧ kind t ≠ .pthread then
      s.goto t (if kind t = .fiber then .skip else .clear)
    else
      { s.append b t with
        linked := update s.linked t true
        timer := if kind t = Kind.fiber ∧ timed = true then update s.timer t .pending
          else s.timer }.goto t (.queued timed)
  | .skip =>
    { s with resumes := update s.resumes t (.self :: s.resumes t) }.goto t .unsleep
  | .queued _ => if s.sig t then s.goto t .back else s
  | .erase =>
    match s.container t with
    | none => s.goto t .failed
    | some b => s.goto t (.eraseLock b)
  | .eraseLock b =>
    if s.StillIn t b then
      -- it goes on by itself, nobody signals it
      let s := s.unlink [t] .self
      { s with resumes := update s.resumes t (.self :: s.resumes t) }.goto t .back
    else s.goto t .erase
  | .failed => s.goto t (if s.sig t then .back else .queued false)
  | .unsleep =>
    match s.timer t with
    | .load | .lock _ | .wake | .returning => s
    | .none | .pending | .done | .cancelled => (s.unsleep t).goto t .back
  | .clear => { s with interrupted := update s.interrupted t false }.goto t .back
  | .back =>
    if kind t = .pthread then s.goto t .idle
    else if s.currentWaiter t then
      { s with currentWaiter := update s.currentWaiter t false }.goto t .finish
    else s
  | .finish => { s with interrupted := update s.interrupted t false }.goto t .idle

/-- The next step of the timer thread with the task of `t`. -/
def timerStep (s : State κ ι β) (t : κ) : State κ ι β :=
  match s.timer t with
  | .pending => s.setTimer t .load
  | .load =>
    match s.container t with
    | none => s.setTimer t .returning
    | some b => s.setTimer t (.lock b)
  | .lock b =>
    if s.StillIn t b then (s.unlink [t] .timer).setTimer t .wake else s.setTimer t .load
  | .wake => (s.resume kind t .timer).setTimer t .returning
  | .returning => s.setTimer t .done
  | .none | .done | .cancelled => s

def resumeJobs (t : κ) : List (Job κ) :=
  if kind t = .fiber then [.unsleep t, .ready t] else [.signal t]

/-- The waiters `ts` in the order of `butex_wake_except`: the pthreads, then the fibers
reversely. -/
def exceptJobs (ts : List κ) : List (Job κ) :=
  (ts.filter (kind · ≠ .fiber)).flatMap (resumeJobs kind) ++
    (ts.filter (kind · = .fiber)).reverse.flatMap (resumeJobs kind)

/-- The same in `butex_wake_all`, where the first fiber is taken out before the others and run in
the end. -/
def allJobs (ts : List κ) : List (Job κ) :=
  (ts.filter (kind · ≠ .fiber)).flatMap (resumeJobs kind) ++
    match ts.filter (kind · = .fiber) with
    | [] => []
    | next :: fibers =>
      .unsleep next :: fibers.reverse.flatMap (resumeJobs kind) ++ [.ready next]

/-- The waiters that `butex_wake_except` removes. -/
def notExcluded (excluded : Option κ) (ts : List κ) : List κ :=
  ts.filter fun t => ¬ (kind t = .fiber ∧ some t = excluded)

end

/-- The section of a wake function: `ts` are removed, `jobs` are left to do. -/
def State.wakeSection (s : State κ ι β) (i : ι) (ts : List κ) (jobs : List (Job κ)) : State κ ι β :=
  (s.unlink ts (.caller i)).callTo i (.working jobs 0 ts.length)

/-- All of `b` is moved to the end of `m`. -/
def State.moveAll (s : State κ ι β) (b m : β) : State κ ι β :=
  (s.waiters b).foldl (fun s t => s.append m t) { s with waiters := update s.waiters b [] }

/-- The next step of caller `i`. -/
def callStep (kind : κ → Kind) (s : State κ ι β) (i : ι) : State κ ι β :=
  match s.caller i with
  | .idle => s
  | .working [] n removed => { s with results := (n, removed) :: s.results }.callTo i .idle
  | .working (.unsleep t :: jobs) n removed => (s.unsleep t).callTo i (.working jobs n removed)
  | .working (.ready t :: jobs) n removed | .working (.signal t :: jobs) n removed =>
    (s.resume kind t (.caller i)).callTo i (.working jobs (n + 1) removed)
  | .erase t =>
    match s.container t with
    | none => s.callTo i (.putBack t)
    | some b => s.callTo i (.eraseLock t b)
  | .eraseLock t b =>
    if s.StillIn t b then (s.unlink [t] (.caller i)).callTo i (.eraseWake t)
    else s.callTo i (.erase t)
  | .eraseWake t => (s.resume kind t (.caller i)).callTo i (.putBack t)
  | .putBack t =>
    { s with currentWaiter := update s.currentWaiter t true }.callTo i .idle

/-- `interrupt_and_consume_waiters`. -/
def interruptStep (s : State κ ι β) (i : ι) (t : κ) : State κ ι β :=
  let s' := { s with interrupted := update s.interrupted t true }
  if s.currentWaiter t then
    { s' with currentWaiter := update s.currentWaiter t false }.callTo i (.erase t)
  else s'

/-- One step of the machine. `butex_requeue` of a butex to itself would wait for its own lock. -/
def step (kind : κ → Kind) (s : State κ ι β) : Act κ ι β → State κ ι β
  | .wait t b timed garbage =>
    if s.pc t = .idle then
      { s with
        container := update s.container t (if kind t = Kind.fiber then none else garbage)
        sig := update s.sig t false
        timer := update s.timer t .none
        removals := update s.removals t []
        resumes := update s.resumes t []
        linked := update s.linked t false }.goto t (.publish b timed)
    else s
  | .go t matched => goStep kind s t matched
  | .timeout t => if kind t ≠ .fiber ∧ s.pc t = .queued true then s.goto t .erase else s
  | .timer t => timerStep kind s t
  | .wake i b =>
    if s.caller i = .idle then
      match s.waiters b with
      | [] => s.callTo i (.working [] 0 0)
      | front :: _ => s.wakeSection i [front] (resumeJobs kind front)
    else s
  | .wakeAll i b =>
    if s.caller i = .idle then s.wakeSection i (s.waiters b) (allJobs kind (s.waiters b)) else s
  | .wakeExcept i b excluded =>
    if s.caller i = .idle then
      let ts := notExcluded kind excluded (s.waiters b)
      s.wakeSection i ts (exceptJobs kind ts)
    else s
  | .requeue i b m =>
    if s.caller i = .idle ∧ b ≠ m then
      match s.waiters b with
      | [] => s.callTo i (.working [] 0 0)
      | front :: _ => (s.wakeSection i [front] (resumeJobs kind front)).moveAll b m
    else s
  | .interrupt i t => if s.caller i = .idle then interruptStep s i t else s
  | .call i => callStep kind s i

/-! ## The property -/

/-- The thread is between its store to `current_waiter` and the end of the loop that takes it
back. -/
def Pc.published : Pc β → Bool
  | .idle | .publish _ _ | .finish => false
  | _ => true

/-- The waiter of `t` is known to interrupters. -/
def State.Published (kind : κ → Kind) (s : State κ ι β) (t : κ) : Prop :=
  kind t ≠ .pthread ∧ (s.pc t).published = true

/-- The container of the waiter is the butex in whose list it is linked. -/
def State.Tracked (s : State κ ι β) (t : κ) : Prop :=
  ∀ b, s.container t = some b ↔ t ∈ s.waiters b

/-- The waiters that a caller has removed and not yet resumed. -/
def Job.target : Job κ → Option κ
  | .unsleep _ => none
  | .ready t | .signal t => some t

def Caller.owed : Caller κ β → List κ
  | .working jobs _ _ => jobs.filterMap Job.target
  | .eraseWake t => [t]
  | _ => []

section

variable (s : State κ ι β) (t : κ)

/-- `p` is about to resume the waiter of `t`. -/
def State.Owes : Party ι → Prop
  | .caller i => t ∈ (s.caller i).owed
  | .timer => s.timer t = .wake
  | .self => False

/-- Nobody has removed or resumed the waiter or is about to resume it. -/
def State.Enqueued : Prop :=
  (∃ b, t ∈ s.waiters b) ∧ s.removals t = [] ∧ s.resumes t = [] ∧ ∀ p, ¬ s.Owes t p

/-- One party has removed the waiter and this one, no other, is about to resume it. -/
def State.Removed (p : Party ι) : Prop :=
  (∀ b, t ∉ s.waiters b) ∧ s.removals t = [p] ∧ s.resumes t = [] ∧ ∀ q, s.Owes t q ↔ q = p

/-- One party has removed the waiter and has resumed it, and nobody will do so again. -/
def State.Resumed (p : Party ι) : Prop :=
  (∀ b, t ∉ s.waiters b) ∧ s.removals t = [p] ∧ s.resumes t = [p] ∧ ∀ q, ¬ s.Owes t q

end

def Pc.isBack : Pc β → Bool
  | .idle | .unsleep | .back | .finish => true
  | _ => false

/-- Waiters are woken exactly once and tracked exactly. -/
structure Exact (kind : κ → Kind) (s : State κ ι β) : Prop where
  tracked : ∀ t, s.Published kind t → s.Tracked t
  /-- a waiter is linked in one list at most, and once -/
  oneList : ∀ t b c, t ∈ s.waiters b → t ∈ s.waiters c → b = c
  nodup : ∀ b, (s.waiters b).Nodup
  /-- a waiter that was enqueued is removed and resumed once, by the same party -/
  once : ∀ t, s.linked t = true → s.Enqueued t ∨ ∃ p, s.Removed t p ∨ s.Resumed t p
  resumed : ∀ t, s.linked t = true → (s.pc t).isBack = true → ∃ p, s.Resumed t p
  /-- `butex_wake` removes the waiter that is in the list for the longest time -/
  longest : ∀ i b, s.caller i = .idle → s.waiters b ≠ [] → ∃ front ∈ s.waiters b,
    (∀ t ∈ s.waiters b, t ≠ front → s.since front < s.since t) ∧
      ∀ c t, t ∈ (step kind s (.wake i b)).waiters c ↔ t ∈ s.waiters c ∧ t ≠ front
  /-- the wake functions return the number of waiters that they removed -/
  counts : ∀ r ∈ s.results, r.1 = r.2

/-- The condition on a step: a pthread that has a task finds `NULL` where its `container` will
be. -/
def Heeds (kind : κ → Kind) (_ : State κ ι β) : Act κ ι β → Prop
  | .wait t _ _ garbage => kind t = .pthreadTask → garbage = none
  | _ => True

instance (kind : κ → Kind) (s : State κ ι β) : ∀ a, Decidable (Heeds kind s a)
  | .wait t _ _ garbage => inferInstanceAs (Decidable (kind t = .pthreadTask → garbage = none))
  | .go _ _ | .timeout _ | .timer _ | .wake _ _ | .wakeAll _ _ | .wakeExcept _ _ _ | .requeue _ _ _
  | .interrupt _ _ | .call _ => isTrue trivial

/-! ## The invariant -/

section

variable (s : State κ ι β) (t : κ)

def State.Loose : Prop :=
  (∀ b, t ∉ s.waiters b) ∧ ∀ p, ¬ s.Owes t p

/-- The waiter was not linked so far. -/
def State.Fresh : Prop :=
  s.Loose t ∧ s.linked t = false ∧ s.removals t = [] ∧ s.resumes t = [] ∧ s.sig t = false

def State.Over : Prop :=
  (s.linked t = false ∧ s.Loose t) ∨ (s.linked t = true ∧ ∃ p, s.Resumed t p)

/-- Another party has removed the waiter. -/
def State.Gone : Prop :=
  s.linked t = true ∧
    ((s.sig t = false ∧ ∃ p, s.Removed t p) ∨ (s.sig t = true ∧ ∃ p, s.Resumed t p))

/-- The waiter is linked, or another party has removed it. -/
def State.Waits : Prop :=
  (s.linked t = true ∧ s.sig t = false ∧ s.Enqueued t) ∨ s.Gone t

end

/-- What holds of thread `t` at `c`. -/
def ThreadOk (kind : κ → Kind) (s : State κ ι β) (t : κ) : Pc β → Prop
  | .idle | .back | .finish => s.Over t
  | .unsleep => kind t = .fiber ∧ s.Over t
  | .publish _ _ | .enter _ _ => s.Fresh t
  | .skip => kind t = .fiber ∧ s.Fresh t
  | .clear => kind t ≠ .fiber ∧ s.Fresh t
  | .queued _ => s.Waits t
  | .erase | .eraseLock _ => kind t ≠ .fiber ∧ s.Waits t
  | .failed => kind t ≠ .fiber ∧ s.Gone t

def Pc.waits : Pc β → Bool
  | .queued _ | .erase | .eraseLock _ | .failed => true
  | _ => false

/-- The timer task may still use the waiter. -/
def Timer.active : Timer β → Bool
  | .pending | .load | .lock _ | .wake | .returning => true
  | _ => false

/-- The fiber does not leave while its timer is active. -/
def Pc.staysForTimer : Pc β → Bool
  | .queued _ | .unsleep => true
  | _ => false

/-- The waiter that `interrupt` has taken. -/
def Caller.holds : Caller κ β → Option κ
  | .erase t | .eraseLock t _ | .eraseWake t | .putBack t => some t
  | _ => none

/-- What holds of a caller: it resumes each waiter once and counts them. -/
def CallerOk (c : Caller κ β) : Prop :=
  c.owed.Nodup ∧ ∀ jobs n removed, c = .working jobs n removed → n + c.owed.length = removed

structure WaiterOk (kind : κ → Kind) (s : State κ ι β) (t : κ) : Prop where
  thread : ThreadOk kind s t (s.pc t)
  tracked : s.Published kind t ∨ (s.pc t).waits = true → s.Tracked t
  unpublished : ∀ b timed, s.pc t = .publish b timed → kind t ≠ .pthread → s.container t = none
  timer : (s.timer t).active = true → kind t = .fiber ∧ (s.pc t).staysForTimer = true
  unsignalled : kind t = .fiber → s.sig t = false
  current : s.currentWaiter t = true → s.Published kind t ∧ ∀ i, (s.caller i).holds ≠ some t
  held : ∀ i, (s.caller i).holds = some t → s.Published kind t
  heldBy : ∀ i j, (s.caller i).holds = some t → (s.caller j).holds = some t → i = j

/-- Every list is in the order in which its waiters came. -/
def State.InOrder (s : State κ ι β) : Prop :=
  ∀ b, ((s.waiters b).Pairwise fun t u => s.since t < s.since u) ∧
    ∀ t ∈ s.waiters b, s.since t < s.clock

structure Inv (kind : κ → Kind) (s : State κ ι β) : Prop where
  waiter : ∀ t, WaiterOk kind s t
  caller : ∀ i, CallerOk (s.caller i)
  order : s.InOrder
  results : ∀ r ∈ s.results, r.1 = r.2

section Consequences

variable {kind : κ → Kind} {s s' : State κ ι β} {t : κ} {p : Party ι} {c : Pc β} {b : β}

section

omit [DecidableEq κ] [DecidableEq ι] [DecidableEq β]

theorem ThreadOk.of_mem (h : ThreadOk kind s t c) (hb : t ∈ s.waiters b) :
    c.waits = true ∧ s.linked t = true ∧ s.sig t = false ∧ s.Enqueued t := by
  have hgone : ¬ s.Gone t := by
    rintro ⟨-, ⟨-, p, hr, -⟩ | ⟨-, p, hr, -⟩⟩ <;> exact hr b hb
  have hwaits : s.Waits t → s.linked t = true ∧ s.sig t = false ∧ s.Enqueued t :=
    fun hw => hw.resolve_right hgone
  have hfresh : ¬ s.Fresh t := fun hf => hf.1.1 b hb
  have hover : ¬ s.Over t := by
    rintro (⟨-, hl, -⟩ | ⟨-, p, hl, -⟩) <;> exact hl b hb
  cases c with
  | idle | back | finish => exact absurd h hover
  | unsleep => exact absurd h.2 hover
  | publish | enter => exact absurd h hfresh
  | skip | clear => exact absurd h.2 hfresh
  | queued => exact ⟨rfl, hwaits h⟩
  | erase | eraseLock => exact ⟨rfl, hwaits h.2⟩
  | failed => exact absurd h.2 hgone

theorem ThreadOk.of_owes (h : ThreadOk kind s t c) (hp : s.Owes t p) :
    c.waits = true ∧ s.linked t = true ∧ s.sig t = false ∧ s.Removed t p := by
  have hgone : s.Gone t → s.linked t = true ∧ s.sig t = false ∧ s.Removed t p := by
    rintro ⟨hl, ⟨hs, q, hq⟩ | ⟨-, q, hq⟩⟩
    · obtain rfl := (hq.2.2.2 p).1 hp
      exact ⟨hl, hs, hq⟩
    · exact absurd hp (hq.2.2.2 p)
  have hwaits : s.Waits t → s.linked t = true ∧ s.sig t = false ∧ s.Removed t p := by
    rintro (⟨-, -, he⟩ | hg)
    · exact absurd hp (he.2.2.2 p)
    · exact hgone hg
  have hfresh : ¬ s.Fresh t := fun hf => hf.1.2 p hp
  have hover : ¬ s.Over t := by
    rintro (⟨-, -, hl⟩ | ⟨-, q, -, -, -, hl⟩) <;> exact hl p hp
  cases c with
  | idle | back | finish => exact absurd h hover
  | unsleep => exact absurd h.2 hover
  | publish | enter => exact absurd h hfresh
  | skip | clear => exact absurd h.2 hfresh
  | queued => exact ⟨rfl, hwaits h⟩
  | erase | eraseLock => exact ⟨rfl, hwaits h.2⟩
  | failed => exact ⟨rfl, hgone h.2⟩

end

section

variable (h : Inv kind s)
include h

omit [DecidableEq κ] [DecidableEq ι] [DecidableEq β] in
theorem Inv.tracked_of_mem (hb : t ∈ s.waiters b) : s.container t = some b :=
  ((h.waiter t).tracked (.inr ((h.waiter t).thread.of_mem hb).1) b).2 hb

section

omit [DecidableEq κ] [DecidableEq ι] [DecidableEq β]

theorem Inv.nodup (b : β) : (s.waiters b).Nodup :=
  (h.order b).1.imp fun {t u} hlt => by
    rintro rfl
    exact lt_irrefl _ hlt

theorem Inv.once (hl : s.linked t = true) :
    s.Enqueued t ∨ ∃ p, s.Removed t p ∨ s.Resumed t p := by
  have hgone : s.Gone t → ∃ p, s.Removed t p ∨ s.Resumed t p := by
    rintro ⟨-, ⟨-, p, hp⟩ | ⟨-, p, hp⟩⟩
    · exact ⟨p, .inl hp⟩
    · exact ⟨p, .inr hp⟩
  have hwaits : s.Waits t → s.Enqueued t ∨ ∃ p, s.Removed t p ∨ s.Resumed t p := by
    rintro (⟨-, -, he⟩ | hg)
    · exact .inl he
    · exact .inr (hgone hg)
  have hfresh : ¬ s.Fresh t := by
    rintro ⟨-, hf, -⟩
    rw [hl] at hf
    cases hf
  have hover : s.Over t → ∃ p, s.Removed t p ∨ s.Resumed t p := by
    rintro (⟨hf, -⟩ | ⟨-, p, hp⟩)
    · rw [hl] at hf
      cases hf
    · exact ⟨p, .inr hp⟩
  have ht := (h.waiter t).thread
  cases hpc : s.pc t with
  | idle | back | finish =>
    rw [hpc] at ht
    exact .inr (hover ht)
  | unsleep =>
    rw [hpc] at ht
    exact .inr (hover ht.2)
  | publish | enter =>
    rw [hpc] at ht
    exact absurd ht hfresh
  | skip | clear =>
    rw [hpc] at ht
    exact absurd ht.2 hfresh
  | queued =>
    rw [hpc] at ht
    exact hwaits ht
  | erase | eraseLock =>
    rw [hpc] at ht
    exact hwaits ht.2
  | failed =>
    rw [hpc] at ht
    exact .inr (hgone ht.2)

theorem Inv.resumed (hl : s.linked t = true) (hpc : (s.pc t).isBack = true) :
    ∃ p, s.Resumed t p := by
  have hover : s.Over t := by
    have ht := (h.waiter t).thread
    cases hc : s.pc t with
    | idle | back | finish =>
      rw [hc] at ht
      exact ht
    | unsleep =>
      rw [hc] at ht
      exact ht.2
    | publish | enter | skip | clear | queued | erase | eraseLock | failed =>
      rw [hc] at hpc
      cases hpc
  rcases hover with ⟨hf, -⟩ | ⟨-, hr⟩
  · rw [hl] at hf
    cases hf
  · exact hr

end

theorem Inv.longest {i : ι} (hi : s.caller i = .idle) (hne : s.waiters b ≠ []) :
    ∃ front ∈ s.waiters b, (∀ t ∈ s.waiters b, t ≠ front → s.since front < s.since t) ∧
      ∀ c t, t ∈ (step kind s (.wake i b)).waiters c ↔ t ∈ s.waiters c ∧ t ≠ front := by
  obtain ⟨front, ts, hb⟩ := exists_cons_of_ne_nil hne
  refine ⟨front, by simp [hb], ?_, ?_⟩
  · have hsorted := (h.order b).1
    rw [hb] at hsorted ⊢
    intro t ht hne
    rcases mem_cons.1 ht with rfl | ht
    · exact absurd rfl hne
    · exact rel_of_pairwise_cons hsorted ht
  · intro c t
    have hw : (step kind s (.wake i b)).waiters c = (s.waiters c).diff [front] := by
      simp only [step, hi, if_true, hb]
      rfl
    rw [hw, (h.nodup c).mem_sdiff_iff, mem_singleton]

theorem Inv.exact : Exact kind s where
  tracked t ht := (h.waiter t).tracked (.inl ht)
  oneList t b c hb hc := by
    have := h.tracked_of_mem hb
    rw [h.tracked_of_mem hc] at this
    exact (Option.some.inj this).symm
  nodup := h.nodup
  once _ := h.once
  resumed _ := h.resumed
  longest _ _ := h.longest
  counts := h.results

end

end Consequences

omit [DecidableEq κ] [DecidableEq ι] [DecidableEq β] in
theorem start_inv (kind : κ → Kind) : Inv kind (start κ ι β) where
  waiter t := by
    refine ⟨?_, ?_, ?_, ?_, fun _ => rfl, ?_, ?_, ?_⟩
    · refine .inl ⟨rfl, fun _ => not_mem_nil, ?_⟩
      rintro (i | _ | _) hp
      · cases hp
      · cases hp
      · exact hp
    · rintro (⟨-, hp⟩ | hp) <;> cases hp
    · intro b timed hpc
      cases hpc
    · nofun
    · nofun
    · intro i hi
      cases hi
    · intro i j hi
      cases hi
  caller _ := by
    refine ⟨nodup_nil, ?_⟩
    intro jobs n removed hc
    cases hc
  order _ := ⟨List.Pairwise.nil, nofun⟩
  results _ hr := by cases hr

section Steps

variable {kind : κ → Kind} {s s' : State κ ι β} {t : κ} {p : Party ι} {c : Pc β} {b : β} {i : ι}
  {d : Caller κ β} {f : ι → Caller κ β} {timed : Bool} {ts : List κ} {x : Timer β} {τ : κ → Timer β}

section

omit [DecidableEq κ] [DecidableEq ι] [DecidableEq β]

theorem ThreadOk.congr (h : ThreadOk kind s t c) (hw : ∀ b, t ∈ s'.waiters b ↔ t ∈ s.waiters b)
    (ho : ∀ p, s'.Owes t p ↔ s.Owes t p) (hrem : s'.removals t = s.removals t)
    (hres : s'.resumes t = s.resumes t) (hl : s'.linked t = s.linked t)
    (hs : s'.sig t = s.sig t) : ThreadOk kind s' t c := by
  cases c <;> simp only [ThreadOk, State.Over, State.Waits, State.Gone, State.Fresh, State.Loose,
      State.Enqueued, State.Removed, State.Resumed, hw, ho, hrem, hres, hl, hs] at h ⊢ <;>
    exact h

theorem WaiterOk.congr (h : WaiterOk kind s t) (hpc : s'.pc t = s.pc t)
    (hw : ∀ b, t ∈ s'.waiters b ↔ t ∈ s.waiters b) (hc : s'.container t = s.container t)
    (ho : ∀ p, s'.Owes t p ↔ s.Owes t p) (hrem : s'.removals t = s.removals t)
    (hres : s'.resumes t = s.resumes t) (hl : s'.linked t = s.linked t) (hs : s'.sig t = s.sig t)
    (hcw : s'.currentWaiter t = s.currentWaiter t)
    (hτ : (s'.timer t).active = true → (s.timer t).active = true)
    (hh : ∀ i, (s'.caller i).holds = some t → (s.caller i).holds = some t) :
    WaiterOk kind s' t := by
  have hpub : s'.Published kind t ↔ s.Published kind t := by simp only [State.Published, hpc]
  constructor
  · rw [hpc]
    exact h.thread.congr hw ho hrem hres hl hs
  · rw [hpub, hpc]
    intro ht b
    rw [hc, hw]
    exact h.tracked ht b
  · rw [hpc, hc]
    exact h.unpublished
  · rw [hpc]
    exact fun ha => h.timer (hτ ha)
  · rw [hs]
    exact h.unsignalled
  · rw [hcw, hpub]
    intro ht
    exact ⟨(h.current ht).1, fun i hi => (h.current ht).2 i (hh i hi)⟩
  · rw [hpub]
    exact fun i hi => h.held i (hh i hi)
  · exact fun i j hi hj => h.heldBy i j (hh i hi) (hh j hj)

end

/-! ### The parties -/

/-- Timers and callers that go on to `τ` and `f`: no timer becomes active, no waiter is taken. -/
structure Parties (s : State κ ι β) (f : ι → Caller κ β) (τ : κ → Timer β) : Prop where
  timer : ∀ t, (τ t).active = true → (s.timer t).active = true
  holds : ∀ i t, (f i).holds = some t → (s.caller i).holds = some t
  caller : ∀ i, CallerOk (f i)

omit [DecidableEq κ] [DecidableEq β] in
theorem Parties.callTo (h : Inv kind s) (hd : CallerOk d)
    (hh : ∀ t, d.holds = some t → (s.caller i).holds = some t) :
    Parties s (update s.caller i d) s.timer := by
  refine ⟨fun _ => id, ?_, ?_⟩
  · intro j t
    obtain rfl | hj := eq_or_ne j i
    · rw [update_self]
      exact hh t
    · rw [update_of_ne hj]
      exact id
  · intro j
    obtain rfl | hj := eq_or_ne j i
    · rw [update_self]
      exact hd
    · rw [update_of_ne hj]
      exact h.caller j

section

omit [DecidableEq ι] [DecidableEq β]

theorem Parties.setTimer (h : Inv kind s) (ha : (s.timer t).active = true) :
    Parties s s.caller (update s.timer t x) := by
  refine ⟨?_, fun _ _ => id, h.caller⟩
  intro u
  obtain rfl | hu := eq_or_ne u t
  · exact fun _ => ha
  · rw [update_of_ne hu]
    exact id

omit [DecidableEq κ] in
theorem Inv.parties (h : Inv kind s) (hp : Parties s f τ)
    (ho : ∀ t p, { s with caller := f, timer := τ }.Owes t p ↔ s.Owes t p) :
    Inv kind { s with caller := f, timer := τ } where
  waiter t := (h.waiter t).congr rfl (fun _ => Iff.rfl) rfl (ho t) rfl rfl rfl rfl rfl (hp.timer t)
    (fun i => hp.holds i t)
  caller := hp.caller
  order := h.order
  results := h.results

omit [DecidableEq κ] in
theorem ThreadOk.waiting (h : ThreadOk kind s t c) (hc : c.waits = true) (hw : s'.Waits t)
    (hg : s.Gone t → s'.Gone t) : ThreadOk kind s' t c := by
  cases c with
  | queued => exact hw
  | erase | eraseLock => exact ⟨h.1, hw⟩
  | failed => exact ⟨h.1, hg h.2⟩
  | idle | publish | enter | skip | unsleep | clear | back | finish => cases hc

theorem Inv.unlink (h : Inv kind s)
    (hp : Parties s f τ) (hts : ∀ t ∈ ts, ∃ b, t ∈ s.waiters b)
    (ho : ∀ t q, { s with caller := f, timer := τ }.Owes t q ↔ s.Owes t q ∨ (t ∈ ts ∧ q = p)) :
    Inv kind { s.unlink ts p with caller := f, timer := τ } := by
  have hmem : ∀ b u, u ∈ (s.waiters b).diff ts ↔ u ∈ s.waiters b ∧ u ∉ ts :=
    fun b u => (h.nodup b).mem_sdiff_iff
  refine ⟨?_, hp.caller, ?_, h.results⟩
  · intro u
    by_cases hu : u ∈ ts
    · obtain ⟨b, hb⟩ := hts u hu
      have hok := h.waiter u
      obtain ⟨hwaits, hl, hs, -, hrem, hres, howes⟩ := hok.thread.of_mem hb
      set s' := { s.unlink ts p with caller := f, timer := τ }
      have hcont : s'.container u = none := if_pos hu
      have hgone : s'.Gone u := by
        refine ⟨hl, .inl ⟨hs, p, ?_, ?_, hres, ?_⟩⟩
        · intro b hb
          exact ((hmem b u).1 hb).2 hu
        · change (if u ∈ ts then p :: s.removals u else s.removals u) = [p]
          rw [if_pos hu, hrem]
        · intro q
          refine (ho u q).trans ?_
          simp [howes q, hu]
      refine ⟨?_, ?_, ?_, fun ha => hok.timer (hp.timer u ha), hok.unsignalled, ?_,
        fun i hi => hok.held i (hp.holds i u hi), ?_⟩
      · exact hok.thread.waiting hwaits (.inr hgone) fun _ => hgone
      · intro _ b
        rw [hcont]
        constructor
        · nofun
        · intro hb
          exact absurd hu ((hmem b u).1 hb).2
      · exact fun _ _ _ _ => hcont
      · intro hcw
        exact ⟨(hok.current hcw).1, fun i hi => (hok.current hcw).2 i (hp.holds i u hi)⟩
      · exact fun i j hi hj => hok.heldBy i j (hp.holds i u hi) (hp.holds j u hj)
    · refine (h.waiter u).congr rfl ?_ (if_neg hu) ?_ (if_neg hu) rfl rfl rfl rfl (hp.timer u)
        (fun i => hp.holds i u)
      · intro b
        exact (hmem b u).trans (and_iff_left hu)
      · intro q
        refine (ho u q).trans ?_
        simp [hu]
  · intro b
    refine ⟨(h.order b).1.sublist (diff_sublist ..), ?_⟩
    intro u hu
    exact (h.order b).2 u ((hmem b u).1 hu).1

end

open State

omit [DecidableEq ι] [DecidableEq β] in
theorem Inv.resume (h : Inv kind s) (hp : Parties s f τ)
    (hsp : s.Owes t p)
    (ho : ∀ u q, { s with caller := f, timer := τ }.Owes u q ↔ s.Owes u q ∧ ¬ (u = t ∧ q = p)) :
    Inv kind { s.resume kind t p with caller := f, timer := τ } := by
  have hok := h.waiter t
  obtain ⟨hwaits, hl, hs, hgone, hrem, hres, howes⟩ := hok.thread.of_owes hsp
  have htracked := hok.tracked (.inr hwaits)
  have hnone : ∀ q, ¬ { s with caller := f, timer := τ }.Owes t q := by
    intro q hq
    obtain ⟨hq, hne⟩ := (ho t q).1 hq
    exact hne ⟨rfl, (howes q).1 hq⟩
  have hother : ∀ u, u ≠ t → ∀ q, { s with caller := f, timer := τ }.Owes u q ↔ s.Owes u q := by
    intro u hu q
    refine (ho u q).trans ?_
    simp [hu]
  unfold State.resume
  split
  next hk =>
    have hpc : ∃ timed, s.pc t = .queued timed := by
      have hth := hok.thread
      cases hpc : s.pc t with
      | queued timed => exact ⟨timed, rfl⟩
      | erase | eraseLock | failed =>
        rw [hpc] at hth
        exact absurd hk hth.1
      | _ =>
        rw [hpc] at hwaits
        cases hwaits
    obtain ⟨timed, hpc⟩ := hpc
    refine ⟨?_, hp.caller, h.order, h.results⟩
    intro u
    obtain rfl | hu := eq_or_ne u t
    · have hself : update s.pc u .unsleep u = .unsleep := update_self ..
      have hpub : s.Published kind u := ⟨by simp [hk], by rw [hpc]; rfl⟩
      have hpub' : { s with pc := update s.pc u .unsleep }.Published kind u :=
        ⟨hpub.1, congrArg Pc.published hself⟩
      refine ⟨?_, fun _ => htracked, ?_, fun ha => ⟨hk, by simp [goto, Pc.staysForTimer]⟩,
        hok.unsignalled, ?_, fun _ _ => hpub', ?_⟩
      · simp only [goto, hself]
        refine ⟨hk, .inr ⟨hl, p, hgone, hrem, ?_, hnone⟩⟩
        change update s.resumes u (p :: s.resumes u) u = [p]
        rw [update_self, hres]
      · intro b timed hpc'
        simp only [goto, hself] at hpc'
        cases hpc'
      · intro hcw
        exact ⟨hpub', fun i hi => (hok.current hcw).2 i (hp.holds i u hi)⟩
      · exact fun i j hi hj => hok.heldBy i j (hp.holds i u hi) (hp.holds j u hj)
    · exact (h.waiter u).congr (update_of_ne hu ..) (fun _ => Iff.rfl) rfl (hother u hu) rfl
        (update_of_ne hu ..) rfl rfl rfl (hp.timer u) (fun i => hp.holds i u)
  next hk =>
    refine ⟨?_, hp.caller, h.order, h.results⟩
    intro u
    obtain rfl | hu := eq_or_ne u t
    · refine ⟨?_, fun _ => htracked, hok.unpublished, fun ha => hok.timer (hp.timer u ha),
        fun hf => absurd hf hk, ?_, fun i hi => hok.held i (hp.holds i u hi), ?_⟩
      · set s' := { s with
            resumes := update s.resumes u (p :: s.resumes u)
            sig := update s.sig u true
            caller := f
            timer := τ }
        have hgone' : s'.Gone u := by
          refine ⟨hl, .inr ⟨update_self .., p, hgone, hrem, ?_, hnone⟩⟩
          change update s.resumes u (p :: s.resumes u) u = [p]
          rw [update_self, hres]
        exact hok.thread.waiting hwaits (.inr hgone') fun _ => hgone'
      · intro hcw
        exact ⟨(hok.current hcw).1, fun i hi => (hok.current hcw).2 i (hp.holds i u hi)⟩
      · exact fun i j hi hj => hok.heldBy i j (hp.holds i u hi) (hp.holds j u hj)
    · exact (h.waiter u).congr rfl (fun _ => Iff.rfl) rfl (hother u hu) rfl
        (update_of_ne hu ..) rfl (update_of_ne hu ..) rfl (hp.timer u)
        (fun i => hp.holds i u)

/-! ### The lists -/

section

omit [DecidableEq ι]

theorem append_inOrder (h : s.InOrder) (ht : ∀ b, t ∉ s.waiters b) : (s.append b t).InOrder := by
  have hsince : ∀ c, ∀ u ∈ s.waiters c, (s.append b t).since u = s.since u := by
    intro c u hu
    refine update_of_ne ?_ ..
    rintro rfl
    exact ht c hu
  have hself : (s.append b t).since t = s.clock := update_self ..
  have hold : ∀ c, ((s.waiters c).Pairwise fun u v => (s.append b t).since u < (s.append b t).since v) ∧
      ∀ u ∈ s.waiters c, (s.append b t).since u < s.clock := by
    intro c
    refine ⟨(h c).1.imp_of_mem ?_, ?_⟩
    · intro u v hu hv hlt
      rw [hsince c u hu, hsince c v hv]
      exact hlt
    · intro u hu
      rw [hsince c u hu]
      exact (h c).2 u hu
  intro c
  obtain rfl | hc := eq_or_ne c b
  · have hw : (s.append c t).waiters c = s.waiters c ++ [t] := update_self ..
    rw [hw, pairwise_append]
    refine ⟨⟨(hold c).1, pairwise_singleton .., ?_⟩, ?_⟩
    · intro u hu v hv
      rw [mem_singleton.1 hv, hself]
      exact (hold c).2 u hu
    · intro u hu
      rcases mem_append.1 hu with hu | hu
      · exact Nat.lt_succ_of_lt ((hold c).2 u hu)
      · rw [mem_singleton.1 hu, hself]
        exact Nat.lt_succ_self _
  · have hw : (s.append b t).waiters c = s.waiters c := update_of_ne hc ..
    rw [hw]
    exact ⟨(hold c).1, fun u hu => Nat.lt_succ_of_lt ((hold c).2 u hu)⟩

theorem foldl_append (ts : List κ) (s : State κ ι β) :
    ∃ σ n, ts.foldl (fun s t => s.append b t) s = { s with
      waiters := update s.waiters b (s.waiters b ++ ts)
      container := fun t => if t ∈ ts then some b else s.container t
      since := σ
      clock := n } := by
  induction ts generalizing s with
  | nil =>
    refine ⟨s.since, s.clock, ?_⟩
    simp
  | cons t ts ih =>
    obtain ⟨σ, n, hs⟩ := ih (s.append b t)
    refine ⟨σ, n, ?_⟩
    rw [foldl_cons, hs]
    simp only [append, update_self, update_idem, append_assoc, singleton_append, mem_cons]
    congr 1
    funext u
    obtain rfl | hu := eq_or_ne u t
    · simp
    · simp [hu]

theorem foldl_append_inOrder (h : s.InOrder) (hn : ts.Nodup)
    (ht : ∀ t ∈ ts, ∀ b, t ∉ s.waiters b) : (ts.foldl (fun s t => s.append b t) s).InOrder := by
  induction ts generalizing s with
  | nil => exact h
  | cons t ts ih =>
    obtain ⟨htn, hn⟩ := nodup_cons.1 hn
    refine ih (append_inOrder h (ht t mem_cons_self)) hn ?_
    intro u hu c hc
    have hne : u ≠ t := by
      rintro rfl
      exact htn hu
    have hold := ht u (mem_cons_of_mem t hu) c
    obtain rfl | hcb := eq_or_ne c b
    · change u ∈ update s.waiters c (s.waiters c ++ [t]) c at hc
      simp [hne, hold] at hc
    · change u ∈ update s.waiters b (s.waiters b ++ [t]) c at hc
      rw [update_of_ne hcb] at hc
      exact hold hc

theorem Inv.moveAll {m : β} (h : Inv kind s) (hbm : b ≠ m) : Inv kind (s.moveAll b m) := by
  have horder : (s.moveAll b m).InOrder := by
    refine foldl_append_inOrder ?_ (h.nodup b) ?_
    · intro c
      obtain rfl | hc := eq_or_ne c b
      · simp
      · simpa [hc] using h.order c
    · intro t ht c hc
      obtain rfl | hcb := eq_or_ne c b
      · simp at hc
      · simp only [update_of_ne hcb] at hc
        have := h.tracked_of_mem ht
        rw [h.tracked_of_mem hc] at this
        exact hcb (Option.some.inj this)
  obtain ⟨σ, n, hs⟩ := foldl_append (b := m) (s.waiters b)
    { s with waiters := update s.waiters b [] }
  change s.moveAll b m = _ at hs
  rw [hs] at horder ⊢
  have hmem : ∀ c u, u ∈ update (update s.waiters b [])
      m (update s.waiters b [] m ++ s.waiters b) c ↔
      (c = m ∧ u ∈ s.waiters b) ∨ (c ≠ b ∧ u ∈ s.waiters c) := by
    intro c u
    obtain rfl | hc := eq_or_ne c m
    · simp [hbm.symm, or_comm]
    · obtain rfl | hcb := eq_or_ne c b
      · simp [hc]
      · simp [hc, hcb]
  refine ⟨?_, h.caller, horder, h.results⟩
  intro u
  have hok := h.waiter u
  by_cases hu : u ∈ s.waiters b
  · obtain ⟨hwaits, hl, hs, he⟩ := hok.thread.of_mem hu
    refine ⟨?_, ?_, ?_, hok.timer, hok.unsignalled, hok.current, hok.held, hok.heldBy⟩
    · refine hok.thread.waiting hwaits (.inl ⟨hl, hs, ⟨m, (hmem m u).2 (.inl ⟨rfl, hu⟩)⟩, he.2⟩) ?_
      rintro ⟨-, ⟨-, p, hp, -⟩ | ⟨-, p, hp, -⟩⟩ <;> exact absurd hu (hp b)
    · intro _ c
      simp only [if_pos hu, Option.some_inj]
      refine Iff.trans ?_ (hmem c u).symm
      constructor
      · rintro rfl
        exact .inl ⟨rfl, hu⟩
      · rintro (⟨rfl, -⟩ | ⟨hcb, hc⟩)
        · rfl
        · have := h.tracked_of_mem hu
          rw [h.tracked_of_mem hc] at this
          exact absurd (Option.some.inj this) hcb
    · intro c timed hpc
      rw [hpc] at hwaits
      cases hwaits
  · refine hok.congr rfl ?_ (if_neg hu) (fun _ => Iff.rfl) rfl rfl rfl rfl rfl id (fun _ => id)
    intro c
    refine (hmem c u).trans ?_
    simp only [hu, and_false, false_or]
    refine and_iff_right_of_imp ?_
    rintro hc rfl
    exact hu hc

end

/-! ### The threads -/

/-- Only thread `t` moves and only its waiter changes. -/
structure Apart (s s' : State κ ι β) (t : κ) : Prop where
  pc : ∀ u, u ≠ t → s'.pc u = s.pc u
  container : ∀ u, u ≠ t → s'.container u = s.container u
  sig : ∀ u, u ≠ t → s'.sig u = s.sig u
  current : ∀ u, u ≠ t → s'.currentWaiter u = s.currentWaiter u
  timer : ∀ u, u ≠ t → s'.timer u = s.timer u
  removals : ∀ u, u ≠ t → s'.removals u = s.removals u
  resumes : ∀ u, u ≠ t → s'.resumes u = s.resumes u
  linked : ∀ u, u ≠ t → s'.linked u = s.linked u

section

omit [DecidableEq ι] [DecidableEq β]

omit [DecidableEq κ] in
theorem Inv.apart (h : Inv kind s) (ha : Apart s s' t) (hw : s'.waiters = s.waiters)
    (hf : s'.caller = s.caller) (hsince : s'.since = s.since) (hclock : s'.clock = s.clock)
    (hres : s'.results = s.results) (ht : WaiterOk kind s' t) : Inv kind s' := by
  refine ⟨?_, by rw [hf]; exact h.caller, ?_, by rw [hres]; exact h.results⟩
  swap
  · simp only [State.InOrder, hw, hsince, hclock]
    exact h.order
  intro u
  obtain rfl | hu := eq_or_ne u t
  · exact ht
  · refine (h.waiter u).congr (ha.pc u hu) (fun _ => by rw [hw]) (ha.container u hu) ?_
      (ha.removals u hu) (ha.resumes u hu) (ha.linked u hu) (ha.sig u hu) (ha.current u hu)
      (by rw [ha.timer u hu]; exact id) (fun i => by rw [hf]; exact id)
    rintro (i | _ | _)
    · simp only [State.Owes, hf]
    · simp only [State.Owes, ha.timer u hu]
    · exact Iff.rfl

theorem Apart.goto : Apart s (s.goto t c) t where
  pc _ hu := update_of_ne hu ..
  container _ _ := rfl
  sig _ _ := rfl
  current _ _ := rfl
  timer _ _ := rfl
  removals _ _ := rfl
  resumes _ _ := rfl
  linked _ _ := rfl

@[simp] theorem goto_self : (s.goto t c).pc t = c := update_self ..

end

section

variable (h : Inv kind s)
include h

section

omit [DecidableEq ι] [DecidableEq β]

theorem Inv.goto (ht : ThreadOk kind s t c)
    (hpub : kind t ≠ .pthread → c.published = (s.pc t).published)
    (hwaits : c.waits = true → (s.pc t).waits = true)
    (hτ : (s.timer t).active = true → c.staysForTimer = true)
    (hn : ∀ b timed, c ≠ .publish b timed) : Inv kind (s.goto t c) := by
  have hok := h.waiter t
  have hpub' : (s.goto t c).Published kind t ↔ s.Published kind t := by
    simp only [State.Published, goto_self]
    refine and_congr_right fun hk => ?_
    rw [hpub hk]
  refine h.apart Apart.goto rfl rfl rfl rfl rfl ⟨?_, ?_, ?_, ?_, hok.unsignalled, ?_, ?_, hok.heldBy⟩
  · rw [goto_self]
    exact ht.congr (fun _ => Iff.rfl) (fun _ => Iff.rfl) rfl rfl rfl rfl
  · rw [hpub', goto_self]
    exact fun hp => hok.tracked (hp.imp id hwaits)
  · rw [goto_self]
    exact fun b timed hc => absurd hc (hn b timed)
  · rw [goto_self]
    exact fun ha => ⟨(hok.timer ha).1, hτ ha⟩
  · rw [hpub']
    exact hok.current
  · rw [hpub']
    exact hok.held

theorem Inv.setTimer (ha : (s.timer t).active = true)
    (hx : x = .wake ↔ s.timer t = .wake) : Inv kind (s.setTimer t x) := by
  refine h.parties (.setTimer h ha) ?_
  rintro u (i | _ | _)
  · exact Iff.rfl
  · obtain rfl | hu := eq_or_ne u t
    · simp only [State.Owes, update_self, hx]
    · simp only [State.Owes, update_of_ne hu]
  · exact Iff.rfl

end

omit [DecidableEq κ] [DecidableEq β] in
theorem Inv.callTo (hd : CallerOk d)
    (hh : ∀ t, d.holds = some t → (s.caller i).holds = some t)
    (ho : ∀ t, t ∈ d.owed ↔ t ∈ (s.caller i).owed) : Inv kind (s.callTo i d) := by
  refine h.parties (.callTo h hd hh) ?_
  rintro u (j | _ | _)
  · obtain rfl | hj := eq_or_ne j i
    · simp only [State.Owes, update_self, ho]
    · simp only [State.Owes, update_of_ne hj]
  · exact Iff.rfl
  · exact Iff.rfl

section

omit [DecidableEq ι]

theorem Inv.unsleep : Inv kind (s.unsleep t) := by
  unfold State.unsleep
  split
  next ht =>
    refine h.setTimer (by rw [ht]; rfl) ?_
    rw [ht]
    exact ⟨nofun, nofun⟩
  · exact h

theorem enter_inv (hpc : s.pc t = .enter b timed) :
    Inv kind ({ s.append b t with
      linked := update s.linked t true
      timer := if kind t = Kind.fiber ∧ timed = true then update s.timer t .pending
        else s.timer }.goto t (.queued timed)) := by
  have hok := h.waiter t
  have hfresh := hok.thread
  rw [hpc] at hfresh
  obtain ⟨⟨hloose, hnone⟩, -, hrem, hres, hsig⟩ := hfresh
  have hquiet : (s.timer t).active = false := by
    by_contra ha
    have := (hok.timer (by simpa using ha)).2
    rw [hpc] at this
    cases this
  set τ := if kind t = Kind.fiber ∧ timed = true then update s.timer t .pending else s.timer with hτ
  have hτt : τ t ≠ .wake ∧ ((τ t).active = true → kind t = .fiber) := by
    rw [hτ]
    split
    next hk =>
      rw [update_self]
      exact ⟨nofun, fun _ => hk.1⟩
    · refine ⟨fun hw => ?_, fun ha => ?_⟩
      · rw [hw] at hquiet
        cases hquiet
      · rw [hquiet] at ha
        cases ha
  have hτu : ∀ u, u ≠ t → τ u = s.timer u := by
    intro u hu
    rw [hτ]
    split
    · exact update_of_ne hu ..
    · rfl
  have hmem : ∀ c u, u ∈ update s.waiters b (s.waiters b ++ [t]) c ↔
      u ∈ s.waiters c ∨ (c = b ∧ u = t) := by
    intro c u
    obtain rfl | hc := eq_or_ne c b
    · simp
    · simp [hc]
  set s' := ({ s.append b t with
    linked := update s.linked t true
    timer := τ }.goto t (.queued timed)) with hs'
  have howes : ∀ u p, s'.Owes u p ↔ s.Owes u p := by
    rintro u (i | _ | _)
    · exact Iff.rfl
    · change τ u = .wake ↔ s.timer u = .wake
      obtain rfl | hu := eq_or_ne u t
      · exact iff_of_false hτt.1 (hnone .timer)
      · rw [hτu u hu]
    · exact Iff.rfl
  have hpub : s'.Published kind t ↔ s.Published kind t := by
    simp only [State.Published, hs', goto_self, hpc, Pc.published]
  refine ⟨?_, h.caller, append_inOrder h.order hloose, h.results⟩
  intro u
  obtain rfl | hu := eq_or_ne u t
  · refine ⟨?_, ?_, ?_, ?_, hok.unsignalled, ?_, ?_, hok.heldBy⟩
    · rw [hs', goto_self]
      refine .inl ⟨update_self .., hsig, ⟨b, (hmem b u).2 (.inr ⟨rfl, rfl⟩)⟩, hrem, hres, ?_⟩
      exact fun p hp => hnone p ((howes u p).1 hp)
    · intro _ c
      change update s.container u (some b) u = some c ↔ _
      rw [update_self, Option.some_inj]
      refine Iff.trans ?_ (hmem c u).symm
      constructor
      · rintro rfl
        exact .inr ⟨rfl, rfl⟩
      · rintro (hc | ⟨rfl, -⟩)
        · exact absurd hc (hloose c)
        · rfl
    · rw [hs', goto_self]
      exact nofun
    · rw [hs', goto_self]
      exact fun ha => ⟨hτt.2 ha, rfl⟩
    · rw [hpub]
      exact hok.current
    · rw [hpub]
      exact hok.held
  · refine (h.waiter u).congr (update_of_ne hu ..) ?_ (update_of_ne hu ..) (howes u)
      rfl rfl (update_of_ne hu ..) rfl rfl ?_ (fun _ => id)
    · intro c
      refine (hmem c u).trans ?_
      simp [hu]
    · exact fun ha => by rwa [← hτu u hu]

omit [DecidableEq κ] [DecidableEq β] in
theorem Inv.interrupted (f : κ → Bool) : Inv kind { s with interrupted := f } where
  waiter t := (h.waiter t).congr rfl (fun _ => Iff.rfl) rfl (fun _ => Iff.rfl) rfl rfl rfl rfl rfl id
    (fun _ => id)
  caller := h.caller
  order := h.order
  results := h.results

end

end

section

omit [DecidableEq κ] [DecidableEq ι] [DecidableEq β]

theorem WaiterOk.quiet (h : WaiterOk kind s t) (hpc : (s.pc t).staysForTimer = false) :
    (s.timer t).active = false := by
  by_contra ha
  rw [(h.timer (by simpa using ha)).2] at hpc
  cases hpc

theorem WaiterOk.not_held (h : WaiterOk kind s t) (hpc : (s.pc t).published = false) (i : ι) :
    (s.caller i).holds ≠ some t := by
  intro hi
  have := (h.held i hi).2
  rw [hpc] at this
  cases this

end

section

variable (h : Inv kind s)
include h

section

omit [DecidableEq ι] [DecidableEq β]

theorem publish_inv (hpc : s.pc t = .publish b timed)
    (hk : kind t ≠ .pthread) :
    Inv kind ({ s with currentWaiter := update s.currentWaiter t true }.goto t
      (.enter b timed)) := by
  have hok := h.waiter t
  have hfresh := hok.thread
  rw [hpc] at hfresh
  have hquiet := hok.quiet (by rw [hpc]; rfl)
  have hfree := hok.not_held (by rw [hpc]; rfl)
  set s' := ({ s with currentWaiter := update s.currentWaiter t true }.goto t
    (.enter b timed)) with hs'
  have hpub : s'.Published kind t := ⟨hk, by rw [hs', goto_self]; rfl⟩
  refine h.apart (t := t) ?_ rfl rfl rfl rfl rfl ⟨?_, ?_, ?_, ?_, hok.unsignalled, ?_, ?_, ?_⟩
  · exact ⟨fun u hu => update_of_ne hu .., fun _ _ => rfl, fun _ _ => rfl,
      fun u hu => update_of_ne hu .., fun _ _ => rfl, fun _ _ => rfl, fun _ _ => rfl,
      fun _ _ => rfl⟩
  · rw [hs', goto_self]
    exact hfresh
  · intro _ c
    change s.container t = some c ↔ t ∈ s.waiters c
    rw [hok.unpublished b timed hpc hk]
    exact iff_of_false nofun (hfresh.1.1 c)
  · rw [hs', goto_self]
    exact nofun
  · change (s.timer t).active = true → _
    rw [hquiet]
    exact nofun
  · exact fun _ => ⟨hpub, hfree⟩
  · exact fun _ _ => hpub
  · exact fun i _ hi => absurd hi (hfree i)

theorem back_inv (hpc : s.pc t = .back) (hcw : s.currentWaiter t = true) :
    Inv kind ({ s with currentWaiter := update s.currentWaiter t false }.goto t .finish) := by
  have hok := h.waiter t
  have hover := hok.thread
  rw [hpc] at hover
  have hquiet := hok.quiet (by rw [hpc]; rfl)
  have hfree := (hok.current hcw).2
  set s' := ({ s with currentWaiter := update s.currentWaiter t false }.goto t .finish)
  have hself : s'.pc t = .finish := goto_self
  refine h.apart (t := t) ?_ rfl rfl rfl rfl rfl ⟨?_, ?_, ?_, ?_, hok.unsignalled, ?_, ?_, ?_⟩
  · exact ⟨fun u hu => update_of_ne hu .., fun _ _ => rfl, fun _ _ => rfl,
      fun u hu => update_of_ne hu .., fun _ _ => rfl, fun _ _ => rfl, fun _ _ => rfl,
      fun _ _ => rfl⟩
  · rw [hself]
    exact hover
  · rw [State.Published, hself]
    rintro (⟨-, hp⟩ | hp) <;> cases hp
  · rw [hself]
    exact nofun
  · change (s.timer t).active = true → _
    rw [hquiet]
    exact nofun
  · intro hc
    change update s.currentWaiter t false t = true at hc
    rw [update_self] at hc
    cases hc
  · exact fun i hi => absurd hi (hfree i)
  · exact fun i _ hi => absurd hi (hfree i)

theorem skip_inv (hpc : s.pc t = .skip) (p : Party ι) :
    Inv kind ({ s with resumes := update s.resumes t (p :: s.resumes t) }.goto t .unsleep) := by
  have hok := h.waiter t
  have hfresh := hok.thread
  rw [hpc] at hfresh
  obtain ⟨hk, hloose, hl, -⟩ := hfresh
  set s' := ({ s with resumes := update s.resumes t (p :: s.resumes t) }.goto t .unsleep)
  have hself : s'.pc t = .unsleep := goto_self
  have hpub : s'.Published kind t ↔ s.Published kind t := by
    simp only [State.Published, hself, hpc, Pc.published]
  refine h.apart (t := t) ?_ rfl rfl rfl rfl rfl
    ⟨?_, ?_, ?_, ?_, hok.unsignalled, ?_, ?_, hok.heldBy⟩
  · exact ⟨fun u hu => update_of_ne hu .., fun _ _ => rfl, fun _ _ => rfl,
      fun _ _ => rfl, fun _ _ => rfl, fun _ _ => rfl, fun u hu => update_of_ne hu ..,
      fun _ _ => rfl⟩
  · rw [hself]
    exact ⟨hk, .inl ⟨hl, hloose⟩⟩
  · rw [hpub, hself]
    exact fun hp => hok.tracked (hp.imp id nofun)
  · rw [hself]
    exact nofun
  · rw [hself]
    exact fun _ => ⟨hk, rfl⟩
  · rw [hpub]
    exact hok.current
  · rw [hpub]
    exact hok.held

end

section

omit [DecidableEq ι] [DecidableEq β]

theorem eraseLock_inv {c : β} (hpc : s.pc t = .eraseLock c)
    (hb : t ∈ s.waiters b) :
    Inv kind ({ s.unlink [t] .self with
      resumes := update s.resumes t (.self :: s.resumes t) }.goto t .back) := by
  have hok := h.waiter t
  have hk := hok.thread
  rw [hpc] at hk
  obtain ⟨-, hl, hs, -, hrem, hres, hnone⟩ := hok.thread.of_mem hb
  have hmem : ∀ b u, u ∈ (s.waiters b).diff [t] ↔ u ∈ s.waiters b ∧ u ≠ t := by
    intro b u
    rw [(h.nodup b).mem_sdiff_iff, mem_singleton]
  set s' := ({ s.unlink [t] .self with
    resumes := update s.resumes t (.self :: s.resumes t) }.goto t .back)
  have hself : s'.pc t = .back := goto_self
  have hgone : ∀ b, t ∉ s'.waiters b := fun b hb => ((hmem b t).1 hb).2 rfl
  have hpub : s'.Published kind t ↔ s.Published kind t := by
    simp only [State.Published, hself, hpc, Pc.published]
  refine ⟨?_, h.caller, ?_, h.results⟩
  · intro u
    obtain rfl | hu := eq_or_ne u t
    · refine ⟨?_, ?_, ?_, ?_, hok.unsignalled, ?_, ?_, hok.heldBy⟩
      · rw [hself]
        refine .inr ⟨hl, .self, hgone, ?_, ?_, hnone⟩
        · change (if u ∈ [u] then _ else _) = _
          rw [if_pos mem_cons_self, hrem]
        · change update s.resumes u _ u = _
          rw [update_self, hres]
      · intro _ b
        change (if u ∈ [u] then none else _) = _ ↔ _
        rw [if_pos mem_cons_self]
        exact iff_of_false nofun (hgone b)
      · rw [hself]
        exact nofun
      · intro ha
        exact absurd (hok.timer ha).1 hk.1
      · rw [hpub]
        exact hok.current
      · rw [hpub]
        exact hok.held
    · have hu' : u ∉ [t] := by simpa using hu
      refine (h.waiter u).congr (update_of_ne hu ..) ?_ (if_neg hu') (fun _ => Iff.rfl)
        (if_neg hu') (update_of_ne hu ..) rfl rfl rfl id (fun _ => id)
      intro b
      exact (hmem b u).trans (and_iff_left hu)
  · intro b
    refine ⟨(h.order b).1.sublist (diff_sublist ..), ?_⟩
    intro u hu
    exact (h.order b).2 u ((hmem b u).1 hu).1

theorem wait_inv {garbage : Option β} (hpc : s.pc t = .idle)
    (hg : kind t = .pthreadTask → garbage = none) :
    Inv kind ({ s with
        container := update s.container t (if kind t = Kind.fiber then none else garbage)
        sig := update s.sig t false
        timer := update s.timer t .none
        removals := update s.removals t []
        resumes := update s.resumes t []
        linked := update s.linked t false }.goto t (.publish b timed)) := by
  have hok := h.waiter t
  have hover := hok.thread
  rw [hpc] at hover
  have hloose : s.Loose t := by
    rcases hover with ⟨-, hl⟩ | ⟨-, p, hl, -, -, ho⟩
    · exact hl
    · exact ⟨hl, ho⟩
  have hfree := hok.not_held (by rw [hpc]; rfl)
  set s' := ({ s with
    container := update s.container t (if kind t = Kind.fiber then none else garbage)
    sig := update s.sig t false
    timer := update s.timer t .none
    removals := update s.removals t []
    resumes := update s.resumes t []
    linked := update s.linked t false }.goto t (.publish b timed)) with hs'
  have hself : s'.pc t = .publish b timed := goto_self
  have hcw : s.currentWaiter t ≠ true := by
    intro hc
    have := (hok.current hc).1.2
    rw [hpc] at this
    cases this
  refine h.apart (t := t) ?_ rfl rfl rfl rfl rfl ⟨?_, ?_, ?_, ?_, ?_, ?_, ?_, ?_⟩
  · constructor <;> intro u hu
    case current => rfl
    all_goals exact update_of_ne hu ..
  · rw [hself]
    refine ⟨⟨hloose.1, ?_⟩, update_self .., update_self .., update_self .., update_self ..⟩
    rintro (i | _ | _) hp
    · exact hloose.2 (.caller i) hp
    · change update s.timer t .none t = .wake at hp
      rw [update_self] at hp
      cases hp
    · exact hp
  · rw [State.Published, hself]
    rintro (⟨-, hp⟩ | hp) <;> cases hp
  · intro c timed' _ hk
    change update s.container t _ t = none
    rw [update_self]
    split
    · rfl
    next hf =>
      refine hg ?_
      cases hkt : kind t with
      | fiber => exact absurd hkt hf
      | pthreadTask => rfl
      | pthread => exact absurd hkt hk
  · change (update s.timer t .none t).active = true → _
    rw [update_self]
    exact nofun
  · exact fun _ => update_self ..
  · exact fun hc => absurd hc hcw
  · exact fun i hi => absurd hi (hfree i)
  · exact fun i _ hi => absurd hi (hfree i)

end

omit [DecidableEq ι] in
theorem goStep_inv (matched : Bool) : Inv kind (goStep kind s t matched) := by
  have hok := h.waiter t
  have hth := hok.thread
  have hquiet := hok.quiet
  cases hpc : s.pc t with
  | idle =>
    simp only [goStep, hpc]
    exact h
  | publish b timed =>
    rw [hpc] at hth hquiet
    simp only [goStep, hpc]
    split
    next hk =>
      exact h.goto hth (absurd hk) nofun (by simp [hquiet rfl]) nofun
    next hk =>
      exact publish_inv h hpc hk
  | enter b timed =>
    rw [hpc] at hth hquiet
    have hquiet : (s.timer t).active = false := hquiet rfl
    have hover : s.Over t := .inl ⟨hth.2.1, hth.1⟩
    simp only [goStep, hpc]
    split
    · split
      next hk =>
        exact h.goto ⟨hk, hth⟩ (by simp [hpc, Pc.published]) nofun (by simp [hquiet]) nofun
      · exact h.goto hover (by simp [hpc, Pc.published]) nofun (by simp [hquiet]) nofun
    · split
      · split
        next hk =>
          exact h.goto ⟨hk, hth⟩ (by simp [hpc, Pc.published]) nofun (by simp [hquiet]) nofun
        next hk =>
          exact h.goto ⟨hk, hth⟩ (by simp [hpc, Pc.published]) nofun (by simp [hquiet]) nofun
      · exact enter_inv h hpc
  | skip =>
    simp only [goStep, hpc]
    exact skip_inv h hpc .self
  | queued timed =>
    rw [hpc] at hth
    simp only [goStep, hpc]
    split
    next hsig =>
      have hover : s.Over t := by
        rcases hth with ⟨-, hs, -⟩ | ⟨hl, ⟨hs, -⟩ | ⟨-, hr⟩⟩
        · rw [hs] at hsig
          cases hsig
        · rw [hs] at hsig
          cases hsig
        · exact .inr ⟨hl, hr⟩
      refine h.goto hover (by simp [hpc, Pc.published]) nofun ?_ nofun
      intro ha
      rw [hok.unsignalled (hok.timer ha).1] at hsig
      cases hsig
    · exact h
  | erase =>
    rw [hpc] at hth hquiet
    simp only [goStep, hpc]
    split
    next hc =>
      refine h.goto ⟨hth.1, ?_⟩ (by simp [hpc, Pc.published]) (by simp [hpc, Pc.waits])
        (by simp [hquiet rfl]) nofun
      -- a linked waiter has a container
      refine hth.2.resolve_left ?_
      rintro ⟨-, -, ⟨b, hb⟩, -⟩
      rw [h.tracked_of_mem hb] at hc
      cases hc
    · exact h.goto hth (by simp [hpc, Pc.published]) (by simp [hpc, Pc.waits])
        (by simp [hquiet rfl]) nofun
  | eraseLock b =>
    rw [hpc] at hth hquiet
    simp only [goStep, hpc]
    split
    next hc =>
      have hb : t ∈ s.waiters b := (hok.tracked (.inr (by rw [hpc]; rfl)) b).1 hc
      exact eraseLock_inv h hpc hb
    · exact h.goto hth (by simp [hpc, Pc.published]) (by simp [hpc, Pc.waits])
        (by simp [hquiet rfl]) nofun
  | failed =>
    rw [hpc] at hth hquiet
    simp only [goStep, hpc]
    split
    next hsig =>
      have hover : s.Over t := by
        rcases hth.2 with ⟨hl, ⟨hs, -⟩ | ⟨-, hr⟩⟩
        · rw [hs] at hsig
          cases hsig
        · exact .inr ⟨hl, hr⟩
      exact h.goto hover (by simp [hpc, Pc.published]) nofun (by simp [hquiet rfl]) nofun
    · exact h.goto (.inr hth.2) (by simp [hpc, Pc.published]) (by simp [hpc, Pc.waits])
        (by simp [hquiet rfl]) nofun
  | unsleep =>
    rw [hpc] at hth
    have hback : ∀ x, s.timer t = x → (x = .none ∨ x = .pending ∨ x = .done ∨ x = .cancelled) →
        Inv kind ((s.unsleep t).goto t .back) := by
      intro x hx hcases
      have hu : Inv kind (s.unsleep t) := h.unsleep
      have hpc' : (s.unsleep t).pc t = .unsleep := by
        unfold unsleep
        split <;> exact hpc
      have hover := (hu.waiter t).thread
      rw [hpc'] at hover
      refine hu.goto hover.2 (by simp [hpc', Pc.published]) nofun ?_ nofun
      unfold unsleep
      split
      · simp [setTimer, Timer.active]
      next hne =>
        rw [hx] at hne ⊢
        rcases hcases with rfl | rfl | rfl | rfl
        · exact nofun
        · exact absurd rfl hne
        · exact nofun
        · exact nofun
    simp only [goStep, hpc]
    cases hx : s.timer t with
    | load | lock | wake | returning => exact h
    | none | pending | done | cancelled => exact hback _ hx (by simp)
  | clear =>
    rw [hpc] at hth hquiet
    simp only [goStep, hpc]
    have h' := h.interrupted (update s.interrupted t false)
    exact h'.goto (.inl ⟨hth.2.2.1, hth.2.1⟩) (by simp [hpc, Pc.published]) nofun
      (by simp [hquiet rfl]) nofun
  | back =>
    rw [hpc] at hth hquiet
    simp only [goStep, hpc]
    split
    next hk =>
      exact h.goto hth (absurd hk) nofun (by simp [hquiet rfl]) nofun
    · split
      next hcw =>
        exact back_inv h hpc hcw
      · exact h
  | finish =>
    rw [hpc] at hth hquiet
    simp only [goStep, hpc]
    have h' := h.interrupted (update s.interrupted t false)
    exact h'.goto hth (by simp [hpc, Pc.published]) nofun (by simp [hquiet rfl]) nofun

end

omit [DecidableEq ι] [DecidableEq β] in
theorem resume_setTimer : (s.resume kind t p).setTimer t x =
    { s.resume kind t p with caller := s.caller, timer := update s.timer t x } := by
  unfold resume
  split <;> rfl

omit [DecidableEq β] in
theorem resume_callTo : (s.resume kind t p).callTo i d =
    { s.resume kind t p with caller := update s.caller i d, timer := s.timer } := by
  unfold resume
  split <;> rfl

omit [DecidableEq ι] in
theorem timerStep_inv (h : Inv kind s) : Inv kind (timerStep kind s t) := by
  have hok := h.waiter t
  cases hx : s.timer t with
  | none | done | cancelled =>
    simp only [timerStep, hx]
    exact h
  | pending | returning =>
    simp only [timerStep, hx]
    exact h.setTimer (by rw [hx]; rfl) (by simp [hx])
  | load =>
    simp only [timerStep, hx]
    split
    · exact h.setTimer (by rw [hx]; rfl) (by simp [hx])
    · exact h.setTimer (by rw [hx]; rfl) (by simp [hx])
  | lock b =>
    simp only [timerStep, hx]
    split
    next hc =>
      obtain ⟨hk, hstay⟩ := hok.timer (by rw [hx]; rfl)
      have hpub : s.Published kind t := by
        refine ⟨by simp [hk], ?_⟩
        cases hpc : s.pc t <;> simp_all [Pc.staysForTimer, Pc.published]
      have hb : t ∈ s.waiters b := (hok.tracked (.inl hpub) b).1 hc
      have hp : Parties s s.caller (update s.timer t .wake) := Parties.setTimer h (by rw [hx]; rfl)
      refine h.unlink (p := .timer) hp ?_ ?_
      · intro u hu
        rw [mem_singleton.1 hu]
        exact ⟨b, hb⟩
      · rintro u (j | _ | _)
        · simp [State.Owes, unlink]
        · obtain rfl | hu := eq_or_ne u t
          · simp [State.Owes]
          · simp [State.Owes, unlink, hu]
        · simp [State.Owes]
    · exact h.setTimer (by rw [hx]; rfl) (by simp [hx])
  | wake =>
    simp only [timerStep, hx]
    have hp : Parties s s.caller (update s.timer t .returning) :=
      Parties.setTimer h (by rw [hx]; rfl)
    rw [resume_setTimer]
    refine h.resume hp hx ?_
    rintro u (j | _ | _)
    · simp [State.Owes]
    · obtain rfl | hu := eq_or_ne u t
      · simp [State.Owes]
      · simp [State.Owes, hu]
    · simp [State.Owes]

/-! ### The callers -/

section

omit [DecidableEq β]

omit [DecidableEq κ] in
theorem owes_unlink (hi : (s.caller i).owed = [])
    (hd : ∀ u, u ∈ d.owed ↔ u ∈ ts) (u : κ) (q : Party ι) :
    { s with caller := update s.caller i d, timer := s.timer }.Owes u q ↔
      s.Owes u q ∨ (u ∈ ts ∧ q = .caller i) := by
  cases q with
  | caller j =>
    obtain rfl | hj := eq_or_ne j i
    · simp [State.Owes, hi, hd]
    · simp [State.Owes, hj]
  | timer => simp [State.Owes]
  | self => simp [State.Owes]

omit [DecidableEq κ] in
theorem owes_resume (hd : ∀ u, u ∈ d.owed ↔ u ∈ (s.caller i).owed ∧ u ≠ t) (u : κ)
    (q : Party ι) : { s with caller := update s.caller i d, timer := s.timer }.Owes u q ↔
      s.Owes u q ∧ ¬ (u = t ∧ q = .caller i) := by
  cases q with
  | caller j =>
    obtain rfl | hj := eq_or_ne j i
    · simp [State.Owes, hd]
    · simp [State.Owes, hj]
  | timer => simp [State.Owes]
  | self => simp [State.Owes]

theorem wakeSection_inv (h : Inv kind s) {jobs : List (Job κ)}
    (hi : s.caller i = .idle) (hts : ∀ t ∈ ts, t ∈ s.waiters b)
    (hjobs : (jobs.filterMap Job.target).Perm ts) (hn : ts.Nodup) :
    Inv kind (s.wakeSection i ts jobs) := by
  have hd : CallerOk (.working jobs 0 ts.length : Caller κ β) := by
    refine ⟨hjobs.nodup_iff.2 hn, ?_⟩
    rintro jobs' n removed hc
    cases hc
    rw [Nat.zero_add]
    exact hjobs.length_eq
  refine h.unlink (.callTo h hd nofun) (fun t ht => ⟨b, hts t ht⟩) ?_
  exact owes_unlink (by rw [hi]; rfl) fun u => hjobs.mem_iff

theorem resume_callTo_inv (h : Inv kind s) (hd : CallerOk d)
    (hh : ∀ u, d.holds = some u → (s.caller i).holds = some u)
    (ho : (s.caller i).owed = t :: d.owed) : Inv kind ((s.resume kind t (.caller i)).callTo i d) := by
  rw [resume_callTo]
  refine h.resume (.callTo h hd hh) ?_ (owes_resume ?_)
  · change t ∈ (s.caller i).owed
    rw [ho]
    exact mem_cons_self
  · intro u
    have hn := (h.caller i).1
    rw [ho] at hn ⊢
    obtain ⟨hn, -⟩ := nodup_cons.1 hn
    constructor
    · intro hu
      refine ⟨mem_cons_of_mem t hu, ?_⟩
      rintro rfl
      exact hn hu
    · rintro ⟨hu, hne⟩
      exact (mem_cons.1 hu).resolve_left hne

theorem Inv.current (h : Inv kind s) {v : Bool} (hd : CallerOk d)
    (howed : d.owed = []) (hi : (s.caller i).owed = []) (hh : ∀ u, d.holds = some u → u = t)
    (hpub : s.Published kind t) (hfree : ∀ j, j ≠ i → (s.caller j).holds ≠ some t)
    (hv : v = true → d.holds = none) :
    Inv kind ({ s with currentWaiter := update s.currentWaiter t v }.callTo i d) := by
  have howes : ∀ u q, ({ s with
      currentWaiter := update s.currentWaiter t v }.callTo i d).Owes u q ↔ s.Owes u q := by
    rintro u (j | _ | _)
    · obtain rfl | hj := eq_or_ne j i
      · simp [State.Owes, State.callTo, howed, hi]
      · simp [State.Owes, State.callTo, hj]
    · exact Iff.rfl
    · exact Iff.rfl
  have hother : ∀ j, j ≠ i → update s.caller i d j = s.caller j := fun j hj =>
    update_of_ne hj ..
  refine ⟨?_, ?_, h.order, h.results⟩
  · intro u
    have hok := h.waiter u
    obtain rfl | hu := eq_or_ne u t
    · have honly : ∀ j, (update s.caller i d j).holds = some u → j = i := by
        intro j hj
        by_contra hne
        rw [hother j hne] at hj
        exact hfree j hne hj
      refine ⟨?_, hok.tracked, hok.unpublished, hok.timer, hok.unsignalled, ?_, fun _ _ => hpub, ?_⟩
      · exact hok.thread.congr (fun _ => Iff.rfl) (howes u) rfl rfl rfl rfl
      · intro hcw
        refine ⟨hpub, ?_⟩
        intro j hj
        change update s.currentWaiter u v u = true at hcw
        change (update s.caller i d j).holds = some u at hj
        rw [update_self] at hcw
        rw [honly j hj, update_self, hv hcw] at hj
        cases hj
      · intro j k hj hk
        rw [honly j hj, honly k hk]
    · refine hok.congr rfl (fun _ => Iff.rfl) rfl (howes u) rfl rfl rfl rfl
        (update_of_ne hu ..) id ?_
      intro j hj
      change (update s.caller i d j).holds = some u at hj
      obtain rfl | hne := eq_or_ne j i
      · rw [update_self] at hj
        exact absurd (hh u hj) hu
      · rwa [hother j hne] at hj
  · intro j
    change CallerOk (update s.caller i d j)
    obtain rfl | hj := eq_or_ne j i
    · rw [update_self]
      exact hd
    · rw [hother j hj]
      exact h.caller j

end

open Caller

theorem callStep_inv (h : Inv kind s) : Inv kind (callStep kind s i) := by
  have hcaller := h.caller i
  -- what an interrupter holds is known to interrupters, hence tracked
  have hlinked : ∀ t b, (s.caller i).holds = some t → s.StillIn t b → t ∈ s.waiters b :=
    fun t b hi hc => ((h.waiter t).tracked (.inl ((h.waiter t).held i hi)) b).1 hc
  cases hc : s.caller i with
  | idle =>
    simp only [callStep, hc]
    exact h
  | working jobs n removed =>
    rw [hc] at hcaller
    obtain ⟨hn, hcount⟩ := hcaller
    have hcount := hcount jobs n removed rfl
    cases jobs with
    | nil =>
      simp only [callStep, hc]
      have h' : Inv kind { s with results := (n, removed) :: s.results } := by
        refine ⟨fun t => ?_, h.caller, h.order, ?_⟩
        · exact (h.waiter t).congr rfl (fun _ => Iff.rfl) rfl (fun _ => Iff.rfl) rfl rfl rfl rfl rfl id
            (fun _ => id)
        · intro r hr
          rcases mem_cons.1 hr with rfl | hr
          · exact hcount
          · exact h.results r hr
      exact h'.callTo ⟨nodup_nil, nofun⟩ nofun (by simp [hc, owed])
    | cons job jobs =>
      cases job with
      | unsleep t =>
        simp only [callStep, hc]
        have hc' : (s.unsleep t).caller i = .working (.unsleep t :: jobs) n removed := by
          unfold unsleep
          split <;> exact hc
        refine h.unsleep.callTo ⟨hn, ?_⟩ nofun (by rw [hc']; exact fun _ => Iff.rfl)
        rintro jobs' n' removed' ⟨⟩
        exact hcount
      | ready t | signal t =>
        simp only [callStep, hc]
        refine resume_callTo_inv h ⟨hn.of_cons, ?_⟩ nofun (by rw [hc]; rfl)
        rintro jobs' n' removed' ⟨⟩
        simp only [owed, filterMap_cons, Job.target, length_cons] at hcount ⊢
        rw [← hcount, Nat.add_right_comm, Nat.add_assoc]
  | erase t =>
    simp only [callStep, hc]
    split
    · exact h.callTo ⟨nodup_nil, nofun⟩ (by simp [hc, holds]) (by simp [hc, owed])
    · exact h.callTo ⟨nodup_nil, nofun⟩ (by simp [hc, holds]) (by simp [hc, owed])
  | eraseLock t b =>
    simp only [callStep, hc]
    split
    next hin =>
      have hb := hlinked t b (by rw [hc]; rfl) hin
      have hd : CallerOk (.eraseWake t : Caller κ β) := ⟨nodup_singleton t, nofun⟩
      refine h.unlink (Parties.callTo h hd (by simp [hc, holds])) ?_ ?_
      · intro u hu
        rw [mem_singleton.1 hu]
        exact ⟨b, hb⟩
      · exact owes_unlink (by rw [hc]; rfl) fun u => Iff.rfl
    · exact h.callTo ⟨nodup_nil, nofun⟩ (by simp [hc, holds]) (by simp [hc, owed])
  | eraseWake t =>
    simp only [callStep, hc]
    exact resume_callTo_inv h ⟨nodup_nil, nofun⟩ (by simp [hc, holds]) (by rw [hc]; rfl)
  | putBack t =>
    simp only [callStep, hc]
    have hi : (s.caller i).holds = some t := by rw [hc]; rfl
    refine h.current ⟨nodup_nil, nofun⟩ rfl (by rw [hc]; rfl) nofun ((h.waiter t).held i hi) ?_
      (fun _ => rfl)
    intro j hj hh
    exact hj ((h.waiter t).heldBy j i hh hi)

omit [DecidableEq β] in
theorem interruptStep_inv (h : Inv kind s) (hi : s.caller i = .idle) :
    Inv kind (interruptStep s i t) := by
  unfold interruptStep
  have h' := h.interrupted (update s.interrupted t true)
  split
  next hcw =>
    obtain ⟨hpub, hfree⟩ := (h.waiter t).current hcw
    refine h'.current ⟨nodup_nil, nofun⟩ rfl (by simp [hi, owed]) ?_ hpub
      (fun j _ => hfree j) nofun
    rintro u ⟨⟩
    rfl
  · exact h'

section

omit [DecidableEq κ]

theorem resumeJobs_target (t : κ) : (resumeJobs kind t).filterMap Job.target = [t] := by
  unfold resumeJobs
  split <;> rfl

theorem flatMap_resumeJobs (ts : List κ) :
    (ts.flatMap (resumeJobs kind)).filterMap Job.target = ts := by
  induction ts with
  | nil => rfl
  | cons t ts ih =>
    rw [flatMap_cons, filterMap_append, resumeJobs_target, ih]
    rfl

theorem exceptJobs_perm (ts : List κ) : ((exceptJobs kind ts).filterMap Job.target).Perm ts := by
  rw [exceptJobs, filterMap_append, flatMap_resumeJobs, flatMap_resumeJobs]
  refine ((reverse_perm _).append_left _).trans ?_
  refine perm_append_comm.trans ?_
  simpa using filter_append_perm (fun t => decide (kind t = .fiber)) ts

theorem allJobs_target (ts : List κ) :
    (allJobs kind ts).filterMap Job.target = (exceptJobs kind ts).filterMap Job.target := by
  rw [allJobs, exceptJobs, filterMap_append, filterMap_append, flatMap_resumeJobs (_ : List κ)]
  congr 1
  rw [flatMap_resumeJobs]
  split
  next hnil =>
    rw [hnil]
    rfl
  next next fibers hcons =>
    rw [hcons, reverse_cons, filterMap_append, filterMap_cons, flatMap_resumeJobs]
    rfl

end

theorem step_inv (h : Inv kind s) (a : Act κ ι β) (ha : Heeds kind s a) : Inv kind (step kind s a) := by
  cases a with
  | wait t b timed garbage =>
    simp only [step]
    split
    next hpc =>
      exact wait_inv h hpc ha
    · exact h
  | go t matched => exact goStep_inv h matched
  | timeout t =>
    simp only [step]
    split
    next hg =>
      obtain ⟨hk, hpc⟩ := hg
      have hth := (h.waiter t).thread
      rw [hpc] at hth
      refine h.goto ⟨hk, hth⟩ (by simp [hpc, Pc.published]) (by simp [hpc, Pc.waits]) ?_ nofun
      exact fun hx => absurd ((h.waiter t).timer hx).1 hk
    · exact h
  | timer t => exact timerStep_inv h
  | wake i b =>
    simp only [step]
    split
    next hi =>
      split
      · exact h.callTo ⟨nodup_nil, by rintro jobs n removed ⟨⟩; rfl⟩ nofun
          (by simp [hi, owed])
      next front ts hb =>
        refine wakeSection_inv (b := b) h hi ?_ (by rw [resumeJobs_target]) (nodup_singleton _)
        intro t ht
        rw [hb, mem_singleton.1 ht]
        exact mem_cons_self
    · exact h
  | wakeAll i b =>
    simp only [step]
    split
    next hi =>
      refine wakeSection_inv h hi (fun _ => id) ?_ (h.nodup b)
      rw [allJobs_target]
      exact exceptJobs_perm _
    · exact h
  | wakeExcept i b excluded =>
    simp only [step]
    split
    next hi =>
      exact wakeSection_inv h hi (fun _ => mem_of_mem_filter) (exceptJobs_perm _)
        ((h.nodup b).filter _)
    · exact h
  | requeue i b m =>
    simp only [step]
    split
    next hg =>
      obtain ⟨hi, hbm⟩ := hg
      split
      · exact h.callTo ⟨nodup_nil, by rintro jobs n removed ⟨⟩; rfl⟩ nofun
          (by simp [hi, owed])
      next front ts hb =>
        refine Inv.moveAll ?_ hbm
        refine wakeSection_inv (b := b) h hi ?_ (by rw [resumeJobs_target]) (nodup_singleton _)
        intro t ht
        rw [hb, mem_singleton.1 ht]
        exact mem_cons_self
    · exact h
  | interrupt i t =>
    simp only [step]
    split
    next hi =>
      exact interruptStep_inv h hi
    · exact h
  | call i => exact callStep_inv h

end Steps

/-- **Waiters are woken exactly once and tracked exactly**, in any interleaving in which no pthread
finds a stale container. -/
theorem run_exact (kind : κ → Kind) (acts : List (Act κ ι β))
    (hc : Along (step kind) (Heeds kind) (start κ ι β) acts) :
    Exact kind (runFrom (step kind) (start κ ι β) acts) :=
  (hc.run (fun _ a h ha => step_inv h a ha) (start_inv kind)).exact

/-- Two fibers, a pthread task and a pthread. -/
def someKinds : Fin 4 → Kind
  | 0 | 1 => .fiber
  | 2 => .pthreadTask
  | 3 => .pthread

/-- All four wait on butex 0, fiber 1 with a timeout. Its timer has found butex 0 when a requeue
wakes fiber 0 and moves the others to butex 1; it tries again there and succeeds, task 2 is
interrupted, and the pthread is the only one that is left for `butex_wake_all`. -/
def requeueActs : List (Act (Fin 4) (Fin 3) (Fin 2)) :=
  [.wait 0 0 false none, .go 0 true, .go 0 true, .wait 1 0 true none, .go 1 true, .go 1 true,
    .wait 2 0 false none, .go 2 true, .go 2 true, .wait 3 0 false (some 1), .go 3 true, .go 3 true,
    .timer 1, .timer 1, .requeue 0 0 1, .timer 1, .timer 1, .timer 1, .timer 1,
    .call 0, .call 0, .call 0, .interrupt 1 2, .call 1, .call 1, .wakeAll 2 1, .call 1, .call 1,
    .call 2, .call 2]

theorem run_exact_requeue :
    let s := runFrom (step someKinds) (start (Fin 4) (Fin 3) (Fin 2)) requeueActs
    s.results = [(1, 1), (1, 1)] ∧
      (s.resumes 0, s.resumes 1, s.resumes 2, s.resumes 3) =
        ([.caller 0], [.timer], [.caller 1], [.caller 2]) ∧
      Along (step someKinds) (Heeds someKinds) (start (Fin 4) (Fin 3) (Fin 2)) requeueActs ∧
      Exact someKinds s := by
  intro s
  have hc : Along (step someKinds) (Heeds someKinds) (start (Fin 4) (Fin 3) (Fin 2)) requeueActs := by
    decide
  exact ⟨by decide, by decide, hc, run_exact someKinds requeueActs hc⟩

/-- A pthread task publishes its waiter while the container still holds what was on the stack. -/
theorem stale_container_not_exact :
    ¬ ∀ (kind : Unit → Kind) (acts : List (Act Unit Unit Unit)),
      Exact kind (runFrom (step kind) (start Unit Unit Unit) acts) := by
  intro hall
  have h := hall (fun _ => .pthreadTask) [.wait () () false (some ()), .go () true]
  have hin := (h.tracked () ⟨by decide, by decide⟩ ()).1 (by decide)
  exact absurd hin (by decide)

end Eabase.Fiber.Butex
