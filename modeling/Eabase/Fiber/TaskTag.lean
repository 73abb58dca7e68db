import Mathlib.Data.Fintype.Basic
import Eabase.Lib.Machine

/-!
# Fibers and the tags of task groups

Every worker has a task group with a tag, and a fiber is started for a tag. The
fiber gets into the queues of groups in many ways; each chooses the group on its
own. A start, a sleep that expires and the callbacks that a worker runs behind a
switch choose one of the fiber's tag. A wake takes the group of the waker, one of
the default tag when the waker has none, or the group that the thread remembered
for `NOSIGNAL`; so does an interruption.

Only what decides the group is modelled: which queue a fiber is pushed to, popped
and stolen from, and who waits where. The random index of `choose_one_group`, the
values of butexes and the failures of timers are choices of a step.
-/

namespace Eabase.Fiber.TaskTag

open Lib Function List

variable {ι : Type*} [DecidableEq ι]

/-! ## The machine -/

def fiberTagInvalid : ℤ := -1

def fiberTagDefault : ℤ := 0

structure Task where
  tid : ℕ
  tag : ℤ
  deriving DecidableEq

/-- What `fiber_attr_t` says of the group. -/
structure Attr where
  tag : ℤ
  nosignal : Bool

structure TaskGroup where
  tag : ℤ
  index : ℕ
  deriving DecidableEq

inductive Party (ι : Type*) where
  | worker (g : TaskGroup)
  | thread (t : ι)
  deriving DecidableEq

/-- `tls_task_group`. -/
def Party.taskGroup : Party ι → Option TaskGroup
  | .worker g => some g
  | .thread _ => none

/-- A `ButexWaiter`. -/
inductive Waiter where
  | fiber (f : Task)
  | pthread
  deriving DecidableEq

/-- The callback that a worker runs behind a switch, with its argument. -/
inductive Remained where
  | readyToRun (f : Task)
  | waitForButex (f : Task) (b : ℕ)
  | addSleepEvent (f : Task) (g : TaskGroup)
  | releaseLastContext
  deriving DecidableEq

/-- Where a wake or an interruption stands: in front of the choice of the group, or of making the
fibers ready one by one and `next` at the end. -/
inductive Pc where
  | idle
  | wake (f : Task) (nosignal : Bool)
  | wakeAll (next : Task) (rest : List Task) (nosignal : Bool)
  | wakeExcept (fibers : List Task)
  | ready (g : TaskGroup) (rest : List Task) (next : Option Task) (nosignal : Bool)
  | requeue (f : Task)
  | erase (f : Task)
  | interruptSleep (f : Task)
  deriving DecidableEq

/-- The number of tags and of the groups of each; the queues, current tasks and callbacks of groups,
where `none` is the main task and `pthreadTask` says whether the current one is on the main stack.
The waiters are those of each butex, the sleepers stand with the group that their timer knows. -/
structure State (ι : Type*) where
  ntags : ℤ
  ngroup : ℤ → ℕ
  rq : TaskGroup → List Task
  remoteRq : TaskGroup → List Task
  cur : TaskGroup → Option Task
  pthreadTask : TaskGroup → Bool
  remained : TaskGroup → Option Remained
  nosignalGroup : Party ι → Option TaskGroup
  pc : Party ι → Pc
  waiters : ℕ → List Waiter
  sleepers : List (Task × TaskGroup)
  nfiber : ℕ

def start (ι : Type*) (ntags : ℤ) : State ι where
  ntags := ntags
  ngroup _ := 0
  rq _ := []
  remoteRq _ := []
  cur _ := none
  pthreadTask _ := true
  remained _ := none
  nosignalGroup _ := none
  pc _ := .idle
  waiters _ := []
  sleepers := []
  nfiber := 0

def State.goto (s : State ι) (p : Party ι) (c : Pc) : State ι :=
  { s with pc := update s.pc p c }

/-- `choose_one_group(tag)` may return the group `c` of the tag. -/
def State.Chooses (s : State ι) (tag : ℤ) (c : ℕ) : Prop :=
  c < s.ngroup tag

instance (s : State ι) (tag : ℤ) (c : ℕ) : Decidable (s.Chooses tag c) :=
  inferInstanceAs (Decidable (c < s.ngroup tag))

section

variable (s : State ι)

/-- `ready_to_run`. -/
def State.readyToRun (g : TaskGroup) (f : Task) : State ι :=
  { s with rq := update s.rq g (s.rq g ++ [f]) }

/-- `ready_to_run_remote`. -/
def State.readyToRunRemote (g : TaskGroup) (f : Task) : State ι :=
  { s with remoteRq := update s.remoteRq g (s.remoteRq g ++ [f]) }

/-- `ready_to_run_general`. -/
def State.readyToRunGeneral (p : Party ι) (g : TaskGroup) (f : Task) : State ι :=
  if p.taskGroup = some g then s.readyToRun g f else s.readyToRunRemote g f

/-- `set_remained` and `sched_to`: the worker goes on with `next`, on the main stack or not. -/
def State.schedTo (g : TaskGroup) (r : Remained) (next : Option Task) (onMain : Bool) :
    State ι :=
  { s with
    remained := update s.remained g (some r)
    cur := update s.cur g next
    pthreadTask := update s.pthreadTask g (next.isNone || onMain) }

/-- `exchange`, and what `start_foreground` does with the new fiber. -/
def State.exchange (g : TaskGroup) (f : Task) (onMain : Bool) : State ι :=
  match s.cur g with
  | none => s.readyToRun g f
  | some f' => if s.pthreadTask g then s.readyToRun g f else s.schedTo g (.readyToRun f') f onMain

/-- `run_in_local_task_group`. -/
def State.runInLocalTaskGroup (g : TaskGroup) (f : Task) (nosignal onMain : Bool) :
    State ι :=
  if nosignal then s.readyToRun g f else s.exchange g f onMain

end

inductive Source where
  | main
  | rq
  | remote
  | steal (i : ℕ)
  | stealRemote (i : ℕ)

/-- The next task of a group, `none` being its main task: a `pop` of its own queues, or
`steal_task`, which goes through the groups of the same tag. -/
def State.take (s : State ι) (g : TaskGroup) : Source → Option (Option Task × State ι)
  | .main => some (none, s)
  | .rq => (s.rq g).getLast?.map fun f =>
      (some f, { s with rq := update s.rq g (s.rq g).dropLast })
  | .remote => (s.remoteRq g).head?.map fun f =>
      (some f, { s with remoteRq := update s.remoteRq g (s.remoteRq g).tail })
  | .steal i =>
    if s.Chooses g.tag i then
      (s.rq ⟨g.tag, i⟩).head?.map fun f =>
        (some f, { s with rq := update s.rq ⟨g.tag, i⟩ (s.rq ⟨g.tag, i⟩).tail })
    else none
  | .stealRemote i =>
    if s.Chooses g.tag i then
      (s.remoteRq ⟨g.tag, i⟩).head?.map fun f =>
        (some f, { s with
          remoteRq := update s.remoteRq ⟨g.tag, i⟩ (s.remoteRq ⟨g.tag, i⟩).tail })
    else none

/-- `set_remained` and `sched`. -/
def State.sched (s : State ι) (g : TaskGroup) (r : Remained) (src : Source) (onMain : Bool) : State ι :=
  match s.take g src with
  | none => s
  | some (next, s') => s'.schedTo g r next onMain

/-- `get_task_group`; `c` stands for the group that `choose_one_group()` returns, where it is
called. -/
def State.getTaskGroup (s : State ι) (p : Party ι) (nosignal : Bool) (c : ℕ) : TaskGroup × State ι :=
  let g := p.taskGroup.getD ⟨fiberTagDefault, c⟩
  if nosignal then
    match s.nosignalGroup p with
    | some g' => (g', s)
    | none => (g, { s with nosignalGroup := update s.nosignalGroup p g })
  else (g, s)

/-- `get_task_group` calls `choose_one_group()` only for a thread without a group, and that returns
a group of the default tag. -/
def State.CanGet (s : State ι) (p : Party ι) (nosignal : Bool) (c : ℕ) : Prop :=
  p.taskGroup ≠ none ∨ nosignal = true ∧ s.nosignalGroup p ≠ none ∨ s.Chooses fiberTagDefault c

instance (s : State ι) (p : Party ι) (nosignal : Bool) (c : ℕ) : Decidable (s.CanGet p nosignal c) :=
  inferInstanceAs (Decidable (p.taskGroup ≠ none ∨ nosignal = true ∧ s.nosignalGroup p ≠ none ∨
    s.Chooses fiberTagDefault c))

def Party.tag (p : Party ι) : ℤ :=
  match p.taskGroup with
  | some g => g.tag
  | none => fiberTagDefault

/-- The tag that a fiber is started for: `attr->tag`, or the one of the starting worker. -/
def startTag (p : Party ι) (attr : Option Attr) : ℤ :=
  match attr with
  | some a => if a.tag = fiberTagInvalid then p.tag else a.tag
  | none => p.tag

/-- `can_run_thread_local`. -/
def CanRunThreadLocal (g : TaskGroup) (attr : Option Attr) : Prop :=
  ∀ a, attr = some a → a.tag = g.tag ∨ a.tag = fiberTagInvalid

instance (g : TaskGroup) (attr : Option Attr) : Decidable (CanRunThreadLocal g attr) :=
  match attr with
  | none => isTrue nofun
  | some a => decidable_of_iff (a.tag = g.tag ∨ a.tag = fiberTagInvalid)
      ⟨fun h _ ha => Option.some.inj ha ▸ h, fun h => h a rfl⟩

/-- The tag of the group that `start_from_non_worker` chooses. -/
def remoteTag : Option Attr → ℤ
  | some a => if a.tag = fiberTagInvalid then fiberTagDefault else a.tag
  | none => fiberTagDefault

/-- `start_from_non_worker`. -/
def State.startFromNonWorker (s : State ι) (p : Party ι) (attr : Option Attr) (f : Task) (c : ℕ) :
    State ι :=
  let tag := remoteTag attr
  if attr.any (·.nosignal) then
    match s.nosignalGroup p with
    | some g => s.readyToRunRemote g f
    | none =>
      if s.Chooses tag c then
        { s with
          nosignalGroup := update s.nosignalGroup p (some ⟨tag, c⟩) }.readyToRunRemote
          ⟨tag, c⟩ f
      else s
  else if s.Chooses tag c then s.readyToRunRemote ⟨tag, c⟩ f else s

/-- `fiber_start`, or `fiber_start_lazy` when `lazy`. -/
def State.fiberStart (s : State ι) (p : Party ι) (attr : Option Attr) (lazy : Bool) (c : ℕ)
    (onMain : Bool) : State ι :=
  let f : Task := ⟨s.nfiber, startTag p attr⟩
  let s := { s with nfiber := s.nfiber + 1 }
  match p.taskGroup with
  | some g =>
    if CanRunThreadLocal g attr then
      if lazy then s.readyToRun g f else s.exchange g f onMain
    else s.startFromNonWorker p attr f c
  | none => s.startFromNonWorker p attr f c

/-- What a worker's callback does; `ok` says whether the wait is queued, or the timer set. -/
def State.runRemained (s : State ι) (g : TaskGroup) (ok : Bool) : State ι :=
  match s.remained g with
  | none => s
  | some r =>
    let s := { s with remained := update s.remained g none }
    match r with
    | .readyToRun f => s.readyToRun g f
    | .waitForButex f b =>
      if ok then { s with waiters := update s.waiters b (s.waiters b ++ [.fiber f]) }
      else s.readyToRun g f
    | .addSleepEvent f g' =>
      if ok then { s with sleepers := s.sleepers ++ [(f, g')] } else s.readyToRun g' f
    | .releaseLastContext => s

def fibersOf (ws : List Waiter) : List Task :=
  ws.filterMap fun
    | .fiber f => some f
    | .pthread => none

def goStep (s : State ι) (p : Party ι) (c : ℕ) (onMain : Bool) : State ι :=
  match s.pc p with
  | .idle => s
  | .wake f nosignal =>
    if s.CanGet p nosignal c then
      let (g, s) := s.getTaskGroup p nosignal c
      (if p.taskGroup = some g then s.runInLocalTaskGroup g f nosignal onMain
        else s.readyToRunRemote g f).goto p .idle
    else s
  | .wakeAll next rest nosignal =>
    if s.CanGet p nosignal c then
      let (g, s) := s.getTaskGroup p nosignal c
      s.goto p (.ready g rest next nosignal)
    else s
  | .wakeExcept fibers =>
    if s.CanGet p false c then
      let (g, s) := s.getTaskGroup p false c
      s.goto p (.ready g fibers none false)
    else s
  | .ready g rest next nosignal =>
    match rest.getLast? with
    | some w => (s.readyToRunGeneral p g w).goto p (.ready g rest.dropLast next nosignal)
    | none =>
      match next with
      | none => s.goto p .idle
      | some f =>
        (if p.taskGroup = some g then s.runInLocalTaskGroup g f nosignal onMain
          else s.readyToRunRemote g f).goto p .idle
  | .requeue f =>
    match p.taskGroup with
    | some g => (s.exchange g f onMain).goto p .idle
    | none =>
      if s.Chooses fiberTagDefault c then (s.readyToRunRemote ⟨fiberTagDefault, c⟩ f).goto p .idle
      else s
  | .erase f =>
    if s.CanGet p false c then
      let (g, s) := s.getTaskGroup p false c
      (s.readyToRunGeneral p g f).goto p .idle
    else s
  | .interruptSleep f =>
    match p.taskGroup with
    | some g => (s.readyToRun g f).goto p .idle
    | none =>
      if s.Chooses fiberTagDefault c then (s.readyToRunRemote ⟨fiberTagDefault, c⟩ f).goto p .idle
      else s

/-- What the worker of a group does: its current task yields, sleeps, waits or ends, the main task
takes another one, or it runs the callback behind a switch. -/
inductive TaskAct where
  | yield (src : Source) (onMain : Bool)
  | usleep (src : Source) (onMain : Bool)
  | butexWait (b : ℕ) (src : Source) (onMain : Bool)
  | endingSched (src : Source) (onMain : Bool)
  | runMainTask (src : Source) (onMain : Bool)
  | runRemained (ok : Bool)

/-- What a thread does with a butex: it waits without a fiber, wakes in one of the ways, or takes a
waiter off for a timeout or an interruption. -/
inductive ButexAct where
  | waitFromPthread (b : ℕ)
  | wake (b : ℕ) (nosignal : Bool)
  | wakeAll (b : ℕ) (nosignal : Bool)
  | wakeExcept (b : ℕ) (excluded : Task)
  | requeue (b m : ℕ)
  | erase (b : ℕ) (f : Task)

/-- What happens: a worker is added, a thread starts a fiber or flushes, a sleep expires or is
interrupted, a thread goes on with a wake, or one of the above. -/
inductive Act (ι : Type*) where
  | addWorker (tag : ℤ)
  | fiberStart (p : Party ι) (attr : Option Attr) (lazy : Bool) (c : ℕ) (onMain : Bool)
  | fiberFlush (p : Party ι)
  | expireSleep (f : Task) (g : TaskGroup) (c : ℕ)
  | interruptSleep (p : Party ι) (f : Task) (g : TaskGroup)
  | go (p : Party ι) (c : ℕ) (onMain : Bool)
  | task (g : TaskGroup) (a : TaskAct)
  | butex (p : Party ι) (a : ButexAct)

/-- The thread may call something: it is not in a wake, and a worker has no callback to run. -/
def State.Free (s : State ι) (p : Party ι) : Prop :=
  s.pc p = .idle ∧ ∀ g, p.taskGroup = some g → g.index < s.ngroup g.tag ∧ s.remained g = none

instance (s : State ι) (p : Party ι) : Decidable (s.Free p) :=
  match hp : p.taskGroup with
  | some g => decidable_of_iff (s.pc p = .idle ∧ g.index < s.ngroup g.tag ∧ s.remained g = none)
      ⟨fun h => ⟨h.1, fun _ hg => Option.some.inj (hp.symm.trans hg) ▸ h.2⟩,
        fun h => ⟨h.1, h.2 g hp⟩⟩
  | none => decidable_of_iff (s.pc p = .idle)
      ⟨fun h => ⟨h, fun _ hg => nomatch hp.symm.trans hg⟩, fun h => h.1⟩

def State.current (s : State ι) (g : TaskGroup) : Option Task :=
  if s.Free (.worker g) ∧ s.pthreadTask g = false then s.cur g else none

def taskStep (s : State ι) (g : TaskGroup) : TaskAct → State ι
  | .yield src onMain =>
    match s.current g with
    | some f => s.sched g (.readyToRun f) src onMain
    | none => s
  | .usleep src onMain =>
    match s.current g with
    | some f => s.sched g (.addSleepEvent f g) src onMain
    | none => s
  | .butexWait b src onMain =>
    match s.current g with
    | some f => s.sched g (.waitForButex f b) src onMain
    | none => s
  | .endingSched src onMain =>
    if s.Free (.worker g) ∧ s.cur g ≠ none then s.sched g .releaseLastContext src onMain else s
  | .runMainTask src onMain =>
    if s.Free (.worker g) ∧ s.cur g = none then
      match s.take g src with
      | some (some f, s') =>
        { s' with
          cur := update s'.cur g (some f)
          pthreadTask := update s'.pthreadTask g onMain }
      | _ => s
    else s
  | .runRemained ok => s.runRemained g ok

def butexStep (s : State ι) (p : Party ι) : ButexAct → State ι
  | .waitFromPthread b =>
    if s.Free p then { s with waiters := update s.waiters b (s.waiters b ++ [.pthread]) }
    else s
  | .wake b nosignal =>
    if s.Free p then
      match s.waiters b with
      | [] => s
      | w :: ws =>
        let s := { s with waiters := update s.waiters b ws }
        match w with
        | .pthread => s
        | .fiber f => s.goto p (.wake f nosignal)
    else s
  | .wakeAll b nosignal =>
    if s.Free p then
      let s' := { s with waiters := update s.waiters b [] }
      match fibersOf (s.waiters b) with
      | [] => s'
      | next :: rest => s'.goto p (.wakeAll next rest nosignal)
    else s
  | .wakeExcept b excluded =>
    if s.Free p then
      let s' := { s with
        waiters := update s.waiters b ((s.waiters b).filter (· = .fiber excluded)) }
      match (fibersOf (s.waiters b)).filter (· ≠ excluded) with
      | [] => s'
      | f :: fs => s'.goto p (.wakeExcept (f :: fs))
    else s
  | .requeue b m =>
    if s.Free p ∧ b ≠ m then
      match s.waiters b with
      | [] => s
      | w :: ws =>
        let s := { s with
          waiters := update (update s.waiters b []) m (s.waiters m ++ ws) }
        match w with
        | .pthread => s
        | .fiber f => s.goto p (.requeue f)
    else s
  | .erase b f =>
    if s.Free p ∧ .fiber f ∈ s.waiters b then
      { s with waiters := update s.waiters b ((s.waiters b).erase (.fiber f)) }.goto p
        (.erase f)
    else s

def step (s : State ι) : Act ι → State ι
  | .addWorker tag =>
    if fiberTagDefault ≤ tag ∧ tag < s.ntags then
      { s with ngroup := update s.ngroup tag (s.ngroup tag + 1) }
    else s
  | .fiberStart p attr lazy c onMain =>
    if s.Free p then s.fiberStart p attr lazy c onMain else s
  | .fiberFlush p =>
    if p.taskGroup = none then
      { s with nosignalGroup := update s.nosignalGroup p none }
    else s
  | .expireSleep f g c =>
    if (f, g) ∈ s.sleepers ∧ s.Chooses g.tag c then
      { s with sleepers := s.sleepers.erase (f, g) }.readyToRunRemote ⟨g.tag, c⟩ f
    else s
  | .interruptSleep p f g =>
    if s.Free p ∧ (f, g) ∈ s.sleepers then
      { s with sleepers := s.sleepers.erase (f, g) }.goto p (.interruptSleep f)
    else s
  | .go p c onMain => goStep s p c onMain
  | .task g a => taskStep s g a
  | .butex p a => butexStep s p a

/-! ## What holds -/

/-- Every fiber is in queues of groups of its tag only, and only such groups run it. -/
structure StaysInTag (s : State ι) : Prop where
  queued : ∀ g f, f ∈ s.rq g → g.tag = f.tag
  queuedRemote : ∀ g f, f ∈ s.remoteRq g → g.tag = f.tag
  running : ∀ g f, s.cur g = some f → g.tag = f.tag

/-- The tag of the group that `get_task_group` gives. -/
def State.wakeTag (s : State ι) (p : Party ι) (nosignal : Bool) : ℤ :=
  match s.nosignalGroup p with
  | some g => if nosignal then g.tag else p.tag
  | none => p.tag

/-- The wakes and interruptions whose group is of the tag of what they make ready. -/
def PcHeeds (s : State ι) (p : Party ι) : Pc → Prop
  | .wake f nosignal => s.wakeTag p nosignal = f.tag
  | .wakeAll next rest nosignal => ∀ f ∈ next :: rest, s.wakeTag p nosignal = f.tag
  | .wakeExcept fibers => ∀ f ∈ fibers, p.tag = f.tag
  | .requeue f | .erase f | .interruptSleep f => p.tag = f.tag
  | .idle | .ready _ _ _ _ => True

/-- The steps that choose a group of the right tag: a wake or an interruption is made by a thread of
the fiber's tag, and a start with `NOSIGNAL` by one that remembers no group of another tag. -/
def Heeds (s : State ι) : Act ι → Prop
  | .fiberStart p attr _ _ _ => ∀ g, s.nosignalGroup p = some g → attr.any (·.nosignal) = true →
      g.tag = startTag p attr
  | .go p _ _ => PcHeeds s p (s.pc p)
  | _ => True

instance (s : State ι) (p : Party ι) : ∀ c, Decidable (PcHeeds s p c)
  | .wake f nosignal => inferInstanceAs (Decidable (s.wakeTag p nosignal = f.tag))
  | .wakeAll next rest nosignal =>
    inferInstanceAs (Decidable (∀ f ∈ next :: rest, s.wakeTag p nosignal = f.tag))
  | .wakeExcept fibers => inferInstanceAs (Decidable (∀ f ∈ fibers, p.tag = f.tag))
  | .requeue f | .erase f | .interruptSleep f => inferInstanceAs (Decidable (p.tag = f.tag))
  | .idle | .ready _ _ _ _ => isTrue trivial

instance (s : State ι) : ∀ a, Decidable (Heeds s a)
  | .fiberStart p attr _ _ _ =>
    match hg : s.nosignalGroup p with
    | some g => decidable_of_iff (attr.any (·.nosignal) = true → g.tag = startTag p attr)
        ⟨fun h _ hg' => Option.some.inj (hg.symm.trans hg') ▸ h, fun h => h g hg⟩
    | none => isTrue fun _ hg' => nomatch hg.symm.trans hg'
  | .go p _ _ => inferInstanceAs (Decidable (PcHeeds s p (s.pc p)))
  | .addWorker _ | .fiberFlush _ | .expireSleep _ _ _ | .interruptSleep _ _ _ | .task _ _
  | .butex _ _ => isTrue trivial

/-! ## The invariant -/

def RemainedOk (g : TaskGroup) : Remained → Prop
  | .readyToRun f | .waitForButex f _ => g.tag = f.tag
  | .addSleepEvent f g' => g.tag = f.tag ∧ g' = g
  | .releaseLastContext => True

def PcOk : Pc → Prop
  | .ready g rest next _ => (∀ f ∈ rest, g.tag = f.tag) ∧ ∀ f, next = some f → g.tag = f.tag
  | _ => True

open State

structure Inv (s : State ι) : Prop where
  stays : StaysInTag s
  remained : ∀ g r, s.remained g = some r → RemainedOk g r
  sleepers : ∀ f g, (f, g) ∈ s.sleepers → g.tag = f.tag
  pc : ∀ p, PcOk (s.pc p)

section Steps

variable {s s' : State ι} {p : Party ι} {g : TaskGroup} {f : Task} {c : ℕ}
  {onMain nosignal : Bool} {attr : Option Attr} {next : Option Task} {q : TaskGroup → List Task}
  {r : Remained} {src : Source}

omit [DecidableEq ι] in
theorem start_inv (ntags : ℤ) : Inv (start ι ntags) where
  stays := ⟨nofun, nofun, nofun⟩
  remained := nofun
  sleepers := nofun
  pc := fun _ => trivial

section

variable (h : Inv s)
include h

theorem Inv.goto {c : Pc} (hc : PcOk c) : Inv (s.goto p c) where
  stays := { h.stays with }
  remained := h.remained
  sleepers := h.sleepers
  pc := fun q => by
    by_cases hq : q = p
    · subst hq
      simpa only [goto, update_self] using hc
    · simpa only [State.goto, update_of_ne hq] using h.pc q

section

omit [DecidableEq ι]

theorem Inv.readyToRun (hf : g.tag = f.tag) : Inv (s.readyToRun g f) where
  stays := { h.stays with
    queued := fun g' f' hf' => by
      by_cases hg : g' = g
      · subst hg
        simp only [readyToRun, update_self, mem_append, mem_singleton] at hf'
        rcases hf' with hf' | rfl
        · exact h.stays.queued g' f' hf'
        · exact hf
      · simp only [State.readyToRun, update_of_ne hg] at hf'
        exact h.stays.queued g' f' hf' }
  remained := h.remained
  sleepers := h.sleepers
  pc := h.pc

theorem Inv.readyToRunRemote (hf : g.tag = f.tag) : Inv (s.readyToRunRemote g f) where
  stays := { h.stays with
    queuedRemote := fun g' f' hf' => by
      by_cases hg : g' = g
      · subst hg
        simp only [readyToRunRemote, update_self, mem_append, mem_singleton] at hf'
        rcases hf' with hf' | rfl
        · exact h.stays.queuedRemote g' f' hf'
        · exact hf
      · simp only [State.readyToRunRemote, update_of_ne hg] at hf'
        exact h.stays.queuedRemote g' f' hf' }
  remained := h.remained
  sleepers := h.sleepers
  pc := h.pc

theorem Inv.readyToRunGeneral (hf : g.tag = f.tag) :
    Inv (s.readyToRunGeneral p g f) := by
  unfold State.readyToRunGeneral
  split
  · exact h.readyToRun hf
  · exact h.readyToRunRemote hf

theorem Inv.schedTo (hr : RemainedOk g r)
    (hnext : ∀ f, next = some f → g.tag = f.tag) : Inv (s.schedTo g r next onMain) where
  stays := { h.stays with
    running := fun g' f hf => by
      by_cases hg : g' = g
      · subst hg
        simp only [schedTo, update_self] at hf
        exact hnext f hf
      · simp only [State.schedTo, update_of_ne hg] at hf
        exact h.stays.running g' f hf }
  remained := fun g' r' hr' => by
    by_cases hg : g' = g
    · subst hg
      simp only [schedTo, update_self, Option.some.injEq] at hr'
      exact hr' ▸ hr
    · simp only [State.schedTo, update_of_ne hg] at hr'
      exact h.remained g' r' hr'
  sleepers := h.sleepers
  pc := h.pc

theorem Inv.exchange (hf : g.tag = f.tag) : Inv (s.exchange g f onMain) := by
  unfold State.exchange
  cases hcur : s.cur g with
  | none => exact h.readyToRun hf
  | some f' =>
    dsimp only
    split
    · exact h.readyToRun hf
    · refine h.schedTo (h.stays.running g f' hcur) ?_
      rintro _ ⟨⟩
      exact hf

theorem Inv.runInLocalTaskGroup (hf : g.tag = f.tag) :
    Inv (s.runInLocalTaskGroup g f nosignal onMain) := by
  unfold State.runInLocalTaskGroup
  split
  · exact h.readyToRun hf
  · exact h.exchange hf

theorem Inv.shrink {q' : TaskGroup → List Task} (hq : ∀ g, q g ⊆ s.rq g)
    (hq' : ∀ g, q' g ⊆ s.remoteRq g) : Inv { s with rq := q, remoteRq := q' } where
  stays := { h.stays with
    queued := fun g f hf => h.stays.queued g f (hq g hf)
    queuedRemote := fun g f hf => h.stays.queuedRemote g f (hq' g hf) }
  remained := h.remained
  sleepers := h.sleepers
  pc := h.pc

end

end

theorem update_subset {l : List Task} (hl : l ⊆ q g) (g' : TaskGroup) :
    update q g l g' ⊆ q g' := by
  obtain rfl | hg := eq_or_ne g' g
  · rwa [update_self]
  · rw [update_of_ne hg]
    exact List.Subset.refl _

section

omit [DecidableEq ι]

theorem Inv.take (h : Inv s)
    (htake : s.take g src = some (next, s')) : Inv s' ∧ ∀ f, next = some f → g.tag = f.tag := by
  cases src with
  | main =>
    cases htake
    exact ⟨h, nofun⟩
  | rq =>
    simp only [State.take, Option.map_eq_some_iff, Prod.mk.injEq] at htake
    obtain ⟨f, hf, rfl, rfl⟩ := htake
    refine ⟨h.shrink (update_subset (dropLast_subset _)) fun _ => List.Subset.refl _, ?_⟩
    rintro _ ⟨⟩
    exact h.stays.queued g f (mem_of_getLast? hf)
  | remote =>
    simp only [State.take, Option.map_eq_some_iff, Prod.mk.injEq] at htake
    obtain ⟨f, hf, rfl, rfl⟩ := htake
    refine ⟨h.shrink (fun _ => List.Subset.refl _) (update_subset (tail_subset _)), ?_⟩
    rintro _ ⟨⟩
    exact h.stays.queuedRemote g f (mem_of_head? hf)
  | steal i =>
    simp only [State.take] at htake
    split at htake
    case isFalse => cases htake
    simp only [Option.map_eq_some_iff, Prod.mk.injEq] at htake
    obtain ⟨f, hf, rfl, rfl⟩ := htake
    refine ⟨h.shrink (update_subset (tail_subset _)) fun _ => List.Subset.refl _, ?_⟩
    rintro _ ⟨⟩
    exact h.stays.queued ⟨g.tag, i⟩ f (mem_of_head? hf)
  | stealRemote i =>
    simp only [State.take] at htake
    split at htake
    case isFalse => cases htake
    simp only [Option.map_eq_some_iff, Prod.mk.injEq] at htake
    obtain ⟨f, hf, rfl, rfl⟩ := htake
    refine ⟨h.shrink (fun _ => List.Subset.refl _) (update_subset (tail_subset _)), ?_⟩
    rintro _ ⟨⟩
    exact h.stays.queuedRemote ⟨g.tag, i⟩ f (mem_of_head? hf)

theorem Inv.sched (h : Inv s) (hr : RemainedOk g r) :
    Inv (s.sched g r src onMain) := by
  unfold State.sched
  split
  case h_1 => exact h
  case h_2 next s' htake =>
    obtain ⟨h', hnext⟩ := h.take htake
    exact h'.schedTo hr hnext

theorem current_tag (h : Inv s) (hf : s.current g = some f) : g.tag = f.tag := by
  unfold current at hf
  split at hf
  case isTrue => exact h.stays.running g f hf
  case isFalse => cases hf

end

theorem getTaskGroup_tag : (s.getTaskGroup p nosignal c).1.tag = s.wakeTag p nosignal := by
  have hown : (p.taskGroup.getD ⟨fiberTagDefault, c⟩).tag = p.tag := by
    cases p <;> rfl
  unfold getTaskGroup wakeTag
  cases s.nosignalGroup p <;> cases nosignal <;> first | exact hown | rfl

section

variable (h : Inv s)
include h

theorem Inv.getTaskGroup : Inv (s.getTaskGroup p nosignal c).2 := by
  have hset : ∀ g, Inv { s with nosignalGroup := update s.nosignalGroup p g } := fun g =>
    { stays := { h.stays with }, remained := h.remained, sleepers := h.sleepers, pc := h.pc }
  unfold State.getTaskGroup
  split
  · split
    · exact h
    · exact hset _
  · exact h

theorem Inv.startFromNonWorker (hf : f.tag = startTag p attr)
    (hlocal : ∀ g, p.taskGroup = some g → ¬ CanRunThreadLocal g attr)
    (hheeds : ∀ g, s.nosignalGroup p = some g → attr.any (·.nosignal) = true →
      g.tag = startTag p attr) : Inv (s.startFromNonWorker p attr f c) := by
  have htag : remoteTag attr = f.tag := by
    rw [hf]
    cases p with
    | thread t => cases attr <;> rfl
    | worker g =>
      have hno := hlocal g rfl
      cases attr with
      | none => exact absurd nofun hno
      | some a =>
        have ha : a.tag ≠ fiberTagInvalid := by
          intro ha
          refine hno ?_
          rintro _ ⟨⟩
          exact .inr ha
        simp only [remoteTag, startTag, if_neg ha]
  unfold State.startFromNonWorker
  dsimp only
  split
  case isTrue hns =>
    split
    case h_1 g hg => exact h.readyToRunRemote ((hheeds g hg hns).trans hf.symm)
    case h_2 =>
      split
      · refine Inv.readyToRunRemote ?_ htag
        exact { stays := { h.stays with }, remained := h.remained, sleepers := h.sleepers, pc := h.pc }
      · exact h
  case isFalse =>
    split
    · exact h.readyToRunRemote htag
    · exact h

theorem Inv.fiberStart {lazy : Bool}
    (hheeds : ∀ g, s.nosignalGroup p = some g → attr.any (·.nosignal) = true →
      g.tag = startTag p attr) : Inv (s.fiberStart p attr lazy c onMain) := by
  have h' : Inv { s with nfiber := s.nfiber + 1 } :=
    { stays := { h.stays with }, remained := h.remained, sleepers := h.sleepers, pc := h.pc }
  unfold State.fiberStart
  cases p with
  | thread t => exact h'.startFromNonWorker rfl nofun hheeds
  | worker g =>
    by_cases hlocal : CanRunThreadLocal g attr
    · have htag : g.tag = startTag (.worker g : Party ι) attr := by
        cases attr with
        | none => rfl
        | some a =>
          unfold startTag
          dsimp only
          split
          · rfl
          · next hinv => exact ((hlocal a rfl).resolve_right hinv).symm
      simp only [Party.taskGroup, if_pos hlocal]
      split
      · exact h'.readyToRun htag
      · exact h'.exchange htag
    · simp only [Party.taskGroup, if_neg hlocal]
      refine h'.startFromNonWorker rfl ?_ hheeds
      rintro _ ⟨⟩
      exact hlocal

omit [DecidableEq ι] in
theorem Inv.runRemained {ok : Bool} : Inv (s.runRemained g ok) := by
  unfold State.runRemained
  cases hr : s.remained g with
  | none => exact h
  | some r =>
    have hok := h.remained g r hr
    have h' : Inv { s with remained := update s.remained g none } :=
      { stays := { h.stays with }
        remained := fun g' r' hr' => by
          obtain rfl | hg := eq_or_ne g' g
          · simp at hr'
          · simp only [update_of_ne hg] at hr'
            exact h.remained g' r' hr'
        sleepers := h.sleepers
        pc := h.pc }
    cases r with
    | readyToRun f => exact h'.readyToRun hok
    | waitForButex f b =>
      dsimp only
      split
      · exact { stays := { h'.stays with }, remained := h'.remained, sleepers :=
          h'.sleepers, pc := h'.pc }
      · exact h'.readyToRun hok
    | addSleepEvent f g' =>
      obtain ⟨hf, rfl⟩ := hok
      dsimp only
      split
      · exact {
          stays := { h'.stays with }
          remained := h'.remained
          sleepers := fun f' g hmem => by
            rcases mem_append.1 hmem with hmem | hmem
            · exact h.sleepers f' g hmem
            · obtain ⟨rfl, rfl⟩ := Prod.mk.inj (mem_singleton.1 hmem)
              exact hf
          pc := h'.pc }
      · exact h'.readyToRun hf
    | releaseLastContext => exact h'

theorem Inv.local_or_remote (hf : g.tag = f.tag) :
    Inv ((if p.taskGroup = some g then s.runInLocalTaskGroup g f nosignal onMain
      else s.readyToRunRemote g f).goto p .idle) := by
  split
  · exact (h.runInLocalTaskGroup hf).goto trivial
  · exact (h.readyToRunRemote hf).goto trivial

theorem goStep_inv (hheeds : PcHeeds s p (s.pc p)) : Inv (goStep s p c onMain) := by
  have hpc := h.pc p
  unfold goStep
  cases hp : s.pc p with
  | idle => exact h
  | wake f nosignal =>
    rw [hp] at hheeds
    dsimp only
    split
    · exact h.getTaskGroup.local_or_remote (getTaskGroup_tag.trans hheeds)
    · exact h
  | wakeAll next rest nosignal =>
    rw [hp] at hheeds
    dsimp only
    split
    · refine h.getTaskGroup.goto ⟨fun f hf => ?_, ?_⟩
      · exact getTaskGroup_tag.trans (hheeds f (mem_cons_of_mem _ hf))
      · rintro _ ⟨⟩
        exact getTaskGroup_tag.trans (hheeds next (mem_cons_self ..))
    · exact h
  | wakeExcept fibers =>
    rw [hp] at hheeds
    have hown : s.wakeTag p false = p.tag := by
      unfold wakeTag
      cases s.nosignalGroup p <;> rfl
    dsimp only
    split
    · refine h.getTaskGroup.goto ⟨fun f hf => ?_, nofun⟩
      exact getTaskGroup_tag.trans (hown.trans (hheeds f hf))
    · exact h
  | ready g rest next nosignal =>
    rw [hp] at hpc
    dsimp only
    cases hlast : rest.getLast? with
    | some w =>
      refine (h.readyToRunGeneral (hpc.1 w (mem_of_getLast? hlast))).goto ⟨?_, hpc.2⟩
      exact fun f hf => hpc.1 f (dropLast_subset _ hf)
    | none =>
      cases next with
      | none => exact h.goto trivial
      | some f => exact h.local_or_remote (hpc.2 f rfl)
  | requeue f =>
    rw [hp] at hheeds
    cases p with
    | worker g => exact (h.exchange hheeds).goto trivial
    | thread t =>
      have hf : fiberTagDefault = f.tag := hheeds
      simp only [Party.taskGroup]
      split
      · exact (h.readyToRunRemote hf).goto trivial
      · exact h
  | erase f =>
    rw [hp] at hheeds
    have hown : s.wakeTag p false = p.tag := by
      unfold wakeTag
      cases s.nosignalGroup p <;> rfl
    dsimp only
    split
    · exact (h.getTaskGroup.readyToRunGeneral (getTaskGroup_tag.trans (hown.trans hheeds))).goto
        trivial
    · exact h
  | interruptSleep f =>
    rw [hp] at hheeds
    cases p with
    | worker g => exact (h.readyToRun hheeds).goto trivial
    | thread t =>
      have hf : fiberTagDefault = f.tag := hheeds
      simp only [Party.taskGroup]
      split
      · exact (h.readyToRunRemote hf).goto trivial
      · exact h

omit [DecidableEq ι] in
theorem Inv.waiters (w : ℕ → List Waiter) : Inv { s with waiters := w } where
  stays := { h.stays with }
  remained := h.remained
  sleepers := h.sleepers
  pc := h.pc

omit [DecidableEq ι] in
theorem taskStep_inv (a : TaskAct) : Inv (taskStep s g a) := by
  cases a with
  | yield src onMain =>
    simp only [taskStep]
    split
    case h_1 f hf => exact h.sched (current_tag h hf)
    case h_2 => exact h
  | usleep src onMain =>
    simp only [taskStep]
    split
    case h_1 f hf => exact h.sched ⟨current_tag h hf, rfl⟩
    case h_2 => exact h
  | butexWait b src onMain =>
    simp only [taskStep]
    split
    case h_1 f hf => exact h.sched (current_tag h hf)
    case h_2 => exact h
  | endingSched src onMain =>
    simp only [taskStep]
    split
    · exact h.sched trivial
    · exact h
  | runMainTask src onMain =>
    simp only [taskStep]
    split
    case isFalse => exact h
    split
    case h_2 => exact h
    case h_1 f s' htake =>
      obtain ⟨h', hnext⟩ := h.take htake
      exact { h' with
        stays := { h'.stays with
          running := fun g' f' hf' => by
            obtain rfl | hg := eq_or_ne g' g
            · simp only [update_self, Option.some.injEq] at hf'
              exact hnext f' (congrArg some hf')
            · simp only [update_of_ne hg] at hf'
              exact h'.stays.running g' f' hf' } }
  | runRemained ok => exact h.runRemained

theorem butexStep_inv (a : ButexAct) : Inv (butexStep s p a) := by
  cases a with
  | waitFromPthread b =>
    simp only [butexStep]
    split
    · exact h.waiters _
    · exact h
  | wake b nosignal =>
    simp only [butexStep]
    split
    case isFalse => exact h
    split
    case h_1 => exact h
    case h_2 w ws _ =>
      cases w with
      | pthread => exact h.waiters _
      | fiber f => exact (h.waiters _).goto trivial
  | wakeAll b nosignal =>
    simp only [butexStep]
    split
    case isFalse => exact h
    split
    · exact h.waiters _
    · exact (h.waiters _).goto trivial
  | wakeExcept b excluded =>
    simp only [butexStep]
    split
    case isFalse => exact h
    split
    · exact h.waiters _
    · exact (h.waiters _).goto trivial
  | requeue b m =>
    simp only [butexStep]
    split
    case isFalse => exact h
    split
    case h_1 => exact h
    case h_2 w ws _ =>
      cases w with
      | pthread => exact h.waiters _
      | fiber f => exact (h.waiters _).goto trivial
  | erase b f =>
    simp only [butexStep]
    split
    · exact (h.waiters _).goto trivial
    · exact h

omit [DecidableEq ι] in
theorem Inv.unsleep (f : Task) (g : TaskGroup) :
    Inv { s with sleepers := s.sleepers.erase (f, g) } where
  stays := { h.stays with }
  remained := h.remained
  sleepers := fun f' g' hmem => h.sleepers f' g' (mem_of_mem_erase hmem)
  pc := h.pc

end

theorem step_inv (s : State ι) (a : Act ι) (h : Inv s) (hheeds : Heeds s a) : Inv (step s a) := by
  cases a with
  | addWorker tag =>
    unfold step
    dsimp only
    split
    · exact { stays := { h.stays with }, remained := h.remained, sleepers := h.sleepers, pc := h.pc }
    · exact h
  | fiberStart p attr lazy c onMain =>
    unfold step
    dsimp only
    split
    · exact h.fiberStart hheeds
    · exact h
  | fiberFlush p =>
    unfold step
    dsimp only
    split
    · exact { stays := { h.stays with }, remained := h.remained, sleepers := h.sleepers, pc := h.pc }
    · exact h
  | expireSleep f g c =>
    unfold step
    dsimp only
    split
    case isTrue hc => exact (h.unsleep f g).readyToRunRemote (h.sleepers f g hc.1)
    case isFalse => exact h
  | interruptSleep p f g =>
    unfold step
    dsimp only
    split
    · exact (h.unsleep f g).goto trivial
    · exact h
  | go p c onMain => exact goStep_inv h hheeds
  | task g a => exact taskStep_inv h a
  | butex p a => exact butexStep_inv h a

/-- **Fibers stay within their tag** as long as the threads that wake or interrupt them are of that
tag. -/
theorem run_staysInTag (ntags : ℤ) (as : List (Act ι)) (hc : Along step Heeds (start ι ntags) as) :
    StaysInTag (runFrom step (start ι ntags) as) :=
  (hc.run step_inv (start_inv ntags)).stays

end Steps

local instance neZero1 : NeZero 1 := ⟨by decide⟩

/-- A fiber of tag 1 waits on a butex. -/
def waiting : List (Act (Fin 1)) :=
  [.addWorker 0, .addWorker 1, .fiberStart (.thread 0) (some ⟨1, false⟩) false 0 false,
    .task ⟨1, 0⟩ (.runMainTask .remote false), .task ⟨1, 0⟩ (.butexWait 7 .main false),
    .task ⟨1, 0⟩ (.runRemained true)]

/-- Another fiber of tag 1 wakes it. -/
theorem run_staysInTag_wake :
    StaysInTag (runFrom step (start (Fin 1) 2) (waiting ++
      [.fiberStart (.thread 0) (some ⟨1, false⟩) false 0 false,
        .task ⟨1, 0⟩ (.runMainTask .remote false), .butex (.worker ⟨1, 0⟩) (.wake 7 false),
        .go (.worker ⟨1, 0⟩) 0 false])) :=
  run_staysInTag 2 _ (by decide)

/-- A thread without a group wakes it: the fiber is in the queue of a group of tag 0. -/
theorem foreign_wake_not_staysInTag :
    ¬ ∀ (ntags : ℤ) (as : List (Act (Fin 1))),
      StaysInTag (runFrom step (start (Fin 1) ntags) as) := by
  intro hall
  have hq :=
    (hall 2 (waiting ++ [.butex (.thread 0) (.wake 7 false), .go (.thread 0) 0 false])).queuedRemote
    ⟨0, 0⟩ ⟨0, 1⟩
  revert hq
  decide

end Eabase.Fiber.TaskTag
