import Mathlib.Data.BitVec
import Eabase.Fiber.TaskTag

/-!
# Fibers made runnable without a signal

A fiber started with `FIBER_NOSIGNAL`, or woken with `nosignal`, is pushed to a
queue of some group and added to the counter of that queue; `fiber_flush` has to
signal what the counters include. A worker flushes the local counter of its own
group. Another thread flushes the remote counter of the group that it remembered
in `tls_task_group_nosignal`. Workers remember a group there too, when they wake
or start for another tag, and nothing of that is flushed.

A call is the list of what it does to the counters, each a step of its own: what
the owner of a counter does to it, or a critical section of `_remote_rq._mutex`.
A push finds the queue full or not, as the step says.
-/

namespace Eabase.Fiber.Nosignal

open Lib Fiber.TaskTag Function List

variable {τ : Type*} [DecidableEq τ]

/-! ## The machine -/

/-- A fiber that a thread made runnable in a group without a signal, with a number of its own. -/
structure Entry (τ : Type*) where
  number : ℕ
  thread : τ
  group : TaskGroup
  tid : ℕ
  deriving DecidableEq

inductive Queue where
  | rq
  | remoteRq
  deriving DecidableEq

/-- A counter of fibers pushed without a signal, and what it includes. -/
structure Counter (τ : Type*) where
  num : BitVec 32
  entries : List (Entry τ)

/-- What a call does: `ready_to_run` or `ready_to_run_remote`, `push_rq`, the test of
`flush_nosignal_tasks_remote`, `flush_nosignal_tasks` or `flush_nosignal_tasks_remote_locked`, and
`signal_task` for what a counter included. -/
inductive Op (τ : Type*) where
  | readyToRun (q : Queue) (g : TaskGroup) (tid : ℕ) (nosignal : Bool)
  | pushRq (g : TaskGroup) (tid : ℕ)
  | testRemote (g : TaskGroup)
  | flush (q : Queue) (g : TaskGroup)
  | signalTask (num : BitVec 32) (tag : ℤ) (entries : List (Entry τ))
  deriving DecidableEq

/-- Where a thread stands: `flushed` is behind a `fiber_flush`, and `run` in a call that is one or
not. -/
inductive Pc (τ : Type*) where
  | idle
  | flushed
  | run (flush : Bool) (ops : List (Op τ))
  deriving DecidableEq

/-- The groups of each tag, `tls_task_group` and `tls_task_group_nosignal` of each thread, the
counters, what was made runnable without a signal, and what a `signal_task` of a tag covered. -/
structure State (τ : Type*) where
  ngroup : ℤ → ℕ
  taskGroup : τ → Option TaskGroup
  nosignalGroup : τ → Option TaskGroup
  num : Queue → TaskGroup → Counter τ
  made : List (Entry τ)
  signaled : ℤ → List (Entry τ)
  pc : τ → Pc τ

def start (τ : Type*) : State τ where
  ngroup _ := 0
  taskGroup _ := none
  nosignalGroup _ := none
  num _ _ := ⟨0, []⟩
  made := []
  signaled _ := []
  pc _ := .idle

def Pc.after (flush : Bool) : List (Op τ) → Pc τ
  | [] => if flush then .flushed else .idle
  | ops => .run flush ops

def State.goOn (s : State τ) (t : τ) (b : Bool) (ops : List (Op τ)) : State τ :=
  { s with pc := update s.pc t (.after b ops) }

def State.setNum (s : State τ) (q : Queue) (g : TaskGroup) (c : Counter τ) : State τ :=
  { s with num := fun q' g' => if q' = q ∧ g' = g then c else s.num q' g' }

/-- The counter is set to zero, and what it included is signaled next. -/
def State.flush (s : State τ) (t : τ) (b : Bool) (q : Queue) (g : TaskGroup) (ops : List (Op τ)) :
    State τ :=
  let val := (s.num q g).num
  if val = 0 then s.goOn t b ops
  else (s.setNum q g ⟨0, []⟩).goOn t b (.signalTask val g.tag (s.num q g).entries :: ops)

/-- The steps of a call, with `ops` behind it. A push to a full queue flushes its counter and is
tried again. -/
def opStep (s : State τ) (t : τ) (b full : Bool) (ops : List (Op τ)) : Op τ → State τ
  | .readyToRun q g tid nosignal =>
    let c := s.num q g
    if full then s.flush t b q g (.readyToRun q g tid nosignal :: ops)
    else if nosignal then
      let e : Entry τ := ⟨s.made.length, t, g, tid⟩
      { s.setNum q g ⟨c.num + 1, e :: c.entries⟩ with made := s.made ++ [e] }.goOn t b ops
    else (s.setNum q g ⟨0, []⟩).goOn t b (.signalTask (1 + c.num) g.tag c.entries :: ops)
  | .pushRq g tid => if full then s.flush t b .rq g (.pushRq g tid :: ops) else s.goOn t b ops
  | .testRemote g =>
    s.goOn t b (if (s.num .remoteRq g).num = 0 then ops else .flush .remoteRq g :: ops)
  | .flush q g => s.flush t b q g ops
  | .signalTask num tag entries =>
    if num.toInt ≤ 0 then s.goOn t b ops
    else { s with signaled := update s.signaled tag (s.signaled tag ++ entries) }.goOn t b ops

/-! ## The calls -/

/-- What a call finds: the index of the group that `choose_one_group` draws, whether there is a
`TaskControl` and a `TaskMeta` for a new fiber, the new fiber, and the running one with its stack
and `about_to_quit`. -/
structure Env where
  chosen : ℕ
  control : Bool
  created : Bool
  tid : ℕ
  isCurrentPthreadTask : Bool
  currentTid : ℕ
  aboutToQuit : Bool

/-- The `FIBER_NOSIGNAL` of the attribute. -/
def nosignal (attr : Option Attr) : Bool :=
  attr.any (·.nosignal)

/-- `choose_one_group(tag)`; there is none to return before the tag has a group. -/
def State.chooseOneGroup (s : State τ) (tag : ℤ) (e : Env) : Option TaskGroup :=
  if e.chosen < s.ngroup tag then some ⟨tag, e.chosen⟩ else none

/-- `start_background`. -/
def startBackground (q : Queue) (g : TaskGroup) (attr : Option Attr) (e : Env) : List (Op τ) :=
  if e.created then [.readyToRun q g e.tid (nosignal attr)] else []

/-- `start_foreground`: `FIBER_NOSIGNAL` affects the current task where there is one to switch
from. -/
def startForeground (g : TaskGroup) (attr : Option Attr) (e : Env) : List (Op τ) :=
  if e.created then
    if e.isCurrentPthreadTask then [.readyToRun .rq g e.tid (nosignal attr)]
    else if e.aboutToQuit then [.pushRq g e.currentTid]
    else [.readyToRun .rq g e.currentTid (nosignal attr)]
  else []

/-- `exchange`. -/
def exchange (g : TaskGroup) (nextTid : ℕ) (e : Env) : List (Op τ) :=
  if e.isCurrentPthreadTask then [.readyToRun .rq g nextTid false]
  else if e.aboutToQuit then [.pushRq g e.currentTid]
  else [.readyToRun .rq g e.currentTid false]

section

variable (s : State τ) (t : τ)

/-- `start_from_non_worker`. -/
def State.startFromNonWorker (attr : Option Attr) (e : Env) :
    Option (State τ × List (Op τ)) :=
  if e.control then
    if nosignal attr then
      match s.nosignalGroup t with
      | some g => some (s, startBackground .remoteRq g attr e)
      | none =>
        (s.chooseOneGroup (remoteTag attr) e).map fun g =>
          ({ s with nosignalGroup := update s.nosignalGroup t (some g) },
            startBackground .remoteRq g attr e)
    else (s.chooseOneGroup (remoteTag attr) e).map fun g => (s, startBackground .remoteRq g attr e)
  else some (s, [])

/-- `fiber_start`, or `fiber_start_lazy` when `lazy`. -/
def State.fiberStart (lazy : Bool) (attr : Option Attr) (e : Env) :
    Option (State τ × List (Op τ)) :=
  match s.taskGroup t with
  | some g =>
    if CanRunThreadLocal g attr then
      some (s, if lazy then startBackground .rq g attr e else startForeground g attr e)
    else s.startFromNonWorker t attr e
  | none => s.startFromNonWorker t attr e

/-- `fiber_flush`. -/
def State.fiberFlush : State τ × List (Op τ) :=
  match s.taskGroup t with
  | some g => (s, [.flush .rq g])
  | none =>
    match s.nosignalGroup t with
    | some g => ({ s with nosignalGroup := update s.nosignalGroup t none }, [.testRemote g])
    | none => (s, [])

/-- `get_task_group`. -/
def State.getTaskGroup (nosignal : Bool) (e : Env) : Option (State τ × TaskGroup) :=
  let own := match s.taskGroup t with
    | some g => some g
    | none => s.chooseOneGroup fiberTagDefault e
  if nosignal then
    match s.nosignalGroup t with
    | none => own.map fun g => ({ s with nosignalGroup := update s.nosignalGroup t (some g) }, g)
    | some g => some (s, g)
  else own.map fun g => (s, g)

/-- The queue of a group that a thread pushes to in `ready_to_run_general`. -/
def State.queueOf (g : TaskGroup) : Queue :=
  if s.taskGroup t = some g then .rq else .remoteRq

/-- `flush_nosignal_tasks_general`. -/
def State.flushGeneral (g : TaskGroup) : Op τ :=
  if s.taskGroup t = some g then .flush .rq g else .testRemote g

/-- `run_in_local_task_group`, or `ready_to_run_remote` when the group is not the thread's. -/
def State.runIn (g : TaskGroup) (tid : ℕ) (nosignal : Bool) (e : Env) : List (Op τ) :=
  if s.taskGroup t = some g then
    if nosignal then [.readyToRun .rq g tid nosignal] else exchange g tid e
  else [.readyToRun .remoteRq g tid nosignal]

end

/-- A `ButexWaiter`. -/
inductive Waiter where
  | fiber (tid : ℕ)
  | pthread
  deriving DecidableEq

def fibersOf (ws : List Waiter) : List ℕ :=
  ws.filterMap fun
    | .fiber tid => some tid
    | .pthread => none

section

variable (s : State τ) (t : τ) (waiters : List Waiter)

/-- `butex_wake`. -/
def State.butexWake (nosignal : Bool) (e : Env) :
    Option (State τ × List (Op τ)) :=
  match waiters with
  | .fiber tid :: _ => (s.getTaskGroup t nosignal e).map fun (s', g) => (s', s.runIn t g tid nosignal e)
  | _ => some (s, [])

/-- `butex_wake_all`: the first waiter is the last to be made ready, the others are from behind. -/
def State.butexWakeAll (nosignal : Bool) (e : Env) :
    Option (State τ × List (Op τ)) :=
  match fibersOf waiters with
  | [] => some (s, [])
  | next :: rest =>
    (s.getTaskGroup t nosignal e).map fun (s', g) =>
      (s', rest.reverse.map (.readyToRun (s.queueOf t g) g · true) ++
        (if !nosignal && !rest.isEmpty then [s.flushGeneral t g] else []) ++ s.runIn t g next nosignal e)

/-- `butex_wake_except`, for the waiters that are not excluded. -/
def State.butexWakeExcept (e : Env) :
    Option (State τ × List (Op τ)) :=
  match fibersOf waiters with
  | [] => some (s, [])
  | fibers =>
    (s.getTaskGroup t false e).map fun (s', g) =>
      (s', fibers.reverse.map (.readyToRun (s.queueOf t g) g · true) ++ [s.flushGeneral t g])

end

/-- A call; `ready` stands for what makes one fiber ready with a signal in some group: a yield, a
timer or an interruption. -/
inductive Call where
  | fiberStart (lazy : Bool) (attr : Option Attr)
  | fiberFlush
  | butexWake (waiters : List Waiter) (nosignal : Bool)
  | butexWakeAll (waiters : List Waiter) (nosignal : Bool)
  | butexWakeExcept (waiters : List Waiter)
  | ready (g : TaskGroup) (tid : ℕ)

/-- What a call does at its beginning, and what is left. -/
def State.call (s : State τ) (t : τ) (e : Env) : Call → Option (State τ × List (Op τ))
  | .fiberStart lazy attr => s.fiberStart t lazy attr e
  | .fiberFlush => some (s.fiberFlush t)
  | .butexWake waiters nosignal => s.butexWake t waiters nosignal e
  | .butexWakeAll waiters nosignal => s.butexWakeAll t waiters nosignal e
  | .butexWakeExcept waiters => s.butexWakeExcept t waiters e
  | .ready g tid => some (s, [.readyToRun (s.queueOf t g) g tid false])

def Call.isFlush : Call → Bool
  | .fiberFlush => true
  | _ => false

/-- A thread becomes a worker of a tag, calls something or goes on with its call. -/
inductive Act (τ : Type*) where
  | addWorker (t : τ) (tag : ℤ)
  | call (t : τ) (c : Call) (e : Env)
  | go (t : τ) (full : Bool)

def Pc.ops : Pc τ → List (Op τ)
  | .run _ ops => ops
  | _ => []

/-- One step. A thread that gets no group from `choose_one_group` does not come to make a fiber
ready. -/
def step (s : State τ) : Act τ → State τ
  | .addWorker t tag =>
    if (s.pc t).ops = [] ∧ s.taskGroup t = none then
      { s with
        ngroup := update s.ngroup tag (s.ngroup tag + 1)
        taskGroup := update s.taskGroup t (some ⟨tag, s.ngroup tag⟩) }
    else s
  | .call t c e =>
    if (s.pc t).ops = [] then
      match s.call t e c with
      | some (s', ops) => s'.goOn t c.isFlush ops
      | none => s
    else s
  | .go t full =>
    match s.pc t with
    | .run b (op :: ops) => opStep s t b full ops op
    | _ => s

/-! ## What a flush publishes -/

/-- What a thread made runnable without a signal is in no counter, and a `signal_task` of the tag of
its group has covered it, or is the next thing that the thread does that took it from there. -/
structure Published (s : State τ) (t : τ) : Prop where
  flushed : ∀ q g, ∀ e ∈ (s.num q g).entries, e.thread ≠ t
  signaled : ∀ e ∈ s.made, e.thread = t → e ∈ s.signaled e.group.tag ∨
    ∃ t' num es ops, (s.pc t').ops = .signalTask num e.group.tag es :: ops ∧ 0 < num.toInt ∧ e ∈ es

/-- A thread remembers only the group that it will flush: a worker starts a fiber with
`FIBER_NOSIGNAL` where it can run it locally, and a thread that becomes a worker has flushed. No
counter exceeds an `int`. -/
def Flushable (s : State τ) : Act τ → Prop
  | .addWorker t _ => s.nosignalGroup t = none
  | .call t (.fiberStart _ attr) _ =>
    match s.taskGroup t with
    | some g => nosignal attr = true → CanRunThreadLocal g attr
    | none => True
  | .call _ _ _ => True
  | .go t _ =>
    match (s.pc t).ops with
    | .readyToRun q g _ _ :: _ => (s.num q g).num.toNat + 1 < 2 ^ 31
    | _ => True

instance (s : State τ) : ∀ a, Decidable (Flushable s a)
  | .addWorker t _ => inferInstanceAs (Decidable (s.nosignalGroup t = none))
  | .call t (.fiberStart _ attr) _ =>
    match htg : s.taskGroup t with
    | some g => decidable_of_iff (nosignal attr = true → CanRunThreadLocal g attr) (by
        rw [Flushable, htg])
    | none => isTrue (by
        rw [Flushable, htg]
        trivial)
  | .call _ .fiberFlush _ | .call _ (.butexWake _ _) _ | .call _ (.butexWakeAll _ _) _
  | .call _ (.butexWakeExcept _) _ | .call _ (.ready _ _) _ => isTrue trivial
  | .go t _ =>
    match hops : (s.pc t).ops with
    | .readyToRun q g _ _ :: _ => decidable_of_iff ((s.num q g).num.toNat + 1 < 2 ^ 31) (by
        rw [Flushable, hops])
    | [] | .pushRq _ _ :: _ | .testRemote _ :: _ | .flush _ _ :: _ | .signalTask _ _ _ :: _ => isTrue (by
        rw [Flushable, hops]
        trivial)

/-! ## The invariant -/

/-- The flush that a thread will come to covers what it adds to the counter, when it remembers `ng`
and `ops` is left of its call. -/
def Covers (tg ng : Option TaskGroup) (ops : List (Op τ)) (g : TaskGroup) : Queue → Prop
  | .rq => tg = some g
  | .remoteRq => tg = none ∧ (ng = some g ∨ .testRemote g ∈ ops ∨ .flush .remoteRq g ∈ ops)

def OpOk (tg ng : Option TaskGroup) (ops : List (Op τ)) : Op τ → Prop
  | .readyToRun q g _ nosignal => (q = .rq → tg = some g) ∧ (nosignal = true → Covers tg ng ops g q)
  | .pushRq g _ => tg = some g
  | .flush q g => q = .rq → tg = some g
  | .testRemote _ => True
  | .signalTask num _ _ => 0 < num.toInt

def OpsOk (tg ng : Option TaskGroup) : List (Op τ) → Prop
  | [] => True
  | op :: ops => OpOk tg ng ops op ∧ OpsOk tg ng ops

def Op.flushes : Op τ → Bool
  | .testRemote _ | .flush _ _ | .signalTask _ _ _ => true
  | _ => false

def Pc.flushes : Pc τ → Bool
  | .flushed | .run true _ => true
  | _ => false

/-- What a counter includes of a thread will be flushed. -/
def Held (tg ng : Option TaskGroup) (c : Pc τ) (g : TaskGroup) (q : Queue) : Prop :=
  Covers tg ng c.ops g q ∧ (c.flushes = true → q = .rq → .flush .rq g ∈ c.ops)

structure Inv (s : State τ) : Prop where
  registered : ∀ t g, s.taskGroup t = some g → g.index < s.ngroup g.tag
  distinct : ∀ t t' g, s.taskGroup t = some g → s.taskGroup t' = some g → t = t'
  worker : ∀ t g g', s.taskGroup t = some g → s.nosignalGroup t = some g' → g' = g
  ops : ∀ t, OpsOk (s.taskGroup t) (s.nosignalGroup t) (s.pc t).ops
  flush : ∀ t, (s.pc t).flushes = true →
    (s.taskGroup t = none → s.nosignalGroup t = none) ∧ ∀ op ∈ (s.pc t).ops, op.flushes = true
  num : ∀ q g, (s.num q g).num.toNat = (s.num q g).entries.length ∧ (s.num q g).num.toNat < 2 ^ 31
  held : ∀ q g, ∀ e ∈ (s.num q g).entries,
    e.group = g ∧ Held (s.taskGroup e.thread) (s.nosignalGroup e.thread) (s.pc e.thread) g q
  made : ∀ e ∈ s.made, (∃ q, e ∈ (s.num q e.group).entries) ∨ e ∈ s.signaled e.group.tag ∨
    ∃ t num es ops, (s.pc t).ops = .signalTask num e.group.tag es :: ops ∧ 0 < num.toInt ∧ e ∈ es

section Steps

variable {s s' : State τ} {t t' : τ} {b : Bool} {q q' : Queue} {g g' : TaskGroup}
    {tg ng : Option TaskGroup}
variable {op : Op τ} {ops ops' : List (Op τ)} {e : Entry τ} {waiters : List Waiter} {tid : ℕ}

omit [DecidableEq τ] in
@[simp] theorem after_ops (b : Bool) (ops : List (Op τ)) : (Pc.after b ops).ops = ops := by
  cases ops with
  | nil => cases b <;> rfl
  | cons op ops => rfl

omit [DecidableEq τ] in
@[simp] theorem after_flushes (b : Bool) (ops : List (Op τ)) : (Pc.after b ops).flushes = b := by
  cases ops with
  | nil => cases b <;> rfl
  | cons op ops => cases b <;> rfl

/-! ### What is left of a call -/

section

omit [DecidableEq τ]

theorem Covers.mono (h : Covers tg ng ops g q) (hsub : ∀ op ∈ ops, op.flushes = true → op ∈ ops') :
    Covers tg ng ops' g q := by
  cases q with
  | rq => exact h
  | remoteRq =>
    obtain ⟨htg, hng | htest | hflush⟩ := h
    · exact ⟨htg, .inl hng⟩
    · exact ⟨htg, .inr (.inl (hsub _ htest rfl))⟩
    · exact ⟨htg, .inr (.inr (hsub _ hflush rfl))⟩

theorem Held.mono (h : Held tg ng (.run b ops) g q) (hsub : ∀ op ∈ ops, op.flushes = true → op ∈ ops') :
    Held tg ng (.after b ops') g q := by
  refine ⟨?_, fun hb hq => ?_⟩
  · rw [after_ops]
    exact h.1.mono hsub
  · rw [after_flushes] at hb
    subst hb
    rw [after_ops]
    exact hsub _ (h.2 rfl hq) rfl

/-- Behind a step that is no flush of it, what a counter includes is still flushed. -/
theorem Held.behind (h : Held tg ng (.run b (op :: ops)) g q) (hflush : op ≠ .flush q g)
    (htest : q = .remoteRq → op ≠ .testRemote g) (hsub : ∀ op ∈ ops, op ∈ ops') :
    Held tg ng (.after b ops') g q := by
  have hout : ∀ {op' : Op τ}, op ≠ op' → op' ∈ op :: ops → op' ∈ ops' := by
    intro op' hne hmem
    exact hsub _ ((mem_cons.1 hmem).resolve_left (Ne.symm hne))
  refine ⟨?_, fun hb hq => ?_⟩
  · rw [after_ops]
    cases q with
    | rq => exact h.1
    | remoteRq =>
      obtain ⟨htg, hng | hmem | hmem⟩ := h.1
      · exact ⟨htg, .inl hng⟩
      · exact ⟨htg, .inr (.inl (hout (htest rfl) hmem))⟩
      · exact ⟨htg, .inr (.inr (hout hflush hmem))⟩
  · rw [after_flushes] at hb
    subst hb hq
    rw [after_ops]
    exact hout hflush (h.2 rfl rfl)

end

/-! ### The step of a call -/

@[simp] theorem goOn_self (s : State τ) (t : τ) (b : Bool) (ops : List (Op τ)) :
    (s.goOn t b ops).pc t = .after b ops := update_self ..

theorem goOn_ne (s : State τ) (b : Bool) (ops : List (Op τ)) (h : t' ≠ t) :
    (s.goOn t b ops).pc t' = s.pc t' := update_of_ne h ..

/-- A thread goes on from `op` with `ops'`: what it leaves in the counters is still flushed, and
what it took from them it signals. -/
theorem Inv.goOn (h : Inv s) (hpc : s.pc t = .run b (op :: ops))
    (hngroup : s'.ngroup = s.ngroup) (htask : s'.taskGroup = s.taskGroup)
    (hnosignal : s'.nosignalGroup = s.nosignalGroup) (hpcs : s'.pc = s.pc)
    (hops : OpsOk (s.taskGroup t) (s.nosignalGroup t) ops')
    (hflush : b = true → ∀ op ∈ ops', op.flushes = true)
    (hnum : ∀ q g, (s'.num q g).num.toNat = (s'.num q g).entries.length ∧ (s'.num q g).num.toNat < 2 ^ 31)
    (hkeep : ∀ q g, (s'.num q g).entries ≠ [] →
      Held (s.taskGroup t) (s.nosignalGroup t) (.run b (op :: ops)) g q →
      Held (s.taskGroup t) (s.nosignalGroup t) (.after b ops') g q)
    (hentries : ∀ q g, ∀ e ∈ (s'.num q g).entries, e ∈ (s.num q g).entries ∨
      e.group = g ∧ e.thread = t ∧ Held (s.taskGroup t) (s.nosignalGroup t) (.after b ops') g q)
    (hmade : ∀ e ∈ s'.made, (∃ q, e ∈ (s'.num q e.group).entries) ∨ e ∈ s'.signaled e.group.tag ∨
      (∃ num es ops, ops' = .signalTask num e.group.tag es :: ops ∧ 0 < num.toInt ∧ e ∈ es) ∨
      ∃ t', t' ≠ t ∧ ∃ num es ops, (s.pc t').ops = .signalTask num e.group.tag es :: ops ∧
        0 < num.toInt ∧ e ∈ es) :
    Inv (s'.goOn t b ops') := by
  have hother : ∀ {t'}, t' ≠ t → (s'.goOn t b ops').pc t' = s.pc t' := fun hne => by
    rw [goOn_ne _ _ _ hne, hpcs]
  constructor
  · show ∀ t g, s'.taskGroup t = some g → g.index < s'.ngroup g.tag
    rw [htask, hngroup]
    exact h.registered
  · show ∀ t t' g, s'.taskGroup t = some g → s'.taskGroup t' = some g → t = t'
    rw [htask]
    exact h.distinct
  · show ∀ t g g', s'.taskGroup t = some g → s'.nosignalGroup t = some g' → g' = g
    rw [htask, hnosignal]
    exact h.worker
  · intro u
    show OpsOk (s'.taskGroup u) (s'.nosignalGroup u) _
    rw [htask, hnosignal]
    by_cases hu : u = t
    · rw [hu, goOn_self, after_ops]
      exact hops
    · rw [hother hu]
      exact h.ops u
  · intro u
    show _ → (s'.taskGroup u = none → s'.nosignalGroup u = none) ∧ _
    rw [htask, hnosignal]
    by_cases hu : u = t
    · rw [hu, goOn_self, after_ops, after_flushes]
      intro hb
      refine ⟨(h.flush t ?_).1, hflush hb⟩
      rw [hpc, hb]
      rfl
    · rw [hother hu]
      exact h.flush u
  · exact hnum
  · intro q g e he
    show _ ∧ Held (s'.taskGroup e.thread) (s'.nosignalGroup e.thread) _ g q
    rw [htask, hnosignal]
    rcases hentries q g e he with hold | ⟨hg, ht, hheld⟩
    · obtain ⟨hg, hheld⟩ := h.held q g e hold
      refine ⟨hg, ?_⟩
      by_cases hu : e.thread = t
      · rw [hu, hpc] at hheld
        rw [hu, goOn_self]
        exact hkeep q g (ne_nil_of_mem he) hheld
      · rw [hother hu]
        exact hheld
    · rw [ht, goOn_self]
      exact ⟨hg, hheld⟩
  · intro e he
    rcases hmade e he with hin | hsig | ⟨num, es, rest, hops', hpos, hmem⟩ | ⟨t', hne, hsig⟩
    · exact .inl hin
    · exact .inr (.inl hsig)
    · refine .inr (.inr ⟨t, num, es, rest, ?_, hpos, hmem⟩)
      rw [goOn_self, after_ops]
      exact hops'
    · refine .inr (.inr ⟨t', ?_⟩)
      rw [hother hne]
      exact hsig

/-- An entry that was made is in a counter, signaled, or another thread's to signal. -/
def State.Kept (s : State τ) (t : τ) (e : Entry τ) : Prop :=
  (∃ q, e ∈ (s.num q e.group).entries) ∨ e ∈ s.signaled e.group.tag ∨
    ∃ t', t' ≠ t ∧ ∃ num es ops, (s.pc t').ops = .signalTask num e.group.tag es :: ops ∧
      0 < num.toInt ∧ e ∈ es

section

omit [DecidableEq τ]

theorem Inv.kept (h : Inv s) (hpc : s.pc t = .run b (op :: ops))
    (hop : ∀ num tag es, op ≠ .signalTask num tag es)
    (he : e ∈ s.made) : s.Kept t e := by
  rcases h.made e he with hin | hsig | ⟨t', num, es, rest, hops, hsig⟩
  · exact .inl hin
  · exact .inr (.inl hsig)
  · refine .inr (.inr ⟨t', ?_, num, es, rest, hops, hsig⟩)
    rintro rfl
    rw [hpc] at hops
    injection hops with hhead _
    exact hop _ _ _ hhead

theorem setNum_self (s : State τ) (q : Queue) (g : TaskGroup) (c : Counter τ) :
    (s.setNum q g c).num q g = c :=
  if_pos ⟨rfl, rfl⟩

theorem setNum_ne (s : State τ) (c : Counter τ) (h : ¬ (q' = q ∧ g' = g)) :
    (s.setNum q g c).num q' g' = s.num q' g' := if_neg h

end

theorem Inv.reset (h : Inv s) (hpc : s.pc t = .run b (op :: ops)) {num : BitVec 32}
    (hop : ∀ num tag es, op ≠ .signalTask num tag es) (hnum : 0 < num.toInt)
    (hops : OpsOk (s.taskGroup t) (s.nosignalGroup t) ops')
    (hflush : b = true → ∀ op ∈ ops', op.flushes = true)
    (hkeep : ∀ q' g', ¬ (q' = q ∧ g' = g) →
      Held (s.taskGroup t) (s.nosignalGroup t) (.run b (op :: ops)) g' q' →
      Held (s.taskGroup t) (s.nosignalGroup t)
      (.after b (.signalTask num g.tag (s.num q g).entries :: ops')) g' q') :
    Inv ((s.setNum q g ⟨0, []⟩).goOn t b (.signalTask num g.tag (s.num q g).entries :: ops')) := by
  refine h.goOn hpc rfl rfl rfl rfl ⟨hnum, hops⟩ ?_ ?_ ?_ ?_ ?_
  · rintro hb op' (_ | ⟨_, hop'⟩)
    · rfl
    · exact hflush hb op' hop'
  · intro q' g'
    by_cases heq : q' = q ∧ g' = g
    · rw [heq.1, heq.2, setNum_self]
      exact ⟨rfl, Nat.two_pow_pos 31⟩
    · rw [setNum_ne _ _ heq]
      exact h.num q' g'
  · intro q' g' hne
    by_cases heq : q' = q ∧ g' = g
    · rw [heq.1, heq.2, setNum_self] at hne
      exact absurd rfl hne
    · exact hkeep q' g' heq
  · intro q' g' e he
    by_cases heq : q' = q ∧ g' = g
    · rw [heq.1, heq.2, setNum_self] at he
      cases he
    · rw [setNum_ne _ _ heq] at he
      exact .inl he
  · intro e he
    rcases h.kept hpc hop he with ⟨q', hin⟩ | hsig | hsig
    · by_cases heq : q' = q ∧ e.group = g
      · obtain ⟨rfl, rfl⟩ := heq
        exact .inr (.inr (.inl ⟨_, _, _, rfl, hnum, hin⟩))
      · refine .inl ⟨q', ?_⟩
        rw [setNum_ne _ _ heq]
        exact hin
    · exact .inr (.inl hsig)
    · exact .inr (.inr (.inr hsig))

theorem Inv.quiet (h : Inv s) (hpc : s.pc t = .run b (op :: ops))
    (hop : ∀ num tag es, op ≠ .signalTask num tag es)
    (hops : OpsOk (s.taskGroup t) (s.nosignalGroup t) ops')
    (hflush : b = true → ∀ op ∈ ops', op.flushes = true)
    (hkeep : ∀ q' g', (s.num q' g').entries ≠ [] →
      Held (s.taskGroup t) (s.nosignalGroup t) (.run b (op :: ops)) g' q' →
      Held (s.taskGroup t) (s.nosignalGroup t) (.after b ops') g' q') :
    Inv (s.goOn t b ops') := by
  refine h.goOn hpc rfl rfl rfl rfl hops hflush h.num hkeep (fun q g e he => .inl he) ?_
  intro e he
  rcases h.kept hpc hop he with hin | hsig | hsig
  · exact .inl hin
  · exact .inr (.inl hsig)
  · exact .inr (.inr (.inr hsig))

theorem Inv.push (h : Inv s) {e : Entry τ} (hpc : s.pc t = .run false (op :: ops))
    (hop : op = .readyToRun q g tid true) (he : e = ⟨s.made.length, t, g, tid⟩)
    (hlt : (s.num q g).num.toNat + 1 < 2 ^ 31)
    (hcovers : Covers (s.taskGroup t) (s.nosignalGroup t) ops g q)
    (hops : OpsOk (s.taskGroup t) (s.nosignalGroup t) ops) :
    Inv ({ s.setNum q g ⟨(s.num q g).num + 1, e :: (s.num q g).entries⟩ with made :=
  s.made ++ [e] }.goOn t false
      ops) := by
  refine h.goOn hpc rfl rfl rfl rfl hops nofun ?_ ?_ ?_ ?_
  · intro q' g'
    by_cases heq : q' = q ∧ g' = g
    · obtain ⟨rfl, rfl⟩ := heq
      have hadd : ((s.num q' g').num + 1).toNat = (s.num q' g').num.toNat + 1 :=
        BitVec.toNat_add_of_lt (hlt.trans (by decide))
      rw [setNum_self, length_cons, hadd, ← (h.num q' g').1]
      exact ⟨rfl, hlt⟩
    · rw [setNum_ne _ _ heq]
      exact h.num q' g'
  · intro q' g' _ hheld
    rw [hop] at hheld
    exact hheld.behind nofun nofun fun _ => id
  · intro q' g' e' (he' : e' ∈ ((s.setNum q g _).num q' g').entries)
    by_cases heq : q' = q ∧ g' = g
    · obtain ⟨rfl, rfl⟩ := heq
      rw [setNum_self] at he'
      rcases mem_cons.1 he' with rfl | he'
      · rw [he]
        refine .inr ⟨rfl, rfl, ?_, fun hb => ?_⟩
        · rw [after_ops]
          exact hcovers
        · rw [after_flushes] at hb
          cases hb
      · exact .inl he'
    · rw [setNum_ne _ _ heq] at he'
      exact .inl he'
  · intro e' he'
    have hgrow : ∀ {q' : Queue} {g' : TaskGroup}, e' ∈ (s.num q' g').entries →
        e' ∈ ((s.setNum q g ⟨(s.num q g).num + 1, e :: (s.num q g).entries⟩).num q' g').entries := by
      intro q' g' hin
      by_cases heq : q' = q ∧ g' = g
      · obtain ⟨rfl, rfl⟩ := heq
        rw [setNum_self]
        exact mem_cons_of_mem _ hin
      · rw [setNum_ne _ _ heq]
        exact hin
    rcases mem_append.1 he' with hold | hnew
    · rcases h.kept hpc (by rw [hop]; nofun) hold with ⟨q', hin⟩ | hsig | hsig
      · exact .inl ⟨q', hgrow hin⟩
      · exact .inr (.inl hsig)
      · exact .inr (.inr (.inr hsig))
    · rw [mem_singleton.1 hnew, he]
      refine .inl ⟨q, ?_⟩
      rw [setNum_self, ← he]
      exact mem_cons_self

omit [DecidableEq τ] in
theorem Inv.entries_eq_nil (h : Inv s) (hval : (s.num q g).num = 0) : (s.num q g).entries = [] := by
  have hlen := (h.num q g).1
  rw [hval] at hlen
  exact length_eq_zero_iff.1 hlen.symm

theorem toInt_pos_of_toNat {n : BitVec 32} (hpos : 0 < n.toNat) (hlt : n.toNat < 2 ^ 31) :
    0 < n.toInt := by
  rw [BitVec.toInt_eq_toNat_of_lt (by lia)]
  exact_mod_cast hpos

section

variable (h : Inv s) (hpc : s.pc t = .run b (op :: ops))
include h hpc

theorem Inv.flush_ (hop : ∀ num tag es, op ≠ .signalTask num tag es)
    (hops : OpsOk (s.taskGroup t) (s.nosignalGroup t) ops')
    (hflush : b = true → ∀ op ∈ ops', op.flushes = true)
    (hkeep : ∀ q' g' ops1, ¬ (q' = q ∧ g' = g) → (∀ op ∈ ops', op ∈ ops1) →
      Held (s.taskGroup t) (s.nosignalGroup t) (.run b (op :: ops)) g' q' →
      Held (s.taskGroup t) (s.nosignalGroup t) (.after b ops1) g' q') :
    Inv (s.flush t b q g ops') := by
  simp only [State.flush]
  split
  case isTrue hval =>
    refine h.quiet hpc hop hops hflush fun q' g' hne => hkeep q' g' _ ?_ fun _ => id
    rintro ⟨rfl, rfl⟩
    exact hne (h.entries_eq_nil hval)
  case isFalse hval =>
    have hpos : 0 < (s.num q g).num.toNat := by
      rw [Nat.pos_iff_ne_zero]
      exact fun hzero => hval (BitVec.eq_of_toNat_eq hzero)
    refine h.reset hpc hop (toInt_pos_of_toNat hpos (h.num q g).2) hops hflush fun q' g' hne => ?_
    exact hkeep q' g' _ hne fun _ => mem_cons_of_mem _

omit [DecidableEq τ] in
theorem Inv.ops_head :
    OpOk (s.taskGroup t) (s.nosignalGroup t) ops op ∧ OpsOk (s.taskGroup t) (s.nosignalGroup t) ops := by
  have hops := h.ops t
  rw [hpc] at hops
  exact hops

omit [DecidableEq τ] in
theorem Inv.flush_head (hb : b = true) :
    op.flushes = true ∧ ∀ op ∈ ops, op.flushes = true := by
  have hall := (h.flush t (by rw [hpc, hb]; rfl)).2
  rw [hpc] at hall
  exact ⟨hall op mem_cons_self, fun op' hop' => hall op' (mem_cons_of_mem _ hop')⟩

theorem opStep_inv (full : Bool)
    (hfits : ∀ q g tid n, op = .readyToRun q g tid n → (s.num q g).num.toNat + 1 < 2 ^ 31) :
    Inv (opStep s t b full ops op) := by
  obtain ⟨hhead, hrest⟩ := h.ops_head hpc
  have hall := h.flush_head hpc
  cases op with
  | readyToRun q g tid nosignal =>
    have hb : b = false := Bool.eq_false_iff.2 fun hb => nomatch (hall hb).1
    subst hb
    have hlt := hfits q g tid nosignal rfl
    simp only [opStep]
    split
    case isTrue =>
      refine h.flush_ hpc nofun ⟨hhead, hrest⟩ nofun fun q' g' ops1 _ hsub hheld => ?_
      exact hheld.mono fun op hop _ => hsub op hop
    case isFalse =>
      split
      case isTrue hno =>
        subst hno
        exact h.push hpc rfl rfl hlt (hhead.2 rfl) hrest
      case isFalse hno =>
        have hnat : (1 + (s.num q g).num).toNat = 1 + (s.num q g).num.toNat :=
          BitVec.toNat_add_of_lt ((add_comm ..).trans_lt (hlt.trans (by decide)))
        have hpos : 0 < (1 + (s.num q g).num).toInt := toInt_pos_of_toNat (by lia) (by lia)
        refine h.reset hpc nofun hpos hrest nofun fun q' g' _ hheld => ?_
        exact hheld.behind nofun nofun fun _ => mem_cons_of_mem _
  | pushRq g tid =>
    have hb : b = false := Bool.eq_false_iff.2 fun hb => nomatch (hall hb).1
    subst hb
    simp only [opStep]
    split
    case isTrue =>
      refine h.flush_ hpc nofun ⟨hhead, hrest⟩ nofun fun q' g' ops1 _ hsub hheld => ?_
      exact hheld.mono fun op hop _ => hsub op hop
    case isFalse => exact h.quiet hpc nofun hrest nofun fun q' g' _ hheld => hheld.behind nofun nofun fun _ => id
  | testRemote g =>
    simp only [opStep]
    split
    case isTrue hval =>
      refine h.quiet hpc nofun hrest (fun hb => (hall hb).2) fun q' g' hne hheld => ?_
      have hother : ¬ (q' = .remoteRq ∧ g' = g) := by
        rintro ⟨rfl, rfl⟩
        exact hne (h.entries_eq_nil hval)
      refine hheld.behind nofun ?_ fun _ => id
      rintro rfl ⟨⟩
      exact hother ⟨rfl, rfl⟩
    case isFalse hval =>
      refine h.quiet hpc nofun ⟨nofun, hrest⟩ ?_ fun q' g' _ hheld => ?_
      · rintro hb op' (_ | ⟨_, hop'⟩)
        · rfl
        · exact (hall hb).2 op' hop'
      · by_cases heq : q' = .remoteRq ∧ g' = g
        · obtain ⟨rfl, rfl⟩ := heq
          refine ⟨?_, fun _ => nofun⟩
          rw [after_ops]
          exact ⟨hheld.1.1, .inr (.inr mem_cons_self)⟩
        · refine hheld.behind nofun ?_ fun _ => mem_cons_of_mem _
          rintro rfl ⟨⟩
          exact heq ⟨rfl, rfl⟩
  | flush q g =>
    refine h.flush_ hpc nofun hrest (fun hb => (hall hb).2) fun q' g' ops1 hne hsub hheld => ?_
    refine hheld.behind ?_ nofun hsub
    rintro ⟨⟩
    exact hne ⟨rfl, rfl⟩
  | signalTask num tag es =>
    have hpos : ¬ num.toInt ≤ 0 := not_le.2 hhead
    simp only [opStep, if_neg hpos]
    refine h.goOn hpc rfl rfl rfl rfl hrest (fun hb => (hall hb).2) h.num ?_ (fun q g e he => .inl he) ?_
    · exact fun q' g' _ hheld => hheld.behind nofun nofun fun _ => id
    · intro e he
      have hsig : ∀ tag', e ∈ s.signaled tag' →
          e ∈ update s.signaled tag (s.signaled tag ++ es) tag' := by
        intro tag' hin
        by_cases htag : tag' = tag
        · rw [htag, update_self]
          exact mem_append_left _ (htag ▸ hin)
        · rw [update_of_ne htag]
          exact hin
      rcases h.made e he with hin | hin | ⟨t', num', es', rest, hops', hpos', hmem⟩
      · exact .inl hin
      · exact .inr (.inl (hsig _ hin))
      · by_cases ht : t' = t
        · rw [ht, hpc] at hops'
          injection hops' with hhead' _
          injection hhead' with _ htag hes
          refine .inr (.inl ?_)
          show e ∈ update s.signaled tag (s.signaled tag ++ es) e.group.tag
          rw [← htag, update_self, hes]
          exact mem_append_right _ hmem
        · exact .inr (.inr (.inr ⟨t', ht, num', es', rest, hops', hpos', hmem⟩))

end

/-! ### The beginning of a call -/

/-- A thread opens a call: it remembers `ng` from now on, and what it remembered before it still
does, or tests it in the call. -/
structure Opens (s : State τ) (t : τ) (b : Bool) (ng : Option TaskGroup) (s' : State τ)
    (ops : List (Op τ)) :
    Prop where
  state : s' = { s with nosignalGroup := update s.nosignalGroup t ng }
  worker : ∀ g g', s.taskGroup t = some g → ng = some g' → g' = g
  opsOk : OpsOk (s.taskGroup t) ng ops
  flush : b = true → (s.taskGroup t = none → ng = none) ∧ (∀ op ∈ ops, op.flushes = true) ∧
    ∀ g, s.taskGroup t = some g → .flush .rq g ∈ ops
  keep : ∀ g, s.taskGroup t = none → s.nosignalGroup t = some g → ng = some g ∨ .testRemote g ∈ ops

theorem Opens.inv (ho : Opens s t b ng s' ops) (h : Inv s) (hidle : (s.pc t).ops = []) :
    Inv (s'.goOn t b ops) := by
  have hstate := ho.state
  subst hstate
  have hng : ∀ {u}, u ≠ t → update s.nosignalGroup t ng u = s.nosignalGroup u := fun hu =>
    update_of_ne hu ..
  have hpc : ∀ {u}, u ≠ t →
      ({ s with nosignalGroup := update s.nosignalGroup t ng }.goOn t b ops).pc u = s.pc u := fun hu =>
    update_of_ne hu ..
  constructor
  · exact h.registered
  · exact h.distinct
  · intro u g g' hg (hg' : update s.nosignalGroup t ng u = some g')
    obtain rfl | hu := eq_or_ne u t
    · rw [update_self] at hg'
      exact ho.worker g g' hg hg'
    · rw [hng hu] at hg'
      exact h.worker u g g' hg hg'
  · intro u
    show OpsOk (s.taskGroup u) (update s.nosignalGroup t ng u) _
    by_cases hu : u = t
    · rw [hu, update_self, goOn_self, after_ops]
      exact ho.opsOk
    · rw [hng hu, hpc hu]
      exact h.ops u
  · intro u
    show _ → (s.taskGroup u = none → update s.nosignalGroup t ng u = none) ∧ _
    by_cases hu : u = t
    · rw [hu, update_self, goOn_self, after_ops, after_flushes]
      exact fun hb => ⟨(ho.flush hb).1, (ho.flush hb).2.1⟩
    · rw [hng hu, hpc hu]
      exact h.flush u
  · exact h.num
  · intro q g e he
    obtain ⟨hg, hcovers, hflush⟩ := h.held q g e he
    refine ⟨hg, ?_⟩
    show Held (s.taskGroup e.thread) (update s.nosignalGroup t ng e.thread) _ g q
    by_cases hu : e.thread = t
    · rw [hu, update_self, goOn_self]
      rw [hu, hidle] at hcovers
      refine ⟨?_, fun hb hq => ?_⟩
      · rw [after_ops]
        cases q with
        | rq => exact hcovers
        | remoteRq =>
          obtain ⟨htg, hold | hmem | hmem⟩ := hcovers
          · exact ⟨htg, (ho.keep g htg hold).imp id .inl⟩
          · cases hmem
          · cases hmem
      · rw [after_flushes] at hb
        rw [after_ops]
        subst hq
        exact (ho.flush hb).2.2 g hcovers
    · rw [hng hu, hpc hu]
      exact ⟨hcovers, hflush⟩
  · intro e he
    rcases h.made e he with hin | hsig | ⟨u, num, es, rest, hops, hsig⟩
    · exact .inl hin
    · exact .inr (.inl hsig)
    · refine .inr (.inr ⟨u, num, es, rest, ?_, hsig⟩)
      rw [hpc]
      · exact hops
      · rintro rfl
        rw [hidle] at hops
        cases hops

theorem Opens.same (h : Inv s) (hops : OpsOk (s.taskGroup t) (s.nosignalGroup t) ops) :
    Opens s t false (s.nosignalGroup t) s ops where
  state := by rw [update_eq_self]
  worker := h.worker t
  opsOk := hops
  flush := nofun
  keep _ _ hold := .inl hold

theorem Opens.remember (hng : s.nosignalGroup t = none) (hworker : ∀ g', s.taskGroup t = some g' → g = g')
    (hops : OpsOk (s.taskGroup t) (some g) ops) :
    Opens s t false (some g) { s with nosignalGroup := update s.nosignalGroup t (some g) } ops where
  state := rfl
  worker := by
    rintro g' _ htg ⟨⟩
    exact hworker g' htg
  opsOk := hops
  flush := nofun
  keep := by
    rintro _ _ hold
    rw [hng] at hold
    cases hold

omit [DecidableEq τ] in
theorem startBackground_ok {attr : Option Attr} {e : Env} (hq : q = .rq → tg = some g)
    (hc : nosignal attr = true → Covers tg ng ([] : List (Op τ)) g q) :
    OpsOk tg ng (startBackground q g attr e : List (Op τ)) := by
  unfold startBackground
  split
  · exact ⟨⟨hq, hc⟩, trivial⟩
  · exact trivial

theorem startFromNonWorker_opens (h : Inv s) {attr : Option Attr} {e : Env}
    (hworker : nosignal attr = true → s.taskGroup t = none)
    (hr : s.startFromNonWorker t attr e = some (s', ops)) : ∃ ng, Opens s t false ng s' ops := by
  simp only [State.startFromNonWorker] at hr
  split at hr
  case isTrue =>
    split at hr
    case isTrue hno =>
      have htg := hworker hno
      split at hr
      case h_1 g hg =>
        cases hr
        refine ⟨_, .same h (startBackground_ok nofun fun _ => ⟨htg, .inl hg⟩)⟩
      case h_2 hg =>
        obtain ⟨g, _, hr⟩ := Option.map_eq_some_iff.1 hr
        cases hr
        refine ⟨_, .remember hg ?_ (startBackground_ok nofun fun _ => ⟨htg, .inl rfl⟩)⟩
        rw [htg]
        nofun
    case isFalse hno =>
      obtain ⟨g, _, hr⟩ := Option.map_eq_some_iff.1 hr
      cases hr
      exact ⟨_, .same h (startBackground_ok nofun fun hno' => absurd hno' hno)⟩
  case isFalse =>
    cases hr
    exact ⟨_, .same h trivial⟩

theorem fiberStart_opens (h : Inv s) {lazy : Bool} {attr : Option Attr} {e : Env}
    (hsafe : Flushable s (.call t (.fiberStart lazy attr) e))
    (hr : s.fiberStart t lazy attr e = some (s', ops)) : ∃ ng, Opens s t false ng s' ops := by
  simp only [State.fiberStart, Flushable] at hr hsafe
  cases htg : s.taskGroup t with
  | none =>
    rw [htg] at hr
    exact startFromNonWorker_opens h (fun _ => htg) hr
  | some g =>
    simp only [htg] at hr hsafe
    split at hr
    case isTrue =>
      cases hr
      refine ⟨_, .same h ?_⟩
      rw [htg]
      split
      · exact startBackground_ok (fun _ => rfl) fun _ => rfl
      · unfold startForeground
        split
        · split
          · exact ⟨⟨fun _ => rfl, fun _ => rfl⟩, trivial⟩
          · split
            · exact ⟨rfl, trivial⟩
            · exact ⟨⟨fun _ => rfl, fun _ => rfl⟩, trivial⟩
        · exact trivial
    case isFalse hnot => exact startFromNonWorker_opens h (fun hno => absurd (hsafe hno) hnot) hr

theorem fiberFlush_opens (h : Inv s) : ∃ ng, Opens s t true ng (s.fiberFlush t).1 (s.fiberFlush t).2 := by
  unfold State.fiberFlush
  cases htg : s.taskGroup t with
  | some g =>
    refine ⟨s.nosignalGroup t, ?_⟩
    constructor
    · rw [update_eq_self]
    · exact h.worker t
    · exact ⟨fun _ => htg, trivial⟩
    · intro _
      rw [htg]
      refine ⟨nofun, ?_, ?_⟩
      · rintro op (_ | ⟨_, ⟨⟩⟩)
        rfl
      · rintro _ ⟨⟩
        exact mem_cons_self
    · rw [htg]
      nofun
  | none =>
    cases hng : s.nosignalGroup t with
    | some g =>
      refine ⟨none, rfl, nofun, ⟨trivial, trivial⟩, fun _ => ⟨fun _ => rfl, ?_, ?_⟩, ?_⟩
      · rintro op (_ | ⟨_, ⟨⟩⟩)
        rfl
      · rw [htg]
        nofun
      · rintro g' - hg'
        rw [hng] at hg'
        cases hg'
        exact .inr mem_cons_self
    | none =>
      refine ⟨s.nosignalGroup t, ?_, h.worker t, trivial, fun _ => ⟨fun _ => hng, nofun, ?_⟩, ?_⟩
      · rw [update_eq_self]
      · rw [htg]
        nofun
      · rw [hng]
        nofun

/-- `get_task_group`: a worker gets its own group, and another thread remembers the group where the
wake is without a signal. -/
theorem getTaskGroup_spec (h : Inv s) {nosignal : Bool} {e : Env}
    (hr : s.getTaskGroup t nosignal e = some (s', g)) :
    (∀ g', s.taskGroup t = some g' → g = g') ∧
      ∀ ops, (∀ ng, (nosignal = true → ng = some g) → OpsOk (s.taskGroup t) ng ops) →
        ∃ ng, Opens s t false ng s' ops := by
  have hown : ∀ g', s.taskGroup t = some g' → (match s.taskGroup t with
      | some g => some g
      | none => s.chooseOneGroup fiberTagDefault e) = some g → g = g' := by
    intro g' htg hget
    rw [htg] at hget
    exact (Option.some.inj hget).symm
  simp only [State.getTaskGroup] at hr
  split at hr
  case isTrue =>
    split at hr
    case h_1 hng =>
      obtain ⟨g0, hget, hr⟩ := Option.map_eq_some_iff.1 hr
      cases hr
      have hworker := fun g' htg => hown g' htg hget
      exact ⟨hworker, fun ops hops => ⟨_, .remember hng hworker (hops _ fun _ => rfl)⟩⟩
    case h_2 g0 hng =>
      cases hr
      exact ⟨fun g' htg => h.worker t g' g htg hng, fun ops hops => ⟨_, .same h (hops _ fun _ => hng)⟩⟩
  case isFalse hno =>
    obtain ⟨g0, hget, hr⟩ := Option.map_eq_some_iff.1 hr
    cases hr
    exact ⟨fun g' htg => hown g' htg hget, fun ops hops =>
      ⟨_, .same h (hops _ fun hno' => absurd hno' hno)⟩⟩

section

omit [DecidableEq τ]

theorem runIn_ok {nosignal : Bool} {e : Env} (hg : ∀ g', s.taskGroup t = some g' → g = g')
    (hng : nosignal = true → ng = some g) : OpsOk (s.taskGroup t) ng (s.runIn t g tid nosignal e) := by
  unfold State.runIn
  split
  case isTrue htg =>
    rw [htg]
    split
    · exact ⟨⟨fun _ => rfl, fun _ => rfl⟩, trivial⟩
    · unfold exchange
      split
      · exact ⟨⟨fun _ => rfl, nofun⟩, trivial⟩
      · split
        · exact ⟨rfl, trivial⟩
        · exact ⟨⟨fun _ => rfl, nofun⟩, trivial⟩
  case isFalse htg =>
    have hnone : s.taskGroup t = none := by
      cases hsome : s.taskGroup t with
      | none => rfl
      | some g' => exact absurd (hg g' hsome ▸ hsome) htg
    exact ⟨⟨nofun, fun hno => ⟨hnone, .inl (hng hno)⟩⟩, trivial⟩

/-- Fibers made ready one by one without a signal, in front of what will flush their counter. -/
theorem opsOk_map_append {tids : List ℕ} (hq : q = .rq → tg = some g) (hops : OpsOk tg ng ops)
    (hc : tids ≠ [] → ∀ ops', (∀ op ∈ ops, op ∈ ops') → Covers tg ng ops' g q) :
    OpsOk tg ng (tids.map (.readyToRun q g · true) ++ ops) := by
  induction tids with
  | nil => exact hops
  | cons tid tids ih =>
    refine ⟨⟨hq, fun _ => hc (cons_ne_nil _ _) _ fun op => mem_append_right _⟩, ih ?_⟩
    exact fun _ => hc (cons_ne_nil _ _)

theorem queueOf_rq (hq : s.queueOf t g = .rq) : s.taskGroup t = some g := by
  unfold State.queueOf at hq
  split at hq
  case isTrue htg => exact htg
  case isFalse => cases hq

/-- Behind `ready_to_run_general`, `flush_nosignal_tasks_general` covers the fiber. -/
theorem covers_flushGeneral (hg : ∀ g', s.taskGroup t = some g' → g = g')
    (hmem : s.flushGeneral t g ∈ ops) :
    Covers (s.taskGroup t) ng ops g (s.queueOf t g) := by
  unfold State.flushGeneral at hmem
  unfold State.queueOf
  split
  case isTrue htg => exact htg
  case isFalse htg =>
    rw [if_neg htg] at hmem
    refine ⟨?_, .inr (.inl hmem)⟩
    cases hsome : s.taskGroup t with
    | none => rfl
    | some g' => exact absurd (hg g' hsome ▸ hsome) htg

theorem flushGeneral_ok : OpOk (s.taskGroup t) ng ops (s.flushGeneral t g) := by
  unfold State.flushGeneral
  split
  case isTrue htg => exact fun _ => htg
  case isFalse => exact trivial

end

theorem butexWake_opens (h : Inv s) {nosignal : Bool} {e : Env}
    (hr : s.butexWake t waiters nosignal e = some (s', ops)) : ∃ ng, Opens s t false ng s' ops := by
  unfold State.butexWake at hr
  split at hr
  case h_1 tid _ =>
    obtain ⟨⟨s1, g⟩, hget, hr⟩ := Option.map_eq_some_iff.1 hr
    cases hr
    obtain ⟨hg, hopens⟩ := getTaskGroup_spec h hget
    exact hopens _ fun ng hng => runIn_ok hg hng
  case h_2 =>
    cases hr
    exact ⟨_, .same h trivial⟩

theorem butexWakeAll_opens (h : Inv s) {nosignal : Bool} {e : Env}
    (hr : s.butexWakeAll t waiters nosignal e = some (s', ops)) : ∃ ng, Opens s t false ng s' ops := by
  unfold State.butexWakeAll at hr
  split at hr
  case h_1 =>
    cases hr
    exact ⟨_, .same h trivial⟩
  case h_2 next rest _ =>
    obtain ⟨⟨s1, g⟩, hget, hr⟩ := Option.map_eq_some_iff.1 hr
    cases hr
    obtain ⟨hg, hopens⟩ := getTaskGroup_spec h hget
    refine hopens _ fun ng hng => ?_
    have hlast : OpsOk (s.taskGroup t) ng (s.runIn t g next nosignal e) := runIn_ok hg hng
    rw [append_assoc]
    refine opsOk_map_append queueOf_rq ?_ ?_
    · split
      · exact ⟨flushGeneral_ok, hlast⟩
      · exact hlast
    · intro hne ops' hsub
      have hrest : rest.isEmpty = false := by
        cases rest with
        | nil => exact absurd rfl hne
        | cons => rfl
      cases hno : nosignal with
      | false =>
        -- the others are flushed in front of the last fiber
        refine covers_flushGeneral hg (hsub _ ?_)
        rw [hno, hrest]
        exact mem_cons_self
      | true =>
        unfold State.queueOf
        split
        case isTrue htg => exact htg
        case isFalse htg =>
          refine ⟨?_, .inl (hng hno)⟩
          cases hsome : s.taskGroup t with
          | none => rfl
          | some g' => exact absurd (hg g' hsome ▸ hsome) htg

theorem butexWakeExcept_opens (h : Inv s) {e : Env}
    (hr : s.butexWakeExcept t waiters e = some (s', ops)) : ∃ ng, Opens s t false ng s' ops := by
  unfold State.butexWakeExcept at hr
  split at hr
  case h_1 =>
    cases hr
    exact ⟨_, .same h trivial⟩
  case h_2 fibers _ =>
    obtain ⟨⟨s1, g⟩, hget, hr⟩ := Option.map_eq_some_iff.1 hr
    cases hr
    obtain ⟨hg, hopens⟩ := getTaskGroup_spec h hget
    refine hopens _ fun ng _ => opsOk_map_append queueOf_rq ⟨flushGeneral_ok, trivial⟩ fun
      _ ops' hsub => ?_
    exact covers_flushGeneral hg (hsub _ mem_cons_self)

theorem call_opens (h : Inv s) {c : Call} {e : Env} (hsafe : Flushable s (.call t c e))
    (hr : s.call t e c = some (s', ops)) : ∃ ng, Opens s t c.isFlush ng s' ops := by
  cases c with
  | fiberStart lazy attr => exact fiberStart_opens h hsafe hr
  | fiberFlush =>
    have hopens := fiberFlush_opens (t := t) h
    rw [Option.some.inj hr] at hopens
    exact hopens
  | butexWake waiters nosignal => exact butexWake_opens h hr
  | butexWakeAll waiters nosignal => exact butexWakeAll_opens h hr
  | butexWakeExcept waiters => exact butexWakeExcept_opens h hr
  | ready g tid =>
    cases hr
    exact ⟨_, .same h ⟨⟨queueOf_rq, nofun⟩, trivial⟩⟩

/-! ### Runs -/

theorem addWorker_inv (h : Inv s) {tag : ℤ} (hidle : (s.pc t).ops = []) (htg : s.taskGroup t = none)
    (hng : s.nosignalGroup t = none) :
    Inv { s with
      ngroup := update s.ngroup tag (s.ngroup tag + 1)
      taskGroup := update s.taskGroup t (some ⟨tag, s.ngroup tag⟩) } := by
  have hnew : ∀ u, s.taskGroup u ≠ some ⟨tag, s.ngroup tag⟩ := fun u hu =>
    lt_irrefl _ (h.registered u _ hu)
  have hheld : ∀ q g, ∀ e ∈ (s.num q g).entries, e.thread ≠ t := by
    rintro q g e he rfl
    have hcovers := (h.held q g e he).2.1
    rw [hidle] at hcovers
    cases q with
    | rq => cases htg.symm.trans hcovers
    | remoteRq =>
      rcases hcovers.2 with hg | hmem | hmem
      · cases hng.symm.trans hg
      · cases hmem
      · cases hmem
  constructor
  · intro u g (hu : update s.taskGroup t _ u = some g)
    show g.index < update s.ngroup tag _ g.tag
    obtain rfl | hut := eq_or_ne u t
    · rw [update_self] at hu
      cases hu
      rw [update_self]
      exact Nat.lt_add_one _
    · rw [update_of_ne hut] at hu
      have hlt := h.registered u g hu
      by_cases htag : g.tag = tag
      · rw [htag, update_self]
        exact Nat.lt_add_right 1 (htag ▸ hlt)
      · rw [update_of_ne htag]
        exact hlt
  · intro u u' g (hu : update s.taskGroup t _ u = some g) (hu' : update s.taskGroup t _ u' = some g)
    obtain rfl | hut := eq_or_ne u t
    · rw [update_self] at hu
      cases hu
      by_contra hne
      rw [update_of_ne (.symm hne)] at hu'
      exact hnew u' hu'
    · rw [update_of_ne hut] at hu
      obtain rfl | hut' := eq_or_ne u' t
      · rw [update_self] at hu'
        cases hu'
        exact absurd hu (hnew u)
      · rw [update_of_ne hut'] at hu'
        exact h.distinct u u' g hu hu'
  · intro u g g' (hu : update s.taskGroup t _ u = some g) hg'
    obtain rfl | hut := eq_or_ne u t
    · cases hng.symm.trans hg'
    · rw [update_of_ne hut] at hu
      exact h.worker u g g' hu hg'
  · intro u
    show OpsOk (update s.taskGroup t _ u) (s.nosignalGroup u) (s.pc u).ops
    by_cases hut : u = t
    · rw [hut, hidle]
      trivial
    · rw [update_of_ne hut]
      exact h.ops u
  · intro u
    show _ → (update s.taskGroup t _ u = none → _) ∧ _
    by_cases hut : u = t
    · rw [hut]
      exact fun hfl => ⟨fun _ => hng, (h.flush t hfl).2⟩
    · rw [update_of_ne hut]
      exact h.flush u
  · exact h.num
  · intro q g e he
    show _ ∧ Held (update s.taskGroup t _ e.thread) (s.nosignalGroup e.thread) (s.pc e.thread) g q
    rw [update_of_ne (hheld q g e he)]
    exact h.held q g e he
  · exact h.made

theorem step_inv (s : State τ) (a : Act τ) (h : Inv s) (hsafe : Flushable s a) : Inv (step s a) := by
  cases a with
  | addWorker t tag =>
    simp only [step]
    split
    case isTrue hc => exact addWorker_inv h hc.1 hc.2 hsafe
    case isFalse => exact h
  | call t c e =>
    simp only [step]
    split
    case isTrue hidle =>
      cases hr : s.call t e c with
      | none => exact h
      | some r =>
        obtain ⟨ng, hopens⟩ := call_opens h hsafe hr
        exact hopens.inv h hidle
    case isFalse => exact h
  | go t full =>
    simp only [step]
    split
    case h_1 b op ops hpc =>
      refine opStep_inv h hpc full ?_
      rintro q g tid n rfl
      simp only [Flushable, hpc, Pc.ops] at hsafe
      exact hsafe
    case h_2 => exact h

omit [DecidableEq τ] in
theorem start_inv : Inv (start τ) where
  registered := nofun
  distinct := nofun
  worker := nofun
  ops _ := trivial
  flush := nofun
  num _ _ := ⟨rfl, Nat.two_pow_pos 31⟩
  held := nofun
  made := nofun

omit [DecidableEq τ] in
theorem Inv.published (h : Inv s) (hpc : s.pc t = .flushed) : Published s t := by
  have hout : ∀ q g, ∀ e ∈ (s.num q g).entries, e.thread ≠ t := by
    rintro q g e he rfl
    obtain ⟨-, hcovers, hflush⟩ := h.held q g e he
    rw [hpc] at hcovers hflush
    cases q with
    | rq => exact absurd (hflush rfl rfl) not_mem_nil
    | remoteRq =>
      obtain ⟨htg, hng | hmem | hmem⟩ := hcovers
      · cases ((h.flush e.thread (by rw [hpc]; rfl)).1 htg).symm.trans hng
      · cases hmem
      · cases hmem
  refine ⟨hout, ?_⟩
  intro e he ht
  exact (h.made e he).resolve_left fun hex => hex.elim fun q hin => hout q _ e hin ht

end Steps

/-- **A flush publishes everything**, in every run whose threads remember the group that they will
flush. -/
theorem run_published {as : List (Act τ)} (has : Along step Flushable (start τ) as) {t : τ}
    (hpc : (runFrom step (start τ) as).pc t = .flushed) : Published (runFrom step (start τ) as) t :=
  (has.run step_inv start_inv).published hpc

/-- What the calls of the runs below find: a `TaskControl`, the first group of a tag, a new
fiber. -/
def env : Env := ⟨0, true, true, 7, false, 5, false⟩

local instance neZero2 : NeZero 2 := ⟨by decide⟩

/-- A thread that is no worker starts a fiber for a tag and flushes. -/
def threadRun : List (Act (Fin 2)) :=
  [.addWorker 1 1, .call 0 (.fiberStart false (some ⟨1, true⟩)) env, .go 0 false, .call 0 .fiberFlush env,
    .go 0 false, .go 0 false, .go 0 false]

theorem run_published_thread : Published (runFrom step (start (Fin 2)) threadRun) 0 :=
  run_published (by decide) (by decide)

/-- A worker does so for another tag than its own: the flush leaves the fiber. -/
theorem worker_flush_leaves :
    let s := runFrom step (start (Fin 2)) (.addWorker 0 0 :: threadRun)
    s.pc 0 = .flushed ∧ ¬ Published s 0 := by
  refine ⟨by decide, fun h => ?_⟩
  exact h.flushed .remoteRq ⟨1, 0⟩ ⟨0, 0, ⟨1, 0⟩, 7⟩ (by decide) rfl

end Eabase.Fiber.Nosignal
