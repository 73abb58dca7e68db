import Mathlib.Data.List.Nodup
import Eabase.Lib.Machine

/-!
# The resident pthread of an execution queue

One queue in pthread mode. A producer that finds the queue idle has the head of a
new list. It hands the head over: to a pthread that it creates if
`_pthread_started` is not set, and through `_current_head` if it is. The pthread
executes list after list. Every access to a word that is shared is one step, and
so is a critical section's lock.

A call of `start_execute` is a party of its own, and its number is that of its
node. Of the tasks only the last one known to whoever executes a list is kept,
which is what `_more_tasks` compares `_head` with. The stop task is pushed when
no reference to the queue is left, so after all calls and by the last one.

`_pthread_started` is set after the pthread has been created. By then it may have
executed its list, and the next producer creates another one. It is set, too,
when no pthread could be created. The rest is sound: that is what holds in runs
where a producer reads the flag only when it says whether there is a pthread.
-/

namespace Eabase.Fiber.ExecutionQueuePthread

open Lib Function

/-! ## The machine -/

/-- Where a call of `start_execute` stands. `inPlace` is in front of the `_more_tasks` after a task
that was executed in place; `lock` to `unlock` hand the head over; `exec` and `destroy` are in
`_execute_tasks`, when no pthread could be created; `mark` is in front of `_pthread_started =
true`. -/
inductive Call where
  | absent
  | inPlace
  | test
  | lock
  | set
  | signal
  | unlock
  | create
  | exec (tail : ℕ)
  | destroy
  | mark
  | done
  deriving DecidableEq

/-- Where a pthread stands in `_execute_tasks_pthread`. `woken` is in front of the lock at the end
of `Wait`; `check` to `leave` have the mutex. -/
inductive Thread where
  | absent
  | start (head : ℕ)
  | lock
  | check
  | waiting
  | woken
  | run
  | exec (tail : ℕ)
  | destroy
  | reset
  | leave
  | exited
  deriving DecidableEq

inductive Party where
  | call (n : ℕ)
  | thread (t : ℕ)
  deriving DecidableEq

/-- The fields of the queue, `joined` for a `_join_butex` that has been advanced, and its parties.
What is counted: the calls, the pthreads that were created, the heads that producers handed over,
and those that were executed. `stopped` says that the stop task has been pushed. -/
structure State where
  head : Option ℕ
  currentHead : Option ℕ
  started : Bool
  pid : Option ℕ
  mutex : Option Party
  joined : Bool
  call : ℕ → Call
  thread : ℕ → Thread
  calls : ℕ
  created : ℕ
  handed : List ℕ
  executed : List ℕ
  stopped : Bool

/-- What `create` leaves. -/
def start : State where
  head := none
  currentHead := none
  started := false
  pid := none
  mutex := none
  joined := false
  call _ := .absent
  thread _ := .absent
  calls := 0
  created := 0
  handed := []
  executed := []
  stopped := false

/-- One label of a run. `push` is a call up to the exchange of `_head`, and beyond it when the task
is executed in place. A flag says that tasks of the list are left over, or that `pthread_create`
succeeds; `w` is the waiter that a signal would wake; `wakeUp` is a `Wait` that returns for no
reason. -/
inductive Act where
  | push (inPlace stop : Bool)
  | call (n w : ℕ) (flag : Bool)
  | thread (t : ℕ) (flag : Bool)
  | wakeUp (t : ℕ)

namespace State

def callTo (s : State) (n : ℕ) (c : Call) : State := { s with call := update s.call n c }

def threadTo (s : State) (t : ℕ) (c : Thread) : State := { s with thread := update s.thread t c }

end State

def pushStep (s : State) (inPlace stop : Bool) : State :=
  if s.stopped = false ∧ (stop = true → ∀ n < s.calls, s.call n = .done) then
    let s' := { s with head := some s.calls, calls := s.calls + 1, stopped := stop }
    if s.head = none then s'.callTo s.calls (if inPlace && !stop then .inPlace else .test)
      else s'.callTo s.calls .done
  else s

/-- The next step of call `n`. -/
def callStep (s : State) (n w : ℕ) (flag : Bool) : State :=
  match s.call n with
  | .absent | .done => s
  | .inPlace =>
    if s.head = some n ∧ flag = false then { s with head := none }.callTo n .done else s.callTo n .test
  | .test => { s with handed := s.handed ++ [n] }.callTo n (if s.started then .lock else .create)
  | .lock => if s.mutex = none then { s with mutex := some (.call n) }.callTo n .set else s
  | .set => { s with currentHead := some n }.callTo n .signal
  | .signal =>
    if s.thread w = .waiting then (s.threadTo w .woken).callTo n .unlock
    else if ∀ t < s.created, s.thread t ≠ .waiting then s.callTo n .unlock
    else s
  | .unlock => { s with mutex := none }.callTo n .done
  | .create =>
    if flag then
      ({ s with pid := some s.created, created := s.created + 1 }.threadTo s.created
        (.start n)).callTo n .mark
    else { s with executed := s.executed ++ [n] }.callTo n (.exec n)
  | .exec tail =>
    if s.head = some tail then
      if flag then s else { s with head := none }.callTo n (if s.stopped then .destroy else .mark)
    else s.callTo n (.exec (s.head.getD tail))
  | .destroy => { s with joined := true }.callTo n .mark
  | .mark => { s with started := true }.callTo n .done

/-- The next step of pthread `t`. -/
def threadStep (s : State) (t : ℕ) (flag : Bool) : State :=
  match s.thread t with
  | .absent | .waiting | .exited => s
  | .start head => { s with currentHead := some head }.threadTo t .lock
  | .lock | .woken => if s.mutex = none then { s with mutex := some (.thread t) }.threadTo t .check else s
  | .check =>
    if s.currentHead = none then { s with mutex := none }.threadTo t .waiting else s.threadTo t .run
  | .run =>
    match s.currentHead with
    | none => s
    | some n => { s with executed := s.executed ++ [n] }.threadTo t (.exec n)
  | .exec tail =>
    if s.head = some tail then
      if flag then s else { s with head := none }.threadTo t (if s.stopped then .destroy else .reset)
    else s.threadTo t (.exec (s.head.getD tail))
  | .destroy => { s with joined := true }.threadTo t .reset
  | .reset => { s with currentHead := none }.threadTo t .leave
  | .leave => { s with mutex := none }.threadTo t (if s.joined then .exited else .lock)

def step (s : State) : Act → State
  | .push inPlace stop => pushStep s inPlace stop
  | .call n w flag => callStep s n w flag
  | .thread t flag => threadStep s t flag
  | .wakeUp t => if s.thread t = .waiting then s.threadTo t .woken else s

/-! ## The property -/

/-- No call and no pthread can move. -/
def Quiet (s : State) : Prop := (∀ n w flag, callStep s n w flag = s) ∧ ∀ t flag, threadStep s t flag = s

/-- One pthread at most; no head is executed twice, nor one that was not handed over; and when
nothing can move, all heads have been executed. -/
structure Sound (s : State) : Prop where
  one : s.created ≤ 1
  nodup : s.executed.Nodup
  subset : s.executed ⊆ s.handed
  all : Quiet s → s.handed ⊆ s.executed

/-- The condition on a step: a producer that reads `_pthread_started` reads whether there is a
pthread. -/
def Tells (s : State) : Act → Prop
  | .call n _ _ => s.call n = .test → (s.started = true ↔ 0 < s.created)
  | _ => True

instance (s : State) : ∀ a, Decidable (Tells s a)
  | .call n _ _ => inferInstanceAs (Decidable (s.call n = .test → _))
  | .push _ _ | .thread _ _ | .wakeUp _ => isTrue trivial

/-! ## The mutex -/

def Call.locks : Call → Bool
  | .set | .signal | .unlock => true
  | _ => false

def Thread.locks : Thread → Bool
  | .check | .run | .exec _ | .destroy | .reset | .leave => true
  | _ => false

open Thread

structure Base (s : State) : Prop where
  calls : ∀ n, s.call n = .absent ↔ s.calls ≤ n
  threads : ∀ t, s.thread t = .absent ↔ s.created ≤ t
  call_locks : ∀ n, (s.call n).locks = true ↔ s.mutex = some (.call n)
  thread_locks : ∀ t, (s.thread t).locks = true ↔ s.mutex = some (.thread t)

section Base

variable {s s' : State} {n t : ℕ} {c : Call} {d : Thread}

theorem start_base : Base start := by
  constructor <;> simp [start, Call.locks, locks]

/-- Whose step takes the mutex, keeps it or gives it back. -/
def mutexAfter (s : State) (P : Party) (before after : Bool) : Option Party :=
  if after then some P else if before then none else s.mutex

theorem Base.goCall (B : Base s) (hcall : s'.call = update s.call n c)
    (hrest : s'.thread = s.thread ∧ s'.calls = s.calls ∧ s'.created = s.created)
    (hmutex : s'.mutex = mutexAfter s (.call n) (s.call n).locks c.locks)
    (hfree : c.locks = true → (s.call n).locks = true ∨ s.mutex = none) (hold : s.call n ≠ .absent)
    (hnew : c ≠ .absent) : Base s' := by
  obtain ⟨hthread, hcalls, hcreated⟩ := hrest
  constructor
  · intro m
    rw [hcall, hcalls, ← B.calls m]
    obtain rfl | hm := eq_or_ne m n
    · rw [update_self]
      exact ⟨fun h => absurd h hnew, fun h => absurd h hold⟩
    · rw [update_of_ne hm]
  · rw [hthread, hcreated]
    exact B.threads
  · intro m
    have hm := B.call_locks m
    have hn := B.call_locks n
    rw [hcall, hmutex, mutexAfter]
    grind
  · intro t
    have ht := B.thread_locks t
    have hn := B.call_locks n
    rw [hthread, hmutex, mutexAfter]
    grind

theorem Base.goThread (B : Base s) (hthread : s'.thread = update s.thread t d)
    (hrest : s'.call = s.call ∧ s'.calls = s.calls ∧ s'.created = s.created)
    (hmutex : s'.mutex = mutexAfter s (.thread t) (s.thread t).locks d.locks)
    (hfree : d.locks = true → (s.thread t).locks = true ∨ s.mutex = none) (hold : s.thread t ≠ .absent)
    (hnew : d ≠ .absent) : Base s' := by
  obtain ⟨hcall, hcalls, hcreated⟩ := hrest
  constructor
  · rw [hcall, hcalls]
    exact B.calls
  · intro u
    rw [hthread, hcreated, ← B.threads u]
    obtain rfl | hu := eq_or_ne u t
    · rw [update_self]
      exact ⟨fun h => absurd h hnew, fun h => absurd h hold⟩
    · rw [update_of_ne hu]
  · intro n
    have hn := B.call_locks n
    have ht := B.thread_locks t
    rw [hcall, hmutex, mutexAfter]
    grind
  · intro u
    have hu := B.thread_locks u
    have ht := B.thread_locks t
    rw [hthread, hmutex, mutexAfter]
    grind

theorem Base.newCall (B : Base s) (hcall : s'.call = update s.call s.calls c)
    (hcalls : s'.calls = s.calls + 1)
    (hrest : s'.thread = s.thread ∧ s'.created = s.created ∧ s'.mutex = s.mutex) (hnew : c ≠ .absent)
    (hlocks : c.locks = false) : Base s' := by
  obtain ⟨hthread, hcreated, hmutex⟩ := hrest
  have hnone : s.call s.calls = .absent := (B.calls _).2 (Nat.le_refl _)
  constructor
  · intro n
    rw [hcall, hcalls]
    obtain rfl | hn := eq_or_ne n s.calls
    · rw [update_self]
      exact ⟨fun h => absurd h hnew, fun h => absurd h (Nat.not_succ_le_self _)⟩
    · rw [update_of_ne hn, B.calls n]
      lia
  · rw [hthread, hcreated]
    exact B.threads
  · intro n
    rw [hcall, hmutex, ← B.call_locks n]
    obtain rfl | hn := eq_or_ne n s.calls
    · rw [update_self, hlocks, hnone]
      rfl
    · rw [update_of_ne hn]
  · rw [hthread, hmutex]
    exact B.thread_locks

theorem Base.newThread (B : Base s) (hthread : s'.thread = update s.thread s.created d)
    (hcreated : s'.created = s.created + 1)
    (hrest : s'.call = s.call ∧ s'.calls = s.calls ∧ s'.mutex = s.mutex) (hnew : d ≠ .absent)
    (hlocks : d.locks = false) : Base s' := by
  obtain ⟨hcall, hcalls, hmutex⟩ := hrest
  have hnone : s.thread s.created = .absent := (B.threads _).2 (Nat.le_refl _)
  constructor
  · rw [hcall, hcalls]
    exact B.calls
  · intro t
    rw [hthread, hcreated]
    obtain rfl | ht := eq_or_ne t s.created
    · rw [update_self]
      exact ⟨fun h => absurd h hnew, fun h => absurd h (Nat.not_succ_le_self _)⟩
    · rw [update_of_ne ht, B.threads t]
      lia
  · rw [hcall, hmutex]
    exact B.call_locks
  · intro t
    rw [hthread, hmutex, ← B.thread_locks t]
    obtain rfl | ht := eq_or_ne t s.created
    · rw [update_self, hlocks, hnone]
      rfl
    · rw [update_of_ne ht]

theorem Base.not_locks (B : Base s) (h : (s.call n).locks = true) (t : ℕ) :
    (s.thread t).locks = false := by
  rw [← Bool.not_eq_true, B.thread_locks t, (B.call_locks n).1 h]
  simp

end Base

/-! ## The list -/

/-- Where the list is that keeps the queue busy: with a producer that has not handed it over, with
one that gives its head to the pthread, with one that creates the pthread for it, with one that
executes it itself, in `_current_head`, with the new pthread, in execution. -/
inductive Place where
  | producer (n : ℕ)
  | giving (n : ℕ)
  | creating (n : ℕ)
  | failed (n : ℕ)
  | slot (n : ℕ)
  | arg (n : ℕ)
  | running
  deriving DecidableEq

/-- The list is with call `n`, which is there. -/
def Call.place (n : ℕ) : Call → Option Place
  | .inPlace | .test => some (.producer n)
  | .lock | .set => some (.giving n)
  | .create => some (.creating n)
  | .exec _ => some (.failed n)
  | _ => none

/-- The list is with the pthread, which is there. -/
def Thread.place : Thread → Option Place
  | .start n => some (.arg n)
  | .exec _ => some .running
  | _ => none

/-- What is in `_current_head` has been picked up. -/
def Thread.stale : Thread → Bool
  | .exec _ | .destroy | .reset => true
  | _ => false

/-- The head that waits in `_current_head`. -/
def State.slot (s : State) : Option ℕ := if (s.thread 0).stale then none else s.currentHead

/-- Whether a place is with call `m`. -/
def ofCall (m : ℕ) : Option Place → Option Place
  | some (.producer n) => if n = m then some (.producer n) else none
  | some (.giving n) => if n = m then some (.giving n) else none
  | some (.creating n) => if n = m then some (.creating n) else none
  | some (.failed n) => if n = m then some (.failed n) else none
  | _ => none

def ofThread : Option Place → Option Place
  | some (.arg n) => some (.arg n)
  | some .running => some .running
  | _ => none

/-- Whether a place is `_current_head`. -/
def ofSlot : Option Place → Option ℕ
  | some (.slot n) => some n
  | _ => none

/-- The head that has been handed over and has not been executed yet. -/
def pending : Option Place → List ℕ
  | some (.giving n) | some (.creating n) | some (.slot n) | some (.arg n) => [n]
  | _ => []

def Made (created : ℕ) : Option Place → Prop
  | some (.creating _) => created = 0
  | some (.giving _) | some (.slot _) | some (.arg _) | some .running => created = 1
  | _ => created ≤ 1

/-- The call has come to the test of `_pthread_started`. -/
def Call.past : Call → Bool
  | .absent | .inPlace | .test => false
  | _ => true

def State.Ending (s : State) : Prop :=
  s.joined = true ∨ (∃ n, s.call n = .destroy) ∨ s.thread 0 = .destroy

/-- **The invariant**, with the place of the list: `none` when the queue is idle. -/
structure Inv (s : State) (p : Option Place) : Prop where
  base : Base s
  head : s.head = none ↔ p = none
  call : ∀ n, (s.call n).place n = ofCall n p
  thread : (s.thread 0).place = ofThread p
  slot : s.slot = ofSlot p
  handed : s.handed = s.executed ++ pending p
  nodup : s.handed.Nodup
  past : ∀ n ∈ s.handed, (s.call n).past = true
  made : Made s.created p
  run : s.thread 0 = .run → s.currentHead ≠ none
  wake : s.thread 0 = .waiting → s.currentHead ≠ none → ∃ n, s.call n = .signal
  ending : s.Ending → p = none ∧ s.stopped = true
  exited : s.thread 0 = .exited → s.joined = true

@[simp] theorem ofCall_place (n : ℕ) (c : Call) : ofCall n (c.place n) = c.place n := by
  cases c <;> simp [Call.place, ofCall]

theorem ofCall_place_of_ne {m n : ℕ} (h : m ≠ n) (c : Call) : ofCall m (c.place n) = none := by
  cases c <;> simp [Call.place, ofCall, h.symm]

@[simp] theorem ofThread_place_call (n : ℕ) (c : Call) : ofThread (c.place n) = none := by
  cases c <;> rfl

@[simp] theorem ofSlot_place_call (n : ℕ) (c : Call) : ofSlot (c.place n) = none := by
  cases c <;> rfl

theorem eq_of_ofCall {n : ℕ} {p : Option Place} {q : Place} (h : ofCall n p = some q) : p = some q := by
  cases p with
  | none => cases h
  | some q' => cases q' <;> grind [ofCall]

theorem eq_of_ofThread {p : Option Place} {q : Place} (h : ofThread p = some q) : p = some q := by
  cases p with
  | none => cases h
  | some q' => cases q' <;> first | exact h | cases h

theorem eq_of_ofSlot {n : ℕ} {p : Option Place} (h : ofSlot p = some n) : p = some (.slot n) := by
  cases p with
  | none => cases h
  | some q =>
    cases q with
    | slot m =>
      cases h
      rfl
    | producer | giving | creating | failed | arg | running => cases h

open ExecutionQueuePthread

open State

theorem Made.le_one {k : ℕ} {p : Option Place} (h : Made k p) : k ≤ 1 := by
  cases p with
  | none => exact h
  | some q =>
    cases q with
    | producer | failed => exact h
    | creating =>
      obtain rfl : k = 0 := h
      exact Nat.zero_le 1
    | giving | slot | arg | running => exact Nat.le_of_eq h

section Inv

variable {s s' : State} {n w t : ℕ} {flag : Bool} {c : Call} {d : Thread} {p p' : Option Place}
  {q : Place} {call : ℕ → Call} {tail : ℕ}

theorem start_inv : Inv start none := by
  constructor
  case base => exact start_base
  all_goals simp [start, Call.place, ofCall, place, ofThread, stale, slot, ofSlot, pending, Made,
    State.Ending]

theorem place_update (h : ∀ m, (call m).place m = ofCall m p) (hn : c.place n = ofCall n p')
    (hrest : ∀ m, m ≠ n → ofCall m p' = ofCall m p) : ∀ m, (update call n c m).place m = ofCall m p' := by
  intro m
  obtain rfl | hm := eq_or_ne m n
  · rw [update_self, hn]
  · rw [update_of_ne hm, h m, hrest m hm]

theorem past_update {l : List ℕ} (h : ∀ m ∈ l, (call m).past = true)
    (hn : n ∈ l → c.past = true) : ∀ m ∈ l, (update call n c m).past = true := by
  intro m hm
  obtain rfl | hmn := eq_or_ne m n
  · rw [update_self]
    exact hn hm
  · rw [update_of_ne hmn]
    exact h m hm

theorem Inv.stayCall (I : Inv s p) (hcall : s'.call = update s.call n c) (base : Base s')
    (hrest : s'.head = s.head ∧ s'.currentHead = s.currentHead ∧ s'.thread = s.thread ∧
      s'.handed = s.handed ∧
      s'.executed = s.executed ∧ s'.created = s.created ∧ s'.stopped = s.stopped)
    (hplace : c.place n = (s.call n).place n) (hpast : (s.call n).past = true → c.past = true)
    (hsignal : s.call n = .signal → s.thread 0 ≠ .waiting) (hending : s'.Ending → s.Ending)
    (hjoined : s.joined = true → s'.joined = true) : Inv s' p := by
  obtain ⟨hhead, hcurrent, hthread, hhanded, hexecuted, hcreated, hstopped⟩ := hrest
  constructor
  case base => exact base
  case head => rw [hhead]; exact I.head
  case call =>
    rw [hcall]
    exact place_update I.call (hplace.trans (I.call n)) fun _ _ => rfl
  case thread => rw [hthread]; exact I.thread
  case slot => rw [State.slot, hthread, hcurrent]; exact I.slot
  case handed => rw [hhanded, hexecuted]; exact I.handed
  case nodup => rw [hhanded]; exact I.nodup
  case past =>
    rw [hhanded, hcall]
    exact past_update I.past fun hn => hpast (I.past n hn)
  case made => rw [hcreated]; exact I.made
  case run => rw [hthread, hcurrent]; exact I.run
  case wake =>
    rw [hthread, hcurrent, hcall]
    intro hwait hsome
    obtain ⟨m, hm⟩ := I.wake hwait hsome
    refine ⟨m, ?_⟩
    rw [update_of_ne, hm]
    rintro rfl
    exact hsignal hm hwait
  case ending =>
    rw [hstopped]
    exact fun h => I.ending (hending h)
  case exited => rw [hthread]; exact fun h => hjoined (I.exited h)

theorem Inv.stayThread (I : Inv s p) (hthread : s'.thread = update s.thread 0 d) (base : Base s')
    (hrest : s'.head = s.head ∧ s'.call = s.call ∧ s'.handed = s.handed ∧ s'.executed = s.executed ∧
      s'.created = s.created ∧ s'.stopped = s.stopped)
    (hplace : d.place = (s.thread 0).place) (hslot : s'.slot = s.slot)
    (hrun : d = .run ∨ d = .waiting → (d = .run ↔ s'.currentHead ≠ none))
    (hending : s'.Ending → s.Ending) (hexited : d = .exited → s'.joined = true) : Inv s' p := by
  obtain ⟨hhead, hcall, hhanded, hexecuted, hcreated, hstopped⟩ := hrest
  constructor
  case base => exact base
  case head => rw [hhead]; exact I.head
  case call => rw [hcall]; exact I.call
  case thread => rw [hthread, update_self, hplace]; exact I.thread
  case slot => rw [hslot]; exact I.slot
  case handed => rw [hhanded, hexecuted]; exact I.handed
  case nodup => rw [hhanded]; exact I.nodup
  case past => rw [hhanded, hcall]; exact I.past
  case made => rw [hcreated]; exact I.made
  case run =>
    rw [hthread, update_self]
    exact fun h => (hrun (.inl h)).1 h
  case wake =>
    rw [hthread, update_self]
    intro hwait hsome
    have hd := (hrun (.inr hwait)).2 hsome
    rw [hwait] at hd
    cases hd
  case ending =>
    rw [hstopped]
    exact fun h => I.ending (hending h)
  case exited => rw [hthread, update_self]; exact hexited

theorem Inv.place_of_call (I : Inv s p) (h : (s.call n).place n = some q) : p = some q :=
  eq_of_ofCall ((I.call n).symm.trans h)

theorem Inv.place_of_thread (I : Inv s p) (h : (s.thread 0).place = some q) : p = some q :=
  eq_of_ofThread (I.thread.symm.trans h)

theorem Inv.not_ending (I : Inv s (some q)) : ¬ s.Ending := fun h => by cases (I.ending h).1

theorem Inv.wake_update (I : Inv s p) (hold : s.call n ≠ .signal) (hwait : s.thread 0 = .waiting)
    (hsome : s.currentHead ≠ none) : ∃ m, update s.call n c m = .signal := by
  obtain ⟨m, hm⟩ := I.wake hwait hsome
  refine ⟨m, ?_⟩
  rw [update_of_ne, hm]
  rintro rfl
  exact hold hm

theorem ending_update (h : s'.Ending) (hcall : s'.call = update s.call n c)
    (hrest : s'.thread = s.thread ∧ s'.joined = s.joined) (hc : c ≠ .destroy) : s.Ending := by
  obtain ⟨hthread, hjoined⟩ := hrest
  rcases h with hj | ⟨m, hm⟩ | ht
  · exact .inl (hjoined ▸ hj)
  · refine .inr (.inl ⟨m, ?_⟩)
    rw [hcall] at hm
    obtain rfl | hmn := eq_or_ne m n
    · rw [update_self] at hm
      exact absurd hm hc
    · rwa [update_of_ne hmn] at hm
  · exact .inr (.inr (hthread ▸ ht))

/-- A call that the list is with goes on: the list is with it afterwards, or the queue is idle. -/
theorem Inv.moveCall (I : Inv s (some q)) (hcall : s'.call = update s.call n c) (base : Base s')
    (hrest : s'.currentHead = s.currentHead ∧ s'.thread = s.thread ∧ s'.created = s.created ∧
      s'.joined = s.joined)
    (hold : (s.call n).place n = some q) (hnew : p' = c.place n) (head : s'.head = none ↔ p' = none)
    (handed : s'.handed = s'.executed ++ pending p') (nodup : s'.handed.Nodup)
    (past : ∀ m ∈ s'.handed, m = n ∨ m ∈ s.handed) (hpast : n ∈ s'.handed → c.past = true)
    (made : Made s.created p') (hending : c = .destroy → p' = none ∧ s'.stopped = true) : Inv s' p' := by
  obtain ⟨hcurrent, hthread, hcreated, hjoined⟩ := hrest
  have hthread' : ofThread p' = ofThread (some q) := by
    rw [hnew, ← hold, ofThread_place_call, ofThread_place_call]
  have hslot : ofSlot p' = ofSlot (some q) := by
    rw [hnew, ← hold, ofSlot_place_call, ofSlot_place_call]
  constructor
  case base => exact base
  case head => exact head
  case call =>
    rw [hcall]
    apply place_update I.call
    · rw [hnew, ofCall_place]
    · intro m hm
      rw [hnew, ← hold, ofCall_place_of_ne hm, ofCall_place_of_ne hm]
  case thread => rw [hthread, hthread']; exact I.thread
  case slot => rw [State.slot, hthread, hcurrent, hslot]; exact I.slot
  case handed => exact handed
  case nodup => exact nodup
  case past =>
    rw [hcall]
    intro m hm
    obtain rfl | hmn := eq_or_ne m n
    · rw [update_self]
      exact hpast hm
    · rw [update_of_ne hmn]
      exact I.past m ((past m hm).resolve_left hmn)
  case made => rw [hcreated]; exact made
  case run => rw [hthread, hcurrent]; exact I.run
  case wake =>
    rw [hthread, hcurrent, hcall]
    apply I.wake_update
    intro hc
    rw [hc] at hold
    cases hold
  case ending =>
    intro h
    by_cases hc : c = .destroy
    · exact hending hc
    · exact absurd (ending_update h hcall ⟨hthread, hjoined⟩ hc) I.not_ending
  case exited => rw [hthread, hjoined]; exact I.exited

section

variable (I : Inv s p)
include I

theorem Inv.inPlace (h : s.call n = .inPlace) : Inv ({ s with head := none }.callTo n .done) none := by
  have hplace : (s.call n).place n = some (.producer n) := by rw [h]; rfl
  obtain rfl := I.place_of_call hplace
  refine I.moveCall (n := n) (c := .done) rfl ?_ ⟨rfl, rfl, rfl, rfl⟩ hplace rfl
    ⟨fun _ => rfl, fun _ => rfl⟩
    I.handed I.nodup (fun m hm => .inr hm) (fun _ => rfl) I.made (nofun)
  exact I.base.goCall rfl ⟨rfl, rfl, rfl⟩ (by rw [h]; rfl) (nofun) (by simp [h]) (by simp)

theorem Inv.test (h : s.call n = .test) (htells : s.started = true ↔ 0 < s.created) :
    ∃ p', Inv ({ s with handed := s.handed ++ [n] }.callTo n (if s.started then .lock else .create))
    p' := by
  have hplace : (s.call n).place n = some (.producer n) := by rw [h]; rfl
  obtain rfl := I.place_of_call hplace
  have hfresh : n ∉ s.handed := fun hn => by
    have hpast := I.past n hn
    rw [h] at hpast
    cases hpast
  have hnodup : (s.handed ++ [n]).Nodup := List.nodup_append'.2
    ⟨I.nodup, List.nodup_singleton n, List.disjoint_singleton.2 hfresh⟩
  have hall : s.handed = s.executed := I.handed.trans (List.append_nil _)
  have hhead : s.head ≠ none := fun hn => by cases I.head.1 hn
  have hmem : ∀ m ∈ s.handed ++ [n], m = n ∨ m ∈ s.handed := by
    intro m hm
    rcases List.mem_append.1 hm with hm | hm
    · exact .inr hm
    · exact .inl (List.mem_singleton.1 hm)
  have hone : s.created ≤ 1 := I.made
  cases hs : s.started with
  | true =>
    have hmade : s.created = 1 := Nat.le_antisymm hone (htells.1 hs)
    refine ⟨some (.giving n), I.moveCall (n := n) (c := .lock) rfl ?_ ⟨rfl, rfl, rfl, rfl⟩ hplace rfl
      ⟨fun hn => absurd hn hhead, nofun⟩ (by rw [hall]; rfl) hnodup hmem (fun _ => rfl) hmade
      (nofun)⟩
    exact I.base.goCall rfl ⟨rfl, rfl, rfl⟩ (by rw [h]; rfl) (nofun) (by simp [h]) (by simp)
  | false =>
    have hmade : s.created = 0 := by
      rw [hs] at htells
      exact Nat.eq_zero_of_not_pos fun hpos => by cases htells.2 hpos
    refine ⟨some (.creating n), I.moveCall (n := n) (c := .create) rfl ?_ ⟨rfl, rfl, rfl, rfl⟩ hplace rfl
      ⟨fun hn => absurd hn hhead, nofun⟩ (by rw [hall]; rfl) hnodup hmem (fun _ => rfl) hmade
      (nofun)⟩
    exact I.base.goCall rfl ⟨rfl, rfl, rfl⟩ (by rw [h]; rfl) (nofun) (by simp [h]) (by simp)

theorem Inv.createFails (h : s.call n = .create) :
    Inv ({ s with executed := s.executed ++ [n] }.callTo n (.exec n)) (some (.failed n)) := by
  have hplace : (s.call n).place n = some (.creating n) := by rw [h]; rfl
  obtain rfl := I.place_of_call hplace
  have hhead : s.head ≠ none := fun hn => by cases I.head.1 hn
  have hmade : s.created = 0 := I.made
  refine I.moveCall (n := n) (c := .exec n) rfl ?_ ⟨rfl, rfl, rfl, rfl⟩ hplace rfl
    ⟨fun hn => absurd hn hhead, nofun⟩ (I.handed.trans (List.append_nil _).symm) I.nodup
    (fun m hm => .inr hm) (fun _ => rfl) (by simp [Made, hmade]) (nofun)
  exact I.base.goCall rfl ⟨rfl, rfl, rfl⟩ (by rw [h]; rfl) (nofun) (by simp [h]) (by simp)

theorem Inv.execCall (h : s.call n = .exec tail) :
    Inv ({ s with head := none }.callTo n (if s.stopped then .destroy else .mark)) none := by
  have hplace : (s.call n).place n = some (.failed n) := by rw [h]; rfl
  obtain rfl := I.place_of_call hplace
  refine I.moveCall (n := n) rfl ?_ ⟨rfl, rfl, rfl, rfl⟩ hplace ?_ ⟨fun _ => rfl, fun _ => rfl⟩
    I.handed I.nodup (fun m hm => .inr hm) (fun _ => ?_) I.made ?_
  · refine I.base.goCall (n := n) rfl ⟨rfl, rfl, rfl⟩ ?_ ?_ (by simp [h]) ?_
    · rw [h]
      cases s.stopped <;> rfl
    · cases s.stopped <;> exact nofun
    · cases s.stopped <;> simp
  · cases s.stopped <;> rfl
  · cases s.stopped <;> rfl
  · intro hc
    refine ⟨rfl, ?_⟩
    cases hs : s.stopped with
    | true => rfl
    | false =>
      rw [hs] at hc
      cases hc

theorem Inv.set (h : s.call n = .set) :
    Inv ({ s with currentHead := some n }.callTo n .signal) (some (.slot n)) := by
  obtain rfl := I.place_of_call (q := .giving n) (by rw [h]; rfl)
  have hlocks := I.base.not_locks (n := n) (by rw [h]; rfl) 0
  have hstale : (s.thread 0).stale = false := by
    cases ht : s.thread 0 <;> rw [ht] at hlocks <;> first | rfl | cases hlocks
  constructor
  case base =>
    have hmutex : s.mutex = some (.call n) := (I.base.call_locks n).1 (by rw [h]; rfl)
    exact I.base.goCall (n := n) (c := .signal) rfl ⟨rfl, rfl, rfl⟩ hmutex
      (fun _ => .inl (by rw [h]; rfl)) (by simp [h])
      (by simp)
  case head => exact ⟨fun hn => (by cases I.head.1 hn), nofun⟩
  case call => exact place_update I.call rfl fun m hm => by simp [ofCall, hm.symm]
  case thread => exact I.thread
  case slot => simp [State.slot, State.callTo, hstale, ofSlot]
  case handed => exact I.handed
  case nodup => exact I.nodup
  case past => exact past_update I.past fun _ => rfl
  case made => exact I.made
  case run => exact fun _ => by simp [State.callTo]
  case wake => exact fun _ _ => ⟨n, update_self _ _ _⟩
  case ending => exact fun hend => absurd (ending_update (n := n) (c := .signal) hend rfl ⟨rfl, rfl⟩ (by simp)) I.not_ending
  case exited => exact I.exited

theorem Inv.create (h : s.call n = .create) :
    Inv (({ s with pid := some s.created, created := s.created + 1 }.threadTo s.created (.start n)).callTo n .mark)
      (some (.arg n)) := by
  obtain rfl := I.place_of_call (q := .creating n) (by rw [h]; rfl)
  have hmade : s.created = 0 := I.made
  have hnone : s.thread 0 = .absent := (I.base.threads 0).2 (Nat.le_of_eq hmade)
  have hbase :
      Base
      (({ s with pid := some s.created, created := s.created + 1 }.threadTo s.created
      (.start n)).callTo n
      .mark) := by
    have hthread :
        Base ({ s with pid := some s.created, created := s.created + 1 }.threadTo s.created
        (.start n)) :=
      I.base.newThread rfl rfl ⟨rfl, rfl, rfl⟩ (by simp) rfl
    refine hthread.goCall (n := n) (c := .mark) rfl ⟨rfl, rfl, rfl⟩ ?_ (nofun) ?_ (by simp)
    · show s.mutex = mutexAfter s (.call n) (s.call n).locks false
      rw [h]
      rfl
    · show s.call n ≠ .absent
      simp [h]
  rw [hmade] at hbase ⊢
  constructor
  case base => exact hbase
  case head => exact ⟨fun hn => (by cases I.head.1 hn), nofun⟩
  case call => exact place_update I.call rfl fun m hm => by simp [ofCall, hm.symm]
  case thread => rfl
  case slot =>
    have hslot := I.slot
    rw [State.slot, hnone] at hslot
    exact hslot
  case handed => exact I.handed
  case nodup => exact I.nodup
  case past => exact past_update I.past fun _ => rfl
  case made => rfl
  case run => exact nofun
  case wake => exact nofun
  case ending =>
    intro hend
    refine absurd ?_ I.not_ending
    rcases hend with hj | ⟨m, hm⟩ | ht
    · exact .inl hj
    · refine .inr (.inl ⟨m, ?_⟩)
      obtain rfl | hmn := eq_or_ne m n
      · simp [callTo] at hm
      · simpa [callTo, threadTo, hmn] using hm
    · cases ht
  case exited => exact nofun

end

theorem Inv.moveThread (I : Inv s (some q)) (hthread : s'.thread = update s.thread 0 d)
    (base : Base s') (hrest : s'.call = s.call ∧ s'.created = s.created ∧ s'.handed = s.handed ∧
      s'.joined = s.joined)
    (hq : ∀ m, ofCall m (some q) = none) (hp : ∀ m, ofCall m p' = none)
    (head : s'.head = none ↔ p' = none)
    (thread : d.place = ofThread p') (slot : s'.slot = ofSlot p')
    (handed : s.handed = s'.executed ++ pending p')
    (made : Made s.created p') (hd : d ≠ .run ∧ d ≠ .waiting ∧ d ≠ .exited)
    (hending : d = .destroy → p' = none ∧ s'.stopped = true) : Inv s' p' := by
  obtain ⟨hcall, hcreated, hhanded, hjoined⟩ := hrest
  constructor
  case base => exact base
  case head => exact head
  case call =>
    intro m
    rw [hcall, I.call m, hq m, hp m]
  case thread => rw [hthread, update_self, thread]
  case slot => exact slot
  case handed => rw [hhanded]; exact handed
  case nodup => rw [hhanded]; exact I.nodup
  case past => rw [hhanded, hcall]; exact I.past
  case made => rw [hcreated]; exact made
  case run => rw [hthread, update_self]; exact fun h => absurd h hd.1
  case wake => rw [hthread, update_self]; exact fun h => absurd h hd.2.1
  case ending =>
    rintro (hj | ⟨m, hm⟩ | ht)
    · exact absurd (.inl (hjoined ▸ hj)) I.not_ending
    · exact absurd (.inr (.inl ⟨m, hcall ▸ hm⟩)) I.not_ending
    · rw [hthread, update_self] at ht
      exact hending ht
  case exited => rw [hthread, update_self]; exact fun h => absurd h hd.2.2

section

variable (I : Inv s p)
include I

theorem Inv.startThread (h : s.thread 0 = .start n) :
    Inv ({ s with currentHead := some n }.threadTo 0 .lock) (some (.slot n)) := by
  obtain rfl := I.place_of_thread (q := .arg n) (by rw [h]; rfl)
  have hhead : s.head ≠ none := fun hn => by cases I.head.1 hn
  refine I.moveThread (d := .lock) rfl ?_ ⟨rfl, rfl, rfl, rfl⟩ (fun _ => rfl) (fun _ => rfl)
    ⟨fun hn => absurd hn hhead, nofun⟩ rfl rfl I.handed I.made (by simp) (nofun)
  exact I.base.goThread (t := 0) (d := .lock) rfl ⟨rfl, rfl, rfl⟩ (by rw [h]; rfl) (nofun) (by simp [h])
    (by simp)

/-- The pthread begins to execute the list in `_current_head`. -/
theorem Inv.pickUp (h : s.thread 0 = .run) (hn : s.currentHead = some n) :
    Inv ({ s with executed := s.executed ++ [n] }.threadTo 0 (.exec n)) (some .running) := by
  have hslot : ofSlot p = some n := by
    rw [← I.slot, State.slot, h, ← hn]
    rfl
  obtain rfl := eq_of_ofSlot hslot
  have hhead : s.head ≠ none := fun hn => by cases I.head.1 hn
  refine I.moveThread (d := .exec n) rfl ?_ ⟨rfl, rfl, rfl, rfl⟩ (fun _ => rfl) (fun _ => rfl)
    ⟨fun hn => absurd hn hhead, nofun⟩ rfl rfl (I.handed.trans (List.append_nil _).symm) I.made (by simp)
    (nofun)
  have hmutex : s.mutex = some (.thread 0) := (I.base.thread_locks 0).1 (by rw [h]; rfl)
  exact I.base.goThread (t := 0) (d := .exec n) rfl ⟨rfl, rfl, rfl⟩ hmutex
    (fun _ => .inl (by rw [h]; rfl)) (by simp [h])
    (by simp)

theorem Inv.execThread (h : s.thread 0 = .exec tail) :
    Inv ({ s with head := none }.threadTo 0 (if s.stopped then .destroy else .reset)) none := by
  obtain rfl := I.place_of_thread (q := .running) (by rw [h]; rfl)
  have hmade : s.created = 1 := I.made
  refine I.moveThread rfl ?_ ⟨rfl, rfl, rfl, rfl⟩ (fun _ => rfl) (fun _ => rfl)
    ⟨fun _ => rfl, fun _ => rfl⟩ ?_ ?_
    I.handed (by simp [Made, hmade]) ?_ ?_
  · have hmutex : s.mutex = some (.thread 0) := (I.base.thread_locks 0).1 (by rw [h]; rfl)
    refine I.base.goThread (t := 0) rfl ⟨rfl, rfl, rfl⟩ ?_ (fun _ => .inl (by rw [h]; rfl))
      (by simp [h]) ?_
    · cases s.stopped <;> exact hmutex
    · cases s.stopped <;> simp
  · cases s.stopped <;> rfl
  · cases hs : s.stopped <;> simp [State.slot, State.threadTo, stale, ofSlot]
  · cases s.stopped <;> simp
  · intro hd
    refine ⟨rfl, ?_⟩
    cases hs : s.stopped with
    | true => rfl
    | false =>
      rw [hs] at hd
      cases hd

theorem Inv.wakeUp (h : s.thread 0 = .waiting) : Inv (s.threadTo 0 .woken) p := by
  refine I.stayThread (d := .woken) rfl ?_ ⟨rfl, rfl, rfl, rfl, rfl, rfl⟩ (by rw [h]; rfl) ?_ ?_ ?_
    (nofun)
  · exact I.base.goThread (t := 0) (d := .woken) rfl ⟨rfl, rfl, rfl⟩ (by rw [h]; rfl) (nofun)
      (by simp [h])
      (by simp)
  · simp [State.slot, State.threadTo, h, stale]
  · rintro (hd | hd) <;> cases hd
  · rintro (hj | hm | ht)
    · exact .inl hj
    · exact .inr (.inl hm)
    · simp [State.threadTo] at ht

theorem Inv.thread_eq (h : s.thread t ≠ .absent) : t = 0 := by
  have hone : s.created ≤ 1 := I.made.le_one
  have hlt : ¬ s.created ≤ t := mt (I.base.threads t).2 h
  lia

/-- **A step of a call.** -/
theorem Inv.callStep (htells : s.call n = .test → (s.started = true ↔ 0 < s.created)) :
    ∃ p', Inv (callStep s n w flag) p' := by
  cases h : s.call n with
  | absent | done =>
    simp only [ExecutionQueuePthread.callStep, h]
    exact ⟨p, I⟩
  | inPlace =>
    simp only [ExecutionQueuePthread.callStep, h]
    split
    · exact ⟨none, I.inPlace h⟩
    · refine ⟨p, I.stayCall (c := .test) rfl ?_ ⟨rfl, rfl, rfl, rfl, rfl, rfl, rfl⟩ (by rw [h]; rfl)
        (by rw [h]; exact nofun) (by simp [h])
          (fun hend => ending_update hend rfl ⟨rfl, rfl⟩ (by simp)) id⟩
      exact I.base.goCall rfl ⟨rfl, rfl, rfl⟩ (by rw [h]; rfl) (nofun) (by simp [h]) (by simp)
  | test =>
    simp only [ExecutionQueuePthread.callStep, h]
    exact I.test h (htells h)
  | lock =>
    simp only [ExecutionQueuePthread.callStep, h]
    split
    next hfree =>
      refine ⟨p, I.stayCall (c := .set) rfl ?_ ⟨rfl, rfl, rfl, rfl, rfl, rfl, rfl⟩ (by rw [h]; rfl)
        (fun _ => rfl) (by simp [h]) (fun hend => ending_update hend rfl ⟨rfl, rfl⟩ (by simp)) id⟩
      exact I.base.goCall rfl ⟨rfl, rfl, rfl⟩ rfl (fun _ => .inr hfree) (by simp [h]) (by simp)
    · exact ⟨p, I⟩
  | set =>
    simp only [ExecutionQueuePthread.callStep, h]
    exact ⟨_, I.set h⟩
  | signal =>
    simp only [ExecutionQueuePthread.callStep, h]
    have hmutex : s.mutex = some (.call n) := (I.base.call_locks n).1 (by rw [h]; rfl)
    -- The signal is given: nobody waits any more.
    have hgo : ∀ {s1 : State}, Inv s1 p → s1.call n = .signal → s1.mutex = some (.call n) →
        s1.thread 0 ≠ .waiting →
        Inv (s1.callTo n .unlock) p := by
      intro s1 I1 h1 hmutex1 hwait
      refine I1.stayCall (c := .unlock) rfl ?_ ⟨rfl, rfl, rfl, rfl, rfl, rfl, rfl⟩ (by rw [h1]; rfl)
        (fun _ => rfl)
        (fun _ => hwait) (fun hend => ending_update hend rfl ⟨rfl, rfl⟩ (by simp)) id
      exact I1.base.goCall rfl ⟨rfl, rfl, rfl⟩ hmutex1 (fun _ => .inl (by rw [h1]; rfl))
        (by simp [h1]) (by simp)
    split
    next hwait =>
      obtain rfl : w = 0 := I.thread_eq (by simp [hwait])
      exact ⟨p, hgo (I.wakeUp hwait) h hmutex (by simp [threadTo])⟩
    split
    next hnone =>
      refine ⟨p, hgo I h hmutex fun hwait => ?_⟩
      have hlt : 0 < s.created := by
        apply Nat.not_le.1
        rw [← I.base.threads 0, hwait]
        simp
      exact hnone 0 hlt hwait
    · exact ⟨p, I⟩
  | unlock =>
    simp only [ExecutionQueuePthread.callStep, h]
    refine ⟨p, I.stayCall (c := .done) rfl ?_ ⟨rfl, rfl, rfl, rfl, rfl, rfl, rfl⟩ (by rw [h]; rfl)
      (fun _ => rfl)
      (by simp [h]) (fun hend => ending_update hend rfl ⟨rfl, rfl⟩ (by simp)) id⟩
    exact I.base.goCall rfl ⟨rfl, rfl, rfl⟩ (by rw [h]; rfl) (nofun) (by simp [h]) (by simp)
  | create =>
    simp only [ExecutionQueuePthread.callStep, h]
    split
    · exact ⟨_, I.create h⟩
    · exact ⟨_, I.createFails h⟩
  | exec tail =>
    simp only [ExecutionQueuePthread.callStep, h]
    split
    · split
      · exact ⟨p, I⟩
      · exact ⟨none, I.execCall h⟩
    · refine ⟨p, I.stayCall (c := .exec _) rfl ?_ ⟨rfl, rfl, rfl, rfl, rfl, rfl, rfl⟩
        (by rw [h]; rfl) (fun _ => rfl)
        (by simp [h]) (fun hend => ending_update hend rfl ⟨rfl, rfl⟩ (by simp)) id⟩
      exact I.base.goCall rfl ⟨rfl, rfl, rfl⟩ (by rw [h]; rfl) (nofun) (by simp [h]) (by simp)
  | destroy =>
    simp only [ExecutionQueuePthread.callStep, h]
    refine ⟨p, I.stayCall (c := .mark) rfl ?_ ⟨rfl, rfl, rfl, rfl, rfl, rfl, rfl⟩ (by rw [h]; rfl)
      (fun _ => rfl)
      (by simp [h]) (fun _ => .inr (.inl ⟨n, h⟩)) (fun _ => rfl)⟩
    exact I.base.goCall rfl ⟨rfl, rfl, rfl⟩ (by rw [h]; rfl) (nofun) (by simp [h]) (by simp)
  | mark =>
    simp only [ExecutionQueuePthread.callStep, h]
    refine ⟨p, I.stayCall (c := .done) rfl ?_ ⟨rfl, rfl, rfl, rfl, rfl, rfl, rfl⟩ (by rw [h]; rfl)
      (fun _ => rfl)
      (by simp [h]) (fun hend => ending_update hend rfl ⟨rfl, rfl⟩ (by simp)) id⟩
    exact I.base.goCall rfl ⟨rfl, rfl, rfl⟩ (by rw [h]; rfl) (nofun) (by simp [h]) (by simp)

end

theorem ending_thread (h : s'.Ending) (hthread : s'.thread = update s.thread 0 d)
    (hrest : s'.call = s.call ∧ s'.joined = s.joined) (hd : d ≠ .destroy) : s.Ending := by
  obtain ⟨hcall, hjoined⟩ := hrest
  rcases h with hj | ⟨m, hm⟩ | ht
  · exact .inl (hjoined ▸ hj)
  · exact .inr (.inl ⟨m, hcall ▸ hm⟩)
  · rw [hthread, update_self] at ht
    exact absurd ht hd

/-- **A step of a pthread.** -/
theorem Inv.threadStep (I : Inv s p) : ∃ p', Inv (threadStep s t flag) p' := by
  by_cases habsent : s.thread t = .absent
  · refine ⟨p, ?_⟩
    simpa only [ExecutionQueuePthread.threadStep, habsent] using I
  obtain rfl := I.thread_eq habsent
  have hmutex : (s.thread 0).locks = true → s.mutex = some (.thread 0) := (I.base.thread_locks 0).1
  cases h : s.thread 0 with
  | absent | waiting | exited =>
    simp only [threadStep, h]
    exact ⟨p, I⟩
  | start n =>
    simp only [threadStep, h]
    exact ⟨_, I.startThread h⟩
  | lock | woken =>
    simp only [threadStep, h]
    split
    next hfree =>
      refine ⟨p, I.stayThread (d := .check) rfl ?_ ⟨rfl, rfl, rfl, rfl, rfl, rfl⟩ (by rw [h]; rfl) ?_
        (by rintro (hd | hd) <;> cases hd) (fun hend => ending_thread hend rfl ⟨rfl, rfl⟩ (by simp))
          (nofun)⟩
      · exact I.base.goThread rfl ⟨rfl, rfl, rfl⟩ rfl (fun _ => .inr hfree) habsent (by simp)
      · simp [State.slot, State.threadTo, h, stale]
    · exact ⟨p, I⟩
  | check =>
    simp only [threadStep, h]
    split
    next hnone =>
      refine ⟨p, I.stayThread (d := .waiting) rfl ?_ ⟨rfl, rfl, rfl, rfl, rfl, rfl⟩ (by rw [h]; rfl) ?_ ?_
        (fun hend => ending_thread hend rfl ⟨rfl, rfl⟩ (by simp)) (nofun)⟩
      · exact I.base.goThread rfl ⟨rfl, rfl, rfl⟩ (by rw [h]; rfl) (nofun) habsent (by simp)
      · simp [State.slot, State.threadTo, h, stale]
      · intro _
        simpa [State.threadTo] using hnone
    next hsome =>
      refine ⟨p, I.stayThread (d := .run) rfl ?_ ⟨rfl, rfl, rfl, rfl, rfl, rfl⟩ (by rw [h]; rfl) ?_ ?_
        (fun hend => ending_thread hend rfl ⟨rfl, rfl⟩ (by simp)) (nofun)⟩
      · exact I.base.goThread rfl ⟨rfl, rfl, rfl⟩ (hmutex (by rw [h]; rfl))
          (fun _ => .inl (by rw [h]; rfl)) habsent (by simp)
      · simp [State.slot, State.threadTo, h, stale]
      · exact fun _ => ⟨fun _ => hsome, fun _ => rfl⟩
  | run =>
    simp only [threadStep, h]
    split
    · exact ⟨p, I⟩
    next n hn =>
      exact ⟨_, I.pickUp h hn⟩
  | exec tail =>
    simp only [threadStep, h]
    split
    · split
      · exact ⟨p, I⟩
      · exact ⟨none, I.execThread h⟩
    · refine ⟨p, I.stayThread (d := .exec _) rfl ?_ ⟨rfl, rfl, rfl, rfl, rfl, rfl⟩ (by rw [h]; rfl) ?_
        (by rintro (hd | hd) <;> cases hd) (fun hend => ending_thread hend rfl ⟨rfl, rfl⟩ (by simp))
          (nofun)⟩
      · exact I.base.goThread rfl ⟨rfl, rfl, rfl⟩ (hmutex (by rw [h]; rfl))
          (fun _ => .inl (by rw [h]; rfl)) habsent (by simp)
      · simp [State.slot, State.threadTo, h, stale]
  | destroy =>
    simp only [threadStep, h]
    refine ⟨p, I.stayThread (d := .reset) rfl ?_ ⟨rfl, rfl, rfl, rfl, rfl, rfl⟩ (by rw [h]; rfl) ?_
      (by rintro (hd | hd) <;> cases hd) (fun _ => .inr (.inr h)) (nofun)⟩
    · exact I.base.goThread rfl ⟨rfl, rfl, rfl⟩ (hmutex (by rw [h]; rfl))
        (fun _ => .inl (by rw [h]; rfl)) habsent (by simp)
    · simp [State.slot, State.threadTo, h, stale]
  | reset =>
    simp only [threadStep, h]
    refine ⟨p, I.stayThread (d := .leave) rfl ?_ ⟨rfl, rfl, rfl, rfl, rfl, rfl⟩ (by rw [h]; rfl) ?_
      (by rintro (hd | hd) <;> cases hd) (fun hend => ending_thread hend rfl ⟨rfl, rfl⟩ (by simp))
        (nofun)⟩
    · exact I.base.goThread rfl ⟨rfl, rfl, rfl⟩ (hmutex (by rw [h]; rfl))
        (fun _ => .inl (by rw [h]; rfl)) habsent (by simp)
    · simp [State.slot, State.threadTo, h, stale]
  | leave =>
    simp only [threadStep, h]
    cases hj : s.joined with
    | true =>
      refine ⟨p, I.stayThread (d := .exited) rfl ?_ ⟨rfl, rfl, rfl, rfl, rfl, rfl⟩ (by rw [h]; rfl) ?_
        (by rintro (hd | hd) <;> cases hd) (fun _ => .inl hj) (fun _ => rfl)⟩
      · exact I.base.goThread rfl ⟨rfl, rfl, rfl⟩ (by rw [h]; rfl) (nofun) habsent (by simp)
      · simp [State.slot, State.threadTo, h, stale]
    | false =>
      refine ⟨p, I.stayThread (d := .lock) rfl ?_ ⟨rfl, rfl, rfl, rfl, rfl, rfl⟩ (by rw [h]; rfl) ?_
        (by rintro (hd | hd) <;> cases hd)
          (fun hend => ending_thread hend rfl ⟨rfl, hj.symm⟩ (by simp)) (nofun)⟩
      · exact I.base.goThread rfl ⟨rfl, rfl, rfl⟩ (by rw [h]; rfl) (nofun) habsent (by simp)
      · simp [State.slot, State.threadTo, h, stale]

/-- **A push.** -/
theorem Inv.pushStep {inPlace stop : Bool} (I : Inv s p) : ∃ p', Inv (pushStep s inPlace stop) p' := by
  unfold ExecutionQueuePthread.pushStep
  split
  swap
  · exact ⟨p, I⟩
  rename_i hguard
  have hnone : s.call s.calls = .absent := (I.base.calls _).2 (Nat.le_refl _)
  have hfresh : s.calls ∉ s.handed := fun hn => by
    have hpast := I.past _ hn
    rw [hnone] at hpast
    cases hpast
  have hending : ¬ s.Ending := fun hend => by
    have hstopped := (I.ending hend).2
    rw [hguard.1] at hstopped
    cases hstopped
  have hwake : ∀ c, s.thread 0 = .waiting → s.currentHead ≠ none → ∃ m, update s.call s.calls c m
      = .signal :=
    fun c => I.wake_update (by simp [hnone])
  have hother : s.head ≠ none → ∀ c : Call, c.place s.calls = none → ∀ m,
      (update s.call s.calls c m).place m =
      ofCall m p := by
    intro _ c hc
    apply place_update I.call _ fun _ _ => rfl
    rw [hc, ← I.call s.calls, hnone]
    rfl
  split
  next hidle =>
    obtain rfl := I.head.1 hidle
    refine ⟨some (.producer s.calls), ?_⟩
    have hplace : ∀ b : Bool, (if b then Call.inPlace else .test).place s.calls
        = some (.producer s.calls) := by
      intro b
      cases b <;> rfl
    constructor
    case base =>
      refine I.base.newCall rfl rfl ⟨rfl, rfl, rfl⟩ ?_ ?_
      · cases inPlace && !stop <;> simp
      · cases inPlace && !stop <;> rfl
    case head => exact ⟨fun hn => (by cases hn), nofun⟩
    case call =>
      apply place_update I.call
      · rw [hplace]
        simp [ofCall]
      · exact fun m hm => by simp [ofCall, hm.symm]
    case thread => exact I.thread
    case slot => exact I.slot
    case handed => exact I.handed
    case nodup => exact I.nodup
    case past => exact past_update I.past fun hn => absurd hn hfresh
    case made => exact I.made
    case run => exact I.run
    case wake => exact hwake _
    case ending =>
      exact fun hend =>
        absurd (ending_update hend rfl ⟨rfl, rfl⟩ (by cases inPlace && !stop <;> simp)) hending
    case exited => exact I.exited
  next hbusy =>
    refine ⟨p, ?_⟩
    constructor
    case base => exact I.base.newCall rfl rfl ⟨rfl, rfl, rfl⟩ (by simp) rfl
    case head => exact ⟨fun hn => (by cases hn), fun hn => absurd (I.head.2 hn) hbusy⟩
    case call => exact hother hbusy _ rfl
    case thread => exact I.thread
    case slot => exact I.slot
    case handed => exact I.handed
    case nodup => exact I.nodup
    case past => exact past_update I.past fun hn => absurd hn hfresh
    case made => exact I.made
    case run => exact I.run
    case wake => exact hwake _
    case ending => exact fun hend => absurd (ending_update hend rfl ⟨rfl, rfl⟩ (by simp)) hending
    case exited => exact I.exited

/-- **A step.** -/
theorem Inv.step (I : Inv s p) {a : Act} (h : Tells s a) : ∃ p', Inv (step s a) p' := by
  cases a with
  | push inPlace stop => exact I.pushStep
  | call n w flag => exact I.callStep h
  | thread t flag => exact I.threadStep
  | wakeUp t =>
    simp only [ExecutionQueuePthread.step]
    split
    next hwait =>
      obtain rfl := I.thread_eq (t := t) (by simp [hwait])
      exact ⟨p, I.wakeUp hwait⟩
    · exact ⟨p, I⟩

/-! ## When nothing can move -/

theorem Quiet.call_eq (hq : Quiet s) (hhead : s.head ≠ none) (n : ℕ) :
    s.call n = .absent ∨ s.call n = .done ∨ s.call n = .lock ∧ s.mutex ≠ none := by
  have hsame : ∀ w flag, (callStep s n w flag).call n = s.call n := fun w flag => by rw [hq.1]
  cases h : s.call n with
  | absent => exact .inl rfl
  | done => exact .inr (.inl rfl)
  | lock =>
    refine .inr (.inr ⟨rfl, fun hfree => ?_⟩)
    simpa [callStep, h, hfree, callTo] using hsame 0 false
  | signal =>
    by_cases hwait : ∃ t, s.thread t = .waiting
    · obtain ⟨t, ht⟩ := hwait
      simpa [callStep, h, ht, callTo, threadTo] using hsame t false
    · have hnone : ∀ t, s.thread t ≠ .waiting := not_exists.1 hwait
      simpa [callStep, h, hnone, callTo] using hsame 0 false
  | exec tail =>
    obtain ⟨m, hm⟩ := Option.ne_none_iff_exists'.1 hhead
    by_cases htail : m = tail
    · have hgo := hsame 0 false
      simp only [callStep, h, hm, htail, callTo] at hgo
      cases hs : s.stopped <;> simp [hs] at hgo
    · simpa [callStep, h, hm, htail, callTo] using hsame 0 false
  | inPlace =>
    have hgo := hsame 0 true
    simp [callStep, h, callTo] at hgo
  | test =>
    have hgo := hsame 0 false
    cases hs : s.started <;> simp [callStep, h, hs, callTo] at hgo
  | set | unlock | create | destroy | mark =>
    have hgo := hsame 0 false
    simp [callStep, h, callTo] at hgo

theorem Quiet.thread_eq (hq : Quiet s) (hhead : s.head ≠ none)
    (hrun : s.thread t = .run → s.currentHead ≠ none) :
    s.thread t = .absent ∨ s.thread t = .waiting ∨ s.thread t = .exited ∨ s.mutex ≠ none ∧
    (s.thread t).locks = false ∧
      (s.thread t).place = none := by
  have hsame : ∀ flag, (threadStep s t flag).thread t = s.thread t := fun flag => by rw [hq.2]
  have hgo := hsame false
  cases h : s.thread t with
  | absent => exact .inl rfl
  | waiting => exact .inr (.inl rfl)
  | exited => exact .inr (.inr (.inl rfl))
  | lock | woken =>
    refine .inr (.inr (.inr ⟨fun hfree => ?_, rfl, rfl⟩))
    simp [threadStep, h, hfree, threadTo] at hgo
  | check =>
    by_cases hnone : s.currentHead = none
    · simp [threadStep, h, hnone, threadTo] at hgo
    · simp [threadStep, h, hnone, threadTo] at hgo
  | run =>
    obtain ⟨m, hm⟩ := Option.ne_none_iff_exists'.1 (hrun h)
    simp [threadStep, h, hm, threadTo] at hgo
  | exec tail =>
    obtain ⟨m, hm⟩ := Option.ne_none_iff_exists'.1 hhead
    by_cases htail : m = tail
    · simp only [threadStep, h, hm, htail, threadTo] at hgo
      cases hs : s.stopped <;> simp [hs] at hgo
    · simp [threadStep, h, hm, htail, threadTo] at hgo
  | leave =>
    cases hj : s.joined <;> simp [threadStep, h, hj, threadTo] at hgo
  | start | destroy | reset => simp [threadStep, h, threadTo] at hgo

theorem Inv.idle (I : Inv s p) (hq : Quiet s) : p = none := by
  by_contra hbusy
  have hhead : s.head ≠ none := mt I.head.1 hbusy
  have hthread := hq.thread_eq (t := 0) hhead I.run
  -- Whoever had the mutex could move.
  have hfree : s.mutex = none := by
    cases hm : s.mutex with
    | none => rfl
    | some P =>
      exfalso
      cases P with
      | call n =>
        have hlocks := (I.base.call_locks n).2 hm
        rcases hq.call_eq hhead n with h | h | h
        · simp [h, Call.locks] at hlocks
        · simp [h, Call.locks] at hlocks
        · simp [h.1, Call.locks] at hlocks
      | thread t =>
        have hlocks := (I.base.thread_locks t).2 hm
        have ht : t = 0 := I.thread_eq fun habsent => by simp [habsent, locks] at hlocks
        subst ht
        rcases hthread with h | h | h | ⟨-, h, -⟩
        · simp [h, locks] at hlocks
        · simp [h, locks] at hlocks
        · simp [h, locks] at hlocks
        · rw [h] at hlocks
          cases hlocks
  have hcall : ∀ n, s.call n = .absent ∨ s.call n = .done := by
    intro n
    rcases hq.call_eq hhead n with h | h | h
    · exact .inl h
    · exact .inr h
    · exact absurd hfree h.2
  have hplace : ∀ n, (s.call n).place n = none := by
    intro n
    rcases hcall n with h | h <;> rw [h] <;> rfl
  have hthread' : s.thread 0 = .absent ∨ s.thread 0 = .waiting ∨ s.thread 0 = .exited := by
    rcases hthread with h | h | h | h
    · exact .inl h
    · exact .inr (.inl h)
    · exact .inr (.inr h)
    · exact absurd hfree h.1
  cases p with
  | none => exact hbusy rfl
  | some q =>
    cases q with
    | producer n | giving n | creating n | failed n =>
      have hn := I.call n
      rw [hplace n] at hn
      simp [ofCall] at hn
    | arg n | running =>
      have ht := I.thread
      rcases hthread' with h | h | h <;> rw [h] at ht <;> cases ht
    | slot n =>
      have hmade : s.created = 1 := I.made
      have hslot := I.slot
      rcases hthread' with h | h | h
      · have hle := (I.base.threads 0).1 h
        rw [hmade] at hle
        cases hle
      · have hsome : s.currentHead ≠ none := by
          intro hnone
          simp [State.slot, h, hnone, stale, ofSlot] at hslot
        obtain ⟨m, hm⟩ := I.wake h hsome
        rcases hcall m with h' | h' <;> rw [h'] at hm <;> cases hm
      · exact I.not_ending (.inl (I.exited h))

theorem Inv.sound (I : Inv s p) : Sound s where
  one := I.made.le_one
  nodup := (List.nodup_append'.mp (I.handed ▸ I.nodup)).1
  subset := by
    rw [I.handed]
    exact List.subset_append_left _ _
  all hq := by
    obtain rfl := I.idle hq
    rw [I.handed, show pending none = [] from rfl, List.append_nil]
    exact List.Subset.refl _

end Inv

/-- **One resident pthread, and no head is lost**, in every run where the producers read whether
there is a pthread. -/
theorem run_onePthread (acts : List Act) (h : Along step Tells start acts) :
    Sound (runFrom step start acts) := by
  have hrun : ∃ p, Inv (runFrom step start acts) p :=
    h.run (I := fun s => ∃ p, Inv s p) (fun s a ⟨_, I⟩ ha => I.step ha) ⟨none, start_inv⟩
  obtain ⟨p, I⟩ := hrun
  exact I.sound

/-- Two lists for one pthread, the second one through `_current_head`. -/
theorem run_onePthread_two :
    let acts : List Act :=
  [.push false false, .call 0 0 false, .call 0 0 true, .thread 0 false, .call 0 0 false,
      .thread 0 false, .thread 0 false, .thread 0 false, .thread 0 false, .push false false,
        .call 1 0 false,
      .thread 0 false, .thread 0 false, .call 1 0 false, .call 1 0 false]
    Along step Tells start acts ∧ Sound (runFrom step start acts) := by
  intro acts
  have htells : Along step Tells start acts := by decide
  exact ⟨htells, run_onePthread acts htells⟩

/-- The pthread executes its list before `_pthread_started` is set, and the next producer creates
another one. That one stores its head, the first one resets it, and both wait. -/
def twoPthreads : List Act :=
  [.push false false, .call 0 0 false, .call 0 0 true, .thread 0 false, .thread 0 false, .thread 0 false,
    .thread 0 false, .thread 0 false, .push false false, .call 1 0 false, .call 1 0 true, .thread 1 false,
    .thread 0 false, .thread 0 false, .thread 1 false, .thread 1 false, .thread 0 false, .thread 0 false,
    .call 0 0 false, .call 1 0 false]

theorem two_pthreads :
    (∃ acts, 1 < (runFrom step start acts).created) ∧
      ∃ acts, Quiet (runFrom step start acts) ∧ ¬ (runFrom step start acts).handed
        ⊆ (runFrom step start acts).executed := by
  refine ⟨⟨twoPthreads, by decide⟩, twoPthreads, ⟨?_, ?_⟩, by decide⟩
  · intro n w flag
    have hcall : (runFrom step start twoPthreads).call n = .done ∨
        (runFrom step start twoPthreads).call n = .absent := by
      match n with
      | 0 => exact .inl (by decide)
      | 1 => exact .inl (by decide)
      | n + 2 => exact .inr rfl
    rcases hcall with h | h <;> simp only [callStep, h]
  · intro t flag
    have hthread : (runFrom step start twoPthreads).thread t = .waiting ∨
        (runFrom step start twoPthreads).thread t = .absent := by
      match t with
      | 0 => exact .inl (by decide)
      | 1 => exact .inl (by decide)
      | t + 2 => exact .inr rfl
    rcases hthread with h | h <;> simp only [threadStep, h]

end Eabase.Fiber.ExecutionQueuePthread
