import Mathlib.Data.BitVec
import Eabase.Lib.Machine
import Eabase.Lib.Mpsc
import Eabase.Lib.Places

/-!
# The asynchronous logger

`Log` queues a request by an exchange of `_log_head`. The caller that finds the
head null has the right to write; it writes its own request, hands the list over
to the logging thread, or writes the list itself once the logger was stopped.
Whoever has the right writes the connected requests, returns all but the last,
and closes the list by setting the head from that one to null; when that fails it
turns the newer requests round and goes on.

Every access to shared memory is a step of its own. A flag has the value that its
step finds, a wait on the condition may end at any time, and `get_object` gives
any object that is not in use, or none.
-/

namespace Eabase.Utility.AsyncLogger

open Lib Lib.Mpsc Function List

variable {ι : Type*} [DecidableEq ι]

/-! ## The machine -/

/-- A log: the number of its call of `Log`, and its text. -/
structure Log where
  call : ℕ
  text : String
  deriving DecidableEq

inductive Party (ι : Type*) where
  | thread (t : ι)
  | logger
  deriving DecidableEq

/-- What calls `IsLogComplete`. -/
inductive Caller where
  | logImpl
  | logTask
  deriving DecidableEq

/-- What follows `DoLog(req)`: `IsLogComplete` in `LogImpl`, the return of the request in front of
`m`, `IsLogComplete` in `LogTask`. -/
inductive After where
  | logImpl
  | walk (m : ℕ)
  | last
  deriving DecidableEq

/-- Where a call of `Log` stands. -/
inductive LogPc where
  | isFull (l : Log)
  | loadStop (l : Log)
  | logSync (l : Log)
  | subSync
  | getObject (l : Log)
  deriving DecidableEq

/-- Where `LogImpl` stands: `link` is in front of the store of the node that was the head, and from
`lock` on it is in front of or in the critical section. -/
inductive ImplPc where
  | unconnect (n : ℕ) (l : Log)
  | exchange (n : ℕ) (l : Log)
  | link (n m : ℕ)
  | setNull (n : ℕ)
  | background (n : ℕ)
  | lock (n : ℕ)
  | checkStop (n : ℕ)
  | setCurrent (n : ℕ)
  | signal
  deriving DecidableEq

/-- Where `DoLog(req)` stands. -/
inductive WritePc where
  | doLog (n : ℕ) (k : After)
  | subLog (n : ℕ) (k : After)
  deriving DecidableEq

/-- Where `LogTask` stands; `taskEnd` is behind it, still in the critical section. -/
inductive TaskPc where
  | skip (n : ℕ)
  | walk (n : ℕ)
  | release (n m : ℕ)
  | taskEnd
  deriving DecidableEq

/-- Where `IsLogComplete` stands; `releaseLast` is the return of the request behind it. -/
inductive CompletePc where
  | close (old : ℕ)
  | turn (old : ℕ) (tail : Link ℕ) (q : ℕ)
  | join (old : ℕ) (tail : Link ℕ)
  | releaseLast (old : ℕ)
  deriving DecidableEq

/-- Where `Run` stands. -/
inductive RunPc where
  | lock
  | test
  | check
  | exited
  deriving DecidableEq

/-- Where `StopAndJoin` stands. -/
inductive StopPc where
  | exchange
  | lock
  | signal
  | hasBeenJoined
  | join
  deriving DecidableEq

inductive Pc where
  | idle
  | log (c : LogPc)
  | impl (c : ImplPc)
  | write (c : WritePc)
  | task (c : TaskPc)
  | complete (w : Caller) (c : CompletePc)
  | run (c : RunPc)
  | stop (c : StopPc)
  deriving DecidableEq

/-- The logger and its requests. `live` are the objects that `get_object` gave and nobody returned;
`broken` is the use or the return of another one. -/
structure State (ι : Type*) where
  logHead : Option ℕ
  mutex : Option (Party ι)
  currentLogRequest : Option ℕ
  logRequestCount : BitVec 32
  stop : Bool
  joined : Bool
  next : ℕ → Link ℕ
  data : ℕ → Log
  live : ℕ → Bool
  file : List Log
  pc : Party ι → Pc
  -- the logs of the calls so far, those exchanged, the requests not returned since,
  -- and what the exchange of a request found
  logs : List Log
  exchanged : List Log
  queue : List ℕ
  prev : ℕ → ℕ
  broken : Bool

/-- The logger after its construction; the count of its requests is not set there. -/
def start (ι : Type*) (count : BitVec 32) : State ι where
  logHead := none
  mutex := none
  currentLogRequest := none
  logRequestCount := count
  stop := false
  joined := false
  next _ := .null
  data _ := ⟨0, ""⟩
  live _ := false
  file := []
  pc
    | .thread _ => .idle
    | .logger => .run .lock
  logs := []
  exchanged := []
  queue := []
  prev _ := 0
  broken := false

def State.goto (s : State ι) (p : Party ι) (c : Pc) : State ι :=
  { s with pc := update s.pc p c }

def State.use (s : State ι) (n : ℕ) : State ι :=
  { s with broken := s.broken || !s.live n }

/-- `return_object`. -/
def State.returnObject (s : State ι) (n : ℕ) : State ι :=
  { s.use n with live := update s.live n false }

/-- What a party does that follows a null or unconnected link. -/
def State.fault (s : State ι) : State ι :=
  { s with broken := true }

/-- What a step finds outside of the logger: the flags as its reads give them, and the object. -/
structure Env where
  maxAsyncLogQueueSize : ℤ
  maxAsyncLogQueueSize' : ℤ
  asyncLogInBackgroundAlways : Bool
  object : Option ℕ

/-- The steps of `Log`. -/
def logStep (s : State ι) (p : Party ι) (e : Env) : LogPc → State ι
  | .isFull l =>
    if 0 < e.maxAsyncLogQueueSize then
      { s with logRequestCount := s.logRequestCount + 1 }.goto p
        (.log (if e.maxAsyncLogQueueSize' < s.logRequestCount.toInt then .logSync l else .loadStop l))
    else s.goto p (.log (.loadStop l))
  | .loadStop l => s.goto p (.log (if s.stop then .logSync l else .getObject l))
  | .logSync l => { s with file := s.file ++ [l] }.goto p (.log .subSync)
  | .subSync => { s with logRequestCount := s.logRequestCount - 1 }.goto p .idle
  | .getObject l =>
    match e.object with
    | none => s.goto p (.log (.logSync l))
    | some n =>
      if s.live n then s
      else
        { s with
          live := update s.live n true
          data := update s.data n l }.goto p (.impl (.unconnect n l))

/-- The steps of `LogImpl`; nothing depends on the signal, as a wait may end at any time. -/
def logImplStep (s : State ι) (p : Party ι) (e : Env) : ImplPc → State ι
  | .unconnect n l =>
    { s.use n with next := update s.next n .unconnected }.goto p (.impl (.exchange n l))
  | .exchange n l =>
    match s.logHead with
    | some m =>
      { s with
        logHead := some n, exchanged := s.exchanged ++ [l], queue := s.queue ++ [n]
        prev := update s.prev n m }.goto p (.impl (.link n m))
    | none =>
      { s with
        logHead := some n, exchanged := s.exchanged ++ [l], queue := s.queue ++ [n] }.goto p
        (.impl (.setNull n))
  | .link n m => { s.use n with next := update s.next n (.node m) }.goto p .idle
  | .setNull n =>
    { s.use n with next := update s.next n .null }.goto p (.impl (.background n))
  | .background n =>
    s.goto p (if e.asyncLogInBackgroundAlways then .impl (.lock n) else .write (.doLog n .logImpl))
  | .lock n => if s.mutex = none then { s with mutex := some p }.goto p (.impl (.checkStop n)) else s
  | .checkStop n => s.goto p (if s.stop then .task (.skip n) else .impl (.setCurrent n))
  | .setCurrent n => { s with currentLogRequest := some n }.goto p (.impl .signal)
  | .signal => { s with mutex := none }.goto p .idle

/-- What follows `DoLog(req)`. -/
def After.pc (n : ℕ) : After → Pc
  | .logImpl => .complete .logImpl (.close n)
  | .walk m => .task (.release n m)
  | .last => .complete .logTask (.close n)

/-- The steps of `DoLog(req)`: the string is the writer's alone, and is cleared with the write. -/
def doLogStep (s : State ι) (p : Party ι) : WritePc → State ι
  | .doLog n k =>
    { s.use n with
      file := s.file ++ [s.data n]
      data := update s.data n { s.data n with text := "" } }.goto p (.write (.subLog n k))
  | .subLog n k => { s with logRequestCount := s.logRequestCount - 1 }.goto p (k.pc n)

/-- The steps of `LogTask`. -/
def logTaskStep (s : State ι) (p : Party ι) : TaskPc → State ι
  | .skip n =>
    match s.next n with
    | .null => (s.use n).goto p (.task (.walk n))
    | .node m =>
      if (s.data n).text = "" then
        { s.returnObject n with queue := s.queue.tail }.goto p (.task (.walk m))
      else (s.use n).goto p (.task (.walk n))
    | .unconnected => s.fault
  | .walk n =>
    match s.next n with
    | .null =>
      (s.use n).goto p
        (if (s.data n).text = "" then .complete .logTask (.close n) else .write (.doLog n .last))
    | .node m =>
      (s.use n).goto p
        (if (s.data n).text = "" then .task (.release n m) else .write (.doLog n (.walk m)))
    | .unconnected => s.fault
  | .release n m => { s.returnObject n with queue := s.queue.tail }.goto p (.task (.walk m))
  | .taskEnd =>
    match p with
    | .logger => { s with currentLogRequest := none, mutex := none }.goto p (.run .lock)
    | .thread _ => { s with mutex := none }.goto p .idle

/-- What follows `IsLogComplete` when it returned `false`. -/
def Caller.pc (n : ℕ) : Caller → Pc
  | .logImpl => .impl (.lock n)
  | .logTask => .task (.skip n)

/-- What follows `IsLogComplete` when it returned `true`. -/
def Caller.done : Caller → Pc
  | .logImpl => .idle
  | .logTask => .task .taskEnd

section

variable (s : State ι) (p : Party ι)

/-- The steps of `IsLogComplete`. -/
def isLogCompleteStep (w : Caller) : CompletePc → State ι
  | .close old =>
    match s.logHead with
    | none => s.fault
    | some newHead =>
      if newHead = old then
        { s.use old with logHead := none, queue := [] }.goto p (.complete w (.releaseLast old))
      else (s.use old).goto p (.complete w (.turn old .null newHead))
  | .turn old tail q =>
    match s.next q with
    | .unconnected => s.use q
    | .null => s.fault
    | .node savedNext =>
      { s.use q with next := update s.next q tail }.goto p
        (.complete w
          (if savedNext = old then .join old (.node q) else .turn old (.node q) savedNext))
  | .join old tail =>
    { s.use old with next := update s.next old tail }.goto p (w.pc old)
  | .releaseLast old => (s.returnObject old).goto p w.done

/-- The steps of `Run`, which holds the mutex but in the wait and at the end of a round. -/
def runStep : RunPc → State ι
  | .lock => if s.mutex = none then { s with mutex := some p }.goto p (.run .test) else s
  | .test =>
    if s.stop = false ∧ s.currentLogRequest = none then { s with mutex := none }.goto p (.run .lock)
    else s.goto p (.run .check)
  | .check =>
    match s.currentLogRequest with
    | none => if s.stop then { s with mutex := none }.goto p (.run .exited) else s.fault
    | some n => s.goto p (.task (.skip n))
  | .exited => s

/-- The steps of `StopAndJoin`. -/
def stopStep : StopPc → State ι
  | .exchange =>
    { s with stop := true }.goto p (.stop (if s.stop then .hasBeenJoined else .lock))
  | .lock => if s.mutex = none then { s with mutex := some p }.goto p (.stop .signal) else s
  | .signal => { s with mutex := none }.goto p (.stop .hasBeenJoined)
  | .hasBeenJoined => s.goto p (if s.joined then .idle else .stop .join)
  | .join =>
    if s.pc .logger = .run .exited then { s with joined := true }.goto p .idle else s

def goStep (e : Env) : State ι :=
  match s.pc p with
  | .idle => s
  | .log c => logStep s p e c
  | .impl c => logImplStep s p e c
  | .write c => doLogStep s p c
  | .task c => logTaskStep s p c
  | .complete w c => isLogCompleteStep s p w c
  | .run c => runStep s p c
  | .stop c => stopStep s p c

end

/-- A thread calls `Log` or `StopAndJoin`, or a party goes on. -/
inductive Act (ι : Type*) where
  | log (t : ι) (text : String)
  | stopAndJoin (t : ι)
  | go (p : Party ι) (e : Env)

def step (s : State ι) : Act ι → State ι
  | .log t text =>
    if s.pc (.thread t) = .idle ∧ text ≠ "" then
      { s with logs := s.logs ++ [(⟨s.logs.length, text⟩ : Log)] }.goto (.thread t)
        (.log (.isFull ⟨s.logs.length, text⟩))
    else s
  | .stopAndJoin t =>
    if s.pc (.thread t) = .idle then s.goto (.thread t) (.stop .exchange) else s
  | .go p e => goStep s p e

/-! ## What holds -/

def unlogged (data : ℕ → Log) (q : List ℕ) : List Log :=
  (q.map data).filter (·.text ≠ "")

/-- What is written is what was passed, once each and in the order of the exchanges where there was
one; no request is used after its return; and nothing is left unwritten. -/
structure WritesOnce (s : State ι) : Prop where
  once : s.file.Nodup
  given : s.file ⊆ s.logs
  /-- The logs queued through `LogImpl` are written in the order of the exchanges of `_log_head`. -/
  inOrder : s.file.filter (· ∈ s.exchanged) <+: s.exchanged
  /-- No request was read, written or returned after it was returned. -/
  safe : s.broken = false
  /-- When every call of `Log` returned and nobody has the right to write, all is written. -/
  closed : (∀ t, s.pc (.thread t) = .idle) → s.logHead = none → s.logs ⊆ s.file
  /-- When every call of `Log` and `StopAndJoin` returned, all is written. -/
  joined : (∀ t, s.pc (.thread t) = .idle) → s.joined = true → s.logs ⊆ s.file

/-! ## The invariant -/

/-- The log that a call was given and neither wrote nor queued. -/
def Pc.call : Pc → Option Log
  | .log (.isFull l) | .log (.loadStop l) | .log (.logSync l) | .log (.getObject l) => some l
  | .impl (.unconnect _ l) | .impl (.exchange _ l) => some l
  | _ => none

def Pc.own : Pc → Option ℕ
  | .impl (.unconnect n _) | .impl (.exchange n _) | .complete _ (.releaseLast n) => some n
  | _ => none

def Pc.unlinked : Pc → Option ℕ
  | .impl (.link n _) | .impl (.setNull n) => some n
  | _ => none

def Pc.locked : Pc → Bool
  | .impl (.checkStop _) | .impl (.setCurrent _) | .impl .signal => true
  | .write (.doLog _ k) | .write (.subLog _ k) => k ≠ .logImpl
  | .task _ => true
  | .complete w _ => w = .logTask
  | .run .test | .run .check | .stop .signal => true
  | _ => false

/-- The party is in `LogTask`. -/
def Pc.inTask : Pc → Bool
  | .write (.doLog _ k) | .write (.subLog _ k) => k ≠ .logImpl
  | .task _ => true
  | .complete w _ => w = .logTask
  | _ => false

def Pc.right : Pc → Bool
  | .impl (.setNull _) | .impl (.background _) | .impl (.lock _) | .impl (.checkStop _)
  | .impl (.setCurrent _) => true
  | .write _ => true
  | .task .taskEnd => false
  | .task _ => true
  | .complete _ (.releaseLast _) => false
  | .complete _ _ => true
  | _ => false

inductive Place (ι : Type*) where
  | party (p : Party ι)
  | queue
  | file

def State.logsAt (s : State ι) : Place ι → List Log
  | .party p => (s.pc p).call.toList
  | .queue => unlogged s.data s.queue
  | .file => s.file

def State.nodesAt (s : State ι) : Place ι → List ℕ
  | .party p => (s.pc p).own.toList
  | .queue => s.queue
  | .file => []

/-- Every log is in one place, and those queued are written in order. -/
structure Logs (s : State ι) : Prop where
  places : Exclusive s.logsAt
  given : ∀ π l, l ∈ s.logsAt π → l ∈ s.logs
  text : ∀ p l, (s.pc p).call = some l → l.text ≠ ""
  number : ∀ l ∈ s.logs, l.call < s.logs.length
  total : ∀ l ∈ s.logs, ∃ π, l ∈ s.logsAt π
  inOrder : s.file.filter (· ∈ s.exchanged) ++ unlogged s.data s.queue = s.exchanged

def NodeOk (s : State ι) : Pc → Prop
  | .impl (.unconnect n l) => s.data n = l
  | .impl (.exchange n l) => s.data n = l ∧ s.next n = .unconnected
  | .impl (.link n m) => n ∈ s.queue ∧ s.next n = .unconnected ∧ s.prev n = m
  | _ => True

structure Nodes (s : State ι) : Prop where
  places : Exclusive s.nodesAt
  live : ∀ π n, n ∈ s.nodesAt π → s.live n = true
  head : s.logHead = s.queue.getLast?
  unlinked : ∀ p q n, (s.pc p).unlinked = some n → (s.pc q).unlinked = some n → p = q
  pcs : ∀ p, NodeOk s (s.pc p)

section

variable (s : State ι)

def State.Split (conn older turned : List ℕ) (e : Link ℕ) : Prop :=
  ∃ newer, s.queue = conn ++ older ++ turned ++ newer ∧
    Shape s.next s.prev conn older turned newer e

/-- The request at the front of the queue, with others connected to it. -/
def State.Front (n : ℕ) : Prop :=
  ∃ rest, s.Split (n :: rest) [] [] .null

/-- The request that is written, and what is connected to it as `k` will find it. -/
def State.Writes (n : ℕ) : After → Prop
  | .walk m => ∃ rest, s.Split (n :: m :: rest) [] [] .null
  | _ => s.Split [n] [] [] .null

def RightOk : Pc → Prop
  | .impl (.setNull n) => s.Split [n] [] [] .unconnected ∧ (s.data n).text ≠ ""
  | .impl (.background n) => s.Split [n] [] [] .null ∧ (s.data n).text ≠ ""
  | .impl (.lock n) | .impl (.checkStop n) | .impl (.setCurrent n) => s.Front n
  | .write (.doLog n k) => s.Writes n k ∧ (s.data n).text ≠ ""
  | .write (.subLog n k) => s.Writes n k ∧ (s.data n).text = ""
  | .task (.skip n) | .task (.walk n) => s.Front n
  | .task (.release n m) => s.Writes n (.walk m) ∧ (s.data n).text = ""
  | .complete _ (.close old) => s.Split [old] [] [] .null ∧ (s.data old).text = ""
  | .complete _ (.turn old tail q) =>
    ∃ older turned, s.Split [old] (older ++ [q]) turned .null ∧ tail = first turned .null
  | .complete _ (.join old tail) => ∃ turned, s.Split [old] [] turned .null ∧ tail = first turned .null
  | _ => True

/-- Who has the right to write: a party, or `none` when `_current_log_request` waits for the logging
thread. -/
def State.Has : Option (Party ι) → Prop
  | some p => (s.pc p).right = true
  | none => s.currentLogRequest ≠ none ∧ (s.pc .logger).inTask = false

def State.HasOk : Option (Party ι) → Prop
  | some p => RightOk s (s.pc p)
  | none => ∀ n, s.currentLogRequest = some n → s.Front n

end

/-- The right to write is one party's, as long as there are requests. -/
structure Rights (s : State ι) : Prop where
  right : s.queue ≠ [] → ∃ w, s.Has w
  one : ∀ w w', s.Has w → s.Has w' → w = w'
  has : ∀ w, s.Has w → s.HasOk w

/-- The logging thread, what it finds under the mutex, and its end. -/
structure Sections (s : State ι) : Prop where
  thread : ∀ t c, s.pc (.thread t) ≠ .run c
  logger : (s.pc .logger).inTask = true ∨ ∃ c, s.pc .logger = .run c
  check : s.pc .logger = .run .check → s.stop = true ∨ s.currentLogRequest ≠ none
  setCurrent : ∀ p n, s.pc p = .impl (.setCurrent n) → s.pc .logger ≠ .run .exited
  exited : s.pc .logger = .run .exited → s.stop = true ∧ s.currentLogRequest = none
  joined : s.joined = true → s.pc .logger = .run .exited

open State

open Option

open Split

structure Inv (s : State ι) : Prop where
  logs : Logs s
  nodes : Nodes s
  rights : Rights s
  mutex : ∀ p, s.mutex = some p ↔ (s.pc p).locked = true
  sections : Sections s
  safe : s.broken = false

section Steps

variable {s s' : State ι} {p q : Party ι} {c c₀ : Pc} {n m old : ℕ} {l : Log} {tail e : Link ℕ}
variable {conn older turned rest : List ℕ} {data data' : ℕ → Log} {π : Place ι} {v : Link ℕ}
  {w : Caller} {k : After} {mu : Option (Party ι)}

@[simp] theorem goto_self : (s.goto p c).pc p = c := update_self ..

theorem goto_ne (h : q ≠ p) : (s.goto p c).pc q = s.pc q := update_of_ne h ..

theorem forall_goto {P : Party ι → Pc → Prop} (hp : P p c) (hrest : ∀ q ≠ p, P q (s.pc q))
    (q : Party ι) : P q ((s.goto p c).pc q) := by
  obtain rfl | hq := eq_or_ne q p
  · rw [goto_self]
    exact hp
  · rw [goto_ne hq]
    exact hrest q hq

/-! ### The logs -/

theorem unlogged_append (q q' : List ℕ) :
    unlogged data (q ++ q') = unlogged data q ++ unlogged data q' := by
  simp only [unlogged, map_append, filter_append]

theorem unlogged_cons (h : (data n).text ≠ "") (q : List ℕ) :
    unlogged data (n :: q) = data n :: unlogged data q := by
  exact filter_cons_of_pos (by simpa using h)

theorem unlogged_cons_logged (h : (data n).text = "") (q : List ℕ) :
    unlogged data (n :: q) = unlogged data q := by
  exact filter_cons_of_neg (by simpa using h)

theorem unlogged_congr {q : List ℕ} (h : ∀ n ∈ q, data' n = data n) :
    unlogged data' q = unlogged data q := by
  simp only [unlogged, map_congr_left h]

theorem Logs.goto (h : Logs s) (hcall : c.call = (s.pc p).call) : Logs (s.goto p c) := by
  have heq : (s.goto p c).logsAt = s.logsAt := by
    ext1 π
    cases π with
    | party q =>
      show ((s.goto p c).pc q).call.toList = _
      obtain rfl | hq := eq_or_ne q p
      · rw [goto_self, hcall]
        rfl
      · rw [goto_ne hq]
        rfl
    | queue => rfl
    | file => rfl
  exact {
    places := heq ▸ h.places
    given := heq ▸ h.given
    text := fun q => by
      refine forall_goto (P := fun _ c => ∀ l, c.call = some l → l.text ≠ "") ?_ ?_ q
      · rw [hcall]
        exact h.text p
      · exact fun q _ => h.text q
    number := h.number
    total := heq ▸ h.total
    inOrder := h.inOrder }

section

omit [DecidableEq ι]

/-- The requests of the queue and their logs are the same as far as they are not written. -/
theorem Logs.same (h : Logs s) (hq : unlogged s'.data s'.queue = unlogged s.data s.queue)
    (hpc : s'.pc = s.pc) (hfile : s'.file = s.file) (hlogs : s'.logs = s.logs)
    (hex : s'.exchanged = s.exchanged) : Logs s' := by
  have heq : s'.logsAt = s.logsAt := by
    ext1 π
    cases π with
    | party q => show (s'.pc q).call.toList = _; rw [hpc]; rfl
    | queue => exact hq
    | file => exact hfile
  exact {
    places := heq ▸ h.places
    given := by rw [heq, hlogs]; exact h.given
    text := by rw [hpc]; exact h.text
    number := by rw [hlogs]; exact h.number
    total := by rw [heq, hlogs]; exact h.total
    inOrder := by rw [hq, hfile, hex]; exact h.inOrder }

theorem Logs.exchanged_mem (h : Logs s) (hl : l ∈ s.exchanged) :
    l ∈ s.file ∨ l ∈ unlogged s.data s.queue := by
  rw [← h.inOrder, mem_append] at hl
  exact hl.imp_left mem_of_mem_filter

theorem Logs.notMem_exchanged (h : Logs s) (hcall : (s.pc p).call = some l) : l ∉ s.exchanged := by
  intro hl
  have hp : l ∈ s.logsAt (.party p) := mem_toList.2 hcall
  rcases h.exchanged_mem hl with hl | hl
  · cases h.places.place_eq (q := Place.file) hp hl
  · cases h.places.place_eq (q := Place.queue) hp hl

end

/-! ### The requests -/

omit [DecidableEq ι] in
theorem NodeOk.mono (h : NodeOk s c)
    (hown : ∀ n, c.own = some n → s'.data n = s.data n ∧ s'.next n = s.next n)
    (hlink : ∀ n, c.unlinked = some n → n ∈ s.queue → s.next n = .unconnected →
      n ∈ s'.queue ∧ s'.next n = s.next n ∧ s'.prev n = s.prev n) : NodeOk s' c := by
  match c with
  | .impl (.unconnect n l) => exact (hown n rfl).1.trans h
  | .impl (.exchange n l) => exact ⟨(hown n rfl).1.trans h.1, (hown n rfl).2.trans h.2⟩
  | .impl (.link n m) =>
    obtain ⟨hq, hn, hp⟩ := hlink n rfl h.1 h.2.1
    exact ⟨hq, hn.trans h.2.1, hp.trans h.2.2⟩
  | .idle | .log _ | .write _ | .task _ | .complete _ _ | .run _ | .stop _ => trivial
  | .impl (.setNull _) | .impl (.background _) | .impl (.lock _) | .impl (.checkStop _)
  | .impl (.setCurrent _) | .impl .signal => trivial

theorem unlinked_goto (h : Nodes s) (hpc : s'.pc = (s.goto p c).pc)
    (hun : ∀ n, c.unlinked = some n → ∀ q ≠ p, (s.pc q).unlinked ≠ some n) (q q' : Party ι) (n : ℕ)
    (hq : (s'.pc q).unlinked = some n) (hq' : (s'.pc q').unlinked = some n) : q = q' := by
  rw [hpc] at hq hq'
  obtain rfl | hqp := eq_or_ne q p
  · rw [goto_self] at hq
    by_contra hne
    rw [goto_ne (.symm hne)] at hq'
    exact hun n hq q' (.symm hne) hq'
  · rw [goto_ne hqp] at hq
    obtain rfl | hqp' := eq_or_ne q' p
    · rw [goto_self] at hq'
      exact absurd hq (hun n hq' q hqp)
    · rw [goto_ne hqp'] at hq'
      exact h.unlinked q q' n hq hq'

theorem nodesAt_goto (hown : c.own = (s.pc p).own) : (s.goto p c).nodesAt = s.nodesAt := by
  ext1 π
  cases π with
  | party q =>
    show ((s.goto p c).pc q).own.toList = _
    obtain rfl | hq := eq_or_ne q p
    · rw [goto_self, hown]
      rfl
    · rw [goto_ne hq]
      rfl
  | queue => rfl
  | file => rfl

theorem Nodes.goto (h : Nodes s) (hown : c.own = (s.pc p).own) (hun : c.unlinked = none)
    (hok : NodeOk s c) : Nodes (s.goto p c) := by
  have heq : (s.goto p c).nodesAt = s.nodesAt := nodesAt_goto hown
  exact {
    places := heq ▸ h.places
    live := heq ▸ h.live
    head := h.head
    unlinked := unlinked_goto h rfl (by rw [hun]; nofun)
    pcs := forall_goto (P := fun _ c => NodeOk s c) hok fun q _ => h.pcs q }

section

omit [DecidableEq ι]

section

variable (h : Nodes s) (hown : (s.pc p).own = some n)
include h hown

theorem Nodes.own_live : s.live n = true :=
  h.live (.party p) n (mem_toList.2 hown)

theorem Nodes.own_notMem : n ∉ s.queue := by
  intro hq
  have hp : n ∈ s.nodesAt (.party p) := mem_toList.2 hown
  cases h.places.place_eq (q := Place.queue) hp hq

theorem Nodes.own_ne (hq : q ≠ p) :
    (s.pc q).own ≠ some n := by
  intro hown'
  have hp : n ∈ s.nodesAt (.party p) := mem_toList.2 hown
  have hq' : n ∈ s.nodesAt (.party q) := mem_toList.2 hown'
  cases h.places.place_eq hp hq'
  exact hq rfl

end

theorem Nodes.queue_live (h : Nodes s) (hn : n ∈ s.queue) : s.live n = true :=
  h.live .queue n hn

@[simp] theorem use_eq (hn : s.live n = true) : s.use n = s := by
  simp [use, hn]

end

/-! ### The right to write -/

section

omit [DecidableEq ι]

theorem Split.mem (h : s.Split conn older turned e) (hn : n ∈ conn) : n ∈ s.queue := by
  obtain ⟨newer, hq, -⟩ := h
  rw [hq]
  simp [hn]

theorem RightOk.mono (h : RightOk s c)
    (hnull : ∀ conn older turned, s.Split conn older turned .null → s'.Split conn older turned .null)
    (hset : ∀ n, c = .impl (.setNull n) → s.Split [n] [] [] .unconnected →
      s'.Split [n] [] [] .unconnected)
    (hdata : ∀ n ∈ s.queue, s'.data n = s.data n) : RightOk s' c := by
  have hfront : ∀ {n}, s.Front n → s'.Front n := fun ⟨rest, hr⟩ => ⟨rest, hnull _ _ _ hr⟩
  have hwrites : ∀ {n k}, s.Writes n k → s'.Writes n k ∧ n ∈ s.queue := by
    intro n k hw
    cases k with
    | walk m =>
      obtain ⟨rest, hr⟩ := hw
      exact ⟨⟨rest, hnull _ _ _ hr⟩, mem hr (mem_cons_self ..)⟩
    | logImpl => exact ⟨hnull _ _ _ hw, mem hw (mem_cons_self ..)⟩
    | last => exact ⟨hnull _ _ _ hw, mem hw (mem_cons_self ..)⟩
  match c with
  | .impl (.setNull n) =>
    rw [RightOk, hdata n (mem h.1 (mem_cons_self ..))]
    exact ⟨hset n rfl h.1, h.2⟩
  | .impl (.background n) =>
    rw [RightOk, hdata n (mem h.1 (mem_cons_self ..))]
    exact ⟨hnull _ _ _ h.1, h.2⟩
  | .impl (.lock n) | .impl (.checkStop n) | .impl (.setCurrent n) => exact hfront h
  | .write (.doLog n k) =>
    obtain ⟨hw, hq⟩ := hwrites h.1
    rw [RightOk, hdata n hq]
    exact ⟨hw, h.2⟩
  | .write (.subLog n k) =>
    obtain ⟨hw, hq⟩ := hwrites h.1
    rw [RightOk, hdata n hq]
    exact ⟨hw, h.2⟩
  | .task (.skip n) | .task (.walk n) => exact hfront h
  | .task (.release n m) =>
    obtain ⟨hw, hq⟩ := hwrites h.1
    rw [RightOk, hdata n hq]
    exact ⟨hw, h.2⟩
  | .complete w (.close old) =>
    rw [RightOk, hdata old (mem h.1 (mem_cons_self ..))]
    exact ⟨hnull _ _ _ h.1, h.2⟩
  | .complete w (.turn old tail q) =>
    obtain ⟨older, turned, hs, ht⟩ := h
    exact ⟨older, turned, hnull _ _ _ hs, ht⟩
  | .complete w (.join old tail) =>
    obtain ⟨turned, hs, ht⟩ := h
    exact ⟨turned, hnull _ _ _ hs, ht⟩
  | .complete w (.releaseLast old) => trivial
  | .idle | .log _ | .run _ | .stop _ => trivial
  | .impl (.unconnect _ _) | .impl (.exchange _ _) | .impl (.link _ _) | .impl .signal => trivial
  | .task .taskEnd => trivial

theorem Rights.sole {w : Option (Party ι)} (hw : s.Has w) (hone : ∀ w', s.Has w' → w' = w)
    (hok : s.HasOk w) : Rights s where
  right := fun _ => ⟨w, hw⟩
  one := fun w1 w2 h1 h2 => (hone w1 h1).trans (hone w2 h2).symm
  has := fun w' hw' => hone w' hw' ▸ hok

theorem Rights.nobody (hq : s.queue = []) (hno : ∀ w, ¬ s.Has w) : Rights s where
  right := fun hne => absurd hq hne
  one := fun w _ hw => absurd hw (hno w)
  has := fun w hw => absurd hw (hno w)

theorem Rights.stay (h : Rights s) (hhas : ∀ w, s'.Has w ↔ s.Has w)
    (hq : s'.queue ≠ [] → s.queue ≠ []) (hok : ∀ w, s.Has w → s.HasOk w → s'.HasOk w) :
    Rights s' where
  right := fun hne => by
    obtain ⟨w, hw⟩ := h.right (hq hne)
    exact ⟨w, (hhas w).mpr hw⟩
  one := fun w w' hw hw' => h.one w w' ((hhas w).mp hw) ((hhas w').mp hw')
  has := fun w hw => hok w ((hhas w).mp hw) (h.has w ((hhas w).mp hw))

end

theorem has_goto (hr : (s.pc p).right = false) (hr' : c.right = false)
    (hin : p = .logger → c.inTask = (s.pc p).inTask) (w : Option (Party ι)) :
    (s.goto p c).Has w ↔ s.Has w := by
  cases w with
  | none =>
    show _ ∧ ((s.goto p c).pc .logger).inTask = false ↔ _ ∧ (s.pc .logger).inTask = false
    obtain rfl | hp := eq_or_ne .logger p
    · rw [goto_self, hin rfl]
      rfl
    · rw [goto_ne hp]
      rfl
  | some q =>
    show ((s.goto p c).pc q).right = true ↔ (s.pc q).right = true
    obtain rfl | hq := eq_or_ne q p
    · rw [goto_self, hr, hr']
    · rw [goto_ne hq]

theorem has_goto_sole (hone : ∀ w, s.Has w → w = some p) (hin : p = .logger → c.inTask = true)
    (w : Option (Party ι)) (hw : (s.goto p c).Has w) : w = some p := by
  cases w with
  | none =>
    obtain rfl | hp := eq_or_ne .logger p
    · have hno := hw.2
      rw [goto_self, hin rfl] at hno
      cases hno
    · have hno := hw.2
      rw [goto_ne hp] at hno
      exact hone none ⟨hw.1, hno⟩
  | some q =>
    by_cases hq : q = p
    · rw [hq]
    · have hq' : ((s.goto p c).pc q).right = true := hw
      rw [goto_ne hq] at hq'
      exact hone (some q) hq'

theorem Rights.owner (hone : ∀ w, s.Has w → w = some p) (hr : c.right = true)
    (hin : p = .logger → c.inTask = true) (hpc : s'.pc = (s.goto p c).pc)
    (hcur : s'.currentLogRequest = s.currentLogRequest) (hok : RightOk s' c) : Rights s' := by
  have hself : s'.pc p = c := by rw [hpc, goto_self]
  refine Rights.sole (w := some p) ?_ ?_ ?_
  · rw [State.Has, hself]
    exact hr
  · intro w hw
    refine has_goto_sole (c := c) hone hin w ?_
    cases w <;> simpa only [State.Has, hpc, hcur, goto] using hw
  · rw [State.HasOk, hself]
    exact hok

/-! ### The mutex and the logging thread -/

theorem mutex_keep (h : Inv s) (hc : c.locked = (s.pc p).locked) (q : Party ι) :
    s.mutex = some q ↔ ((s.goto p c).pc q).locked = true := by
  refine forall_goto (P := fun q c => s.mutex = some q ↔ c.locked = true) ?_ ?_ q
  · rw [hc]
    exact h.mutex p
  · exact fun q _ => h.mutex q

theorem mutex_take (h : Inv s) (hm : s.mutex = none) (hc : c.locked = true) (q : Party ι) :
    some p = some q ↔ ((s.goto p c).pc q).locked = true := by
  refine forall_goto (P := fun q c => some p = some q ↔ c.locked = true) ?_ ?_ q
  · simp [hc]
  · intro q hq
    have hno := h.mutex q
    rw [hm] at hno
    simp [Ne.symm hq, ← hno]

theorem mutex_drop (h : Inv s) (hp : (s.pc p).locked = true) (hc : c.locked = false)
    (q : Party ι) : none = some q ↔ ((s.goto p c).pc q).locked = true := by
  have hm := (h.mutex p).2 hp
  refine forall_goto (P := fun q c => none = some q ↔ c.locked = true) ?_ ?_ q
  · simp [hc]
  · intro q hq
    have hno := h.mutex q
    rw [hm] at hno
    simp [← hno, Ne.symm hq]

omit [DecidableEq ι] in
theorem Sections.ne_logger (h : Sections s) (hin : (s.pc p).inTask = false)
    (hrun : ∀ c, s.pc p ≠ .run c) : p ≠ .logger := by
  rintro rfl
  rcases h.logger with hl | ⟨c, hl⟩
  · rw [hin] at hl
    cases hl
  · exact hrun c hl

theorem Sections.goto (h : Sections s) (hp : p ≠ .logger) (hrun : ∀ c', c ≠ .run c')
    (hset : ∀ n, c = .impl (.setCurrent n) → s.stop = false) : Sections (s.goto p c) := by
  have hl : (s.goto p c).pc .logger = s.pc .logger := goto_ne (.symm hp)
  constructor
  · intro t c'
    refine forall_goto (P := fun q c => q = .thread t → c ≠ .run c') ?_ ?_ (.thread t) rfl
    · exact fun _ => hrun c'
    · rintro _ _ rfl
      exact h.thread t c'
  · rw [hl]
    exact h.logger
  · rw [hl]
    exact h.check
  · intro q n hq
    rw [hl]
    refine forall_goto (P := fun q c => c = .impl (.setCurrent n) →
      s.pc .logger ≠ .run .exited) ?_ ?_ q hq
    · intro hc he
      have hstop := (h.exited he).1
      rw [hset n hc] at hstop
      cases hstop
    · exact fun q _ hq => h.setCurrent q n hq
  · rw [hl]
    exact h.exited
  · rw [hl]
    exact h.joined

theorem Sections.task (h : Sections s) (hp : s.pc p ≠ .run .exited) (hc : c.inTask = true) :
    Sections (s.goto p c) := by
  obtain rfl | hpl := eq_or_ne p .logger
  · have hc' : ∀ r, c ≠ .run r := by
      rintro r rfl
      cases hc
    constructor
    · exact fun t c' => by rw [goto_ne (by nofun)]; exact h.thread t c'
    · exact .inl (by rw [goto_self]; exact hc)
    · rw [goto_self]
      exact fun he => absurd he (hc' _)
    · rw [goto_self]
      exact fun _ _ _ => hc' _
    · rw [goto_self]
      exact fun he => absurd he (hc' _)
    · exact fun hj => absurd (h.joined hj) hp
  · refine h.goto hpl ?_ ?_
    · rintro r rfl
      cases hc
    · rintro n rfl
      cases hc

omit [DecidableEq ι] in
theorem Sections.inTask_logger (h : Sections s) (hpc : s.pc p = c₀) (hrun : ∀ c', c₀ ≠ .run c')
    (hp : p = .logger) : c₀.inTask = true := by
  subst hp hpc
  rcases h.logger with hl | ⟨c', hc'⟩
  · exact hl
  · exact absurd hc' (hrun c')

theorem Sections.keep (h : Sections s) (hpc : s.pc p = c₀) (hin : c.inTask = c₀.inTask)
    (hrun0 : ∀ c', c₀ ≠ .run c') (hrun : ∀ c', c ≠ .run c') (hset : ∀ n, c ≠ .impl (.setCurrent n)) :
    Sections (s.goto p c) := by
  by_cases hc : c₀.inTask = true
  · exact h.task (hpc ▸ hrun0 _) (hin.trans hc)
  · have hp : p ≠ .logger := fun hp => hc (h.inTask_logger hpc hrun0 hp)
    exact h.goto hp hrun fun n hn => absurd hn (hset n)

/-! ### The steps -/

omit [DecidableEq ι] in
theorem Inv.count (h : Inv s) (v : BitVec 32) : Inv { s with logRequestCount := v } where
  logs := { h.logs with }
  nodes := { h.nodes with }
  rights := { h.rights with }
  mutex := h.mutex
  sections := { h.sections with }
  safe := h.safe

section

variable (h : Inv s) (hpc : s.pc p = c₀) (hcall : c.call = c₀.call) (hown : c.own = c₀.own)
    (hun : c.unlinked = none) (hok : NodeOk s c)
include h hpc hcall hown hun hok

/-- A party without the right to write goes on, and nothing changes but the mutex. -/
theorem Inv.outside
    (hr : c₀.right = false) (hr' : c.right = false) (hin : p = .logger → c.inTask = c₀.inTask)
    (hmutex : ∀ q, mu = some q ↔ ((s.goto p c).pc q).locked = true)
    (hsec : Sections (s.goto p c)) : Inv ({ s with mutex := mu }.goto p c) := by
  subst hpc
  have hrights : Rights (s.goto p c) := by
    refine h.rights.stay (has_goto hr hr' hin) id fun w hw hok => ?_
    cases w with
    | none => exact hok
    | some q =>
      have hq : q ≠ p := by
        rintro rfl
        rw [State.Has, hr] at hw
        cases hw
      show RightOk _ ((s.goto p c).pc q)
      rw [goto_ne hq]
      exact hok.mono (fun _ _ _ => id) (fun _ _ => id) fun _ _ => rfl
  exact {
    logs := { h.logs.goto hcall with }
    nodes := { h.nodes.goto hown hun hok with }
    rights := { hrights with }
    mutex := hmutex
    sections := { hsec with }
    safe := h.safe }

theorem Inv.inside (hr : c₀.right = true) (hr' : c.right = true) (hright : RightOk s c)
    (hin : p = .logger → c.inTask = true)
    (hmutex : ∀ q, mu = some q ↔ ((s.goto p c).pc q).locked = true)
    (hsec : Sections (s.goto p c)) : Inv ({ s with mutex := mu }.goto p c) := by
  subst hpc
  have hrights : Rights (s.goto p c) :=
    Rights.owner (fun w hw => h.rights.one w (some p) hw hr) hr' hin rfl rfl
      (hright.mono (fun _ _ _ => id) (fun _ _ => id) fun _ _ => rfl)
  exact {
    logs := { h.logs.goto hcall with }
    nodes := { h.nodes.goto hown hun hok with }
    rights := { hrights with }
    mutex := hmutex
    sections := { hsec with }
    safe := h.safe }

end

theorem Inv.thread (h : Inv s) (hp : p ≠ .logger) (hpc : s.pc p = c₀) (hcall : c.call = c₀.call)
    (hown : c.own = c₀.own) (hun : c.unlinked = none) (hok : NodeOk s c) (hr : c₀.right = false)
    (hr' : c.right = false) (hlocked : c.locked = c₀.locked) (hrun : ∀ c', c ≠ .run c') :
    Inv (s.goto p c) := by
  refine h.outside hpc hcall hown hun hok hr hr' (fun he => absurd he hp)
    (mutex_keep h (hpc ▸ hlocked)) (h.sections.goto hp hrun ?_)
  rintro n rfl
  cases hr'

theorem Rights.mono (h : Rights s) (hr : (s.pc p).right = false) (hr' : c.right = false)
    (hin : p = .logger → c.inTask = (s.pc p).inTask) (hpc : s'.pc = (s.goto p c).pc)
    (hcur : s'.currentLogRequest = s.currentLogRequest) (hq : s'.queue ≠ [] → s.queue ≠ [])
    (hnull : ∀ conn older turned, s.Split conn older turned .null → s'.Split conn older turned .null)
    (hset : ∀ q n, q ≠ p → s.pc q = .impl (.setNull n) → s.Split [n] [] [] .unconnected →
      s'.Split [n] [] [] .unconnected)
    (hdata : ∀ n ∈ s.queue, s'.data n = s.data n) : Rights s' := by
  have hhas : ∀ w, s'.Has w ↔ s.Has w := by
    intro w
    rw [← has_goto (c := c) hr hr' hin w]
    cases w <;> simp only [State.Has, hpc, hcur, goto]
  refine h.stay hhas hq fun w hw hok => ?_
  cases w with
  | none =>
    intro n hn
    obtain ⟨rest, hrest⟩ := hok n (hcur ▸ hn)
    exact ⟨rest, hnull _ _ _ hrest⟩
  | some q =>
    have hqp : q ≠ p := by
      rintro rfl
      rw [State.Has, hr] at hw
      cases hw
    show RightOk _ (s'.pc q)
    rw [hpc, goto_ne hqp]
    exact RightOk.mono hok hnull (fun n => hset q n hqp) hdata

theorem pcs_goto (h : Nodes s) (hpc : s'.pc = (s.goto p c).pc) (hok : NodeOk s' c)
    (hown : ∀ q ≠ p, ∀ n, (s.pc q).own = some n → s'.data n = s.data n ∧ s'.next n = s.next n)
    (hlink : ∀ q ≠ p, ∀ n, (s.pc q).unlinked = some n → n ∈ s.queue → s.next n = .unconnected →
      n ∈ s'.queue ∧ s'.next n = s.next n ∧ s'.prev n = s.prev n) (q : Party ι) :
    NodeOk s' (s'.pc q) := by
  rw [hpc]
  exact forall_goto (P := fun _ c => NodeOk s' c) hok
    (fun q hq => (h.pcs q).mono (hown q hq) (hlink q hq)) q

omit [DecidableEq ι] in
theorem Logs.move (h : Logs s) {a b : Place ι} (hne : a ≠ b)
    (hfrom : s.logsAt a = l :: s'.logsAt a) (hto : s'.logsAt b = s.logsAt b ++ [l])
    (hrest : ∀ π, π ≠ a → π ≠ b → s'.logsAt π = s.logsAt π) (hlogs : s'.logs = s.logs)
    (htext : ∀ p l, (s'.pc p).call = some l → l.text ≠ "")
    (hin : s'.file.filter (· ∈ s'.exchanged) ++ unlogged s'.data s'.queue = s'.exchanged) :
    Logs s' := by
  have hsub : (s'.logsAt a ++ s'.logsAt b).Subperm (s.logsAt a ++ s.logsAt b) := by
    rw [hfrom, hto, ← append_assoc]
    exact (perm_append_singleton ..).subperm
  constructor
  · exact h.places.move hne hsub hrest
  · intro π l' hl'
    obtain ⟨π', hπ'⟩ := Exclusive.mem_of_move hsub hrest hl'
    rw [hlogs]
    exact h.given π' l' hπ'
  · exact htext
  · rw [hlogs]
    exact h.number
  · intro l' hl'
    rw [hlogs] at hl'
    obtain ⟨π, hπ⟩ := h.total l' hl'
    by_cases ha : π = a
    · rw [ha, hfrom, mem_cons] at hπ
      rcases hπ with rfl | hπ
      · exact ⟨b, by rw [hto]; simp⟩
      · exact ⟨a, hπ⟩
    by_cases hb : π = b
    · exact ⟨b, by rw [hto, ← hb]; exact mem_append_left _ hπ⟩
    · exact ⟨π, by rw [hrest π ha hb]; exact hπ⟩
  · exact hin

theorem text_goto (h : Logs s) (hpc : s'.pc = (s.goto p c).pc) (hc : c.call = none) (q : Party ι)
    (l : Log) (hl : (s'.pc q).call = some l) : l.text ≠ "" := by
  rw [hpc] at hl
  refine forall_goto (P := fun _ c => ∀ l, c.call = some l → l.text ≠ "") ?_ ?_ q l hl
  · rw [hc]
    nofun
  · exact fun q _ => h.text q

omit [DecidableEq ι] in
theorem logsAt_party (hcall : (s.pc p).call = some l) : s.logsAt (.party p) = [l] := by
  simp only [logsAt, hcall, toList_some]

theorem logSync_inv (h : Inv s) (hpc : s.pc p = .log (.logSync l)) :
    Inv ({ s with file := s.file ++ [l] }.goto p (.log .subSync)) := by
  have hp : p ≠ .logger := h.sections.ne_logger (by rw [hpc]; rfl) (by rw [hpc]; nofun)
  have hcall : (s.pc p).call = some l := by rw [hpc]; rfl
  have hex := h.logs.notMem_exchanged hcall
  have hr : (s.pc p).right = false := by rw [hpc]; rfl
  have hlogs : Logs ({ s with file := s.file ++ [l] }.goto p (.log .subSync)) := by
    refine h.logs.move (a := .party p) (b := .file) (l := l) nofun ?_ rfl ?_ rfl
      (text_goto h.logs rfl rfl) ?_
    · rw [logsAt_party hcall]
      simp only [logsAt, goto_self]
      rfl
    · rintro (q | _ | _) hq hπ
      · simp only [logsAt, ne_eq, Place.party.injEq] at hq ⊢
        rw [goto_ne hq]
      · rfl
      · exact absurd rfl hπ
    · show (s.file ++ [l]).filter (· ∈ s.exchanged) ++ _ = s.exchanged
      rw [filter_append, filter_cons_of_neg (by simpa using hex), filter_nil, append_nil]
      exact h.logs.inOrder
  have hrights : Rights (s.goto p (.log .subSync)) :=
    h.rights.mono hr rfl (fun he => absurd he hp) rfl rfl id (fun _ _ _ => id)
      (fun _ _ _ _ => id) fun _ _ => rfl
  exact {
    logs := hlogs
    nodes := { h.nodes.goto (p := p) (c := .log .subSync) (by rw [hpc]; rfl) rfl trivial with }
    rights := { hrights with }
    mutex := mutex_keep h (by rw [hpc]; rfl)
    sections := { h.sections.goto hp (c := .log .subSync) nofun nofun with }
    safe := h.safe }

omit [DecidableEq ι] in
theorem Nodes.notMem_of_dead (h : Nodes s) (hn : s.live n = false) (π : Place ι) :
    n ∉ s.nodesAt π := by
  intro hmem
  rw [h.live π n hmem] at hn
  cases hn

theorem getObject_inv (h : Inv s) (hpc : s.pc p = .log (.getObject l)) (hn : s.live n = false) :
    Inv ({ s with
      live := update s.live n true
      data := update s.data n l }.goto p (.impl (.unconnect n l))) := by
  have hp : p ≠ .logger := h.sections.ne_logger (by rw [hpc]; rfl) (by rw [hpc]; nofun)
  have hdead := h.nodes.notMem_of_dead hn
  have hdata : ∀ m ∈ s.queue, update s.data n l m = s.data m := by
    intro m hm
    have hne : m ≠ n := fun he => hdead .queue (he ▸ hm)
    exact update_of_ne hne ..
  have hsame : Logs { s with
      live := update s.live n true, data := update s.data n l } :=
    h.logs.same (unlogged_congr hdata) rfl rfl rfl rfl
  have hnodes : Nodes ({ s with
      live := update s.live n true
      data := update s.data n l }.goto p (.impl (.unconnect n l))) := by
    have hother : ∀ π, π ≠ .party p → nodesAt (s.goto p (.impl (.unconnect n l))) π =
        s.nodesAt π := by
      rintro (q | _ | _) hq
      · simp only [nodesAt, ne_eq, Place.party.injEq] at hq ⊢
        rw [goto_ne hq]
      · rfl
      · rfl
    have hself : nodesAt (s.goto p (.impl (.unconnect n l))) (.party p) = [n] := by
      simp only [nodesAt, goto_self]
      rfl
    have hold : s.nodesAt (.party p) = [] := by
      simp only [nodesAt, hpc]
      rfl
    constructor
    · exact h.nodes.places.insert hdead (by rw [hold]; exact hself ▸ List.Perm.refl _) hother
    · intro π m hm
      by_cases hmn : m = n
      · rw [hmn]
        exact update_self ..
      · refine (update_of_ne hmn ..).trans (h.nodes.live π m ?_)
        by_cases hπ : π = .party p
        · rw [hπ] at hm
          exact absurd (mem_singleton.1 (hself ▸ hm)) hmn
        · exact hother π hπ ▸ hm
    · exact h.nodes.head
    · exact unlinked_goto h.nodes rfl nofun
    · refine pcs_goto h.nodes rfl (update_self ..) ?_ ?_
      · intro q hq m hm
        have hne : m ≠ n := fun he => hdead (.party q) (he ▸ mem_toList.2 hm)
        exact ⟨update_of_ne hne .., rfl⟩
      · exact fun _ _ _ _ hq _ => ⟨hq, rfl, rfl⟩
  have hrights : Rights ({ s with data := update s.data n l }.goto p (.impl (.unconnect n l))) :=
    h.rights.mono (p := p) (by rw [hpc]; rfl) rfl (fun he => absurd he hp) rfl rfl id
      (fun _ _ _ => id) (fun _ _ _ _ => id) hdata
  exact {
    logs := hsame.goto (by show _ = (s.pc p).call; rw [hpc]; rfl)
    nodes := hnodes
    rights := { hrights with }
    mutex := mutex_keep h (by rw [hpc]; rfl)
    sections := { h.sections.goto hp (c := .impl (.unconnect n l)) nofun nofun with }
    safe := h.safe }

theorem logStep_inv (h : Inv s) (en : Env) {c : LogPc} (hpc : s.pc p = .log c) :
    Inv (logStep s p en c) := by
  have hp : p ≠ .logger := h.sections.ne_logger (by rw [hpc]; rfl) (by rw [hpc]; nofun)
  cases c with
  | isFull l =>
    simp only [logStep]
    split
    · have hcount := h.count (s.logRequestCount + 1)
      split
      · exact hcount.thread hp hpc rfl rfl rfl trivial rfl rfl rfl nofun
      · exact hcount.thread hp hpc rfl rfl rfl trivial rfl rfl rfl nofun
    · exact h.thread hp hpc rfl rfl rfl trivial rfl rfl rfl nofun
  | loadStop l =>
    simp only [logStep]
    split
    · exact h.thread hp hpc rfl rfl rfl trivial rfl rfl rfl nofun
    · exact h.thread hp hpc rfl rfl rfl trivial rfl rfl rfl nofun
  | logSync l => exact logSync_inv h hpc
  | subSync => exact (h.count _).thread hp hpc rfl rfl rfl trivial rfl rfl rfl nofun
  | getObject l =>
    simp only [logStep]
    cases en.object with
    | none => exact h.thread hp hpc rfl rfl rfl trivial rfl rfl rfl nofun
    | some n =>
      by_cases hn : s.live n = true
      · simpa only [if_pos hn] using h
      · simpa only [if_neg hn] using getObject_inv h hpc (by simpa using hn)

omit [DecidableEq ι] in
theorem RightOk.ne_nil (h : RightOk s c) (hr : c.right = true) : s.queue ≠ [] := by
  have hsplit : ∀ {n rest older turned e}, s.Split (n :: rest) older turned e → s.queue ≠ [] :=
    fun hs => ne_nil_of_mem (mem hs (mem_cons_self ..))
  have hfront : ∀ {n}, s.Front n → s.queue ≠ [] := fun ⟨_, hs⟩ => hsplit hs
  have hwrites : ∀ {n k}, s.Writes n k → s.queue ≠ [] := by
    intro n k hw
    cases k with
    | walk m =>
      obtain ⟨rest, hs⟩ := hw
      exact hsplit hs
    | logImpl => exact hsplit hw
    | last => exact hsplit hw
  match c with
  | .impl (.setNull n) | .impl (.background n) => exact hsplit h.1
  | .impl (.lock n) | .impl (.checkStop n) | .impl (.setCurrent n) => exact hfront h
  | .write (.doLog n k) | .write (.subLog n k) => exact hwrites h.1
  | .task (.skip n) | .task (.walk n) => exact hfront h
  | .task (.release n m) => exact hwrites h.1
  | .complete w (.close old) => exact hsplit h.1
  | .complete w (.turn old tail q) =>
    obtain ⟨_, _, hs, _⟩ := h
    exact hsplit hs
  | .complete w (.join old tail) =>
    obtain ⟨_, hs, _⟩ := h
    exact hsplit hs

omit [DecidableEq ι] in
theorem Rights.nobody_has (h : Rights s) (hq : s.queue = []) (w : Option (Party ι)) :
    ¬ s.Has w := by
  intro hw
  have hok := h.has w hw
  cases w with
  | some p => exact RightOk.ne_nil hok hw hq
  | none =>
    obtain ⟨n, hn⟩ := ne_none_iff_exists'.1 hw.1
    obtain ⟨_, hs⟩ := hok n hn
    exact ne_nil_of_mem (mem hs (mem_cons_self ..)) hq

section

omit [DecidableEq ι]

theorem Inv.unlinked_mem (h : Inv s) (hun : (s.pc q).unlinked = some n) : n ∈ s.queue := by
  have hok := h.nodes.pcs q
  have hright := h.rights.has (some q)
  cases hq : s.pc q with
  | impl c =>
    cases c with
    | link n' m =>
      rw [hq] at hun hok
      cases hun
      exact hok.1
    | setNull n' =>
      simp only [State.Has, State.HasOk, hq] at hright hun
      cases hun
      exact mem (hright rfl).1 (mem_cons_self ..)
    | _ => rw [hq] at hun; cases hun
  | _ => rw [hq] at hun; cases hun

section

variable (h : s.Split conn older turned e)
include h

theorem Split.beside (hn : n ∉ s.queue)
    (hnext : s'.next = update s.next n v) (hprev : s'.prev = s.prev)
    (hqueue : s'.queue = s.queue) : s'.Split conn older turned e := by
  obtain ⟨newer, hq, hs⟩ := h
  refine ⟨newer, hqueue.trans hq, ?_⟩
  rw [hnext, hprev]
  exact hs.update (hq ▸ hn)

theorem Split.exchange (hn : n ∉ s.queue)
    (hnext : s.next n = .unconnected) (hlast : s.queue.getLast? = some m)
    (hnext' : s'.next = s.next) (hprev : s'.prev = update s.prev n m)
    (hqueue : s'.queue = s.queue ++ [n]) : s'.Split conn older turned e := by
  obtain ⟨newer, hq, hs⟩ := h
  refine ⟨newer ++ [n], ?_, ?_⟩
  · rw [hqueue, hq, append_assoc _ newer]
  · rw [hnext', hprev]
    exact hs.exchange (hq ▸ hn) hnext (hq ▸ hlast)

theorem Split.link (hn : n ∈ s.queue)
    (hnext : s.next n = .unconnected) (hconn : e = .null ∨ n ∉ conn ∧ turned = [])
    (hnext' : s'.next = update s.next n (.node (s.prev n))) (hprev : s'.prev = s.prev)
    (hqueue : s'.queue = s.queue) : s'.Split conn older turned e := by
  obtain ⟨newer, hq, hs⟩ := h
  refine ⟨newer, hqueue.trans hq, ?_⟩
  rw [hnext', hprev]
  apply hs.link
  rcases hconn with rfl | ⟨hnc, rfl⟩
  · exact hs.unconnected (hq ▸ hn) hnext
  · rw [hq] at hn
    simpa [hnc] using hn

end

end

theorem Nodes.store (h : Nodes s) (hown : c.own = (s.pc p).own)
    (hun : c.unlinked = none) (hok : NodeOk { s with next := update s.next n v } c)
    (hn : ∀ q ≠ p, (s.pc q).own ≠ some n ∧ (s.pc q).unlinked ≠ some n) :
    Nodes ({ s with next := update s.next n v }.goto p c) := by
  have heq : (s.goto p c).nodesAt = s.nodesAt := nodesAt_goto hown
  have hpcs : ∀ q, NodeOk ({ s with next := update s.next n v }.goto p c) ((s.goto p c).pc q) := by
    refine pcs_goto h rfl hok ?_ ?_
    · intro q hq m hm
      have hne : m ≠ n := fun he => (hn q hq).1 (he ▸ hm)
      exact ⟨rfl, update_of_ne hne ..⟩
    · intro q hq m hm hmq _
      have hne : m ≠ n := fun he => (hn q hq).2 (he ▸ hm)
      exact ⟨hmq, update_of_ne hne .., rfl⟩
  exact {
    places := heq ▸ h.places
    live := heq ▸ h.live
    head := h.head
    unlinked := unlinked_goto h rfl (by rw [hun]; nofun)
    pcs := hpcs }

theorem unconnect_inv (h : Inv s) (hpc : s.pc p = .impl (.unconnect n l)) :
    Inv ({ s with next := update s.next n .unconnected }.goto p (.impl (.exchange n l))) := by
  have hp : p ≠ .logger := h.sections.ne_logger (by rw [hpc]; rfl) (by rw [hpc]; nofun)
  have hown : (s.pc p).own = some n := by rw [hpc]; rfl
  have hq := h.nodes.own_notMem hown
  have hok := h.nodes.pcs p
  rw [hpc] at hok
  have hnodes : Nodes ({ s with next := update s.next n .unconnected }.goto p
      (.impl (.exchange n l))) := by
    refine h.nodes.store (hown.symm ▸ rfl) rfl ⟨hok, update_self ..⟩ ?_
    intro q hqp
    constructor
    · exact h.nodes.own_ne hown hqp
    · exact fun hun => hq (h.unlinked_mem hun)
  have hrights : Rights ({ s with next := update s.next n .unconnected }.goto p
      (.impl (.exchange n l))) :=
    h.rights.mono (by rw [hpc]; rfl) rfl (fun he => absurd he hp) rfl rfl id
      (fun _ _ _ hs => Split.beside hs hq rfl rfl rfl)
      (fun _ _ _ _ hs => Split.beside hs hq rfl rfl rfl) fun _ _ => rfl
  exact {
    logs := { h.logs.goto (p := p) (c := .impl (.exchange n l)) (by rw [hpc]; rfl) with }
    nodes := hnodes
    rights := hrights
    mutex := mutex_keep h (by rw [hpc]; rfl)
    sections := { h.sections.goto hp (c := .impl (.exchange n l)) nofun nofun with }
    safe := h.safe }

theorem link_inv (h : Inv s) (hpc : s.pc p = .impl (.link n m)) :
    Inv ({ s with next := update s.next n (.node m) }.goto p .idle) := by
  have hp : p ≠ .logger := h.sections.ne_logger (by rw [hpc]; rfl) (by rw [hpc]; nofun)
  have hok := h.nodes.pcs p
  rw [hpc] at hok
  obtain ⟨hmem, hnext, hprev⟩ := hok
  subst hprev
  have hun : (s.pc p).unlinked = some n := by rw [hpc]; rfl
  have hnodes : Nodes ({ s with next := update s.next n (.node (s.prev n)) }.goto p .idle) := by
    refine h.nodes.store (by rw [hpc]; rfl) rfl trivial ?_
    intro q hqp
    constructor
    · exact fun hown => h.nodes.own_notMem hown hmem
    · exact fun hun' => hqp (h.nodes.unlinked q p n hun' hun)
  have hrights : Rights ({ s with next := update s.next n (.node (s.prev n)) }.goto p .idle) := by
    refine h.rights.mono (by rw [hpc]; rfl) rfl (fun he => absurd he hp) rfl rfl id
      (fun _ _ _ hs => Split.link hs hmem hnext (.inl rfl) rfl rfl rfl) ?_ fun _ _ => rfl
    intro q n' hqp hq hs
    refine Split.link hs hmem hnext (.inr ⟨?_, rfl⟩) rfl rfl rfl
    rw [mem_singleton]
    rintro rfl
    exact hqp (h.nodes.unlinked q p n (by rw [hq]; rfl) hun)
  exact {
    logs := { h.logs.goto (p := p) (c := .idle) (by rw [hpc]; rfl) with }
    nodes := hnodes
    rights := hrights
    mutex := mutex_keep h (by rw [hpc]; rfl)
    sections := { h.sections.goto hp (c := .idle) nofun nofun with }
    safe := h.safe }

theorem Logs.queued (h : Logs s) (hcall : (s.pc p).call = some l) (hc : c.call = none)
    (hdata : s.data n = l) (hpc : s'.pc = (s.goto p c).pc) (hdata' : s'.data = s.data)
    (hqueue : s'.queue = s.queue ++ [n]) (hfile : s'.file = s.file) (hlogs : s'.logs = s.logs)
    (hex : s'.exchanged = s.exchanged ++ [l]) : Logs s' := by
  have hun : unlogged s'.data s'.queue = unlogged s.data s.queue ++ [l] := by
    rw [hdata', hqueue, unlogged_append, unlogged_cons (hdata ▸ h.text p l hcall), hdata]
    rfl
  refine h.move (a := .party p) (b := .queue) (l := l) nofun ?_ hun ?_ hlogs (text_goto h hpc hc) ?_
  · rw [logsAt_party hcall]
    simp only [logsAt, hpc, goto_self, hc, toList_none]
  · rintro (q | _ | _) hq hπ
    · simp only [logsAt, ne_eq, Place.party.injEq] at hq ⊢
      rw [hpc, goto_ne hq]
    · exact absurd rfl hπ
    · exact hfile
  · have hfilter : s.file.filter (· ∈ s.exchanged ++ [l]) = s.file.filter (· ∈ s.exchanged) := by
      refine filter_congr fun l' hl' => ?_
      have hne : l' ≠ l := by
        rintro rfl
        have hmem : l' ∈ s.logsAt (.party p) := mem_toList.2 hcall
        cases h.places.place_eq (q := Place.file) hmem hl'
      simp [hne]
    rw [hfile, hex, hfilter, hun, ← append_assoc, h.inOrder]

theorem Nodes.queued (h : Nodes s) (hown : (s.pc p).own = some n) (hc : c.own = none)
    (hpc : s'.pc = (s.goto p c).pc) (hqueue : s'.queue = s.queue ++ [n])
    (hhead : s'.logHead = some n) (hlive : s'.live = s.live)
    (hun : ∀ n, c.unlinked = some n → ∀ q ≠ p, (s.pc q).unlinked ≠ some n)
    (hpcs : ∀ q, NodeOk s' (s'.pc q)) : Nodes s' := by
  have hold : s.nodesAt (.party p) = [n] := by
    simp only [nodesAt, hown, toList_some]
  have hself : s'.nodesAt (.party p) = [] := by
    simp only [nodesAt, hpc, goto_self, hc, toList_none]
  have hto : s'.nodesAt .queue = s.nodesAt .queue ++ [n] := hqueue
  have hrest : ∀ π, π ≠ .party p → π ≠ .queue → s'.nodesAt π = s.nodesAt π := by
    rintro (q | _ | _) hq hπ
    · simp only [nodesAt, ne_eq, Place.party.injEq] at hq ⊢
      rw [hpc, goto_ne hq]
    · exact absurd rfl hπ
    · rfl
  have hsub : (s'.nodesAt (.party p) ++ s'.nodesAt .queue).Subperm
      (s.nodesAt (.party p) ++ s.nodesAt .queue) := by
    rw [hold, hself, hto, nil_append]
    exact (perm_append_singleton ..).subperm
  constructor
  · have hne : .party p ≠ Place.queue := nofun
    exact h.places.move hne hsub hrest
  · intro π m hm
    obtain ⟨π', hm'⟩ := Exclusive.mem_of_move hsub hrest hm
    rw [hlive]
    exact h.live π' m hm'
  · rw [hhead, hqueue, getLast?_concat]
  · exact unlinked_goto h hpc hun
  · exact hpcs

theorem exchange_inv (h : Inv s) (en : Env) (hpc : s.pc p = .impl (.exchange n l)) :
    Inv (logImplStep s p en (.exchange n l)) := by
  have hp : p ≠ .logger := h.sections.ne_logger (by rw [hpc]; rfl) (by rw [hpc]; nofun)
  have hcall : (s.pc p).call = some l := by rw [hpc]; rfl
  have hown : (s.pc p).own = some n := by rw [hpc]; rfl
  have hq := h.nodes.own_notMem hown
  have hok := h.nodes.pcs p
  rw [hpc] at hok
  obtain ⟨hdata, hnext⟩ := hok
  have hun : ∀ n', (some n : Option ℕ) = some n' → ∀ q ≠ p, (s.pc q).unlinked ≠ some n' := by
    rintro _ ⟨⟩ q _ hun
    exact hq (h.unlinked_mem hun)
  simp only [logImplStep]
  cases hhead : s.logHead with
  | some m =>
    have hlast : s.queue.getLast? = some m := h.nodes.head ▸ hhead
    have hrights : Rights ({ s with
        queue := s.queue ++ [n], prev := update s.prev n m }.goto p (.impl (.link n m))) :=
      h.rights.mono (by rw [hpc]; rfl) rfl (fun he => absurd he hp) rfl rfl
        (fun _ hnil => by rw [hnil] at hlast; cases hlast)
        (fun _ _ _ hs => Split.exchange hs hq hnext hlast rfl rfl rfl)
        (fun _ _ _ _ hs => Split.exchange hs hq hnext hlast rfl rfl rfl) fun _ _ => rfl
    refine {
      logs := h.logs.queued hcall rfl hdata rfl rfl rfl rfl rfl rfl
      nodes := h.nodes.queued hown rfl rfl rfl rfl rfl hun ?_
      rights := { hrights with }
      mutex := mutex_keep h (by rw [hpc]; rfl)
      sections := { h.sections.goto hp (c := .impl (.link n m)) nofun nofun with }
      safe := h.safe }
    refine pcs_goto h.nodes rfl ⟨by simp [goto], hnext, update_self ..⟩
      (fun _ _ _ _ => ⟨rfl, rfl⟩) ?_
    intro q hqp m' _ hm' _
    have hne : m' ≠ n := fun he => hq (he ▸ hm')
    exact ⟨mem_append_left _ hm', rfl, update_of_ne hne ..⟩
  | none =>
    have hnil : s.queue = [] := getLast?_eq_none_iff.1 (h.nodes.head ▸ hhead)
    have hno := h.rights.nobody_has hnil
    have hrights : Rights ({ s with queue := s.queue ++ [n] }.goto p (.impl (.setNull n))) := by
      refine Rights.owner (fun w hw => absurd hw (hno w)) rfl (fun he => absurd he hp) rfl rfl ?_
      refine ⟨⟨[], ?_, .single hnext⟩, hdata ▸ h.logs.text p l hcall⟩
      rw [hnil]
      rfl
    refine {
      logs := h.logs.queued hcall rfl hdata rfl rfl rfl rfl rfl rfl
      nodes := h.nodes.queued hown rfl rfl rfl rfl rfl hun ?_
      rights := { hrights with }
      mutex := mutex_keep h (by rw [hpc]; rfl)
      sections := { h.sections.goto hp (c := .impl (.setNull n)) nofun nofun with }
      safe := h.safe }
    refine pcs_goto h.nodes rfl trivial (fun _ _ _ _ => ⟨rfl, rfl⟩) ?_
    exact fun _ _ _ _ hm _ => ⟨mem_append_left _ hm, rfl, rfl⟩

omit [DecidableEq ι] in
theorem Rights.only (h : Rights s) (hr : (s.pc p).right = true) (w : Option (Party ι))
    (hw : s.Has w) : w = some p :=
  h.one w (some p) hw hr

omit [DecidableEq ι] in
theorem Inv.unlinked_ne (h : Inv s) (hr : (s.pc p).right = true) (hn : s.next n ≠ .unconnected)
    (hq : q ≠ p) : (s.pc q).unlinked ≠ some n := by
  intro hun
  have hok := h.nodes.pcs q
  have hright := h.rights.only hr (some q)
  cases hqc : s.pc q with
  | impl c =>
    cases c with
    | link n' m =>
      rw [hqc] at hun hok
      cases hun
      exact hn hok.2.1
    | setNull n' =>
      simp only [State.Has, hqc, Pc.right, forall_const, some.injEq] at hright
      exact hq hright
    | _ => rw [hqc] at hun; cases hun
  | _ => rw [hqc] at hun; cases hun

theorem Inv.store (h : Inv s) (hpc : s.pc p = c₀) (hr : c₀.right = true) (hr' : c.right = true)
    (hmem : n ∈ s.queue) (hn : ∀ q ≠ p, (s.pc q).unlinked ≠ some n)
    (hcall : c.call = c₀.call) (hown : c.own = c₀.own) (hun : c.unlinked = none)
    (hok : NodeOk { s with next := update s.next n v } c)
    (hright : RightOk ({ s with next := update s.next n v }.goto p c) c)
    (hin : p = .logger → c.inTask = true) (hlocked : c.locked = c₀.locked)
    (hsec : Sections (s.goto p c)) :
    Inv ({ s with next := update s.next n v }.goto p c) where
  logs := { h.logs.goto (p := p) (c := c) (by rw [hpc, hcall]) with }
  nodes := h.nodes.store (by rw [hpc, hown]) hun hok fun q hq =>
    ⟨fun ho => h.nodes.own_notMem ho hmem, hn q hq⟩
  rights := Rights.owner (h.rights.only (hpc ▸ hr)) hr' hin rfl rfl hright
  mutex := mutex_keep h (by rw [hpc, hlocked])
  sections := { hsec with }
  safe := h.safe

omit [DecidableEq ι] in
theorem Inv.rightOk (h : Inv s) (hpc : s.pc p = c) (hr : c.right = true) : RightOk s c := by
  subst hpc
  exact h.rights.has (some p) hr

theorem setNull_inv (h : Inv s) (hpc : s.pc p = .impl (.setNull n)) :
    Inv ({ s with next := update s.next n .null }.goto p (.impl (.background n))) := by
  have hp : p ≠ .logger := h.sections.ne_logger (by rw [hpc]; rfl) (by rw [hpc]; nofun)
  obtain ⟨⟨newer, hq, hs⟩, htext⟩ := h.rightOk hpc rfl
  have hmem : n ∈ s.queue := by
    rw [hq]
    exact mem_cons_self ..
  have hconn : Shape (update s.next n .null) s.prev [n] [] [] newer .null := hs.connect (l := [])
  refine h.store hpc rfl rfl hmem ?_ rfl rfl rfl trivial ⟨⟨newer, hq, hconn⟩, htext⟩
    (fun he => absurd he hp) rfl (h.sections.goto hp nofun nofun)
  intro q hqp hun
  exact hqp (h.nodes.unlinked q p n hun (by rw [hpc]; rfl))

theorem locked_of_inTask (h : c.inTask = true) : c.locked = true := by
  match c with
  | .write (.doLog _ _) | .write (.subLog _ _) => exact h
  | .task _ => rfl
  | .complete _ _ => exact h

theorem setCurrent_inv (h : Inv s) (hpc : s.pc p = .impl (.setCurrent n)) :
    Inv ({ s with currentLogRequest := some n }.goto p (.impl .signal)) := by
  have hp : p ≠ .logger := h.sections.ne_logger (by rw [hpc]; rfl) (by rw [hpc]; nofun)
  have hfront : s.Front n := h.rightOk hpc rfl
  have hone := h.rights.only (p := p) (by rw [hpc]; rfl)
  have hmutex := (h.mutex p).2 (by rw [hpc]; rfl)
  -- the logging thread is not in `LogTask`: it would hold the mutex
  have hin : (s.pc .logger).inTask = false := by
    by_contra hne
    have hl := (h.mutex .logger).2 (locked_of_inTask (by simpa using hne))
    rw [hmutex, some.injEq] at hl
    exact hp hl
  have hlogger : (s.goto p (.impl .signal)).pc .logger = s.pc .logger := goto_ne (.symm hp)
  have hsec := h.sections.goto hp (c := .impl .signal) nofun nofun
  have hrights : Rights ({ s with currentLogRequest := some n }.goto p (.impl .signal)) := by
    refine Rights.sole (w := none) ⟨some_ne_none n, ?_⟩ ?_ ?_
    · exact (congrArg Pc.inTask hlogger).trans hin
    · intro w hw
      cases w with
      | none => rfl
      | some q =>
        have hq : ((s.goto p (.impl .signal)).pc q).right = true := hw
        by_cases hqp : q = p
        · rw [hqp, goto_self] at hq
          cases hq
        · rw [goto_ne hqp] at hq
          exact absurd (some.inj (hone (some q) hq)) hqp
    · rintro _ ⟨⟩
      exact hfront
  exact {
    logs := { h.logs.goto (p := p) (c := .impl .signal) (by rw [hpc]; rfl) with }
    nodes := { h.nodes.goto (p := p) (c := .impl .signal) (by rw [hpc]; rfl) rfl trivial with }
    rights := hrights
    mutex := mutex_keep h (by rw [hpc]; rfl)
    sections := { hsec with
      check := fun _ => .inr (some_ne_none n)
      exited := fun he => absurd (hlogger ▸ he) (h.sections.setCurrent p n hpc) }
    safe := h.safe }

theorem logImplStep_inv (h : Inv s) (en : Env) {c : ImplPc} (hpc : s.pc p = .impl c) :
    Inv (logImplStep s p en c) := by
  have hp : p ≠ .logger := h.sections.ne_logger (by rw [hpc]; cases c <;> rfl) (by rw [hpc]; nofun)
  have hpl : ∀ {P : Prop}, p = .logger → P := fun he => absurd he hp
  have hsec : ∀ {c}, (∀ c', c ≠ .run c') → (∀ n, c ≠ .impl (.setCurrent n)) →
      Sections (s.goto p c) :=
    fun hrun hset => h.sections.goto hp hrun fun n hn => absurd hn (hset n)
  cases c with
  | unconnect n l =>
    have hlive := h.nodes.own_live (p := p) (n := n) (by rw [hpc]; rfl)
    simp only [logImplStep, use_eq hlive]
    exact unconnect_inv h hpc
  | exchange n l => exact exchange_inv h en hpc
  | link n m =>
    have hlive := h.nodes.queue_live (h.unlinked_mem (q := p) (n := n) (by rw [hpc]; rfl))
    simp only [logImplStep, use_eq hlive]
    exact link_inv h hpc
  | setNull n =>
    have hlive := h.nodes.queue_live (h.unlinked_mem (q := p) (n := n) (by rw [hpc]; rfl))
    simp only [logImplStep, use_eq hlive]
    exact setNull_inv h hpc
  | background n =>
    obtain ⟨hs, htext⟩ := h.rightOk hpc rfl
    simp only [logImplStep]
    split
    · exact h.inside hpc rfl rfl rfl trivial rfl rfl ⟨[], hs⟩ hpl (mutex_keep h (by rw [hpc]; rfl))
        (hsec nofun nofun)
    · exact h.inside hpc rfl rfl rfl trivial rfl rfl ⟨hs, htext⟩ hpl
        (mutex_keep h (by rw [hpc]; rfl)) (hsec nofun nofun)
  | lock n =>
    have hfront : s.Front n := h.rightOk hpc rfl
    simp only [logImplStep]
    split
    case isTrue hm =>
      exact h.inside hpc rfl rfl rfl trivial rfl rfl hfront hpl (mutex_take h hm rfl)
        (hsec nofun nofun)
    case isFalse => exact h
  | checkStop n =>
    have hfront : s.Front n := h.rightOk hpc rfl
    simp only [logImplStep]
    split
    case isTrue =>
      exact h.inside hpc rfl rfl rfl trivial rfl rfl hfront hpl (mutex_keep h (by rw [hpc]; rfl))
        (hsec nofun nofun)
    case isFalse hstop =>
      exact h.inside hpc rfl rfl rfl trivial rfl rfl hfront hpl (mutex_keep h (by rw [hpc]; rfl))
        (h.sections.goto hp nofun fun _ _ => by simpa using hstop)
  | setCurrent n => exact setCurrent_inv h hpc
  | signal =>
    exact h.outside hpc rfl rfl rfl trivial rfl rfl hpl (mutex_drop h (by rw [hpc]; rfl) rfl)
      (hsec nofun nofun)

/-! #### `DoLog` -/

omit [DecidableEq ι] in
theorem Writes.front (h : s.Writes n k) : ∃ rest, s.queue = n :: rest := by
  cases k with
  | walk m =>
    obtain ⟨rest, newer, hq, -⟩ := h
    exact ⟨_, hq⟩
  | logImpl =>
    obtain ⟨newer, hq, -⟩ := h
    exact ⟨_, hq⟩
  | last =>
    obtain ⟨newer, hq, -⟩ := h
    exact ⟨_, hq⟩

omit [DecidableEq ι] in
theorem Logs.written (h : Logs s) (hq : s.queue = n :: rest) (hn : n ∉ rest)
    (htext : (s.data n).text ≠ "") :
    Logs { s with
      file := s.file ++ [s.data n]
      data := update s.data n { s.data n with text := "" } } := by
  have hold : unlogged s.data s.queue = s.data n :: unlogged s.data rest := by
    rw [hq, unlogged_cons htext]
  have hnew : unlogged (update s.data n { s.data n with text := "" }) s.queue =
      unlogged s.data rest := by
    rw [hq, unlogged_cons_logged (by rw [update_self])]
    exact unlogged_congr (update_beside hn)
  have hin := h.inOrder
  rw [hold] at hin
  refine h.move (a := .queue) (b := .file) (l := s.data n) nofun (hold.trans ?_) rfl ?_ rfl
    h.text ?_
  · exact congrArg _ hnew.symm
  · rintro (q | _ | _) hπ hπ'
    · rfl
    · exact absurd rfl hπ
    · exact absurd rfl hπ'
  · have hex : s.data n ∈ s.exchanged := by
      rw [← hin]
      simp
    rw [hnew, filter_append, filter_cons_of_pos (by simpa using hex), filter_nil, append_assoc]
    exact hin

theorem doLog_inv (h : Inv s) (hpc : s.pc p = .write (.doLog n k)) : Inv ({ s with
      file := s.file ++ [s.data n]
      data := update s.data n { s.data n with text := "" } }.goto p (.write (.subLog n k))) := by
  obtain ⟨hw, htext⟩ := h.rightOk hpc rfl
  obtain ⟨rest, hq⟩ := Writes.front hw
  have hnd : s.queue.Nodup := h.nodes.places.nodup .queue
  have hmem : n ∈ s.queue := hq ▸ mem_cons_self ..
  have hsec := h.sections.keep (c := .write (.subLog n k)) hpc (by cases k <;> rfl) nofun nofun nofun
  have hgo := h.nodes.goto (p := p) (c := .write (.subLog n k)) (by rw [hpc]; rfl) rfl trivial
  rw [hq] at hnd
  have hlogs := h.logs.written hq (nodup_cons.1 hnd).1 htext
  refine {
    logs := hlogs.goto (by show _ = (s.pc p).call; rw [hpc]; rfl)
    nodes := { hgo with pcs := pcs_goto h.nodes rfl trivial ?_ fun _ _ _ _ hm _ => ⟨hm, rfl, rfl⟩ }
    rights := .owner (h.rights.only (p := p) (by rw [hpc]; rfl)) rfl ?_ rfl rfl ⟨?_, ?_⟩
    mutex := mutex_keep h (by rw [hpc]; cases k <;> rfl)
    sections := { hsec with }
    safe := h.safe }
  · intro q hqp m hm
    have hne : m ≠ n := by
      rintro rfl
      exact h.nodes.own_notMem hm hmem
    exact ⟨update_of_ne hne .., rfl⟩
  · have hin := h.sections.inTask_logger hpc nofun
    exact hin
  · cases k <;> exact hw
  · show (update s.data n _ n).text = ""
    rw [update_self]

theorem doLogStep_inv (h : Inv s) {c : WritePc} (hpc : s.pc p = .write c) :
    Inv (doLogStep s p c) := by
  cases c with
  | doLog n k =>
    obtain ⟨hw, -⟩ := h.rightOk hpc rfl
    obtain ⟨rest, hq⟩ := Writes.front hw
    have hlive := h.nodes.queue_live (n := n) (hq ▸ mem_cons_self ..)
    simp only [doLogStep, use_eq hlive]
    exact doLog_inv h hpc
  | subLog n k =>
    obtain ⟨hw, htext⟩ := h.rightOk hpc rfl
    have hcount := h.count (s.logRequestCount - 1)
    have hin := h.sections.inTask_logger hpc nofun
    cases k with
    | logImpl =>
      exact hcount.inside hpc rfl rfl rfl trivial rfl rfl ⟨hw, htext⟩ hin
        (mutex_keep h (by rw [hpc]; rfl))
        (hcount.sections.keep hpc rfl nofun nofun nofun)
    | walk m =>
      exact hcount.inside hpc rfl rfl rfl trivial rfl rfl ⟨hw, htext⟩ hin
        (mutex_keep h (by rw [hpc]; rfl))
        (hcount.sections.keep hpc rfl nofun nofun nofun)
    | last =>
      exact hcount.inside hpc rfl rfl rfl trivial rfl rfl ⟨hw, htext⟩ hin
        (mutex_keep h (by rw [hpc]; rfl))
        (hcount.sections.keep hpc rfl nofun nofun nofun)

/-! #### `LogTask` and `IsLogComplete` -/

/-- The first request is returned: it was written, and another one is connected to it. -/
theorem release_inv (h : Inv s) (hpc : s.pc p = c₀) (hr : c₀.right = true)
    (hin : c₀.inTask = true) (hcall : c₀.call = none) (hown : c₀.own = none)
    (hs : s.Split (n :: m :: rest) [] [] .null) (htext : (s.data n).text = "") :
    Inv ({ s.returnObject n with queue := s.queue.tail }.goto p (.task (.walk m))) := by
  obtain ⟨newer, hq, hshape⟩ := hs
  have hq' : s.queue = n :: m :: (rest ++ newer) := by simpa using hq
  have hnd : s.queue.Nodup := h.nodes.places.nodup .queue
  have hmem : n ∈ s.queue := hq' ▸ mem_cons_self ..
  have hnext : s.next n = .node m := hshape.conn.1
  have hntail : n ∉ s.queue.tail := by
    rw [hq'] at hnd ⊢
    exact (nodup_cons.1 hnd).1
  simp only [returnObject, use_eq (h.nodes.queue_live hmem)]
  have hsame : Logs { s with queue := s.queue.tail } := by
    refine h.logs.same ?_ rfl rfl rfl rfl
    rw [hq', tail_cons, unlogged_cons_logged htext]
  have hlogs := hsame.goto (p := p) (c := .task (.walk m))
    (by show _ = (s.pc p).call; rw [hpc, hcall]; rfl)
  have hgo := h.nodes.goto (p := p) (c := .task (.walk m)) (by rw [hpc, hown]; rfl) rfl trivial
  have hsub : ∀ π x, x ∈ nodesAt { s with queue := s.queue.tail } π →
      x ∈ s.nodesAt π ∧ x ≠ n := by
    rintro (q | _ | _) x hx
    · refine ⟨hx, ?_⟩
      rintro rfl
      exact h.nodes.own_notMem (mem_toList.1 hx) hmem
    · have hx' : x ∈ s.queue.tail := hx
      exact ⟨mem_of_mem_tail hx', fun he => hntail (he ▸ hx')⟩
    · cases hx
  have hnodes : Nodes ({ s with
      live := update s.live n false, queue := s.queue.tail }.goto p (.task (.walk m))) := by
    have heq := nodesAt_goto (s := { s with queue := s.queue.tail }) (p := p)
      (c := .task (.walk m)) (by show _ = (s.pc p).own; rw [hpc, hown]; rfl)
    constructor
    · refine heq ▸ h.nodes.places.shrink (p := .queue) ?_ ?_
      · exact (tail_sublist _).subperm
      · rintro (q | _ | _) hπ
        · rfl
        · exact absurd rfl hπ
        · rfl
    · intro π x hx
      obtain ⟨hx', hne⟩ := hsub π x (heq ▸ hx)
      exact (update_of_ne hne ..).trans (h.nodes.live π x hx')
    · rw [h.nodes.head, hq']
      rfl
    · exact hgo.unlinked
    · refine pcs_goto h.nodes rfl trivial (fun _ _ _ _ => ⟨rfl, rfl⟩) ?_
      intro q hqp x hun hx hxn
      refine ⟨?_, rfl, rfl⟩
      rw [hq'] at hx ⊢
      rcases mem_cons.1 hx with rfl | hx
      · rw [hnext] at hxn
        cases hxn
      · exact hx
  refine {
    logs := { hlogs with }
    nodes := hnodes
    rights := .owner (h.rights.only (p := p) (by rw [hpc, hr])) rfl (fun _ => rfl) rfl rfl
      ⟨rest, newer, ?_, hshape.pop⟩
    mutex := mutex_keep h (by rw [hpc, locked_of_inTask hin]; rfl)
    sections := { h.sections.task (p := p) (c := .task (.walk m)) ?_ rfl with }
    safe := h.safe }
  · rw [hq]
    rfl
  · rw [hpc]
    rintro rfl
    cases hin

theorem Inv.task (h : Inv s) (hpc : s.pc p = c₀) (hin : c₀.inTask = true) (hr : c₀.right = true)
    (hcall : c₀.call = none) (hown : c₀.own = none) (hin' : c.inTask = true) (hr' : c.right = true)
    (hcall' : c.call = none) (hown' : c.own = none) (hun : c.unlinked = none) (hok : NodeOk s c)
    (hright : RightOk s c) : Inv (s.goto p c) := by
  refine h.inside hpc (hcall'.trans hcall.symm) (hown'.trans hown.symm) hun hok hr hr' hright
    (fun _ => hin') (mutex_keep h ?_) (h.sections.task ?_ hin')
  · rw [hpc, locked_of_inTask hin, locked_of_inTask hin']
  · rw [hpc]
    rintro rfl
    cases hin

omit [DecidableEq ι] in
theorem Front.next (h : s.Front n) : s.next n = .null ∧ s.Split [n] [] [] .null ∨
    ∃ m rest, s.next n = .node m ∧ s.Split (n :: m :: rest) [] [] .null := by
  obtain ⟨rest, hs⟩ := h
  obtain ⟨newer, hq, hshape⟩ := hs
  cases rest with
  | nil => exact .inl ⟨hshape.conn.1, newer, hq, hshape⟩
  | cons m rest => exact .inr ⟨m, rest, hshape.conn.1, newer, hq, hshape⟩

omit [DecidableEq ι] in
theorem Front.mem (h : s.Front n) : n ∈ s.queue := by
  obtain ⟨rest, hs⟩ := h
  exact Split.mem hs (mem_cons_self ..)

theorem Sections.run (h : Sections s) (hne : s.pc .logger ≠ .run .exited) {r : RunPc}
    (hcheck : r = .check → s.stop = true ∨ s.currentLogRequest ≠ none)
    (hexit : r = .exited → s.stop = true ∧ s.currentLogRequest = none ∧
      ∀ p n, s.pc p ≠ .impl (.setCurrent n)) : Sections (s.goto .logger (.run r)) := by
  constructor
  · exact fun t c' => by rw [goto_ne (by nofun)]; exact h.thread t c'
  · exact .inr ⟨r, goto_self⟩
  · rw [goto_self, Pc.run.injEq]
    exact hcheck
  · intro p n hp
    rw [goto_self, ne_eq, Pc.run.injEq]
    intro hr
    by_cases hpl : p = .logger
    · rw [hpl, goto_self] at hp
      cases hp
    · rw [goto_ne hpl] at hp
      exact (hexit hr).2.2 p n hp
  · rw [goto_self, Pc.run.injEq]
    exact fun hr => ⟨(hexit hr).1, (hexit hr).2.1⟩
  · exact fun hj => absurd (h.joined hj) hne

section

variable (h : Inv s)
include h

theorem clearCurrent_inv (hpc : s.pc .logger = .task .taskEnd) :
    Inv ({ s with currentLogRequest := none, mutex := none }.goto .logger (.run .lock)) := by
  have hrights : Rights ({ s with currentLogRequest := none }.goto .logger (.run .lock)) := by
    have hhas : ∀ w, State.Has ({ s with currentLogRequest := none }.goto .logger (.run .lock)) w ↔
        s.Has w := by
      rintro (_ | q)
      · simp [State.Has, goto, hpc, Pc.inTask]
      · simp only [State.Has]
        obtain rfl | hq := eq_or_ne q .logger
        · simp [hpc, Pc.right]
        · rw [goto_ne hq]
    refine h.rights.stay hhas id fun w hw hok => ?_
    cases w with
    | none => exact fun _ => nofun
    | some q =>
      have hq : q ≠ .logger := by
        rintro rfl
        rw [State.Has, hpc] at hw
        cases hw
      simp only [State.HasOk] at hok ⊢
      rw [goto_ne hq]
      exact RightOk.mono hok (fun _ _ _ => id) (fun _ _ => id) fun _ _ => rfl
  have hsec := h.sections.run (r := .lock) (by rw [hpc]; nofun) nofun nofun
  have hmutex := mutex_drop (c := .run .lock) h (p := .logger) (by rw [hpc]; rfl) rfl
  exact {
    logs := { h.logs.goto (p := .logger) (c := .run .lock) (by rw [hpc]; rfl) with }
    nodes := { h.nodes.goto (p := .logger) (c := .run .lock) (by rw [hpc]; rfl) rfl trivial with }
    rights := { hrights with }
    mutex := hmutex
    sections := { hsec with
      check := fun he => by
        cases he
      exited := fun he => by
        cases he }
    safe := h.safe }

theorem logTaskStep_inv {c : TaskPc} (hpc : s.pc p = .task c) :
    Inv (logTaskStep s p c) := by
  cases c with
  | skip n =>
    have hfront : s.Front n := h.rightOk hpc rfl
    have hlive := h.nodes.queue_live (Front.mem hfront)
    simp only [logTaskStep, use_eq hlive]
    rcases Front.next hfront with ⟨hnext, hs⟩ | ⟨m, rest, hnext, hs⟩
    · simp only [hnext]
      exact h.task hpc rfl rfl rfl rfl rfl rfl rfl rfl rfl trivial hfront
    · simp only [hnext]
      split
      case isTrue htext => exact release_inv h hpc rfl rfl rfl rfl hs htext
      case isFalse => exact h.task hpc rfl rfl rfl rfl rfl rfl rfl rfl rfl trivial hfront
  | walk n =>
    have hfront : s.Front n := h.rightOk hpc rfl
    have hlive := h.nodes.queue_live (Front.mem hfront)
    simp only [logTaskStep, use_eq hlive]
    rcases Front.next hfront with ⟨hnext, hs⟩ | ⟨m, rest, hnext, hs⟩
    · simp only [hnext]
      split
      case isTrue htext => exact h.task hpc rfl rfl rfl rfl rfl rfl rfl rfl rfl trivial ⟨hs, htext⟩
      case isFalse htext => exact h.task hpc rfl rfl rfl rfl rfl rfl rfl rfl rfl trivial ⟨hs, htext⟩
    · simp only [hnext]
      split
      case isTrue htext =>
        exact h.task hpc rfl rfl rfl rfl rfl rfl rfl rfl rfl trivial ⟨⟨rest, hs⟩, htext⟩
      case isFalse htext =>
        exact h.task hpc rfl rfl rfl rfl rfl rfl rfl rfl rfl trivial ⟨⟨rest, hs⟩, htext⟩
  | release n m =>
    obtain ⟨⟨rest, hs⟩, htext⟩ := h.rightOk hpc rfl
    exact release_inv h hpc rfl rfl rfl rfl hs htext
  | taskEnd =>
    cases p with
    | logger => exact clearCurrent_inv h hpc
    | thread t =>
      exact h.outside hpc rfl rfl rfl trivial rfl rfl nofun (mutex_drop h (by rw [hpc]; rfl) rfl)
        (h.sections.goto nofun nofun nofun)

theorem close_inv (hpc : s.pc p = .complete w (.close old))
    (hhead : s.logHead = some old) :
    Inv ({ s with logHead := none, queue := [] }.goto p (.complete w (.releaseLast old))) := by
  obtain ⟨⟨newer, hq, hshape⟩, htext⟩ := h.rightOk hpc rfl
  have hlast : s.queue.getLast? = some old := h.nodes.head ▸ hhead
  obtain ⟨-, -, rfl⟩ := Shape.closed (l := []) hshape (hq ▸ hlast)
  have hq' : s.queue = [old] := hq
  have hsame : Logs { s with logHead := none, queue := [] } := by
    refine h.logs.same ?_ rfl rfl rfl rfl
    rw [hq', unlogged_cons_logged htext]
  have hlogs := hsame.goto (p := p) (c := .complete w (.releaseLast old))
    (by show _ = (s.pc p).call; rw [hpc]; rfl)
  have hno : ∀ q, q ≠ p → (s.pc q).right = false := by
    intro q hqp
    by_contra hr
    have honly := h.rights.only (p := p) (by rw [hpc]; rfl) (some q) (by simpa [State.Has] using hr)
    exact hqp (some.inj honly)
  have hrights : Rights ({ s with queue := [] }.goto p (.complete w (.releaseLast old))) := by
    refine Rights.nobody rfl ?_
    intro w' hw'
    have hin := h.sections.inTask_logger hpc nofun
    have hw : w' = some p := has_goto_sole (c := .complete w (.releaseLast old))
      (h.rights.only (by rw [hpc]; rfl)) hin w' (by cases w' <;> exact hw')
    subst hw
    simp only [State.Has, goto_self] at hw'
    cases hw'
  have hnodes : Nodes ({ s with logHead := none, queue := [] }.goto p
      (.complete w (.releaseLast old))) := by
    have hold : s.nodesAt .queue = [old] := hq'
    have hself : s.nodesAt (.party p) = [] := by
      simp only [nodesAt, hpc]
      rfl
    have hto : nodesAt (s.goto p (.complete w (.releaseLast old))) (.party p) = [old] := by
      simp only [nodesAt, goto_self]
      rfl
    have hrest : ∀ π, π ≠ .queue → π ≠ .party p →
        nodesAt ({ s with logHead := none, queue := [] }.goto p
          (.complete w (.releaseLast old))) π = s.nodesAt π := by
      rintro (q | _ | _) hπ hq
      · simp only [nodesAt, ne_eq, Place.party.injEq] at hq ⊢
        rw [goto_ne hq]
      · exact absurd rfl hπ
      · rfl
    have hsub : (nodesAt ({ s with logHead := none, queue := [] }.goto p
          (.complete w (.releaseLast old))) .queue ++
        nodesAt ({ s with logHead := none, queue := [] }.goto p
          (.complete w (.releaseLast old))) (.party p)).Subperm
        (s.nodesAt .queue ++ s.nodesAt (.party p)) := by
      show ([] ++ nodesAt (s.goto p (.complete w (.releaseLast old))) (.party p)).Subperm _
      rw [hold, hself, hto]
      exact List.Subperm.refl _
    have hne : .queue ≠ Place.party p := nofun
    constructor
    · exact h.nodes.places.move hne hsub hrest
    · intro π m hm
      obtain ⟨π', hm'⟩ := Exclusive.mem_of_move hsub hrest hm
      exact h.nodes.live π' m hm'
    · rfl
    · exact unlinked_goto h.nodes rfl nofun
    · refine pcs_goto h.nodes rfl trivial (fun _ _ _ _ => ⟨rfl, rfl⟩) ?_
      intro q hqp m hun hm hm'
      rw [hq', mem_singleton] at hm
      have hnull : s.next old = .null := hshape.conn.1
      rw [hm, hnull] at hm'
      cases hm'
  exact {
    logs := { hlogs with }
    nodes := hnodes
    rights := { hrights with }
    mutex := mutex_keep h (by rw [hpc]; rfl)
    sections := { h.sections.keep (c := .complete w (.releaseLast old)) hpc rfl nofun nofun nofun
      with }
    safe := h.safe }

/-- Requests were exchanged behind the last one: they are turned from the head back. -/
theorem open_inv (hpc : s.pc p = .complete w (.close old))
    (hhead : s.logHead = some n) (hne : n ≠ old) :
    Inv (s.goto p (.complete w (.turn old .null n))) := by
  obtain ⟨⟨newer, hq, hshape⟩, -⟩ := h.rightOk hpc rfl
  have hlast : s.queue.getLast? = some n := h.nodes.head ▸ hhead
  rw [hq] at hlast
  have hin := h.sections.inTask_logger hpc nofun
  refine h.inside hpc rfl rfl rfl trivial rfl rfl ?_ hin (mutex_keep h (by rw [hpc]; rfl))
    (h.sections.keep hpc rfl nofun nofun nofun)
  rcases eq_nil_or_concat newer with rfl | ⟨older, q, rfl⟩
  · exact absurd (some.inj hlast).symm hne
  · rw [concat_eq_append] at hq hlast hshape
    simp only [append_nil, ← append_assoc, getLast?_concat, some.injEq] at hlast
    subst hlast
    exact ⟨older, [], ⟨[], by simpa using hq, hshape.start⟩, rfl⟩

theorem turn_inv {q x : ℕ}
    (hpc : s.pc p = .complete w (.turn old tail q)) (hnext : s.next q = .node x) :
    Inv ({ s with next := update s.next q tail }.goto p
      (.complete w (if x = old then .join old (.node q) else .turn old (.node q) x))) := by
  obtain ⟨older, turned, ⟨newer, hq, hshape⟩, rfl⟩ := h.rightOk hpc rfl
  have hr : (s.pc p).right = true := by rw [hpc]; rfl
  have hin := h.sections.inTask_logger hpc nofun
  have hmem : q ∈ s.queue := by
    rw [hq]
    simp
  have hx : x = s.prev q := by
    rcases hshape.older q (by simp) with hun | hprev
    · rw [hnext] at hun
      cases hun
    · rw [hnext] at hprev
      exact Link.node.inj hprev
  have hun := fun q' => h.unlinked_ne (q := q') hr (n := q) (by rw [hnext]; nofun)
  have hlast := hshape.prev_eq (by simp)
  rw [← hx] at hlast
  have hq' : s.queue = [old] ++ older ++ (q :: turned) ++ newer := by simpa using hq
  have hturn := hshape.turn
  rcases eq_nil_or_concat older with rfl | ⟨older, y, rfl⟩
  · have hxo : x = old := (some.inj hlast).symm
    rw [if_pos hxo]
    exact h.store hpc rfl rfl hmem hun rfl rfl rfl trivial
      ⟨q :: turned, ⟨newer, hq', hturn⟩, rfl⟩ hin rfl (h.sections.keep hpc rfl nofun nofun nofun)
  · rw [concat_eq_append] at hq' hturn hlast
    rw [← append_assoc, getLast?_concat] at hlast
    have hxy : y = x := some.inj hlast
    subst hxy
    have hxo : y ≠ old := by
      rintro rfl
      have hnd := hturn.nodup
      simp at hnd
    rw [if_neg hxo]
    exact h.store hpc rfl rfl hmem hun rfl rfl rfl trivial
      ⟨older, q :: turned, ⟨newer, hq', hturn⟩, rfl⟩ hin rfl
      (h.sections.keep hpc rfl nofun nofun nofun)

theorem join_inv (hpc : s.pc p = .complete w (.join old tail)) :
    Inv ({ s with next := update s.next old tail }.goto p (w.pc old)) := by
  obtain ⟨turned, ⟨newer, hq, hshape⟩, rfl⟩ := h.rightOk hpc rfl
  have hr : (s.pc p).right = true := by rw [hpc]; rfl
  have hin := h.sections.inTask_logger hpc nofun
  have hmem : old ∈ s.queue := by
    rw [hq]
    simp
  have hnext : s.next old = .null := hshape.conn.1
  have hun := fun q' => h.unlinked_ne (q := q') hr (n := old) (by rw [hnext]; nofun)
  have hjoin := Shape.join (l := []) hshape
  have hq' : s.queue = old :: turned ++ [] ++ [] ++ newer := by simpa using hq
  cases w with
  | logImpl =>
    exact h.store hpc rfl rfl hmem hun rfl rfl rfl trivial ⟨turned, newer, hq', hjoin⟩ hin rfl
      (h.sections.keep hpc rfl nofun nofun nofun)
  | logTask =>
    exact h.store hpc rfl rfl hmem hun rfl rfl rfl trivial ⟨turned, newer, hq', hjoin⟩ hin rfl
      (h.sections.keep hpc rfl nofun nofun nofun)

theorem releaseLast_inv (hpc : s.pc p = .complete w (.releaseLast old)) :
    Inv ((s.returnObject old).goto p w.done) := by
  have hown : (s.pc p).own = some old := by rw [hpc]; rfl
  simp only [returnObject, use_eq (h.nodes.own_live hown)]
  have hcall : w.done.call = none := by cases w <;> rfl
  have hdone : w.done.own = none := by cases w <;> rfl
  have hun : w.done.unlinked = none := by cases w <;> rfl
  have hright : w.done.right = false := by cases w <;> rfl
  have hinTask : w.done.inTask = (s.pc p).inTask := by rw [hpc]; cases w <;> rfl
  have hlogs := h.logs.goto (p := p) (c := w.done) (by rw [hpc, hcall]; rfl)
  have hself : nodesAt (s.goto p w.done) (.party p) = [] := by
    simp only [nodesAt, goto_self, hdone, toList_none]
  have hrest : ∀ π, π ≠ .party p → nodesAt (s.goto p w.done) π = s.nodesAt π := by
    rintro (q | _ | _) hπ
    · simp only [nodesAt, ne_eq, Place.party.injEq] at hπ ⊢
      rw [goto_ne hπ]
    · rfl
    · rfl
  have hnodes : Nodes ({ s with live := update s.live old false }.goto p w.done) := by
    constructor
    · refine h.nodes.places.shrink (p := .party p) ?_ hrest
      exact (subperm_of_subset (hself ▸ nodup_nil) (hself ▸ nil_subset _) :
        (nodesAt (s.goto p w.done) (.party p)).Subperm _)
    · intro π m (hm : m ∈ nodesAt (s.goto p w.done) π)
      have hπ : π ≠ .party p := by
        rintro rfl
        rw [hself] at hm
        cases hm
      have hm' : m ∈ s.nodesAt π := hrest π hπ ▸ hm
      have hne : m ≠ old := by
        rintro rfl
        have hmp : m ∈ s.nodesAt (.party p) := mem_toList.2 hown
        exact hπ (h.nodes.places.place_eq hm' hmp)
      exact (update_of_ne hne ..).trans (h.nodes.live π m hm')
    · exact h.nodes.head
    · exact unlinked_goto h.nodes rfl (by rw [hun]; nofun)
    · refine pcs_goto h.nodes rfl ?_ (fun _ _ _ _ => ⟨rfl, rfl⟩) fun _ _ _ _ hm _ => ⟨hm, rfl, rfl⟩
      cases w <;> trivial
  have hrights : Rights (s.goto p w.done) :=
    h.rights.mono (by rw [hpc]; rfl) hright (fun _ => hinTask) rfl rfl id (fun _ _ _ => id)
      (fun _ _ _ _ => id) fun _ _ => rfl
  have hsec : Sections (s.goto p w.done) := by
    refine h.sections.keep hpc (by rw [hinTask, hpc]) nofun ?_ ?_
    · cases w <;> nofun
    · cases w <;> nofun
  exact {
    logs := { hlogs with }
    nodes := hnodes
    rights := { hrights with }
    mutex := mutex_keep h (by rw [hpc]; cases w <;> rfl)
    sections := { hsec with }
    safe := h.safe }

theorem isLogCompleteStep_inv {c : CompletePc}
    (hpc : s.pc p = .complete w c) : Inv (isLogCompleteStep s p w c) := by
  cases c with
  | close old =>
    obtain ⟨hs, -⟩ := h.rightOk hpc rfl
    have hmem : old ∈ s.queue := mem hs (mem_cons_self ..)
    simp only [isLogCompleteStep, use_eq (h.nodes.queue_live hmem)]
    cases hhead : s.logHead with
    | none =>
      have hnil := getLast?_eq_none_iff.1 (h.nodes.head ▸ hhead)
      exact absurd hnil (ne_nil_of_mem hmem)
    | some n =>
      by_cases hn : n = old
      · simpa only [if_pos hn] using close_inv h hpc (hn ▸ hhead)
      · simpa only [if_neg hn] using open_inv h hpc hhead hn
  | turn old tail q =>
    obtain ⟨older, turned, ⟨newer, hq, hshape⟩, -⟩ := h.rightOk hpc rfl
    have hmem : q ∈ s.queue := by
      rw [hq]
      simp
    simp only [isLogCompleteStep, use_eq (h.nodes.queue_live hmem)]
    cases hnext : s.next q with
    | unconnected => exact h
    | null =>
      rcases hshape.older q (by simp) with hun | hprev
      · rw [hnext] at hun
        cases hun
      · rw [hnext] at hprev
        cases hprev
    | node x => exact turn_inv h hpc hnext
  | join old tail =>
    obtain ⟨turned, hs, -⟩ := h.rightOk hpc rfl
    have hmem : old ∈ s.queue := mem hs (mem_cons_self ..)
    simp only [isLogCompleteStep, use_eq (h.nodes.queue_live hmem)]
    exact join_inv h hpc
  | releaseLast old => exact releaseLast_inv h hpc

end

/-! #### `Run` and `StopAndJoin` -/

theorem runStep_inv (h : Inv s) {c : RunPc} (hpc : s.pc p = .run c) : Inv (runStep s p c) := by
  have hp : p = .logger := by
    cases p with
    | thread t => exact absurd hpc (h.sections.thread t c)
    | logger => rfl
  subst hp
  cases c with
  | lock =>
    simp only [runStep]
    split
    case isTrue hm =>
      exact h.outside hpc rfl rfl rfl trivial rfl rfl (fun _ => rfl) (mutex_take h hm rfl)
        (h.sections.run (by rw [hpc]; nofun) nofun nofun)
    case isFalse => exact h
  | test =>
    simp only [runStep]
    split
    case isTrue =>
      exact h.outside hpc rfl rfl rfl trivial rfl rfl (fun _ => rfl)
        (mutex_drop h (by rw [hpc]; rfl) rfl) (h.sections.run (by rw [hpc]; nofun) nofun nofun)
    case isFalse hgo =>
      refine h.outside hpc rfl rfl rfl trivial rfl rfl (fun _ => rfl)
        (mutex_keep h (by rw [hpc]; rfl))
        (h.sections.run (by rw [hpc]; nofun) (fun _ => ?_) nofun)
      by_cases hstop : s.stop = true
      · exact .inl hstop
      · exact .inr fun hnone => hgo ⟨by simpa using hstop, hnone⟩
  | check =>
    simp only [runStep]
    cases hcur : s.currentLogRequest with
    | none =>
      have hstop : s.stop = true := (h.sections.check hpc).resolve_right fun hne => hne hcur
      rw [if_pos hstop]
      -- who is in front of the store of the request has the mutex
      have hset : ∀ q n, s.pc q ≠ .impl (.setCurrent n) := by
        intro q n hq
        have hm := (h.mutex q).2 (by rw [hq]; rfl)
        rw [(h.mutex .logger).2 (by rw [hpc]; rfl), some.injEq] at hm
        rw [← hm, hpc] at hq
        cases hq
      have hsec := h.sections.run (r := .exited) (by rw [hpc]; nofun) nofun
        fun _ => ⟨hstop, hcur, hset⟩
      have hout := h.outside (c := .run .exited) hpc rfl rfl rfl trivial rfl rfl (fun _ => rfl)
        (mutex_drop h (by rw [hpc]; rfl) rfl) hsec
      simpa only [hcur] using hout
    | some n =>
      have hhas : s.Has none := ⟨by rw [hcur]; nofun, by rw [hpc]; rfl⟩
      have hfront : s.Front n := h.rights.has none hhas n hcur
      have hone := h.rights.one none
      have hrights : Rights (s.goto .logger (.task (.skip n))) := by
        refine Rights.sole (w := some .logger) ?_ ?_ ?_
        · rw [State.Has, goto_self]
          rfl
        · rintro (_ | q) hw
          · have hin := hw.2
            rw [goto_self] at hin
            cases hin
          · by_cases hq : q = .logger
            · rw [hq]
            · rw [State.Has, goto_ne hq] at hw
              cases hone (some q) hhas hw
        · rw [State.HasOk, goto_self]
          exact hfront
      exact {
        logs := h.logs.goto (by rw [hpc]; rfl)
        nodes := h.nodes.goto (by rw [hpc]; rfl) rfl trivial
        rights := hrights
        mutex := mutex_keep h (by rw [hpc]; rfl)
        sections := h.sections.task (by rw [hpc]; nofun) rfl
        safe := h.safe }
  | exited => exact h

theorem stopStep_inv (h : Inv s) {c : StopPc} (hpc : s.pc p = .stop c) : Inv (stopStep s p c) := by
  have hp : p ≠ .logger := h.sections.ne_logger (by rw [hpc]; rfl) (by rw [hpc]; nofun)
  have hpl : ∀ {P : Prop}, p = .logger → P := fun he => absurd he hp
  cases c with
  | exchange =>
    have hstop : Inv { s with stop := true } := { h with
      logs := { h.logs with }
      nodes := { h.nodes with }
      rights := { h.rights with }
      sections := { h.sections with
        check := fun _ => .inl rfl
        exited := fun he => ⟨rfl, (h.sections.exited he).2⟩ } }
    simp only [stopStep]
    split
    · exact hstop.thread hp hpc rfl rfl rfl trivial rfl rfl rfl nofun
    · exact hstop.thread hp hpc rfl rfl rfl trivial rfl rfl rfl nofun
  | lock =>
    simp only [stopStep]
    split
    case isTrue hm =>
      exact h.outside hpc rfl rfl rfl trivial rfl rfl hpl (mutex_take h hm rfl)
        (h.sections.goto hp nofun nofun)
    case isFalse => exact h
  | signal =>
    exact h.outside hpc rfl rfl rfl trivial rfl rfl hpl (mutex_drop h (by rw [hpc]; rfl) rfl)
      (h.sections.goto hp nofun nofun)
  | hasBeenJoined =>
    simp only [stopStep]
    split
    · exact h.thread hp hpc rfl rfl rfl trivial rfl rfl rfl nofun
    · exact h.thread hp hpc rfl rfl rfl trivial rfl rfl rfl nofun
  | join =>
    simp only [stopStep]
    split
    case isTrue hex =>
      have hjoined : Inv { s with joined := true } := { h with
        logs := { h.logs with }
        nodes := { h.nodes with }
        rights := { h.rights with }
        sections := { h.sections with joined := fun _ => hex } }
      exact hjoined.thread hp hpc rfl rfl rfl trivial rfl rfl rfl nofun
    case isFalse => exact h

theorem goStep_inv (h : Inv s) (en : Env) : Inv (goStep s p en) := by
  unfold goStep
  split
  case h_1 => exact h
  case h_2 c hpc => exact logStep_inv h en hpc
  case h_3 c hpc => exact logImplStep_inv h en hpc
  case h_4 c hpc => exact doLogStep_inv h hpc
  case h_5 c hpc => exact logTaskStep_inv h hpc
  case h_6 w c hpc => exact isLogCompleteStep_inv h hpc
  case h_7 c hpc => exact runStep_inv h hpc
  case h_8 c hpc => exact stopStep_inv h hpc

theorem log_inv (h : Inv s) {t : ι} {text : String} (hpc : s.pc (.thread t) = .idle)
    (htext : text ≠ "") :
    Inv ({ s with logs := s.logs ++ [(⟨s.logs.length, text⟩ : Log)] }.goto (.thread t)
      (.log (.isFull ⟨s.logs.length, text⟩))) := by
  have hp : Party.thread t ≠ .logger := nofun
  have hnew : ∀ π, (⟨s.logs.length, text⟩ : Log) ∉ s.logsAt π := by
    intro π hl
    exact absurd (h.logs.number _ (h.logs.given π _ hl)) (lt_irrefl _)
  have hself : logsAt (s.goto (.thread t) (.log (.isFull ⟨s.logs.length, text⟩)))
      (.party (.thread t)) = [(⟨s.logs.length, text⟩ : Log)] := by
    simp only [logsAt, goto_self]
    rfl
  have hold : s.logsAt (.party (.thread t)) = [] := by
    simp only [logsAt, hpc]
    rfl
  have hrest : ∀ π, π ≠ .party (.thread t) →
      logsAt (s.goto (.thread t) (.log (.isFull ⟨s.logs.length, text⟩))) π = s.logsAt π := by
    rintro (q | _ | _) hπ
    · simp only [logsAt, ne_eq, Place.party.injEq] at hπ ⊢
      rw [goto_ne hπ]
    · rfl
    · rfl
  have hplaces : Exclusive
      (logsAt (s.goto (.thread t) (.log (.isFull ⟨s.logs.length, text⟩)))) := by
    refine h.logs.places.insert hnew ?_ hrest
    rw [hold]
    exact hself ▸ List.Perm.refl _
  have hlogs : Logs ({ s with logs := s.logs ++ [(⟨s.logs.length, text⟩ : Log)] }.goto (.thread t)
      (.log (.isFull ⟨s.logs.length, text⟩))) := by
    constructor
    · exact hplaces
    · intro π l (hl : l ∈ logsAt (s.goto (.thread t) _) π)
      apply mem_append.2
      by_cases hπ : π = .party (.thread t)
      · rw [hπ, hself] at hl
        exact .inr hl
      · rw [hrest π hπ] at hl
        exact .inl (h.logs.given π l hl)
    · refine forall_goto (P := fun _ c => ∀ l, c.call = some l → l.text ≠ "") ?_ ?_
      · rintro _ ⟨⟩
        exact htext
      · exact fun q _ => h.logs.text q
    · intro l hl
      show l.call < (s.logs ++ _).length
      rw [length_append]
      rcases mem_append.1 hl with hl | hl
      · exact Nat.lt_add_right _ (h.logs.number l hl)
      · rw [mem_singleton.1 hl]
        exact Nat.lt_add_one _
    · intro l hl
      rcases mem_append.1 hl with hl | hl
      · obtain ⟨π, hπ⟩ := h.logs.total l hl
        refine ⟨π, ?_⟩
        have hne : π ≠ .party (.thread t) := by
          rintro rfl
          rw [hold] at hπ
          cases hπ
        exact (hrest π hne).symm ▸ hπ
      · exact ⟨.party (.thread t), hself.symm ▸ hl⟩
    · exact h.logs.inOrder
  have hgo := h.nodes.goto (p := .thread t) (c := .log (.isFull ⟨s.logs.length, text⟩))
    (by rw [hpc]; rfl) rfl trivial
  have hrights : Rights (s.goto (.thread t) (.log (.isFull ⟨s.logs.length, text⟩))) :=
    h.rights.mono (p := .thread t) (by rw [hpc]; rfl) rfl nofun rfl rfl id (fun _ _ _ => id)
      (fun _ _ _ _ => id) fun _ _ => rfl
  exact {
    logs := hlogs
    nodes := { hgo with }
    rights := { hrights with }
    mutex := mutex_keep h (by rw [hpc]; rfl)
    sections := { h.sections.goto hp (c := .log (.isFull ⟨s.logs.length, text⟩)) nofun nofun with }
    safe := h.safe }

theorem step_inv : Keeps (step (ι := ι)) Inv := by
  intro s a h
  cases a with
  | log t text =>
    simp only [step]
    split
    case isTrue hc => exact log_inv h hc.1 hc.2
    case isFalse => exact h
  | stopAndJoin t =>
    simp only [step]
    split
    case isTrue hpc => exact h.thread nofun hpc rfl rfl rfl trivial rfl rfl rfl nofun
    case isFalse => exact h
  | go p e => exact goStep_inv h e

omit [DecidableEq ι] in
theorem start_inv (count : BitVec 32) : Inv (start ι count) := by
  have hlogs : ∀ π, (start ι count).logsAt π = [] := by
    rintro ((t | _) | _ | _) <;> rfl
  have hnodes : ∀ π, (start ι count).nodesAt π = [] := by
    rintro ((t | _) | _ | _) <;> rfl
  have hhas : ∀ w, ¬ (start ι count).Has w := by
    rintro (_ | t | _)
    · exact fun hw => hw.1 rfl
    · nofun
    · nofun
  constructor
  · constructor
    · rw [funext hlogs]
      exact Exclusive.nil
    · intro π l hl
      rw [hlogs] at hl
      cases hl
    · rintro (t | _) <;> nofun
    · nofun
    · nofun
    · rfl
  · constructor
    · rw [funext hnodes]
      exact Exclusive.nil
    · intro π n hn
      rw [hnodes] at hn
      cases hn
    · rfl
    · rintro (t | _) <;> nofun
    · rintro (t | _) <;> trivial
  · exact Rights.nobody rfl hhas
  · rintro (t | _) <;> exact ⟨nofun, nofun⟩
  · constructor
    · nofun
    · exact .inr ⟨.lock, rfl⟩
    · nofun
    · rintro (t | _) <;> nofun
    · nofun
    · nofun
  · rfl

theorem call_of_inTask (h : c.inTask = true) : c.call = none := by
  match c with
  | .write _ | .task _ | .complete _ _ => rfl

omit [DecidableEq ι] in
theorem Inv.writesOnce (h : Inv s) : WritesOnce s := by
  have hmem : (∀ t, s.pc (.thread t) = .idle) → s.queue = [] → s.logs ⊆ s.file := by
    intro hidle hq l hl
    obtain ⟨π, hπ⟩ := h.logs.total l hl
    match π with
    | .party (.thread t) =>
      simp only [logsAt, hidle t] at hπ
      cases hπ
    | .party .logger =>
      have hcall : (s.pc .logger).call = some l := mem_toList.1 hπ
      rcases h.sections.logger with hin | ⟨c, hc⟩
      · rw [call_of_inTask hin] at hcall
        cases hcall
      · rw [hc] at hcall
        cases hcall
    | .queue =>
      simp only [logsAt, hq] at hπ
      cases hπ
    | .file => exact hπ
  constructor
  · exact h.logs.places.nodup .file
  · exact fun l hl => h.logs.given .file l hl
  · exact ⟨_, h.logs.inOrder⟩
  · exact h.safe
  · intro hidle hhead
    exact hmem hidle (getLast?_eq_none_iff.1 (h.nodes.head ▸ hhead))
  · intro hidle hjoined
    have hex := h.sections.joined hjoined
    refine hmem hidle ?_
    by_contra hq
    obtain ⟨w, hw⟩ := h.rights.right hq
    match w with
    | none => exact hw.1 (h.sections.exited hex).2
    | some (.thread t) =>
      rw [State.Has, hidle t] at hw
      cases hw
    | some .logger =>
      rw [State.Has, hex] at hw
      cases hw

/-- **The asynchronous logger writes every log once and in order**, and nothing is left
unwritten. -/
theorem run_writesOnce (count : BitVec 32) (as : List (Act ι)) :
    WritesOnce (runFrom step (start ι count) as) :=
  (step_inv.run (start_inv count) as).writesOnce

/-- A request is queued behind another one, and both are written when the logger stopped. -/
example :
    let go (p : Party (Fin 2)) : Act (Fin 2) := .go p ⟨100, 100, true, none⟩
    let get (t : Fin 2) (n : ℕ) : List (Act (Fin 2)) :=
      [go (.thread t), go (.thread t), .go (.thread t) ⟨100, 100, true, some n⟩,
        go (.thread t), go (.thread t)]
    let s := runFrom step (start (Fin 2) 0) (.log 0 "a" :: get 0 5 ++ .log 1 "b" :: get 1 7 ++
      List.replicate 6 (go (.thread 0)) ++ [go (.thread 1)] ++ List.replicate 17 (go .logger) ++
      .stopAndJoin 0 :: List.replicate 3 (go (.thread 0)) ++ List.replicate 3 (go .logger) ++
      List.replicate 2 (go (.thread 0)))
    s.file.map (·.text) = ["a", "b"] ∧ s.joined = true ∧ s.pc (.thread 0) = .idle := by
  decide

end Steps

end Eabase.Utility.AsyncLogger
