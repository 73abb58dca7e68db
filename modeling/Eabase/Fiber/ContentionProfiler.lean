import Eabase.Lib.Machine
import Eabase.Lib.Places

/-!
# ContentionProfiler

While the profiler is on, a contended `pthread_mutex_lock` may be sampled. Its
contention site is kept until the unlock, which submits it: in a list of the
thread, or when this is full in a map that all mutexes with one hash share, an
entry of which carries the version of the session that claimed it.

An unlock does not look at the version, neither in the list nor in the map, and
submits what an earlier session has left there; and it takes an entry out of the
map in steps, while a lock of the next session may claim the entry.

A step is one access to shared memory; what a thread does to its own list goes
with it. A session begins when `g_cp` is set, and its version is written next.
What is kept besides are the samples that were taken, each with its mutex and
session, and where they went.
-/

namespace Eabase.Fiber.ContentionProfiler

open Lib Function List

variable {ι M H : Type*} [DecidableEq ι] [DecidableEq M] [DecidableEq H] {hash : M → H}

/-! ## The machine -/

def TLS_MAX_COUNT : ℕ := 3

structure Sample (M : Type*) where
  id : ℕ
  mutex : M
  session : ℕ
  deriving DecidableEq

/-- `fiber_contention_site_t`, which is valid if the range is not 0; `origin` is the sample that was
written into it. -/
structure Csite (M : Type*) where
  duration : ℤ
  range : ℕ
  origin : Option (Sample M)
  valid : range = 0 ↔ origin = none

def Csite.empty : Csite M where
  duration := 0
  range := 0
  origin := none
  valid := ⟨fun _ => rfl, fun _ => rfl⟩

/-- `make_contention_site_invalid`. -/
def Csite.invalid (c : Csite M) : Csite M where
  duration := c.duration
  range := 0
  origin := none
  valid := ⟨fun _ => rfl, fun _ => rfl⟩

/-- `TLSPthreadContentionSites`. -/
structure Tls (M : Type*) where
  count : ℕ
  version : ℕ
  mutex : ℕ → Option M
  csite : ℕ → Csite M

/-- What a lock that samples has with it: the range and the time before the lock. -/
structure Ticket (M : Type*) where
  range : ℕ
  start : ℤ
  origin : Sample M
  pos : range ≠ 0

/-- Where a lock that waits is to record the contention. -/
inductive Record (M : Type*) where
  | nowhere
  | slot (i : ℕ) (k : Ticket M)
  | map (k : Ticket M)

/-- Where a thread stands: in a lock, before it reads `g_cp`, tries the mutex, asks the collector,
looks at its list, locks, writes the list, loads the map's entry, reads the version, swaps the
entry, writes its site; in an unlock, before it reads `g_cp`, looks at its list, loads the map's
entry, copies its site, makes it invalid, clears the entry, unlocks and submits. -/
inductive Pc (M : Type*) where
  | idle
  | check (m : M)
  | tryLock (m : M)
  | sample (m : M)
  | tls (m : M) (k : Option (Ticket M))
  | wait (m : M) (r : Record M)
  | write (m : M) (i : ℕ) (k : Ticket M)
  | add (m : M) (k : Ticket M)
  | claim (m : M) (k : Ticket M) (expected : Option (ℕ × M))
  | swap (m : M) (k : Ticket M) (expected : Option (ℕ × M)) (desired : ℕ)
  | mapWrite (m : M) (k : Ticket M)
  | checkOff (m : M)
  | lookup (m : M)
  | load (m : M)
  | copy (m : M)
  | invalidate (m : M) (saved : Csite M)
  | clear (m : M) (saved : Csite M)
  | unlock (m : M) (saved : Csite M) (start : ℤ)
  | submit (m : M) (saved : Csite M) (start : ℤ)

/-- A mutex is free, or locked; a call that has locked it, or is to unlock it, has not returned. -/
inductive Status (ι : Type*) where
  | free
  | held
  | owned (t : ι)
  deriving DecidableEq

/-- A contention that is submitted by the unlock of `mutex`, in this session. -/
structure Submission (M : Type*) where
  mutex : M
  csite : Csite M
  session : ℕ

/-- `g_cp`, `g_cp_version`, the lists of the threads, the map and the mutexes. `starting` says that
`g_cp` is set and its version is not written yet. -/
structure State (ι M H : Type*) where
  cp : Bool
  starting : Bool
  version : ℕ
  tls : ι → Tls M
  entry : H → Option (ℕ × M)
  site : H → Csite M
  status : M → Status ι
  pc : ι → Pc M
  sampled : List (Sample M)
  submitted : List (Submission M)

def start (ι M H : Type*) : State ι M H where
  cp := false
  starting := false
  version := 0
  tls _ := ⟨0, 0, fun _ => none, fun _ => .empty⟩
  entry _ := none
  site _ := .empty
  status _ := .free
  pc _ := .idle
  sampled := []
  submitted := []

/-- One label of a run. A step of a thread reads the clock, or gets a sampling range from the
collector; the real operations may fail. -/
inductive Act (ι M : Type*) where
  | startCp
  | startVersion
  | stop
  | lock (t : ι) (m : M)
  | unlock (t : ι) (m : M)
  | go (t : ι) (now : ℤ) (range : ℕ)
  | fail (t : ι)

namespace State

section

variable (s : State ι M H)

def session : ℕ :=
  s.version + if s.starting then 1 else 0

def goto (t : ι) (p : Pc M) : State ι M H :=
  { s with pc := update s.pc t p }

def setStatus (m : M) (st : Status ι) : State ι M H :=
  { s with status := update s.status m st }

def setTls (t : ι) (l : Tls M) : State ι M H :=
  { s with tls := update s.tls t l }

def setSite (h : H) (c : Csite M) : State ι M H :=
  { s with site := update s.site h c }

def setEntry (h : H) (e : Option (ℕ × M)) : State ι M H :=
  { s with entry := update s.entry h e }

def locked (t : ι) (m : M) : State ι M H :=
  (s.setStatus m .held).goto t .idle

end

end State

/-! ### The thread's own list -/

def Tls.renew (l : Tls M) (version : ℕ) : Tls M :=
  if l.version = version then l else { l with version := version, count := 0 }

/-- An entry for the mutex; its site stays as it is, or is made invalid if the lock is not
sampled. -/
def Tls.register (l : Tls M) (m : M) (sampled : Bool) : Tls M :=
  { l with
    count := l.count + 1
    mutex := update l.mutex l.count (some m)
    csite := if sampled then l.csite else update l.csite l.count (l.csite l.count).invalid }

def Tls.find (l : Tls M) (m : M) : Option ℕ :=
  (List.range l.count).reverse.find? fun i => l.mutex i = some m

/-- The last entry comes in the place of an entry. -/
def Tls.remove (l : Tls M) (i : ℕ) : Tls M :=
  { l with
    count := l.count - 1
    mutex := update l.mutex i (l.mutex (l.count - 1))
    csite := update l.csite i (l.csite (l.count - 1)) }

def Tls.put (l : Tls M) (i : ℕ) (c : Csite M) : Tls M :=
  { l with csite := update l.csite i c }

/-! ### The steps of a lock -/

def Ticket.csite (k : Ticket M) (now : ℤ) : Csite M where
  duration := now - k.start
  range := k.range
  origin := some k.origin
  valid := ⟨fun h => absurd h k.pos, nofun⟩

/-- `is_collectable`, which gives 0 if the lock is not to be sampled. -/
def sampleStep (s : State ι M H) (t : ι) (m : M) (range : ℕ) : State ι M H :=
  if h : range = 0 then s.goto t (.tls m none)
  else
    let o : Sample M := ⟨s.sampled.length, m, s.session⟩
    { s with sampled := s.sampled ++ [o] }.goto t (.tls m (some ⟨range, 0, o, h⟩))

def Ticket.at (k : Ticket M) (now : ℤ) : Ticket M :=
  { k with start := now }

section

variable (s : State ι M H) (t : ι) (m : M)

/-- If the list has no place, a sample is to go into the map. -/
def tlsStep (k : Option (Ticket M)) (now : ℤ) : State ι M H :=
  let l := (s.tls t).renew s.version
  if l.count < TLS_MAX_COUNT then
    match k with
    | none => (s.setTls t (l.register m false)).goto t (.wait m .nowhere)
    | some k => (s.setTls t (l.register m true)).goto t (.wait m (.slot l.count (k.at now)))
  else
    match k with
    | none => (s.setTls t l).goto t (.wait m .nowhere)
    | some k => (s.setTls t l).goto t (.wait m (.map (k.at now)))

def waitStep (r : Record M) : State ι M H :=
  if s.status m = .free then
    match r with
    | .nowhere => s.locked t m
    | .slot i k => (s.setStatus m (.owned t)).goto t (.write m i k)
    | .map k => (s.setStatus m (.owned t)).goto t (.add m k)
  else s

def writeStep (i : ℕ) (k : Ticket M) (now : ℤ) : State ι M H :=
  (s.setTls t ((s.tls t).put i (k.csite now))).locked t m

/-- The version that goes into an entry has 16 bits. -/
def claimStep (k : Ticket M) (expected : Option (ℕ × M)) : State ι M H :=
  match expected with
  | none => s.goto t (.swap m k expected (s.version % 2 ^ 16))
  | some (v, _) =>
    if v = s.version % 2 ^ 16 then s.locked t m else s.goto t (.swap m k expected (s.version % 2 ^ 16))

end

section

variable (hash : M → H) (s : State ι M H) (t : ι) (m : M) (k : Ticket M)

/-- `compare_exchange_strong`. -/
def swapStep (expected : Option (ℕ × M))
    (desired : ℕ) : State ι M H :=
  if s.entry (hash m) = expected then (s.setEntry (hash m) (some (desired, m))).goto t (.mapWrite m k)
  else s.locked t m

def mapWriteStep (now : ℤ) : State ι M H :=
  (s.setSite (hash m) (k.csite now)).locked t m

end

/-! ### The steps of an unlock -/

def lookupStep (s : State ι M H) (t : ι) (m : M) (now : ℤ) : State ι M H :=
  match (s.tls t).find m with
  | none => s.goto t (.load m)
  | some i =>
    let c := (s.tls t).csite i
    if c.range ≠ 0 then (s.setTls t ((s.tls t).remove i)).goto t (.unlock m c now)
    else (s.setTls t ((s.tls t).remove i)).goto t (.unlock m .empty 0)

/-- The version of the entry is not looked at. -/
def loadStep (hash : M → H) (s : State ι M H) (t : ι) (m : M) : State ι M H :=
  match s.entry (hash m) with
  | none => s.goto t (.unlock m .empty 0)
  | some (_, m') => if m' = m then s.goto t (.copy m) else s.goto t (.unlock m .empty 0)

/-- After the real unlock: is there a sample to submit? -/
def unlockStep (s : State ι M H) (t : ι) (m : M) (saved : Csite M) (start : ℤ) : State ι M H :=
  (s.setStatus m .free).goto t (if start = 0 then .idle else .submit m saved start)

def Csite.extend (c : Csite M) (d : ℤ) : Csite M :=
  { c with duration := c.duration + d }

/-- `submit_contention`. -/
def submitStep (s : State ι M H) (t : ι) (m : M) (saved : Csite M) (start now : ℤ) : State ι M H :=
  { s with submitted := ⟨m, saved.extend (now - start), s.session⟩ :: s.submitted }.goto
    t .idle

def goStep (hash : M → H) (s : State ι M H) (t : ι) (now : ℤ) (range : ℕ) : State ι M H :=
  match s.pc t with
  | .idle => s
  | .check m => s.goto t (if s.cp then .tryLock m else .wait m .nowhere)
  | .tryLock m => if s.status m = .free then s.locked t m else s.goto t (.sample m)
  | .sample m => sampleStep s t m range
  | .tls m k => tlsStep s t m k now
  | .wait m r => waitStep s t m r
  | .write m i k => writeStep s t m i k now
  | .add m k => s.goto t (.claim m k (s.entry (hash m)))
  | .claim m k expected => claimStep s t m k expected
  | .swap m k expected desired => swapStep hash s t m k expected desired
  | .mapWrite m k => mapWriteStep hash s t m k now
  | .checkOff m => s.goto t (if s.cp then .lookup m else .unlock m .empty 0)
  | .lookup m => lookupStep s t m now
  | .load m => loadStep hash s t m
  | .copy m => s.goto t (.invalidate m (s.site (hash m)))
  | .invalidate m saved => (s.setSite (hash m) (s.site (hash m)).invalid).goto t (.clear m saved)
  | .clear m saved => (s.setEntry (hash m) none).goto t (.unlock m saved now)
  | .unlock m saved start => unlockStep s t m saved start
  | .submit m saved start => submitStep s t m saved start now

def failStep (s : State ι M H) (t : ι) : State ι M H :=
  match s.pc t with
  | .tryLock _ => s.goto t .idle
  | .wait _ _ => s.goto t .idle
  | .unlock m saved start => (s.setStatus m .held).goto t
      (if start = 0 then .idle else .submit m saved start)
  | _ => s

def step (hash : M → H) (s : State ι M H) : Act ι M → State ι M H
  | .startCp => if s.cp = false ∧ s.starting = false then { s with cp := true, starting := true } else s
  | .startVersion => if s.starting then { s with starting := false, version := s.version + 1 } else s
  | .stop => if s.cp ∧ s.starting = false then { s with cp := false } else s
  | .lock t m => if s.pc t matches .idle then s.goto t (.check m) else s
  | .unlock t m =>
    if (s.pc t matches .idle) ∧ s.status m
      = .held then (s.setStatus m (.owned t)).goto t (.checkOff m) else s
  | .go t now range => goStep hash s t now range
  | .fail t => failStep s t

/-! ## What holds -/

/-- Every submission is a sample, of a lock of the mutex in the session, and no sample is submitted
twice. -/
structure Genuine (s : State ι M H) : Prop where
  sample : ∀ x ∈ s.submitted, x.csite.range ≠ 0 ∧
    ∃ o ∈ s.sampled, x.csite.origin = some o ∧ o.mutex = x.mutex ∧ o.session = x.session
  once : (s.submitted.map fun x => x.csite.origin).Nodup
  distinct : s.sampled.Nodup

/-! ### Mutexes without the profiler -/

inductive PlainPc (M : Type*) where
  | idle
  | locking (m : M)
  | unlocking (m : M)

structure Plain (ι M : Type*) where
  locked : M → Bool
  pc : ι → PlainPc M

def plainStart (ι M : Type*) : Plain ι M where
  locked _ := false
  pc _ := .idle

inductive PlainAct (ι M : Type*) where
  | lock (t : ι) (m : M)
  | unlock (t : ι) (m : M)
  | acquire (t : ι)
  | release (t : ι)
  | fail (t : ι)

def plainStep (s : Plain ι M) : PlainAct ι M → Plain ι M
  | .lock t m =>
    match s.pc t with
    | .idle => { s with pc := update s.pc t (.locking m) }
    | _ => s
  | .unlock t m =>
    match s.pc t with
    | .idle => if s.locked m then { s with pc := update s.pc t (.unlocking m) } else s
    | _ => s
  | .acquire t =>
    match s.pc t with
    | .locking m => if s.locked m then s else ⟨update s.locked m true, update s.pc t .idle⟩
    | _ => s
  | .release t =>
    match s.pc t with
    | .unlocking m => ⟨update s.locked m false, update s.pc t .idle⟩
    | _ => s
  | .fail t => { s with pc := update s.pc t .idle }

/-- What a call is without the profiler: a lock returns when it has the mutex, an unlock when it has
not. -/
def Pc.plain : Pc M → PlainPc M
  | .check m => .locking m
  | .tryLock m => .locking m
  | .sample m => .locking m
  | .tls m _ => .locking m
  | .wait m _ => .locking m
  | .checkOff m => .unlocking m
  | .lookup m => .unlocking m
  | .load m => .unlocking m
  | .copy m => .unlocking m
  | .invalidate m _ => .unlocking m
  | .clear m _ => .unlocking m
  | .unlock m _ _ => .unlocking m
  | _ => .idle

def State.plain (s : State ι M H) : Plain ι M where
  locked m := s.status m ≠ .free
  pc t := (s.pc t).plain

def Pc.rank : Pc M → ℕ
  | .idle => 0
  | .check _ => 9
  | .tryLock _ => 8
  | .sample _ => 7
  | .tls _ _ => 6
  | .wait _ _ => 5
  | .write _ _ _ => 1
  | .add _ _ => 4
  | .claim _ _ _ => 3
  | .swap _ _ _ _ => 2
  | .mapWrite _ _ => 1
  | .checkOff _ => 8
  | .lookup _ => 7
  | .load _ => 6
  | .copy _ => 5
  | .invalidate _ _ => 4
  | .clear _ _ => 3
  | .unlock _ _ _ => 2
  | .submit _ _ _ => 1

/-- The mutexes are what they are in a run without the profiler, and a call goes on unless it waits
for a mutex that is locked. -/
structure Behaves (hash : M → H) (s : State ι M H) : Prop where
  plain : ∃ bs, s.plain = runFrom plainStep (plainStart ι M) bs
  goes : ∀ t now range, (s.pc t matches .idle) ∨ (∃ m r, s.pc t = .wait m r ∧ s.status m ≠ .free) ∨
    ((goStep hash s t now range).pc t).rank < (s.pc t).rank

/-! ### The condition -/

/-- The mutex whose entry the thread writes or takes out. -/
def Pc.touches : Pc M → Option M
  | .mapWrite m _ => some m
  | .copy m => some m
  | .invalidate m _ => some m
  | .clear m _ => some m
  | _ => none

/-- The thread has found a contention that it will submit. -/
def Pc.found : Pc M → Bool
  | .copy _ => true
  | .invalidate _ _ => true
  | .clear _ _ => true
  | .unlock _ _ start => start ≠ 0
  | .submit _ _ _ => true
  | _ => false

/-- A step of a thread is sound: a lock records its sample in the session in which it was taken, and
claims no entry that is being written or taken out; an unlock finds nothing of an earlier
session. -/
def Heeds.go (hash : M → H) (s : State ι M H) (t : ι) : Prop :=
  match s.pc t with
  | .tls _ (some k) => ((s.tls t).renew s.version).count < TLS_MAX_COUNT → k.origin.session = s.version
  | .swap m k expected desired =>
    s.entry (hash m) = expected →
      k.origin.session % 2 ^ 16 = desired ∧ ∀ u, ∀ m' ∈ (s.pc u).touches, hash m' ≠ hash m
  | .lookup m => ∀ i ∈ (s.tls t).find m, ((s.tls t).csite i).range ≠ 0 → (s.tls t).version = s.session
  | .load m => ∀ e ∈ s.entry (hash m), e.2 = m → e.1 = s.session % 2 ^ 16
  | _ => True

/-- The entry of the list that a lock leaves when it fails. -/
def Pc.mayLeave : Pc M → Option ℕ
  | .wait _ (.slot i _) => some i
  | _ => none

/-- Besides, a session begins when no unlock has a contention to submit, and there are fewer than
2^16; and a lock fails only when it leaves nothing in its list. -/
def Heeds (hash : M → H) (s : State ι M H) : Act ι M → Prop
  | .startCp => s.session + 1 < 2 ^ 16 ∧ ∀ t, (s.pc t).found = false
  | .go t _ _ => Heeds.go hash s t
  | .fail t => ∀ i ∈ (s.pc t).mayLeave, ((s.tls t).csite i).range = 0
  | _ => True

instance [Fintype ι] (s : State ι M H) (t : ι) : Decidable (Heeds.go hash s t) := by
  unfold Heeds.go
  split <;> infer_instance

instance [Fintype ι] (s : State ι M H) (act : Act ι M) : Decidable (Heeds hash s act) := by
  cases act <;> unfold Heeds <;> infer_instance

/-! ## The invariant -/

def Pc.sampleOf : Pc M → Option (Sample M)
  | .tls _ k => k.map Ticket.origin
  | .wait _ (.slot _ k) => some k.origin
  | .wait _ (.map k) => some k.origin
  | .write _ _ k => some k.origin
  | .add _ k => some k.origin
  | .claim _ k _ => some k.origin
  | .swap _ k _ _ => some k.origin
  | .mapWrite _ k => some k.origin
  | .invalidate _ c => c.origin
  | .clear _ c => c.origin
  | .unlock _ c _ => c.origin
  | .submit _ c _ => c.origin
  | _ => none

/-- The place of the list that the thread is to write. -/
def Pc.slot : Pc M → Option ℕ
  | .wait _ (.slot i _) => some i
  | .write _ i _ => some i
  | _ => none

/-- The mutex whose entry has no sample now: it was not written yet, or was taken out. -/
def Pc.busy : Pc M → Option M
  | .mapWrite m _ => some m
  | .invalidate m _ => some m
  | .clear m _ => some m
  | _ => none

/-- The mutex that the call has locked, or is to unlock. -/
def Pc.owns : Pc M → Option M
  | .write m _ _ => some m
  | .add m _ => some m
  | .claim m _ _ => some m
  | .swap m _ _ _ => some m
  | .mapWrite m _ => some m
  | .checkOff m => some m
  | .lookup m => some m
  | .load m => some m
  | .copy m => some m
  | .invalidate m _ => some m
  | .clear m _ => some m
  | .unlock m _ _ => some m
  | _ => none

inductive Place (ι M : Type*) where
  | list (t : ι) (i : ℕ)
  | map (m : M)
  | thread (t : ι)

def At (hash : M → H) (s : State ι M H) : Place ι M → Sample M → Prop
  | .list t i, o => i < (s.tls t).count ∧ ((s.tls t).csite i).origin = some o ∧ (s.pc t).slot ≠ some i
  | .map m, o =>
    (∃ v, s.entry (hash m) = some (v, m)) ∧ (s.site (hash m)).origin = some o ∧ ∀ t,
      (s.pc t).busy ≠ some m
  | .thread t, o => (s.pc t).sampleOf = some o

/-- The place of the list is the sample's. -/
def SlotOk (s : State ι M H) (t : ι) (m : M) (i : ℕ) (o : Sample M) : Prop :=
  i < (s.tls t).count ∧ (s.tls t).mutex i = some m ∧ o.session = (s.tls t).version

/-- A contention of the mutex that an unlock has found, of this session. -/
def FoundOk (s : State ι M H) (m : M) (c : Csite M) : Prop :=
  ∃ o, c.origin = some o ∧ o.mutex = m ∧ o.session = s.session

def PcOk (hash : M → H) (s : State ι M H) (t : ι) : Pc M → Prop
  | .tls m (some k) => k.origin.mutex = m
  | .wait m (.slot i k) => k.origin.mutex = m ∧ SlotOk s t m i k.origin
  | .wait m (.map k) => k.origin.mutex = m
  | .write m i k => k.origin.mutex = m ∧ SlotOk s t m i k.origin
  | .add m k => k.origin.mutex = m
  | .claim m k _ => k.origin.mutex = m
  | .swap m k _ _ => k.origin.mutex = m
  | .mapWrite m k => k.origin.mutex = m ∧ s.entry (hash m) = some (k.origin.session % 2 ^ 16, m)
  | .copy m => s.entry (hash m) = some (s.session % 2 ^ 16, m)
  | .invalidate m c => (∃ v, s.entry (hash m) = some (v, m)) ∧ FoundOk s m c
  | .clear m c => (∃ v, s.entry (hash m) = some (v, m)) ∧ FoundOk s m c
  | .unlock m c start => start ≠ 0 → FoundOk s m c
  | .submit m c _ => FoundOk s m c
  | _ => True

/-- An entry that is not being written or taken out has a sample of its mutex and version. -/
def EntryOk (s : State ι M H) (h : H) (v : ℕ) (m : M) : Prop :=
  (∀ t, (s.pc t).busy ≠ some m) → ∃ o, (s.site h).origin = some o ∧ o.mutex = m ∧ v = o.session % 2 ^ 16

structure Inv (hash : M → H) (s : State ι M H) : Prop where
  owner : ∀ t m, (s.pc t).owns = some m → s.status m = .owned t
  pcOk : ∀ t, PcOk hash s t (s.pc t)
  list : ∀ t i o, At hash s (.list t i) o → (s.tls t).mutex i = some o.mutex ∧
    o.session = (s.tls t).version
  entry : ∀ h v m, s.entry h = some (v, m) → hash m = h ∧ EntryOk s h v m
  apart : Apart (At hash s)
  pending : ∀ p o, At hash s p o → o ∈ s.sampled ∧ ∀ x ∈ s.submitted, x.csite.origin ≠ some o
  bound : s.session < 2 ^ 16 ∧ ∀ o ∈ s.sampled, o.session < 2 ^ 16 ∧ o.id < s.sampled.length
  genuine : Genuine s

variable {s s' : State ι M H} {t u : ι} {m m' : M} {c : Csite M} {e : Option (ℕ × M)} {i : ℕ}
  {k : Ticket M} {l : Tls M} {pc pc' : Pc M} {st : Status ι} {now : ℤ} {o : Sample M}
  {p : Place ι M}

omit [DecidableEq M] in
theorem Pc.touches_owns (h : pc.touches = some m) : pc.owns = some m := by
  cases pc <;> first | exact h | cases h

omit [DecidableEq M] in
theorem Pc.busy_touches (h : pc.busy = some m) : pc.touches = some m := by
  cases pc <;> first | exact h | cases h

section

omit [DecidableEq ι] [DecidableEq M] [DecidableEq H]

theorem Inv.owner_eq (h : Inv hash s) (ht : (s.pc t).owns = some m) (hu : (s.pc u).owns = some m) :
    t = u := by
  have hst := h.owner t m ht
  rw [h.owner u m hu] at hst
  exact (Status.owned.inj hst).symm

theorem Inv.entry_of_touches (h : Inv hash s) (ht : (s.pc t).touches = some m) :
    ∃ v, s.entry (hash m) = some (v, m) := by
  have hok := h.pcOk t
  cases hpc : s.pc t <;> rw [hpc] at ht hok <;> cases ht
  · exact ⟨_, hok.2⟩
  · exact ⟨_, hok⟩
  · exact hok.1
  · exact hok.1

theorem Inv.touches_eq (h : Inv hash s) (ht : (s.pc t).touches = some m) (hu : (s.pc u).touches = some m')
    (hh : hash m = hash m') : t = u := by
  obtain ⟨v, hv⟩ := h.entry_of_touches ht
  obtain ⟨v', hv'⟩ := h.entry_of_touches hu
  rw [hh, hv'] at hv
  cases hv
  exact h.owner_eq (Pc.touches_owns ht) (Pc.touches_owns hu)

theorem PcOk.frame (h : PcOk hash s u pc) (htls : s'.tls u = s.tls u) (hsession : s'.session = s.session)
    (hentry : ∀ m, pc.touches = some m → s'.entry (hash m) = s.entry (hash m)) : PcOk hash s' u pc := by
  unfold PcOk SlotOk FoundOk at h ⊢
  rw [htls, hsession]
  split
  case h_8 | h_9 | h_10 | h_11 =>
    rw [hentry _ rfl]
    exact h
  case h_14 => trivial
  all_goals exact h

end

section

omit [DecidableEq M] [DecidableEq H]

/-- What is read off where the threads stand, when `t` goes on with the same. -/
theorem proj_goto {α : Type*} (f : Pc M → α) (hpc : s'.pc = update s.pc t pc') (hf : f pc' = f (s.pc t))
    (u : ι) : f (s'.pc u) = f (s.pc u) := by
  rw [hpc]
  obtain rfl | hut := eq_or_ne u t
  · rw [update_self, hf]
  · rw [update_of_ne hut]

/-- A step that touches neither the lists nor the map: samples come to the thread only. -/
theorem At.of_goto (ho : At hash s' p o)
    (hpc : s'.pc = update s.pc t pc') (htls : s'.tls = s.tls) (hentry : s'.entry = s.entry)
    (hsite : s'.site = s.site)
    (hbusy : pc'.busy = (s.pc t).busy)
    (hslot : ∀ i, (s.pc t).slot = some i → pc'.slot = some i ∨ ((s.tls t).csite i).origin = none) :
    At hash s p o ∨ p = .thread t ∧ pc'.sampleOf = some o := by
  rcases p with ⟨u, i⟩ | m | u
  · left
    obtain ⟨hi, hc, hne⟩ := ho
    rw [htls] at hi hc
    refine ⟨hi, hc, fun hold => ?_⟩
    rw [hpc] at hne
    obtain rfl | hut := eq_or_ne u t
    · rw [update_self] at hne
      rcases hslot i hold with hnew | hnone
      · exact hne hnew
      · rw [hnone] at hc
        cases hc
    · rw [update_of_ne hut] at hne
      exact hne hold
  · left
    obtain ⟨hv, hc, hne⟩ := ho
    rw [hentry] at hv
    rw [hsite] at hc
    exact ⟨hv, hc, fun u => proj_goto Pc.busy hpc hbusy u ▸ hne u⟩
  · change (s'.pc u).sampleOf = some o at ho
    rw [hpc] at ho
    obtain rfl | hut := eq_or_ne u t
    · rw [update_self] at ho
      exact .inr ⟨rfl, ho⟩
    · rw [update_of_ne hut] at ho
      exact .inl ho

end

section

variable (h : Inv hash s) (hpc : s'.pc = update s.pc t pc')
include h hpc

section

omit [DecidableEq M] [DecidableEq H]

theorem Inv.entry_goto (hentry : s'.entry = s.entry)
    (hsite : s'.site = s.site) (hbusy : pc'.busy = (s.pc t).busy) :
    ∀ k v m, s'.entry k = some (v, m) → hash m = k ∧ EntryOk s' k v m := by
  intro k v m hv
  rw [hentry] at hv
  obtain ⟨hh, hok⟩ := h.entry k v m hv
  refine ⟨hh, fun hne => ?_⟩
  rw [hsite]
  exact hok fun u => proj_goto Pc.busy hpc hbusy u ▸ hne u

theorem Inv.frame (htls : ∀ u, u ≠ t → s'.tls u = s.tls u) (hsession : s'.session = s.session)
    (howner : ∀ u m, u ≠ t → (s.pc u).owns = some m → s'.status m = .owned u)
    (howns : ∀ m, pc'.owns = some m → s'.status m = .owned t)
    (hentry : ∀ u m, u ≠ t → (s.pc u).touches = some m → s'.entry (hash m) = s.entry (hash m))
    (ht : PcOk hash s' t pc')
    (hlist : ∀ i o, At hash s' (.list t i) o → (s'.tls t).mutex i = some o.mutex ∧
      o.session = (s'.tls t).version)
    (hmap : ∀ h v m, s'.entry h = some (v, m) → hash m = h ∧ EntryOk s' h v m)
    (hapart : Apart (At hash s'))
    (hpending : ∀ p o, At hash s' p o → o ∈ s'.sampled ∧ ∀ x ∈ s'.submitted, x.csite.origin ≠ some o)
    (hbound : ∀ o ∈ s'.sampled, o.session < 2 ^ 16 ∧ o.id < s'.sampled.length) (hgenuine : Genuine s') :
    Inv hash s' := by
  constructor
  case owner =>
    intro u m hu
    rw [hpc] at hu
    obtain rfl | hut := eq_or_ne u t
    · rw [update_self] at hu
      exact howns m hu
    · rw [update_of_ne hut] at hu
      exact howner u m hut hu
  case pcOk =>
    intro u
    rw [hpc]
    obtain rfl | hut := eq_or_ne u t
    · rw [update_self]
      exact ht
    · rw [update_of_ne hut]
      exact (h.pcOk u).frame (htls u hut) hsession fun m hm => hentry u m hut hm
  case list =>
    intro u i o ho
    obtain rfl | hut := eq_or_ne u t
    · exact hlist i o ho
    · rw [htls u hut]
      apply h.list u i o
      obtain ⟨hi, hc, hslot⟩ := ho
      rw [htls u hut] at hi hc
      rw [hpc, update_of_ne hut] at hslot
      exact ⟨hi, hc, hslot⟩
  case entry => exact hmap
  case apart => exact hapart
  case pending => exact hpending
  case bound => exact ⟨hsession ▸ h.bound.1, hbound⟩
  case genuine => exact hgenuine

/-- A step of the thread `t` that takes no sample and submits none, by what it touches. -/
theorem Inv.next (htls : ∀ u, u ≠ t → s'.tls u = s.tls u) (hsampled : s'.sampled = s.sampled)
    (hsubmitted : s'.submitted = s.submitted) (hsession : s'.session = s.session)
    (howner : ∀ u m, u ≠ t → (s.pc u).owns = some m → s'.status m = .owned u)
    (howns : ∀ m, pc'.owns = some m → s'.status m = .owned t)
    (hentry : ∀ u m, u ≠ t → (s.pc u).touches = some m → s'.entry (hash m) = s.entry (hash m))
    (ht : PcOk hash s' t pc')
    (hlist : ∀ i o, At hash s' (.list t i) o → (s'.tls t).mutex i = some o.mutex ∧
      o.session = (s'.tls t).version)
    (hmap : ∀ h v m, s'.entry h = some (v, m) → hash m = h ∧ EntryOk s' h v m)
    (hback : ∀ p o, At hash s' p o → ∃ q, At hash s q o) (hapart : Apart (At hash s')) : Inv hash s' := by
  apply h.frame hpc htls hsession howner howns hentry ht hlist hmap hapart
  case hpending =>
    intro p o ho
    obtain ⟨q, hq⟩ := hback p o ho
    rw [hsampled, hsubmitted]
    exact h.pending q o hq
  case hbound =>
    rw [hsampled]
    exact h.bound.2
  case hgenuine =>
    constructor
    · rw [hsampled, hsubmitted]
      exact h.genuine.sample
    · rw [hsubmitted]
      exact h.genuine.once
    · rw [hsampled]
      exact h.genuine.distinct

end

end

omit [DecidableEq M] [DecidableEq H] in
theorem Inv.walk (h : Inv hash s) (hp : s.pc t = pc) (hpc : s'.pc = update s.pc t pc')
    (htls : s'.tls = s.tls) (hentry : s'.entry = s.entry) (hsite : s'.site = s.site)
    (hsampled : s'.sampled = s.sampled)
    (hsubmitted : s'.submitted = s.submitted) (hsession : s'.session = s.session)
    (howner : ∀ u m, u ≠ t → (s.pc u).owns = some m → s'.status m = .owned u)
    (howns : ∀ m, pc'.owns = some m → s'.status m = .owned t) (ht : PcOk hash s' t pc')
    (hsample : ∀ o, pc'.sampleOf = some o → pc.sampleOf = some o) (hbusy : pc.busy = none)
    (hbusy' : pc'.busy = none)
    (hslot : ∀ i, pc.slot = some i → pc'.slot = some i ∨ ((s.tls t).csite i).origin = none) :
    Inv hash s' := by
  subst hp
  have hsame := hbusy'.trans hbusy.symm
  have hsub : ∀ p o, At hash s' p o → At hash s p o := by
    intro p o ho
    rcases At.of_goto ho hpc htls hentry hsite hsame hslot with hold | ⟨rfl, hnew⟩
    · exact hold
    · exact hsample o hnew
  apply h.next hpc (fun u _ => congrFun htls u) hsampled hsubmitted hsession howner howns
  case hentry => exact fun u m _ _ => congrFun hentry (hash m)
  case ht => exact ht
  case hlist =>
    intro i o ho
    rw [htls]
    exact h.list t i o (hsub _ o ho)
  case hmap => exact h.entry_goto hpc hentry hsite hsame
  case hback => exact fun p o ho => ⟨p, hsub p o ho⟩
  case hapart => exact h.apart.mono hsub

/-! ## Steps that touch neither the lists nor the map -/

section

variable (h : Inv hash s)
include h

section

omit [DecidableEq H]

omit [DecidableEq ι] in
theorem Inv.owner_update (hm : ∀ u, u ≠ t → s.status m ≠ .owned u) (st : Status ι) :
    ∀ u m', u ≠ t → (s.pc u).owns = some m' → update s.status m st m' = .owned u := by
  intro u m' hu hown
  have hst := h.owner u m' hown
  apply (update_of_ne ?_ ..).trans hst
  rintro rfl
  exact hm u hu hst

omit [DecidableEq M] in
theorem Inv.goto (hp : s.pc t = pc)
    (howns : ∀ m, pc'.owns = some m → pc.owns = some m) (ht : PcOk hash (s.goto t pc') t pc')
    (hsample : ∀ o, pc'.sampleOf = some o → pc.sampleOf = some o) (hbusy : pc.busy = none)
    (hbusy' : pc'.busy = none)
    (hslot : ∀ i, pc.slot = some i → pc'.slot = some i ∨ ((s.tls t).csite i).origin = none) :
    Inv hash (s.goto t pc') := by
  have howns' : ∀ m, pc'.owns = some m → (s.goto t pc').status m = .owned t :=
    fun m hm => h.owner t m (hp ▸ howns m hm)
  exact h.walk hp rfl rfl rfl rfl rfl rfl rfl (fun u m _ hm => h.owner u m hm) howns' ht hsample
    hbusy hbusy' hslot

omit [DecidableEq M] in
theorem Inv.bare (hp : s.pc t = pc) (howns : pc'.owns = none ∨ pc'.owns = pc.owns)
    (ht : PcOk hash (s.goto t pc') t pc')
    (hbare : pc'.sampleOf = none ∧ pc.busy = none ∧ pc'.busy = none ∧ pc.slot = none) :
    Inv hash (s.goto t pc') := by
  obtain ⟨hsample, hbusy, hbusy', hslot⟩ := hbare
  apply h.goto hp _ ht _ hbusy hbusy'
  · intro i hi
    rw [hslot] at hi
    cases hi
  · intro m hm
    rcases howns with hnone | hsome
    · rw [hnone] at hm
      cases hm
    · exact hsome ▸ hm
  · intro o ho
    rw [hsample] at ho
    cases ho

theorem Inv.setStatus (hp : s.pc t = pc)
    (hm : ∀ u, u ≠ t → s.status m ≠ .owned u)
    (howns : pc'.owns = none ∨ pc'.owns = some m ∧ st = .owned t)
    (ht : PcOk hash ((s.setStatus m st).goto t pc') t pc')
    (hsample : ∀ o, pc'.sampleOf = some o → pc.sampleOf = some o) (hbusy : pc.busy = none)
    (hbusy' : pc'.busy = none)
    (hslot : ∀ i, pc.slot = some i → pc'.slot = some i) : Inv hash ((s.setStatus m st).goto t pc') := by
  have howns' : ∀ m', pc'.owns = some m' → ((s.setStatus m st).goto t pc').status m' = .owned t := by
    intro m' hm'
    rcases howns with hnone | ⟨hsome, hst⟩
    · rw [hnone] at hm'
      cases hm'
    · rw [hsome] at hm'
      cases hm'
      exact (update_self ..).trans hst
  exact h.walk hp rfl rfl rfl rfl rfl rfl rfl (h.owner_update hm st) howns' ht hsample hbusy hbusy'
    fun i hi => .inl (hslot i hi)

omit [DecidableEq ι] [DecidableEq M] in
theorem Inv.not_owned (hm : (s.pc t).owns = some m) : ∀ u, u ≠ t → s.status m ≠ .owned u := by
  intro u hu hst
  rw [h.owner t m hm] at hst
  exact hu (Status.owned.inj hst).symm

theorem Inv.locked (hp : s.pc t = pc) (hm : ∀ u, u ≠ t → s.status m ≠ .owned u)
    (hbusy : pc.busy = none) (hslot : pc.slot = none) : Inv hash (s.locked t m) := by
  have ht : PcOk hash (s.locked t m) t .idle := trivial
  apply h.setStatus hp hm (.inl rfl) ht nofun hbusy rfl
  intro i hi
  rw [hslot] at hi
  cases hi

end

end

section

omit [DecidableEq H]

omit [DecidableEq ι] [DecidableEq M] in
theorem not_owned_of_eq (h : s.status m = st) (hst : ∀ u, st ≠ .owned u) :
    ∀ u, u ≠ t → s.status m ≠ .owned u := by
  intro u _
  rw [h]
  exact hst u

omit [DecidableEq M] in
theorem Inv.lock (h : Inv hash s) (hpc : s.pc t = .idle) : Inv hash (s.goto t (.check m)) :=
  h.bare hpc (.inl rfl) trivial ⟨rfl, rfl, rfl, rfl⟩

theorem Inv.unlock (h : Inv hash s) (hpc : s.pc t = .idle) (hm : s.status m = .held) :
    Inv hash ((s.setStatus m (.owned t)).goto t (.checkOff m)) := by
  apply h.setStatus hpc (not_owned_of_eq hm nofun) (.inr ⟨rfl, rfl⟩)
  · trivial
  · exact nofun
  · rfl
  · rfl
  · exact nofun

omit [DecidableEq M] in
theorem Inv.check (h : Inv hash s) (hpc : s.pc t = .check m) :
    Inv hash (s.goto t (if s.cp then .tryLock m else .wait m .nowhere)) := by
  split
  · exact h.bare hpc (.inl rfl) trivial ⟨rfl, rfl, rfl, rfl⟩
  · exact h.bare hpc (.inl rfl) trivial ⟨rfl, rfl, rfl, rfl⟩

theorem Inv.tryLock (h : Inv hash s) (hpc : s.pc t = .tryLock m) :
    Inv hash (if s.status m = .free then s.locked t m else s.goto t (.sample m)) := by
  split
  case isTrue hfree => exact h.locked hpc (not_owned_of_eq hfree nofun) rfl rfl
  case isFalse => exact h.bare hpc (.inl rfl) trivial ⟨rfl, rfl, rfl, rfl⟩

theorem Inv.wait {r : Record M} (h : Inv hash s) (hpc : s.pc t = .wait m r) :
    Inv hash (waitStep s t m r) := by
  have ht := h.pcOk t
  rw [hpc] at ht
  unfold waitStep
  split
  case isFalse => exact h
  case isTrue hfree =>
    have hm : ∀ u, u ≠ t → s.status m ≠ .owned u := not_owned_of_eq hfree nofun
    cases r with
    | nowhere => exact h.locked hpc hm rfl rfl
    | slot i k => exact h.setStatus hpc hm (.inr ⟨rfl, rfl⟩) ht (fun _ ho => ho) rfl rfl fun _ hi => hi
    | map k => exact h.setStatus hpc hm (.inr ⟨rfl, rfl⟩) ht (fun _ ho => ho) rfl rfl nofun

end

section

variable (h : Inv hash s)
include h

section

omit [DecidableEq H]

omit [DecidableEq M] in
theorem Inv.add (hpc : s.pc t = .add m k) (e : Option (ℕ × M)) :
    Inv hash (s.goto t (.claim m k e)) := by
  have ht := h.pcOk t
  rw [hpc] at ht
  exact h.goto hpc (fun _ hm => hm) ht (fun _ ho => ho) rfl rfl nofun

theorem Inv.claim (hpc : s.pc t = .claim m k e) :
    Inv hash (claimStep s t m k e) := by
  have ht := h.pcOk t
  rw [hpc] at ht
  have hswap : ∀ v, Inv hash (s.goto t (.swap m k e v)) :=
    fun v => h.goto hpc (fun _ hm => hm) ht (fun _ ho => ho) rfl rfl nofun
  unfold claimStep
  split
  case h_1 => exact hswap _
  case h_2 =>
    split
    · exact h.locked hpc (h.not_owned (by rw [hpc]; rfl)) rfl rfl
    · exact hswap _

omit [DecidableEq M] in
theorem Inv.checkOff (hpc : s.pc t = .checkOff m) :
    Inv hash (s.goto t (if s.cp then .lookup m else .unlock m .empty 0)) := by
  split
  · exact h.bare hpc (.inr rfl) trivial ⟨rfl, rfl, rfl, rfl⟩
  · exact h.bare hpc (.inr rfl) (fun hne => absurd rfl hne) ⟨rfl, rfl, rfl, rfl⟩

theorem Inv.load (hpc : s.pc t = .load m)
    (hh : ∀ e ∈ s.entry (hash m), e.2 = m → e.1 = s.session % 2 ^ 16) :
    Inv hash (loadStep hash s t m) := by
  have hmiss : Inv hash (s.goto t (.unlock m .empty 0)) :=
    h.bare hpc (.inr rfl) (fun hne => absurd rfl hne) ⟨rfl, rfl, rfl, rfl⟩
  unfold loadStep
  split
  case h_1 => exact hmiss
  case h_2 v m' he =>
    split
    case isFalse => exact hmiss
    case isTrue hm =>
      subst hm
      have hv : v = s.session % 2 ^ 16 := hh (v, m') he rfl
      have ht : PcOk hash (s.goto t (.copy m')) t (.copy m') := he.trans (by rw [hv]; rfl)
      exact h.bare hpc (.inr rfl) ht ⟨rfl, rfl, rfl, rfl⟩

theorem Inv.release (hpc : s.pc t = .unlock m c now) :
    Inv hash ((s.setStatus m st).goto t (if now = 0 then .idle else .submit m c now)) := by
  have ht := h.pcOk t
  rw [hpc] at ht
  have hm : ∀ u, u ≠ t → s.status m ≠ .owned u := h.not_owned (by rw [hpc]; rfl)
  split
  case isTrue => exact h.setStatus hpc hm (.inl rfl) trivial nofun rfl rfl nofun
  case isFalse hnow => exact h.setStatus hpc hm (.inl rfl) (ht hnow) (fun _ ho => ho) rfl rfl nofun

/-- A lock that fails leaves an entry in its list only if its site is not valid. -/
theorem Inv.fail
    (hh : ∀ i ∈ (s.pc t).mayLeave, ((s.tls t).csite i).range = 0) : Inv hash (failStep s t) := by
  unfold failStep
  split
  case h_1 m hpc => exact h.bare hpc (.inl rfl) trivial ⟨rfl, rfl, rfl, rfl⟩
  case h_2 m r hpc =>
    apply h.goto hpc
    · exact nofun
    · trivial
    · exact nofun
    · rfl
    · rfl
    · rw [hpc] at hh
      intro i hi
      cases r with
      | nowhere => cases hi
      | slot j k =>
        cases hi
        exact .inr (((s.tls t).csite i).valid.1 (hh i rfl))
      | map k => cases hi
  case h_3 m c now hpc => exact h.release hpc
  case h_4 => exact h

end

end

/-! ## Samples are taken and submitted -/

section

omit [DecidableEq M] [DecidableEq H]

theorem Inv.sample (h : Inv hash s) (hpc : s.pc t = .sample m) (range : ℕ) :
    Inv hash (sampleStep s t m range) := by
  unfold sampleStep
  split
  case isTrue => exact h.bare hpc (.inl rfl) trivial ⟨rfl, rfl, rfl, rfl⟩
  case isFalse hrange =>
    set o : Sample M := ⟨s.sampled.length, m, s.session⟩
    set k : Ticket M := ⟨range, 0, o, hrange⟩
    set s' := { s with sampled := s.sampled ++ [o] }.goto t (.tls m (some k))
    have hpc' : s'.pc = update s.pc t (.tls m (some k)) := rfl
    have hbusy : (Pc.tls m (some k)).busy = (s.pc t).busy := by rw [hpc]; rfl
    have hfresh : o ∉ s.sampled := fun ho => absurd (h.bound.2 o ho).2 (lt_irrefl _)
    have hback : ∀ p x, At hash s' p x → At hash s p x ∨ p = .thread t ∧ x = o := by
      intro p x hx
      apply (At.of_goto hx hpc' rfl rfl rfl hbusy _).imp_right
      · exact fun hnew => ⟨hnew.1, (Option.some.inj hnew.2).symm⟩
      · rw [hpc]
        exact nofun
    apply h.frame hpc' (fun _ _ => rfl) rfl (fun u m' _ hm' => h.owner u m' hm') nofun
      (fun _ _ _ _ => rfl)
    case ht => rfl
    case hlist =>
      intro i x hx
      rcases hback _ x hx with hx | ⟨hne, _⟩
      · exact h.list t i x hx
      · cases hne
    case hmap => exact h.entry_goto hpc' rfl rfl hbusy
    case hapart => exact h.apart.insert (fun p hp => hfresh (h.pending p o hp).1) hback
    case hpending =>
      intro p x hx
      rcases hback p x hx with hx | ⟨_, rfl⟩
      · obtain ⟨hmem, hnot⟩ := h.pending p x hx
        exact ⟨mem_append_left [o] hmem, hnot⟩
      · refine ⟨mem_append_right s.sampled mem_cons_self, fun y hy hyo => ?_⟩
        obtain ⟨_, o', ho', heq, _⟩ := h.genuine.sample y hy
        rw [hyo] at heq
        cases heq
        exact hfresh ho'
    case hbound =>
      intro x hx
      change x.session < 2 ^ 16 ∧ x.id < (s.sampled ++ [o]).length
      rw [length_append]
      rcases mem_append.1 hx with hx | hx
      · exact ⟨(h.bound.2 x hx).1, Nat.lt_add_right 1 (h.bound.2 x hx).2⟩
      · rw [mem_singleton.1 hx]
        exact ⟨h.bound.1, Nat.lt_add_one s.sampled.length⟩
    case hgenuine =>
      constructor
      · intro x hx
        obtain ⟨hrange', o', ho', heq⟩ := h.genuine.sample x hx
        exact ⟨hrange', o', mem_append_left [o] ho', heq⟩
      · exact h.genuine.once
      · change (s.sampled ++ [o]).Nodup
        rw [nodup_append']
        refine ⟨h.genuine.distinct, nodup_singleton o, fun x hx hxo => ?_⟩
        rw [mem_singleton.1 hxo] at hx
        exact hfresh hx

theorem Inv.submit {start : ℤ} (h : Inv hash s) (hpc : s.pc t = .submit m c start) (now : ℤ) :
    Inv hash (submitStep s t m c start now) := by
  have ht := h.pcOk t
  rw [hpc] at ht
  obtain ⟨o, ho, hmutex, hsession⟩ := ht
  have hat : At hash s (.thread t) o := by
    change (s.pc t).sampleOf = some o
    rw [hpc]
    exact ho
  set x : Submission M := ⟨m, c.extend (now - start), s.session⟩
  set s' := submitStep s t m c start now
  have hpc' : s'.pc = update s.pc t .idle := rfl
  have hbusy : (.idle : Pc M).busy = (s.pc t).busy := by rw [hpc]; rfl
  have hx : x.csite.origin = some o := ho
  have hsub : ∀ p y, At hash s' p y → At hash s p y ∧ p ≠ .thread t := by
    intro p y hy
    constructor
    · apply (At.of_goto hy hpc' rfl rfl rfl hbusy _).resolve_right
      · exact fun hnew => nomatch hnew.2
      · rw [hpc]
        exact nofun
    · rintro rfl
      change (s'.pc t).sampleOf = some y at hy
      rw [hpc', update_self] at hy
      cases hy
  apply h.frame hpc' (fun _ _ => rfl) rfl (fun u m' _ hm' => h.owner u m' hm') nofun (fun _ _ _ _ => rfl)
  case ht => trivial
  case hlist => exact fun i y hy => h.list t i y (hsub _ y hy).1
  case hmap => exact h.entry_goto hpc' rfl rfl hbusy
  case hapart => exact h.apart.mono fun p y hy => (hsub p y hy).1
  case hpending =>
    intro p y hy
    obtain ⟨hy', hp⟩ := hsub p y hy
    obtain ⟨hmem, hnot⟩ := h.pending p y hy'
    refine ⟨hmem, fun z hz => ?_⟩
    rcases mem_cons.1 hz with rfl | hz
    · rw [hx]
      rintro ⟨⟩
      exact hp (h.apart p (.thread t) o hy' hat)
    · exact hnot z hz
  case hbound => exact h.bound.2
  case hgenuine =>
    constructor
    · intro z hz
      rcases mem_cons.1 hz with rfl | hz
      · refine ⟨fun hzero => ?_, o, (h.pending _ o hat).1, hx, hmutex, hsession⟩
        rw [x.csite.valid.1 hzero] at hx
        cases hx
      · exact h.genuine.sample z hz
    · change ((x :: s.submitted).map fun x => x.csite.origin).Nodup
      rw [map_cons, nodup_cons]
      refine ⟨fun hmem => ?_, h.genuine.once⟩
      obtain ⟨z, hz, hzo⟩ := mem_map.1 hmem
      exact (h.pending _ o hat).2 z hz (hzo.trans hx)
    · exact h.genuine.distinct

end

/-! ## The sessions -/

section

omit [DecidableEq ι] [DecidableEq M] [DecidableEq H]

theorem Inv.begin (h : Inv hash s) (hsession : s.session + 1 < 2 ^ 16)
    (hfound : ∀ t, (s.pc t).found = false) :
    Inv hash { s with cp := true, starting := true } := by
  set s' := { s with cp := true, starting := true }
  have hlt : s'.session < 2 ^ 16 := by
    apply lt_of_le_of_lt _ hsession
    change s.version + 1 ≤ s.version + (if s.starting then 1 else 0) + 1
    lia
  constructor
  case owner => exact h.owner
  case pcOk =>
    intro t
    have ht := h.pcOk t
    have hnot := hfound t
    cases hpc : s.pc t with
    | copy m => rw [hpc] at hnot; cases hnot
    | invalidate m c => rw [hpc] at hnot; cases hnot
    | clear m c => rw [hpc] at hnot; cases hnot
    | submit m c now => rw [hpc] at hnot; cases hnot
    | unlock m c now =>
      rw [hpc] at hnot
      exact fun hne => absurd hnot (by rw [Pc.found, decide_eq_true hne]; exact nofun)
    | idle => trivial
    | check m => trivial
    | tryLock m => trivial
    | sample m => trivial
    | checkOff m => trivial
    | lookup m => trivial
    | load m => trivial
    | tls m k => rw [hpc] at ht; cases k <;> exact ht
    | wait m r => rw [hpc] at ht; cases r <;> exact ht
    | write m i k => rw [hpc] at ht; exact ht
    | add m k => rw [hpc] at ht; exact ht
    | claim m k e => rw [hpc] at ht; exact ht
    | swap m k e d => rw [hpc] at ht; exact ht
    | mapWrite m k => rw [hpc] at ht; exact ht
  case list => exact h.list
  case entry => exact h.entry
  case apart => exact h.apart
  case pending => exact h.pending
  case bound => exact ⟨hlt, h.bound.2⟩
  case genuine => exact ⟨h.genuine.sample, h.genuine.once, h.genuine.distinct⟩

theorem Inv.version (h : Inv hash s) (cp starting : Bool) (version : ℕ)
    (hsession : version + (if starting then 1 else 0) = s.session) :
    Inv hash { s with cp := cp, starting := starting, version := version } := by
  set s' := { s with cp := cp, starting := starting, version := version }
  have hsession' : s'.session = s.session := hsession
  constructor
  case owner => exact h.owner
  case pcOk => exact fun t => (h.pcOk t).frame rfl hsession' fun _ _ => rfl
  case list => exact h.list
  case entry => exact h.entry
  case apart => exact h.apart
  case pending => exact h.pending
  case bound =>
    rw [hsession']
    exact h.bound
  case genuine => exact ⟨h.genuine.sample, h.genuine.once, h.genuine.distinct⟩

end

/-! ## The list of a thread -/

section

omit [DecidableEq M]

theorem Tls.renew_version (l : Tls M) (v : ℕ) : (l.renew v).version = v := by
  unfold renew
  split
  · assumption
  · rfl

theorem Tls.renew_of_lt {v : ℕ} (h : i < (l.renew v).count) : l.renew v = l := by
  unfold renew at h ⊢
  split at h
  case isTrue hv => rw [if_pos hv]
  case isFalse => exact absurd h (Nat.not_lt_zero i)

omit [DecidableEq H] in
/-- A thread changes its list and its place in the call, and what is in the list was there. -/
theorem Inv.setTls (h : Inv hash s) (hp : s.pc t = pc) (howns : pc'.owns = none)
    (hbusy : pc.busy = none) (hbusy' : pc'.busy = none) (ht : PcOk hash ((s.setTls t l).goto t pc') t pc')
    (hsample : ∀ o, pc'.sampleOf = some o → pc.sampleOf = some o)
    (hsub : ∀ i o, At hash ((s.setTls t l).goto t pc') (.list t i) o →
      At hash s (.list t i) o ∧ l.mutex i = (s.tls t).mutex i ∧ l.version = (s.tls t).version) :
    Inv hash ((s.setTls t l).goto t pc') := by
  subst hp
  set s' := (s.setTls t l).goto t pc'
  have hpc : s'.pc = update s.pc t pc' := rfl
  have htls : s'.tls = update s.tls t l := rfl
  have hsame := hbusy'.trans hbusy.symm
  have hback : ∀ p o, At hash s' p o → At hash s p o := by
    rintro (⟨u, i⟩ | m | u) o ho
    · obtain rfl | hut := eq_or_ne u t
      · exact (hsub i o ho).1
      · obtain ⟨hi, hc, hslot⟩ := ho
        rw [htls, update_of_ne hut] at hi hc
        rw [hpc, update_of_ne hut] at hslot
        exact ⟨hi, hc, hslot⟩
    · exact ⟨ho.1, ho.2.1, fun u => proj_goto Pc.busy hpc hsame u ▸ ho.2.2 u⟩
    · change (s'.pc u).sampleOf = some o at ho
      rw [hpc] at ho
      obtain rfl | hut := eq_or_ne u t
      · rw [update_self] at ho
        exact hsample o ho
      · rw [update_of_ne hut] at ho
        exact ho
  apply h.next hpc (fun u hu => update_of_ne hu ..) rfl rfl rfl (fun u m _ hm => h.owner u m hm)
  case howns =>
    intro m hm
    rw [howns] at hm
    cases hm
  case hentry => exact fun _ _ _ _ => rfl
  case ht => exact ht
  case hlist =>
    intro i o ho
    obtain ⟨hat, hmutex, hversion⟩ := hsub i o ho
    rw [htls, update_self, hmutex, hversion]
    exact h.list t i o hat
  case hmap => exact h.entry_goto hpc rfl rfl hsame
  case hback => exact fun p o ho => ⟨p, hback p o ho⟩
  case hapart => exact h.apart.mono hback

end

omit [DecidableEq H] in
theorem Inv.tls {k : Option (Ticket M)} (h : Inv hash s) (hpc : s.pc t = .tls m k)
    (hh : Heeds.go hash s t) (now : ℤ) :
    Inv hash (tlsStep s t m k now) := by
  have ht := h.pcOk t
  rw [hpc] at ht
  unfold Heeds.go at hh
  rw [hpc] at hh
  have hslot : ∀ i, (s.pc t).slot ≠ some i := by
    intro i
    rw [hpc]
    exact nofun
  have hversion := Tls.renew_version (s.tls t) s.version
  have hrenew : ∀ i, i < ((s.tls t).renew s.version).count → (s.tls t).renew s.version = s.tls t :=
    fun i hi => Tls.renew_of_lt hi
  simp only [tlsStep]
  generalize (s.tls t).renew s.version = l at hh hversion hrenew
  -- An entry that was registered now is not read: its site is not valid, or is the one that is to
  -- be written.
  have hregister : ∀ {pc' : Pc M} {sampled : Bool} {i : ℕ} {o : Sample M},
      At hash ((s.setTls t (l.register m sampled)).goto t pc') (.list t i) o →
      (sampled = true → pc'.slot = some l.count) →
      At hash s (.list t i) o ∧ (l.register m sampled).mutex i = (s.tls t).mutex i ∧
        (l.register m sampled).version = (s.tls t).version := by
    intro pc' sampled i o ho hsl
    obtain ⟨hi, hc, hne⟩ := ho
    rw [show ((s.setTls t (l.register m sampled)).goto t pc').tls t
      = l.register m sampled from update_self ..] at hi hc
    rw [show ((s.setTls t (l.register m sampled)).goto t pc').pc t = pc' from update_self ..] at hne
    have hil : i ≠ l.count := by
      rintro rfl
      cases sampled with
      | true => exact hne (hsl rfl)
      | false =>
        simp only [Tls.register, Bool.false_eq_true, if_false, update_self, Csite.invalid] at hc
        cases hc
    have hlt : i < l.count := lt_of_le_of_ne (Nat.lt_succ_iff.1 hi) hil
    have hsame := hrenew i hlt
    have hc' : (l.csite i).origin = some o := by
      cases sampled with
      | true => exact hc
      | false =>
        simp only [Tls.register, Bool.false_eq_true, if_false, update_of_ne hil] at hc
        exact hc
    rw [hsame] at hlt hc'
    refine ⟨⟨hlt, hc', hslot i⟩, ?_, ?_⟩
    · exact (update_of_ne hil ..).trans (congrFun (congrArg Tls.mutex hsame) i)
    · exact (congrArg Tls.version hsame :)
  have hkeep : ∀ {pc' : Pc M} {i : ℕ} {o : Sample M}, At hash ((s.setTls t l).goto t pc') (.list t i) o →
      At hash s (.list t i) o ∧ l.mutex i = (s.tls t).mutex i ∧ l.version = (s.tls t).version := by
    intro pc' i o ho
    obtain ⟨hi, hc, _⟩ := ho
    rw [show ((s.setTls t l).goto t pc').tls t = l from update_self ..] at hi hc
    have hsame := hrenew i hi
    rw [hsame] at hi hc
    rw [hsame]
    exact ⟨⟨hi, hc, hslot i⟩, rfl, rfl⟩
  split
  case isTrue hlt =>
    cases k with
    | none => exact h.setTls hpc rfl rfl rfl trivial nofun fun i o ho => hregister ho nofun
    | some k =>
      apply h.setTls hpc rfl rfl rfl
      · refine ⟨ht, ?_⟩
        unfold SlotOk
        rw [show ((s.setTls t (l.register m true)).goto t (.wait m (.slot l.count (k.at now)))).tls
          t = l.register m true
          from update_self ..]
        exact ⟨Nat.lt_add_one l.count, update_self .., (hh hlt).trans hversion.symm⟩
      · exact fun _ ho => ho
      · exact fun i o ho => hregister ho fun _ => rfl
  case isFalse =>
    cases k with
    | none => exact h.setTls hpc rfl rfl rfl trivial nofun fun i o ho => hkeep ho
    | some k => exact h.setTls hpc rfl rfl rfl ht (fun _ ho => ho) fun i o ho => hkeep ho

omit [DecidableEq H] in
theorem Inv.write (h : Inv hash s) (hpc : s.pc t = .write m i k) (now : ℤ) :
    Inv hash (writeStep s t m i k now) := by
  have ht := h.pcOk t
  rw [hpc] at ht
  obtain ⟨hmutex, hi, hslot, hsession⟩ := ht
  set l := (s.tls t).put i (k.csite now)
  set s' := writeStep s t m i k now
  have hpc' : s'.pc = update s.pc t .idle := rfl
  have htls : s'.tls = update s.tls t l := rfl
  have hbusy : (.idle : Pc M).busy = (s.pc t).busy := by rw [hpc]; rfl
  have hself : ∀ o, At hash s' (.list t i) o → o = k.origin := by
    intro o ho
    obtain ⟨_, hc, _⟩ := ho
    rw [htls, update_self] at hc
    rw [show l.csite i = k.csite now from update_self ..] at hc
    exact (Option.some.inj hc).symm
  have hrest : ∀ p o, p ≠ .list t i → At hash s' p o → At hash s p o := by
    rintro (⟨u, j⟩ | m' | u) o hp ho
    · obtain ⟨hj, hc, hne⟩ := ho
      obtain rfl | hut := eq_or_ne u t
      · have hji : j ≠ i := fun heq => hp (by rw [heq])
        rw [htls, update_self] at hj hc
        rw [show l.csite j = (s.tls u).csite j from update_of_ne hji ..] at hc
        refine ⟨hj, hc, ?_⟩
        rw [hpc]
        exact fun heq => hji (Option.some.inj heq).symm
      · rw [htls, update_of_ne hut] at hj hc
        rw [hpc', update_of_ne hut] at hne
        exact ⟨hj, hc, hne⟩
    · exact ⟨ho.1, ho.2.1, fun u => proj_goto Pc.busy hpc' hbusy u ▸ ho.2.2 u⟩
    · change (s'.pc u).sampleOf = some o at ho
      rw [hpc'] at ho
      obtain rfl | hut := eq_or_ne u t
      · rw [update_self] at ho
        cases ho
      · rw [update_of_ne hut] at ho
        exact ho
  have hat : At hash s (.thread t) k.origin := by
    change (s.pc t).sampleOf = some k.origin
    rw [hpc]
    rfl
  have howner := h.owner_update (h.not_owned (by rw [hpc]; rfl)) .held
  apply h.next hpc' (fun u hu => update_of_ne hu ..) rfl rfl rfl howner nofun (fun _ _ _ _ => rfl) trivial
  case hlist =>
    intro j o ho
    obtain rfl | hji := eq_or_ne j i
    · rw [hself o ho, htls, update_self, hmutex]
      exact ⟨hslot, hsession⟩
    · have hat' := hrest _ o (fun heq => hji (by cases heq; rfl)) ho
      rw [htls, update_self]
      exact h.list t j o hat'
  case hmap => exact h.entry_goto hpc' rfl rfl hbusy
  case hback =>
    intro p o ho
    by_cases hp : p = .list t i
    · subst hp
      rw [hself o ho]
      exact ⟨_, hat⟩
    · exact ⟨p, hrest p o hp ho⟩
  case hapart =>
    apply h.apart.transfer (p := .thread t) (q := .list t i)
    · exact fun p o hp ho => hrest p o hp ho
    · intro o ho
      rw [hself o ho]
      exact hat
    · intro o ho
      change (s'.pc t).sampleOf = some o at ho
      rw [hpc', update_self] at ho
      cases ho

theorem Tls.find_spec (h : l.find m = some i) : i < l.count ∧ l.mutex i = some m := by
  have hmem := mem_of_find?_eq_some h
  have heq := find?_some h
  rw [mem_reverse, mem_range] at hmem
  exact ⟨hmem, of_decide_eq_true heq⟩

/-- Where a sample was before an unlock took the entry `i` out of its list, the last of which is
`n`. -/
def Place.before (t : ι) (i n : ℕ) : Place ι M → Place ι M
  | .list u j => if u = t ∧ j = i then .list t n else .list u j
  | .map m => .map m
  | .thread u => if u = t then .list t i else .thread u

omit [DecidableEq M] in
theorem Place.before_inj {n : ℕ} {q : Place ι M} (h : p.before t i n = q.before t i n)
    (hp : ∀ j, p = .list t j → j < n) (hq : ∀ j, q = .list t j → j < n) : p = q := by
  cases p <;> cases q <;> grind [Place.before]

omit [DecidableEq H] in
theorem Inv.take (h : Inv hash s) (hpc : s.pc t = .lookup m)
    (hi : (s.tls t).find m = some i) (hc : ∀ o, c.origin = some o → ((s.tls t).csite i).origin = some o)
    (hfound : now ≠ 0 → ((s.tls t).csite i).range ≠ 0 ∧ c = (s.tls t).csite i)
    (hversion : ((s.tls t).csite i).range ≠ 0 → (s.tls t).version = s.session) :
    Inv hash ((s.setTls t ((s.tls t).remove i)).goto t (.unlock m c now)) := by
  obtain ⟨hlt, hmutex⟩ := Tls.find_spec hi
  set l := (s.tls t).remove i
  set n := (s.tls t).count - 1
  set s' := (s.setTls t l).goto t (.unlock m c now)
  have hpc' : s'.pc = update s.pc t (.unlock m c now) := rfl
  have htls : s'.tls = update s.tls t l := rfl
  have hslot : ∀ j, (s.pc t).slot ≠ some j := by
    intro j
    rw [hpc]
    exact nofun
  have hbusy : (Pc.unlock m c now).busy = (s.pc t).busy := by rw [hpc]; rfl
  have hlist : ∀ j o, At hash s' (.list t j) o → j < n ∧ (l.csite j).origin = some o := by
    intro j o ho
    obtain ⟨hj, hc, _⟩ := ho
    rw [htls, update_self] at hj hc
    exact ⟨hj, hc⟩
  have hback : ∀ p o, At hash s' p o → At hash s (p.before t i n) o := by
    rintro (⟨u, j⟩ | m' | u) o ho
    · obtain rfl | hut := eq_or_ne u t
      · obtain ⟨hj, hcj⟩ := hlist j o ho
        obtain rfl | hji := eq_or_ne j i
        · rw [Place.before, if_pos ⟨rfl, rfl⟩]
          rw [show l.csite j = (s.tls u).csite n from update_self ..] at hcj
          exact ⟨Nat.sub_one_lt_of_lt hlt, hcj, hslot n⟩
        · rw [Place.before, if_neg fun hand => hji hand.2]
          rw [show l.csite j = (s.tls u).csite j from update_of_ne hji ..] at hcj
          exact ⟨lt_of_lt_of_le hj (Nat.sub_le _ 1), hcj, hslot j⟩
      · rw [Place.before, if_neg fun hand => hut hand.1]
        obtain ⟨hj, hcj, hne⟩ := ho
        rw [htls, update_of_ne hut] at hj hcj
        rw [hpc', update_of_ne hut] at hne
        exact ⟨hj, hcj, hne⟩
    · exact ⟨ho.1, ho.2.1, fun u => proj_goto Pc.busy hpc' hbusy u ▸ ho.2.2 u⟩
    · change (s'.pc u).sampleOf = some o at ho
      rw [hpc'] at ho
      obtain rfl | hut := eq_or_ne u t
      · rw [update_self] at ho
        rw [Place.before, if_pos rfl]
        exact ⟨hlt, hc o ho, hslot i⟩
      · rw [update_of_ne hut] at ho
        rw [Place.before, if_neg hut]
        exact ho
  apply h.next hpc' (fun u hu => update_of_ne hu ..) rfl rfl rfl (fun u m' _ hm => h.owner u m' hm)
  case howns =>
    intro m' hm'
    exact h.owner t m' (by rw [hpc]; exact hm')
  case hentry => exact fun _ _ _ _ => rfl
  case ht =>
    intro hnow
    obtain ⟨hrange, heq⟩ := hfound hnow
    cases ho : ((s.tls t).csite i).origin with
    | none => exact absurd (((s.tls t).csite i).valid.2 ho) hrange
    | some o =>
      obtain ⟨hom, hos⟩ := h.list t i o ⟨hlt, ho, hslot i⟩
      rw [hmutex] at hom
      exact ⟨o, by rw [heq, ho], (Option.some.inj hom).symm, hos.trans (hversion hrange)⟩
  case hlist =>
    intro j o ho
    have hat := hback _ o ho
    rw [htls, update_self]
    obtain rfl | hji := eq_or_ne j i
    · rw [Place.before, if_pos ⟨rfl, rfl⟩] at hat
      rw [show l.mutex j = (s.tls t).mutex n from update_self ..]
      exact h.list t n o hat
    · rw [Place.before, if_neg fun hand => hji hand.2] at hat
      rw [show l.mutex j = (s.tls t).mutex j from update_of_ne hji ..]
      exact h.list t j o hat
  case hmap => exact h.entry_goto hpc' rfl rfl hbusy
  case hback => exact fun p o ho => ⟨_, hback p o ho⟩
  case hapart =>
    apply h.apart.move (.before t i n) hback
    intro p q o hp hq heq
    apply Place.before_inj heq
    · rintro j rfl
      exact (hlist j o hp).1
    · rintro j rfl
      exact (hlist j o hq).1

omit [DecidableEq H] in
theorem Inv.lookup (h : Inv hash s) (hpc : s.pc t = .lookup m) (hh : Heeds.go hash s t) (now : ℤ) :
    Inv hash (lookupStep s t m now) := by
  unfold Heeds.go at hh
  rw [hpc] at hh
  unfold lookupStep
  split
  case h_1 => exact h.bare hpc (.inr rfl) trivial ⟨rfl, rfl, rfl, rfl⟩
  case h_2 i hi =>
    simp only
    split
    case isTrue hrange =>
      exact h.take hpc hi (fun _ ho => ho) (fun _ => ⟨hrange, rfl⟩) (hh i hi)
    case isFalse =>
      exact h.take hpc hi nofun (fun hne => absurd rfl hne) (hh i hi)

/-! ## The map -/

/-- A step on an entry: what is there afterwards, in the entry and with the thread, came from
there. -/
theorem Inv.onEntry (h : Inv hash s)
    (hp : s.pc t = pc) (hm : pc.owns = some m) (hslot : pc.slot = none)
    (howns : pc'.owns = none ∨ pc'.owns = some m ∧ st = .owned t)
    (htouch : ∀ u m', u ≠ t → (s.pc u).touches = some m' → hash m' ≠ hash m)
    (hbusy : pc.busy = none ∨ pc.busy = some m) (hbusy' : pc'.busy = none ∨ pc'.busy = some m)
    (hpc : s'.pc = update s.pc t pc') (hentry : s'.entry = update s.entry (hash m) e)
    (hsite : s'.site = update s.site (hash m) c) (hstatus : s'.status = update s.status m st)
    (hrest : s'.tls = s.tls ∧ s'.sampled = s.sampled ∧ s'.submitted = s.submitted ∧
      s'.session = s.session)
    (ht : PcOk hash s' t pc')
    (hnew : ∀ v m', e = some (v, m') → m' = m ∧
      (pc'.busy = none → ∃ o, c.origin = some o ∧ o.mutex = m ∧ v = o.session % 2 ^ 16))
    (hthread : ∀ o, pc'.sampleOf = some o → pc.sampleOf = some o ∨ At hash s (.map m) o)
    (hmap : ∀ o, At hash s' (.map m) o → pc.sampleOf = some o ∨ At hash s (.map m) o)
    (hone : ∀ o, pc'.sampleOf = some o → ¬At hash s' (.map m) o) : Inv hash s' := by
  subst hp
  obtain ⟨htls, hsampled, hsubmitted, hsession⟩ := hrest
  have hbusyAt : ∀ u m', m' ≠ m → ((s'.pc u).busy = some m' ↔ (s.pc u).busy = some m') := by
    intro u m' hmm
    rw [hpc]
    obtain rfl | hut := eq_or_ne u t
    · rw [update_self]
      have hno : ∀ {b : Option M}, b = none ∨ b = some m → b ≠ some m' := by
        rintro b (rfl | rfl)
        · exact nofun
        · exact fun heq => hmm (Option.some.inj heq).symm
      exact ⟨fun hb => absurd hb (hno hbusy'), fun hb => absurd hb (hno hbusy)⟩
    · rw [update_of_ne hut]
  have hlist : ∀ u i o, At hash s' (.list u i) o → At hash s (.list u i) o := by
    rintro u i o ⟨hi, hc, hne⟩
    rw [htls] at hi hc
    refine ⟨hi, hc, ?_⟩
    rw [hpc] at hne
    obtain rfl | hut := eq_or_ne u t
    · rw [hslot]
      exact nofun
    · rwa [update_of_ne hut] at hne
  -- Another mutex of the entry's hash has nothing there.
  have hother : ∀ m' o, m' ≠ m → At hash s' (.map m') o → At hash s (.map m') o := by
    rintro m' o hmm ⟨⟨v, hv⟩, hc, hne⟩
    have hh : hash m' ≠ hash m := by
      intro hh
      rw [hentry, hh, update_self] at hv
      exact hmm (hnew v m' hv).1
    rw [hentry, update_of_ne hh] at hv
    rw [hsite, update_of_ne hh] at hc
    exact ⟨⟨v, hv⟩, hc, fun u hu => hne u ((hbusyAt u m' hmm).2 hu)⟩
  have hself : ∀ o, At hash s' (.thread t) o → pc'.sampleOf = some o := by
    intro o ho
    change (s'.pc t).sampleOf = some o at ho
    rwa [hpc, update_self] at ho
  have hthreads : ∀ u o, u ≠ t → At hash s' (.thread u) o → At hash s (.thread u) o := by
    intro u o hut ho
    change (s'.pc u).sampleOf = some o at ho
    rw [hpc, update_of_ne hut] at ho
    exact ho
  apply h.next hpc (fun u _ => congrFun htls u) hsampled hsubmitted hsession
  case howner =>
    rw [hstatus]
    exact h.owner_update (h.not_owned hm) st
  case howns =>
    intro m' hm'
    rw [hstatus]
    rcases howns with hnone | ⟨hsome, hst⟩
    · rw [hnone] at hm'
      cases hm'
    · rw [hsome] at hm'
      cases hm'
      exact (update_self ..).trans hst
  case hentry =>
    intro u m' hut hm'
    rw [hentry]
    exact update_of_ne (htouch u m' hut hm') ..
  case ht => exact ht
  case hlist =>
    intro i o ho
    rw [htls]
    exact h.list t i o (hlist t i o ho)
  case hmap =>
    intro k v m' hv
    by_cases hk : k = hash m
    · subst hk
      rw [hentry, update_self] at hv
      obtain ⟨rfl, hvalid⟩ := hnew v m' hv
      refine ⟨rfl, fun hne => ?_⟩
      have hnone : pc'.busy = none := by
        have hbt := hne t
        rw [hpc, update_self] at hbt
        exact hbusy'.resolve_right hbt
      rw [hsite, update_self]
      exact hvalid hnone
    · rw [hentry, update_of_ne hk] at hv
      obtain ⟨hh, hok⟩ := h.entry k v m' hv
      have hmm : m' ≠ m := by
        rintro rfl
        exact hk hh.symm
      refine ⟨hh, fun hne => ?_⟩
      rw [hsite, update_of_ne hk]
      exact hok fun u hu => hne u ((hbusyAt u m' hmm).2 hu)
  case hback =>
    rintro (⟨u, i⟩ | m' | u) o ho
    · exact ⟨_, hlist u i o ho⟩
    · obtain rfl | hmm := eq_or_ne m' m
      · exact (hmap o ho).elim (fun ho => ⟨.thread t, ho⟩) fun ho => ⟨_, ho⟩
      · exact ⟨_, hother m' o hmm ho⟩
    · obtain rfl | hut := eq_or_ne u t
      · exact (hthread o (hself o ho)).elim (fun ho => ⟨.thread u, ho⟩) fun ho => ⟨_, ho⟩
      · exact ⟨_, hthreads u o hut ho⟩
  case hapart =>
    have hplace : ∀ p o, At hash s' p o →
        (p = .thread t ∨ p = .map m) ∧ (At hash s (.thread t) o ∨ At hash s (.map m) o) ∨
          (p ≠ .thread t ∧ p ≠ .map m) ∧ At hash s p o := by
      rintro (⟨u, i⟩ | m' | u) o ho
      · exact .inr ⟨⟨nofun, nofun⟩, hlist u i o ho⟩
      · obtain rfl | hmm := eq_or_ne m' m
        · exact .inl ⟨.inr rfl, hmap o ho⟩
        · exact .inr ⟨⟨nofun, fun heq => hmm (by cases heq; rfl)⟩, hother m' o hmm ho⟩
      · obtain rfl | hut := eq_or_ne u t
        · exact .inl ⟨.inl rfl, hthread o (hself o ho)⟩
        · exact .inr ⟨⟨fun heq => hut (by cases heq; rfl), nofun⟩, hthreads u o hut ho⟩
    intro p q o hp hq
    have hmix : ∀ {p : Place ι M}, (p ≠ .thread t ∧ p ≠ .map m) → At hash s p o →
        ¬(At hash s (.thread t) o ∨ At hash s (.map m) o) := by
      rintro p ⟨hpt, hpm⟩ hp' (ht' | hm')
      · exact hpt (h.apart p _ o hp' ht')
      · exact hpm (h.apart p _ o hp' hm')
    rcases hplace p o hp with ⟨hpp, hold⟩ | ⟨hpp, hold⟩
    · rcases hplace q o hq with ⟨hqq, _⟩ | ⟨hqq, hold'⟩
      · rcases hpp with rfl | rfl
        · rcases hqq with rfl | rfl
          · rfl
          · exact absurd hq (hone o (hself o hp))
        · rcases hqq with rfl | rfl
          · exact absurd hp (hone o (hself o hq))
          · rfl
      · exact absurd hold (hmix hqq hold')
    · rcases hplace q o hq with ⟨_, hold'⟩ | ⟨_, hold'⟩
      · exact absurd hold' (hmix hpp hold)
      · exact h.apart p q o hold hold'

section

omit [DecidableEq M] [DecidableEq H]

theorem goto_pc_self (s : State ι M H) (t : ι) (p : Pc M) : (s.goto t p).pc t = p := update_self ..

omit [DecidableEq ι] in
theorem not_at_map (h : (s.pc t).busy = some m) : ¬At hash s (.map m) o :=
  fun ho => ho.2.2 t h

omit [DecidableEq ι] in
theorem Inv.touches_other (h : Inv hash s) (ht : (s.pc t).touches = some m) :
    ∀ u m', u ≠ t → (s.pc u).touches = some m' → hash m' ≠ hash m :=
  fun _ _ hu hm' hh => hu (h.touches_eq hm' ht hh)

end

theorem Inv.swap {d : ℕ} (h : Inv hash s) (hpc : s.pc t = .swap m k e d)
    (hh : Heeds.go hash s t) : Inv hash (swapStep hash s t m k e d) := by
  have ht := h.pcOk t
  rw [hpc] at ht
  unfold Heeds.go at hh
  rw [hpc] at hh
  have hown : (s.pc t).owns = some m := by rw [hpc]; rfl
  unfold swapStep
  split
  case isFalse => exact h.locked hpc (h.not_owned hown) rfl rfl
  case isTrue heq =>
    obtain ⟨hd, hfree⟩ := hh heq
    have hbusy : (((s.setEntry (hash m) (some (d, m))).goto t (.mapWrite m k)).pc t).busy = some m :=
      congrArg Pc.busy (goto_pc_self ..)
    refine h.onEntry hpc rfl rfl (.inr ⟨rfl, h.owner t m hown⟩) (fun u m' _ hm' => hfree u m' hm')
      (.inl rfl)
      (.inr rfl) rfl rfl (update_eq_self ..).symm (update_eq_self ..).symm ⟨rfl, rfl, rfl, rfl⟩ ?ht ?hnew
      ?hthread ?hmap ?hone
    case ht => exact ⟨ht, (update_self ..).trans (by rw [hd])⟩
    case hnew =>
      rintro v m' ⟨⟩
      exact ⟨rfl, nofun⟩
    case hthread => exact fun o ho => .inl ho
    case hmap => exact fun o ho => absurd ho (not_at_map hbusy)
    case hone => exact fun o _ => not_at_map hbusy

theorem Inv.mapWrite (h : Inv hash s) (hpc : s.pc t = .mapWrite m k) (now : ℤ) :
    Inv hash (mapWriteStep hash s t m k now) := by
  have ht := h.pcOk t
  rw [hpc] at ht
  obtain ⟨hmutex, hentry⟩ := ht
  refine h.onEntry hpc rfl rfl (.inl rfl) (h.touches_other (by rw [hpc]; rfl)) (.inr rfl) (.inl rfl) rfl
    (update_eq_self ..).symm rfl rfl ⟨rfl, rfl, rfl, rfl⟩ ?ht ?hnew ?hthread ?hmap ?hone
  case ht => trivial
  case hnew =>
    intro v m' hv
    cases hentry.symm.trans hv
    exact ⟨rfl, fun _ => ⟨k.origin, rfl, hmutex, rfl⟩⟩
  case hthread => exact nofun
  case hmap =>
    rintro o ⟨_, hc, _⟩
    left
    change (update s.site (hash m) (k.csite now) (hash m)).origin = some o at hc
    rwa [update_self] at hc
  case hone => exact nofun

theorem Inv.copy (h : Inv hash s) (hpc : s.pc t = .copy m) :
    Inv hash (s.goto t (.invalidate m (s.site (hash m)))) := by
  have ht := h.pcOk t
  rw [hpc] at ht
  have htouches : (s.pc t).touches = some m := by rw [hpc]; rfl
  have hbusy : ∀ u, (s.pc u).busy ≠ some m := by
    intro u hu
    have hut := h.touches_eq (Pc.busy_touches hu) htouches rfl
    subst hut
    rw [hpc] at hu
    cases hu
  obtain ⟨o, ho, hmutex, hsession⟩ := (h.entry (hash m) _ m ht).2 hbusy
  have hat : At hash s (.map m) o := ⟨⟨_, ht⟩, ho, hbusy⟩
  have hsame : o.session = s.session := by
    have hlt := (h.bound.2 o (h.pending _ o hat).1).1
    rw [Nat.mod_eq_of_lt h.bound.1, Nat.mod_eq_of_lt hlt] at hsession
    exact hsession.symm
  have hbusy' : ((s.goto t (.invalidate m (s.site (hash m)))).pc t).busy = some m :=
    congrArg Pc.busy (goto_pc_self ..)
  refine h.onEntry hpc rfl rfl (Or.inr ⟨rfl, h.owner t m (Pc.touches_owns htouches)⟩)
    (h.touches_other htouches)
    (.inl rfl) (.inr rfl) rfl (update_eq_self ..).symm (update_eq_self ..).symm (update_eq_self ..).symm
    ⟨rfl, rfl, rfl, rfl⟩ ?ht ?hnew ?hthread ?hmap ?hone
  case ht => exact ⟨⟨_, ht⟩, o, ho, hmutex, hsame⟩
  case hnew =>
    intro v m' hv
    cases ht.symm.trans hv
    exact ⟨rfl, nofun⟩
  case hthread => exact fun x hx => .inr ⟨⟨_, ht⟩, hx, hbusy⟩
  case hmap => exact fun x hx => absurd hx (not_at_map hbusy')
  case hone => exact fun x _ => not_at_map hbusy'

theorem Inv.invalidate (h : Inv hash s) (hpc : s.pc t = .invalidate m c) :
    Inv hash ((s.setSite (hash m) (s.site (hash m)).invalid).goto t (.clear m c)) := by
  have ht := h.pcOk t
  rw [hpc] at ht
  obtain ⟨⟨v, hv⟩, hfound⟩ := ht
  have htouches : (s.pc t).touches = some m := by rw [hpc]; rfl
  have hbusy' : (((s.setSite (hash m) (s.site (hash m)).invalid).goto t (.clear m c)).pc t).busy
      = some m :=
    congrArg Pc.busy (goto_pc_self ..)
  refine h.onEntry hpc rfl rfl (Or.inr ⟨rfl, h.owner t m (Pc.touches_owns htouches)⟩)
    (h.touches_other htouches)
    (.inr rfl) (.inr rfl) rfl (update_eq_self ..).symm rfl (update_eq_self ..).symm
      ⟨rfl, rfl, rfl, rfl⟩ ?ht ?hnew ?hthread ?hmap ?hone
  case ht => exact ⟨⟨v, hv⟩, hfound⟩
  case hnew =>
    intro v' m' hv'
    cases hv.symm.trans hv'
    exact ⟨rfl, nofun⟩
  case hthread => exact fun x hx => .inl hx
  case hmap => exact fun x hx => absurd hx (not_at_map hbusy')
  case hone => exact fun x _ => not_at_map hbusy'

theorem Inv.clear (h : Inv hash s) (hpc : s.pc t = .clear m c) (now : ℤ) :
    Inv hash ((s.setEntry (hash m) none).goto t (.unlock m c now)) := by
  have ht := h.pcOk t
  rw [hpc] at ht
  have htouches : (s.pc t).touches = some m := by rw [hpc]; rfl
  have hnone : ∀ o, ¬At hash ((s.setEntry (hash m) none).goto t (.unlock m c now)) (.map m) o := by
    rintro o ⟨⟨v, hv⟩, _⟩
    rw [show ((s.setEntry (hash m) none).goto t (.unlock m c now)).entry (hash m)
      = none from update_self ..] at hv
    cases hv
  refine h.onEntry hpc rfl rfl (Or.inr ⟨rfl, h.owner t m (Pc.touches_owns htouches)⟩)
    (h.touches_other htouches)
    (.inr rfl) (.inl rfl) rfl rfl (update_eq_self ..).symm (update_eq_self ..).symm
      ⟨rfl, rfl, rfl, rfl⟩ ?ht ?hnew ?hthread ?hmap ?hone
  case ht => exact fun _ => ht.2
  case hnew => exact fun v m' hv => nomatch hv
  case hthread => exact fun x hx => .inl hx
  case hmap => exact fun x hx => absurd hx (hnone x)
  case hone => exact fun x _ => hnone x

/-! ## Runs -/

theorem Inv.go (h : Inv hash s) (hh : Heeds.go hash s t) (now : ℤ) (range : ℕ) :
    Inv hash (goStep hash s t now range) := by
  unfold goStep
  split
  case h_1 => exact h
  case h_2 m hpc => exact h.check hpc
  case h_3 m hpc => exact h.tryLock hpc
  case h_4 m hpc => exact h.sample hpc range
  case h_5 m k hpc => exact h.tls hpc hh now
  case h_6 m r hpc => exact h.wait hpc
  case h_7 m i k hpc => exact h.write hpc now
  case h_8 m k hpc => exact h.add hpc _
  case h_9 m k e hpc => exact h.claim hpc
  case h_10 m k e d hpc => exact h.swap hpc hh
  case h_11 m k hpc => exact h.mapWrite hpc now
  case h_12 m hpc => exact h.checkOff hpc
  case h_13 m hpc => exact h.lookup hpc hh now
  case h_14 m hpc =>
    unfold Heeds.go at hh
    rw [hpc] at hh
    exact h.load hpc hh
  case h_15 m hpc => exact h.copy hpc
  case h_16 m c hpc => exact h.invalidate hpc
  case h_17 m c hpc => exact h.clear hpc now
  case h_18 m c start hpc => exact h.release hpc
  case h_19 m c start hpc => exact h.submit hpc now

theorem Inv.step {act : Act ι M} (h : Inv hash s) (hh : Heeds hash s act) :
    Inv hash (step hash s act) := by
  have hidle : ∀ {t : ι}, (s.pc t matches .idle) → s.pc t = .idle := by
    intro t hm
    split at hm
    case h_1 hpc => exact hpc
    case h_2 => cases hm
  cases act with
  | startCp =>
    simp only [ContentionProfiler.step]
    split
    · exact h.begin hh.1 hh.2
    · exact h
  | startVersion =>
    simp only [ContentionProfiler.step]
    split
    case isTrue hstarting =>
      apply h.version s.cp false (s.version + 1)
      unfold State.session
      rw [if_pos hstarting]
      rfl
    case isFalse => exact h
  | stop =>
    simp only [ContentionProfiler.step]
    split
    · exact h.version false s.starting s.version rfl
    · exact h
  | lock t m =>
    by_cases hpc : s.pc t matches .idle
    · rw [ContentionProfiler.step, if_pos hpc]
      exact h.lock (hidle hpc)
    · rw [ContentionProfiler.step, if_neg hpc]
      exact h
  | unlock t m =>
    by_cases hok : (s.pc t matches .idle) ∧ s.status m = .held
    · rw [ContentionProfiler.step, if_pos hok]
      exact h.unlock (hidle hok.1) hok.2
    · rw [ContentionProfiler.step, if_neg hok]
      exact h
  | go t now range => exact h.go hh now range
  | fail t => exact h.fail hh

omit [DecidableEq ι] [DecidableEq M] [DecidableEq H] in
theorem inv_start : Inv hash (start ι M H) := by
  have hnone : ∀ p o, ¬At hash (start ι M H) p o := by
    rintro (⟨u, i⟩ | m | u) o ho
    · exact absurd ho.1 (Nat.not_lt_zero i)
    · obtain ⟨⟨v, hv⟩, _⟩ := ho
      cases hv
    · cases ho
  constructor
  case owner => exact fun _ _ => nofun
  case pcOk => exact fun _ => trivial
  case list => exact fun t i o ho => absurd ho (hnone _ o)
  case entry => exact fun _ _ _ => nofun
  case apart => exact fun p q o ho => absurd ho (hnone p o)
  case pending => exact fun p o ho => absurd ho (hnone p o)
  case bound =>
    constructor
    · exact Nat.two_pow_pos 16
    · exact fun o ho => absurd ho not_mem_nil
  case genuine =>
    constructor
    · exact fun x hx => absurd hx not_mem_nil
    · exact nodup_nil
    · exact nodup_nil

/-! ### As without the profiler -/

section

omit [DecidableEq M] [DecidableEq H]

theorem plain_eq (hst : ∀ m, s'.status m = .free ↔ s.status m = .free)
    (hpc : ∀ u, (s'.pc u).plain = (s.pc u).plain) :
    s'.plain = s.plain := by
  unfold State.plain
  congr 1
  · funext m
    exact decide_eq_decide.2 (not_congr (hst m))
  · funext u
    exact hpc u

theorem plain_goto (hpc : s'.pc = update s.pc t pc') (hst : ∀ m, s'.status m = .free ↔ s.status m = .free)
    (h : pc'.plain = (s.pc t).plain) : s'.plain = s.plain :=
  plain_eq hst (proj_goto Pc.plain hpc h)

theorem pc_plain (hpc : s'.pc = update s.pc t pc') :
    (fun u => (s'.pc u).plain) = update (fun u => (s.pc u).plain) t pc'.plain := by
  rw [hpc]
  exact comp_update Pc.plain s.pc t pc'

end

omit [DecidableEq H] in
theorem locked_plain (hst : s'.status = update s.status m st) :
    (fun m' => decide (s'.status m' ≠ .free)) =
      update (fun m' => decide (s.status m' ≠ .free)) m (decide (st ≠ .free)) := by
  rw [hst]
  exact comp_update (fun st => decide (st ≠ .free)) s.status m st

section

variable (hpc : s'.pc = update s.pc t pc')
include hpc

section

omit [DecidableEq H]

theorem plain_acquire
    (hst : s'.status = update s.status m st) (hlocking : (s.pc t).plain = .locking m)
    (hidle : pc'.plain = .idle)
    (hfree : s.status m = .free) (hne : st ≠ .free) : s'.plain = plainStep s.plain (.acquire t) := by
  have hl : s.plain.locked m = false := decide_eq_false fun hn => hn hfree
  have hp : s.plain.pc t = .locking m := hlocking
  simp only [plainStep, hp, hl, Bool.false_eq_true, if_false]
  unfold State.plain
  rw [pc_plain hpc, locked_plain hst, hidle, decide_eq_true hne]

theorem plain_release (hst : s'.status = update s.status m .free)
    (hunlocking : (s.pc t).plain = .unlocking m) (hidle : pc'.plain = .idle) :
    s'.plain = plainStep s.plain (.release t) := by
  have hp : s.plain.pc t = .unlocking m := hunlocking
  simp only [plainStep, hp]
  unfold State.plain
  rw [pc_plain hpc, locked_plain hst, hidle]
  rfl

theorem plain_fail
    (hst : ∀ m, s'.status m = .free ↔ s.status m = .free) (hidle : pc'.plain = .idle) :
    s'.plain = plainStep s.plain (.fail t) := by
  have hl : (fun m => decide (s'.status m ≠ .free)) = fun m => decide (s.status m ≠ .free) := by
    funext m
    exact decide_eq_decide.2 (not_congr (hst m))
  simp only [plainStep]
  unfold State.plain
  rw [pc_plain hpc, hl, hidle]

end

end

omit [DecidableEq ι] [DecidableEq H] in
theorem free_iff (hst : s'.status = update s.status m st) (hm : s.status m ≠ .free) (hne : st ≠ .free) :
    ∀ m', s'.status m' = .free ↔ s.status m' = .free := by
  intro m'
  rw [hst]
  obtain rfl | hmm := eq_or_ne m' m
  · rw [update_self]
    exact ⟨fun h => absurd h hne, fun h => absurd h hm⟩
  · rw [update_of_ne hmm]

/-- What a call does to the mutexes when it goes on from `pc` to `pc'`. -/
inductive Mutexes (s s' : State ι M H) (pc pc' : Pc M) : Prop where
  | same (hst : s'.status = s.status) (hp : pc'.plain = pc.plain)
  | acquired (m : M) (st : Status ι) (hst : s'.status = update s.status m st) (hfree : s.status m = .free)
      (hne : st ≠ .free) (hlocking : pc.plain = .locking m) (hidle : pc'.plain = .idle)
  | kept (m : M) (hst : s'.status = update s.status m .held) (hown : pc.owns = some m)
      (hp : pc'.plain = pc.plain)
  | released (m : M) (hst : s'.status = update s.status m .free) (hunlocking : pc.plain = .unlocking m)
      (hidle : pc'.plain = .idle)

/-- A step of the thread `t`, which is at `pc`: the call goes on, unless it waits for a mutex. -/
inductive Goes (s s' : State ι M H) (t : ι) (pc : Pc M) : Prop where
  | stays (h : s' = s) (hwaits : (pc matches .idle) ∨ ∃ m r, pc = .wait m r ∧ s.status m ≠ .free)
  | goes (pc' : Pc M) (hpc : s'.pc = update s.pc t pc') (hrank : decide (pc'.rank < pc.rank) = true)
      (hm : Mutexes s s' pc pc')

theorem goStep_cases (hash : M → H) (s : State ι M H) (t : ι) (now : ℤ) (range : ℕ) :
    Goes s (goStep hash s t now range) t (s.pc t) := by
  unfold goStep
  cases hpc : s.pc t with
  | idle => exact .stays rfl (.inl rfl)
  | check m =>
    dsimp only
    split
    · exact .goes _ rfl rfl (.same rfl rfl)
    · exact .goes _ rfl rfl (.same rfl rfl)
  | tryLock m =>
    dsimp only
    split
    case isTrue hfree => exact .goes _ rfl rfl (.acquired m .held rfl hfree nofun rfl rfl)
    case isFalse => exact .goes _ rfl rfl (.same rfl rfl)
  | sample m =>
    dsimp only [sampleStep]
    split
    · exact .goes _ rfl rfl (.same rfl rfl)
    · exact .goes _ rfl rfl (.same rfl rfl)
  | tls m k =>
    dsimp only [tlsStep]
    split
    · cases k with
      | none => exact .goes _ rfl rfl (.same rfl rfl)
      | some k => exact .goes _ rfl rfl (.same rfl rfl)
    · cases k with
      | none => exact .goes _ rfl rfl (.same rfl rfl)
      | some k => exact .goes _ rfl rfl (.same rfl rfl)
  | wait m r =>
    dsimp only [waitStep]
    split
    case isTrue hfree =>
      cases r with
      | nowhere => exact .goes _ rfl rfl (.acquired m .held rfl hfree nofun rfl rfl)
      | slot i k => exact .goes _ rfl rfl (.acquired m (.owned t) rfl hfree nofun rfl rfl)
      | map k => exact .goes _ rfl rfl (.acquired m (.owned t) rfl hfree nofun rfl rfl)
    case isFalse hlocked => exact .stays rfl (.inr ⟨m, r, rfl, hlocked⟩)
  | write m i k => exact .goes _ rfl rfl (.kept m rfl rfl rfl)
  | add m k => exact .goes _ rfl rfl (.same rfl rfl)
  | claim m k e =>
    dsimp only [claimStep]
    split
    · exact .goes _ rfl rfl (.same rfl rfl)
    · split
      · exact .goes _ rfl rfl (.kept m rfl rfl rfl)
      · exact .goes _ rfl rfl (.same rfl rfl)
  | swap m k e d =>
    dsimp only [swapStep]
    split
    · exact .goes _ rfl rfl (.same rfl rfl)
    · exact .goes _ rfl rfl (.kept m rfl rfl rfl)
  | mapWrite m k => exact .goes _ rfl rfl (.kept m rfl rfl rfl)
  | checkOff m =>
    dsimp only
    split
    · exact .goes _ rfl rfl (.same rfl rfl)
    · exact .goes _ rfl rfl (.same rfl rfl)
  | lookup m =>
    dsimp only [lookupStep]
    split
    · exact .goes _ rfl rfl (.same rfl rfl)
    · split
      · exact .goes _ rfl rfl (.same rfl rfl)
      · exact .goes _ rfl rfl (.same rfl rfl)
  | load m =>
    dsimp only [loadStep]
    split
    · exact .goes _ rfl rfl (.same rfl rfl)
    · split
      · exact .goes _ rfl rfl (.same rfl rfl)
      · exact .goes _ rfl rfl (.same rfl rfl)
  | copy m => exact .goes _ rfl rfl (.same rfl rfl)
  | invalidate m c => exact .goes _ rfl rfl (.same rfl rfl)
  | clear m c => exact .goes _ rfl rfl (.same rfl rfl)
  | unlock m c start =>
    dsimp only [unlockStep]
    split
    · exact .goes _ rfl rfl (.released m rfl rfl rfl)
    · exact .goes _ rfl rfl (.released m rfl rfl rfl)
  | submit m c start => exact .goes _ rfl rfl (.same rfl rfl)

theorem Inv.plain_go (h : Inv hash s) (t : ι) (now : ℤ) (range : ℕ) :
    (goStep hash s t now range).plain = s.plain ∨ ∃ b, (goStep hash s t now range).plain
      = plainStep s.plain b := by
  cases goStep_cases hash s t now range with
  | stays hsame => exact .inl (by rw [hsame])
  | goes pc' hpc _ hm =>
    cases hm with
    | same hst hp => exact .inl (plain_goto hpc (fun m => by rw [hst]) hp)
    | acquired m st hst hfree hne hlocking hidle =>
      exact .inr ⟨.acquire t, plain_acquire hpc hst hlocking hidle hfree hne⟩
    | kept m hst hown hp =>
      left
      apply plain_goto hpc (free_iff hst _ nofun) hp
      rw [h.owner t m hown]
      exact nofun
    | released m hst hunlocking hidle => exact .inr ⟨.release t, plain_release hpc hst hunlocking hidle⟩

theorem Inv.plain_step (h : Inv hash s) (act : Act ι M) :
    (ContentionProfiler.step hash s act).plain = s.plain ∨
      ∃ b, (ContentionProfiler.step hash s act).plain = plainStep s.plain b := by
  have hidle : ∀ {t : ι}, (s.pc t matches .idle) → s.plain.pc t = .idle := by
    intro t hm
    change (s.pc t).plain = .idle
    split at hm
    case h_1 hpc => rw [hpc]; rfl
    case h_2 => cases hm
  cases act with
  | startCp =>
    left
    simp only [ContentionProfiler.step]
    split
    · rfl
    · rfl
  | startVersion =>
    left
    simp only [ContentionProfiler.step]
    split
    · rfl
    · rfl
  | stop =>
    left
    simp only [ContentionProfiler.step]
    split
    · rfl
    · rfl
  | lock t m =>
    by_cases hpc : s.pc t matches .idle
    · right
      refine ⟨.lock t m, ?_⟩
      rw [ContentionProfiler.step, if_pos hpc]
      simp only [plainStep, hidle hpc]
      unfold State.plain
      have hgoto : (s.goto t (.check m)).pc = update s.pc t (.check m) := rfl
      rw [pc_plain hgoto]
      rfl
    · left
      rw [ContentionProfiler.step, if_neg hpc]
  | unlock t m =>
    by_cases hok : (s.pc t matches .idle) ∧ s.status m = .held
    · right
      refine ⟨.unlock t m, ?_⟩
      have hheld : s.status m ≠ .free := by
        rw [hok.2]
        exact nofun
      have hl : s.plain.locked m = true := decide_eq_true hheld
      have hst : ∀ m', ((s.setStatus m (.owned t)).goto t (.checkOff m)).status m' = .free ↔
          s.status m' = .free :=
        free_iff rfl hheld nofun
      rw [ContentionProfiler.step, if_pos hok]
      simp only [plainStep, hidle hok.1, hl, if_true]
      unfold State.plain
      have hgoto : ((s.setStatus m (.owned t)).goto t (.checkOff m)).pc
          = update s.pc t (.checkOff m) := rfl
      rw [pc_plain hgoto]
      congr 1
      funext m'
      exact decide_eq_decide.2 (not_congr (hst m'))
    · left
      rw [ContentionProfiler.step, if_neg hok]
  | go t now range => exact h.plain_go t now range
  | fail t =>
    simp only [ContentionProfiler.step, failStep]
    split
    case h_1 => exact .inr ⟨.fail t, plain_fail rfl (fun _ => Iff.rfl) rfl⟩
    case h_2 => exact .inr ⟨.fail t, plain_fail rfl (fun _ => Iff.rfl) rfl⟩
    case h_3 m c start hpc =>
      right
      have howned : s.status m ≠ .free := by
        rw [h.owner t m (by rw [hpc]; rfl)]
        exact nofun
      refine ⟨.fail t, plain_fail rfl (free_iff rfl howned nofun) ?_⟩
      split <;> rfl
    case h_4 => exact .inl rfl

theorem rank_lt (hash : M → H) (s : State ι M H) (t : ι) (now : ℤ) (range : ℕ) :
    (s.pc t matches .idle) ∨ (∃ m r, s.pc t = .wait m r ∧ s.status m ≠ .free) ∨
      ((goStep hash s t now range).pc t).rank < (s.pc t).rank := by
  cases goStep_cases hash s t now range with
  | stays _ hwaits => exact hwaits.imp_right Or.inl
  | goes pc' hpc hrank =>
    right; right
    rw [hpc, update_self]
    exact of_decide_eq_true hrank

/-- **The profiler submits only genuine samples**, and mutexes are what they are without it, in
every run whose steps meet the condition. -/
theorem run_genuine {as : List (Act ι M)} (h : Along (step hash) (Heeds hash) (start ι M H) as) :
    Genuine (runFrom (step hash) (start ι M H) as) ∧
    Behaves hash (runFrom (step hash) (start ι M H) as) := by
  have hrun : Inv hash (runFrom (step hash) (start ι M H) as) ∧
      ∃ bs, (runFrom (step hash) (start ι M H) as).plain = runFrom plainStep (plainStart ι M) bs := by
    apply h.run (I := fun s => Inv hash s ∧ ∃ bs, s.plain = runFrom plainStep (plainStart ι M) bs)
    · rintro s a ⟨hinv, bs, hbs⟩ hh
      refine ⟨hinv.step hh, ?_⟩
      rcases hinv.plain_step a with hsame | ⟨b, hb⟩
      · exact ⟨bs, hsame.trans hbs⟩
      · refine ⟨bs ++ [b], ?_⟩
        rw [hb, runFrom_append, hbs]
        rfl
    · exact ⟨inv_start, [], rfl⟩
  exact ⟨hrun.1.genuine, hrun.2, rank_lt hash _⟩

/-- The second thread waits for the mutex of the first, and has it. -/
def contended : List (Act Bool Bool) :=
  [.startCp, .startVersion, .lock true false, .go true 0 0, .go true 0 0, .lock false false,
    .go false 0 0,
    .go false 0 0, .go false 0 5, .go false 10 0, .unlock true false, .go true 0 0, .go true 0 0,
      .go true 0 0,
    .go true 0 0, .go false 0 0, .go false 20 0]

def submits : List (Act Bool Bool) :=
  [.unlock false false, .go false 0 0, .go false 30 0, .go false 0 0, .go false 40 0]

/-- A sample is submitted in its session. -/
theorem run_genuine_contended :
    Genuine (runFrom (step fun _ => ()) (start Bool Bool Unit) (contended ++ submits)) ∧
      Behaves (fun _ => ()) (runFrom (step fun _ => ()) (start Bool Bool Unit) (contended ++ submits)) :=
  run_genuine (by decide)

local instance neZero3 : NeZero 3 := ⟨by decide⟩

/-- A thread makes `n` steps; the collector gives the range 5. -/
def goes (t : Fin 3) (n : ℕ) : List (Act (Fin 3) (Fin 3)) :=
  List.replicate n (.go t 1 5)

/-- Three locks of mutex 1 that fail fill the list of the thread; then it waits for `m`. -/
def full (t m : Fin 3) : List (Act (Fin 3) (Fin 3)) :=
  (.lock t 1 :: goes t 4 ++ [.fail t]) ++ (.lock t 1 :: goes t 4 ++ [.fail t]) ++
    (.lock t 1 :: goes t 4 ++ [.fail t]) ++
    .lock t m :: goes t 4

/-- Mutexes 0 and 2 have one entry. Thread 0 has a sample of session 1 there. In session 2 it takes
it out, and thread 2 swaps the entry meanwhile, whose site is then made invalid. -/
def swapped : List (Act (Fin 3) (Fin 3)) :=
  [.startCp, .startVersion] ++ .lock 1 0 :: goes 1 2 ++ .lock 1 1 :: goes 1 2 ++
    .lock 1 2 :: goes 1 2 ++ full 0 0 ++
    .unlock 1 0 :: goes 1 4 ++ goes 0 5 ++ [.stop, .startCp, .startVersion] ++ full 2 2 ++
      .unlock 1 2 :: goes 1 4 ++
    goes 2 3 ++ .unlock 0 0 :: goes 0 4 ++ goes 2 2 ++ goes 0 1 ++ .unlock 2 2 :: goes 2 8

/-- The profiler is stopped and started again before the mutex is unlocked, and the second time a
sample with the range 0 is submitted. -/
theorem not_genuine :
    ¬Genuine (runFrom (step fun _ => ()) (start Bool Bool Unit)
      (contended ++ [.stop, .startCp, .startVersion] ++ submits)) ∧
      ¬Genuine (runFrom (step fun _ => ()) (start (Fin 3) (Fin 3) Unit) swapped) := by
  constructor
  · exact fun h => absurd h.sample (by decide)
  · exact fun h => absurd (fun x hx => (h.sample x hx).1) (by decide +kernel)

end Eabase.Fiber.ContentionProfiler
