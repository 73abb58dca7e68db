import Eabase.Fiber.Session
import Eabase.Lib.Ring

/-!
# The errors of a session

An error that is issued to an unlocked session locks it and runs `on_error` at
once; one that is issued to a locked session waits in `pending_q` until the holder
unlocks, which then runs `on_error` instead. `on_error` unlocks or destroys the
session itself, so that the errors of a session are delivered inside one another,
while others come in.

`pending_q` is a ring of two with a deque behind it. The sections of
`Eabase.Fiber.Session` are given again with this queue, and they are the same ones
when it is read as a list. The machine runs the sections of any number of threads
on one id, from its creation on; that `on_error` is called is a step of its own,
since the mutex has been released by then.
-/

namespace Eabase.Fiber.SessionError

open Lib Function List

open Fiber.Session (Id Ret Call PendingError createWith getVersion idMaxRange)

/-! ## The queue -/

/-- `SmallQueue<T, N>`: a ring, and a deque that is made when the ring is full. -/
structure SmallQueue (α : Type*) (N : ℕ) where
  first : ℕ
  size : ℕ
  c : ℕ → α
  full : Option (List α)

namespace SmallQueue

variable {α : Type*} {N : ℕ} {q : SmallQueue α N} {val : α}

def push (val : α) (q : SmallQueue α N) : SmallQueue α N :=
  if q.full.getD [] ≠ [] then { q with full := some (q.full.getD [] ++ [val]) }
  else if q.size < N then
    let tail := q.first + q.size
    let tail := if N ≤ tail then tail - N else tail
    { q with c := update q.c tail val, size := q.size + 1 }
  else { q with full := some (q.full.getD [] ++ [val]) }

def pop (q : SmallQueue α N) : Option α × SmallQueue α N :=
  if 0 < q.size then
    (some (q.c q.first),
      { q with first := if N ≤ q.first + 1 then q.first + 1 - N else q.first + 1, size := q.size - 1 })
  else
    match q.full.getD [] with
    | [] => (none, q)
    | val :: rest => (some val, { q with full := some rest })

def clear (q : SmallQueue α N) : SmallQueue α N :=
  { q with size := 0, first := 0, full := q.full.map fun _ => [] }

/-- The values in the queue, the oldest one first. -/
def toList (q : SmallQueue α N) : List α := ringList q.c N q.first q.size ++ q.full.getD []

structure WF (q : SmallQueue α N) : Prop where
  first : q.first < N
  size : q.size ≤ N

theorem WF.push (h : q.WF) : (q.push val).WF := by
  unfold SmallQueue.push
  split
  · exact ⟨h.first, h.size⟩
  split
  next hlt =>
    exact ⟨h.first, hlt⟩
  · exact ⟨h.first, h.size⟩

theorem toList_push (h : q.WF) : (q.push val).toList = q.toList ++ [val] := by
  unfold SmallQueue.push
  split
  · simp [toList]
  rename_i hempty
  rw [not_not] at hempty
  split
  next hlt =>
    have hwrap : (if N ≤ q.first + q.size then q.first + q.size - N else q.first + q.size)
        = (q.first + q.size) % N := by
      have hfirst := h.first
      split
      next hge =>
        rw [Nat.mod_eq_sub_mod hge, Nat.mod_eq_of_lt]
        lia
      next hlt =>
        exact (Nat.mod_eq_of_lt (Nat.not_le.1 hlt)).symm
    simp only [toList, hwrap, hempty, append_nil]
    exact ringList_push hlt
  · simp [toList]

theorem WF.pop (h : q.WF) : q.pop.2.WF := by
  have hfirst := h.first
  unfold SmallQueue.pop
  split
  · constructor
    · show (if N ≤ q.first + 1 then q.first + 1 - N else q.first + 1) < N
      split <;> lia
    · exact (Nat.sub_le _ _).trans h.size
  split
  · exact h
  · exact ⟨h.first, h.size⟩

theorem pop_eq (h : q.WF) : q.pop.1 = q.toList.head? ∧ q.pop.2.toList = q.toList.tail := by
  unfold SmallQueue.pop
  split
  next hpos =>
    obtain ⟨n, hn⟩ : ∃ n, q.size = n + 1 := ⟨q.size - 1, (Nat.sub_add_cancel hpos).symm⟩
    have hnext : (if N ≤ q.first + 1 then q.first + 1 - N else q.first + 1) = (q.first + 1) % N := by
      rw [succ_mod_eq h.first]
      have hfirst := h.first
      split
      · lia
      · rfl
    have hlist : q.toList = q.c q.first :: (ringList q.c N (q.first + 1) n ++ q.full.getD []) := by
      rw [toList, hn, ringList_cons, Nat.mod_eq_of_lt h.first, cons_append]
    refine ⟨by rw [hlist]; rfl, ?_⟩
    rw [hlist, tail_cons]
    simp only [toList, hnext, hn, Nat.add_sub_cancel, ringList_mod]
  next hzero =>
    have hring : ringList q.c N q.first q.size = [] := by rw [Nat.eq_zero_of_not_pos hzero, ringList_zero]
    have hlist : q.toList = q.full.getD [] := by rw [toList, hring, nil_append]
    split
    next hnil =>
      rw [hlist, hnil]
      exact ⟨rfl, rfl⟩
    next hcons =>
      rw [hlist, hcons]
      refine ⟨rfl, ?_⟩
      simp [toList, hring]

theorem WF.clear (h : q.WF) : q.clear.WF := ⟨Nat.zero_lt_of_lt h.first, Nat.zero_le _⟩

theorem toList_clear : q.clear.toList = [] := by
  cases hfull : q.full <;> simp [toList, SmallQueue.clear, hfull]

end SmallQueue

/-! ## The sections that have nothing to do with the queue -/

/-- The error that `on_error` is to be called with. -/
def delivers : Ret → List PendingError
  | .onError e => [e]
  | _ => []

/-- The function looks into `pending_q`. -/
def readsQueue : Call → Bool
  | .error2 _ _ | .unlock | .unlockAndDestroy => true
  | _ => false

theorem section_queue {c : Call} (hc : readsQueue c = false) (again : Bool) (id : ℕ) (m : Id) :
    (c.section again id m).2.pendingQ = m.pendingQ ∧ delivers (c.section again id m).1 = [] := by
  cases c with
  | error2 | unlock | unlockAndDestroy => cases hc
  | lockAndResetRange range =>
    simp only [Call.section, Session.lockAndResetRange]
    split
    · exact ⟨rfl, rfl⟩
    split
    · exact ⟨rfl, rfl⟩
    split <;> exact ⟨rfl, rfl⟩
  | trylock | aboutToDestroy | cancel =>
    simp only [Call.section, Session.trylock, Session.aboutToDestroy, Session.cancel]
    split
    · exact ⟨rfl, rfl⟩
    split <;> exact ⟨rfl, rfl⟩
  | join =>
    simp only [Call.section, Session.join]
    split <;> exact ⟨rfl, rfl⟩

/-! ## The sections -/

/-- The part of `Id` that the sections read and write. -/
structure Meta where
  firstVer : ℕ
  lockedVer : ℕ
  butex : ℕ
  joinButex : ℕ
  pendingQ : SmallQueue PendingError 2

namespace Meta

/-- The `Id` with its queue read as a list. -/
def toId (m : Meta) : Id := ⟨m.firstVer, m.lockedVer, m.butex, m.joinButex, m.pendingQ.toList⟩

/-- A section that does not touch `pending_q`. -/
def setWords (m : Meta) (m' : Id) : Meta :=
  ⟨m'.firstVer, m'.lockedVer, m'.butex, m'.joinButex, m.pendingQ⟩

/-- `fiber_session_error2`. -/
def error2 (e : PendingError) (idVer : ℕ) (m : Meta) : Ret × Meta :=
  if ¬ m.toId.hasVersion idVer then (.einval, m)
  else if m.butex = m.firstVer then (.onError e, { m with butex := m.lockedVer })
  else (.ok, { m with pendingQ := m.pendingQ.push e })

/-- `fiber_session_unlock`. -/
def unlock (idVer : ℕ) (m : Meta) : Ret × Meta :=
  if ¬ m.toId.hasVersion idVer then (.einval, m)
  else if m.butex = m.firstVer then (.eperm, m)
  else
    match m.pendingQ.pop with
    | (some front, q) => (.onError front, { m with pendingQ := q })
    | (none, _) => (.ok, { m with butex := m.firstVer })

/-- `fiber_session_unlock_and_destroy`. -/
def unlockAndDestroy (idVer : ℕ) (m : Meta) : Ret × Meta :=
  if ¬ m.toId.hasVersion idVer then (.einval, m)
  else if m.butex = m.firstVer then (.eperm, m)
  else
    (.ok, ⟨m.toId.endVer, m.toId.endVer, m.toId.endVer, m.toId.endVer, m.pendingQ.clear⟩)

/-- The section a call runs; `again` is set when it comes back from a butex. -/
def exec (c : Call) (again : Bool) (id : ℕ) (m : Meta) : Ret × Meta :=
  match c with
  | .error2 errorCode errorText => m.error2 ⟨id, errorCode, errorText⟩ (getVersion id)
  | .unlock => m.unlock (getVersion id)
  | .unlockAndDestroy => m.unlockAndDestroy (getVersion id)
  | c => ((c.section again id m.toId).1, m.setWords (c.section again id m.toId).2)

variable {m : Meta} {id : ℕ} {again : Bool}

theorem exec_of_not_reads {c : Call} (hc : readsQueue c = false) :
    m.exec c again id = ((c.section again id m.toId).1, m.setWords (c.section again id m.toId).2) := by
  cases c with
  | error2 | unlock | unlockAndDestroy => cases hc
  | lockAndResetRange | trylock | aboutToDestroy | cancel | join => rfl

/-- **The queue may be read as a list.** -/
theorem exec_toId (h : m.pendingQ.WF) (c : Call) (again : Bool) (id : ℕ) :
    (m.exec c again id).1 = (c.section again id m.toId).1 ∧
      (m.exec c again id).2.toId = (c.section again id m.toId).2 ∧ (m.exec c again id).2.pendingQ.WF := by
  by_cases hc : readsQueue c = false
  · rw [exec_of_not_reads hc]
    refine ⟨rfl, ?_, h⟩
    have hqueue := (section_queue hc again id m.toId).1
    generalize (c.section again id m.toId).2 = m' at hqueue
    cases m'
    cases hqueue
    rfl
  cases c with
  | error2 code text =>
    simp only [exec, Call.section, error2, Session.error2]
    split
    · exact ⟨rfl, rfl, h⟩
    · by_cases hfree : m.butex = m.firstVer
      · rw [if_pos hfree, if_pos (show m.toId.butex = m.toId.firstVer from hfree)]
        exact ⟨rfl, rfl, h⟩
      · rw [if_neg hfree, if_neg (show m.toId.butex ≠ m.toId.firstVer from hfree)]
        refine ⟨rfl, ?_, h.push⟩
        simp only [toId, SmallQueue.toList_push h]
  | unlock =>
    simp only [exec, Call.section, unlock, Session.unlock]
    split
    · exact ⟨rfl, rfl, h⟩
    by_cases hfree : m.butex = m.firstVer
    · rw [if_pos hfree, if_pos (show m.toId.butex = m.toId.firstVer from hfree)]
      exact ⟨rfl, rfl, h⟩
    rw [if_neg hfree, if_neg (show m.toId.butex ≠ m.toId.firstVer from hfree)]
    obtain ⟨hhead, htail⟩ := SmallQueue.pop_eq h
    have hwf := h.pop
    obtain ⟨o, q, hpop⟩ : ∃ o q, m.pendingQ.pop = (o, q) := ⟨_, _, rfl⟩
    rw [hpop] at hhead htail hwf
    rw [hpop]
    cases hlist : m.pendingQ.toList with
    | nil =>
      rw [hlist] at hhead
      obtain rfl : o = none := hhead
      simp only [toId, hlist]
      exact ⟨trivial, trivial, h⟩
    | cons front rest =>
      rw [hlist] at hhead htail
      obtain rfl : o = some front := hhead
      simp only [toId, hlist]
      refine ⟨trivial, ?_, hwf⟩
      simp only [Id.mk.injEq, true_and]
      exact htail
  | unlockAndDestroy =>
    simp only [exec, Call.section, unlockAndDestroy, Session.unlockAndDestroy]
    split
    · exact ⟨rfl, rfl, h⟩
    by_cases hfree : m.butex = m.firstVer
    · rw [if_pos hfree, if_pos (show m.toId.butex = m.toId.firstVer from hfree)]
      exact ⟨rfl, rfl, h⟩
    · rw [if_neg hfree, if_neg (show m.toId.butex ≠ m.toId.firstVer from hfree)]
      refine ⟨rfl, ?_, h.clear⟩
      simp only [toId, SmallQueue.toList_clear]
  | lockAndResetRange | trylock | aboutToDestroy | cancel | join => exact absurd rfl hc

end Meta

/-! ## What a section does to the errors -/

def accepts (c : Call) (id : ℕ) (r : Ret) : List PendingError :=
  match c, r with
  | .error2 errorCode errorText, .ok | .error2 errorCode errorText, .onError _ =>
    [⟨id, errorCode, errorText⟩]
  | _, _ => []

/-- The errors that are dropped by `unlock_and_destroy`. -/
def drops (c : Call) (r : Ret) (pending : List PendingError) : List PendingError :=
  match c, r with
  | .unlockAndDestroy, .ok => pending
  | _, _ => []

variable {m m' : Id} {held : Prop} {c : Call} {again : Bool} {id : ℕ} {r : Ret}

/-- **No error gets lost in a section**, and none overtakes another one. -/
theorem balance (h : m.Live held) (heq : c.section again id m = (r, m')) :
    delivers r ++ m'.pendingQ ++ drops c r m.pendingQ = m.pendingQ ++ accepts c id r := by
  by_cases hc : readsQueue c = false
  · obtain ⟨hqueue, hdelivers⟩ := section_queue hc again id m
    rw [heq] at hqueue hdelivers
    have hothers : drops c r m.pendingQ = [] ∧ accepts c id r = [] := by
      cases c with
      | error2 | unlock | unlockAndDestroy => cases hc
      | lockAndResetRange | trylock | aboutToDestroy | cancel | join => exact ⟨rfl, rfl⟩
    rw [hothers.1, hothers.2, hdelivers]
    simpa using hqueue
  cases c with
  | error2 code text =>
    simp only [Call.section, Session.error2] at heq
    split at heq
    · cases heq
      rfl
    split at heq
    next hfree =>
      cases heq
      simp [delivers, drops, accepts, h.pending (h.free.1 hfree)]
    · cases heq
      simp [delivers, drops, accepts]
  | unlock =>
    simp only [Call.section, Session.unlock] at heq
    split at heq
    · cases heq
      rfl
    split at heq
    · cases heq
      rfl
    split at heq
    next front rest hcons =>
      cases heq
      simp [delivers, drops, accepts, hcons]
    · cases heq
      simp [delivers, drops, accepts]
  | unlockAndDestroy =>
    simp only [Call.section, Session.unlockAndDestroy] at heq
    split at heq
    · cases heq
      simp [delivers, drops, accepts]
    split at heq
    · cases heq
      simp [delivers, drops, accepts]
    · cases heq
      simp [delivers, drops, accepts]
  | lockAndResetRange | trylock | aboutToDestroy | cancel | join => exact absurd rfl hc

/-- Who is to call `on_error` has just locked the id, or is unlocking it. -/
theorem acquires_of_onError {e : PendingError} (heq : c.section again id m = (.onError e, m')) :
    c.acquires (.onError e) = true ∨ c.needsHolder = true := by
  by_cases hc : readsQueue c = false
  · have hdelivers := (section_queue hc again id m).2
    rw [heq] at hdelivers
    cases hdelivers
  cases c with
  | error2 => exact .inl rfl
  | unlock | unlockAndDestroy => exact .inr rfl
  | lockAndResetRange | trylock | aboutToDestroy | cancel | join => exact absurd rfl hc

theorem drops_of_acquires (h : c.acquires r = true) (pending : List PendingError) :
    drops c r pending = [] := by
  cases c <;> cases r <;> first | rfl | cases h

theorem drops_of_not_destroys (h : c.destroys r = false) (pending : List PendingError) :
    drops c r pending = [] := by
  cases c <;> cases r <;> first | rfl | cases h

theorem of_releases (h : c.releases r = true) :
    c.acquires r = false ∧ (∀ pending, drops c r pending = []) ∧ delivers r = [] := by
  cases c <;> cases r <;> first | exact ⟨rfl, fun _ => rfl, rfl⟩ | cases h

theorem needsHolder_of_releases (h : c.releases r = true) : c.needsHolder = true := by
  cases c <;> cases r <;> first | rfl | cases h

theorem of_destroys (h : c.destroys r = true) : c.acquires r = false ∧ delivers r = [] := by
  cases c <;> cases r <;> first | exact ⟨rfl, rfl⟩ | cases h

/-! ## The machine -/

variable {ι : Type*} [DecidableEq ι]

/-- Where a thread stands: in its own code, of which `on_error` is a part, on a butex, or in front
of the call of `on_error`. -/
inductive Pc where
  | idle
  | blocked (c : Call) (id : ℕ)
  | delivering (e : PendingError)
  deriving DecidableEq

/-- A call of `on_error`: who made it, whether the id was locked then, and whether the caller held
it. -/
structure Delivery (ι : Type*) where
  thread : ι
  error : PendingError
  locked : Bool
  held : Bool

/-- One id and the threads. What is counted: the errors that were accepted, those that `on_error`
was called with, and those that were dropped. -/
structure State (ι : Type*) where
  obj : Meta
  holds : ι → Bool
  pc : ι → Pc
  accepted : List PendingError
  delivered : List (Delivery ι)
  dropped : List PendingError

def start (ι : Type*) (range : ℕ) (m : Meta) : State ι where
  obj := m.setWords (createWith range m.toId)
  holds _ := false
  pc _ := .idle
  accepted := []
  delivered := []
  dropped := []

/-- One label of a run: a call, the return from a butex, the call of `on_error`. -/
inductive Act (ι : Type*) where
  | call (i : ι) (c : Call) (id : ℕ)
  | resume (i : ι)
  | onError (i : ι)

def Pc.after (c : Call) (id : ℕ) : Ret → Pc
  | .wait _ => .blocked c id
  | .onError e => .delivering e
  | _ => .idle

/-- A section of thread `i`. The functions for the holder are only called by the holder. -/
def exec (s : State ι) (i : ι) (c : Call) (again : Bool) (id : ℕ) : State ι :=
  if c.needsHolder = true ∧ s.holds i = false then s
  else
    let out := s.obj.exec c again id
    { s with
      obj := out.2
      holds := update s.holds i
        (if c.acquires out.1 then true else if c.releases out.1 ∨
          c.destroys out.1 then false else s.holds i)
      pc := update s.pc i (Pc.after c id out.1)
      accepted := s.accepted ++ accepts c id out.1
      dropped := s.dropped ++ drops c out.1 s.obj.pendingQ.toList }

def step (s : State ι) : Act ι → State ι
  | .call i c id => if s.pc i = .idle then exec s i c false id else s
  | .resume i =>
    match s.pc i with
    | .blocked c id => exec s i c true id
    | _ => s
  | .onError i =>
    match s.pc i with
    | .delivering e =>
      { s with
        pc := update s.pc i .idle
        delivered := s.delivered ++ [⟨i, e, decide (s.obj.butex ≠ s.obj.firstVer), s.holds i⟩] }
    | _ => s

/-! ## The property -/

structure Delivers (s : State ι) : Prop where
  /-- `on_error` is called by the thread that holds the id, while it is locked. -/
  locked : ∀ d ∈ s.delivered, d.locked = true ∧ d.held = true
  /-- The errors are delivered in the order in which they were accepted. -/
  order : s.delivered.map Delivery.error <+: s.accepted
  /-- When nobody holds the id all errors have been delivered, but for those that were pending when
  it was destroyed. -/
  all : (∀ i, s.holds i = false) → s.accepted = s.delivered.map Delivery.error ++ s.dropped
  dropped : s.obj.toId.live → s.dropped = []
  pending : s.obj.toId.live → s.obj.butex = s.obj.firstVer → s.obj.pendingQ.toList = []

/-! ## The invariant -/

def State.Held (s : State ι) : Prop := ∃ i, s.holds i = true

/-- `l` is the error that `on_error` is about to be called with, if there is one. -/
def State.InFlight (s : State ι) (l : List PendingError) : Prop :=
  (∀ i e, s.pc i = .delivering e → l = [e]) ∧ ((∀ i e, s.pc i ≠ .delivering e) → l = [])

structure Inv (s : State ι) (l : List PendingError) : Prop where
  queue : s.obj.pendingQ.WF
  one : ∀ i j, s.holds i = true → s.holds j = true → i = j
  obj : s.obj.toId.Live s.Held ∨ s.obj.toId.Dead s.Held
  holds : ∀ i e, s.pc i = .delivering e → s.holds i = true
  inFlight : s.InFlight l
  flow : s.accepted = s.delivered.map Delivery.error ++ l ++ s.obj.pendingQ.toList ++ s.dropped
  dropped : s.obj.toId.live → s.dropped = []
  locked : ∀ d ∈ s.delivered, d.locked = true ∧ d.held = true

section Inv

variable {s : State ι} {l : List PendingError} {i : ι}

omit [DecidableEq ι] in
theorem start_inv {range : ℕ} {m : Meta} (hm : m.toId.Dead False) (hq : m.pendingQ.WF) (hpos : 0 < range)
    (hle : range ≤ idMaxRange) : Inv (start ι range m) [] := by
  have hlive : (createWith range m.toId).Live (start ι range m).Held := by
    have hfree : ¬ (start ι range m).Held := fun ⟨i, hi⟩ => by cases hi
    have hdead : m.toId.Dead (start ι range m).Held := ⟨hm.locked, hm.word, hm.small, hfree, hm.pending⟩
    exact hdead.create hpos hle
  have hempty : m.pendingQ.toList = [] := hm.pending
  constructor
  · exact hq
  · intro i j hi
    cases hi
  · exact .inl hlive
  · intro i e hpc
    cases hpc
  · exact ⟨fun i e hpc => (by cases hpc), fun _ => rfl⟩
  · simp [start, Meta.setWords, hempty]
  · exact fun _ => rfl
  · intro d hd
    cases hd

omit [DecidableEq ι] in
theorem Inv.inFlight_nil (I : Inv s l) (hpc : ∀ e, s.pc i ≠ .delivering e)
    (h : ∀ j, s.holds j = true → j = i) : l = [] := by
  apply I.inFlight.2
  intro j e hj
  obtain rfl := h j (I.holds j e hj)
  exact hpc e hj

theorem Inv.after (I : Inv s l) (hpc : ∀ e, s.pc i ≠ .delivering e) {c : Call} {id : ℕ} {r : Ret}
    {o : Meta} {b : Bool}
    {new gone : List PendingError} (hqueue : o.pendingQ.WF)
    (hone : ∀ j k, update s.holds i b j = true → update s.holds i b k = true → j = k)
    (hobj : o.toId.Live (∃ j, update s.holds i b j = true) ∨
      o.toId.Dead (∃ j, update s.holds i b j = true))
    (hbalance : delivers r ++ o.pendingQ.toList ++ gone = s.obj.pendingQ.toList ++ new)
    (hquiet : s.dropped = [] ∨ new = [] ∧ gone = []) (hgone : o.toId.live → s.dropped ++ gone = [])
    (hdeliver : ∀ e, r = .onError e → b = true ∧ ∀ j, s.holds j = true → j = i) :
    Inv { s with
      obj := o
      holds := update s.holds i b
      pc := update s.pc i (Pc.after c id r)
      accepted := s.accepted ++ new
      dropped := s.dropped ++ gone } (l ++ delivers r) := by
  have hself : ∀ e, Pc.after c id r = .delivering e → r = .onError e := by
    intro e he
    cases r <;> cases he
    rfl
  constructor
  case queue => exact hqueue
  case one => exact hone
  case obj => exact hobj
  case holds =>
    intro j e hj
    change update s.pc i (.after c id r) j = .delivering e at hj
    change update s.holds i b j = true
    obtain rfl | hji := eq_or_ne j i
    · rw [update_self] at hj ⊢
      exact (hdeliver e (hself e hj)).1
    · rw [update_of_ne hji] at hj ⊢
      exact I.holds j e hj
  case inFlight =>
    by_cases hdel : ∃ e, r = .onError e
    · obtain ⟨e, rfl⟩ := hdel
      have hnil := I.inFlight_nil hpc (hdeliver e rfl).2
      rw [hnil, nil_append]
      constructor
      · intro j e' hj
        change update s.pc i (.after c id (.onError e)) j = .delivering e' at hj
        obtain rfl | hji := eq_or_ne j i
        · rw [update_self] at hj
          cases hj
          rfl
        · rw [update_of_ne hji] at hj
          exact absurd ((hdeliver e rfl).2 j (I.holds j e' hj)) hji
      · intro hnone
        exact absurd (update_self i _ s.pc) (hnone i e)
    · have hno : delivers r = [] := by
        cases r with
        | onError e => exact absurd ⟨e, rfl⟩ hdel
        | ok | einval | eperm | ebusy | wait => rfl
      rw [hno, append_nil]
      constructor
      · intro j e hj
        change update s.pc i (.after c id r) j = .delivering e at hj
        obtain rfl | hji := eq_or_ne j i
        · rw [update_self] at hj
          exact absurd ⟨e, hself e hj⟩ hdel
        · rw [update_of_ne hji] at hj
          exact I.inFlight.1 j e hj
      · intro hnone
        apply I.inFlight.2
        intro j e hj
        obtain rfl | hji := eq_or_ne j i
        · exact hpc e hj
        · exact hnone j e ((update_of_ne hji _ _).trans hj)
  case flow =>
    rcases hquiet with hdropped | ⟨rfl, rfl⟩
    · calc s.accepted ++ new
          = s.delivered.map Delivery.error ++ l ++ (s.obj.pendingQ.toList ++ new) := by
            rw [I.flow, hdropped, append_nil, append_assoc _ s.obj.pendingQ.toList]
        _ = s.delivered.map Delivery.error ++ l ++
          (delivers r ++ o.pendingQ.toList ++ gone) := by rw [hbalance]
        _ = s.delivered.map Delivery.error ++ (l ++ delivers r) ++ o.pendingQ.toList ++
          (s.dropped ++ gone) := by
            rw [hdropped, nil_append]
            simp only [append_assoc]
    · rw [append_nil, append_nil] at hbalance
      rw [append_nil, append_nil, I.flow, ← hbalance]
      simp only [append_assoc]
  case dropped => exact hgone
  case locked => exact I.locked

theorem held_update_true : (∃ j, update s.holds i true j = true) = True := by
  apply eq_true
  exact ⟨i, update_self i _ _⟩

theorem held_update_false (h : ∀ j, s.holds j = true → j = i) :
    (∃ j, update s.holds i false j = true) = False := by
  apply eq_false
  rintro ⟨j, hj⟩
  obtain rfl | hji := eq_or_ne j i
  · rw [update_self] at hj
    cases hj
  · rw [update_of_ne hji] at hj
    exact hji (h j hj)

/-- **A section.** -/
theorem Inv.exec (I : Inv s l) (hpc : ∀ e, s.pc i ≠ .delivering e) {c : Call} {again : Bool} {id : ℕ} :
    ∃ l', Inv (exec s i c again id) l' := by
  unfold SessionError.exec
  split
  · exact ⟨l, I⟩
  rename_i howner
  have hown : c.needsHolder = true → s.holds i = true := fun hn => Bool.of_not_eq_false fun hh =>
    howner ⟨hn, hh⟩
  obtain ⟨hret, hobj, hqueue⟩ := s.obj.exec_toId I.queue c again id
  obtain ⟨r, o, hexec⟩ : ∃ r o, s.obj.exec c again id = (r, o) := ⟨_, _, rfl⟩
  obtain ⟨r', m', hsec⟩ : ∃ r m', c.section again id s.obj.toId = (r, m') := ⟨_, _, rfl⟩
  rw [hexec, hsec] at hret hobj
  rw [hexec] at hqueue
  obtain rfl : r = r' := hret
  obtain rfl : o.toId = m' := hobj
  simp only [hexec]
  -- Who holds the id alone when somebody does.
  have hsolo : s.holds i = true → ∀ j, s.holds j = true → j = i := fun hi j hj => I.one j i hj hi
  have hnobody : ¬ s.Held → ∀ j, s.holds j = true → j = i := fun hn j hj => absurd ⟨j, hj⟩ hn
  have hone : ∀ b, (∀ j, s.holds j = true → j = i) →
      ∀ j k, update s.holds i b j = true → update s.holds i b k = true → j = k := by
    intro b h j k hj hk
    have heq : ∀ j, update s.holds i b j = true → j = i := by
      intro j hj
      by_contra hji
      rw [update_of_ne hji] at hj
      exact hji (h j hj)
    rw [heq j hj, heq k hk]
  have hsame : update s.holds i (s.holds i) = s.holds := update_eq_self i s.holds
  by_cases hv : s.obj.toId.hasVersion (getVersion id) = true
  swap
  · -- The version is out of range.
    rw [c.section_stale again (Bool.of_not_eq_true hv)] at hsec
    obtain ⟨rfl, heq⟩ := Prod.mk.inj hsec
    have hquiet : c.acquires c.refusal = false ∧ c.releases c.refusal = false ∧ c.destroys c.refusal
        = false ∧
        accepts c id c.refusal = [] ∧ delivers c.refusal = [] ∧
        ∀ q, drops c c.refusal q = [] := by
      cases c <;> exact ⟨rfl, rfl, rfl, rfl, rfl, fun _ => rfl⟩
    obtain ⟨hacq, hrel, hdes, hacc, hdel, hdrop⟩ := hquiet
    have hlist : s.obj.pendingQ.toList = o.pendingQ.toList := congrArg Id.pendingQ heq
    refine ⟨_, I.after hpc hqueue ?_ ?_ ?_ (.inr ⟨hacc, hdrop _⟩) ?_ ?_⟩
    · rw [hacq, hrel, hdes]
      simp only [Bool.false_eq_true, or_self, if_false, hsame]
      exact I.one
    · rw [hacq, hrel, hdes, ← heq]
      simp only [Bool.false_eq_true, or_self, if_false, hsame]
      exact I.obj
    · rw [hdel, hacc, hdrop, hlist]
      simp
    · rw [hdrop, append_nil, ← heq]
      exact I.dropped
    · intro e he
      rw [he] at hdel
      cases hdel
  have hlive : s.obj.toId.Live s.Held := I.obj.resolve_right fun hd => by
    rw [hd.hasVersion] at hv
    cases hv
  have hdropped : s.dropped = [] := I.dropped hlive.lt
  have hbalance := balance hlive hsec
  have heffect := hlive.effect hv (fun hn => ⟨i, hown hn⟩) hsec
  have hdeliver : ∀ {b : Bool}, (c.acquires r = true → b = true ∧ ¬ s.Held) →
      (c.acquires r = false → b = s.holds i) →
      ∀ e, r = .onError e → b = true ∧ ∀ j, s.holds j = true → j = i := by
    intro b hacq hstay e he
    subst he
    rcases acquires_of_onError hsec with ha | hn
    · exact ⟨(hacq ha).1, hnobody (hacq ha).2⟩
    · cases ha : c.acquires (.onError e) with
      | true => exact ⟨(hacq ha).1, hnobody (hacq ha).2⟩
      | false => exact ⟨(hstay ha).trans (hown hn), hsolo (hown hn)⟩
  cases heffect with
  | acquire ha hn hlive' hfirst =>
    rw [ha]
    simp only [if_true]
    refine ⟨_, I.after hpc hqueue (hone true (hnobody hn)) (.inl ?_) hbalance (.inl hdropped) ?_ ?_⟩
    · rwa [held_update_true]
    · intro _
      rw [hdropped, drops_of_acquires ha, append_nil]
    · exact hdeliver (fun _ => ⟨rfl, hn⟩) fun h => by rw [ha] at h; cases h
  | release ha hn hlive' hfirst =>
    obtain ⟨hacq, hdrop, hdel⟩ := of_releases ha
    rw [hacq, ha]
    simp only [Bool.false_eq_true, if_false, true_or, if_true]
    have hi : s.holds i = true := hown (needsHolder_of_releases ha)
    refine ⟨_, I.after hpc hqueue (hone false (hsolo hi)) (.inl ?_) hbalance (.inl hdropped) ?_ ?_⟩
    · rwa [held_update_false (hsolo hi)]
    · intro _
      rw [hdropped, hdrop, append_nil]
    · intro e he
      rw [he] at hdel
      cases hdel
  | destroy ha hn hdead hfirst =>
    obtain ⟨hacq, hdel⟩ := of_destroys ha
    rw [hacq, ha]
    simp only [Bool.false_eq_true, if_false, or_true, if_true]
    have hsole : ∀ j, s.holds j = true → j = i := fun j hj => hsolo (hown (hn ⟨j, hj⟩)) j hj
    refine ⟨_, I.after hpc hqueue (hone false hsole) (.inr ?_) hbalance (.inl hdropped) ?_ ?_⟩
    · rwa [held_update_false hsole]
    · intro hlt
      exact absurd hlt hdead.locked.not_gt
    · intro e he
      rw [he] at hdel
      cases hdel
  | stay ha hr hd hlive' hfirst =>
    rw [ha, hr, hd]
    simp only [Bool.false_eq_true, or_self, if_false]
    refine ⟨_, I.after hpc hqueue ?_ (.inl ?_) hbalance (.inl hdropped) ?_ ?_⟩
    · rw [hsame]
      exact I.one
    · rw [hsame]
      exact hlive'
    · intro _
      rw [hdropped, drops_of_not_destroys hd, append_nil]
    · exact hdeliver (fun h => by rw [ha] at h; cases h) fun _ => rfl

theorem Inv.onError (I : Inv s l) {e : PendingError} (hpc : s.pc i = .delivering e) : Inv { s with
      pc := update s.pc i .idle
      delivered := s.delivered ++ [⟨i, e, decide (s.obj.butex ≠ s.obj.firstVer), s.holds i⟩] } [] := by
  have hi : s.holds i = true := I.holds i e hpc
  have hnone : ∀ j e', update s.pc i .idle j ≠ .delivering e' := by
    intro j e' hj
    obtain rfl | hji := eq_or_ne j i
    · rw [update_self] at hj
      cases hj
    · rw [update_of_ne hji] at hj
      exact hji (I.one j i (I.holds j e' hj) hi)
  constructor
  case queue => exact I.queue
  case one => exact I.one
  case obj => exact I.obj
  case holds => exact fun j e' hj => absurd hj (hnone j e')
  case inFlight => exact ⟨fun j e' hj => absurd hj (hnone j e'), fun _ => rfl⟩
  case flow =>
    rw [map_append, append_nil, I.flow, I.inFlight.1 i e hpc]
    rfl
  case dropped => exact I.dropped
  case locked =>
    intro d hd
    rcases mem_append.1 hd with hd | hd
    · exact I.locked d hd
    obtain rfl := mem_singleton.1 hd
    have hlive : s.obj.toId.Live s.Held := I.obj.resolve_right fun hdead => hdead.free ⟨i, hi⟩
    have hlocked : s.obj.butex ≠ s.obj.firstVer := fun hfree => hlive.free.1 hfree ⟨i, hi⟩
    exact ⟨decide_eq_true hlocked, hi⟩

/-- **One step.** -/
theorem Inv.step (I : Inv s l) (a : Act ι) : ∃ l', Inv (step s a) l' := by
  cases a with
  | call i c id =>
    simp only [SessionError.step]
    split
    next hidle =>
      exact I.exec fun e he => by rw [hidle] at he; cases he
    · exact ⟨l, I⟩
  | resume i =>
    simp only [SessionError.step]
    split
    next hblocked =>
      exact I.exec fun e he => by rw [hblocked] at he; cases he
    · exact ⟨l, I⟩
  | onError i =>
    simp only [SessionError.step]
    split
    next hdelivering =>
      exact ⟨[], I.onError hdelivering⟩
    · exact ⟨l, I⟩

omit [DecidableEq ι] in
theorem Inv.delivers (I : Inv s l) : Delivers s := by
  have hnil : (∀ i, s.holds i = false) → l = [] := by
    intro hfree
    apply I.inFlight.2
    intro i e hpc
    have hi := I.holds i e hpc
    rw [hfree i] at hi
    cases hi
  have hpending : ¬ s.Held → s.obj.pendingQ.toList = [] := fun hn =>
    I.obj.elim (fun h => h.pending hn) Id.Dead.pending
  constructor
  case locked => exact I.locked
  case order =>
    rw [I.flow, append_assoc, append_assoc]
    exact prefix_append _ _
  case all =>
    intro hfree
    have hempty := hpending fun ⟨i, hi⟩ => by rw [hfree i] at hi; cases hi
    rw [I.flow, hnil hfree, hempty, append_nil, append_nil]
  case dropped => exact I.dropped
  case pending =>
    intro hlive hfree
    have hL : s.obj.toId.Live s.Held := I.obj.resolve_right fun hd => absurd hlive hd.locked.not_gt
    exact hpending (hL.free.1 hfree)

/-- **The errors of a session**: from the creation on, whatever the threads do, and however
`on_error` goes on, the errors that are accepted are delivered once each, in their order and under
the lock, but for those that are pending when the session is destroyed. -/
theorem run_delivers {range : ℕ} {m : Meta} (hm : m.toId.Dead False) (hq : m.pendingQ.WF)
    (hpos : 0 < range)
    (hle : range ≤ idMaxRange) (acts : List (Act ι)) :
    Delivers (runFrom step (start ι range m) acts) := by
  have hkeeps : Keeps (SessionError.step (ι := ι)) fun s => ∃ l, Inv s l := fun s a ⟨l, I⟩ => I.step a
  obtain ⟨l, I⟩ := hkeeps.run ⟨[], start_inv (ι := ι) hm hq hpos hle⟩ acts
  exact I.delivers

end Inv

def Meta.fresh : Meta := ⟨0, 0, 0, 0, ⟨0, 0, fun _ => ⟨0, 0, ""⟩, none⟩⟩

/-- Three errors are more than the ring holds, and the fourth one comes from `on_error` itself. -/
def fourErrors : List (Act ℕ) :=
  [.call 0 .trylock 1, .call 1 (.error2 1 "a") 1, .call 2 (.error2 2 "b") 1, .call 1 (.error2 3 "c") 1,
    .call 0 .unlock 1, .onError 0, .call 0 (.error2 4 "d") 1, .call 0 .unlock 1, .onError 0,
      .call 0 .unlock 1,
    .onError 0, .call 0 .unlock 1, .onError 0, .call 0 .unlock 1]

theorem run_delivers_four :
    Delivers (runFrom step (start ℕ 1 .fresh) fourErrors) ∧
      (runFrom step (start ℕ 1 .fresh) fourErrors).delivered.map
      (fun d => (d.thread, d.error.errorCode)) =
        [(0, 1), (0, 2), (0, 3), (0, 4)] := by
  constructor
  · apply run_delivers
    · exact ⟨rfl, rfl, by decide, id, rfl⟩
    · exact ⟨by decide, by decide⟩
    · decide
    · decide
  · decide

end Eabase.Fiber.SessionError
