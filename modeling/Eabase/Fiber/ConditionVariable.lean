import Mathlib.Data.Fintype.Basic
import Eabase.Lib.Machine

/-!
# The fiber condition variable

`fiber/condition_variable.cc` over one mutex, the one the condition is bound to.
A wait reads `seq`, binds the mutex, unlocks it, waits on the butex of `seq` and
locks again with `lock_contended`. A signal bumps `seq` and wakes the oldest
waiter. A broadcast bumps `seq`, wakes the oldest waiter and moves all others to
the butex of the mutex, whose word it leaves as it is.

An operation on a butex is one step: `butex_wait` compares and links,
`butex_wake` unlinks the oldest waiter and makes it runnable, `butex_requeue`
holds both locks. A deadline or an interruption takes a waiter out of the list it
is in, or keeps it from being linked. A wait that passes another mutex than the
bound one returns `EINVAL` before it has touched anything and is no step.
-/

namespace Eabase.Fiber.ConditionVariable

open Lib Function List

variable {ι : Type*} [DecidableEq ι]

/-! ## The machine -/

/-- Where a thread stands. `fast`, `mark`, `park` and `parked` are in `lock`: in front of the
exchange of the locked byte, of the exchange of the whole word, of `butex_wait` on the word, and
linked there. `wake` is the `butex_wake` of `unlock`. `bind` to `awaiting` are in `wait`, with the
`seq` that was read; `drop` and `dropWake` are its `unlock`. `timed` tells that the wait has a
deadline, `held` that the caller of `signal` or `broadcast` holds the mutex. -/
inductive Pc where
  | out
  | fast (timed : Bool)
  | mark (timed : Bool)
  | park (timed : Bool)
  | parked (timed : Bool)
  | holding
  | wake
  | bind (expected : BitVec 32) (timed : Bool)
  | drop (expected : BitVec 32) (timed : Bool)
  | dropWake (expected : BitVec 32) (timed : Bool)
  | await (expected : BitVec 32) (timed : Bool)
  | awaiting (timed : Bool)
  | signalWake (held : Bool)
  | broadcastAdd (held : Bool)
  | requeue (held : Bool)
  deriving DecidableEq

/-- The mutex with the waiters of its butex, the condition with the waiters of its own, oldest
first. `bound` is `m != NULL`. `called i` records that `i` was queued on the condition when a
broadcast took effect and has begun no wait since. -/
structure State (ι : Type*) where
  locked : Bool
  contended : Bool
  mutexQueue : List ι
  bound : Bool
  seq : BitVec 32
  condQueue : List ι
  pc : ι → Pc
  called : ι → Bool

/-- `fiber_mutex_init` and `fiber_cond_init`. -/
def start (ι : Type*) : State ι where
  locked := false
  contended := false
  mutexQueue := []
  bound := false
  seq := 0
  condQueue := []
  pc _ := .out
  called _ := false

def State.goto (s : State ι) (i : ι) (p : Pc) : State ι :=
  { s with pc := update s.pc i p }

/-- The caller of `signal` or `broadcast` comes back. -/
def back (held : Bool) : Pc :=
  if held then .holding else .out

/-- Where a waiter goes on that is woken: `lock` tries again, a wait locks without a deadline. -/
def Pc.resume : Pc → Pc
  | .parked timed => .mark timed
  | .awaiting _ => .mark false
  | p => p

section

variable (s : State ι)

/-- `RemoveFromList` of `i`, which goes on at `p`. -/
def State.unlink (i : ι) (p : Pc) : State ι :=
  { s with condQueue := s.condQueue.erase i, mutexQueue := s.mutexQueue.erase i }.goto i p

/-- `butex_wake` on the word of the mutex. -/
def State.wakeMutex : State ι :=
  match s.mutexQueue with
  | [] => s
  | w :: _ => s.unlink w (s.pc w).resume

/-- `butex_wake` on `seq`. -/
def State.wakeCond : State ι :=
  match s.condQueue with
  | [] => s
  | w :: _ => s.unlink w (s.pc w).resume

def State.transfer : State ι :=
  { s with condQueue := [], mutexQueue := s.mutexQueue ++ s.condQueue }

/-- What `called` is when a broadcast has taken effect in `s`. -/
def State.call (i : ι) : Bool :=
  if i ∈ s.condQueue then true else s.called i

/-- `butex_requeue` from `seq` to the word of the mutex. -/
def State.requeue : State ι :=
  match s.condQueue with
  | [] => s
  | _ :: _ => s.wakeCond.transfer

end

/-- One label of a run. `go` is the next step of a thread inside a function, `expire` the deadline
of its `butex_wait`, `interrupt` an interruption of it. -/
inductive Act (ι : Type*) where
  | lock (i : ι) (timed : Bool)
  | trylock (i : ι)
  | unlock (i : ι)
  | wait (i : ι) (timed : Bool)
  | signal (i : ι)
  | broadcast (i : ι)
  | go (i : ι)
  | expire (i : ι)
  | interrupt (i : ι)
  deriving DecidableEq

section

variable (s : State ι) (i : ι)

/-- `whole->exchange(0)` of `unlock`, which then goes on at `p`, or at `q` to wake. -/
def State.release (p q : Pc) : State ι :=
  { s with locked := false, contended := false }.goto i (if s.locked ∧ ¬ s.contended then p else q)

def goStep : State ι :=
  match s.pc i with
  | .fast timed =>
    if s.locked then s.goto i (.mark timed) else { s with locked := true }.goto i .holding
  | .mark timed =>
    { s with locked := true, contended := true }.goto i (if s.locked then .park timed else .holding)
  | .park timed =>
    if s.locked ∧ s.contended then
      { s with mutexQueue := s.mutexQueue ++ [i] }.goto i (.parked timed)
    else s.goto i (.mark timed)
  | .wake => s.wakeMutex.goto i .out
  | .bind expected timed => { s with bound := true }.goto i (.drop expected timed)
  | .drop expected timed => s.release i (.await expected timed) (.dropWake expected timed)
  | .dropWake expected timed => s.wakeMutex.goto i (.await expected timed)
  | .await expected timed =>
    if s.seq = expected then
      { s with condQueue := s.condQueue ++ [i] }.goto i (.awaiting timed)
    else s.goto i (.mark false)
  | .signalWake held => s.wakeCond.goto i (back held)
  | .broadcastAdd held => { s with seq := s.seq + 1 }.goto i (.requeue held)
  | .requeue held => { s.requeue with called := s.call }.goto i (back held)
  | .out | .holding | .parked _ | .awaiting _ => s

/-- The deadline of the `butex_wait` of `i` passes: `timedlock` gives up, a wait locks. -/
def expireStep : State ι :=
  match s.pc i with
  | .park timed => if timed then s.goto i .out else s
  | .parked timed => if timed then s.unlink i .out else s
  | .await _ timed => if timed then s.goto i (.mark false) else s
  | .awaiting timed => if timed then s.unlink i (.mark false) else s
  | _ => s

/-- The `butex_wait` of `i` returns `EINTR`. -/
def interruptStep : State ι :=
  match s.pc i with
  | .park timed => s.goto i (.mark timed)
  | .parked timed => s.unlink i (.mark timed)
  | .await _ _ => s.goto i (.mark false)
  | .awaiting _ => s.unlink i (.mark false)
  | _ => s

/-- `signal` behind its `fetch_add`. -/
def State.signal (held : Bool) : State ι :=
  { s with seq := s.seq + 1 }.goto i (.signalWake held)

/-- `broadcast` behind its load of `m`. -/
def State.broadcast (held : Bool) : State ι :=
  if s.bound then s.goto i (.broadcastAdd held) else { s with called := s.call }

end

def step (s : State ι) : Act ι → State ι
  | .lock i timed => if s.pc i = .out then s.goto i (.fast timed) else s
  | .trylock i =>
    if s.pc i = .out ∧ s.locked = false then { s with locked := true }.goto i .holding else s
  | .unlock i => if s.pc i = .holding then s.release i .out .wake else s
  | .wait i timed =>
    if s.pc i = .holding then
      { s with called := update s.called i false }.goto i (.bind s.seq timed)
    else s
  | .signal i =>
    match s.pc i with
    | .out => s.signal i false
    | .holding => s.signal i true
    | _ => s
  | .broadcast i =>
    match s.pc i with
    | .out => s.broadcast i false
    | .holding => s.broadcast i true
    | _ => s
  | .go i => goStep s i
  | .expire i => expireStep s i
  | .interrupt i => interruptStep s i

/-! ## The property -/

def Pc.holds : Pc → Bool
  | .holding | .bind _ _ | .drop _ _ => true
  | .signalWake held | .broadcastAdd held | .requeue held => held
  | _ => false

/-- In front of the exchange that marks the word contended, or of the wake of an `unlock`. -/
def Pc.rescues : Pc → Bool
  | .mark _ | .wake | .dropWake _ _ => true
  | _ => false

def Pc.blocked : Pc → Bool
  | .parked _ | .awaiting _ => true
  | _ => false

/-- The mutex is marked contended and held by somebody who will see that, or somebody is still going
to mark or to wake. -/
def Rescued (s : State ι) : Prop :=
  (s.locked = true ∧ s.contended = true ∧ ∃ i, (s.pc i).holds = true) ∨
    ∃ i, (s.pc i).rescues = true

/-- `i` is not queued on the condition, and runs or is queued on a mutex that will not forget it. -/
def Served (s : State ι) (i : ι) : Prop :=
  i ∉ s.condQueue ∧ ((s.pc i).blocked = false ∨ i ∈ s.mutexQueue ∧ Rescued s)

/-! ## The invariant -/

/-- Inside a wait whose mutex is bound. -/
def Pc.bounds : Pc → Bool
  | .drop _ _ | .dropWake _ _ | .await _ _ | .awaiting _ => true
  | _ => false

/-- Inside a wait that may still link itself. -/
def Pc.links : Pc → Bool
  | .bind _ _ | .drop _ _ | .dropWake _ _ | .await _ _ => true
  | _ => false

/-- Who is inside `butex_wait` is in a list that it may be in, and nobody else is in one. -/
def Placed (s : State ι) (i : ι) : Prop :=
  match s.pc i with
  | .parked _ => i ∈ s.mutexQueue ∧ i ∉ s.condQueue
  | .awaiting _ => i ∈ s.condQueue ∨ i ∈ s.mutexQueue
  | _ => i ∉ s.condQueue ∧ i ∉ s.mutexQueue

/-- The invariant. `rescue` is what carries `Served`: whenever somebody is linked on the mutex, the
word says so or somebody is going to mark or to wake. -/
structure Inv (s : State ι) : Prop where
  excludes : ∀ i j, (s.pc i).holds = true → (s.pc j).holds = true → i = j
  locked : s.locked = true ↔ ∃ i, (s.pc i).holds = true
  marked : s.contended = true → s.locked = true
  nodup : (s.condQueue ++ s.mutexQueue).Nodup
  placed : ∀ i, Placed s i
  rescue : s.mutexQueue ≠ [] → s.contended = true ∨ ∃ i, (s.pc i).rescues = true
  bound : ∀ i, (s.pc i).bounds = true → s.bound = true
  called : ∀ i, s.called i = true → i ∉ s.condQueue ∧ (s.pc i).links = false

omit [DecidableEq ι] in
theorem start_inv : Inv (start ι) where
  excludes := nofun
  locked := by simp [start, Pc.holds]
  marked := nofun
  nodup := nodup_nil
  placed _ := by simp [Placed, start]
  rescue h := absurd rfl h
  bound := nofun
  called := nofun

section Steps

variable {s : State ι} {i : ι} {p : Pc} {f : ι → Bool} {held : Bool} {j : ι} {b c timed : Bool}
  {q : BitVec 32}

@[simp] theorem goto_self : (s.goto i p).pc i = p := update_self ..

theorem goto_ne (h : j ≠ i) : (s.goto i p).pc j = s.pc j := update_of_ne h ..

section

omit [DecidableEq ι]

theorem Placed.congr {s' : State ι} (h : Placed s j) (hpc : s'.pc j = s.pc j)
    (hc : j ∈ s'.condQueue ↔ j ∈ s.condQueue) (hm : j ∈ s'.mutexQueue ↔ j ∈ s.mutexQueue) :
    Placed s' j := by
  unfold Placed at h ⊢
  rw [hpc]
  simpa only [hc, hm] using h

theorem Placed.off (h : Placed s j) (hj : (s.pc j).blocked = false) :
    j ∉ s.condQueue ∧ j ∉ s.mutexQueue := by
  unfold Placed at h
  split at h
  next hpc =>
    rw [hpc] at hj
    cases hj
  next hpc =>
    rw [hpc] at hj
    cases hj
  · exact h

theorem Placed.of_off (hj : (s.pc j).blocked = false)
    (h : j ∉ s.condQueue ∧ j ∉ s.mutexQueue) : Placed s j := by
  unfold Placed
  split
  next hpc =>
    rw [hpc] at hj
    cases hj
  next hpc =>
    rw [hpc] at hj
    cases hj
  · exact h

end

omit [DecidableEq ι] in
theorem Placed.blocked (h : Placed s j) (hj : j ∈ s.condQueue ∨ j ∈ s.mutexQueue) :
    (s.pc j).blocked = true := by
  by_contra hb
  obtain ⟨hc, hm⟩ := h.off (Bool.eq_false_iff.2 hb)
  exact hj.elim hc hm

omit [DecidableEq ι] in
theorem Placed.awaiting (h : Placed s j) (hj : j ∈ s.condQueue) :
    ∃ timed, s.pc j = .awaiting timed := by
  unfold Placed at h
  split at h
  · exact absurd hj h.2
  next timed hpc =>
    exact ⟨timed, hpc⟩
  · exact absurd hj h.1

theorem Pc.not_blocked_of_holds (h : p.holds = true) : p.blocked = false := by
  cases p <;> first | rfl | cases h

theorem Pc.not_rescues_of_holds (h : p.holds = true) : p.rescues = false := by
  cases p <;> first | rfl | cases h

theorem Pc.not_blocked_of_rescues (h : p.rescues = true) : p.blocked = false := by
  cases p <;> first | rfl | cases h

theorem Pc.not_blocked_of_links (h : p.links = true) : p.blocked = false := by
  cases p <;> first | rfl | cases h

section

variable (h : Inv s)
include h

/-- **Moves outside the lists.** A thread that is not linked goes on to a place where it is not
linked either, possibly changing the word, the binding and `seq`. -/
theorem Inv.move {l : Bool}
    (hoff : (s.pc i).blocked = false) (hp : p.blocked = false)
    (hl : l = true ↔ p.holds = true ∨ ∃ j, j ≠ i ∧ (s.pc j).holds = true)
    (hex : p.holds = true → ∀ j, j ≠ i → (s.pc j).holds = false) (hmark : c = true → l = true)
    (hrescue : s.mutexQueue ≠ [] → c = true ∨ p.rescues = true ∨ ∃ j, j ≠ i ∧ (s.pc j).rescues = true)
    (hb : p.bounds = true → b = true) (hbound : s.bound = true → b = true)
    (hf : ∀ j, f j = true → s.called j = true) (hlinks : p.links = true → f i = false) :
    Inv ({ s with locked := l, contended := c, bound := b, seq := q, called := f }.goto i p) := by
  set s' := ({ s with locked := l, contended := c, bound := b, seq := q, called := f }.goto i p)
  have hself : s'.pc i = p := goto_self
  have hne : ∀ j, j ≠ i → s'.pc j = s.pc j := fun j hj => goto_ne hj
  have hex' : ∀ j, j ≠ i → (s.pc j).holds = true → p.holds = true → False := by
    intro j hj hjh hph
    rw [hex hph j hj] at hjh
    cases hjh
  refine ⟨?_, ?_, hmark, h.nodup, ?_, ?_, ?_, ?_⟩
  · intro j k hj hk
    obtain rfl | hji := eq_or_ne j i
    · obtain rfl | hki := eq_or_ne k j
      · rfl
      · rw [hself] at hj
        rw [hne k hki] at hk
        exact (hex' k hki hk hj).elim
    · rw [hne j hji] at hj
      obtain rfl | hki := eq_or_ne k i
      · rw [hself] at hk
        exact (hex' j hji hj hk).elim
      · rw [hne k hki] at hk
        exact h.excludes j k hj hk
  · refine hl.trans ?_
    constructor
    · rintro (hph | ⟨j, hji, hj⟩)
      · exact ⟨i, hself ▸ hph⟩
      · exact ⟨j, (hne j hji).symm ▸ hj⟩
    · rintro ⟨j, hj⟩
      obtain rfl | hji := eq_or_ne j i
      · exact .inl (hself ▸ hj)
      · exact .inr ⟨j, hji, hne j hji ▸ hj⟩
  · intro j
    obtain rfl | hji := eq_or_ne j i
    · exact .of_off (hself ▸ hp) ((h.placed j).off hoff)
    · exact (h.placed j).congr (hne j hji) Iff.rfl Iff.rfl
  · intro hw
    rcases hrescue hw with hc | hpr | ⟨j, hji, hj⟩
    · exact .inl hc
    · exact .inr ⟨i, hself ▸ hpr⟩
    · exact .inr ⟨j, (hne j hji).symm ▸ hj⟩
  · intro j hj
    obtain rfl | hji := eq_or_ne j i
    · exact hb (hself ▸ hj)
    · exact hbound (h.bound j (hne j hji ▸ hj))
  · intro j hj
    refine ⟨(h.called j (hf j hj)).1, ?_⟩
    obtain rfl | hji := eq_or_ne j i
    · have hfj : f j = true := hj
      rw [hself]
      by_contra hlk
      rw [hlinks (Bool.not_eq_false _ ▸ hlk)] at hfj
      cases hfj
    · rw [hne j hji]
      exact (h.called j (hf j hj)).2

omit [DecidableEq ι] in
/-- The lock is held by somebody else, if by anybody, than a thread that does not hold it. -/
theorem Inv.locked_other (hi : (s.pc i).holds = false) :
    s.locked = true ↔ ∃ j, j ≠ i ∧ (s.pc j).holds = true := by
  refine h.locked.trans ?_
  constructor
  · rintro ⟨j, hj⟩
    refine ⟨j, ?_, hj⟩
    rintro rfl
    rw [hi] at hj
    cases hj
  · rintro ⟨j, -, hj⟩
    exact ⟨j, hj⟩

section

variable (hoff : (s.pc i).blocked = false) (hp : p.blocked = false) (hh : p.holds = (s.pc i).holds)
include hoff hp hh

/-- A thread goes on without a change of the word; what it held it holds, and if it was to mark or
to wake it still is, or nobody is linked on the mutex, or another thread is. -/
theorem Inv.pass (hr : (s.pc i).rescues = true → p.rescues = true ∨ s.mutexQueue = [] ∨
      ∃ j, j ≠ i ∧ (s.pc j).rescues = true)
    (hb : p.bounds = true → b = true) (hbound : s.bound = true → b = true)
    (hf : ∀ j, f j = true → s.called j = true) (hlinks : p.links = true → f i = false) :
    Inv ({ s with bound := b, seq := q, called := f }.goto i p) := by
  refine h.move (l := s.locked) (c := s.contended) hoff hp ?_ ?_ h.marked ?_ hb hbound hf hlinks
  · refine h.locked.trans ?_
    constructor
    · rintro ⟨j, hj⟩
      obtain rfl | hji := eq_or_ne j i
      · exact .inl (hh.trans hj)
      · exact .inr ⟨j, hji, hj⟩
    · rintro (hj | ⟨j, -, hj⟩)
      · exact ⟨i, hh ▸ hj⟩
      · exact ⟨j, hj⟩
  · intro hph j hji
    by_contra hj
    exact hji (h.excludes j i (Bool.not_eq_false _ ▸ hj) (hh ▸ hph))
  · intro hw
    rcases h.rescue hw with hc | ⟨j, hj⟩
    · exact .inl hc
    · obtain rfl | hji := eq_or_ne j i
      · rcases hr hj with hpr | hnil | hother
        · exact .inr (.inl hpr)
        · exact absurd hnil hw
        · exact .inr (.inr hother)
      · exact .inr (.inr ⟨j, hji, hj⟩)

theorem Inv.goto (hr : (s.pc i).rescues = true → p.rescues = true)
    (hb : p.bounds = false) (hlk : p.links = false) : Inv (s.goto i p) := by
  refine h.pass (b := s.bound) (q := s.seq) (f := s.called) hoff hp hh (fun hi => .inl (hr hi)) ?_ id
    (fun _ => id) ?_
  · intro hbp
    rw [hb] at hbp
    cases hbp
  · intro hlp
    rw [hlk] at hlp
    cases hlp

end

theorem Inv.acquire (hi : (s.pc i).blocked = false) (hfree : s.locked = false)
    (hr : c = true ∨ (s.pc i).rescues = false) (hc : s.contended = true → c = true) :
    Inv ({ s with locked := true, contended := c }.goto i .holding) := by
  have hno : ∀ j, (s.pc j).holds = false := by
    intro j
    by_contra hj
    have := h.locked.2 ⟨j, Bool.not_eq_false _ ▸ hj⟩
    rw [hfree] at this
    cases this
  refine h.move (b := s.bound) (q := s.seq) (f := s.called) hi rfl ?_ (fun _ j _ => hno j)
    (fun _ => rfl) ?_ nofun id (fun _ => id) nofun
  · exact ⟨fun _ => .inl rfl, fun _ => rfl⟩
  · intro hw
    rcases hr with hct | hri
    · exact .inl hct
    · rcases h.rescue hw with hct | ⟨j, hj⟩
      · exact .inl (hc hct)
      · refine .inr (.inr ⟨j, ?_, hj⟩)
        rintro rfl
        rw [hri] at hj
        cases hj

theorem Inv.release {q : Pc} (hi : (s.pc i).holds = true)
    (hp : p.blocked = false ∧ p.holds = false) (hq : q.blocked = false ∧ q.holds = false)
    (hqr : q.rescues = true) (hpb : p.bounds = true ∨ q.bounds = true → s.bound = true)
    (hlk : p.links = true ∨ q.links = true → s.called i = false) : Inv (s.release i p q) := by
  have hlocked : s.locked = true := h.locked.2 ⟨i, hi⟩
  have hpq : ∀ {f : Pc → Bool} {v : Bool}, f p = v → f q = v →
      f (if s.locked ∧ ¬ s.contended then p else q) = v := by
    intro f v hfp hfq
    split
    · exact hfp
    · exact hfq
  have hor : ∀ {f : Pc → Bool}, f (if s.locked ∧ ¬ s.contended then p else q) = true →
      f p = true ∨ f q = true := by
    intro f hf
    split at hf
    · exact .inl hf
    · exact .inr hf
  refine h.move (b := s.bound) (q := s.seq) (f := s.called) (Pc.not_blocked_of_holds hi)
    (hpq hp.1 hq.1) ?_ ?_ nofun ?_ (fun hb => hpb (hor hb)) id (fun _ => id) fun hl => hlk (hor hl)
  · constructor
    · nofun
    · rintro (hph | ⟨j, hji, hj⟩)
      · rw [hpq hp.2 hq.2] at hph
        cases hph
      · exact absurd (h.excludes j i hj hi) hji
  · intro hph
    rw [hpq hp.2 hq.2] at hph
    cases hph
  · intro hw
    rcases h.rescue hw with hct | ⟨j, hj⟩
    · refine .inr (.inl ?_)
      rw [if_neg (by simp [hct])]
      exact hqr
    · refine .inr (.inr ⟨j, ?_, hj⟩)
      rintro rfl
      rw [Pc.not_rescues_of_holds hi] at hj
      cases hj

theorem Inv.park (hpc : s.pc i = .park timed) (hc : s.contended = true) :
    Inv ({ s with mutexQueue := s.mutexQueue ++ [i] }.goto i (.parked timed)) := by
  set s' := ({ s with mutexQueue := s.mutexQueue ++ [i] }.goto i (.parked timed)) with hs'
  have hself : s'.pc i = .parked timed := goto_self
  have hne : ∀ j, j ≠ i → s'.pc j = s.pc j := fun j hj => goto_ne hj
  obtain ⟨hoffc, hoffm⟩ := (h.placed i).off (by rw [hpc]; rfl)
  have hholds : ∀ j, (s'.pc j).holds = (s.pc j).holds := by
    intro j
    obtain rfl | hji := eq_or_ne j i
    · rw [hself, hpc]
      rfl
    · rw [hne j hji]
  refine ⟨?_, ?_, h.marked, ?_, ?_, fun _ => .inl hc, ?_, ?_⟩
  · intro j k hj hk
    rw [hholds] at hj hk
    exact h.excludes j k hj hk
  · simp only [hholds]
    exact h.locked
  · have hnd : (s.condQueue ++ s.mutexQueue ++ [i]).Nodup := by
      refine nodup_append.2 ⟨h.nodup, nodup_singleton i, ?_⟩
      rintro j hj k hk rfl
      rw [mem_singleton] at hk
      subst hk
      exact (mem_append.1 hj).elim hoffc hoffm
    simpa [hs', State.goto] using hnd
  · intro j
    obtain rfl | hji := eq_or_ne j i
    · unfold Placed
      rw [hself]
      exact ⟨mem_append_right _ (mem_singleton_self j), hoffc⟩
    · refine (h.placed j).congr (hne j hji) Iff.rfl ?_
      simp [hs', State.goto, hji]
  · intro j hj
    obtain rfl | hji := eq_or_ne j i
    · rw [hself] at hj
      cases hj
    · exact h.bound j (hne j hji ▸ hj)
  · intro j hj
    obtain rfl | hji := eq_or_ne j i
    · exact ⟨hoffc, by rw [hself]; rfl⟩
    · rw [hne j hji]
      exact h.called j hj

theorem Inv.await {expected : BitVec 32}
    (hpc : s.pc i = .await expected timed) :
    Inv ({ s with condQueue := s.condQueue ++ [i] }.goto i (.awaiting timed)) := by
  set s' := ({ s with condQueue := s.condQueue ++ [i] }.goto i (.awaiting timed)) with hs'
  have hself : s'.pc i = .awaiting timed := goto_self
  have hne : ∀ j, j ≠ i → s'.pc j = s.pc j := fun j hj => goto_ne hj
  obtain ⟨hoffc, hoffm⟩ := (h.placed i).off (by rw [hpc]; rfl)
  have hholds : ∀ j, (s'.pc j).holds = (s.pc j).holds := by
    intro j
    obtain rfl | hji := eq_or_ne j i
    · rw [hself, hpc]
      rfl
    · rw [hne j hji]
  refine ⟨?_, ?_, h.marked, ?_, ?_, ?_, ?_, ?_⟩
  · intro j k hj hk
    rw [hholds] at hj hk
    exact h.excludes j k hj hk
  · simp only [hholds]
    exact h.locked
  · obtain ⟨hndc, hndm, hdis⟩ := nodup_append.1 h.nodup
    refine nodup_append.2 ⟨?_, hndm, ?_⟩
    · refine nodup_append.2 ⟨hndc, nodup_singleton i, ?_⟩
      rintro j hj k hk rfl
      rw [mem_singleton] at hk
      subst hk
      exact hoffc hj
    · intro j hj k hk
      rcases mem_append.1 hj with hj | hj
      · exact hdis j hj k hk
      · rw [mem_singleton] at hj
        subst hj
        rintro rfl
        exact hoffm hk
  · intro j
    obtain rfl | hji := eq_or_ne j i
    · unfold Placed
      rw [hself]
      exact .inl (mem_append_right _ (mem_singleton_self j))
    · refine (h.placed j).congr (hne j hji) ?_ Iff.rfl
      simp [hs', State.goto, hji]
  · intro hw
    rcases h.rescue hw with hc | ⟨j, hj⟩
    · exact .inl hc
    · refine .inr ⟨j, ?_⟩
      obtain rfl | hji := eq_or_ne j i
      · rw [hpc] at hj
        cases hj
      · exact (hne j hji).symm ▸ hj
  · intro j hj
    obtain rfl | hji := eq_or_ne j i
    · exact h.bound j (by rw [hpc]; rfl)
    · exact h.bound j (hne j hji ▸ hj)
  · intro j hj
    have hold := h.called j hj
    obtain rfl | hji := eq_or_ne j i
    · rw [hpc] at hold
      cases hold.2
    · refine ⟨?_, (hne j hji).symm ▸ hold.2⟩
      intro hmem
      rcases mem_append.1 hmem with hmem | hmem
      · exact hold.1 hmem
      · exact hji (mem_singleton.1 hmem)

/-- **Leaving the lists.** A linked thread is taken out of the list it is in and goes on. -/
theorem Inv.unlink (hi : (s.pc i).blocked = true) (hp : p.blocked = false)
    (hholdp : p.holds = false) (hbp : p.bounds = false) (hlp : p.links = false) :
    Inv (s.unlink i p) := by
  set s' := s.unlink i p with hs'
  have hself : s'.pc i = p := goto_self
  have hne : ∀ j, j ≠ i → s'.pc j = s.pc j := fun j hj => goto_ne hj
  obtain ⟨hndc, hndm, hdis⟩ := nodup_append.1 h.nodup
  have hholds : ∀ j, (s'.pc j).holds = (s.pc j).holds := by
    intro j
    obtain rfl | hji := eq_or_ne j i
    · rw [hself, hholdp]
      by_contra hne
      have hh : (s.pc j).holds = true := by simpa using Ne.symm hne
      rw [Pc.not_blocked_of_holds hh] at hi
      cases hi
    · rw [hne j hji]
  refine ⟨?_, ?_, h.marked, ?_, ?_, ?_, ?_, ?_⟩
  · intro j k hj hk
    rw [hholds] at hj hk
    exact h.excludes j k hj hk
  · simp only [hholds]
    exact h.locked
  · exact nodup_append.2 ⟨hndc.erase i, hndm.erase i,
      fun j hj k hk => hdis j (mem_of_mem_erase hj) k (mem_of_mem_erase hk)⟩
  · intro j
    obtain rfl | hji := eq_or_ne j i
    · exact .of_off (hself ▸ hp) ⟨hndc.not_mem_erase, hndm.not_mem_erase⟩
    · exact (h.placed j).congr (hne j hji) (mem_erase_of_ne hji) (mem_erase_of_ne hji)
  · intro hw
    have hw' : s.mutexQueue ≠ [] := by
      intro hnil
      apply hw
      simp [hs', State.unlink, State.goto, hnil]
    rcases h.rescue hw' with hc | ⟨j, hj⟩
    · exact .inl hc
    · refine .inr ⟨j, ?_⟩
      have hji : j ≠ i := by
        rintro rfl
        rw [Pc.not_blocked_of_rescues hj] at hi
        cases hi
      exact (hne j hji).symm ▸ hj
  · intro j hj
    obtain rfl | hji := eq_or_ne j i
    · rw [hself, hbp] at hj
      cases hj
    · exact h.bound j (hne j hji ▸ hj)
  · intro j hj
    obtain ⟨hoff, hlk⟩ := h.called j hj
    refine ⟨fun hmem => hoff (mem_of_mem_erase hmem), ?_⟩
    obtain rfl | hji := eq_or_ne j i
    · rw [hself]
      exact hlp
    · rw [hne j hji]
      exact hlk

end

theorem Pc.resume_eq (hp : p.blocked = true) : ∃ timed, p.resume = .mark timed := by
  cases p <;> first | exact ⟨_, rfl⟩ | cases hp

theorem Inv.resume (h : Inv s) (hi : (s.pc i).blocked = true) : Inv (s.unlink i (s.pc i).resume) ∧
      ((s.unlink i (s.pc i).resume).pc i).rescues = true := by
  obtain ⟨timed, hres⟩ := Pc.resume_eq hi
  rw [hres]
  refine ⟨h.unlink hi rfl rfl rfl rfl, ?_⟩
  have hself : (s.unlink i (.mark timed)).pc i = .mark timed := goto_self
  rw [hself]
  rfl

/-- What `butex_wake` on the word of the mutex does: nobody is linked, or some other thread than one
that is not linked is going to mark the word. -/
theorem Inv.wakeMutex (h : Inv s) : Inv s.wakeMutex ∧ ∀ i, (s.pc i).blocked = false →
    s.wakeMutex.pc i = s.pc i ∧
      (s.wakeMutex.mutexQueue = [] ∨ ∃ j, j ≠ i ∧ (s.wakeMutex.pc j).rescues = true) := by
  unfold State.wakeMutex
  split
  next hnil =>
    exact ⟨h, fun i _ => ⟨rfl, .inl hnil⟩⟩
  next w ws hw =>
    have hbw : (s.pc w).blocked = true := (h.placed w).blocked (.inr (hw ▸ mem_cons_self))
    obtain ⟨hinv, hres⟩ := h.resume hbw
    refine ⟨hinv, ?_⟩
    intro i hi
    have hne : w ≠ i := by
      rintro rfl
      rw [hbw] at hi
      cases hi
    exact ⟨goto_ne hne.symm, .inr ⟨w, hne, hres⟩⟩

/-- What `butex_wake` on `seq` does: who is not linked stays where it is, and a woken thread does
not link itself on the condition. -/
theorem Inv.wakeCond (h : Inv s) : Inv s.wakeCond ∧
    (∀ i, (s.pc i).blocked = false → s.wakeCond.pc i = s.pc i) ∧
      (∀ i, (s.pc i).blocked = true → (s.wakeCond.pc i).links = false) ∧
        (s.condQueue ≠ [] → ∃ j, (s.wakeCond.pc j).rescues = true) := by
  have hlk : ∀ i, (s.pc i).blocked = true → (s.pc i).links = false := by
    intro i hi
    by_contra hl
    rw [Pc.not_blocked_of_links (Bool.not_eq_false _ ▸ hl)] at hi
    cases hi
  unfold State.wakeCond
  split
  next hnil =>
    exact ⟨h, fun _ _ => rfl, hlk, fun hne => absurd hnil hne⟩
  next w ws hw =>
    have hbw : (s.pc w).blocked = true := (h.placed w).blocked (.inl (hw ▸ mem_cons_self))
    obtain ⟨hinv, hres⟩ := h.resume hbw
    refine ⟨hinv, ?_, ?_, fun _ => ⟨w, hres⟩⟩
    · intro i hi
      refine goto_ne ?_
      rintro rfl
      rw [hbw] at hi
      cases hi
    · intro i hi
      obtain rfl | hiw := eq_or_ne i w
      · obtain ⟨timed, hmark⟩ := Pc.resume_eq hbw
        rw [hmark]
        have hself : (s.unlink i (.mark timed)).pc i = .mark timed := goto_self
        rw [hself]
        rfl
      · have hne : (s.unlink w (s.pc w).resume).pc i = s.pc i := goto_ne hiw
        rw [hne]
        exact hlk i hi

omit [DecidableEq ι] in
/-- The waiters of the condition are moved to the mutex, while somebody is going to mark its
word. -/
theorem Inv.transfer (h : Inv s) (hr : s.condQueue ≠ [] → ∃ i, (s.pc i).rescues = true) :
    Inv s.transfer := by
  refine ⟨h.excludes, h.locked, h.marked, ?_, ?_, ?_, h.bound, ?_⟩
  · show ([] ++ (s.mutexQueue ++ s.condQueue)).Nodup
    simpa using nodup_append_comm.1 h.nodup
  · intro j
    have hj := h.placed j
    unfold Placed at hj ⊢
    have hm : j ∈ s.transfer.mutexQueue ↔ j ∈ s.mutexQueue ∨ j ∈ s.condQueue := mem_append
    have hc : j ∉ s.transfer.condQueue := not_mem_nil
    show match s.pc j with
      | .parked _ => j ∈ s.transfer.mutexQueue ∧ j ∉ s.transfer.condQueue
      | .awaiting _ => j ∈ s.transfer.condQueue ∨ j ∈ s.transfer.mutexQueue
      | _ => j ∉ s.transfer.condQueue ∧ j ∉ s.transfer.mutexQueue
    split at hj
    · exact ⟨hm.2 (.inl hj.1), hc⟩
    · exact .inr (hm.2 hj.symm)
    · exact ⟨hc, fun hmem => (hm.1 hmem).elim hj.2 hj.1⟩
  · intro hw
    by_cases hm : s.mutexQueue = []
    · refine .inr (hr ?_)
      rintro hnil
      apply hw
      simp [State.transfer, hm, hnil]
    · exact h.rescue hm
  · intro j hj
    exact ⟨not_mem_nil, (h.called j hj).2⟩

/-- What `butex_requeue` does: nobody is queued on the condition any more. -/
theorem Inv.requeue (h : Inv s) : Inv s.requeue ∧ s.requeue.condQueue = [] ∧
    (∀ i, (s.pc i).blocked = false → s.requeue.pc i = s.pc i) ∧
      ∀ i ∈ s.condQueue, (s.requeue.pc i).links = false := by
  unfold State.requeue
  split
  next hnil =>
    refine ⟨h, hnil, fun _ _ => rfl, ?_⟩
    rw [hnil]
    nofun
  next w ws hw =>
    obtain ⟨hinv, hpc, hlk, hres⟩ := h.wakeCond
    refine ⟨hinv.transfer fun _ => hres (by simp [hw]), rfl, hpc, ?_⟩
    intro i hi
    exact hlk i ((h.placed i).blocked (.inl hi))

omit [DecidableEq ι] in
/-- `called` may change for those that are neither queued on the condition nor about to be. -/
theorem Inv.recall (h : Inv s)
    (hf : ∀ i, f i = true → i ∉ s.condQueue ∧ (s.pc i).links = false) : Inv { s with called := f } :=
  ⟨h.excludes, h.locked, h.marked, h.nodup, h.placed, h.rescue, h.bound, hf⟩

theorem requeue_called : s.requeue.called = s.called := by
  unfold State.requeue State.wakeCond
  split
  · rfl
  · rfl

theorem wakeMutex_called : s.wakeMutex.called = s.called := by
  unfold State.wakeMutex
  split <;> rfl

theorem wakeMutex_bound : s.wakeMutex.bound = s.bound := by
  unfold State.wakeMutex
  split <;> rfl

section

variable (h : Inv s)
include h

/-- **The requeue step.** All that were queued on the condition are called. -/
theorem Inv.requeueStep (hpc : s.pc i = .requeue held) :
    Inv ({ s.requeue with called := s.call }.goto i (back held)) := by
  obtain ⟨hinv, hnil, hkeep, hlinks⟩ := h.requeue
  have hi : s.requeue.pc i = .requeue held := (hkeep i (by rw [hpc]; rfl)).trans hpc
  have hrecall : Inv { s.requeue with called := s.call } := by
    refine hinv.recall ?_
    intro j hj
    refine ⟨hnil ▸ not_mem_nil, ?_⟩
    unfold State.call at hj
    split at hj
    next hmem =>
      exact hlinks j hmem
    · exact (hinv.called j ((requeue_called (s := s)).symm ▸ hj)).2
  refine hrecall.pass (b := s.requeue.bound) (q := s.requeue.seq) (f := s.call) ?_ ?_ ?_ ?_ ?_ id
    (fun _ => id) ?_
  · exact hi ▸ rfl
  · cases held <;> rfl
  · rw [hi]
    cases held <;> rfl
  · intro hr
    have hr : (s.requeue.pc i).rescues = true := hr
    rw [hi] at hr
    cases hr
  · cases held <;> nofun
  · cases held <;> nofun

omit [DecidableEq ι] in
theorem Inv.unbound (hb : s.bound = false) : s.condQueue = [] := by
  refine eq_nil_iff_forall_not_mem.2 fun i hi => ?_
  obtain ⟨timed, hpc⟩ := (h.placed i).awaiting hi
  have := h.bound i (by rw [hpc]; rfl)
  rw [hb] at this
  cases this

theorem Inv.signalWake (hpc : s.pc i = .signalWake held) :
    Inv (s.wakeCond.goto i (back held)) := by
  obtain ⟨hinv, hkeep, -⟩ := h.wakeCond
  have hi : s.wakeCond.pc i = .signalWake held := (hkeep i (by rw [hpc]; rfl)).trans hpc
  refine hinv.pass ?_ ?_ ?_ ?_ ?_ id (fun _ => id) ?_
  · exact hi ▸ rfl
  · cases held <;> rfl
  · rw [hi]
    cases held <;> rfl
  · intro hr
    rw [hi] at hr
    cases hr
  · cases held <;> nofun
  · cases held <;> nofun

theorem Inv.wakeStep (hi : (s.pc i).blocked = false) (hh : p.holds = (s.pc i).holds)
    (hp : p.blocked = false) (hb : p.bounds = true → s.wakeMutex.bound = true)
    (hlk : p.links = true → s.wakeMutex.called i = false) : Inv (s.wakeMutex.goto i p) := by
  obtain ⟨hinv, hkeep⟩ := h.wakeMutex
  obtain ⟨hpc, hother⟩ := hkeep i hi
  refine hinv.pass ?_ hp ?_ (fun _ => .inr hother) hb id (fun _ => id) hlk
  · rw [hpc]
    exact hi
  · rw [hpc]
    exact hh

theorem goStep_inv : Inv (goStep s i) := by
  unfold goStep
  split
  next timed hpc =>
    split
    · exact h.goto (by rw [hpc]; rfl) rfl (by rw [hpc]; rfl) (fun _ => rfl) rfl rfl
    next hfree =>
      exact h.acquire (by rw [hpc]; rfl) (Bool.eq_false_iff.2 hfree) (.inr (by rw [hpc]; rfl)) id
  next timed hpc =>
    have hi : (s.pc i).blocked = false := by rw [hpc]; rfl
    split
    next hl =>
      refine h.move (b := s.bound) (q := s.seq) (f := s.called) hi rfl ?_ nofun (fun _ => rfl)
        (fun _ => .inl rfl) nofun id (fun _ => id) nofun
      obtain ⟨j, hji, hj⟩ := (h.locked_other (i := i) (by rw [hpc]; rfl)).1 hl
      exact ⟨fun _ => .inr ⟨j, hji, hj⟩, fun _ => rfl⟩
    next hfree =>
      exact h.acquire hi (Bool.eq_false_iff.2 hfree) (.inl rfl) fun _ => rfl
  next timed hpc =>
    split
    next hword =>
      exact h.park hpc hword.2
    · exact h.goto (by rw [hpc]; rfl) rfl (by rw [hpc]; rfl) (fun _ => rfl) rfl rfl
  next hpc =>
    exact h.wakeStep (by rw [hpc]; rfl) (by rw [hpc]; rfl) rfl nofun nofun
  next expected timed hpc =>
    have hcall : s.called i = true → False := by
      intro hc
      have := (h.called i hc).2
      rw [hpc] at this
      cases this
    refine h.pass (q := s.seq) (f := s.called) (by rw [hpc]; rfl) rfl (by rw [hpc]; rfl) ?_ (fun _ => rfl)
      (fun _ => rfl) (fun _ => id) fun _ => Bool.eq_false_iff.2 hcall
    intro hr
    rw [hpc] at hr
    cases hr
  next expected timed hpc =>
    have hcall : s.called i = true → False := by
      intro hc
      have := (h.called i hc).2
      rw [hpc] at this
      cases this
    exact h.release (by rw [hpc]; rfl) ⟨rfl, rfl⟩ ⟨rfl, rfl⟩ rfl
      (fun _ => h.bound i (by rw [hpc]; rfl)) fun _ => Bool.eq_false_iff.2 hcall
  next expected timed hpc =>
    have hcall : s.called i = true → False := by
      intro hc
      have := (h.called i hc).2
      rw [hpc] at this
      cases this
    refine h.wakeStep (by rw [hpc]; rfl) (by rw [hpc]; rfl) rfl ?_ ?_
    · intro _
      exact (wakeMutex_bound (s := s)).symm ▸ h.bound i (by rw [hpc]; rfl)
    · intro _
      rw [wakeMutex_called]
      exact Bool.eq_false_iff.2 hcall
  next expected timed hpc =>
    split
    · exact h.await hpc
    · exact h.goto (by rw [hpc]; rfl) rfl (by rw [hpc]; rfl) (fun _ => rfl) rfl rfl
  next held hpc =>
    exact h.signalWake hpc
  next held hpc =>
    refine h.pass (b := s.bound) (q := s.seq + 1) (f := s.called) (by rw [hpc]; rfl) rfl ?_ ?_ nofun id
      (fun _ => id) nofun
    · rw [hpc]
      rfl
    intro hr
    rw [hpc] at hr
    cases hr
  next held hpc =>
    exact h.requeueStep hpc
  all_goals exact h

theorem expireStep_inv : Inv (expireStep s i) := by
  unfold expireStep
  split
  next timed hpc =>
    split
    · refine h.goto (by rw [hpc]; rfl) rfl (by rw [hpc]; rfl) ?_ rfl rfl
      intro hr
      rw [hpc] at hr
      cases hr
    · exact h
  next timed hpc =>
    split
    · exact h.unlink (by rw [hpc]; rfl) rfl rfl rfl rfl
    · exact h
  next expected timed hpc =>
    split
    · exact h.goto (by rw [hpc]; rfl) rfl (by rw [hpc]; rfl) (fun _ => rfl) rfl rfl
    · exact h
  next timed hpc =>
    split
    · exact h.unlink (by rw [hpc]; rfl) rfl rfl rfl rfl
    · exact h
  · exact h

theorem interruptStep_inv : Inv (interruptStep s i) := by
  unfold interruptStep
  split
  next timed hpc =>
    exact h.goto (by rw [hpc]; rfl) rfl (by rw [hpc]; rfl) (fun _ => rfl) rfl rfl
  next timed hpc =>
    exact h.unlink (by rw [hpc]; rfl) rfl rfl rfl rfl
  next expected timed hpc =>
    exact h.goto (by rw [hpc]; rfl) rfl (by rw [hpc]; rfl) (fun _ => rfl) rfl rfl
  next timed hpc =>
    exact h.unlink (by rw [hpc]; rfl) rfl rfl rfl rfl
  · exact h

theorem signal_inv (hpc : s.pc i = back held) : Inv (s.signal i held) := by
  refine h.pass (b := s.bound) (f := s.called) ?_ rfl ?_ ?_ nofun id (fun _ => id) nofun
  · rw [hpc]
    cases held <;> rfl
  · rw [hpc]
    cases held <;> rfl
  · intro hr
    rw [hpc] at hr
    cases held <;> cases hr

theorem broadcast_inv (hpc : s.pc i = back held) :
    Inv (s.broadcast i held) := by
  unfold State.broadcast
  split
  · refine h.goto ?_ rfl ?_ ?_ rfl rfl
    · rw [hpc]
      cases held <;> rfl
    · rw [hpc]
      cases held <;> rfl
    · intro hr
      rw [hpc] at hr
      cases held <;> cases hr
  next hb =>
    refine h.recall ?_
    have hnil := h.unbound (Bool.eq_false_iff.2 hb)
    intro j hj
    refine h.called j ?_
    simpa [State.call, hnil] using hj

theorem step_inv (a : Act ι) : Inv (step s a) := by
  cases a with
  | lock i timed =>
    simp only [step]
    split
    next hpc =>
      refine h.goto (by rw [hpc]; rfl) rfl (by rw [hpc]; rfl) ?_ rfl rfl
      intro hr
      rw [hpc] at hr
      cases hr
    · exact h
  | trylock i =>
    simp only [step]
    split
    next hpc =>
      exact h.acquire (by rw [hpc.1]; rfl) hpc.2 (.inr (by rw [hpc.1]; rfl)) id
    · exact h
  | unlock i =>
    simp only [step]
    split
    next hpc =>
      exact h.release (by rw [hpc]; rfl) ⟨rfl, rfl⟩ ⟨rfl, rfl⟩ rfl (by nofun) (by nofun)
    · exact h
  | wait i timed =>
    simp only [step]
    split
    next hpc =>
      refine h.pass (b := s.bound) (q := s.seq) (by rw [hpc]; rfl) rfl (by rw [hpc]; rfl) ?_ nofun
        id ?_ ?_
      · intro hr
        rw [hpc] at hr
        cases hr
      · intro j hj
        obtain rfl | hji := eq_or_ne j i
        · rw [update_self] at hj
          cases hj
        · rwa [update_of_ne hji] at hj
      · intro _
        exact update_self ..
    · exact h
  | signal i =>
    simp only [step]
    split
    next hpc =>
      exact signal_inv h hpc
    next hpc =>
      exact signal_inv h hpc
    · exact h
  | broadcast i =>
    simp only [step]
    split
    next hpc =>
      exact broadcast_inv h hpc
    next hpc =>
      exact broadcast_inv h hpc
    · exact h
  | go i => exact goStep_inv h
  | expire i => exact expireStep_inv h
  | interrupt i => exact interruptStep_inv h

omit [DecidableEq ι] in
theorem Inv.served (hi : s.called i = true) : Served s i := by
  obtain ⟨hc, -⟩ := h.called i hi
  refine ⟨hc, ?_⟩
  by_cases hb : (s.pc i).blocked = false
  · exact .inl hb
  · have hm : i ∈ s.mutexQueue := by
      have hp := h.placed i
      unfold Placed at hp
      split at hp
      · exact hp.1
      · exact hp.resolve_left hc
      next hpark hwait =>
        refine absurd ?_ hb
        cases hpc : s.pc i with
        | parked timed => exact (hpark timed hpc).elim
        | awaiting timed => exact (hwait timed hpc).elim
        | _ => rfl
    refine .inr ⟨hm, ?_⟩
    rcases h.rescue (ne_nil_of_mem hm) with hct | hr
    · have hl := h.marked hct
      exact .inl ⟨hl, hct, h.locked.1 hl⟩
    · exact .inr hr

end

end Steps

/-- **Broadcast strands no waiter.** In every run, who was queued on the condition when a broadcast
took effect is not queued there any more; it runs, or is queued on the mutex while the mutex is
marked contended and held or somebody is going to mark or to wake. -/
theorem run_served (acts : List (Act ι)) (i : ι)
    (h : (runFrom step (start ι) acts).called i = true) :
    Served (runFrom step (start ι) acts) i := by
  have hkeeps : Keeps (step (ι := ι)) Inv := fun s a hs => step_inv hs a
  have hinv := hkeeps.run start_inv acts
  exact hinv.served h

/-- Thread `i` locks the free mutex and waits. -/
def waitActs (i : Fin 4) : List (Act (Fin 4)) :=
  [.lock i false, .go i, .wait i true, .go i, .go i, .go i]

local instance neZero4 : NeZero 4 := ⟨by decide⟩

/-- Three threads wait, and thread 3 broadcasts without the mutex. -/
def broadcastActs : List (Act (Fin 4)) :=
  waitActs 0 ++ waitActs 1 ++ waitActs 2 ++ [.broadcast 3, .go 3, .go 3]

/-- Thread 2 is moved to the mutex, whose word says nothing about it; thread 0 has been woken. -/
theorem run_served_broadcast :
    2 ∈ (runFrom step (start (Fin 4)) broadcastActs).mutexQueue ∧
      (runFrom step (start (Fin 4)) broadcastActs).contended = false ∧
        Served (runFrom step (start (Fin 4)) broadcastActs) 2 := by
  refine ⟨by decide, by decide, ?_⟩
  exact run_served broadcastActs 2 (by decide)

end Eabase.Fiber.ConditionVariable
