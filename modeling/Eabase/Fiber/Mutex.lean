import Mathlib.Data.List.Nodup
import Eabase.Lib.Machine

/-!
# The fiber mutex

`fiber/mutex.cc`: the word of a `fiber_mutex_t` is a `locked` byte and a
`contended` byte. `trylock` and the fast path of `lock` exchange the locked
byte only, everybody else exchanges the whole word for `FIBER_MUTEX_CONTENDED`
and waits on the butex while it stays so; `unlock` clears the whole word and
wakes one waiter when the word it found was not just `FIBER_MUTEX_LOCKED`.

The butex is a queue of waiters: `butex_wait` compares the word and links the
caller in one step, `butex_wake` unlinks the oldest waiter in one step and
resumes it in a later one. A fiber is resumed by being made runnable. A
pthread is resumed through its `sig`, which `wait_pthread` (`fiber/butex.cc`)
looks at when its futex wait has returned; there a wake and a timeout can meet,
and what the waiter then returns decides whether the wake is lost.
-/

namespace Eabase.Fiber.Mutex

open Lib Function

variable {ι : Type*} [DecidableEq ι]

/-- Where a thread stands in the functions of the mutex. `timed` tells `timedlock` from
`lock`. In `contend` the flag says that the thread was woken by an `unlock`. In `wait`,
`armed` says that `wait_pthread` still has its deadline. -/
inductive Pc (ι : Type*) where
  | idle
  | fast (timed : Bool)
  | contend (timed woken : Bool)
  | enter (timed : Bool)
  | wait (timed armed : Bool)
  | erase
  | recheck
  | holding
  | wake
  | waking (w : ι)
  deriving DecidableEq

/-- The mutex, the waiters of its butex from the oldest on, and the threads. `sig` is the
`ButexPthreadWaiter::sig` of a waiting pthread. -/
structure State (ι : Type*) where
  locked : Bool
  contended : Bool
  waiters : List ι
  sig : ι → Bool
  pc : ι → Pc ι

/-- `fiber_mutex_init`. -/
def init (ι : Type*) : State ι :=
  { locked := false, contended := false, waiters := [], sig := fun _ => false, pc := fun _ => .idle }

/-- Thread `i` goes to `p`. -/
def State.goto (s : State ι) (i : ι) (p : Pc ι) : State ι :=
  { s with pc := update s.pc i p }

/-- One label of a run. `expire` is the deadline of a timed wait passing: for a fiber the timer
calls `erase_from_butex`, for a pthread the futex wait returns `ETIMEDOUT` (or is not begun, and
then `sig` is not looked at). `interrupt` is `TaskGroup::interrupt` on a waiting fiber. -/
inductive Act (ι : Type*) where
  | lock (i : ι)
  | timedlock (i : ι)
  | trylock (i : ι)
  | unlock (i : ι)
  | go (i : ι)
  | expire (i : ι) (looked : Bool)
  | interrupt (i : ι)

section

variable (isFiber : ι → Bool) (s : State ι)

def goStep (i : ι) : State ι :=
  match s.pc i with
  | .fast timed =>
    if s.locked then s.goto i (.contend timed false)
    else { s with locked := true }.goto i .holding
  | .contend timed _ =>
    { s with locked := true, contended := true }.goto i
      (if s.locked then .enter timed else .holding)
  | .enter timed =>
    if s.locked ∧ s.contended then
      { s with waiters := s.waiters ++ [i], sig := update s.sig i false }.goto i
        (.wait timed timed)
    else s.goto i (.contend timed false)
  | .wait timed _ =>
    -- `wait_pthread`: the futex wait returned and `sig` has changed
    if ¬ isFiber i ∧ s.sig i then s.goto i (.contend timed true) else s
  | .erase =>
    if i ∈ s.waiters then { s with waiters := s.waiters.erase i }.goto i .idle
    else s.goto i .recheck
  | .recheck =>
    if s.sig i then s.goto i .idle else s.goto i (.wait true false)
  | .wake =>
    match s.waiters with
    | [] => s.goto i .idle
    | w :: ws => { s with waiters := ws }.goto i (.waking w)
  | .waking w =>
    if isFiber w then
      match s.pc w with
      | .wait timed _ => (s.goto i .idle).goto w (.contend timed true)
      | _ => s.goto i .idle
    else { s with sig := update s.sig w true }.goto i .idle
  | .idle | .holding => s

/-- The deadline of `i` passes. -/
def expireStep (i : ι) (looked : Bool) : State ι :=
  match s.pc i with
  | .enter true => if isFiber i then s.goto i .idle else s
  | .wait true armed =>
    if isFiber i then
      if i ∈ s.waiters then { s with waiters := s.waiters.erase i }.goto i .idle else s
    else if armed then
      if looked ∧ s.sig i then s.goto i .idle else s.goto i .erase
    else s
  | _ => s

def step : Act ι → State ι
  | .lock i => if s.pc i = .idle then s.goto i (.fast false) else s
  | .timedlock i => if s.pc i = .idle then s.goto i (.fast true) else s
  | .trylock i =>
    if s.pc i = .idle then
      if s.locked then s else { s with locked := true }.goto i .holding
    else s
  | .unlock i =>
    if s.pc i = .holding then
      { s with locked := false, contended := false }.goto i
        (if s.locked ∧ ¬ s.contended then .idle else .wake)
    else s
  | .go i => goStep isFiber s i
  | .expire i looked => expireStep isFiber s i looked
  | .interrupt i =>
    match s.pc i with
    | .wait timed _ =>
      if isFiber i ∧ i ∈ s.waiters then
        { s with waiters := s.waiters.erase i }.goto i (.contend timed false)
      else s
    | _ => s

end

/-! ## The property -/

/-- At most one thread is between a successful lock and its unlock. -/
def Excludes (s : State ι) : Prop :=
  ∀ i j, s.pc i = .holding → s.pc j = .holding → i = j

/-- A thread that is still going to retry the lock or to wake a waiter: an unlocker inside
`butex_wake`, a waiter that was woken and has not returned to the word yet. -/
def Retries (s : State ι) (i : ι) : Prop :=
  match s.pc i with
  | .wake | .waking _ => True
  | .contend _ woken => woken = true
  | .wait _ _ => i ∉ s.waiters ∧ s.sig i = true
  | _ => False

/-- Nobody is queued on a free mutex without somebody who will retry. -/
def Remembers (s : State ι) : Prop :=
  s.locked = false → s.waiters ≠ [] → ∃ i, Retries s i

/-- Inside `wait_pthread` after the expiry. -/
def Pc.expired : Pc ι → Bool
  | .erase | .recheck => true
  | _ => false

def Pc.target : Pc ι → Option ι
  | .waking w => some w
  | _ => none

/-- The condition on a step under which no wake is lost: the wait of a pthread does not
expire when its `sig` is already set, and `wakeup_pthread` does not set the `sig` of a waiter
that stands between its expiry and its look at `sig`. -/
def Heeds (isFiber : ι → Bool) (s : State ι) : Act ι → Prop
  | .expire i _ => isFiber i = false → s.pc i = .wait true true → s.sig i = false
  | .go i => ∀ w ∈ (s.pc i).target, (s.pc w).expired = false
  | _ => True

instance (isFiber : ι → Bool) (s : State ι) : ∀ a, Decidable (Heeds isFiber s a)
  | .expire i _ =>
    inferInstanceAs (Decidable (isFiber i = false → s.pc i = .wait true true → s.sig i = false))
  | .go i => inferInstanceAs (Decidable (∀ w ∈ (s.pc i).target, (s.pc w).expired = false))
  | .lock _ | .timedlock _ | .trylock _ | .unlock _ | .interrupt _ => isTrue trivial

/-! ## The invariant -/

/-- Inside `butex_wait`, possibly linked. -/
def Pc.waits : Pc ι → Bool
  | .wait _ _ | .erase | .recheck => true
  | _ => false

/-- The invariant. `rescue` is what carries `Remembers`: whenever somebody is linked, the
word says so or somebody is going to retry. -/
structure Inv (isFiber : ι → Bool) (s : State ι) : Prop where
  excludes : Excludes s
  held : ∀ i, s.pc i = .holding → s.locked = true
  marked : s.contended = true → s.locked = true
  nodup : s.waiters.Nodup
  linked : ∀ i ∈ s.waiters, (s.pc i).waits = true ∧ s.pc i ≠ .recheck ∧ s.sig i = false
  waking : ∀ i w, s.pc i = .waking w →
    w ∉ s.waiters ∧ (s.pc w).waits = true ∧ s.sig w = false
  one : ∀ i j w, s.pc i = .waking w → s.pc j = .waking w → i = j
  expired : ∀ i, (s.pc i).expired = true → s.sig i = false ∧ isFiber i = false
  rescue : s.waiters ≠ [] → (s.locked = true ∧ s.contended = true) ∨ ∃ i, Retries s i

omit [DecidableEq ι] in
theorem init_inv (isFiber : ι → Bool) : Inv isFiber (init ι) where
  excludes := by intro i j hi; cases hi
  held := by intro i hi; cases hi
  marked := by intro h; cases h
  nodup := List.nodup_nil
  linked := by intro i hi; cases hi
  waking := by intro i w hi; cases hi
  one := by intro i j w hi; cases hi
  expired := by intro i hi; cases hi
  rescue := by intro h; exact absurd rfl h

section Steps

variable {isFiber : ι → Bool} {s : State ι} {i : ι} {p : Pc ι} {w : ι} {j : ι} {timed : Bool}

@[simp] theorem goto_self : (s.goto i p).pc i = p := update_self ..

theorem goto_ne (h : j ≠ i) : (s.goto i p).pc j = s.pc j := update_of_ne h ..

theorem goto_other {q : Pc ι} (hj : (s.goto i p).pc j = q) (hp : p ≠ q) : j ≠ i ∧ s.pc j = q := by
  have hji : j ≠ i := by
    rintro rfl
    exact hp (goto_self.symm.trans hj)
  exact ⟨hji, (goto_ne hji).symm.trans hj⟩

section

omit [DecidableEq ι]

/-- A thread outside `butex_wait` is neither linked nor being woken. -/
theorem Inv.free (h : Inv isFiber s) (hi : (s.pc i).waits = false) :
    i ∉ s.waiters ∧ ∀ j, s.pc j ≠ .waking i := by
  constructor
  · intro hmem
    have := (h.linked i hmem).1
    rw [hi] at this
    cases this
  · intro j hj
    have := (h.waking j i hj).2.1
    rw [hi] at this
    cases this

/-- A thread whose `sig` is set has been unlinked and signalled. -/
theorem Inv.free_of_sig (h : Inv isFiber s) (hi : s.sig i = true) :
    i ∉ s.waiters ∧ ∀ j, s.pc j ≠ .waking i := by
  constructor
  · intro hmem
    rw [(h.linked i hmem).2.2] at hi
    cases hi
  · intro j hj
    rw [(h.waking j i hj).2.2] at hi
    cases hi

/-- Whoever retries keeps doing so while another thread moves and it stays unlinked. -/
theorem Retries.frame {s' : State ι} (h : Retries s j) (hpc : s'.pc j = s.pc j)
    (hsig : s'.sig j = s.sig j) (hw : ∀ k ∈ s'.waiters, k ∈ s.waiters ∨ k ≠ j) : Retries s' j := by
  unfold Retries at h ⊢
  rw [hpc]
  split at h
  case h_4 =>
    refine ⟨fun hmem => ?_, hsig ▸ h.2⟩
    rcases hw j hmem with hold | hne
    · exact h.1 hold
    · exact hne rfl
  all_goals exact h

end

section

variable (h : Inv isFiber s)
include h

omit [DecidableEq ι] in
theorem Inv.excludes_of {s' : State ι} (hholding : ∀ j, s'.pc j = .holding → s.pc j = .holding) :
    Excludes s' :=
  fun j k hj hk => h.excludes j k (hholding j hj) (hholding k hk)

/-- **Moves outside `butex_wait`.** A thread that is neither linked nor being woken goes
on to another place outside `butex_wait`, possibly changing the word. -/
theorem Inv.move {l c : Bool} (hfree : i ∉ s.waiters ∧ ∀ j, s.pc j ≠ .waking i)
    (hp : p.waits = false ∧ ∀ w, p ≠ .waking w)
    (hothers : ∀ j, j ≠ i → s.pc j = .holding → l = true ∧ p ≠ .holding)
    (hmine : p = .holding → l = true) (hmark : c = true → l = true)
    (hrescue : s.waiters ≠ [] → (l = true ∧ c = true) ∨ (p = .wake ∨ ∃ t, p = .contend t true) ∨
      ∃ j, j ≠ i ∧ Retries s j) :
    Inv isFiber ({ s with locked := l, contended := c }.goto i p) := by
  have hne : ∀ j, j ≠ i → ({ s with locked := l, contended := c }.goto i p).pc j = s.pc j :=
    fun j hj => goto_ne hj
  have hself : ({ s with locked := l, contended := c }.goto i p).pc i = p := goto_self
  refine ⟨?_, ?_, hmark, h.nodup, ?_, ?_, ?_, ?_, ?_⟩
  · intro j k hj hk
    obtain rfl | hji := eq_or_ne j i
    · obtain rfl | hki := eq_or_ne k j
      · rfl
      · rw [hself] at hj
        rw [hne k hki] at hk
        exact absurd hj (hothers k hki hk).2
    · obtain rfl | hki := eq_or_ne k i
      · rw [hself] at hk
        rw [hne j hji] at hj
        exact absurd hk (hothers j hji hj).2
      · rw [hne j hji] at hj
        rw [hne k hki] at hk
        exact h.excludes j k hj hk
  · intro j hj
    obtain rfl | hji := eq_or_ne j i
    · rw [hself] at hj
      exact hmine hj
    · rw [hne j hji] at hj
      exact (hothers j hji hj).1
  · intro j hj
    have hji : j ≠ i := fun heq => hfree.1 (heq ▸ hj)
    rw [hne j hji]
    exact h.linked j hj
  · intro j w hj
    obtain ⟨-, hj⟩ := goto_other hj (hp.2 w)
    have hwi : w ≠ i := fun heq => hfree.2 j (heq ▸ hj)
    rw [hne w hwi]
    exact h.waking j w hj
  · intro j k w hj hk
    exact h.one j k w (goto_other hj (hp.2 w)).2 (goto_other hk (hp.2 w)).2
  · intro j hj
    obtain rfl | hji := eq_or_ne j i
    · rw [hself] at hj
      have hw : p.waits = true := by cases p <;> first | rfl | cases hj
      rw [hp.1] at hw
      cases hw
    · rw [hne j hji] at hj
      exact h.expired j hj
  · intro hw
    rcases hrescue hw with hlc | hnew | ⟨j, hji, hj⟩
    · exact .inl hlc
    · refine .inr ⟨i, ?_⟩
      unfold Retries
      rw [hself]
      rcases hnew with rfl | ⟨t, rfl⟩
      · trivial
      · rfl
    · exact .inr ⟨j, hj.frame (hne j hji) rfl fun k hk => .inl hk⟩

theorem Inv.unlink (hi : i ∈ s.waiters)
    (hp : p = .idle ∨ ∃ t, p = .contend t false) :
    Inv isFiber ({ s with waiters := s.waiters.erase i }.goto i p) := by
  have hne : ∀ j, j ≠ i → ({ s with waiters := s.waiters.erase i }.goto i p).pc j = s.pc j :=
    fun j hj => goto_ne hj
  have hself : ({ s with waiters := s.waiters.erase i }.goto i p).pc i = p := goto_self
  have hplain : p.waits = false ∧ p ≠ .holding ∧ (∀ w, p ≠ .waking w) ∧ p.expired = false := by
    rcases hp with rfl | ⟨t, rfl⟩ <;> simp [Pc.waits, Pc.expired]
  obtain ⟨-, hphold, hpwaking, hpexp⟩ := hplain
  obtain ⟨hwaits, -, hsig⟩ := h.linked i hi
  have hmem : ∀ j, j ∈ s.waiters.erase i ↔ j ≠ i ∧ j ∈ s.waiters := fun j => h.nodup.mem_erase_iff
  refine ⟨?_, ?_, h.marked, h.nodup.erase i, ?_, ?_, ?_, ?_, ?_⟩
  · exact h.excludes_of fun j hj => (goto_other hj hphold).2
  · intro j hj
    exact h.held j (goto_other hj hphold).2
  · intro j hj
    obtain ⟨hji, hj⟩ := (hmem j).1 hj
    rw [hne j hji]
    exact h.linked j hj
  · intro j w hj
    obtain ⟨-, hj⟩ := goto_other hj (hpwaking w)
    obtain ⟨hw, hww⟩ := h.waking j w hj
    have hwi : w ≠ i := fun heq => hw (heq ▸ hi)
    rw [hne w hwi]
    exact ⟨fun hmem' => hw ((hmem w).1 hmem').2, hww⟩
  · intro j k w hj hk
    exact h.one j k w (goto_other hj (hpwaking w)).2 (goto_other hk (hpwaking w)).2
  · intro j hj
    obtain rfl | hji := eq_or_ne j i
    · rw [hself, hpexp] at hj
      cases hj
    · rw [hne j hji] at hj
      exact h.expired j hj
  · intro hw
    have hne' : s.waiters ≠ [] := List.ne_nil_of_mem hi
    rcases h.rescue hne' with hlc | ⟨j, hj⟩
    · exact .inl hlc
    · have hji : j ≠ i := by
        rintro rfl
        unfold Retries at hj
        split at hj
        case h_4 => exact hj.1 hi
        all_goals simp_all [Pc.waits]
      exact .inr ⟨j, hj.frame (hne j hji) rfl fun k hk => .inl ((hmem k).1 hk).2⟩

/-- A pthread whose `sig` is not set goes on inside `wait_pthread`. -/
theorem Inv.moveWithin (hi : (s.pc i).waits = true) (hp : p.waits = true)
    (hsig : s.sig i = false) (hkind : isFiber i = false) (hlink : i ∈ s.waiters → p ≠ .recheck) :
    Inv isFiber (s.goto i p) := by
  have hne : ∀ j, j ≠ i → (s.goto i p).pc j = s.pc j := fun j hj => goto_ne hj
  have hself : (s.goto i p).pc i = p := goto_self
  have hphold : p ≠ .holding := by rintro rfl; cases hp
  have hpwaking : ∀ w, p ≠ .waking w := by rintro w rfl; cases hp
  have hmine : ¬ Retries s i := by
    intro hr
    unfold Retries at hr
    split at hr
    case h_4 =>
      rw [hsig] at hr
      cases hr.2
    all_goals simp_all [Pc.waits]
  refine ⟨?_, ?_, h.marked, h.nodup, ?_, ?_, ?_, ?_, ?_⟩
  · exact h.excludes_of fun j hj => (goto_other hj hphold).2
  · intro j hj
    exact h.held j (goto_other hj hphold).2
  · intro j hj
    obtain rfl | hji := eq_or_ne j i
    · rw [hself]
      exact ⟨hp, hlink hj, hsig⟩
    · rw [hne j hji]
      exact h.linked j hj
  · intro j w hj
    obtain ⟨-, hj⟩ := goto_other hj (hpwaking w)
    obtain ⟨hw, hww, hws⟩ := h.waking j w hj
    refine ⟨hw, ?_, hws⟩
    obtain rfl | hwi := eq_or_ne w i
    · rw [hself]
      exact hp
    · rw [hne w hwi]
      exact hww
  · intro j k w hj hk
    exact h.one j k w (goto_other hj (hpwaking w)).2 (goto_other hk (hpwaking w)).2
  · intro j hj
    obtain rfl | hji := eq_or_ne j i
    · exact ⟨hsig, hkind⟩
    · rw [hne j hji] at hj
      exact h.expired j hj
  · intro hw
    rcases h.rescue hw with hlc | ⟨j, hj⟩
    · exact .inl hlc
    · have hji : j ≠ i := fun heq => hmine (heq ▸ hj)
      exact .inr ⟨j, hj.frame (hne j hji) rfl fun k hk => .inl hk⟩

/-- `butex_wait` finds the word contended and links the caller. -/
theorem Inv.link (hi : s.pc i = .enter timed)
    (hword : s.locked = true ∧ s.contended = true) :
    Inv isFiber ({ s with waiters := s.waiters ++ [i], sig := update s.sig i false }.goto i
      (.wait timed timed)) := by
  set s' := ({ s with waiters := s.waiters ++ [i], sig := update s.sig i false }.goto i
    (.wait timed timed))
  obtain ⟨hnot, hnowaking⟩ := h.free (i := i) (by rw [hi]; rfl)
  have hne : ∀ j, j ≠ i → s'.pc j = s.pc j := fun j hj => goto_ne hj
  have hself : s'.pc i = .wait timed timed := goto_self
  have hsig : ∀ j, j ≠ i → s'.sig j = s.sig j := fun j hj => update_of_ne hj ..
  have hsigself : s'.sig i = false := update_self ..
  have hmem : ∀ j, j ∈ s'.waiters ↔ j ∈ s.waiters ∨ j = i := by
    intro j
    change j ∈ s.waiters ++ [i] ↔ _
    rw [List.mem_append, List.mem_singleton]
  refine ⟨?_, ?_, h.marked, ?_, ?_, ?_, ?_, ?_, fun _ => .inl hword⟩
  · exact h.excludes_of fun j hj => (goto_other hj (by simp)).2
  · intro j hj
    exact h.held j (goto_other hj (by simp)).2
  · refine List.nodup_append.2 ⟨h.nodup, List.nodup_singleton i, ?_⟩
    intro a ha b hb heq
    rw [List.mem_singleton] at hb
    exact hnot (hb ▸ heq ▸ ha)
  · intro j hj
    obtain rfl | hji := eq_or_ne j i
    · rw [hself]
      exact ⟨rfl, by simp, hsigself⟩
    · rw [hne j hji, hsig j hji]
      exact h.linked j (((hmem j).1 hj).resolve_right hji)
  · intro j w hj
    obtain ⟨-, hj⟩ := goto_other hj (by simp)
    have hwi : w ≠ i := fun heq => hnowaking j (heq ▸ hj)
    obtain ⟨hw, hww⟩ := h.waking j w hj
    rw [hne w hwi, hsig w hwi]
    exact ⟨fun hmem' => ((hmem w).1 hmem').elim hw hwi, hww⟩
  · intro j k w hj hk
    exact h.one j k w (goto_other hj (by simp)).2 (goto_other hk (by simp)).2
  · intro j hj
    have hji : j ≠ i := by rintro rfl; rw [hself] at hj; cases hj
    rw [hne j hji] at hj
    rw [hsig j hji]
    exact h.expired j hj

theorem Inv.dequeue {ws : List ι} (hi : s.pc i = .wake)
    (hw : s.waiters = w :: ws) :
    Inv isFiber ({ s with waiters := ws }.goto i (.waking w)) := by
  set s' := ({ s with waiters := ws }.goto i (.waking w))
  have hne : ∀ j, j ≠ i → s'.pc j = s.pc j := fun j hj => goto_ne hj
  have hself : s'.pc i = .waking w := goto_self
  have hnd := h.nodup
  rw [hw, List.nodup_cons] at hnd
  have hsub : ∀ j, j ∈ ws → j ∈ s.waiters := fun j hj => hw ▸ List.mem_cons_of_mem w hj
  have hwmem : w ∈ s.waiters := hw ▸ List.mem_cons_self
  obtain ⟨hnot, hnowaking⟩ := h.free (i := i) (by rw [hi]; rfl)
  have hwi : w ≠ i := fun heq => hnot (heq ▸ hwmem)
  have hfresh : ∀ j, s.pc j ≠ .waking w := fun j hj => (h.waking j w hj).1 hwmem
  refine ⟨?_, ?_, h.marked, hnd.2, ?_, ?_, ?_, ?_, ?_⟩
  · exact h.excludes_of fun j hj => (goto_other hj (by simp)).2
  · intro j hj
    exact h.held j (goto_other hj (by simp)).2
  · intro j hj
    have hji : j ≠ i := fun heq => hnot (heq ▸ hsub j hj)
    rw [hne j hji]
    exact h.linked j (hsub j hj)
  · intro j v hj
    obtain rfl | hji := eq_or_ne j i
    · rw [hself] at hj
      cases hj
      obtain ⟨hww, -, hws⟩ := h.linked w hwmem
      rw [hne w hwi]
      exact ⟨hnd.1, hww, hws⟩
    · rw [hne j hji] at hj
      obtain ⟨hv, hvw⟩ := h.waking j v hj
      have hvi : v ≠ i := fun heq => hnowaking j (heq ▸ hj)
      rw [hne v hvi]
      exact ⟨fun hmem => hv (hsub v hmem), hvw⟩
  · intro j k v hj hk
    obtain rfl | hji := eq_or_ne j i
    · obtain rfl | hki := eq_or_ne k j
      · rfl
      · rw [hself] at hj
        cases hj
        rw [hne k hki] at hk
        exact absurd hk (hfresh k)
    · obtain rfl | hki := eq_or_ne k i
      · rw [hself] at hk
        cases hk
        rw [hne j hji] at hj
        exact absurd hj (hfresh j)
      · rw [hne j hji] at hj
        rw [hne k hki] at hk
        exact h.one j k v hj hk
  · intro j hj
    have hji : j ≠ i := by rintro rfl; rw [hself] at hj; cases hj
    rw [hne j hji] at hj
    exact h.expired j hj
  · intro _
    refine .inr ⟨i, ?_⟩
    unfold Retries
    rw [hself]
    trivial

theorem Inv.resumeFiber {armed : Bool}
    (hi : s.pc i = .waking w) (hw : s.pc w = .wait timed armed) :
    Inv isFiber ((s.goto i .idle).goto w (.contend timed true)) := by
  set s' := ((s.goto i .idle).goto w (.contend timed true))
  have hwi : w ≠ i := by rintro rfl; rw [hi] at hw; cases hw
  have hself : s'.pc w = .contend timed true := goto_self
  have hselfi : s'.pc i = .idle := (goto_ne hwi.symm).trans goto_self
  have hne : ∀ j, j ≠ i → j ≠ w → s'.pc j = s.pc j :=
    fun j hji hjw => (goto_ne hjw).trans (goto_ne hji)
  have hother : ∀ {j q}, s'.pc j = q → .contend timed true ≠ q → .idle ≠ q → j ≠ i ∧ s.pc j = q :=
    fun hj hq hq' => goto_other (goto_other hj hq).2 hq'
  obtain ⟨hnotw, -, -⟩ := h.waking i w hi
  obtain ⟨hnoti, hnowaking⟩ := h.free (i := i) (by rw [hi]; rfl)
  refine ⟨?_, ?_, h.marked, h.nodup, ?_, ?_, ?_, ?_, ?_⟩
  · exact h.excludes_of fun j hj => (hother hj (by simp) (by simp)).2
  · intro j hj
    exact h.held j (hother hj (by simp) (by simp)).2
  · intro j hj
    have hji : j ≠ i := fun heq => hnoti (heq ▸ hj)
    have hjw : j ≠ w := fun heq => hnotw (heq ▸ hj)
    rw [hne j hji hjw]
    exact h.linked j hj
  · intro j v hj
    obtain ⟨hji, hj⟩ := hother hj (by simp) (by simp)
    have hvi : v ≠ i := fun heq => hnowaking j (heq ▸ hj)
    have hvw : v ≠ w := fun heq => hji (h.one j i w (heq ▸ hj) hi)
    rw [hne v hvi hvw]
    exact h.waking j v hj
  · intro j k v hj hk
    exact h.one j k v (hother hj (by simp) (by simp)).2 (hother hk (by simp) (by simp)).2
  · intro j hj
    have hji : j ≠ i := by rintro rfl; rw [hselfi] at hj; cases hj
    have hjw : j ≠ w := by rintro rfl; rw [hself] at hj; cases hj
    rw [hne j hji hjw] at hj
    exact h.expired j hj
  · intro _
    refine .inr ⟨w, ?_⟩
    unfold Retries
    rw [hself]

/-- `wakeup_pthread` sets the `sig` of a pthread that is still waiting. -/
theorem Inv.signalPthread (hi : s.pc i = .waking w)
    (hw : (s.pc w).expired = false) :
    Inv isFiber ({ s with sig := update s.sig w true }.goto i .idle) := by
  set s' := ({ s with sig := update s.sig w true }.goto i .idle)
  obtain ⟨hnotw, hww, -⟩ := h.waking i w hi
  have hwi : w ≠ i := by rintro rfl; rw [hi] at hww; cases hww
  obtain ⟨timed, armed, hwait⟩ : ∃ timed armed, s.pc w = .wait timed armed := by
    cases hpc : s.pc w with
    | wait timed armed => exact ⟨timed, armed, rfl⟩
    | erase => rw [hpc] at hw; cases hw
    | recheck => rw [hpc] at hw; cases hw
    | _ => rw [hpc] at hww; cases hww
  have hself : s'.pc i = .idle := goto_self
  have hne : ∀ j, j ≠ i → s'.pc j = s.pc j := fun j hj => goto_ne hj
  have hsig : ∀ j, j ≠ w → s'.sig j = s.sig j := fun j hj => update_of_ne hj ..
  obtain ⟨hnoti, hnowaking⟩ := h.free (i := i) (by rw [hi]; rfl)
  refine ⟨?_, ?_, h.marked, h.nodup, ?_, ?_, ?_, ?_, ?_⟩
  · exact h.excludes_of fun j hj => (goto_other hj (by simp)).2
  · intro j hj
    exact h.held j (goto_other hj (by simp)).2
  · intro j hj
    have hji : j ≠ i := fun heq => hnoti (heq ▸ hj)
    have hjw : j ≠ w := fun heq => hnotw (heq ▸ hj)
    rw [hne j hji, hsig j hjw]
    exact h.linked j hj
  · intro j v hj
    obtain ⟨hji, hj⟩ := goto_other hj (by simp)
    have hvi : v ≠ i := fun heq => hnowaking j (heq ▸ hj)
    have hvw : v ≠ w := fun heq => hji (h.one j i w (heq ▸ hj) hi)
    rw [hne v hvi, hsig v hvw]
    exact h.waking j v hj
  · intro j k v hj hk
    exact h.one j k v (goto_other hj (by simp)).2 (goto_other hk (by simp)).2
  · intro j hj
    have hji : j ≠ i := by rintro rfl; rw [hself] at hj; cases hj
    have hjw : j ≠ w := by
      rintro rfl
      rw [hne j hji, hwait] at hj
      cases hj
    rw [hne j hji] at hj
    rw [hsig j hjw]
    exact h.expired j hj
  · intro _
    refine .inr ⟨w, ?_⟩
    unfold Retries
    rw [hne w hwi, hwait]
    exact ⟨hnotw, update_self ..⟩

omit [DecidableEq ι] in
theorem Inv.rescue_other (hi : ¬ Retries s i) (hw : s.waiters ≠ []) :
    (s.locked = true ∧ s.contended = true) ∨ ∃ j, j ≠ i ∧ Retries s j := by
  rcases h.rescue hw with hlc | ⟨j, hj⟩
  · exact .inl hlc
  · exact .inr ⟨j, fun heq => hi (heq ▸ hj), hj⟩

/-- A thread that is not in the mutex's hands moves and leaves the word alone. -/
theorem Inv.pass (hfree : i ∉ s.waiters ∧ ∀ j, s.pc j ≠ .waking i)
    (hp : p.waits = false ∧ (∀ w, p ≠ .waking w) ∧ p ≠ .holding)
    (hret : Retries s i → ∃ t, p = .contend t true) : Inv isFiber (s.goto i p) := by
  refine h.move (l := s.locked) (c := s.contended) hfree ⟨hp.1, hp.2.1⟩ ?_ ?_ h.marked ?_
  · intro j _ hj
    exact ⟨h.held j hj, hp.2.2⟩
  · intro heq
    exact absurd heq hp.2.2
  · intro hw
    by_cases hi : Retries s i
    · exact .inr (.inl (.inr (hret hi)))
    · rcases h.rescue_other hi hw with hlc | hj
      · exact .inl hlc
      · exact .inr (.inr hj)

theorem Inv.acquire (hpc : s.pc i = .idle ∨ ∃ t, s.pc i = .fast t)
    (hfree : s.locked = false) : Inv isFiber ({ s with locked := true }.goto i .holding) := by
  have hwaits : (s.pc i).waits = false := by
    rcases hpc with hpc | ⟨t, hpc⟩ <;> rw [hpc] <;> rfl
  have hret : ¬ Retries s i := by
    intro hr
    unfold Retries at hr
    rcases hpc with hpc | ⟨t, hpc⟩ <;> rw [hpc] at hr <;> exact hr
  refine h.move (l := true) (c := s.contended) (h.free hwaits) ⟨rfl, by simp⟩ ?_
    (fun _ => rfl) (fun _ => rfl) ?_
  · intro j _ hj
    rw [h.held j hj] at hfree
    cases hfree
  · intro hw
    rcases h.rescue_other hret hw with ⟨hl, -⟩ | hj
    · rw [hfree] at hl
      cases hl
    · exact .inr (.inr hj)

theorem goStep_inv (hc : Heeds isFiber s (.go i)) :
    Inv isFiber (goStep isFiber s i) := by
  unfold goStep
  split
  next timed hpc =>
    split
    · refine h.pass (h.free (by rw [hpc]; rfl)) ⟨rfl, by simp, by simp⟩ ?_
      intro hr
      simp [Retries, hpc] at hr
    next hfree =>
      exact h.acquire (.inr ⟨timed, hpc⟩) (Bool.eq_false_iff.2 hfree)
  next timed woken hpc =>
    refine h.move (h.free (by rw [hpc]; rfl)) ?_ ?_ (fun _ => rfl) (fun _ => rfl)
      (fun _ => .inl ⟨rfl, rfl⟩)
    · split <;> simp [Pc.waits]
    · intro j _ hj
      simp [h.held j hj]
  next timed hpc =>
    split
    next hword =>
      exact h.link hpc hword
    · refine h.pass (h.free (by rw [hpc]; rfl)) ⟨rfl, by simp, by simp⟩ ?_
      intro hr
      simp [Retries, hpc] at hr
  next timed armed hpc =>
    split
    next hsig =>
      exact h.pass (h.free_of_sig hsig.2) ⟨rfl, by simp, by simp⟩ fun _ => ⟨timed, rfl⟩
    · exact h
  next hpc =>
    split
    next hmem =>
      exact h.unlink hmem (.inl rfl)
    next hmem =>
      obtain ⟨hsig, hkind⟩ := h.expired i (by rw [hpc]; rfl)
      exact h.moveWithin (by rw [hpc]; rfl) rfl hsig hkind fun hm => absurd hm hmem
  next hpc =>
    obtain ⟨hsig, hkind⟩ := h.expired i (by rw [hpc]; rfl)
    rw [if_neg (by simp [hsig])]
    exact h.moveWithin (by rw [hpc]; rfl) rfl hsig hkind fun _ => by simp
  next hpc =>
    split
    next hnil =>
      refine h.move (l := s.locked) (c := s.contended) (h.free (by rw [hpc]; rfl))
        ⟨rfl, by simp⟩ ?_ (by simp) h.marked ?_
      · intro j _ hj
        exact ⟨h.held j hj, by simp⟩
      · intro hw
        exact absurd hnil hw
    next w ws hw =>
      exact h.dequeue hpc hw
  next w hpc =>
    split
    · obtain ⟨-, hww, -⟩ := h.waking i w hpc
      have hkind : (s.pc w).expired = true → False := by
        intro hexp
        have := (h.expired w hexp).2
        simp_all
      cases hw : s.pc w with
      | wait timed armed => exact h.resumeFiber hpc hw
      | erase => exact (hkind (by rw [hw]; rfl)).elim
      | recheck => exact (hkind (by rw [hw]; rfl)).elim
      | _ => rw [hw] at hww; cases hww
    · exact h.signalPthread hpc (hc w (by rw [hpc]; rfl))
  · exact h
  · exact h

theorem expireStep_inv {looked : Bool}
    (hc : Heeds isFiber s (.expire i looked)) :
    Inv isFiber (expireStep isFiber s i looked) := by
  unfold expireStep
  split
  next hpc =>
    split
    · refine h.pass (h.free (by rw [hpc]; rfl)) ⟨rfl, by simp, by simp⟩ ?_
      intro hr
      simp [Retries, hpc] at hr
    · exact h
  next armed hpc =>
    split
    · split
      next hmem =>
        exact h.unlink hmem (.inl rfl)
      · exact h
    next hkind =>
      split
      next harmed =>
        subst harmed
        have hkind := Bool.eq_false_iff.2 hkind
        have hsig := hc hkind hpc
        rw [if_neg (by simp [hsig])]
        exact h.moveWithin (by rw [hpc]; rfl) rfl hsig hkind fun _ => by simp
      · exact h
  · exact h

theorem step_inv {a : Act ι} (hc : Heeds isFiber s a) :
    Inv isFiber (step isFiber s a) := by
  cases a with
  | lock i =>
    simp only [step]
    split
    next hpc =>
      refine h.pass (h.free (by rw [hpc]; rfl)) ⟨rfl, by simp, by simp⟩ ?_
      intro hr
      simp [Retries, hpc] at hr
    · exact h
  | timedlock i =>
    simp only [step]
    split
    next hpc =>
      refine h.pass (h.free (by rw [hpc]; rfl)) ⟨rfl, by simp, by simp⟩ ?_
      intro hr
      simp [Retries, hpc] at hr
    · exact h
  | trylock i =>
    simp only [step]
    split
    next hpc =>
      split
      · exact h
      next hfree =>
        exact h.acquire (.inl hpc) (Bool.eq_false_iff.2 hfree)
    · exact h
  | unlock i =>
    simp only [step]
    split
    next hpc =>
      have hl := h.held i hpc
      have hret : ¬ Retries s i := by simp [Retries, hpc]
      refine h.move (h.free (by rw [hpc]; rfl)) ?_ ?_ ?_ (fun hf => hf) ?_
      · split <;> simp [Pc.waits]
      · intro j hj hold
        exact absurd (h.excludes j i hold hpc) hj
      · intro heq
        split at heq <;> cases heq
      · intro hw
        rcases h.rescue_other hret hw with ⟨-, hcont⟩ | hj
        · right
          left
          left
          rw [if_neg (by simp [hcont])]
        · exact .inr (.inr hj)
    · exact h
  | go i => exact goStep_inv h hc
  | expire i looked => exact expireStep_inv h hc
  | interrupt i =>
    simp only [step]
    split
    next timed armed hpc =>
      split
      next hmem =>
        exact h.unlink hmem.2 (.inr ⟨timed, rfl⟩)
      · exact h
    · exact h

end

end Steps

/-- **The mutex excludes and never forgets a waiter**, in every run in which no signalled
pthread gives up. -/
theorem run_remembers (isFiber : ι → Bool) (acts : List (Act ι))
    (hc : Along (step isFiber) (Heeds isFiber) (init ι) acts) :
    Excludes (runFrom (step isFiber) (init ι) acts) ∧
      Remembers (runFrom (step isFiber) (init ι) acts) := by
  have h : Inv isFiber _ := hc.run (fun s a hs ha => step_inv hs ha) (init_inv isFiber)
  refine ⟨h.excludes, ?_⟩
  intro hfree hw
  rcases h.rescue hw with ⟨hl, -⟩ | hj
  · rw [hfree] at hl
    cases hl
  · exact hj

local instance neZero3 : NeZero 3 := ⟨by decide⟩

/-- Thread 0 locks; thread 1 (a pthread, with a deadline) and thread 2 queue up; thread 0
unlocks and wakes thread 1. -/
def wakeActs : List (Act (Fin 3)) :=
  [.lock 0, .go 0, .timedlock 1, .go 1, .go 1, .go 1, .lock 2, .go 2, .go 2, .go 2,
    .unlock 0, .go 0, .go 0]

/-- The woken pthread takes the lock and hands it on. -/
theorem run_remembers_handover :
    Along (step fun _ => false) (Heeds fun _ => false) (init (Fin 3))
        (wakeActs ++ [.go 1, .go 1, .unlock 1, .go 1]) ∧
      Excludes (runFrom (step fun _ => false) (init (Fin 3))
        (wakeActs ++ [.go 1, .go 1, .unlock 1, .go 1])) ∧
      Remembers (runFrom (step fun _ => false) (init (Fin 3))
        (wakeActs ++ [.go 1, .go 1, .unlock 1, .go 1])) := by
  have hc : Along (step fun _ => false) (Heeds fun _ => false) (init (Fin 3))
      (wakeActs ++ [.go 1, .go 1, .unlock 1, .go 1]) := by decide
  exact ⟨hc, run_remembers _ _ hc⟩

/-- When the deadline of the woken pthread passes before it has looked at its `sig`, it
returns `ETIMEDOUT` with the wake, and thread 2 stays queued on a free mutex. -/
theorem timedout_swallows_wake :
    let s := runFrom (step fun _ => false) (init (Fin 3)) (wakeActs ++ [.expire 1 true])
    s.locked = false ∧ s.waiters = [2] ∧ ¬ Remembers s := by
  intro s
  have hidle : ∀ i, i ≠ 2 → s.pc i = .idle := by decide
  have hwait : s.pc 2 = .wait false false := by decide
  refine ⟨by decide, by decide, ?_⟩
  intro h
  obtain ⟨i, hi⟩ := h (by decide) (by decide)
  unfold Retries at hi
  obtain rfl | hne := eq_or_ne i 2
  · rw [hwait] at hi
    exact hi.1 (by decide)
  · rw [hidle i hne] at hi
    exact hi

end Eabase.Fiber.Mutex
