import Eabase.Lib.Machine

/-!
# Fiber ids

A fiber lives in a `TaskMeta` of the resource pool. Its id is the slot and the
version that `version_butex` had at its creation; the version is advanced when
the fiber has ended, so that the id is refused from then on, and it is what
joiners wait for.

A section under `version_lock` is one step, and so is each plain write on
reuse, which takes no lock. Joiners compare the version and link themselves
under the `waiter_lock` of the butex, in two steps, because the version is not
advanced under that lock. `exists`, `get_attr` and `is_stopped` only read.
-/

namespace Eabase.Fiber.TaskMeta

open Lib Function List

variable {κ : Type*} [DecidableEq κ]

/-- `fiber_t`: what `get_slot` and `get_version` give. -/
structure Tid where
  slot : ℕ
  version : ℕ
  deriving DecidableEq

/-- `make_tid`. -/
def Tid.value (t : Tid) : ℕ := t.version <<< 32 ||| t.slot

/-- `fiber_attr_t`. -/
structure Attr where
  stackType : ℕ
  flags : ℕ
  keytablePool : Option ℕ
  tag : ℤ
  deriving DecidableEq

/-- The fields of `TaskMeta` that other threads reach with a `tid`. -/
structure Meta where
  versionButex : ℕ
  stop : Bool
  interrupted : Bool
  currentWaiter : Option ℕ
  currentSleep : ℕ
  attr : Attr
  tid : Tid
  deriving DecidableEq

/-- The life of a slot: in the pool, being set up by a thread, with a fiber whose function runs, has
returned, whose local storage is destroyed as well; with the version advanced, with its joiners
woken. -/
inductive Phase (κ : Type*) where
  | free
  | starting (i : κ)
  | running
  | exited
  | cleaned
  | ended
  | woken
  deriving DecidableEq

/-- A slot of the pool, with the holder of the butex's `waiter_lock` and the joiners in its list. -/
structure Slot (κ : Type*) where
  data : Meta
  phase : Phase κ
  lock : Option κ
  joiners : List κ

/-- Where a thread stands: in `start_foreground`/`start_background`, in `join` (in front of the
loop's test, in front of the comparison of `butex_wait`, in front of the linking, linked), or in
`interrupt` with a waiter to put back. -/
inductive Pc where
  | idle
  | resetStop (p : ℕ) (attr : Attr)
  | resetInterrupted (p : ℕ) (attr : Attr)
  | publish (p : ℕ) (attr : Attr)
  | check (t : Tid)
  | enter (t : Tid)
  | linking (t : Tid)
  | queued (t : Tid)
  | putBack (t : Tid) (w : ℕ)
  deriving DecidableEq

/-- The pool and the threads. `created` holds the tids that were returned to creators, `joined`
those for which a `join` has returned 0. -/
structure State (κ : Type*) where
  slot : ℕ → Slot κ
  pc : κ → Pc
  created : List Tid
  joined : List Tid

/-- Every slot as `TaskMeta()` leaves it; the fields that it does not set are given by `m`. -/
def start (κ : Type*) (m : Meta) : State κ where
  slot _ :=
    { data := { m with versionButex := 1, currentWaiter := none, currentSleep := 0 }
      phase := .free, lock := none, joiners := [] }
  pc _ := .idle
  created := []
  joined := []

/-- One label of a run. `run p` moves the worker that runs the fiber in slot `p`; `block` is what
the fiber's own blocking calls write, whatever that is; `leave` is a `butex_wait` of a joiner that
ends because the joiner was interrupted. -/
inductive Act (κ : Type*) where
  | create (i : κ) (p : ℕ) (attr : Attr)
  | join (i : κ) (t : Tid)
  | setStopped (t : Tid)
  | interrupt (i : κ) (t : Tid)
  | go (i : κ)
  | leave (i : κ)
  | run (p : ℕ)
  | block (p : ℕ) (waiter : Option ℕ) (sleep : ℕ) (interrupted : Bool)

/-- Thread `i` goes to `c`. -/
def State.goto (s : State κ) (i : κ) (c : Pc) : State κ :=
  { s with pc := update s.pc i c }

/-- Slot `p` is left as `v`. -/
def State.setSlot (s : State κ) (p : ℕ) (v : Slot κ) : State κ :=
  { s with slot := update s.slot p v }

/-- The version part of a section: `f` is applied if the version is still that of `t`. -/
def State.guarded (s : State κ) (t : Tid) (f : Meta → Meta) : State κ :=
  if t.version = (s.slot t.slot).data.versionButex then
    s.setSlot t.slot { s.slot t.slot with data := f (s.slot t.slot).data }
  else s

/-- `++*version_butex`, and once more if that gives 0. -/
def nextVersion (v : ℕ) : ℕ :=
  if (v + 1) % 2 ^ 32 = 0 then 1 else (v + 1) % 2 ^ 32

def Pc.wake : Pc → Pc
  | .queued t => .check t
  | c => c

section

variable (s : State κ)

/-- The next step of the worker that runs the fiber in slot `p`, as in `task_runner` and
`_release_last_context`. -/
def runStep (p : ℕ) : State κ :=
  let v := s.slot p
  match v.phase with
  | .running => s.setSlot p { v with phase := .exited }
  | .exited => s.setSlot p { v with phase := .cleaned }
  | .cleaned =>
    s.setSlot p { v with
      data := { v.data with versionButex := nextVersion v.data.versionButex }
      phase := .ended }
  | .ended =>
    -- `butex_wake_except(version_butex, 0)`
    if v.lock = none then
      { s.setSlot p { v with joiners := [], phase := .woken } with
        pc := fun i => if i ∈ v.joiners then (s.pc i).wake else s.pc i }
    else s
  | .woken => s.setSlot p { v with phase := .free }
  | .free | .starting _ => s

/-- The next step of thread `i`. -/
def goStep (i : κ) : State κ :=
  match s.pc i with
  | .idle | .queued _ => s
  | .resetStop p attr =>
    let v := s.slot p
    (s.setSlot p { v with data := { v.data with stop := false } }).goto i (.resetInterrupted p attr)
  | .resetInterrupted p attr =>
    let v := s.slot p
    (s.setSlot p { v with data := { v.data with interrupted := false } }).goto i (.publish p attr)
  | .publish p attr =>
    let v := s.slot p
    let t : Tid := ⟨p, v.data.versionButex⟩
    { s.setSlot p { v with data := { v.data with attr, tid := t }, phase := .running } with
      created := t :: s.created }.goto i .idle
  | .check t =>
    if (s.slot t.slot).data.versionButex = t.version then s.goto i (.enter t)
    else { s with joined := t :: s.joined }.goto i .idle
  | .enter t =>
    let v := s.slot t.slot
    if v.lock = none then
      if v.data.versionButex = t.version then
        (s.setSlot t.slot { v with lock := some i }).goto i (.linking t)
      else s.goto i (.check t)
    else s
  | .linking t =>
    let v := s.slot t.slot
    (s.setSlot t.slot { v with joiners := v.joiners ++ [i], lock := none }).goto i (.queued t)
  | .putBack t w =>
    -- `set_butex_waiter`
    (s.guarded t fun m => { m with currentWaiter := some w }).goto i .idle

/-- The section of `interrupt_and_consume_waiters`; the waiter is put back later. -/
def interruptStep (i : κ) (t : Tid) : State κ :=
  let m := (s.slot t.slot).data
  let s' := s.guarded t fun m =>
    { m with currentWaiter := none, currentSleep := 0, interrupted := true }
  match m.currentWaiter with
  | some w => if t.version = m.versionButex then s'.goto i (.putBack t w) else s'
  | none => s'

def leaveStep (i : κ) : State κ :=
  match s.pc i with
  | .enter t => s.goto i (.check t)
  | .queued t =>
    let v := s.slot t.slot
    if v.lock = none then
      (s.setSlot t.slot { v with joiners := v.joiners.erase i }).goto i (.check t)
    else s
  | _ => s

/-- One step of the machine. Every tid that is used was returned by a creation, and the pool has
fewer than `2 ^ 32` slots. -/
def step : Act κ → State κ
  | .create i p attr =>
    if s.pc i = .idle ∧ (s.slot p).phase = .free ∧ p < 2 ^ 32 then
      (s.setSlot p { s.slot p with phase := .starting i }).goto i (.resetStop p attr)
    else s
  | .join i t => if s.pc i = .idle ∧ t ∈ s.created then s.goto i (.check t) else s
  | .setStopped t => if t ∈ s.created then s.guarded t fun m => { m with stop := true } else s
  | .interrupt i t => if s.pc i = .idle ∧ t ∈ s.created then interruptStep s i t else s
  | .go i => goStep s i
  | .leave i => leaveStep s i
  | .run p => runStep s p
  | .block p waiter sleep interrupted =>
    let v := s.slot p
    if v.phase = .running ∨ v.phase = .exited then
      s.setSlot p { v with
        data := { v.data with currentWaiter := waiter, currentSleep := sleep, interrupted } }
    else s

/-- `exists`. -/
def fiberExists (t : Tid) : Bool :=
  t.value != 0 && (s.slot t.slot).data.versionButex == t.version

/-- `get_attr`: `none` is `EINVAL`. -/
def getAttr (t : Tid) : Option Attr :=
  if t.version = (s.slot t.slot).data.versionButex then some (s.slot t.slot).data.attr else none

/-- `is_stopped`. -/
def isStopped (t : Tid) : Bool :=
  if t.version = (s.slot t.slot).data.versionButex then (s.slot t.slot).data.stop else true

end

/-! ## The property -/

def Phase.alive : Phase κ → Bool
  | .running | .exited | .cleaned => true
  | _ => false

/-- The fiber `t` has been created and its version is not yet advanced. -/
def State.Alive (s : State κ) (t : Tid) : Prop :=
  (s.slot t.slot).phase.alive = true ∧ (s.slot t.slot).data.tid = t

/-- `a` is a section of `set_stopped` or of `interrupt` that was called with `t`. -/
def State.Targets (s : State κ) (a : Act κ) (t : Tid) : Prop :=
  a = .setStopped t ∨ (∃ i, a = .interrupt i t) ∨ ∃ i w, a = .go i ∧ s.pc i = .putBack t w

structure OneFiber (s : State κ) : Prop where
  /-- all tids are distinct and none is 0 -/
  distinct : s.created.Pairwise fun t u => t.value ≠ u.value
  nonzero : ∀ t ∈ s.created, t.value ≠ 0
  /-- `exists` holds from the creation until the version is advanced -/
  exact : ∀ t ∈ s.created, fiberExists s t = true ↔ s.Alive t
  /-- `join` has returned 0 only for fibers that are over -/
  joined : ∀ t ∈ s.joined, ¬ s.Alive t
  /-- and nobody is queued for a fiber whose wake has been issued -/
  queued : ∀ i t, s.pc i = .queued t →
    s.Alive t ∨ ((s.slot t.slot).phase = .ended ∧ (s.slot t.slot).data.tid = t)
  /-- the tid of a fiber that is over reaches nothing of a later one -/
  harmless : ∀ t ∈ s.created, ¬ s.Alive t → ∀ a, s.Targets a t →
    ((step s a).slot t.slot).data = (s.slot t.slot).data
  refused : ∀ t ∈ s.created, ¬ s.Alive t → getAttr s t = none ∧ isStopped s t = true

/-- How often slot `p` has been used so far. -/
def State.uses (s : State κ) (p : ℕ) : ℕ := s.created.countP (·.slot == p)

def NoWrap (s : State κ) : Prop := ∀ p, s.uses p + 1 < 2 ^ 32

/-! ## The invariant -/

/-- The words of slot `p` after `k` uses, by its phase. -/
def SlotOk (k p : ℕ) (v : Slot κ) : Prop :=
  match v.phase with
  | .running | .exited | .cleaned => v.data.versionButex = k ∧ v.data.tid = ⟨p, k⟩
  | .ended => v.data.versionButex = k + 1 ∧ v.data.tid = ⟨p, k⟩
  | .free | .starting _ | .woken => v.data.versionButex = k + 1

/-- The fiber `t` is alive, or its joiners are about to be woken. -/
def Slot.Pending (v : Slot κ) (t : Tid) : Prop :=
  (v.phase.alive = true ∨ v.phase = .ended) ∧ v.data.tid = t

/-- What holds of a thread at `c`. -/
def ThreadOk (s : State κ) (i : κ) : Pc → Prop
  | .idle => True
  | .resetStop p _ | .resetInterrupted p _ | .publish p _ =>
    (s.slot p).phase = .starting i ∧ p < 2 ^ 32
  | .check t | .enter t | .putBack t _ => t ∈ s.created
  | .linking t => t ∈ s.created ∧ (s.slot t.slot).lock = some i ∧ (s.slot t.slot).Pending t
  | .queued t => t ∈ s.created ∧ i ∈ (s.slot t.slot).joiners ∧ (s.slot t.slot).Pending t

structure Inv (s : State κ) : Prop where
  slot : ∀ p, SlotOk (s.uses p) p (s.slot p)
  bound : ∀ t ∈ s.created, 0 < t.version ∧ t.version ≤ s.uses t.slot ∧ t.slot < 2 ^ 32
  nodup : s.created.Nodup
  thread : ∀ i, ThreadOk s i (s.pc i)
  joined : ∀ t ∈ s.joined, t ∈ s.created ∧ ¬ s.Alive t

section Consequences

variable {s : State κ} {p k : ℕ} {v : Slot κ} {t : Tid}

section

omit [DecidableEq κ]

theorem SlotOk.of_alive (h : SlotOk k p v) (ha : v.phase.alive = true) :
    v.data.versionButex = k ∧ v.data.tid = ⟨p, k⟩ := by
  unfold SlotOk at h
  cases hp : v.phase <;> simp_all [Phase.alive]

theorem SlotOk.of_not_alive (h : SlotOk k p v) (ha : v.phase.alive = false) :
    v.data.versionButex = k + 1 := by
  unfold SlotOk at h
  cases hp : v.phase <;> simp_all [Phase.alive]

/-- Of the tids of a slot only the last one has its version, and only while the fiber lives. -/
theorem Inv.version_iff (h : Inv s) (ht : t ∈ s.created) :
    (s.slot t.slot).data.versionButex = t.version ↔ s.Alive t := by
  have hle := (h.bound t ht).2.1
  constructor
  · intro hv
    cases ha : (s.slot t.slot).phase.alive with
    | true =>
      obtain ⟨hver, htid⟩ := (h.slot t.slot).of_alive ha
      refine ⟨ha, ?_⟩
      rw [htid, ← hver, hv]
    | false =>
      have := (h.slot t.slot).of_not_alive ha
      lia
  · rintro ⟨ha, htid⟩
    obtain ⟨hver, htid'⟩ := (h.slot t.slot).of_alive ha
    rw [hver]
    exact congrArg Tid.version (htid'.symm.trans htid)

end

theorem value_eq {u : Tid} (ht : t.slot < 2 ^ 32) (hu : u.slot < 2 ^ 32)
    (h : t.value = u.value) : t = u := by
  obtain ⟨p, v⟩ := t
  obtain ⟨q, w⟩ := u
  simp only [Tid.value] at h
  rw [← Nat.shiftLeft_add_eq_or_of_lt ht, ← Nat.shiftLeft_add_eq_or_of_lt hu,
    Nat.shiftLeft_eq, Nat.shiftLeft_eq] at h
  simp only at ht hu h
  have hpq : p = q := by lia
  have hvw : v = w := by lia
  rw [hpq, hvw]

theorem value_ne_zero (ht : t.slot < 2 ^ 32) (hv : 0 < t.version) : t.value ≠ 0 := by
  rw [Tid.value, ← Nat.shiftLeft_add_eq_or_of_lt ht, Nat.shiftLeft_eq]
  lia

omit [DecidableEq κ] in
theorem Inv.fiberExists_iff (h : Inv s) (ht : t ∈ s.created) :
    fiberExists s t = true ↔ s.Alive t := by
  obtain ⟨hpos, -, hslot⟩ := h.bound t ht
  rw [← h.version_iff ht]
  simp [fiberExists, value_ne_zero hslot hpos]

omit [DecidableEq κ] in
theorem guarded_eq (h : Inv s) (ht : t ∈ s.created) (hn : ¬ s.Alive t) (f : Meta → Meta) :
    s.guarded t f = s := by
  unfold State.guarded
  rw [if_neg]
  intro heq
  exact hn ((h.version_iff ht).1 heq.symm)

theorem Inv.harmless (h : Inv s) (ht : t ∈ s.created) (hn : ¬ s.Alive t) {a : Act κ}
    (ha : s.Targets a t) : ((step s a).slot t.slot).data = (s.slot t.slot).data := by
  rcases ha with rfl | ⟨i, rfl⟩ | ⟨i, w, rfl, hpc⟩
  · simp only [step, guarded_eq h ht hn]
    split <;> rfl
  · simp only [step, interruptStep, guarded_eq h ht hn]
    split
    · split
      · split <;> rfl
      · rfl
    · rfl
  · simp only [step, goStep, hpc, guarded_eq h ht hn]
    rfl

theorem Inv.oneFiber (h : Inv s) : OneFiber s where
  distinct := by
    refine h.nodup.imp_of_mem ?_
    intro t u ht hu hne heq
    exact hne (value_eq (h.bound t ht).2.2 (h.bound u hu).2.2 heq)
  nonzero t ht := value_ne_zero (h.bound t ht).2.2 (h.bound t ht).1
  exact _ ht := h.fiberExists_iff ht
  joined t ht := (h.joined t ht).2
  queued i t hpc := by
    have hok := h.thread i
    rw [hpc] at hok
    obtain ⟨-, -, hphase, htid⟩ := hok
    rcases hphase with ha | he
    · exact .inl ⟨ha, htid⟩
    · exact .inr ⟨he, htid⟩
  harmless t ht hn a ha := h.harmless ht hn ha
  refused t ht hn := by
    have hv : ¬ t.version = (s.slot t.slot).data.versionButex := by
      intro heq
      exact hn ((h.version_iff ht).1 heq.symm)
    simp [getAttr, isStopped, hv]

end Consequences

omit [DecidableEq κ] in
theorem start_inv (m : Meta) : Inv (start κ m) := by
  refine ⟨fun _ => rfl, ?_, nodup_nil, fun _ => trivial, ?_⟩
  · intro t ht
    cases ht
  · intro t ht
    cases ht

section Steps

variable {s s' : State κ} {i : κ} {p : ℕ} {v : Slot κ} {t : Tid} {c : Pc} {f : Meta → Meta}

omit [DecidableEq κ] in
theorem ThreadOk.mono (h : ThreadOk s i c) (hc : ∀ t ∈ s.created, t ∈ s'.created)
    (hstart : ∀ p, (s.slot p).phase = .starting i → (s'.slot p).phase = .starting i)
    (hlock : ∀ p, (s.slot p).lock = some i → (s'.slot p).lock = some i)
    (hjoin : ∀ t, c = .queued t → i ∈ (s.slot t.slot).joiners → i ∈ (s'.slot t.slot).joiners)
    (hpend : ∀ t, (s.slot t.slot).Pending t →
      c = .linking t ∨ c = .queued t → (s'.slot t.slot).Pending t) : ThreadOk s' i c := by
  cases c with
  | idle => trivial
  | resetStop p attr | resetInterrupted p attr | publish p attr => exact ⟨hstart p h.1, h.2⟩
  | check t | enter t | putBack t w => exact hc t h
  | linking t => exact ⟨hc t h.1, hlock _ h.2.1, hpend t h.2.2 (.inl rfl)⟩
  | queued t => exact ⟨hc t h.1, hjoin t rfl h.2.1, hpend t h.2.2 (.inr rfl)⟩

omit [DecidableEq κ] in
/-- A step that writes slot `p` and leaves the lists of tids as they are. -/
theorem Inv.write (h : Inv s) (hother : ∀ q, q ≠ p → s'.slot q = s.slot q)
    (hc : s'.created = s.created) (hj : s'.joined = s.joined)
    (hslot : SlotOk (s.uses p) p (s'.slot p))
    (halive : ∀ t, t.slot = p → s'.Alive t → s.Alive t)
    (hthread : ∀ i, ThreadOk s' i (s'.pc i)) : Inv s' := by
  have hu : ∀ q, s'.uses q = s.uses q := fun q => by rw [State.uses, hc]; rfl
  refine ⟨?_, ?_, by rw [hc]; exact h.nodup, hthread, ?_⟩
  · intro q
    rw [hu]
    obtain rfl | hq := eq_or_ne q p
    · exact hslot
    · rw [hother q hq]
      exact h.slot q
  · intro t ht
    rw [hu]
    exact h.bound t (hc ▸ ht)
  · intro t ht
    rw [hj] at ht
    obtain ⟨hmem, hn⟩ := h.joined t ht
    refine ⟨hc ▸ hmem, ?_⟩
    intro ha
    by_cases htp : t.slot = p
    · exact hn (halive t htp ha)
    · unfold State.Alive at ha hn
      rw [hother _ htp] at ha
      exact hn ha

theorem goto_self : (s.goto i c).pc i = c := update_self ..

theorem goto_ne {j : κ} (hj : j ≠ i) : (s.goto i c).pc j = s.pc j :=
  update_of_ne hj ..

theorem Inv.goto (h : Inv s) (hc : ThreadOk s i c) : Inv (s.goto i c) := by
  refine ⟨h.slot, h.bound, h.nodup, ?_, h.joined⟩
  intro j
  obtain rfl | hj := eq_or_ne j i
  · rw [goto_self]
    exact hc.mono (fun _ => id) (fun _ => id) (fun _ => id) (fun _ _ => id) (fun _ hp _ => hp)
  · rw [goto_ne hj]
    exact (h.thread j).mono (fun _ => id) (fun _ => id) (fun _ => id) (fun _ _ => id)
      (fun _ hp _ => hp)

section

omit [DecidableEq κ]

@[simp] theorem setSlot_self : (s.setSlot p v).slot p = v := update_self ..

theorem setSlot_ne {q : ℕ} (hq : q ≠ p) : (s.setSlot p v).slot q = s.slot q :=
  update_of_ne hq ..

/-- A thread that has not moved, when slot `p` keeps what it relies on. -/
theorem ThreadOk.setSlot (h : ThreadOk s i c)
    (hstart : (s.slot p).phase = .starting i → v.phase = .starting i)
    (hlock : (s.slot p).lock = some i → v.lock = some i)
    (hjoin : ∀ t, c = .queued t → i ∈ (s.slot p).joiners → t.slot = p → i ∈ v.joiners)
    (hpend : ∀ t, (s.slot p).Pending t → c = .linking t ∨ c = .queued t → t.slot = p →
      v.Pending t) : ThreadOk (s.setSlot p v) i c := by
  refine h.mono (fun _ => id) ?_ ?_ ?_ ?_
  · intro q hq
    obtain rfl | hqp := eq_or_ne q p
    · rw [setSlot_self]
      exact hstart hq
    · rw [setSlot_ne hqp]
      exact hq
  · intro q hq
    obtain rfl | hqp := eq_or_ne q p
    · rw [setSlot_self]
      exact hlock hq
    · rw [setSlot_ne hqp]
      exact hq
  · intro t hpc hq
    obtain rfl | htp := eq_or_ne t.slot p
    · rw [setSlot_self]
      exact hjoin t hpc hq rfl
    · rw [setSlot_ne htp]
      exact hq
  · intro t hp hpc
    obtain rfl | htp := eq_or_ne t.slot p
    · rw [setSlot_self]
      exact hpend t hp hpc rfl
    · rw [setSlot_ne htp]
      exact hp

/-- The worker, the fiber or a section writes slot `p` and keeps what the threads rely on. -/
theorem Inv.setSlot (h : Inv s) (hslot : SlotOk (s.uses p) p v)
    (halive : v.phase.alive = true → (s.slot p).phase.alive = true)
    (htid : v.data.tid = (s.slot p).data.tid)
    (hthread : ∀ i, ThreadOk s i (s.pc i) → ThreadOk (s.setSlot p v) i (s.pc i)) :
    Inv (s.setSlot p v) := by
  refine h.write (p := p) (fun q hq => setSlot_ne hq) rfl rfl (by rw [setSlot_self]; exact hslot)
    ?_ (fun i => hthread i (h.thread i))
  rintro t rfl ⟨ha, ht⟩
  rw [setSlot_self] at ha ht
  exact ⟨halive ha, htid.symm.trans ht⟩

end

theorem Inv.butex (h : Inv s) {lock : Option κ} {joiners : List κ}
    (hlock : ∀ j, j ≠ i → (s.slot p).lock = some j → lock = some j)
    (hjoin : ∀ j, j ≠ i → j ∈ (s.slot p).joiners → j ∈ joiners)
    (hc : ThreadOk (s.setSlot p { s.slot p with lock, joiners }) i c) :
    Inv ((s.setSlot p { s.slot p with lock, joiners }).goto i c) := by
  refine h.write (p := p) (fun q hq => setSlot_ne hq) rfl rfl ?_ ?_ ?_
  · have : ((s.setSlot p { s.slot p with lock, joiners }).goto i c).slot p =
        { s.slot p with lock, joiners } := setSlot_self
    rw [this]
    exact h.slot p
  · rintro t rfl ⟨ha, ht⟩
    have : ((s.setSlot t.slot { s.slot t.slot with lock, joiners }).goto i c).slot t.slot =
        { s.slot t.slot with lock, joiners } := setSlot_self
    rw [this] at ha ht
    exact ⟨ha, ht⟩
  · intro j
    obtain rfl | hj := eq_or_ne j i
    · rw [goto_self]
      exact hc.mono (fun _ => id) (fun _ => id) (fun _ => id) (fun _ _ => id) (fun _ hp _ => hp)
    · rw [goto_ne hj]
      have := (h.thread j).setSlot (p := p) (v := { s.slot p with lock, joiners }) id (hlock j hj)
        (fun _ _ hin _ => hjoin j hj hin) (fun _ hp _ _ => hp)
      exact this.mono (fun _ => id) (fun _ => id) (fun _ => id) (fun _ _ => id) (fun _ hp _ => hp)

section

omit [DecidableEq κ]

theorem Inv.fields (h : Inv s) {m : Meta} (hv : m.versionButex = (s.slot p).data.versionButex)
    (ht : m.tid = (s.slot p).data.tid) : Inv (s.setSlot p { s.slot p with data := m }) := by
  refine h.setSlot ?_ id ht (fun i hi => hi.setSlot id id (fun _ _ hj _ => hj) ?_)
  · have hok := h.slot p
    unfold SlotOk at hok ⊢
    simp only [hv, ht]
    exact hok
  · rintro t ⟨hp, htid⟩ - -
    exact ⟨hp, ht.trans htid⟩

theorem Inv.guarded (h : Inv s) (hv : ∀ m, (f m).versionButex = m.versionButex)
    (ht : ∀ m, (f m).tid = m.tid) : Inv (s.guarded t f) := by
  unfold State.guarded
  split
  · exact h.fields (hv _) (ht _)
  · exact h

theorem Inv.ending (h : Inv s) {ph : Phase κ} (hph : ph.alive = true)
    (ha : (s.slot p).phase.alive = true) : Inv (s.setSlot p { s.slot p with phase := ph }) := by
  have hok := (h.slot p).of_alive ha
  refine h.setSlot ?_ (fun _ => ha) rfl (fun i hi => hi.setSlot ?_ id (fun _ _ hj _ => hj) ?_)
  · unfold SlotOk
    cases ph <;> simp_all [Phase.alive]
  · intro hst
    rw [hst] at ha
    cases ha
  · rintro t ⟨-, htid⟩ - -
    exact ⟨.inl hph, htid⟩

end

theorem nextVersion_eq {k : ℕ} (hk : k + 1 < 2 ^ 32) : nextVersion k = k + 1 := by
  unfold nextVersion
  rw [Nat.mod_eq_of_lt hk, if_neg (Nat.succ_ne_zero k)]

/-- The wake takes every joiner of the fiber out of the list, so that none of them is queued. -/
theorem wake_threads (h : Inv s) (hph : (s.slot p).phase = .ended) (hlock : (s.slot p).lock = none) :
    let s' := { s.setSlot p { s.slot p with joiners := [], phase := .woken } with
      pc := fun i => if i ∈ (s.slot p).joiners then (s.pc i).wake else s.pc i }
    ∀ i, ThreadOk s' i (s'.pc i) := by
  intro s' i
  have hslot : ∀ c, ThreadOk s i c → (∀ t, c = .queued t → t.slot ≠ p) → ThreadOk s' i c := by
    intro c hc hq
    have hset : ThreadOk (s.setSlot p { s.slot p with joiners := [], phase := .woken }) i c := by
      refine hc.setSlot ?_ id ?_ ?_
      · intro hst
        rw [hph] at hst
        cases hst
      · intro t hpc _ htp
        exact absurd htp (hq t hpc)
      · rintro t - (rfl | rfl) htp
        · subst htp
          have hheld := hc.2.1
          rw [hlock] at hheld
          cases hheld
        · exact absurd htp (hq t rfl)
    exact hset.mono (fun _ => id) (fun _ => id) (fun _ => id) (fun _ _ => id) (fun _ hp _ => hp)
  have hi := h.thread i
  change ThreadOk s' i (if i ∈ (s.slot p).joiners then (s.pc i).wake else s.pc i)
  cases hpc : s.pc i with
  | queued t =>
    rw [hpc] at hi
    split
    · exact hi.1
    next hnot =>
      refine hslot _ hi ?_
      rintro u ⟨⟩ rfl
      exact hnot hi.2.1
  | _ =>
    rw [hpc] at hi
    simp only [Pc.wake, ite_self]
    exact hslot _ hi (by simp)

theorem runStep_inv (h : Inv s) (hw : NoWrap s) : Inv (runStep s p) := by
  simp only [runStep]
  split
  next hph =>
    exact h.ending rfl (by rw [hph]; rfl)
  next hph =>
    exact h.ending rfl (by rw [hph]; rfl)
  next hph =>
    have hok := (h.slot p).of_alive (by rw [hph]; rfl)
    refine h.setSlot ?_ (by simp [Phase.alive]) rfl (fun i hi => hi.setSlot ?_ id (fun _ _ hj _ => hj) ?_)
    · refine ⟨?_, hok.2⟩
      simp only [hok.1]
      exact nextVersion_eq (hw p)
    · intro hst
      rw [hph] at hst
      cases hst
    · rintro t ⟨-, htid⟩ - -
      exact ⟨.inr rfl, htid⟩
  next hph =>
    split
    next hlock =>
      have hok := h.slot p
      simp only [SlotOk, hph] at hok
      refine h.write (p := p) (fun q hq => setSlot_ne hq) rfl rfl ?_ ?_ ?_
      · have : (s.setSlot p { s.slot p with joiners := [], phase := .woken }).slot p =
            { s.slot p with joiners := [], phase := .woken } := setSlot_self
        simp only [this, SlotOk]
        exact hok.1
      · rintro t rfl ⟨ha, -⟩
        have : (s.setSlot t.slot { s.slot t.slot with joiners := [], phase := .woken }).slot t.slot =
            { s.slot t.slot with joiners := [], phase := .woken } := setSlot_self
        simp only [this] at ha
        cases ha
      · exact wake_threads h hph hlock
    · exact h
  next hph =>
    have hok := h.slot p
    simp only [SlotOk, hph] at hok
    refine h.setSlot hok (by simp [Phase.alive]) rfl
      (fun i hi => hi.setSlot ?_ id (fun _ _ hj _ => hj) ?_)
    · intro hst
      rw [hph] at hst
      cases hst
    · rintro t ⟨hp, -⟩ - -
      rw [hph] at hp
      rcases hp with hp | hp <;> cases hp
  · exact h
  · exact h

theorem publish_inv (h : Inv s) {attr : Attr} (hpc : s.pc i = .publish p attr) :
    Inv ({ s.setSlot p { s.slot p with
        data := { (s.slot p).data with attr, tid := ⟨p, (s.slot p).data.versionButex⟩ }
        phase := .running } with
      created := ⟨p, (s.slot p).data.versionButex⟩ :: s.created }.goto i .idle) := by
  have hi := h.thread i
  rw [hpc] at hi
  obtain ⟨hst, hp⟩ := hi
  have hv : (s.slot p).data.versionButex = s.uses p + 1 :=
    (h.slot p).of_not_alive (by rw [hst]; rfl)
  rw [hv]
  set t : Tid := ⟨p, s.uses p + 1⟩ with ht
  set s' := ({ s.setSlot p { s.slot p with
        data := { (s.slot p).data with attr, tid := t }
        phase := .running } with
      created := t :: s.created }.goto i .idle) with hs'
  have hself : s'.slot p = { s.slot p with
      data := { (s.slot p).data with attr, tid := t }
      phase := .running } := setSlot_self
  have hother : ∀ q, q ≠ p → s'.slot q = s.slot q := fun q hq => setSlot_ne hq
  have hup : s'.uses p = s.uses p + 1 := by
    simp [State.uses, hs', State.goto, ht]
  have huq : ∀ q, q ≠ p → s'.uses q = s.uses q := by
    intro q hq
    simp [State.uses, hs', State.goto, ht, hq.symm]
  have hnew : t ∉ s.created := by
    intro hmem
    have := (h.bound t hmem).2.1
    simp only [ht] at this
    lia
  refine ⟨?_, ?_, nodup_cons.2 ⟨hnew, h.nodup⟩, ?_, ?_⟩
  · intro q
    obtain rfl | hq := eq_or_ne q p
    · rw [hself, hup]
      exact ⟨hv, rfl⟩
    · rw [hother q hq, huq q hq]
      exact h.slot q
  · intro u hu
    rcases mem_cons.1 hu with rfl | hu
    · exact ⟨Nat.succ_pos _, Nat.le_of_eq hup.symm, hp⟩
    · obtain ⟨hpos, hle, hlt⟩ := h.bound u hu
      refine ⟨hpos, ?_, hlt⟩
      by_cases hup' : u.slot = p
      · rw [hup'] at hle ⊢
        rw [hup]
        lia
      · rw [huq _ hup']
        exact hle
  · intro j
    obtain rfl | hj := eq_or_ne j i
    · rw [hs', goto_self]
      trivial
    · rw [hs', goto_ne hj]
      refine (h.thread j).mono (fun _ => mem_cons_of_mem t) ?_ ?_ ?_ ?_
      · intro q hq
        have hqp : q ≠ p := by
          rintro rfl
          rw [hst] at hq
          exact hj (Phase.starting.inj hq).symm
        rw [← hs', hother q hqp]
        exact hq
      · intro q hq
        rw [← hs']
        obtain rfl | hqp := eq_or_ne q p
        · rw [hself]
          exact hq
        · rw [hother q hqp]
          exact hq
      · intro u _ hq
        rw [← hs']
        by_cases hup' : u.slot = p
        · rw [hup'] at hq ⊢
          rw [hself]
          exact hq
        · rw [hother _ hup']
          exact hq
      · rintro u ⟨hph, htid⟩ _
        have hup' : u.slot ≠ p := by
          intro heq
          rw [heq, hst] at hph
          rcases hph with hph | hph <;> cases hph
        rw [← hs', hother _ hup']
        exact ⟨hph, htid⟩
  · intro u hu
    obtain ⟨hmem, hn⟩ := h.joined u hu
    refine ⟨mem_cons_of_mem t hmem, ?_⟩
    intro ha
    unfold State.Alive at ha hn
    by_cases hup' : u.slot = p
    · rw [hup', hself] at ha
      have : t = u := ha.2
      exact hnew (this ▸ hmem)
    · rw [hother _ hup'] at ha
      exact hn ha

theorem goStep_inv (h : Inv s) : Inv (goStep s i) := by
  have hi := h.thread i
  simp only [goStep]
  split
  · exact h
  · exact h
  next p attr hpc =>
    rw [hpc] at hi
    have h' : Inv (s.setSlot p { s.slot p with data := { (s.slot p).data with stop := false } }) :=
      h.fields rfl rfl
    refine h'.goto ⟨?_, hi.2⟩
    rw [setSlot_self]
    exact hi.1
  next p attr hpc =>
    rw [hpc] at hi
    have h' : Inv (s.setSlot p { s.slot p with data := { (s.slot p).data with interrupted := false } }) :=
      h.fields rfl rfl
    refine h'.goto ⟨?_, hi.2⟩
    rw [setSlot_self]
    exact hi.1
  next p attr hpc =>
    exact publish_inv h hpc
  next t hpc =>
    rw [hpc] at hi
    split
    · exact h.goto hi
    next hne =>
      have h' : Inv { s with joined := t :: s.joined } := by
        refine ⟨h.slot, h.bound, h.nodup, ?_, ?_⟩
        · intro j
          exact (h.thread j).mono (fun _ => id) (fun _ => id) (fun _ => id) (fun _ _ => id)
            (fun _ hp _ => hp)
        · intro u hu
          rcases mem_cons.1 hu with rfl | hu
          · exact ⟨hi, fun ha => hne ((h.version_iff hi).2 ha)⟩
          · exact h.joined u hu
      exact h'.goto trivial
  next t hpc =>
    rw [hpc] at hi
    split
    next hlock =>
      split
      next hv =>
        refine h.butex ?_ (fun _ _ hj => hj) ⟨hi, ?_, ?_⟩
        · intro j _ hj
          rw [hlock] at hj
          cases hj
        · rw [setSlot_self]
        · rw [setSlot_self]
          have ha := (h.version_iff hi).1 hv
          exact ⟨.inl ha.1, ha.2⟩
      · exact h.goto hi
    · exact h
  next t hpc =>
    rw [hpc] at hi
    refine h.butex ?_ (fun j _ hj => mem_append_left _ hj) ⟨hi.1, ?_, ?_⟩
    · intro j hj hlock
      rw [hi.2.1] at hlock
      exact absurd (Option.some.inj hlock).symm hj
    · rw [setSlot_self]
      exact mem_append_right _ mem_cons_self
    · rw [setSlot_self]
      exact hi.2.2
  next t w hpc =>
    have h' : Inv (s.guarded t fun m => { m with currentWaiter := some w }) :=
      h.guarded (fun _ => rfl) (fun _ => rfl)
    exact h'.goto trivial

omit [DecidableEq κ] in
theorem guarded_created : (s.guarded t f).created = s.created := by
  unfold State.guarded
  split <;> rfl

theorem interruptStep_inv (h : Inv s) (ht : t ∈ s.created) : Inv (interruptStep s i t) := by
  have h' : Inv (s.guarded t fun m =>
      { m with currentWaiter := none, currentSleep := 0, interrupted := true }) :=
    h.guarded (fun _ => rfl) (fun _ => rfl)
  simp only [interruptStep]
  split
  · split
    · refine h'.goto ?_
      simp only [ThreadOk, guarded_created]
      exact ht
    · exact h'
  · exact h'

theorem leaveStep_inv (h : Inv s) : Inv (leaveStep s i) := by
  have hi := h.thread i
  simp only [leaveStep]
  split
  next t hpc =>
    rw [hpc] at hi
    exact h.goto hi
  next t hpc =>
    rw [hpc] at hi
    split
    · exact h.butex (fun _ _ hj => hj) (fun j hj hin => (mem_erase_of_ne hj).2 hin) hi.1
    · exact h
  · exact h

theorem step_inv (h : Inv s) (hw : NoWrap s) (a : Act κ) : Inv (step s a) := by
  cases a with
  | create i p attr =>
    simp only [step]
    split
    next hg =>
      obtain ⟨-, hfree, hp⟩ := hg
      have hok := h.slot p
      simp only [SlotOk, hfree] at hok
      have h' : Inv (s.setSlot p { s.slot p with phase := .starting i }) := by
        refine h.setSlot hok (by simp [Phase.alive]) rfl
          (fun j hj => hj.setSlot ?_ id (fun _ _ hj _ => hj) ?_)
        · intro hst
          rw [hfree] at hst
          cases hst
        · rintro t ⟨hph, -⟩ - -
          rw [hfree] at hph
          rcases hph with hph | hph <;> cases hph
      refine h'.goto ⟨?_, hp⟩
      rw [setSlot_self]
    · exact h
  | join i t =>
    simp only [step]
    split
    next hg =>
      exact h.goto hg.2
    · exact h
  | setStopped t =>
    simp only [step]
    split
    · exact h.guarded (fun _ => rfl) (fun _ => rfl)
    · exact h
  | interrupt i t =>
    simp only [step]
    split
    next hg =>
      exact interruptStep_inv h hg.2
    · exact h
  | go i => exact goStep_inv h
  | leave i => exact leaveStep_inv h
  | run p => exact runStep_inv h hw
  | block p waiter sleep interrupted =>
    simp only [step]
    split
    · exact h.fields rfl rfl
    · exact h

theorem interruptStep_created : (interruptStep s i t).created = s.created := by
  simp only [interruptStep]
  split
  · split
    · exact guarded_created
    · exact guarded_created
  · exact guarded_created

theorem step_created (a : Act κ) : ∃ ts, (step s a).created = ts ++ s.created := by
  cases a with
  | create i p attr =>
    simp only [step]
    split <;> exact ⟨[], rfl⟩
  | join i t =>
    simp only [step]
    split <;> exact ⟨[], rfl⟩
  | setStopped t =>
    simp only [step]
    split
    · exact ⟨[], guarded_created⟩
    · exact ⟨[], rfl⟩
  | interrupt i t =>
    simp only [step]
    split
    · exact ⟨[], interruptStep_created⟩
    · exact ⟨[], rfl⟩
  | go i =>
    simp only [step, goStep]
    split
    case h_5 => exact ⟨[_], rfl⟩
    case h_9 => exact ⟨[], guarded_created⟩
    all_goals repeat' split
    all_goals exact ⟨[], rfl⟩
  | leave i =>
    simp only [step, leaveStep]
    repeat' split
    all_goals exact ⟨[], rfl⟩
  | run p =>
    simp only [step, runStep]
    repeat' split
    all_goals exact ⟨[], rfl⟩
  | block p waiter sleep interrupted =>
    simp only [step]
    split <;> exact ⟨[], rfl⟩

theorem NoWrap.of_step {a : Act κ} (h : NoWrap (step s a)) : NoWrap s := by
  intro p
  obtain ⟨ts, hts⟩ := step_created (s := s) a
  have hle : s.uses p ≤ (step s a).uses p := by
    rw [State.uses, State.uses, hts, countP_append]
    exact Nat.le_add_left ..
  have := h p
  lia

end Steps

theorem inv_keeps : Keeps (step (κ := κ)) (fun s => NoWrap s → Inv s) := by
  intro s a h hw
  exact step_inv (h hw.of_step) hw.of_step a

/-- **Fiber ids denote one fiber each**, in any interleaving that has not wrapped the version of a
slot. -/
theorem run_oneFiber (m : Meta) (acts : List (Act κ))
    (hw : NoWrap (runFrom step (start κ m) acts)) :
    OneFiber (runFrom step (start κ m) acts) := by
  have h := inv_keeps.run (s := start κ m) (fun _ => start_inv m) acts
  exact (h hw).oneFiber

/-- The fields that the constructor leaves open. -/
def anyMeta : Meta := ⟨0, false, false, none, 0, ⟨0, 0, none, 0⟩, ⟨0, 0⟩⟩

local instance neZero2 : NeZero 2 := ⟨by decide⟩

/-- Thread 0 creates a fiber that thread 1 joins; it ends, its joiner is woken and returns, the slot
is used again, and thread 1 stops and interrupts the first fiber once more. -/
def reuseActs : List (Act (Fin 2)) :=
  [.create 0 7 ⟨1, 0, none, 0⟩, .go 0, .go 0, .go 0, .join 1 ⟨7, 1⟩, .go 1, .go 1, .run 7, .go 1,
    .run 7, .run 7, .run 7, .run 7, .go 1, .create 0 7 ⟨2, 0, none, 0⟩, .go 0, .go 0, .go 0,
    .setStopped ⟨7, 1⟩, .interrupt 1 ⟨7, 1⟩]

theorem run_oneFiber_reuse :
    let s := runFrom step (start (Fin 2) anyMeta) reuseActs
    s.created = [⟨7, 2⟩, ⟨7, 1⟩] ∧ s.joined = [⟨7, 1⟩] ∧ (s.slot 7).data.interrupted = false ∧
      NoWrap s ∧ OneFiber s := by
  intro s
  have hc : s.created = [⟨7, 2⟩, ⟨7, 1⟩] := by decide
  have hw : NoWrap s := by
    intro p
    have hle : s.uses p ≤ s.created.length := countP_le_length
    rw [hc] at hle
    simp only [length_cons, length_nil] at hle
    lia
  exact ⟨hc, by decide, by decide, hw, run_oneFiber anyMeta reuseActs hw⟩

end Eabase.Fiber.TaskMeta
