import Eabase.Lib.Machine

/-!
# Parking and signalling of workers

The workers of one tag, their run queues and the four parking lots. A worker
without a fiber pops its own queue, saves the counter of its lot, visits the
queues of all groups and waits on the counter. A pusher fills a queue and then
signals the lots one after the other until it has woken enough workers; each
signal advances the counter and wakes in two steps.

A queue operation is one step, as is a `futex_wait` that compares and parks.
A local push and its signals are made by a fiber that the worker runs; here
they are a party of their own, which leaves more interleavings than the code
has.
-/

namespace Eabase.Fiber.ParkingLot

open Lib Function

variable {ι κ : Type*} [DecidableEq ι] [DecidableEq κ]

/-- `_rq` or `_remote_rq` of the group of a worker. -/
structure Queue (ι : Type*) where
  group : ι
  remote : Bool
  deriving DecidableEq

/-- The number of a lot: `PARKING_LOT_NUM` is 4. -/
abbrev Lot := Fin 4

/-- Where a worker stands. `remote` to `scan` are the steps of `steal_task`: the pop of its own
remote queue, the saving of the parking state, the load of `ngroup`, the queues that are still to be
visited. `park` is in front of the futex. -/
inductive Pc (ι : Type*) where
  | absent
  | running
  | remote
  | save
  | load
  | scan (qs : List (Queue ι))
  | park
  | parked
  deriving DecidableEq

/-- Where a pusher stands in `signal_task`, for its push number `x` into `q`: in front of the two
steps of `signal(1)` on a lot, with the lots that come after it and the number of workers that are
still to be woken. -/
inductive Pusher (ι : Type*) where
  | idle
  | bump (x : ℕ) (q : Queue ι) (l : Lot) (todo : List Lot) (numTask : ℕ)
  | wake (x : ℕ) (q : Queue ι) (l : Lot) (todo : List Lot) (numTask : ℕ)
  deriving DecidableEq

/-- The groups in the order of their creation, the workers with the lot they park in and the counter
they saved, the queues, the counters of the lots and the pushers. A fiber in a queue is named by the
number of its push, so that a fiber that is pushed again is another entry. -/
structure State (ι κ : Type*) where
  groups : List ι
  pc : ι → Pc ι
  lot : ι → Lot
  saved : ι → ℕ
  queue : Queue ι → List ℕ
  signals : Lot → ℕ
  pusher : κ → Pusher ι
  pushed : ℕ

local instance neZero4 : NeZero 4 := ⟨by decide⟩

def start (ι κ : Type*) : State ι κ where
  groups := []
  pc _ := .absent
  lot _ := 0
  saved _ := 0
  queue _ := []
  signals _ := 0
  pusher _ := .idle
  pushed := 0

/-- `_pending_signal` after `c` signals: the lowest bit is for stopping. -/
def word (c : ℕ) : ℕ := 2 * c % 2 ^ 32

/-- One label of a run. `go` moves a worker, with the order in which `steal_task` would visit the
groups; `wakeUp` is a `futex_wait` that returns for no reason; `push` is a `ready_to_run` that
flushes `extra` earlier fibers, from a thread whose id hashes to the lot `l`; `signal` moves a
pusher, with the worker that the futex would wake. -/
inductive Act (ι κ : Type*) where
  | addWorker (w : ι) (l : Lot)
  | go (w : ι) (order : List ι)
  | wakeUp (w : ι)
  | push (k : κ) (q : Queue ι) (extra : ℕ) (l : Lot)
  | signal (k : κ) (w : ι)

/-- Worker `w` goes to `p`. -/
def State.goto (s : State ι κ) (w : ι) (p : Pc ι) : State ι κ :=
  { s with pc := update s.pc w p }

/-- Pusher `k` goes to `p`. -/
def State.pushTo (s : State ι κ) (k : κ) (p : Pusher ι) : State ι κ :=
  { s with pusher := update s.pusher k p }

/-- The queue `q` is left as `xs`. -/
def State.setQueue (s : State ι κ) (q : Queue ι) (xs : List ℕ) : State ι κ :=
  { s with queue := update s.queue q xs }

/-- The queues of the groups in `order`, as `steal_task` visits them. -/
def visit (order : List ι) : List (Queue ι) :=
  order.flatMap fun g => [⟨g, false⟩, ⟨g, true⟩]

/-- The next step of worker `w`: `sched` when its fiber ends or blocks, `steal_task`,
`wait_task`. -/
def goStep (s : State ι κ) (w : ι) (order : List ι) : State ι κ :=
  match s.pc w with
  | .running =>
    if s.queue ⟨w, false⟩ = [] then s.goto w .remote
    else s.setQueue ⟨w, false⟩ (s.queue ⟨w, false⟩).dropLast
  | .remote =>
    match s.queue ⟨w, true⟩ with
    | [] => s.goto w .save
    | _ :: xs => (s.setQueue ⟨w, true⟩ xs).goto w .running
  | .save =>
    { s with saved := update s.saved w (s.signals (s.lot w)) }.goto w .load
  | .load => if ∀ g ∈ s.groups, g ∈ order then s.goto w (.scan (visit order)) else s
  | .scan [] => s.goto w .park
  | .scan (q :: qs) =>
    match s.queue q with
    | [] => s.goto w (.scan qs)
    | _ :: xs => (s.setQueue q xs).goto w .running
  | .park =>
    if word (s.signals (s.lot w)) = word (s.saved w) then s.goto w .parked else s.goto w .remote
  | .absent | .parked => s

/-- After a wake that reached `woken` workers, `signal_task` turns to the next lot. -/
def nextLot (x : ℕ) (q : Queue ι) (todo : List Lot) (numTask woken : ℕ) : Pusher ι :=
  match todo with
  | [] => .idle
  | l :: todo => if 0 < numTask - woken then .bump x q l todo (numTask - woken) else .idle

/-- A worker that waits in the lot `l`. -/
def State.Waits (s : State ι κ) (l : Lot) (w : ι) : Prop := s.pc w = .parked ∧ s.lot w = l

instance (s : State ι κ) (l : Lot) (w : ι) : Decidable (s.Waits l w) :=
  inferInstanceAs (Decidable (_ ∧ _))

/-- The next step of pusher `k`. -/
def signalStep (s : State ι κ) (k : κ) (w : ι) : State ι κ :=
  match s.pusher k with
  | .idle => s
  | .bump x q l todo numTask =>
    { s with signals := update s.signals l (s.signals l + 1) }.pushTo k
      (.wake x q l todo numTask)
  | .wake x q l todo numTask =>
    if s.Waits l w then (s.goto w .remote).pushTo k (nextLot x q todo numTask 1)
    else if ∀ v ∈ s.groups, ¬ s.Waits l v then s.pushTo k (nextLot x q todo numTask 0)
    else s

/-- A push: local ones are made on the running worker. -/
def pushStep (s : State ι κ) (k : κ) (q : Queue ι) (extra : ℕ) (l : Lot) : State ι κ :=
  if s.pusher k = .idle ∧ q.group ∈ s.groups ∧ (q.remote = true ∨ s.pc q.group = .running) then
    { s.setQueue q (s.queue q ++ [s.pushed]) with pushed := s.pushed + 1 }.pushTo k
      (.bump s.pushed q l [l + 1, l + 2, l + 3] (min (1 + extra) 2))
  else s

/-- One step of the machine. A new worker has the parking state 0 and starts in `wait_task`. -/
def step (s : State ι κ) : Act ι κ → State ι κ
  | .addWorker w l =>
    if s.pc w = .absent ∧ w ∉ s.groups then
      { s with
        groups := s.groups ++ [w]
        lot := update s.lot w l
        saved := update s.saved w 0 }.goto w .park
    else s
  | .go w order => goStep s w order
  | .wakeUp w => if s.pc w = .parked then s.goto w .remote else s
  | .push k q extra l => pushStep s k q extra l
  | .signal k w => signalStep s k w

/-! ## The property -/

/-- Not all workers are parked while a queue holds a fiber, unless a pusher is in `signal_task`. -/
def NotStranded (s : State ι κ) : Prop :=
  (∀ w ∈ s.groups, s.pc w = .parked) → (∀ k, s.pusher k = .idle) → ∀ q, s.queue q = []

/-- The condition on a step: a worker that finds the counter as it saved it has seen fewer than `2 ^
31` signals since then. A new worker has saved none and waits for 0, so that a lot with more signals
does no harm to it as long as their number is not a multiple of `2 ^ 31`: then it would park
although it never looked. -/
def FewSignals (s : State ι κ) : Act ι κ → Prop
  | .go w _ => s.pc w = .park → word (s.signals (s.lot w)) = word (s.saved w) →
      s.signals (s.lot w) - s.saved w < 2 ^ 31
  | _ => True

instance (s : State ι κ) : ∀ a, Decidable (FewSignals s a)
  | .go w _ => inferInstanceAs (Decidable (s.pc w = .park → _ → _))
  | .addWorker _ _ | .wakeUp _ | .push _ _ _ _ | .signal _ _ => isTrue trivial

/-! ## The invariant -/

/-- Worker `w` will look into the queue `q` before it parks: it is not yet past `q`, or the counter
of its lot has advanced since it saved it. -/
def State.Watches (s : State ι κ) (w : ι) (q : Queue ι) : Prop :=
  match s.pc w with
  | .running | .remote | .save | .load => True
  | .scan qs => q ∈ qs ∨ s.saved w < s.signals (s.lot w)
  | .park => s.saved w < s.signals (s.lot w)
  | .absent | .parked => False

/-- Somebody will look into `q`. -/
def State.Watched (s : State ι κ) (q : Queue ι) : Prop := ∃ w, s.Watches w q

/-- What holds of a pusher of `x` into `q` that has yet to advance the counters of the lots `ahead`:
while `x` is in the queue somebody will look into it, or else every worker parks in one of these
lots or is one of the sleepers that the coming wake is for. -/
structure Job (s : State ι κ) (x : ℕ) (q : Queue ι) (ahead : List Lot) (numTask : ℕ)
    (asleep : ι → Prop) : Prop where
  known : x < s.pushed
  group : q.group ∈ s.groups
  pos : 0 < numTask
  bumped : ∀ l, l ∉ ahead → 0 < s.signals l
  reach : x ∈ s.queue q → s.Watched q ∨ ∀ w ∈ s.groups, s.lot w ∈ ahead ∨ asleep w

def State.Works (s : State ι κ) : Pusher ι → Prop
  | .idle => True
  | .bump x q l todo numTask => Job s x q (l :: todo) numTask (fun _ => False)
  | .wake x q l todo numTask => Job s x q todo numTask (s.Waits l)

/-- The pusher is the one of `x` in `q`. -/
def Pusher.of (x : ℕ) (q : Queue ι) : Pusher ι → Prop
  | .idle => False
  | .bump x' q' _ _ _ | .wake x' q' _ _ _ => x' = x ∧ q' = q

/-- The invariant: every fiber in a queue is watched, or its pusher is still at work. -/
structure Inv (s : State ι κ) : Prop where
  groups : ∀ w, w ∈ s.groups ↔ s.pc w ≠ .absent
  queued : ∀ q, ∀ x ∈ s.queue q, q.group ∈ s.groups ∧ x < s.pushed
  saved_le : ∀ w, s.saved w ≤ s.signals (s.lot w)
  works : ∀ k, s.Works (s.pusher k)
  rescue : ∀ q, ∀ x ∈ s.queue q, s.Watched q ∨ ∃ k, (s.pusher k).of x q

section

omit [DecidableEq ι] [DecidableEq κ]

theorem start_inv : Inv (start ι κ) := by
  refine ⟨by simp [start], ?_, fun _ => Nat.le_refl _, fun _ => trivial, ?_⟩
  · intro q x hx
    cases hx
  · intro q x hx
    cases hx

theorem Inv.notStranded {s : State ι κ} (h : Inv s) : NotStranded s := by
  intro hparked hidle q
  cases hq : s.queue q with
  | nil => rfl
  | cons x xs =>
    have hx : x ∈ s.queue q := by rw [hq]; exact List.mem_cons_self
    exfalso
    rcases h.rescue q x hx with ⟨w, hw⟩ | ⟨k, hk⟩
    · have hpc : s.pc w ≠ .absent := by
        intro heq
        simp [State.Watches, heq] at hw
      have hpark := hparked w ((h.groups w).2 hpc)
      simp [State.Watches, hpark] at hw
    · rw [hidle k] at hk
      exact hk

end

/-- What any step does, seen from a queue that is not empty after it: nobody who would look into it
stops doing so, and a new worker is awake if its lot has ever been signalled. -/
structure Evolves (s s' : State ι κ) : Prop where
  groups : ∀ w ∈ s.groups, w ∈ s'.groups
  signals : ∀ l, s.signals l ≤ s'.signals l
  pushed : s.pushed ≤ s'.pushed
  queue : ∀ q, ∀ x ∈ s'.queue q, x < s.pushed → x ∈ s.queue q
  watches : ∀ w q, s'.queue q ≠ [] → s.Watches w q → s'.Watches w q
  workers : ∀ w ∈ s'.groups,
    (w ∈ s.groups ∧ s'.lot w = s.lot w ∧
      (s.pc w = .parked → s'.pc w = .parked ∨ ∀ q, s'.Watches w q)) ∨
    (w ∉ s.groups ∧ s'.pc w = .park ∧ s'.saved w = 0)

section Evolution

variable {s s' : State ι κ} {w : ι} {q : Queue ι} {x : ℕ}

section

omit [DecidableEq ι] [DecidableEq κ]

theorem Evolves.watched (he : Evolves s s') (hq : s'.queue q ≠ []) (h : s.Watched q) :
    s'.Watched q := by
  obtain ⟨w, hw⟩ := h
  exact ⟨w, he.watches w q hq hw⟩

theorem Job.evolves {ahead : List Lot} {numTask : ℕ} {asleep asleep' : ι → Prop}
    (h : Job s x q ahead numTask asleep) (he : Evolves s s')
    (hsleep : ∀ w ∈ s.groups, asleep w → asleep' w ∨ s'.Watches w q) :
    Job s' x q ahead numTask asleep' := by
  refine ⟨lt_of_lt_of_le h.known he.pushed, he.groups _ h.group, h.pos, ?_, ?_⟩
  · intro l hl
    exact lt_of_lt_of_le (h.bumped l hl) (he.signals l)
  · intro hx
    by_cases hwatch : s'.Watched q
    · exact .inl hwatch
    have hold : ∀ w ∈ s.groups, s.lot w ∈ ahead ∨ asleep w := by
      refine (h.reach (he.queue q x hx h.known)).resolve_left ?_
      intro hw
      exact hwatch (he.watched (List.ne_nil_of_mem hx) hw)
    right
    intro w hw
    rcases he.workers w hw with ⟨hmem, hlot, -⟩ | ⟨-, hpc, hsaved⟩
    · rw [hlot]
      rcases hold w hmem with hin | ha
      · exact .inl hin
      · rcases hsleep w hmem ha with ha | hwq
        · exact .inr ha
        · exact absurd ⟨w, hwq⟩ hwatch
    · -- a new worker whose lot was signalled does not park
      by_cases hin : s'.lot w ∈ ahead
      · exact .inl hin
      · have hpos := lt_of_lt_of_le (h.bumped _ hin) (he.signals _)
        refine absurd ⟨w, ?_⟩ hwatch
        simp only [State.Watches, hpc, hsaved]
        exact hpos

theorem State.Works.evolves {p : Pusher ι} (h : s.Works p) (he : Evolves s s') : s'.Works p := by
  cases p with
  | idle => trivial
  | bump x q l todo numTask => exact Job.evolves h he (fun _ _ hf => hf.elim)
  | wake x q l todo numTask =>
    refine Job.evolves h he ?_
    rintro w hw ⟨hpc, hlot⟩
    rcases he.workers w (he.groups w hw) with ⟨-, hlot', hkeep⟩ | ⟨hnew, -⟩
    · rcases hkeep hpc with hpc' | hwatch
      · exact .inl ⟨hpc', hlot'.trans hlot⟩
      · exact .inr (hwatch q)
    · exact absurd hw hnew

/-- What a step has to show besides `Evolves`: its pushers work, and no pusher leaves a fiber that
nobody watches. -/
theorem Inv.evolves (h : Inv s) (he : Evolves s s')
    (hgroups : ∀ w, w ∈ s'.groups ↔ s'.pc w ≠ .absent)
    (hqueued : ∀ q, ∀ x ∈ s'.queue q, q.group ∈ s'.groups ∧ x < s'.pushed)
    (hsaved : ∀ w, s'.saved w ≤ s'.signals (s'.lot w))
    (hworks : ∀ k, s'.pusher k = s.pusher k ∨ s'.Works (s'.pusher k))
    (hrescue : ∀ q, ∀ x ∈ s'.queue q, (∃ k, (s'.pusher k).of x q) ∨ (x ∈ s.queue q ∧
      ∀ k, (s.pusher k).of x q → s'.Watched q ∨ (s'.pusher k).of x q)) : Inv s' := by
  refine ⟨hgroups, hqueued, hsaved, ?_, ?_⟩
  · intro k
    rcases hworks k with heq | hk
    · rw [heq]
      exact (h.works k).evolves he
    · exact hk
  · intro q x hx
    rcases hrescue q x hx with hk | ⟨hold, hleft⟩
    · exact .inr hk
    · rcases h.rescue q x hold with hwatch | ⟨k, hk⟩
      · exact .inl (he.watched (List.ne_nil_of_mem hx) hwatch)
      · rcases hleft k hk with hwatch | hk
        · exact .inl hwatch
        · exact .inr ⟨k, hk⟩

theorem State.Watches.mono (h : s.Watches w q) (hpc : s'.pc w = s.pc w)
    (hsaved : s'.saved w = s.saved w) (hlot : s'.lot w = s.lot w)
    (hsig : ∀ l, s.signals l ≤ s'.signals l) : s'.Watches w q := by
  have hle := hsig (s.lot w)
  unfold State.Watches at h ⊢
  rw [hpc, hsaved, hlot]
  split at h
  · trivial
  · trivial
  · trivial
  · trivial
  · rcases h with hin | hlt
    · exact .inl hin
    · exact .inr (lt_of_lt_of_le hlt hle)
  · exact lt_of_lt_of_le h hle
  · exact h.elim
  · exact h.elim

end

end Evolution

section Steps

variable {s s' : State ι κ} {w : ι} {k : κ} {q : Queue ι} {x : ℕ} {l : Lot} {p : Pc ι}
  {numTask : ℕ} {order : List ι} {todo : List Lot}

section

omit [DecidableEq κ]

omit [DecidableEq ι] in
/-- A step of worker `w`: it may take a fiber from a queue and save a counter. -/
theorem Inv.worker (h : Inv s) (hg : s'.groups = s.groups) (hsig : s'.signals = s.signals)
    (hlot : s'.lot = s.lot) (hpusher : s'.pusher = s.pusher) (hpushed : s'.pushed = s.pushed)
    (hqueue : ∀ q, ∀ x ∈ s'.queue q, x ∈ s.queue q) (hpc : ∀ v, v ≠ w → s'.pc v = s.pc v)
    (hsaved : ∀ v, v ≠ w → s'.saved v = s.saved v) (hw : s.pc w ≠ .absent)
    (hw' : s'.pc w ≠ .absent) (hle : s'.saved w ≤ s.signals (s.lot w))
    (hwatch : ∀ q, s'.queue q ≠ [] → s.Watches w q → s'.Watches w q)
    (hparked : s.pc w = .parked → ∀ q, s'.Watches w q) : Inv s' := by
  have he : Evolves s s' := by
    refine ⟨?_, ?_, ?_, fun q x hx _ => hqueue q x hx, ?_, ?_⟩
    · rw [hg]
      exact fun _ => id
    · rw [hsig]
      exact fun _ => Nat.le_refl _
    · exact le_of_eq hpushed.symm
    · intro v q hq hv
      obtain rfl | hvw := eq_or_ne v w
      · exact hwatch q hq hv
      · exact hv.mono (hpc v hvw) (hsaved v hvw) (by rw [hlot])
          (by rw [hsig]; exact fun _ => Nat.le_refl _)
    · intro v hv
      rw [hg] at hv
      refine .inl ⟨hv, by rw [hlot], ?_⟩
      intro hp
      obtain rfl | hvw := eq_or_ne v w
      · exact .inr (hparked hp)
      · exact .inl ((hpc v hvw).trans hp)
  refine h.evolves he ?_ ?_ ?_ (fun k => .inl (by rw [hpusher])) ?_
  · intro v
    rw [hg, h.groups]
    obtain rfl | hvw := eq_or_ne v w
    · simp [hw, hw']
    · rw [hpc v hvw]
  · intro q x hx
    rw [hg, hpushed]
    exact h.queued q x (hqueue q x hx)
  · intro v
    rw [hsig, hlot]
    obtain rfl | hvw := eq_or_ne v w
    · exact hle
    · rw [hsaved v hvw]
      exact h.saved_le v
  · intro q x hx
    refine .inr ⟨hqueue q x hx, ?_⟩
    intro k hk
    rw [hpusher]
    exact .inr hk

/-- Worker `w` goes to a place from which it will visit all queues, after taking from `q`. -/
theorem Inv.awake (h : Inv s) {xs : List ℕ} (hxs : ∀ x ∈ xs, x ∈ s.queue q)
    (hw : s.pc w ≠ .absent) (hp : p = .running ∨ p = .remote ∨ p = .save) :
    Inv ((s.setQueue q xs).goto w p) := by
  have hpc : ((s.setQueue q xs).goto w p).pc w = p := update_self ..
  have hwatch : ∀ q', ((s.setQueue q xs).goto w p).Watches w q' := by
    intro q'
    unfold State.Watches
    rw [hpc]
    rcases hp with rfl | rfl | rfl <;> trivial
  refine h.worker (w := w) rfl rfl rfl rfl rfl ?_ (fun v hv => update_of_ne hv ..)
    (fun _ _ => rfl) hw ?_ (h.saved_le w) (fun q' _ _ => hwatch q') (fun _ => hwatch)
  · intro q' x hx
    obtain rfl | hne := eq_or_ne q' q
    · simp only [State.goto, State.setQueue, update_self] at hx
      exact hxs x hx
    · simpa [State.goto, State.setQueue, hne] using hx
  · rw [hpc]
    rcases hp with rfl | rfl | rfl <;> simp

theorem Inv.awake_goto (h : Inv s) (hw : s.pc w ≠ .absent)
    (hp : p = .running ∨ p = .remote ∨ p = .save) : Inv (s.goto w p) := by
  have hsame : s.setQueue ⟨w, false⟩ (s.queue ⟨w, false⟩) = s := by
    rw [State.setQueue, update_eq_self]
  have := h.awake (q := ⟨w, false⟩) (fun _ => id) hw hp
  rwa [hsame] at this

theorem Inv.scans (h : Inv s) (hw : s.pc w ≠ .absent) (hw' : s.pc w ≠ .parked)
    (hp : p ≠ .absent)
    (hwatch : ∀ q, s.queue q ≠ [] → s.Watches w q → (s.goto w p).Watches w q) :
    Inv (s.goto w p) := by
  have hpc : (s.goto w p).pc w = p := update_self ..
  exact h.worker (w := w) rfl rfl rfl rfl rfl (fun _ _ => id)
    (fun v hv => update_of_ne hv ..) (fun _ _ => rfl) hw (by rw [hpc]; exact hp)
    (h.saved_le w) hwatch (fun heq => absurd heq hw')

end

omit [DecidableEq ι] in
theorem mem_visit (h : q.group ∈ order) : q ∈ visit order := by
  refine List.mem_flatMap.2 ⟨q.group, h, ?_⟩
  obtain ⟨g, r⟩ := q
  cases r <;> simp

/-- Within fewer than `2 ^ 31` signals the words tell the counters apart. -/
theorem word_eq {c d : ℕ} (hle : c ≤ d) (hfew : d - c < 2 ^ 31) (h : word d = word c) : c = d := by
  unfold word at h
  lia

omit [DecidableEq κ] in
theorem goStep_inv (h : Inv s)
    (hfew : s.pc w = .park → word (s.signals (s.lot w)) = word (s.saved w) →
      s.signals (s.lot w) - s.saved w < 2 ^ 31) :
    Inv (goStep s w order) := by
  unfold goStep
  split
  next hpc =>
    have hw : s.pc w ≠ .absent := by simp [hpc]
    split
    · exact h.awake_goto hw (by simp)
    · have := h.awake (q := ⟨w, false⟩) (p := .running) (fun x hx => List.dropLast_subset _ hx) hw
        (.inl rfl)
      have heq : update s.pc w .running = s.pc := by
        rw [← hpc, update_eq_self]
      rwa [State.goto, State.setQueue, heq] at this
  next hpc =>
    have hw : s.pc w ≠ .absent := by simp [hpc]
    split
    · exact h.awake_goto hw (by simp)
    next x xs hq =>
      exact h.awake (fun y hy => by rw [hq]; exact List.mem_cons_of_mem x hy) hw (.inl rfl)
  next hpc =>
    have hw : s.pc w ≠ .absent := by simp [hpc]
    -- the counter is saved before the queues are visited
    have hwatch : ∀ q, State.Watches ({ s with
        saved := update s.saved w (s.signals (s.lot w)) }.goto w .load) w q := by
      intro q
      simp [State.Watches, State.goto]
    refine h.worker (w := w) rfl rfl rfl rfl rfl (fun _ _ => id)
      (fun v hv => update_of_ne hv ..) (fun v hv => update_of_ne hv ..) hw ?_ ?_
      (fun q _ _ => hwatch q) (fun _ => hwatch)
    · simp [State.goto]
    · simp [State.goto]
  next hpc =>
    have hw : s.pc w ≠ .absent := by simp [hpc]
    split
    next hall =>
      refine h.scans hw (by simp [hpc]) (by simp) ?_
      intro q hq _
      obtain ⟨x, hx⟩ := List.exists_mem_of_ne_nil _ hq
      have hin : q ∈ visit order := mem_visit (hall _ (h.queued q x hx).1)
      simp [State.Watches, State.goto, hin]
    · exact h
  next hpc =>
    refine h.scans (by simp [hpc]) (by simp [hpc]) (by simp) ?_
    intro q _ hq
    simpa [State.Watches, State.goto, hpc] using hq
  next q qs hpc =>
    have hw : s.pc w ≠ .absent := by simp [hpc]
    split
    next hnil =>
      refine h.scans hw (by simp [hpc]) (by simp) ?_
      intro q' hne hq'
      have hqq : q' ≠ q := fun heq => hne (heq ▸ hnil)
      simpa [State.Watches, State.goto, hpc, hqq] using hq'
    next x xs hq =>
      exact h.awake (fun y hy => by rw [hq]; exact List.mem_cons_of_mem x hy) hw (.inl rfl)
  next hpc =>
    have hw : s.pc w ≠ .absent := by simp [hpc]
    split
    next hword =>
      have heq := word_eq (h.saved_le w) (hfew hpc hword) hword
      refine h.scans hw (by simp [hpc]) (by simp) ?_
      intro q _ hq
      simp only [State.Watches, hpc] at hq
      lia
    · exact h.awake_goto hw (by simp)
  · exact h
  · exact h

omit [DecidableEq κ] in
theorem addWorker_inv (h : Inv s) (hpc : s.pc w = .absent) (hnew : w ∉ s.groups) :
    Inv ({ s with
      groups := s.groups ++ [w]
      lot := update s.lot w l
      saved := update s.saved w 0 }.goto w .park) := by
  set s' := ({ s with
      groups := s.groups ++ [w]
      lot := update s.lot w l
      saved := update s.saved w 0 }.goto w .park) with hs'
  have hself : s'.pc w = .park := update_self ..
  have hother : ∀ v, v ≠ w → s'.pc v = s.pc v := fun v hv => update_of_ne hv ..
  have hlot : ∀ v, v ≠ w → s'.lot v = s.lot v := fun v hv => update_of_ne hv ..
  have hsaved : ∀ v, v ≠ w → s'.saved v = s.saved v := fun v hv => update_of_ne hv ..
  have hmem : ∀ v, v ∈ s'.groups ↔ v ∈ s.groups ∨ v = w := by
    intro v
    simp [hs', State.goto]
  have he : Evolves s s' := by
    refine ⟨fun v hv => (hmem v).2 (.inl hv), fun _ => Nat.le_refl _, le_rfl,
      fun _ _ hx _ => hx, ?_, ?_⟩
    · intro v q _ hv
      have hvw : v ≠ w := by
        rintro rfl
        simp [State.Watches, hpc] at hv
      exact hv.mono (hother v hvw) (hsaved v hvw) (hlot v hvw) (fun _ => Nat.le_refl _)
    · intro v hv
      obtain rfl | hvw := eq_or_ne v w
      · exact .inr ⟨hnew, hself, update_self ..⟩
      · exact .inl ⟨((hmem v).1 hv).resolve_right hvw, hlot v hvw,
          fun hp => .inl ((hother v hvw).trans hp)⟩
  refine h.evolves he ?_ ?_ ?_ (fun _ => .inl rfl) ?_
  · intro v
    rw [hmem]
    obtain rfl | hvw := eq_or_ne v w
    · simp [hself]
    · rw [hother v hvw, ← h.groups]
      simp [hvw]
  · intro q x hx
    exact ⟨(hmem _).2 (.inl (h.queued q x hx).1), (h.queued q x hx).2⟩
  · intro v
    obtain rfl | hvw := eq_or_ne v w
    · simp [hs', State.goto]
    · rw [hsaved v hvw, hlot v hvw]
      exact h.saved_le v
  · intro q x hx
    exact .inr ⟨hx, fun k hk => .inr hk⟩

omit [DecidableEq ι] in
theorem pushTo_evolves {p : Pusher ι} : Evolves s (s.pushTo k p) := by
  refine ⟨fun _ => id, fun _ => Nat.le_refl _, le_rfl, fun _ _ hx _ => hx, ?_, ?_⟩
  · intro v q _ hv
    exact hv.mono rfl rfl rfl (fun _ => Nat.le_refl _)
  · intro v hv
    exact .inl ⟨hv, rfl, .inl⟩

omit [DecidableEq ι] in
/-- Pusher `k` moves on: it has a job, or it is done with one that it need not watch any more. -/
theorem Inv.pushTo (h : Inv s) {p : Pusher ι} (hp : s.Works p)
    (hleft : ∀ x q, (s.pusher k).of x q → x ∈ s.queue q → s.Watched q ∨ p.of x q) :
    Inv (s.pushTo k p) := by
  have hself : (s.pushTo k p).pusher k = p := update_self ..
  have hother : ∀ j, j ≠ k → (s.pushTo k p).pusher j = s.pusher j := fun j hj =>
    update_of_ne hj ..
  refine h.evolves pushTo_evolves h.groups h.queued h.saved_le ?_ ?_
  · intro j
    obtain rfl | hj := eq_or_ne j k
    · rw [hself]
      exact .inr (hp.evolves pushTo_evolves)
    · exact .inl (hother j hj)
  · intro q x hx
    refine .inr ⟨hx, ?_⟩
    intro j hj
    obtain rfl | hjk := eq_or_ne j k
    · rw [hself]
      rcases hleft x q hj hx with hw | hp
      · exact .inl (pushTo_evolves.watched (List.ne_nil_of_mem hx) hw)
      · exact .inr hp
    · rw [hother j hjk]
      exact .inr hj

theorem mem_lots : ∀ l m : Lot, m ∈ [l, l + 1, l + 2, l + 3] := by decide

theorem pushStep_inv (h : Inv s) {extra : ℕ} : Inv (pushStep s k q extra l) := by
  unfold pushStep
  split
  swap
  · exact h
  rename_i hg
  obtain ⟨hidle, hgroup, -⟩ := hg
  set p : Pusher ι := .bump s.pushed q l [l + 1, l + 2, l + 3] (min (1 + extra) 2)
  set s' := ({ s.setQueue q (s.queue q ++ [s.pushed]) with pushed := s.pushed + 1 }.pushTo k p)
    with hs'
  have hself : s'.pusher k = p := update_self ..
  have hother : ∀ j, j ≠ k → s'.pusher j = s.pusher j := fun j hj => update_of_ne hj ..
  have hqueue : ∀ q', ∀ x ∈ s'.queue q', x ∈ s.queue q' ∨ (x = s.pushed ∧ q' = q) := by
    intro q' x hx
    obtain rfl | hne := eq_or_ne q' q
    · simpa [hs', State.pushTo, State.setQueue] using hx
    · left
      simpa [hs', State.pushTo, State.setQueue, hne] using hx
  have he : Evolves s s' := by
    refine ⟨fun _ => id, fun _ => Nat.le_refl _, Nat.le_succ _, ?_, ?_, ?_⟩
    · intro q' x hx hlt
      rcases hqueue q' x hx with hx | ⟨rfl, -⟩
      · exact hx
      · exact absurd hlt (lt_irrefl _)
    · intro v q' _ hv
      exact hv.mono rfl rfl rfl (fun _ => Nat.le_refl _)
    · intro v hv
      exact .inl ⟨hv, rfl, .inl⟩
  refine h.evolves he h.groups ?_ h.saved_le ?_ ?_
  · intro q' x hx
    rcases hqueue q' x hx with hx | ⟨rfl, rfl⟩
    · exact ⟨(h.queued q' x hx).1, Nat.lt_succ_of_lt (h.queued q' x hx).2⟩
    · exact ⟨hgroup, Nat.lt_succ_self _⟩
  · intro j
    obtain rfl | hj := eq_or_ne j k
    · rw [hself]
      refine .inr ⟨Nat.lt_succ_self _, hgroup, ?_, ?_, ?_⟩
      · lia
      · intro m hm
        exact absurd (mem_lots l m) hm
      · intro _
        exact .inr fun v _ => .inl (mem_lots l _)
    · exact .inl (hother j hj)
  · intro q' x hx
    rcases hqueue q' x hx with hx | ⟨rfl, rfl⟩
    · refine .inr ⟨hx, ?_⟩
      intro j hj
      have hjk : j ≠ k := by
        rintro rfl
        rw [hidle] at hj
        exact hj
      rw [hother j hjk]
      exact .inr hj
    · refine .inl ⟨k, ?_⟩
      rw [hself]
      exact ⟨rfl, rfl⟩

/-- The counter of a lot is advanced: whoever was past the queues and not yet asleep will see it. -/
theorem bump_inv (h : Inv s)
    (hk : s.pusher k = .bump x q l todo numTask) :
    Inv ({ s with signals := update s.signals l (s.signals l + 1) }.pushTo k
      (.wake x q l todo numTask)) := by
  set s' : State ι κ := { s with signals := update s.signals l (s.signals l + 1) }
  have hsig : s'.signals l = s.signals l + 1 := update_self ..
  have hne : ∀ m, m ≠ l → s'.signals m = s.signals m := fun m hm => update_of_ne hm ..
  have hmono : ∀ m, s.signals m ≤ s'.signals m := by
    intro m
    obtain rfl | hm := eq_or_ne m l
    · rw [hsig]
      exact Nat.le_succ _
    · exact le_of_eq (hne m hm).symm
  have he : Evolves s s' := by
    refine ⟨fun _ => id, hmono, le_rfl, fun _ _ hx _ => hx, ?_, ?_⟩
    · intro v q _ hv
      exact hv.mono rfl rfl rfl hmono
    · intro v hv
      exact .inl ⟨hv, rfl, .inl⟩
  have h' : Inv s' := h.evolves he h.groups h.queued
    (fun w => le_trans (h.saved_le w) (hmono _)) (fun _ => .inl rfl)
    (fun q x hx => .inr ⟨hx, fun _ hj => .inr hj⟩)
  have hjob : Job s' x q (l :: todo) numTask (fun _ => False) := by
    have := h'.works k
    rwa [show s'.pusher k = _ from hk] at this
  refine h'.pushTo ⟨hjob.known, hjob.group, hjob.pos, ?_, ?_⟩ ?_
  · intro m hm
    obtain rfl | hml := eq_or_ne m l
    · rw [hsig]
      exact Nat.succ_pos _
    · exact hjob.bumped m (by simp [hm, hml])
  · intro hx
    by_cases hwatch : s'.Watched q
    · exact .inl hwatch
    have hall := (hjob.reach hx).resolve_left hwatch
    right
    intro w hw
    rcases hall w hw with hin | hf
    · rcases List.mem_cons.1 hin with hlot | hin
      · right
        refine ⟨?_, hlot⟩
        by_contra hpc
        have hlt : s'.saved w < s'.signals (s'.lot w) := by
          have hle := h.saved_le w
          have hlot : s.lot w = l := hlot
          rw [hlot] at hle ⊢
          rw [hsig]
          exact Nat.lt_succ_of_le hle
        have habs := (h'.groups w).1 hw
        apply hwatch
        refine ⟨w, ?_⟩
        unfold State.Watches
        split <;> simp_all
      · exact .inl hin
    · exact hf.elim
  · intro y r hof hy
    rw [show s'.pusher k = _ from hk] at hof
    exact .inr hof

omit [DecidableEq ι] [DecidableEq κ] in
theorem Job.nextLot {woken : ℕ} {asleep : ι → Prop}
    (h : Job s x q todo numTask asleep)
    (hreach : x ∈ s.queue q → s.Watched q ∨ ∀ w ∈ s.groups, s.lot w ∈ todo) :
    s.Works (nextLot x q todo numTask woken) := by
  unfold ParkingLot.nextLot
  split
  · trivial
  · split
    next hpos =>
      refine ⟨h.known, h.group, hpos, h.bumped, ?_⟩
      intro hx
      rcases hreach hx with hw | hall
      · exact .inl hw
      · exact .inr fun w hw => .inl (hall w hw)
    · trivial

theorem signalStep_inv (h : Inv s) : Inv (signalStep s k w) := by
  unfold signalStep
  split
  · exact h
  next x q l todo numTask hk =>
    exact bump_inv h hk
  next x q l todo numTask hk =>
    split
    next hwaits =>
      -- the woken worker will visit all queues
      have h' : Inv (s.goto w .remote) := h.awake_goto (by simp [hwaits.1]) (by simp)
      have hwatch : ∀ r, (s.goto w .remote).Watched r := by
        intro r
        refine ⟨w, ?_⟩
        simp [State.Watches, State.goto]
      have hjob : Job (s.goto w .remote) x q todo numTask ((s.goto w .remote).Waits l) := by
        have := h'.works k
        rwa [show (s.goto w .remote).pusher k = _ from hk] at this
      exact h'.pushTo (hjob.nextLot fun _ => .inl (hwatch q)) (fun y r _ _ => .inl (hwatch r))
    · split
      next hnone =>
        have hjob : Job s x q todo numTask (s.Waits l) := by
          have := h.works k
          rwa [hk] at this
        have hreach : x ∈ s.queue q → s.Watched q ∨ ∀ v ∈ s.groups, s.lot v ∈ todo := by
          intro hx
          rcases hjob.reach hx with hw | hall
          · exact .inl hw
          · exact .inr fun v hv => (hall v hv).resolve_right (hnone v hv)
        refine h.pushTo (hjob.nextLot hreach) ?_
        intro y r hof hy
        rw [hk] at hof
        obtain ⟨rfl, rfl⟩ := hof
        cases todo with
        | nil =>
          -- all lots were signalled, and the group of the queue has a worker
          rcases hreach hy with hw | hall
          · exact .inl hw
          · cases hall _ hjob.group
        | cons m todo =>
          right
          simp only [ParkingLot.nextLot, Nat.sub_zero]
          rw [if_pos hjob.pos]
          exact ⟨rfl, rfl⟩
      · exact h

theorem step_inv (h : Inv s) {a : Act ι κ} (hfew : FewSignals s a) : Inv (step s a) := by
  cases a with
  | addWorker w l =>
    simp only [step]
    split
    next hnew =>
      exact addWorker_inv h hnew.1 hnew.2
    · exact h
  | go w order => exact goStep_inv h hfew
  | wakeUp w =>
    simp only [step]
    split
    next hpc =>
      exact h.awake_goto (by simp [hpc]) (by simp)
    · exact h
  | push k q extra l => exact pushStep_inv h
  | signal k w => exact signalStep_inv h

end Steps

/-- **No runnable fiber is stranded**, in any interleaving of workers and pushers in which no worker
waits for a counter that has come around since it saved it. -/
theorem run_nothingStranded (acts : List (Act ι κ))
    (hfew : Along step FewSignals (start ι κ) acts) :
    NotStranded (runFrom step (start ι κ) acts) := by
  have h : Inv (runFrom step (start ι κ) acts) :=
    hfew.run (fun s a hs ha => step_inv hs ha) start_inv
  exact h.notStranded

local instance neZero2 : NeZero 2 := ⟨by decide⟩
local instance neZero1 : NeZero 1 := ⟨by decide⟩

/-- Two workers park at once, with the state 0 they were made with. A fiber is pushed into the
remote queue of the first and the signal finds the second worker in the third lot; it steals the
fiber, finds nothing more and parks again. -/
def stealActs : List (Act (Fin 2) (Fin 1)) :=
  [.addWorker 0 3, .addWorker 1 2, .go 0 [], .go 1 [], .push 0 ⟨0, true⟩ 0 0] ++
    List.replicate 6 (.signal 0 1) ++ List.replicate 17 (.go 1 [1, 0])

theorem run_nothingStranded_steal :
    let s := runFrom step (start (Fin 2) (Fin 1)) stealActs
    (∀ w, s.pc w = .parked) ∧ s.pushed = 1 ∧ Along step FewSignals (start (Fin 2) (Fin 1)) stealActs ∧
      NotStranded s := by
  intro s
  have hfew : Along step FewSignals (start (Fin 2) (Fin 1)) stealActs := by decide
  refine ⟨by decide, by decide, hfew, run_nothingStranded stealActs hfew⟩

end Eabase.Fiber.ParkingLot
