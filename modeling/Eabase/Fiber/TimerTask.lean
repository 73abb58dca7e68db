import Eabase.Fiber.TimerThread

/-!
# The life of a timer task

The `version` of a slot is the version of its task until the task runs, one
more while it runs and two more once it is done or unscheduled, which is also
the version of the next task in the slot. `unschedule` and `run_and_delete`
fight for the slot with one compare-and-swap each.

The slot's uses are counted: with `k` uses the current task has version `2 * k`,
and the place of the slot then says which of the three values the word can
have. Everything is said for slots whose version has not wrapped round.
-/

namespace Eabase.Fiber.TimerThread

open Lib Function List
open TimerPc (pulled)

variable {n : ℕ} {ι : Type*} [DecidableEq ι]

/-! ## The property -/

/-- The event is the scheduling of a task in slot `p`. -/
def Event.schedules (p : ℕ) : Event → Bool
  | .scheduled id => id.slot == p
  | _ => false

/-- How often slot `p` has been used so far. -/
def State.uses (s : State n ι) (p : ℕ) : ℕ := s.history.countP (·.schedules p)

def NoWrap (s : State n ι) : Prop := ∀ p, 2 * s.uses p + 2 < 2 ^ 32

/-- The slot of `id` still carries `id`, on its way to `run_and_delete` or in it. -/
def State.CanRun (s : State n ι) (id : TaskId) : Prop :=
  (s.tasks id.slot).idVersion = id.version ∧ ∃ x, x ≠ Place.pool ∧ s.At id.slot x

/-- Each task runs at most once, and `unschedule` tells the truth. -/
structure Truthful (s : State n ι) : Prop where
  /-- the function is called at most once -/
  once : ∀ id, s.history.count (.ran id) ≤ 1
  /-- and never after an `unschedule` of it returned 0 -/
  notCancelled : ∀ id newer older, s.history = newer ++ .ran id :: older → .cancelled id ∉ older
  /-- `unschedule` returns 1 only between the start of the run and the last store -/
  running : ∀ id, .scheduled id ∈ s.history → (unschedule s id).1 = 1 →
    s.timer = .call id.slot ∧ s.taskId id.slot = id
  /-- the slot is returned at most once per scheduling -/
  returnedOnce : ∀ id, s.history.count (.returned id) ≤ 1
  /-- and not while the task can still run -/
  returnedLast : ∀ id, .returned id ∈ s.history → ¬ s.CanRun id
  /-- nor does it run later -/
  notReturned : ∀ id newer older, s.history = newer ++ .ran id :: older → .returned id ∉ older
  /-- a stale id does nothing -/
  stale : ∀ id, .scheduled id ∈ s.history → s.taskId id.slot ≠ id → unschedule s id = (-1, s)
  /-- the branches that cannot happen do not happen -/
  failed : s.failed = false

/-! ## The invariant -/

/-- The words of a slot in its `k`-th use, by its place. -/
def VersionAt (k : ℕ) (t : Task) : Place n ι → Prop
  | .pool => t.version = 2 * k + 2
  | .call => t.idVersion = 2 * k ∧ t.version = 2 * k + 1
  | .gone => t.idVersion = 2 * k ∧ t.version = 2 * k + 2
  | _ => t.idVersion = 2 * k ∧ (t.version = 2 * k ∨ t.version = 2 * k + 2)

/-- The id of the task that slot `p` was last used for. -/
def State.current (s : State n ι) (p : ℕ) : TaskId := ⟨p, 2 * s.uses p⟩

/-- What the place `x` of slot `p` says about its words and its history. -/
structure SoundAt (s : State n ι) (p : ℕ) (x : Place n ι) : Prop where
  version : VersionAt (s.uses p) (s.tasks p) x
  ran : .ran (s.current p) ∈ s.history → x = .call ∨ x = .gone ∨ x = .pool
  returned : .returned (s.current p) ∈ s.history → x = .pool

def Event.id : Event → TaskId
  | .scheduled id | .ran id | .cancelled id | .returned id => id

open State

structure Sound (s : State n ι) : Prop where
  somewhere : ∀ p, ∃ x, s.At p x
  at_place : ∀ p x, s.At p x → SoundAt s p x
  bounded : ∀ e ∈ s.history, e.id.version ≤ 2 * s.uses e.id.slot
  even : ∀ id, .scheduled id ∈ s.history → ∃ k, id.version = 2 * k
  cancelled : ∀ p, .cancelled (s.current p) ∈ s.history →
    (s.tasks p).version = 2 * s.uses p + 2
  apart : ∀ id, .ran id ∈ s.history → .cancelled id ∉ s.history
  order : ∀ id newer older, s.history = newer ++ .ran id :: older → .returned id ∉ older
  nodup : s.history.Nodup
  failed : s.failed = false

section Consequences

variable {s : State n ι} {id : TaskId}

section

omit [DecidableEq ι]

theorem Sound.scheduled (h : Sound s) (hid : .scheduled id ∈ s.history) :
    ∃ k, k ≤ s.uses id.slot ∧ id.version = 2 * k := by
  obtain ⟨k, hk⟩ := h.even id hid
  have hle := h.bounded _ hid
  simp only [Event.id, hk] at hle
  exact ⟨k, by lia, hk⟩

theorem Sound.unschedule_one (h : Sound s) (hw : NoWrap s)
    (hid : .scheduled id ∈ s.history) (hone : (unschedule s id).1 = 1) :
    s.timer = .call id.slot ∧ s.taskId id.slot = id := by
  obtain ⟨k, hk, hver⟩ := h.scheduled hid
  obtain ⟨x, hx⟩ := h.somewhere id.slot
  have hnw := hw id.slot
  have hodd : (s.tasks id.slot).version = 2 * k + 1 := by
    unfold unschedule at hone
    split at hone
    · cases hone
    · split at hone
      next heq =>
        rw [heq, hver, Nat.mod_eq_of_lt (by lia)]
      · cases hone
  have hv := (h.at_place _ x hx).version
  cases x with
  | call =>
    obtain ⟨hidv, hver'⟩ := hv
    refine ⟨hx, ?_⟩
    have : (s.tasks id.slot).idVersion = id.version := by lia
    simp [taskId, this]
  | pool => exact absurd (hodd.symm.trans hv) (by lia)
  | gone => exact absurd (hodd.symm.trans hv.2) (by lia)
  | _ =>
    rcases hv.2 with hv | hv
    · exact absurd (hodd.symm.trans hv) (by lia)
    · exact absurd (hodd.symm.trans hv) (by lia)

theorem Sound.unschedule_stale (h : Sound s) (hw : NoWrap s)
    (hid : .scheduled id ∈ s.history) (hne : s.taskId id.slot ≠ id) :
    unschedule s id = (-1, s) := by
  obtain ⟨k, hk, hver⟩ := h.scheduled hid
  obtain ⟨x, hx⟩ := h.somewhere id.slot
  have hnw := hw id.slot
  have hidv : (s.tasks id.slot).idVersion ≠ id.version := by
    intro heq
    apply hne
    simp [taskId, heq]
  have hv := (h.at_place _ x hx).version
  have hfar : (s.tasks id.slot).version ≠ 2 * k ∧ (s.tasks id.slot).version ≠ 2 * k + 1 := by
    cases x with
    | pool =>
      have hv : (s.tasks id.slot).version = 2 * s.uses id.slot + 2 := hv
      lia
    | call | gone | insert i | bucket b | pulled | heap | exec =>
      obtain ⟨h1, h2⟩ := hv
      lia
  unfold unschedule
  rw [if_neg (by lia), if_neg (by rw [hver, Nat.mod_eq_of_lt (by lia)]; exact hfar.2)]

theorem Sound.not_canRun (h : Sound s) (hid : .returned id ∈ s.history) :
    ¬ s.CanRun id := by
  rintro ⟨hidv, x, hx, hat⟩
  have hs := h.at_place _ x hat
  have hcur : s.current id.slot = id := by
    have : (s.tasks id.slot).idVersion = 2 * s.uses id.slot := by
      have hv := hs.version
      cases x with
      | pool => exact absurd rfl hx
      | _ => exact hv.1
    cases id
    simp_all [current]
  exact hx (hs.returned (by rw [hcur]; exact hid))

theorem Sound.truthful (h : Sound s) (hw : NoWrap s) : Truthful s where
  once _ := nodup_iff_count_le_one.mp h.nodup _
  notCancelled id newer older heq := by
    intro hmem
    have hran : .ran id ∈ s.history := by rw [heq]; simp
    have hcan : .cancelled id ∈ s.history := by rw [heq]; simp [hmem]
    exact h.apart id hran hcan
  running _ := h.unschedule_one hw
  returnedOnce _ := nodup_iff_count_le_one.1 h.nodup _
  returnedLast _ := h.not_canRun
  notReturned := h.order
  stale _ := h.unschedule_stale hw
  failed := h.failed

end

end Consequences

section Steps

variable {s s' : State n ι} {i : ι} {p q : ℕ} {x y : Place n ι} {z : Place n ι} {k : ℕ}

section

omit [DecidableEq ι]

theorem start_sound : Sound (start n ι) := by
  refine ⟨fun p => ⟨.pool, rfl⟩, ?_, ?_, ?_, ?_, ?_, ?_, nodup_nil, rfl⟩
  · intro p x hx
    have hx : x = .pool := start_placed.unique p x .pool hx rfl
    subst hx
    exact ⟨rfl, fun _ => .inr (.inr rfl), fun _ => rfl⟩
  · intro e he
    cases he
  · intro id hid
    cases hid
  · intro p hp
    cases hp
  · intro id hid
    cases hid
  · intro id newer older heq
    simp [start] at heq

theorem SoundAt.congr (h : SoundAt s p x) (hH : s'.history = s.history)
    (ht : s'.tasks p = s.tasks p) : SoundAt s' p x := by
  have hu : s'.uses p = s.uses p := by rw [uses, hH]; rfl
  have hc : s'.current p = s.current p := by rw [current, hu]; rfl
  refine ⟨?_, ?_, ?_⟩
  · rw [hu, ht]
    exact h.version
  · rw [hc, hH]
    exact h.ran
  · rw [hc, hH]
    exact h.returned

theorem Sound.relocated (h : Sound s) (hH : s'.history = s.history) (ht : s'.tasks = s.tasks)
    (hf : s'.failed = s.failed) (hsome : ∀ p x, s.At p x → ∃ z, s'.At p z)
    (hat : ∀ p z, s'.At p z → SoundAt s p z) : Sound s' := by
  have hu : ∀ p, s'.uses p = s.uses p := fun p => by rw [uses, hH]; rfl
  have hc : ∀ p, s'.current p = s.current p := fun p => by rw [current, hu]; rfl
  refine ⟨?_, ?_, ?_, ?_, ?_, ?_, ?_, ?_, ?_⟩
  · intro p
    obtain ⟨x, hx⟩ := h.somewhere p
    exact hsome p x hx
  · intro p z hz
    exact (hat p z hz).congr hH (by rw [ht])
  · intro e he
    rw [hu]
    exact h.bounded e (hH ▸ he)
  · intro id hid
    exact h.even id (hH ▸ hid)
  · intro p hp
    rw [hc, hH] at hp
    rw [hu, ht]
    exact h.cancelled p hp
  · rw [hH]
    exact h.apart
  · rw [hH]
    exact h.order
  · rw [hH]
    exact h.nodup
  · rw [hf]
    exact h.failed

theorem Sound.stays (h : Sound s) (hat : Stays s s') (hH : s'.history = s.history)
    (ht : s'.tasks = s.tasks) (hf : s'.failed = s.failed) : Sound s' :=
  h.relocated hH ht hf (fun p x hx => ⟨x, (hat p x).2 hx⟩)
    (fun p z hz => h.at_place p z ((hat p z).1 hz))

end

section

omit [DecidableEq ι]

theorem Moves.somewhere (hm : Moves s s' q x y) {p : ℕ}
    (hz : s.At p z) : ∃ w, s'.At p w := by
  obtain ⟨hq, hat⟩ := hm
  obtain rfl | hne := eq_or_ne p q
  · exact ⟨y, (hat p y).2 (.inl ⟨rfl, rfl⟩)⟩
  · exact ⟨z, (hat p z).2 (.inr ⟨hz, fun heq => hne heq.1⟩)⟩

/-- After a move the other slots are where they were, and the slot itself is in one place. -/
theorem Moves.at_ne (hm : Moves s s' q x y) (hne : p ≠ q) (hz : s'.At p z) :
    s.At p z := by
  rcases (hm.2 p z).1 hz with ⟨heq, -⟩ | ⟨hz, -⟩
  · exact absurd heq hne
  · exact hz

theorem Moves.at_self (hm : Moves s s' q x y) (hp : Placed s) (hz : s'.At q z) :
    z = y := by
  rcases (hm.2 q z).1 hz with ⟨-, rfl⟩ | ⟨hz, hne⟩
  · rfl
  · exact absurd ⟨rfl, hp.unique q z x hz hm.1⟩ hne

end

omit [DecidableEq ι] in
theorem Sound.moves (h : Sound s) (hp : Placed s) (hm : Moves s s' q x y)
    (hH : s'.history = s.history) (ht : s'.tasks = s.tasks) (hf : s'.failed = s.failed)
    (hq : SoundAt s q x → SoundAt s q y) : Sound s' := by
  refine h.relocated hH ht hf (fun p z hz => hm.somewhere hz) ?_
  intro p z hz
  obtain rfl | hne := eq_or_ne p q
  · obtain rfl := hm.at_self hp hz
    exact hq (h.at_place p x hm.1)
  · exact h.at_place p z (hm.at_ne hne hz)

omit [DecidableEq ι] in
/-- A step that writes the words of slot `q` and may record an event of its current task. -/
theorem Sound.written (h : Sound s) {e : Option Event} (hH : s'.history = e.toList ++ s.history)
    (he : ∀ a ∈ e, a.id = s.current q ∧ (∀ p, a.schedules p = false) ∧ a ∉ s.history)
    (ht : ∀ p, p ≠ q → s'.tasks p = s.tasks p) (hf : s'.failed = s.failed)
    (hsome : ∀ p x, s.At p x → ∃ z, s'.At p z)
    (hother : ∀ p, p ≠ q → ∀ z, s'.At p z → s.At p z)
    (hself : ∀ z, s'.At q z → SoundAt s' q z)
    (hcancel : .cancelled (s.current q) ∈ s'.history → (s'.tasks q).version = 2 * s.uses q + 2)
    (hapart : .ran (s.current q) ∈ s'.history → .cancelled (s.current q) ∉ s'.history)
    (horder : e = some (.ran (s.current q)) → .returned (s.current q) ∉ s.history) : Sound s' := by
  have hu : ∀ p, s'.uses p = s.uses p := by
    intro p
    cases e with
    | none => rw [uses, hH]; rfl
    | some a => simp [uses, hH, (he a rfl).2.1 p]
  have hc : ∀ p, s'.current p = s.current p := fun p => by rw [current, hu]; rfl
  -- an event of another task is an old one
  have hold : ∀ a ∈ s'.history, a.id ≠ s.current q → a ∈ s.history := by
    intro a ha hne
    rw [hH, mem_append] at ha
    rcases ha with ha | ha
    · exact absurd (he a (by simpa using ha)).1 hne
    · exact ha
  have hcur : ∀ p, p ≠ q → s.current p ≠ s.current q := fun p hne heq =>
    hne (congrArg TaskId.slot heq)
  refine ⟨?_, ?_, ?_, ?_, ?_, ?_, ?_, ?_, ?_⟩
  · intro p
    obtain ⟨x, hx⟩ := h.somewhere p
    exact hsome p x hx
  · intro p z hz
    obtain rfl | hne := eq_or_ne p q
    · exact hself z hz
    · have hsnd := h.at_place p z (hother p hne z hz)
      refine ⟨?_, ?_, ?_⟩
      · rw [hu, ht p hne]
        exact hsnd.version
      · intro hmem
        rw [hc] at hmem
        exact hsnd.ran (hold _ hmem (hcur p hne))
      · intro hmem
        rw [hc] at hmem
        exact hsnd.returned (hold _ hmem (hcur p hne))
  · intro a ha
    rw [hu]
    by_cases hid : a.id = s.current q
    · rw [hid]
      exact Nat.le_refl _
    · exact h.bounded a (hold a ha hid)
  · intro id hid
    rw [hH, mem_append] at hid
    rcases hid with hid | hid
    · have hns := (he (.scheduled id) (by simpa using hid)).2.1 id.slot
      simp [Event.schedules] at hns
    · exact h.even id hid
  · intro p hp
    rw [hc] at hp
    rw [hu]
    obtain rfl | hne := eq_or_ne p q
    · exact hcancel hp
    · rw [ht p hne]
      exact h.cancelled p (hold _ hp (hcur p hne))
  · intro id hran hcan
    by_cases hid : id = s.current q
    · subst hid
      exact hapart hran hcan
    · exact h.apart id (hold _ hran hid) (hold _ hcan hid)
  · intro id newer older heq
    rw [hH] at heq
    cases e with
    | none => exact h.order id newer older heq
    | some a =>
      cases newer with
      | nil =>
        obtain ⟨rfl, rfl⟩ := cons.inj heq
        have hid := (he _ rfl).1
        subst hid
        exact horder rfl
      | cons b newer => exact h.order id newer older (cons.inj heq).2
  · rw [hH]
    cases e with
    | none => exact h.nodup
    | some a => exact nodup_cons.2 ⟨(he a rfl).2.2, h.nodup⟩
  · rw [hf]
    exact h.failed

theorem schedule_sound (h : Sound s) (hp : Placed s) {slot : ℕ} {b : Fin n} {runTime : ℤ}
    (hpc : s.pc i = .idle) (hfree : s.free slot = true) :
    Sound (schedule s i slot b runTime) := by
  have hm : Moves s (schedule s i slot b runTime) slot .pool (.insert i) := schedule_moves hpc hfree
  have hv : (s.tasks slot).version = 2 * s.uses slot + 2 := (h.at_place slot .pool hfree).version
  set s' := schedule s i slot b runTime with hs'
  have hH : s'.history = .scheduled ⟨slot, 2 * s.uses slot + 2⟩ :: s.history := by
    simp [hs', schedule, goto, hv]
  have ht : ∀ p, p ≠ slot → s'.tasks p = s.tasks p := by
    intro p hne
    simp [hs', schedule, goto, hne]
  have hslot : s'.tasks slot =
      { runTime, idVersion := 2 * s.uses slot + 2, version := 2 * s.uses slot + 2 } := by
    simp [hs', schedule, goto, hv]
  have hu : ∀ p, p ≠ slot → s'.uses p = s.uses p := by
    intro p hne
    simp [uses, hH, Event.schedules, hne.symm]
  have huslot : s'.uses slot = s.uses slot + 1 := by
    simp [uses, hH, Event.schedules]
  have hc : ∀ p, p ≠ slot → s'.current p = s.current p := fun p hne => by
    rw [current, hu p hne]; rfl
  -- nothing has happened to the new id
  have hnew : ∀ a ∈ s.history, a.id ≠ ⟨slot, 2 * s.uses slot + 2⟩ := by
    intro a ha heq
    have := h.bounded a ha
    rw [heq] at this
    simp only at this
    lia
  have hcurslot : s'.current slot = ⟨slot, 2 * s.uses slot + 2⟩ := by
    rw [current, huslot]
    rfl
  have hfresh : ∀ a : Event, a.id = s'.current slot → (∀ id, a ≠ .scheduled id) →
      a ∉ s'.history := by
    intro a ha hns hmem
    rw [hH] at hmem
    rcases mem_cons.1 hmem with rfl | hmem
    · exact hns _ rfl
    · exact hnew a hmem (ha.trans hcurslot)
  refine ⟨?_, ?_, ?_, ?_, ?_, ?_, ?_, ?_, h.failed⟩
  · intro p
    obtain ⟨x, hx⟩ := h.somewhere p
    exact hm.somewhere hx
  · intro p z hz
    obtain rfl | hne := eq_or_ne p slot
    · obtain rfl := hm.at_self hp hz
      refine ⟨?_, ?_, ?_⟩
      · rw [hslot, huslot]
        exact ⟨rfl, .inl rfl⟩
      · intro hmem
        exact absurd hmem (hfresh (.ran _) rfl (by simp))
      · intro hmem
        exact absurd hmem (hfresh (.returned _) rfl (by simp))
    · have hsnd := h.at_place p z (hm.at_ne hne hz)
      refine ⟨?_, ?_, ?_⟩
      · rw [hu p hne, ht p hne]
        exact hsnd.version
      · intro hmem
        rw [hc p hne, hH] at hmem
        exact hsnd.ran (by simpa using hmem)
      · intro hmem
        rw [hc p hne, hH] at hmem
        exact hsnd.returned (by simpa using hmem)
  · intro a ha
    rw [hH] at ha
    rcases mem_cons.1 ha with rfl | ha
    · simp only [Event.id, huslot]
      lia
    · have hle := h.bounded a ha
      by_cases hsl : a.id.slot = slot
      · rw [hsl] at hle ⊢
        rw [huslot]
        lia
      · rw [hu _ hsl]
        exact hle
  · intro id hid
    rw [hH] at hid
    rcases mem_cons.1 hid with hid | hid
    · obtain rfl := Event.scheduled.inj hid
      exact ⟨s.uses slot + 1, rfl⟩
    · exact h.even id hid
  · intro p hmem
    obtain rfl | hne := eq_or_ne p slot
    · exact absurd hmem (hfresh (.cancelled _) rfl (by simp))
    · rw [hc p hne, hH] at hmem
      rw [hu p hne, ht p hne]
      exact h.cancelled p (by simpa using hmem)
  · intro id hran hcan
    rw [hH] at hran hcan
    exact h.apart id (by simpa using hran) (by simpa using hcan)
  · intro id newer older heq
    rw [hH] at heq
    cases newer with
    | nil => cases heq
    | cons a newer => exact h.order id newer older (cons.inj heq).2
  · rw [hH]
    exact nodup_cons.2 ⟨fun hmem => hnew _ hmem rfl, h.nodup⟩

omit [DecidableEq ι] in
/-- What is written in `unschedule` is the version of the slot's current task. -/
theorem Sound.current_of_version (h : Sound s) {id : TaskId} (hid : .scheduled id ∈ s.history)
    (hv : (s.tasks id.slot).version = id.version) {x : Place n ι} (hx : s.At id.slot x) :
    id = s.current id.slot ∧ x ≠ .pool ∧ x ≠ .call ∧ x ≠ .gone := by
  obtain ⟨k, hk, hver⟩ := h.scheduled hid
  have hvx := (h.at_place _ x hx).version
  have hkeep : 2 * k = 2 * s.uses id.slot ∧ x ≠ .pool ∧ x ≠ .call ∧ x ≠ .gone := by
    cases x with
    | pool =>
      have hvx : (s.tasks id.slot).version = 2 * s.uses id.slot + 2 := hvx
      lia
    | call =>
      have := hvx.2
      lia
    | gone =>
      have := hvx.2
      lia
    | _ =>
      refine ⟨?_, by simp, by simp, by simp⟩
      rcases hvx.2 with hvx | hvx <;> lia
  refine ⟨?_, hkeep.2⟩
  cases id
  simp only [current, TaskId.mk.injEq, true_and]
  simp only at hver
  rw [hver, hkeep.1]

omit [DecidableEq ι] in
theorem unschedule_sound (h : Sound s) (hp : Placed s) (hw : NoWrap s) {id : TaskId}
    (hid : .scheduled id ∈ s.history) : Sound (unschedule s id).2 := by
  have hstays := unschedule_stays (s := s) id
  unfold unschedule at hstays ⊢
  split at hstays
  swap
  next hv =>
    rw [if_neg hv]
    exact h
  rename_i hv
  rw [if_pos hv]
  obtain ⟨x, hx⟩ := h.somewhere id.slot
  obtain ⟨hcur, hpool, hcall, hgone⟩ := h.current_of_version hid hv hx
  have hver : id.version = 2 * s.uses id.slot := congrArg TaskId.version hcur
  have hmod : (id.version + 2) % 2 ^ 32 = 2 * s.uses id.slot + 2 := by
    have := hw id.slot
    rw [hver]
    exact Nat.mod_eq_of_lt this
  have hran : .ran id ∉ s.history := by
    intro hmem
    rcases (h.at_place _ x hx).ran (hcur ▸ hmem) with rfl | rfl | rfl
    · exact hcall rfl
    · exact hgone rfl
    · exact hpool rfl
  have hreturned : .returned id ∉ s.history := by
    intro hmem
    exact hpool ((h.at_place _ x hx).returned (hcur ▸ hmem))
  have hcancelled : .cancelled id ∉ s.history := by
    intro hmem
    have := h.cancelled id.slot (hcur ▸ hmem)
    lia
  refine h.written (q := id.slot) (e := some (.cancelled id)) rfl ?_ ?_ rfl
    (fun p z hz => ⟨z, (hstays p z).2 hz⟩) (fun p _ z hz => (hstays p z).1 hz) ?_ ?_ ?_ ?_
  · rintro a ⟨⟩
    exact ⟨hcur, fun _ => rfl, hcancelled⟩
  · intro p hne
    simp [setVersion, hne]
  · intro z hz
    obtain rfl := hp.unique _ z x ((hstays _ z).1 hz) hx
    have huses : uses { s.setVersion id.slot ((id.version + 2) % 2 ^ 32) with
        history := .cancelled id :: s.history } id.slot = s.uses id.slot := by
      simp [uses, Event.schedules]
    have hvx := (h.at_place _ z hx).version
    refine ⟨?_, ?_, ?_⟩
    · rw [huses]
      simp only [setVersion, update_self, hmod]
      cases z with
      | pool => exact absurd rfl hpool
      | call => exact absurd rfl hcall
      | gone => exact absurd rfl hgone
      | _ => exact ⟨hvx.1, .inr rfl⟩
    · rw [current, huses]
      intro hmem
      refine absurd ?_ hran
      rw [hcur]
      simpa [current] using hmem
    · rw [current, huses]
      intro hmem
      refine absurd ?_ hreturned
      rw [hcur]
      simpa [current] using hmem
  · intro _
    simp only [setVersion, update_self]
    exact hmod
  · intro hmem
    refine absurd ?_ hran
    rw [hcur]
    simpa using hmem
  · intro heq
    cases heq

def Place.waits : Place n ι → Bool
  | .pool | .call | .gone => false
  | _ => true

omit [DecidableEq ι] in
theorem versionAt_waits {t : Task} (hx : x.waits = true) :
    VersionAt k t x ↔ t.idVersion = 2 * k ∧ (t.version = 2 * k ∨ t.version = 2 * k + 2) := by
  cases x with
  | pool | call | gone => cases hx
  | _ => rfl

namespace SoundAt

section

omit [DecidableEq ι]

theorem not_ran (h : SoundAt s p x) (hx : x.waits = true) : .ran (s.current p) ∉ s.history := by
  intro hmem
  rcases h.ran hmem with rfl | rfl | rfl <;> cases hx

theorem not_returned (h : SoundAt s p x) (hx : x ≠ .pool) :
    .returned (s.current p) ∉ s.history := fun hmem => hx (h.returned hmem)

theorem waits (h : SoundAt s p x) (hx : x.waits = true) (hy : y.waits = true) : SoundAt s p y := by
  refine ⟨?_, fun hmem => absurd hmem (h.not_ran hx), fun hmem => absurd hmem ?_⟩
  · rw [versionAt_waits hy]
    exact (versionAt_waits hx).1 h.version
  · apply h.not_returned
    rintro rfl
    cases hx

theorem gone (h : SoundAt s p x) (hx : x.waits = true)
    (hne : (s.tasks p).version ≠ (s.tasks p).idVersion) : SoundAt s p (.gone : Place n ι) := by
  obtain ⟨hidv, hv⟩ := (versionAt_waits hx).1 h.version
  refine ⟨⟨hidv, ?_⟩, fun hmem => absurd hmem (h.not_ran hx), fun hmem => absurd hmem ?_⟩
  · rw [hidv] at hne
    exact hv.resolve_left hne
  · apply h.not_returned
    rintro rfl
    cases hx

end

end SoundAt

section

omit [DecidableEq ι]

theorem take_sound (h : Sound s) (hk : k < n) (ht : s.timer = .take k) : Sound { s with
      buckets := update s.buckets ⟨k, hk⟩ { tasks := [], nearest := timeMax }
      timer := .sift k (s.buckets ⟨k, hk⟩).tasks } := by
  refine h.relocated rfl rfl rfl ?_ ?_
  · intro p x hx
    by_cases hb : x = .bucket ⟨k, hk⟩
    · subst hb
      exact ⟨.pulled, (take_at hk ht p _).2 (.inl ⟨rfl, hx⟩)⟩
    · exact ⟨x, (take_at hk ht p x).2 (.inr ⟨hx, hb⟩)⟩
  · intro p z hz
    rcases (take_at hk ht p z).1 hz with ⟨rfl, hb⟩ | ⟨hz, -⟩
    · exact (h.at_place p _ hb).waits rfl rfl
    · exact h.at_place p z hz

theorem call_sound (h : Sound s) (hp : Placed s) (hw : NoWrap s) (ht : s.timer = .exec p)
    (hv : (s.tasks p).version = (s.tasks p).idVersion) :
    Sound { s.setVersion p (((s.tasks p).idVersion + 1) % 2 ^ 32) with
      history := .ran (s.taskId p) :: s.history
      timer := .call p } := by
  have hsnd := h.at_place p .exec ht
  obtain ⟨hidv, -⟩ := (versionAt_waits rfl).1 hsnd.version
  have hcur : s.taskId p = s.current p := by rw [taskId, hidv]; rfl
  have hmod : ((s.tasks p).idVersion + 1) % 2 ^ 32 = 2 * s.uses p + 1 := by
    have := hw p
    rw [hidv]
    exact Nat.mod_eq_of_lt (by lia)
  have hcancelled : .cancelled (s.current p) ∉ s.history := by
    intro hmem
    have := h.cancelled p hmem
    lia
  have hm : Moves s { s.setVersion p (((s.tasks p).idVersion + 1) % 2 ^ 32) with
      history := .ran (s.taskId p) :: s.history
      timer := .call p } p .exec .call := call_moves ht
  refine h.written (q := p) (e := some (.ran (s.taskId p))) rfl ?_ ?_ rfl
    (fun q z hz => hm.somewhere hz) (fun q hne z hz => hm.at_ne hne hz) ?_ ?_ ?_ ?_
  · rintro a ⟨⟩
    exact ⟨hcur, fun _ => rfl, hcur ▸ hsnd.not_ran rfl⟩
  · intro q hne
    simp [setVersion, hne]
  · intro z hz
    obtain rfl := hm.at_self hp hz
    refine ⟨?_, fun _ => .inl rfl, ?_⟩
    · have huses : uses { s.setVersion p (((s.tasks p).idVersion + 1) % 2 ^ 32) with
          history := .ran (s.taskId p) :: s.history
          timer := .call p } p = s.uses p := by
        simp [uses, Event.schedules]
      rw [huses]
      simp only [setVersion, update_self, hmod]
      exact ⟨hidv, rfl⟩
    · intro hmem
      refine absurd ?_ (hsnd.not_returned (by simp))
      simpa [current, uses, Event.schedules] using hmem
  · intro hmem
    exact absurd (by simpa using hmem) hcancelled
  · intro _ hmem
    exact hcancelled (by simpa using hmem)
  · intro _
    exact hsnd.not_returned (by simp)

theorem store_sound (h : Sound s) (hp : Placed s) (hw : NoWrap s) (ht : s.timer = .call p) :
    Sound { s.setVersion p (((s.tasks p).idVersion + 2) % 2 ^ 32) with timer := .giveBack p } := by
  have hsnd := h.at_place p .call ht
  obtain ⟨hidv, -⟩ := hsnd.version
  have hmod : ((s.tasks p).idVersion + 2) % 2 ^ 32 = 2 * s.uses p + 2 := by
    rw [hidv]
    exact Nat.mod_eq_of_lt (hw p)
  have hm : Moves s { s.setVersion p (((s.tasks p).idVersion + 2) % 2 ^ 32) with
      timer := .giveBack p } p .call .gone := done_moves (.inr ⟨ht, rfl⟩)
  refine h.written (q := p) (e := none) rfl (by simp) ?_ rfl
    (fun q z hz => hm.somewhere hz) (fun q hne z hz => hm.at_ne hne hz) ?_ ?_ ?_ (by simp)
  · intro q hne
    simp [setVersion, hne]
  · intro z hz
    obtain rfl := hm.at_self hp hz
    refine ⟨?_, fun _ => .inr (.inl rfl), ?_⟩
    · simp only [setVersion, update_self, hmod]
      exact ⟨hidv, rfl⟩
    · intro hmem
      exact absurd hmem (hsnd.not_returned (by simp))
  · intro _
    simp only [setVersion, update_self]
    exact hmod
  · exact h.apart (s.current p)

end

omit [DecidableEq ι] in
theorem give_sound (h : Sound s) (hp : Placed s) {t : TimerPc} {f : Bool}
    (ht : s.timer.gone = some p) (hf : f = s.failed)
    (hm : Moves s { s.returnResource p with failed := f, timer := t } p .gone .pool) :
    Sound { s.returnResource p with failed := f, timer := t } := by
  have hsnd := h.at_place p .gone ht
  obtain ⟨hidv, hv⟩ := hsnd.version
  have hcur : s.taskId p = s.current p := by rw [taskId, hidv]; rfl
  refine h.written (q := p) (e := some (.returned (s.taskId p))) rfl ?_ (fun _ _ => rfl) hf
    (fun q z hz => hm.somewhere hz) (fun q hne z hz => hm.at_ne hne hz) ?_ ?_ ?_ ?_
  · rintro a ⟨⟩
    exact ⟨hcur, fun _ => rfl, hcur ▸ hsnd.not_returned (by simp)⟩
  · intro z hz
    obtain rfl := hm.at_self hp hz
    refine ⟨?_, fun _ => .inr (.inr rfl), fun _ => rfl⟩
    have huses : uses { s.returnResource p with failed := f, timer := t } p = s.uses p := by
      simp [uses, returnResource, Event.schedules]
    rw [huses]
    exact hv
  · intro _
    exact hv
  · intro hran hcan
    exact h.apart (s.current p) (by simpa [returnResource] using hran)
      (by simpa [returnResource] using hcan)
  · intro heq
    cases heq

omit [DecidableEq ι] in
theorem timerStep_sound (h : Sound s) (hp : Placed s) (hw : NoWrap s) (top : ℕ) (now : ℤ) :
    Sound (timerStep s top now) := by
  -- between its sections the thread holds no slot
  have hcalm : ∀ {t : TimerPc} {g : ℤ}, t.Calm → s.timer.Calm →
      Sound { s with nearest := g, timer := t } := fun ht hs =>
    h.stays (calm_stays ht hs) rfl rfl rfl
  unfold timerStep
  split
  next ht =>
    exact hcalm ⟨rfl, rfl, by simp, by simp⟩ (by simp [ht, TimerPc.Calm, pulled, TimerPc.gone])
  next k ht =>
    have hs : s.timer.Calm := by simp [ht, TimerPc.Calm, pulled, TimerPc.gone]
    split
    · split <;> exact hcalm ⟨rfl, rfl, by simp, by simp⟩ hs
    · exact hcalm ⟨rfl, rfl, by simp, by simp⟩ hs
  next k ht =>
    have hs : s.timer.Calm := by simp [ht, TimerPc.Calm, pulled, TimerPc.gone]
    split
    next hk =>
      split
      · exact hcalm ⟨rfl, rfl, by simp, by simp⟩ hs
      · exact take_sound h hk ht
    · exact h
  next k ht =>
    exact hcalm ⟨rfl, rfl, by simp, by simp⟩ (by simp [ht, TimerPc.Calm, pulled, TimerPc.gone])
  next k p ps ht =>
    split
    · exact h.moves hp (push_moves hp ht) rfl rfl rfl (fun hs => hs.waits rfl rfl)
    next hne =>
      exact h.moves hp (sift_moves hp ht) rfl rfl rfl (fun hs => hs.gone rfl hne)
  next k p ps ht =>
    have hgone : s.timer.gone = some p := by rw [ht]; rfl
    have hv := (h.at_place p .gone hgone).version
    refine give_sound h hp hgone ?_ (give_moves hgone (by rw [ht]; rfl) rfl (by simp) (by simp))
    have hmod : ((s.tasks p).idVersion + 2) % 2 ^ 32 = 2 * s.uses p + 2 := by
      rw [hv.1]
      exact Nat.mod_eq_of_lt (hw p)
    rw [hmod]
    simp [hv.2]
  next ht =>
    have hs : s.timer.Calm := by simp [ht, TimerPc.Calm, pulled, TimerPc.gone]
    split
    · exact hcalm ⟨rfl, rfl, by simp, by simp⟩ hs
    · split
      · split <;> exact hcalm ⟨rfl, rfl, by simp, by simp⟩ hs
      · exact h
  next p ht =>
    split
    · exact hcalm ⟨rfl, rfl, by simp, by simp⟩
        (by simp [ht, TimerPc.Calm, pulled, TimerPc.gone])
    · exact h.moves hp (pop_moves hp ht) rfl rfl rfl (fun hs => hs.waits rfl rfl)
  next p ht =>
    simp only
    split
    next hv =>
      exact call_sound h hp hw ht hv
    next hne =>
      have hsnd := h.at_place p .exec ht
      obtain ⟨hidv, hv⟩ := (versionAt_waits rfl).1 hsnd.version
      have hmod : ((s.tasks p).idVersion + 2) % 2 ^ 32 = 2 * s.uses p + 2 := by
        rw [hidv]
        exact Nat.mod_eq_of_lt (hw p)
      split
      · exact h.moves hp (done_moves (.inl ⟨ht, rfl⟩)) rfl rfl rfl (fun hs => hs.gone rfl hne)
      next hne' =>
        rw [hidv] at hne
        exact absurd ((hv.resolve_left hne).trans hmod.symm) hne'
  next p ht =>
    exact store_sound h hp hw ht
  next p ht =>
    have hgone : s.timer.gone = some p := by rw [ht]; rfl
    exact give_sound h hp hgone rfl (give_moves hgone (by rw [ht]; rfl) rfl (by simp) (by simp))
  next T ht =>
    have hs : s.timer.Calm := by simp [ht, TimerPc.Calm, pulled, TimerPc.gone]
    split <;> exact hcalm ⟨rfl, rfl, by simp, by simp⟩ hs
  next T k ht =>
    exact hcalm ⟨rfl, rfl, by simp, by simp⟩ (by simp [ht, TimerPc.Calm, pulled, TimerPc.gone])

theorem step_history (a : Act n ι) : ∃ es, (step s a).history = es ++ s.history := by
  cases a with
  | schedule i slot b runTime =>
    simp only [step]
    split
    · split
      · exact ⟨[_], rfl⟩
      · exact ⟨[], rfl⟩
    · exact ⟨[], rfl⟩
  | go i =>
    simp only [step, insertTask, updateNearest]
    split
    · exact ⟨[], rfl⟩
    · split <;> exact ⟨[], rfl⟩
    · split <;> exact ⟨[], rfl⟩
  | unschedule id =>
    simp only [step, unschedule]
    split
    · split
      · exact ⟨[_], rfl⟩
      · exact ⟨[], rfl⟩
    · exact ⟨[], rfl⟩
  | timer top now =>
    simp only [step]
    unfold timerStep
    split
    case h_6 | h_11 => exact ⟨[_], rfl⟩
    case h_9 =>
      simp only
      split
      · exact ⟨[_], rfl⟩
      · split <;> exact ⟨[], rfl⟩
    all_goals repeat' split
    all_goals exact ⟨[], rfl⟩

theorem NoWrap.of_step {a : Act n ι} (h : NoWrap (step s a)) : NoWrap s := by
  intro p
  obtain ⟨es, hes⟩ := step_history (s := s) a
  have hle : s.uses p ≤ (step s a).uses p := by
    rw [uses, uses, hes, countP_append]
    exact Nat.le_add_left ..
  have := h p
  lia

theorem step_sound (h : Sound s) (hp : Placed s) (a : Act n ι) (hw : NoWrap s) :
    Sound (step s a) := by
  cases a with
  | schedule i slot b runTime =>
    simp only [step]
    split
    next hpc =>
      split
      next hfree =>
        exact schedule_sound h hp hpc hfree
      · exact h
    · exact h
  | go i =>
    simp only [step]
    split
    · exact h
    next slot b hpc =>
      simp only [insertTask]
      split
      · exact h.moves hp (link_moves hpc (by simp)) rfl rfl rfl (fun hs => hs.waits rfl rfl)
      · exact h.moves hp (link_moves hpc (by simp)) rfl rfl rfl (fun hs => hs.waits rfl rfl)
    next runTime hpc =>
      have hstays := updateNearest_stays hpc
      unfold updateNearest at hstays ⊢
      split at hstays
      next hlt =>
        rw [if_pos hlt]
        exact h.stays hstays rfl rfl rfl
      next hge =>
        rw [if_neg hge]
        exact h.stays hstays rfl rfl rfl
  | unschedule id =>
    simp only [step]
    split
    next hid =>
      exact unschedule_sound h hp hw hid
    · exact h
  | timer top now => exact timerStep_sound h hp hw top now

end Steps

theorem placed_sound_keeps :
    Keeps (step (n := n) (ι := ι)) (fun s => Placed s ∧ (NoWrap s → Sound s)) := by
  rintro s a ⟨hp, h⟩
  refine ⟨step_placed hp a, ?_⟩
  intro hw
  exact step_sound (h hw.of_step) hp a hw.of_step

/-- **Each task runs at most once and `unschedule` tells the truth**, in any interleaving of
`schedule`, `unschedule` and the timer thread that has not wrapped the version of a slot. -/
theorem run_truthful (n : ℕ) (acts : List (Act n ι))
    (hw : NoWrap (runFrom step (start n ι) acts)) :
    Truthful (runFrom step (start n ι) acts) := by
  have h := placed_sound_keeps.run (s := start n ι) ⟨start_placed, fun _ => start_sound⟩ acts
  exact (h.2 hw).truthful hw

local instance neZero1 : NeZero 1 := ⟨by decide⟩

/-- A task is scheduled, pulled and run; while it runs, an `unschedule` of it comes too late. The
slot is used again, and the stale id does nothing to the new task. -/
def reuseActs : List (Act 1 (Fin 1)) :=
  [.schedule 0 0 0 5, .go 0, .go 0] ++ List.replicate 9 (.timer 0 7) ++
    [.unschedule ⟨0, 2⟩] ++ List.replicate 2 (.timer 0 7) ++
    [.schedule 0 0 0 9, .go 0, .unschedule ⟨0, 2⟩]

theorem run_truthful_reuse :
    let s := runFrom step (start 1 (Fin 1)) reuseActs
    s.history = [.scheduled ⟨0, 4⟩, .returned ⟨0, 2⟩, .ran ⟨0, 2⟩, .scheduled ⟨0, 2⟩] ∧
      NoWrap s ∧ Truthful s := by
  intro s
  have hH : s.history = [.scheduled ⟨0, 4⟩, .returned ⟨0, 2⟩, .ran ⟨0, 2⟩, .scheduled ⟨0, 2⟩] := by
    decide
  have hw : NoWrap s := by
    intro p
    have hle : s.uses p ≤ s.history.length := countP_le_length
    rw [hH] at hle
    simp only [length_cons, length_nil] at hle
    lia
  exact ⟨hH, hw, run_truthful 1 reuseActs hw⟩

end Eabase.Fiber.TimerThread
