import Mathlib.Data.List.Nodup
import Eabase.Fiber.Session

/-!
# Waiting for a session

The lockers of one session and the butex they queue on. The mutex sections are
those of `Fiber.Session`; between its section and its `butex_wait` a locker
carries the value it expects, `butex_wait` compares and links in one step, and
the two wake functions unlink in one step. What a section decided to wake is
woken in a later step, so that every race between the word and the queue is
there.

The word is the only memory that somebody is queued: `contended_ver`. It is
overwritten while woken lockers are on their way, which is harmless as long as
such a locker sets it again. `fiber_session_about_to_destroy` makes it give up
instead, with the word saying nothing about the others.
-/

namespace Eabase.Fiber.SessionWait

open Lib Fiber.Session Function List

variable {ι : Type*} [DecidableEq ι]

/-- Where a thread stands. `entering` is in front of `butex_wait`, `retry` in front of the next
pass of the loop of `lock` (`woken` tells whether somebody woke it or the word had changed), the
last two in front of the wake that their section called for. -/
inductive Pc where
  | idle
  | entering (idVer expected : ℕ)
  | queued (idVer : ℕ)
  | retry (woken : Bool) (idVer : ℕ)
  | wakeOne
  | wakeAll
  deriving DecidableEq

/-- The `Id`, the waiters of its butex from the oldest on, and the threads. -/
structure State (ι : Type*) where
  obj : Id
  waiters : List ι
  pc : ι → Pc

/-- A session just created: live, unlocked, nobody around. -/
def start (ι : Type*) (range : ℕ) (m : Id) : State ι :=
  { obj := createWith range m, waiters := [], pc := fun _ => .idle }

/-- One label of a run. `idVer` is the version of the id that the caller uses. -/
inductive Act (ι : Type*) where
  | lock (i : ι) (idVer : ℕ)
  | trylock (i : ι) (idVer : ℕ)
  | error (i : ι) (idVer : ℕ) (e : PendingError)
  | aboutToDestroy (i : ι) (idVer : ℕ)
  | unlock (i : ι) (idVer : ℕ)
  | unlockAndDestroy (i : ι) (idVer : ℕ)
  | go (i : ι)

section

variable (s : State ι) (i : ι)

/-- Thread `i` goes to `p`. -/
def State.goto (p : Pc) : State ι :=
  { s with pc := update s.pc i p }

/-- One pass of the loop of `fiber_session_lock`. -/
def lockPass (again : Bool) (idVer : ℕ) : State ι :=
  match lockAndResetRange 0 again idVer s.obj with
  | (.wait expected, m) => { s with obj := m }.goto i (.entering idVer expected)
  | (_, m) => { s with obj := m }.goto i .idle

/-- The section of `fiber_session_about_to_destroy` and whether it calls for a wake. -/
def aboutToDestroyPass (idVer : ℕ) : State ι :=
  match aboutToDestroy idVer s.obj with
  | (.ok, m) =>
    { s with obj := m }.goto i (if s.obj.butex = s.obj.contendedVer then .wakeAll else .idle)
  | (_, m) => { s with obj := m }

/-- The section of `fiber_session_unlock` and whether it calls for a wake. -/
def unlockPass (idVer : ℕ) : State ι :=
  match unlock idVer s.obj with
  | (.ok, m) =>
    { s with obj := m }.goto i (if s.obj.butex = s.obj.contendedVer then .wakeOne else .idle)
  | (_, m) => { s with obj := m }

/-- The section of `fiber_session_unlock_and_destroy`. -/
def unlockAndDestroyPass (idVer : ℕ) : State ι :=
  match unlockAndDestroy idVer s.obj with
  | (.ok, m) => { s with obj := m }.goto i .wakeAll
  | (_, m) => { s with obj := m }

end

def Pc.wake : Pc → Pc
  | .queued idVer => .retry true idVer
  | p => p

/-- The threads in `ws` are woken. -/
def wakeThese (pc : ι → Pc) (ws : List ι) (j : ι) : Pc :=
  if j ∈ ws then (pc j).wake else pc j

def goStep (s : State ι) (i : ι) : State ι :=
  match s.pc i with
  | .entering idVer expected =>
    if s.obj.butex = expected then
      { s with waiters := s.waiters ++ [i] }.goto i (.queued idVer)
    else s.goto i (.retry false idVer)
  | .retry _ idVer => lockPass s i true idVer
  | .wakeOne =>
    match s.waiters with
    | [] => s.goto i .idle
    | w :: ws => { s with waiters := ws, pc := wakeThese s.pc [w] }.goto i .idle
  | .wakeAll => { s with waiters := [], pc := wakeThese s.pc s.waiters }.goto i .idle
  | .idle | .queued _ => s

def step (s : State ι) : Act ι → State ι
  | .lock i idVer => if s.pc i = .idle then lockPass s i false idVer else s
  | .trylock i idVer =>
    if s.pc i = .idle then { s with obj := (trylock idVer s.obj).2 } else s
  | .error i idVer e =>
    if s.pc i = .idle then { s with obj := (error2 e idVer s.obj).2 } else s
  | .aboutToDestroy i idVer => if s.pc i = .idle then aboutToDestroyPass s i idVer else s
  | .unlock i idVer => if s.pc i = .idle then unlockPass s i idVer else s
  | .unlockAndDestroy i idVer => if s.pc i = .idle then unlockAndDestroyPass s i idVer else s
  | .go i => goStep s i

/-! ## The property -/

/-- Somebody who is on its way to wake a queued locker: a thread that has not yet issued its
wake, or a woken locker that has not yet looked at the word again. -/
def Pc.onItsWay : Pc → Bool
  | .wakeOne | .wakeAll | .retry true _ => true
  | _ => false

/-- Nobody is queued on an unlocked or destroyed session (both have `*butex == first_ver`)
without somebody on its way. -/
def NotStranded (s : State ι) : Prop :=
  s.obj.butex = s.obj.firstVer → s.waiters ≠ [] → ∃ i, (s.pc i).onItsWay = true

/-- The condition on a step: an `about_to_destroy` that does not find the word contended finds
nobody queued either. -/
def Heeds (s : State ι) : Act ι → Prop
  | .aboutToDestroy _ _ => s.obj.butex ≠ s.obj.contendedVer → s.waiters = []
  | _ => True

instance (s : State ι) : ∀ a, Decidable (Heeds s a)
  | .aboutToDestroy _ _ =>
    inferInstanceAs (Decidable (s.obj.butex ≠ s.obj.contendedVer → s.waiters = []))
  | .lock _ _ | .trylock _ _ | .error _ _ _ | .unlock _ _ | .unlockAndDestroy _ _ | .go _ =>
    isTrue trivial

/-! ## The invariant -/

/-- The object is live with the range from `f` to `l`, or that generation has been destroyed. -/
def Version (f l : ℕ) (m : Id) : Prop :=
  (m.Live (m.butex ≠ m.firstVer) ∧ m.firstVer = f ∧ m.lockedVer = l) ∨
    (m.Dead False ∧ (m.butex = l + 3 ∨ m.butex = 0))

/-- The version with which a thread is inside `lock`. -/
def Pc.locking : Pc → Option ℕ
  | .entering idVer _ | .queued idVer | .retry _ idVer => some idVer
  | _ => none

/-- The invariant. `rescue` carries the property; `closing` says that nobody is left in the
queue of a session that refuses lockers, except for a wake of all on its way. -/
structure Inv (f l : ℕ) (s : State ι) : Prop where
  version : Version f l s.obj
  nodup : s.waiters.Nodup
  queued : ∀ i ∈ s.waiters, ∃ v, s.pc i = .queued v
  entering : ∀ i v e, s.pc i = .entering v e → e = l + 1
  locking : ∀ i, ∀ v ∈ (s.pc i).locking, f ≤ v ∧ v < l
  rescue : s.waiters ≠ [] → s.obj.butex = l + 1 ∨ ∃ i, (s.pc i).onItsWay = true
  closing : s.obj.butex = l + 2 ∨ s.obj.lockedVer = s.obj.firstVer →
    s.waiters = [] ∨ ∃ i, s.pc i = .wakeAll

omit [DecidableEq ι] in
theorem start_inv {range : ℕ} {m : Id} (hm : m.Dead False) (hpos : 0 < range)
    (hle : range ≤ idMaxRange) :
    Inv (createWith range m).firstVer (createWith range m).lockedVer (start ι range m) := by
  have hlive := hm.create hpos hle
  refine ⟨.inl ⟨?_, rfl, rfl⟩, nodup_nil, ?_, ?_, ?_, ?_, fun _ => .inl rfl⟩
  · have hheld : ((createWith range m).butex ≠ (createWith range m).firstVer) = False := by
      simp [createWith]
    rw [start, hheld]
    exact hlive
  · intro i hi
    cases hi
  · intro i v e hi
    cases hi
  · intro i v hv
    cases hv
  · intro h
    exact absurd rfl h

namespace Version

variable {f l : ℕ} {m : Id}

theorem live_of_hasVersion (h : Version f l m) {v : ℕ} (hv : m.hasVersion v = true) :
    m.Live (m.butex ≠ m.firstVer) ∧ m.firstVer = f ∧ m.lockedVer = l := by
  rcases h with hl | hd
  · exact hl
  · rw [hd.1.hasVersion v] at hv
    cases hv

section

variable (h : m.Live (m.butex ≠ m.firstVer) ∧ m.firstVer = f ∧ m.lockedVer = l)
include h

theorem vers :
    f < l ∧ m.contendedVer = l + 1 ∧ m.unlockableVer = l + 2 ∧ m.lockedVer ≠ m.firstVer := by
  obtain ⟨hl, rfl, rfl⟩ := h
  exact ⟨hl.lt, hl.contendedVer_eq, hl.unlockableVer_eq, (Nat.ne_of_lt hl.lt).symm⟩

theorem lockedAs
    {b : ℕ} (hb : b = l ∨ b = l + 1 ∨ b = l + 2) {q : List PendingError} :
    Version f l { m with butex := b, pendingQ := q } := by
  obtain ⟨hl, rfl, rfl⟩ := h
  have hlt := hl.lt
  have hne : b ≠ m.firstVer := by lia
  left
  refine ⟨⟨hl.pos, hl.lt, hl.range, hl.room, .inr hb, by simp, ?_⟩, rfl, rfl⟩
  intro hn
  exact absurd hne hn

theorem unlocked
    (hq : m.pendingQ = []) : Version f l { m with butex := m.firstVer } := by
  obtain ⟨hl, rfl, rfl⟩ := h
  exact .inl ⟨⟨hl.pos, hl.lt, hl.range, hl.room, .inl rfl, by simp, fun _ => hq⟩, rfl, rfl⟩

theorem destroyed :
    Version f l { m with
      butex := m.endVer, joinButex := m.endVer, firstVer := m.endVer, lockedVer := m.endVer
      pendingQ := [] } := by
  obtain ⟨hl, rfl, rfl⟩ := h
  exact .inr ⟨hl.ended, hl.endVer_cases.2⟩

end

end Version

section Steps

variable {s : State ι} {i : ι} {p : Pc} {f l : ℕ} {b : ℕ} {q : List PendingError}

@[simp] theorem goto_self : (s.goto i p).pc i = p := update_self ..

theorem goto_ne {j : ι} (h : j ≠ i) : (s.goto i p).pc j = s.pc j := update_of_ne h ..

section

variable (h : Inv f l s)
include h

/-- A thread that is not queued moves, possibly after a section that changed the object. -/
theorem Inv.move {m : Id} (hi : ∀ v, s.pc i ≠ .queued v) (hm : Version f l m)
    (hp : ∀ v e, p = .entering v e → e = l + 1) (hv : ∀ v ∈ p.locking, f ≤ v ∧ v < l)
    (hrescue : s.waiters ≠ [] →
      m.butex = l + 1 ∨ p.onItsWay = true ∨ ∃ j, j ≠ i ∧ (s.pc j).onItsWay = true)
    (hclosing : m.butex = l + 2 ∨ m.lockedVer = m.firstVer →
      s.waiters = [] ∨ p = .wakeAll ∨ ∃ j, j ≠ i ∧ s.pc j = .wakeAll) :
    Inv f l ({ s with obj := m }.goto i p) := by
  have hne : ∀ j, j ≠ i → ({ s with obj := m }.goto i p).pc j = s.pc j := fun j hj => goto_ne hj
  have hself : ({ s with obj := m }.goto i p).pc i = p := goto_self
  refine ⟨hm, h.nodup, ?_, ?_, ?_, ?_, ?_⟩
  · intro j hj
    obtain ⟨v, hv⟩ := h.queued j hj
    have hji : j ≠ i := fun heq => hi v (heq ▸ hv)
    exact ⟨v, (hne j hji).trans hv⟩
  · intro j v e hj
    obtain rfl | hji := eq_or_ne j i
    · rw [hself] at hj
      exact hp v e hj
    · rw [hne j hji] at hj
      exact h.entering j v e hj
  · intro j v hj
    obtain rfl | hji := eq_or_ne j i
    · rw [hself] at hj
      exact hv v hj
    · rw [hne j hji] at hj
      exact h.locking j v hj
  · intro hw
    rcases hrescue hw with hc | hmine | ⟨j, hji, hj⟩
    · exact .inl hc
    · exact .inr ⟨i, by rw [hself]; exact hmine⟩
    · exact .inr ⟨j, by rw [hne j hji]; exact hj⟩
  · intro hc
    rcases hclosing hc with hw | rfl | ⟨j, hji, hj⟩
    · exact .inl hw
    · exact .inr ⟨i, hself⟩
    · exact .inr ⟨j, by rw [hne j hji]; exact hj⟩

omit [DecidableEq ι] in
theorem Inv.rescue_ne (hi : (s.pc i).onItsWay = false) (hw : s.waiters ≠ []) :
    s.obj.butex = l + 1 ∨ ∃ j, j ≠ i ∧ (s.pc j).onItsWay = true := by
  rcases h.rescue hw with hc | ⟨j, hj⟩
  · exact .inl hc
  · refine .inr ⟨j, ?_, hj⟩
    rintro rfl
    rw [hi] at hj
    cases hj

omit [DecidableEq ι] in
theorem Inv.closing_ne (hi : s.pc i ≠ .wakeAll)
    (hc : s.obj.butex = l + 2 ∨ s.obj.lockedVer = s.obj.firstVer) :
    s.waiters = [] ∨ ∃ j, j ≠ i ∧ s.pc j = .wakeAll := by
  rcases h.closing hc with hw | ⟨j, hj⟩
  · exact .inl hw
  · exact .inr ⟨j, fun heq => hi (heq ▸ hj), hj⟩

/-- A thread leaves a session that refuses it: one about to be destroyed, or destroyed. -/
theorem Inv.leave (hi : ∀ v, s.pc i ≠ .queued v) (hall : s.pc i ≠ .wakeAll)
    (hc : s.obj.butex = l + 2 ∨ s.obj.lockedVer = s.obj.firstVer) :
    Inv f l (s.goto i .idle) := by
  refine h.move (m := s.obj) hi h.version (by simp) (by simp [Pc.locking]) ?_ ?_
  · intro hw
    rcases h.closing_ne hall hc with hnil | ⟨j, hji, hj⟩
    · exact absurd hnil hw
    · exact .inr (.inr ⟨j, hji, by rw [hj]; rfl⟩)
  · intro _
    rcases h.closing_ne hall hc with hnil | hj
    · exact .inl hnil
    · exact .inr (.inr hj)

theorem Inv.stop (hi : ∀ v, s.pc i ≠ .queued v)
    (hon : (s.pc i).onItsWay = false) : Inv f l (s.goto i .idle) := by
  refine h.move (m := s.obj) hi h.version (by simp) (by simp [Pc.locking]) ?_ ?_
  · intro hw
    rcases h.rescue_ne hon hw with hc | hj
    · exact .inl hc
    · exact .inr (.inr hj)
  · intro hc
    rcases h.closing_ne (i := i) (by intro heq; rw [heq] at hon; cases hon) hc with hnil | hj
    · exact .inl hnil
    · exact .inr (.inr hj)

theorem lockPass_inv {again : Bool} {idVer : ℕ}
    (hpc : (s.pc i = .idle ∧ again = false) ∨ ∃ w, s.pc i = .retry w idVer ∧ again = true) :
    Inv f l (lockPass s i again idVer) := by
  have hqueued : ∀ v, s.pc i ≠ .queued v := by
    intro v
    rcases hpc with ⟨hpc, -⟩ | ⟨w, hpc, -⟩ <;> rw [hpc] <;> simp
  have hall : s.pc i ≠ .wakeAll := by
    rcases hpc with ⟨hpc, -⟩ | ⟨w, hpc, -⟩ <;> rw [hpc] <;> simp
  unfold lockPass lockAndResetRange
  by_cases hv : s.obj.hasVersion idVer = true
  swap
  · -- an id out of the range: somebody inside `lock` only meets this once it is destroyed
    rw [if_pos hv]
    rcases hpc with ⟨hpc, -⟩ | ⟨w, hpc, -⟩
    · exact h.stop hqueued (by rw [hpc]; rfl)
    · refine h.leave hqueued hall (.inr ?_)
      rcases h.version with ⟨-, hf, hl⟩ | ⟨hd, -⟩
      · have := h.locking i idVer (by rw [hpc]; rfl)
        rw [← hf, ← hl] at this
        exact absurd (Id.Live.hasVersion_iff.2 this) hv
      · exact hd.locked
  rw [if_neg (by simp [hv])]
  have hlive := h.version.live_of_hasVersion hv
  obtain ⟨hfl, hcont, hunl, hlf⟩ := Version.vers hlive
  have hrange : f ≤ idVer ∧ idVer < l := by
    have := Id.Live.hasVersion_iff.1 hv
    rw [hlive.2.1, hlive.2.2] at this
    exact this
  by_cases hfree : s.obj.butex = s.obj.firstVer
  · rw [if_pos hfree]
    rcases hpc with ⟨hpc, rfl⟩ | ⟨w, hpc, rfl⟩
    · have hm := Version.lockedAs hlive (b := l) (.inl rfl) (q := s.obj.pendingQ)
      have heq : ({ s.obj with lockedVer := resetRange 0 s.obj, butex := s.obj.lockedVer } : Id) =
          { s.obj with butex := l, pendingQ := s.obj.pendingQ } := by
        simp [resetRange, hlive.2.2]
      simp only [resetRange, if_true, Bool.false_eq_true, if_false] at heq ⊢
      rw [heq]
      refine h.move hqueued hm (by simp) (by simp [Pc.locking]) ?_ ?_
      · intro hw
        rcases h.rescue_ne (i := i) (by rw [hpc]; rfl) hw with hc | hj
        · rw [hfree, hlive.2.1] at hc
          lia
        · exact .inr (.inr hj)
      · intro hc
        simp only at hc
        lia
    · have hm := Version.lockedAs hlive (b := l + 1) (.inr (.inl rfl)) (q := s.obj.pendingQ)
      have heq : ({ s.obj with lockedVer := resetRange 0 s.obj, butex := s.obj.contendedVer } : Id) =
          { s.obj with butex := l + 1, pendingQ := s.obj.pendingQ } := by
        simp [resetRange, hcont]
      simp only [resetRange, if_true] at heq ⊢
      rw [heq]
      refine h.move hqueued hm (by simp) (by simp [Pc.locking]) (fun _ => .inl rfl) ?_
      intro hc
      simp only at hc
      lia
  · rw [if_neg hfree]
    by_cases hclosing : s.obj.butex = s.obj.unlockableVer
    · rw [if_neg (by simp [hclosing])]
      exact h.leave hqueued hall (.inl (hclosing.trans hunl))
    · rw [if_pos hclosing]
      have hm := Version.lockedAs hlive (b := l + 1) (.inr (.inl rfl)) (q := s.obj.pendingQ)
      simp only [hcont]
      refine h.move hqueued hm ?_ ?_ (fun _ => .inl rfl) ?_
      · intro v e heq
        cases heq
        rfl
      · intro v hv'
        cases hv'
        exact hrange
      · intro hc
        simp only at hc
        lia

/-- The section of an idle thread that leaves the session locked as `b`, and where the
thread goes on. -/
theorem Inv.lockedBy (hpc : s.pc i = .idle)
    (hlive : s.obj.Live (s.obj.butex ≠ s.obj.firstVer) ∧ s.obj.firstVer = f ∧ s.obj.lockedVer = l)
    (hb : b = l ∨ b = l + 1 ∨ b = l + 2)
    (hp : p = .idle ∨ p = .wakeAll) (hmark : s.obj.butex = l + 1 → b = l + 1 ∨ p = .wakeAll)
    (hclosing : b = l + 2 → s.obj.butex = l + 2 ∨ s.waiters = [] ∨ p = .wakeAll) :
    Inv f l ({ s with obj := { s.obj with butex := b, pendingQ := q } }.goto i p) := by
  obtain ⟨-, -, -, hlf⟩ := Version.vers hlive
  refine h.move (by simp [hpc]) (.lockedAs hlive hb) ?_ ?_ ?_ ?_
  · rintro v e rfl
    rcases hp with hp | hp <;> cases hp
  · intro v hv
    rcases hp with rfl | rfl <;> cases hv
  · intro hw
    rcases h.rescue_ne (i := i) (by rw [hpc]; rfl) hw with hc | hj
    · rcases hmark hc with hb' | rfl
      · exact .inl hb'
      · exact .inr (.inl rfl)
    · exact .inr (.inr hj)
  · intro hc
    rcases hclosing (hc.resolve_right hlf) with hu | hnil | rfl
    · rcases h.closing_ne (i := i) (by simp [hpc]) (.inl hu) with hnil | hj
      · exact .inl hnil
      · exact .inr (.inr hj)
    · exact .inl hnil
    · exact .inr (.inl rfl)

end

theorem goto_same (h : s.pc i = p) : s.goto i p = s := by
  unfold State.goto
  rw [← h, update_eq_self]

section

variable (h : Inv f l s)
include h

section

variable (hpc : s.pc i = .idle)
include hpc

theorem Inv.lockedIn
    (hlive : s.obj.Live (s.obj.butex ≠ s.obj.firstVer) ∧ s.obj.firstVer = f ∧ s.obj.lockedVer = l)
    (hb : b = l ∨ b = l + 1 ∨ b = l + 2)
    (hmark : s.obj.butex = l + 1 → b = l + 1) (hclosing : b = l + 2 → s.obj.butex = l + 2) :
    Inv f l { s with obj := { s.obj with butex := b, pendingQ := q } } := by
  have hinv := h.lockedBy hpc hlive (q := q) hb (.inl rfl) (fun hc => .inl (hmark hc))
    (fun hc => .inl (hclosing hc))
  have hsame : ({ s with obj := { s.obj with butex := b, pendingQ := q } } : State ι).goto i .idle =
      { s with obj := { s.obj with butex := b, pendingQ := q } } := goto_same hpc
  rw [hsame] at hinv
  exact hinv

theorem trylock_inv (idVer : ℕ) :
    Inv f l { s with obj := (trylock idVer s.obj).2 } := by
  unfold trylock
  split
  · exact h
  next hv =>
    have hlive := h.version.live_of_hasVersion (not_not.1 hv)
    obtain ⟨hfl, -, -, -⟩ := Version.vers hlive
    split
    · exact h
    next hfree =>
      rw [not_not, hlive.2.1] at hfree
      exact h.lockedIn hpc hlive (.inl hlive.2.2) (by lia) (by lia)

theorem error_inv (idVer : ℕ) (e : PendingError) :
    Inv f l { s with obj := (error2 e idVer s.obj).2 } := by
  unfold error2
  split
  · exact h
  next hv =>
    have hlive := h.version.live_of_hasVersion (not_not.1 hv)
    obtain ⟨hfl, -, -, -⟩ := Version.vers hlive
    split
    next hfree =>
      rw [hlive.2.1] at hfree
      exact h.lockedIn hpc hlive (.inl hlive.2.2) (by lia) (by lia)
    next hlocked =>
      have hb := hlive.1.word.resolve_left hlocked
      rw [hlive.2.2] at hb
      exact h.lockedIn hpc hlive hb id id

theorem aboutToDestroyPass_inv (idVer : ℕ)
    (hc : s.obj.butex ≠ s.obj.contendedVer → s.waiters = []) :
    Inv f l (aboutToDestroyPass s i idVer) := by
  unfold aboutToDestroyPass aboutToDestroy
  by_cases hv : s.obj.hasVersion idVer = true
  swap
  · rw [if_pos hv]
    exact h
  rw [if_neg (by simp [hv])]
  have hlive := h.version.live_of_hasVersion hv
  obtain ⟨hfl, hcont, hunl, -⟩ := Version.vers hlive
  by_cases hfree : s.obj.butex = s.obj.firstVer
  · rw [if_pos hfree]
    exact h
  · rw [if_neg hfree]
    simp only [hunl, hcont] at hc ⊢
    refine h.lockedBy hpc hlive (q := s.obj.pendingQ) (.inr (.inr rfl)) ?_ ?_ ?_
    · split
      · exact .inr rfl
      · exact .inl rfl
    · intro hmark
      right
      rw [if_pos hmark]
    · intro _
      by_cases hmark : s.obj.butex = l + 1
      · right
        right
        rw [if_pos hmark]
      · exact .inr (.inl (hc hmark))

theorem unlockPass_inv (idVer : ℕ) :
    Inv f l (unlockPass s i idVer) := by
  unfold unlockPass unlock
  by_cases hv : s.obj.hasVersion idVer = true
  swap
  · rw [if_pos hv]
    exact h
  rw [if_neg (by simp [hv])]
  have hlive := h.version.live_of_hasVersion hv
  obtain ⟨hfl, hcont, hunl, hlf⟩ := Version.vers hlive
  by_cases hfree : s.obj.butex = s.obj.firstVer
  · rw [if_pos hfree]
    exact h
  rw [if_neg hfree]
  cases hq : s.obj.pendingQ with
  | cons front rest =>
    have hb := hlive.1.word.resolve_left hfree
    rw [hlive.2.2] at hb
    exact h.lockedIn hpc hlive hb id id
  | nil =>
    simp only [hcont]
    have hver := Version.unlocked hlive hq
    rw [hq] at hver
    refine h.move (by simp [hpc]) hver ?_ ?_ ?_ ?_
    · intro v e heq
      split at heq <;> cases heq
    · intro v hv'
      split at hv' <;> cases hv'
    · intro hw
      rcases h.rescue_ne (i := i) (by rw [hpc]; rfl) hw with hc | hj
      · right
        left
        rw [if_pos hc]
        rfl
      · exact .inr (.inr hj)
    · rintro (hc | hc)
      · simp only [hlive.2.1] at hc
        lia
      · exact absurd hc hlf

theorem unlockAndDestroyPass_inv (idVer : ℕ) :
    Inv f l (unlockAndDestroyPass s i idVer) := by
  unfold unlockAndDestroyPass unlockAndDestroy
  by_cases hv : s.obj.hasVersion idVer = true
  swap
  · rw [if_pos hv]
    exact h
  rw [if_neg (by simp [hv])]
  have hlive := h.version.live_of_hasVersion hv
  by_cases hfree : s.obj.butex = s.obj.firstVer
  · rw [if_pos hfree]
    exact h
  · rw [if_neg hfree]
    exact h.move (by simp [hpc]) (.destroyed hlive) (by simp) (by simp [Pc.locking])
      (fun _ => .inr (.inl rfl)) (fun _ => .inr (.inl rfl))

end

/-- `butex_wait` finds the word contended and links the caller. -/
theorem Inv.link {v e : ℕ} (hpc : s.pc i = .entering v e)
    (hword : s.obj.butex = e) :
    Inv f l ({ s with waiters := s.waiters ++ [i] }.goto i (.queued v)) := by
  obtain rfl := h.entering i v e hpc
  have hne : ∀ j, j ≠ i → ({ s with waiters := s.waiters ++ [i] }.goto i (.queued v)).pc j = s.pc j :=
    fun j hj => goto_ne hj
  have hself : ({ s with waiters := s.waiters ++ [i] }.goto i (.queued v)).pc i = .queued v :=
    goto_self
  have hnot : i ∉ s.waiters := by
    intro hmem
    obtain ⟨u, hu⟩ := h.queued i hmem
    rw [hpc] at hu
    cases hu
  have hlive : s.obj.lockedVer ≠ s.obj.firstVer := by
    rcases h.version with hl | ⟨-, hd | hd⟩
    · exact (Version.vers hl).2.2.2
    · lia
    · lia
  refine ⟨h.version, ?_, ?_, ?_, ?_, fun _ => .inl hword, ?_⟩
  · refine nodup_append.2 ⟨h.nodup, nodup_singleton i, ?_⟩
    intro a ha b hb heq
    rw [mem_singleton] at hb
    exact hnot (hb ▸ heq ▸ ha)
  · intro j hj
    obtain rfl | hji := eq_or_ne j i
    · exact ⟨v, hself⟩
    · rw [hne j hji]
      rcases mem_append.1 hj with hj | hj
      · exact h.queued j hj
      · exact absurd (mem_singleton.1 hj) hji
  · intro j u e hj
    have hji : j ≠ i := by rintro rfl; rw [hself] at hj; cases hj
    rw [hne j hji] at hj
    exact h.entering j u e hj
  · intro j u hj
    obtain rfl | hji := eq_or_ne j i
    · rw [hself] at hj
      exact h.locking j u (by rw [hpc]; exact hj)
    · rw [hne j hji] at hj
      exact h.locking j u hj
  · intro hc
    change s.obj.butex = l + 2 ∨ s.obj.lockedVer = s.obj.firstVer at hc
    lia

theorem Inv.unlink {ws rest : List ι} (hw : s.waiters = ws ++ rest)
    (hsome : ws = [] → rest = []) (hpc : s.pc i = .wakeOne ∨ s.pc i = .wakeAll)
    (hall : s.pc i = .wakeAll → rest = []) :
    Inv f l ({ s with waiters := rest, pc := wakeThese s.pc ws }.goto i .idle) := by
  set s' := ({ s with waiters := rest, pc := wakeThese s.pc ws }.goto i .idle) with hs'
  have hnd := h.nodup
  rw [hw] at hnd
  obtain ⟨-, hndr, hdisj⟩ := nodup_append.1 hnd
  have hwoken : ∀ j ∈ ws, ∃ v, s.pc j = .queued v := fun j hj =>
    h.queued j (hw ▸ mem_append_left rest hj)
  have hi : i ∉ ws := by
    intro hmem
    obtain ⟨v, hv⟩ := hwoken i hmem
    rcases hpc with hpc | hpc <;> rw [hpc] at hv <;> cases hv
  have hself : s'.pc i = .idle := goto_self
  have hin : ∀ j ∈ ws, s'.pc j = (s.pc j).wake := by
    intro j hj
    have hji : j ≠ i := fun heq => hi (heq ▸ hj)
    rw [hs', goto_ne hji]
    exact if_pos hj
  have hout : ∀ j, j ≠ i → j ∉ ws → s'.pc j = s.pc j := by
    intro j hji hj
    rw [hs', goto_ne hji]
    exact if_neg hj
  refine ⟨h.version, hndr, ?_, ?_, ?_, ?_, ?_⟩
  · intro j hj
    obtain ⟨v, hv⟩ := h.queued j (hw ▸ mem_append_right ws hj)
    have hji : j ≠ i := by
      rintro rfl
      rcases hpc with hpc | hpc <;> rw [hpc] at hv <;> cases hv
    have hjws : j ∉ ws := fun hmem => hdisj j hmem j hj rfl
    exact ⟨v, (hout j hji hjws).trans hv⟩
  · intro j v e hj
    have hji : j ≠ i := by rintro rfl; rw [hself] at hj; cases hj
    by_cases hjws : j ∈ ws
    · obtain ⟨u, hu⟩ := hwoken j hjws
      rw [hin j hjws, hu] at hj
      cases hj
    · rw [hout j hji hjws] at hj
      exact h.entering j v e hj
  · intro j v hj
    obtain rfl | hji := eq_or_ne j i
    · rw [hself] at hj
      cases hj
    · by_cases hjws : j ∈ ws
      · obtain ⟨u, hu⟩ := hwoken j hjws
        rw [hin j hjws, hu] at hj
        exact h.locking j v (by rw [hu]; exact hj)
      · rw [hout j hji hjws] at hj
        exact h.locking j v hj
  · intro hne
    cases ws with
    | nil => exact absurd (hsome rfl) hne
    | cons w ws =>
      obtain ⟨u, hu⟩ := hwoken w mem_cons_self
      exact .inr ⟨w, by rw [hin w mem_cons_self, hu]; rfl⟩
  · intro hc
    rcases hpc with hpc | hpc
    · -- a wake of one leaves a wake of all of another thread on its way
      rcases h.closing_ne (i := i) (by simp [hpc]) hc with hnil | ⟨j, hji, hj⟩
      · left
        rw [hw] at hnil
        exact (append_eq_nil_iff.1 hnil).2
      · have hjws : j ∉ ws := by
          intro hmem
          obtain ⟨u, hu⟩ := hwoken j hmem
          rw [hj] at hu
          cases hu
        exact .inr ⟨j, (hout j hji hjws).trans hj⟩
    · exact .inl (hall hpc)

theorem goStep_inv : Inv f l (goStep s i) := by
  unfold goStep
  split
  next v e hpc =>
    split
    next hword =>
      exact h.link hpc hword
    · refine h.move (m := s.obj) (by simp [hpc]) h.version (by simp) ?_ ?_ ?_
      · intro u hu
        exact h.locking i u (by rw [hpc]; exact hu)
      · intro hw
        rcases h.rescue_ne (i := i) (by rw [hpc]; rfl) hw with hc | hj
        · exact .inl hc
        · exact .inr (.inr hj)
      · intro hc
        rcases h.closing_ne (i := i) (by simp [hpc]) hc with hnil | hj
        · exact .inl hnil
        · exact .inr (.inr hj)
  next w v hpc =>
    exact lockPass_inv h (.inr ⟨w, hpc, rfl⟩)
  next hpc =>
    split
    next hnil =>
      exact h.move (m := s.obj) (by simp [hpc]) h.version (by simp) (by simp [Pc.locking])
        (fun hw => absurd hnil hw) (fun _ => .inl hnil)
    next w ws hw =>
      have hw : s.waiters = [w] ++ ws := hw
      exact h.unlink hw (by simp) (.inl hpc) (by simp [hpc])
  next hpc =>
    exact h.unlink (append_nil _).symm (fun _ => rfl) (.inr hpc) (fun _ => rfl)
  · exact h
  · exact h

theorem step_inv {a : Act ι} (hc : Heeds s a) : Inv f l (step s a) := by
  cases a with
  | lock i idVer =>
    simp only [step]
    split
    next hpc =>
      exact lockPass_inv h (.inl ⟨hpc, rfl⟩)
    · exact h
  | trylock i idVer =>
    simp only [step]
    split
    next hpc =>
      exact trylock_inv h hpc idVer
    · exact h
  | error i idVer e =>
    simp only [step]
    split
    next hpc =>
      exact error_inv h hpc idVer e
    · exact h
  | aboutToDestroy i idVer =>
    simp only [step]
    split
    next hpc =>
      exact aboutToDestroyPass_inv h hpc idVer hc
    · exact h
  | unlock i idVer =>
    simp only [step]
    split
    next hpc =>
      exact unlockPass_inv h hpc idVer
    · exact h
  | unlockAndDestroy i idVer =>
    simp only [step]
    split
    next hpc =>
      exact unlockAndDestroyPass_inv h hpc idVer
    · exact h
  | go i => exact goStep_inv h

end

end Steps

omit [DecidableEq ι] in
theorem Inv.notStranded {s : State ι} {f l : ℕ} (h : Inv f l s) : NotStranded s := by
  intro hfree hw
  rcases h.rescue hw with hc | hj
  · rcases h.version with hlive | ⟨hd, hb⟩
    · have := (Version.vers hlive).1
      rw [hfree, hlive.2.1] at hc
      lia
    · lia
  · exact hj

/-- **No locker is stranded** in a run whose `about_to_destroy`s meet the condition, from any
dead slot in which the session is created. -/
theorem run_notStranded {range : ℕ} {m : Id} (hm : m.Dead False) (hpos : 0 < range)
    (hle : range ≤ idMaxRange) (acts : List (Act ι))
    (hc : Along step Heeds (start ι range m) acts) :
    NotStranded (runFrom step (start ι range m) acts) := by
  have h : Inv _ _ (runFrom step (start ι range m) acts) :=
    hc.run (fun s a hs ha => step_inv hs ha) (start_inv hm hpos hle)
  exact h.notStranded

local instance neZero4 : NeZero 4 := ⟨by decide⟩

/-- Thread 0 locks, threads 1 and 2 queue up, thread 0 unlocks and wakes thread 1; before
thread 1 looks at the word again, thread 3 locks. -/
def overtakeActs : List (Act (Fin 4)) :=
  [.lock 0 1, .lock 1 1, .go 1, .lock 2 1, .go 2, .unlock 0 1, .go 0, .trylock 3 1]

def freshId : Id := ⟨0, 0, 0, 0, []⟩

theorem freshId_dead : freshId.Dead False :=
  ⟨rfl, rfl, Nat.two_pow_pos 32, not_false, rfl⟩

/-- Without an `about_to_destroy` the overtaken locker sets the mark again. -/
theorem run_notStranded_overtaken :
    Along step Heeds (start (Fin 4) 1 freshId) (overtakeActs ++ [.go 1, .unlock 3 1]) ∧
      NotStranded (runFrom step (start (Fin 4) 1 freshId)
        (overtakeActs ++ [.go 1, .unlock 3 1])) := by
  have hc : Along step Heeds (start (Fin 4) 1 freshId) (overtakeActs ++ [.go 1, .unlock 3 1]) := by
    decide
  exact ⟨hc, run_notStranded freshId_dead (by decide) (by decide) _ hc⟩

/-- Thread 3 announces the destruction: the word is `locked_ver`, so nobody is woken; thread 1
leaves with `EPERM`; thread 3 changes its mind and unlocks, and thread 2 stays queued on an
unlocked session. -/
theorem aboutToDestroy_strands :
    let s := runFrom step (start (Fin 4) 1 freshId)
      (overtakeActs ++ [.aboutToDestroy 3 1, .go 1, .unlock 3 1])
    s.obj.butex = s.obj.firstVer ∧ s.waiters = [2] ∧ ¬ NotStranded s := by
  intro s
  have hfree : s.obj.butex = s.obj.firstVer := by decide
  have hw : s.waiters = [2] := by decide
  have hnone : ∀ i, (s.pc i).onItsWay = false := by decide
  refine ⟨hfree, hw, ?_⟩
  intro h
  obtain ⟨i, hi⟩ := h hfree (by simp [hw])
  rw [hnone i] at hi
  cases hi

end Eabase.Fiber.SessionWait
