import Eabase.Lib.Machine

/-!
# The versioned lock of a session

`fiber/session.cc`: a `fiber_session_t` names a slot of a `ResourcePool` and a
version. The `Id` in the slot accepts the versions from `first_ver` up to
`locked_ver`, and the word `*butex` says how it is locked: it is `first_ver`
when unlocked and one of the three values from `locked_ver` on otherwise.
Destroying moves all of them past everything used so far, so that an id of an
earlier generation falls out of the range; a create that would run into the
end of the 32-bit space begins again at 1.

The functions are given as the sections they run under `Id::mutex`: each takes
the version of the id and the `Id` and returns what the caller goes on with
and the new `Id`. The machine at the end runs the sections of any number of
threads, on any number of slots, in any order. A thread that waits on a butex
may come back at any time, which covers every way the butex can wake it.
-/

namespace Eabase.Fiber.Session

open Lib Function

def u32 (n : ℕ) : ℕ :=
  n % 2 ^ 32

/-- `make_id`: the slot in the upper half, the version in the lower. -/
def makeId (version slot : ℕ) : ℕ :=
  (slot * 2 ^ 32 + version) % 2 ^ 64

def getSlot (id : ℕ) : ℕ := id / 2 ^ 32

def getVersion (id : ℕ) : ℕ := id % 2 ^ 32

/-- `ID_MAX_RANGE`. -/
def idMaxRange : ℕ := 1024

structure PendingError where
  id : ℕ
  errorCode : ℤ
  errorText : String
  deriving DecidableEq

/-- The part of `Id` that the sections read and write. -/
structure Id where
  firstVer : ℕ
  lockedVer : ℕ
  butex : ℕ
  joinButex : ℕ
  pendingQ : List PendingError
  deriving DecidableEq

namespace Id

def hasVersion (m : Id) (idVer : ℕ) : Bool :=
  m.firstVer ≤ idVer ∧ idVer < m.lockedVer

def contendedVer (m : Id) : ℕ := u32 (m.lockedVer + 1)

def unlockableVer (m : Id) : ℕ := u32 (m.lockedVer + 2)

def lastVer (m : Id) : ℕ := m.unlockableVer

def endVer (m : Id) : ℕ := u32 (m.lastVer + 1)

end Id

/-- What a section returns: an error code, or what the caller does next. `wait` blocks on a butex
with the expected value, `onError` runs the callback of the id (which is locked then). -/
inductive Ret where
  | ok
  | einval
  | eperm
  | ebusy
  | wait (expected : ℕ)
  | onError (e : PendingError)
  deriving DecidableEq

/-! ## The sections -/

/-- The value a create starts from: the word as it was left, or 1 when it is 0 or too close
to the end of the 32-bit space. -/
def startVer (butex : ℕ) : ℕ :=
  if butex = 0 ∨ u32 (butex + idMaxRange + 2) < butex then 1 else butex

/-- `id_create_impl` (`range = 1`) and `id_create_ranged_impl`, once the slot is chosen. -/
def createWith (range : ℕ) (m : Id) : Id :=
  { m with
    butex := startVer m.butex
    joinButex := startVer m.butex
    firstVer := startVer m.butex
    lockedVer := u32 (startVer m.butex + range) }

/-- The `locked_ver` after the range check of `lock_and_reset_range`. -/
def resetRange (range : ℤ) (m : Id) : ℕ :=
  if range = 0 then m.lockedVer
  else if range < 0 ∨ range > idMaxRange ∨ u32 (range.toNat + m.firstVer) ≤ m.lockedVer then
    m.lockedVer
  else u32 (m.firstVer + range.toNat)

/-- One pass of the loop of `fiber_session_lock_and_reset_range`. -/
def lockAndResetRange (range : ℤ) (everContended : Bool) (idVer : ℕ) (m : Id) : Ret × Id :=
  if ¬ m.hasVersion idVer then (.einval, m)
  else if m.butex = m.firstVer then
    let m' := { m with lockedVer := resetRange range m }
    (.ok, { m' with butex := if everContended then m'.contendedVer else m'.lockedVer })
  else if m.butex ≠ m.unlockableVer then
    (.wait m.contendedVer, { m with butex := m.contendedVer })
  else (.eperm, m)

/-- `fiber_session_trylock`. -/
def trylock (idVer : ℕ) (m : Id) : Ret × Id :=
  if ¬ m.hasVersion idVer then (.einval, m)
  else if m.butex ≠ m.firstVer then (.ebusy, m)
  else (.ok, { m with butex := m.lockedVer })

/-- `fiber_session_error2`. -/
def error2 (e : PendingError) (idVer : ℕ) (m : Id) : Ret × Id :=
  if ¬ m.hasVersion idVer then (.einval, m)
  else if m.butex = m.firstVer then (.onError e, { m with butex := m.lockedVer })
  else (.ok, { m with pendingQ := m.pendingQ ++ [e] })

section

variable (idVer : ℕ) (m : Id)

/-- `fiber_session_about_to_destroy`. -/
def aboutToDestroy : Ret × Id :=
  if ¬ m.hasVersion idVer then (.einval, m)
  else if m.butex = m.firstVer then (.eperm, m)
  else (.ok, { m with butex := m.unlockableVer })

/-- `fiber_session_cancel`. -/
def cancel : Ret × Id :=
  if ¬ m.hasVersion idVer then (.einval, m)
  else if m.butex ≠ m.firstVer then (.eperm, m)
  else (.ok, { m with butex := m.endVer, firstVer := m.endVer, lockedVer := m.endVer })

/-- One pass of the loop of `fiber_session_join`. -/
def join : Ret × Id :=
  if ¬ m.hasVersion idVer then (.ok, m) else (.wait m.joinButex, m)

/-- `fiber_session_unlock`. -/
def unlock : Ret × Id :=
  if ¬ m.hasVersion idVer then (.einval, m)
  else if m.butex = m.firstVer then (.eperm, m)
  else
    match m.pendingQ with
    | front :: rest => (.onError front, { m with pendingQ := rest })
    | [] => (.ok, { m with butex := m.firstVer })

/-- `fiber_session_unlock_and_destroy`. -/
def unlockAndDestroy : Ret × Id :=
  if ¬ m.hasVersion idVer then (.einval, m)
  else if m.butex = m.firstVer then (.eperm, m)
  else
    (.ok, { m with
      butex := m.endVer, joinButex := m.endVer, firstVer := m.endVer, lockedVer := m.endVer
      pendingQ := [] })

end

inductive Call where
  | lockAndResetRange (range : ℤ)
  | trylock
  | error2 (errorCode : ℤ) (errorText : String)
  | aboutToDestroy
  | cancel
  | join
  | unlock
  | unlockAndDestroy
  deriving DecidableEq

/-- The section a call runs; `again` is set when it comes back from a butex. -/
def Call.section (c : Call) (again : Bool) (id : ℕ) (m : Id) : Ret × Id :=
  let idVer := getVersion id
  match c with
  | .lockAndResetRange range => Session.lockAndResetRange range again idVer m
  | .trylock => Session.trylock idVer m
  | .error2 errorCode errorText => Session.error2 ⟨id, errorCode, errorText⟩ idVer m
  | .aboutToDestroy => Session.aboutToDestroy idVer m
  | .cancel => Session.cancel idVer m
  | .join => Session.join idVer m
  | .unlock => Session.unlock idVer m
  | .unlockAndDestroy => Session.unlockAndDestroy idVer m

/-- What a call with an id that names no live object returns. -/
def Call.refusal : Call → Ret
  | .join => .ok
  | _ => .einval

open Session

theorem Call.section_stale (c : Call) (again : Bool) {id : ℕ} {m : Id}
    (h : m.hasVersion (getVersion id) = false) : c.section again id m = (c.refusal, m) := by
  cases c <;> simp [Call.section, Call.refusal, Session.lockAndResetRange, Session.trylock,
    Session.error2, Session.aboutToDestroy, Session.cancel, Session.join, Session.unlock,
    Session.unlockAndDestroy, h]

/-! ## One `Id` -/

def Id.live (m : Id) : Prop :=
  m.firstVer < m.lockedVer

/-- A live `Id`: its range and its four states fit in 32 bits, and the word is one of the four.
`held` says whether a thread holds it; an unlocked one has no pending error. -/
structure Id.Live (m : Id) (held : Prop) : Prop where
  pos : 0 < m.firstVer
  lt : m.firstVer < m.lockedVer
  range : m.lockedVer ≤ m.firstVer + idMaxRange
  room : m.firstVer + idMaxRange + 2 < 2 ^ 32
  word : m.butex = m.firstVer ∨ m.butex = m.lockedVer ∨ m.butex = m.lockedVer + 1 ∨
    m.butex = m.lockedVer + 2
  free : m.butex = m.firstVer ↔ ¬ held
  pending : ¬ held → m.pendingQ = []

/-- A destroyed `Id`, or one that was never created. -/
structure Id.Dead (m : Id) (held : Prop) : Prop where
  locked : m.lockedVer = m.firstVer
  word : m.butex = m.firstVer
  small : m.butex < 2 ^ 32
  free : ¬ held
  pending : m.pendingQ = []

theorem Id.Live.contendedVer_eq {m : Id} {held : Prop} (h : m.Live held) :
    m.contendedVer = m.lockedVer + 1 := by
  have hr := h.range
  have hm := h.room
  unfold Id.contendedVer u32
  rw [Nat.mod_eq_of_lt]
  lia

theorem Id.Live.unlockableVer_eq {m : Id} {held : Prop} (h : m.Live held) :
    m.unlockableVer = m.lockedVer + 2 := by
  have hr := h.range
  have hm := h.room
  unfold Id.unlockableVer u32
  rw [Nat.mod_eq_of_lt]
  lia

/-- The next generation begins behind everything this one used, or at the end of the space. -/
theorem Id.Live.endVer_cases {m : Id} {held : Prop} (h : m.Live held) :
    m.endVer < 2 ^ 32 ∧ (m.endVer = m.lockedVer + 3 ∨ m.endVer = 0) := by
  have hr := h.range
  have hm := h.room
  unfold Id.endVer Id.lastVer
  rw [h.unlockableVer_eq]
  unfold u32
  refine ⟨Nat.mod_lt _ (by decide), ?_⟩
  by_cases hlt : m.lockedVer + 2 + 1 < 2 ^ 32
  · exact .inl (Nat.mod_eq_of_lt hlt)
  · right
    rw [show m.lockedVer + 2 + 1 = 2 ^ 32 by lia, Nat.mod_self]

theorem Id.Live.hasVersion_iff {m : Id} {idVer : ℕ} :
    m.hasVersion idVer = true ↔ m.firstVer ≤ idVer ∧ idVer < m.lockedVer := by
  simp [Id.hasVersion]

theorem Id.Dead.hasVersion {m : Id} {held : Prop} (h : m.Dead held) (idVer : ℕ) :
    m.hasVersion idVer = false := by
  have := h.locked
  simp [Id.hasVersion]
  lia

theorem startVer_room {b : ℕ} (hb : b < 2 ^ 32) :
    0 < startVer b ∧ startVer b + idMaxRange + 2 < 2 ^ 32 := by
  unfold startVer
  split
  · decide
  next h =>
    rw [not_or, Nat.not_lt] at h
    refine ⟨Nat.pos_of_ne_zero h.1, ?_⟩
    by_contra hge
    have hlt : u32 (b + idMaxRange + 2) < b := by
      unfold u32
      rw [Nat.mod_eq_sub_mod (by lia), Nat.mod_eq_of_lt] <;> simp only [idMaxRange] at * <;> lia
    lia

variable {range : ℕ}

/-- A create makes the dead `Id` of a free slot live and unlocked. -/
theorem Id.Dead.create {m : Id} {held : Prop} (h : m.Dead held) (hpos : 0 < range)
    (hle : range ≤ idMaxRange) : (createWith range m).Live held := by
  obtain ⟨hstart, hroom⟩ := startVer_room h.small
  have hlocked : u32 (startVer m.butex + range) = startVer m.butex + range :=
    Nat.mod_eq_of_lt (by lia)
  constructor
  · exact hstart
  · simp only [createWith, hlocked]
    lia
  · simp only [createWith, hlocked]
    lia
  · exact hroom
  · exact .inl rfl
  · simp [createWith, h.free]
  · intro _
    exact h.pending

/-- The range check only ever raises `locked_ver`, within the limit. -/
theorem Id.Live.resetRange_le {m : Id} {held : Prop} (h : m.Live held) (range : ℤ) :
    m.lockedVer ≤ resetRange range m ∧ resetRange range m ≤ m.firstVer + idMaxRange := by
  have hr := h.range
  have hm := h.room
  unfold resetRange
  split
  · lia
  · split
    · lia
    next hcheck =>
      rw [not_or, not_or, Int.not_lt, Int.not_lt, Nat.not_le] at hcheck
      obtain ⟨h0, h1, h2⟩ := hcheck
      have hnat : range.toNat ≤ idMaxRange := by lia
      have hlt : range.toNat + m.firstVer < 2 ^ 32 := by lia
      unfold u32 at h2 ⊢
      rw [Nat.mod_eq_of_lt hlt] at h2
      rw [Nat.mod_eq_of_lt (by lia)]
      lia

def Call.acquires : Call → Ret → Bool
  | .lockAndResetRange _, .ok | .trylock, .ok | .error2 _ _, .onError _ => true
  | _, _ => false

/-- The caller has given the id up. -/
def Call.releases : Call → Ret → Bool
  | .unlock, .ok => true
  | _, _ => false

/-- The generation has ended; the caller returns the slot to the pool. -/
def Call.destroys : Call → Ret → Bool
  | .cancel, .ok | .unlockAndDestroy, .ok => true
  | _, _ => false

/-- The functions that only the holder may call. -/
def Call.needsHolder : Call → Bool
  | .aboutToDestroy | .unlock | .unlockAndDestroy => true
  | _ => false

/-- What a section does to a live `Id`, whose state before it is `m` with `held` saying whether
a thread holds it: the caller acquires or releases it, or it is destroyed, or it stays held as
it was. -/
inductive Effect (c : Call) (r : Ret) (m m' : Id) (held : Prop) : Prop where
  | acquire : c.acquires r = true → ¬ held → m'.Live True → m'.firstVer = m.firstVer →
      Effect c r m m' held
  | release : c.releases r = true → held → m'.Live False → m'.firstVer = m.firstVer →
      Effect c r m m' held
  | destroy : c.destroys r = true → (held → c.needsHolder = true) → m'.Dead False →
      m'.firstVer = m.endVer → Effect c r m m' held
  | stay : c.acquires r = false → c.releases r = false → c.destroys r = false → m'.Live held →
      m'.firstVer = m.firstVer → Effect c r m m' held

namespace Id.Live

variable {m : Id} {held : Prop} {idVer id : ℕ} {m' : Id} {r : Ret} {again : Bool}

section

variable (h : m.Live held)
include h

/-- A locked state of a held `Id` may be exchanged for another one. -/
theorem mark (hheld : held) {b : ℕ}
    (hb : b = m.lockedVer ∨ b = m.lockedVer + 1 ∨ b = m.lockedVer + 2) :
    ({ m with butex := b } : Id).Live held := by
  have hlt := h.lt
  refine ⟨h.pos, h.lt, h.range, h.room, .inr hb, ?_, fun hn => absurd hheld hn⟩
  constructor
  · intro heq
    simp only at heq
    lia
  · intro hn
    exact absurd hheld hn

theorem acquired {l b : ℕ} (hl : m.lockedVer ≤ l)
    (hl' : l ≤ m.firstVer + idMaxRange) (hb : b = l ∨ b = l + 1) :
    ({ m with lockedVer := l, butex := b } : Id).Live True := by
  have hlt := h.lt
  refine ⟨h.pos, by simp only; lia, hl', h.room, ?_, ?_, fun hn => absurd trivial hn⟩
  · rcases hb with rfl | rfl
    · exact .inr (.inl rfl)
    · exact .inr (.inr (.inl rfl))
  · constructor
    · intro heq
      simp only at heq
      lia
    · intro hn
      exact absurd trivial hn

theorem ended {j : ℕ} :
    ({ m with butex := m.endVer, joinButex := j, firstVer := m.endVer, lockedVer := m.endVer,
              pendingQ := [] } : Id).Dead False :=
  ⟨rfl, rfl, h.endVer_cases.1, not_false, rfl⟩

section

variable (hv : m.hasVersion idVer = true)
include hv

theorem lockAndResetRange {range : ℤ}
    (heq : lockAndResetRange range again idVer m = (r, m')) :
    Effect (.lockAndResetRange range) r m m' held := by
  unfold Session.lockAndResetRange at heq
  rw [if_neg (by simp [hv])] at heq
  split at heq
  next hfree =>
    cases heq
    obtain ⟨hl, hl'⟩ := h.resetRange_le range
    have hroom := h.room
    refine .acquire rfl (h.free.1 hfree) (h.acquired hl hl' ?_) rfl
    split
    · right
      exact Nat.mod_eq_of_lt (by simp only; lia)
    · left
      rfl
  next hlocked =>
    have hheld : held := not_not.1 fun hn => hlocked (h.free.2 hn)
    split at heq
    · cases heq
      exact .stay rfl rfl rfl (h.mark hheld (.inr (.inl h.contendedVer_eq))) rfl
    · cases heq
      exact .stay rfl rfl rfl h rfl

theorem trylock
    (heq : trylock idVer m = (r, m')) : Effect .trylock r m m' held := by
  unfold Session.trylock at heq
  rw [if_neg (by simp [hv])] at heq
  split at heq
  · cases heq
    exact .stay rfl rfl rfl h rfl
  next hfree =>
    cases heq
    exact .acquire rfl (h.free.1 (not_not.1 hfree)) (h.acquired (Nat.le_refl _) h.range (.inl rfl)) rfl

theorem error2 {e : PendingError}
    (heq : error2 e idVer m = (r, m')) :
    Effect (.error2 e.errorCode e.errorText) r m m' held := by
  unfold Session.error2 at heq
  rw [if_neg (by simp [hv])] at heq
  split at heq
  next hfree =>
    cases heq
    exact .acquire rfl (h.free.1 hfree) (h.acquired (Nat.le_refl _) h.range (.inl rfl)) rfl
  next hlocked =>
    have hheld : held := not_not.1 fun hn => hlocked (h.free.2 hn)
    cases heq
    exact .stay rfl rfl rfl
      ⟨h.pos, h.lt, h.range, h.room, h.word, h.free, fun hn => absurd hheld hn⟩ rfl

theorem aboutToDestroy
    (heq : aboutToDestroy idVer m = (r, m')) : Effect .aboutToDestroy r m m' held := by
  unfold Session.aboutToDestroy at heq
  rw [if_neg (by simp [hv])] at heq
  split at heq
  · cases heq
    exact .stay rfl rfl rfl h rfl
  next hlocked =>
    have hheld : held := not_not.1 fun hn => hlocked (h.free.2 hn)
    cases heq
    exact .stay rfl rfl rfl (h.mark hheld (.inr (.inr h.unlockableVer_eq))) rfl

theorem cancel
    (heq : cancel idVer m = (r, m')) : Effect .cancel r m m' held := by
  unfold Session.cancel at heq
  rw [if_neg (by simp [hv])] at heq
  split at heq
  · cases heq
    exact .stay rfl rfl rfl h rfl
  next hfree =>
    have hpending := h.pending (h.free.1 (not_not.1 hfree))
    cases heq
    refine .destroy rfl (fun hheld => absurd hheld (h.free.1 (not_not.1 hfree))) ?_ rfl
    have hend := h.ended (j := m.joinButex)
    rw [← hpending] at hend
    exact hend

theorem join
    (heq : join idVer m = (r, m')) : Effect .join r m m' held := by
  unfold Session.join at heq
  rw [if_neg (by simp [hv])] at heq
  cases heq
  exact .stay rfl rfl rfl h rfl

theorem unlock (hheld : held)
    (heq : unlock idVer m = (r, m')) : Effect .unlock r m m' held := by
  unfold Session.unlock at heq
  rw [if_neg (by simp [hv])] at heq
  split at heq
  · cases heq
    exact .stay rfl rfl rfl h rfl
  · split at heq
    · cases heq
      exact .stay rfl rfl rfl
        ⟨h.pos, h.lt, h.range, h.room, h.word, h.free, fun hn => absurd hheld hn⟩ rfl
    next hnil =>
      cases heq
      exact .release rfl hheld ⟨h.pos, h.lt, h.range, h.room, .inl rfl, by simp, fun _ => hnil⟩ rfl

theorem unlockAndDestroy
    (heq : unlockAndDestroy idVer m = (r, m')) :
    Effect .unlockAndDestroy r m m' held := by
  unfold Session.unlockAndDestroy at heq
  rw [if_neg (by simp [hv])] at heq
  split at heq
  · cases heq
    exact .stay rfl rfl rfl h rfl
  · cases heq
    exact .destroy rfl (fun _ => rfl) h.ended rfl

end

/-- **The sections of a live `Id`**, all eight of them. -/
theorem effect (hv : m.hasVersion (getVersion id) = true) {c : Call}
    (hown : c.needsHolder = true → held)
    (heq : c.section again id m = (r, m')) : Effect c r m m' held := by
  cases c with
  | lockAndResetRange range => exact h.lockAndResetRange hv heq
  | trylock => exact h.trylock hv heq
  | error2 code text => exact h.error2 hv heq
  | aboutToDestroy => exact h.aboutToDestroy hv heq
  | cancel => exact h.cancel hv heq
  | join => exact h.join hv heq
  | unlock => exact h.unlock hv (hown rfl) heq
  | unlockAndDestroy => exact h.unlockAndDestroy hv heq

end

end Id.Live

/-! ## The pool of ids and the threads -/

variable {ι : Type*} [DecidableEq ι]

inductive Pc where
  | idle
  | blocked (c : Call) (id : ℕ)
  | returning (slot : ℕ)
  deriving DecidableEq

/-- A generation that has ended: the versions it accepted at its end. `epoch` counts how often
the slot's version counter had begun again at 1. -/
structure Generation where
  slot : ℕ
  epoch : ℕ
  firstVer : ℕ
  lockedVer : ℕ

/-- The slots of the pool, who holds what, and the history of the generations. -/
structure State (ι : Type*) where
  slots : ℕ → Id
  constructed : ℕ → Bool
  free : ℕ → Bool
  holds : ι → ℕ → Bool
  pc : ι → Pc
  epoch : ℕ → ℕ
  created : List ℕ
  destroyed : List Generation

def init (ι : Type*) : State ι :=
  { slots := fun _ => ⟨0, 0, 0, 0, []⟩, constructed := fun _ => false, free := fun _ => false
    holds := fun _ _ => false, pc := fun _ => .idle, epoch := fun _ => 0, created := []
    destroyed := [] }

/-- One label of a run: `create` picks the slot that `get_resource` returns, `resume` is the
return from a butex wait, `giveBack` is `return_resource`. -/
inductive Act (ι : Type*) where
  | create (i : ι) (slot : ℕ)
  | createRanged (i : ι) (slot : ℕ) (range : ℤ)
  | call (i : ι) (c : Call) (id : ℕ)
  | resume (i : ι)
  | giveBack (i : ι)

def createIn (s : State ι) (slot range : ℕ) : State ι :=
  let m := s.slots slot
  { s with
    slots := update s.slots slot (createWith range m)
    constructed := update s.constructed slot true
    free := update s.free slot false
    epoch := update s.epoch slot
      (if startVer m.butex = m.butex then s.epoch slot else s.epoch slot + 1)
    created := s.created ++ [makeId (startVer m.butex) slot] }

/-- A section of thread `i`. The functions for the holder are only called by the holder. -/
def exec (s : State ι) (i : ι) (c : Call) (again : Bool) (id : ℕ) : State ι :=
  let slot := getSlot id
  let m := s.slots slot
  if s.constructed slot = false then s
  else if c.needsHolder = true ∧ m.hasVersion (getVersion id) = true ∧ s.holds i slot = false then s
  else
    let out := c.section again id m
    { s with
      slots := update s.slots slot out.2
      holds := update s.holds i (update (s.holds i) slot
        (if c.acquires out.1 then true
         else if c.releases out.1 ∨ c.destroys out.1 then false else s.holds i slot))
      pc := update s.pc i
        (if c.destroys out.1 then .returning slot
         else match out.1 with | .wait _ => .blocked c id | _ => s.pc i)
      destroyed :=
        if c.destroys out.1 then
          s.destroyed ++ [⟨slot, s.epoch slot, m.firstVer, m.lockedVer⟩]
        else s.destroyed }

def step (s : State ι) : Act ι → State ι
  | .create i slot =>
    if s.pc i = .idle ∧ (s.constructed slot = false ∨ s.free slot = true) then createIn s slot 1
    else s
  | .createRanged i slot range =>
    if s.pc i = .idle ∧ (s.constructed slot = false ∨ s.free slot = true) ∧
        1 ≤ range ∧ range ≤ idMaxRange then
      createIn s slot range.toNat
    else s
  | .call i c id => if s.pc i = .idle then exec s i c false id else s
  | .resume i =>
    match s.pc i with
    | .blocked c id => exec { s with pc := update s.pc i .idle } i c true id
    | _ => s
  | .giveBack i =>
    match s.pc i with
    | .returning slot =>
      { s with free := update s.free slot true, pc := update s.pc i .idle }
    | _ => s

/-! ## The invariant -/

def State.Held (s : State ι) (slot : ℕ) : Prop :=
  ∃ i, s.holds i slot = true

def State.IsDead (s : State ι) (slot : ℕ) : Prop :=
  (s.slots slot).Dead (s.Held slot)

structure Inv (s : State ι) : Prop where
  one : ∀ slot i j, s.holds i slot = true → s.holds j slot = true → i = j
  slot : ∀ slot, (s.slots slot).Live (s.Held slot) ∨ s.IsDead slot
  unused : ∀ slot, s.constructed slot = false ∨ s.free slot = true → s.IsDead slot
  returning : ∀ i slot, s.pc i = .returning slot →
    s.IsDead slot ∧ s.constructed slot = true ∧ s.free slot = false
  oneReturning : ∀ i j slot, s.pc i = .returning slot → s.pc j = .returning slot → i = j
  created : ∀ id ∈ s.created, id ≠ 0
  past : ∀ g ∈ s.destroyed, g.epoch ≤ s.epoch g.slot ∧ (g.epoch = s.epoch g.slot →
    g.lockedVer ≤ (s.slots g.slot).firstVer ∨ (s.slots g.slot).lockedVer = 0)

omit [DecidableEq ι] in
theorem init_inv : Inv (init ι) := by
  have hdead : ∀ slot, (init ι).IsDead slot := by
    intro slot
    refine ⟨rfl, rfl, Nat.two_pow_pos 32, ?_, rfl⟩
    rintro ⟨i, hi⟩
    cases hi
  refine ⟨?_, fun slot => .inr (hdead slot), fun slot _ => hdead slot, ?_, ?_, ?_, ?_⟩
  · intro slot i j hi
    cases hi
  · intro i slot hi
    cases hi
  · intro i j slot hi
    cases hi
  · intro id hid
    cases hid
  · intro g hg
    cases hg

theorem makeId_ne_zero {version : ℕ} (slot : ℕ) (hpos : 0 < version) (hlt : version < 2 ^ 32) :
    makeId version slot ≠ 0 := by
  unfold makeId
  lia

omit [DecidableEq ι] in
/-- Slots other than the one an `Id` is written to are as they were. -/
theorem slots_ne {s : State ι} {slot k : ℕ} {m : Id} (h : k ≠ slot) :
    update s.slots slot m k = s.slots k :=
  update_of_ne h ..

omit [DecidableEq ι] in
theorem createIn_inv {s : State ι} (h : Inv s) {slot : ℕ}
    (hfree : s.constructed slot = false ∨ s.free slot = true) (hpos : 0 < range)
    (hle : range ≤ idMaxRange) : Inv (createIn s slot range) := by
  have hdead := h.unused slot hfree
  obtain ⟨hstart, hroom⟩ := startVer_room hdead.small
  have hslot : (createIn s slot range).slots slot = createWith range (s.slots slot) :=
    update_self ..
  have hne : ∀ k, k ≠ slot → (createIn s slot range).slots k = s.slots k := fun k hk => slots_ne hk
  have hkeep : ∀ k, k ≠ slot → s.IsDead k → (createIn s slot range).IsDead k := by
    intro k hk hd
    unfold State.IsDead
    rw [hne k hk]
    exact hd
  refine ⟨h.one, ?_, ?_, ?_, h.oneReturning, ?_, ?_⟩
  · intro k
    obtain rfl | hk := eq_or_ne k slot
    · left
      rw [hslot]
      exact hdead.create hpos hle
    · rcases h.slot k with hl | hd
      · left
        rw [hne k hk]
        exact hl
      · exact .inr (hkeep k hk hd)
  · intro k hk
    obtain rfl | hks := eq_or_ne k slot
    · simp [createIn] at hk
    · refine hkeep k hks (h.unused k ?_)
      simpa [createIn, update_of_ne hks] using hk
  · intro i k hi
    obtain ⟨hd, hc, hf⟩ := h.returning i k hi
    have hks : k ≠ slot := by
      rintro rfl
      rcases hfree with hfree | hfree
      · rw [hc] at hfree
        cases hfree
      · rw [hf] at hfree
        cases hfree
    refine ⟨hkeep k hks hd, ?_, ?_⟩
    · simpa [createIn, update_of_ne hks] using hc
    · simpa [createIn, update_of_ne hks] using hf
  · intro id hid
    rcases List.mem_append.1 hid with hid | hid
    · exact h.created id hid
    · rw [List.mem_singleton] at hid
      rw [hid]
      exact makeId_ne_zero slot hstart (by lia)
  · intro g hg
    obtain ⟨hepoch, hpast⟩ := h.past g hg
    obtain rfl | hks := eq_or_ne slot g.slot
    · rw [hslot]
      have hep : (createIn s g.slot range).epoch g.slot = if startVer (s.slots g.slot).butex =
          (s.slots g.slot).butex then s.epoch g.slot else s.epoch g.slot + 1 :=
        update_self ..
      rw [hep]
      split
      next hsame =>
        refine ⟨hepoch, fun heq => .inl ?_⟩
        have hlock := hdead.locked
        have hword := hdead.word
        have hfirst : (createWith range (s.slots g.slot)).firstVer = (s.slots g.slot).firstVer :=
          hsame.trans hword
        rw [hfirst]
        rcases hpast heq with hle | hzero
        · exact hle
        · lia
      · exact ⟨by lia, fun heq => by lia⟩
    · rw [hne g.slot hks.symm]
      have hep : (createIn s slot range).epoch g.slot = s.epoch g.slot := update_of_ne hks.symm ..
      rw [hep]
      exact ⟨hepoch, hpast⟩

/-- **Stale ids.** A call whose id is out of the range of its slot changes nothing. -/
theorem exec_stale {s : State ι} {i : ι} {c : Call} {again : Bool} {id : ℕ}
    (h : (s.slots (getSlot id)).hasVersion (getVersion id) = false) :
    exec s i c again id = s := by
  unfold exec
  dsimp only
  rw [Call.section_stale c again h]
  split
  · rfl
  · split
    · rfl
    · cases c <;> simp [Call.refusal, Call.acquires, Call.releases, Call.destroys]

section Exec

variable {s : State ι} {i : ι} {slot : ℕ} {b : Bool} {k : ℕ}

/-- Who holds what after thread `i` changed its own hold on one slot. -/
def State.setHold (s : State ι) (i : ι) (slot : ℕ) (b : Bool) : ι → ℕ → Bool :=
  update s.holds i (update (s.holds i) slot b)

theorem setHold_self : s.setHold i slot b i slot = b := by simp [State.setHold]

theorem setHold_ne {j : ι} (h : j ≠ i ∨ k ≠ slot) :
    s.setHold i slot b j k = s.holds j k := by
  unfold State.setHold
  obtain rfl | hj := eq_or_ne j i
  · rw [update_self, update_of_ne (h.resolve_left (fun hn => hn rfl))]
  · rw [update_of_ne hj]

theorem held_ne (h : k ≠ slot) : (∃ j, s.setHold i slot b j k = true) ↔ s.Held k := by
  constructor
  · rintro ⟨j, hj⟩
    rw [setHold_ne (.inr h)] at hj
    exact ⟨j, hj⟩
  · rintro ⟨j, hj⟩
    exact ⟨j, by rw [setHold_ne (.inr h)]; exact hj⟩

/-- A thread that takes a slot nobody holds, or gives up the slot it holds, keeps the
holders unique. -/
theorem Inv.setHold_one (h : Inv s) (hb : b = true → ∀ j, j ≠ i → s.holds j slot = false) :
    ∀ k j l, s.setHold i slot b j k = true → s.setHold i slot b l k = true → j = l := by
  intro k j l hj hl
  obtain rfl | hk := eq_or_ne k slot
  · obtain rfl | hji := eq_or_ne j i
    · by_cases hlj : l = j
      · exact hlj.symm
      · rw [setHold_self] at hj
        rw [setHold_ne (.inl hlj), hb hj l hlj] at hl
        cases hl
    · obtain rfl | hli := eq_or_ne l i
      · rw [setHold_self] at hl
        rw [setHold_ne (.inl hji), hb hl j hji] at hj
        cases hj
      · rw [setHold_ne (.inl hji)] at hj
        rw [setHold_ne (.inl hli)] at hl
        exact h.one k j l hj hl
  · rw [setHold_ne (.inr hk)] at hj hl
    exact h.one k j l hj hl

/-- **One section changes one slot.** What the invariant asks of the slot after a section,
from which the invariant of the whole pool follows. -/
theorem Inv.writeSlot (h : Inv s) (hcons : s.constructed slot = true)
    (hlive : (s.slots slot).Live (s.Held slot)) {m' : Id} {p : Pc}
    (hb : b = true → ∀ j, j ≠ i → s.holds j slot = false)
    (hslot : m'.Live (∃ j, s.setHold i slot b j slot = true))
    (hfirst : m'.firstVer = (s.slots slot).firstVer) (hp : ∀ k, p ≠ .returning k) :
    Inv { s with
      slots := update s.slots slot m'
      holds := s.setHold i slot b
      pc := update s.pc i p } := by
  have hne : ∀ k, k ≠ slot → update s.slots slot m' k = s.slots k := fun k hk => slots_ne hk
  have hself : update s.slots slot m' slot = m' := update_self ..
  have hnotdead : ¬ s.IsDead slot := by
    intro hd
    have := hd.locked
    have := hlive.lt
    lia
  have hkeep : ∀ k, s.IsDead k → (update s.slots slot m' k).Dead
      (∃ j, s.setHold i slot b j k = true) := by
    intro k hd
    have hk : k ≠ slot := fun heq => hnotdead (heq ▸ hd)
    rw [hne k hk, propext (held_ne hk)]
    exact hd
  refine ⟨h.setHold_one hb, ?_, ?_, ?_, ?_, h.created, ?_⟩
  · intro k
    obtain rfl | hk := eq_or_ne k slot
    · left
      change (update s.slots k m' k).Live _
      rw [hself]
      exact hslot
    · rcases h.slot k with hl | hd
      · left
        change (update s.slots slot m' k).Live (∃ j, s.setHold i slot b j k = true)
        rw [hne k hk, propext (held_ne hk)]
        exact hl
      · exact .inr (hkeep k hd)
  · intro k hk
    exact hkeep k (h.unused k hk)
  · intro j k hj
    have hji : j ≠ i := by
      rintro rfl
      exact hp k (by simpa using hj)
    simp only [update_of_ne hji] at hj
    obtain ⟨hd, hc, hf⟩ := h.returning j k hj
    exact ⟨hkeep k hd, hc, hf⟩
  · intro j l k hj hl
    have hji : j ≠ i := by
      rintro rfl
      exact hp k (by simpa using hj)
    have hli : l ≠ i := by
      rintro rfl
      exact hp k (by simpa using hl)
    simp only [update_of_ne hji] at hj
    simp only [update_of_ne hli] at hl
    exact h.oneReturning j l k hj hl
  · intro g hg
    obtain ⟨hepoch, hpast⟩ := h.past g hg
    refine ⟨hepoch, fun heq => ?_⟩
    obtain rfl | hk := eq_or_ne slot g.slot
    · left
      simp only [hself, hfirst]
      rcases hpast heq with hle | hzero
      · exact hle
      · have := hlive.lt
        lia
    · simp only [hne g.slot hk.symm]
      exact hpast heq

theorem Inv.endSlot (h : Inv s) (hcons : s.constructed slot = true)
    (hlive : (s.slots slot).Live (s.Held slot)) {m' : Id}
    (hheld : ∀ j, j ≠ i → s.holds j slot = false) (hdead : m'.Dead False)
    (hfirst : m'.firstVer = (s.slots slot).endVer) :
    Inv { s with
      slots := update s.slots slot m'
      holds := s.setHold i slot false
      pc := update s.pc i (.returning slot)
      destroyed := s.destroyed ++
        [⟨slot, s.epoch slot, (s.slots slot).firstVer, (s.slots slot).lockedVer⟩] } := by
  have hne : ∀ k, k ≠ slot → update s.slots slot m' k = s.slots k := fun k hk => slots_ne hk
  have hself : update s.slots slot m' slot = m' := update_self ..
  have hnone : ¬ ∃ j, s.setHold i slot false j slot = true := by
    rintro ⟨j, hj⟩
    obtain rfl | hji := eq_or_ne j i
    · rw [setHold_self] at hj
      cases hj
    · rw [setHold_ne (.inl hji), hheld j hji] at hj
      cases hj
  have hnotdead : ¬ s.IsDead slot := by
    intro hd
    have := hd.locked
    have := hlive.lt
    lia
  have hnotfree : s.free slot = false := by
    by_contra hf
    exact hnotdead (h.unused slot (.inr (Bool.of_not_eq_false hf)))
  have hmine : (update s.slots slot m' slot).Dead (∃ j, s.setHold i slot false j slot = true) := by
    rw [hself, eq_false hnone]
    exact hdead
  have hkeep : ∀ k, s.IsDead k → (update s.slots slot m' k).Dead
      (∃ j, s.setHold i slot false j k = true) := by
    intro k hd
    have hk : k ≠ slot := fun heq => hnotdead (heq ▸ hd)
    rw [hne k hk, propext (held_ne hk)]
    exact hd
  refine ⟨h.setHold_one (by simp), ?_, ?_, ?_, ?_, h.created, ?_⟩
  · intro k
    obtain rfl | hk := eq_or_ne k slot
    · exact .inr hmine
    · rcases h.slot k with hl | hd
      · left
        change (update s.slots slot m' k).Live (∃ j, s.setHold i slot false j k = true)
        rw [hne k hk, propext (held_ne hk)]
        exact hl
      · exact .inr (hkeep k hd)
  · intro k hk
    exact hkeep k (h.unused k hk)
  · intro j k hj
    obtain rfl | hji := eq_or_ne j i
    · simp only [update_self, Pc.returning.injEq] at hj
      subst hj
      exact ⟨hmine, hcons, hnotfree⟩
    · simp only [update_of_ne hji] at hj
      obtain ⟨hd, hc, hf⟩ := h.returning j k hj
      exact ⟨hkeep k hd, hc, hf⟩
  · intro j l k hj hl
    obtain rfl | hji := eq_or_ne j i
    · by_cases hlj : l = j
      · exact hlj.symm
      · simp only [update_self, Pc.returning.injEq] at hj
        subst hj
        simp only [update_of_ne hlj] at hl
        exact absurd (h.returning l _ hl).1 hnotdead
    · obtain rfl | hli := eq_or_ne l i
      · simp only [update_self, Pc.returning.injEq] at hl
        subst hl
        simp only [update_of_ne hji] at hj
        exact absurd (h.returning j _ hj).1 hnotdead
      · simp only [update_of_ne hji] at hj
        simp only [update_of_ne hli] at hl
        exact h.oneReturning j l k hj hl
  · obtain ⟨-, hend⟩ := hlive.endVer_cases
    have hlock := hdead.locked
    intro g hg
    rcases List.mem_append.1 hg with hg | hg
    · obtain ⟨hepoch, hpast⟩ := h.past g hg
      refine ⟨hepoch, fun heq => ?_⟩
      obtain rfl | hk := eq_or_ne slot g.slot
      · simp only [hself, hlock, hfirst]
        have := hlive.lt
        rcases hpast heq with hle | hzero
        · rcases hend with hend | hend
          · left
            lia
          · exact .inr hend
        · lia
      · simp only [hne g.slot hk.symm]
        exact hpast heq
    · rw [List.mem_singleton] at hg
      subst hg
      refine ⟨Nat.le_refl _, fun _ => ?_⟩
      simp only [hself, hlock, hfirst]
      rcases hend with hend | hend
      · left
        lia
      · exact .inr hend

theorem exec_inv (h : Inv s) (hpc : s.pc i = .idle) {c : Call} {again : Bool} {id : ℕ} :
    Inv (exec s i c again id) := by
  by_cases hv : (s.slots (getSlot id)).hasVersion (getVersion id) = true
  swap
  · rw [exec_stale (Bool.eq_false_iff.2 hv)]
    exact h
  unfold exec
  dsimp only
  split
  · exact h
  rename_i hcons
  have hcons := Bool.of_not_eq_false hcons
  split
  · exact h
  rename_i hguard
  have hown : c.needsHolder = true → s.holds i (getSlot id) = true := by
    intro hn
    by_contra hfalse
    exact hguard ⟨hn, hv, Bool.eq_false_iff.2 hfalse⟩
  have hlive : (s.slots (getSlot id)).Live (s.Held (getSlot id)) := by
    rcases h.slot (getSlot id) with hl | hd
    · exact hl
    · have := hd.hasVersion (getVersion id)
      rw [hv] at this
      cases this
  generalize hout : c.section again id (s.slots (getSlot id)) = out
  obtain ⟨r, m'⟩ := out
  have heff := hlive.effect hv (fun hn => ⟨i, hown hn⟩) hout
  have hpcne : ∀ k, (match r with | .wait _ => Pc.blocked c id | _ => s.pc i) ≠ .returning k := by
    intro k
    split
    · simp
    · rw [hpc]
      simp
  -- the unique holder, when there is one, is the caller of a function for the holder
  have hothers : (s.Held (getSlot id) → c.needsHolder = true) →
      ∀ j, j ≠ i → s.holds j (getSlot id) = false := by
    intro hn j hj
    by_contra hne
    have hjh := Bool.of_not_eq_false hne
    exact hj (h.one _ j i hjh (hown (hn ⟨j, hjh⟩)))
  cases heff with
  | acquire hacq hfree hl hfirst =>
    have hdes : c.destroys r = false := by
      cases c <;> cases r <;> first | rfl | cases hacq
    simp only [hacq, hdes, if_true, Bool.false_eq_true, if_false]
    refine h.writeSlot hcons hlive (fun _ => hothers fun hh => absurd hh hfree) ?_ hfirst hpcne
    rw [eq_true (⟨i, setHold_self⟩ : ∃ j, s.setHold i (getSlot id) true j (getSlot id) = true)]
    exact hl
  | release hrel hheld hl hfirst =>
    have hacq : c.acquires r = false := by
      cases c <;> cases r <;> first | rfl | cases hrel
    have hdes : c.destroys r = false := by
      cases c <;> cases r <;> first | rfl | cases hrel
    have hneeds : c.needsHolder = true := by
      cases c <;> cases r <;> first | rfl | cases hrel
    simp only [hacq, hrel, hdes, if_true, Bool.false_eq_true, if_false, true_or]
    refine h.writeSlot hcons hlive (nofun) ?_ hfirst hpcne
    have hnone : ¬ ∃ j, s.setHold i (getSlot id) false j (getSlot id) = true := by
      rintro ⟨j, hj⟩
      obtain rfl | hji := eq_or_ne j i
      · rw [setHold_self] at hj
        cases hj
      · rw [setHold_ne (.inl hji), hothers (fun _ => hneeds) j hji] at hj
        cases hj
    rw [eq_false hnone]
    exact hl
  | destroy hdes hneeds hd hfirst =>
    have hacq : c.acquires r = false := by
      cases c <;> cases r <;> first | rfl | cases hdes
    simp only [hacq, hdes, if_true, Bool.false_eq_true, if_false, or_true]
    exact h.endSlot hcons hlive (hothers hneeds) hd hfirst
  | stay hacq hrel hdes hl hfirst =>
    simp only [hacq, hrel, hdes, Bool.false_eq_true, if_false, or_false]
    have hsame : ∀ j k, s.setHold i (getSlot id) (s.holds i (getSlot id)) j k = s.holds j k := by
      intro j k
      unfold State.setHold
      rw [update_eq_self, update_eq_self]
    refine h.writeSlot hcons hlive ?_ ?_ hfirst hpcne
    · intro hi j hj
      by_contra hne
      exact hj (h.one _ j i (Bool.of_not_eq_false hne) hi)
    · simp only [hsame]
      exact hl

theorem step_inv : Keeps (@step ι _) Inv := by
  intro s a h
  cases a with
  | create i slot =>
    simp only [step]
    split
    next hc =>
      exact createIn_inv h hc.2 (by decide) (by decide)
    · exact h
  | createRanged i slot range =>
    simp only [step]
    split
    next hc =>
      obtain ⟨-, hfree, hlo, hhi⟩ := hc
      exact createIn_inv h hfree (by lia) (by lia)
    · exact h
  | call i c id =>
    simp only [step]
    split
    next hpc =>
      exact exec_inv h hpc
    · exact h
  | resume i =>
    simp only [step]
    split
    · refine exec_inv ?_ (update_self ..)
      rename_i c id hpc
      refine ⟨h.one, h.slot, h.unused, ?_, ?_, h.created, h.past⟩
      · intro j slot hj
        have hji : j ≠ i := by
          rintro rfl
          simp at hj
        simp only [update_of_ne hji] at hj
        exact h.returning j slot hj
      · intro j l slot hj hl
        have hji : j ≠ i := by
          rintro rfl
          simp at hj
        have hli : l ≠ i := by
          rintro rfl
          simp at hl
        simp only [update_of_ne hji] at hj
        simp only [update_of_ne hli] at hl
        exact h.oneReturning j l slot hj hl
    · exact h
  | giveBack i =>
    simp only [step]
    split
    next slot hpc =>
      obtain ⟨hdead, hcons, hfree⟩ := h.returning i slot hpc
      refine ⟨h.one, h.slot, ?_, ?_, ?_, h.created, h.past⟩
      · intro k hk
        obtain rfl | hks := eq_or_ne k slot
        · exact hdead
        · refine h.unused k ?_
          simpa [update_of_ne hks] using hk
      · intro j k hj
        have hji : j ≠ i := by
          rintro rfl
          simp at hj
        simp only [update_of_ne hji] at hj
        obtain ⟨hd, hc, hf⟩ := h.returning j k hj
        have hks : k ≠ slot := by
          rintro rfl
          exact hji (h.oneReturning j i k hj hpc)
        refine ⟨hd, hc, ?_⟩
        simpa [update_of_ne hks] using hf
      · intro j l k hj hl
        have hji : j ≠ i := by
          rintro rfl
          simp at hj
        have hli : l ≠ i := by
          rintro rfl
          simp at hl
        simp only [update_of_ne hji] at hj
        simp only [update_of_ne hli] at hl
        exact h.oneReturning j l k hj hl
    · exact h

end Exec

/-! ## The versioned lock -/

structure VersionedLock (s : State ι) : Prop where
  /-- At most one thread holds an id, and only a live one. -/
  one : ∀ slot i j, s.holds i slot = true → s.holds j slot = true → i = j
  heldLive : ∀ slot i, s.holds i slot = true → (s.slots slot).live
  /-- The word of a live id is one of the four, the first exactly when nobody holds it. -/
  word : ∀ slot, (s.slots slot).live →
    (s.slots slot).butex = (s.slots slot).firstVer ∨ (s.slots slot).butex = (s.slots slot).lockedVer ∨
      (s.slots slot).butex = (s.slots slot).contendedVer ∨
      (s.slots slot).butex = (s.slots slot).unlockableVer
  unlocked : ∀ slot, (s.slots slot).live →
    ((s.slots slot).butex = (s.slots slot).firstVer ↔ ∀ i, s.holds i slot = false)
  /-- No error is pending on an unlocked id, nor on a slot that `create` may be given. -/
  pending : ∀ slot, (∀ i, s.holds i slot = false) → (s.slots slot).pendingQ = []
  check : ∀ slot, s.constructed slot = false ∨ s.free slot = true → (s.slots slot).pendingQ = []
  /-- No id is 0, and no version of a range and of its states wraps. -/
  nonzero : ∀ id ∈ s.created, id ≠ 0
  positive : ∀ slot, (s.slots slot).live → 0 < (s.slots slot).firstVer
  noWrap : ∀ slot, (s.slots slot).live → (s.slots slot).lockedVer < (s.slots slot).contendedVer ∧
    (s.slots slot).contendedVer < (s.slots slot).unlockableVer
  /-- An id of a destroyed generation is refused and changes nothing, as long as the version
  counter of the slot has not begun again. -/
  stale : ∀ g ∈ s.destroyed, g.epoch = s.epoch g.slot → ∀ id, getSlot id = g.slot →
    g.firstVer ≤ getVersion id → getVersion id < g.lockedVer → ∀ (c : Call) (again : Bool),
      c.section again id (s.slots g.slot) = (c.refusal, s.slots g.slot) ∧
        ∀ i, exec s i c again id = s

/-- **The session is a versioned lock**, after any interleaving of the sections of any
number of threads on any number of slots. -/
theorem run_versionedLock (acts : List (Act ι)) : VersionedLock (runFrom step (init ι) acts) := by
  have h := step_inv.run init_inv acts
  generalize runFrom step (init ι) acts = s at h
  have hlive : ∀ slot, (s.slots slot).live → (s.slots slot).Live (s.Held slot) := by
    intro slot hl
    rcases h.slot slot with hlive | hd
    · exact hlive
    · have := hd.locked
      unfold Id.live at hl
      lia
  have hfree : ∀ slot, (∀ i, s.holds i slot = false) ↔ ¬ s.Held slot := by
    intro slot
    constructor
    · rintro hall ⟨i, hi⟩
      rw [hall i] at hi
      cases hi
    · intro hn i
      by_contra hne
      exact hn ⟨i, Bool.of_not_eq_false hne⟩
  refine ⟨h.one, ?_, ?_, ?_, ?_, ?_, h.created, fun slot hl => (hlive slot hl).pos, ?_, ?_⟩
  · intro slot i hi
    rcases h.slot slot with hlive | hd
    · exact hlive.lt
    · exact absurd ⟨i, hi⟩ hd.free
  · intro slot hl
    rw [(hlive slot hl).contendedVer_eq, (hlive slot hl).unlockableVer_eq]
    exact (hlive slot hl).word
  · intro slot hl
    rw [hfree slot]
    exact (hlive slot hl).free
  · intro slot hnone
    rcases h.slot slot with hlive | hd
    · exact hlive.pending ((hfree slot).1 hnone)
    · exact hd.pending
  · intro slot hunused
    exact (h.unused slot hunused).pending
  · intro slot hl
    rw [(hlive slot hl).contendedVer_eq, (hlive slot hl).unlockableVer_eq]
    lia
  · intro g hg hepoch id hslot hlo hhi c again
    have hstale : (s.slots (getSlot id)).hasVersion (getVersion id) = false := by
      rw [Bool.eq_false_iff]
      intro hv
      rw [Id.Live.hasVersion_iff, hslot] at hv
      rcases (h.past g hg).2 hepoch with hle | hzero
      · lia
      · lia
    refine ⟨?_, fun i => exec_stale hstale⟩
    rw [← hslot]
    exact c.section_stale again hstale

end Eabase.Fiber.Session
