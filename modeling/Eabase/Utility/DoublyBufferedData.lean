import Mathlib.Data.Fintype.Option
import Eabase.Lib.Machine

/-!
# DoublyBufferedData

Two instances, an index that says which one is read, and for each thread a
wrapper: a mutex that a reader holds (`AllowFiberSuspended=false`), or a count
of readers for each instance that the mutex protects (`AllowFiberSuspended=true`).

A party is a thread or a fiber. A fiber stays on its thread during a `Read`, but
may release its `ScopedPtr` on another one. A step is one access to what is
shared; the function of a `Modify` runs between two steps. The condition
variables only tell when to test again, and here a test may come at any time.

The wrapper of a thread that exits leaves the list before its readers are waited
for, and a wrapper that could not be entered in the list is used by the next
`Read` all the same. The rest is sound: that is what holds in runs where readers
only use wrappers that are in the list.
-/

namespace Eabase.Utility.DoublyBufferedData

open Lib Function List
open Option (some)

variable {ι τ α : Type*} [DecidableEq ι] [DecidableEq τ]

/-! ## The machine -/

/-- The function of a `Modify`, as its first and its second call behave; the number of the
`Modify`. -/
structure Call (α : Type*) where
  id : ℕ
  fn₁ : α → α × ℕ
  fn₂ : α → α × ℕ

/-- Where a party stands. In `Read`: in front of `push_back` of a new wrapper, of its mutex, of the
index, and of `AddRef`; with a `ScopedPtr` on an instance. In `Modify`: in front of its mutex, in
the function on the background, in front of the store of the index and of `_wrappers_mutex`, at a
wrapper, in the function on the other instance. In the destructor of a wrapper: in front of
`RemoveWrapper`, and of `WaitReadDone` for an instance. -/
inductive Pc (τ α : Type*) where
  | idle
  | adding (t : τ) (w : ℕ)
  | locking (t : τ) (w : ℕ)
  | loading (t : τ) (w : ℕ)
  | counting (t : τ) (w : ℕ) (b : Bool)
  | reading (w : ℕ) (b : Bool)
  | entering (fn₁ fn₂ : α → α × ℕ)
  | first (c : Call α) (bg : Bool)
  | publish (c : Call α) (bg : Bool) (ret : ℕ)
  | lockWrappers (c : Call α) (old : Bool) (ret : ℕ)
  | walk (c : Call α) (old : Bool) (n : ℕ) (ret : ℕ)
  | second (c : Call α) (old : Bool) (ret : ℕ)
  | removing (w : ℕ)
  | draining (w : ℕ) (b : Bool)

/-- The data and the wrappers, each with its `_control`, its mutex and its counts, and which thread
has which. `busy` is the party that a thread runs in a `Read`. What is kept of the past: the readers
of each wrapper and instance, the functions that were applied to each instance (newest first), the
calls that changed the background, the `Modify` that returned; `fatal` is a `CHECK` that failed. -/
structure State (ι τ α : Type*) where
  data : Bool → α
  index : Bool
  tls : τ → Option ℕ
  busy : τ → Option ι
  nextWrapper : ℕ
  control : ℕ → Bool
  mutex : ℕ → Option ι
  ref : ℕ → Bool → ℤ
  wrappers : List ℕ
  wrappersMutex : Option ι
  modifyMutex : Option ι
  pc : ι → Pc τ α
  nextId : ℕ
  readers : ℕ → Bool → List ι
  applied : Bool → List (ℕ × (α → α × ℕ))
  calls : List (Call α × ℕ)
  returned : List ℕ
  fatal : Bool

/-- New data, with both instances alike. -/
def start (ι τ : Type*) (init : α) : State ι τ α where
  data _ := init
  index := false
  tls _ := none
  busy _ := none
  nextWrapper := 0
  control _ := false
  mutex _ := none
  ref _ _ := 0
  wrappers := []
  wrappersMutex := none
  modifyMutex := none
  pc _ := .idle
  nextId := 0
  readers _ _ := []
  applied _ := []
  calls := []
  returned := []
  fatal := false

/-- One label of a run. `ok` is whether the allocation of a wrapper, or its `push_back`,
succeeds. -/
inductive Act (ι τ α : Type*) where
  | read (i : ι) (t : τ) (ok : Bool)
  | release (i : ι)
  | modify (i : ι) (fn₁ fn₂ : α → α × ℕ)
  | exit (i : ι) (t : τ)
  | go (i : ι) (ok : Bool)

section

variable (s : State ι τ α)

/-- Party `i` goes to `c`. -/
def State.goto (i : ι) (c : Pc τ α) : State ι τ α :=
  { s with pc := update s.pc i c }

/-- Party `i` counts itself as a reader, or no longer. -/
def State.setReaders (w : ℕ) (b : Bool) (l : List ι) : State ι τ α :=
  { s with readers := update s.readers w (update (s.readers w) b l) }

/-- `_ref[index]` of a wrapper. -/
def State.setRef (w : ℕ) (b : Bool) (n : ℤ) : State ι τ α :=
  { s with ref := update s.ref w (update (s.ref w) b n) }

/-- `Read` on thread `t`, up to `push_back` or the mutex of the wrapper. -/
def readStep (i : ι) (t : τ) (ok : Bool) : State ι τ α :=
  match s.tls t with
  | none =>
    if ok then
      { s with
        tls := update s.tls t (some s.nextWrapper)
        control := update s.control s.nextWrapper true
        busy := update s.busy t (some i)
        nextWrapper := s.nextWrapper + 1 }.goto i (.adding t s.nextWrapper)
    else s
  | some w =>
    let s' := { s with busy := update s.busy t (some i) }
    if s.control w then s'.goto i (.locking t w)
    else { s' with control := update s.control w true }.goto i (.adding t w)

/-- The locked `push_back` of `AddWrapper`. -/
def addStep (i : ι) (t : τ) (w : ℕ) (ok : Bool) : State ι τ α :=
  if s.wrappersMutex ≠ none then s
  else if ok then { s with wrappers := s.wrappers ++ [w] }.goto i (.locking t w)
  else { s with busy := update s.busy t none }.goto i .idle

end

/-- `UnsafeRead`. -/
def loadStep (suspended : Bool) (s : State ι τ α) (i : ι) (t : τ) (w : ℕ) : State ι τ α :=
  if suspended then s.goto i (.counting t w s.index)
  else
    ({ s with busy := update s.busy t none }.setReaders w s.index
      (i :: s.readers w s.index)).goto i (.reading w s.index)

/-- `AddRef` and `BeginReadRelease`. -/
def countStep (s : State ι τ α) (i : ι) (t : τ) (w : ℕ) (b : Bool) : State ι τ α :=
  (({ s with
    mutex := update s.mutex w none
    busy := update s.busy t none }.setRef w b (s.ref w b + 1)).setReaders w b
      (i :: s.readers w b)).goto i (.reading w b)

/-- `EndRead` of either mode. -/
def releaseStep (suspended : Bool) (s : State ι τ α) (i : ι) (w : ℕ) (b : Bool) : State ι τ α :=
  let s' := s.setReaders w b ((s.readers w b).erase i)
  if suspended then
    if s.mutex w = none then (s'.setRef w b (s.ref w b - 1)).goto i .idle else s
  else { s' with mutex := update s.mutex w none }.goto i .idle

def firstStep (s : State ι τ α) (i : ι) (c : Call α) (bg : Bool) : State ι τ α :=
  let ret := (c.fn₁ (s.data bg)).2
  let s' := { s with
    data := update s.data bg (c.fn₁ (s.data bg)).1
    applied := update s.applied bg ((c.id, c.fn₁) :: s.applied bg)
    calls := (c, ret) :: s.calls }
  if ret = 0 then { s' with modifyMutex := none }.goto i .idle else s'.goto i (.publish c bg ret)

/-- `WaitReadDone` of the wrapper at `n`, which is tried again until it is done; the end of the
list. -/
def walkStep (suspended : Bool) (s : State ι τ α) (i : ι) (c : Call α) (old : Bool) (n ret : ℕ) :
    State ι τ α :=
  match s.wrappers[n]? with
  | none => { s with wrappersMutex := none }.goto i (.second c old ret)
  | some w =>
    if s.mutex w = none ∧ (suspended = true → s.ref w old = 0) then s.goto i (.walk c old (n + 1) ret)
    else s

def secondStep (s : State ι τ α) (i : ι) (c : Call α) (old : Bool) (ret : ℕ) : State ι τ α :=
  { s with
    data := update s.data old (c.fn₂ (s.data old)).1
    applied := update s.applied old ((c.id, c.fn₂) :: s.applied old)
    fatal := s.fatal || (c.fn₂ (s.data old)).2 != ret
    modifyMutex := none
    returned := c.id :: s.returned }.goto i .idle

/-- The next step of party `i`. -/
def goStep (suspended : Bool) (s : State ι τ α) (i : ι) (ok : Bool) : State ι τ α :=
  match s.pc i with
  | .idle | .reading _ _ => s
  | .adding t w => addStep s i t w ok
  | .locking t w =>
    if s.mutex w = none then
      { s with mutex := update s.mutex w (some i) }.goto i (.loading t w)
    else s
  | .loading t w => loadStep suspended s i t w
  | .counting t w b => countStep s i t w b
  | .entering fn₁ fn₂ =>
    if s.modifyMutex = none then
      { s with modifyMutex := some i, nextId := s.nextId + 1 }.goto i
        (.first ⟨s.nextId, fn₁, fn₂⟩ (!s.index))
    else s
  | .first c bg => firstStep s i c bg
  | .publish c bg ret => { s with index := bg }.goto i (.lockWrappers c (!bg) ret)
  | .lockWrappers c old ret =>
    if s.wrappersMutex = none then { s with wrappersMutex := some i }.goto i (.walk c old 0 ret) else s
  | .walk c old n ret => walkStep suspended s i c old n ret
  | .second c old ret => secondStep s i c old ret
  | .removing w =>
    if s.wrappersMutex = none then
      { s with wrappers := s.wrappers.erase w }.goto i (if suspended then .draining w false else .idle)
    else s
  | .draining w b =>
    if s.mutex w = none ∧ s.ref w b = 0 then s.goto i (if b then .idle else .draining w true) else s

/-- One step of the machine; `suspended` is `AllowFiberSuspended`. -/
def step (suspended : Bool) (s : State ι τ α) : Act ι τ α → State ι τ α
  | .read i t ok =>
    match s.pc i with
    | .idle => if s.busy t = none then readStep s i t ok else s
    | _ => s
  | .release i =>
    match s.pc i with
    | .reading w b => releaseStep suspended s i w b
    | _ => s
  | .modify i fn₁ fn₂ =>
    match s.pc i with
    | .idle => s.goto i (.entering fn₁ fn₂)
    | _ => s
  | .exit i t =>
    match s.pc i, s.tls t with
    | .idle, some w =>
      if s.busy t = none then
        { s with tls := update s.tls t none }.goto i
          (if s.control w then .removing w else if suspended then .draining w false else .idle)
      else s
    | _, _ => s
  | .go i ok => goStep suspended s i ok

/-! ## The property -/

/-- The instance that the function of a `Modify` runs on. -/
def Pc.modifies : Pc τ α → Option Bool
  | .first _ bg => some bg
  | .second _ old _ => some old
  | _ => none

/-- The party is in `Modify`, with its mutex. -/
def Pc.inModify : Pc τ α → Bool
  | .first _ _ | .publish _ _ _ | .lockWrappers _ _ _ | .walk _ _ _ _ | .second _ _ _ => true
  | _ => false

structure Isolated (init : α) (s : State ι τ α) : Prop where
  /-- no function runs on an instance that a `ScopedPtr` designates -/
  apart : ∀ i w b, s.pc i = .reading w b → ∀ j, (s.pc j).modifies ≠ some b
  /-- a `ScopedPtr` designates an instance with all modifications that returned: an instance is what
  the functions applied to it made of the first one -/
  seen : ∀ i w b, s.pc i = .reading w b → ∀ m ∈ s.returned, m ∈ (s.applied b).map Prod.fst
  content : ∀ b, s.data b = (s.applied b).foldr (fun e x => (e.2 x).1) init
  /-- both instances are equal after calls that are deterministic and returned non-zero -/
  equal : (∀ e ∈ s.calls, e.1.fn₁ = e.1.fn₂ ∧ e.2 ≠ 0) → (∀ j, (s.pc j).inModify = false) →
    s.data false = s.data true ∧ s.fatal = false

/-- The wrapper that a `ScopedPtr` will release. -/
def Pc.reads : Pc τ α → Option ℕ
  | .reading w _ => some w
  | _ => none

/-- The condition on a party that is at `c` and moves. -/
def GoHeeds (s : State ι τ α) : Pc τ α → Prop
  | .removing w => ∀ j, (s.pc j).reads ≠ some w
  | _ => True

/-- The condition on a step: a thread that exits has no reader when its wrapper leaves the list, and
a `Read` does not use a wrapper that could not be entered in it. -/
def Heeds (s : State ι τ α) : Act ι τ α → Prop
  | .read _ t _ => ∀ w ∈ s.tls t, s.control w = true → w ∈ s.wrappers
  | .go i _ => GoHeeds s (s.pc i)
  | _ => True

instance [Fintype ι] (s : State ι τ α) : ∀ c, Decidable (GoHeeds s c)
  | .removing w => inferInstanceAs (Decidable (∀ j, (s.pc j).reads ≠ some w))
  | .idle | .adding _ _ | .locking _ _ | .loading _ _ | .counting _ _ _ | .reading _ _ | .entering _ _
  | .first _ _ | .publish _ _ _ | .lockWrappers _ _ _ | .walk _ _ _ _ | .second _ _ _
  | .draining _ _ => isTrue trivial

instance [Fintype ι] (s : State ι τ α) : ∀ a, Decidable (Heeds s a)
  | .read _ t _ => inferInstanceAs (Decidable (∀ w ∈ s.tls t, s.control w = true → w ∈ s.wrappers))
  | .go i _ => inferInstanceAs (Decidable (GoHeeds s (s.pc i)))
  | .release _ | .modify _ _ _ | .exit _ _ => isTrue trivial

/-! ## The invariant -/

/-- The thread and the wrapper of a `Read` that is not over. -/
def Pc.inRead : Pc τ α → Option (τ × ℕ)
  | .adding t w | .locking t w | .loading t w | .counting t w _ => some (t, w)
  | _ => none

def Pc.designates : Pc τ α → Option (ℕ × Bool)
  | .counting _ w b | .reading w b => some (w, b)
  | _ => none

def Pc.holds (suspended : Bool) : Pc τ α → Option ℕ
  | .loading _ w | .counting _ w _ => some w
  | .reading w _ => if suspended then none else some w
  | _ => none

/-- The wrapper that the party uses as one of the list. -/
def Pc.uses : Pc τ α → Option ℕ
  | .locking _ w | .loading _ w | .counting _ w _ | .reading w _ => some w
  | _ => none

/-- The wrappers that a party in `Modify` has still to wait for. -/
def State.awaits (s : State ι τ α) : Pc τ α → List ℕ
  | .lockWrappers _ _ _ => s.wrappers
  | .walk _ _ n _ => s.wrappers.drop n
  | _ => []

/-- No call so far was not deterministic or returned zero. -/
def State.Regular (s : State ι τ α) : Prop := ∀ e ∈ s.calls, e.1.fn₁ = e.1.fn₂ ∧ e.2 ≠ 0

/-- After the first call: the background is one modification ahead. -/
def State.Ahead (s : State ι τ α) (c : Call α) (old : Bool) (ret : ℕ) : Prop :=
  c.id ∈ (s.applied (!old)).map Prod.fst ∧
  (s.Regular → c.fn₁ = c.fn₂ ∧ s.data (!old) = (c.fn₁ (s.data old)).1 ∧ ret = (c.fn₁ (s.data old)).2)

/-- What a party at `c` knows of the mode and the index. -/
def IndexOk (suspended : Bool) (s : State ι τ α) : Pc τ α → Prop
  | .counting _ _ _ => suspended = true
  | .first _ b | .publish _ b _ | .lockWrappers _ b _ | .walk _ b _ _ | .second _ b _ => b = !s.index
  | _ => True

/-- What a `Modify` at `c` knows of the instances. -/
def ContentOk (s : State ι τ α) : Pc τ α → Prop
  | .first _ _ => s.Regular → s.data false = s.data true
  | .publish c bg ret => s.Ahead c (!bg) ret
  | .lockWrappers c old ret | .walk c old _ ret | .second c old ret => s.Ahead c old ret
  | _ => True

/-- Who is where: the wrappers, their mutexes and readers, and the writer. -/
structure Control (suspended : Bool) (s : State ι τ α) : Prop where
  tls : ∀ t t' w, s.tls t = some w → s.tls t' = some w → t = t'
  known : ∀ t w, s.tls t = some w → w < s.nextWrapper
  inRead : ∀ i t w, (s.pc i).inRead = some (t, w) → s.tls t = some w ∧ s.busy t = some i
  removing : ∀ i w, s.pc i = .removing w → w < s.nextWrapper ∧ ∀ t, s.tls t ≠ some w
  uses : ∀ i w, (s.pc i).uses = some w → w ∈ s.wrappers
  holds : ∀ i w, (s.pc i).holds suspended = some w → s.mutex w = some i
  ref : suspended = true → ∀ w b, s.ref w b = (s.readers w b).length
  readers : ∀ w b, (s.readers w b).Nodup ∧ ∀ i, i ∈ s.readers w b ↔ s.pc i = .reading w b
  modify : ∀ i, (s.pc i).inModify = true → s.modifyMutex = some i
  walk : ∀ i c old n ret, s.pc i = .walk c old n ret → s.wrappersMutex = some i
  stale : ∀ i w b, (s.pc i).designates = some (w, b) → b = s.index ∨ ∃ j, w ∈ s.awaits (s.pc j)
  threads : ∀ i, IndexOk suspended s (s.pc i)

structure Content (init : α) (s : State ι τ α) : Prop where
  returned : ∀ m ∈ s.returned, ∀ b, m ∈ (s.applied b).map Prod.fst
  applied : ∀ b, s.data b = (s.applied b).foldr (fun e x => (e.2 x).1) init
  threads : ∀ i, ContentOk s (s.pc i)
  equal : s.Regular → (∀ j, (s.pc j).inModify = false) → s.data false = s.data true
  fatal : s.Regular → s.fatal = false

structure Inv (suspended : Bool) (init : α) (s : State ι τ α) : Prop where
  control : Control suspended s
  content : Content init s

section Inv

variable {suspended : Bool} {init : α} {s : State ι τ α} {i j : ι} {c : Pc τ α} {b bg old : Bool}
  {ret w : ℕ} {t : τ} {b' ok : Bool} {e : ℕ × (α → α × ℕ)} {n : ℤ} {r : ℕ → Bool → ℤ}
  {rd : ℕ → Bool → List ι}

section

omit [DecidableEq τ]

@[simp] theorem goto_self : (s.goto i c).pc i = c := update_self ..

theorem goto_ne (h : j ≠ i) : (s.goto i c).pc j = s.pc j := update_of_ne h ..

omit [DecidableEq ι] in
theorem inModify_of_awaits (h : w ∈ s.awaits c) : c.inModify = true := by
  cases c <;> first | rfl | cases h

theorem inModify_of_modifies (h : c.modifies = some b) : c.inModify = true := by
  cases c <;> first | rfl | cases h

section

omit [DecidableEq ι]

theorem Control.modify_unique (h : Control suspended s) (hi : (s.pc i).inModify = true)
    (hj : (s.pc j).inModify = true) : i = j :=
  some.inj ((h.modify i hi).symm.trans (h.modify j hj))

theorem Control.apart (h : Control suspended s)
    (hi : (s.pc i).designates = some (w, b)) (hj : (s.pc j).modifies = some b') : b' = !b := by
  have hidx : b' = !s.index := by
    have := h.threads j
    cases hq : s.pc j <;> rw [hq] at this hj <;> cases hj
    · exact this
    · exact this
  rcases h.stale i w b hi with hb | ⟨j', hj'⟩
  · rw [hidx, hb]
  · have heq := h.modify_unique (inModify_of_awaits hj') (inModify_of_modifies hj)
    subst heq
    cases hq : s.pc j' <;> rw [hq] at hj hj' <;> cases hj <;> cases hj'

theorem Inv.isolated (h : Inv suspended init s) : Isolated init s where
  apart := fun i w b hi j hj => by
    have := h.control.apart (i := i) (w := w) (b := b) (by rw [hi]; rfl) hj
    cases b <;> cases this
  seen := fun i w b _ m hm => h.content.returned m hm b
  content := h.content.applied
  equal := fun hreg hidle => ⟨h.content.equal hreg hidle, h.content.fatal hreg⟩

theorem inv_start (init : α) : Inv suspended init (start ι τ init) where
  control := by
    constructor <;> simp [start, Pc.inRead, Pc.uses, Pc.holds, Pc.inModify, Pc.designates, IndexOk]
  content := by constructor <;> simp [start, ContentOk]

end

end

/-! ### A party goes on -/

omit [DecidableEq τ] in
theorem forall_goto {P : ι → Pc τ α → Prop} (hi : P i c) (hrest : ∀ j ≠ i, P j (s.pc j)) (j : ι) :
    P j ((s.goto i c).pc j) := by
  obtain rfl | hj := eq_or_ne j i
  · rw [goto_self]
    exact hi
  · rw [goto_ne hj]
    exact hrest j hj

section

variable (h : Control suspended s)
include h

omit [DecidableEq τ] in
theorem Control.gotoIndex
    {idx : Bool}
    (hread : ∀ t w, c.inRead = some (t, w) → s.tls t = some w ∧ s.busy t = some i)
    (hrem : ∀ w, c = .removing w → w < s.nextWrapper ∧ ∀ t, s.tls t ≠ some w)
    (huses : ∀ w, c.uses = some w → w ∈ s.wrappers)
    (hholds : ∀ w, c.holds suspended = some w → s.mutex w = some i)
    (href : suspended = true → ∀ w b, r w b = (rd w b).length)
    (hrd : ∀ w b, (rd w b).Nodup ∧ ∀ j, j ∈ rd w b ↔ (s.goto i c).pc j = .reading w b)
    (hmod : c.inModify = true → s.modifyMutex = some i)
    (hwalk : ∀ c' old n ret, c = .walk c' old n ret → s.wrappersMutex = some i)
    (hstale : ∀ j w b, ((s.goto i c).pc j).designates = some (w, b) →
      b = idx ∨ ∃ j', w ∈ s.awaits ((s.goto i c).pc j'))
    (hthreads : ∀ j, IndexOk suspended { s with index := idx } ((s.goto i c).pc j)) :
    Control suspended ({ s with index := idx, ref := r, readers := rd }.goto i c) :=
  { h with
    inRead := forall_goto
      (P := fun j cj => ∀ t w, cj.inRead = some (t, w) → s.tls t = some w ∧ s.busy t = some j) hread
      fun j _ => h.inRead j
    removing := forall_goto
      (P := fun _ cj => ∀ w, cj = .removing w → w < s.nextWrapper ∧ ∀ t, s.tls t ≠ some w) hrem
      fun j _ => h.removing j
    uses := forall_goto (P := fun _ cj => ∀ w, cj.uses = some w → w ∈ s.wrappers) huses
      fun j _ => h.uses j
    holds := forall_goto
      (P := fun j cj => ∀ w, cj.holds suspended = some w → s.mutex w = some j) hholds
      fun j _ => h.holds j
    ref := href
    readers := hrd
    modify := forall_goto (P := fun j cj => cj.inModify = true → s.modifyMutex = some j) hmod
      fun j _ => h.modify j
    walk := forall_goto
      (P := fun j cj => ∀ c' old n ret, cj = .walk c' old n ret → s.wrappersMutex = some j)
      hwalk fun j _ => h.walk j
    stale := hstale
    threads := fun j => by
      have := hthreads j
      show IndexOk suspended _ ((s.goto i c).pc j)
      cases hq : (s.goto i c).pc j <;> rw [hq] at this <;> exact this }

section

variable (hread : ∀ t w, c.inRead = some (t, w) → s.tls t = some w ∧ s.busy t = some i)
    (hrem : ∀ w, c = .removing w → w < s.nextWrapper ∧ ∀ t, s.tls t ≠ some w)
    (huses : ∀ w, c.uses = some w → w ∈ s.wrappers)
    (hholds : ∀ w, c.holds suspended = some w → s.mutex w = some i)
include hread hrem huses hholds

omit [DecidableEq τ] in
theorem Control.gotoReaders (href : suspended = true → ∀ w b, r w b = (rd w b).length)
    (hrd : ∀ w b, (rd w b).Nodup ∧ ∀ j, j ∈ rd w b ↔ (s.goto i c).pc j = .reading w b)
    (hmod : c.inModify = true → s.modifyMutex = some i)
    (hwalk : ∀ c' old n ret, c = .walk c' old n ret → s.wrappersMutex = some i)
    (hdes : ∀ w b, c.designates = some (w, b) → b = s.index ∨ (s.pc i).designates = some (w, b))
    (hawait : ∀ j w b, (s.pc j).designates = some (w, b) → b ≠ s.index →
      w ∈ s.awaits (s.pc i) → w ∈ s.awaits c)
    (hok : IndexOk suspended s c) : Control suspended ({ s with ref := r, readers := rd }.goto i c) := by
  have hkeep : ∀ j w b, (s.pc j).designates = some (w, b) →
      b = s.index ∨ ∃ j', w ∈ s.awaits ((s.goto i c).pc j') := by
    intro j w b hj
    by_cases hb : b = s.index
    · exact .inl hb
    rcases h.stale j w b hj with hb' | ⟨j', hj'⟩
    · exact absurd hb' hb
    refine .inr ⟨j', ?_⟩
    obtain rfl | hji := eq_or_ne j' i
    · rw [goto_self]
      exact hawait j w b hj hb hj'
    · rwa [goto_ne hji]
  exact h.gotoIndex hread hrem huses hholds href hrd hmod hwalk
    (forall_goto (s := s) (P := fun _ cj => ∀ w b, cj.designates = some (w, b) →
      b = s.index ∨ ∃ j', w ∈ s.awaits ((s.goto i c).pc j'))
      (fun w b hc => (hdes w b hc).elim .inl (hkeep i w b)) fun j _ => hkeep j)
    (forall_goto (P := fun _ => IndexOk suspended s) hok fun j _ => h.threads j)

omit [DecidableEq τ] in
/-- A party goes on and nothing else changes; it has no `ScopedPtr`. -/
theorem Control.goto (hreads : c.reads = none ∧ (s.pc i).reads = none)
    (hmod : c.inModify = true → s.modifyMutex = some i)
    (hwalk : ∀ c' old n ret, c = .walk c' old n ret → s.wrappersMutex = some i)
    (hdes : ∀ w b, c.designates = some (w, b) → b = s.index)
    (hawait : ∀ j w b, (s.pc j).designates = some (w, b) → b ≠ s.index →
      w ∈ s.awaits (s.pc i) → w ∈ s.awaits c)
    (hok : IndexOk suspended s c) : Control suspended (s.goto i c) := by
  refine h.gotoReaders hread hrem huses hholds h.ref (fun w b => ⟨(h.readers w b).1, ?_⟩) hmod
    hwalk (fun w b hc => .inl (hdes w b hc)) hawait hok
  refine forall_goto (P := fun j cj => j ∈ s.readers w b ↔ cj = .reading w b) ?_
    fun j _ => (h.readers w b).2 j
  rw [(h.readers w b).2 i]
  constructor
  · intro hc
    rw [hc] at hreads
    cases hreads.2
  · rintro rfl
    cases hreads.1

end

omit [DecidableEq τ] in
/-- A party that is neither a reader nor in `Modify` goes to a place where it is nothing of all
this. -/
theorem Control.gotoIdle (hc : c = .idle ∨ ∃ w b, c = .draining w b)
    (hreads : (s.pc i).reads = none) (hmod : (s.pc i).inModify = false) :
    Control suspended (s.goto i c) := by
  have hawait : ∀ j w b, (s.pc j).designates = some (w, b) → b ≠ s.index →
      w ∈ s.awaits (s.pc i) → w ∈ s.awaits c := by
    intro j w b _ _ hw
    have := inModify_of_awaits hw
    rw [hmod] at this
    cases this
  obtain rfl | ⟨w, b, rfl⟩ := hc
  · exact h.goto nofun nofun nofun nofun ⟨rfl, hreads⟩ nofun nofun nofun hawait trivial
  · exact h.goto nofun nofun nofun nofun ⟨rfl, hreads⟩ nofun nofun nofun hawait trivial

end

/-! ### Reading -/

theorem update₂_apply {β : Type*} (f : ℕ → Bool → β) (w : ℕ) (b : Bool) (x : β) (w' : ℕ) (b' : Bool) :
    update f w (update (f w) b x) w' b' = if w' = w ∧ b' = b then x else f w' b' := by
  obtain rfl | hw := eq_or_ne w' w
  · obtain rfl | hb := eq_or_ne b' b
    · simp
    · simp [hb]
  · simp [hw]

section

omit [DecidableEq τ]

omit [DecidableEq ι] in
theorem setRef_ref (w : ℕ) (b : Bool) (n : ℤ) (w' : ℕ) (b' : Bool) :
    (s.setRef w b n).ref w' b' = if w' = w ∧ b' = b then n else s.ref w' b' :=
  update₂_apply ..

omit [DecidableEq ι] in
@[simp] theorem setRef_readers (w : ℕ) (b : Bool) (n : ℤ) : (s.setRef w b n).readers = s.readers := rfl

theorem Control.gotoReading (h : Control suspended s)
    (hreads : (s.pc i).reads = none) (hmod : (s.pc i).inModify = false) (huses : w ∈ s.wrappers)
    (hholds : suspended = false → s.mutex w = some i)
    (hdes : b = s.index ∨ (s.pc i).designates = some (w, b))
    (hn : suspended = true → n = s.ref w b + 1) :
    Control suspended
      (((s.setRef w b n).setReaders w b (i :: s.readers w b)).goto i (.reading w b)) := by
  have hnot : i ∉ s.readers w b := fun hm => by
    rw [((h.readers w b).2 i).1 hm] at hreads
    cases hreads
  refine h.gotoReaders nofun nofun ?_ ?_ ?_ ?_ nofun nofun ?_ ?_ trivial
  · rintro _ ⟨rfl⟩
    exact huses
  · intro w' hw'
    cases hs : suspended with
    | true => simp [Pc.holds, hs] at hw'
    | false =>
      simp only [Pc.holds, hs, Bool.false_eq_true, if_false, some.injEq] at hw'
      exact hw' ▸ hholds hs
  · intro hs w' b'
    rw [setRef_ref, setRef_readers, update₂_apply]
    split
    · rw [hn hs, h.ref hs, length_cons, Int.natCast_add, Int.natCast_one]
    · exact h.ref hs w' b'
  · intro w' b'
    rw [setRef_readers, update₂_apply]
    split
    case isTrue he =>
      obtain ⟨rfl, rfl⟩ := he
      refine ⟨nodup_cons.2 ⟨hnot, (h.readers _ _).1⟩, fun j => ?_⟩
      obtain rfl | hj := eq_or_ne j i
      · simp
      · rw [goto_ne hj, mem_cons]
        simp only [hj, false_or]
        exact (h.readers _ _).2 j
    case isFalse he =>
      refine ⟨(h.readers w' b').1, fun j => ?_⟩
      rw [(h.readers w' b').2 j]
      obtain rfl | hj := eq_or_ne j i
      · rw [goto_self]
        constructor
        · intro hq
          rw [hq] at hreads
          cases hreads
        · rintro ⟨rfl, rfl⟩
          exact absurd ⟨rfl, rfl⟩ he
      · rw [goto_ne hj]
  · rintro _ _ ⟨rfl, rfl⟩
    exact hdes
  · intro _ _ _ _ _ hw
    have := inModify_of_awaits hw
    rw [hmod] at this
    cases this

theorem Control.endReading (h : Control suspended s)
    (hpc : s.pc i = .reading w b) (hn : suspended = true → n = s.ref w b - 1) :
    Control suspended
      (((s.setRef w b n).setReaders w b ((s.readers w b).erase i)).goto i .idle) := by
  have hmem : i ∈ s.readers w b := ((h.readers w b).2 i).2 hpc
  refine h.gotoReaders nofun nofun nofun nofun ?_ ?_ nofun nofun nofun ?_ trivial
  · intro hs w' b'
    rw [setRef_ref, setRef_readers, update₂_apply]
    split
    · have := length_pos_of_mem hmem
      rw [hn hs, h.ref hs, length_erase_of_mem hmem]
      lia
    · exact h.ref hs w' b'
  · intro w' b'
    rw [setRef_readers, update₂_apply]
    split
    case isTrue he =>
      obtain ⟨rfl, rfl⟩ := he
      refine ⟨(h.readers _ _).1.erase i, fun j => ?_⟩
      rw [(h.readers _ _).1.mem_erase_iff]
      obtain rfl | hj := eq_or_ne j i
      · simp
      · rw [goto_ne hj, (h.readers _ _).2 j]
        simp [hj]
    case isFalse he =>
      refine ⟨(h.readers w' b').1, fun j => ?_⟩
      rw [(h.readers w' b').2 j]
      obtain rfl | hj := eq_or_ne j i
      · rw [goto_self, hpc]
        constructor
        · rintro ⟨rfl, rfl⟩
          exact absurd ⟨rfl, rfl⟩ he
        · rintro ⟨⟩
      · rw [goto_ne hj]
  · intro _ _ _ _ _ hw
    rw [hpc] at hw
    cases hw

end

/-! ### The steps of `Read` -/

section

variable (h : Control suspended s)
include h

omit [DecidableEq ι] [DecidableEq τ] in
theorem Control.inRead_ne {t' : τ} (hb : s.busy t = none)
    (hj : (s.pc j).inRead = some (t', w)) : t' ≠ t := by
  rintro rfl
  have := (h.inRead j t' w hj).2
  rw [hb] at this
  cases this

omit [DecidableEq ι] in
theorem Control.setBusy {o : Option ι}
    (ht : ∀ j w, (s.pc j).inRead ≠ some (t, w)) :
    Control suspended { s with busy := update s.busy t o } :=
  { h with
    inRead := fun j t' w hj => by
      have hne : t' ≠ t := fun he => ht j w (he ▸ hj)
      exact ⟨(h.inRead j t' w hj).1, (update_of_ne hne ..).trans (h.inRead j t' w hj).2⟩ }

omit [DecidableEq τ] in
theorem Control.gotoAdding (hpc : s.pc i = .idle)
    (hread : s.tls t = some w ∧ s.busy t = some i) : Control suspended (s.goto i (.adding t w)) := by
  refine h.goto ?_ nofun nofun nofun ⟨rfl, by rw [hpc]; rfl⟩ nofun nofun nofun ?_ trivial
  · rintro _ _ ⟨rfl, rfl⟩
    exact hread
  · intro _ _ _ _ _ hw
    rw [hpc] at hw
    cases hw

omit [DecidableEq τ] in
theorem Control.gotoLocking
    (hreads : (s.pc i).reads = none) (hmod : (s.pc i).inModify = false)
    (hread : s.tls t = some w ∧ s.busy t = some i) (hw : w ∈ s.wrappers) :
    Control suspended (s.goto i (.locking t w)) := by
  refine h.goto ?_ nofun ?_ nofun ⟨rfl, hreads⟩ nofun nofun nofun ?_ trivial
  · rintro _ _ ⟨rfl, rfl⟩
    exact hread
  · rintro _ ⟨rfl⟩
    exact hw
  · intro _ _ _ _ _ hw
    have := inModify_of_awaits hw
    rw [hmod] at this
    cases this

theorem readStep_control (hpc : s.pc i = .idle)
    (hb : s.busy t = none) (hh : ∀ w ∈ s.tls t, s.control w = true → w ∈ s.wrappers) :
    Control suspended (readStep s i t ok) := by
  have hfree : ∀ j w, (s.pc j).inRead ≠ some (t, w) := fun j w hj => h.inRead_ne hb hj rfl
  have hbusy := h.setBusy (o := some i) hfree
  unfold readStep
  split
  case h_1 hnone =>
    split
    case isFalse => exact h
    case isTrue =>
      have hnew : Control suspended { s with
          tls := update s.tls t (some s.nextWrapper)
          control := update s.control s.nextWrapper true
          busy := update s.busy t (some i)
          nextWrapper := s.nextWrapper + 1 } := by
        have hold : ∀ t' w, t' ≠ t → s.tls t' = some w → w ≠ s.nextWrapper := fun t' w _ hw he =>
          lt_irrefl _ (he ▸ h.known t' w hw)
        exact { hbusy with
          tls := fun t1 t2 w h1 h2 => by
            by_cases ht1 : t1 = t <;> by_cases ht2 : t2 = t
            · rw [ht1, ht2]
            · simp only [ht1, update_self, update_of_ne ht2] at h1 h2
              exact absurd (some.inj h1).symm (hold t2 w ht2 h2)
            · simp only [ht2, update_self, update_of_ne ht1] at h1 h2
              exact absurd (some.inj h2).symm (hold t1 w ht1 h1)
            · simp only [update_of_ne ht1, update_of_ne ht2] at h1 h2
              exact h.tls t1 t2 w h1 h2
          known := fun t' w hw => by
            by_cases ht : t' = t
            · simp only [ht, update_self] at hw
              exact some.inj hw ▸ Nat.lt_succ_self _
            · simp only [update_of_ne ht] at hw
              exact Nat.lt_succ_of_lt (h.known t' w hw)
          inRead := fun j t' w hj => by
            have hne := h.inRead_ne hb hj
            have := h.inRead j t' w hj
            exact ⟨(update_of_ne hne ..).trans this.1, (update_of_ne hne ..).trans this.2⟩
          removing := fun j w hj => by
            obtain ⟨hlt, hw⟩ := h.removing j w hj
            refine ⟨Nat.lt_succ_of_lt hlt, fun t' ht' => ?_⟩
            by_cases ht : t' = t
            · simp only [ht, update_self] at ht'
              exact lt_irrefl _ (some.inj ht' ▸ hlt)
            · exact hw t' ((update_of_ne ht ..).symm.trans ht') }
      exact hnew.gotoAdding hpc ⟨update_self .., update_self ..⟩
  case h_2 w hw =>
    split
    case isTrue hc =>
      exact hbusy.gotoLocking (by show (s.pc i).reads = none; rw [hpc]; rfl)
        (by show (s.pc i).inModify = false; rw [hpc]; rfl) ⟨hw, update_self ..⟩ (hh w hw hc)
    case isFalse =>
      exact { hbusy.gotoAdding hpc ⟨hw, update_self ..⟩ with }

omit [DecidableEq ι] in
theorem Control.notBusy (hi : (s.pc i).inRead = some (t, w))
    {s' : State ι τ α} (hs' : Control suspended s') (hpc : ∀ j ≠ i, s'.pc j = s.pc j)
    (hc : (s'.pc i).inRead = none) :
    Control suspended { s' with busy := update s'.busy t none } := by
  refine hs'.setBusy fun j w' hj => ?_
  obtain rfl | hji := eq_or_ne j i
  · rw [hc] at hj
    cases hj
  · rw [hpc j hji] at hj
    have h1 := (h.inRead j t w' hj).2
    have h2 := (h.inRead i t w hi).2
    exact hji (some.inj (h1.symm.trans h2))

omit [DecidableEq ι] [DecidableEq τ] in
theorem Control.awaits_all (hfree : s.wrappersMutex = none)
    (hw : w ∈ s.awaits (s.pc j)) : ∃ c old ret, s.pc j = .lockWrappers c old ret := by
  cases hq : s.pc j <;> rw [hq] at hw <;> try cases hw
  case lockWrappers c old ret => exact ⟨c, old, ret, rfl⟩
  case walk c old n ret =>
    have := h.walk j c old n ret hq
    rw [hfree] at this
    cases this

theorem addStep_control
    (hpc : s.pc i = .adding t w) : Control suspended (addStep s i t w ok) := by
  have hi : (s.pc i).inRead = some (t, w) := by rw [hpc]; rfl
  unfold addStep
  split
  case isTrue => exact h
  case isFalse hmx =>
  have hfree : s.wrappersMutex = none := by simpa using hmx
  split
  case isTrue =>
    have hadd : Control suspended { s with wrappers := s.wrappers ++ [w] } :=
      { h with
        uses := fun j w' hj => mem_append_left _ (h.uses j w' hj)
        stale := fun j w' b hj => (h.stale j w' b hj).imp id fun ⟨j', hj'⟩ => by
          obtain ⟨c, old, ret, hq⟩ := h.awaits_all hfree hj'
          refine ⟨j', ?_⟩
          rw [hq] at hj' ⊢
          exact mem_append_left _ hj'
        threads := fun j => by
          have := h.threads j
          cases hq : s.pc j <;> rw [hq] at this <;> exact this }
    exact hadd.gotoLocking (by show (s.pc i).reads = none; rw [hpc]; rfl)
      (by show (s.pc i).inModify = false; rw [hpc]; rfl) (h.inRead i t w hi) (by simp)
  case isFalse =>
    have hgo := h.gotoIdle (i := i) (c := .idle) (.inl rfl) (by rw [hpc]; rfl) (by rw [hpc]; rfl)
    exact h.notBusy hi hgo (fun j hj => goto_ne hj) (by rw [goto_self]; rfl)

omit [DecidableEq τ] in
theorem lockingStep_control (hpc : s.pc i = .locking t w)
    (hfree : s.mutex w = none) :
    Control suspended ({ s with mutex := update s.mutex w (some i) }.goto i (.loading t w)) := by
  have hlock : Control suspended { s with mutex := update s.mutex w (some i) } :=
    { h with
      holds := fun j w' hj => by
        have hne : w' ≠ w := by
          rintro rfl
          have := h.holds j w' hj
          rw [hfree] at this
          cases this
        exact (update_of_ne hne ..).trans (h.holds j w' hj) }
  refine hlock.goto ?_ nofun ?_ ?_ ⟨rfl, by show (s.pc i).reads = none; rw [hpc]; rfl⟩ nofun nofun nofun
    ?_ trivial
  · rintro _ _ ⟨rfl, rfl⟩
    exact h.inRead i t w (by rw [hpc]; rfl)
  · rintro _ ⟨rfl⟩
    exact h.uses i w (by rw [hpc]; rfl)
  · rintro _ ⟨rfl⟩
    exact update_self ..
  · intro _ _ _ _ _ hw
    rw [hpc] at hw
    cases hw

theorem loadStep_control (hpc : s.pc i = .loading t w) :
    Control suspended (loadStep suspended s i t w) := by
  have hi : (s.pc i).inRead = some (t, w) := by rw [hpc]; rfl
  have hu : w ∈ s.wrappers := h.uses i w (by rw [hpc]; rfl)
  have hm : s.mutex w = some i := h.holds i w (by rw [hpc]; rfl)
  unfold loadStep
  split
  case isTrue hsus =>
    refine h.goto ?_ nofun ?_ ?_ ⟨rfl, by rw [hpc]; rfl⟩ nofun nofun ?_ ?_ hsus
    · rintro _ _ ⟨rfl, rfl⟩
      exact h.inRead i t w hi
    · rintro _ ⟨rfl⟩
      exact hu
    · rintro _ ⟨rfl⟩
      exact hm
    · rintro _ _ ⟨rfl, rfl⟩
      rfl
    · intro _ _ _ _ _ hw
      rw [hpc] at hw
      cases hw
  case isFalse hs =>
    have hgo := h.gotoReading (w := w) (b := s.index) (n := s.ref w s.index) (by rw [hpc]; rfl)
      (by rw [hpc]; rfl) hu (fun _ => hm) (.inl rfl) (fun h' => absurd h' hs)
    have hsame : s.setRef w s.index (s.ref w s.index) = s := by
      simp only [State.setRef, update_eq_self]
    rw [hsame] at hgo
    exact h.notBusy hi hgo (fun j hj => goto_ne hj) (by rw [goto_self]; rfl)

theorem countStep_control
    (hpc : s.pc i = .counting t w b) : Control suspended (countStep s i t w b) := by
  have hsus : suspended = true := by
    have := h.threads i
    rwa [hpc] at this
  have hi : (s.pc i).inRead = some (t, w) := by rw [hpc]; rfl
  have hm : s.mutex w = some i := h.holds i w (by rw [hpc]; rfl)
  have hgo := h.gotoReading (w := w) (b := b) (n := s.ref w b + 1) (by rw [hpc]; rfl)
    (by rw [hpc]; rfl) (h.uses i w (by rw [hpc]; rfl)) (fun _ => hm) (.inr (by rw [hpc]; rfl))
    (fun _ => rfl)
  have hdone := h.notBusy hi hgo (fun j hj => goto_ne hj) (by rw [goto_self]; rfl)
  exact { hdone with
    holds := fun j w' hj => by
      have hj' := hdone.holds j w' hj
      by_cases hw : w' = w
      · have hji : j = i := by
          subst hw
          exact some.inj (hj'.symm.trans hm)
        have hnone : (.reading w b : Pc τ α).holds suspended = none := by simp [Pc.holds, hsus]
        rw [hji] at hj
        change ((State.goto _ i _).pc i).holds suspended = some w' at hj
        rw [goto_self, hnone] at hj
        cases hj
      · exact (update_of_ne hw ..).trans hj' }

omit [DecidableEq τ] in
theorem releaseStep_control (hpc : s.pc i = .reading w b) :
    Control suspended (releaseStep suspended s i w b) := by
  unfold releaseStep
  split
  case isTrue =>
    split
    · exact h.endReading hpc fun _ => rfl
    · exact h
  case isFalse hs =>
    have hgo := h.endReading (n := s.ref w b) hpc (fun h' => absurd h' hs)
    have hsame : s.setRef w b (s.ref w b) = s := by
      simp only [State.setRef, update_eq_self]
    rw [hsame] at hgo
    have hm : s.mutex w = some i := h.holds i w (by rw [hpc]; simp [Pc.holds, hs])
    exact { hgo with
      holds := fun j w' hj => by
        have hj' := hgo.holds j w' hj
        have hw : w' ≠ w := by
          rintro rfl
          have hji : j = i := some.inj (hj'.symm.trans hm)
          rw [hji] at hj
          rw [goto_self] at hj
          cases hj
        exact (update_of_ne hw ..).trans hj' }

end

/-! ### The steps of `Modify` -/

section

variable (h : Control suspended s)
include h

section

omit [DecidableEq τ]

theorem enteringStep_control {fn1 fn2 : α → α × ℕ}
    (hpc : s.pc i = .entering fn1 fn2) (hfree : s.modifyMutex = none) :
    Control suspended ({ s with modifyMutex := some i, nextId := s.nextId + 1 }.goto i
        (.first ⟨s.nextId, fn1, fn2⟩ (!s.index))) := by
  have hnone : ∀ j, (s.pc j).inModify = false := by
    intro j
    cases hj : (s.pc j).inModify with
    | false => rfl
    | true =>
      have := h.modify j hj
      rw [hfree] at this
      cases this
  have hlock : Control suspended { s with modifyMutex := some i, nextId := s.nextId + 1 } :=
    { h with
      modify := fun j hj => by
        rw [hnone j] at hj
        cases hj
      threads := fun j => by
        have := h.threads j
        cases hq : s.pc j <;> rw [hq] at this <;> exact this }
  refine hlock.goto nofun nofun nofun nofun ⟨rfl, by show (s.pc i).reads = none; rw [hpc]; rfl⟩
    (fun _ => rfl) nofun nofun ?_ rfl
  intro _ _ _ _ _ hw
  rw [hpc] at hw
  cases hw

theorem lockWrappersStep_control {c : Call α}
    (hpc : s.pc i = .lockWrappers c old ret) (hfree : s.wrappersMutex = none) :
    Control suspended ({ s with wrappersMutex := some i }.goto i (.walk c old 0 ret)) := by
  have hok := h.threads i
  rw [hpc] at hok
  have hlock : Control suspended { s with wrappersMutex := some i } :=
    { h with
      walk := fun j c old n ret hj => by
        have := h.walk j c old n ret hj
        rw [hfree] at this
        cases this
      threads := fun j => by
        have := h.threads j
        cases hq : s.pc j <;> rw [hq] at this <;> exact this }
  refine hlock.goto nofun nofun nofun nofun ⟨rfl, by show (s.pc i).reads = none; rw [hpc]; rfl⟩
    (fun _ => h.modify i (by rw [hpc]; rfl)) (fun _ _ _ _ _ => rfl) nofun ?_ hok
  intro _ w _ _ _ hw
  rw [hpc] at hw
  exact hw

theorem walkStep_control {c : Call α} {n : ℕ}
    (hpc : s.pc i = .walk c old n ret) : Control suspended (walkStep suspended s i c old n ret) := by
  have hok := h.threads i
  rw [hpc] at hok
  have hmod := h.modify i (by rw [hpc]; rfl)
  unfold walkStep
  split
  case h_1 hend =>
    have hgo : Control suspended (s.goto i (.second c old ret)) := by
      refine h.goto nofun nofun nofun nofun ⟨rfl, by rw [hpc]; rfl⟩ (fun _ => hmod) nofun nofun ?_ hok
      intro _ w _ _ _ hw
      rw [hpc] at hw
      have hnil : s.wrappers.drop n = [] := drop_eq_nil_of_le (getElem?_eq_none_iff.1 hend)
      have hw' : w ∈ s.wrappers.drop n := hw
      rw [hnil] at hw'
      cases hw'
    exact { hgo with
      walk := fun j c' old' n' ret' hj => by
        obtain rfl | hji := eq_or_ne j i
        · have : (s.goto j (.second c old ret)).pc j = .walk c' old' n' ret' := hj
          rw [goto_self] at this
          cases this
        · have hj' : (s.goto i (.second c old ret)).pc j = .walk c' old' n' ret' := hj
          rw [goto_ne hji] at hj'
          exact absurd (h.modify_unique (by rw [hj']; rfl) (by rw [hpc]; rfl)) hji
      threads := fun j => by
        have := hgo.threads j
        show IndexOk suspended _ ((s.goto i (.second c old ret)).pc j)
        cases hq : (s.goto i (.second c old ret)).pc j <;> rw [hq] at this <;> exact this }
  case h_2 w hw =>
    split
    case isFalse => exact h
    case isTrue hdone =>
      refine h.goto nofun nofun nofun nofun ⟨rfl, by rw [hpc]; rfl⟩ (fun _ => hmod)
        (fun _ _ _ _ _ => h.walk i _ _ _ _ hpc) nofun ?_ hok
      intro j w' b hj hb hw'
      rw [hpc] at hw'
      have hmem : w' ∈ s.wrappers.drop n := hw'
      rw [drop_eq_getElem?_toList_append, hw] at hmem
      rcases mem_append.1 hmem with hmem | hmem
      · -- the reader would be on the wrapper that is free
        obtain rfl : w' = w := by simpa using hmem
        have hold : b = old := by
          rw [show old = _ from hok]
          cases b <;> cases hx : s.index <;> simp_all
        subst hold
        cases hq : s.pc j <;> rw [hq] at hj <;> try cases hj
        · have := h.holds j w' (by rw [hq]; rfl)
          rw [hdone.1] at this
          cases this
        · cases hsus : suspended with
          | false =>
            have := h.holds j w' (by rw [hq, hsus]; rfl)
            rw [hdone.1] at this
            cases this
          | true =>
            have hr := h.ref hsus w' b
            rw [hdone.2 hsus] at hr
            have hin := ((h.readers w' b).2 j).2 hq
            have := length_pos_of_mem hin
            lia
      · exact hmem

end

section

omit [DecidableEq τ]

omit [DecidableEq ι] in
theorem Control.others (hi : (s.pc i).inModify = true) (hj : j ≠ i) :
    (s.pc j).inModify = false := by
  cases hm : (s.pc j).inModify with
  | false => rfl
  | true => exact absurd (h.modify_unique hm hi) hj

theorem Control.endModify (hi : (s.pc i).inModify = true)
    (hreads : (s.pc i).reads = none) (hnone : s.awaits (s.pc i) = []) :
    Control suspended ({ s with modifyMutex := none }.goto i .idle) := by
  have hgo : Control suspended (s.goto i .idle) := by
    refine h.goto nofun nofun nofun nofun ⟨rfl, hreads⟩ nofun nofun nofun ?_ trivial
    intro _ _ _ _ _ hw
    rw [hnone] at hw
    cases hw
  exact { hgo with
    modify := fun j hj => by
      have hj' : ((s.goto i .idle).pc j).inModify = true := hj
      obtain rfl | hji := eq_or_ne j i
      · rw [goto_self] at hj'
        cases hj'
      · rw [goto_ne hji, h.others hi hji] at hj'
        cases hj'
    threads := fun j => by
      have := hgo.threads j
      show IndexOk suspended _ ((s.goto i .idle).pc j)
      cases hq : (s.goto i .idle).pc j <;> rw [hq] at this <;> exact this }

omit [DecidableEq ι] in
theorem Control.setData {d : Bool → α} {ap : Bool → List (ℕ × (α → α × ℕ))}
    {cs : List (Call α × ℕ)} {rs : List ℕ} {f : Bool} :
    Control suspended { s with data := d, applied := ap, calls := cs, returned := rs, fatal := f } :=
  { h with
    threads := fun j => by
      have := h.threads j
      cases hq : s.pc j <;> rw [hq] at this <;> exact this }

theorem firstStep_control {c : Call α}
    (hpc : s.pc i = .first c bg) : Control suspended (firstStep s i c bg) := by
  have hok := h.threads i
  rw [hpc] at hok
  unfold firstStep
  dsimp only
  split
  case isTrue =>
    exact (h.endModify (i := i) (by rw [hpc]; rfl) (by rw [hpc]; rfl) (by rw [hpc]; rfl)).setData
  case isFalse =>
    have hgo : Control suspended (s.goto i (.publish c bg (c.fn₁ (s.data bg)).2)) := by
      refine h.goto nofun nofun nofun nofun ⟨rfl, by rw [hpc]; rfl⟩
        (fun _ => h.modify i (by rw [hpc]; rfl)) nofun nofun ?_ hok
      intro _ _ _ _ _ hw
      rw [hpc] at hw
      cases hw
    exact hgo.setData

/-- After the flip, every reader of the other instance is on a wrapper of the list. -/
theorem publishStep_control {c : Call α}
    (hpc : s.pc i = .publish c bg ret) :
    Control suspended ({ s with index := bg }.goto i (.lockWrappers c (!bg) ret)) := by
  have hi : (s.pc i).inModify = true := by rw [hpc]; rfl
  have hidx : bg = !s.index := by
    have := h.threads i
    rwa [hpc] at this
  have hindex : ∀ j w b, (s.pc j).designates = some (w, b) → b = s.index := by
    intro j w b hj
    rcases h.stale j w b hj with hb | ⟨j', hj'⟩
    · exact hb
    · have heq := h.modify_unique (inModify_of_awaits hj') hi
      rw [heq, hpc] at hj'
      cases hj'
  have huses : ∀ j w b, (s.pc j).designates = some (w, b) → w ∈ s.wrappers := by
    intro j w b hj
    refine h.uses j w ?_
    cases hq : s.pc j <;> rw [hq] at hj <;> cases hj <;> rfl
  refine h.gotoIndex nofun nofun nofun nofun h.ref (fun w b => ⟨(h.readers w b).1, ?_⟩)
    (fun _ => h.modify i hi) nofun ?_ ?_
  · refine forall_goto (P := fun j cj => j ∈ s.readers w b ↔ cj = .reading w b) ?_
      fun j _ => (h.readers w b).2 j
    rw [(h.readers w b).2 i, hpc]
    constructor <;> nofun
  · refine forall_goto (s := s) (P := fun _ cj => ∀ w b, cj.designates = some (w, b) →
      b = bg ∨ ∃ j', w ∈ s.awaits ((s.goto i (.lockWrappers c (!bg) ret)).pc j')) nofun
      fun j _ w b hj => .inr ⟨i, ?_⟩
    rw [goto_self]
    exact huses j w b hj
  · refine forall_goto (P := fun _ => IndexOk suspended { s with index := bg }) rfl fun j hj => ?_
    have hm := h.others hi hj
    have hok := h.threads j
    cases hq : s.pc j <;> rw [hq] at hok hm <;> first | exact hok | cases hm

theorem secondStep_control {c : Call α}
    (hpc : s.pc i = .second c old ret) : Control suspended (secondStep s i c old ret) :=
  (h.endModify (i := i) (by rw [hpc]; rfl) (by rw [hpc]; rfl) (by rw [hpc]; rfl)).setData

end

end

/-! ### The end of a thread -/

theorem exitStep_control (h : Control suspended s) (hpc : s.pc i = .idle)
    (hw : s.tls t = some w) (hb : s.busy t = none) :
    Control suspended ({ s with tls := update s.tls t none }.goto i
      (if s.control w then .removing w else if suspended then .draining w false else .idle)) := by
  have hold : ∀ {t' w'}, update s.tls t none t' = some w' → t' ≠ t ∧ s.tls t' = some w' := by
    intro t' w' h'
    obtain rfl | ht := eq_or_ne t' t
    · simp at h'
    · exact ⟨ht, by rwa [update_of_ne ht] at h'⟩
  have hout : Control suspended { s with tls := update s.tls t none } :=
    { h with
      tls := fun t1 t2 w' h1 h2 => h.tls t1 t2 w' (hold h1).2 (hold h2).2
      known := fun t' w' h' => h.known t' w' (hold h').2
      inRead := fun j t' w' hj => by
        have hne := h.inRead_ne hb hj
        have := h.inRead j t' w' hj
        exact ⟨(update_of_ne hne ..).trans this.1, this.2⟩
      removing := fun j w' hj => by
        obtain ⟨hlt, hno⟩ := h.removing j w' hj
        exact ⟨hlt, fun t' h' => hno t' (hold h').2⟩
      threads := fun j => by
        have := h.threads j
        cases hq : s.pc j <;> rw [hq] at this <;> exact this }
  have hreads : (s.pc i).reads = none := by rw [hpc]; rfl
  have hmod : (s.pc i).inModify = false := by rw [hpc]; rfl
  split
  case isTrue =>
    refine hout.goto nofun ?_ nofun nofun ⟨rfl, hreads⟩ nofun nofun nofun ?_ trivial
    · rintro _ ⟨rfl⟩
      exact ⟨h.known t w hw, fun t' h' => (hold h').1 (h.tls t' t w (hold h').2 hw)⟩
    · intro _ _ _ _ _ hw'
      rw [hpc] at hw'
      cases hw'
  case isFalse =>
    split
    · exact hout.gotoIdle (.inr ⟨w, false, rfl⟩) hreads hmod
    · exact hout.gotoIdle (.inl rfl) hreads hmod

omit [DecidableEq τ] in
theorem reads_or_inRead (h : c.uses = some w) :
    c.reads = some w ∨ ∃ t, c.inRead = some (t, w) := by
  cases c <;> cases h
  case reading => exact .inl rfl
  all_goals exact .inr ⟨_, rfl⟩

omit [DecidableEq τ] in
theorem removingStep_control (h : Control suspended s) (hpc : s.pc i = .removing w)
    (hfree : s.wrappersMutex = none) (hh : ∀ j, (s.pc j).reads ≠ some w) :
    Control suspended ({ s with wrappers := s.wrappers.erase w }.goto i
      (if suspended then .draining w false else .idle)) := by
  have hother : ∀ j w', (s.pc j).uses = some w' → w' ≠ w := by
    rintro j _ hj rfl
    rcases reads_or_inRead hj with hr | ⟨t, ht⟩
    · exact hh j hr
    · exact (h.removing i _ hpc).2 t (h.inRead j t _ ht).1
  have hout : Control suspended { s with wrappers := s.wrappers.erase w } :=
    { h with
      uses := fun j w' hj => (mem_erase_of_ne (hother j w' hj)).2 (h.uses j w' hj)
      stale := fun j w' b hj => (h.stale j w' b hj).imp id fun ⟨j', hj'⟩ => by
        obtain ⟨c, old, ret, hq⟩ := h.awaits_all hfree hj'
        have hu : (s.pc j).uses = some w' := by
          cases hq : s.pc j <;> rw [hq] at hj <;> cases hj <;> rfl
        refine ⟨j', ?_⟩
        rw [hq] at hj' ⊢
        exact (mem_erase_of_ne (hother j w' hu)).2 hj'
      threads := fun j => by
        have := h.threads j
        cases hq : s.pc j <;> rw [hq] at this <;> exact this }
  have hreads : (s.pc i).reads = none := by rw [hpc]; rfl
  have hmod : (s.pc i).inModify = false := by rw [hpc]; rfl
  split
  · exact hout.gotoIdle (.inr ⟨w, false, rfl⟩) hreads hmod
  · exact hout.gotoIdle (.inl rfl) hreads hmod

/-! ### The instances -/

section

omit [DecidableEq τ]

/-- A party goes on: in `Modify` with what it knows, or outside of it. -/
theorem Content.goto (h : Content init s) (hok : ContentOk s c)
    (hc : c.inModify = true ∨ (s.pc i).inModify = false) : Content init (s.goto i c) :=
  { h with
    threads := forall_goto (P := fun _ => ContentOk s) hok fun j _ => h.threads j
    equal := fun hreg hidle => h.equal hreg fun j => by
      have hj := hidle j
      obtain rfl | hji := eq_or_ne j i
      · rw [goto_self] at hj
        rcases hc with hc | hc
        · rw [hc] at hj
          cases hj
        · exact hc
      · rwa [goto_ne hji] at hj }

omit [DecidableEq ι] in
theorem contentOk_of_not_inModify (hc : c.inModify = false) (s : State ι τ α) : ContentOk s c := by
  cases c <;> trivial

theorem Content.gotoOutside (h : Content init s) (hc : c.inModify = false)
    (hi : (s.pc i).inModify = false) : Content init (s.goto i c) :=
  h.goto (contentOk_of_not_inModify hc s) (.inr hi)

end

theorem mem_ids_update {f : Bool → List (ℕ × (α → α × ℕ))} {m : ℕ} :
    m ∈ (update f b (e :: f b) b').map Prod.fst ↔ (b' = b ∧ m = e.1) ∨ m ∈ (f b').map Prod.fst := by
  obtain rfl | hb := eq_or_ne b' b
  · simp
  · simp [hb]

section

omit [DecidableEq τ]

omit [DecidableEq ι] in
/-- A function that is applied to an instance is one more that the instance is the result of. -/
theorem Content.apply (h : Content init s) (b' : Bool) :
    update s.data b (e.2 (s.data b)).1 b' =
      (update s.applied b (e :: s.applied b) b').foldr (fun e x => (e.2 x).1) init := by
  obtain rfl | hb := eq_or_ne b' b
  · simp only [update_self, foldr_cons]
    rw [← h.applied b']
  · simp only [update_of_ne hb]
    exact h.applied b'

theorem firstStep_inv (h : Inv suspended init s) {c : Call α}
    (hpc : s.pc i = .first c bg) : Inv suspended init (firstStep s i c bg) := by
  refine ⟨firstStep_control h.control hpc, ?_⟩
  have hi : (s.pc i).inModify = true := by rw [hpc]; rfl
  have heq := h.content.threads i
  rw [hpc] at heq
  have hothers : ∀ j ≠ i, ∀ s' : State ι τ α, ContentOk s' (s.pc j) := fun j hj s' =>
    contentOk_of_not_inModify (h.control.others hi hj) s'
  have hids : ∀ m ∈ s.returned, ∀ b, m ∈ (update s.applied bg
      ((c.id, c.fn₁) :: s.applied bg) b).map Prod.fst := fun m hm b =>
    mem_ids_update.2 (.inr (h.content.returned m hm b))
  have hcont := h.content.apply (b := bg) (e := (c.id, c.fn₁))
  unfold firstStep
  dsimp only
  split
  case isTrue hret =>
    -- a call that returned zero: nothing is promised about the instances any more
    have hirr : ∀ {P : Prop}, (∀ e ∈ (c, (c.fn₁ (s.data bg)).2) :: s.calls,
        e.1.fn₁ = e.1.fn₂ ∧ e.2 ≠ 0) → P := fun hreg =>
      absurd hret (hreg _ mem_cons_self).2
    exact {
      returned := hids
      applied := hcont
      threads := forall_goto (P := fun _ => ContentOk _) trivial fun j hj => hothers j hj _
      equal := fun hreg _ => hirr hreg
      fatal := fun hreg => hirr hreg }
  case isFalse hret =>
    exact {
      returned := hids
      applied := hcont
      threads := forall_goto (P := fun _ => ContentOk _) ⟨by
          rw [Bool.not_not]
          exact mem_ids_update.2 (.inl ⟨rfl, rfl⟩), fun hreg => by
          obtain ⟨hc, hcs⟩ := forall_mem_cons.1 hreg
          have hdata : s.data (!bg) = s.data bg := by
            have := heq hcs
            cases bg
            · exact this.symm
            · exact this
          have hne : (!bg) ≠ bg := by cases bg <;> nofun
          refine ⟨hc.1, ?_, ?_⟩ <;>
            simp only [State.goto, Bool.not_not, update_self, update_of_ne hne, hdata]⟩
        fun j hj => hothers j hj _
      equal := fun _ hidle => by
        have := hidle i
        rw [goto_self] at this
        cases this
      fatal := fun hreg => h.content.fatal (forall_mem_cons.1 hreg).2 }

theorem secondStep_inv (h : Inv suspended init s) {c : Call α}
    (hpc : s.pc i = .second c old ret) : Inv suspended init (secondStep s i c old ret) := by
  refine ⟨secondStep_control h.control hpc, ?_⟩
  have hi : (s.pc i).inModify = true := by rw [hpc]; rfl
  have hahead := h.content.threads i
  rw [hpc] at hahead
  obtain ⟨hid, hval⟩ := hahead
  have hne : (!old) ≠ old := by cases old <;> nofun
  exact {
    returned := fun m hm b => by
      rcases mem_cons.1 hm with rfl | hm
      · refine mem_ids_update.2 ?_
        by_cases hb : b = old
        · exact .inl ⟨hb, rfl⟩
        · have hb' : b = !old := by cases b <;> cases old <;> simp_all
          exact .inr (hb' ▸ hid)
      · exact mem_ids_update.2 (.inr (h.content.returned m hm b))
    applied := h.content.apply (b := old) (e := (c.id, c.fn₂))
    threads := forall_goto (P := fun _ => ContentOk _) trivial fun j hj =>
      contentOk_of_not_inModify (h.control.others hi hj) _
    equal := fun hreg _ => by
      obtain ⟨hfn, hdata, _⟩ := hval hreg
      have hboth : update s.data old (c.fn₂ (s.data old)).1 (!old) =
          update s.data old (c.fn₂ (s.data old)).1 old := by
        rw [update_self, update_of_ne hne, hdata, hfn]
      cases old
      · exact hboth.symm
      · exact hboth
    fatal := fun hreg => by
      obtain ⟨hfn, _, hret⟩ := hval hreg
      show (s.fatal || (c.fn₂ (s.data old)).2 != ret) = false
      rw [h.content.fatal hreg, hret, hfn]
      simp }

end

/-! ### The run -/

theorem goStep_inv (h : Inv suspended init s) (i : ι) (ok : Bool) (hh : GoHeeds s (s.pc i)) :
    Inv suspended init (goStep suspended s i ok) := by
  have hok := h.content.threads i
  have hout := fun (c : Pc τ α) (hc : c.inModify = false) (hi : (s.pc i).inModify = false) =>
    h.content.gotoOutside hc hi
  unfold goStep
  split
  case h_1 => exact h
  case h_2 => exact h
  case h_3 t w hpc =>
    refine ⟨addStep_control h.control hpc, ?_⟩
    have hi : (s.pc i).inModify = false := by rw [hpc]; rfl
    unfold addStep
    split
    · exact h.content
    · split
      · exact { hout (.locking t w) rfl hi with }
      · exact { hout .idle rfl hi with }
  case h_4 t w hpc =>
    split
    case isTrue hfree =>
      exact ⟨lockingStep_control h.control hpc hfree,
        { hout (.loading t w) rfl (by rw [hpc]; rfl) with }⟩
    case isFalse => exact h
  case h_5 t w hpc =>
    refine ⟨loadStep_control h.control hpc, ?_⟩
    have hi : (s.pc i).inModify = false := by rw [hpc]; rfl
    unfold loadStep
    split
    · exact hout _ rfl hi
    · exact { hout (.reading w s.index) rfl hi with }
  case h_6 t w b hpc =>
    exact ⟨countStep_control h.control hpc, { hout (.reading w b) rfl (by rw [hpc]; rfl) with }⟩
  case h_7 fn1 fn2 hpc =>
    split
    case isTrue hfree =>
      have hnone : ∀ j, (s.pc j).inModify = false := fun j => by
        cases hj : (s.pc j).inModify with
        | false => rfl
        | true =>
          have := h.control.modify j hj
          rw [hfree] at this
          cases this
      exact ⟨enteringStep_control h.control hpc hfree,
        { h.content.goto (i := i) (c := .first ⟨s.nextId, fn1, fn2⟩ (!s.index))
            (fun hreg => h.content.equal hreg hnone) (.inl rfl) with }⟩
    case isFalse => exact h
  case h_8 c bg hpc => exact firstStep_inv h hpc
  case h_9 c bg ret hpc =>
    rw [hpc] at hok
    exact ⟨publishStep_control h.control hpc,
      { h.content.goto (i := i) (c := .lockWrappers c (!bg) ret) hok (.inl rfl) with }⟩
  case h_10 c old ret hpc =>
    rw [hpc] at hok
    split
    case isTrue hfree =>
      exact ⟨lockWrappersStep_control h.control hpc hfree,
        { h.content.goto (i := i) (c := .walk c old 0 ret) hok (.inl rfl) with }⟩
    case isFalse => exact h
  case h_11 c old n ret hpc =>
    rw [hpc] at hok
    refine ⟨walkStep_control h.control hpc, ?_⟩
    unfold walkStep
    split
    · exact { h.content.goto (i := i) (c := .second c old ret) hok (.inl rfl) with }
    · split
      · exact h.content.goto hok (.inl rfl)
      · exact h.content
  case h_12 c old ret hpc => exact secondStep_inv h hpc
  case h_13 w hpc =>
    rw [hpc] at hh
    have hi : (s.pc i).inModify = false := by rw [hpc]; rfl
    split
    case isTrue hfree =>
      refine ⟨removingStep_control h.control hpc hfree hh, ?_⟩
      split
      · exact { hout (.draining w false) rfl hi with }
      · exact { hout .idle rfl hi with }
    case isFalse => exact h
  case h_14 w b hpc =>
    have hi : (s.pc i).inModify = false := by rw [hpc]; rfl
    have hreads : (s.pc i).reads = none := by rw [hpc]; rfl
    split
    case isTrue =>
      split
      · exact ⟨h.control.gotoIdle (.inl rfl) hreads hi, hout _ rfl hi⟩
      · exact ⟨h.control.gotoIdle (.inr ⟨w, true, rfl⟩) hreads hi, hout _ rfl hi⟩
    case isFalse => exact h

theorem step_inv (s : State ι τ α) (a : Act ι τ α) (h : Inv suspended init s) (ha : Heeds s a) :
    Inv suspended init (step suspended s a) := by
  cases a with
  | read i t ok =>
    simp only [step]
    split
    case h_1 hpc =>
      have hi : (s.pc i).inModify = false := by rw [hpc]; rfl
      split
      case isTrue hb =>
        refine ⟨readStep_control h.control hpc hb ha, ?_⟩
        unfold readStep
        split
        · split
          · exact { h.content.gotoOutside (c := .adding t s.nextWrapper) rfl hi with }
          · exact h.content
        next w _ =>
          split
          · exact { h.content.gotoOutside (c := .locking t w) rfl hi with }
          · exact { h.content.gotoOutside (c := .adding t w) rfl hi with }
      case isFalse => exact h
    case h_2 => exact h
  | release i =>
    simp only [step]
    split
    case h_1 w b hpc =>
      have hi : (s.pc i).inModify = false := by rw [hpc]; rfl
      refine ⟨releaseStep_control h.control hpc, ?_⟩
      unfold releaseStep
      split
      · split
        · exact { h.content.gotoOutside (c := .idle) rfl hi with }
        · exact h.content
      · exact { h.content.gotoOutside (c := .idle) rfl hi with }
    case h_2 => exact h
  | modify i fn1 fn2 =>
    simp only [step]
    split
    case h_1 hpc =>
      refine ⟨?_, h.content.gotoOutside rfl (by rw [hpc]; rfl)⟩
      refine h.control.goto nofun nofun nofun nofun ⟨rfl, by rw [hpc]; rfl⟩ nofun nofun nofun ?_ trivial
      intro _ _ _ _ _ hw
      rw [hpc] at hw
      cases hw
    case h_2 => exact h
  | exit i t =>
    simp only [step]
    split
    case h_1 w hpc hw =>
      have hi : (s.pc i).inModify = false := by rw [hpc]; rfl
      split
      case isTrue hb =>
        refine ⟨exitStep_control h.control hpc hw hb, ?_⟩
        have hc : (if s.control w then .removing w else if suspended then .draining w false
            else .idle : Pc τ α).inModify = false := by
          split
          · rfl
          · split <;> rfl
        exact { h.content.gotoOutside hc hi with }
      case isFalse => exact h
    case h_2 => exact h
  | go i ok => exact goStep_inv h i ok ha

end Inv

/-- **Readers and writer are isolated**, in runs where the wrapper of a thread that exits has no
reader when it leaves the list and no `Read` uses a wrapper that is not in it. -/
theorem run_isolated (suspended : Bool) (init : α) (as : List (Act ι τ α))
    (hc : Along (step suspended) Heeds (start ι τ init) as) :
    Isolated init (runFrom (step suspended) (start ι τ init) as) :=
  (hc.run step_inv (inv_start init)).isolated

def incr (n : ℕ) : ℕ × ℕ := (n + 1, 1)

local instance neZero3 : NeZero 3 := ⟨by decide⟩
local instance neZero2 : NeZero 2 := ⟨by decide⟩

/-- Fiber 0 reads on thread 0, up to its `ScopedPtr`. -/
def readActs : List (Act (Fin 3) (Fin 2) ℕ) :=
  [.read 0 0 true, .go 0 true, .go 0 true, .go 0 true, .go 0 true]

/-- Party 2 modifies, up to the walk. -/
def modifyActs : List (Act (Fin 3) (Fin 2) ℕ) :=
  [.modify 2 incr incr, .go 2 true, .go 2 true, .go 2 true, .go 2 true]

/-- A `Modify` waits for the reader on the old instance, and thread 0 exits after all. -/
theorem run_isolated_wait :
    let as := readActs ++ modifyActs ++ [.go 2 true, .release 0, .go 2 true, .go 2 true, .go 2 true,
      .exit 1 0, .go 1 true, .go 1 true, .go 1 true]
    let s := runFrom (step true) (start (Fin 3) (Fin 2) 0) as
    s.returned = [0] ∧ s.data false = 1 ∧ s.data true = 1 ∧ s.wrappers = [] ∧ Isolated 0 s := by
  intro as s
  have hc : Along (step true) Heeds (start (Fin 3) (Fin 2) 0) as := by decide
  exact ⟨by decide, by decide, by decide, by decide,
    run_isolated true 0 as hc⟩

/-- Thread 0 exits while fiber 0, which has moved to another thread, still reads: the wrapper is not
in the list any more when `Modify` walks it. -/
theorem exit_not_isolated :
    ¬ ∀ (suspended : Bool) (init : ℕ) (as : List (Act (Fin 3) (Fin 2) ℕ)),
      Isolated init (runFrom (step suspended) (start (Fin 3) (Fin 2) init) as) := by
  intro h
  have happart := (h true 0 (readActs ++ [.exit 1 0, .go 1 true] ++ modifyActs ++ [.go 2 true])).apart
    0 0 false rfl 2
  exact happart (by decide)

end Eabase.Utility.DoublyBufferedData
