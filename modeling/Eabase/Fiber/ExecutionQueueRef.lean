import Mathlib.Data.Fintype.Basic
import Eabase.Lib.Machine

/-!
# The references of an execution queue

One slot of the resource pool, which is used again and again. Version and count
share the word `_versioned_ref`; every operation on it is one step, and so is
each access to `_this_id`. The ids of a slot differ in their version only, so
the version stands for the id.

A party is a thread with at most one call and one `scoped_ptr` at a time: it
creates a queue, or addresses one, and from then on may stop it or drop its
reference. `_stopped` is read by `execute` only and is left out, as are the
fields that `create` sets for the consumer.

`dereference` reads `_this_id` after it has given its reference back. By then a
failed address may have recycled the slot, and a later `create` may have given
it another id. The rest is sound: that is what holds in runs where `create`
stores `_this_id` while nobody is about to read it there.
-/

namespace Eabase.Fiber.ExecutionQueueRef

open Lib List

variable {ι : Type*} [DecidableEq ι]

/-! ## The word -/

def u32 (n : ℕ) : ℕ := n % 2 ^ 32

/-- `_version_of_vref`. -/
def versionOf (vref : ℕ) : ℕ := vref / 2 ^ 32

/-- `_ref_of_vref` as it is used, in an `int32_t`. -/
def refOf (vref : ℕ) : ℤ :=
  if vref % 2 ^ 32 < 2 ^ 31 then (vref % 2 ^ 32 : ℕ) else (vref % 2 ^ 32 : ℕ) - (2 ^ 32 : ℕ)

/-- `_make_vref`. -/
def makeVref (version ref : ℕ) : ℕ := u32 version * 2 ^ 32 + u32 ref

def fetchAdd (vref : ℕ) : ℕ := (vref + 1) % 2 ^ 64

def fetchSub (vref : ℕ) : ℕ := if vref = 0 then 2 ^ 64 - 1 else vref - 1

/-! ## The machine -/

/-- Where a party stands. `takeRef` and `nameIt` are the steps of `create` with the slot it got;
`unref` is in front of the `fetch_sub` of an `address` that did not match; `stopId` to `stopCas` are
the steps of `stop`; `deref` and `readId` those of `dereference`, which goes `back` to a holder
after `stop`; `recycle` is in front of the exchange that recycles the slot. -/
inductive Pc where
  | idle
  | takeRef
  | nameIt (version : ℕ)
  | unref (ver1 : ℕ)
  | holding (id : ℕ)
  | stopId (id : ℕ)
  | stopLoad (id idVer : ℕ)
  | stopCas (id idVer vref : ℕ)
  | deref (back : Option ℕ)
  | readId (vref : ℕ) (back : Option ℕ)
  | recycle (expected version : ℕ) (back : Option ℕ)
  deriving DecidableEq

/-- Where `dereference` returns to. -/
def Pc.after : Option ℕ → Pc
  | none => .idle
  | some id => .holding id

/-- The life of the slot: in the pool, taken by a creator, with the reference of its creation but
without its id; with a queue; stopped by a party that has not yet dropped that reference; stopped;
recycled, with a stop task under way. -/
inductive Stage (ι : Type*) where
  | free
  | taken (i : ι)
  | naming (i : ι)
  | live
  | stopping (i : ι)
  | draining
  | recycled
  deriving DecidableEq

/-- The two words of the slot and the parties. What is counted: the generation, the parties whose
reference is in the word, the ids that were returned, those of successful stops, and those of which
`_on_recycle` was called. `fatal` is any `LOG(FATAL)` or `CHECK` that failed. -/
structure State (ι : Type*) where
  vref : ℕ
  thisId : ℕ
  pc : ι → Pc
  stage : Stage ι
  generation : ℕ
  holders : List ι
  ids : List ℕ
  stopped : List ℕ
  recycled : List ℕ
  fatal : Bool

/-- A slot that was never used; `thisId` is not set. -/
def start (ι : Type*) (thisId : ℕ) : State ι where
  vref := 0
  thisId := thisId
  pc _ := .idle
  stage := .free
  generation := 0
  holders := []
  ids := []
  stopped := []
  recycled := []
  fatal := false

/-- One label of a run. `giveBack` is the end of the stop task, which returns the slot. -/
inductive Act (ι : Type*) where
  | create (i : ι)
  | address (i : ι) (id : ℕ)
  | stop (i : ι)
  | release (i : ι)
  | go (i : ι)
  | giveBack

section

variable (s : State ι) (i : ι)

/-- Party `i` goes to `c`. -/
def State.goto (c : Pc) : State ι :=
  { s with pc := Function.update s.pc i c }

/-- The `fetch_add` of `address` and the comparison with the version of the id. -/
def addressStep (id : ℕ) : State ι :=
  { s with vref := fetchAdd s.vref, holders := i :: s.holders }.goto i
    (if versionOf s.vref = id then .holding id else .unref (versionOf s.vref))

/-- The `fetch_sub` of `address` and what follows from its result. -/
def unrefStep (ver1 : ℕ) : State ι :=
  let s' := { s with vref := fetchSub s.vref, holders := s.holders.erase i }
  let nref := refOf s.vref
  let ver2 := versionOf s.vref
  if 1 < nref then s'.goto i .idle
  else if nref = 1 then
    if ver2 % 2 = 1 then
      if ver1 = ver2 ∨ u32 (ver1 + 1) = ver2 then
        s'.goto i (.recycle (s.vref - 1) (ver2 + 1) none)
      else { s' with fatal := true }.goto i .idle
    else { s' with fatal := s.fatal || ver1 != ver2 }.goto i .idle
  else { s' with fatal := true }.goto i .idle

/-- The exchange of `stop`, after the test of the version. -/
def stopStep (id idVer vref : ℕ) : State ι :=
  if versionOf vref ≠ idVer then s.goto i (.holding id)
  else if s.vref = vref then
    { s with
      vref := makeVref (idVer + 1) vref
      stopped := idVer :: s.stopped
      stage := .stopping i }.goto i (.deref (some id))
  else s.goto i (.stopCas id idVer s.vref)

/-- The `fetch_sub` of `dereference`: of the reference of the creation, or of the party's own. -/
def derefStep (back : Option ℕ) : State ι :=
  let s' := match back with
    | none => { s with vref := fetchSub s.vref, holders := s.holders.erase i }
    | some _ => { s with vref := fetchSub s.vref, stage := .draining }
  s'.goto i (if 1 < refOf s.vref then .after back else .readId s.vref back)

/-- The read of `_this_id` and what follows from it. -/
def readIdStep (vref : ℕ) (back : Option ℕ) : State ι :=
  if refOf vref = 1 then
    if versionOf vref = s.thisId ∨ versionOf vref = u32 (s.thisId + 1) then
      s.goto i (.recycle (vref - 1) (s.thisId + 2) back)
    else { s with fatal := true }.goto i (.after back)
  else { s with fatal := true }.goto i (.after back)

/-- The exchange that recycles the slot: to the next even version, without references. -/
def recycleStep (expected version : ℕ) (back : Option ℕ) : State ι :=
  if s.vref = expected then
    { s with
      vref := makeVref version 0
      recycled := (version - 2) :: s.recycled
      generation := s.generation + 1
      stage := .recycled }.goto i (.after back)
  else s.goto i (.after back)

/-- The next step of party `i`. -/
def goStep : State ι :=
  match s.pc i with
  | .idle | .holding _ => s
  | .takeRef =>
    { s with vref := fetchAdd s.vref, stage := .naming i }.goto i (.nameIt (versionOf s.vref))
  | .nameIt version =>
    { s with thisId := version, ids := version :: s.ids, stage := .live }.goto i .idle
  | .unref ver1 => unrefStep s i ver1
  | .stopId id => s.goto i (.stopLoad id s.thisId)
  | .stopLoad id idVer => s.goto i (.stopCas id idVer s.vref)
  | .stopCas id idVer vref => stopStep s i id idVer vref
  | .deref back => derefStep s i back
  | .readId vref back => readIdStep s i vref back
  | .recycle expected version back => recycleStep s i expected version back

end

/-- One step of the machine. Every id that is used was returned by a `create`. -/
def step (s : State ι) : Act ι → State ι
  | .create i =>
    if s.pc i = .idle ∧ s.stage = .free then { s with stage := .taken i }.goto i .takeRef else s
  | .address i id => if s.pc i = .idle ∧ id ∈ s.ids then addressStep s i id else s
  | .stop i =>
    match s.pc i with
    | .holding id => s.goto i (.stopId id)
    | _ => s
  | .release i =>
    match s.pc i with
    | .holding _ => s.goto i (.deref none)
    | _ => s
  | .go i => goStep s i
  | .giveBack => if s.stage = .recycled then { s with stage := .free } else s

/-! ## The property -/

/-- The reference of the creation is in the word. -/
def Stage.additional : Stage ι → Bool
  | .naming _ | .live | .stopping _ => true
  | _ => false

/-- The party has a reference: its `fetch_sub` is still to come. -/
def Pc.owns : Pc → Bool
  | .unref _ | .holding _ | .stopId _ | .stopLoad _ _ | .stopCas _ _ _ | .deref _ => true
  | .readId _ back | .recycle _ _ back => back.isSome
  | .idle | .takeRef | .nameIt _ => false

/-- The party got the queue for `id` and may use it. -/
def Pc.uses (id : ℕ) : Pc → Prop
  | .holding d | .stopId d | .stopLoad d _ | .stopCas d _ _ | .deref (some d) => d = id
  | _ => False

structure Balanced (s : State ι) : Prop where
  /-- a queue is recycled once, after it was stopped and nobody uses it -/
  once : s.recycled.Nodup
  afterStop : ∀ id ∈ s.recycled, id ∈ s.stopped ∧ ∀ i, ¬ (s.pc i).uses id
  /-- and it has been recycled when its slot is used again, or when it was stopped and all calls are
  over -/
  reused : ∀ id ∈ s.ids.tail, id ∈ s.recycled
  notLost : (∀ i, s.pc i = .idle) → ∀ id ∈ s.stopped, id ∈ s.recycled
  /-- only the newest id gives a queue -/
  newest : ∀ i id, (s.pc i).uses id → s.ids.head? = some id
  refused : ∀ i, s.pc i = .idle → ∀ id ∈ s.recycled,
    (step s (.address i id)).pc i = .idle ∨ ∃ ver1, (step s (.address i id)).pc i = .unref ver1
  /-- every reference in the word belongs to somebody who will give it back -/
  count : refOf s.vref = s.holders.length + if s.stage.additional then 1 else 0
  holders : s.holders.Nodup ∧ ∀ i, i ∈ s.holders ↔ (s.pc i).owns = true
  /-- no `LOG(FATAL)` and no failed `CHECK` -/
  fatal : s.fatal = false

/-- The party is about to read `_this_id` in `dereference`. -/
def Pc.readsId : Pc → Bool
  | .readId _ _ => true
  | _ => false

/-- The condition on a party that is at `c` and moves. -/
def GoHeeds (s : State ι) : Pc → Prop
  | .takeRef => refOf s.vref + 1 < 2 ^ 31 ∧ versionOf s.vref + 2 < 2 ^ 32
  | .nameIt _ => ∀ j, (s.pc j).readsId = false
  | _ => True

/-- The condition on a step: when `create` stores `_this_id`, nobody is about to read it in
`dereference`; the count stays below `2 ^ 31` and the version does not wrap. -/
def Heeds (s : State ι) : Act ι → Prop
  | .address _ _ => refOf s.vref + 1 < 2 ^ 31
  | .go i => GoHeeds s (s.pc i)
  | _ => True

instance [Fintype ι] (s : State ι) : ∀ c, Decidable (GoHeeds s c)
  | .takeRef => inferInstanceAs (Decidable (_ ∧ _))
  | .nameIt _ => inferInstanceAs (Decidable (∀ j, (s.pc j).readsId = false))
  | .idle | .unref _ | .holding _ | .stopId _ | .stopLoad _ _ | .stopCas _ _ _ | .deref _
  | .readId _ _ | .recycle _ _ _ => isTrue trivial

instance [Fintype ι] (s : State ι) : ∀ a, Decidable (Heeds s a)
  | .address _ _ => inferInstanceAs (Decidable (refOf s.vref + 1 < 2 ^ 31))
  | .go i => inferInstanceAs (Decidable (GoHeeds s (s.pc i)))
  | .create _ | .stop _ | .release _ | .giveBack => isTrue trivial

/-! ## The invariant -/

def word (v r : ℕ) : ℕ := v * 2 ^ 32 + r

/-- The ids of `n` generations, newest first. -/
def evens : ℕ → List ℕ
  | 0 => []
  | n + 1 => 2 * n :: evens n

def Stage.odd : Stage ι → Bool
  | .stopping _ | .draining => true
  | _ => false

def Stage.named : Stage ι → Bool
  | .live | .stopping _ | .draining => true
  | _ => false

def Stage.busy : Stage ι → Bool
  | .naming _ | .live | .stopping _ | .draining => true
  | _ => false

section

variable (s : State ι)

/-- The version and the count that the word has. -/
def State.version : ℕ := 2 * s.generation + s.stage.odd.toNat

def State.refs : ℕ := s.holders.length + s.stage.additional.toNat

/-- `id` is that of the queue in the slot. -/
def State.Current (id : ℕ) : Prop := id = 2 * s.generation ∧ s.stage.named = true

/-- What holds of party `i` at `c`. -/
def ThreadOk (i : ι) : Pc → Prop
  | .idle => True
  | .takeRef => s.stage = .taken i
  | .nameIt version => s.stage = .naming i ∧ version = 2 * s.generation
  | .unref ver1 => ver1 = s.version ∨ (ver1 + 1 = s.version ∧ s.version % 2 = 1)
  | .holding id | .stopId id => s.Current id
  | .stopLoad id idVer | .stopCas id idVer _ => s.Current id ∧ idVer = id
  | .deref none => ∃ id, s.Current id
  | .deref (some id) => s.Current id ∧ s.stage = .stopping i
  | .readId vref back => back = none ∧ vref = word (s.thisId + 1) 1 ∧ s.thisId % 2 = 0 ∧
      s.thisId + 1 < 2 ^ 32
  | .recycle expected version back => back = none ∧ version % 2 = 0 ∧ 0 < version ∧
      expected = word (version - 1) 0

/-- Party `j` is about to recycle the slot. -/
def State.Closes (j : ι) : Prop :=
  (s.pc j).readsId = true ∨ ∃ version back, s.pc j = .recycle (word s.version 0) version back

end

structure Inv (s : State ι) : Prop where
  vref : s.vref = word s.version s.refs
  refs : s.refs < 2 ^ 31
  small : 2 * s.generation + 2 * s.stage.busy.toNat < 2 ^ 32
  thisId : s.stage.named = true → s.thisId = 2 * s.generation
  nodup : s.holders.Nodup
  holders : ∀ i, i ∈ s.holders ↔ (s.pc i).owns = true
  thread : ∀ i, ThreadOk s i (s.pc i)
  stopping : ∀ i, s.stage = .stopping i → ∃ id, s.pc i = .deref (some id)
  closing : s.stage = .draining → s.holders = [] → ∃ j, s.Closes j
  ids : s.ids = evens (s.generation + s.stage.named.toNat)
  stopped : s.stopped = evens (s.generation + s.stage.odd.toNat)
  recycled : s.recycled = evens s.generation
  fatal : s.fatal = false

section Words

variable {v r n id : ℕ} {v' : ℕ}

theorem versionOf_word (hr : r < 2 ^ 32) : versionOf (word v r) = v := by
  simp only [versionOf, word]
  lia

theorem refOf_word (hr : r < 2 ^ 31) : refOf (word v r) = r := by
  have hmod : word v r % 2 ^ 32 = r := by
    simp only [word]
    lia
  rw [refOf, hmod, if_pos hr]

theorem fetchAdd_word (hv : v < 2 ^ 32) (hr : r + 1 < 2 ^ 32) :
    fetchAdd (word v r) = word v (r + 1) := by
  simp only [fetchAdd, word]
  lia

theorem fetchSub_word : fetchSub (word v (r + 1)) = word v r := by
  simp only [fetchSub, word, ← Nat.add_assoc, Nat.add_one_ne_zero, if_false, Nat.add_sub_cancel]

theorem word_sub_one : word v 1 - 1 = word v 0 := by
  rw [word, word, Nat.add_sub_cancel, Nat.add_zero]

theorem makeVref_word (hv : v' < 2 ^ 32) (hr : r < 2 ^ 32) :
    makeVref v' (word v r) = word v' r := by
  simp only [makeVref, u32, word]
  lia

theorem makeVref_zero (hv : v < 2 ^ 32) : makeVref v 0 = word v 0 := by
  simp only [makeVref, u32, word]
  lia

theorem word_inj {r' : ℕ} (hr : r < 2 ^ 32) (hr' : r' < 2 ^ 32) (h : word v r = word v' r') :
    v = v' ∧ r = r' := by
  simp only [word] at h
  lia

theorem mem_evens : id ∈ evens n ↔ id % 2 = 0 ∧ id < 2 * n := by
  induction n with
  | zero => simp [evens]
  | succ n ih =>
    simp only [evens, mem_cons, ih]
    lia

theorem nodup_evens : (evens n).Nodup := by
  induction n with
  | zero => exact nodup_nil
  | succ n ih =>
    refine nodup_cons.2 ⟨?_, ih⟩
    rw [mem_evens]
    lia

end Words

section Consequences

variable {s : State ι} {i : ι} {id : ℕ} {c : Pc}

section

omit [DecidableEq ι]

theorem Inv.version_small (h : Inv s) : s.version < 2 ^ 32 := by
  have := h.small
  cases hs : s.stage <;> simp_all [State.version, Stage.busy, Stage.odd] <;> lia

theorem Inv.versionOf_eq (h : Inv s) : versionOf s.vref = s.version := by
  rw [h.vref]
  exact versionOf_word (lt_trans h.refs (by decide))

theorem Inv.refOf_eq (h : Inv s) : refOf s.vref = s.refs := by
  rw [h.vref]
  exact refOf_word h.refs

theorem ThreadOk.current (h : ThreadOk s i c) (hu : c.uses id) : s.Current id := by
  cases c with
  | holding d | stopId d =>
    obtain rfl : d = id := hu
    exact h
  | stopLoad d | stopCas d =>
    obtain rfl : d = id := hu
    exact h.1
  | deref back =>
    cases back with
    | none => exact hu.elim
    | some d =>
      obtain rfl : d = id := hu
      exact h.1
  | idle | takeRef | nameIt | unref | readId | recycle => exact hu.elim

theorem Inv.tail_ids (h : Inv s) : ∀ d ∈ s.ids.tail, d ∈ s.recycled := by
  intro d hd
  rw [h.ids] at hd
  rw [h.recycled]
  cases hn : s.stage.named with
  | false =>
    rw [hn] at hd
    exact mem_of_mem_tail hd
  | true =>
    rw [hn] at hd
    exact hd

end

@[simp] theorem goto_self : (s.goto i c).pc i = c := Function.update_self ..

theorem goto_ne {j : ι} (hj : j ≠ i) : (s.goto i c).pc j = s.pc j := Function.update_of_ne hj ..

theorem Inv.refused (h : Inv s) (hi : s.pc i = .idle) (hid : id ∈ s.recycled) :
    (step s (.address i id)).pc i = .idle ∨ ∃ ver1, (step s (.address i id)).pc i = .unref ver1 := by
  have hlt : id < 2 * s.generation := by
    rw [h.recycled, mem_evens] at hid
    exact hid.2
  have hne : versionOf s.vref ≠ id := by
    rw [h.versionOf_eq]
    refine ne_of_gt (lt_of_lt_of_le hlt ?_)
    exact Nat.le_add_right ..
  simp only [step, addressStep, if_neg hne]
  split
  · exact .inr ⟨versionOf s.vref, goto_self⟩
  · exact .inl hi

theorem Inv.balanced (h : Inv s) : Balanced s where
  once := by
    rw [h.recycled]
    exact nodup_evens
  afterStop id hid := by
    rw [h.recycled, mem_evens] at hid
    refine ⟨?_, ?_⟩
    · rw [h.stopped, mem_evens]
      lia
    · intro i hu
      have := ((h.thread i).current hu).1
      lia
  reused := h.tail_ids
  notLost hidle id hid := by
    have hempty : s.holders = [] := by
      refine eq_nil_iff_forall_not_mem.2 fun i hi => ?_
      have := (h.holders i).1 hi
      rw [hidle i] at this
      cases this
    rw [h.stopped] at hid
    rw [h.recycled]
    cases hs : s.stage with
    | stopping j =>
      obtain ⟨d, hd⟩ := h.stopping j hs
      rw [hidle j] at hd
      cases hd
    | draining =>
      obtain ⟨j, hj⟩ := h.closing hs hempty
      rw [State.Closes, hidle j] at hj
      rcases hj with hj | ⟨_, _, hj⟩ <;> cases hj
    | free | taken | naming | live | recycled =>
      rw [hs] at hid
      exact hid
  newest i id hu := by
    obtain ⟨rfl, hn⟩ := (h.thread i).current hu
    rw [h.ids, hn]
    rfl
  refused i hi id hid := h.refused hi hid
  count := by
    rw [h.refOf_eq, State.refs]
    cases s.stage.additional <;> simp
  holders := ⟨h.nodup, h.holders⟩
  fatal := h.fatal

end Consequences

omit [DecidableEq ι] in
theorem start_inv (thisId : ℕ) : Inv (start ι thisId) where
  vref := by simp [start, word, State.version, State.refs, Stage.odd, Stage.additional]
  refs := by simp [start, State.refs, Stage.additional]
  small := by simp [start, Stage.busy]
  thisId := nofun
  nodup := nodup_nil
  holders _ := ⟨nofun, nofun⟩
  thread _ := trivial
  stopping := nofun
  closing := nofun
  ids := rfl
  stopped := rfl
  recycled := rfl
  fatal := rfl

section Steps

variable {s s' : State ι} {i j : ι} {c : Pc} {d vref : ℕ} {back : Option ℕ} {version : ℕ}

omit [DecidableEq ι] in
theorem ThreadOk.congr (h : ThreadOk s j c) (hgen : s'.generation = s.generation)
    (hver : s'.version = s.version ∨ (s'.version = s.version + 1 ∧ s.version % 2 = 0))
    (hnamed : s.stage.named = true → s'.stage.named = true)
    (htaken : s.stage = .taken j → s'.stage = .taken j)
    (hnaming : s.stage = .naming j → s'.stage = .naming j)
    (hstopping : s.stage = .stopping j → s'.stage = .stopping j)
    (hid : c.readsId = true → s'.thisId = s.thisId) : ThreadOk s' j c := by
  have hcur : ∀ id, s.Current id → s'.Current id := by
    rintro id ⟨hid, hn⟩
    exact ⟨by rw [hgen]; exact hid, hnamed hn⟩
  cases c with
  | idle => trivial
  | takeRef => exact htaken h
  | nameIt version => exact ⟨hnaming h.1, by rw [hgen]; exact h.2⟩
  | unref ver1 =>
    simp only [ThreadOk] at h ⊢
    lia
  | holding id | stopId id => exact hcur id h
  | stopLoad id | stopCas id => exact ⟨hcur id h.1, h.2⟩
  | deref back =>
    cases back with
    | none =>
      obtain ⟨id, h⟩ := h
      exact ⟨id, hcur id h⟩
    | some id => exact ⟨hcur id h.1, hstopping h.2⟩
  | readId vref back =>
    simp only [ThreadOk, hid rfl]
    exact h
  | recycle expected version back => exact h

theorem Inv.holders_goto (h : Inv s) (hpc : s'.pc = s.pc) (ho : c.owns = (s.pc i).owns) (j : ι) :
    j ∈ s.holders ↔ ((s'.goto i c).pc j).owns = true := by
  refine (h.holders j).trans ?_
  obtain rfl | hj := eq_or_ne j i
  · rw [goto_self, ho]
  · rw [goto_ne hj, hpc]

omit [DecidableEq ι] in
theorem Inv.not_stopping (h : Inv s) (hi : ∀ d, s.pc i ≠ .deref (some d)) : s.stage ≠ .stopping i := by
  intro hst
  obtain ⟨d, hd⟩ := h.stopping i hst
  exact hi d hd

theorem Inv.goto (h : Inv s) (ht : ThreadOk s i c) (ho : c.owns = (s.pc i).owns)
    (hs : s.stage ≠ .stopping i)
    (hc : s.stage = .draining → s.holders = [] → s.Closes i → (s.goto i c).Closes i) :
    Inv (s.goto i c) := by
  refine ⟨h.vref, h.refs, h.small, h.thisId, h.nodup, ?_, ?_, ?_, ?_, h.ids, h.stopped, h.recycled,
    h.fatal⟩
  · exact h.holders_goto rfl ho
  · intro j
    obtain rfl | hj := eq_or_ne j i
    · rw [goto_self]
      exact ht.congr rfl (.inl rfl) id id id id (fun _ => rfl)
    · rw [goto_ne hj]
      exact (h.thread j).congr rfl (.inl rfl) id id id id (fun _ => rfl)
  · intro j hj
    obtain ⟨id, hid⟩ := h.stopping j hj
    have hji : j ≠ i := by
      rintro rfl
      exact hs hj
    exact ⟨id, by rw [goto_ne hji]; exact hid⟩
  · intro hd he
    obtain ⟨j, hj⟩ := h.closing hd he
    obtain rfl | hji := eq_or_ne j i
    · exact ⟨j, hc hd he hj⟩
    · refine ⟨j, ?_⟩
      rw [State.Closes, goto_ne hji]
      exact hj

omit [DecidableEq ι] in
theorem ThreadOk.recycled (h : ThreadOk s j c) (ho : c.owns = false) (hs : s.stage = .draining)
    (hid : s'.thisId = s.thisId) : ThreadOk s' j c := by
  cases c with
  | idle => trivial
  | takeRef =>
    rw [ThreadOk, hs] at h
    cases h
  | nameIt =>
    rw [ThreadOk, hs] at h
    cases h.1
  | readId =>
    simp only [ThreadOk, hid]
    exact h
  | recycle => exact h
  | unref | holding | stopId | stopLoad | stopCas | deref => cases ho

section

variable (h : Inv s)
include h

theorem create_inv (hi : s.pc i = .idle) (hfree : s.stage = .free) :
    Inv ({ s with stage := .taken i }.goto i .takeRef) := by
  have hver : ({ s with stage := .taken i }.goto i .takeRef).version = s.version := by
    simp [State.version, State.goto, hfree, Stage.odd]
  refine ⟨?_, ?_, ?_, nofun, h.nodup, ?_, ?_, nofun, nofun, ?_, ?_, h.recycled, h.fatal⟩
  · rw [hver]
    simpa [State.refs, State.goto, hfree, Stage.additional] using h.vref
  · simpa [State.refs, State.goto, hfree, Stage.additional] using h.refs
  · simpa [State.goto, hfree, Stage.busy] using h.small
  · exact h.holders_goto rfl (by rw [hi]; rfl)
  · intro j
    obtain rfl | hj := eq_or_ne j i
    · rw [goto_self]
      rfl
    · rw [goto_ne hj]
      refine (h.thread j).congr rfl (.inl hver) ?_ ?_ ?_ ?_ (fun _ => rfl)
      all_goals
        intro hs
        rw [hfree] at hs
        cases hs
  · simpa [State.goto, hfree, Stage.named] using h.ids
  · simpa [State.goto, hfree, Stage.odd] using h.stopped

theorem takeRef_inv (hi : s.pc i = .takeRef) (hr : refOf s.vref + 1 < 2 ^ 31)
    (hv : versionOf s.vref + 2 < 2 ^ 32) :
    Inv ({ s with vref := fetchAdd s.vref, stage := .naming i }.goto i
      (.nameIt (versionOf s.vref))) := by
  have hst : s.stage = .taken i := by
    have := h.thread i
    rw [hi] at this
    exact this
  have hverEq : s.version = 2 * s.generation := by simp [State.version, hst, Stage.odd]
  have hrefsEq : s.refs = s.holders.length := by simp [State.refs, hst, Stage.additional]
  rw [h.refOf_eq] at hr
  rw [h.versionOf_eq] at hv ⊢
  set s' := ({ s with vref := fetchAdd s.vref, stage := .naming i }.goto i (.nameIt s.version))
    with hs'
  have hver : s'.version = s.version := by simp [State.version, hs', State.goto, hst, Stage.odd]
  have hrefs : s'.refs = s.refs + 1 := by
    simp [State.refs, hs', State.goto, hst, Stage.additional]
  refine ⟨?_, ?_, ?_, nofun, h.nodup, ?_, ?_, nofun, nofun, ?_, ?_, h.recycled, h.fatal⟩
  · rw [hver, hrefs]
    change fetchAdd s.vref = _
    rw [h.vref]
    exact fetchAdd_word h.version_small (by lia)
  · rw [hrefs]
    lia
  · change 2 * s.generation + 2 < 2 ^ 32
    lia
  · exact h.holders_goto rfl (by rw [hi]; rfl)
  · intro j
    obtain rfl | hj := eq_or_ne j i
    · rw [hs', goto_self]
      exact ⟨rfl, hverEq⟩
    · rw [hs', goto_ne hj]
      refine (h.thread j).congr rfl (.inl hver) ?_ ?_ ?_ ?_ (fun _ => rfl)
      · rw [hst]
        exact nofun
      · rw [hst]
        intro heq
        exact absurd (Stage.taken.inj heq).symm hj
      · rw [hst]
        exact nofun
      · rw [hst]
        exact nofun
  · simpa [hs', State.goto, hst, Stage.named] using h.ids
  · simpa [hs', State.goto, hst, Stage.odd] using h.stopped

theorem nameIt_inv (hi : s.pc i = .nameIt version)
    (hr : ∀ j, (s.pc j).readsId = false) :
    Inv ({ s with thisId := version, ids := version :: s.ids, stage := .live }.goto i .idle) := by
  have hth := h.thread i
  rw [hi] at hth
  obtain ⟨hst, rfl⟩ := hth
  set s' := ({ s with
    thisId := 2 * s.generation
    ids := 2 * s.generation :: s.ids
    stage := .live }.goto i .idle) with hs'
  have hver : s'.version = s.version := by simp [State.version, hs', State.goto, hst, Stage.odd]
  have hrefs : s'.refs = s.refs := by simp [State.refs, hs', State.goto, hst, Stage.additional]
  refine ⟨?_, ?_, ?_, fun _ => rfl, h.nodup, ?_, ?_, nofun, nofun, ?_, ?_, h.recycled, h.fatal⟩
  · rw [hver, hrefs]
    exact h.vref
  · rw [hrefs]
    exact h.refs
  · simpa [hs', State.goto, hst, Stage.busy] using h.small
  · exact h.holders_goto rfl (by rw [hi]; rfl)
  · intro j
    obtain rfl | hj := eq_or_ne j i
    · rw [hs', goto_self]
      trivial
    · rw [hs', goto_ne hj]
      refine (h.thread j).congr rfl (.inl hver) (fun _ => rfl) ?_ ?_ ?_ ?_
      · rw [hst]
        exact nofun
      · rw [hst]
        intro heq
        exact absurd (Stage.naming.inj heq).symm hj
      · rw [hst]
        exact nofun
      · rw [hr j]
        exact nofun
  · have hids := h.ids
    rw [hst] at hids
    exact congrArg _ hids
  · simpa [hs', State.goto, hst, Stage.odd] using h.stopped

theorem addressStep_inv (hi : s.pc i = .idle) (hid : d ∈ s.ids)
    (hr : refOf s.vref + 1 < 2 ^ 31) : Inv (addressStep s i d) := by
  rw [h.refOf_eq] at hr
  unfold addressStep
  rw [h.versionOf_eq]
  set s' := ({ s with vref := fetchAdd s.vref, holders := i :: s.holders }.goto i
    (if s.version = d then .holding d else .unref s.version)) with hs'
  have hrefs : s'.refs = s.refs + 1 := by
    simp [State.refs, hs', State.goto]
    lia
  have hnot : i ∉ s.holders := by
    rw [h.holders, hi]
    exact nofun
  refine ⟨?_, ?_, h.small, h.thisId, nodup_cons.2 ⟨hnot, h.nodup⟩, ?_, ?_, ?_, nofun, h.ids,
    h.stopped, h.recycled, h.fatal⟩
  · rw [hrefs]
    change fetchAdd s.vref = _
    rw [h.vref]
    exact fetchAdd_word h.version_small (by lia)
  · rw [hrefs]
    lia
  · intro j
    change j ∈ i :: s.holders ↔ _
    obtain rfl | hj := eq_or_ne j i
    · rw [hs', goto_self]
      split <;> simp [Pc.owns]
    · rw [hs', goto_ne hj, mem_cons, ← h.holders j]
      simp [hj]
  · intro j
    obtain rfl | hj := eq_or_ne j i
    · rw [hs', goto_self]
      split
      next hv =>
        rw [h.ids, mem_evens] at hid
        have hodd : s.stage.odd.toNat ≤ 1 := Bool.toNat_le _
        simp only [State.version] at hv
        cases hn : s.stage.named with
        | false =>
          rw [hn] at hid
          simp only [Bool.toNat_false] at hid
          lia
        | true =>
          refine ⟨?_, hn⟩
          change d = 2 * s.generation
          lia
      · exact .inl rfl
    · rw [hs', goto_ne hj]
      exact (h.thread j).congr rfl (.inl rfl) id id id id (fun _ => rfl)
  · intro j hj
    obtain ⟨e, he⟩ := h.stopping j hj
    have hji : j ≠ i := by
      rintro rfl
      rw [hi] at he
      cases he
    exact ⟨e, by rw [hs', goto_ne hji]; exact he⟩

theorem erase_refs (hi : i ∈ s.holders) :
    fetchSub s.vref = word s.version ((s.holders.erase i).length + s.stage.additional.toNat) ∧
      s.refs = (s.holders.erase i).length + s.stage.additional.toNat + 1 := by
  have hlen := length_erase_of_mem hi
  have hpos := length_pos_of_mem hi
  have hrefs : s.refs = (s.holders.erase i).length + s.stage.additional.toNat + 1 := by
    rw [State.refs, hlen]
    lia
  refine ⟨?_, hrefs⟩
  rw [h.vref, hrefs]
  exact fetchSub_word

theorem Inv.drop (hi : i ∈ s.holders) (ht : ThreadOk s i c) (ho : c.owns = false)
    (hs : s.stage ≠ .stopping i)
    (hc : s.stage = .draining → s.holders.erase i = [] →
      c.readsId = true ∨ ∃ version back, c = .recycle (word s.version 0) version back) :
    Inv ({ s with vref := fetchSub s.vref, holders := s.holders.erase i }.goto i c) := by
  obtain ⟨hvref, hrefs⟩ := erase_refs h hi
  set s' := ({ s with vref := fetchSub s.vref, holders := s.holders.erase i }.goto i c) with hs'
  have hver : s'.version = s.version := rfl
  have hrefs' : s'.refs = (s.holders.erase i).length + s.stage.additional.toNat := rfl
  refine ⟨?_, ?_, h.small, h.thisId, h.nodup.erase i, ?_, ?_, ?_, ?_, h.ids, h.stopped, h.recycled,
    h.fatal⟩
  · rw [hver, hrefs']
    exact hvref
  · have hlt := h.refs
    rw [hrefs']
    lia
  · intro j
    refine h.nodup.mem_erase_iff.trans ?_
    obtain rfl | hj := eq_or_ne j i
    · rw [hs', goto_self, ho]
      simp
    · rw [hs', goto_ne hj, ← h.holders j]
      simp [hj]
  · intro j
    obtain rfl | hj := eq_or_ne j i
    · rw [hs', goto_self]
      exact ht.congr rfl (.inl rfl) id id id id (fun _ => rfl)
    · rw [hs', goto_ne hj]
      exact (h.thread j).congr rfl (.inl rfl) id id id id (fun _ => rfl)
  · intro j hj
    obtain ⟨d, hd⟩ := h.stopping j hj
    have hji : j ≠ i := by
      rintro rfl
      exact hs hj
    exact ⟨d, by rw [hs', goto_ne hji]; exact hd⟩
  · intro hd he
    refine ⟨i, ?_⟩
    rw [State.Closes, hs', goto_self]
    exact hc hd he

theorem unrefStep_inv {ver1 : ℕ} (hi : s.pc i = .unref ver1) :
    Inv (unrefStep s i ver1) := by
  have hmem : i ∈ s.holders := by
    rw [h.holders, hi]
    rfl
  have hst : s.stage ≠ .stopping i := h.not_stopping (by simp [hi])
  have hth := h.thread i
  rw [hi] at hth
  obtain ⟨hvref, hrefs⟩ := erase_refs h hmem
  simp only [unrefStep]
  rw [h.refOf_eq, h.versionOf_eq]
  split
  next hlt =>
    refine h.drop hmem trivial rfl hst ?_
    intro hd he
    rw [he, hd] at hrefs
    rw [hrefs] at hlt
    simp [Stage.additional] at hlt
  next hge =>
    have hone : s.refs = 1 := by lia
    rw [if_pos (by rw [hone]; rfl)]
    split
    next hodd =>
      have hver : ver1 = s.version ∨ u32 (ver1 + 1) = s.version := by
        refine hth.imp id fun hv => ?_
        rw [hv.1]
        exact Nat.mod_eq_of_lt h.version_small
      rw [if_pos hver]
      have hword : s.vref - 1 = word s.version 0 := by
        rw [h.vref, hone]
        exact word_sub_one
      rw [hword]
      refine h.drop hmem ?_ rfl hst fun _ _ => .inr ⟨_, _, rfl⟩
      exact ⟨rfl, by lia, Nat.succ_pos _, rfl⟩
    next heven =>
      have hver : ver1 = s.version := hth.resolve_right fun hv => heven hv.2
      have hdrop : Inv ({ s with vref := fetchSub s.vref, holders := s.holders.erase i }.goto i
          .idle) := by
        refine h.drop hmem trivial rfl hst ?_
        intro hd
        rw [State.version, hd] at heven
        simp [Stage.odd] at heven
      simpa [hver, State.goto] using hdrop

theorem stopped_inv (hi : s.pc i = .stopCas d d vref)
    (hd : d = 2 * s.generation) (hlive : s.stage = .live) :
    Inv ({ s with
      vref := makeVref (d + 1) s.vref
      stopped := d :: s.stopped
      stage := .stopping i }.goto i (.deref (some d))) := by
  set s' := ({ s with
    vref := makeVref (d + 1) s.vref
    stopped := d :: s.stopped
    stage := .stopping i }.goto i (.deref (some d))) with hs'
  have hver : s.version = d := by simp [State.version, hlive, Stage.odd, hd]
  have hver' : s'.version = d + 1 := by simp [State.version, hs', State.goto, Stage.odd, hd]
  have hrefs : s'.refs = s.refs := by simp [State.refs, hs', State.goto, hlive, Stage.additional]
  have hsmall : d + 2 < 2 ^ 32 := by
    have := h.small
    simp only [hlive, Stage.busy, Bool.toNat_true] at this
    lia
  refine ⟨?_, ?_, ?_, ?_, h.nodup, ?_, ?_, ?_, nofun, ?_, ?_, h.recycled, h.fatal⟩
  · have hlt := h.refs
    rw [hver', hrefs]
    change makeVref (d + 1) s.vref = _
    rw [h.vref]
    exact makeVref_word (by lia) (by lia)
  · rw [hrefs]
    exact h.refs
  · simpa [hs', State.goto, hlive, Stage.busy] using h.small
  · exact fun _ => h.thisId (by rw [hlive]; rfl)
  · exact h.holders_goto rfl (by rw [hi]; rfl)
  · intro j
    obtain rfl | hj := eq_or_ne j i
    · rw [hs', goto_self]
      exact ⟨⟨hd, rfl⟩, rfl⟩
    · rw [hs', goto_ne hj]
      refine (h.thread j).congr rfl (.inr ⟨by rw [hver', hver], by lia⟩) (fun _ => rfl) ?_ ?_ ?_
        (fun _ => rfl)
      all_goals
        rw [hlive]
        exact nofun
  · intro j hj
    obtain rfl := Stage.stopping.inj hj
    exact ⟨d, goto_self⟩
  · have hids := h.ids
    rw [hlive] at hids
    exact hids
  · have hstopped := h.stopped
    rw [hlive] at hstopped
    change d :: s.stopped = evens (s.generation + 1)
    rw [hd, hstopped]
    rfl

theorem stopStep_inv {idVer : ℕ} (hi : s.pc i = .stopCas d idVer vref) :
    Inv (stopStep s i d idVer vref) := by
  have hst : s.stage ≠ .stopping i := h.not_stopping (by simp [hi])
  have hth := h.thread i
  rw [hi] at hth
  obtain ⟨hcur, rfl⟩ := hth
  have hnot : s.stage = .draining → ¬ s.Closes i := by
    rintro - (hr | ⟨_, _, hr⟩) <;> rw [hi] at hr <;> cases hr
  unfold stopStep
  split
  · exact h.goto hcur (by rw [hi]; rfl) hst fun hd _ hc => absurd hc (hnot hd)
  next hv =>
    split
    next hw =>
      subst hw
      rw [h.versionOf_eq, not_not] at hv
      have hlive : s.stage = .live := by
        obtain ⟨hd, hn⟩ := hcur
        cases hs : s.stage <;> simp_all [State.version, Stage.odd, Stage.named]
      exact stopped_inv h hi hcur.1 hlive
    · exact h.goto ⟨hcur, rfl⟩ (by rw [hi]; rfl) hst fun hd _ hc => absurd hc (hnot hd)

/-- `stop` drops the reference of the creation. It has one of its own, so it is not the last. -/
theorem derefFirst_inv (hi : s.pc i = .deref (some d)) :
    Inv (derefStep s i (some d)) := by
  have hth := h.thread i
  rw [hi] at hth
  obtain ⟨hcur, hst⟩ := hth
  have hmem : i ∈ s.holders := by
    rw [h.holders, hi]
    rfl
  have hpos := length_pos_of_mem hmem
  have hrefs : s.refs = s.holders.length + 1 := by simp [State.refs, hst, Stage.additional]
  have hlt := h.refs
  simp only [derefStep]
  rw [h.refOf_eq, if_pos (by lia)]
  set s' := ({ s with vref := fetchSub s.vref, stage := .draining }.goto i (.after (some d))) with hs'
  have hver : s'.version = s.version := by simp [State.version, hs', State.goto, hst, Stage.odd]
  have hrefs' : s'.refs = s.holders.length := by simp [State.refs, hs', State.goto, Stage.additional]
  refine ⟨?_, ?_, ?_, ?_, h.nodup, ?_, ?_, nofun, ?_, ?_, ?_, h.recycled, h.fatal⟩
  · rw [hver, hrefs']
    change fetchSub s.vref = _
    rw [h.vref, hrefs]
    exact fetchSub_word
  · rw [hrefs']
    lia
  · simpa [hs', State.goto, hst, Stage.busy] using h.small
  · exact fun _ => h.thisId hcur.2
  · exact h.holders_goto rfl (by rw [hi]; rfl)
  · intro j
    obtain rfl | hj := eq_or_ne j i
    · rw [hs', goto_self]
      exact ⟨hcur.1, rfl⟩
    · rw [hs', goto_ne hj]
      refine (h.thread j).congr rfl (.inl hver) (fun _ => rfl) ?_ ?_ ?_ (fun _ => rfl)
      · rw [hst]
        exact nofun
      · rw [hst]
        exact nofun
      · rw [hst]
        intro heq
        exact absurd (Stage.stopping.inj heq).symm hj
  · intro _ he
    change s.holders = [] at he
    rw [he] at hmem
    cases hmem
  · simpa [hs', State.goto, hst, Stage.named] using h.ids
  · simpa [hs', State.goto, hst, Stage.odd] using h.stopped

theorem derefOwn_inv (hi : s.pc i = .deref none) : Inv (derefStep s i none) := by
  have hth := h.thread i
  rw [hi] at hth
  obtain ⟨d, hd, hnamed⟩ := hth
  have hmem : i ∈ s.holders := by
    rw [h.holders, hi]
    rfl
  have hst : s.stage ≠ .stopping i := h.not_stopping (by simp [hi])
  obtain ⟨-, hrefs⟩ := erase_refs h hmem
  simp only [derefStep]
  rw [h.refOf_eq]
  split
  next hlt =>
    refine h.drop hmem trivial rfl hst ?_
    intro hs he
    rw [he, hs] at hrefs
    rw [hrefs] at hlt
    simp [Stage.additional] at hlt
  next hge =>
    have hone : s.refs = 1 := by lia
    -- the reference of the creation is gone, so the queue was stopped
    have hdrain : s.stage = .draining := by
      cases hs : s.stage <;> simp_all [Stage.additional, Stage.named]
    have hid := h.thisId hnamed
    have hsmall := h.small
    rw [hdrain] at hsmall
    simp only [Stage.busy, Bool.toNat_true] at hsmall
    refine h.drop hmem ⟨rfl, ?_, by lia, by lia⟩ rfl hst fun _ _ => .inl rfl
    rw [h.vref, hone, State.version, hdrain, hid]
    rfl

theorem readIdStep_inv (hi : s.pc i = .readId vref back) :
    Inv (readIdStep s i vref back) := by
  have hst : s.stage ≠ .stopping i := h.not_stopping (by simp [hi])
  have hth := h.thread i
  rw [hi] at hth
  obtain ⟨rfl, rfl, heven, hsmall⟩ := hth
  unfold readIdStep
  rw [refOf_word (by decide), if_pos (by rfl), versionOf_word (by decide)]
  have hu : u32 (s.thisId + 1) = s.thisId + 1 := Nat.mod_eq_of_lt hsmall
  rw [if_pos (.inr hu.symm)]
  have hword : word (s.thisId + 1) 1 - 1 = word (s.thisId + 1) 0 := word_sub_one
  refine h.goto ⟨rfl, by lia, Nat.succ_pos _, hword⟩ (by rw [hi]; rfl) hst ?_
  intro hd _ _
  refine .inr ⟨s.thisId + 2, none, ?_⟩
  have hid : s.thisId = 2 * s.generation := h.thisId (by rw [hd]; rfl)
  have hver : (s.goto i (.recycle (word (s.thisId + 1) 1 - 1) (s.thisId + 2) none)).version =
      s.thisId + 1 := by
    simp [State.version, State.goto, hd, Stage.odd, hid]
  rw [goto_self, hver, hword]

theorem recycleStep_inv {expected : ℕ}
    (hi : s.pc i = .recycle expected version back) : Inv (recycleStep s i expected version back) := by
  have hst : s.stage ≠ .stopping i := h.not_stopping (by simp [hi])
  have hth := h.thread i
  rw [hi] at hth
  obtain ⟨rfl, heven, hpos, rfl⟩ := hth
  have hlt := h.refs
  unfold recycleStep
  split
  next hv =>
    rw [h.vref] at hv
    obtain ⟨hver, hzero⟩ := word_inj (by lia) (by decide) hv
    have hdrain : s.stage = .draining := by
      simp only [State.version, State.refs] at hver hzero
      cases hs : s.stage <;> simp_all [Stage.odd, Stage.additional] <;> lia
    have hempty : s.holders = [] := by
      refine eq_nil_of_length_eq_zero ?_
      simpa [State.refs, hdrain, Stage.additional] using hzero
    have hversion : version = 2 * s.generation + 2 := by
      simp only [State.version, hdrain, Stage.odd, Bool.toNat_true] at hver
      lia
    have hsmall := h.small
    rw [hdrain] at hsmall
    simp only [Stage.busy, Bool.toNat_true] at hsmall
    have hids := h.ids
    have hstopped := h.stopped
    rw [hdrain] at hids hstopped
    have hnone : ∀ j, (s.pc j).owns = false := by
      intro j
      by_contra ho
      have := (h.holders j).2 (by simpa using ho)
      rw [hempty] at this
      cases this
    refine ⟨?_, ?_, ?_, nofun, h.nodup, ?_, ?_, nofun, nofun, hids, hstopped, ?_, h.fatal⟩
    · change makeVref version 0 = word (2 * (s.generation + 1)) s.holders.length
      rw [hempty, hversion]
      exact makeVref_zero (by lia)
    · change s.holders.length < 2 ^ 31
      rw [hempty]
      exact Nat.two_pow_pos 31
    · change 2 * (s.generation + 1) < 2 ^ 32
      lia
    · intro j
      refine iff_of_false ?_ ?_
      · change j ∉ s.holders
        simp [hempty]
      · obtain rfl | hj := eq_or_ne j i
        · rw [goto_self]
          exact nofun
        · rw [goto_ne hj]
          simpa using hnone j
    · intro j
      obtain rfl | hj := eq_or_ne j i
      · rw [goto_self]
        trivial
      · rw [goto_ne hj]
        exact (h.thread j).recycled (hnone j) hdrain rfl
    · change (version - 2) :: s.recycled = 2 * s.generation :: evens s.generation
      rw [hversion, h.recycled, Nat.add_sub_cancel]
  next hv =>
    refine h.goto trivial (by rw [hi]; rfl) hst ?_
    -- a party in front of this exchange finds the word that it expects
    rintro hd he (hr | ⟨_, _, hr⟩)
    · rw [hi] at hr
      cases hr
    · rw [hi] at hr
      obtain ⟨hr, -⟩ := Pc.recycle.inj hr
      refine absurd ?_ hv
      rw [hr, h.vref]
      simp [State.refs, hd, he, Stage.additional]

theorem goStep_inv (hh : Heeds s (.go i)) : Inv (goStep s i) := by
  have hth := h.thread i
  have hst : (∀ d, s.pc i ≠ .deref (some d)) → s.stage ≠ .stopping i := h.not_stopping
  simp only [Heeds] at hh
  cases hi : s.pc i with
  | idle | holding =>
    simp only [goStep, hi]
    exact h
  | takeRef =>
    rw [hi] at hh
    simp only [goStep, hi]
    exact takeRef_inv h hi hh.1 hh.2
  | nameIt version =>
    rw [hi] at hh
    simp only [goStep, hi]
    exact nameIt_inv h hi hh
  | unref ver1 =>
    simp only [goStep, hi]
    exact unrefStep_inv h hi
  | stopId d =>
    rw [hi] at hth
    simp only [goStep, hi]
    have hid : s.thisId = d := (h.thisId hth.2).trans hth.1.symm
    refine h.goto ⟨hth, hid⟩ (by rw [hi]; rfl) (hst (by simp [hi])) ?_
    rintro - - (hr | ⟨_, _, hr⟩) <;> rw [hi] at hr <;> cases hr
  | stopLoad d idVer =>
    rw [hi] at hth
    simp only [goStep, hi]
    refine h.goto hth (by rw [hi]; rfl) (hst (by simp [hi])) ?_
    rintro - - (hr | ⟨_, _, hr⟩) <;> rw [hi] at hr <;> cases hr
  | stopCas d idVer vref =>
    simp only [goStep, hi]
    exact stopStep_inv h hi
  | deref back =>
    simp only [goStep, hi]
    cases back with
    | none => exact derefOwn_inv h hi
    | some d => exact derefFirst_inv h hi
  | readId vref back =>
    simp only [goStep, hi]
    exact readIdStep_inv h hi
  | recycle expected version back =>
    simp only [goStep, hi]
    exact recycleStep_inv h hi

omit [DecidableEq ι] in
theorem giveBack_inv (hs : s.stage = .recycled) : Inv { s with stage := .free } := by
  have hvref := h.vref
  have hrefs := h.refs
  have hsmall := h.small
  have hids := h.ids
  have hstopped := h.stopped
  simp only [State.version, State.refs, hs] at hvref hrefs hsmall hids hstopped
  refine ⟨hvref, hrefs, hsmall, nofun, h.nodup, h.holders, ?_, nofun, nofun, hids, hstopped, h.recycled,
    h.fatal⟩
  intro j
  refine (h.thread j).congr rfl (.inl ?_) ?_ ?_ ?_ ?_ (fun _ => rfl)
  · simp only [State.version, hs]
    rfl
  all_goals
    rw [hs]
    exact nofun

theorem step_inv (a : Act ι) (hh : Heeds s a) : Inv (step s a) := by
  cases a with
  | create i =>
    simp only [step]
    split
    next hg =>
      exact create_inv h hg.1 hg.2
    · exact h
  | address i d =>
    simp only [step]
    split
    next hg =>
      exact addressStep_inv h hg.1 hg.2 hh
    · exact h
  | stop i | release i =>
    simp only [step]
    split
    next d hi =>
      have hth := h.thread i
      rw [hi] at hth
      have hst : s.stage ≠ .stopping i := h.not_stopping (by simp [hi])
      refine h.goto (by first | exact hth | exact ⟨d, hth⟩) (by rw [hi]; rfl) hst ?_
      rintro - - (hr | ⟨_, _, hr⟩) <;> rw [hi] at hr <;> cases hr
    · exact h
  | go i => exact goStep_inv h hh
  | giveBack =>
    simp only [step]
    split
    next hs =>
      exact giveBack_inv h hs
    · exact h

end

end Steps

/-- **The references of an execution queue are balanced**, in any interleaving in which `create`
stores `_this_id` while nobody is about to read it in `dereference`. -/
theorem run_balanced (thisId : ℕ) (acts : List (Act ι))
    (hc : Along step Heeds (start ι thisId) acts) :
    Balanced (runFrom step (start ι thisId) acts) :=
  (hc.run (fun _ a h ha => step_inv h a ha) (start_inv thisId)).balanced

local instance neZero3 : NeZero 3 := ⟨by decide⟩

/-- Party 0 creates a queue, party 1 stops it and drops the last reference, but a stale `address` of
party 2 comes in between and recycles the slot. -/
def raceActs : List (Act (Fin 3)) :=
  [.create 0, .go 0, .go 0, .address 1 0, .stop 1, .go 1, .go 1, .go 1, .go 1, .release 1, .go 1,
    .address 2 0, .go 2, .go 2]

/-- Party 1 fails to recycle the slot once more, which is then used again. -/
theorem run_balanced_race :
    let acts := raceActs ++ [.go 1, .go 1, .giveBack, .create 0, .go 0, .go 0, .address 1 0, .address 2 2]
    let s := runFrom step (start (Fin 3) 0) acts
    s.recycled = [0] ∧ s.ids = [2, 0] ∧ s.pc 1 = .unref 2 ∧ s.pc 2 = .holding 2 ∧
      Along step Heeds (start (Fin 3) 0) acts ∧ Balanced s := by
  intro acts s
  have hc : Along step Heeds (start (Fin 3) 0) acts := by decide
  exact ⟨by decide, by decide, by decide, by decide, hc,
    run_balanced 0 acts hc⟩

/-- Party 1 reads `_this_id` only when the slot has a new id. -/
theorem late_read_not_balanced :
    ¬ ∀ (thisId : ℕ) (acts : List (Act (Fin 3))),
      Balanced (runFrom step (start (Fin 3) thisId) acts) := by
  intro hall
  have h := hall 0 (raceActs ++ [.giveBack, .create 0, .go 0, .go 0, .go 1])
  exact absurd h.fatal (by decide)

end Eabase.Fiber.ExecutionQueueRef
