import Eabase.Lib.Fibers
import Eabase.Lib.Machine

/-!
# ExtendedEndPoint

An `EndPoint` that is no IPv4 address embeds an `ExtendedEndPoint`, an object in
a slot of a pool with a count of the endpoints that embed it. Objects with equal
addresses are one: a set under a mutex has them all.

An object whose count has come to 0 stays in the set until the thread that
counted it down takes it out, and a thread that creates an object with this
address may come before it.

A step is one access to a count or to the pool, or to the set under its mutex.
An `EndPoint` is written by one thread at a time, and not copied meanwhile;
`operator=` is a drop and a copy.
-/

namespace Eabase.Utility.ExtendedEndPoint

open Lib Function List
open Option (some)

variable {ε ι A : Type*} [DecidableEq ε] [DecidableEq ι] [DecidableEq A]

/-! ## The machine -/

/-- Whose a slot is: the pool's, a thread's that fills it or gives it back, everybody's, a thread's
that counted it down, and that took it out of the set. -/
inductive Stage (ι : Type*) where
  | pool
  | fresh (t : ι)
  | shared
  | dying (t : ι)
  | dead (t : ι)

/-- Where a thread stands. In `create` for the endpoint `e` and the address `a`: in front of the
mutex, of `_set.find`, of `fetch_sub`, of the unlock, of `return_resource`, of `embed_to`. In
`dec_ref`: in front of `global_set()->erase`, of `return_resource`; `next` is what `e` is to embed
then. -/
inductive Pc (ε A : Type*) where
  | idle
  | lock (e : ε) (p : ℕ) (a : A)
  | find (e : ε) (p : ℕ) (a : A)
  | unbump (e : ε) (p q : ℕ) (a : A)
  | unlock (e : ε) (p r : ℕ) (a : A)
  | giveBack (e : ε) (p r : ℕ) (a : A)
  | embed (e : ε) (r : ℕ) (a : A)
  | erase (e : ε) (next : Option (ℕ × A)) (q : ℕ)
  | give (e : ε) (next : Option (ℕ × A)) (q : ℕ)

/-- The slots with what `ExtendedEndPoint` has of them (`family` says that it is not `AF_UNSPEC`),
the set with its mutex, and the endpoints. What is kept besides: whose the slots are, how often they
were got and returned, who writes an endpoint, the address it was given, and whether a `CHECK`
failed. -/
structure State (ε ι A : Type*) where
  refCount : ℕ → ℤ
  family : ℕ → Bool
  addr : ℕ → Option A
  stage : ℕ → Stage ι
  got : ℕ → ℕ
  returned : ℕ → ℕ
  set : List ℕ
  mutex : Option ι
  embeds : ε → Option ℕ
  address : ε → Option A
  writer : ε → Option ι
  pc : ι → Pc ε A
  failed : Bool

def start (ε ι A : Type*) : State ε ι A where
  refCount _ := 0
  family _ := false
  addr _ := none
  stage _ := .pool
  got _ := 0
  returned _ := 0
  set := []
  mutex := none
  embeds _ := none
  address _ := none
  writer _ := none
  pc _ := .idle
  failed := false

/-- One label of a run: the pool may give any of its slots, as long as `embed_to` finds room for the
number of the slot in 32 bits. -/
inductive Act (ε ι A : Type*) where
  | create (t : ι) (e : ε) (p : ℕ) (a : A)
  | copy (t : ι) (e rhs : ε)
  | drop (t : ι) (e : ε)
  | go (t : ι)

namespace State

section

variable (s : State ε ι A)

def goto (t : ι) (p : Pc ε A) : State ε ι A :=
  { s with pc := update s.pc t p }

/-- `fetch_add` or `fetch_sub`. -/
def count (q : ℕ) (n : ℤ) : State ε ι A :=
  { s with refCount := update s.refCount q (s.refCount q + n) }

def check (ok : Bool) : State ε ι A :=
  { s with failed := s.failed || !ok }

def setStage (q : ℕ) (stage : Stage ι) : State ε ι A :=
  { s with stage := update s.stage q stage }

/-- `sa_family = AF_UNSPEC`, and `return_resource`. -/
def giveSlot (q : ℕ) : State ε ι A :=
  { s with
    family := update s.family q false
    stage := update s.stage q .pool
    returned := update s.returned q (s.returned q + 1) }

/-- The endpoint embeds the object in the slot `r`. -/
def put (e : ε) (r : ℕ) (a : Option A) : State ε ι A :=
  { s with embeds := update s.embeds e (some r), address := update s.address e a }

def clear (e : ε) : State ε ι A :=
  { s with embeds := update s.embeds e none, address := update s.address e none }

def begin (t : ι) (e : ε) : State ε ι A :=
  { s with writer := update s.writer e (some t) }

def done (t : ι) (e : ε) : State ε ι A :=
  { s with writer := update s.writer e none }.goto t .idle

/-- `Equals`, for which a slot that is not in use is not even looked at by its hash. -/
def equals (p q : ℕ) : Bool :=
  s.addr p = s.addr q && s.family p = s.family q

/-- `_set.find(p)`. -/
def lookup (p : ℕ) : Option ℕ :=
  s.set.find? fun q => s.equals p q

/-- `_set.insert(p)`, and the object is everybody's. -/
def publish (p : ℕ) : State ε ι A :=
  { s.setStage p .shared with set := if s.set.any fun q => s.equals p q then s.set else p :: s.set }

end

end State

/-- `new_extended_endpoint`, and the address. -/
def createStep (s : State ε ι A) (t : ι) (e : ε) (p : ℕ) (a : A) : State ε ι A :=
  { (((s.check (s.refCount p = 0)).check (s.family p = false)).begin t e).goto t (.lock e p a) with
    refCount := update s.refCount p 1
    family := update s.family p true
    addr := update s.addr p (some a)
    stage := update s.stage p (.fresh t)
    got := update s.got p (s.got p + 1) }

/-- `EndPoint(const EndPoint&)`: `inc_ref`. -/
def copyStep (s : State ε ι A) (e rhs : ε) : State ε ι A :=
  match s.embeds rhs with
  | none => s
  | some q => ((s.check (s.refCount q ≥ 1)).count q 1).put e q (s.address rhs)

section

variable (s : State ε ι A) (t : ι) (e : ε)

/-- `dec_ref` of the object in slot `q`, which `e` embeds; then `e` is to embed `next`. -/
def decRef (next : Option (ℕ × A)) (q : ℕ) : State ε ι A :=
  let s' := ((s.check (s.refCount q ≥ 1)).count q (-1)).clear e
  if s.refCount q = 1 then (s'.setStage q (.dying t)).goto t (.erase e next q)
  else
    match next with
    | none => s'.done t e
    | some (r, a) => s'.goto t (.embed e r a)

/-- `reset`. -/
def dropStep : State ε ι A :=
  match s.embeds e with
  | none => s
  | some q => decRef (s.begin t e) t e none q

/-- The mutex of `insert`. -/
def lockStep (p : ℕ) (a : A) : State ε ι A :=
  if s.mutex = none then { s with mutex := some t }.goto t (.find e p a) else s

/-- `_set.find`, and the `fetch_add`. -/
def findStep (p : ℕ) (a : A) : State ε ι A :=
  match s.lookup p with
  | none => (s.publish p).goto t (.unlock e p p a)
  | some q =>
    if s.refCount q = 0 then (s.count q 1).goto t (.unbump e p q a)
    else (s.count q 1).goto t (.unlock e p q a)

/-- The `fetch_sub`, `_set.erase(it)` and `_set.insert(p)`. -/
def unbumpStep (p q : ℕ) (a : A) : State ε ι A :=
  ({ s.count q (-1) with set := s.set.erase q }.publish p).goto t (.unlock e p p a)

/-- The end of `insert`; `dedup` asks whether it returned the same object. -/
def unlockStep (p r : ℕ) (a : A) : State ε ι A :=
  { s with mutex := none }.goto t (if r = p then .embed e r a else .giveBack e p r a)

/-- `dedup` gives its own object back. -/
def giveBackStep (p r : ℕ) (a : A) : State ε ι A :=
  { s.giveSlot p with refCount := update s.refCount p 0 }.goto t (.embed e r a)

/-- `embed_to`, with the `reset`. -/
def embedStep (r : ℕ) (a : A) : State ε ι A :=
  match s.embeds e with
  | some q => decRef s t e (some (r, a)) q
  | none => (s.put e r (some a)).done t e

/-- `GlobalEndPointSet::erase`. -/
def eraseStep (next : Option (ℕ × A)) (q : ℕ) : State ε ι A :=
  if s.mutex = none then
    { s.setStage q (.dead t) with set := if s.lookup q = some q then s.set.erase q else s.set }.goto
      t (.give e next q)
  else s

/-- The end of `dec_ref`. -/
def giveStep (next : Option (ℕ × A)) (q : ℕ) : State ε ι A :=
  match next with
  | none => (s.giveSlot q).done t e
  | some (r, a) => (s.giveSlot q).goto t (.embed e r a)

end

def goStep (s : State ε ι A) (t : ι) : State ε ι A :=
  match s.pc t with
  | .idle => s
  | .lock e p a => lockStep s t e p a
  | .find e p a => findStep s t e p a
  | .unbump e p q a => unbumpStep s t e p q a
  | .unlock e p r a => unlockStep s t e p r a
  | .giveBack e p r a => giveBackStep s t e p r a
  | .embed e r a => embedStep s t e r a
  | .erase e next q => eraseStep s t e next q
  | .give e next q => giveStep s t e next q

/-- A thread begins a call when it is not in one, on an endpoint that nobody writes. -/
def State.MayWrite (s : State ε ι A) (t : ι) (e : ε) : Prop :=
  s.pc t matches .idle ∧ s.writer e = none

instance (s : State ε ι A) (t : ι) (e : ε) : Decidable (s.MayWrite t e) :=
  inferInstanceAs (Decidable (_ ∧ _))

/-- A slot comes from the pool, and a copy is a new endpoint. -/
def step (s : State ε ι A) : Act ε ι A → State ε ι A
  | .create t e p a =>
    if s.MayWrite t e ∧ (s.stage p matches .pool) ∧ p < 2 ^ 32 then createStep s t e p a else s
  | .copy t e rhs =>
    if s.MayWrite t e ∧ s.writer rhs = none ∧ s.embeds e = none then copyStep s e rhs else s
  | .drop t e => if s.MayWrite t e then dropStep s t e else s
  | .go t => goStep s t

/-! ## What holds -/

structure Exact (s : State ε ι A) : Prop where
  /-- An object that is embedded has been counted. -/
  counted : ∀ e q, s.embeds e = some q → 1 ≤ s.refCount q
  /-- When no call is under way the counts are right. -/
  settled : (∀ t, s.pc t = .idle) → ∀ q, 0 ≤ s.refCount q ∧ {e | s.embeds e = some q}.encard
    = (s.refCount q).toNat
  /-- Endpoints embed the object of their address, and the same one if they have the same. -/
  addr : ∀ e q, s.embeds e = some q → s.addr q = s.address e
  same : ∀ e e' q q', s.embeds e = some q → s.embeds e' = some q' → (q = q' ↔ s.address e = s.address e')
  /-- A slot is returned once after it was got, -/
  once : ∀ q, s.got q = s.returned q + if s.stage q matches .pool then 0 else 1
  /-- and it has been when nobody uses it. -/
  released : (∀ t, s.pc t = .idle) → ∀ q, (∀ e, s.embeds e ≠ some q) → s.stage q matches .pool
  checks : s.failed = false

/-! ## The invariant -/

/-- The object that a thread has counted for its endpoint, which does not embed it yet. -/
def Pc.holds : Pc ε A → Option ℕ
  | .unlock _ _ r _ => some r
  | .giveBack _ _ r _ => some r
  | .embed _ r _ => some r
  | .erase _ next _ => next.map Prod.fst
  | .give _ next _ => next.map Prod.fst
  | _ => none

def Pc.owns : Pc ε A → Option ℕ
  | .lock _ p _ => some p
  | .find _ p _ => some p
  | .unbump _ p _ _ => some p
  | .unlock _ p r _ => if r = p then none else some p
  | .giveBack _ p _ _ => some p
  | .erase _ _ q => some q
  | .give _ _ q => some q
  | _ => none

def Pc.bumps : Pc ε A → Option ℕ
  | .unbump _ _ q _ => some q
  | _ => none

/-- The thread is in the critical section of `insert`. -/
def Pc.locked : Pc ε A → Bool
  | .find _ _ _ => true
  | .unbump _ _ _ _ => true
  | .unlock _ _ _ _ => true
  | _ => false

def Pc.endpoint : Pc ε A → Option ε
  | .idle => none
  | .lock e _ _ => some e
  | .find e _ _ => some e
  | .unbump e _ _ _ => some e
  | .unlock e _ _ _ => some e
  | .giveBack e _ _ _ => some e
  | .embed e _ _ => some e
  | .erase e _ _ => some e
  | .give e _ _ => some e

section

variable (s : State ε ι A)

/-- The objects that the endpoints embed and those that threads have counted for them. -/
def State.holding : ε ⊕ ι → Option ℕ :=
  Sum.elim s.embeds fun t => (s.pc t).holds

abbrev State.users (q : ℕ) : Set (ε ⊕ ι) :=
  fiber s.holding (some q)

def SlotOk (q : ℕ) : Prop :=
  match s.stage q with
  | .pool => s.refCount q = 0 ∧ s.family q = false ∧ q ∉ s.set ∧ s.users q = ∅
  | .fresh t => (s.pc t).owns = some q ∧ s.refCount q = 1 ∧ s.family q = true ∧ q ∉ s.set ∧ s.users q = ∅
  | .shared => s.family q = true ∧ q ∈ s.set ∧ 1 ≤ s.refCount q ∧
      (s.users q).encard = (s.refCount q).toNat
  | .dying t =>
    (s.pc t).owns = some q ∧ s.family q = true ∧ s.users q = ∅ ∧
      (s.refCount q = 0 ∨ s.refCount q = 1 ∧ ∃ u, (s.pc u).bumps = some q)
  | .dead t => (s.pc t).owns = some q ∧ s.refCount q = 0 ∧ q ∉ s.set ∧ s.users q = ∅

def PcOk (t : ι) : Pc ε A → Prop
  | .idle => True
  | .lock _ p a => s.stage p = .fresh t ∧ s.addr p = some a
  | .find _ p a => s.stage p = .fresh t ∧ s.addr p = some a
  | .unbump _ p q a =>
    (s.stage p = .fresh t ∧ s.addr p = some a) ∧ q ∈ s.set ∧ (∃ u, s.stage q = .dying u) ∧
      s.refCount q = 1 ∧
      s.addr q = some a
  | .unlock _ p r a => (r ≠ p → s.stage p = .fresh t) ∧ s.addr r = some a
  | .giveBack _ p r a => s.stage p = .fresh t ∧ s.addr r = some a
  | .embed _ r a => s.addr r = some a
  | .erase e next q => s.stage q = .dying t ∧ s.embeds e = none ∧ ∀ r a, next = some (r, a) →
      s.addr r = some a
  | .give e next q => s.stage q = .dead t ∧ s.embeds e = none ∧ ∀ r a, next = some (r, a) →
      s.addr r = some a

end

structure Inv (s : State ε ι A) : Prop where
  slot : ∀ q, SlotOk s q
  pcOk : ∀ t, PcOk s t (s.pc t)
  mutex : ∀ t, s.mutex = some t ↔ (s.pc t).locked = true
  writer : ∀ t e, (s.pc t).endpoint = some e → s.writer e = some t
  nodup : s.set.Nodup
  unique : ∀ q ∈ s.set, ∀ q' ∈ s.set, s.addr q = s.addr q' → q = q'
  addr : ∀ e q, s.embeds e = some q → s.addr q = s.address e
  once : ∀ q, s.got q = s.returned q + if s.stage q matches .pool then 0 else 1
  checks : s.failed = false

variable {s s' : State ε ι A} {t u : ι} {e : ε} {p q r : ℕ} {a : A} {pc' : Pc ε A} {v : Option ℕ}

section

omit [DecidableEq ε] [DecidableEq ι] [DecidableEq A]

theorem SlotOk.shared (h : SlotOk s q) {x : ε ⊕ ι} (hx : s.holding x = some q) : s.stage q = .shared := by
  have hne : s.users q ≠ ∅ := fun hempty => by
    have hmem : x ∈ s.users q := hx
    rw [hempty] at hmem
    exact hmem
  unfold SlotOk at h
  split at h
  · exact absurd h.2.2.2 hne
  · exact absurd h.2.2.2.2 hne
  · assumption
  · exact absurd h.2.2.1 hne
  · exact absurd h.2.2.2 hne

theorem SlotOk.of_mem (h : SlotOk s q) (hq : q ∈ s.set) : s.stage q = .shared ∨ ∃ u,
    s.stage q = .dying u := by
  unfold SlotOk at h
  split at h
  · exact absurd hq h.2.2.1
  · exact absurd hq h.2.2.2.1
  · left
    assumption
  · right
    exact ⟨_, by assumption⟩
  · exact absurd hq h.2.2.1

theorem SlotOk.family (h : SlotOk s q) (hq : q ∈ s.set) : s.family q = true := by
  unfold SlotOk at h
  split at h
  · exact absurd hq h.2.2.1
  · exact absurd hq h.2.2.2.1
  · exact h.1
  · exact h.2.1
  · exact absurd hq h.2.2.1

end

omit [DecidableEq ε] [DecidableEq A] in
theorem SlotOk.frame (h : SlotOk s q) (hpc : s'.pc = update s.pc t pc')
    (hstage : s'.stage q = s.stage q) (href : s'.refCount q = s.refCount q)
    (hfamily : s'.family q = s.family q)
    (hset : q ∈ s'.set ↔ q ∈ s.set) (husers : s'.users q = s.users q)
    (howns : (s.pc t).owns = some q → pc'.owns = some q)
    (hbumps : (s.pc t).bumps = some q → pc'.bumps = some q) :
    SlotOk s' q := by
  have howns' : ∀ u, (s.pc u).owns = some q → (s'.pc u).owns = some q := by
    intro u hu
    rw [hpc]
    obtain rfl | hut := eq_or_ne u t
    · rw [update_self]
      exact howns hu
    · rw [update_of_ne hut]
      exact hu
  have hbumps' : ∀ u, (s.pc u).bumps = some q → (s'.pc u).bumps = some q := by
    intro u hu
    rw [hpc]
    obtain rfl | hut := eq_or_ne u t
    · rw [update_self]
      exact hbumps hu
    · rw [update_of_ne hut]
      exact hu
  unfold SlotOk at h ⊢
  rw [hstage, href, hfamily, hset, husers]
  split
  case h_1 hs =>
    rw [hs] at h
    exact h
  case h_2 u hs =>
    rw [hs] at h
    exact ⟨howns' u h.1, h.2⟩
  case h_3 hs =>
    rw [hs] at h
    exact h
  case h_4 u hs =>
    rw [hs] at h
    obtain ⟨hu, hfam, hempty, hcount⟩ := h
    refine ⟨howns' u hu, hfam, hempty, ?_⟩
    rcases hcount with hzero | ⟨hone, w, hw⟩
    · exact .inl hzero
    · exact .inr ⟨hone, w, hbumps' w hw⟩
  case h_5 u hs =>
    rw [hs] at h
    exact ⟨howns' u h.1, h.2⟩

section

omit [DecidableEq ε] [DecidableEq ι] [DecidableEq A]

theorem slotOk_pool (hs : s.stage q = .pool) :
    SlotOk s q ↔ s.refCount q = 0 ∧ s.family q = false ∧ q ∉ s.set ∧ s.users q = ∅ := by
  unfold SlotOk
  rw [hs]

theorem slotOk_fresh (hs : s.stage q = .fresh u) : SlotOk s q ↔
      (s.pc u).owns = some q ∧ s.refCount q = 1 ∧ s.family q = true ∧ q ∉ s.set ∧ s.users q = ∅ := by
  unfold SlotOk
  rw [hs]

theorem slotOk_shared (hs : s.stage q = .shared) : SlotOk s q ↔
      s.family q = true ∧ q ∈ s.set ∧ 1 ≤ s.refCount q ∧ (s.users q).encard = (s.refCount q).toNat := by
  unfold SlotOk
  rw [hs]

theorem slotOk_dying (hs : s.stage q = .dying u) : SlotOk s q ↔
      (s.pc u).owns = some q ∧ s.family q = true ∧ s.users q = ∅ ∧
        (s.refCount q = 0 ∨ s.refCount q = 1 ∧ ∃ w, (s.pc w).bumps = some q) := by
  unfold SlotOk
  rw [hs]

theorem slotOk_dead (hs : s.stage q = .dead u) :
    SlotOk s q ↔ (s.pc u).owns = some q ∧ s.refCount q = 0 ∧ q ∉ s.set ∧ s.users q = ∅ := by
  unfold SlotOk
  rw [hs]

end

/-! ## Who uses what after a step -/

omit [DecidableEq A] in
theorem holding_goto (hpc : s'.pc = update s.pc t pc') (hembeds : s'.embeds = s.embeds) :
    s'.holding = update s.holding (.inr t) pc'.holds := by
  ext1 x
  rcases x with e | u
  · rw [update_of_ne Sum.inl_ne_inr]
    exact congrFun hembeds e
  · obtain rfl | hu := eq_or_ne u t
    · rw [update_self]
      change (s'.pc u).holds = _
      rw [hpc, update_self]
    · rw [update_of_ne (fun h => hu (Sum.inr.inj h))]
      change (s'.pc u).holds = (s.pc u).holds
      rw [hpc, update_of_ne hu]

open State

omit [DecidableEq A] in
theorem users_goto (hpc : s'.pc = update s.pc t pc') (hembeds : s'.embeds = s.embeds)
    (hholds : pc'.holds = (s.pc t).holds) (q : ℕ) : s'.users q = s.users q := by
  have hsame : s'.holding = s.holding := by
    rw [holding_goto hpc hembeds, hholds]
    exact update_eq_self (.inr t) s.holding
  unfold users
  rw [hsame]

omit [DecidableEq A] in
theorem holding_put (hembeds : s'.embeds = update s.embeds e v)
    (hpc : s'.pc = update s.pc t pc') :
    s'.holding = update (update s.holding (.inr t) pc'.holds) (.inl e) v := by
  ext1 x
  rcases x with e' | u
  · obtain rfl | he := eq_or_ne e' e
    · rw [update_self]
      change s'.embeds e' = v
      rw [hembeds, update_self]
    · rw [update_of_ne (fun h => he (Sum.inl.inj h)), update_of_ne Sum.inl_ne_inr]
      change s'.embeds e' = s.embeds e'
      rw [hembeds, update_of_ne he]
  · rw [update_of_ne Sum.inr_ne_inl]
    obtain rfl | hu := eq_or_ne u t
    · rw [update_self]
      change (s'.pc u).holds = _
      rw [hpc, update_self]
    · rw [update_of_ne (fun h => hu (Sum.inr.inj h))]
      change (s'.pc u).holds = (s.pc u).holds
      rw [hpc, update_of_ne hu]

/-! ## Steps -/

/-- The thread whose alone the slot is. -/
def Stage.owner : Stage ι → Option ι
  | .pool => none
  | .fresh t => some t
  | .shared => none
  | .dying t => some t
  | .dead t => some t

section

omit [DecidableEq ε] [DecidableEq A]

omit [DecidableEq ι] in
theorem SlotOk.owns (h : SlotOk s q) (hu : (s.stage q).owner = some u) : (s.pc u).owns = some q := by
  cases hs : s.stage q with
  | pool =>
    rw [hs] at hu
    cases hu
  | fresh w =>
    rw [hs] at hu
    cases hu
    exact ((slotOk_fresh hs).1 h).1
  | shared =>
    rw [hs] at hu
    cases hu
  | dying w =>
    rw [hs] at hu
    cases hu
    exact ((slotOk_dying hs).1 h).1
  | dead w =>
    rw [hs] at hu
    cases hu
    exact ((slotOk_dead hs).1 h).1

omit [DecidableEq ι] in
theorem PcOk.frame {pc : Pc ε A} (h : PcOk s u pc)
    (hown : ∀ q, (s.stage q).owner = some u → s'.stage q = s.stage q)
    (hheld : ∀ r, pc.holds = some r → s.stage r = .shared)
    (haddr : ∀ r, s.stage r ≠ .pool → s'.addr r = s.addr r)
    (hbumped : ∀ q, pc.bumps = some q → q ∈ s.set → q ∈ s'.set ∧ s'.stage q = s.stage q ∧
      s'.refCount q = s.refCount q)
    (hembeds : ∀ e, pc.endpoint = some e → s'.embeds e = s.embeds e) : PcOk s' u pc := by
  have hfresh : ∀ {p}, s.stage p = .fresh u → s'.stage p = .fresh u := by
    intro p hp
    rw [hown p (by rw [hp]; rfl), hp]
  have haddr' : ∀ {r a}, s.stage r ≠ .pool → s.addr r = some a → s'.addr r = some a := by
    intro r a hr ha
    rw [haddr r hr, ha]
  have hshared : ∀ {r}, pc.holds = some r → s.stage r ≠ .pool := by
    intro r hr hpool
    rw [hheld r hr] at hpool
    cases hpool
  cases pc with
  | idle => trivial
  | lock e p a => exact ⟨hfresh h.1, haddr' (by simp [h.1]) h.2⟩
  | find e p a => exact ⟨hfresh h.1, haddr' (by simp [h.1]) h.2⟩
  | unbump e p q a =>
    obtain ⟨⟨hp, ha⟩, hmem, ⟨w, hw⟩, hone, hqa⟩ := h
    obtain ⟨hmem', hstage, href⟩ := hbumped q rfl hmem
    refine ⟨⟨hfresh hp, haddr' (by simp [hp]) ha⟩, hmem', ⟨w, ?_⟩, ?_, ?_⟩
    · rw [hstage, hw]
    · rw [href, hone]
    · exact haddr' (by simp [hw]) hqa
  | unlock e p r a => exact ⟨fun hne => hfresh (h.1 hne), haddr' (hshared rfl) h.2⟩
  | giveBack e p r a => exact ⟨hfresh h.1, haddr' (hshared rfl) h.2⟩
  | embed e r a => exact haddr' (hshared rfl) h
  | erase e next q =>
    obtain ⟨hq, he, hnext⟩ := h
    refine ⟨?_, ?_, fun r a hra => ?_⟩
    · rw [hown q (by rw [hq]; rfl), hq]
    · rw [hembeds e rfl, he]
    · exact haddr' (hshared (by rw [hra]; rfl)) (hnext r a hra)
  | give e next q =>
    obtain ⟨hq, he, hnext⟩ := h
    refine ⟨?_, ?_, fun r a hra => ?_⟩
    · rw [hown q (by rw [hq]; rfl), hq]
    · rw [hembeds e rfl, he]
    · exact haddr' (hshared (by rw [hra]; rfl)) (hnext r a hra)

theorem Pc.bumps_locked {pc : Pc ε A} (h : pc.bumps = some q) : pc.locked = true := by
  cases pc <;> first | rfl | cases h

end

section

variable (h : Inv s)
include h

omit [DecidableEq ι] in
omit [DecidableEq ε] [DecidableEq A] in
theorem Inv.bumps_eq_none (hm : s.mutex ≠ some u) : (s.pc u).bumps = none := by
  cases hb : (s.pc u).bumps with
  | none => rfl
  | some q => exact absurd ((h.mutex u).2 (Pc.bumps_locked hb)) hm

omit [DecidableEq ε] [DecidableEq ι] [DecidableEq A] in
theorem Inv.dying_of_bumps (hb : (s.pc u).bumps = some q) : ∃ w, s.stage q = .dying w := by
  have hu := h.pcOk u
  cases hpu : s.pc u <;> rw [hpu] at hb hu <;> cases hb
  exact hu.2.2.1

omit [DecidableEq ε] [DecidableEq A] in
theorem Inv.next {pc' : Pc ε A} (hpc : s'.pc = update s.pc t pc') (hslot : ∀ q, SlotOk s' q)
    (ht : PcOk s' t pc')
    (hown : ∀ u, u ≠ t → ∀ q, (s.stage q).owner = some u → s'.stage q = s.stage q)
    (haddr : ∀ r, s.stage r ≠ .pool → s'.addr r = s.addr r)
    (hbumped : ∀ u, u ≠ t → ∀ q, (s.pc u).bumps = some q → q ∈ s.set →
      q ∈ s'.set ∧ s'.stage q = s.stage q ∧ s'.refCount q = s.refCount q)
    (hwriter : ∀ u, u ≠ t → ∀ e, s.writer e = some u → s'.writer e = some u ∧ s'.embeds e = s.embeds e)
    (hmutex : ∀ u, u ≠ t → (s'.mutex = some u ↔ s.mutex = some u))
    (hlocked : s'.mutex = some t ↔ pc'.locked = true)
    (hendpoint : ∀ e, pc'.endpoint = some e → s'.writer e = some t)
    (hnodup : s'.set.Nodup) (hunique : ∀ q ∈ s'.set, ∀ q' ∈ s'.set, s'.addr q = s'.addr q' → q = q')
    (hembeds : ∀ e q, s'.embeds e = some q → s'.addr q = s'.address e)
    (honce : ∀ q, s'.got q = s'.returned q + if s'.stage q matches .pool then 0 else 1)
    (hchecks : s'.failed = false) : Inv s' := by
  constructor
  case slot => exact hslot
  case pcOk =>
    intro u
    rw [hpc]
    obtain rfl | hu := eq_or_ne u t
    · rw [update_self]
      exact ht
    · rw [update_of_ne hu]
      apply (h.pcOk u).frame (hown u hu)
      · intro r hr
        exact (h.slot r).shared (x := .inr u) hr
      · exact haddr
      · exact hbumped u hu
      · intro e he
        exact (hwriter u hu e (h.writer u e he)).2
  case mutex =>
    intro u
    rw [hpc]
    obtain rfl | hu := eq_or_ne u t
    · rw [update_self]
      exact hlocked
    · rw [update_of_ne hu, hmutex u hu]
      exact h.mutex u
  case writer =>
    intro u e he
    rw [hpc] at he
    obtain rfl | hu := eq_or_ne u t
    · rw [update_self] at he
      exact hendpoint e he
    · rw [update_of_ne hu] at he
      exact (hwriter u hu e (h.writer u e he)).1
  case nodup => exact hnodup
  case unique => exact hunique
  case addr => exact hembeds
  case once => exact honce
  case checks => exact hchecks

omit [DecidableEq ι] in
omit [DecidableEq ε] [DecidableEq A] in
theorem Inv.bumps_of_mutex (hm : s.mutex = some t ∨ s.mutex = none) (hu : u ≠ t) :
    (s.pc u).bumps = none := by
  apply h.bumps_eq_none
  rcases hm with hm | hm
  · rw [hm]
    exact fun hut => hu (some.inj hut).symm
  · rw [hm]
    exact nofun

omit [DecidableEq ε] [DecidableEq A] in
theorem Inv.nextLocked {pc' : Pc ε A} (hpc : s'.pc = update s.pc t pc') (hm : s.mutex = some t)
    (hmutex : s'.mutex = s.mutex) (hwriter : s'.writer = s.writer) (haddr : s'.addr = s.addr)
    (hembeds : s'.embeds = s.embeds) (haddress : s'.address = s.address) (hfailed : s'.failed = s.failed)
    (hpcLocked : pc'.locked = true) (hendpoint : pc'.endpoint = (s.pc t).endpoint)
    (hslot : ∀ q, SlotOk s' q)
    (ht : PcOk s' t pc') (hown : ∀ u, u ≠ t → ∀ q, (s.stage q).owner = some u → s'.stage q = s.stage q)
    (hnodup : s'.set.Nodup) (hunique : ∀ q ∈ s'.set, ∀ q' ∈ s'.set, s.addr q = s.addr q' → q = q')
    (honce : ∀ q, s'.got q = s'.returned q + if s'.stage q matches .pool then 0 else 1) : Inv s' := by
  apply h.next hpc hslot ht hown
  case haddr => exact fun r _ => congrFun haddr r
  case hbumped =>
    intro u hu q hq
    rw [h.bumps_of_mutex (.inl hm) hu] at hq
    cases hq
  case hwriter =>
    rw [hwriter, hembeds]
    exact fun _ _ _ he => ⟨he, rfl⟩
  case hmutex =>
    rw [hmutex]
    exact fun _ _ => Iff.rfl
  case hlocked => exact ⟨fun _ => hpcLocked, fun _ => hmutex.trans hm⟩
  case hendpoint =>
    rw [hendpoint, hwriter]
    exact h.writer t
  case hnodup => exact hnodup
  case hunique =>
    rw [haddr]
    exact hunique
  case hembeds =>
    rw [hembeds, haddr, haddress]
    exact h.addr
  case honce => exact honce
  case hchecks => exact hfailed.trans h.checks

omit [DecidableEq A] in
theorem Inv.create (hidle : s.pc t = .idle) (hw : s.writer e = none) (hp : s.stage p = .pool) :
    Inv (createStep s t e p a) := by
  obtain ⟨href, hfamily, hset, husers⟩ := (slotOk_pool hp).1 (h.slot p)
  have hpc : (createStep s t e p a).pc = update s.pc t (.lock e p a) := rfl
  have husers' : ∀ q, (createStep s t e p a).users q = s.users q :=
    users_goto hpc rfl (by rw [hidle]; rfl)
  have hstage : (createStep s t e p a).stage p = .fresh t := update_self ..
  have hne : ∀ q ∈ s.set, q ≠ p := fun q hq hqp => hset (hqp ▸ hq)
  apply h.next hpc
  case hslot =>
    intro q
    obtain rfl | hq := eq_or_ne q p
    · rw [slotOk_fresh hstage, husers', hpc, update_self]
      exact ⟨rfl, update_self .., update_self .., hset, husers⟩
    · apply (h.slot q).frame hpc (update_of_ne hq ..) (update_of_ne hq ..) (update_of_ne hq ..)
        Iff.rfl (husers' q)
      · rw [hidle]
        exact nofun
      · rw [hidle]
        exact nofun
  case ht => exact ⟨hstage, update_self ..⟩
  case hown =>
    intro u _ q hq
    apply update_of_ne
    rintro rfl
    rw [hp] at hq
    cases hq
  case haddr =>
    intro r hr
    apply update_of_ne
    rintro rfl
    exact hr hp
  case hbumped =>
    intro u _ q _ hq
    exact ⟨hq, update_of_ne (hne q hq) .., update_of_ne (hne q hq) ..⟩
  case hwriter =>
    intro u _ e' he'
    have hee : e' ≠ e := by
      rintro rfl
      rw [hw] at he'
      cases he'
    exact ⟨(update_of_ne hee ..).trans he', rfl⟩
  case hmutex => exact fun u _ => Iff.rfl
  case hlocked =>
    have hm := h.mutex t
    rw [hidle] at hm
    exact hm
  case hendpoint =>
    intro e' he'
    cases he'
    exact update_self ..
  case hnodup => exact h.nodup
  case hunique =>
    intro q hq q' hq' haddr
    apply h.unique q hq q' hq'
    change update s.addr p (some a) q = update s.addr p (some a) q' at haddr
    rwa [update_of_ne (hne q hq), update_of_ne (hne q' hq')] at haddr
  case hembeds =>
    intro e' q he'
    have hq : q ≠ p := by
      rintro rfl
      have hshared := (h.slot q).shared (x := .inl e') he'
      rw [hp] at hshared
      cases hshared
    exact (update_of_ne hq ..).trans (h.addr e' q he')
  case honce =>
    intro q
    have hq := h.once q
    obtain rfl | hqp := eq_or_ne q p
    · rw [hp] at hq
      rw [hstage]
      change update s.got q (s.got q + 1) q = s.returned q + 1
      rw [update_self, hq]
      rfl
    · change update s.got p (s.got p + 1) q = s.returned q
        + if update s.stage p (.fresh t) q matches .pool then 0 else 1
      rw [update_of_ne hqp, update_of_ne hqp]
      exact hq
  case hchecks =>
    change ((s.failed || !decide (s.refCount p = 0)) || !decide (s.family p = false)) = false
    rw [h.checks, href, hfamily]
    rfl

end

section

omit [DecidableEq A]

theorem users_put (hembeds : s'.embeds = update s.embeds e v)
    (hpc : s'.pc = update s.pc t pc') (hholds : pc'.holds = (s.pc t).holds) :
    s'.users q = fiber (update s.holding (.inl e) v) (some q) := by
  unfold users
  rw [holding_put hembeds hpc, hholds]
  exact congrArg (fun f => fiber (update f (.inl e) v) (some q)) (update_eq_self (.inr t) s.holding)

theorem Inv.copy {rhs : ε} (h : Inv s) (hidle : s.pc t = .idle) (hw : s.writer e = none)
    (he : s.embeds e = none) :
    Inv (copyStep s e rhs) := by
  unfold copyStep
  split
  case h_1 => exact h
  case h_2 q hq =>
    have hshared : s.stage q = .shared := (h.slot q).shared (x := .inl rhs) hq
    obtain ⟨hfamily, hmem, href, hcard⟩ := (slotOk_shared hshared).1 (h.slot q)
    set s' := ((s.check (s.refCount q ≥ 1)).count q 1).put e q (s.address rhs)
    have hpc : s'.pc = update s.pc t .idle := by rw [← hidle, update_eq_self]; rfl
    have husers : ∀ r, s'.users r = fiber (update s.holding (.inl e) (some q)) (some r) := by
      intro r
      exact users_put rfl hpc (by rw [hidle])
    have hnone : s.holding (.inl e) = none := he
    apply h.next hpc
    case hslot =>
      intro r
      obtain rfl | hr := eq_or_ne r q
      · rw [slotOk_shared (s := s') hshared, husers,
          encard_fiber_insert (by rw [hnone]; exact nofun), hcard]
        have hcount : s'.refCount r = s.refCount r + 1 := update_self ..
        refine ⟨hfamily, hmem, ?_, ?_⟩
        · rw [hcount]
          exact Int.le_add_one href
        · rw [hcount, Int.toNat_add (by exact Int.le_trans Int.one_nonneg href) Int.one_nonneg]
          rfl
      · apply (h.slot r).frame hpc rfl (update_of_ne hr ..) rfl Iff.rfl
        · rw [husers]
          apply fiber_update
          rw [hnone]
          exact ⟨nofun, fun heq => absurd (some.inj heq).symm hr⟩
        · rw [hidle]
          exact id
        · rw [hidle]
          exact id
    case ht => trivial
    case hown => exact fun _ _ _ _ => rfl
    case haddr => exact fun _ _ => rfl
    case hbumped =>
      intro u _ r hr hmem'
      refine ⟨hmem', rfl, update_of_ne ?_ ..⟩
      rintro rfl
      obtain ⟨w, hw⟩ := h.dying_of_bumps hr
      rw [hshared] at hw
      cases hw
    case hwriter =>
      intro u _ e' he'
      refine ⟨he', update_of_ne ?_ ..⟩
      rintro rfl
      rw [hw] at he'
      cases he'
    case hmutex => exact fun u _ => Iff.rfl
    case hlocked =>
      have hm := h.mutex t
      rw [hidle] at hm
      exact hm
    case hendpoint => exact nofun
    case hnodup => exact h.nodup
    case hunique => exact h.unique
    case hembeds =>
      intro e' r he'
      change update s.embeds e (some q) e' = some r at he'
      change s.addr r = update s.address e (s.address rhs) e'
      obtain rfl | hee := eq_or_ne e' e
      · rw [update_self] at he'
        cases he'
        rw [update_self]
        exact h.addr rhs q hq
      · rw [update_of_ne hee] at he'
        rw [update_of_ne hee]
        exact h.addr e' r he'
    case honce => exact h.once
    case hchecks =>
      change (s.failed || !decide (s.refCount q ≥ 1)) = false
      rw [h.checks, decide_eq_true href]
      rfl

omit [DecidableEq ι] in
theorem Inv.begin (h : Inv s) (hw : s.writer e = none) : Inv (s.begin t e) := by
  constructor
  case slot => exact h.slot
  case pcOk => exact h.pcOk
  case mutex => exact h.mutex
  case writer =>
    intro u e' he'
    have hu := h.writer u e' he'
    apply (update_of_ne ?_ ..).trans hu
    rintro rfl
    rw [hw] at hu
    cases hu
  case nodup => exact h.nodup
  case unique => exact h.unique
  case addr => exact h.addr
  case once => exact h.once
  case checks => exact h.checks

theorem Inv.done (h : Inv s) (hw : s.writer e = some t) (hidle : s.pc t = .idle) : Inv (s.done t e) := by
  have hpc : (s.done t e).pc = s.pc := by
    change update s.pc t .idle = s.pc
    rw [← hidle, update_eq_self]
  constructor
  case slot =>
    intro q
    have hq := h.slot q
    unfold SlotOk users holding at hq ⊢
    rw [hpc]
    exact hq
  case pcOk =>
    intro u
    rw [hpc]
    have hu := h.pcOk u
    exact hu
  case mutex =>
    intro u
    rw [hpc]
    exact h.mutex u
  case writer =>
    intro u e' he'
    rw [hpc] at he'
    have hu := h.writer u e' he'
    apply (update_of_ne ?_ ..).trans hu
    rintro rfl
    rw [hw] at hu
    cases hu
    rw [hidle] at he'
    cases he'
  case nodup => exact h.nodup
  case unique => exact h.unique
  case addr => exact h.addr
  case once => exact h.once
  case checks => exact h.checks

end

def State.release (s : State ε ι A) (e : ε) (q : ℕ) : State ε ι A :=
  ((s.check (s.refCount q ≥ 1)).count q (-1)).clear e

section

variable (h : Inv s)
include h

section

variable (hw : s.writer e = some t) (hq : s.embeds e = some q)
include hw hq

section

omit [DecidableEq A]

theorem Inv.release {pc' : Pc ε A}
    {stage' : Stage ι} (hpool : ¬stage' matches .pool) (hholds : pc'.holds = (s.pc t).holds)
    (howns : ∀ r, r ≠ q → (s.pc t).owns = some r → pc'.owns = some r)
    (hpcLocked : (s.pc t).locked = false)
    (hlocked : pc'.locked = false) (hendpoint : ∀ e', pc'.endpoint = some e' → s.writer e' = some t)
    (hslot : SlotOk (((s.release e q).setStage q stage').goto t pc') q)
    (ht : PcOk (((s.release e q).setStage q stage').goto t pc') t pc') :
    Inv (((s.release e q).setStage q stage').goto t pc') := by
  have hshared : s.stage q = .shared := (h.slot q).shared (x := .inl e) hq
  obtain ⟨hfamily, hmem, href, hcard⟩ := (slotOk_shared hshared).1 (h.slot q)
  set s' := ((s.release e q).setStage q stage').goto t pc'
  have hpc : s'.pc = update s.pc t pc' := rfl
  have hsome : s.holding (.inl e) = some q := hq
  apply h.next hpc
  case hslot =>
    intro r
    obtain rfl | hr := eq_or_ne r q
    · exact hslot
    · apply (h.slot r).frame hpc (update_of_ne hr ..) (update_of_ne hr ..) rfl Iff.rfl
      · rw [users_put rfl hpc hholds]
        apply fiber_update
        rw [hsome]
        exact ⟨fun heq => absurd (some.inj heq).symm hr, nofun⟩
      · exact howns r hr
      · intro hb
        exact absurd (Pc.bumps_locked hb) (by rw [hpcLocked]; exact Bool.false_ne_true)
  case ht => exact ht
  case hown =>
    intro u _ r hr
    apply update_of_ne
    rintro rfl
    rw [hshared] at hr
    cases hr
  case haddr => exact fun _ _ => rfl
  case hbumped =>
    intro u _ r hr hmem'
    have hrq : r ≠ q := by
      rintro rfl
      obtain ⟨w, hw⟩ := h.dying_of_bumps hr
      rw [hshared] at hw
      cases hw
    exact ⟨hmem', update_of_ne hrq .., update_of_ne hrq ..⟩
  case hwriter =>
    intro u hu e' he'
    refine ⟨he', update_of_ne ?_ ..⟩
    rintro rfl
    rw [hw] at he'
    cases he'
    exact hu rfl
  case hmutex => exact fun u _ => Iff.rfl
  case hlocked =>
    have hm := h.mutex t
    rw [hpcLocked] at hm
    rw [hlocked]
    exact hm
  case hendpoint => exact hendpoint
  case hnodup => exact h.nodup
  case hunique => exact h.unique
  case hembeds =>
    intro e' r he'
    change update s.embeds e none e' = some r at he'
    change s.addr r = update s.address e none e'
    have hee : e' ≠ e := by
      rintro rfl
      rw [update_self] at he'
      cases he'
    rw [update_of_ne hee] at he' ⊢
    exact h.addr e' r he'
  case honce =>
    intro r
    have hr := h.once r
    change s.got r = s.returned r + if update s.stage q stage' r matches .pool then 0 else 1
    obtain rfl | hrq := eq_or_ne r q
    · rw [hshared] at hr
      rw [update_self, if_neg hpool]
      exact hr
    · rw [update_of_ne hrq]
      exact hr
  case hchecks =>
    change (s.failed || !decide (s.refCount q ≥ 1)) = false
    rw [h.checks, decide_eq_true href]
    rfl

theorem Inv.release_last (hlast : s.refCount q = 1)
    {next : Option (ℕ × A)} (hholds : (s.pc t).holds = next.map Prod.fst) (howns : (s.pc t).owns = none)
    (hlocked : (s.pc t).locked = false) (hnext : ∀ r a, next = some (r, a) → s.addr r = some a) :
    Inv (((s.release e q).setStage q (.dying t)).goto t (.erase e next q)) := by
  have hshared : s.stage q = .shared := (h.slot q).shared (x := .inl e) hq
  obtain ⟨hfamily, _, _, hcard⟩ := (slotOk_shared hshared).1 (h.slot q)
  set s' := ((s.release e q).setStage q (.dying t)).goto t (.erase e next q)
  have hpc : s'.pc = update s.pc t (.erase e next q) := rfl
  have hsome : s.holding (.inl e) = some q := hq
  have hstage : s'.stage q = .dying t := update_self ..
  have hcount : s'.refCount q = 0 := by
    change update s.refCount q (s.refCount q + -1) q = 0
    rw [update_self, hlast]
    rfl
  apply h.release hw hq
  case hpool => exact nofun
  case hholds => exact hholds.symm
  case howns =>
    intro r _ hr
    rw [howns] at hr
    cases hr
  case hpcLocked => exact hlocked
  case hlocked => rfl
  case hendpoint =>
    intro e' he'
    cases he'
    exact hw
  case hslot =>
    rw [slotOk_dying hstage, hpc, update_self]
    refine ⟨rfl, hfamily, ?_, .inl hcount⟩
    have hleft := encard_fiber_erase hsome (w := none) nofun
    rw [hcard, hlast] at hleft
    rw [users_put rfl hpc hholds.symm, ← Set.encard_eq_zero]
    exact ENat.add_left_injective_of_ne_top (ENat.natCast_ne_top 1) (hleft.trans (zero_add _).symm)
  case ht => exact ⟨hstage, update_self .., hnext⟩

theorem Inv.release_other (hmore : s.refCount q ≠ 1)
    (hpc : s.pc t = .idle ∨ ∃ r a, s.pc t = .embed e r a) : Inv (s.release e q) := by
  have hshared : s.stage q = .shared := (h.slot q).shared (x := .inl e) hq
  obtain ⟨hfamily, hmem, href, hcard⟩ := (slotOk_shared hshared).1 (h.slot q)
  have hsome : s.holding (.inl e) = some q := hq
  have hsame : s.release e q = ((s.release e q).setStage q .shared).goto t (s.pc t) := by
    have hstage : update s.stage q .shared = s.stage := by rw [← hshared, update_eq_self]
    have hpc' : update s.pc t (s.pc t) = s.pc := update_eq_self ..
    unfold State.goto State.setStage
    simp only [State.release, State.clear, State.count, State.check, hstage, hpc']
  have hpcLocked : (s.pc t).locked = false := by
    rcases hpc with hidle | ⟨r, a, hembed⟩
    · rw [hidle]
      rfl
    · rw [hembed]
      rfl
  rw [hsame]
  apply h.release hw hq
  case hpool => exact nofun
  case hholds => rfl
  case howns => exact fun _ _ hr => hr
  case hpcLocked => exact hpcLocked
  case hlocked => exact hpcLocked
  case hendpoint => exact h.writer t
  case hslot =>
    rw [slotOk_shared (update_self ..)]
    have hcount : (s.release e q).refCount q = s.refCount q + -1 := update_self ..
    refine ⟨hfamily, hmem, ?_, ?_⟩
    · change 1 ≤ (s.release e q).refCount q
      rw [hcount]
      lia
    · change _ = (((s.release e q).refCount q).toNat : ℕ∞)
      rw [hcount, users_put rfl rfl rfl]
      apply card_pred href
      rw [← hcard]
      exact encard_fiber_erase hsome nofun
  case ht =>
    have ht := h.pcOk t
    rcases hpc with hidle | ⟨r, a, hembed⟩
    · rw [hidle]
      trivial
    · rw [hembed] at ht ⊢
      exact ht

end

end

section

omit [DecidableEq A]

theorem Inv.drop (hidle : s.pc t = .idle) (hw : s.writer e = none) : Inv (dropStep s t e) := by
  unfold dropStep
  split
  case h_1 => exact h
  case h_2 q hq =>
    have hbegin : Inv (s.begin t e) := h.begin hw
    have hwriter : (s.begin t e).writer e = some t := update_self ..
    have hpc : (s.begin t e).pc t = .idle := hidle
    simp only [decRef]
    split
    case isTrue hlast =>
      exact hbegin.release_last hwriter hq hlast (by rw [hpc]; rfl) (by rw [hpc]; rfl)
        (by rw [hpc]; rfl) nofun
    case isFalse hmore =>
      exact (hbegin.release_other hwriter hq hmore (.inl hpc)).done hwriter hpc

theorem Inv.move {m : Option ι} {pc' : Pc ε A} (hholds : pc'.holds = (s.pc t).holds)
    (howns : ∀ r, (s.pc t).owns = some r → pc'.owns = some r) (hbumps : (s.pc t).bumps = none)
    (hendpoint : pc'.endpoint = (s.pc t).endpoint) (hmutex : ∀ u, u ≠ t → (m = some u ↔ s.mutex = some u))
    (hlocked : m = some t ↔ pc'.locked = true) (ht : PcOk ({ s with mutex := m }.goto t pc') t pc') :
    Inv ({ s with mutex := m }.goto t pc') := by
  have hpc : ({ s with mutex := m }.goto t pc').pc = update s.pc t pc' := rfl
  apply h.next hpc
  case hslot =>
    intro q
    apply (h.slot q).frame hpc rfl rfl rfl Iff.rfl (users_goto hpc rfl hholds q) (howns q)
    rw [hbumps]
    exact nofun
  case ht => exact ht
  case hown => exact fun _ _ _ _ => rfl
  case haddr => exact fun _ _ => rfl
  case hbumped => exact fun _ _ _ _ hq => ⟨hq, rfl, rfl⟩
  case hwriter => exact fun _ _ _ he => ⟨he, rfl⟩
  case hmutex => exact hmutex
  case hlocked => exact hlocked
  case hendpoint =>
    intro e he
    rw [hendpoint] at he
    exact h.writer t e he
  case hnodup => exact h.nodup
  case hunique => exact h.unique
  case hembeds => exact h.addr
  case honce => exact h.once
  case hchecks => exact h.checks

theorem Inv.lock (hpc : s.pc t = .lock e p a) : Inv (lockStep s t e p a) := by
  unfold lockStep
  split
  case isTrue hm =>
    have ht := h.pcOk t
    rw [hpc] at ht
    apply h.move
    case hholds => rw [hpc]; rfl
    case howns => rw [hpc]; exact fun _ hr => hr
    case hbumps => rw [hpc]; rfl
    case hendpoint => rw [hpc]; rfl
    case hmutex =>
      intro u hu
      rw [hm]
      constructor
      · intro hut
        exact absurd (some.inj hut).symm hu
      · exact nofun
    case hlocked => exact ⟨fun _ => rfl, fun _ => rfl⟩
    case ht => exact ht
  case isFalse => exact h

theorem Inv.unlock (hpc : s.pc t = .unlock e p r a) : Inv (unlockStep s t e p r a) := by
  have ht := h.pcOk t
  rw [hpc] at ht
  have hm : s.mutex = some t := (h.mutex t).2 (by rw [hpc]; rfl)
  apply h.move
  case hholds =>
    rw [hpc]
    split <;> rfl
  case howns =>
    rw [hpc]
    intro q hq
    split
    case isTrue hr =>
      simp only [Pc.owns, if_pos hr] at hq
      cases hq
    case isFalse hr =>
      simp only [Pc.owns, if_neg hr] at hq
      exact hq
  case hbumps =>
    rw [hpc]
    rfl
  case hendpoint =>
    rw [hpc]
    split <;> rfl
  case hmutex =>
    intro u hu
    rw [hm]
    constructor
    · exact nofun
    · intro hut
      exact absurd (some.inj hut).symm hu
  case hlocked =>
    constructor
    · exact nofun
    · intro hl
      split at hl <;> cases hl
  case ht =>
    split
    case isTrue => exact ht.2
    case isFalse hr => exact ⟨ht.1 hr, ht.2⟩

end

section

variable (hpc : s.pc t = .find e p a)
include hpc

theorem Inv.publish (hnone : ∀ q ∈ s.set, s.addr p ≠ s.addr q) :
    Inv ((s.publish p).goto t (.unlock e p p a)) := by
  have ht := h.pcOk t
  rw [hpc] at ht
  obtain ⟨hfresh, haddr⟩ := ht
  obtain ⟨_, href, hfamily, hmem, husers⟩ := (slotOk_fresh hfresh).1 (h.slot p)
  have hm : s.mutex = some t := (h.mutex t).2 (by rw [hpc]; rfl)
  set s' := (s.publish p).goto t (.unlock e p p a)
  have hpc' : s'.pc = update s.pc t (.unlock e p p a) := rfl
  have hset : s'.set = p :: s.set := by
    apply if_neg
    rw [any_eq_true]
    rintro ⟨q, hq, heq⟩
    simp only [equals, Bool.and_eq_true, decide_eq_true_eq] at heq
    exact hnone q hq heq.1
  have hstage : s'.stage p = .shared := update_self ..
  have hholding : s'.holding = update s.holding (.inr t) (some p) := holding_goto hpc' rfl
  have hidle : s.holding (.inr t) = none := by
    change (s.pc t).holds = none
    rw [hpc]
    rfl
  apply h.nextLocked hpc' hm rfl rfl rfl rfl rfl rfl rfl (by rw [hpc]; rfl)
  case hslot =>
    intro q
    obtain rfl | hq := eq_or_ne q p
    · rw [slotOk_shared hstage, hset]
      have hcount : s'.refCount q = 1 := href
      refine ⟨hfamily, mem_cons_self, ?_, ?_⟩
      · rw [hcount]
      · unfold users
        rw [hholding, encard_fiber_insert (by rw [hidle]; exact nofun), hcount]
        have hempty : fiber s.holding (some q) = ∅ := husers
        rw [hempty, Set.encard_empty]
        rfl
    · apply (h.slot q).frame hpc' (update_of_ne hq ..) rfl rfl
      · rw [hset, mem_cons]
        exact ⟨fun hor => hor.resolve_left hq, .inr⟩
      · unfold users
        rw [hholding]
        apply fiber_update
        rw [hidle]
        exact ⟨nofun, fun heq => absurd (some.inj heq).symm hq⟩
      · rw [hpc]
        intro howns
        exact absurd (some.inj howns).symm hq
      · rw [hpc]
        exact nofun
  case ht => exact ⟨fun hne => absurd rfl hne, haddr⟩
  case hown =>
    intro u hu q hq
    apply update_of_ne
    rintro rfl
    rw [hfresh] at hq
    exact hu (some.inj hq).symm
  case hnodup =>
    rw [hset]
    exact nodup_cons.2 ⟨hmem, h.nodup⟩
  case hunique =>
    rw [hset]
    intro q hq q' hq' heq
    rcases mem_cons.1 hq with rfl | hqs
    · rcases mem_cons.1 hq' with rfl | hqs'
      · rfl
      · exact absurd heq (hnone q' hqs')
    · rcases mem_cons.1 hq' with rfl | hqs'
      · exact absurd heq.symm (hnone q hqs)
      · exact h.unique q hqs q' hqs' heq
  case honce =>
    intro q
    have hq := h.once q
    change s.got q = s.returned q + if update s.stage p .shared q matches .pool then 0 else 1
    obtain rfl | hqp := eq_or_ne q p
    · rw [hfresh] at hq
      rw [update_self]
      exact hq
    · rw [update_of_ne hqp]
      exact hq

omit [DecidableEq A] in
theorem Inv.bump (hq : q ∈ s.set) (heq : s.addr p = s.addr q)
    (hzero : s.refCount q = 0) : Inv ((s.count q 1).goto t (.unbump e p q a)) := by
  have ht := h.pcOk t
  rw [hpc] at ht
  obtain ⟨hfresh, haddr⟩ := ht
  have hm : s.mutex = some t := (h.mutex t).2 (by rw [hpc]; rfl)
  have hpq : p ≠ q := by
    rintro rfl
    exact ((slotOk_fresh hfresh).1 (h.slot p)).2.2.2.1 hq
  obtain ⟨u, hdying⟩ : ∃ u, s.stage q = .dying u := by
    apply ((h.slot q).of_mem hq).resolve_left
    intro hshared
    have href := ((slotOk_shared hshared).1 (h.slot q)).2.2.1
    rw [hzero] at href
    exact absurd href (by decide)
  obtain ⟨howns, hfamily, husers, _⟩ := (slotOk_dying hdying).1 (h.slot q)
  have hut : u ≠ t := by
    rintro rfl
    rw [hpc] at howns
    exact hpq (some.inj howns)
  set s' := (s.count q 1).goto t (.unbump e p q a)
  have hpc' : s'.pc = update s.pc t (.unbump e p q a) := rfl
  have husers' : ∀ r, s'.users r = s.users r := users_goto hpc' rfl (by rw [hpc]; rfl)
  have hcount : s'.refCount q = 1 := by
    change update s.refCount q (s.refCount q + 1) q = 1
    rw [update_self, hzero]
    rfl
  apply h.nextLocked hpc' hm rfl rfl rfl rfl rfl rfl rfl (by rw [hpc]; rfl)
  case hslot =>
    intro r
    obtain rfl | hr := eq_or_ne r q
    · rw [slotOk_dying (s := s') hdying, husers', hpc', update_of_ne hut]
      exact ⟨howns, hfamily, husers, .inr ⟨hcount, t, by rw [update_self]; rfl⟩⟩
    · apply (h.slot r).frame hpc' rfl (update_of_ne hr ..) rfl Iff.rfl (husers' r)
      · rw [hpc]
        exact id
      · rw [hpc]
        exact nofun
  case ht => exact ⟨⟨hfresh, haddr⟩, hq, ⟨u, hdying⟩, hcount, heq ▸ haddr⟩
  case hown => exact fun _ _ _ _ => rfl
  case hnodup => exact h.nodup
  case hunique => exact h.unique
  case honce => exact h.once

omit [DecidableEq A] in
theorem Inv.reuse (hq : q ∈ s.set) (heq : s.addr p = s.addr q)
    (hzero : s.refCount q ≠ 0) : Inv ((s.count q 1).goto t (.unlock e p q a)) := by
  have ht := h.pcOk t
  rw [hpc] at ht
  obtain ⟨hfresh, haddr⟩ := ht
  have hm : s.mutex = some t := (h.mutex t).2 (by rw [hpc]; rfl)
  have hpq : q ≠ p := by
    rintro rfl
    exact ((slotOk_fresh hfresh).1 (h.slot q)).2.2.2.1 hq
  have hshared : s.stage q = .shared := by
    apply ((h.slot q).of_mem hq).resolve_right
    rintro ⟨u, hdying⟩
    -- Only the thread with the mutex counts a dying object up.
    obtain ⟨_, _, _, hcount⟩ := (slotOk_dying hdying).1 (h.slot q)
    rcases hcount with hcount | ⟨_, w, hw⟩
    · exact hzero hcount
    · obtain rfl | hwt := eq_or_ne w t
      · rw [hpc] at hw
        cases hw
      · rw [h.bumps_of_mutex (.inl hm) hwt] at hw
        cases hw
  obtain ⟨hfamily, hmem, href, hcard⟩ := (slotOk_shared hshared).1 (h.slot q)
  set s' := (s.count q 1).goto t (.unlock e p q a)
  have hpc' : s'.pc = update s.pc t (.unlock e p q a) := rfl
  have hholding : s'.holding = update s.holding (.inr t) (some q) := holding_goto hpc' rfl
  have hidle : s.holding (.inr t) = none := by
    change (s.pc t).holds = none
    rw [hpc]
    rfl
  apply h.nextLocked hpc' hm rfl rfl rfl rfl rfl rfl rfl (by rw [hpc]; rfl)
  case hslot =>
    intro r
    obtain rfl | hr := eq_or_ne r q
    · have hcount : s'.refCount r = s.refCount r + 1 := update_self ..
      rw [slotOk_shared (s := s') hshared, hcount]
      refine ⟨hfamily, hmem, Int.le_add_one href, ?_⟩
      unfold users
      rw [hholding, encard_fiber_insert (by rw [hidle]; exact nofun), hcard,
        Int.toNat_add (Int.le_trans Int.one_nonneg href) Int.one_nonneg]
      rfl
    · apply (h.slot r).frame hpc' rfl (update_of_ne hr ..) rfl Iff.rfl
      · unfold users
        rw [hholding]
        apply fiber_update
        rw [hidle]
        exact ⟨nofun, fun heq => absurd (some.inj heq).symm hr⟩
      · rw [hpc]
        intro howns
        simp only [Pc.owns, if_neg hpq]
        exact howns
      · rw [hpc]
        exact nofun
  case ht => exact ⟨fun _ => hfresh, heq ▸ haddr⟩
  case hown => exact fun _ _ _ _ => rfl
  case hnodup => exact h.nodup
  case hunique => exact h.unique
  case honce => exact h.once

theorem Inv.find : Inv (findStep s t e p a) := by
  have ht := h.pcOk t
  rw [hpc] at ht
  have hfamily : s.family p = true := ((slotOk_fresh ht.1).1 (h.slot p)).2.2.1
  unfold findStep
  split
  case h_1 hnone =>
    apply h.publish hpc
    intro q hq heq
    have hne := find?_eq_none.1 hnone q hq
    rw [equals, heq, hfamily, (h.slot q).family hq] at hne
    simp at hne
  case h_2 q hsome =>
    have hq : q ∈ s.set := mem_of_find?_eq_some hsome
    have heq : s.equals p q = true := find?_some hsome
    simp only [equals, Bool.and_eq_true, decide_eq_true_eq] at heq
    split
    case isTrue hzero => exact h.bump hpc hq heq.1 hzero
    case isFalse hzero => exact h.reuse hpc hq heq.1 hzero

end

omit [DecidableEq A] in
theorem Inv.unbumped (hpc : s.pc t = .unbump e p q a) :
    Inv ({ s.count q (-1) with set := s.set.erase q }.goto t (.find e p a)) := by
  have ht := h.pcOk t
  rw [hpc] at ht
  obtain ⟨⟨hfresh, haddr⟩, hq, ⟨u, hdying⟩, hone, _⟩ := ht
  have hm : s.mutex = some t := (h.mutex t).2 (by rw [hpc]; rfl)
  obtain ⟨howns, hfamily, husers, _⟩ := (slotOk_dying hdying).1 (h.slot q)
  have hut : u ≠ t := by
    rintro rfl
    rw [hpc] at howns
    cases howns
    rw [hfresh] at hdying
    cases hdying
  set s' := { s.count q (-1) with set := s.set.erase q }.goto t (.find e p a)
  have hpc' : s'.pc = update s.pc t (.find e p a) := rfl
  have husers' : ∀ r, s'.users r = s.users r := users_goto hpc' rfl (by rw [hpc]; rfl)
  have hcount : s'.refCount q = 0 := by
    change update s.refCount q (s.refCount q + -1) q = 0
    rw [update_self, hone]
    rfl
  apply h.nextLocked hpc' hm rfl rfl rfl rfl rfl rfl rfl (by rw [hpc]; rfl)
  case hslot =>
    intro r
    obtain rfl | hr := eq_or_ne r q
    · rw [slotOk_dying (s := s') hdying, husers', hpc', update_of_ne hut]
      exact ⟨howns, hfamily, husers, .inl hcount⟩
    · apply (h.slot r).frame hpc' rfl (update_of_ne hr ..) rfl (mem_erase_of_ne hr) (husers' r)
      · rw [hpc]
        exact id
      · rw [hpc]
        intro hb
        exact absurd (some.inj hb).symm hr
  case ht => exact ⟨hfresh, haddr⟩
  case hown => exact fun _ _ _ _ => rfl
  case hnodup => exact h.nodup.erase q
  case hunique =>
    intro r hr r' hr' heq
    exact h.unique r (mem_of_mem_erase hr) r' (mem_of_mem_erase hr') heq
  case honce => exact h.once

theorem Inv.unbump (hpc : s.pc t = .unbump e p q a) : Inv (unbumpStep s t e p q a) := by
  have ht := h.pcOk t
  rw [hpc] at ht
  obtain ⟨⟨_, haddr⟩, hq, _, _, hqa⟩ := ht
  have hstep : unbumpStep s t e p q a =
      (({ s.count q (-1) with set := s.set.erase q }.goto t (.find e p a)).publish p).goto t
        (.unlock e p p a) := by
    simp only [unbumpStep, State.goto, State.publish, State.setStage, State.count, update_idem]
    rfl
  rw [hstep]
  apply (h.unbumped hpc).publish (update_self ..)
  intro r hr heq
  have hrq : r ≠ q := fun hrq => (List.Nodup.mem_erase_iff h.nodup).1 hr |>.1 hrq
  exact hrq (h.unique r (mem_of_mem_erase hr) q hq (heq.symm.trans (haddr.trans hqa.symm)))

omit [DecidableEq A] in
theorem Inv.giveSlot {pc' : Pc ε A} (howner : (s.stage q).owner = some t) (hmem : q ∉ s.set)
    (husers : s.users q = ∅) (hholds : pc'.holds = (s.pc t).holds)
    (howns : ∀ r, r ≠ q → (s.pc t).owns = some r → pc'.owns = some r)
    (hpcLocked : (s.pc t).locked = false)
    (hlocked : pc'.locked = false) (hendpoint : ∀ e', pc'.endpoint = some e' → s.writer e' = some t)
    (ht : PcOk ({ s.giveSlot q with refCount := update s.refCount q 0 }.goto t pc') t pc') :
    Inv ({ s.giveSlot q with refCount := update s.refCount q 0 }.goto t pc') := by
  set s' := { s.giveSlot q with refCount := update s.refCount q 0 }.goto t pc'
  have hpc : s'.pc = update s.pc t pc' := rfl
  have husers' : ∀ r, s'.users r = s.users r := users_goto hpc rfl hholds
  have hstage : s'.stage q = .pool := update_self ..
  have hne : ∀ r ∈ s.set, r ≠ q := fun r hr hrq => hmem (hrq ▸ hr)
  apply h.next hpc
  case hslot =>
    intro r
    obtain rfl | hr := eq_or_ne r q
    · rw [slotOk_pool hstage, husers']
      exact ⟨update_self .., update_self .., hmem, husers⟩
    · apply (h.slot r).frame hpc (update_of_ne hr ..) (update_of_ne hr ..) (update_of_ne hr ..)
        Iff.rfl (husers' r)
      · exact howns r hr
      · intro hb
        exact absurd (Pc.bumps_locked hb) (by rw [hpcLocked]; exact Bool.false_ne_true)
  case ht => exact ht
  case hown =>
    intro u hu r hr
    apply update_of_ne
    rintro rfl
    rw [howner] at hr
    exact hu (some.inj hr).symm
  case haddr => exact fun _ _ => rfl
  case hbumped => exact fun _ _ r _ hr => ⟨hr, update_of_ne (hne r hr) .., update_of_ne (hne r hr) ..⟩
  case hwriter => exact fun _ _ _ he => ⟨he, rfl⟩
  case hmutex => exact fun _ _ => Iff.rfl
  case hlocked =>
    have hm := h.mutex t
    rw [hpcLocked] at hm
    rw [hlocked]
    exact hm
  case hendpoint => exact hendpoint
  case hnodup => exact h.nodup
  case hunique => exact h.unique
  case hembeds => exact h.addr
  case honce =>
    intro r
    have hr := h.once r
    change s.got r = update s.returned q (s.returned q + 1) r
        + if update s.stage q .pool r matches .pool then 0 else 1
    obtain rfl | hrq := eq_or_ne r q
    · rw [update_self, update_self, hr]
      have hnot : ¬s.stage r matches .pool := by
        intro hpool
        split at hpool
        case h_1 hs =>
          rw [hs] at howner
          cases howner
        case h_2 => cases hpool
      rw [if_neg hnot]
      rfl
    · rw [update_of_ne hrq, update_of_ne hrq]
      exact hr
  case hchecks => exact h.checks

omit [DecidableEq A] in
theorem Inv.giveBack (hpc : s.pc t = .giveBack e p r a) : Inv (giveBackStep s t e p r a) := by
  have ht := h.pcOk t
  rw [hpc] at ht
  obtain ⟨_, _, _, hmem, husers⟩ := (slotOk_fresh ht.1).1 (h.slot p)
  apply h.giveSlot
  case howner => rw [ht.1]; rfl
  case hmem => exact hmem
  case husers => exact husers
  case hholds => rw [hpc]; rfl
  case howns =>
    intro q hq howns
    rw [hpc] at howns
    exact absurd (some.inj howns).symm hq
  case hpcLocked => rw [hpc]; rfl
  case hlocked => rfl
  case hendpoint =>
    intro e' he'
    cases he'
    exact h.writer t e (by rw [hpc]; rfl)
  case ht => exact ht.2

end

omit [DecidableEq A] in
theorem Inv.give {next : Option (ℕ × A)} (h : Inv s) (hpc : s.pc t = .give e next q) :
    Inv (giveStep s t e next q) := by
  have ht := h.pcOk t
  rw [hpc] at ht
  obtain ⟨hdead, _, hnext⟩ := ht
  obtain ⟨_, href, hmem, husers⟩ := (slotOk_dead hdead).1 (h.slot q)
  have hw : s.writer e = some t := h.writer t e (by rw [hpc]; rfl)
  have hsame : { s.giveSlot q with refCount := update s.refCount q 0 } = s.giveSlot q := by
    rw [← href, update_eq_self]
    rfl
  have hgive : ∀ {pc' : Pc ε A}, pc'.holds = (s.pc t).holds → pc'.locked = false →
      (∀ e', pc'.endpoint = some e' → e' = e) → PcOk ((s.giveSlot q).goto t pc') t pc' →
      Inv ((s.giveSlot q).goto t pc') := by
    intro pc' hholds hlocked hendpoint ht'
    rw [← hsame] at ht' ⊢
    apply h.giveSlot
    case howner => rw [hdead]; rfl
    case hmem => exact hmem
    case husers => exact husers
    case hholds => exact hholds
    case howns =>
      intro r hr howns
      rw [hpc] at howns
      exact absurd (some.inj howns).symm hr
    case hpcLocked => rw [hpc]; rfl
    case hlocked => exact hlocked
    case hendpoint =>
      intro e' he'
      rw [hendpoint e' he']
      exact hw
    case ht => exact ht'
  unfold giveStep
  split
  case h_1 =>
    have hidle : Inv ((s.giveSlot q).goto t .idle) := hgive (by rw [hpc]; rfl) rfl nofun trivial
    have hdone := hidle.done (t := t) (e := e) hw (update_self ..)
    unfold State.done State.goto at hdone ⊢
    rw [update_idem] at hdone
    exact hdone
  case h_2 r a =>
    apply hgive
    · rw [hpc]
      rfl
    · rfl
    · intro e' he'
      cases he'
      rfl
    · exact hnext r a rfl

section

omit [DecidableEq ε] [DecidableEq ι]

theorem Inv.lookup_self (h : Inv s) (hq : q ∈ s.set) : s.lookup q = some q := by
  have hself : s.equals q q = true := by
    rw [equals, decide_eq_true rfl, decide_eq_true rfl]
    rfl
  cases hl : s.lookup q with
  | none => exact absurd hself (find?_eq_none.1 hl q hq)
  | some r =>
    have heq : s.equals q r = true := find?_some hl
    simp only [equals, Bool.and_eq_true, decide_eq_true_eq] at heq
    rw [h.unique q hq r (mem_of_find?_eq_some hl) heq.1]

theorem Inv.set_erase (h : Inv s) (q : ℕ) : (if s.lookup q = some q then s.set.erase q else s.set)
      = s.set.erase q := by
  split
  case isTrue => rfl
  case isFalse hne =>
    symm
    apply erase_of_not_mem
    exact fun hq => hne (h.lookup_self hq)

end

theorem Inv.erase {next : Option (ℕ × A)} (h : Inv s) (hpc : s.pc t = .erase e next q) :
    Inv (eraseStep s t e next q) := by
  have ht := h.pcOk t
  rw [hpc] at ht
  obtain ⟨hdying, he, hnext⟩ := ht
  unfold eraseStep
  split
  case isFalse => exact h
  case isTrue hm =>
    rw [h.set_erase q]
    have hbumps : ∀ u, (s.pc u).bumps = none := fun u => h.bumps_eq_none (by rw [hm]; exact nofun)
    obtain ⟨howns, _, husers, hcount⟩ := (slotOk_dying hdying).1 (h.slot q)
    have href : s.refCount q = 0 := by
      rcases hcount with hzero | ⟨_, u, hu⟩
      · exact hzero
      · rw [hbumps u] at hu
        cases hu
    set s' := { s.setStage q (.dead t) with set := s.set.erase q }.goto t (.give e next q)
    have hpc' : s'.pc = update s.pc t (.give e next q) := rfl
    have husers' : ∀ r, s'.users r = s.users r := users_goto hpc' rfl (by rw [hpc]; rfl)
    have hstage : s'.stage q = .dead t := update_self ..
    apply h.next hpc'
    case hslot =>
      intro r
      obtain rfl | hr := eq_or_ne r q
      · rw [slotOk_dead hstage, husers', hpc', update_self]
        exact ⟨rfl, href, h.nodup.not_mem_erase, husers⟩
      · apply (h.slot r).frame hpc' (update_of_ne hr ..) rfl rfl (mem_erase_of_ne hr) (husers' r)
        · rw [hpc]
          exact id
        · rw [hpc]
          exact nofun
    case ht => exact ⟨hstage, he, hnext⟩
    case hown =>
      intro u hu r hr
      apply update_of_ne
      rintro rfl
      rw [hdying] at hr
      exact hu (some.inj hr).symm
    case haddr => exact fun _ _ => rfl
    case hbumped =>
      intro u _ r hr
      rw [hbumps u] at hr
      cases hr
    case hwriter => exact fun _ _ _ hw => ⟨hw, rfl⟩
    case hmutex => exact fun _ _ => Iff.rfl
    case hlocked =>
      change s.mutex = some t ↔ false = true
      rw [hm]
      exact ⟨nofun, nofun⟩
    case hendpoint =>
      intro e' he'
      cases he'
      exact h.writer t e (by rw [hpc]; rfl)
    case hnodup => exact h.nodup.erase q
    case hunique =>
      intro r hr r' hr' heq
      exact h.unique r (mem_of_mem_erase hr) r' (mem_of_mem_erase hr') heq
    case hembeds => exact h.addr
    case honce =>
      intro r
      have hr := h.once r
      change s.got r = s.returned r + if update s.stage q (.dead t) r matches .pool then 0 else 1
      obtain rfl | hrq := eq_or_ne r q
      · rw [hdying] at hr
        rw [update_self]
        exact hr
      · rw [update_of_ne hrq]
        exact hr
    case hchecks => exact h.checks

omit [DecidableEq A] in
theorem Inv.put (h : Inv s) (hpc : s.pc t = .embed e r a) (he : s.embeds e = none) :
    Inv ((s.put e r (some a)).goto t .idle) := by
  have ht := h.pcOk t
  rw [hpc] at ht
  have hw : s.writer e = some t := h.writer t e (by rw [hpc]; rfl)
  have hholds : s.holding (.inr t) = some r := by
    change (s.pc t).holds = some r
    rw [hpc]
    rfl
  have hnone : s.holding (.inl e) = none := he
  have hshared : s.stage r = .shared := (h.slot r).shared hholds
  obtain ⟨hfamily, hmem, href, hcard⟩ := (slotOk_shared hshared).1 (h.slot r)
  set s' := (s.put e r (some a)).goto t .idle
  have hpc' : s'.pc = update s.pc t .idle := rfl
  have hholding : s'.holding = update (update s.holding (.inr t) none) (.inl e) (some r) :=
    holding_put rfl hpc'
  have hnone' : update s.holding (.inr t) none (.inl e) = none := by
    rw [update_of_ne Sum.inl_ne_inr]
    exact hnone
  apply h.next hpc'
  case hslot =>
    intro q
    obtain rfl | hq := eq_or_ne q r
    · rw [slotOk_shared (s := s') hshared]
      refine ⟨hfamily, hmem, href, ?_⟩
      unfold users
      rw [hholding, encard_fiber_insert (by rw [hnone']; exact nofun),
        encard_fiber_erase hholds (w := none) nofun]
      exact hcard
    · apply (h.slot q).frame hpc' rfl rfl rfl Iff.rfl
      · unfold users
        rw [hholding, fiber_update, fiber_update]
        · rw [hholds]
          exact ⟨fun heq => absurd (some.inj heq).symm hq, nofun⟩
        · rw [hnone']
          exact ⟨nofun, fun heq => absurd (some.inj heq).symm hq⟩
      · rw [hpc]
        exact nofun
      · rw [hpc]
        exact nofun
  case ht => trivial
  case hown => exact fun _ _ _ _ => rfl
  case haddr => exact fun _ _ => rfl
  case hbumped => exact fun _ _ _ _ hq => ⟨hq, rfl, rfl⟩
  case hwriter =>
    intro u hu e' he'
    refine ⟨he', update_of_ne ?_ ..⟩
    rintro rfl
    rw [hw] at he'
    exact hu (some.inj he').symm
  case hmutex => exact fun _ _ => Iff.rfl
  case hlocked =>
    have hm := h.mutex t
    rw [hpc] at hm
    exact hm
  case hendpoint => exact nofun
  case hnodup => exact h.nodup
  case hunique => exact h.unique
  case hembeds =>
    intro e' q he'
    change update s.embeds e (some r) e' = some q at he'
    change s.addr q = update s.address e (some a) e'
    obtain rfl | hee := eq_or_ne e' e
    · rw [update_self] at he'
      cases he'
      rw [update_self]
      exact ht
    · rw [update_of_ne hee] at he' ⊢
      exact h.addr e' q he'
  case honce => exact h.once
  case hchecks => exact h.checks

omit [DecidableEq A] in
theorem Inv.embed (h : Inv s) (hpc : s.pc t = .embed e r a) : Inv (embedStep s t e r a) := by
  have ht := h.pcOk t
  rw [hpc] at ht
  have hw : s.writer e = some t := h.writer t e (by rw [hpc]; rfl)
  unfold embedStep
  split
  case h_1 q hq =>
    simp only [decRef]
    split
    case isTrue hlast =>
      apply h.release_last hw hq hlast
      · rw [hpc]
        rfl
      · rw [hpc]
        rfl
      · rw [hpc]
        rfl
      · rintro r' a' ⟨⟩
        exact ht
    case isFalse hmore =>
      have hkeep : update s.pc t (.embed e r a) = s.pc := by rw [← hpc, update_eq_self]
      have hrelease := h.release_other hw hq hmore (.inr ⟨r, a, hpc⟩)
      unfold State.goto State.release State.clear State.count State.check at *
      simp only [hkeep]
      exact hrelease
  case h_2 he =>
    have hdone := (h.put hpc he).done (t := t) (e := e) hw (update_self ..)
    unfold State.done State.goto at hdone ⊢
    rw [update_idem] at hdone
    exact hdone

theorem Inv.go (h : Inv s) (t : ι) : Inv (goStep s t) := by
  unfold goStep
  split
  case h_1 => exact h
  case h_2 e p a hpc => exact h.lock hpc
  case h_3 e p a hpc => exact h.find hpc
  case h_4 e p q a hpc => exact h.unbump hpc
  case h_5 e p r a hpc => exact h.unlock hpc
  case h_6 e p r a hpc => exact h.giveBack hpc
  case h_7 e r a hpc => exact h.embed hpc
  case h_8 e next q hpc => exact h.erase hpc
  case h_9 e next q hpc => exact h.give hpc

theorem Inv.step (h : Inv s) (act : Act ε ι A) : Inv (step s act) := by
  have hidle : ∀ {t : ι}, (s.pc t matches .idle) → s.pc t = .idle := by
    intro t hm
    split at hm
    case h_1 hpc => exact hpc
    case h_2 => cases hm
  cases act with
  | create t e p a =>
    by_cases hok : s.MayWrite t e ∧ (s.stage p matches .pool) ∧ p < 2 ^ 32
    · rw [ExtendedEndPoint.step, if_pos hok]
      obtain ⟨⟨hpc, hw⟩, hpool, -⟩ := hok
      apply h.create (hidle hpc) hw
      split at hpool
      case h_1 hs => exact hs
      case h_2 => cases hpool
    · rw [ExtendedEndPoint.step, if_neg hok]
      exact h
  | copy t e rhs =>
    simp only [ExtendedEndPoint.step]
    split
    case isTrue hok => exact h.copy (hidle hok.1.1) hok.1.2 hok.2.2
    case isFalse => exact h
  | drop t e =>
    simp only [ExtendedEndPoint.step]
    split
    case isTrue hok => exact h.drop (hidle hok.1) hok.2
    case isFalse => exact h
  | go t => exact h.go t

section

omit [DecidableEq ε] [DecidableEq ι] [DecidableEq A]

theorem inv_start : Inv (start ε ι A) := by
  constructor
  case slot =>
    intro q
    rw [slotOk_pool rfl]
    refine ⟨rfl, rfl, not_mem_nil, ?_⟩
    ext x
    rcases x with e | t
    · exact ⟨nofun, nofun⟩
    · exact ⟨nofun, nofun⟩
  case pcOk => exact fun _ => trivial
  case mutex => exact fun _ => ⟨nofun, nofun⟩
  case writer => exact fun _ _ => nofun
  case nodup => exact nodup_nil
  case unique => exact fun _ hq => absurd hq not_mem_nil
  case addr => exact fun _ _ => nofun
  case once => exact fun _ => rfl
  case checks => rfl

theorem users_of_idle (hidle : ∀ t, s.pc t = .idle) (q : ℕ) :
    s.users q = Sum.inl '' {e | s.embeds e = some q} := by
  ext x
  rcases x with e | t
  · rw [Sum.inl_injective.mem_set_image]
    rfl
  · constructor
    · intro ht
      change (s.pc t).holds = some q at ht
      rw [hidle t] at ht
      cases ht
    · rintro ⟨_, _, hne⟩
      cases hne

theorem Inv.owner_of_idle (h : Inv s) (hidle : ∀ t, s.pc t = .idle) (q : ℕ) :
    (s.stage q).owner = none := by
  cases ho : (s.stage q).owner with
  | none => rfl
  | some u =>
    have howns := (h.slot q).owns ho
    rw [hidle u] at howns
    cases howns

theorem Inv.exact (h : Inv s) : Exact s := by
  have hcard : (∀ t, s.pc t = .idle) → ∀ q, (s.users q).encard = {e | s.embeds e = some q}.encard := by
    intro hidle q
    rw [users_of_idle hidle, Sum.inl_injective.encard_image]
  constructor
  case counted =>
    intro e q he
    have hshared := (h.slot q).shared (x := .inl e) he
    exact ((slotOk_shared hshared).1 (h.slot q)).2.2.1
  case settled =>
    intro hidle q
    have ho := h.owner_of_idle hidle q
    rw [← hcard hidle q]
    cases hs : s.stage q with
    | pool =>
      obtain ⟨href, _, _, husers⟩ := (slotOk_pool hs).1 (h.slot q)
      rw [href, husers, Set.encard_empty]
      exact ⟨le_rfl, rfl⟩
    | shared =>
      obtain ⟨_, _, href, husers⟩ := (slotOk_shared hs).1 (h.slot q)
      exact ⟨Int.le_trans Int.one_nonneg href, husers⟩
    | fresh u =>
      rw [hs] at ho
      cases ho
    | dying u =>
      rw [hs] at ho
      cases ho
    | dead u =>
      rw [hs] at ho
      cases ho
  case addr => exact h.addr
  case same =>
    intro e e' q q' he he'
    rw [← h.addr e q he, ← h.addr e' q' he']
    constructor
    · intro hqq
      rw [hqq]
    · have hq := ((slotOk_shared ((h.slot q).shared (x := .inl e) he)).1 (h.slot q)).2.1
      have hq' := ((slotOk_shared ((h.slot q').shared (x := .inl e') he')).1 (h.slot q')).2.1
      exact h.unique q hq q' hq'
  case once => exact h.once
  case released =>
    intro hidle q hnone
    have ho := h.owner_of_idle hidle q
    cases hs : s.stage q with
    | pool => rfl
    | shared =>
      obtain ⟨_, _, href, husers⟩ := (slotOk_shared hs).1 (h.slot q)
      have hempty : {e | s.embeds e = some q} = ∅ := Set.eq_empty_of_forall_notMem hnone
      rw [hcard hidle q, hempty, Set.encard_empty] at husers
      have hzero : (s.refCount q).toNat = 0 := by exact_mod_cast husers.symm
      lia
    | fresh u =>
      rw [hs] at ho
      cases ho
    | dying u =>
      rw [hs] at ho
      cases ho
    | dead u =>
      rw [hs] at ho
      cases ho
  case checks => exact h.checks

end

/-- **Extended endpoints are shared and released exactly**, in any interleaving of any number of
threads. -/
theorem run_sharedExactly (as : List (Act ε ι A)) : Exact (runFrom step (start ε ι A) as) := by
  have hkeeps : Keeps step (Inv (ε := ε) (ι := ι) (A := A)) := fun _ a h => h.step a
  exact (hkeeps.run inv_start as).exact

end Eabase.Utility.ExtendedEndPoint
