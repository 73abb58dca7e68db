import Mathlib.Data.List.Range
import Mathlib.Data.List.Perm.Basic
import Eabase.Lib.Machine
import Eabase.Lib.Ring

/-!
# The work stealing queue

`fiber/work_stealing_queue.h`: one owner pushes and pops at the bottom, any number of thieves steal
at the top. `_bottom` and `_top` only ever hold positions (64-bit counters that grow by one with
each item), the item of position `p` lies in the slot `p & (_capacity - 1)`, and the only point
where the two ends meet is the CAS on `_top`.

The model runs the two sides one atomic access at a time. The local state of
a party is where it stands in its function together with the values it has
loaded; a label lets one party begin a call or do its next access. The three
histories `pushes`, `pops` and `steals` only record what the calls returned.

What the queue is for is said by the **ledger**: an account of which pushed
items are live, popped and stolen, that the histories agree with. The
invariant carries a ledger through every partial state of a pop and of any
number of steals.
-/

namespace Eabase.Fiber.WorkStealingQueue

open Lib Function List

variable {ι α : Type*} [DecidableEq ι]

/-- Where the owner stands. Every constructor is named after its next access. -/
inductive Owner (α : Type*) where
  | idle
  | pushTop (x : α) (b : ℕ)
  | pushWrite (x : α) (b : ℕ)
  | pushStore (x : α) (b : ℕ)
  | popTop (b : ℕ)
  | popDec (b : ℕ)
  | popReload (b : ℕ)
  | popRead (b t : ℕ)
  | popCas (b t : ℕ) (val : α)
  | popRestore (b : ℕ) (popped : Option α)
  deriving DecidableEq

/-- Where a thief stands in `steal`. -/
inductive Thief (α : Type*) where
  | idle
  | loadBottom (t : ℕ)
  | recheck (t : ℕ)
  | read (t : ℕ)
  | cas (t : ℕ) (val : α)
  deriving DecidableEq

/-- The queue, its parties and what their calls have returned so far. An accepted
push is recorded with the position it was given. -/
structure State (ι α : Type*) where
  bottom : ℕ
  capacity : ℕ
  buffer : ℕ → α
  top : ℕ
  owner : Owner α
  thief : ι → Thief α
  pushes : List (ℕ × α)
  pops : List α
  steals : List α

/-- The constructor followed by `init`, which accepts the powers of two. What the
fresh array holds is not specified, so it is an argument. -/
def init (ι : Type*) (capacity : ℕ) (buffer : ℕ → α) : Option (State ι α) :=
  if capacity = 0 then none
  else if capacity &&& (capacity - 1) ≠ 0 then none
  else some
    { bottom := 1, capacity, buffer, top := 1, owner := .idle, thief := fun _ => .idle
      pushes := [], pops := [], steals := [] }

def State.slot (s : State ι α) (p : ℕ) : ℕ :=
  p &&& (s.capacity - 1)

def ownerStep (s : State ι α) : State ι α :=
  match s.owner with
  | .idle => s
  | .pushTop x b =>
    if b ≥ s.top + s.capacity then { s with owner := .idle }
    else { s with owner := .pushWrite x b }
  | .pushWrite x b =>
    { s with buffer := update s.buffer (s.slot b) x, owner := .pushStore x b }
  | .pushStore x b =>
    { s with bottom := b + 1, owner := .idle, pushes := s.pushes ++ [(b, x)] }
  | .popTop b =>
    if s.top ≥ b then { s with owner := .idle } else { s with owner := .popDec b }
  | .popDec b => { s with bottom := b - 1, owner := .popReload b }
  | .popReload b =>
    if s.top > b - 1 then { s with owner := .popRestore b none }
    else { s with owner := .popRead b s.top }
  | .popRead b t =>
    let val := s.buffer (s.slot (b - 1))
    if t ≠ b - 1 then { s with owner := .idle, pops := s.pops ++ [val] }
    else { s with owner := .popCas b t val }
  | .popCas b t val =>
    if s.top = t then
      { s with top := t + 1, owner := .popRestore b (some val), pops := s.pops ++ [val] }
    else { s with owner := .popRestore b none }
  | .popRestore b _ => { s with bottom := b, owner := .idle }

/-- The next access of thief `i`. A failed CAS reloads `t` and goes round the loop. -/
def thiefStep (s : State ι α) (i : ι) : State ι α :=
  match s.thief i with
  | .idle => s
  | .loadBottom t =>
    { s with thief := update s.thief i (if t ≥ s.bottom then .idle else .recheck t) }
  | .recheck t =>
    { s with thief := update s.thief i (if t ≥ s.bottom then .idle else .read t) }
  | .read t =>
    { s with thief := update s.thief i (.cas t (s.buffer (s.slot t))) }
  | .cas t val =>
    if s.top = t then
      { s with
        top := t + 1, thief := update s.thief i .idle, steals := s.steals ++ [val] }
    else { s with thief := update s.thief i (.recheck s.top) }

/-- One label of a run: a call begins with its first load, the others go on. -/
inductive Act (ι α : Type*) where
  | push (x : α)
  | pop
  | owner
  | steal (i : ι)
  | thief (i : ι)

def Owner.isIdle : Owner α → Bool
  | .idle => true
  | _ => false

def Thief.isIdle : Thief α → Bool
  | .idle => true
  | _ => false

def step (s : State ι α) : Act ι α → State ι α
  | .push x => if s.owner.isIdle then { s with owner := .pushTop x s.bottom } else s
  | .pop => if s.owner.isIdle then { s with owner := .popTop s.bottom } else s
  | .owner => ownerStep s
  | .steal i =>
    if (s.thief i).isIdle then
      { s with thief := update s.thief i (.loadBottom s.top) }
    else s
  | .thief i => thiefStep s i

/-! ## The ledger -/

/-- Item `n` is the `n`-th accepted push; `v` is its value. -/
def IsValue (pushes : List (ℕ × α)) (n : ℕ) (v : α) : Prop :=
  ∃ p, pushes[n]? = some (p, v)

/-- An account of the pushed items: every item is in exactly one of the three lists,
the values returned are those of the popped and of the stolen ones, and steals
come in push order, before everything that is still live. -/
structure Ledger (pushes : List (ℕ × α)) (pops steals : List α) (live popped stolen : List ℕ) :
    Prop where
  perm : (popped ++ stolen ++ live).Perm (List.range pushes.length)
  pops : List.Forall₂ (IsValue pushes) popped pops
  steals : List.Forall₂ (IsValue pushes) stolen steals
  sorted : (stolen ++ live).Pairwise (· < ·)

theorem IsValue.snoc {pushes : List (ℕ × α)} {n : ℕ} {v : α} (h : IsValue pushes n v)
    (e : ℕ × α) : IsValue (pushes ++ [e]) n v := by
  obtain ⟨p, hp⟩ := h
  have hn : n < pushes.length := (List.getElem?_eq_some_iff.1 hp).1
  exact ⟨p, by rw [getElem?_append_left hn, hp]⟩

namespace Ledger

variable {pushes : List (ℕ × α)} {pops steals : List α} {live popped stolen : List ℕ}
  {n : ℕ} {v : α}

theorem empty : Ledger ([] : List (ℕ × α)) [] [] [] [] [] where
  perm := by simp
  pops := .nil
  steals := .nil
  sorted := by simp

theorem lt_length (h : Ledger pushes pops steals live popped stolen)
    (hn : n ∈ popped ++ stolen ++ live) : n < pushes.length :=
  mem_range.1 (h.perm.mem_iff.1 hn)

theorem push (h : Ledger pushes pops steals live popped stolen) (e : ℕ × α) :
    Ledger (pushes ++ [e]) pops steals (live ++ [pushes.length]) popped stolen where
  perm := by
    rw [length_append, length_singleton, range_succ, ← append_assoc]
    exact h.perm.append_right _
  pops := h.pops.imp fun _ _ hv => hv.snoc e
  steals := h.steals.imp fun _ _ hv => hv.snoc e
  sorted := by
    rw [← append_assoc, pairwise_append]
    refine ⟨h.sorted, by simp, ?_⟩
    intro a ha b hb
    rw [mem_singleton] at hb
    subst hb
    apply h.lt_length
    simp only [mem_append] at ha ⊢
    tauto

theorem pop (h : Ledger pushes pops steals (live ++ [n]) popped stolen) (hv : IsValue pushes n v) :
    Ledger pushes (pops ++ [v]) steals live (popped ++ [n]) stolen where
  perm := by
    refine List.Perm.trans ?_ h.perm
    simp only [append_assoc]
    refine List.Perm.append_left popped ?_
    rw [← append_assoc stolen]
    exact perm_append_comm
  pops := rel_append h.pops (.cons hv .nil)
  steals := h.steals
  sorted := by
    have hs := h.sorted
    rw [← append_assoc] at hs
    exact (pairwise_append.1 hs).1

theorem steal (h : Ledger pushes pops steals (n :: live) popped stolen) (hv : IsValue pushes n v) :
    Ledger pushes pops (steals ++ [v]) live popped (stolen ++ [n]) where
  perm := by simpa using h.perm
  pops := h.pops
  steals := rel_append h.steals (.cons hv .nil)
  sorted := by simpa using h.sorted

theorem nodup (h : Ledger pushes pops steals live popped stolen) : (popped ++ stolen).Nodup := by
  have hnd : (popped ++ stolen ++ live).Nodup := h.perm.nodup_iff.2 nodup_range
  exact (nodup_append.1 hnd).1

theorem live_of_not_returned (h : Ledger pushes pops steals live popped stolen)
    (hn : n < pushes.length) (hr : n ∉ popped ++ stolen) : n ∈ live := by
  have hmem := h.perm.mem_iff.2 (mem_range.2 hn)
  exact (mem_append.1 hmem).resolve_left hr

end Ledger

/-! ## The invariant -/

/-- `pop` has lowered `_bottom` and not yet decided. -/
def Owner.lowered : Owner α → Bool
  | .popReload _ | .popRead _ _ | .popCas _ _ _ | .popRestore _ _ => true
  | _ => false

/-- Where the live items end: the position that a lowered `_bottom` hides still counts. -/
def State.end (s : State ι α) : ℕ :=
  if s.owner.lowered then s.bottom + 1 else s.bottom

/-- A thief has seen `_bottom` beyond its `t` and may go on to the CAS. -/
def Thief.Passed (t : ℕ) : Thief α → Prop
  | .read t' | .cas t' _ => t' = t
  | _ => False

def State.cell (s : State ι α) (p : ℕ) : α :=
  s.buffer (s.slot p)

/-- The live items lie in the slots from `_top` on. -/
structure Stored (s : State ι α) (live : List ℕ) : Prop where
  length : s.top + live.length = s.end
  room : live.length ≤ s.capacity
  cells : ∀ k n, live[k]? = some n → s.pushes[n]? = some (s.top + k, s.cell (s.top + k))

/-- What the owner's loaded values are still good for. In `popRead` with `t` below the
last position no thief can reach that position any more. -/
def OwnerOk (s : State ι α) : Prop :=
  match s.owner with
  | .idle => True
  | .pushTop _ b => b = s.bottom
  | .pushWrite _ b => b = s.bottom ∧ b < s.top + s.capacity
  | .pushStore x b => b = s.bottom ∧ b < s.top + s.capacity ∧ s.cell b = x
  | .popTop b => b = s.bottom
  | .popDec b => b = s.bottom ∧ 0 < b
  | .popReload b => b = s.bottom + 1
  | .popRead b t => b = s.bottom + 1 ∧ t ≤ s.top ∧
      (t ≠ s.bottom → s.top ≤ s.bottom ∧ ∀ i t', (s.thief i).Passed t' → t' < s.bottom)
  | .popCas b t val => b = s.bottom + 1 ∧ t = s.bottom ∧ t ≤ s.top ∧
      (s.top = t → val = s.cell t)
  | .popRestore b _ => b = s.bottom + 1 ∧ s.top = b

/-- What a thief's loaded values are still good for: they matter only while `_top` has
not moved. -/
def ThiefOk (top fin : ℕ) (cell : ℕ → α) : Thief α → Prop
  | .idle => True
  | .loadBottom t | .recheck t => t ≤ top
  | .read t => t ≤ top ∧ (t = top → top < fin)
  | .cas t val => t ≤ top ∧ (t = top → top < fin ∧ val = cell t)

structure InvWith (s : State ι α) (live popped stolen : List ℕ) : Prop where
  power : ∃ k, s.capacity = 2 ^ k
  ledger : Ledger s.pushes s.pops s.steals live popped stolen
  stored : Stored s live
  owner : OwnerOk s
  thief : ∀ i, ThiefOk s.top s.end s.cell (s.thief i)

def Inv (s : State ι α) : Prop :=
  ∃ live popped stolen, InvWith s live popped stolen

open Owner

omit [DecidableEq ι] in
theorem init_inv {capacity : ℕ} {buffer : ℕ → α} {s : State ι α}
    (h : init ι capacity buffer = some s) : Inv s := by
  unfold init at h
  split at h
  · cases h
  next hne =>
    split at h
    · cases h
    next hmask =>
      cases h
      refine ⟨[], [], [], ?_, .empty, ?_, trivial, fun _ => trivial⟩
      · exact (Nat.and_sub_one_eq_zero_iff_isPowerOfTwo hne).1 (not_not.1 hmask)
      · exact ⟨rfl, Nat.zero_le _, by simp⟩

section Steps

variable {s : State ι α} {live popped stolen : List ℕ} {b t : ℕ} {val x : α}

section

variable (h : InvWith s live popped stolen)
include h

section

omit [DecidableEq ι]

theorem InvWith.slot_eq (p : ℕ) : s.slot p = p % s.capacity :=
  land_mask h.power p

/-- A position behind the live ones, still within the capacity, has a slot of its own. -/
theorem InvWith.slot_ne {p : ℕ} (hp : p < s.end)
    (htop : s.top ≤ p) (hroom : s.end < s.top + s.capacity) : s.slot p ≠ s.slot s.end := by
  rw [h.slot_eq, h.slot_eq]
  intro heq
  have h1 : s.top + (p - s.top) = p := by lia
  have h2 : s.top + (s.end - s.top) = s.end := by lia
  have := @ring_index_inj s.capacity s.top (p - s.top) (s.end - s.top) (by lia) (by lia)
    (by rw [h1, h2, heq])
  lia

/-- Steps that only move the owner within its function. `_bottom` may be lowered or
restored with it as long as the live items end where they did. -/
theorem InvWith.moveOwner {o : Owner α}
    (hend : ({ s with bottom := b, owner := o } : State ι α).end = s.end)
    (ho : OwnerOk { s with bottom := b, owner := o }) :
    InvWith { s with bottom := b, owner := o } live popped stolen :=
  ⟨h.power, h.ledger, ⟨hend ▸ h.stored.length, h.stored.room, h.stored.cells⟩, ho,
    fun i => hend ▸ h.thief i⟩

end

theorem InvWith.moveThief (i : ι) {t : Thief α}
    (ht : ThiefOk s.top s.end s.cell t)
    (hp : ∀ t', t.Passed t' → t' < s.bottom ∨ (s.thief i).Passed t') :
    InvWith { s with thief := update s.thief i t } live popped stolen := by
  refine ⟨h.power, h.ledger, ⟨h.stored.length, h.stored.room, h.stored.cells⟩, ?_, ?_⟩
  · have ho := h.owner
    unfold OwnerOk at ho ⊢
    dsimp only
    split at ho
    case h_8 =>
      refine ⟨ho.1, ho.2.1, fun hne => ⟨(ho.2.2 hne).1, ?_⟩⟩
      intro j t' hj
      obtain rfl | hji := eq_or_ne j i
      · rw [update_self] at hj
        exact (hp t' hj).elim id fun hj' => (ho.2.2 hne).2 j t' hj'
      · rw [update_of_ne hji] at hj
        exact (ho.2.2 hne).2 j t' hj
    all_goals exact ho
  · exact (forall_update_iff s.thief fun _ t => ThiefOk s.top s.end s.cell t).2
      ⟨ht, fun j _ => h.thief j⟩

omit [DecidableEq ι] in
theorem InvWith.write
    (ho : s.owner = .pushWrite x b) :
    InvWith { s with buffer := update s.buffer (s.slot b) x, owner := .pushStore x b }
      live popped stolen := by
  have hok := h.owner
  simp only [OwnerOk, ho] at hok
  obtain ⟨rfl, hroom⟩ := hok
  have hend : s.end = s.bottom := by simp [State.end, ho, lowered]
  have hcell : ∀ p, s.top ≤ p → p < s.end →
      update s.buffer (s.slot s.bottom) x (s.slot p) = s.cell p := by
    intro p htop hp
    have hne := h.slot_ne hp htop (hend ▸ hroom)
    exact update_of_ne (hend ▸ hne) _ _
  refine ⟨h.power, h.ledger, ⟨?_, h.stored.room, ?_⟩, ⟨rfl, hroom, update_self ..⟩, ?_⟩
  · rw [h.stored.length, hend]
    rfl
  · intro k n hk
    have hlt : k < live.length := (List.getElem?_eq_some_iff.1 hk).1
    have hlen := h.stored.length
    rw [h.stored.cells k n hk, ← hcell (s.top + k) (by lia) (by lia)]
    rfl
  · intro i
    have hi := h.thief i
    rw [hend] at hi hcell
    generalize s.thief i = t at hi
    cases t with
    | cas t val =>
      refine ⟨hi.1, fun heq => ⟨(hi.2 heq).1, ?_⟩⟩
      subst heq
      rw [(hi.2 rfl).2, ← hcell s.top le_rfl (hi.2 rfl).1]
      rfl
    | _ => exact hi

omit [DecidableEq ι] in
theorem InvWith.publish
    (ho : s.owner = .pushStore x b) :
    InvWith { s with bottom := b + 1, owner := .idle, pushes := s.pushes ++ [(b, x)] }
      (live ++ [s.pushes.length]) popped stolen := by
  have hok := h.owner
  simp only [OwnerOk, ho] at hok
  obtain ⟨rfl, hroom, hx⟩ := hok
  have hend : s.end = s.bottom := by simp [State.end, ho, lowered]
  have hlen := h.stored.length
  refine ⟨h.power, h.ledger.push _, ⟨?_, ?_, ?_⟩, trivial, ?_⟩
  · rw [List.length_append, List.length_singleton, ← add_assoc, hlen, hend]
    rfl
  · rw [List.length_append, List.length_singleton]
    change live.length + 1 ≤ s.capacity
    lia
  · intro k n hk
    rw [List.getElem?_append] at hk
    split at hk
    · have hn := h.stored.cells k n hk
      have hlt : n < s.pushes.length := (List.getElem?_eq_some_iff.1 hn).1
      exact (List.getElem?_append_left hlt).trans hn
    next hge =>
      obtain ⟨hk0, rfl⟩ := List.getElem?_eq_some_iff.1 hk
      have hk' : s.top + k = s.bottom := by simp at hk0; lia
      simp only [List.getElem_singleton, hk']
      rw [List.getElem?_append_right le_rfl, Nat.sub_self]
      change some (s.bottom, x) = some (s.bottom, s.cell s.bottom)
      rw [hx]
  · intro i
    have hi := h.thief i
    rw [hend] at hi
    generalize s.thief i = t at hi
    cases t with
    | read t => exact ⟨hi.1, fun heq => Nat.lt_succ_of_lt (hi.2 heq)⟩
    | cas t val =>
      exact ⟨hi.1, fun heq => ⟨Nat.lt_succ_of_lt (hi.2 heq).1, (hi.2 heq).2⟩⟩
    | _ => exact hi

end

/-- Once `_top` has moved on, a thief's values are no longer good for anything. -/
theorem ThiefOk.advance {top fin fin' : ℕ} {cell : ℕ → α} {t : Thief α}
    (h : ThiefOk top fin cell t) : ThiefOk (top + 1) fin' cell t := by
  cases t with
  | idle => trivial
  | loadBottom t => exact Nat.le_succ_of_le h
  | recheck t => exact Nat.le_succ_of_le h
  | read t =>
    have hle := h.1
    exact ⟨Nat.le_succ_of_le hle, fun heq => by lia⟩
  | cas t val =>
    have hle := h.1
    exact ⟨Nat.le_succ_of_le hle, fun heq => by lia⟩

omit [DecidableEq ι] in
/-- `pop` takes the last position without a CAS: no thief can be at it. -/
theorem InvWith.popLast (h : InvWith s live popped stolen)
    (ho : s.owner = .popRead b t) (hne : t ≠ b - 1) :
    ∃ l n, InvWith { s with owner := .idle, pops := s.pops ++ [s.cell (b - 1)] }
      l (popped ++ [n]) stolen := by
  have hok := h.owner
  simp only [OwnerOk, ho] at hok
  obtain ⟨rfl, -, hlast⟩ := hok
  rw [Nat.add_sub_cancel] at hne ⊢
  obtain ⟨htop, hpassed⟩ := hlast hne
  have hend : s.end = s.bottom + 1 := by simp [State.end, ho, lowered]
  have hlen := h.stored.length
  obtain rfl | ⟨l, n, rfl⟩ := eq_nil_or_concat' live
  · rw [hend, length_nil] at hlen
    lia
  · rw [length_append, length_singleton, hend] at hlen
    have hroom := h.stored.room
    rw [length_append, length_singleton] at hroom
    have hcell := h.stored.cells l.length n (by simp)
    rw [show s.top + l.length = s.bottom by lia] at hcell
    refine ⟨l, n, h.power, h.ledger.pop ⟨_, hcell⟩, ⟨?_, ?_, ?_⟩, trivial, ?_⟩
    · change s.top + l.length = s.bottom
      lia
    · change l.length ≤ s.capacity
      lia
    · intro k m hk
      have hlt : k < l.length := (List.getElem?_eq_some_iff.1 hk).1
      exact h.stored.cells k m ((getElem?_append_left hlt).trans hk)
    · intro i
      have hi := h.thief i
      have hp := hpassed i
      generalize s.thief i = t at hi hp
      cases t with
      | read t => exact ⟨hi.1, fun heq => heq ▸ hp t rfl⟩
      | cas t val => exact ⟨hi.1, fun heq => ⟨heq ▸ hp t rfl, (hi.2 heq).2⟩⟩
      | _ => exact hi

omit [DecidableEq ι] in
theorem InvWith.popWin (h : InvWith s live popped stolen)
    (ho : s.owner = .popCas b t val) (htop : s.top = t) :
    ∃ n, InvWith { s with top := t + 1, owner := .popRestore b (some val), pops := s.pops ++ [val] }
      [] (popped ++ [n]) stolen := by
  have hok := h.owner
  simp only [OwnerOk, ho] at hok
  obtain ⟨rfl, rfl, -, hval⟩ := hok
  have hend : s.end = s.bottom + 1 := by simp [State.end, ho, lowered]
  have hlen := h.stored.length
  rw [hend, htop] at hlen
  obtain ⟨n, rfl⟩ := length_eq_one_iff.1 (show live.length = 1 by lia)
  have hcell := h.stored.cells 0 n rfl
  rw [add_zero, htop, ← hval htop] at hcell
  have hledger : Ledger s.pushes s.pops s.steals ([] ++ [n]) popped stolen := h.ledger
  refine ⟨n, h.power, hledger.pop ⟨_, hcell⟩, ⟨?_, Nat.zero_le _, by simp⟩, ⟨rfl, rfl⟩, ?_⟩
  · rfl
  · intro i
    have hi := h.thief i
    rw [htop] at hi
    exact hi.advance

theorem InvWith.stealWin (h : InvWith s live popped stolen) {i : ι}
    (ht : s.thief i = .cas t val) (htop : s.top = t) :
    ∃ l n, InvWith
      { s with
        top := t + 1, thief := update s.thief i .idle, steals := s.steals ++ [val] }
      l popped (stolen ++ [n]) := by
  have hi := h.thief i
  rw [ht] at hi
  subst htop
  obtain ⟨hlt, rfl⟩ := hi.2 rfl
  have hlen := h.stored.length
  cases live with
  | nil =>
    rw [length_nil] at hlen
    lia
  | cons n l =>
    have hcell := h.stored.cells 0 n rfl
    rw [add_zero] at hcell
    have hroom := h.stored.room
    rw [length_cons] at hlen hroom
    refine ⟨l, n, h.power, h.ledger.steal ⟨_, hcell⟩, ⟨?_, ?_, ?_⟩, ?_, ?_⟩
    · change s.top + 1 + l.length = s.end
      lia
    · change l.length ≤ s.capacity
      lia
    · intro k m hk
      have := h.stored.cells (k + 1) m hk
      rw [show s.top + (k + 1) = s.top + 1 + k by lia] at this
      exact this
    · have ho := h.owner
      unfold OwnerOk at ho ⊢
      dsimp only
      unfold State.end at hlt
      split at ho
      case h_3 => exact ⟨ho.1, by lia⟩
      case h_4 => exact ⟨ho.1, by lia, ho.2.2⟩
      case h_8 _ b t0 ho' =>
        refine ⟨ho.1, by lia, fun hne => ?_⟩
        obtain ⟨-, hpassed⟩ := ho.2.2 hne
        have hmine := hpassed i s.top (by rw [ht]; rfl)
        refine ⟨hmine, ?_⟩
        intro j t' hj
        obtain rfl | hji := eq_or_ne j i
        · rw [update_self] at hj
          exact hj.elim
        · rw [update_of_ne hji] at hj
          exact hpassed j t' hj
      case h_9 => exact ⟨ho.1, ho.2.1, by lia, fun heq => by lia⟩
      case h_10 _ b r ho' =>
        rw [ho'] at hlt
        simp only [lowered, if_true] at hlt
        lia
      all_goals exact ho
    · exact (forall_update_iff s.thief fun _ t => ThiefOk (s.top + 1) s.end s.cell t).2
          ⟨trivial, fun j _ => (h.thief j).advance⟩

end Steps

/-! ## Every step keeps the invariant -/

omit [DecidableEq ι] in
theorem end_of_isIdle {s : State ι α} (hi : s.owner.isIdle = true) {o : Owner α}
    (ho : o.lowered = false) : ({ s with owner := o } : State ι α).end = s.end := by
  cases hs : s.owner with
  | idle =>
    have hs' : s.owner.lowered = false := by rw [hs]; rfl
    simp [State.end, ho, hs']
  | _ => simp [hs, isIdle] at hi

omit [DecidableEq ι] in
theorem ownerStep_inv {s : State ι α} (h : Inv s) : Inv (ownerStep s) := by
  obtain ⟨live, popped, stolen, h⟩ := h
  have hok := h.owner
  have hlen := h.stored.length
  cases ho : s.owner <;> simp only [OwnerOk, ho] at hok <;> simp only [ownerStep, ho]
  case idle => exact ⟨_, _, _, h⟩
  case pushTop x b =>
    split
    · exact ⟨_, _, _, h.moveOwner (by simp [State.end, ho, lowered]) trivial⟩
    next hlt =>
      exact ⟨_, _, _, h.moveOwner (by simp [State.end, ho, lowered])
        ⟨hok, Nat.lt_of_not_le hlt⟩⟩
  case pushWrite => exact ⟨_, _, _, h.write ho⟩
  case pushStore => exact ⟨_, _, _, h.publish ho⟩
  case popTop b =>
    split
    · exact ⟨_, _, _, h.moveOwner (by simp [State.end, ho, lowered]) trivial⟩
    · exact ⟨_, _, _, h.moveOwner (by simp [State.end, ho, lowered]) ⟨hok, by lia⟩⟩
  case popDec b =>
    refine ⟨_, _, _, h.moveOwner ?_ ?_⟩
    · simp only [State.end, ho, lowered, if_true, hok.1]
      simp
      lia
    · change b = b - 1 + 1
      lia
  case popReload b =>
    have hend : s.end = s.bottom + 1 := by simp [State.end, ho, lowered]
    subst hok
    rw [Nat.add_sub_cancel]
    split
    · refine ⟨_, _, _, h.moveOwner (by simp [State.end, ho, lowered]) ⟨rfl, ?_⟩⟩
      change s.top = s.bottom + 1
      lia
    next hle =>
      refine ⟨_, _, _, h.moveOwner (by simp [State.end, ho, lowered]) ⟨rfl, le_rfl, ?_⟩⟩
      intro hne
      change s.top ≠ s.bottom at hne
      refine ⟨Nat.le_of_not_lt hle, ?_⟩
      intro i t' hi
      -- a thief that passed its check holds a `t'` that `_top` has had
      have hti := h.thief i
      change t' < s.bottom
      generalize s.thief i = t at hi hti
      cases t with
      | read t =>
        have := hti.1
        cases hi
        lia
      | cas t val =>
        have := hti.1
        cases hi
        lia
      | _ => exact hi.elim
  case popRead b t =>
    split
    next hne =>
      obtain ⟨l, n, hinv⟩ := h.popLast ho hne
      exact ⟨_, _, _, hinv⟩
    next heq =>
      obtain ⟨rfl, hle, -⟩ := hok
      rw [Nat.add_sub_cancel, not_not] at heq
      refine ⟨_, _, _, h.moveOwner (by simp [State.end, ho, lowered]) ⟨rfl, heq, hle, ?_⟩⟩
      intro _
      rw [heq, Nat.add_sub_cancel]
      rfl
  case popCas b t val =>
    split
    next htop =>
      obtain ⟨n, hinv⟩ := h.popWin ho htop
      exact ⟨_, _, _, hinv⟩
    · have hend : s.end = s.bottom + 1 := by simp [State.end, ho, lowered]
      obtain ⟨rfl, rfl, hle, -⟩ := hok
      refine ⟨_, _, _, h.moveOwner (by simp [State.end, ho, lowered]) ⟨rfl, ?_⟩⟩
      change s.top = s.bottom + 1
      lia
  case popRestore b r =>
    refine ⟨_, _, _, h.moveOwner ?_ trivial⟩
    simp [State.end, ho, lowered, hok.1]

theorem thiefStep_inv {s : State ι α} (h : Inv s) (i : ι) : Inv (thiefStep s i) := by
  obtain ⟨live, popped, stolen, h⟩ := h
  have hi := h.thief i
  have hend : s.bottom ≤ s.end := by unfold State.end; split <;> lia
  unfold thiefStep
  split
  · exact ⟨_, _, _, h⟩
  next t ht =>
    rw [ht] at hi
    refine ⟨_, _, _, h.moveThief i ?_ ?_⟩
    · split
      · trivial
      · exact hi
    · intro t' hp
      split at hp <;> exact hp.elim
  next t ht =>
    rw [ht] at hi
    split
    · exact ⟨_, _, _, h.moveThief i trivial fun t' hp => hp.elim⟩
    · refine ⟨_, _, _, h.moveThief i ⟨hi, fun heq => by lia⟩ fun t' hp => ?_⟩
      cases hp
      left
      lia
  next t ht =>
    rw [ht] at hi
    refine ⟨_, _, _, h.moveThief i ⟨hi.1, fun heq => ⟨hi.2 heq, rfl⟩⟩ fun t' hp => ?_⟩
    right
    rw [ht]
    exact hp
  next t val ht =>
    split
    next htop =>
      obtain ⟨l, n, hinv⟩ := h.stealWin ht htop
      exact ⟨_, _, _, hinv⟩
    · exact ⟨_, _, _, h.moveThief i le_rfl fun t' hp => hp.elim⟩

theorem step_inv : Keeps (@step ι α _) Inv := by
  intro s a h
  cases a with
  | push x =>
    obtain ⟨live, popped, stolen, h⟩ := h
    simp only [step]
    split
    next ho =>
      exact ⟨_, _, _, h.moveOwner (end_of_isIdle ho rfl) rfl⟩
    · exact ⟨_, _, _, h⟩
  | pop =>
    obtain ⟨live, popped, stolen, h⟩ := h
    simp only [step]
    split
    next ho =>
      exact ⟨_, _, _, h.moveOwner (end_of_isIdle ho rfl) rfl⟩
    · exact ⟨_, _, _, h⟩
  | owner => exact ownerStep_inv h
  | steal i =>
    obtain ⟨live, popped, stolen, h⟩ := h
    simp only [step]
    split
    · exact ⟨_, _, _, h.moveThief i (t := .loadBottom s.top) le_rfl fun t' hp => hp.elim⟩
    · exact ⟨_, _, _, h⟩
  | thief i => exact thiefStep_inv h i

/-! ## Exactly once -/

/-- `volatile_size`. -/
def State.volatileSize (s : State ι α) : ℕ :=
  if s.bottom ≤ s.top then 0 else s.bottom - s.top

/-- The queue neither loses nor duplicates. `popped` and `stolen` number the items that
the successful calls have returned: no number occurs twice, the values are those
that were pushed, and steals follow the push order. An item not returned yet lies in
the slot of its position, which it shares with no other such item; when as many
items as slots are unreturned, a push gives up. Once the owner is between two calls
and sees an empty queue, everything pushed has been returned. -/
structure ExactlyOnce (s : State ι α) (popped stolen : List ℕ) : Prop where
  once : (popped ++ stolen).Nodup
  pops : List.Forall₂ (IsValue s.pushes) popped s.pops
  steals : List.Forall₂ (IsValue s.pushes) stolen s.steals
  order : stolen.Pairwise (· < ·)
  stored : ∀ n p x, s.pushes[n]? = some (p, x) → n ∉ popped ++ stolen → s.buffer (s.slot p) = x
  apart : ∀ n m p q x y, s.pushes[n]? = some (p, x) → s.pushes[m]? = some (q, y) →
    n ∉ popped ++ stolen → m ∉ popped ++ stolen → n ≠ m → s.slot p ≠ s.slot q
  full : s.pushes.length = (popped ++ stolen).length + s.capacity →
    ∀ x b, s.owner = .pushTop x b → ownerStep s = { s with owner := .idle }
  all : s.owner = .idle → s.volatileSize = 0 →
    ∀ n, n < s.pushes.length → n ∈ popped ++ stolen

omit [DecidableEq ι] in
theorem InvWith.position {s : State ι α} {live popped stolen : List ℕ}
    (h : InvWith s live popped stolen) {n p : ℕ} {x : α} (hn : s.pushes[n]? = some (p, x))
    (hr : n ∉ popped ++ stolen) :
    ∃ k, live[k]? = some n ∧ k < s.capacity ∧ p = s.top + k ∧ s.buffer (s.slot p) = x := by
  have hlt : n < s.pushes.length := (List.getElem?_eq_some_iff.1 hn).1
  obtain ⟨k, hk⟩ := mem_iff_getElem?.mp (h.ledger.live_of_not_returned hlt hr)
  have hk' : k < live.length := (List.getElem?_eq_some_iff.1 hk).1
  have hcell := h.stored.cells k n hk
  rw [hn, Option.some.injEq, Prod.mk.injEq] at hcell
  obtain ⟨rfl, rfl⟩ := hcell
  exact ⟨k, hk, lt_of_lt_of_le hk' h.stored.room, rfl, rfl⟩

omit [DecidableEq ι] in
theorem InvWith.exactlyOnce {s : State ι α} {live popped stolen : List ℕ}
    (h : InvWith s live popped stolen) : ExactlyOnce s popped stolen where
  once := h.ledger.nodup
  pops := h.ledger.pops
  steals := h.ledger.steals
  order := (pairwise_append.mp h.ledger.sorted).1
  stored := by
    intro n p x hn hr
    obtain ⟨k, -, -, -, hx⟩ := h.position hn hr
    exact hx
  apart := by
    intro n m p q x y hn hm hrn hrm hne heq
    obtain ⟨k, hk, hkc, rfl, -⟩ := h.position hn hrn
    obtain ⟨j, hj, hjc, rfl, -⟩ := h.position hm hrm
    rw [h.slot_eq, h.slot_eq] at heq
    obtain rfl := ring_index_inj hkc hjc heq
    exact hne (Option.some.inj (hk.symm.trans hj))
  full := by
    intro hfull x b ho
    have hlen := h.ledger.perm.length_eq
    rw [length_append, length_range, hfull] at hlen
    have hok := h.owner
    have hend := h.stored.length
    simp only [OwnerOk, ho] at hok
    simp only [State.end, ho, lowered, Bool.false_eq_true, if_false] at hend
    simp only [ownerStep, ho]
    rw [if_pos (by lia)]
  all := by
    intro ho hsize n hn
    have hend := h.stored.length
    simp only [State.end, ho, lowered, Bool.false_eq_true, if_false] at hend
    have hle : s.bottom ≤ s.top := by
      unfold State.volatileSize at hsize
      split at hsize <;> lia
    obtain rfl : live = [] := eq_nil_of_length_eq_zero (by lia)
    by_contra hr
    have := h.ledger.live_of_not_returned hn hr
    simp at this

/-- **Exactly once.** After any interleaving of the owner and the thieves there is an
account of what was returned under which no item is lost or duplicated. -/
theorem run_exactlyOnce {capacity : ℕ} {buffer : ℕ → α} {s₀ : State ι α}
    (hinit : init ι capacity buffer = some s₀) (acts : List (Act ι α)) :
    ∃ popped stolen, ExactlyOnce (runFrom step s₀ acts) popped stolen := by
  obtain ⟨live, popped, stolen, h⟩ := step_inv.run (init_inv hinit) acts
  exact ⟨popped, stolen, h.exactlyOnce⟩

local instance neZero1 : NeZero 1 := ⟨by decide⟩

/-- The last item raced for: the thief has read the slot when the owner lowers
`_bottom`, and the owner loses the CAS. -/
def raceActs : List (Act (Fin 1) ℕ) :=
  [.push 7, .owner, .owner, .owner, .steal 0, .thief 0, .thief 0, .thief 0,
    .pop, .owner, .owner, .owner, .owner, .thief 0, .owner, .owner]

theorem run_exactlyOnce_race :
    ∃ s₀, init (Fin 1) 2 (fun _ => 0) = some s₀ ∧ (runFrom step s₀ raceActs).steals = [7] ∧
      (runFrom step s₀ raceActs).pops = [] ∧
      ∃ popped stolen, ExactlyOnce (runFrom step s₀ raceActs) popped stolen :=
  ⟨_, rfl, by decide, by decide,
    run_exactlyOnce (show init (Fin 1) 2 (fun _ => 0) = some _ from rfl) raceActs⟩

end Eabase.Fiber.WorkStealingQueue
