import Mathlib.Algebra.Order.Group.Nat
import Mathlib.Data.List.Perm.Basic
import Mathlib.Data.List.Nodup
import Mathlib.Data.List.Range
import Eabase.Lib.Machine

/-!
# Thread keys

A key is an id, which is used again, and a sequence number, which is odd while
the key is alive and grows with `thread_key_create` and `thread_key_delete`.
Each thread has a vector of slots, one for each id it has used, with the
sequence number of the key that a value was set through.

`thread_getspecific` compares the sequence numbers. The handler that runs when
a thread exits, `DestroyTlsData`, does not: it calls the destructor of every key
that is alive, if its id has a slot, with whatever is in the slot.

What the keys are for is said by the ledger: the keys that were created and
not deleted, and the values that each thread has set through them.
-/

namespace Eabase.Utility.ThreadKeys

open Lib Function List

variable {ι κ α δ : Type*}

/-- Values of a `size_t` are below. -/
def two64 : ℕ := 2 ^ 64

def InvalidID : ℕ := two64 - 1

def EINVAL : ℕ := 22

def ENOMEM : ℕ := 12

def EAGAIN : ℕ := 11

/-- `KEY_UNUSED`. -/
def keyUnused (p : ℕ) : Bool := p % 2 == 0

/-- `KEY_USABLE`. -/
def keyUsable (p : ℕ) : Bool := p < (p + 2) % two64

/-- A `std::vector`; one that is `NULL` is empty. -/
structure Vec (β : Type*) where
  size : ℕ
  get : ℕ → β

namespace Vec

variable {β : Type*}

/-- `resize`, which constructs what is new. -/
def resize (v : Vec β) (n : ℕ) (new : β) : Vec β :=
  ⟨n, fun j => if j < v.size then v.get j else new⟩

def set (v : Vec β) (i : ℕ) (x : β) : Vec β :=
  { v with get := update v.get i x }

end Vec

/-- `ThreadKeyInfo`. -/
structure ThreadKeyInfo (δ : Type*) where
  seq : ℕ
  dtor : Option δ

/-- `ThreadKeyTLS`. -/
structure ThreadKeyTLS (α : Type*) where
  seq : ℕ
  data : Option α

/-- `ThreadKey`. -/
structure ThreadKey where
  id : ℕ
  seq : ℕ

/-- `Reset`. -/
def ThreadKey.reset : ThreadKey := ⟨InvalidID, 0⟩

/-- `Valid`. -/
def ThreadKey.valid (key : ThreadKey) : Bool :=
  key.id != InvalidID && !keyUnused key.seq

/-- The global variables, the `ThreadKey` objects and the vector of each thread. The free ids are in
the order in which they are used again. -/
structure State (ι κ α δ : Type*) where
  gId : ℕ
  freeIds : List ℕ
  threadKeys : Vec (ThreadKeyInfo δ)
  keys : κ → ThreadKey
  tls : ι → Vec (ThreadKeyTLS α)

def start : State ι κ α δ where
  gId := 0
  freeIds := []
  threadKeys := ⟨0, fun _ => ⟨0, none⟩⟩
  keys _ := .reset
  tls _ := ⟨0, fun _ => ⟨0, none⟩⟩

variable [DecidableEq ι] [DecidableEq κ]

namespace State

variable (s : State ι κ α δ)

/-- The end of `thread_key_create`. -/
def give (k : κ) (id : ℕ) (dtor : Option δ) : State ι κ α δ :=
  let seq := ((s.threadKeys.get id).seq + 1) % two64
  { s with threadKeys := s.threadKeys.set id ⟨seq, dtor⟩, keys := update s.keys k ⟨id, seq⟩ }

/-- `thread_key_create`; `mem` is whether there is memory for `g_thread_keys`. -/
def create (k : κ) (dtor : Option δ) (mem : Bool) : State ι κ α δ × ℕ :=
  match s.freeIds with
  | id :: free => ({ s with freeIds := free }.give k id dtor, 0)
  | [] =>
    if s.gId ≥ InvalidID then (s, EAGAIN)
    else if s.threadKeys.size = 0 ∧ mem = false then ({ s with gId := s.gId + 1 }, ENOMEM)
    else
      ({ s with gId := s.gId + 1, threadKeys := s.threadKeys.resize (s.gId + 1) ⟨0, none⟩ }.give k
        s.gId dtor, 0)

/-- `thread_key_delete`. -/
def delete (k : κ) : State ι κ α δ × ℕ :=
  let key := s.keys k
  if key.valid = false then (s, EINVAL)
  else
    let info := s.threadKeys.get key.id
    if key.id ≥ s.threadKeys.size ∨ key.seq ≠ info.seq ∨ keyUnused info.seq = true then
      ({ s with keys := update s.keys k .reset }, EINVAL)
    else
      let seq := (info.seq + 1) % two64
      ({ s with
          threadKeys := s.threadKeys.set key.id ⟨seq, info.dtor⟩
          freeIds := if keyUsable seq then key.id :: s.freeIds else s.freeIds
          keys := update s.keys k .reset }, 0)

/-- `thread_setspecific` in thread `i`; `mem` is whether there is memory for its vector. -/
def setspecific (i : ι) (k : κ) (data : Option α) (mem : Bool) : State ι κ α δ × ℕ :=
  let key := s.keys k
  if key.valid = false then (s, EINVAL)
  else if (s.tls i).size = 0 ∧ mem = false then (s, ENOMEM)
  else
    let v := if key.id ≥ (s.tls i).size then (s.tls i).resize (key.id + 1) ⟨0, none⟩ else s.tls i
    ({ s with tls := update s.tls i (v.set key.id ⟨key.seq, data⟩) }, 0)

/-- `thread_getspecific` in thread `i`. -/
def getspecific (i : ι) (k : κ) : Option α :=
  let key := s.keys k
  if key.valid = false then none
  else if key.id ≥ (s.tls i).size ∨ ((s.tls i).get key.id).seq ≠ key.seq then none
  else ((s.tls i).get key.id).data

/-- The destructors that `DestroyTlsData` calls in thread `i`, and with what. -/
def destroyTlsData (i : ι) : List (δ × Option α) :=
  (List.range (s.tls i).size).filterMap fun j =>
    let info := s.threadKeys.get j
    if keyUnused info.seq then none else info.dtor.map fun d => (d, ((s.tls i).get j).data)

def exit (i : ι) : State ι κ α δ :=
  { s with tls := update s.tls i ⟨0, fun _ => ⟨0, none⟩⟩ }

/-- `keys k = std::move(keys k')`. -/
def move (k k' : κ) : State ι κ α δ :=
  if k = k' then s
  else { s with keys := update (update s.keys k (s.keys k')) k' .reset }

/-- `~ThreadKey`, and the object is constructed anew. -/
def drop (k : κ) : State ι κ α δ :=
  { s with keys := update s.keys k .reset }

end State

/-! ## The ledger -/

/-- The keys that are alive, with their destructors, and what each thread has set through a key. -/
structure Ledger (ι α δ : Type*) where
  live : List (ℕ × ℕ × Option δ)
  value : ι → ℕ → ℕ → Option α

namespace Ledger

variable (g : Ledger ι α δ)

def create (key : ThreadKey) (dtor : Option δ) : Ledger ι α δ :=
  { g with live := (key.id, key.seq, dtor) :: g.live }

def delete (key : ThreadKey) : Ledger ι α δ :=
  { g with live := g.live.filter fun e => e.1 ≠ key.id || e.2.1 ≠ key.seq }

def setspecific (i : ι) (key : ThreadKey) (data : Option α) : Ledger ι α δ :=
  { g with value := fun i' id seq => if i' = i ∧ id = key.id ∧
    seq = key.seq then data else g.value i' id seq }

def exit (i : ι) : Ledger ι α δ :=
  { g with value := fun i' => if i' = i then fun _ _ => none else g.value i' }

/-- The calls that are due when thread `i` exits: for each key that is alive and has a destructor
one with its value, if that is not `NULL`. -/
def due (i : ι) : List (δ × Option α) :=
  g.live.filterMap fun e => e.2.2.bind fun d => (g.value i e.1 e.2.1).map fun v => (d, some v)

end Ledger

/-! ## Runs -/

inductive Act (ι κ α δ : Type*) where
  | create (k : κ) (dtor : Option δ) (mem : Bool)
  | delete (k : κ)
  | setspecific (i : ι) (k : κ) (data : Option α) (mem : Bool)
  | exit (i : ι)
  | move (k k' : κ)
  | drop (k : κ)

/-- A call on the state, which the ledger takes down if it returns 0. -/
def step (w : State ι κ α δ × Ledger ι α δ) : Act ι κ α δ → State ι κ α δ × Ledger ι α δ
  | .create k dtor mem =>
    let r := w.1.create k dtor mem
    (r.1, if r.2 = 0 then w.2.create (r.1.keys k) dtor else w.2)
  | .delete k =>
    let r := w.1.delete k
    (r.1, if r.2 = 0 then w.2.delete (w.1.keys k) else w.2)
  | .setspecific i k data mem =>
    let r := w.1.setspecific i k data mem
    (r.1, if r.2 = 0 then w.2.setspecific i (w.1.keys k) data else w.2)
  | .exit i => (w.1.exit i, w.2.exit i)
  | .move k k' => (w.1.move k k', w.2)
  | .drop k => (w.1.drop k, w.2)

/-- The state and the ledger after some calls. -/
def run (as : List (Act ι κ α δ)) : State ι κ α δ × Ledger ι α δ :=
  runFrom step (start, ⟨[], fun _ _ _ => none⟩) as

/-! ## The invariant -/

variable {s : State ι κ α δ} {g : Ledger ι α δ} {i : ι} {k : κ} {id seq : ℕ} {dtor : Option δ}

/-- What is in the slot of an id, if it was set with that sequence number. -/
def lookup (v : Vec (ThreadKeyTLS α)) (id seq : ℕ) : Option α :=
  if id < v.size ∧ (v.get id).seq = seq then (v.get id).data else none

theorem lookup_eq_none {v : Vec (ThreadKeyTLS α)} (h : id < v.size → (v.get id).seq ≠ seq) :
    lookup v id seq = none :=
  if_neg fun hand => h hand.1 hand.2

theorem valid_reset : ThreadKey.reset.valid = false := by
  decide

theorem odd_of_used {p : ℕ} (h : keyUnused p = false) : p % 2 = 1 :=
  Nat.mod_two_ne_zero.1 (beq_eq_false_iff_ne.1 h)

/-- The ledger is right about the keys, and about what is found in the slots. -/
structure Inv (s : State ι κ α δ) (g : Ledger ι α δ) : Prop where
  size_le : s.threadKeys.size ≤ s.gId
  lt : ∀ id < s.threadKeys.size, (s.threadKeys.get id).seq + 1 < two64
  free : ∀ id ∈ s.freeIds, id < s.threadKeys.size ∧ keyUnused (s.threadKeys.get id).seq = true ∧
    (s.threadKeys.get id).seq + 2 < two64
  free_nodup : s.freeIds.Nodup
  handle : ∀ k, (s.keys k).valid = true → ∃ d, ((s.keys k).id, (s.keys k).seq, d) ∈ g.live
  handle_inj : ∀ k k', (s.keys k).valid = true → (s.keys k').valid = true →
    (s.keys k).id = (s.keys k').id → k = k'
  live_iff : ∀ id seq d, (id, seq, d) ∈ g.live ↔
    id < s.threadKeys.size ∧ keyUnused seq = false ∧ s.threadKeys.get id = ⟨seq, d⟩
  live_nodup : (g.live.map Prod.fst).Nodup
  slot : ∀ i, ∀ j < (s.tls i).size, j < s.threadKeys.size ∧ ((s.tls i).get j).seq
    ≤ (s.threadKeys.get j).seq
  value : ∀ i id seq d, (id, seq, d) ∈ g.live → g.value i id seq = lookup (s.tls i) id seq
  future : ∀ i id seq, g.value i id seq ≠ none → id < s.threadKeys.size ∧ seq ≤ (s.threadKeys.get id).seq

omit [DecidableEq ι] [DecidableEq κ] in
theorem inv_start : Inv (start : State ι κ α δ) ⟨[], fun _ _ _ => none⟩ where
  size_le := le_rfl
  lt _ h := absurd h (Nat.not_lt_zero _)
  free _ h := absurd h not_mem_nil
  free_nodup := nodup_nil
  handle _ h := absurd (valid_reset.symm.trans h) (by decide)
  handle_inj _ _ h := absurd (valid_reset.symm.trans h) (by decide)
  live_iff _ _ _ := iff_of_false not_mem_nil fun h => absurd h.1 (Nat.not_lt_zero _)
  live_nodup := nodup_nil
  slot _ _ h := absurd h (Nat.not_lt_zero _)
  value _ _ _ _ h := absurd h not_mem_nil
  future _ _ _ h := absurd rfl h

namespace Inv

section

omit [DecidableEq ι]

theorem give (I : Inv s g) (hid : id < s.threadKeys.size) (hfree : id ∉ s.freeIds)
    (hunused : keyUnused (s.threadKeys.get id).seq = true)
    (hroom : (s.threadKeys.get id).seq + 2 < two64) :
    Inv (s.give k id dtor) (g.create ((s.give k id dtor).keys k) dtor) := by
  obtain ⟨old, hold⟩ : ∃ old, (s.threadKeys.get id).seq = old := ⟨_, rfl⟩
  rw [hold] at hunused hroom
  have hkey : (s.give k id dtor).keys k = ⟨id, old + 1⟩ := by
    rw [State.give, hold, Nat.mod_eq_of_lt (by lia)]
    exact update_self _ _ _
  have hdead : ∀ seq d, (id, seq, d) ∉ g.live := by
    intro seq d hmem
    obtain ⟨-, hused, hget⟩ := (I.live_iff _ _ _).1 hmem
    have hseq : seq = old := by
      rw [← hold, hget]
    rw [hseq, hunused] at hused
    exact absurd hused (by decide)
  have hused : keyUnused (old + 1) = false := by
    rw [keyUnused, beq_iff_eq] at hunused
    rw [keyUnused, beq_eq_false_iff_ne]
    lia
  rw [hkey]
  have hs : s.give k id dtor = { s with
      threadKeys := s.threadKeys.set id ⟨old + 1, dtor⟩, keys := update s.keys k ⟨id, old + 1⟩ } := by
    rw [State.give, hold, Nat.mod_eq_of_lt (by lia)]
  rw [hs]
  have hget : ∀ j, j ≠ id → (s.threadKeys.set id ⟨old + 1, dtor⟩).get j
      = s.threadKeys.get j := fun j hj =>
    update_of_ne hj _ _
  have hself : (s.threadKeys.set id ⟨old + 1, dtor⟩).get id = ⟨old + 1, dtor⟩ := update_self _ _ _
  have hle : ∀ j, (s.threadKeys.get j).seq ≤ ((s.threadKeys.set id ⟨old + 1, dtor⟩).get j).seq := by
    intro j
    by_cases hj : j = id
    · rw [hj, hself, hold]
      exact Nat.le_succ old
    · rw [hget j hj]
  refine ⟨I.size_le, fun j hj => ?_, fun j hj => ?_, I.free_nodup, fun k' hk' => ?_,
    fun k1 k2 h1 h2 heq => ?_,
    fun j q d => ?_, ?_, fun i j hj => ?_, fun i j q d hmem => ?_, fun i j q hne => ?_⟩
  · by_cases hjid : j = id
    · rw [hjid, hself]
      exact hroom
    · rw [hget j hjid]
      exact I.lt j hj
  · rw [hget j fun heq => hfree (heq ▸ hj)]
    exact I.free j hj
  · show ∃ d, ((update s.keys k ⟨id, old + 1⟩ k').id, (update s.keys k ⟨id, old + 1⟩ k').seq, d) ∈
      (id, old + 1, dtor) :: g.live
    obtain rfl | hk := eq_or_ne k' k
    · rw [update_self]
      exact ⟨dtor, mem_cons_self⟩
    · simp only [update_of_ne hk] at hk' ⊢
      obtain ⟨d, hd⟩ := I.handle k' hk'
      exact ⟨d, mem_cons_of_mem _ hd⟩
  · have hother : ∀ k' ≠ k, (s.keys k').valid = true → (s.keys k').id ≠ id := by
      intro k' _ hv heq
      obtain ⟨d, hd⟩ := I.handle k' hv
      rw [heq] at hd
      exact hdead _ _ hd
    by_cases hk1 : k1 = k <;> by_cases hk2 : k2 = k
    · exact hk1.trans hk2.symm
    · subst hk1
      simp only [update_of_ne hk2, update_self] at h2 heq
      exact absurd heq.symm (hother k2 hk2 h2)
    · subst hk2
      simp only [update_of_ne hk1, update_self] at h1 heq
      exact absurd heq (hother k1 hk1 h1)
    · simp only [update_of_ne hk1, update_of_ne hk2] at h1 h2 heq
      exact I.handle_inj k1 k2 h1 h2 heq
  · show (j, q, d) ∈ (id, old + 1, dtor) :: g.live ↔ j < s.threadKeys.size ∧ keyUnused q = false ∧
      (s.threadKeys.set id ⟨old + 1, dtor⟩).get j = ⟨q, d⟩
    obtain rfl | hj := eq_or_ne j id
    · rw [hself, mem_cons, or_iff_left (hdead q d)]
      constructor
      · rintro ⟨⟩
        exact ⟨hid, hused, rfl⟩
      · rintro ⟨-, -, ⟨⟩⟩
        rfl
    · rw [hget j hj, mem_cons, or_iff_right fun heq => hj (congrArg Prod.fst heq)]
      exact I.live_iff j q d
  · refine nodup_cons.2 ⟨fun hmem => ?_, I.live_nodup⟩
    obtain ⟨⟨_, q, d⟩, he, rfl⟩ := mem_map.1 hmem
    exact hdead q d he
  · obtain ⟨hlt, hslot⟩ := I.slot i j hj
    exact ⟨hlt, hslot.trans (hle j)⟩
  · rcases mem_cons.1 hmem with heq | hmem
    · -- nothing was ever set with the new number
      obtain ⟨hj, hq, -⟩ : j = id ∧ q = old + 1 ∧ d = dtor := by simpa using heq
      show g.value i j q = lookup (s.tls i) j q
      have hnone : g.value i id (old + 1) = none := by
        by_contra hne
        have hle := (I.future i id (old + 1) hne).2
        lia
      rw [hj, hq, hnone, lookup_eq_none]
      intro hlt heq
      have hslot := (I.slot i id hlt).2
      lia
    · exact I.value i j q d hmem
  · obtain ⟨hlt, hq⟩ := I.future i j q hne
    exact ⟨hlt, hq.trans (hle j)⟩

theorem create (I : Inv s g) (k : κ) (dtor : Option δ) (mem : Bool) :
    Inv (s.create k dtor mem).1 (if (s.create k dtor mem).2
      = 0 then g.create ((s.create k dtor mem).1.keys k) dtor
      else g) := by
  rw [State.create]
  split
  next id free hfree =>
    rw [if_pos rfl]
    have hnodup := hfree ▸ I.free_nodup
    obtain ⟨hid, hunused, hroom⟩ := I.free id (hfree ▸ mem_cons_self)
    have I' : Inv { s with freeIds := free } g :=
      { I with
        free := fun j hj => I.free j (hfree ▸ mem_cons_of_mem id hj)
        free_nodup := (nodup_cons.1 hnodup).2 }
    exact I'.give hid (nodup_cons.1 hnodup).1 hunused hroom
  next hfree =>
    split
    · exact I
    next hgid =>
      split
      · exact { I with size_le := I.size_le.trans (Nat.le_succ _) }
      · rw [if_pos rfl]
        have hsize := I.size_le
        have hget : ∀ j < s.threadKeys.size, (s.threadKeys.resize (s.gId + 1) ⟨0, none⟩).get j
            = s.threadKeys.get j :=
          fun j hj => if_pos hj
        have hnew : (s.threadKeys.resize (s.gId + 1) ⟨0, none⟩).get s.gId = ⟨0, none⟩ :=
          if_neg (not_lt.2 hsize)
        have hzero : ∀ j, s.threadKeys.size ≤ j → (s.threadKeys.resize (s.gId + 1) ⟨0, none⟩).get j
            = ⟨0, none⟩ :=
          fun j hj => if_neg (not_lt.2 hj)
        have I' : Inv { s with gId := s.gId + 1, threadKeys :=
            s.threadKeys.resize (s.gId + 1) ⟨0, none⟩ } g := by
          refine ⟨le_rfl, fun j _ => ?_, fun j hj => ?_, I.free_nodup, I.handle, I.handle_inj,
            fun j q d => ?_,
            I.live_nodup, fun i j hj => ?_, I.value, fun i j q hne => ?_⟩
          · rcases lt_or_ge j s.threadKeys.size with hlt | hge
            · rw [hget j hlt]
              exact I.lt j hlt
            · rw [hzero j hge]
              exact Nat.one_lt_two_pow (by decide)
          · rw [hfree] at hj
            exact absurd hj not_mem_nil
          · show _ ↔ j < s.gId + 1 ∧ keyUnused q = false ∧
              (s.threadKeys.resize (s.gId + 1) ⟨0, none⟩).get j = ⟨q, d⟩
            rw [I.live_iff]
            rcases lt_or_ge j s.threadKeys.size with hlt | hge
            · rw [hget j hlt, and_iff_right hlt, and_iff_right (show j < s.gId + 1 by lia)]
            · rw [hzero j hge]
              apply iff_of_false fun h => absurd h.1 (not_lt.2 hge)
              rintro ⟨-, hused, heq⟩
              rw [← (ThreadKeyInfo.mk.inj heq).1] at hused
              exact absurd hused (by decide)
          · obtain ⟨hlt, hslot⟩ := I.slot i j hj
            exact ⟨Nat.lt_succ_of_lt (hlt.trans_le hsize), by rwa [hget j hlt]⟩
          · obtain ⟨hlt, hq⟩ := I.future i j q hne
            exact ⟨Nat.lt_succ_of_lt (hlt.trans_le hsize), by rwa [hget j hlt]⟩
        refine I'.give (Nat.lt_succ_self _) (by rw [hfree]; exact not_mem_nil) ?_ ?_
        · rw [hnew]
          rfl
        · rw [hnew]
          show 0 + 2 < two64
          decide

theorem delete (I : Inv s g) (k : κ) :
    Inv (s.delete k).1 (if (s.delete k).2 = 0 then g.delete (s.keys k) else g) := by
  rw [State.delete]
  split
  · exact I
  next hinvalid =>
    have hvalid : (s.keys k).valid = true := Bool.not_eq_false _ ▸ hinvalid
    obtain ⟨d, hd⟩ := I.handle k hvalid
    obtain ⟨hid, hused, hinfo⟩ := (I.live_iff _ _ _).1 hd
    obtain ⟨id, seq, hkey⟩ : ∃ id seq, s.keys k = ⟨id, seq⟩ := ⟨_, _, rfl⟩
    simp only [hkey] at hid hused hinfo hd ⊢
    have hlt := I.lt id hid
    have hodd := odd_of_used hused
    simp only [hinfo] at hlt ⊢
    have h64 : two64 = 2 ^ 64 := rfl
    have hwrap : (seq + 1) % two64 = seq + 1 := Nat.mod_eq_of_lt hlt
    have hroom : seq + 2 < two64 := by lia
    have heven : keyUnused (seq + 1) = true := by
      rw [keyUnused, beq_iff_eq]
      lia
    rw [if_neg (by rw [hused]; simp [hid]), if_pos rfl, hwrap]
    have hget : ∀ j, j ≠ id → (s.threadKeys.set id ⟨seq + 1, d⟩).get j = s.threadKeys.get j := fun j hj =>
      update_of_ne hj _ _
    have hself : (s.threadKeys.set id ⟨seq + 1, d⟩).get id = ⟨seq + 1, d⟩ := update_self _ _ _
    have hle : ∀ j, (s.threadKeys.get j).seq ≤ ((s.threadKeys.set id ⟨seq + 1, d⟩).get j).seq := by
      intro j
      by_cases hj : j = id
      · rw [hj, hself, hinfo]
        exact Nat.le_succ seq
      · rw [hget j hj]
    have hmem : ∀ {j q d'}, (j, q, d') ∈ (g.delete ⟨id, seq⟩).live ↔ (j, q, d') ∈ g.live ∧ j ≠ id := by
      intro j q d'
      rw [Ledger.delete, mem_filter, Bool.or_eq_true, decide_eq_true_iff, decide_eq_true_iff]
      refine and_congr_right fun hlive => ⟨fun hne hj => ?_, .inl⟩
      -- the key with this id has this number
      subst hj
      obtain ⟨-, -, hinfo'⟩ := (I.live_iff _ _ _).1 hlive
      rw [hinfo] at hinfo'
      exact hne.elim (fun h => h rfl) fun h => h (ThreadKeyInfo.mk.inj hinfo').1.symm
    have hother : ∀ k', (update s.keys k .reset k').valid = true →
        k' ≠ k ∧ update s.keys k .reset k' = s.keys k' := by
      intro k' hv
      obtain rfl | hk := eq_or_ne k' k
      · rw [update_self, valid_reset] at hv
        exact absurd hv (by decide)
      · exact ⟨hk, update_of_ne hk _ _⟩
    refine ⟨I.size_le, fun j hj => ?_, fun j hj => ?_, ?_, fun k' hk' => ?_, fun k1 k2 h1 h2 heq => ?_,
      fun j q d' => ?_, ?_, fun i j hj => ?_, fun i j q d' hlive => I.value i j q d' (hmem.1 hlive).1,
      fun i j q hne => ?_⟩
    · by_cases hjid : j = id
      · rw [hjid, hself]
        exact hroom
      · rw [hget j hjid]
        exact I.lt j hj
    · obtain rfl | hjid := eq_or_ne j id
      · rw [hself]
        refine ⟨hid, heven, ?_⟩
        show seq + 1 + 2 < two64
        by_contra hge
        have husable : keyUsable (seq + 1) = false := by
          rw [keyUsable, decide_eq_false_iff_not, show seq + 1 + 2 = two64 by lia, Nat.mod_self]
          exact Nat.not_lt_zero _
        rw [husable] at hj
        have hunused := (I.free j hj).2.1
        rw [hinfo, hused] at hunused
        exact absurd hunused (by decide)
      · rw [hget j hjid]
        apply I.free
        revert hj
        split
        · exact fun hj => (mem_cons.1 hj).resolve_left hjid
        · exact fun hj => hj
    · split
      · refine nodup_cons.2 ⟨fun hfree => ?_, I.free_nodup⟩
        have hunused := (I.free id hfree).2.1
        rw [hinfo, hused] at hunused
        exact absurd hunused (by decide)
      · exact I.free_nodup
    · obtain ⟨hne, heq⟩ := hother k' hk'
      show ∃ d', ((update s.keys k .reset k').id, (update s.keys k .reset k').seq, d') ∈
        (g.delete ⟨id, seq⟩).live
      change (update s.keys k .reset k').valid = true at hk'
      rw [heq] at hk' ⊢
      obtain ⟨d', hd'⟩ := I.handle k' hk'
      refine ⟨d', hmem.2 ⟨hd', fun hid' => hne ?_⟩⟩
      exact I.handle_inj k' k hk' hvalid (by rw [hid', hkey])
    · obtain ⟨-, heq1⟩ := hother k1 h1
      obtain ⟨-, heq2⟩ := hother k2 h2
      simp only [heq1, heq2] at h1 h2 heq
      exact I.handle_inj k1 k2 h1 h2 heq
    · rw [hmem]
      obtain rfl | hj := eq_or_ne j id
      · rw [hself]
        apply iff_of_false fun h => h.2 rfl
        rintro ⟨-, hq, heq⟩
        rw [← (ThreadKeyInfo.mk.inj heq).1, heven] at hq
        exact absurd hq (by decide)
      · rw [and_iff_left hj, hget j hj]
        exact I.live_iff j q d'
    · exact (List.Sublist.map Prod.fst filter_sublist).nodup I.live_nodup
    · obtain ⟨hlt', hslot⟩ := I.slot i j hj
      exact ⟨hlt', hslot.trans (hle j)⟩
    · obtain ⟨hlt', hq⟩ := I.future i j q hne
      exact ⟨hlt', hq.trans (hle j)⟩

end

section

omit [DecidableEq κ]

theorem setspecific (I : Inv s g) (i : ι) (k : κ) (data : Option α) (mem : Bool) :
    Inv (s.setspecific i k data mem).1
    (if (s.setspecific i k data mem).2 = 0 then g.setspecific i (s.keys k) data
      else g) := by
  rw [State.setspecific]
  split
  · exact I
  next hinvalid =>
    split
    · exact I
    · rw [if_pos rfl]
      obtain ⟨d, hd⟩ := I.handle k (Bool.not_eq_false _ ▸ hinvalid)
      obtain ⟨id, seq, hkey⟩ : ∃ id seq, s.keys k = ⟨id, seq⟩ := ⟨_, _, rfl⟩
      simp only [hkey] at hd ⊢
      obtain ⟨hid, hused, hinfo⟩ := (I.live_iff _ _ _).1 hd
      obtain ⟨v, hv⟩ : ∃ v,
          (if id ≥ (s.tls i).size then (s.tls i).resize (id + 1) ⟨0, none⟩ else s.tls i) = v :=
        ⟨_, rfl⟩
      -- the vector is long enough now, and the slots it had are as they were
      have hsize : id < v.size ∧ (∀ j < v.size, j < (s.tls i).size ∧ v.get j = (s.tls i).get j ∨
          (s.tls i).size ≤ j ∧ j ≤ id ∧ v.get j = ⟨0, none⟩) ∧ (s.tls i).size ≤ v.size := by
        rw [← hv]
        split
        next hge =>
          refine ⟨Nat.lt_succ_self id, fun j hj => ?_, hge.le.trans (Nat.le_succ id)⟩
          rcases lt_or_ge j (s.tls i).size with hlt | hge'
          · exact .inl ⟨hlt, if_pos hlt⟩
          · exact .inr ⟨hge', Nat.le_of_lt_succ hj, if_neg (not_lt.2 hge')⟩
        next hlt =>
          exact ⟨not_le.1 hlt, fun j hj => .inl ⟨hj, rfl⟩, le_rfl⟩
      obtain ⟨hidv, hslots, hgrow⟩ := hsize
      rw [hv]
      refine { I with slot := fun i' j hj => ?_, value := fun i' j q d' hlive => ?_, future := fun i' j q hne => ?_ }
      · obtain rfl | hi := eq_or_ne i' i
        · simp only [update_self] at hj ⊢
          obtain rfl | hjid := eq_or_ne j id
          · have hself : (v.set j ⟨seq, data⟩).get j = ⟨seq, data⟩ := update_self _ _ _
            rw [hinfo, hself]
            exact ⟨hid, le_rfl⟩
          · have hsame : (v.set id ⟨seq, data⟩).get j = v.get j := update_of_ne hjid _ _
            rw [hsame]
            rcases hslots j hj with ⟨hlt, heq⟩ | ⟨-, hle, heq⟩
            · rw [heq]
              exact I.slot i' j hlt
            · rw [heq]
              exact ⟨hle.trans_lt hid, Nat.zero_le _⟩
        · simp only [update_of_ne hi] at hj ⊢
          exact I.slot i' j hj
      · show (if i' = i ∧ j = id ∧ q = seq then data else g.value i' j q)
          = lookup (update s.tls i (v.set id ⟨seq, data⟩) i') j q
        obtain rfl | hi := eq_or_ne i' i
        · rw [update_self]
          obtain rfl | hjid := eq_or_ne j id
          · obtain ⟨-, -, hinfo'⟩ := (I.live_iff _ _ _).1 hlive
            obtain rfl : seq = q := (ThreadKeyInfo.mk.inj (hinfo.symm.trans hinfo')).1
            have hself : (v.set j ⟨seq, data⟩).get j = ⟨seq, data⟩ := update_self _ _ _
            rw [if_pos ⟨rfl, rfl, rfl⟩, lookup, if_pos ⟨hidv, congrArg ThreadKeyTLS.seq hself⟩, hself]
          · have hsame : (v.set id ⟨seq, data⟩).get j = v.get j := update_of_ne hjid _ _
            rw [if_neg fun h => hjid h.2.1, I.value i' j q d' hlive]
            obtain ⟨-, hq, -⟩ := (I.live_iff _ _ _).1 hlive
            by_cases hj : j < v.size
            · rcases hslots j hj with ⟨hlt, heq⟩ | ⟨hge, -, heq⟩
              · rw [lookup, lookup, hsame, heq]
                exact if_congr (and_congr_left fun _ => iff_of_true hlt hj) rfl rfl
              · rw [lookup_eq_none fun hlt => absurd hlt (not_lt.2 hge), lookup_eq_none]
                intro _ hzero
                rw [hsame, heq] at hzero
                obtain rfl : 0 = q := hzero
                exact absurd hq (by decide)
            · rw [lookup_eq_none fun hlt => absurd (hlt.trans_le hgrow) hj, lookup_eq_none]
              exact fun hlt => absurd hlt hj
        · rw [update_of_ne hi, if_neg fun h => hi h.1]
          exact I.value i' j q d' hlive
      · by_cases h : i' = i ∧ j = id ∧ q = seq
        · obtain ⟨-, rfl, rfl⟩ := h
          rw [hinfo]
          exact ⟨hid, le_rfl⟩
        · refine I.future i' j q fun hnone => hne ?_
          show (if i' = i ∧ j = id ∧ q = seq then data else g.value i' j q) = none
          rw [if_neg h, hnone]

theorem exit (I : Inv s g) (i : ι) : Inv (s.exit i) (g.exit i) := by
  refine { I with slot := fun i' j hj => ?_, value := fun i' j q d' hlive => ?_, future := fun i' j q hne => ?_ }
  · obtain rfl | hi := eq_or_ne i' i
    · simp only [State.exit, update_self] at hj
      exact absurd hj (Nat.not_lt_zero _)
    · simp only [State.exit, update_of_ne hi] at hj ⊢
      exact I.slot i' j hj
  · obtain rfl | hi := eq_or_ne i' i
    · simp [State.exit, Ledger.exit, lookup]
    · simp only [State.exit, Ledger.exit, update_of_ne hi, if_neg hi]
      exact I.value i' j q d' hlive
  · by_cases hi : i' = i
    · simp [Ledger.exit, hi] at hne
    · simp only [Ledger.exit, if_neg hi] at hne
      exact I.future i' j q hne

omit [DecidableEq ι] in
theorem rename {keys : κ → ThreadKey} (I : Inv s g) (f : κ → κ)
    (hf : ∀ k, (keys k).valid = true → keys k = s.keys (f k))
    (hinj : ∀ k k', (keys k).valid = true → (keys k').valid = true → f k = f k' → k = k') :
    Inv { s with keys } g := by
  refine { I with handle := fun k hk => ?_, handle_inj := fun k k' hk hk' heq => hinj k k' hk hk' ?_ }
  · simp only [hf k hk] at hk ⊢
    exact I.handle _ hk
  · have h := hf k hk
    have h' := hf k' hk'
    simp only [h, h'] at hk hk' heq
    exact I.handle_inj _ _ hk hk' heq

end

omit [DecidableEq ι] in
theorem drop (I : Inv s g) (k : κ) : Inv (s.drop k) g := by
  apply I.rename id
  · intro k' hv
    refine update_of_ne ?_ _ _
    rintro rfl
    rw [update_self, valid_reset] at hv
    exact absurd hv (by decide)
  · exact fun _ _ _ _ h => h

omit [DecidableEq ι] in
theorem move (I : Inv s g) (k k' : κ) : Inv (s.move k k') g := by
  rw [State.move]
  split
  · exact I
  next hne =>
    have hvalid : ∀ j, (update (update s.keys k (s.keys k')) k' .reset j).valid = true → j ≠ k' := by
      rintro j hv rfl
      rw [update_self, valid_reset] at hv
      exact absurd hv (by decide)
    apply I.rename fun j => if j = k then k' else j
    · intro j hv
      rw [update_of_ne (hvalid j hv)]
      by_cases hj : j = k
      · rw [hj, update_self, if_pos rfl]
      · rw [update_of_ne hj, if_neg hj]
    · intro j j' hv hv' heq
      have hj := hvalid j hv
      have hj' := hvalid j' hv'
      split at heq <;> split at heq <;> simp_all

end Inv

/-- **Every reachable state** agrees with its ledger. -/
theorem run_inv (as : List (Act ι κ α δ)) : Inv (run as).1 (run as).2 := by
  have hstep : Keeps step fun w : State ι κ α δ × Ledger ι α δ => Inv w.1 w.2 := by
    intro w a I
    cases a with
    | create k dtor mem => exact I.create k dtor mem
    | delete k => exact I.delete k
    | setspecific i k data mem => exact I.setspecific i k data mem
    | exit i => exact I.exit i
    | move k k' => exact I.move k k'
    | drop k => exact I.drop k
  exact hstep.run inv_start as

/-! ## What is read, and what is destroyed -/

section

omit [DecidableEq ι] [DecidableEq κ]

theorem Inv.getspecific (I : Inv s g) (i : ι) (k : κ) : s.getspecific i k
    = if (s.keys k).valid then g.value i (s.keys k).id (s.keys k).seq else none := by
  rw [State.getspecific]
  cases hvalid : (s.keys k).valid with
  | false => rfl
  | true =>
    obtain ⟨d, hd⟩ := I.handle k hvalid
    rw [if_neg (by decide), if_pos rfl, I.value i _ _ d hd, lookup]
    by_cases h : (s.keys k).id < (s.tls i).size ∧ ((s.tls i).get (s.keys k).id).seq = (s.keys k).seq
    · rw [if_pos h, if_neg fun hor => hor.elim (fun hge => absurd h.1 (not_lt.2 hge)) fun hne => hne h.2]
    · rw [if_neg h, if_pos]
      by_contra hor
      obtain ⟨hlt, heq⟩ := not_or.1 hor
      exact h ⟨not_le.1 hlt, not_not.1 heq⟩

/-- What is due for the id `j` when thread `i` exits. -/
def dueAt (s : State ι κ α δ) (g : Ledger ι α δ) (i : ι) (j : ℕ) : Option (δ × Option α) :=
  let info := s.threadKeys.get j
  if keyUnused info.seq then none else info.dtor.bind fun d => (g.value i j info.seq).map fun v =>
    (d, some v)

/-- The ids of the table in their order are the keys that are alive, in some order. -/
theorem Inv.due_perm (I : Inv s g) (i : ι) :
    (g.due i).Perm ((range s.threadKeys.size).filterMap (dueAt s g i)) := by
  have hlive : g.live.Perm ((range s.threadKeys.size).filterMap fun j =>
      if keyUnused (s.threadKeys.get j).seq then none
      else some (j, (s.threadKeys.get j).seq, (s.threadKeys.get j).dtor)) := by
    apply (perm_ext_iff_of_nodup I.live_nodup.of_map ?_).2
    · rintro ⟨j, q, d⟩
      rw [I.live_iff, mem_filterMap]
      constructor
      · rintro ⟨hlt, hused, hinfo⟩
        refine ⟨j, mem_range.2 hlt, ?_⟩
        simp [hinfo, hused]
      · rintro ⟨j', hj', h⟩
        split at h
        · exact absurd h nofun
        next hused =>
          obtain ⟨⟩ := Option.some.inj h
          exact ⟨mem_range.1 hj', Bool.not_eq_true _ ▸ hused, rfl⟩
    · apply List.Nodup.filterMap _ nodup_range
      intro j j' e h h'
      simp only [Option.mem_def, Option.ite_none_left_eq_some, Option.some.injEq] at h h'
      exact congrArg Prod.fst (h.2.trans h'.2.symm)
  refine (hlive.filterMap _).trans (List.Perm.of_eq ?_)
  rw [filterMap_filterMap]
  apply filterMap_congr
  intro j _
  rw [dueAt]
  cases keyUnused (s.threadKeys.get j).seq <;> rfl

/-- What `DestroyTlsData` does about the slot `j`. -/
def callAt (s : State ι κ α δ) (i : ι) (j : ℕ) : Option (δ × Option α) :=
  let info := s.threadKeys.get j
  if keyUnused info.seq then none else info.dtor.map fun d => (d, ((s.tls i).get j).data)

/-- Every slot of a key with a destructor holds something that was set through this key. -/
def Fresh (s : State ι κ α δ) (i : ι) : Prop :=
  ∀ j < (s.tls i).size, keyUnused (s.threadKeys.get j).seq = false → (s.threadKeys.get j).dtor.isSome →
    ((s.tls i).get j).seq = (s.threadKeys.get j).seq ∧ ((s.tls i).get j).data.isSome

variable {j : ℕ}

theorem Inv.dueAt_eq (I : Inv s g) (i : ι) (hj : j < s.threadKeys.size) : dueAt s g i j =
    if keyUnused (s.threadKeys.get j).seq then none
    else (s.threadKeys.get j).dtor.bind fun d =>
      (lookup (s.tls i) j (s.threadKeys.get j).seq).map fun v => (d, some v) := by
  rw [dueAt]
  cases hused : keyUnused (s.threadKeys.get j).seq with
  | true => rfl
  | false => rw [← I.value i j _ _ ((I.live_iff _ _ (s.threadKeys.get j).dtor).2 ⟨hj, hused, rfl⟩)]

theorem Inv.callAt_of_dueAt (I : Inv s g) {i : ι} (hj : j < s.threadKeys.size) {c : δ × Option α}
    (h : dueAt s g i j = some c) : j < (s.tls i).size ∧ callAt s i j = some c := by
  rw [I.dueAt_eq i hj] at h
  rw [callAt]
  split at h
  · exact absurd h nofun
  next hused =>
    rw [if_neg hused]
    obtain ⟨d, hd, h⟩ := Option.bind_eq_some_iff.1 h
    obtain ⟨v, hv, rfl⟩ := Option.map_eq_some_iff.1 h
    rw [lookup] at hv
    split at hv
    next hslot =>
      exact ⟨hslot.1, by rw [hd, hv]; rfl⟩
    · exact absurd hv nofun

theorem Inv.callAt_eq_iff (I : Inv s g) {i : ι} (hj : j < (s.tls i).size) :
    callAt s i j = dueAt s g i j ↔
    (keyUnused (s.threadKeys.get j).seq = false → (s.threadKeys.get j).dtor.isSome →
      ((s.tls i).get j).seq = (s.threadKeys.get j).seq ∧ ((s.tls i).get j).data.isSome) := by
  rw [I.dueAt_eq i (I.slot i j hj).1, callAt, lookup]
  cases keyUnused (s.threadKeys.get j).seq with
  | true => exact iff_of_true rfl fun h => absurd h (by decide)
  | false =>
    rw [if_neg Bool.false_ne_true, if_neg Bool.false_ne_true]
    cases (s.threadKeys.get j).dtor with
    | none => exact iff_of_true rfl fun _ h => absurd h Bool.false_ne_true
    | some d =>
      by_cases hseq : ((s.tls i).get j).seq = (s.threadKeys.get j).seq
      · rw [if_pos ⟨hj, hseq⟩]
        cases ((s.tls i).get j).data <;> simp [hseq]
      · rw [if_neg fun h => hseq h.2]
        simp [hseq]

theorem length_filterMap_le {β γ : Type*} {A B : β → Option γ} {l : List β}
    (h : ∀ x ∈ l, ∀ y, B x = some y → A x = some y) :
    (l.filterMap B).length ≤ (l.filterMap A).length ∧
      ((l.filterMap B).length = (l.filterMap A).length → ∀ x ∈ l, A x = B x) := by
  induction l with
  | nil => exact ⟨le_rfl, fun _ x hx => absurd hx not_mem_nil⟩
  | cons x l ih =>
    obtain ⟨hle, heq⟩ := ih fun y hy => h y (mem_cons_of_mem x hy)
    cases hB : B x with
    | some y =>
      have hA := h x mem_cons_self y hB
      rw [filterMap_cons_some hB, filterMap_cons_some hA, length_cons, length_cons]
      refine ⟨Nat.succ_le_succ hle, fun hlen => ?_⟩
      rintro x' (_ | ⟨_, hx'⟩)
      · rw [hA, hB]
      · exact heq (Nat.succ.inj hlen) x' hx'
    | none =>
      rw [filterMap_cons_none hB]
      cases hA : A x with
      | some y =>
        rw [filterMap_cons_some hA, length_cons]
        exact ⟨hle.trans (Nat.le_succ _), fun hlen => absurd hle (not_le.2 (by lia))⟩
      | none =>
        rw [filterMap_cons_none hA]
        refine ⟨hle, fun hlen => ?_⟩
        rintro x' (_ | ⟨_, hx'⟩)
        · rw [hA, hB]
        · exact heq hlen x' hx'

/-- **At the exit of a thread** the calls that are due are made and no others, iff its slots are
fresh. -/
theorem Inv.destroy_iff (I : Inv s g) (i : ι) : (s.destroyTlsData i).Perm (g.due i) ↔ Fresh s i := by
  have hle : (s.tls i).size ≤ s.threadKeys.size := by
    by_contra hlt
    exact absurd (I.slot i _ (not_le.1 hlt)).1 (lt_irrefl _)
  have hcut : (range s.threadKeys.size).filterMap (dueAt s g i)
      = (range (s.tls i).size).filterMap (dueAt s g i) := by
    obtain ⟨m, hm⟩ := Nat.exists_eq_add_of_le hle
    rw [hm, range_add, filterMap_append, filterMap_map]
    refine (congrArg _ (filterMap_eq_nil_iff.2 fun j hj => ?_)).trans (append_nil _)
    have hj' : (s.tls i).size + j < s.threadKeys.size := hm ▸ Nat.add_lt_add_left (mem_range.1 hj) _
    cases hdue : dueAt s g i ((s.tls i).size + j) with
    | none => exact hdue
    | some c => exact absurd (I.callAt_of_dueAt hj' hdue).1 (by lia)
  have hcalls : s.destroyTlsData i = (range (s.tls i).size).filterMap (callAt s i) := rfl
  have hdue := I.due_perm i
  rw [hcut] at hdue
  have hiff : Fresh s i ↔ ∀ j ∈ range (s.tls i).size, callAt s i j = dueAt s g i j :=
    forall_congr' fun j => ⟨fun h hj => (I.callAt_eq_iff (mem_range.1 hj)).2 (h (mem_range.1 hj)),
      fun h hj => (I.callAt_eq_iff hj).1 (h (mem_range.2 hj))⟩
  rw [hcalls, hiff]
  constructor
  · intro h
    apply (length_filterMap_le fun j hj c hc => ?_).2 (hdue.length_eq.symm.trans h.length_eq.symm)
    exact (I.callAt_of_dueAt ((mem_range.1 hj).trans_le hle) hc).2
  · intro h
    exact (List.Perm.of_eq (filterMap_congr h)).trans hdue.symm

end

/-- **Thread keys**, in every reachable state. The keys that are alive have different ids. A key
gives the value that this thread has set through it, and only a key that is alive gives one. At the
exit of a thread the right destructors are called iff its slots are fresh. -/
theorem run_destroys_iff (as : List (Act ι κ α δ)) :
    ((run as).2.live.map Prod.fst).Nodup ∧
      (∀ i k, (run as).1.getspecific i k = if ((run as).1.keys k).valid
        then (run as).2.value i ((run as).1.keys k).id ((run as).1.keys k).seq else none) ∧
      (∀ k, ((run as).1.keys k).valid = true →
        ∃ d, (((run as).1.keys k).id, ((run as).1.keys k).seq, d) ∈ (run as).2.live) ∧
      ∀ i, ((run as).1.destroyTlsData i).Perm ((run as).2.due i) ↔ Fresh (run as).1 i :=
  ⟨(run_inv as).live_nodup, (run_inv as).getspecific, (run_inv as).handle, (run_inv as).destroy_iff⟩

/-- A value that was set through a key that is deleted goes to the destructor of the next key with
this id. -/
theorem stale_value_destroyed :
    let w :=
  run (ι := Unit) (κ := Bool) [.create true (some "free") true, .setspecific () true (some 7) true,
      .delete true, .create false (some "close") true]
    w.1.destroyTlsData () = [("close", some 7)] ∧ w.2.due () = [] := by
  decide

end Eabase.Utility.ThreadKeys
