import Eabase.Lib.Ring

/-!
# BoundedQueue

A queue in an array of `cap` cells that is used as a ring: `count` items from
`start` on. An address is the index of a cell, and `none` is `NULL`.

`elim_push` into a full queue takes the place of the topmost item; the list of
the items is a list of which only the last `cap` ones are kept.
-/

namespace Eabase.Utility

open Lib

variable {α : Type*}

/-- `BoundedQueue`; what is in cells that are not used does not matter. -/
structure BoundedQueue (α : Type*) where
  count : ℕ
  cap : ℕ
  start : ℕ
  items : ℕ → α

namespace BoundedQueue

/-- The queue in memory for `cap` items. -/
def ofMemory (items : ℕ → α) (cap : ℕ) : BoundedQueue α := ⟨0, cap, 0, items⟩

section

variable (q : BoundedQueue α)

/-- `push`; a full queue stays as it is. -/
def push (item : α) : BoundedQueue α :=
  if q.count < q.cap then
    { q with items := Function.update q.items ((q.start + q.count) % q.cap) item, count := q.count + 1 }
  else q

/-- `elim_push`: into a full queue, in the place of the topmost item. -/
def elimPush (item : α) : BoundedQueue α :=
  if q.count < q.cap then
    { q with items := Function.update q.items ((q.start + q.count) % q.cap) item, count := q.count + 1 }
  else { q with items := Function.update q.items q.start item, start := (q.start + 1) % q.cap }

/-- `pop` of the topmost item. -/
def pop : Option (α × BoundedQueue α) :=
  if q.count ≠ 0 then some (q.items q.start,
    { q with count := q.count - 1, start := (q.start + 1) % q.cap })
  else none

/-- `top`, the address of the topmost item. -/
def top : Option ℕ :=
  if q.count ≠ 0 then some q.start else none

/-- `bottom`, the address of an item counted from the bottom. -/
def bottom (index : ℕ) : Option ℕ :=
  if index < q.count then some ((q.start + q.count - index - 1) % q.cap) else none

end

/-- While there is an item it is popped from `q` and pushed into `q'`. -/
def moveAll : ℕ → BoundedQueue α → BoundedQueue α → BoundedQueue α
  | 0, _, q' => q'
  | n + 1, q, q' =>
    match q.pop with
    | some (item, q) => moveAll n q (q'.push item)
    | none => q'

def toList (q : BoundedQueue α) : List α :=
  ringList q.items q.cap q.start q.count

structure Wf (q : BoundedQueue α) : Prop where
  count_le : q.count ≤ q.cap
  start_lt : 0 < q.cap → q.start < q.cap

variable {q q' : BoundedQueue α} {item : α}

theorem wf_ofMemory (items : ℕ → α) (cap : ℕ) : (ofMemory items cap).Wf where
  count_le := Nat.zero_le cap
  start_lt := id

@[simp] theorem toList_ofMemory (items : ℕ → α) (cap : ℕ) : (ofMemory items cap).toList = [] := rfl

@[simp] theorem length_toList (q : BoundedQueue α) : q.toList.length = q.count := ringList_length

theorem Wf.push (h : q.Wf) (item : α) (hroom : q.count < q.cap) :
    (q.push item).Wf ∧ (q.push item).cap = q.cap ∧ (q.push item).toList = q.toList ++ [item] := by
  rw [BoundedQueue.push, if_pos hroom]
  exact ⟨⟨hroom, h.start_lt⟩, rfl, ringList_push hroom⟩

theorem Wf.elimPush (h : q.Wf) (item : α) (hcap : 0 < q.cap) :
    (q.elimPush item).Wf ∧ (q.elimPush item).cap = q.cap ∧
      (q.elimPush item).toList = if q.count < q.cap then q.toList ++ [item] else q.toList.tail ++
      [item] := by
  rw [BoundedQueue.elimPush]
  split
  next hroom =>
    exact ⟨⟨hroom, h.start_lt⟩, rfl, ringList_push hroom⟩
  next hfull =>
    have hcount : q.count = q.cap := le_antisymm h.count_le (not_lt.1 hfull)
    refine ⟨⟨h.count_le, fun _ => Nat.mod_lt _ hcap⟩, rfl, ?_⟩
    obtain ⟨n, hn⟩ := Nat.exists_eq_succ_of_ne_zero hcap.ne'
    have hcell : (q.start + 1 + n) % q.cap = q.start := by
      rw [add_assoc, add_comm 1 n, ← Nat.succ_eq_add_one, ← hn, Nat.add_mod_right,
        Nat.mod_eq_of_lt (h.start_lt hcap)]
    have hlt : n < q.cap := (Nat.lt_succ_self n).trans_eq hn.symm
    have hpush : ringList (Function.update q.items ((q.start + 1 + n) % q.cap) item) q.cap
        (q.start + 1) (n + 1)
        = ringList q.items q.cap (q.start + 1) n ++ [item] := ringList_push hlt
    rw [hcell] at hpush
    have htail : q.toList.tail = ringList q.items q.cap (q.start + 1) n := by
      rw [toList, hcount, hn, ← Nat.succ_eq_add_one]
      exact congrArg List.tail ringList_cons
    rw [htail, ← hpush]
    show ringList _ q.cap ((q.start + 1) % q.cap) q.count = _
    rw [ringList_mod, hcount, hn]

theorem Wf.pop (h : q.Wf) (hpos : q.count ≠ 0) :
    ∃ item q', q.pop = some (item, q') ∧ q'.Wf ∧ q'.count + 1 = q.count ∧
    q.toList = item :: q'.toList := by
  refine ⟨q.items q.start, { q with count := q.count - 1, start := (q.start + 1) % q.cap }, ?_, ?_,
    ?_, ?_⟩
  · rw [BoundedQueue.pop, if_pos hpos]
  · exact ⟨(Nat.sub_le _ _).trans h.count_le, fun hcap => Nat.mod_lt _ hcap⟩
  · exact Nat.sub_add_cancel (Nat.one_le_iff_ne_zero.2 hpos)
  · have hcap : 0 < q.cap := (Nat.pos_of_ne_zero hpos).trans_le h.count_le
    have hcons : q.toList = q.items q.start :: ringList q.items q.cap (q.start + 1) (q.count - 1) := by
      obtain ⟨n, hn⟩ := Nat.exists_eq_succ_of_ne_zero hpos
      rw [toList, hn, ringList_cons, Nat.mod_eq_of_lt (h.start_lt hcap)]
      rfl
    rw [hcons, ← ringList_mod]
    rfl

theorem moveAll_spec {n : ℕ} (q q' : BoundedQueue α) (hn : n = q.count) (h : q.Wf) (h' : q'.Wf)
    (hroom : q'.count + q.count ≤ q'.cap) :
    (moveAll n q q').Wf ∧ (moveAll n q q').cap = q'.cap ∧ (moveAll n q q').toList = q'.toList ++
    q.toList := by
  induction n generalizing q q' with
  | zero =>
    have hnil : q.toList = [] := List.length_eq_zero_iff.1 (q.length_toList.trans hn.symm)
    rw [hnil, List.append_nil]
    exact ⟨h', rfl, rfl⟩
  | succ n ih =>
    obtain ⟨item, q1, hpop, h1, hcount, hlist⟩ := h.pop (by lia)
    obtain ⟨hpush, hcap, hpushed⟩ := h'.push item (by lia)
    have hlen : (q'.push item).count = q'.count + 1 := by
      rw [← length_toList, hpushed, List.length_append, length_toList]
      rfl
    obtain ⟨hwf, hcap', hmoved⟩ := ih q1 (q'.push item) (by lia) h1 hpush (by lia)
    simp only [moveAll, hpop]
    refine ⟨hwf, hcap'.trans hcap, ?_⟩
    rw [hmoved, hpushed, hlist, List.append_assoc]
    rfl

theorem bottom_eq {index : ℕ} (hindex : index < q.count) :
    ∃ e, q.bottom index = some e ∧ q.toList[q.count - 1 - index]? = some (q.items e) := by
  refine ⟨(q.start + q.count - index - 1) % q.cap, if_pos hindex, ?_⟩
  rw [toList, ringList_getElem? (by lia)]
  congr 3
  lia

theorem top_eq_bottom (h : q.Wf) (hpos : q.count ≠ 0) : q.top = q.bottom (q.count - 1) := by
  have hcap : 0 < q.cap := (Nat.pos_of_ne_zero hpos).trans_le h.count_le
  rw [top, bottom, if_pos hpos, if_pos (by lia)]
  congr 1
  rw [show q.start + q.count - (q.count - 1) - 1 = q.start by lia, Nat.mod_eq_of_lt (h.start_lt hcap)]

theorem Wf.bottom_inj (h : q.Wf) {i j : ℕ} (hi : i < q.count) (hj : j < q.count)
    (heq : q.bottom i = q.bottom j) : i = j := by
  rw [BoundedQueue.bottom, BoundedQueue.bottom, if_pos hi, if_pos hj] at heq
  have hcell : (q.start + (q.count - i - 1)) % q.cap = (q.start + (q.count - j - 1)) % q.cap := by
    have heq' := Option.some.inj heq
    rwa [show q.start + q.count - i - 1 = q.start + (q.count - i - 1) by lia,
      show q.start + q.count - j - 1 = q.start + (q.count - j - 1) by lia] at heq'
  have hle := h.count_le
  have hsame := ring_index_inj (by lia) (by lia) hcell
  lia

end BoundedQueue

end Eabase.Utility
