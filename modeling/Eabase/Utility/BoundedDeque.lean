import Eabase.Utility.BoundedQueue

/-!
# BoundedQueue as a deque, with its 32-bit sums

`BoundedQueue` can be pushed and popped at both ends. All its positions are
sums of 32-bit numbers, and `_mod` brings them back into the array by
subtracting. A cell of the array holds an object or it does not: `push`
constructs one, `pop` destroys one.

For what it is for there is the deque, a list of at most `cap` items. The queue
is the deque as long as no sum of positions wraps at `2 ^ 32`, and with a
capacity of up to `2 ^ 31` none does; the sums of `BoundedQueue.lean`, which
have no bound, are the same then (`index_eq`).
-/

namespace Eabase.Utility.BoundedDeque

open Lib Function List

variable {ι α : Type*}

/-- Values of a `uint32_t` are below. -/
def two32 : ℕ := 2 ^ 32

/-- Values of a `size_t` are below. -/
def two64 : ℕ := 2 ^ 64

/-- `max_capacity`. -/
def maxCapacity : ℕ := two32 - 1

/-- `BoundedQueue`; a cell without an object holds `none`. -/
structure Queue (α : Type*) where
  count : ℕ
  cap : ℕ
  start : ℕ
  items : ℕ → Option α

/-- The constructor with a capacity, when `malloc` succeeds. -/
def Queue.new (capacity : ℕ) : Queue α :=
  ⟨0, capacity % two32, 0, fun _ => none⟩

/-- The loop of `_mod`. -/
def modLoop (cap : ℕ) : ℕ → ℕ → ℕ
  | 0, off => off
  | fuel + 1, off => if off ≥ cap then modLoop cap fuel (off - cap) else off

namespace Queue

variable (q : Queue α) (item : α)

/-- `_mod(off, _cap)`, where `off` becomes a `uint32_t`. -/
def index (off : ℕ) : ℕ :=
  modLoop q.cap (off % two32) (off % two32)

/-- The items with a cell where an object is constructed, assigned or destroyed. -/
def put (i : ℕ) (o : Option α) : ℕ → Option α :=
  update q.items i o

/-- `push(item)`; `push()` is `push(T())`. -/
def push : Queue α × Bool :=
  if q.count < q.cap then (⟨q.count + 1, q.cap, q.start, q.put (q.index (q.start + q.count)) item⟩, true)
  else (q, false)

/-- `elim_push`. -/
def elimPush : Queue α :=
  if q.count < q.cap then ⟨q.count + 1, q.cap, q.start, q.put (q.index (q.start + q.count)) item⟩
  else ⟨q.count, q.cap, q.index (q.start + 1), q.put q.start item⟩

def above : ℕ :=
  if q.start ≠ 0 then q.start - 1 else q.cap - 1

/-- `push_top(item)`; `push_top()` is `push_top(T())`. -/
def pushTop : Queue α × Bool :=
  if q.count < q.cap then (⟨q.count + 1, q.cap, q.above, q.put q.above item⟩, true) else (q, false)

/-- `pop`, and what it copies into `*item`. -/
def pop : Queue α × Option (Option α) :=
  if q.count ≠ 0 then (⟨q.count - 1, q.cap, q.index (q.start + 1), q.put q.start none⟩,
    some (q.items q.start))
  else (q, none)

/-- `pop_bottom`, and what it copies into `*item`. -/
def popBottom : Queue α × Option (Option α) :=
  if q.count ≠ 0 then
    (⟨q.count - 1, q.cap, q.start, q.put (q.index (q.start + (q.count - 1))) none⟩,
      some (q.items (q.index (q.start + (q.count - 1)))))
  else (q, none)

/-- `clear`. -/
def clear : Queue α :=
  ⟨0, q.cap, 0,
    (List.range q.count).foldl (fun items i => update items (q.index (q.start + i)) none) q.items⟩

/-- `*top(index)`, if it is not `NULL`; `top()` is `top(0)`. -/
def top (i : ℕ) : Option (Option α) :=
  if i < q.count then some (q.items (q.index ((q.start + i) % two64))) else none

/-- `*bottom(index)`, if it is not `NULL`; `bottom()` is `bottom(0)`. The sum of the two members is
a `uint32_t`, the index a `size_t`. -/
def bottom (i : ℕ) : Option (Option α) :=
  if i < q.count then
    some (q.items (q.index (((q.start + q.count) % two32 + (two64 - i) + (two64 - 1)) % two64)))
  else none

end Queue

/-! ## Runs -/

inductive Act (ι α : Type*) where
  | push (i : ι) (item : α)
  | pushTop (i : ι) (item : α)
  | elimPush (i : ι) (item : α)
  | pop (i : ι)
  | popBottom (i : ι)
  | clear (i : ι)
  | swap (i j : ι)
  | top (i : ι) (index : ℕ)
  | bottom (i : ι) (index : ℕ)
  | size (i : ι)

/-- What a call returns; an address is given by what is there. -/
inductive Out (α : Type*) where
  | none
  | ok (b : Bool)
  | item (o : Option (Option α))
  | size (n : ℕ)
  deriving DecidableEq

variable [DecidableEq ι]

def step (s : ι → Queue α) : Act ι α → (ι → Queue α) × Out α
  | .push i item => (update s i ((s i).push item).1, .ok ((s i).push item).2)
  | .pushTop i item => (update s i ((s i).pushTop item).1, .ok ((s i).pushTop item).2)
  | .elimPush i item => (update s i ((s i).elimPush item), .none)
  | .pop i => (update s i (s i).pop.1, .item (s i).pop.2)
  | .popBottom i => (update s i (s i).popBottom.1, .item (s i).popBottom.2)
  | .clear i => (update s i (s i).clear, .none)
  | .swap i j => (update (update s i (s j)) j (s i), .none)
  | .top i index => (s, .item ((s i).top index))
  | .bottom i index => (s, .item ((s i).bottom index))
  | .size i => (s, .size (s i).count)

def outs {σ κ ω : Type*} (step : σ → κ → σ × ω) : σ → List κ → List ω
  | _, [] => []
  | s, a :: as => (step s a).2 :: outs step (step s a).1 as

/-- The last position that a call computes, before it is cut to 32 bits. -/
def last (s : ι → Queue α) : Act ι α → ℕ
  | .push i _ | .elimPush i _ => if (s i).count < (s i).cap then (s i).start + (s i).count
      else (s i).start
  | .popBottom i | .clear i => (s i).start + ((s i).count - 1)
  | .top i index => if index < (s i).count then (s i).start + index else 0
  | .bottom i index => if index < (s i).count then (s i).start + ((s i).count - 1 - index) else 0
  | .pushTop _ _ | .pop _ | .swap _ _ | .size _ => 0

/-- No call of the run computes a position that wraps. -/
def Fitting : (ι → Queue α) → List (Act ι α) → Prop
  | _, [] => True
  | s, a :: as => last s a < two32 ∧ Fitting (step s a).1 as

/-! ## The deque -/

/-- A list of at most `cap` items, the topmost one first. -/
structure Deque (α : Type*) where
  cap : ℕ
  items : List α
  length_le : items.length ≤ cap

namespace Deque

variable (d : Deque α) (item : α)

def push : Deque α × Bool :=
  if h : d.items.length < d.cap then (⟨d.cap, d.items ++ [item], by rwa [List.length_append]⟩, true)
    else (d, false)

def pushTop : Deque α × Bool :=
  if h : d.items.length < d.cap then (⟨d.cap, item :: d.items, h⟩, true) else (d, false)

def pop : Deque α × Option α :=
  (⟨d.cap, d.items.tail, (List.length_tail ▸ Nat.sub_le _ _ : _).trans d.length_le⟩, d.items.head?)

def popBottom : Deque α × Option α :=
  (⟨d.cap, d.items.dropLast, (List.length_dropLast ▸ Nat.sub_le _ _ : _).trans d.length_le⟩,
    d.items.getLast?)

/-- The topmost item gives way if there is no room. -/
def elimPush : Deque α :=
  if d.items.length < d.cap then (d.push item).1 else (d.pop.1.push item).1

def clear : Deque α := ⟨d.cap, [], Nat.zero_le _⟩

/-- An item counted from the bottom. -/
def bottom (i : ℕ) : Option α := d.items.reverse[i]?

def step (s : ι → Deque α) : Act ι α → (ι → Deque α) × Out α
  | .push i item => (update s i ((s i).push item).1, .ok ((s i).push item).2)
  | .pushTop i item => (update s i ((s i).pushTop item).1, .ok ((s i).pushTop item).2)
  | .elimPush i item => (update s i ((s i).elimPush item), .none)
  | .pop i => (update s i (s i).pop.1, .item ((s i).pop.2.map some))
  | .popBottom i => (update s i (s i).popBottom.1, .item ((s i).popBottom.2.map some))
  | .clear i => (update s i (s i).clear, .none)
  | .swap i j => (update (update s i (s j)) j (s i), .none)
  | .top i index => (s, .item ((s i).items[index]?.map some))
  | .bottom i index => (s, .item (((s i).bottom index).map some))
  | .size i => (s, .size (s i).items.length)

end Deque

/-! ## Positions -/

theorem modLoop_eq {cap : ℕ} (hcap : 0 < cap) : ∀ {fuel off : ℕ}, off ≤ fuel → modLoop cap fuel off
      = off % cap := by
  intro fuel
  induction fuel with
  | zero =>
    intro off hoff
    rw [Nat.le_zero.1 hoff]
    exact (Nat.zero_mod cap).symm
  | succ fuel ih =>
    intro off hoff
    rw [modLoop]
    split
    next hge =>
      rw [ih (by lia), Nat.mod_eq_sub_mod hge]
    next hlt =>
      exact (Nat.mod_eq_of_lt (not_le.1 hlt)).symm

variable {q : Queue α} {d : Deque α} {item : α} {off i j : ℕ} {c start : ℕ}

theorem index_eq (hcap : 0 < q.cap) (hoff : off < two32) : q.index off = off % q.cap := by
  rw [Queue.index, Nat.mod_eq_of_lt hoff, modLoop_eq hcap le_rfl]

theorem update_cell {f : ℕ → Option α} {o : Option α} (hi : i < c) (hj : j < c) :
    update f ((start + j) % c) o ((start + i) % c) = if i = j then o else f ((start + i) % c) := by
  split
  next h =>
    rw [h, update_self]
  next h =>
    exact update_of_ne (fun heq => h (ring_index_inj hi hj heq)) _ _

theorem next_cell (hi : i < c) :
    ((start + 1) % c + i) % c = (start + if i + 1 < c then i + 1 else 0) % c := by
  rw [Nat.mod_add_mod, add_assoc, add_comm 1 i]
  split
  · rfl
  · rw [show i + 1 = c by lia, Nat.add_mod_right, add_zero]

theorem above_eq (hstart : q.start < q.cap) : q.above = (q.start + (q.cap - 1)) % q.cap := by
  rw [Queue.above]
  split
  · rw [Nat.mod_eq_sub_mod (by lia), Nat.mod_eq_of_lt (by lia)]
    lia
  · rw [Nat.mod_eq_of_lt (by lia)]
    lia

/-! ## The queue is the deque -/

/-- The objects are in the cells from `start` on, and there are no others. -/
structure Rep (q : Queue α) (d : Deque α) : Prop where
  cap : q.cap = d.cap
  pos : 0 < q.cap
  lt : q.cap < two32
  start : q.start < q.cap
  count : q.count = d.items.length
  cell : ∀ i < q.cap, q.items ((q.start + i) % q.cap) = d.items[i]?

namespace Rep

theorem count_le (R : Rep q d) : q.count ≤ q.cap := by
  rw [R.count, R.cap]
  exact d.length_le

theorem new {capacity : ℕ} (hpos : 1 ≤ capacity) (hmax : capacity ≤ maxCapacity) :
    Rep (Queue.new capacity : Queue α) ⟨capacity, [], Nat.zero_le _⟩ := by
  have hlt : capacity < two32 := Nat.lt_of_le_pred (by decide) hmax
  have hcap : (.new capacity : Queue α).cap = capacity := Nat.mod_eq_of_lt hlt
  exact ⟨hcap, hcap.symm ▸ hpos, hcap.symm ▸ hlt, hcap.symm ▸ hpos, rfl, fun _ _ => rfl⟩

theorem of_items {d' : Deque α} (R : Rep q d) (hcap : d'.cap = d.cap)
    (hitems : d'.items = d.items) : Rep q d' :=
  ⟨R.cap.trans hcap.symm, R.pos, R.lt, R.start, R.count.trans (congrArg length hitems).symm,
    fun i hi => (R.cell i hi).trans (congrArg (·[i]?) hitems).symm⟩

section

variable (R : Rep q d)
include R

theorem items_nil (h : ¬ q.count ≠ 0) : d.items = [] :=
  eq_nil_of_length_eq_zero (R.count ▸ not_not.1 h)

theorem update_start (o : Option α) (hi : i < q.cap) :
    update q.items q.start o ((q.start + i) % q.cap) = if i = 0 then o else d.items[i]? := by
  have hfirst : (q.start + 0) % q.cap = q.start := Nat.mod_eq_of_lt R.start
  rw [← R.cell i hi, ← update_cell hi R.pos, hfirst]

theorem push (hfit : q.count < q.cap → q.start + q.count < two32) :
    Rep (q.push item).1 (d.push item).1 ∧ (q.push item).2 = (d.push item).2 := by
  rw [Queue.push, Deque.push]
  by_cases h : q.count < q.cap
  · have hd : d.items.length < d.cap := by
      rwa [← R.count, ← R.cap]
    rw [if_pos h, dif_pos hd, index_eq R.pos (hfit h)]
    refine ⟨⟨R.cap, R.pos, R.lt, R.start, ?_, fun i (hi : i < q.cap) => ?_⟩, rfl⟩
    · rw [length_append, ← R.count]
      rfl
    · show update q.items _ _ ((q.start + i) % q.cap) = (d.items ++ [item])[i]?
      rw [update_cell hi h, R.cell i hi]
      split
      next heq =>
        rw [heq, R.count, getElem?_concat_length]
      next hne =>
        rcases lt_or_ge i d.items.length with hlt | hge
        · rw [getElem?_append_left hlt]
        · have hlast : d.items.length < i := lt_of_le_of_ne hge (R.count ▸ Ne.symm hne)
          rw [getElem?_eq_none hge, getElem?_eq_none]
          rwa [length_append]
  · have hd : ¬ d.items.length < d.cap := by
      rwa [← R.count, ← R.cap]
    rw [if_neg h, dif_neg hd]
    exact ⟨R, rfl⟩

theorem pushTop : Rep (q.pushTop item).1 (d.pushTop item).1 ∧
    (q.pushTop item).2 = (d.pushTop item).2 := by
  rw [Queue.pushTop, Deque.pushTop]
  by_cases h : q.count < q.cap
  · have hd : d.items.length < d.cap := by
      rwa [← R.count, ← R.cap]
    rw [if_pos h, dif_pos hd]
    have hstart := R.start
    refine ⟨⟨R.cap, R.pos, R.lt, ?_, congrArg (· + 1) R.count, fun i (hi : i < q.cap) => ?_⟩, rfl⟩
    · rw [above_eq hstart]
      exact Nat.mod_lt _ R.pos
    · show update q.items q.above _ ((q.above + i) % q.cap) = (item :: d.items)[i]?
      rw [above_eq hstart, Nat.mod_add_mod]
      cases i with
      | zero => rw [add_zero, update_self, getElem?_cons_zero]
      | succ i =>
        rw [show q.start + (q.cap - 1) + (i + 1) = q.start + i + q.cap by lia, Nat.add_mod_right,
          update_cell (by lia) (by lia), if_neg (by lia), R.cell i (by lia), getElem?_cons_succ]
  · have hd : ¬ d.items.length < d.cap := by
      rwa [← R.count, ← R.cap]
    rw [if_neg h, dif_neg hd]
    exact ⟨R, rfl⟩

theorem pop : Rep q.pop.1 d.pop.1 ∧ q.pop.2 = d.pop.2.map some := by
  have hlt := R.lt
  have hstart := R.start
  rw [Queue.pop]
  by_cases h : q.count ≠ 0
  · have hcount := R.count
    have hle := R.count_le
    rw [if_pos h, index_eq R.pos (by lia)]
    refine ⟨⟨R.cap, R.pos, hlt, Nat.mod_lt _ R.pos, ?_, fun i (hi : i < q.cap) => ?_⟩, ?_⟩
    · show q.count - 1 = d.items.tail.length
      rw [length_tail, hcount]
    · show update q.items q.start none (((q.start + 1) % q.cap + i) % q.cap) = d.items.tail[i]?
      rw [next_cell hi, getElem?_tail]
      split
      next hi' =>
        rw [R.update_start none hi', if_neg (Nat.succ_ne_zero i)]
      · rw [R.update_start none R.pos, if_pos rfl, getElem?_eq_none (by lia)]
    · have hfirst := R.cell 0 R.pos
      rw [add_zero, Nat.mod_eq_of_lt hstart, getElem?_eq_getElem (by lia)] at hfirst
      show some (q.items q.start) = d.items.head?.map some
      rw [hfirst, head?_eq_getElem?, getElem?_eq_getElem]
      rfl
  · rw [if_neg h]
    have hnil := R.items_nil h
    refine ⟨R.of_items rfl ?_, ?_⟩
    · show d.items.tail = d.items
      rw [hnil]
      rfl
    · show none = d.items.head?.map some
      rw [hnil]
      rfl

theorem popBottom (hfit : q.start + (q.count - 1) < two32) :
    Rep q.popBottom.1 d.popBottom.1 ∧ q.popBottom.2 = d.popBottom.2.map some := by
  have hle := R.count_le
  rw [Queue.popBottom]
  by_cases h : q.count ≠ 0
  · have hcount := R.count
    rw [if_pos h, index_eq R.pos hfit]
    have hne : d.items ≠ [] := by
      rintro hnil
      rw [hnil] at hcount
      exact h hcount
    refine ⟨⟨R.cap, R.pos, R.lt, R.start, ?_, fun i (hi : i < q.cap) => ?_⟩, ?_⟩
    · show q.count - 1 = d.items.dropLast.length
      rw [length_dropLast, ← hcount]
    · show update q.items _ none ((q.start + i) % q.cap) = d.items.dropLast[i]?
      rw [update_cell hi (by lia), R.cell i hi, getElem?_dropLast, ← hcount]
      split
      · rw [if_neg (by lia)]
      · split
        · rfl
        · exact getElem?_eq_none (by lia)
    · show some (q.items _) = d.items.getLast?.map some
      rw [R.cell _ (by lia), hcount, ← getLast?_eq_getElem?, getLast?_eq_some_getLast hne]
      rfl
  · rw [if_neg h]
    have hnil := R.items_nil h
    refine ⟨R.of_items rfl ?_, ?_⟩
    · show d.items.dropLast = d.items
      rw [hnil]
      rfl
    · show none = d.items.getLast?.map some
      rw [hnil]
      rfl

theorem clear (hfit : q.start + (q.count - 1) < two32) : Rep q.clear d.clear := by
  refine ⟨R.cap, R.pos, R.lt, R.pos, rfl, fun k (hk : k < q.cap) => ?_⟩
  -- the cells of the first `n` items are empty after `n` rounds, and the others as before
  have hloop : ∀ n ≤ q.count, ∀ i < q.cap,
      (range n).foldl (fun items i => update items (q.index (q.start + i)) none) q.items
        ((q.start + i) % q.cap) = if i < n then none else d.items[i]? := by
    intro n hn
    induction n with
    | zero =>
      intro i hi
      exact R.cell i hi
    | succ n ih =>
      intro i hi
      have hle := R.count_le
      rw [range_succ, foldl_append, foldl_cons, foldl_nil, index_eq R.pos (by lia),
        update_cell hi (by lia), ih (by lia) i hi]
      rcases Nat.lt_trichotomy i n with hlt | heq | hgt
      · rw [if_neg hlt.ne, if_pos hlt, if_pos (by lia)]
      · rw [if_pos heq, if_pos (by lia)]
      · rw [if_neg hgt.ne', if_neg (by lia), if_neg (by lia)]
  obtain ⟨i, hi, rfl⟩ : ∃ i < q.cap, (q.start + i) % q.cap = k := by
    have hstart := R.start
    refine ⟨(k + (q.cap - q.start)) % q.cap, Nat.mod_lt _ R.pos, ?_⟩
    rw [Nat.add_mod_mod, show q.start + (k + (q.cap - q.start)) = k + q.cap by lia, Nat.add_mod_right,
      Nat.mod_eq_of_lt hk]
  show (range q.count).foldl _ q.items ((0 + (q.start + i) % q.cap) % q.cap) = _
  rw [zero_add, Nat.mod_mod, hloop _ le_rfl i hi]
  split
  · rfl
  next hge =>
    exact getElem?_eq_none (R.count ▸ not_lt.1 hge)

theorem elimPush (hfit : q.count < q.cap → q.start + q.count < two32) :
    Rep (q.elimPush item) (d.elimPush item) := by
  rw [Queue.elimPush, Deque.elimPush]
  by_cases h : q.count < q.cap
  · have hd : d.items.length < d.cap := by
      rwa [← R.count, ← R.cap]
    rw [if_pos h, if_pos hd]
    have hpush : Rep (q.push item).1 (d.push item).1 := (R.push hfit).1
    rwa [Queue.push, if_pos h] at hpush
  · have hd : ¬ d.items.length < d.cap := by
      rwa [← R.count, ← R.cap]
    have hcount : d.items.length = q.cap := R.count ▸ le_antisymm R.count_le (not_lt.1 h)
    have hpos := R.pos
    have hlt := R.lt
    have hstart := R.start
    have hroom : d.pop.1.items.length < d.pop.1.cap := by
      show d.items.tail.length < d.cap
      rw [length_tail, ← R.cap]
      lia
    rw [if_neg h, if_neg hd, Deque.push, dif_pos hroom, index_eq hpos (by lia)]
    refine ⟨R.cap, hpos, hlt, Nat.mod_lt _ hpos, ?_, fun i (hi : i < q.cap) => ?_⟩
    · show q.count = (d.items.tail ++ [item]).length
      rw [length_append, length_tail, R.count]
      exact (Nat.sub_add_cancel (by lia)).symm
    · show update q.items q.start item (((q.start + 1) % q.cap + i) % q.cap)
        = (d.items.tail ++ [item])[i]?
      rw [next_cell hi]
      split
      next hi' =>
        rw [R.update_start _ hi', if_neg (Nat.succ_ne_zero i),
          getElem?_append_left (by rw [length_tail]; lia), getElem?_tail]
      · have hlast : i = d.items.tail.length := by
          rw [length_tail]
          lia
        rw [R.update_start _ hpos, if_pos rfl, hlast, getElem?_concat_length]

theorem top (hfit : i < q.count → q.start + i < two32) : q.top i = d.items[i]?.map some := by
  rw [Queue.top]
  split
  next hi =>
    have hle := R.count_le
    have h64 : q.start + i < two64 := (hfit hi).trans (by decide)
    rw [Nat.mod_eq_of_lt h64, index_eq R.pos (hfit hi), R.cell i (by lia)]
    rw [getElem?_eq_getElem (R.count ▸ hi)]
    rfl
  next hi =>
    rw [getElem?_eq_none (R.count ▸ not_lt.1 hi)]
    rfl

theorem bottom (hfit : i < q.count → q.start + (q.count - 1 - i) < two32) :
    q.bottom i = (d.bottom i).map some := by
  rw [Queue.bottom, Deque.bottom]
  split
  next hi =>
    have hle := R.count_le
    have hlt := R.lt
    have hstart := R.start
    have hsum : ((q.start + q.count) % two32 + (two64 - i) + (two64 - 1)) % two64 % two32
        = q.start + (q.count - 1 - i) := by
      have hfit := hfit hi
      simp only [two32, two64] at *
      omega
    have hindex : q.index (((q.start + q.count) % two32 + (two64 - i) + (two64 - 1)) % two64)
        = (q.start + (q.count - 1 - i)) % q.cap := by
      rw [Queue.index, hsum, modLoop_eq R.pos le_rfl]
    rw [hindex, R.cell _ (by lia), getElem?_reverse (R.count ▸ hi), ← R.count,
      getElem?_eq_getElem (by rw [← R.count]; lia)]
    rfl
  next hi =>
    rw [getElem?_eq_none (by rw [length_reverse, ← R.count]; exact not_lt.1 hi)]
    rfl

end

end Rep

variable {s : ι → Queue α} {ds : ι → Deque α}

/-- **One call.** If the position it computes does not wrap, it does to the queue what it does to
the deque. -/
theorem step_deque (R : ∀ i, Rep (s i) (ds i)) (a : Act ι α) (hfit : last s a < two32) :
    (∀ i, Rep ((step s a).1 i) ((Deque.step ds a).1 i)) ∧ (step s a).2 = (Deque.step ds a).2 := by
  have hupd : ∀ {q : Queue α} {d : Deque α} (i : ι), Rep q d →
      ∀ k, Rep (update s i q k) (update ds i d k) := by
    intro q d i hq k
    obtain rfl | hk := eq_or_ne k i
    · rwa [update_self, update_self]
    · rw [update_of_ne hk, update_of_ne hk]
      exact R k
  cases a with
  | push i item =>
    have hfit' : (s i).count < (s i).cap → (s i).start + (s i).count < two32 := fun h =>
      by rwa [last, if_pos h] at hfit
    obtain ⟨hrep, hout⟩ : Rep ((s i).push item).1 ((ds i).push item).1 ∧ _ := (R i).push hfit'
    exact ⟨hupd i hrep, congrArg Out.ok hout⟩
  | pushTop i item =>
    obtain ⟨hrep, hout⟩ : Rep ((s i).pushTop item).1 ((ds i).pushTop item).1 ∧ _ := (R i).pushTop
    exact ⟨hupd i hrep, congrArg Out.ok hout⟩
  | elimPush i item => exact ⟨hupd i ((R i).elimPush fun h => by rwa [last, if_pos h] at hfit), rfl⟩
  | pop i => exact ⟨hupd i (R i).pop.1, congrArg Out.item (R i).pop.2⟩
  | popBottom i => exact ⟨hupd i ((R i).popBottom hfit).1, congrArg Out.item ((R i).popBottom hfit).2⟩
  | clear i => exact ⟨hupd i ((R i).clear hfit), rfl⟩
  | swap i j =>
    refine ⟨fun k => ?_, rfl⟩
    show Rep (update (update s i (s j)) j (s i) k) (update (update ds i (ds j)) j (ds i) k)
    obtain rfl | hk := eq_or_ne k j
    · rw [update_self, update_self]
      exact R i
    · rw [update_of_ne hk, update_of_ne hk]
      exact hupd i (R j) k
  | top i index => exact ⟨R, congrArg Out.item ((R i).top fun h => by rwa [last, if_pos h] at hfit)⟩
  | bottom i index => exact ⟨R, congrArg Out.item ((R i).bottom fun h => by rwa [last, if_pos h] at hfit)⟩
  | size i => exact ⟨R, congrArg Out.size (R i).count⟩

theorem outs_deque (R : ∀ i, Rep (s i) (ds i)) (as : List (Act ι α)) (hfit : Fitting s as) :
    outs step s as = outs Deque.step ds as := by
  induction as generalizing s ds with
  | nil => rfl
  | cons a as ih =>
    obtain ⟨hrep, hout⟩ := step_deque R a hfit.1
    rw [outs, outs, hout, ih hrep hfit.2]

/-! ## Capacities -/

namespace Deque

@[simp] theorem cap_push : (d.push item).1.cap = d.cap := by
  rw [push]
  split <;> rfl

@[simp] theorem cap_pushTop : (d.pushTop item).1.cap = d.cap := by
  rw [pushTop]
  split <;> rfl

@[simp] theorem cap_elimPush : (d.elimPush item).cap = d.cap := by
  rw [elimPush]
  split
  · exact cap_push
  · exact cap_push

theorem cap_step {c : ℕ} (hcap : ∀ i, (ds i).cap ≤ c) (a : Act ι α) (k : ι) : ((step ds a).1 k).cap
      ≤ c := by
  have hupd : ∀ {d : Deque α} (i : ι), d.cap ≤ c → (update ds i d k).cap ≤ c := by
    intro d i hd
    rw [update_apply]
    split
    · exact hd
    · exact hcap k
  cases a with
  | push i item => exact hupd i (cap_push.trans_le (hcap i))
  | pushTop i item => exact hupd i (cap_pushTop.trans_le (hcap i))
  | elimPush i item => exact hupd i (cap_elimPush.trans_le (hcap i))
  | pop i | popBottom i | clear i => exact hupd i (hcap i)
  | swap i j =>
    show (update (update ds i (ds j)) j (ds i) k).cap ≤ c
    rw [update_apply]
    split
    · exact hcap i
    · exact hupd i (hcap j)
  | top i index | bottom i index | size i => exact hcap k

end Deque

theorem fitting_of_small (R : ∀ i, Rep (s i) (ds i)) (hsmall : ∀ i, (ds i).cap ≤ 2 ^ 31)
    (as : List (Act ι α)) :
    Fitting s as := by
  induction as generalizing s ds with
  | nil => trivial
  | cons a as ih =>
    have hsum : ∀ i, (s i).start + (s i).count < two32 := by
      intro i
      have hstart := (R i).start
      have hle := (R i).count_le
      have hcap := (R i).cap.trans_le (hsmall i)
      rw [two32]
      lia
    have hlast : last s a < two32 := by
      cases a with
      | push i item | elimPush i item =>
        rw [last]
        split
        · exact hsum i
        · exact (Nat.le_add_right _ _).trans_lt (hsum i)
      | popBottom i | clear i => exact (Nat.add_le_add_left (Nat.sub_le _ _) _).trans_lt (hsum i)
      | top i index | bottom i index =>
        rw [last]
        split
        · exact (Nat.add_le_add_left (by lia) _).trans_lt (hsum i)
        · decide
      | pushTop i item | pop i | swap i j | size i => exact Nat.two_pow_pos 32
    exact ⟨hlast, ih (step_deque R a hlast).1 (Deque.cap_step hsmall a)⟩

/-- The queues are bounded deques: the calls of the run return the same. -/
def Behaves (caps : ι → ℕ) (as : List (Act ι α)) : Prop :=
  outs step (fun i => Queue.new (caps i)) as = outs Deque.step (fun i => ⟨caps i, [], Nat.zero_le _⟩) as

/-- **Bounded deques** are what the queues are in every run in which no position wraps, which is
every run with capacities of up to `2 ^ 31`. -/
theorem run_behaves (caps : ι → ℕ) (hcaps : ∀ i, 1 ≤ caps i ∧ caps i ≤ maxCapacity)
    (as : List (Act ι α)) :
    (Fitting (fun i => Queue.new (caps i)) as → Behaves caps as) ∧
    ((∀ i, caps i ≤ 2 ^ 31) → Behaves caps as) := by
  have R : ∀ i, Rep (.new (caps i) : Queue α) ⟨caps i, [], Nat.zero_le _⟩ := fun i =>
    Rep.new (hcaps i).1 (hcaps i).2
  constructor
  · exact outs_deque R as
  · intro hsmall
    exact outs_deque R as (fitting_of_small R hsmall as)

/-- Two queues with room for three items, from both ends and round the end of the array. -/
def bothEnds : List (Act Bool Char) :=
  [.push true 'a', .push true 'b', .pop true, .push true 'c', .push true 'd', .top true 2,
    .elimPush true 'e',
    .pushTop false 'f', .popBottom true, .swap true false, .bottom false 0, .clear false, .size true]

theorem run_behaves_three : Fitting (fun _ => Queue.new 3) bothEnds ∧ Behaves (fun _ => 3) bothEnds := by
  have hfits : Fitting (fun _ => Queue.new 3) bothEnds := by
    simp only [Fitting, bothEnds]
    decide
  exact ⟨hfits, (run_behaves (fun _ => 3) (fun _ => by decide) bothEnds).1 hfits⟩

/-- At the greatest capacity the third item is pushed over the second one: `start + count` is `2 ^
32`. -/
theorem push_wraps : ¬ ∀ as : List (Act Unit Char), Behaves (fun _ => maxCapacity) as := by
  intro h
  have hrun := h [.pushTop () 'a', .push () 'b', .push () 'c', .top () 1]
  rw [Behaves] at hrun
  revert hrun
  decide

end Eabase.Utility.BoundedDeque
