import Eabase.Lib.Blocks
import Eabase.Lib.Ring

/-!
# Series

The trend of a variable: a value every second, and by the operator of the variable
one for a minute, an hour and a day. Four rings stand in one array. A value that
fills a ring is folded with the others of the ring into a value of the next
ring, and the ring begins again.

When the operator is an addition the fold is divided, so that the trend shows an
average; otherwise the rings together are the history of all values on four
scales.
-/

namespace Eabase.Var.Series

open Lib Function List

variable {T : Type*}

/-! ## The code -/

/-- What `DivideOnAddition` does to integers, floating-point numbers and vectors of them. -/
structure Division (T : Type*) where
  ofInt : ℤ → T
  divide : T → ℕ → T

/-- `Op`, and the division where `DivideOnAddition` is specialised for `T`. -/
structure Operator (T : Type*) where
  op : T → T → T
  division : Option (Division T)

/-- `ProbablyAddtition`. -/
def probablyAddition [DecidableEq T] (op : T → T → T) (d : Division T) : Bool :=
  op (d.ofInt 32) (d.ofInt 64) == d.ofInt 96

/-- `DivideOnAddition::inplace_divide`. -/
def inplaceDivide [DecidableEq T] (o : Operator T) (obj : T) (number : ℕ) : T :=
  match o.division with
  | none => obj
  | some d => if probablyAddition o.op d then d.divide obj number else obj

/-- `SeriesBase`: the next cell of each ring, and the array of all rings. -/
structure State (T : Type*) where
  nsecond : ℕ
  nminute : ℕ
  nhour : ℕ
  nday : ℕ
  array : ℕ → T

def new (array : ℕ → T) : State T := ⟨0, 0, 0, 0, array⟩

/-- The loop over a full ring: `tmp` is its first cell, and takes in the others. -/
def foldRing (op : T → T → T) (array : ℕ → T) (offset len : ℕ) : T :=
  (List.range (len - 1)).foldl (fun tmp i => op tmp (array (offset + (i + 1)))) (array offset)

/-- `append_day`. -/
def appendDay (value : T) (s : State T) : State T :=
  let s := { s with array := update s.array (144 + s.nday) value, nday := s.nday + 1 }
  if s.nday ≥ 30 then { s with nday := 0 } else s

/-- `append_hour`. -/
def appendHour [DecidableEq T] (o : Operator T) (value : T) (s : State T) : State T :=
  let s := { s with array := update s.array (120 + s.nhour) value, nhour := s.nhour + 1 }
  if s.nhour ≥ 24 then
    let s := { s with nhour := 0 }
    appendDay (inplaceDivide o (foldRing o.op s.array 120 24) 24) s
  else s

/-- `append_minute`. -/
def appendMinute [DecidableEq T] (o : Operator T) (value : T) (s : State T) : State T :=
  let s := { s with array := update s.array (60 + s.nminute) value, nminute := s.nminute + 1 }
  if s.nminute ≥ 60 then
    let s := { s with nminute := 0 }
    appendHour o (inplaceDivide o (foldRing o.op s.array 60 60) 60) s
  else s

/-- `append_second`. -/
def appendSecond [DecidableEq T] (o : Operator T) (value : T) (s : State T) : State T :=
  let s := { s with array := update s.array (0 + s.nsecond) value, nsecond := s.nsecond + 1 }
  if s.nsecond ≥ 60 then
    let s := { s with nsecond := 0 }
    appendMinute o (inplaceDivide o (foldRing o.op s.array 0 60) 60) s
  else s

/-- `append`. -/
def append [DecidableEq T] (o : Operator T) (s : State T) (value : T) : State T := appendSecond o value s

/-- A ring as `describe` reads it, from the next cell on. -/
def ring (s : State T) (offset len start : ℕ) : List T :=
  ringList (fun i => s.array (offset + i)) len start len

/-- `describe`: the values with the places in front of them. -/
def describe (s : State T) : List (T × ℕ) :=
  (ring s 144 30 s.nday ++ ring s 120 24 s.nhour ++ ring s 60 60 s.nminute ++
    ring s 0 60 s.nsecond).zipIdx

/-! ## One ring -/

/-- What a ring held when the series was new. -/
def initial (array : ℕ → T) (offset len : ℕ) : List T := (List.range len).map fun i => array (offset + i)

/-- A ring that was given the values `xs`: it has the latest ones, behind what is left of the
initial ones. -/
structure RingHolds (init xs : List T) (n : ℕ) (cells : List T) : Prop where
  next : n = xs.length % init.length
  cells : cells = (init ++ xs).rtake init.length

variable {init xs ms hs ds cells : List T} {n : ℕ} {v z : T} {s : State T} {op : T → T → T}
  {o : Operator T} {offset len start : ℕ} {s' : State T} {cell : ℕ}

theorem length_initial {array : ℕ → T} : (initial array offset len).length = len := by
  rw [initial, length_map, length_range]

theorem ringHolds_new (array : ℕ → T) (offset len : ℕ) :
    RingHolds (initial array offset len) [] 0 (ring (new array) offset len 0) where
  next := (Nat.zero_mod _).symm
  cells := by
    rw [append_nil, rtake, Nat.sub_self, drop_zero, ring, ringList_whole]
    rfl

/-- One value more: the ring turns, and when it begins again its cells are a complete block. -/
theorem RingHolds.push (h : RingHolds init xs n cells) (hpos : 0 < init.length) (v : T) :
    RingHolds init (xs ++ [v]) (if n + 1 ≥ init.length then 0 else n + 1) (cells.tail ++ [v]) ∧
      blocks init.length (xs ++ [v])
        = if n + 1 ≥ init.length then blocks init.length xs ++
        [cells.tail ++ [v]] else blocks init.length xs := by
  have hlt : n < init.length := by
    rw [h.next]
    exact Nat.mod_lt _ hpos
  have hcells : cells.tail ++ [v] = (init ++ (xs ++ [v])).rtake init.length := by
    rw [h.cells, ← append_assoc, rtake_concat hpos (by rw [length_append]; exact Nat.le_add_right _ _)]
  have hmod : (xs.length + 1) % init.length = if n + 1 ≥ init.length then 0 else n + 1 := by
    rw [← Nat.mod_add_mod, ← h.next, succ_mod_eq hlt]
  constructor
  · constructor
    · rw [length_append, length_singleton, hmod]
    · exact hcells
  · rw [blocks_concat hpos, hmod]
    by_cases hfull : n + 1 ≥ init.length
    · rw [if_pos hfull] at hmod
      have hle : init.length ≤ (xs ++ [v]).length := by
        rw [length_append, length_singleton]
        exact Nat.le_of_dvd (Nat.succ_pos _) (Nat.dvd_of_mod_eq_zero hmod)
      rw [if_pos hfull, if_pos rfl, if_pos hfull, hcells, rtake_append_of_le hle]
    · rw [if_neg hfull, if_neg (Nat.succ_ne_zero n), if_neg hfull]

/-! ## The array -/

theorem foldRing_eq {array : ℕ → T} (hlen : 0 < len) :
    foldRing op array offset len = opFold op z (ringList (fun i => array (offset + i)) len 0 len) := by
  obtain ⟨m, rfl⟩ : ∃ m, len = m + 1 := ⟨len - 1, by lia⟩
  rw [ringList_whole, range_succ_eq_map, map_cons, opFold, foldRing, Nat.add_sub_cancel, map_map,
    foldl_map]
  rfl

theorem ring_update (hstart : start < len)
    (harray : s'.array = update s.array (offset + start) v) :
    ring s' offset len (if start + 1 ≥ len then 0 else start + 1)
      = (ring s offset len start).tail ++ [v] := by
  have hcell : (fun i => s'.array (offset + i)) = update (fun i => s.array (offset + i)) start v := by
    funext i
    rw [harray]
    by_cases hi : i = start
    · rw [hi, update_self, update_self]
    · rw [update_of_ne hi, update_of_ne (fun h => hi (Nat.add_left_cancel h))]
  rw [ring, hcell, ← succ_mod_eq hstart, ringList_turn hstart]
  rfl

theorem ring_update_other (hlen : 0 < len) (h : cell < offset ∨ offset + len ≤ cell)
    (harray : s'.array = update s.array cell v) : ring s' offset len start = ring s offset len start := by
  apply ringList_congr hlen
  intro i hi
  rw [harray, update_of_ne (by lia)]

/-! ## The series -/

/-- What a series holds that was given these values on its four scales. -/
structure Holds (array : ℕ → T) (xs ms hs ds : List T) (s : State T) : Prop where
  seconds : RingHolds (initial array 0 60) xs s.nsecond (ring s 0 60 s.nsecond)
  minutes : RingHolds (initial array 60 60) ms s.nminute (ring s 60 60 s.nminute)
  hours : RingHolds (initial array 120 24) hs s.nhour (ring s 120 24 s.nhour)
  days : RingHolds (initial array 144 30) ds s.nday (ring s 144 30 s.nday)

variable {array : ℕ → T}

theorem new_holds (array : ℕ → T) : Holds array [] [] [] [] (new array) where
  seconds := ringHolds_new array 0 60
  minutes := ringHolds_new array 60 60
  hours := ringHolds_new array 120 24
  days := ringHolds_new array 144 30

theorem RingHolds.keep (h : RingHolds init xs n (ring s offset len n)) (hlen : 0 < len)
    (hcell : cell < offset ∨ offset + len ≤ cell) (harray : s'.array = update s.array cell v) :
    RingHolds init xs n (ring s' offset len n) := by
  rw [ring_update_other hlen hcell harray]
  exact h

theorem RingHolds.store (h : RingHolds init xs n (ring s offset len n)) (hinit : init.length = len)
    (hlen : 0 < len)
    (s' : State T) (harray : s'.array = update s.array (offset + n) v) :
    RingHolds init (xs ++ [v]) (if n + 1 ≥ len then 0 else n + 1)
        (ring s' offset len (if n + 1 ≥ len then 0 else n + 1)) ∧
      blocks len (xs ++ [v]) = if n + 1 ≥ len then blocks len xs ++
      [ring s' offset len 0] else blocks len xs := by
  subst hinit
  have hlt : n < init.length := by
    rw [h.next]
    exact Nat.mod_lt _ hlen
  obtain ⟨hpush, hblocks⟩ := h.push hlen v
  have hring := ring_update hlt harray
  constructor
  · rw [hring]
    exact hpush
  · rw [hblocks]
    split
    next hfull =>
      rw [if_pos hfull] at hring
      rw [hring]
    · rfl

theorem Holds.appendDay (h : Holds array xs ms hs ds s) (v : T) :
    Holds array xs ms hs (ds ++ [v]) (Series.appendDay v s) := by
  have hstate : Series.appendDay v s = { s with
      array := update s.array (144 + s.nday) v
      nday := if s.nday + 1 ≥ 30 then 0 else s.nday + 1 } := by
    simp only [Series.appendDay]
    split <;> rfl
  rw [hstate]
  constructor
  · exact h.seconds.keep (by decide) (.inr (by lia)) rfl
  · exact h.minutes.keep (by decide) (.inr (by lia)) rfl
  · exact h.hours.keep (by decide) (.inr (by lia)) rfl
  · exact (h.days.store length_initial (by decide) _ rfl).1

/-- Where the operator is not taken for an addition, nothing is divided. -/
def NotAddition [DecidableEq T] (o : Operator T) : Prop :=
  ∀ d ∈ o.division, probablyAddition o.op d = false

theorem inplaceDivide_eq [DecidableEq T] (ho : NotAddition o) (obj : T) (number : ℕ) :
    inplaceDivide o obj number = obj := by
  unfold inplaceDivide
  split
  · rfl
  next d hd =>
    rw [if_neg]
    rw [ho d hd]
    exact Bool.false_ne_true

def foldBlocks (op : T → T → T) (z : T) (len : ℕ) (xs : List T) : List T :=
  (blocks len xs).map (opFold op z)

theorem Holds.next_lt (h : Holds array xs ms hs ds s) : s.nsecond < 60 ∧ s.nminute < 60 ∧
    s.nhour < 24 := by
  have hsecond := h.seconds.next
  have hminute := h.minutes.next
  have hhour := h.hours.next
  rw [length_initial] at hsecond hminute hhour
  lia

theorem Holds.appendHour [DecidableEq T] (ho : NotAddition o) (z : T)
    (h : Holds array xs ms hs (foldBlocks o.op z 24 hs) s) (v : T) :
    Holds array xs ms (hs ++ [v]) (foldBlocks o.op z 24 (hs ++ [v])) (Series.appendHour o v s) := by
  let s1 : State T := { s with
    array := update s.array (120 + s.nhour) v
    nhour := if s.nhour + 1 ≥ 24 then 0 else s.nhour + 1 }
  have harray : s1.array = update s.array (120 + s.nhour) v := rfl
  obtain ⟨-, -, hlt⟩ := h.next_lt
  obtain ⟨hhours, hblocks⟩ := h.hours.store length_initial (by decide) s1 harray
  have h1 : Holds array xs ms (hs ++ [v]) (foldBlocks o.op z 24 hs) s1 := by
    constructor
    · exact h.seconds.keep (by decide) (.inr (by lia)) harray
    · exact h.minutes.keep (by decide) (.inr (by lia)) harray
    · exact hhours
    · exact h.days.keep (by decide) (.inl (by lia)) harray
  by_cases hfull : s.nhour + 1 ≥ 24
  · have hstate : Series.appendHour o v s = Series.appendDay (opFold o.op z (ring s1 120 24 0)) s1 := by
      simp only [Series.appendHour, if_pos hfull, inplaceDivide_eq ho,
        foldRing_eq (z := z) (by decide : 0 < 24), s1]
      rfl
    rw [if_pos hfull] at hblocks
    rw [hstate, foldBlocks, hblocks, map_append]
    exact h1.appendDay _
  · have hstate : Series.appendHour o v s = s1 := by
      simp only [Series.appendHour, if_neg hfull, s1]
    rw [if_neg hfull] at hblocks
    rw [hstate, foldBlocks, hblocks]
    exact h1

theorem Holds.appendMinute [DecidableEq T] (ho : NotAddition o) (z : T)
    (h : Holds array xs ms (foldBlocks o.op z 60 ms)
      (foldBlocks o.op z 24 (foldBlocks o.op z 60 ms)) s) (v : T) :
    Holds array xs (ms ++ [v]) (foldBlocks o.op z 60 (ms ++ [v]))
      (foldBlocks o.op z 24 (foldBlocks o.op z 60 (ms ++ [v]))) (Series.appendMinute o v s) := by
  let s1 : State T := { s with
    array := update s.array (60 + s.nminute) v
    nminute := if s.nminute + 1 ≥ 60 then 0 else s.nminute + 1 }
  have harray : s1.array = update s.array (60 + s.nminute) v := rfl
  obtain ⟨-, hlt, -⟩ := h.next_lt
  obtain ⟨hminutes, hblocks⟩ := h.minutes.store length_initial (by decide) s1 harray
  have h1 : Holds array xs (ms ++ [v]) (foldBlocks o.op z 60 ms)
      (foldBlocks o.op z 24 (foldBlocks o.op z 60 ms)) s1 := by
    constructor
    · exact h.seconds.keep (by decide) (.inr (by lia)) harray
    · exact hminutes
    · exact h.hours.keep (by decide) (.inl (by lia)) harray
    · exact h.days.keep (by decide) (.inl (by lia)) harray
  by_cases hfull : s.nminute + 1 ≥ 60
  · have hstate : Series.appendMinute o v s = Series.appendHour o (opFold o.op z (ring s1 60 60 0))
      s1 := by
      simp only [Series.appendMinute, if_pos hfull, inplaceDivide_eq ho,
        foldRing_eq (z := z) (by decide : 0 < 60), s1]
      rfl
    have hnext : foldBlocks o.op z 60 (ms ++ [v]) = foldBlocks o.op z 60 ms ++
        [opFold o.op z (ring s1 60 60 0)] := by
      rw [if_pos hfull] at hblocks
      rw [foldBlocks, hblocks, map_append]
      rfl
    rw [hstate, hnext]
    exact h1.appendHour ho z _
  · have hstate : Series.appendMinute o v s = s1 := by
      simp only [Series.appendMinute, if_neg hfull, s1]
    have hnext : foldBlocks o.op z 60 (ms ++ [v]) = foldBlocks o.op z 60 ms := by
      rw [if_neg hfull] at hblocks
      rw [foldBlocks, hblocks]
      rfl
    rw [hstate, hnext]
    exact h1

/-- What a series holds, from the values alone: minutes of 60 seconds, hours of 60 minutes, days of
24 hours. -/
def HoldsValues (op : T → T → T) (z : T) (array : ℕ → T) (xs : List T) (s : State T) : Prop :=
  Holds array xs (foldBlocks op z 60 xs) (foldBlocks op z 60 (foldBlocks op z 60 xs))
    (foldBlocks op z 24 (foldBlocks op z 60 (foldBlocks op z 60 xs))) s

theorem HoldsValues.append [DecidableEq T] (ho : NotAddition o) (h : HoldsValues o.op z array xs s)
    (v : T) :
    HoldsValues o.op z array (xs ++ [v]) (Series.append o s v) := by
  let s1 : State T := { s with
    array := update s.array (0 + s.nsecond) v
    nsecond := if s.nsecond + 1 ≥ 60 then 0 else s.nsecond + 1 }
  have harray : s1.array = update s.array (0 + s.nsecond) v := rfl
  obtain ⟨hlt, -, -⟩ := h.next_lt
  obtain ⟨hseconds, hblocks⟩ := h.seconds.store length_initial (by decide) s1 harray
  have h1 : Holds array (xs ++ [v]) (foldBlocks o.op z 60 xs)
      (foldBlocks o.op z 60 (foldBlocks o.op z 60 xs))
      (foldBlocks o.op z 24 (foldBlocks o.op z 60 (foldBlocks o.op z 60 xs))) s1 := by
    constructor
    · exact hseconds
    · exact h.minutes.keep (by decide) (.inl (by lia)) harray
    · exact h.hours.keep (by decide) (.inl (by lia)) harray
    · exact h.days.keep (by decide) (.inl (by lia)) harray
  rw [Series.append, HoldsValues]
  by_cases hfull : s.nsecond + 1 ≥ 60
  · have hstate : appendSecond o v s = Series.appendMinute o (opFold o.op z (ring s1 0 60 0)) s1 := by
      simp only [appendSecond, if_pos hfull, inplaceDivide_eq ho,
        foldRing_eq (z := z) (by decide : 0 < 60), s1]
      rfl
    have hnext : foldBlocks o.op z 60 (xs ++ [v]) = foldBlocks o.op z 60 xs ++
        [opFold o.op z (ring s1 0 60 0)] := by
      rw [if_pos hfull] at hblocks
      rw [foldBlocks, hblocks, map_append]
      rfl
    rw [hstate, hnext]
    exact h1.appendMinute ho z _
  · have hstate : appendSecond o v s = s1 := by
      simp only [appendSecond, if_neg hfull, s1]
    have hnext : foldBlocks o.op z 60 (xs ++ [v]) = foldBlocks o.op z 60 xs := by
      rw [if_neg hfull] at hblocks
      rw [foldBlocks, hblocks]
      rfl
    rw [hstate, hnext]
    exact h1

theorem run_holdsValues [DecidableEq T] (ho : NotAddition o) (z : T) (array : ℕ → T) (xs : List T) :
    HoldsValues o.op z array xs (xs.foldl (Series.append o) (new array)) := by
  induction xs using reverseRecOn with
  | nil =>
    have hnone : ∀ len, foldBlocks o.op z len [] = [] := by
      intro len
      rw [foldBlocks, blocks_nil]
      rfl
    rw [HoldsValues, hnone, hnone, hnone]
    exact new_holds array
  | append_singleton xs v ih =>
    rw [foldl_append]
    exact ih.append ho v

/-- **A series is the history of its values on four scales**: the latest 60 of them, and the folds
of the latest 60 complete minutes, 24 complete hours and 30 complete days, each behind what is left
of the initial array. -/
theorem run_history [DecidableEq T] (o : Operator T)
    (hop : ∀ a b c, o.op (o.op a b) c = o.op a (o.op b c))
    (ho : NotAddition o) (z : T) (array : ℕ → T) (xs : List T) :
    describe (xs.foldl (append o) (new array)) =
      ((initial array 144 30 ++ (blocks 86400 xs).map (opFold o.op z)).rtake 30 ++
        (initial array 120 24 ++ (blocks 3600 xs).map (opFold o.op z)).rtake 24 ++
        (initial array 60 60 ++ (blocks 60 xs).map (opFold o.op z)).rtake 60 ++
        (initial array 0 60 ++ xs).rtake 60).zipIdx := by
  have h := run_holdsValues ho z array xs
  have hhours : foldBlocks o.op z 60 (foldBlocks o.op z 60 xs) = (blocks 3600 xs).map (opFold o.op z) :=
    blocks_map_opFold hop (by decide) 60 xs
  have hdays : foldBlocks o.op z 24 (foldBlocks o.op z 60 (foldBlocks o.op z 60 xs))
      = (blocks 86400 xs).map (opFold o.op z) := by
    rw [hhours]
    exact blocks_map_opFold hop (by decide) 24 xs
  have hdayCells := h.days.cells
  have hhourCells := h.hours.cells
  have hminuteCells := h.minutes.cells
  have hsecondCells := h.seconds.cells
  rw [length_initial] at hdayCells hhourCells hminuteCells hsecondCells
  rw [describe, hdayCells, hhourCells, hminuteCells, hsecondCells, hdays, hhours]
  rfl

def maximum : Operator ℤ := ⟨max, some ⟨id, fun x n => x / n⟩⟩

theorem maximum_notAddition : NotAddition maximum := by
  rintro d ⟨⟩
  decide

/-- The trend of a greatest value that saw the numbers up to 121: the last two minutes are full, and
the oldest of the seconds is 62. -/
theorem run_history_max :
    (∀ a b c : ℤ, max (max a b) c = max a (max b c)) ∧
    ((describe (((range 122).map fun n => (n : ℤ)).foldl (append maximum) (new fun _ => 0))).drop
      112).take 3 =
      [(59, 112), (119, 113), (62, 114)] := by
  constructor
  · exact fun a b c => max_assoc a b c
  · rw [run_history maximum (fun a b c => max_assoc a b c) maximum_notAddition 0]
    decide +kernel

end Eabase.Var.Series
