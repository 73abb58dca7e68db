import Eabase.IOBuf.Block
import Eabase.Lib.Ring
import Mathlib.Algebra.Order.BigOperators.Group.List
import Mathlib.Tactic.IntervalCases
import Mathlib.Data.List.DropRight

/-!
# The queue of block references

An `IOBuf` is a queue of `BlockRef`s in one of two representations: two
inline slots (`SmallView`) or a growing circular array (`BigView`). The C++
union is the inductive type `IOBuf`, its `magic` the constructor.

`refs` reads either representation as a list. Each operation of the source
is translated with both its effect on the representation and its effect on
the reference counts, and each gets one lemma that says what it does to the
list (`refs_pushOrMoveBackRef`, `refs_popOrMoveoutFrontRef`,
`refs_popBackRef`), next to one that says that it restores the
representation invariant `WF`. Above this file only `Resizes` and the model in 32
bits look at a view.

Offsets, lengths and counts are unbounded here, and so is the capacity, which
the code doubles to 0 at 2^31 references.
-/

namespace Eabase

open Function List

namespace IOBuf

def INITIAL_CAP : ℕ := 32

structure BlockRef where
  offset : ℕ
  length : ℕ
  block : Ptr
deriving DecidableEq

def resetBlockRef : BlockRef := ⟨0, 0, NULL⟩

def BlockRef.stop (r : BlockRef) : ℕ := r.offset + r.length

structure BigView where
  start : ℕ
  refs : ℕ → BlockRef
  nref : ℕ
  capMask : ℕ
  nbytes : ℕ

namespace BigView

def refAt (v : BigView) (i : ℕ) : BlockRef := v.refs ((v.start + i) &&& v.capMask)

def setRefAt (v : BigView) (i : ℕ) (r : BlockRef) : BigView :=
  { v with refs := update v.refs ((v.start + i) &&& v.capMask) r }

def capacity (v : BigView) : ℕ := v.capMask + 1

end BigView

end IOBuf

inductive IOBuf : Type where
  | sv (refs0 refs1 : IOBuf.BlockRef)
  | bv (v : IOBuf.BigView)

namespace IOBuf

/-- `IOBuf()`. -/
def new : IOBuf := sv resetBlockRef resetBlockRef

instance : Inhabited IOBuf := ⟨new⟩

def small : IOBuf → Bool
  | sv _ _ => true
  | bv _ => false

def empty : IOBuf → Bool
  | sv refs0 _ => decide (refs0.block = NULL)
  | bv v => decide (v.nbytes = 0)

def length : IOBuf → ℕ
  | sv refs0 refs1 => refs0.length + refs1.length
  | bv v => v.nbytes

def refNum : IOBuf → ℕ
  | sv refs0 refs1 =>
      (if refs0.block = NULL then 0 else 1) + (if refs1.block = NULL then 0 else 1)
  | bv v => v.nref

def frontRef : IOBuf → BlockRef
  | sv refs0 _ => refs0
  | bv v => v.refs v.start

def backRef : IOBuf → BlockRef
  | sv refs0 refs1 => if refs1.block = NULL then refs0 else refs1
  | bv v => v.refAt (v.nref - 1)

def refAt : IOBuf → ℕ → BlockRef
  | sv refs0 refs1, i => if i = 0 then refs0 else refs1
  | bv v, i => v.refAt i

/-- Assignment through the reference that `_front_ref()` returns. -/
def setFrontRef (r : BlockRef) : IOBuf → IOBuf
  | sv _ refs1 => sv r refs1
  | bv v => bv { v with refs := update v.refs v.start r }

/-- Assignment through the reference that `_back_ref()` returns. -/
def setBackRef (r : BlockRef) : IOBuf → IOBuf
  | sv refs0 refs1 => if refs1.block = NULL then sv r refs1 else sv refs0 r
  | bv v => bv (v.setRefAt (v.nref - 1) r)

/-- `if (!_small()) { _bv.nbytes -= n; }`. -/
def subNbytes (n : ℕ) : IOBuf → IOBuf
  | sv refs0 refs1 => sv refs0 refs1
  | bv v => bv { v with nbytes := v.nbytes - n }

/-- A fresh `BlockRef` array whose first cells have been assigned. -/
def acquireBlockrefArray (l : List BlockRef) : ℕ → BlockRef := fun i => l.getD i resetBlockRef

/-- The test under which a pushed reference is merged into `back`. -/
def BlockRef.mergeable (back r : BlockRef) : Prop :=
  back.block = r.block ∧ back.offset + back.length = r.offset

instance (back r : BlockRef) : Decidable (back.mergeable r) := by
  unfold BlockRef.mergeable; infer_instance

def BlockRef.grow (back r : BlockRef) : BlockRef := { back with length := back.length + r.length }

def pushOrMoveBackRefToSmallview (move : Bool) (r refs0 refs1 : BlockRef) (h : Heap) :
    IOBuf × Heap :=
  if refs0.block = NULL then
    (sv r refs1, if move then h else h.incRef r.block)
  else if refs1.block = NULL then
    if refs0.mergeable r then
      (sv (refs0.grow r) refs1, if move then h.decRef r.block else h)
    else
      (sv refs0 r, if move then h else h.incRef r.block)
  else if refs1.mergeable r then
    (sv refs0 (refs1.grow r), if move then h.decRef r.block else h)
  else
    -- Convert to BigView
    (bv { start := 0
          refs := acquireBlockrefArray [refs0, refs1, r]
          nref := 3
          capMask := INITIAL_CAP - 1
          nbytes := refs0.length + refs1.length + r.length },
      if move then h else h.incRef r.block)

def pushOrMoveBackRefToBigview (move : Bool) (r : BlockRef) (v : BigView) (h : Heap) :
    IOBuf × Heap :=
  let back := v.refAt (v.nref - 1)
  if back.mergeable r then
    (bv { v.setRefAt (v.nref - 1) (back.grow r) with nbytes := v.nbytes + r.length },
      if move then h.decRef r.block else h)
  else if v.nref ≠ v.capacity then
    (bv { v.setRefAt v.nref r with nref := v.nref + 1, nbytes := v.nbytes + r.length },
      if move then h else h.incRef r.block)
  else
    let newCap := v.capacity * 2
    (bv { start := 0
          refs := acquireBlockrefArray ((List.range v.nref).map v.refAt ++ [r])
          nref := v.nref + 1
          capMask := newCap - 1
          nbytes := v.nbytes + r.length },
      if move then h else h.incRef r.block)

/-- `_push_back_ref` (`move = false`) and `_move_back_ref` (`move = true`). -/
def pushOrMoveBackRef (move : Bool) (r : BlockRef) : IOBuf → Heap → IOBuf × Heap
  | sv refs0 refs1, h => pushOrMoveBackRefToSmallview move r refs0 refs1 h
  | bv v, h => pushOrMoveBackRefToBigview move r v h

/-- `_pop_front_ref` (`moveout = false`) and `_moveout_front_ref`. -/
def popOrMoveoutFrontRef (moveout : Bool) : IOBuf → Heap → IOBuf × Heap
  | sv refs0 refs1, h =>
      if refs0.block ≠ NULL then
        (sv refs1 resetBlockRef, if moveout then h else h.decRef refs0.block)
      else (sv refs0 refs1, h)
  | bv v, h =>
      let h₁ := if moveout then h else h.decRef (v.refs v.start).block
      if 2 < v.nref - 1 then
        (bv { v with
              nref := v.nref - 1
              start := (v.start + 1) &&& v.capMask
              nbytes := v.nbytes - (v.refs v.start).length }, h₁)
      else -- fall back to SmallView
        (sv (v.refs ((v.start + 1) &&& v.capMask)) (v.refs ((v.start + 2) &&& v.capMask)), h₁)

def popBackRef : IOBuf → Heap → IOBuf × Heap
  | sv refs0 refs1, h =>
      if refs1.block ≠ NULL then (sv refs0 resetBlockRef, h.decRef refs1.block)
      else if refs0.block ≠ NULL then (sv resetBlockRef refs1, h.decRef refs0.block)
      else (sv refs0 refs1, h)
  | bv v, h =>
      let back := v.refs ((v.start + v.nref - 1) &&& v.capMask)
      let h₁ := h.decRef back.block
      if 2 < v.nref - 1 then
        (bv { v with nref := v.nref - 1, nbytes := v.nbytes - back.length }, h₁)
      else -- fall back to SmallView
        (sv (v.refs v.start) (v.refs ((v.start + 1) &&& v.capMask)), h₁)

/-! ## The list of references -/

def refs : IOBuf → List BlockRef
  | sv refs0 refs1 =>
      if refs0.block = NULL then []
      else if refs1.block = NULL then [refs0]
      else [refs0, refs1]
  | bv v => (List.range v.nref).map v.refAt

def sumLen (l : List BlockRef) : ℕ := (l.map BlockRef.length).sum

@[simp] theorem sumLen_nil : sumLen [] = 0 := rfl

@[simp] theorem sumLen_cons (r : BlockRef) (l : List BlockRef) :
    sumLen (r :: l) = r.length + sumLen l := by simp [sumLen]

@[simp] theorem sumLen_append (l l' : List BlockRef) :
    sumLen (l ++ l') = sumLen l + sumLen l' := by simp [sumLen]

/-- The circular array: between 3 and `capacity` references in a
power-of-two array, with their total length cached. -/
structure BigView.WF (v : BigView) : Prop where
  three_le : 3 ≤ v.nref
  nref_le : v.nref ≤ v.capacity
  pow : ∃ k, v.capacity = 2 ^ k
  start_lt : v.start < v.capacity
  nbytes_eq : v.nbytes = sumLen ((List.range v.nref).map v.refAt)

/-- Unused inline slots are reset, and the second is used only if the first is. -/
def SmallWF (refs0 refs1 : BlockRef) : Prop :=
  (refs0.block = NULL → refs0 = resetBlockRef ∧ refs1 = resetBlockRef) ∧
  (refs1.block = NULL → refs1 = resetBlockRef)

def ViewWF : IOBuf → Prop
  | sv refs0 refs1 => SmallWF refs0 refs1
  | bv v => v.WF

/-- **The representation invariant.** With `pos` it also says that no reference
is empty, which every operation but `appendv` guarantees. -/
structure WF (pos : Bool) (b : IOBuf) : Prop where
  view : b.ViewWF
  ref : ∀ r ∈ b.refs, r.block ≠ NULL ∧ (pos = true → 0 < r.length)

/-! ## Reading a well-formed view -/

theorem BigView.refs_eq_ring {v : BigView} (h : ∃ k, v.capacity = 2 ^ k) :
    (range v.nref).map v.refAt = Lib.ringList v.refs v.capacity v.start v.nref := by
  apply map_congr_left
  intro i _
  show v.refs ((v.start + i) &&& (v.capacity - 1)) = _
  rw [Lib.land_mask h]

theorem BigView.mask_eq {v : BigView} (h : ∃ k, v.capacity = 2 ^ k) (x : ℕ) :
    x &&& v.capMask = x % v.capacity := Lib.land_mask h x

@[simp] theorem refs_new : new.refs = [] := rfl

theorem wf_new {pos : Bool} : new.WF pos := ⟨⟨fun _ => ⟨rfl, rfl⟩, fun _ => rfl⟩, by simp⟩

theorem refNum_eq {b : IOBuf} (hb : b.ViewWF) : b.refNum = b.refs.length := by
  cases b with
  | bv v => simp [refNum, refs]
  | sv refs0 refs1 =>
    by_cases h0 : refs0.block = NULL
    · obtain ⟨-, rfl⟩ := hb.1 h0
      simp [refNum, refs, h0, resetBlockRef]
    · by_cases h1 : refs1.block = NULL <;> simp [refNum, refs, h0, h1]

theorem length_eq {b : IOBuf} (hb : b.ViewWF) : b.length = sumLen b.refs := by
  cases b with
  | bv v => exact hb.nbytes_eq
  | sv refs0 refs1 =>
    by_cases h0 : refs0.block = NULL
    · obtain ⟨rfl, rfl⟩ := hb.1 h0
      simp [length, refs, resetBlockRef]
    · by_cases h1 : refs1.block = NULL
      · obtain rfl := hb.2 h1
        simp [length, refs, h0, resetBlockRef]
      · simp [length, refs, h0, h1]

theorem empty_iff {b : IOBuf} (hb : b.WF true) : b.empty = true ↔ b.refs = [] := by
  cases b with
  | sv refs0 refs1 =>
    by_cases h0 : refs0.block = NULL
    · simp [empty, refs, h0]
    · by_cases h1 : refs1.block = NULL <;> simp [empty, refs, h0, h1]
  | bv v =>
    have hv : v.WF := hb.view
    have h3 := hv.three_le
    have hpos := (hb.ref (v.refAt 0) (mem_map.2 ⟨0, by simp; lia, rfl⟩)).2 rfl
    have hmem : v.refAt 0 ∈ (range v.nref).map v.refAt := mem_map.2 ⟨0, by simp; lia, rfl⟩
    have hle : (v.refAt 0).length ≤ sumLen ((range v.nref).map v.refAt) :=
      single_le_sum (by simp) _ (mem_map_of_mem hmem)
    have hne : v.nbytes ≠ 0 := by
      rw [hv.nbytes_eq]
      lia
    have hnref : v.nref ≠ 0 := by lia
    simp [empty, refs, hne, hnref]

theorem sumLen_of_empty {b : IOBuf} (hb : b.ViewWF) (h : b.empty = true) : sumLen b.refs = 0 := by
  cases b with
  | sv refs0 refs1 =>
    have h0 : refs0.block = NULL := by simpa [empty] using h
    simp [refs, h0]
  | bv v =>
    have h0 : v.nbytes = 0 := by simpa [empty] using h
    rw [← length_eq hb]
    exact h0

theorem frontRef_eq {b : IOBuf} {r : BlockRef} {l : List BlockRef} (hb : b.ViewWF)
    (h : b.refs = r :: l) : b.frontRef = r := by
  cases b with
  | sv refs0 refs1 =>
    by_cases h0 : refs0.block = NULL
    · simp [refs, h0] at h
    · by_cases h1 : refs1.block = NULL
      · simp only [refs, h0, h1, if_true, if_false, cons.injEq] at h
        exact h.1
      · simp only [refs, h0, h1, if_false, cons.injEq] at h
        exact h.1
  | bv v =>
    have hv : v.WF := hb
    have hz : (v.start + 0) &&& v.capMask = v.start := by
      rw [BigView.mask_eq hv.pow]
      exact Nat.mod_eq_of_lt hv.start_lt
    have hget := congrArg (fun l => l[0]?) h
    have hn : 0 < v.nref := by have := hv.three_le; lia
    simp only [refs, getElem?_map, getElem?_range hn, Option.map_some,
      getElem?_cons_zero, Option.some.injEq, BigView.refAt, hz] at hget
    exact hget

theorem backRef_eq {b : IOBuf} {r : BlockRef} {l : List BlockRef} (hb : b.ViewWF)
    (h : b.refs = l ++ [r]) : b.backRef = r := by
  have hlast := congrArg getLast? h
  rw [getLast?_concat] at hlast
  cases b with
  | sv refs0 refs1 =>
    by_cases h0 : refs0.block = NULL
    · simp [refs, h0] at hlast
    · by_cases h1 : refs1.block = NULL
      · simpa [refs, backRef, h0, h1] using hlast
      · simpa [refs, backRef, h0, h1] using hlast
  | bv v =>
    have hv : v.WF := hb
    obtain ⟨n, hn⟩ : ∃ n, v.nref = n + 1 := ⟨v.nref - 1, by have := hv.three_le; lia⟩
    simpa [refs, backRef, hn, range_succ] using hlast

theorem refAt_eq {b : IOBuf} {i : ℕ} (hb : b.ViewWF) (hi : i < b.refs.length) :
    b.refs[i]? = some (b.refAt i) := by
  cases b with
  | sv refs0 refs1 =>
    by_cases h0 : refs0.block = NULL
    · simp [refs, h0] at hi
    · by_cases h1 : refs1.block = NULL
      · obtain rfl : i = 0 := by simpa [refs, h0, h1] using hi
        simp [refs, h0, h1, refAt]
      · simp only [refs, h0, h1, if_false, length_cons, length_nil] at hi ⊢
        interval_cases i <;> simp [refAt]
  | bv v =>
    have hi' : i < v.nref := by simpa [refs] using hi
    simp [refs, hi', refAt]

/-! ## Pushing a reference -/

/-- What pushing does to the list: a reference that continues the last one is
merged into it. -/
def mergePush (l : List BlockRef) (r : BlockRef) : List BlockRef :=
  match l.getLast? with
  | some back => if back.mergeable r then l.dropLast ++ [back.grow r] else l ++ [r]
  | none => [r]

def merges (l : List BlockRef) (r : BlockRef) : Bool :=
  l.getLast?.any fun back => decide (back.mergeable r)

/-- What pushing does to the reference count: a pushed reference is a new one
unless it was merged, a moved one disappears if it was. -/
def pushHeap (move merged : Bool) (r : BlockRef) (h : Heap) : Heap :=
  if merged then (if move then h.decRef r.block else h)
  else (if move then h else h.incRef r.block)

@[simp] theorem mergePush_nil (r : BlockRef) : mergePush [] r = [r] := rfl

@[simp] theorem merges_nil (r : BlockRef) : merges [] r = false := rfl

@[simp] theorem mergePush_concat (l : List BlockRef) (back r : BlockRef) :
    mergePush (l ++ [back]) r =
      if back.mergeable r then l ++ [back.grow r] else l ++ [back, r] := by
  simp [mergePush]

@[simp] theorem merges_concat (l : List BlockRef) (back r : BlockRef) :
    merges (l ++ [back]) r = decide (back.mergeable r) := by
  simp [merges]

theorem sumLen_mergePush (l : List BlockRef) (r : BlockRef) :
    sumLen (mergePush l r) = sumLen l + r.length := by
  induction l using reverseRecOn with
  | nil => simp
  | append_singleton l back _ =>
    rw [mergePush_concat]
    split
    · simp [BlockRef.grow]
      lia
    · simp
      lia

/-- Every reference of the list after a push is an old one, the pushed one, or
an old one extended by it. -/
theorem mem_mergePush {l : List BlockRef} {r x : BlockRef} (h : x ∈ mergePush l r) :
    x ∈ l ∨ x = r ∨ ∃ back ∈ l, back.mergeable r ∧ x = back.grow r := by
  induction l using reverseRecOn with
  | nil => exact .inr (.inl (by simpa using h))
  | append_singleton l back _ =>
    rw [mergePush_concat] at h
    split at h
    next hm =>
      rcases mem_append.1 h with h | h
      · exact .inl (mem_append_left _ h)
      · rw [mem_singleton] at h
        exact .inr (.inr ⟨back, by simp, hm, h⟩)
    · simp only [mem_append, mem_cons, not_mem_nil, or_false] at h ⊢
      tauto

theorem refs_smallview {move : Bool} {r refs0 refs1 : BlockRef} {h : Heap}
    (hs : SmallWF refs0 refs1) (hr : r.block ≠ NULL) :
    (pushOrMoveBackRefToSmallview move r refs0 refs1 h).1.refs = mergePush (sv refs0 refs1).refs r ∧
      (pushOrMoveBackRefToSmallview move r refs0 refs1 h).2 =
        pushHeap move (merges (sv refs0 refs1).refs r) r h ∧
      (pushOrMoveBackRefToSmallview move r refs0 refs1 h).1.ViewWF := by
  by_cases h0 : refs0.block = NULL
  · obtain ⟨rfl, rfl⟩ := hs.1 h0
    simp [pushOrMoveBackRefToSmallview, refs, hr, pushHeap, ViewWF, SmallWF, resetBlockRef]
  by_cases h1 : refs1.block = NULL
  · obtain rfl := hs.2 h1
    have hl : (sv refs0 resetBlockRef).refs = [] ++ [refs0] := by
      simp [refs, h0, resetBlockRef]
    rw [hl, mergePush_concat, merges_concat]
    by_cases hm : refs0.mergeable r
    · simp [pushOrMoveBackRefToSmallview, h0, hm, refs, BlockRef.grow, pushHeap, ViewWF,
        SmallWF, resetBlockRef]
    · simp [pushOrMoveBackRefToSmallview, h0, h1, hm, hr, refs, pushHeap, ViewWF, SmallWF]
  · have hl : (sv refs0 refs1).refs = [refs0] ++ [refs1] := by simp [refs, h0, h1]
    rw [hl, mergePush_concat, merges_concat]
    by_cases hm : refs1.mergeable r
    · simp [pushOrMoveBackRefToSmallview, h0, h1, hm, refs, BlockRef.grow, pushHeap, ViewWF,
        SmallWF]
    · refine ⟨?_, ?_, ?_⟩
      · simp [pushOrMoveBackRefToSmallview, h0, h1, hm, refs, BigView.refAt,
          acquireBlockrefArray, range_succ, INITIAL_CAP]
      · simp [pushOrMoveBackRefToSmallview, h0, h1, hm, pushHeap]
      · simp only [pushOrMoveBackRefToSmallview, h0, h1, hm, if_false, ViewWF]
        refine ⟨le_refl _, by simp [BigView.capacity, INITIAL_CAP], ⟨5, rfl⟩,
          by simp [BigView.capacity], ?_⟩
        simp [range_succ, BigView.refAt, acquireBlockrefArray, INITIAL_CAP]
        lia

theorem map_acquireBlockrefArray {c : ℕ} {l : List BlockRef} (hc : ∃ k, c = 2 ^ k)
    (hl : l.length ≤ c) :
    (range l.length).map (fun i => acquireBlockrefArray l ((0 + i) &&& (c - 1))) = l := by
  apply ext_getElem (by simp)
  intro i h1 h2
  have hidx : (0 + i) &&& (c - 1) = i := by
    rw [Lib.land_mask hc, zero_add]
    exact Nat.mod_eq_of_lt (by lia)
  rw [getElem_map, getElem_range, hidx]
  simp [acquireBlockrefArray, h2]

namespace BigView

variable {v : BigView} {n : ℕ} {r : BlockRef}

section

variable (hc : ∃ k, v.capacity = 2 ^ k)
include hc

theorem setRefAt_refs :
    (v.setRefAt n r).refs = update v.refs ((v.start + n) % v.capacity) r := by
  simp [setRefAt, mask_eq hc]

theorem map_refAt_eq_ring (n : ℕ) :
    (range n).map v.refAt = Lib.ringList v.refs v.capacity v.start n :=
  refs_eq_ring (v := { v with nref := n }) hc

theorem map_setRefAt (hn : n < v.capacity) :
    (range (n + 1)).map (v.setRefAt n r).refAt = (range n).map v.refAt ++ [r] := by
  have hc' : ∃ k, (v.setRefAt n r).capacity = 2 ^ k := hc
  rw [map_refAt_eq_ring hc', map_refAt_eq_ring hc, setRefAt_refs hc]
  exact Lib.ringList_push hn

end

end BigView

theorem refs_bigview {move : Bool} {r : BlockRef} {v : BigView} {h : Heap} (hv : v.WF) :
    (pushOrMoveBackRefToBigview move r v h).1.refs = mergePush (bv v).refs r ∧
      (pushOrMoveBackRefToBigview move r v h).2 = pushHeap move (merges (bv v).refs r) r h ∧
      (pushOrMoveBackRefToBigview move r v h).1.ViewWF := by
  obtain ⟨n, hn⟩ : ∃ n, v.nref = n + 1 := ⟨v.nref - 1, by have := hv.three_le; lia⟩
  have h3 := hv.three_le
  have hcap := hv.nref_le
  have hlist : (bv v).refs = (range n).map v.refAt ++ [v.refAt n] := by
    simp [refs, hn, range_succ]
  -- Whatever branch is taken, the cached length follows the list.
  have hbytes : v.nbytes + r.length = sumLen (mergePush (bv v).refs r) := by
    rw [sumLen_mergePush, hv.nbytes_eq]
    rfl
  have hmerge : merges (bv v).refs r = decide ((v.refAt (v.nref - 1)).mergeable r) := by
    rw [hlist, merges_concat, hn]
    rfl
  by_cases hm : (v.refAt (v.nref - 1)).mergeable r
  · have hpush : (range v.nref).map
        (v.setRefAt (v.nref - 1) ((v.refAt (v.nref - 1)).grow r)).refAt =
        mergePush (bv v).refs r := by
      have hset := BigView.map_setRefAt (r := (v.refAt n).grow r) hv.pow (by lia : n < v.capacity)
      simp only [hn, Nat.add_sub_cancel] at hm ⊢
      rw [hset, hlist, mergePush_concat, if_pos hm]
    simp only [pushOrMoveBackRefToBigview, if_pos hm, hmerge, pushHeap, decide_eq_true hm, if_true]
    exact ⟨hpush, trivial, h3, hcap, hv.pow, hv.start_lt, hbytes.trans (congrArg sumLen hpush.symm)⟩
  have happend : mergePush (bv v).refs r = (range v.nref).map v.refAt ++ [r] := by
    simp only [hn, Nat.add_sub_cancel] at hm
    rw [hlist, mergePush_concat, if_neg hm, hn, range_succ]
    simp
  by_cases hroom : v.nref ≠ v.capacity
  · have hpush : (range (v.nref + 1)).map (v.setRefAt v.nref r).refAt =
        mergePush (bv v).refs r := by
      rw [BigView.map_setRefAt hv.pow (by lia), happend]
    simp only [pushOrMoveBackRefToBigview, if_pos hroom, hmerge, pushHeap, hm, decide_false,
      Bool.false_eq_true, if_false]
    refine ⟨hpush, trivial, ?_, ?_, hv.pow, hv.start_lt, hbytes.trans (congrArg sumLen hpush.symm)⟩
    · show 3 ≤ v.nref + 1
      lia
    · show v.nref + 1 ≤ v.capacity
      lia
  · have hpow : ∃ k, v.capacity * 2 = 2 ^ k := by
      obtain ⟨k, hk⟩ := hv.pow
      exact ⟨k + 1, by rw [hk, pow_succ]⟩
    have hpush := map_acquireBlockrefArray (l := (range v.nref).map v.refAt ++ [r]) hpow
      (by simp; lia)
    rw [← happend] at hpush
    have hlen : (mergePush (bv v).refs r).length = v.nref + 1 := by rw [happend]; simp
    rw [hlen] at hpush
    have hcap2 : v.capacity * 2 - 1 + 1 = v.capacity * 2 := by lia
    simp only [pushOrMoveBackRefToBigview, if_neg hroom, hmerge, pushHeap, hm, decide_false,
      Bool.false_eq_true, if_false, ← happend]
    refine ⟨hpush, trivial, ?_, ?_, ?_, ?_, hbytes.trans (congrArg sumLen hpush.symm)⟩
    · show 3 ≤ v.nref + 1
      lia
    · show v.nref + 1 ≤ v.capacity * 2 - 1 + 1
      lia
    · show ∃ k, v.capacity * 2 - 1 + 1 = 2 ^ k
      rw [hcap2]
      exact hpow
    · exact Nat.succ_pos _

section Push

variable {pos : Bool} (move : Bool) {r : BlockRef} {b : IOBuf} {h : Heap}

theorem refs_pushOrMoveBackRef (hb : b.WF pos) (hr : r.block ≠ NULL) :
    (pushOrMoveBackRef move r b h).1.refs = mergePush b.refs r := by
  cases b with
  | sv refs0 refs1 => exact (refs_smallview hb.view hr).1
  | bv v => exact (refs_bigview hb.view).1

theorem heap_pushOrMoveBackRef (hb : b.WF pos) (hr : r.block ≠ NULL) :
    (pushOrMoveBackRef move r b h).2 = pushHeap move (merges b.refs r) r h := by
  cases b with
  | sv refs0 refs1 => exact (refs_smallview hb.view hr).2.1
  | bv v => exact (refs_bigview hb.view).2.1

theorem wf_pushOrMoveBackRef (hb : b.WF pos) (hr : r.block ≠ NULL)
    (hl : pos = true → 0 < r.length) : (pushOrMoveBackRef move r b h).1.WF pos := by
  constructor
  · cases b with
    | sv refs0 refs1 => exact (refs_smallview hb.view hr).2.2
    | bv v => exact (refs_bigview hb.view).2.2
  · intro x hx
    rw [refs_pushOrMoveBackRef move hb hr] at hx
    rcases mem_mergePush hx with hx | rfl | ⟨back, hback, -, rfl⟩
    · exact hb.ref x hx
    · exact ⟨hr, hl⟩
    · exact ⟨(hb.ref back hback).1, fun hp => Nat.add_pos_right _ (hl hp)⟩

end Push

/-! ## Taking references off either end -/

section Pop

variable {pos : Bool} (moveout : Bool) {r : BlockRef} {l : List BlockRef} {b : IOBuf} {h : Heap}

/-- Taking the front reference: the list loses its head, the reference its
count unless it is moved out. -/
theorem popOrMoveoutFrontRef_spec (hb : b.WF pos) (hl : b.refs = r :: l) :
    (popOrMoveoutFrontRef moveout b h).1.refs = l ∧
      (popOrMoveoutFrontRef moveout b h).2 = (if moveout then h else h.decRef r.block) ∧
      (popOrMoveoutFrontRef moveout b h).1.WF pos := by
  have href : ∀ x ∈ l, x.block ≠ NULL ∧ (pos = true → 0 < x.length) := fun x hx =>
    hb.ref x (by rw [hl]; exact mem_cons_of_mem _ hx)
  suffices hmain : (popOrMoveoutFrontRef moveout b h).1.refs = l ∧
      (popOrMoveoutFrontRef moveout b h).2 = (if moveout then h else h.decRef r.block) ∧
      (popOrMoveoutFrontRef moveout b h).1.ViewWF from
    ⟨hmain.1, hmain.2.1, hmain.2.2, by rw [hmain.1]; exact href⟩
  cases b with
  | sv refs0 refs1 =>
    have hs : SmallWF refs0 refs1 := hb.view
    by_cases h0 : refs0.block = NULL
    · simp [refs, h0] at hl
    by_cases h1 : refs1.block = NULL
    · obtain rfl := hs.2 h1
      simp only [refs, h0, h1, if_true, if_false, cons.injEq] at hl
      obtain ⟨rfl, rfl⟩ := hl
      simp [popOrMoveoutFrontRef, h0, refs, ViewWF, SmallWF, resetBlockRef]
    · simp only [refs, h0, h1, if_false, cons.injEq] at hl
      obtain ⟨rfl, rfl⟩ := hl
      simp [popOrMoveoutFrontRef, h0, h1, refs, ViewWF, SmallWF, resetBlockRef]
  | bv v =>
    have hv : v.WF := hb.view
    have hfront : v.refs v.start = r := frontRef_eq hb.view hl
    obtain ⟨n, hn⟩ : ∃ n, v.nref = n + 1 := ⟨v.nref - 1, by have := hv.three_le; lia⟩
    have hring : Lib.ringList v.refs v.capacity (v.start + 1) n = l := by
      have hcons := BigView.map_refAt_eq_ring hv.pow v.nref
      rw [show (range v.nref).map v.refAt = r :: l from hl, hn, Lib.ringList_cons] at hcons
      exact (cons.inj hcons).2.symm
    have hsum : v.nbytes = r.length + sumLen l := by
      rw [hv.nbytes_eq, show (range v.nref).map v.refAt = r :: l from hl, sumLen_cons]
    by_cases hbig : 2 < v.nref - 1
    · have hrefs : (range (v.nref - 1)).map
          ({ v with start := (v.start + 1) &&& v.capMask } : BigView).refAt = l := by
        have hwin := BigView.map_refAt_eq_ring
          (v := { v with start := (v.start + 1) &&& v.capMask }) hv.pow (v.nref - 1)
        rw [hwin, BigView.mask_eq hv.pow, ← hring, hn]
        exact Lib.ringList_mod
      simp only [popOrMoveoutFrontRef, if_pos hbig, hfront]
      refine ⟨hrefs, trivial, ?_, ?_, hv.pow, ?_, ?_⟩
      · show 3 ≤ v.nref - 1
        lia
      · show v.nref - 1 ≤ v.capacity
        have := hv.nref_le
        lia
      · rw [BigView.mask_eq hv.pow]
        exact Nat.mod_lt _ (Nat.succ_pos _)
      · show v.nbytes - r.length = sumLen ((range (v.nref - 1)).map _)
        refine Eq.trans ?_ (congrArg sumLen hrefs.symm)
        lia
    · obtain rfl : n = 2 := by have := hv.three_le; lia
      have htwo : l = [v.refs ((v.start + 1) &&& v.capMask),
          v.refs ((v.start + 2) &&& v.capMask)] := by
        rw [← hring, BigView.mask_eq hv.pow, BigView.mask_eq hv.pow]
        simp [Lib.ringList, range_succ]
      obtain ⟨h1, h2⟩ : (v.refs ((v.start + 1) &&& v.capMask)).block ≠ NULL ∧
          (v.refs ((v.start + 2) &&& v.capMask)).block ≠ NULL :=
        ⟨(href _ (by rw [htwo]; simp)).1, (href _ (by rw [htwo]; simp)).1⟩
      simp only [popOrMoveoutFrontRef, if_neg hbig, hfront]
      refine ⟨?_, trivial, ?_⟩
      · rw [htwo]
        simp [refs, h1, h2]
      · exact ⟨fun h => absurd h h1, fun h => absurd h h2⟩

theorem popBackRef_spec (hb : b.WF pos) (hl : b.refs = l ++ [r]) :
    (popBackRef b h).1.refs = l ∧ (popBackRef b h).2 = h.decRef r.block ∧
      (popBackRef b h).1.WF pos := by
  have href : ∀ x ∈ l, x.block ≠ NULL ∧ (pos = true → 0 < x.length) := fun x hx =>
    hb.ref x (by rw [hl]; exact mem_append_left _ hx)
  suffices hmain : (popBackRef b h).1.refs = l ∧ (popBackRef b h).2 = h.decRef r.block ∧
      (popBackRef b h).1.ViewWF from
    ⟨hmain.1, hmain.2.1, hmain.2.2, by rw [hmain.1]; exact href⟩
  cases b with
  | sv refs0 refs1 =>
    have hs : SmallWF refs0 refs1 := hb.view
    by_cases h0 : refs0.block = NULL
    · simp [refs, h0] at hl
    by_cases h1 : refs1.block = NULL
    · obtain rfl := hs.2 h1
      have hl' : [] ++ [refs0] = l ++ [r] := by simpa [refs, h0, h1] using hl
      obtain ⟨rfl, hr⟩ := append_inj' hl' rfl
      obtain rfl : refs0 = r := by simpa using hr
      simp [popBackRef, h0, refs, ViewWF, SmallWF, resetBlockRef]
    · have hl' : [refs0] ++ [refs1] = l ++ [r] := by simpa [refs, h0, h1] using hl
      obtain ⟨rfl, hr⟩ := append_inj' hl' rfl
      obtain rfl : refs1 = r := by simpa using hr
      simp [popBackRef, h0, h1, refs, ViewWF, SmallWF, resetBlockRef]
  | bv v =>
    have hv : v.WF := hb.view
    obtain ⟨n, hn⟩ : ∃ n, v.nref = n + 1 := ⟨v.nref - 1, by have := hv.three_le; lia⟩
    have hsplit : (range n).map v.refAt ++ [v.refAt n] = l ++ [r] := by
      rw [← hl]
      simp [refs, hn, range_succ]
    obtain ⟨hinit, hlast⟩ := append_inj' hsplit rfl
    have hback : v.refs ((v.start + v.nref - 1) &&& v.capMask) = r := by
      have hr : v.refAt n = r := by simpa using hlast
      rw [← hr, BigView.refAt, hn]
      rfl
    have hsum : v.nbytes = sumLen l + r.length := by
      rw [hv.nbytes_eq, show (range v.nref).map v.refAt = l ++ [r] from hl]
      simp
    by_cases hbig : 2 < v.nref - 1
    · simp only [popBackRef, if_pos hbig, hback]
      refine ⟨?_, trivial, ?_, ?_, hv.pow, hv.start_lt, ?_⟩
      · rw [hn]
        exact hinit
      · show 3 ≤ v.nref - 1
        lia
      · show v.nref - 1 ≤ v.capacity
        have := hv.nref_le
        lia
      · show v.nbytes - r.length = sumLen ((range (v.nref - 1)).map v.refAt)
        rw [hn, Nat.add_sub_cancel, hinit]
        lia
    · obtain rfl : n = 2 := by have := hv.three_le; lia
      have hz : v.refAt 0 = v.refs v.start := by
        rw [BigView.refAt, BigView.mask_eq hv.pow]
        exact congrArg v.refs (Nat.mod_eq_of_lt hv.start_lt)
      have htwo : l = [v.refs v.start, v.refs ((v.start + 1) &&& v.capMask)] := by
        rw [← hinit, ← hz]
        rfl
      obtain ⟨h1, h2⟩ : (v.refs v.start).block ≠ NULL ∧
          (v.refs ((v.start + 1) &&& v.capMask)).block ≠ NULL :=
        ⟨(href _ (by rw [htwo]; simp)).1, (href _ (by rw [htwo]; simp)).1⟩
      simp only [popBackRef, if_neg hbig, hback]
      refine ⟨?_, trivial, ?_⟩
      · rw [htwo]
        simp [refs, h1, h2]
      · exact ⟨fun h => absurd h h1, fun h => absurd h h2⟩

end Pop

/-! ## Shortening the reference at either end -/

section Trim

variable {pos : Bool} {n : ℕ} {r : BlockRef} (r' : BlockRef) {l : List BlockRef} {b : IOBuf}

theorem trimFront_spec (hb : b.WF pos) (hl : b.refs = r :: l) (hblock : r'.block ≠ NULL)
    (hlen : r'.length + n = r.length) (hpos : 0 < r'.length) :
    ((b.setFrontRef r').subNbytes n).refs = r' :: l ∧ ((b.setFrontRef r').subNbytes n).WF pos := by
  have href : ∀ x ∈ r' :: l, x.block ≠ NULL ∧ (pos = true → 0 < x.length) := by
    intro x hx
    rcases mem_cons.1 hx with rfl | hx
    · exact ⟨hblock, fun _ => hpos⟩
    · exact hb.ref x (by rw [hl]; exact mem_cons_of_mem _ hx)
  suffices hmain : ((b.setFrontRef r').subNbytes n).refs = r' :: l ∧
      ((b.setFrontRef r').subNbytes n).ViewWF from
    ⟨hmain.1, hmain.2, by rw [hmain.1]; exact href⟩
  cases b with
  | sv refs0 refs1 =>
    have hs : SmallWF refs0 refs1 := hb.view
    by_cases h0 : refs0.block = NULL
    · simp [refs, h0] at hl
    by_cases h1 : refs1.block = NULL
    · simp only [refs, h0, h1, if_true, if_false, cons.injEq] at hl
      obtain ⟨rfl, rfl⟩ := hl
      simp [setFrontRef, subNbytes, refs, hblock, h1, ViewWF, SmallWF]
      exact hs.2 h1
    · simp only [refs, h0, h1, if_false, cons.injEq] at hl
      obtain ⟨rfl, rfl⟩ := hl
      simp [setFrontRef, subNbytes, refs, hblock, h1, ViewWF, SmallWF]
  | bv v =>
    have hv : v.WF := hb.view
    have hn : 0 < v.nref := by have := hv.three_le; lia
    have hset : (bv { v with refs := update v.refs v.start r' }).refs = r' :: l := by
      have hidx : v.start = (v.start + 0) % v.capacity := (Nat.mod_eq_of_lt hv.start_lt).symm
      have hring : Lib.ringList (update v.refs ((v.start + 0) % v.capacity) r')
          v.capacity v.start v.nref = (Lib.ringList v.refs v.capacity v.start v.nref).set 0 r' :=
        Lib.ringList_update hn hv.nref_le
      rw [← hidx] at hring
      have h1 := BigView.refs_eq_ring (v := { v with refs := update v.refs v.start r' }) hv.pow
      have h2 := BigView.refs_eq_ring hv.pow
      rw [← h2, show (range v.nref).map v.refAt = r :: l from hl, set_cons_zero] at hring
      exact h1.trans hring
    refine ⟨hset, hv.three_le, hv.nref_le, hv.pow, hv.start_lt, ?_⟩
    have hsum : v.nbytes = r.length + sumLen l := by
      rw [hv.nbytes_eq, show (range v.nref).map v.refAt = r :: l from hl, sumLen_cons]
    refine Eq.trans ?_ (congrArg sumLen hset.symm)
    show v.nbytes - n = sumLen (r' :: l)
    rw [sumLen_cons]
    lia

theorem trimBack_spec (hb : b.WF pos) (hl : b.refs = l ++ [r]) (hblock : r'.block ≠ NULL)
    (hlen : r'.length + n = r.length) (hpos : 0 < r'.length) :
    ((b.setBackRef r').subNbytes n).refs = l ++ [r'] ∧ ((b.setBackRef r').subNbytes n).WF pos := by
  have href : ∀ x ∈ l ++ [r'], x.block ≠ NULL ∧ (pos = true → 0 < x.length) := by
    intro x hx
    rcases mem_append.1 hx with hx | hx
    · exact hb.ref x (by rw [hl]; exact mem_append_left _ hx)
    · rw [mem_singleton.1 hx]
      exact ⟨hblock, fun _ => hpos⟩
  suffices hmain : ((b.setBackRef r').subNbytes n).refs = l ++ [r'] ∧
      ((b.setBackRef r').subNbytes n).ViewWF from
    ⟨hmain.1, hmain.2, by rw [hmain.1]; exact href⟩
  cases b with
  | sv refs0 refs1 =>
    have hs : SmallWF refs0 refs1 := hb.view
    by_cases h0 : refs0.block = NULL
    · simp [refs, h0] at hl
    by_cases h1 : refs1.block = NULL
    · obtain rfl := hs.2 h1
      have hl' : [] ++ [refs0] = l ++ [r] := by simpa [refs, h0, h1] using hl
      obtain ⟨rfl, hr⟩ := append_inj' hl' rfl
      simp [setBackRef, subNbytes, refs, hblock, h1, ViewWF, SmallWF]
    · have hl' : [refs0] ++ [refs1] = l ++ [r] := by simpa [refs, h0, h1] using hl
      obtain ⟨rfl, hr⟩ := append_inj' hl' rfl
      simp [setBackRef, subNbytes, refs, hblock, h0, h1, ViewWF, SmallWF]
  | bv v =>
    have hv : v.WF := hb.view
    obtain ⟨m, hm⟩ : ∃ m, v.nref = m + 1 := ⟨v.nref - 1, by have := hv.three_le; lia⟩
    have hsplit : (range m).map v.refAt ++ [v.refAt m] = l ++ [r] := by
      rw [← hl]
      simp [refs, hm, range_succ]
    obtain ⟨hinit, -⟩ := append_inj' hsplit rfl
    have hset : (bv (v.setRefAt (v.nref - 1) r')).refs = l ++ [r'] := by
      have hpush := BigView.map_setRefAt (r := r') hv.pow
        (by have := hv.nref_le; lia : m < v.capacity)
      rw [hinit] at hpush
      show (range v.nref).map (v.setRefAt (v.nref - 1) r').refAt = l ++ [r']
      rw [hm]
      exact hpush
    refine ⟨hset, hv.three_le, hv.nref_le, hv.pow, hv.start_lt, ?_⟩
    have hsum : v.nbytes = sumLen l + r.length := by
      rw [hv.nbytes_eq, show (range v.nref).map v.refAt = l ++ [r] from hl]
      simp
    refine Eq.trans ?_ (congrArg sumLen hset.symm)
    show v.nbytes - n = sumLen (l ++ [r'])
    simp only [sumLen_append, sumLen_cons, sumLen_nil]
    lia

end Trim

end IOBuf

end Eabase
