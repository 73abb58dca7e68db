import Mathlib.Data.Finset.Prod
import Eabase.Lib.Chain
import Eabase.Lib.Contents
import Eabase.Lib.Machine

/-!
# The list of ABA-free ids

`fiber/list_of_abafree_id.h` as `fiber/session.cc` uses it: identifiers in a
list of blocks of 63 positions, with a cursor. An id that becomes invalid stays
where it is until `add` comes by and takes its position. When four positions in
a row are taken by valid ids, `add` splits the block at the cursor and scatters
the four over what the split has emptied.

A position is a block address with an index, and the memory a function on
positions, so that the pointers that `add` saves before the split are positions
too. Which ids are valid is given with each call.
-/

namespace Eabase.Fiber.ListOfABAFreeId

open Lib Function List

variable {Id : Type*} [DecidableEq Id]

/-! ## The list -/

/-- `IdTraits::BLOCK_SIZE`. -/
def blockSize : ℕ := 63

/-- `IdTraits::MAX_ENTRIES`. -/
def maxEntries : ℕ := 100000

def NULL : ℕ := 0

/-- The address of `_head_block`. -/
def HEAD : ℕ := 1

/-- What `add` returns. -/
inductive Rc where
  | ok
  | eagain
  | enomem
  deriving DecidableEq

/-- `ListOfABAFreeId`: the ids and the links of the blocks by their addresses, and the cursor. -/
structure IdList (Id : Type*) where
  ids : ℕ × ℕ → Id
  next : ℕ → ℕ
  curBlock : ℕ
  curIndex : ℕ
  nblock : ℕ

def IdList.new (idInit : Id) : IdList Id where
  ids _ := idInit
  next _ := NULL
  curBlock := HEAD
  curIndex := 0
  nblock := 1

/-- `_cur_block->ids + _cur_index`. -/
def IdList.pos (s : IdList Id) : ℕ × ℕ :=
  (s.curBlock, s.curIndex)

/-- `*pos = id`. -/
def IdList.store (s : IdList Id) (pos : ℕ × ℕ) (id : Id) : IdList Id :=
  { s with ids := update s.ids pos id }

/-- The block that the cursor goes to behind the current one. -/
def IdList.nextBlock (s : IdList Id) : ℕ :=
  if s.next s.curBlock ≠ NULL then s.next s.curBlock else HEAD

def IdList.forwardIndex (s : IdList Id) : IdList Id :=
  if s.curIndex + 1 ≥ blockSize then { s with curIndex := 0, curBlock := s.nextBlock }
  else { s with curIndex := s.curIndex + 1 }

def Valid (idInit : Id) (exist : Id → Bool) (id : Id) : Prop :=
  id ≠ idInit ∧ exist id = true

instance (idInit : Id) (exist : Id → Bool) : DecidablePred (Valid idInit exist) :=
  fun _ => inferInstanceAs (Decidable (_ ∧ _))

/-- The scan of at most `n` positions: the id is stored, or the positions are saved. -/
def scan (idInit : Id) (exist : Id → Bool) (id : Id) :
    ℕ → IdList Id → List (ℕ × ℕ) → IdList Id × Option (List (ℕ × ℕ))
  | 0, s, saved => (s, some saved)
  | n + 1, s, saved =>
    if Valid idInit exist (s.ids s.pos) then
      scan idInit exist id n s.forwardIndex (saved ++ [s.pos])
    else (s.forwardIndex.store s.pos id, none)

/-- The new block takes what stands from the cursor on, and is linked in behind the current
block. -/
def IdList.split (idInit : Id) (s : IdList Id) : IdList Id :=
  let newBlock := s.nblock + 1
  { s with
    nblock := s.nblock + 1
    ids := fun p =>
      if p.1 = newBlock then if p.2 < s.curIndex then idInit else s.ids (s.curBlock, p.2)
      else if p.1 = s.curBlock ∧ s.curIndex ≤ p.2 then idInit
      else s.ids p
    next := update (update s.next newBlock (s.next s.curBlock)) s.curBlock newBlock }

/-- `*dst = *src`. -/
def IdList.copy (s : IdList Id) (dst src : ℕ × ℕ) : IdList Id :=
  s.store dst (s.ids src)

/-- The conflict identifiers are scattered, and `id` is stored behind them. -/
def IdList.scatter (idInit : Id) (s : IdList Id) (saved : List (ℕ × ℕ)) (id : Id) : IdList Id :=
  let saved1 := saved.getD 1 s.pos
  let saved2 := saved.getD 2 s.pos
  let saved3 := saved.getD 3 s.pos
  let s := ((s.copy s.pos saved2).copy saved2 saved1).store saved1 idInit
  let s := s.forwardIndex.forwardIndex
  let s := (s.copy s.pos saved3).store saved3 idInit
  let s := s.forwardIndex
  (s.store s.pos id).forwardIndex

/-- `add`; `alloc` tells whether there is memory for a new block. -/
def IdList.add (idInit : Id) (exist : Id → Bool) (s : IdList Id) (id : Id) (alloc : Bool) :
    IdList Id × Rc :=
  match scan idInit exist id 4 s [] with
  | (s, none) => (s, .ok)
  | (s, some saved) =>
    if s.nblock * blockSize > maxEntries then (s, .eagain)
    else if alloc = false then (s, .enomem)
    else ((s.split idInit).scatter idInit saved id, .ok)

/-! ### `apply`

The function gets a reference to the id, so that it may overwrite it, and may make ids invalid: `ω`
is what it works on, and `exist` is asked again at each position. -/

section Apply

variable {ω : Type*} (idInit : Id) (exist : ω → Id → Bool) (fn : Id → ω → Id × ω)

/-- The list, what `fn` works on, and the ids that `fn` was called with so far. -/
structure ApplyState (Id ω : Type*) where
  ids : ℕ × ℕ → Id
  world : ω
  calls : List Id

def applyAt (a : ApplyState Id ω) (pos : ℕ × ℕ) : ApplyState Id ω :=
  if Valid idInit (exist a.world) (a.ids pos) then
    { ids := update a.ids pos (fn (a.ids pos) a.world).1
      world := (fn (a.ids pos) a.world).2
      calls := a.calls ++ [a.ids pos] }
  else a

def applyBlock (a : ApplyState Id ω) (p : ℕ) : ApplyState Id ω :=
  (List.range blockSize).foldl (fun a i => applyAt idInit exist fn a (p, i)) a

def applyFrom (next : ℕ → ℕ) : ℕ → ℕ → ApplyState Id ω → ApplyState Id ω
  | 0, _, a => a
  | fuel + 1, p, a =>
    if p = NULL then a else applyFrom next fuel (next p) (applyBlock idInit exist fn a p)

/-- `apply(fn)`. -/
def IdList.apply (s : IdList Id) (w : ω) : ApplyState Id ω :=
  applyFrom idInit exist fn s.next s.nblock HEAD { ids := s.ids, world := w, calls := [] }

end Apply

/-! ## What is stored -/

def IdList.blocks (s : IdList Id) : List ℕ :=
  walk s.next NULL s.nblock HEAD

/-- All positions, in the order of `apply`. -/
def IdList.positions (s : IdList Id) : List (ℕ × ℕ) :=
  s.blocks ×ˢ List.range blockSize

/-- The ids at the positions that are in use, with repetition. -/
def IdList.stored (idInit : Id) (exist : Id → Bool) (s : IdList Id) : Multiset Id :=
  ((s.positions.map s.ids : List Id) : Multiset Id).filter (Valid idInit exist)

/-! ## The cursor -/

open IdList

/-- The list with the cursor moved `i` positions ahead, at most a block's length. -/
def IdList.ahead (s : IdList Id) (i : ℕ) : IdList Id :=
  if s.curIndex + i < blockSize then { s with curIndex := s.curIndex + i }
  else { s with curBlock := s.nextBlock, curIndex := s.curIndex + i - blockSize }

section Cursor

variable {s : IdList Id} {i : ℕ}

section

omit [DecidableEq Id]

theorem iterate_forwardIndex (h : s.curIndex < blockSize) (hi : i ≤ blockSize) :
    forwardIndex^[i] s = s.ahead i := by
  induction i with
  | zero =>
    rw [ahead, if_pos (by simpa using h)]
    rfl
  | succ i ih =>
    rw [Function.iterate_succ_apply', ih (by lia)]
    unfold ahead
    by_cases hlt : s.curIndex + i < blockSize
    · rw [if_pos hlt]
      by_cases hlt' : s.curIndex + (i + 1) < blockSize
      · rw [if_pos hlt', forwardIndex, if_neg (by simp only; lia)]
        rfl
      · rw [if_neg hlt', forwardIndex, if_pos (by simp only; lia)]
        have hwrap : s.curIndex + (i + 1) - blockSize = 0 := by lia
        rw [hwrap]
        rfl
    · rw [if_neg hlt, if_neg (by lia), forwardIndex, if_neg (by simp only; lia)]
      have hstep : s.curIndex + i - blockSize + 1 = s.curIndex + (i + 1) - blockSize := by lia
      simp only [hstep]

@[simp] theorem ahead_ids : (s.ahead i).ids = s.ids := by
  unfold ahead
  split <;> rfl

@[simp] theorem ahead_next : (s.ahead i).next = s.next := by
  unfold ahead
  split <;> rfl

@[simp] theorem ahead_nblock : (s.ahead i).nblock = s.nblock := by
  unfold ahead
  split <;> rfl

end

/-! ## The invariant -/

/-- The blocks are linked from the head on, the cursor is on one of their positions, and the
addresses beyond `nblock` are free. -/
structure Linked (s : IdList Id) (l : List ℕ) : Prop where
  chain : Chain s.next NULL HEAD l
  length : l.length = s.nblock
  fresh : ∀ b ∈ l, b ≤ s.nblock
  cur : s.curBlock ∈ l
  index : s.curIndex < blockSize

/-- The positions of the blocks `l`. -/
def cells (l : List ℕ) : Finset (ℕ × ℕ) :=
  l.toFinset ×ˢ Finset.range blockSize

variable {l : List ℕ} {idInit : Id} {exist : Id → Bool} {p : ℕ × ℕ} {id : Id}

@[simp] theorem mem_cells : p ∈ cells l ↔ p.1 ∈ l ∧ p.2 < blockSize := by
  simp [cells]

section

variable (h : Linked s l)
include h

omit [DecidableEq Id] in
theorem Linked.blocks : s.blocks = l :=
  h.chain.walk h.length.le

theorem Linked.stored :
    s.stored idInit exist = (contents s.ids (cells l)).filter (Valid idInit exist) := by
  have hcells : ((l ×ˢ range blockSize : List (ℕ × ℕ)) : Multiset (ℕ × ℕ)) = (cells l).val := by
    apply (Multiset.Nodup.ext ?_ (cells l).nodup).2
    · intro p
      rw [Finset.mem_val, mem_cells, Multiset.mem_coe, mem_product, mem_range]
    · exact h.chain.nodup.product nodup_range
  rw [IdList.stored, IdList.positions, h.blocks, contents, ← hcells]
  rfl

section

omit [DecidableEq Id]

theorem Linked.head_mem : HEAD ∈ l := by
  cases hl : l with
  | nil =>
    have := h.cur
    rw [hl] at this
    cases this
  | cons b l' =>
    have hc := h.chain
    rw [hl] at hc
    obtain ⟨hb, -, -⟩ := chain_cons.1 hc
    rw [hb]
    exact mem_cons_self

theorem Linked.nextBlock_mem : s.nextBlock ∈ l := by
  unfold nextBlock
  split
  next hn =>
    exact h.chain.next_mem h.cur hn
  · exact h.head_mem

theorem Linked.ahead (hi : i ≤ blockSize) : Linked (s.ahead i) l := by
  have hindex := h.index
  refine ⟨by simpa using h.chain, by simpa using h.length, by simpa using h.fresh, ?_, ?_⟩
  · unfold IdList.ahead
    split
    · exact h.cur
    · exact h.nextBlock_mem
  · unfold IdList.ahead
    split
    · assumption
    · show s.curIndex + i - blockSize < blockSize
      lia

theorem Linked.pos_mem : s.pos ∈ cells l :=
  mem_cells.2 ⟨h.cur, h.index⟩

theorem Linked.store : Linked (s.store p id) l :=
  ⟨h.chain, h.length, h.fresh, h.cur, h.index⟩

end

theorem Linked.stored_store (hp : p ∈ cells l)
    (hfree : ¬ Valid idInit exist (s.ids p)) :
    (s.store p id).stored idInit exist =
      s.stored idInit exist + ({id} : Multiset Id).filter (Valid idInit exist) := by
  rw [h.store.stored, h.stored, ← Multiset.filter_add]
  have hw := congrArg (Multiset.filter (Valid idInit exist)) (contents_update (f := s.ids) (v := id) hp)
  rw [Multiset.filter_add, Multiset.filter_singleton, if_neg hfree] at hw
  exact (add_zero _).symm.trans hw

end

omit [DecidableEq Id] in
theorem new_linked (idInit : Id) : Linked (new idInit) [HEAD] where
  chain := chain_cons.mpr ⟨rfl, by decide, chain_nil.mpr rfl⟩
  length := rfl
  fresh b hb := by
    rw [mem_singleton] at hb
    exact hb.le
  cur := mem_singleton_self _
  index := Nat.zero_lt_succ 62

/-! ## The scan -/

/-- What a scan finds: a position that is not in use, or `n` positions that are. -/
theorem scan_cases (idInit : Id) (exist : Id → Bool) (id : Id) (h : s.curIndex < blockSize) (n : ℕ)
    (saved : List (ℕ × ℕ)) (hi : i + n ≤ blockSize) :
    (∃ j < n, ¬ Valid idInit exist (s.ids (s.ahead (i + j)).pos) ∧
      scan idInit exist id n (s.ahead i) saved =
        ((s.ahead (i + j + 1)).store (s.ahead (i + j)).pos id, none)) ∨
    scan idInit exist id n (s.ahead i) saved =
      (s.ahead (i + n), some (saved ++ (range n).map fun j => (s.ahead (i + j)).pos)) := by
  induction n generalizing i saved with
  | zero =>
    right
    simp [scan]
  | succ n ih =>
    have hstep : (s.ahead i).forwardIndex = s.ahead (i + 1) := by
      rw [← iterate_forwardIndex h (by lia), ← iterate_forwardIndex h (by lia),
        Function.iterate_succ_apply']
    rw [scan, hstep, ahead_ids]
    by_cases hv : Valid idInit exist (s.ids (s.ahead i).pos)
    · rw [if_pos hv]
      rcases ih (i := i + 1) (saved ++ [(s.ahead i).pos]) (by lia) with ⟨j, hj, hfree, heq⟩ | heq
      · left
        refine ⟨j + 1, by lia, ?_, ?_⟩
        · rwa [show i + (j + 1) = i + 1 + j by lia]
        · rw [heq]
          rw [show i + (j + 1) = i + 1 + j by lia]
      · right
        rw [heq, range_succ_eq_map, map_cons, map_map]
        simp [add_assoc, add_comm 1, Function.comp_def]
    · rw [if_neg hv]
      left
      exact ⟨0, by lia, hv, rfl⟩

/-! ## The split -/

/-- The cells of the split block that move, and those they move to. -/
def moved (cur newBlock c : ℕ) : Equiv.Perm (ℕ × ℕ) :=
  Function.Involutive.toPerm
    (fun p => (if c ≤ p.2 then Equiv.swap cur newBlock p.1 else p.1, p.2)) (by
      rintro ⟨b, i⟩
      by_cases hc : c ≤ i <;> simp [hc])

theorem moved_apply {b c n : ℕ} :
    moved b n c p = (if c ≤ p.2 then Equiv.swap b n p.1 else p.1, p.2) := rfl

omit [DecidableEq Id] in
theorem Linked.split (h : Linked s l) (idInit : Id) : ∃ l', Linked (s.split idInit) l' ∧
    ∀ b, b ∈ l' ↔ b = s.nblock + 1 ∨ b ∈ l := by
  obtain ⟨l1, l2, rfl⟩ := append_of_mem h.cur
  have hnew : s.nblock + 1 ∉ l1 ++ s.curBlock :: l2 := by
    intro hmem
    have := h.fresh _ hmem
    lia
  refine ⟨l1 ++ s.curBlock :: (s.nblock + 1) :: l2, ⟨?_, ?_, ?_, by simp [split], h.index⟩, ?_⟩
  · exact h.chain.insertAfter (by simp [NULL]) hnew
  · have := h.length
    simp only [length_append, length_cons] at this ⊢
    simp only [split]
    lia
  · intro b hb
    have : b = s.nblock + 1 ∨ b ∈ l1 ++ s.curBlock :: l2 := by
      simp only [mem_append, mem_cons] at hb ⊢
      tauto
    rcases this with rfl | hb
    · exact le_rfl
    · exact (h.fresh b hb).trans (Nat.le_succ _)
  · intro b
    simp only [mem_append, mem_cons]
    tauto

theorem Linked.stored_split (h : Linked s l) :
    (s.split idInit).stored idInit exist = s.stored idInit exist := by
  obtain ⟨l', h', hl'⟩ := h.split idInit
  have hnew : s.nblock + 1 ∉ l := by
    intro hmem
    have := h.fresh _ hmem
    lia
  have hne : s.curBlock ≠ s.nblock + 1 := by
    intro heq
    exact hnew (heq ▸ h.cur)
  -- the new block filled with `idInit`, then the moved cells exchanged with those they move to
  set f : ℕ × ℕ → Id := fun p => if p.1 = s.nblock + 1 then idInit else s.ids p with hf
  have hids : (s.split idInit).ids = f ∘ moved s.curBlock (s.nblock + 1) s.curIndex := by
    funext p
    obtain ⟨b, i⟩ := p
    simp only [IdList.split, Function.comp_apply, moved_apply, hf]
    by_cases hc : s.curIndex ≤ i
    · have hlt : ¬ i < s.curIndex := by lia
      by_cases hb : b = s.nblock + 1
      · subst hb
        simp [hc, hlt, hne]
      · obtain rfl | hbc := eq_or_ne b s.curBlock
        · simp [hc, hb]
        · simp [hc, hb, hbc, Equiv.swap_apply_of_ne_of_ne]
    · have hlt : i < s.curIndex := by lia
      simp [hc, hlt]
  have hdisj : Disjoint (cells [s.nblock + 1]) (cells l) := by
    rw [Finset.disjoint_left]
    intro p hp hp'
    rw [mem_cells, mem_singleton] at hp
    rw [mem_cells] at hp'
    exact hnew (hp.1 ▸ hp'.1)
  have hcells : cells l' = (cells [s.nblock + 1]).disjUnion (cells l) hdisj := by
    ext p
    rw [Finset.mem_disjUnion, mem_cells, mem_cells, mem_cells, hl', mem_singleton]
    tauto
  have hnewInit : (contents f (cells [s.nblock + 1])).filter (Valid idInit exist) = 0 := by
    apply Multiset.filter_eq_nil.2
    intro x hx
    obtain ⟨p, hp, rfl⟩ := Multiset.mem_map.1 hx
    rw [Finset.mem_val, mem_cells, mem_singleton] at hp
    have hfp : f p = idInit := if_pos hp.1
    rw [hfp]
    exact fun hv => hv.1 rfl
  have hold : contents f (cells l) = contents s.ids (cells l) := by
    apply contents_congr
    intro p hp
    apply if_neg
    rintro heq
    exact hnew (heq ▸ (mem_cells.1 hp).1)
  rw [h'.stored, h.stored, hids, contents_comp, hcells, contents_disjUnion, Multiset.filter_add, hnewInit,
    zero_add, hold]
  intro p
  simp only [moved_apply, mem_cells, hl']
  by_cases hc : s.curIndex ≤ p.2
  · rw [if_pos hc]
    by_cases hb : p.1 = s.nblock + 1
    · simp [hb, h.cur]
    · by_cases hbc : p.1 = s.curBlock
      · simp [hbc, h.cur]
      · rw [Equiv.swap_apply_of_ne_of_ne hbc hb]
  · rw [if_neg hc]

/-! ## The scatter -/

section

omit [DecidableEq Id]

@[simp] theorem store_ids : (s.store p id).ids = update s.ids p id := rfl

@[simp] theorem store_pos : (s.store p id).pos = s.pos := rfl

theorem forwardIndex_store : (s.store p id).forwardIndex = s.forwardIndex.store p id := by
  unfold forwardIndex
  split <;> split <;> first | rfl | contradiction

end

/-- The stores of the scatter: three along `d₁`, `p₂`, `p₁`, two along `d₂`, `p₃`, the new id to
`d₃`. -/
def scattered (idInit : Id) (f : ℕ × ℕ → Id) (p₁ p₂ p₃ d₁ d₂ d₃ : ℕ × ℕ) (id : Id) : ℕ × ℕ → Id :=
  let f₁ := update f d₁ (f p₂)
  let f₂ := update f₁ p₂ (f₁ p₁)
  let f₃ := update f₂ p₁ idInit
  let f₄ := update f₃ d₂ (f₃ p₃)
  let f₅ := update f₄ p₃ idInit
  update f₅ d₃ id

variable {f : ℕ × ℕ → Id} {p₁ p₂ p₃ d₁ d₂ d₃ : ℕ × ℕ} {C : Finset (ℕ × ℕ)} {j : ℕ}

section

omit [DecidableEq Id]

/-- The scatter shifts ids over empty positions, and the new id comes in for an empty one. -/
theorem contents_scattered (idInit id : Id) (hp1 : p₁ ∈ C) (hp2 : p₂ ∈ C) (hp3 : p₃ ∈ C)
    (hd1 : d₁ ∈ C) (hd2 : d₂ ∈ C)
    (hd3 : d₃ ∈ C) (h1 : f d₁ = idInit) (h2 : f d₂ = idInit) (h3 : f d₃ = idInit) (hpp : p₁ ≠ p₂)
    (hdp1 : d₁ ≠ p₁ ∧ d₁ ≠ p₂) (hdp2 : d₂ ≠ p₂ ∧ d₂ ≠ p₃) (hdp3 : d₃ ≠ p₂) (hdd1 : d₁ ≠ d₂)
    (hdd2 : d₁ ≠ d₃) (hdd3 : d₂ ≠ d₃) :
    contents (scattered idInit f p₁ p₂ p₃ d₁ d₂ d₃ id) C + {idInit} = contents f C + {id} := by
  set f1 := update f d₁ (f p₂) with hf1
  set f2 := update f1 p₂ (f1 p₁) with hf2
  set f3 := update f2 p₁ idInit with hf3
  set f4 := update f3 d₂ (f3 p₃) with hf4
  set f5 := update f4 p₃ idInit with hf5
  have hw1 := contents_update (f := f) (v := f p₂) hd1
  have hw2 := contents_update (f := f1) (v := f1 p₁) hp2
  have hw3 := contents_update (f := f2) (v := idInit) hp1
  have hw4 := contents_update (f := f3) (v := f3 p₃) hd2
  have hw5 := contents_update (f := f4) (v := idInit) hp3
  have hw6 := contents_update (f := f5) (v := id) hd3
  have hr2 : f1 p₂ = f p₂ := update_of_ne hdp1.2.symm ..
  have hr3 : f2 p₁ = f1 p₁ := update_of_ne hpp ..
  have hr4 : f3 d₂ = idInit := by
    rw [hf3, update_apply]
    split
    · rfl
    · rw [hf2, update_of_ne hdp2.1, hf1, update_of_ne hdd1.symm, h2]
  have hr5 : f4 p₃ = f3 p₃ := update_of_ne hdp2.2.symm ..
  have hr6 : f5 d₃ = idInit := by
    rw [hf5, update_apply]
    split
    · rfl
    · rw [hf4, update_of_ne hdd3.symm, hf3, update_apply]
      split
      · rfl
      · rw [hf2, update_of_ne hdp3, hf1, update_of_ne hdd2.symm, h3]
  rw [← hf1, h1] at hw1
  rw [← hf2, hr2] at hw2
  rw [← hf3, hr3] at hw3
  rw [← hf4, hr4] at hw4
  rw [← hf5, hr5] at hw5
  rw [hr6] at hw6
  have hshift : contents f3 C = contents f C := by
    have hsum : contents f3 C + ({f1 p₁} + {f p₂} + {idInit}) =
        contents f C + ({f1 p₁} + {f p₂} + {idInit}) := by
      calc contents f3 C + ({f1 p₁} + {f p₂} + {idInit})
          = contents f3 C + {f1 p₁} + ({f p₂} + {idInit}) := by rw [add_assoc, add_assoc]
        _ = contents f2 C + {f p₂} + ({idInit} + {idInit}) := by
            rw [hw3]
            ac_rfl
        _ = contents f1 C + {idInit} + ({f1 p₁} + {idInit}) := by
            rw [hw2]
            ac_rfl
        _ = contents f C + ({f1 p₁} + {f p₂} + {idInit}) := by
            rw [hw1]
            ac_rfl
    exact add_right_cancel hsum
  have hshift' : contents f5 C = contents f3 C := by
    have hsum : contents f5 C + ({f3 p₃} + {idInit}) = contents f3 C + ({f3 p₃} + {idInit}) := by
      calc contents f5 C + ({f3 p₃} + {idInit})
          = contents f5 C + {f3 p₃} + {idInit} := (add_assoc ..).symm
        _ = contents f4 C + {idInit} + {idInit} := by rw [hw5]
        _ = contents f3 C + ({f3 p₃} + {idInit}) := by rw [hw4, add_assoc]
    exact add_right_cancel hsum
  rw [← hshift, ← hshift', ← hw6]
  rfl

theorem scatter_eq (h : s.curIndex < blockSize) (p0 : ℕ × ℕ) :
    s.scatter idInit [p0, p₁, p₂, p₃] id =
      { s.ahead 4 with
        ids := scattered idInit s.ids p₁ p₂ p₃ s.pos (s.ahead 2).pos (s.ahead 3).pos id } := by
  have h2 : s.forwardIndex.forwardIndex = s.ahead 2 := iterate_forwardIndex (i := 2) h (by decide)
  have h3 : (s.ahead 2).forwardIndex = s.ahead 3 := by
    rw [← h2]
    exact iterate_forwardIndex (i := 3) h (by decide)
  have h4 : (s.ahead 3).forwardIndex = s.ahead 4 := by
    rw [← h3, ← h2]
    exact iterate_forwardIndex (i := 4) h (by decide)
  simp only [scatter, getD_cons_succ, getD_cons_zero, copy, forwardIndex_store,
    store_pos, store_ids, h2, h3, h4, ahead_ids]
  simp only [store, ahead_ids]
  rfl

theorem ahead_pos : (s.ahead i).pos =
    if s.curIndex + i < blockSize then (s.curBlock, s.curIndex + i)
    else (s.nextBlock, s.curIndex + i - blockSize) := by
  unfold ahead
  split <;> rfl

theorem ahead_zero (h : s.curIndex < blockSize) : (s.ahead 0).pos = s.pos := by
  rw [ahead_pos, add_zero, if_pos h]
  rfl

/-- Less than a block's length apart, positions differ already in their index. -/
theorem ahead_pos_ne (hij : i < j) (hj : j < blockSize) :
    (s.ahead i).pos ≠ (s.ahead j).pos := by
  intro heq
  have hindex := congrArg Prod.snd heq
  rw [ahead_pos, ahead_pos] at hindex
  split at hindex <;> split at hindex <;> simp only at hindex <;> lia

end

section

omit [DecidableEq Id]

theorem Linked.congr_ids (h : Linked s l) : Linked { s with ids := f } l :=
  ⟨h.chain, h.length, h.fresh, h.cur, h.index⟩

/-- What the split has emptied: the current block from the cursor on, the new block up to there. -/
theorem Linked.split_empty (h : Linked s l) :
    (s.curIndex ≤ j → (s.split idInit).ids (s.curBlock, j) = idInit) ∧
      (j < s.curIndex → (s.split idInit).ids (s.nblock + 1, j) = idInit) := by
  have hne : s.curBlock ≠ s.nblock + 1 := by
    have := h.fresh _ h.cur
    lia
  constructor
  · intro hj
    simp [IdList.split, hne, hj]
  · intro hj
    simp [IdList.split, hj]

theorem split_nextBlock : (s.split idInit).nextBlock = s.nblock + 1 := by
  simp [nextBlock, split, NULL]

end

omit [DecidableEq Id] in
theorem Linked.split_ahead (h : Linked s l) (hi : i ≤ 3) :
    (s.split idInit).ids ((s.split idInit).ahead i).pos = idInit := by
  have hindex := h.index
  have hcur : (s.split idInit).curIndex = s.curIndex := rfl
  rw [ahead_pos, split_nextBlock, hcur]
  split
  · exact h.split_empty.1 (Nat.le_add_right ..)
  next hwrap =>
    refine h.split_empty.2 ?_
    unfold blockSize at *
    lia

omit [DecidableEq Id] in
/-- They are none of the four positions in front of the cursor, also where those have moved. -/
theorem Linked.split_ahead_ne (h : Linked s l) (hi : i < 4) (hj : j ≤ 3) :
    (((s.ahead 4).split idInit).ahead j).pos ≠ (s.ahead i).pos := by
  have hindex := h.index
  have hcur := h.fresh _ h.cur
  have hnext := h.fresh _ h.nextBlock_mem
  have hnew : ((s.ahead 4).split idInit).nextBlock = s.nblock + 1 := by
    rw [split_nextBlock, ahead_nblock]
  have hpos : (((s.ahead 4).split idInit).curBlock, ((s.ahead 4).split idInit).curIndex) =
      (s.ahead 4).pos := rfl
  rw [ahead_pos] at hpos
  intro heq
  rw [ahead_pos, ahead_pos, hnew, Prod.ext_iff] at heq
  unfold blockSize at *
  split at hpos <;> obtain ⟨hb, hc⟩ := Prod.ext_iff.1 hpos <;> simp only at hb hc <;>
    rw [hb, hc] at heq <;> split at heq <;> split at heq <;> simp only at heq <;> lia

/-- **The crowded case.** After four taken positions the split and the scatter store the new id and
keep every other. -/
theorem Linked.crowded (h : Linked s l) (p0 : ℕ × ℕ) :
    let u := ((s.ahead 4).split idInit).scatter idInit
      [p0, (s.ahead 1).pos, (s.ahead 2).pos, (s.ahead 3).pos] id
    (∃ l', Linked u l') ∧ u.stored idInit exist =
      s.stored idInit exist + ({id} : Multiset Id).filter (Valid idInit exist) := by
  have ht : Linked (s.ahead 4) l := h.ahead (by decide)
  obtain ⟨l', hu, hl'⟩ := ht.split idInit
  set u := (s.ahead 4).split idInit with hudef
  intro v
  have hv : v = { u.ahead 4 with
      ids := scattered idInit u.ids (s.ahead 1).pos (s.ahead 2).pos (s.ahead 3).pos u.pos
        (u.ahead 2).pos (u.ahead 3).pos id } := scatter_eq hu.index p0
  have hvl : Linked v l' := hv ▸ (hu.ahead (i := 4) (by decide)).congr_ids
  refine ⟨⟨l', hvl⟩, ?_⟩
  have hold : ∀ i ≤ 4, (s.ahead i).pos ∈ cells l' := by
    intro i hi
    have hp := mem_cells.1 (h.ahead (i := i) (hi.trans (by decide))).pos_mem
    exact mem_cells.2 ⟨(hl' _).2 (.inr hp.1), hp.2⟩
  have hnew : ∀ i ≤ 4, (u.ahead i).pos ∈ cells l' := fun i hi =>
    (hu.ahead (hi.trans (by decide))).pos_mem
  have h0 : (u.ahead 0).pos = u.pos := ahead_zero hu.index
  have hempty : u.ids u.pos = idInit := h0 ▸ ht.split_ahead (Nat.zero_le 3)
  have hne0 : ∀ i < 4, u.pos ≠ (s.ahead i).pos := fun i hi =>
    h0 ▸ h.split_ahead_ne hi (Nat.zero_le 3)
  have hscatter := contents_scattered (f := u.ids) idInit id (hold 1 (by decide))
    (hold 2 (by decide)) (hold 3 (by decide)) hu.pos_mem (hnew 2 (by decide)) (hnew 3 (by decide))
    hempty (ht.split_ahead (by decide)) (ht.split_ahead (by decide))
    (ahead_pos_ne (by decide) (by decide)) ⟨hne0 1 (by decide), hne0 2 (by decide)⟩
    ⟨h.split_ahead_ne (by decide) (by decide), h.split_ahead_ne (by decide) (by decide)⟩
    (h.split_ahead_ne (by decide) (by decide)) (h0 ▸ ahead_pos_ne (by decide) (by decide))
    (h0 ▸ ahead_pos_ne (by decide) (by decide))
    (ahead_pos_ne (by decide) (by decide))
  have hids : v.ids = scattered idInit u.ids (s.ahead 1).pos (s.ahead 2).pos (s.ahead 3).pos u.pos
      (u.ahead 2).pos (u.ahead 3).pos id := congrArg ids hv
  have hfilter := congrArg (Multiset.filter (Valid idInit exist)) hscatter
  rw [Multiset.filter_add, Multiset.filter_add, Multiset.filter_singleton, if_neg fun hv =>
    hv.1 rfl] at hfilter
  have hkeep : u.stored idInit exist = s.stored idInit exist := by
    rw [hudef, ht.stored_split, ht.stored, h.stored, ahead_ids]
  rw [hvl.stored, hids, ← hkeep, hu.stored]
  exact (add_zero _).symm.trans hfilter

theorem Linked.stored_ahead (h : Linked s l) (hi : i ≤ blockSize) :
    (s.ahead i).stored idInit exist = s.stored idInit exist := by
  rw [(h.ahead hi).stored, h.stored, ahead_ids]

/-- **What `add` does**: with 0 it stores the id and keeps the others, else it stores nothing. -/
theorem Linked.add (h : Linked s l) (idInit : Id) (exist : Id → Bool) (id : Id) (alloc : Bool) :
    (∃ l', Linked (s.add idInit exist id alloc).1 l') ∧
      (s.add idInit exist id alloc).1.stored idInit exist = s.stored idInit exist +
        if (s.add idInit exist id alloc).2 = .ok then ({id} : Multiset Id).filter (Valid idInit exist)
        else 0 := by
  have hzero : s = s.ahead 0 := iterate_forwardIndex (i := 0) h.index (by decide)
  have hscan := scan_cases idInit exist id h.index (i := 0) 4 [] (by decide)
  rw [← hzero] at hscan
  unfold IdList.add
  rcases hscan with ⟨j, hj, hfree, hscan⟩ | hscan
  · rw [hscan]
    have hahead : Linked (s.ahead (0 + j + 1)) l := h.ahead (by unfold blockSize; lia)
    have hmem : (s.ahead (0 + j)).pos ∈ cells l := (h.ahead (by unfold blockSize; lia)).pos_mem
    refine ⟨⟨l, hahead.store⟩, ?_⟩
    rw [if_pos rfl]
    refine (hahead.stored_store hmem ?_).trans ?_
    · rwa [ahead_ids]
    · rw [h.stored_ahead (by unfold blockSize; lia)]
  · rw [hscan]
    have hsaved : [] ++ (range 4).map (fun j => (s.ahead (0 + j)).pos) =
        [(s.ahead 0).pos, (s.ahead 1).pos, (s.ahead 2).pos, (s.ahead 3).pos] := rfl
    rw [hsaved]
    have hkeep : Linked (s.ahead (0 + 4)) l := h.ahead (by decide)
    have hstored : (s.ahead (0 + 4)).stored idInit exist = s.stored idInit exist :=
      h.stored_ahead (by decide)
    simp only
    split
    · exact ⟨⟨l, hkeep⟩, by simpa using hstored⟩
    · split
      · exact ⟨⟨l, hkeep⟩, by simpa using hstored⟩
      · rw [if_pos rfl]
        exact h.crowded (s.ahead 0).pos

end Cursor

/-! ## What `apply` calls -/

section Apply

variable {ω : Type*} {idInit : Id} {exist : ω → Id → Bool} {fn : Id → ω → Id × ω} {w : ω}

/-- The calls over the ids `xs`, in order: those that are valid when they are reached. -/
def callsOn (idInit : Id) (exist : ω → Id → Bool) (fn : Id → ω → Id × ω) : List Id → ω → List Id × ω
  | [], w => ([], w)
  | x :: xs, w =>
    if Valid idInit (exist w) x then
      (x :: (callsOn idInit exist fn xs (fn x w).2).1, (callsOn idInit exist fn xs (fn x w).2).2)
    else callsOn idInit exist fn xs w

theorem applyFrom_eq {next : ℕ → ℕ} {l : List ℕ} {fuel p : ℕ} (h : Chain next NULL p l)
    (hl : l.length ≤ fuel) (a : ApplyState Id ω) :
    applyFrom idInit exist fn next fuel p a =
      (l ×ˢ range blockSize : List (ℕ × ℕ)).foldl (applyAt idInit exist fn) a := by
  induction fuel generalizing p l a with
  | zero =>
    have hnil := eq_nil_of_length_eq_zero (Nat.le_zero.1 hl)
    rw [hnil]
    rfl
  | succ fuel ih =>
    cases l with
    | nil => exact if_pos (chain_nil.1 h)
    | cons b l =>
      obtain ⟨rfl, hne, htail⟩ := chain_cons.1 h
      rw [applyFrom, if_neg hne, ih htail (Nat.le_of_succ_le_succ hl), product_cons,
        foldl_append, foldl_map]
      rfl

/-- What the visits of different positions call is determined by the ids that stand there before. -/
theorem foldl_applyAt {ps : List (ℕ × ℕ)} (hps : ps.Nodup) (a : ApplyState Id ω) :
    (ps.foldl (applyAt idInit exist fn) a).calls =
        a.calls ++ (callsOn idInit exist fn (ps.map a.ids) a.world).1 ∧
      (ps.foldl (applyAt idInit exist fn) a).world =
        (callsOn idInit exist fn (ps.map a.ids) a.world).2 := by
  induction ps generalizing a with
  | nil => simp [callsOn]
  | cons p ps ih =>
    obtain ⟨hp, hps⟩ := nodup_cons.1 hps
    rw [foldl_cons, map_cons]
    by_cases hv : Valid idInit (exist a.world) (a.ids p)
    · have hsame : ps.map (update a.ids p (fn (a.ids p) a.world).1) = ps.map a.ids := by
        apply map_congr_left
        intro q hq
        apply update_of_ne
        rintro rfl
        exact hp hq
      obtain ⟨hcalls, hworld⟩ := ih hps (applyAt idInit exist fn a p)
      simp only [applyAt, if_pos hv] at hcalls hworld ⊢
      rw [hsame] at hcalls hworld
      rw [callsOn, if_pos hv]
      exact ⟨by rw [hcalls, append_assoc]; rfl, hworld⟩
    · rw [applyAt, if_neg hv, callsOn, if_neg hv]
      exact ih hps a

theorem Linked.apply {s : IdList Id} {l : List ℕ} (h : Linked s l) :
    (s.apply idInit exist fn w).calls = (callsOn idInit exist fn (s.positions.map s.ids) w).1 ∧
      (s.apply idInit exist fn w).world = (callsOn idInit exist fn (s.positions.map s.ids) w).2 := by
  rw [IdList.apply, applyFrom_eq h.chain h.length.le, IdList.positions, h.blocks]
  have hnd : (l ×ˢ range blockSize : List (ℕ × ℕ)).Nodup := h.chain.nodup.product nodup_range
  exact foldl_applyAt hnd { ids := s.ids, world := w, calls := [] }

/-- What `fn` works on only loses valid ids. -/
def Permanent (exist : ω → Id → Bool) (fn : Id → ω → Id × ω) : Prop :=
  ∀ x w y, exist (fn x w).2 y = true → exist w y = true

/-- Only ids that are valid at the start are called, in their order and each at most as often as it
is stored. -/
theorem callsOn_sublist (idInit : Id) (hp : Permanent exist fn) (xs : List Id) (w : ω) :
    (callsOn idInit exist fn xs w).1.Sublist (xs.filter (Valid idInit (exist w))) := by
  induction xs generalizing w with
  | nil => exact List.Sublist.refl []
  | cons x xs ih =>
    by_cases hv : Valid idInit (exist w) x
    · have hpos : (x :: xs).filter (Valid idInit (exist w)) = x :: xs.filter (Valid idInit (exist w)) :=
        filter_cons_of_pos (by simpa using hv)
      rw [callsOn, if_pos hv, hpos]
      refine List.Sublist.cons_cons x ((ih (fn x w).2).trans ?_)
      apply monotone_filter_right
      intro y hy
      have hy := of_decide_eq_true hy
      exact decide_eq_true ⟨hy.1, hp x w y hy.2⟩
    · have hneg : (x :: xs).filter (Valid idInit (exist w)) = xs.filter (Valid idInit (exist w)) :=
        filter_cons_of_neg (by simpa using hv)
      rw [callsOn, if_neg hv, hneg]
      exact ih w

/-- A valid id that no call makes invalid, but perhaps its own when it is stored once, is called
exactly as often as it is stored. -/
theorem callsOn_count (hp : Permanent exist fn) {x : Id} (hx : x ≠ idInit) (xs : List Id) {w : ω}
    (hw : exist w x = true)
    (hkeep : ∀ y w, exist w x = true → (y = x → 1 < xs.count x) → exist (fn y w).2 x = true) :
    (callsOn idInit exist fn xs w).1.count x = xs.count x := by
  induction xs generalizing w with
  | nil => rfl
  | cons y xs ih =>
    have hcount : xs.count x ≤ (y :: xs).count x := count_le_count_cons ..
    have hkeep' : ∀ y w, exist w x = true → (y = x → 1 < xs.count x) → exist (fn y w).2 x = true :=
      fun y w hy himp => hkeep y w hy fun heq => (himp heq).trans_le hcount
    obtain rfl | hyx := eq_or_ne y x
    · rw [callsOn, if_pos ⟨hx, hw⟩, count_cons_self, count_cons_self]
      by_cases hmem : y ∈ xs
      · have hmore : 1 < (y :: xs).count y := by
          rw [count_cons_self]
          exact Nat.succ_lt_succ (count_pos_iff.2 hmem)
        exact congrArg Nat.succ (ih (hkeep y w hw fun _ => hmore) hkeep')
      · have hnone : (callsOn idInit exist fn xs (fn y w).2).1.count y = 0 := by
          rw [count_eq_zero]
          intro hcall
          exact hmem (mem_of_mem_filter ((callsOn_sublist idInit hp xs _).subset hcall))
        rw [hnone, count_eq_zero_of_not_mem hmem]
    · rw [count_cons_of_ne hyx]
      by_cases hv : Valid idInit (exist w) y
      · rw [callsOn, if_pos hv, count_cons_of_ne hyx]
        exact ih (hkeep y w hw fun heq => absurd heq hyx) hkeep'
      · rw [callsOn, if_neg hv]
        exact ih hw hkeep'

end Apply

/-! ## Runs -/

/-- The list, the ids that have become invalid, and `live`: the ids that were added with 0 and have
not become invalid since, with repetition. -/
structure State (Id : Type*) where
  list : IdList Id
  dead : Id → Bool
  live : Multiset Id

def start (idInit : Id) : State Id where
  list := IdList.new idInit
  dead _ := false
  live := 0

/-- `IdTraits::exists`. -/
def State.exist (s : State Id) (id : Id) : Bool :=
  !s.dead id

/-- One label of a run: an `add` for which there is or is not memory, an id becoming invalid. -/
inductive Act (Id : Type*) where
  | add (id : Id) (alloc : Bool)
  | invalidate (id : Id)

def step (idInit : Id) (s : State Id) : Act Id → State Id
  | .add id alloc =>
    { s with
      list := (s.list.add idInit s.exist id alloc).1
      live := s.live +
        if (s.list.add idInit s.exist id alloc).2 = .ok then
          ({id} : Multiset Id).filter (Valid idInit s.exist)
        else 0 }
  | .invalidate id =>
    { s with
      dead := update s.dead id true
      live := s.live.filter (· ≠ id) }

/-- The invariant: the list is linked, and stores exactly the live ids. -/
structure Inv (idInit : Id) (s : State Id) : Prop where
  linked : ∃ l, Linked s.list l
  live : s.list.stored idInit s.exist = s.live

theorem start_inv (idInit : Id) : Inv idInit (start idInit) where
  linked := ⟨[HEAD], new_linked idInit⟩
  live := by
    rw [start, (new_linked idInit).stored]
    apply Multiset.filter_eq_nil.2
    intro x hx
    obtain ⟨p, -, rfl⟩ := Multiset.mem_map.1 hx
    exact fun hv => hv.1 rfl

/-- The ids that are stored and valid after `id` has become invalid. -/
theorem stored_invalidate (idInit : Id) (s : State Id) (id : Id) :
    s.list.stored idInit (step idInit s (.invalidate id)).exist =
      (s.list.stored idInit s.exist).filter (· ≠ id) := by
  rw [stored, stored, Multiset.filter_filter]
  apply Multiset.filter_congr
  intro x _
  simp only [Valid, State.exist, step, update_apply]
  by_cases hx : x = id
  · simp [hx]
  · simp [hx]

theorem step_inv (idInit : Id) : Keeps (step idInit) (Inv idInit) := by
  intro s a h
  obtain ⟨l, hl⟩ := h.linked
  cases a with
  | add id alloc =>
    obtain ⟨hlinked, hstored⟩ := hl.add idInit s.exist id alloc
    refine ⟨hlinked, hstored.trans ?_⟩
    rw [h.live]
    rfl
  | invalidate id =>
    refine ⟨⟨l, hl⟩, ?_⟩
    show s.list.stored idInit (step idInit s (.invalidate id)).exist = s.live.filter (· ≠ id)
    rw [stored_invalidate, h.live]

/-- **The list keeps exactly the live ids.** In every run of `add`s and invalidations the valid ids
that are stored are the live ones; an `add` with 0 stores one more, any other leaves them as they
are; and `apply` calls only stored valid ids, none more often than it is stored, and exactly as
often if the other calls, and its own when it is stored more than once, leave it valid. -/
theorem run_keeps {ω : Type*} (idInit : Id) (acts : List (Act Id)) (id : Id) (alloc : Bool)
    (exist : ω → Id → Bool) (fn : Id → ω → Id × ω) (hp : Permanent exist fn) (w : ω)
    (hw : exist w = (runFrom (step idInit) (start idInit) acts).exist) :
    let s := runFrom (step idInit) (start idInit) acts
    let stored := s.list.stored idInit s.exist
    let added := s.list.add idInit s.exist id alloc
    let calls := (s.list.apply idInit exist fn w).calls
    stored = s.live ∧
      (added.2 = .ok → added.1.stored idInit s.exist =
        stored + ({id} : Multiset Id).filter (Valid idInit s.exist)) ∧
      (added.2 ≠ .ok → added.1.stored idInit s.exist = stored) ∧
      (calls : Multiset Id) ≤ stored ∧
      ∀ x, (∀ y v, exist v x = true → (y = x → 1 < stored.count x) → exist (fn y v).2 x = true) →
        calls.count x = stored.count x := by
  intro s stored added calls
  have hinv : Inv idInit s := (step_inv idInit).run (start_inv idInit) acts
  obtain ⟨l, hl⟩ := hinv.linked
  have hadd := (hl.add idInit s.exist id alloc).2
  have hcalls : calls = (callsOn idInit exist fn (s.list.positions.map s.list.ids) w).1 := hl.apply.1
  have hle : (calls : Multiset Id) ≤ stored := by
    rw [hcalls]
    have hsub := callsOn_sublist idInit hp (s.list.positions.map s.list.ids) w
    rw [hw] at hsub
    have hle := Multiset.coe_le.2 hsub.subperm
    rwa [← Multiset.filter_coe] at hle
  refine ⟨hinv.live, ?_, ?_, hle, ?_⟩
  · intro hok
    exact hadd.trans (by rw [if_pos hok])
  · intro hfail
    exact hadd.trans (by rw [if_neg hfail, add_zero])
  · intro x hkeep
    by_cases hv : Valid idInit s.exist x
    · have hcount : stored.count x = (s.list.positions.map s.list.ids).count x := by
        show Multiset.count x (Multiset.filter _ _) = _
        rw [Multiset.count_filter_of_pos hv, Multiset.coe_count]
      rw [hcalls, hcount]
      rw [hcount] at hkeep
      exact callsOn_count hp hv.1 _ (by rw [hw]; exact hv.2) hkeep
    · have hzero : stored.count x = 0 := by
        rw [Multiset.count_eq_zero]
        exact fun hmem => hv (Multiset.of_mem_filter hmem)
      have := Multiset.count_le_of_le x hle
      rw [Multiset.coe_count] at this
      lia

/-- `IdResetter` where the error handler destroys the id. -/
def idResetter (idInit : Id) (id : Id) (exist : Id → Bool) : Id × (Id → Bool) :=
  (idInit, update exist id false)

theorem idResetter_permanent (idInit : Id) : Permanent (fun exist => exist) (idResetter idInit) := by
  intro x exist y hy
  simp only [idResetter, update_apply] at hy
  split at hy
  · cases hy
  · exact hy

/-- Two ids are added and one becomes invalid; the other is reset. -/
theorem run_keeps_reset :
    let s := runFrom (step 0) (start 0) [.add 5 true, .add 6 true, .invalidate 6]
    s.list.stored 0 s.exist = {5} ∧
      (s.list.apply 0 (fun exist => exist) (idResetter 0) s.exist).calls.count 5 = 1 := by
  intro s
  have hone : s.list.stored 0 s.exist = {5} := by decide
  refine ⟨hone, ?_⟩
  have hcalls := (run_keeps 0 [.add 5 true, .add 6 true, .invalidate 6] 7 true (fun exist => exist)
    (idResetter 0) (idResetter_permanent 0) s.exist rfl).2.2.2.2 5
  rw [show (runFrom (step 0) (start 0) [.add 5 true, .add 6 true, .invalidate 6]) = s from rfl,
    hone] at hcalls
  refine hcalls ?_
  intro y v hv hy
  have hne : 5 ≠ y := by
    rintro rfl
    exact absurd (hy rfl) (by decide)
  exact (update_of_ne hne ..).trans hv

end Eabase.Fiber.ListOfABAFreeId
