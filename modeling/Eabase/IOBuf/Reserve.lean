import Eabase.IOBuf.Sharing
import Eabase.IOBuf.Cells

/-!
# `reserve` and `unsafe_assign`

`reserve` appends bytes that nobody has written yet and returns their `Area`: the
number of the reference they begin in, the offset there, and how many they are.
`unsafe_assign` finds the bytes again, whatever was appended behind them in the
meantime, and writes to them.

It writes to memory. When the reserved bytes were handed on to another buffer and
came back behind themselves, the buffer has the same memory twice, and both places
change. This is what the rules of `unsafe_assign` warn of.
-/

namespace Eabase.IOBuf

open Lib List Multiset

/-! ## The code -/

def REF_INDEX_BITS : ℕ := 19

def REF_OFFSET_BITS : ℕ := 15

def AREA_SIZE_BITS : ℕ := 30

def MAX_REF_INDEX : ℕ := 2 ^ REF_INDEX_BITS - 1

def MAX_REF_OFFSET : ℕ := 2 ^ REF_OFFSET_BITS - 1

def MAX_AREA_SIZE : ℕ := 2 ^ AREA_SIZE_BITS - 1

abbrev Area : Type := ℕ

def INVALID_AREA : Area := 0

/-- `make_area`. -/
def makeArea (refIndex refOffset size : ℕ) : Area :=
  if MAX_REF_INDEX < refIndex ∨ MAX_REF_OFFSET < refOffset ∨ MAX_AREA_SIZE < size then INVALID_AREA
  else refIndex <<< (REF_OFFSET_BITS + AREA_SIZE_BITS) ||| refOffset <<< AREA_SIZE_BITS ||| size

def getAreaRefIndex (c : Area) : ℕ := (c >>> (REF_OFFSET_BITS + AREA_SIZE_BITS)) &&& MAX_REF_INDEX

def getAreaRefOffset (c : Area) : ℕ := (c >>> AREA_SIZE_BITS) &&& MAX_REF_OFFSET

def getAreaSize (c : Area) : ℕ := c &&& MAX_AREA_SIZE

/-- The loop of `reserve`. The area is made when the first reference is there, which
may have been merged into an old one; its size is the only argument of `make_area`
that can be cut to 32 bits. -/
def reserveLoop (count : ℕ) : ℕ → ℕ → Area → IOBuf → Heap → Area × IOBuf × Heap
  | 0, _, result, b, h => (result, b, h)
  | fuel + 1, totalNc, result, b, h =>
      if totalNc < count then
        let (p, h₁) := h.shareTlsBlock
        if p = NULL then (INVALID_AREA, b, h₁)
        else
          let size := (h₁.blk p).size
          let nc := min (count - totalNc) (h₁.blk p).leftSpace
          let (b₁, h₂) := b.pushOrMoveBackRef false ⟨size, nc, p⟩ h₁
          let result := if totalNc = 0 then makeArea (b₁.refNum - 1) (b₁.backRef.length - nc)
            (count % 2 ^ 32) else result
          reserveLoop count fuel (totalNc + nc) result b₁ (h₂.setSize p ((h₂.blk p).size + nc))
      else (result, b, h)

/-- `reserve(size_t count)`. -/
def reserve (count : ℕ) (b : IOBuf) (h : Heap) : Area × IOBuf × Heap :=
  reserveLoop count count 0 INVALID_AREA b h

/-- The loop of `unsafe_assign` over the references from `ref_index` on. The buffer
is too short when they end early. -/
def assignLoop : List BlockRef → ℕ → ℕ → List Byte → Heap → ℤ × Heap
  | [], _, _, _, h => (-1, h)
  | r :: rs, refOffset, length, data, h =>
      let nc := min length (r.length - refOffset)
      let h₁ := h.write r.block (r.offset + refOffset) (data.take nc)
      if length = nc then (0, h₁) else assignLoop rs 0 (length - nc) (data.drop nc) h₁

/-- `unsafe_assign(Area area, const void* data)`; `none` is a null pointer. -/
def unsafeAssign (area : Area) (data : Option (List Byte)) (b : IOBuf) (h : Heap) : ℤ × Heap :=
  match data with
  | none => (-1, h)
  | some bs =>
      if area = INVALID_AREA then (-1, h)
      else assignLoop (b.refList.drop (getAreaRefIndex area)) (getAreaRefOffset area)
        (getAreaSize area) bs h

/-- `new (mem) IOBuf::Block(data, size, deleter)`: a block that is full of the data of the user. -/
def Heap.newUserBlock (h : Heap) (data : List Byte) : Heap :=
  { h.setBlk h.brk ⟨1, data.length, data.length, NULL,
    fun i => (data[i]?).getD ((h.blk h.brk).data i)⟩ with
    brk := h.brk + 1 }

/-- `append_user_data_with_meta`; a deleter that runs changes nothing here. -/
def appendUserData (data : List Byte) (b : IOBuf) (h : Heap) : ℤ × IOBuf × Heap :=
  if 0xFFFFFFFF - 100 < data.length then (-1, b, h)
  else if data = [] then (0, b, h)
  else if h.oom h.brk then (-1, b, { h with brk := h.brk + 1 })
  else (0, b.pushOrMoveBackRef true ⟨0, data.length, h.brk⟩ (h.newUserBlock data))

/-- The array of a `BigView` is full, and `_push_or_move_back_ref_to_bigview` deletes it for a
larger one. -/
def Resizes (r : BlockRef) : IOBuf → Prop
  | .sv _ _ => False
  | .bv v => ¬(v.refAt (v.nref - 1)).mergeable r ∧ v.nref = v.capacity

instance (r : BlockRef) : ∀ b : IOBuf, Decidable (Resizes r b)
  | .sv _ _ => inferInstanceAs (Decidable False)
  | .bv _ => inferInstanceAs (Decidable (_ ∧ _))

def appendSelfLoop : ℕ → ℕ → IOBuf → Heap → Option (IOBuf × Heap)
  | 0, _, b, h => some (b, h)
  | k + 1, i, b, h =>
      if Resizes (b.refAt i) b then none
      else
        let (b₁, h₁) := b.pushOrMoveBackRef false (b.refAt i) h
        appendSelfLoop k (i + 1) b₁ h₁

/-- `buf.append(buf)`: what is pushed is a reference into the array of `buf` itself, which is read
when its turn comes, so `none` stands for the array being deleted before it is read. -/
def appendSelf (b : IOBuf) (h : Heap) : Option (IOBuf × Heap) := appendSelfLoop b.refNum 0 b h

/-! ## Areas -/

variable {refIndex refOffset size : ℕ}

theorem makeArea_eq (hi : refIndex ≤ MAX_REF_INDEX) (ho : refOffset ≤ MAX_REF_OFFSET)
    (hs : size ≤ MAX_AREA_SIZE) :
    makeArea refIndex refOffset size = (refIndex * 2 ^ REF_OFFSET_BITS + refOffset)
      * 2 ^ AREA_SIZE_BITS + size := by
  have hoff : refOffset < 2 ^ REF_OFFSET_BITS := Nat.lt_of_le_pred (by decide) ho
  have hsize : size < 2 ^ AREA_SIZE_BITS := Nat.lt_of_le_pred (by decide) hs
  rw [makeArea, if_neg (by lia), Nat.shiftLeft_add, ← Nat.shiftLeft_or_distrib,
    ← Nat.shiftLeft_add_eq_or_of_lt hsize, ← Nat.shiftLeft_add_eq_or_of_lt hoff, Nat.shiftLeft_eq,
      Nat.shiftLeft_eq]

theorem makeArea_parts (h : makeArea refIndex refOffset size ≠ INVALID_AREA) :
    getAreaRefIndex (makeArea refIndex refOffset size) = refIndex ∧
      getAreaRefOffset (makeArea refIndex refOffset size) = refOffset ∧
      getAreaSize (makeArea refIndex refOffset size) = size := by
  have hle : refIndex ≤ MAX_REF_INDEX ∧ refOffset ≤ MAX_REF_OFFSET ∧ size ≤ MAX_AREA_SIZE := by
    by_contra hbig
    apply h
    rw [makeArea, if_pos (by lia)]
  obtain ⟨hi, ho, hs⟩ := hle
  have hmask : ∀ x n : ℕ, x &&& 2 ^ n - 1 = x % 2 ^ n := Nat.and_two_pow_sub_one_eq_mod
  rw [makeArea_eq hi ho hs, getAreaRefIndex, getAreaRefOffset, getAreaSize, MAX_REF_INDEX,
    MAX_REF_OFFSET, MAX_AREA_SIZE,
    hmask, hmask, hmask, Nat.shiftRight_eq_div_pow, Nat.shiftRight_eq_div_pow]
  simp only [MAX_REF_INDEX, MAX_REF_OFFSET, MAX_AREA_SIZE, REF_INDEX_BITS, REF_OFFSET_BITS,
    AREA_SIZE_BITS] at hi ho hs ⊢
  omega

open Heap

/-! ## `reserve` -/

section

variable {pos : Bool} {h h' h₁ h₂ : Heap} {l : List Ptr} {b b' b₁ : IOBuf} {Y : Multiset BlockRef}
    {K : Multiset Ptr}
  {S : Ptr → Option ℕ} {r : BlockRef} {rs : List BlockRef} {p : Ptr} {nc count : ℕ} {area : Area}

theorem cells_mergePush (rs : List BlockRef) (r : BlockRef) : cells (mergePush rs r) = cells rs ++
    r.cells := by
  induction rs using reverseRecOn with
  | nil => rw [mergePush_nil, cells_cons, cells_nil, append_nil, nil_append]
  | append_singleton rs back _ =>
    rw [mergePush_concat]
    split
    next hm =>
      rw [cells_append, cells_append, cells_cons, cells_cons, cells_grow hm, cells_nil, append_nil,
        append_nil,
        append_assoc]
    · rw [cells_append, cells_append, cells_cons, cells_cons, cells_cons, cells_nil, append_nil,
        append_nil,
        append_assoc]

theorem placeAt_mergePush (rs : List BlockRef) (r : BlockRef) (hr : 0 < r.length) :
    ∃ rs' back, mergePush rs r = rs' ++ [back] ∧
      PlaceAt (pieces (mergePush rs r)) rs'.length (back.length - r.length) (sumLen rs) := by
  induction rs using reverseRecOn with
  | nil =>
    refine ⟨[], r, rfl, ?_⟩
    rw [Nat.sub_self]
    exact placeAt_last (M := []) (by rw [length_blockRef_cells]; exact hr)
  | append_singleton rs back _ =>
    have hlen : (pieces rs).length = rs.length := length_map _
    have hsum : (pieces rs).flatten.length = sumLen rs := length_cells rs
    rw [mergePush_concat]
    split
    · refine ⟨rs, back.grow r, rfl, ?_⟩
      have hoff : (back.grow r).length - r.length = back.length := Nat.add_sub_cancel _ _
      rw [hoff, pieces_concat, sumLen_append, sumLen_cons, sumLen_nil, ← hlen, ← hsum]
      apply placeAt_last
      rw [length_blockRef_cells]
      exact Nat.lt_add_of_pos_right hr
    · have hassoc : rs ++ [back, r] = (rs ++ [back]) ++ [r] := by
        rw [append_assoc]
        rfl
      refine ⟨rs ++ [back], r, hassoc, ?_⟩
      rw [hassoc, pieces_concat (rs ++ [back]), Nat.sub_self]
      have hlast : PlaceAt (pieces (rs ++ [back]) ++ [r.cells]) _ 0 _ :=
        placeAt_last (by rw [length_blockRef_cells]; exact hr)
      have hsum' : (pieces (rs ++ [back])).flatten.length = sumLen (rs ++ [back]) := length_cells _
      rw [hsum', pieces, length_map] at hlast
      exact hlast

/-- One round of `reserve`: a piece of a block is the buffer's, with what is in it. -/
theorem Rep.reservePiece (R : Rep pos h (p :: l) b Y K S) (hp : p ≠ NULL) (hnc : 0 < nc)
    (hroom : nc ≤ (h.blk p).leftSpace)
    (hfull : (h.blk p).size < (h.blk p).cap)
    (heq : b.pushOrMoveBackRef false ⟨(h.blk p).size, nc, p⟩ h = (b₁, h₂)) :
    Rep pos (h₂.setSize p ((h₂.blk p).size + nc)) (p :: l) b₁ Y K S ∧
      Frame h (h₂.setSize p ((h₂.blk p).size + nc)) Y K := by
  have hspace : (h.blk p).leftSpace = (h.blk p).cap - (h.blk p).size := rfl
  obtain ⟨bs, hbs⟩ : ∃ bs, bs = h.read p (h.blk p).size nc := ⟨_, rfl⟩
  have hlen : bs.length = nc := by rw [hbs, read_length]
  have hwrite : h.write p (h.blk p).size bs = h := by rw [hbs]; exact h.extend_read p nc
  have hpush := push_setSize (h := h) R.wf hp bs
  rw [hwrite, hlen, heq] at hpush
  rw [← hlen] at hpush
  obtain ⟨R', hf, -⟩ := R.appendPiece (by omega) (fun _ => by omega) hpush
  rw [hlen] at R' hf
  exact ⟨R', hf⟩

variable (count) in
/-- What `reserve` returns and leaves: the new memory, and the area only if all of it is there. -/
theorem Rep.reserveLoop : ∀ {fuel totalNc : ℕ} {result : Area} {b : IOBuf} {h : Heap} {l : List Ptr},
    Rep pos h l b Y K S → count - totalNc ≤ fuel → ∀ {area : Area} {b' : IOBuf} {h' : Heap},
    IOBuf.reserveLoop count fuel totalNc result b h = (area, b', h') →
    ∃ l', Rep pos h' l' b' Y K S ∧ Frame h h' Y K ∧
    GrowsBy (· ∉ cells b.refs) (pieces b.refs) (pieces b'.refs) ∧
      (0 < totalNc → area = INVALID_AREA ∨ area = result) ∧
      (area = INVALID_AREA ∨ ∃ new, cells b'.refs = cells b.refs ++ new ∧
        new.length = count - totalNc ∧ new.Nodup ∧
        ∀ c ∈ new, c ∉ cells b.refs)
  | 0, totalNc, result, b, h, l, R, hfuel, area, b', h', heq => by
    simp only [IOBuf.reserveLoop, Prod.mk.injEq] at heq
    obtain ⟨rfl, rfl, rfl⟩ := heq
    refine ⟨l, R, Frame.refl h Y K, .refl, fun _ => .inr rfl, .inr ⟨[], ?_, ?_, List.nodup_nil, ?_⟩⟩
    · rw [List.append_nil]
    · exact (Nat.le_zero.mp hfuel).symm
    · exact fun c hc => absurd hc List.not_mem_nil
  | fuel + 1, totalNc, result, b, h, l, R, hfuel, area, b', h', heq => by
    unfold IOBuf.reserveLoop at heq
    by_cases hmore : totalNc < count
    · rw [if_pos hmore] at heq
      obtain ⟨p, h₁, hshare⟩ : ∃ p h₁, h.shareTlsBlock = (p, h₁) := ⟨_, _, rfl⟩
      simp only [hshare] at heq
      obtain ⟨hframe, hcase⟩ := R.inv.shareTlsBlock hshare
      have hframeY : Frame h h₁ Y K := hframe.mono fun _ hr => Multiset.mem_add.mpr (Or.inr hr)
      rcases hcase with ⟨rfl, -, l', H'⟩ | ⟨hp, l', H', hroom⟩
      · rw [if_pos rfl] at heq
        simp only [Prod.mk.injEq] at heq
        obtain ⟨rfl, rfl, rfl⟩ := heq
        exact ⟨l', ⟨R.wf, H'⟩, hframeY, .refl, fun _ => .inl rfl, .inl rfl⟩
      · rw [if_neg hp] at heq
        have hspace : (h₁.blk p).leftSpace = (h₁.blk p).cap - (h₁.blk p).size := rfl
        obtain ⟨nc, hnc⟩ : ∃ nc, nc = min (count - totalNc) (h₁.blk p).leftSpace := ⟨_, rfl⟩
        obtain ⟨b₁, h₂, hpush⟩ : ∃ b₁ h₂, b.pushOrMoveBackRef false ⟨(h₁.blk p).size, nc, p⟩ h₁
            = (b₁, h₂) := ⟨_, _, rfl⟩
        simp only [← hnc, hpush] at heq
        have R₀ : Rep pos h₁ (p :: l') b Y K S := ⟨R.wf, H'⟩
        obtain ⟨R₁, hf₁⟩ := R₀.reservePiece hp (by omega) (by omega) hroom hpush
        obtain ⟨l₂, R₂, hf₂, hg₂, hres₂, hnew₂⟩ := Rep.reserveLoop R₁ (by omega) heq
        have hg := R₀.piece_growsBy (fun _ hc => hc) hp hpush
        have hcells : cells b₁.refs = cells b.refs ++ BlockRef.cells ⟨(h₁.blk p).size, nc, p⟩ := by
          have hrefs := refs_pushOrMoveBackRef false (h := h₁) R.wf (r := ⟨(h₁.blk p).size, nc, p⟩) hp
          rw [hpush] at hrefs
          rw [hrefs, cells_mergePush]
        refine ⟨l₂, R₂, (hframeY.trans hf₁).trans hf₂, ?_, ?_, ?_⟩
        · exact hg.trans (hg₂.mono fun c hc hmem => hc (mem_cells_of_growsBy hg hmem))
        · intro hpos
          rw [if_neg (Nat.pos_iff_ne_zero.mp hpos)] at hres₂
          exact hres₂ (by omega)
        · rcases hnew₂ with hinv | ⟨new, hnew, hlen, hnodup, hfresh⟩
          · exact .inl hinv
          right
          refine ⟨BlockRef.cells ⟨(h₁.blk p).size, nc, p⟩ ++ new, ?_, ?_, ?_, ?_⟩
          · rw [hnew, hcells, List.append_assoc]
          · rw [List.length_append, length_blockRef_cells, hlen]
            show nc + (count - (totalNc + nc)) = count - totalNc
            omega
          · apply List.nodup_append'.mpr
            refine ⟨nodup_blockRef_cells, hnodup, ?_⟩
            intro c hc hmem
            apply hfresh c hmem
            rw [hcells]
            exact List.mem_append_right _ hc
          · intro c hc
            rcases List.mem_append.mp hc with hc | hc
            · exact H'.notMem_cells (H'.lim_none_of_tls List.mem_cons_self)
                (fun r hr => Rep.mem_left hr) hc
            · exact fun hmem => hfresh c hc (mem_cells_of_growsBy hg hmem)
    · rw [if_neg hmore] at heq
      simp only [Prod.mk.injEq] at heq
      obtain ⟨rfl, rfl, rfl⟩ := heq
      refine ⟨l, R, Frame.refl h Y K, .refl, fun _ => .inr rfl, .inr ⟨[], ?_, ?_, List.nodup_nil, ?_⟩⟩
      · rw [List.append_nil]
      · rw [Nat.sub_eq_zero_of_le (Nat.le_of_not_lt hmore), List.length_nil]
      · exact fun c hc => absurd hc List.not_mem_nil

theorem Rep.reserve_place (R : Rep pos h l b Y K S) (hcount : 0 < count) (hsize : count < 2 ^ 32)
    (heq : b.reserve count h = (area, b', h')) (harea : area ≠ INVALID_AREA) :
    PlaceAt (pieces b'.refs) (getAreaRefIndex area) (getAreaRefOffset area) (sumLen b.refs) ∧
      getAreaSize area = count := by
  obtain ⟨m, rfl⟩ : ∃ m, count = m + 1 := Nat.exists_eq_add_one.2 hcount
  unfold IOBuf.reserve IOBuf.reserveLoop at heq
  rw [if_pos hcount] at heq
  rcases hshare : h.shareTlsBlock with ⟨p, h₁⟩
  simp only [hshare] at heq
  obtain ⟨-, hcase⟩ := R.inv.shareTlsBlock hshare
  rcases hcase with ⟨rfl, -, -, -⟩ | ⟨hp, l', H', hroom⟩
  · rw [if_pos rfl, Prod.mk.injEq] at heq
    exact absurd heq.1.symm harea
  · rw [if_neg hp] at heq
    have hspace : (h₁.blk p).leftSpace = (h₁.blk p).cap - (h₁.blk p).size := rfl
    obtain ⟨nc, hnc⟩ : ∃ nc, nc = min (m + 1 - 0) (h₁.blk p).leftSpace := ⟨_, rfl⟩
    have hpos : 0 < nc := by lia
    rcases hpush : b.pushOrMoveBackRef false ⟨(h₁.blk p).size, nc, p⟩ h₁ with ⟨b₁, h₂⟩
    simp only [← hnc, hpush, if_true, Nat.mod_eq_of_lt hsize] at heq
    have R0 : Rep pos h₁ (p :: l') b Y K S := ⟨R.wf, H'⟩
    obtain ⟨R1, -⟩ := R0.reservePiece hp hpos (by lia) hroom hpush
    obtain ⟨l2, -, -, hg, hres, -⟩ := Rep.reserveLoop _ R1 (by lia) heq
    have hmade := (hres (by lia)).resolve_left harea
    rw [hmade] at harea ⊢
    obtain ⟨hidx, hoff, hlen⟩ := makeArea_parts harea
    have hrefs := refs_pushOrMoveBackRef false (h := h₁) R.wf (r := ⟨(h₁.blk p).size, nc, p⟩) hp
    rw [hpush] at hrefs
    obtain ⟨rs', back, hmerge, hplace⟩ := placeAt_mergePush b.refs ⟨(h₁.blk p).size, nc, p⟩ hpos
    rw [← hrefs] at hmerge hplace
    refine ⟨?_, hlen⟩
    rw [hidx, hoff, refNum_eq R1.wf.view, backRef_eq R1.wf.view hmerge, hmerge, length_append,
      length_singleton,
      Nat.add_sub_cancel]
    exact hplace.growsBy hg

/-! ## `unsafe_assign` -/

/-- The bytes `bs` are stored in the cells `cs`, and nothing else changes. -/
structure Stores (h h' : Heap) (cs : List Cell) (bs : List Byte) : Prop where
  stored : cs.map h'.peek = bs
  other : ∀ c ∉ cs, h'.peek c = h.peek c

theorem Stores.append {cs cs' : List Cell} {bs bs' : List Byte} (hs : Stores h h₁ cs bs)
    (hs' : Stores h₁ h₂ cs' bs')
    (hdisj : cs.Disjoint cs') : Stores h h₂ (cs ++ cs') (bs ++ bs') where
  stored := by
    have hkeep : cs.map h₂.peek = cs.map h₁.peek :=
      map_congr_left fun c hc => hs'.other c fun hc' => hdisj hc hc'
    rw [map_append, hkeep, hs.stored, hs'.stored]
  other c hc := by
    rw [mem_append, not_or] at hc
    rw [hs'.other c hc.2, hs.other c hc.1]

theorem stores_write (h : Heap) (p : Ptr) (off : ℕ) (bs : List Byte) :
    Stores h (h.write p off bs) (BlockRef.cells ⟨off, bs.length, p⟩) bs where
  stored := by
    apply ext_getElem
    · rw [length_map, length_blockRef_cells]
    · intro i hi hi'
      simp [BlockRef.cells, peek, write, setBlk, hi']
  other := by
    rintro ⟨q, k⟩ hc
    obtain rfl | hq := eq_or_ne q p
    · have hout : ¬ (off ≤ k ∧ k < off + bs.length) := fun hk => hc (mem_blockRef_cells.2 ⟨rfl, hk⟩)
      simp only [peek, write, setBlk_blk, if_true]
      split
      · rfl
      · rw [getElem?_eq_none (by lia), Option.getD_none]
    · exact congrArg (fun b : Block => b.data k) (write_blk_of_ne h p q off bs hq)

theorem cells_drop (r : BlockRef) (off : ℕ) :
    r.cells.drop off = BlockRef.cells ⟨r.offset + off, r.length - off, r.block⟩ := by
  apply ext_getElem
  · rw [length_drop, length_blockRef_cells, length_blockRef_cells]
  · intro i hi hi'
    simp [BlockRef.cells, add_assoc]

theorem cells_take {off n m : ℕ} (hle : m ≤ n) :
    (BlockRef.cells ⟨off, n, p⟩).take m = BlockRef.cells ⟨off, m, p⟩ := by
  apply ext_getElem
  · rw [length_take, length_blockRef_cells, length_blockRef_cells]
    exact min_eq_left hle
  · intro i hi hi'
    simp [BlockRef.cells]

/-- `unsafe_assign` stores the data in the cells of the area, one reference after the other. -/
theorem assignLoop_stores : ∀ (rs : List BlockRef) (refOffset length : ℕ) (data : List Byte) (h : Heap),
    (∀ r ∈ rs.head?, refOffset ≤ r.length) → 0 < length → length ≤ ((cells rs).drop refOffset).length →
    length ≤ data.length → (((cells rs).drop refOffset).take length).Nodup →
    (assignLoop rs refOffset length data h).1 = 0 ∧
      Stores h (assignLoop rs refOffset length data h).2 (((cells rs).drop refOffset).take length)
      (data.take length)
  | [], refOffset, length, data, h, _, hpos, hlen, _, _ => by
    rw [cells_nil, drop_nil, length_nil] at hlen
    exact absurd hpos (Nat.not_lt.mpr hlen)
  | r :: rs, refOffset, length, data, h, hoff, hpos, hlen, hdata, hnodup => by
    have hle : refOffset ≤ r.length := hoff r rfl
    have hdrop : (cells (r :: rs)).drop refOffset
        = BlockRef.cells ⟨r.offset + refOffset, r.length - refOffset, r.block⟩ ++ cells rs := by
      rw [cells_cons, drop_append_of_le_length (by rw [length_blockRef_cells]; exact hle), cells_drop]
    rw [hdrop] at hlen hnodup ⊢
    unfold assignLoop
    obtain ⟨nc, hnc⟩ : ∃ nc, nc = min length (r.length - refOffset) := ⟨_, rfl⟩
    have hwrite := stores_write h r.block (r.offset + refOffset) (data.take nc)
    rw [show (data.take nc).length = nc by rw [length_take]; lia] at hwrite
    simp only [← hnc]
    split
    next hall =>
      have hfit : length ≤ r.length - refOffset := by lia
      rw [take_append_of_le_length (by rw [length_blockRef_cells]; exact hfit), cells_take hfit, hall]
      exact ⟨rfl, hwrite⟩
    next hmore =>
      obtain rfl : nc = r.length - refOffset := by lia
      rw [length_append, length_blockRef_cells] at hlen
      simp only at hlen
      have htake : (BlockRef.cells ⟨r.offset + refOffset, r.length - refOffset, r.block⟩ ++
          cells rs).take length =
          BlockRef.cells ⟨r.offset + refOffset, r.length - refOffset, r.block⟩ ++
            ((cells rs).drop 0).take (length - (r.length - refOffset)) := by
        rw [take_append, take_of_length_le (by rw [length_blockRef_cells]; dsimp only; lia),
          length_blockRef_cells, drop_zero]
      rw [htake] at hnodup ⊢
      obtain ⟨-, hrest, hdisj⟩ := nodup_append'.1 hnodup
      obtain ⟨hrc, hstores⟩ := assignLoop_stores rs 0 (length - (r.length - refOffset))
        (data.drop (r.length - refOffset))
          (h.write r.block (r.offset + refOffset) (data.take (r.length - refOffset)))
        (fun _ _ => Nat.zero_le _) (by lia) (by rw [drop_zero]; lia) (by rw [length_drop]; lia) hrest
      refine ⟨hrc, ?_⟩
      have hsplit : data.take length = data.take (r.length - refOffset) ++
          (data.drop (r.length - refOffset)).take (length - (r.length - refOffset)) := by
        rw [← take_add, Nat.add_sub_cancel' (by lia)]
      rw [hsplit]
      exact hwrite.append hstores hdisj

/-! ## Appending user data, and a buffer to itself -/

theorem HeapInv.handOver {X : Multiset BlockRef} (H : HeapInv h l X (p ::ₘ K) S) (hS : S p = none)
    (hr : r.block = p)
    (hstop : r.stop ≤ (h.blk p).size) : HeapInv h l (r ::ₘ X) K S where
  chain := H.chain
  num := H.num
  nodup := by
    have hnodup := H.nodup
    rw [Multiset.add_cons, Multiset.nodup_cons] at hnodup
    exact hnodup.2
  count q := by
    rw [H.count q, owners, owners, Multiset.map_cons, hr, Multiset.add_cons, Multiset.cons_add,
      Multiset.add_cons]
  brk := H.brk
  live := H.live
  bound x hx := by
    rcases Multiset.mem_cons.1 hx with rfl | hx
    · rw [lim, hr, hS]
      exact hstop
    · exact H.bound x hx
  held q d hd := by
    obtain ⟨hmem, hle⟩ := H.held q d hd
    refine ⟨(Multiset.mem_cons.1 hmem).resolve_left ?_, hle⟩
    rintro rfl
    rw [hS] at hd
    cases hd

theorem Heap.newUserBlock_eq (h : Heap) (data : List Byte) :
    h.newUserBlock data = (h.newBlock data.length).extend h.brk data := by
  simp [newUserBlock, newBlock, extend, write, setSize, setBlk]

theorem Rep.appendUserData (data : List Byte) {rc : ℤ} (R : Rep false h l b Y K S)
    (heq : IOBuf.appendUserData data b h = (rc, b', h')) :
    Rep false h' l b' Y K S ∧ Frame h h' Y K ∧
    GrowsBy (· ∉ cells b.refs) (pieces b.refs) (pieces b'.refs) := by
  unfold IOBuf.appendUserData at heq
  have hnothing : Rep false h l b Y K S ∧ Frame h h Y K ∧
      GrowsBy (· ∉ cells b.refs) (pieces b.refs) (pieces b.refs) :=
    ⟨R, Frame.refl h Y K, .refl⟩
  split at heq
  · obtain ⟨-, rfl, rfl⟩ := heq
    exact hnothing
  split at heq
  · obtain ⟨-, rfl, rfl⟩ := heq
    exact hnothing
  split at heq
  · obtain ⟨-, rfl, rfl⟩ := heq
    refine ⟨⟨R.wf, R.inv.chain, R.inv.num, R.inv.nodup, R.inv.count, Nat.succ_pos _, ?_,
      R.inv.bound, R.inv.held⟩,
      Frame.of_same rfl (Nat.le_succ _) rfl, .refl⟩
    intro q hq
    obtain ⟨h0, hlt, hle⟩ := R.inv.live q hq
    exact ⟨h0, Nat.lt_succ_of_lt hlt, hle⟩
  · rw [Prod.mk.injEq] at heq
    obtain ⟨-, hpush⟩ := heq
    obtain ⟨H1, hf1, hS⟩ := R.inv.newBlock data.length
    have hsize : ((h.newBlock data.length).blk h.brk).size = 0 := by simp [newBlock, setBlk_blk]
    have hcap : ((h.newBlock data.length).blk h.brk).cap = data.length := by simp [newBlock, setBlk_blk]
    have H2 : HeapInv ((h.newBlock data.length).extend h.brk data) l (b.refs + Y) (h.brk ::ₘ K) S :=
      H1.extend (by lia)
    have hsize2 : ((h.newUserBlock data).blk h.brk).size = data.length := by
      simp [newUserBlock, setBlk_blk]
    rw [← newUserBlock_eq] at H2
    have H3 := H2.handOver (r := ⟨0, data.length, h.brk⟩) hS rfl
      (by rw [hsize2]; exact le_of_eq (zero_add _))
    have R3 : Rep false (h.newUserBlock data) l b (⟨0, data.length, h.brk⟩ ::ₘ Y) K S :=
      ⟨R.wf, H3.of_eq (add_cons _ _ _).symm⟩
    obtain ⟨R', hf, -⟩ := R3.move (by simp) hpush
    have hnew := R.inv.not_mem_of_brk_le (le_refl h.brk)
    have hX : ∀ x ∈ (b.refs : Multiset BlockRef) + Y, x.block ≠ h.brk := fun x hx heq =>
      hnew (mem_owners.2 (.inr (.inr ⟨x, hx, heq⟩)))
    have hframe : Frame h (h.newUserBlock data) Y K := by
      have hblk : ∀ q, q ≠ h.brk → (h.newUserBlock data).blk q = h.blk q := fun q hq => by
        rw [newUserBlock]
        exact (setBlk_blk _ _ _ _).trans (if_neg hq)
      have hK : ∀ q ∈ K, q ≠ h.brk := fun q hq heq => hnew (mem_owners.2 (.inr (.inl (heq ▸ hq))))
      have hlow : ∀ q < h.brk, (h.newUserBlock data).blk q = h.blk q := fun q hq => hblk q (ne_of_lt hq)
      refine ⟨fun x hx => ?_, fun q hq => ?_, fun q hq => ?_, fun q hq => ?_, fun q hq => ?_,
        ⟨Nat.le_succ _, rfl, fun q hq hl => by rwa [hlow q hq] at hl, fun q hq _ => by rw [hlow q hq],
          fun q hq _ i _ => by rw [hlow q hq]⟩⟩
      · exact read_congr fun i _ _ => by rw [hblk _ (hX x (mem_add.2 (.inr hx)))]
      · rw [hblk q (hK q hq)]
      · rw [hblk q (hK q hq)]
      · rw [hblk q (hK q hq)]
      · rw [hblk q (hK q hq)]
    refine ⟨R', hframe.trans (R'.frame hf), ?_⟩
    apply growsBy_push R.wf (r := ⟨0, data.length, h.brk⟩) (Nat.pos_iff_ne_zero.1 R.inv.brk) ?_ hpush
    intro c hc hmem
    obtain ⟨x, hx, hcx⟩ := mem_cells.1 hmem
    exact hX x (Rep.mem_left hx) ((mem_blockRef_cells.1 hcx).1.symm.trans (mem_blockRef_cells.1 hc).1)

theorem Rep.appendSelfLoop {A : Cell → Prop} : ∀ {k i : ℕ} {b : IOBuf} {h : Heap}, Rep false h l b Y K S →
    i + k ≤ b.refs.length → (∀ c ∈ cells b.refs, A c) →
    ∀ {b' : IOBuf} {h' : Heap}, IOBuf.appendSelfLoop k i b h = some (b', h') →
      Rep false h' l b' Y K S ∧ Heap.RefOnly h h' ∧ GrowsBy A (pieces b.refs) (pieces b'.refs)
  | 0, i, b, h, R, _, _, b', h', heq => by
    cases heq
    exact ⟨R, Heap.RefOnly.refl h, .refl⟩
  | k + 1, i, b, h, R, hle, hA, b', h', heq => by
    rw [IOBuf.appendSelfLoop] at heq
    obtain ⟨-, heq⟩ := (Option.ite_none_left_eq_some).1 heq
    have hi : i < b.refs.length := lt_of_lt_of_le (Nat.lt_add_of_pos_right (Nat.succ_pos k)) hle
    have hmem : b.refAt i ∈ b.refs := mem_of_getElem? (refAt_eq R.wf.view hi)
    have hblock : (b.refAt i).block ≠ NULL := (R.wf.ref _ hmem).1
    have hnew : ∀ c ∈ (b.refAt i).cells, A c := fun c hc => hA c (mem_cells.mpr ⟨_, hmem, hc⟩)
    obtain ⟨b₁, h₁, hpush⟩ : ∃ b₁ h₁, b.pushOrMoveBackRef false (b.refAt i) h = (b₁, h₁) := ⟨_, _, rfl⟩
    simp only [hpush] at heq
    obtain ⟨R1, hf1, -⟩ := R.push (R.inv.pos_of_ref (Rep.mem_left hmem))
      (R.inv.bound _ (Rep.mem_left hmem)) (by simp) hpush
    have hrefs := refs_pushOrMoveBackRef false (h := h) R.wf hblock
    rw [hpush] at hrefs
    have hle1 : i + 1 + k ≤ b₁.refs.length := by
      rw [hrefs, add_right_comm]
      exact hle.trans (length_le_mergePush _ _)
    have hA1 : ∀ c ∈ cells b₁.refs, A c := by
      intro c hc
      rw [hrefs, cells_mergePush] at hc
      rcases mem_append.1 hc with hc | hc
      · exact hA c hc
      · exact hnew c hc
    obtain ⟨R2, hf2, hg2⟩ := R1.appendSelfLoop hle1 hA1 heq
    exact ⟨R2, hf1.trans hf2, (growsBy_push R.wf hblock hnew hpush).trans hg2⟩

theorem Rep.appendSelf (R : Rep false h l b Y K S) (heq : b.appendSelf h = some (b', h')) :
    Rep false h' l b' Y K S ∧ Frame h h' Y K ∧
    GrowsBy (· ∈ cells b.refs) (pieces b.refs) (pieces b'.refs) := by
  have hle : 0 + b.refNum ≤ b.refs.length := by
    rw [zero_add, refNum_eq R.wf.view]
  obtain ⟨R', hf, hg⟩ := R.appendSelfLoop hle (fun _ hc => hc) heq
  exact ⟨R', R'.frame hf, hg⟩

end

end Eabase.IOBuf
