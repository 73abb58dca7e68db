import Eabase.IOBuf.Invariant

/-!
# The block chain keeps the heap invariant

One lemma for each function that touches the allocator or the chain of
`g_tls_data`. `Frame h h' X K` is what the rest of the program sees of it:
the bytes of the references in `X` and the blocks in `K` are as before.
-/

namespace Eabase.IOBuf

open List
open Multiset (coe_add coe_nodup disjoint_left mem_add mem_cons mem_cons_self nodup_add)

/-- **Writers write at or above `size`.** Of the blocks that existed before and
still live, the used part only grows and its bytes stay. -/
structure Heap.Grows (h h' : Heap) : Prop where
  brk : h.brk ≤ h'.brk
  oom : h'.oom = h.oom
  old : ∀ p < h.brk, 0 < (h'.blk p).nshared → 0 < (h.blk p).nshared
  size : ∀ p < h.brk, 0 < (h'.blk p).nshared → (h.blk p).size ≤ (h'.blk p).size
  data : ∀ p < h.brk, 0 < (h'.blk p).nshared → ∀ i < (h.blk p).size,
    (h'.blk p).data i = (h.blk p).data i

namespace Heap.Grows

variable {h h' h'' : Heap}

theorem refl (h : Heap) : h.Grows h :=
  ⟨le_refl _, rfl, fun _ _ hp => hp, fun _ _ _ => le_refl _, fun _ _ _ _ _ => rfl⟩

theorem trans (h1 : h.Grows h') (h2 : h'.Grows h'') : h.Grows h'' where
  brk := h1.brk.trans h2.brk
  oom := h2.oom.trans h1.oom
  old p hp hl := h1.old p hp (h2.old p (lt_of_lt_of_le hp h1.brk) hl)
  size p hp hl := by
    have hp' := lt_of_lt_of_le hp h1.brk
    exact (h1.size p hp (h2.old p hp' hl)).trans (h2.size p hp' hl)
  data p hp hl i hi := by
    have hp' := lt_of_lt_of_le hp h1.brk
    have hl' := h2.old p hp' hl
    rw [h2.data p hp' hl i (lt_of_lt_of_le hi (h1.size p hp hl')), h1.data p hp hl' i hi]

theorem of_refOnly (hf : Heap.RefOnly h h') : h.Grows h' where
  brk := hf.brk.ge
  oom := hf.oom
  old p _ hl := hf.live p hl
  size p _ hl := (hf.size p hl).ge
  data p _ hl i _ := by rw [hf.data p hl]

theorem of_blk (hbrk : h'.brk = h.brk) (hoom : h'.oom = h.oom)
    (hn : ∀ p, (h'.blk p).nshared = (h.blk p).nshared)
    (hs : ∀ p, (h'.blk p).size = (h.blk p).size)
    (hd : ∀ p, (h'.blk p).data = (h.blk p).data) : h.Grows h' where
  brk := hbrk.ge
  oom := hoom
  old p _ hl := hn p ▸ hl
  size p _ _ := (hs p).ge
  data p _ _ i _ := by rw [hd p]

end Heap.Grows

open Heap

/-- The references in `X` and the held blocks in `K` do not notice the step. -/
structure Frame (h h' : Heap) (X : Multiset BlockRef) (K : Multiset Ptr) : Prop where
  bytes : ∀ r ∈ X, h'.bytes r = h.bytes r
  size : ∀ p ∈ K, (h'.blk p).size = (h.blk p).size
  cap : ∀ p ∈ K, (h'.blk p).cap = (h.blk p).cap
  next : ∀ p ∈ K, (h'.blk p).portalNext = (h.blk p).portalNext
  data : ∀ p ∈ K, (h'.blk p).data = (h.blk p).data
  grows : h.Grows h'

namespace Frame

variable {h h' h'' : Heap} {X Y : Multiset BlockRef} {K : Multiset Ptr}

theorem oom (hf : Frame h h' X K) : h'.oom = h.oom := hf.grows.oom

theorem refl (h : Heap) (X : Multiset BlockRef) (K : Multiset Ptr) : Frame h h X K :=
  ⟨fun _ _ => rfl, fun _ _ => rfl, fun _ _ => rfl, fun _ _ => rfl, fun _ _ => rfl,
    Heap.Grows.refl h⟩

theorem trans (h1 : Frame h h' X K) (h2 : Frame h' h'' X K) : Frame h h'' X K where
  bytes r hr := (h2.bytes r hr).trans (h1.bytes r hr)
  size p hp := (h2.size p hp).trans (h1.size p hp)
  cap p hp := (h2.cap p hp).trans (h1.cap p hp)
  next p hp := (h2.next p hp).trans (h1.next p hp)
  data p hp := (h2.data p hp).trans (h1.data p hp)
  grows := h1.grows.trans h2.grows

theorem mono (hf : Frame h h' X K) (hY : ∀ r ∈ Y, r ∈ X) : Frame h h' Y K :=
  { hf with bytes := fun r hr => hf.bytes r (hY r hr) }

theorem monoHeld {K' : Multiset Ptr} (hf : Frame h h' X K) (hK : ∀ p ∈ K', p ∈ K) :
    Frame h h' X K' where
  bytes := hf.bytes
  size p hp := hf.size p (hK p hp)
  cap p hp := hf.cap p (hK p hp)
  next p hp := hf.next p (hK p hp)
  data p hp := hf.data p (hK p hp)
  grows := hf.grows

theorem content {l : List BlockRef} (hf : Frame h h' X K) (hl : ∀ r ∈ l, r ∈ X) :
    h'.content l = h.content l :=
  content_congr fun r hr => hf.bytes r (hl r hr)

theorem of_refOnly {l : List Ptr} {S : Ptr → Option ℕ} (hf : Heap.RefOnly h h')
    (H : HeapInv h' l X K S) : Frame h h' X K where
  bytes _ hr := H.bytes_eq hf hr
  size p hp := hf.size p (H.pos_of_held hp)
  cap p hp := hf.cap p (H.pos_of_held hp)
  next p hp := hf.next p (H.pos_of_held hp)
  data p hp := hf.data p (H.pos_of_held hp)
  grows := Heap.Grows.of_refOnly hf

theorem of_same (hblk : h'.blk = h.blk) (hbrk : h.brk ≤ h'.brk) (hoom : h'.oom = h.oom) :
    Frame h h' X K where
  bytes r _ := read_congr fun i _ _ => by rw [hblk]
  size p _ := by rw [hblk]
  cap p _ := by rw [hblk]
  next p _ := by rw [hblk]
  data p _ := by rw [hblk]
  grows := ⟨hbrk, hoom, fun p _ hl => by rwa [hblk] at hl, fun p _ _ => by rw [hblk],
    fun p _ _ i _ => by rw [hblk]⟩

theorem of_links (hbrk : h'.brk = h.brk) (hoom : h'.oom = h.oom)
    (hn : ∀ p, (h'.blk p).nshared = (h.blk p).nshared)
    (hs : ∀ p, (h'.blk p).size = (h.blk p).size)
    (hc : ∀ p, (h'.blk p).cap = (h.blk p).cap)
    (hd : ∀ p, (h'.blk p).data = (h.blk p).data)
    (hnext : ∀ p ∈ K, (h'.blk p).portalNext = (h.blk p).portalNext) : Frame h h' X K where
  bytes r _ := read_congr fun i _ _ => by rw [hd]
  size p _ := hs p
  cap p _ := hc p
  next := hnext
  data p _ := hd p
  grows := Heap.Grows.of_blk hbrk hoom hn hs hd

end Frame

namespace Heap

/-- Copy `bs` behind the used part of the block and count it as used. -/
def extend (h : Heap) (p : Ptr) (bs : List Byte) : Heap :=
  (h.write p (h.blk p).size bs).setSize p ((h.blk p).size + bs.length)

section Fields

variable (h : Heap) (p q : Ptr) (bs : List Byte)

@[simp] theorem setPortalNext_nshared (r : Ptr) :
    ((h.setPortalNext p r).blk q).nshared = (h.blk q).nshared := by
  rw [setPortalNext, setBlk_blk]
  split <;> simp_all

@[simp] theorem setPortalNext_size (r : Ptr) :
    ((h.setPortalNext p r).blk q).size = (h.blk q).size := by
  rw [setPortalNext, setBlk_blk]
  split <;> simp_all

@[simp] theorem setPortalNext_cap (r : Ptr) :
    ((h.setPortalNext p r).blk q).cap = (h.blk q).cap := by
  rw [setPortalNext, setBlk_blk]
  split <;> simp_all

@[simp] theorem setPortalNext_data (r : Ptr) :
    ((h.setPortalNext p r).blk q).data = (h.blk q).data := by
  rw [setPortalNext, setBlk_blk]
  split <;> simp_all

theorem setPortalNext_next (r : Ptr) :
    ((h.setPortalNext p r).blk q).portalNext = if q = p then r else (h.blk q).portalNext := by
  rw [setPortalNext, setBlk_blk]
  split <;> simp_all

@[simp] theorem extend_nshared : ((h.extend p bs).blk q).nshared = (h.blk q).nshared := by
  simp only [extend, setSize, write, setBlk_blk]
  split <;> simp_all

@[simp] theorem extend_cap : ((h.extend p bs).blk q).cap = (h.blk q).cap := by
  simp only [extend, setSize, write, setBlk_blk]
  split <;> simp_all

@[simp] theorem extend_next : ((h.extend p bs).blk q).portalNext = (h.blk q).portalNext := by
  simp only [extend, setSize, write, setBlk_blk]
  split <;> simp_all

theorem extend_size :
    ((h.extend p bs).blk q).size = (h.blk q).size + if q = p then bs.length else 0 := by
  simp only [extend, setSize, write, setBlk_blk]
  split <;> simp_all

theorem extend_data_of_ne (hq : q ≠ p) : ((h.extend p bs).blk q).data = (h.blk q).data := by
  simp [extend, setSize, write, setBlk_blk, hq]

theorem extend_data_below {i : ℕ} (hi : i < (h.blk q).size) :
    ((h.extend p bs).blk q).data i = (h.blk q).data i := by
  simp only [extend, setSize, write, setBlk_blk]
  split
  next heq =>
    subst heq
    simp [hi]
  · rfl

/-- The reference to what `extend` wrote reads back the written bytes. -/
theorem bytes_extend : (h.extend p bs).bytes ⟨(h.blk p).size, bs.length, p⟩ = bs := by
  apply ext_getElem (by simp)
  intro i h1 h2
  simp [bytes, read, extend, setSize, write, setBlk_blk, h2]

end Fields

theorem Grows.extend (h : Heap) (p : Ptr) (bs : List Byte) : h.Grows (h.extend p bs) where
  brk := le_refl _
  oom := rfl
  old q _ hl := by rwa [extend_nshared] at hl
  size q _ _ := by
    rw [extend_size]
    exact Nat.le_add_right _ _
  data q _ _ i hi := extend_data_below h p q bs hi

end Heap

namespace HeapInv

variable {h h' : Heap} {l : List Ptr} {X Y : Multiset BlockRef} {K : Multiset Ptr}
  {S : Ptr → Option ℕ} {r : BlockRef} {p b : Ptr} {c : List Ptr}

section

variable (H : HeapInv h l X K S)
include H

theorem not_mem_of_brk_le (hp : h.brk ≤ p) : p ∉ owners l X K :=
  fun hmem => absurd (H.live p (H.pos_of_mem hmem)).2.1 (Nat.not_lt.2 hp)

theorem length_le_brk : l.length ≤ h.brk := by
  have hnd := H.chain.nodup
  have hsub : l.toFinset ⊆ Finset.range h.brk := fun p hp =>
    Finset.mem_range.2 (H.live p (H.pos_of_tls (mem_toFinset.1 hp))).2.1
  have := Finset.card_le_card hsub
  rwa [toFinset_card_of_nodup hnd, Finset.card_range] at this

theorem lim_none_of_tls (hp : p ∈ l) : S p = none := by
  by_contra hne
  obtain ⟨d, hd⟩ := Option.ne_none_iff_exists'.1 hne
  have hK := (H.held p d hd).1
  exact disjoint_left.1 (nodup_add.1 H.nodup).2.2 hp hK

theorem not_held_of_tls (hp : p ∈ l) : p ∉ K := fun hK =>
  disjoint_left.mp (nodup_add.mp H.nodup).2.2 hp hK

theorem withRegistered (b : Bool) :
    HeapInv { h with registered := b } l X K S :=
  ⟨H.chain, H.num, H.nodup, H.count, H.brk, H.live, H.bound, H.held⟩

end

theorem dropHead (H : HeapInv h (p :: l) X K S) : HeapInv { h.decRef p with
      blockHead := (h.blk p).portalNext
      numBlocks := (h.decRef p).numBlocks - 1 } l X K S := by
  have hf := Heap.RefOnly.decRef h p
  have hcount : ∀ q, ((h.decRef p).blk q).nshared = (owners l X K).count q := by
    intro q
    rw [decRef_nshared, H.count q]
    simp only [owners, Multiset.count_add, ← Multiset.cons_coe, Multiset.count_cons]
    split <;> push_cast <;> lia
  have hpos : ∀ q ∈ owners l X K, 0 < ((h.decRef p).blk q).nshared := fun q hq => by
    rw [hcount q]
    exact_mod_cast Multiset.count_pos.2 hq
  constructor
  · exact (Lib.chain_cons.1 H.chain).2.2.congr fun q hq =>
      hf.next q (hpos q (mem_owners.2 (.inl hq)))
  · rw [hf.numBlocks, H.num]
    simp
  · have := H.nodup
    rw [← Multiset.cons_coe, Multiset.cons_add] at this
    exact (Multiset.nodup_cons.1 this).2
  · exact hcount
  · rw [hf.brk]
    exact H.brk
  · intro q hq
    rw [hf.brk, hf.size q hq, hf.cap q hq]
    exact H.live q (hf.live q hq)
  · intro x hx
    have hx' := H.bound x hx
    rw [lim, ← hf.size _ (hpos _ (mem_owners.2 (.inr (.inr ⟨x, hx, rfl⟩))))] at hx'
    exact hx'
  · intro q d hd
    obtain ⟨hq, hle⟩ := H.held q d hd
    refine ⟨hq, ?_⟩
    rw [hf.size q (hpos q (mem_owners.2 (.inr (.inl hq))))]
    exact hle

theorem pushTls (H : HeapInv h l X (p ::ₘ K) S) (hS : S p = none) (b : Bool) :
    HeapInv { h.setPortalNext p h.blockHead with
      blockHead := p
      numBlocks := h.numBlocks + 1
      registered := b } (p :: l) X K S := by
  have hp := H.live p (H.pos_of_held (mem_cons_self p K))
  have hnd := H.nodup
  rw [Multiset.add_cons] at hnd
  have hpl : p ∉ l := fun hm =>
    (Multiset.nodup_cons.1 hnd).1 (mem_add.2 (.inl hm))
  constructor
  · refine Lib.chain_cons.2 ⟨rfl, Nat.pos_iff_ne_zero.1 hp.1, ?_⟩
    rw [setPortalNext_next, if_pos rfl]
    refine H.chain.congr fun q hq => ?_
    rw [setPortalNext_next, if_neg fun heq : q = p => hpl (heq ▸ hq)]
  · rw [H.num]
    simp
  · rwa [← Multiset.cons_coe, Multiset.cons_add]
  · intro q
    rw [setPortalNext_nshared, H.count q]
    simp only [owners, ← Multiset.cons_coe, Multiset.cons_add, Multiset.add_cons]
  · exact H.brk
  · intro q hq
    simp only [setPortalNext_nshared, setPortalNext_size, setPortalNext_cap] at hq ⊢
    exact H.live q hq
  · intro x hx
    simp only [lim, setPortalNext_size]
    exact H.bound x hx
  · intro q d hd
    obtain ⟨hq, hle⟩ := H.held q d hd
    rcases mem_cons.1 hq with rfl | hq
    · rw [hS] at hd
      exact absurd hd (by simp)
    · exact ⟨hq, by simpa using hle⟩

theorem popTls (H : HeapInv h (p :: l) X K S) : HeapInv ({ h with
      blockHead := (h.blk p).portalNext
      numBlocks := h.numBlocks - 1 }.setPortalNext p NULL) l X (p ::ₘ K) S := by
  have hchain := Lib.chain_cons.1 H.chain
  have hnd := H.nodup
  rw [← Multiset.cons_coe, Multiset.cons_add] at hnd
  have hpl : p ∉ l := fun hm =>
    (Multiset.nodup_cons.1 hnd).1 (mem_add.2 (.inl hm))
  constructor
  · refine hchain.2.2.congr fun q hq => ?_
    rw [setPortalNext_next, if_neg fun heq : q = p => hpl (heq ▸ hq)]
  · show h.numBlocks - 1 = _
    rw [H.num]
    simp
  · rwa [Multiset.add_cons]
  · intro q
    rw [setPortalNext_nshared]
    rw [H.count q]
    simp only [owners, ← Multiset.cons_coe, Multiset.cons_add, Multiset.add_cons]
  · exact H.brk
  · intro q hq
    simp only [setPortalNext_nshared, setPortalNext_size, setPortalNext_cap] at hq ⊢
    exact H.live q hq
  · intro x hx
    simp only [lim, setPortalNext_size]
    exact H.bound x hx
  · intro q d hd
    obtain ⟨hq, hle⟩ := H.held q d hd
    exact ⟨Multiset.mem_cons_of_mem hq, by simpa using hle⟩

theorem dropHeld (H : HeapInv h l X (p ::ₘ K) S) (hS : S p = none) :
    HeapInv (h.decRef p) l X K S := by
  -- The dropped holder is an ordinary reference of length zero.
  have H' : HeapInv h l (⟨0, 0, p⟩ ::ₘ X) K S := by
    refine ⟨H.chain, H.num, ?_, fun q => ?_, H.brk, H.live, ?_, ?_⟩
    · have := H.nodup
      rw [Multiset.add_cons] at this
      exact (Multiset.nodup_cons.1 this).2
    · rw [H.count q]
      simp only [owners, Multiset.map_cons, Multiset.add_cons, Multiset.cons_add]
    · intro x hx
      rcases mem_cons.1 hx with rfl | hx
      · exact Nat.zero_le _
      · exact H.bound x hx
    · intro q d hd
      obtain ⟨hq, hle⟩ := H.held q d hd
      rcases mem_cons.1 hq with rfl | hq
      · rw [hS] at hd
        exact absurd hd (by simp)
      · exact ⟨hq, hle⟩
  exact H'.decRef

/-- **Writers write behind `size`**: appending to a block without an announced
limit disturbs no reference. -/
theorem extend (H : HeapInv h l X K S) {bs : List Byte}
    (hroom : (h.blk p).size + bs.length ≤ (h.blk p).cap) :
    HeapInv (h.extend p bs) l X K S := by
  constructor
  · exact H.chain.congr fun q _ => extend_next h p q bs
  · exact H.num
  · exact H.nodup
  · intro q
    rw [extend_nshared]
    exact H.count q
  · exact H.brk
  · intro q hq
    rw [extend_nshared] at hq
    obtain ⟨h0, hbrk, hle⟩ := H.live q hq
    refine ⟨h0, hbrk, ?_⟩
    rw [extend_size, extend_cap]
    split
    next heq =>
      rw [heq]
      exact hroom
    · exact hle
  · intro x hx
    refine le_trans (H.bound x hx) ?_
    simp only [lim, extend_size]
    cases S x.block with
    | none => exact Nat.le_add_right _ _
    | some d => exact le_rfl
  · intro q d hd
    obtain ⟨hq, hle⟩ := H.held q d hd
    refine ⟨hq, ?_⟩
    rw [extend_size]
    lia

theorem bytes_extend (H : HeapInv h l X K S) (hS : S p = none) {bs : List Byte}
    (hr : r ∈ X) : (h.extend p bs).bytes r = h.bytes r := by
  refine read_congr fun i _ hi => ?_
  by_cases heq : r.block = p
  · refine extend_data_below h p r.block bs (lt_of_lt_of_le hi ?_)
    have := H.bound r hr
    rwa [lim, heq, hS, Option.getD_none, ← heq] at this
  · rw [extend_data_of_ne h p r.block bs heq]

/-! ## The functions of the source -/

theorem newBlock (H : HeapInv h l X K S) (n : ℕ) :
    HeapInv (h.newBlock n) l X (h.brk ::ₘ K) S ∧ Frame h (h.newBlock n) X K ∧ S h.brk = none := by
  have hfresh := H.not_mem_of_brk_le (le_refl h.brk)
  have hold : ∀ q ∈ owners l X K, (h.newBlock n).blk q = h.blk q := fun q hq => by
    rw [Heap.newBlock, Heap.setBlk_blk, if_neg fun heq : q = h.brk => hfresh (heq ▸ hq)]
  have hl : ∀ q ∈ l, (h.newBlock n).blk q = h.blk q := fun q hq =>
    hold q (mem_owners.2 (.inl hq))
  have hK : ∀ q ∈ K, (h.newBlock n).blk q = h.blk q := fun q hq =>
    hold q (mem_owners.2 (.inr (.inl hq)))
  have hX : ∀ x ∈ X, (h.newBlock n).blk x.block = h.blk x.block := fun x hx =>
    hold _ (mem_owners.2 (.inr (.inr ⟨x, hx, rfl⟩)))
  have hlow : ∀ q < h.brk, (h.newBlock n).blk q = h.blk q := fun q hq => by
    rw [Heap.newBlock, Heap.setBlk_blk, if_neg (ne_of_lt hq)]
  refine ⟨?_, ⟨fun x hx => ?_, fun q hq => ?_, fun q hq => ?_, fun q hq => ?_, fun q hq => ?_,
    ⟨Nat.le_succ _, rfl, fun q hq hl => by rwa [hlow q hq] at hl,
      fun q hq _ => by rw [hlow q hq], fun q hq _ i _ => by rw [hlow q hq]⟩⟩, ?_⟩
  · constructor
    · exact H.chain.congr fun q hq => by rw [hl q hq]
    · exact H.num
    · rw [Multiset.add_cons, Multiset.nodup_cons]
      refine ⟨fun hm => hfresh ?_, H.nodup⟩
      exact mem_add.2 (.inl hm)
    · intro q
      have hcons : owners l X (h.brk ::ₘ K) = h.brk ::ₘ owners l X K := by
        simp [owners, Multiset.add_cons, Multiset.cons_add]
      rw [hcons, Multiset.count_cons, Heap.newBlock, Heap.setBlk_blk]
      obtain rfl | hq := eq_or_ne q h.brk
      · simp [Multiset.count_eq_zero.2 hfresh]
      · simp [hq, H.count q]
    · exact Nat.succ_pos _
    · intro q hq
      rw [Heap.newBlock, Heap.setBlk_blk] at hq ⊢
      split at hq
      next heq =>
        subst heq
        exact ⟨H.brk, Nat.lt_succ_self _, by simp⟩
      next hne =>
        obtain ⟨h0, hlt, hle⟩ := H.live q hq
        exact ⟨h0, Nat.lt_succ_of_lt hlt, by simpa [hne] using hle⟩
    · intro x hx
      rw [lim, hX x hx]
      exact H.bound x hx
    · intro q d hd
      obtain ⟨hq, hle⟩ := H.held q d hd
      exact ⟨Multiset.mem_cons_of_mem hq, by rw [hK q hq]; exact hle⟩
  · exact read_congr fun i _ _ => by rw [hX x hx]
  · rw [hK q hq]
  · rw [hK q hq]
  · rw [hK q hq]
  · rw [hK q hq]
  · by_contra hne
    obtain ⟨d, hd⟩ := Option.ne_none_iff_exists'.1 hne
    exact hfresh (mem_owners.2 (.inr (.inl (H.held _ d hd).1)))

/-- `create_block` returns `NULL` or a fresh, empty block for its caller. -/
theorem createBlock (H : HeapInv h l X K S) {n : ℕ} (hn : n ≤ 0xFFFFFFFF) {h' : Heap}
    (heq : h.createBlock n = (p, h')) :
    Frame h h' X K ∧ ((p = NULL ∧ h.oom h.brk = true ∧ HeapInv h' l X K S) ∨
        (p ≠ NULL ∧ p = h.brk ∧ S p = none ∧ HeapInv h' l X (p ::ₘ K) S ∧ (h'.blk p).size = 0 ∧
          (h'.blk p).cap = Heap.blockCap n ∧ (h'.blk p).portalNext = NULL)) := by
  unfold Heap.createBlock at heq
  rw [if_neg (by lia)] at heq
  split at heq <;> rename_i hoom
  · cases heq
    refine ⟨.of_same rfl (Nat.le_succ _) rfl,
      .inl ⟨rfl, hoom, H.chain, H.num, H.nodup, H.count, Nat.succ_pos _, fun p hp => ?_,
        H.bound, H.held⟩⟩
    obtain ⟨h0, hlt, hle⟩ := H.live p hp
    exact ⟨h0, Nat.lt_succ_of_lt hlt, hle⟩
  · cases heq
    obtain ⟨H', hframe, hS⟩ := H.newBlock (Heap.blockCap n)
    exact ⟨hframe, .inr ⟨Nat.pos_iff_ne_zero.1 H.brk, rfl, hS, H',
      by simp [Heap.newBlock, Heap.setBlk_blk], by simp [Heap.newBlock, Heap.setBlk_blk],
      by simp [Heap.newBlock, Heap.setBlk_blk]⟩⟩

/-- The loop takes the full blocks `d` off the front of the chain. -/
theorem dropFull : ∀ {fuel : ℕ} {h : Heap} {l : List Ptr}, HeapInv h l X K S →
    l.length ≤ fuel → Frame h (dropFull fuel h) X K ∧
      ∃ d l', l = d ++ l' ∧ HeapInv (dropFull fuel h) l' X K S ∧
        ∀ p ∈ l'.head?, ((dropFull fuel h).blk p).size < ((dropFull fuel h).blk p).cap
  | 0, h, l, H, hl => by
    obtain rfl : l = [] := length_eq_zero_iff.1 (by lia)
    exact ⟨.refl h X K, [], [], rfl, H, by simp⟩
  | fuel + 1, h, l, H, hl => by
    unfold Heap.dropFull
    cases l with
    | nil =>
      have hnull : h.blockHead = NULL := Lib.chain_nil.1 H.chain
      rw [if_neg (by simp [hnull])]
      exact ⟨.refl h X K, [], [], rfl, H, by simp⟩
    | cons p l =>
      have hhead : h.blockHead = p := (Lib.chain_cons.1 H.chain).1
      have hne : p ≠ NULL := (Lib.chain_cons.1 H.chain).2.1
      by_cases hfull : (h.blk p).full
      · rw [if_pos (by rw [hhead]; exact ⟨hne, hfull⟩)]
        subst hhead
        have H' := H.dropHead
        obtain ⟨hframe, d, l', rfl, Hl', hhd⟩ := dropFull H' (by simp at hl; omega)
        refine ⟨.trans ?_ hframe, h.blockHead :: d, l', rfl, Hl', hhd⟩
        have hf := Heap.RefOnly.decRef h h.blockHead
        have hgrows := Heap.Grows.of_refOnly hf
        exact ⟨fun x hx => hf.bytes (H'.pos_of_ref hx), fun q hq => hf.size q (H'.pos_of_held hq),
          fun q hq => hf.cap q (H'.pos_of_held hq),
          fun q hq => hf.next q (H'.pos_of_held hq),
          fun q hq => hf.data q (H'.pos_of_held hq),
          ⟨hgrows.brk, hgrows.oom, hgrows.old, hgrows.size, hgrows.data⟩⟩
      · rw [if_neg (by rw [hhead]; simp [hfull])]
        refine ⟨.refl h X K, [], p :: l, rfl, H, ?_⟩
        intro q hq
        obtain rfl : p = q := by simpa using hq
        simpa [Block.full] using hfull

theorem head_cases (H : HeapInv h l X K S) :
    (h.blockHead = NULL ∧ l = []) ∨ ∃ l', l = h.blockHead :: l' ∧ h.blockHead ≠ NULL := by
  cases l with
  | nil => exact .inl ⟨Lib.chain_nil.1 H.chain, rfl⟩
  | cons p l' =>
    obtain ⟨hp, hne, -⟩ := Lib.chain_cons.1 H.chain
    exact .inr ⟨l', by rw [hp], by rw [hp]; exact hne⟩

/-- `share_tls_block`: the head of the chain afterwards is the returned,
non-full block. -/
theorem shareTlsBlock (H : HeapInv h l X K S) {h' : Heap} (heq : h.shareTlsBlock = (b, h')) :
    Frame h h' X K ∧ ((b = NULL ∧ (∃ q, h.oom q = true) ∧ ∃ l', HeapInv h' l' X K S) ∨
        (b ≠ NULL ∧ ∃ l', HeapInv h' (b :: l') X K S ∧ (h'.blk b).size < (h'.blk b).cap)) := by
  unfold Heap.shareTlsBlock at heq
  split at heq
  next hhead =>
    cases heq
    refine ⟨.refl h X K, .inr ⟨hhead.1, ?_⟩⟩
    rcases H.head_cases with ⟨hnull, -⟩ | ⟨l', rfl, -⟩
    · exact absurd hnull hhead.1
    · exact ⟨l', H, by simpa [Block.full] using hhead.2⟩
  · -- After the loop either a usable head is left or the chain is empty.
    obtain ⟨h1, hh1⟩ : ∃ h1, h1 = if h.blockHead ≠ NULL then Heap.dropFull h.brk h
        else { h with registered := true } := ⟨_, rfl⟩
    simp only [← hh1] at heq
    obtain ⟨hframe, l1, H1, hroom⟩ : Frame h h1 X K ∧ ∃ l', HeapInv h1 l' X K S ∧
        ∀ p ∈ l'.head?, (h1.blk p).size < (h1.blk p).cap := by
      rw [hh1]
      rcases H.head_cases with ⟨hnull, rfl⟩ | ⟨l', rfl, hne⟩
      · rw [if_neg (by simp [hnull])]
        exact ⟨.of_same rfl le_rfl rfl, [], H.withRegistered true, by simp⟩
      · rw [if_pos hne]
        obtain ⟨hf, d, l', -, H', hroom⟩ := dropFull H H.length_le_brk
        exact ⟨hf, l', H', hroom⟩
    rcases H1.head_cases with ⟨hnull, rfl⟩ | ⟨l', rfl, hne⟩
    · rw [if_neg (by simp [hnull])] at heq
      rcases hcr : h1.createBlock DEFAULT_BLOCK_SIZE with ⟨nb, h2⟩
      rw [hcr] at heq
      cases heq
      obtain ⟨hframe2, hcase⟩ := H1.createBlock (by decide) hcr
      refine ⟨(hframe.trans hframe2).trans (.of_same rfl le_rfl rfl), ?_⟩
      rcases hcase with ⟨rfl, hoom, H2⟩ | ⟨hnb, -, hS, H2, hsize, hcap, hnext⟩
      · refine .inl ⟨rfl, ⟨h1.brk, hframe.oom ▸ hoom⟩, [], ?_⟩
        exact ⟨Lib.chain_nil.2 rfl, by simpa using H2.num, H2.nodup, H2.count, H2.brk, H2.live,
          H2.bound, H2.held⟩
      · refine .inr ⟨hnb, [], ?_, ?_⟩
        · have hnull2 : h2.blockHead = NULL := Lib.chain_nil.1 H2.chain
          have H3 := H2.pushTls hS h2.registered
          refine ⟨?_, ?_, H3.nodup, fun q => ?_, H3.brk, fun q hq => ?_, fun x hx => ?_,
            fun q d hd => ?_⟩
          · exact Lib.chain_cons.2 ⟨rfl, hnb, Lib.chain_nil.2 hnext⟩
          · have := H2.num
            simp [hnb, this]
          · simpa using H3.count q
          · exact H2.live q hq
          · exact H2.bound x hx
          · simpa using H3.held q d hd
        · rw [hsize, hcap]
          decide
    · rw [if_pos hne] at heq
      cases heq
      exact ⟨hframe, .inr ⟨hne, l', H1, hroom _ (by simp)⟩⟩

/-- `acquire_tls_block`: the returned block is non-full and the caller's own. It
is new, or it is the first block `b` of the chain behind full ones. -/
theorem acquireTlsBlock (H : HeapInv h l X K S) {h' : Heap} (heq : h.acquireTlsBlock = (b, h')) :
    Frame h h' X K ∧
      ((b = NULL ∧ (∃ q, h.oom q = true) ∧ ∃ d l', l = d ++ l' ∧ HeapInv h' l' X K S) ∨
        (b ≠ NULL ∧ S b = none ∧ (∃ d l', HeapInv h' l' X (b ::ₘ K) S ∧
            ((l' = [] ∧ b ∉ owners l X K) ∨ l = d ++ b :: l')) ∧
          (h'.blk b).size < (h'.blk b).cap ∧ (h'.blk b).portalNext = NULL)) := by
  unfold Heap.acquireTlsBlock at heq
  obtain ⟨h1, hh1⟩ : ∃ h1, h1 = if h.blockHead = NULL then h else Heap.dropFull h.brk h := ⟨_, rfl⟩
  simp only [← hh1] at heq
  obtain ⟨hframe, d, l1, rfl, H1, hroom⟩ : Frame h h1 X K ∧ ∃ d l', l = d ++ l' ∧
      HeapInv h1 l' X K S ∧ ∀ p ∈ l'.head?, (h1.blk p).size < (h1.blk p).cap := by
    rw [hh1]
    rcases H.head_cases with ⟨hnull, rfl⟩ | ⟨l', rfl, hne⟩
    · rw [if_pos hnull]
      exact ⟨.refl h X K, [], [], rfl, H, by simp⟩
    · rw [if_neg hne]
      exact dropFull H H.length_le_brk
  rcases H1.head_cases with ⟨hnull, rfl⟩ | ⟨l', rfl, hne⟩
  · rw [if_pos hnull] at heq
    obtain ⟨hframe2, hcase⟩ := H1.createBlock (by decide) heq
    refine ⟨hframe.trans hframe2, ?_⟩
    rcases hcase with ⟨rfl, hoom, H2⟩ | ⟨hnb, hfresh, hS, H2, hsize, hcap, hnext⟩
    · exact .inl ⟨rfl, ⟨h1.brk, hframe.oom ▸ hoom⟩, d, [], rfl, H2⟩
    · refine .inr ⟨hnb, hS, ⟨d, [], H2, .inl ⟨rfl, ?_⟩⟩, ?_, hnext⟩
      · exact H.not_mem_of_brk_le (hfresh ▸ hframe.grows.brk)
      · rw [hsize, hcap]
        decide
  · rw [if_neg hne] at heq
    cases heq
    have hmem : h1.blockHead ∈ h1.blockHead :: l' := mem_cons_self
    have hK := H1.not_held_of_tls hmem
    refine ⟨hframe.trans (.of_links rfl rfl (fun q => ?_) (fun q => ?_) (fun q => ?_)
      (fun q => ?_) fun q hq => ?_),
      .inr ⟨hne, H1.lim_none_of_tls hmem, ⟨d, l', H1.popTls, .inr rfl⟩, ?_, ?_⟩⟩
    · rw [Heap.setPortalNext_nshared]
    · rw [Heap.setPortalNext_size]
    · rw [Heap.setPortalNext_cap]
    · rw [Heap.setPortalNext_data]
    · rw [Heap.setPortalNext_next, if_neg fun heq : q = h1.blockHead => hK (heq ▸ hq)]
    · simpa using hroom _ (by simp)
    · rw [Heap.setPortalNext_next, if_pos rfl]

theorem releaseTlsBlock (H : HeapInv h l X (b ::ₘ K) S) (hS : S b = none) :
    Frame h (h.releaseTlsBlock b) X K ∧ ∃ l', HeapInv (h.releaseTlsBlock b) l' X K S ∧
      (l' = l ∨ (l' = b :: l ∧ (h.blk b).full = false)) := by
  have hb : b ≠ NULL :=
    Nat.pos_iff_ne_zero.1 (H.live b (H.pos_of_held (mem_cons_self b K))).1
  have hdrop := H.dropHeld hS
  unfold Heap.releaseTlsBlock
  rw [if_neg hb]
  split
  · exact ⟨.of_refOnly (.decRef h b) hdrop, l, hdrop, .inl rfl⟩
  split
  · exact ⟨.of_refOnly (.decRef h b) hdrop, l, hdrop, .inl rfl⟩
  next hnfull _ =>
    have hnd := H.nodup
    rw [Multiset.add_cons, Multiset.nodup_cons] at hnd
    have hbK : b ∉ K := fun hm => hnd.1 (mem_add.2 (.inr hm))
    refine ⟨.of_links rfl rfl (fun q => ?_) (fun q => ?_) (fun q => ?_) (fun q => ?_)
      fun q hq => ?_, b :: l, H.pushTls hS true, .inr ⟨rfl, by simpa using hnfull⟩⟩
    · exact setPortalNext_nshared h b q h.blockHead
    · exact setPortalNext_size h b q h.blockHead
    · exact setPortalNext_cap h b q h.blockHead
    · exact setPortalNext_data h b q h.blockHead
    · rw [setPortalNext_next, if_neg fun heq : q = b => hbK (heq ▸ hq)]

/-! ## Chains of held blocks -/

theorem held_length_le_brk (H : HeapInv h l X (c + K) S) : c.length ≤ h.brk := by
  have hnd : c.Nodup := by
    have := (nodup_add.1 (nodup_add.1 H.nodup).2.1).1
    exact coe_nodup.1 this
  have hsub : c.toFinset ⊆ Finset.range h.brk := fun p hp => by
    have hmem : p ∈ (c : Multiset Ptr) + K := mem_add.2 (.inl (mem_toFinset.1 hp))
    exact Finset.mem_range.2 (H.live p (H.pos_of_held hmem)).2.1
  have := Finset.card_le_card hsub
  rwa [toFinset_card_of_nodup hnd, Finset.card_range] at this

theorem decRefChain : ∀ {c : List Ptr} {fuel : ℕ} {b : Ptr} {h : Heap}, c ≠ [] →
    HeapInv h l X (c + K) S → (∀ p ∈ c, S p = none) →
    Lib.Chain (fun p => (h.blk p).portalNext) NULL b c → c.length ≤ fuel →
    HeapInv (decRefChain fuel b h) l X K S ∧ Heap.RefOnly h (decRefChain fuel b h)
  | [], _, _, _, hne, _, _, _, _ => absurd rfl hne
  | _ :: _, 0, _, _, _, _, _, _, hfuel => by simp at hfuel
  | p :: c, fuel + 1, b, h, _, H, hS, hc, hfuel => by
    obtain ⟨rfl, hb, hc'⟩ := Lib.chain_cons.1 hc
    rw [← Multiset.cons_coe, Multiset.cons_add] at H
    have H1 := H.dropHeld (hS b mem_cons_self)
    have hf1 := Heap.RefOnly.decRef h b
    unfold Heap.decRefChain
    by_cases hnext : (h.blk b).portalNext = NULL
    · obtain rfl : c = [] := hc'.eq_nil_iff.2 hnext
      simp only [if_pos hnext]
      exact ⟨by simpa using H1, hf1⟩
    · simp only [if_neg hnext]
      have hcne : c ≠ [] := fun h => hnext (hc'.eq_nil_iff.1 h)
      have hc1 : Lib.Chain (fun p => ((h.decRef b).blk p).portalNext) NULL
          (h.blk b).portalNext c := hc'.congr fun q hq =>
        hf1.next q (H1.pos_of_held (mem_add.2 (.inl hq)))
      obtain ⟨H2, hf2⟩ := decRefChain hcne H1 (fun q hq => hS q (mem_cons_of_mem _ hq)) hc1
        (by simpa using hfuel)
      exact ⟨H2, hf1.trans hf2⟩

theorem chainEnd_eq {h : Heap} : ∀ {c : List Ptr} {p : Ptr} {fuel : ℕ} {b : Ptr},
    Lib.Chain (fun p => (h.blk p).portalNext) NULL b (c ++ [p]) → c.length < fuel →
    chainEnd fuel b h = (p, c.length + 1)
  | [], p, 0, _, _, hfuel => by simp at hfuel
  | [], p, fuel + 1, b, hc, _ => by
    obtain ⟨rfl, -, hc'⟩ := Lib.chain_cons.1 hc
    have hnull : (h.blk b).portalNext = NULL := Lib.chain_nil.1 hc'
    simp [chainEnd, hnull]
  | q :: c, p, 0, _, _, hfuel => by simp at hfuel
  | q :: c, p, fuel + 1, b, hc, hfuel => by
    obtain ⟨rfl, -, hc'⟩ := Lib.chain_cons.1 hc
    have hnext : (h.blk b).portalNext ≠ NULL := fun hnull => by
      have := hc'.eq_nil_iff.2 hnull
      simp at this
    simp [chainEnd, hnext, chainEnd_eq hc' (by simpa using hfuel)]

theorem splice (H : HeapInv h l X (((c ++ [p] : List Ptr) : Multiset Ptr) + K) S)
    (hS : ∀ q ∈ c ++ [p], S q = none)
    (hc : Lib.Chain (fun p => (h.blk p).portalNext) NULL b (c ++ [p])) :
    HeapInv { h.setPortalNext p h.blockHead with
      blockHead := b
      numBlocks := h.numBlocks + (c.length + 1 : ℕ)
      registered := true } (c ++ [p] ++ l) X K S := by
  have hnd := H.nodup
  have hnd' : (((c ++ [p] ++ l : List Ptr) : Multiset Ptr) + K).Nodup := by
    have heq : ((c ++ [p] ++ l : List Ptr) : Multiset Ptr) + K =
        (l : Multiset Ptr) + (((c ++ [p] : List Ptr) : Multiset Ptr) + K) := by
      rw [← coe_add, add_left_comm, add_assoc]
    rwa [heq]
  have hlist : (c ++ [p] ++ l).Nodup := coe_nodup.1 (nodup_add.1 hnd').1
  have hpc : p ∉ c := fun hm => by
    have := (nodup_append.1 (nodup_append.1 hlist).1).2.2
    exact this p hm p (by simp) rfl
  have hpl : p ∉ l := fun hm => (nodup_append.1 hlist).2.2 p (by simp) p hm rfl
  constructor
  · refine ⟨Lib.seg_append.2 ⟨h.blockHead, Lib.seg_append.2 ⟨p, ?_, ?_⟩, ?_⟩, ?_⟩
    · obtain ⟨m, hs, hm⟩ := Lib.seg_append.1 hc.1
      obtain rfl : m = p := (Lib.seg_cons.1 hm).1
      refine hs.congr fun q hq => ?_
      rw [setPortalNext_next, if_neg fun heq : q = m => hpc (heq ▸ hq)]
    · refine Lib.seg_cons.2 ⟨rfl, ?_⟩
      rw [setPortalNext_next, if_pos rfl]
      exact Lib.seg_nil.2 rfl
    · refine H.chain.1.congr fun q hq => ?_
      rw [setPortalNext_next, if_neg fun heq : q = p => hpl (heq ▸ hq)]
    · rw [mem_append, not_or]
      exact ⟨hc.2, H.chain.2⟩
  · rw [H.num]
    simp
    lia
  · exact hnd'
  · intro q
    rw [setPortalNext_nshared, H.count q]
    simp only [owners, ← coe_add, Multiset.count_add]
    push_cast
    lia
  · exact H.brk
  · intro q hq
    simp only [setPortalNext_nshared, setPortalNext_size, setPortalNext_cap] at hq ⊢
    exact H.live q hq
  · intro x hx
    simp only [lim, setPortalNext_size]
    exact H.bound x hx
  · intro q d hd
    obtain ⟨hq, hle⟩ := H.held q d hd
    rcases mem_add.1 hq with hq | hq
    · rw [hS q hq] at hd
      exact absurd hd (by simp)
    · exact ⟨hq, by simpa using hle⟩

/-- `release_tls_block_chain` takes a held chain back, or drops it. -/
theorem releaseTlsBlockChain (H : HeapInv h l X (c + K) S) (hne : c ≠ [])
    (hS : ∀ p ∈ c, S p = none) (hc : Lib.Chain (fun p => (h.blk p).portalNext) NULL b c) :
    Frame h (h.releaseTlsBlockChain b) X K ∧ ∃ l', HeapInv (h.releaseTlsBlockChain b) l' X K S := by
  have hlen := H.held_length_le_brk
  unfold Heap.releaseTlsBlockChain
  split
  · obtain ⟨H', hf⟩ := decRefChain hne H hS hc hlen
    exact ⟨.of_refOnly hf H', l, H'⟩
  · obtain ⟨init, p, rfl⟩ := eq_nil_or_concat' c |>.resolve_left hne
    have hlen' : init.length < h.brk := by
      rw [length_append] at hlen
      exact Nat.lt_of_succ_le hlen
    rw [chainEnd_eq hc hlen']
    refine ⟨.of_links rfl rfl (fun q => ?_) (fun q => ?_) (fun q => ?_) (fun q => ?_)
      fun q hq => ?_, _, H.splice hS hc⟩
    · exact setPortalNext_nshared h p q h.blockHead
    · exact setPortalNext_size h p q h.blockHead
    · exact setPortalNext_cap h p q h.blockHead
    · exact setPortalNext_data h p q h.blockHead
    · have hnd := (nodup_add.1 (nodup_add.1 H.nodup).2.1).2.2
      have hqp : q ≠ p := fun heq => disjoint_left.1 hnd (by simp [heq]) hq
      rw [setPortalNext_next, if_neg hqp]

end HeapInv

end Eabase.IOBuf
