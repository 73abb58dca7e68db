import Eabase.IOBuf.View
import Eabase.Lib.Chain
import Mathlib.Algebra.BigOperators.Group.Finset.Basic
import Mathlib.Tactic.Abel

/-!
# Who may write where: the heap invariant

`HeapInv h l X K S` describes a heap together with everything that points
into it: `l` is the thread-local chain, `X` the references of all `IOBuf`s
(and of the references an operation holds in its hand), `K` the blocks held
by portals and output streams.

* the reference count of a block is the number of its occurrences in `l`,
  `K` and `X`, so no reference dangles;
* a block is in at most one of `l` and `K`, and there at most once: at most
  one holder may append to it;
* every reference ends at or below the *limit* of its block, and holders
  write only at or above it. The limit is `size`, except for a block whose
  owner has announced a smaller one in `S` (an output stream that took the
  whole rest of the block but has filled only a part).

Each reference-count operation of the source adds or removes one member of
`X` (`HeapInv.incRef`, `HeapInv.decRef`), and each TLS operation moves a
block between `l` and `K`; the operations of the buffers are built from
these.
-/

namespace Eabase.IOBuf

open List

/-! ## Bytes -/

namespace Heap

def bytes (h : Heap) (r : BlockRef) : List Byte := h.read r.block r.offset r.length

def content (h : Heap) (l : List BlockRef) : List Byte := l.flatMap h.bytes

@[simp] theorem read_length (h : Heap) (p : Ptr) (off n : ℕ) : (h.read p off n).length = n := by
  simp [read]

@[simp] theorem bytes_length (h : Heap) (r : BlockRef) : (h.bytes r).length = r.length := by
  simp [bytes]

@[simp] theorem content_nil (h : Heap) : h.content [] = [] := rfl

@[simp] theorem content_cons (h : Heap) (r : BlockRef) (l : List BlockRef) :
    h.content (r :: l) = h.bytes r ++ h.content l := by simp [content]

@[simp] theorem content_append (h : Heap) (l l' : List BlockRef) :
    h.content (l ++ l') = h.content l ++ h.content l' := by simp [content]

theorem content_length (h : Heap) (l : List BlockRef) : (h.content l).length = sumLen l := by
  induction l with
  | nil => rfl
  | cons r l ih => simp [ih]

theorem content_congr {h h' : Heap} {l : List BlockRef}
    (hl : ∀ r ∈ l, h'.bytes r = h.bytes r) : h'.content l = h.content l := by
  induction l with
  | nil => rfl
  | cons r l ih =>
    rw [content_cons, content_cons, hl r mem_cons_self, ih fun x hx => hl x (mem_cons_of_mem _ hx)]

theorem read_add (h : Heap) (p : Ptr) (off m n : ℕ) :
    h.read p off (m + n) = h.read p off m ++ h.read p (off + m) n := by
  simp only [read, range_add, map_append, map_map]
  congr 1
  apply map_congr_left
  intro i _
  simp [add_assoc]

theorem read_congr {h h' : Heap} {p : Ptr} {off n : ℕ}
    (hd : ∀ i, off ≤ i → i < off + n → (h'.blk p).data i = (h.blk p).data i) :
    h'.read p off n = h.read p off n := by
  apply map_congr_left
  intro i hi
  exact hd _ (Nat.le_add_right _ _) (by have := mem_range.1 hi; lia)

theorem read_take {h : Heap} {p : Ptr} {off m n : ℕ} (hm : m ≤ n) :
    (h.read p off n).take m = h.read p off m := by
  obtain ⟨k, rfl⟩ := Nat.exists_eq_add_of_le hm
  rw [read_add, take_left' (by simp)]

theorem read_drop {h : Heap} {p : Ptr} {off m n : ℕ} (hm : m ≤ n) :
    (h.read p off n).drop m = h.read p (off + m) (n - m) := by
  obtain ⟨k, rfl⟩ := Nat.exists_eq_add_of_le hm
  rw [read_add, drop_left' (by simp), Nat.add_sub_cancel_left]

theorem content_drop_cons {h : Heap} {r : BlockRef} {l : List BlockRef} {n : ℕ}
    (hn : r.length ≤ n) : (h.content (r :: l)).drop n = (h.content l).drop (n - r.length) := by
  have hlen : (h.bytes r).length ≤ n := by rwa [bytes_length]
  rw [content_cons, drop_append, drop_eq_nil_of_le hlen, bytes_length, nil_append]

theorem content_take_cons {h : Heap} {r : BlockRef} {l : List BlockRef} {n : ℕ}
    (hn : r.length ≤ n) :
    (h.content (r :: l)).take n = h.bytes r ++ (h.content l).take (n - r.length) := by
  have hlen : (h.bytes r).length ≤ n := by rwa [bytes_length]
  rw [content_cons, take_append, take_of_length_le hlen, bytes_length]

theorem content_take_of_le {h : Heap} {r : BlockRef} {l : List BlockRef} {n : ℕ}
    (hn : n ≤ r.length) : (h.content (r :: l)).take n = h.read r.block r.offset n := by
  rw [content_cons, take_append_of_le_length (by rwa [bytes_length])]
  exact read_take hn

theorem bytes_grow {h : Heap} {back r : BlockRef} (hm : back.mergeable r) :
    h.bytes (back.grow r) = h.bytes back ++ h.bytes r := by
  obtain ⟨hb, ho⟩ := hm
  simp only [bytes, BlockRef.grow, read_add, ← hb, ho]

theorem content_mergePush (h : Heap) (l : List BlockRef) (r : BlockRef) :
    h.content (mergePush l r) = h.content l ++ h.bytes r := by
  induction l using reverseRecOn with
  | nil => simp
  | append_singleton l back _ =>
    rw [mergePush_concat]
    split
    next hm =>
      simp [bytes_grow hm]
    · simp

/-! ## Reading through an update -/

theorem setBlk_blk (h : Heap) (p q : Ptr) (b : Block) :
    (h.setBlk p b).blk q = if q = p then b else h.blk q := by
  simp [setBlk, Function.update_apply]

section Fields

variable (h : Heap) (p q : Ptr) (n : ℕ) (bs : List Byte)

@[simp] theorem incRef_nshared :
    ((h.incRef p).blk q).nshared = (h.blk q).nshared + if q = p then 1 else 0 := by
  rw [incRef, setBlk_blk]
  split <;> simp_all

@[simp] theorem incRef_size : ((h.incRef p).blk q).size = (h.blk q).size := by
  rw [incRef, setBlk_blk]
  split <;> simp_all

@[simp] theorem incRef_cap : ((h.incRef p).blk q).cap = (h.blk q).cap := by
  rw [incRef, setBlk_blk]
  split <;> simp_all

@[simp] theorem incRef_portalNext :
    ((h.incRef p).blk q).portalNext = (h.blk q).portalNext := by
  rw [incRef, setBlk_blk]
  split <;> simp_all

@[simp] theorem incRef_data : ((h.incRef p).blk q).data = (h.blk q).data := by
  rw [incRef, setBlk_blk]
  split <;> simp_all

theorem decRef_nshared :
    ((h.decRef p).blk q).nshared = (h.blk q).nshared - if q = p then 1 else 0 := by
  unfold decRef
  split <;> rw [setBlk_blk] <;> split <;> simp_all [Block.freed]

end Fields

/-- The reference-count operations leave the rest of every live block, the
chain and the allocator alone. -/
structure RefOnly (h h' : Heap) : Prop where
  live : ∀ p, 0 < (h'.blk p).nshared → 0 < (h.blk p).nshared
  size : ∀ p, 0 < (h'.blk p).nshared → (h'.blk p).size = (h.blk p).size
  cap : ∀ p, 0 < (h'.blk p).nshared → (h'.blk p).cap = (h.blk p).cap
  next : ∀ p, 0 < (h'.blk p).nshared → (h'.blk p).portalNext = (h.blk p).portalNext
  data : ∀ p, 0 < (h'.blk p).nshared → (h'.blk p).data = (h.blk p).data
  brk : h'.brk = h.brk
  oom : h'.oom = h.oom
  blockHead : h'.blockHead = h.blockHead
  numBlocks : h'.numBlocks = h.numBlocks

namespace RefOnly

variable {h h' h'' : Heap} {r : BlockRef}

theorem refl (h : Heap) : RefOnly h h :=
  ⟨fun _ hp => hp, fun _ _ => rfl, fun _ _ => rfl, fun _ _ => rfl, fun _ _ => rfl,
    rfl, rfl, rfl, rfl⟩

theorem trans (h1 : RefOnly h h') (h2 : RefOnly h' h'') : RefOnly h h'' where
  live p hp := h1.live p (h2.live p hp)
  size p hp := (h2.size p hp).trans (h1.size p (h2.live p hp))
  cap p hp := (h2.cap p hp).trans (h1.cap p (h2.live p hp))
  next p hp := (h2.next p hp).trans (h1.next p (h2.live p hp))
  data p hp := (h2.data p hp).trans (h1.data p (h2.live p hp))
  brk := h2.brk.trans h1.brk
  oom := h2.oom.trans h1.oom
  blockHead := h2.blockHead.trans h1.blockHead
  numBlocks := h2.numBlocks.trans h1.numBlocks

theorem bytes (hf : RefOnly h h') (hp : 0 < (h'.blk r.block).nshared) : h'.bytes r = h.bytes r :=
  read_congr fun _ _ _ => by rw [hf.data _ hp]

theorem incRef {p : Ptr} (hp : 0 < (h.blk p).nshared) : RefOnly h (h.incRef p) where
  live q hq := by
    rw [incRef_nshared] at hq
    split at hq
    next heq =>
      exact heq ▸ hp
    · lia
  size q _ := incRef_size h p q
  cap q _ := incRef_cap h p q
  next q _ := incRef_portalNext h p q
  data q _ := incRef_data h p q
  brk := rfl
  oom := rfl
  blockHead := rfl
  numBlocks := rfl

theorem decRef_blk {p q : Ptr} (hq : 0 < ((h.decRef p).blk q).nshared) :
    (h.decRef p).blk q = { h.blk q with nshared := ((h.decRef p).blk q).nshared } := by
  unfold decRef at hq ⊢
  split at hq <;> rename_i hp <;> rw [setBlk_blk] at hq
  · rw [if_pos hp, setBlk_blk]
    split
    next heq =>
      rw [if_pos heq] at hq
      exact absurd hq (lt_irrefl _)
    · rfl
  · rw [if_neg hp, setBlk_blk]
    split
    next heq =>
      subst heq
      rfl
    · rfl

theorem decRef (h : Heap) (p : Ptr) : RefOnly h (h.decRef p) where
  live q hq := by
    rw [decRef_nshared] at hq
    split at hq <;> lia
  size q hq := by rw [decRef_blk hq]
  cap q hq := by rw [decRef_blk hq]
  next q hq := by rw [decRef_blk hq]
  data q hq := by rw [decRef_blk hq]
  brk := by unfold Heap.decRef; split <;> rfl
  oom := by unfold Heap.decRef; split <;> rfl
  blockHead := by unfold Heap.decRef; split <;> rfl
  numBlocks := by unfold Heap.decRef; split <;> rfl

end RefOnly

/-- References may not reach beyond it, holders may not write below it. -/
def lim (h : Heap) (S : Ptr → Option ℕ) (p : Ptr) : ℕ := (S p).getD (h.blk p).size

end Heap

/-! ## The invariant -/

/-- Every pointer to a block that counts as a reference. -/
def owners (l : List Ptr) (X : Multiset BlockRef) (K : Multiset Ptr) : Multiset Ptr :=
  (l : Multiset Ptr) + K + X.map BlockRef.block

theorem mem_owners {l : List Ptr} {X : Multiset BlockRef} {K : Multiset Ptr} {p : Ptr} :
    p ∈ owners l X K ↔ p ∈ l ∨ p ∈ K ∨ ∃ r ∈ X, r.block = p := by
  simp only [owners, Multiset.mem_add, Multiset.mem_coe, Multiset.mem_map, or_assoc]

structure HeapInv (h : Heap) (l : List Ptr) (X : Multiset BlockRef) (K : Multiset Ptr)
    (S : Ptr → Option ℕ) : Prop where
  chain : Lib.Chain (fun p => (h.blk p).portalNext) NULL h.blockHead l
  num : h.numBlocks = l.length
  nodup : ((l : Multiset Ptr) + K).Nodup
  count : ∀ p, (h.blk p).nshared = (owners l X K).count p
  brk : 0 < h.brk
  live : ∀ p, 0 < (h.blk p).nshared → 0 < p ∧ p < h.brk ∧ (h.blk p).size ≤ (h.blk p).cap
  bound : ∀ r ∈ X, r.stop ≤ h.lim S r.block
  held : ∀ p d, S p = some d → p ∈ K ∧ d ≤ (h.blk p).size

namespace HeapInv

variable {h h' : Heap} {l : List Ptr} {X Y : Multiset BlockRef} {K : Multiset Ptr}
  {S : Ptr → Option ℕ} {r r' : BlockRef} {p : Ptr}

section

variable (H : HeapInv h l X K S)
include H

theorem of_eq (hX : X = Y) : HeapInv h l Y K S := hX ▸ H

theorem pos_of_mem (hp : p ∈ owners l X K) : 0 < (h.blk p).nshared := by
  rw [H.count p]
  exact_mod_cast Multiset.count_pos.2 hp

theorem pos_of_ref (hr : r ∈ X) : 0 < (h.blk r.block).nshared :=
  H.pos_of_mem (mem_owners.2 (.inr (.inr ⟨r, hr, rfl⟩)))

theorem pos_of_tls (hp : p ∈ l) : 0 < (h.blk p).nshared :=
  H.pos_of_mem (mem_owners.2 (.inl hp))

theorem pos_of_held (hp : p ∈ K) : 0 < (h.blk p).nshared :=
  H.pos_of_mem (mem_owners.2 (.inr (.inl hp)))

theorem block_ne_null (hr : r ∈ X) : r.block ≠ NULL :=
  Nat.pos_iff_ne_zero.1 (H.live _ (H.pos_of_ref hr)).1

/-- Changes of reference counts preserve the invariant once the new counts
are right and the new references are in bounds. -/
theorem of_refOnly (hf : Heap.RefOnly h h')
    (hcount : ∀ p, (h'.blk p).nshared = (owners l Y K).count p)
    (hbound : ∀ r ∈ Y, r.stop ≤ h.lim S r.block) : HeapInv h' l Y K S := by
  have hpos : ∀ p ∈ owners l Y K, 0 < (h'.blk p).nshared := fun p hp => by
    rw [hcount p]
    exact_mod_cast Multiset.count_pos.2 hp
  have htls : ∀ p ∈ l, 0 < (h'.blk p).nshared := fun p hp =>
    hpos p (mem_owners.2 (.inl hp))
  have hheld : ∀ p ∈ K, 0 < (h'.blk p).nshared := fun p hp =>
    hpos p (mem_owners.2 (.inr (.inl hp)))
  constructor
  · rw [hf.blockHead]
    exact H.chain.congr fun p hp => hf.next p (htls p hp)
  · rw [hf.numBlocks, H.num]
  · exact H.nodup
  · exact hcount
  · rw [hf.brk]
    exact H.brk
  · intro p hp
    rw [hf.brk, hf.size p hp, hf.cap p hp]
    exact H.live p (hf.live p hp)
  · intro r hr
    have hrpos : 0 < (h'.blk r.block).nshared := hpos _ (mem_owners.2 (.inr (.inr ⟨r, hr, rfl⟩)))
    have := hbound r hr
    rwa [Heap.lim, ← hf.size _ hrpos] at this
  · intro p d hd
    obtain ⟨hp, hle⟩ := H.held p d hd
    exact ⟨hp, by rw [hf.size p (hheld p hp)]; exact hle⟩

theorem incRef (hr : 0 < (h.blk r.block).nshared)
    (hb : r.stop ≤ h.lim S r.block) : HeapInv (h.incRef r.block) l (r ::ₘ X) K S := by
  refine H.of_refOnly (.incRef hr) (fun p => ?_) ?_
  · rw [Heap.incRef_nshared, H.count p]
    simp only [owners, Multiset.map_cons, Multiset.count_add, Multiset.count_cons]
    split <;> push_cast <;> lia
  · intro x hx
    rcases Multiset.mem_cons.1 hx with rfl | hx
    · exact hb
    · exact H.bound x hx

end

theorem decRef (H : HeapInv h l (r ::ₘ X) K S) : HeapInv (h.decRef r.block) l X K S := by
  refine H.of_refOnly (.decRef h _) (fun p => ?_) ?_
  · rw [Heap.decRef_nshared, H.count p]
    simp only [owners, Multiset.map_cons, Multiset.count_add, Multiset.count_cons]
    split <;> push_cast <;> lia
  · intro x hx
    exact H.bound x (Multiset.mem_cons_of_mem hx)

theorem replace (H : HeapInv h l (r ::ₘ X) K S) (hblock : r'.block = r.block)
    (hb : r'.stop ≤ h.lim S r.block) : HeapInv h l (r' ::ₘ X) K S := by
  refine H.of_refOnly (.refl h) (fun p => ?_) ?_
  · rw [H.count p]
    simp only [owners, Multiset.map_cons, hblock]
  · intro x hx
    rcases Multiset.mem_cons.1 hx with rfl | hx
    · rw [hblock]
      exact hb
    · exact H.bound x (Multiset.mem_cons_of_mem hx)

theorem bytes_eq (H : HeapInv h' l X K S) (hf : Heap.RefOnly h h') (hr : r ∈ X) :
    h'.bytes r = h.bytes r := hf.bytes (H.pos_of_ref hr)

end HeapInv

end Eabase.IOBuf
