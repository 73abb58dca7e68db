import Eabase.IOBuf.Stream
import Eabase.IOBuf.Portal

/-!
# Appenders own what they have not filled

An appender that has room left in its region holds a block whose `size` says
"full" and whose last reference reaches to the end, although only the bytes up
to `_data` are written. What it really refers to are its `refs`, with the
last one cut off at `_data`, and `_data` is the limit it announces for the
block: nobody else's reference reaches beyond it, and the appender writes
only at or above it.
-/

namespace Eabase.IOBuf

open Function List
open Multiset (mem_add mem_cons_self nodup_add nodup_cons singleton_add)

/-- The queue without the last `k` bytes of its last reference. -/
def truncBack (k : ℕ) (l : List BlockRef) : List BlockRef :=
  l.dropLast ++ (l.getLast?.map fun r => { r with length := r.length - k }).toList

@[simp] theorem truncBack_nil (k : ℕ) : truncBack k [] = [] := rfl

@[simp] theorem truncBack_concat (k : ℕ) (l : List BlockRef) (r : BlockRef) :
    truncBack k (l ++ [r]) = l ++ [{ r with length := r.length - k }] := by
  simp [truncBack]

@[simp] theorem truncBack_zero (l : List BlockRef) : truncBack 0 l = l := by
  rcases eq_nil_or_concat' l with rfl | ⟨init, r, rfl⟩ <;> simp

/-- Everything below the announced limits stays, and the limits only rise. -/
structure Heap.Keeps (S S' : Ptr → Option ℕ) (h h' : Heap) : Prop where
  brk : h.brk ≤ h'.brk
  oom : h'.oom = h.oom
  old : ∀ p < h.brk, 0 < (h'.blk p).nshared → 0 < (h.blk p).nshared
  lim : ∀ p < h.brk, 0 < (h'.blk p).nshared → h.lim S p ≤ h'.lim S' p
  data : ∀ p < h.brk, 0 < (h'.blk p).nshared → ∀ i < h.lim S p,
    (h'.blk p).data i = (h.blk p).data i

theorem Heap.Keeps.refl (S : Ptr → Option ℕ) (h : Heap) : Heap.Keeps S S h h :=
  ⟨le_refl _, rfl, fun _ _ hp => hp, fun _ _ _ => le_refl _, fun _ _ _ _ _ => rfl⟩

theorem Heap.Keeps.trans {S S' S'' : Ptr → Option ℕ} {h h' h'' : Heap}
    (h1 : Heap.Keeps S S' h h') (h2 : Heap.Keeps S' S'' h' h'') : Heap.Keeps S S'' h h'' where
  brk := h1.brk.trans h2.brk
  oom := h2.oom.trans h1.oom
  old p hp hl := h1.old p hp (h2.old p (lt_of_lt_of_le hp h1.brk) hl)
  lim p hp hl := by
    have hp' := lt_of_lt_of_le hp h1.brk
    exact (h1.lim p hp (h2.old p hp' hl)).trans (h2.lim p hp' hl)
  data p hp hl i hi := by
    have hp' := lt_of_lt_of_le hp h1.brk
    have hl' := h2.old p hp' hl
    rw [h2.data p hp' hl i (lt_of_lt_of_le hi (h1.lim p hp hl')), h1.data p hp hl' i hi]

open Heap

theorem Heap.Keeps.of_grows {h h' : Heap} {l : List Ptr} {X : Multiset BlockRef}
    {K : Multiset Ptr} {S : Ptr → Option ℕ} (H : HeapInv h l X K S) (hg : h.Grows h') :
    Heap.Keeps S S h h' where
  brk := hg.brk
  oom := hg.oom
  old := hg.old
  lim p hp hl := by
    simp only [Heap.lim]
    cases S p with
    | none => exact hg.size p hp hl
    | some d => exact le_refl d
  data p hp hl i hi := by
    refine hg.data p hp hl i (lt_of_lt_of_le hi ?_)
    simp only [Heap.lim]
    cases hS : S p with
    | none => exact le_rfl
    | some d => exact (H.held p d hS).2

/-- What the others see of a step that may announce new limits for blocks that
are not theirs. -/
structure Shift (S S' : Ptr → Option ℕ) (h h' : Heap) (Y : Multiset BlockRef)
    (K : Multiset Ptr) : Prop where
  bytes : ∀ r ∈ Y, h'.bytes r = h.bytes r
  size : ∀ p ∈ K, (h'.blk p).size = (h.blk p).size
  cap : ∀ p ∈ K, (h'.blk p).cap = (h.blk p).cap
  next : ∀ p ∈ K, (h'.blk p).portalNext = (h.blk p).portalNext
  data : ∀ p ∈ K, (h'.blk p).data = (h.blk p).data
  same : ∀ p ∈ K, S' p = S p
  keeps : Heap.Keeps S S' h h'

namespace Shift

variable {S S' S'' : Ptr → Option ℕ} {h h' h'' : Heap} {X Y : Multiset BlockRef}
  {K : Multiset Ptr}

theorem refl (S : Ptr → Option ℕ) (h : Heap) (Y : Multiset BlockRef) (K : Multiset Ptr) :
    Shift S S h h Y K :=
  ⟨fun _ _ => rfl, fun _ _ => rfl, fun _ _ => rfl, fun _ _ => rfl, fun _ _ => rfl,
    fun _ _ => rfl, .refl S h⟩

theorem trans (h1 : Shift S S' h h' Y K) (h2 : Shift S' S'' h' h'' Y K) :
    Shift S S'' h h'' Y K where
  bytes r hr := (h2.bytes r hr).trans (h1.bytes r hr)
  size p hp := (h2.size p hp).trans (h1.size p hp)
  cap p hp := (h2.cap p hp).trans (h1.cap p hp)
  next p hp := (h2.next p hp).trans (h1.next p hp)
  data p hp := (h2.data p hp).trans (h1.data p hp)
  same p hp := (h2.same p hp).trans (h1.same p hp)
  keeps := h1.keeps.trans h2.keeps

theorem of_frame {l : List Ptr} {X : Multiset BlockRef} {K' : Multiset Ptr}
    (H : HeapInv h l X K' S) (hf : Frame h h' Y K) : Shift S S h h' Y K :=
  ⟨hf.bytes, hf.size, hf.cap, hf.next, hf.data, fun _ _ => rfl, Heap.Keeps.of_grows H hf.grows⟩

theorem content {l : List BlockRef} (hf : Shift S S' h h' Y K) (hl : ∀ r ∈ l, r ∈ Y) :
    h'.content l = h.content l :=
  content_congr fun r hr => hf.bytes r (hl r hr)

end Shift

section

variable {h h' : Heap} {l : List Ptr} {X Y : Multiset BlockRef} {K K' : Multiset Ptr}
  {S S' : Ptr → Option ℕ} {p : Ptr} {n : ℕ} {r : BlockRef}

theorem HeapInv.relimit (H : HeapInv h l X K S) (hne : ∀ q ≠ p, S' q = S q)
    (hX : ∀ r ∈ X, r.block = p → r.stop ≤ h.lim S' p)
    (hp : ∀ d, S' p = some d → p ∈ K ∧ d ≤ (h.blk p).size) : HeapInv h l X K S' where
  chain := H.chain
  num := H.num
  nodup := H.nodup
  count := H.count
  brk := H.brk
  live := H.live
  bound r hr := by
    by_cases heq : r.block = p
    · rw [heq]
      exact hX r hr heq
    · rw [lim, hne _ heq]
      exact H.bound r hr
  held q d hd := by
    obtain rfl | heq := eq_or_ne q p
    · exact hp d hd
    · rw [hne q heq] at hd
      exact H.held q d hd

@[simp] theorem Heap.setSize_nshared (h : Heap) (p q : Ptr) (n : ℕ) :
    ((h.setSize p n).blk q).nshared = (h.blk q).nshared := by
  rw [setSize, setBlk_blk]
  split <;> simp_all

@[simp] theorem Heap.setSize_cap (h : Heap) (p q : Ptr) (n : ℕ) :
    ((h.setSize p n).blk q).cap = (h.blk q).cap := by
  rw [setSize, setBlk_blk]
  split <;> simp_all

@[simp] theorem Heap.setSize_next (h : Heap) (p q : Ptr) (n : ℕ) :
    ((h.setSize p n).blk q).portalNext = (h.blk q).portalNext := by
  rw [setSize, setBlk_blk]
  split <;> simp_all

@[simp] theorem Heap.setSize_data (h : Heap) (p q : Ptr) (n : ℕ) :
    ((h.setSize p n).blk q).data = (h.blk q).data := by
  rw [setSize, setBlk_blk]
  split <;> simp_all

theorem Heap.setSize_size (h : Heap) (p q : Ptr) (n : ℕ) :
    ((h.setSize p n).blk q).size = if q = p then n else (h.blk q).size := by
  rw [setSize, setBlk_blk]
  split <;> simp_all

theorem Heap.setSize_bytes (h : Heap) (p : Ptr) (n : ℕ) (r : BlockRef) :
    (h.setSize p n).bytes r = h.bytes r :=
  read_congr fun i _ _ => by rw [setSize_data]

/-- The holder of a block may lower `size` to the end of the references. -/
theorem HeapInv.setSize (H : HeapInv h l X K S) (hn : n ≤ (h.blk p).size)
    (hX : ∀ r ∈ X, r.block = p → r.stop ≤ n) :
    HeapInv (h.setSize p n) l X K (update S p none) where
  chain := H.chain.congr fun q _ => by rw [setSize_next]
  num := H.num
  nodup := H.nodup
  count q := by
    rw [setSize_nshared]
    exact H.count q
  brk := H.brk
  live q hq := by
    rw [setSize_nshared] at hq
    obtain ⟨h0, hlt, hle⟩ := H.live q hq
    refine ⟨h0, hlt, ?_⟩
    rw [setSize_size, setSize_cap]
    split
    next heq =>
      exact (heq ▸ hn).trans hle
    · exact hle
  bound r hr := by
    by_cases heq : r.block = p
    · simp only [lim, heq, update_self, Option.getD_none, setSize_size, if_true]
      exact hX r hr heq
    · simp only [lim, update_of_ne heq, setSize_size, if_neg heq]
      exact H.bound r hr
  held q d hd := by
    obtain rfl | heq := eq_or_ne q p
    · simp at hd
    · rw [update_of_ne heq] at hd
      rw [setSize_size, if_neg heq]
      exact H.held q d hd

theorem Shift.setSize (hp : p ∉ K) (hn : h.lim S p ≤ n) :
    Shift S (update S p none) h (h.setSize p n) Y K := by
  have hne : ∀ q ∈ K, q ≠ p := fun q hq heq => hp (heq ▸ hq)
  refine ⟨fun r _ => setSize_bytes h p n r, fun q hq => ?_, fun q _ => ?_, fun q _ => ?_,
    fun q _ => ?_, fun q hq => update_of_ne (hne q hq) _ _,
    ⟨le_refl _, rfl, fun q _ hl => by rwa [setSize_nshared] at hl, fun q _ _ => ?_,
      fun q _ _ i _ => by rw [setSize_data]⟩⟩
  · rw [setSize_size, if_neg (hne q hq)]
  · rw [setSize_cap]
  · rw [setSize_next]
  · rw [setSize_data]
  · obtain rfl | heq := eq_or_ne q p
    · simpa [lim, setSize_size] using hn
    · simp [lim, setSize_size, heq]

theorem Shift.write {off : ℕ} {bs : List Byte} (H : HeapInv h l X K' S) (hp : p ∉ K)
    (hY : ∀ r ∈ Y, r ∈ X) (hlim : h.lim S p = off) (hne : ∀ q ≠ p, S' q = S q)
    (hle : off ≤ (h.write p off bs).lim S' p) : Shift S S' h (h.write p off bs) Y K := by
  have hneK : ∀ q ∈ K, q ≠ p := fun q hq heq => hp (heq ▸ hq)
  refine ⟨fun r hr => ?_, fun q _ => write_size h p q off bs,
    fun q _ => write_cap h p q off bs, fun q _ => write_next h p q off bs,
    fun q hq => by rw [write_blk_of_ne h p q off bs (hneK q hq)],
    fun q hq => hne q (hneK q hq), ⟨le_refl _, rfl,
      fun q _ hl => by rwa [write_nshared] at hl, fun q _ _ => ?_, fun q _ _ i hi => ?_⟩⟩
  · refine read_congr fun i _ hi => write_data_below h p r.block off bs fun heq => ?_
    have hb := H.bound r (hY r hr)
    rw [heq, hlim] at hb
    exact lt_of_lt_of_le hi hb
  · obtain rfl | heq := eq_or_ne q p
    · rw [hlim]
      exact hle
    · simp only [lim, hne q heq, write_size]
      exact le_rfl
  · refine write_data_below h p q off bs fun heq => ?_
    subst heq
    rwa [hlim] at hi

end

/-! ## Merging and truncating -/

section

variable {l : List BlockRef} {r x : BlockRef}

theorem truncBack_mergePush (l : List BlockRef) (r : BlockRef) :
    truncBack r.length (mergePush l r) = l ∨
      truncBack r.length (mergePush l r) = l ++ [⟨r.offset, 0, r.block⟩] := by
  rcases eq_nil_or_concat' l with rfl | ⟨init, back, rfl⟩
  · right
    rw [mergePush_nil]
    exact truncBack_concat r.length [] r ▸ by simp
  · rw [mergePush_concat]
    split
    · left
      rw [truncBack_concat]
      simp [BlockRef.grow]
    · right
      rw [show init ++ [back, r] = (init ++ [back]) ++ [r] by simp, truncBack_concat]
      simp

theorem mergePush_last (l : List BlockRef) (r : BlockRef) :
    ∃ rs x, mergePush l r = rs ++ [x] ∧ x.block = r.block ∧ x.stop = r.stop ∧
      x.offset ≤ r.offset := by
  rcases eq_nil_or_concat' l with rfl | ⟨init, back, rfl⟩
  · exact ⟨[], r, by simp, rfl, rfl, le_rfl⟩
  · rw [mergePush_concat]
    split
    next hm =>
      refine ⟨init, back.grow r, rfl, hm.1, ?_, ?_⟩
      · show back.offset + (back.length + r.length) = r.offset + r.length
        rw [← hm.2]
        lia
      · show back.offset ≤ r.offset
        rw [← hm.2]
        lia
    · exact ⟨init ++ [back], r, by simp, rfl, rfl, le_rfl⟩

end

/-! ## The appender's invariant -/

namespace IOBufAppender

/-- What the appender really refers to. -/
def refs (A : IOBufAppender) : List BlockRef := truncBack A.left A.buf.refs

def held (A : IOBufAppender) : Multiset Ptr := A.stream.held

theorem refs_eq {A : IOBufAppender} (h : A.left = 0) : A.refs = A.buf.refs := by
  rw [refs, h, truncBack_zero]

end IOBufAppender

/-- The appender's own part: while there is room in the region, the last
reference reaches to the end of the held block; otherwise a held block is full. -/
structure ALoc (pos : Bool) (h : Heap) (A : IOBufAppender) (S : Ptr → Option ℕ) : Prop where
  tls : A.stream.blockSize = 0
  wf : A.buf.WF pos
  le : A.data ≤ A.dataEnd
  busy : A.data < A.dataEnd → ∃ rs r, A.buf.refs = rs ++ [r] ∧ r.block = A.blk ∧
    r.stop = A.dataEnd ∧ r.offset ≤ A.data ∧ A.stream.curBlock = A.blk ∧ A.blk ≠ NULL ∧
    (h.blk A.blk).size = A.dataEnd ∧ (h.blk A.blk).cap = A.dataEnd ∧ S A.blk = some A.data
  idle : A.data = A.dataEnd → A.stream.curBlock ≠ NULL →
    (h.blk A.stream.curBlock).full = true ∧ S A.stream.curBlock = none

open IOBufAppender

structure ARep (pos : Bool) (h : Heap) (l : List Ptr) (A : IOBufAppender)
    (Y : Multiset BlockRef) (K : Multiset Ptr) (S : Ptr → Option ℕ) : Prop
    extends ALoc pos h A S where
  inv : HeapInv h l (A.refs + Y) (A.held + K) S

section

variable {pos : Bool} {h h' : Heap} {l : List Ptr} {A A' : IOBufAppender} {Y : Multiset BlockRef}
  {K : Multiset Ptr} {S : Ptr → Option ℕ} {bs : List Byte} {rc : ℤ}

theorem ARep.rep (R : ARep pos h l A Y K S) (hleft : A.left = 0) :
    Rep pos h l A.buf Y (A.held + K) S :=
  ⟨R.wf, by
    have := R.inv
    rwa [refs_eq hleft] at this⟩

theorem ARep.fill (R : ARep pos h l A Y K S) (hbs : 0 < bs.length) (hle : bs.length ≤ A.left)
    (heq : A.fill bs h = (A', h')) :
    ∃ S', ARep pos h' l A' Y K S' ∧ Shift S S' h h' Y K ∧
      h'.content A'.refs = h.content A.refs ++ bs := by
  cases heq
  have hleft : A.left = A.dataEnd - A.data := rfl
  obtain ⟨rs, r, hrefs, hblk, hstop, hoff, hcur, hne, hsize, hcap, hS⟩ := R.busy (by lia)
  have hstop' : r.offset + r.length = A.dataEnd := hstop
  have hheld : A.held = {A.blk} := by rw [held, OutputStream.held, hcur, if_neg hne]
  have hpK : A.blk ∉ K := fun hm => by
    have hnd := (nodup_add.1 R.inv.nodup).2.1
    rw [hheld] at hnd
    exact Multiset.disjoint_left.1 (nodup_add.1 hnd).2.2 (by simp) hm
  obtain ⟨S', hS'⟩ : ∃ S', S' = update S A.blk
    (if A.data + bs.length < A.dataEnd then some (A.data + bs.length) else none) := ⟨_, rfl⟩
  have hS'p : S' A.blk =
      if A.data + bs.length < A.dataEnd then some (A.data + bs.length) else none := by
    rw [hS', update_self]
  have hne' : ∀ q ≠ A.blk, S' q = S q := fun q hq => by rw [hS', update_of_ne hq]
  have hlim : h.lim S A.blk = A.data := by rw [lim, hS, Option.getD_some]
  obtain ⟨h1, hh1⟩ : ∃ h1, h1 = h.write A.blk A.data bs := ⟨_, rfl⟩
  rw [← hh1]
  have hsize1 : (h1.blk A.blk).size = A.dataEnd := by rw [hh1, write_size, hsize]
  have hlim1 : h1.lim S' A.blk = A.data + bs.length := by
    rw [lim, hS'p, hsize1]
    split <;> simp
    lia
  have hshift : Shift S S' h h1 Y K := by
    rw [hh1] at hlim1 ⊢
    exact Shift.write R.inv hpK (fun r hr => mem_add.2 (.inr hr)) hlim hne'
      (by rw [hlim1]; lia)
  -- The truncated last reference grows by what was written.
  have hA : A.refs = rs ++ [{ r with length := r.length - A.left }] := by
    rw [IOBufAppender.refs, hrefs, truncBack_concat]
  have hA' : IOBufAppender.refs { A with data := A.data + bs.length } =
      rs ++ [{ r with length := r.length - A.left + bs.length }] := by
    have hl' : left { A with data := A.data + bs.length } = A.left - bs.length := by
      show A.dataEnd - (A.data + bs.length) = _
      lia
    rw [IOBufAppender.refs, hl']
    rw [hrefs, truncBack_concat, show r.length - (A.left - bs.length) =
      r.length - A.left + bs.length by lia]
  have hinv : HeapInv h1 l (IOBufAppender.refs { A with data := A.data + bs.length } + Y)
      (A.held + K) S' := by
    have H1 : HeapInv h1 l (A.refs + Y) (A.held + K) S := hh1 ▸ R.inv.write
    have H2 := H1.relimit hne' (fun x hx hb => by
      have := H1.bound x hx
      rw [hb, lim, hS, Option.getD_some] at this
      rw [hlim1]
      lia) (fun d hd => by
        rw [hS'p] at hd
        split at hd
        · rw [hheld, hsize1]
          simp only [Option.some.injEq] at hd
          exact ⟨by simp, by lia⟩
        · simp at hd)
    rw [hA, coe_concat_add] at H2
    rw [hA', coe_concat_add]
    refine H2.replace rfl ?_
    rw [hblk, hlim1]
    show r.offset + (r.length - A.left + bs.length) ≤ _
    lia
  refine ⟨S', ⟨⟨R.tls, R.wf, ?_, fun hlt => ?_, fun heq hcne => ?_⟩, hinv⟩, hshift, ?_⟩
  · show A.data + bs.length ≤ A.dataEnd
    lia
  · have hlt' : A.data + bs.length < A.dataEnd := hlt
    refine ⟨rs, r, hrefs, hblk, hstop, ?_, hcur, hne, hsize1, ?_, ?_⟩
    · show r.offset ≤ A.data + bs.length
      lia
    · rw [hh1, write_cap, hcap]
    · rw [hS'p, if_pos hlt']
  · have heq' : A.data + bs.length = A.dataEnd := heq
    rw [hcur, hS'p, if_neg (by lia)]
    refine ⟨?_, rfl⟩
    have hcap1 : (h1.blk A.blk).cap = A.dataEnd := by rw [hh1, write_cap, hcap]
    simp [Block.full, hsize1, hcap1]
  · have hrsb : h1.content rs = h.content rs := content_congr fun x hx => by
      refine read_congr fun i _ hi => ?_
      rw [hh1]
      refine write_data_below h A.blk x.block A.data bs fun heq => ?_
      have hb := R.inv.bound x (mem_add.2 (.inl (by rw [hA]; simp [hx])))
      rw [heq, hlim] at hb
      exact lt_of_lt_of_le hi hb
    rw [hA, hA', content_append, content_append, hrsb, append_assoc]
    congr 1
    simp only [content_cons, content_nil, append_nil, bytes, hblk]
    rw [read_add]
    have hend : r.offset + (r.length - A.left) = A.data := by lia
    congr 1
    · rw [hh1]
      exact read_congr fun i _ hi =>
        write_data_below h A.blk A.blk A.data bs fun _ => by lia
    · rw [hend, hh1, read_write h A.blk A.data bs le_rfl,
        drop_eq_nil_of_le (by simp), append_nil]

/-- `Next` gives a full or missing block back and takes a new one. -/
theorem ARep.release (R : ARep pos h l A Y K S) (hleft : A.left = 0) {h1 : Heap}
    {s : OutputStream} (heq : A.stream.releaseBlock h = (s, h1)) :
    Frame h h1 (A.buf.refs + Y) K ∧ ∃ l1, HeapInv h1 l1 (A.buf.refs + Y) K S := by
  have hdata : A.data = A.dataEnd := by
    have := R.le
    have hl : A.dataEnd - A.data = 0 := hleft
    lia
  have H := (R.rep hleft).inv
  unfold OutputStream.releaseBlock at heq
  rw [R.tls, if_neg (lt_irrefl 0)] at heq
  obtain ⟨-, rfl⟩ := Prod.mk.inj heq
  by_cases hcur : A.stream.curBlock = NULL
  · rw [held, OutputStream.held, if_pos hcur, zero_add] at H
    rw [releaseTlsBlock, if_pos hcur]
    exact ⟨.refl h _ K, l, H⟩
  · rw [held, OutputStream.held, if_neg hcur, singleton_add] at H
    obtain ⟨hf, l1, H1, -⟩ := H.releaseTlsBlock (R.idle hdata hcur).2
    exact ⟨hf, l1, H1⟩

/-- `Next` on a block with room: all of the rest counts as used and gets a
reference, whatever it holds. -/
theorem Rep.takeRest {b b' : IOBuf} {p : Ptr} (R : Rep pos h l b Y (p ::ₘ K) S)
    (hS : S p = none) (hroom : (h.blk p).size < (h.blk p).cap)
    (heq : b.pushOrMoveBackRef false ⟨(h.blk p).size, (h.blk p).leftSpace, p⟩
      (h.setSize p (h.blk p).cap) = (b', h')) :
    Rep pos h' l b' Y (p ::ₘ K) S ∧ Frame h h' Y K ∧
      b'.refs = mergePush b.refs ⟨(h.blk p).size, (h.blk p).leftSpace, p⟩ ∧
      (h'.blk p).size = (h.blk p).cap ∧ (h'.blk p).cap = (h.blk p).cap ∧
      h'.content b.refs = h.content b.refs := by
  obtain ⟨bs, hbs⟩ : ∃ bs, bs = h.read p (h.blk p).size (h.blk p).leftSpace := ⟨_, rfl⟩
  have hbslen : bs.length = (h.blk p).leftSpace := by rw [hbs, read_length]
  have hspace : (h.blk p).leftSpace = (h.blk p).cap - (h.blk p).size := rfl
  have hext : h.extend p bs = h.setSize p (h.blk p).cap := by
    rw [Heap.extend, hbslen, hbs, Heap.extend_read]
    congr 1
    lia
  have hp : p ≠ NULL := Nat.pos_iff_ne_zero.1
    (R.inv.live p (R.inv.pos_of_held (mem_cons_self p K))).1
  have hrefs := refs_pushOrMoveBackRef false
    (r := ⟨(h.blk p).size, (h.blk p).leftSpace, p⟩) (h := h.setSize p (h.blk p).cap) R.wf hp
  rw [heq] at hrefs
  have hpmem : p ∈ p ::ₘ K := mem_cons_self p K
  have hpK : p ∉ K := (nodup_cons.1 (nodup_add.1 R.inv.nodup).2.1).1
  rw [← hbslen, ← hext] at heq
  have hothers : ∀ q ∈ K, q ∈ p ::ₘ K ∧ q ≠ p := fun q hq =>
    ⟨Multiset.mem_cons_of_mem hq, fun heq => hpK (heq ▸ hq)⟩
  obtain ⟨R', hro, hf, hc⟩ := R.extendPush hS (R.inv.pos_of_held hpmem) (by lia)
    (fun _ => by lia) hothers heq
  have hlive : 0 < (h'.blk p).nshared := R'.inv.pos_of_held hpmem
  refine ⟨R', hf, hrefs, ?_, ?_, ?_⟩
  · rw [hro.size p hlive, extend_size, if_pos rfl]
    lia
  · rw [hro.cap p hlive, extend_cap]
  · rw [hrefs, content_mergePush] at hc
    exact (append_inj' hc (by simp [hbslen])).1

theorem ARep.addBlock (R : ARep pos h l A Y K S) (hleft : A.left = 0)
    (heq : A.addBlock h = (rc, A', h')) :
    ∃ l' S', ARep pos h' l' A' Y K S' ∧ Shift S S' h h' Y K ∧
      h'.content A'.refs = h.content A.refs ∧
      ((rc = 0 ∧ 0 < A'.left) ∨ (rc = -1 ∧ A'.left = 0 ∧ ∃ q, h.oom q = true)) := by
  have hdata : A.data = A.dataEnd := by
    have := R.le
    have hl : A.dataEnd - A.data = 0 := hleft
    lia
  have hcond : A.stream.curBlock = NULL ∨ (h.blk A.stream.curBlock).full = true := by
    by_cases hcur : A.stream.curBlock = NULL
    · exact Or.inl hcur
    · exact Or.inr (R.idle hdata hcur).1
  rcases hrel : A.stream.releaseBlock h with ⟨s1, h1⟩
  obtain ⟨hf1, l1, H1⟩ := R.release hleft hrel
  have hs1 : s1.blockSize = 0 := by
    obtain ⟨rfl, -⟩ := Prod.mk.inj hrel
    exact R.tls
  rcases hacq : h1.acquireTlsBlock with ⟨p, h2⟩
  obtain ⟨hf2, hcase⟩ := H1.acquireTlsBlock hacq
  have hf : Frame h h2 (A.buf.refs + Y) K := hf1.trans hf2
  have hfY : Frame h h2 Y K := hf.mono fun r hr => mem_add.2 (Or.inr hr)
  have hc2 : h2.content A.buf.refs = h.content A.buf.refs := hf.content fun r hr => Rep.mem_left hr
  have hshift2 : Shift S S h h2 Y K := Shift.of_frame R.inv hfY
  unfold IOBufAppender.addBlock OutputStream.next at heq
  simp only [if_pos hcond, hrel, hs1, if_neg (lt_irrefl 0), hacq] at heq
  rcases hcase with ⟨rfl, hoom, -, l2, -, H2⟩ | ⟨hp, hSp, ⟨-, l2, H2, -⟩, hroom, -⟩
  · cases heq
    refine ⟨l2, S, ⟨⟨rfl, R.wf, le_rfl, fun hlt => absurd hlt (lt_irrefl _),
      fun _ hne => absurd rfl hne⟩, ?_⟩, hshift2, ?_, Or.inr ⟨rfl, rfl, ?_⟩⟩
    · simpa [IOBufAppender.refs, IOBufAppender.held, OutputStream.held, IOBufAppender.left] using H2
    · rw [refs_eq hleft, refs_eq rfl]
      exact hc2
    · rw [← hf1.oom]
      exact hoom
  · -- The whole rest of the block is handed out.
    simp only [if_neg hp] at heq
    obtain ⟨d, hd⟩ : ∃ d, d = (h2.blk p).size := ⟨_, rfl⟩
    obtain ⟨n, hn⟩ : ∃ n, n = (h2.blk p).leftSpace := ⟨_, rfl⟩
    have hspace : (h2.blk p).leftSpace = (h2.blk p).cap - (h2.blk p).size := rfl
    rcases hpush : A.buf.pushOrMoveBackRef false ⟨d, n, p⟩ (h2.setSize p (h2.blk p).cap) with ⟨b3,
      h3⟩
    simp only [← hd, ← hn, hpush, Prod.mk.injEq] at heq
    obtain ⟨rfl, rfl, rfl⟩ := heq
    have R2 : Rep pos h2 l2 A.buf Y (p ::ₘ K) S := ⟨R.wf, H2⟩
    have hpmem : p ∈ p ::ₘ K := mem_cons_self p K
    have hpK : p ∉ K := (nodup_cons.1 (nodup_add.1 H2.nodup).2.1).1
    rw [hd, hn] at hpush
    obtain ⟨R3, hf3, hb3, hsize3, hcap3, hcont3⟩ := R2.takeRest hSp hroom hpush
    rw [← hd, ← hn] at hb3
    have hend : (h2.blk p).cap = d + n := by lia
    rw [hend] at hsize3 hcap3
    obtain ⟨rs, x, hlast, hxb, hxs, hxo⟩ := mergePush_last A.buf.refs ⟨d, n, p⟩
    have hne' : ∀ q ≠ p, update S p (some d) q = S q := fun q hq =>
      update_of_ne hq _ _
    have hAleft : left ⟨p, d, d + n, b3, ⟨0, p, s1.byteCount + n⟩⟩ = n := by
      show d + n - d = n
      lia
    have hArefs : IOBufAppender.refs ⟨p, d, d + n, b3,
        ⟨0, p, s1.byteCount + n⟩⟩ = truncBack n b3.refs := by
      rw [IOBufAppender.refs, hAleft]
    have htrunc := truncBack_mergePush A.buf.refs ⟨d, n, p⟩
    rw [← hb3] at htrunc hlast
    refine ⟨l2, update S p (some d), ⟨⟨rfl, R3.wf, ?_, fun _ => ?_, fun heq => ?_⟩, ?_⟩,
      ?_, ?_, Or.inl ⟨rfl, ?_⟩⟩
    · show d ≤ d + n
      lia
    · refine ⟨rs, x, hlast, hxb, hxs, hxo, rfl, hp, hsize3, hcap3, ?_⟩
      exact update_self p (some d) S
    · have heq' : d = d + n := heq
      lia
    · -- The last reference is cut off where the free space began.
      have hold : ∀ x ∈ truncBack n b3.refs, x ∈ A.buf.refs ∨ x = ⟨d, 0, p⟩ := fun x hx => by
        rcases htrunc with ht | ht
        · exact Or.inl (ht ▸ hx)
        · rw [ht, mem_append, mem_singleton] at hx
          exact hx
      have hbound : ∀ x ∈ (truncBack n b3.refs : Multiset BlockRef) + Y, x.block = p →
          x.stop ≤ d := fun x hx hb => by
        have hX : x ∈ (A.buf.refs : Multiset BlockRef) + Y → x.stop ≤ d := fun hm => by
          have := H2.bound x hm
          rwa [hb, lim, hSp, Option.getD_none, ← hd] at this
        rcases mem_add.1 hx with hx | hx
        · rcases hold x hx with hx | rfl
          · exact hX (mem_add.2 (Or.inl hx))
          · exact le_refl d
        · exact hX (mem_add.2 (Or.inr hx))
      have H3 : HeapInv h3 l2 (truncBack n b3.refs + Y) (p ::ₘ K) S := by
        have H := R3.inv
        rw [hlast, coe_concat_add] at H
        rw [hlast, truncBack_concat, coe_concat_add]
        refine H.replace rfl (le_trans ?_ (H.bound x (mem_cons_self _ _)))
        show x.offset + (x.length - n) ≤ x.offset + x.length
        lia
      rw [hArefs, held, OutputStream.held, if_neg hp, singleton_add]
      refine H3.relimit hne' (fun x hx hb => ?_) fun d' hd' => ?_
      · rw [lim, update_self, Option.getD_some]
        exact hbound x hx hb
      · rw [update_self, Option.some.injEq] at hd'
        exact ⟨hpmem, by lia⟩
    · refine hshift2.trans ⟨hf3.bytes, hf3.size, hf3.cap, hf3.next, hf3.data,
        fun q hq => hne' q fun heq => hpK (heq ▸ hq), ?_⟩
      have hk := Heap.Keeps.of_grows H2 hf3.grows
      refine ⟨hk.brk, hk.oom, hk.old, fun q hq hl => ?_, hk.data⟩
      obtain rfl | hqp := eq_or_ne q p
      · rw [lim, lim, hSp, update_self, Option.getD_none, Option.getD_some, hd]
      · have hlim : h3.lim (update S p (some d)) q = h3.lim S q := by
          rw [lim, hne' q hqp, lim]
        rw [hlim]
        exact hk.lim q hq hl
    · rw [hArefs, refs_eq hleft, ← hc2, ← hcont3]
      rcases htrunc with ht | ht
      · rw [ht]
      · rw [ht, Heap.content_append]
        simp [Heap.bytes, Heap.read]
    · lia

/-- `BackUp` of the part of the region that is not filled: afterwards the buffer
is what the appender referred to. -/
theorem ARep.shrink (R : ARep pos h l A Y K S) (heq : A.shrink h = (A', h')) :
    ∃ l' S', ARep pos h' l' A' Y K S' ∧ Shift S S' h h' Y K ∧ A'.left = 0 ∧
      h'.content A'.refs = h.content A.refs := by
  unfold IOBufAppender.shrink at heq
  by_cases hleft : A.left = 0
  · rw [if_neg (not_not.2 hleft)] at heq
    cases heq
    exact ⟨l, S, R, Shift.refl S h Y K, hleft, rfl⟩
  rw [if_pos hleft] at heq
  have hdef : A.left = A.dataEnd - A.data := rfl
  obtain ⟨rs, r, hrefs, hblk, hstop, hoff, hcur, hne, hsize, hcap, hS⟩ := R.busy (by lia)
  have hstop' : r.offset + r.length = A.dataEnd := hstop
  have hheld : A.held + K = A.blk ::ₘ K := by
    rw [held, OutputStream.held, hcur, if_neg hne, singleton_add]
  have H := R.inv
  rw [hheld] at H
  have hpK : A.blk ∉ K := (nodup_cons.1 (nodup_add.1 H.nodup).2.1).1
  have hlim : h.lim S A.blk = A.data := by rw [Heap.lim, hS, Option.getD_some]
  have hempty : A.buf.empty = false := by
    by_contra hne
    have hsum := sumLen_of_empty R.wf.view (by simpa using hne)
    rw [hrefs, sumLen_append, sumLen_cons] at hsum
    lia
  -- The block's `size` goes back to `_data`.
  have hX : ∀ x ∈ (A.refs : Multiset BlockRef) + Y, x.block = A.blk → x.stop ≤ A.data :=
    fun x hx hb => by
      have := H.bound x hx
      rwa [hb, hlim] at this
  obtain ⟨h1, hh1⟩ : ∃ h1, h1 = h.setSize A.blk A.data := ⟨_, rfl⟩
  have H1 : HeapInv h1 l (A.refs + Y) (A.blk ::ₘ K) (update S A.blk none) :=
    hh1 ▸ H.setSize (by lia) hX
  have hshift : Shift S (update S A.blk none) h h1 Y K := hh1 ▸ Shift.setSize hpK (le_of_eq hlim)
  have hc1 : h1.content A.refs = h.content A.refs :=
    Heap.content_congr fun x _ => by rw [hh1, Heap.setSize_bytes]
  have hArefs : A.refs = rs ++ [{ r with length := r.length - A.left }] := by
    rw [IOBufAppender.refs, hrefs, truncBack_concat]
  have hadopt : A.stream.adopt r h = .own A.stream h := by
    unfold OutputStream.adopt
    rw [if_pos (by rw [hcur]; exact hne), if_neg (by simp [hcur, hblk]),
      if_neg (by rw [hcur, hsize]; simp [hstop])]
  have hback : A.buf.backRef = r := backRef_eq R.wf.view hrefs
  obtain ⟨fuel, hfuel⟩ : ∃ fuel, A.buf.refNum = fuel + 1 :=
    ⟨rs.length, by rw [refNum_eq R.wf.view, hrefs]; simp⟩
  unfold OutputStream.backUp at heq
  rw [hfuel] at heq
  unfold OutputStream.backUpLoop at heq
  simp only [hempty, Bool.false_eq_true, if_false, hback, hadopt, hcur] at heq
  by_cases hpart : A.left < r.length
  · -- A part of the reference stays.
    have hnew : (h.blk A.blk).size - A.left = A.data := by lia
    simp only [if_pos hpart, R.tls, if_true, hnew, ← hh1] at heq
    cases heq
    obtain ⟨hb1, hwf1⟩ := trimBack_spec { r with length := r.length - A.left }
      (n := A.left) R.wf hrefs (R.wf.ref r (by rw [hrefs]; simp)).1
      (Nat.sub_add_cancel hpart.le) (Nat.sub_pos_of_lt hpart)
    obtain ⟨hf2, l2, H2, -⟩ := H1.releaseTlsBlock (update_self _ _ _)
    refine ⟨l2, _, ⟨⟨rfl, hwf1, le_rfl, fun hlt => absurd hlt (lt_irrefl _),
      fun _ hne => absurd rfl hne⟩, ?_⟩,
      hshift.trans (Shift.of_frame H1 (hf2.mono fun x hx => mem_add.2 (Or.inr hx))),
      rfl, ?_⟩
    · rw [refs_eq rfl, hb1, ← hArefs]
      simpa [held, OutputStream.held] using H2
    · rw [refs_eq rfl, hb1, ← hArefs,
        hf2.content fun x hx => mem_add.2 (Or.inl hx), hc1]
  · -- Nothing of the region was filled: the whole reference goes.
    have hlen : r.length = A.left := by lia
    have hnew : (h.blk A.blk).size - A.left = A.data := by lia
    rcases hpop : A.buf.popBackRef h1 with ⟨b2, h2⟩
    obtain ⟨hb2, hheap2, hwf2⟩ := popBackRef_spec (h := h1) R.wf hrefs
    rw [hpop] at hb2 hheap2 hwf2
    simp only at hb2 hheap2 hwf2
    simp only [hlen, hnew, ← hh1, hpop, OutputStream.releaseBlock, R.tls,
      lt_irrefl, if_false, Nat.sub_self, if_true] at heq
    cases heq
    rw [hArefs, coe_concat_add] at H1
    have H2 : HeapInv h2 l (rs + Y) (A.blk ::ₘ K) (update S A.blk none) := by
      rw [hheap2]
      exact H1.decRef
    have hro : Heap.RefOnly h1 h2 := hheap2 ▸ Heap.RefOnly.decRef h1 r.block
    have hf2 := Frame.of_refOnly hro H2
    obtain ⟨hf3, l3, H3, -⟩ := H2.releaseTlsBlock (update_self _ _ _)
    refine ⟨l3, _, ⟨⟨rfl, hwf2, le_rfl, fun hlt => absurd hlt (lt_irrefl _),
      fun _ hne => absurd rfl hne⟩, ?_⟩,
      hshift.trans (Shift.of_frame H1 (((hf2.monoHeld fun q hq =>
        Multiset.mem_cons_of_mem hq).trans hf3).mono fun x hx =>
          mem_add.2 (Or.inr hx))), rfl, ?_⟩
    · rw [refs_eq rfl, hb2]
      simpa [held, OutputStream.held] using H3
    · have hrs : h1.content A.refs = h1.content rs := by
        rw [hArefs, Heap.content_append]
        simp [Heap.bytes, Heap.read, hlen]
      rw [refs_eq rfl, hb2, hf3.content fun x hx => mem_add.2 (.inl hx),
        hf2.content fun x hx => mem_add.2 (.inl hx), ← hrs, hc1]

theorem ARep.appendLoop : ∀ {fuel : ℕ} {src : List Byte} {A : IOBufAppender} {h : Heap}
    {l : List Ptr} {S : Ptr → Option ℕ}, ARep pos h l A Y K S →
    src.length + (if A.left = 0 then 2 else 1) ≤ fuel →
    ∀ {rc : ℤ} {A' : IOBufAppender} {h' : Heap}, A.appendLoop fuel src h = (rc, A', h') →
      ∃ l' S', ARep pos h' l' A' Y K S' ∧ Shift S S' h h' Y K ∧
        Appended h.oom (h.content A.refs) src rc (h'.content A'.refs)
  | 0, src, A, h, l, S, _, hfuel, _, _, _, _ => by split at hfuel <;> omega
  | fuel + 1, src, A, h, l, S, R, hfuel, rc, A', h', heq => by
    unfold IOBufAppender.appendLoop at heq
    by_cases hfit : src.length ≤ A.left
    · simp only [if_pos hfit, Prod.mk.injEq] at heq
      obtain ⟨rfl, heq⟩ := heq
      cases src with
      | nil =>
        -- `memcpy` of nothing.
        have hw : h.write A.blk A.data [] = h := by
          rw [write]
          simp [setBlk]
        cases heq
        rw [hw]
        exact ⟨l, S, R, .refl S h Y K, .inl ⟨rfl, by simp⟩⟩
      | cons c src =>
        obtain ⟨S', R', hs, hc⟩ := R.fill (by simp) hfit heq
        exact ⟨l, S', R', hs, .inl ⟨rfl, hc⟩⟩
    · simp only [if_neg hfit] at heq
      -- The rest of the region first, in the appender as it is afterwards.
      obtain ⟨A1, h1, S1, hA1, R1, hs1, hleft1, hc1⟩ : ∃ A1 h1 S1,
          ((if A.left ≠ 0 then (A.fill (src.take A.left) h).2 else h) = h1 ∧
            A1.addBlock h1 = A.addBlock h1) ∧
          ARep pos h1 l A1 Y K S1 ∧ Shift S S1 h h1 Y K ∧ A1.left = 0 ∧
          h1.content A1.refs = h.content A.refs ++ src.take A.left := by
        by_cases hz : A.left = 0
        · exact ⟨A, h, S, ⟨by simp [hz], rfl⟩, R, .refl S h Y K, hz, by simp [hz]⟩
        · have htake : (src.take A.left).length = A.left := by simp; lia
          obtain ⟨A1, h1, hfill⟩ : ∃ A1 h1, A.fill (src.take A.left) h = (A1, h1) := ⟨_, _, rfl⟩
          obtain ⟨S1, R1, hs1, hc1⟩ := R.fill (by lia) (by lia) hfill
          refine ⟨A1, h1, S1, ⟨by simp [hz, hfill], ?_⟩, R1, hs1, ?_, hc1⟩
          · obtain ⟨rfl, -⟩ := Prod.mk.inj hfill
            rfl
          · obtain ⟨rfl, -⟩ := Prod.mk.inj hfill
            show A.dataEnd - (A.data + (src.take A.left).length) = 0
            have hdef : A.left = A.dataEnd - A.data := rfl
            lia
      rw [hA1.1, ← hA1.2] at heq
      rcases hadd : A1.addBlock h1 with ⟨rc2, A2, h2⟩
      obtain ⟨l2, S2, R2, hs2, hc2, hrc⟩ := R1.addBlock hleft1 hadd
      have hs := hs1.trans hs2
      rw [hadd] at heq
      rcases hrc with ⟨rfl, hleft2⟩ | ⟨rfl, -, hoom⟩
      · have hne : A2.left ≠ 0 := by lia
        obtain ⟨l3, S3, R3, hs3, hout⟩ := ARep.appendLoop R2
          (by rw [if_neg hne, length_drop]; split at hfuel <;> lia) heq
        refine ⟨l3, S3, R3, hs.trans hs3, ?_⟩
        rw [hc2, hc1, hs.keeps.oom] at hout
        have := hout.cons
        rwa [take_append_drop] at this
      · cases heq
        refine ⟨l2, S2, R2, hs, .inr ⟨rfl, ?_, A.left, by lia, by rw [hc2, hc1]⟩⟩
        rw [← hs1.keeps.oom]
        exact hoom

theorem ARep.append {src : List Byte} (R : ARep pos h l A Y K S)
    (heq : A.append src h = (rc, A', h')) :
    ∃ l' S', ARep pos h' l' A' Y K S' ∧ Shift S S' h h' Y K ∧
      Appended h.oom (h.content A.refs) src rc (h'.content A'.refs) :=
  R.appendLoop (by split <;> lia) heq

theorem ARep.pushBack {c : Byte} (R : ARep pos h l A Y K S)
    (heq : A.pushBack c h = (rc, A', h')) :
    ∃ l' S', ARep pos h' l' A' Y K S' ∧ Shift S S' h h' Y K ∧
      Appended h.oom (h.content A.refs) [c] rc (h'.content A'.refs) := by
  unfold IOBufAppender.pushBack at heq
  have hdef : A.left = A.dataEnd - A.data := rfl
  have hle := R.le
  by_cases hz : A.data = A.dataEnd
  · rw [if_pos hz] at heq
    rcases hadd : A.addBlock h with ⟨rc1, A1, h1⟩
    obtain ⟨l1, S1, R1, hs1, hc1, hrc⟩ := R.addBlock (by lia) hadd
    rw [hadd] at heq
    rcases hrc with ⟨rfl, hleft1⟩ | ⟨rfl, -, hoom⟩
    · simp only [Prod.mk.injEq] at heq
      obtain ⟨rfl, heq⟩ := heq
      have hone : [c].length ≤ A1.left := Nat.succ_le_of_lt hleft1
      obtain ⟨S2, R2, hs2, hc2⟩ := R1.fill (by simp) hone heq
      exact ⟨l1, S2, R2, hs1.trans hs2, .inl ⟨rfl, by rw [hc2, hc1]⟩⟩
    · cases heq
      exact ⟨l1, S1, R1, hs1, .inr ⟨rfl, hoom, 0, by simp, by simpa using hc1⟩⟩
  · rw [if_neg hz, Prod.mk.injEq] at heq
    obtain ⟨rfl, heq⟩ := heq
    obtain ⟨S1, R1, hs1, hc1⟩ := R.fill (by simp) (by simp; lia) heq
    exact ⟨l, S1, R1, hs1, .inl ⟨rfl, hc1⟩⟩

end

end Eabase.IOBuf
