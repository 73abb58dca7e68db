import Eabase.IOBuf.BackUp
import Eabase.IOBuf.InputStream

/-!
# Streams with blocks of their own size

With a `block_size` an `IOBufAsZeroCopyOutputStream` creates its own blocks. The constructor
rejects sizes up to the offset of `data` in `Block`, but a block begins with all of `Block`,
and `Next` returns an `int`.

`BackUp` may go back into blocks that the buffer had before. Such a block keeps the space it
was created with; of the blocks of the stream the space is what `block_size` leaves behind the
header (`room`). No block ever has a larger capacity than that, and this does not need to know
who else holds the block.
-/

namespace Eabase.IOBuf

open List

/-- `offsetof(IOBuf::Block, data)`. -/
def offsetofData : ℕ := 24

/-- `IOBufAsZeroCopyOutputStream(IOBuf* buf, uint32_t block_size)`; `none` when it throws. -/
def OutputStream.ofSize (blockSize : ℕ) : Option OutputStream :=
  if blockSize ≤ offsetofData then none else some ⟨blockSize, NULL, 0⟩

/-- The bytes allocated for data in `p`: a block of `h₀` has what it was created with, a later one
belongs to the stream. -/
def room (h₀ : Heap) (blockSize : ℕ) (p : Ptr) : ℕ :=
  if p < h₀.brk then (h₀.blk p).cap else blockSize - sizeofBlock

/-- What the next `Next` returns is a positive `int` and a region inside of the allocated bytes. -/
def StreamState.NextUsable (h₀ : Heap) (blockSize : ℕ) (σ : StreamState) : Prop :=
  ∀ p off n, (σ.s.next σ.b σ.h).1 = some (p, off, n) → 0 < toInt n ∧ off + n ≤ room h₀ blockSize p

/-! ## Capacities only shrink -/

open Heap

structure Heap.CapLe (h h' : Heap) : Prop where
  brk : h.brk ≤ h'.brk
  oom : h'.oom = h.oom
  cap : ∀ p < h.brk, (h'.blk p).cap ≤ (h.blk p).cap

namespace Heap.CapLe

variable {h h' h'' : Heap}

theorem refl (h : Heap) : h.CapLe h := ⟨le_rfl, rfl, fun _ _ => le_rfl⟩

theorem trans (h1 : h.CapLe h') (h2 : h'.CapLe h'') : h.CapLe h'' where
  brk := h1.brk.trans h2.brk
  oom := h2.oom.trans h1.oom
  cap p hp := (h2.cap p (hp.trans_le h1.brk)).trans (h1.cap p hp)

theorem setBlk {p : Ptr} {blk : Block} (hcap : blk.cap ≤ (h.blk p).cap) : h.CapLe (h.setBlk p blk) := by
  refine ⟨le_rfl, rfl, ?_⟩
  intro q _
  rw [setBlk_blk]
  split
  next heq =>
    rwa [heq]
  · exact le_rfl

theorem incRef (h : Heap) (p : Ptr) : h.CapLe (h.incRef p) := setBlk le_rfl

theorem setSize (h : Heap) (p : Ptr) (n : ℕ) : h.CapLe (h.setSize p n) := setBlk le_rfl

theorem write (h : Heap) (p : Ptr) (off : ℕ) (bs : List Byte) : h.CapLe (h.write p off bs) :=
  setBlk le_rfl

theorem decRef (h : Heap) (p : Ptr) : h.CapLe (h.decRef p) := by
  unfold Heap.decRef
  split
  · exact setBlk (Nat.zero_le _)
  · exact setBlk le_rfl

theorem decRefs (rs : List BlockRef) (h : Heap) : h.CapLe (IOBuf.decRefs rs h) := by
  induction rs generalizing h with
  | nil => exact refl h
  | cons r rs ih => exact (decRef h r.block).trans (ih _)

end Heap.CapLe

/-! ## What the operations do to the blocks of a buffer -/

section

variable {b b' : IOBuf} {h h' : Heap} {r : BlockRef} {n : ℕ} {l : List BlockRef}

structure FewerBlocks (b b' : IOBuf) : Prop where
  wf : b'.WF false
  blocks : ∀ r ∈ b'.refs, ∃ r' ∈ b.refs, r'.block = r.block

theorem refs_ne_nil (hb : b.WF false) (hne : ¬ b.empty = true) : ∃ l r, b.refs = l ++ [r] ∧
    b.backRef = r := by
  have hrefs : b.refs ≠ [] := by
    rintro hnil
    apply hne
    cases b with
    | sv refs0 refs1 =>
      by_contra hempty
      have h0 : refs0.block ≠ NULL := fun heq => hempty (decide_eq_true heq)
      simp only [refs, if_neg h0] at hnil
      split at hnil
      · cases hnil
      · cases hnil
    | bv v =>
      have hv : v.WF := hb.view
      have hlen := congrArg List.length hnil
      simp only [refs, length_map, length_range, length_nil] at hlen
      have hthree := hv.three_le
      lia
  obtain ⟨l, r, hl⟩ := eq_nil_or_concat b.refs |>.resolve_left hrefs
  rw [concat_eq_append] at hl
  exact ⟨l, r, hl, backRef_eq hb.view hl⟩

theorem fewer_popBackRef (hb : b.WF false) (hl : b.refs = l ++ [r]) :
    FewerBlocks b (b.popBackRef h).1 ∧ h.CapLe (b.popBackRef h).2 := by
  obtain ⟨hrefs, hheap, hwf⟩ := popBackRef_spec (h := h) hb hl
  refine ⟨⟨hwf, ?_⟩, ?_⟩
  · intro r' hr'
    rw [hrefs] at hr'
    exact ⟨r', by rw [hl]; exact mem_append_left _ hr', rfl⟩
  · rw [hheap]
    exact Heap.CapLe.decRef h r.block

theorem fewer_trimBack (hb : b.WF false) (hl : b.refs = l ++ [r]) (hn : n < r.length) :
    FewerBlocks b ((b.setBackRef { r with length := r.length - n }).subNbytes n) := by
  obtain ⟨rest, hrest⟩ : ∃ rest : BlockRef, rest = { r with length := r.length - n } := ⟨_, rfl⟩
  have hblock : rest.block ≠ NULL := hrest ▸ (hb.ref r (by rw [hl]; simp)).1
  have hlen : rest.length + n = r.length := hrest ▸ Nat.sub_add_cancel hn.le
  rw [← hrest]
  have hpos : 0 < rest.length := by
    rw [hrest]
    exact Nat.sub_pos_of_lt hn
  obtain ⟨hrefs, hwf⟩ := trimBack_spec rest hb hl hblock hlen hpos
  refine ⟨hwf, ?_⟩
  intro r' hr'
  rw [hrefs] at hr'
  rcases mem_append.1 hr' with hmem | hmem
  · exact ⟨r', by rw [hl]; exact mem_append_left _ hmem, rfl⟩
  · rw [mem_singleton.1 hmem, hrest]
    exact ⟨r, by rw [hl]; simp, rfl⟩

theorem FewerBlocks.refl (hb : b.WF false) : FewerBlocks b b := ⟨hb, fun r hr => ⟨r, hr, rfl⟩⟩

theorem FewerBlocks.trans {b'' : IOBuf} (h1 : FewerBlocks b b') (h2 : FewerBlocks b' b'') :
    FewerBlocks b b'' := by
  refine ⟨h2.wf, ?_⟩
  intro r hr
  obtain ⟨r', hr', heq'⟩ := h2.blocks r hr
  obtain ⟨r'', hr'', heq''⟩ := h1.blocks r' hr'
  exact ⟨r'', hr'', heq''.trans heq'⟩

theorem fewer_popBackLoop : ∀ (fuel n : ℕ) (b : IOBuf) (h : Heap), b.WF false → n ≤ sumLen b.refs →
    FewerBlocks b (popBackLoop fuel n b h).1 ∧ h.CapLe (popBackLoop fuel n b h).2 := by
  intro fuel
  induction fuel with
  | zero => exact fun _ b h hb _ => ⟨.refl hb, .refl h⟩
  | succ fuel ih =>
    intro n b h hb hn
    rw [popBackLoop]
    split
    · exact ⟨.refl hb, .refl h⟩
    next hne =>
      have hrefs : b.refs ≠ [] := by
        rintro hnil
        rw [hnil, sumLen_nil] at hn
        exact hne (Nat.le_zero.1 hn)
      obtain ⟨l, r, hl⟩ := eq_nil_or_concat b.refs |>.resolve_left hrefs
      rw [concat_eq_append] at hl
      simp only [backRef_eq hb.view hl]
      split
      next hlt =>
        exact ⟨fewer_trimBack hb hl hlt, .refl h⟩
      next hge =>
        obtain ⟨hfewer, hcap⟩ := fewer_popBackRef (h := h) hb hl
        obtain ⟨hrefs', -, -⟩ := popBackRef_spec (h := h) hb hl
        have hn' : n - r.length ≤ sumLen (b.popBackRef h).1.refs := by
          rw [hrefs']
          rw [hl, sumLen_append, sumLen_cons, sumLen_nil] at hn
          lia
        obtain ⟨hfewer', hcap'⟩ := ih (n - r.length) _ (b.popBackRef h).2 hfewer.wf hn'
        exact ⟨hfewer.trans hfewer', hcap.trans hcap'⟩

theorem fewer_popBack (hb : b.WF false) : FewerBlocks b (b.popBack n h).2.1 ∧
    h.CapLe (b.popBack n h).2.2 := by
  unfold popBack
  split
  · rw [clear_eq hb.view]
    exact ⟨⟨wf_new, fun r hr => absurd hr not_mem_nil⟩, .decRefs _ h⟩
  next hlt =>
    apply fewer_popBackLoop _ n b h hb
    rw [← length_eq hb.view]
    lia

end

open OutputStream

/-! ## The stream -/

section

variable {h₀ : Heap} {blockSize : ℕ} {σ : StreamState} {s s' : OutputStream} {b b' : IOBuf}
    {h h' : Heap} {r : BlockRef} {p : Ptr}

/-- The block exists and has at most the capacity that was allocated, which an `int` can say. -/
structure Within (h₀ : Heap) (blockSize : ℕ) (h : Heap) (p : Ptr) : Prop where
  lt : p < h.brk
  cap : (h.blk p).cap ≤ room h₀ blockSize p
  int : room h₀ blockSize p < 2 ^ 31

theorem Within.mono (I : Within h₀ blockSize h p) (hc : h.CapLe h') : Within h₀ blockSize h' p :=
  ⟨I.lt.trans_le hc.brk, (hc.cap p I.lt).trans I.cap, I.int⟩

/-- Every block that the stream can get at is within its room. -/
structure StreamState.Fitting (h₀ : Heap) (blockSize : ℕ) (σ : StreamState) : Prop where
  wf : σ.b.WF false
  size : σ.s.blockSize = blockSize
  brk : h₀.brk ≤ σ.h.brk
  oom : σ.h.oom = h₀.oom
  cur : σ.s.curBlock ≠ NULL → Within h₀ blockSize σ.h σ.s.curBlock
  refs : ∀ r ∈ σ.b.refs, Within h₀ blockSize σ.h r.block

namespace StreamState.Fitting

section

variable (I : Fitting h₀ blockSize ⟨s, b, h⟩)
include I

theorem mono (hc : h.CapLe h') (hf : FewerBlocks b b') (hsize : s'.blockSize = s.blockSize)
    (hcur : s'.curBlock = NULL ∨ s'.curBlock = s.curBlock) : Fitting h₀ blockSize ⟨s', b', h'⟩ where
  wf := hf.wf
  size := hsize.trans I.size
  brk := I.brk.trans hc.brk
  oom := hc.oom.trans I.oom
  cur := by
    intro hne
    rcases hcur with hnull | heq
    · exact absurd hnull hne
    · rw [heq] at hne ⊢
      exact (I.cur hne).mono hc
  refs := by
    intro r hr
    obtain ⟨r', hr', hblock⟩ := hf.blocks r hr
    exact hblock ▸ (I.refs r' hr').mono hc

theorem releaseBlock (hpos : 0 < blockSize) :
    Fitting h₀ blockSize ⟨(s.releaseBlock h).1, b, (s.releaseBlock h).2⟩ := by
  have hsize : s.blockSize = blockSize := I.size
  apply I.mono ?_ (.refl I.wf)
  · exact rfl
  · exact .inl rfl
  · simp only [OutputStream.releaseBlock, hsize, if_pos hpos]
    split
    · exact .decRef h _
    · exact .refl h

theorem createBlock (h32 : blockSize < 2 ^ 32)
    (hgood : sizeofBlock < blockSize ∧ blockSize < 2 ^ 31 + sizeofBlock ∨ ∀ p, h₀.brk ≤ p →
      h₀.oom p = true) :
    Fitting h₀ blockSize ⟨{ s with curBlock :=
  (h.createBlock blockSize).1 }, b, (h.createBlock blockSize).2⟩ ∧
      ((h.createBlock blockSize).1 ≠ NULL →
        ((h.createBlock blockSize).2.blk (h.createBlock blockSize).1).size = 0 ∧
        0 < ((h.createBlock blockSize).2.blk (h.createBlock blockSize).1).cap) := by
  have hge : h₀.brk ≤ h.brk := I.brk
  have hoom : h.oom = h₀.oom := I.oom
  rw [Heap.createBlock, if_neg (by lia)]
  split
  · refine ⟨?_, fun hne => absurd rfl hne⟩
    have hcap : h.CapLe { h with brk := h.brk + 1 } := ⟨Nat.le_succ _, rfl, fun _ _ => le_rfl⟩
    apply I.mono hcap (.refl I.wf)
    · exact rfl
    · exact .inl rfl
  next hfail =>
    obtain ⟨hlt, hle⟩ := hgood.resolve_right fun hall => hfail (hoom ▸ hall h.brk hge)
    have hblk : (h.newBlock (blockCap blockSize)).blk h.brk
        = ⟨1, 0, blockCap blockSize, NULL, (h.blk h.brk).data⟩ := by
      rw [newBlock, setBlk_blk, if_pos rfl]
    have hcap : blockCap blockSize = blockSize - sizeofBlock := if_pos hlt.le
    have hroom : room h₀ blockSize h.brk = blockSize - sizeofBlock := if_neg (Nat.not_lt.2 hge)
    have hle' : h.CapLe (h.newBlock (blockCap blockSize)) := by
      refine ⟨Nat.le_succ _, rfl, ?_⟩
      intro q hq
      rw [newBlock, setBlk_blk, if_neg (ne_of_lt hq)]
    refine ⟨⟨I.wf, I.size, hge.trans (Nat.le_succ _), hoom, ?_, ?_⟩, ?_⟩
    · intro _
      refine ⟨Nat.lt_succ_self _, ?_, ?_⟩
      · rw [hblk, hroom, hcap]
      · rw [hroom]
        lia
    · exact fun r hr => (I.refs r hr).mono hle'
    · intro _
      rw [hblk]
      refine ⟨rfl, ?_⟩
      rw [hcap]
      exact Nat.sub_pos_of_lt hlt

end

/-- The state in which `Next` pushes the rest of the current block. -/
def ready (s : OutputStream) (h : Heap) : OutputStream × Heap :=
  if s.curBlock = NULL ∨ (h.blk s.curBlock).full then
    ({ (s.releaseBlock h).1 with curBlock := ((s.releaseBlock h).2.createBlock s.blockSize).1 },
      ((s.releaseBlock h).2.createBlock s.blockSize).2)
  else (s, h)

theorem next_eq (hpos : 0 < s.blockSize) : s.next b h =
    if (ready s h).1.curBlock = NULL then (none, (ready s h).1, b, (ready s h).2)
    else
      let p := (ready s h).1.curBlock
      let r : BlockRef := ⟨((ready s h).2.blk p).size, ((ready s h).2.blk p).leftSpace, p⟩
      let out := b.pushOrMoveBackRef false r ((ready s h).2.setSize p ((ready s h).2.blk p).cap)
      (some (p, r.offset, r.length),
        { (ready s h).1 with byteCount := (ready s h).1.byteCount + r.length }, out.1, out.2) := by
  have hsize : (s.releaseBlock h).1.blockSize = s.blockSize := rfl
  simp only [OutputStream.next, ready, hsize, if_pos hpos]

section

variable (I : Fitting h₀ blockSize ⟨s, b, h⟩)
include I

section

variable (hpos : 0 < blockSize) (h32 : blockSize < 2 ^ 32)
    (hgood : sizeofBlock < blockSize ∧ blockSize < 2 ^ 31 + sizeofBlock ∨ ∀ p, h₀.brk ≤ p →
      h₀.oom p = true)
include hpos h32 hgood

theorem ready_fitting :
    Fitting h₀ blockSize ⟨(ready s h).1, b, (ready s h).2⟩ ∧
      ((ready s h).1.curBlock ≠ NULL → ((ready s h).2.blk (ready s h).1.curBlock).size
        < ((ready s h).2.blk (ready s h).1.curBlock).cap) := by
  have hsize : s.blockSize = blockSize := I.size
  rw [ready]
  split
  · obtain ⟨I', hnew⟩ := (I.releaseBlock hpos).createBlock h32 hgood
    rw [hsize]
    refine ⟨I', ?_⟩
    intro hne
    obtain ⟨h0, hcap⟩ := hnew hne
    exact h0 ▸ hcap
  next hgo =>
    refine ⟨I, ?_⟩
    intro _
    have hfull : ¬ (h.blk s.curBlock).full = true := fun hf => hgo (.inr hf)
    rw [Block.full, decide_eq_true_eq] at hfull
    exact Nat.not_le.1 hfull

theorem next :
    Fitting h₀ blockSize ⟨(s.next b h).2.1, (s.next b h).2.2.1, (s.next b h).2.2.2⟩ ∧
    NextUsable h₀ blockSize ⟨s, b, h⟩ := by
  obtain ⟨I', hroom⟩ := I.ready_fitting hpos h32 hgood
  have hsize : s.blockSize = blockSize := I.size
  have heq := next_eq (b := b) (h := h) (hsize ▸ hpos : 0 < s.blockSize)
  rcases hready : ready s h with ⟨s1, h1⟩
  rw [hready] at I' hroom heq
  simp only at I' hroom heq
  by_cases hnull : s1.curBlock = NULL
  · rw [if_pos hnull] at heq
    rw [heq]
    refine ⟨I', ?_⟩
    intro p off n hsome
    rw [heq] at hsome
    cases hsome
  · rw [if_neg hnull] at heq
    have W := I'.cur hnull
    have hlt := hroom hnull
    refine ⟨?_, ?_⟩
    · rw [heq]
      have hset : h1.CapLe (h1.setSize s1.curBlock (h1.blk s1.curBlock).cap) := .setSize h1 _ _
      obtain ⟨r, hr⟩ : ∃ r : BlockRef,
          r = ⟨(h1.blk s1.curBlock).size, (h1.blk s1.curBlock).leftSpace, s1.curBlock⟩ := ⟨_, rfl⟩
      have hblock : r.block ≠ NULL := by rwa [hr]
      simp only [← hr]
      have hheap :
          h1.CapLe
          (b.pushOrMoveBackRef false r (h1.setSize s1.curBlock (h1.blk s1.curBlock).cap)).2 := by
        rw [heap_pushOrMoveBackRef false I'.wf hblock, pushHeap]
        split
        · exact hset
        · exact hset.trans (.incRef _ _)
      constructor
      · exact wf_pushOrMoveBackRef false I'.wf hblock fun hf => absurd hf (by decide)
      · exact I'.size
      · exact I'.brk.trans hheap.brk
      · exact hheap.oom.trans I'.oom
      · exact fun hne => W.mono hheap
      · intro r' hr'
        rw [refs_pushOrMoveBackRef false I'.wf hblock] at hr'
        rcases mem_mergePush hr' with hmem | rfl | ⟨back, hmem, -, rfl⟩
        · exact (I'.refs r' hmem).mono hheap
        · have hcur : r'.block = s1.curBlock := by rw [hr]
          rw [hcur]
          exact W.mono hheap
        · exact (I'.refs back hmem).mono hheap
    · intro p off n hsome
      rw [heq] at hsome
      cases hsome
      have hcap := W.cap
      have hint := W.int
      simp only at hcap hint
      rw [Block.leftSpace]
      refine ⟨?_, by lia⟩
      rw [toInt_eq (Int.natCast_nonneg _) (by lia)]
      lia

end

theorem adopt (hr : r ∈ b.refs) (heq : s.adopt r h = .own s' h') :
    Fitting h₀ blockSize ⟨s', b, h'⟩ := by
  have hadopt : Fitting h₀ blockSize ⟨{ s with curBlock := r.block }, b, h.incRef r.block⟩ := by
    have hinc : h.CapLe (h.incRef r.block) := .incRef h r.block
    exact ⟨I.wf, I.size, I.brk, I.oom, fun _ => (I.refs r hr).mono hinc, fun x hx =>
      (I.refs x hx).mono hinc⟩
  unfold OutputStream.adopt at heq
  split at heq
  · split at heq
    · cases heq
    · split at heq
      · cases heq
      · cases heq
        exact I
  · split at heq
    · split at heq
      · cases heq
      · cases heq
        exact hadopt
    · split at heq
      · cases heq
      · cases heq
        exact hadopt

end

theorem backUpLoop (hpos : 0 < blockSize) : ∀ (fuel count : ℕ) (s : OutputStream) (b : IOBuf) (h : Heap),
    Fitting h₀ blockSize ⟨s, b, h⟩ → Fitting h₀ blockSize ⟨(backUpLoop fuel count s b h).1,
      (backUpLoop fuel count s b h).2.1, (backUpLoop fuel count s b h).2.2⟩ := by
  intro fuel
  induction fuel with
  | zero => exact fun _ _ _ _ I => I
  | succ fuel ih =>
    intro count s b h I
    rw [OutputStream.backUpLoop]
    split
    · exact I
    next hne =>
      obtain ⟨l, r, hl, hback⟩ := refs_ne_nil I.wf hne
      simp only [hback]
      cases hadopt : s.adopt r h with
      | fatal => exact I
      | foreign =>
        obtain ⟨hfewer, hcap⟩ := fewer_popBack (n := count) (h := h) I.wf
        apply I.mono hcap hfewer
        · exact rfl
        · exact .inr rfl
      | own s1 h1 =>
        have I1 : Fitting h₀ blockSize ⟨s1, b, h1⟩ := I.adopt (by rw [hl]; simp) hadopt
        have hsize : s1.blockSize ≠ 0 := by
          have heq : s1.blockSize = blockSize := I1.size
          rw [heq]
          exact Nat.pos_iff_ne_zero.1 hpos
        simp only [if_neg hsize]
        split
        next hlt =>
          apply I1.mono (.setSize h1 _ _) (fewer_trimBack I.wf hl hlt)
          · exact rfl
          · exact .inr rfl
        · obtain ⟨h2, hh2⟩ : ∃ h2, h2 = h1.setSize s1.curBlock
            ((h1.blk s1.curBlock).size - r.length) := ⟨_, rfl⟩
          have hset : h1.CapLe h2 := hh2 ▸ .setSize h1 _ _
          obtain ⟨hfewer, hcap⟩ := fewer_popBackRef (h := h2) I.wf hl
          simp only [← hh2]
          have I2 : Fitting h₀ blockSize ⟨{ s1 with byteCount := s1.byteCount - r.length },
              (b.popBackRef h2).1,
              (b.popBackRef h2).2⟩ := by
            apply I1.mono (hset.trans hcap) hfewer
            · exact rfl
            · exact .inr rfl
          have I3 := I2.releaseBlock hpos
          split
          · exact I3
          · exact ih _ _ _ _ I3

section

variable (I : Fitting h₀ blockSize σ) (hpos : 0 < blockSize) (h32 : blockSize < 2 ^ 32)
    (hgood : sizeofBlock < blockSize ∧ blockSize < 2 ^ 31 + sizeofBlock ∨ ∀ p, h₀.brk ≤ p →
      h₀.oom p = true)
include I hpos h32 hgood

theorem call (c : Call) :
    Fitting h₀ blockSize (σ.call c) := by
  cases c with
  | next w =>
    obtain ⟨I', -⟩ := I.next hpos h32 hgood
    rcases hnext : σ.s.next σ.b σ.h with ⟨region, s', b', h'⟩
    rw [hnext] at I'
    rw [StreamState.call, hnext]
    cases region with
    | none => exact I'
    | some region =>
      apply I'.mono (.write h' _ _ _) (.refl I'.wf)
      · exact rfl
      · exact .inr rfl
  | backUp count => exact backUpLoop hpos _ _ _ _ _ I

theorem run (calls : List Call) :
    Fitting h₀ blockSize (calls.foldl StreamState.call σ) := by
  induction calls generalizing σ with
  | nil => exact I
  | cons c calls ih => exact ih (I.call hpos h32 hgood c)

end

end StreamState.Fitting

/-! ## The sizes that go wrong -/

theorem toInt_pos {n : ℕ} (hn : n < 2 ^ 32) (hpos : 0 < toInt n) : 0 < n ∧ n < 2 ^ 31 := by
  rw [toInt, Int.bmod_def] at hpos
  split at hpos
  all_goals lia

/-- `Next` goes on asking for memory, and nothing else changes. -/
theorem next_oom (w : ℕ → Byte) (hpos : 0 < blockSize) (h32 : blockSize < 2 ^ 32) : ∀ k : ℕ,
    (∀ j < k, h₀.oom (h₀.brk + j) = true) →
    (replicate k (Call.next w)).foldl StreamState.call ⟨⟨blockSize, NULL, 0⟩, b, h₀⟩
      = ⟨⟨blockSize, NULL, 0⟩, b, { h₀ with brk := h₀.brk + k }⟩ := by
  intro k
  induction k with
  | zero => exact fun _ => rfl
  | succ k ih =>
    intro hfail
    rw [replicate_succ', foldl_append, ih fun j hj => hfail j (hj.trans (Nat.lt_succ_self k))]
    have hoom : h₀.oom (h₀.brk + k) = true := hfail k (Nat.lt_succ_self k)
    have hnot : ¬ 0xFFFFFFFF < blockSize := by lia
    simp only [foldl_cons, foldl_nil, StreamState.call, OutputStream.next, releaseBlock, true_or, if_true,
      if_pos hpos, ne_eq, not_true_eq_false, if_false, createBlock, if_neg hnot, hoom]
    rfl

theorem next_first (hpos : 0 < blockSize) (h32 : blockSize < 2 ^ 32) (hbrk : h.brk ≠ NULL)
    (hoom : h.oom h.brk = false) :
    (OutputStream.next ⟨blockSize, NULL, 0⟩ b h).1 = some (h.brk, 0, blockCap blockSize) := by
  have hnot : ¬ 0xFFFFFFFF < blockSize := by lia
  have hblk : (h.newBlock (blockCap blockSize)).blk h.brk
      = ⟨1, 0, blockCap blockSize, NULL, (h.blk h.brk).data⟩ := by
    rw [newBlock, setBlk_blk, if_pos rfl]
  simp only [OutputStream.next, releaseBlock, true_or, if_true, if_pos hpos, ne_eq,
    not_true_eq_false, if_false,
    createBlock, if_neg hnot, hoom, Bool.false_eq_true, if_neg hbrk, hblk, Block.leftSpace, Nat.sub_zero]

theorem good_of_usable (hmin : offsetofData < blockSize) (h32 : blockSize < 2 ^ 32) (hbrk : 0 < h₀.brk)
    (husable : ∀ calls : List Call,
      StreamState.NextUsable h₀ blockSize
      (calls.foldl StreamState.call ⟨⟨blockSize, NULL, 0⟩, b, h₀⟩)) :
    sizeofBlock < blockSize ∧ blockSize < 2 ^ 31 + sizeofBlock ∨ ∀ p, h₀.brk ≤ p → h₀.oom p = true := by
  by_cases hall : ∃ k, h₀.oom (h₀.brk + k) = false
  · -- the first call of `malloc` that succeeds
    left
    obtain ⟨hsucc, hfail⟩ : h₀.oom (h₀.brk + Nat.find hall) = false ∧ ∀ j < Nat.find hall,
        h₀.oom (h₀.brk + j) = true := by
      refine ⟨Nat.find_spec hall, ?_⟩
      intro j hj
      exact Bool.eq_true_of_not_eq_false (Nat.find_min hall hj)
    have hpos : 0 < blockSize := (Nat.zero_le _).trans_lt hmin
    have hok := husable (replicate (Nat.find hall) (.next fun _ => 0))
    rw [next_oom _ hpos h32 _ hfail] at hok
    have hbrk' : ({ h₀ with brk := h₀.brk + Nat.find hall } : Heap).brk ≠ NULL := by
      exact ne_of_gt (Nat.add_pos_left hbrk _)
    obtain ⟨hint, hroom⟩ := hok _ _ _ (next_first hpos h32 hbrk' hsucc)
    have hpage : room h₀ blockSize (h₀.brk + Nat.find hall) = blockSize - sizeofBlock :=
      if_neg (Nat.not_lt.2 (Nat.le_add_right _ _))
    rw [hpage, zero_add] at hroom
    have hcap32 : blockCap blockSize < 2 ^ 32 := hroom.trans_lt ((Nat.sub_le _ _).trans_lt h32)
    obtain ⟨h0, h31⟩ := toInt_pos hcap32 hint
    rw [blockCap] at hroom h0 h31
    split at hroom
    next hle =>
      rw [if_pos hle] at h0 h31
      lia
    next hlt =>
      rw [sizeofBlock] at *
      lia
  · right
    intro p hp
    obtain ⟨k, rfl⟩ := Nat.exists_eq_add_of_le hp
    exact Bool.eq_true_of_not_eq_false fun hf => hall ⟨k, hf⟩

end

/-- **The block sizes that give usable blocks** are those behind the whole header that leave what an
`int` can say. -/
theorem run_usable_iff {ι κ : Type} [DecidableEq ι] [DecidableEq κ] [Fintype ι] [Fintype κ]
    (mem : Ptr → ℕ → Byte)
    (oom : Ptr → Bool) (acts : List (AreaAction ι κ)) (i : ι) (blockSize : UInt32) (s : OutputStream)
    (haccepted : OutputStream.ofSize blockSize.toNat = some s) :
    let W := (World.init mem oom : World ι κ).runArea acts
    let b := (W.portal i).buf
    (∀ r ∈ b.refs, (W.heap.blk r.block).cap < 2 ^ 31) →
      ((∀ calls : List Call, StreamState.NextUsable W.heap blockSize.toNat
        (calls.foldl StreamState.call ⟨s, b, W.heap⟩)) ↔
        sizeofBlock < blockSize.toNat ∧ blockSize.toNat < 2 ^ 31 + sizeofBlock ∨ ∀ p,
          W.heap.brk ≤ p → W.heap.oom p = true) := by
  intro W b hcap
  obtain ⟨l, c, S, F⟩ : ∃ l c S, WInv W l c S := (WInv.init mem oom).runArea
  have R := (F.focusPortal i).rep
  have h32 : blockSize.toNat < 2 ^ 32 := blockSize.toNat_lt
  obtain ⟨hmin, hs⟩ : offsetofData < blockSize.toNat ∧ s = ⟨blockSize.toNat, NULL, 0⟩ := by
    rw [ofSize] at haccepted
    split at haccepted
    · cases haccepted
    next hgt =>
      exact ⟨Nat.not_le.1 hgt, (Option.some.inj haccepted).symm⟩
  subst hs
  constructor
  · exact good_of_usable hmin h32 R.inv.brk
  · intro hgood calls
    have hpos : 0 < blockSize.toNat := (Nat.zero_le _).trans_lt hmin
    have I : StreamState.Fitting W.heap blockSize.toNat ⟨⟨blockSize.toNat, NULL, 0⟩, b, W.heap⟩ := by
      refine ⟨R.wf, rfl, le_rfl, rfl, fun hne => absurd rfl hne, ?_⟩
      intro r hr
      have hlt : r.block < W.heap.brk :=
        (R.inv.live _ (R.inv.pos_of_ref (Multiset.mem_add.2 (.inl hr)))).2.1
      have hroom : room W.heap blockSize.toNat r.block = (W.heap.blk r.block).cap := if_pos hlt
      exact ⟨hlt, hroom.ge, hroom ▸ hcap r hr⟩
    exact ((I.run hpos h32 hgood calls).next hpos h32 hgood).2

theorem run_usable_iff_hundred :
    (∀ calls : List Call, StreamState.NextUsable One.heap 100
      (calls.foldl StreamState.call ⟨⟨100, NULL, 0⟩, new, One.heap⟩)) ↔
      sizeofBlock < 100 ∧ 100 < 2 ^ 31 + sizeofBlock ∨ ∀ p, One.heap.brk ≤ p → One.heap.oom p = true :=
  run_usable_iff (ι := Unit) (κ := Empty) (fun _ _ => 0) (fun _ => false) [] () 100 ⟨100, NULL, 0⟩
    rfl (by decide)

/-- 25 bytes are accepted, and `Next` returns a size of -7; 32 bytes are accepted, and it returns
0. -/
theorem header_not_counted :
    OutputStream.ofSize 25 = some ⟨25, NULL, 0⟩ ∧ (OutputStream.next ⟨25, NULL, 0⟩ new One.heap).1
      = some (1, 0, 2 ^ 32 - 7) ∧
      toInt (2 ^ 32 - 7) = -7 ∧ OutputStream.ofSize 32 = some ⟨32, NULL, 0⟩ ∧
      (OutputStream.next ⟨32, NULL, 0⟩ new One.heap).1 = some (1, 0, 0) := by
  refine ⟨rfl, ?_, ?_, rfl, ?_⟩
  all_goals decide

end Eabase.IOBuf
