import Eabase.IOBuf.Sharing
import Eabase.Lib.Machine

/-!
# Builders

An `IOBufBuilder` is an `std::ostream` into an `IOBuf`. Its put area is the rest
of a block, which counts as used and belongs to the buffer already: `shrink()`
gives back what was not put. `buf()` and `move_to` shrink first, and so the
buffer is what was inserted. `buf(const IOBuf&)` does not: it may only replace
the buffer when there is no put area.

The put area behaves as the region of an `IOBufAppender`, which fills a region
the same way. It is given back in another way, also when it is full.
-/

namespace Eabase.IOBuf

open Finset Function Multiset

/-- The put area from `pptr` to `epptr` in the block `blk`, the buffer and the stream that are
wrapped, and the `badbit`. Where `pbase()` is `NULL`, `blk = NULL` and `pptr = epptr = 0`. -/
structure IOBufBuilder where
  blk : Ptr
  pptr : ℕ
  epptr : ℕ
  buf : IOBuf
  stream : OutputStream
  bad : Bool

namespace IOBufBuilder

def new : IOBufBuilder := ⟨NULL, 0, 0, IOBuf.new, OutputStream.new, false⟩

/-- `setp((char*)block, (char*)block + size)`. -/
def setp (p : Ptr) (off size : ℕ) (B : IOBufBuilder) : IOBufBuilder :=
  { B with blk := p, pptr := off, epptr := off + size }

/-- `sputc(c)`, and whether it is not `eof()`. Without room, `overflow(c)` gets a put area and calls
`sputc` again. -/
def sputc : ℕ → Byte → IOBufBuilder → Heap → Bool × IOBufBuilder × Heap
  | 0, _, B, h => (false, B, h)
  | fuel + 1, c, B, h =>
      if B.pptr < B.epptr then (true, { B with pptr := B.pptr + 1 }, h.write B.blk B.pptr [c])
      else
        match B.stream.next B.buf h with
        | (some (p, off, size), s, b, h') =>
          sputc fuel c (setp p off size { B with buf := b, stream := s }) h'
        | (none, s, b, h') => (false, setp NULL 0 0 { B with buf := b, stream := s }, h')

/-- `sputn(s, n)`: the characters that were put. `Next` never hands out an empty region, so `sputc`
does not call `overflow` twice. -/
def sputn : List Byte → IOBufBuilder → Heap → ℕ × IOBufBuilder × Heap
  | [], B, h => (0, B, h)
  | c :: s, B, h =>
      match B.sputc 2 c h with
      | (true, B₁, h₁) =>
          let (n, B₂, h₂) := sputn s B₁ h₁
          (n + 1, B₂, h₂)
      | (false, B₁, h₁) => (0, B₁, h₁)

/-- `<<` with a character or a string: nothing is put if the `badbit` is set, and it is set if not
all are put. -/
def insert (s : List Byte) (B : IOBufBuilder) (h : Heap) : ℕ × IOBufBuilder × Heap :=
  if B.bad then (0, B, h)
  else
    let (n, B₁, h₁) := sputn s B h
    (n, { B₁ with bad := decide (n < s.length) }, h₁)

/-- `flush()`: `sync()` has nothing to do. -/
def flush (B : IOBufBuilder) : IOBufBuilder := B

/-- `shrink()`. -/
def shrink (B : IOBufBuilder) (h : Heap) : IOBufBuilder × Heap :=
  if B.blk ≠ NULL then
    let (s, b, h') := B.stream.backUp (B.epptr - B.pptr) B.buf h
    (setp NULL 0 0 { B with buf := b, stream := s }, h')
  else (B, h)

/-- `buf(const IOBuf& buf)`. -/
def setBuf (x : IOBuf) (B : IOBufBuilder) (h : Heap) : IOBufBuilder × Heap :=
  let (b, h') := B.buf.assign x h
  ({ B with buf := b }, h')

/-- `move_to(IOBuf& target)`: the builder, the target and the heap. -/
def moveTo (target : IOBuf) (B : IOBufBuilder) (h : Heap) : IOBufBuilder × IOBuf × Heap :=
  let (B₁, h₁) := B.shrink h
  let (t, b, h₂) := IOBuf.assignMovable target B₁.buf h₁
  ({ B₁ with buf := b }, t, h₂)

/-- The put area as the region of an appender. -/
def area (B : IOBufBuilder) : IOBufAppender := ⟨B.blk, B.pptr, B.epptr, B.buf, B.stream⟩

end IOBufBuilder

/-- The put area is at the end of the buffer, in the block that the stream holds, and something was
put into it. -/
structure BLoc (h : Heap) (B : IOBufBuilder) : Prop where
  null : B.blk = NULL → B.pptr = B.epptr
  last : B.blk ≠ NULL → ∃ rs r, B.buf.refs = rs ++ [r] ∧ r.block = B.blk ∧ r.stop = B.epptr ∧
    B.epptr - B.pptr < r.length ∧ B.stream.curBlock = B.blk ∧ (h.blk B.blk).size = B.epptr

open IOBufAppender

structure BRep (pos : Bool) (h : Heap) (l : List Ptr) (B : IOBufBuilder) (Y : Multiset BlockRef)
    (K : Multiset Ptr) (S : Ptr → Option ℕ) : Prop where
  area : ARep pos h l B.area Y K S
  loc : BLoc h B

section

variable {pos : Bool} {h h' : Heap} {l : List Ptr} {B B' : IOBufBuilder} {Y : Multiset BlockRef}
  {K : Multiset Ptr} {S S' : Ptr → Option ℕ} {c : Byte} {s : List Byte} {n : ℕ}

theorem BLoc.left_eq_zero (R : BLoc h B) (hnull : B.blk = NULL) : B.area.left = 0 := by
  change B.epptr - B.pptr = 0
  rw [R.null hnull, Nat.sub_self]

theorem BLoc.shift (R : BLoc h B) (hsize : ∀ p ∈ B.stream.held, (h'.blk p).size = (h.blk p).size) :
    BLoc h' B where
  null := R.null
  last hne := by
    obtain ⟨rs, r, hrefs, hblk, hstop, hlen, hcur, hend⟩ := R.last hne
    refine ⟨rs, r, hrefs, hblk, hstop, hlen, hcur, ?_⟩
    rw [hsize, hend]
    rw [OutputStream.held, hcur, if_neg hne]
    exact Multiset.mem_singleton_self _

theorem ARep.put (R : ARep pos h l B.area Y K S) (hlt : B.pptr < B.epptr) :
    ∃ S', BRep pos (h.write B.blk B.pptr [c]) l { B with pptr := B.pptr + 1 } Y K S' ∧
      Shift S S' h (h.write B.blk B.pptr [c]) Y K ∧
      (h.write B.blk B.pptr [c]).content (IOBufBuilder.area { B with pptr := B.pptr + 1 }).refs =
        h.content B.area.refs ++ [c] := by
  have hroom : [c].length ≤ B.area.left := Nat.sub_pos_of_lt hlt
  obtain ⟨S', R', hs, hc⟩ := R.fill one_pos hroom rfl
  obtain ⟨rs, r, hrefs, hblk, hstop, hoff, hcur, hne, hsize, -, -⟩ := R.busy hlt
  refine ⟨S',
    ⟨R', fun hnull => absurd hnull hne, fun _ => ⟨rs, r, hrefs, hblk, hstop, ?_, hcur, ?_⟩⟩, hs, hc⟩
  · change B.epptr - (B.pptr + 1) < r.length
    change r.offset + r.length = B.epptr at hstop
    change r.offset ≤ B.pptr at hoff
    lia
  · rw [Heap.write_size]
    exact hsize

theorem BRep.sputc {ok : Bool} (R : BRep pos h l B Y K S) (heq : B.sputc 2 c h = (ok, B', h')) :
    ∃ l' S', BRep pos h' l' B' Y K S' ∧ Shift S S' h h' Y K ∧
      (ok = true ∧ h'.content B'.area.refs = h.content B.area.refs ++ [c] ∨
        ok = false ∧ (∃ q, h.oom q = true) ∧ h'.content B'.area.refs = h.content B.area.refs) := by
  unfold IOBufBuilder.sputc at heq
  by_cases hlt : B.pptr < B.epptr
  · simp only [if_pos hlt] at heq
    cases heq
    obtain ⟨S', R', hs, hc⟩ := R.area.put (c := c) hlt
    exact ⟨l, S', R', hs, .inl ⟨rfl, hc⟩⟩
  · rw [if_neg hlt] at heq
    have hleft : B.area.left = 0 := Nat.sub_eq_zero_of_le (not_lt.1 hlt)
    rcases hnext : B.stream.next B.buf h with ⟨o, s, b, h1⟩
    rw [hnext] at heq
    cases o with
    | none =>
      have hadd : B.area.addBlock h = (-1, ⟨NULL, 0, 0, b, s⟩, h1) := by
        unfold addBlock IOBufBuilder.area
        rw [hnext]
      obtain ⟨l', S', R', hs, hc, ⟨hrc, -⟩ | ⟨-, -, hoom⟩⟩ := R.area.addBlock hleft hadd
      · exact absurd hrc (by decide)
      · cases heq
        exact ⟨l', S', ⟨R', fun _ => rfl, fun hne => absurd rfl hne⟩, hs, .inr ⟨rfl, hoom, hc⟩⟩
    | some region =>
      obtain ⟨p, off, size⟩ := region
      have hadd : B.area.addBlock h = (0, ⟨p, off, off + size, b, s⟩, h1) := by
        unfold addBlock IOBufBuilder.area
        rw [hnext]
      obtain ⟨l1, S1, R1, hs1, hc1, ⟨-, hroom⟩ | ⟨hrc, -⟩⟩ := R.area.addBlock hleft hadd
      · -- The new put area is not empty.
        have hlt1 : off < off + size := Nat.lt_of_sub_pos hroom
        unfold IOBufBuilder.sputc IOBufBuilder.setp at heq
        simp only [if_pos hlt1] at heq
        cases heq
        obtain ⟨S2, R2, hs2, hc2⟩ := ARep.put (B := ⟨p, off, off + size, b, s, B.bad⟩) (c := c) R1 hlt1
        exact ⟨l1, S2, R2, hs1.trans hs2, .inl ⟨rfl, hc2.trans (congrArg (· ++ [c]) hc1)⟩⟩
      · exact absurd hrc (by decide)

theorem BRep.sputn (R : BRep pos h l B Y K S) (heq : B.sputn s h = (n, B', h')) :
    ∃ l' S', BRep pos h' l' B' Y K S' ∧ Shift S S' h h' Y K ∧
      h'.content B'.area.refs = h.content B.area.refs ++ s.take n ∧
      (n = s.length ∨ ∃ q, h.oom q = true) := by
  induction s generalizing B h l S n with
  | nil =>
    simp only [IOBufBuilder.sputn, Prod.mk.injEq] at heq
    obtain ⟨rfl, rfl, rfl⟩ := heq
    exact ⟨l, S, R, .refl S h Y K, (List.append_nil _).symm, .inl rfl⟩
  | cons c s ih =>
    rcases hput : B.sputc 2 c h with ⟨ok, B1, h1⟩
    unfold IOBufBuilder.sputn at heq
    rw [hput] at heq
    obtain ⟨l1, S1, R1, hs1, ⟨rfl, hc1⟩ | ⟨rfl, hoom, hc1⟩⟩ := R.sputc hput
    · rcases hrest : B1.sputn s h1 with ⟨m, B2, h2⟩
      simp only [hrest, Prod.mk.injEq] at heq
      obtain ⟨rfl, rfl, rfl⟩ := heq
      obtain ⟨l2, S2, R2, hs2, hc2, hm⟩ := ih R1 hrest
      refine ⟨l2, S2, R2, hs1.trans hs2, ?_, ?_⟩
      · rw [hc2, hc1, List.take_succ_cons, List.append_assoc, List.singleton_append]
      · rw [hs1.keeps.oom] at hm
        exact hm.imp_left (congrArg (· + 1))
    · cases heq
      exact ⟨l1, S1, R1, hs1, hc1.trans (List.append_nil _).symm, .inr hoom⟩

theorem BRep.insert (R : BRep pos h l B Y K S) (heq : B.insert s h = (n, B', h')) :
    ∃ l' S', BRep pos h' l' B' Y K S' ∧ Shift S S' h h' Y K ∧
      h'.content B'.area.refs = h.content B.area.refs ++ s.take n ∧
      ((∀ q, h.oom q = false) → B.bad = false → n = s.length ∧ B'.bad = false) := by
  unfold IOBufBuilder.insert at heq
  split at heq
  case isTrue hbad =>
    cases heq
    refine ⟨l, S, R, .refl S h Y K, (List.append_nil _).symm, fun _ hgood => ?_⟩
    rw [hbad] at hgood
    exact absurd hgood nofun
  case isFalse =>
    rcases hputs : B.sputn s h with ⟨m, B1, h1⟩
    simp only [hputs, Prod.mk.injEq] at heq
    obtain ⟨rfl, rfl, rfl⟩ := heq
    obtain ⟨l', S', R', hs, hc, hm⟩ := R.sputn hputs
    refine ⟨l', S', ⟨R'.area, R'.loc.null, R'.loc.last⟩, hs, hc, fun hnever _ => ?_⟩
    have hall : m = s.length := by
      rcases hm with hall | ⟨q, hq⟩
      · exact hall
      · rw [hnever q] at hq
        exact absurd hq nofun
    exact ⟨hall, decide_eq_false hall.ge.not_gt⟩

/-- A full put area: nothing is given back, and the stream lets the block go. -/
theorem BRep.shrinkFull {st : OutputStream} {b : IOBuf} (R : BRep pos h l B Y K S) (hne : B.blk ≠ NULL)
    (hfull : B.epptr - B.pptr = 0) (heq : B.stream.backUp 0 B.buf h = (st, b, h')) :
    ∃ l', ARep pos h' l' ⟨NULL, 0, 0, b, st⟩ Y K S ∧ Frame h h' Y K ∧
      h'.content b.refs = h.content B.area.refs := by
  obtain ⟨rs, r, hrefs, hblk, hstop, hlen, hcur, hsize⟩ := R.loc.last hne
  have htls : B.stream.blockSize = 0 := R.area.tls
  have hwf : B.buf.WF pos := R.area.wf
  have hcurne : B.stream.curBlock ≠ NULL := hcur ▸ hne
  have hpos : 0 < r.length := Nat.zero_lt_of_lt hlen
  have harea : B.area.refs = B.buf.refs := refs_eq hfull
  have hheld : B.area.held + K = B.blk ::ₘ K := by
    change B.stream.held + K = _
    rw [OutputStream.held, hcur, if_neg hne, singleton_add]
  have H := R.area.inv
  rw [harea, hheld] at H
  have hend : B.pptr = B.epptr := le_antisymm R.area.le (Nat.sub_eq_zero_iff_le.1 hfull)
  have hlim : S B.blk = none := hcur ▸ (R.area.idle hend hcurne).2
  have hadopt : B.stream.adopt r h = .own B.stream h := by
    unfold OutputStream.adopt
    rw [if_pos hcurne, if_neg (not_not.2 (hblk.trans hcur.symm)), if_neg (not_not.2 _)]
    rw [hcur, hsize, hstop]
  have hempty : B.buf.empty = false := by
    by_contra hsome
    have hsum := sumLen_of_empty hwf.view (Bool.not_eq_false _ ▸ hsome)
    rw [hrefs, sumLen_append, sumLen_cons] at hsum
    lia
  have hback : B.buf.backRef = r := backRef_eq hwf.view hrefs
  obtain ⟨fuel, hfuel⟩ : ∃ fuel, B.buf.refNum = fuel + 1 :=
    ⟨rs.length, by rw [refNum_eq hwf.view, hrefs, List.length_append, List.length_singleton]⟩
  have hsame : h.setSize B.blk ((h.blk B.blk).size - 0) = h := by
    unfold Heap.setSize Heap.setBlk
    rw [Nat.sub_zero, update_eq_self]
  unfold OutputStream.backUp at heq
  rw [hfuel] at heq
  unfold OutputStream.backUpLoop at heq
  simp only [hempty, Bool.false_eq_true, if_false, hback, hadopt, hcur, if_pos hpos, htls, if_true, hsame,
    Prod.mk.injEq] at heq
  obtain ⟨rfl, rfl, rfl⟩ := heq
  obtain ⟨hb, hwf'⟩ := trimBack_spec { r with length := r.length - 0 } (n := 0) hwf hrefs
    (hwf.ref r (by rw [hrefs]; exact List.mem_concat_self)).1 (Nat.sub_add_cancel (Nat.zero_le _)) hpos
  have hrefs' : ((B.buf.setBackRef { r with length := r.length - 0 }).subNbytes 0).refs
      = B.buf.refs := hb.trans hrefs.symm
  obtain ⟨hf, l', H', -⟩ := H.releaseTlsBlock hlim
  refine ⟨l',
    ⟨⟨rfl, hwf', le_rfl, fun hlt => absurd hlt (lt_irrefl _), fun _ hnull => absurd rfl hnull⟩, ?_⟩,
    hf.mono fun x hx => mem_add.2 (.inr hx), ?_⟩
  · rw [refs_eq rfl, hrefs']
    simpa [held, OutputStream.held] using H'
  · rw [hrefs', harea]
    exact hf.content fun x hx => mem_add.2 (.inl hx)

theorem BRep.shrink (R : BRep pos h l B Y K S) (heq : B.shrink h = (B', h')) :
    ∃ l' S', BRep pos h' l' B' Y K S' ∧ Shift S S' h h' Y K ∧ B'.blk = NULL ∧ B'.bad = B.bad ∧
      h'.content B'.area.refs = h.content B.area.refs := by
  unfold IOBufBuilder.shrink at heq
  by_cases hne : B.blk ≠ NULL
  · rcases hback : B.stream.backUp (B.epptr - B.pptr) B.buf h with ⟨st, b, h1⟩
    simp only [if_pos hne, hback, Prod.mk.injEq] at heq
    obtain ⟨rfl, rfl⟩ := heq
    have hloc : BLoc h1 (.setp NULL 0 0 { B with buf := b, stream := st }) :=
      ⟨fun _ => rfl, fun hne => absurd rfl hne⟩
    by_cases hfull : B.epptr - B.pptr = 0
    · rw [hfull] at hback
      obtain ⟨l', R', hf, hc⟩ := R.shrinkFull hne hfull hback
      exact ⟨l', S, ⟨R', hloc⟩, Shift.of_frame R.area.inv hf, rfl, rfl,
        (congrArg _ (refs_eq rfl)).trans hc⟩
    · have hshrink : B.area.shrink h = (⟨NULL, 0, 0, b, st⟩, h1) := by
        unfold shrink
        have hback' : B.area.stream.backUp B.area.left B.area.buf h = (st, b, h1) := hback
        rw [if_pos (show B.area.left ≠ 0 from hfull), hback']
      obtain ⟨l', S', R', hs, -, hc⟩ := R.area.shrink hshrink
      exact ⟨l', S', ⟨R', hloc⟩, hs, rfl, rfl, hc⟩
  · rw [if_neg hne] at heq
    cases heq
    exact ⟨l, S, R, .refl S h Y K, not_not.1 hne, rfl, rfl⟩

theorem BRep.setBuf {x : IOBuf} (R : BRep pos h l B Y K S) (hnull : B.blk = NULL) (hx : x.WF pos)
    (hY : ∀ r ∈ x.refs, r ∈ Y) (heq : B.setBuf x h = (B', h')) :
    BRep pos h' l B' Y K S ∧ Shift S S h h' Y K ∧ B'.bad = B.bad ∧ h'.content B'.area.refs
      = h.content x.refs := by
  rcases hassign : B.buf.assign x h with ⟨b, h1⟩
  unfold IOBufBuilder.setBuf at heq
  simp only [hassign, Prod.mk.injEq] at heq
  obtain ⟨rfl, rfl⟩ := heq
  have hleft := R.loc.left_eq_zero hnull
  obtain ⟨R', hro, hrefs⟩ := (R.area.rep hleft).assign hx hY hassign
  have hf : Frame h h1 Y (B.area.held + K) := R'.frame hro
  have hrefs' : IOBufAppender.refs (IOBufBuilder.area { B with buf := b }) = b.refs :=
    IOBufAppender.refs_eq hleft
  refine ⟨⟨⟨⟨R.area.tls, R'.wf, R.area.le, fun hlt => ?_, fun hend hcur => ?_⟩, ?_⟩, R.loc.null,
    fun hne => absurd hnull hne⟩,
    Shift.of_frame R.area.inv (hf.monoHeld fun p hp => mem_add.2 (.inr hp)), rfl, ?_⟩
  · exact absurd (R.loc.null hnull) hlt.ne
  · obtain ⟨hfull, hS⟩ := R.area.idle hend hcur
    have hmem : B.stream.curBlock ∈ B.area.held + K := by
      apply mem_add.2
      left
      have hcur' : B.stream.curBlock ≠ NULL := hcur
      change B.stream.curBlock ∈ B.stream.held
      rw [OutputStream.held, if_neg hcur']
      exact Multiset.mem_singleton_self _
    refine ⟨?_, hS⟩
    change decide ((h1.blk B.stream.curBlock).cap ≤ (h1.blk B.stream.curBlock).size) = true
    rw [hf.size _ hmem, hf.cap _ hmem]
    exact hfull
  · rw [hrefs']
    exact R'.inv
  · rw [hrefs', hrefs]
    exact hf.content hY

end

/-! ## Builders and buffers of one thread -/

/-- The buffers and the builders over one heap, and the bytes that should be in each builder: those
inserted since the construction, the last `move_to` or the last `buf(const IOBuf&)`, then behind the
bytes of the given buffer. -/
structure BuilderWorld (ι κ : Type) where
  heap : Heap
  bufs : ι → IOBuf
  builder : κ → IOBufBuilder
  inserted : κ → List Byte

inductive BuilderAction (ι κ : Type) : Type where
  | buf (op : Op ι)
  | insert (a : κ) (s : List Byte)
  | flush (a : κ)
  /-- `buf()`. -/
  | getBuf (a : κ)
  /-- `buf(const IOBuf&)`. -/
  | setBuf (a : κ) (i : ι)
  | moveTo (a : κ) (i : ι)
  /-- `append(builder.buf())` to another buffer. -/
  | appendBuf (i : ι) (a : κ)

theorem WInv.onBufs_size {ι κ : Type} [Fintype ι] [Fintype κ] [DecidableEq ι] {W : World ι κ}
    {l : List Ptr}
    {c : ι → List Ptr} {S : Ptr → Option ℕ} (F : WInv W l c S) (op : Op ι) {y : ι ⊕ κ} {p : Ptr}
    (hp : p ∈ W.held c y) :
    ((W.onBufs op).heap.blk p).size = (W.heap.blk p).size := by
  have hfam : FamInv false W.heap l W.bufs (∑ b, ((W.app b).refs : Multiset BlockRef))
      (∑ x, W.held c x) S :=
    ⟨fun j => (F.portal j).wf, F.inv.of_eq W.sum_refs⟩
  rcases heq : op.exec W.bufs W.heap with ⟨res, bufs', h'⟩
  obtain ⟨-, -, hfr, -⟩ := hfam.exec heq
  unfold World.onBufs
  rw [heq]
  exact hfr.size p (mem_sum.2 ⟨y, mem_univ y, hp⟩)

namespace BuilderWorld

section

variable {ι κ : Type} [DecidableEq ι] [DecidableEq κ]

def init (mem : Ptr → ℕ → Byte) (oom : Ptr → Bool) : BuilderWorld ι κ :=
  ⟨Heap.init mem oom, fun _ => IOBuf.new, fun _ => IOBufBuilder.new, fun _ => []⟩

/-- `buf()` of builder `a`. -/
def shrink (V : BuilderWorld ι κ) (a : κ) : BuilderWorld ι κ :=
  let (B, h) := (V.builder a).shrink V.heap
  { V with heap := h, builder := update V.builder a B }

def step (V : BuilderWorld ι κ) : BuilderAction ι κ → BuilderWorld ι κ
  | .buf op =>
      let (_, bufs, h) := op.exec V.bufs V.heap
      { V with heap := h, bufs := bufs }
  | .insert a s =>
      let (n, B, h) := (V.builder a).insert s V.heap
      { V with
        heap := h
        builder := update V.builder a B
        inserted := update V.inserted a (V.inserted a ++ s.take n) }
  | .flush a => { V with builder := update V.builder a (V.builder a).flush }
  | .getBuf a => V.shrink a
  | .setBuf a i =>
      let (B, h) := (V.builder a).setBuf (V.bufs i) V.heap
      { V with
        heap := h
        builder := update V.builder a B
        inserted := update V.inserted a (V.heap.content (V.bufs i).refs) }
  | .moveTo a i =>
      let (B, t, h) := (V.builder a).moveTo (V.bufs i) V.heap
      { heap := h
        bufs := update V.bufs i t
        builder := update V.builder a B
        inserted := update V.inserted a [] }
  | .appendBuf i a =>
      let V₁ := V.shrink a
      let (b, h) := (V₁.bufs i).appendBuf (V₁.builder a).buf V₁.heap
      { V₁ with heap := h, bufs := update V₁.bufs i b }

/-- `buf(const IOBuf&)` is called where there is no put area: nothing was inserted since the
construction, `buf()` or `move_to`, unless it failed. -/
def NoPutArea (V : BuilderWorld ι κ) : BuilderAction ι κ → Prop
  | .setBuf a _ => (V.builder a).blk = NULL
  | _ => True

instance (V : BuilderWorld ι κ) (act : BuilderAction ι κ) : Decidable (V.NoPutArea act) := by
  unfold NoPutArea
  split
  case h_1 => infer_instance
  case h_2 => infer_instance

def world (V : BuilderWorld ι κ) : World ι κ :=
  ⟨V.heap, fun i => ⟨V.bufs i, NULL⟩, fun a => (V.builder a).area⟩

end

variable {ι κ : Type} [Fintype ι] [Fintype κ] [DecidableEq ι] [DecidableEq κ] {V : BuilderWorld ι κ}
    {l l' : List Ptr}
  {c c' : ι → List Ptr} {S S' : Ptr → Option ℕ} {h' : Heap} {B : IOBufBuilder} {bs : List Byte}
    {a : κ} {i : ι}

/-- The invariant: the region of each builder holds what was inserted. -/
structure Inv (V : BuilderWorld ι κ) : Prop where
  world : ∃ l c S, WInv V.world l c S
  loc : ∀ a, BLoc V.heap (V.builder a)
  content : ∀ a, V.heap.content (V.builder a).area.refs = V.inserted a
  good : (∀ q, V.heap.oom q = false) → ∀ a, (V.builder a).bad = false

theorem Inv.focus (F : V.Inv) (W : WInv V.world l c S) (a : κ) :
    BRep false V.heap l (V.builder a) (V.world.otherRefs (.inr a)) (V.world.otherHeld c (.inr a)) S :=
  ⟨W.focusApp a, F.loc a⟩

theorem Inv.onBuilder (F : V.Inv) (W : WInv V.world l c S)
    (R : BRep false h' l' B (V.world.otherRefs (.inr a)) (V.world.otherHeld c (.inr a)) S')
    (hs : Shift S S' V.heap h' (V.world.otherRefs (.inr a)) (V.world.otherHeld c (.inr a)))
    (hc : h'.content B.area.refs = bs)
    (hgood : (∀ q, V.heap.oom q = false) → (V.builder a).bad = false → B.bad = false) :
    Inv { V with
      heap := h'
      builder := update V.builder a B
      inserted := update V.inserted a bs } := by
  obtain ⟨W', hown⟩ := W.stepApp R.area hs
  have happ : (fun b => (update V.builder a B b).area) = update V.world.app a B.area :=
    Function.comp_update IOBufBuilder.area V.builder a B
  constructor
  case world =>
    refine ⟨l', c, S', ?_⟩
    unfold BuilderWorld.world
    rw [happ]
    exact W'
  case loc =>
    intro b
    dsimp only
    by_cases hb : b = a
    · rw [hb, update_self]
      exact R.loc
    · rw [update_of_ne hb]
      have hne : (.inr b : ι ⊕ κ) ≠ .inr a := fun heq => hb (Sum.inr.inj heq)
      exact (F.loc b).shift fun p hp => hs.size p (World.held_mem_other (y := .inr b) hne hp)
  case content =>
    intro b
    dsimp only
    by_cases hb : b = a
    · rw [hb, update_self, update_self]
      exact hc
    · rw [update_of_ne hb, update_of_ne hb, ← F.content b]
      have hother := hown.content (.inr b) (by simpa using hb)
      simp only [World.content, update_of_ne hb] at hother
      exact hother
  case good =>
    intro hnever b
    have hnever' : ∀ q, V.heap.oom q = false := fun q => hs.keeps.oom ▸ hnever q
    dsimp only
    by_cases hb : b = a
    · rw [hb, update_self]
      exact hgood hnever' (F.good hnever' a)
    · rw [update_of_ne hb]
      exact F.good hnever' b

theorem Inv.shrink (F : V.Inv) (a : κ) : (V.shrink a).Inv ∧ ((V.shrink a).builder a).blk = NULL := by
  obtain ⟨l, c, S, W⟩ := F.world
  rcases heq : (V.builder a).shrink V.heap with ⟨B, h'⟩
  obtain ⟨l', S', R, hs, hnull, hbad, hc⟩ := (F.focus W a).shrink heq
  have hV : V.shrink a = { V with heap := h', builder := update V.builder a B } := by
    unfold BuilderWorld.shrink
    rw [heq]
  have F' := F.onBuilder W R hs (hc.trans (F.content a)) fun _ hgood => hbad.trans hgood
  rw [update_eq_self] at F'
  rw [hV]
  refine ⟨F', ?_⟩
  dsimp only
  rw [update_self]
  exact hnull

omit [DecidableEq ι] [DecidableEq κ] in
theorem Inv.others {bufs : ι → IOBuf} (F : V.Inv)
    (W' : WInv (BuilderWorld.world { V with heap := h', bufs := bufs }) l' c' S')
    (hsize : ∀ b, ∀ p ∈ (V.builder b).stream.held, (h'.blk p).size = (V.heap.blk p).size)
    (hcontent : ∀ b, h'.content (V.builder b).area.refs = V.heap.content (V.builder b).area.refs)
    (hoom : h'.oom = V.heap.oom) : Inv { V with heap := h', bufs := bufs } := by
  constructor
  case world => exact ⟨l', c', S', W'⟩
  case loc => exact fun b => (F.loc b).shift (hsize b)
  case content => exact fun b => (hcontent b).trans (F.content b)
  case good => exact fun hnever => F.good fun q => hoom ▸ hnever q

theorem Inv.onBufs (F : V.Inv) (op : Op ι) : (V.step (.buf op)).Inv := by
  obtain ⟨l, c, S, W⟩ := F.world
  rcases heq : op.exec V.bufs V.heap with ⟨res, bufs, h'⟩
  have hV : V.step (.buf op) = { V with heap := h', bufs := bufs } := by
    unfold BuilderWorld.step
    dsimp only
    rw [heq]
  have hworld : V.world.onBufs op = BuilderWorld.world { V with heap := h', bufs := bufs } := by
    unfold World.onBufs
    have heq' : op.exec V.world.bufs V.world.heap = (res, bufs, h') := heq
    rw [heq']
    rfl
  obtain ⟨l', c', S', W', hown⟩ := W.onBufs op
  rw [hworld] at W' hown
  rw [hV]
  apply F.others W'
  case hsize =>
    intro b p hp
    have hsize := W.onBufs_size op (y := .inr b) hp
    rw [hworld] at hsize
    exact hsize
  case hcontent => exact fun b => hown.content (.inr b) (by simp)
  case hoom => exact hown.keeps.oom

theorem Inv.appendBuf (F : V.Inv) (a : κ) (i : ι) : (V.step (.appendBuf i a)).Inv := by
  obtain ⟨F1, hnull⟩ := F.shrink a
  obtain ⟨l, c, S, W⟩ := F1.world
  set V1 := V.shrink a
  rcases heq : (V1.bufs i).appendBuf (V1.builder a).buf V1.heap with ⟨b, h'⟩
  have hV : V.step (.appendBuf i a) = { V1 with heap := h', bufs := update V1.bufs i b } := by
    unfold BuilderWorld.step
    dsimp only
    rw [heq]
  have hrefs : (V1.builder a).area.refs = (V1.builder a).buf.refs :=
    refs_eq ((F1.loc a).left_eq_zero hnull)
  have hY : ∀ r ∈ (V1.builder a).buf.refs, r ∈ V1.world.otherRefs (.inl i) := by
    intro r hr
    rw [← hrefs] at hr
    exact World.refs_mem_other (y := .inr a) Sum.inr_ne_inl hr
  have P := W.focusPortal i
  obtain ⟨R, hro, -⟩ := P.rep.appendBuf (W.app a).wf hY heq
  have hf : Frame V1.heap h' (V1.world.otherRefs (.inl i)) (c i + V1.world.otherHeld c (.inl i)) :=
    R.frame hro
  have P' := P.congr R (fun p hp => hf.size p (PRep.mem_held hp))
    (fun p hp => hf.cap p (PRep.mem_held hp))
    fun p hp => hf.next p (PRep.mem_held hp)
  have hf' : Frame V1.heap h' (V1.world.otherRefs (.inl i)) (V1.world.otherHeld c (.inl i)) :=
    hf.monoHeld fun p hp => mem_add.2 (.inr hp)
  obtain ⟨W', hown⟩ := W.stepPortal P' hf'
  have hworld : (fun j => (⟨update V1.bufs i b j, NULL⟩ : IOPortal)) =
      update V1.world.portal i ⟨b, NULL⟩ :=
    Function.comp_update (fun b => (⟨b, NULL⟩ : IOPortal)) V1.bufs i b
  rw [hV]
  apply F1.others
  case W' =>
    unfold BuilderWorld.world
    rw [hworld]
    exact W'
  case hsize => exact fun b p hp => hf'.size p (World.held_mem_other (y := .inr b) Sum.inr_ne_inl hp)
  case hcontent => exact fun b => hown.content (.inr b) (by simp)
  case hoom => exact hown.keeps.oom

/-- Exchange the buffer of builder `a` with buffer `i`. -/
def swapBuf (V : BuilderWorld ι κ) (a : κ) (i : ι) : BuilderWorld ι κ :=
  { V with
    bufs := update V.bufs i (V.builder a).buf
    builder := update V.builder a { V.builder a with buf := V.bufs i }
    inserted := update V.inserted a (V.heap.content (V.bufs i).refs) }

omit [Fintype ι] [Fintype κ] in
theorem world_swapBuf (V : BuilderWorld ι κ) (a : κ) (i : ι) : (V.swapBuf a i).world
      = V.world.swapBuf a i := by
  have hbufs : (fun j => (⟨update V.bufs i (V.builder a).buf j, NULL⟩ : IOPortal)) =
      update V.world.portal i ⟨(V.builder a).buf, NULL⟩ :=
    Function.comp_update (fun b => (⟨b, NULL⟩ : IOPortal)) V.bufs i (V.builder a).buf
  have happ : (fun b => (update V.builder a { V.builder a with buf := V.bufs i } b).area) =
      update V.world.app a (IOBufBuilder.area { V.builder a with buf := V.bufs i }) :=
    Function.comp_update IOBufBuilder.area V.builder a _
  unfold BuilderWorld.world BuilderWorld.swapBuf
  rw [hbufs, happ]
  rfl

theorem Inv.swapBuf (F : V.Inv) (hnull : (V.builder a).blk = NULL) : (V.swapBuf a i).Inv := by
  obtain ⟨l, c, S, W⟩ := F.world
  obtain ⟨W', hown⟩ := W.swapBuf (a := a) (i := i) ((F.loc a).left_eq_zero hnull)
  rw [← world_swapBuf] at W' hown
  constructor
  case world => exact ⟨l, c, S, W'⟩
  case loc =>
    intro b
    unfold BuilderWorld.swapBuf
    dsimp only
    by_cases hb : b = a
    · rw [hb, update_self]
      exact ⟨(F.loc a).null, fun hne => absurd hnull hne⟩
    · rw [update_of_ne hb]
      exact F.loc b
  case content =>
    intro b
    by_cases hb : b = a
    · unfold BuilderWorld.swapBuf
      dsimp only
      rw [hb, update_self, update_self]
      exact congrArg V.heap.content (refs_eq ((F.loc a).left_eq_zero hnull))
    · have hother := hown.content (.inr b) (by simp [hb])
      refine (hother.trans (F.content b)).trans ?_
      exact (update_of_ne hb ..).symm
  case good =>
    intro hnever b
    unfold BuilderWorld.swapBuf
    dsimp only
    by_cases hb : b = a
    · rw [hb, update_self]
      exact F.good hnever a
    · rw [update_of_ne hb]
      exact F.good hnever b

/-- `move_to` is `buf()`, clearing the target and exchanging the buffers. -/
theorem Inv.moveTo_eq (F : V.Inv) (a : κ) (i : ι) :
    V.step (.moveTo a i) = ((V.shrink a).step (.buf (.clear i))).swapBuf a i := by
  obtain ⟨l, c, S, W⟩ := F.world
  rcases hshrink : (V.builder a).shrink V.heap with ⟨B, h1⟩
  have hclear := clear_eq (h := h1) (W.portal i).wf.view
  have hclear' : (V.bufs i).clear h1 = (IOBuf.new, IOBuf.decRefs (V.bufs i).refs h1) := hclear
  simp only [BuilderWorld.step, BuilderWorld.shrink, BuilderWorld.swapBuf, IOBufBuilder.moveTo,
    IOBuf.assignMovable,
    Op.exec, hshrink, hclear', update_self, update_idem]
  rfl

theorem Inv.moveTo (F : V.Inv) (a : κ) (i : ι) : (V.step (.moveTo a i)).Inv ∧
      (V.step (.moveTo a i)).heap.content ((V.step (.moveTo a i)).bufs i).refs = V.inserted a := by
  obtain ⟨F1, hnull⟩ := F.shrink a
  have F2 := F1.onBufs (.clear i)
  rw [F.moveTo_eq]
  refine ⟨F2.swapBuf hnull, ?_⟩
  have hcontent := F2.content a
  have hrefs : (((V.shrink a).step (.buf (.clear i))).builder a).area.refs =
      (((V.shrink a).step (.buf (.clear i))).builder a).buf.refs :=
    refs_eq ((F2.loc a).left_eq_zero hnull)
  rw [hrefs] at hcontent
  unfold BuilderWorld.swapBuf
  dsimp only
  rw [update_self, hcontent]
  rfl

theorem Inv.step {act : BuilderAction ι κ} (F : V.Inv) (hact : V.NoPutArea act) : (V.step act).Inv := by
  cases act with
  | buf op => exact F.onBufs op
  | insert a s =>
    obtain ⟨l, c, S, W⟩ := F.world
    rcases heq : (V.builder a).insert s V.heap with ⟨n, B, h'⟩
    obtain ⟨l', S', R, hs, hc, hgood⟩ := (F.focus W a).insert heq
    rw [F.content a] at hc
    have F' := F.onBuilder W R hs hc fun hnever hbad => (hgood hnever hbad).2
    unfold BuilderWorld.step
    dsimp only
    rw [heq]
    exact F'
  | flush a =>
    have hV : V.step (.flush a) = V := by
      unfold BuilderWorld.step IOBufBuilder.flush
      dsimp only
      rw [update_eq_self]
    rw [hV]
    exact F
  | getBuf a => exact (F.shrink a).1
  | setBuf a i =>
    obtain ⟨l, c, S, W⟩ := F.world
    rcases heq : (V.builder a).setBuf (V.bufs i) V.heap with ⟨B, h'⟩
    have hY : ∀ r ∈ (V.bufs i).refs, r ∈ V.world.otherRefs (.inr a) :=
      fun r hr => World.refs_mem_other (y := .inl i) Sum.inl_ne_inr hr
    obtain ⟨R, hs, hbad, hc⟩ := (F.focus W a).setBuf hact (W.portal i).wf hY heq
    have F' := F.onBuilder W R hs hc fun _ hgood => hbad.trans hgood
    unfold BuilderWorld.step
    dsimp only
    rw [heq]
    exact F'
  | moveTo a i => exact (F.moveTo a i).1
  | appendBuf i a => exact F.appendBuf a i

end BuilderWorld

end Eabase.IOBuf
