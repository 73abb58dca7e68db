import Eabase.IOBuf.OpsSpec

/-!
# `IOPortal`: appending what a reader delivers

A portal is a buffer with a private chain of cached blocks, linked through
`portal_next` like the TLS chain. `append_from_reader` hands the free space
of the cached blocks to `IReader::ReadV` and then pushes references to what
was read.

The bytes behind `size` in the cached blocks are the portal's own: `avail`
is that memory in reading order, `ReadV` overwrites a prefix of it
(`avail_scatter`), and the final loop turns a prefix of it into references
(`PRep.consumeLoop`).
-/

namespace Eabase.IOBuf

open List
open Multiset (add_cons cons_add cons_coe disjoint_left mem_add mem_cons_self nodup_add nodup_cons)

def MAX_APPEND_IOVEC : ℕ := 64

structure IOPortal where
  buf : IOBuf
  block : Ptr

/-- One call of `IReader::ReadV`: from the lengths of the `iovec`s, the number
it returns and the bytes it stores. It may store more than it reports, or
less, but nothing outside of the `iovec`s, and it reports no more than their
space, as `readv` does. -/
structure Reader where
  readv : List ℕ → ℤ × List Byte
  nr_le : ∀ lens, (readv lens).1 ≤ (lens.sum : ℤ)
  fill_le : ∀ lens, (readv lens).2.length ≤ lens.sum

namespace IOPortal

/-- `IOPortal()`. -/
def new : IOPortal := ⟨IOBuf.new, NULL⟩

def returnCachedBlocks (P : IOPortal) (h : Heap) : IOPortal × Heap :=
  if P.block ≠ NULL then ({ P with block := NULL }, h.releaseTlsBlockChain P.block)
  else (P, h)

def clear (P : IOPortal) (h : Heap) : IOPortal × Heap :=
  let (b, h₁) := P.buf.clear h
  returnCachedBlocks { P with buf := b } h₁

/-- The block to prepare next: `p`, or at the end of the chain a block from TLS
that is linked behind `prev`. `head` is `_block`; all three are results. -/
def ensureBlock (prev p head : Ptr) (h : Heap) : Ptr × Ptr × Heap :=
  if p = NULL then
    let (q, h₁) := h.acquireTlsBlock
    if q = NULL then (q, head, h₁)
    else if prev ≠ NULL then (q, head, h₁.setPortalNext prev q)
    else (q, q, h₁)
  else (p, head, h)

/-- Prepare at most `MAX_APPEND_IOVEC` blocks, or blocks with space for
`maxCount` bytes. The result is `none` when a block cannot be acquired. -/
def prepareLoop : ℕ → ℕ → Ptr → Ptr → Ptr → Heap → Option (List (Ptr × ℕ)) × Ptr × Heap
  | 0, _, _, _, head, h => (some [], head, h)
  | nvec + 1, maxCount, prev, p, head, h =>
      let (p', head', h') := ensureBlock prev p head h
      if p' = NULL then (none, head', h')
      else
        let len := min (h'.blk p').leftSpace maxCount
        if maxCount ≤ len ∨ nvec = 0 then (some [(p', len)], head', h')
        else
          let (rest, head'', h'') :=
            prepareLoop nvec (maxCount - len) p' (h'.blk p').portalNext head' h'
          (rest.map ((p', len) :: ·), head'', h'')

/-- What `ReadV` stores into the `iovec`s. -/
def scatter : List (Ptr × ℕ) → List Byte → Heap → Heap
  | [], _, h => h
  | (p, len) :: vec, bs, h =>
      scatter vec (bs.drop len) (h.write p (h.blk p).size (bs.take len))

/-- `do { … } while (total_len)`. -/
def consumeLoop : ℕ → ℕ → IOPortal → Heap → IOPortal × Heap
  | 0, _, P, h => (P, h)
  | fuel + 1, totalLen, P, h =>
      let len := min totalLen (h.blk P.block).leftSpace
      let (b, h₁) := P.buf.pushOrMoveBackRef false ⟨(h.blk P.block).size, len, P.block⟩ h
      let h₂ := h₁.setSize P.block ((h₁.blk P.block).size + len)
      let (block, h₃) :=
        if (h₂.blk P.block).full then ((h₂.blk P.block).portalNext, h₂.decRef P.block)
        else (P.block, h₂)
      if totalLen - len = 0 then (⟨b, block⟩, h₃)
      else consumeLoop fuel (totalLen - len) ⟨b, block⟩ h₃

/-- `append_from_reader(IReader* reader, size_t max_count)`. -/
def appendFromReader (reader : Reader) (maxCount : ℕ) (P : IOPortal) (h : Heap) :
    ℤ × IOPortal × Heap :=
  match prepareLoop MAX_APPEND_IOVEC maxCount NULL P.block P.block h with
  | (none, block, h₁) => (-1, { P with block := block }, h₁)
  | (some vec, block, h₁) =>
      let P₁ := { P with block := block }
      let (nr, fill) := reader.readv (vec.map Prod.snd)
      let h₂ := scatter vec fill h₁
      if nr ≤ 0 then
        (nr, if P₁.buf.empty then P₁.returnCachedBlocks h₂ else (P₁, h₂))
      else (nr, consumeLoop nr.toNat nr.toNat P₁ h₂)

end IOPortal

/-! ## The portal's invariant -/

open Heap

/-- A portal next to the references `Y` and the held blocks `K` of others; its
own cached blocks `c` are linked from `block` and none of them is full. -/
structure PRep (pos : Bool) (h : Heap) (l : List Ptr) (P : IOPortal) (c : List Ptr)
    (Y : Multiset BlockRef) (K : Multiset Ptr) (S : Ptr → Option ℕ) : Prop where
  rep : Rep pos h l P.buf Y (c + K) S
  chain : Lib.Chain (fun p => (h.blk p).portalNext) NULL P.block c
  room : ∀ p ∈ c, (h.blk p).size < (h.blk p).cap
  free : ∀ p ∈ c, S p = none

section

variable {pos : Bool} {h h' : Heap} {l : List Ptr} {P P' : IOPortal} {c : List Ptr}
  {Y : Multiset BlockRef} {K : Multiset Ptr} {S : Ptr → Option ℕ} {p q : Ptr}
  {X : Multiset BlockRef} {b : IOBuf} {h1 : Heap} {maxCount : ℕ}

theorem PRep.ofRep (R : Rep pos h l b Y K S) : PRep pos h l ⟨b, NULL⟩ [] Y K S :=
  ⟨⟨R.wf, by simpa using R.inv⟩, Lib.chain_nil.2 rfl, by simp, by simp⟩

theorem PRep.mem_held (hp : p ∈ c) : p ∈ (c : Multiset Ptr) + K :=
  mem_add.2 (.inl hp)

theorem PRep.congr {l' : List Ptr} (R : PRep pos h l P c Y K S)
    (R' : Rep pos h' l' b Y (c + K) S)
    (hs : ∀ p ∈ c, (h'.blk p).size = (h.blk p).size)
    (hc : ∀ p ∈ c, (h'.blk p).cap = (h.blk p).cap)
    (hn : ∀ p ∈ c, (h'.blk p).portalNext = (h.blk p).portalNext) :
    PRep pos h' l' ⟨b, P.block⟩ c Y K S where
  rep := R'
  chain := R.chain.congr fun p hp => hn p hp
  room p hp := by
    rw [hs p hp, hc p hp]
    exact R.room p hp
  free := R.free

theorem PRep.returnCachedBlocks (R : PRep pos h l P c Y K S)
    (heq : P.returnCachedBlocks h = (P', h')) :
    (∃ l', PRep pos h' l' P' [] Y K S) ∧ Frame h h' (P.buf.refs + Y) K ∧ P'.buf = P.buf := by
  unfold IOPortal.returnCachedBlocks at heq
  split at heq
  next hne =>
    cases heq
    have hcne : c ≠ [] := fun hnil => hne (R.chain.eq_nil_iff.1 hnil)
    obtain ⟨hf, l', H'⟩ := R.rep.inv.releaseTlsBlockChain hcne R.free R.chain
    exact ⟨⟨l', .ofRep ⟨R.rep.wf, H'⟩⟩, hf, rfl⟩
  next hnull =>
    cases heq
    obtain rfl : c = [] := R.chain.eq_nil_iff.2 (not_not.1 hnull)
    exact ⟨⟨l, R⟩, .refl h _ K, rfl⟩

theorem PRep.clear (R : PRep pos h l P c Y K S) (heq : P.clear h = (P', h')) :
    (∃ l', PRep pos h' l' P' [] Y K S) ∧ Frame h h' Y K ∧ P'.buf = IOBuf.new := by
  unfold IOPortal.clear at heq
  rcases hclear : P.buf.clear h with ⟨b, h1⟩
  simp only [hclear] at heq
  obtain ⟨R1, hf1, rfl⟩ := R.rep.clear hclear
  have hframe := R1.frame hf1
  have R2 : PRep pos h1 l ⟨.new, P.block⟩ c Y K S :=
    R.congr R1 (fun p hp => hframe.size p (PRep.mem_held hp))
      (fun p hp => hframe.cap p (PRep.mem_held hp)) fun p hp => hframe.next p (PRep.mem_held hp)
  obtain ⟨R3, hf3, hbuf⟩ := R2.returnCachedBlocks heq
  refine ⟨R3, ?_, hbuf⟩
  exact (hframe.monoHeld fun p hp => mem_add.2 (.inr hp)).trans
    (hf3.mono fun r hr => mem_add.2 (.inr hr))

theorem HeapInv.setHeldNext (H : HeapInv h l X K S) (hp : p ∉ l) :
    HeapInv (h.setPortalNext p q) l X K S where
  chain := H.chain.congr fun x hx => by
    rw [setPortalNext_next, if_neg fun heq : x = p => hp (heq ▸ hx)]
  num := H.num
  nodup := H.nodup
  count x := by
    rw [setPortalNext_nshared]
    exact H.count x
  brk := H.brk
  live x hx := by
    rw [setPortalNext_nshared] at hx
    rw [setPortalNext_size, setPortalNext_cap]
    exact H.live x hx
  bound x hx := by
    rw [lim, setPortalNext_size]
    exact H.bound x hx
  held x d hd := by
    rw [setPortalNext_size]
    exact H.held x d hd

/-! ## Preparing the blocks -/

/-- `iovec`s over the free space of the blocks in `c`: all of it, except in the
last block. -/
def Fits (h : Heap) : List (Ptr × ℕ) → List Ptr → Prop
  | [], _ => True
  | (_, _) :: _, [] => False
  | (p, n) :: vec, q :: c =>
      p = q ∧ ((vec = [] ∧ n ≤ (h.blk p).leftSpace) ∨ (n = (h.blk p).leftSpace ∧ Fits h vec c))

theorem Fits.congr {h h' : Heap} (hs : ∀ p, (h'.blk p).size = (h.blk p).size ∧
    (h'.blk p).cap = (h.blk p).cap) : ∀ {vec : List (Ptr × ℕ)} {c : List Ptr},
    Fits h vec c → Fits h' vec c
  | [], _, _ => trivial
  | _ :: _, [], hf => absurd hf (by simp [Fits])
  | (p, n) :: vec, q :: c, ⟨hp, hf⟩ => by
    have hleft : (h'.blk p).leftSpace = (h.blk p).leftSpace := by
      simp only [Block.leftSpace, (hs p).1, (hs p).2]
    refine ⟨hp, hf.imp (fun hv => ⟨hv.1, ?_⟩) fun hv => ⟨?_, .congr hs hv.2⟩⟩
    · rw [hleft]
      exact hv.2
    · rw [hleft]
      exact hv.1

/-- What preparing does not change in blocks that were there before. -/
def SameSpace (h h' : Heap) (c : List Ptr) : Prop :=
  ∀ p ∈ c, (h'.blk p).size = (h.blk p).size ∧ (h'.blk p).cap = (h.blk p).cap

/-- Acquiring at the end of the chain, `d` being the blocks already prepared. -/
theorem PRep.ensureBlock {d : List Ptr} {prev head p' head' : Ptr}
    (R : PRep pos h l ⟨b, head⟩ (d ++ c) Y K S) (hp : Lib.Chain (fun p => (h.blk p).portalNext)
      NULL p c) (hprev : prev = d.getLast?.getD NULL)
    (heq : IOPortal.ensureBlock prev p head h = (p', head', h')) :
    Frame h h' (b.refs + Y) K ∧ SameSpace h h' d ∧
      ((p' = NULL ∧ (∃ q, h.oom q = true) ∧ ∃ l', PRep pos h' l' ⟨b, head'⟩ (d ++ c) Y K S) ∨
        (p' ≠ NULL ∧ ∃ l' c', PRep pos h' l' ⟨b, head'⟩ (d ++ p' :: c') Y K S ∧
          Lib.Chain (fun p => (h'.blk p).portalNext) NULL (h'.blk p').portalNext c')) := by
  unfold IOPortal.ensureBlock at heq
  split at heq
  next hnull =>
    obtain rfl : c = [] := hp.eq_nil_iff.2 hnull
    rw [append_nil] at R ⊢
    rcases hacq : h.acquireTlsBlock with ⟨q, h1⟩
    simp only [hacq] at heq
    obtain ⟨hf, hcase⟩ := R.rep.inv.acquireTlsBlock hacq
    have hsame : SameSpace h h1 d := fun x hx =>
      ⟨hf.size x (PRep.mem_held hx), hf.cap x (PRep.mem_held hx)⟩
    have hnext : ∀ x ∈ d, (h1.blk x).portalNext = (h.blk x).portalNext := fun x hx =>
      hf.next x (PRep.mem_held hx)
    have hfK : Frame h h1 (b.refs + Y) K := hf.monoHeld fun x hx => mem_add.2 (.inr hx)
    rcases hcase with ⟨rfl, hoom, -, l', -, H'⟩ | ⟨hq, hSq, ⟨-, l', H', -⟩, hroom, hqn⟩
    · rw [if_pos rfl] at heq
      cases heq
      exact ⟨hfK, hsame, .inl ⟨rfl, hoom, l', R.congr ⟨R.rep.wf, H'⟩ (fun x hx => (hsame x hx).1)
        (fun x hx => (hsame x hx).2) hnext⟩⟩
    · rw [if_neg hq] at heq
      have hnd := H'.nodup
      have hqd : q ∉ d := fun hm => by
        have hnd' := (nodup_add.1 hnd).2.1
        exact (nodup_cons.1 hnd').1 (PRep.mem_held hm)
      have hK' : q ::ₘ ((d : Multiset Ptr) + K) = ((d ++ [q] : List Ptr) : Multiset Ptr) + K := by
        rw [← Multiset.coe_add, Multiset.coe_singleton, add_assoc, Multiset.singleton_add,
          add_cons]
      rw [hK'] at H'
      have hroom' : ∀ x ∈ d ++ [q], (h1.blk x).size < (h1.blk x).cap := fun x hx => by
        rcases mem_append.1 hx with hx | hx
        · rw [(hsame x hx).1, (hsame x hx).2]
          exact R.room x hx
        · rw [mem_singleton.1 hx]
          exact hroom
      have hfree' : ∀ x ∈ d ++ [q], S x = none := fun x hx => by
        rcases mem_append.1 hx with hx | hx
        · exact R.free x hx
        · rw [mem_singleton.1 hx]
          exact hSq
      rcases eq_nil_or_concat' d with rfl | ⟨init, last, rfl⟩
      · -- The first block of the chain.
        rw [if_neg (by simp [hprev])] at heq
        cases heq
        refine ⟨hfK, hsame, .inr ⟨hq, l', [], ⟨⟨R.rep.wf, H'⟩, ?_, hroom', hfree'⟩, ?_⟩⟩
        · exact Lib.chain_cons.2 ⟨rfl, hq, Lib.chain_nil.2 hqn⟩
        · exact Lib.chain_nil.2 hqn
      · -- Link it behind the last block.
        have hlast : prev = last := by simp [hprev]
        subst hlast
        have hpne : prev ≠ NULL := R.chain.ne_null (by simp)
        rw [if_pos hpne] at heq
        simp only [Prod.mk.injEq] at heq
        obtain ⟨rfl, rfl, rfl⟩ := heq
        have hprevd : prev ∈ init ++ [prev] := by simp
        have hpl : prev ∉ l' := fun hm => by
          refine H'.not_held_of_tls hm (mem_add.2 (.inl ?_))
          simp
        have hqprev : q ≠ prev := fun heq => hqd (heq ▸ hprevd)
        have hKd := (nodup_add.1 (nodup_add.1 R.rep.inv.nodup).2.1).2.2
        have hprevK : ∀ x ∈ K, x ≠ prev := fun x hx heq =>
          disjoint_left.1 hKd (heq ▸ hprevd) hx
        have hfl : Frame h1 (h1.setPortalNext prev q) (b.refs + Y) K :=
          Frame.of_links rfl rfl (fun x => setPortalNext_nshared h1 prev x q)
            (fun x => setPortalNext_size h1 prev x q)
            (fun x => setPortalNext_cap h1 prev x q)
            (fun x => setPortalNext_data h1 prev x q) fun x hx => by
              rw [setPortalNext_next, if_neg (hprevK x hx)]
        refine ⟨hfK.trans hfl, fun x hx => ?_, .inr ⟨hq, l', [],
          ⟨⟨R.rep.wf, H'.setHeldNext hpl⟩, ?_, fun x hx => ?_, hfree'⟩, ?_⟩⟩
        · rw [setPortalNext_size, setPortalNext_cap]
          exact hsame x hx
        · have hinit : prev ∉ init := fun hm => by
            have hnd := R.chain.nodup
            exact (nodup_append.1 hnd).2.2 prev hm prev (by simp) rfl
          obtain ⟨m, hs, hm⟩ := Lib.seg_append.1 R.chain.1
          obtain rfl : m = prev := (Lib.seg_cons.1 hm).1
          refine ⟨Lib.seg_append.2 ⟨q, Lib.seg_append.2 ⟨m, ?_, ?_⟩, ?_⟩, ?_⟩
          · refine hs.congr fun x hx => ?_
            rw [setPortalNext_next, if_neg fun heq : x = m => hinit (heq ▸ hx)]
            exact hnext x (mem_append_left _ hx)
          · refine Lib.seg_cons.2 ⟨rfl, ?_⟩
            rw [setPortalNext_next, if_pos rfl]
            exact Lib.seg_nil.2 rfl
          · refine Lib.seg_cons.2 ⟨rfl, ?_⟩
            rw [setPortalNext_next, if_neg hqprev, hqn]
            exact Lib.seg_nil.2 rfl
          · rw [mem_append, not_or]
            exact ⟨R.chain.2, by simpa using hq.symm⟩
        · rw [setPortalNext_size, setPortalNext_cap]
          exact hroom' x hx
        · rw [setPortalNext_next, if_neg hqprev, hqn]
          exact Lib.chain_nil.2 rfl
  next hne =>
    cases heq
    cases c with
    | nil => exact absurd (Lib.chain_nil.1 hp) hne
    | cons x c =>
      obtain ⟨rfl, -, hc⟩ := Lib.chain_cons.1 hp
      exact ⟨.refl h _ K, fun _ _ => ⟨rfl, rfl⟩, .inr ⟨hne, l, c, R, hc⟩⟩

/-- The prepared `iovec`s cover free space of the cached blocks in their order. -/
theorem PRep.prepareLoop : ∀ {nvec maxCount : ℕ} {d c : List Ptr}
    {prev p head : Ptr} {h : Heap} {l : List Ptr}, PRep pos h l ⟨b, head⟩ (d ++ c) Y K S →
    Lib.Chain (fun p => (h.blk p).portalNext) NULL p c → prev = d.getLast?.getD NULL →
    ∀ {res : Option (List (Ptr × ℕ))} {head' : Ptr} {h' : Heap},
      IOPortal.prepareLoop nvec maxCount prev p head h = (res, head', h') →
      ∃ l' c', PRep pos h' l' ⟨b, head'⟩ (d ++ c') Y K S ∧ Frame h h' (b.refs + Y) K ∧
        SameSpace h h' d ∧ (res = none → ∃ q, h.oom q = true) ∧
        ∀ vec, res = some vec → Fits h' vec c' ∧ (vec.map Prod.snd).sum ≤ maxCount ∧
          (0 < nvec → 0 < maxCount → 0 < (vec.map Prod.snd).sum)
  | 0, maxCount, d, c, prev, p, head, h, l, R, _, _, res, head', h', heq => by
    obtain ⟨rfl, rfl, rfl⟩ := heq
    refine ⟨l, c, R, Frame.refl h _ K, fun _ _ => ⟨rfl, rfl⟩, by simp, fun vec hvec => ?_⟩
    obtain rfl : [] = vec := by simpa using hvec
    exact ⟨trivial, by simp, by simp⟩
  | nvec + 1, maxCount, d, c, prev, p, head, h, l, R, hp, hprev, res, head', h', heq => by
    obtain ⟨p1, head1, h1, hens⟩ : ∃ p1 head1 h1,
      IOPortal.ensureBlock prev p head h = (p1, head1, h1) := ⟨_, _, _, rfl⟩
    simp only [IOPortal.prepareLoop, hens] at heq
    obtain ⟨hf1, hsame1, hcase⟩ := R.ensureBlock hp hprev hens
    rcases hcase with ⟨rfl, hoom, l', R'⟩ | ⟨hp1, l1, c1, R1, hc1⟩
    · rw [if_pos rfl] at heq
      obtain ⟨rfl, rfl, rfl⟩ := heq
      exact ⟨l', c, R', hf1, hsame1, fun _ => hoom, by simp⟩
    rw [if_neg hp1] at heq
    obtain ⟨len, hlen⟩ : ∃ len, len = min (h1.blk p1).leftSpace maxCount := ⟨_, rfl⟩
    have hroom := R1.room p1 (by simp)
    have hspace : (h1.blk p1).leftSpace = (h1.blk p1).cap - (h1.blk p1).size := rfl
    rw [← hlen] at heq
    split at heq
    · obtain ⟨rfl, rfl, rfl⟩ := heq
      refine ⟨l1, p1 :: c1, R1, hf1, hsame1, by simp, fun vec hvec => ?_⟩
      obtain rfl : [(p1, len)] = vec := by simpa using hvec
      exact ⟨⟨rfl, Or.inl ⟨rfl, by omega⟩⟩, by simp; omega, fun _ _ => by simp; omega⟩
    · rename_i hgo
      rw [not_or] at hgo
      obtain ⟨rest, head2, h2, hrest⟩ : ∃ rest head2 h2, IOPortal.prepareLoop nvec
        (maxCount - len) p1 (h1.blk p1).portalNext head1 h1 = (rest, head2, h2) :=
        ⟨_, _, _, rfl⟩
      simp only [hrest, Prod.mk.injEq] at heq
      obtain ⟨rfl, rfl, rfl⟩ := heq
      have hlist : d ++ p1 :: c1 = (d ++ [p1]) ++ c1 := by simp
      rw [hlist] at R1
      obtain ⟨l2, c2, R2, hf2, hsame2, hnone, hsome⟩ := PRep.prepareLoop R1 hc1 (by simp) hrest
      have hp₁same := hsame2 p1 (by simp)
      refine ⟨l2, p1 :: c2, by simpa using R2, hf1.trans hf2, fun x hx => ?_, fun hn => ?_,
        fun vec hvec => ?_⟩
      · have hx2 := hsame2 x (mem_append_left _ hx)
        exact ⟨hx2.1.trans (hsame1 x hx).1, hx2.2.trans (hsame1 x hx).2⟩
      · rw [← hf1.oom]
        exact hnone (by simpa using hn)
      · obtain ⟨v, hv, rfl⟩ := Option.map_eq_some_iff.1 hvec
        obtain ⟨hfits, hsum, -⟩ := hsome v hv
        refine ⟨⟨rfl, .inr ⟨?_, hfits⟩⟩, by simp; lia, fun _ _ => by simp; lia⟩
        show len = (h2.blk p1).cap - (h2.blk p1).size
        rw [hp₁same.1, hp₁same.2]
        lia

/-! ## What the reader stores -/

/-- The memory behind `size` in the blocks of `c`. -/
def avail (h : Heap) (c : List Ptr) : List Byte :=
  c.flatMap fun p => h.read p (h.blk p).size (h.blk p).leftSpace

@[simp] theorem avail_nil (h : Heap) : avail h [] = [] := rfl

@[simp] theorem avail_cons (h : Heap) (p : Ptr) (c : List Ptr) :
    avail h (p :: c) = h.read p (h.blk p).size (h.blk p).leftSpace ++ avail h c := by
  simp [avail]

theorem avail_congr (hs : SameSpace h h' c) (hd : ∀ p ∈ c, (h'.blk p).data = (h.blk p).data) :
    avail h' c = avail h c := by
  induction c with
  | nil => rfl
  | cons p c ih =>
    have hp := hs p mem_cons_self
    rw [avail_cons, avail_cons, ih (fun q hq => hs q (mem_cons_of_mem _ hq))
      fun q hq => hd q (mem_cons_of_mem _ hq)]
    congr 1
    simp only [Block.leftSpace, hp.1, hp.2]
    exact read_congr fun i _ _ => by rw [hd p mem_cons_self]

section Write

variable (h : Heap) (p q : Ptr) (off : ℕ) (bs : List Byte)

theorem Heap.write_blk_of_ne (hq : q ≠ p) : (h.write p off bs).blk q = h.blk q := by
  rw [write, setBlk_blk, if_neg hq]

theorem Heap.write_blk : (h.write p off bs).blk q =
    { h.blk q with data := ((h.write p off bs).blk q).data } := by
  obtain rfl | hq := eq_or_ne q p
  · simp [write, setBlk_blk]
  · rw [write_blk_of_ne h p q off bs hq]

@[simp] theorem Heap.write_nshared : ((h.write p off bs).blk q).nshared = (h.blk q).nshared := by
  rw [write_blk]

@[simp] theorem Heap.write_size : ((h.write p off bs).blk q).size = (h.blk q).size := by
  rw [write_blk]

@[simp] theorem Heap.write_cap : ((h.write p off bs).blk q).cap = (h.blk q).cap := by
  rw [write_blk]

@[simp] theorem Heap.write_next :
    ((h.write p off bs).blk q).portalNext = (h.blk q).portalNext := by
  rw [write_blk]

theorem Heap.write_data_below {i : ℕ} (hi : q = p → i < off) :
    ((h.write p off bs).blk q).data i = (h.blk q).data i := by
  obtain rfl | hq := eq_or_ne q p
  · simp [write, setBlk_blk, hi rfl]
  · rw [write_blk_of_ne h p q off bs hq]

theorem Heap.read_write {n : ℕ} (hn : bs.length ≤ n) :
    (h.write p off bs).read p off n = bs ++ (h.read p off n).drop bs.length := by
  apply ext_getElem
  · simp
    lia
  · intro i h1 h2
    by_cases hi : i < bs.length
    · simp [read, write, setBlk_blk, hi]
    · rw [getElem_append_right (by lia)]
      have hge : bs.length + (i - bs.length) = i := by lia
      simp [read, write, setBlk_blk, hge, getElem?_eq_none (Nat.not_lt.1 hi)]

end Write

theorem HeapInv.write {bs : List Byte} {off : ℕ}
    (H : HeapInv h l X K S) : HeapInv (h.write p off bs) l X K S where
  chain := H.chain.congr fun x _ => by rw [write_next]
  num := H.num
  nodup := H.nodup
  count x := by
    rw [write_nshared]
    exact H.count x
  brk := H.brk
  live x hx := by
    rw [write_nshared] at hx
    rw [write_size, write_cap]
    exact H.live x hx
  bound x hx := by
    rw [lim, write_size]
    exact H.bound x hx
  held x d hd := by
    rw [write_size]
    exact H.held x d hd

theorem Frame.write {bs : List Byte} (H : HeapInv h l X K S)
    {K' : Multiset Ptr} (hS : S p = none) (hK' : p ∉ K') :
    Frame h (h.write p (h.blk p).size bs) X K' where
  bytes r hr := by
    refine read_congr fun i _ hi => write_data_below h p r.block _ bs fun heq => ?_
    have := H.bound r hr
    rw [lim, heq, hS, Option.getD_none] at this
    exact lt_of_lt_of_le hi this
  size x _ := write_size h p x _ bs
  cap x _ := write_cap h p x _ bs
  next x _ := write_next h p x _ bs
  data x hx := by rw [write_blk_of_ne h p x _ bs fun heq : x = p => hK' (heq ▸ hx)]
  grows := ⟨le_refl _, rfl, fun x _ hl => by rwa [write_nshared] at hl,
    fun x _ _ => by rw [write_size],
    fun x _ _ i hi => write_data_below h p x _ bs fun heq => heq ▸ hi⟩

/-- `ReadV` overwrites a prefix of the available memory and nothing else. -/
theorem PRep.scatter : ∀ {vec : List (Ptr × ℕ)} {fill : List Byte}
    {c : List Ptr} {K : Multiset Ptr} {h : Heap}, HeapInv h l X (c + K) S → (∀ p ∈ c, S p = none) →
    Fits h vec c → fill.length ≤ (vec.map Prod.snd).sum →
    HeapInv (IOPortal.scatter vec fill h) l X (c + K) S ∧
      Frame h (IOPortal.scatter vec fill h) X K ∧
      (∀ p, ((IOPortal.scatter vec fill h).blk p).size = (h.blk p).size) ∧
      (∀ p, ((IOPortal.scatter vec fill h).blk p).cap = (h.blk p).cap) ∧
      (∀ p, ((IOPortal.scatter vec fill h).blk p).portalNext = (h.blk p).portalNext) ∧
      (∀ p ∉ c, ((IOPortal.scatter vec fill h).blk p).data = (h.blk p).data) ∧
      avail (IOPortal.scatter vec fill h) c = fill ++ (avail h c).drop fill.length
  | [], fill, c, K, h, H, _, _, hfill => by
    obtain rfl : fill = [] := length_eq_zero_iff.mp (by simpa using hfill)
    exact ⟨H, Frame.refl h _ K, fun _ => rfl, fun _ => rfl, fun _ => rfl, fun _ _ => rfl,
      by simp [IOPortal.scatter]⟩
  | (p, n) :: vec, fill, [], _, h, _, _, hfits, _ => absurd hfits (by simp [Fits])
  | (p, n) :: vec, fill, q :: c, K, h, H, hS, hfits, hfill => by
    obtain ⟨rfl, hfits⟩ := hfits
    have hcK := (nodup_add.mp H.nodup).2.1
    have hpc : p ∉ c := by
      have := Multiset.coe_nodup.1 (nodup_add.1 hcK).1
      exact (nodup_cons.1 this).1
    have hpK : p ∉ K := fun hm =>
      disjoint_left.1 (nodup_add.1 hcK).2.2 (by simp) hm
    obtain ⟨h1, hh1⟩ : ∃ h1, h1 = h.write p (h.blk p).size (fill.take n) := ⟨_, rfl⟩
    have H1 : HeapInv h1 l X (c + (p ::ₘ K)) S := by
      rw [hh1]
      rw [← cons_coe, cons_add, ← add_cons] at H
      exact H.write
    have hf1 : Frame h h1 X K := by
      rw [hh1]
      exact Frame.write H (hS p mem_cons_self) hpK
    have hblk : ∀ x, (h1.blk x).size = (h.blk x).size ∧ (h1.blk x).cap = (h.blk x).cap ∧
        (h1.blk x).portalNext = (h.blk x).portalNext := fun x => by
      rw [hh1]
      simp
    have hdata : ∀ x ≠ p, (h1.blk x).data = (h.blk x).data := fun x hx => by
      rw [hh1, write_blk_of_ne _ _ _ _ _ hx]
    have hfits1 : Fits h1 vec c := by
      rcases hfits with ⟨rfl, -⟩ | ⟨-, hfits⟩
      · trivial
      · exact hfits.congr fun x => ⟨(hblk x).1, (hblk x).2.1⟩
    have hfill1 : (fill.drop n).length ≤ (vec.map Prod.snd).sum := by
      simp at hfill ⊢
      lia
    obtain ⟨H2, hf2, hs2, hc2, hn2, hd2, hav2⟩ := PRep.scatter H1
      (fun x hx => hS x (mem_cons_of_mem _ hx)) hfits1 hfill1
    have hdef : IOPortal.scatter ((p, n) :: vec) fill h =
        IOPortal.scatter vec (fill.drop n) h1 := by rw [hh1]; rfl
    rw [hdef]
    refine ⟨?_, hf1.trans (hf2.monoHeld fun x hx => Multiset.mem_cons_of_mem hx),
      fun x => (hs2 x).trans (hblk x).1, fun x => (hc2 x).trans (hblk x).2.1,
      fun x => (hn2 x).trans (hblk x).2.2, fun x hx => ?_, ?_⟩
    · rw [← cons_coe, cons_add, ← add_cons]
      exact H2
    · rw [mem_cons, not_or] at hx
      rw [hd2 x hx.2, hdata x hx.1]
    · have hleft : (fill.take n).length ≤ (h.blk p).leftSpace := by
        rcases hfits with ⟨-, hle⟩ | ⟨hle, -⟩ <;> simp <;> lia
      have hreadp : (IOPortal.scatter vec (fill.drop n) h1).read p (h.blk p).size
          (h.blk p).leftSpace = fill.take n ++
            (h.read p (h.blk p).size (h.blk p).leftSpace).drop (fill.take n).length := by
        rw [← read_write h p _ _ hleft, ← hh1]
        exact read_congr fun i _ _ => by rw [hd2 p hpc]
      have havc : avail h1 c = avail h c := avail_congr (fun x _ => ⟨(hblk x).1, (hblk x).2.1⟩)
        fun x hx => hdata x fun heq => hpc (heq ▸ hx)
      rw [avail_cons, avail_cons, hav2, havc, hs2 p, (hblk p).1]
      have hls : ((IOPortal.scatter vec (fill.drop n) h1).blk p).leftSpace =
          (h.blk p).leftSpace := by
        simp only [Block.leftSpace, hs2 p, hc2 p, (hblk p).1, (hblk p).2.1]
      rw [hls, hreadp]
      rcases lt_or_ge n fill.length with hlt | hle
      · -- More than this block holds: the block is filled up.
        have hn : n = (h.blk p).leftSpace := by
          rcases hfits with ⟨rfl, -⟩ | ⟨hn, -⟩
          · simp at hfill
            lia
          · exact hn
        obtain ⟨mem, hmem⟩ : ∃ mem, mem = h.read p (h.blk p).size (h.blk p).leftSpace := ⟨_, rfl⟩
        have hmlen : mem.length = n := by rw [hmem, read_length, hn]
        have hdrop : (mem ++ avail h c).drop fill.length = (avail h c).drop (fill.length - n) := by
          rw [drop_append, drop_eq_nil_of_le (by lia), nil_append, hmlen]
        rw [← hmem, length_take, min_eq_left hlt.le, drop_eq_nil_of_le hmlen.le,
          append_nil, hdrop, ← append_assoc, take_append_drop, length_drop]
      · rw [take_of_length_le hle] at hleft ⊢
        rw [drop_eq_nil_of_le hle, length_nil, nil_append, drop_zero,
          append_assoc, drop_append_of_le_length (by simpa using hleft)]

/-! ## Turning what was read into references -/

theorem Heap.extend_read (h : Heap) (p : Ptr) (n : ℕ) :
    h.write p (h.blk p).size (h.read p (h.blk p).size n) = h := by
  have hdata : ∀ i, (if i < (h.blk p).size then (h.blk p).data i else
      ((h.read p (h.blk p).size n)[i - (h.blk p).size]?).getD ((h.blk p).data i)) =
      (h.blk p).data i := fun i => by
    split
    · rfl
    next hi =>
      by_cases hn : i - (h.blk p).size < n
      · have hi' : (h.blk p).size + (i - (h.blk p).size) = i := by lia
        simp [read, hn, hi']
      · rw [getElem?_eq_none (by simpa using hn), Option.getD_none]
  rw [write]
  simp only [hdata]
  simp [setBlk]

/-- One round: the next piece of available memory becomes a reference, and a
block that is full now leaves the chain. -/
theorem PRep.consumeOne {b' : IOBuf} {len : ℕ}
    (R : PRep pos h l ⟨b, p⟩ (p :: c) Y K S) (hlen : 0 < len)
    (hroom : len ≤ (h.blk p).leftSpace)
    (heq : b.pushOrMoveBackRef false ⟨(h.blk p).size, len, p⟩ h = (b', h1)) :
    let h2 := h1.setSize p ((h1.blk p).size + len)
    Rep pos h2 l b' Y (p ::ₘ (c + K)) S ∧ Frame h h2 Y (c + K) ∧
      (h2.blk p).portalNext = (h.blk p).portalNext ∧
      (h2.blk p).size = (h.blk p).size + len ∧ (h2.blk p).cap = (h.blk p).cap ∧
      h2.content b'.refs = h.content b.refs ++ h.read p (h.blk p).size len := by
  intro h2
  have hp : p ≠ NULL := R.chain.ne_null mem_cons_self
  have hK : ((p :: c : List Ptr) : Multiset Ptr) + K = p ::ₘ (c + K) := by
    rw [← cons_coe, cons_add]
  have R0 : Rep pos h l b Y (p ::ₘ (c + K)) S := hK ▸ R.rep
  have hnd := (nodup_cons.1 (nodup_add.1 R0.inv.nodup).2.1).1
  have hspace : (h.blk p).leftSpace = (h.blk p).cap - (h.blk p).size := rfl
  have hfull := R.room p mem_cons_self
  obtain ⟨bs, hbs⟩ : ∃ bs, bs = h.read p (h.blk p).size len := ⟨_, rfl⟩
  have hbslen : bs.length = len := by rw [hbs, read_length]
  have hwrite : h.write p (h.blk p).size bs = h := by rw [hbs]; exact h.extend_read p len
  have hpush := push_setSize (h := h) R0.wf hp bs
  simp only [hwrite, hbslen, heq] at hpush
  rw [← hbslen] at hpush
  have hlive : 0 < (h.blk p).nshared := R0.inv.pos_of_held (mem_cons_self _ _)
  have hothers : ∀ q ∈ (c : Multiset Ptr) + K, q ∈ p ::ₘ (c + K) ∧ q ≠ p := fun q hq =>
    ⟨Multiset.mem_cons_of_mem hq, fun heq => hnd (heq ▸ hq)⟩
  obtain ⟨R1, hf, hframe, hc⟩ := R0.extendPush (R.free p mem_cons_self) hlive
    (by lia) (fun _ => by lia) hothers hpush
  rw [hbslen] at R1 hf hframe hc
  have hlive2 : 0 < (h2.blk p).nshared := R1.inv.pos_of_held (mem_cons_self _ _)
  refine ⟨R1, hframe, ?_, ?_, ?_, by rw [hc, hbs]⟩
  · rw [hf.next p hlive2, extend_next]
  · rw [hf.size p hlive2, extend_size, if_pos rfl, hbslen]
  · rw [hf.cap p hlive2, extend_cap]

/-- A block that is full leaves the chain; the rest of it stays as it was before the round. -/
theorem PRep.leave {b1 : IOBuf} {h2 : Heap} (R : PRep pos h l ⟨b, p⟩ (p :: c) Y K S)
    (R2 : Rep pos h2 l b1 Y (p ::ₘ (c + K)) S) (hf2 : Frame h h2 Y (c + K)) :
    PRep pos (h2.decRef p) l ⟨b1, (h.blk p).portalNext⟩ c Y K S ∧
      Frame h2 (h2.decRef p) (b1.refs + Y) (c + K) ∧ avail (h2.decRef p) c = avail h c := by
  have hchain := (Lib.chain_cons.1 R.chain).2.2
  have hcK : ∀ x ∈ c, x ∈ (c : Multiset Ptr) + K := fun x hx => PRep.mem_held hx
  have H3 : HeapInv (h2.decRef p) l (b1.refs + Y) (c + K) S :=
    R2.inv.dropHeld (R.free p mem_cons_self)
  have hframe3 := Frame.of_refOnly (Heap.RefOnly.decRef h2 p) H3
  refine ⟨⟨⟨R2.wf, H3⟩, hchain.congr fun x hx => ?_, fun x hx => ?_,
    fun x hx => R.free x (mem_cons_of_mem _ hx)⟩, hframe3, ?_⟩
  · rw [hframe3.next x (hcK x hx), hf2.next x (hcK x hx)]
  · rw [hframe3.size x (hcK x hx), hframe3.cap x (hcK x hx), hf2.size x (hcK x hx),
      hf2.cap x (hcK x hx)]
    exact R.room x (mem_cons_of_mem _ hx)
  · apply avail_congr
    · exact fun x hx => ⟨(hframe3.size x (hcK x hx)).trans (hf2.size x (hcK x hx)),
        (hframe3.cap x (hcK x hx)).trans (hf2.cap x (hcK x hx))⟩
    · exact fun x hx => (hframe3.data x (hcK x hx)).trans (hf2.data x (hcK x hx))

/-- The loop turns the first `total` available bytes into content. -/
theorem PRep.consumeLoop : ∀ {fuel total : ℕ} {P : IOPortal} {c : List Ptr} {h : Heap},
    PRep pos h l P c Y K S → 0 < total → total ≤ fuel → total ≤ (avail h c).length →
    ∀ {P' : IOPortal} {h' : Heap}, P.consumeLoop fuel total h = (P', h') →
      ∃ c', PRep pos h' l P' c' Y K S ∧ Frame h h' Y K ∧
        h'.content P'.buf.refs = h.content P.buf.refs ++ (avail h c).take total
  | 0, total, P, c, h, R, hpos, hfuel, _, P', h', heq => by omega
  | fuel + 1, total, P, [], h, R, hpos, hfuel, hav, P', h', heq => by simp at hav; omega
  | fuel + 1, total, ⟨b, q⟩, p :: c, h, R, hpos, hfuel, hav, P', h', heq => by
    obtain rfl : q = p := (Lib.chain_cons.mp R.chain).1
    have hchain := (Lib.chain_cons.mp R.chain).2.2
    have hspace : (h.blk q).leftSpace = (h.blk q).cap - (h.blk q).size := rfl
    have hroom := R.room q mem_cons_self
    obtain ⟨len, hlen⟩ : ∃ len, len = min total (h.blk q).leftSpace := ⟨_, rfl⟩
    obtain ⟨b1, h1, hpush⟩ : ∃ b1 h1,
      b.pushOrMoveBackRef false ⟨(h.blk q).size, len, q⟩ h = (b1, h1) := ⟨_, _, rfl⟩
    obtain ⟨R2, hf2, hnext, hsize, hcap, hc2⟩ := R.consumeOne (by omega) (by omega) hpush
    obtain ⟨h2, hh2⟩ : ∃ h2, h2 = h1.setSize q ((h1.blk q).size + len) := ⟨_, rfl⟩
    rw [← hh2] at R2 hf2 hnext hsize hcap hc2
    unfold IOPortal.consumeLoop at heq
    simp only [← hlen, hpush, ← hh2] at heq
    have hcK : ∀ x ∈ c, x ∈ (c : Multiset Ptr) + K := fun x hx => PRep.mem_held hx
    have hfK : Frame h h2 Y K := hf2.monoHeld fun x hx => mem_add.mpr (Or.inr hx)
    have htake : ∀ n, n ≤ (h.blk q).leftSpace → (avail h (q :: c)).take n =
        h.read q (h.blk q).size n := fun n hn => by
      rw [avail_cons, take_append_of_le_length (by simpa using hn), read_take hn]
    by_cases hfull : len = (h.blk q).leftSpace
    · -- The block is full: it leaves the chain, and the loop goes on in the next one.
      have hfull2 : (h2.blk q).full = true := by
        simp only [Block.full, hsize, hcap, decide_eq_true_eq]
        lia
      rw [if_pos hfull2] at heq
      simp only [hnext] at heq
      obtain ⟨R3, hframe3, hav3⟩ := R.leave R2 hf2
      have hframe : Frame h (h2.decRef q) Y K := hfK.trans
        ((hframe3.mono fun r hr => mem_add.2 (.inr hr)).monoHeld
          fun x hx => mem_add.2 (.inr hx))
      have hc3 : (h2.decRef q).content b1.refs = h.content b.refs ++
          h.read q (h.blk q).size len := by
        rw [hframe3.content fun r hr => Rep.mem_left hr, hc2]
      split at heq
      · cases heq
        refine ⟨c, R3, hframe, ?_⟩
        rw [hc3, ← htake len (by lia), show total = len by lia]
      next hmore =>
        rw [avail_cons, length_append, read_length] at hav
        obtain ⟨c', R', hf', hc'⟩ := PRep.consumeLoop R3 (by lia) (by lia)
          (by rw [hav3]; lia) heq
        refine ⟨c', R', hframe.trans hf', ?_⟩
        have hmem : (h.read q (h.blk q).size len).take total = h.read q (h.blk q).size len :=
          take_of_length_le (by rw [read_length]; lia)
        rw [hc', hc3, hav3, avail_cons, take_append, read_length, ← hfull, hmem, append_assoc]
    · -- There is room left, so everything has been consumed.
      have hnfull : (h2.blk q).full = false := by
        simp only [Block.full, hsize, hcap, decide_eq_false_iff_not]
        lia
      have hdone : total - len = 0 := by lia
      simp only [hnfull, Bool.false_eq_true, if_false, hdone, if_true] at heq
      cases heq
      refine ⟨q :: c, ⟨⟨R2.wf, ?_⟩, ?_, fun x hx => ?_, R.free⟩, hfK, ?_⟩
      · rw [← cons_coe, cons_add]
        exact R2.inv
      · refine Lib.chain_cons.2 ⟨rfl, R.chain.ne_null mem_cons_self, ?_⟩
        rw [hnext]
        exact hchain.congr fun x hx => hf2.next x (hcK x hx)
      · rcases mem_cons.1 hx with rfl | hx
        · rw [hsize, hcap]
          lia
        · rw [hf2.size x (hcK x hx), hf2.cap x (hcK x hx)]
          exact R.room x (mem_cons_of_mem _ hx)
      · rw [hc2, htake total (by lia), show total = len by lia]

theorem Fits.sum_le {h : Heap} : ∀ {vec : List (Ptr × ℕ)} {c : List Ptr}, Fits h vec c →
    (vec.map Prod.snd).sum ≤ (avail h c).length
  | [], _, _ => by simp
  | _ :: _, [], hf => absurd hf (by simp [Fits])
  | (p, n) :: vec, q :: c, ⟨hp, hf⟩ => by
    subst hp
    rw [avail_cons, length_append, read_length]
    rcases hf with ⟨rfl, hle⟩ | ⟨rfl, hf⟩
    · simp
      lia
    · have := hf.sum_le
      simp
      lia

/-- Blocks are prepared and the reader has filled them: the chain holds the bytes it stored in
front. -/
theorem PRep.fill (reader : Reader) {vec : List (Ptr × ℕ)} {block : Ptr}
    (R : PRep pos h l P c Y K S)
    (hprep : IOPortal.prepareLoop MAX_APPEND_IOVEC maxCount NULL P.block P.block h
      = (some vec, block, h1)) :
    let lens := vec.map Prod.snd
    let h2 := IOPortal.scatter vec (reader.readv lens).2 h1
    ∃ l1 c1 rest, PRep pos h2 l1 ⟨P.buf, block⟩ c1 Y K S ∧ Frame h h2 Y K ∧
      h2.content P.buf.refs = h.content P.buf.refs ∧ avail h2 c1 = (reader.readv lens).2 ++ rest ∧
      (reader.readv lens).1 ≤ (avail h2 c1).length ∧ lens.sum ≤ maxCount ∧
        (0 < maxCount → 0 < lens.sum) := by
  intro lens h2
  obtain ⟨l1, c1, R1, hf1, -, -, hsome⟩ := PRep.prepareLoop (d := []) (b := P.buf) R R.chain
    rfl hprep
  rw [nil_append] at R1
  obtain ⟨hfits, hsum, hpos⟩ := hsome vec rfl
  have hfill := reader.fill_le lens
  have havle := hfits.sum_le
  obtain ⟨H2, hf2, hs2, hcap2, hn2, -, hav2⟩ := PRep.scatter R1.rep.inv R1.free hfits hfill
  have hlen : (avail h2 c1).length = (avail h1 c1).length := by
    have hle : lens.sum ≤ (avail h1 c1).length := havle
    rw [hav2, length_append, length_drop]
    lia
  refine ⟨l1, c1, _, ?_, ?_, ?_, hav2, ?_, hsum, hpos (by decide)⟩
  · exact R1.congr ⟨R1.rep.wf, H2⟩ (fun p _ => hs2 p) (fun p _ => hcap2 p) fun p _ => hn2 p
  · exact (hf1.mono fun r hr => mem_add.2 (.inr hr)).trans
      (hf2.mono fun r hr => mem_add.2 (.inr hr))
  · rw [hf2.content fun r hr => Rep.mem_left hr]
    exact hf1.content fun r hr => Rep.mem_left hr
  · rw [hlen]
    exact (reader.nr_le lens).trans (Int.ofNat_le.2 havle)

/-- **`append_from_reader`** appends the bytes the reader stored, as many as it
reported, and nobody else notices. -/
theorem PRep.appendFromReader {reader : Reader} {nr : ℤ} (R : PRep pos h l P c Y K S)
    (heq : P.appendFromReader reader maxCount h = (nr, P', h')) :
    (∃ l' c', PRep pos h' l' P' c' Y K S) ∧ Frame h h' Y K ∧
      ((nr = -1 ∧ (∃ q, h.oom q = true) ∧ h'.content P'.buf.refs = h.content P.buf.refs) ∨
        ∃ lens rest, lens.sum ≤ maxCount ∧ (0 < maxCount → 0 < lens.sum) ∧
          nr = (reader.readv lens).1 ∧
          h'.content P'.buf.refs =
            h.content P.buf.refs ++ ((reader.readv lens).2 ++ rest).take nr.toNat) := by
  unfold IOPortal.appendFromReader at heq
  rcases hprep : IOPortal.prepareLoop MAX_APPEND_IOVEC maxCount NULL P.block P.block
    h with ⟨res, block, h1⟩
  cases res with
  | none =>
    obtain ⟨l1, c1, R1, hf1, -, hnone, -⟩ := PRep.prepareLoop (d := []) (b := P.buf) R R.chain
      rfl hprep
    rw [nil_append] at R1
    simp only [hprep] at heq
    cases heq
    refine ⟨⟨l1, c1, R1⟩, hf1.mono fun r hr => mem_add.2 (.inr hr),
      .inl ⟨rfl, hnone rfl, ?_⟩⟩
    exact hf1.content fun r hr => Rep.mem_left hr
  | some vec =>
    obtain ⟨l1, c1, rest, R2, hfY, hc2, hav2, hn, hsum, hpos⟩ := R.fill reader hprep
    obtain ⟨lens, hlens⟩ : ∃ lens, lens = vec.map Prod.snd := ⟨_, rfl⟩
    rcases hread : reader.readv lens with ⟨n, fill⟩
    simp only [hprep, ← hlens, hread] at heq
    rw [← hlens, hread] at R2 hfY hc2 hav2 hn
    rw [← hlens] at hsum hpos
    obtain ⟨h2, hh2⟩ : ∃ h2, h2 = IOPortal.scatter vec fill h1 := ⟨_, rfl⟩
    rw [← hh2] at heq R2 hfY hc2 hav2 hn
    split at heq
    · -- Nothing was read.
      rename_i hle
      have hz : n.toNat = 0 := Int.toNat_eq_zero.2 hle
      rw [Prod.mk.injEq] at heq
      obtain ⟨rfl, heq⟩ := heq
      split at heq
      · obtain ⟨⟨l', R'⟩, hf', hbuf⟩ := R2.returnCachedBlocks heq
        refine ⟨⟨l', [], R'⟩, hfY.trans (hf'.mono fun r hr => mem_add.2 (.inr hr)),
          .inr ⟨lens, [], hsum, hpos, by rw [hread], ?_⟩⟩
        rw [hbuf, hz, take_zero, append_nil, hf'.content fun r hr => Rep.mem_left hr, hc2]
      · cases heq
        refine ⟨⟨l1, c1, R2⟩, hfY, .inr ⟨lens, [], hsum, hpos, by rw [hread], ?_⟩⟩
        rw [hz, take_zero, append_nil, hc2]
    next hgt =>
      rw [Prod.mk.injEq] at heq
      obtain ⟨rfl, heq⟩ := heq
      obtain ⟨c', R', hf', hc'⟩ := PRep.consumeLoop R2 (by lia) le_rfl
        (by simp only at hn; lia) heq
      refine ⟨⟨l1, c', R'⟩, hfY.trans hf', .inr ⟨lens, rest, hsum, hpos, by rw [hread], ?_⟩⟩
      rw [hc', hc2, hav2, hread]

end

end Eabase.IOBuf
