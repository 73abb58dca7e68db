import Eabase.IOBuf.Sharing

/-!
# `Next` and `BackUp` over whole runs

A stream that takes its blocks from TLS fills an `IOBuf` of its own. `BackUp`
may go back further than the last region: it then adopts the block of the
last reference again. That is safe if the block is not in the TLS chain; if
it is, `release_tls_block` puts it in a second time and the chain becomes
cyclic (`backUp_twice_cyclic`). A partial `BackUp` leaves the block of the
last reference in the chain, so two in a row run into this unless the chain
already has `MAX_BLOCKS_PER_THREAD` blocks.

`run_backUp` is the result for runs that avoid it.
-/

namespace Eabase.IOBuf

open List
open Multiset (cons_swap mem_cons mem_cons_of_mem)

structure StreamState where
  s : OutputStream
  b : IOBuf
  h : Heap

inductive Call : Type where
  /-- `Next`, after which the caller fills the region from `w`. -/
  | next (w : ℕ → Byte)
  | backUp (count : ℕ)

namespace StreamState

/-- What the caller stores into a region of `n` bytes. -/
def fill (w : ℕ → Byte) (n : ℕ) : List Byte := (List.range n).map w

def call (σ : StreamState) : Call → StreamState
  | .next w =>
      match σ.s.next σ.b σ.h with
      | (some (p, off, n), s, b, h) => ⟨s, b, h.write p off (fill w n)⟩
      | (none, s, b, h) => ⟨s, b, h⟩
  | .backUp count =>
      let (s, b, h) := σ.s.backUp count σ.b σ.h
      ⟨s, b, h⟩

def produce (σ : StreamState) (str : List Byte) : Call → List Byte
  | .next w =>
      match (σ.s.next σ.b σ.h).1 with
      | some (_, _, n) => str ++ fill w n
      | none => str
  | .backUp count => str.take (str.length - count)

def run : List Call → StreamState → List Byte → StreamState × List Byte
  | [], σ, str => (σ, str)
  | c :: cs, σ, str => run cs (σ.call c) (σ.produce str c)

end StreamState

def Heap.chainFrom (h : Heap) : ℕ → Ptr → List Ptr
  | 0, _ => []
  | fuel + 1, p => if p = NULL then [] else p :: h.chainFrom fuel (h.blk p).portalNext

def Heap.tlsChain (h : Heap) : List Ptr := h.chainFrom h.brk h.blockHead

/-- The call stays within `ByteCount()`. -/
def Call.Within (σ : StreamState) : Call → Prop
  | .next _ => True
  | .backUp count => (count : ℤ) ≤ σ.s.byteCount

/-- `BackUp` does not adopt a block that is still in the TLS chain (and would be
put there again). -/
def Call.NoReadopt (σ : StreamState) : Call → Prop
  | .next _ => True
  | .backUp _ => σ.s.curBlock = NULL → σ.b.empty = false →
      σ.b.backRef.block ∈ σ.h.tlsChain → MAX_BLOCKS_PER_THREAD ≤ σ.h.numBlocks

def RunMeets (P : StreamState → Call → Prop) : List Call → StreamState → Prop
  | [], _ => True
  | c :: cs, σ => P σ c ∧ RunMeets P cs (σ.call c)

/-! ## Nothing is written while blocks change hands -/

open Heap

structure Heap.Still (h h' : Heap) : Prop where
  brk : h.brk ≤ h'.brk
  old : ∀ p < h.brk, 0 < (h'.blk p).nshared → 0 < (h.blk p).nshared
  size : ∀ p < h.brk, 0 < (h'.blk p).nshared → (h'.blk p).size = (h.blk p).size
  cap : ∀ p < h.brk, 0 < (h'.blk p).nshared → (h'.blk p).cap = (h.blk p).cap

namespace Heap.Still

variable {h h' h'' : Heap}

theorem trans (h₁ : h.Still h') (h2 : h'.Still h'') : h.Still h'' where
  brk := h₁.brk.trans h2.brk
  old p hp hl := h₁.old p hp (h2.old p (lt_of_lt_of_le hp h₁.brk) hl)
  size p hp hl := by
    have hp' := lt_of_lt_of_le hp h₁.brk
    rw [h2.size p hp' hl, h₁.size p hp (h2.old p hp' hl)]
  cap p hp hl := by
    have hp' := lt_of_lt_of_le hp h₁.brk
    rw [h2.cap p hp' hl, h₁.cap p hp (h2.old p hp' hl)]

theorem of_eq (hbrk : h.brk ≤ h'.brk) (hn : ∀ p, (h'.blk p).nshared = (h.blk p).nshared)
    (hs : ∀ p, (h'.blk p).size = (h.blk p).size) (hc : ∀ p, (h'.blk p).cap = (h.blk p).cap) :
    h.Still h' :=
  ⟨hbrk, fun p _ hl => hn p ▸ hl, fun p _ _ => hs p, fun p _ _ => hc p⟩

theorem of_blk (hbrk : h.brk ≤ h'.brk) (hblk : h'.blk = h.blk) : h.Still h' :=
  of_eq hbrk (fun p => by rw [hblk]) (fun p => by rw [hblk]) fun p => by rw [hblk]

theorem of_refOnly (hf : Heap.RefOnly h h') : h.Still h' :=
  ⟨hf.brk.ge, fun p _ hl => hf.live p hl, fun p _ hl => hf.size p hl, fun p _ hl => hf.cap p hl⟩

theorem setPortalNext (h : Heap) (p q : Ptr) : h.Still (h.setPortalNext p q) :=
  of_eq le_rfl (fun x => setPortalNext_nshared h p x q)
    (fun x => setPortalNext_size h p x q) fun x => setPortalNext_cap h p x q

theorem createBlock (n : ℕ) (h : Heap) : h.Still (h.createBlock n).2 := by
  unfold Heap.createBlock
  split
  · exact of_blk le_rfl rfl
  split
  · exact of_blk (Nat.le_succ _) rfl
  · have hblk : ∀ p < h.brk, (h.newBlock (blockCap n)).blk p = h.blk p := fun p hp => by
      rw [newBlock, setBlk_blk, if_neg (ne_of_lt hp)]
    exact ⟨Nat.le_succ _, fun p hp hl => by rwa [hblk p hp] at hl, fun p hp _ => by rw [hblk p hp],
      fun p hp _ => by rw [hblk p hp]⟩

theorem dropFull : ∀ (fuel : ℕ) (h : Heap), h.Still (dropFull fuel h)
  | 0, h => of_blk le_rfl rfl
  | fuel + 1, h => by
    unfold Heap.dropFull
    split
    · have hdec := of_refOnly (.decRef h h.blockHead)
      refine hdec.trans (trans ?_ (dropFull fuel _))
      exact of_blk le_rfl rfl
    · exact of_blk le_rfl rfl

theorem acquireTlsBlock (h : Heap) : h.Still h.acquireTlsBlock.2 := by
  unfold Heap.acquireTlsBlock
  obtain ⟨h₁, hh1⟩ : ∃ h₁, h₁ = if h.blockHead = NULL then h else Heap.dropFull h.brk h := ⟨_, rfl⟩
  have hs : h.Still h₁ := by
    rw [hh1]
    split
    · exact of_blk le_rfl rfl
    · exact dropFull _ _
  simp only [← hh1]
  split
  · exact hs.trans (createBlock _ _)
  · refine hs.trans (trans ?_ (setPortalNext _ _ _))
    exact of_blk le_rfl rfl

theorem releaseTlsBlock (b : Ptr) (h : Heap) : h.Still (h.releaseTlsBlock b) := by
  unfold Heap.releaseTlsBlock
  split
  · exact of_blk le_rfl rfl
  split
  · exact of_refOnly (.decRef h b)
  split
  · exact of_refOnly (.decRef h b)
  · exact (setPortalNext h b h.blockHead).trans (of_blk le_rfl rfl)

end Heap.Still

/-! ## A block that has been adopted again -/

section Adopted

variable {h h' : Heap} {l : List Ptr} {X Y : Multiset BlockRef} {K : Multiset Ptr}
  {S : Ptr → Option ℕ} {p : Ptr} {r r' : BlockRef} {n : ℕ}

/-- The stream has a reference to the block `p` of its own: it is the holder of
`p`, or `p` is in the chain and the chain is full. -/
def Adopted (h : Heap) (l : List Ptr) (X : Multiset BlockRef) (K : Multiset Ptr)
    (S : Ptr → Option ℕ) (p : Ptr) : Prop :=
  (p ∉ l ∧ HeapInv h l X (p ::ₘ K) S) ∨
    (p ∈ l ∧ MAX_BLOCKS_PER_THREAD ≤ h.numBlocks ∧ HeapInv h l (⟨0, 0, p⟩ ::ₘ X) K S)

theorem Adopted.ofHeld (H : HeapInv h l X (p ::ₘ K) S) : Adopted h l X K S p := by
  refine .inl ⟨fun hm => ?_, H⟩
  exact H.not_held_of_tls hm (Multiset.mem_cons_self p K)

theorem Adopted.incRef (H : HeapInv h l X K S) (hlive : 0 < (h.blk p).nshared) (hK : p ∉ K)
    (hl : p ∈ l → MAX_BLOCKS_PER_THREAD ≤ h.numBlocks) : Adopted (h.incRef p) l X K S p := by
  have H' : HeapInv (h.incRef p) l (⟨0, 0, p⟩ ::ₘ X) K S :=
    H.incRef (r := ⟨0, 0, p⟩) hlive (Nat.zero_le _)
  by_cases hpl : p ∈ l
  · exact .inr ⟨hpl, hl hpl, H'⟩
  · refine .inl ⟨hpl, H'.chain, H'.num, ?_, fun q => ?_, H'.brk, H'.live,
      fun x hx => H'.bound x (mem_cons_of_mem hx), fun q d hd => ?_⟩
    · rw [Multiset.add_cons, Multiset.nodup_cons]
      refine ⟨fun hm => ?_, H.nodup⟩
      rcases Multiset.mem_add.1 hm with hm | hm
      · exact hpl hm
      · exact hK hm
    · rw [H'.count q]
      simp only [owners, Multiset.map_cons, Multiset.add_cons, Multiset.cons_add]
    · obtain ⟨hq, hle⟩ := H'.held q d hd
      exact ⟨mem_cons_of_mem hq, hle⟩

theorem Adopted.replace (H : Adopted h l (r ::ₘ X) K S p) (hblock : r'.block = r.block)
    (hb : r'.stop ≤ h.lim S r.block) : Adopted h l (r' ::ₘ X) K S p := by
  rcases H with ⟨hl, H⟩ | ⟨hl, hn, H⟩
  · exact .inl ⟨hl, H.replace hblock hb⟩
  · rw [cons_swap] at H
    have H' := H.replace hblock hb
    rw [cons_swap] at H'
    exact .inr ⟨hl, hn, H'⟩

theorem Adopted.setSize (H : Adopted h l X K S p) (hS : S p = none)
    (hn : n ≤ (h.blk p).size) (hX : ∀ r ∈ X, r.block = p → r.stop ≤ n) :
    Adopted (h.setSize p n) l X K S p := by
  have hid : Function.update S p none = S := by
    rw [← hS]
    exact Function.update_eq_self p S
  rcases H with ⟨hl, H⟩ | ⟨hl, hnum, H⟩
  · have H' := H.setSize hn hX
    rw [hid] at H'
    exact .inl ⟨hl, H'⟩
  · have H' := H.setSize (p := p) hn fun r hr hb => by
      rcases mem_cons.1 hr with rfl | hr
      · exact Nat.zero_le _
      · exact hX r hr hb
    rw [hid] at H'
    exact .inr ⟨hl, hnum, H'⟩

theorem Adopted.decRef (H : Adopted h l (r ::ₘ X) K S p) :
    Adopted (h.decRef r.block) l X K S p := by
  rcases H with ⟨hl, H⟩ | ⟨hl, hn, H⟩
  · exact .inl ⟨hl, H.decRef⟩
  · rw [cons_swap] at H
    refine .inr ⟨hl, ?_, H.decRef⟩
    rw [(Heap.RefOnly.decRef h r.block).numBlocks]
    exact hn

theorem Adopted.pos (H : Adopted h l X K S p) : 0 < (h.blk p).nshared := by
  rcases H with ⟨-, H⟩ | ⟨hl, -, H⟩
  · exact H.pos_of_held (Multiset.mem_cons_self p K)
  · exact H.pos_of_tls hl

theorem Adopted.pos_of_ref (H : Adopted h l X K S p) (hr : r ∈ X) :
    0 < (h.blk r.block).nshared := by
  rcases H with ⟨-, H⟩ | ⟨-, -, H⟩
  · exact H.pos_of_ref hr
  · exact H.pos_of_ref (mem_cons_of_mem hr)

/-- `release_tls_block`: the block goes to the chain at most once. -/
theorem Adopted.release (H : Adopted h l X K S p) (hS : S p = none) :
    Frame h (h.releaseTlsBlock p) X K ∧ ∃ l', HeapInv (h.releaseTlsBlock p) l' X K S ∧
      (l' = l ∨ (l' = p :: l ∧ p ∉ l ∧ (h.blk p).full = false)) := by
  rcases H with ⟨hl, H⟩ | ⟨hl, hn, H⟩
  · obtain ⟨hf, l', H', hl'⟩ := H.releaseTlsBlock hS
    exact ⟨hf, l', H', hl'.imp_right fun h => ⟨h.1, hl, h.2⟩⟩
  · have hp : p ≠ NULL := H.chain.ne_null hl
    have hrel : h.releaseTlsBlock p = h.decRef p := by
      rw [releaseTlsBlock, if_neg hp, if_pos hn]
      split <;> rfl
    have H' : HeapInv (h.decRef p) l X K S := H.decRef
    rw [hrel]
    exact ⟨.of_refOnly (.decRef h p) H', l, H', .inl rfl⟩

end Adopted

/-! ## The invariant of the stream -/

open StreamState

open OutputStream

/-- The stream's buffer holds `str`. Its references lie in different blocks, each
up to the block's `size` and behind everybody else's; a block of the buffer
that is in the TLS chain is that of the last reference and the head. -/
structure SInv (s : OutputStream) (b : IOBuf) (h : Heap) (str : List Byte) (l : List Ptr)
    (Y : Multiset BlockRef) (K : Multiset Ptr) (S : Ptr → Option ℕ) : Prop where
  tls : s.blockSize = 0
  wf : b.WF true
  inv : HeapInv h l (b.refs + Y) (s.held + K) S
  distinct : (b.refs.map BlockRef.block).Nodup
  ends : ∀ r ∈ b.refs, r.stop = (h.blk r.block).size
  own : ∀ r ∈ b.refs, r.block ∉ K ∧ S r.block = none ∧
    ∀ y ∈ Y, y.block = r.block → y.stop ≤ r.offset
  cur : s.curBlock ≠ NULL → (h.blk s.curBlock).full = true ∧
    ∃ rs r, b.refs = rs ++ [r] ∧ r.block = s.curBlock
  last : ∀ r ∈ b.refs, r.block ∈ l →
    l.head? = some r.block ∧ (h.blk r.block).full = false ∧ ∃ rs, b.refs = rs ++ [r]
  content : h.content b.refs = str
  count : s.byteCount = str.length

section Stream

variable {s s' : OutputStream} {b b' : IOBuf} {h h' : Heap} {str : List Byte} {l : List Ptr}
  {Y : Multiset BlockRef} {K : Multiset Ptr} {S : Ptr → Option ℕ} {rs : List BlockRef}
  {r : BlockRef} {n : ℕ} {h₁ : Heap} {h2 : Heap}

theorem SInv.ne_last (R : SInv s b h str l Y K S) (hrefs : b.refs = rs ++ [r]) {x : BlockRef}
    (hx : x ∈ rs) : x.block ≠ r.block ∧ x.block ∉ l := by
  have hne : x.block ≠ r.block := by
    have hnd := R.distinct
    rw [hrefs, map_append, nodup_append] at hnd
    exact hnd.2.2 _ (mem_map_of_mem hx) _ (by simp)
  refine ⟨hne, fun hl => ?_⟩
  obtain ⟨-, -, rs', hrs'⟩ := R.last x (by rw [hrefs]; exact mem_append_left _ hx) hl
  rw [hrefs] at hrs'
  exact hne (congrArg BlockRef.block (append_inj_right' hrs' rfl |> singleton_inj.1)).symm

/-- `BackUp` finds the block of the last reference or adopts it again. -/
theorem SInv.adopt (R : SInv s b h str l Y K S) (hrefs : b.refs = rs ++ [r])
    (hok : s.curBlock = NULL → r.block ∈ l → MAX_BLOCKS_PER_THREAD ≤ h.numBlocks) :
    ∃ s1 h₁, s.adopt r h = .own s1 h₁ ∧ s1.curBlock = r.block ∧ s1.blockSize = 0 ∧
      s1.byteCount = s.byteCount ∧ Adopted h₁ l (b.refs + Y) K S r.block ∧
      Heap.RefOnly h h₁ := by
  have hr : r ∈ b.refs := by rw [hrefs]; simp
  have hend := R.ends r hr
  by_cases hcur : s.curBlock = NULL
  · have H := R.inv
    rw [held, if_pos hcur, zero_add] at H
    have hlive : 0 < (h.blk r.block).nshared := H.pos_of_ref (Rep.mem_left hr)
    refine ⟨{ s with curBlock := r.block }, h.incRef r.block, ?_, rfl, R.tls, rfl,
      Adopted.incRef H hlive (R.own r hr).1 (hok hcur), .incRef hlive⟩
    unfold OutputStream.adopt
    rw [if_neg (not_not.2 hcur)]
    split <;> rw [if_neg (not_not.2 hend)]
  · obtain ⟨-, rs', r', hrefs', hblk⟩ := R.cur hcur
    obtain rfl : r' = r := by
      rw [hrefs] at hrefs'
      exact (singleton_inj.1 (append_inj_right' hrefs' rfl)).symm
    have H := R.inv
    rw [held, if_neg hcur, Multiset.singleton_add, ← hblk] at H
    refine ⟨s, h, ?_, hblk.symm, R.tls, rfl, .ofHeld H, .refl h⟩
    unfold adopt
    rw [if_pos hcur, if_neg (not_not.2 hblk), if_neg (by rw [← hblk]; exact not_not.2 hend)]

theorem Heap.Still.setSize_release {h3 : Heap} {p q : Ptr} (hf : Heap.RefOnly h h₁)
    (hs : (h₁.setSize p n).Still h2) (hr : h2.Still h3) (hq : q < h.brk) (hqp : q ≠ p)
    (hlive : 0 < (h3.blk q).nshared) :
    (h3.blk q).size = (h.blk q).size ∧ (h3.blk q).cap = (h.blk q).cap := by
  have hq1 : q < (h₁.setSize p n).brk := by
    show q < h₁.brk
    rw [hf.brk]
    exact hq
  have hs3 := hs.trans hr
  have hl1 : 0 < (h₁.blk q).nshared := by
    have := hs3.old q hq1 hlive
    rwa [setSize_nshared] at this
  rw [hs3.size q hq1 hlive, hs3.cap q hq1 hlive, setSize_size, if_neg hqp,
    setSize_cap, hf.size q hl1, hf.cap q hl1]
  exact ⟨rfl, rfl⟩

section

variable (s1 : OutputStream) (R : SInv s b h str l Y K S) (hrefs : b.refs = rs ++ [r])
    (hA : Adopted h₁ l (b.refs + Y) K S r.block) (hf : Heap.RefOnly h h₁)
include s1 R hrefs hA hf

theorem SInv.keepPart (hn : n < r.length) (hbs : s1.blockSize = 0)
    (hcount : s1.byteCount = s.byteCount - n) (hcur : s1.curBlock = NULL)
    (hb' : b' = (b.setBackRef { r with length := r.length - n }).subNbytes n)
    (hh' : h' = (h₁.setSize r.block ((h₁.blk r.block).size - n)).releaseTlsBlock r.block) :
    ∃ l', SInv s1 b' h' (str.take (str.length - n)) l' Y K S := by
  have hr : r ∈ b.refs := by rw [hrefs]; simp
  obtain ⟨hrK, hrS, hrY⟩ := R.own r hr
  have hend : r.offset + r.length = (h.blk r.block).size := R.ends r hr
  have hsize1 : (h₁.blk r.block).size = (h.blk r.block).size := hf.size _ hA.pos
  obtain ⟨r', hr'⟩ : ∃ r' : BlockRef, r' = { r with length := r.length - n } := ⟨_, rfl⟩
  have hblk : r'.block = r.block := by rw [hr']
  have hoff : r'.offset = r.offset := by rw [hr']
  have hlen : r'.length = r.length - n := by rw [hr']
  obtain ⟨hrefs', hwf'⟩ := trimBack_spec r' (n := n) R.wf hrefs
    (by rw [hblk]; exact (R.wf.ref r hr).1) (by lia) (by lia)
  have hb'' : b' = (b.setBackRef r').subNbytes n := by rw [hb', hr']
  rw [← hb''] at hrefs' hwf'
  -- The reference is cut, `size` follows, and the block goes back.
  have hX : ((b.refs : List BlockRef) : Multiset BlockRef) + Y = r ::ₘ (rs + Y) := by
    rw [hrefs, coe_concat_add]
  rw [hX] at hA
  have hlim : h₁.lim S r.block = (h.blk r.block).size := by
    rw [lim, hrS, Option.getD_none, hsize1]
  have hA1 : Adopted h₁ l (r' ::ₘ (rs + Y)) K S r.block := by
    refine hA.replace hblk ?_
    rw [hlim]
    show r'.offset + r'.length ≤ _
    lia
  have hA2 : Adopted (h₁.setSize r.block ((h₁.blk r.block).size - n)) l (r' ::ₘ (rs + Y)) K S
      r.block := by
    refine hA1.setSize hrS (Nat.sub_le _ _) fun x hx hb => ?_
    rw [hsize1]
    rcases mem_cons.1 hx with rfl | hx
    · show x.offset + x.length ≤ _
      lia
    rcases Multiset.mem_add.1 hx with hx | hx
    · exact absurd hb (R.ne_last hrefs hx).1
    · have := hrY x hx hb
      lia
  obtain ⟨hframe, l', H', hl'⟩ := hA2.release hrS
  rw [← hh'] at hframe H'
  have hstill : (h₁.setSize r.block ((h₁.blk r.block).size - n)).Still h' :=
    hh' ▸ Heap.Still.releaseTlsBlock _ _
  have hX' : ((b'.refs : List BlockRef) : Multiset BlockRef) + Y = r' ::ₘ (rs + Y) := by
    rw [hrefs', coe_concat_add]
  have hpos' : 0 < (h'.blk r.block).nshared := by
    rw [← hblk]
    exact H'.pos_of_ref (Multiset.mem_cons_self _ _)
  have hbrk : ∀ x ∈ b.refs, x.block < h.brk := fun x hx =>
    (R.inv.live _ (R.inv.pos_of_ref (Rep.mem_left hx))).2.1
  have hsize' : (h'.blk r.block).size = (h.blk r.block).size - n ∧
      (h'.blk r.block).cap = (h.blk r.block).cap := by
    have hp : r.block < (h₁.setSize r.block ((h₁.blk r.block).size - n)).brk := by
      show r.block < h₁.brk
      rw [hf.brk]
      exact hbrk r hr
    rw [hstill.size _ hp hpos', hstill.cap _ hp hpos', setSize_size, if_pos rfl, hsize1,
      setSize_cap, hf.cap _ hA.pos]
    exact ⟨rfl, rfl⟩
  have hother : ∀ x ∈ rs, (h'.blk x.block).size = (h.blk x.block).size := fun x hx => by
    have hxl : 0 < (h'.blk x.block).nshared := H'.pos_of_ref
      (mem_cons_of_mem (Multiset.mem_add.2 (.inl hx)))
    refine (Heap.Still.setSize_release hf hstill (Heap.Still.of_blk le_rfl rfl)
      (hbrk x (by rw [hrefs]; exact mem_append_left _ hx)) (R.ne_last hrefs hx).1 hxl).1
  refine ⟨l', hbs, hwf', ?_, ?_, fun x hx => ?_, fun x hx => ?_, fun hne => absurd hcur hne,
    fun x hx hxl => ?_, ?_, ?_⟩
  · rw [held, if_pos hcur, zero_add, hX']
    exact H'
  · have hnd := R.distinct
    rw [hrefs, map_append] at hnd
    rw [hrefs', map_append]
    simpa [hblk] using hnd
  · rw [hrefs', mem_append, mem_singleton] at hx
    rcases hx with hx | rfl
    · rw [hother x hx]
      exact R.ends x (by rw [hrefs]; exact mem_append_left _ hx)
    · rw [hblk, hsize'.1]
      show x.offset + x.length = _
      lia
  · rw [hrefs', mem_append, mem_singleton] at hx
    rcases hx with hx | rfl
    · exact R.own x (by rw [hrefs]; exact mem_append_left _ hx)
    · rw [hblk, hoff]
      exact R.own r hr
  · rw [hrefs', mem_append, mem_singleton] at hx
    rcases hx with hx | rfl
    · obtain ⟨hne, hnl⟩ := R.ne_last hrefs hx
      rcases hl' with rfl | ⟨rfl, -, -⟩
      · exact absurd hxl hnl
      · rcases mem_cons.1 hxl with hxl | hxl
        · exact absurd hxl hne
        · exact absurd hxl hnl
    · rw [hblk] at hxl ⊢
      rcases hl' with rfl | ⟨rfl, -, hnf⟩
      · obtain ⟨hhead, hfull, -⟩ := R.last r hr hxl
        refine ⟨hhead, ?_, rs, hrefs'⟩
        simp only [Block.full, hsize'.1, hsize'.2, decide_eq_false_iff_not] at hfull ⊢
        lia
      · refine ⟨rfl, ?_, rs, hrefs'⟩
        simp only [Block.full, setSize_size, if_true, hsize1, setSize_cap,
          hf.cap _ hA.pos, decide_eq_false_iff_not] at hnf
        simp only [Block.full, hsize'.1, hsize'.2, decide_eq_false_iff_not]
        exact hnf
  · have hc : h'.content b'.refs = h.content b'.refs := by
      refine content_congr fun x hx => ?_
      have hxm : x ∈ r' ::ₘ ((rs : Multiset BlockRef) + Y) := hX' ▸ Multiset.mem_add.2 (.inl hx)
      rw [hframe.bytes x hxm, setSize_bytes]
      exact hf.bytes (hA1.pos_of_ref hxm)
    have R0 : Rep true h l b Y (s.held + K) S := ⟨R.wf, R.inv⟩
    obtain ⟨-, htrim, hctrim⟩ := R0.trimBack hrefs hn
    rw [hc, hrefs', hr', hctrim, R.content]
  · rw [hcount, R.count, length_take]
    have hle : n ≤ str.length := by
      rw [← R.content, content_length, hrefs, sumLen_append, sumLen_cons]
      lia
    push_cast
    lia

/-- The end of a round that takes the whole last reference off. The blocks of the
references left are not in the chain. -/
theorem SInv.dropWhole (hbs : s1.blockSize = 0)
    (hcount : s1.byteCount = s.byteCount - r.length) (hcur : s1.curBlock = NULL)
    (hpop : b.popBackRef (h₁.setSize r.block ((h₁.blk r.block).size - r.length)) = (b', h2))
    (hh' : h' = h2.releaseTlsBlock r.block) :
    ∃ l', SInv s1 b' h' (str.take (str.length - r.length)) l' Y K S ∧ b'.refs = rs ∧
      ∀ x ∈ rs, x.block ∉ l' := by
  have hr : r ∈ b.refs := by rw [hrefs]; simp
  obtain ⟨hrK, hrS, hrY⟩ := R.own r hr
  have hend : r.offset + r.length = (h.blk r.block).size := R.ends r hr
  have hsize1 : (h₁.blk r.block).size = (h.blk r.block).size := hf.size _ hA.pos
  obtain ⟨hrefs', hh2, hwf'⟩ := popBackRef_spec
    (h := h₁.setSize r.block ((h₁.blk r.block).size - r.length)) R.wf hrefs
  rw [hpop] at hrefs' hh2 hwf'
  simp only at hrefs' hh2 hwf'
  -- The reference is emptied first, so that `size` may come down.
  have hX : ((b.refs : List BlockRef) : Multiset BlockRef) + Y = r ::ₘ (rs + Y) := by
    rw [hrefs, coe_concat_add]
  rw [hX] at hA
  have hA1 : Adopted h₁ l (⟨r.offset, 0, r.block⟩ ::ₘ (rs + Y)) K S r.block := by
    refine hA.replace rfl ?_
    show r.offset + 0 ≤ _
    rw [lim, hrS, Option.getD_none, hsize1]
    lia
  have hA2 : Adopted (h₁.setSize r.block ((h₁.blk r.block).size - r.length)) l
      (⟨r.offset, 0, r.block⟩ ::ₘ (rs + Y)) K S r.block := by
    refine hA1.setSize hrS (Nat.sub_le _ _) fun x hx hb => ?_
    rw [hsize1]
    rcases mem_cons.1 hx with rfl | hx
    · show r.offset + 0 ≤ _
      lia
    rcases Multiset.mem_add.1 hx with hx | hx
    · exact absurd hb (R.ne_last hrefs hx).1
    · have := hrY x hx hb
      lia
  have hA3 : Adopted h2 l (rs + Y) K S r.block := hh2 ▸ hA2.decRef
  obtain ⟨hframe, l', H', hl'⟩ := hA3.release hrS
  rw [← hh'] at hframe H'
  have hdec : Heap.RefOnly (h₁.setSize r.block ((h₁.blk r.block).size - r.length)) h2 :=
    hh2 ▸ Heap.RefOnly.decRef _ _
  have hmem : ∀ x ∈ rs, x ∈ b.refs := fun x hx => by
    rw [hrefs]
    exact mem_append_left _ hx
  have hother : ∀ x ∈ rs, (h'.blk x.block).size = (h.blk x.block).size := fun x hx => by
    refine (Heap.Still.setSize_release hf (Heap.Still.of_refOnly hdec)
      (hh' ▸ Heap.Still.releaseTlsBlock _ _) ?_ (R.ne_last hrefs hx).1
      (H'.pos_of_ref (Multiset.mem_add.2 (.inl hx)))).1
    exact (R.inv.live _ (R.inv.pos_of_ref (Rep.mem_left (hmem x hx)))).2.1
  have hnot : ∀ x ∈ rs, x.block ∉ l' := fun x hx hxl => by
    obtain ⟨hne, hnl⟩ := R.ne_last hrefs hx
    rcases hl' with rfl | ⟨rfl, -, -⟩
    · exact hnl hxl
    · rcases mem_cons.1 hxl with hxl | hxl
      · exact hne hxl
      · exact hnl hxl
  refine ⟨l', ⟨hbs, hwf', ?_, ?_, fun x hx => ?_, fun x hx => ?_, fun hne => absurd hcur hne,
    fun x hx hxl => ?_, ?_, ?_⟩, hrefs', hnot⟩
  · rw [held, if_pos hcur, zero_add, hrefs']
    exact H'
  · have hnd := R.distinct
    rw [hrefs, map_append] at hnd
    rw [hrefs']
    exact (nodup_append.1 hnd).1
  · rw [hrefs'] at hx
    rw [hother x hx]
    exact R.ends x (hmem x hx)
  · rw [hrefs'] at hx
    exact R.own x (hmem x hx)
  · rw [hrefs'] at hx
    exact absurd hxl (hnot x hx)
  · have hc : h'.content rs = h.content rs := by
      refine content_congr fun x hx => ?_
      have hxm : x ∈ (rs : Multiset BlockRef) + Y := Multiset.mem_add.2 (.inl hx)
      rw [hframe.bytes x hxm, hdec.bytes (hA3.pos_of_ref hxm), setSize_bytes]
      exact hf.bytes (hA1.pos_of_ref (mem_cons_of_mem hxm))
    rw [hrefs', hc, ← R.content, hrefs, content_append]
    simp
  · have hle : r.length ≤ str.length := by
      rw [← R.content, content_length, hrefs, sumLen_append, sumLen_cons]
      lia
    rw [hcount, R.count, length_take]
    push_cast
    lia

end

/-- `BackUp` takes exactly the last `n` bytes off. After the first round the
remaining references are not in the chain. -/
theorem SInv.backUpLoop : ∀ {fuel n : ℕ} {s : OutputStream} {b : IOBuf} {h : Heap}
    {str : List Byte} {l : List Ptr}, SInv s b h str l Y K S → b.refs.length ≤ fuel →
    n ≤ str.length →
    (∀ rs r, s.curBlock = NULL → b.refs = rs ++ [r] → r.block ∈ l →
      MAX_BLOCKS_PER_THREAD ≤ h.numBlocks) →
    ∃ s' b' h' l', backUpLoop fuel n s b h = (s', b', h') ∧
      SInv s' b' h' (str.take (str.length - n)) l' Y K S
  | fuel, n, s, b, h, str, l, R, hfuel, hn, hok => by
    rcases eq_nil_or_concat' b.refs with hnil | ⟨rs, r, hrefs⟩
    · have hstr : str = [] := by
        rw [← R.content, hnil]
        rfl
      have hempty : b.empty = true := (empty_iff R.wf).2 hnil
      subst hstr
      refine ⟨s, b, h, l, ?_, by simpa using R⟩
      cases fuel with
      | zero => rfl
      | succ fuel => rw [OutputStream.backUpLoop, if_pos hempty]
    · obtain ⟨fuel, rfl⟩ : ∃ k, fuel = k + 1 := by
        rw [hrefs, length_append] at hfuel
        exact ⟨fuel - 1, by simp at hfuel; lia⟩
      have hempty : ¬ b.empty = true := fun he => by
        have := (empty_iff R.wf).1 he
        rw [hrefs] at this
        simp at this
      obtain ⟨s1, h₁, hadopt, hcur1, htls1, hcount1, hA, hf⟩ :=
        R.adopt hrefs fun hcur hl => hok rs r hcur hrefs hl
      have hback : b.backRef = r := backRef_eq R.wf.view hrefs
      unfold OutputStream.backUpLoop
      rw [if_neg hempty]
      simp only [hback, hadopt]
      by_cases hlt : n < r.length
      · rw [if_pos hlt, if_pos htls1]
        simp only [hcur1]
        obtain ⟨l', R'⟩ := R.keepPart
          { s1 with byteCount := s1.byteCount - n, curBlock := NULL } hrefs hA hf hlt htls1
          (by rw [← hcount1]) rfl rfl rfl
        exact ⟨_, _, _, l', rfl, R'⟩
      · rw [if_neg hlt]
        rcases hpop : b.popBackRef (h₁.setSize r.block ((h₁.blk r.block).size - r.length)) with ⟨b1, h2⟩
        obtain ⟨l', R', hrefs', hnot⟩ := R.dropWhole
          ⟨0, NULL, s1.byteCount - r.length⟩ hrefs hA hf rfl (by rw [← hcount1]) rfl hpop rfl
        simp only [hcur1, hpop, releaseBlock, htls1, if_neg (lt_irrefl 0)]
        split
        · have hnr : n = r.length := by lia
          subst hnr
          exact ⟨_, _, _, l', rfl, R'⟩
        · have hlen : r.length ≤ str.length := by
            rw [← R.content, content_length, hrefs, sumLen_append, sumLen_cons]
            lia
          have hfuel' : b1.refs.length ≤ fuel := by
            rw [hrefs, length_append] at hfuel
            rw [hrefs']
            simpa using hfuel
          obtain ⟨s', b', h', l'', heq, R''⟩ := SInv.backUpLoop (n := n - r.length) R' hfuel'
            (by rw [length_take]; lia) fun rs' r' _ hr' hl => by
              rw [hrefs'] at hr'
              exact absurd hl (hnot r' (by rw [hr']; simp))
          refine ⟨s', b', h', l'', heq, ?_⟩
          have htake : (str.take (str.length - r.length)).take
              ((str.take (str.length - r.length)).length - (n - r.length)) =
              str.take (str.length - n) := by
            rw [take_take, length_take]
            congr 1
            lia
          rwa [htake] at R''

section

variable (R : SInv s b h str l Y K S)
include R

/-- `Next` gives a full block back first; it does not go to the chain. -/
theorem SInv.release (heq : s.releaseBlock h = (s', h₁)) :
    s' = { s with curBlock := NULL } ∧ Frame h h₁ (b.refs + Y) K ∧ h.Still h₁ ∧
      HeapInv h₁ l (b.refs + Y) K S := by
  unfold releaseBlock at heq
  rw [if_neg (by rw [R.tls]; exact lt_irrefl 0)] at heq
  cases heq
  have H := R.inv
  refine ⟨rfl, ?_⟩
  by_cases hcur : s.curBlock = NULL
  · rw [held, if_pos hcur, zero_add] at H
    have hrel : h.releaseTlsBlock s.curBlock = h := by rw [releaseTlsBlock, if_pos hcur]
    rw [hrel]
    exact ⟨.refl h _ K, .of_blk le_rfl rfl, H⟩
  · rw [held, if_neg hcur, Multiset.singleton_add] at H
    obtain ⟨hfull, rs, r, hrefs, hblk⟩ := R.cur hcur
    have hS : S s.curBlock = none := hblk ▸ (R.own r (by rw [hrefs]; simp)).2.1
    obtain ⟨hf, l1, H1, rfl | ⟨-, hnf⟩⟩ := H.releaseTlsBlock hS
    · exact ⟨hf, .releaseTlsBlock _ _, H1⟩
    · rw [hfull] at hnf
      exact absurd hnf (by simp)

/-- The block `Next` gets is not in the buffer, or it is that of the last
reference, which then ends where the free space begins. No block of the
buffer is left in the chain. -/
theorem SInv.acquired {d l' : List Ptr} {p : Ptr}
    (hcase : (l' = [] ∧ p ∉ owners l (b.refs + Y) K) ∨ l = d ++ p :: l') :
    ((∀ x ∈ b.refs, x.block ≠ p) ∨ ∃ rs r, b.refs = rs ++ [r] ∧ r.block = p) ∧
      ∀ x ∈ b.refs, x.block ∉ l' := by
  rcases hcase with ⟨rfl, hfresh⟩ | rfl
  · refine ⟨.inl fun x hx heq => hfresh ?_, fun x _ => by simp⟩
    exact mem_owners.2 (Or.inr (Or.inr ⟨x, Rep.mem_left hx, heq⟩))
  · have hnd := R.inv.chain.nodup
    constructor
    · by_cases hex : ∃ x ∈ b.refs, x.block = p
      · obtain ⟨x, hx, rfl⟩ := hex
        obtain ⟨-, -, rs, hrs⟩ := R.last x hx (by simp)
        exact .inr ⟨rs, x, hrs, rfl⟩
      · exact .inl fun x hx heq => hex ⟨x, hx, heq⟩
    · intro x hx hl
      -- It would be the head, which is `p` or a block that was dropped.
      obtain ⟨hhead, -⟩ := R.last x hx (by simp [hl])
      rw [nodup_append] at hnd
      cases d with
      | nil =>
        obtain rfl : p = x.block := by simpa using hhead
        exact (nodup_cons.1 hnd.2.1).1 hl
      | cons q d =>
        obtain rfl : q = x.block := by simpa using hhead
        exact hnd.2.2 _ mem_cons_self _ (mem_cons_of_mem _ hl) rfl

/-- The references after a `Next` that got the block `p`: the last one is in `p`,
begins behind everybody else's, and the others are as before. -/
theorem SInv.pushed {p : Ptr} {d : ℕ}
    (hd : ∀ x ∈ b.refs, x.block = p → x.stop = d) (hY : ∀ y ∈ Y, y.block = p → y.stop ≤ d)
    (hcase : (∀ x ∈ b.refs, x.block ≠ p) ∨ ∃ rs r, b.refs = rs ++ [r] ∧ r.block = p) :
    ((mergePush b.refs ⟨d, n, p⟩).map BlockRef.block).Nodup ∧
      ∃ rs x, mergePush b.refs ⟨d, n, p⟩ = rs ++ [x] ∧ x.block = p ∧ x.stop = d + n ∧
        (∀ y ∈ Y, y.block = p → y.stop ≤ x.offset) ∧
        ∀ r ∈ rs, r ∈ b.refs ∧ r.block ≠ p := by
  rcases hcase with hne | ⟨rs, r, hrefs, rfl⟩
  · have hpush : mergePush b.refs ⟨d, n, p⟩ = b.refs ++ [⟨d, n, p⟩] := by
      rcases eq_nil_or_concat' b.refs with hnil | ⟨rs, r, hrefs⟩
      · rw [hnil]
        rfl
      · rw [hrefs, mergePush_concat, if_neg fun hm => hne r (by rw [hrefs]; simp) hm.1]
        simp
    rw [hpush]
    refine ⟨?_, b.refs, _, rfl, rfl, rfl, hY, fun r hr => ⟨hr, hne r hr⟩⟩
    rw [map_append, nodup_append]
    refine ⟨R.distinct, by simp, fun q hq q' hq' => ?_⟩
    obtain ⟨x, hx, rfl⟩ := mem_map.1 hq
    obtain rfl : q' = p := by simpa using hq'
    exact hne x hx
  · have hr : r ∈ b.refs := by rw [hrefs]; simp
    have hm : r.mergeable ⟨d, n, r.block⟩ := ⟨rfl, hd r hr rfl⟩
    have hpush : mergePush b.refs ⟨d, n, r.block⟩ = rs ++ [r.grow ⟨d, n, r.block⟩] := by
      rw [hrefs, mergePush_concat, if_pos hm]
    rw [hpush]
    refine ⟨?_, rs, _, rfl, rfl, ?_, fun y hy hb => (R.own r hr).2.2 y hy hb, fun x hx =>
      ⟨by rw [hrefs]; exact mem_append_left _ hx, (R.ne_last hrefs hx).1⟩⟩
    · have hnd := R.distinct
      rw [hrefs, map_append] at hnd
      rw [map_append]
      exact hnd
    · have hstop : r.offset + r.length = d := hd r hr rfl
      show r.offset + (r.length + n) = d + n
      lia

theorem SInv.next (w : ℕ → Byte) :
    ∃ l', SInv (call ⟨s, b, h⟩ (.next w)).s (call ⟨s, b, h⟩ (.next w)).b
      (call ⟨s, b, h⟩ (.next w)).h (produce ⟨s, b, h⟩ str (.next w)) l'
      Y K S := by
  have hcond : s.curBlock = NULL ∨ (h.blk s.curBlock).full = true := by
    by_cases hcur : s.curBlock = NULL
    · exact Or.inl hcur
    · exact Or.inr (R.cur hcur).1
  rcases hrel : s.releaseBlock h with ⟨s1, h₁⟩
  obtain ⟨hs1, hf1, hst1, H1⟩ := R.release hrel
  have htls1 : s1.blockSize = 0 := by rw [hs1]; exact R.tls
  have hcount1 : s1.byteCount = str.length := by rw [hs1]; exact R.count
  rcases hacq : h₁.acquireTlsBlock with ⟨p, h2⟩
  obtain ⟨hf2, hcase⟩ := H1.acquireTlsBlock hacq
  have hst : h.Still h2 := by
    have := Heap.Still.acquireTlsBlock h₁
    rw [hacq] at this
    exact hst1.trans this
  have hf : Frame h h2 (b.refs + Y) K := hf1.trans hf2
  have hc2 : h2.content b.refs = str := by
    rw [hf.content fun r hr => Rep.mem_left hr, R.content]
  have hbrk : ∀ x ∈ b.refs, x.block < h.brk := fun x hx =>
    (R.inv.live _ (R.inv.pos_of_ref (Rep.mem_left hx))).2.1
  have hnext : s.next b h = if p = NULL then (none, { s1 with curBlock := p }, b, h2) else
        let r : BlockRef := ⟨(h2.blk p).size, (h2.blk p).leftSpace, p⟩
        let x := b.pushOrMoveBackRef false r (h2.setSize p (h2.blk p).cap)
        (some (p, r.offset, r.length), ⟨0, p, s1.byteCount + r.length⟩, x.1, x.2) := by
    unfold OutputStream.next
    simp only [if_pos hcond, hrel, htls1, if_neg (lt_irrefl 0), hacq]
  rcases hcase with ⟨rfl, -, d, l', rfl, H2⟩ | ⟨hp, hSp, ⟨d, l', H2, hl'⟩, hroom, -⟩
  · -- Out of memory: the buffer is as it was, and the chain lost full blocks.
    rw [if_pos rfl] at hnext
    simp only [call, produce, hnext]
    refine ⟨l', htls1, R.wf, ?_, R.distinct, fun x hx => ?_, R.own, fun hne => absurd rfl hne,
      fun x hx hxl => ?_, hc2, hcount1⟩
    · rw [held, if_pos rfl, zero_add]
      exact H2
    · rw [hst.size _ (hbrk x hx) (H2.pos_of_ref (Rep.mem_left hx))]
      exact R.ends x hx
    · obtain ⟨hhead, hfull, hlast⟩ := R.last x hx (mem_append_right _ hxl)
      have hpos := H2.pos_of_tls hxl
      refine ⟨?_, ?_, hlast⟩
      · cases d with
        | nil => exact hhead
        | cons q d =>
          obtain rfl : q = x.block := by simpa using hhead
          have hnd := R.inv.chain.nodup
          rw [cons_append, nodup_cons] at hnd
          exact absurd (mem_append_right _ hxl) hnd.1
      · simpa [Block.full, hst.size _ (hbrk x hx) hpos, hst.cap _ (hbrk x hx) hpos] using hfull
  · rw [if_neg hp] at hnext
    rcases hpush : b.pushOrMoveBackRef false ⟨(h2.blk p).size, (h2.blk p).leftSpace, p⟩ (h2.setSize
      p (h2.blk p).cap) with ⟨b3, h3⟩
    have R2 : Rep true h2 l' b Y (p ::ₘ K) S := ⟨R.wf, H2⟩
    obtain ⟨R3, hf3, hb3, hsize3, hcap3, hcont3⟩ := R2.takeRest hSp hroom hpush
    simp only [hpush] at hnext
    simp only [call, produce, hnext]
    obtain ⟨d0, hd0⟩ : ∃ d0, d0 = (h2.blk p).size := ⟨_, rfl⟩
    obtain ⟨n, hn⟩ : ∃ n, n = (h2.blk p).leftSpace := ⟨_, rfl⟩
    have hdn : (h2.blk p).cap = d0 + n := by
      have : (h2.blk p).leftSpace = (h2.blk p).cap - (h2.blk p).size := rfl
      lia
    rw [← hd0, ← hn] at hb3 ⊢
    rw [hdn] at hsize3 hcap3
    have hlim : ∀ x ∈ (b.refs : Multiset BlockRef) + Y, x.block = p → x.stop ≤ d0 :=
      fun x hx hb => by
        have := H2.bound x hx
        rwa [hb, lim, hSp, Option.getD_none, ← hd0] at this
    have hsize2 : ∀ x ∈ b.refs, (h2.blk x.block).size = (h.blk x.block).size := fun x hx =>
      hst.size _ (hbrk x hx) (H2.pos_of_ref (Rep.mem_left hx))
    obtain ⟨hpcase, hnot⟩ := R.acquired hl'
    obtain ⟨hdist, rs, x, hlast, hxb, hxs, hxY, hrs⟩ := R.pushed (n := n) (p := p) (d := d0)
      (fun x hx hb => by rw [R.ends x hx, ← hsize2 x hx, hb, hd0])
      (fun y hy hb => hlim y (Multiset.mem_add.2 (Or.inr hy)) hb) hpcase
    have hpK : p ∉ K := (Multiset.nodup_cons.1 (Multiset.nodup_add.1 R3.inv.nodup).2.1).1
    have hst3 : ∀ r ∈ rs, (h3.blk r.block).size = (h.blk r.block).size := fun r hr => by
      have hext := heap_pushOrMoveBackRef false
        (r := ⟨(h2.blk p).size, (h2.blk p).leftSpace, p⟩) (h := h2.setSize p (h2.blk p).cap)
        R.wf hp
      have hro : Heap.RefOnly (h2.setSize p (h2.blk p).cap) h3 := by
        rw [hpush] at hext
        rw [show h3 = _ from hext]
        exact pushHeap_refOnly (fun _ => by
          rw [setSize_nshared]
          exact H2.pos_of_held (Multiset.mem_cons_self p K)) _
      rw [hro.size _ (R3.inv.pos_of_ref (Rep.mem_left (by
        rw [hb3, hlast]; exact mem_append_left _ hr))), setSize_size,
        if_neg (hrs r hr).2, hsize2 r (hrs r hr).1]
    rw [← hb3] at hdist hlast
    refine ⟨l', rfl, R3.wf, ?_, hdist, fun r hr => ?_, fun r hr => ?_, fun _ => ⟨?_, rs, x, hlast, hxb⟩,
      fun r hr hrl => ?_, ?_, ?_⟩
    · rw [held, if_neg hp, Multiset.singleton_add]
      exact R3.inv.write
    · rw [write_size]
      rw [hlast, mem_append, mem_singleton] at hr
      rcases hr with hr | rfl
      · rw [hst3 r hr]
        exact R.ends r (hrs r hr).1
      · rw [hxs, hxb, hsize3]
    · rw [hlast, mem_append, mem_singleton] at hr
      rcases hr with hr | rfl
      · exact R.own r (hrs r hr).1
      · rw [hxb]
        exact ⟨hpK, hSp, hxY⟩
    · simp [Block.full, hsize3, hcap3]
    · rw [hlast, mem_append, mem_singleton] at hr
      rcases hr with hr | rfl
      · exact absurd hrl (hnot r (hrs r hr).1)
      · rw [hxb] at hrl
        exact absurd (Multiset.mem_cons_self p K) (R3.inv.not_held_of_tls hrl)
    · have hfill : (fill w n).length = n := by simp [fill]
      have hold : (h3.write p d0 (fill w n)).content b.refs = str := by
        rw [← hc2, ← hcont3]
        refine content_congr fun r hr => read_congr fun i _ hi => ?_
        refine write_data_below _ _ _ _ _ fun heq => ?_
        exact lt_of_lt_of_le hi (hlim r (Rep.mem_left hr) heq)
      have hnew : (h3.write p d0 (fill w n)).bytes ⟨d0, n, p⟩ =
          fill w n := by
        rw [bytes, read_write _ _ _ _ hfill.le, hfill]
        simp
      rw [hb3, content_mergePush, hold, hnew]
    · simp [hcount1, fill]

end

theorem Heap.chainFrom_eq {h : Heap} : ∀ {l : List Ptr} {fuel : ℕ} {p : Ptr},
    Lib.Chain (fun p => (h.blk p).portalNext) NULL p l → l.length ≤ fuel → h.chainFrom fuel p = l
  | [], 0, _, _, _ => rfl
  | [], fuel + 1, p, hc, _ => by
    obtain rfl : p = NULL := Lib.chain_nil.1 hc
    simp [chainFrom]
  | q :: l, 0, _, _, hl => by simp at hl
  | q :: l, fuel + 1, p, hc, hl => by
    obtain ⟨rfl, hne, hc'⟩ := Lib.chain_cons.1 hc
    rw [chainFrom, if_neg hne, chainFrom_eq hc' (by simpa using hl)]

theorem HeapInv.tlsChain_eq {X : Multiset BlockRef} (H : HeapInv h l X K S) : h.tlsChain = l :=
  chainFrom_eq H.chain H.length_le_brk

theorem SInv.new (H : HeapInv h l Y K S) : SInv OutputStream.new IOBuf.new h [] l Y K S where
  tls := rfl
  wf := wf_new
  inv := by simpa [OutputStream.held, OutputStream.new] using H
  distinct := by simp
  ends := by simp
  own := by simp
  cur hne := absurd rfl hne
  last := by simp
  content := rfl
  count := rfl

theorem SInv.call {σ : StreamState} (R : SInv σ.s σ.b σ.h str l Y K S) {c : Call}
    (hw : c.Within σ) (hok : c.NoReadopt σ) :
    ∃ l', SInv (σ.call c).s (σ.call c).b (σ.call c).h (σ.produce str c) l' Y K S := by
  cases c with
  | next w => exact R.next w
  | backUp n =>
    have hn : n ≤ str.length := by
      have : (n : ℤ) ≤ σ.s.byteCount := hw
      rw [R.count] at this
      exact_mod_cast this
    obtain ⟨s', b', h', l', heq, R'⟩ := R.backUpLoop (refNum_eq R.wf.view).ge hn
      fun rs r hcur hrefs hl => by
        refine hok hcur ?_ ?_
        · by_contra he
          have := (empty_iff R.wf).1 (by simpa using he)
          rw [hrefs] at this
          simp at this
        · rw [backRef_eq R.wf.view hrefs, R.inv.tlsChain_eq]
          exact hl
    have hcall : σ.call (.backUp n) = ⟨s', b', h'⟩ := by
      simp only [StreamState.call, backUp, heq]
    rw [hcall]
    exact ⟨l', R'⟩

theorem SInv.run : ∀ {cs : List Call} {σ : StreamState} {str : List Byte} {l : List Ptr},
    SInv σ.s σ.b σ.h str l Y K S → RunMeets (fun σ c => c.Within σ) cs σ →
    RunMeets (fun σ c => c.NoReadopt σ) cs σ →
    ∃ l', SInv (StreamState.run cs σ str).1.s (StreamState.run cs σ str).1.b
      (StreamState.run cs σ str).1.h (StreamState.run cs σ str).2 l' Y K S
  | [], _, _, l, R, _, _ => ⟨l, R⟩
  | c :: cs, σ, str, l, R, hw, hok => by
    obtain ⟨l1, R1⟩ := R.call hw.1 hok.1
    exact R1.run hw.2 hok.2

end Stream

/-! ## Whole runs -/

/-- The buffer is the byte string `str`, `ByteCount()` is its length, and the TLS
chain is a finite list of `num_blocks` different blocks. -/
structure StreamState.Holds (σ : StreamState) (str : List Byte) : Prop where
  content : σ.h.content σ.b.refs = str
  length : σ.b.length = str.length
  byteCount : σ.s.byteCount = str.length
  chain : ∃ l : List Ptr, Lib.Chain (fun p => (σ.h.blk p).portalNext) NULL σ.h.blockHead l ∧
    l.Nodup ∧ σ.h.numBlocks = l.length

/-- A stream on an empty buffer in the heap `h`. -/
def StreamState.new (h : Heap) : StreamState := ⟨OutputStream.new, IOBuf.new, h⟩

section Runs

variable {ι κ : Type} [DecidableEq ι] [DecidableEq κ] [Fintype ι] [Fintype κ]

/-- **Extended `BackUp`.** A stream is set up in the heap any other use of
buffers, portals and appenders has left. After every sequence of `Next` and
`BackUp` within `ByteCount()`, in which no `BackUp` adopts a block that is
still in a TLS chain with room, the buffer is what was produced and not
backed up. -/
theorem run_backUp (mem : Ptr → ℕ → Byte) (oom : Ptr → Bool) (acts : List (Action ι κ))
    (calls : List Call)
    (hwithin : RunMeets (fun σ c => c.Within σ) calls
      (StreamState.new ((World.init mem oom : World ι κ).run acts).heap))
    (hok : RunMeets (fun σ c => c.NoReadopt σ) calls
      (StreamState.new ((World.init mem oom : World ι κ).run acts).heap)) :
    (StreamState.run calls
        (StreamState.new ((World.init mem oom : World ι κ).run acts).heap) []).1.Holds
      (StreamState.run calls
        (StreamState.new ((World.init mem oom : World ι κ).run acts).heap) []).2 := by
  obtain ⟨l, c, S, F⟩ := (.init mem oom : WInv (.init mem oom : World ι κ) _ _ _).run acts
  obtain ⟨l', R⟩ := (SInv.new F.inv).run (σ := StreamState.new _) hwithin hok
  have hR : Rep true _ l' _ _ _ S := ⟨R.wf, R.inv⟩
  exact ⟨R.content, by rw [hR.length, R.content], R.count, l', R.inv.chain,
    R.inv.chain.nodup, R.inv.num⟩

end Runs

/-- A region that is backed up a little and filled again, another region, and a
`BackUp` that takes all of the second and the end of the first. -/
def backUpAcross : List Call :=
  [.next fun _ => 97, .backUp 1, .next fun _ => 98, .next fun _ => 99, .backUp 8161]

theorem run_backUp_across :
    (StreamState.run backUpAcross (StreamState.new
        ((World.init (fun _ _ => 0) (fun _ => false) : World Empty Empty).run []).heap) []).1.Holds
      (StreamState.run backUpAcross (StreamState.new
        ((World.init (fun _ _ => 0) (fun _ => false) : World Empty Empty).run []).heap) []).2 := by
  refine run_backUp _ _ [] _ ⟨trivial, ?_, trivial, trivial, ?_, trivial⟩
    ⟨trivial, ?_, trivial, trivial, ?_, trivial⟩
  · show ((1 : ℕ) : ℤ) ≤ _
    decide
  · show ((8161 : ℕ) : ℤ) ≤ _
    decide +kernel
  · refine fun hcur => absurd hcur ?_
    decide +kernel
  · refine fun hcur => absurd hcur ?_
    decide

/-- **Two short `BackUp`s in a row** on a single region: the first puts the block
into the TLS chain, the second puts it there again, as its own successor. -/
theorem backUp_twice_cyclic :
    RunMeets (fun σ c => c.Within σ) [.next fun _ => 97, .backUp 1, .backUp 1]
        (StreamState.new (Heap.init (fun _ _ => 0) fun _ => false)) ∧
      ¬ (StreamState.run [.next fun _ => 97, .backUp 1, .backUp 1]
          (StreamState.new (Heap.init (fun _ _ => 0) fun _ => false)) []).1.Holds
        (StreamState.run [.next fun _ => 97, .backUp 1, .backUp 1]
          (StreamState.new (Heap.init (fun _ _ => 0) fun _ => false)) []).2 := by
  refine ⟨⟨trivial, ?_, ?_, trivial⟩, fun hh => ?_⟩
  · show ((1 : ℕ) : ℤ) ≤ _
    decide
  · show ((1 : ℕ) : ℤ) ≤ _
    decide
  · obtain ⟨l, hc, hnd, -⟩ := hh.chain
    have hhead : (StreamState.run [.next fun _ => 97, .backUp 1, .backUp 1]
        (.new (.init (fun _ _ => 0) fun _ => false)) []).1.h.blockHead = 1 := by
      decide
    have hself : ((StreamState.run [.next fun _ => 97, .backUp 1, .backUp 1]
        (.new (.init (fun _ _ => 0) fun _ => false)) []).1.h.blk 1).portalNext
        = 1 := by
      decide
    rw [hhead] at hc
    exact absurd (Lib.Chain.eq_null_of_self hc hself) (by decide)

end Eabase.IOBuf
