import Mathlib.Algebra.Order.Ring.Int

/-!
# Blocks and the thread-local block chain

The memory that every `IOBuf` of a thread shares: reference-counted blocks
and the chain of partly filled blocks in `g_tls_data`. A pointer is a
natural number and `NULL` is `0`; `malloc` hands out the addresses
`brk, brk + 1, …`, so an address is never reused. That is sound exactly as
long as nothing dangles, which is part of the invariant proved in
`Eabase.IOBuf.Invariant`: a block whose count drops to zero is overwritten
here, so a dangling reference would read rubbish.

`malloc` may fail: `oom` says which of its calls return `NULL`. A new block
keeps the bytes its memory happened to hold (`createBlock` does not touch
`data`), so nothing can be proved about bytes nobody wrote.

Left out: `flags`, `abi_check` and the user-data extension (all blocks here
have `flags = 0`) and the statistics counters `g_nblock`, `g_blockmem` and
`g_num_hit_tls_threshold`. Counters are unbounded integers.
-/

namespace Eabase.IOBuf

abbrev Byte : Type := UInt8

abbrev Ptr : Type := ℕ

abbrev NULL : Ptr := 0

def DEFAULT_BLOCK_SIZE : ℕ := 8192

/-- `sizeof(IOBuf::Block)`. -/
def sizeofBlock : ℕ := 32

def MAX_BLOCKS_PER_THREAD : ℤ := 8

structure Block where
  nshared : ℤ
  size : ℕ
  cap : ℕ
  portalNext : Ptr
  data : ℕ → Byte

def Block.full (b : Block) : Bool := decide (b.cap ≤ b.size)

def Block.leftSpace (b : Block) : ℕ := b.cap - b.size

/-- What the memory of a deallocated block reads as. -/
def Block.freed : Block := ⟨0, 0, 0, NULL, fun _ => 0⟩

/-- The blocks, the allocator and the `TLSData` of the thread. -/
structure Heap where
  blk : Ptr → Block
  brk : Ptr
  oom : Ptr → Bool
  blockHead : Ptr
  numBlocks : ℤ
  registered : Bool

namespace Heap

def setBlk (h : Heap) (p : Ptr) (b : Block) : Heap :=
  { h with blk := Function.update h.blk p b }

def incRef (h : Heap) (p : Ptr) : Heap :=
  h.setBlk p { h.blk p with nshared := (h.blk p).nshared + 1 }

def decRef (h : Heap) (p : Ptr) : Heap :=
  if (h.blk p).nshared = 1 then h.setBlk p Block.freed
  else h.setBlk p { h.blk p with nshared := (h.blk p).nshared - 1 }

def setSize (h : Heap) (p : Ptr) (n : ℕ) : Heap :=
  h.setBlk p { h.blk p with size := n }

def setPortalNext (h : Heap) (p q : Ptr) : Heap :=
  h.setBlk p { h.blk p with portalNext := q }

/-- `memcpy(b->data + off, bs, n)`. -/
def write (h : Heap) (p : Ptr) (off : ℕ) (bs : List Byte) : Heap :=
  h.setBlk p { h.blk p with
    data := fun i => if i < off then (h.blk p).data i else (bs[i - off]?).getD ((h.blk p).data i) }

/-- The `n` bytes from `b->data + off` on. -/
def read (h : Heap) (p : Ptr) (off n : ℕ) : List Byte :=
  (List.range n).map fun i => (h.blk p).data (off + i)

/-- `new (mem) IOBuf::Block(…, data_size)` in the memory at `brk`. -/
def newBlock (h : Heap) (dataSize : ℕ) : Heap :=
  { h.setBlk h.brk ⟨1, 0, dataSize, NULL, (h.blk h.brk).data⟩ with brk := h.brk + 1 }

/-- `block_size - sizeof(IOBuf::Block)` as the `uint32_t` that a block keeps. -/
def blockCap (blockSize : ℕ) : ℕ :=
  if sizeofBlock ≤ blockSize then blockSize - sizeofBlock else blockSize + 2 ^ 32 - sizeofBlock

/-- `create_block(block_size)`; the result is `NULL` when `malloc` fails. -/
def createBlock (blockSize : ℕ) (h : Heap) : Ptr × Heap :=
  if 0xFFFFFFFF < blockSize then (NULL, h)
  else if h.oom h.brk then (NULL, { h with brk := h.brk + 1 })
  else (h.brk, h.newBlock (blockCap blockSize))

/-! ## Sharing TLS blocks between appending operations -/

/-- The loop that takes full blocks off the front of the TLS chain, shared by
`share_tls_block` and `acquire_tls_block` (the former stores `block_head`
only after the loop, which nothing can observe). There are at most `brk`
blocks to look at. -/
def dropFull : ℕ → Heap → Heap
  | 0, h => h
  | fuel + 1, h =>
      if h.blockHead ≠ NULL ∧ (h.blk h.blockHead).full then
        let savedNext := (h.blk h.blockHead).portalNext
        let h' := h.decRef h.blockHead
        dropFull fuel { h' with blockHead := savedNext, numBlocks := h'.numBlocks - 1 }
      else h

/-- Get a (non-full) block from TLS; it stays in TLS. -/
def shareTlsBlock (h : Heap) : Ptr × Heap :=
  if h.blockHead ≠ NULL ∧ ¬ (h.blk h.blockHead).full then (h.blockHead, h)
  else
    let h₁ := if h.blockHead ≠ NULL then dropFull h.brk h else { h with registered := true }
    if h₁.blockHead ≠ NULL then (h₁.blockHead, h₁)
    else
      let (newBlock, h₂) := createBlock DEFAULT_BLOCK_SIZE h₁
      (newBlock, { h₂ with
        blockHead := newBlock
        numBlocks := if newBlock ≠ NULL then h₂.numBlocks + 1 else h₂.numBlocks })

/-- Return one block to TLS. -/
def releaseTlsBlock (b : Ptr) (h : Heap) : Heap :=
  if b = NULL then h
  else if (h.blk b).full then h.decRef b
  else if MAX_BLOCKS_PER_THREAD ≤ h.numBlocks then h.decRef b
  else
    let h₁ := h.setPortalNext b h.blockHead
    { h₁ with blockHead := b, numBlocks := h₁.numBlocks + 1, registered := true }

/-- `do { …; b->dec_ref(); b = saved_next; } while (b)`. -/
def decRefChain : ℕ → Ptr → Heap → Heap
  | 0, _, h => h
  | fuel + 1, b, h =>
      let savedNext := (h.blk b).portalNext
      let h₁ := h.decRef b
      if savedNext = NULL then h₁ else decRefChain fuel savedNext h₁

/-- The last block of the chain from `b` and the number of blocks up to it. -/
def chainEnd : ℕ → Ptr → Heap → Ptr × ℕ
  | 0, b, _ => (b, 0)
  | fuel + 1, b, h =>
      if (h.blk b).portalNext = NULL then (b, 1)
      else
        let (last, n) := chainEnd fuel (h.blk b).portalNext h
        (last, n + 1)

/-- Return chained blocks to TLS. The `CHECK(!b->full())` of the source only
logs; that it never fires is part of the invariant. -/
def releaseTlsBlockChain (b : Ptr) (h : Heap) : Heap :=
  if MAX_BLOCKS_PER_THREAD ≤ h.numBlocks then decRefChain h.brk b h
  else
    let (last, n) := chainEnd h.brk b h
    let h₁ := h.setPortalNext last h.blockHead
    { h₁ with blockHead := b, numBlocks := h₁.numBlocks + n, registered := true }

/-- Get and remove one (non-full) block from TLS, or create one. -/
def acquireTlsBlock (h : Heap) : Ptr × Heap :=
  let h₁ := if h.blockHead = NULL then h else dropFull h.brk h
  if h₁.blockHead = NULL then createBlock DEFAULT_BLOCK_SIZE h₁
  else
    let b := h₁.blockHead
    let h₂ := { h₁ with
      blockHead := (h₁.blk b).portalNext
      numBlocks := h₁.numBlocks - 1 }
    (b, h₂.setPortalNext b NULL)

end Heap

end Eabase.IOBuf
