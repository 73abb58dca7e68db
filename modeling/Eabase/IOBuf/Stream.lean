import Eabase.IOBuf.OpsSpec

/-!
# Output streams and appenders

`IOBufAsZeroCopyOutputStream` hands out the whole free rest of a block: `Next`
counts it as used, pushes a reference to all of it, and lets the caller fill
it afterwards; `BackUp` takes the end back. `IOBufAppender` copies into the
region it got from `Next` and backs up what it did not fill before anybody
may look at its buffer.

`LOG(FATAL)` logs; `BackUp` then returns without having done anything.
-/

namespace Eabase.IOBuf

/-- `IOBufAsZeroCopyOutputStream` without its buffer. A `blockSize` of `0` means
that blocks come from TLS. -/
structure OutputStream where
  blockSize : ℕ
  curBlock : Ptr
  byteCount : ℤ

namespace OutputStream

/-- `IOBufAsZeroCopyOutputStream(IOBuf* buf)`. -/
def new : OutputStream := ⟨0, NULL, 0⟩

def held (s : OutputStream) : Multiset Ptr := if s.curBlock = NULL then 0 else {s.curBlock}

def releaseBlock (s : OutputStream) (h : Heap) : OutputStream × Heap :=
  ({ s with curBlock := NULL },
    if 0 < s.blockSize then
      if s.curBlock ≠ NULL then h.decRef s.curBlock else h
    else h.releaseTlsBlock s.curBlock)

/-- `Next(void** data, int* size)`: the block, the offset and the size of the
region handed out, or `none` when no block is to be had. -/
def next (s : OutputStream) (b : IOBuf) (h : Heap) :
    Option (Ptr × ℕ × ℕ) × OutputStream × IOBuf × Heap :=
  let (s₁, h₁) :=
    if s.curBlock = NULL ∨ (h.blk s.curBlock).full then
      let (s', h') := s.releaseBlock h
      let (p, h'') :=
        if 0 < s'.blockSize then h'.createBlock s'.blockSize else h'.acquireTlsBlock
      ({ s' with curBlock := p }, h'')
    else (s, h)
  let p := s₁.curBlock
  if p = NULL then (none, s₁, b, h₁)
  else
    let r : BlockRef := ⟨(h₁.blk p).size, (h₁.blk p).leftSpace, p⟩
    let (b₂, h₂) := b.pushOrMoveBackRef false r (h₁.setSize p (h₁.blk p).cap)
    (some (p, r.offset, r.length), { s₁ with byteCount := s₁.byteCount + r.length }, b₂, h₂)

/-- What one round of `BackUp` does first: find out which block the last
reference `r` lies in, or adopt it again. -/
inductive Adopt : Type where
  /-- The stream holds the block. -/
  | own (s : OutputStream) (h : Heap)
  /-- The end of the block belongs to somebody else: just pop the bytes. -/
  | foreign
  /-- `LOG(FATAL)`. -/
  | fatal

def adopt (s : OutputStream) (r : BlockRef) (h : Heap) : Adopt :=
  if s.curBlock ≠ NULL then
    -- An ordinary BackUp: the block must match the end of the buffer.
    if r.block ≠ s.curBlock then .fatal
    else if r.stop ≠ (h.blk s.curBlock).size then .fatal
    else .own s h
  else if (h.blk r.block).nshared = 1 then
    if r.stop ≠ (h.blk r.block).size then .fatal
    else .own { s with curBlock := r.block } (h.incRef r.block)
  else if r.stop ≠ (h.blk r.block).size then .foreign
  else .own { s with curBlock := r.block } (h.incRef r.block)

def backUpLoop : ℕ → ℕ → OutputStream → IOBuf → Heap → OutputStream × IOBuf × Heap
  | 0, _, s, b, h => (s, b, h)
  | fuel + 1, count, s, b, h =>
      if b.empty then (s, b, h)
      else
        let r := b.backRef
        match s.adopt r h with
        | .fatal => (s, b, h)
        | .foreign =>
            let (n, b₁, h₁) := b.popBack count h
            ({ s with byteCount := s.byteCount - n }, b₁, h₁)
        | .own s h =>
            if count < r.length then
              let b₁ := (b.setBackRef { r with length := r.length - count }).subNbytes count
              let h₁ := h.setSize s.curBlock ((h.blk s.curBlock).size - count)
              let s₁ := { s with byteCount := s.byteCount - count }
              -- Release the block for TLS so that other code can reuse it.
              if s.blockSize = 0 then
                ({ s₁ with curBlock := NULL }, b₁, h₁.releaseTlsBlock s.curBlock)
              else (s₁, b₁, h₁)
            else
              let h₁ := h.setSize s.curBlock ((h.blk s.curBlock).size - r.length)
              let (b₁, h₂) := b.popBackRef h₁
              let (s₁, h₃) := releaseBlock { s with byteCount := s.byteCount - r.length } h₂
              if count - r.length = 0 then (s₁, b₁, h₃)
              else backUpLoop fuel (count - r.length) s₁ b₁ h₃

/-- `BackUp(int count)`. -/
def backUp (count : ℕ) (s : OutputStream) (b : IOBuf) (h : Heap) : OutputStream × IOBuf × Heap :=
  backUpLoop b.refNum count s b h

end OutputStream

/-! ## `IOBufAppender` -/

/-- `_data` and `_data_end` point to `data` and `dataEnd` in the block `blk`;
`NULL` pointers are `blk = NULL`, `data = dataEnd = 0`. -/
structure IOBufAppender where
  blk : Ptr
  data : ℕ
  dataEnd : ℕ
  buf : IOBuf
  stream : OutputStream

namespace IOBufAppender

def new : IOBufAppender := ⟨NULL, 0, 0, IOBuf.new, OutputStream.new⟩

/-- The bytes of the current region that are not filled yet. -/
def left (A : IOBufAppender) : ℕ := A.dataEnd - A.data

def addBlock (A : IOBufAppender) (h : Heap) : ℤ × IOBufAppender × Heap :=
  match A.stream.next A.buf h with
  | (some (p, off, size), s, b, h') => (0, ⟨p, off, off + size, b, s⟩, h')
  | (none, s, b, h') => (-1, ⟨NULL, 0, 0, b, s⟩, h')

/-- `memcpy(_data, src, n)` and moving `_data`. -/
def fill (A : IOBufAppender) (bs : List Byte) (h : Heap) : IOBufAppender × Heap :=
  ({ A with data := A.data + bs.length }, h.write A.blk A.data bs)

def appendLoop : ℕ → List Byte → IOBufAppender → Heap → ℤ × IOBufAppender × Heap
  | 0, _, A, h => (-1, A, h)
  | fuel + 1, src, A, h =>
      let size := A.left
      if src.length ≤ size then (0, A.fill src h)
      else
        -- `_data` is set again by `add_block` below.
        let h₁ := if size ≠ 0 then (A.fill (src.take size) h).2 else h
        match A.addBlock h₁ with
        | (0, A₂, h₂) => appendLoop fuel (src.drop size) A₂ h₂
        | (_, A₂, h₂) => (-1, A₂, h₂)

/-- `append(const void* src, size_t n)`. -/
def append (src : List Byte) (A : IOBufAppender) (h : Heap) : ℤ × IOBufAppender × Heap :=
  appendLoop (src.length + 2) src A h

def pushBack (c : Byte) (A : IOBufAppender) (h : Heap) : ℤ × IOBufAppender × Heap :=
  if A.data = A.dataEnd then
    match A.addBlock h with
    | (0, A₁, h₁) => (0, A₁.fill [c] h₁)
    | (_, A₁, h₁) => (-1, A₁, h₁)
  else (0, A.fill [c] h)

def shrink (A : IOBufAppender) (h : Heap) : IOBufAppender × Heap :=
  if A.left ≠ 0 then
    let (s, b, h') := A.stream.backUp A.left A.buf h
    (⟨NULL, 0, 0, b, s⟩, h')
  else (A, h)

/-- `move_to(IOBuf& target)`: the appender, the target and the heap. -/
def moveTo (A : IOBufAppender) (target : IOBuf) (h : Heap) : IOBufAppender × IOBuf × Heap :=
  let (A₁, h₁) := A.shrink h
  let (t, b, h₂) := IOBuf.assignMovable target A₁.buf h₁
  ({ A₁ with buf := b }, t, h₂)

end IOBufAppender

end Eabase.IOBuf
