import Eabase.IOBuf.View

/-!
# The operations of `IOBuf`

Translated from `iobuf.cc`, one definition for each member function, as
functions on the buffer (or the two buffers) and the heap. An operation on
two buffers takes them as two values, so the two are different objects, as
in every call the library makes; the assignment from itself that
`operator=` tests for is handled where objects have names
(`Eabase.IOBuf.Refine`).

`while` loops recurse on an explicit bound: every iteration of the loops
below either returns or uses up one reference of the queue, or copies at
least one byte. A result code is `0` or `-1` as in the source.
-/

namespace Eabase.IOBuf

/-- `_ref_at(0), …, _ref_at(_ref_num() - 1)`. -/
def refList (b : IOBuf) : List BlockRef := (List.range b.refNum).map b.refAt

def decRefs (rs : List BlockRef) (h : Heap) : Heap := rs.foldl (fun h r => h.decRef r.block) h

def incRefs (rs : List BlockRef) (h : Heap) : Heap := rs.foldl (fun h r => h.incRef r.block) h

/-! ## Construction and assignment -/

def clear : IOBuf → Heap → IOBuf × Heap
  | sv refs0 refs1, h =>
      if refs0.block ≠ NULL then
        let h₁ := h.decRef refs0.block
        if refs1.block ≠ NULL then (new, h₁.decRef refs1.block)
        else (sv resetBlockRef refs1, h₁)
      else (sv refs0 refs1, h)
  | bv v, h => (new, decRefs ((List.range v.nref).map v.refAt) h)

/-- `IOBuf(const IOBuf& rhs)`. -/
def copy : IOBuf → Heap → IOBuf × Heap
  | sv refs0 refs1, h =>
      let h₁ := if refs0.block ≠ NULL then h.incRef refs0.block else h
      (sv refs0 refs1, if refs1.block ≠ NULL then h₁.incRef refs1.block else h₁)
  | bv v, h =>
      let rs := (List.range v.nref).map v.refAt
      (bv { start := 0
            refs := acquireBlockrefArray rs
            nref := v.nref
            capMask := v.capMask
            nbytes := v.nbytes }, incRefs rs h)

/-- `operator=(const IOBuf& rhs)` on two different objects. -/
def assign : IOBuf → IOBuf → Heap → IOBuf × Heap
  | bv v, bv w, h =>
      if v.capMask = w.capMask then
        -- Reuse array of refs
        let h₁ := decRefs ((List.range v.nref).map v.refAt) h
        let rs := (List.range w.nref).map w.refAt
        (bv { start := 0
              refs := fun i => rs.getD i (v.refs i)
              nref := w.nref
              capMask := v.capMask
              nbytes := w.nbytes }, incRefs rs h₁)
      else copy (bv w) (clear (bv v) h).2
  | b, rhs, h => copy rhs (clear b h).2

/-- `operator=(const Movable& rhs)`; the second result is what is left of `rhs`. -/
def assignMovable (b rhs : IOBuf) (h : Heap) : IOBuf × IOBuf × Heap :=
  (rhs, new, (clear b h).2)

/-! ## Taking bytes off either end -/

def popFrontLoop : ℕ → ℕ → IOBuf → Heap → IOBuf × Heap
  | 0, _, b, h => (b, h)
  | fuel + 1, n, b, h =>
      if n = 0 then (b, h)
      else
        let r := b.frontRef
        if n < r.length then
          ((b.setFrontRef { r with offset := r.offset + n, length := r.length - n }).subNbytes n, h)
        else
          let (b₁, h₁) := b.popOrMoveoutFrontRef false h
          popFrontLoop fuel (n - r.length) b₁ h₁

/-- Returns the number of bytes popped. -/
def popFront (n : ℕ) (b : IOBuf) (h : Heap) : ℕ × IOBuf × Heap :=
  if b.length ≤ n then (b.length, b.clear h)
  else (n, popFrontLoop b.refNum n b h)

/-- Returns the byte that was cut, if any. -/
def cut1 (b : IOBuf) (h : Heap) : Option Byte × IOBuf × Heap :=
  if b.empty then (none, b, h)
  else
    let r := b.frontRef
    let c := (h.blk r.block).data r.offset
    if 1 < r.length then
      (some c,
        (b.setFrontRef { r with offset := r.offset + 1, length := r.length - 1 }).subNbytes 1, h)
    else (some c, b.popOrMoveoutFrontRef false h)

def popBackLoop : ℕ → ℕ → IOBuf → Heap → IOBuf × Heap
  | 0, _, b, h => (b, h)
  | fuel + 1, n, b, h =>
      if n = 0 then (b, h)
      else
        let r := b.backRef
        if n < r.length then
          ((b.setBackRef { r with length := r.length - n }).subNbytes n, h)
        else
          let (b₁, h₁) := b.popBackRef h
          popBackLoop fuel (n - r.length) b₁ h₁

def popBack (n : ℕ) (b : IOBuf) (h : Heap) : ℕ × IOBuf × Heap :=
  if b.length ≤ n then (b.length, b.clear h)
  else (n, popBackLoop b.refNum n b h)

def cutnLoop : ℕ → ℕ → IOBuf → IOBuf → Heap → IOBuf × IOBuf × Heap
  | 0, _, b, out, h => (b, out, h)
  | fuel + 1, n, b, out, h =>
      if n = 0 then (b, out, h)
      else
        let r := b.frontRef
        if r.length ≤ n then
          let (out₁, h₁) := out.pushOrMoveBackRef true r h
          let (b₁, h₂) := b.popOrMoveoutFrontRef true h₁
          cutnLoop fuel (n - r.length) b₁ out₁ h₂
        else
          let (out₁, h₁) := out.pushOrMoveBackRef false ⟨r.offset, n, r.block⟩ h
          ((b.setFrontRef { r with offset := r.offset + n, length := r.length - n }).subNbytes n,
            out₁, h₁)

/-- `cutn(IOBuf* out, size_t n)`: the bytes cut, this buffer, `out` and the heap. -/
def cutn (n : ℕ) (b out : IOBuf) (h : Heap) : ℕ × IOBuf × IOBuf × Heap :=
  let m := min n b.length
  (m, cutnLoop b.refNum m b out h)

def cutnRawLoop : ℕ → ℕ → IOBuf → Heap → List Byte × IOBuf × Heap
  | 0, _, b, h => ([], b, h)
  | fuel + 1, n, b, h =>
      if n = 0 then ([], b, h)
      else
        let r := b.frontRef
        if r.length ≤ n then
          let bs := h.read r.block r.offset r.length
          let (b₁, h₁) := b.popOrMoveoutFrontRef false h
          let (bs', b₂, h₂) := cutnRawLoop fuel (n - r.length) b₁ h₁
          (bs ++ bs', b₂, h₂)
        else
          (h.read r.block r.offset n,
            (b.setFrontRef { r with offset := r.offset + n, length := r.length - n }).subNbytes n, h)

/-- `cutn(void* out, size_t n)`: the count, the bytes copied to `out`, and the rest. -/
def cutnRaw (n : ℕ) (b : IOBuf) (h : Heap) : ℕ × List Byte × IOBuf × Heap :=
  let m := min n b.length
  (m, cutnRawLoop b.refNum m b h)

/-- `cutn(std::string* out, size_t n)`: the string is made longer first (with
zeros) and then written to. -/
def cutnString (n : ℕ) (out : List Byte) (b : IOBuf) (h : Heap) :
    ℕ × List Byte × IOBuf × Heap :=
  if n = 0 then (0, out, b, h)
  else
    let m := min n b.length
    let (k, bs, b', h') := b.cutnRaw m h
    (k, out ++ bs ++ List.replicate (m - bs.length) 0, b', h')

/-- The byte `fetch1()` returns a pointer to, if any. -/
def fetch1 (b : IOBuf) (h : Heap) : Option Byte :=
  if b.empty then none
  else
    let r := b.frontRef
    some ((h.blk r.block).data r.offset)

/-! ## Appending -/

def pushRefs (move : Bool) : List BlockRef → IOBuf → Heap → IOBuf × Heap
  | [], b, h => (b, h)
  | r :: rs, b, h =>
      let (b₁, h₁) := b.pushOrMoveBackRef move r h
      pushRefs move rs b₁ h₁

/-- `append(const IOBuf& other)`. -/
def appendBuf (b other : IOBuf) (h : Heap) : IOBuf × Heap := pushRefs false other.refList b h

/-- `append(const Movable& other)`; the second result is what is left of `other`. -/
def appendMovable (b other : IOBuf) (h : Heap) : IOBuf × IOBuf × Heap :=
  if b.empty then (other, b, h)
  else
    let (b₁, h₁) := pushRefs true other.refList b h
    (b₁, new, h₁)

def pushBack (c : Byte) (b : IOBuf) (h : Heap) : ℤ × IOBuf × Heap :=
  let (p, h₁) := h.shareTlsBlock
  if p = NULL then (-1, b, h₁)
  else
    let size := (h₁.blk p).size
    let h₂ := (h₁.write p size [c]).setSize p (size + 1)
    (0, b.pushOrMoveBackRef false ⟨size, 1, p⟩ h₂)

/-- The copying loop of `append` and `resize`. The source fills the block
before it pushes the reference, and counts the bytes as used afterwards. -/
def appendLoop : ℕ → List Byte → IOBuf → Heap → ℤ × IOBuf × Heap
  | 0, _, b, h => (0, b, h)
  | fuel + 1, bs, b, h =>
      if bs = [] then (0, b, h)
      else
        let (p, h₁) := h.shareTlsBlock
        if p = NULL then (-1, b, h₁)
        else
          let size := (h₁.blk p).size
          let nc := min bs.length (h₁.blk p).leftSpace
          let h₂ := h₁.write p size (bs.take nc)
          let (b₁, h₃) := b.pushOrMoveBackRef false ⟨size, nc, p⟩ h₂
          appendLoop fuel (bs.drop nc) b₁ (h₃.setSize p ((h₃.blk p).size + nc))

/-- `append(void const* data, size_t count)`; `none` is a null pointer. -/
def append (data : Option (List Byte)) (b : IOBuf) (h : Heap) : ℤ × IOBuf × Heap :=
  match data with
  | none => (-1, b, h)
  | some [c] => b.pushBack c h
  | some bs => appendLoop bs.length bs b h

/-- The inner loop of `appendv`: what fits into `space` bytes, and the rest of
the vector. -/
def fillVec : ℕ → List (List Byte) → List Byte × List (List Byte)
  | _, [] => ([], [])
  | space, v :: vs =>
      if space < v.length then (v.take space, v.drop space :: vs)
      else
        let (bs, rest) := fillVec (space - v.length) vs
        (v ++ bs, rest)

def appendvLoop : ℕ → List (List Byte) → IOBuf → Heap → ℤ × IOBuf × Heap
  | 0, _, b, h => (0, b, h)
  | fuel + 1, vec, b, h =>
      if vec = [] then (0, b, h)
      else
        let (p, h₁) := h.shareTlsBlock
        if p = NULL then (-1, b, h₁)
        else
          let size := (h₁.blk p).size
          let (bs, rest) := fillVec (h₁.blk p).leftSpace vec
          let h₂ := (h₁.write p size bs).setSize p (size + bs.length)
          let (b₁, h₃) := b.pushOrMoveBackRef false ⟨size, bs.length, p⟩ h₂
          appendvLoop fuel rest b₁ h₃

/-- `appendv(const const_iovec* vec, size_t n)`. Every round of the outer loop
finishes an element of the vector or fills a block. -/
def appendv (vec : List (List Byte)) (b : IOBuf) (h : Heap) : ℤ × IOBuf × Heap :=
  appendvLoop (vec.length + vec.flatten.length) vec b h

/-- `resize(size_t n, char c)`. -/
def resize (n : ℕ) (c : Byte) (b : IOBuf) (h : Heap) : ℤ × IOBuf × Heap :=
  if n < b.length then (0, (b.popBack (b.length - n) h).2)
  else appendLoop (n - b.length) (List.replicate (n - b.length) c) b h

/-- `for (; offset != 0 && i < nref; ++i)`: what is left of the offset and of
the references. -/
def skipRefs : ℕ → List BlockRef → ℕ × List BlockRef
  | offset, [] => (offset, [])
  | offset, r :: rs =>
      if offset = 0 then (offset, r :: rs)
      else if offset < r.length then (offset, r :: rs)
      else skipRefs (offset - r.length) rs

def copyToLoop : ℕ → ℕ → List BlockRef → Heap → List Byte
  | _, _, [], _ => []
  | m, offset, r :: rs, h =>
      if m = 0 then []
      else
        let nc := min m (r.length - offset)
        h.read r.block (r.offset + offset) nc ++ copyToLoop (m - nc) 0 rs h

/-- `copy_to(void* buf, size_t n, size_t pos)`: the bytes copied; their number is
what the source returns. -/
def copyTo (n pos : ℕ) (b : IOBuf) (h : Heap) : List Byte :=
  let (offset, rs) := skipRefs pos b.refList
  copyToLoop n offset rs h

def appendToLoop : ℕ → ℕ → List BlockRef → IOBuf → Heap → ℕ × IOBuf × Heap
  | m, _, [], out, h => (m, out, h)
  | m, offset, r :: rs, out, h =>
      if m = 0 then (m, out, h)
      else
        let nc := min m (r.length - offset)
        let (out₁, h₁) := out.pushOrMoveBackRef false ⟨r.offset + offset, nc, r.block⟩ h
        appendToLoop (m - nc) 0 rs out₁ h₁

/-- `append_to(IOBuf* buf, size_t n, size_t pos)`: the count and `buf`. -/
def appendTo (n pos : ℕ) (b buf : IOBuf) (h : Heap) : ℕ × IOBuf × Heap :=
  let (offset, rs) := skipRefs pos b.refList
  let (m, buf₁, h₁) := appendToLoop n offset rs buf h
  (n - m, buf₁, h₁)

end Eabase.IOBuf
