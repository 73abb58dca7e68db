import Eabase.IOBuf.Reading

/-!
# `IOBufBytesIterator`

The iterator keeps the rest of one backing block, the index of the next one and how many bytes
are left, in 32 bits. `copy_and_forward`, `forward` and `append_and_forward` go over the same
pieces and do different things with them; `advance` is their common loop.

The iterator stands in front of a list of references (`Runs`): what remains of the current
one, then the others of the buffer.
-/

namespace Eabase.IOBuf

open List

/-! ## The code -/

/-- The members besides `_buf`. `_block_begin` and `_block_end` are offsets in the data of
`block`. -/
structure BytesIterator where
  block : Ptr
  blockBegin : ℕ
  blockEnd : ℕ
  blockCount : ℕ
  bytesLeft : ℕ

/-- `backing_block(size_t i)`: where its bytes begin, and how many they are. -/
def backingBlock (b : IOBuf) (i : ℕ) : Ptr × ℕ × ℕ :=
  if i < b.refNum then ((b.refAt i).block, (b.refAt i).offset, (b.refAt i).length) else (NULL, 0, 0)

namespace BytesIterator

def tryNextBlock (b : IOBuf) (it : BytesIterator) : BytesIterator :=
  if it.bytesLeft = 0 then it
  else
    let (p, data, size) := b.backingBlock it.blockCount
    ⟨p, data, data + min size it.bytesLeft, it.blockCount + 1, it.bytesLeft⟩

/-- `IOBufBytesIterator(const IOBuf& buf)`. -/
def new (b : IOBuf) : BytesIterator := tryNextBlock b ⟨NULL, 0, 0, 0, IOBuf32.length b % 2 ^ 32⟩

/-- `IOBufBytesIterator(const IOBufBytesIterator& it, size_t bytes_left)`. -/
def limited (n : ℕ) (it : BytesIterator) : BytesIterator :=
  let left := n % 2 ^ 32
  { it with
    bytesLeft := left
    blockEnd := if it.blockBegin + left < it.blockEnd then it.blockBegin + left else it.blockEnd }

/-- `operator*`. -/
def deref (h : Heap) (it : BytesIterator) : Byte := (h.blk it.block).data it.blockBegin

/-- `operator++`. -/
def inc (b : IOBuf) (it : BytesIterator) : BytesIterator :=
  let it' := { it with
    blockBegin := it.blockBegin + 1
    bytesLeft := (it.bytesLeft + (2 ^ 32 - 1)) % 2 ^ 32 }
  if it'.blockBegin = it'.blockEnd then it'.tryNextBlock b else it'

/-- `const size_t block_size = _block_end - _block_begin`. -/
def blockSize (it : BytesIterator) : ℕ :=
  if it.blockBegin ≤ it.blockEnd then it.blockEnd - it.blockBegin else it.blockEnd + 2 ^ 64
    - it.blockBegin

/-- How the loops go on over `k` bytes of the current block. -/
def pass (k : ℕ) (b : IOBuf) (it : BytesIterator) : BytesIterator :=
  let it' := { it with blockBegin := it.blockBegin + k, bytesLeft := it.bytesLeft - k }
  if it'.blockBegin = it'.blockEnd then it'.tryNextBlock b else it'

/-- The loop over at most `n` bytes: these bytes, and the iterator. Every round but the last uses up
a reference. -/
def advance (b : IOBuf) (h : Heap) : ℕ → ℕ → BytesIterator → List Byte × BytesIterator
  | 0, _, it => ([], it)
  | fuel + 1, n, it =>
      if n = 0 ∨ it.bytesLeft = 0 then ([], it)
      else
        let toCopy := min it.blockSize n
        let (bs, it') := advance b h fuel (n - toCopy) (it.pass toCopy b)
        (h.read it.block it.blockBegin toCopy ++ bs, it')

/-- `copy_and_forward(void* buf, size_t n)`: what is stored in `buf`; the source returns how much it
is. -/
def copyAndForward (n : ℕ) (b : IOBuf) (h : Heap) (it : BytesIterator) : List Byte × BytesIterator :=
  advance b h b.refNum n it

/-- `copy_and_forward(std::string* s, size_t n)`: the count, the string and the iterator. -/
def copyAndForwardString (n : ℕ) (s : List Byte) (b : IOBuf) (h : Heap) (it : BytesIterator) :
    ℕ × List Byte × BytesIterator :=
  let s₁ := if s.length < n then resizeString n s else s
  let (bs, it') := it.copyAndForward n b h
  let s₂ := storeAt 0 bs s₁
  (bs.length, if bs.length < n ∧ s.length < n then resizeString bs.length s₂ else s₂, it')

/-- `forward(size_t n)`. -/
def forward (n : ℕ) (b : IOBuf) (h : Heap) (it : BytesIterator) : ℕ × BytesIterator :=
  ((advance b h b.refNum n it).1.length, (advance b h b.refNum n it).2)

/-- The loop of `append_and_forward`: the count, the iterator, `buf` and the heap. -/
def appendLoop (b : IOBuf) : ℕ → ℕ → BytesIterator → IOBuf → Heap → ℕ × BytesIterator × IOBuf × Heap
  | 0, _, it, buf, h => (0, it, buf, h)
  | fuel + 1, n, it, buf, h =>
      if n = 0 ∨ it.bytesLeft = 0 then (0, it, buf, h)
      else
        let r := b.refAt (it.blockCount - 1)
        let toCopy := min it.blockSize n
        let (buf₁, h₁) := buf.pushOrMoveBackRef false ⟨it.blockBegin, toCopy, r.block⟩ h
        let (nc, it', buf₂, h₂) := appendLoop b fuel (n - toCopy) (it.pass toCopy b) buf₁ h₁
        (toCopy + nc, it', buf₂, h₂)

/-- `append_and_forward(IOBuf* buf, size_t n)`. -/
def appendAndForward (n : ℕ) (b : IOBuf) (it : BytesIterator) (buf : IOBuf) (h : Heap) :
    ℕ × BytesIterator × IOBuf × Heap :=
  appendLoop b b.refNum n it buf h

/-- The references to the next `n` bytes. -/
def refsAhead (n : ℕ) (b : IOBuf) (it : BytesIterator) : List BlockRef :=
  IOBuf32.takeRefs (min n it.bytesLeft)
    (⟨it.blockBegin, it.blockSize, it.block⟩ :: b.refs.drop it.blockCount)

/-- `forward_one_block(const void** data, size_t* size)`; `none` is `false`. -/
def forwardOneBlock (b : IOBuf) (it : BytesIterator) : Option (Ptr × ℕ × ℕ) × BytesIterator :=
  if it.bytesLeft = 0 then (none, it)
  else
    (some (it.block, it.blockBegin, it.blockSize),
      tryNextBlock b { it with bytesLeft := it.bytesLeft - it.blockSize })

end BytesIterator

open Heap

open BytesIterator

open IOBuf32

/-! ## The pieces ahead -/

section

variable {b buf : IOBuf} {h : Heap} {it : BytesIterator} {n k : ℕ} {cur : BlockRef}
    {todo rest : List BlockRef}

/-- The iterator has a block, and its rest is the reference `cur`. -/
structure BytesIterator.InBlock (b : IOBuf) (it : BytesIterator) (cur : BlockRef)
    (rest : List BlockRef) : Prop where
  block : it.block = cur.block
  begins : it.blockBegin = cur.offset
  ends : it.blockEnd = cur.offset + min cur.length it.bytesLeft
  next : b.refs.drop it.blockCount = rest
  count : 0 < it.blockCount
  ref : (b.refAt (it.blockCount - 1)).block = cur.block

/-- The iterator goes over the first `bytesLeft` bytes of `todo`. -/
structure BytesIterator.Runs (b : IOBuf) (it : BytesIterator) (todo : List BlockRef) : Prop where
  left : it.bytesLeft ≤ sumLen todo
  lt : it.bytesLeft < 2 ^ 32
  within : ∀ r ∈ todo, ∃ r' ∈ b.refs, r.block = r'.block ∧ r.stop ≤ r'.stop
  inBlock : it.bytesLeft ≠ 0 → ∃ cur rest, todo = cur :: rest ∧ it.InBlock b cur rest

namespace BytesIterator

theorem tryNextBlock_left : (it.tryNextBlock b).bytesLeft = it.bytesLeft := by
  rw [tryNextBlock]
  split
  · rfl
  · rfl

theorem tryNextBlock_runs (hb : b.ViewWF) (hnext : b.refs.drop it.blockCount = todo)
    (hleft : it.bytesLeft ≤ sumLen todo)
    (hlt : it.bytesLeft < 2 ^ 32) : (it.tryNextBlock b).Runs b todo := by
  constructor
  · rwa [tryNextBlock_left]
  · rwa [tryNextBlock_left]
  · intro r hr
    rw [← hnext] at hr
    exact ⟨r, mem_of_mem_drop hr, rfl, le_rfl⟩
  · rw [tryNextBlock_left]
    intro hne
    have hidx : it.blockCount < b.refNum := by
      rw [refNum_eq hb]
      by_contra hge
      rw [drop_eq_nil_of_le (Nat.not_lt.1 hge)] at hnext
      rw [← hnext, sumLen_nil] at hleft
      exact hne (Nat.le_zero.1 hleft)
    have hdrop := drop_refs hb hidx
    rw [hnext] at hdrop
    refine ⟨b.refAt it.blockCount, b.refs.drop (it.blockCount + 1), hdrop, ?_⟩
    rw [tryNextBlock, if_neg hne, backingBlock, if_pos hidx]
    exact ⟨rfl, rfl, rfl, rfl, Nat.succ_pos _, rfl⟩

theorem blockSize_eq (B : it.InBlock b cur rest) : it.blockSize = min cur.length it.bytesLeft := by
  rw [blockSize, B.ends, B.begins, if_pos (Nat.le_add_right _ _), Nat.add_sub_cancel_left]

/-- Going over `k` bytes of the block: the piece ahead is shorter, or the next one is ahead. -/
theorem Runs.pass (hb : b.ViewWF) (H : it.Runs b (cur :: rest)) (B : it.InBlock b cur rest)
    (hk : k ≤ min cur.length it.bytesLeft) : ∃ todo', (it.pass k b).Runs b todo' ∧
    (it.pass k b).bytesLeft = it.bytesLeft - k ∧
      (∀ h : Heap, h.content todo' = (h.content (cur :: rest)).drop k) ∧
      (k < min cur.length it.bytesLeft ∨ (it.pass k b).bytesLeft = 0 ∨ todo' = rest) := by
  have hkc : k ≤ cur.length := hk.trans (min_le_left _ _)
  have hkl : k ≤ it.bytesLeft := hk.trans (min_le_right _ _)
  have hleft := H.left
  rw [sumLen_cons] at hleft
  have hlt : it.bytesLeft - k < 2 ^ 32 := (Nat.sub_le _ _).trans_lt H.lt
  have hbytes : (it.pass k b).bytesLeft = it.bytesLeft - k := by
    simp only [BytesIterator.pass]
    split
    · rw [tryNextBlock_left]
    · rfl
  have hrest : ∀ h : Heap, h.content (cur.rest k :: rest) = (h.content (cur :: rest)).drop k := by
    intro h
    rw [content_cons, content_cons, bytes_rest hkc, append_assoc]
    exact (drop_left' (by rw [read_length])).symm
  have hwithin : ∀ r ∈ cur.rest k :: rest, ∃ r' ∈ b.refs, r.block = r'.block ∧ r.stop ≤ r'.stop := by
    intro r hr
    rcases mem_cons.1 hr with rfl | hr
    · obtain ⟨r', hmem, hblock, hstop⟩ := H.within cur mem_cons_self
      refine ⟨r', hmem, hblock, ?_⟩
      change cur.offset + k + (cur.length - k) ≤ r'.stop
      rw [BlockRef.stop] at hstop
      lia
    · exact H.within r (mem_cons_of_mem _ hr)
  by_cases hend : it.blockBegin + k = it.blockEnd
  · have hkeq : k = min cur.length it.bytesLeft := by
      rw [B.begins, B.ends] at hend
      exact Nat.add_left_cancel hend
    have hpass : it.pass k b = tryNextBlock b
        { it with blockBegin := it.blockBegin + k, bytesLeft := it.bytesLeft - k } := by
      simp only [BytesIterator.pass]
      rw [if_pos hend]
    rcases le_total cur.length it.bytesLeft with hle | hle
    · -- the whole reference is behind the iterator
      have hkc' : k = cur.length := by rw [hkeq, min_eq_left hle]
      refine ⟨rest, ?_, hbytes, ?_, .inr (.inr rfl)⟩
      · rw [hpass]
        apply tryNextBlock_runs hb
        · exact B.next
        · change it.bytesLeft - k ≤ sumLen rest
          lia
        · exact hlt
      · intro h
        rw [content_cons, hkc']
        exact (drop_left' (bytes_length h cur)).symm
    · -- no byte is left, so there is no next block
      have hzero : (it.pass k b).bytesLeft = 0 := by
        rw [hbytes, hkeq, min_eq_right hle, Nat.sub_self]
      refine ⟨cur.rest k :: rest, ?_, hbytes, hrest, .inr (.inl hzero)⟩
      constructor
      · rw [hzero]
        exact Nat.zero_le _
      · rw [hzero]
        decide
      · exact hwithin
      · exact fun hne => absurd hzero hne
  · have hpass : it.pass k b = { it with blockBegin := it.blockBegin + k, bytesLeft := it.bytesLeft
      - k } := by
      simp only [BytesIterator.pass]
      rw [if_neg hend]
    have hklt : k < min cur.length it.bytesLeft := by
      apply lt_of_le_of_ne hk
      rintro rfl
      exact hend (by rw [B.begins, B.ends])
    refine ⟨cur.rest k :: rest, ?_, hbytes, hrest, .inl hklt⟩
    constructor
    · rw [hbytes, sumLen_cons]
      change it.bytesLeft - k ≤ cur.length - k + sumLen rest
      lia
    · rwa [hbytes]
    · exact hwithin
    · intro _
      refine ⟨cur.rest k, rest, rfl, ?_⟩
      rw [hpass]
      constructor
      · exact B.block
      · exact congrArg (· + k) B.begins
      · change it.blockEnd = cur.offset + k + min (cur.length - k) (it.bytesLeft - k)
        rw [B.ends]
        lia
      · exact B.next
      · exact B.count
      · exact B.ref

def ahead (it : BytesIterator) (h : Heap) (todo : List BlockRef) : List Byte :=
  (h.content todo).take it.bytesLeft

theorem Runs.ahead_length (H : it.Runs b todo) : (it.ahead h todo).length = it.bytesLeft := by
  rw [ahead, length_take, content_length]
  exact min_eq_left H.left

variable {it' : BytesIterator}

theorem Runs.ahead_drop {todo' : List BlockRef} (hleft : it'.bytesLeft = it.bytesLeft - k)
    (hcontent : h.content todo' = (h.content todo).drop k) :
    it'.ahead h todo' = (it.ahead h todo).drop k := by
  rw [ahead, ahead, hleft, hcontent, drop_take]

theorem InBlock.read (B : it.InBlock b cur rest) (hk : k ≤ min cur.length it.bytesLeft) :
    h.read it.block it.blockBegin k = (it.ahead h (cur :: rest)).take k := by
  have hkc : k ≤ cur.length := hk.trans (min_le_left _ _)
  rw [ahead, take_take, min_eq_left (hk.trans (min_le_right _ _)), content_cons,
    take_append_of_le_length (by rwa [bytes_length]), B.block, B.begins]
  exact (read_take hkc).symm

/-- What an advance by `k` bytes leaves. -/
structure Advances (b : IOBuf) (it it' : BytesIterator) (todo todo' : List BlockRef) (k : ℕ) : Prop where
  runs : it'.Runs b todo'
  left : it'.bytesLeft = it.bytesLeft - k
  content : ∀ h : Heap, h.content todo' = (h.content todo).drop k

theorem Advances.ahead {todo' : List BlockRef} (A : Advances b it it' todo todo' k) :
    it'.ahead h todo' = (it.ahead h todo).drop k := Runs.ahead_drop A.left (A.content h)

theorem Runs.length_le (hb : b.ViewWF) (H : it.Runs b todo) (hne : it.bytesLeft ≠ 0) :
    todo.length ≤ b.refNum := by
  obtain ⟨cur, rest, rfl, B⟩ := H.inBlock hne
  obtain ⟨r, hr, -⟩ := H.within cur mem_cons_self
  have hpos : 0 < b.refs.length := length_pos_of_mem hr
  have hcount := B.count
  rw [refNum_eq hb, ← B.next, length_cons, length_drop]
  lia

variable {fuel : ℕ}

theorem advance_idle (h : Heap) (hidle : min n it.bytesLeft = 0) : advance b h fuel n it = ([], it) := by
  cases fuel with
  | zero => rfl
  | succ fuel =>
    rw [advance, if_pos]
    exact Nat.min_eq_zero_iff.1 hidle

theorem add_min_sub {k n left : ℕ} (hn : k ≤ n) (hleft : k ≤ left) : k + min (n - k) (left - k)
      = min n left := by
  rw [Nat.sub_min_sub_right]
  exact Nat.add_sub_cancel' (le_min hn hleft)

theorem Runs.wants_nothing (H : it.Runs b []) : min n it.bytesLeft = 0 := by
  have hleft := H.left
  rw [sumLen_nil] at hleft
  rw [Nat.le_zero.1 hleft, Nat.min_zero]

/-- A round of the loop passes the first `k` bytes; then nothing is wanted, nothing is left, or the
list is shorter. -/
theorem Runs.piece (hb : b.ViewWF) (H : it.Runs b todo) (hne : min n it.bytesLeft ≠ 0)
    (hfuel : todo.length ≤ fuel + 1) (hk : k = min it.blockSize n) :
    ∃ cur rest todo1, todo = cur :: rest ∧ it.InBlock b cur rest ∧ k ≤ min cur.length it.bytesLeft ∧
    k ≤ n ∧
      Advances b it (it.pass k b) todo todo1 k ∧
      (min (n - k) (it.pass k b).bytesLeft ≠ 0 → todo1.length ≤ fuel) ∧
      takeRefs (min n it.bytesLeft) todo =
        ⟨cur.offset, k, cur.block⟩ :: takeRefs (min (n - k) (it.pass k b).bytesLeft) todo1 := by
  obtain ⟨cur, rest, rfl, B⟩ := H.inBlock fun h0 => hne (by rw [h0, Nat.min_zero])
  have hsize := blockSize_eq B
  have hkle : k ≤ min cur.length it.bytesLeft := by
    rw [hk, hsize]
    exact min_le_left _ _
  have hkn : k ≤ n := by
    rw [hk]
    exact min_le_right _ _
  obtain ⟨todo1, H1, hleft, hcontent, hcase⟩ := H.pass hb B hkle
  rw [hsize] at hk
  rcases hcase with hlt | hnone | rfl
  · -- the piece is shorter than the block, so it is all that is wanted
    have hkeq : k = n := by lia
    refine ⟨cur, rest, todo1, rfl, B, hkle, hkn, ⟨H1, hleft, hcontent⟩, fun hmore => absurd hmore ?_, ?_⟩
    · rw [hkeq, Nat.sub_self, Nat.zero_min]
      exact not_not.2 rfl
    · rw [takeRefs, if_neg hne, if_pos (by lia), hkeq, Nat.sub_self, Nat.zero_min, takeRefs_zero,
        min_eq_left (by lia)]
  · -- no byte is left
    refine ⟨cur, rest, todo1, rfl, B, hkle, hkn, ⟨H1, hleft, hcontent⟩, fun hmore => absurd hmore ?_, ?_⟩
    · rw [hnone, Nat.min_zero]
      exact not_not.2 rfl
    · have hwant : min n it.bytesLeft = k := by lia
      rw [hnone, Nat.min_zero, takeRefs_zero, hwant, takeRefs, if_neg (hwant ▸ hne)]
      split
      · rfl
      · obtain rfl : k = cur.length := by lia
        rw [Nat.sub_self, takeRefs_zero]
  · -- the whole reference is behind the iterator
    have hkc : k = cur.length := by
      have hsum := congrArg List.length (hcontent (.init (fun _ _ => 0) fun _ => false))
      rw [length_drop, content_length, content_length, sumLen_cons] at hsum
      lia
    refine ⟨cur, todo1, todo1, rfl, B, hkle, hkn, ⟨H1, hleft, hcontent⟩,
      fun _ => Nat.le_of_succ_le_succ hfuel, ?_⟩
    rw [takeRefs, if_neg hne, if_neg (by lia), hleft, Nat.sub_min_sub_right, hkc]

theorem advance_spec (hb : b.ViewWF) (h : Heap) : ∀ (fuel n : ℕ) (it : BytesIterator)
    (todo : List BlockRef), it.Runs b todo →
    (min n it.bytesLeft ≠ 0 → todo.length ≤ fuel) →
    ∃ todo', Advances b it (advance b h fuel n it).2 todo todo' (min n it.bytesLeft) ∧
      (advance b h fuel n it).1 = (it.ahead h todo).take n := by
  have hidle : ∀ (fuel n : ℕ) (it : BytesIterator) (todo : List BlockRef), it.Runs b todo →
      min n it.bytesLeft = 0 →
      ∃ todo', Advances b it (advance b h fuel n it).2 todo todo' (min n it.bytesLeft) ∧
        (advance b h fuel n it).1 = (it.ahead h todo).take n := by
    intro fuel n it todo H hzero
    rw [advance_idle h hzero, hzero]
    refine ⟨todo, ⟨H, rfl, fun _ => rfl⟩, ?_⟩
    rw [ahead, take_take, hzero, take_zero]
  intro fuel
  induction fuel with
  | zero =>
    intro n it todo H hfuel
    apply hidle 0 n it todo H
    by_contra hne
    obtain rfl : todo = [] := eq_nil_of_length_eq_zero (Nat.le_zero.1 (hfuel hne))
    exact hne H.wants_nothing
  | succ fuel ih =>
    intro n it todo H hfuel
    by_cases hzero : min n it.bytesLeft = 0
    · exact hidle _ n it todo H hzero
    obtain ⟨k, hk⟩ : ∃ k, k = min it.blockSize n := ⟨_, rfl⟩
    obtain ⟨cur, rest, todo1, rfl, B, hkle, hkn, A1, hfuel1, -⟩ := H.piece hb hzero (hfuel hzero) hk
    have hkl : k ≤ it.bytesLeft := hkle.trans (min_le_right _ _)
    obtain ⟨todo', A, hbs⟩ := ih (n - k) _ todo1 A1.runs hfuel1
    rw [advance, if_neg fun hor => hzero (Nat.min_eq_zero_iff.2 hor)]
    simp only [← hk]
    refine ⟨todo', ⟨A.runs, ?_, ?_⟩, ?_⟩
    · rw [A.left, A1.left, Nat.sub_sub, add_min_sub hkn hkl]
    · intro h'
      rw [A.content, A1.content, drop_drop, A1.left, add_min_sub hkn hkl]
    · rw [hbs, A1.ahead, B.read hkle, ← take_add, Nat.add_sub_cancel' hkn]

/-! ## The operations -/

theorem Runs.passes (hb : b.ViewWF) (H : it.Runs b todo) (n : ℕ) (h : Heap) :
    ∃ todo', Advances b it (advance b h b.refNum n it).2 todo todo' (min n it.bytesLeft) ∧
      (advance b h b.refNum n it).1 = (it.ahead h todo).take n := by
  apply advance_spec hb h _ n it todo H
  intro hne
  exact H.length_le hb fun h0 => hne (by rw [h0, Nat.min_zero])

theorem inc_eq (hne : it.bytesLeft ≠ 0) (hlt : it.bytesLeft < 2 ^ 32) : it.inc b = it.pass 1 b := by
  have hdec : (it.bytesLeft + (2 ^ 32 - 1)) % 2 ^ 32 = it.bytesLeft - 1 := by lia
  simp only [inc, pass, hdec]

theorem Runs.inc (hb : b.ViewWF) (H : it.Runs b todo) (hne : it.bytesLeft ≠ 0)
    (hblock : it.blockBegin ≠ it.blockEnd) :
    ∃ todo', Advances b it (it.inc b) todo todo' 1 ∧ [it.deref h] = (it.ahead h todo).take 1 := by
  obtain ⟨cur, rest, rfl, B⟩ := H.inBlock hne
  have hone : 1 ≤ min cur.length it.bytesLeft := by
    rw [Nat.one_le_iff_ne_zero]
    intro h0
    apply hblock
    rw [B.begins, B.ends, h0, add_zero]
  obtain ⟨todo', H', hleft, hcontent, -⟩ := H.pass hb B hone
  rw [inc_eq hne H.lt]
  refine ⟨todo', ⟨H', hleft, hcontent⟩, ?_⟩
  rw [← B.read hone]
  rfl

theorem Runs.oneBlock (hb : b.ViewWF) (H : it.Runs b todo) (hne : it.bytesLeft ≠ 0) :
    ∃ todo', Advances b it (it.forwardOneBlock b).2 todo todo' it.blockSize ∧
    it.blockSize ≤ it.bytesLeft ∧
      (it.forwardOneBlock b).1 = some (it.block, it.blockBegin, it.blockSize) ∧
      h.read it.block it.blockBegin it.blockSize = (it.ahead h todo).take it.blockSize := by
  obtain ⟨cur, rest, rfl, B⟩ := H.inBlock hne
  have hsize := blockSize_eq B
  have hsizele : it.blockSize ≤ min cur.length it.bytesLeft := hsize.le
  have hone : it.forwardOneBlock b = (some (it.block, it.blockBegin, it.blockSize),
      tryNextBlock b { it with bytesLeft := it.bytesLeft
        - it.blockSize }) := by rw [forwardOneBlock, if_neg hne]
  have hleft := H.left
  rw [sumLen_cons] at hleft
  have hlt : it.bytesLeft - it.blockSize < 2 ^ 32 := (Nat.sub_le _ _).trans_lt H.lt
  have hbytes : (tryNextBlock b { it with bytesLeft := it.bytesLeft - it.blockSize }).bytesLeft
      = it.bytesLeft - it.blockSize :=
    tryNextBlock_left
  rw [hone]
  rcases le_total cur.length it.bytesLeft with hle | hle
  · have hall : it.blockSize = cur.length := by rw [hsize, min_eq_left hle]
    refine ⟨rest, ⟨?_, hbytes, ?_⟩, ?_, rfl, B.read hsizele⟩
    · apply tryNextBlock_runs hb
      · exact B.next
      · change it.bytesLeft - it.blockSize ≤ sumLen rest
        lia
      · exact hlt
    · intro h'
      rw [content_cons, hall]
      exact (drop_left' (bytes_length h' cur)).symm
    · rwa [hall]
  · have hall : it.blockSize = it.bytesLeft := by rw [hsize, min_eq_right hle]
    obtain ⟨todo', H', hpass, hcontent, -⟩ := H.pass hb B hsizele
    refine ⟨todo', ⟨?_, hbytes, hcontent⟩, hall.le, rfl, B.read hsizele⟩
    have hzero : (tryNextBlock b { it with bytesLeft := it.bytesLeft - it.blockSize }).bytesLeft = 0 := by
      rw [hbytes, hall, Nat.sub_self]
    constructor
    · rw [hzero]
      exact Nat.zero_le _
    · rw [hzero]
      decide
    · exact H'.within
    · exact fun h0 => absurd hzero h0

theorem Runs.limited (H : it.Runs b todo) (hn : n ≤ it.bytesLeft) :
    (it.limited n).Runs b todo ∧ (it.limited n).bytesLeft = n := by
  have hmod : n % 2 ^ 32 = n := Nat.mod_eq_of_lt (hn.trans_lt H.lt)
  have hleft : (it.limited n).bytesLeft = n := hmod
  refine ⟨?_, hleft⟩
  constructor
  · rw [hleft]
    exact hn.trans H.left
  · rw [hleft]
    exact hn.trans_lt H.lt
  · exact H.within
  · rw [hleft]
    intro hne
    obtain ⟨cur, rest, rfl, B⟩ := H.inBlock (by lia)
    refine ⟨cur, rest, rfl, B.block, B.begins, ?_, B.next, B.count, B.ref⟩
    rw [hleft]
    simp only [limited, hmod]
    rw [B.begins, B.ends]
    split <;> lia

theorem new_runs (hb : b.ViewWF) (hlen : (h.content b.refs).length < 2 ^ 32) :
    (new b).Runs b b.refs ∧ (new b).bytesLeft = (h.content b.refs).length := by
  have hlen' := hlen
  rw [content_length] at hlen' ⊢
  have h32 : IOBuf32.length b % 2 ^ 32 = sumLen b.refs := by
    rw [IOBuf32.length_eq hb fun _ => hlen']
    exact Nat.mod_eq_of_lt hlen'
  refine ⟨?_, ?_⟩
  · apply tryNextBlock_runs hb
    · exact drop_zero
    · exact h32.le
    · exact h32 ▸ hlen'
  · rw [new, tryNextBlock_left]
    exact h32

theorem storeAt_length {bs s : List Byte} (hle : bs.length ≤ s.length) : (storeAt 0 bs s).length
      = s.length := by
  rw [storeAt, take_zero, nil_append, length_append, length_drop]
  lia

/-- The string that is too short becomes what was copied; another one keeps its end. -/
theorem copyAndForwardString_eq (n : ℕ) (s : List Byte) (hle : (it.copyAndForward n b h).1.length ≤ n) :
    it.copyAndForwardString n s b h = ((it.copyAndForward n b h).1.length,
      if s.length < n then (it.copyAndForward n b h).1
      else (it.copyAndForward n b h).1 ++ s.drop (it.copyAndForward n b h).1.length,
      (it.copyAndForward n b h).2) := by
  simp only [copyAndForwardString]
  obtain ⟨bs, hbs⟩ : ∃ bs, bs = (it.copyAndForward n b h).1 := ⟨_, rfl⟩
  rw [← hbs] at hle ⊢
  have hstore : ∀ t : List Byte, storeAt 0 bs t = bs ++ t.drop bs.length := by
    intro t
    rw [storeAt, take_zero, nil_append, zero_add]
  by_cases hshort : s.length < n
  · have hlen : (resizeString n s).length = n := by
      rw [resizeString, length_append, length_take, length_replicate]
      lia
    simp only [if_pos hshort]
    by_cases hless : bs.length < n
    · have hstored : (storeAt 0 bs (resizeString n s)).length
        = n := by rw [storeAt_length (by rwa [hlen]), hlen]
      rw [if_pos ⟨hless, hshort⟩, resizeString, hstored, Nat.sub_eq_zero_of_le hle, replicate_zero,
        append_nil,
        hstore, take_left]
    · rw [if_neg fun hand => hless hand.1, hstore, drop_eq_nil_of_le (by lia), append_nil]
  · simp only [if_neg hshort]
    rw [if_neg fun hand => hshort hand.2, hstore]

theorem appendLoop_it (h0 : Heap) : ∀ (fuel n : ℕ) (it : BytesIterator) (buf : IOBuf) (h : Heap),
    (appendLoop b fuel n it buf h).2.1 = (advance b h0 fuel n it).2 := by
  intro fuel
  induction fuel with
  | zero => exact fun _ _ _ _ => rfl
  | succ fuel ih =>
    intro n it buf h
    rw [appendLoop, advance]
    split
    · rfl
    · exact ih _ _ _ _

variable {l : List Ptr} {Y : Multiset BlockRef} {K : Multiset Ptr} {S : Ptr → Option ℕ}

/-- Reference counts aside, a heap in which the buffer is still held has the same bytes ahead. -/
theorem Runs.ahead_refOnly {h' : Heap} (H : it.Runs b todo) (hY : ∀ r ∈ b.refs, r ∈ Y)
    (R : Rep false h' l buf Y K S)
    (hf : Heap.RefOnly h h') : it.ahead h' todo = it.ahead h todo := by
  rw [ahead, ahead]
  congr 1
  apply content_congr
  intro r hr
  obtain ⟨r', hmem, hblock, -⟩ := H.within r hr
  apply hf.bytes
  rw [hblock]
  exact R.inv.pos_of_ref (Multiset.mem_add.2 (.inr (hY r' hmem)))

theorem appendLoop_spec (hb : b.ViewWF) (hY : ∀ r ∈ b.refs, r ∈ Y) : ∀ (fuel n : ℕ)
    (it : BytesIterator) (todo : List BlockRef)
    (buf : IOBuf) (h : Heap), it.Runs b todo → (min n it.bytesLeft ≠ 0 → todo.length ≤ fuel) →
    Rep false h l buf Y K S →
    Rep false (appendLoop b fuel n it buf h).2.2.2 l (appendLoop b fuel n it buf h).2.2.1 Y K S ∧
      Heap.RefOnly h (appendLoop b fuel n it buf h).2.2.2 ∧ (appendLoop b fuel n it buf h).1
        = min n it.bytesLeft ∧
      (appendLoop b fuel n it buf h).2.2.2.content (appendLoop b fuel n it buf h).2.2.1.refs
        = h.content buf.refs ++ (it.ahead h todo).take n ∧
      (appendLoop b fuel n it buf h).2.2.1.refs
        = (takeRefs (min n it.bytesLeft) todo).foldl mergePush buf.refs := by
  have hidle : ∀ (fuel n : ℕ) (it : BytesIterator) (todo : List BlockRef) (buf : IOBuf) (h : Heap),
      min n it.bytesLeft = 0 →
      appendLoop b fuel n it buf h = (0, it, buf, h) ∧ (it.ahead h todo).take n = [] := by
    intro fuel n it todo buf h hzero
    refine ⟨?_, by rw [ahead, take_take, hzero, take_zero]⟩
    cases fuel with
    | zero => rfl
    | succ fuel => rw [appendLoop, if_pos (Nat.min_eq_zero_iff.1 hzero)]
  intro fuel
  induction fuel with
  | zero =>
    intro n it todo buf h H hfuel R
    have hzero : min n it.bytesLeft = 0 := by
      by_contra hne
      obtain rfl : todo = [] := eq_nil_of_length_eq_zero (Nat.le_zero.1 (hfuel hne))
      exact hne H.wants_nothing
    obtain ⟨hret, htake⟩ := hidle 0 n it todo buf h hzero
    rw [hret, htake, hzero, append_nil, takeRefs_zero]
    exact ⟨R, .refl h, rfl, rfl, rfl⟩
  | succ fuel ih =>
    intro n it todo buf h H hfuel R
    by_cases hzero : min n it.bytesLeft = 0
    · obtain ⟨hret, htake⟩ := hidle (fuel + 1) n it todo buf h hzero
      rw [hret, htake, hzero, append_nil, takeRefs_zero]
      exact ⟨R, .refl h, rfl, rfl, rfl⟩
    obtain ⟨k, hk⟩ : ∃ k, k = min it.blockSize n := ⟨_, rfl⟩
    obtain ⟨cur, rest, todo1, rfl, B, hkle, hkn, A1, hfuel1, htaken⟩ := H.piece hb hzero (hfuel hzero) hk
    have hkc : k ≤ cur.length := hkle.trans (min_le_left _ _)
    have hkl : k ≤ it.bytesLeft := hkle.trans (min_le_right _ _)
    -- the piece is a part of a reference of the buffer that is read
    have hpiece : (⟨it.blockBegin, k, (b.refAt (it.blockCount - 1)).block⟩ : BlockRef)
        = ⟨cur.offset, k, cur.block⟩ := by
      rw [B.begins, B.ref]
    have hbytes : h.bytes ⟨cur.offset, k, cur.block⟩ = (it.ahead h (cur :: rest)).take k := by
      rw [← B.read hkle, B.block, B.begins]
      rfl
    obtain ⟨r', hmem, hblock, hstop⟩ := H.within cur mem_cons_self
    have hmemY : r' ∈ (buf.refs : Multiset BlockRef) + Y := Multiset.mem_add.2 (.inr (hY r' hmem))
    have hstop' : (⟨cur.offset, k, cur.block⟩ : BlockRef).stop ≤ h.lim S cur.block := by
      rw [hblock]
      refine le_trans ?_ (R.inv.bound r' hmemY)
      exact (Nat.add_le_add_left hkc _).trans hstop
    rcases hpush : buf.pushOrMoveBackRef false ⟨cur.offset, k, cur.block⟩ h with ⟨buf1, h1⟩
    have hlive : 0 < (h.blk (⟨cur.offset, k, cur.block⟩ : BlockRef).block).nshared := by
      rw [hblock]
      exact R.inv.pos_of_ref hmemY
    obtain ⟨R1, hf1, hc1⟩ := R.push hlive hstop' (fun hpos => absurd hpos (by decide)) hpush
    have hrefs1 := refs_pushOrMoveBackRef false (h := h) R.wf (r := ⟨cur.offset, k, cur.block⟩)
      (R.inv.live _ hlive).1.ne'
    rw [hpush] at hrefs1
    obtain ⟨R2, hf2, hn2, hc2, hrefs2⟩ := ih (n - k) _ todo1 buf1 h1 A1.runs hfuel1 R1
    have hsame : (it.pass k b).ahead h1 todo1 = (it.pass k b).ahead h todo1 :=
      A1.runs.ahead_refOnly hY R1 hf1
    rw [appendLoop, if_neg fun hor => hzero (Nat.min_eq_zero_iff.2 hor)]
    simp only [← hk, hpiece, hpush]
    refine ⟨R2, hf1.trans hf2, ?_, ?_, ?_⟩
    · rw [hn2, A1.left, add_min_sub hkn hkl]
    · rw [hc2, hc1, hbytes, append_assoc]
      congr 1
      rw [hsame, A1.ahead, ← take_add, Nat.add_sub_cancel' hkn]
    · rw [hrefs2, htaken, foldl_cons, hrefs1]

theorem Runs.refsAhead_eq (H : it.Runs b todo) (n : ℕ) :
    it.refsAhead n b = takeRefs (min n it.bytesLeft) todo := by
  rw [refsAhead]
  by_cases hzero : min n it.bytesLeft = 0
  · rw [hzero, takeRefs_zero, takeRefs_zero]
  obtain ⟨cur, rest, rfl, B⟩ := H.inBlock fun h0 => hzero (by rw [h0, Nat.min_zero])
  rw [blockSize_eq B, B.begins, B.block, B.next, takeRefs, takeRefs, if_neg hzero, if_neg hzero]
  dsimp only
  rcases le_total cur.length it.bytesLeft with hle | hle
  · rw [min_eq_left hle]
  · -- the block ends with the last byte
    rw [min_eq_right hle]
    split
    · rw [if_pos (by lia)]
    · have hall : min n it.bytesLeft = it.bytesLeft := by lia
      rw [hall, Nat.sub_self, takeRefs_zero]
      split
      · rfl
      · obtain hsame : it.bytesLeft = cur.length := by lia
        rw [hsame, Nat.sub_self, takeRefs_zero]

theorem Runs.append (hb : b.ViewWF) (H : it.Runs b todo) (hY : ∀ r ∈ b.refs, r ∈ Y)
    (R : Rep false h l buf Y K S) (n : ℕ) :
    Rep false (it.appendAndForward n b buf h).2.2.2 l (it.appendAndForward n b buf h).2.2.1 Y K S ∧
      Heap.RefOnly h (it.appendAndForward n b buf h).2.2.2 ∧ (it.appendAndForward n b buf h).1
        = min n it.bytesLeft ∧
      (it.appendAndForward n b buf h).2.2.2.content (it.appendAndForward n b buf h).2.2.1.refs
        = h.content buf.refs ++ (it.ahead h todo).take n ∧
      (it.appendAndForward n b buf h).2.2.1.refs = (it.refsAhead n b).foldl mergePush buf.refs := by
  rw [H.refsAhead_eq]
  apply appendLoop_spec hb hY _ n it todo buf h H ?_ R
  intro hne
  exact H.length_le hb fun h0 => hne (by rw [h0, Nat.min_zero])

end BytesIterator

end

/-! ## Any calls -/

section

variable {ι κ : Type} [DecidableEq ι]

/-- `limit` goes on with a copy that has fewer bytes left; `append` is to buffer `j`. -/
inductive IterCall (ι : Type) where
  | inc
  | copy (n : ℕ)
  | copyString (n : ℕ) (s : List Byte)
  | forward (n : ℕ)
  | oneBlock
  | append (j : ι) (n : ℕ)
  | limit (n : ℕ)

/-- The iterator over buffer `i`, the bytes it went over, and how far it is to go. -/
structure IterState (ι κ : Type) where
  world : World ι κ
  it : BytesIterator
  log : List Byte
  ends : ℕ

variable {i : ι}

def IterState.init (i : ι) (W : World ι κ) : IterState ι κ :=
  ⟨W, .new (W.portal i).buf, [], (W.heap.content (W.portal i).buf.refs).length⟩

def IterState.step (i : ι) (s : IterState ι κ) : IterCall ι → IterState ι κ
  | .inc => { s with it := s.it.inc (s.world.portal i).buf, log := s.log ++ [s.it.deref s.world.heap] }
  | .copy n =>
      let (bs, it') := s.it.copyAndForward n (s.world.portal i).buf s.world.heap
      { s with it := it', log := s.log ++ bs }
  | .copyString n str =>
      let out := s.it.copyAndForwardString n str (s.world.portal i).buf s.world.heap
      { s with it := out.2.2, log := s.log ++ out.2.1.take out.1 }
  | .forward n =>
      { s with
        it := (s.it.forward n (s.world.portal i).buf s.world.heap).2
        log := s.log ++ (s.it.copyAndForward n (s.world.portal i).buf s.world.heap).1 }
  | .oneBlock =>
      match s.it.forwardOneBlock (s.world.portal i).buf with
      | (none, it') => { s with it := it' }
      | (some (p, off, size), it') => { s with it := it', log := s.log ++ s.world.heap.read p off size }
  | .append j n =>
      let out := s.it.appendAndForward n (s.world.portal i).buf (s.world.portal j).buf s.world.heap
      { s with
        world := s.world.onPortal j fun P h =>
          let out := s.it.appendAndForward n (s.world.portal i).buf P.buf h
          ({ P with buf := out.2.2.1 }, out.2.2.2)
        it := out.2.1
        log := s.log ++ (out.2.2.2.content out.2.2.1.refs).drop
          (s.world.heap.content (s.world.portal j).buf.refs).length }
  | .limit n => { s with it := s.it.limited n, ends := s.log.length + n }

def IterState.run (i : ι) (s : IterState ι κ) (calls : List (IterCall ι)) : IterState ι κ :=
  calls.foldl (·.step i) s

/-- What `append_and_forward` appends to buffer `j` fits there. -/
def AppendFits (i : ι) (W : World ι κ) (it : BytesIterator) (j : ι) (n : ℕ) : Prop :=
  IOBuf32.PushAllFits (W.portal j).buf.refs (it.refsAhead n (W.portal i).buf)

instance (i : ι) (W : World ι κ) (it : BytesIterator) (j : ι) (n : ℕ) :
    Decidable (AppendFits i W it j n) :=
  inferInstanceAs (Decidable (IOBuf32.PushAllFits _ _))

/-- `++` needs a byte to go over and a block that is not an empty slice, a limit is no more than is
left, and what is appended goes to another buffer, which stays in 32 bits. -/
def IterState.Allowed (i : ι) (s : IterState ι κ) : IterCall ι → Prop
  | .inc => s.it.bytesLeft ≠ 0 ∧ s.it.blockBegin ≠ s.it.blockEnd
  | .limit n => n ≤ s.it.bytesLeft
  | .append j n => j ≠ i ∧ AppendFits i s.world s.it j n
  | _ => True

def IterState.AllAllowed (i : ι) : IterState ι κ → List (IterCall ι) → Prop
  | _, [] => True
  | s, call :: calls => s.Allowed i call ∧ (s.step i call).AllAllowed i calls

/-- What each call delivers when the bytes `todo` are to come. -/
structure IterAt (i : ι) (W : World ι κ) (it : BytesIterator) (todo : List Byte) : Prop where
  /-- The buffer is read as the view that it was written as. -/
  reads : IOBuf32.read (W.portal i).buf = some (W.portal i).buf
  left : it.bytesLeft = todo.length
  deref : it.bytesLeft ≠ 0 → it.blockBegin ≠ it.blockEnd → todo.head? = some (it.deref W.heap)
  copy : ∀ n, (it.copyAndForward n (W.portal i).buf W.heap).1 = todo.take n
  copyString : ∀ n s, (it.copyAndForwardString n s (W.portal i).buf W.heap).1 = (todo.take n).length ∧
    (it.copyAndForwardString n s (W.portal i).buf W.heap).2.1
      = if s.length < n then todo.take n else todo.take n ++ s.drop (todo.take n).length
  forward : ∀ n, (it.forward n (W.portal i).buf W.heap).1 = (todo.take n).length
  oneBlock_end : (it.forwardOneBlock (W.portal i).buf).1 = none ↔ todo = []
  oneBlock : ∀ p off size, (it.forwardOneBlock (W.portal i).buf).1 = some (p, off, size) →
    size ≤ todo.length ∧ W.heap.read p off size = todo.take size
  append : ∀ j n, j ≠ i → AppendFits i W it j n →
    let out := it.appendAndForward n (W.portal i).buf (W.portal j).buf W.heap
    out.1 = (todo.take n).length ∧
      IOBuf32.read out.2.2.1 = some out.2.2.1 ∧
      out.2.2.2.content out.2.2.1.refs = W.heap.content (W.portal j).buf.refs ++ todo.take n ∧
      out.2.2.2.content (W.portal i).buf.refs = W.heap.content (W.portal i).buf.refs

variable [DecidableEq κ] [Fintype ι] [Fintype κ] {s : IterState ι κ} {bs : List Byte}
    {todo todo' : List BlockRef}
  {l : List Ptr} {c : ι → List Ptr} {S : Ptr → Option ℕ}

/-- The iterator is in front of `todo`, behind the bytes in the log. -/
structure IterState.Inv (i : ι) (bs : List Byte) (s : IterState ι κ) (todo : List BlockRef) : Prop where
  world : ∃ l c S, WInv s.world l c S
  runs : s.it.Runs (s.world.portal i).buf todo
  content : s.world.heap.content (s.world.portal i).buf.refs = bs
  log : s.log ++ s.it.ahead s.world.heap todo = bs.take s.ends
  ends : s.ends ≤ bs.length
  fits : s.world.Fits

namespace IterState

section

omit [DecidableEq ι] [DecidableEq κ]

theorem Inv.view (I : s.Inv i bs todo) : (s.world.portal i).buf.ViewWF := by
  obtain ⟨l, c, S, F⟩ := I.world
  exact (F.portal i).wf.view

theorem Inv.advance (I : s.Inv i bs todo) {it' : BytesIterator} {k : ℕ} {delivered : List Byte}
    (A : BytesIterator.Advances (s.world.portal i).buf s.it it' todo todo' k)
    (hdelivered : delivered = (s.it.ahead s.world.heap todo).take k) :
    Inv i bs { s with it := it', log := s.log ++ delivered } todo' := by
  refine ⟨I.world, A.runs, I.content, ?_, I.ends, I.fits⟩
  rw [A.ahead, hdelivered, append_assoc, take_append_drop, I.log]

end

theorem Inv.at (I : s.Inv i bs todo) : IterAt i s.world s.it (s.it.ahead s.world.heap todo) := by
  have hlen := I.runs.ahead_length (h := s.world.heap)
  constructor
  case reads => exact read_eq I.view (I.fits (.inl i)).1
  case left => exact hlen.symm
  case deref =>
    intro hne hblock
    obtain ⟨-, -, hone⟩ := I.runs.inc (h := s.world.heap) I.view hne hblock
    cases hahead : s.it.ahead s.world.heap todo with
    | nil =>
      rw [hahead] at hone
      cases hone
    | cons c rest =>
      rw [hahead] at hone
      rw [head?_cons, (cons.inj hone).1]
  case copy =>
    intro n
    obtain ⟨-, -, hbs⟩ := I.runs.passes I.view n s.world.heap
    exact hbs
  case copyString =>
    intro n str
    obtain ⟨-, -, hbs⟩ := I.runs.passes I.view n s.world.heap
    have hcopy : (s.it.copyAndForward n (s.world.portal i).buf s.world.heap).1
        = (s.it.ahead s.world.heap todo).take n := hbs
    have hle : (s.it.copyAndForward n (s.world.portal i).buf s.world.heap).1.length ≤ n := by
      rw [hcopy]
      exact length_take_le _ _
    rw [copyAndForwardString_eq n str hle, hcopy]
    exact ⟨rfl, rfl⟩
  case forward =>
    intro n
    obtain ⟨-, -, hbs⟩ := I.runs.passes I.view n s.world.heap
    exact congrArg List.length hbs
  case oneBlock_end =>
    rw [← length_eq_zero_iff, hlen]
    by_cases h0 : s.it.bytesLeft = 0
    · rw [forwardOneBlock, if_pos h0]
      exact ⟨fun _ => h0, fun _ => rfl⟩
    · rw [forwardOneBlock, if_neg h0]
      constructor
      · nofun
      · exact fun heq => absurd heq h0
  case oneBlock =>
    intro p off size hsome
    by_cases h0 : s.it.bytesLeft = 0
    · rw [forwardOneBlock, if_pos h0] at hsome
      cases hsome
    · obtain ⟨-, -, hle, hret, hread⟩ := I.runs.oneBlock (h := s.world.heap) I.view h0
      rw [hret] at hsome
      cases hsome
      exact ⟨hlen ▸ hle, hread⟩
  case append =>
    intro j n hj hfits
    obtain ⟨l, c, S, F⟩ := I.world
    have hY : ∀ r ∈ (s.world.portal i).buf.refs, r ∈ s.world.otherRefs (.inl j) := fun r hr =>
      World.refs_mem_other (y := .inl i) (by simpa using Ne.symm hj) hr
    obtain ⟨R', hf, hcount, hcontent, hrefs⟩ := I.runs.append I.view hY (F.focusPortal j).rep n
    have hfront : IOBuf32.FrontFits _ := hrefs ▸ hfits.frontFits (I.fits (.inl j)).1
    refine ⟨?_, read_eq R'.wf.view hfront, hcontent, ?_⟩
    · rw [hcount, length_take, hlen]
    · exact (R'.frame hf).content hY

theorem Inv.step (I : s.Inv i bs todo) {call : IterCall ι} (hallowed : s.Allowed i call) :
    ∃ todo', (s.step i call).Inv i bs todo' := by
  have hlen := I.runs.ahead_length (h := s.world.heap)
  have hpass : ∀ n, ∃ todo', BytesIterator.Advances (s.world.portal i).buf s.it
      (s.it.copyAndForward n (s.world.portal i).buf s.world.heap).2 todo todo' (min n s.it.bytesLeft) ∧
      (s.it.copyAndForward n (s.world.portal i).buf s.world.heap).1
        = (s.it.ahead s.world.heap todo).take (min n s.it.bytesLeft) := by
    intro n
    obtain ⟨todo', A, hbs⟩ := I.runs.passes I.view n s.world.heap
    refine ⟨todo', A, hbs.trans ?_⟩
    rw [← hlen, take_eq_take_min]
  cases call with
  | inc =>
    obtain ⟨todo', A, hone⟩ := I.runs.inc (h := s.world.heap) I.view hallowed.1 hallowed.2
    exact ⟨todo', I.advance A hone⟩
  | copy n =>
    obtain ⟨todo', A, hbs⟩ := hpass n
    exact ⟨todo', I.advance A hbs⟩
  | copyString n str =>
    obtain ⟨todo', A, hbs⟩ := hpass n
    obtain ⟨hcount, hstr⟩ := I.at.copyString n str
    have hcopy := I.at.copy n
    refine ⟨todo', ?_⟩
    have hle : (s.it.copyAndForward n (s.world.portal i).buf s.world.heap).1.length ≤ n := by
      rw [hcopy]
      exact length_take_le _ _
    have hit : (s.it.copyAndForwardString n str (s.world.portal i).buf s.world.heap).2.2
        = (s.it.copyAndForward n (s.world.portal i).buf s.world.heap).2 := by
      rw [copyAndForwardString_eq n str hle]
    apply I.advance (hit ▸ A)
    rw [hcount, hstr, ← hbs, hcopy]
    split
    · rw [take_length]
    · rw [take_left]
  | forward n =>
    obtain ⟨todo', A, hbs⟩ := hpass n
    exact ⟨todo', I.advance A hbs⟩
  | oneBlock =>
    by_cases h0 : s.it.bytesLeft = 0
    · have hnone : s.it.forwardOneBlock (s.world.portal i).buf = (none, s.it) := by
        rw [forwardOneBlock, if_pos h0]
      refine ⟨todo, ?_⟩
      simp only [IterState.step, hnone]
      exact I
    · obtain ⟨todo', A, -, hret, hread⟩ := I.runs.oneBlock (h := s.world.heap) I.view h0
      refine ⟨todo', ?_⟩
      have hsome : s.it.forwardOneBlock (s.world.portal i).buf
          = (some (s.it.block, s.it.blockBegin, s.it.blockSize),
            (s.it.forwardOneBlock (s.world.portal i).buf).2) :=
        Prod.ext hret rfl
      rw [IterState.step, hsome]
      exact I.advance A hread
  | append j n =>
    obtain ⟨hj, hfits⟩ : j ≠ i ∧ AppendFits i s.world s.it j n := hallowed
    obtain ⟨todo', A, -⟩ := hpass n
    obtain ⟨hcount, -, hout, hsame⟩ := I.at.append j n hj hfits
    obtain ⟨l, c, S, F⟩ := I.world
    have hY : ∀ r ∈ (s.world.portal i).buf.refs, r ∈ s.world.otherRefs (.inl j) := fun r hr =>
      World.refs_mem_other (y := .inl i) (by simpa using Ne.symm hj) hr
    have hit : (s.it.appendAndForward n (s.world.portal i).buf (s.world.portal j).buf s.world.heap).2.1
        = (s.it.copyAndForward n (s.world.portal i).buf s.world.heap).2 := appendLoop_it _ _ _ _ _ _
    have hbuf : ((s.step i (.append j n)).world.portal i).buf = (s.world.portal i).buf := by
      simp only [IterState.step]
      rw [World.onPortal_buf_of_ne _ _ (.symm hj)]
    have hheap : (s.step i (.append j n)).world.heap
        = (s.it.appendAndForward n (s.world.portal i).buf (s.world.portal j).buf
          s.world.heap).2.2.2 := rfl
    refine ⟨todo', ?_, ?_, ?_, ?_, I.ends, ?_⟩
    · apply F.onBuffer (g := fun b h => (s.it.appendAndForward n (s.world.portal i).buf b h).2.2)
      intro K R
      obtain ⟨R', hf, -⟩ := I.runs.append I.view hY R n
      exact ⟨l, R', R'.frame hf⟩
    · rw [hbuf]
      change (s.it.appendAndForward n (s.world.portal i).buf (s.world.portal j).buf
          s.world.heap).2.1.Runs _ _
      rw [hit]
      exact A.runs
    · rw [hbuf, hheap, hsame]
      exact I.content
    · obtain ⟨R', hf, -⟩ := I.runs.append I.view hY (F.focusPortal j).rep n
      have hahead := I.runs.ahead_refOnly hY R' hf
      change s.log ++ (((s.it.appendAndForward n _ _ _).2.2.2.content _).drop _)
        ++ ahead (s.it.appendAndForward n _ _ _).2.1 _ todo' = _
      have htake : (s.it.ahead s.world.heap todo).take n
          = (s.it.ahead s.world.heap todo).take (min n s.it.bytesLeft) := by
        rw [← hlen, take_eq_take_min]
      rw [hit, A.ahead, hheap, hahead, hout, drop_left, append_assoc, htake, take_append_drop]
      exact I.log
    · obtain ⟨-, -, -, -, hrefs⟩ := I.runs.append I.view hY (F.focusPortal j).rep n
      rintro (x | a)
      · obtain rfl | hx := eq_or_ne x j
        · change IOBuf32.Fits ((s.step i (.append x n)).world.portal x).buf.refs
          simp only [IterState.step]
          rw [World.onPortal_buf]
          change IOBuf32.Fits (s.it.appendAndForward n _ _ _).2.2.1.refs
          rw [hrefs]
          exact ⟨hfits.frontFits (I.fits (.inl x)).1, hfits.lengthFits (I.fits (.inl x)).2⟩
        · change IOBuf32.Fits ((s.step i (.append j n)).world.portal x).buf.refs
          simp only [IterState.step]
          rw [World.onPortal_buf_of_ne _ _ hx]
          exact I.fits (.inl x)
      · exact I.fits (.inr a)
  | limit n =>
    obtain ⟨H', hleft⟩ := I.runs.limited hallowed
    have hn : n ≤ (s.it.ahead s.world.heap todo).length := by rwa [hlen]
    have hends : s.log.length + n ≤ s.ends := by
      have hcat := congrArg List.length I.log
      rw [length_append, length_take] at hcat
      lia
    refine ⟨todo, I.world, H', I.content, ?_, hends.trans I.ends, I.fits⟩
    change s.log ++ ahead (s.it.limited n) s.world.heap todo = bs.take (s.log.length + n)
    have hahead : (s.it.limited n).ahead s.world.heap todo = (s.it.ahead s.world.heap todo).take n := by
      rw [ahead, ahead, hleft, take_take, min_eq_left hallowed]
    rw [hahead, ← min_eq_left hends, ← take_take, ← I.log, take_length_add_append]

theorem Inv.run {calls : List (IterCall ι)} (I : s.Inv i bs todo) (hallowed : s.AllAllowed i calls) :
    ∃ todo', (s.run i calls).Inv i bs todo' := by
  induction calls generalizing s todo with
  | nil => exact ⟨todo, I⟩
  | cons call calls ih =>
    obtain ⟨hcall, hrest⟩ := hallowed
    obtain ⟨todo', I'⟩ := I.step hcall
    exact ih I' hrest

end IterState

end

/-- **The iterator enumerates the buffer** that a run in 32 bits leaves: whatever was called, what
it went over and what is to come make up the content, or its part up to the limit. -/
theorem run_enumerates {ι κ : Type} [DecidableEq ι] [DecidableEq κ] [Fintype ι] [Fintype κ]
    (mem : Ptr → ℕ → Byte)
    (oom : Ptr → Bool) (acts : List (AreaAction ι κ)) (i : ι) (calls : List (IterCall ι)) :
    let W := (World.init mem oom : World ι κ).runArea acts
    let bs := W.heap.content (W.portal i).buf.refs
    let s := (IterState.init i W).run i calls
    (World.init mem oom : World ι κ).RunFits acts → bs.length < 2 ^ 32 →
      (IterState.init i W).AllAllowed i calls →
      ∃ todo, s.log ++ todo = bs.take s.ends ∧ IterAt i s.world s.it todo := by
  intro W bs s hrun hlen hallowed
  obtain ⟨l, c, S, F⟩ : ∃ l c S, WInv W l c S := (WInv.init mem oom).runArea
  obtain ⟨hruns, hleft⟩ := new_runs (F.portal i).wf.view hlen
  have I : (IterState.init i W).Inv i bs (W.portal i).buf.refs := by
    refine ⟨⟨l, c, S, F⟩, hruns, rfl, ?_, le_rfl, hrun.fits (World.init_fits mem oom)⟩
    change [] ++ ahead (.new (W.portal i).buf) W.heap (W.portal i).buf.refs = bs.take bs.length
    rw [ahead, hleft, nil_append]
  obtain ⟨todo, I'⟩ := I.run hallowed
  exact ⟨_, I'.log, I'.at⟩

theorem run_enumerates_xy :
    let W := (World.init (fun _ _ => 0) (fun _ => false) : World Bool Empty).runArea
      [.act (.buf (.append true (some [120, 121])))]
    let s := (IterState.init true W).run true [.inc, .limit 1, .append false 7]
    ∃ todo, s.log ++ todo = (W.heap.content (W.portal true).buf.refs).take s.ends ∧
      IterAt true s.world s.it todo := by
  apply run_enumerates (ι := Bool) (κ := Empty) (fun _ _ => 0) (fun _ => false)
    [.act (.buf (.append true (some [120, 121])))] true [.inc, .limit 1, .append false 7]
  · refine ⟨⟨trivial, ?_, ?_⟩, trivial⟩
    all_goals decide
  · decide
  · refine ⟨⟨?_, ?_⟩, ?_, ⟨?_, ?_⟩, trivial⟩
    · decide
    · decide
    · change 1 ≤ _
      decide
    · decide
    · decide

/-- Three references to 2 GB of user data each. -/
def sixGigabytes : IOBuf :=
  .bv ⟨0, acquireBlockrefArray [⟨0, 2 ^ 31, 1⟩, ⟨0, 2 ^ 31, 2⟩, ⟨0, 2 ^ 31, 3⟩], 3, INITIAL_CAP - 1,
    3 * 2 ^ 31⟩

theorem left_truncated :
    sixGigabytes.length = 3 * 2 ^ 31 ∧
    ((Heap.init (fun _ _ => 0) fun _ => false).content sixGigabytes.refs).length = 3 * 2 ^ 31 ∧
      (BytesIterator.new sixGigabytes).bytesLeft = 2 ^ 31 := by
  refine ⟨rfl, ?_, ?_⟩
  · rw [content_length]
    decide
  · decide

end Eabase.IOBuf
