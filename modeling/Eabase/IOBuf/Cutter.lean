import Eabase.IOBuf.OpsSpec

/-!
# `IOBufCutter`

A cutter keeps a private cursor into the first reference of its buffer: the
reference stays where it is, and only when it is used up (or a cut goes over
its end) is it popped. What is still to be cut are the bytes behind the
cursor and those of the other references (`uncut`).

Every operation gets one lemma: it keeps `CRep`, changes nothing but
reference counts, and does to the uncut bytes what the operation of `IOBuf`
does to the bytes of a buffer. Nothing is appended to the buffer here.
-/

namespace Eabase.IOBuf

open List

/-- `_data` and `_data_end` point to `data` and `dataEnd` in the block `block`;
`NULL` pointers are `block = NULL`, `data = dataEnd = 0`. -/
structure IOBufCutter where
  data : ℕ
  dataEnd : ℕ
  block : Ptr

namespace IOBufCutter

def new : IOBufCutter := ⟨0, 0, NULL⟩

/-- `(char*)_data_end - (char*)_data`. -/
def size (C : IOBufCutter) : ℕ := C.dataEnd - C.data

section

variable (C : IOBufCutter) (b : IOBuf)

/-- `if (_block) { _buf->_pop_front_ref(); }`. -/
def popLoaded (h : Heap) : IOBuf × Heap :=
  if C.block ≠ NULL then b.popOrMoveoutFrontRef false h else (b, h)

def loadNextRef (h : Heap) : Bool × IOBufCutter × IOBuf × Heap :=
  let (b₁, h₁) := C.popLoaded b h
  if b₁.refNum = 0 then (false, new, b₁, h₁)
  else
    let r := b₁.frontRef
    (true, ⟨r.offset, r.offset + r.length, r.block⟩, b₁, h₁)

def remainingBytes : ℕ :=
  if C.block ≠ NULL then C.size + b.length - b.frontRef.length else b.length

/-- `_data != _data_end || load_next_ref()`. -/
def ready (h : Heap) : Bool × IOBufCutter × IOBuf × Heap :=
  if C.data = C.dataEnd then C.loadNextRef b h else (true, C, b, h)

/-- Returns the byte that was cut, if any. -/
def cut1 (h : Heap) : Option Byte × IOBufCutter × IOBuf × Heap :=
  match C.ready b h with
  | (true, C', b', h') =>
      (some ((h'.blk C'.block).data C'.data), { C' with data := C'.data + 1 }, b', h')
  | (false, C', b', h') => (none, C', b', h')

/-- Returns the byte `_data` points to, if any. -/
def fetch1 (h : Heap) :
    Option Byte × IOBufCutter × IOBuf × Heap :=
  match C.ready b h with
  | (true, C', b', h') => (some ((h'.blk C'.block).data C'.data), C', b', h')
  | (false, C', b', h') => (none, C', b', h')

end

/-- The loop of `slower_copy_to` over the references behind the first one. -/
def copyLoop : ℕ → List BlockRef → Heap → List Byte
  | _, [], _ => []
  | n, r :: rs, h =>
      let nc := min n r.length
      h.read r.block r.offset nc ++ if n - nc = 0 then [] else copyLoop (n - nc) rs h

section

variable (n : ℕ) (C : IOBufCutter) (b : IOBuf)

/-- The bytes of the first reference from `_data` on, and of the others. -/
def copyRefs (h : Heap) : List Byte :=
  h.read C.block C.data C.size ++ copyLoop (n - C.size) b.refList.tail h

def slowerCopyTo (h : Heap) :
    List Byte × IOBufCutter × IOBuf × Heap :=
  if C.size = 0 then
    match C.loadNextRef b h with
    | (false, C', b', h') => ([], C', b', h')
    | (true, C', b', h') =>
        if n ≤ C'.size then (h'.read C'.block C'.data n, C', b', h')
        else (C'.copyRefs n b' h', C', b', h')
  else (C.copyRefs n b h, C, b, h)

/-- The bytes copied; their number is what the source returns. -/
def copyTo (h : Heap) :
    List Byte × IOBufCutter × IOBuf × Heap :=
  if n ≤ C.size then (h.read C.block C.data n, C, b, h) else C.slowerCopyTo n b h

end

/-- The loop of `pop_front`: what is left of `n`, and the cutter. -/
def popFrontLoop : ℕ → ℕ → IOBufCutter → IOBuf → Heap → ℕ × IOBufCutter × IOBuf × Heap
  | 0, n, C, b, h => (n, C, b, h)
  | fuel + 1, n, C, b, h =>
      if n ≤ C.size then (0, { C with data := C.data + n }, b, h)
      else
        match C.loadNextRef b h with
        | (true, C', b', h') => popFrontLoop fuel (n - C.size) C' b' h'
        | (false, C', b', h') => (n - C.size, C', b', h')

/-- Returns the number of bytes popped. Every round but the first pops a
reference. -/
def popFront (n : ℕ) (C : IOBufCutter) (b : IOBuf) (h : Heap) : ℕ × IOBufCutter × IOBuf × Heap :=
  let (left, C', b', h') := popFrontLoop (b.refNum + 1) n C b h
  (n - left, C', b', h')

/-- `cutn(IOBuf* out, size_t n)`. -/
def cutn (n : ℕ) (C : IOBufCutter) (b out : IOBuf) (h : Heap) :
    ℕ × IOBufCutter × IOBuf × IOBuf × Heap :=
  if n = 0 then (0, C, b, out, h)
  else if n ≤ C.size then
    let (out₁, h₁) := out.pushOrMoveBackRef false ⟨C.data, n, C.block⟩ h
    (n, { C with data := C.data + n }, b, out₁, h₁)
  else if C.size ≠ 0 then
    let (out₁, h₁) := out.pushOrMoveBackRef false ⟨C.data, C.size, C.block⟩ h
    let (b₁, h₂) := b.popOrMoveoutFrontRef false h₁
    let (k, b₂, out₂, h₃) := IOBuf.cutn (n - C.size) b₁ out₁ h₂
    (k + C.size, new, b₂, out₂, h₃)
  else
    let (b₁, h₁) := C.popLoaded b h
    let (k, b₂, out₁, h₂) := IOBuf.cutn n b₁ out h₁
    (k, if C.block ≠ NULL then new else C, b₂, out₁, h₂)

/-- `cutn(void* out, size_t n)`: the count and the bytes. -/
def cutnRaw (n : ℕ) (C : IOBufCutter) (b : IOBuf) (h : Heap) :
    ℕ × List Byte × IOBufCutter × IOBuf × Heap :=
  if n = 0 then (0, [], C, b, h)
  else if n ≤ C.size then
    (n, h.read C.block C.data n, { C with data := C.data + n }, b, h)
  else if C.size ≠ 0 then
    let bs := h.read C.block C.data C.size
    let (b₁, h₁) := b.popOrMoveoutFrontRef false h
    let (k, bs', b₂, h₂) := b₁.cutnRaw (n - C.size) h₁
    (k + C.size, bs ++ bs', new, b₂, h₂)
  else
    let (b₁, h₁) := C.popLoaded b h
    let (k, bs, b₂, h₂) := b₁.cutnRaw n h₁
    (k, bs, if C.block ≠ NULL then new else C, b₂, h₂)

/-- `cutn(std::string* out, size_t n)`: the string is made longer first (with
zeros) and then written to. -/
def cutnString (n : ℕ) (out : List Byte) (C : IOBufCutter) (b : IOBuf) (h : Heap) :
    ℕ × List Byte × IOBufCutter × IOBuf × Heap :=
  if n = 0 then (0, out, C, b, h)
  else
    let m := min n (C.remainingBytes b)
    let (k, bs, C', b', h') := C.cutnRaw m b h
    (k, out ++ bs ++ List.replicate (m - bs.length) 0, C', b', h')

/-- `~IOBufCutter()`: the cursor is written back to the first reference. -/
def close (C : IOBufCutter) (b : IOBuf) (h : Heap) : IOBuf × Heap :=
  if C.block ≠ NULL then
    if C.data ≠ C.dataEnd then
      (b.setFrontRef { b.frontRef with offset := C.data, length := C.size }, h)
    else b.popOrMoveoutFrontRef false h
  else (b, h)

/-! ## The cursor -/

def uncut (C : IOBufCutter) (refs : List BlockRef) : List BlockRef :=
  if C.block = NULL then refs else ⟨C.data, C.size, C.block⟩ :: refs.tail

inductive Loc : IOBufCutter → List BlockRef → Prop
  | idle (refs : List BlockRef) : Loc new refs
  | loaded (C : IOBufCutter) (r : BlockRef) (rs : List BlockRef) (hne : C.block ≠ NULL)
      (hblock : r.block = C.block) (hoff : r.offset ≤ C.data) (hle : C.data ≤ C.dataEnd)
      (hend : C.dataEnd = r.stop) : Loc C (r :: rs)

@[simp] theorem uncut_new (refs : List BlockRef) : new.uncut refs = refs := rfl

theorem uncut_loaded {C : IOBufCutter} (hne : C.block ≠ NULL) (r : BlockRef)
    (rs : List BlockRef) : C.uncut (r :: rs) = ⟨C.data, C.size, C.block⟩ :: rs := by
  rw [uncut, if_neg hne, tail_cons]

theorem uncut_load {r : BlockRef} (hne : r.block ≠ NULL) (rs : List BlockRef) :
    IOBufCutter.uncut ⟨r.offset, r.offset + r.length, r.block⟩ (r :: rs) = r :: rs := by
  rw [uncut_loaded hne]
  simp [size]

end IOBufCutter

open Heap

structure CRep (h : Heap) (l : List Ptr) (C : IOBufCutter) (b : IOBuf) (Y : Multiset BlockRef)
    (K : Multiset Ptr) (S : Ptr → Option ℕ) : Prop extends Rep true h l b Y K S where
  loc : C.Loc b.refs

section

variable {h h' : Heap} {l : List Ptr} {C C' : IOBufCutter} {b b' : IOBuf} {Y : Multiset BlockRef}
  {K : Multiset Ptr} {S : Ptr → Option ℕ} {n : ℕ} {bs : List Byte} {k : ℕ} {c : Option Byte}
  {ok : Bool} {out out' : IOBuf}

theorem CRep.new (R : Rep true h l b Y K S) : CRep h l IOBufCutter.new b Y K S :=
  ⟨R, .idle _⟩

theorem CRep.with_new (R : CRep h l C b Y K S) : CRep h l C b (IOBuf.new.refs + Y) K S :=
  ⟨⟨R.wf, by simpa using R.inv⟩, R.loc⟩

theorem CRep.advance (R : CRep h l C b Y K S) (hn : n ≤ C.size) :
    CRep h l { C with data := C.data + n } b Y K S ∧
      h.read C.block C.data n = (h.content (C.uncut b.refs)).take n ∧
      h.content (IOBufCutter.uncut { C with data := C.data + n } b.refs) =
        (h.content (C.uncut b.refs)).drop n := by
  have hsize : C.size = C.dataEnd - C.data := rfl
  have hloc := R.loc
  generalize hrefs : b.refs = refs at hloc
  cases hloc with
  | idle =>
    obtain rfl : n = 0 := Nat.le_zero.1 hn
    exact ⟨R, rfl, rfl⟩
  | loaded _ r rs hne hblock hoff hle hend =>
    have hloc' : IOBufCutter.Loc { C with data := C.data + n } (r :: rs) :=
      .loaded _ r rs hne hblock (hoff.trans (Nat.le_add_right _ _)) (by simp only; lia) hend
    refine ⟨⟨R.toRep, hrefs ▸ hloc'⟩, ?_, ?_⟩
    · rw [IOBufCutter.uncut_loaded hne, content_take_of_le hn]
    · have hmoved : IOBufCutter.uncut { C with data := C.data + n } (r :: rs) =
          ⟨C.data + n, C.dataEnd - (C.data + n), C.block⟩ :: rs :=
        IOBufCutter.uncut_loaded (C := { C with data := C.data + n }) hne r rs
      rw [IOBufCutter.uncut_loaded hne, hmoved, content_cons, content_cons,
        drop_append_of_le_length (by rwa [bytes_length])]
      congr 1
      simp only [bytes, IOBufCutter.size]
      rw [read_drop (by lia)]
      congr 1
      lia

theorem CRep.content (R : CRep h' l C b Y K S) (hf : Heap.RefOnly h h') :
    h'.content (C.uncut b.refs) = h.content (C.uncut b.refs) := by
  apply content_congr
  intro r hr
  have hloc := R.loc
  have hlive : ∀ x ∈ b.refs, 0 < (h'.blk x.block).nshared := fun x hx =>
    R.inv.pos_of_ref (Rep.mem_left hx)
  generalize b.refs = refs at hloc hlive hr
  cases hloc with
  | idle => exact hf.bytes (hlive r hr)
  | loaded _ x xs hne hblock =>
    rw [IOBufCutter.uncut_loaded hne] at hr
    rcases mem_cons.1 hr with rfl | hr
    · have hx := hlive x mem_cons_self
      rw [hblock] at hx
      exact hf.bytes (r := ⟨C.data, C.size, C.block⟩) hx
    · exact hf.bytes (hlive r (mem_cons_of_mem _ hr))

theorem CRep.popLoaded (R : CRep h l C b Y K S) (heq : C.popLoaded b h = (b', h')) :
    Rep true h' l b' Y K S ∧ Heap.RefOnly h h' ∧
      h'.content b'.refs = (h.content (C.uncut b.refs)).drop C.size ∧
      b'.refs.length + (if C.block = NULL then 0 else 1) = b.refs.length := by
  have hloc := R.loc
  unfold IOBufCutter.popLoaded at heq
  generalize hrefs : b.refs = refs at hloc
  cases hloc with
  | idle =>
    rw [if_neg (by decide)] at heq
    cases heq
    exact ⟨R.toRep, .refl h, by rw [hrefs]; rfl, by rw [hrefs]; rfl⟩
  | loaded _ r rs hne =>
    rw [if_pos hne] at heq
    obtain ⟨R', hf, hr⟩ := R.toRep.popFrontRef hrefs heq
    refine ⟨R', hf, ?_, by rw [hr, if_neg hne]; rfl⟩
    have hdrop := content_drop_cons (h := h) (r := ⟨C.data, C.size, C.block⟩) (l := rs)
      (le_refl C.size)
    rw [R'.content hf, hr, IOBufCutter.uncut_loaded hne, hdrop, Nat.sub_self, drop_zero]

/-- How many rounds a loop over `load_next_ref` can take. -/
def IOBufCutter.rounds (C : IOBufCutter) (b : IOBuf) : ℕ :=
  b.refs.length + if C.block = NULL then 1 else 0

theorem CRep.loadNextRef (R : CRep h l C b Y K S)
    (heq : C.loadNextRef b h = (ok, C', b', h')) :
    CRep h' l C' b' Y K S ∧ Heap.RefOnly h h' ∧
      h'.content (C'.uncut b'.refs) = (h.content (C.uncut b.refs)).drop C.size ∧
      ((ok = true ∧ 0 < C'.size ∧ C'.rounds b' + 1 = C.rounds b) ∨
        (ok = false ∧ C' = IOBufCutter.new ∧ h'.content (C'.uncut b'.refs) = [])) := by
  rcases hpop : C.popLoaded b h with ⟨b1, h1⟩
  obtain ⟨R1, hf, hc, hlen⟩ := R.popLoaded hpop
  unfold IOBufCutter.loadNextRef at heq
  simp only [hpop, refNum_eq R1.wf.view] at heq
  cases hrefs : b1.refs with
  | nil =>
    rw [hrefs, if_pos length_nil] at heq
    cases heq
    exact ⟨.new R1, hf, hc, .inr ⟨rfl, rfl, by simp [hrefs]⟩⟩
  | cons r rs =>
    rw [hrefs, if_neg (by simp), frontRef_eq R1.wf.view hrefs] at heq
    cases heq
    obtain ⟨hne, hpos⟩ := R1.wf.ref r (by rw [hrefs]; exact mem_cons_self)
    refine ⟨⟨R1, ?_⟩, hf, ?_, .inl ⟨rfl, ?_, ?_⟩⟩
    · rw [hrefs]
      exact .loaded _ r rs hne rfl le_rfl (Nat.le_add_right _ _) rfl
    · rw [← hc, hrefs, IOBufCutter.uncut_load hne]
    · show 0 < r.offset + r.length - r.offset
      have := hpos rfl
      lia
    · simp only [IOBufCutter.rounds, if_neg hne]
      split at hlen <;> simp_all

theorem CRep.remainingBytes (R : CRep h l C b Y K S) :
    C.remainingBytes b = (h.content (C.uncut b.refs)).length := by
  have hloc := R.loc
  unfold IOBufCutter.remainingBytes
  rw [content_length, length_eq R.wf.view]
  generalize hrefs : b.refs = refs at hloc
  cases hloc with
  | idle => rw [if_neg (by decide), IOBufCutter.uncut_new]
  | loaded _ r rs hne =>
    rw [if_pos hne, frontRef_eq R.wf.view hrefs, IOBufCutter.uncut_loaded hne, sumLen_cons,
      sumLen_cons]
    simp only
    lia

theorem CRep.size_le (R : CRep h l C b Y K S) : C.size ≤ (h.content (C.uncut b.refs)).length := by
  have hloc := R.loc
  generalize b.refs = refs at hloc
  cases hloc with
  | idle => exact Nat.zero_le _
  | loaded _ r rs hne =>
    rw [IOBufCutter.uncut_loaded hne, content_length, sumLen_cons]
    exact Nat.le_add_right _ _

/-! ## One byte -/

section

variable (R : CRep h l C b Y K S)
include R

theorem CRep.ready (heq : C.ready b h = (ok, C', b', h')) :
    CRep h' l C' b' Y K S ∧ Heap.RefOnly h h' ∧
      h'.content (C'.uncut b'.refs) = h.content (C.uncut b.refs) ∧
      ((ok = true ∧ 0 < C'.size) ∨ (ok = false ∧ h.content (C.uncut b.refs) = [])) := by
  have hloc := R.loc
  unfold IOBufCutter.ready at heq
  split at heq
  next hend =>
    have hsize : C.size = 0 := by rw [IOBufCutter.size, hend, Nat.sub_self]
    obtain ⟨R', hf, hc, hcase⟩ := R.loadNextRef heq
    rw [hsize, drop_zero] at hc
    refine ⟨R', hf, hc, ?_⟩
    rcases hcase with ⟨rfl, hpos, -⟩ | ⟨rfl, -, hnil⟩
    · exact .inl ⟨rfl, hpos⟩
    · exact .inr ⟨rfl, hc ▸ hnil⟩
  next hne =>
    cases heq
    refine ⟨R, .refl h, rfl, .inl ⟨rfl, ?_⟩⟩
    generalize b.refs = refs at hloc
    cases hloc with
    | idle => exact absurd rfl hne
    | loaded _ r rs _ _ _ hle =>
      show 0 < C.dataEnd - C.data
      lia

theorem CRep.head (hpos : 0 < C.size) :
    some ((h.blk C.block).data C.data) = (h.content (C.uncut b.refs)).head? := by
  obtain ⟨-, hread, -⟩ := R.advance (n := 1) hpos
  have hone : h.read C.block C.data 1 = [(h.blk C.block).data C.data] := rfl
  rw [hone] at hread
  cases hc : h.content (C.uncut b.refs) with
  | nil => simp [hc] at hread
  | cons c cs =>
    rw [hc] at hread
    simpa using hread

theorem CRep.cut1
    (heq : C.cut1 b h = (c, C', b', h')) :
    CRep h' l C' b' Y K S ∧ Heap.RefOnly h h' ∧ c = (h.content (C.uncut b.refs)).head? ∧
      h'.content (C'.uncut b'.refs) = (h.content (C.uncut b.refs)).tail := by
  rcases hready : C.ready b h with ⟨ok, C1, b1, h1⟩
  obtain ⟨R1, hf, hc, ⟨rfl, hpos⟩ | ⟨rfl, hnil⟩⟩ := R.ready hready
  all_goals
    unfold IOBufCutter.cut1 at heq
    rw [hready] at heq
    cases heq
  · obtain ⟨R2, -, hdrop⟩ := R1.advance (n := 1) hpos
    refine ⟨R2, hf, ?_, ?_⟩
    · rw [R1.head hpos, hc]
    · rw [hdrop, hc, drop_one]
  · exact ⟨R1, hf, by rw [hnil]; rfl, by rw [hc, hnil]; rfl⟩

theorem CRep.fetch1
    (heq : C.fetch1 b h = (c, C', b', h')) :
    CRep h' l C' b' Y K S ∧ Heap.RefOnly h h' ∧ c = (h.content (C.uncut b.refs)).head? ∧
      h'.content (C'.uncut b'.refs) = h.content (C.uncut b.refs) := by
  rcases hready : C.ready b h with ⟨ok, C1, b1, h1⟩
  obtain ⟨R1, hf, hc, ⟨rfl, hpos⟩ | ⟨rfl, hnil⟩⟩ := R.ready hready
  all_goals
    unfold IOBufCutter.fetch1 at heq
    rw [hready] at heq
    cases heq
  · exact ⟨R1, hf, by rw [R1.head hpos, hc], hc⟩
  · exact ⟨R1, hf, by rw [hnil]; rfl, hc⟩

end

/-! ## Copying without cutting -/

theorem copyLoop_eq (h : Heap) (rs : List BlockRef) :
    ∀ n, IOBufCutter.copyLoop n rs h = (h.content rs).take n := by
  induction rs with
  | nil => simp [IOBufCutter.copyLoop]
  | cons r rs ih =>
    intro n
    simp only [IOBufCutter.copyLoop]
    rcases lt_or_ge r.length n with hlt | hge
    · rw [min_eq_right hlt.le, if_neg (by lia), ih, content_take_cons hlt.le]
      rfl
    · rw [min_eq_left hge, Nat.sub_self, if_pos rfl, append_nil, content_take_of_le hge]

theorem CRep.copyRefs (R : CRep h l C b Y K S) (hpos : 0 < C.size) (hn : C.size ≤ n) :
    C.copyRefs n b h = (h.content (C.uncut b.refs)).take n := by
  have hloc := R.loc
  unfold IOBufCutter.copyRefs
  rw [refList_eq R.wf.view, copyLoop_eq]
  generalize b.refs = refs at hloc
  cases hloc with
  | idle => exact absurd hpos (lt_irrefl 0)
  | loaded _ r rs hne =>
    rw [IOBufCutter.uncut_loaded hne, content_take_cons hn, tail_cons]
    rfl

theorem CRep.copyTo (R : CRep h l C b Y K S)
    (heq : C.copyTo n b h = (bs, C', b', h')) :
    CRep h' l C' b' Y K S ∧ Heap.RefOnly h h' ∧ bs = (h.content (C.uncut b.refs)).take n ∧
      h'.content (C'.uncut b'.refs) = h.content (C.uncut b.refs) := by
  unfold IOBufCutter.copyTo at heq
  split at heq
  next hle =>
    cases heq
    exact ⟨R, .refl h, (R.advance hle).2.1, rfl⟩
  rename_i hgt
  unfold IOBufCutter.slowerCopyTo at heq
  split at heq
  next hsize =>
    rcases hload : C.loadNextRef b h with ⟨ok, C1, b1, h1⟩
    obtain ⟨R1, hf, hc, hcase⟩ := R.loadNextRef hload
    rw [hsize, drop_zero] at hc
    rw [hload] at heq
    rcases hcase with ⟨rfl, hpos, -⟩ | ⟨rfl, -, hnil⟩
    · simp only at heq
      split at heq
      next hle =>
        cases heq
        exact ⟨R1, hf, by rw [(R1.advance hle).2.1, hc], hc⟩
      next hgt' =>
        cases heq
        exact ⟨R1, hf, by rw [R1.copyRefs hpos (by lia), hc], hc⟩
    · cases heq
      refine ⟨R1, hf, ?_, hc⟩
      rw [← hc, hnil, take_nil]
  next hsize =>
    cases heq
    exact ⟨R, .refl h, R.copyRefs (by lia) (by lia), rfl⟩

/-! ## Cutting -/

theorem CRep.popFrontLoop : ∀ {fuel n : ℕ} {C : IOBufCutter} {b : IOBuf} {h : Heap},
    CRep h l C b Y K S → C.rounds b ≤ fuel → ∀ {left : ℕ} {C' : IOBufCutter} {b' : IOBuf}
      {h' : Heap}, IOBufCutter.popFrontLoop fuel n C b h = (left, C', b', h') →
      CRep h' l C' b' Y K S ∧ Heap.RefOnly h h' ∧ left = n - (h.content (C.uncut b.refs)).length ∧
        h'.content (C'.uncut b'.refs) = (h.content (C.uncut b.refs)).drop n := by
  intro fuel
  induction fuel with
  | zero =>
    intro n C b h R hfuel left C' b' h' heq
    have hloc := R.loc
    unfold IOBufCutter.rounds at hfuel
    generalize b.refs = refs at hloc hfuel
    cases hloc with
    | idle =>
      have hone : (if IOBufCutter.new.block = NULL then 1 else 0) = 1 := rfl
      omega
    | loaded _ r rs => simp at hfuel
  | succ fuel ih =>
    intro n C b h R hfuel left C' b' h' heq
    unfold IOBufCutter.popFrontLoop at heq
    have hsize := R.size_le
    split at heq
    next hle =>
      cases heq
      obtain ⟨R', -, hdrop⟩ := R.advance hle
      exact ⟨R', .refl h, by omega, hdrop⟩
    rename_i hgt
    rcases hload : C.loadNextRef b h with ⟨ok, C1, b1, h1⟩
    obtain ⟨R1, hf1, hc1, hcase⟩ := R.loadNextRef hload
    have hlen1 := congrArg List.length hc1
    rw [length_drop] at hlen1
    rw [hload] at heq
    rcases hcase with ⟨rfl, hpos, hrounds⟩ | ⟨rfl, -, hnil⟩
    · obtain ⟨R2, hf2, hcount, hc2⟩ := ih R1 (by omega) heq
      refine ⟨R2, hf1.trans hf2, by omega, ?_⟩
      rw [hc2, hc1, drop_drop]
      congr 1
      omega
    · cases heq
      rw [hnil, length_nil] at hlen1
      refine ⟨R1, hf1, by omega, ?_⟩
      rw [hnil, drop_eq_nil_of_le (by omega)]

section

variable (R : CRep h l C b Y K S)
include R

theorem CRep.popFront (heq : C.popFront n b h = (k, C', b', h')) :
    CRep h' l C' b' Y K S ∧ Heap.RefOnly h h' ∧ k = min n (h.content (C.uncut b.refs)).length ∧
      h'.content (C'.uncut b'.refs) = (h.content (C.uncut b.refs)).drop n := by
  unfold IOBufCutter.popFront at heq
  rcases hloop : IOBufCutter.popFrontLoop (b.refNum + 1) n C b h with ⟨left, C1, b1, h1⟩
  have hfuel : C.rounds b ≤ b.refNum + 1 := by
    rw [refNum_eq R.wf.view, IOBufCutter.rounds]
    split <;> lia
  simp only [hloop] at heq
  cases heq
  obtain ⟨R', hf, hleft, hc⟩ := R.popFrontLoop hfuel hloop
  exact ⟨R', hf, by lia, hc⟩

theorem CRep.popLoaded_of_size (hpos : C.size ≠ 0) :
    C.block ≠ NULL ∧ ∀ h0, C.popLoaded b h0 = b.popOrMoveoutFrontRef false h0 := by
  have hloc := R.loc
  generalize b.refs = refs at hloc
  cases hloc with
  | idle => exact absurd rfl hpos
  | loaded _ r rs hne => exact ⟨hne, fun h0 => if_pos hne⟩

theorem CRep.eq_new :
    (if C.block ≠ NULL then IOBufCutter.new else C) = IOBufCutter.new := by
  have hloc := R.loc
  generalize b.refs = refs at hloc
  cases hloc with
  | idle => rfl
  | loaded _ r rs hne => rw [if_pos hne]

theorem CRep.cutnRaw
    (heq : C.cutnRaw n b h = (k, bs, C', b', h')) :
    CRep h' l C' b' Y K S ∧ Heap.RefOnly h h' ∧ k = min n (h.content (C.uncut b.refs)).length ∧
      bs = (h.content (C.uncut b.refs)).take n ∧
      h'.content (C'.uncut b'.refs) = (h.content (C.uncut b.refs)).drop n := by
  have hsize := R.size_le
  unfold IOBufCutter.cutnRaw at heq
  split at heq
  next hn =>
    cases heq
    subst hn
    exact ⟨R, .refl h, by simp, by simp, by simp⟩
  split at heq
  next hle =>
    cases heq
    obtain ⟨R', hread, hdrop⟩ := R.advance hle
    exact ⟨R', .refl h, by lia, hread, hdrop⟩
  rename_i hgt
  rcases hpop : C.popLoaded b h with ⟨b1, h1⟩
  obtain ⟨R1, hf1, hc1, -⟩ := R.popLoaded hpop
  split at heq
  next hpos =>
    rw [← (R.popLoaded_of_size hpos).2 h, hpop] at heq
    rcases hcut : b1.cutnRaw (n - C.size) h1 with ⟨k', bs', b2, h2⟩
    simp only [hcut] at heq
    cases heq
    obtain ⟨R2, hf2, hk, hbs, hc2⟩ := R1.cutnRaw hcut
    rw [hc1] at hk hbs hc2
    rw [length_drop] at hk
    refine ⟨.new R2, hf1.trans hf2, by lia, ?_, ?_⟩
    · rw [hbs, (R.advance le_rfl).2.1, ← take_add, Nat.add_sub_cancel' (by lia)]
    · rw [IOBufCutter.uncut_new, hc2, drop_drop, Nat.add_sub_cancel' (by lia)]
  next hzero =>
    have hz : C.size = 0 := not_not.1 hzero
    rw [hz, drop_zero] at hc1
    rw [hpop, R.eq_new] at heq
    rcases hcut : b1.cutnRaw n h1 with ⟨k', bs', b2, h2⟩
    simp only [hcut] at heq
    cases heq
    obtain ⟨R2, hf2, hk, hbs, hc2⟩ := R1.cutnRaw hcut
    rw [hc1] at hk hbs hc2
    exact ⟨.new R2, hf1.trans hf2, hk, hbs, hc2⟩

end

theorem CRep.cutnString {out str : List Byte} (R : CRep h l C b Y K S)
    (heq : C.cutnString n out b h = (k, str, C', b', h')) :
    CRep h' l C' b' Y K S ∧ Heap.RefOnly h h' ∧ k = min n (h.content (C.uncut b.refs)).length ∧
      str = out ++ (h.content (C.uncut b.refs)).take n ∧
      h'.content (C'.uncut b'.refs) = (h.content (C.uncut b.refs)).drop n := by
  unfold IOBufCutter.cutnString at heq
  split at heq
  next hn =>
    cases heq
    subst hn
    exact ⟨R, .refl h, by simp, by simp, by simp⟩
  rw [R.remainingBytes] at heq
  obtain ⟨m, hm⟩ : ∃ m, m = min n (h.content (C.uncut b.refs)).length := ⟨_, rfl⟩
  rcases hcut : C.cutnRaw m b h with ⟨k', bs, C1, b1, h1⟩
  simp only [← hm, hcut] at heq
  cases heq
  obtain ⟨R', hf, hk, hbs, hc⟩ := R.cutnRaw hcut
  have hlen : bs.length = m := by
    rw [hbs, length_take]
    lia
  refine ⟨R', hf, by lia, ?_, ?_⟩
  · rw [hlen, Nat.sub_self, replicate_zero, append_nil, hbs, hm, take_min_length]
  · rw [hc, hm, drop_min_length]

theorem CRep.pushOut (R : CRep h l C b (out.refs + Y) K S)
    (hout : out.WF true) (hpos : 0 < n) (hn : n ≤ C.size)
    (heq : out.pushOrMoveBackRef false ⟨C.data, n, C.block⟩ h = (out', h')) :
    CRep h' l C b (out'.refs + Y) K S ∧ out'.WF true ∧ Heap.RefOnly h h' ∧
      h'.content out'.refs = h.content out.refs ++ (h.content (C.uncut b.refs)).take n ∧
      h'.content (C.uncut b.refs) = h.content (C.uncut b.refs) := by
  have hloc := R.loc
  have hread := (R.advance hn).2.1
  obtain ⟨r, hr, hblock, hend⟩ : ∃ r ∈ b.refs, r.block = C.block ∧ C.dataEnd = r.stop := by
    generalize b.refs = refs at hloc
    cases hloc with
    | idle => exact absurd (hpos.trans_le hn) (lt_irrefl 0)
    | loaded _ r rs _ hblock _ _ hend => exact ⟨r, mem_cons_self, hblock, hend⟩
  have Rout : Rep true h l out (b.refs + Y) K S := ⟨hout, R.inv.of_eq (add_left_comm _ _ _)⟩
  have hmem : r ∈ (out.refs : Multiset BlockRef) + (b.refs + Y) :=
    Multiset.mem_add.2 (Or.inr (Rep.mem_left hr))
  have hstop : C.data + n ≤ h.lim S C.block := by
    have hbound := Rout.inv.bound r hmem
    have hsize : C.size = C.dataEnd - C.data := rfl
    rw [hblock, ← hend] at hbound
    lia
  have hlive : 0 < (h.blk C.block).nshared := hblock ▸ Rout.inv.pos_of_ref hmem
  obtain ⟨R', hf, hc⟩ := Rout.push (r := ⟨C.data, n, C.block⟩) hlive hstop (fun _ => hpos) heq
  have RC : CRep h' l C b (out'.refs + Y) K S := ⟨⟨R.wf, R'.inv.of_eq (add_left_comm _ _ _)⟩, R.loc⟩
  refine ⟨RC, R'.wf, hf, ?_, RC.content hf⟩
  rw [hc, ← hread]
  rfl

theorem CRep.cutn (R : CRep h l C b (out.refs + Y) K S)
    (hout : out.WF true) (heq : C.cutn n b out h = (k, C', b', out', h')) :
    CRep h' l C' b' (out'.refs + Y) K S ∧ out'.WF true ∧ Heap.RefOnly h h' ∧
      k = min n (h.content (C.uncut b.refs)).length ∧
      h'.content (C'.uncut b'.refs) = (h.content (C.uncut b.refs)).drop n ∧
      h'.content out'.refs = h.content out.refs ++ (h.content (C.uncut b.refs)).take n := by
  have hsize := R.size_le
  unfold IOBufCutter.cutn at heq
  split at heq
  next hn =>
    cases heq
    subst hn
    exact ⟨R, hout, .refl h, by simp, by simp, by simp⟩
  rename_i hn
  split at heq
  next hle =>
    rcases hpush : out.pushOrMoveBackRef false ⟨C.data, n, C.block⟩ h with ⟨out1, h1⟩
    obtain ⟨R1, hout1, hf1, hco, hc1⟩ := R.pushOut hout (pos_of_ne_zero hn) hle hpush
    simp only [hpush] at heq
    cases heq
    obtain ⟨R2, -, hdrop⟩ := R1.advance hle
    exact ⟨R2, hout1, hf1, by lia, by rw [hdrop, hc1], hco⟩
  rename_i hgt
  split at heq
  next hpos =>
    rcases hpush : out.pushOrMoveBackRef false ⟨C.data, C.size, C.block⟩ h with ⟨out1, h1⟩
    obtain ⟨R1, hout1, hf1, hco1, hc1⟩ := R.pushOut hout (pos_of_ne_zero hpos) le_rfl hpush
    rcases hpop : C.popLoaded b h1 with ⟨b2, h2⟩
    obtain ⟨R2, hf2, hc2, -⟩ := R1.popLoaded hpop
    have hout2 : h2.content out1.refs = h1.content out1.refs :=
      (R2.frame hf2).content fun r hr => Rep.mem_left hr
    rcases hcut : b2.cutn (n - C.size) out1 h2 with ⟨k', b3, out3, h3⟩
    rw [hpush] at heq
    simp only [← (R.popLoaded_of_size hpos).2 h1, hpop, hcut] at heq
    cases heq
    obtain ⟨R3, hout3, hf3, hk, hc3, hco3⟩ := R2.cutn hout1 hcut
    rw [hc2, hc1] at hk hc3 hco3
    rw [length_drop] at hk
    refine ⟨.new R3, hout3, (hf1.trans hf2).trans hf3, by lia, ?_, ?_⟩
    · rw [IOBufCutter.uncut_new, hc3, drop_drop, Nat.add_sub_cancel' (by lia)]
    · rw [hco3, hout2, hco1, append_assoc, ← take_add, Nat.add_sub_cancel' (by lia)]
  next hzero =>
    have hz : C.size = 0 := not_not.1 hzero
    rcases hpop : C.popLoaded b h with ⟨b1, h1⟩
    obtain ⟨R1, hf1, hc1, -⟩ := R.popLoaded hpop
    have hout1 : h1.content out.refs = h.content out.refs :=
      (R1.frame hf1).content fun r hr => Rep.mem_left hr
    rw [hz, drop_zero] at hc1
    rw [hpop, R.eq_new] at heq
    rcases hcut : b1.cutn n out h1 with ⟨k', b2, out2, h2⟩
    simp only [hcut] at heq
    cases heq
    obtain ⟨R2, hout2, hf2, hk, hc2, hco2⟩ := R1.cutn hout hcut
    rw [hc1] at hk hc2 hco2
    rw [hout1] at hco2
    exact ⟨.new R2, hout2, hf1.trans hf2, hk, hc2, hco2⟩

/-! ## The destructor -/

/-- The cursor is written back without trouble: there is nothing to write back, or
the buffer has no cached length. -/
def IOBufCutter.CloseOk (C : IOBufCutter) (b : IOBuf) : Prop :=
  b.small = true ∨ C.block = NULL ∨ C.data = C.dataEnd ∨ C.data = b.frontRef.offset

instance (C : IOBufCutter) (b : IOBuf) : Decidable (C.CloseOk b) := by
  unfold IOBufCutter.CloseOk
  infer_instance

theorem subNbytes_refs (b : IOBuf) (n : ℕ) : (b.subNbytes n).refs = b.refs := by
  cases b <;> rfl

/-- Writing through `_front_ref()` does not touch the cached length. -/
theorem length_setFrontRef {b : IOBuf} {r r' : BlockRef} {rs : List BlockRef}
    (hb : b.WF true) (hl : b.refs = r :: rs) (hblock : r'.block ≠ NULL) (hpos : 0 < r'.length)
    (hlen : r'.length + n = r.length) :
    (b.setFrontRef r').length = sumLen (r' :: rs) ↔ b.small = true ∨ n = 0 := by
  obtain ⟨hrefs, hwf⟩ := trimFront_spec r' hb hl hblock hlen hpos
  cases b with
  | sv refs0 refs1 =>
    have hsum := length_eq hwf.view
    rw [hrefs] at hsum
    exact ⟨fun _ => .inl rfl, fun _ => hsum⟩
  | bv v =>
    have hsum := length_eq hb.view
    rw [hl, sumLen_cons] at hsum
    have hsame : (setFrontRef r' (bv v)).length = (bv v).length := rfl
    rw [hsame, hsum, sumLen_cons]
    constructor
    · intro heq
      exact .inr (by lia)
    · rintro (hsmall | hn)
      · exact absurd hsmall Bool.false_ne_true
      · lia

/-- After the destructor the buffer holds the uncut bytes; its `length()` knows
that exactly if the write-back was harmless. -/
theorem CRep.close (R : CRep h l C b Y K S) (heq : C.close b h = (b', h')) :
    HeapInv h' l (b'.refs + Y) K S ∧ Heap.RefOnly h h' ∧
      h'.content b'.refs = h.content (C.uncut b.refs) ∧
      (b'.length = (h.content (C.uncut b.refs)).length ↔ C.CloseOk b) := by
  have hloc := R.loc
  unfold IOBufCutter.close at heq
  generalize hrefs : b.refs = refs at hloc
  cases hloc with
  | idle =>
    rw [if_neg (by decide)] at heq
    cases heq
    refine ⟨R.inv, .refl h, by rw [hrefs]; rfl, ?_⟩
    rw [R.toRep.length, hrefs]
    exact ⟨fun _ => .inr (.inl rfl), fun _ => rfl⟩
  | loaded _ r rs hne hblock hoff hle hend =>
    rw [if_pos hne] at heq
    have hsize : C.size = C.dataEnd - C.data := rfl
    have hstop : C.dataEnd = r.offset + r.length := hend
    have hfront := frontRef_eq R.wf.view hrefs
    split at heq
    next hdata =>
      rw [hfront] at heq
      cases heq
      obtain ⟨r', hr'⟩ : ∃ r' : BlockRef, r' = { r with offset := C.data, length := C.size } :=
        ⟨_, rfl⟩
      have hblock' : r'.block = r.block := by rw [hr']
      have hlen' : r'.length = C.size := by rw [hr']
      have hne' : r'.block ≠ NULL := by rw [hblock', hblock]; exact hne
      have hcut : C.uncut (r :: rs) = r' :: rs := by
        rw [IOBufCutter.uncut_loaded hne, hr', ← hblock]
      have hlen : r'.length + (C.data - r.offset) = r.length := by lia
      have hpos : 0 < r'.length := by lia
      obtain ⟨hset, -⟩ := trimFront_spec r' R.wf hrefs hne' hlen hpos
      rw [subNbytes_refs] at hset
      have hiff := length_setFrontRef R.wf hrefs hne' hpos hlen
      rw [hcut, ← hr', hset]
      refine ⟨?_, .refl h, rfl, ?_⟩
      · have H := R.inv
        rw [hrefs, coe_cons_add] at H
        rw [coe_cons_add]
        refine H.replace hblock' ((le_of_eq ?_).trans (H.bound r (Multiset.mem_cons_self _ _)))
        rw [hr']
        show C.data + C.size = r.stop
        lia
      · rw [content_length, hiff, IOBufCutter.CloseOk, hfront]
        constructor
        · rintro (hsmall | hz)
          · exact .inl hsmall
          · exact .inr (.inr (.inr (by lia)))
        · rintro (hsmall | hnull | hfull | hnone)
          · exact .inl hsmall
          · exact absurd hnull hne
          · exact absurd hfull hdata
          · exact .inr (by lia)
    next hdata =>
      have hend' : C.data = C.dataEnd := not_not.1 hdata
      obtain ⟨R', hf, hr⟩ := R.toRep.popFrontRef hrefs heq
      have hc : h'.content b'.refs = h.content (C.uncut (r :: rs)) := by
        rw [R'.content hf, hr, IOBufCutter.uncut_loaded hne, content_cons, hsize, hend',
          Nat.sub_self]
        rfl
      refine ⟨R'.inv, hf, hc, ?_⟩
      rw [R'.length, hc]
      exact ⟨fun _ => .inr (.inr (.inl hend')), fun _ => rfl⟩

/-! ## Appending to the buffer of a cutter -/

theorem CRep.uncut_eq_drop (R : CRep h l C b Y K S) :
    ∃ k ≤ (h.content b.refs).length, (C.block ≠ NULL → ∃ r rs, b.refs = r :: rs ∧
        k = C.data - r.offset) ∧ (C.block = NULL → k = 0) ∧
      h.content (C.uncut b.refs) = (h.content b.refs).drop k := by
  have hloc := R.loc
  generalize b.refs = refs at hloc
  cases hloc with
  | idle => exact ⟨0, Nat.zero_le _, fun hne => absurd rfl hne, fun _ => rfl, rfl⟩
  | loaded _ r rs hne hblock hoff hle hend =>
    have hstop : C.dataEnd = r.offset + r.length := hend
    have hsize : C.size = C.dataEnd - C.data := rfl
    refine ⟨C.data - r.offset, ?_, fun _ => ⟨r, rs, rfl, rfl⟩, fun hnull => absurd hnull hne, ?_⟩
    · rw [content_length, sumLen_cons]
      lia
    · rw [IOBufCutter.uncut_loaded hne, content_cons, content_cons,
        drop_append_of_le_length (by rw [bytes_length]; lia)]
      congr 1
      simp only [bytes]
      rw [read_drop (by lia), hblock]
      congr 1 <;> lia

/-- Bytes appended to the buffer are uncut bytes, if the first reference stays as
it was. -/
theorem CRep.appended {l' : List Ptr} {Y' : Multiset BlockRef}
    (R : CRep h l C b Y K S) (R' : Rep true h' l' b' Y' K S)
    (hfront : ∀ r rs, C.block ≠ NULL → b.refs = r :: rs → ∃ rs', b'.refs = r :: rs')
    (hc : h'.content b'.refs = h.content b.refs ++ bs) :
    CRep h' l' C b' Y' K S ∧ h'.content (C.uncut b'.refs) = h.content (C.uncut b.refs) ++ bs := by
  have R1 : CRep h' l' C b' Y' K S := by
    refine ⟨R', ?_⟩
    have hloc := R.loc
    generalize hrefs : b.refs = refs at hloc
    cases hloc with
    | idle => exact .idle _
    | loaded _ r rs hne hblock hoff hle hend =>
      obtain ⟨rs', hrs'⟩ := hfront r rs hne hrefs
      rw [hrs']
      exact .loaded _ r rs' hne hblock hoff hle hend
  refine ⟨R1, ?_⟩
  obtain ⟨k, hk, hload, hidle, hdrop⟩ := R.uncut_eq_drop
  obtain ⟨k', -, hload', hidle', hdrop'⟩ := R1.uncut_eq_drop
  have hkk : k' = k := by
    by_cases hnull : C.block = NULL
    · rw [hidle hnull, hidle' hnull]
    · obtain ⟨r, rs, hrefs, rfl⟩ := hload hnull
      obtain ⟨r', rs', hrefs', rfl⟩ := hload' hnull
      obtain ⟨rs'', hrs''⟩ := hfront r rs hnull hrefs
      rw [hrefs'] at hrs''
      rw [(cons.inj hrs'').1]
  rw [hdrop', hdrop, hkk, hc, drop_append_of_le_length hk]

end

end Eabase.IOBuf
