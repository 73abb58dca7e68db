import Eabase.IOBuf.Cutter
import Eabase.IOBuf.Refine

/-!
# `RecordReader`

The reader parses what an `IOBufCutter` gives it and knows nothing of blocks and references.
It is modelled over the member functions of the cutter that it calls (`CutterOps`); the bytes
themselves with the list functions (`CutterOps.ofBytes`) are one such cutter, and
`IOBufCutter` on a well-formed buffer is another.

A cutter that is `Lawful` does to the bytes it stands for what the list functions do. With
such a cutter the reader does what it does with the bytes (`cutRecord_map`,
`cutUntilNextRecordCandidate_map`), so everything else is proved of byte strings.

`CHECK` logs and goes on; whether it held is part of the result. `tmp` is read and written as
the four bytes of a little-endian machine.
-/

namespace Eabase.Utility.RecordIO

open IOBuf (Byte Ptr BlockRef Heap IOBufCutter Rep CRep)

/-! ## Records -/

/-- `EA_RECORDIO_MAGIC`. -/
def magic : List Byte := [82, 68, 73, 79]

def MAX_NAME_SIZE : ℕ := 256

def crc8Table : List Byte := [
  0xea, 0xd4, 0x96, 0xa8, 0x12, 0x2c, 0x6e, 0x50, 0x7f, 0x41, 0x03, 0x3d,
  0x87, 0xb9, 0xfb, 0xc5, 0xa5, 0x9b, 0xd9, 0xe7, 0x5d, 0x63, 0x21, 0x1f,
  0x30, 0x0e, 0x4c, 0x72, 0xc8, 0xf6, 0xb4, 0x8a, 0x74, 0x4a, 0x08, 0x36,
  0x8c, 0xb2, 0xf0, 0xce, 0xe1, 0xdf, 0x9d, 0xa3, 0x19, 0x27, 0x65, 0x5b,
  0x3b, 0x05, 0x47, 0x79, 0xc3, 0xfd, 0xbf, 0x81, 0xae, 0x90, 0xd2, 0xec,
  0x56, 0x68, 0x2a, 0x14, 0xb3, 0x8d, 0xcf, 0xf1, 0x4b, 0x75, 0x37, 0x09,
  0x26, 0x18, 0x5a, 0x64, 0xde, 0xe0, 0xa2, 0x9c, 0xfc, 0xc2, 0x80, 0xbe,
  0x04, 0x3a, 0x78, 0x46, 0x69, 0x57, 0x15, 0x2b, 0x91, 0xaf, 0xed, 0xd3,
  0x2d, 0x13, 0x51, 0x6f, 0xd5, 0xeb, 0xa9, 0x97, 0xb8, 0x86, 0xc4, 0xfa,
  0x40, 0x7e, 0x3c, 0x02, 0x62, 0x5c, 0x1e, 0x20, 0x9a, 0xa4, 0xe6, 0xd8,
  0xf7, 0xc9, 0x8b, 0xb5, 0x0f, 0x31, 0x73, 0x4d, 0x58, 0x66, 0x24, 0x1a,
  0xa0, 0x9e, 0xdc, 0xe2, 0xcd, 0xf3, 0xb1, 0x8f, 0x35, 0x0b, 0x49, 0x77,
  0x17, 0x29, 0x6b, 0x55, 0xef, 0xd1, 0x93, 0xad, 0x82, 0xbc, 0xfe, 0xc0,
  0x7a, 0x44, 0x06, 0x38, 0xc6, 0xf8, 0xba, 0x84, 0x3e, 0x00, 0x42, 0x7c,
  0x53, 0x6d, 0x2f, 0x11, 0xab, 0x95, 0xd7, 0xe9, 0x89, 0xb7, 0xf5, 0xcb,
  0x71, 0x4f, 0x0d, 0x33, 0x1c, 0x22, 0x60, 0x5e, 0xe4, 0xda, 0x98, 0xa6,
  0x01, 0x3f, 0x7d, 0x43, 0xf9, 0xc7, 0x85, 0xbb, 0x94, 0xaa, 0xe8, 0xd6,
  0x6c, 0x52, 0x10, 0x2e, 0x4e, 0x70, 0x32, 0x0c, 0xb6, 0x88, 0xca, 0xf4,
  0xdb, 0xe5, 0xa7, 0x99, 0x23, 0x1d, 0x5f, 0x61, 0x9f, 0xa1, 0xe3, 0xdd,
  0x67, 0x59, 0x1b, 0x25, 0x0a, 0x34, 0x76, 0x48, 0xf2, 0xcc, 0x8e, 0xb0,
  0xd0, 0xee, 0xac, 0x92, 0x28, 0x16, 0x54, 0x6a, 0x45, 0x7b, 0x39, 0x07,
  0xbd, 0x83, 0xc1, 0xff]

def crcStep (crc c : Byte) : Byte := crc8Table.getD (crc ^^^ c).toNat 0

/-- `SizeChecksum(uint32_t input)`. -/
def sizeChecksum (input : ℕ) : Byte :=
  [0, 8, 16, 24].foldl (fun crc i => crcStep crc (UInt8.ofNat ((input >>> i) % 256))) 0

/-- `NetToHost32` of four bytes of memory. -/
def netToHost32 (mem : List Byte) : ℕ := mem.foldl (fun n c => n * 256 + c.toNat) 0

structure Record where
  metas : List (List Byte × List Byte)
  payload : List Byte
deriving DecidableEq

namespace Record

/-- `Clear()`. -/
def clear : Record := ⟨[], []⟩

/-- `MutableMeta(const std::string& name, bool null_on_found)`: the index of the meta. -/
def mutableMeta (name : List Byte) (nullOnFound : Bool) (rec : Record) : Option (ℕ × Record) :=
  match rec.metas.findIdx? (·.1 = name) with
  | some i => if nullOnFound then none else some (i, rec)
  | none =>
      if MAX_NAME_SIZE < name.length then none
      else if name = [] then none
      else some (rec.metas.length, { rec with metas := rec.metas ++ [(name, [])] })

/-- The meta with index `i` gets more bytes. -/
def appendMeta (i : ℕ) (bs : List Byte) (rec : Record) : Record :=
  { rec with metas := rec.metas.modify i fun m => (m.1, m.2 ++ bs) }

/-- `ByteSize()`. -/
def byteSize (rec : Record) : ℕ :=
  9 + rec.payload.length + (rec.metas.map fun m => 5 + m.1.length + m.2.length).sum

end Record

/-! ## The cutter and the reader -/

/-- What the reader calls of an `IOBufCutter`. `cutn` is into an empty `IOBuf` and gives its
bytes. -/
structure CutterOps (σ : Type) where
  remainingBytes : σ → ℕ
  copyTo : ℕ → σ → List Byte × σ
  popFront : ℕ → σ → σ
  cut1 : σ → Option Byte × σ
  cutnRaw : ℕ → σ → List Byte × σ
  cutnString : ℕ → σ → List Byte × σ
  cutn : ℕ → σ → List Byte × σ

def CutterOps.ofBytes : CutterOps (List Byte) where
  remainingBytes s := s.length
  copyTo n s := (s.take n, s)
  popFront n s := s.drop n
  cut1 s := (s.head?, s.tail)
  cutnRaw n s := (s.take n, s.drop n)
  cutnString n s := (s.take n, s.drop n)
  cutn n s := (s.take n, s.drop n)

/-- `_cutter` and `_ncut`. -/
structure Reader (σ : Type) where
  cutter : σ
  ncut : ℕ

/-- What `CutRecord` returns, the record, the reader, and whether its `CHECK` held. -/
structure CutResult (σ : Type) where
  rc : ℤ
  out : Record
  reader : Reader σ
  checked : Bool

/-- What is cut before a meta: whether there was a byte for the size of the name, that size, the
name, `tmp`, and the cutter. -/
structure MetaHead (σ : Type) where
  cut : Bool
  nameSize : ℕ
  name : List Byte
  tmp : List Byte
  cutter : σ

section

variable {σ : Type} (C : CutterOps σ)

/-- The size of the name, the name and the word behind it; of `tmp` only what is cut is
overwritten. -/
def cutMetaHead (tmp : List Byte) (s : σ) : MetaHead σ :=
  let one := C.cut1 s
  let nameSize := (one.1.getD 0).toNat
  let name := C.cutnString nameSize one.2
  let word := C.cutnRaw 4 name.2
  ⟨one.1.isSome, nameSize, name.1, word.1 ++ tmp.drop word.1.length, word.2⟩

def cutPayload (dataSize consumedBytes : ℕ) (rec : Record) (r : Reader σ) (checked : Bool) :
    CutResult σ :=
  let cut := C.cutn (dataSize - consumedBytes) r.cutter
  ⟨1, { rec with payload := rec.payload ++ cut.1 }, ⟨cut.2, r.ncut + cut.1.length⟩, checked⟩

/-- The loop over the metas; `tmp` is the memory of the variable. Every round counts five bytes at
least. -/
def metaLoop (dataSize : ℕ) : ℕ → List Byte → Bool → ℕ → Record → Reader σ → Bool → CutResult σ
  | 0, _, _, _, rec, r, checked => ⟨-1, rec, r, checked⟩
  | _ + 1, _, false, consumedBytes, rec, r, checked => cutPayload C dataSize consumedBytes rec r checked
  | fuel + 1, tmp, true, consumedBytes, rec, r, checked =>
      let head := cutMetaHead C tmp r.cutter
      let val := netToHost32 head.tmp
      let metaSize := val % 2 ^ 31
      let ncut := r.ncut + (5 + head.nameSize)
      let checked := checked && head.cut
      if dataSize < consumedBytes + 5 + head.nameSize + metaSize
        then ⟨-1, rec, ⟨head.cutter, ncut⟩, checked⟩
      else
        match rec.mutableMeta head.name true with
        | none => ⟨-1, rec, ⟨head.cutter, ncut⟩, checked⟩
        | some (i, rec') =>
            let cut := C.cutn metaSize head.cutter
            metaLoop dataSize fuel head.tmp.reverse (2 ^ 31 ≤ val)
              (consumedBytes + (5 + head.nameSize + metaSize))
              (rec'.appendMeta i cut.1) ⟨cut.2, ncut + metaSize⟩ checked

/-- `CutRecord(Record* rec)`; `maxRecordSize` is `-recordio_max_record_size`. -/
def cutRecord (maxRecordSize : ℕ) (rec : Record) (r : Reader σ) : CutResult σ :=
  let head := C.copyTo 9 r.cutter
  if head.1.length ≠ 9 then ⟨0, rec, ⟨head.2, r.ncut⟩, true⟩
  else if head.1.take 4 ≠ magic then ⟨-1, rec, ⟨head.2, r.ncut⟩, true⟩
  else
    let mem := (head.1.drop 4).take 4
    let tmp := netToHost32 mem
    let dataSize := tmp % 2 ^ 31
    if sizeChecksum tmp ≠ head.1.getD 8 0 then ⟨-1, rec, ⟨head.2, r.ncut⟩, true⟩
    else if maxRecordSize < dataSize then ⟨-1, rec, ⟨head.2, r.ncut⟩, true⟩
    else if C.remainingBytes head.2 < dataSize + 9 then ⟨0, rec, ⟨head.2, r.ncut⟩, true⟩
    else metaLoop C dataSize (dataSize + 1) mem.reverse (2 ^ 31 ≤ tmp) 0 .clear
      ⟨C.popFront 9 head.2, r.ncut + 9⟩ true

def findMagic (buf : List Byte) : Option ℕ :=
  (List.range (buf.length + 1 - magic.length)).find? fun i => (buf.drop i).take magic.length = magic

/-- The loop over windows of 512 bytes; every round but the last pops 509. -/
def candidateLoop : ℕ → Reader σ → Bool × Reader σ
  | 0, r => (false, r)
  | fuel + 1, r =>
      let buf := C.copyTo 512 r.cutter
      let nc := buf.1.length
      if nc < magic.length then (false, ⟨buf.2, r.ncut⟩)
      else
        match findMagic buf.1 with
        | some i => (true, ⟨C.popFront i buf.2, r.ncut + i⟩)
        | none =>
            let m := nc + 1 - magic.length
            let r' : Reader σ := ⟨C.popFront m buf.2, r.ncut + m⟩
            if nc < 512 then (false, r') else candidateLoop fuel r'

/-- `CutUntilNextRecordCandidate()`. -/
def cutUntilNextRecordCandidate (r : Reader σ) : Bool × Reader σ :=
  let first := C.copyTo magic.length r.cutter
  if first.1.length ≠ magic.length then (false, ⟨first.2, r.ncut⟩)
  else
    let r' : Reader σ :=
      if first.1 = magic then ⟨C.popFront magic.length first.2, r.ncut + magic.length⟩
        else ⟨first.2, r.ncut⟩
    candidateLoop C (C.remainingBytes r'.cutter + 1) r'

/-- What `append_from_reader` can come back with: bytes, or an error. -/
abbrev Read : Type := Except ℤ (List Byte)

/-- The result of `ReadNext`; the last member is `_last_error`. -/
structure NextResult (σ : Type) where
  ok : Bool
  out : Record
  reader : Reader σ
  reads : List Read
  lastError : ℤ

def END_OF_READER : ℤ := -1

/-- `append_from_reader`, and what is done when it returns no bytes; `append` is the cutter after
the portal got some. -/
def refill (append : List Byte → σ → σ) (rec : Record) (r : Reader σ) (reads : List Read)
    (go : Reader σ → List Read → NextResult σ) : NextResult σ :=
  match reads with
  | [] => ⟨false, rec, r, [], END_OF_READER⟩
  | .error e :: reads => ⟨false, rec, r, reads, e⟩
  | .ok [] :: reads => ⟨false, rec, r, reads, END_OF_READER⟩
  | .ok (c :: bs) :: reads => go ⟨append (c :: bs) r.cutter, r.ncut⟩ reads

/-- `while (!CutUntilNextRecordCandidate())`; every round but the last reads. -/
def resyncLoop (append : List Byte → σ → σ) (rec : Record) (go : Reader σ → List Read → NextResult σ) :
    ℕ → Reader σ → List Read → NextResult σ
  | 0, r, reads => ⟨false, rec, r, reads, END_OF_READER⟩
  | fuel + 1, r, reads =>
      let next := cutUntilNextRecordCandidate C r
      if next.1 then go next.2 reads
      else refill append rec next.2 reads (resyncLoop append rec go fuel)

/-- The loop of `ReadNext`: every round reads, or cuts at least one byte. -/
def readLoop (append : List Byte → σ → σ) (maxRecordSize : ℕ) : ℕ → Record → Reader σ → List Read →
    NextResult σ
  | 0, rec, r, reads => ⟨false, rec, r, reads, END_OF_READER⟩
  | fuel + 1, rec, r, reads =>
      let cut := cutRecord C maxRecordSize rec r
      if 0 < cut.rc then ⟨true, cut.out, cut.reader, reads, 0⟩
      else if cut.rc < 0 then
        resyncLoop C append cut.out (readLoop append maxRecordSize fuel cut.out) (reads.length + 1)
          cut.reader reads
      else refill append cut.out cut.reader reads (readLoop append maxRecordSize fuel cut.out)

def Read.size : Read → ℕ
  | .ok bs => bs.length
  | .error _ => 0

/-- `ReadNext(Record* out)`. -/
def readNext (append : List Byte → σ → σ) (maxRecordSize : ℕ) (rec : Record) (r : Reader σ)
    (reads : List Read) : NextResult σ :=
  readLoop C append maxRecordSize
    (C.remainingBytes r.cutter + (reads.map Read.size).sum + reads.length + 1) rec r reads

end

/-! ## Lawful cutters -/

/-- The cutter does to the bytes it stands for what the list functions do. -/
structure CutterOps.Lawful {σ : Type} (C : CutterOps σ) (bytes : σ → List Byte) : Prop where
  remainingBytes : ∀ s, C.remainingBytes s = (bytes s).length
  copyTo : ∀ n s, (C.copyTo n s).1 = (bytes s).take n ∧ bytes (C.copyTo n s).2 = bytes s
  popFront : ∀ n s, bytes (C.popFront n s) = (bytes s).drop n
  cut1 : ∀ s, (C.cut1 s).1 = (bytes s).head? ∧ bytes (C.cut1 s).2 = (bytes s).tail
  cutnRaw : ∀ n s, (C.cutnRaw n s).1 = (bytes s).take n ∧ bytes (C.cutnRaw n s).2 = (bytes s).drop n
  cutnString : ∀ n s, (C.cutnString n s).1 = (bytes s).take n ∧ bytes (C.cutnString n s).2
    = (bytes s).drop n
  cutn : ∀ n s, (C.cutn n s).1 = (bytes s).take n ∧ bytes (C.cutn n s).2 = (bytes s).drop n

namespace CutterOps

@[simp] theorem ofBytes_remainingBytes (s : List Byte) : ofBytes.remainingBytes s = s.length := rfl
@[simp] theorem ofBytes_copyTo (n : ℕ) (s : List Byte) : ofBytes.copyTo n s = (s.take n, s) := rfl
@[simp] theorem ofBytes_popFront (n : ℕ) (s : List Byte) : ofBytes.popFront n s = s.drop n := rfl
@[simp] theorem ofBytes_cutn (n : ℕ) (s : List Byte) : ofBytes.cutn n s = (s.take n, s.drop n) := rfl

end CutterOps

def Reader.map {σ τ : Type} (f : σ → τ) (r : Reader σ) : Reader τ := ⟨f r.cutter, r.ncut⟩

open Reader

def CutResult.map {σ τ : Type} (f : σ → τ) (x : CutResult σ) : CutResult τ :=
  ⟨x.rc, x.out, x.reader.map f, x.checked⟩

section

variable {σ : Type} {C : CutterOps σ} {bytes : σ → List Byte}

section

variable (L : C.Lawful bytes)
include L

theorem cutMetaHead_map (tmp : List Byte) (s : σ) :
    (⟨(cutMetaHead C tmp s).cut, (cutMetaHead C tmp s).nameSize, (cutMetaHead C tmp s).name,
      (cutMetaHead C tmp s).tmp,
        bytes (cutMetaHead C tmp s).cutter⟩ : MetaHead (List Byte))
      = cutMetaHead .ofBytes tmp (bytes s) := by
  obtain ⟨hone, hone'⟩ := L.cut1 s
  obtain ⟨hname, hname'⟩ := L.cutnString ((C.cut1 s).1.getD 0).toNat (C.cut1 s).2
  obtain ⟨hword, hword'⟩ := L.cutnRaw 4 (C.cutnString ((C.cut1 s).1.getD 0).toNat (C.cut1 s).2).2
  rw [hname', hone', hone] at hword hword'
  rw [hone', hone] at hname
  simp only [cutMetaHead, hone, hname, hword, hword', CutterOps.ofBytes]

theorem metaLoop_map (dataSize : ℕ) : ∀ (fuel : ℕ) (tmp : List Byte) (hasMeta : Bool) (consumed : ℕ)
    (rec : Record) (r : Reader σ) (checked : Bool),
    (metaLoop C dataSize fuel tmp hasMeta consumed rec r checked).map bytes
      = metaLoop .ofBytes dataSize fuel tmp hasMeta consumed rec (r.map bytes) checked := by
  intro fuel
  induction fuel with
  | zero => exact fun _ _ _ _ _ _ => rfl
  | succ fuel ih =>
    intro tmp hasMeta consumed rec r checked
    cases hasMeta with
    | false =>
      obtain ⟨hcut, hcut'⟩ := L.cutn (dataSize - consumed) r.cutter
      simp only [metaLoop, cutPayload, CutResult.map, map, hcut, hcut', CutterOps.ofBytes]
    | true =>
      have hhead := cutMetaHead_map L tmp r.cutter
      simp only [metaLoop, map, ← hhead]
      split
      · rfl
      · cases rec.mutableMeta (cutMetaHead C tmp r.cutter).name true with
        | none => rfl
        | some p =>
          obtain ⟨hcut, hcut'⟩ := L.cutn (netToHost32 (cutMetaHead C tmp r.cutter).tmp % 2 ^ 31)
            (cutMetaHead C tmp r.cutter).cutter
          rw [ih, hcut]
          simp only [map, hcut', CutterOps.ofBytes]

theorem cutRecord_map (maxRecordSize : ℕ) (rec : Record) (r : Reader σ) :
    (cutRecord C maxRecordSize rec r).map bytes = cutRecord .ofBytes maxRecordSize rec (r.map bytes) := by
  obtain ⟨hhead, hhead'⟩ := L.copyTo 9 r.cutter
  have hrem := L.remainingBytes (C.copyTo 9 r.cutter).2
  have hpop := L.popFront 9 (C.copyTo 9 r.cutter).2
  rw [hhead'] at hrem hpop
  simp only [cutRecord, hrem, hhead, apply_ite (CutResult.map bytes), metaLoop_map L]
  simp only [CutResult.map, map, hhead', hpop]
  rfl

theorem candidateLoop_map : ∀ (fuel : ℕ) (r : Reader σ),
    (candidateLoop C fuel r).map id (map bytes) = candidateLoop .ofBytes fuel (r.map bytes) := by
  intro fuel
  induction fuel with
  | zero => exact fun _ => rfl
  | succ fuel ih =>
    intro r
    obtain ⟨hbuf, hbuf'⟩ := L.copyTo 512 r.cutter
    have hpop : ∀ n k, map bytes ⟨C.popFront n (C.copyTo 512 r.cutter).2, k⟩
        = ⟨(bytes r.cutter).drop n, k⟩ := by
      intro n k
      rw [map, L.popFront, hbuf']
    simp only [candidateLoop, hbuf, CutterOps.ofBytes_copyTo, CutterOps.ofBytes_popFront]
    simp only [map]
    by_cases hshort : ((bytes r.cutter).take 512).length < magic.length
    · simp only [hshort, if_true, Prod.map, id, map, hbuf']
    · simp only [hshort, if_false]
      cases findMagic ((bytes r.cutter).take 512) with
      | some i => simp only [Prod.map, id, hpop]
      | none =>
        by_cases hlast : ((bytes r.cutter).take 512).length < 512
        · simp only [hlast, if_true, Prod.map, id, hpop]
        · simp only [hlast, if_false, ih, hpop]

theorem cutUntilNextRecordCandidate_map (r : Reader σ) :
    (cutUntilNextRecordCandidate C r).map id (map bytes)
      = cutUntilNextRecordCandidate .ofBytes (r.map bytes) := by
  obtain ⟨hfirst, hfirst'⟩ := L.copyTo magic.length r.cutter
  have hpop := L.popFront magic.length (C.copyTo magic.length r.cutter).2
  rw [hfirst'] at hpop
  simp only [cutUntilNextRecordCandidate, hfirst, CutterOps.ofBytes_copyTo, CutterOps.ofBytes_popFront]
  simp only [map]
  by_cases hfull : ((bytes r.cutter).take magic.length).length = magic.length
  · simp only [ne_eq, hfull, not_true_eq_false, if_false, candidateLoop_map L, L.remainingBytes,
      CutterOps.ofBytes_remainingBytes]
    by_cases hmagic : (bytes r.cutter).take magic.length = magic
    · simp only [hmagic, if_true, map, hpop]
    · simp only [hmagic, if_false, map, hfirst']
  · simp only [ne_eq, hfull, not_false_eq_true, if_true, Prod.map, id, map, hfirst']

end

end

/-! ## The cutter of the portal -/

structure Cutting where
  cutter : IOBufCutter
  portal : IOBuf
  heap : Heap
  rep : ∃ l Y K S, CRep heap l cutter portal Y K S

namespace Cutting

def bytes (s : Cutting) : List Byte := s.heap.content (s.cutter.uncut s.portal.refs)

def ops : CutterOps Cutting where
  remainingBytes s := s.cutter.remainingBytes s.portal
  copyTo n s :=
    let x := s.cutter.copyTo n s.portal s.heap
    (x.1, ⟨x.2.1, x.2.2.1, x.2.2.2, s.rep.imp fun _ => .imp fun _ => .imp fun _ => .imp fun _ R =>
      (R.copyTo rfl).1⟩)
  popFront n s :=
    let x := s.cutter.popFront n s.portal s.heap
    ⟨x.2.1, x.2.2.1, x.2.2.2, s.rep.imp fun _ => .imp fun _ => .imp fun _ => .imp fun _ R =>
      (R.popFront rfl).1⟩
  cut1 s :=
    let x := s.cutter.cut1 s.portal s.heap
    (x.1, ⟨x.2.1, x.2.2.1, x.2.2.2, s.rep.imp fun _ => .imp fun _ => .imp fun _ => .imp fun _ R =>
      (R.cut1 rfl).1⟩)
  cutnRaw n s :=
    let x := s.cutter.cutnRaw n s.portal s.heap
    (x.2.1, ⟨x.2.2.1, x.2.2.2.1, x.2.2.2.2,
      s.rep.imp fun _ => .imp fun _ => .imp fun _ => .imp fun _ R => (R.cutnRaw rfl).1⟩)
  cutnString n s :=
    let x := s.cutter.cutnString n [] s.portal s.heap
    (x.2.1, ⟨x.2.2.1, x.2.2.2.1, x.2.2.2.2,
      s.rep.imp fun _ => .imp fun _ => .imp fun _ => .imp fun _ R => (R.cutnString rfl).1⟩)
  cutn n s :=
    let x := s.cutter.cutn n s.portal .new s.heap
    (x.2.2.2.2.content x.2.2.2.1.refs, ⟨x.2.1, x.2.2.1, x.2.2.2.2, by
      obtain ⟨l, Y, K, S, R⟩ := s.rep
      exact ⟨l, x.2.2.2.1.refs + Y, K, S, (R.with_new.cutn IOBuf.wf_new rfl).1⟩⟩)

theorem ops_lawful : ops.Lawful bytes where
  remainingBytes s := by
    obtain ⟨l, Y, K, S, R⟩ := s.rep
    exact R.remainingBytes
  copyTo n s := by
    obtain ⟨l, Y, K, S, R⟩ := s.rep
    exact (R.copyTo rfl).2.2
  popFront n s := by
    obtain ⟨l, Y, K, S, R⟩ := s.rep
    exact (R.popFront rfl).2.2.2
  cut1 s := by
    obtain ⟨l, Y, K, S, R⟩ := s.rep
    exact (R.cut1 rfl).2.2
  cutnRaw n s := by
    obtain ⟨l, Y, K, S, R⟩ := s.rep
    exact (R.cutnRaw rfl).2.2.2
  cutnString n s := by
    obtain ⟨l, Y, K, S, R⟩ := s.rep
    exact (R.cutnString rfl).2.2.2
  cutn n s := by
    obtain ⟨l, Y, K, S, R⟩ := s.rep
    obtain ⟨-, -, -, -, hrest, hout⟩ := R.with_new.cutn IOBuf.wf_new rfl
    exact ⟨hout, hrest⟩

theorem exists_bytes (bs : List Byte) : ∃ s : Cutting, s.bytes = bs := by
  have hnew : Rep true (.init (fun _ _ => 0) fun _ => false) [] .new 0 0 fun _ => none := .new (.init _ _)
  rcases heq : IOBuf.append (some bs) .new (Heap.init (fun _ _ => 0) fun _ => false) with ⟨rc, b, h⟩
  obtain ⟨l, R, -, ⟨-, hcontent⟩ | ⟨-, ⟨q, hq⟩, -⟩⟩ := hnew.append heq
  · exact ⟨⟨.new, _, _, l, 0, 0, _, .new R⟩, hcontent⟩
  · exact absurd hq Bool.false_ne_true

end Cutting

end Eabase.Utility.RecordIO
