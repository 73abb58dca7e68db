import Mathlib.Data.FinEnum
import Eabase.IOBuf.BytesIterator
import Eabase.Lib.Numeral

/-!
# Printing binary data

`ToPrintableString` writes every byte as one, two or three characters, up to a
length, and says then how many bytes it skips. The characters go through a buffer
that is handed on when it is nearly full. There are two loops, over the blocks of
an `IOBuf` and over a `StringPiece`.

The text does not tell where the blocks begin, except that the number of skipped
bytes is wrong when `size()` is. The characters can be read back: a letter behind
a backslash is a small one, and hexadecimal digits are capitals.
-/

namespace Eabase.IOBuf

open Lib List

/-! ## The code -/

/-- `BUF_SIZE`. -/
def BUF_SIZE : ℕ := 127

/-- `s_binary_char_map`. -/
def binaryCharMap : List Byte :=
  [48, 49, 50, 51, 52, 53, 54, 55, 56, 57, 65, 66, 67, 68, 69, 70]

/-- What `PushChar` writes for a byte. -/
def escape (c : Byte) : List Byte :=
  if 32 ≤ c ∧ c ≤ 126 then -- displayable ascii characters
    if c ≠ 92 then [c] else [92, 92]
  else
    92 ::
      if c = 8 then [98]
      else if c = 9 then [116]
      else if c = 10 then [110]
      else if c = 13 then [114]
      else [binaryCharMap.getD (c >>> 4).toNat 0, binaryCharMap.getD (c &&& 0xF).toNat 0]

theorem length_escape_le (c : Byte) : (escape c).length ≤ 3 := by
  unfold escape
  split_ifs <;> simp only [length_cons, length_nil] <;> lia

/-- `_buf` up to `_n`, and what the appender was given. -/
structure BinaryCharPrinter where
  buf : List Byte
  fits : buf.length ≤ BUF_SIZE
  out : List Byte

namespace BinaryCharPrinter

def new : BinaryCharPrinter := ⟨[], Nat.zero_le _, []⟩

section

variable (p : BinaryCharPrinter)

/-- `Flush`, also of the destructor. -/
def flush : BinaryCharPrinter :=
  if 0 < p.buf.length then ⟨[], Nat.zero_le _, p.out ++ p.buf⟩ else p

/-- The beginning of `PushChar`: there is room for three characters. -/
def makeRoom : BinaryCharPrinter :=
  if p.buf.length > BUF_SIZE - 3 then ⟨[], Nat.zero_le _, p.out ++ p.buf⟩ else p

theorem makeRoom_le : p.makeRoom.buf.length ≤ BUF_SIZE - 3 := by
  unfold makeRoom
  split
  · exact Nat.zero_le _
  case isFalse hle => exact not_lt.1 hle

/-- `PushChar`. -/
def pushChar (c : Byte) : BinaryCharPrinter where
  buf := p.makeRoom.buf ++ escape c
  fits := by
    rw [List.length_append]
    exact Nat.add_le_add p.makeRoom_le (length_escape_le c)
  out := p.makeRoom.out

/-- `appender->Append`. -/
def append (bs : List Byte) : BinaryCharPrinter :=
  { p with out := p.out ++ bs }

end

end BinaryCharPrinter

def bytesOf (s : String) : List Byte := s.toList.map fun c => UInt8.ofNat c.toNat

/-- What `snprintf` writes about the skipped bytes. -/
def skipNotice (n : ℕ) : List Byte :=
  bytesOf "...<skipping " ++ decimal n ++ bytesOf " bytes>"

/-- The loop of `PrintString`, from the index `i` on. -/
def printStringLoop (size maxLength : ℕ) : List Byte → ℕ → BinaryCharPrinter → BinaryCharPrinter
  | [], _, p => p
  | c :: s, i, p =>
    if maxLength ≤ i then p.flush.append (skipNotice (IOBuf32.sub64 size i))
    else printStringLoop size maxLength s (i + 1) (p.pushChar c)

def printString (s : List Byte) (maxLength : ℕ) : List Byte :=
  (printStringLoop s.length maxLength s 0 .new).flush.out

/-- The inner loop of `PrintIOBuf`, over a block; it may end the outer one. -/
def printBlock (size maxLength : ℕ) : List Byte → ℕ → BinaryCharPrinter → Bool × ℕ × BinaryCharPrinter
  | [], nw, p => (false, nw, p)
  | c :: blk, nw, p =>
    if maxLength ≤ nw then (true, nw, p.flush.append (skipNotice (IOBuf32.sub64 size nw)))
    else printBlock size maxLength blk (nw + 1) (p.pushChar c)

def printBlocks (b : IOBuf) (h : Heap) (maxLength : ℕ) : List ℕ → ℕ → BinaryCharPrinter →
    BinaryCharPrinter
  | [], _, p => p
  | i :: is, nw, p =>
    let (blk, data, size) := b.backingBlock i
    match printBlock (IOBuf32.length b) maxLength (h.read blk data size) nw p with
    | (true, _, p') => p'
    | (false, nw', p') => printBlocks b h maxLength is nw' p'

def printIOBuf (b : IOBuf) (h : Heap) (maxLength : ℕ) : List Byte :=
  (printBlocks b h maxLength (List.range b.refNum) 0 .new).flush.out

/-- `ToPrintableString(const IOBuf& data, size_t max_length)`. -/
def toPrintableString (b : IOBuf) (h : Heap) (maxLength : ℕ) : List Byte := b.printIOBuf h maxLength

/-- `ToPrintableString(const StringPiece& data, size_t max_length)`. -/
def toPrintableStringPiece (data : List Byte) (maxLength : ℕ) : List Byte := printString data maxLength

/-- `ToPrintableString(const void* data, size_t n, size_t max_length)`. -/
def toPrintableStringData (mem : ℕ → Byte) (data n maxLength : ℕ) : List Byte :=
  printString ((List.range n).map fun i => mem (data + i)) maxLength

/-! ## What is printed -/

variable {b : IOBuf} {h : Heap} {s t bs : List Byte} {size maxLength i nw : ℕ}
  {p : BinaryCharPrinter} {c : Byte}

def BinaryCharPrinter.text (p : BinaryCharPrinter) : List Byte := p.out ++ p.buf

namespace BinaryCharPrinter

section

variable (p : BinaryCharPrinter)

@[simp] theorem flush_out : p.flush.out = p.text := by
  unfold flush
  split
  · rfl
  case isFalse hpos =>
    rw [text, eq_nil_of_length_eq_zero (Nat.eq_zero_of_not_pos hpos), append_nil]

@[simp] theorem flush_buf : p.flush.buf = [] := by
  unfold flush
  split
  · rfl
  case isFalse hpos => exact eq_nil_of_length_eq_zero (Nat.eq_zero_of_not_pos hpos)

theorem flush_append_text (bs : List Byte) : (p.flush.append bs).text = p.text ++ bs := by
  show p.flush.out ++ bs ++ p.flush.buf = p.text ++ bs
  rw [flush_buf, flush_out, append_nil]

theorem pushChar_text (c : Byte) : (p.pushChar c).text = p.text ++ escape c := by
  have hroom : p.makeRoom.text = p.text := by
    unfold makeRoom
    split
    · exact append_nil _
    · rfl
  rw [← hroom]
  exact (append_assoc _ _ _).symm

end

end BinaryCharPrinter

/-- The characters of the bytes up to `maxLength`, and the notice when there are more. -/
def shown (s : List Byte) (size maxLength : ℕ) : List Byte :=
  (s.take maxLength).flatMap escape ++
    if s.length ≤ maxLength then [] else skipNotice (IOBuf32.sub64 size maxLength)

/-- What a loop adds from the index `i` on. -/
def shownFrom (s : List Byte) (size maxLength i : ℕ) : List Byte :=
  (s.take (maxLength - i)).flatMap escape ++
    if s.length ≤ maxLength - i then [] else skipNotice (IOBuf32.sub64 size maxLength)

theorem shownFrom_nil : shownFrom [] size maxLength i = [] := by
  have hle : ([] : List Byte).length ≤ maxLength - i := Nat.zero_le _
  rw [shownFrom, if_pos hle, take_nil]
  rfl

theorem shownFrom_cons (hi : i < maxLength) :
    shownFrom (c :: s) size maxLength i = escape c ++ shownFrom s size maxLength (i + 1) := by
  have hsucc : maxLength - i = maxLength - (i + 1) + 1 := by lia
  rw [shownFrom, hsucc, take_succ_cons, flatMap_cons, length_cons, append_assoc]
  simp only [Nat.add_le_add_iff_right]
  rfl

theorem shownFrom_stop : shownFrom (c :: s) size maxLength maxLength
      = skipNotice (IOBuf32.sub64 size maxLength) := by
  rw [shownFrom, Nat.sub_self, if_neg (by simp)]
  rfl

theorem printStringLoop_text (hi : i ≤ maxLength) :
    (printStringLoop size maxLength s i p).text = p.text ++ shownFrom s size maxLength i := by
  induction s generalizing i p with
  | nil => rw [shownFrom_nil, append_nil, printStringLoop]
  | cons c s ih =>
    rw [printStringLoop]
    split
    case isTrue hle =>
      obtain rfl := le_antisymm hi hle
      rw [p.flush_append_text, shownFrom_stop]
    case isFalse hlt =>
      rw [ih (not_le.1 hlt), p.pushChar_text, shownFrom_cons (not_le.1 hlt), append_assoc]

theorem printString_eq (s : List Byte) (maxLength : ℕ) : printString s maxLength
      = shown s s.length maxLength := by
  rw [printString, BinaryCharPrinter.flush_out, printStringLoop_text (Nat.zero_le _)]
  rfl

/-- A block prints what the loop over the string does, and leaves the rest to the next one. -/
theorem printBlock_text (hnw : nw ≤ maxLength) (rest : List Byte) :
    ∃ stop nw' p', printBlock size maxLength s nw p = (stop, nw', p') ∧
      if stop then p'.text = p.text ++ shownFrom (s ++ rest) size maxLength nw
      else nw' ≤ maxLength ∧
        p'.text ++ shownFrom rest size maxLength nw' = p.text ++
        shownFrom (s ++ rest) size maxLength nw := by
  induction s generalizing nw p with
  | nil => exact ⟨false, nw, p, rfl, hnw, rfl⟩
  | cons c s ih =>
    rw [printBlock]
    split
    case isTrue hle =>
      obtain rfl := le_antisymm hnw hle
      refine ⟨true, _, _, rfl, ?_⟩
      rw [cons_append, shownFrom_stop]
      exact p.flush_append_text _
    case isFalse hlt =>
      obtain ⟨stop, nw', p', heq, htext⟩ := ih (p := p.pushChar c) (not_le.1 hlt)
      refine ⟨stop, nw', p', heq, ?_⟩
      rw [cons_append, shownFrom_cons (not_le.1 hlt), ← append_assoc, ← p.pushChar_text]
      exact htext

theorem printBlocks_text (hb : b.ViewWF) (hi : i ≤ b.refNum) (hnw : nw ≤ maxLength) :
    (printBlocks b h maxLength (range' i (b.refNum - i)) nw p).text =
      p.text ++ shownFrom (h.content (b.refs.drop i)) (IOBuf32.length b) maxLength nw := by
  induction hn : b.refNum - i generalizing i nw p with
  | zero =>
    have hnil : b.refs.drop i = [] := drop_eq_nil_of_le (by rw [← refNum_eq hb]; lia)
    rw [hnil, Heap.content_nil, shownFrom_nil, append_nil]
    rfl
  | succ n ih =>
    have hlt : i < b.refNum := by lia
    have hcontent : h.content (b.refs.drop i) = h.bytes (b.refAt i) ++
        h.content (b.refs.drop (i + 1)) := by
      rw [drop_refs hb hlt]
      exact Heap.content_cons h _ _
    rw [range'_succ, printBlocks, backingBlock, if_pos hlt, hcontent]
    obtain ⟨stop, nw', p', heq, htext⟩ := printBlock_text (s := h.bytes (b.refAt i)) (p := p) hnw
      (h.content (b.refs.drop (i + 1)))
    simp only [Heap.bytes] at heq htext ⊢
    rw [heq]
    cases stop with
    | true => exact htext
    | false =>
      obtain ⟨hle, htext⟩ := htext
      rw [← htext]
      exact ih (by lia) hle (by lia)

theorem printIOBuf_eq (hb : b.ViewWF) (maxLength : ℕ) :
    b.printIOBuf h maxLength = shown (h.content b.refs) (IOBuf32.length b) maxLength := by
  have hloop := printBlocks_text (h := h) (p := .new) hb (Nat.zero_le _) (Nat.zero_le maxLength)
  rw [Nat.sub_zero, drop_zero, ← range_eq_range'] at hloop
  rw [printIOBuf, BinaryCharPrinter.flush_out, hloop]
  rfl

/-! ## Reading it back -/

/-- The value of a character of `s_binary_char_map`. -/
def hexValue (c : Byte) : Byte := if c ≤ 57 then c - 48 else c - 55

/-- Where the decoder stands: behind a backslash, or behind that and the first half of a byte. -/
inductive Decoder where
  | plain
  | escaped
  | half (d : Byte)

def decodeFrom : Decoder → List Byte → List Byte
  | _, [] => []
  | .plain, c :: t => if c = 92 then decodeFrom .escaped t else c :: decodeFrom .plain t
  | .escaped, c :: t =>
    if c = 92 then 92 :: decodeFrom .plain t
    else if c = 98 then 8 :: decodeFrom .plain t
    else if c = 116 then 9 :: decodeFrom .plain t
    else if c = 110 then 10 :: decodeFrom .plain t
    else if c = 114 then 13 :: decodeFrom .plain t
    else decodeFrom (.half c) t
  | .half d, c :: t => (hexValue d * 16 + hexValue c) :: decodeFrom .plain t

def decode (t : List Byte) : List Byte := decodeFrom .plain t

theorem forall_byte {P : Byte → Prop} (h : ∀ n : Fin 256, P (UInt8.ofFin n)) (c : Byte) : P c := h c.toFin

/-- The characters for the halves of a byte are capitals and digits, and give back the byte. -/
theorem hexValue_map (c : Byte) :
    let d := binaryCharMap.getD (c >>> 4).toNat 0
    let e := binaryCharMap.getD (c &&& 0xF).toNat 0
    (d ≠ 92 ∧ d ≠ 98 ∧ d ≠ 116 ∧ d ≠ 110 ∧ d ≠ 114) ∧ hexValue d * 16 + hexValue e = c := by
  revert c
  apply forall_byte
  decide +kernel

theorem decode_escape (c : Byte) (t : List Byte) : decode (escape c ++ t) = c :: decode t := by
  unfold escape
  split_ifs with hascii hback h8 h9 h10 h13
  · exact if_neg hback
  · rw [not_not.1 hback]
    rfl
  · rw [h8]
    rfl
  · rw [h9]
    rfl
  · rw [h10]
    rfl
  · rw [h13]
    rfl
  · obtain ⟨⟨hd92, hd98, hd116, hd110, hd114⟩, hvalue⟩ := hexValue_map c
    rw [cons_append, decode, decodeFrom, if_pos rfl, cons_append, decodeFrom, if_neg hd92, if_neg hd98,
      if_neg hd116, if_neg hd110, if_neg hd114, singleton_append, decodeFrom, hvalue, decode]

theorem decode_flatMap_escape (s : List Byte) : decode (s.flatMap escape) = s := by
  induction s with
  | nil => rfl
  | cons c s ih => rw [flatMap_cons, decode_escape, ih]

/-- `text` is printed from `s`: before the notice, if there is one, the first bytes of `s` can be
read. -/
def Readable (text s : List Byte) (maxLength : ℕ) : Prop :=
  ∃ front notice, text = front ++ notice ∧ decode front = s.take maxLength ∧
    (notice = [] ∧ s.length ≤ maxLength ∨ ∃ n, notice = skipNotice n ∧ maxLength < s.length)

theorem shown_readable (s : List Byte) (size maxLength : ℕ) :
    Readable (shown s size maxLength) s maxLength := by
  refine ⟨_, _, rfl, decode_flatMap_escape _, ?_⟩
  split
  case isTrue hle => exact .inl ⟨rfl, hle⟩
  case isFalse hlt => exact .inr ⟨_, rfl, not_le.1 hlt⟩

theorem shown_injective {size' maxLength' : ℕ} (hs : s.length ≤ maxLength) (ht : t.length ≤ maxLength')
    (heq : shown s size maxLength = shown t size' maxLength') : s = t := by
  rw [shown, shown, if_pos hs, if_pos ht, append_nil, append_nil, take_of_length_le hs,
    take_of_length_le ht] at heq
  rw [← decode_flatMap_escape s, heq, decode_flatMap_escape]

theorem skipNotice_injective : Function.Injective skipNotice := by
  intro m n heq
  rw [skipNotice, skipNotice, append_assoc, append_assoc] at heq
  exact decimal_injective (append_cancel_right (append_cancel_left heq))

/-! ## The texts -/

theorem shown_eq_iff (hsize : size < 2 ^ 64) (hs : s.length < 2 ^ 64) :
    shown s size maxLength = shown s s.length maxLength ↔ s.length ≤ maxLength ∨ size = s.length := by
  rw [shown, shown]
  split
  case isTrue hle => exact iff_of_true rfl (.inl hle)
  case isFalse hlt =>
    rw [or_iff_right hlt, append_cancel_left_eq, skipNotice_injective.eq_iff, IOBuf32.sub64,
      IOBuf32.sub64]
    lia

theorem length_lt (hb : b.ViewWF) (hs : (h.content b.refs).length < 2 ^ 64) :
    IOBuf32.length b < 2 ^ 64 := by
  cases b with
  | sv refs0 refs1 => exact lt_trans (Nat.mod_lt _ (by decide)) (by decide)
  | bv v =>
    rw [Heap.content_length, ← length_eq hb] at hs
    exact hs

/-- **The printable form does not tell the segmentation, and can be read back**: of an `IOBuf` it is
the same as of its bytes, and of the bytes anywhere in memory, exactly when all bytes are printed or
`size()` is right. -/
theorem toPrintableString_agrees_iff (maxLength : ℕ) (hb : b.ViewWF) (hs : h.content b.refs = s)
    (hlen : s.length < 2 ^ 64) :
    ((b.toPrintableString h maxLength = toPrintableStringPiece s maxLength ∧
        ∀ mem data, (∀ i (hi : i < s.length), mem (data + i) = s[i]) →
          b.toPrintableString h maxLength = toPrintableStringData mem data s.length maxLength) ↔
      s.length ≤ maxLength ∨ IOBuf32.length b = s.length) ∧
      Readable (b.toPrintableString h maxLength) s maxLength ∧
      Readable (toPrintableStringPiece s maxLength) s maxLength ∧
      ∀ t maxLength', s.length ≤ maxLength → t.length ≤ maxLength' →
        (b.toPrintableString h maxLength = toPrintableStringPiece t maxLength' ∨
          toPrintableStringPiece s maxLength = toPrintableStringPiece t maxLength') → s = t := by
  have hbuf : b.toPrintableString h maxLength = shown s (IOBuf32.length b) maxLength :=
    hs ▸ printIOBuf_eq hb maxLength
  have hpiece : ∀ t n, toPrintableStringPiece t n = shown t t.length n := printString_eq
  have hdata : ∀ mem data, (∀ i (hi : i < s.length), mem (data + i) = s[i]) →
      toPrintableStringData mem data s.length maxLength = toPrintableStringPiece s maxLength := by
    intro mem data hmem
    have hbytes : ((range s.length).map fun i => mem (data + i)) = s := by
      apply ext_getElem
      · rw [length_map, length_range]
      · intro i _ hi
        rw [getElem_map, getElem_range, hmem i hi]
    rw [toPrintableStringData, hbytes, toPrintableStringPiece]
  rw [hbuf, hpiece]
  refine ⟨?_, shown_readable .., shown_readable .., ?_⟩
  · rw [← shown_eq_iff (length_lt hb (hs ▸ hlen)) hlen]
    constructor
    · exact fun h => h.1
    · intro heq
      exact ⟨heq, fun mem data hmem => by rw [heq, hdata mem data hmem, hpiece]⟩
  · intro t maxLength' hle hle' heq
    rw [hpiece] at heq
    rcases heq with heq | heq
    · exact shown_injective hle hle' heq
    · exact shown_injective hle hle' heq

/-- Three bytes in two blocks, of which two are printed. -/
theorem toPrintableString_agrees_three :
    let h : Heap := Heap.init (fun _ k => k.toUInt8) fun _ => false
    (sv ⟨91, 2, 1⟩ ⟨7, 1, 2⟩).toPrintableString h 2 = toPrintableStringPiece [91, 92, 7] 2 ∧
      Readable ((sv ⟨91, 2, 1⟩ ⟨7, 1, 2⟩).toPrintableString h 2) [91, 92, 7] 2 := by
  intro h
  obtain ⟨hagrees, hreadable, _⟩ := toPrintableString_agrees_iff (b := sv ⟨91, 2, 1⟩ ⟨7, 1, 2⟩) (h := h)
    (s := [91, 92, 7]) 2 ⟨by decide, by decide⟩ rfl (by decide)
  exact ⟨(hagrees.2 (.inr rfl)).1, hreadable⟩

/-- 4 GB of user data in two references: no byte is said to be skipped. -/
theorem wrapped_size_skips_none :
    let b := sv ⟨0, 2 ^ 31, 1⟩ ⟨0, 2 ^ 31, 2⟩
    let h := Heap.init (fun _ _ => 0) fun _ => false
    b.toPrintableString h 0 ≠ toPrintableStringPiece (h.content b.refs) 0 := by
  intro b h heq
  have hb : b.ViewWF := ⟨by decide, by decide⟩
  have hlen : (h.content b.refs).length = 2 ^ 32 := by
    rw [Heap.content_length]
    decide
  rw [toPrintableString, printIOBuf_eq hb, toPrintableStringPiece, printString_eq,
    shown_eq_iff (by decide) (by rw [hlen]; decide), hlen] at heq
  exact absurd heq (by decide)

end Eabase.IOBuf
