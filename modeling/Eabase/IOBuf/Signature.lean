import Eabase.IOBuf.Block
import Eabase.Lib.Search

/-!
# The rolling signature of `_cut_by_delim`

The bytes that were read are shifted into a word of 64 bits, of which a mask
keeps as many bytes as the delimiter has; the word of the delimiter is not
masked. A `char` is signed, so that a byte from 0x80 on fills the bytes in front
of it with ones: what was read before such a byte does not count, and the word of
a delimiter that has one is larger than any masked word unless all 64 bits are
used.
-/

namespace Eabase.IOBuf

open Lib List

/-- `NMAX`, the bytes of a signature. -/
def NMAX : ℕ := 8

/-- `static_cast<SigType>(c)` of a `char`. -/
def castChar (c : Byte) : BitVec 64 := c.toBitVec.signExtend 64

/-- `(sig << CHAR_BIT) | static_cast<SigType>(c)`. -/
def shiftIn (sig : BitVec 64) (c : Byte) : BitVec 64 := (sig <<< 8) ||| castChar c

/-- `dsig`. -/
def delimSig (delim : List Byte) : BitVec 64 := delim.foldl shiftIn 0

/-- `SIGMASK`. -/
def SIGMASK (ndelim : ℕ) : BitVec 64 :=
  if ndelim = NMAX then BitVec.allOnes 64 else (1 <<< (ndelim * 8)) - 1

/-- What a byte does to `sig` in the loop. -/
def nextSig (ndelim : ℕ) (sig : BitVec 64) (c : Byte) : BitVec 64 := shiftIn sig c &&& SIGMASK ndelim

variable {n k i N : ℕ} {x y : BitVec 64} {c e : Byte} {d d₁ d₂ w : List Byte} {u : List Byte}

/-! ## The bits -/

end Eabase.IOBuf
