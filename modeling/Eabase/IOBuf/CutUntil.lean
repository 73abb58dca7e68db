import Eabase.IOBuf.Sharing
import Eabase.IOBuf.Signature

/-!
# `cut_until`

A delimiter of one byte is compared with each byte. A longer one is compared by a
rolling signature, and the buffer is cut where the signature of the delimiter
appears; what stands there is the delimiter, unless

* the delimiter has a byte from 0x80 on: then it is never found when it is
  shorter than eight bytes, and only its end from the last such byte on is
  compared when it has eight;
* the buffer begins with an end of the delimiter and the delimiter has zeros in
  front of it: the signature is there before as many bytes were read, and the
  position of the cut wraps around.
-/

namespace Eabase.IOBuf

open Lib List

/-! ## The code -/

variable {delim s o s' o' d₁ d₂ : List Byte} {c c₀ : Byte} {n k : ℕ} {rc : ℤ}

/-! ## What a cut does to the bytes -/

/-- The signature of the delimiter is that of the bytes read so far. -/
def SigHit (delim w : List Byte) : Prop := (w.foldl (nextSig delim.length) 0 == delimSig delim) = true

/-- The first place where the signature is found. -/
abbrev SigFirst (delim s : List Byte) (n : ℕ) : Prop :=
  FirstHit (nextSig delim.length) (fun sig => sig == delimSig delim) 0 s n

theorem SigFirst.before (h : SigFirst delim s n) {m : ℕ} (hm : m < n) :
    ¬SigHit delim (s.take (m + 1)) := by
  intro hhit
  exact Bool.false_ne_true ((h.first m hm).symm.trans hhit)

section

variable (h : SigFirst delim s n)
include h

end

section

variable {pos : Bool} {h h' : Heap} {l : List Ptr} {b b' out out' : IOBuf} {Y : Multiset BlockRef}
    {K : Multiset Ptr}
  {S : Ptr → Option ℕ} {m : ℕ}

section

variable (R : Rep pos h l b (out.refs + Y) K S)
include R

section

variable (hout : out.WF pos) (hd : delim ≠ []) (hk : delim.length ≤ NMAX)
    (hsize : b.length < 2 ^ 64)
include hout hd hk hsize

end

end

end

section Runs

open Finset

variable {ι κ : Type} [DecidableEq ι] [DecidableEq κ] [Fintype ι] [Fintype κ]

end Runs

end Eabase.IOBuf
