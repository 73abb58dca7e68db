import Eabase.IOBuf.Sharing

/-!
# `appendv` of nothing

`append` copies nothing and pushes nothing when there are no bytes. `appendv`
pushes one reference in each round, and a round begins as long as a slice is
left. A later round has a slice that did not fit into the block before, so it has
bytes; but the first round of slices that are all empty pushes a reference of
length zero. It is harmless only where it is merged into the last reference.
-/

namespace Eabase.IOBuf

open IOBuf List

variable {h h' : Heap} {l : List Ptr} {b b' : IOBuf} {Y : Multiset BlockRef} {K : Multiset Ptr}
  {S : Ptr → Option ℕ} {r : BlockRef} {rs : List BlockRef} {vec : List (List Byte)} {rc : ℤ}

/-! ## Pushing -/

section Runs

variable {ι κ : Type} [DecidableEq ι] [DecidableEq κ] [Fintype ι] [Fintype κ]

end Runs

end Eabase.IOBuf
