import Eabase.IOBuf.Portal
import Eabase.Lib.Pieces

/-!
# The memory of a buffer

A reference stands for cells of memory, and the bytes of a buffer are what is in
its cells. For each operation that appends to a buffer, or takes bytes off its
back, this file says which cells come or go: memory nobody referred to so far,
or cells of the buffer that is appended.
-/

namespace Eabase.IOBuf

open Lib List

/-- A byte of the memory of a block. -/
abbrev Cell : Type := Ptr × ℕ

def BlockRef.cells (r : BlockRef) : List Cell :=
  (List.range r.length).map fun i => (r.block, r.offset + i)

def pieces (l : List BlockRef) : List (List Cell) := l.map BlockRef.cells

def cells (l : List BlockRef) : List Cell := (pieces l).flatten

namespace Heap

def peek (h : Heap) (c : Cell) : Byte := (h.blk c.1).data c.2

theorem bytes_eq_map_peek (h : Heap) (r : BlockRef) : h.bytes r = r.cells.map h.peek := by
  rw [bytes, read, BlockRef.cells, map_map]
  rfl

theorem content_eq_map_peek (h : Heap) (l : List BlockRef) : h.content l = (cells l).map h.peek := by
  induction l with
  | nil => rfl
  | cons r l ih =>
    rw [content_cons, bytes_eq_map_peek, ih, ← map_append]
    rfl

end Heap

section

variable {pos mv : Bool} {h h' : Heap} {l : List Ptr} {b b' : IOBuf} {Y : Multiset BlockRef}
  {K : Multiset Ptr} {S : Ptr → Option ℕ} {r back : BlockRef} {rs rs' : List BlockRef} {c : Cell}
  {A : Cell → Prop} {Z : List Cell} {n : ℕ} {p : Ptr}

@[simp] theorem length_blockRef_cells : r.cells.length = r.length := by
  rw [BlockRef.cells, length_map, length_range]

theorem mem_blockRef_cells : c ∈ r.cells ↔ c.1 = r.block ∧ r.offset ≤ c.2 ∧ c.2 < r.stop := by
  obtain ⟨p, k⟩ := c
  rw [BlockRef.cells, mem_map]
  constructor
  · rintro ⟨i, hi, heq⟩
    cases heq
    exact ⟨rfl, Nat.le_add_right _ _, Nat.add_lt_add_left (mem_range.1 hi) _⟩
  · rintro ⟨rfl, hle, hlt⟩
    have hstop : k < r.offset + r.length := hlt
    exact ⟨k - r.offset, mem_range.2 (by lia), Prod.ext rfl (by dsimp only; lia)⟩

theorem nodup_blockRef_cells : r.cells.Nodup := by
  apply nodup_range.map
  intro i j heq
  exact Nat.add_left_cancel (Prod.mk.inj heq).2

theorem pieces_concat (l : List BlockRef) (r : BlockRef) : pieces (l ++ [r]) = pieces l ++
    [r.cells] := map_append

@[simp] theorem cells_nil : cells [] = [] := rfl

@[simp] theorem cells_cons (r : BlockRef) (l : List BlockRef) : cells (r :: l) = r.cells ++ cells l := rfl

@[simp] theorem cells_append (l l' : List BlockRef) : cells (l ++ l') = cells l ++ cells l' := by
  rw [cells, pieces, map_append, flatten_append]
  rfl

theorem length_cells (l : List BlockRef) : (cells l).length = sumLen l := by
  induction l with
  | nil => rfl
  | cons r l ih => rw [cells_cons, length_append, length_blockRef_cells, ih, sumLen_cons]

theorem mem_cells : c ∈ cells rs ↔ ∃ r ∈ rs, c ∈ r.cells := by
  rw [cells, pieces, mem_flatten]
  constructor
  · rintro ⟨x, hx, hc⟩
    obtain ⟨r, hr, rfl⟩ := mem_map.1 hx
    exact ⟨r, hr, hc⟩
  · rintro ⟨r, hr, hc⟩
    exact ⟨r.cells, mem_map_of_mem hr, hc⟩

theorem cells_grow (hm : back.mergeable r) : (back.grow r).cells = back.cells ++ r.cells := by
  obtain ⟨hblock, hoff⟩ := hm
  rw [BlockRef.cells, BlockRef.grow, range_add, map_append, map_map]
  congr 1
  apply map_congr_left
  intro i _
  show (back.block, back.offset + (back.length + i)) = (r.block, r.offset + i)
  rw [hblock, ← hoff, add_assoc]

/-! ## Pushing -/

theorem length_le_mergePush (rs : List BlockRef) (r : BlockRef) :
    rs.length ≤ (mergePush rs r).length := by
  induction rs using reverseRecOn with
  | nil => exact Nat.zero_le _
  | append_singleton l back _ =>
    rw [mergePush_concat]
    split <;> simp

theorem growsBy_mergePush (hr : ∀ c ∈ r.cells, A c) :
    GrowsBy A (pieces rs) (pieces (mergePush rs r)) := by
  induction rs using reverseRecOn with
  | nil => exact GrowsBy.refl.push (M := []) hr
  | append_singleton rs back _ =>
    rw [mergePush_concat]
    split
    next hm =>
      rw [pieces_concat, pieces_concat, cells_grow hm]
      exact GrowsBy.refl.extend hr
    · rw [show rs ++ [back, r] = (rs ++ [back]) ++
        [r] by rw [append_assoc]; rfl, pieces_concat (rs ++ [back])]
      exact GrowsBy.refl.push hr

theorem growsBy_push (hb : b.WF pos) (hr : r.block ≠ NULL) (hA : ∀ c ∈ r.cells, A c)
    (heq : b.pushOrMoveBackRef mv r h = (b', h')) : GrowsBy A (pieces b.refs) (pieces b'.refs) := by
  have hrefs := refs_pushOrMoveBackRef mv (h := h) hb hr
  rw [heq] at hrefs
  rw [hrefs]
  exact growsBy_mergePush hA

theorem HeapInv.notMem_cells {X : Multiset BlockRef} (H : HeapInv h l X K S) (hS : S p = none)
    (hr : ∀ r ∈ rs, r ∈ X) (hc : c ∈ BlockRef.cells ⟨(h.blk p).size, n, p⟩) : c ∉ cells rs := by
  obtain ⟨hblock, hle, -⟩ := mem_blockRef_cells.1 hc
  intro hmem
  obtain ⟨r, hrs, hcr⟩ := mem_cells.1 hmem
  obtain ⟨hblock', -, hlt⟩ := mem_blockRef_cells.1 hcr
  have hbound := H.bound r (hr r hrs)
  have hp : r.block = p := hblock'.symm.trans hblock
  rw [Heap.lim, hp, hS, Option.getD_none] at hbound
  exact absurd (hlt.trans_le hbound) (Nat.not_lt.2 hle)

theorem mem_cells_of_growsBy (hg : GrowsBy A (pieces rs) (pieces rs')) (hc : c ∈ cells rs) :
    c ∈ cells rs' := by
  obtain ⟨new, hnew, -⟩ := hg.flatten
  rw [cells, hnew]
  exact mem_append_left _ hc

/-! ## Appending references -/

/-- `append(const IOBuf&)` and what `append(Movable)` does with a buffer that is not empty. -/
theorem pushRefs_growsBy : ∀ {rs : List BlockRef} {b : IOBuf} {h : Heap}, b.WF pos →
    (∀ r ∈ rs, r.block ≠ NULL ∧ (pos = true → 0 < r.length)) → (∀ c ∈ cells rs, A c) →
    GrowsBy A (pieces b.refs) (pieces (pushRefs mv rs b h).1.refs)
  | [], b, h, _, _, _ => .refl
  | r :: rs, b, h, hb, hrs, hA => by
    obtain ⟨hblock, hlen⟩ := hrs r mem_cons_self
    rcases hpush : b.pushOrMoveBackRef mv r h with ⟨b1, h1⟩
    have hwf := wf_pushOrMoveBackRef mv (h := h) hb hblock hlen
    rw [hpush] at hwf
    simp only [pushRefs, hpush]
    apply (growsBy_push hb hblock (fun c hc => hA c (mem_append_left _ hc)) hpush).trans
    exact pushRefs_growsBy hwf (fun x hx => hrs x (mem_cons_of_mem _ hx))
      fun c hc => hA c (mem_append_right _ hc)

theorem appendToLoop_growsBy : ∀ {rs : List BlockRef} {m off : ℕ} {b : IOBuf} {h : Heap}, b.WF false →
    (∀ r ∈ rs, r.block ≠ NULL) → (∀ r ∈ rs, ∀ c ∈ r.cells, A c) →
    GrowsBy A (pieces b.refs) (pieces (appendToLoop m off rs b h).2.1.refs)
  | [], m, off, b, h, _, _, _ => .refl
  | r :: rs, m, off, b, h, hb, hrs, hA => by
    unfold appendToLoop
    split
    · exact .refl
    obtain ⟨nc, hnc⟩ : ∃ nc, nc = min m (r.length - off) := ⟨_, rfl⟩
    obtain ⟨b1, h1, hpush⟩ : ∃ b1 h1,
      b.pushOrMoveBackRef false ⟨r.offset + off, nc, r.block⟩ h = (b1, h1) := ⟨_, _, rfl⟩
    have hblock := hrs r mem_cons_self
    have hwf := wf_pushOrMoveBackRef false (h := h) (r := ⟨r.offset + off, nc, r.block⟩) hb hblock
      (by simp)
    rw [hpush] at hwf
    have hpart : ∀ c ∈ BlockRef.cells ⟨r.offset + off, nc, r.block⟩, A c := by
      intro c hc
      obtain ⟨hcb, hle, hlt⟩ := mem_blockRef_cells.1 hc
      have hstop : c.2 < r.offset + off + nc := hlt
      have hoff : r.offset + off ≤ c.2 := hle
      apply hA r mem_cons_self
      apply mem_blockRef_cells.2
      refine ⟨hcb, by lia, ?_⟩
      show c.2 < r.offset + r.length
      lia
    simp only [← hnc, hpush]
    apply (growsBy_push (r := ⟨r.offset + off, nc, r.block⟩) hb hblock hpart hpush).trans
    exact appendToLoop_growsBy hwf (fun x hx => hrs x (mem_cons_of_mem _ hx))
      fun x hx => hA x (mem_cons_of_mem _ hx)

theorem appendTo_growsBy {src : IOBuf} {p : ℕ} (hb : b.WF false) (hs : src.WF false)
    (hA : ∀ c ∈ cells src.refs, A c) :
    GrowsBy A (pieces b.refs) (pieces (src.appendTo n p b h).2.1.refs) := by
  rcases hskip : skipRefs p src.refs with ⟨off, rs⟩
  obtain ⟨-, hmem, -⟩ := skipRefs_spec h hskip
  rw [IOBuf.appendTo, refList_eq hs.view]
  simp only [hskip]
  apply appendToLoop_growsBy hb
  · exact fun r hr => (hs.ref r (hmem r hr)).1
  · exact fun r hr c hc => hA c (mem_cells.2 ⟨r, hmem r hr, hc⟩)

theorem cutnLoop_growsBy : ∀ {fuel n : ℕ} {b out : IOBuf} {h : Heap}, b.WF false → out.WF false →
    (∀ c ∈ cells b.refs, A c) → n ≤ sumLen b.refs →
    GrowsBy A (pieces out.refs) (pieces (cutnLoop fuel n b out h).2.1.refs)
  | 0, n, b, out, h, _, _, _, _ => .refl
  | fuel + 1, n, b, out, h, hb, hout, hA, hn => by
    unfold cutnLoop
    split
    · exact .refl
    rename_i hn0
    cases hrefs : b.refs with
    | nil =>
      rw [hrefs, sumLen_nil] at hn
      exact absurd (Nat.le_zero.1 hn) hn0
    | cons r rs =>
      have hblock := (hb.ref r (by rw [hrefs]; exact mem_cons_self)).1
      rw [hrefs, sumLen_cons] at hn
      rw [hrefs, cells_cons] at hA
      simp only [frontRef_eq hb.view hrefs]
      split
      next hle =>
        obtain ⟨out1, h1, hpush⟩ : ∃ out1 h1, out.pushOrMoveBackRef true r h = (out1, h1) := ⟨_, _, rfl⟩
        obtain ⟨b1, h2, hpop⟩ : ∃ b1 h2, b.popOrMoveoutFrontRef true h1 = (b1, h2) := ⟨_, _, rfl⟩
        have hwf := wf_pushOrMoveBackRef true (h := h) (r := r) hout hblock (by simp)
        rw [hpush] at hwf
        obtain ⟨hrefs1, -, hwf1⟩ := popOrMoveoutFrontRef_spec true (h := h1) hb hrefs
        rw [hpop] at hrefs1 hwf1
        simp only [hpush, hpop]
        apply (growsBy_push hout hblock (fun c hc => hA c (mem_append_left _ hc)) hpush).trans
        apply cutnLoop_growsBy hwf1 hwf
        · rw [hrefs1]
          exact fun c hc => hA c (mem_append_right _ hc)
        · rw [hrefs1]
          lia
      next hgt =>
        obtain ⟨out1, h1, hpush⟩ : ∃ out1 h1,
          out.pushOrMoveBackRef false ⟨r.offset, n, r.block⟩ h = (out1, h1) := ⟨_, _, rfl⟩
        simp only [hpush]
        apply growsBy_push hout (r := ⟨r.offset, n, r.block⟩) hblock ?_ hpush
        intro c hc
        obtain ⟨hcb, hle, hlt⟩ := mem_blockRef_cells.1 hc
        have hstop : c.2 < r.offset + n := hlt
        apply hA c
        apply mem_append_left
        apply mem_blockRef_cells.2
        refine ⟨hcb, hle, ?_⟩
        show c.2 < r.offset + r.length
        lia

theorem cutn_growsBy {out : IOBuf} (hb : b.WF false) (hout : out.WF false)
    (hA : ∀ c ∈ cells b.refs, A c) :
    GrowsBy A (pieces out.refs) (pieces (b.cutn n out h).2.2.1.refs) := by
  exact cutnLoop_growsBy hb hout hA (by rw [← length_eq hb.view]; exact min_le_right _ _)

/-! ## Appending bytes -/

theorem Rep.piece_growsBy {h2 : Heap} (R : Rep pos h (p :: l) b Y K S) (hZ : ∀ c ∈ Z, c ∈ cells b.refs)
    (hp : p ≠ NULL) (heq : b.pushOrMoveBackRef mv ⟨(h.blk p).size, n, p⟩ h' = (b', h2)) :
    GrowsBy (· ∉ Z) (pieces b.refs) (pieces b'.refs) := by
  apply growsBy_push R.wf (r := ⟨(h.blk p).size, n, p⟩) hp ?_ heq
  intro c hc hmem
  exact R.inv.notMem_cells (R.inv.lim_none_of_tls mem_cons_self) (fun r hr => Rep.mem_left hr) hc
    (hZ c hmem)

theorem Rep.pushBack_growsBy {ch : Byte} (R : Rep pos h l b Y K S) :
    GrowsBy (· ∉ cells b.refs) (pieces b.refs) (pieces (b.pushBack ch h).2.1.refs) := by
  unfold IOBuf.pushBack
  obtain ⟨p, h1, hshare⟩ : ∃ p h1, h.shareTlsBlock = (p, h1) := ⟨_, _, rfl⟩
  simp only [hshare]
  obtain ⟨-, hcase⟩ := R.inv.shareTlsBlock hshare
  rcases hcase with ⟨rfl, -, -, -⟩ | ⟨hp, l', H', -⟩
  · exact .refl
  · rw [if_neg hp]
    exact Rep.piece_growsBy ⟨R.wf, H'⟩ (fun _ hc => hc) hp rfl

theorem Rep.appendLoop_growsBy : ∀ {fuel : ℕ} {bs : List Byte} {b : IOBuf} {h : Heap} {l : List Ptr},
    Rep pos h l b Y K S → (∀ c ∈ Z, c ∈ cells b.refs) →
    GrowsBy (· ∉ Z) (pieces b.refs) (pieces (IOBuf.appendLoop fuel bs b h).2.1.refs)
  | 0, bs, b, h, l, _, _ => .refl
  | fuel + 1, bs, b, h, l, R, hZ => by
    unfold IOBuf.appendLoop
    by_cases hbs : bs = []
    · rw [if_pos hbs]
      exact .refl
    rw [if_neg hbs]
    have hlen : 0 < bs.length := length_pos_iff.mpr hbs
    obtain ⟨p, h1, hshare⟩ : ∃ p h1, h.shareTlsBlock = (p, h1) := ⟨_, _, rfl⟩
    simp only [hshare]
    obtain ⟨-, hcase⟩ := R.inv.shareTlsBlock hshare
    rcases hcase with ⟨rfl, -, -, -⟩ | ⟨hp, l', H', hroom⟩
    · rw [if_pos rfl]
      exact .refl
    · rw [if_neg hp]
      obtain ⟨nc, hnc⟩ : ∃ nc, nc = min bs.length (h1.blk p).leftSpace := ⟨_, rfl⟩
      have hspace : (h1.blk p).leftSpace = (h1.blk p).cap - (h1.blk p).size := rfl
      obtain ⟨piece, rest, hcat, hpiece⟩ : ∃ piece rest, bs = piece ++ rest ∧ piece.length = nc :=
        ⟨bs.take nc, bs.drop nc, (take_append_drop nc bs).symm, by rw [length_take]; lia⟩
      rw [← hnc, hcat, ← hpiece, take_left, drop_left]
      rcases hpush1 : b.pushOrMoveBackRef false ⟨(h1.blk p).size, piece.length, p⟩ (h1.write p
        (h1.blk p).size piece) with ⟨b1, h2⟩
      have hpush := push_setSize (h := h1) R.wf hp piece
      simp only [hpush1] at hpush ⊢
      have R0 : Rep pos h1 (p :: l') b Y K S := ⟨R.wf, H'⟩
      obtain ⟨R1, -, -⟩ := R0.appendPiece (by lia) (by lia) hpush
      have hg := R0.piece_growsBy hZ hp hpush1
      exact hg.trans (Rep.appendLoop_growsBy R1 fun c hc => mem_cells_of_growsBy hg (hZ c hc))

theorem Rep.append_growsBy {data : Option (List Byte)} (R : Rep pos h l b Y K S) :
    GrowsBy (· ∉ cells b.refs) (pieces b.refs) (pieces (b.append data h).2.1.refs) := by
  unfold IOBuf.append
  split
  · exact .refl
  · exact R.pushBack_growsBy
  · exact R.appendLoop_growsBy fun _ hc => hc

theorem Rep.appendvLoop_growsBy : ∀ {fuel : ℕ} {vec : List (List Byte)} {b : IOBuf} {h : Heap}
    {l : List Ptr},
    Rep false h l b Y K S → (∀ c ∈ Z, c ∈ cells b.refs) →
    GrowsBy (· ∉ Z) (pieces b.refs) (pieces (IOBuf.appendvLoop fuel vec b h).2.1.refs)
  | 0, vec, b, h, l, _, _ => .refl
  | fuel + 1, vec, b, h, l, R, hZ => by
    unfold IOBuf.appendvLoop
    by_cases hvec : vec = []
    · rw [if_pos hvec]
      exact .refl
    rw [if_neg hvec]
    obtain ⟨p, h1, hshare⟩ : ∃ p h1, h.shareTlsBlock = (p, h1) := ⟨_, _, rfl⟩
    simp only [hshare]
    obtain ⟨-, hcase⟩ := R.inv.shareTlsBlock hshare
    rcases hcase with ⟨rfl, -, -, -⟩ | ⟨hp, l', H', hroom⟩
    · rw [if_pos rfl]
      exact .refl
    · rw [if_neg hp]
      obtain ⟨bs, rest, hfill⟩ : ∃ bs rest, fillVec (h1.blk p).leftSpace vec = (bs, rest) := ⟨_, _, rfl⟩
      have hspace : (h1.blk p).leftSpace = (h1.blk p).cap - (h1.blk p).size := rfl
      obtain ⟨-, hlen, -, -⟩ := fillVec_spec hfill
      obtain ⟨b1, h2, hpush⟩ : ∃ b1 h2,
        b.pushOrMoveBackRef false ⟨(h1.blk p).size, bs.length, p⟩ (h1.extend p bs) = (b1, h2) :=
          ⟨_, _, rfl⟩
      have hpush' := hpush
      rw [Heap.extend] at hpush'
      simp only [hfill, hpush']
      have R0 : Rep false h1 (p :: l') b Y K S := ⟨R.wf, H'⟩
      obtain ⟨R1, -, -⟩ := R0.appendPiece (by lia) (by simp) hpush
      have hg := R0.piece_growsBy hZ hp hpush
      exact hg.trans (Rep.appendvLoop_growsBy R1 fun c hc => mem_cells_of_growsBy hg (hZ c hc))

/-! ## Taking bytes off the back -/

theorem shrinks_clear (hb : b.WF pos) : Shrinks (pieces b.refs) (pieces (b.clear h).1.refs) := by
  rw [clear_eq hb.view]
  exact Shrinks.nil _

theorem popBackLoop_shrinks : ∀ {fuel n : ℕ} {b : IOBuf} {h : Heap}, b.WF pos → n ≤ sumLen b.refs →
    Shrinks (pieces b.refs) (pieces (popBackLoop fuel n b h).1.refs)
  | 0, n, b, h, _, _ => .refl
  | fuel + 1, n, b, h, hb, hn => by
    unfold IOBuf.popBackLoop
    split
    · exact .refl
    rename_i hn0
    rcases eq_nil_or_concat b.refs with hrefs | ⟨rs, r, hrefs⟩
    · rw [hrefs, sumLen_nil] at hn
      exact absurd (Nat.le_zero.mp hn) hn0
    · rw [concat_eq_append] at hrefs
      simp only [backRef_eq hb.view hrefs]
      have hblock := (hb.ref r (by rw [hrefs]; exact mem_append_right _ mem_cons_self)).1
      have hstart : Shrinks (pieces b.refs) (pieces rs ++ [r.cells]) := by
        rw [hrefs, pieces_concat]
        exact .refl
      split
      next hlt =>
        obtain ⟨hrefs', -⟩ := trimBack_spec { r with length := r.length - n } hb hrefs hblock
          (Nat.sub_add_cancel (le_of_lt hlt)) (Nat.sub_pos_of_lt hlt)
        rw [hrefs', pieces_concat]
        apply hstart.trim
        have hrange : range (r.length - n) <+: range r.length := by
          refine ⟨(range n).map (r.length - n + ·), ?_⟩
          rw [← range_add, Nat.sub_add_cancel (le_of_lt hlt)]
        exact hrange.map _
      next hge =>
        obtain ⟨b1, h1, hpop⟩ : ∃ b1 h1, b.popBackRef h = (b1, h1) := ⟨_, _, rfl⟩
        obtain ⟨hrefs1, -, hwf1⟩ := popBackRef_spec (h := h) hb hrefs
        rw [hpop] at hrefs1 hwf1
        simp only [hpop]
        have hless : n - r.length ≤ sumLen b1.refs := by
          rw [hrefs, sumLen_append, sumLen_cons, sumLen_nil] at hn
          rw [hrefs1]
          lia
        have hrest : Shrinks (pieces b1.refs) (pieces (popBackLoop fuel (n - r.length) b1 h1).1.refs) :=
          popBackLoop_shrinks hwf1 hless
        rw [hrefs1] at hrest
        exact hstart.drop.trans hrest

theorem popBack_shrinks (hb : b.WF pos) : Shrinks (pieces b.refs) (pieces (b.popBack n h).2.1.refs) := by
  unfold IOBuf.popBack
  split
  · exact shrinks_clear hb
  next hgt =>
    rw [length_eq hb.view] at hgt
    exact popBackLoop_shrinks hb (Nat.le_of_not_le hgt)

theorem Rep.resize_follows (n : ℕ) (ch : Byte) (R : Rep pos h l b Y K S) :
    GrowsBy (· ∉ cells b.refs) (pieces b.refs) (pieces (b.resize n ch h).2.1.refs) ∨
      Shrinks (pieces b.refs) (pieces (b.resize n ch h).2.1.refs) := by
  unfold IOBuf.resize
  split
  · exact .inr (popBack_shrinks R.wf)
  · exact .inl (R.appendLoop_growsBy fun _ hc => hc)

/-! ## What a portal reads -/

theorem PRep.consumeLoop_growsBy : ∀ {fuel total : ℕ} {P : IOPortal} {c : List Ptr} {h : Heap},
    PRep pos h l P c Y K S → 0 < total → total ≤ (avail h c).length → (∀ x ∈ Z, x ∈ cells P.buf.refs) →
    GrowsBy (· ∉ Z) (pieces P.buf.refs) (pieces (P.consumeLoop fuel total h).1.buf.refs)
  | 0, total, P, c, h, _, _, _, _ => .refl
  | fuel + 1, total, P, [], h, _, hpos, hav,
      _ => absurd (Nat.le_zero.mp hav) (Nat.pos_iff_ne_zero.mp hpos)
  | fuel + 1, total, ⟨b, q⟩, p :: c, h, R, hpos, hav, hZ => by
    obtain rfl : q = p := (Lib.chain_cons.mp R.chain).1
    have hspace : (h.blk q).leftSpace = (h.blk q).cap - (h.blk q).size := rfl
    have hroom := R.room q mem_cons_self
    obtain ⟨len, hlen⟩ : ∃ len, len = min total (h.blk q).leftSpace := ⟨_, rfl⟩
    obtain ⟨b1, h1, hpush⟩ : ∃ b1 h1, b.pushOrMoveBackRef false ⟨(h.blk q).size, len, q⟩ h
        = (b1, h1) := ⟨_, _, rfl⟩
    obtain ⟨R2, hf2, hnext, hsize, hcap, -⟩ := R.consumeOne (by omega) (by omega) hpush
    have hg : GrowsBy (· ∉ Z) (pieces b.refs) (pieces b1.refs) := by
      apply growsBy_push R.rep.wf (r := ⟨(h.blk q).size, len, q⟩) (R.chain.ne_null mem_cons_self) ?_ hpush
      intro x hx hmem
      exact R.rep.inv.notMem_cells (R.free q mem_cons_self) (fun r hr => Rep.mem_left hr) hx (hZ x hmem)
    unfold IOPortal.consumeLoop
    simp only [← hlen, hpush]
    obtain ⟨h2, hh2⟩ : ∃ h2, h2 = h1.setSize q ((h1.blk q).size + len) := ⟨_, rfl⟩
    rw [← hh2] at R2 hf2 hnext hsize hcap ⊢
    split
    · -- All is consumed.
      split
      · exact hg
      · exact hg
    next hmore =>
      have hfull : (h2.blk q).full = true := by
        simp only [Block.full, hsize, hcap, decide_eq_true_eq]
        lia
      obtain ⟨R3, -, hav3⟩ := R.leave R2 hf2
      simp only [if_pos hfull, hnext]
      rw [avail_cons, length_append, Heap.read_length] at hav
      apply hg.trans
      exact PRep.consumeLoop_growsBy R3 (by lia) (by rw [hav3]; lia) fun x hx =>
        mem_cells_of_growsBy hg (hZ x hx)

theorem PRep.appendFromReader_growsBy {reader : Reader} {maxCount : ℕ} {P : IOPortal} {c : List Ptr}
    (R : PRep pos h l P c Y K S) :
    GrowsBy (· ∉ cells P.buf.refs) (pieces P.buf.refs)
      (pieces (P.appendFromReader reader maxCount h).2.1.buf.refs) := by
  unfold IOPortal.appendFromReader
  obtain ⟨res, block, h1, hprep⟩ : ∃ res block h1, IOPortal.prepareLoop MAX_APPEND_IOVEC maxCount
    NULL P.block P.block h = (res, block, h1) := ⟨_, _, _, rfl⟩
  cases res with
  | none =>
    rw [hprep]
    exact .refl
  | some vec =>
    obtain ⟨l1, c1, -, R2, -, -, -, hn, -, -⟩ := R.fill reader hprep
    rcases hread : reader.readv (vec.map Prod.snd) with ⟨n, fill⟩
    simp only [hread] at R2 hn
    simp only [hprep, hread]
    split
    · split
      · rw [show ∀ (P : IOPortal) (h : Heap), (P.returnCachedBlocks h).1.buf = P.buf from fun P h => by
          unfold IOPortal.returnCachedBlocks
          split <;> rfl]
        exact .refl
      · exact .refl
    · exact PRep.consumeLoop_growsBy R2 (by lia) (by lia) fun _ hx => hx

end

end Eabase.IOBuf
