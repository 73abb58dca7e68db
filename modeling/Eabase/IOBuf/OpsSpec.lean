import Eabase.IOBuf.Ops
import Eabase.IOBuf.Tls

/-!
# What the operations of `IOBuf` do

`Rep pos h l b Y K S` says that `b` is a well-formed buffer of the heap `h`
next to the other references `Y` and the held blocks `K`. Each operation
gets one lemma: it keeps `Rep`, the others do not notice (`Frame`), and the
bytes of the buffer change as the operation on byte lists says. The lemmas
about two buffers put the second one into the first one's `Y`.
-/

namespace Eabase.IOBuf

open List
open Multiset (add_cons cons_add mem_add mem_cons_self)

structure Rep (pos : Bool) (h : Heap) (l : List Ptr) (b : IOBuf) (Y : Multiset BlockRef)
    (K : Multiset Ptr) (S : Ptr → Option ℕ) : Prop where
  wf : b.WF pos
  inv : HeapInv h l (b.refs + Y) K S

theorem coe_concat_add (l : List BlockRef) (r : BlockRef) (Y : Multiset BlockRef) :
    ((l ++ [r] : List BlockRef) : Multiset BlockRef) + Y = r ::ₘ (l + Y) := by
  rw [← Multiset.coe_add, Multiset.coe_singleton, Multiset.add_comm (l : Multiset BlockRef),
    Multiset.singleton_add, cons_add]

theorem coe_cons_add (l : List BlockRef) (r : BlockRef) (Y : Multiset BlockRef) :
    ((r :: l : List BlockRef) : Multiset BlockRef) + Y = r ::ₘ (l + Y) := by
  rw [← Multiset.cons_coe, cons_add]

theorem take_min_length (n : ℕ) (bs : List Byte) : bs.take (min n bs.length) = bs.take n := by
  rw [← take_take, take_length]

open Heap

open IOBuf

open Eabase.IOBuf.Rep

theorem drop_min_length (n : ℕ) (bs : List Byte) : bs.drop (min n bs.length) = bs.drop n := by
  rcases le_total n bs.length with hle | hle
  · rw [min_eq_left hle]
  · rw [min_eq_right hle, drop_length, drop_eq_nil_of_le hle]

section

variable {pos mv : Bool} {h h' : Heap} {l : List Ptr} {b b' : IOBuf} {Y : Multiset BlockRef}
  {K : Multiset Ptr} {S : Ptr → Option ℕ} {r : BlockRef} {rs : List BlockRef} {bs : List Byte}
  {k n : ℕ} {p : Ptr} {rc : ℤ} {c : Byte} {other : IOBuf}

theorem Rep.new (H : HeapInv h l Y K S) : Rep pos h l new Y K S :=
  ⟨wf_new, by simpa using H⟩

theorem Rep.mem_left (hr : r ∈ b.refs) : r ∈ (b.refs : Multiset BlockRef) + Y :=
  mem_add.2 (.inl hr)

theorem Rep.frame (R : Rep pos h' l b' Y K S) (hf : Heap.RefOnly h h') : Frame h h' Y K :=
  (Frame.of_refOnly hf R.inv).mono fun _ hr => mem_add.2 (.inr hr)

theorem Rep.content (R : Rep pos h' l b Y K S) (hf : Heap.RefOnly h h') :
    h'.content b.refs = h.content b.refs :=
  content_congr fun _ hr => R.inv.bytes_eq hf (mem_left hr)

theorem Rep.length (R : Rep pos h l b Y K S) : b.length = (h.content b.refs).length := by
  rw [content_length, length_eq R.wf.view]

theorem Rep.empty_iff (R : Rep true h l b Y K S) : b.empty = true ↔ h.content b.refs = [] := by
  rw [IOBuf.empty_iff R.wf, ← length_eq_zero_iff (l := h.content b.refs), content_length]
  constructor
  · intro hnil
    rw [hnil, sumLen_nil]
  · intro hz
    by_contra hne
    obtain ⟨r, hr⟩ := exists_mem_of_ne_nil _ hne
    have hpos := (R.wf.ref r hr).2 rfl
    have hle : r.length ≤ sumLen b.refs := single_le_sum (by simp) _ (mem_map_of_mem hr)
    lia

theorem refList_eq (hb : b.ViewWF) : b.refList = b.refs := by
  apply ext_getElem?
  intro i
  by_cases hi : i < b.refs.length
  · rw [refAt_eq hb hi, refList, getElem?_map, getElem?_range (by rwa [refNum_eq hb])]
    rfl
  · rw [getElem?_eq_none (by simp [refList, refNum_eq hb]; lia), getElem?_eq_none (by lia)]

/-! ## Pushing -/

/-- The references of the buffer after a push, merged or not, are in bounds and
counted. -/
theorem Rep.push_inv (R : Rep pos h l b Y K S) (hlive : 0 < (h.blk r.block).nshared)
    (hstop : r.stop ≤ h.lim S r.block) :
    HeapInv (pushHeap false (merges b.refs r) r h) l (mergePush b.refs r + Y) K S := by
  rcases eq_nil_or_concat b.refs with hnil | ⟨init, back, hrefs⟩
  · have := R.inv.incRef hlive hstop
    rw [hnil] at this ⊢
    simpa [pushHeap] using this
  · rw [concat_eq_append] at hrefs
    have H := R.inv
    rw [hrefs, merges_concat, mergePush_concat]
    rw [hrefs] at H
    by_cases hm : back.mergeable r
    · rw [coe_concat_add] at H
      simp only [hm, if_true, pushHeap, decide_true, coe_concat_add]
      refine H.replace rfl ?_
      show back.offset + (back.length + r.length) ≤ _
      have : r.offset + r.length ≤ _ := hstop
      rw [← hm.1] at this
      have := hm.2
      lia
    · simp only [hm, if_false, pushHeap, decide_false, Bool.false_eq_true]
      have := H.incRef hlive hstop
      have hlist : init ++ [back, r] = (init ++ [back]) ++ [r] := by simp
      rwa [hlist, coe_concat_add]

theorem pushHeap_refOnly (hlive : mv = false → 0 < (h.blk r.block).nshared) (merged : Bool) :
    Heap.RefOnly h (pushHeap mv merged r h) := by
  cases merged <;> cases mv
  · exact Heap.RefOnly.incRef (hlive rfl)
  · exact Heap.RefOnly.refl h
  · exact Heap.RefOnly.refl h
  · exact Heap.RefOnly.decRef h r.block

theorem Rep.push (R : Rep pos h l b Y K S) (hlive : 0 < (h.blk r.block).nshared)
    (hstop : r.stop ≤ h.lim S r.block) (hlen : pos = true → 0 < r.length)
    (heq : b.pushOrMoveBackRef false r h = (b', h')) :
    Rep pos h' l b' Y K S ∧ Heap.RefOnly h h' ∧
      h'.content b'.refs = h.content b.refs ++ h.bytes r := by
  have hne : r.block ≠ NULL := Nat.pos_iff_ne_zero.1 (R.inv.live _ hlive).1
  have hrefs := refs_pushOrMoveBackRef false (h := h) R.wf hne
  have hheap := heap_pushOrMoveBackRef false (h := h) R.wf hne
  have hwf := wf_pushOrMoveBackRef false (h := h) R.wf hne hlen
  rw [heq] at hrefs hheap hwf
  simp only at hrefs hheap hwf
  have hf : Heap.RefOnly h h' := hheap ▸ pushHeap_refOnly (fun _ => hlive) _
  have R' : Rep pos h' l b' Y K S := ⟨hwf, by rw [hheap, hrefs]; exact R.push_inv hlive hstop⟩
  refine ⟨R', hf, ?_⟩
  rw [R'.content hf, hrefs, content_mergePush]

/-- `_move_back_ref` takes over a reference that is counted already. -/
theorem Rep.move (R : Rep pos h l b (r ::ₘ Y) K S) (hlen : pos = true → 0 < r.length)
    (heq : b.pushOrMoveBackRef true r h = (b', h')) :
    Rep pos h' l b' Y K S ∧ Heap.RefOnly h h' ∧
      h'.content b'.refs = h.content b.refs ++ h.bytes r := by
  have hmem : r ∈ (b.refs : Multiset BlockRef) + r ::ₘ Y :=
    mem_add.2 (.inr (mem_cons_self r Y))
  have hne : r.block ≠ NULL := R.inv.block_ne_null hmem
  have hstop := R.inv.bound r hmem
  have hrefs := refs_pushOrMoveBackRef true (h := h) R.wf hne
  have hheap := heap_pushOrMoveBackRef true (h := h) R.wf hne
  have hwf := wf_pushOrMoveBackRef true (h := h) R.wf hne hlen
  rw [heq] at hrefs hheap hwf
  simp only at hrefs hheap hwf
  have hf : Heap.RefOnly h h' := hheap ▸ pushHeap_refOnly (by simp) _
  have hinv : HeapInv h' l (b'.refs + Y) K S := by
    rw [hheap, hrefs]
    have H := R.inv
    rw [add_cons] at H
    rcases eq_nil_or_concat b.refs with hnil | ⟨init, back, hb⟩
    · rw [hnil] at H ⊢
      simpa [pushHeap] using H
    · rw [concat_eq_append] at hb
      rw [hb, merges_concat, mergePush_concat]
      rw [hb] at H
      by_cases hm : back.mergeable r
      · simp only [hm, if_true, pushHeap, decide_true]
        have H' := H.decRef
        rw [coe_concat_add] at H' ⊢
        refine H'.replace rfl ?_
        have hback : 0 < ((h.decRef r.block).blk back.block).nshared :=
          H'.pos_of_ref (mem_cons_self _ _)
        show back.offset + (back.length + r.length) ≤ _
        have hstop' : r.offset + r.length ≤ _ := hstop
        rw [lim, ← hm.1, ← (Heap.RefOnly.decRef h r.block).size _ hback] at hstop'
        have := hm.2
        simp only [lim]
        lia
      · simp only [hm, if_false, pushHeap, decide_false, Bool.false_eq_true, if_true]
        have hlist : init ++ [back, r] = (init ++ [back]) ++ [r] := by simp
        rwa [hlist, coe_concat_add]
  have R' : Rep pos h' l b' Y K S := ⟨hwf, hinv⟩
  refine ⟨R', hf, ?_⟩
  rw [R'.content hf, hrefs, content_mergePush]

theorem Rep.pushRefs : ∀ {rs : List BlockRef} {b : IOBuf} {h : Heap}, Rep pos h l b Y K S →
    (∀ r ∈ rs, r ∈ Y) → (∀ r ∈ rs, pos = true → 0 < r.length) →
    ∀ {b' : IOBuf} {h' : Heap}, pushRefs false rs b h = (b', h') →
      Rep pos h' l b' Y K S ∧ Heap.RefOnly h h' ∧
        h'.content b'.refs = h.content b.refs ++ h.content rs
  | [], b, h, R, _, _, b', h', heq => by
    obtain ⟨rfl, rfl⟩ := Prod.mk.inj heq
    exact ⟨R, Heap.RefOnly.refl h, by simp⟩
  | r :: rs, b, h, R, hY, hlen, b', h', heq => by
    have hr : r ∈ (b.refs : Multiset BlockRef) + Y :=
      mem_add.2 (.inr (hY r mem_cons_self))
    rcases hpush : b.pushOrMoveBackRef false r h with ⟨b1, h1⟩
    simp only [IOBuf.pushRefs, hpush] at heq
    obtain ⟨R1, hf1, hc1⟩ := R.push (R.inv.pos_of_ref hr) (R.inv.bound r hr)
      (hlen r mem_cons_self) hpush
    obtain ⟨R2, hf2, hc2⟩ := pushRefs R1 (fun x hx => hY x (mem_cons_of_mem _ hx))
      (fun x hx => hlen x (mem_cons_of_mem _ hx)) heq
    refine ⟨R2, hf1.trans hf2, ?_⟩
    have hrs : h1.content rs = h.content rs := content_congr fun x hx =>
      R1.inv.bytes_eq hf1 (mem_add.2 (.inr (hY x (mem_cons_of_mem _ hx))))
    rw [hc2, hc1, hrs, content_cons, append_assoc]

theorem Rep.moveRefs : ∀ {rs : List BlockRef} {b : IOBuf} {h : Heap},
    Rep pos h l b (rs + Y) K S → (∀ r ∈ rs, pos = true → 0 < r.length) →
    ∀ {b' : IOBuf} {h' : Heap}, IOBuf.pushRefs true rs b h = (b', h') →
      Rep pos h' l b' Y K S ∧ Heap.RefOnly h h' ∧
        h'.content b'.refs = h.content b.refs ++ h.content rs
  | [], b, h, R, _, b', h', heq => by
    cases heq
    exact ⟨⟨R.wf, by simpa using R.inv⟩, Heap.RefOnly.refl h, by simp⟩
  | r :: rs, b, h, R, hlen, b', h', heq => by
    rcases hpush : b.pushOrMoveBackRef true r h with ⟨b1, h1⟩
    simp only [IOBuf.pushRefs, hpush] at heq
    have R' : Rep pos h l b (r ::ₘ (rs + Y)) K S := ⟨R.wf, by rw [← coe_cons_add]; exact R.inv⟩
    obtain ⟨R1, hf1, hc1⟩ := R'.move (hlen r mem_cons_self) hpush
    obtain ⟨R2, hf2, hc2⟩ := moveRefs R1 (fun x hx => hlen x (mem_cons_of_mem _ hx)) heq
    refine ⟨R2, hf1.trans hf2, ?_⟩
    have hrs : h1.content rs = h.content rs := content_congr fun x hx =>
      R1.inv.bytes_eq hf1 (mem_add.2 (.inr (mem_add.2 (.inl hx))))
    rw [hc2, hc1, hrs, content_cons, append_assoc]

/-! ## Popping -/

section

variable (R : Rep pos h l b Y K S)
include R

theorem Rep.popFrontRef (hl : b.refs = r :: rs)
    (heq : b.popOrMoveoutFrontRef false h = (b', h')) :
    Rep pos h' l b' Y K S ∧ Heap.RefOnly h h' ∧ b'.refs = rs := by
  obtain ⟨hrefs, hheap, hwf⟩ := popOrMoveoutFrontRef_spec false (h := h) R.wf hl
  rw [heq] at hrefs hheap hwf
  simp only [Bool.false_eq_true, if_false] at hrefs hheap hwf
  have H := R.inv
  rw [hl, coe_cons_add] at H
  refine ⟨⟨hwf, ?_⟩, hheap ▸ Heap.RefOnly.decRef h r.block, hrefs⟩
  rw [hheap, hrefs]
  exact H.decRef

theorem Rep.popBackRef (hl : b.refs = rs ++ [r])
    (heq : b.popBackRef h = (b', h')) :
    Rep pos h' l b' Y K S ∧ Heap.RefOnly h h' ∧ b'.refs = rs := by
  obtain ⟨hrefs, hheap, hwf⟩ := popBackRef_spec (h := h) R.wf hl
  rw [heq] at hrefs hheap hwf
  simp only at hrefs hheap hwf
  have H := R.inv
  rw [hl, coe_concat_add] at H
  refine ⟨⟨hwf, ?_⟩, hheap ▸ Heap.RefOnly.decRef h r.block, hrefs⟩
  rw [hheap, hrefs]
  exact H.decRef

theorem Rep.trimFront (hl : b.refs = r :: rs)
    (hn : n < r.length) :
    let r' : BlockRef := { r with offset := r.offset + n, length := r.length - n }
    Rep pos h l ((b.setFrontRef r').subNbytes n) Y K S ∧
      ((b.setFrontRef r').subNbytes n).refs = r' :: rs ∧
      h.content (r' :: rs) = (h.content b.refs).drop n := by
  intro r'
  have hmem : r ∈ b.refs := by rw [hl]; exact mem_cons_self
  obtain ⟨hrefs, hwf⟩ := trimFront_spec r' (n := n) R.wf hl (R.wf.ref r hmem).1
    (Nat.sub_add_cancel hn.le) (Nat.sub_pos_of_lt hn)
  have H := R.inv
  rw [hl, coe_cons_add] at H
  refine ⟨⟨hwf, ?_⟩, hrefs, ?_⟩
  · rw [hrefs, coe_cons_add]
    refine H.replace rfl (le_trans (le_of_eq ?_) (H.bound r (mem_cons_self _ _)))
    show r.offset + n + (r.length - n) = r.offset + r.length
    lia
  · rw [hl, content_cons, content_cons,
      drop_append_of_le_length (by rw [bytes_length]; lia)]
    congr 1
    exact (read_drop hn.le).symm

theorem Rep.trimBack (hl : b.refs = rs ++ [r])
    (hn : n < r.length) :
    let r' : BlockRef := { r with length := r.length - n }
    Rep pos h l ((b.setBackRef r').subNbytes n) Y K S ∧
      ((b.setBackRef r').subNbytes n).refs = rs ++ [r'] ∧
      h.content (rs ++ [r']) = (h.content b.refs).take ((h.content b.refs).length - n) := by
  intro r'
  have hmem : r ∈ b.refs := by rw [hl]; simp
  obtain ⟨hrefs, hwf⟩ := trimBack_spec r' (n := n) R.wf hl (R.wf.ref r hmem).1
    (Nat.sub_add_cancel hn.le) (Nat.sub_pos_of_lt hn)
  have H := R.inv
  rw [hl, coe_concat_add] at H
  refine ⟨⟨hwf, ?_⟩, hrefs, ?_⟩
  · rw [hrefs, coe_concat_add]
    refine H.replace rfl (le_trans ?_ (H.bound r (mem_cons_self _ _)))
    show r.offset + (r.length - n) ≤ r.offset + r.length
    lia
  · have hlen : (h.content rs ++ h.bytes r).length - n =
        (h.content rs).length + (r.length - n) := by
      simp
      lia
    rw [hl, content_append, content_append]
    simp only [content_cons, content_nil, append_nil]
    rw [hlen, take_length_add_append]
    congr 1
    exact (read_take (Nat.sub_le _ _)).symm

end

/-! ## Clearing, copying, assigning -/

theorem HeapInv.decRefs : ∀ {rs : List BlockRef} {h : Heap}, HeapInv h l (rs + Y) K S →
    HeapInv (decRefs rs h) l Y K S ∧ Heap.RefOnly h (decRefs rs h)
  | [], h, H => ⟨by simpa [IOBuf.decRefs] using H, Heap.RefOnly.refl h⟩
  | r :: rs, h, H => by
    rw [coe_cons_add] at H
    obtain ⟨H', hf⟩ := HeapInv.decRefs H.decRef
    exact ⟨H', (Heap.RefOnly.decRef h r.block).trans hf⟩

theorem HeapInv.incRefs : ∀ {rs : List BlockRef} {X : Multiset BlockRef} {h : Heap},
    HeapInv h l X K S → (∀ r ∈ rs, r ∈ X) →
    HeapInv (incRefs rs h) l (rs + X) K S ∧ Heap.RefOnly h (incRefs rs h)
  | [], X, h, H, _ => ⟨by simpa [IOBuf.incRefs] using H, Heap.RefOnly.refl h⟩
  | r :: rs, X, h, H, hrs => by
    have hr := hrs r mem_cons_self
    have H1 := H.incRef (H.pos_of_ref hr) (H.bound r hr)
    have hrs' : ∀ x ∈ rs, x ∈ r ::ₘ X := fun x hx =>
      Multiset.mem_cons_of_mem (hrs x (mem_cons_of_mem _ hx))
    obtain ⟨H2, hf⟩ := HeapInv.incRefs H1 hrs'
    refine ⟨?_, (Heap.RefOnly.incRef (H.pos_of_ref hr)).trans hf⟩
    rw [coe_cons_add]
    rwa [add_cons] at H2

theorem clear_eq (hb : b.ViewWF) : b.clear h = (new, decRefs b.refs h) := by
  cases b with
  | bv v => rfl
  | sv refs0 refs1 =>
    by_cases h0 : refs0.block = NULL
    · obtain ⟨rfl, rfl⟩ := hb.1 h0
      simp [clear, refs, h0, decRefs, new]
    · by_cases h1 : refs1.block = NULL
      · obtain rfl := hb.2 h1
        simp [clear, refs, h0, h1, decRefs, new]
      · simp [clear, refs, h0, h1, decRefs]

theorem Rep.clear (R : Rep pos h l b Y K S) (heq : b.clear h = (b', h')) :
    Rep pos h' l b' Y K S ∧ Heap.RefOnly h h' ∧ b' = IOBuf.new := by
  rw [clear_eq R.wf.view] at heq
  cases heq
  obtain ⟨H, hf⟩ := HeapInv.decRefs R.inv
  exact ⟨new H, hf, rfl⟩

theorem copy_eq (hb : b.WF pos) :
    (b.copy h).1.refs = b.refs ∧ (b.copy h).2 = incRefs b.refs h ∧ (b.copy h).1.WF pos := by
  cases b with
  | sv refs0 refs1 =>
    have hv : SmallWF refs0 refs1 := hb.view
    refine ⟨rfl, ?_, hb⟩
    by_cases h0 : refs0.block = NULL
    · obtain ⟨rfl, rfl⟩ := hv.1 h0
      simp [copy, refs, h0, incRefs]
    · by_cases h1 : refs1.block = NULL <;> simp [copy, refs, h0, h1, incRefs]
  | bv v =>
    have hv : v.WF := hb.view
    have hrefs := map_acquireBlockrefArray (l := (range v.nref).map v.refAt) hv.pow
      (by simpa using hv.nref_le)
    have hlen : ((range v.nref).map v.refAt).length = v.nref := by simp
    rw [hlen] at hrefs
    refine ⟨hrefs, rfl, ⟨hv.three_le, hv.nref_le, hv.pow, Nat.succ_pos _, ?_⟩, ?_⟩
    · exact hv.nbytes_eq.trans (congrArg sumLen hrefs.symm)
    · intro r hr
      exact hb.ref r (by rw [← show _ = (bv v).refs from hrefs]; exact hr)

/-- `IOBuf(const IOBuf& rhs)`, with `rhs` among the other buffers. -/
theorem Rep.copy (H : HeapInv h l Y K S) (hb : b.WF pos) (hY : ∀ r ∈ b.refs, r ∈ Y)
    (heq : b.copy h = (b', h')) :
    Rep pos h' l b' Y K S ∧ Heap.RefOnly h h' ∧ b'.refs = b.refs := by
  obtain ⟨hrefs, hheap, hwf⟩ := copy_eq (h := h) hb
  rw [heq] at hrefs hheap hwf
  simp only at hrefs hheap hwf
  obtain ⟨H', hf⟩ := HeapInv.incRefs H hY
  exact ⟨⟨hwf, by rw [hheap, hrefs]; exact H'⟩, hheap ▸ hf, hrefs⟩

/-- `operator=(const IOBuf& rhs)`, with `rhs` among the other buffers. -/
theorem Rep.assign {rhs : IOBuf} (R : Rep pos h l b Y K S) (hrhs : rhs.WF pos)
    (hY : ∀ r ∈ rhs.refs, r ∈ Y) (heq : b.assign rhs h = (b', h')) :
    Rep pos h' l b' Y K S ∧ Heap.RefOnly h h' ∧ b'.refs = rhs.refs := by
  have hgeneral : rhs.copy (b.clear h).2 = (b', h') →
      Rep pos h' l b' Y K S ∧ Heap.RefOnly h h' ∧ b'.refs = rhs.refs := by
    intro heq
    rcases hclear : b.clear h with ⟨b1, h1⟩
    rw [hclear] at heq
    obtain ⟨R1, hf1, rfl⟩ := R.clear hclear
    obtain ⟨R2, hf2, hrefs⟩ := copy (by simpa using R1.inv) hrhs hY heq
    exact ⟨R2, hf1.trans hf2, hrefs⟩
  cases b with
  | sv refs0 refs1 => exact hgeneral heq
  | bv v =>
    cases rhs with
    | sv refs0 refs1 => exact hgeneral heq
    | bv w =>
      simp only [IOBuf.assign] at heq
      split at heq
      next hmask =>
        cases heq
        have hw : w.WF := hrhs.view
        obtain ⟨H1, hf1⟩ := HeapInv.decRefs R.inv
        obtain ⟨H2, hf2⟩ := HeapInv.incRefs H1 hY
        have hcap : v.capMask + 1 = w.capacity := by rw [hmask]; rfl
        have hrefs : (range w.nref).map (fun i =>
            ((range w.nref).map w.refAt).getD ((0 + i) &&& v.capMask)
              (v.refs ((0 + i) &&& v.capMask))) = (range w.nref).map w.refAt := by
          apply map_congr_left
          intro i hi
          have hi : i < w.nref := mem_range.1 hi
          have hidx : (0 + i) &&& v.capMask = i := by
            rw [hmask, BigView.mask_eq hw.pow, zero_add]
            exact Nat.mod_eq_of_lt (lt_of_lt_of_le hi hw.nref_le)
          rw [hidx]
          simp [hi]
        refine ⟨⟨⟨⟨hw.three_le, ?_, ?_, Nat.succ_pos _, ?_⟩, ?_⟩, ?_⟩, hf1.trans hf2, hrefs⟩
        · show w.nref ≤ v.capMask + 1
          rw [hcap]
          exact hw.nref_le
        · show ∃ k, v.capMask + 1 = 2 ^ k
          rw [hcap]
          exact hw.pow
        · exact hw.nbytes_eq.trans (congrArg sumLen hrefs.symm)
        · intro r hr
          exact hrhs.ref r (by rw [← show _ = (bv w).refs from hrefs]; exact hr)
        · exact H2.of_eq (congrArg (fun rs : List BlockRef => (rs : Multiset BlockRef) + Y)
            hrefs.symm)
      · exact hgeneral heq

/-! ## Popping and cutting bytes -/

theorem Rep.popFrontLoop : ∀ {fuel n : ℕ} {b : IOBuf} {h : Heap}, Rep pos h l b Y K S →
    b.refs.length ≤ fuel → n ≤ sumLen b.refs →
    ∀ {b' : IOBuf} {h' : Heap}, popFrontLoop fuel n b h = (b', h') →
      Rep pos h' l b' Y K S ∧ Heap.RefOnly h h' ∧ h'.content b'.refs = (h.content b.refs).drop n
  | 0, n, b, h, R, hfuel, hn, b', h', heq => by
    obtain ⟨rfl, rfl⟩ := Prod.mk.inj heq
    have hnil : b.refs = [] := length_eq_zero_iff.1 (by lia)
    rw [hnil] at hn ⊢
    exact ⟨R, Heap.RefOnly.refl h, by simp⟩
  | fuel + 1, n, b, h, R, hfuel, hn, b', h', heq => by
    unfold IOBuf.popFrontLoop at heq
    by_cases hn0 : n = 0
    · rw [if_pos hn0] at heq
      obtain ⟨rfl, rfl⟩ := Prod.mk.inj heq
      exact ⟨R, Heap.RefOnly.refl h, by simp [hn0]⟩
    rw [if_neg hn0] at heq
    cases hrefs : b.refs with
    | nil => simp [hrefs] at hn; lia
    | cons r rs =>
      rw [hrefs] at hfuel hn
      rw [frontRef_eq R.wf.view hrefs] at heq
      simp only at heq
      split at heq
      next hlt =>
        obtain ⟨rfl, rfl⟩ := Prod.mk.inj heq
        obtain ⟨R', hr', hc'⟩ := R.trimFront hrefs hlt
        refine ⟨R', Heap.RefOnly.refl h, ?_⟩
        rw [hr', hc', hrefs]
      next hge =>
        obtain ⟨b1, h1, hpop⟩ : ∃ b1 h1, b.popOrMoveoutFrontRef false h = (b1, h1) := ⟨_, _, rfl⟩
        rw [hpop] at heq
        obtain ⟨R1, hf1, hr1⟩ := R.popFrontRef hrefs hpop
        obtain ⟨R2, hf2, hc2⟩ := popFrontLoop R1 (by rw [hr1]; simpa using hfuel)
          (by rw [hr1]; simp at hn; lia) heq
        refine ⟨R2, hf1.trans hf2, ?_⟩
        rw [hc2, R1.content hf1, hr1, content_drop_cons (by lia)]

theorem Rep.popFront (R : Rep pos h l b Y K S) (heq : b.popFront n h = (k, b', h')) :
    Rep pos h' l b' Y K S ∧ Heap.RefOnly h h' ∧ k = min n (h.content b.refs).length ∧
      h'.content b'.refs = (h.content b.refs).drop n := by
  unfold IOBuf.popFront at heq
  have hlen := R.length
  split at heq
  next hle =>
    rw [Prod.mk.injEq] at heq
    obtain ⟨rfl, heq⟩ := heq
    obtain ⟨R', hf, rfl⟩ := R.clear heq
    exact ⟨R', hf, by lia, by simp [drop_eq_nil_of_le (hlen ▸ hle)]⟩
  next hgt =>
    rw [Prod.mk.injEq] at heq
    obtain ⟨rfl, heq⟩ := heq
    have hsum := length_eq R.wf.view
    obtain ⟨R', hf, hc⟩ := popFrontLoop R (le_of_eq (refNum_eq R.wf.view).symm) (by lia) heq
    exact ⟨R', hf, by lia, hc⟩

theorem Rep.cut1 {c : Option Byte} (R : Rep pos h l b Y K S) (heq : b.cut1 h = (c, b', h')) :
    Rep pos h' l b' Y K S ∧ Heap.RefOnly h h' ∧ (pos = true → c = (h.content b.refs).head? ∧
        h'.content b'.refs = (h.content b.refs).tail) := by
  unfold IOBuf.cut1 at heq
  split at heq
  next hempty =>
    cases heq
    have hnil : h.content b.refs = [] := by
      apply eq_nil_of_length_eq_zero
      rw [Heap.content_length]
      exact sumLen_of_empty R.wf.view hempty
    exact ⟨R, Heap.RefOnly.refl h, fun _ => by simp [hnil]⟩
  next hempty =>
    cases hrefs : b.refs with
    | nil =>
      -- An empty queue is empty in either view.
      exfalso
      apply hempty
      cases b with
      | sv refs0 refs1 =>
        by_cases h0 : refs0.block = NULL
        · simp [empty, h0]
        · by_cases h1 : refs1.block = NULL <;> simp [refs, h0, h1] at hrefs
      | bv v =>
        have := R.wf.view.three_le
        simp [refs] at hrefs
        lia
    | cons r rs =>
      rw [frontRef_eq R.wf.view hrefs] at heq
      have hbyte : 0 < r.length → h.bytes r =
          (h.blk r.block).data r.offset :: h.read r.block (r.offset + 1) (r.length - 1) := by
        intro hpos
        have hsplit : r.length = 1 + (r.length - 1) := by lia
        rw [Heap.bytes, hsplit, Heap.read_add]
        simp [Heap.read]
      simp only at heq
      split at heq
      next hlt =>
        cases heq
        obtain ⟨R', hr', hc'⟩ := R.trimFront hrefs hlt
        refine ⟨R', Heap.RefOnly.refl h, fun _ => ⟨?_, ?_⟩⟩
        · rw [Heap.content_cons, hbyte (by lia)]
          rfl
        · rw [hr', hc', hrefs, drop_one]
      next hge =>
        rw [Prod.mk.injEq] at heq
        obtain ⟨rfl, heq⟩ := heq
        obtain ⟨R', hf, hr'⟩ := R.popFrontRef hrefs heq
        refine ⟨R', hf, fun hp => ?_⟩
        have hone : r.length = 1 := by
          have := (R.wf.ref r (by rw [hrefs]; exact mem_cons_self)).2 hp
          lia
        have hbytes : h.bytes r = [(h.blk r.block).data r.offset] := by
          rw [hbyte (by lia), hone]
          rfl
        refine ⟨?_, ?_⟩
        · rw [Heap.content_cons, hbytes]
          rfl
        · rw [R'.content hf, hr', Heap.content_cons, hbytes]
          rfl

theorem Rep.popBackLoop : ∀ {fuel n : ℕ} {b : IOBuf} {h : Heap}, Rep pos h l b Y K S →
    b.refs.length ≤ fuel → n ≤ sumLen b.refs →
    ∀ {b' : IOBuf} {h' : Heap}, popBackLoop fuel n b h = (b', h') →
      Rep pos h' l b' Y K S ∧ Heap.RefOnly h h' ∧
        h'.content b'.refs = (h.content b.refs).take ((h.content b.refs).length - n)
  | 0, n, b, h, R, hfuel, hn, b', h', heq => by
    cases heq
    have hnil : b.refs = [] := length_eq_zero_iff.1 (by lia)
    rw [hnil] at hn ⊢
    exact ⟨R, Heap.RefOnly.refl h, by simp⟩
  | fuel + 1, n, b, h, R, hfuel, hn, b', h', heq => by
    unfold IOBuf.popBackLoop at heq
    by_cases hn0 : n = 0
    · rw [if_pos hn0] at heq
      cases heq
      exact ⟨R, Heap.RefOnly.refl h, by simp [hn0]⟩
    rw [if_neg hn0] at heq
    rcases eq_nil_or_concat b.refs with hrefs | ⟨rs, r, hrefs⟩
    · simp [hrefs] at hn
      lia
    · rw [concat_eq_append] at hrefs
      rw [hrefs] at hfuel hn
      rw [backRef_eq R.wf.view hrefs] at heq
      simp only at heq
      split at heq
      next hlt =>
        cases heq
        obtain ⟨R', hr', hc'⟩ := R.trimBack hrefs hlt
        refine ⟨R', Heap.RefOnly.refl h, ?_⟩
        rw [hr', hc']
      next hge =>
        rcases hpop : b.popBackRef h with ⟨b1, h1⟩
        rw [hpop] at heq
        obtain ⟨R1, hf1, hr1⟩ := R.popBackRef hrefs hpop
        obtain ⟨R2, hf2, hc2⟩ := popBackLoop R1 (by rw [hr1]; simpa using hfuel)
          (by rw [hr1]; simp at hn; lia) heq
        refine ⟨R2, hf1.trans hf2, ?_⟩
        rw [hc2, R1.content hf1, hr1, hrefs, content_append]
        simp only [content_cons, content_nil, append_nil, length_append,
          bytes_length]
        rw [take_append_of_le_length (by lia)]
        congr 1
        lia

theorem Rep.popBack (R : Rep pos h l b Y K S) (heq : b.popBack n h = (k, b', h')) :
    Rep pos h' l b' Y K S ∧ Heap.RefOnly h h' ∧ k = min n (h.content b.refs).length ∧
      h'.content b'.refs = (h.content b.refs).take ((h.content b.refs).length - n) := by
  unfold IOBuf.popBack at heq
  have hlen := R.length
  split at heq
  next hle =>
    rw [Prod.mk.injEq] at heq
    obtain ⟨rfl, heq⟩ := heq
    obtain ⟨R', hf, rfl⟩ := R.clear heq
    have hz : (h.content b.refs).length - n = 0 := by lia
    exact ⟨R', hf, by lia, by simp [hz]⟩
  next hgt =>
    rw [Prod.mk.injEq] at heq
    obtain ⟨rfl, heq⟩ := heq
    have hsum := length_eq R.wf.view
    obtain ⟨R', hf, hc⟩ := popBackLoop R (le_of_eq (refNum_eq R.wf.view).symm) (by lia) heq
    exact ⟨R', hf, by lia, hc⟩

theorem Rep.cutnRawLoop : ∀ {fuel n : ℕ} {b : IOBuf} {h : Heap}, Rep pos h l b Y K S →
    b.refs.length ≤ fuel → n ≤ sumLen b.refs →
    ∀ {bs : List Byte} {b' : IOBuf} {h' : Heap}, IOBuf.cutnRawLoop fuel n b h = (bs, b', h') →
      Rep pos h' l b' Y K S ∧ Heap.RefOnly h h' ∧ bs = (h.content b.refs).take n ∧
        h'.content b'.refs = (h.content b.refs).drop n
  | 0, n, b, h, R, hfuel, hn, bs, b', h', heq => by
    obtain ⟨rfl, rfl, rfl⟩ := heq
    have hnil : b.refs = [] := length_eq_zero_iff.1 (by lia)
    rw [hnil] at hn ⊢
    exact ⟨R, Heap.RefOnly.refl h, by simp, by simp⟩
  | fuel + 1, n, b, h, R, hfuel, hn, bs, b', h', heq => by
    unfold IOBuf.cutnRawLoop at heq
    by_cases hn0 : n = 0
    · rw [if_pos hn0] at heq
      obtain ⟨rfl, rfl, rfl⟩ := heq
      exact ⟨R, Heap.RefOnly.refl h, by simp [hn0], by simp [hn0]⟩
    rw [if_neg hn0] at heq
    cases hrefs : b.refs with
    | nil => simp [hrefs] at hn; lia
    | cons r rs =>
      rw [hrefs] at hfuel hn
      rw [frontRef_eq R.wf.view hrefs] at heq
      simp only at heq
      split at heq
      next hle =>
        obtain ⟨b1, h1, hpop⟩ : ∃ b1 h1, b.popOrMoveoutFrontRef false h = (b1, h1) := ⟨_, _, rfl⟩
        obtain ⟨R1, hf1, hr1⟩ := R.popFrontRef hrefs hpop
        rcases hrec : IOBuf.cutnRawLoop fuel (n - r.length) b1 h1 with ⟨bs', b2, h2⟩
        rw [hpop] at heq
        simp only [hrec] at heq
        cases heq
        obtain ⟨R2, hf2, hbs, hc2⟩ := cutnRawLoop R1 (by rw [hr1]; simpa using hfuel)
          (by rw [hr1]; simp at hn; lia) hrec
        refine ⟨R2, hf1.trans hf2, ?_, ?_⟩
        · rw [hbs, R1.content hf1, hr1, content_take_cons hle]
          rfl
        · rw [hc2, R1.content hf1, hr1, content_drop_cons hle]
      next hgt =>
        cases heq
        obtain ⟨R', hr', hc'⟩ := R.trimFront hrefs (by lia : n < r.length)
        refine ⟨R', Heap.RefOnly.refl h, ?_, ?_⟩
        · exact (content_take_of_le (by lia)).symm
        · rw [hr', hc', hrefs]

theorem Rep.cutnRaw (R : Rep pos h l b Y K S)
    (heq : b.cutnRaw n h = (k, bs, b', h')) :
    Rep pos h' l b' Y K S ∧ Heap.RefOnly h h' ∧ k = min n (h.content b.refs).length ∧
      bs = (h.content b.refs).take n ∧ h'.content b'.refs = (h.content b.refs).drop n := by
  unfold IOBuf.cutnRaw at heq
  rw [Prod.mk.injEq] at heq
  obtain ⟨rfl, heq⟩ := heq
  have hlen := R.length
  have hsum := length_eq R.wf.view
  obtain ⟨R', hf, hbs, hc⟩ := cutnRawLoop R (le_of_eq (refNum_eq R.wf.view).symm) (by lia) heq
  refine ⟨R', hf, by lia, ?_, ?_⟩
  · rw [hbs, hlen, take_min_length]
  · rw [hc, hlen, drop_min_length]

/-- The loop of `cutn(IOBuf*)`, with the target among the other buffers. -/
theorem Rep.cutnLoop : ∀ {fuel n : ℕ} {b out : IOBuf} {h : Heap},
    Rep pos h l b (out.refs + Y) K S → out.WF pos → b.refs.length ≤ fuel →
    n ≤ sumLen b.refs → ∀ {b' out' : IOBuf} {h' : Heap},
      cutnLoop fuel n b out h = (b', out', h') →
      Rep pos h' l b' (out'.refs + Y) K S ∧ out'.WF pos ∧ Heap.RefOnly h h' ∧
        h'.content b'.refs = (h.content b.refs).drop n ∧
        h'.content out'.refs = h.content out.refs ++ (h.content b.refs).take n
  | 0, n, b, out, h, R, hout, hfuel, hn, b', out', h', heq => by
    obtain ⟨rfl, rfl, rfl⟩ := heq
    have hnil : b.refs = [] := length_eq_zero_iff.mp (by omega)
    rw [hnil] at hn ⊢
    exact ⟨R, hout, Heap.RefOnly.refl h, by simp, by simp⟩
  | fuel + 1, n, b, out, h, R, hout, hfuel, hn, b', out', h', heq => by
    unfold IOBuf.cutnLoop at heq
    by_cases hn0 : n = 0
    · rw [if_pos hn0] at heq
      obtain ⟨rfl, rfl, rfl⟩ := heq
      exact ⟨R, hout, Heap.RefOnly.refl h, by simp [hn0], by simp [hn0]⟩
    rw [if_neg hn0] at heq
    cases hrefs : b.refs with
    | nil => simp [hrefs] at hn; omega
    | cons r rs =>
      rw [hrefs] at hfuel hn
      rw [frontRef_eq R.wf.view hrefs] at heq
      have hrmem : r ∈ b.refs := by rw [hrefs]; exact mem_cons_self
      have Rout : Rep pos h l out (b.refs + Y) K S := ⟨hout, R.inv.of_eq (add_left_comm _ _ _)⟩
      simp only at heq
      split at heq
      · -- The whole first reference moves over.
        rename_i hle
        rcases hpush : out.pushOrMoveBackRef true r h with ⟨out1, h1⟩
        have Rmove : Rep pos h l out (r ::ₘ (rs + Y)) K S :=
          ⟨hout, Rout.inv.of_eq (by rw [hrefs, coe_cons_add])⟩
        obtain ⟨R1, hf1, hc1⟩ := Rmove.move (R.wf.ref r hrmem).2 hpush
        rcases hpop : b.popOrMoveoutFrontRef true h1 with ⟨b2, h2⟩
        obtain ⟨hr2, hh2, hwf2⟩ := popOrMoveoutFrontRef_spec true (h := h1) R.wf hrefs
        rw [hpop] at hr2 hh2 hwf2
        subst hh2
        rw [hpush] at heq
        simp only [hpop] at heq
        have R2 : Rep pos h2 l b2 (out1.refs + Y) K S :=
          ⟨hwf2, by rw [hr2]; exact R1.inv.of_eq (add_left_comm _ _ _)⟩
        obtain ⟨R3, hout3, hf3, hcb, hco⟩ := cutnLoop R2 R1.wf
          (by rw [hr2]; simpa using hfuel) (by rw [hr2]; simp at hn; lia) heq
        have hrs : h2.content b2.refs = h.content rs := by rw [R2.content hf1, hr2]
        refine ⟨R3, hout3, hf1.trans hf3, ?_, ?_⟩
        · rw [hcb, hrs, content_drop_cons hle]
        · rw [hco, hc1, hrs, content_take_cons hle, append_assoc]
      · -- A part of it is shared.
        rename_i hgt
        rcases hpush : out.pushOrMoveBackRef false ⟨r.offset, n, r.block⟩ h with ⟨out1, h1⟩
        rw [hpush] at heq
        cases heq
        have hrin : r ∈ (b.refs : Multiset BlockRef) + (out.refs + Y) := mem_left hrmem
        have hstop : (⟨r.offset, n, r.block⟩ : BlockRef).stop ≤ h.lim S r.block := by
          refine le_trans ?_ (R.inv.bound r hrin)
          show r.offset + n ≤ r.offset + r.length
          lia
        have hlive : 0 < (h.blk r.block).nshared := R.inv.pos_of_ref hrin
        obtain ⟨R1, hf1, hc1⟩ := Rout.push (r := ⟨r.offset, n, r.block⟩)
          hlive hstop (fun _ => pos_of_ne_zero hn0) hpush
        have R1' : Rep pos h1 l b (out1.refs + Y) K S := ⟨R.wf, R1.inv.of_eq (add_left_comm _ _ _)⟩
        obtain ⟨R2, hr2, hc2⟩ := R1'.trimFront hrefs (by lia : n < r.length)
        refine ⟨R2, R1.wf, hf1, ?_, ?_⟩
        · rw [hr2, hc2, R1'.content hf1, hrefs]
        · rw [hc1, content_take_of_le (by lia)]
          rfl

theorem Rep.cutn {out out' : IOBuf} (R : Rep pos h l b (out.refs + Y) K S)
    (hout : out.WF pos) (heq : b.cutn n out h = (k, b', out', h')) :
    Rep pos h' l b' (out'.refs + Y) K S ∧ out'.WF pos ∧ Heap.RefOnly h h' ∧
      k = min n (h.content b.refs).length ∧
      h'.content b'.refs = (h.content b.refs).drop n ∧
      h'.content out'.refs = h.content out.refs ++ (h.content b.refs).take n := by
  unfold IOBuf.cutn at heq
  rw [Prod.mk.injEq] at heq
  obtain ⟨rfl, heq⟩ := heq
  have hlen := R.length
  have hsum := length_eq R.wf.view
  obtain ⟨R', hout', hf, hcb, hco⟩ := cutnLoop R hout (le_of_eq (refNum_eq R.wf.view).symm)
    (by lia) heq
  refine ⟨R', hout', hf, by lia, ?_, ?_⟩
  · rw [hcb, hlen, drop_min_length]
  · rw [hco, hlen, take_min_length]

/-! ## Appending -/

/-- `append(const IOBuf& other)`, with `other` among the other buffers. -/
theorem Rep.appendBuf (R : Rep pos h l b Y K S) (ho : other.WF pos)
    (hY : ∀ r ∈ other.refs, r ∈ Y) (heq : b.appendBuf other h = (b', h')) :
    Rep pos h' l b' Y K S ∧ Heap.RefOnly h h' ∧
      h'.content b'.refs = h.content b.refs ++ h.content other.refs := by
  unfold IOBuf.appendBuf at heq
  rw [refList_eq ho.view] at heq
  exact R.pushRefs hY (fun r hr => (ho.ref r hr).2) heq

theorem Rep.appendMovable {other' : IOBuf} (R : Rep pos h l b (other.refs + Y) K S)
    (ho : other.WF pos) (heq : b.appendMovable other h = (b', other', h')) :
    Rep pos h' l b' (other'.refs + Y) K S ∧ other'.WF pos ∧ Heap.RefOnly h h' ∧
      h'.content b'.refs = h.content b.refs ++ h.content other.refs ∧
      h'.content other'.refs = [] := by
  unfold IOBuf.appendMovable at heq
  split at heq
  next hempty =>
    cases heq
    have hnil : h.content b.refs = [] := by
      apply eq_nil_of_length_eq_zero
      rw [content_length]
      exact sumLen_of_empty R.wf.view hempty
    exact ⟨⟨ho, R.inv.of_eq (add_left_comm _ _ _)⟩, R.wf, Heap.RefOnly.refl h, by simp [hnil], hnil⟩
  · rcases hpush : IOBuf.pushRefs true other.refList b h with ⟨b1, h1⟩
    rw [hpush] at heq
    cases heq
    rw [refList_eq ho.view] at hpush
    obtain ⟨R', hf, hc⟩ := R.moveRefs (fun r hr => (ho.ref r hr).2) hpush
    exact ⟨⟨R'.wf, by simpa using R'.inv⟩, wf_new, hf, hc, rfl⟩

theorem push_fst (mv : Bool) (r : BlockRef) (b : IOBuf) (h h' : Heap) :
    (b.pushOrMoveBackRef mv r h).1 = (b.pushOrMoveBackRef mv r h').1 := by
  cases b with
  | sv refs0 refs1 =>
    simp only [pushOrMoveBackRef, pushOrMoveBackRefToSmallview]
    split
    · rfl
    split
    · split <;> rfl
    split <;> rfl
  | bv v =>
    simp only [pushOrMoveBackRef, pushOrMoveBackRefToBigview]
    split
    · rfl
    split <;> rfl

/-- The source counts the copied bytes as used only after it has pushed the
reference to them; doing both before the push is the same. -/
theorem push_setSize (hb : b.WF pos) (hp : p ≠ NULL) (bs : List Byte) :
    (b.pushOrMoveBackRef false ⟨(h.blk p).size, bs.length, p⟩ (h.extend p bs)) =
      ((b.pushOrMoveBackRef false ⟨(h.blk p).size, bs.length, p⟩ (h.write p (h.blk p).size bs)).1,
        (b.pushOrMoveBackRef false ⟨(h.blk p).size, bs.length, p⟩
          (h.write p (h.blk p).size bs)).2.setSize p
            (((b.pushOrMoveBackRef false ⟨(h.blk p).size, bs.length, p⟩
              (h.write p (h.blk p).size bs)).2.blk p).size + bs.length)) := by
  refine Prod.ext (push_fst _ _ _ _ _) ?_
  rw [heap_pushOrMoveBackRef false hb hp, heap_pushOrMoveBackRef false hb hp]
  cases merges b.refs ⟨(h.blk p).size, bs.length, p⟩ <;>
    simp [pushHeap, extend, incRef, setSize, write, setBlk]

/-- Bytes go behind the used part of a block that has no announced limit, and
a reference to them to the end of the queue. -/
theorem Rep.extendPush {K' : Multiset Ptr} (R : Rep pos h l b Y K S)
    (hS : S p = none) (hlive : 0 < (h.blk p).nshared)
    (hroom : (h.blk p).size + bs.length ≤ (h.blk p).cap) (hlen : pos = true → 0 < bs.length)
    (hK' : ∀ q ∈ K', q ∈ K ∧ q ≠ p)
    (heq : b.pushOrMoveBackRef false ⟨(h.blk p).size, bs.length, p⟩ (h.extend p bs) = (b', h')) :
    Rep pos h' l b' Y K S ∧ Heap.RefOnly (h.extend p bs) h' ∧ Frame h h' Y K' ∧
      h'.content b'.refs = h.content b.refs ++ bs := by
  have R1 : Rep pos (h.extend p bs) l b Y K S := ⟨R.wf, R.inv.extend hroom⟩
  have hstop : (⟨(h.blk p).size, bs.length, p⟩ : BlockRef).stop ≤ (h.extend p bs).lim S p := by
    simp [lim, hS, extend_size, BlockRef.stop]
  obtain ⟨R2, hf, hc⟩ := R1.push (r := ⟨(h.blk p).size, bs.length, p⟩)
    (by rwa [extend_nshared]) hstop hlen heq
  have hframe : Frame h (h.extend p bs) Y K' := by
    refine ⟨fun r hr => ?_, fun q hq => ?_, fun q _ => ?_, fun q _ => ?_, fun q hq => ?_,
      Heap.Grows.extend h p bs⟩
    · exact R.inv.bytes_extend hS (mem_add.2 (.inr hr))
    · rw [extend_size, if_neg (hK' q hq).2, add_zero]
    · exact extend_cap h p q bs
    · exact extend_next h p q bs
    · exact extend_data_of_ne h p q bs (hK' q hq).2
  refine ⟨R2, hf, hframe.trans ((R2.frame hf).monoHeld fun q hq => (hK' q hq).1), ?_⟩
  rw [hc, bytes_extend, content_congr fun r hr =>
    R.inv.bytes_extend hS (mem_left hr)]

theorem Rep.appendPiece (R : Rep pos h (p :: l) b Y K S)
    (hroom : (h.blk p).size + bs.length ≤ (h.blk p).cap) (hlen : pos = true → 0 < bs.length)
    (heq : b.pushOrMoveBackRef false ⟨(h.blk p).size, bs.length, p⟩ (h.extend p bs) = (b', h')) :
    Rep pos h' (p :: l) b' Y K S ∧ Frame h h' Y K ∧
      h'.content b'.refs = h.content b.refs ++ bs := by
  have hmem : p ∈ p :: l := mem_cons_self
  have hK := R.inv.not_held_of_tls hmem
  obtain ⟨R', -, hf, hc⟩ := R.extendPush (R.inv.lim_none_of_tls hmem) (R.inv.pos_of_tls hmem)
    hroom hlen (fun q hq => ⟨hq, fun heq => hK (heq ▸ hq)⟩) heq
  exact ⟨R', hf, hc⟩

/-- The outcome of appending `bs`: everything, or `-1` and a proper prefix if
some allocation fails. -/
def Appended (oom : Ptr → Bool) (old bs : List Byte) (rc : ℤ) (new : List Byte) : Prop :=
  (rc = 0 ∧ new = old ++ bs) ∨
    (rc = -1 ∧ (∃ q, oom q = true) ∧ ∃ k < bs.length, new = old ++ bs.take k)

theorem Appended.cons {oom : Ptr → Bool} {old bs1 bs2 new : List Byte}
    (h : Appended oom (old ++ bs1) bs2 rc new) : Appended oom old (bs1 ++ bs2) rc new := by
  rcases h with ⟨rfl, hnew⟩ | ⟨rfl, hoom, k, hk, hnew⟩
  · exact .inl ⟨rfl, by rw [hnew, append_assoc]⟩
  · refine .inr ⟨rfl, hoom, bs1.length + k, by simp; lia, ?_⟩
    rw [hnew, take_length_add_append, append_assoc]

theorem Rep.pushBack (R : Rep pos h l b Y K S)
    (heq : b.pushBack c h = (rc, b', h')) :
    ∃ l', Rep pos h' l' b' Y K S ∧ Frame h h' Y K ∧
      Appended h.oom (h.content b.refs) [c] rc (h'.content b'.refs) := by
  unfold IOBuf.pushBack at heq
  rcases hshare : h.shareTlsBlock with ⟨p, h1⟩
  simp only [hshare] at heq
  obtain ⟨hframe, hcase⟩ := R.inv.shareTlsBlock hshare
  have hframeY : Frame h h1 Y K := hframe.mono fun _ hr => mem_add.2 (.inr hr)
  have hc1 : h1.content b.refs = h.content b.refs := hframe.content fun _ hr => mem_left hr
  rcases hcase with ⟨rfl, hoom, l', H'⟩ | ⟨hp, l', H', hroom⟩
  · rw [if_pos rfl] at heq
    cases heq
    exact ⟨l', ⟨R.wf, H'⟩, hframeY, .inr ⟨rfl, hoom, 0, by simp, by simpa using hc1⟩⟩
  · rw [if_neg hp, Prod.mk.injEq] at heq
    obtain ⟨rfl, heq⟩ := heq
    have R1 : Rep pos h1 (p :: l') b Y K S := ⟨R.wf, H'⟩
    have hone : (h1.blk p).size + [c].length ≤ (h1.blk p).cap := Nat.succ_le_of_lt hroom
    obtain ⟨R', hf, hc⟩ := R1.appendPiece hone (by simp) heq
    exact ⟨_, R', hframeY.trans hf, .inl ⟨rfl, by rw [hc, hc1]⟩⟩

theorem Rep.appendLoop : ∀ {fuel : ℕ} {bs : List Byte} {b : IOBuf} {h : Heap} {l : List Ptr},
    Rep pos h l b Y K S → bs.length ≤ fuel → ∀ {rc : ℤ} {b' : IOBuf} {h' : Heap},
      appendLoop fuel bs b h = (rc, b', h') →
      ∃ l', Rep pos h' l' b' Y K S ∧ Frame h h' Y K ∧
        Appended h.oom (h.content b.refs) bs rc (h'.content b'.refs)
  | 0, bs, b, h, l, R, hfuel, rc, b', h', heq => by
    obtain ⟨rfl, rfl, rfl⟩ := heq
    obtain rfl : bs = [] := length_eq_zero_iff.mp (by omega)
    exact ⟨l, R, Frame.refl h Y K, Or.inl ⟨rfl, by simp⟩⟩
  | fuel + 1, bs, b, h, l, R, hfuel, rc, b', h', heq => by
    unfold IOBuf.appendLoop at heq
    by_cases hbs : bs = []
    · rw [if_pos hbs] at heq
      obtain ⟨rfl, rfl, rfl⟩ := heq
      exact ⟨l, R, Frame.refl h Y K, Or.inl ⟨rfl, by simp [hbs]⟩⟩
    rw [if_neg hbs] at heq
    have hlen : 0 < bs.length := length_pos_iff.mpr hbs
    obtain ⟨p, h1, hshare⟩ : ∃ p h1, h.shareTlsBlock = (p, h1) := ⟨_, _, rfl⟩
    simp only [hshare] at heq
    obtain ⟨hframe, hcase⟩ := R.inv.shareTlsBlock hshare
    have hframeY : Frame h h1 Y K := hframe.mono fun _ hr => mem_add.mpr (Or.inr hr)
    have hc1 : h1.content b.refs = h.content b.refs := hframe.content fun _ hr => mem_left hr
    rcases hcase with ⟨rfl, hoom, l', H'⟩ | ⟨hp, l', H', hroom⟩
    · rw [if_pos rfl] at heq
      cases heq
      exact ⟨l', ⟨R.wf, H'⟩, hframeY, .inr ⟨rfl, hoom, 0, hlen, by simpa using hc1⟩⟩
    · rw [if_neg hp] at heq
      -- `piece` goes into this block, the rest into the next ones.
      obtain ⟨nc, hnc⟩ : ∃ nc, nc = min bs.length (h1.blk p).leftSpace := ⟨_, rfl⟩
      have hspace : (h1.blk p).leftSpace = (h1.blk p).cap - (h1.blk p).size := rfl
      obtain ⟨piece, rest, hcat, hpiece⟩ : ∃ piece rest, bs = piece ++ rest ∧ piece.length = nc :=
        ⟨bs.take nc, bs.drop nc, (take_append_drop nc bs).symm, by simp; lia⟩
      rw [← hnc, hcat, ← hpiece, take_left, drop_left] at heq
      have hlens : bs.length = piece.length + rest.length := by rw [hcat, length_append]
      rcases hpush1 : b.pushOrMoveBackRef false ⟨(h1.blk p).size, piece.length, p⟩ (h1.write p
        (h1.blk p).size piece) with ⟨b1, h2⟩
      have hpush := push_setSize (h := h1) R.wf hp piece
      obtain ⟨R1, hf1, hcc1⟩ := appendPiece ⟨R.wf, H'⟩ (by lia) (by lia) hpush
      obtain ⟨l2, R2, hf2, hout⟩ := appendLoop R1 (by lia) heq
      refine ⟨l2, R2, (hframeY.trans hf1).trans hf2, ?_⟩
      rw [hcc1, hc1, (hframeY.trans hf1).oom] at hout
      rw [hcat]
      exact hout.cons

theorem Rep.append {data : Option (List Byte)} (R : Rep pos h l b Y K S)
    (heq : b.append data h = (rc, b', h')) :
    ∃ l', Rep pos h' l' b' Y K S ∧ Frame h h' Y K ∧ match data with
      | none => rc = -1 ∧ h'.content b'.refs = h.content b.refs
      | some bs => Appended h.oom (h.content b.refs) bs rc (h'.content b'.refs) := by
  unfold IOBuf.append at heq
  split at heq
  · cases heq
    exact ⟨l, R, Frame.refl h Y K, rfl, rfl⟩
  · exact R.pushBack heq
  · exact appendLoop R le_rfl heq

/-- The inner loop of `appendv` splits the vector: some bytes fit, and what is
left is smaller. -/
theorem fillVec_spec : ∀ {space : ℕ} {vec : List (List Byte)} {bs : List Byte}
    {rest : List (List Byte)}, fillVec space vec = (bs, rest) →
      bs ++ rest.flatten = vec.flatten ∧ bs.length ≤ space ∧ rest.length ≤ vec.length ∧
        (0 < space → vec ≠ [] → rest.length + rest.flatten.length < vec.length + vec.flatten.length)
  | space, [], bs, rest, heq => by
    obtain ⟨rfl, rfl⟩ := heq
    simp
  | space, v :: vs, bs, rest, heq => by
    unfold fillVec at heq
    split at heq
    · rename_i hlt
      obtain ⟨rfl, rfl⟩ := heq
      refine ⟨?_, by simp, by simp, fun hs _ => by simp; omega⟩
      rw [flatten_cons, flatten_cons, ← append_assoc, take_append_drop]
    · rename_i hle
      obtain ⟨bs1, rest1, hrec⟩ : ∃ bs1 rest1, fillVec (space - v.length) vs = (bs1, rest1) :=
        ⟨_, _, rfl⟩
      simp only [hrec] at heq
      cases heq
      obtain ⟨hcat, hlen, hnum, -⟩ := fillVec_spec hrec
      refine ⟨by simp [← hcat], by simp; lia, by simp; lia, fun _ _ => ?_⟩
      have := congrArg List.length hcat
      simp at this ⊢
      lia

/-- `appendv`: the last reference of the queue may be empty afterwards, when
the vector ends with empty elements. -/
theorem Rep.appendvLoop : ∀ {fuel : ℕ} {vec : List (List Byte)} {b : IOBuf} {h : Heap}
    {l : List Ptr}, Rep false h l b Y K S → vec.length + vec.flatten.length ≤ fuel →
    ∀ {rc : ℤ} {b' : IOBuf} {h' : Heap}, appendvLoop fuel vec b h = (rc, b', h') →
      ∃ l', Rep false h' l' b' Y K S ∧ Frame h h' Y K ∧
        (Appended h.oom (h.content b.refs) vec.flatten rc (h'.content b'.refs) ∨
          rc = -1 ∧ h'.content b'.refs = h.content b.refs ++ vec.flatten)
  | 0, vec, b, h, l, R, hfuel, rc, b', h', heq => by
    obtain ⟨rfl, rfl, rfl⟩ := heq
    obtain rfl : vec = [] := length_eq_zero_iff.mp (by omega)
    exact ⟨l, R, Frame.refl h Y K, Or.inl (Or.inl ⟨rfl, by simp⟩)⟩
  | fuel + 1, vec, b, h, l, R, hfuel, rc, b', h', heq => by
    unfold IOBuf.appendvLoop at heq
    by_cases hvec : vec = []
    · rw [if_pos hvec] at heq
      obtain ⟨rfl, rfl, rfl⟩ := heq
      exact ⟨l, R, Frame.refl h Y K, Or.inl (Or.inl ⟨rfl, by simp [hvec]⟩)⟩
    rw [if_neg hvec] at heq
    obtain ⟨p, h1, hshare⟩ : ∃ p h1, h.shareTlsBlock = (p, h1) := ⟨_, _, rfl⟩
    simp only [hshare] at heq
    obtain ⟨hframe, hcase⟩ := R.inv.shareTlsBlock hshare
    have hframeY : Frame h h1 Y K := hframe.mono fun _ hr => mem_add.mpr (Or.inr hr)
    have hc1 : h1.content b.refs = h.content b.refs := hframe.content fun _ hr => mem_left hr
    rcases hcase with ⟨rfl, hoom, l', H'⟩ | ⟨hp, l', H', hroom⟩
    · rw [if_pos rfl] at heq
      cases heq
      refine ⟨l', ⟨R.wf, H'⟩, hframeY, ?_⟩
      -- An allocation can fail when only empty elements are left.
      by_cases hz : vec.flatten = []
      · exact .inr ⟨rfl, by rw [hc1, hz, append_nil]⟩
      · exact .inl (.inr ⟨rfl, hoom, 0, length_pos_iff.mpr hz, by simpa using hc1⟩)
    · rw [if_neg hp] at heq
      rcases hfill : fillVec (h1.blk p).leftSpace vec with ⟨bs, rest⟩
      simp only [hfill] at heq
      have hspace : (h1.blk p).leftSpace = (h1.blk p).cap - (h1.blk p).size := rfl
      obtain ⟨hcat, hlen, -, hdec⟩ := fillVec_spec hfill
      rcases hpush : b.pushOrMoveBackRef false ⟨(h1.blk p).size, bs.length, p⟩ (h1.extend p bs)
        with ⟨b1, h2⟩
      have heq' : IOBuf.appendvLoop fuel rest b1 h2 = (rc, b', h') := by
        rw [extend] at hpush
        rwa [hpush] at heq
      obtain ⟨R1, hf1, hcc1⟩ := appendPiece ⟨R.wf, H'⟩ (by lia) (by simp) hpush
      obtain ⟨l2, R2, hf2, hout⟩ := appendvLoop R1 (by have := hdec (by lia) hvec; lia) heq'
      refine ⟨l2, R2, (hframeY.trans hf1).trans hf2, ?_⟩
      rw [hcc1, hc1, (hframeY.trans hf1).oom] at hout
      rcases hout with hout | ⟨hrc, hout⟩
      · exact .inl (hcat ▸ hout.cons)
      · exact .inr ⟨hrc, by rw [hout, append_assoc, hcat]⟩

theorem Rep.appendv {vec : List (List Byte)} (R : Rep false h l b Y K S)
    (heq : b.appendv vec h = (rc, b', h')) :
    ∃ l', Rep false h' l' b' Y K S ∧ Frame h h' Y K ∧
      (Appended h.oom (h.content b.refs) vec.flatten rc (h'.content b'.refs) ∨
        rc = -1 ∧ h'.content b'.refs = h.content b.refs ++ vec.flatten) :=
  appendvLoop R le_rfl heq

theorem Rep.resize (R : Rep pos h l b Y K S)
    (heq : b.resize n c h = (rc, b', h')) :
    ∃ l', Rep pos h' l' b' Y K S ∧ Frame h h' Y K ∧ Appended h.oom ((h.content b.refs).take n)
        (replicate (n - (h.content b.refs).length) c) rc (h'.content b'.refs) := by
  unfold IOBuf.resize at heq
  have hlen := R.length
  split at heq
  next hlt =>
    rcases hpop : b.popBack (b.length - n) h with ⟨k, b1, h1⟩
    simp only [hpop] at heq
    cases heq
    obtain ⟨R', hf, -, hc⟩ := R.popBack hpop
    refine ⟨l, R', R'.frame hf, .inl ⟨rfl, ?_⟩⟩
    have hz : n - (h.content b.refs).length = 0 := by lia
    have hn : (h.content b.refs).length - (b.length - n) = n := by lia
    rw [hc, hz, hn]
    simp
  next hge =>
    rw [take_of_length_le (by lia), ← hlen]
    exact appendLoop R (by simp) heq

theorem skipRefs_spec (h : Heap) : ∀ {n : ℕ} {rs : List BlockRef} {off : ℕ}
    {rs' : List BlockRef}, skipRefs n rs = (off, rs') →
      (h.content rs').drop off = (h.content rs).drop n ∧ (∀ r ∈ rs', r ∈ rs) ∧
        ∀ r ∈ rs'.head?, off = 0 ∨ off < r.length
  | n, [], off, rs', heq => by
    cases heq
    simp
  | n, r :: rs, off, rs', heq => by
    unfold skipRefs at heq
    split at heq
    next hz =>
      cases heq
      exact ⟨rfl, fun _ hx => hx, fun _ _ => .inl hz⟩
    split at heq
    next hlt =>
      cases heq
      exact ⟨rfl, fun _ hx => hx, fun x hx => .inr (by simp at hx; rwa [← hx])⟩
    next hge =>
      obtain ⟨hc, hmem, hhead⟩ := skipRefs_spec h heq
      refine ⟨?_, fun x hx => mem_cons_of_mem _ (hmem x hx), hhead⟩
      rw [hc, content_drop_cons (by lia)]

/-- The loop of `append_to` shares the wanted bytes reference by reference. -/
theorem Rep.appendToLoop : ∀ {rs : List BlockRef} {m off : ℕ} {b : IOBuf} {h : Heap},
    Rep pos h l b Y K S → (∀ r ∈ rs, r ∈ Y) → (∀ r ∈ rs, pos = true → 0 < r.length) →
    (∀ r ∈ rs.head?, off = 0 ∨ off < r.length) →
    ∀ {m' : ℕ} {b' : IOBuf} {h' : Heap}, appendToLoop m off rs b h = (m', b', h') →
      Rep pos h' l b' Y K S ∧ Heap.RefOnly h h' ∧ m' = m - ((h.content rs).drop off).length ∧
        h'.content b'.refs = h.content b.refs ++ ((h.content rs).drop off).take m
  | [], m, off, b, h, R, _, _, _, m', b', h', heq => by
    obtain ⟨rfl, rfl, rfl⟩ := heq
    exact ⟨R, Heap.RefOnly.refl h, by simp, by simp⟩
  | r :: rs, m, off, b, h, R, hY, hlen, hoff, m', b', h', heq => by
    unfold IOBuf.appendToLoop at heq
    by_cases hm : m = 0
    · rw [if_pos hm] at heq
      obtain ⟨rfl, rfl, rfl⟩ := heq
      exact ⟨R, Heap.RefOnly.refl h, by omega, by simp [hm]⟩
    rw [if_neg hm] at heq
    obtain ⟨nc, hnc⟩ : ∃ nc, nc = min m (r.length - off) := ⟨_, rfl⟩
    have hoffr := hoff r (by simp)
    have hofflt : pos = true → off < r.length := fun hp =>
      hoffr.elim (fun h0 => by rw [h0]; exact hlen r mem_cons_self hp) id
    have hoffle : off ≤ r.length := hoffr.elim (fun h0 => h0 ▸ Nat.zero_le _) Nat.le_of_lt
    obtain ⟨b1, h1, hpush⟩ : ∃ b1 h1,
      b.pushOrMoveBackRef false ⟨r.offset + off, nc, r.block⟩ h = (b1, h1) := ⟨_, _, rfl⟩
    simp only [← hnc, hpush] at heq
    have hrY : r ∈ (b.refs : Multiset BlockRef) + Y :=
      mem_add.2 (.inr (hY r mem_cons_self))
    have hlive : 0 < (h.blk r.block).nshared := R.inv.pos_of_ref hrY
    have hstop : (⟨r.offset + off, nc, r.block⟩ : BlockRef).stop ≤ h.lim S r.block := by
      refine le_trans ?_ (R.inv.bound r hrY)
      have hnc' : nc ≤ r.length - off := hnc ▸ min_le_right _ _
      show r.offset + off + nc ≤ r.offset + r.length
      rw [add_assoc]
      exact Nat.add_le_add_left (Nat.add_le_of_le_sub' hoffle hnc') _
    have hpos : pos = true → 0 < nc := fun hp => by
      rw [hnc]
      exact lt_min (pos_of_ne_zero hm) (Nat.sub_pos_of_lt (hofflt hp))
    obtain ⟨R1, hf1, hc1⟩ := R.push (r := ⟨r.offset + off, nc, r.block⟩) hlive hstop hpos hpush
    obtain ⟨R2, hf2, hm2, hc2⟩ := appendToLoop R1 (fun x hx => hY x (mem_cons_of_mem _ hx))
      (fun x hx => hlen x (mem_cons_of_mem _ hx)) (fun _ _ => .inl rfl) heq
    have hrs : h1.content rs = h.content rs := content_congr fun x hx =>
      R1.inv.bytes_eq hf1 (mem_add.2 (.inr (hY x (mem_cons_of_mem _ hx))))
    have hdrop : (h.content (r :: rs)).drop off =
        h.read r.block (r.offset + off) (r.length - off) ++ h.content rs := by
      rw [content_cons, drop_append_of_le_length (by rwa [bytes_length])]
      congr 1
      exact read_drop hoffle
    have hsub : m - nc = m - (r.length - off) := by rw [hnc, tsub_min]
    refine ⟨R2, hf1.trans hf2, ?_, ?_⟩
    · rw [hm2, hrs, hdrop, length_append, read_length, drop_zero, hsub, Nat.sub_sub]
    · rw [hc2, hc1, hrs, hdrop, take_append, append_assoc]
      simp only [read_length, drop_zero]
      rw [← hsub]
      congr 2
      rcases le_total m (r.length - off) with hle | hle
      · rw [read_take hle, ← min_eq_left hle, ← hnc]
        rfl
      · rw [take_of_length_le (by simpa using hle), ← min_eq_right hle, ← hnc]
        rfl

theorem Rep.appendTo {p : ℕ} {src : IOBuf} (R : Rep pos h l b Y K S) (hs : src.WF pos)
    (hY : ∀ r ∈ src.refs, r ∈ Y) (heq : src.appendTo n p b h = (k, b', h')) :
    Rep pos h' l b' Y K S ∧ Heap.RefOnly h h' ∧ k = (((h.content src.refs).drop p).take n).length ∧
      h'.content b'.refs = h.content b.refs ++ ((h.content src.refs).drop p).take n := by
  unfold IOBuf.appendTo at heq
  rw [refList_eq hs.view] at heq
  rcases hskip : skipRefs p src.refs with ⟨off, rs⟩
  rcases hloop : IOBuf.appendToLoop n off rs b h with ⟨m, b1, h1⟩
  simp only [hskip, hloop] at heq
  cases heq
  obtain ⟨hc, hmem, hhead⟩ := skipRefs_spec h hskip
  obtain ⟨R', hf, hm, hc'⟩ := appendToLoop R (fun r hr => hY r (hmem r hr))
    (fun r hr => (hs.ref r (hmem r hr)).2) hhead hloop
  rw [hc] at hm hc'
  refine ⟨R', hf, ?_, hc'⟩
  rw [hm, length_take]
  lia

/-! ## Reading -/

theorem Rep.cutnString {out str : List Byte} (R : Rep pos h l b Y K S)
    (heq : b.cutnString n out h = (k, str, b', h')) :
    Rep pos h' l b' Y K S ∧ Heap.RefOnly h h' ∧ k = min n (h.content b.refs).length ∧
      str = out ++ (h.content b.refs).take n ∧
      h'.content b'.refs = (h.content b.refs).drop n := by
  unfold IOBuf.cutnString at heq
  split at heq
  next hn =>
    cases heq
    subst hn
    exact ⟨R, Heap.RefOnly.refl h, by simp, by simp, by simp⟩
  rw [R.length] at heq
  obtain ⟨m, hm⟩ : ∃ m, m = min n (h.content b.refs).length := ⟨_, rfl⟩
  rcases hcut : b.cutnRaw m h with ⟨k', bs, b1, h1⟩
  simp only [← hm, hcut] at heq
  cases heq
  obtain ⟨R', hf, hk, hbs, hc⟩ := R.cutnRaw hcut
  have hlen : bs.length = m := by
    rw [hbs, length_take]
    lia
  refine ⟨R', hf, by lia, ?_, ?_⟩
  · rw [hlen, Nat.sub_self, replicate_zero, append_nil, hbs, hm, take_min_length]
  · rw [hc, hm, drop_min_length]

theorem Rep.fetch1 (R : Rep true h l b Y K S) : b.fetch1 h = (h.content b.refs).head? := by
  unfold IOBuf.fetch1
  cases hrefs : b.refs with
  | nil => rw [if_pos ((IOBuf.empty_iff R.wf).2 hrefs), content_nil, head?_nil]
  | cons r rs =>
    have hne : ¬ b.empty = true := by
      rw [IOBuf.empty_iff R.wf, hrefs]
      simp
    have hpos := (R.wf.ref r (by rw [hrefs]; exact mem_cons_self)).2 rfl
    obtain ⟨n, hn⟩ : ∃ n, r.length = n + 1 := ⟨r.length - 1, by lia⟩
    rw [if_neg hne, frontRef_eq R.wf.view hrefs, content_cons, bytes, hn,
      add_comm n 1, read_add]
    rfl

theorem copyToLoop_eq (h : Heap) : ∀ {rs : List BlockRef} {m off : ℕ},
    (∀ r ∈ rs.head?, off = 0 ∨ off < r.length) →
      copyToLoop m off rs h = ((h.content rs).drop off).take m := by
  intro rs
  induction rs with
  | nil => simp [copyToLoop]
  | cons r rs ih =>
    intro m off hoff
    have hoffr := hoff r (by simp)
    unfold copyToLoop
    split
    next hm =>
      rw [hm, take_zero]
    simp only
    have hdrop : (h.content (r :: rs)).drop off =
        h.read r.block (r.offset + off) (r.length - off) ++ h.content rs := by
      rw [content_cons, drop_append_of_le_length (by rw [bytes_length]; lia)]
      congr 1
      exact read_drop (by lia)
    rw [ih fun _ _ => .inl rfl, hdrop, take_append, read_length, drop_zero]
    rcases le_total m (r.length - off) with hle | hle
    · rw [min_eq_left hle, read_take hle, Nat.sub_self, Nat.sub_eq_zero_of_le hle]
    · have hall : (h.read r.block (r.offset + off) (r.length - off)).take m =
          h.read r.block (r.offset + off) (r.length - off) :=
        take_of_length_le (by rwa [read_length])
      rw [min_eq_right hle, hall]

theorem Rep.copyTo (R : Rep pos h l b Y K S) (n p : ℕ) :
    b.copyTo n p h = ((h.content b.refs).drop p).take n := by
  unfold IOBuf.copyTo
  rw [refList_eq R.wf.view]
  obtain ⟨off, rs, hskip⟩ : ∃ off rs, skipRefs p b.refs = (off, rs) := ⟨_, _, rfl⟩
  obtain ⟨hc, -, hhead⟩ := skipRefs_spec h hskip
  simp only [hskip]
  rw [copyToLoop_eq h hhead, hc]

end

end Eabase.IOBuf
