import Eabase.IOBuf.Cutter
import Eabase.IOBuf.Sharing

/-!
# A cutter agrees with its buffer

The same operations through a cutter and directly on the buffer. Without
appends in between both give the same results and leave the same bytes
(`run_cutter_agrees`), but the destructor writes the cursor back through
`_front_ref()` and does not correct the cached length of a `BigView`:
`length()` is right afterwards exactly under `CloseOk`.

The second part appends to the buffer while it is being cut
(`run_cut_append`). An append may extend the very reference whose end the
cutter has cached; the new bytes are then dropped together with it
(`append_into_loaded_ref`).
-/

namespace Eabase.IOBuf

open Finset Function List

/-- An operation of the cutter of buffer `i`. -/
inductive CutOp (ι : Type) (i : ι) : Type where
  | cutn (out : ι) (h : i ≠ out) (n : ℕ)
  | cutnString (n : ℕ) (out : List Byte)
  | cutnRaw (n : ℕ)
  | cut1
  | fetch1
  | copyTo (n : ℕ)
  | popFront (n : ℕ)
  | remainingBytes

structure CutState (ι : Type) where
  cutter : IOBufCutter
  bufs : ι → IOBuf
  heap : Heap

section Exec

variable {ι : Type} [DecidableEq ι] {i : ι}

def CutOp.exec (op : CutOp ι i) (σ : CutState ι) : Result × CutState ι :=
  let b := σ.bufs i
  match op with
  | cutn out _ n =>
      let (k, C, b', o, h) := σ.cutter.cutn n b (σ.bufs out) σ.heap
      (.count k, ⟨C, update (update σ.bufs i b') out o, h⟩)
  | cutnString n out =>
      let (k, str, C, b', h) := σ.cutter.cutnString n out b σ.heap
      (.bytes k str, ⟨C, update σ.bufs i b', h⟩)
  | cutnRaw n =>
      let (k, bs, C, b', h) := σ.cutter.cutnRaw n b σ.heap
      (.bytes k bs, ⟨C, update σ.bufs i b', h⟩)
  | cut1 =>
      let (c, C, b', h) := σ.cutter.cut1 b σ.heap
      (.byte c, ⟨C, update σ.bufs i b', h⟩)
  | fetch1 =>
      let (c, C, b', h) := σ.cutter.fetch1 b σ.heap
      (.byte c, ⟨C, update σ.bufs i b', h⟩)
  | copyTo n =>
      let (bs, C, b', h) := σ.cutter.copyTo n b σ.heap
      (.bytes bs.length bs, ⟨C, update σ.bufs i b', h⟩)
  | popFront n =>
      let (k, C, b', h) := σ.cutter.popFront n b σ.heap
      (.count k, ⟨C, update σ.bufs i b', h⟩)
  | remainingBytes => (.count (σ.cutter.remainingBytes b), σ)

def CutOp.direct (op : CutOp ι i) (bufs : ι → IOBuf) (h : Heap) : Result × (ι → IOBuf) × Heap :=
  let b := bufs i
  match op with
  | cutn out _ n =>
      let (k, b', o, h') := b.cutn n (bufs out) h
      (.count k, update (update bufs i b') out o, h')
  | cutnString n out =>
      let (k, str, b', h') := b.cutnString n out h
      (.bytes k str, update bufs i b', h')
  | cutnRaw n =>
      let (k, bs, b', h') := b.cutnRaw n h
      (.bytes k bs, update bufs i b', h')
  | cut1 =>
      let (c, b', h') := b.cut1 h
      (.byte c, update bufs i b', h')
  | fetch1 => (.byte (b.fetch1 h), bufs, h)
  | copyTo n => (.bytes (b.copyTo n 0 h).length (b.copyTo n 0 h), bufs, h)
  | popFront n =>
      let (k, b', h') := b.popFront n h
      (.count k, update bufs i b', h')
  | remainingBytes => (.count b.length, bufs, h)

def CutOp.onBytes (op : CutOp ι i) (s : ι → List Byte) : Result × (ι → List Byte) :=
  match op with
  | cutn out _ n => (.count (min n (s i).length),
      update (update s i ((s i).drop n)) out (s out ++ (s i).take n))
  | cutnString n out => (.bytes (min n (s i).length) (out ++ (s i).take n),
      update s i ((s i).drop n))
  | cutnRaw n => (.bytes (min n (s i).length) ((s i).take n), update s i ((s i).drop n))
  | cut1 => (.byte (s i).head?, update s i (s i).tail)
  | fetch1 => (.byte (s i).head?, s)
  | copyTo n => (.bytes (min n (s i).length) ((s i).take n), s)
  | popFront n => (.count (min n (s i).length), update s i ((s i).drop n))
  | remainingBytes => (.count (s i).length, s)

def CutOp.run : List (CutOp ι i) → CutState ι → List Result × CutState ι
  | [], σ => ([], σ)
  | op :: ops, σ =>
      let (res, σ₁) := op.exec σ
      let (rest, σ₂) := run ops σ₁
      (res :: rest, σ₂)

def CutOp.runDirect : List (CutOp ι i) → (ι → IOBuf) → Heap →
    List Result × (ι → IOBuf) × Heap
  | [], bufs, h => ([], bufs, h)
  | op :: ops, bufs, h =>
      let (res, bufs₁, h₁) := op.direct bufs h
      let (rest, bufs₂, h₂) := runDirect ops bufs₁ h₁
      (res :: rest, bufs₂, h₂)

def CutState.close (σ : CutState ι) (i : ι) : (ι → IOBuf) × Heap :=
  let (b, h) := σ.cutter.close (σ.bufs i) σ.heap
  (update σ.bufs i b, h)

/-- The bytes of every buffer, and for the one with the cutter those still to be cut. -/
def CutState.view (σ : CutState ι) (i : ι) : ι → List Byte :=
  update (contents σ.heap σ.bufs) i (σ.heap.content (σ.cutter.uncut (σ.bufs i).refs))

theorem CutState.view_self (σ : CutState ι) (i : ι) :
    σ.view i i = σ.heap.content (σ.cutter.uncut (σ.bufs i).refs) := update_self _ _ _

theorem CutState.view_of_ne (σ : CutState ι) {j : ι} (hij : i ≠ j) :
    σ.view i j = σ.heap.content (σ.bufs j).refs := update_of_ne hij.symm _ _

end Exec

/-! ## One operation -/

section Family

variable {ι : Type} [Fintype ι] [DecidableEq ι]

structure CutInv (σ : CutState ι) (i : ι) (l : List Ptr) (Y : Multiset BlockRef)
    (K : Multiset Ptr) (S : Ptr → Option ℕ) : Prop where
  fam : FamInv true σ.heap l σ.bufs Y K S
  loc : σ.cutter.Loc (σ.bufs i).refs

variable {σ : CutState ι} {i j : ι} {l l' : List Ptr} {Y : Multiset BlockRef} {K : Multiset Ptr}
  {S : Ptr → Option ℕ} {C : IOBufCutter} {b c : IOBuf} {h' : Heap}

section

variable (F : CutInv σ i l Y K S)
include F

theorem CutInv.focus :
    CRep σ.heap l σ.cutter (σ.bufs i) (famRefs (univ.erase i) σ.bufs + Y) K S :=
  ⟨F.fam.focus i, F.loc⟩

theorem CutInv.focus₂ (hij : i ≠ j) : CRep σ.heap l σ.cutter (σ.bufs i)
      ((σ.bufs j).refs + (famRefs ((univ.erase i).erase j) σ.bufs + Y)) K S :=
  ⟨F.fam.focus₂ hij, F.loc⟩

theorem CutInv.one
    (R : CRep h' l' C b (famRefs (univ.erase i) σ.bufs + Y) K S)
    (hf : Frame σ.heap h' (famRefs (univ.erase i) σ.bufs + Y) K) :
    CutInv ⟨C, update σ.bufs i b, h'⟩ i l' Y K S ∧ CutState.view ⟨C, update σ.bufs i b, h'⟩ i =
        update (σ.view i) i (h'.content (C.uncut b.refs)) := by
  obtain ⟨F', -, hc⟩ := F.fam.one R.toRep hf
  refine ⟨⟨F', by simpa using R.loc⟩, ?_⟩
  unfold CutState.view
  simp only [hc, update_self, update_idem]

theorem CutInv.two (hij : i ≠ j)
    (R : CRep h' l' C b (c.refs + (famRefs ((univ.erase i).erase j) σ.bufs + Y)) K S)
    (hc : c.WF true) (hf : Frame σ.heap h' (famRefs ((univ.erase i).erase j) σ.bufs + Y) K) :
    CutInv ⟨C, update (update σ.bufs i b) j c, h'⟩ i l' Y K S ∧
      CutState.view ⟨C, update (update σ.bufs i b) j c, h'⟩ i =
        update (update (σ.view i) i (h'.content (C.uncut b.refs))) j (h'.content c.refs) := by
  obtain ⟨F', -, hcont⟩ := F.fam.two hij R.toRep hc hf
  refine ⟨⟨F', by simpa [update_of_ne hij] using R.loc⟩, ?_⟩
  unfold CutState.view
  simp only [hcont, update_of_ne hij, update_self]
  ext1 k
  obtain rfl | hk := eq_or_ne k j
  · simp [update_of_ne hij.symm]
  · obtain rfl | hki := eq_or_ne k i
    · simp [update_of_ne hij]
    · simp [update_of_ne hk, update_of_ne hki]

/-- **One operation through the cutter** is the operation on byte strings. -/
theorem CutInv.exec (op : CutOp ι i) : CutInv (op.exec σ).2 i l Y K S ∧
      ((op.exec σ).1, (op.exec σ).2.view i) = op.onBytes (σ.view i) := by
  have R := F.focus
  cases op with
  | cutn out hne n =>
    rcases heq : σ.cutter.cutn n (σ.bufs i) (σ.bufs out) σ.heap with ⟨k, C', b', o, h'⟩
    obtain ⟨R', ho, hf, hk, hc, hco⟩ := (F.focus₂ hne).cutn (F.fam.wf out) heq
    have hframe := (R'.toRep.frame hf).mono fun r hr => Multiset.mem_add.2 (Or.inr hr)
    obtain ⟨F', hview⟩ := F.two hne R' ho hframe
    simp only [CutOp.exec, heq, CutOp.onBytes, hview, hk, hc, hco, CutState.view_self,
      CutState.view_of_ne _ hne, and_true]
    exact F'
  | cutnString n out =>
    rcases heq : σ.cutter.cutnString n out (σ.bufs i) σ.heap with ⟨k, str, C', b', h'⟩
    obtain ⟨R', hf, hk, hs, hc⟩ := R.cutnString heq
    obtain ⟨F', hview⟩ := F.one R' (R'.toRep.frame hf)
    simp only [CutOp.exec, heq, CutOp.onBytes, hview, hk, hs, hc, CutState.view_self, and_true]
    exact F'
  | cutnRaw n =>
    rcases heq : σ.cutter.cutnRaw n (σ.bufs i) σ.heap with ⟨k, bs, C', b', h'⟩
    obtain ⟨R', hf, hk, hs, hc⟩ := R.cutnRaw heq
    obtain ⟨F', hview⟩ := F.one R' (R'.toRep.frame hf)
    simp only [CutOp.exec, heq, CutOp.onBytes, hview, hk, hs, hc, CutState.view_self, and_true]
    exact F'
  | cut1 =>
    rcases heq : σ.cutter.cut1 (σ.bufs i) σ.heap with ⟨x, C', b', h'⟩
    obtain ⟨R', hf, hx, hc⟩ := R.cut1 heq
    obtain ⟨F', hview⟩ := F.one R' (R'.toRep.frame hf)
    simp only [CutOp.exec, heq, CutOp.onBytes, hview, hx, hc, CutState.view_self, and_true]
    exact F'
  | fetch1 =>
    rcases heq : σ.cutter.fetch1 (σ.bufs i) σ.heap with ⟨x, C', b', h'⟩
    obtain ⟨R', hf, hx, hc⟩ := R.fetch1 heq
    obtain ⟨F', hview⟩ := F.one R' (R'.toRep.frame hf)
    simp only [CutOp.exec, heq, CutOp.onBytes, hview, hx, hc, CutState.view_self]
    exact ⟨F', by rw [← CutState.view_self, update_eq_self]⟩
  | copyTo n =>
    rcases heq : σ.cutter.copyTo n (σ.bufs i) σ.heap with ⟨bs, C', b', h'⟩
    obtain ⟨R', hf, hbs, hc⟩ := R.copyTo heq
    obtain ⟨F', hview⟩ := F.one R' (R'.toRep.frame hf)
    simp only [CutOp.exec, heq, CutOp.onBytes, hview, hbs, hc, CutState.view_self, length_take]
    exact ⟨F', by rw [← CutState.view_self, update_eq_self]⟩
  | popFront n =>
    rcases heq : σ.cutter.popFront n (σ.bufs i) σ.heap with ⟨k, C', b', h'⟩
    obtain ⟨R', hf, hk, hc⟩ := R.popFront heq
    obtain ⟨F', hview⟩ := F.one R' (R'.toRep.frame hf)
    simp only [CutOp.exec, heq, CutOp.onBytes, hview, hk, hc, CutState.view_self, and_true]
    exact F'
  | remainingBytes =>
    refine ⟨F, ?_⟩
    simp only [CutOp.exec, CutOp.onBytes, R.remainingBytes, CutState.view_self]

end

/-- **The same operation on the buffer** is the same operation on byte strings. -/
theorem FamInv.direct {bufs : ι → IOBuf} {h : Heap} (F : FamInv true h l bufs Y K S)
    (op : CutOp ι i) :
    FamInv true (op.direct bufs h).2.2 l (op.direct bufs h).2.1 Y K S ∧
      ((op.direct bufs h).1, contents (op.direct bufs h).2.2 (op.direct bufs h).2.1) =
        op.onBytes (contents h bufs) := by
  have R := F.focus i
  cases op with
  | cutn out hne n =>
    rcases heq : (bufs i).cutn n (bufs out) h with ⟨k, b', o, h'⟩
    obtain ⟨R', ho, hf, hk, hc, hco⟩ := (F.focus₂ hne).cutn (F.wf out) heq
    have hframe := (R'.frame hf).mono fun r hr => Multiset.mem_add.2 (Or.inr hr)
    obtain ⟨F', -, hcont⟩ := F.two hne R' ho hframe
    simp only [CutOp.direct, heq, CutOp.onBytes, hcont, hk, hc, hco]
    exact ⟨F', rfl⟩
  | cutnString n out =>
    rcases heq : (bufs i).cutnString n out h with ⟨k, str, b', h'⟩
    obtain ⟨R', hf, hk, hs, hc⟩ := R.cutnString heq
    obtain ⟨F', -, hcont⟩ := F.one R' (R'.frame hf)
    simp only [CutOp.direct, heq, CutOp.onBytes, hcont, hk, hs, hc]
    exact ⟨F', rfl⟩
  | cutnRaw n =>
    rcases heq : (bufs i).cutnRaw n h with ⟨k, bs, b', h'⟩
    obtain ⟨R', hf, hk, hs, hc⟩ := R.cutnRaw heq
    obtain ⟨F', -, hcont⟩ := F.one R' (R'.frame hf)
    simp only [CutOp.direct, heq, CutOp.onBytes, hcont, hk, hs, hc]
    exact ⟨F', rfl⟩
  | cut1 =>
    rcases heq : (bufs i).cut1 h with ⟨x, b', h'⟩
    obtain ⟨R', hf, hspec⟩ := R.cut1 heq
    obtain ⟨hx, hc⟩ := hspec rfl
    obtain ⟨F', -, hcont⟩ := F.one R' (R'.frame hf)
    simp only [CutOp.direct, heq, CutOp.onBytes, hcont, hx, hc]
    exact ⟨F', rfl⟩
  | fetch1 => exact ⟨F, by simp only [CutOp.direct, CutOp.onBytes, R.fetch1, contents]⟩
  | copyTo n =>
    refine ⟨F, ?_⟩
    simp only [CutOp.direct, CutOp.onBytes, R.copyTo, drop_zero, length_take, contents]
  | popFront n =>
    rcases heq : (bufs i).popFront n h with ⟨k, b', h'⟩
    obtain ⟨R', hf, hk, hc⟩ := R.popFront heq
    obtain ⟨F', -, hcont⟩ := F.one R' (R'.frame hf)
    simp only [CutOp.direct, heq, CutOp.onBytes, hcont, hk, hc]
    exact ⟨F', rfl⟩
  | remainingBytes =>
    exact ⟨F, by simp only [CutOp.direct, CutOp.onBytes, R.length, contents]⟩

/-! ## Whole runs -/

/-- A run through the cutter and a run on buffers with the same bytes keep in
step. -/
theorem CutInv.run {l2 : List Ptr} {Y2 : Multiset BlockRef} {K2 : Multiset Ptr}
    {S2 : Ptr → Option ℕ} (ops : List (CutOp ι i)) :
    ∀ {σ : CutState ι} {bufs : ι → IOBuf} {h : Heap}, CutInv σ i l Y K S →
      FamInv true h l2 bufs Y2 K2 S2 → σ.view i = contents h bufs →
      CutInv (CutOp.run ops σ).2 i l Y K S ∧ (CutOp.run ops σ).1 = (CutOp.runDirect ops bufs h).1 ∧
        (CutOp.run ops σ).2.view i =
          contents (CutOp.runDirect ops bufs h).2.2 (CutOp.runDirect ops bufs h).2.1 := by
  induction ops with
  | nil =>
    intro σ bufs h F G heq
    exact ⟨F, rfl, heq⟩
  | cons op ops ih =>
    intro σ bufs h F G heq
    obtain ⟨F1, h1⟩ := F.exec op
    obtain ⟨G1, h2⟩ := G.direct op
    rw [heq, ← h2, Prod.mk.injEq] at h1
    obtain ⟨F2, hres, hview⟩ := ih F1 G1 h1.2
    exact ⟨F2, by simp only [CutOp.run, CutOp.runDirect, h1.1, hres], hview⟩

theorem CutInv.close (F : CutInv σ i l Y K S) : contents (σ.close i).2 (σ.close i).1 = σ.view i ∧
      (((σ.close i).1 i).length = (σ.view i i).length ↔ σ.cutter.CloseOk (σ.bufs i)) := by
  have R := F.focus
  rcases heq : σ.cutter.close (σ.bufs i) σ.heap with ⟨b', h'⟩
  obtain ⟨H, hf, hc, hlen⟩ := R.close heq
  simp only [CutState.close, heq, CutState.view_self, update_self]
  refine ⟨?_, hlen⟩
  ext1 k
  obtain rfl | hk := eq_or_ne k i
  · rw [CutState.view_self, ← hc, contents, update_self]
  · have hki : i ≠ k := fun h => hk h.symm
    rw [CutState.view_of_ne _ hki, contents, update_of_ne hk]
    apply Heap.content_congr
    intro r hr
    exact H.bytes_eq hf (Multiset.mem_add.2 (Or.inr (FamInv.mem_others hk hr)))

end Family

section Runs

variable {ι κ : Type} [DecidableEq ι]

/-- The cutter gives the results of the buffer's own operations, and after its
destruction the buffer holds the uncut bytes and knows how many they are. -/
structure CutOp.Agrees {i : ι} (ops : List (CutOp ι i)) (bufs : ι → IOBuf) (h : Heap) :
    Prop where
  results : (run ops ⟨IOBufCutter.new, bufs, h⟩).1 = (runDirect ops bufs h).1
  contents : contents ((run ops ⟨IOBufCutter.new, bufs, h⟩).2.close i).2
      ((run ops ⟨IOBufCutter.new, bufs, h⟩).2.close i).1 =
    contents (runDirect ops bufs h).2.2 (runDirect ops bufs h).2.1
  length : (((run ops ⟨IOBufCutter.new, bufs, h⟩).2.close i).1 i).length =
    (IOBuf.contents (runDirect ops bufs h).2.2 (runDirect ops bufs h).2.1 i).length

/-- No buffer has an empty reference. Only `appendv` of nothing makes one. -/
def World.NoEmptyRef (W : World ι κ) : Prop := ∀ i, ∀ r ∈ (W.bufs i).refs, 0 < r.length

variable [DecidableEq κ] [Fintype ι] [Fintype κ]

omit [DecidableEq ι] [DecidableEq κ] in
theorem WInv.fam {W : World ι κ} {l : List Ptr} {c : ι → List Ptr} {S : Ptr → Option ℕ}
    (F : WInv W l c S) (hpos : W.NoEmptyRef) :
    FamInv true W.heap l W.bufs (∑ a, ((W.app a).refs : Multiset BlockRef))
      (∑ x, W.held c x) S := by
  constructor
  · intro i
    have hwf := (F.portal i).wf
    exact ⟨hwf.view, fun r hr => ⟨(hwf.ref r hr).1, fun _ => hpos i r hr⟩⟩
  · exact F.inv.of_eq (World.sum_refs W)

end Runs

local instance neZero2 : NeZero 2 := ⟨by decide⟩

inductive CutStep (ι : Type) (i : ι) : Type where
  | cut (op : CutOp ι i)
  | append (data : Option (List Byte))
  | pushBack (c : Byte)
  | appendBuf (other : ι) (h : i ≠ other)
  | appendMovable (other : ι) (h : i ≠ other)

section Steps

variable {ι : Type} [DecidableEq ι] {i : ι}

/-- An operation on the buffers behind the cutter's back. -/
def CutState.onBufs (σ : CutState ι) (op : Op ι) : CutState ι :=
  let (_, bufs, h) := op.exec σ.bufs σ.heap
  ⟨σ.cutter, bufs, h⟩

def CutStep.exec : CutStep ι i → CutState ι → CutState ι
  | cut op, σ => (op.exec σ).2
  | append data, σ => σ.onBufs (.append i data)
  | pushBack c, σ => σ.onBufs (.pushBack i c)
  | appendBuf other h, σ => σ.onBufs (.appendBuf i other h)
  | appendMovable other h, σ => σ.onBufs (.appendMovable i other h)

/-- The bytes an operation of the cutter takes off; for `pop_front` those that
`cutn` would have returned. -/
def CutOp.taken : CutOp ι i → CutState ι → List Byte
  | cutn out h n, σ =>
      (contents ((cutn out h n).exec σ).2.heap ((cutn out h n).exec σ).2.bufs out).drop
        (contents σ.heap σ.bufs out).length
  | cutnString n out, σ => (σ.cutter.cutnString n out (σ.bufs i) σ.heap).2.1.drop out.length
  | cutnRaw n, σ => (σ.cutter.cutnRaw n (σ.bufs i) σ.heap).2.1
  | cut1, σ => (σ.cutter.cut1 (σ.bufs i) σ.heap).1.toList
  | popFront n, σ =>
      (σ.cutter.cutnRaw (σ.cutter.popFront n (σ.bufs i) σ.heap).1 (σ.bufs i) σ.heap).2.1
  | fetch1, _ | copyTo _, _ | remainingBytes, _ => []

def CutStep.taken : CutStep ι i → CutState ι → List Byte
  | cut op, σ => op.taken σ
  | _, _ => []

/-- What a step that appends `bs` and returns `res` has appended: `bs`, or as much
as the buffer grew if an allocation failed. -/
def addedOf (bs : List Byte) (before after : ℕ) : Result → List Byte
  | .rc 0 => bs
  | _ => bs.take (after - before)

def CutStep.added : CutStep ι i → CutState ι → List Byte
  | cut _, _ | append none, _ => []
  | append (some bs), σ =>
      let (res, bufs, _) := (Op.append i (some bs)).exec σ.bufs σ.heap
      addedOf bs (σ.bufs i).length (bufs i).length res
  | pushBack c, σ =>
      let (res, bufs, _) := (Op.pushBack i c).exec σ.bufs σ.heap
      addedOf [c] (σ.bufs i).length (bufs i).length res
  | appendBuf other _, σ | appendMovable other _, σ => contents σ.heap σ.bufs other

def CutStep.run : List (CutStep ι i) → CutState ι → CutState ι × List Byte × List Byte
  | [], σ => (σ, [], [])
  | st :: sts, σ =>
      let (σ', out, app) := run sts (st.exec σ)
      (σ', st.taken σ ++ out, st.added σ ++ app)

/-- Where the first reference begins that the step pushes. -/
def CutStep.firstPush : CutStep ι i → CutState ι → Option (Ptr × ℕ)
  | cut _, _ | append none, _ | append (some []), _ => none
  | append (some _), σ | pushBack _, σ =>
      let (p, h) := σ.heap.shareTlsBlock
      some (p, (h.blk p).size)
  | appendBuf other _, σ | appendMovable other _, σ =>
      if (σ.bufs other).refNum = 0 then none
      else some ((σ.bufs other).frontRef.block, (σ.bufs other).frontRef.offset)

/-- The step does not extend the reference the cutter has loaded. -/
def CutStep.Apart (σ : CutState ι) (st : CutStep ι i) : Prop :=
  σ.cutter.block ≠ NULL → (σ.bufs i).refNum = 1 →
    st.firstPush σ ≠ some ((σ.bufs i).frontRef.block, (σ.bufs i).frontRef.stop)

end Steps

/-! ## The first reference -/

section Front

variable {r : BlockRef} {rs : List BlockRef} {b : IOBuf} {h : Heap}

theorem WF.weaken (hb : b.WF true) : b.WF false :=
  ⟨hb.view, fun r hr => ⟨(hb.ref r hr).1, by simp⟩⟩

/-- A push leaves the first reference alone unless it is the only one and is
extended. Afterwards there are at least two. -/
theorem mergePush_front (r x : BlockRef) (rs : List BlockRef) (hm : rs = [] → ¬ r.mergeable x) :
    ∃ rs', rs' ≠ [] ∧ mergePush (r :: rs) x = r :: rs' := by
  rcases eq_nil_or_concat' rs with rfl | ⟨init, back, rfl⟩
  · refine ⟨[x], by simp, ?_⟩
    have := mergePush_concat [] r x
    rwa [if_neg (hm rfl)] at this
  · rw [← cons_append, mergePush_concat]
    split
    · exact ⟨init ++ [back.grow x], by simp, rfl⟩
    · exact ⟨init ++ [back, x], by simp, rfl⟩

theorem pushRefs_front (move : Bool) (xs : List BlockRef) :
    ∀ {rs : List BlockRef} {b : IOBuf} {h : Heap}, b.WF false → (∀ x ∈ xs, x.block ≠ NULL) →
      b.refs = r :: rs → (rs = [] → ∀ x ∈ xs.head?, ¬ r.mergeable x) →
      ∃ rs', (pushRefs move xs b h).1.refs = r :: rs' := by
  induction xs with
  | nil =>
    intro rs b h _ _ hrefs _
    exact ⟨rs, hrefs⟩
  | cons x xs ih =>
    intro rs b h hb hxs hrefs hm
    have hx := hxs x mem_cons_self
    obtain ⟨rs', hne, hpush⟩ := mergePush_front r x rs fun h => hm h x (by simp)
    have hrefs' := refs_pushOrMoveBackRef move (h := h) hb hx
    rw [hrefs, hpush] at hrefs'
    exact ih (wf_pushOrMoveBackRef move hb hx (by simp))
      (fun y hy => hxs y (mem_cons_of_mem _ hy)) hrefs' fun h => absurd h hne

theorem appendLoop_front : ∀ {fuel : ℕ} {bs : List Byte} {rs : List BlockRef} {b : IOBuf}
    {h : Heap}, b.WF false → b.refs = r :: rs →
      (rs = [] → bs ≠ [] → ¬ (r.block = h.shareTlsBlock.1 ∧
        r.stop = (h.shareTlsBlock.2.blk h.shareTlsBlock.1).size)) →
      ∃ rs', (appendLoop fuel bs b h).2.1.refs = r :: rs' := by
  intro fuel
  induction fuel with
  | zero =>
    intro bs rs b h _ hrefs _
    exact ⟨rs, hrefs⟩
  | succ fuel ih =>
    intro bs rs b h hb hrefs hm
    unfold appendLoop
    split
    · exact ⟨rs, hrefs⟩
    rename_i hbs
    simp only
    split
    · exact ⟨rs, hrefs⟩
    rename_i hp
    obtain ⟨x, hx⟩ : ∃ x : BlockRef, x = ⟨(h.shareTlsBlock.2.blk h.shareTlsBlock.1).size,
      min bs.length (h.shareTlsBlock.2.blk h.shareTlsBlock.1).leftSpace, h.shareTlsBlock.1⟩ :=
      ⟨_, rfl⟩
    have hxp : x.block ≠ NULL := by rw [hx]; exact hp
    obtain ⟨rs', hne, hpush⟩ := mergePush_front r x rs fun hrs hmerge =>
      hm hrs hbs (by rw [hx] at hmerge; exact hmerge)
    rw [← hx]
    have hrefs' := refs_pushOrMoveBackRef false (h := h.shareTlsBlock.2.write h.shareTlsBlock.1
      (h.shareTlsBlock.2.blk h.shareTlsBlock.1).size (bs.take
        (min bs.length (h.shareTlsBlock.2.blk h.shareTlsBlock.1).leftSpace))) hb hxp
    rw [hrefs, hpush] at hrefs'
    exact ih (wf_pushOrMoveBackRef false hb hxp (by simp)) hrefs' fun h => absurd h hne

theorem pushBack_front {c : Byte} (hb : b.WF false) (hrefs : b.refs = r :: rs)
    (hm : rs = [] → ¬ (r.block = h.shareTlsBlock.1 ∧
      r.stop = (h.shareTlsBlock.2.blk h.shareTlsBlock.1).size)) :
    ∃ rs', (b.pushBack c h).2.1.refs = r :: rs' := by
  unfold IOBuf.pushBack
  simp only
  split
  · exact ⟨rs, hrefs⟩
  rename_i hp
  obtain ⟨rs', -, hpush⟩ := mergePush_front r
    ⟨(h.shareTlsBlock.2.blk h.shareTlsBlock.1).size, 1, h.shareTlsBlock.1⟩ rs
    fun hrs hmerge => hm hrs hmerge
  exact ⟨rs', by rw [refs_pushOrMoveBackRef false hb hp, hrefs, hpush]⟩

theorem append_front (data : Option (List Byte)) (hb : b.WF false)
    (hrefs : b.refs = r :: rs)
    (hm : rs = [] → ∀ bs, data = some bs → bs ≠ [] → ¬ (r.block = h.shareTlsBlock.1 ∧
      r.stop = (h.shareTlsBlock.2.blk h.shareTlsBlock.1).size)) :
    ∃ rs', (b.append data h).2.1.refs = r :: rs' := by
  unfold IOBuf.append
  split
  · exact ⟨rs, hrefs⟩
  next c =>
    exact pushBack_front hb hrefs fun hrs => hm hrs [c] rfl (by simp)
  next bs _ =>
    exact appendLoop_front hb hrefs fun hrs hbs => hm hrs bs rfl hbs

end Front

/-! ## Interleavings -/

section Interleaving

variable {ι : Type} [Fintype ι] [DecidableEq ι] {σ : CutState ι} {i : ι} {l : List Ptr}
  {Y : Multiset BlockRef} {K : Multiset Ptr} {S : Ptr → Option ℕ} {bs : List Byte}
  {bufs' : ι → IOBuf} {rc : ℤ}

/-- What an operation of the cutter takes off is the beginning of the uncut bytes. -/
theorem CutInv.taken (F : CutInv σ i l Y K S) (op : CutOp ι i) :
    op.taken σ ++ (op.exec σ).2.view i i = σ.view i i := by
  have R := F.focus
  obtain ⟨F', hexec⟩ := F.exec op
  have hview : (op.exec σ).2.view i = (op.onBytes (σ.view i)).2 := by rw [← hexec]
  rw [hview]
  cases op with
  | cutn out hne n =>
    have hout : contents ((CutOp.cutn out hne n).exec σ).2.heap
        ((CutOp.cutn out hne n).exec σ).2.bufs out =
        contents σ.heap σ.bufs out ++ (σ.view i i).take n := by
      have h1 := congrFun hview out
      rw [CutState.view_of_ne _ hne] at h1
      simp only [CutOp.onBytes, update_self] at h1
      rw [contents, h1, CutState.view_of_ne _ hne]
      rfl
    rw [CutOp.taken, hout, drop_left, CutOp.onBytes]
    simp only [update_of_ne hne, update_self, take_append_drop]
  | cutnString n out =>
    rcases heq : σ.cutter.cutnString n out (σ.bufs i) σ.heap with ⟨k, str, C', b', h'⟩
    obtain ⟨-, -, -, hs, -⟩ := R.cutnString heq
    simp only [CutOp.taken, CutOp.onBytes, heq, hs, drop_left, update_self,
      CutState.view_self, take_append_drop]
  | cutnRaw n =>
    rcases heq : σ.cutter.cutnRaw n (σ.bufs i) σ.heap with ⟨k, bs, C', b', h'⟩
    obtain ⟨-, -, -, hs, -⟩ := R.cutnRaw heq
    simp only [CutOp.taken, CutOp.onBytes, heq, hs, update_self, CutState.view_self,
      take_append_drop]
  | cut1 =>
    rcases heq : σ.cutter.cut1 (σ.bufs i) σ.heap with ⟨x, C', b', h'⟩
    obtain ⟨-, -, hx, -⟩ := R.cut1 heq
    simp only [CutOp.taken, CutOp.onBytes, heq, hx, update_self, CutState.view_self]
    cases σ.heap.content (σ.cutter.uncut (σ.bufs i).refs) <;> rfl
  | popFront n =>
    rcases heq : σ.cutter.popFront n (σ.bufs i) σ.heap with ⟨k, C', b', h'⟩
    obtain ⟨-, -, hk, -⟩ := R.popFront heq
    rcases hcut : σ.cutter.cutnRaw k (σ.bufs i) σ.heap with ⟨m, bs, C2, b2, h2⟩
    obtain ⟨-, -, -, hbs, -⟩ := R.cutnRaw hcut
    simp only [CutOp.taken, CutOp.onBytes, heq, hcut, hbs, update_self, CutState.view_self]
    rw [hk, take_min_length, take_append_drop]
  | fetch1 => rfl
  | copyTo n => rfl
  | remainingBytes => rfl

theorem CutInv.appended {l' : List Ptr} {h' : Heap}
    (F : CutInv σ i l Y K S)
    (F' : FamInv true h' l' bufs' Y K S) (hi : contents h' bufs' i = contents σ.heap σ.bufs i ++ bs)
    (hfront : ∀ r rs, σ.cutter.block ≠ NULL → (σ.bufs i).refs = r :: rs →
      ∃ rs', (bufs' i).refs = r :: rs') :
    CutInv ⟨σ.cutter, bufs', h'⟩ i l' Y K S ∧
      CutState.view ⟨σ.cutter, bufs', h'⟩ i i = σ.view i i ++ bs := by
  obtain ⟨R', hc⟩ := F.focus.appended (F'.focus i) hfront hi
  exact ⟨⟨F', R'.loc⟩, by rw [CutState.view_self, CutState.view_self, hc]⟩

theorem addedOf_eq {oom : Ptr → Bool} {old new : List Byte}
    (h : Appended oom old bs rc new) : new = old ++ addedOf bs old.length new.length (.rc rc) := by
  rcases h with ⟨rfl, rfl⟩ | ⟨rfl, -, k, hk, rfl⟩
  · rfl
  · have hlen : (old ++ bs.take k).length - old.length = k := by
      simp
      lia
    show old ++ bs.take k = old ++ bs.take ((old ++ bs.take k).length - old.length)
    rw [hlen]

theorem CutInv.appendedRc {op : Op ι} {l' : List Ptr}
    {h' : Heap} (F : CutInv σ i l Y K S)
    (hexec : op.exec σ.bufs σ.heap = (.rc rc, bufs', h')) (F' : FamInv true h' l' bufs' Y K S)
    (hspec : ∃ rc' new, Result.rc rc = .rc rc' ∧
      Appended σ.heap.oom (contents σ.heap σ.bufs i) bs rc' new ∧
      contents h' bufs' = update (contents σ.heap σ.bufs) i new)
    (hfront : ∀ r rs, σ.cutter.block ≠ NULL → (σ.bufs i).refs = r :: rs →
      ∃ rs', (bufs' i).refs = r :: rs') :
    CutInv (σ.onBufs op) i l' Y K S ∧ (σ.onBufs op).view i i =
      σ.view i i ++ addedOf bs (σ.bufs i).length (bufs' i).length (.rc rc) := by
  obtain ⟨rc', new, hrc, happ, hs⟩ := hspec
  obtain rfl : rc = rc' := by simpa using hrc
  have hnew : contents h' bufs' i = new := by rw [hs, update_self]
  have hlen : (bufs' i).length = new.length := by
    rw [(F'.focus i).length, ← hnew]
    rfl
  obtain ⟨F1, hv⟩ := F.appended F' (hnew.trans (addedOf_eq happ)) hfront
  rw [hlen, (F.fam.focus i).length]
  simp only [CutState.onBufs, hexec]
  exact ⟨F1, hv⟩

omit [DecidableEq ι] in
theorem CutInv.appendedRefs (F : CutInv σ i l Y K S) (other : ι) (move : Bool) {h : Heap}
    (hok : σ.cutter.block ≠ NULL → (σ.bufs i).refNum = 1 → (if (σ.bufs other).refNum = 0 then none
        else some ((σ.bufs other).frontRef.block, (σ.bufs other).frontRef.offset)) ≠
      some ((σ.bufs i).frontRef.block, (σ.bufs i).frontRef.stop)) :
    ∀ r rs, σ.cutter.block ≠ NULL → (σ.bufs i).refs = r :: rs →
      ∃ rs', (pushRefs move (σ.bufs other).refList (σ.bufs i) h).1.refs = r :: rs' := by
  intro r rs hne hrefs
  have hwf := F.fam.wf i
  have hother := F.fam.wf other
  rw [refList_eq hother.view]
  refine pushRefs_front move _ hwf.weaken (fun x hx => (hother.ref x hx).1) hrefs ?_
  rintro rfl x hx ⟨hblk, hstop⟩
  obtain ⟨xs, hxs⟩ : ∃ xs, (σ.bufs other).refs = x :: xs := by
    cases hc : (σ.bufs other).refs with
    | nil => simp [hc] at hx
    | cons y ys =>
      obtain rfl : y = x := by simpa [hc] using hx
      exact ⟨ys, rfl⟩
  apply hok hne (by rw [refNum_eq hwf.view, hrefs]; rfl)
  rw [if_neg (by rw [refNum_eq hother.view, hxs]; simp), frontRef_eq hwf.view hrefs,
    frontRef_eq hother.view hxs, hblk, ← hstop]
  rfl

/-- **One step** moves bytes from the uncut ones to the cut ones, or appends to
the uncut ones. -/
theorem CutInv.step (F : CutInv σ i l Y K S) {st : CutStep ι i} (hok : st.Apart σ) :
    ∃ l', CutInv (st.exec σ) i l' Y K S ∧
      st.taken σ ++ (st.exec σ).view i i = σ.view i i ++ st.added σ := by
  have hwf := F.fam.wf i
  have hone : ∀ {r rs}, (σ.bufs i).refs = r :: rs → rs = [] →
      (σ.bufs i).refNum = 1 ∧ (σ.bufs i).frontRef = r := by
    rintro r rs hrefs rfl
    exact ⟨by rw [refNum_eq hwf.view, hrefs]; rfl, frontRef_eq hwf.view hrefs⟩
  cases st with
  | cut op =>
    refine ⟨l, (F.exec op).1, ?_⟩
    rw [CutStep.added, append_nil]
    exact F.taken op
  | append data =>
    rcases heq : (σ.bufs i).append data σ.heap with ⟨rc, b', h'⟩
    have hexec : (Op.append i data).exec σ.bufs σ.heap =
        (.rc rc, update σ.bufs i b', h') := by simp only [Op.exec, heq]
    obtain ⟨l', F', -, -, hspec⟩ := F.fam.exec hexec
    have hfront : ∀ r rs, σ.cutter.block ≠ NULL → (σ.bufs i).refs = r :: rs →
        ∃ rs', (update σ.bufs i b' i).refs = r :: rs' := by
      intro r rs hne hrefs
      have hf := append_front data (h := σ.heap) hwf.weaken hrefs ?_
      · rwa [heq, ← update_self i b' σ.bufs] at hf
      rintro hrs bs rfl hbs ⟨hblk, hstop⟩
      obtain ⟨hnum, hfr⟩ := hone hrefs hrs
      apply hok hne hnum
      cases bs with
      | nil => exact absurd rfl hbs
      | cons c cs =>
        rw [hfr, hblk, hstop]
        rfl
    cases data with
    | none =>
      obtain ⟨-, hs⟩ := hspec rfl
      have hi : contents h' (update σ.bufs i b') i = contents σ.heap σ.bufs i ++ [] := by
        rw [hs, append_nil]
      obtain ⟨F1, hv⟩ := F.appended F' hi hfront
      refine ⟨l', ?_⟩
      simp only [CutStep.exec, CutState.onBufs, hexec]
      exact ⟨F1, hv⟩
    | some bs =>
      obtain ⟨F1, hv⟩ := F.appendedRc hexec F' (hspec rfl) hfront
      refine ⟨l', F1, ?_⟩
      simp only [CutStep.added, hexec]
      exact hv
  | pushBack c =>
    rcases heq : (σ.bufs i).pushBack c σ.heap with ⟨rc, b', h'⟩
    have hexec : (Op.pushBack i c).exec σ.bufs σ.heap =
        (.rc rc, update σ.bufs i b', h') := by simp only [Op.exec, heq]
    obtain ⟨l', F', -, -, hspec⟩ := F.fam.exec hexec
    have hfront : ∀ r rs, σ.cutter.block ≠ NULL → (σ.bufs i).refs = r :: rs →
        ∃ rs', (update σ.bufs i b' i).refs = r :: rs' := by
      intro r rs hne hrefs
      have hf := pushBack_front (c := c) (h := σ.heap) hwf.weaken hrefs ?_
      · rwa [heq, ← update_self i b' σ.bufs] at hf
      rintro hrs ⟨hblk, hstop⟩
      obtain ⟨hnum, hfr⟩ := hone hrefs hrs
      apply hok hne hnum
      rw [hfr, hblk, hstop]
      rfl
    obtain ⟨F1, hv⟩ := F.appendedRc hexec F' (hspec rfl) hfront
    refine ⟨l', F1, ?_⟩
    simp only [CutStep.added, hexec]
    exact hv
  | appendBuf other hne =>
    rcases heq : (σ.bufs i).appendBuf (σ.bufs other) σ.heap with ⟨b', h'⟩
    have hexec : (Op.appendBuf i other hne).exec σ.bufs σ.heap =
        (.void, update σ.bufs i b', h') := by simp only [Op.exec, heq]
    obtain ⟨l', F', -, -, hspec⟩ := F.fam.exec hexec
    obtain ⟨-, hs⟩ := hspec rfl
    have hi : contents h' (update σ.bufs i b') i =
        contents σ.heap σ.bufs i ++ contents σ.heap σ.bufs other := by
      rw [hs, update_self]
    have hfront := F.appendedRefs other false (h := σ.heap) hok
    rw [← IOBuf.appendBuf, heq] at hfront
    obtain ⟨F1, hv⟩ := F.appended F' hi (by rwa [update_self])
    refine ⟨l', ?_⟩
    simp only [CutStep.exec, CutState.onBufs, hexec]
    exact ⟨F1, hv⟩
  | appendMovable other hne =>
    rcases heq : (σ.bufs i).appendMovable (σ.bufs other) σ.heap with ⟨b', o, h'⟩
    have hexec : (Op.appendMovable i other hne).exec σ.bufs σ.heap =
        (.void, update (update σ.bufs i b') other o, h') := by
      simp only [Op.exec, heq]
    obtain ⟨l', F', -, -, hspec⟩ := F.fam.exec hexec
    obtain ⟨-, hs⟩ := hspec rfl
    have hi : contents h' (update (update σ.bufs i b') other o) i =
        contents σ.heap σ.bufs i ++ contents σ.heap σ.bufs other := by
      rw [hs, update_of_ne hne, update_self]
    have hfront := F.appendedRefs other true (h := σ.heap) hok
    obtain ⟨F1, hv⟩ := F.appended F' hi (by
      intro r rs hload hrefs
      rw [update_of_ne hne, update_self]
      -- A loaded reference means that the buffer is not empty.
      have hempty : ¬ (σ.bufs i).empty = true := by
        rw [empty_iff hwf, hrefs]
        simp
      unfold IOBuf.appendMovable at heq
      rw [if_neg hempty] at heq
      simp only [Prod.mk.injEq] at heq
      rw [← heq.1]
      exact hfront r rs hload hrefs)
    refine ⟨l', ?_⟩
    simp only [CutStep.exec, CutState.onBufs, hexec]
    exact ⟨F1, hv⟩

/-- `rest` is what the cutter will still give. -/
def CutState.Obtainable (σ : CutState ι) (i : ι) (rest : List Byte) : Prop :=
  ∀ n, (σ.cutter.cutnRaw n (σ.bufs i) σ.heap).2.1 = rest.take n

end Interleaving

section AppendRuns

variable {ι κ : Type} [DecidableEq ι] [DecidableEq κ] [Fintype ι] [Fintype κ]

/-- What was cut followed by what the cutter will still give is what was there
followed by what was appended, and `remaining_bytes()` counts the rest. -/
def CutStep.Kept {i : ι} (sts : List (CutStep ι i)) (σ : CutState ι) : Prop :=
  ∃ rest, (run sts σ).2.1 ++ rest = contents σ.heap σ.bufs i ++ (run sts σ).2.2 ∧
    (run sts σ).1.Obtainable i rest ∧
    (run sts σ).1.cutter.remainingBytes ((run sts σ).1.bufs i) = rest.length

end AppendRuns

end Eabase.IOBuf
