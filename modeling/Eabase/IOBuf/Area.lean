import Eabase.IOBuf.Wide

/-!
# A reserved area is found again

Between `reserve` and `unsafe_assign` anything may happen to the other buffers, and
anything may be appended to this one and taken off its back, as long as the
reserved bytes stay. Their place is given by a number of a reference and an offset,
so what has to be kept is the place in the sequence of references
(`Lib.PlaceAt`), and that the memory there is the reserved one.

The buffers count without bounds here. A run does what the code does as long as it
stays in 32 bits (`World.RunFits`): then every buffer is read as the view that it
was written as, and `length()` is the number of its bytes.
-/

namespace Eabase.IOBuf

open Lib Function List

/-! ## Actions -/

inductive AreaAction (ι κ : Type) : Type where
  | act (a : Action ι κ)
  | appendUserData (i : ι) (data : List Byte)
  | appendSelf (i : ι)
  | reserve (i : ι) (count : ℕ)
  | unsafeAssign (i : ι) (area : Area) (data : Option (List Byte))

variable {ι κ : Type} [DecidableEq ι] [DecidableEq κ]

/-- The operation leaves buffer `i` alone, appends to it or takes bytes off its back. -/
def Op.AtBack (i : ι) : Op ι → Bool
  | .append _ _ | .appendBuf _ _ _ | .pushBack _ _ | .resize _ _ _ | .popBack _ _ | .appendTo _ _ _
      _ _ => true
  | .appendMovable _ other _ => decide (other ≠ i)
  | .cutn j _ _ _ => decide (j ≠ i)
  | op => decide (i ∉ op.targets)

def AreaAction.AtBack (i : ι) : AreaAction ι κ → Bool
  | .act (.buf op) => op.AtBack i
  | .act (.clear j) | .act (.appenderSwap _ j) | .act (.appenderMoveTo _ j) => decide (j ≠ i)
  | _ => true

/-- The operation gives buffers whole views, and appends no reference to one. -/
def Op.installs (bufs : ι → IOBuf) : Op ι → Bool
  | .copyNew _ _ _ | .moveNew _ _ _ | .assign _ _ | .assignMovable _ _ _ | .swap _ _ => true
  | .appendMovable i _ _ => (bufs i).empty
  | _ => false

def AreaAction.installs (W : World ι κ) : AreaAction ι κ → Bool
  | .act (.buf op) => op.installs W.bufs
  | .act (.appenderSwap _ _) | .act (.appenderMoveTo _ _) => true
  | _ => false

/-- The buffer whose references the operation appends to buffer `i`. -/
def Op.appendsFrom (i : ι) : Op ι → Option ι
  | .appendBuf j other _ | .appendMovable j other _ => if j = i then some other else none
  | .appendTo j buf _ _ _ => if buf = i then some j else none
  | .cutn j out _ _ => if out = i then some j else none
  | _ => none

def AreaAction.appendsFrom (i : ι) : AreaAction ι κ → Option ι
  | .act (.buf op) => op.appendsFrom i
  | .appendSelf j => if j = i then some j else none
  | _ => none

namespace World

def stepArea (W : World ι κ) : AreaAction ι κ → World ι κ
  | .act a => W.step a
  | .appendUserData i data => W.onPortal i fun P h =>
      let (_, b, h') := IOBuf.appendUserData data P.buf h
      ({ P with buf := b }, h')
  | .appendSelf i => W.onPortal i fun P h =>
      match P.buf.appendSelf h with
      | some (b, h') => ({ P with buf := b }, h')
      -- The code has no meaning here: no step of a run, and no run that fits has it.
      | none => (P, h)
  | .reserve i count => W.onPortal i fun P h =>
      let (_, b, h') := P.buf.reserve count h
      ({ P with buf := b }, h')
  | .unsafeAssign i area data => { W with heap := ((W.portal i).buf.unsafeAssign area data W.heap).2 }

def runArea (W : World ι κ) (acts : List (AreaAction ι κ)) : World ι κ := acts.foldl stepArea W

/-- What is taken off the front can be taken off, and the array of a buffer that is appended to
itself stays. -/
def TakesFit (W : World ι κ) : AreaAction ι κ → Prop
  | .act (.buf (.popFront i n)) =>
      n < sumLen (W.portal i).buf.refs → IOBuf32.DropFits n (W.portal i).buf.refs
  | .act (.buf (.cutn i _ _ n)) | .act (.buf (.cutnRaw i n)) =>
      IOBuf32.DropFits (min n (sumLen (W.portal i).buf.refs)) (W.portal i).buf.refs
  | .appendSelf i => ((W.portal i).buf.appendSelf W.heap).isSome = true
  | _ => True

/-- Every buffer fits, those of the appenders too. -/
def Fits (W : World ι κ) : Prop := ∀ x, IOBuf32.Fits (W.bufOf x).refs

instance [Fintype ι] [Fintype κ] (W : World ι κ) : Decidable W.Fits :=
  inferInstanceAs (Decidable (∀ _, _))

/-- The action stays in 32 bits. -/
structure StepFits (W : World ι κ) (a : AreaAction ι κ) : Prop where
  takes : W.TakesFit a
  grows : a.installs W = false → ∀ x, IOBuf32.GrowsFit (W.bufOf x).refs ((W.stepArea a).bufOf x).refs
  after : (W.stepArea a).Fits

/-- Every action of the run stays in 32 bits. -/
def RunFits (W : World ι κ) (acts : List (AreaAction ι κ)) : Prop := Along stepArea StepFits W acts

/-- Every action is at the back of buffer `i`, and leaves it `len` bytes at least. -/
def KeepsReserved (i : ι) (len : ℕ) : World ι κ → List (AreaAction ι κ) → Prop
  | _, [] => True
  | W, a :: as => a.AtBack i = true ∧ len ≤ ((W.stepArea a).portal i).buf.length ∧
      KeepsReserved i len (W.stepArea a) as

/-- Nothing is appended to buffer `i` from a buffer that refers to one of the cells `cs`. -/
def AppendsNone (i : ι) (cs : List Cell) : World ι κ → List (AreaAction ι κ) → Prop
  | _, [] => True
  | W, a :: as =>
      (∀ j ∈ a.appendsFrom i, ∀ c ∈ cells (W.portal j).buf.refs, c ∉ cs) ∧
        AppendsNone i cs (W.stepArea a) as

/-- The cells of buffer `i` from the byte `old` on. -/
def cellsFrom (W : World ι κ) (i : ι) (old : ℕ) : List Cell := (cells (W.portal i).buf.refs).drop old

end World

/-! ## What an action does to the references -/

/-- The references of a buffer grow by cells with the property `A`, or they shrink. -/
def Follows (A : Cell → Prop) (rs rs' : List BlockRef) : Prop :=
  GrowsBy A (pieces rs) (pieces rs') ∨ Shrinks (pieces rs) (pieces rs')

section

variable {W : World ι κ} {i j : ι} {bufs : ι → IOBuf} {h : Heap} {l : List Ptr}
  {c : ι → List Ptr} {S : Ptr → Option ℕ} {op : Op ι} {A : Cell → Prop}

theorem Follows.refl (rs : List BlockRef) : Follows A rs rs := .inl .refl

theorem Op.exec_of_notMem (hi : i ∉ op.targets) : (op.exec bufs h).2.1 i = bufs i := by
  cases op with
  | assign j rhs =>
    simp only [Op.exec]
    split
    · rfl
    · exact update_of_ne (by simpa [Op.targets] using hi) _ _
  | copyNew j _ _ | append j _ | appendBuf j _ _ | pushBack j _ | resize j _ _ | appendTo _ j _ _ _ | popFront j _
    | popBack j _ | cut1 j | cutnRaw j _ | clear j =>
    have hne : i ≠ j := by simpa [Op.targets] using hi
    exact update_of_ne hne _ _
  | moveNew j k _ | assignMovable j k _ | swap j k | appendMovable j k _ | cutn j k _ _ =>
    have hne : i ≠ j ∧ i ≠ k := by simpa [Op.targets] using hi
    exact (update_of_ne hne.2 _ _).trans (update_of_ne hne.1 _ _)

/-- An operation at the back of buffer `i`: new cells are new memory, or cells of the buffer that is
appended. -/
theorem Op.exec_follows (hwf : ∀ j, (bufs j).WF false) {Y : Multiset BlockRef} {K : Multiset Ptr}
    (R : Rep false h l (bufs i) Y K S) (hop : op.AtBack i = true) (hpos : 0 < sumLen (bufs i).refs) :
    Follows (fun x => x ∉ cells (bufs i).refs ∨ ∃ j ∈ op.appendsFrom i, x ∈ cells (bufs j).refs)
    (bufs i).refs
      ((op.exec bufs h).2.1 i).refs := by
  by_cases hi : i ∈ op.targets
  swap
  · rw [Op.exec_of_notMem hi]
    exact .refl _
  have hfresh : ∀ {b' : IOBuf}, GrowsBy (· ∉ cells (bufs i).refs) (pieces (bufs i).refs)
      (pieces b'.refs) →
      Follows (fun x => x ∉ cells (bufs i).refs ∨ ∃ j ∈ op.appendsFrom i, x ∈ cells (bufs j).refs)
        (bufs i).refs
        b'.refs := fun hg => .inl (hg.mono fun _ hx => .inl hx)
  have hshared : ∀ {b' : IOBuf} {j : ι}, op.appendsFrom i = some j →
      GrowsBy (· ∈ cells (bufs j).refs) (pieces (bufs i).refs) (pieces b'.refs) →
      Follows (fun x => x ∉ cells (bufs i).refs ∨ ∃ j ∈ op.appendsFrom i, x ∈ cells (bufs j).refs)
        (bufs i).refs
        b'.refs := fun hj hg => .inl (hg.mono fun _ hx => .inr ⟨_, hj, hx⟩)
  cases op with
  | append j data =>
    obtain rfl : i = j := mem_singleton.1 hi
    apply hfresh
    simp only [Op.exec, update_self]
    exact R.append_growsBy
  | pushBack j ch =>
    obtain rfl : i = j := mem_singleton.1 hi
    apply hfresh
    simp only [Op.exec, update_self]
    exact R.pushBack_growsBy
  | resize j n ch =>
    obtain rfl : i = j := mem_singleton.1 hi
    simp only [Op.exec, update_self]
    rcases R.resize_follows n ch with hg | hs
    · exact hfresh hg
    · exact .inr hs
  | popBack j n =>
    obtain rfl : i = j := mem_singleton.1 hi
    simp only [Op.exec, update_self]
    exact .inr (popBack_shrinks R.wf)
  | appendBuf j other hne =>
    obtain rfl : i = j := mem_singleton.1 hi
    apply hshared (j := other) (if_pos rfl)
    simp only [Op.exec, update_self, IOBuf.appendBuf]
    rw [refList_eq (hwf other).view]
    exact pushRefs_growsBy R.wf (fun r hr => ⟨((hwf other).ref r hr).1, by simp⟩) fun _ hx => hx
  | appendTo j buf hne n p =>
    obtain rfl : i = buf := mem_singleton.1 hi
    apply hshared (j := j) (if_pos rfl)
    simp only [Op.exec, update_self]
    exact appendTo_growsBy R.wf (hwf j) fun _ hx => hx
  | cutn j out hne n =>
    have hj : j ≠ i := of_decide_eq_true hop
    obtain rfl : i = out := by simpa [Op.targets, hj.symm] using hi
    apply hshared (j := j) (if_pos rfl)
    simp only [Op.exec, update_self]
    exact cutn_growsBy (hwf j) R.wf fun _ hx => hx
  | appendMovable j other hne =>
    have hother : other ≠ i := of_decide_eq_true hop
    obtain rfl : i = j := by simpa [Op.targets, hother.symm] using hi
    apply hshared (j := other) (if_pos rfl)
    have hbytes : (bufs i).empty ≠ true := fun hempty => by
      rw [sumLen_of_empty R.wf.view hempty] at hpos
      exact absurd hpos (lt_irrefl 0)
    simp only [Op.exec, IOBuf.appendMovable, if_neg hbytes, update_of_ne hne, update_self]
    rw [refList_eq (hwf other).view]
    exact pushRefs_growsBy R.wf (fun r hr => ⟨((hwf other).ref r hr).1, by simp⟩) fun _ hx => hx
  | copyNew _ _ _ | moveNew _ _ _ | assign _ _ | assignMovable _ _ _ | swap _ _ | popFront _ _ | cut1 _ | cutnRaw _ _
    | clear _ => exact absurd hi (of_decide_eq_true hop)

omit [DecidableEq κ] in
theorem World.onPortal_buf (W : World ι κ) (i : ι) (f : IOPortal → Heap → IOPortal × Heap) :
    ((W.onPortal i f).portal i).buf = (f (W.portal i) W.heap).1.buf := by
  simp only [World.onPortal, update_self]

omit [DecidableEq κ] in
theorem World.onPortal_buf_of_ne (W : World ι κ) (f : IOPortal → Heap → IOPortal × Heap) (hij : i ≠ j) :
    ((W.onPortal j f).portal i).buf = (W.portal i).buf := by
  simp only [World.onPortal, update_of_ne hij]

theorem returnCachedBlocks_buf (P : IOPortal) (h : Heap) : (P.returnCachedBlocks h).1.buf = P.buf := by
  unfold IOPortal.returnCachedBlocks
  split <;> rfl

omit [DecidableEq κ] in
theorem World.onPortal_follows {f : IOPortal → Heap → IOPortal × Heap}
    (hf : j = i → Follows A (W.portal i).buf.refs (f (W.portal i) W.heap).1.buf.refs) :
    Follows A (W.portal i).buf.refs ((W.onPortal j f).portal i).buf.refs := by
  obtain rfl | hij := eq_or_ne i j
  · rw [W.onPortal_buf]
    exact hf rfl
  · rw [W.onPortal_buf_of_ne f hij]
    exact .refl _

variable [Fintype ι] [Fintype κ]

/-- **One action at the back of buffer `i`.** -/
theorem WInv.stepArea_follows (F : WInv W l c S) {a : AreaAction ι κ} (ha : a.AtBack i = true)
    (hpos : 0 < sumLen (W.portal i).buf.refs) :
    Follows (fun x => x ∉ cells (W.portal i).buf.refs ∨ ∃ j ∈ a.appendsFrom i,
      x ∈ cells (W.portal j).buf.refs)
      (W.portal i).buf.refs ((W.stepArea a).portal i).buf.refs := by
  have R := (F.focusPortal i).rep
  have hret : ∀ j, ((W.onPortal j IOPortal.returnCachedBlocks).portal i).buf = (W.portal i).buf := by
    intro j
    obtain rfl | hij := eq_or_ne i j
    · rw [W.onPortal_buf, returnCachedBlocks_buf]
    · exact W.onPortal_buf_of_ne _ hij
  cases a with
  | appendUserData j data =>
    simp only [World.stepArea]
    apply World.onPortal_follows
    rintro rfl
    obtain ⟨-, -, hg⟩ := R.appendUserData data rfl
    exact .inl (hg.mono fun _ hx => .inl hx)
  | appendSelf j =>
    simp only [World.stepArea]
    apply World.onPortal_follows
    rintro rfl
    split
    next heq =>
      obtain ⟨-, -, hg⟩ := R.appendSelf heq
      exact .inl (hg.mono fun _ hx => .inr ⟨j, if_pos rfl, hx⟩)
    · exact .refl _
  | reserve j count =>
    simp only [World.stepArea]
    apply World.onPortal_follows
    rintro rfl
    obtain ⟨-, -, -, hg, -⟩ := Rep.reserveLoop count R (Nat.sub_le _ _) rfl
    exact .inl (hg.mono fun _ hx => .inl hx)
  | unsafeAssign j area data => exact .refl _
  | act a =>
    cases a with
    | buf op =>
      simp only [World.stepArea, World.step]
      split
      next j hj =>
        have hi : i ∉ op.targets := by
          cases op <;> first | exact of_decide_eq_true ha | cases hj
        have hsame : (((W.onPortal j IOPortal.returnCachedBlocks).onBufs op).portal i).buf
            = ((W.onPortal j IOPortal.returnCachedBlocks).portal i).buf := Op.exec_of_notMem hi
        rw [hsame, hret]
        exact .refl _
      · exact Op.exec_follows (fun j => (F.portal j).wf) R ha hpos
    | appendv j vec =>
      simp only [World.stepArea, World.step]
      apply World.onPortal_follows
      rintro rfl
      exact .inl ((R.appendvLoop_growsBy fun _ hx => hx).mono fun _ hx => .inl hx)
    | appendFromReader j reader maxCount =>
      simp only [World.stepArea, World.step]
      apply World.onPortal_follows
      rintro rfl
      exact .inl ((F.focusPortal j).appendFromReader_growsBy.mono fun _ hx => .inl hx)
    | returnCachedBlocks j =>
      simp only [World.stepArea, World.step]
      rw [hret]
      exact .refl _
    | clear j =>
      simp only [World.stepArea, World.step]
      rw [W.onPortal_buf_of_ne _ (of_decide_eq_true ha).symm]
      exact .refl _
    | appenderAppend _ _ | appenderPushBack _ _ | appenderBuf _ => exact .refl _
    | appenderSwap a j =>
      have hij : i ≠ j := (of_decide_eq_true ha).symm
      simp only [World.stepArea, World.step, World.swapBuf, update_of_ne hij]
      exact .refl _
    | appenderMoveTo a j =>
      have hij : i ≠ j := (of_decide_eq_true ha).symm
      simp only [World.stepArea, World.step, update_of_ne hij]
      exact .refl _

/-! ## The invariant of the world -/

theorem WInv.onBuffer (F : WInv W l c S) {g : IOBuf → Heap → IOBuf × Heap}
    (hg : ∀ {K : Multiset Ptr}, Rep false W.heap l (W.portal i).buf (W.otherRefs (.inl i)) K S →
      ∃ l', Rep false (g (W.portal i).buf W.heap).2 l' (g (W.portal i).buf W.heap).1
      (W.otherRefs (.inl i)) K S ∧
        Frame W.heap (g (W.portal i).buf W.heap).2 (W.otherRefs (.inl i)) K) :
    ∃ l' c' S', WInv (W.onPortal i fun P h => ({ P with buf := (g P.buf h).1 }, (g P.buf h).2)) l'
    c' S' := by
  have R := F.focusPortal i
  obtain ⟨l', R', hf⟩ := hg R.rep
  have hc : ∀ p ∈ c i, p ∈ (c i : Multiset Ptr) + W.otherHeld c (.inl i) := fun p hp => PRep.mem_held hp
  obtain ⟨F', -⟩ := F.stepPortal
    (R.congr R' (fun p hp => hf.size p (hc p hp)) (fun p hp => hf.cap p (hc p hp)) fun p hp =>
      hf.next p (hc p hp))
    (hf.monoHeld fun p hp => Multiset.mem_add.2 (.inr hp))
  exact ⟨l', _, S, F'⟩

def Heap.withData (h : Heap) (d : Ptr → ℕ → Byte) : Heap :=
  { h with blk := fun p => { h.blk p with data := d p } }

theorem Heap.write_eq_withData (h : Heap) (p : Ptr) (off : ℕ) (bs : List Byte) :
    ∃ d, h.write p off bs = h.withData d := by
  refine ⟨fun q => ((h.write p off bs).blk q).data, ?_⟩
  have hblk : (h.write p off bs).blk = (h.withData fun q => ((h.write p off bs).blk q).data).blk :=
    funext fun q => Heap.write_blk h p q off bs
  rw [Heap.withData, Heap.write, Heap.setBlk] at *
  exact congrArg (fun blk => ({ h with blk := blk } : Heap)) hblk

theorem assignLoop_withData : ∀ (rs : List BlockRef) (refOffset length : ℕ) (data : List Byte) (h : Heap),
    ∃ d, (assignLoop rs refOffset length data h).2 = h.withData d
  | [], _, _, _, h => ⟨fun p => (h.blk p).data, rfl⟩
  | r :: rs, refOffset, length, data, h => by
    unfold assignLoop
    obtain ⟨d, hd⟩ := h.write_eq_withData r.block (r.offset + refOffset)
      (data.take (min length (r.length - refOffset)))
    simp only
    split
    · exact ⟨d, hd⟩
    · obtain ⟨d', hd'⟩ := assignLoop_withData rs 0 (length - min length (r.length - refOffset))
        (data.drop (min length (r.length - refOffset)))
        (h.write r.block (r.offset + refOffset) (data.take (min length (r.length - refOffset))))
      rw [hd', hd]
      exact ⟨d', rfl⟩

omit [DecidableEq ι] [DecidableEq κ] in
theorem WInv.withData (F : WInv W l c S) (d : Ptr → ℕ → Byte) : WInv { W with heap := W.heap.withData d } l c S where
  inv := ⟨F.inv.chain, F.inv.num, F.inv.nodup, F.inv.count, F.inv.brk, F.inv.live, F.inv.bound,
    F.inv.held⟩
  portal j := ⟨(F.portal j).wf, (F.portal j).chain, (F.portal j).room, (F.portal j).free⟩
  app a := ⟨(F.app a).tls, (F.app a).wf, (F.app a).le, (F.app a).busy, (F.app a).idle⟩
  lim := F.lim

theorem WInv.stepArea (F : WInv W l c S) (a : AreaAction ι κ) : ∃ l' c' S',
    WInv (W.stepArea a) l' c' S' := by
  cases a with
  | act a =>
    obtain ⟨l', c', S', F', -⟩ := F.step a
    exact ⟨l', c', S', F'⟩
  | appendUserData i data =>
    exact F.onBuffer (g := fun b h => (IOBuf.appendUserData data b h).2) fun R =>
      ⟨l, (R.appendUserData data rfl).1, (R.appendUserData data rfl).2.1⟩
  | appendSelf i =>
    cases heq : (W.portal i).buf.appendSelf W.heap with
    | some out =>
      obtain ⟨l', c', S', F'⟩ := F.onBuffer (i := i) (g := fun _ _ => out) fun R =>
        ⟨l, (R.appendSelf heq).1, (R.appendSelf heq).2.1⟩
      refine ⟨l', c', S', ?_⟩
      simp only [World.stepArea, World.onPortal, heq]
      exact F'
    | none =>
      refine ⟨l, c, S, ?_⟩
      simp only [World.stepArea, World.onPortal, heq, update_eq_self]
      exact F
  | reserve i count =>
    apply F.onBuffer (g := fun b h => (b.reserve count h).2)
    intro K R
    obtain ⟨l', R', hf, -, -⟩ := Rep.reserveLoop count R (Nat.sub_le _ _) rfl
    exact ⟨l', R', hf⟩
  | unsafeAssign i area data =>
    simp only [World.stepArea, IOBuf.unsafeAssign]
    cases data with
    | none => exact ⟨l, c, S, F⟩
    | some bs =>
      simp only
      split
      · exact ⟨l, c, S, F⟩
      · obtain ⟨d, hd⟩ := assignLoop_withData ((W.portal i).buf.refList.drop (getAreaRefIndex area))
          (getAreaRefOffset area) (getAreaSize area) bs W.heap
        rw [hd]
        exact ⟨l, c, S, F.withData d⟩

theorem WInv.runArea {acts : List (AreaAction ι κ)} (F : WInv W l c S) :
    ∃ l' c' S', WInv (W.runArea acts) l' c' S' := by
  induction acts generalizing W l c S with
  | nil => exact ⟨l, c, S, F⟩
  | cons a acts ih =>
    obtain ⟨l', c', S', F'⟩ := F.stepArea a
    exact ih F'

/-! ## In 32 bits -/

omit [Fintype ι] [Fintype κ] in
omit [DecidableEq ι] [DecidableEq κ] in
theorem World.init_fits (mem : Ptr → ℕ → Byte) (oom : Ptr → Bool) :
    (World.init mem oom : World ι κ).Fits := by
  rintro (i | a)
  · exact IOBuf32.fits_nil
  · exact IOBuf32.fits_nil

omit [Fintype ι] [Fintype κ] in
theorem World.RunFits.fits {acts : List (AreaAction ι κ)} (H : W.RunFits acts) (hfits : W.Fits) :
    (W.runArea acts).Fits :=
  Along.run H (fun _ _ _ hstep => hstep.after) hfits

omit [DecidableEq ι] [DecidableEq κ] in
/-- A buffer that fits is read as what it was written as, and `length()` is the number of its
bytes. -/
theorem WInv.reads (F : WInv W l c S) (hfits : W.Fits) (i : ι) :
    IOBuf32.read (W.portal i).buf = some (W.portal i).buf ∧
      IOBuf32.length (W.portal i).buf = (W.heap.content (W.portal i).buf.refs).length := by
  have hview := (F.portal i).wf.view
  refine ⟨IOBuf32.read_eq hview (hfits (.inl i)).1, ?_⟩
  rw [IOBuf32.length_eq hview (hfits (.inl i)).2, Heap.content_length]

/-! ## The reserved bytes -/

/-- Buffer `i` begins with the cells `kept`, of which the last are reserved, and the area is their
place. -/
structure Holds (W : World ι κ) (i : ι) (kept : List Cell) (old : ℕ) (area : Area) : Prop where
  kept : kept <+: cells (W.portal i).buf.refs
  place : PlaceAt (pieces (W.portal i).buf.refs) (getAreaRefIndex area) (getAreaRefOffset area) old

variable {kept : List Cell} {old : ℕ} {area : Area} {a : AreaAction ι κ} {later : List (AreaAction ι κ)}

section

variable (H : Holds W i kept old area)
include H

section

variable (F : WInv W l c S) (hold : old < kept.length)
include F hold

theorem Holds.step (ha : a.AtBack i = true)
    (hlen : kept.length ≤ ((W.stepArea a).portal i).buf.length) :
    Holds (W.stepArea a) i kept old area := by
  have hpos : 0 < sumLen (W.portal i).buf.refs := by
    rw [← length_cells]
    exact (Nat.zero_le _).trans_lt (hold.trans_le H.kept.length_le)
  obtain ⟨l', c', S', F'⟩ := F.stepArea a
  rw [length_eq (F'.portal i).wf.view, ← length_cells] at hlen
  rcases F.stepArea_follows ha hpos with hg | hs
  · obtain ⟨new, hnew, -⟩ := hg.flatten
    refine ⟨?_, H.place.growsBy hg⟩
    rw [cells, hnew]
    exact H.kept.trans (prefix_append _ _)
  · refine ⟨prefix_of_prefix_length_le H.kept hs.flatten hlen, H.place.shrinks hs ?_⟩
    exact hold.trans_le hlen

theorem Holds.step_apart
    (ha : a.AtBack i = true) (hsource : ∀ j ∈ a.appendsFrom i, ∀ x ∈ cells (W.portal j).buf.refs,
      x ∉ kept.drop old)
    (hapart : ∀ x ∈ (cells (W.portal i).buf.refs).drop kept.length, x ∉ kept.drop old) :
    ∀ x ∈ (cells ((W.stepArea a).portal i).buf.refs).drop kept.length, x ∉ kept.drop old := by
  have hpos : 0 < sumLen (W.portal i).buf.refs := by
    rw [← length_cells]
    exact (Nat.zero_le _).trans_lt (hold.trans_le H.kept.length_le)
  rcases F.stepArea_follows ha hpos with hg | hs
  · obtain ⟨new, hnew, hA⟩ := hg.flatten
    have hcat : cells ((W.stepArea a).portal i).buf.refs = cells (W.portal i).buf.refs ++ new := hnew
    intro x hx
    rw [hcat, drop_append_of_le_length H.kept.length_le] at hx
    rcases mem_append.1 hx with hx | hx
    · exact hapart x hx
    · rcases hA x hx with hfresh | ⟨j, hj, hmem⟩
      · exact fun hres => hfresh (H.kept.subset (mem_of_mem_drop hres))
      · exact hsource j hj x hmem
  · obtain ⟨rest, hrest⟩ := hs.flatten
    intro x hx
    apply hapart x
    have hcat : cells ((W.stepArea a).portal i).buf.refs ++ rest = cells (W.portal i).buf.refs := hrest
    rw [← hcat]
    exact (List.Sublist.drop (sublist_append_left _ _) _).subset hx

theorem Holds.run (hlater : W.KeepsReserved i kept.length later) :
    Holds (W.runArea later) i kept old area ∧
      ((∀ x ∈ (cells (W.portal i).buf.refs).drop kept.length, x ∉ kept.drop old) →
        W.AppendsNone i (kept.drop old) later →
        ∀ x ∈ (cells ((W.runArea later).portal i).buf.refs).drop kept.length, x ∉ kept.drop old) := by
  induction later generalizing W l c S with
  | nil => exact ⟨H, fun hapart _ => hapart⟩
  | cons a later ih =>
    obtain ⟨ha, hlen, hrest⟩ := hlater
    obtain ⟨l', c', S', F'⟩ := F.stepArea a
    obtain ⟨H', hrun⟩ := ih (H.step F hold ha hlen) F' hrest
    refine ⟨H', ?_⟩
    rintro hapart ⟨hsource, hnone⟩
    exact hrun (H.step_apart F hold ha hsource hapart) hnone

end

end

omit [Fintype ι] [Fintype κ] in
omit [DecidableEq ι] [DecidableEq κ] in
theorem Holds.assign (H : Holds W i kept old area) (hwf : (W.portal i).buf.WF false)
    (hold : old < kept.length)
    (harea : area ≠ INVALID_AREA) (hsize : getAreaSize area = kept.length - old)
    (hnodup : (kept.drop old).Nodup)
    {data : List Byte} (hdata : getAreaSize area ≤ data.length) :
    ((W.portal i).buf.unsafeAssign area (some data) W.heap).1 = 0 ∧
      Stores W.heap ((W.portal i).buf.unsafeAssign area (some data) W.heap).2 (kept.drop old)
        (data.take (getAreaSize area)) := by
  obtain ⟨rest, hrest⟩ := H.kept
  have hdrop : (cells ((W.portal i).buf.refs.drop (getAreaRefIndex area))).drop (getAreaRefOffset area)
      = kept.drop old ++ rest := by
    have hplace := H.place.drop
    rw [show (pieces (W.portal i).buf.refs).drop (getAreaRefIndex area)
      = pieces ((W.portal i).buf.refs.drop (getAreaRefIndex area)) from map_drop.symm] at hplace
    rw [← drop_append_of_le_length (le_of_lt hold), hrest]
    exact hplace
  have hlen : (kept.drop old).length = getAreaSize area := by rw [length_drop, hsize]
  have htake :
      ((cells ((W.portal i).buf.refs.drop (getAreaRefIndex area))).drop
      (getAreaRefOffset area)).take
      (getAreaSize area) = kept.drop old := by
    rw [hdrop, ← hlen, take_left]
  have hhead : ∀ r ∈ ((W.portal i).buf.refs.drop (getAreaRefIndex area)).head?,
      getAreaRefOffset area ≤ r.length := by
    obtain ⟨front, x, back, hsplit, hidx, hoff, -⟩ := H.place
    intro r hr
    have hmap := congrArg (drop front.length) hsplit
    rw [drop_left, hidx, pieces, ← map_drop] at hmap
    obtain ⟨rs, hrs⟩ : ∃ rs, (W.portal i).buf.refs.drop (getAreaRefIndex area) = r :: rs :=
      head?_eq_some_iff.1 hr
    rw [hrs, map_cons] at hmap
    rw [← length_blockRef_cells, (cons.inj hmap).1]
    exact le_of_lt hoff
  simp only [unsafeAssign, if_neg harea]
  rw [refList_eq hwf.view, ← htake]
  apply assignLoop_stores _ _ _ _ _ hhead
  · lia
  · rw [hdrop, length_append, hlen]
    exact Nat.le_add_right _ _
  · exact hdata
  · rw [htake]
    exact hnodup

/-- **`unsafe_assign` writes to the reserved bytes.** Whatever happened to buffers, portals and
appenders before `n` bytes were reserved in a buffer and an area was returned, and whatever happened
afterwards to other buffers, or at the back of this one behind the reserved bytes, as long as it
stays in 32 bits: the buffer is read as the view that it was written as, `unsafe_assign` returns 0,
and the bytes in front of the reserved ones stay, the reserved ones are the data, and behind them
nothing changes either, unless reserved bytes were appended again. -/
theorem run_assigns (mem : Ptr → ℕ → Byte) (oom : Ptr → Bool) (acts later : List (AreaAction ι κ))
    (i : ι) (n : ℕ)
    (data : List Byte) (hpos : 1 ≤ n) (hn : n < 2 ^ 30) (hdata : n ≤ data.length) :
    let W := (World.init mem oom : World ι κ).runArea acts
    let old := (W.portal i).buf.length
    let area := ((W.portal i).buf.reserve n W.heap).1
    let W₁ := W.stepArea (.reserve i n)
    let W₂ := W₁.runArea later
    let W₃ := W₂.stepArea (.unsafeAssign i area (some data))
    (World.init mem oom : World ι κ).RunFits (acts ++ .reserve i n :: later) → area ≠ INVALID_AREA →
      W₁.KeepsReserved i (old + n) later →
      IOBuf32.read (W₂.portal i).buf = some (W₂.portal i).buf ∧
        ((W₂.portal i).buf.unsafeAssign area (some data) W₂.heap).1 = 0 ∧
        ∃ behind, W₃.content (.inl i) = (W₂.content (.inl i)).take old ++ data.take n ++ behind ∧
          behind.length = ((W₂.content (.inl i)).drop (old + n)).length ∧
          (W₁.AppendsNone i (W₁.cellsFrom i old) later →
            behind = (W₂.content (.inl i)).drop (old + n)) := by
  intro W old area W₁ W₂ W₃ hrun harea hlater
  obtain ⟨l, c, S, F⟩ : ∃ l c S, WInv W l c S :=
    (.init mem oom : WInv (.init mem oom : World ι κ) _ _ _).runArea
  obtain ⟨l₁, c₁, S₁, F₁⟩ : ∃ l c S, WInv W₁ l c S := F.stepArea (.reserve i n)
  have R := (F.focusPortal i).rep
  obtain ⟨b', h', hres⟩ : ∃ b' h', (W.portal i).buf.reserve n W.heap = (area, b', h') := ⟨_, _, rfl⟩
  have hbuf : (W₁.portal i).buf = b' := by
    show ((W.stepArea (.reserve i n)).portal i).buf = b'
    simp only [World.stepArea]
    rw [W.onPortal_buf]
    exact congrArg (fun x => x.2.1) hres
  obtain ⟨hplace, hsize⟩ := R.reserve_place hpos (hn.trans (by decide)) hres harea
  obtain ⟨-, -, -, -, -, hnew⟩ := Rep.reserveLoop n R (Nat.sub_le _ _) hres
  obtain ⟨new, hcells, hnewlen, hnodup, hfresh⟩ := hnew.resolve_left harea
  have hold : old = sumLen (W.portal i).buf.refs := length_eq R.wf.view
  have holdlen : (cells (W.portal i).buf.refs).length = old := by rw [length_cells, hold]
  -- What is kept are the cells after `reserve`: the old ones and the reserved ones.
  obtain ⟨kept, hkept⟩ : ∃ kept, kept = cells (W₁.portal i).buf.refs := ⟨_, rfl⟩
  have hsplit : kept = cells (W.portal i).buf.refs ++ new := by rw [hkept, hbuf, hcells]
  have hlen : kept.length = old + n := by rw [hsplit, length_append, holdlen, hnewlen, Nat.sub_zero]
  have hreserved : kept.drop old = new := by rw [hsplit, ← holdlen, drop_left]
  have hfrom : W₁.cellsFrom i old = kept.drop old := by rw [World.cellsFrom, hkept]
  have H₁ : Holds W₁ i kept old area := by
    refine ⟨?_, ?_⟩
    · rw [hkept]
    · rw [hbuf, hold]
      exact hplace
  rw [← hlen] at hlater
  obtain ⟨H₂, hapart⟩ := H₁.run F₁ (by lia) hlater
  obtain ⟨l₂, c₂, S₂, F₂⟩ : ∃ l c S, WInv W₂ l c S := F₁.runArea
  obtain ⟨hrc, hstores⟩ := H₂.assign (F₂.portal i).wf (by lia) harea
    (by rw [hsize, hlen, Nat.add_sub_cancel_left])
    (by rw [hreserved]; exact hnodup) (by rw [hsize]; exact hdata)
  rw [hsize, hreserved] at hstores
  have hfits : W₂.Fits := by
    have hwhole : W₂ = (World.init mem oom : World ι κ).runArea (acts ++ .reserve i n :: later) := by
      rw [World.runArea, foldl_append]
      rfl
    rw [hwhole]
    exact hrun.fits (World.init_fits mem oom)
  refine ⟨(F₂.reads hfits i).1, hrc, ?_⟩
  obtain ⟨rest, hrest⟩ := H₂.kept
  rw [hsplit] at hrest
  have hW₃ : W₃.content (.inl i) = (cells (W₂.portal i).buf.refs).map W₃.heap.peek :=
    Heap.content_eq_map_peek _ _
  have hW₂ : W₂.content (.inl i) = (cells (W₂.portal i).buf.refs).map W₂.heap.peek :=
    Heap.content_eq_map_peek _ _
  have hstores' : Stores W₂.heap W₃.heap new (data.take n) := hstores
  have hfront : (cells (W.portal i).buf.refs).map W₃.heap.peek
      = (cells (W.portal i).buf.refs).map W₂.heap.peek :=
    map_congr_left fun x hx => hstores'.other x fun hmem => hfresh x hmem hx
  have htake : (W₂.content (.inl i)).take old = (cells (W.portal i).buf.refs).map W₂.heap.peek := by
    rw [hW₂, ← hrest, append_assoc, map_append]
    exact take_left' (by rw [length_map, holdlen])
  have hdrop : (W₂.content (.inl i)).drop (old + n) = rest.map W₂.heap.peek := by
    rw [hW₂, ← hrest, map_append]
    exact drop_left' (by rw [length_map, ← hsplit, hlen])
  refine ⟨rest.map W₃.heap.peek, ?_, ?_, ?_⟩
  · rw [hW₃, ← hrest, map_append, map_append, hfront, hstores'.stored, htake]
  · rw [hdrop, length_map, length_map]
  · intro hnone
    rw [hdrop]
    apply map_congr_left
    intro x hx
    apply hstores'.other
    rw [← hreserved]
    rw [hfrom] at hnone
    apply hapart ?_ hnone
    · rw [← hrest, ← hsplit, drop_left]
      exact hx
    · intro y hy
      rw [hkept, drop_length] at hy
      exact absurd hy not_mem_nil

abbrev One : World Unit Empty := World.init (fun _ _ => 0) fun _ => false

/-- One byte is reserved between an old one and a new one, and assigned. -/
theorem run_assigns_one :
    let W := One.runArea [.act (.buf (.pushBack () 1))]
    let area := ((W.portal ()).buf.reserve 1 W.heap).1
    let W₂ := (W.stepArea (.reserve () 1)).runArea [.act (.buf (.pushBack () 2))]
    (W₂.stepArea (.unsafeAssign () area (some [7]))).content (.inl ()) = [1, 7, 2] := by
  intro W area W₂
  have hfits : One.RunFits
      [.act (.buf (.pushBack () 1)), .reserve () 1, .act (.buf (.pushBack () 2))] := by
    refine ⟨⟨trivial, ?_, ?_⟩, ⟨trivial, ?_, ?_⟩, ⟨trivial, ?_, ?_⟩, trivial⟩
    all_goals decide
  obtain ⟨-, -, behind, hcontent, -, hbehind⟩ :=
    run_assigns (ι := Unit) (κ := Empty) (fun _ _ => 0) (fun _ => false)
    [.act (.buf (.pushBack () 1))] [.act (.buf (.pushBack () 2))] () 1 [7] (by decide) (by decide)
      (by decide)
    hfits (by decide) ⟨rfl, by decide, trivial⟩
  have hnone : behind = (W₂.content (.inl ())).drop 2 := by
    apply hbehind
    refine ⟨?_, trivial⟩
    intro j hj
    cases hj
  refine hcontent.trans ?_
  rw [hnone]
  decide

/-- A reserved byte that is appended again: the buffer has it twice, and both are assigned. -/
theorem reserved_twice :
    let W₁ := One.stepArea (.reserve () 1)
    let W₂ := W₁.runArea [.appendSelf ()]
    let area := ((One.portal ()).buf.reserve 1 One.heap).1
    area ≠ INVALID_AREA ∧ W₁.KeepsReserved () 1 [.appendSelf ()] ∧ W₂.content (.inl ()) = [0, 0] ∧
      (W₂.stepArea (.unsafeAssign () area (some [7]))).content (.inl ()) = [7, 7] := by
  intro W₁ W₂ area
  refine ⟨?_, ⟨rfl, ?_, trivial⟩, ?_, ?_⟩
  all_goals decide

end

end Eabase.IOBuf
