import Eabase.IOBuf.Refine
import Eabase.IOBuf.Appender
import Mathlib.Algebra.BigOperators.Fin

/-!
# Block sharing never leaks writes

Buffers, portals and appenders of one thread over one heap. Every buffer is
an `IOPortal` here; an `IOBuf` is one that never reads from a reader, so that
its chain of cached blocks stays empty.

A caller gets hold of the buffer of an appender through `buf()`, which
shrinks it first. What he does with it is described by `appenderSwap`
(`a.buf().swap(b)`): swap it out, operate on it, swap it back. Keeping the
returned reference across a later `append` to the same appender is not part
of the interface.
-/

namespace Eabase.IOBuf

open Finset Function
open Multiset (mem_add mem_coe mem_sum nodup_add)

structure World (ι κ : Type) where
  heap : Heap
  portal : ι → IOPortal
  app : κ → IOBufAppender

inductive Action (ι κ : Type) : Type where
  | buf (op : Op ι)
  | appendv (i : ι) (vec : List (List Byte))
  | appendFromReader (i : ι) (reader : Reader) (maxCount : ℕ)
  | returnCachedBlocks (i : ι)
  | clear (i : ι)
  | appenderAppend (a : κ) (src : List Byte)
  | appenderPushBack (a : κ) (c : Byte)
  | appenderBuf (a : κ)
  | appenderSwap (a : κ) (i : ι)
  | appenderMoveTo (a : κ) (i : ι)

def Op.constructs {ι : Type} : Op ι → Option ι
  | copyNew i _ _ | moveNew i _ _ => some i
  | _ => none

namespace World

variable {ι κ : Type} [DecidableEq ι] [DecidableEq κ]

def init (mem : Ptr → ℕ → Byte) (oom : Ptr → Bool) : World ι κ :=
  ⟨Heap.init mem oom, fun _ => IOPortal.new, fun _ => IOBufAppender.new⟩

section

variable (W : World ι κ)

def bufs : ι → IOBuf := fun i => (W.portal i).buf

/-- Run a member function of portal `i`. -/
def onPortal (i : ι) (f : IOPortal → Heap → IOPortal × Heap) : World ι κ :=
  let (P, h) := f (W.portal i) W.heap
  { W with heap := h, portal := update W.portal i P }

/-- Run a member function of appender `a`. -/
def onApp (a : κ) (f : IOBufAppender → Heap → IOBufAppender × Heap) :
    World ι κ :=
  let (A, h) := f (W.app a) W.heap
  { W with heap := h, app := update W.app a A }

/-- Exchange the buffer of appender `a` with that of portal `i`. -/
def swapBuf (a : κ) (i : ι) : World ι κ :=
  { W with
    portal := update W.portal i { W.portal i with buf := (W.app a).buf }
    app := update W.app a { W.app a with buf := (W.portal i).buf } }

def onBufs (op : Op ι) : World ι κ :=
  let (_, bufs, h) := op.exec W.bufs W.heap
  { W with heap := h, portal := fun i => { W.portal i with buf := bufs i } }

def step : Action ι κ → World ι κ
  | .buf op =>
      -- `~IOPortal()` of the object that was there returns its blocks.
      match op.constructs with
      | some i => (W.onPortal i IOPortal.returnCachedBlocks).onBufs op
      | none => W.onBufs op
  | .appendv i vec => W.onPortal i fun P h =>
      let (_, b, h') := P.buf.appendv vec h
      ({ P with buf := b }, h')
  | .appendFromReader i reader maxCount => W.onPortal i fun P h =>
      (P.appendFromReader reader maxCount h).2
  | .returnCachedBlocks i => W.onPortal i IOPortal.returnCachedBlocks
  | .clear i => W.onPortal i IOPortal.clear
  | .appenderAppend a src => W.onApp a fun A h => (A.append src h).2
  | .appenderPushBack a c => W.onApp a fun A h => (A.pushBack c h).2
  | .appenderBuf a => W.onApp a IOBufAppender.shrink
  | .appenderSwap a i => (W.onApp a IOBufAppender.shrink).swapBuf a i
  | .appenderMoveTo a i =>
      let (A, t, h) := (W.app a).moveTo (W.portal i).buf W.heap
      { heap := h
        portal := update W.portal i { W.portal i with buf := t }
        app := update W.app a A }

def run (acts : List (Action ι κ)) : World ι κ := acts.foldl step W

end

end World

def Action.targets {ι κ : Type} : Action ι κ → List (ι ⊕ κ)
  | .buf op => op.targets.map .inl
  | .appendv i _ | .appendFromReader i _ _ | .returnCachedBlocks i | .clear i => [.inl i]
  | .appenderAppend a _ | .appenderPushBack a _ | .appenderBuf a => [.inr a]
  | .appenderSwap a i | .appenderMoveTo a i => [.inl i, .inr a]

/-! ## The invariant of the world -/

open IOBufAppender

structure PLoc (pos : Bool) (h : Heap) (P : IOPortal) (c : List Ptr) (S : Ptr → Option ℕ) :
    Prop where
  wf : P.buf.WF pos
  chain : Lib.Chain (fun p => (h.blk p).portalNext) NULL P.block c
  room : ∀ p ∈ c, (h.blk p).size < (h.blk p).cap
  free : ∀ p ∈ c, S p = none

section

variable {ι κ : Type}

def World.refs (W : World ι κ) : ι ⊕ κ → Multiset BlockRef
  | .inl i => (W.portal i).buf.refs
  | .inr a => (W.app a).refs

/-- The blocks each object holds, `c i` being the cached blocks of portal `i`. -/
def World.held (W : World ι κ) (c : ι → List Ptr) : ι ⊕ κ → Multiset Ptr
  | .inl i => c i
  | .inr a => (W.app a).held

def World.content (W : World ι κ) : ι ⊕ κ → List Byte
  | .inl i => W.heap.content (W.portal i).buf.refs
  | .inr a => W.heap.content (W.app a).refs

/-- What one step of the objects `x` leaves as it was. -/
structure OnlyOwn (x : List (ι ⊕ κ)) (S S' : Ptr → Option ℕ) (W W' : World ι κ) : Prop where
  content : ∀ y ∉ x, W'.content y = W.content y
  keeps : Heap.Keeps S S' W.heap W'.heap

theorem OnlyOwn.trans {x : List (ι ⊕ κ)} {S S' S'' : Ptr → Option ℕ} {W W' W'' : World ι κ}
    (h1 : OnlyOwn x S S' W W') (h2 : OnlyOwn x S' S'' W' W'') : OnlyOwn x S S'' W W'' :=
  ⟨fun y hy => (h2.content y hy).trans (h1.content y hy), h1.keeps.trans h2.keeps⟩

variable [Fintype ι] [Fintype κ]

structure WInv (W : World ι κ) (l : List Ptr) (c : ι → List Ptr) (S : Ptr → Option ℕ) :
    Prop where
  inv : HeapInv W.heap l (∑ x, W.refs x) (∑ x, W.held c x) S
  portal : ∀ i, PLoc false W.heap (W.portal i) (c i) S
  app : ∀ a, ALoc false W.heap (W.app a) S
  lim : ∀ p d, S p = some d →
    ∃ a, (W.app a).data < (W.app a).dataEnd ∧ (W.app a).stream.curBlock = p ∧ (W.app a).data = d

theorem WInv.init (mem : Ptr → ℕ → Byte) (oom : Ptr → Bool) :
    WInv (World.init mem oom : World ι κ) [] (fun _ => []) (fun _ => none) where
  inv := by
    have hr : ∀ x : ι ⊕ κ, (World.init mem oom : World ι κ).refs x = 0 := fun x => by
      cases x <;> simp [World.refs, World.init, IOPortal.new, IOBufAppender.new, IOBufAppender.refs]
    have hh : ∀ x : ι ⊕ κ, (World.init mem oom : World ι κ).held (fun _ => []) x = 0 := fun x => by
      cases x <;> simp [World.held, World.init, IOBufAppender.new, IOBufAppender.held,
        OutputStream.held, OutputStream.new]
    simp only [hr, hh, sum_const_zero]
    exact HeapInv.init mem oom
  portal _ := ⟨wf_new, Lib.chain_nil.2 rfl, by simp, by simp⟩
  app _ := ⟨rfl, wf_new, le_rfl, fun hlt => absurd hlt (lt_irrefl _),
    fun _ hne => absurd rfl hne⟩
  lim := by simp

theorem World.sum_refs (W : World ι κ) :
    ∑ x, W.refs x = famRefs univ W.bufs + ∑ b, ((W.app b).refs : Multiset BlockRef) :=
  Fintype.sum_sum_type W.refs

end

section Locals

variable {pos : Bool} {h h' : Heap} {P : IOPortal} {A : IOBufAppender} {c : List Ptr}
  {S S' : Ptr → Option ℕ} {K : Multiset Ptr} {Y : Multiset BlockRef}

theorem PLoc.shift (R : PLoc pos h P c S)
    (hs : Shift S S' h h' Y K) (hc : ∀ p ∈ c, p ∈ K) : PLoc pos h' P c S' where
  wf := R.wf
  chain := R.chain.congr fun p hp => hs.next p (hc p hp)
  room p hp := by
    rw [hs.size p (hc p hp), hs.cap p (hc p hp)]
    exact R.room p hp
  free p hp := by
    rw [hs.same p (hc p hp)]
    exact R.free p hp

theorem ALoc.shift (R : ALoc pos h A S)
    (hs : Shift S S' h h' Y K) (hK : ∀ p ∈ A.held, p ∈ K) : ALoc pos h' A S' where
  tls := R.tls
  wf := R.wf
  le := R.le
  busy hlt := by
    obtain ⟨rs, r, hrefs, hblk, hstop, hoff, hcur, hne, hsize, hcap, hS⟩ := R.busy hlt
    have hmem : A.blk ∈ K := hK _ (by rw [held, OutputStream.held, hcur, if_neg hne]; simp)
    exact ⟨rs, r, hrefs, hblk, hstop, hoff, hcur, hne, by rw [hs.size _ hmem, hsize],
      by rw [hs.cap _ hmem, hcap], by rw [hs.same _ hmem, hS]⟩
  idle heq hne := by
    obtain ⟨hfull, hS⟩ := R.idle heq hne
    have hmem : A.stream.curBlock ∈ K :=
      hK _ (by rw [held, OutputStream.held, if_neg hne]; simp)
    refine ⟨?_, by rw [hs.same _ hmem, hS]⟩
    simp only [Block.full] at hfull ⊢
    rwa [hs.size _ hmem, hs.cap _ hmem]

end Locals

section Family

variable {ι κ : Type} [Fintype ι] [Fintype κ] [DecidableEq ι] [DecidableEq κ] {W : World ι κ}
  {l l' : List Ptr} {c : ι → List Ptr} {S S' : Ptr → Option ℕ} {h' : Heap} {i : ι} {a : κ}
  {P : IOPortal} {A : IOBufAppender} {c' : List Ptr} {x y : ι ⊕ κ}

/-- The references, and the held blocks, of everybody else. -/
def World.otherRefs (W : World ι κ) (x : ι ⊕ κ) : Multiset BlockRef :=
  ∑ y ∈ univ.erase x, W.refs y

def World.otherHeld (W : World ι κ) (c : ι → List Ptr) (x : ι ⊕ κ) : Multiset Ptr :=
  ∑ y ∈ univ.erase x, W.held c y

theorem World.refs_mem_other (hxy : y ≠ x) {r : BlockRef} (hr : r ∈ W.refs y) :
    r ∈ W.otherRefs x :=
  mem_sum.2 ⟨y, mem_erase.2 ⟨hxy, mem_univ y⟩, hr⟩

theorem World.held_mem_other (hxy : y ≠ x) {p : Ptr} (hp : p ∈ W.held c y) :
    p ∈ W.otherHeld c x :=
  mem_sum.2 ⟨y, mem_erase.2 ⟨hxy, mem_univ y⟩, hp⟩

section

variable (F : WInv W l c S)
include F

theorem WInv.focus (x : ι ⊕ κ) :
    HeapInv W.heap l (W.refs x + W.otherRefs x) (W.held c x + W.otherHeld c x) S := by
  have H := F.inv
  rwa [← add_sum_erase univ W.refs (mem_univ x), ← add_sum_erase univ (W.held c) (mem_univ x)] at H

theorem WInv.focusPortal (i : ι) :
    PRep false W.heap l (W.portal i) (c i) (W.otherRefs (.inl i)) (W.otherHeld c (.inl i)) S :=
  ⟨⟨(F.portal i).wf, F.focus (.inl i)⟩, (F.portal i).chain, (F.portal i).room, (F.portal i).free⟩

theorem WInv.focusApp (a : κ) :
    ARep false W.heap l (W.app a) (W.otherRefs (.inr a)) (W.otherHeld c (.inr a)) S :=
  ⟨F.app a, F.focus (.inr a)⟩

theorem WInv.stepPortal
    (R : PRep false h' l' P c' (W.otherRefs (.inl i)) (W.otherHeld c (.inl i)) S)
    (hf : Frame W.heap h' (W.otherRefs (.inl i)) (W.otherHeld c (.inl i))) :
    let W' : World ι κ := { W with heap := h', portal := update W.portal i P }
    WInv W' l' (update c i c') S ∧ OnlyOwn [.inl i] S S W W' := by
  intro W'
  have hs : Shift S S W.heap h' (W.otherRefs (.inl i)) (W.otherHeld c (.inl i)) :=
    Shift.of_frame F.inv hf
  have hne : ∀ y : ι ⊕ κ, y ≠ .inl i → W'.refs y = W.refs y ∧
      W'.held (update c i c') y = W.held c y := fun y hy => by
    cases y with
    | inl j =>
      have hj : j ≠ i := fun heq => hy (congrArg _ heq)
      simp [World.refs, World.held, W', hj]
    | inr b => exact ⟨rfl, rfl⟩
  refine ⟨⟨?_, fun j => ?_, fun b => ?_, F.lim⟩, ⟨fun y hy => ?_, hs.keeps⟩⟩
  · rw [← add_sum_erase univ W'.refs (mem_univ (.inl i)),
      ← add_sum_erase univ (W'.held (update c i c')) (mem_univ (.inl i)),
      sum_congr rfl fun y hy => (hne y (ne_of_mem_erase hy)).1,
      sum_congr rfl fun y hy => (hne y (ne_of_mem_erase hy)).2]
    have hr : W'.refs (.inl i) = P.buf.refs := by simp [World.refs, W']
    have hh : W'.held (update c i c') (.inl i) = c' := by simp [World.held]
    rw [hr, hh]
    exact R.rep.inv
  · obtain rfl | hj := eq_or_ne j i
    · simpa [W'] using (⟨R.rep.wf, R.chain, R.room, R.free⟩ : PLoc false h' P c' S)
    · simp only [W', update_of_ne hj]
      exact (F.portal j).shift hs fun p hp =>
        World.held_mem_other (y := .inl j) (by simpa using hj) hp
  · exact (F.app b).shift hs fun p hp => World.held_mem_other (y := .inr b) (by simp) hp
  · have hy' : y ≠ .inl i := by simpa using hy
    have hc : ∀ rs : List BlockRef, (rs : Multiset BlockRef) = W.refs y →
        h'.content rs = W.heap.content rs := fun rs hrs =>
      hf.content fun r hr => World.refs_mem_other hy' (hrs ▸ hr)
    cases y with
    | inl j =>
      have hj : j ≠ i := by simpa using hy'
      simp only [World.content, W', update_of_ne hj]
      exact hc _ rfl
    | inr b => exact hc _ rfl

theorem WInv.stepApp
    (R : ARep false h' l' A (W.otherRefs (.inr a)) (W.otherHeld c (.inr a)) S')
    (hs : Shift S S' W.heap h' (W.otherRefs (.inr a)) (W.otherHeld c (.inr a))) :
    let W' : World ι κ := { W with heap := h', app := update W.app a A }
    WInv W' l' c S' ∧ OnlyOwn [.inr a] S S' W W' := by
  intro W'
  have hne : ∀ y : ι ⊕ κ, y ≠ .inr a → W'.refs y = W.refs y ∧ W'.held c y = W.held c y :=
    fun y hy => by
      cases y with
      | inl j => exact ⟨rfl, rfl⟩
      | inr b =>
        have hb : b ≠ a := fun heq => hy (congrArg _ heq)
        simp [World.refs, World.held, W', hb]
  refine ⟨⟨?_, fun j => ?_, fun b => ?_, fun p d hd => ?_⟩, ⟨fun y hy => ?_, hs.keeps⟩⟩
  · rw [← add_sum_erase univ W'.refs (mem_univ (.inr a)),
      ← add_sum_erase univ (W'.held c) (mem_univ (.inr a)),
      sum_congr rfl fun y hy => (hne y (ne_of_mem_erase hy)).1,
      sum_congr rfl fun y hy => (hne y (ne_of_mem_erase hy)).2]
    have hr : W'.refs (.inr a) = A.refs := by simp [World.refs, W']
    have hh : W'.held c (.inr a) = A.held := by simp [World.held, W']
    rw [hr, hh]
    exact R.inv
  · exact (F.portal j).shift hs fun p hp => World.held_mem_other (y := .inl j) (by simp) hp
  · obtain rfl | hb := eq_or_ne b a
    · simpa [W'] using R.toALoc
    · simp only [W', update_of_ne hb]
      exact (F.app b).shift hs fun p hp =>
        World.held_mem_other (y := .inr b) (by simpa using hb) hp
  · -- An announced limit belongs to the appender that holds the block.
    rcases mem_add.1 (R.inv.held p d hd).1 with hp | hp
    · have hcur : A.stream.curBlock = p ∧ A.stream.curBlock ≠ NULL := by
        unfold held OutputStream.held at hp
        split at hp
        · simp at hp
        next hne =>
          exact ⟨(Multiset.mem_singleton.1 hp).symm, hne⟩
      refine ⟨a, ?_⟩
      simp only [W', update_self]
      rcases lt_or_ge A.data A.dataEnd with hlt | hge
      · obtain ⟨rs, r, -, -, -, -, hblk, -, -, -, hS⟩ := R.busy hlt
        rw [← hblk, hcur.1, hd, Option.some.injEq] at hS
        exact ⟨hlt, hcur.1, hS.symm⟩
      · have hnone := (R.idle (le_antisymm R.le hge) hcur.2).2
        rw [hcur.1, hd] at hnone
        exact absurd hnone (by simp)
    · rw [hs.same p hp] at hd
      obtain ⟨b, hlt, hb, hdata⟩ := F.lim p d hd
      have hba : b ≠ a := fun heq => by
        subst heq
        obtain ⟨rs, r, -, -, -, -, hblk, hnull, -⟩ := (F.app b).busy hlt
        have hmine : p ∈ W.held c (.inr b) := by
          show p ∈ (W.app b).held
          rw [held, OutputStream.held, if_neg (by rw [hblk]; exact hnull), hb]
          simp
        have hnd := (nodup_add.1 (F.focus (.inr b)).nodup).2.1
        exact Multiset.disjoint_left.1 (nodup_add.1 hnd).2.2 hmine hp
      refine ⟨b, ?_⟩
      simp only [W', update_of_ne hba]
      exact ⟨hlt, hb, hdata⟩
  · have hy' : y ≠ .inr a := by simpa using hy
    have hc : ∀ rs : List BlockRef, (rs : Multiset BlockRef) = W.refs y →
        h'.content rs = W.heap.content rs := fun rs hrs =>
      hs.content fun r hr => World.refs_mem_other hy' (hrs ▸ hr)
    cases y with
    | inl j => exact hc _ rfl
    | inr b =>
      have hb : b ≠ a := by simpa using hy'
      simp only [World.content, W', update_of_ne hb]
      exact hc _ rfl

end

def Safe (W : World ι κ) (S : Ptr → Option ℕ) (targets : List (ι ⊕ κ)) (W' : World ι κ) : Prop :=
  ∃ l' c' S', WInv W' l' c' S' ∧ OnlyOwn targets S S' W W'

section

variable (F : WInv W l c S)
include F

theorem WInv.onPortal {f : IOPortal → Heap → IOPortal × Heap}
    (hf : ∀ {P' : IOPortal} {h' : Heap}, f (W.portal i) W.heap = (P', h') →
      (∃ l' c', PRep false h' l' P' c' (W.otherRefs (.inl i)) (W.otherHeld c (.inl i)) S) ∧
        Frame W.heap h' (W.otherRefs (.inl i)) (W.otherHeld c (.inl i))) :
    Safe W S [.inl i] (W.onPortal i f) := by
  rcases heq : f (W.portal i) W.heap with ⟨P', h'⟩
  obtain ⟨⟨l', c', R⟩, hfr⟩ := hf heq
  obtain ⟨F', hown⟩ := F.stepPortal R hfr
  have hW : W.onPortal i f = { W with heap := h', portal := update W.portal i P' } := by
    simp only [World.onPortal, heq]
  rw [hW]
  exact ⟨l', _, S, F', hown⟩

theorem WInv.onApp {f : IOBufAppender → Heap → IOBufAppender × Heap}
    (hf : ∀ {A' : IOBufAppender} {h' : Heap}, f (W.app a) W.heap = (A', h') →
      ∃ l' S', ARep false h' l' A' (W.otherRefs (.inr a)) (W.otherHeld c (.inr a)) S' ∧
        Shift S S' W.heap h' (W.otherRefs (.inr a)) (W.otherHeld c (.inr a))) :
    Safe W S [.inr a] (W.onApp a f) := by
  rcases heq : f (W.app a) W.heap with ⟨A', h'⟩
  obtain ⟨l', S', R, hs⟩ := hf heq
  obtain ⟨F', hown⟩ := F.stepApp R hs
  have hW : W.onApp a f = { W with heap := h', app := update W.app a A' } := by
    simp only [World.onApp, heq]
  rw [hW]
  exact ⟨l', c, S', F', hown⟩

omit [DecidableEq κ] in
theorem WInv.onBufs (op : Op ι) :
    Safe W S (op.targets.map .inl) (W.onBufs op) := by
  have hfam : FamInv false W.heap l W.bufs (∑ b, ((W.app b).refs : Multiset BlockRef))
      (∑ x, W.held c x) S :=
    ⟨fun j => (F.portal j).wf, F.inv.of_eq W.sum_refs⟩
  rcases heq : op.exec W.bufs W.heap with ⟨res, bufs', h'⟩
  obtain ⟨l', F', hfr, htargets, -⟩ := hfam.exec heq
  have hs : Shift S S W.heap h' _ (∑ x, W.held c x) := .of_frame F.inv hfr
  have hmem : ∀ (y : ι ⊕ κ) (p : Ptr), p ∈ W.held c y → p ∈ ∑ x, W.held c x := fun y p hp =>
    mem_sum.2 ⟨y, mem_univ y, hp⟩
  have hW : W.onBufs op =
      { W with heap := h', portal := fun i => { W.portal i with buf := bufs' i } } := by
    simp only [World.onBufs, heq]
  rw [hW]
  refine ⟨l', c, S, ⟨?_, fun j => ?_, fun b => ?_, F.lim⟩, ⟨fun y hy => ?_, hs.keeps⟩⟩
  · refine HeapInv.of_eq ?_ (World.sum_refs _).symm
    have hheld : ∀ x, World.held (⟨h', fun i => { W.portal i with buf := bufs' i }, W.app⟩ :
        World ι κ) c x = W.held c x := fun x => by cases x <;> rfl
    exact F'.inv
  · have hloc := (F.portal j).shift hs fun p hp => hmem (.inl j) p hp
    exact ⟨F'.wf j, hloc.chain, hloc.room, hloc.free⟩
  · exact (F.app b).shift hs fun p hp => hmem (.inr b) p hp
  · cases y with
    | inl j => exact htargets j fun hj => hy (List.mem_map_of_mem hj)
    | inr b =>
      exact hfr.content fun r hr => mem_sum.2 ⟨b, mem_univ b, hr⟩

theorem WInv.swapBuf (hleft : (W.app a).left = 0) :
    WInv (W.swapBuf a i) l c S ∧ OnlyOwn [.inl i, .inr a] S S W (W.swapBuf a i) := by
  have hidle : (W.app a).data = (W.app a).dataEnd := by
    have hd : (W.app a).dataEnd - (W.app a).data = 0 := hleft
    have := (F.app a).le
    lia
  have hheld : ∀ x, (W.swapBuf a i).held c x = W.held c x := fun x => by
    cases x with
    | inl j => rfl
    | inr b =>
      obtain rfl | hb := eq_or_ne b a
      · simp [World.held, World.swapBuf, held]
      · simp [World.held, World.swapBuf, hb]
  have hai : (W.swapBuf a i).refs (.inl i) = W.refs (.inr a) := by
    simp [World.refs, World.swapBuf, refs_eq hleft]
  have hia : (W.swapBuf a i).refs (.inr a) = W.refs (.inl i) := by
    have hl : left { W.app a with buf := (W.portal i).buf } = 0 := hleft
    simp only [World.refs, World.swapBuf, update_self, refs_eq hl]
  have hother : ∀ y : ι ⊕ κ, y ≠ .inl i → y ≠ .inr a → (W.swapBuf a i).refs y = W.refs y :=
    fun y hyi hya => by
      cases y with
      | inl j =>
        have hj : j ≠ i := by simpa using hyi
        simp [World.refs, World.swapBuf, hj]
      | inr b =>
        have hb : b ≠ a := by simpa using hya
        simp [World.refs, World.swapBuf, hb]
  have hmem : (Sum.inr a : ι ⊕ κ) ∈ univ.erase (Sum.inl i) := mem_erase.2 ⟨by simp, mem_univ _⟩
  refine ⟨⟨?_, fun j => ?_, fun b => ?_, fun p d hd => ?_⟩, ⟨fun y hy => ?_,
    Heap.Keeps.refl S W.heap⟩⟩
  · simp only [hheld]
    refine F.inv.of_eq ?_
    rw [← add_sum_erase univ W.refs (mem_univ (Sum.inl i)), ← add_sum_erase _ W.refs hmem,
      ← add_sum_erase univ (W.swapBuf a i).refs (mem_univ (Sum.inl i)),
      ← add_sum_erase _ (W.swapBuf a i).refs hmem, hai, hia, add_left_comm]
    congr 2
    refine sum_congr rfl fun y hy => (hother y ?_ (ne_of_mem_erase hy)).symm
    exact ne_of_mem_erase (mem_of_mem_erase hy)
  · obtain rfl | hj := eq_or_ne j i
    · simp only [World.swapBuf, update_self]
      exact ⟨(F.app a).wf, (F.portal j).chain, (F.portal j).room, (F.portal j).free⟩
    · simp only [World.swapBuf, update_of_ne hj]
      exact F.portal j
  · obtain rfl | hb := eq_or_ne b a
    · simp only [World.swapBuf, update_self]
      exact ⟨(F.app b).tls, (F.portal i).wf, (F.app b).le, fun hlt => absurd hidle hlt.ne,
        (F.app b).idle⟩
    · simp only [World.swapBuf, update_of_ne hb]
      exact F.app b
  · obtain ⟨b, hlt, hb, hdata⟩ := F.lim p d hd
    have hba : b ≠ a := fun heq => hlt.ne (heq ▸ hidle)
    refine ⟨b, ?_⟩
    simp only [World.swapBuf, update_of_ne hba]
    exact ⟨hlt, hb, hdata⟩
  · simp only [List.mem_cons, List.not_mem_nil, or_false, not_or] at hy
    cases y with
    | inl j =>
      have hj : j ≠ i := by simpa using hy.1
      simp [World.content, World.swapBuf, hj]
    | inr b =>
      have hb : b ≠ a := by simpa using hy.2
      simp [World.content, World.swapBuf, hb]

/-- `move_to` is shrinking, clearing the target and exchanging the buffers. -/
theorem World.moveTo_eq : W.step (.appenderMoveTo a i) =
      ((W.onApp a shrink).onBufs (.clear i)).swapBuf a i := by
  rcases hshrink : (W.app a).shrink W.heap with ⟨A1, h1⟩
  have hclear := clear_eq (h := h1) (F.portal i).wf.view
  simp only [World.step, moveTo, hshrink, IOBuf.assignMovable, World.onApp,
    World.onBufs, Op.exec, World.swapBuf, World.bufs, hclear, update_self,
    update_idem]
  congr 1
  funext j
  obtain rfl | hj := eq_or_ne j i
  · simp
  · simp [hj, World.bufs]

/-- **One step** of the world is safe. -/
theorem WInv.step (act : Action ι κ) : Safe W S act.targets (W.step act) := by
  have hret : ∀ i, Safe W S [.inl i] (W.onPortal i IOPortal.returnCachedBlocks) := fun i =>
    F.onPortal fun heq => by
      obtain ⟨⟨l', R⟩, hf, -⟩ := (F.focusPortal i).returnCachedBlocks heq
      exact ⟨⟨l', [], R⟩, hf.mono fun r hr => mem_add.2 (Or.inr hr)⟩
  have hshrink : ∀ a, ∃ l' S', WInv (W.onApp a shrink) l' c S' ∧
      OnlyOwn [.inr a] S S' W (W.onApp a shrink) ∧
      ((W.onApp a shrink).app a).left = 0 := fun a => by
    rcases heq : (W.app a).shrink W.heap with ⟨A', h'⟩
    obtain ⟨l', S', R, hs, hleft, -⟩ := (F.focusApp a).shrink heq
    obtain ⟨F', hown⟩ := F.stepApp R hs
    have hW : W.onApp a shrink =
        { W with heap := h', app := update W.app a A' } := by
      simp only [World.onApp, heq]
    rw [hW]
    exact ⟨l', S', F', hown, by simpa using hleft⟩
  cases act with
  | buf op =>
    simp only [World.step, Action.targets]
    split
    next i hi =>
      obtain ⟨l1, c1, S1, F1, hown1⟩ := hret i
      obtain ⟨l2, c2, S2, F2, hown2⟩ := F1.onBufs op
      have hmem : Sum.inl i ∈ (op.targets.map Sum.inl : List (ι ⊕ κ)) := by
        cases op <;> simp_all [Op.constructs, Op.targets]
      refine ⟨l2, c2, S2, F2, .trans ⟨fun y hy => hown1.content y fun hm => ?_, hown1.keeps⟩ hown2⟩
      rw [List.mem_singleton] at hm
      exact hy (hm ▸ hmem)
    · exact F.onBufs op
  | appendv i vec =>
    simp only [World.step, Action.targets]
    refine F.onPortal fun {P' h'} heq => ?_
    rcases happ : (W.portal i).buf.appendv vec W.heap with ⟨rc, b, h1⟩
    simp only [happ] at heq
    cases heq
    have R := F.focusPortal i
    obtain ⟨l', R', hf, -⟩ := R.rep.appendv happ
    have hc : ∀ p ∈ c i, p ∈ (c i : Multiset Ptr) + W.otherHeld c (.inl i) := fun p hp =>
      PRep.mem_held hp
    exact ⟨⟨l', c i, R.congr R' (fun p hp => hf.size p (hc p hp)) (fun p hp => hf.cap p (hc p hp))
      fun p hp => hf.next p (hc p hp)⟩,
      hf.monoHeld fun p hp => mem_add.2 (.inr hp)⟩
  | appendFromReader i reader maxCount =>
    simp only [World.step, Action.targets]
    refine F.onPortal fun {P' h'} heq => ?_
    rcases happ : (W.portal i).appendFromReader reader maxCount W.heap with ⟨nr, P1, h1⟩
    rw [happ] at heq
    cases heq
    obtain ⟨R, hf, -⟩ := (F.focusPortal i).appendFromReader happ
    exact ⟨R, hf⟩
  | returnCachedBlocks i => exact hret i
  | clear i =>
    simp only [World.step, Action.targets]
    refine F.onPortal fun heq => ?_
    obtain ⟨⟨l', R⟩, hf, -⟩ := (F.focusPortal i).clear heq
    exact ⟨⟨l', [], R⟩, hf⟩
  | appenderAppend a src =>
    simp only [World.step, Action.targets]
    refine F.onApp fun {A' h'} heq => ?_
    rcases happ : (W.app a).append src W.heap with ⟨rc, A1, h1⟩
    rw [happ] at heq
    cases heq
    obtain ⟨l', S', R, hs, -⟩ := (F.focusApp a).append happ
    exact ⟨l', S', R, hs⟩
  | appenderPushBack a ch =>
    simp only [World.step, Action.targets]
    refine F.onApp fun {A' h'} heq => ?_
    rcases happ : (W.app a).pushBack ch W.heap with ⟨rc, A1, h1⟩
    rw [happ] at heq
    cases heq
    obtain ⟨l', S', R, hs, -⟩ := (F.focusApp a).pushBack happ
    exact ⟨l', S', R, hs⟩
  | appenderBuf a =>
    obtain ⟨l', S', F', hown, -⟩ := hshrink a
    exact ⟨l', c, S', F', hown⟩
  | appenderSwap a i =>
    obtain ⟨l1, S1, F1, hown1, hleft⟩ := hshrink a
    obtain ⟨F2, hown2⟩ := F1.swapBuf (i := i) hleft
    refine ⟨l1, c, S1, F2, .trans ⟨fun y hy => hown1.content y fun hm => ?_, hown1.keeps⟩ hown2⟩
    rw [List.mem_singleton] at hm
    exact hy (by simp [Action.targets, hm])
  | appenderMoveTo a i =>
    rw [World.moveTo_eq F]
    obtain ⟨l1, S1, F1, hown1, hleft⟩ := hshrink a
    obtain ⟨l2, c2, S2, F2, hown2⟩ := F1.onBufs (.clear i)
    have hleft2 : (((W.onApp a shrink).onBufs (.clear i)).app a).left = 0 := hleft
    obtain ⟨F3, hown3⟩ := F2.swapBuf (i := i) hleft2
    have ht : ∀ y ∉ (.appenderMoveTo a i : Action ι κ).targets,
        y ≠ .inl i ∧ y ≠ .inr a := fun y hy => by
      simpa [Action.targets] using hy
    refine ⟨l2, c2, S2, F3, fun y hy => ?_, (hown1.keeps.trans hown2.keeps).trans hown3.keeps⟩
    obtain ⟨hyi, hya⟩ := ht y hy
    rw [hown3.content y hy, hown2.content y (by simpa [Op.targets] using hyi),
      hown1.content y (by simpa using hya)]

end

theorem WInv.run : ∀ {W : World ι κ} {l : List Ptr} {c : ι → List Ptr} {S : Ptr → Option ℕ},
    WInv W l c S → ∀ acts : List (Action ι κ),
    ∃ l' c' S', WInv (W.run acts) l' c' S'
  | _, l, c, S, F, [] => ⟨l, c, S, F⟩
  | W, l, c, S, F, act :: acts => by
    obtain ⟨l1, c1, S1, F1, -⟩ := F.step act
    exact F1.run acts

end Family

/-! ## No write leaks -/

section Leaks

variable {ι κ : Type}

/-- The appender has handed out space it has not filled yet. -/
def World.Busy (W : World ι κ) (a : κ) : Prop := (W.app a).data < (W.app a).dataEnd

/-- The buffer of each object, as its callers see it. -/
def World.bufOf (W : World ι κ) : ι ⊕ κ → IOBuf
  | .inl i => (W.portal i).buf
  | .inr a => (W.app a).buf

structure World.SingleWriter [Fintype ι] [Fintype κ] (W : World ι κ) : Prop where
  /-- The TLS chain `l` is finite, has no repetition and has `num_blocks` members;
  no block is in two of: `l`, the cached chains `c i`, the appenders' blocks. -/
  holders : ∃ l : List Ptr, ∃ c : ι → List Ptr,
    Lib.Chain (fun p => (W.heap.blk p).portalNext) NULL W.heap.blockHead l ∧ l.Nodup ∧
    W.heap.numBlocks = l.length ∧
    (∀ i, Lib.Chain (fun p => (W.heap.blk p).portalNext) NULL (W.portal i).block (c i)) ∧
    ((l : Multiset Ptr) + ∑ x, W.held c x).Nodup
  bound : ∀ x, ∀ r ∈ (W.bufOf x).refs, r.stop ≤ (W.heap.blk r.block).size
  reserved : ∀ a, W.Busy a → ∀ x, ∀ r ∈ W.refs x, r.block = (W.app a).stream.curBlock →
    r.stop ≤ (W.app a).data

/-- What an action may change: the contents of its own objects, and the bytes at
or above `size` of a block (at or above `_data` in a block of a busy appender). -/
structure World.WritesOwn (W : World ι κ) (act : Action ι κ) (W' : World ι κ) : Prop where
  content : ∀ x ∉ act.targets, W'.content x = W.content x
  size : ∀ p < W.heap.brk, 0 < (W'.heap.blk p).nshared →
    (∀ a, W.Busy a → (W.app a).stream.curBlock ≠ p) →
    ∀ i < (W.heap.blk p).size, (W'.heap.blk p).data i = (W.heap.blk p).data i
  data : ∀ a, W.Busy a → 0 < (W'.heap.blk (W.app a).stream.curBlock).nshared →
    ∀ i < (W.app a).data, (W'.heap.blk (W.app a).stream.curBlock).data i =
      (W.heap.blk (W.app a).stream.curBlock).data i

variable [Fintype ι] [Fintype κ] {W : World ι κ} {l : List Ptr} {c : ι → List Ptr}
  {S : Ptr → Option ℕ} {a : κ}

theorem WInv.limit_busy (F : WInv W l c S) (hb : W.Busy a) :
    S (W.app a).stream.curBlock = some (W.app a).data := by
  obtain ⟨rs, r, -, -, -, -, hblk, -, -, -, hS⟩ := (F.app a).busy hb
  rw [hblk, hS]

theorem WInv.limit_none (F : WInv W l c S) {p : Ptr}
    (hp : ∀ a, W.Busy a → (W.app a).stream.curBlock ≠ p) : S p = none := by
  by_contra hne
  obtain ⟨d, hd⟩ := Option.ne_none_iff_exists'.1 hne
  obtain ⟨a, hlt, hcur, -⟩ := F.lim p d hd
  exact hp a hlt hcur

theorem WInv.stop_le_size (F : WInv W l c S) {x : ι ⊕ κ} {r : BlockRef} (hr : r ∈ W.refs x) :
    r.stop ≤ (W.heap.blk r.block).size := by
  have hb := F.inv.bound r (mem_sum.2 ⟨x, mem_univ x, hr⟩)
  cases hS : S r.block with
  | none => rwa [Heap.lim, hS, Option.getD_none] at hb
  | some d =>
    rw [Heap.lim, hS, Option.getD_some] at hb
    exact hb.trans (F.inv.held _ d hS).2

theorem WInv.singleWriter (F : WInv W l c S) : W.SingleWriter where
  holders := ⟨l, c, F.inv.chain, F.inv.chain.nodup, F.inv.num, fun i => (F.portal i).chain,
    F.inv.nodup⟩
  bound x r hr := by
    cases x with
    | inl i => exact F.stop_le_size (x := .inl i) hr
    | inr a =>
      rcases lt_or_ge (W.app a).data (W.app a).dataEnd with hlt | hge
      · -- All but the last reference are the appender's as they stand.
        obtain ⟨rs, last, hrefs, hblk, hstop, -, -, -, hsize, -⟩ := (F.app a).busy hlt
        rw [World.bufOf, hrefs, List.mem_append, List.mem_singleton] at hr
        rcases hr with hr | rfl
        · refine F.stop_le_size (x := .inr a) (mem_coe.2 ?_)
          rw [IOBufAppender.refs, hrefs, truncBack_concat]
          exact List.mem_append_left _ hr
        · rw [hstop, hblk, hsize]
      · have hleft : (W.app a).left = 0 := Nat.sub_eq_zero_of_le hge
        refine F.stop_le_size (x := .inr a) (mem_coe.2 ?_)
        rw [refs_eq hleft]
        exact hr
  reserved a hb x r hr hblk := by
    have hbound := F.inv.bound r (mem_sum.2 ⟨x, mem_univ x, hr⟩)
    rwa [Heap.lim, hblk, F.limit_busy hb, Option.getD_some] at hbound

variable [DecidableEq ι] [DecidableEq κ]

theorem WInv.writesOwn (F : WInv W l c S) (act : Action ι κ) : W.WritesOwn act (W.step act) := by
  obtain ⟨l', c', S', F', hown⟩ := F.step act
  refine ⟨hown.content, fun p hp hl hfree i hi => ?_, fun a hb hl i hi => ?_⟩
  · refine hown.keeps.data p hp hl i ?_
    rwa [Heap.lim, F.limit_none hfree, Option.getD_none]
  · have hheld := (F.inv.held _ _ (F.limit_busy hb)).1
    refine hown.keeps.data _ (F.inv.live _ (F.inv.pos_of_held hheld)).2.1 hl i ?_
    rwa [Heap.lim, F.limit_busy hb, Option.getD_some]

/-- **Block sharing never leaks writes.** In every state that any sequence of
actions on any buffers, portals and appenders reaches, every block has at most
one writer and every reference lies below what may be written; and every
further action changes the contents of its own objects only. -/
theorem run_singleWriter (mem : Ptr → ℕ → Byte) (oom : Ptr → Bool) (acts : List (Action ι κ)) :
    ((World.init mem oom : World ι κ).run acts).SingleWriter ∧
      ∀ act, ((World.init mem oom : World ι κ).run acts).WritesOwn act
        (((World.init mem oom : World ι κ).run acts).step act) := by
  obtain ⟨l, c, S, F⟩ := (.init mem oom : WInv (.init mem oom : World ι κ) _ _ _).run acts
  exact ⟨F.singleWriter, F.writesOwn⟩

end Leaks

end Eabase.IOBuf
