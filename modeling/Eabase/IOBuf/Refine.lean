import Eabase.IOBuf.OpsSpec

/-!
# `IOBuf` refines a byte string

A family of buffers over one heap, driven by any sequence of operations.
`Op.exec` runs an operation on the objects it names, `Op.Spec` says what the
same operation does to a family of byte strings, and `run_refines` is the
refinement over whole runs.

An index of the family stands for one object at a time: constructing a
buffer at an index ends the life of the buffer that was there, so
`~IOBuf()` runs first. Operations that read one buffer and write another
take two different objects; assignment tests for `this == &rhs` in the
source, and so it does here.

When `malloc` fails, `append`, `push_back` and `resize` return `-1` and have
appended a proper prefix; without a failing allocation the byte-string
operation is a function.
-/

namespace Eabase.IOBuf

open Finset Function
open Multiset (mem_add)

inductive Op (ι : Type) : Type where
  | copyNew (i rhs : ι) (h : i ≠ rhs)
  | moveNew (i rhs : ι) (h : i ≠ rhs)
  | assign (i rhs : ι)
  | assignMovable (i rhs : ι) (h : i ≠ rhs)
  | swap (i other : ι)
  | append (i : ι) (data : Option (List Byte))
  | appendBuf (i other : ι) (h : i ≠ other)
  | appendMovable (i other : ι) (h : i ≠ other)
  | pushBack (i : ι) (c : Byte)
  | resize (i : ι) (n : ℕ) (c : Byte)
  | appendTo (i buf : ι) (h : i ≠ buf) (n pos : ℕ)
  | popFront (i : ι) (n : ℕ)
  | popBack (i : ι) (n : ℕ)
  | cut1 (i : ι)
  | cutn (i out : ι) (h : i ≠ out) (n : ℕ)
  | cutnRaw (i : ι) (n : ℕ)
  | clear (i : ι)

inductive Result : Type where
  | void
  | rc (r : ℤ)
  | count (n : ℕ)
  | byte (c : Option Byte)
  | bytes (n : ℕ) (bs : List Byte)

section Exec

variable {ι : Type} [DecidableEq ι]

def Op.exec (op : Op ι) (bufs : ι → IOBuf) (h : Heap) : Result × (ι → IOBuf) × Heap :=
  match op with
  | copyNew i rhs _ =>
      let (b, h') := copy (bufs rhs) ((bufs i).clear h).2
      (.void, update bufs i b, h')
  | moveNew i rhs _ =>
      (.void, update (update bufs i (bufs rhs)) rhs IOBuf.new,
        ((bufs i).clear h).2)
  | assign i rhs =>
      if i = rhs then (.void, bufs, h)
      else
        let (b, h') := IOBuf.assign (bufs i) (bufs rhs) h
        (.void, update bufs i b, h')
  | assignMovable i rhs _ =>
      let (b, r, h') := IOBuf.assignMovable (bufs i) (bufs rhs) h
      (.void, update (update bufs i b) rhs r, h')
  | swap i other =>
      (.void, update (update bufs i (bufs other)) other (bufs i), h)
  | append i data =>
      let (rc, b, h') := (bufs i).append data h
      (.rc rc, update bufs i b, h')
  | appendBuf i other _ =>
      let (b, h') := IOBuf.appendBuf (bufs i) (bufs other) h
      (.void, update bufs i b, h')
  | appendMovable i other _ =>
      let (b, o, h') := IOBuf.appendMovable (bufs i) (bufs other) h
      (.void, update (update bufs i b) other o, h')
  | pushBack i c =>
      let (rc, b, h') := (bufs i).pushBack c h
      (.rc rc, update bufs i b, h')
  | resize i n c =>
      let (rc, b, h') := (bufs i).resize n c h
      (.rc rc, update bufs i b, h')
  | appendTo i buf _ n pos =>
      let (k, b, h') := IOBuf.appendTo n pos (bufs i) (bufs buf) h
      (.count k, update bufs buf b, h')
  | popFront i n =>
      let (k, b, h') := (bufs i).popFront n h
      (.count k, update bufs i b, h')
  | popBack i n =>
      let (k, b, h') := (bufs i).popBack n h
      (.count k, update bufs i b, h')
  | cut1 i =>
      let (c, b, h') := (bufs i).cut1 h
      (.byte c, update bufs i b, h')
  | cutn i out _ n =>
      let (k, b, o, h') := IOBuf.cutn n (bufs i) (bufs out) h
      (.count k, update (update bufs i b) out o, h')
  | cutnRaw i n =>
      let (k, bs, b, h') := (bufs i).cutnRaw n h
      (.bytes k bs, update bufs i b, h')
  | clear i =>
      let (b, h') := (bufs i).clear h
      (.void, update bufs i b, h')

def Op.targets : Op ι → List ι
  | copyNew i _ _ | assign i _ | append i _ | appendBuf i _ _ | pushBack i _ | resize i _ _
  | popFront i _ | popBack i _ | cut1 i | cutnRaw i _ | clear i => [i]
  | appendTo _ buf _ _ _ => [buf]
  | moveNew i j _ | assignMovable i j _ | swap i j | appendMovable i j _ | cutn i j _ _ => [i, j]

/-- The same operation on byte strings; `oom` says whether allocations can fail. -/
def Op.Spec (oom : Ptr → Bool) (op : Op ι) (s : ι → List Byte) (res : Result)
    (s' : ι → List Byte) : Prop :=
  match op with
  | copyNew i rhs _ => res = .void ∧ s' = update s i (s rhs)
  | moveNew i rhs _ => res = .void ∧ s' = update (update s i (s rhs)) rhs []
  | assign i rhs => res = .void ∧ s' = update s i (s rhs)
  | assignMovable i rhs _ =>
      res = .void ∧ s' = update (update s i (s rhs)) rhs []
  | swap i other =>
      res = .void ∧ s' = update (update s i (s other)) other (s i)
  | append _ none => res = .rc (-1) ∧ s' = s
  | append i (some bs) =>
      ∃ rc new, res = .rc rc ∧ Appended oom (s i) bs rc new ∧ s' = update s i new
  | appendBuf i other _ => res = .void ∧ s' = update s i (s i ++ s other)
  | appendMovable i other _ =>
      res = .void ∧ s' = update (update s i (s i ++ s other)) other []
  | pushBack i c =>
      ∃ rc new, res = .rc rc ∧ Appended oom (s i) [c] rc new ∧ s' = update s i new
  | resize i n c =>
      ∃ rc new, res = .rc rc ∧
        Appended oom ((s i).take n) (List.replicate (n - (s i).length) c) rc new ∧
        s' = update s i new
  | appendTo i buf _ n pos =>
      res = .count (((s i).drop pos).take n).length ∧
        s' = update s buf (s buf ++ ((s i).drop pos).take n)
  | popFront i n =>
      res = .count (min n (s i).length) ∧ s' = update s i ((s i).drop n)
  | popBack i n =>
      res = .count (min n (s i).length) ∧
        s' = update s i ((s i).take ((s i).length - n))
  | cut1 i => res = .byte (s i).head? ∧ s' = update s i (s i).tail
  | cutn i out _ n =>
      res = .count (min n (s i).length) ∧
        s' = update (update s i ((s i).drop n)) out (s out ++ (s i).take n)
  | cutnRaw i n =>
      res = .bytes (min n (s i).length) ((s i).take n) ∧
        s' = update s i ((s i).drop n)
  | clear i => res = .void ∧ s' = update s i []

def contents (h : Heap) (bufs : ι → IOBuf) : ι → List Byte := fun i => h.content (bufs i).refs

end Exec

/-! ## Families of buffers -/

def famRefs {ι : Type} (s : Finset ι) (bufs : ι → IOBuf) : Multiset BlockRef :=
  ∑ i ∈ s, ((bufs i).refs : Multiset BlockRef)

section FamRefs

variable {ι : Type} {bufs : ι → IOBuf} {s : Finset ι} {i : ι} {b : IOBuf}

theorem mem_famRefs {r : BlockRef} (hi : i ∈ s) (hr : r ∈ (bufs i).refs) : r ∈ famRefs s bufs :=
  Multiset.mem_sum.2 ⟨i, hi, hr⟩

theorem famRefs_erase [DecidableEq ι] (s : Finset ι) (bufs : ι → IOBuf) (hi : i ∈ s) :
    famRefs s bufs = (bufs i).refs + famRefs (s.erase i) bufs :=
  (add_sum_erase s (fun i => ((bufs i).refs : Multiset BlockRef)) hi).symm

theorem famRefs_update_of_notMem [DecidableEq ι] (hi : i ∉ s) :
    famRefs s (update bufs i b) = famRefs s bufs := by
  refine sum_congr rfl fun k hk => ?_
  have hki : k ≠ i := fun heq => hi (heq ▸ hk)
  rw [update_of_ne hki]

end FamRefs

section Family

variable {ι : Type} [Fintype ι] [DecidableEq ι]

/-- The invariant of a family of buffers next to the references `Y` of others. -/
structure FamInv (pos : Bool) (h : Heap) (l : List Ptr) (bufs : ι → IOBuf)
    (Y : Multiset BlockRef) (K : Multiset Ptr) (S : Ptr → Option ℕ) : Prop where
  wf : ∀ i, (bufs i).WF pos
  inv : HeapInv h l (famRefs univ bufs + Y) K S

variable {pos : Bool} {h h' : Heap} {l l' : List Ptr} {bufs : ι → IOBuf} {Y : Multiset BlockRef}
  {K : Multiset Ptr} {S : Ptr → Option ℕ} {i j : ι} {b c : IOBuf} {op : Op ι} {res : Result}

section

variable (F : FamInv pos h l bufs Y K S)
include F

theorem FamInv.focus (i : ι) :
    Rep pos h l (bufs i) (famRefs (univ.erase i) bufs + Y) K S := by
  refine ⟨F.wf i, F.inv.of_eq ?_⟩
  rw [famRefs_erase univ bufs (mem_univ i), add_assoc]

theorem FamInv.focus₂ (hij : i ≠ j) : Rep pos h l (bufs i)
      ((bufs j).refs + (famRefs ((univ.erase i).erase j) bufs + Y)) K S := by
  refine ⟨F.wf i, (F.focus i).inv.of_eq ?_⟩
  rw [famRefs_erase (univ.erase i) bufs (mem_erase.2 ⟨hij.symm, mem_univ j⟩), add_assoc]

theorem FamInv.one
    (R : Rep pos h' l' b (famRefs (univ.erase i) bufs + Y) K S)
    (hf : Frame h h' (famRefs (univ.erase i) bufs + Y) K) :
    FamInv pos h' l' (update bufs i b) Y K S ∧ Frame h h' Y K ∧ contents h' (update bufs i b) =
        update (contents h bufs) i (h'.content b.refs) := by
  refine ⟨⟨fun k => ?_, R.inv.of_eq ?_⟩, hf.mono fun _ hr => mem_add.2 (.inr hr), ?_⟩
  · obtain rfl | hk := eq_or_ne k i
    · simpa using R.wf
    · simpa [hk] using F.wf k
  · rw [famRefs_erase univ (update bufs i b) (mem_univ i), update_self,
      famRefs_update_of_notMem (notMem_erase i univ), add_assoc]
  · funext k
    obtain rfl | hk := eq_or_ne k i
    · simp [contents]
    · simp only [contents, update_of_ne hk]
      exact hf.content fun r hr => mem_add.2
        (.inl (mem_famRefs (mem_erase.2 ⟨hk, mem_univ k⟩) hr))

theorem FamInv.two (hij : i ≠ j)
    (R : Rep pos h' l' b (c.refs + (famRefs ((univ.erase i).erase j) bufs + Y)) K S)
    (hc : c.WF pos) (hf : Frame h h' (famRefs ((univ.erase i).erase j) bufs + Y) K) :
    FamInv pos h' l' (update (update bufs i b) j c) Y K S ∧ Frame h h' Y K ∧
      contents h' (update (update bufs i b) j c) =
        update (update (contents h bufs) i (h'.content b.refs)) j (h'.content c.refs) := by
  refine ⟨⟨fun k => ?_, R.inv.of_eq ?_⟩, hf.mono fun _ hr => mem_add.2 (.inr hr), ?_⟩
  · obtain rfl | hk := eq_or_ne k j
    · simpa using hc
    · obtain rfl | hki := eq_or_ne k i
      · simpa [hk] using R.wf
      · simpa [hk, hki] using F.wf k
  · have hj : j ∈ univ.erase i := mem_erase.2 ⟨hij.symm, mem_univ j⟩
    have hni : i ∉ (univ.erase i).erase j := fun hm => notMem_erase i univ (mem_of_mem_erase hm)
    rw [famRefs_erase univ _ (mem_univ i), famRefs_erase (univ.erase i) _ hj,
      update_self, update_of_ne hij, update_self,
      famRefs_update_of_notMem (notMem_erase j _), famRefs_update_of_notMem hni]
    simp only [add_assoc]
  · funext k
    obtain rfl | hk := eq_or_ne k j
    · simp [contents]
    · obtain rfl | hki := eq_or_ne k i
      · simp [contents, hk]
      · simp only [contents, update_of_ne hk, update_of_ne hki]
        exact hf.content fun r hr => mem_add.2 (.inl
          (mem_famRefs (mem_erase.2 ⟨hk, mem_erase.2 ⟨hki, mem_univ k⟩⟩) hr))

end

theorem FamInv.mem_others (hij : j ≠ i) {r : BlockRef} (hr : r ∈ (bufs j).refs) :
    r ∈ famRefs (univ.erase i) bufs + Y :=
  mem_add.2 (.inl (mem_famRefs (mem_erase.2 ⟨hij, mem_univ j⟩) hr))

/-- What one operation does: it keeps the family well-formed, leaves the rest of
the program alone, and touches only its targets; if no reference is empty it
does what its specification says. -/
def Stepped (pos : Bool) (h : Heap) (bufs : ι → IOBuf) (Y : Multiset BlockRef)
    (K : Multiset Ptr) (S : Ptr → Option ℕ) (op : Op ι) (res : Result) (bufs' : ι → IOBuf)
    (h' : Heap) : Prop :=
  ∃ l', FamInv pos h' l' bufs' Y K S ∧ Frame h h' Y K ∧
    (∀ k ∉ op.targets, contents h' bufs' k = contents h bufs k) ∧
    (pos = true → op.Spec h.oom (contents h bufs) res (contents h' bufs'))

section

variable (F : FamInv pos h l bufs Y K S)
include F

theorem Stepped.one
    (ht : op.targets = [i]) (R : Rep pos h' l' b (famRefs (univ.erase i) bufs + Y) K S)
    (hf : Frame h h' (famRefs (univ.erase i) bufs + Y) K)
    (hspec : pos = true → op.Spec h.oom (contents h bufs) res
      (update (contents h bufs) i (h'.content b.refs))) :
    Stepped pos h bufs Y K S op res (update bufs i b) h' := by
  obtain ⟨F', hY, hc⟩ := F.one R hf
  refine ⟨l', F', hY, fun k hk => ?_, fun hp => hc ▸ hspec hp⟩
  have hki : k ≠ i := by simpa [ht] using hk
  rw [hc, update_of_ne hki]

theorem Stepped.two (hij : i ≠ j)
    (ht : op.targets = [i, j])
    (R : Rep pos h' l' b (c.refs + (famRefs ((univ.erase i).erase j) bufs + Y)) K S)
    (hc : c.WF pos) (hf : Frame h h' (famRefs ((univ.erase i).erase j) bufs + Y) K)
    (hspec : pos = true → op.Spec h.oom (contents h bufs) res
      (update (update (contents h bufs) i (h'.content b.refs)) j (h'.content c.refs))) :
    Stepped pos h bufs Y K S op res (update (update bufs i b) j c) h' := by
  obtain ⟨F', hY, hcont⟩ := F.two hij R hc hf
  refine ⟨l', F', hY, fun k hk => ?_, fun hp => hcont ▸ hspec hp⟩
  have hk' : k ≠ i ∧ k ≠ j := by simpa [ht] using hk
  rw [hcont, update_of_ne hk'.2, update_of_ne hk'.1]

theorem Stepped.moveInto (hij : i ≠ j)
    (ht : op.targets = [i, j])
    (hspec : ∀ s : ι → List Byte, op.Spec h.oom s .void (update (update s i (s j)) j [])) :
    Stepped pos h bufs Y K S op .void (update (update bufs i (bufs j)) j IOBuf.new)
      ((bufs i).clear h).2 := by
  obtain ⟨b1, h1, hclear⟩ : ∃ b1 h1, (bufs i).clear h = (b1, h1) := ⟨_, _, rfl⟩
  rw [hclear]
  obtain ⟨R1, hf, rfl⟩ := (F.focus₂ hij).clear hclear
  have R2 : Rep pos h1 l (bufs j)
      (IOBuf.new.refs + (famRefs ((univ.erase i).erase j) bufs + Y)) K S :=
    ⟨F.wf j, R1.inv.of_eq (by simp)⟩
  have hframe := R1.frame hf
  have hj : h1.content (bufs j).refs = h.content (bufs j).refs :=
    hframe.content fun r hr => mem_add.2 (.inl hr)
  refine Stepped.two F hij ht R2 wf_new
    (hframe.mono fun r hr => mem_add.2 (.inr hr)) fun _ => ?_
  rw [hj]
  exact hspec (contents h bufs)

/-- **One step.** -/
theorem FamInv.exec
    {bufs' : ι → IOBuf} (heq : op.exec bufs h = (res, bufs', h')) :
    Stepped pos h bufs Y K S op res bufs' h' := by
  cases op with
  | copyNew i rhs hne =>
    rcases hclear : (bufs i).clear h with ⟨b1, h1⟩
    rcases hcopy : (bufs rhs).copy h1 with ⟨b2, h2⟩
    simp only [Op.exec, hclear, hcopy] at heq
    cases heq
    obtain ⟨R1, hf1, rfl⟩ := (F.focus i).clear hclear
    obtain ⟨R2, hf2, hrefs⟩ := Rep.copy (by simpa using R1.inv) (F.wf rhs)
      (fun r hr => FamInv.mem_others hne.symm hr) hcopy
    have hframe := R2.frame (hf1.trans hf2)
    refine Stepped.one F rfl R2 hframe fun _ => ⟨rfl, ?_⟩
    rw [hrefs, hframe.content fun r hr => FamInv.mem_others hne.symm hr]
    rfl
  | moveNew i rhs hne =>
    cases heq
    exact Stepped.moveInto F hne rfl fun _ => ⟨rfl, rfl⟩
  | assign i rhs =>
    by_cases hne : i = rhs
    · simp only [Op.exec, if_pos hne] at heq
      cases heq
      subst hne
      exact ⟨l, F, .refl h Y K, fun _ _ => rfl, fun _ => ⟨rfl, (update_eq_self i _).symm⟩⟩
    · rcases hassign : (bufs i).assign (bufs rhs) h with ⟨b1, h1⟩
      simp only [Op.exec, if_neg hne, hassign] at heq
      cases heq
      obtain ⟨R', hf, hrefs⟩ := (F.focus i).assign (F.wf rhs)
        (fun r hr => FamInv.mem_others (Ne.symm hne) hr) hassign
      have hframe := R'.frame hf
      refine Stepped.one F rfl R' hframe fun _ => ⟨rfl, ?_⟩
      rw [hrefs, hframe.content fun r hr => FamInv.mem_others (Ne.symm hne) hr]
      rfl
  | assignMovable i rhs hne =>
    cases heq
    exact Stepped.moveInto F hne rfl fun _ => ⟨rfl, rfl⟩
  | swap i other =>
    cases heq
    obtain rfl | hne := eq_or_ne i other
    · have hid : update (update bufs i (bufs i)) i (bufs i) = bufs := by simp
      rw [hid]
      exact ⟨l, F, .refl h Y K, fun _ _ => rfl, fun _ => ⟨rfl, by simp⟩⟩
    · have R : Rep pos h l (bufs other)
          ((bufs i).refs + (famRefs ((univ.erase i).erase other) bufs + Y)) K S :=
        ⟨F.wf other, (F.focus₂ hne).inv.of_eq (add_left_comm _ _ _)⟩
      exact Stepped.two F hne rfl R (F.wf i) (.refl _ _ _) fun _ => ⟨rfl, rfl⟩
  | append i data =>
    rcases happ : (bufs i).append data h with ⟨rc, b1, h1⟩
    simp only [Op.exec, happ] at heq
    cases heq
    obtain ⟨l', R', hf, hout⟩ := (F.focus i).append happ
    refine Stepped.one F rfl R' hf fun _ => ?_
    cases data with
    | none =>
      obtain ⟨rfl, hout⟩ := hout
      exact ⟨rfl, by rw [hout]; exact update_eq_self i _⟩
    | some bs => exact ⟨rc, _, rfl, hout, rfl⟩
  | appendBuf i other hne =>
    rcases happ : (bufs i).appendBuf (bufs other) h with ⟨b1, h1⟩
    simp only [Op.exec, happ] at heq
    cases heq
    obtain ⟨R', hf, hc⟩ := (F.focus i).appendBuf (F.wf other)
      (fun r hr => FamInv.mem_others hne.symm hr) happ
    exact Stepped.one F rfl R' (R'.frame hf) fun _ => ⟨rfl, by rw [hc]; rfl⟩
  | appendMovable i other hne =>
    rcases happ : (bufs i).appendMovable (bufs other) h with ⟨b1, o1, h1⟩
    simp only [Op.exec, happ] at heq
    cases heq
    obtain ⟨R', ho, hf, hc, hco⟩ := (F.focus₂ hne).appendMovable (F.wf other) happ
    refine Stepped.two F hne rfl R' ho
      ((R'.frame hf).mono fun r hr => mem_add.2 (.inr hr)) fun _ => ⟨rfl, ?_⟩
    rw [hc, hco]
    rfl
  | pushBack i c =>
    rcases happ : (bufs i).pushBack c h with ⟨rc, b1, h1⟩
    simp only [Op.exec, happ] at heq
    cases heq
    obtain ⟨l', R', hf, hout⟩ := (F.focus i).pushBack happ
    exact Stepped.one F rfl R' hf fun _ => ⟨rc, _, rfl, hout, rfl⟩
  | resize i n c =>
    rcases hres : (bufs i).resize n c h with ⟨rc, b1, h1⟩
    simp only [Op.exec, hres] at heq
    cases heq
    obtain ⟨l', R', hf, hout⟩ := (F.focus i).resize hres
    exact Stepped.one F rfl R' hf fun _ => ⟨rc, _, rfl, hout, rfl⟩
  | appendTo i buf hne n p =>
    rcases happ : IOBuf.appendTo n p (bufs i) (bufs buf) h with ⟨k, b1, h1⟩
    simp only [Op.exec, happ] at heq
    cases heq
    obtain ⟨R', hf, rfl, hc⟩ := (F.focus buf).appendTo (F.wf i)
      (fun r hr => FamInv.mem_others hne hr) happ
    exact Stepped.one F rfl R' (R'.frame hf) fun _ => ⟨rfl, by rw [hc]; rfl⟩
  | popFront i n =>
    rcases hpop : (bufs i).popFront n h with ⟨k, b1, h1⟩
    simp only [Op.exec, hpop] at heq
    cases heq
    obtain ⟨R', hf, rfl, hc⟩ := (F.focus i).popFront hpop
    exact Stepped.one F rfl R' (R'.frame hf) fun _ => ⟨rfl, by rw [hc]; rfl⟩
  | popBack i n =>
    rcases hpop : (bufs i).popBack n h with ⟨k, b1, h1⟩
    simp only [Op.exec, hpop] at heq
    cases heq
    obtain ⟨R', hf, rfl, hc⟩ := (F.focus i).popBack hpop
    exact Stepped.one F rfl R' (R'.frame hf) fun _ => ⟨rfl, by rw [hc]; rfl⟩
  | cut1 i =>
    rcases hcut : (bufs i).cut1 h with ⟨c, b1, h1⟩
    simp only [Op.exec, hcut] at heq
    cases heq
    obtain ⟨R', hf, hout⟩ := (F.focus i).cut1 hcut
    refine Stepped.one F rfl R' (R'.frame hf) fun hp => ?_
    obtain ⟨rfl, hc⟩ := hout hp
    exact ⟨rfl, by rw [hc]; rfl⟩
  | cutn i out hne n =>
    rcases hcut : IOBuf.cutn n (bufs i) (bufs out) h with ⟨k, b1, o1, h1⟩
    simp only [Op.exec, hcut] at heq
    cases heq
    obtain ⟨R', ho, hf, rfl, hcb, hco⟩ := (F.focus₂ hne).cutn (F.wf out) hcut
    refine Stepped.two F hne rfl R' ho
      ((R'.frame hf).mono fun r hr => mem_add.2 (.inr hr)) fun _ => ⟨rfl, ?_⟩
    rw [hcb, hco]
    rfl
  | cutnRaw i n =>
    rcases hcut : (bufs i).cutnRaw n h with ⟨k, bs, b1, h1⟩
    simp only [Op.exec, hcut] at heq
    cases heq
    obtain ⟨R', hf, rfl, rfl, hc⟩ := (F.focus i).cutnRaw hcut
    exact Stepped.one F rfl R' (R'.frame hf) fun _ => ⟨rfl, by rw [hc]; rfl⟩
  | clear i =>
    rcases hclear : (bufs i).clear h with ⟨b1, h1⟩
    simp only [Op.exec, hclear] at heq
    cases heq
    obtain ⟨R', hf, rfl⟩ := (F.focus i).clear hclear
    exact Stepped.one F rfl R' (R'.frame hf) fun _ => ⟨rfl, rfl⟩

end

end Family

/-! ## Runs -/

/-- A thread that has not allocated anything yet: `mem` is what its memory
happens to hold, `oom` which allocations will fail. -/
def Heap.init (mem : Ptr → ℕ → Byte) (oom : Ptr → Bool) : Heap where
  blk p := ⟨0, 0, 0, NULL, mem p⟩
  brk := 1
  oom := oom
  blockHead := NULL
  numBlocks := 0
  registered := false

theorem HeapInv.init (mem : Ptr → ℕ → Byte) (oom : Ptr → Bool) :
    HeapInv (Heap.init mem oom) [] 0 0 (fun _ => none) where
  chain := Lib.chain_nil.mpr rfl
  num := rfl
  nodup := by simp
  count p := by simp [Heap.init, owners]
  brk := Nat.one_pos
  live p hp := absurd hp (lt_irrefl _)
  bound := by simp
  held := by simp

section Run

variable {ι : Type} [DecidableEq ι]

def run : List (Op ι) → (ι → IOBuf) → Heap → List Result × (ι → IOBuf) × Heap
  | [], bufs, h => ([], bufs, h)
  | op :: ops, bufs, h =>
      let (res, bufs₁, h₁) := op.exec bufs h
      let (rest, bufs₂, h₂) := run ops bufs₁ h₁
      (res :: rest, bufs₂, h₂)

def SpecRun (oom : Ptr → Bool) :
    List (Op ι) → (ι → List Byte) → List Result → (ι → List Byte) → Prop
  | [], s, rs, s' => rs = [] ∧ s' = s
  | op :: ops, s, rs, s' =>
      ∃ res rest s₁, rs = res :: rest ∧ op.Spec oom s res s₁ ∧ SpecRun oom ops s₁ rest s'

variable [Fintype ι] {Y : Multiset BlockRef} {K : Multiset Ptr} {S : Ptr → Option ℕ}

theorem FamInv.run : ∀ {ops : List (Op ι)} {bufs : ι → IOBuf} {h : Heap} {l : List Ptr},
    FamInv true h l bufs Y K S → ∀ {rs : List Result} {bufs' : ι → IOBuf} {h' : Heap},
      IOBuf.run ops bufs h = (rs, bufs', h') →
      (∃ l', FamInv true h' l' bufs' Y K S) ∧
        SpecRun h.oom ops (contents h bufs) rs (contents h' bufs')
  | [], bufs, h, l, F, rs, bufs', h', heq => by
    obtain ⟨rfl, rfl, rfl⟩ := heq
    exact ⟨⟨l, F⟩, rfl, rfl⟩
  | op :: ops, bufs, h, l, F, rs, bufs', h', heq => by
    obtain ⟨res, bufs1, h1, hexec⟩ : ∃ res bufs1 h1, op.exec bufs h = (res, bufs1, h1) :=
      ⟨_, _, _, rfl⟩
    rcases hrest : IOBuf.run ops bufs1 h1 with ⟨rest, bufs2, h2⟩
    simp only [IOBuf.run, hexec, hrest] at heq
    cases heq
    obtain ⟨l1, F1, hf, -, hspec⟩ := F.exec hexec
    obtain ⟨F2, hrun⟩ := FamInv.run F1 hrest
    rw [hf.oom] at hrun
    exact ⟨F2, res, rest, contents h1 bufs1, rfl, hspec rfl, hrun⟩

/-- **`IOBuf` refines a byte string.** After any sequence of operations on any
family of buffers, every buffer is in a well-formed view, `length()` and
`empty()` agree with its bytes, and the bytes and the results are those of
the same sequence on byte strings. -/
theorem run_refines (mem : Ptr → ℕ → Byte) (oom : Ptr → Bool) (ops : List (Op ι)) :
    let W := IOBuf.run ops (fun _ => IOBuf.new) (Heap.init mem oom)
    (∀ i, (W.2.1 i).WF true ∧ (W.2.1 i).length = (contents W.2.2 W.2.1 i).length ∧
        ((W.2.1 i).empty = true ↔ contents W.2.2 W.2.1 i = [])) ∧
      SpecRun oom ops (fun _ => []) W.1 (contents W.2.2 W.2.1) := by
  intro W
  have F₀ : FamInv (ι := ι) true (.init mem oom) [] (fun _ => .new) 0 0 (fun _ => none) :=
    ⟨fun _ => wf_new, (HeapInv.init mem oom).of_eq (by simp [famRefs])⟩
  have hW : IOBuf.run ops (fun _ => IOBuf.new) (Heap.init mem oom) = (W.1, W.2.1, W.2.2) := rfl
  obtain ⟨⟨l, F⟩, hrun⟩ := F₀.run hW
  exact ⟨fun i => ⟨F.wf i, (F.focus i).length, (F.focus i).empty_iff⟩, hrun⟩

end Run

end Eabase.IOBuf
