import Mathlib.Data.Nat.Log
import Eabase.Var.Percentile

/-!
# The interval of a latency

`get_interval_index` with the bit tricks of `log2` and `ones32` on 32 bits. They
compute the logarithm to the base 2, rounded up, so that the intervals follow
each other: what is in a lower interval is smaller.
-/

namespace Eabase.Var.Percentile

open BitVec (ofInt ofNat toNat_ofNat toNat_sub)

/-! ## The words -/

/-- `ones32`. -/
def ones32 (x : BitVec 32) : BitVec 32 :=
  let x := x - ((x >>> 1) &&& 0x55555555#32)
  let x := ((x >>> 2) &&& 0x33333333#32) + (x &&& 0x33333333#32)
  let x := ((x >>> 4) + x) &&& 0x0f0f0f0f#32
  let x := x + (x >>> 8)
  let x := x + (x >>> 16)
  x &&& 0x0000003f#32

/-- The five shifts of `log2`, after which every bit below the highest one is set. -/
def smear (x : BitVec 32) : BitVec 32 :=
  let x := x ||| (x >>> 1)
  let x := x ||| (x >>> 2)
  let x := x ||| (x >>> 4)
  let x := x ||| (x >>> 8)
  x ||| (x >>> 16)

/-- `log2` on the `uint32_t`; `y` is signed, its negation wraps around. -/
def log2Word (x : BitVec 32) : BitVec 32 :=
  let y := x &&& (x - 1)
  let y := y ||| -y
  let y := y.sshiftRight 31
  ones32 (smear x) - 1 - y

/-- The bits of `y` say whether one of `m` bits of `x` is set. -/
def Covers (m : ℕ) (y x : BitVec 32) : Prop :=
  ∀ i, y.getLsbD i = true ↔ ∃ d < m, x.getLsbD (i + d) = true

theorem covers_self (x : BitVec 32) : Covers 1 x x := by
  intro i
  constructor
  · intro h
    exact ⟨0, zero_lt_one, h⟩
  · rintro ⟨d, hd, h⟩
    rwa [Nat.lt_one_iff.1 hd] at h

open BitVec

theorem Covers.double {m : ℕ} {x y : BitVec 32} (h : Covers m y x) :
    Covers (m + m) (y ||| (y >>> m)) x := by
  intro i
  rw [getLsbD_or, getLsbD_ushiftRight, Bool.or_eq_true, h i, h (m + i)]
  constructor
  · rintro (⟨d, hd, hbit⟩ | ⟨d, hd, hbit⟩)
    · exact ⟨d, Nat.lt_add_right m hd, hbit⟩
    · refine ⟨m + d, Nat.add_lt_add_left hd m, ?_⟩
      rwa [add_left_comm, ← add_assoc]
  · rintro ⟨d, hd, hbit⟩
    by_cases hlt : d < m
    · exact .inl ⟨d, hlt, hbit⟩
    · obtain ⟨e, rfl⟩ := Nat.exists_eq_add_of_le (not_lt.1 hlt)
      refine .inr ⟨e, Nat.lt_of_add_lt_add_left hd, ?_⟩
      rwa [add_comm m i, add_assoc]

theorem smear_covers (x : BitVec 32) : Covers 32 (smear x) x :=
  (covers_self x).double.double.double.double.double

theorem smear_eq (x : BitVec 32) : smear x = ofNat 32 (2 ^ x.toNat.size - 1) := by
  apply eq_of_getLsbD_eq
  intro i hi
  rw [getLsbD_ofNat, Nat.testBit_two_pow_sub_one, Bool.eq_iff_iff, smear_covers x i, Bool.and_eq_true,
    decide_eq_true_eq, decide_eq_true_eq, and_iff_right hi, Nat.lt_size]
  constructor
  · rintro ⟨d, _, hbit⟩
    have hge : 2 ^ (i + d) ≤ x.toNat := Nat.ge_two_pow_of_testBit hbit
    exact (Nat.pow_le_pow_right Nat.zero_lt_two (Nat.le_add_right i d)).trans hge
  · intro hge
    obtain ⟨j, hj, hbit⟩ := Nat.exists_ge_and_testBit_of_ge_two_pow hge
    obtain ⟨d, rfl⟩ := Nat.exists_eq_add_of_le hj
    have hlt : i + d < 32 := lt_of_getLsbD hbit
    exact ⟨d, (Nat.le_add_left d i).trans_lt hlt, hbit⟩

theorem ones32_smeared (k : Fin 33) : ones32 (ofNat 32 (2 ^ k.val - 1)) = ofNat 32 k.val := by
  revert k
  decide

theorem ones32_smear (x : BitVec 32) : ones32 (smear x) = ofNat 32 x.toNat.size := by
  have hsize : x.toNat.size < 33 := Nat.lt_succ_of_le (Nat.size_le.2 x.isLt)
  rw [smear_eq]
  exact ones32_smeared ⟨x.toNat.size, hsize⟩

theorem sign_eq (v : BitVec 32) : (v ||| -v).sshiftRight 31 = if v = 0#32 then 0#32 else -1#32 := by
  split
  next hzero =>
    rw [hzero]
    decide
  next hne =>
    have hmsb : (v ||| -v).msb = true := by
      rw [msb_or]
      by_cases hmin : v = intMin 32
      · rw [hmin]
        decide
      · rw [msb_neg_of_ne_intMin_of_ne_zero hmin hne]
        cases v.msb <;> rfl
    apply eq_of_getLsbD_eq
    intro i hi
    rw [getLsbD_sshiftRight, hmsb]
    have hones : (-1#32).getLsbD i = true := by
      rw [neg_one_eq_allOnes, getLsbD_allOnes]
      exact decide_eq_true hi
    rw [hones]
    by_cases hzero : 31 + i < 32
    · have hi0 : i = 0 := by lia
      have htop : (v ||| -v).getLsbD 31 = true := by rwa [msb_eq_getLsbD_last] at hmsb
      rw [hi0]
      simpa using htop
    · simp [hzero, hi]

theorem log2Word_eq {x : BitVec 32} (hx : x ≠ 0#32) : (log2Word x).toNat = log2 x.toNat := by
  have hpos : x.toNat ≠ 0 := fun h => hx (BitVec.eq_of_toNat_eq h)
  have hsize : x.toNat.size ≤ 32 := Nat.size_le.2 x.isLt
  have hsize' : 0 < x.toNat.size := Nat.size_pos.2 (pos_of_ne_zero hpos)
  have hpred : (x - 1#32).toNat = x.toNat - 1 := by
    have hlt := x.isLt
    rw [toNat_sub]
    simp only [toNat_ofNat]
    lia
  have hand : x &&& (x - 1#32) = 0#32 ↔ x.toNat &&& (x.toNat - 1) = 0 := by
    rw [← BitVec.toNat_inj, BitVec.toNat_and, hpred]
    rfl
  have hword : log2Word x = ofNat 32 x.toNat.size - 1#32
      - (if x &&& (x - 1#32) = 0#32 then 0#32 else -1#32) := by
    rw [← sign_eq, ← ones32_smear]
    rfl
  rw [hword, log2]
  by_cases hzero : x &&& (x - 1#32) = 0#32
  · rw [if_pos hzero, if_pos (hand.1 hzero)]
    simp only [toNat_sub, toNat_ofNat]
    lia
  · rw [if_neg hzero, if_neg (fun h => hzero (hand.2 h))]
    simp only [toNat_sub, BitVec.toNat_neg, toNat_ofNat]
    lia

theorem getIntervalIndex_word {x : ℤ} (hlow : 2 < x) (hhigh : x ≤ 2 ^ 32 - 1) :
    (getIntervalIndex x).1 = (log2Word (ofInt 32 x)).toNat - 1 := by
  have htoNat : (ofInt 32 x).toNat = x.toNat := by
    rw [BitVec.toNat_ofInt]
    lia
  have hne : ofInt 32 x ≠ 0#32 := by
    intro h
    rw [h] at htoNat
    have hzero : x.toNat = 0 := htoNat.symm
    lia
  rw [log2Word_eq hne, htoNat, getIntervalIndex, if_neg (not_le.2 hlow), if_neg (not_lt.2 hhigh)]

/-! ## The intervals follow each other -/

theorem log2_eq_clog {x : ℕ} (hx : 0 < x) : log2 x = Nat.clog 2 x := by
  have hlt : x < 2 ^ x.size := Nat.lt_size_self x
  have hpos : 0 < x.size := Nat.size_pos.2 hx
  have hge : 2 ^ (x.size - 1) ≤ x := Nat.lt_size.1 (Nat.sub_one_lt_of_lt hpos)
  unfold log2
  split
  next hzero =>
    obtain ⟨k, rfl⟩ := (Nat.and_sub_one_eq_zero_iff_isPowerOfTwo hx.ne').1 hzero
    rw [Nat.clog_pow 2 k Nat.one_lt_two, Nat.size_pow]
    rfl
  next hnz =>
    have hne : 2 ^ (x.size - 1) ≠ x := by
      intro heq
      exact hnz ((Nat.and_sub_one_eq_zero_iff_isPowerOfTwo hx.ne').2 ⟨_, heq.symm⟩)
    apply le_antisymm
    · have hclog := (Nat.lt_clog_iff_pow_lt Nat.one_lt_two).2 (lt_of_le_of_ne hge hne)
      lia
    · exact Nat.clog_le_of_le_pow hlt.le

theorem indexOf_mono : ∀ ⦃x y : ℤ⦄, x ≤ y → indexOf x ≤ indexOf y := by
  intro x y hxy
  show (getIntervalIndex x).1 ≤ (getIntervalIndex y).1
  by_cases hx2 : x ≤ 2
  · rw [getIntervalIndex, if_pos hx2]
    exact Nat.zero_le _
  have hy2 : ¬y ≤ 2 := fun hy => hx2 (hxy.trans hy)
  by_cases hbig : y > 2 ^ 32 - 1
  · have hy : (getIntervalIndex y).1 = 31 := by rw [getIntervalIndex, if_neg hy2, if_pos hbig]
    rw [hy]
    exact Nat.le_of_lt_succ (getIntervalIndex_lt x)
  · have hx : 0 < x.toNat := by lia
    have hle : x.toNat ≤ y.toNat := Int.toNat_le_toNat hxy
    have hxbig : ¬x > 2 ^ 32 - 1 := fun h => hbig (h.trans_le hxy)
    rw [getIntervalIndex, getIntervalIndex, if_neg hx2, if_neg hy2, if_neg hbig, if_neg hxbig]
    rw [log2_eq_clog hx, log2_eq_clog (hx.trans_le hle)]
    exact Nat.sub_le_sub_right (Nat.clog_mono_right 2 hle) 1

/-- A latency is stored as it is, up to the largest `uint32_t`. -/
theorem stored_eq (x : ℤ) : stored x = min x (2 ^ 32 - 1) := by
  unfold stored getIntervalIndex
  split
  next h =>
    exact (min_eq_left (by lia)).symm
  split
  next h =>
    exact (min_eq_right (by lia)).symm
  next h =>
    exact (min_eq_left (by lia)).symm

theorem stored_le {x y : ℤ} (h : indexOf x < indexOf y) : stored x ≤ stored y := by
  have hxy : x < y := lt_of_not_ge fun hyx => absurd (indexOf_mono hyx) (not_le.2 h)
  rw [stored_eq, stored_eq]
  exact min_le_min_right _ hxy.le

end Eabase.Var.Percentile
