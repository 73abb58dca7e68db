import Mathlib.Data.BitVec
import Mathlib.Data.List.Range

/-!
# Bit arrays

`bit_array.h`: bits kept in an array of 64-bit words, of which the last need not
be full. The bits of the last word behind the end are never cleared.

`bit_array_first1` looks for a bit from `begin` on. When `begin` lies inside the
last word, and that word has no bit from `begin` on, the word is looked at a
second time, and then from its first bit on.
-/

namespace Eabase.Utility.BitArray

open List

/-- A `uint64_t` of the array. -/
abbrev Word : Type := BitVec 64

/-- `__builtin_ctzl`. -/
def ctz (v : Word) : ℕ :=
  ((List.range 64).find? fun i => v.getLsbD i).getD 64

section

variable (array : List Word)

/-- `bit_array_clear`. -/
def bitArrayClear (nbit : ℕ) : List Word :=
  let off := nbit >>> 6
  let array := List.replicate off 0 ++ array.drop off
  let last := off <<< 6
  if last ≠ nbit then array.modify off fun w => w &&& ~~~((1#64 <<< (nbit - last)) - 1#64) else array

/-- `bit_array_set`. -/
def bitArraySet (i : ℕ) : List Word :=
  let off := i >>> 6
  array.modify off fun w => w ||| 1#64 <<< (i - off <<< 6)

/-- `bit_array_unset`. -/
def bitArrayUnset (i : ℕ) : List Word :=
  let off := i >>> 6
  array.modify off fun w => w &&& ~~~(1#64 <<< (i - off <<< 6))

/-- `bit_array_first1`, from the word `off1` on. -/
def firstFrom (off1 «end» : ℕ) : ℕ :=
  let off2 := «end» >>> 6
  match (List.range' off1 (off2 - off1)).find? fun i => array.getD i 0 ≠ 0 with
  | some i => i * 64 + ctz (array.getD i 0)
  | none =>
    let last := off2 <<< 6
    if last ≠ «end» ∧ array.getD off2 0 ≠ 0 then min (last + ctz (array.getD off2 0)) «end» else «end»

/-- `bit_array_first1`. -/
def bitArrayFirst1 (begin «end» : ℕ) : ℕ :=
  let off1 := begin >>> 6
  let first := off1 <<< 6
  if first ≠ begin then
    let v := array.getD off1 0 &&& ~~~((1#64 <<< (begin - first)) - 1#64)
    if v ≠ 0 then min (first + ctz v) «end» else firstFrom array (off1 + 1) «end»
  else firstFrom array off1 «end»

end

/-! ## Bits -/

/-- The `i`-th bit. -/
def bit (array : List Word) (i : ℕ) : Bool :=
  (array.getD (i / 64) 0).getLsbD (i % 64)

variable {array : List Word} {i j nbit : ℕ} {k : ℕ} {v : Word} {q r : ℕ}

theorem shiftRight_six (i : ℕ) : i >>> 6 = i / 64 :=
  Nat.shiftRight_eq_div_pow i 6

theorem shiftLeft_six (i : ℕ) : i <<< 6 = i * 64 :=
  Nat.shiftLeft_eq i 6

theorem sub_shift (i : ℕ) : i - (i >>> 6) <<< 6 = i % 64 := by
  rw [shiftRight_six, shiftLeft_six]
  lia

theorem getLsbD_one_shiftLeft (hk : k < 64) (i : ℕ) : (1#64 <<< k).getLsbD i = decide (i = k) := by
  show (BitVec.twoPow 64 k).getLsbD i = decide (i = k)
  rw [BitVec.getLsbD_twoPow, decide_eq_true hk, Bool.true_and, decide_eq_decide, eq_comm]

theorem getLsbD_mask (hk : k < 64) (i : ℕ) : ((1#64 <<< k) - 1#64).getLsbD i = decide (i < k) := by
  have hpow : 2 ^ k < 2 ^ 64 := Nat.pow_lt_pow_right (by decide) hk
  have hpos : 0 < 2 ^ k := Nat.two_pow_pos k
  have hval : ((1#64 <<< k) - 1#64).toNat = 2 ^ k - 1 := by
    rw [BitVec.toNat_sub_of_le]
    · rw [BitVec.toNat_shiftLeft, BitVec.toNat_ofNat, Nat.shiftLeft_eq]
      lia
    · rw [BitVec.le_def, BitVec.toNat_shiftLeft, BitVec.toNat_ofNat, Nat.shiftLeft_eq]
      lia
  rw [← BitVec.testBit_toNat, hval, Nat.testBit_two_pow_sub_one]

theorem eq_zero_iff : v = 0 ↔ ∀ i < 64, v.getLsbD i = false := by
  constructor
  · rintro rfl i -
    exact BitVec.getLsbD_zero
  · intro h
    apply BitVec.eq_of_getLsbD_eq
    intro i hi
    rw [h i hi]
    exact BitVec.getLsbD_zero.symm

theorem ctz_spec (hv : v ≠ 0) :
    ctz v < 64 ∧ v.getLsbD (ctz v) = true ∧ ∀ i < ctz v, v.getLsbD i = false := by
  unfold ctz
  cases hfind : (range 64).find? fun i => v.getLsbD i with
  | none =>
    rw [find?_range_eq_none] at hfind
    refine absurd (eq_zero_iff.2 ?_) hv
    intro i hi
    have hbit := hfind i hi
    rwa [Bool.not_eq_true'] at hbit
  | some i =>
    obtain ⟨hbit, hi, hbefore⟩ := find?_range_eq_some.1 hfind
    refine ⟨mem_range.1 hi, hbit, ?_⟩
    intro j hj
    have := hbefore j hj
    rwa [Bool.not_eq_true'] at this

theorem bit_modify (f : Word → Word) (hi : i / 64 < array.length) (j : ℕ) :
    bit (array.modify (i / 64) f) j =
      if j / 64 = i / 64 then (f (array.getD (i / 64) 0)).getLsbD (j % 64) else bit array j := by
  unfold bit
  simp only [getD_eq_getElem?_getD, getElem?_modify]
  by_cases h : j / 64 = i / 64
  · simp only [h, if_true, getElem?_eq_getElem hi, Option.map_eq_map, Option.map_some, Option.getD_some]
  · simp only [h, Ne.symm h, if_false, Option.map_eq_map, Option.map_id']

theorem bit_set (hi : i / 64 < array.length) (j : ℕ) : bit (bitArraySet array i) j
      = (decide (j = i) || bit array j) := by
  simp only [bitArraySet]
  rw [sub_shift, shiftRight_six, bit_modify _ hi]
  split
  case isTrue h =>
    rw [BitVec.getLsbD_or, getLsbD_one_shiftLeft (Nat.mod_lt i (by decide)), Bool.or_comm, bit, h]
    congr 1
    rw [decide_eq_decide]
    lia
  case isFalse h =>
    have hne : j ≠ i := fun hji => h (by rw [hji])
    rw [decide_eq_false hne, Bool.false_or]

theorem bit_unset (hi : i / 64 < array.length) (j : ℕ) :
    bit (bitArrayUnset array i) j = (!decide (j = i) && bit array j) := by
  simp only [bitArrayUnset]
  rw [sub_shift, shiftRight_six, bit_modify _ hi]
  split
  case isTrue h =>
    rw [BitVec.getLsbD_and, BitVec.getLsbD_not, getLsbD_one_shiftLeft (Nat.mod_lt i (by decide)),
      decide_eq_true (Nat.mod_lt j (by decide)), Bool.true_and, Bool.and_comm, bit, h]
    congr 2
    rw [decide_eq_decide]
    lia
  case isFalse h =>
    have hne : j ≠ i := fun hji => h (by rw [hji])
    rw [decide_eq_false hne, Bool.not_false, Bool.true_and]

@[simp] theorem length_set (array : List Word) (i : ℕ) : (bitArraySet array i).length = array.length :=
  length_modify _ _ _

@[simp] theorem length_unset (array : List Word) (i : ℕ) : (bitArrayUnset array i).length
      = array.length :=
  length_modify _ _ _

/-- The array has room for `nbit` bits. -/
def Holds (array : List Word) (nbit : ℕ) : Prop :=
  array.length = (nbit + 63) / 64

theorem Holds.lt (h : Holds array nbit) (hi : i < nbit) : i / 64 < array.length := by
  rw [h]
  lia

theorem Holds.clear (h : Holds array nbit) : Holds (bitArrayClear array nbit) nbit := by
  have hlen : (replicate (nbit >>> 6) (0 : Word) ++ array.drop (nbit >>> 6)).length = array.length := by
    rw [length_append, length_replicate, length_drop, h, shiftRight_six]
    lia
  simp only [bitArrayClear]
  split
  · rw [Holds, length_modify, hlen, h]
  · rw [Holds, hlen, h]

theorem bit_clear (h : Holds array nbit) (hi : i < nbit) : bit (bitArrayClear array nbit) i = false := by
  have hzero : i / 64 < nbit / 64 →
      bit (replicate (nbit / 64) (0 : Word) ++ array.drop (nbit / 64)) i = false := by
    intro hlt
    rw [bit, getD_eq_getElem?_getD, getElem?_append_left (by rw [length_replicate]; exact hlt),
      getElem?_replicate_of_lt hlt]
    exact BitVec.getLsbD_zero
  simp only [bitArrayClear]
  rw [sub_shift, shiftRight_six, shiftLeft_six]
  split
  case isTrue hlast =>
    have hroom : nbit / 64 < (replicate (nbit / 64) (0 : Word) ++ array.drop (nbit / 64)).length := by
      rw [length_append, length_replicate, length_drop, h]
      lia
    rw [bit_modify _ hroom]
    split
    case isTrue hword =>
      have hlow : i % 64 < nbit % 64 := by lia
      rw [BitVec.getLsbD_and, BitVec.getLsbD_not, getLsbD_mask (Nat.mod_lt nbit (by decide)),
        decide_eq_true hlow,
        Bool.not_true, Bool.and_false, Bool.and_false]
    case isFalse hword =>
      apply hzero
      lia
  case isFalse hlast =>
    apply hzero
    lia

/-! ## The first bit -/

theorem ctz_eq (hk : v.getLsbD k = true) (hbefore : ∀ i < k, v.getLsbD i = false) : ctz v = k := by
  have hv : v ≠ 0 := by
    rintro rfl
    exact Bool.false_ne_true (BitVec.getLsbD_zero.symm.trans hk)
  obtain ⟨-, hbit, hfirst⟩ := ctz_spec hv
  rcases lt_trichotomy (ctz v) k with hlt | heq | hgt
  · rw [hbefore _ hlt] at hbit
    cases hbit
  · exact heq
  · rw [hfirst _ hgt] at hk
    cases hk

theorem getLsbD_getD (array : List Word) (q : ℕ) (hr : r < 64) :
    (array.getD q 0).getLsbD r = bit array (q * 64 + r) := by
  have hdiv : (q * 64 + r) / 64 = q := by lia
  have hmod : (q * 64 + r) % 64 = r := by lia
  rw [bit, hdiv, hmod]

theorem word_eq_zero : array.getD q 0 = 0 ↔ ∀ i, i / 64 = q → bit array i = false := by
  rw [eq_zero_iff]
  constructor
  · intro h i hi
    rw [bit, hi]
    exact h _ (Nat.mod_lt i (by decide))
  · intro h r hr
    rw [getLsbD_getD array q hr]
    apply h
    lia

theorem bit_ctz (h : array.getD q 0 ≠ 0) : bit array (q * 64 + ctz (array.getD q 0)) = true := by
  obtain ⟨hlt, hbit, -⟩ := ctz_spec h
  rw [← getLsbD_getD array q hlt]
  exact hbit

variable {off1 begin «end» : ℕ}

theorem ctz_of_first (hj : bit array j = true)
    (hbefore : ∀ i, j / 64 * 64 ≤ i → i < j → bit array i = false) :
    ctz (array.getD (j / 64) 0) = j % 64 := by
  apply ctz_eq hj
  intro r hr
  have hlt : j % 64 < 64 := Nat.mod_lt j (by decide)
  rw [getLsbD_getD array _ (by lia)]
  apply hbefore
  · lia
  · lia

theorem firstFrom_of_bit (hoff : off1 * 64 ≤ j) (hend : j < «end») (hj : bit array j = true)
    (hbefore : ∀ i, off1 * 64 ≤ i → i < j → bit array i = false) : firstFrom array off1 «end» = j := by
  have hctz := ctz_of_first hj fun i hi => hbefore i (by lia)
  have hword : array.getD (j / 64) 0 ≠ 0 := fun hzero => by
    rw [word_eq_zero.1 hzero j rfl] at hj
    cases hj
  have hzero : ∀ q, off1 ≤ q → q < j / 64 → array.getD q 0 = 0 := by
    intro q hq hlt
    rw [word_eq_zero]
    intro i hi
    apply hbefore
    · lia
    · lia
  simp only [firstFrom]
  rw [shiftRight_six, shiftLeft_six]
  by_cases hlast : j / 64 < «end» / 64
  · have hfind : (range' off1 («end» / 64 - off1)).find? (fun i => decide (array.getD i 0 ≠ 0))
      = some (j / 64) := by
      rw [find?_range'_eq_some]
      refine ⟨decide_eq_true hword, mem_range'_1.2 ⟨by lia, by lia⟩, ?_⟩
      intro q hq hlt
      rw [Bool.not_eq_true', decide_eq_false_iff_not, not_not]
      exact hzero q hq hlt
    rw [hfind]
    show j / 64 * 64 + ctz (array.getD (j / 64) 0) = j
    lia
  · have heq : «end» / 64 = j / 64 := by lia
    have hfind : (range' off1 («end» / 64 - off1)).find? (fun i => decide (array.getD i 0 ≠ 0))
        = none := by
      rw [find?_range'_eq_none]
      intro q hq hlt
      rw [Bool.not_eq_true', decide_eq_false_iff_not, not_not]
      exact hzero q hq (by lia)
    rw [hfind]
    show (if _ then _ else _) = j
    rw [heq, if_pos ⟨by lia, hword⟩]
    lia

theorem firstFrom_of_none (hoff : off1 ≤ «end» / 64)
    (hnone : ∀ i, off1 * 64 ≤ i → i < «end» → bit array i = false) :
    firstFrom array off1 «end» = «end» := by
  have hfind : (range' off1 («end» / 64 - off1)).find? (fun i => decide (array.getD i 0 ≠ 0)) = none := by
    rw [find?_range'_eq_none]
    intro q hq hlt
    rw [Bool.not_eq_true', decide_eq_false_iff_not, not_not, word_eq_zero]
    intro i hi
    apply hnone
    · lia
    · lia
  simp only [firstFrom]
  rw [shiftRight_six, shiftLeft_six, hfind]
  show (if _ then _ else _) = «end»
  split
  case isTrue h =>
    apply min_eq_right
    by_contra hlt
    have hbit := bit_ctz h.2
    rw [hnone _ (by lia) (by lia)] at hbit
    cases hbit
  case isFalse => rfl

/-- The bits of the word of `begin` from `begin` on. -/
def masked (array : List Word) (begin : ℕ) : Word :=
  array.getD (begin / 64) 0 &&& ~~~((1#64 <<< (begin % 64)) - 1#64)

theorem getLsbD_masked (array : List Word) (begin : ℕ) (hr : r < 64) :
    (masked array begin).getLsbD r = (bit array (begin / 64 * 64 + r) && decide (begin % 64 ≤ r)) := by
  have hmod : begin % 64 < 64 := Nat.mod_lt begin (by decide)
  rw [masked, BitVec.getLsbD_and, BitVec.getLsbD_not, getLsbD_mask hmod, getLsbD_getD array _ hr,
    decide_eq_true hr,
    Bool.true_and, ← decide_not, decide_eq_decide.2 not_lt]

theorem masked_eq_zero : masked array begin = 0 ↔ ∀ i, i / 64 = begin / 64 → begin ≤ i →
    bit array i = false := by
  rw [eq_zero_iff]
  constructor
  · intro h i hi hle
    have hbit := h (i % 64) (Nat.mod_lt i (by decide))
    have heq : begin / 64 * 64 + i % 64 = i := by lia
    rwa [getLsbD_masked _ _ (Nat.mod_lt i (by decide)), heq, decide_eq_true (by lia),
      Bool.and_true] at hbit
  · intro h r hr
    rw [getLsbD_masked _ _ hr, Bool.and_eq_false_iff, decide_eq_false_iff_not]
    by_cases hlow : begin % 64 ≤ r
    · left
      apply h
      · lia
      · lia
    · exact .inr hlow

theorem ctz_masked (hword : j / 64 = begin / 64) (hbegin : begin ≤ j) (hj : bit array j = true)
    (hbefore : ∀ i, begin ≤ i → i < j → bit array i = false) : ctz (masked array begin) = j % 64 := by
  have hlt : j % 64 < 64 := Nat.mod_lt j (by decide)
  have heq : begin / 64 * 64 + j % 64 = j := by lia
  apply ctz_eq
  · rw [getLsbD_masked _ _ hlt, heq, hj, decide_eq_true (by lia)]
    rfl
  · intro r hr
    rw [getLsbD_masked _ _ (by lia), Bool.and_eq_false_iff, decide_eq_false_iff_not]
    by_cases hlow : begin % 64 ≤ r
    · left
      apply hbefore
      · lia
      · lia
    · exact .inr hlow

theorem first1_eq (array : List Word) (begin «end» : ℕ) : bitArrayFirst1 array begin «end» =
    if begin % 64 = 0 then firstFrom array (begin / 64) «end»
    else if masked array begin = 0 then firstFrom array (begin / 64 + 1) «end»
    else min (begin / 64 * 64 + ctz (masked array begin)) «end» := by
  have hfirst : begin / 64 * 64 ≠ begin ↔ ¬ begin % 64 = 0 := by lia
  simp only [bitArrayFirst1]
  rw [sub_shift, shiftRight_six, shiftLeft_six]
  by_cases hmod : begin % 64 = 0
  · rw [if_neg (fun h => hfirst.1 h hmod), if_pos hmod]
  · rw [if_pos (hfirst.2 hmod), if_neg hmod, ite_not]
    rfl

theorem first1_of_bit (hbegin : begin ≤ j) (hend : j < «end») (hj : bit array j = true)
    (hbefore : ∀ i, begin ≤ i → i < j → bit array i = false) : bitArrayFirst1 array begin «end» = j := by
  rw [first1_eq]
  split
  · apply firstFrom_of_bit (by lia) hend hj
    intro i hi
    exact hbefore i (by lia)
  split
  case isTrue hzero =>
    have hword : j / 64 ≠ begin / 64 := by
      intro hword
      rw [masked_eq_zero.1 hzero j hword hbegin] at hj
      cases hj
    apply firstFrom_of_bit (by lia) hend hj
    intro i hi
    exact hbefore i (by lia)
  case isFalse hne =>
    have hword : j / 64 = begin / 64 := by
      by_contra hword
      apply hne
      rw [masked_eq_zero]
      intro i hi hle
      exact hbefore i hle (by lia)
    rw [ctz_masked hword hbegin hj hbefore]
    lia

/-- The last word is looked at a second time, and it has a bit before `begin`. -/
def Rereads (array : List Word) (begin «end» : ℕ) : Prop :=
  begin % 64 ≠ 0 ∧ «end» % 64 ≠ 0 ∧ begin / 64 = «end» / 64 ∧
    (∀ i, i / 64 = begin / 64 → begin ≤ i → bit array i = false) ∧ ∃ i, i / 64 = begin / 64 ∧
      bit array i = true

theorem first1_of_none (hbegin : begin ≤ «end») (hnone : ∀ i, begin ≤ i → i < «end» → bit array i = false)
    (hreread : ¬Rereads array begin «end») : bitArrayFirst1 array begin «end» = «end» := by
  rw [first1_eq]
  split
  · apply firstFrom_of_none (by lia)
    intro i hi
    exact hnone i (by lia)
  case isFalse hmod =>
  split
  case isTrue hzero =>
    by_cases hword : begin / 64 < «end» / 64
    · apply firstFrom_of_none (by lia)
      intro i hi
      exact hnone i (by lia)
    · have hempty : «end» % 64 ≠ 0 → array.getD («end» / 64) 0 = 0 := by
        intro hend
        rw [word_eq_zero]
        intro i hi
        by_contra hbit
        apply hreread
        refine ⟨hmod, hend, by lia, masked_eq_zero.1 hzero, i, by lia, ?_⟩
        exact Bool.eq_true_of_not_eq_false hbit
      simp only [firstFrom]
      rw [shiftRight_six, shiftLeft_six, Nat.sub_eq_zero_of_le (by lia)]
      show (if _ then _ else _) = «end»
      rw [if_neg]
      rintro ⟨hlast, hne⟩
      exact hne (hempty (by lia))
  case isFalse hne =>
    obtain ⟨hlt, hbit, -⟩ := ctz_spec hne
    rw [getLsbD_masked _ _ hlt, Bool.and_eq_true, decide_eq_true_eq] at hbit
    apply min_eq_right
    by_contra hlow
    rw [hnone _ (by lia) (by lia)] at hbit
    exact Bool.false_ne_true hbit.1

theorem first1_of_reread (hbegin : begin ≤ «end») (h : Rereads array begin «end») :
    bitArrayFirst1 array begin «end» < begin ∧ bit array (bitArrayFirst1 array begin «end») = true := by
  obtain ⟨hmod, hend, hword, hnone, i, hi, hbit⟩ := h
  have hne : array.getD («end» / 64) 0 ≠ 0 := by
    intro hzero
    rw [word_eq_zero.1 hzero i (by lia)] at hbit
    cases hbit
  have hctz := bit_ctz hne
  obtain ⟨hlt, -, -⟩ := ctz_spec hne
  have hlow : «end» / 64 * 64 + ctz (array.getD («end» / 64) 0) < begin := by
    by_contra hle
    rw [hnone _ (by lia) (by lia)] at hctz
    cases hctz
  have hresult : bitArrayFirst1 array begin «end»
      = min («end» / 64 * 64 + ctz (array.getD («end» / 64) 0)) «end» := by
    rw [first1_eq, if_neg hmod, if_pos (masked_eq_zero.2 hnone)]
    simp only [firstFrom]
    rw [shiftRight_six, shiftLeft_six, Nat.sub_eq_zero_of_le (by lia)]
    show (if _ then _ else _) = _
    rw [if_pos ⟨by lia, hne⟩]
  rw [hresult, min_eq_left (by lia)]
  exact ⟨hlow, hctz⟩

/-! ## What is found -/

/-- The bits from `begin` to `end` are bits of the array. -/
structure Within (array : List Word) (begin «end» : ℕ) : Prop where
  le : begin ≤ «end»
  room : «end» ≤ 64 * array.length

/-- The first bit from `begin` to `end`, or `end` if there is none. -/
def IsFirst1 (array : List Word) (begin «end» r : ℕ) : Prop :=
  IsLeast {i | begin ≤ i ∧ i < «end» ∧ bit array i = true} r ∨
    (∀ i, begin ≤ i → i < «end» → bit array i = false) ∧ r = «end»

/-- **The first bit is found** just when the last word, in which the search began, is not looked at
again. -/
theorem first1_isFirst1_iff (h : Within array begin «end») :
    IsFirst1 array begin «end» (bitArrayFirst1 array begin «end») ↔ ¬Rereads array begin «end» := by
  constructor
  · intro hfirst hreread
    obtain ⟨hlow, -⟩ := first1_of_reread h.le hreread
    rcases hfirst with hleast | ⟨-, hend⟩
    · exact absurd hleast.1.1 (not_le.2 hlow)
    · rw [hend] at hlow
      exact absurd h.le (not_le.2 hlow)
  · intro hreread
    by_cases hsome : ∃ i, begin ≤ i ∧ i < «end» ∧ bit array i = true
    · obtain ⟨hle, hlt, hbit⟩ := Nat.find_spec hsome
      have hbefore : ∀ i, begin ≤ i → i < Nat.find hsome → bit array i = false := by
        intro i hi hfind
        have hmin := Nat.find_min hsome hfind
        exact Bool.eq_false_of_not_eq_true fun htrue => hmin ⟨hi, hfind.trans hlt, htrue⟩
      rw [first1_of_bit hle hlt hbit hbefore]
      exact .inl ⟨⟨hle, hlt, hbit⟩, fun i hi => Nat.find_min' hsome hi⟩
    · have hnone : ∀ i, begin ≤ i → i < «end» → bit array i = false := by
        intro i hi hlt
        exact Bool.eq_false_of_not_eq_true fun htrue => hsome ⟨i, hi, hlt, htrue⟩
      exact .inr ⟨hnone, first1_of_none h.le hnone hreread⟩

theorem first1_isFirst1_five : Within [0x21#64] 1 64 ∧
    IsFirst1 [0x21#64] 1 64 (bitArrayFirst1 [0x21#64] 1 64) := by
  have hwithin : Within [0x21#64] 1 64 := ⟨by decide, by decide⟩
  exact ⟨hwithin, (first1_isFirst1_iff hwithin).2 fun hreread => absurd hreread.2.1 (by decide)⟩

/-- The bit in front of `begin` is returned. -/
theorem first1_not_isFirst1 :
    Within [1#64] 1 2 ∧ bitArrayFirst1 [1#64] 1 2 = 0 ∧
    ¬IsFirst1 [1#64] 1 2 (bitArrayFirst1 [1#64] 1 2) := by
  have hzero : bitArrayFirst1 [1#64] 1 2 = 0 := by decide
  refine ⟨⟨by decide, by decide⟩, hzero, ?_⟩
  rw [hzero]
  rintro (hleast | ⟨-, hend⟩)
  · exact absurd hleast.1.1 (by decide)
  · cases hend

end Eabase.Utility.BitArray
