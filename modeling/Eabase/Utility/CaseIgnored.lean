import Mathlib.Data.List.Induction
import Mathlib.Data.List.Basic
import Mathlib.Data.List.TakeWhile
import Mathlib.Data.Int.ModEq

/-!
# Hash and equality of CaseIgnoredFlatMap

`CaseIgnoredEqual` compares the sizes of two strings and what `strcasecmp`
makes of their `c_str()`, which ends at the first NUL; a second overload takes
a C string and compares no sizes. `CaseIgnoredHasher` goes over all bytes of a
`std::string`, NULs included.

Both ignore case as `tolower` of the C locale does. They go together on the
strings without a NUL, and on few others.
-/

namespace Eabase.Utility.CaseIgnored

open List
open BitVec (ofInt ofInt_mul toNat_inj)

/-- A `char`, which is signed. -/
abbrev Byte : Type := BitVec 8

/-- `g_tolower_map_base`: the numbers from -128 on, with the small letters in the place of the
capital ones. -/
def gTolowerMapBase : List ℤ :=
  (List.range 193).map (fun i : ℕ => (i : ℤ) - 128) ++ (List.range 26).map (fun i : ℕ => (i : ℤ) + 97)
    ++ (List.range 37).map (fun i : ℕ => (i : ℤ) + 91)

/-- `ascii_tolower`; `g_tolower_map` points 128 entries into the table. -/
def asciiTolower (c : Byte) : ℤ :=
  gTolowerMapBase.getD (c.toInt + 128).toNat 0

/-- The loop of `CaseIgnoredHasher`; a `char` becomes a `size_t` by its sign. -/
def hashLoop (result : BitVec 64) (s : List Byte) : BitVec 64 :=
  s.foldl (fun result c => result * 101 + BitVec.ofInt 64 (asciiTolower c)) result

/-- `CaseIgnoredHasher` of a `std::string`. -/
def hasher (s : List Byte) : BitVec 64 :=
  hashLoop 0 s

/-- The C string in `s.c_str()`. -/
def cStr (s : List Byte) : List Byte :=
  s.takeWhile fun c => c != 0

/-- `CaseIgnoredHasher` of a C string. -/
def hasherC (s : List Byte) : BitVec 64 :=
  hashLoop 0 (cStr s)

/-- `tolower` in the C locale. -/
def tolower (c : Byte) : Byte :=
  if 65 ≤ c.toNat ∧ c.toNat ≤ 90 then c + 32 else c

/-- `strcasecmp`; there is a NUL behind each of the lists. -/
def strcasecmp : List Byte → List Byte → ℤ
  | [], [] => 0
  | c :: _, [] => (tolower c).toNat
  | [], c :: _ => - (tolower c).toNat
  | c₁ :: s₁, c₂ :: s₂ =>
    if tolower c₁ ≠ tolower c₂ then (tolower c₁).toNat - (tolower c₂).toNat
    else if c₁ = 0 then 0
    else strcasecmp s₁ s₂

/-- `CaseIgnoredEqual` of two `std::string`s. -/
def equal (s₁ s₂ : List Byte) : Bool :=
  s₁.length == s₂.length && strcasecmp s₁ s₂ == 0

/-- `CaseIgnoredEqual` of a `std::string` and a C string. -/
def equalC (s₁ s₂ : List Byte) : Bool :=
  strcasecmp s₁ s₂ == 0

/-! ## What is compared -/

variable {s s' t p : List Byte} {c : Byte}

theorem tolower_eq_zero : tolower c = 0 ↔ c = 0 := by
  rw [tolower]
  split
  next hcapital =>
    constructor
    · intro h
      bv_omega
    · intro h
      rw [h] at hcapital
      exact absurd hcapital.1 (by decide)
  · rfl

/-- **The table** has what `tolower` makes of a `char`. -/
theorem asciiTolower_eq (c : Byte) : asciiTolower c = (tolower c).toInt := by
  have hsign : c.toInt = if c.toNat < 128 then (c.toNat : ℤ) else c.toNat - 256 := by
    rw [BitVec.toInt_eq_toNat_cond]
    exact if_congr (by lia) rfl rfl
  have hlt := c.isLt
  rw [asciiTolower, tolower, gTolowerMapBase, getD_eq_getElem?_getD]
  rcases lt_or_ge (c.toInt + 128).toNat 193 with hi | hi
  · rw [append_assoc, getElem?_append_left (by rwa [length_map, length_range]), getElem?_map,
      getElem?_range hi, if_neg (by split at hsign <;> lia)]
    show ((c.toInt + 128).toNat : ℤ) - 128 = c.toInt
    split at hsign <;> lia
  · have hpos : c.toNat < 128 := by
      split at hsign <;> lia
    rw [if_pos hpos] at hsign
    rcases lt_or_ge (c.toInt + 128).toNat 219 with hi' | hi'
    · rw [getElem?_append_left (by rwa [length_append, length_map, length_map, length_range]),
        getElem?_append_right (by rwa [length_map, length_range]), length_map, length_range,
        getElem?_map, getElem?_range (by lia), if_pos (by lia)]
      have hsum : (c + 32).toNat = c.toNat + 32 := by
        rw [BitVec.toNat_add]
        exact Nat.mod_eq_of_lt (by change c.toNat + 32 < 256; lia)
      have hsmall : (c + 32).toInt = (c.toNat + 32 : ℕ) := by
        rw [← hsum]
        exact BitVec.toInt_eq_toNat_of_lt (by lia)
      rw [hsmall]
      show (((c.toInt + 128).toNat - 193 : ℕ) : ℤ) + 97 = _
      lia
    · rw [getElem?_append_right (by rwa [length_append, length_map, length_map, length_range]),
        length_append, length_map, length_map, length_range, length_range, getElem?_map,
        getElem?_range (by lia), if_neg (by lia)]
      show (((c.toInt + 128).toNat - (193 + 26) : ℕ) : ℤ) + 91 = _
      lia

theorem cStr_cons (hc : c ≠ 0) (s : List Byte) : cStr (c :: s) = c :: cStr s :=
  takeWhile_cons_of_pos (bne_iff_ne.2 hc)

theorem cStr_of_zero (hc : c = 0) : cStr (c :: s) = [] := by
  rw [hc]
  rfl

theorem cStr_eq_self (h : 0 ∉ s) : cStr s = s :=
  takeWhile_eq_self_iff.2 fun _ hc => bne_iff_ne.2 fun h0 => h (h0 ▸ hc)

theorem cStr_append_of_mem (h : 0 ∈ p) (s : List Byte) : cStr (p ++ s) = cStr p := by
  induction p with
  | nil => cases h
  | cons c p ih =>
    obtain rfl | hc := eq_or_ne c 0
    · rfl
    · rw [cons_append, cStr_cons hc, cStr_cons hc, ih ((mem_cons.1 h).resolve_left (Ne.symm hc))]

theorem cStr_append_zero (h : 0 ∉ p) : cStr (p ++ [0]) = p := by
  induction p with
  | nil => rfl
  | cons c p ih =>
    have hc : c ≠ 0 := fun hc => h (mem_cons.2 (.inl hc.symm))
    rw [cons_append, cStr_cons hc, ih fun hp => h (mem_cons_of_mem c hp)]

/-- **`strcasecmp`** finds no difference in C strings that are the same in small letters. -/
theorem strcasecmp_eq_zero : strcasecmp s t = 0 ↔ (cStr s).map tolower = (cStr t).map tolower := by
  have hnum : ∀ c : Byte, ((tolower c).toNat : ℤ) = 0 ↔ c = 0 := by
    intro c
    rw [Int.natCast_eq_zero, ← tolower_eq_zero, ← toNat_inj]
    rfl
  have hend : ∀ (c : Byte) (s : List Byte), (cStr (c :: s)).map tolower = [] ↔ c = 0 := by
    intro c s
    by_cases hc : c = 0
    · rw [cStr_of_zero hc]
      exact iff_of_true rfl hc
    · rw [cStr_cons hc]
      exact iff_of_false (cons_ne_nil _ _) hc
  induction s generalizing t with
  | nil =>
    cases t with
    | nil => exact ⟨fun _ => rfl, fun _ => rfl⟩
    | cons c t =>
      rw [strcasecmp, neg_eq_zero, hnum, ← hend c t]
      exact eq_comm
  | cons c s ih =>
    cases t with
    | nil =>
      rw [strcasecmp, hnum, ← hend c s]
      rfl
    | cons d t =>
      have hzero : tolower c = tolower d → (c = 0 ↔ d = 0) := by
        intro hcd
        rw [← tolower_eq_zero, hcd, tolower_eq_zero]
      rw [strcasecmp]
      by_cases hcd : tolower c = tolower d
      · rw [if_neg (not_not.2 hcd)]
        by_cases hc : c = 0
        · rw [if_pos hc, cStr_of_zero hc, cStr_of_zero ((hzero hcd).1 hc)]
          exact iff_of_true rfl rfl
        · have hd : d ≠ 0 := fun hd => hc ((hzero hcd).2 hd)
          rw [if_neg hc, cStr_cons hc, cStr_cons hd, map_cons, map_cons, hcd, cons_inj_right]
          exact ih
      · rw [if_pos hcd, sub_eq_zero, Int.natCast_inj, toNat_inj]
        apply iff_of_false hcd
        intro h
        by_cases hc : c = 0
        · rw [cStr_of_zero hc] at h
          exact hcd (hc.trans ((hend d t).1 h.symm).symm ▸ rfl)
        · by_cases hd : d = 0
          · rw [cStr_of_zero hd] at h
            exact hc ((hend c s).1 h)
          · rw [cStr_cons hc, cStr_cons hd] at h
            exact hcd (cons.inj h).1

theorem equalC_iff : equalC s t = true ↔ (cStr s).map tolower = (cStr t).map tolower := by
  rw [equalC, beq_iff_eq, strcasecmp_eq_zero]

theorem equal_iff : equal s t = true ↔ s.length = t.length ∧ (cStr s).map tolower
      = (cStr t).map tolower := by
  rw [equal, Bool.and_eq_true, beq_iff_eq, beq_iff_eq, strcasecmp_eq_zero]

theorem equivalence_equal : Equivalence (fun s t => equal s t = true) where
  refl _ := equal_iff.mpr ⟨rfl, rfl⟩
  symm h := equal_iff.mpr ⟨(equal_iff.mp h).1.symm, (equal_iff.mp h).2.symm⟩
  trans h h' := equal_iff.mpr ⟨(equal_iff.mp h).1.trans (equal_iff.mp h').1,
    (equal_iff.mp h).2.trans (equal_iff.mp h').2⟩

theorem equivalence_equalC : Equivalence (fun s t => equalC s t = true) where
  refl _ := equalC_iff.mpr rfl
  symm h := equalC_iff.mpr (equalC_iff.mp h).symm
  trans h h' := equalC_iff.mpr ((equalC_iff.mp h).trans (equalC_iff.mp h'))

/-! ## What is hashed -/

theorem hashLoop_congr (h : s.map tolower = t.map tolower) (result : BitVec 64) :
    hashLoop result s = hashLoop result t := by
  have hfold : ∀ s : List Byte, hashLoop result s
      = (s.map tolower).foldl (fun result c => result * 101 + ofInt 64 c.toInt) result := by
    intro s
    rw [foldl_map, hashLoop]
    simp only [asciiTolower_eq]
  rw [hfold, hfold, h]

theorem hasher_congr (h : s.map tolower = t.map tolower) : hasher s = hasher t :=
  hashLoop_congr h 0

theorem hasher_append (s : List Byte) (c : Byte) :
    hasher (s ++ [c]) = hasher s * 101 + ofInt 64 (asciiTolower c) := by
  rw [hasher, hashLoop, foldl_append]
  rfl

/-- The number that has the bytes in small letters as its digits to base 101. -/
def digits (s : List Byte) : ℤ :=
  s.foldl (fun n c => n * 101 + asciiTolower c) 0

theorem digits_append (s : List Byte) (c : Byte) : digits (s ++ [c]) = digits s * 101
      + asciiTolower c := by
  rw [digits, foldl_append]
  rfl

theorem hasher_eq_ofInt (s : List Byte) : hasher s = ofInt 64 (digits s) := by
  induction s using reverseRecOn with
  | nil => rfl
  | append_singleton s c ih =>
    rw [hasher_append, ih, digits_append, BitVec.ofInt_add, ofInt_mul]
    rfl

theorem ofInt_eq_iff (a b : ℤ) : ofInt 64 a = ofInt 64 b ↔ (2 : ℤ) ^ 64 ∣ b - a := by
  rw [← toNat_inj, BitVec.toNat_ofInt, BitVec.toNat_ofInt, ← Int.natCast_inj,
    Int.toNat_of_nonneg (Int.emod_nonneg _ (by decide)),
      Int.toNat_of_nonneg (Int.emod_nonneg _ (by decide))]
  exact Int.modEq_iff_dvd

/-- A NUL at the end leaves the hash as it is iff the number before it is a multiple of `2 ^ 62`. -/
theorem hasher_append_zero : hasher (p ++ [0]) = hasher p ↔ (2 : ℤ) ^ 62 ∣ digits p := by
  have hzero : hasher (p ++ [0]) = ofInt 64 (digits p * 101) := by
    rw [hasher_append, hasher_eq_ofInt, ofInt_mul, show asciiTolower 0 = 0 by decide]
    exact BitVec.add_zero _
  have hsub : digits p * 101 - digits p = 2 ^ 2 * (25 * digits p) := by lia
  rw [hzero, hasher_eq_ofInt, eq_comm, ofInt_eq_iff, hsub, show (2 : ℤ) ^ 64 = 2 ^ 2 * 2 ^ 62 from rfl,
    Int.mul_dvd_mul_iff_left (by decide)]
  constructor
  · exact fun h => Int.dvd_of_dvd_mul_right_of_gcd_one h (by decide)
  · exact fun h => h.mul_left 25

theorem exists_other (c : Byte) : ∃ c', ofInt 64 (asciiTolower c) ≠ ofInt 64 (asciiTolower c') := by
  by_cases hc : c = 0
  · exact ⟨1, by rw [hc]; decide⟩
  · refine ⟨0, fun h => hc (tolower_eq_zero.1 ?_)⟩
    rw [asciiTolower_eq, asciiTolower_eq, eq_comm, ofInt_eq_iff, show (tolower 0).toInt
      = 0 from rfl, Int.sub_zero] at h
    have hlow : -128 ≤ (tolower c).toInt := BitVec.le_toInt _
    have hhigh : (tolower c).toInt < 128 := BitVec.toInt_lt
    exact BitVec.toInt_inj.1 (show (tolower c).toInt = 0 by lia)

/-! ## Hash and equality together -/

/-- Whatever is equal to `s` has the hash of `s`, be it a `std::string` or a C string. -/
structure Agrees (s : List Byte) : Prop where
  hash_eq : ∀ s', equal s s' = true → hasher s = hasher s'
  hash_eqC : ∀ t, equalC s t = true → hasher s = hasherC t

/-- No NUL, or one at the end behind bytes of a rare kind. -/
def Plain (s : List Byte) : Prop :=
  0 ∉ s ∨ ∃ p, s = p ++ [0] ∧ 0 ∉ p ∧ (2 : ℤ) ^ 62 ∣ digits p

theorem not_mem_of_equal (h : 0 ∉ s) (heq : equal s s' = true) : 0 ∉ s' ∧
    s.map tolower = s'.map tolower := by
  obtain ⟨hlen, hmap⟩ := equal_iff.1 heq
  rw [cStr_eq_self h] at hmap
  have hlen' : s'.length = (cStr s').length := by
    rw [← hlen, ← length_map (f := tolower), hmap, length_map]
  have hself : cStr s' = s' := ( takeWhile_prefix _).eq_of_length hlen'.symm
  refine ⟨fun hmem => ?_, by rw [hmap, hself]⟩
  rw [← hself] at hmem
  exact absurd rfl (bne_iff_ne.1 (mem_takeWhile_imp (p := fun c : Byte => c != 0) hmem))

theorem exists_of_equal (h : 0 ∉ p) (heq : equal (p ++ [0]) s' = true) :
    ∃ p', s' = p' ++ [0] ∧ p.map tolower = p'.map tolower := by
  obtain ⟨hlen, hmap⟩ := equal_iff.1 heq
  rw [cStr_append_zero h] at hmap
  refine ⟨cStr s', ?_, hmap⟩
  have hsplit : cStr s' ++ s'.dropWhile (fun c => c != 0) = s' := takeWhile_append_dropWhile
  have hlen' : (cStr s').length + 1 = s'.length := by
    rw [← hlen, length_append, ← length_map (f := tolower), ← hmap, length_map]
    rfl
  have hone : (s'.dropWhile fun c => c != 0).length = 1 := by
    apply Nat.add_left_cancel (n := (cStr s').length)
    rw [hlen', ← length_append, hsplit]
  obtain ⟨c, hc⟩ := length_eq_one_iff.1 hone
  have hhead := head_dropWhile_not (fun c : Byte => c != 0) (w := by rw [hc]; exact cons_ne_nil _ _)
  simp only [hc, head_cons, bne_eq_false_iff_eq] at hhead
  rw [hhead] at hc
  rw [← hc, hsplit]

theorem Plain.agrees (h : Plain s) : Agrees s := by
  rcases h with h | ⟨p, rfl, hp, hdvd⟩
  · constructor
    · intro s' heq
      exact hasher_congr (not_mem_of_equal h heq).2
    · intro t heq
      have hmap := equalC_iff.1 heq
      rw [cStr_eq_self h] at hmap
      exact hasher_congr hmap
  · constructor
    · intro s' heq
      obtain ⟨p', rfl, hmap⟩ := exists_of_equal hp heq
      rw [hasher_append, hasher_append, hasher_congr hmap]
    · intro t heq
      have hmap := equalC_iff.1 heq
      rw [cStr_append_zero hp] at hmap
      rw [hasher_append_zero.2 hdvd]
      exact hasher_congr hmap

theorem Agrees.plain (h : Agrees s) : Plain s := by
  by_cases h0 : 0 ∈ s
  · right
    obtain ⟨p, c, rfl⟩ := eq_nil_or_concat' s |>.resolve_left (ne_nil_of_mem h0)
    have hp : 0 ∉ p := by
      -- behind a NUL the last byte is hashed and not compared
      intro hp
      obtain ⟨c', hne⟩ := exists_other c
      have heq : equal (p ++ [c]) (p ++ [c']) = true := by
        rw [equal_iff, cStr_append_of_mem hp, cStr_append_of_mem hp, length_append, length_append]
        exact ⟨rfl, rfl⟩
      have hhash := h.hash_eq _ heq
      rw [hasher_append, hasher_append] at hhash
      exact hne ((BitVec.add_right_inj _).1 hhash)
    obtain rfl : 0 = c := mem_singleton.1 ((mem_append.1 h0).resolve_left hp)
    refine ⟨p, rfl, hp, ?_⟩
    have hhash := h.hash_eqC (p ++ [0]) (equivalence_equalC.refl _)
    rw [hasherC, cStr_append_zero hp] at hhash
    exact hasher_append_zero.1 hhash
  · exact .inl h0

/-- **Hash and equality**: the equality is an equivalence relation, and the strings that have the
hash of all strings equal to them are the plain ones. -/
theorem agrees_iff_plain (s : List Byte) :
    Equivalence (fun s t => equal s t = true) ∧ Equivalence (fun s t => equalC s t = true) ∧
      (Agrees s ↔ Plain s) :=
  ⟨equivalence_equal, equivalence_equalC, Agrees.plain, Plain.agrees⟩

/-- A NUL and an `a` are equal to a NUL and a `b`, and have another hash. -/
theorem nul_splits_hash : equal [0, 97] [0, 98] = true ∧ hasher [0, 97] ≠ hasher [0, 98] := by
  decide

end Eabase.Utility.CaseIgnored
