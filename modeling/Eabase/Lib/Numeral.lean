import Mathlib.Algebra.Order.Ring.Int

/-!
# Numerals

The decimal digits of a number as bytes, and the number that digits are read as.
Reading gives back what was written, so a number is known by its digits.
-/

namespace Eabase.Lib

def decimal (n : ℕ) : List UInt8 :=
  (Nat.toDigits 10 n).map fun c => UInt8.ofNat c.toNat

def isDecimal (c : UInt8) : Bool := 48 ≤ c && c ≤ 57

/-- The number that the digits are, after `n`. -/
def readDecimal (n : ℕ) (t : List UInt8) : ℕ :=
  t.foldl (fun n c => 10 * n + (c.toNat - 48)) n

variable {n k : ℕ} {c : UInt8} {s t : List UInt8}

theorem isDecimal_iff : isDecimal c = true ↔ 48 ≤ c.toNat ∧ c.toNat ≤ 57 := by
  rw [isDecimal, Bool.and_eq_true, decide_eq_true_iff, decide_eq_true_iff]
  exact Iff.rfl

/-- A digit fits in a byte. -/
theorem toNat_digit {d : Char} (hd : d.isDigit = true) : (UInt8.ofNat d.toNat).toNat = d.toNat ∧
    48 ≤ d.toNat ∧ d.toNat ≤ 57 := by
  obtain ⟨hlow, hhigh⟩ := Char.isDigit_iff_toNat.1 hd
  refine ⟨?_, hlow, hhigh⟩
  rw [UInt8.toNat_ofNat']
  exact Nat.mod_eq_of_lt (lt_of_le_of_lt hhigh (by decide))

theorem isDecimal_of_mem_decimal (hc : c ∈ decimal n) : isDecimal c = true := by
  obtain ⟨d, hd, rfl⟩ := List.mem_map.1 hc
  obtain ⟨hbyte, hrange⟩ := toNat_digit (Nat.isDigit_of_mem_toDigits (by decide) (by decide) hd)
  rw [isDecimal_iff, hbyte]
  exact hrange

theorem decimal_ne_nil (n : ℕ) : decimal n ≠ [] := by
  rw [decimal, Ne, List.map_eq_nil_iff]
  exact Nat.toDigits_ne_nil

def digit (d : ℕ) : UInt8 := UInt8.ofNat (48 + d)

theorem toNat_digit_of_lt (hn : n < 10) : (digit n).toNat = 48 + n := by
  rw [digit, UInt8.toNat_ofNat']
  exact Nat.mod_eq_of_lt (by lia)

theorem digitChar_of_lt (hn : n < 10) : UInt8.ofNat n.digitChar.toNat = digit n := by
  revert n
  decide

theorem decimal_of_lt (hn : n < 10) : decimal n = [digit n] := by
  rw [decimal, Nat.toDigits_of_lt_base hn, List.map_singleton, digitChar_of_lt hn]

/-- The last digit. -/
theorem decimal_of_le (hn : 10 ≤ n) : decimal n = decimal (n / 10) ++ [digit (n % 10)] := by
  rw [decimal, Nat.toDigits_of_base_le (by decide) hn, List.map_append, List.map_singleton,
    digitChar_of_lt (Nat.mod_lt n (by decide))]
  rfl

theorem length_decimal_le (hk : 0 < k) : (decimal n).length ≤ k ↔ n < 10 ^ k := by
  rw [decimal, List.length_map]
  exact Nat.length_toDigits_le_iff (by decide) hk

/-- Digits are read as they were written. -/
theorem readDecimal_decimal (n : ℕ) : readDecimal 0 (decimal n) = n := by
  have hread : ∀ (l : List Char) (m : ℕ), (∀ d ∈ l, d.isDigit = true) →
      readDecimal m (l.map fun c => .ofNat c.toNat) = Nat.ofDigitChars 10 l m := by
    intro l
    induction l with
    | nil => exact fun m _ => rfl
    | cons d l ih =>
      intro m hl
      rw [List.map_cons, readDecimal, List.foldl_cons, Nat.ofDigitChars_cons,
        (toNat_digit (hl d List.mem_cons_self)).1]
      exact ih _ fun d' hd' => hl d' (List.mem_cons_of_mem _ hd')
  rw [decimal, hread _ 0 fun d hd => Nat.isDigit_of_mem_toDigits (by decide) (by decide) hd]
  exact Nat.ofDigitChars_ten_toDigits

theorem decimal_injective : Function.Injective decimal :=
  Function.LeftInverse.injective readDecimal_decimal

end Eabase.Lib
