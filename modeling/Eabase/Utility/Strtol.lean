import Eabase.Lib.Numeral
import Eabase.Utility.EndPointText
import Mathlib.Data.List.TakeWhile

/-!
# strtol

What `strtol` and `strtoul` read is one thing, a number without bounds that a
text begins with, and each of them puts it in its own range. A text denotes a
number if it is optional spaces, an optional sign and at least one digit.
-/

namespace Eabase.Utility.Strtol

open Lib List
open Utility.EndPointValue (Text isspace isdigit digits strtol)

/-- Whether a minus comes first, and the text behind the sign. -/
def sign (u : Text) : Bool × Text :=
  match u with
  | c :: v => if c = '-'.toUInt8 then (true, v) else if c = '+'.toUInt8 then (false, v) else (false, u)
  | [] => (false, u)

def scan (t : Text) : Option (ℤ × Text) :=
  let signed := sign (t.dropWhile isspace)
  let n : ℤ := digits 0 (signed.2.takeWhile isdigit)
  if signed.2.takeWhile isdigit = [] then none
  else some (if signed.1 then -n else n, signed.2.dropWhile isdigit)

/-- A number in the range of `long`. -/
def saturate (v : ℤ) : ℤ := max (-2 ^ 63) (min (2 ^ 63 - 1) v)

/-- A number as an `unsigned long`: one that is too large is `ULONG_MAX`, a negative one wraps
around. -/
def wrap (v : ℤ) : ℕ := if 2 ^ 64 ≤ v.natAbs then 2 ^ 64 - 1 else (v % 2 ^ 64).toNat

/-- `strtoul` with base 10. -/
def strtoul (t : Text) : ℕ × Text :=
  match scan t with
  | none => (0, t)
  | some (v, rest) => (wrap v, rest)

theorem strtol_eq (t : Text) : strtol t = match scan t with
      | none => (0, t)
      | some (v, rest) => (saturate v, rest) := by
  unfold strtol scan
  by_cases hnone : (sign (t.dropWhile isspace)).2.takeWhile isdigit = []
  · rw [if_pos hnone]
    exact if_pos hnone
  · rw [if_neg hnone]
    exact if_neg hnone

theorem saturate_of_le {v : ℤ} (hlow : -2 ^ 63 ≤ v) (hhigh : v ≤ 2 ^ 63 - 1) : saturate v = v := by
  rw [saturate, min_eq_right hhigh, max_eq_right hlow]

theorem saturate_mem_iff {v lo hi : ℤ} (hlo : -2 ^ 63 < lo) (hhi : hi < 2 ^ 63 - 1) :
    lo ≤ saturate v ∧ saturate v ≤ hi ↔ lo ≤ v ∧ v ≤ hi := by
  unfold saturate
  lia

theorem wrap_of_lt {v : ℤ} (hlow : 0 ≤ v) (hhigh : v < 2 ^ 64) : (wrap v : ℤ) = v := by
  unfold wrap
  split <;> lia

/-- Only a number between `-2 ^ 64` and `hi - 2 ^ 64` wraps around into the range. -/
theorem wrap_mem_iff {v hi : ℤ} (hv : v ≤ -2 ^ 64 ∨ hi - 2 ^ 64 < v) (hhi : hi < 2 ^ 64 - 1) :
    (wrap v : ℤ) ≤ hi ↔ 0 ≤ v ∧ v ≤ hi := by
  unfold wrap
  split <;> lia

/-! ## What denotes a number -/

/-- The text is optional spaces, an optional sign and at least one digit. -/
inductive Denotes : Text → ℤ → Prop
  | unsigned {spaces ds : Text} (hspaces : ∀ c ∈ spaces, isspace c = true) (hne : ds ≠ [])
      (hds : ∀ c ∈ ds, isdigit c = true) : Denotes (spaces ++ ds) (digits 0 ds)
  | plus {spaces ds : Text} (hspaces : ∀ c ∈ spaces, isspace c = true) (hne : ds ≠ [])
      (hds : ∀ c ∈ ds, isdigit c = true) : Denotes (spaces ++ '+'.toUInt8 :: ds) (digits 0 ds)
  | minus {spaces ds : Text} (hspaces : ∀ c ∈ spaces, isspace c = true) (hne : ds ≠ [])
      (hds : ∀ c ∈ ds, isdigit c = true) : Denotes (spaces ++ '-'.toUInt8 :: ds) (-(digits 0 ds))

variable {f r t : Text} {v w : ℤ} {c : UInt8}

def NoDigit (r : Text) : Prop := ∀ c ∈ r.head?, isdigit c = false

instance (r : Text) : Decidable (NoDigit r) := Option.decidableForallMem r.head?

theorem isdigit_iff : isdigit c = true ↔ 48 ≤ c.toNat ∧ c.toNat ≤ 57 := isDecimal_iff

theorem isdigit_ne (hc : isdigit c = true) :
    isspace c = false ∧ c ≠ '-'.toUInt8 ∧ c ≠ '+'.toUInt8 := by
  obtain ⟨hlow, hhigh⟩ := isdigit_iff.1 hc
  refine ⟨?_, ?_, ?_⟩
  · have hspace : isspace c = true ↔ c.toNat = 32 ∨ 9 ≤ c.toNat ∧ c.toNat ≤ 13 := by
      unfold isspace
      rw [Bool.or_eq_true, Bool.and_eq_true, beq_iff_eq, decide_eq_true_iff, decide_eq_true_iff,
        ← UInt8.toNat_inj]
      exact Iff.rfl
    rw [Bool.eq_false_iff, Ne, hspace]
    lia
  · rintro rfl
    exact absurd hlow (by decide)
  · rintro rfl
    exact absurd hlow (by decide)

theorem takeWhile_digits {ds : Text} (hds : ∀ c ∈ ds, isdigit c = true) (hr : NoDigit r) :
    (ds ++ r).takeWhile isdigit = ds ∧ (ds ++ r).dropWhile isdigit = r := by
  rw [takeWhile_append_of_pos hds, dropWhile_append_of_pos hds]
  rcases r with - | ⟨c, r⟩
  · exact ⟨append_nil ds, rfl⟩
  · have hc : ¬isdigit c = true := Bool.not_eq_true _ ▸ hr c rfl
    rw [takeWhile_cons_of_neg hc, dropWhile_cons_of_neg hc]
    exact ⟨append_nil ds, rfl⟩

theorem scan_spaces {spaces : Text} (hspaces : ∀ c ∈ spaces, isspace c = true) (t : Text) :
    scan (spaces ++ t) = scan t := by
  unfold scan
  rw [dropWhile_append_of_pos hspaces]

theorem sign_cases (u : Text) :
    (∃ v, u = '-'.toUInt8 :: v ∧ sign u = (true, v)) ∨ (∃ v, u = '+'.toUInt8 :: v ∧ sign u = (false, v)) ∨
      sign u = (false, u) := by
  rcases u with - | ⟨c, v⟩
  · exact .inr (.inr rfl)
  · by_cases hminus : c = '-'.toUInt8
    · exact .inl ⟨v, hminus ▸ rfl, if_pos hminus⟩
    · by_cases hplus : c = '+'.toUInt8
      · exact .inr (.inl ⟨v, hplus ▸ rfl, (if_neg hminus).trans (if_pos hplus)⟩)
      · exact .inr (.inr ((if_neg hminus).trans (if_neg hplus)))

theorem scan_digits {b : Bool} {ds : Text} (hsign : sign (t.dropWhile isspace) = (b, ds ++ r))
    (hne : ds ≠ []) (hds : ∀ c ∈ ds, isdigit c = true) (hr : NoDigit r) :
    scan t = some (if b then -(digits 0 ds : ℤ) else digits 0 ds, r) := by
  obtain ⟨htake, hdrop⟩ := takeWhile_digits hds hr
  unfold scan
  rw [hsign]
  dsimp only
  rw [htake, hdrop, if_neg hne]

theorem Denotes.scan_append (h : Denotes f v) (hr : NoDigit r) : scan (f ++ r) = some (v, r) := by
  cases h with
  | @unsigned spaces ds hspaces hne hds =>
    rw [append_assoc, scan_spaces hspaces]
    refine scan_digits (b := false) ?_ hne hds hr
    obtain ⟨c, ds', rfl⟩ := exists_cons_of_ne_nil hne
    obtain ⟨hspace, hminus, hplus⟩ := isdigit_ne (hds c mem_cons_self)
    rw [cons_append, dropWhile_cons_of_neg (by rw [hspace]; exact nofun), sign, if_neg hminus,
      if_neg hplus]
  | @plus spaces ds hspaces hne hds =>
    rw [append_assoc, scan_spaces hspaces]
    refine scan_digits (b := false) ?_ hne hds hr
    rw [cons_append, dropWhile_cons_of_neg (by decide), sign, if_neg (by decide), if_pos rfl]
  | @minus spaces ds hspaces hne hds =>
    rw [append_assoc, scan_spaces hspaces]
    refine scan_digits (b := true) ?_ hne hds hr
    rw [cons_append, dropWhile_cons_of_neg (by decide), sign, if_pos rfl]

theorem exists_denotes (h : scan t = some (v, r)) : ∃ f, t = f ++ r ∧ Denotes f v ∧ NoDigit r := by
  have hspaces : ∀ c ∈ t.takeWhile isspace, isspace c = true := fun c hc => mem_takeWhile_imp hc
  have ht : t.takeWhile isspace ++ t.dropWhile isspace = t := takeWhile_append_dropWhile
  unfold scan at h
  dsimp only at h
  split at h
  case isTrue => exact absurd h nofun
  case isFalse hne =>
    obtain ⟨hv, hr⟩ := Prod.mk.inj (Option.some.inj h)
    have hds : ∀ c ∈ (sign (t.dropWhile isspace)).2.takeWhile isdigit, isdigit c = true :=
      fun c hc => mem_takeWhile_imp hc
    have hnext : NoDigit r := by
      intro c hc
      have hhead := head?_dropWhile_not isdigit (sign (t.dropWhile isspace)).2
      rw [hr, hc] at hhead
      simpa using hhead
    have hdigits : (sign (t.dropWhile isspace)).2.takeWhile isdigit ++
        r = (sign (t.dropWhile isspace)).2 := by
      rw [← hr, takeWhile_append_dropWhile]
    rcases sign_cases (t.dropWhile isspace) with ⟨u, hu, hsign⟩ | ⟨u, hu, hsign⟩ | hsign
    · rw [hsign] at hv hds hdigits hne
      refine ⟨_, ?_, hv.subst (.minus hspaces hne hds), hnext⟩
      rw [append_assoc, cons_append, hdigits, ← hu, ht]
    · rw [hsign] at hv hds hdigits hne
      refine ⟨_, ?_, hv.subst (.plus hspaces hne hds), hnext⟩
      rw [append_assoc, cons_append, hdigits, ← hu, ht]
    · rw [hsign] at hv hds hdigits hne
      refine ⟨_, ?_, hv.subst (.unsigned hspaces hne hds), hnext⟩
      rw [append_assoc, hdigits, ht]

theorem scan_cons_ne_none (hc : isdigit c = true) (t : Text) : scan (c :: t) ≠ none := by
  obtain ⟨hspace, hminus, hplus⟩ := isdigit_ne hc
  have hsign : sign ((c :: t).dropWhile isspace) = (false, c :: t) := by
    rw [dropWhile_cons_of_neg (by rw [hspace]; exact nofun), sign, if_neg hminus, if_neg hplus]
  unfold scan
  rw [hsign]
  dsimp only
  rw [takeWhile_cons_of_pos hc, if_neg (cons_ne_nil _ _)]
  exact nofun

theorem Denotes.unique (hv : Denotes f v) (hw : Denotes f w) : v = w := by
  have hscan := (hv.scan_append (r := []) nofun).symm.trans (hw.scan_append (r := []) nofun)
  exact congrArg Prod.fst (Option.some.inj hscan)

/-- In front of no digit, a number is read up to there if and only if the text denotes it. -/
theorem scan_append_iff (hr : NoDigit r) : scan (f ++ r) = some (v, r) ↔ Denotes f v := by
  constructor
  · intro h
    obtain ⟨g, hg, hdenotes, -⟩ := exists_denotes h
    rwa [append_cancel_right hg]
  · exact fun h => h.scan_append hr

theorem denotes_iff : Denotes f v ↔ scan f = some (v, []) := by
  rw [← scan_append_iff (r := []) nofun, append_nil]

theorem digits_eq (n : ℕ) (ds : Text) : digits n ds = readDecimal n ds := by
  induction ds generalizing n with
  | nil => rfl
  | cons c ds ih => exact ih _

theorem denotes_decimal (n : ℕ) : Denotes (decimal n) n := by
  have h := @Denotes.unsigned [] (decimal n) nofun (decimal_ne_nil n) fun c hc =>
    isDecimal_of_mem_decimal hc
  rwa [digits_eq, readDecimal_decimal] at h

end Eabase.Utility.Strtol
