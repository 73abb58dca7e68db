import Eabase.Utility.RecordIO
import Eabase.Lib.Search

/-!
# Resynchronisation of the reader

`CutUntilNextRecordCandidate` looks for the magic in windows of 512 bytes. A window without
it is dropped but for its last three bytes, with which a magic that goes over the end of the
window would begin; no magic begins before them (`Scanned`).

The magic cannot overlap itself, so the places behind a leading magic are the places that are
not the first one (`NextMagic`).
-/

namespace Eabase.Utility.RecordIO

open List

open IOBuf (Byte)
open Lib (FirstAt infix_iff_exists_drop prefix_drop_take_iff)

variable {S T : List Byte} {n p : ℕ} {x : Bool × Reader (List Byte)}

@[simp] theorem length_magic : magic.length = 4 := rfl

theorem magic_ne_nil : magic ≠ [] := cons_ne_nil _ _

theorem magic_no_overlap (h : magic <+: S) {q : ℕ} (hpos : 0 < q) (hq : q < 4) : ¬magic <+: S.drop q := by
  obtain ⟨t, rfl⟩ := h
  interval_cases q <;> simp [magic]

theorem add_four_le (h : magic <+: S.drop p) : p + 4 ≤ S.length := by
  have hle := h.length_le
  rw [length_drop, length_magic] at hle
  lia

theorem findMagic_some (h : findMagic S = some p) : FirstAt magic S p := by
  unfold findMagic at h
  rw [find?_range_eq_some] at h
  obtain ⟨hat, -, hfirst⟩ := h
  constructor
  · rw [prefix_iff_eq_take]
    exact (of_decide_eq_true hat).symm
  · intro j hj hpre
    have hno := hfirst j hj
    rw [prefix_iff_eq_take] at hpre
    rw [← hpre] at hno
    simp at hno

theorem findMagic_none (h : findMagic S = none) : ¬magic <:+: S := by
  unfold findMagic at h
  rw [find?_eq_none] at h
  intro hin
  obtain ⟨i, hat⟩ := infix_iff_exists_drop.1 hin
  have hle := add_four_le hat
  rw [prefix_iff_eq_take] at hat
  exact h i (mem_range.2 (by rw [length_magic]; lia)) (decide_eq_true hat.symm)

/-- What the loop over the windows comes to. -/
inductive Scanned (S : List Byte) (n : ℕ) : Bool × Reader (List Byte) → Prop
  | found (p : ℕ) (h : FirstAt magic S p) : Scanned S n (true, ⟨S.drop p, n + p⟩)
  | missing (k : ℕ) (hno : ¬magic <:+: S) (hk : k = 0 ∨ k + 3 ≤ S.length) (hleft : S.length < k + 4) :
      Scanned S n (false, ⟨S.drop k, n + k⟩)

theorem Scanned.of_drop {m : ℕ} (h : Scanned (S.drop m) (n + m) x)
    (hm : m + 3 ≤ S.length) (hno : ∀ j < m, ¬magic <+: S.drop j) : Scanned S n x := by
  cases h with
  | found p h =>
    rw [drop_drop, add_assoc]
    exact .found _ (h.of_drop hno)
  | missing k hin hk hleft =>
    rw [length_drop] at hk hleft
    rw [drop_drop, add_assoc]
    refine .missing _ ?_ (by lia) (by lia)
    intro hat
    obtain ⟨i, hi⟩ := infix_iff_exists_drop.1 hat
    -- a magic begins before the place, or it is one of what is behind it
    by_cases hlt : i < m
    · exact hno i hlt hi
    · apply hin
      rw [infix_iff_exists_drop]
      refine ⟨i - m, ?_⟩
      rwa [drop_drop, Nat.add_sub_cancel' (Nat.le_of_not_lt hlt)]

theorem candidateLoop_ofBytes (fuel : ℕ) (S : List Byte) (n : ℕ) :
    candidateLoop .ofBytes (fuel + 1) ⟨S, n⟩ = if (S.take 512).length < 4 then (false, ⟨S, n⟩) else
        match findMagic (S.take 512) with
        | some i => (true, ⟨S.drop i, n + i⟩)
        | none =>
          let m := (S.take 512).length + 1 - 4
          if (S.take 512).length < 512 then (false, ⟨S.drop m, n + m⟩)
          else candidateLoop .ofBytes fuel ⟨S.drop m, n + m⟩ := rfl

theorem cutUntilNextRecordCandidate_ofBytes (S : List Byte) (n : ℕ) :
    cutUntilNextRecordCandidate .ofBytes ⟨S, n⟩ = if (S.take 4).length ≠ 4 then (false, ⟨S, n⟩) else
        let r' : Reader (List Byte) := if S.take 4 = magic then ⟨S.drop 4, n + 4⟩ else ⟨S, n⟩
        candidateLoop .ofBytes (r'.cutter.length + 1) r' := rfl

theorem candidateLoop_scanned : ∀ (fuel : ℕ) (S : List Byte) (n : ℕ), S.length < fuel →
    Scanned S n (candidateLoop .ofBytes fuel ⟨S, n⟩) := by
  intro fuel
  induction fuel with
  | zero => exact fun _ _ h => absurd h (Nat.not_lt_zero _)
  | succ fuel ih =>
    intro S n hfuel
    rw [candidateLoop_ofBytes]
    have hlen : (S.take 512).length = min 512 S.length := length_take
    by_cases hshort : (S.take 512).length < 4
    · rw [if_pos hshort]
      refine .missing 0 ?_ (.inl rfl) (by lia)
      intro hin
      have hle := hin.length_le
      rw [length_magic] at hle
      lia
    rw [if_neg hshort]
    cases hfind : findMagic (S.take 512) with
    | some i => exact .found i ((findMagic_some hfind).of_take magic_ne_nil)
    | none =>
      have hno : ∀ j < (S.take 512).length + 1 - 4, ¬magic <+: S.drop j := by
        intro j hj hat
        apply findMagic_none hfind
        rw [infix_iff_exists_drop]
        exact ⟨j, (prefix_drop_take_iff (by rw [length_magic]; lia)).2 hat⟩
      by_cases hlast : (S.take 512).length < 512
      · -- the window was all that there is
        rw [if_pos hlast]
        refine .missing _ ?_ (.inr (by lia)) (by lia)
        rw [take_of_length_le (by lia)] at hfind
        exact findMagic_none hfind
      · rw [if_neg hlast]
        refine Scanned.of_drop (ih _ _ ?_) (by lia) hno
        rw [length_drop]
        lia

/-! ## The next magic -/

structure NextMagic (S : List Byte) (p : ℕ) : Prop where
  pos : 0 < p
  at_place : magic <+: S.drop p
  first : ∀ q, 0 < q → q < p → ¬magic <+: S.drop q

/-- What `CutUntilNextRecordCandidate` comes to. -/
inductive Resynced (S : List Byte) (n : ℕ) : Bool × Reader (List Byte) → Prop
  | found (p : ℕ) (h : NextMagic S p) : Resynced S n (true, ⟨S.drop p, n + p⟩)
  | missing (k : ℕ) (hk : k ≤ S.length) (hno : ∀ q, 0 < q → ¬magic <+: S.drop q)
      (hcut : ∀ q, 0 < q → q < k → ∀ T, ¬magic <+: (S ++ T).drop q) (hleft : S.length < k + 4) :
      Resynced S n (false, ⟨S.drop k, n + k⟩)

theorem prefix_drop_append (hle : p + 4 ≤ S.length) (h : magic <+: (S ++ T).drop p) :
    magic <+: S.drop p := by
  rw [← prefix_drop_take_iff (show p + magic.length ≤ S.length from hle), take_left] at h
  exact h

theorem Scanned.behind_magic (h : Scanned (S.drop 4) (n + 4) x)
    (hfirst : magic <+: S) : Resynced S n x := by
  have hlen : 4 ≤ S.length := hfirst.length_le
  have hbehind : ∀ q, 0 < q → magic <+: S.drop q → magic <+: (S.drop 4).drop (q - 4) := by
    intro q hpos hat
    have hge : 4 ≤ q := by
      by_contra hlt
      exact magic_no_overlap hfirst hpos (Nat.lt_of_not_le hlt) hat
    rwa [drop_drop, Nat.add_sub_cancel' hge]
  cases h with
  | found p h =>
    rw [drop_drop, add_assoc]
    refine .found _ ⟨by lia, by simpa [drop_drop] using h.at_place, ?_⟩
    intro q hpos hq hat
    by_cases hlt : q < 4
    · exact magic_no_overlap hfirst hpos hlt hat
    · exact h.first (q - 4) (by lia) (hbehind q hpos hat)
  | missing k hin hk hleft =>
    have hno : ∀ q, 0 < q → ¬magic <+: S.drop q := by
      intro q hpos hat
      exact hin (infix_iff_exists_drop.2 ⟨_, hbehind q hpos hat⟩)
    rw [length_drop] at hk hleft
    rw [drop_drop, add_assoc]
    refine .missing _ (by lia) hno ?_ (by lia)
    intro q hpos hq T hat
    by_cases hlt : q < 4
    · exact magic_no_overlap (hfirst.trans (prefix_append S T)) hpos hlt hat
    · exact hno q hpos (prefix_drop_append (by lia) hat)

theorem Scanned.from_start (h : Scanned S n x) (hfirst : ¬magic <+: S) :
    Resynced S n x := by
  cases h with
  | found p h =>
    refine .found p ⟨?_, h.at_place, fun q _ hq => h.first q hq⟩
    by_contra hzero
    rw [Nat.eq_zero_of_not_pos hzero] at h
    exact hfirst h.at_place
  | missing k hin hk hleft =>
    have hno : ∀ q, ¬magic <+: S.drop q := fun q hat => hin (infix_iff_exists_drop.2 ⟨q, hat⟩)
    refine .missing k (by lia) (fun q _ => hno q) ?_ hleft
    intro q _ hq T hat
    exact hno q (prefix_drop_append (by lia) hat)

theorem cutUntilNextRecordCandidate_resynced (S : List Byte) (n : ℕ) :
    Resynced S n (cutUntilNextRecordCandidate .ofBytes ⟨S, n⟩) := by
  rw [cutUntilNextRecordCandidate_ofBytes]
  have hlen : (S.take 4).length = min 4 S.length := length_take
  by_cases hshort : (S.take 4).length ≠ 4
  · rw [if_pos hshort]
    refine .missing 0 (Nat.zero_le _) ?_ (fun q _ hq => absurd hq (Nat.not_lt_zero q)) (by lia)
    intro q _ hat
    have hle := add_four_le hat
    lia
  rw [if_neg hshort]
  by_cases hfirst : S.take 4 = magic
  · simp only [if_pos hfirst]
    exact (candidateLoop_scanned _ _ _ (Nat.lt_succ_self _)).behind_magic (hfirst ▸ take_prefix 4 S)
  · simp only [if_neg hfirst]
    refine (candidateLoop_scanned _ _ _ (Nat.lt_succ_self _)).from_start ?_
    intro hpre
    exact hfirst (prefix_iff_eq_take.1 hpre).symm

/-- The next magic is found if there is one, and all before it is cut. Without one, what is cut is
no part of a magic that begins in the buffered bytes, whatever comes behind them, and less than four
bytes stay. -/
theorem resync_nextMagic (r : Reader Cutting) :
    let S := r.cutter.bytes
    let x := cutUntilNextRecordCandidate Cutting.ops r
    (x.1 = true ↔ ∃ p > 0, magic <+: S.drop p) ∧
      (x.1 = true → ∃ p, NextMagic S p ∧ x.2.cutter.bytes = S.drop p ∧ x.2.ncut = r.ncut + p) ∧
      (x.1 = false → ∃ k ≤ S.length, x.2.cutter.bytes = S.drop k ∧ x.2.ncut = r.ncut + k ∧
        S.length - k < 4 ∧
        ∀ T, ∀ q > 0, q < S.length → magic <+: (S ++ T).drop q → k ≤ q) := by
  intro S x
  have hmap := cutUntilNextRecordCandidate_map Cutting.ops_lawful r
  have hres := cutUntilNextRecordCandidate_resynced S r.ncut
  rw [show (⟨S, r.ncut⟩ : Reader (List Byte)) = r.map Cutting.bytes from rfl, ← hmap] at hres
  change Resynced S r.ncut (x.1, ⟨x.2.cutter.bytes, x.2.ncut⟩) at hres
  generalize x.1 = ok, x.2.cutter.bytes = bs, x.2.ncut = k at hres ⊢
  cases hres with
  | found p h =>
    refine ⟨⟨fun _ => ⟨p, h.pos, h.at_place⟩, fun _ => rfl⟩, fun _ => ⟨p, h, rfl, rfl⟩, ?_⟩
    exact fun hfalse => absurd hfalse Bool.noConfusion
  | missing k hk hno hcut hleft =>
    refine ⟨⟨fun htrue => absurd htrue Bool.noConfusion, ?_⟩, fun htrue =>
      absurd htrue Bool.noConfusion, ?_⟩
    · rintro ⟨p, hpos, hat⟩
      exact absurd hat (hno p hpos)
    · refine fun _ => ⟨k, hk, rfl, rfl, by lia, ?_⟩
      intro T q hpos _ hat
      by_contra hlt
      exact hcut q hpos (Nat.lt_of_not_le hlt) T hat

end Eabase.Utility.RecordIO
