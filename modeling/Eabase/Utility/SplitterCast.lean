import Eabase.Utility.StringSplitter
import Eabase.Utility.Strtol

/-!
# Casting a field

`to_int8`, `to_uint8` and the others give the C string at the field to `strtol` or
`strtoul`, and compare where the number ends with where the field ends. Where a
digit comes behind the field the number does not end there; otherwise the bytes
of a field that is not empty decide alone.
-/

namespace Eabase.Utility.StringSplitter

open List

open Utility.EndPointValue (Text isspace isdigit strtol)
open Utility.Strtol

/-! ## The code -/

namespace Splitter

/-- The C string at `field()`. -/
def fieldStr (s : Splitter) : Text :=
  cStr (s.head.getD [])

/-- `(endptr == field() + length()) ? 0 : -1`, where `rest` is what `endptr` points to. -/
def endCheck (s : Splitter) (rest : Text) : ℤ :=
  if s.fieldStr.length - rest.length = s.length then 0 else -1

/-! A cast returns a code and stores a value, or none. -/

def toLong (s : Splitter) : ℤ × Option ℤ :=
  (s.endCheck (strtol s.fieldStr).2, some (strtol s.fieldStr).1)

def toUlong (s : Splitter) : ℤ × Option ℤ :=
  (s.endCheck (strtoul s.fieldStr).2, some (strtoul s.fieldStr).1)

/-- `strtoll` is `strtol`. -/
def toLonglong (s : Splitter) : ℤ × Option ℤ :=
  (s.endCheck (strtol s.fieldStr).2, some (strtol s.fieldStr).1)

/-- `strtoull` is `strtoul`. -/
def toUlonglong (s : Splitter) : ℤ × Option ℤ :=
  (s.endCheck (strtoul s.fieldStr).2, some (strtoul s.fieldStr).1)

/-- A value between `lo` and `hi` is stored, another one is not. -/
def narrow (lo hi : ℤ) (r : ℤ × Option ℤ) : ℤ × Option ℤ :=
  match r.2 with
  | some v => if r.1 = 0 ∧ lo ≤ v ∧ v ≤ hi then (0, some v) else (-1, none)
  | none => (-1, none)

def toInt8 (s : Splitter) : ℤ × Option ℤ := narrow (-128) 127 s.toLong

def toUint8 (s : Splitter) : ℤ × Option ℤ := narrow 0 255 s.toUlong

def toInt (s : Splitter) : ℤ × Option ℤ := narrow (-2 ^ 31) (2 ^ 31 - 1) s.toLong

def toUint (s : Splitter) : ℤ × Option ℤ := narrow 0 (2 ^ 32 - 1) s.toUlong

inductive Reached : Splitter → Prop
  | ofStr (str : Option Ptr) (sep : UInt8) (action : EmptyFieldAction) :
    Reached (StringSplitter.ofStr str sep action)
  | ofRange (u rest : Ptr) (sep : UInt8) (action : EmptyFieldAction) :
    Reached (StringSplitter.ofRange (some (u ++ rest)) (some rest) sep action)
  | ofPiece (u rest : Ptr) (sep : UInt8) (action : EmptyFieldAction) :
    Reached (StringSplitter.ofPiece ⟨some (u ++ rest), u.length⟩ sep action)
  | multiOfStr (str : Option Ptr) (seps : Ptr) (action : EmptyFieldAction) :
    Reached (StringSplitter.multiOfStr str seps action)
  | multiOfRange (u rest seps : Ptr) (action : EmptyFieldAction) :
    Reached (StringSplitter.multiOfRange (some (u ++ rest)) (some rest) seps action)
  | next {s : Splitter} : Reached s → Reached s.next

/-! ## Where the field stands -/

variable {s : Splitter} {f t : Text} {v lo hi : ℤ} {code : ℤ} {r : ℤ × Option ℤ} {rest : Text}
  {w : ℤ}

theorem str_at (m : Ptr) (isSep : UInt8 → Bool) (action : EmptyFieldAction) :
    ∃ u rest, (init ⟨some m, none, none, isSep, action⟩).At u rest := by
  obtain ⟨rest, hm, hrest⟩ := exists_eq_cStr m
  exact ⟨_, rest, at_init (s := ⟨some m, none, none, isSep, action⟩) (congrArg some hm)
    ⟨zero_notMem_cStr m, hrest⟩⟩

theorem range_at (u rest : Ptr) (isSep : UInt8 → Bool) (action : EmptyFieldAction) :
    ∃ u' rest', (init ⟨some (u ++ rest), none, some rest, isSep, action⟩).At u' rest' :=
  ⟨_, rest, at_init (s := ⟨some (u ++ rest), none, some rest, isSep, action⟩) rfl rfl⟩

theorem Reached.at (h : Reached s) : (s.head = none ∧ s.tail = none) ∨ ∃ u rest, s.At u rest := by
  induction h with
  | ofStr str sep action =>
    rcases str with - | m
    · exact .inl ⟨rfl, rfl⟩
    · exact .inr (str_at m _ action)
  | ofRange u rest sep action => exact .inr (range_at u rest _ action)
  | ofPiece u rest sep action =>
    unfold StringSplitter.ofPiece
    rw [piece_end]
    exact .inr (range_at u rest _ action)
  | multiOfStr str seps action =>
    rcases str with - | m
    · exact .inl ⟨rfl, rfl⟩
    · exact .inr (str_at m _ action)
  | multiOfRange u rest seps action => exact .inr (range_at u rest _ action)
  | @next s _ ih =>
    rcases ih with ⟨hhead, htail⟩ | ⟨u, rest, hat⟩
    · left
      unfold Splitter.next
      rw [htail]
      exact ⟨hhead, htail⟩
    · exact .inr ⟨_, rest, hat.next⟩

def behind (s : Splitter) : UInt8 :=
  deref (s.tail.getD [])

/-- The field is in front of where the tail points. -/
structure Shows (s : Splitter) (t : Text) : Prop where
  head : s.head = some (s.fieldSp ++ t)
  tail : s.tail = some t
  length : s.length = s.fieldSp.length

theorem Reached.shows (h : Reached s) (hvalid : s.valid = true) : ∃ t, s.Shows t := by
  rcases h.at with ⟨hhead, -⟩ | ⟨u, rest, hat⟩
  · unfold valid at hvalid
    rw [hhead] at hvalid
    exact absurd hvalid nofun
  · refine ⟨(u.dropWhile fun c => !s.isSep c) ++ rest, ?_, hat.tail, ?_⟩
    · rw [hat.fieldSp, ← append_assoc, takeWhile_append_dropWhile]
      exact hat.head
    · rw [hat.fieldSp]
      exact hat.length

theorem endCheck_eq_zero :
    s.endCheck rest = 0 ↔ s.fieldStr.length - rest.length = s.length := by
  unfold endCheck
  split
  case isTrue h => exact ⟨fun _ => h, fun _ => rfl⟩
  case isFalse h => exact ⟨nofun, fun hend => absurd hend h⟩

theorem endCheck_or : s.endCheck rest = 0 ∨ s.endCheck rest = -1 := by
  unfold endCheck
  split
  case isTrue => exact .inl rfl
  case isFalse => exact .inr rfl

theorem Shows.fieldStr (h : s.Shows t) : s.fieldStr = cStr (s.fieldSp ++ t) := by
  unfold Splitter.fieldStr
  rw [h.head]
  rfl

/-! ## Where the number ends -/

theorem noDigit_cStr (h : NoDigit t) : NoDigit (cStr t) := by
  intro c hc
  rcases t with - | ⟨a, t⟩
  · exact absurd hc nofun
  · unfold cStr at hc
    rw [takeWhile_cons] at hc
    split at hc
    case isTrue => exact h c hc
    case isFalse => exact absurd hc nofun

theorem noDigit_iff : NoDigit t ↔ isdigit (deref t) = false := by
  rcases t with - | ⟨a, t⟩
  · exact ⟨fun _ => rfl, fun _ => nofun⟩
  · constructor
    · exact fun h => h a rfl
    · intro h c hc
      rwa [← Option.some.inj hc]

theorem zero_notMem_of_denotes (h : Denotes f v) : 0 ∉ f := by
  have hspace : ∀ {u : Text}, (∀ c ∈ u, isspace c = true) → 0 ∉ u :=
    fun hall hmem => absurd (hall 0 hmem) (by decide)
  have hdigit : ∀ {u : Text}, (∀ c ∈ u, isdigit c = true) → 0 ∉ u :=
    fun hall hmem => absurd (hall 0 hmem) (by decide)
  cases h with
  | unsigned hspaces _ hds =>
    rw [mem_append, not_or]
    exact ⟨hspace hspaces, hdigit hds⟩
  | plus hspaces _ hds =>
    rw [mem_append, mem_cons, not_or, not_or]
    exact ⟨hspace hspaces, by decide, hdigit hds⟩
  | minus hspaces _ hds =>
    rw [mem_append, mem_cons, not_or, not_or]
    exact ⟨hspace hspaces, by decide, hdigit hds⟩

theorem cStr_append_of_notMem (hf : 0 ∉ f) (t : Text) : cStr (f ++ t) = f ++ cStr t :=
  takeWhile_append_of_pos fun _ hc => bne_iff_ne.2 fun hzero => hf (hzero ▸ hc)

theorem length_cStr_lt (hf : 0 ∈ f) (t : Text) : (cStr (f ++ t)).length < f.length := by
  induction f with
  | nil => exact absurd hf not_mem_nil
  | cons c f ih =>
    unfold cStr
    rw [cons_append, takeWhile_cons]
    split
    case isTrue hc =>
      have hmem : 0 ∈ f := (mem_cons.1 hf).resolve_left fun h => absurd h.symm (bne_iff_ne.1 hc)
      exact Nat.succ_lt_succ (ih hmem)
    case isFalse => exact Nat.succ_pos _

/-- Where the text that is left after a number begins. -/
def scanRest (t : Text) : Text :=
  match scan t with
  | none => t
  | some (_, rest) => rest

theorem strtol_snd (t : Text) : (strtol t).2 = scanRest t := by
  rw [strtol_eq]
  unfold scanRest
  rcases scan t with - | ⟨v, rest⟩
  · rfl
  · rfl

theorem strtoul_snd (t : Text) : (strtoul t).2 = scanRest t := by
  unfold strtoul scanRest
  rcases scan t with - | ⟨v, rest⟩
  · rfl
  · rfl

theorem Shows.scan (h : s.Shows t) (ht : NoDigit t) (hv : Denotes s.fieldSp v) :
    scan s.fieldStr = some (v, cStr t) := by
  rw [h.fieldStr, cStr_append_of_notMem (zero_notMem_of_denotes hv)]
  exact hv.scan_append (noDigit_cStr ht)

/-- **In front of no digit, a number ends where a field that is not empty ends if and only if the
field denotes it.** -/
theorem Shows.ends_iff (h : s.Shows t) (hne : s.fieldSp ≠ []) (ht : NoDigit t) :
    s.endCheck (scanRest s.fieldStr) = 0 ↔ ∃ v, Denotes s.fieldSp v := by
  rw [endCheck_eq_zero]
  constructor
  · rw [h.length, h.fieldStr]
    intro hend
    by_cases hzero : 0 ∈ s.fieldSp
    · have hlt := length_cStr_lt hzero t
      lia
    · rw [cStr_append_of_notMem hzero] at hend
      unfold scanRest at hend
      rcases hscan : Strtol.scan (s.fieldSp ++ cStr t) with - | ⟨v, r⟩
      · rw [hscan, Nat.sub_self] at hend
        exact absurd (eq_nil_of_length_eq_zero hend.symm) hne
      · rw [hscan] at hend
        obtain ⟨g, hg, hdenotes, -⟩ := exists_denotes hscan
        have hlen : s.fieldSp.length = g.length := by
          dsimp only at hend
          rw [← hend, hg, length_append]
          lia
        rw [(append_inj hg hlen).1]
        exact ⟨v, hdenotes⟩
  · rintro ⟨v, hv⟩
    unfold scanRest
    rw [h.scan ht hv, h.length, h.fieldStr, cStr_append_of_notMem (zero_notMem_of_denotes hv),
      length_append]
    exact Nat.add_sub_cancel ..

theorem Shows.not_ends (h : s.Shows t) (ht : isdigit (deref t) = true) :
    s.endCheck (scanRest s.fieldStr) ≠ 0 := by
  rw [Ne, endCheck_eq_zero, h.length, h.fieldStr]
  intro hend
  by_cases hzero : 0 ∈ s.fieldSp
  · have hlt := length_cStr_lt hzero t
    lia
  · obtain ⟨c, t, rfl⟩ : ∃ c t', t = c :: t' := by
      rcases t with - | ⟨c, t⟩
      · exact absurd ht (by decide)
      · exact ⟨c, t, rfl⟩
    have hc : isdigit c = true := ht
    have hstr : cStr (c :: t) = c :: cStr t := takeWhile_cons_of_pos (bne_iff_ne.2 fun h => by
      rw [h] at hc
      exact absurd hc (by decide))
    rw [cStr_append_of_notMem hzero, hstr] at hend
    unfold scanRest at hend
    rcases hscan : Strtol.scan (s.fieldSp ++ c :: cStr t) with - | ⟨v, r⟩
    · -- A number begins behind an empty field.
      rw [hscan, Nat.sub_self] at hend
      rw [eq_nil_of_length_eq_zero hend.symm, nil_append] at hscan
      exact absurd hscan (scan_cons_ne_none hc _)
    · rw [hscan] at hend
      obtain ⟨g, hg, -, hr⟩ := exists_denotes hscan
      have hlen : g.length = s.fieldSp.length := by
        dsimp only at hend
        rw [← hend, hg, length_append]
        lia
      obtain ⟨rfl, rfl⟩ := append_inj hg.symm hlen
      rw [hr c rfl] at hc
      exact absurd hc nofun

/-! ## The casts -/

/-- The code is 0 for the texts that denote a number from `lo` to `hi`, which is stored then, and -1
for the others. -/
structure Decides (f : Text) (lo hi : ℤ) (r : ℤ × Option ℤ) : Prop where
  code : r.1 = 0 ∨ r.1 = -1
  zero : r.1 = 0 ↔ ∃ v, Denotes f v ∧ lo ≤ v ∧ v ≤ hi
  stored : ∀ v, Denotes f v → r.1 = 0 → r.2 = some v

theorem narrow_or (lo hi : ℤ) (r : ℤ × Option ℤ) : (narrow lo hi r).1 = 0 ∨ (narrow lo hi r).1 = -1 := by
  unfold narrow
  split
  case h_1 =>
    split
    case isTrue => exact .inl rfl
    case isFalse => exact .inr rfl
  case h_2 => exact .inr rfl

theorem narrow_eq_zero : (narrow lo hi (code, some v)).1 = 0 ↔ code = 0 ∧ lo ≤ v ∧ v ≤ hi := by
  unfold narrow
  dsimp only
  split
  case isTrue h => exact ⟨fun _ => h, fun _ => rfl⟩
  case isFalse h => exact ⟨nofun, fun hin => absurd hin h⟩

theorem narrow_stored (h : (narrow lo hi (code, some v)).1 = 0) :
    (narrow lo hi (code, some v)).2 = some v := by
  unfold narrow
  dsimp only
  rw [if_pos (narrow_eq_zero.1 h)]

theorem decides_of_ends (hcode : code = 0 ∨ code = -1) (hend : code = 0 ↔ ∃ v, Denotes f v)
    (hvalue : ∀ v, Denotes f v → w = v ∧ lo ≤ v ∧ v ≤ hi) : Decides f lo hi (code, some w) := by
  refine ⟨hcode, hend.trans ⟨?_, ?_⟩, fun v hv _ => congrArg some (hvalue v hv).1⟩
  · rintro ⟨v, hv⟩
    exact ⟨v, hv, (hvalue v hv).2⟩
  · rintro ⟨v, hv, -⟩
    exact ⟨v, hv⟩

theorem narrow_decides (hend : code = 0 ↔ ∃ v, Denotes f v)
    (hrange : ∀ v, Denotes f v → (lo ≤ w ∧ w ≤ hi ↔ lo ≤ v ∧ v ≤ hi))
    (hvalue : ∀ v, Denotes f v → lo ≤ v → v ≤ hi → w = v) :
    Decides f lo hi (narrow lo hi (code, some w)) := by
  refine ⟨narrow_or lo hi _, ?_, ?_⟩
  · rw [narrow_eq_zero, hend]
    constructor
    · rintro ⟨⟨v, hv⟩, hw⟩
      exact ⟨v, hv, (hrange v hv).1 hw⟩
    · rintro ⟨v, hv, hin⟩
      exact ⟨⟨v, hv⟩, (hrange v hv).2 hin⟩
  · intro v hv hzero
    obtain ⟨hlow, hhigh⟩ := (hrange v hv).1 (narrow_eq_zero.1 hzero).2
    rw [narrow_stored hzero, hvalue v hv hlow hhigh]

section Fields

variable (h : s.Shows t) (hne : s.fieldSp ≠ []) (ht : NoDigit t)

include h ht in
theorem Shows.strtol_fst (hv : Denotes s.fieldSp v) : (strtol s.fieldStr).1 = saturate v := by
  rw [strtol_eq, h.scan ht hv]

include h ht in
theorem Shows.strtoul_fst (hv : Denotes s.fieldSp v) : (strtoul s.fieldStr).1 = wrap v := by
  unfold strtoul
  rw [h.scan ht hv]

include h hne ht

theorem Shows.strtol_ends : s.endCheck (strtol s.fieldStr).2 = 0 ↔ ∃ v, Denotes s.fieldSp v := by
  rw [strtol_snd]
  exact h.ends_iff hne ht

theorem Shows.strtoul_ends : s.endCheck (strtoul s.fieldStr).2 = 0 ↔ ∃ v, Denotes s.fieldSp v := by
  rw [strtoul_snd]
  exact h.ends_iff hne ht

theorem Shows.toLong_decides (hrange : ∀ v, Denotes s.fieldSp v → -2 ^ 63 ≤ v ∧ v ≤ 2 ^ 63 - 1) :
    Decides s.fieldSp (-2 ^ 63) (2 ^ 63 - 1) s.toLong := by
  refine decides_of_ends endCheck_or (h.strtol_ends hne ht) fun v hv => ⟨?_, hrange v hv⟩
  rw [h.strtol_fst ht hv, saturate_of_le (hrange v hv).1 (hrange v hv).2]

theorem Shows.toUlong_decides (hrange : ∀ v, Denotes s.fieldSp v → 0 ≤ v ∧ v ≤ 2 ^ 64 - 1) :
    Decides s.fieldSp 0 (2 ^ 64 - 1) s.toUlong := by
  refine decides_of_ends endCheck_or (h.strtoul_ends hne ht) fun v hv => ⟨?_, hrange v hv⟩
  rw [h.strtoul_fst ht hv, wrap_of_lt (hrange v hv).1 (Int.lt_of_le_sub_one (hrange v hv).2)]

theorem Shows.narrow_toLong_decides (hlo : -2 ^ 63 < lo) (hhi : hi < 2 ^ 63 - 1) :
    Decides s.fieldSp lo hi (narrow lo hi s.toLong) := by
  refine narrow_decides (h.strtol_ends hne ht) (fun v hv => ?_) fun v hv hlow hhigh => ?_
  · rw [h.strtol_fst ht hv]
    exact saturate_mem_iff hlo hhi
  · rw [h.strtol_fst ht hv]
    exact saturate_of_le (hlo.le.trans hlow) (hhigh.trans hhi.le)

theorem Shows.narrow_toUlong_decides (hwrap : ∀ v, Denotes s.fieldSp v → v ≤ -2 ^ 64 ∨ hi - 2 ^ 64 < v)
    (hhi : hi < 2 ^ 64 - 1) : Decides s.fieldSp 0 hi (narrow 0 hi s.toUlong) := by
  refine narrow_decides (h.strtoul_ends hne ht) (fun v hv => ?_) fun v hv hlow hhigh => ?_
  · rw [h.strtoul_fst ht hv, wrap_mem_iff (hwrap v hv) hhi]
    exact and_iff_right (Int.natCast_nonneg _)
  · rw [h.strtoul_fst ht hv]
    exact wrap_of_lt hlow (by lia)

end Fields

theorem narrow_fst_of_ne (h : r.1 ≠ 0) : (narrow lo hi r).1 = -1 := by
  unfold narrow
  split
  case h_1 => rw [if_neg fun hand => h hand.1]
  case h_2 => rfl

/-- **A cast decides the field alone**, where the field is not empty and no digit comes behind it: a
text for a number that `long` or `unsigned long` cannot hold is left out, and a negative one that
wraps around into the range of a smaller unsigned type. In front of a digit every cast fails, so it
does for a separator and for a field without a number. -/
theorem casts_decide (h : Reached s) (hvalid : s.valid = true) :
    (s.notEnd (s.tail.getD []) = true ∨ (∀ v, ¬Denotes s.fieldSp v) → isdigit s.behind = true →
      s.toInt8.1 = -1 ∧ s.toUint8.1 = -1 ∧ s.toInt.1 = -1 ∧ s.toUint.1 = -1 ∧
        s.toLong.1 = -1 ∧ s.toUlong.1 = -1 ∧ s.toLonglong.1 = -1 ∧ s.toUlonglong.1 = -1) ∧
    (s.fieldSp ≠ [] → isdigit s.behind = false →
      Decides s.fieldSp (-128) 127 s.toInt8 ∧
      Decides s.fieldSp (-2 ^ 31) (2 ^ 31 - 1) s.toInt ∧
      ((∀ v, Denotes s.fieldSp v → -2 ^ 63 ≤ v ∧ v ≤ 2 ^ 63 - 1) →
        Decides s.fieldSp (-2 ^ 63) (2 ^ 63 - 1) s.toLong ∧
        Decides s.fieldSp (-2 ^ 63) (2 ^ 63 - 1) s.toLonglong) ∧
      ((∀ v, Denotes s.fieldSp v → v ≤ -2 ^ 64 ∨ 255 - 2 ^ 64 < v) → Decides s.fieldSp 0 255 s.toUint8) ∧
      ((∀ v, Denotes s.fieldSp v → v ≤ -2 ^ 64 ∨ 2 ^ 32 - 1 - 2 ^ 64 < v) →
        Decides s.fieldSp 0 (2 ^ 32 - 1) s.toUint) ∧
      ((∀ v, Denotes s.fieldSp v → 0 ≤ v ∧ v ≤ 2 ^ 64 - 1) →
        Decides s.fieldSp 0 (2 ^ 64 - 1) s.toUlong ∧
        Decides s.fieldSp 0 (2 ^ 64 - 1) s.toUlonglong)) := by
  obtain ⟨t, hshows⟩ := h.shows hvalid
  have hbehind : s.behind = deref t := by
    unfold behind
    rw [hshows.tail]
    rfl
  constructor
  · intro _ hdigit
    rw [hbehind] at hdigit
    have hends := hshows.not_ends hdigit
    have hlong : s.toLong.1 ≠ 0 := by
      unfold toLong
      rwa [strtol_snd]
    have hulong : s.toUlong.1 ≠ 0 := by
      unfold toUlong
      rwa [strtoul_snd]
    exact ⟨narrow_fst_of_ne hlong, narrow_fst_of_ne hulong, narrow_fst_of_ne hlong,
      narrow_fst_of_ne hulong,
      endCheck_or.resolve_left hlong, endCheck_or.resolve_left hulong, endCheck_or.resolve_left hlong,
      endCheck_or.resolve_left hulong⟩
  · intro hne hdigit
    rw [hbehind] at hdigit
    have ht := noDigit_iff.2 hdigit
    refine ⟨hshows.narrow_toLong_decides hne ht (by decide) (by decide),
      hshows.narrow_toLong_decides hne ht (by decide) (by decide), fun hrange => ?_, fun hwrap =>
        ?_, fun hwrap => ?_,
      fun hrange => ?_⟩
    · exact ⟨hshows.toLong_decides hne ht hrange, hshows.toLong_decides hne ht hrange⟩
    · exact hshows.narrow_toUlong_decides hne ht hwrap (by decide)
    · exact hshows.narrow_toUlong_decides hne ht hwrap (by decide)
    · exact ⟨hshows.toUlong_decides hne ht hrange, hshows.toUlong_decides hne ht hrange⟩

/-- The first field of `-5,3` is refused by `to_uint8`. -/
theorem casts_decide_minus_five :
    Decides [45, 53] 0 255 (StringSplitter.ofStr (some [45, 53, 44, 51]) 44
      .SKIP_EMPTY_FIELD).toUint8 := by
  have hfive : Denotes [45, 53] (-5) := denotes_iff.2 (by decide)
  have hcasts := (casts_decide (.ofStr (some [45, 53, 44, 51]) 44 .SKIP_EMPTY_FIELD) rfl).2
    (by decide) (by decide)
  refine hcasts.2.2.2.1 fun v hv => .inr ?_
  rw [hv.unique hfive]
  decide

theorem Decides.mem_range (h : Decides f lo hi r) (hv : Denotes f v) (hzero : r.1 = 0) :
    lo ≤ v ∧ v ≤ hi := by
  obtain ⟨w, hw, hrange⟩ := h.zero.1 hzero
  rwa [hv.unique hw]

/-- Where the bytes of the field do not decide: in front of a digit that is a separator, in front of
a digit behind the range, in an empty field, above the largest `long`, and below 0 for an unsigned
type. -/
theorem casts_not_decide :
    (∃ s, Reached s ∧ s.valid = true ∧ s.fieldSp = [55] ∧ s.notEnd (s.tail.getD []) = true ∧
      ¬Decides s.fieldSp (-2 ^ 31) (2 ^ 31 - 1) s.toInt) ∧
    (∃ s, Reached s ∧ s.valid = true ∧ s.fieldSp = [55] ∧ s.notEnd (s.tail.getD []) = false ∧
      ¬Decides s.fieldSp (-2 ^ 31) (2 ^ 31 - 1) s.toInt) ∧
    (∃ s, Reached s ∧ s.valid = true ∧ s.fieldSp = [] ∧
      ¬Decides s.fieldSp (-2 ^ 31) (2 ^ 31 - 1) s.toInt) ∧
    (∃ s, Reached s ∧ s.valid = true ∧ Denotes s.fieldSp (2 ^ 63) ∧
      ¬Decides s.fieldSp (-2 ^ 63) (2 ^ 63 - 1) s.toLong) ∧
    (∃ s, Reached s ∧ s.valid = true ∧ Denotes s.fieldSp (-1) ∧
      ¬Decides s.fieldSp 0 (2 ^ 64 - 1) s.toUlong) := by
  have hseven : Denotes [55] 7 := denotes_iff.2 (by decide)
  have hlarge : Denotes [57, 50, 50, 51, 51, 55, 50, 48, 51, 54, 56, 53, 52, 55, 55, 53, 56, 48, 56]
      (2 ^ 63) := denotes_iff.2 (by decide)
  have hminus : Denotes [45, 49] (-1) := denotes_iff.2 (by decide)
  refine ⟨⟨_, .ofStr (some [55, 49, 50]) 49 .SKIP_EMPTY_FIELD, rfl, rfl, rfl, fun h => ?_⟩,
    ⟨_, .ofRange [55] [49] 44 .SKIP_EMPTY_FIELD, rfl, rfl, rfl, fun h => ?_⟩,
    ⟨_, .ofStr (some [44, 55]) 44 .ALLOW_EMPTY_FIELD, rfl, rfl, fun h => ?_⟩,
    ⟨_, .ofStr (some [57, 50, 50, 51, 51, 55, 50, 48, 51, 54, 56, 53, 52, 55, 55, 53, 56, 48, 56]) 44
      .SKIP_EMPTY_FIELD, rfl, hlarge, fun h => ?_⟩,
    ⟨_, .ofStr (some [45, 49]) 44 .SKIP_EMPTY_FIELD, rfl, hminus, fun h => ?_⟩⟩
  · exact absurd (h.zero.2 ⟨7, hseven, by decide⟩) (by decide)
  · exact absurd (h.zero.2 ⟨7, hseven, by decide⟩) (by decide)
  · obtain ⟨v, hv, -⟩ := h.zero.1 rfl
    exact absurd (denotes_iff.1 hv) nofun
  · exact absurd (h.mem_range hlarge rfl) (by decide)
  · exact absurd (h.mem_range hminus rfl) (by decide)

end Splitter

end Eabase.Utility.StringSplitter
