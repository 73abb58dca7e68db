import Eabase.Var.MultiDimension

/-!
# The keys of a dump

`dump` of a `MultiDimension` names each number by a text key: the name with a
suffix, and in braces the labels with their values between quotes, with the
quantile behind them. The values are written as C strings, up to a `NUL`, and as
they are, also when they have quotes or commas in them.

So a quote in a value can take the place of the one behind it, and two lists of
values can have one key. When one of the two lists has no quotes in it they
cannot: all quotes of the key are then in the places where it is written.
-/

namespace Eabase.Var.DumpKey

open List

open Var.MultiDimension (Key)

/-! ## The keys -/

def quote : Char := Char.ofNat 34

/-- `c_str()`, as it is written to a stream. -/
def cStr (s : String) : List Char :=
  s.toList.takeWhile fun c => c != Char.ofNat 0

/-- What `dump` needs of a `MultiDimension`: `name()` and `_labels`. -/
structure Labelled where
  name : String
  labels : List String

/-- The loop of `make_labels_kvpair_string`. -/
def kvpairs (comma : List Char) : List String → Key → List Char
  | key :: labels, value :: labelsValue =>
    comma ++ cStr key ++ "=\"".toList ++ cStr value ++ "\"".toList ++
      kvpairs ",".toList labels labelsValue
  | _, _ => []

def quantileText (quantile : ℤ) : List Char :=
  if quantile > 0 then ",quantile=\"".toList ++ quantile.repr.toList ++ "\"".toList else []

/-- `make_labels_kvpair_string`. -/
def makeLabelsKvpairString (labels : List String) (labelsValue : Key) (quantile : ℤ) : List Char :=
  "\x7b".toList ++ kvpairs [] labels labelsValue ++ quantileText quantile ++ "\x7d".toList

/-- `make_dump_key`. -/
def makeDumpKey (m : Labelled) (labelsValue : Key) (suffix : String) (quantile : ℤ) : List Char :=
  m.name.toList ++ suffix.toList ++ makeLabelsKvpairString m.labels labelsValue quantile

/-- `is_valid_lables_value`. -/
def isValidLablesValue (m : Labelled) (labelsValue : Key) : Bool :=
  m.labels.length == labelsValue.length

/-! ## `dump` -/

/-- The flags `var_latency_p1`, `var_latency_p2` and `var_latency_p3`, with what their validator
checks. -/
structure Percentiles where
  p1 : ℤ
  p2 : ℤ
  p3 : ℤ
  valid : ∀ p ∈ [p1, p2, p3], 0 < p ∧ p < 100

/-- What `dump` of latency recorders writes under one comment: the suffix of its name, its type, and
the quantiles. -/
structure Group where
  suffix : String
  type : String
  quantiles : List ℤ

/-- The comments in the order of `dump`. -/
def dumpGroups (p : Percentiles) : List Group :=
  [⟨"_latency", "gauge", [0, p.p1, p.p2, p.p3, 999, 9999]⟩, ⟨"_max_latency", "gauge", [0]⟩,
    ⟨"_qps", "gauge", [0]⟩, ⟨"_count", "counter", [0]⟩]

/-- The suffixes and quantiles that `dump` uses. -/
def dumpPairs (p : Percentiles) : List (String × ℤ) :=
  ("", 0) :: (dumpGroups p).flatMap fun group => group.quantiles.map fun quantile =>
    (group.suffix, quantile)

variable {m : Labelled} {labels : List String} {v w : Key} {comma rest : List Char}
  {p : Percentiles}

/-! ## The values -/

/-- How many quotes there are in the values, as they are written. -/
def quotes (labelsValue : Key) : ℕ := (labelsValue.map fun value => (cStr value).count quote).sum

theorem quotes_cons (value : String) : quotes (value :: v) = (cStr value).count quote + quotes v := by
  rw [quotes, map_cons, sum_cons]
  rfl

theorem count_kvpairs (comma : List Char) (hv : labels.length = v.length)
    (hw : labels.length = w.length) :
    (kvpairs comma labels v).count quote + quotes w = (kvpairs comma labels w).count quote
      + quotes v := by
  induction labels generalizing comma v w with
  | nil =>
    obtain rfl := eq_nil_of_length_eq_zero hv.symm
    obtain rfl := eq_nil_of_length_eq_zero hw.symm
    rfl
  | cons key labels ih =>
    cases v with
    | nil => exact nomatch hv
    | cons value v =>
      cases w with
      | nil => exact nomatch hw
      | cons value' w =>
        have hrest := ih ",".toList (Nat.succ.inj hv) (Nat.succ.inj hw)
        rw [kvpairs, kvpairs, quotes_cons, quotes_cons]
        simp only [count_append]
        lia

/-- Texts that are followed by one character, which is in none of them, are split there. -/
theorem append_cons_inj {a : Char} {x y z z' : List Char} (hx : a ∉ x) (hy : a ∉ y)
    (h : x ++ a :: z = y ++ a :: z') :
    x = y ∧ z = z' := by
  induction x generalizing y with
  | nil =>
    cases y with
    | nil => exact ⟨rfl, tail_eq_of_cons_eq h⟩
    | cons b y =>
      have hhead : a = b := head_eq_of_cons_eq h
      exact absurd (hhead ▸ mem_cons_self) hy
  | cons b x ih =>
    cases y with
    | nil =>
      have hhead : b = a := head_eq_of_cons_eq h
      exact absurd (hhead ▸ mem_cons_self) hx
    | cons b' y =>
      have hhead : b = b' := head_eq_of_cons_eq h
      rw [mem_cons, not_or] at hx hy
      obtain ⟨hxy, hz⟩ := ih hx.2 hy.2 (tail_eq_of_cons_eq h)
      exact ⟨by rw [hhead, hxy], hz⟩

theorem not_mem_of_quotes_cons {value : String} (h : quotes (value :: v) = 0) : quote ∉ cStr value ∧
    quotes v = 0 := by
  rw [quotes_cons, Nat.add_eq_zero_iff, count_eq_zero] at h
  exact h

theorem kvpairs_inj (hv : labels.length = v.length) (hw : labels.length = w.length) (hnone : quotes v = 0)
    (hnone' : quotes w = 0) (h : kvpairs comma labels v = kvpairs comma labels w) :
    v.map cStr = w.map cStr := by
  induction labels generalizing comma v w with
  | nil =>
    obtain rfl := eq_nil_of_length_eq_zero hv.symm
    obtain rfl := eq_nil_of_length_eq_zero hw.symm
    rfl
  | cons key labels ih =>
    cases v with
    | nil => exact nomatch hv
    | cons value v =>
      cases w with
      | nil => exact nomatch hw
      | cons value' w =>
        obtain ⟨hvalue, hrest⟩ := not_mem_of_quotes_cons hnone
        obtain ⟨hvalue', hrest'⟩ := not_mem_of_quotes_cons hnone'
        have htext : cStr value ++ quote :: kvpairs ",".toList labels v
            = cStr value' ++ quote :: kvpairs ",".toList labels w := by
          simp only [kvpairs, append_assoc] at h
          exact append_cancel_left (append_cancel_left (append_cancel_left h))
        obtain ⟨heq, htail⟩ := append_cons_inj hvalue hvalue' htext
        rw [map_cons, map_cons, heq, ih (Nat.succ.inj hv) (Nat.succ.inj hw) hrest hrest' htail]

theorem kvpairs_inj_of_length_le_one (hone : labels.length ≤ 1) (hv : labels.length = v.length)
    (hw : labels.length = w.length) (h : kvpairs comma labels v = kvpairs comma labels w) :
    v.map cStr = w.map cStr := by
  match labels, v, w, hv, hw with
  | [], [], [], _, _ => rfl
  | [key], [value], [value'], _, _ =>
    simp only [kvpairs, append_assoc] at h
    have htext := append_cancel_left (append_cancel_left (append_cancel_left h))
    rw [map_singleton, map_singleton, append_cancel_right htext]
  | _ :: _ :: _, _, _, _, _ => exact absurd hone (by simp)

/-! ## The suffix and the quantile -/

theorem quantileText_inj {q q' : ℤ} (hq : 0 ≤ q) (hq' : 0 ≤ q')
    (h : quantileText q = quantileText q') : q = q' := by
  rw [quantileText, quantileText] at h
  by_cases hpos : q > 0
  · by_cases hpos' : q' > 0
    · rw [if_pos hpos, if_pos hpos', append_assoc, append_assoc] at h
      have hrepr := append_cancel_right (append_cancel_left h)
      obtain ⟨n, rfl⟩ := Int.eq_ofNat_of_zero_le hq
      obtain ⟨n', rfl⟩ := Int.eq_ofNat_of_zero_le hq'
      have hdigits : Nat.toDigits 10 n = Nat.toDigits 10 n' := by
        rw [← Nat.toList_repr, ← Nat.toList_repr]
        exact hrepr
      have hn := Nat.ofDigitChars_toDigits (b := 10) (n := n) (by decide) (by decide)
      rw [hdigits, Nat.ofDigitChars_toDigits (by decide) (by decide)] at hn
      rw [hn]
    · rw [if_pos hpos, if_neg hpos'] at h
      exact nomatch h
  · by_cases hpos' : q' > 0
    · rw [if_neg hpos, if_pos hpos'] at h
      exact nomatch h
    · exact (le_antisymm (not_lt.1 hpos) hq).trans (le_antisymm (not_lt.1 hpos') hq').symm

def brace : Char := Char.ofNat 123

/-- The suffixes of `dump` have no brace, and its quantiles are not negative. -/
theorem dumpPairs_spec {pair : String × ℤ} (h : pair ∈ dumpPairs p) :
    brace ∉ pair.1.toList ∧ 0 ≤ pair.2 := by
  have hvalid := p.valid
  simp only [mem_cons, not_mem_nil, or_false, forall_eq_or_imp, forall_eq] at hvalid
  simp only [dumpPairs, dumpGroups, flatMap_cons, flatMap_nil, map_cons, map_nil, cons_append,
    nil_append, append_nil, mem_cons, not_mem_nil, or_false] at h
  rcases h with rfl | rfl | rfl | rfl | rfl | rfl | rfl | rfl | rfl | rfl
  all_goals
    constructor
    · dsimp only
      decide
    · lia

theorem makeDumpKey_pair_inj {a b : String × ℤ} (ha : a ∈ dumpPairs p) (hb : b ∈ dumpPairs p)
    (h : makeDumpKey m v a.1 a.2 = makeDumpKey m v b.1 b.2) : a = b := by
  obtain ⟨hbrace, hq⟩ := dumpPairs_spec ha
  obtain ⟨hbrace', hq'⟩ := dumpPairs_spec hb
  simp only [makeDumpKey, makeLabelsKvpairString, append_assoc] at h
  obtain ⟨hsuffix, htail⟩ := append_cons_inj hbrace hbrace' (append_cancel_left h)
  have hquantile := quantileText_inj hq hq' (append_cancel_right (append_cancel_left htail))
  exact Prod.ext (String.toList_inj.1 hsuffix) hquantile

/-- Keys with one suffix and quantile tell the values, when there are quotes in at most one of the
two lists. -/
theorem makeDumpKey_values_inj {suffix : String} {quantile : ℤ} (hv : isValidLablesValue m v = true)
    (hw : isValidLablesValue m w = true) (hplain : m.labels.length ≤ 1 ∨ quotes v = 0 ∨ quotes w = 0)
    (h : makeDumpKey m v suffix quantile = makeDumpKey m w suffix quantile) :
    v.map cStr = w.map cStr := by
  have hlen : m.labels.length = v.length := beq_iff_eq.1 hv
  have hlen' : m.labels.length = w.length := beq_iff_eq.1 hw
  have htext : kvpairs [] m.labels v = kvpairs [] m.labels w :=
    append_cancel_left (append_cancel_right (append_cancel_right (append_cancel_left h)))
  rcases hplain with hone | hplain
  · exact kvpairs_inj_of_length_le_one hone hlen hlen' htext
  · have hcount := count_kvpairs [] hlen hlen'
    rw [htext] at hcount
    have heq : quotes w = quotes v := Nat.add_left_cancel hcount
    rcases hplain with hnone | hnone
    · exact kvpairs_inj hlen hlen' hnone (heq.trans hnone) htext
    · exact kvpairs_inj hlen hlen' (heq.symm.trans hnone) hnone htext

/-- **The key of a dump identifies the metric** as far as values have no quotes: two lists of values
that differ as C strings have different keys when one of them is without quotes, or there is just
one label; and the keys of two suffixes and quantiles of a dump are always different. -/
theorem makeDumpKey_identifies (m : Labelled) (p : Percentiles) :
    (∀ v w suffix quantile, isValidLablesValue m v = true → isValidLablesValue m w = true →
      v.map cStr ≠ w.map cStr → (m.labels.length ≤ 1 ∨ quotes v = 0 ∨ quotes w = 0) →
      makeDumpKey m v suffix quantile ≠ makeDumpKey m w suffix quantile) ∧
    (∀ v, ∀ a ∈ dumpPairs p, ∀ b ∈ dumpPairs p, a ≠ b → makeDumpKey m v a.1 a.2
      ≠ makeDumpKey m v b.1 b.2) := by
  constructor
  · intro v w suffix quantile hv hw hne hplain heq
    exact hne (makeDumpKey_values_inj hv hw hplain heq)
  · intro v a ha b hb hne heq
    exact hne (makeDumpKey_pair_inj ha hb heq)

def defaultPercentiles : Percentiles := ⟨80, 90, 99, by decide⟩

/-- A comma in a value, and the label of a percentile. -/
theorem makeDumpKey_identifies_comma :
    makeDumpKey ⟨"requests", ["idc", "method"]⟩ ["tc,get", "post"] "" 0
        ≠ makeDumpKey ⟨"requests", ["idc", "method"]⟩ ["tc", "get,post"] "" 0 ∧
      makeDumpKey ⟨"requests", ["idc", "method"]⟩ ["tc", "get"] "_latency" 80
        ≠ makeDumpKey ⟨"requests", ["idc", "method"]⟩ ["tc", "get"] "_latency" 0 :=
  ⟨(makeDumpKey_identifies ⟨"requests", ["idc", "method"]⟩ defaultPercentiles).1 _ _ "" 0 rfl rfl
    (by decide)
      (.inr (.inl (by decide))),
    (makeDumpKey_identifies ⟨"requests", ["idc", "method"]⟩ defaultPercentiles).2 ["tc", "get"]
      ("_latency", 80)
      (by decide) ("_latency", 0) (by decide) (by decide)⟩

/-- Two lists of values for two labels, both with quotes, that have the same key. -/
theorem quoted_values_collide :
    (isValidLablesValue ⟨"requests", ["idc", "method"]⟩ ["tc\",method=\"get", "post"] = true ∧
      isValidLablesValue ⟨"requests", ["idc", "method"]⟩ ["tc", "get\",method=\"post"] = true ∧
      (["tc\",method=\"get", "post"] : Key) ≠ ["tc", "get\",method=\"post"]) ∧
    makeDumpKey ⟨"requests", ["idc", "method"]⟩ ["tc\",method=\"get", "post"] "" 0
      = makeDumpKey ⟨"requests", ["idc", "method"]⟩ ["tc", "get\",method=\"post"] "" 0 := by
  decide

end Eabase.Var.DumpKey
