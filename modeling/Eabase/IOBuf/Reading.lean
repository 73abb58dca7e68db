import Eabase.IOBuf.Area

/-!
# Comparing buffers and copying out of them

`equals` goes through two segmentations at once; `copy_to`, `append_to` and `fetch`
go through one. None of them changes a buffer that it reads. Here `length()` is the
32-bit sum of the source, since `equals`, `fetch` and the `std::string` versions rely
on it.
-/

namespace Eabase.IOBuf

open List

/-! ## The code -/

/-- What is left of a reference behind its first `n` bytes. -/
def BlockRef.rest (r : BlockRef) (n : ℕ) : BlockRef := ⟨r.offset + n, r.length - n, r.block⟩

/-- The loop of `equals`. What is left of the references before `i` and `j` is `c₁` and `c₂`. -/
def equalsLoop (b other : IOBuf) (h : Heap) : ℕ → BlockRef → BlockRef → ℕ → ℕ → Bool
  | 0, _, _, _, _ => true
  | fuel + 1, c₁, c₂, i, j =>
      let cmplen := min c₁.length c₂.length
      if h.read c₁.block c₁.offset cmplen ≠ h.read c₂.block c₂.offset cmplen then false
      else if c₁.length = cmplen ∧ b.refNum ≤ i then true
      else if c₂.length = cmplen ∧ other.refNum ≤ j then true
      else
        let (c₁', i') := if c₁.length = cmplen then (b.refAt i, i + 1) else (c₁.rest cmplen, i)
        let (c₂', j') := if c₂.length = cmplen then (other.refAt j, j + 1) else (c₂.rest cmplen, j)
        equalsLoop b other h fuel c₁' c₂' i' j'

/-- `equals(const eabase::IOBuf& other)`. -/
def equals (b other : IOBuf) (h : Heap) : Bool :=
  if IOBuf32.length b ≠ IOBuf32.length other then false
  else if IOBuf32.length b = 0 then true
  else equalsLoop b other h (b.refNum + other.refNum) (b.refAt 0) (other.refAt 0) 1 1

/-- The loop of `equals` for a `StringPiece`; `none` when `memcmp` reads behind the piece. -/
def equalsPieceLoop (s : List Byte) (h : Heap) : List BlockRef → ℕ → Option Bool
  | [], _ => some true
  | r :: rs, soff =>
      if s.length < soff + r.length then none
      else if h.bytes r ≠ (s.drop soff).take r.length then some false
      else equalsPieceLoop s h rs (soff + r.length)

/-- `equals(const eabase::StringPiece& s)`. -/
def equalsPiece (s : List Byte) (b : IOBuf) (h : Heap) : Option Bool :=
  if IOBuf32.length b ≠ s.length then some false else equalsPieceLoop s h b.refList 0

/-- `std::string::resize`. -/
def resizeString (n : ℕ) (s : List Byte) : List Byte := s.take n ++ List.replicate (n - s.length) 0

/-- `memcpy(&s[off], bs)`. -/
def storeAt (off : ℕ) (bs s : List Byte) : List Byte := s.take off ++ bs ++ s.drop (off + bs.length)

/-- `copy_to(std::string* s, size_t n, size_t pos)`: the count and the string. -/
def copyToString (n pos : ℕ) (s : List Byte) (b : IOBuf) (h : Heap) : ℕ × List Byte :=
  let len := IOBuf32.length b
  if len ≤ pos then (0, s)
  else
    let n := if len - pos < n then len - pos else n
    let bs := b.copyTo n pos h
    (bs.length, storeAt 0 bs (resizeString n s))

/-- `append_to(std::string* s, size_t n, size_t pos)`. -/
def appendToString (n pos : ℕ) (s : List Byte) (b : IOBuf) (h : Heap) : ℕ × List Byte :=
  let len := IOBuf32.length b
  if len ≤ pos then (0, s)
  else
    let n := if len - pos < n then len - pos else n
    let bs := b.copyTo n pos h
    (bs.length, storeAt s.length bs (resizeString (s.length + n) s))

/-- What `fetch` returns a pointer to: nothing, a place in a block, or the auxiliary buffer with the
bytes in it. -/
inductive Fetched where
  | null
  | inner (p : Ptr) (off : ℕ)
  | aux (d : List Byte)

/-- The bytes a caller finds there. -/
def Fetched.bytes (n : ℕ) (h : Heap) : Fetched → Option (List Byte)
  | null => none
  | inner p off => some (h.read p off n)
  | aux d => some (d.take n)

def fetchLoop (n : ℕ) (h : Heap) : List BlockRef → List Byte → Fetched
  | [], _ => .null
  | r :: rs, d =>
      if n ≤ r.length + d.length then .aux (d ++ h.read r.block r.offset (n - d.length))
      else fetchLoop n h rs (d ++ h.bytes r)

/-- `fetch(void* d, size_t n)`. -/
def fetch (n : ℕ) (b : IOBuf) (h : Heap) : Fetched :=
  if n ≤ IOBuf32.length b then
    let r0 := b.refAt 0
    if n ≤ r0.length then .inner r0.block r0.offset
    else fetchLoop n h (b.refList.drop 1) (h.bytes r0)
  else .null

/-! ## Prefixes -/

def Comparable {α : Type*} (A B : List α) : Prop := A <+: B ∨ B <+: A

section

variable {α : Type*} {A B X Y : List α}

theorem comparable_nil_left : Comparable [] B := .inl nil_prefix

theorem comparable_nil_right : Comparable A [] := .inr nil_prefix

theorem comparable_append (hlen : X.length = Y.length) : Comparable (X ++ A) (Y ++ B) ↔ X = Y ∧
    Comparable A B := by
  constructor
  · intro hcmp
    have heq : X = Y := by
      rcases hcmp with hpre | hpre
      · have hX : X <+: Y ++ B := (prefix_append X A).trans hpre
        exact (prefix_of_prefix_length_le hX (prefix_append Y B) hlen.le).eq_of_length hlen
      · have hY : Y <+: X ++ A := (prefix_append Y B).trans hpre
        exact ((prefix_of_prefix_length_le hY (prefix_append X A) hlen.ge).eq_of_length hlen.symm).symm
    subst heq
    refine ⟨rfl, ?_⟩
    rwa [Comparable, prefix_append_right_inj, prefix_append_right_inj] at hcmp
  · rintro ⟨rfl, hcmp⟩
    rwa [Comparable, prefix_append_right_inj, prefix_append_right_inj]

theorem comparable_iff_eq (hlen : A.length = B.length) : Comparable A B ↔ A = B := by
  constructor
  · rintro (hpre | hpre)
    · exact hpre.eq_of_length hlen
    · exact (hpre.eq_of_length hlen.symm).symm
  · rintro rfl
    exact .inl prefix_rfl

end

open Heap

/-! ## `equals` -/

section

variable {pos : Bool} {a b : IOBuf} {h : Heap} {c : BlockRef} {i k : ℕ} {s : List Byte}

theorem Heap.bytes_rest (hk : k ≤ c.length) : h.bytes c = h.read c.block c.offset k ++
    h.bytes (c.rest k) := by
  obtain ⟨n, hn⟩ := Nat.exists_eq_add_of_le hk
  rw [bytes, bytes, BlockRef.rest, hn, Nat.add_sub_cancel_left]
  exact h.read_add c.block c.offset k n

theorem drop_refs (hb : b.ViewWF) (hi : i < b.refNum) :
    b.refs.drop i = b.refAt i :: b.refs.drop (i + 1) := by
  rw [refNum_eq hb] at hi
  have hget := refAt_eq hb hi
  rw [getElem?_eq_getElem hi, Option.some.injEq] at hget
  rw [← hget]
  exact drop_eq_getElem_cons hi

theorem content_advance (hb : b.WF true) (hk : k ≤ c.length) (hmore : ¬ (c.length = k ∧ b.refNum ≤ i)) :
    ∃ c' i', (if c.length = k then (b.refAt i, i + 1) else (c.rest k, i)) = (c', i') ∧ 0 < c'.length ∧
      h.bytes c' ++ h.content (b.refs.drop i') = h.bytes (c.rest k) ++ h.content (b.refs.drop i) ∧
      (c.length = k → i < b.refNum ∧ i' = i + 1) ∧ (c.length ≠ k → i' = i) := by
  by_cases hall : c.length = k
  · have hi : i < b.refNum := Nat.not_le.1 fun hle => hmore ⟨hall, hle⟩
    have hdrop := drop_refs hb.view hi
    have hmem : b.refAt i ∈ b.refs := mem_of_mem_drop (hdrop ▸ mem_cons_self)
    refine ⟨b.refAt i, i + 1, if_pos hall, (hb.ref _ hmem).2 rfl, ?_, fun _ => ⟨hi, rfl⟩, fun hne =>
      absurd hall hne⟩
    have hnil : h.bytes (c.rest k) = [] := by
      apply eq_nil_of_length_eq_zero
      rw [bytes_length]
      exact Nat.sub_eq_zero_of_le hall.le
    rw [hnil, hdrop, content_cons, nil_append]
  · refine ⟨c.rest k, i, if_neg hall, ?_, rfl, fun heq => absurd heq hall, fun _ => rfl⟩
    exact Nat.sub_pos_of_lt (lt_of_le_of_ne hk (.symm hall))

theorem rest_nil (hall : c.length = k) (hi : b.refs.length ≤ i) : h.bytes (c.rest k) ++
    h.content (b.refs.drop i) = [] := by
  rw [drop_eq_nil_of_le hi, content_nil, append_nil]
  apply eq_nil_of_length_eq_zero
  rw [bytes_length]
  exact Nat.sub_eq_zero_of_le hall.le

theorem equalsLoop_iff (ha : a.WF true) (hb : b.WF true) :
    ∀ (fuel : ℕ) (c1 c2 : BlockRef) (i j : ℕ), 0 < c1.length → 0 < c2.length →
      (a.refNum - i) + (b.refNum - j) < fuel →
      (equalsLoop a b h fuel c1 c2 i j = true ↔
        Comparable (h.bytes c1 ++ h.content (a.refs.drop i))
        (h.bytes c2 ++ h.content (b.refs.drop j))) := by
  intro fuel
  induction fuel with
  | zero => exact fun _ _ _ _ _ _ hfuel => absurd hfuel (Nat.not_lt_zero _)
  | succ fuel ih =>
    intro c1 c2 i j hc1 hc2 hfuel
    obtain ⟨k, hk⟩ : ∃ k, k = min c1.length c2.length := ⟨_, rfl⟩
    have hk1 : k ≤ c1.length := hk ▸ min_le_left _ _
    have hk2 : k ≤ c2.length := hk ▸ min_le_right _ _
    have hone : c1.length = k ∨ c2.length = k := by
      rcases le_total c1.length c2.length with hle | hle
      · exact .inl (by rw [hk, min_eq_left hle])
      · exact .inr (by rw [hk, min_eq_right hle])
    rw [bytes_rest hk1, bytes_rest hk2, append_assoc, append_assoc,
      comparable_append (by rw [read_length, read_length]), equalsLoop]
    simp only [← hk]
    split
    next hdiff =>
      exact iff_of_false Bool.false_ne_true fun hcmp => hdiff hcmp.1
    rename_i hsame
    rw [not_not] at hsame
    rw [and_iff_right hsame]
    split
    next hend =>
      rw [refNum_eq ha.view] at hend
      rw [rest_nil hend.1 hend.2]
      exact iff_of_true rfl comparable_nil_left
    rename_i hmore1
    split
    next hend =>
      rw [refNum_eq hb.view] at hend
      rw [rest_nil hend.1 hend.2]
      exact iff_of_true rfl comparable_nil_right
    rename_i hmore2
    obtain ⟨c1', i', heq1, hpos1, hbytes1, hnext1, hstay1⟩ := content_advance (h := h) ha hk1 hmore1
    obtain ⟨c2', j', heq2, hpos2, hbytes2, hnext2, hstay2⟩ := content_advance (h := h) hb hk2 hmore2
    rw [heq1, heq2, ← hbytes1, ← hbytes2]
    apply ih c1' c2' i' j' hpos1 hpos2
    -- At least one of the two references has been used up.
    by_cases h1 : c1.length = k
    · obtain ⟨hi, rfl⟩ := hnext1 h1
      by_cases h2 : c2.length = k
      · obtain ⟨hj, rfl⟩ := hnext2 h2
        lia
      · rw [hstay2 h2]
        lia
    · obtain ⟨hj, rfl⟩ := hnext2 (hone.resolve_left h1)
      rw [hstay1 h1]
      lia

theorem content_head (hb : b.WF true) (hne : (h.content b.refs).length ≠ 0) :
    0 < b.refNum ∧ 0 < (b.refAt 0).length ∧ h.content b.refs = h.bytes (b.refAt 0) ++
    h.content (b.refs.drop 1) := by
  have hpos : 0 < b.refNum := by
    rw [refNum_eq hb.view]
    apply length_pos_of_ne_nil
    rintro hnil
    rw [hnil] at hne
    exact hne rfl
  have hdrop := drop_refs hb.view hpos
  rw [drop_zero] at hdrop
  refine ⟨hpos, (hb.ref _ (hdrop ▸ mem_cons_self)).2 rfl, ?_⟩
  conv_lhs => rw [hdrop]
  exact content_cons h _ _

theorem equals_iff (ha : a.WF true) (hb : b.WF true) (hla : IOBuf32.length a = (h.content a.refs).length)
    (hlb : IOBuf32.length b = (h.content b.refs).length) :
    a.equals b h = true ↔ h.content a.refs = h.content b.refs := by
  unfold equals
  rw [hla, hlb]
  split
  next hlen =>
    exact iff_of_false Bool.false_ne_true fun heq => hlen (congrArg List.length heq)
  rename_i hlen
  rw [not_not] at hlen
  split
  next hzero =>
    rw [hzero] at hlen
    rw [List.eq_nil_of_length_eq_zero hzero, List.eq_nil_of_length_eq_zero hlen.symm]
    exact iff_of_true rfl rfl
  next hne =>
    obtain ⟨hna, hpa, hca⟩ := content_head ha hne
    obtain ⟨hnb, hpb, hcb⟩ := content_head hb (hlen ▸ hne)
    rw [equalsLoop_iff ha hb _ _ _ _ _ hpa hpb (by lia), ← hca, ← hcb]
    exact comparable_iff_eq hlen

theorem equalsPieceLoop_eq (rs : List BlockRef) : ∀ (soff : ℕ), soff + sumLen rs = s.length →
    equalsPieceLoop s h rs soff = some (decide (h.content rs = s.drop soff)) := by
  induction rs with
  | nil =>
    intro soff hlen
    have hnil : s.drop soff = [] := drop_eq_nil_of_le (le_of_eq hlen.symm)
    simp [equalsPieceLoop, hnil]
  | cons r rs ih =>
    intro soff hlen
    rw [sumLen_cons] at hlen
    rw [equalsPieceLoop, if_neg (by lia), ih (soff + r.length) (by lia)]
    have hsplit : s.drop soff = (s.drop soff).take r.length ++ s.drop (soff + r.length) := by
      rw [← drop_drop, take_append_drop]
    have htake : (h.bytes r).length = ((s.drop soff).take r.length).length := by
      rw [bytes_length, length_take, length_drop]
      lia
    have hiff : h.content (r :: rs) = s.drop soff ↔
        h.bytes r = (s.drop soff).take r.length ∧ h.content rs = s.drop (soff + r.length) := by
      rw [content_cons]
      conv_lhs => rw [hsplit]
      constructor
      · exact fun heq => append_inj heq htake
      · rintro ⟨h1, h2⟩
        rw [h1, h2]
    split
    next hdiff =>
      rw [decide_eq_false fun heq => hdiff (hiff.1 heq).1]
    next hsame =>
      rw [not_not] at hsame
      rw [decide_eq_decide.2 (hiff.trans (and_iff_right hsame))]

theorem equalsPiece_eq (hb : b.WF pos) (hlen : IOBuf32.length b = (h.content b.refs).length)
    (s : List Byte) :
    b.equalsPiece s h = some (decide (h.content b.refs = s)) := by
  unfold equalsPiece
  rw [hlen, refList_eq hb.view]
  split
  next hne =>
    rw [decide_eq_false fun heq => hne (congrArg List.length heq)]
  next heq =>
    rw [not_not] at heq
    rw [equalsPieceLoop_eq _ 0 (by rw [zero_add, ← content_length h, heq]), List.drop_zero]

structure ComparesRight (a b : IOBuf) (h : Heap) : Prop where
  buf : a.equals b h = true ↔ h.content a.refs = h.content b.refs
  left : ∀ s, a.equalsPiece s h = some (decide (h.content a.refs = s))
  right : ∀ s, b.equalsPiece s h = some (decide (h.content b.refs = s))

/-- A buffer that is taken for shorter or longer than it is does not even equal its own bytes. -/
theorem length_of_equalsPiece (hpiece : ∀ s, b.equalsPiece s h = some (decide (h.content b.refs = s))) :
    IOBuf32.length b = (h.content b.refs).length := by
  by_contra hne
  have hself := hpiece (h.content b.refs)
  rw [equalsPiece, if_pos hne, decide_eq_true rfl] at hself
  cases hself

/-- **`equals` does not see the segmentation**, just when `length()` counts right. -/
theorem comparesRight_iff (ha : a.WF true) (hb : b.WF true) :
    ComparesRight a b h ↔ IOBuf32.length a = (h.content a.refs).length ∧
    IOBuf32.length b = (h.content b.refs).length := by
  constructor
  · intro hright
    exact ⟨length_of_equalsPiece hright.left, length_of_equalsPiece hright.right⟩
  · rintro ⟨hla, hlb⟩
    exact ⟨equals_iff ha hb hla hlb, equalsPiece_eq ha hla, equalsPiece_eq hb hlb⟩

end

/-- The same three bytes as two references and as one. -/
theorem comparesRight_iff_abc :
    let h : Heap := { Heap.init (fun _ k => k.toUInt8) fun _ => false with }
    ComparesRight (sv ⟨5, 2, 1⟩ ⟨7, 1, 2⟩) (sv ⟨5, 3, 3⟩ resetBlockRef) h ↔
      IOBuf32.length (sv ⟨5, 2, 1⟩ ⟨7, 1, 2⟩) = (h.content (sv ⟨5, 2, 1⟩ ⟨7, 1, 2⟩).refs).length ∧
        IOBuf32.length (sv ⟨5, 3, 3⟩ resetBlockRef)
          = (h.content (sv ⟨5, 3, 3⟩ resetBlockRef).refs).length := by
  apply comparesRight_iff
  · exact ⟨⟨by decide, by decide⟩, by decide⟩
  · exact ⟨⟨by decide, by decide⟩, by decide⟩

theorem equals_new {b : IOBuf} {h : Heap} (hlen : IOBuf32.length b = 0) : b.equals new h = true := by
  rw [equals, hlen]
  rfl

/-- 4 GB of user data in two references, and an empty buffer. -/
theorem wrapped_equals_empty :
    let b := sv ⟨0, 2 ^ 31, 1⟩ ⟨0, 2 ^ 31, 2⟩
    let h := Heap.init (fun _ _ => 0) fun _ => false
    b.equals new h = true ∧ (h.content b.refs).length = 2 ^ 32 ∧ h.content new.refs = [] := by
  intro b h
  refine ⟨equals_new (by decide), ?_, rfl⟩
  rw [content_length]
  decide

/-! ## Copying -/

section

variable {pos : Bool} {b : IOBuf} {h : Heap} {s bs : List Byte} {n : ℕ}

theorem storeAt_resize (bs s : List Byte) (old : ℕ) (hold : old = (s.take old).length) :
    storeAt old bs (resizeString (old + bs.length) s) = s.take old ++ bs := by
  have hold' : old ≤ s.length := by
    rw [hold, length_take]
    exact min_le_right _ _
  have hlen : (resizeString (old + bs.length) s).length = old + bs.length := by
    rw [resizeString, length_append, length_take, length_replicate]
    lia
  rw [storeAt, drop_eq_nil_of_le hlen.le, append_nil]
  congr 1
  rw [resizeString, take_append_of_le_length (by rw [length_take]; lia), take_take]
  congr 1
  exact min_eq_left (Nat.le_add_right _ _)

theorem take_limited (n p : ℕ) :
    (bs.drop p).take (if bs.length - p < n then bs.length - p else n) = (bs.drop p).take n := by
  rw [← length_drop]
  split
  next hlt =>
    rw [take_length, take_of_length_le hlt.le]
  · rfl

theorem take_limited_length (n p : ℕ) :
    ((bs.drop p).take n).length = if bs.length - p < n then bs.length - p else n := by
  rw [length_take, length_drop]
  split
  next hlt =>
    exact min_eq_right hlt.le
  next hge =>
    exact min_eq_left (Nat.not_lt.1 hge)

theorem fetchLoop_eq (rs : List BlockRef) (n : ℕ) : ∀ (d : List Byte), d.length ≤ n →
    n ≤ d.length + sumLen rs → rs ≠ [] →
    fetchLoop n h rs d = .aux ((d ++ h.content rs).take n) := by
  induction rs with
  | nil => exact fun _ _ _ hne => absurd rfl hne
  | cons r rs ih =>
    intro d hd hn _
    rw [sumLen_cons] at hn
    rw [fetchLoop, content_cons]
    have hlen : (d ++ h.bytes r).length = d.length + r.length := by rw [length_append, bytes_length]
    split
    next hfit =>
      rw [← append_assoc, take_append_of_le_length (by lia), take_append, take_of_length_le hd]
      congr 2
      exact (read_take (by lia)).symm
    next hmore =>
      have hne : rs ≠ [] := by
        rintro rfl
        rw [sumLen_nil] at hn
        lia
      rw [ih _ (by lia) (by lia) hne, append_assoc]

theorem fetch_bytes (hb : b.WF pos) (hlen : IOBuf32.length b = (h.content b.refs).length) (hn : 0 < n) :
    (b.fetch n h).bytes n h = if n ≤ (h.content b.refs).length then some ((h.content b.refs).take n)
    else none := by
  unfold fetch
  rw [hlen]
  split
  next hle =>
    have hpos : 0 < b.refNum := by
      rw [refNum_eq hb.view]
      apply length_pos_of_ne_nil
      rintro hnil
      rw [hnil] at hle
      exact absurd hn (Nat.not_lt.2 hle)
    have hdrop := drop_refs hb.view hpos
    rw [drop_zero] at hdrop
    have hcontent : h.content b.refs = h.bytes (b.refAt 0) ++ h.content (b.refs.drop 1) := by
      conv_lhs => rw [hdrop]
      exact content_cons h _ _
    rw [hcontent, length_append, bytes_length, content_length] at hle
    rw [hcontent]
    simp only
    split
    next hfit =>
      rw [take_append_of_le_length (by rwa [bytes_length]), Fetched.bytes]
      congr 1
      exact (read_take hfit).symm
    next hmore =>
      have hne : b.refs.drop 1 ≠ [] := by
        intro hnil
        rw [hnil, sumLen_nil] at hle
        exact hmore hle
      rw [refList_eq hb.view, fetchLoop_eq _ n _ (by rw [bytes_length]; exact (Nat.not_le.1 hmore).le)
        (by rwa [bytes_length]) hne, Fetched.bytes, take_take, Nat.min_self]
  · rfl

theorem fetch_null_iff (hb : b.WF pos) (hlen : IOBuf32.length b = (h.content b.refs).length)
    (hn : 0 < n) :
    b.fetch n h = .null ↔ (h.content b.refs).length < n := by
  have hbytes := fetch_bytes hb hlen hn
  rw [← not_le]
  constructor
  · intro hnull hle
    rw [hnull, if_pos hle] at hbytes
    cases hbytes
  · intro hlt
    rw [if_neg hlt] at hbytes
    cases hfetch : b.fetch n h with
    | null => rfl
    | inner p off =>
      rw [hfetch] at hbytes
      cases hbytes
    | aux d =>
      rw [hfetch] at hbytes
      cases hbytes

/-- What the readers deliver of a buffer with the bytes `bs`. -/
structure Delivers (b : IOBuf) (h : Heap) (bs : List Byte) : Prop where
  copyTo : ∀ n p, b.copyTo n p h = (bs.drop p).take n
  /-- The string is the bytes, but it stays what it was when there are none from `p` on. -/
  copyToString : ∀ n p s, b.copyToString n p s h =
    (((bs.drop p).take n).length, if bs.length ≤ p then s else (bs.drop p).take n)
  appendToString : ∀ n p s, b.appendToString n p s h
    = (((bs.drop p).take n).length, s ++ (bs.drop p).take n)
  fetch_null : ∀ n, 0 < n → (b.fetch n h = .null ↔ bs.length < n)
  fetch : ∀ n, 0 < n → n ≤ bs.length → (b.fetch n h).bytes n h = some (bs.take n)

theorem Rep.delivers {l : List Ptr} {Y : Multiset BlockRef} {K : Multiset Ptr} {S : Ptr → Option ℕ}
    (R : Rep pos h l b Y K S) (hlen : IOBuf32.length b = (h.content b.refs).length) :
    Delivers b h (h.content b.refs) := by
  have hnone : ∀ n p, (h.content b.refs).length ≤ p → ((h.content b.refs).drop p).take n = [] := by
    intro n p hle
    rw [drop_eq_nil_of_le hle, take_nil]
  constructor
  case copyTo => exact R.copyTo
  case copyToString =>
    intro n p s
    unfold IOBuf.copyToString
    simp only [hlen, R.copyTo, take_limited]
    split
    next hle =>
      rw [hnone n p hle, length_nil]
    · rw [← take_limited_length]
      have hstore := storeAt_resize (((h.content b.refs).drop p).take n) s 0 rfl
      rw [zero_add, take_zero, nil_append] at hstore
      rw [hstore]
  case appendToString =>
    intro n p s
    unfold IOBuf.appendToString
    simp only [hlen, R.copyTo, take_limited]
    split
    next hle =>
      rw [hnone n p hle, length_nil, append_nil]
    · rw [← take_limited_length, storeAt_resize _ s s.length (by rw [take_length]), take_length]
  case fetch_null => exact fun n hn => fetch_null_iff R.wf hlen hn
  case fetch =>
    intro n hn hle
    rw [fetch_bytes R.wf hlen hn, if_pos hle]

end

/-- **The readers agree with the byte string.** Those that ask for `length()` do so where it counts
right, and after a run that stays in 32 bits it does. -/
theorem run_readers_agree {ι κ : Type} [DecidableEq ι] [DecidableEq κ] [Fintype ι] [Fintype κ]
    (mem : Ptr → ℕ → Byte)
    (oom : Ptr → Bool) (acts : List (AreaAction ι κ)) {i j : ι} (hij : i ≠ j) :
    let W := (World.init mem oom : World ι κ).runArea acts
    let b := (W.portal i).buf
    let bs := W.heap.content b.refs
    (IOBuf32.length b = bs.length → Delivers b W.heap bs) ∧
      (∀ n p, b.copyTo n p W.heap = (bs.drop p).take n) ∧
      (∀ n p, let out := b.appendTo n p (W.portal j).buf W.heap
        out.1 = ((bs.drop p).take n).length ∧
          out.2.2.content out.2.1.refs = W.heap.content (W.portal j).buf.refs ++ (bs.drop p).take n ∧
          out.2.2.content b.refs = bs) ∧
      ((World.init mem oom : World ι κ).RunFits acts → IOBuf32.read b = some b ∧
        IOBuf32.length b = bs.length) := by
  intro W b bs
  obtain ⟨l, c, S, F⟩ : ∃ l c S, WInv W l c S := (WInv.init mem oom).runArea
  have R := (F.focusPortal i).rep
  refine ⟨R.delivers, R.copyTo, ?_, fun hrun => F.reads (hrun.fits (World.init_fits mem oom)) i⟩
  intro n p
  have hmem : ∀ r ∈ b.refs, r ∈ W.otherRefs (.inl j) := fun r hr =>
    World.refs_mem_other (y := .inl i) (by simpa using hij) hr
  obtain ⟨k, b', h', happend⟩ : ∃ k b' h', b.appendTo n p (W.portal j).buf W.heap = (k, b', h') :=
    ⟨_, _, _, rfl⟩
  obtain ⟨R', hf, hcount, hcontent⟩ := (F.focusPortal j).rep.appendTo (F.portal i).wf hmem happend
  simp only [happend]
  exact ⟨hcount, hcontent, (R'.frame hf).content hmem⟩

theorem run_readers_agree_xy :
    let W := (World.init (fun _ _ => 0) (fun _ => false) : World Bool Empty).runArea
      [.act (.buf (.append true (some [120, 121])))]
    Delivers (W.portal true).buf W.heap [120, 121] :=
  (run_readers_agree (fun _ _ => 0) (fun _ => false) [.act (.buf (.append true (some [120, 121])))]
    (i := true)
    (j := false) (by decide)).1 (by decide)

/-- A string that a buffer without bytes is copied to keeps what it had. -/
theorem stale_string : new.copyToString 10 0 [120] (Heap.init (fun _ _ => 0) fun _ => false)
      = (0, [120]) := rfl

end Eabase.IOBuf
