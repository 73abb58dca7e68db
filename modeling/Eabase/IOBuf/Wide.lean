import Eabase.IOBuf.Reserve
import Eabase.Lib.Machine

/-!
# Lengths in 32 bits

User data may be as large as a reference can say: an offset and a length have 32
bits. The model of the other files counts without bounds. Here the arithmetic of
the source is in it: the length of a `SmallView`, and the length that a
`BigView` begins with, are sums of 32 bits, and what kind of view a buffer has is
read from the first bit of the place where the offset of its first reference is.

So more than 4 GB in two or three references are counted wrong, and a buffer
whose first reference begins in the upper half of its block is taken for a
`BigView`. Where this does not happen, the code does what it does without bounds.

Reference counts and bytes are left out, and `none` stands for a buffer that is read as the
other view: pointers are taken for numbers then.
-/

namespace Eabase.IOBuf32

open IOBuf Function List
open IOBuf (bv new sv)

/-! ## The code -/

/-- `_small()`: the sign of `magic`, which shares its place with the offset of the first
reference. -/
def small : IOBuf → Bool
  | .sv refs0 _ => decide (refs0.offset < 2 ^ 31)
  | .bv _ => false

/-- `length()`. -/
def length : IOBuf → ℕ
  | .sv refs0 refs1 => (refs0.length + refs1.length) % 2 ^ 32
  | .bv v => v.nbytes

/-- The buffer, if it is read as what it was written as. -/
def read (b : IOBuf) : Option IOBuf := if small b = b.small then some b else none

/-- `a - b` of `size_t`. -/
def sub64 (a b : ℕ) : ℕ := (a + 2 ^ 64 - b) % 2 ^ 64

def Mergeable (back r : BlockRef) : Prop :=
  back.block = r.block ∧ (back.offset + back.length) % 2 ^ 32 = r.offset

instance (back r : BlockRef) : Decidable (Mergeable back r) := inferInstanceAs (Decidable (_ ∧ _))

def grow (back r : BlockRef) : BlockRef := { back with length := (back.length + r.length) % 2 ^ 32 }

/-- What `_push_back_ref` and `_move_back_ref` do to the view. There is no array of 2^32
references. -/
def pushView (r : BlockRef) : IOBuf → Option IOBuf
  | .sv refs0 refs1 =>
      if refs0.block = NULL then some (.sv r refs1)
      else if refs1.block = NULL then
        if Mergeable refs0 r then some (.sv (grow refs0 r) refs1) else some (.sv refs0 r)
      else if Mergeable refs1 r then some (.sv refs0 (grow refs1 r))
      else some (.bv ⟨0, acquireBlockrefArray [refs0, refs1, r], 3, INITIAL_CAP - 1,
        (refs0.length + refs1.length + r.length) % 2 ^ 32⟩)
  | .bv v =>
      let back := v.refAt (v.nref - 1)
      if Mergeable back r then
        some (.bv { v.setRefAt (v.nref - 1) (grow back r) with nbytes := (v.nbytes + r.length) % 2 ^ 64 })
      else if v.nref ≠ v.capacity then
        some (.bv { v.setRefAt v.nref r with nref := v.nref + 1, nbytes :=
          (v.nbytes + r.length) % 2 ^ 64 })
      else
        let newCap := v.capacity * 2 % 2 ^ 32
        if newCap = 0 then none
        else some
          (.bv ⟨0, acquireBlockrefArray ((List.range v.nref).map v.refAt ++ [r]), v.nref + 1,
          newCap - 1,
          (v.nbytes + r.length) % 2 ^ 64⟩)

/-- `_push_back_ref`, `_move_back_ref`. -/
def pushBackRef (r : BlockRef) (b : IOBuf) : Option IOBuf := (read b).bind (pushView r)

/-- `append(const IOBuf& other)`, whose references are `rs`. -/
def pushRefs : List BlockRef → IOBuf → Option IOBuf
  | [], b => some b
  | r :: rs, b => (pushBackRef r b).bind (pushRefs rs)

/-- The array of a `BigView` is full, and `_push_or_move_back_ref_to_bigview` deletes it for a
larger one. -/
def Resizes (r : BlockRef) : IOBuf → Prop
  | .sv _ _ => False
  | .bv v => ¬Mergeable (v.refAt (v.nref - 1)) r ∧ v.nref = v.capacity

instance (r : BlockRef) : ∀ b : IOBuf, Decidable (Resizes r b)
  | .sv _ _ => inferInstanceAs (Decidable False)
  | .bv _ => inferInstanceAs (Decidable (_ ∧ _))

/-- `buf.append(buf)`: what is pushed is a reference into the array of `buf` itself, which is read
when its turn comes, so `none` stands for the array being deleted before it is read, too. -/
def pushSelf : ℕ → ℕ → IOBuf → Option IOBuf
  | 0, _, b => some b
  | k + 1, i, b => (read b).bind fun b =>
      if Resizes (b.refAt i) b then none else (pushBackRef (b.refAt i) b).bind (pushSelf k (i + 1))

/-- `append(const IOBuf& other)`. -/
def append (other b : IOBuf) : Option IOBuf := (read other).bind fun other => pushRefs other.refList b

/-- `buf.append(buf)`. -/
def appendSelf (b : IOBuf) : Option IOBuf := (read b).bind fun b => pushSelf b.refNum 0 b

/-- What `_pop_front_ref` and `_moveout_front_ref` do to the view. -/
def popFrontView : IOBuf → IOBuf
  | .sv refs0 refs1 => if refs0.block ≠ NULL then .sv refs1 resetBlockRef else .sv refs0 refs1
  | .bv v =>
      if 2 < v.nref - 1 then
        .bv { v with
          nref := v.nref - 1
          start := (v.start + 1) &&& v.capMask
          nbytes := sub64 v.nbytes (v.refs v.start).length }
      else .sv (v.refs ((v.start + 1) &&& v.capMask)) (v.refs ((v.start + 2) &&& v.capMask))

/-- What `_pop_back_ref` does to the view. -/
def popBackView : IOBuf → IOBuf
  | .sv refs0 refs1 =>
      if refs1.block ≠ NULL then .sv refs0 resetBlockRef
      else if refs0.block ≠ NULL then .sv resetBlockRef refs1
      else .sv refs0 refs1
  | .bv v =>
      if 2 < v.nref - 1 then
        .bv { v with
          nref := v.nref - 1
          nbytes := sub64 v.nbytes (v.refs ((v.start + v.nref - 1) &&& v.capMask)).length }
      else .sv (v.refs v.start) (v.refs ((v.start + 1) &&& v.capMask))

/-- The front reference is made shorter. `_small()` is asked after the offset has changed: in a
`SmallView` that is taken for a `BigView` now, `_bv.nbytes -= n` changes the pointer to the second
block. -/
def trimFront (n : ℕ) : IOBuf → Option IOBuf
  | .sv refs0 refs1 =>
      let r : BlockRef := { refs0 with offset := (refs0.offset + n) % 2 ^ 32, length := refs0.length - n }
      read (.sv r refs1)
  | .bv v =>
      let r := v.refs v.start
      let r : BlockRef := { r with offset := (r.offset + n) % 2 ^ 32, length := r.length - n }
      some (.bv { v with refs := update v.refs v.start r, nbytes := sub64 v.nbytes n })

/-- The back reference is made shorter. -/
def trimBack (n : ℕ) : IOBuf → IOBuf
  | .sv refs0 refs1 =>
      if refs1.block = NULL then .sv { refs0 with length := refs0.length - n } refs1
      else .sv refs0 { refs1 with length := refs1.length - n }
  | .bv v =>
      let r := v.refAt (v.nref - 1)
      .bv { v.setRefAt (v.nref - 1) { r with length := r.length - n } with nbytes := sub64 v.nbytes n }

def popFrontLoop : ℕ → ℕ → IOBuf → Option IOBuf
  | 0, _, b => some b
  | fuel + 1, n, b =>
      if n = 0 then some b
      else (read b).bind fun b =>
        if n < b.frontRef.length then trimFront n b
        else popFrontLoop fuel (n - b.frontRef.length) (popFrontView b)

/-- `pop_front`. -/
def popFront (n : ℕ) (b : IOBuf) : Option IOBuf :=
  (read b).bind fun b => if length b ≤ n then some IOBuf.new else popFrontLoop b.refNum n b

def popBackLoop : ℕ → ℕ → IOBuf → Option IOBuf
  | 0, _, b => some b
  | fuel + 1, n, b =>
      if n = 0 then some b
      else (read b).bind fun b =>
        if n < b.backRef.length then some (trimBack n b)
        else popBackLoop fuel (n - b.backRef.length) (popBackView b)

/-- `pop_back`. -/
def popBack (n : ℕ) (b : IOBuf) : Option IOBuf :=
  (read b).bind fun b => if length b ≤ n then some IOBuf.new else popBackLoop b.refNum n b

def cutnLoop : ℕ → ℕ → IOBuf → IOBuf → Option (IOBuf × IOBuf)
  | 0, _, b, out => some (b, out)
  | fuel + 1, n, b, out =>
      if n = 0 then some (b, out)
      else (read b).bind fun b =>
        let r := b.frontRef
        if r.length ≤ n then (pushBackRef r out).bind fun out =>
          cutnLoop fuel (n - r.length) (popFrontView b) out
        else (pushBackRef ⟨r.offset, n, r.block⟩ out).bind fun out => (trimFront n b).map fun b =>
          (b, out)

/-- `cutn(IOBuf* out, size_t n)`. -/
def cutn (n : ℕ) (b out : IOBuf) : Option (IOBuf × IOBuf) :=
  (read b).bind fun b => cutnLoop b.refNum (min n (length b)) b out

def maxSize : ℕ := 0xFFFFFFFF - 100

/-- `append_user_data_with_meta`: `mem` is what `malloc` returns. -/
def appendUserData (size : ℕ) (mem : Ptr) (b : IOBuf) : Option IOBuf :=
  if maxSize < size then some b
  else if size = 0 then some b
  else if mem = NULL then some b
  else pushBackRef ⟨0, size, mem⟩ b

/-! ## Queues without bounds -/

/-- The references without their first `n` bytes. -/
def dropRefs : ℕ → List BlockRef → List BlockRef
  | _, [] => []
  | n, r :: rs =>
      if n = 0 then r :: rs
      else if n < r.length then ⟨r.offset + n, r.length - n, r.block⟩ :: rs
      else dropRefs (n - r.length) rs

/-- The references to the first `n` bytes. -/
def takeRefs : ℕ → List BlockRef → List BlockRef
  | _, [] => []
  | n, r :: rs =>
      if n = 0 then []
      else if n < r.length then [⟨r.offset, n, r.block⟩]
      else r :: takeRefs (n - r.length) rs

/-- The references of `buf.append(buf)`. -/
def appendSelfRefs : ℕ → ℕ → List BlockRef → List BlockRef
  | 0, _, rs => rs
  | k + 1, i, rs => appendSelfRefs k (i + 1) (mergePush rs (rs.getD i resetBlockRef))

section Queue

variable {n : ℕ} {r : BlockRef} {rs : List BlockRef} {l : List BlockRef}

@[simp] theorem dropRefs_zero (rs : List BlockRef) : dropRefs 0 rs = rs := by
  cases rs <;> simp [dropRefs]

@[simp] theorem takeRefs_zero (rs : List BlockRef) : takeRefs 0 rs = [] := by
  cases rs <;> simp [takeRefs]

theorem takeRefs_of_le (hpos : ∀ r ∈ rs, 0 < r.length) (h : sumLen rs ≤ n) : takeRefs n rs = rs := by
  induction rs generalizing n with
  | nil => rfl
  | cons r rs ih =>
    rw [sumLen_cons] at h
    have hr : 0 < r.length := hpos r mem_cons_self
    have hle : r.length ≤ n := (Nat.le_add_right _ _).trans h
    have hrest : takeRefs (n - r.length) rs = rs :=
      ih (fun x hx => hpos x (mem_cons_of_mem _ hx)) (Nat.le_sub_of_add_le' h)
    simp only [takeRefs, if_neg (hr.trans_le hle).ne', if_neg (not_lt.2 hle), hrest]

theorem dropRefs_of_le (hpos : ∀ r ∈ rs, 0 < r.length) (h : sumLen rs ≤ n) : dropRefs n rs = [] := by
  induction rs generalizing n with
  | nil => rfl
  | cons r rs ih =>
    rw [sumLen_cons] at h
    have hr : 0 < r.length := hpos r mem_cons_self
    have hle : r.length ≤ n := (Nat.le_add_right _ _).trans h
    have hrest : dropRefs (n - r.length) rs = [] :=
      ih (fun x hx => hpos x (mem_cons_of_mem _ hx)) (Nat.le_sub_of_add_le' h)
    simp only [dropRefs, if_neg (hr.trans_le hle).ne', if_neg (not_lt.2 hle), hrest]

theorem takeRefs_append_of_le {l' : List BlockRef} (h : n ≤ sumLen l) : takeRefs n (l ++ l')
      = takeRefs n l := by
  induction l generalizing n with
  | nil =>
    obtain rfl : n = 0 := Nat.le_zero.1 h
    simp
  | cons r l ih =>
    rw [sumLen_cons] at h
    simp only [cons_append, takeRefs]
    rw [ih (Nat.sub_le_iff_le_add'.2 h)]

theorem takeRefs_append_of_lt (hpos : 0 < n) (hlt : n < r.length) :
    takeRefs (sumLen l + n) (l ++ [r]) = l ++ [⟨r.offset, n, r.block⟩] := by
  induction l with
  | nil => simp [takeRefs, hpos.ne', hlt]
  | cons x l ih =>
    have hne : x.length + sumLen l + n ≠ 0 := (Nat.add_pos_right _ hpos).ne'
    have hge : ¬ x.length + sumLen l + n < x.length := by
      rw [add_assoc]
      exact Nat.not_lt.2 (Nat.le_add_right _ _)
    have hsub : x.length + sumLen l + n - x.length = sumLen l + n := by
      rw [add_assoc, Nat.add_sub_cancel_left]
    simp only [cons_append, takeRefs, sumLen_cons, if_neg hne, if_neg hge, hsub, ih]

theorem head_takeRefs (hpos : 0 < n) : ∀ r ∈ rs.head?, ∃ x ∈ (takeRefs n rs).head?,
    x.offset = r.offset := by
  cases rs with
  | nil => simp
  | cons r rs =>
    intro y hy
    obtain rfl : r = y := by simpa using hy
    simp only [takeRefs, if_neg hpos.ne']
    split
    · exact ⟨_, rfl, rfl⟩
    · exact ⟨_, rfl, rfl⟩

theorem length_le_appendSelfRefs (k i : ℕ) (rs : List BlockRef) :
    rs.length ≤ (appendSelfRefs k i rs).length := by
  induction k generalizing i rs with
  | zero => exact le_rfl
  | succ k ih => exact (length_le_mergePush _ _).trans (ih _ _)

theorem length_takeRefs_le (n : ℕ) (rs : List BlockRef) : (takeRefs n rs).length ≤ rs.length := by
  induction rs generalizing n with
  | nil => simp [takeRefs]
  | cons r rs ih =>
    simp only [takeRefs]
    split
    · exact Nat.zero_le _
    split
    · simp
    · rw [length_cons, length_cons]
      exact Nat.succ_le_succ (ih _)

end Queue

/-! ## What fits -/

section

variable (rs : List BlockRef)

/-- A reference in the first place of a `SmallView` begins in the lower half. -/
def FrontFits : Prop := rs.length ≤ 2 → ∀ r ∈ rs.head?, r.offset < 2 ^ 31

/-- The references of a `SmallView` stand for less than 4 GB. -/
def LengthFits : Prop := rs.length ≤ 2 → sumLen rs < 2 ^ 32

def Fits : Prop := FrontFits rs ∧ LengthFits rs

/-- Reference `r` can be appended: a `SmallView` still fits when it has got it, or when it is
converted to a `BigView`, and the array is not full of 2^31 references. -/
def PushFits (r : BlockRef) : Prop :=
  (rs = [] → r.offset < 2 ^ 31) ∧ (rs.length ≤ 2 → sumLen rs + r.length < 2 ^ 32) ∧
    (merges rs r = true ∨ rs.length < 2 ^ 31)

end

def PushAllFits : List BlockRef → List BlockRef → Prop
  | _, [] => True
  | rs, r :: more => PushFits rs r ∧ PushAllFits (mergePush rs r) more

def PushSelfFits : ℕ → ℕ → List BlockRef → Prop
  | 0, _, _ => True
  | k + 1, i, rs =>
      PushFits rs (rs.getD i resetBlockRef) ∧
        PushSelfFits k (i + 1) (mergePush rs (rs.getD i resetBlockRef))

/-- References are appended to `rs`, and then there are `rs'`: a `SmallView` fits at every length
that it has on the way, and when it is converted to a `BigView`. -/
def GrowsFit (rs rs' : List BlockRef) : Prop :=
  rs.length ≤ 2 → (∀ r ∈ rs'.head?, r.offset < 2 ^ 31) ∧ sumLen (rs'.take 3) < 2 ^ 32

/-- How many references the buffer can have before its array is replaced. -/
def refCapacity : IOBuf → ℕ
  | .sv _ _ => INITIAL_CAP
  | .bv v => v.capacity

/-- The buffer can be appended to itself: every reference fits, and none needs a larger array. -/
def SelfFits (b : IOBuf) : Prop :=
  PushSelfFits b.refs.length 0 b.refs ∧ (appendSelfRefs b.refs.length 0 b.refs).length ≤ refCapacity b

/-- `n` bytes can be taken off the front: what is left fits, and every reference that gets to the
front before that begins in the lower half. -/
def DropFits : ℕ → List BlockRef → Prop
  | _, [] => True
  | n, r :: rs =>
      if n = 0 then Fits (r :: rs)
      else FrontFits (r :: rs) ∧
        if n < r.length then Fits (⟨r.offset + n, r.length - n, r.block⟩ :: rs)
          else DropFits (n - r.length) rs

instance (rs : List BlockRef) : Decidable (FrontFits rs) :=
  inferInstanceAs (Decidable (_ → ∀ r ∈ rs.head?, _))

instance (rs : List BlockRef) : Decidable (LengthFits rs) := inferInstanceAs (Decidable (_ → _))

instance (rs : List BlockRef) : Decidable (Fits rs) := inferInstanceAs (Decidable (_ ∧ _))

instance (rs : List BlockRef) (r : BlockRef) : Decidable (PushFits rs r) :=
  inferInstanceAs (Decidable (_ ∧ _))

instance decidablePushAllFits : ∀ rs more : List BlockRef, Decidable (PushAllFits rs more)
  | _, [] => isTrue trivial
  | rs, r :: more =>
    have := decidablePushAllFits (mergePush rs r) more
    inferInstanceAs (Decidable (_ ∧ _))

instance decidablePushSelfFits : ∀ (k i : ℕ) (rs : List BlockRef), Decidable (PushSelfFits k i rs)
  | 0, _, _ => isTrue trivial
  | k + 1, i, rs =>
    have := decidablePushSelfFits k (i + 1) (mergePush rs (rs.getD i resetBlockRef))
    inferInstanceAs (Decidable (_ ∧ _))

instance (rs rs' : List BlockRef) : Decidable (GrowsFit rs rs') := inferInstanceAs (Decidable (_ → _ ∧ _))

instance (b : IOBuf) : Decidable (SelfFits b) := inferInstanceAs (Decidable (_ ∧ _))

instance decidableDropFits : ∀ (n : ℕ) (rs : List BlockRef), Decidable (DropFits n rs)
  | _, [] => isTrue trivial
  | n, r :: rs =>
    have := decidableDropFits (n - r.length) rs
    inferInstanceAs (Decidable (if n = 0 then _ else _ ∧ if n < r.length then _ else _))

open Option

/-- A buffer of the program: well formed, with references into user data, and read as what it was
written as. -/
structure Sound (b : IOBuf) : Prop where
  wf : b.WF true
  stop_le : ∀ r ∈ b.refs, r.stop ≤ maxSize
  cap_le : ∀ v, b = .bv v → v.capacity ≤ 2 ^ 31
  front : FrontFits b.refs

section Prim

variable {b : IOBuf} {r : BlockRef} {rs : List BlockRef} {n : ℕ} {back : BlockRef}

theorem fits_nil : Fits [] := ⟨fun _ => by simp, fun _ => by simp⟩

theorem small_eq (hb : b.ViewWF) (h : FrontFits b.refs) : small b = b.small := by
  cases b with
  | bv v => rfl
  | sv refs0 refs1 =>
    apply decide_eq_true
    by_cases h0 : refs0.block = NULL
    · obtain ⟨rfl, -⟩ := hb.1 h0
      simp [resetBlockRef]
    · by_cases h1 : refs1.block = NULL
      · exact h (by simp [refs, h0, h1]) refs0 (by simp [refs, h0, h1])
      · exact h (by simp [refs, h0, h1]) refs0 (by simp [refs, h0, h1])

theorem read_eq (hb : b.ViewWF) (h : FrontFits b.refs) : read b = some b := if_pos (small_eq hb h)

theorem length_eq (hb : b.ViewWF) (h : LengthFits b.refs) : length b = sumLen b.refs := by
  rw [← IOBuf.length_eq hb]
  cases b with
  | bv v => rfl
  | sv refs0 refs1 =>
    have hlt := h (by rw [← refNum_eq hb]; simp only [refNum]; split <;> split <;> simp)
    rw [← IOBuf.length_eq hb] at hlt
    exact Nat.mod_eq_of_lt hlt

theorem sub64_eq {a c : ℕ} (hle : c ≤ a) (hlt : a < 2 ^ 64) : sub64 a c = a - c := by
  have hsub : a + 2 ^ 64 - c = a - c + 2 ^ 64 := Nat.sub_add_comm hle
  rw [sub64, hsub, Nat.add_mod_right]
  exact Nat.mod_eq_of_lt (lt_of_le_of_lt (Nat.sub_le _ _) hlt)

theorem Sound.sumLen_lt (S : Sound b) : sumLen b.refs < 2 ^ 63 := by
  have hcount : b.refs.length ≤ 2 ^ 31 := by
    cases hb : b with
    | sv refs0 refs1 =>
      have hview : (sv refs0 refs1).ViewWF := hb ▸ S.wf.view
      rw [← refNum_eq hview]
      simp only [refNum]
      split <;> split <;> simp
    | bv v =>
      have hview : v.WF := by simpa [hb, ViewWF] using S.wf.view
      simpa [refs] using hview.nref_le.trans (S.cap_le v hb)
  have hsum : sumLen b.refs ≤ b.refs.length * maxSize := by
    have hall : ∀ x ∈ b.refs.map BlockRef.length, x ≤ maxSize := by
      intro x hx
      obtain ⟨r, hr, rfl⟩ := mem_map.1 hx
      exact (Nat.le_add_left _ _).trans (S.stop_le r hr)
    simpa [sumLen] using sum_le_card_nsmul _ _ hall
  calc sumLen b.refs ≤ b.refs.length * maxSize := hsum
    _ ≤ 2 ^ 31 * maxSize := Nat.mul_le_mul_right _ hcount
    _ < 2 ^ 63 := by decide

theorem mergeable_iff (hback : back.stop ≤ maxSize) : Mergeable back r ↔ back.mergeable r := by
  have hlt : back.offset + back.length < 2 ^ 32 := lt_of_le_of_lt hback (by decide)
  rw [Mergeable, Nat.mod_eq_of_lt hlt]
  exact Iff.rfl

theorem stop_grow (hm : back.mergeable r) : (back.grow r).stop = r.stop := by
  simp only [BlockRef.stop, BlockRef.grow, ← add_assoc, hm.2]

theorem grow_eq (hm : back.mergeable r) (hr : r.stop ≤ maxSize) : grow back r = back.grow r := by
  have hle : back.length + r.length ≤ (back.grow r).stop := Nat.le_add_left _ _
  rw [stop_grow hm] at hle
  have hlt : back.length + r.length < 2 ^ 32 := lt_of_le_of_lt (hle.trans hr) (by decide)
  rw [grow, Nat.mod_eq_of_lt hlt]
  rfl

theorem BigView.refs_concat {v : BigView} (hv : v.WF) :
    ∃ l, (bv v).refs = l ++ [v.refAt (v.nref - 1)] := by
  obtain ⟨n, hn⟩ : ∃ n, v.nref = n + 1 :=
    ⟨v.nref - 1, (Nat.sub_add_cancel (le_trans (by decide) hv.three_le)).symm⟩
  refine ⟨(range n).map v.refAt, ?_⟩
  simp [refs, hn, range_succ]

theorem pushView_eq (S : Sound b) (hr : r.stop ≤ maxSize) (hfit : PushFits b.refs r) (h : Heap) :
    pushView r b = some (b.pushOrMoveBackRef false r h).1 := by
  obtain ⟨-, hsum, hroom⟩ := hfit
  cases b with
  | sv refs0 refs1 =>
    simp only [pushView, pushOrMoveBackRef, pushOrMoveBackRefToSmallview]
    by_cases h0 : refs0.block = NULL
    · rw [if_pos h0, if_pos h0]
    rw [if_neg h0, if_neg h0]
    by_cases h1 : refs1.block = NULL
    · have hback : refs0.stop ≤ maxSize := S.stop_le refs0 (by simp [refs, h0, h1])
      rw [if_pos h1, if_pos h1]
      by_cases hm : refs0.mergeable r
      · rw [if_pos ((mergeable_iff hback).2 hm), if_pos hm, grow_eq hm hr]
      · rw [if_neg (mt (mergeable_iff hback).1 hm), if_neg hm]
    · have hrefs : (sv refs0 refs1).refs = [refs0, refs1] := by simp [refs, h0, h1]
      have hback : refs1.stop ≤ maxSize := S.stop_le refs1 (by simp [hrefs])
      rw [if_neg h1, if_neg h1]
      by_cases hm : refs1.mergeable r
      · rw [if_pos ((mergeable_iff hback).2 hm), if_pos hm, grow_eq hm hr]
      · have hlt : refs0.length + refs1.length + r.length
          < 2 ^ 32 := by simpa [hrefs, add_assoc] using hsum
        rw [if_neg (mt (mergeable_iff hback).1 hm), if_neg hm, Nat.mod_eq_of_lt hlt]
  | bv v =>
    have hv : v.WF := S.wf.view
    obtain ⟨l, hl⟩ := BigView.refs_concat hv
    have hback : (v.refAt (v.nref - 1)).stop ≤ maxSize := S.stop_le _ (by simp [hl])
    have hbytes : v.nbytes + r.length < 2 ^ 64 := by
      have hold : v.nbytes < 2 ^ 63 := by
        rw [hv.nbytes_eq]
        exact S.sumLen_lt
      have hnew : r.length < 2 ^ 63 := lt_of_le_of_lt ((Nat.le_add_left _ _).trans hr) (by decide)
      lia
    simp only [pushView, pushOrMoveBackRef, pushOrMoveBackRefToBigview, Nat.mod_eq_of_lt hbytes]
    by_cases hm : (v.refAt (v.nref - 1)).mergeable r
    · rw [if_pos ((mergeable_iff hback).2 hm), if_pos hm, grow_eq hm hr]
    rw [if_neg (mt (mergeable_iff hback).1 hm), if_neg hm]
    by_cases hfull : v.nref ≠ v.capacity
    · rw [if_pos hfull, if_pos hfull]
    rw [if_neg hfull, if_neg hfull]
    -- The array is full, and it is not the largest one.
    have hcap : v.capacity < 2 ^ 31 := by
      rw [hl, merges_concat, decide_eq_false hm, ← hl] at hroom
      simpa [refs, not_not.1 hfull] using hroom
    have hnew : v.capacity * 2 % 2 ^ 32 = v.capacity * 2 := Nat.mod_eq_of_lt (by lia)
    have hne : v.capacity * 2 ≠ 0 := Nat.mul_ne_zero (Nat.succ_ne_zero _) (by decide)
    simp only [hnew, if_neg hne]

theorem capacity_push (S : Sound b) (hfit : PushFits b.refs r) (h : Heap) :
    ∀ v, (b.pushOrMoveBackRef false r h).1 = .bv v → v.capacity ≤ 2 ^ 31 := by
  obtain ⟨-, -, hroom⟩ := hfit
  intro w hw
  cases b with
  | sv refs0 refs1 =>
    simp only [pushOrMoveBackRef, pushOrMoveBackRefToSmallview] at hw
    split at hw
    · cases hw
    split at hw
    · split at hw <;> cases hw
    split at hw
    · cases hw
    · cases hw
      exact (by decide : INITIAL_CAP ≤ 2 ^ 31)
  | bv v =>
    have hv : v.WF := S.wf.view
    obtain ⟨l, hl⟩ := BigView.refs_concat hv
    simp only [pushOrMoveBackRef, pushOrMoveBackRefToBigview] at hw
    split at hw
    · cases hw
      exact S.cap_le v rfl
    rename_i hm
    split at hw
    · cases hw
      exact S.cap_le v rfl
    next hfull =>
      cases hw
      have hcap : v.capacity < 2 ^ 31 := by
        rw [hl, merges_concat, decide_eq_false hm, ← hl] at hroom
        simpa [refs, not_not.1 hfull] using hroom
      obtain ⟨k, hk⟩ := hv.pow
      have hk' : k < 31 := (Nat.pow_lt_pow_iff_right (by decide)).1 (hk ▸ hcap)
      calc v.capacity * 2 - 1 + 1 = v.capacity * 2 :=
        Nat.sub_add_cancel (Nat.mul_pos (Nat.succ_pos _) (by decide))
        _ = 2 ^ (k + 1) := by rw [hk, pow_succ]
        _ ≤ 2 ^ 31 := Nat.pow_le_pow_right (by decide) hk'

theorem FrontFits.mergePush (h : FrontFits rs) (hr : rs = [] → r.offset < 2 ^ 31) :
    FrontFits (mergePush rs r) := by
  intro hlen x hx
  have hold := h ((length_le_mergePush rs r).trans hlen)
  induction rs using reverseRecOn with
  | nil =>
    obtain rfl : r = x := by simpa using hx
    exact hr rfl
  | append_singleton l back _ =>
    rw [mergePush_concat] at hx
    cases l with
    | nil =>
      have hback : back.offset < 2 ^ 31 := hold back rfl
      split at hx
      · obtain rfl : back.grow r = x := by simpa using hx
        exact hback
      · obtain rfl : back = x := by simpa using hx
        exact hback
    | cons y l =>
      split at hx
      · exact hold x (by simpa using hx)
      · exact hold x (by simpa using hx)

theorem PushFits.lengthFits (h : PushFits rs r) : LengthFits (mergePush rs r) := by
  intro hlen
  rw [sumLen_mergePush]
  exact h.2.1 ((length_le_mergePush rs r).trans hlen)

/-- **Pushing a reference.** -/
theorem Sound.push (S : Sound b) (hblock : r.block ≠ NULL) (hpos : 0 < r.length) (hr : r.stop ≤ maxSize)
    (hfit : PushFits b.refs r) :
    ∃ b', pushBackRef r b = some b' ∧ Sound b' ∧ b'.refs = mergePush b.refs r := by
  -- The buffer does not depend on the heap.
  obtain ⟨h⟩ : Nonempty Heap := ⟨⟨fun _ => .freed, 1, fun _ => false, NULL, 0, false⟩⟩
  have hrefs := refs_pushOrMoveBackRef false (h := h) S.wf hblock
  refine ⟨_, ?_, ⟨wf_pushOrMoveBackRef false S.wf hblock fun _ => hpos, ?_, capacity_push S hfit _,
    ?_⟩, hrefs⟩
  · rw [pushBackRef, read_eq S.wf.view S.front, bind_some, pushView_eq S hr hfit]
  · intro x hx
    rw [hrefs] at hx
    rcases mem_mergePush hx with hx | rfl | ⟨back, -, hm, rfl⟩
    · exact S.stop_le x hx
    · exact hr
    · rw [stop_grow hm]
      exact hr
  · rw [hrefs]
    exact S.front.mergePush hfit.1

theorem Sound.not_resizes (S : Sound b) (hroom : (mergePush b.refs r).length ≤ refCapacity b) :
    ¬Resizes r b := by
  cases b with
  | sv refs0 refs1 => exact id
  | bv v =>
    rintro ⟨hm, hfull⟩
    have hv : v.WF := S.wf.view
    obtain ⟨l, hl⟩ := BigView.refs_concat hv
    have hback : (v.refAt (v.nref - 1)).stop ≤ maxSize := S.stop_le _ (by simp [hl])
    have hlen : l.length + 1 = v.nref := by simpa [refs] using (congrArg List.length hl).symm
    have hcap : refCapacity (.bv v) = l.length + 1 := (hlen.trans hfull).symm
    rw [hl, mergePush_concat, if_neg (mt (mergeable_iff hback).2 hm), length_append, hcap] at hroom
    exact absurd hroom (Nat.not_succ_le_self _)

/-- As long as the array is not replaced, it has the same place for references. -/
theorem refCapacity_pushBackRef {b' : IOBuf} (h : pushBackRef r b = some b') (hroom : ¬Resizes r b) :
    refCapacity b' = refCapacity b := by
  obtain ⟨b, hread, h⟩ := bind_eq_some_iff.1 h
  cases (ite_none_right_eq_some.1 hread).2
  cases b with
  | sv refs0 refs1 =>
    simp only [pushView] at h
    split at h
    · cases h
      rfl
    split at h
    · split at h <;> cases h <;> rfl
    split at h <;> cases h <;> rfl
  | bv v =>
    simp only [pushView] at h
    split at h
    · cases h
      rfl
    · rename_i hm
      rw [if_pos fun hfull => hroom ⟨hm, hfull⟩] at h
      cases h
      rfl

/-- **Taking the front reference off.** -/
theorem Sound.popFrontView (S : Sound b) (hrefs : b.refs = r :: rs) (hfront : FrontFits rs) :
    Sound (popFrontView b) ∧ (popFrontView b).refs = rs := by
  obtain ⟨h⟩ : Nonempty Heap := ⟨⟨fun _ => .freed, 1, fun _ => false, NULL, 0, false⟩⟩
  have heq : IOBuf32.popFrontView b = (b.popOrMoveoutFrontRef true h).1 := by
    cases b with
    | sv refs0 refs1 =>
      simp only [IOBuf32.popFrontView, popOrMoveoutFrontRef]
      split <;> rfl
    | bv v =>
      have hv : v.WF := S.wf.view
      have hsum : v.nbytes = sumLen (bv v).refs := hv.nbytes_eq
      have hr : v.refs v.start = r := frontRef_eq S.wf.view hrefs
      have hle : r.length ≤ v.nbytes := by
        rw [hsum, hrefs, sumLen_cons]
        exact Nat.le_add_right _ _
      have hlt : v.nbytes < 2 ^ 64 := by
        rw [hsum]
        exact S.sumLen_lt.trans (by decide)
      simp only [IOBuf32.popFrontView, popOrMoveoutFrontRef, hr, sub64_eq hle hlt]
      split <;> rfl
  obtain ⟨hrefs', -, hwf⟩ := popOrMoveoutFrontRef_spec true (h := h) S.wf hrefs
  rw [← heq] at hrefs' hwf
  refine ⟨⟨hwf, ?_, ?_, ?_⟩, hrefs'⟩
  · intro x hx
    rw [hrefs'] at hx
    exact S.stop_le x (by rw [hrefs]; exact mem_cons_of_mem _ hx)
  · intro w hw
    cases b with
    | sv refs0 refs1 =>
      simp only [IOBuf32.popFrontView] at hw
      split at hw <;> cases hw
    | bv v =>
      simp only [IOBuf32.popFrontView] at hw
      split at hw
      · cases hw
        exact S.cap_le v rfl
      · cases hw
  · rw [hrefs']
    exact hfront

/-- **Taking the back reference off.** -/
theorem Sound.popBackView (S : Sound b) (hrefs : b.refs = rs ++ [r]) (hfront : FrontFits rs) :
    Sound (popBackView b) ∧ (popBackView b).refs = rs := by
  obtain ⟨h⟩ : Nonempty Heap := ⟨⟨fun _ => .freed, 1, fun _ => false, NULL, 0, false⟩⟩
  have heq : IOBuf32.popBackView b = (b.popBackRef h).1 := by
    cases b with
    | sv refs0 refs1 =>
      simp only [IOBuf32.popBackView, popBackRef]
      split
      · rfl
      split <;> rfl
    | bv v =>
      have hv : v.WF := S.wf.view
      have hsum : v.nbytes = sumLen (bv v).refs := hv.nbytes_eq
      have hr : v.refs ((v.start + v.nref - 1) &&& v.capMask) = r := by
        have hback : v.refAt (v.nref - 1) = r := backRef_eq S.wf.view hrefs
        rw [← hback, BigView.refAt, ← Nat.add_sub_assoc (le_trans (by decide) hv.three_le)]
      have hle : r.length ≤ v.nbytes := by
        rw [hsum, hrefs, sumLen_append, sumLen_cons, sumLen_nil, add_zero]
        exact Nat.le_add_left _ _
      have hlt : v.nbytes < 2 ^ 64 := by
        rw [hsum]
        exact S.sumLen_lt.trans (by decide)
      simp only [IOBuf32.popBackView, popBackRef, hr, sub64_eq hle hlt]
      split <;> rfl
  obtain ⟨hrefs', -, hwf⟩ := popBackRef_spec (h := h) S.wf hrefs
  rw [← heq] at hrefs' hwf
  refine ⟨⟨hwf, ?_, ?_, ?_⟩, hrefs'⟩
  · intro x hx
    rw [hrefs'] at hx
    exact S.stop_le x (by rw [hrefs]; exact mem_append_left _ hx)
  · intro w hw
    cases b with
    | sv refs0 refs1 =>
      simp only [IOBuf32.popBackView] at hw
      split at hw
      · cases hw
      split at hw <;> cases hw
    | bv v =>
      simp only [IOBuf32.popBackView] at hw
      split at hw
      · cases hw
        exact S.cap_le v rfl
      · cases hw
  · rw [hrefs']
    exact hfront

/-- **Shortening the front reference.** -/
theorem Sound.trimFront (S : Sound b) (hrefs : b.refs = r :: rs) (hlt : n < r.length)
    (hfront : FrontFits (⟨r.offset + n, r.length - n, r.block⟩ :: rs)) :
    ∃ b', trimFront n b = some b' ∧ Sound b' ∧ b'.refs = ⟨r.offset + n, r.length - n, r.block⟩ :: rs := by
  have hmem : r ∈ b.refs := by rw [hrefs]; exact mem_cons_self
  have hstop : r.offset + n ≤ r.stop := Nat.add_le_add_left hlt.le _
  have hoff : (r.offset + n) % 2 ^ 32 = r.offset + n :=
    Nat.mod_eq_of_lt (lt_of_le_of_lt (hstop.trans (S.stop_le r hmem)) (by decide))
  obtain ⟨hrefs', hwf⟩ := trimFront_spec (n := n) ⟨r.offset + n, r.length - n, r.block⟩ S.wf hrefs
    (S.wf.ref r hmem).1
    (Nat.sub_add_cancel hlt.le) (Nat.sub_pos_of_lt hlt)
  have heq : IOBuf32.trimFront n b
      = some ((b.setFrontRef ⟨r.offset + n, r.length - n, r.block⟩).subNbytes n) := by
    cases b with
    | sv refs0 refs1 =>
      obtain rfl : refs0 = r := frontRef_eq S.wf.view hrefs
      simp only [IOBuf32.trimFront, hoff]
      exact read_eq hwf.view (hrefs'.symm ▸ hfront)
    | bv v =>
      have hv : v.WF := S.wf.view
      have hsum : v.nbytes = sumLen (bv v).refs := hv.nbytes_eq
      have hr : v.refs v.start = r := frontRef_eq S.wf.view hrefs
      have hle : n ≤ v.nbytes := by
        rw [hsum, hrefs, sumLen_cons]
        exact hlt.le.trans (Nat.le_add_right _ _)
      have hlt' : v.nbytes < 2 ^ 64 := by
        rw [hsum]
        exact S.sumLen_lt.trans (by decide)
      simp only [IOBuf32.trimFront, hr, hoff, sub64_eq hle hlt']
      rfl
  refine ⟨_, heq, ⟨hwf, ?_, ?_, ?_⟩, hrefs'⟩
  · intro x hx
    rw [hrefs'] at hx
    rcases mem_cons.1 hx with rfl | hx
    · have hsame : (⟨r.offset + n, r.length - n, r.block⟩ : BlockRef).stop = r.stop := by
        simp only [BlockRef.stop, add_assoc, Nat.add_sub_cancel' hlt.le]
      rw [hsame]
      exact S.stop_le r hmem
    · exact S.stop_le x (by rw [hrefs]; exact mem_cons_of_mem _ hx)
  · intro w hw
    cases b with
    | sv refs0 refs1 => cases hw
    | bv v =>
      cases hw
      exact S.cap_le v rfl
  · rw [hrefs']
    exact hfront

/-- **Shortening the back reference.** -/
theorem Sound.trimBack (S : Sound b) (hrefs : b.refs = rs ++ [r]) (hlt : n < r.length) :
    Sound (trimBack n b) ∧ (trimBack n b).refs = rs ++ [{ r with length := r.length - n }] := by
  have hmem : r ∈ b.refs := by rw [hrefs]; exact mem_append_right _ mem_cons_self
  obtain ⟨hrefs', hwf⟩ := trimBack_spec (n := n) { r with length := r.length - n } S.wf hrefs
    (S.wf.ref r hmem).1
    (Nat.sub_add_cancel hlt.le) (Nat.sub_pos_of_lt hlt)
  have heq : IOBuf32.trimBack n b = (b.setBackRef { r with length := r.length - n }).subNbytes n := by
    cases b with
    | sv refs0 refs1 =>
      have hback : (sv refs0 refs1).backRef = r := backRef_eq S.wf.view hrefs
      simp only [backRef] at hback
      simp only [IOBuf32.trimBack, setBackRef]
      by_cases h1 : refs1.block = NULL
      · rw [if_pos h1] at hback ⊢
        rw [if_pos h1, hback]
        rfl
      · rw [if_neg h1] at hback ⊢
        rw [if_neg h1, hback]
        rfl
    | bv v =>
      have hv : v.WF := S.wf.view
      have hsum : v.nbytes = sumLen (bv v).refs := hv.nbytes_eq
      have hr : v.refAt (v.nref - 1) = r := backRef_eq S.wf.view hrefs
      have hle : n ≤ v.nbytes := by
        rw [hsum, hrefs, sumLen_append, sumLen_cons, sumLen_nil, add_zero]
        exact hlt.le.trans (Nat.le_add_left _ _)
      have hlt' : v.nbytes < 2 ^ 64 := by
        rw [hsum]
        exact S.sumLen_lt.trans (by decide)
      simp only [IOBuf32.trimBack, hr, sub64_eq hle hlt']
      rfl
  rw [← heq] at hrefs' hwf
  refine ⟨⟨hwf, ?_, ?_, ?_⟩, hrefs'⟩
  · intro x hx
    rw [hrefs'] at hx
    rcases mem_append.1 hx with hx | hx
    · exact S.stop_le x (by rw [hrefs]; exact mem_append_left _ hx)
    · rw [mem_singleton.1 hx]
      exact (Nat.add_le_add_left (Nat.sub_le _ _) _).trans (S.stop_le r hmem)
  · intro w hw
    cases b with
    | sv refs0 refs1 =>
      simp only [IOBuf32.trimBack] at hw
      split at hw <;> cases hw
    | bv v =>
      cases hw
      exact S.cap_le v rfl
  · rw [hrefs']
    intro hlen x hx
    have hold := S.front (by rw [hrefs]; simpa using hlen)
    rw [hrefs] at hold
    cases rs with
    | nil =>
      obtain rfl : ({ r with length := r.length - n } : BlockRef) = x := by simpa using hx
      exact hold r rfl
    | cons y l => exact hold x (by simpa using hx)

end Prim

/-! ## The loops -/

section Loops

variable {b out : IOBuf} {rs more : List BlockRef} {n : ℕ}

theorem DropFits.front (h : DropFits n rs) : FrontFits rs := by
  cases rs with
  | nil => exact fits_nil.1
  | cons r rs =>
    simp only [DropFits] at h
    split at h
    · exact h.1
    · exact h.1

theorem DropFits.fits : ∀ {rs : List BlockRef} {n : ℕ}, DropFits n rs → Fits (dropRefs n rs)
  | [], _, _ => fits_nil
  | r :: rs, n, h => by
    simp only [DropFits] at h
    simp only [dropRefs]
    by_cases hzero : n = 0
    · rw [if_pos hzero] at h ⊢
      exact h
    rw [if_neg hzero] at h ⊢
    by_cases hlt : n < r.length
    · rw [if_pos hlt] at h ⊢
      exact h.2
    · rw [if_neg hlt] at h ⊢
      exact DropFits.fits h.2

theorem PushAllFits.lengthFits : ∀ {more rs : List BlockRef}, LengthFits rs → PushAllFits rs more →
    LengthFits (more.foldl mergePush rs)
  | [], _, hrs, _ => hrs
  | r :: more, rs, _, h => by
    rw [foldl_cons]
    exact PushAllFits.lengthFits h.1.lengthFits h.2

theorem PushAllFits.frontFits : ∀ {more rs : List BlockRef}, FrontFits rs → PushAllFits rs more →
    FrontFits (more.foldl mergePush rs)
  | [], _, hrs, _ => hrs
  | r :: more, rs, hrs, h => by
    rw [foldl_cons]
    exact PushAllFits.frontFits (hrs.mergePush h.1.1) h.2

theorem PushSelfFits.lengthFits : ∀ {k i : ℕ} {rs : List BlockRef}, LengthFits rs → PushSelfFits k i rs →
    LengthFits (appendSelfRefs k i rs)
  | 0, _, _, hrs, _ => hrs
  | k + 1, i, rs, _, h => by
    rw [appendSelfRefs]
    exact PushSelfFits.lengthFits h.1.lengthFits h.2

theorem Sound.pushRefs : ∀ {more : List BlockRef} {b : IOBuf}, Sound b →
    (∀ r ∈ more, r.block ≠ NULL ∧ 0 < r.length ∧ r.stop ≤ maxSize) → PushAllFits b.refs more →
    ∃ b', pushRefs more b = some b' ∧ Sound b' ∧ b'.refs = more.foldl mergePush b.refs
  | [], b, S, _, _ => ⟨b, rfl, S, rfl⟩
  | r :: more, b, S, hmore, hfit => by
    obtain ⟨hblock, hpos, hstop⟩ := hmore r mem_cons_self
    obtain ⟨b1, hpush, S1, hrefs1⟩ := S.push hblock hpos hstop hfit.1
    obtain ⟨b2, hrest, S2, hrefs2⟩ := S1.pushRefs (fun x hx => hmore x (mem_cons_of_mem _ hx))
      (by rw [hrefs1]; exact hfit.2)
    refine ⟨b2, ?_, S2, ?_⟩
    · rw [IOBuf32.pushRefs, hpush, bind_some, hrest]
    · rw [hrefs2, hrefs1, foldl_cons]

theorem Sound.ref (S : Sound b) : ∀ r ∈ b.refs, r.block ≠ NULL ∧ 0 < r.length ∧ r.stop ≤ maxSize :=
  fun r hr => ⟨(S.wf.ref r hr).1, (S.wf.ref r hr).2 rfl, S.stop_le r hr⟩

theorem Sound.pushSelf : ∀ {k i : ℕ} {b : IOBuf}, Sound b → i + k ≤ b.refs.length →
    PushSelfFits k i b.refs →
    (appendSelfRefs k i b.refs).length ≤ refCapacity b →
    ∃ b', pushSelf k i b = some b' ∧ Sound b' ∧ b'.refs = appendSelfRefs k i b.refs
  | 0, _, b, S, _, _, _ => ⟨b, rfl, S, rfl⟩
  | k + 1, i, b, S, hle, hfit, hroom => by
    have hi : i < b.refs.length := lt_of_lt_of_le (Nat.lt_add_of_pos_right (Nat.succ_pos k)) hle
    have hget : b.refs.getD i resetBlockRef = b.refAt i := by
      rw [getD_eq_getElem?_getD, refAt_eq S.wf.view hi, getD_some]
    have hmem : b.refAt i ∈ b.refs := mem_of_getElem? (refAt_eq S.wf.view hi)
    obtain ⟨hblock, hpos, hstop⟩ := S.ref _ hmem
    obtain ⟨hfit1, hfit2⟩ := hfit
    rw [appendSelfRefs] at hroom
    rw [hget] at hfit1 hfit2 hroom
    obtain ⟨b1, hpush, S1, hrefs1⟩ := S.push hblock hpos hstop hfit1
    have hresize : ¬Resizes (b.refAt i) b := S.not_resizes ((length_le_appendSelfRefs _ _ _).trans hroom)
    have hle1 : i + 1 + k ≤ b1.refs.length := by
      rw [hrefs1, add_right_comm]
      exact hle.trans (length_le_mergePush _ _)
    rw [← hrefs1] at hfit2 hroom
    rw [← refCapacity_pushBackRef hpush hresize] at hroom
    obtain ⟨b2, hrest, S2, hrefs2⟩ := S1.pushSelf hle1 hfit2 hroom
    refine ⟨b2, ?_, S2, ?_⟩
    · rw [IOBuf32.pushSelf, read_eq S.wf.view S.front, bind_some, if_neg hresize, hpush, bind_some, hrest]
    · rw [hrefs2, hrefs1, appendSelfRefs, hget]

theorem Sound.popFrontLoop : ∀ {fuel n : ℕ} {b : IOBuf}, Sound b → b.refs.length ≤ fuel →
    n ≤ sumLen b.refs →
    DropFits n b.refs → ∃ b', popFrontLoop fuel n b = some b' ∧ Sound b' ∧ b'.refs = dropRefs n b.refs
  | 0, n, b, S, hfuel, _, _ => by
    have hnil : b.refs = [] := length_eq_zero_iff.1 (Nat.le_zero.1 hfuel)
    refine ⟨b, rfl, S, ?_⟩
    rw [hnil]
    rfl
  | fuel + 1, n, b, S, hfuel, hn, hfit => by
    simp only [IOBuf32.popFrontLoop]
    by_cases hzero : n = 0
    · rw [if_pos hzero, hzero, dropRefs_zero]
      exact ⟨b, rfl, S, rfl⟩
    rw [if_neg hzero, read_eq S.wf.view S.front, bind_some]
    cases hrefs : b.refs with
    | nil =>
      rw [hrefs] at hn
      exact absurd (Nat.le_zero.1 hn) hzero
    | cons r rs =>
      rw [hrefs, sumLen_cons] at hn
      rw [hrefs] at hfit hfuel
      simp only [DropFits, if_neg hzero] at hfit
      simp only [dropRefs, if_neg hzero, frontRef_eq S.wf.view hrefs]
      by_cases hlt : n < r.length
      · rw [if_pos hlt] at hfit ⊢
        rw [if_pos hlt]
        exact S.trimFront hrefs hlt hfit.2.1
      · rw [if_neg hlt] at hfit ⊢
        rw [if_neg hlt]
        obtain ⟨S1, hrefs1⟩ := S.popFrontView hrefs hfit.2.front
        rw [← hrefs1] at hfit ⊢
        apply S1.popFrontLoop
        · rw [hrefs1]
          exact Nat.le_of_succ_le_succ hfuel
        · rw [hrefs1]
          exact Nat.sub_le_iff_le_add'.2 hn
        · exact hfit.2

theorem FrontFits.of_takeRefs (hpos : 0 < n) (h : FrontFits (takeRefs n rs)) : FrontFits rs := by
  intro hlen r hr
  obtain ⟨x, hx, hoff⟩ := head_takeRefs hpos r hr
  rw [← hoff]
  exact h ((length_takeRefs_le n rs).trans hlen) x hx

theorem Sound.popBackLoop : ∀ {fuel n : ℕ} {b : IOBuf}, Sound b → b.refs.length ≤ fuel →
    n < sumLen b.refs →
    FrontFits (takeRefs (sumLen b.refs - n) b.refs) →
    ∃ b', popBackLoop fuel n b = some b' ∧ Sound b' ∧ b'.refs = takeRefs (sumLen b.refs - n) b.refs
  | 0, n, b, S, hfuel, hn, _ => by
    have hnil : b.refs = [] := length_eq_zero_iff.mp (Nat.le_zero.mp hfuel)
    rw [hnil] at hn
    exact absurd hn (Nat.not_lt_zero _)
  | fuel + 1, n, b, S, hfuel, hn, hfit => by
    simp only [IOBuf32.popBackLoop]
    rcases eq_nil_or_concat b.refs with hrefs | ⟨rs, r, hrefs⟩
    · rw [hrefs] at hn
      exact absurd hn (Nat.not_lt_zero _)
    rw [concat_eq_append] at hrefs
    have hsum : sumLen b.refs = sumLen rs
        + r.length := by rw [hrefs, sumLen_append, sumLen_cons, sumLen_nil, Nat.add_zero]
    by_cases hzero : n = 0
    · rw [if_pos hzero, hzero, Nat.sub_zero, takeRefs_of_le (fun x hx => (S.ref x hx).2.1) le_rfl]
      exact ⟨b, rfl, S, rfl⟩
    rw [if_neg hzero, read_eq S.wf.view S.front, bind_some, backRef_eq S.wf.view hrefs]
    by_cases hlt : n < r.length
    · rw [if_pos hlt]
      obtain ⟨S1, hrefs1⟩ := S.trimBack hrefs hlt
      refine ⟨_, rfl, S1, ?_⟩
      rw [hrefs1, hsum, Nat.add_sub_assoc hlt.le, hrefs,
        takeRefs_append_of_lt (Nat.sub_pos_of_lt hlt) (Nat.sub_lt_self (Nat.pos_of_ne_zero hzero) hlt.le)]
    · rw [if_neg hlt]
      have hle : sumLen b.refs - n ≤ sumLen rs := by
        rw [hsum]
        exact Nat.sub_le_of_le_add (Nat.add_le_add_left (not_lt.1 hlt) _)
      have htake : takeRefs (sumLen b.refs - n) b.refs = takeRefs (sumLen rs - (n - r.length)) rs := by
        have hnum : sumLen b.refs - n = sumLen rs - (n - r.length) := by lia
        rw [hnum] at hle ⊢
        rw [hrefs, takeRefs_append_of_le hle]
      rw [htake] at hfit ⊢
      obtain ⟨S1, hrefs1⟩ := S.popBackView hrefs (hfit.of_takeRefs (by lia))
      rw [← hrefs1] at hfit ⊢
      apply S1.popBackLoop
      · rw [hrefs1]
        rw [hrefs, length_append] at hfuel
        exact Nat.le_of_succ_le_succ hfuel
      · rw [hrefs1]
        lia
      · exact hfit

theorem Sound.cutnLoop : ∀ {fuel n : ℕ} {b out : IOBuf}, Sound b → Sound out → b.refs.length ≤ fuel →
    n ≤ sumLen b.refs → DropFits n b.refs → PushAllFits out.refs (takeRefs n b.refs) →
    ∃ b' out', cutnLoop fuel n b out = some (b', out') ∧ Sound b' ∧ Sound out' ∧
    b'.refs = dropRefs n b.refs ∧
      out'.refs = (takeRefs n b.refs).foldl mergePush out.refs
  | 0, n, b, out, S, T, hfuel, _, _, _ => by
    have hnil : b.refs = [] := length_eq_zero_iff.mp (Nat.le_zero.mp hfuel)
    refine ⟨b, out, rfl, S, T, ?_, ?_⟩
    · rw [hnil]
      rfl
    · rw [hnil]
      rfl
  | fuel + 1, n, b, out, S, T, hfuel, hn, hfit, hpush => by
    simp only [IOBuf32.cutnLoop]
    by_cases hzero : n = 0
    · rw [if_pos hzero, hzero, dropRefs_zero, takeRefs_zero]
      exact ⟨b, out, rfl, S, T, rfl, rfl⟩
    rw [if_neg hzero, read_eq S.wf.view S.front, bind_some]
    cases hrefs : b.refs with
    | nil =>
      rw [hrefs] at hn
      exact absurd (Nat.le_zero.mp hn) hzero
    | cons r rs =>
      obtain ⟨hblock, hpos, hstop⟩ := S.ref r (by rw [hrefs]; exact mem_cons_self)
      rw [hrefs, sumLen_cons] at hn
      rw [hrefs] at hfit hpush hfuel
      simp only [DropFits, takeRefs, if_neg hzero] at hfit hpush
      simp only [dropRefs, takeRefs, if_neg hzero, frontRef_eq S.wf.view hrefs]
      by_cases hlt : n < r.length
      · rw [if_pos hlt] at hfit hpush ⊢
        rw [if_neg (not_le.mpr hlt), if_pos hlt]
        have hpart : (⟨r.offset, n, r.block⟩ : BlockRef).stop ≤ maxSize :=
          le_trans (Nat.add_le_add_left hlt.le _) hstop
        obtain ⟨out1, hout, T1, hrefs1⟩ :=
          T.push (r := ⟨r.offset, n, r.block⟩) hblock (pos_of_ne_zero hzero) hpart hpush.1
        obtain ⟨b1, htrim, S1, hrefs2⟩ := S.trimFront hrefs hlt hfit.2.1
        refine ⟨b1, out1, ?_, S1, T1, hrefs2, hrefs1⟩
        rw [hout, bind_some, htrim, map_some]
      · rw [if_neg hlt] at hfit hpush ⊢
        rw [if_pos (not_lt.1 hlt), if_neg hlt]
        obtain ⟨out1, hout, T1, hrefs1⟩ := T.push hblock hpos hstop hpush.1
        obtain ⟨S1, hrefs2⟩ := S.popFrontView hrefs hfit.2.front
        rw [hout, bind_some, foldl_cons, ← hrefs1, ← hrefs2]
        apply S1.cutnLoop T1
        · rw [hrefs2]
          exact Nat.le_of_succ_le_succ hfuel
        · rw [hrefs2]
          exact Nat.sub_le_iff_le_add'.2 hn
        · rw [hrefs2]
          exact hfit.2
        · rw [hrefs1, hrefs2]
          exact hpush.2

end Loops

/-! ## The operations -/

inductive Op (ι : Type) : Type where
  | appendUserData (i : ι) (size : ℕ) (mem : Ptr)
  | append (i other : ι)
  | popFront (i : ι) (n : ℕ)
  | popBack (i : ι) (n : ℕ)
  | cutn (i out : ι) (hne : i ≠ out) (n : ℕ)

variable {ι : Type} [DecidableEq ι] {bufs : ι → IOBuf} {q : ι → List BlockRef}

def Op.exec (bufs : ι → IOBuf) : Op ι → Option (ι → IOBuf)
  | .appendUserData i size mem => (IOBuf32.appendUserData size mem (bufs i)).map (update bufs i)
  | .append i other =>
      (if other = i then appendSelf (bufs i) else IOBuf32.append (bufs other) (bufs i)).map
        (update bufs i)
  | .popFront i n => (IOBuf32.popFront n (bufs i)).map (update bufs i)
  | .popBack i n => (IOBuf32.popBack n (bufs i)).map (update bufs i)
  | .cutn i out _ n => (IOBuf32.cutn n (bufs i) (bufs out)).map fun (b, o) =>
    update (update bufs i b) out o

def step (bufs : Option (ι → IOBuf)) (op : Op ι) : Option (ι → IOBuf) := bufs.bind op.exec

def run (bufs : ι → IOBuf) (ops : List (Op ι)) : Option (ι → IOBuf) :=
  Lib.runFrom step (some bufs) ops

/-- The user data becomes a reference. -/
def Accepted (size : ℕ) (mem : Ptr) : Prop := size ≤ maxSize ∧ size ≠ 0 ∧ mem ≠ NULL

instance (size : ℕ) (mem : Ptr) : Decidable (Accepted size mem) := inferInstanceAs (Decidable (_ ∧ _))

def Op.queue (q : ι → List BlockRef) : Op ι → ι → List BlockRef
  | .appendUserData i size mem =>
      update q i (if Accepted size mem then mergePush (q i) ⟨0, size, mem⟩ else q i)
  | .append i other =>
      update q i (if other = i then appendSelfRefs (q i).length 0 (q i)
        else (q other).foldl mergePush (q i))
  | .popFront i n => update q i (dropRefs n (q i))
  | .popBack i n => update q i (takeRefs (sumLen (q i) - n) (q i))
  | .cutn i out _ n =>
      update (update q i (dropRefs n (q i))) out ((takeRefs n (q i)).foldl mergePush (q out))

/-- The operation fits, of the buffers that it finds. -/
def Op.Fits (bufs : ι → IOBuf) : Op ι → Prop
  | .appendUserData i size mem => Accepted size mem → PushFits (bufs i).refs ⟨0, size, mem⟩
  | .append i other => if other = i then SelfFits (bufs i)
      else PushAllFits (bufs i).refs (bufs other).refs
  | .popFront i n => n < sumLen (bufs i).refs → DropFits n (bufs i).refs
  | .popBack i n => n < sumLen (bufs i).refs →
      IOBuf32.Fits (takeRefs (sumLen (bufs i).refs - n) (bufs i).refs)
  | .cutn i out _ n =>
      DropFits (min n (sumLen (bufs i).refs)) (bufs i).refs ∧
        PushAllFits (bufs out).refs (takeRefs n (bufs i).refs)

instance (bufs : ι → IOBuf) : ∀ op : Op ι, Decidable (op.Fits bufs)
  | .appendUserData _ _ _ => inferInstanceAs (Decidable (_ → _))
  | .append i other => inferInstanceAs (Decidable (if other = i then _ else _))
  | .popFront _ _ => inferInstanceAs (Decidable (_ → _))
  | .popBack _ _ => inferInstanceAs (Decidable (_ → _))
  | .cutn _ _ _ _ => inferInstanceAs (Decidable (_ ∧ _))

def runQueue (q : ι → List BlockRef) (ops : List (Op ι)) : ι → List BlockRef := Lib.runFrom Op.queue q ops

/-- A buffer in 32 bits holds the queue `rs`. -/
structure Holds (b : IOBuf) (rs : List BlockRef) : Prop where
  sound : Sound b
  length : LengthFits b.refs
  refs : b.refs = rs

section Ops

variable {b out : IOBuf} {rs more : List BlockRef} {n size : ℕ} {mem : Ptr}

theorem holds_new : Holds new [] where
  sound := ⟨wf_new, by simp, by simp [new], fits_nil.1⟩
  length := fits_nil.2
  refs := rfl

theorem Holds.appendUserData (H : Holds b rs) (hfit : Accepted size mem → PushFits rs ⟨0, size, mem⟩) :
    ∃ b', appendUserData size mem b = some b' ∧
      Holds b' (if Accepted size mem then mergePush rs ⟨0, size, mem⟩ else rs) := by
  obtain ⟨S, hlen, rfl⟩ := H
  simp only [IOBuf32.appendUserData]
  by_cases hmax : maxSize < size
  · rw [if_pos hmax, if_neg fun h => absurd h.1 (not_le.2 hmax)]
    exact ⟨b, rfl, S, hlen, rfl⟩
  rw [if_neg hmax]
  by_cases hzero : size = 0
  · rw [if_pos hzero, if_neg fun h => h.2.1 hzero]
    exact ⟨b, rfl, S, hlen, rfl⟩
  rw [if_neg hzero]
  by_cases hnull : mem = NULL
  · rw [if_pos hnull, if_neg fun h => h.2.2 hnull]
    exact ⟨b, rfl, S, hlen, rfl⟩
  have hacc : Accepted size mem := ⟨not_lt.1 hmax, hzero, hnull⟩
  rw [if_neg hnull, if_pos hacc]
  have hstop : (⟨0, size, mem⟩ : BlockRef).stop ≤ maxSize := by simpa [BlockRef.stop] using hacc.1
  obtain ⟨b', hpush, S', hrefs⟩ := S.push hnull (pos_of_ne_zero hzero) hstop (hfit hacc)
  refine ⟨b', hpush, S', ?_, hrefs⟩
  rw [hrefs]
  exact (hfit hacc).lengthFits

theorem Holds.append {other : IOBuf} (H : Holds b rs) (T : Holds other more)
    (hfit : PushAllFits rs more) :
    ∃ b', append other b = some b' ∧ Holds b' (more.foldl mergePush rs) := by
  obtain ⟨S, hlen, rfl⟩ := H
  obtain ⟨S1, -, rfl⟩ := T
  obtain ⟨b', hpush, S', hrefs⟩ := S.pushRefs S1.ref hfit
  refine ⟨b', ?_, S', ?_, hrefs⟩
  · rw [IOBuf32.append, read_eq S1.wf.view S1.front, bind_some, refList_eq S1.wf.view, hpush]
  · rw [hrefs]
    exact hfit.lengthFits hlen

theorem Holds.appendSelf (H : Holds b rs) (hfit : SelfFits b) :
    ∃ b', appendSelf b = some b' ∧ Holds b' (appendSelfRefs rs.length 0 rs) := by
  obtain ⟨S, hlen, rfl⟩ := H
  obtain ⟨b', hpush, S', hrefs⟩ := S.pushSelf (zero_add _).le hfit.1 hfit.2
  refine ⟨b', ?_, S', ?_, hrefs⟩
  · rw [IOBuf32.appendSelf, read_eq S.wf.view S.front, bind_some, refNum_eq S.wf.view, hpush]
  · rw [hrefs]
    exact hfit.1.lengthFits hlen

theorem Holds.popFront (H : Holds b rs) (hfit : n < sumLen rs → DropFits n rs) :
    ∃ b', popFront n b = some b' ∧ Holds b' (dropRefs n rs) := by
  obtain ⟨S, hlen, rfl⟩ := H
  simp only [IOBuf32.popFront, read_eq S.wf.view S.front, bind_some, length_eq S.wf.view hlen]
  by_cases hle : sumLen b.refs ≤ n
  · rw [if_pos hle, dropRefs_of_le (fun r hr => (S.ref r hr).2.1) hle]
    exact ⟨.new, rfl, holds_new⟩
  · have hlt := not_le.1 hle
    obtain ⟨b', hpop, S', hrefs⟩ := S.popFrontLoop (refNum_eq S.wf.view).ge hlt.le (hfit hlt)
    rw [if_neg hle]
    refine ⟨b', hpop, S', ?_, hrefs⟩
    rw [hrefs]
    exact (hfit hlt).fits.2

theorem Holds.popBack (H : Holds b rs) (hfit : n < sumLen rs → Fits (takeRefs (sumLen rs - n) rs)) :
    ∃ b', popBack n b = some b' ∧ Holds b' (takeRefs (sumLen rs - n) rs) := by
  obtain ⟨S, hlen, rfl⟩ := H
  simp only [IOBuf32.popBack, read_eq S.wf.view S.front, bind_some, length_eq S.wf.view hlen]
  by_cases hle : sumLen b.refs ≤ n
  · rw [if_pos hle, Nat.sub_eq_zero_of_le hle, takeRefs_zero]
    exact ⟨.new, rfl, holds_new⟩
  · have hlt := not_le.1 hle
    obtain ⟨b', hpop, S', hrefs⟩ := S.popBackLoop (refNum_eq S.wf.view).ge hlt (hfit hlt).1
    rw [if_neg hle]
    refine ⟨b', hpop, S', ?_, hrefs⟩
    rw [hrefs]
    exact (hfit hlt).2

theorem Holds.cutn (H : Holds b rs) (T : Holds out more) (hfit : DropFits (min n (sumLen rs)) rs)
    (hpush : PushAllFits more (takeRefs n rs)) :
    ∃ b' out', cutn n b out = some (b', out') ∧ Holds b' (dropRefs n rs) ∧
      Holds out' ((takeRefs n rs).foldl mergePush more) := by
  obtain ⟨S, hlen, rfl⟩ := H
  obtain ⟨T, hlen', rfl⟩ := T
  have hpos : ∀ r ∈ b.refs, 0 < r.length := fun r hr => (S.ref r hr).2.1
  -- More bytes than there are is as many as there are.
  have htake : takeRefs (min n (sumLen b.refs)) b.refs = takeRefs n b.refs := by
    rcases le_total n (sumLen b.refs) with hle | hge
    · rw [min_eq_left hle]
    · rw [min_eq_right hge, takeRefs_of_le hpos le_rfl, takeRefs_of_le hpos hge]
  have hdrop : dropRefs (min n (sumLen b.refs)) b.refs = dropRefs n b.refs := by
    rcases le_total n (sumLen b.refs) with hle | hge
    · rw [min_eq_left hle]
    · rw [min_eq_right hge, dropRefs_of_le hpos le_rfl, dropRefs_of_le hpos hge]
  rw [← htake] at hpush ⊢
  rw [← hdrop]
  obtain ⟨b', out', hcut, S', T', hrefs, hrefs'⟩ :=
    S.cutnLoop T (refNum_eq S.wf.view).ge (min_le_right _ _) hfit hpush
  refine ⟨b', out', ?_, ⟨S', ?_, hrefs⟩, T', ?_, hrefs'⟩
  · rw [IOBuf32.cutn, read_eq S.wf.view S.front, bind_some, length_eq S.wf.view hlen, hcut]
  · rw [hrefs]
    exact hfit.fits.2
  · rw [hrefs']
    exact hpush.lengthFits hlen'

end Ops

/-- **One operation that fits.** -/
theorem Op.exec_holds (H : ∀ i, Holds (bufs i) (q i)) {op : Op ι}
    (hfit : op.Fits bufs) : ∃ bufs', op.exec bufs = some bufs' ∧ ∀ i, Holds (bufs' i) (op.queue q i) := by
  obtain rfl : q = fun i => (bufs i).refs := funext fun i => (H i).refs.symm
  -- One buffer has changed.
  have hone : ∀ {i : ι} {b' : Option IOBuf} {rs : List BlockRef}, (∃ b, b' = some b ∧ Holds b rs) →
      ∃ bufs', b'.map (update bufs i) = some bufs' ∧
        ∀ j, Holds (bufs' j) (update (fun i => (bufs i).refs) i rs j) := by
    rintro i _ rs ⟨b, rfl, hb⟩
    refine ⟨update bufs i b, rfl, fun j => ?_⟩
    obtain rfl | hij := eq_or_ne j i
    · rw [update_self, update_self]
      exact hb
    · rw [update_of_ne hij, update_of_ne hij]
      exact H j
  cases op with
  | appendUserData i size mem => exact hone ((H i).appendUserData hfit)
  | append i other =>
    by_cases hself : other = i
    · simp only [Op.Fits, if_pos hself] at hfit
      simp only [Op.exec, Op.queue, if_pos hself]
      exact hone ((H i).appendSelf hfit)
    · simp only [Op.Fits, if_neg hself] at hfit
      simp only [Op.exec, Op.queue, if_neg hself]
      exact hone ((H i).append (H other) hfit)
  | popFront i n => exact hone ((H i).popFront hfit)
  | popBack i n => exact hone ((H i).popBack hfit)
  | cutn i out hne n =>
    obtain ⟨b', out', hcut, hb, hout⟩ := (H i).cutn (H out) hfit.1 hfit.2
    refine ⟨update (update bufs i b') out out', ?_, fun j => ?_⟩
    · simp only [Op.exec, hcut, map_some]
    · simp only [Op.queue]
      obtain rfl | hjo := eq_or_ne j out
      · rw [update_self, update_self]
        exact hout
      rw [update_of_ne hjo, update_of_ne hjo]
      obtain rfl | hji := eq_or_ne j i
      · rw [update_self, update_self]
        exact hb
      · rw [update_of_ne hji, update_of_ne hji]
        exact H j

/-- Every operation of the run fits. -/
def RunFits (bufs : ι → IOBuf) (ops : List (Op ι)) : Prop :=
  Lib.Along step (fun bufs op => ∀ b ∈ bufs, op.Fits b) (some bufs) ops

instance (bufs : ι → IOBuf) (ops : List (Op ι)) : Decidable (RunFits bufs ops) :=
  inferInstanceAs (Decidable (Lib.Along _ _ _ _))

/-- **A run that fits.** -/
theorem run_holds {ops : List (Op ι)} (H : ∀ i, Holds (bufs i) (q i)) (hfit : RunFits bufs ops) :
    ∃ bufs', run bufs ops = some bufs' ∧ ∀ i, Holds (bufs' i) (runQueue q ops i) := by
  induction ops generalizing bufs q with
  | nil => exact ⟨bufs, rfl, H⟩
  | cons op ops ih =>
    obtain ⟨hop, hops⟩ := hfit
    obtain ⟨bufs1, hexec, H1⟩ := Op.exec_holds H (hop bufs rfl)
    rw [step, bind_some, hexec] at hops
    obtain ⟨bufs2, hrun, H2⟩ := ih H1 hops
    refine ⟨bufs2, ?_, H2⟩
    rw [run, Lib.runFrom_cons, step, bind_some, hexec]
    exact hrun

/-- **User data of every size.** As long as every operation fits in 32 bits, and no buffer is
appended to itself that needs a larger array for it, the buffers are the queues without bounds,
`length()` is the number of their bytes, every buffer is taken for the view it was written as, and
no reference reaches beyond its user data. -/
theorem run_lengths (ops : List (Op ι)) (hfit : RunFits (fun _ => IOBuf.new) ops) :
    ∃ bufs, run (fun _ => IOBuf.new) ops = some bufs ∧ ∀ i : ι,
      length (bufs i) = (cells (runQueue (fun _ => []) ops i)).length ∧ small (bufs i) = (bufs i).small ∧
        (bufs i).refs = runQueue (fun _ => []) ops i ∧ ∀ r ∈ (bufs i).refs, r.stop ≤ maxSize := by
  obtain ⟨bufs, hrun, H⟩ := run_holds (fun _ => holds_new) hfit
  refine ⟨bufs, hrun, fun i => ?_⟩
  obtain ⟨S, hlen, hrefs⟩ := H i
  refine ⟨?_, small_eq S.wf.view S.front, hrefs, S.stop_le⟩
  rw [length_eq S.wf.view hlen, hrefs, length_cells]

/-- 3 GB shared by two buffers, 2 GB more, and a buffer that is appended to itself. -/
theorem run_lengths_shared :
    let ops : List (Op Bool) :=
  [.appendUserData false (3 * 2 ^ 30) 1, .popBack false (2 ^ 31), .append true false,
      .appendUserData true (2 ^ 31) 2, .cutn true false (by decide) (2 ^ 30 + 5), .popFront false 7,
        .append false false]
    RunFits (fun _ => IOBuf.new) ops ∧
      ∃ bufs, run (fun _ => IOBuf.new) ops = some bufs ∧ ∀ i : Bool,
        length (bufs i) = (cells (runQueue (fun _ => []) ops i)).length ∧
          small (bufs i) = (bufs i).small ∧
          (bufs i).refs = runQueue (fun _ => []) ops i ∧ ∀ r ∈ (bufs i).refs, r.stop ≤ maxSize := by
  intro ops
  have hfit : RunFits (fun _ => new) ops := by decide
  exact ⟨hfit, run_lengths ops hfit⟩

/-- Twice 3 GB in a `SmallView` are 2 GB. -/
theorem twice_counted_wrong :
    ¬ ∀ ops : List (Op Unit), ∃ bufs, run (fun _ => IOBuf.new) ops = some bufs ∧
      length (bufs ()) = (cells (runQueue (fun _ => []) ops ())).length := by
  intro h
  obtain ⟨bufs, hrun, hlen⟩ := h [.appendUserData () (3 * 2 ^ 30) 1, .appendUserData () (3 * 2 ^ 30) 2]
  rw [length_cells] at hlen
  have hlen' :
      (run (fun _ => .new) [Op.appendUserData () (3 * 2 ^ 30) 1,
      .appendUserData () (3 * 2 ^ 30) 2]).map
      (fun bufs => length (bufs ())) = some (2 ^ 31) := by decide
  have hsum : sumLen (runQueue (fun _ : Unit => []) [Op.appendUserData () (3 * 2 ^ 30) 1,
      .appendUserData () (3 * 2 ^ 30) 2] ()) = 6 * 2 ^ 30 := by decide
  rw [hrun, map_some, some.injEq] at hlen'
  rw [hlen', hsum] at hlen
  exact absurd hlen (by decide)

/-- A `SmallView` whose first reference gets into the upper half of its block is read as a
`BigView`. -/
example : run (fun _ : Unit => IOBuf.new) [.appendUserData () (3 * 2 ^ 30) 1, .popFront () (2 ^ 31)]
      = none := by
  rfl

end Eabase.IOBuf32
