import Eabase.IOBuf.Reading

/-!
# `IOBufAsZeroCopyInputStream`

The stream is a cursor over the bytes of a buffer that does not change meanwhile. It is kept
as the index of a reference and an offset in it. Both `size` and the offset are `int`, and a
reference may be longer than an `int` says: that happens with user data only, and the results
below ask that no such reference is stepped on.
-/

namespace Eabase.IOBuf

open List

/-! ## The code -/

/-- Conversion to `int` and to `uint32_t`. -/
def toInt (x : ℤ) : ℤ := x.bmod (2 ^ 32)

def toUInt32 (x : ℤ) : ℤ := x % 2 ^ 32

/-- `_pref_at(size_t i)`. -/
def prefAt (b : IOBuf) (i : ℕ) : Option BlockRef := if i < b.refNum then some (b.refAt i) else none

/-- The members besides `_buf`. -/
structure ZeroCopyInput where
  refIndex : ℕ
  addOffset : ℤ
  byteCount : ℤ

/-- `*data` as a block and an offset in its data, and `*size`. -/
structure Chunk where
  block : Ptr
  off : ℤ
  size : ℤ
deriving DecidableEq

namespace ZeroCopyInput

/-- `IOBufAsZeroCopyInputStream(const IOBuf& buf)`. -/
def init : ZeroCopyInput := ⟨0, 0, 0⟩

/-- `Next(const void** data, int* size)`; `none` is `false`. -/
def next (b : IOBuf) (s : ZeroCopyInput) : Option Chunk × ZeroCopyInput :=
  match b.prefAt s.refIndex with
  | none => (none, s)
  | some curRef =>
      (some ⟨curRef.block, curRef.offset + s.addOffset, toInt (curRef.length - s.addOffset)⟩,
        ⟨s.refIndex + 1, 0, s.byteCount + toUInt32 (curRef.length - s.addOffset)⟩)

/-- `BackUp(int count)`; without a `Next` before it only logs. -/
def backUp (count : ℤ) (b : IOBuf) (s : ZeroCopyInput) : ZeroCopyInput :=
  if 0 < s.refIndex then
    ⟨s.refIndex - 1, toInt ((b.refAt (s.refIndex - 1)).length - count), s.byteCount - count⟩
  else s

/-- The loop of `Skip` uses up one reference a round. -/
def skipLoop (b : IOBuf) : ℕ → ℤ → ZeroCopyInput → Bool × ZeroCopyInput
  | 0, _, s => (false, s)
  | fuel + 1, count, s =>
      match b.prefAt s.refIndex with
      | none => (false, s)
      | some curRef =>
          let leftBytes := toInt (curRef.length - s.addOffset)
          if count < leftBytes then (true, ⟨s.refIndex, s.addOffset + count, s.byteCount + count⟩)
          else skipLoop b fuel (toInt (count - leftBytes)) ⟨s.refIndex + 1, 0, s.byteCount + leftBytes⟩

/-- `Skip(int count)`. -/
def skip (count : ℤ) (b : IOBuf) (s : ZeroCopyInput) : Bool × ZeroCopyInput := skipLoop b b.refNum count s

def pos (b : IOBuf) (s : ZeroCopyInput) : ℕ := sumLen (b.refs.take s.refIndex) + s.addOffset.toNat

end ZeroCopyInput

def Chunk.bytes (c : Chunk) (h : Heap) : List Byte := h.read c.block c.off.toNat c.size.toNat

/-- `Next` again and again, until it returns `false`. -/
def drainInput (b : IOBuf) (h : Heap) : ℕ → ZeroCopyInput → List Byte
  | 0, _ => []
  | fuel + 1, s =>
      match s.next b with
      | (none, _) => []
      | (some c, s') => c.bytes h ++ drainInput b h fuel s'

/-! ## Sequences of calls -/

inductive InputCall where
  | next
  | skip (count : ℕ)
  | backUp (count : ℕ)

/-- The stream and the size that the call just before returned, if that was a `Next`. -/
structure InputState where
  stream : ZeroCopyInput
  last : Option ℤ

def InputState.step (b : IOBuf) (s : InputState) : InputCall → InputState
  | .next => ⟨(s.stream.next b).2, (s.stream.next b).1.map Chunk.size⟩
  | .skip count => ⟨(s.stream.skip count b).2, none⟩
  | .backUp count => ⟨s.stream.backUp count b, none⟩

def InputState.run (b : IOBuf) : InputState → List InputCall → InputState
  | s, [] => s
  | s, call :: calls => (s.step b call).run b calls

/-- No reference that a call steps on has a length that is negative as an `int`. `Skip` steps on
those that begin where it goes to, or before. -/
def InputState.Fits (b : IOBuf) (s : InputState) : InputCall → Prop
  | .next => ∀ r ∈ (b.refs.drop s.stream.refIndex).head?, r.length < 2 ^ 31
  | .skip count =>
      ∀ front r back, b.refs.drop s.stream.refIndex = front ++ r :: back →
        sumLen (b.refs.take s.stream.refIndex ++ front) ≤ s.stream.pos b + count → r.length < 2 ^ 31
  | .backUp _ => True

/-- The arguments are an `int` each, and `BackUp` comes after a `Next` that returned as much. -/
def InputState.Allowed (s : InputState) : InputCall → Prop
  | .next => True
  | .skip count => count < 2 ^ 31
  | .backUp count => ∃ size, s.last = some size ∧ (count : ℤ) ≤ size

def InputState.AllGood (b : IOBuf) : InputState → List InputCall → Prop
  | _, [] => True
  | s, call :: calls => s.Allowed call ∧ s.Fits b call ∧ (s.step b call).AllGood b calls

open ZeroCopyInput

/-! ## The cursor -/

section

variable {b : IOBuf} {h : Heap} {s : ZeroCopyInput} {k count : ℕ} {r : BlockRef}
  {rs : List BlockRef} {x : ℤ}

theorem toInt_eq (h0 : 0 ≤ x) (h1 : x < 2 ^ 31) : toInt x = x := by
  apply Int.bmod_eq_of_le
  · lia
  · lia

theorem toUInt32_eq (h0 : 0 ≤ x) (h1 : x < 2 ^ 31) : toUInt32 x = x := by
  apply Int.emod_eq_of_lt h0
  lia

/-- The cursor stands `k` bytes behind the beginning of the reference with index `refIndex`, the
first of `rs`. -/
structure Stands (b : IOBuf) (s : ZeroCopyInput) (k : ℕ) (rs : List BlockRef) : Prop where
  idx : s.refIndex ≤ b.refs.length
  rest : b.refs.drop s.refIndex = rs
  off : s.addOffset = k
  inside : ∀ r ∈ rs.head?, k ≤ r.length
  start : rs = [] → k = 0
  count : s.byteCount = sumLen (b.refs.take s.refIndex) + k

section

variable (H : Stands b s k rs)
include H

theorem Stands.pos_eq : s.pos b = sumLen (b.refs.take s.refIndex) + k := by
  rw [pos, H.off, Int.toNat_natCast]

theorem Stands.byteCount_eq : s.byteCount = s.pos b := by
  rw [H.pos_eq, H.count]
  push_cast
  rfl

theorem Stands.total : sumLen (b.refs.take s.refIndex) + sumLen rs = sumLen b.refs := by
  rw [← H.rest, ← sumLen_append, take_append_drop]

theorem Stands.le_head : k ≤ sumLen rs := by
  cases rs with
  | nil => exact (H.start rfl).le
  | cons r rs =>
    rw [sumLen_cons]
    exact (H.inside r rfl).trans (Nat.le_add_right _ _)

theorem Stands.todo : (h.content b.refs).drop (s.pos b) = (h.content rs).drop k := by
  conv_lhs => rw [← take_append_drop s.refIndex b.refs, H.rest, Heap.content_append, H.pos_eq]
  rw [← Heap.content_length h, ← drop_drop, drop_left]

end

theorem prefAt_nil (hb : b.ViewWF) (hrest : b.refs.drop s.refIndex = []) :
    b.prefAt s.refIndex = none := by
  rw [drop_eq_nil_iff] at hrest
  rw [prefAt, if_neg]
  rw [refNum_eq hb]
  exact Nat.not_lt.2 hrest

theorem prefAt_cons (hb : b.ViewWF) (hrest : b.refs.drop s.refIndex = r :: rs) :
    b.prefAt s.refIndex = some r ∧ s.refIndex < b.refs.length ∧ b.refs.drop (s.refIndex + 1) = rs := by
  have hlt : s.refIndex < b.refs.length := by
    by_contra hge
    rw [drop_eq_nil_of_le (Nat.not_lt.1 hge)] at hrest
    cases hrest
  have hidx : s.refIndex < b.refNum := by rwa [refNum_eq hb]
  have hdrop := drop_refs hb hidx
  rw [hrest] at hdrop
  obtain ⟨hr, hrs⟩ := cons.inj hdrop
  rw [prefAt, if_pos hidx, hr]
  exact ⟨rfl, hlt, hrs.symm⟩

theorem sumLen_take_succ (hrest : b.refs.drop s.refIndex = r :: rs) :
    sumLen (b.refs.take (s.refIndex + 1)) = sumLen (b.refs.take s.refIndex) + r.length := by
  rw [take_add, hrest, sumLen_append]
  rfl

theorem Stands.succ (H : Stands b s k (r :: rs)) (hb : b.ViewWF) {c : ℤ}
    (hc : c = s.byteCount + (r.length - k : ℤ)) : Stands b ⟨s.refIndex + 1, 0, c⟩ 0 rs := by
  obtain ⟨-, hlt, hdrop⟩ := prefAt_cons hb H.rest
  constructor
  · exact hlt
  · exact hdrop
  · rfl
  · exact fun r' _ => Nat.zero_le _
  · exact fun _ => rfl
  · rw [hc, H.count, sumLen_take_succ H.rest]
    push_cast
    abel

theorem init_stands : Stands b .init 0 b.refs :=
  ⟨Nat.zero_le _, drop_zero, rfl, fun _ _ => Nat.zero_le _, fun _ => rfl, rfl⟩

theorem Stands.next_nil (H : Stands b s k []) (hb : b.ViewWF) : s.next b = (none, s) := by
  rw [ZeroCopyInput.next, prefAt_nil hb H.rest]

theorem Stands.next_cons (H : Stands b s k (r :: rs)) (hb : b.ViewWF) (hlen : r.length < 2 ^ 31) :
    ∃ c s', s.next b = (some c, s') ∧ c.bytes h = (h.bytes r).drop k ∧ c.size = (r.length - k : ℤ) ∧
    s'.refIndex = s.refIndex + 1 ∧
      Stands b s' 0 rs := by
  have hk : k ≤ r.length := H.inside r rfl
  have hsize : ((r.length : ℤ) - s.addOffset) = ((r.length - k : ℕ) : ℤ) := by rw [H.off, Nat.cast_sub hk]
  have hint : ((r.length - k : ℕ) : ℤ) < 2 ^ 31 := by lia
  have hnext : s.next b = (some ⟨r.block, r.offset + s.addOffset, toInt (r.length - s.addOffset)⟩,
      ⟨s.refIndex + 1, 0, s.byteCount + toUInt32 (r.length - s.addOffset)⟩) := by
    rw [ZeroCopyInput.next, (prefAt_cons hb H.rest).1]
  refine ⟨_, _, hnext, ?_, ?_, rfl, ?_⟩
  · simp only [Chunk.bytes]
    rw [hsize, toInt_eq (Int.natCast_nonneg _) hint, Int.toNat_natCast, H.off, Heap.bytes,
      Heap.read_drop hk]
    rfl
  · rw [hsize, toInt_eq (Int.natCast_nonneg _) hint, Nat.cast_sub hk]
  · apply H.succ hb
    rw [hsize, toUInt32_eq (Int.natCast_nonneg _) hint, Nat.cast_sub hk]

theorem Stands.backUp {s' : ZeroCopyInput} {j : ℕ} (H : Stands b s j (r :: rs))
    (H' : Stands b s' 0 rs) (hb : b.ViewWF)
    (hidx : s'.refIndex = s.refIndex + 1) (hlen : r.length < 2 ^ 31) (hcount : count ≤ r.length) :
    Stands b (s'.backUp count b) (r.length - count) (r :: rs) := by
  obtain ⟨hpref, hlt, -⟩ := prefAt_cons hb H.rest
  have href : b.refAt s.refIndex = r := by
    rw [prefAt, if_pos (by rwa [refNum_eq hb])] at hpref
    exact Option.some.inj hpref
  have hback : s'.backUp count b = ⟨s.refIndex, toInt (r.length - count), s'.byteCount - count⟩ := by
    rw [ZeroCopyInput.backUp, if_pos (by lia), hidx, Nat.add_sub_cancel, href]
  rw [hback]
  constructor
  · exact H.idx
  · exact H.rest
  · rw [Nat.cast_sub hcount]
    apply toInt_eq
    · lia
    · lia
  · rintro r' hr'
    cases hr'
    exact Nat.sub_le _ _
  · exact fun hnil => absurd hnil (cons_ne_nil _ _)
  · rw [H'.count, hidx, sumLen_take_succ H.rest, Nat.cast_sub hcount]
    push_cast
    abel

theorem Stands.skipLoop (hb : b.ViewWF) : ∀ (fuel : ℕ) (s : ZeroCopyInput) (k count : ℕ)
    (rs : List BlockRef), Stands b s k rs →
    rs.length ≤ fuel → count < 2 ^ 31 →
    (∀ front r back, rs = front ++ r :: back → sumLen front ≤ k + count → r.length < 2 ^ 31) →
    ∃ s' k' rs', (skipLoop b fuel count s).2 = s' ∧ Stands b s' k' rs' ∧
      s'.pos b = min (s.pos b + count) (sumLen b.refs) ∧
      ((skipLoop b fuel count s).1 = false ↔ s'.pos b = sumLen b.refs) := by
  intro fuel
  induction fuel with
  | zero =>
    intro s k count rs H hfuel _ _
    obtain rfl : rs = [] := eq_nil_of_length_eq_zero (Nat.le_zero.1 hfuel)
    have hpos : s.pos b = sumLen b.refs := by
      rw [H.pos_eq, H.start rfl, ← H.total]
      rfl
    refine ⟨s, k, [], rfl, H, ?_, ?_⟩
    · rw [hpos]
      exact (min_eq_right (Nat.le_add_right _ _)).symm
    · exact ⟨fun _ => hpos, fun _ => rfl⟩
  | succ fuel ih =>
    intro s k count rs H hfuel hcount hfits
    cases rs with
    | nil =>
      have hpos : s.pos b = sumLen b.refs := by
        rw [H.pos_eq, H.start rfl, ← H.total]
        rfl
      rw [ZeroCopyInput.skipLoop, prefAt_nil hb H.rest]
      refine ⟨s, k, [], rfl, H, ?_, ?_⟩
      · rw [hpos]
        exact (min_eq_right (Nat.le_add_right _ _)).symm
      · exact ⟨fun _ => hpos, fun _ => rfl⟩
    | cons r rs =>
      have hk : k ≤ r.length := H.inside r rfl
      have hlen : r.length < 2 ^ 31 := hfits [] r rs rfl (Nat.zero_le _)
      have htotal := H.total
      rw [sumLen_cons] at htotal
      have hleft : toInt ((r.length : ℤ) - s.addOffset) = ((r.length - k : ℕ) : ℤ) := by
        rw [H.off, ← Nat.cast_sub hk]
        apply toInt_eq (Int.natCast_nonneg _)
        lia
      rw [ZeroCopyInput.skipLoop, (prefAt_cons hb H.rest).1]
      simp only [hleft]
      split
      · -- the cursor stays in this reference
        rename_i hlt
        have hlt' : count < r.length - k := by exact_mod_cast hlt
        have H' : Stands b ⟨s.refIndex, s.addOffset + count, s.byteCount + count⟩ (k + count)
            (r :: rs) := by
          constructor
          · exact H.idx
          · exact H.rest
          · rw [H.off, Nat.cast_add]
          · rintro r' hr'
            cases hr'
            lia
          · exact fun hnil => absurd hnil (cons_ne_nil _ _)
          · rw [H.count, Nat.cast_add]
            exact add_assoc _ _ _
        refine ⟨_, _, _, rfl, H', ?_, ?_⟩
        · rw [H'.pos_eq, H.pos_eq]
          change sumLen (b.refs.take s.refIndex) + (k + count) = _
          lia
        · rw [H'.pos_eq]
          change true = false ↔ sumLen (b.refs.take s.refIndex) + (k + count) = _
          constructor
          · exact fun heq => absurd heq (by decide)
          · intro heq
            lia
      next hge =>
        have hge' : r.length - k ≤ count := by exact_mod_cast Int.not_lt.1 hge
        have H1 : Stands b ⟨s.refIndex + 1, 0, s.byteCount + ((r.length - k : ℕ) : ℤ)⟩ 0 rs := by
          apply H.succ hb
          rw [Nat.cast_sub hk]
        have hrest : toInt ((count : ℤ) - ((r.length - k : ℕ) : ℤ))
            = ((count - (r.length - k) : ℕ) : ℤ) := by
          rw [Nat.cast_sub hge']
          apply toInt_eq
          · lia
          · lia
        rw [hrest]
        have hpos1 : pos b ⟨s.refIndex + 1, 0, s.byteCount + ((r.length - k : ℕ) : ℤ)⟩ = s.pos b
            + (r.length - k) := by
          rw [H1.pos_eq, H.pos_eq]
          rw [sumLen_take_succ H.rest]
          lia
        obtain ⟨s', k', rs', heq, H', hpos, hret⟩ :=
          ih _ 0 (count - (r.length - k)) rs H1 (Nat.le_of_succ_le_succ hfuel)
          (by lia) (by
            intro front r' back hsplit hfront
            apply hfits (r :: front) r' back
            · rw [hsplit, cons_append]
            · rw [sumLen_cons]
              lia)
        refine ⟨s', k', rs', heq, H', ?_, hret⟩
        rw [hpos, hpos1]
        congr 1
        lia

/-- The cursor, and the reference it came over if the last call was a `Next`. -/
structure InputState.Inv (b : IOBuf) (s : InputState) (k : ℕ) (rs : List BlockRef) : Prop where
  stands : Stands b s.stream k rs
  last : ∀ size, s.last = some size → k = 0 ∧ ∃ s₀ j r, Stands b s₀ j (r :: rs) ∧
    s.stream.refIndex = s₀.refIndex + 1 ∧
    r.length < 2 ^ 31 ∧ size = (r.length - j : ℤ)

theorem InputState.Inv.init : InputState.Inv b ⟨.init, none⟩ 0 b.refs :=
  ⟨init_stands, nofun⟩

variable {t : InputState} {call : InputCall}

theorem InputState.Inv.skip (I : t.Inv b k rs) (hb : b.ViewWF) (hcount : count < 2 ^ 31)
    (hfits : t.Fits b (.skip count)) :
    ∃ k' rs', Stands b (t.stream.skip count b).2 k' rs' ∧
      (t.stream.skip count b).2.pos b = min (t.stream.pos b + count) (sumLen b.refs) ∧
      ((t.stream.skip count b).1 = false ↔ (t.stream.skip count b).2.pos b = sumLen b.refs) := by
  have hfuel : rs.length ≤ b.refNum := by
    rw [refNum_eq hb, ← I.stands.rest, length_drop]
    exact Nat.sub_le _ _
  obtain ⟨s', k', rs', heq, H', hpos, hret⟩ :=
    Stands.skipLoop hb b.refNum t.stream k count rs I.stands hfuel hcount (by
    intro front r back hsplit hfront
    apply hfits front r back
    · rw [I.stands.rest, hsplit]
    · rw [sumLen_append, I.stands.pos_eq]
      lia)
  subst heq
  exact ⟨k', rs', H', hpos, hret⟩

theorem InputState.Inv.backUp (I : t.Inv b k rs) (hb : b.ViewWF) {size : ℤ}
    (hlast : t.last = some size) (hcount : (count : ℤ) ≤ size) :
    (t.stream.backUp count b).pos b + count = t.stream.pos b ∧ ∃ k' rs',
    Stands b (t.stream.backUp count b) k' rs' := by
  obtain ⟨rfl, s0, j, r, H0, hidx, hlen, rfl⟩ := I.last size hlast
  have hle : count ≤ r.length := by lia
  have H' := H0.backUp I.stands hb hidx hlen hle
  refine ⟨?_, _, _, H'⟩
  have hindex : (t.stream.backUp count b).refIndex = s0.refIndex := by
    rw [backUp, if_pos (by lia), hidx, Nat.add_sub_cancel]
  rw [H'.pos_eq, I.stands.pos_eq, hindex, hidx, sumLen_take_succ H0.rest]
  lia

theorem InputState.Inv.step (I : t.Inv b k rs) (hb : b.ViewWF) (hallowed : t.Allowed call)
    (hfits : t.Fits b call) :
    ∃ k' rs', (t.step b call).Inv b k' rs' := by
  cases call with
  | next =>
    cases rs with
    | nil =>
      refine ⟨k, [], ?_, ?_⟩
      · rw [InputState.step, I.stands.next_nil hb]
        exact I.stands
      · intro size hsize
        rw [InputState.step, I.stands.next_nil hb] at hsize
        cases hsize
    | cons r rs =>
      have hlen : r.length < 2 ^ 31 := hfits r (by rw [I.stands.rest]; rfl)
      obtain ⟨c, s', hnext, -, hsize, hidx, H'⟩ :=
        I.stands.next_cons (h := .init (fun _ _ => 0) fun _ => false) hb hlen
      refine ⟨0, rs, ?_, ?_⟩
      · rw [InputState.step, hnext]
        exact H'
      · intro size hlast
        rw [InputState.step, hnext] at hlast ⊢
        cases hlast
        exact ⟨rfl, t.stream, k, r, I.stands, hidx, hlen, hsize⟩
  | skip count =>
    obtain ⟨k', rs', H', -, -⟩ := I.skip hb hallowed hfits
    exact ⟨k', rs', H', nofun⟩
  | backUp count =>
    obtain ⟨size, hlast, hcount⟩ := hallowed
    obtain ⟨-, k', rs', H'⟩ := I.backUp hb hlast hcount
    exact ⟨k', rs', H', nofun⟩

theorem InputState.Inv.run {calls : List InputCall} (I : t.Inv b k rs) (hb : b.ViewWF)
    (hgood : t.AllGood b calls) :
    ∃ k' rs', (t.run b calls).Inv b k' rs' := by
  induction calls generalizing t k rs with
  | nil => exact ⟨k, rs, I⟩
  | cons call calls ih =>
    obtain ⟨hallowed, hfits, hrest⟩ := hgood
    obtain ⟨k', rs', I'⟩ := I.step hb hallowed hfits
    exact ih I' hrest

theorem Stands.drain (hb : b.ViewWF) : ∀ (fuel : ℕ) (s : ZeroCopyInput) (k : ℕ)
    (rs : List BlockRef), Stands b s k rs →
    rs.length < fuel → (∀ r ∈ rs, r.length < 2 ^ 31) → drainInput b h fuel s = (h.content rs).drop k := by
  intro fuel
  induction fuel with
  | zero => exact fun _ _ _ _ hfuel => absurd hfuel (Nat.not_lt_zero _)
  | succ fuel ih =>
    intro s k rs H hfuel hlens
    cases rs with
    | nil => rw [drainInput, H.next_nil hb, Heap.content_nil, drop_nil]
    | cons r rs =>
      obtain ⟨c, s', hnext, hbytes, -, -, H'⟩ := H.next_cons (h := h) hb (hlens r mem_cons_self)
      rw [drainInput, hnext]
      simp only
      rw [ih s' 0 rs H' (Nat.lt_of_succ_lt_succ hfuel) fun r' hr' =>
        hlens r' (mem_cons_of_mem _ hr'), hbytes,
        drop_zero, Heap.content_cons, drop_append_of_le_length]
      rw [Heap.bytes_length]
      exact H.inside r rfl

end

/-- What the calls do when the cursor of `s` stands at `p`. -/
structure CursorAt (b : IOBuf) (h : Heap) (bs : List Byte) (s : InputState) (p : ℕ) : Prop where
  /-- The buffer is read as the view that it was written as. -/
  reads : IOBuf32.read b = some b
  le : p ≤ bs.length
  byteCount : s.stream.byteCount = p
  next_end : b.refs.drop s.stream.refIndex = [] → s.stream.next b = (none, s.stream) ∧ p = bs.length
  /-- The bytes up to the end of the reference with index `refIndex`. -/
  next : ∀ r, (b.refs.drop s.stream.refIndex).head? = some r → s.Fits b .next → ∃ c,
    (s.stream.next b).1 = some c ∧ 0 ≤ c.size ∧ c.bytes h = (bs.drop p).take c.size.toNat ∧
      (s.stream.next b).2.pos b = p + c.size.toNat ∧
        p + c.size.toNat = sumLen (b.refs.take (s.stream.refIndex + 1))
  backUp : ∀ count, s.Allowed (.backUp count) → (s.stream.backUp count b).pos b + count = p
  skip : ∀ count, s.Allowed (.skip count) → s.Fits b (.skip count) →
    (s.stream.skip count b).2.pos b = min (p + count) bs.length ∧
      ((s.stream.skip count b).1 = false ↔ (s.stream.skip count b).2.pos b = bs.length)
  drain : (∀ r ∈ b.refs.drop s.stream.refIndex, r.length < 2 ^ 31) →
    drainInput b h (b.refNum + 1) s.stream = bs.drop p

theorem InputState.Inv.cursorAt {b : IOBuf} {h : Heap} {t : InputState} {k : ℕ} {rs : List BlockRef}
    (I : t.Inv b k rs)
    (hb : b.ViewWF) (hfits : IOBuf32.FrontFits b.refs) :
    CursorAt b h (h.content b.refs) t (t.stream.pos b) := by
  have htotal := I.stands.total
  have hle := I.stands.le_head
  constructor
  case reads => exact IOBuf32.read_eq hb hfits
  case le =>
    rw [Heap.content_length, I.stands.pos_eq]
    lia
  case byteCount => exact I.stands.byteCount_eq
  case next_end =>
    intro hend
    rw [I.stands.rest] at hend
    subst hend
    refine ⟨I.stands.next_nil hb, ?_⟩
    rw [Heap.content_length, I.stands.pos_eq, I.stands.start rfl, ← htotal]
    rfl
  case next =>
    intro r hr hfits
    obtain ⟨rs', hrs⟩ := head?_eq_some_iff.1 hr
    rw [I.stands.rest] at hrs
    subst hrs
    have hk : k ≤ r.length := I.stands.inside r rfl
    obtain ⟨c, s', hnext, hbytes, hsize, hidx, H'⟩ := I.stands.next_cons (h := h) hb (hfits r hr)
    have htoNat : c.size.toNat = r.length - k := by lia
    have hend : sumLen (b.refs.take (t.stream.refIndex + 1)) = t.stream.pos b + c.size.toNat := by
      rw [sumLen_take_succ I.stands.rest, I.stands.pos_eq]
      lia
    refine ⟨c, ?_, ?_, ?_, ?_, hend.symm⟩
    · rw [hnext]
    · lia
    · rw [hbytes, htoNat, I.stands.todo, Heap.content_cons,
        drop_append_of_le_length (by rwa [Heap.bytes_length])]
      apply (take_left' _).symm
      rw [length_drop, Heap.bytes_length]
    · rw [hnext, H'.pos_eq, hidx, hend]
      rfl
  case backUp =>
    rintro count ⟨size, hlast, hcount⟩
    exact (I.backUp hb hlast hcount).1
  case skip =>
    intro count hcount hfits
    obtain ⟨-, -, -, hpos, hret⟩ := I.skip hb hcount hfits
    rw [Heap.content_length]
    exact ⟨hpos, hret⟩
  case drain =>
    intro hlens
    rw [I.stands.rest] at hlens
    have hfuel : rs.length < b.refNum + 1 := by
      rw [refNum_eq hb, ← I.stands.rest, length_drop]
      lia
    rw [Stands.drain hb _ _ k rs I.stands hfuel hlens, I.stands.todo]

/-- **The stream is a cursor over the byte string** of a buffer that a run in 32 bits leaves, after
any calls that step on no reference of 2 GB. -/
theorem run_cursor {ι κ : Type} [DecidableEq ι] [DecidableEq κ] [Fintype ι] [Fintype κ]
    (mem : Ptr → ℕ → Byte)
    (oom : Ptr → Bool) (acts : List (AreaAction ι κ)) (i : ι) (calls : List InputCall) :
    let W := (World.init mem oom : World ι κ).runArea acts
    let b := (W.portal i).buf
    (World.init mem oom : World ι κ).RunFits acts → InputState.AllGood b ⟨.init, none⟩ calls →
      let s := InputState.run b ⟨.init, none⟩ calls
      CursorAt b W.heap (W.heap.content b.refs) s (s.stream.pos b) := by
  intro W b hrun hgood s
  obtain ⟨l, c, S, F⟩ : ∃ l c S, WInv W l c S := (WInv.init mem oom).runArea
  obtain ⟨k, rs, I⟩ := InputState.Inv.init.run (F.portal i).wf.view hgood
  exact I.cursorAt (F.portal i).wf.view (hrun.fits (World.init_fits mem oom) (.inl i)).1

theorem run_cursor_xy :
    let W := (World.init (fun _ _ => 0) (fun _ => false) :
      World Unit Empty).runArea [.act (.buf (.append () (some [120, 121])))]
    let s := InputState.run (W.portal ()).buf ⟨.init, none⟩ [.next, .backUp 1]
    CursorAt (W.portal ()).buf W.heap (W.heap.content (W.portal ()).buf.refs) s
      (s.stream.pos (W.portal ()).buf) := by
  apply run_cursor (ι := Unit) (κ := Empty) (fun _ _ => 0)
    (fun _ => false) [.act (.buf (.append () (some [120, 121])))] ()
    [.next, .backUp 1]
  · refine ⟨⟨trivial, ?_, ?_⟩, trivial⟩
    all_goals decide
  · refine ⟨trivial, ?_, ⟨2, by decide, by decide⟩, trivial, trivial⟩
    simp only [InputState.Fits]
    decide

/-- A reference to 2 GB of user data: `Next` returns a negative size, and `Skip` goes back. -/
theorem negative_size :
    let b := sv ⟨0, 2 ^ 31, 1⟩ resetBlockRef
    let h := Heap.init (fun _ _ => 0) fun _ => false
    (ZeroCopyInput.next b .init).1 = some ⟨1, 0, -2 ^ 31⟩ ∧
      (ZeroCopyInput.skip 1 b .init).2.byteCount = -2 ^ 31 ∧
      (h.content b.refs).length = 2 ^ 31 := by
  intro b h
  refine ⟨by decide, by decide, ?_⟩
  rw [Heap.content_length]
  decide

end Eabase.IOBuf
