import Mathlib.Data.Nat.Bitwise
import Mathlib.Data.Nat.Size
import Eabase.Utility.FlatMap

/-!
# The table of a FlatMap

What holds of the buckets of a map: their number is a power of two, a key is in
the bucket of its hash, no two keys are equal, and the thumbnail of a sparse map
has the bits of the valid buckets. Each function keeps this, and changes what is
found as it should.
-/

namespace Eabase.Utility.FlatMap

open Lib Utility.BitArray List

variable {K V ι : Type*} {T : Traits K V} {j n : ℕ} {x y : ℕ}

/-! ## Numbers of buckets -/

theorem testBit_smear (h : ∀ i, y.testBit i = true ↔ ∃ d < n, x.testBit (i + d) = true) (i : ℕ) :
    (y ||| y >>> n).testBit i = true ↔ ∃ d < n + n, x.testBit (i + d) = true := by
  rw [Nat.testBit_or, Nat.testBit_shiftRight, Bool.or_eq_true, h, h]
  constructor
  · rintro (⟨d, hd, hbit⟩ | ⟨d, hd, hbit⟩)
    · exact ⟨d, by lia, hbit⟩
    · refine ⟨n + d, by lia, ?_⟩
      rwa [← add_assoc, add_comm i n]
  · rintro ⟨d, hd, hbit⟩
    by_cases hn : d < n
    · exact .inl ⟨d, hn, hbit⟩
    · refine .inr ⟨d - n, by lia, ?_⟩
      have heq : n + i + (d - n) = i + d := by lia
      rwa [heq]

theorem eq_of_smear (hx : x < 2 ^ 64) (h : ∀ i, y.testBit i = true ↔ ∃ d < 64, x.testBit (i + d) = true) :
    y = 2 ^ x.size - 1 := by
  apply Nat.eq_of_testBit_eq
  intro i
  rw [Nat.testBit_two_pow_sub_one, Bool.eq_iff_iff, h, decide_eq_true_iff]
  constructor
  · rintro ⟨d, -, hbit⟩
    by_contra hle
    have hlt : x < 2 ^ (i + d) := lt_of_lt_of_le (Nat.lt_size_self x)
      (Nat.pow_le_pow_right (by decide) (by lia))
    rw [Nat.testBit_lt_two_pow hlt] at hbit
    cases hbit
  · intro hi
    have hsize : x.size ≤ 64 := Nat.size_le.2 hx
    refine ⟨x.size - 1 - i, by lia, ?_⟩
    have heq : i + (x.size - 1 - i) = x.size - 1 := by lia
    have htop : 2 ^ (x.size - 1) ≤ x := Nat.lt_size.1 (by lia)
    have hpow : 2 ^ x.size = 2 * 2 ^ (x.size - 1) := by
      rw [← Nat.pow_succ']
      congr 1
      lia
    have hself := Nat.lt_size_self x
    obtain ⟨r, hr⟩ := Nat.exists_eq_add_of_le htop
    have hr' : r < 2 ^ (x.size - 1) := by lia
    rw [heq]
    generalize x.size - 1 = m at hr hr'
    rw [hr, Nat.testBit_two_pow_add_eq, Nat.testBit_lt_two_pow hr']
    rfl

theorem findPower2_eq (b : ℕ) : findPower2 b = 2 ^ ((b + (two64 - 1)) % two64).size % two64 := by
  have hx : (b + (two64 - 1)) % two64 < 2 ^ 64 := Nat.mod_lt _ (by decide)
  simp only [findPower2]
  generalize (b + (two64 - 1)) % two64 = x at hx
  have h0 : ∀ i, x.testBit i = true ↔ ∃ d < 1, x.testBit (i + d) = true := by
    intro i
    constructor
    · exact fun h => ⟨0, one_pos, h⟩
    · rintro ⟨d, hd, hbit⟩
      rwa [Nat.lt_one_iff.1 hd] at hbit
  have h1 := testBit_smear h0
  have h2 := testBit_smear h1
  have h3 := testBit_smear h2
  have h4 := testBit_smear h3
  have h5 := testBit_smear h4
  have h6 := testBit_smear h5
  have hall := eq_of_smear hx h6
  have hpos : 0 < 2 ^ x.size := Nat.two_pow_pos _
  rw [hall, Nat.sub_add_cancel hpos]

/-- The number of buckets is the power of two that is needed, or none at all. -/
theorem flatmapRound_spec (hn : n < two64) :
    flatmapRound n = 0 ∨ ∃ j, 3 ≤ j ∧ j < 64 ∧ flatmapRound n = 2 ^ j ∧ n ≤ 2 ^ j := by
  unfold flatmapRound
  split
  case isTrue h => exact .inr ⟨3, le_refl 3, by decide, rfl, h⟩
  case isFalse h =>
    have hx : (n + (two64 - 1)) % two64 = n - 1 := by
      rw [two64] at hn ⊢
      lia
    have hself := Nat.lt_size_self (n - 1)
    have hsize : (n - 1).size ≤ 64 := Nat.size_le.2 (by rw [two64] at hn; lia)
    rw [findPower2_eq, hx]
    rcases Nat.lt_or_eq_of_le hsize with hlt | heq
    · right
      refine ⟨(n - 1).size, Nat.lt_size.2 (by lia), hlt, ?_, by lia⟩
      exact Nat.mod_eq_of_lt (Nat.pow_lt_pow_right (by decide) hlt)
    · left
      rw [heq]
      exact Nat.mod_self _

theorem flatmapRound_of_lt (hlow : 2 ^ j < n) (hhigh : n ≤ 2 ^ (j + 1)) (h3 : 3 ≤ j) (hj : j < 63) :
    flatmapRound n = 2 ^ (j + 1) := by
  have h8 : 2 ^ 3 ≤ 2 ^ j := Nat.pow_le_pow_right (by decide) h3
  have htop : 2 ^ (j + 1) < 2 ^ 64 := Nat.pow_lt_pow_right (by decide) (by lia)
  have hx : (n + (two64 - 1)) % two64 = n - 1 := by
    rw [two64]
    lia
  have hsize : (n - 1).size = j + 1 := by
    apply le_antisymm
    · exact Nat.size_le.2 (by lia)
    · exact Nat.lt_size.2 (by lia)
  rw [flatmapRound, if_neg (by lia), findPower2_eq, hx, hsize]
  exact Nat.mod_eq_of_lt htop

theorem flatmapRound_pow (h3 : 3 ≤ j) (hj : j < 64) : flatmapRound (2 ^ j) = 2 ^ j := by
  rcases Nat.lt_or_eq_of_le h3 with hlt | rfl
  · obtain ⟨i, rfl⟩ : ∃ i, j = i + 1 := ⟨j - 1, by lia⟩
    apply flatmapRound_of_lt _ le_rfl (by lia) (by lia)
    exact Nat.pow_lt_pow_right (by decide) (by lia)
  · rfl

theorem flatmapMod_eq {h nb : ℕ} (hnb : nb = 2 ^ j) (hj : j < 64) : flatmapMod h nb = h % nb := by
  subst hnb
  have hlt : 2 ^ j < 2 ^ 64 := Nat.pow_lt_pow_right (by decide) hj
  have hpos : 0 < 2 ^ j := Nat.two_pow_pos j
  have hx : (2 ^ j + (two64 - 1)) % two64 = 2 ^ j - 1 := by
    rw [two64]
    lia
  rw [flatmapMod, hx, Nat.and_two_pow_sub_one_eq_mod]

/-! ## Buckets -/

def contents (bs : List (Bucket K V)) : List (K × V) :=
  bs.flatMap Bucket.nodes

/-- The bucket of a key in a table of `nbucket` buckets. -/
def home (T : Traits K V) (nbucket : ℕ) (k : K) : ℕ :=
  flatmapMod (T.hashfn k).toNat nbucket

theorem home_congr {k k' : K} (h : T.eql k k' = true) (nb : ℕ) : home T nb k = home T nb k' := by
  rw [home, T.hash_eq k k' h, home]

/-- Each key is in the bucket of its hash, and no two of a bucket are equal. -/
structure Sorted (T : Traits K V) (nb : ℕ) (bs : List (Bucket K V)) : Prop where
  length : bs.length = nb
  home : ∀ i b, bs[i]? = some b → ∀ p ∈ b.nodes, home T nb p.1 = i
  distinct : ∀ b ∈ bs, Assoc.Distinct T.toKeyEq b.nodes

variable {nb : ℕ} {bs : List (Bucket K V)} {b b' : Bucket K V} {i : ℕ} {k k' : K} {v : V}

theorem contents_append (bs bs' : List (Bucket K V)) : contents (bs ++ bs') = contents bs ++
    contents bs' :=
  flatMap_append

theorem contents_split (hb : bs[i]? = some b) :
    contents bs = contents (bs.take i) ++ (b.nodes ++ contents (bs.drop (i + 1))) := by
  obtain ⟨hi, rfl⟩ := List.getElem?_eq_some_iff.1 hb
  conv => lhs; rw [← List.take_append_drop i bs, List.drop_eq_getElem_cons hi]
  rw [contents_append]
  rfl

theorem contents_set (hi : i < bs.length) (b' : Bucket K V) :
    contents (bs.set i b') = contents (bs.take i) ++ (b'.nodes ++ contents (bs.drop (i + 1))) := by
  rw [set_eq_take_append_cons_drop, if_pos hi, contents_append]
  rfl

theorem length_contents_set (hb : bs[i]? = some b) (b' : Bucket K V) :
    (contents (bs.set i b')).length + b.nodes.length = (contents bs).length + b'.nodes.length := by
  obtain ⟨hi, -⟩ := List.getElem?_eq_some_iff.1 hb
  rw [contents_split hb, contents_set hi]
  simp only [List.length_append]
  lia

open Option

open Assoc

theorem mem_contents {p : K × V} : p ∈ contents bs ↔ ∃ (i : ℕ) (b : Bucket K V), bs[i]? = some b ∧
    p ∈ b.nodes := by
  rw [contents, mem_flatMap]
  constructor
  · rintro ⟨b, hb, hp⟩
    obtain ⟨i, hi⟩ := mem_iff_getElem?.mp hb
    exact ⟨i, b, hi, hp⟩
  · rintro ⟨i, b, hb, hp⟩
    exact ⟨b, mem_of_getElem? hb, hp⟩

namespace Sorted

section

variable (h : Sorted T nb bs)
include h

theorem lookup_contents (hb : bs[FlatMap.home T nb k]? = some b) :
    lookup T.toKeyEq (contents bs) k = lookup T.toKeyEq b.nodes k := by
  have helse : ∀ l : List (K × V), (∀ p ∈ l, FlatMap.home T nb p.1 ≠ FlatMap.home T nb k) →
      lookup T.toKeyEq l k = none := by
    intro l hl
    rw [lookup_eq_none]
    intro p hp
    by_contra hne
    exact hl p hp (home_congr (Bool.eq_true_of_not_eq_false hne) nb)
  have hbefore : lookup T.toKeyEq (contents (bs.take (FlatMap.home T nb k))) k = none := by
    apply helse
    intro p hp
    obtain ⟨i, b', hb', hp⟩ := mem_contents.1 hp
    rw [getElem?_take] at hb'
    split at hb'
    case isTrue hi =>
      rw [h.home i b' hb' p hp]
      exact ne_of_lt hi
    case isFalse => cases hb'
  have hbehind : lookup T.toKeyEq (contents (bs.drop (FlatMap.home T nb k + 1))) k = none := by
    apply helse
    intro p hp
    obtain ⟨i, b', hb', hp⟩ := mem_contents.1 hp
    rw [getElem?_drop] at hb'
    rw [h.home _ b' hb' p hp]
    lia
  rw [contents_split hb, lookup_append, hbefore, lookup_append, hbehind, none_or, or_none]

theorem distinct_contents : Assoc.Distinct T.toKeyEq (contents bs) := by
  rw [Assoc.Distinct, contents, pairwise_flatMap]
  refine ⟨h.distinct, ?_⟩
  rw [pairwise_iff_getElem]
  intro i j hi hj hij p hp q hq
  by_contra hne
  have hhome := home_congr (Bool.eq_true_of_not_eq_false hne) nb
  rw [h.home i _ (getElem?_eq_getElem hi) p hp, h.home j _ (getElem?_eq_getElem hj) q hq] at hhome
  lia

theorem set (hhome : ∀ p ∈ b'.nodes, FlatMap.home T nb p.1 = i)
    (hdistinct : Assoc.Distinct T.toKeyEq b'.nodes) : Sorted T nb (bs.set i b') where
  length := by rw [List.length_set, h.length]
  home j b hb p hp := by
    rw [List.getElem?_set] at hb
    split at hb
    case isTrue hij =>
      split at hb
      · cases hb
        rw [← hij]
        exact hhome p hp
      · cases hb
    case isFalse => exact h.home j b hb p hp
  distinct b hb := by
    rcases List.mem_or_eq_of_mem_set hb with hmem | rfl
    · exact h.distinct b hmem
    · exact hdistinct

theorem lookup_set (h' : Sorted T nb (bs.set i b'))
    (hlt : FlatMap.home T nb k < nb) :
    lookup T.toKeyEq (contents (bs.set i b')) k =
      if FlatMap.home T nb k = i then lookup T.toKeyEq b'.nodes k
      else lookup T.toKeyEq (contents bs) k := by
  have hlen := h.length
  split
  case isTrue heq =>
    apply h'.lookup_contents
    rw [heq]
    exact getElem?_set_self (by lia)
  case isFalse hne =>
    obtain ⟨b, hb⟩ : ∃ b, bs[FlatMap.home T nb k]? = some b := ⟨_, getElem?_eq_getElem (by lia)⟩
    rw [h.lookup_contents hb]
    apply h'.lookup_contents
    rw [getElem?_set_ne (.symm hne)]
    exact hb

end

end Sorted

/-! ## The invariant -/

structure Marks (words : List Word) (bs : List (Bucket K V)) (nb : ℕ) : Prop where
  holds : Holds words nb
  bit : ∀ i b, bs[i]? = some b → bit words i = b.isValid

structure Table (T : Traits K V) (m : Map K V) (bs : List (Bucket K V)) : Prop where
  pow : ∃ j, 3 ≤ j ∧ m.nbucket = 2 ^ j
  room : T.bucketSize * (m.nbucket + 1) < 2 ^ 63
  sorted : Sorted T m.nbucket bs
  thumbnail : T.sparse = true → ∃ words, m.thumbnail = some words ∧ Marks words bs m.nbucket

def Map.items (m : Map K V) : List (K × V) :=
  contents (m.buckets.getD [])

def Map.found (T : Traits K V) (m : Map K V) (k : K) : Option V :=
  Assoc.lookup T.toKeyEq m.items k

structure Wf (T : Traits K V) (m : Map K V) : Prop where
  size : m.size = m.items.length
  table : ∀ bs, m.buckets = some bs → Table T m bs

theorem Map.items_of_buckets {m : Map K V} (h : m.buckets = some bs) : m.items = contents bs := by
  rw [Map.items, h]
  rfl

namespace Table

variable {m : Map K V}

section

variable (h : Table T m bs)
include h

theorem lt : m.nbucket < 2 ^ 63 - 1 := by
  have hroom := h.room
  have hle : 1 * (m.nbucket + 1) ≤ T.bucketSize * (m.nbucket + 1) :=
    Nat.mul_le_mul_right _ T.bucketSize_pos
  lia

theorem pow_lt : ∃ j, 3 ≤ j ∧ j < 63 ∧ m.nbucket = 2 ^ j := by
  obtain ⟨j, h3, hj⟩ := h.pow
  refine ⟨j, h3, ?_, hj⟩
  have hlt := h.lt
  by_contra hle
  have hpow : 2 ^ 63 ≤ 2 ^ j := Nat.pow_le_pow_right (by decide) (by lia)
  lia

theorem pos : 0 < m.nbucket := by
  obtain ⟨j, -, hj⟩ := h.pow
  rw [hj]
  exact Nat.two_pow_pos j

theorem home_lt (k : K) : home T m.nbucket k < m.nbucket := by
  obtain ⟨j, -, hj, hnb⟩ := h.pow_lt
  rw [home, flatmapMod_eq hnb (by lia)]
  exact Nat.mod_lt _ h.pos

theorem bucket (k : K) : ∃ b, bs[index T m k]? = some b := by
  have hlt := h.home_lt k
  have hlen := h.sorted.length
  exact ⟨_, getElem?_eq_getElem (by rw [hlen]; exact hlt)⟩

end

end Table

/-! ## Iteration -/

/-- From every bucket where the iterator looks for the next valid one, it finds it. -/
def NextOk (T : Traits K V) (m : Map K V) (bs : List (Bucket K V)) : Prop :=
  ∀ pos ≤ m.nbucket, (pos = 0 ∨ (bs[pos - 1]?).any Bucket.isValid = true) →
    findAndSetValidNode T m bs pos = some (pos + (bs.drop pos).findIdx Bucket.isValid)

theorem nextOk_of_dense (hT : T.sparse = false) (m : Map K V) (bs : List (Bucket K V)) :
    NextOk T m bs := by
  intro pos _ _
  rw [findAndSetValidNode, hT]
  rfl

theorem nodes_of_invalid (h : b.isValid = false) : b.nodes = [] := by
  cases b with
  | invalid => rfl
  | node element next => cases h

theorem nodes_pos (h : b.isValid = true) : 0 < b.nodes.length := by
  cases b with
  | invalid => cases h
  | node element next => exact Nat.succ_pos _

open Bucket

theorem contents_drop_findIdx (bs : List (Bucket K V)) :
    contents (bs.drop (bs.findIdx isValid)) = contents bs := by
  induction bs with
  | nil => rfl
  | cons b bs ih =>
    rw [findIdx_cons]
    cases hb : b.isValid with
    | true => rfl
    | false =>
      show contents (bs.drop (bs.findIdx isValid)) = b.nodes ++ contents bs
      rw [ih, nodes_of_invalid hb, nil_append]

/-- The iterator is at the first of the elements `rest`. -/
def At (nb : ℕ) (bs : List (Bucket K V)) (it : Iterator) (rest : List (K × V)) : Prop :=
  (it.entry = nb ∧ rest = []) ∨
    ∃ b, bs[it.entry]? = some b ∧ it.depth < b.nodes.length ∧
      rest = b.nodes.drop it.depth ++ contents (bs.drop (it.entry + 1))

theorem at_findIdx {pos : ℕ} (hlen : bs.length = nb) (hpos : pos ≤ nb) :
    At nb bs ⟨pos + (bs.drop pos).findIdx isValid, 0⟩ (contents (bs.drop pos)) := by
  have hrest := contents_drop_findIdx (bs.drop pos)
  rw [drop_drop] at hrest
  rcases lt_or_ge ((bs.drop pos).findIdx isValid) (bs.drop pos).length with hlt | hge
  · right
    have hvalid := findIdx_getElem (w := hlt)
    rw [getElem_drop] at hvalid
    rw [length_drop] at hlt
    have hi : pos + (bs.drop pos).findIdx isValid < bs.length := by lia
    refine ⟨_, getElem?_eq_getElem hi, nodes_pos hvalid, ?_⟩
    rw [← hrest, drop_eq_getElem_cons hi]
    rfl
  · left
    have hle : (bs.drop pos).findIdx isValid ≤ (bs.drop pos).length := findIdx_le_length
    rw [length_drop] at hge hle
    have heq : pos + (bs.drop pos).findIdx isValid = nb := by lia
    refine ⟨heq, ?_⟩
    rw [← hrest, heq, drop_of_length_le (by lia)]
    rfl

theorem walk_of_at {m : Map K V} (hnext : NextOk T m bs) (hlen : bs.length = m.nbucket) {fuel : ℕ}
    {it : Iterator}
    {rest : List (K × V)} (hat : At m.nbucket bs it rest) (hfuel : rest.length < fuel) :
    walk T m bs fuel it = some rest := by
  induction fuel generalizing it rest with
  | zero => exact absurd hfuel (Nat.not_lt_zero _)
  | succ fuel ih =>
    rcases hat with ⟨hend, rfl⟩ | ⟨b, hb, hdepth, rfl⟩
    · rw [walk, if_pos hend]
    · obtain ⟨hi, -⟩ := List.getElem?_eq_some_iff.1 hb
      have hrest : b.nodes.drop it.depth = b.nodes[it.depth] :: b.nodes.drop (it.depth + 1) :=
        List.drop_eq_getElem_cons hdepth
      rw [hrest, List.cons_append, List.length_cons] at hfuel
      rw [walk, if_neg (by lia), hb]
      simp only
      rw [List.getElem?_eq_getElem hdepth]
      simp only
      rw [hrest, List.cons_append, next]
      split
      case isTrue hmore =>
        have hat : At m.nbucket bs ⟨it.entry, it.depth + 1⟩
            (b.nodes.drop (it.depth + 1) ++ contents (bs.drop (it.entry + 1))) := .inr ⟨b, hb, hmore, rfl⟩
        rw [bind_some, ih hat (by lia)]
        rfl
      case isFalse hlast =>
        have hnil : b.nodes.drop (it.depth + 1) = [] := List.drop_of_length_le (by lia)
        have hvalid : (bs[it.entry + 1 - 1]?).any isValid = true := by
          rw [Nat.add_sub_cancel, hb]
          cases b with
          | invalid => exact absurd hdepth (Nat.not_lt_zero _)
          | node element next => rfl
        rw [hnil, List.nil_append] at hfuel ⊢
        rw [iterator, hnext (it.entry + 1) (by lia) (.inr hvalid), map_some, bind_some,
          ih (at_findIdx hlen (by lia)) (by lia)]
        rfl

/-- An iterator that finds the next valid bucket sees each element once, in the order of the
buckets. -/
theorem elements_of_nextOk {m : Map K V} (h : Wf T m)
    (hnext : ∀ bs, m.buckets = some bs → NextOk T m bs) :
    elements T m = some m.items := by
  unfold elements
  split
  case h_1 hnone =>
    rw [Map.items, hnone]
    rfl
  case h_2 bs hbs =>
    have htable := h.table bs hbs
    have hat := at_findIdx htable.sorted.length (Nat.zero_le _)
    rw [iterator, hnext bs hbs 0 (Nat.zero_le _) (.inl rfl), map_some, bind_some,
      walk_of_at (hnext bs hbs) htable.sorted.length hat, Map.items_of_buckets hbs]
    · rfl
    · rw [h.size, Map.items_of_buckets hbs]
      exact Nat.lt_succ_self _

/-! ## Sparse iteration -/

def validAt (bs : List (Bucket K V)) (i : ℕ) : Bool :=
  (bs[i]?).any Bucket.isValid

/-- The loop from `begin()` to `end()` does not end: behind the last valid bucket there is another
one in the only word, and the word has no bit behind the buckets. -/
def Loops (m : Map K V) (bs : List (Bucket K V)) (words : List Word) : Prop :=
  m.nbucket < 64 ∧ m.size ≠ 0 ∧ validAt bs (m.nbucket - 1) = false ∧
    ∀ i, m.nbucket ≤ i → i < 64 → bit words i = false

theorem bit_eq_validAt {words : List Word} (h : Marks words bs nb) (hi : i < bs.length) :
    bit words i = validAt bs i := by
  rw [validAt, getElem?_eq_getElem hi, h.bit i _ (getElem?_eq_getElem hi)]
  rfl

theorem lt_of_validAt (h : validAt bs i = true) : i < bs.length := by
  by_contra hge
  rw [validAt, getElem?_eq_none (by lia)] at h
  cases h

theorem findIdx_spec {pos : ℕ} (hpos : pos ≤ bs.length) :
    pos + (bs.drop pos).findIdx isValid ≤ bs.length ∧
      (pos + (bs.drop pos).findIdx isValid < bs.length →
        validAt bs (pos + (bs.drop pos).findIdx isValid) = true) ∧
      ∀ i, pos ≤ i → i < pos + (bs.drop pos).findIdx isValid → validAt bs i = false := by
  have hle : (bs.drop pos).findIdx isValid ≤ (bs.drop pos).length := findIdx_le_length
  rw [length_drop] at hle
  refine ⟨by lia, ?_, ?_⟩
  · intro hlt
    have hlt' : (bs.drop pos).findIdx isValid < (bs.drop pos).length := by
      rw [length_drop]
      lia
    have hvalid := findIdx_getElem (w := hlt')
    rw [getElem_drop] at hvalid
    rw [validAt, getElem?_eq_getElem hlt]
    exact hvalid
  · intro i hi hlt
    have hlt' : i - pos < (bs.drop pos).findIdx isValid := by lia
    have hbefore := not_of_lt_findIdx hlt'
    rw [getElem_drop] at hbefore
    have heq : pos + (i - pos) = i := by lia
    simp only [heq] at hbefore
    rw [validAt, getElem?_eq_getElem (by lia)]
    exact hbefore

theorem exists_validAt (h : contents bs ≠ []) : ∃ i, validAt bs i = true := by
  obtain ⟨p, hp⟩ := exists_mem_of_ne_nil _ h
  obtain ⟨i, b, hb, hp⟩ := mem_contents.1 hp
  refine ⟨i, ?_⟩
  rw [validAt, hb]
  cases b with
  | invalid => cases hp
  | node element next => rfl

theorem contents_ne_nil (h : validAt bs i = true) : contents bs ≠ [] := by
  have hi := lt_of_validAt h
  rw [validAt, getElem?_eq_getElem hi] at h
  have hpos := nodes_pos h
  intro hnil
  have hmem : bs[i].nodes[0] ∈ contents bs :=
    mem_contents.2 ⟨i, _, getElem?_eq_getElem hi, getElem_mem hpos⟩
  rw [hnil] at hmem
  cases hmem

section Sparse

variable {m : Map K V} {words : List Word} {pos : ℕ}

theorem findAndSetValidNode_sparse (hT : T.sparse = true) (hwords : m.thumbnail = some words) (pos : ℕ) :
    findAndSetValidNode T m bs pos =
      some (if pos < bs.length ∧ validAt bs pos
        = false then bitArrayFirst1 words (pos + 1) m.nbucket else pos) := by
  have hcond : (bs[pos]?).any (fun b => !b.isValid) = true ↔ pos < bs.length ∧
      validAt bs pos = false := by
    by_cases hpos : pos < bs.length
    · rw [validAt, getElem?_eq_getElem hpos]
      simp only [any_some, Bool.not_eq_true', hpos, true_and]
    · rw [validAt, getElem?_eq_none (by lia)]
      simp [hpos]
  rw [findAndSetValidNode, hT, hwords]
  simp only [if_true, map_some, hcond]

theorem loops_of_rereads (h : Table T m bs) (hsize : m.size = (contents bs).length)
    (hmarks : Marks words bs m.nbucket) (hpos : pos < m.nbucket) (hinvalid : validAt bs pos = false)
    (hreread : Rereads words (pos + 1) m.nbucket) :
    Loops m bs words := by
  obtain ⟨-, hend, hword, hnone, i, hi, hbit⟩ := hreread
  have hlen := h.sorted.length
  obtain ⟨j, h3, -, hnb⟩ := h.pow_lt
  have h64 : m.nbucket < 64 := by
    by_contra hge
    have hj : 6 ≤ j := by
      by_contra hlt
      have hle : 2 ^ j ≤ 2 ^ 5 := Nat.pow_le_pow_right (by decide) (by lia)
      lia
    obtain ⟨d, rfl⟩ := Nat.exists_eq_add_of_le hj
    rw [hnb, Nat.pow_add] at hend
    exact hend (Nat.mul_mod_right _ _)
  refine ⟨h64, ?_, ?_, ?_⟩
  · have hi' : i ≤ pos := by
      by_contra hlt
      rw [hnone i hi (by lia)] at hbit
      cases hbit
    rw [bit_eq_validAt hmarks (by lia)] at hbit
    rw [hsize]
    exact fun hzero => contents_ne_nil hbit (eq_nil_of_length_eq_zero hzero)
  · by_cases heq : m.nbucket - 1 = pos
    · rw [heq]
      exact hinvalid
    · rw [← bit_eq_validAt hmarks (by lia)]
      exact hnone _ (by lia) (by lia)
  · intro i hi hlt
    exact hnone i (by lia) (by lia)

section

variable (hT : T.sparse = true) (h : Table T m bs) (hsize : m.size = (contents bs).length)
    (hwords : m.thumbnail = some words) (hmarks : Marks words bs m.nbucket)
include hT h hsize hwords hmarks

theorem nextOk_of_not_loops (hloops : ¬Loops m bs words) :
    NextOk T m bs := by
  intro pos hpos hvalid
  have hlen := h.sorted.length
  obtain ⟨hle, hat, hbefore⟩ := findIdx_spec (show pos ≤ bs.length by lia)
  rw [findAndSetValidNode_sparse hT hwords]
  congr 1
  have hge : pos ≤ pos + (bs.drop pos).findIdx isValid := Nat.le_add_right _ _
  generalize pos + (bs.drop pos).findIdx isValid = q at hle hat hbefore hge ⊢
  split
  case isTrue hinvalid =>
    have hne : pos ≠ q := by
      rintro rfl
      rw [hat hinvalid.1] at hinvalid
      exact Bool.false_ne_true hinvalid.2.symm
    have hnone : ∀ i, pos + 1 ≤ i → i < q → bit words i = false := by
      intro i hi hlt
      rw [bit_eq_validAt hmarks (by lia)]
      exact hbefore i (by lia) hlt
    rcases Nat.lt_or_eq_of_le hle with hlt | heq
    · apply first1_of_bit (by lia) (by lia) _ hnone
      rw [bit_eq_validAt hmarks hlt]
      exact hat hlt
    · rw [heq, hlen] at hnone ⊢
      apply first1_of_none (by lia) hnone
      intro hreread
      exact hloops (loops_of_rereads h hsize hmarks (by lia) hinvalid.2 hreread)
  case isFalse hvalid' =>
    by_contra hne
    have hlt : pos < bs.length := by lia
    exact hvalid' ⟨hlt, hbefore pos le_rfl (by lia)⟩

theorem next_of_loops (hloops : Loops m bs words)
    (hpos : pos ≤ m.nbucket) (hvalid : pos = 0 ∨ validAt bs (pos - 1) = true) :
    ∃ entry, findAndSetValidNode T m bs pos = some entry ∧ validAt bs entry = true := by
  obtain ⟨h64, hne, hlast, hjunk⟩ := hloops
  have hlen := h.sorted.length
  obtain ⟨hle, hat, hbefore⟩ := findIdx_spec (show pos ≤ bs.length by lia)
  have hge : pos ≤ pos + (bs.drop pos).findIdx isValid := Nat.le_add_right _ _
  generalize pos + (bs.drop pos).findIdx isValid = q at hle hat hbefore hge ⊢
  rw [findAndSetValidNode_sparse hT hwords]
  refine ⟨_, rfl, ?_⟩
  obtain ⟨j, h3, -, hnb⟩ := h.pow_lt
  have h8 : 2 ^ 3 ≤ m.nbucket := hnb ▸ Nat.pow_le_pow_right (by decide) h3
  have hlt : pos < bs.length := by
    by_contra hge
    rcases hvalid with hzero | hvalid
    · lia
    · rw [show pos - 1 = m.nbucket - 1 by lia, hlast] at hvalid
      cases hvalid
  split
  case isFalse hvalid' =>
    rw [not_and, Bool.not_eq_false] at hvalid'
    exact hvalid' hlt
  case isTrue hinvalid =>
    have hnone : ∀ i, pos + 1 ≤ i → i < q → bit words i = false := by
      intro i hi hlt
      rw [bit_eq_validAt hmarks (by lia)]
      exact hbefore i (by lia) hlt
    rcases Nat.lt_or_eq_of_le hle with hq | hq
    · have hbit : bit words q = true := by
        rw [bit_eq_validAt hmarks hq]
        exact hat hq
      have hne : pos ≠ q := by
        rintro rfl
        rw [hat hq] at hinvalid
        exact Bool.false_ne_true hinvalid.2.symm
      rw [first1_of_bit (by lia) (by lia) hbit hnone]
      exact hat hq
    · have hcontents : contents bs ≠ [] := by
        intro hnil
        rw [hsize, hnil] at hne
        exact hne rfl
      obtain ⟨i, hi⟩ := exists_validAt hcontents
      have hi' := lt_of_validAt hi
      have hreread : Rereads words (pos + 1) m.nbucket := by
        refine ⟨by lia, by lia, by lia, ?_, i, by lia, ?_⟩
        · intro i hword hi
          by_cases hnb : i < m.nbucket
          · exact hnone i hi (by lia)
          · exact hjunk i (by lia) (by lia)
        · rw [bit_eq_validAt hmarks hi']
          exact hi
      obtain ⟨hback, hbit⟩ := first1_of_reread (by lia) hreread
      rwa [bit_eq_validAt hmarks (by lia)] at hbit

theorem walk_of_loops (hloops : Loops m bs words) (fuel : ℕ)
    {it : Iterator} (hvalid : validAt bs it.entry = true) : walk T m bs fuel it = none := by
  induction fuel generalizing it with
  | zero => rfl
  | succ fuel ih =>
    have hi := lt_of_validAt hvalid
    have hlen := h.sorted.length
    rw [walk, if_neg (by lia), getElem?_eq_getElem hi]
    simp only
    split
    case h_1 => rfl
    case h_2 p hp =>
      rw [next]
      split
      · have hrest : walk T m bs fuel ⟨it.entry, it.depth + 1⟩ = none := ih hvalid
        rw [bind_some, hrest]
        rfl
      · have hpos : it.entry + 1 ≤ m.nbucket := by lia
        obtain ⟨entry, hentry, hvalid'⟩ :=
          next_of_loops hT h hsize hwords hmarks hloops hpos (.inr hvalid)
        have hrest : walk T m bs fuel ⟨entry, 0⟩ = none := ih hvalid'
        rw [iterator, hentry, map_some, bind_some, hrest]
        rfl

end

end Sparse

/-- A loop that ends has seen each element once, in the order of the buckets; and a dense iterator
always ends. -/
theorem elements_cases {m : Map K V} (h : Wf T m) : elements T m = some m.items ∨
      T.sparse = true ∧ elements T m = none ∧
        ∃ bs words, m.buckets = some bs ∧ m.thumbnail = some words ∧ Loops m bs words := by
  cases hT : T.sparse with
  | false => exact .inl (elements_of_nextOk h fun bs _ => nextOk_of_dense hT m bs)
  | true =>
    cases hbs : m.buckets with
    | none =>
      left
      rw [elements, hbs, Map.items, hbs]
      rfl
    | some bs =>
      have htable := h.table bs hbs
      obtain ⟨words, hwords, hmarks⟩ := htable.thumbnail hT
      have hsize := h.size
      rw [Map.items_of_buckets hbs] at hsize
      by_cases hloops : Loops m bs words
      · refine .inr ⟨rfl, ?_, bs, words, rfl, hwords, hloops⟩
        obtain ⟨entry, hentry, hvalid⟩ :=
          next_of_loops hT htable hsize hwords hmarks hloops (Nat.zero_le _) (.inl rfl)
        have hwalk : walk T m bs (m.size + 1) ⟨entry, 0⟩ = none :=
          walk_of_loops hT htable hsize hwords hmarks hloops _ hvalid
        rw [elements, hbs]
        simp only
        rw [iterator, hentry, map_some, bind_some, hwalk]
      · left
        apply elements_of_nextOk h
        intro bs' hbs'
        rw [hbs] at hbs'
        cases hbs'
        exact nextOk_of_not_loops hT htable hsize hwords hmarks hloops

theorem items_of_elements {m : Map K V} (h : Wf T m) {l : List (K × V)}
    (hl : elements T m = some l) : l = m.items := by
  rcases elements_cases h with hsome | ⟨-, hnone, -⟩
  · rw [hsome] at hl
    exact (some.inj hl).symm
  · rw [hnone] at hl
    cases hl

/-! ## One bucket -/

/-- The function left the map as `m'`, in which `k` has the value `o` and other keys have theirs. -/
structure Alters (T : Traits K V) (m m' : Map K V) (k : K) (o : Option V) : Prop where
  wf : Wf T m'
  buckets : m'.buckets.isSome = m.buckets.isSome
  found : ∀ k', m'.found T k' = if T.eql k k' then o else m.found T k'

variable {m m' : Map K V} {o : Option V}

theorem Map.found_congr (m : Map K V) (h : T.eql k k' = true) : m.found T k = m.found T k' :=
  lookup_congr h

theorem Alters.same (h : Wf T m) (k : K) : Alters T m m k (m.found T k) where
  wf := h
  buckets := rfl
  found k' := by
    split
    case isTrue hk => exact (m.found_congr hk).symm
    case isFalse => rfl

theorem Wf.write (h : Wf T m) (hbs : m.buckets = some bs) (hb : bs[index T m k]? = some b)
    (hbs' : m'.buckets = some (bs.set (index T m k) b')) (hnb : m'.nbucket = m.nbucket)
    (hsize : m'.size + b.nodes.length = m.size + b'.nodes.length)
    (hdistinct : Assoc.Distinct T.toKeyEq b'.nodes)
    (hlookup : ∀ k', lookup T.toKeyEq b'.nodes k' = if T.eql k k' then o else lookup T.toKeyEq b.nodes k')
    (hmarks : T.sparse = true →
      ∃ words, m'.thumbnail = some words ∧ Marks words (bs.set (index T m k) b') m.nbucket) :
      Alters T m m' k o := by
  have htable := h.table bs hbs
  have hlen := h.size
  rw [Map.items_of_buckets hbs] at hlen
  have hhome : ∀ p ∈ b'.nodes, home T m.nbucket p.1 = index T m k := by
    intro p hp
    have hfound := hlookup p.1
    rw [hdistinct.lookup_of_mem hp (T.refl p.1)] at hfound
    split at hfound
    case isTrue hk => exact (home_congr hk m.nbucket).symm
    case isFalse hk =>
      obtain ⟨q, hq, hqp, -⟩ := mem_of_lookup hfound.symm
      rw [← home_congr hqp]
      exact htable.sorted.home _ b hb q hq
  have hsorted := htable.sorted.set hhome hdistinct
  refine ⟨⟨?_, ?_⟩, ?_, ?_⟩
  · have hset := length_contents_set hb b'
    rw [Map.items_of_buckets hbs']
    lia
  · intro bs'' hbs''
    rw [hbs'] at hbs''
    cases hbs''
    exact
      { pow := hnb ▸ htable.pow
        room := hnb ▸ htable.room
        sorted := hnb ▸ hsorted
        thumbnail := hnb ▸ hmarks }
  · rw [hbs', hbs]
    rfl
  · intro k'
    rw [Map.found, Map.items_of_buckets hbs', Map.found, Map.items_of_buckets hbs,
      htable.sorted.lookup_set hsorted (htable.home_lt k')]
    split
    case isTrue hk' =>
      rw [hlookup]
      rw [htable.sorted.lookup_contents (hk' ▸ hb)]
    case isFalse hk' =>
      rw [if_neg]
      intro hk
      exact hk' (home_congr hk m.nbucket).symm

theorem Marks.set_same {words : List Word} (h : Marks words bs nb) (hb : bs[i]? = some b)
    (hvalid : b'.isValid = b.isValid) : Marks words (bs.set i b') nb where
  holds := h.holds
  bit j b'' hb'' := by
    rw [getElem?_set] at hb''
    split at hb''
    case isTrue hij =>
      split at hb''
      · cases hb''
        rw [hvalid, ← hij]
        exact h.bit i b hb
      · cases hb''
    case isFalse => exact h.bit j b'' hb''

theorem Marks.set_valid {words : List Word} (h : Marks words bs nb) (hi : i < nb)
    (hvalid : b'.isValid = true) :
    Marks (bitArraySet words i) (bs.set i b') nb where
  holds := (length_set words i).trans h.holds
  bit j b'' hb'' := by
    rw [bit_set (h.holds.lt hi)]
    rw [getElem?_set] at hb''
    split at hb''
    case isTrue hij =>
      split at hb''
      · cases hb''
        rw [decide_eq_true hij.symm, hvalid]
        rfl
      · cases hb''
    case isFalse hij =>
      rw [decide_eq_false (Ne.symm hij), h.bit j b'' hb'']
      rfl

theorem Marks.set_invalid {words : List Word} (h : Marks words bs nb) (hi : i < nb) :
    Marks (bitArrayUnset words i) (bs.set i invalid) nb where
  holds := (length_unset words i).trans h.holds
  bit j b'' hb'' := by
    rw [bit_unset (h.holds.lt hi)]
    rw [getElem?_set] at hb''
    split at hb''
    case isTrue hij =>
      split at hb''
      · cases hb''
        rw [decide_eq_true hij.symm]
        rfl
      · cases hb''
    case isFalse hij =>
      rw [decide_eq_false (Ne.symm hij), h.bit j b'' hb'']
      rfl

theorem mark_spec {f : List Word → List Word} (h : mark T m f = some m') :
    m'.size = m.size ∧ m'.nbucket = m.nbucket ∧ m'.buckets = m.buckets ∧
      (T.sparse = true → ∃ words, m.thumbnail = some words ∧ m'.thumbnail = some (f words)) := by
  unfold mark at h
  split at h
  case isTrue hT =>
    obtain ⟨words, hwords, rfl⟩ := map_eq_some_iff.1 h
    exact ⟨rfl, rfl, rfl, fun _ => ⟨words, hwords, rfl⟩⟩
  case isFalse hT =>
    cases h
    exact ⟨rfl, rfl, rfl, fun h => absurd h hT⟩

theorem mark_isSome (hwords : T.sparse = true → m.thumbnail.isSome = true) (f : List Word → List Word) :
    ∃ m', mark T m f = some m' := by
  unfold mark
  split
  case isTrue hT =>
    obtain ⟨words, hw⟩ := isSome_iff_exists.1 (hwords hT)
    rw [hw]
    exact ⟨_, rfl⟩
  case isFalse => exact ⟨m, rfl⟩

end Eabase.Utility.FlatMap
