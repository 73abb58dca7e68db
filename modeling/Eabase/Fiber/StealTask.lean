import Mathlib.Algebra.Order.Group.Nat
import Mathlib.Data.Nat.Factorial.Basic
import Mathlib.Data.Nat.Prime.Basic
import Eabase.Lib.Stride

/-!
# A steal scan

`TaskControl::steal_task` asks the groups of a tag one after the other for a
task, as many turns as there are groups. It starts at the seed of the group
that steals and moves on by that group's offset, one of `OFFSET_TABLE`; the
seed and the moves are of type `size_t`, and the slot is the position modulo
the number of groups.

Other workers run all the time: what a group has in its queues is given
separately for each turn.
-/

namespace Eabase.Fiber.StealTask

open Lib

variable {γ τ : Type*}

def FIBER_MAX_CONCURRENCY : ℕ := 1024

/-- `offset_inl.list`. -/
def OFFSET_TABLE : List ℕ :=
  [36809, 36821, 36833, 36847, 36857, 36871, 36877, 36887, 36899, 36901, 36913, 36919, 36923, 36929,
    36931, 36943,
  36947, 36973, 36979, 36997, 37003, 37013, 37019, 37021, 37039, 37049, 37057, 37061, 37087, 37097,
    37117, 37123,
  37139, 37159, 37171, 37181, 37189, 37199, 37201, 37217, 37223, 37243, 37253, 37273, 37277, 37307,
    37309, 37313,
  37321, 37337, 37339, 37357, 37361, 37363, 37369, 37379, 37397, 37409, 37423, 37441, 37447, 37463,
    37483, 37489,
  37493, 37501, 37507, 37511, 37517, 37529, 37537, 37547, 37549, 37561, 37567, 37571, 37573, 37579,
    37589, 37591,
  37607, 37619, 37633, 37643, 37649, 37657, 37663, 37691, 37693, 37699, 37717, 37747, 37781, 37783,
    37799, 37811,
  37813, 37831, 37847, 37853, 37861, 37871, 37879, 37889, 37897, 37907, 37951, 37957, 37963, 37967,
    37987, 37991,
  37993, 37997, 38011, 38039, 38047, 38053, 38069, 38083, 38113, 38119, 38149, 38153, 38167, 38177,
    38183, 38189,
  38197, 38201, 38219, 38231, 38237, 38239, 38261, 38273, 38281, 38287, 38299, 38303, 38317, 38321,
    38327, 38329,
  38333, 38351, 38371, 38377, 38393, 38431, 38447, 38449, 38453, 38459, 38461, 38501, 38543, 38557,
    38561, 38567,
  38569, 38593, 38603, 38609, 38611, 38629, 38639, 38651, 38653, 38669, 38671, 38677, 38693, 38699,
    38707, 38711,
  38713, 38723, 38729, 38737, 38747, 38749, 38767, 38783, 38791, 38803, 38821, 38833, 38839, 38851,
    38861, 38867,
  38873, 38891, 38903, 38917, 38921, 38923, 38933, 38953, 38959, 38971, 38977, 38993, 39019, 39023,
    39041, 39043,
  39047, 39079, 39089, 39097, 39103, 39107, 39113, 39119, 39133, 39139, 39157, 39161, 39163, 39181,
    39191, 39199,
  39209, 39217, 39227, 39229, 39233, 39239, 39241, 39251, 39293, 39301, 39313, 39317, 39323, 39341,
    39343, 39359,
  39367, 39371, 39373, 39383, 39397, 39409, 39419, 39439, 39443, 39451, 39461, 39499, 39503, 39509,
    39511, 39521,
  39541, 39551, 39563, 39569, 39581, 39607, 39619, 39623, 39631, 39659, 39667, 39671, 39679, 39703,
    39709, 39719,
  39727, 39733, 39749, 39761, 39769, 39779, 39791, 39799, 39821, 39827, 39829, 39839, 39841, 39847,
    39857, 39863,
  39869, 39877, 39883, 39887, 39901, 39929, 39937, 39953, 39971, 39979, 39983, 39989, 40009, 40013,
    40031, 40037,
  40039, 40063, 40087, 40093, 40099, 40111, 40123, 40127, 40129, 40151, 40153, 40163, 40169, 40177,
    40189, 40193,
  40213, 40231, 40237, 40241, 40253, 40277, 40283, 40289, 40343, 40351, 40357, 40361, 40387, 40423,
    40427, 40429,
  40433, 40459, 40471, 40483, 40487, 40493, 40499, 40507, 40519, 40529, 40531, 40543, 40559, 40577,
    40583, 40591,
  40597, 40609, 40627, 40637, 40639, 40693, 40697, 40699, 40709, 40739, 40751, 40759, 40763, 40771,
    40787, 40801,
  40813, 40819, 40823, 40829, 40841, 40847, 40849, 40853, 40867, 40879, 40883, 40897, 40903, 40927,
    40933, 40939,
  40949, 40961, 40973, 40993, 41011, 41017, 41023, 41039, 41047, 41051, 41057, 41077, 41081, 41113,
    41117, 41131,
  41141, 41143, 41149, 41161, 41177, 41179, 41183, 41189, 41201, 41203, 41213, 41221, 41227, 41231,
    41233, 41243,
  41257, 41263, 41269, 41281, 41299, 41333, 41341, 41351, 41357, 41381, 41387, 41389, 41399, 41411,
    41413, 41443,
  41453, 41467, 41479, 41491, 41507, 41513, 41519, 41521, 41539, 41543, 41549, 41579]

/-- `_steal_offset`, which `TaskGroup::TaskGroup` chooses by the seed. -/
def stealOffset (seed : BitVec 64) : ℕ :=
  OFFSET_TABLE.getD (seed.toNat % OFFSET_TABLE.length) 0

/-- What the two queues of a group hold at the moment each is asked, what they give first in
front. -/
structure Queues (τ : Type*) where
  rq : List τ
  remoteRq : List τ

/-- `_rq.steal(tid)`, and `_remote_rq.pop(tid)` if that fails. -/
def Queues.yields (q : Queues τ) : Option τ :=
  match q.rq with
  | tid :: _ => some tid
  | [] => q.remoteRq.head?

/-- What a scan leaves behind: the task, `*seed`, and the slots it looked at in order. -/
structure Scan (τ : Type*) where
  tid : Option τ
  seed : BitVec 64
  looked : List ℕ

/-- The `for` loop from turn `i` on, with `k` turns to go. A slot is empty because of a concurrent
`_destroy_group`; `break` leaves the position where it is. -/
def scanLoop (groups : ℕ → Option γ) (holds : ℕ → γ → Queues τ) (ngroup : ℕ) (offset : BitVec 64) :
    ℕ → ℕ → BitVec 64 → Scan τ
  | 0, _, s => ⟨none, s, []⟩
  | k + 1, i, s =>
    let slot := s.toNat % ngroup
    match (groups slot).bind fun g => (holds i g).yields with
    | some tid => ⟨some tid, s, [slot]⟩
    | none =>
      let rest := scanLoop groups holds ngroup offset k (i + 1) (s + offset)
      { rest with looked := slot :: rest.looked }

/-- `TaskControl::steal_task`. -/
def stealTask (groups : ℕ → Option γ) (holds : ℕ → γ → Queues τ) (ngroup : ℕ)
    (seed offset : BitVec 64) : Scan τ :=
  if ngroup = 0 then ⟨none, seed, []⟩ else scanLoop groups holds ngroup offset ngroup 0 seed

/-- The scan looked at every slot once, and found both queues of every group empty when it did. -/
structure Scan.Complete (scan : Scan τ) (groups : ℕ → Option γ) (holds : ℕ → γ → Queues τ)
    (ngroup : ℕ) : Prop where
  once : scan.looked.Perm (List.range ngroup)
  empty : ∀ slot < ngroup, ∀ g ∈ groups slot,
    ∃ i, scan.looked[i]? = some slot ∧ (holds i g).rq = [] ∧ (holds i g).remoteRq = []

variable {groups : ℕ → Option γ} {holds : ℕ → γ → Queues τ} {ngroup k i offset : ℕ} {s seed : BitVec 64}

theorem Queues.yields_eq_none {q : Queues τ} : q.yields = none ↔ q.rq = [] ∧ q.remoteRq = [] := by
  obtain ⟨rq, remoteRq⟩ := q
  cases rq with
  | cons tid rest => simp [yields]
  | nil => simp [yields]

/-- The slots of a loop that found nothing, which are a walk in strides of the offset. -/
theorem looked_scanLoop (hnone : (scanLoop groups holds ngroup (BitVec.ofNat 64 offset) k i s).tid = none)
    (hoffset : offset < 2 ^ 64) :
    (scanLoop groups holds ngroup (BitVec.ofNat 64 offset) k i s).looked
      = (List.range k).map (place (2 ^ 64) ngroup s.toNat offset) := by
  induction k generalizing i s with
  | zero => rfl
  | succ k ih =>
    have hhead : place (2 ^ 64) ngroup s.toNat offset 0 = s.toNat % ngroup := by
      rw [place, zero_mul, add_zero, Nat.mod_eq_of_lt s.isLt]
    have htail : ∀ j, place (2 ^ 64) ngroup (s + BitVec.ofNat 64 offset).toNat offset j
        = place (2 ^ 64) ngroup s.toNat offset (j + 1) := by
      intro j
      rw [place, place, BitVec.toNat_add, BitVec.toNat_ofNat, Nat.mod_eq_of_lt hoffset, Nat.mod_add_mod,
        add_assoc, Nat.succ_mul, add_comm offset]
    rw [scanLoop] at hnone ⊢
    rw [List.range_succ_eq_map, List.map_cons, List.map_map, hhead]
    cases hy : (groups (s.toNat % ngroup)).bind fun g => (holds i g).yields with
    | some tid => simp [hy] at hnone
    | none =>
      simp only [hy] at hnone ⊢
      rw [ih hnone]
      congr 1
      apply List.map_congr_left
      intro j _
      exact htail j

theorem empty_scanLoop {offset : BitVec 64} {j slot : ℕ} {g : γ}
    (hnone : (scanLoop groups holds ngroup offset k i s).tid = none)
    (hj : (scanLoop groups holds ngroup offset k i s).looked[j]? = some slot) (hg : g ∈ groups slot) :
    (holds (i + j) g).rq = [] ∧ (holds (i + j) g).remoteRq = [] := by
  induction k generalizing i s j with
  | zero => simp [scanLoop] at hj
  | succ k ih =>
    rw [scanLoop] at hnone hj
    cases hy : (groups (s.toNat % ngroup)).bind fun g => (holds i g).yields with
    | some tid => simp [hy] at hnone
    | none =>
      simp only [hy] at hnone hj
      cases j with
      | zero =>
        obtain rfl : s.toNat % ngroup = slot := Option.some.inj hj
        rw [Option.mem_def.1 hg, Option.bind_some] at hy
        exact Queues.yields_eq_none.1 hy
      | succ j =>
        rw [← Nat.succ_add_eq_add_succ]
        exact ih hnone hj

theorem coprime_offset (hoffset : offset ∈ OFFSET_TABLE) (hpos : 0 < ngroup)
    (hmax : ngroup ≤ FIBER_MAX_CONCURRENCY) :
    offset.Coprime ngroup := by
  have htable : ∀ o ∈ OFFSET_TABLE, Nat.gcd o (Nat.factorial FIBER_MAX_CONCURRENCY)
      = 1 := by decide +kernel
  exact Nat.Coprime.coprime_dvd_right (Nat.dvd_factorial hpos hmax) (htable offset hoffset)

theorem offset_lt (hoffset : offset ∈ OFFSET_TABLE) : offset < 2 ^ 16 := by
  have htable : ∀ o ∈ OFFSET_TABLE, o < 2 ^ 16 := by decide +kernel
  exact htable offset hoffset

/-- **A scan that finds no task** has looked at each group once, and at no queue that was not empty,
iff its position did not wrap at `2 ^ 64`, or wrapping does not matter as the number of groups is a
power of two. -/
theorem stealTask_complete_iff (hpos : 0 < ngroup) (hmax : ngroup ≤ FIBER_MAX_CONCURRENCY)
    (hoffset : offset ∈ OFFSET_TABLE)
    (hnone : (stealTask groups holds ngroup seed (BitVec.ofNat 64 offset)).tid = none) :
    (stealTask groups holds ngroup seed (BitVec.ofNat 64 offset)).Complete groups holds ngroup
      ↔ seed.toNat + (ngroup - 1) * offset < 2 ^ 64 ∨ ∃ k, ngroup = 2 ^ k := by
  have hlt : offset < 2 ^ 16 := offset_lt hoffset
  have hmax : ngroup ≤ 1024 := hmax
  have hfar : (ngroup - 1) * offset < 2 ^ 64 :=
    (Nat.mul_le_mul ((Nat.sub_le _ _).trans hmax) hlt.le).trans_lt (by decide)
  have hpow : ngroup ∣ 2 ^ 64 ↔ ∃ k, ngroup = 2 ^ k := by
    constructor
    · intro h
      obtain ⟨k, -, hk⟩ := (Nat.dvd_prime_pow Nat.prime_two).1 h
      exact ⟨k, hk⟩
    · rintro ⟨k, rfl⟩
      have hk : k ≤ 10 := (Nat.pow_le_pow_iff_right (by decide)).1 hmax
      exact Nat.pow_dvd_pow 2 (hk.trans (by decide))
  rw [stealTask, if_neg hpos.ne'] at hnone ⊢
  have hlooked := looked_scanLoop hnone (hlt.trans (by decide))
  have hwalk := walk_perm_iff (coprime_offset hoffset hpos hmax) hpos seed.isLt hfar
  rw [← hlooked, hpow] at hwalk
  constructor
  · intro h
    exact hwalk.1 h.once
  · intro h
    have honce := hwalk.2 h
    refine ⟨honce, fun slot hslot g hg => ?_⟩
    have hmem := honce.mem_iff.2 (List.mem_range.2 hslot)
    obtain ⟨i, hi⟩ := List.mem_iff_getElem?.mp hmem
    have hempty := empty_scanLoop hnone hi hg
    rw [zero_add] at hempty
    exact ⟨i, hi, hempty⟩

theorem stealTask_complete_iff_three :
    (stealTask (fun _ => some ()) (fun _ _ => (⟨[], []⟩ : Queues ℕ)) 3 0 (BitVec.ofNat 64 36809)).Complete
        (fun _ => some ()) (fun _ _ => (⟨[], []⟩ : Queues ℕ)) 3
      ↔ (0 : BitVec 64).toNat + (3 - 1) * 36809 < 2 ^ 64 ∨ ∃ k, 3 = 2 ^ k :=
  stealTask_complete_iff (by decide) (by decide) (by decide) (by decide)

/-- With the greatest seed three groups are looked at in the order 0, 1, 0, and the task that the
third one holds all the time is not found. -/
theorem wrap_skips_group :
    let groups : ℕ → Option ℕ := some
    let holds : ℕ → ℕ → Queues ℕ := fun _ g => if g = 2 then ⟨[7], []⟩ else ⟨[], []⟩
    let seed : BitVec 64 := BitVec.allOnes 64
    let scan := stealTask groups holds 3 seed (BitVec.ofNat 64 (stealOffset seed))
    stealOffset seed ∈ OFFSET_TABLE ∧ scan.tid = none ∧ scan.looked = [0, 1, 0] := by
  decide +kernel

end Eabase.Fiber.StealTask
