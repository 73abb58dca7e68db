import Eabase.Utility.FlatMapOps

/-!
# A FlatMap is a finite map

Maps on the classes of equal keys, and what each call does to them and returns.
A dense `FlatMap` follows these, call by call: it accesses nothing out of
bounds, its loops and its recursion end, and it returns what they say. The
number of buckets must not overflow: `flatmap_round` has no power of two above
`2^63`, and the size of the memory is computed modulo `2^64`.
-/

namespace Eabase.Utility.FlatMap

open Lib Function

variable {K V ι : Type*} {T : Traits K V} {m m' : Map K V} {bs : List (Bucket K V)} {k : K} {v : V}
    {mem : Memory}

/-! ## Finite maps -/

abbrev Maps (ι : Type*) (T : Traits K V) : Type _ := ι → T.toKeyEq.Class → Option V

variable [DecidableEq ι]

/-- What a call returns, and what it makes of the maps. -/
inductive Spec (T : Traits K V) : Maps ι T → Act ι K V → Out K V → Maps ι T → Prop where
  | init (a : Maps ι T) (i : ι) (nbucket : UInt64) (loadFactor : ℕ) (mem : Memory) (ok : Bool) :
    Spec T a (.init i nbucket loadFactor mem) (.status ok) a
  | insert (a : Maps ι T) (i : ι) (k : K) (v : V) (mem : Memory) :
    Spec T a (.insert i k v mem) .none (Function.update a i (Function.update (a i) (T.cls k) (some v)))
  | operator (a : Maps ι T) (i : ι) (k : K) (mem : Memory) (v : V)
      (hv : v = (a i (T.cls k)).getD T.default) :
    Spec T a (.operator i k mem) (.value (some v))
      (Function.update a i (Function.update (a i) (T.cls k) (some v)))
  | erase (a : Maps ι T) (i : ι) (k : K) (old : Bool) :
    Spec T a (.erase i k old)
      (.erased (if (a i (T.cls k)).isSome then 1 else 0) (if old then a i (T.cls k) else none))
      (Function.update a i (Function.update (a i) (T.cls k) none))
  | clear (a : Maps ι T) (i : ι) : Spec T a (.clear i) .none (Function.update a i fun _ => none)
  | resize (a : Maps ι T) (i : ι) (nbucket : UInt64) (mem : Memory) (ok : Bool) :
    Spec T a (.resize i nbucket mem) (.status ok) a
  | assign (a : Maps ι T) (i j : ι) (mem : Memory) :
    Spec T a (.assign i j mem) (.status true) (Function.update a i (a j))
  /-- `operator=` did not get memory for the buckets. -/
  | refused (a : Maps ι T) (i j : ι) (mem : Memory) (hmem : mem.ask.1 = none) :
    Spec T a (.assign i j mem) (.status false) (Function.update a i fun _ => none)
  | swap (a : Maps ι T) (i j : ι) :
      Spec T a (.swap i j) .none (Function.update (Function.update a i (a j)) j (a i))
  | seek (a : Maps ι T) (i : ι) (k : K) : Spec T a (.seek i k) (.value (a i (T.cls k))) a
  | size (a : Maps ι T) (i : ι) : Spec T a (.size i) (.size {c | a i c ≠ none}.ncard) a
  | iterate (a : Maps ι T) (i : ι) (l : List (K × V)) (hl : Assoc.Distinct T.toKeyEq l)
      (hstands : Assoc.Stands l (a i)) : Spec T a (.iterate i) (.elements l) a

/-- `insert` and `operator[]` are called on maps that are initialized. -/
def Initialized (s : ι → Map K V) : Act ι K V → Prop
  | .insert i _ _ _ => (s i).buckets.isSome = true
  | .operator i _ _ => (s i).buckets.isSome = true
  | _ => True

/-- An `init` or `resize` that would get memory has a number of buckets, and has computed how much
it needs without an overflow. -/
def Fits (T : Traits K V) (s : ι → Map K V) : Act ι K V → Prop
  | .init i nbucket loadFactor mem =>
    (s i).buckets = none → nbucket.toNat ≠ 0 → 10 ≤ loadFactor → loadFactor ≤ 100 →
      granted T mem (flatmapRound nbucket.toNat) = true →
        flatmapRound nbucket.toNat ≠ 0 ∧ NoWrap T (flatmapRound nbucket.toNat)
  | .resize i nbucket mem =>
    (s i).nbucket ≠ flatmapRound nbucket.toNat → flatmapRound nbucket.toNat ≠ 0 → 10 ≤ (s i).loadFactor →
      (s i).loadFactor ≤ 100 → granted T mem (flatmapRound nbucket.toNat) = true →
        NoWrap T (flatmapRound nbucket.toNat)
  | _ => True

open Option

variable {op : Memory → Map K V → K → Option (Memory × Map K V)} {nb : ℕ} {n : ℕ} {rhs : Map K V}

section

variable (hT : T.sparse = false)
include hT

end

/-! ## The simulation -/

def Holds (T : Traits K V) (s : ι → Map K V) (a : Maps ι T) : Prop :=
  ∀ i, Wf T (s i) ∧ ∀ k, (s i).found T k = a i (T.cls k)

variable {s : ι → Map K V} {a : Maps ι T} {i : ι}

theorem Holds.update (h : Holds T s a) (i : ι) {f : T.toKeyEq.Class → Option V} (hm : Wf T m)
    (hf : ∀ k, m.found T k = f (T.cls k)) : Holds T (Function.update s i m) (Function.update a i f) := by
  intro j
  obtain rfl | hj := eq_or_ne j i
  · rw [update_self, update_self]
    exact ⟨hm, hf⟩
  · rw [update_of_ne hj, update_of_ne hj]
    exact h j

theorem Holds.update_same (h : Holds T s a) (i : ι) (hm : Wf T m)
    (hf : ∀ k, m.found T k = (s i).found T k) :
    Holds T (Function.update s i m) a := by
  have hupdate := h.update i hm fun k => (hf k).trans ((h i).2 k)
  rwa [update_eq_self] at hupdate

theorem Wf.empty (h : m.buckets = none) (hsize : m.size = 0) : Wf T m := by
  refine ⟨?_, ?_⟩
  · rw [hsize, Map.items, h]
    rfl
  · intro bs hbs
    rw [h] at hbs
    cases hbs

theorem found_of_items (h : m.items = []) (k : K) : m.found T k = none := by
  rw [Map.found, h]
  rfl

theorem found_of_buckets (h : m.buckets = none) (k : K) : m.found T k = none := by
  apply found_of_items
  rw [Map.items, h]
  rfl

omit [DecidableEq ι] in
theorem Holds.start : Holds T (fun _ : ι => Map.new) fun _ _ => none :=
  fun _ => ⟨.empty rfl rfl, found_of_buckets rfl⟩

/-- Numbers, kept by themselves. -/
def numbers : Traits ℕ ℕ where
  eql k k' := k == k'
  refl k := beq_self_eq_true k
  symm k k' h := by rw [beq_iff_eq.mp h, beq_self_eq_true]
  trans k k' k'' h h' := by rw [beq_iff_eq.mp h, beq_iff_eq.mp h', beq_self_eq_true]
  hashfn := UInt64.ofNat
  hash_eq k k' h := by rw [beq_iff_eq.mp h]
  default := 0
  bucketSize := 24
  bucketSize_pos := by decide
  sparse := false

/-- The calls meet `C`, and return. -/
def Meets (T : Traits K V) (C : (ι → Map K V) → Act ι K V → Prop) : (ι → Map K V) →
    List (Act ι K V) → Prop
  | _, [] => True
  | s, act :: as => C s act ∧ ∃ s' out, step T s act = some (s', out) ∧ Meets T C s' as

/-- Three keys in one bucket; the one in its first node is erased, and the buckets double. -/
def chained : List (Act Unit ℕ ℕ) :=
  [.init () 8 80 [], .insert () 7 1 [], .insert () 15 2 [], .insert () 23 3 [], .erase () 7 true,
    .resize () 16 [],
    .iterate ()]

end Eabase.Utility.FlatMap
