import Mathlib.Data.Set.Card

/-!
# Association lists

Lists of keys and values in which a key is looked up with an equality of its
own, which need not be the identity. Such a list, when no two of its keys are
equal, stands for a map on the classes of keys.
-/

namespace Eabase.Lib

open List

/-- An equality of keys that can be computed. -/
structure KeyEq (K : Type*) where
  eql : K → K → Bool
  refl : ∀ k, eql k k = true
  symm : ∀ k k', eql k k' = true → eql k' k = true
  trans : ∀ k k' k'', eql k k' = true → eql k' k'' = true → eql k k'' = true

namespace KeyEq

variable {K : Type*} (e : KeyEq K)

def setoid : Setoid K where
  r k k' := e.eql k k' = true
  iseqv := ⟨e.refl, e.symm _ _, e.trans _ _ _⟩

abbrev Class : Type _ := Quotient e.setoid

abbrev cls (k : K) : e.Class := Quotient.mk e.setoid k

variable {e}

theorem cls_eq {k k' : K} : e.cls k = e.cls k' ↔ e.eql k k' = true :=
  ⟨fun h => Quotient.exact h, fun h => Quotient.sound h⟩

instance : DecidableEq e.Class := fun c c' =>
  Quotient.recOnSubsingleton₂ c c' fun k k' => decidable_of_iff (e.eql k k' = true) (cls_eq (e := e)).symm

theorem eql_comm (k k' : K) : e.eql k k' = e.eql k' k :=
  Bool.eq_iff_iff.2 ⟨e.symm k k', e.symm k' k⟩

/-- Equal keys are equal to the same keys. -/
theorem eql_congr {k k' : K} (h : e.eql k k' = true) (k'' : K) : e.eql k'' k = e.eql k'' k' :=
  Bool.eq_iff_iff.2 ⟨fun h' => e.trans _ _ _ h' h, fun h' => e.trans _ _ _ h' (e.symm _ _ h)⟩

end KeyEq

namespace Assoc

variable {K V : Type*} (e : KeyEq K)

/-- The value of the first key that is equal to `k`. -/
def lookup (l : List (K × V)) (k : K) : Option V :=
  (l.find? fun p => e.eql p.1 k).map Prod.snd

def erase (l : List (K × V)) (k : K) : List (K × V) :=
  l.eraseP fun p => e.eql p.1 k

def store (l : List (K × V)) (k : K) (v : V) : List (K × V) :=
  match l with
  | [] => []
  | p :: l => if e.eql p.1 k then (p.1, v) :: l else p :: store l k v

def Distinct (l : List (K × V)) : Prop :=
  l.Pairwise fun p q => e.eql p.1 q.1 = false

variable {e} {l l' : List (K × V)} {k k' : K} {v : V}

@[simp] theorem lookup_nil (k : K) : lookup e ([] : List (K × V)) k = none := rfl

theorem lookup_cons (p : K × V) (l : List (K × V)) (k : K) :
    lookup e (p :: l) k = if e.eql p.1 k then some p.2 else lookup e l k := by
  unfold lookup
  rw [find?_cons]
  split
  case h_1 h => rw [if_pos h, Option.map_some]
  case h_2 h => rw [if_neg (Bool.eq_false_iff.1 h)]

theorem lookup_append (l l' : List (K × V)) (k : K) : lookup e (l ++ l') k
      = (lookup e l k).or (lookup e l' k) := by
  unfold lookup
  rw [find?_append]
  cases l.find? fun p => e.eql p.1 k <;> rfl

theorem lookup_congr (h : e.eql k k' = true) : lookup e l k = lookup e l k' := by
  unfold lookup
  congr 2
  funext p
  exact KeyEq.eql_congr h p.1

theorem lookup_eq_none : lookup e l k = none ↔ ∀ p ∈ l, e.eql p.1 k = false := by
  simp only [lookup, Option.map_eq_none_iff, find?_eq_none, Bool.not_eq_true]

theorem lookup_isSome : (lookup e l k).isSome = l.any fun p => e.eql p.1 k := by
  rw [lookup, Option.isSome_map, Bool.eq_iff_iff, find?_isSome, any_eq_true]

theorem mem_of_lookup (h : lookup e l k = some v) : ∃ p ∈ l, e.eql p.1 k = true ∧ p.2 = v := by
  obtain ⟨p, hp, hv⟩ := Option.map_eq_some_iff.1 h
  have hk := find?_some hp
  exact ⟨p, mem_of_find?_eq_some hp, hk, hv⟩

/-- Where no two keys are equal, a key that is there is found. -/
theorem Distinct.lookup_of_mem (h : Distinct e l) {p : K × V} (hp : p ∈ l) (hk : e.eql p.1 k = true) :
    lookup e l k = some p.2 := by
  induction l with
  | nil => cases hp
  | cons q l ih =>
    obtain ⟨hq, hl⟩ := pairwise_cons.1 h
    rw [lookup_cons]
    cases hp with
    | head => rw [if_pos hk]
    | tail _ hp =>
      rw [if_neg, ih hl hp]
      intro hqk
      have := hq p hp
      rw [KeyEq.eql_congr hk, hqk] at this
      cases this

theorem lookup_store (l : List (K × V)) (k k' : K) (v : V) :
    lookup e (store e l k v) k' = if e.eql k k' then (lookup e l k').map (fun _ => v)
    else lookup e l k' := by
  induction l with
  | nil => simp only [store, lookup_nil, Option.map_none, ite_self]
  | cons p l ih =>
    rw [store]
    by_cases hp : e.eql p.1 k = true
    · rw [if_pos hp, lookup_cons, lookup_cons]
      have hpk : e.eql p.1 k' = e.eql k k' := by
        rw [KeyEq.eql_comm p.1, KeyEq.eql_congr hp, KeyEq.eql_comm]
      rw [hpk]
      split <;> rfl
    · rw [if_neg hp, lookup_cons, lookup_cons, ih]
      by_cases hpk : e.eql p.1 k' = true
      · rw [if_pos hpk, if_pos hpk, if_neg]
        intro hk
        exact hp ((KeyEq.eql_congr hk p.1).trans hpk)
      · rw [if_neg hpk, if_neg hpk]

theorem store_keys (l : List (K × V)) (k : K) (v : V) : (store e l k v).map Prod.fst
      = l.map Prod.fst := by
  induction l with
  | nil => rfl
  | cons p l ih =>
    rw [store]
    split
    · rfl
    · rw [map_cons, ih, map_cons]

/-- Whether the keys are distinct is a matter of the keys. -/
theorem distinct_iff : Distinct e l ↔ (l.map Prod.fst).Pairwise fun k k' => e.eql k k' = false := by
  rw [pairwise_map]
  rfl

theorem Distinct.store (h : Distinct e l) (k : K) (v : V) : Distinct e (store e l k v) := by
  rw [distinct_iff, store_keys, ← distinct_iff]
  exact h

theorem Distinct.erase (h : Distinct e l) (k : K) : Distinct e (erase e l k) :=
  List.Pairwise.sublist eraseP_sublist h

theorem Distinct.append_of_lookup (h : Distinct e l) (hk : lookup e l k = none) (v : V) :
    Distinct e (l ++ [(k, v)]) := by
  apply pairwise_append.2
  refine ⟨h, pairwise_singleton _ _, ?_⟩
  intro p hp q hq
  rw [mem_singleton.1 hq]
  exact lookup_eq_none.1 hk p hp

theorem erase_cons (p : K × V) (l : List (K × V)) (k : K) :
    erase e (p :: l) k = if e.eql p.1 k then l else p :: erase e l k := by
  unfold erase
  rw [eraseP_cons]
  cases e.eql p.1 k <;> rfl

/-- The key is gone, and nothing else. -/
theorem Distinct.lookup_erase (h : Distinct e l) (k k' : K) :
    lookup e (Assoc.erase e l k) k' = if e.eql k k' then none else lookup e l k' := by
  induction l with
  | nil => simp only [Assoc.erase, eraseP_nil, lookup_nil, ite_self]
  | cons p l ih =>
    obtain ⟨hp, hl⟩ := pairwise_cons.1 h
    by_cases hpk : e.eql p.1 k = true
    · rw [erase_cons, if_pos hpk, lookup_cons]
      by_cases hk : e.eql k k' = true
      · rw [if_pos hk, lookup_eq_none]
        intro q hq
        have hpq := hp q hq
        rw [KeyEq.eql_comm, KeyEq.eql_congr hpk, KeyEq.eql_congr hk] at hpq
        exact hpq
      · rw [if_neg hk, if_neg]
        intro hpk'
        exact hk (e.trans _ _ _ (e.symm _ _ hpk) hpk')
    · rw [erase_cons, if_neg hpk, lookup_cons, lookup_cons, ih hl]
      by_cases hpk' : e.eql p.1 k' = true
      · rw [if_pos hpk', if_pos hpk', if_neg]
        intro hk
        exact hpk ((KeyEq.eql_congr hk p.1).trans hpk')
      · rw [if_neg hpk', if_neg hpk']

theorem length_erase_of_lookup (h : lookup e l k = some v) : (erase e l k).length + 1 = l.length := by
  obtain ⟨p, hp, hk, -⟩ := mem_of_lookup h
  rw [erase, length_eraseP_of_mem hp hk]
  exact Nat.sub_add_cancel (length_pos_of_mem hp)

/-! ## Maps on classes of keys -/

/-- The list stands for the map `a`. -/
def Stands (l : List (K × V)) (a : e.Class → Option V) : Prop :=
  ∀ k, lookup e l k = a (e.cls k)

/-- The number of keys of the map is the length of the list. -/
theorem Distinct.ncard {a : e.Class → Option V} (h : Distinct e l) (ha : Stands l a) :
    {c | a c ≠ none}.ncard = l.length := by
  have hkeys : {c | a c ≠ none} = {c | c ∈ l.map fun p => e.cls p.1} := by
    ext c
    induction c using Quotient.inductionOn with
    | h k =>
      rw [Set.mem_ofPred_eq, ← ha k, ← Option.isSome_iff_ne_none, lookup_isSome, any_eq_true,
        Set.mem_ofPred_eq,
        mem_map]
      constructor
      · rintro ⟨p, hp, hk⟩
        exact ⟨p, hp, KeyEq.cls_eq.2 hk⟩
      · rintro ⟨p, hp, hk⟩
        exact ⟨p, hp, KeyEq.cls_eq.1 hk⟩
  have hnodup : (l.map fun p => e.cls p.1).Nodup := by
    apply pairwise_map.2
    apply List.Pairwise.imp _ h
    intro p q hpq heq
    rw [KeyEq.cls_eq.1 heq] at hpq
    cases hpq
  classical
  have hset : {c | c ∈ l.map fun p => e.cls p.1}
      = ((l.map fun p => e.cls p.1).toFinset : Set e.Class) := by
    ext c
    rw [coe_toFinset]
  rw [hkeys, hset, Set.ncard_coe_finset, toFinset_card_of_nodup hnodup, length_map]

end Assoc

end Eabase.Lib
