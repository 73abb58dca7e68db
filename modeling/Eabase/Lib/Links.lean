import Mathlib.Data.List.Cycle
import Eabase.Lib.Places

/-!
# Circular lists

Nodes that are linked both ways. Setting one link is `link`; a list of nodes is
`Circular` when each is linked to the next one and the last to the first, which
does not depend on where the list begins. Two of them become one, or a node is
taken out of one, by two links.

A memory of such lists is a family of them: no node lies in two, and a node that
lies in none is linked to itself (`Rings`).
-/

namespace Eabase.Lib

open Function List

structure Links (ν : Type*) where
  next : ν → ν
  prev : ν → ν

/-- Node `y` comes after node `x`. -/
def Linked {ν : Type*} (k : Links ν) (x y : ν) : Prop :=
  k.next x = y ∧ k.prev y = x

/-- The nodes are linked in this order, and the last one to the first one. -/
def Circular {ν : Type*} (k : Links ν) (l : List ν) : Prop :=
  Cycle.Chain (Linked k) (l : Cycle ν)

variable {ν ρ : Type*} {k : Links ν} {a b x y : ν} {l m : List ν} {r r' : ρ → List ν} {i j : ρ}

theorem Circular.nil : Circular k [] :=
  Cycle.Chain.nil _

theorem circular_singleton : Circular k [x] ↔ Linked k x x :=
  Cycle.chain_singleton _ _

theorem circular_cons : Circular k (x :: l) ↔
    (x :: l).IsChain (Linked k) ∧ ∀ y ∈ (x :: l).getLast?, Linked k y x := by
  have happend : (x :: l) ++ [x] = x :: (l ++ [x]) := rfl
  rw [Circular, Cycle.chain_coe_cons, ← happend, isChain_append]
  constructor
  · rintro ⟨hchain, -, hclosed⟩
    exact ⟨hchain, fun y hy => hclosed y hy x rfl⟩
  · rintro ⟨hchain, hclosed⟩
    refine ⟨hchain, isChain_singleton x, fun y hy z hz => ?_⟩
    rw [← Option.some.inj hz]
    exact hclosed y hy

theorem Circular.rotate (h : Circular k (l ++ m)) : Circular k (m ++ l) := by
  rw [Circular] at h ⊢
  have hrot : ((m ++ l : List ν) : Cycle ν) = (l ++ m : List ν) := Cycle.coe_eq_coe.2 isRotated_append
  rwa [hrot]

/-- The node that comes after the first one, which is the first one when it is alone. -/
theorem Circular.next_eq (h : Circular k (x :: l)) : k.next x = l.headD x := by
  obtain ⟨hchain, hclosed⟩ := circular_cons.1 h
  cases l with
  | nil => exact (hclosed x rfl).1
  | cons y l => exact (isChain_cons_cons.1 hchain).1.1

/-! ## Setting a link -/

variable [DecidableEq ν]

/-- Node `b` is made the one after node `a`. -/
def Links.link (k : Links ν) (a b : ν) : Links ν where
  next := update k.next a b
  prev := update k.prev b a

theorem Links.link_linked : Linked (k.link a b) a b :=
  ⟨update_self .., update_self ..⟩

theorem Linked.link (h : Linked k x y) (hx : x ≠ a) (hy : y ≠ b) : Linked (k.link a b) x y :=
  ⟨(update_of_ne hx ..).trans h.1, (update_of_ne hy ..).trans h.2⟩

theorem Linked.link_eq (h : Linked k a b) : k.link a b = k := by
  have hnext : update k.next a b = k.next := by rw [← h.1, update_eq_self]
  have hprev : update k.prev b a = k.prev := by rw [← h.2, update_eq_self]
  rw [Links.link, hnext, hprev]

/-- Links in a list stay when the new link begins at its last node and ends at its first one at
most. -/
theorem chain_link (h : l.IsChain (Linked k)) (ha : a ∉ l.dropLast) (hb : b ∉ l.tail) :
    l.IsChain (Linked (k.link a b)) := by
  induction l with
  | nil => exact isChain_nil
  | cons x l ih =>
    cases l with
    | nil => exact isChain_singleton x
    | cons y l =>
      rw [isChain_cons_cons] at h ⊢
      rw [dropLast_cons_cons, mem_cons, not_or] at ha
      rw [tail_cons, mem_cons, not_or] at hb
      exact ⟨h.1.link (.symm ha.1) (.symm hb.1), ih h.2 ha.2 hb.2⟩

/-- **Frame.** A list that the two nodes do not lie in stays. -/
theorem Circular.link (h : Circular k l) (ha : a ∉ l) (hb : b ∉ l) : Circular (k.link a b) l := by
  cases l with
  | nil => exact Circular.nil
  | cons x l =>
    rw [circular_cons] at h ⊢
    refine ⟨chain_link h.1 (fun hmem => ha (mem_of_mem_dropLast hmem))
      (fun hmem => hb (mem_of_mem_tail hmem)), fun y hy => (h.2 y hy).link ?_ ?_⟩
    · rintro rfl
      exact ha (mem_of_getLast? hy)
    · rintro rfl
      exact hb mem_cons_self

omit [DecidableEq ν] in
theorem notMem_dropLast_of_getLast? (hnd : l.Nodup) (ha : a ∈ l.getLast?) : a ∉ l.dropLast := by
  obtain ⟨l, rfl⟩ := getLast?_eq_some_iff.1 ha
  rw [dropLast_concat]
  exact fun hmem => (nodup_append'.1 hnd).2.2 hmem mem_cons_self

/-- **Join.** Two circular lists become one: the last node of each is linked to the first one of the
other. -/
theorem Circular.join (hl : Circular k (x :: l)) (hm : Circular k (y :: m))
    (hnd : (x :: l ++ y :: m).Nodup)
    (ha : a ∈ (x :: l).getLast?) (hb : b ∈ (y :: m).getLast?) :
    Circular ((k.link b x).link a y) (x :: l ++ y :: m) := by
  obtain ⟨hchain, -⟩ := circular_cons.1 hl
  obtain ⟨hchain', -⟩ := circular_cons.1 hm
  obtain ⟨hnd, hnd', hdis⟩ := nodup_append'.1 hnd
  have hal : a ∈ x :: l := mem_of_getLast? ha
  have hbm : b ∈ y :: m := mem_of_getLast? hb
  have hbl : b ∉ x :: l := fun h => hdis h hbm
  have ham : a ∉ y :: m := fun h => hdis hal h
  have hxm : x ∉ y :: m := fun h => hdis mem_cons_self h
  have hyl : y ∉ x :: l := fun h => hdis h mem_cons_self
  rw [cons_append, circular_cons, ← cons_append, isChain_append]
  refine ⟨⟨?_, ?_, ?_⟩, ?_⟩
  · apply chain_link (chain_link hchain ?_ (nodup_cons.1 hnd).1)
    · exact notMem_dropLast_of_getLast? hnd ha
    · exact fun h => hyl (mem_cons_of_mem _ h)
    · exact fun h => hbl (mem_of_mem_dropLast h)
  · apply chain_link (chain_link hchain' ?_ ?_)
    · exact fun h => ham (mem_of_mem_dropLast h)
    · exact (nodup_cons.1 hnd').1
    · exact notMem_dropLast_of_getLast? hnd' hb
    · exact fun h => hxm (mem_cons_of_mem _ h)
  · intro z hz w hw
    obtain rfl : a = z := Option.some.inj (ha.symm.trans hz)
    obtain rfl : y = w := Option.some.inj hw
    exact Links.link_linked
  · intro z hz
    rw [getLast?_append_of_ne_nil _ (cons_ne_nil y m)] at hz
    obtain rfl : b = z := Option.some.inj (hb.symm.trans hz)
    apply Links.link_linked.link
    · rintro rfl
      exact hbl hal
    · rintro rfl
      exact hxm mem_cons_self

/-- **Cut.** The first node is taken out: its neighbours are linked, and the node to itself. -/
theorem Circular.cut (h : Circular k (x :: l)) (hnd : (x :: l).Nodup) :
    Circular ((k.link (k.prev x) (k.next x)).link x x) l := by
  obtain ⟨hchain, hclosed⟩ := circular_cons.1 h
  have hx : x ∉ l := (nodup_cons.1 hnd).1
  have hnd' : l.Nodup := (nodup_cons.1 hnd).2
  cases l with
  | nil => exact Circular.nil
  | cons y l =>
    obtain ⟨b, hb⟩ : ∃ b, b ∈ (y :: l).getLast? := ⟨_, getLast?_eq_getLast_of_ne_nil (cons_ne_nil y l)⟩
    have hprev : k.prev x = b := (hclosed b ((getLast?_cons_cons ..).trans hb)).2
    have hnext : k.next x = y := (isChain_cons_cons.1 hchain).1.1
    rw [hprev, hnext]
    apply Circular.link _ hx hx
    rw [circular_cons]
    refine ⟨chain_link (isChain_cons_cons.1 hchain).2 ?_ (nodup_cons.1 hnd').1, ?_⟩
    · exact notMem_dropLast_of_getLast? hnd' hb
    · intro z hz
      obtain rfl : b = z := Option.some.inj (hb.symm.trans hz)
      exact Links.link_linked

/-! ## Families of circular lists -/

/-- Each list is circular, and a node in none of them is linked to itself. -/
structure Rings (k : Links ν) (r : ρ → List ν) : Prop where
  circular : ∀ i, Circular k (r i)
  single : ∀ n, (∀ i, n ∉ r i) → Linked k n n

namespace Rings

/-- Only two lists change, and only links of nodes in them. -/
theorem change {k' : Links ν} (h : Rings k r) (hex : Exclusive r)
    (hframe : ∀ l, (∀ n ∈ l, n ∉ r i ∧ n ∉ r j) → Circular k l → Circular k' l)
    (hi : Circular k' (r' i)) (hj : Circular k' (r' j)) (hrest : ∀ m, m ≠ i → m ≠ j → r' m = r m)
    (hsingle : ∀ n, n ∈ r i ∨ n ∈ r j → (n ∈ r' i ∨ n ∈ r' j) ∨ Linked k' n n) : Rings k' r' where
  circular m := by
    by_cases hmi : m = i
    · exact hmi ▸ hi
    by_cases hmj : m = j
    · exact hmj ▸ hj
    rw [hrest m hmi hmj]
    apply hframe _ _ (h.circular m)
    intro n hn
    exact ⟨fun hni => hmi (hex.place_eq hn hni), fun hnj => hmj (hex.place_eq hn hnj)⟩
  single n hn := by
    by_cases hij : n ∈ r i ∨ n ∈ r j
    · rcases hsingle n hij with (hni | hnj) | hlinked
      · exact absurd hni (hn i)
      · exact absurd hnj (hn j)
      · exact hlinked
    · rw [not_or] at hij
      apply circular_singleton.1
      apply hframe [n]
      · intro n' hn'
        rw [mem_singleton.1 hn']
        exact hij
      · apply circular_singleton.2
        apply h.single
        intro m hm
        by_cases hmi : m = i
        · exact hij.1 (hmi ▸ hm)
        by_cases hmj : m = j
        · exact hij.2 (hmj ▸ hm)
        exact hn m (hrest m hmi hmj ▸ hm)

omit [DecidableEq ν] in
theorem prev_mem (h : Rings k r) (hi : r i = x :: l) : k.prev x ∈ (x :: l).getLast? := by
  have hcirc := h.circular i
  rw [hi, circular_cons] at hcirc
  obtain ⟨b, hb⟩ : ∃ b, b ∈ (x :: l).getLast? := ⟨_, getLast?_eq_getLast_of_ne_nil (cons_ne_nil x l)⟩
  rw [(hcirc.2 b hb).2]
  exact hb

/-- Two lists become one, in place of either of them. -/
theorem join (h : Rings k r) (hex : Exclusive r) (hij : i ≠ j) (hi : r i = x :: l) (hj : r j = y :: m)
    (hr : r' i = [] ∧ r' j = y :: m ++ x :: l ∨ r' j = [] ∧ r' i = x :: l ++ y :: m)
    (hrest : ∀ m, m ≠ i → m ≠ j → r' m = r m) :
    Rings ((k.link (k.prev x) y).link (k.prev y) x) r' := by
  have hx := h.prev_mem hi
  have hy := h.prev_mem hj
  have hjoin : Circular ((k.link (k.prev x) y).link (k.prev y) x) (y :: m ++ x :: l) := by
    apply Circular.join (hj ▸ h.circular j) (hi ▸ h.circular i) _ hy hx
    rw [← hi, ← hj]
    exact hex.append_nodup (.symm hij)
  apply h.change hex _ _ _ hrest
  · intro n hn
    left
    rcases hr with ⟨-, hr⟩ | ⟨-, hr⟩
    · right
      rw [hr, mem_append, ← hi, ← hj]
      exact hn.symm
    · left
      rw [hr, mem_append, ← hi, ← hj]
      exact hn
  · intro l' hl' hcirc
    have hmem : k.prev x ∈ r i := hi ▸ mem_of_getLast? hx
    have hmem' : k.prev y ∈ r j := hj ▸ mem_of_getLast? hy
    have hxi : x ∈ r i := hi ▸ mem_cons_self
    have hyj : y ∈ r j := hj ▸ mem_cons_self
    apply (hcirc.link _ _).link
    · exact fun hn => (hl' _ hn).2 hmem'
    · exact fun hn => (hl' _ hn).1 hxi
    · exact fun hn => (hl' _ hn).1 hmem
    · exact fun hn => (hl' _ hn).2 hyj
  · rcases hr with ⟨hr, -⟩ | ⟨-, hr⟩ <;> rw [hr]
    · exact Circular.nil
    · exact hjoin.rotate
  · rcases hr with ⟨-, hr⟩ | ⟨hr, -⟩ <;> rw [hr]
    · exact hjoin
    · exact Circular.nil

/-- A node is taken out of a list; what is left of it may lie in another place. -/
theorem cut (h : Rings k r) (hex : Exclusive r) (hi : r i = m ++ x :: l)
    (hr : Circular ((k.link (k.prev x) (k.next x)).link x x) (l ++ m) →
      Linked ((k.link (k.prev x) (k.next x)).link x x) x x →
      Circular ((k.link (k.prev x) (k.next x)).link x x) (r' i) ∧
        Circular ((k.link (k.prev x) (k.next x)).link x x) (r' j))
    (hmem : ∀ n ∈ l ++ m, n ∈ r' i ∨ n ∈ r' j) (hj : r j ⊆ r i)
    (hrest : ∀ m, m ≠ i → m ≠ j → r' m = r m) :
    Rings ((k.link (k.prev x) (k.next x)).link x x) r' := by
  have hcirc : Circular k (x :: (l ++ m)) := (hi ▸ h.circular i : Circular k (m ++ x :: l)).rotate
  have hperm : (r i).Perm (x :: (l ++ m)) := hi ▸ perm_append_comm
  have hcut := hr (hcirc.cut (hperm.nodup_iff.1 (hex.nodup i))) Links.link_linked
  have hprev : k.prev x ∈ r i := by
    obtain ⟨b, hb⟩ : ∃ b, b ∈ (x :: (l ++ m)).getLast? :=
      ⟨_, getLast?_eq_getLast_of_ne_nil (cons_ne_nil x (l ++ m))⟩
    rw [((circular_cons.1 hcirc).2 b hb).2]
    exact hperm.mem_iff.2 (mem_of_getLast? hb)
  have hnext : k.next x ∈ r i := by
    rw [hcirc.next_eq, hperm.mem_iff]
    cases l ++ m with
    | nil => exact mem_cons_self
    | cons y l => exact mem_cons_of_mem _ mem_cons_self
  have hxi : x ∈ r i := hperm.mem_iff.2 mem_cons_self
  apply h.change hex _ hcut.1 hcut.2 hrest
  · intro n hn
    have hn : n ∈ r i := hn.elim id (fun h => hj h)
    rw [hperm.mem_iff, mem_cons] at hn
    rcases hn with rfl | hn
    · right
      exact Links.link_linked
    · left
      exact hmem n hn
  · intro l' hl' hcirc'
    apply (hcirc'.link _ _).link
    · exact fun hn => (hl' _ hn).1 hxi
    · exact fun hn => (hl' _ hn).1 hxi
    · exact fun hn => (hl' _ hn).1 hprev
    · exact fun hn => (hl' _ hn).1 hnext

end Rings

end Eabase.Lib
