import Eabase.Lib.Links

/-!
# Intrusive linked lists

`LinkNode`: a node holds the pointers to the next and to the previous node of
the circular list it is in, and is linked to itself when it is in none. Here the
pointers of all nodes are the memory `Links`, and each member function is the
assignments that it makes, one after the other.
-/

namespace Eabase.Utility.LinkedList

open Lib Function

variable {ν : Type*} [DecidableEq ν]

section

variable (k : Links ν)

def setNext (x y : ν) : Links ν :=
  { k with next := update k.next x y }

def setPrevious (x y : ν) : Links ν :=
  { k with prev := update k.prev x y }

/-- `LinkNode()`: self-referential as default. -/
def construct (node : ν) : Links ν :=
  setNext (setPrevious k node node) node node

/-- `InsertBefore`. -/
def insertBefore (node e : ν) : Links ν :=
  let k := setNext k node e
  let k := setPrevious k node (k.prev e)
  let k := setNext k (k.prev e) node
  setPrevious k e node

/-- `InsertBeforeAsList`. -/
def insertBeforeAsList (node e : ν) : Links ν :=
  let prev := k.prev node
  let k := setNext k prev e
  let k := setPrevious k node (k.prev e)
  let k := setNext k (k.prev e) node
  setPrevious k e prev

/-- `RemoveFromList`. -/
def removeFromList (node : ν) : Links ν :=
  let k := setNext k (k.prev node) (k.next node)
  let k := setPrevious k (k.next node) (k.prev node)
  let k := setNext k node node
  setPrevious k node node

end

/-! ## The functions set links -/

variable {k : Links ν} {x y : ν}

theorem construct_eq (h : Linked k x x) : construct k x = k :=
  h.link_eq

theorem insertBeforeAsList_eq (hxy : x ≠ y) :
    insertBeforeAsList k x y = (k.link (k.prev x) y).link (k.prev y) x := by
  have hprev : update k.prev x (k.prev y) y = k.prev y := update_of_ne (.symm hxy) ..
  simp only [insertBeforeAsList, setNext, setPrevious, Links.link, hprev, Links.mk.injEq, true_and]
  exact update_comm hxy ..

theorem insertBefore_eq (hx : Linked k x x) : insertBefore k x y = insertBeforeAsList k x y := by
  simp only [insertBefore, insertBeforeAsList, hx.2]

theorem removeFromList_eq : removeFromList k x = (k.link (k.prev x) (k.next x)).link x x := by
  have hnext : update k.next (k.prev x) (k.next x) x = k.next x := by
    by_cases h : x = k.prev x
    · rw [← h]
      exact update_self ..
    · exact update_of_ne h ..
  simp only [removeFromList, setNext, setPrevious, Links.link, hnext]

/-! ## The lists of a memory -/

variable {ρ : Type*} {r r' : ρ → List ν} {i j : ρ} {l m : List ν}

theorem insertBeforeAsList_rings (h : Rings k r) (hex : Exclusive r) (hij : i ≠ j) (hi : r i = x :: l)
    (hj : r j = y :: m) (hr : r' i = [] ∧ r' j = y :: m ++ x :: l ∨ r' j = [] ∧ r' i = x :: l ++ y :: m)
    (hrest : ∀ m, m ≠ i → m ≠ j → r' m = r m) : Rings (insertBeforeAsList k x y) r' := by
  have hxi : x ∈ r i := hi ▸ List.mem_cons_self
  have hyj : y ∈ r j := hj ▸ List.mem_cons_self
  have hxy : x ≠ y := by
    rintro rfl
    exact hij (hex.place_eq hxi hyj)
  rw [insertBeforeAsList_eq hxy]
  exact h.join hex hij hi hj hr hrest

theorem removeFromList_rings (h : Rings k r) (hex : Exclusive r) (hi : r i = y :: x :: l)
    (hi' : r' i = y :: l)
    (hrest : ∀ m, m ≠ i → r' m = r m) : Rings (removeFromList k x) r' := by
  rw [removeFromList_eq]
  apply h.cut hex (m := [y]) (j := i) hi _ _ (List.Subset.refl _) (fun m hm _ => hrest m hm)
  · intro hcut _
    rw [hi']
    exact ⟨hcut.rotate, hcut.rotate⟩
  · intro n hn
    left
    rw [hi']
    exact List.perm_append_comm.mem_iff.1 hn

theorem removeFromList_rings_root (h : Rings k r) (hex : Exclusive r) (hi : r i = x :: l) (hj : r j = [])
    (hi' : r' i = [x]) (hj' : r' j = l) (hrest : ∀ m, m ≠ i → m ≠ j → r' m = r m) :
    Rings (removeFromList k x) r' := by
  rw [removeFromList_eq]
  apply h.cut hex (m := []) (j := j) hi _ _ _ hrest
  · intro hcut hself
    rw [hi', hj', circular_singleton]
    rw [List.append_nil] at hcut
    exact ⟨hself, hcut⟩
  · intro n hn
    right
    rw [hj']
    rwa [List.append_nil] at hn
  · rw [hj]
    exact List.nil_subset _

end Eabase.Utility.LinkedList
