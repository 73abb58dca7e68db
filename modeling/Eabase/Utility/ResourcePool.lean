import Mathlib.Data.PNat.Defs
import Eabase.Utility.Pool

/-!
# The resource pool

A `ResourcePool` keeps ids in its free chunks. An id is the index of a block
times the number of items of a block, plus the offset of the item: it leads back
to the item through the tables of the block groups. `ResourcePoolFreeChunkMaxItem`
is 256 where it is not specialised, and never 0, so no chunk is pushed empty.
-/

namespace Eabase.Utility.ResourcePool

open Lib Utility.Pool

variable {ι : Type*} [DecidableEq ι] {blockNitem : ℕ}

/-- `unsafe_address_resource`; `none` is the use of a NULL pointer. -/
def unsafeAddressResource (blockNitem : ℕ) (gs : Groups) (id : ℕ) : Option Item :=
  let blockIndex := id / blockNitem
  (gs.block blockIndex).map fun b => (b, id - blockIndex * blockNitem)

/-- `address_resource`. -/
def addressResource (blockNitem : ℕ) (s : State ι ℕ) (id : ℕ) : Option Item :=
  let blockIndex := id / blockNitem
  let groupIndex := blockIndex / groupNblock
  if groupIndex < maxBlockNgroup then
    match s.groups groupIndex with
    | none => none
    | some bg =>
      match bg.blocks (blockIndex % groupNblock) with
      | none => none
      | some b =>
        let offset := id - blockIndex * blockNitem
        if offset < s.nitem b then some (b, offset) else none
  else none

section Index

variable {i o : ℕ}

theorem id_div (ho : o < blockNitem) : (i * blockNitem + o) / blockNitem = i := by
  rw [mul_comm, Nat.mul_add_div (Nat.zero_lt_of_lt ho), Nat.div_eq_of_lt ho, add_zero]

end Index

/-- `ResourcePool<T>` with `BLOCK_NITEM`. -/
def resourcePool (blockNitem : ℕ) (pos : 0 < blockNitem) : Kind ℕ where
  blockNitem := blockNitem
  pos := pos
  entry i _ o := i * blockNitem + o
  resolve := unsafeAddressResource blockNitem
  inj := by
    intro i b o i' b' o' ho ho' he
    have hi : i = i' := by rw [← id_div (i := i) ho, he, id_div ho']
    subst hi
    exact ⟨.inl rfl, Nat.add_left_cancel he⟩
  resolves := by
    intro gs i b o ho hb
    simp only [unsafeAddressResource]
    rw [id_div ho, hb, Option.map_some, Nat.add_sub_cancel_left]

inductive Act (ι : Type*) where
  | getResource (t : ι) (ok : Bool)
  | returnResource (t : ι) (id : ℕ) (ok : Bool)
  | go (t : ι) (ok : Bool)
  | exit (t : ι) (ok : Bool)

/-- `freeChunkMaxItem` is `ResourcePoolFreeChunkMaxItem<T>::value()`. -/
def step (K : Kind ℕ) (freeChunkMaxItem : ℕ+) (s : State ι ℕ) : Act ι → State ι ℕ
  | .getResource t ok => Pool.step K s (.get t ok)
  | .returnResource t id ok => Pool.step K s (.ret t id freeChunkMaxItem ok)
  | .go t ok => Pool.step K s (.go t ok)
  | .exit t ok => Pool.step K s (.exit t ok)

/-- Every item has one owner, and every id one item. -/
structure OneOwner (blockNitem : ℕ) (s : State ι ℕ) : Prop where
  /-- what is owned is owned once -/
  once : s.owned.Nodup
  /-- no NULL pointer was used -/
  sound : s.broken = false
  /-- an id that a block handed out always leads to the item that came with it, as it did in every
  `get_resource` -/
  address : ∀ e ∈ s.handed, addressResource blockNitem s e.1 = some e.2
  got : ∀ e ∈ s.got, addressResource blockNitem s e.1 = some e.2
  /-- the items of two ids are two -/
  distinct : ∀ e ∈ s.handed, ∀ e' ∈ s.handed,
    addressResource blockNitem s e.1 = addressResource blockNitem s e'.1 → e.1 = e'.1
  /-- and an id that no block handed out leads to none -/
  none : ∀ id, (∀ p, (id, p) ∉ s.handed) → addressResource blockNitem s id = .none

variable {pos : 0 < blockNitem} {s : State ι ℕ}

omit [DecidableEq ι] in
theorem addressResource_eq_some (h : Inv (resourcePool blockNitem pos) s) {id : ℕ} {p : Item} :
    addressResource blockNitem s id = some p ↔ s.Handed (resourcePool blockNitem pos) id p := by
  constructor
  · intro hp
    simp only [addressResource] at hp
    split at hp <;> try cases hp
    split at hp <;> try cases hp
    rename_i bg hbg
    split at hp <;> try cases hp
    rename_i b hb
    split at hp <;> try cases hp
    rename_i ho
    refine ⟨id / blockNitem, ?_, ho, ?_⟩
    · simp only [Groups.block, hbg, Option.bind_some, hb]
    · show id = id / blockNitem * blockNitem + (id - id / blockNitem * blockNitem)
      have := Nat.div_mul_le_self id blockNitem
      lia
  · rintro ⟨i, hb, ho, rfl⟩
    have hlt : p.2 < blockNitem := lt_of_lt_of_le ho (h.blocks.nitem p.1)
    show addressResource blockNitem s (i * blockNitem + p.2) = some p
    obtain ⟨bg, hbg, hk⟩ := Option.bind_eq_some_iff.1 hb
    simp only [addressResource]
    rw [id_div hlt, if_pos (h.blocks.bound _ bg hbg)]
    simp only [hbg, hk, Nat.add_sub_cancel_left]
    rw [if_pos ho]

omit [DecidableEq ι] in
theorem Inv.oneOwner (h : Inv (resourcePool blockNitem pos) s) : OneOwner blockNitem s where
  once := h.entries.exclusive.nodup .owned
  sound := h.sound
  address := fun e he => (addressResource_eq_some h).mpr ((h.entries.log e.1 e.2).mp he)
  got := fun e he =>
    (addressResource_eq_some h).mpr ((h.entries.log e.1 e.2).mp (h.entries.got e he))
  distinct := fun e he e' he' heq => by
    have hp := (addressResource_eq_some h).mpr ((h.entries.log e.1 e.2).mp he)
    have hp' := (addressResource_eq_some h).mpr ((h.entries.log e'.1 e'.2).mp he')
    have hitem : e.2 = e'.2 := Option.some.inj (hp.symm.trans (heq.trans hp'))
    obtain ⟨i, hi, _, hx⟩ := (h.entries.log e.1 e.2).mp he
    obtain ⟨j, hj, _, hy⟩ := (h.entries.log e'.1 e'.2).mp he'
    rw [hitem] at hi hx
    rw [hx, hy, h.blocks.table i j _ hi hj]
  none := fun id hid => by
    cases hp : addressResource blockNitem s id with
    | none => rfl
    | some p =>
      exact absurd ((h.entries.log id p).mpr ((addressResource_eq_some h).mp hp)) (hid p)

theorem step_inv (freeChunkMaxItem : ℕ+) (s : State ι ℕ) (a : Act ι)
    (h : Inv (resourcePool blockNitem pos) s) :
    Inv (resourcePool blockNitem pos) (step (resourcePool blockNitem pos) freeChunkMaxItem s a) := by
  cases a with
  | getResource t ok => exact Pool.step_inv s (.get t ok) h trivial
  | returnResource t id ok =>
    exact Pool.step_inv s (.ret t id freeChunkMaxItem ok) h fun h0 => absurd h0 freeChunkMaxItem.ne_zero
  | go t ok => exact Pool.step_inv s (.go t ok) h trivial
  | exit t ok => exact Pool.step_inv s (.exit t ok) h trivial

/-- In every run of the resource pool each item has one owner, and each id its own item. -/
theorem run_oneHolder (pos : 0 < blockNitem) (freeChunkMaxItem : ℕ+) (as : List (Act ι)) :
    OneOwner blockNitem (runFrom (step (resourcePool blockNitem pos) freeChunkMaxItem) (start ι ℕ) as) :=
  Inv.oneOwner (Keeps.run (step_inv freeChunkMaxItem) inv_start as)

/-- A thread gets the ids 0 and 1 and returns the first when it exits; another one takes it over. -/
theorem run_oneHolder_exit :
    let as := Act.getResource false true :: List.replicate 10 (.go false true) ++
      [.getResource false true, .go false true, .go false true, .go false true, .go false true,
        .returnResource false 0 true, .exit false true,
        .getResource true true, .go true true, .go true true, .go true true]
    let s := runFrom (step (resourcePool 2 (by decide)) 256) (start Bool ℕ) as
    s.owned = [0, 1] ∧ OneOwner 2 s :=
  ⟨by decide, run_oneHolder _ _ _⟩

end Eabase.Utility.ResourcePool
