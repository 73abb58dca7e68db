import Eabase.Utility.Pool

/-!
# The object pool

An `ObjectPool` keeps pointers in its free chunks. The limit of a chunk is read
from a flag for the pools of stacks: it may change at any time, and it is 0 for
`-tc_stack_small=0`. With the limit 0 and an empty chunk `return_object` pushes
a chunk that is empty, and the thread that pops it reads below its first entry.
-/

namespace Eabase.Utility.ObjectPool

open Lib Utility.Pool

variable {ι : Type*} [DecidableEq ι]

/-- `ObjectPool<T>` with `BLOCK_NITEM`; what it keeps is the pointer itself. -/
def objectPool (blockNitem : ℕ) (pos : 0 < blockNitem) : Kind Item where
  blockNitem := blockNitem
  pos := pos
  entry _ b o := (b, o)
  resolve _ p := some p
  inj _ _ h := ⟨.inr (congrArg Prod.fst h), congrArg Prod.snd h⟩
  resolves _ _ := rfl

/-- `ObjectPoolFreeChunkMaxItem` of the small stacks, and of the normal ones with their flag. -/
def stackFreeChunkMaxItem (flag : ℤ) : ℕ := if flag ≤ 0 then 0 else flag.toNat

structure OneOwner (s : State ι Item) : Prop where
  /-- `get_object` only read entries below `nfree` -/
  sound : s.broken = false
  /-- what is owned is owned once -/
  once : s.owned.Nodup
  /-- and whatever was handed out was constructed by the pool -/
  owned : ∀ p ∈ s.owned, p ∈ s.constructed
  got : ∀ e ∈ s.got, e.1 = e.2 ∧ e.2 ∈ s.constructed

variable {blockNitem : ℕ} {pos : 0 < blockNitem} {s : State ι Item}

omit [DecidableEq ι] in
theorem constructed_of_handed (h : Inv (objectPool blockNitem pos) s) {x p : Item}
    (hx : s.Handed (objectPool blockNitem pos) x p) : x = p ∧ p ∈ s.constructed := by
  obtain ⟨i, _, ho, rfl⟩ := hx
  exact ⟨rfl, (h.entries.constructed p.1 p.2).2 ho⟩

omit [DecidableEq ι] in
theorem Inv.oneOwner (h : Inv (objectPool blockNitem pos) s) : OneOwner s where
  sound := h.sound
  once := h.entries.exclusive.nodup .owned
  owned := fun x hx => by
    obtain ⟨p, hp⟩ := h.entries.entries .owned x hx
    obtain ⟨rfl, hc⟩ := constructed_of_handed h hp
    exact hc
  got := fun e he => constructed_of_handed h ((h.entries.log e.1 e.2).mp (h.entries.got e he))

/-- In a run in which no thread with an empty chunk reads the limit 0, every object has one
owner. -/
theorem run_oneOwner (as : List (Act ι Item))
    (hc : Along (step (objectPool blockNitem pos)) Heeds (start ι Item) as) :
    OneOwner (runFrom (step (objectPool blockNitem pos)) (start ι Item) as) :=
  Inv.oneOwner (hc.run step_inv inv_start)

/-- Two threads that exchange a chunk, under the limits 2, 0 and 1. -/
theorem run_oneOwner_exchange :
    OneOwner (runFrom (step (objectPool 2 (by decide))) (start Bool Item)
      (.get false true :: List.replicate 10 (.go false true) ++
        [.get false true, .go false true, .go false true, .go false true, .go false true,
          .ret false (0, 0) 2 true, .ret false (0, 1) 0 true, .go false true, .exit false true,
          .get true true, .go true true, .go true true, .go true true, .ret true (0, 1) 1 true])) :=
  run_oneOwner _ (by decide)

/-- With `-tc_stack_small=0`: an object is got and returned, then two are got. -/
theorem zero_limit_not_oneOwner :
    ¬ ∀ as : List (Act Unit Item),
      OneOwner (runFrom (step (objectPool 64 (by decide))) (start Unit Item) as) := by
  intro h
  have hsound := (h (.get () true :: List.replicate 10 (.go () true) ++
    [.ret () (0, 0) (stackFreeChunkMaxItem 0) true, .go () true, .get () true, .get () true,
      .go () true, .go () true, .go () true])).sound
  revert hsound
  decide

end Eabase.Utility.ObjectPool
