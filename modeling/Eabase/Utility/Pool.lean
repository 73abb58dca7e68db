import Eabase.Lib.Machine
import Eabase.Lib.Places

/-!
# The pools

`ObjectPool` and `ResourcePool` are one algorithm: a thread takes from its own
free chunk, else from a chunk of the global list, else from its own block, else
from a new block, which it enters in the right-most block group. They differ in
what a free chunk keeps, the pointer of an object or the id of a resource, and
in how that leads to the object. A `Kind` says both; the machine is stated and
its invariant proved for any kind.

A step is one access to what threads share: the list of free chunks, the
counters and tables of the block groups, the end `nitem` of a block. What a
thread does to its own chunk is part of the step in front of it. Any thread may
return what is owned.
-/

namespace Eabase.Utility.Pool

open Lib Function List
open Option (bind_some some)

variable {ι κ : Type*} [DecidableEq ι]

/-! ## Blocks, groups, entries -/

/-- `OP_GROUP_NBLOCK` and `RP_GROUP_NBLOCK`. -/
def groupNblock : ℕ := 2 ^ 16

/-- `OP_MAX_BLOCK_NGROUP` and `RP_MAX_BLOCK_NGROUP`. -/
def maxBlockNgroup : ℕ := 65536

/-- `BlockGroup`: its counter and its table of blocks. -/
structure BlockGroup where
  nblock : ℕ
  blocks : ℕ → Option ℕ

/-- The constructor of `BlockGroup`. -/
def BlockGroup.new : BlockGroup := ⟨0, fun _ => none⟩

/-- An item is a block and an offset in it. -/
abbrev Item := ℕ × ℕ

/-- `_block_groups`. -/
abbrev Groups := ℕ → Option BlockGroup

/-- The block that has index `i`. -/
def Groups.block (gs : Groups) (i : ℕ) : Option ℕ :=
  (gs (i / groupNblock)).bind (·.blocks (i % groupNblock))

section Groups

variable {gs : Groups} {bg bg' x : BlockGroup} {g g' i k n : ℕ}

theorem Groups.update_eq_some :
    update gs g (some bg') g' = some x ↔ (g' = g ∧ x = bg') ∨ (g' ≠ g ∧ gs g' = some x) := by
  obtain rfl | hg := eq_or_ne g' g
  · simp [eq_comm]
  · simp [hg]

theorem Groups.block_setNblock (hg : gs g = some bg) :
    Groups.block (update gs g (some { bg with nblock := n })) = gs.block := by
  ext i : 1
  by_cases hi : i / groupNblock = g
  · simp [Groups.block, hi, hg]
  · simp [Groups.block, update_of_ne hi]

theorem Groups.block_new (hg : gs g = none) :
    Groups.block (update gs g (some .new)) = gs.block := by
  ext i : 1
  by_cases hi : i / groupNblock = g
  · simp [Groups.block, hi, hg, BlockGroup.new]
  · simp [Groups.block, update_of_ne hi]

theorem groupNblock_pos : 0 < groupNblock := by decide

theorem index_div (hk : k < groupNblock) : (g * groupNblock + k) / groupNblock = g := by
  rw [mul_comm, Nat.mul_add_div groupNblock_pos, Nat.div_eq_of_lt hk, add_zero]

theorem index_mod (hk : k < groupNblock) : (g * groupNblock + k) % groupNblock = k := by
  rw [mul_comm, Nat.mul_add_mod, Nat.mod_eq_of_lt hk]

theorem Groups.block_store (hg : gs g = some bg) (hk : k < groupNblock) (b i : ℕ) :
    Groups.block (update gs g (some { bg with blocks := update bg.blocks k (some b) })) i =
      if i = g * groupNblock + k then some b else gs.block i := by
  by_cases hi : i / groupNblock = g
  · by_cases hm : i % groupNblock = k
    · have hik : i = g * groupNblock + k := by
        rw [← hi, ← hm, mul_comm, Nat.div_add_mod]
      rw [if_pos hik]
      simp only [Groups.block, hi, hm, update_self, bind_some]
    · have hik : i ≠ g * groupNblock + k := fun h => hm (by rw [h, index_mod hk])
      simp [Groups.block, hi, hg, hik, update_of_ne hm]
  · have hik : i ≠ g * groupNblock + k := fun h => hi (by rw [h, index_div hk])
    simp [Groups.block, hik, update_of_ne hi]

end Groups

/-- What a pool keeps in its free chunks: the entry of the item at an offset of the block with an
index, and the way back from an entry to its item. -/
structure Kind (κ : Type*) where
  blockNitem : ℕ
  pos : 0 < blockNitem
  entry : ℕ → ℕ → ℕ → κ
  resolve : Groups → κ → Option Item
  inj : ∀ {i b o i' b' o'}, o < blockNitem → o' < blockNitem →
    entry i b o = entry i' b' o' → (i = i' ∨ b = b') ∧ o = o'
  resolves : ∀ {gs : Groups} {i b o}, o < blockNitem → gs.block i = some b →
    resolve gs (entry i b o) = some (b, o)

/-! ## The machine -/

/-- Where a thread stands. In `get`: in front of the unlocked test of the list of free chunks, of
the locked one, of taking from the chunk it popped, of its own block; the steps of `add_block` with
the new block, and of `add_block_group`; in front of the constructor and of `++nitem`. In
`return_object`: in front of `push_free_chunk`, with what is returned. -/
inductive Pc (κ : Type*) where
  | idle
  | lookup
  | popping
  | taking
  | local
  | load (b : ℕ)
  | fetch (b ngroup : ℕ)
  | store (b g k : ℕ)
  | back (b ngroup : ℕ)
  | group (b ngroup : ℕ)
  | publish (b ngroup : ℕ)
  | construct
  | constructed (off : ℕ)
  | pushing (x : κ)

/-- The threads' local pools, with the top of `_cur_free.ptrs` at the head; the pool; the ends of
the blocks. `beyond` are the threads that counted past the end of a group. `owned` is what was got
and not returned, `handed` what a block ever handed out, `got` what every `get` gave, `constructed`
the items that were constructed and found valid; `broken` is a read outside of a chunk or of a NULL
pointer. -/
structure State (ι κ : Type*) where
  localPool : ι → Bool
  curBlock : ι → Option ℕ
  curBlockIndex : ι → ℕ
  curFree : ι → List κ
  pc : ι → Pc κ
  freeChunks : List (List κ)
  groups : Groups
  ngroup : ℕ
  groupMutex : Option ι
  nitem : ℕ → ℕ
  nextBlock : ℕ
  beyond : ℕ → List ι
  owned : List κ
  handed : List (κ × Item)
  got : List (κ × Item)
  constructed : List Item
  broken : Bool

def start (ι κ : Type*) : State ι κ where
  localPool _ := false
  curBlock _ := none
  curBlockIndex _ := 0
  curFree _ := []
  pc _ := .idle
  freeChunks := []
  groups _ := none
  ngroup := 0
  groupMutex := none
  nitem _ := 0
  nextBlock := 0
  beyond _ := []
  owned := []
  handed := []
  got := []
  constructed := []
  broken := false

/-- One label of a run. `ok` is whether an allocation succeeds or a constructed item is valid;
`limit` is what `FreeChunkMaxItem::value()` gives. -/
inductive Act (ι κ : Type*) where
  | get (t : ι) (ok : Bool)
  | ret (t : ι) (x : κ) (limit : ℕ) (ok : Bool)
  | go (t : ι) (ok : Bool)
  | exit (t : ι) (ok : Bool)

/-- Thread `t` goes to `c`. -/
def State.goto (s : State ι κ) (t : ι) (c : Pc κ) : State ι κ :=
  { s with pc := update s.pc t c }

/-- `get_or_new_local_pool`, when the allocation succeeds. -/
def State.getOrNewLocalPool (s : State ι κ) (t : ι) : State ι κ :=
  if s.localPool t then s
  else
    { s with
      localPool := update s.localPool t true
      curBlock := update s.curBlock t none
      curBlockIndex := update s.curBlockIndex t 0
      curFree := update s.curFree t [] }

/-- `free_chunk_nitem`. -/
def freeChunkNitem (K : Kind κ) (limit : ℕ) : ℕ :=
  if limit < K.blockNitem then limit else K.blockNitem

/-- `return _cur_free.ptrs[--_cur_free.nfree]`. -/
def take (K : Kind κ) (s : State ι κ) (t : ι) : State ι κ :=
  match s.curFree t with
  | [] => { s with broken := true }.goto t .idle
  | x :: rest =>
    match K.resolve s.groups x with
    | none => { s with broken := true }.goto t .idle
    | some p =>
      { s with
        curFree := update s.curFree t rest
        owned := x :: s.owned
        got := (x, p) :: s.got }.goto t .idle

/-- `get`, up to its first access to what is shared. -/
def getStep (K : Kind κ) (s : State ι κ) (t : ι) : State ι κ :=
  if s.curFree t ≠ [] then take K s t else s.goto t .lookup

/-- The locked part of `pop_free_chunk`, and the copy of the chunk. -/
def popFreeChunk (s : State ι κ) (t : ι) : State ι κ :=
  match s.freeChunks with
  | [] => s.goto t .local
  | c :: cs => { s with freeChunks := cs, curFree := update s.curFree t c }.goto t .taking

/-- From the test of the own block to the allocation of a new one. -/
def localStep (K : Kind κ) (s : State ι κ) (t : ι) (ok : Bool) : State ι κ :=
  if ∃ b ∈ s.curBlock t, s.nitem b < K.blockNitem then s.goto t .construct
  else if ok then { s with nextBlock := s.nextBlock + 1 }.goto t (.load s.nextBlock)
  else { s with curBlock := update s.curBlock t none }.goto t .idle

section

variable (s : State ι κ) (t : ι)

/-- `g->nblock.fetch_add`, with `g` the right-most group that was seen. -/
def fetchStep (b ngroup : ℕ) : State ι κ :=
  match s.groups (ngroup - 1) with
  | none => { s with broken := true }.goto t .idle
  | some g =>
    let s' := { s with
      groups := update s.groups (ngroup - 1) (some { g with nblock := g.nblock + 1 }) }
    if g.nblock < groupNblock then s'.goto t (.store b (ngroup - 1) g.nblock)
    else { s' with
      beyond := update s.beyond (ngroup - 1) (t :: s.beyond (ngroup - 1)) }.goto t (.back b ngroup)

/-- `g->blocks[block_index].store`; the block is now that of the thread. -/
def storeStep (b g k : ℕ) : State ι κ :=
  match s.groups g with
  | none => { s with broken := true }.goto t .idle
  | some bg =>
    { s with
      groups := update s.groups g
        (some { bg with blocks := update bg.blocks k (some b) })
      curBlock := update s.curBlock t (some b)
      curBlockIndex := update s.curBlockIndex t (g * groupNblock + k) }.goto t .construct

/-- `g->nblock.fetch_sub`. -/
def backStep (b ngroup : ℕ) : State ι κ :=
  match s.groups (ngroup - 1) with
  | none => { s with broken := true }.goto t .idle
  | some g =>
    { s with
      groups := update s.groups (ngroup - 1) (some { g with nblock := g.nblock - 1 })
      beyond := update s.beyond (ngroup - 1) ((s.beyond (ngroup - 1)).erase t) }.goto t
      (.group b ngroup)

/-- `add_block_group` up to the store of the new group, with `_block_group_mutex`; without a group
the new block is deleted and there is none. -/
def groupStep (b ngroup : ℕ) (ok : Bool) : State ι κ :=
  if s.groupMutex ≠ none then s
  else if s.ngroup ≠ ngroup then s.goto t (.load b)
  else if ngroup < maxBlockNgroup ∧ ok then
    { s with
      groups := update s.groups ngroup (some .new)
      groupMutex := some t }.goto t (.publish b ngroup)
  else { s with curBlock := update s.curBlock t none }.goto t .idle

def constructStep : State ι κ :=
  match s.curBlock t with
  | none => { s with broken := true }.goto t .idle
  | some b => s.goto t (.constructed (s.nitem b))

end

/-- The validation, and `++_cur_block->nitem` for an item that is valid. -/
def validateStep (K : Kind κ) (s : State ι κ) (t : ι) (off : ℕ) (ok : Bool) : State ι κ :=
  match s.curBlock t with
  | none => { s with broken := true }.goto t .idle
  | some b =>
    if ok then
      let x := K.entry (s.curBlockIndex t) b off
      { s with
        nitem := update s.nitem b (s.nitem b + 1)
        owned := x :: s.owned
        handed := (x, b, off) :: s.handed
        got := (x, b, off) :: s.got
        constructed := (b, off) :: s.constructed }.goto t .idle
    else s.goto t .idle

/-- `push_free_chunk`, and the chunk that starts with what is returned; without memory the owner
still has it. -/
def pushStep (s : State ι κ) (t : ι) (x : κ) (ok : Bool) : State ι κ :=
  if ok then
    { s with
      freeChunks := s.curFree t :: s.freeChunks
      curFree := update s.curFree t [x] }.goto t .idle
  else { s with owned := x :: s.owned }.goto t .idle

/-- The next step of thread `t`. -/
def goStep (K : Kind κ) (s : State ι κ) (t : ι) (ok : Bool) : State ι κ :=
  match s.pc t with
  | .idle => s
  | .lookup => s.goto t (if s.freeChunks = [] then .local else .popping)
  | .popping => popFreeChunk s t
  | .taking => take K s t
  | .local => localStep K s t ok
  | .load b => s.goto t (if 1 ≤ s.ngroup then .fetch b s.ngroup else .group b s.ngroup)
  | .fetch b ngroup => fetchStep s t b ngroup
  | .store b g k => storeStep s t b g k
  | .back b ngroup => backStep s t b ngroup
  | .group b ngroup => groupStep s t b ngroup ok
  | .publish b ngroup => { s with ngroup := ngroup + 1, groupMutex := none }.goto t (.load b)
  | .construct => constructStep s t
  | .constructed off => validateStep K s t off ok
  | .pushing x => pushStep s t x ok

/-- `return_object` and `return_resource`, up to `push_free_chunk`. -/
def retStep [DecidableEq κ] (K : Kind κ) (s : State ι κ) (t : ι) (x : κ) (limit : ℕ) : State ι κ :=
  if (s.curFree t).length < freeChunkNitem K limit then
    { s with
      owned := s.owned.erase x
      curFree := update s.curFree t (x :: s.curFree t) }
  else { s with owned := s.owned.erase x }.goto t (.pushing x)

/-- The destructor of the local pool, at the exit of the thread or by `clear_objects`. -/
def exitStep (s : State ι κ) (t : ι) (ok : Bool) : State ι κ :=
  { s with
    freeChunks := if s.curFree t ≠ [] ∧ ok then s.curFree t :: s.freeChunks else s.freeChunks
    localPool := update s.localPool t false
    curBlock := update s.curBlock t none
    curFree := update s.curFree t [] }

def step [DecidableEq κ] (K : Kind κ) (s : State ι κ) : Act ι κ → State ι κ
  | .get t ok =>
    match s.pc t with
    | .idle => if s.localPool t ∨ ok then getStep K (s.getOrNewLocalPool t) t else s
    | _ => s
  | .ret t x limit ok =>
    match s.pc t with
    | .idle =>
      if x ∈ s.owned ∧ (s.localPool t ∨ ok) then retStep K (s.getOrNewLocalPool t) t x limit else s
    | _ => s
  | .go t ok => goStep K s t ok
  | .exit t ok =>
    match s.pc t with
    | .idle => if s.localPool t then exitStep s t ok else s
    | _ => s

/-! ## The invariant -/

inductive Place (ι : Type*) where
  | owned
  | chunks
  | at (t : ι)

def Pc.carried : Pc κ → List κ
  | .pushing x => [x]
  | _ => []

def Pc.newBlock : Pc κ → Option ℕ
  | .load b | .fetch b _ | .store b _ _ | .back b _ | .group b _ | .publish b _ => some b
  | _ => none

def Pc.slot : Pc κ → Option (ℕ × ℕ)
  | .store _ g k => some (g, k)
  | _ => none

/-- The group that the thread counted past the end of. -/
def Pc.past : Pc κ → Option ℕ
  | .back _ ngroup => some (ngroup - 1)
  | _ => none

/-- The thread is not at work on a new block. -/
structure Pc.Plain (c : Pc κ) : Prop where
  newBlock : c.newBlock = none
  slot : c.slot = none
  past : c.past = none

def State.content (s : State ι κ) : Place ι → List κ
  | .owned => s.owned
  | .chunks => s.freeChunks.flatten
  | .at t => (s.pc t).carried ++ s.curFree t

/-- `x` is the entry of the item `p`, which was constructed at the end of its block. -/
def State.Handed (K : Kind κ) (s : State ι κ) (x : κ) (p : Item) : Prop :=
  ∃ i, s.groups.block i = some p.1 ∧ p.2 < s.nitem p.1 ∧ x = K.entry i p.1 p.2

def State.Holds (s : State ι κ) (t : ι) (b : ℕ) : Prop :=
  s.curBlock t = some b ∨ (s.pc t).newBlock = some b

/-- A block that was allocated and that nobody has. -/
structure State.Fresh (s : State ι κ) (b : ℕ) : Prop where
  known : b < s.nextBlock
  nitem : s.nitem b = 0
  table : ∀ i, s.groups.block i ≠ some b
  holder : ∀ t, ¬ s.Holds t b

/-- The thread has a chunk that it will take from or push. -/
def Pc.usesChunk : Pc κ → Bool
  | .taking | .pushing _ => true
  | _ => false

/-- The entries: each is in one place and stands for an item of its own. -/
structure Entries (K : Kind κ) (s : State ι κ) : Prop where
  exclusive : Exclusive s.content
  entries : ∀ p, ∀ x ∈ s.content p, ∃ q, s.Handed K x q
  chunks : ∀ c ∈ s.freeChunks, c ≠ [] ∧ c.length ≤ K.blockNitem
  fits : ∀ t, (s.curFree t).length ≤ K.blockNitem
  ready : ∀ t, (s.pc t).usesChunk → s.curFree t ≠ []
  log : ∀ x p, (x, p) ∈ s.handed ↔ s.Handed K x p
  got : ∀ e ∈ s.got, e ∈ s.handed
  constructed : ∀ b o, (b, o) ∈ s.constructed ↔ o < s.nitem b

/-- What holds of the block of thread `t` at `c`. -/
def ThreadOk (K : Kind κ) (s : State ι κ) (t : ι) : Pc κ → Prop
  | .fetch _ ngroup | .back _ ngroup => 1 ≤ ngroup ∧ ngroup ≤ s.ngroup
  | .store _ g k => k < groupNblock ∧ ∃ bg, s.groups g = some bg ∧ k < bg.nblock ∧ bg.blocks k = none
  | .publish _ ngroup => s.groupMutex = some t ∧ ngroup = s.ngroup ∧ ∃ bg, s.groups ngroup = some bg
  | .construct => ∃ b, s.curBlock t = some b ∧ s.nitem b < K.blockNitem
  | .constructed off => ∃ b, s.curBlock t = some b ∧ s.nitem b = off ∧ off < K.blockNitem
  | _ => True

/-- The blocks: each has one place in the tables and one thread, and is filled up to its end. -/
structure Blocks (K : Kind κ) (s : State ι κ) : Prop where
  nitem : ∀ b, s.nitem b ≤ K.blockNitem
  table : ∀ i j b, s.groups.block i = some b → s.groups.block j = some b → i = j
  known : ∀ i b, s.groups.block i = some b → b < s.nextBlock
  unused : ∀ b, s.nextBlock ≤ b → s.nitem b = 0
  held : ∀ t b, s.Holds t b → b < s.nextBlock
  holder : ∀ t t' b, s.Holds t b → s.Holds t' b → t = t'
  new : ∀ t b, (s.pc t).newBlock = some b → s.nitem b = 0 ∧ ∀ i, s.groups.block i ≠ some b
  cur : ∀ t b, s.curBlock t = some b → s.groups.block (s.curBlockIndex t) = some b
  group : ∀ g < s.ngroup, ∃ bg, s.groups g = some bg
  bound : ∀ g bg, s.groups g = some bg → g < maxBlockNgroup
  noGroup : ∀ g, s.ngroup < g ∨ (g = s.ngroup ∧ s.groupMutex = none) → s.groups g = none
  mutex : ∀ t, s.groupMutex = some t → ∃ b, s.pc t = .publish b s.ngroup
  slot : ∀ t t' a, (s.pc t).slot = some a → (s.pc t').slot = some a → t = t'
  filled : ∀ g bg k b, s.groups g = some bg → bg.blocks k = some b →
    k < bg.nblock ∧ k < groupNblock
  beyond : ∀ g, (s.beyond g).Nodup ∧ ∀ t, t ∈ s.beyond g ↔ (s.pc t).past = some g
  past : ∀ g bg, s.groups g = some bg → s.beyond g ≠ [] → groupNblock + (s.beyond g).length ≤ bg.nblock
  threads : ∀ t, ThreadOk K s t (s.pc t)

open State

structure Inv (K : Kind κ) (s : State ι κ) : Prop where
  entries : Entries K s
  blocks : Blocks K s
  sound : s.broken = false

section Inv

variable {K : Kind κ} {s s' : State ι κ} {t t' : ι} {c : Pc κ} {b g k : ℕ} {ng : ℕ} {ok : Bool}
  {ci : ι → ℕ} {ov : ℕ → List ι}

@[simp] theorem goto_self : (s.goto t c).pc t = c := update_self ..

theorem goto_ne (h : t' ≠ t) : (s.goto t c).pc t' = s.pc t' := update_of_ne h ..

theorem update_same (h : s.pc t = c) : update s.pc t c = s.pc := by
  rw [← h, update_eq_self]

section

omit [DecidableEq ι]

theorem content_start (p : Place ι) : (start ι κ).content p = [] := by
  cases p <;> rfl

theorem not_holds_start (t : ι) (b : ℕ) : ¬(start ι κ).Holds t b := by
  rintro (h | h) <;> exact absurd h nofun

theorem entries_start : Entries K (start ι κ) where
  exclusive := by
    constructor
    · intro p
      rw [content_start]
      exact nodup_nil
    · intro p q _
      rw [content_start]
      exact disjoint_nil_left _
  entries p x hx := by
    rw [content_start] at hx
    exact absurd hx not_mem_nil
  chunks _ h := absurd h not_mem_nil
  fits _ := Nat.zero_le _
  ready _ h := absurd h nofun
  log x p := ⟨fun h => absurd h not_mem_nil, fun ⟨_, h, _⟩ => absurd h nofun⟩
  got _ h := absurd h not_mem_nil
  constructed b o := ⟨fun h => absurd h not_mem_nil, fun h => absurd h (Nat.not_lt_zero _)⟩

theorem blocks_start : Blocks K (start ι κ) where
  nitem _ := Nat.zero_le _
  table _ _ _ h := absurd h nofun
  known _ _ h := absurd h nofun
  unused _ _ := rfl
  held t b h := absurd h (not_holds_start t b)
  holder t _ b h := absurd h (not_holds_start t b)
  new _ _ h := absurd h nofun
  cur _ _ h := absurd h nofun
  group _ h := absurd h (Nat.not_lt_zero _)
  bound _ _ h := absurd h nofun
  noGroup _ _ := rfl
  mutex _ h := absurd h nofun
  slot _ _ _ h := absurd h nofun
  filled _ _ _ _ h := absurd h nofun
  beyond _ := ⟨nodup_nil, fun _ => ⟨fun h => absurd h not_mem_nil, fun h => absurd h nofun⟩⟩
  past _ _ h _ := absurd h nofun
  threads _ := trivial

theorem inv_start : Inv K (start ι κ) where
  entries := entries_start
  blocks := blocks_start
  sound := rfl

end

/-! ### A thread goes on -/

section

variable (hnew : ∀ b, c.newBlock = some b → (s.pc t).newBlock = some b ∨ s.Fresh b)
include hnew

theorem newBlock_goto
    (hb : ((s.goto t c).pc t').newBlock = some b) :
    (s.pc t').newBlock = some b ∨ (t' = t ∧ s.Fresh b) := by
  obtain rfl | ht := eq_or_ne t' t
  · rw [goto_self] at hb
    exact (hnew b hb).imp id fun hf => ⟨rfl, hf⟩
  · rw [goto_ne ht] at hb
    exact .inl hb

theorem holds_goto
    (hb : (s.goto t c).Holds t' b) : s.Holds t' b ∨ (t' = t ∧ s.Fresh b) := by
  cases hb with
  | inl hcur => exact .inl (.inl hcur)
  | inr hb => exact (newBlock_goto hnew hb).imp .inr id

end

section

variable (h : Blocks K s)
include h

section

variable (hnew : ∀ b, c.newBlock = some b → (s.pc t).newBlock = some b ∨ s.Fresh b)
include hnew

theorem held_goto (t' : ι) (b : ℕ)
    (hb : (s.goto t c).Holds t' b) : b < s.nextBlock :=
  (holds_goto hnew hb).elim (h.held t' b) fun hf => hf.2.known

theorem holder_goto (t1 t2 : ι) (b : ℕ)
    (h1 : (s.goto t c).Holds t1 b) (h2 : (s.goto t c).Holds t2 b) : t1 = t2 := by
  rcases holds_goto hnew h1 with k1 | ⟨e1, hf⟩ <;> rcases holds_goto hnew h2 with k2 | ⟨e2, hf'⟩
  · exact h.holder t1 t2 b k1 k2
  · exact absurd k1 (hf'.holder t1)
  · exact absurd k2 (hf.holder t2)
  · rw [e1, e2]

theorem new_goto (t' : ι) (b : ℕ)
    (hb : ((s.goto t c).pc t').newBlock = some b) :
    s.nitem b = 0 ∧ ∀ i, s.groups.block i ≠ some b :=
  (newBlock_goto hnew hb).elim (h.new t' b) fun hf => ⟨hf.2.nitem, hf.2.table⟩

end

theorem mutex_goto (hpub : s.groupMutex ≠ some t) (t' : ι)
    (ht' : s.groupMutex = some t') : ∃ b, (s.goto t c).pc t' = .publish b s.ngroup := by
  have hne : t' ≠ t := fun he => hpub (he ▸ ht')
  rw [goto_ne hne]
  exact h.mutex t' ht'

theorem slot_goto (hslot : ∀ a, c.slot = some a → ∀ t' ≠ t, (s.pc t').slot ≠ some a)
    (t1 t2 : ι) (a : ℕ × ℕ) (h1 : ((s.goto t c).pc t1).slot = some a)
    (h2 : ((s.goto t c).pc t2).slot = some a) : t1 = t2 := by
  by_cases ht1 : t1 = t <;> by_cases ht2 : t2 = t
  · rw [ht1, ht2]
  · rw [goto_ne ht2] at h2
    rw [ht1, goto_self] at h1
    exact absurd h2 (hslot a h1 t2 ht2)
  · rw [goto_ne ht1] at h1
    rw [ht2, goto_self] at h2
    exact absurd h1 (hslot a h2 t1 ht1)
  · rw [goto_ne ht1] at h1
    rw [goto_ne ht2] at h2
    exact h.slot t1 t2 a h1 h2

theorem beyond_goto (hpast : c.past = (s.pc t).past) (g : ℕ) :
    (s.beyond g).Nodup ∧ ∀ t', t' ∈ s.beyond g ↔ ((s.goto t c).pc t').past = some g := by
  refine ⟨(h.beyond g).1, fun t' => ?_⟩
  rw [(h.beyond g).2 t']
  obtain rfl | ht := eq_or_ne t' t
  · rw [goto_self, hpast]
  · rw [goto_ne ht]

end

theorem threads_goto (hok : ThreadOk K s' t c) (hrest : ∀ t' ≠ t, ThreadOk K s' t' (s.pc t')) (t' : ι) :
    ThreadOk K s' t' ((s.goto t c).pc t') := by
  obtain rfl | ht := eq_or_ne t' t
  · rw [goto_self]
    exact hok
  · rw [goto_ne ht]
    exact hrest t' ht

section

variable (h : Blocks K s) (hnew : ∀ b, c.newBlock = some b → (s.pc t).newBlock = some b ∨ s.Fresh b)
    (hslot : ∀ a, c.slot = some a → ∀ t' ≠ t, (s.pc t').slot ≠ some a)
include h hnew hslot

/-- A thread goes on, and it may be counted in or out among those past the end of a group. -/
theorem Blocks.gotoBeyond
    (hov : ∀ g, (ov g).Nodup ∧ ∀ t', t' ∈ ov g ↔ ((s.goto t c).pc t').past = some g)
    (hpast : ∀ g bg, s.groups g = some bg → ov g ≠ [] → groupNblock + (ov g).length ≤ bg.nblock)
    (hpub : s.groupMutex ≠ some t) (hok : ThreadOk K s t c) :
    Blocks K ({ s with beyond := ov }.goto t c) :=
  { h with
    held := held_goto (s := s) h hnew
    holder := holder_goto (s := s) h hnew
    new := new_goto (s := s) h hnew
    mutex := mutex_goto h hpub
    slot := slot_goto (s := s) h hslot
    beyond := hov
    past := hpast
    threads := by
      intro t'
      have hok' : ThreadOk K ({ s with beyond := ov }.goto t c) t c := hok
      exact threads_goto hok' (fun t' _ => h.threads t') t' }

theorem Blocks.goto
    (hpast : c.past = (s.pc t).past) (hpub : s.groupMutex ≠ some t) (hok : ThreadOk K s t c) :
    Blocks K (s.goto t c) :=
  h.gotoBeyond hnew hslot (beyond_goto h hpast) h.past hpub hok

end

omit [DecidableEq ι] in
theorem Blocks.mutex_ne (h : Blocks K s) (hc : (s.pc t).newBlock = none) :
    s.groupMutex ≠ some t := by
  intro hm
  obtain ⟨b, hb⟩ := h.mutex t hm
  rw [hb] at hc
  cases hc

theorem Blocks.gotoPlain (h : Blocks K s) (hpc : (s.pc t).Plain) (hc : c.Plain)
    (hok : ThreadOk K s t c) : Blocks K (s.goto t c) :=
  h.goto (by simp [hc.newBlock]) (by simp [hc.slot]) (hc.past.trans hpc.past.symm)
    (h.mutex_ne hpc.newBlock) hok

theorem content_goto (hcar : c.carried = (s.pc t).carried) : (s.goto t c).content = s.content := by
  ext p : 1
  cases p with
  | owned | chunks => rfl
  | «at» t' =>
    obtain rfl | ht := eq_or_ne t' t
    · simp only [content, goto_self, hcar]
      rfl
    · simp only [content, goto_ne ht]
      rfl

theorem Entries.goto (h : Entries K s) (hcar : c.carried = (s.pc t).carried)
    (huse : c.usesChunk → (s.pc t).usesChunk) : Entries K (s.goto t c) :=
  { h with
    exclusive := content_goto hcar ▸ h.exclusive
    entries := content_goto hcar ▸ h.entries
    ready := fun t' ht' => by
      obtain rfl | ht := eq_or_ne t' t
      · rw [goto_self] at ht'
        exact h.ready t' (huse ht')
      · rw [goto_ne ht] at ht'
        exact h.ready t' ht' }

/-! ### Entries are moved -/

/-- Entries are moved between thread `t` and the owners or the global list. -/
theorem Entries.move (h : Entries K s) {o : List κ} {f : List (List κ)} {l : List κ}
    {g : List (κ × Item)} {lp : ι → Bool} {q : Place ι}
    (hs' : s' = { s with
      owned := o, freeChunks := f, curFree := update s.curFree t l, got := g,
      localPool := lp }.goto t c)
    (hq : (q = .owned ∧ f = s.freeChunks) ∨ (q = .chunks ∧ o = s.owned))
    (huse : c.usesChunk → l ≠ [])
    (hsub : (c.carried ++ l ++ s'.content q).Subperm
      ((s.pc t).carried ++ s.curFree t ++ s.content q))
    (hchunks : ∀ ch ∈ f, ch ≠ [] ∧ ch.length ≤ K.blockNitem)
    (hfits : l.length ≤ K.blockNitem) (hgot : ∀ e ∈ g, e ∈ s.handed) : Entries K s' := by
  have hat : s'.content (.at t) = c.carried ++ l := by simp [hs', State.content, State.goto]
  have hne : Place.at t ≠ q := by rcases hq with ⟨rfl, _⟩ | ⟨rfl, _⟩ <;> nofun
  have hsub' : (s'.content (.at t) ++ s'.content q).Subperm (s.content (.at t) ++ s.content q) := by
    rw [hat]
    exact hsub
  have hrest : ∀ r, r ≠ .at t → r ≠ q → s'.content r = s.content r := by
    subst hs'
    intro r hr hrq
    cases r with
    | owned =>
      rcases hq with ⟨rfl, _⟩ | ⟨_, ho⟩
      · exact absurd rfl hrq
      · exact ho
    | chunks =>
      rcases hq with ⟨_, hf⟩ | ⟨rfl, _⟩
      · exact congrArg flatten hf
      · exact absurd rfl hrq
    | «at» t' =>
      have ht : t' ≠ t := fun he => hr (he ▸ rfl)
      simp [State.content, State.goto, update_of_ne ht]
  have hexc := h.exclusive.move hne hsub' hrest
  have hent : ∀ p, ∀ x ∈ s'.content p, ∃ q, s.Handed K x q := fun p x hx => by
    obtain ⟨r, hr⟩ := Exclusive.mem_of_move hsub' hrest hx
    exact h.entries r x hr
  subst hs'
  exact { h with
    exclusive := hexc
    entries := hent
    chunks := hchunks
    fits := fun t' => by
      obtain rfl | ht := eq_or_ne t' t
      · simpa [State.goto] using hfits
      · simpa [State.goto, update_of_ne ht] using h.fits t'
    ready := fun t' ht' => by
      obtain rfl | ht := eq_or_ne t' t
      · rw [goto_self] at ht'
        simpa [State.goto] using huse ht'
      · rw [goto_ne ht] at ht'
        simpa [State.goto, update_of_ne ht] using h.ready t' ht'
    got := hgot }

omit [DecidableEq ι] in
theorem Inv.resolve (h : Inv K s) {x : κ} {p : Item} (hx : s.Handed K x p) :
    K.resolve s.groups x = some p := by
  obtain ⟨i, hb, ho, rfl⟩ := hx
  exact K.resolves (lt_of_lt_of_le ho (h.blocks.nitem p.1)) hb

theorem take_inv (h : Inv K s) (hpc : (s.pc t).Plain) (hne : s.curFree t ≠ []) :
    Inv K (take K s t) := by
  obtain ⟨x, rest, hl⟩ := exists_cons_of_ne_nil hne
  obtain ⟨p, hp⟩ := h.entries.entries (.at t) x (by simp [content, hl])
  have hfit := h.entries.fits t
  simp only [hl, length_cons] at hfit
  simp only [take, hl, h.resolve hp]
  refine ⟨h.entries.move rfl (.inl ⟨rfl, rfl⟩) nofun ?_ h.entries.chunks (by lia) ?_,
    { h.blocks.gotoPlain (c := .idle) hpc ⟨rfl, rfl, rfl⟩ trivial with }, h.sound⟩
  · have hperm : (rest ++ x :: s.owned).Perm (x :: rest ++ s.owned) := perm_middle
    refine hperm.subperm.trans ?_
    rw [hl, append_assoc]
    exact (sublist_append_right ..).subperm
  · intro e he
    cases mem_cons.1 he with
    | inl he => exact he ▸ (h.entries.log x p).2 hp
    | inr he => exact h.entries.got e he

theorem popFreeChunk_inv (h : Inv K s) (hpc : s.pc t = .popping) : Inv K (popFreeChunk s t) := by
  have hplain : (s.pc t).Plain := hpc ▸ ⟨rfl, rfl, rfl⟩
  cases hf : s.freeChunks with
  | nil =>
    simp only [popFreeChunk, hf]
    exact ⟨h.entries.goto (by rw [hpc]; rfl) nofun, h.blocks.gotoPlain hplain ⟨rfl, rfl, rfl⟩ trivial,
      h.sound⟩
  | cons ch cs =>
    simp only [popFreeChunk, hf]
    have hch := h.entries.chunks ch (by simp [hf])
    refine ⟨h.entries.move rfl (.inr ⟨rfl, rfl⟩) (fun _ => hch.1) ?_
      (fun ch' hch' => h.entries.chunks ch' (by simp [hf, hch'])) hch.2 h.entries.got,
      { h.blocks.gotoPlain (c := .taking) hplain ⟨rfl, rfl, rfl⟩ trivial with }, h.sound⟩
    simp only [content, hf, flatten_cons]
    exact (sublist_append_right ..).subperm

/-! ### Blocks are added -/

section

omit [DecidableEq ι]

theorem Entries.regroup (h : Entries K s) {gs : Groups} {nb : ℕ} {m : Option ι}
    {cb : ι → Option ℕ}
    (hg : ∀ x p, State.Handed K { s with groups := gs } x p ↔ s.Handed K x p) :
    Entries K { s with
      groups := gs, ngroup := ng, groupMutex := m, nextBlock := nb, beyond := ov, curBlock := cb,
      curBlockIndex := ci } :=
  { h with
    entries := fun p x hx => by
      obtain ⟨q, hq⟩ := h.entries p x hx
      exact ⟨q, (hg x q).2 hq⟩
    log := fun x p => (h.log x p).trans (hg x p).symm }

theorem handed_congr {gs : Groups} (hb : gs.block = s.groups.block) (x : κ) (p : Item) :
    State.Handed K { s with groups := gs } x p ↔ s.Handed K x p := by
  simp only [State.Handed, hb]

theorem Blocks.setNblock (h : Blocks K s) {bg : BlockGroup} {n : ℕ} (hg : s.groups g = some bg)
    (hle : bg.nblock ≤ n ∨ groupNblock ≤ n)
    (hpast : s.beyond g ≠ [] → groupNblock + (s.beyond g).length ≤ n) :
    Blocks K { s with groups := update s.groups g (some { bg with nblock := n }) } := by
  have hb := Groups.block_setNblock (n := n) hg
  exact { h with
    table := hb ▸ h.table
    known := hb ▸ h.known
    new := fun t b ht => ⟨(h.new t b ht).1, fun i => by rw [hb]; exact (h.new t b ht).2 i⟩
    cur := hb ▸ h.cur
    group := fun g' hg' => by
      by_cases he : g' = g
      · exact ⟨_, Groups.update_eq_some.2 (.inl ⟨he, rfl⟩)⟩
      · obtain ⟨x, hx⟩ := h.group g' hg'
        exact ⟨x, Groups.update_eq_some.2 (.inr ⟨he, hx⟩)⟩
    bound := fun g' x hx => by
      rcases Groups.update_eq_some.1 hx with ⟨rfl, _⟩ | ⟨_, hx⟩
      · exact h.bound g' bg hg
      · exact h.bound g' x hx
    noGroup := fun g' hg' => by
      have hnone := h.noGroup g' hg'
      have hne : g' ≠ g := fun he => by rw [he, hg] at hnone; cases hnone
      exact (update_of_ne hne ..).trans hnone
    filled := fun g' x k b hx hk => by
      rcases Groups.update_eq_some.1 hx with ⟨rfl, rfl⟩ | ⟨_, hx⟩
      · have := h.filled g' bg k b hg hk
        exact ⟨by show k < n; lia, this.2⟩
      · exact h.filled g' x k b hx hk
    past := fun g' x hx ho => by
      rcases Groups.update_eq_some.1 hx with ⟨rfl, rfl⟩ | ⟨_, hx⟩
      · exact hpast ho
      · exact h.past g' x hx ho
    threads := fun t' => by
      have hok := h.threads t'
      cases hq : s.pc t' <;> rw [hq] at hok <;> try exact hok
      case store b g' k =>
        obtain ⟨hk, x, hx, hkx, hnone⟩ := hok
        refine ⟨hk, ?_⟩
        obtain rfl | he := eq_or_ne g' g
        · obtain rfl : x = bg := some.inj (hx.symm.trans hg)
          exact ⟨_, Groups.update_eq_some.2 (.inl ⟨rfl, rfl⟩), by show k < n; lia, hnone⟩
        · exact ⟨x, Groups.update_eq_some.2 (.inr ⟨he, hx⟩), hkx, hnone⟩
      case publish b ng =>
        obtain ⟨hm, hng, x, hx⟩ := hok
        refine ⟨hm, hng, ?_⟩
        by_cases he : ng = g
        · exact ⟨_, Groups.update_eq_some.2 (.inl ⟨he, rfl⟩)⟩
        · exact ⟨x, Groups.update_eq_some.2 (.inr ⟨he, hx⟩)⟩ }

end

/-- `nblock.fetch_add`: the place that was counted is empty and nobody is about to fill it, or the
group is full. -/
theorem fetchStep_inv (h : Inv K s) (hpc : s.pc t = .fetch b ng) :
    Inv K (fetchStep s t b ng) := by
  have hok := h.blocks.threads t
  rw [hpc] at hok
  obtain ⟨bg, hbg⟩ := h.blocks.group (ng - 1) (by have := hok.1; have := hok.2; lia)
  have hcount := h.blocks.setNblock (n := bg.nblock + 1) hbg (.inl (Nat.le_succ _)) fun ho => by
    have := h.blocks.past _ bg hbg ho
    lia
  have hpub : s.groupMutex ≠ some t := fun hm => by
    obtain ⟨_, hb⟩ := h.blocks.mutex t hm
    rw [hpc] at hb
    cases hb
  have hent := handed_congr (K := K) (Groups.block_setNblock (n := bg.nblock + 1) hbg)
  simp only [fetchStep, hbg]
  split
  case isTrue hlt =>
    refine ⟨(h.entries.goto (by rw [hpc]; rfl) (by nofun)).regroup hent,
      hcount.goto ?_ ?_ ?_ hpub ?_, h.sound⟩
    · intro b' hb'
      exact .inl (by rw [hpc]; exact hb')
    · rintro _ ⟨rfl⟩ t' - hslot
      have hok' := h.blocks.threads t'
      cases hq : s.pc t' <;> simp only [hq, Pc.slot] at hslot <;> try cases hslot
      rw [hq] at hok'
      obtain ⟨_, x, hx, hkx, _⟩ := hok'
      obtain rfl : x = bg := some.inj (hx.symm.trans hbg)
      lia
    · rw [hpc]; rfl
    · refine ⟨hlt, _, Groups.update_eq_some.2 (.inl ⟨rfl, rfl⟩), Nat.lt_succ_self _, ?_⟩
      cases hk : bg.blocks bg.nblock with
      | none => rfl
      | some b' => exact absurd (h.blocks.filled _ bg _ b' hbg hk).1 (lt_irrefl _)
  case isFalse hge =>
    have hnot : t ∉ s.beyond (ng - 1) := fun hm => by
      have := ((h.blocks.beyond (ng - 1)).2 t).1 hm
      rw [hpc] at this
      cases this
    refine ⟨(h.entries.goto (by rw [hpc]; rfl) (by nofun)).regroup hent,
      hcount.gotoBeyond ?_ nofun ?_ ?_ hpub hok, h.sound⟩
    · intro b' hb'
      exact .inl (by rw [hpc]; exact hb')
    · intro g
      by_cases hg : g = ng - 1
      · subst hg
        rw [update_self]
        refine ⟨nodup_cons.2 ⟨hnot, (h.blocks.beyond _).1⟩, fun t' => ?_⟩
        obtain rfl | ht := eq_or_ne t' t
        · simp [Pc.past]
        · rw [goto_ne ht, mem_cons]
          simp only [ht, false_or]
          exact (h.blocks.beyond (ng - 1)).2 t'
      · rw [update_of_ne hg]
        refine ⟨(h.blocks.beyond g).1, fun t' => ?_⟩
        obtain rfl | ht := eq_or_ne t' t
        · rw [goto_self, (h.blocks.beyond g).2 t', hpc]
          simp [Pc.past, eq_comm, hg]
        · rw [goto_ne ht]
          exact (h.blocks.beyond g).2 t'
    · intro g x hx ho
      rcases Groups.update_eq_some.1 hx with ⟨rfl, rfl⟩ | ⟨hg, hx⟩
      · rw [update_self, length_cons]
        by_cases hnil : s.beyond (ng - 1) = []
        · rw [hnil]
          show groupNblock + (0 + 1) ≤ bg.nblock + 1
          lia
        · have := h.blocks.past _ bg hbg hnil
          show _ ≤ bg.nblock + 1
          lia
      · rw [update_of_ne hg] at ho ⊢
        exact h.blocks.past g x hx ho

theorem backStep_inv (h : Inv K s) (hpc : s.pc t = .back b ng) :
    Inv K (backStep s t b ng) := by
  have hok := h.blocks.threads t
  rw [hpc] at hok
  obtain ⟨bg, hbg⟩ := h.blocks.group (ng - 1) (by have := hok.1; have := hok.2; lia)
  have hmem : t ∈ s.beyond (ng - 1) := ((h.blocks.beyond _).2 t).2 (by rw [hpc]; rfl)
  have hlen : ((s.beyond (ng - 1)).erase t).length + 1 = (s.beyond (ng - 1)).length := by
    rw [length_erase_of_mem hmem]
    have := length_pos_of_mem hmem
    lia
  have hlong := h.blocks.past _ bg hbg (ne_nil_of_mem hmem)
  have hpub : s.groupMutex ≠ some t := fun hm => by
    obtain ⟨_, hb⟩ := h.blocks.mutex t hm
    rw [hpc] at hb
    cases hb
  have hover : Blocks K ({ s with
      beyond := update s.beyond (ng - 1) ((s.beyond (ng - 1)).erase t) }.goto t (.group b ng)) := by
    refine h.blocks.gotoBeyond ?_ nofun ?_ ?_ hpub trivial
    · intro b' hb'
      exact .inl (by rw [hpc]; exact hb')
    · intro g
      by_cases hg : g = ng - 1
      · subst hg
        rw [update_self]
        refine ⟨(h.blocks.beyond _).1.erase t, fun t' => ?_⟩
        rw [(h.blocks.beyond _).1.mem_erase_iff]
        obtain rfl | ht := eq_or_ne t' t
        · simp [Pc.past]
        · rw [goto_ne ht, (h.blocks.beyond _).2 t']
          simp [ht]
      · rw [update_of_ne hg]
        refine ⟨(h.blocks.beyond g).1, fun t' => ?_⟩
        rw [(h.blocks.beyond g).2 t']
        obtain rfl | ht := eq_or_ne t' t
        · rw [goto_self, hpc]
          simp [Pc.past, eq_comm, hg]
        · rw [goto_ne ht]
    · intro g x hx ho
      by_cases hg : g = ng - 1
      · subst hg
        obtain rfl : x = bg := some.inj (hx.symm.trans hbg)
        rw [update_self]
        lia
      · rw [update_of_ne hg] at ho ⊢
        exact h.blocks.past g x hx ho
  simp only [backStep, hbg]
  refine ⟨(h.entries.goto (by rw [hpc]; rfl) (by nofun)).regroup
    (handed_congr (Groups.block_setNblock hbg)), hover.setNblock hbg (.inr (by lia)) fun _ => ?_,
    h.sound⟩
  show groupNblock + (update s.beyond (ng - 1) ((s.beyond (ng - 1)).erase t) (ng - 1)).length ≤ _
  rw [update_self]
  lia

theorem storeStep_inv (h : Inv K s) (hpc : s.pc t = .store b g k) :
    Inv K (storeStep s t b g k) := by
  have hok := h.blocks.threads t
  rw [hpc] at hok
  obtain ⟨hk, bg, hbg, hkn, hnone⟩ := hok
  obtain ⟨hempty, hnew⟩ := h.blocks.new t b (by rw [hpc]; rfl)
  have hold : s.groups.block (g * groupNblock + k) = none := by
    simp only [Groups.block, index_div hk, index_mod hk, hbg, bind_some, hnone]
  have hblk := fun i => Groups.block_store hbg hk b i
  have hother : ∀ i b', b' ≠ b → ((Groups.block (update s.groups g
      (some { bg with blocks := update bg.blocks k (some b) })) i = some b') ↔
      s.groups.block i = some b') := by
    intro i b' hb'
    rw [hblk]
    split
    case isTrue hi => simp [hi, hold, Ne.symm hb']
    case isFalse => rfl
  have hself : ∀ i, Groups.block (update s.groups g
      (some { bg with blocks := update bg.blocks k (some b) })) i = some b ↔
      i = g * groupNblock + k := by
    intro i
    rw [hblk]
    split
    case isTrue hi => simp [hi]
    case isFalse hi => simp [hi, hnew i]
  have hholdsb : s.Holds t b := .inr (by rw [hpc]; rfl)
  have hheld : ∀ {t' b'}, (storeStep s t b g k).Holds t' b' → s.Holds t' b' := by
    intro t' b' hb'
    simp only [storeStep, hbg] at hb'
    obtain rfl | ht := eq_or_ne t' t
    · simp only [State.Holds, goto, update_self, some.injEq, Pc.newBlock] at hb'
      rcases hb' with rfl | hb'
      · exact hholdsb
      · cases hb'
    · simpa only [State.Holds, goto, update_of_ne ht] using hb'
  have hpub : s.groupMutex ≠ some t := fun hm => by
    obtain ⟨_, hb⟩ := h.blocks.mutex t hm
    rw [hpc] at hb
    cases hb
  have hgo := h.blocks.goto (t := t) (c := .idle) nofun nofun (by rw [hpc]; rfl) hpub trivial
  have hent : Entries K ({ s with
      groups := update s.groups g (some { bg with blocks := update bg.blocks k (some b) })
      curBlock := update s.curBlock t (some b)
      curBlockIndex := update s.curBlockIndex t (g * groupNblock + k) }.goto t .construct) := by
    refine (h.entries.goto (t := t) (c := .construct) (by rw [hpc]; rfl) (by nofun)).regroup
      fun x p => ?_
    by_cases hp : p.1 = b
    · simp only [State.Handed, goto, hp, hempty, Nat.not_lt_zero, false_and, and_false,
        exists_false]
    · simp only [State.Handed, goto, hother _ _ hp]
  simp only [storeStep, hbg] at hheld ⊢
  refine ⟨hent, ?_, h.sound⟩
  exact { hgo with
    table := fun i j b' hi hj => by
      obtain rfl | hb' := eq_or_ne b' b
      · exact ((hself i).1 hi).trans ((hself j).1 hj).symm
      · exact h.blocks.table i j b' ((hother i b' hb').1 hi) ((hother j b' hb').1 hj)
    known := fun i b' hi => by
      by_cases hb' : b' = b
      · exact hb' ▸ h.blocks.held t b hholdsb
      · exact h.blocks.known i b' ((hother i b' hb').1 hi)
    held := fun t' b' hb' => h.blocks.held t' b' (hheld hb')
    holder := fun t1 t2 b' h1 h2 => h.blocks.holder t1 t2 b' (hheld h1) (hheld h2)
    new := fun t' b' hb' => by
      obtain rfl | ht := eq_or_ne t' t
      · simp [Pc.newBlock] at hb'
      · rw [goto_ne ht] at hb'
        obtain ⟨hn, hi⟩ := h.blocks.new t' b' hb'
        have hne : b' ≠ b := fun he => ht (h.blocks.holder t' t b (he ▸ .inr hb') hholdsb)
        exact ⟨hn, fun i hi' => hi i ((hother i b' hne).1 hi')⟩
    cur := fun t' b' hb' => by
      obtain rfl | ht := eq_or_ne t' t
      · simp only [goto, update_self, some.injEq] at hb' ⊢
        rw [← hb', hblk, if_pos rfl]
      · simp only [goto, update_of_ne ht] at hb' ⊢
        have hne : b' ≠ b := fun he => ht (h.blocks.holder t' t b (he ▸ .inl hb') hholdsb)
        exact (hother _ b' hne).2 (h.blocks.cur t' b' hb')
    group := fun g' hg' => by
      by_cases he : g' = g
      · exact ⟨_, Groups.update_eq_some.2 (.inl ⟨he, rfl⟩)⟩
      · obtain ⟨x, hx⟩ := h.blocks.group g' hg'
        exact ⟨x, Groups.update_eq_some.2 (.inr ⟨he, hx⟩)⟩
    bound := fun g' x hx => by
      rcases Groups.update_eq_some.1 hx with ⟨rfl, _⟩ | ⟨_, hx⟩
      · exact h.blocks.bound g' bg hbg
      · exact h.blocks.bound g' x hx
    noGroup := fun g' hg' => by
      have hn := h.blocks.noGroup g' hg'
      have hne : g' ≠ g := fun he => by rw [he, hbg] at hn; cases hn
      exact (update_of_ne hne ..).trans hn
    filled := fun g' x k' b' hx hk' => by
      rcases Groups.update_eq_some.1 hx with ⟨rfl, rfl⟩ | ⟨_, hx⟩
      · obtain rfl | hkk := eq_or_ne k' k
        · exact ⟨hkn, hk⟩
        · exact h.blocks.filled g' bg k' b' hbg ((update_of_ne hkk ..).symm.trans hk')
      · exact h.blocks.filled g' x k' b' hx hk'
    mutex := mutex_goto h.blocks hpub
    slot := slot_goto (s := s) h.blocks nofun
    beyond := beyond_goto h.blocks (by rw [hpc]; rfl)
    past := fun g' x hx ho => by
      rcases Groups.update_eq_some.1 hx with ⟨rfl, rfl⟩ | ⟨_, hx⟩
      · exact h.blocks.past g' bg hbg ho
      · exact h.blocks.past g' x hx ho
    threads := threads_goto ⟨b, update_self .., by show s.nitem b < _; rw [hempty]; exact K.pos⟩
      fun t' ht => by
        have hok := h.blocks.threads t'
        cases hq : s.pc t' <;> rw [hq] at hok <;> try exact hok
        case store b' g' k' =>
          obtain ⟨hk', x, hx, hkx, hn⟩ := hok
          refine ⟨hk', ?_⟩
          obtain rfl | he := eq_or_ne g' g
          · obtain rfl : x = bg := some.inj (hx.symm.trans hbg)
            have hne : k' ≠ k := fun hkk => ht (h.blocks.slot t' t (g', k')
              (by rw [hq]; rfl) (by rw [hpc, hkk]; rfl))
            exact ⟨_, Groups.update_eq_some.2 (.inl ⟨rfl, rfl⟩), hkx,
              (update_of_ne hne ..).trans hn⟩
          · exact ⟨x, Groups.update_eq_some.2 (.inr ⟨he, hx⟩), hkx, hn⟩
        case publish b' ng =>
          obtain ⟨hm, hng, x, hx⟩ := hok
          refine ⟨hm, hng, ?_⟩
          by_cases he : ng = g
          · exact ⟨_, Groups.update_eq_some.2 (.inl ⟨he, rfl⟩)⟩
          · exact ⟨x, Groups.update_eq_some.2 (.inr ⟨he, hx⟩)⟩
        case construct =>
          obtain ⟨b', hb', hrest⟩ := hok
          exact ⟨b', (update_of_ne ht ..).trans hb', hrest⟩
        case constructed off =>
          obtain ⟨b', hb', hrest⟩ := hok
          exact ⟨b', (update_of_ne ht ..).trans hb', hrest⟩ }

theorem Blocks.drop (h : Blocks K s) (hpast : (s.pc t).past = none)
    (hpub : s.groupMutex ≠ some t) (hci : ∀ t' ≠ t, ci t' = s.curBlockIndex t') :
    Blocks K ({ s with
      curBlock := update s.curBlock t none, curBlockIndex := ci }.goto t .idle) := by
  have hgo : Blocks K (s.goto t .idle) := h.goto nofun nofun hpast.symm hpub trivial
  have hcur : ∀ {t' b}, update s.curBlock t none t' = some b →
      t' ≠ t ∧ s.curBlock t' = some b := by
    intro t' b hb
    obtain rfl | ht := eq_or_ne t' t
    · simp at hb
    · exact ⟨ht, by rwa [update_of_ne ht] at hb⟩
  exact { hgo with
    held := fun t' b hb => hgo.held t' b (hb.imp (fun hb => (hcur hb).2) id)
    holder := fun t1 t2 b h1 h2 => hgo.holder t1 t2 b (h1.imp (fun hb => (hcur hb).2) id)
      (h2.imp (fun hb => (hcur hb).2) id)
    cur := fun t' b hb => by
      obtain ⟨ht, hb⟩ := hcur hb
      show s.groups.block (ci t') = some b
      rw [hci t' ht]
      exact h.cur t' b hb
    threads := threads_goto trivial fun t' ht => by
      have hok := h.threads t'
      cases hq : s.pc t' <;> rw [hq] at hok <;> try exact hok
      all_goals
        obtain ⟨b, hb, hrest⟩ := hok
        exact ⟨b, (update_of_ne ht ..).trans hb, hrest⟩ }

theorem groupStep_inv (h : Inv K s) (hpc : s.pc t = .group b ng) :
    Inv K (groupStep s t b ng ok) := by
  unfold groupStep
  split
  case isTrue => exact h
  case isFalse hmx =>
  have hfree : s.groupMutex = none := by simpa using hmx
  have hpub : s.groupMutex ≠ some t := by rw [hfree]; nofun
  have hnew : ∀ b', (.load b : Pc κ).newBlock = some b' → (s.pc t).newBlock = some b' ∨ s.Fresh b' :=
    fun b' hb' => .inl (by rw [hpc]; exact hb')
  split
  case isTrue =>
    exact ⟨h.entries.goto (by rw [hpc]; rfl) nofun,
      h.blocks.goto hnew nofun (by rw [hpc]; rfl) hpub trivial, h.sound⟩
  case isFalse hng =>
  obtain rfl : s.ngroup = ng := not_not.1 hng
  split
  case isTrue hlt =>
    have hnone := h.blocks.noGroup s.ngroup (.inr ⟨rfl, hfree⟩)
    have hb := Groups.block_new hnone
    have hnew' : ∀ b', (.publish b s.ngroup : Pc κ).newBlock = some b' →
        (s.pc t).newBlock = some b' ∨ s.Fresh b' := hnew
    refine ⟨(h.entries.goto (by rw [hpc]; rfl) (by nofun)).regroup (handed_congr hb), ?_, h.sound⟩
    exact { h.blocks with
      table := hb ▸ h.blocks.table
      known := hb ▸ h.blocks.known
      held := held_goto (s := s) h.blocks hnew'
      holder := holder_goto (s := s) h.blocks hnew'
      new := fun t' b' hb' => by
        have := new_goto h.blocks hnew' t' b' hb'
        exact ⟨this.1, fun i hi => this.2 i ((congrFun hb i).symm.trans hi)⟩
      cur := hb ▸ h.blocks.cur
      group := fun g hg => by
        obtain ⟨x, hx⟩ := h.blocks.group g hg
        exact ⟨x, Groups.update_eq_some.2 (.inr ⟨ne_of_lt hg, hx⟩)⟩
      bound := fun g x hx => by
        rcases Groups.update_eq_some.1 hx with ⟨rfl, _⟩ | ⟨_, hx⟩
        · exact hlt.1
        · exact h.blocks.bound g x hx
      noGroup := fun g hg => by
        rcases hg with hg | ⟨_, hm⟩
        · exact (update_of_ne (ne_of_gt hg) ..).trans (h.blocks.noGroup g (.inl hg))
        · cases hm
      mutex := fun t' ht' => by
        obtain rfl : t = t' := some.inj ht'
        exact ⟨b, goto_self⟩
      slot := slot_goto (s := s) h.blocks nofun
      filled := fun g x k b' hx hk => by
        rcases Groups.update_eq_some.1 hx with ⟨rfl, rfl⟩ | ⟨_, hx⟩
        · cases hk
        · exact h.blocks.filled g x k b' hx hk
      beyond := beyond_goto h.blocks (by rw [hpc]; rfl)
      past := fun g x hx ho => by
        rcases Groups.update_eq_some.1 hx with ⟨rfl, rfl⟩ | ⟨_, hx⟩
        · obtain ⟨t', ht'⟩ := exists_mem_of_ne_nil _ ho
          have hp := ((h.blocks.beyond _).2 t').1 ht'
          have hok := h.blocks.threads t'
          cases hq : s.pc t' <;> simp only [hq, Pc.past] at hp <;> try cases hp
          case back b' ng =>
            rw [hq] at hok
            have := hok.1
            have := hok.2
            have := some.inj hp
            lia
        · exact h.blocks.past g x hx ho
      threads := threads_goto ⟨rfl, rfl, _, Groups.update_eq_some.2 (.inl ⟨rfl, rfl⟩)⟩
        fun t' ht => by
          have hok := h.blocks.threads t'
          cases hq : s.pc t' <;> rw [hq] at hok <;> try exact hok
          case store b' g k =>
            obtain ⟨hk, x, hx, hrest⟩ := hok
            have hne : g ≠ s.ngroup := fun he => by rw [he, hnone] at hx; cases hx
            exact ⟨hk, x, Groups.update_eq_some.2 (.inr ⟨hne, hx⟩), hrest⟩
          case publish b' ng =>
            have hm := hok.1
            rw [hfree] at hm
            cases hm }
  case isFalse =>
    exact ⟨(h.entries.goto (by rw [hpc]; rfl) (by nofun)).regroup fun _ _ => Iff.rfl,
      h.blocks.drop (by rw [hpc]; rfl) hpub fun _ _ => rfl, h.sound⟩

theorem publishStep_inv (h : Inv K s) (hpc : s.pc t = .publish b ng) :
    Inv K ({ s with ngroup := ng + 1, groupMutex := none }.goto t (.load b)) := by
  have hok := h.blocks.threads t
  rw [hpc] at hok
  obtain ⟨hm, rfl, bg, hbg⟩ := hok
  have hnew : ∀ b', (.load b : Pc κ).newBlock = some b' → (s.pc t).newBlock = some b' ∨ s.Fresh b' :=
    fun b' hb' => .inl (by rw [hpc]; exact hb')
  refine ⟨(h.entries.goto (by rw [hpc]; rfl) (by nofun)).regroup fun _ _ => Iff.rfl, ?_, h.sound⟩
  exact { h.blocks with
    held := held_goto (s := s) h.blocks hnew
    holder := holder_goto (s := s) h.blocks hnew
    new := new_goto (s := s) h.blocks hnew
    group := fun g hg => by
      by_cases hlt : g < s.ngroup
      · exact h.blocks.group g hlt
      · obtain rfl : g = s.ngroup := by
          have : g < s.ngroup + 1 := hg
          lia
        exact ⟨bg, hbg⟩
    noGroup := fun g hg => h.blocks.noGroup g (.inl (by
      rcases hg with hg | ⟨hg, _⟩
      · exact Nat.lt_of_succ_lt hg
      · exact hg ▸ Nat.lt_succ_self _))
    mutex := nofun
    slot := slot_goto (s := s) h.blocks nofun
    beyond := beyond_goto h.blocks (by rw [hpc]; rfl)
    threads := threads_goto trivial fun t' ht => by
      have hok := h.blocks.threads t'
      cases hq : s.pc t' <;> rw [hq] at hok <;> try exact hok
      case fetch => exact ⟨hok.1, Nat.le_succ_of_le hok.2⟩
      case back => exact ⟨hok.1, Nat.le_succ_of_le hok.2⟩
      case publish => exact absurd (some.inj (hok.1.symm.trans hm)) ht }

theorem localStep_inv (h : Inv K s) (hpc : s.pc t = .local) :
    Inv K (localStep K s t ok) := by
  have hplain : (s.pc t).Plain := hpc ▸ ⟨rfl, rfl, rfl⟩
  have hpub := h.blocks.mutex_ne hplain.newBlock
  unfold localStep
  split
  case isTrue hb =>
    exact ⟨h.entries.goto (by rw [hpc]; rfl) nofun, h.blocks.gotoPlain hplain ⟨rfl, rfl, rfl⟩ hb,
      h.sound⟩
  case isFalse =>
  split
  case isTrue =>
    have hgrow : Blocks K { s with nextBlock := s.nextBlock + 1 } :=
      { h.blocks with
        known := fun i b hb => Nat.lt_succ_of_lt (h.blocks.known i b hb)
        unused := fun b hb => h.blocks.unused b (Nat.le_of_succ_le hb)
        held := fun t b hb => Nat.lt_succ_of_lt (h.blocks.held t b hb)
        threads := fun t' => by
          have hok := h.blocks.threads t'
          cases hq : s.pc t' <;> rw [hq] at hok <;> exact hok }
    refine ⟨(h.entries.goto (by rw [hpc]; rfl) (by nofun)).regroup fun _ _ => Iff.rfl,
      hgrow.goto ?_ nofun (by rw [hpc]; rfl) hpub trivial, h.sound⟩
    rintro _ ⟨rfl⟩
    exact .inr ⟨Nat.lt_succ_self _, h.blocks.unused _ le_rfl,
      fun i hi => lt_irrefl _ (h.blocks.known i _ hi),
      fun t' ht' => lt_irrefl _ (h.blocks.held t' _ ht')⟩
  case isFalse =>
    exact ⟨(h.entries.goto (by rw [hpc]; rfl) (by nofun)).regroup fun _ _ => Iff.rfl,
      h.blocks.drop hplain.past hpub fun _ _ => rfl, h.sound⟩

theorem loadStep_inv (h : Inv K s) (hpc : s.pc t = .load b) :
    Inv K (s.goto t (if 1 ≤ s.ngroup then .fetch b s.ngroup else .group b s.ngroup)) := by
  have hpub : s.groupMutex ≠ some t := fun hm => by
    obtain ⟨_, hb⟩ := h.blocks.mutex t hm
    rw [hpc] at hb
    cases hb
  split
  case isTrue hn =>
    exact ⟨h.entries.goto (by rw [hpc]; rfl) nofun,
      h.blocks.goto (fun b' hb' => .inl (by rw [hpc]; exact hb')) nofun (by rw [hpc]; rfl) hpub
        ⟨hn, le_rfl⟩, h.sound⟩
  case isFalse =>
    exact ⟨h.entries.goto (by rw [hpc]; rfl) nofun,
      h.blocks.goto (fun b' hb' => .inl (by rw [hpc]; exact hb')) nofun (by rw [hpc]; rfl) hpub
        trivial, h.sound⟩

theorem constructStep_inv (h : Inv K s) (hpc : s.pc t = .construct) : Inv K (constructStep s t) := by
  have hok := h.blocks.threads t
  rw [hpc] at hok
  obtain ⟨b, hb, hlt⟩ := hok
  simp only [constructStep, hb]
  exact ⟨h.entries.goto (by rw [hpc]; rfl) nofun,
    h.blocks.gotoPlain (hpc ▸ ⟨rfl, rfl, rfl⟩) ⟨rfl, rfl, rfl⟩ ⟨b, hb, rfl, hlt⟩, h.sound⟩

/-! ### Entries are made and returned -/

/-- `++_cur_block->nitem`: the item at the end of the block is handed out. -/
theorem validateStep_inv (h : Inv K s) {off : ℕ} (hpc : s.pc t = .constructed off) :
    Inv K (validateStep K s t off ok) := by
  have hplain : (s.pc t).Plain := hpc ▸ ⟨rfl, rfl, rfl⟩
  have hok := h.blocks.threads t
  rw [hpc] at hok
  obtain ⟨b, hb, rfl, hlt⟩ := hok
  have hcur := h.blocks.cur t b hb
  simp only [validateStep, hb]
  split
  case isFalse =>
    exact ⟨h.entries.goto (by rw [hpc]; rfl) nofun, h.blocks.gotoPlain hplain ⟨rfl, rfl, rfl⟩ trivial,
      h.sound⟩
  case isTrue =>
  have hgo := h.blocks.gotoPlain (c := .idle) hplain ⟨rfl, rfl, rfl⟩ trivial
  have hego := h.entries.goto (t := t) (c := .idle) (by rw [hpc]; rfl) nofun
  have hlast : ∀ b' o, o < update s.nitem b (s.nitem b + 1) b' ↔
      o < s.nitem b' ∨ (b' = b ∧ o = s.nitem b) := by
    intro b' o
    obtain rfl | hbb := eq_or_ne b' b
    · rw [update_self]
      lia
    · simp [hbb]
  have hnot : ∀ r, K.entry (s.curBlockIndex t) b (s.nitem b) ∉ (s.goto t .idle).content r := by
    intro r hr
    obtain ⟨⟨b', o⟩, i, hbi, ho, he⟩ := hego.entries r _ hr
    obtain ⟨hib, rfl⟩ := K.inj hlt (lt_of_lt_of_le ho (h.blocks.nitem b')) he
    have hbb : b = b' := by
      rcases hib with hi | hbb
      · exact some.inj (hcur.symm.trans ((congrArg _ hi).trans hbi))
      · exact hbb
    subst hbb
    exact lt_irrefl _ ho
  have hhanded : ∀ x (p : Item), (∃ i, s.groups.block i = some p.1 ∧
      p.2 < update s.nitem b (s.nitem b + 1) p.1 ∧ x = K.entry i p.1 p.2) ↔
      (x, p) = (K.entry (s.curBlockIndex t) b (s.nitem b), b, s.nitem b) ∨ s.Handed K x p := by
    rintro x ⟨b', o⟩
    simp only [hlast, State.Handed, Prod.mk.injEq]
    constructor
    · rintro ⟨i, hi, ho | ⟨rfl, rfl⟩, hx⟩
      · exact .inr ⟨i, hi, ho, hx⟩
      · rw [h.blocks.table i _ b' hi hcur] at hx
        exact .inl ⟨hx, rfl, rfl⟩
    · rintro (⟨hx, rfl, rfl⟩ | ⟨i, hi, ho, hx⟩)
      · exact ⟨_, hcur, .inr ⟨rfl, rfl⟩, hx⟩
      · exact ⟨i, hi, .inl ho, hx⟩
  refine ⟨?_, ?_, h.sound⟩
  · exact { hego with
      exclusive := hego.exclusive.insert (p := .owned) hnot (List.Perm.refl _) fun r hr => by
        cases r with
        | owned => exact absurd rfl hr
        | chunks | «at» => rfl
      entries := fun r x hx => by
        have hx' : x = K.entry (s.curBlockIndex t) b (s.nitem b) ∨ x ∈ (s.goto t .idle).content r := by
          cases r with
          | owned => exact mem_cons.1 hx
          | chunks | «at» => exact .inr hx
        rcases hx' with rfl | hx'
        · exact ⟨_, (hhanded _ _).2 (.inl rfl)⟩
        · obtain ⟨q, hq⟩ := hego.entries r x hx'
          exact ⟨q, (hhanded x q).2 (.inr hq)⟩
      log := fun x p =>
        (mem_cons.trans (or_congr Iff.rfl (h.entries.log x p))).trans (hhanded x p).symm
      got := fun e he => by
        rcases mem_cons.1 he with rfl | he
        · exact mem_cons_self
        · exact mem_cons_of_mem _ (h.entries.got e he)
      constructed := fun b' o =>
        (mem_cons.trans (or_congr Prod.ext_iff (h.entries.constructed b' o))).trans
          (or_comm.trans (hlast b' o).symm) }
  · have hother : ∀ t' b', t' ≠ t → s.Holds t' b' →
        update s.nitem b (s.nitem b + 1) b' = s.nitem b' := by
      intro t' b' ht hb'
      have hbb : b' ≠ b := fun he => ht (h.blocks.holder t' t b' hb' (.inl (he ▸ hb)))
      exact update_of_ne hbb ..
    exact { hgo with
      nitem := fun b' => by
        obtain rfl | hbb := eq_or_ne b' b
        · show update s.nitem b' (s.nitem b' + 1) b' ≤ _
          rw [update_self]
          exact hlt
        · show update s.nitem b (s.nitem b + 1) b' ≤ _
          rw [update_of_ne hbb]
          exact h.blocks.nitem b'
      unused := fun b' hb' => by
        have hbb : b' ≠ b := fun he =>
          Nat.not_lt.2 hb' (he ▸ h.blocks.held t b (.inl hb))
        exact (update_of_ne hbb ..).trans (h.blocks.unused b' hb')
      new := fun t' b' hb' => by
        have ht : t' ≠ t := fun he => by
          rw [he, goto_self] at hb'
          cases hb'
        rw [goto_ne ht] at hb'
        have := h.blocks.new t' b' hb'
        exact ⟨(hother t' b' ht (.inr hb')).trans this.1, this.2⟩
      threads := threads_goto trivial fun t' ht => by
        have hok := h.blocks.threads t'
        cases hq : s.pc t' <;> rw [hq] at hok <;> try exact hok
        case construct =>
          obtain ⟨b', hb', hlt'⟩ := hok
          refine ⟨b', hb', ?_⟩
          show update s.nitem b (s.nitem b + 1) b' < _
          rw [hother t' b' ht (.inl hb')]
          exact hlt'
        case constructed off =>
          obtain ⟨b', hb', ho, hlt'⟩ := hok
          exact ⟨b', hb', (hother t' b' ht (.inl hb')).trans ho, hlt'⟩ }

theorem pushStep_inv (h : Inv K s) {x : κ} (hpc : s.pc t = .pushing x) :
    Inv K (pushStep s t x ok) := by
  have hplain : (s.pc t).Plain := hpc ▸ ⟨rfl, rfl, rfl⟩
  have hready := h.entries.ready t (by rw [hpc]; rfl)
  have hgo := h.blocks.gotoPlain (c := .idle) hplain ⟨rfl, rfl, rfl⟩ trivial
  unfold pushStep
  split
  case isTrue =>
    refine ⟨h.entries.move rfl (.inr ⟨rfl, rfl⟩) nofun ?_ ?_ K.pos h.entries.got, { hgo with }, h.sound⟩
    · simp only [content, hpc]
      exact (List.Perm.refl _).subperm
    · intro ch hch
      rcases mem_cons.1 hch with rfl | hch
      · exact ⟨hready, h.entries.fits t⟩
      · exact h.entries.chunks ch hch
  case isFalse =>
    have heq : update s.curFree t (s.curFree t) = s.curFree := update_eq_self ..
    have hmove : Entries K ({ s with
        owned := x :: s.owned, curFree := update s.curFree t (s.curFree t) }.goto t .idle) := by
      refine h.entries.move rfl (.inl ⟨rfl, rfl⟩) nofun ?_ h.entries.chunks (h.entries.fits t)
        h.entries.got
      simp only [content, hpc]
      exact perm_middle.subperm
    rw [heq] at hmove
    exact ⟨hmove, { hgo with }, h.sound⟩

theorem getOrNewLocalPool_inv (h : Inv K s) (hpc : s.pc t = .idle) :
    Inv K (s.getOrNewLocalPool t) := by
  unfold getOrNewLocalPool
  split
  case isTrue => exact h
  case isFalse =>
    have hplain : (s.pc t).Plain := hpc ▸ ⟨rfl, rfl, rfl⟩
    have hdrop : Blocks K ({ s with
        curBlock := update s.curBlock t none
        curBlockIndex := update s.curBlockIndex t 0 }.goto t .idle) :=
      h.blocks.drop hplain.past (h.blocks.mutex_ne hplain.newBlock) fun t' ht => update_of_ne ht ..
    have hmove : Entries K ({ s with
        localPool := update s.localPool t true
        curFree := update s.curFree t [] }.goto t .idle) := by
      refine h.entries.move (q := .owned) rfl (.inl ⟨rfl, rfl⟩) nofun ?_ h.entries.chunks
        (Nat.zero_le _) h.entries.got
      exact (sublist_append_right ..).subperm
    simp only [goto, update_same hpc] at hdrop hmove
    exact ⟨hmove.regroup fun _ _ => Iff.rfl, { hdrop with }, h.sound⟩

@[simp] theorem getOrNewLocalPool_pc : (s.getOrNewLocalPool t).pc = s.pc := by
  unfold getOrNewLocalPool
  split <;> rfl

@[simp] theorem getOrNewLocalPool_owned : (s.getOrNewLocalPool t).owned = s.owned := by
  unfold getOrNewLocalPool
  split <;> rfl

theorem getStep_inv (h : Inv K s) (hpc : s.pc t = .idle) : Inv K (getStep K s t) := by
  have hplain : (s.pc t).Plain := hpc ▸ ⟨rfl, rfl, rfl⟩
  unfold getStep
  split
  case isTrue hne => exact take_inv h hplain hne
  case isFalse =>
    exact ⟨h.entries.goto (by rw [hpc]; rfl) nofun, h.blocks.gotoPlain hplain ⟨rfl, rfl, rfl⟩ trivial,
      h.sound⟩

/-- What is returned goes to the own chunk, or it waits for the push of a chunk that is not
empty. -/
theorem retStep_inv [DecidableEq κ] (h : Inv K s) (hpc : s.pc t = .idle) {x : κ} {limit : ℕ}
    (hx : x ∈ s.owned) (hlim : s.curFree t = [] → 0 < limit) : Inv K (retStep K s t x limit) := by
  have hplain : (s.pc t).Plain := hpc ▸ ⟨rfl, rfl, rfl⟩
  have hgo := h.blocks.gotoPlain (c := .idle) hplain ⟨rfl, rfl, rfl⟩ trivial
  have hperm : (x :: s.owned.erase x).Perm s.owned := (perm_cons_erase hx).symm
  unfold retStep
  split
  case isTrue hlt =>
    have hle : freeChunkNitem K limit ≤ K.blockNitem := by
      unfold freeChunkNitem
      split <;> lia
    have hmove : Entries K ({ s with
        owned := s.owned.erase x
        curFree := update s.curFree t (x :: s.curFree t) }.goto t .idle) := by
      refine h.entries.move rfl (.inl ⟨rfl, rfl⟩) nofun ?_ h.entries.chunks
        (lt_of_lt_of_le hlt hle) h.entries.got
      simp only [content, hpc]
      refine (List.Perm.trans ?_ (hperm.append_left (s.curFree t))).subperm
      exact perm_middle.symm
    simp only [goto, update_same hpc] at hmove hgo
    exact ⟨hmove, { hgo with }, h.sound⟩
  case isFalse hge =>
    have hne : s.curFree t ≠ [] := by
      intro hnil
      have hpos := hlim hnil
      have := K.pos
      rw [hnil] at hge
      unfold freeChunkNitem at hge
      split at hge <;> simp only [length_nil] at hge <;> lia
    have heq : update s.curFree t (s.curFree t) = s.curFree := update_eq_self ..
    have hmove : Entries K ({ s with
        owned := s.owned.erase x
        curFree := update s.curFree t (s.curFree t) }.goto t (.pushing x)) := by
      refine h.entries.move rfl (.inl ⟨rfl, rfl⟩) (fun _ => hne) ?_ h.entries.chunks
        (h.entries.fits t) h.entries.got
      simp only [content, hpc]
      refine (List.Perm.trans ?_ (hperm.append_left (s.curFree t))).subperm
      exact perm_middle.symm
    rw [heq] at hmove
    exact ⟨hmove, { h.blocks.gotoPlain (c := .pushing x) hplain ⟨rfl, rfl, rfl⟩ trivial with }, h.sound⟩

theorem exitStep_inv (h : Inv K s) (hpc : s.pc t = .idle) :
    Inv K (exitStep s t ok) := by
  have hplain : (s.pc t).Plain := hpc ▸ ⟨rfl, rfl, rfl⟩
  have hdrop := h.blocks.drop hplain.past (h.blocks.mutex_ne hplain.newBlock) fun _ _ => rfl
  have hmove : Entries K ({ s with
      freeChunks := if s.curFree t ≠ [] ∧ ok then s.curFree t :: s.freeChunks else s.freeChunks
      localPool := update s.localPool t false
      curFree := update s.curFree t [] }.goto t .idle) := by
    refine h.entries.move rfl (.inr ⟨rfl, rfl⟩) nofun ?_ ?_ (Nat.zero_le _) h.entries.got
    · simp only [content, hpc]
      split
      · exact (List.Perm.refl _).subperm
      · exact (sublist_append_right ..).subperm
    · intro ch hch
      split at hch
      case isTrue hne =>
        rcases mem_cons.1 hch with rfl | hch
        · exact ⟨hne.1, h.entries.fits t⟩
        · exact h.entries.chunks ch hch
      case isFalse => exact h.entries.chunks ch hch
  simp only [goto, update_same hpc] at hdrop hmove
  exact ⟨hmove.regroup fun _ _ => Iff.rfl, { hdrop with }, h.sound⟩

theorem goStep_inv (h : Inv K s) (t : ι) (ok : Bool) : Inv K (goStep K s t ok) := by
  unfold goStep
  split
  case h_1 => exact h
  case h_2 hpc =>
    have hp : (s.pc t).Plain := hpc ▸ ⟨rfl, rfl, rfl⟩
    split
    · exact ⟨h.entries.goto (by rw [hpc]; rfl) nofun, h.blocks.gotoPlain hp ⟨rfl, rfl, rfl⟩ trivial,
        h.sound⟩
    · exact ⟨h.entries.goto (by rw [hpc]; rfl) nofun, h.blocks.gotoPlain hp ⟨rfl, rfl, rfl⟩ trivial,
        h.sound⟩
  case h_3 hpc => exact popFreeChunk_inv h hpc
  case h_4 hpc =>
    exact take_inv h (hpc ▸ ⟨rfl, rfl, rfl⟩) (h.entries.ready t (by rw [hpc]; rfl))
  case h_5 hpc => exact localStep_inv h hpc
  case h_6 hpc => exact loadStep_inv h hpc
  case h_7 hpc => exact fetchStep_inv h hpc
  case h_8 hpc => exact storeStep_inv h hpc
  case h_9 hpc => exact backStep_inv h hpc
  case h_10 hpc => exact groupStep_inv h hpc
  case h_11 hpc => exact publishStep_inv h hpc
  case h_12 hpc => exact constructStep_inv h hpc
  case h_13 hpc => exact validateStep_inv h hpc
  case h_14 hpc => exact pushStep_inv h hpc

/-- The condition on a step: a thread whose chunk is empty does not read the limit 0. -/
def Heeds (s : State ι κ) : Act ι κ → Prop
  | .ret t _ limit _ => limit = 0 → s.localPool t ∧ s.curFree t ≠ []
  | _ => True

instance [DecidableEq κ] (s : State ι κ) : ∀ a, Decidable (Heeds s a)
  | .ret t _ limit _ => inferInstanceAs (Decidable (limit = 0 → s.localPool t ∧ s.curFree t ≠ []))
  | .get _ _ | .go _ _ | .exit _ _ => isTrue trivial

theorem step_inv [DecidableEq κ] (s : State ι κ) (a : Act ι κ) (h : Inv K s) (ha : Heeds s a) :
    Inv K (step K s a) := by
  cases a with
  | get t ok =>
    simp only [step]
    split
    case h_1 hpc =>
      split
      · exact getStep_inv (getOrNewLocalPool_inv h hpc) (by simpa using hpc)
      · exact h
    case h_2 => exact h
  | ret t x limit ok =>
    simp only [step]
    split
    case h_1 hpc =>
      split
      case isTrue hx =>
        refine retStep_inv (getOrNewLocalPool_inv h hpc) (by simpa using hpc) (by simpa using hx.1) ?_
        intro hnil
        rcases Nat.eq_zero_or_pos limit with hz | hpos
        · obtain ⟨hl, hne⟩ := ha hz
          rw [getOrNewLocalPool, if_pos hl] at hnil
          exact absurd hnil hne
        · exact hpos
      case isFalse => exact h
    case h_2 => exact h
  | go t ok => exact goStep_inv h t ok
  | exit t ok =>
    simp only [step]
    split
    case h_1 hpc =>
      split
      · exact exitStep_inv h hpc
      · exact h
    case h_2 => exact h

end Inv

end Eabase.Utility.Pool
