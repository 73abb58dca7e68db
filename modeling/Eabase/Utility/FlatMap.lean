import Eabase.Lib.Assoc
import Eabase.Utility.BitArray

/-!
# FlatMap

`FlatMap` is a table of buckets, each with its first node inside and a chain of
further ones. A sparse map also has a bit array, its thumbnail, with a bit for
each bucket, by which its iterator finds the buckets that are valid.

What the functions access is in bounds or it is not: a function that would
access something else, or that loops for ever, returns `none` here. Memory is
what `malloc` answers, in order: nothing, or what is in it, which matters for a
thumbnail only. A node of a chain is always there.
-/

namespace Eabase.Utility.FlatMap

open Lib Utility.BitArray

/-- Values of a `size_t` are below. -/
def two64 : ℕ := 2 ^ 64

/-- `find_power2`. -/
def findPower2 (b : ℕ) : ℕ :=
  let b := (b + (two64 - 1)) % two64
  let b := b ||| b >>> 1
  let b := b ||| b >>> 2
  let b := b ||| b >>> 4
  let b := b ||| b >>> 8
  let b := b ||| b >>> 16
  let b := b ||| b >>> 32
  (b + 1) % two64

/-- `flatmap_round`. -/
def flatmapRound (nbucket : ℕ) : ℕ :=
  if nbucket ≤ 8 then 8 else findPower2 nbucket

/-- `flatmap_mod`. -/
def flatmapMod (hashCode nbucket : ℕ) : ℕ :=
  hashCode &&& (nbucket + (two64 - 1)) % two64

/-- The parameters of `FlatMap`: the hash function and an equality that goes with it, `_T()`, the
size of a `Bucket`, and `_Sparse`. -/
structure Traits (K V : Type*) extends KeyEq K where
  hashfn : K → UInt64
  hash_eq : ∀ k k', eql k k' = true → hashfn k = hashfn k'
  default : V
  bucketSize : ℕ
  bucketSize_pos : 0 < bucketSize
  sparse : Bool

variable {K V ι : Type*}

/-- `Bucket`: the element of its first node and those of the chain behind it. -/
inductive Bucket (K V : Type*) where
  | invalid
  | node (element : K × V) (next : List (K × V))
  deriving DecidableEq

/-- `is_valid`. -/
def Bucket.isValid : Bucket K V → Bool
  | .invalid => false
  | .node _ _ => true

def Bucket.nodes : Bucket K V → List (K × V)
  | .invalid => []
  | .node element next => element :: next

/-- `FlatMap`; its `_buckets` and `_thumbnail` can be `NULL`. -/
structure Map (K V : Type*) where
  size : ℕ
  nbucket : ℕ
  buckets : Option (List (Bucket K V))
  thumbnail : Option (List Word)
  loadFactor : ℕ
  deriving DecidableEq

def Map.new : Map K V where
  size := 0
  nbucket := 0
  buckets := none
  thumbnail := none
  loadFactor := 0

/-! ## Memory -/

/-- The answers of `malloc`; behind the last of them it has nothing but zeros. -/
abbrev Memory : Type := List (Option (List Word))

def Memory.ask : Memory → Option (List Word) × Memory
  | [] => (some [], [])
  | answer :: mem => (answer, mem)

/-- `sizeof(Bucket) * (_nbucket + 1)`. -/
def bytes (T : Traits K V) (nbucket : ℕ) : ℕ :=
  T.bucketSize * (nbucket + 1) % two64

/-- `get_allocator().Alloc`, which never has half of the address space. -/
def granted (T : Traits K V) (mem : Memory) (nbucket : ℕ) : Bool :=
  mem.ask.1.isSome && bytes T nbucket < 2 ^ 63

/-- The size was computed without an overflow. -/
def NoWrap (T : Traits K V) (nbucket : ℕ) : Prop :=
  T.bucketSize * (nbucket + 1) < two64

instance (T : Traits K V) (nbucket : ℕ) : Decidable (NoWrap T nbucket) :=
  inferInstanceAs (Decidable (_ < _))

/-- `bit_array_malloc`. -/
def bitArrayMalloc (mem : Memory) (nbit : ℕ) : Option (List Word) × Memory :=
  if nbit = 0 then (none, mem) else (mem.ask.1.map fun words => words.takeD ((nbit + 63) / 64) 0,
    mem.ask.2)

/-! ## Iterators -/

/-- An iterator: the bucket it is at, and the nodes in front of its own in this bucket. -/
structure Iterator where
  entry : ℕ
  depth : ℕ

section

variable (T : Traits K V) (m : Map K V) (bs : List (Bucket K V))

/-- `find_and_set_valid_node` of `FlatMapIterator` and of `SparseFlatMapIterator`, from the bucket
`pos` on; the bucket behind the last one is valid. -/
def findAndSetValidNode (pos : ℕ) : Option ℕ :=
  if T.sparse then
    m.thumbnail.map fun thumbnail =>
      if (bs[pos]?).any fun b => !b.isValid then bitArrayFirst1 thumbnail (pos + 1) m.nbucket else pos
  else some (pos + (bs.drop pos).findIdx Bucket.isValid)

def iterator (pos : ℕ) : Option Iterator :=
  (findAndSetValidNode T m bs pos).map fun entry => ⟨entry, 0⟩

/-- `operator++`, at the nodes of a bucket. -/
def next (it : Iterator) (nodes : List (K × V)) :
    Option Iterator :=
  if it.depth + 1 < nodes.length then some { it with depth := it.depth + 1 }
    else iterator T m bs (it.entry + 1)

end

/-- What a loop up to `end()` sees, if it takes at most `fuel` rounds. -/
def walk (T : Traits K V) (m : Map K V) (bs : List (Bucket K V)) : ℕ → Iterator → Option (List (K × V))
  | 0, _ => none
  | fuel + 1, it =>
    if it.entry = m.nbucket then some []
    else
      match bs[it.entry]? with
      | none => none
      | some b =>
        match b.nodes[it.depth]? with
        | none => none
        | some p => ((next T m bs it b.nodes).bind (walk T m bs fuel)).map fun l => p :: l

/-- The elements from `begin()` to `end()`; a loop with more rounds than there are elements is
endless. -/
def elements (T : Traits K V) (m : Map K V) : Option (List (K × V)) :=
  match m.buckets with
  | none => some []
  | some bs => (iterator T m bs 0).bind (walk T m bs (m.size + 1))

/-! ## Functions -/

/-- `init`, with what it returns. -/
def init (T : Traits K V) (mem : Memory) (m : Map K V) (nbucket loadFactor : ℕ) :
    Option (Memory × Map K V × Bool) :=
  if m.buckets.isSome then some (mem, m, false)
  else if nbucket = 0 then some (mem, m, false)
  else if loadFactor < 10 ∨ loadFactor > 100 then some (mem, m, false)
  else
    let m := { m with size := 0, nbucket := flatmapRound nbucket, loadFactor }
    if granted T mem m.nbucket then
      if NoWrap T m.nbucket then
        let m := { m with buckets := some (List.replicate m.nbucket .invalid) }
        if T.sparse then
          let answer := bitArrayMalloc mem.ask.2 m.nbucket
          match answer.1 with
          | none => some (answer.2, { m with thumbnail := none }, false)
          | some thumbnail =>
            some (answer.2, { m with thumbnail := some (bitArrayClear thumbnail m.nbucket) }, true)
        else some (mem.ask.2, m, true)
      else none
    else some (mem.ask.2, m, false)

/-- `clear`. -/
def clear (m : Map K V) : Map K V :=
  if m.size = 0 then m
  else
    { m with
      size := 0
      buckets := m.buckets.map fun bs => bs.map fun _ => .invalid
      thumbnail := m.thumbnail.map fun thumbnail => bitArrayClear thumbnail m.nbucket }

def index (T : Traits K V) (m : Map K V) (k : K) : ℕ :=
  flatmapMod (T.hashfn k).toNat m.nbucket

/-- `seek`. -/
def seek (T : Traits K V) (m : Map K V) (k : K) : Option (Option V) :=
  match m.buckets with
  | none => some none
  | some bs => (bs[index T m k]?).map fun b => Assoc.lookup T.toKeyEq b.nodes k

def Map.put (m : Map K V) (i : ℕ) (b : Bucket K V) : Map K V :=
  { m with buckets := m.buckets.map fun bs => bs.set i b }

section

variable (T : Traits K V) (m : Map K V)

/-- `bit_array_set` or `bit_array_unset` of a bucket in the thumbnail. -/
def mark (f : List Word → List Word) : Option (Map K V) :=
  if T.sparse then m.thumbnail.map fun thumbnail => { m with thumbnail := some (f thumbnail) } else some m

/-- `erase` in a map with buckets. -/
def eraseIn (bs : List (Bucket K V)) (k : K) : Option (Map K V × ℕ × Option V) :=
  let i := index T m k
  match bs[i]? with
  | none => none
  | some .invalid => some (m, 0, none)
  | some (.node element next) =>
    let m' := { m with size := m.size - 1 }
    if T.eql element.1 k then
      match next with
      | [] => (mark T (m'.put i .invalid) fun words => bitArrayUnset words i).map fun m' =>
        (m', 1, some element.2)
      | p :: next => some (m'.put i (.node p next), 1, some element.2)
    else
      match Assoc.lookup T.toKeyEq next k with
      | none => some (m, 0, none)
      | some v => some (m'.put i (.node element (Assoc.erase T.toKeyEq next k)), 1, some v)

/-- `erase`, with what it returns and the old value. -/
def erase (k : K) : Option (Map K V × ℕ × Option V) :=
  match m.buckets with
  | none => some (m, 0, none)
  | some bs => eraseIn T m bs k

end

/-- `is_too_crowded`. -/
def isTooCrowded (m : Map K V) (size : ℕ) : Bool :=
  size * 100 % two64 ≥ m.nbucket * m.loadFactor % two64

def Bucket.store (T : Traits K V) (k : K) (v : V) : Bucket K V → Bucket K V
  | .invalid => .invalid
  | .node element next =>
    if T.eql element.1 k then .node (element.1, v) next else .node element
      (Assoc.store T.toKeyEq next k v)

def Map.store (T : Traits K V) (m : Map K V) (k : K) (v : V) : Map K V :=
  { m with buckets := m.buckets.map fun bs => bs.modify (index T m k) (Bucket.store T k v) }

/-- `insert`, given `operator[]`. -/
def insertBy (T : Traits K V) (operator : Memory → Map K V → K → Option (Memory × Map K V))
    (mem : Memory) (m : Map K V)
    (k : K) (v : V) : Option (Memory × Map K V) :=
  (operator mem m k).map fun r => (r.1, r.2.store T k v)

def insertAll (T : Traits K V) (operator : Memory → Map K V → K → Option (Memory × Map K V)) :
    Memory → Map K V → List (K × V) → Option (Memory × Map K V)
  | mem, m, [] => some (mem, m)
  | mem, m, p :: l => (insertBy T operator mem m p.1 p.2).bind fun r => insertAll T operator r.1 r.2 l

/-- `resize`, given `operator[]`. -/
def resizeBy (T : Traits K V) (operator : Memory → Map K V → K → Option (Memory × Map K V))
    (mem : Memory) (m : Map K V)
    (nbucket2 : ℕ) : Option (Memory × Map K V × Bool) :=
  let nbucket2 := flatmapRound nbucket2
  if m.nbucket = nbucket2 then some (mem, m, false)
  else
    (init T mem Map.new nbucket2 m.loadFactor).bind fun r =>
      if r.2.2 then
        (elements T m).bind fun l => (insertAll T operator r.1 r.2.1 l).map fun r' => (r'.1, r'.2, true)
      else some (r.1, m, false)

/-- `operator[]`; `fuel` is how often it may call itself. -/
def operatorBy (T : Traits K V) : ℕ → Memory → Map K V → K → Option (Memory × Map K V)
  | 0, _, _, _ => none
  | fuel + 1, mem, m, k =>
    let i := index T m k
    match m.buckets.bind fun bs => bs[i]? with
    | none => none
    | some .invalid =>
      (mark T ({ m with size := m.size + 1 }.put i (.node (k, T.default) [])) fun words =>
        bitArraySet words i).map
        fun m' => (mem, m')
    | some (.node element next) =>
      let m' := { m with size := m.size + 1 }.put i (.node element (next ++ [(k, T.default)]))
      if (element :: next).any fun p => T.eql p.1 k then some (mem, m)
      else if isTooCrowded m m.size then
        (resizeBy T (operatorBy T fuel) mem m (m.nbucket + 1)).bind fun r =>
          if r.2.2 then operatorBy T fuel r.1 r.2.1 k else some (r.1, m')
      else some (mem, m')

section

variable (T : Traits K V) (mem : Memory) (m : Map K V)

/-- `operator[]`. With every call of itself the buckets double. -/
def operator (k : K) : Option (Memory × Map K V) :=
  operatorBy T 64 mem m k

/-- `insert`. -/
def insert (k : K) (v : V) : Option (Memory × Map K V) :=
  insertBy T (operator T) mem m k v

/-- `resize`. -/
def resize (nbucket2 : ℕ) : Option (Memory × Map K V × Bool) :=
  resizeBy T (operator T) mem m nbucket2

end

def setValid (bs : List (Bucket K V)) (thumbnail : List Word) : List Word :=
  (List.range bs.length).foldl
    (fun words i => if (bs[i]?).any Bucket.isValid then bitArraySet words i else words) thumbnail

/-- `operator=` behind the allocation. -/
def copy (T : Traits K V) (mem : Memory) (m rhs : Map K V) : Option (Memory × Map K V) :=
  if m.nbucket = rhs.nbucket then
    rhs.buckets.bind fun bs =>
      (mark T { m with buckets := some bs, size := rhs.size } (setValid bs)).map fun m' => (mem, m')
  else (elements T rhs).bind fun l => insertAll T (operator T) mem m l

/-- `_load_factor` of a map that is not initialized is that of the other one. -/
def takeLoadFactor (m rhs : Map K V) : Map K V :=
  if m.buckets.isSome then m else { m with loadFactor := rhs.loadFactor }

/-- `operator=` of another map, and whether it copied it. -/
def assign (T : Traits K V) (mem : Memory) (m rhs : Map K V) : Option (Memory × Map K V × Bool) :=
  let m := clear m
  if rhs.size = 0 then some (mem, m, true)
  else
    let m := takeLoadFactor m rhs
    if m.buckets.isNone ∨ isTooCrowded m rhs.size then
      let m := { m with nbucket := rhs.nbucket }
      if granted T mem m.nbucket then
        if NoWrap T m.nbucket then
          -- the new buckets are written before they are read
          let m := { m with buckets := some [] }
          if T.sparse then
            let answer := bitArrayMalloc mem.ask.2 m.nbucket
            match answer.1 with
            | none => none -- they are not written, and whatever comes next reads them
            | some thumbnail =>
              (copy T answer.2 { m with thumbnail := some (bitArrayClear thumbnail m.nbucket) } rhs).map
                fun r => (r.1, r.2, true)
          else (copy T mem.ask.2 m rhs).map fun r => (r.1, r.2, true)
        else none
      else some (mem.ask.2, { m with buckets := none }, false)
    else (copy T mem m rhs).map fun r => (r.1, r.2, true)

/-! ## The machine -/

/-- One call on the maps, with what `malloc` answers during it. -/
inductive Act (ι K V : Type*) where
  | init (i : ι) (nbucket : UInt64) (loadFactor : ℕ) (mem : Memory)
  | insert (i : ι) (k : K) (v : V) (mem : Memory)
  | operator (i : ι) (k : K) (mem : Memory)
  | erase (i : ι) (k : K) (old : Bool)
  | clear (i : ι)
  | resize (i : ι) (nbucket : UInt64) (mem : Memory)
  | assign (i j : ι) (mem : Memory)
  | swap (i j : ι)
  | seek (i : ι) (k : K)
  | size (i : ι)
  | iterate (i : ι)

inductive Out (K V : Type*) where
  | none
  | status (ok : Bool)
  | value (v : Option V)
  | erased (n : ℕ) (old : Option V)
  | size (n : ℕ)
  | elements (l : List (K × V))

variable [DecidableEq ι]

def step (T : Traits K V) (s : ι → Map K V) : Act ι K V → Option ((ι → Map K V) × Out K V)
  | .init i nbucket loadFactor mem =>
    (init T mem (s i) nbucket.toNat loadFactor).map fun r => (Function.update s i r.2.1, .status r.2.2)
  | .insert i k v mem => (insert T mem (s i) k v).map fun r => (Function.update s i r.2, .none)
  | .operator i k mem =>
    (operator T mem (s i) k).bind fun r =>
      (seek T r.2 k).map fun v => (Function.update s i r.2, .value v)
  | .erase i k old =>
    (erase T (s i) k).map fun r =>
      (Function.update s i r.1, .erased r.2.1 (if old then r.2.2 else Option.none))
  | .clear i => some (Function.update s i (clear (s i)), .none)
  | .resize i nbucket mem =>
    (resize T mem (s i) nbucket.toNat).map fun r => (Function.update s i r.2.1, .status r.2.2)
  | .assign i j mem =>
    if i = j then some (s, .status true)
    else (assign T mem (s i) (s j)).map fun r => (Function.update s i r.2.1, .status r.2.2)
  | .swap i j => some (Function.update (Function.update s i (s j)) j (s i), .none)
  | .seek i k => (seek T (s i) k).map fun v => (s, .value v)
  | .size i => some (s, .size (s i).size)
  | .iterate i => (elements T (s i)).map fun l => (s, .elements l)

end Eabase.Utility.FlatMap
