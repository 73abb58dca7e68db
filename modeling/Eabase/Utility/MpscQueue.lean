import Eabase.Lib.Machine
import Eabase.Lib.Mpsc
import Eabase.Lib.Places

/-!
# The queue with many producers and one consumer

`utility/containers/mpsc_queue.h`. A producer exchanges its node into `_head`; the
one that finds the head null publishes its node in `_cur_enqueue_node`, any other
links its node to the one it found. The consumer takes the nodes from
`_cur_dequeue_node` on, or the published one, and when it is at the end of what is
connected it closes the list or turns the newer nodes round.

Every access to shared memory is a step of its own. `Alloc` gives any node that is
not in use. The data of a node that was moved from are gone.
-/

namespace Eabase.Utility.MpscQueue

open Lib Lib.Mpsc Function List

variable {ι ν α : Type*} [DecidableEq ι] [DecidableEq ν]

/-! ## The machine -/

/-- Where a producer stands: in front of the exchange of `_head`, of the store of the link, of the
store of the null link, of the store to `_cur_enqueue_node`. -/
inductive Pc (ν α : Type*) where
  | idle
  | exchange (n : ν) (v : α)
  | link (n m : ν)
  | setNull (n : ν)
  | publish (n : ν)
  deriving DecidableEq

/-- Where the consumer stands: in front of the choice of its node, of the store of null to
`_cur_enqueue_node`, of the move of the data, of the test of the link, in `ReverseList` in front of
the compare-and-exchange, of the turn of `p`, of the last store, and in front of the store to
`_cur_dequeue_node` (`closed` if the list was closed) and of the return of the node. -/
inductive ConsumerPc (ν : Type*) where
  | idle
  | load
  | storeNull (n : ν)
  | take (n : ν)
  | testNext (n : ν)
  | close (n : ν)
  | turn (old : ν) (tail : Link ν) (p : ν)
  | join (old : ν) (tail : Link ν)
  | advance (n : ν) (closed : Bool)
  | release (n : ν)
  deriving DecidableEq

/-- The queue and its nodes. `live` are the nodes that `Alloc` gave and nobody returned; `broken` is
the use of another one, or of a link that is no node. -/
structure State (ι ν α : Type*) where
  head : Option ν
  curEnqueueNode : Option ν
  curDequeueNode : Link ν
  next : ν → Link ν
  data : ν → Option α
  live : ν → Bool
  pc : ι → Pc ν α
  consumer : ConsumerPc ν
  -- the values in the order of the exchanges, those dequeued, the nodes exchanged and not
  -- dequeued, and what the exchange of a node found
  exchanged : List α
  dequeued : List α
  queue : List ν
  prev : ν → ν
  broken : Bool

def start (ι ν α : Type*) : State ι ν α where
  head := none
  curEnqueueNode := none
  curDequeueNode := .null
  next _ := .null
  data _ := none
  live _ := false
  pc _ := .idle
  consumer := .idle
  exchanged := []
  dequeued := []
  queue := []
  prev n := n
  broken := false

section

variable (s : State ι ν α)

def State.goto (p : ι) (c : Pc ν α) : State ι ν α :=
  { s with pc := update s.pc p c }

def State.use (n : ν) : State ι ν α :=
  { s with broken := s.broken || !s.live n }

def State.fault : State ι ν α :=
  { s with broken := true }

def enqueueStep (p : ι) : State ι ν α :=
  match s.pc p with
  | .idle => s
  | .exchange n v =>
    match s.head with
    | some m =>
      { s with
        head := some n, exchanged := s.exchanged ++ [v], queue := s.queue ++ [n]
        prev := update s.prev n m }.goto p (.link n m)
    | none =>
      { s with
        head := some n, exchanged := s.exchanged ++ [v], queue := s.queue ++ [n] }.goto p (.setNull n)
  | .link n m => { s.use n with next := update s.next n (.node m) }.goto p .idle
  | .setNull n => { s.use n with next := update s.next n .null }.goto p (.publish n)
  | .publish n => { s with curEnqueueNode := some n }.goto p .idle

def dequeueStep : State ι ν α :=
  match s.consumer with
  | .idle => s
  | .load =>
    match s.curDequeueNode with
    | .node n => { s with consumer := .storeNull n }
    | .null =>
      match s.curEnqueueNode with
      | some n => { s with consumer := .storeNull n }
      | none => { s with consumer := .idle }
    | .unconnected => s.fault
  | .storeNull n => { s with curEnqueueNode := none, consumer := .take n }
  | .take n =>
    match s.data n with
    | some v =>
      { s.use n with
        data := update s.data n none
        dequeued := s.dequeued ++ [v]
        consumer := .testNext n }
    | none => s.fault
  | .testNext n =>
    { s.use n with consumer := if s.next n = .null then .close n else .advance n false }
  | .close n =>
    match s.head with
    | none => s.fault
    | some newHead =>
      if newHead = n then { s with head := none, queue := [], consumer := .advance n true }
      else { s with consumer := .turn n .null newHead }
  | .turn old tail p =>
    match s.next p with
    | .unconnected => s.use p
    | .null => s.fault
    | .node savedNext =>
      { s.use p with
        next := update s.next p tail
        consumer := if savedNext = old then .join old (.node p) else .turn old (.node p) savedNext }
  | .join old tail =>
    { s.use old with next := update s.next old tail, consumer := .advance old false }
  | .advance n closed =>
    { s.use n with
      curDequeueNode := s.next n
      queue := if closed then s.queue else s.queue.tail
      consumer := .release n }
  | .release n => { s.use n with live := update s.live n false, consumer := .idle }

end

/-- A producer calls `Enqueue`, with the node that `Alloc` gives it, or goes on; the consumer calls
`Dequeue` or goes on. -/
inductive Act (ι ν α : Type*) where
  | enqueue (p : ι) (v : α) (n : ν)
  | dequeue
  | producer (p : ι)
  | consumer

def step (s : State ι ν α) : Act ι ν α → State ι ν α
  | .enqueue p v n =>
    match s.pc p with
    | .idle =>
      if s.live n then s
      else
        { s with
          live := update s.live n true
          next := update s.next n .unconnected
          data := update s.data n (some v) }.goto p (.exchange n v)
    | _ => s
  | .dequeue =>
    match s.consumer with
    | .idle => { s with consumer := .load }
    | _ => s
  | .producer p => enqueueStep s p
  | .consumer => dequeueStep s

/-! ## What holds -/

def Pc.writes : Pc ν α → Option ν
  | .exchange n _ | .link n _ | .setNull n => some n
  | _ => none

/-- The next step of the consumer returns `false`. -/
def State.fails (s : State ι ν α) : Prop :=
  s.consumer = .load ∧ s.curDequeueNode = .null ∧ s.curEnqueueNode = none

def Pc.own : Pc ν α → Option ν
  | .exchange n _ => some n
  | _ => none

def Pc.unlinked : Pc ν α → Option ν
  | .link n _ | .setNull n => some n
  | _ => none

/-- The producer has the list, and will publish it. -/
def Pc.publishes : Pc ν α → Bool
  | .setNull _ | .publish _ => true
  | _ => false

def ConsumerPc.own : ConsumerPc ν → Option ν
  | .advance n true | .release n => some n
  | _ => none

/-- The consumer is between two nodes. -/
def ConsumerPc.rests : ConsumerPc ν → Bool
  | .idle | .load | .release _ => true
  | _ => false

def ConsumerPc.walks : ConsumerPc ν → Bool
  | .storeNull _ | .take _ | .testNext _ | .close _ | .turn _ _ _ | .join _ _ | .advance _ false => true
  | _ => false

/-- The node whose data the consumer has moved. -/
def ConsumerPc.taken : ConsumerPc ν → Option ν
  | .testNext n | .close n | .turn n _ _ | .join n _ | .advance n _ => some n
  | _ => none

inductive Place (ι : Type*) where
  | producer (p : ι)
  | consumer
  | queue

def State.nodesAt (s : State ι ν α) : Place ι → List ν
  | .producer p => (s.pc p).own.toList
  | .consumer => s.consumer.own.toList
  | .queue => s.queue

def NodeOk (s : State ι ν α) : Pc ν α → Prop
  | .exchange n v => s.data n = some v ∧ s.next n = .unconnected
  | .link n m => n ∈ s.queue ∧ s.next n = .unconnected ∧ s.prev n = m
  | _ => True

structure Nodes (s : State ι ν α) : Prop where
  places : Exclusive s.nodesAt
  live : ∀ π n, n ∈ s.nodesAt π → s.live n = true
  head : s.head = s.queue.getLast?
  unlinked : ∀ p q n, (s.pc p).unlinked = some n → (s.pc q).unlinked = some n → p = q
  pcs : ∀ p, NodeOk s (s.pc p)

/-- The values not dequeued yet are those of the queue, in order. -/
structure Values (s : State ι ν α) : Prop where
  inOrder : s.dequeued ++ s.queue.filterMap s.data = s.exchanged
  filled : ∀ n ∈ s.queue, s.data n = none → s.consumer.taken = some n
  taken : ∀ n, s.consumer.taken = some n → s.data n = none

def State.Split (s : State ι ν α) (conn older turned : List ν) (e : Link ν) : Prop :=
  Mpsc.Split s.next s.prev s.queue conn older turned e

/-- The node at the front of the queue, with others connected to it. -/
def State.Front (s : State ι ν α) (n : ν) : Prop :=
  ∃ rest, s.Split (n :: rest) [] [] .null

def PublishOk (s : State ι ν α) : Pc ν α → Prop
  | .setNull n => s.Split [n] [] [] .unconnected
  | .publish n => s.Split [n] [] [] .null
  | _ => True

def ConsumerOk (s : State ι ν α) : ConsumerPc ν → Prop
  | .idle | .load | .release _ => ∃ n, s.curDequeueNode = .node n ∧ s.Front n
  | .storeNull n | .take n | .testNext n => s.Front n
  | .close n => s.Split [n] [] [] .null
  | .turn old tail p => ∃ older turned, s.Split [old] (older ++ [p]) turned .null ∧
      tail = first turned .null
  | .join old tail => ∃ p turned, s.Split [old] [] (p :: turned) .null ∧ tail = .node p
  | .advance n false => ∃ m rest, s.Split (n :: m :: rest) [] [] .null
  | .advance _ true => True

inductive Holder (ι : Type*) where
  | producer (p : ι)
  | published
  | consumer

def State.Has (s : State ι ν α) : Holder ι → Prop
  | .producer p => (s.pc p).publishes = true
  | .published => s.curEnqueueNode ≠ none ∧ s.consumer.walks = false
  | .consumer => s.consumer.walks = true ∨ s.consumer.rests = true ∧ s.curDequeueNode ≠ .null

def State.HasOk (s : State ι ν α) : Holder ι → Prop
  | .producer p => PublishOk s (s.pc p)
  | .published => ∀ n, s.curEnqueueNode = some n → s.Split [n] [] [] .null
  | .consumer => ConsumerOk s s.consumer

/-- As long as there are nodes, one party has the list. -/
structure Holds (s : State ι ν α) : Prop where
  some : s.queue ≠ [] → ∃ w, s.Has w
  one : ∀ w w', s.Has w → s.Has w' → w = w'
  has : ∀ w, s.Has w → s.HasOk w

structure Inv (s : State ι ν α) : Prop where
  nodes : Nodes s
  values : Values s
  holds : Holds s
  closed : ∀ n, s.consumer = .advance n true → s.next n = .null
  cleared : s.consumer.walks = true → (∀ n, s.consumer ≠ .storeNull n) → s.curEnqueueNode = none
  safe : s.broken = false

open Split

omit [DecidableEq ι] [DecidableEq ν] in
theorem start_inv : Inv (start ι ν α) where
  nodes := {
    places := by
      have hnil : (start ι ν α).nodesAt = fun _ => [] := by
        funext π
        cases π <;> rfl
      exact hnil ▸ Exclusive.nil
    live := by
      rintro (p | _ | _) n hn <;> cases hn
    head := rfl
    unlinked := nofun
    pcs := fun _ => trivial }
  values := {
    inOrder := rfl
    filled := nofun
    taken := nofun }
  holds := {
    some := fun h => absurd rfl h
    one := by
      rintro (p | _ | _) w hw
      · cases hw
      · exact absurd rfl hw.1
      · rcases hw with hw | hw
        · cases hw
        · exact absurd rfl hw.2
    has := by
      rintro (p | _ | _) hw
      · cases hw
      · exact absurd rfl hw.1
      · rcases hw with hw | hw
        · cases hw
        · exact absurd rfl hw.2 }
  closed := nofun
  cleared := nofun
  safe := rfl

section Steps

variable {s s' : State ι ν α} {p q : ι} {c : Pc ν α} {k : ConsumerPc ν} {n m : ν} {v : α}
  {π : Place ι} {e : Link ν} {w : Holder ι} {old : ν} {tail : Link ν}

section

omit [DecidableEq ν]

@[simp] theorem goto_self : (s.goto p c).pc p = c := update_self ..

theorem goto_ne (h : q ≠ p) : (s.goto p c).pc q = s.pc q := update_of_ne h ..

theorem forall_goto {P : ι → Pc ν α → Prop} (hp : P p c) (hrest : ∀ q ≠ p, P q (s.pc q)) (q : ι) :
    P q ((s.goto p c).pc q) := by
  obtain rfl | hq := eq_or_ne q p
  · rw [goto_self]
    exact hp
  · rw [goto_ne hq]
    exact hrest q hq

omit [DecidableEq ι] in
@[simp] theorem use_eq (hn : s.live n = true) : s.use n = s := by
  simp [State.use, hn]

end

/-! ### The nodes -/

section

omit [DecidableEq ι] [DecidableEq ν]

theorem Nodes.queue_live (h : Nodes s) (hn : n ∈ s.queue) : s.live n = true :=
  h.live .queue n hn

theorem Nodes.consumer_live (h : Nodes s) (hown : s.consumer.own = some n) : s.live n = true :=
  h.live .consumer n (Option.mem_toList.2 hown)

theorem Nodes.own_notMem (h : Nodes s) (hown : (s.pc p).own = some n) : n ∉ s.queue := by
  intro hq
  have hp : n ∈ s.nodesAt (.producer p) := Option.mem_toList.2 hown
  cases h.places.place_eq (q := Place.queue) hp hq

theorem Nodes.consumer_notMem (h : Nodes s) (hown : s.consumer.own = some n) : n ∉ s.queue := by
  intro hq
  have hp : n ∈ s.nodesAt .consumer := Option.mem_toList.2 hown
  cases h.places.place_eq (q := Place.queue) hp hq

theorem NodeOk.mono (h : NodeOk s c)
    (hown : ∀ n, c.own = some n → s'.data n = s.data n ∧ s'.next n = s.next n)
    (hlink : ∀ n, c.unlinked = some n → n ∈ s.queue → s.next n = .unconnected →
      n ∈ s'.queue ∧ s'.next n = s.next n ∧ s'.prev n = s.prev n) : NodeOk s' c := by
  cases c with
  | exchange n v => exact ⟨(hown n rfl).1.trans h.1, (hown n rfl).2.trans h.2⟩
  | link n m =>
    obtain ⟨hq, hn, hp⟩ := hlink n rfl h.1 h.2.1
    exact ⟨hq, hn.trans h.2.1, hp.trans h.2.2⟩
  | idle => trivial
  | setNull n => trivial
  | publish n => trivial

end

omit [DecidableEq ν] in
theorem unlinked_goto (h : Nodes s) (hpc : s'.pc = (s.goto p c).pc)
    (hun : ∀ n, c.unlinked = some n → ∀ q ≠ p, (s.pc q).unlinked ≠ some n) (q q' : ι) (n : ν)
    (hq : (s'.pc q).unlinked = some n) (hq' : (s'.pc q').unlinked = some n) : q = q' := by
  rw [hpc] at hq hq'
  obtain rfl | hqp := eq_or_ne q p
  · rw [goto_self] at hq
    by_contra hne
    rw [goto_ne (.symm hne)] at hq'
    exact hun n hq q' (.symm hne) hq'
  · rw [goto_ne hqp] at hq
    obtain rfl | hqp' := eq_or_ne q' p
    · rw [goto_self] at hq'
      exact absurd hq (hun n hq' q hqp)
    · rw [goto_ne hqp'] at hq'
      exact h.unlinked q q' n hq hq'

omit [DecidableEq ν] in
theorem nodesAt_goto (hown : c.own = (s.pc p).own) : (s.goto p c).nodesAt = s.nodesAt := by
  funext π
  cases π with
  | producer q =>
    show ((s.goto p c).pc q).own.toList = _
    obtain rfl | hq := eq_or_ne q p
    · rw [goto_self, hown]
      rfl
    · rw [goto_ne hq]
      rfl
  | consumer => rfl
  | queue => rfl

/-! ### Who has the list -/

section

omit [DecidableEq ι] [DecidableEq ν]

theorem Holds.sole (hw : s.Has w) (hone : ∀ w', s.Has w' → w' = w) (hok : s.HasOk w) :
    Holds s where
  some _ := ⟨w, hw⟩
  one w1 w2 h1 h2 := (hone w1 h1).trans (hone w2 h2).symm
  has w' hw' := hone w' hw' ▸ hok

theorem Holds.nobody (hq : s.queue = []) (hno : ∀ w, ¬ s.Has w) : Holds s where
  some hne := absurd hq hne
  one w _ hw := absurd hw (hno w)
  has w hw := absurd hw (hno w)

theorem Holds.stay (h : Holds s) (hhas : ∀ w, s'.Has w ↔ s.Has w) (hq : s'.queue ≠ [] → s.queue ≠ [])
    (hok : ∀ w, s.Has w → s.HasOk w → s'.HasOk w) : Holds s' where
  some hne := by
    obtain ⟨w, hw⟩ := h.some (hq hne)
    exact ⟨w, (hhas w).2 hw⟩
  one w w' hw hw' := h.one w w' ((hhas w).1 hw) ((hhas w').1 hw')
  has w hw := hok w ((hhas w).1 hw) (h.has w ((hhas w).1 hw))

end

section

omit [DecidableEq ι] [DecidableEq ν]

theorem Holds.walk (h : Holds s) (hw : s.Has w) (hwc : ∀ p, w ≠ .producer p)
    (hpc : s'.pc = s.pc) (hhas : s'.Has .consumer)
    (hpub : s'.consumer.walks = true ∨ s'.curEnqueueNode = none) (hok : ConsumerOk s' s'.consumer) :
    Holds s' := by
  refine Holds.sole hhas ?_ hok
  rintro (p | _ | _) hw'
  · have hp : s.Has (.producer p) := by
      show (s.pc p).publishes = true
      rw [← hpc]
      exact hw'
    exact absurd (h.one _ _ hw hp) (hwc p)
  · rcases hpub with hwalk | hnone
    · exact nomatch hw'.2.symm.trans hwalk
    · exact absurd hnone hw'.1
  · rfl

theorem HasOk.mem (hw : s.Has w) (hok : s.HasOk w) : ∃ n, n ∈ s.queue := by
  have hmem : ∀ {x rest older turned e}, s.Split (x :: rest) older turned e → ∃ n, n ∈ s.queue :=
    fun {x _ _ _ _} hs => ⟨x, Split.mem hs (mem_cons_self ..)⟩
  have hfront : ∀ {x}, s.Front x → ∃ n, n ∈ s.queue := fun ⟨_, hs⟩ => hmem hs
  cases w with
  | producer p =>
    simp only [State.Has, State.HasOk] at hw hok
    cases hpc : s.pc p with
    | setNull n => rw [hpc] at hok; exact hmem hok
    | publish n => rw [hpc] at hok; exact hmem hok
    | _ => rw [hpc] at hw; cases hw
  | published =>
    obtain ⟨n, hn⟩ := Option.ne_none_iff_exists'.1 hw.1
    exact hmem (hok n hn)
  | consumer =>
    simp only [State.Has, State.HasOk] at hw hok
    cases hk : s.consumer with
    | idle | load | release _ =>
      rw [hk] at hok
      obtain ⟨n, -, hs⟩ := hok
      exact hfront hs
    | storeNull _ | take _ | testNext _ => rw [hk] at hok; exact hfront hok
    | close _ => rw [hk] at hok; exact hmem hok
    | turn _ _ _ =>
      rw [hk] at hok
      obtain ⟨_, _, hs, -⟩ := hok
      exact hmem hs
    | join _ _ =>
      rw [hk] at hok
      obtain ⟨_, _, hs, -⟩ := hok
      exact hmem hs
    | advance n closed =>
      rw [hk] at hok hw
      cases closed with
      | false =>
        obtain ⟨_, _, hs⟩ := hok
        exact hmem hs
      | true => rcases hw with hw | hw <;> exact nomatch hw

theorem Holds.nobody_has (h : Holds s) (hq : s.queue = []) (w : Holder ι) : ¬ s.Has w := by
  intro hw
  obtain ⟨n, hn⟩ := HasOk.mem hw (h.has w hw)
  rw [hq] at hn
  cases hn

/-- A node whose link a producer has still to store is in the queue, and its link is not stored. -/
theorem Inv.unlinked_mem (h : Inv s) (hun : (s.pc q).unlinked = some n) :
    n ∈ s.queue ∧ s.next n = .unconnected := by
  have hok := h.nodes.pcs q
  have hholds := h.holds.has (.producer q)
  cases hq : s.pc q with
  | link n' m =>
    rw [hq] at hun hok
    cases hun
    exact ⟨hok.1, hok.2.1⟩
  | setNull n' =>
    simp only [State.Has, State.HasOk, hq] at hholds hun
    cases hun
    obtain ⟨newer, hqueue, hs⟩ := hholds rfl
    exact ⟨by rw [hqueue]; simp, hs.conn.1⟩
  | _ => rw [hq] at hun; cases hun

end

/-! ### The consumer -/

section

omit [DecidableEq ι] [DecidableEq ν]

theorem Nodes.consumerStep (h : Nodes s) (hpc : s'.pc = s.pc) (hown : s'.consumer.own = s.consumer.own)
    (hq : s'.queue = s.queue) (hlive : s'.live = s.live) (hhead : s'.head = s.head)
    (hprev : s'.prev = s.prev) (hdata : ∀ n ∉ s.queue, s'.data n = s.data n)
    (hnext : ∀ n, n ∉ s.queue ∨ s.next n = .unconnected → s'.next n = s.next n) : Nodes s' := by
  have heq : s'.nodesAt = s.nodesAt := by
    funext π
    cases π with
    | producer p => show (s'.pc p).own.toList = _; rw [hpc]; rfl
    | consumer => show s'.consumer.own.toList = _; rw [hown]; rfl
    | queue => exact hq
  constructor
  · exact heq ▸ h.places
  · intro π n hn
    rw [hlive]
    exact h.live π n (heq ▸ hn)
  · rw [hhead, hq]
    exact h.head
  · rw [hpc]
    exact h.unlinked
  · intro p
    rw [hpc]
    refine (h.pcs p).mono ?_ ?_
    · intro n hn
      have hout := h.own_notMem hn
      exact ⟨hdata n hout, hnext n (.inl hout)⟩
    · intro n _ hmem hun
      exact ⟨hq ▸ hmem, hnext n (.inr hun), by rw [hprev]⟩

theorem Values.congr (h : Values s) (hdeq : s'.dequeued = s.dequeued) (hq : s'.queue = s.queue)
    (hdata : s'.data = s.data) (hex : s'.exchanged = s.exchanged)
    (htaken : s'.consumer.taken = s.consumer.taken) : Values s' where
  inOrder := by rw [hdeq, hq, hdata, hex]; exact h.inOrder
  filled := by rw [hq, hdata, htaken]; exact h.filled
  taken := by rw [hdata, htaken]; exact h.taken

end

section

variable (h : Inv s)
include h

section

omit [DecidableEq ι] [DecidableEq ν]

/-- The consumer goes on, and changes no more than the two pointers to the list. -/
theorem Inv.consumerStep (cur : Option ν) (deq : Link ν) (hown : k.own = s.consumer.own)
    (htaken : k.taken = s.consumer.taken)
    (hholds : Holds { s with curEnqueueNode := cur, curDequeueNode := deq, consumer := k })
    (hclosed : ∀ n, k ≠ .advance n true) (hcleared : k.walks = true → (∀ n, k ≠ .storeNull n) →
      cur = none) :
    Inv { s with curEnqueueNode := cur, curDequeueNode := deq, consumer := k } where
  nodes := h.nodes.consumerStep rfl hown rfl rfl rfl rfl (fun _ _ => rfl) fun _ _ => rfl
  values := h.values.congr rfl rfl rfl rfl htaken
  holds := hholds
  closed n hn := absurd hn (hclosed n)
  cleared := hcleared
  safe := h.safe

theorem Inv.walks (hk : s.consumer = k) (hw : k.walks = true) :
    s.Has .consumer ∧ ConsumerOk s k ∧ ((∀ n, k ≠ .storeNull n) → s.curEnqueueNode = none) := by
  subst hk
  have hhas : s.Has .consumer := .inl hw
  exact ⟨hhas, h.holds.has .consumer hhas, h.cleared hw⟩

theorem Inv.taken_live (htaken : s.consumer.taken = some n) : s.live n = true := by
  have hmem : ∀ {k}, s.consumer = k → k.walks = true → k.taken = some n → n ∈ s.queue := by
    intro k hk hw hkn
    obtain ⟨-, hok, -⟩ := h.walks hk hw
    have hfirst : ∀ {rest older turned e}, s.Split (n :: rest) older turned e → n ∈ s.queue :=
      fun hs => mem hs (mem_cons_self ..)
    match k, hkn with
    | .testNext _, rfl =>
      obtain ⟨rest, hs⟩ := hok
      exact hfirst hs
    | .close _, rfl => exact hfirst hok
    | .turn _ _ _, rfl =>
      obtain ⟨_, _, hs, -⟩ := hok
      exact hfirst hs
    | .join _ _, rfl =>
      obtain ⟨_, _, hs, -⟩ := hok
      exact hfirst hs
    | .advance _ false, rfl =>
      obtain ⟨_, _, hs⟩ := hok
      exact hfirst hs
  cases hw : s.consumer.walks with
  | true => exact h.nodes.queue_live (hmem rfl hw htaken)
  | false =>
    cases hk : s.consumer with
    | advance m closed =>
      rw [hk] at hw htaken
      cases closed with
      | false => cases hw
      | true => exact h.nodes.consumer_live (by rw [hk]; exact htaken)
    | testNext _ | close _ | turn _ _ _ | join _ _ => rw [hk] at hw; cases hw
    | _ => rw [hk] at htaken; cases htaken

/-- Whether a call begins or finds nothing, the consumer has the list if it had it before. -/
theorem Inv.rest (hk : s.consumer = .idle ∧ k = .load ∨ s.consumer = .load ∧ k = .idle) :
    Inv { s with consumer := k } := by
  obtain ⟨hk, rfl⟩ | ⟨hk, rfl⟩ := hk
  all_goals
    refine h.consumerStep s.curEnqueueNode s.curDequeueNode (by rw [hk]; rfl)
      (by rw [hk]; rfl) ?_ nofun nofun
    refine h.holds.stay ?_ id ?_
    · rintro (p | _ | _)
      · exact Iff.rfl
      · simp only [State.Has, hk]
        rfl
      · simp only [State.Has, hk]
        rfl
    · rintro (p | _ | _) _ hok
      · exact hok
      · exact hok
      · simp only [State.HasOk, hk] at hok ⊢
        exact hok

theorem dequeue_inv (hk : s.consumer = .idle) : Inv { s with consumer := .load } :=
  h.rest (.inl ⟨hk, rfl⟩)

end

omit [DecidableEq ι] in
theorem load_inv (hk : s.consumer = .load) : Inv (dequeueStep s) := by
  have hhas : s.curDequeueNode ≠ .null → s.Has .consumer := fun hne => .inr ⟨by rw [hk]; rfl, hne⟩
  have hok : s.curDequeueNode ≠ .null → ∃ n, s.curDequeueNode = .node n ∧ s.Front n := by
    intro hne
    have hok := h.holds.has .consumer (hhas hne)
    simp only [State.HasOk, hk] at hok
    exact hok
  simp only [dequeueStep, hk]
  split
  next n hn =>
    have hne : s.curDequeueNode ≠ .null := by
      rw [hn]
      nofun
    obtain ⟨n', hn', hfront⟩ := hok hne
    cases hn.symm.trans hn'
    refine h.consumerStep s.curEnqueueNode s.curDequeueNode (by rw [hk]; rfl)
      (by rw [hk]; rfl) ?_ nofun fun _ hno => absurd rfl (hno n)
    exact h.holds.walk (hhas hne) nofun rfl (.inl rfl) (.inl rfl) hfront
  · split
    next n hn =>
      have hpub : s.Has .published := ⟨by rw [hn]; nofun, by rw [hk]; rfl⟩
      have hsplit : s.Split [n] [] [] .null := h.holds.has .published hpub n hn
      refine h.consumerStep s.curEnqueueNode s.curDequeueNode (by rw [hk]; rfl)
        (by rw [hk]; rfl) ?_ nofun fun _ hno => absurd rfl (hno n)
      exact h.holds.walk hpub nofun rfl (.inl rfl) (.inl rfl) ⟨[], hsplit⟩
    next hnull _ =>
      exact h.rest (.inr ⟨hk, rfl⟩)
  next hun =>
    obtain ⟨n, hn, -⟩ := hok (by rw [hun]; nofun)
    cases hun.symm.trans hn

omit [DecidableEq ι] [DecidableEq ν] in
theorem storeNull_inv (hk : s.consumer = .storeNull n) :
    Inv { s with curEnqueueNode := none, consumer := .take n } := by
  obtain ⟨hhas, hfront, -⟩ := h.walks hk rfl
  refine h.consumerStep none s.curDequeueNode (by rw [hk]; rfl) (by rw [hk]; rfl) ?_
    nofun fun _ _ => rfl
  exact h.holds.walk hhas nofun rfl (.inl rfl) (.inl rfl) hfront

end

section

omit [DecidableEq ι]

omit [DecidableEq ν] in
theorem Front.mem (h : s.Front n) : n ∈ s.queue := by
  obtain ⟨rest, hs⟩ := h
  exact Split.mem hs (mem_cons_self ..)

theorem take_inv (h : Inv s) (hk : s.consumer = .take n) : Inv (dequeueStep s) := by
  obtain ⟨hhas, hfront, hclear⟩ := h.walks hk rfl
  have hmem := Front.mem hfront
  have hdata : s.data n ≠ none := by
    intro hnone
    have htaken := h.values.filled n hmem hnone
    rw [hk] at htaken
    cases htaken
  obtain ⟨v, hv⟩ := Option.ne_none_iff_exists'.1 hdata
  simp only [dequeueStep, hk, hv, use_eq (h.nodes.queue_live hmem)]
  obtain ⟨rest, newer, hq, -⟩ := id hfront
  have hq' : s.queue = n :: (rest ++ newer) := by simpa using hq
  have hnd : s.queue.Nodup := h.nodes.places.nodup .queue
  have hrest : n ∉ rest ++ newer := by
    rw [hq'] at hnd
    exact (nodup_cons.1 hnd).1
  refine {
    nodes := h.nodes.consumerStep rfl (by rw [hk]; rfl) rfl rfl rfl rfl ?_ fun _ _ => rfl
    values := ?_
    holds := h.holds.walk hhas nofun rfl (.inl rfl) (.inl rfl) hfront
    closed := nofun
    cleared := fun _ _ => hclear nofun
    safe := h.safe }
  · intro m hm
    have hne : m ≠ n := fun he => hm (he ▸ hmem)
    exact update_of_ne hne ..
  · constructor
    · have hin := h.values.inOrder
      have hsame : (rest ++ newer).filterMap (update s.data n none) =
          (rest ++ newer).filterMap s.data := by
        apply filterMap_congr
        intro m hm
        have hne : m ≠ n := fun he => hrest (he ▸ hm)
        exact update_of_ne hne ..
      rw [hq', filterMap_cons_some hv] at hin
      rw [hq', filterMap_cons_none (update_self ..), hsame, append_assoc]
      exact hin
    · intro m hm hnone
      by_cases hmn : m = n
      · rw [hmn]
        rfl
      · have hold : s.data m = none := (update_of_ne hmn ..).symm.trans hnone
        have htaken := h.values.filled m hm hold
        rw [hk] at htaken
        cases htaken
    · rintro m ⟨⟩
      exact update_self ..

theorem testNext_inv (h : Inv s) (hk : s.consumer = .testNext n) : Inv (dequeueStep s) := by
  obtain ⟨hhas, hfront, hclear⟩ := h.walks hk rfl
  have hlive := h.nodes.queue_live (Front.mem hfront)
  obtain ⟨rest, hs⟩ := hfront
  simp only [dequeueStep, hk, use_eq hlive]
  rcases next_cases hs with ⟨hnext, rfl⟩ | ⟨m, rest, rfl, hnext⟩
  · rw [if_pos hnext]
    refine h.consumerStep s.curEnqueueNode s.curDequeueNode (by rw [hk]; rfl)
      (by rw [hk]; rfl) ?_ nofun fun _ _ => hclear nofun
    exact h.holds.walk hhas nofun rfl (.inl rfl) (.inl rfl) hs
  · rw [if_neg (by rw [hnext]; nofun)]
    refine h.consumerStep s.curEnqueueNode s.curDequeueNode (by rw [hk]; rfl)
      (by rw [hk]; rfl) ?_ nofun fun _ _ => hclear nofun
    exact h.holds.walk hhas nofun rfl (.inl rfl) (.inl rfl) ⟨m, rest, hs⟩

omit [DecidableEq ν] in
theorem Nodes.dequeued (h : Nodes s) (hq : s.queue = n :: s'.queue) (hold : s.consumer.own = none)
    (hown : s'.consumer.own = some n) (hpc : s'.pc = s.pc) (hlive : s'.live = s.live)
    (hhead : s'.head = s'.queue.getLast?) (hnext : s'.next = s.next) (hprev : s'.prev = s.prev)
    (hdata : s'.data = s.data) (hn : s.next n ≠ .unconnected) : Nodes s' := by
  have hrest : ∀ π, π ≠ .queue → π ≠ .consumer → s'.nodesAt π = s.nodesAt π := by
    rintro (p | _ | _) hπ hπ'
    · show (s'.pc p).own.toList = _
      rw [hpc]
      rfl
    · exact absurd rfl hπ'
    · exact absurd rfl hπ
  have hsub : (s'.nodesAt .queue ++ s'.nodesAt .consumer).Subperm
      (s.nodesAt .queue ++ s.nodesAt .consumer) := by
    show (s'.queue ++ s'.consumer.own.toList).Subperm (s.queue ++ s.consumer.own.toList)
    rw [hown, hold, hq]
    simpa using (perm_append_singleton n s'.queue).subperm
  have hne : (.queue : Place ι) ≠ .consumer := nofun
  constructor
  · exact h.places.move hne hsub hrest
  · intro π m hm
    obtain ⟨π', hm'⟩ := Exclusive.mem_of_move hsub hrest hm
    rw [hlive]
    exact h.live π' m hm'
  · exact hhead
  · rw [hpc]
    exact h.unlinked
  · intro p
    rw [hpc]
    refine (h.pcs p).mono (fun _ _ => ⟨by rw [hdata], by rw [hnext]⟩) ?_
    intro m _ hm hun
    have hmn : m ≠ n := by
      rintro rfl
      exact hn hun
    rw [hq] at hm
    exact ⟨(mem_cons.1 hm).resolve_left hmn, by rw [hnext], by rw [hprev]⟩

omit [DecidableEq ν] in
theorem Values.dequeued (h : Values s) (hq : s.queue = n :: s'.queue) (hnd : s.queue.Nodup)
    (htaken : s.consumer.taken = some n) (hdeq : s'.dequeued = s.dequeued) (hdata : s'.data = s.data)
    (hex : s'.exchanged = s.exchanged)
    (htaken' : ∀ m, s'.consumer.taken = some m → m = n) : Values s' := by
  have hnone := h.taken n htaken
  constructor
  · have hin := h.inOrder
    rw [hq, filterMap_cons_none hnone] at hin
    rw [hdeq, hdata, hex]
    exact hin
  · intro m hm hd
    rw [hq] at hnd
    have hmn : m ≠ n := by
      rintro rfl
      exact (nodup_cons.1 hnd).1 hm
    rw [hdata] at hd
    have hold := h.filled m (hq ▸ mem_cons_of_mem _ hm) hd
    rw [htaken] at hold
    exact absurd (Option.some.inj hold).symm hmn
  · intro m hm
    rw [hdata, htaken' m hm]
    exact hnone

end

section

variable (h : Inv s)
include h

section

omit [DecidableEq ι]

theorem close_inv (hk : s.consumer = .close n) : Inv (dequeueStep s) := by
  obtain ⟨hhas, hs, hclear⟩ := h.walks hk rfl
  have hs : s.Split [n] [] [] .null := hs
  have hnext : s.next n = .null := by
    rcases next_cases hs with ⟨hnext, -⟩ | ⟨_, _, hnil, -⟩
    · exact hnext
    · cases hnil
  simp only [dequeueStep, hk]
  split
  next hhead =>
    have hnil : s.queue = [] := getLast?_eq_none_iff.1 (h.nodes.head ▸ hhead)
    have hmem := mem hs (mem_cons_self ..)
    rw [hnil] at hmem
    cases hmem
  next newHead hhead =>
    have hlast : s.queue.getLast? = some newHead := h.nodes.head ▸ hhead
    split
    next heq =>
      subst heq
      have hq : s.queue = [newHead] := closed hs hlast
      have hnd : s.queue.Nodup := h.nodes.places.nodup .queue
      refine {
        nodes := h.nodes.dequeued (n := newHead) hq (by rw [hk]; rfl) rfl rfl rfl rfl rfl rfl rfl
          (by rw [hnext]; nofun)
        values := h.values.dequeued (n := newHead) hq hnd (by rw [hk]; rfl) rfl rfl rfl ?_
        holds := .nobody rfl ?_
        closed := ?_
        cleared := nofun
        safe := h.safe }
      · rintro m ⟨⟩
        rfl
      · rintro (p | _ | _) hw
        · have hp : s.Has (.producer p) := hw
          cases h.holds.one _ _ hhas hp
        · exact hw.1 (hclear nofun)
        · rcases hw with hw | hw <;> exact nomatch hw
      · rintro m ⟨⟩
        exact hnext
    next hne =>
      obtain ⟨older, hopen⟩ := opened hs hlast hne
      refine h.consumerStep s.curEnqueueNode s.curDequeueNode (by rw [hk]; rfl)
        (by rw [hk]; rfl) ?_ nofun fun _ _ => hclear nofun
      exact h.holds.walk hhas nofun rfl (.inl rfl) (.inl rfl) ⟨older, [], hopen, rfl⟩

/-- The consumer stores the link of a node that no producer has still to link. -/
theorem Inv.consumerStore (hhas : s.Has .consumer) (hmem : n ∈ s.queue)
    (hun : s.next n ≠ .unconnected) (hown : k.own = s.consumer.own) (htaken : k.taken = s.consumer.taken)
    (hwalks : k.walks = true) (hclear : s.curEnqueueNode = none)
    (hok : ConsumerOk { s with next := update s.next n e, consumer := k } k) :
    Inv { s with next := update s.next n e, consumer := k } where
  nodes := by
    refine h.nodes.consumerStep rfl hown rfl rfl rfl rfl (fun _ _ => rfl) ?_
    intro m hm
    have hne : m ≠ n := by
      rintro rfl
      exact hm.elim (fun hm => hm hmem) hun
    exact update_of_ne hne ..
  values := h.values.congr rfl rfl rfl rfl htaken
  holds := h.holds.walk hhas nofun rfl (.inl hwalks) (.inl hwalks) hok
  closed := by
    rintro m rfl
    cases hwalks
  cleared := fun _ _ => hclear
  safe := h.safe

theorem turn_inv (hk : s.consumer = .turn old tail n) :
    Inv (dequeueStep s) := by
  obtain ⟨hhas, ⟨older, turned, hs, rfl⟩, hclear⟩ := h.walks hk rfl
  have hmem : n ∈ s.queue := by
    obtain ⟨newer, hq, -⟩ := hs
    rw [hq]
    simp
  simp only [dequeueStep, hk]
  rcases turn_link hs with hun | hnext
  · simp only [hun, use_eq (h.nodes.queue_live hmem)]
    exact h
  · have hun : s.next n ≠ .unconnected := by
      rw [hnext]
      nofun
    simp only [hnext, use_eq (h.nodes.queue_live hmem)]
    rcases turn hs with ⟨heq, hturn⟩ | ⟨hne, older', hturn⟩
    · rw [if_pos heq]
      exact h.consumerStore hhas hmem hun (by rw [hk]; rfl) (by rw [hk]; rfl) rfl (hclear nofun)
        ⟨n, turned, hturn, rfl⟩
    · rw [if_neg hne]
      exact h.consumerStore hhas hmem hun (by rw [hk]; rfl) (by rw [hk]; rfl) rfl (hclear nofun)
        ⟨older', n :: turned, hturn, rfl⟩

theorem join_inv (hk : s.consumer = .join old tail) :
    Inv (dequeueStep s) := by
  obtain ⟨hhas, ⟨p, turned, hs, rfl⟩, hclear⟩ := h.walks hk rfl
  have hmem : old ∈ s.queue := mem hs (mem_cons_self ..)
  have hnext : s.next old = .null := by
    obtain ⟨newer, -, hshape⟩ := hs
    exact hshape.conn.1
  simp only [dequeueStep, hk, use_eq (h.nodes.queue_live hmem)]
  exact h.consumerStore hhas hmem (by rw [hnext]; nofun) (by rw [hk]; rfl) (by rw [hk]; rfl) rfl
    (hclear nofun) ⟨p, turned, .join hs⟩

/-- The consumer is done with its node: others are connected behind it, or the list was closed. -/
theorem advance_inv {closed : Bool} (hk : s.consumer = .advance n closed) :
    Inv (dequeueStep s) := by
  cases closed with
  | false =>
    obtain ⟨hhas, ⟨m, rest, hs⟩, hclear⟩ := h.walks hk rfl
    have hmem : n ∈ s.queue := mem hs (mem_cons_self ..)
    have hnext : s.next n = .node m := by
      obtain ⟨newer, -, hshape⟩ := hs
      exact hshape.conn.1
    have hq : s.queue = n :: s.queue.tail := by
      obtain ⟨newer, hq, -⟩ := hs
      rw [hq]
      rfl
    have hnd : s.queue.Nodup := h.nodes.places.nodup .queue
    have hhead : s.head = s.queue.tail.getLast? := by
      obtain ⟨newer, hq, -⟩ := hs
      rw [h.nodes.head, hq]
      rfl
    simp only [dequeueStep, hk, use_eq (h.nodes.queue_live hmem), hnext, Bool.false_eq_true, if_false]
    exact {
      nodes := h.nodes.dequeued (n := n) hq (by rw [hk]; rfl) rfl rfl rfl hhead rfl rfl rfl
        (by rw [hnext]; nofun)
      values := h.values.dequeued (n := n) hq hnd (by rw [hk]; rfl) rfl rfl rfl nofun
      holds := h.holds.walk hhas nofun rfl (.inr ⟨rfl, nofun⟩) (.inr (hclear nofun))
        ⟨m, rfl, rest, .pop hs⟩
      closed := nofun
      cleared := nofun
      safe := h.safe }
  | true =>
    have hnext := h.closed n hk
    have hlive := h.nodes.consumer_live (n := n) (by rw [hk]; rfl)
    simp only [dequeueStep, hk, use_eq hlive, hnext, if_true]
    have hno : ¬ s.Has .consumer := by
      rintro (hw | hw)
      · rw [hk] at hw
        cases hw
      · rw [hk] at hw
        cases hw.1
    refine {
      nodes := h.nodes.consumerStep rfl (by rw [hk]; rfl) rfl rfl rfl rfl (fun _ _ => rfl) fun _ _ => rfl
      values := {
        inOrder := h.values.inOrder
        filled := ?_
        taken := nofun }
      holds := h.holds.stay ?_ id ?_
      closed := nofun
      cleared := nofun
      safe := h.safe }
    · intro m hm hnone
      have htaken := h.values.filled m hm hnone
      rw [hk] at htaken
      cases htaken
      exact absurd hm (h.nodes.consumer_notMem (by rw [hk]; rfl))
    · rintro (p | _ | _)
      · exact Iff.rfl
      · simp only [State.Has, hk]
        rfl
      · constructor
        · rintro (hw | hw)
          · cases hw
          · exact absurd rfl hw.2
        · exact fun hw => absurd hw hno
    · rintro (p | _ | _) hw hok
      · exact hok
      · exact hok
      · exact absurd hw hno

theorem release_inv (hk : s.consumer = .release n) : Inv (dequeueStep s) := by
  have hown : s.consumer.own = some n := by rw [hk]; rfl
  simp only [dequeueStep, hk, use_eq (h.nodes.consumer_live hown)]
  set s' : State ι ν α := { s with live := update s.live n false, consumer := .idle }
  have hrest : ∀ π, π ≠ .consumer → s'.nodesAt π = s.nodesAt π := by
    rintro (p | _ | _) hπ
    · rfl
    · exact absurd rfl hπ
    · rfl
  have hnodes : Nodes s' := by
    constructor
    · exact h.nodes.places.shrink (p := .consumer) (nil_subperm) hrest
    · intro π m hm
      have hπ : π ≠ .consumer := by
        rintro rfl
        cases hm
      rw [hrest π hπ] at hm
      have hne : m ≠ n := by
        rintro rfl
        have hmc : m ∈ s.nodesAt .consumer := Option.mem_toList.2 hown
        exact hπ (h.nodes.places.place_eq hm hmc)
      exact (update_of_ne hne ..).trans (h.nodes.live π m hm)
    · exact h.nodes.head
    · exact h.nodes.unlinked
    · exact fun p => (h.nodes.pcs p).mono (fun _ _ => ⟨rfl, rfl⟩) fun _ _ hm _ => ⟨hm, rfl, rfl⟩
  refine {
    nodes := hnodes
    values := h.values.congr rfl rfl rfl rfl (by rw [hk]; rfl)
    holds := h.holds.stay ?_ id ?_
    closed := nofun
    cleared := nofun
    safe := h.safe }
  · rintro (p | _ | _)
    · exact Iff.rfl
    · simp only [State.Has, hk]
      rfl
    · simp only [State.Has, hk]
      rfl
  · rintro (p | _ | _) _ hok
    · exact hok
    · exact hok
    · simp only [State.HasOk, hk] at hok ⊢
      exact hok

theorem dequeueStep_inv : Inv (dequeueStep s) := by
  cases hk : s.consumer with
  | idle => simpa only [dequeueStep, hk] using h
  | load => exact load_inv h hk
  | storeNull n => simpa only [dequeueStep, hk] using storeNull_inv h hk
  | take n => exact take_inv h hk
  | testNext n => exact testNext_inv h hk
  | close n => exact close_inv h hk
  | turn old tail p => exact turn_inv h hk
  | join old tail => exact join_inv h hk
  | advance n closed => exact advance_inv h hk
  | release n => exact release_inv h hk

end

end

/-! ### The producers -/

omit [DecidableEq ν] in
theorem Holds.producer (h : Holds s) (hp : (s.pc p).publishes = false) (hc : c.publishes = false)
    (hpc : s'.pc = (s.goto p c).pc) (hcur : s'.curEnqueueNode = s.curEnqueueNode)
    (hdeq : s'.curDequeueNode = s.curDequeueNode) (hk : s'.consumer = s.consumer)
    (hq : s'.queue ≠ [] → s.queue ≠ [])
    (hsplit : ∀ conn older turned, s.Split conn older turned .null → s'.Split conn older turned .null)
    (hset : ∀ q n, q ≠ p → s.pc q = .setNull n → s.Split [n] [] [] .unconnected →
      s'.Split [n] [] [] .unconnected) : Holds s' := by
  have hpub : ∀ q, (s'.pc q).publishes = (s.pc q).publishes := by
    intro q
    rw [hpc]
    obtain rfl | hqp := eq_or_ne q p
    · rw [goto_self, hp, hc]
    · rw [goto_ne hqp]
  have hfront : ∀ {n}, s.Front n → s'.Front n := fun ⟨rest, hs⟩ => ⟨rest, hsplit _ _ _ hs⟩
  refine h.stay ?_ hq ?_
  · rintro (q | _ | _)
    · simp only [State.Has, hpub]
    · simp only [State.Has, hcur, hk]
    · simp only [State.Has, hdeq, hk]
  · rintro (q | _ | _) hw hok
    · have hqp : q ≠ p := by
        rintro rfl
        exact nomatch hp.symm.trans hw
      simp only [State.HasOk, hpc, goto_ne hqp] at hok ⊢
      cases hqc : s.pc q with
      | setNull n => rw [hqc] at hok; exact hset q n hqp hqc hok
      | publish n => rw [hqc] at hok; exact hsplit _ _ _ hok
      | _ => trivial
    · intro n hn
      exact hsplit _ _ _ (hok n (hcur ▸ hn))
    · simp only [State.HasOk, hk] at hok ⊢
      cases hkc : s.consumer with
      | idle | load | release _ =>
        rw [hkc] at hok
        obtain ⟨n, hn, hf⟩ := hok
        exact ⟨n, hdeq.trans hn, hfront hf⟩
      | storeNull _ | take _ | testNext _ => rw [hkc] at hok; exact hfront hok
      | close _ => rw [hkc] at hok; exact hsplit _ _ _ hok
      | turn _ _ _ =>
        rw [hkc] at hok
        obtain ⟨older, turned, hs, ht⟩ := hok
        exact ⟨older, turned, hsplit _ _ _ hs, ht⟩
      | join _ _ =>
        rw [hkc] at hok
        obtain ⟨q, turned, hs, ht⟩ := hok
        exact ⟨q, turned, hsplit _ _ _ hs, ht⟩
      | advance n closed =>
        rw [hkc] at hok
        cases closed with
        | false =>
          obtain ⟨m, rest, hs⟩ := hok
          exact ⟨m, rest, hsplit _ _ _ hs⟩
        | true => trivial

omit [DecidableEq ν] in
theorem pcs_goto (h : Nodes s) (hpc : s'.pc = (s.goto p c).pc) (hok : NodeOk s' c)
    (hown : ∀ q ≠ p, ∀ n, (s.pc q).own = some n → s'.data n = s.data n ∧ s'.next n = s.next n)
    (hlink : ∀ q ≠ p, ∀ n, (s.pc q).unlinked = some n → n ∈ s.queue → s.next n = .unconnected →
      n ∈ s'.queue ∧ s'.next n = s.next n ∧ s'.prev n = s.prev n) (q : ι) : NodeOk s' (s'.pc q) := by
  rw [hpc]
  exact forall_goto (P := fun _ c => NodeOk s' c) hok
    (fun q hq => (h.pcs q).mono (hown q hq) (hlink q hq)) q

/-- `Alloc` gives a node that is not in use, which is made ready. -/
theorem enqueue_inv (h : Inv s) (hpc : s.pc p = .idle) (hn : s.live n = false) : Inv ({ s with
      live := update s.live n true
      next := update s.next n .unconnected
      data := update s.data n (some v) }.goto p (.exchange n v)) := by
  have hdead : ∀ π, n ∉ s.nodesAt π := by
    intro π hmem
    rw [h.nodes.live π n hmem] at hn
    cases hn
  have hq : n ∉ s.queue := hdead .queue
  set s' := ({ s with
    live := update s.live n true
    next := update s.next n .unconnected
    data := update s.data n (some v) }.goto p (.exchange n v))
  have hpc' : s'.pc = (s.goto p (.exchange n v)).pc := rfl
  have hother : ∀ π, π ≠ .producer p → s'.nodesAt π = s.nodesAt π := by
    rintro (q | _ | _) hπ
    · simp only [State.nodesAt, hpc', ne_eq, Place.producer.injEq] at hπ ⊢
      rw [goto_ne hπ]
    · rfl
    · rfl
  have hself : s'.nodesAt (.producer p) = [n] := by
    simp only [State.nodesAt, hpc', goto_self]
    rfl
  have hold : s.nodesAt (.producer p) = [] := by
    simp only [State.nodesAt, hpc]
    rfl
  have hdata : ∀ m ∈ s.queue, update s.data n (some v) m = s.data m := by
    intro m hm
    have hne : m ≠ n := fun he => hq (he ▸ hm)
    exact update_of_ne hne ..
  have hnodes : Nodes s' := by
    constructor
    · exact h.nodes.places.insert hdead (by rw [hold, hself]) hother
    · intro π m hm
      by_cases hmn : m = n
      · rw [hmn]
        exact update_self ..
      · refine (update_of_ne hmn ..).trans (h.nodes.live π m ?_)
        by_cases hπ : π = .producer p
        · rw [hπ, hself, mem_singleton] at hm
          exact absurd hm hmn
        · exact hother π hπ ▸ hm
    · exact h.nodes.head
    · exact unlinked_goto h.nodes hpc' nofun
    · refine pcs_goto h.nodes hpc' ⟨update_self .., update_self ..⟩ ?_ ?_
      · intro q _ m hm
        have hne : m ≠ n := fun he => hdead (.producer q) (he ▸ Option.mem_toList.2 hm)
        exact ⟨update_of_ne hne .., update_of_ne hne ..⟩
      · intro q _ m _ hm _
        have hne : m ≠ n := fun he => hq (he ▸ hm)
        exact ⟨hm, update_of_ne hne .., rfl⟩
  refine {
    nodes := hnodes
    values := ?_
    holds := h.holds.producer (by rw [hpc]; rfl) rfl hpc' rfl rfl rfl id
      (fun _ _ _ hs => .beside hs hq) fun _ _ _ _ hs => .beside hs hq
    closed := ?_
    cleared := h.cleared
    safe := h.safe }
  · constructor
    · show s.dequeued ++ s.queue.filterMap (update s.data n (some v)) = s.exchanged
      rw [filterMap_congr hdata]
      exact h.values.inOrder
    · intro m hm hnone
      exact h.values.filled m hm ((hdata m hm).symm.trans hnone)
    · intro m hm
      have hne : m ≠ n := by
        rintro rfl
        rw [h.taken_live hm] at hn
        cases hn
      exact (update_of_ne hne ..).trans (h.values.taken m hm)
  · intro m hm
    have hmem : m ∈ s.nodesAt .consumer := by
      have hk : s.consumer = .advance m true := hm
      simp only [State.nodesAt, hk]
      exact mem_singleton_self m
    have hne : m ≠ n := fun he => hdead .consumer (he ▸ hmem)
    exact (update_of_ne hne ..).trans (h.closed m hm)

omit [DecidableEq ν] in
theorem Nodes.queued (h : Nodes s) (hown : (s.pc p).own = some n) (hc : c.own = none)
    (hpc : s'.pc = (s.goto p c).pc) (hk : s'.consumer = s.consumer) (hqueue : s'.queue = s.queue ++ [n])
    (hhead : s'.head = some n) (hlive : s'.live = s.live)
    (hun : ∀ n, c.unlinked = some n → ∀ q ≠ p, (s.pc q).unlinked ≠ some n)
    (hpcs : ∀ q, NodeOk s' (s'.pc q)) : Nodes s' := by
  have hold : s.nodesAt (.producer p) = [n] := by
    simp only [State.nodesAt, hown, Option.toList_some]
  have hself : s'.nodesAt (.producer p) = [] := by
    simp only [State.nodesAt, hpc, goto_self, hc, Option.toList_none]
  have hto : s'.nodesAt .queue = s.nodesAt .queue ++ [n] := hqueue
  have hrest : ∀ π, π ≠ .producer p → π ≠ .queue → s'.nodesAt π = s.nodesAt π := by
    rintro (q | _ | _) hq hπ
    · simp only [State.nodesAt, ne_eq, Place.producer.injEq] at hq ⊢
      rw [hpc, goto_ne hq]
    · show s'.consumer.own.toList = _
      rw [hk]
      rfl
    · exact absurd rfl hπ
  have hsub : (s'.nodesAt (.producer p) ++ s'.nodesAt .queue).Subperm
      (s.nodesAt (.producer p) ++ s.nodesAt .queue) := by
    rw [hold, hself, hto, nil_append]
    exact (perm_append_singleton ..).subperm
  have hne : .producer p ≠ Place.queue := nofun
  constructor
  · exact h.places.move hne hsub hrest
  · intro π m hm
    obtain ⟨π', hm'⟩ := Exclusive.mem_of_move hsub hrest hm
    rw [hlive]
    exact h.live π' m hm'
  · rw [hhead, hqueue, getLast?_concat]
  · exact unlinked_goto h hpc hun
  · exact hpcs

omit [DecidableEq ι] [DecidableEq ν] in
theorem Values.queued (h : Values s) (hv : s.data n = some v) (hdeq : s'.dequeued = s.dequeued)
    (hqueue : s'.queue = s.queue ++ [n]) (hdata : s'.data = s.data)
    (hex : s'.exchanged = s.exchanged ++ [v]) (hk : s'.consumer = s.consumer) : Values s' := by
  constructor
  · rw [hdeq, hqueue, hdata, hex, filterMap_append, ← append_assoc, h.inOrder,
      filterMap_cons_some hv]
    rfl
  · intro m hm hnone
    rw [hqueue, mem_append, mem_singleton] at hm
    rw [hdata] at hnone
    rw [hk]
    rcases hm with hm | rfl
    · exact h.filled m hm hnone
    · exact nomatch hv.symm.trans hnone
  · intro m hm
    rw [hdata]
    exact h.taken m (hk ▸ hm)

theorem exchange_inv (h : Inv s) (hpc : s.pc p = .exchange n v) : Inv (enqueueStep s p) := by
  have hown : (s.pc p).own = some n := by rw [hpc]; rfl
  have hq := h.nodes.own_notMem hown
  have hok := h.nodes.pcs p
  rw [hpc] at hok
  obtain ⟨hdata, hnext⟩ := hok
  have hun : ∀ n', (some n : Option ν) = some n' → ∀ q ≠ p, (s.pc q).unlinked ≠ some n' := by
    rintro _ ⟨⟩ q _ hun
    exact hq (h.unlinked_mem hun).1
  simp only [enqueueStep, hpc]
  cases hhead : s.head with
  | some m =>
    have hlast : s.queue.getLast? = some m := h.nodes.head ▸ hhead
    refine {
      nodes := h.nodes.queued hown rfl rfl rfl rfl rfl rfl hun ?_
      values := h.values.queued hdata rfl rfl rfl rfl rfl
      holds := h.holds.producer (p := p) (c := .link n m) (by rw [hpc]; rfl) rfl rfl rfl rfl rfl ?_
        (fun _ _ _ hs => .exchange hs hq hnext hlast)
        fun _ _ _ _ hs => .exchange hs hq hnext hlast
      closed := h.closed
      cleared := h.cleared
      safe := h.safe }
    · refine pcs_goto h.nodes rfl ⟨by simp [State.goto], hnext, update_self ..⟩
        (fun _ _ _ _ => ⟨rfl, rfl⟩) ?_
      intro q hqp m' _ hm' _
      have hne : m' ≠ n := fun he => hq (he ▸ hm')
      exact ⟨mem_append_left _ hm', rfl, update_of_ne hne ..⟩
    · intro _ hnil
      rw [hnil] at hlast
      cases hlast
  | none =>
    have hnil : s.queue = [] := getLast?_eq_none_iff.1 (h.nodes.head ▸ hhead)
    have hno := h.holds.nobody_has hnil
    have hself : update s.pc p (.setNull n) p = .setNull n := update_self ..
    refine {
      nodes := h.nodes.queued hown rfl rfl rfl rfl rfl rfl hun ?_
      values := h.values.queued hdata rfl rfl rfl rfl rfl
      holds := .sole (w := .producer p) ?_ ?_ ?_
      closed := h.closed
      cleared := h.cleared
      safe := h.safe }
    · refine pcs_goto h.nodes rfl trivial (fun _ _ _ _ => ⟨rfl, rfl⟩) ?_
      exact fun _ _ _ _ hm _ => ⟨mem_append_left _ hm, rfl, rfl⟩
    · show (update s.pc p (.setNull n) p).publishes = true
      rw [hself]
      rfl
    · rintro (q | _ | _) hw
      · by_cases hqp : q = p
        · rw [hqp]
        · have hw' : ((s.goto p (.setNull n)).pc q).publishes = true := hw
          rw [goto_ne hqp] at hw'
          exact absurd hw' (hno (.producer q))
      · exact absurd hw (hno .published)
      · exact absurd hw (hno .consumer)
    · show PublishOk _ (update s.pc p (.setNull n) p)
      rw [hself]
      rw [hnil]
      exact single hnext

theorem Nodes.store (h : Nodes s) (hown : c.own = (s.pc p).own) (hun : c.unlinked = none)
    (hok : NodeOk { s with next := update s.next n e } c)
    (hn : ∀ q ≠ p, (s.pc q).own ≠ some n ∧ (s.pc q).unlinked ≠ some n) :
    Nodes ({ s with next := update s.next n e }.goto p c) := by
  have heq : (s.goto p c).nodesAt = s.nodesAt := nodesAt_goto hown
  have hpcs : ∀ q, NodeOk ({ s with next := update s.next n e }.goto p c) ((s.goto p c).pc q) := by
    refine pcs_goto h rfl hok ?_ ?_
    · intro q hq m hm
      have hne : m ≠ n := fun he => (hn q hq).1 (he ▸ hm)
      exact ⟨rfl, update_of_ne hne ..⟩
    · intro q hq m hm hmq _
      have hne : m ≠ n := fun he => (hn q hq).2 (he ▸ hm)
      exact ⟨hmq, update_of_ne hne .., rfl⟩
  exact {
    places := heq ▸ h.places
    live := heq ▸ h.live
    head := h.head
    unlinked := unlinked_goto h rfl (by rw [hun]; nofun)
    pcs := hpcs }

omit [DecidableEq ι] in
theorem Inv.closed_store (h : Inv s) (hmem : n ∈ s.queue) (m : ν)
    (hm : s.consumer = .advance m true) : update s.next n e m = .null := by
  have hne : m ≠ n := by
    rintro rfl
    exact h.nodes.consumer_notMem (by rw [hm]; rfl) hmem
  exact (update_of_ne hne ..).trans (h.closed m hm)

theorem link_inv (h : Inv s) (hpc : s.pc p = .link n m) :
    Inv ({ s with next := update s.next n (.node m) }.goto p .idle) := by
  have hok := h.nodes.pcs p
  rw [hpc] at hok
  obtain ⟨hmem, hnext, hprev⟩ := hok
  subst hprev
  have hun : (s.pc p).unlinked = some n := by rw [hpc]; rfl
  refine {
    nodes := h.nodes.store (by rw [hpc]; rfl) rfl trivial ?_
    values := { h.values with }
    holds := h.holds.producer (p := p) (c := .idle) (by rw [hpc]; rfl) rfl rfl rfl rfl rfl id
      (fun _ _ _ hs => .link hs hmem hnext (.inl rfl)) ?_
    closed := h.closed_store hmem
    cleared := h.cleared
    safe := h.safe }
  · intro q hqp
    constructor
    · exact fun hown => h.nodes.own_notMem hown hmem
    · exact fun hun' => hqp (h.nodes.unlinked q p n hun' hun)
  · intro q n' hqp hq hs
    refine link hs hmem hnext (.inr ⟨?_, rfl⟩)
    rw [mem_singleton]
    rintro rfl
    exact hqp (h.nodes.unlinked q p n (by rw [hq]; rfl) hun)

omit [DecidableEq ν] in
theorem Holds.publisher (h : Holds s) (hp : (s.pc p).publishes = true) (hc : c.publishes = true)
    (hpc : s'.pc = (s.goto p c).pc) (hcur : s'.curEnqueueNode = s.curEnqueueNode)
    (hdeq : s'.curDequeueNode = s.curDequeueNode) (hk : s'.consumer = s.consumer)
    (hok : PublishOk s' c) : Holds s' := by
  have hone : ∀ w, s.Has w → w = .producer p := fun w hw => h.one w (.producer p) hw hp
  have hself : s'.pc p = c := by rw [hpc, goto_self]
  refine Holds.sole (w := .producer p) ?_ ?_ ?_
  · show (s'.pc p).publishes = true
    rw [hself]
    exact hc
  · rintro (q | _ | _) hw
    · by_cases hqp : q = p
      · rw [hqp]
      · have hw' : (s'.pc q).publishes = true := hw
        rw [hpc, goto_ne hqp] at hw'
        exact hone (.producer q) hw'
    · refine hone .published ?_
      simpa only [State.Has, hcur, hk] using hw
    · refine hone .consumer ?_
      simpa only [State.Has, hdeq, hk] using hw
  · show PublishOk s' (s'.pc p)
    rw [hself]
    exact hok

theorem setNull_inv (h : Inv s) (hpc : s.pc p = .setNull n) :
    Inv ({ s with next := update s.next n .null }.goto p (.publish n)) := by
  have hhas : s.Has (.producer p) := by
    show (s.pc p).publishes = true
    rw [hpc]
    rfl
  have hs : s.Split [n] [] [] .unconnected := by
    have hok := h.holds.has _ hhas
    simp only [State.HasOk, hpc] at hok
    exact hok
  have hmem : n ∈ s.queue := mem hs (mem_cons_self ..)
  refine {
    nodes := h.nodes.store (by rw [hpc]; rfl) rfl trivial ?_
    values := { h.values with }
    holds := h.holds.publisher (p := p) (c := .publish n) hhas rfl rfl rfl rfl rfl (.connect hs)
    closed := h.closed_store hmem
    cleared := h.cleared
    safe := h.safe }
  intro q hqp
  constructor
  · exact fun hown => h.nodes.own_notMem hown hmem
  · exact fun hun => hqp (h.nodes.unlinked q p n hun (by rw [hpc]; rfl))

omit [DecidableEq ν] in
theorem publish_inv (h : Inv s) (hpc : s.pc p = .publish n) :
    Inv ({ s with curEnqueueNode := some n }.goto p .idle) := by
  have hhas : s.Has (.producer p) := by
    show (s.pc p).publishes = true
    rw [hpc]
    rfl
  have hs : s.Split [n] [] [] .null := by
    have hok := h.holds.has _ hhas
    simp only [State.HasOk, hpc] at hok
    exact hok
  have hone : ∀ w, s.Has w → w = .producer p := fun w hw => h.holds.one w _ hw hhas
  have hwalks : s.consumer.walks = false := by
    by_contra hw
    have := hone .consumer (.inl (by simpa using hw))
    cases this
  refine {
    nodes := {
      places := (nodesAt_goto (p := p) (c := .idle) (by rw [hpc]; rfl)) ▸ h.nodes.places
      live := (nodesAt_goto (p := p) (c := .idle) (by rw [hpc]; rfl)) ▸ h.nodes.live
      head := h.nodes.head
      unlinked := unlinked_goto h.nodes rfl nofun
      pcs := pcs_goto h.nodes rfl trivial (fun _ _ _ _ => ⟨rfl, rfl⟩) fun _ _ _ _ hm _ => ⟨hm, rfl, rfl⟩ }
    values := { h.values with }
    holds := .sole (w := .published) ⟨nofun, hwalks⟩ ?_ ?_
    closed := h.closed
    cleared := fun hw => nomatch hwalks.symm.trans hw
    safe := h.safe }
  · rintro (q | _ | _) hw
    · have hw' : ((s.goto p .idle).pc q).publishes = true := hw
      by_cases hqp : q = p
      · rw [hqp, goto_self] at hw'
        cases hw'
      · rw [goto_ne hqp] at hw'
        exact absurd (Holder.producer.inj (hone (.producer q) hw')) hqp
    · rfl
    · exact nomatch hone .consumer hw
  · rintro m ⟨⟩
    exact hs

theorem enqueueStep_inv (h : Inv s) : Inv (enqueueStep s p) := by
  cases hpc : s.pc p with
  | idle => simpa only [enqueueStep, hpc] using h
  | exchange n v => exact exchange_inv h hpc
  | link n m =>
    have hlive := h.nodes.queue_live (h.unlinked_mem (q := p) (n := n) (by rw [hpc]; rfl)).1
    simpa only [enqueueStep, hpc, use_eq hlive] using link_inv h hpc
  | setNull n =>
    have hlive := h.nodes.queue_live (h.unlinked_mem (q := p) (n := n) (by rw [hpc]; rfl)).1
    simpa only [enqueueStep, hpc, use_eq hlive] using setNull_inv h hpc
  | publish n => simpa only [enqueueStep, hpc] using publish_inv h hpc

theorem step_inv (h : Inv s) (a : Act ι ν α) : Inv (step s a) := by
  cases a with
  | enqueue p v n =>
    simp only [step]
    split
    next hpc =>
      split
      · exact h
      next hn =>
        exact enqueue_inv h hpc (Bool.eq_false_iff.2 hn)
    · exact h
  | dequeue =>
    simp only [step]
    split
    next hk =>
      exact dequeue_inv h hk
    · exact h
  | producer p => exact enqueueStep_inv h
  | consumer => exact dequeueStep_inv h

end Steps

end Eabase.Utility.MpscQueue
