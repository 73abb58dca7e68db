import Mathlib.Data.Fintype.Basic
import Eabase.Lib.Machine
import Eabase.Lib.Tally

/-!
# Combiners

`detail::AgentCombiner` with `detail::AgentGroup`, as a `Reducer` uses them: an
agent for each thread and each agent id, whose element the thread updates, and
combiners that have an id, a global result and a list of the agents that belong
to them. `Op` with its identity is a commutative monoid.

A step is one access to what is shared; a critical section of a combiner's lock
in which nobody else can touch the element is one step too. Combiners lie in
memory, and one that is destroyed leaves what it was to whoever still has its
address, until another one is constructed there.

A thread that exits reads the pointer to the combiner from each of its agents
and then takes the lock of that combiner, which by then may have been destroyed.
Here it goes through its agents by rising ids; the code destroys the agents of a
block in reverse.
The rest is sound: that is what holds in runs without this.
-/

namespace Eabase.Var.AgentCombiner

open Lib Function List

variable {ι M : Type*} [DecidableEq ι] [CommMonoid M] [DecidableEq M]

/-! ## The machine -/

/-- `AgentCombiner::Agent`; the element with the updates that it is made of. -/
structure Agent (M : Type*) where
  combiner : Option ℕ
  element : Tally M

/-- What a `get_value` or a `reset` returned: how many updates had taken effect when it began and
when it returned, those among them that earlier resets had returned, and the value. -/
structure Result (M : Type*) where
  reset : Bool
  start : ℕ
  stop : ℕ
  earlier : Multiset ℕ
  part : Tally M

/-- `AgentCombiner`. What is kept besides: whether it is there, who destroys it, the threads in a
call, the updates that took effect, what a reset under way has collected, and what was returned
(newest first). -/
structure Combiner (ι M : Type*) where
  id : ℕ
  lock : Option ι
  globalResult : Tally M
  agents : List ι
  alive : Bool
  destroyer : Option ι
  users : Finset ι
  log : List M
  transit : Tally M
  results : List (Result M)

/-- Where a thread stands: in `operator<<` in front of the `Append` of its agent, of `modify`, of a
`compare_exchange_weak`; in `get_value` or `reset` in front of the lock, at a node; in
`commit_and_clear`; in its exit at the agent of an id, in front of the lock of the agent's combiner;
in the destructor in front of the lock, at a node, in front of `RemoveFromList` of a node, of
`destroy_agent`. -/
inductive Pc (ι M : Type*) where
  | idle
  | append (a : ℕ) (value : M)
  | modify (a : ℕ) (value : M)
  | cas (a : ℕ) (value oldValue : M)
  | lock (a : ℕ) (reset : Bool) (start : ℕ)
  | walk (a : ℕ) (reset : Bool) (start : ℕ) (ret : Tally M) (nodes : List ι)
  | commit (a : ℕ)
  | exiting (n : ℕ)
  | committing (n a : ℕ)
  | gone
  | clear (a : ℕ)
  | clearing (a : ℕ) (nodes : List ι)
  | unlinking (a : ℕ) (node : ι) (nodes : List ι)
  | freeing (a : ℕ)

/-- The memory of the combiners, the agents of each thread by their ids, `_s_agent_kinds` and
`_s_free_ids` (the back first). -/
structure State (ι M : Type*) where
  combiners : ℕ → Combiner ι M
  agents : ι → ℕ → Agent M
  agentKinds : ℕ
  freeIds : List ℕ
  pc : ι → Pc ι M

def Combiner.blank : Combiner ι M where
  id := 0
  lock := Option.none
  globalResult := 1
  agents := []
  alive := false
  destroyer := Option.none
  users := ∅
  log := []
  transit := 1
  results := []

def start (ι M : Type*) [CommMonoid M] : State ι M where
  combiners _ := Combiner.blank
  agents _ _ := ⟨none, 1⟩
  agentKinds := 0
  freeIds := []
  pc _ := .idle

/-- One label of a run; `ok` says whether a `compare_exchange_weak` that may succeed does. -/
inductive Act (ι M : Type*) where
  | add (t : ι) (a : ℕ) (value : M)
  | getValue (t : ι) (a : ℕ)
  | reset (t : ι) (a : ℕ)
  | commitAndClear (t : ι) (a : ℕ)
  | exit (t : ι)
  | create (a : ℕ)
  | destroy (t : ι) (a : ℕ)
  | go (t : ι) (ok : Bool)

/-- The call of thread `t` ends. -/
def Combiner.leave (c : Combiner ι M) (t : ι) : Combiner ι M :=
  { c with users := c.users.erase t }

def Combiner.enter (c : Combiner ι M) (t : ι) : Combiner ι M :=
  { c with users := insert t c.users }

namespace State

section

variable (s : State ι M)

def goto (t : ι) (p : Pc ι M) : State ι M :=
  { s with pc := update s.pc t p }

/-- Thread `t` leaves the combiner at `a` as `c` and goes to `p`. -/
def turn (t : ι) (a : ℕ) (c : Combiner ι M) (p : Pc ι M) : State ι M :=
  { s with combiners := update s.combiners a c, pc := update s.pc t p }

def setAgent (t : ι) (n : ℕ) (g : Agent M) : State ι M :=
  { s with agents := update s.agents t (update (s.agents t) n g) }

/-- The agent of thread `t` that the combiner at `a` finds. -/
def agentOf (a : ℕ) (t : ι) : Agent M :=
  s.agents t (s.combiners a).id

def store (a : ℕ) (t : ι) (p : Tally M) : State ι M :=
  s.setAgent t (s.combiners a).id { s.agentOf a t with element := p }

end

end State

section

variable (s : State ι M) (t : ι) (a : ℕ)

/-- A call of thread `t` on the combiner at `a` begins. -/
def enterStep (p : Pc ι M) : State ι M :=
  s.turn t a ((s.combiners a).enter t) p

/-- `get_or_create_tls_agent`, up to `Append`. -/
def addStep (value : M) : State ι M :=
  if (s.agentOf a t).combiner = none then
    enterStep (s.setAgent t (s.combiners a).id ⟨some a, 1⟩) t a (.append a value)
  else enterStep s t a (.modify a value)

/-- `_agents.Append`. -/
def appendStep (value : M) : State ι M :=
  let c := s.combiners a
  if c.lock = none then s.turn t a { c with agents := c.agents ++ [t] } (.modify a value) else s

/-- The update takes effect: the element becomes `newValue`. -/
def tookStep (value newValue : M) : State ι M :=
  let c := s.combiners a
  (s.store a t ⟨newValue, (s.agentOf a t).element.ups + {c.log.length}⟩).turn t a
    ({ c with log := c.log ++ [value] }.leave t) .idle

end

/-- `modify`: with a lock, or up to the first `compare_exchange_weak`. -/
def modifyStep (atomical : Bool) (s : State ι M) (t : ι) (a : ℕ) (value : M) : State ι M :=
  if atomical then s.goto t (.cas a value (s.agentOf a t).element.val)
  else tookStep s t a value ((s.agentOf a t).element.val * value)

def casStep (s : State ι M) (t : ι) (a : ℕ) (value oldValue : M) (ok : Bool) : State ι M :=
  if (s.agentOf a t).element.val = oldValue ∧ ok then tookStep s t a value (oldValue * value)
  else s.goto t (.cas a value (s.agentOf a t).element.val)

/-- The combiner with the lock taken, and the global result when it is reset. -/
def Combiner.take (c : Combiner ι M) (t : ι) (reset : Bool) : Combiner ι M :=
  if reset then { c with lock := some t, globalResult := 1, transit := c.globalResult }
  else { c with lock := some t }

/-- The lock of `combine_agents` or `reset_all_agents`, and the global result. -/
def lockStep (s : State ι M) (t : ι) (a : ℕ) (reset : Bool) (start : ℕ) : State ι M :=
  let c := s.combiners a
  if c.lock = none then s.turn t a (c.take t reset) (.walk a reset start c.globalResult c.agents) else s

def Combiner.resets (c : Combiner ι M) : Tally M :=
  ((c.results.filter Result.reset).map Result.part).prod

section

variable (s : State ι M) (t : ι)

/-- A node of `combine_agents` or `reset_all_agents`, or the end of the list. -/
def walkStep (a : ℕ) (reset : Bool) (start : ℕ) (ret : Tally M) (nodes : List ι) :
    State ι M :=
  let c := s.combiners a
  match nodes with
  | [] =>
    s.turn t a
      ({ c with
        lock := none
        transit := 1
        results := ⟨reset, start, c.log.length, c.resets.ups, ret⟩ :: c.results }.leave t) .idle
  | node :: nodes =>
    let ret' := ret * (s.agentOf a node).element
    if reset then (s.store a node 1).turn t a { c with transit := ret' } (.walk a reset start ret' nodes)
    else s.goto t (.walk a reset start ret' nodes)

/-- `commit_and_clear` of the thread's agent. -/
def commitStep (a : ℕ) : State ι M :=
  let c := s.combiners a
  if c.lock = none then
    if (s.agentOf a t).combiner = none then s.turn t a (c.leave t) .idle
    else
      (s.store a t 1).turn t a
        ({ c with globalResult := c.globalResult * (s.agentOf a t).element }.leave t) .idle
  else s

/-- `~Agent`, up to the lock of the combiner. -/
def exitingStep (n : ℕ) : State ι M :=
  if n < s.agentKinds then
    match (s.agents t n).combiner with
    | none => s.goto t (.exiting (n + 1))
    | some a => s.goto t (.committing n a)
  else s.goto t .gone

/-- `commit_and_erase`, and `combiner = NULL`. -/
def committingStep (n a : ℕ) : State ι M :=
  let c := s.combiners a
  let g := s.agents t n
  if c.lock = none then
    (s.setAgent t n { g with combiner := none }).turn t a
      { c with globalResult := c.globalResult * g.element, agents := c.agents.erase t } (.exiting (n + 1))
  else s

/-- The lock of `clear_all_agents`. -/
def clearStep (a : ℕ) : State ι M :=
  let c := s.combiners a
  if c.lock = none then s.turn t a { c with lock := some t } (.clearing a c.agents) else s

end

/-- `node->value()->reset(ElementTp(), NULL)`, or the end of the list; `elementTp` is
`ElementTp()`. -/
def clearingStep (elementTp : M) (s : State ι M) (t : ι) (a : ℕ) (nodes : List ι) : State ι M :=
  let c := s.combiners a
  match nodes with
  | [] => s.turn t a { c with lock := none } (.freeing a)
  | node :: nodes => (s.setAgent node c.id ⟨none, ⟨elementTp, 0⟩⟩).goto t (.unlinking a node nodes)

/-- `node->RemoveFromList()`. -/
def unlinkingStep (s : State ι M) (t : ι) (a : ℕ) (node : ι) (nodes : List ι) : State ι M :=
  let c := s.combiners a
  s.turn t a { c with agents := c.agents.erase node } (.clearing a nodes)

/-- `destroy_agent`, and the end of the combiner. -/
def freeingStep (s : State ι M) (t : ι) (a : ℕ) : State ι M :=
  let c := s.combiners a
  let s' := if c.id < s.agentKinds then { s with freeIds := c.id :: s.freeIds } else s
  s'.turn t a { c with alive := false, destroyer := none } .idle

/-- The constructor, with `create_new_agent`. -/
def createStep (s : State ι M) (a : ℕ) : State ι M :=
  match s.freeIds with
  | id :: freeIds =>
    { s with
      freeIds
      combiners := update s.combiners a { Combiner.blank with id, alive := true } }
  | [] =>
    { s with
      agentKinds := s.agentKinds + 1
      combiners := update s.combiners a { Combiner.blank with id := s.agentKinds, alive := true } }

/-- The next step of thread `t`. -/
def goStep (atomical : Bool) (elementTp : M) (s : State ι M) (t : ι) (ok : Bool) : State ι M :=
  match s.pc t with
  | .idle => s
  | .append a value => appendStep s t a value
  | .modify a value => modifyStep atomical s t a value
  | .cas a value oldValue => casStep s t a value oldValue ok
  | .lock a reset start => lockStep s t a reset start
  | .walk a reset start ret nodes => walkStep s t a reset start ret nodes
  | .commit a => commitStep s t a
  | .exiting n => exitingStep s t n
  | .committing n a => committingStep s t n a
  | .gone => s
  | .clear a => clearStep s t a
  | .clearing a nodes => clearingStep elementTp s t a nodes
  | .unlinking a node nodes => unlinkingStep s t a node nodes
  | .freeing a => freeingStep s t a

def State.MayCall (s : State ι M) (t : ι) (a : ℕ) : Prop :=
  s.pc t matches .idle ∧ (s.combiners a).alive ∧ (s.combiners a).destroyer = none

instance (s : State ι M) (t : ι) (a : ℕ) : Decidable (s.MayCall t a) :=
  inferInstanceAs (Decidable (_ ∧ _))

/-- A combiner is called between its constructor and its destructor, which begins when no call is
under way. -/
def step (atomical : Bool) (elementTp : M) (s : State ι M) : Act ι M → State ι M
  | .add t a value => if s.MayCall t a then addStep s t a value else s
  | .getValue t a =>
    if s.MayCall t a then enterStep s t a (.lock a false (s.combiners a).log.length) else s
  | .reset t a => if s.MayCall t a then enterStep s t a (.lock a true (s.combiners a).log.length) else s
  | .commitAndClear t a => if s.MayCall t a then enterStep s t a (.commit a) else s
  | .exit t => if s.pc t matches .idle then s.goto t (.exiting 0) else s
  | .create a => if (s.combiners a).alive then s else createStep s a
  | .destroy t a =>
    if s.MayCall t a ∧ (s.combiners a).users = ∅ then
      s.turn t a { s.combiners a with destroyer := some t } (.clear a)
    else s
  | .go t ok => goStep atomical elementTp s t ok

/-! ## What holds -/

/-- What `get_value` returns when nothing else happens. -/
def State.value (s : State ι M) (a : ℕ) : Tally M :=
  (s.combiners a).agents.foldl (fun ret node => ret * (s.agentOf a node).element)
    (s.combiners a).globalResult

/-- The value returned is that of the updates it is said to be made of; with those that earlier
resets had returned these are all that had taken effect when the call began, and none twice or later
than its return. -/
structure Result.Covers (log : List M) (r : Result M) : Prop where
  of : r.part.Of log
  all : Multiset.range r.start ≤ r.earlier + r.part.ups
  none : r.earlier + r.part.ups ≤ Multiset.range r.stop

/-- No update of the combiner at `a` is lost or duplicated. -/
structure Lossless (s : State ι M) (a : ℕ) : Prop where
  /-- What the resets returned, with what a reset under way has collected and with the value that is
  there, is the product of all updates. -/
  value : (s.combiners a).resets.val * ((s.combiners a).transit.val * (s.value a).val)
    = (s.combiners a).log.prod
  /-- It is made of each update once. -/
  once : (s.combiners a).resets.ups + ((s.combiners a).transit.ups + (s.value a).ups)
    = Multiset.range (s.combiners a).log.length
  settled : (s.combiners a).lock = none → (s.combiners a).transit = 1
  covers : ∀ r ∈ (s.combiners a).results, r.Covers (s.combiners a).log
  /-- A thread's agent has no combiner, or is an agent of this one; one that is not in the list yet
  has the identity. -/
  adopted : ∀ t, (s.agentOf a t).combiner = Option.none ∨
    (s.agentOf a t).combiner = some a ∧
      (t ∈ (s.combiners a).agents ∨ (s.agentOf a t).element = 1)

def State.Usable (s : State ι M) (a : ℕ) : Prop :=
  (s.combiners a).alive = true ∧ (s.combiners a).destroyer = none

/-- No update is lost or duplicated, and no pointer leads to what is not there any more: from an
agent to its combiner at the exit of the thread, or from a combiner to its agents. -/
structure LosesNothing (s : State ι M) : Prop where
  lossless : ∀ a, s.Usable a → Lossless s a
  combiner : ∀ t n a, s.pc t = .committing n a → (s.combiners a).alive = true
  agents : ∀ a, (s.combiners a).alive = true → ∀ t ∈ (s.combiners a).agents, s.pc t ≠ .gone

/-- The step keeps exits and destructors apart: no destructor begins while an exiting thread is
between its pointer to the combiner and the lock, and no exiting thread comes to an agent while the
destructor of the combiner that has it in its list is under way. -/
def Apart (s : State ι M) : Act ι M → Prop
  | .destroy _ a => ∀ t n, s.pc t ≠ .committing n a
  | .go t _ =>
    match s.pc t with
    | .exiting n =>
      ∀ a, (s.combiners a).alive = true → (s.combiners a).id = n → t ∈ (s.combiners a).agents →
        (s.combiners a).destroyer = none
    | _ => True
  | _ => True

/-! ## The accounts of a combiner -/

/-- All that a combiner has taken in: `el` are the elements of the agents. -/
def Combiner.whole (c : Combiner ι M) (el : ι → Tally M) : Tally M :=
  c.resets * (c.transit * (c.globalResult * (c.agents.map el).prod))

structure Kept (c : Combiner ι M) (el : ι → Tally M) : Prop where
  once : (c.whole el).ups = Multiset.range c.log.length
  global : c.globalResult.Of c.log
  elements : ∀ t ∈ c.agents, (el t).Of c.log
  transit : c.transit.Of c.log
  settled : c.lock = none → c.transit = 1
  covers : ∀ r ∈ c.results, r.Covers c.log

variable {c : Combiner ι M} {el : ι → Tally M} {t : ι} {l : List ι}

section

omit [DecidableEq M]

theorem prod_update (hnd : l.Nodup) (ht : t ∈ l) (p : Tally M) :
    (l.map (update el t p)).prod = p * ((l.erase t).map el).prod := by
  rw [← prod_map_erase _ ht, update_self]
  congr 2
  apply map_congr_left
  intro u hu
  apply update_of_ne
  rintro rfl
  exact hnd.not_mem_erase hu

theorem prod_split (el : ι → Tally M) (ht : t ∈ l) : (l.map el).prod = el t * ((l.erase t).map el).prod :=
  (prod_map_erase el ht).symm

omit [CommMonoid M] in
theorem map_update_of_notMem (ht : t ∉ l) (p : Tally M) :
    l.map (update el t p) = l.map el := by
  apply map_congr_left
  intro u hu
  apply update_of_ne
  rintro rfl
  exact ht hu

omit [DecidableEq ι] in
theorem Kept.results_of (h : Kept c el) : c.resets.Of c.log := by
  apply Tally.Of.prod
  intro p hp
  obtain ⟨r, hr, rfl⟩ := mem_map.1 hp
  exact (h.covers r (mem_of_mem_filter hr)).of

omit [DecidableEq ι] in
theorem Kept.whole_of (h : Kept c el) : (c.whole el).Of c.log := by
  refine h.results_of.mul (h.transit.mul (h.global.mul (.prod ?_)))
  intro p hp
  obtain ⟨t, ht, rfl⟩ := mem_map.1 hp
  exact h.elements t ht

theorem Result.Covers.append {log : List M} {r : Result M} (h : r.Covers log) (log' : List M) :
    r.Covers (log ++ log') where
  of := h.of.append log'
  all := h.all
  none := h.none

end

section

open Combiner

section

omit [DecidableEq M]

theorem Kept.took (h : Kept c el) (hnd : c.agents.Nodup) (ht : t ∈ c.agents) (value : M)
    {users : Finset ι} :
    Kept { c with log := c.log ++ [value], users }
      (update el t ⟨(el t).val * value, (el t).ups + {c.log.length}⟩) where
  once := by
    have hmul : (⟨(el t).val * value, (el t).ups + {c.log.length}⟩ : Tally M)
        = el t * ⟨value, {c.log.length}⟩ := rfl
    have hwhole : whole { c with log := c.log ++ [value], users }
        (update el t ⟨(el t).val * value, (el t).ups + {c.log.length}⟩)
          = c.whole el * ⟨value, {c.log.length}⟩ := by
      simp only [whole, prod_update hnd ht, prod_split el ht, hmul]
      ac_rfl
    rw [hwhole, Tally.ups_mul, h.once, length_append, length_singleton, Multiset.range_succ,
      add_comm, Multiset.singleton_add]
  global := h.global.append [value]
  elements u hu := by
    obtain rfl | hut := eq_or_ne u t
    · rw [update_self]
      exact ((h.elements u hu).append [value]).mul (.last c.log value)
    · rw [update_of_ne hut]
      exact (h.elements u hu).append [value]
  transit := h.transit.append [value]
  settled := h.settled
  covers r hr := (h.covers r hr).append [value]

omit [DecidableEq ι] in
theorem Kept.append (h : Kept c el) (ht : el t = 1) : Kept { c with agents := c.agents ++ [t] } el where
  once := by
    have hwhole : whole { c with agents := c.agents ++ [t] } el = c.whole el := by
      simp only [whole, map_append, prod_append, map_singleton, prod_singleton, ht,
        mul_one]
      rfl
    rw [hwhole]
    exact h.once
  global := h.global
  elements u hu := by
    rcases mem_append.1 hu with hu | hu
    · exact h.elements u hu
    · rw [mem_singleton.1 hu, ht]
      exact Tally.Of.one
  transit := h.transit
  settled := h.settled
  covers := h.covers

theorem Kept.commit (h : Kept c el) (hnd : c.agents.Nodup) (ht : t ∈ c.agents) {users : Finset ι} :
    Kept { c with globalResult := c.globalResult * el t, users } (update el t 1) where
  once := by
    have hwhole : whole { c with globalResult := c.globalResult * el t, users } (update el t 1)
        = c.whole el := by
      simp only [whole, prod_update hnd ht, prod_split el ht, one_mul, mul_assoc]
      rfl
    rw [hwhole]
    exact h.once
  global := h.global.mul (h.elements t ht)
  elements u hu := by
    obtain rfl | hut := eq_or_ne u t
    · rw [update_self]
      exact Tally.Of.one
    · rw [update_of_ne hut]
      exact h.elements u hu
  transit := h.transit
  settled := h.settled
  covers := h.covers

/-- An element is merged into the global result, and the agent leaves the list. -/
theorem Kept.erase (h : Kept c el) (ht : t ∈ c.agents) :
    Kept { c with globalResult := c.globalResult * el t, agents := c.agents.erase t } el where
  once := by
    have hwhole : whole { c with globalResult := c.globalResult * el t, agents := c.agents.erase t } el
        = c.whole el := by
      simp only [whole, prod_split el ht, mul_assoc]
      rfl
    rw [hwhole]
    exact h.once
  global := h.global.mul (h.elements t ht)
  elements u hu := h.elements u (mem_of_mem_erase hu)
  transit := h.transit
  settled := h.settled
  covers := h.covers

end

/-! ### A walk over the agents -/

section Walk

/-- What a `get_value` or a `reset` has under the lock: with the nodes to come, and with what
earlier resets returned, it has all that had taken effect when it began, and nothing twice. -/
structure Walked (c : Combiner ι M) (el : ι → Tally M) (reset : Bool) (start : ℕ) (ret : Tally M)
    (nodes : List ι) : Prop where
  of : ret.Of c.log
  suffix : nodes <:+ c.agents
  all : Multiset.range start ≤ c.resets.ups + (ret.ups + (nodes.map el).prod.ups)
  transit : c.transit = if reset then ret else 1
  part : reset = false → ret.ups + (nodes.map el).prod.ups ≤ c.globalResult.ups
    + (c.agents.map el).prod.ups

variable {reset : Bool} {start : ℕ} {ret : Tally M} {nodes : List ι} {node : ι}

theorem range_le {m n : ℕ} (h : m ≤ n) : Multiset.range m ≤ Multiset.range n :=
  Multiset.range_le.2 h

section

omit [DecidableEq M]

omit [DecidableEq ι] in
theorem Kept.take (h : Kept c el) (hl : c.lock = none) (hs : start ≤ c.log.length) (t : ι)
    (reset : Bool) :
    Kept (c.take t reset) el ∧ Walked (c.take t reset) el reset start c.globalResult c.agents := by
  have htransit : c.transit = 1 := h.settled hl
  have hall : Multiset.range start ≤ c.resets.ups
      + (c.globalResult.ups + (c.agents.map el).prod.ups) := by
    have hrange := range_le hs
    rw [← h.once, whole, htransit, one_mul] at hrange
    exact hrange
  cases reset with
  | false =>
    constructor
    · exact { h with settled := nofun }
    · exact ⟨h.global, suffix_refl _, hall, htransit, fun _ => le_rfl⟩
  | true =>
    constructor
    · constructor
      · have hwhole := h.once
        rw [whole, htransit, one_mul] at hwhole
        change (c.resets * (c.globalResult * (1 * (c.agents.map el).prod))).ups = _
        rw [one_mul]
        exact hwhole
      · exact Tally.Of.one
      · exact h.elements
      · exact h.global
      · nofun
      · exact h.covers
    · exact ⟨h.global, suffix_refl _, hall, rfl, nofun⟩

omit [DecidableEq ι] in
theorem Walked.load (h : Walked c el false start ret (node :: nodes)) (hk : Kept c el) :
    Walked c el false start (ret * el node) nodes where
  of := h.of.mul (hk.elements node (h.suffix.subset mem_cons_self))
  suffix := (suffix_cons node nodes).trans h.suffix
  all := by
    rw [Tally.ups_mul, add_assoc, ← Tally.ups_mul (el node), ← prod_cons, ← map_cons]
    exact h.all
  transit := h.transit
  part _ := by
    rw [Tally.ups_mul, add_assoc, ← Tally.ups_mul (el node), ← prod_cons, ← map_cons]
    exact h.part rfl

theorem Walked.exchange (h : Walked c el true start ret (node :: nodes)) (hk : Kept c el)
    (hnd : c.agents.Nodup) (hl : c.lock ≠ none) :
    Kept { c with transit := ret * el node } (update el node 1) ∧
      Walked { c with transit := ret * el node } (update el node 1) true start (ret * el node)
        nodes := by
  have hmem : node ∈ c.agents := h.suffix.subset mem_cons_self
  have hnode : node ∉ nodes := (nodup_cons.1 (hnd.sublist h.suffix.sublist)).1
  have hret : c.transit = ret := h.transit
  have hof : (ret * el node).Of c.log := h.of.mul (hk.elements node hmem)
  constructor
  · constructor
    · have hwhole : whole { c with transit := ret * el node } (update el node 1) = c.whole el := by
        simp only [whole, prod_update hnd hmem, prod_split el hmem, hret, one_mul]
        ac_rfl
      rw [hwhole]
      exact hk.once
    · exact hk.global
    · intro u hu
      obtain rfl | hun := eq_or_ne u node
      · rw [update_self]
        exact Tally.Of.one
      · rw [update_of_ne hun]
        exact hk.elements u hu
    · exact hof
    · exact fun hn => absurd hn hl
    · exact hk.covers
  · constructor
    · exact hof
    · exact (suffix_cons node nodes).trans h.suffix
    · rw [map_update_of_notMem hnode, Tally.ups_mul, add_assoc, ← Tally.ups_mul (el node), ← prod_cons,
        ← map_cons]
      exact h.all
    · rfl
    · nofun

omit [DecidableEq ι] in
theorem Walked.finish (h : Walked c el reset start ret []) (hk : Kept c el) {users : Finset ι} :
    Kept { c with
      lock := none
      transit := 1
      results := ⟨reset, start, c.log.length, c.resets.ups, ret⟩ :: c.results
      users } el := by
  have hsum : c.resets.ups + ret.ups ≤ Multiset.range c.log.length := by
    rw [← hk.once]
    apply add_le_add_right
    cases reset with
    | false =>
      have hpart := h.part rfl
      simp only [map_nil, prod_nil, Tally.ups_one, add_zero] at hpart
      exact hpart.trans (Multiset.le_add_left ..)
    | true =>
      rw [show c.transit = ret from h.transit]
      exact Multiset.le_add_right ..
  constructor
  · have hwhole : whole { c with
        lock := none
        transit := 1
        results := ⟨reset, start, c.log.length, c.resets.ups, ret⟩ :: c.results
        users } el = c.whole el := by
      simp only [whole, resets]
      cases reset with
      | false =>
        have htransit : c.transit = 1 := h.transit
        rw [filter_cons_of_neg (by simp), htransit]
      | true =>
        have htransit : c.transit = ret := h.transit
        rw [filter_cons_of_pos rfl, htransit, map_cons, prod_cons]
        ac_rfl
    rw [hwhole]
    exact hk.once
  · exact hk.global
  · exact hk.elements
  · exact Tally.Of.one
  · exact fun _ => rfl
  · refine forall_mem_cons.2 ⟨⟨h.of, ?_, hsum⟩, hk.covers⟩
    simpa using h.all

theorem Walked.took (h : Walked c el reset start ret nodes) (hnd : c.agents.Nodup) (ht : t ∈ c.agents)
    (value : M) {users : Finset ι} :
    Walked { c with log := c.log ++ [value], users }
      (update el t ⟨(el t).val * value, (el t).ups + {c.log.length}⟩) reset start ret nodes := by
  set el' := update el t ⟨(el t).val * value, (el t).ups + {c.log.length}⟩ with hel
  have hsplit : ∀ {l : List ι}, l.Nodup → t ∈ l → (l.map el').prod.ups = (l.map el).prod.ups
      + {c.log.length} := by
    intro l hl hmem
    rw [hel, prod_update hl hmem, prod_split el hmem, Tally.ups_mul, Tally.ups_mul, add_right_comm]
  have hsame : ∀ {l : List ι}, t ∉ l → (l.map el').prod.ups = (l.map el).prod.ups := fun hmem => by
    rw [hel, map_update_of_notMem hmem]
  have hnodes : nodes.Nodup := hnd.sublist h.suffix.sublist
  have hgrow : (nodes.map el).prod.ups ≤ (nodes.map el').prod.ups := by
    by_cases hmem : t ∈ nodes
    · rw [hsplit hnodes hmem]
      exact Multiset.le_add_right ..
    · rw [hsame hmem]
  constructor
  · exact h.of.append [value]
  · exact h.suffix
  · apply h.all.trans
    apply add_le_add_right
    apply add_le_add_right
    exact hgrow
  · exact h.transit
  · intro hreset
    have hpart := h.part hreset
    simp only [hsplit hnd ht]
    rw [← add_assoc]
    by_cases hmem : t ∈ nodes
    · rw [hsplit hnodes hmem, ← add_assoc]
      exact add_le_add_left hpart _
    · rw [hsame hmem]
      exact hpart.trans (Multiset.le_add_right ..)

omit [DecidableEq ι] in
theorem Walked.users (h : Walked c el reset start ret nodes) (users : Finset ι) :
    Walked { c with users } el reset start ret nodes :=
  ⟨h.of, h.suffix, h.all, h.transit, h.part⟩

omit [DecidableEq ι] in
theorem Kept.users (h : Kept c el) (users : Finset ι) : Kept { c with users } el :=
  ⟨h.once, h.global, h.elements, h.transit, h.settled, h.covers⟩

end

end Walk

end

/-! ## The invariant -/

def Pc.at : Pc ι M → Option ℕ
  | .append a _ | .modify a _ | .cas a _ _ | .lock a _ _ | .walk a _ _ _ _ | .commit a | .committing _ a
  | .clear a | .clearing a _ | .unlinking a _ _ | .freeing a => some a
  | _ => none

/-- The exiting thread has left its agent of id `n` behind. -/
def Pc.Past (n : ℕ) : Pc ι M → Prop
  | .exiting m | .committing m _ => n < m
  | .gone => True
  | _ => False

/-- Thread `t` is in a call. -/
def Combiner.Calls (c : Combiner ι M) (t : ι) : Prop :=
  c.alive = true ∧ c.destroyer = none ∧ t ∈ c.users

/-- Thread `t` destroys the combiner. -/
def Combiner.Dies (c : Combiner ι M) (t : ι) : Prop :=
  c.alive = true ∧ c.destroyer = some t

/-- What thread `t` knows where it stands: of the combiner `c` at `a`, and of the agents that have
its id. -/
def Pc.Ok (t : ι) (a : ℕ) (c : Combiner ι M) (ag : ι → Agent M) : Pc ι M → Prop
  | .append _ _ => c.Calls t ∧ ag t = ⟨some a, 1⟩ ∧ t ∉ c.agents
  | .modify _ _ | .cas _ _ _ => c.Calls t ∧ t ∈ c.agents
  | .lock _ _ start => c.Calls t ∧ start ≤ c.log.length
  | .walk _ reset start ret nodes =>
    c.Calls t ∧ c.lock = some t ∧ Walked c (fun u => (ag u).element) reset start ret nodes
  | .commit _ => c.Calls t
  | .committing n _ => c.alive = true ∧ c.destroyer = none ∧ c.id = n ∧ t ∈ c.agents
  | .clear _ => c.Dies t
  | .clearing _ nodes => c.Dies t ∧ c.lock = some t ∧ c.agents = nodes
  | .unlinking _ node nodes =>
    c.Dies t ∧ c.lock = some t ∧ c.agents = node :: nodes ∧ (ag node).combiner = none
  | .freeing _ => c.Dies t ∧ c.agents = []
  | _ => True

structure Linked (pc : ι → Pc ι M) (a : ℕ) (c : Combiner ι M) (ag : ι → Agent M) : Prop where
  nodup : c.agents.Nodup
  listed : c.destroyer = none → ∀ t ∈ c.agents, (ag t).combiner = some a
  owned : ∀ t b, (ag t).combiner = some b → b = a ∧ (t ∈ c.agents ∨ ∃ value, pc t = .append a value)
  present : ∀ t ∈ c.agents, ¬(pc t).Past c.id
  calm : c.destroyer ≠ none → c.users = ∅
  kept : c.destroyer = none → Kept c (fun t => (ag t).element)

structure Inv (s : State ι M) : Prop where
  phase : ∀ t a, (s.pc t).at = some a → (s.pc t).Ok t a (s.combiners a) (s.agentOf a)
  linked : ∀ a, (s.combiners a).alive = true → Linked s.pc a (s.combiners a) (s.agentOf a)
  ids : ∀ a b, (s.combiners a).alive = true → (s.combiners b).alive = true →
    (s.combiners a).id = (s.combiners b).id → a = b
  kinds : ∀ a, (s.combiners a).alive = true → (s.combiners a).id < s.agentKinds ∧
    (s.combiners a).id ∉ s.freeIds
  free : s.freeIds.Nodup ∧ ∀ n ∈ s.freeIds, n < s.agentKinds
  unused : ∀ n, (∀ a, (s.combiners a).alive = true → (s.combiners a).id ≠ n) → ∀ t,
    (s.agents t n).combiner = none

omit [DecidableEq ι] [DecidableEq M] in
theorem start_inv : Inv (start ι M) where
  phase _ _ := nofun
  linked _ := nofun
  ids _ _ := nofun
  kinds _ := nofun
  free := ⟨nodup_nil, nofun⟩
  unused _ _ _ := rfl

variable {s s' : State ι M} {a : ℕ} {p : Pc ι M} {ag : ι → Agent M} {n : ℕ} {pc : ι → Pc ι M}
  {value : M}

section

omit [DecidableEq ι] [DecidableEq M]

theorem Pc.Ok.alive (h : p.Ok t a c ag) (hat : p.at = some a) : c.alive = true := by
  cases p <;> first | exact h.1.1 | exact h.1 | simp [Pc.at] at hat

theorem foldl_value (l : List ι) (f : ι → Tally M) (p : Tally M) :
    l.foldl (fun ret node => ret * f node) p = p * (l.map f).prod := by
  induction l generalizing p with
  | nil => rw [foldl_nil, map_nil, prod_nil, mul_one]
  | cons node l ih => rw [foldl_cons, ih, map_cons, prod_cons, mul_assoc]

theorem Inv.losesNothing (h : Inv s) : LosesNothing s where
  lossless a ha := by
    have hl := h.linked a ha.1
    have hk := hl.kept ha.2
    have hvalue : s.value a = (s.combiners a).globalResult
        * ((s.combiners a).agents.map fun t => (s.agentOf a t).element).prod := foldl_value ..
    constructor
    · have hall := hk.whole_of.all hk.once
      rw [hvalue]
      exact hall
    · rw [hvalue]
      exact hk.once
    · exact hk.settled
    · exact hk.covers
    · intro t
      cases hc : (s.agentOf a t).combiner with
      | none => exact .inl rfl
      | some b =>
        obtain ⟨rfl, hmem | ⟨value, hpc⟩⟩ := hl.owned t b hc
        · exact .inr ⟨rfl, .inl hmem⟩
        · have hok := h.phase t b (by rw [hpc]; rfl)
          rw [hpc] at hok
          refine .inr ⟨rfl, .inr ?_⟩
          rw [hok.2.1]
  combiner t n a hpc := by
    have hok := h.phase t a (by rw [hpc]; rfl)
    rw [hpc] at hok
    exact hok.1
  agents a ha t ht hpc := by
    apply (h.linked a ha).present t ht
    rw [hpc]
    trivial

end

/-! ## The steps -/

section

omit [DecidableEq M]

/-- What is linked at another combiner stays so when thread `t`, which does not append there, goes
on. -/
theorem Linked.other (h : Linked pc a c ag)
    (happend : ∀ value, pc t ≠ .append a value) (hpast : t ∈ c.agents → p.Past c.id → (pc t).Past c.id) :
    Linked (update pc t p) a c ag where
  nodup := h.nodup
  listed := h.listed
  owned u b hb := by
    obtain ⟨hba, hu⟩ := h.owned u b hb
    refine ⟨hba, hu.imp id ?_⟩
    rintro ⟨value, hpc⟩
    refine ⟨value, ?_⟩
    rw [update_of_ne, hpc]
    rintro rfl
    exact happend value hpc
  present u hu := by
    obtain rfl | hut := eq_or_ne u t
    · rw [update_self]
      exact fun hp => h.present u hu (hpast hu hp)
    · rw [update_of_ne hut]
      exact h.present u hu
  calm := h.calm
  kept := h.kept

/-- The **frame rule**: thread `t` turns the combiner at `a` into `c`, changes agents of its id
only, and goes to `p`. What is to be shown is about that combiner. -/
theorem Inv.turn (h : Inv s) (ha : (s.combiners a).alive = true) (hid : c.id = (s.combiners a).id)
    (ha' : c.alive = true) {ag : ι → ℕ → Agent M}
    (hag : ∀ u n, n ≠ (s.combiners a).id → ag u n = s.agents u n)
    (hpc : ∀ b value, s.pc t = .append b value → b = a)
    (hp : p.at = none ∨ p.at = some a ∧ p.Ok t a c (fun u => ag u (s.combiners a).id))
    (hpast : ∀ n, n ≠ (s.combiners a).id → p.Past n → (s.pc t).Past n)
    (hother : ∀ u, u ≠ t → (s.pc u).at = some a → (s.pc u).Ok u a (s.combiners a) (s.agentOf a) →
      (s.pc u).Ok u a c (fun u => ag u (s.combiners a).id))
    (hlink : Linked (update s.pc t p) a c (fun u => ag u (s.combiners a).id)) :
    Inv ({ s with agents := ag }.turn t a c p) := by
  set s' := { s with agents := ag }.turn t a c p
  have hself : s'.combiners a = c := update_self ..
  have hne : ∀ {b}, b ≠ a → s'.combiners b = s.combiners b := fun hb => update_of_ne hb ..
  have hagself : s'.agentOf a = fun u => ag u (s.combiners a).id := by
    ext1 u
    rw [State.agentOf, hself, hid]
    rfl
  have hagne : ∀ {b}, b ≠ a → (s.combiners b).alive = true → s'.agentOf b = s.agentOf b := by
    intro b hb hlive
    ext1 u
    rw [State.agentOf, hne hb]
    exact hag u _ (fun hid' => hb (h.ids b a hlive ha hid'))
  have halive : ∀ b, (s'.combiners b).alive = (s.combiners b).alive ∧
      (s'.combiners b).id = (s.combiners b).id := by
    intro b
    obtain rfl | hb := eq_or_ne b a
    · rw [hself]
      exact ⟨ha'.trans ha.symm, hid⟩
    · rw [hne hb]
      exact ⟨rfl, rfl⟩
  constructor
  · intro u b hat
    obtain rfl | hut := eq_or_ne u t
    · have hpc' : s'.pc u = p := update_self ..
      rw [hpc'] at hat ⊢
      rcases hp with hp | ⟨hp, hok⟩
      · exact nomatch hp.symm.trans hat
      obtain rfl : a = b := Option.some.inj (hp.symm.trans hat)
      rw [hself, hagself]
      exact hok
    · have hpc' : s'.pc u = s.pc u := update_of_ne hut ..
      rw [hpc'] at hat ⊢
      have hu := h.phase u b hat
      obtain rfl | hb := eq_or_ne b a
      · rw [hself, hagself]
        exact hother u hut hat hu
      · rw [hne hb, hagne hb (hu.alive hat)]
        exact hu
  · intro b hb
    rw [(halive b).1] at hb
    obtain rfl | hba := eq_or_ne b a
    · rw [hself, hagself]
      exact hlink
    · rw [hne hba, hagne hba hb]
      apply (h.linked b hb).other
      · exact fun value hv => hba (hpc b value hv)
      · exact fun _ => hpast _ (fun hid' => hba (h.ids b a hb ha hid'))
  · intro b b' hb hb' hbb
    rw [(halive b).1] at hb
    rw [(halive b').1] at hb'
    rw [(halive b).2, (halive b').2] at hbb
    exact h.ids b b' hb hb' hbb
  · intro b hb
    rw [(halive b).1] at hb
    rw [(halive b).2]
    exact h.kinds b hb
  · exact h.free
  · intro n hn u
    have hn' : ∀ b, (s.combiners b).alive = true → (s.combiners b).id ≠ n := by
      intro b hb
      rw [← (halive b).2]
      exact hn b ((halive b).1.trans hb)
    have hsame : s'.agents u n = s.agents u n := hag u n (hn' a ha).symm
    rw [hsame]
    exact h.unused n hn' u

theorem Inv.goto (h : Inv s) (hpc : ∀ b value, s.pc t ≠ .append b value)
    (hok : ∀ b, p.at = some b → p.Ok t b (s.combiners b) (s.agentOf b))
    (hpast : ∀ b, (s.combiners b).alive = true → t ∈ (s.combiners b).agents → p.Past (s.combiners b).id →
      (s.pc t).Past (s.combiners b).id) : Inv (s.goto t p) := by
  refine { h with phase := ?_, linked := fun b hb => (h.linked b hb).other (hpc b) (hpast b hb) }
  intro u b hat
  obtain rfl | hut := eq_or_ne u t
  · have hpc' : (s.goto u p).pc u = p := update_self ..
    rw [hpc'] at hat ⊢
    exact hok b hat
  · have hpc' : (s.goto t p).pc u = s.pc u := update_of_ne hut ..
    rw [hpc'] at hat ⊢
    exact h.phase u b hat

end

/-- How a combiner may change in a call, for another thread `u`. -/
structure Combiner.Stays (c c' : Combiner ι M) (u : ι) : Prop where
  destroyer : c.destroyer = none
  alive' : c'.alive = true
  destroyer' : c'.destroyer = none
  id : c'.id = c.id
  users : u ∈ c.users → u ∈ c'.users
  log : c.log.length ≤ c'.log.length
  agents : u ∈ c'.agents ↔ u ∈ c.agents

omit [DecidableEq ι] [DecidableEq M] in
theorem Pc.Ok.stay {u : ι} {c' : Combiner ι M} {ag' : ι → Agent M} (h : p.Ok u a c ag)
    (hs : c.Stays c' u) (hag : u ∉ c.agents → ag' u = ag u)
    (hwalk : c.lock = some u → ∀ reset start ret nodes,
      Walked c (fun u => (ag u).element) reset start ret nodes →
        c'.lock = some u ∧ Walked c' (fun u => (ag' u).element) reset start ret nodes) :
        p.Ok u a c' ag' := by
  have hcalls : c.Calls u → c'.Calls u := fun hc => ⟨hs.alive', hs.destroyer', hs.users hc.2.2⟩
  have hdies : ¬c.Dies u := fun hd => nomatch hs.destroyer.symm.trans hd.2
  cases p with
  | append b value =>
    obtain ⟨hc, hagu, hu⟩ := h
    exact ⟨hcalls hc, (hag hu).trans hagu, fun hu' => hu (hs.agents.1 hu')⟩
  | modify b value => exact ⟨hcalls h.1, hs.agents.2 h.2⟩
  | cas b value oldValue => exact ⟨hcalls h.1, hs.agents.2 h.2⟩
  | lock b reset start => exact ⟨hcalls h.1, h.2.trans hs.log⟩
  | walk b reset start ret nodes =>
    obtain ⟨hc, hl, hw⟩ := h
    exact ⟨hcalls hc, hwalk hl _ _ _ _ hw⟩
  | commit b => exact hcalls h
  | committing n b =>
    obtain ⟨-, -, hn, hu⟩ := h
    exact ⟨hs.alive', hs.destroyer', hs.id.trans hn, hs.agents.2 hu⟩
  | clear b => exact absurd h hdies
  | clearing b nodes => exact absurd h.1 hdies
  | unlinking b node nodes => exact absurd h.1 hdies
  | freeing b => exact absurd h.1 hdies
  | idle => trivial
  | exiting n => trivial
  | gone => trivial

section

omit [CommMonoid M] [DecidableEq M]

theorem setAgent_at (f : ι → ℕ → Agent M) (t : ι) (n : ℕ) (g : Agent M) :
    (fun u => update f t (update (f t) n g) u n) = update (fun u => f u n) t g := by
  ext1 u
  obtain rfl | hu := eq_or_ne u t
  · rw [update_self, update_self, update_self]
  · rw [update_of_ne hu, update_of_ne hu]

theorem setAgent_other (f : ι → ℕ → Agent M) (t : ι) {m : ℕ} (g : Agent M) (hm : m ≠ n) (u : ι) :
    update f t (update (f t) n g) u m = f u m := by
  obtain rfl | hu := eq_or_ne u t
  · rw [update_self, update_of_ne hm]
  · rw [update_of_ne hu]

theorem element_update (f : ι → Agent M) (t : ι) (g : Agent M) :
    (fun u => (update f t g u).element) = update (fun u => (f u).element) t g.element := by
  ext1 u
  obtain rfl | hu := eq_or_ne u t
  · rw [update_self, update_self]
  · rw [update_of_ne hu, update_of_ne hu]

theorem combiner_update (f : ι → Agent M) (t u : ι) (p : Tally M) :
    (update f t { f t with element := p } u).combiner = (f u).combiner := by
  obtain rfl | hu := eq_or_ne u t
  · rw [update_self]
  · rw [update_of_ne hu]

end

omit [DecidableEq ι] [DecidableEq M] in
theorem Linked.users (h : Linked pc a c ag) (hdes : c.destroyer = none)
    (users : Finset ι) : Linked pc a { c with users } ag :=
  { h with calm := fun hd => absurd hdes hd, kept := fun hd => (h.kept hd).users users }

omit [DecidableEq M] in
theorem Inv.enter (h : Inv s) (hpc : s.pc t = .idle) (ha : (s.combiners a).alive = true)
    (hdes : (s.combiners a).destroyer = none) (hp : p.at = some a) (hpast : ∀ n, ¬p.Past n)
    (hok : p.Ok t a ((s.combiners a).enter t) (s.agentOf a)) : Inv (enterStep s t a p) := by
  refine h.turn (c := (s.combiners a).enter t) ha rfl ha (fun _ _ _ => rfl) (by rw [hpc]; nofun)
    (.inr ⟨hp, hok⟩) (fun n _ hn => absurd hn (hpast n)) ?_ ?_
  · intro u hu hat hu'
    exact hu'.stay ⟨hdes, ha, hdes, rfl, fun hin => Finset.mem_insert_of_mem hin, le_rfl, Iff.rfl⟩
      (fun _ => rfl) (fun hl _ _ _ _ hw => ⟨hl, hw.users _⟩)
  · exact ((h.linked a ha).other (by rw [hpc]; nofun) (fun _ hn => absurd hn (hpast _))).users hdes _

/-! ### `operator<<` -/

section

omit [DecidableEq M]

theorem Walked.notMem {reset : Bool} {start : ℕ} {ret : Tally M} {nodes : List ι}
    (h : Walked c el reset start ret nodes) (ht : t ∉ c.agents) (p : Tally M) :
    Walked c (update el t p) reset start ret nodes := by
  have hnodes : t ∉ nodes := fun hmem => ht (h.suffix.subset hmem)
  constructor
  · exact h.of
  · exact h.suffix
  · rw [map_update_of_notMem hnodes]
    exact h.all
  · exact h.transit
  · rw [map_update_of_notMem hnodes, map_update_of_notMem ht]
    exact h.part

theorem Kept.notMem (h : Kept c el) (ht : t ∉ c.agents) (p : Tally M) : Kept c (update el t p) where
  once := by
    rw [Combiner.whole, map_update_of_notMem ht]
    exact h.once
  global := h.global
  elements u hu := by
    rw [update_of_ne]
    · exact h.elements u hu
    · rintro rfl
      exact ht hu
  transit := h.transit
  settled := h.settled
  covers := h.covers

theorem Linked.adopt (h : Linked pc a c ag) (ht : t ∉ c.agents)
    (value : M) (hpc : ∀ value, pc t ≠ .append a value) :
    Linked (update pc t (.append a value)) a c (update ag t ⟨some a, 1⟩) := by
  have hne : ∀ u ∈ c.agents, u ≠ t := by
    rintro u hu rfl
    exact ht hu
  have ho := h.other (p := .append a value) hpc (fun hmem => absurd hmem ht)
  constructor
  · exact ho.nodup
  · intro hd u hu
    rw [update_of_ne (hne u hu)]
    exact ho.listed hd u hu
  · intro u b hb
    obtain rfl | hut := eq_or_ne u t
    · rw [update_self] at hb
      exact ⟨(Option.some.inj hb).symm, .inr ⟨value, update_self ..⟩⟩
    · rw [update_of_ne hut] at hb
      exact ho.owned u b hb
  · exact ho.present
  · exact ho.calm
  · intro hd
    rw [element_update]
    exact (ho.kept hd).notMem ht 1

end

section

variable (h : Inv s)
include h

omit [DecidableEq M] in
theorem addStep_inv (hpc : s.pc t = .idle) (ha : (s.combiners a).alive = true)
    (hdes : (s.combiners a).destroyer = none) (value : M) : Inv (addStep s t a value) := by
  have hl := h.linked a ha
  have hcalls : ((s.combiners a).enter t).Calls t := ⟨ha, hdes, Finset.mem_insert_self ..⟩
  unfold addStep
  split
  · -- the agent is adopted, and has the identity
    rename_i hnone
    have hout : t ∉ (s.combiners a).agents := fun hmem => nomatch (hl.listed hdes t hmem).symm.trans hnone
    have hagent := setAgent_at s.agents t (s.combiners a).id ⟨some a, 1⟩
    refine h.turn (c := (s.combiners a).enter t) ha rfl ha (fun u n hn => setAgent_other _ _ _ hn u)
      (by rw [hpc]; nofun) (.inr ⟨rfl, ?_⟩) (fun _ _ => False.elim) ?_ ?_
    · rw [hagent]
      exact ⟨hcalls, update_self .., hout⟩
    · intro u hu hat hu'
      rw [hagent]
      refine hu'.stay ⟨hdes, ha, hdes, rfl, fun hin => Finset.mem_insert_of_mem hin, le_rfl, Iff.rfl⟩
        (fun _ => update_of_ne hu ..) ?_
      intro hlock reset start ret nodes hw
      refine ⟨hlock, ?_⟩
      rw [element_update]
      exact (hw.notMem hout 1).users _
    · rw [hagent]
      exact (hl.adopt hout value (by rw [hpc]; nofun)).users hdes _
  next hsome =>
    apply h.enter hpc ha hdes rfl (fun _ => id)
    refine ⟨hcalls, ?_⟩
    obtain ⟨b, hb⟩ := Option.ne_none_iff_exists'.1 hsome
    obtain ⟨-, hmem | ⟨value', happend⟩⟩ := hl.owned t b hb
    · exact hmem
    · exact nomatch hpc.symm.trans happend

omit [DecidableEq M] in
theorem appendStep_inv (hpc : s.pc t = .append a value) :
    Inv (appendStep s t a value) := by
  have hok := h.phase t a (by rw [hpc]; rfl)
  rw [hpc] at hok
  obtain ⟨hcalls, hag, hout⟩ := hok
  have hl := h.linked a hcalls.1
  simp only [appendStep]
  split
  case isFalse => exact h
  rename_i hlock
  refine h.turn (c := { s.combiners a with agents := (s.combiners a).agents ++ [t] }) hcalls.1 rfl
    hcalls.1
    (fun _ _ _ => rfl) (by rw [hpc]; rintro b v ⟨⟩; rfl)
    (.inr ⟨rfl, hcalls, mem_append_right _ mem_cons_self⟩) (fun _ _ => False.elim) ?_ ?_
  · intro u hu hat hu'
    have hmem : u ∈ (s.combiners a).agents ++ [t] ↔ u ∈ (s.combiners a).agents := by
      rw [mem_append, mem_singleton]
      exact or_iff_left hu
    exact hu'.stay ⟨hcalls.2.1, hcalls.1, hcalls.2.1, rfl, id, le_rfl, hmem⟩ (fun _ => rfl)
      (fun hl' => nomatch hlock.symm.trans hl')
  · constructor
    · refine nodup_append'.2 ⟨hl.nodup, nodup_singleton t, ?_⟩
      rintro u hu hut
      rw [mem_singleton.1 hut] at hu
      exact hout hu
    · intro _ u hu
      rcases mem_append.1 hu with hu | hu
      · exact hl.listed hcalls.2.1 u hu
      · rw [mem_singleton.1 hu]
        exact congrArg Agent.combiner hag
    · intro u b hb
      obtain ⟨hba, hu⟩ := hl.owned u b hb
      refine ⟨hba, ?_⟩
      obtain rfl | hut := eq_or_ne u t
      · exact .inl (mem_append_right _ mem_cons_self)
      · rw [update_of_ne hut]
        exact hu.imp_left (fun hu => mem_append_left _ hu)
    · intro u hu
      obtain rfl | hut := eq_or_ne u t
      · rw [update_self]
        exact id
      · rw [update_of_ne hut]
        rcases mem_append.1 hu with hu | hu
        · exact hl.present u hu
        · exact absurd (mem_singleton.1 hu) hut
    · exact fun hd => absurd hcalls.2.1 hd
    · exact fun _ => (hl.kept hcalls.2.1).append (congrArg Agent.element hag)

section

variable (ha : (s.combiners a).alive = true) (hpc : ∀ b value, s.pc t ≠ .append b value)
    (hpast : ∀ n, ¬p.Past n)
include ha hpc hpast

omit [DecidableEq M] in
theorem Inv.account {ag : ι → ℕ → Agent M}
    (hag : ∀ u n, n ≠ (s.combiners a).id → ag u n = s.agents u n)
    (hcomb : ∀ u, (ag u (s.combiners a).id).combiner = (s.agentOf a u).combiner)
    (hout : ∀ u, u ∉ (s.combiners a).agents → ag u (s.combiners a).id = s.agentOf a u)
    (hagents : c.agents = (s.combiners a).agents) (hid : c.id = (s.combiners a).id) (ha' : c.alive = true)
    (hdes : (s.combiners a).destroyer = none) (hdes' : c.destroyer = none)
    (hstays : ∀ u, u ≠ t → (s.combiners a).Stays c u)
    (hp : p.at = none ∨ p.at = some a ∧ p.Ok t a c (fun u => ag u (s.combiners a).id))
    (hwalk : ∀ u, u ≠ t → (s.combiners a).lock = some u → ∀ reset start ret nodes,
      Walked (s.combiners a) (fun u => (s.agentOf a u).element) reset start ret nodes →
        c.lock = some u ∧ Walked c (fun u => (ag u (s.combiners a).id).element) reset start ret nodes)
    (hk : Kept c (fun u => (ag u (s.combiners a).id).element)) :
    Inv ({ s with agents := ag }.turn t a c p) := by
  have hl := (h.linked a ha).other (t := t) (p := p) (hpc a) (fun _ hn => absurd hn (hpast _))
  apply h.turn ha hid ha' hag (fun b v hv => absurd hv (hpc b v)) hp (fun n _ hn => absurd hn (hpast n))
  · exact fun u hu _ hu' => hu'.stay (hstays u hu) (hout u) (hwalk u hu)
  · constructor
    · exact hagents ▸ hl.nodup
    · intro _ u hu
      rw [hcomb]
      exact hl.listed hdes u (hagents ▸ hu)
    · intro u b hb
      rw [hcomb] at hb
      rw [hagents]
      exact hl.owned u b hb
    · intro u hu
      rw [hid]
      exact hl.present u (hagents ▸ hu)
    · exact fun hd => absurd hdes' hd
    · exact fun _ => hk

omit [DecidableEq M] in
theorem Inv.store {node : ι} (hnode : node ∈ (s.combiners a).agents) {q : Tally M}
    (hagents : c.agents = (s.combiners a).agents) (hid : c.id = (s.combiners a).id) (ha' : c.alive = true)
    (hdes : (s.combiners a).destroyer = none) (hdes' : c.destroyer = none)
    (hstays : ∀ u, u ≠ t → (s.combiners a).Stays c u)
    (hp : p.at = none ∨ p.at = some a ∧
      p.Ok t a c (update (s.agentOf a) node { s.agentOf a node with element := q }))
    (hwalk : ∀ u, u ≠ t → (s.combiners a).lock = some u → ∀ reset start ret nodes,
      Walked (s.combiners a) (fun u => (s.agentOf a u).element) reset start ret nodes →
        c.lock = some u ∧
          Walked c (update (fun u => (s.agentOf a u).element) node q) reset start ret nodes)
    (hk : Kept c (update (fun u => (s.agentOf a u).element) node q)) :
    Inv ((s.store a node q).turn t a c p) := by
  have hagent := setAgent_at s.agents node (s.combiners a).id { s.agentOf a node with element := q }
  have helem := (congrArg (fun f u => Agent.element (f u)) hagent).trans (element_update ..)
  apply h.account ha hpc hpast (fun u n hn => setAgent_other _ _ _ hn u) _ _ hagents hid ha' hdes
    hdes' hstays
  · rw [hagent]
    exact hp
  · intro u hu hlock reset start ret nodes hw
    obtain ⟨hlock', hw'⟩ := hwalk u hu hlock reset start ret nodes hw
    exact ⟨hlock', (congrArg (fun f => Walked c f reset start ret nodes) helem).mpr hw'⟩
  · exact (congrArg (Kept c) helem).mpr hk
  · intro u
    exact (congrArg Agent.combiner (congrFun hagent u)).trans (combiner_update ..)
  · intro u hu
    refine (congrFun hagent u).trans (update_of_ne ?_ ..)
    rintro rfl
    exact hu hnode

end

omit [DecidableEq M] in
theorem tookStep_inv (hpc : ∀ b value, s.pc t ≠ .append b value) (hcalls : (s.combiners a).Calls t)
    (hmem : t ∈ (s.combiners a).agents) (value : M) :
    Inv (tookStep s t a value ((s.agentOf a t).element.val * value)) := by
  have hl := h.linked a hcalls.1
  have hlog : (s.combiners a).log.length ≤ ((s.combiners a).log ++ [value]).length := by
    rw [length_append]
    exact Nat.le_add_right ..
  refine h.store hcalls.1 hpc (fun _ => id) hmem rfl rfl hcalls.1 hcalls.2.1 hcalls.2.1 ?_
    (.inl rfl) ?_ ?_
  · intro u hu
    exact ⟨hcalls.2.1, hcalls.1, hcalls.2.1, rfl, fun hin => Finset.mem_erase.2 ⟨hu, hin⟩, hlog, Iff.rfl⟩
  · exact fun u hu hlock _ _ _ _ hw => ⟨hlock, hw.took hl.nodup hmem value⟩
  · exact (hl.kept hcalls.2.1).took hl.nodup hmem value

omit [DecidableEq M] in
theorem modifyStep_inv (hpc : s.pc t = .modify a value) (atomical : Bool) :
    Inv (modifyStep atomical s t a value) := by
  have hok := h.phase t a (by rw [hpc]; rfl)
  rw [hpc] at hok
  unfold modifyStep
  split
  · apply h.goto (by rw [hpc]; nofun)
    · intro b hb
      cases hb
      exact hok
    · exact fun _ _ _ => False.elim
  · exact tookStep_inv h (by rw [hpc]; nofun) hok.1 hok.2 value

theorem casStep_inv {oldValue : M} (hpc : s.pc t = .cas a value oldValue) (ok : Bool) :
    Inv (casStep s t a value oldValue ok) := by
  have hok := h.phase t a (by rw [hpc]; rfl)
  rw [hpc] at hok
  unfold casStep
  split
  · -- the value is the one that was loaded
    rename_i hold
    rw [← hold.1]
    exact tookStep_inv h (by rw [hpc]; nofun) hok.1 hok.2 value
  · apply h.goto (by rw [hpc]; nofun)
    · intro b hb
      cases hb
      exact hok
    · exact fun _ _ _ => False.elim

end

/-! ### `get_value`, `reset` and `commit_and_clear` -/

section

omit [DecidableEq M]

theorem lockStep_inv (h : Inv s) {reset : Bool} {start : ℕ} (hpc : s.pc t = .lock a reset start) :
    Inv (lockStep s t a reset start) := by
  have hok := h.phase t a (by rw [hpc]; rfl)
  rw [hpc] at hok
  obtain ⟨⟨ha, hdes, hmem⟩, hstart⟩ := hok
  simp only [lockStep]
  split
  case isFalse => exact h
  rename_i hlock
  obtain ⟨hk, hw⟩ := ((h.linked a ha).kept hdes).take hlock hstart t reset
  have hsame : ((s.combiners a).take t reset).agents = (s.combiners a).agents ∧
      ((s.combiners a).take t reset).id = (s.combiners a).id ∧
      ((s.combiners a).take t reset).alive = (s.combiners a).alive ∧
      ((s.combiners a).take t reset).destroyer = (s.combiners a).destroyer ∧
      ((s.combiners a).take t reset).users = (s.combiners a).users ∧
      ((s.combiners a).take t reset).log = (s.combiners a).log ∧
      ((s.combiners a).take t reset).lock = some t := by
    cases reset <;> exact ⟨rfl, rfl, rfl, rfl, rfl, rfl, rfl⟩
  obtain ⟨hagents, hid, halive, hdestroyer, husers, hlog, hlocked⟩ := hsame
  refine h.account (c := (s.combiners a).take t reset) ha (by rw [hpc]; nofun) (fun _ => id)
    (fun _ _ _ => rfl)
    (fun _ => rfl) (fun _ _ => rfl) hagents hid (halive.trans ha) hdes (hdestroyer.trans hdes) ?_ ?_ ?_ hk
  · intro u _
    refine ⟨hdes, halive.trans ha, hdestroyer.trans hdes, hid, ?_, ?_, ?_⟩
    · rw [husers]
      exact id
    · rw [hlog]
    · rw [hagents]
  · refine .inr ⟨rfl, ⟨halive.trans ha, hdestroyer.trans hdes, ?_⟩, hlocked, hw⟩
    rw [husers]
    exact hmem
  · exact fun u _ hl => nomatch hlock.symm.trans hl

theorem walkStep_inv (h : Inv s) {reset : Bool} {start : ℕ} {ret : Tally M} {nodes : List ι}
    (hpc : s.pc t = .walk a reset start ret nodes) : Inv (walkStep s t a reset start ret nodes) := by
  have hok := h.phase t a (by rw [hpc]; rfl)
  rw [hpc] at hok
  obtain ⟨⟨ha, hdes, hmem⟩, hlock, hw⟩ := hok
  have hl := h.linked a ha
  have hk := hl.kept hdes
  have happend : ∀ b value, s.pc t ≠ .append b value := by rw [hpc]; nofun
  have hmine : ∀ u, u ≠ t → (s.combiners a).lock ≠ some u := fun u hu hl' =>
    hu (Option.some.inj (hl'.symm.trans hlock))
  cases nodes with
  | nil =>
    refine h.account (p := .idle) (c := { s.combiners a with
        lock := none
        transit := 1
        results := ⟨reset, start, (s.combiners a).log.length, (s.combiners a).resets.ups, ret⟩ ::
          (s.combiners a).results }.leave t)
      ha happend (fun _ => id) (fun _ _ _ => rfl) (fun _ => rfl) (fun _ _ => rfl) rfl rfl ha hdes hdes ?_
      (.inl rfl) (fun u hu hl' => absurd hl' (hmine u hu)) (hw.finish hk)
    exact fun u hu => ⟨hdes, ha, hdes, rfl, fun hin => Finset.mem_erase.2 ⟨hu, hin⟩, le_rfl, Iff.rfl⟩
  | cons node nodes =>
    cases reset with
    | false =>
      apply h.goto happend
      · rintro b ⟨⟩
        exact ⟨⟨ha, hdes, hmem⟩, hlock, hw.load hk⟩
      · exact fun _ _ _ => False.elim
    | true =>
      obtain ⟨hk', hw'⟩ := hw.exchange hk hl.nodup (by rw [hlock]; nofun)
      refine h.store (c := { s.combiners a with transit := ret * (s.agentOf a node).element }) ha happend
        (fun _ => id) (hw.suffix.subset mem_cons_self) rfl rfl ha hdes hdes ?_ (.inr ⟨rfl, ?_⟩)
        (fun u hu hl' => absurd hl' (hmine u hu)) hk'
      · exact fun u _ => ⟨hdes, ha, hdes, rfl, id, le_rfl, Iff.rfl⟩
      · refine ⟨⟨ha, hdes, hmem⟩, hlock, ?_⟩
        rw [element_update]
        exact hw'

theorem commitStep_inv (h : Inv s) (hpc : s.pc t = .commit a) : Inv (commitStep s t a) := by
  have hok := h.phase t a (by rw [hpc]; rfl)
  rw [hpc] at hok
  obtain ⟨ha, hdes, hmem⟩ := hok
  have hl := h.linked a ha
  have hk := hl.kept hdes
  have happend : ∀ b value, s.pc t ≠ .append b value := by rw [hpc]; nofun
  simp only [commitStep]
  split
  case isFalse => exact h
  rename_i hlock
  have hfree : ∀ u, (s.combiners a).lock ≠ some u := fun u hl' => nomatch hlock.symm.trans hl'
  split
  · -- the thread has no agent
    refine h.account (p := .idle) (c := (s.combiners a).leave t) ha happend (fun _ => id)
      (fun _ _ _ => rfl)
      (fun _ => rfl) (fun _ _ => rfl) rfl rfl ha hdes hdes ?_ (.inl rfl)
        (fun u _ hl' => absurd hl' (hfree u)) (hk.users _)
    exact fun u hu => ⟨hdes, ha, hdes, rfl, fun hin => Finset.mem_erase.2 ⟨hu, hin⟩, le_rfl, Iff.rfl⟩
  next hsome =>
    obtain ⟨b, hb⟩ := Option.ne_none_iff_exists'.1 hsome
    have hnode : t ∈ (s.combiners a).agents :=
      (hl.owned t b hb).2.resolve_right (fun ⟨value, hv⟩ => happend a value hv)
    refine h.store (p := .idle) (c := { s.combiners a with
        globalResult := (s.combiners a).globalResult * (s.agentOf a t).element }.leave t) ha happend
          (fun _ => id)
      hnode rfl rfl ha hdes hdes ?_ (.inl rfl) (fun u _ hl' => absurd hl' (hfree u))
        (hk.commit hl.nodup hnode)
    exact fun u hu => ⟨hdes, ha, hdes, rfl, fun hin => Finset.mem_erase.2 ⟨hu, hin⟩, le_rfl, Iff.rfl⟩

end

/-! ### The exit of a thread -/

omit [DecidableEq M] in
theorem exitingStep_inv (h : Inv s) (hpc : s.pc t = .exiting n)
    (hapart : ∀ a, (s.combiners a).alive = true → (s.combiners a).id = n → t ∈ (s.combiners a).agents →
      (s.combiners a).destroyer = none) : Inv (exitingStep s t n) := by
  have happend : ∀ b value, s.pc t ≠ .append b value := by rw [hpc]; nofun
  -- an agent of this id that is in the list of its combiner has the pointer to it
  have hlisted : ∀ a, (s.combiners a).alive = true → t ∈ (s.combiners a).agents → (s.combiners a).id = n →
      (s.agents t n).combiner = some a := by
    intro a ha hmem hid
    have hc := (h.linked a ha).listed (hapart a ha hid hmem) t hmem
    rw [State.agentOf, hid] at hc
    exact hc
  unfold exitingStep
  split
  · cases hc : (s.agents t n).combiner with
    | none =>
      apply h.goto happend
      · nofun
      · intro a ha hmem hlt
        rw [hpc]
        refine lt_of_le_of_ne (Nat.le_of_lt_succ hlt) ?_
        intro hid
        exact nomatch hc.symm.trans (hlisted a ha hmem hid)
    | some a =>
      obtain ⟨b, hb, hid⟩ : ∃ b, (s.combiners b).alive = true ∧ (s.combiners b).id = n := by
        by_contra hnone
        have hunused := h.unused n (fun b hb hid => hnone ⟨b, hb, hid⟩) t
        exact nomatch hunused.symm.trans hc
      obtain ⟨rfl, hmem⟩ := (h.linked b hb).owned t a (by rw [State.agentOf, hid]; exact hc)
      have hmem := hmem.resolve_right (fun ⟨value, hv⟩ => happend a value hv)
      apply h.goto happend
      · rintro b ⟨⟩
        exact ⟨hb, hapart a hb hid hmem, hid, hmem⟩
      · intro b _ _ hlt
        rw [hpc]
        exact hlt
  next hlt =>
    apply h.goto happend
    · nofun
    · intro a ha hmem _
      rw [hpc]
      exact ((h.kinds a ha).1.trans_le (not_lt.1 hlt))

omit [DecidableEq M] in
theorem committingStep_inv (h : Inv s) (hpc : s.pc t = .committing n a) :
    Inv (committingStep s t n a) := by
  have hok := h.phase t a (by rw [hpc]; rfl)
  rw [hpc] at hok
  obtain ⟨ha, hdes, rfl, hmem⟩ := hok
  have hl := h.linked a ha
  have hk := hl.kept hdes
  simp only [committingStep]
  split
  case isFalse => exact h
  rename_i hlock
  have hagent := setAgent_at s.agents t (s.combiners a).id { s.agentOf a t with combiner := none }
  have helem := ((congrArg (fun f u => Agent.element (f u)) hagent).trans (element_update ..)).trans
    (update_eq_self t (fun u => (s.agentOf a u).element))
  refine h.turn (c := { s.combiners a with
      globalResult := (s.combiners a).globalResult * (s.agentOf a t).element
      agents := (s.combiners a).agents.erase t }) ha rfl ha (fun u n hn => setAgent_other _ _ _ hn u)
    (by rw [hpc]; nofun) (.inl rfl) ?_ ?_ ?_
  · intro n hn hlt
    rw [hpc]
    exact lt_of_le_of_ne (Nat.le_of_lt_succ hlt) hn
  · intro u hu _ hu'
    refine hu'.stay ⟨hdes, ha, hdes, rfl, id, le_rfl, mem_erase_of_ne hu⟩ ?_
      (fun hl' => nomatch hlock.symm.trans hl')
    exact fun _ => (congrFun hagent u).trans (update_of_ne hu ..)
  · constructor
    · exact hl.nodup.erase t
    · intro _ u hu
      have hut : u ≠ t := fun he => hl.nodup.not_mem_erase (he ▸ hu)
      have hagu := (congrFun hagent u).trans (update_of_ne hut ..)
      exact (congrArg Agent.combiner hagu).trans (hl.listed hdes u (mem_of_mem_erase hu))
    · intro u b hb
      have hb := (congrArg Agent.combiner (congrFun hagent u)).symm.trans hb
      obtain rfl | hut := eq_or_ne u t
      · rw [update_self] at hb
        exact nomatch hb
      · rw [update_of_ne hut] at hb ⊢
        exact (hl.owned u b hb).imp_right (.imp_left (mem_erase_of_ne hut).2)
    · intro u hu
      have hut : u ≠ t := fun he => hl.nodup.not_mem_erase (he ▸ hu)
      rw [update_of_ne hut]
      exact hl.present u (mem_of_mem_erase hu)
    · exact fun hd => absurd hdes hd
    · exact fun _ => (congrArg (Kept _) helem).mpr (hk.erase hmem)

/-! ### The destructor and the constructor -/

section

variable (h : Inv s)
include h

omit [DecidableEq ι] [DecidableEq M] in
theorem Inv.alone (hdes : (s.combiners a).destroyer = some t) {u : ι} (hu : u ≠ t)
    (hat : (s.pc u).at = some a) : False := by
  have hok := h.phase u a hat
  have hcalls : ∀ {u}, ¬(s.combiners a).Calls u := fun hc => nomatch hdes.symm.trans hc.2.1
  have hdies : ¬(s.combiners a).Dies u := fun hd => hu (Option.some.inj (hd.2.symm.trans hdes))
  cases hpc : s.pc u <;> rw [hpc] at hok hat
  all_goals first
    | exact hcalls hok
    | exact hcalls hok.1
    | exact hdies hok
    | exact hdies hok.1
    | exact nomatch hdes.symm.trans hok.2.1
    | simp [Pc.at] at hat

omit [DecidableEq M] in
theorem Inv.destroy (ha : (s.combiners a).alive = true) (hpc : ∀ b value, s.pc t ≠ .append b value)
    (hpast : ∀ n, ¬p.Past n) (hothers : ∀ u, u ≠ t → (s.pc u).at ≠ some a)
    (hid : c.id = (s.combiners a).id)
    (hagents : c.agents.Sublist (s.combiners a).agents)
    (hsub : ∀ u ∈ (s.combiners a).agents, u ∉ c.agents → ∀ b, (s.agentOf a u).combiner ≠ some b)
    (hd : c.Dies t) (husers : c.users = ∅) (hp : p.at = some a ∧ p.Ok t a c (s.agentOf a)) :
    Inv (s.turn t a c p) := by
  have hl := (h.linked a ha).other (t := t) (p := p) (hpc a) (fun _ hn => absurd hn (hpast _))
  refine h.turn ha hid hd.1 (fun _ _ _ => rfl) (fun b v hv => absurd hv (hpc b v)) (.inr hp)
    (fun n _ hn => absurd hn (hpast n)) (fun u hu hat _ => absurd hat (hothers u hu)) ?_
  constructor
  · exact hl.nodup.sublist hagents
  · exact fun hn => nomatch hd.2.symm.trans hn
  · intro u b hb
    refine (hl.owned u b hb).imp_right (.imp_left ?_)
    intro hu
    by_contra hout
    exact hsub u hu hout b hb
  · intro u hu
    rw [hid]
    exact hl.present u (hagents.subset hu)
  · exact fun _ => husers
  · exact fun hn => nomatch hd.2.symm.trans hn

section

omit [DecidableEq M]

theorem clearStep_inv (hpc : s.pc t = .clear a) : Inv (clearStep s t a) := by
  have hok : (s.combiners a).Dies t := by
    have hok := h.phase t a (by rw [hpc]; rfl)
    rw [hpc] at hok
    exact hok
  simp only [clearStep]
  split
  case isFalse => exact h
  refine h.destroy (c := { s.combiners a with lock := some t }) hok.1 (by rw [hpc]; nofun) (fun _ => id)
    (fun u hu hat => h.alone hok.2 hu hat) rfl (List.Sublist.refl _) (fun u hu hu' => absurd hu hu')
      hok ?_
    ⟨rfl, hok, rfl, rfl⟩
  exact (h.linked a hok.1).calm (by rw [hok.2]; nofun)

theorem unlinkingStep_inv {node : ι} {nodes : List ι} (hpc : s.pc t = .unlinking a node nodes) :
    Inv (unlinkingStep s t a node nodes) := by
  have hok := h.phase t a (by rw [hpc]; rfl)
  rw [hpc] at hok
  obtain ⟨hd, hlock, hagents, hnone⟩ := hok
  have herase : (s.combiners a).agents.erase node = nodes := by
    rw [hagents]
    exact erase_cons_head ..
  refine h.destroy (c := { s.combiners a with agents := (s.combiners a).agents.erase node }) hd.1
    (by rw [hpc]; nofun) (fun _ => id) (fun u hu hat => h.alone hd.2 hu hat) rfl (erase_sublist ..) ?_ hd
    ((h.linked a hd.1).calm (by rw [hd.2]; nofun)) ⟨rfl, hd, hlock, herase⟩
  intro u hu hout b hb
  obtain rfl : u = node := by
    by_contra hne
    exact hout ((mem_erase_of_ne hne).2 hu)
  exact nomatch hnone.symm.trans hb

theorem clearingStep_inv {nodes : List ι} (hpc : s.pc t = .clearing a nodes) (elementTp : M) :
    Inv (clearingStep elementTp s t a nodes) := by
  have hok := h.phase t a (by rw [hpc]; rfl)
  rw [hpc] at hok
  obtain ⟨hd, hlock, hagents⟩ := hok
  have hl := h.linked a hd.1
  have husers := hl.calm (by rw [hd.2]; nofun)
  have happend : ∀ b value, s.pc t ≠ .append b value := by rw [hpc]; nofun
  cases nodes with
  | nil =>
    exact h.destroy (c := { s.combiners a with lock := none }) hd.1 happend (fun _ => id)
      (fun u hu hat => h.alone hd.2 hu hat) rfl (List.Sublist.refl _)
        (fun u hu hu' => absurd hu hu') hd husers
      ⟨rfl, hd, hagents⟩
  | cons node nodes =>
    have hagent := setAgent_at s.agents node (s.combiners a).id ⟨none, ⟨elementTp, 0⟩⟩
    have hturn : clearingStep elementTp s t a (node :: nodes)
        = (s.setAgent node (s.combiners a).id ⟨none, ⟨elementTp, 0⟩⟩).turn t a (s.combiners a)
          (.unlinking a node nodes) := by
      simp only [clearingStep, State.goto, State.turn, State.setAgent, update_eq_self]
    rw [hturn]
    refine h.turn hd.1 rfl hd.1 (fun u n hn => setAgent_other _ _ _ hn u) (by rw [hpc]; nofun)
      (.inr ⟨rfl, hd, hlock, hagents, ?_⟩) (fun _ _ => False.elim)
        (fun u hu hat _ => (h.alone hd.2 hu hat).elim) ?_
    · exact congrArg Agent.combiner ((congrFun hagent node).trans (update_self ..))
    · have ho := hl.other (t := t) (p := .unlinking a node nodes) (happend a) (fun _ => False.elim)
      rw [hagent]
      constructor
      · exact ho.nodup
      · exact fun hn => nomatch hd.2.symm.trans hn
      · intro u b hb
        obtain rfl | hun := eq_or_ne u node
        · rw [update_self] at hb
          exact nomatch hb
        · rw [update_of_ne hun] at hb
          exact ho.owned u b hb
      · exact ho.present
      · exact fun _ => husers
      · exact fun hn => nomatch hd.2.symm.trans hn

end

omit [DecidableEq M] in
theorem freeingStep_inv (hpc : s.pc t = .freeing a) : Inv (freeingStep s t a) := by
  have hok := h.phase t a (by rw [hpc]; rfl)
  rw [hpc] at hok
  obtain ⟨hd, hagents⟩ := hok
  obtain ⟨hlt, hfree⟩ := h.kinds a hd.1
  set c := { s.combiners a with alive := false, destroyer := none }
  set s' := { s with freeIds := (s.combiners a).id :: s.freeIds }.turn t a c .idle
  have hstep : freeingStep s t a = s' := by
    simp only [freeingStep, hlt, if_true]
    rfl
  rw [hstep]
  have hself : s'.combiners a = c := update_self ..
  have hne : ∀ {b}, b ≠ a → s'.combiners b = s.combiners b := fun hb => update_of_ne hb ..
  have hagent : ∀ {b}, b ≠ a → s'.agentOf b = s.agentOf b := by
    intro b hb
    ext1 u
    rw [State.agentOf, hne hb]
    rfl
  have hlive : ∀ {b}, (s'.combiners b).alive = true → b ≠ a := by
    rintro b hb rfl
    rw [hself] at hb
    exact nomatch hb
  constructor
  · intro u b hat
    have hut : u ≠ t := by
      rintro rfl
      have hpc' : s'.pc u = .idle := update_self ..
      rw [hpc'] at hat
      exact nomatch (show none = some b from hat)
    have hpc' : s'.pc u = s.pc u := update_of_ne hut ..
    rw [hpc'] at hat ⊢
    have hba : b ≠ a := by
      rintro rfl
      exact h.alone hd.2 hut hat
    rw [hne hba, hagent hba]
    exact h.phase u b hat
  · intro b hb
    have hba := hlive hb
    rw [hne hba] at hb ⊢
    rw [hagent hba]
    exact (h.linked b hb).other (by rw [hpc]; nofun) (fun _ => False.elim)
  · intro b b' hb hb' hbb
    have hba := hlive hb
    have hba' := hlive hb'
    rw [hne hba] at hb hbb
    rw [hne hba'] at hb' hbb
    exact h.ids b b' hb hb' hbb
  · intro b hb
    have hba := hlive hb
    rw [hne hba] at hb ⊢
    refine ⟨(h.kinds b hb).1, ?_⟩
    refine not_mem_cons_of_ne_of_not_mem ?_ (h.kinds b hb).2
    exact fun hid => hba (h.ids b a hb hd.1 hid)
  · exact ⟨nodup_cons.2 ⟨hfree, h.free.1⟩, forall_mem_cons.2 ⟨hlt, h.free.2⟩⟩
  · intro n hn u
    by_cases hna : n = (s.combiners a).id
    · subst hna
      cases hcomb : (s.agents u (s.combiners a).id).combiner with
      | none => exact hcomb
      | some b =>
        obtain ⟨-, hmem | ⟨value, hv⟩⟩ := (h.linked a hd.1).owned u b hcomb
        · rw [hagents] at hmem
          exact nomatch hmem
        · have hut : u ≠ t := by
            rintro rfl
            exact nomatch hpc.symm.trans hv
          exact (h.alone hd.2 hut (by rw [hv]; rfl)).elim
    · apply h.unused n _ u
      intro b hb
      obtain rfl | hba := eq_or_ne b a
      · exact Ne.symm hna
      · have hn' := hn b
        rw [hne hba] at hn'
        exact hn' hb

section

omit [DecidableEq ι] [DecidableEq M]

theorem Inv.create (ha : (s.combiners a).alive = false) {kinds : ℕ} {free : List ℕ}
    (hn : ∀ b, (s.combiners b).alive = true → (s.combiners b).id ≠ n) (hlt : n < kinds) (hout : n ∉ free)
    (hkinds : s.agentKinds ≤ kinds) (hsub : free.Sublist s.freeIds) :
    Inv { s with
      agentKinds := kinds
      freeIds := free
      combiners := update s.combiners a { Combiner.blank with id := n, alive := true } } := by
  set s' : State ι M := { s with
    agentKinds := kinds
    freeIds := free
    combiners := update s.combiners a { Combiner.blank with id := n, alive := true } }
  have hself : s'.combiners a = { Combiner.blank with id := n, alive := true } := update_self ..
  have hne : ∀ {b}, b ≠ a → s'.combiners b = s.combiners b := fun hb => update_of_ne hb ..
  have hagent : ∀ {b}, b ≠ a → s'.agentOf b = s.agentOf b := by
    intro b hb
    ext1 u
    rw [State.agentOf, hne hb]
    rfl
  have hold : ∀ {b}, (s.combiners b).alive = true → b ≠ a := by
    rintro b hb rfl
    exact nomatch ha.symm.trans hb
  constructor
  · intro u b hat
    have hok := h.phase u b hat
    have hba := hold (hok.alive hat)
    rw [hne hba, hagent hba]
    exact hok
  · intro b hb
    obtain rfl | hba := eq_or_ne b a
    · rw [hself]
      refine ⟨nodup_nil, nofun, ?_, nofun, fun hd => absurd rfl hd, fun _ => ?_⟩
      · intro u b' hb'
        rw [State.agentOf, hself] at hb'
        exact nomatch (h.unused n hn u).symm.trans hb'
      · exact ⟨rfl, .one, nofun, .one, fun _ => rfl, nofun⟩
    · rw [hne hba] at hb ⊢
      rw [hagent hba]
      exact h.linked b hb
  · intro b b' hb hb' hbb
    by_cases hba : b = a
    · by_cases hba' : b' = a
      · exact hba.trans hba'.symm
      · subst hba
        rw [hne hba'] at hb' hbb
        rw [hself] at hbb
        exact absurd hbb.symm (hn b' hb')
    · rw [hne hba] at hb hbb
      obtain rfl | hba' := eq_or_ne b' a
      · rw [hself] at hbb
        exact absurd hbb (hn b hb)
      · rw [hne hba'] at hb' hbb
        exact h.ids b b' hb hb' hbb
  · intro b hb
    obtain rfl | hba := eq_or_ne b a
    · rw [hself]
      exact ⟨hlt, hout⟩
    · rw [hne hba] at hb ⊢
      exact ⟨(h.kinds b hb).1.trans_le hkinds, fun hmem => (h.kinds b hb).2 (hsub.subset hmem)⟩
  · exact ⟨h.free.1.sublist hsub, fun m hm => (h.free.2 m (hsub.subset hm)).trans_le hkinds⟩
  · intro m hm u
    apply h.unused m _ u
    intro b hb
    have hn' := hm b
    rw [hne (hold hb)] at hn'
    exact hn' hb

theorem createStep_inv (ha : (s.combiners a).alive = false) : Inv (createStep s a) := by
  unfold createStep
  cases hfree : s.freeIds with
  | nil =>
    have hn : ∀ b, (s.combiners b).alive = true → (s.combiners b).id ≠ s.agentKinds := fun b hb =>
      ne_of_lt (h.kinds b hb).1
    exact h.create ha hn (Nat.lt_succ_self _) not_mem_nil (Nat.le_succ _) (nil_sublist _)
  | cons id free =>
    have hmem : id ∈ s.freeIds := by
      rw [hfree]
      exact mem_cons_self
    have hn : ∀ b, (s.combiners b).alive = true → (s.combiners b).id ≠ id := by
      rintro b hb rfl
      exact (h.kinds b hb).2 hmem
    have hnd := h.free.1
    rw [hfree] at hnd
    apply h.create ha hn (h.free.2 id hmem) (nodup_cons.1 hnd).1 le_rfl
    rw [hfree]
    exact sublist_cons_self ..

end

end

/-! ## Runs -/

theorem goStep_inv (h : Inv s) (atomical : Bool) (elementTp : M) (t : ι) (ok : Bool)
    (hapart : Apart s (.go t ok)) : Inv (goStep atomical elementTp s t ok) := by
  unfold goStep
  cases hpc : s.pc t with
  | idle => exact h
  | append a value => exact appendStep_inv h hpc
  | modify a value => exact modifyStep_inv h hpc atomical
  | cas a value oldValue => exact casStep_inv h hpc ok
  | lock a reset start => exact lockStep_inv h hpc
  | walk a reset start ret nodes => exact walkStep_inv h hpc
  | commit a => exact commitStep_inv h hpc
  | exiting n =>
    simp only [Apart, hpc] at hapart
    exact exitingStep_inv h hpc hapart
  | committing n a => exact committingStep_inv h hpc
  | gone => exact h
  | clear a => exact clearStep_inv h hpc
  | clearing a nodes => exact clearingStep_inv h hpc elementTp
  | unlinking a node nodes => exact unlinkingStep_inv h hpc
  | freeing a => exact freeingStep_inv h hpc

omit [DecidableEq ι] [CommMonoid M] [DecidableEq M] in
theorem State.MayCall.idle (h : s.MayCall t a) : s.pc t = .idle := by
  have hidle := h.1
  cases hpc : s.pc t <;> first | rfl | simp [hpc] at hidle

omit [DecidableEq M] in
theorem destroy_inv (h : Inv s) (hmay : s.MayCall t a) (husers : (s.combiners a).users = ∅)
    (hapart : ∀ u n, s.pc u ≠ .committing n a) :
    Inv (s.turn t a { s.combiners a with destroyer := some t } (.clear a)) := by
  have hpc := hmay.idle
  refine h.destroy (c := { s.combiners a with destroyer := some t }) hmay.2.1 (by rw [hpc]; nofun)
    (fun _ => id)
    ?_ rfl (List.Sublist.refl _) (fun u hu hu' => absurd hu hu') ⟨hmay.2.1, rfl⟩ husers
      ⟨rfl, hmay.2.1, rfl⟩
  intro u _ hat
  have hok := h.phase u a hat
  have hcalls : ¬(s.combiners a).Calls u := by
    rintro ⟨-, -, hmem⟩
    rw [husers] at hmem
    exact Finset.notMem_empty u hmem
  have hdies : ¬(s.combiners a).Dies u := fun hd => nomatch hmay.2.2.symm.trans hd.2
  cases hpcu : s.pc u <;> rw [hpcu] at hok hat
  case committing n b =>
    obtain rfl : b = a := Option.some.inj hat
    exact hapart u n hpcu
  all_goals first
    | exact hcalls hok
    | exact hcalls hok.1
    | exact hdies hok
    | exact hdies hok.1
    | simp [Pc.at] at hat

theorem step_inv (atomical : Bool) (elementTp : M) (s : State ι M) (x : Act ι M) (h : Inv s)
    (hx : Apart s x) :
    Inv (step atomical elementTp s x) := by
  cases x with
  | add t a value =>
    simp only [step]
    split
    next hmay =>
      exact addStep_inv h hmay.idle hmay.2.1 hmay.2.2 value
    · exact h
  | getValue t a =>
    simp only [step]
    split
    next hmay =>
      exact h.enter hmay.idle hmay.2.1 hmay.2.2 rfl (fun _ => id)
        ⟨⟨hmay.2.1, hmay.2.2, Finset.mem_insert_self ..⟩, le_rfl⟩
    · exact h
  | reset t a =>
    simp only [step]
    split
    next hmay =>
      exact h.enter hmay.idle hmay.2.1 hmay.2.2 rfl (fun _ => id)
        ⟨⟨hmay.2.1, hmay.2.2, Finset.mem_insert_self ..⟩, le_rfl⟩
    · exact h
  | commitAndClear t a =>
    simp only [step]
    split
    next hmay =>
      exact h.enter hmay.idle hmay.2.1 hmay.2.2 rfl (fun _ => id)
        ⟨hmay.2.1, hmay.2.2, Finset.mem_insert_self ..⟩
    · exact h
  | exit t =>
    simp only [step]
    split
    next hidle =>
      have hpc : s.pc t = .idle := by
        cases hpc : s.pc t <;> first | rfl | simp [hpc] at hidle
      apply h.goto (by rw [hpc]; nofun)
      · nofun
      · exact fun _ _ _ hlt => absurd hlt (Nat.not_lt_zero _)
    · exact h
  | create a =>
    simp only [step]
    split
    · exact h
    next ha =>
      exact createStep_inv h (Bool.eq_false_of_not_eq_true ha)
  | destroy t a =>
    simp only [step]
    split
    next hmay =>
      exact destroy_inv h hmay.1 hmay.2 hx
    · exact h
  | go t ok => exact goStep_inv h atomical elementTp t ok hx

/-- **No update is lost or duplicated** in a run in which exits and destructors are kept apart. -/
theorem run_losesNothing (atomical : Bool) (elementTp : M) (as : List (Act ι M))
    (hap : Along (step atomical elementTp) Apart (start ι M) as) :
    LosesNothing (runFrom (step atomical elementTp) (start ι M) as) := by
  have hinv : Inv (runFrom (step atomical elementTp) (start ι M) as) :=
    hap.run (step_inv atomical elementTp) start_inv
  exact hinv.losesNothing

/-- A thread multiplies by five and exits, and another one resets. -/
def resetRun : List (Act Bool ℕ) :=
  [.create 0, .add true 0 5, .go true true, .go true true, .go true true, .exit true, .go true true,
    .go true true, .reset false 0, .go false true, .go false true]

theorem run_losesNothing_reset :
    Along (step true 0) Apart (start Bool ℕ) resetRun ∧
      LosesNothing (runFrom (step true 0) (start Bool ℕ) resetRun) := by
  have hap : Along (step true 0) Apart (start Bool ℕ) resetRun := by
    have hexit : Inv (runFrom (step true 0) (start Bool ℕ) (resetRun.take 6)) :=
      Along.run (C := Apart) ⟨trivial, trivial, trivial, trivial, trivial, trivial, trivial⟩
        (step_inv true 0)
        start_inv
    refine ⟨trivial, trivial, trivial, trivial, trivial, trivial, ?_, trivial, trivial, trivial,
      trivial, trivial⟩
    intro a ha hid _
    obtain rfl : a = 0 := hexit.ids a 0 ha rfl hid
    rfl
  exact ⟨hap, run_losesNothing true 0 resetRun hap⟩

/-- A thread multiplies by five and exits; the combiner is destroyed before the thread has its lock,
and another one is constructed at its address, which the thread then multiplies by `ElementTp()`. -/
theorem exit_race : ¬LosesNothing (runFrom (step true 0) (start Bool ℕ)
    [.create 0, .add true 0 5, .go true true, .go true true, .go true true, .exit true, .go true true,
      .destroy false 0, .go false true, .go false true, .go false true, .go false true, .go false true,
      .create 0, .go true true]) := by
  intro h
  have hvalue := (h.lossless 0 ⟨by decide, by decide⟩).value
  revert hvalue
  decide

end Eabase.Var.AgentCombiner
