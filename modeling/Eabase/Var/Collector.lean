import Eabase.Lib.Machine
import Eabase.Utility.LinkedList

/-!
# Collector

`Collected::submit` gives a sample to a reducer whose value is a circular list:
the element of the thread, the global result, and what `reset` returns are
pointers into such lists. The grab thread puts what it has reset under a root,
takes it apart into a vector for each preprocessor, and drops a sample or puts it
under another root, which it then takes away to put the rest in front of
`_dump_root`. From there the dump thread takes them in the same way.

A step is one access to what the threads share, one operation on a list that a
thread has alone, or one call of a sample. Samples are told apart by what they
are, not by where they lie: one that is constructed where another one was is
another one.
-/

namespace Eabase.Var.Collector

open Lib Utility.LinkedList Function List

/-- The samples, the `tmp_root` and the `root` of the grab thread, `_dump_root`, and the `root` of
the dump thread. -/
inductive Node (α : Type*) where
  | sample (x : α)
  | tmpRoot
  | root
  | dumpRoot
  | dumperRoot
  deriving DecidableEq

/-- Where a thread stands: in `submit` in front of the `Append` of its agent, or of the `modify` of
its element. -/
inductive Pc (α : Type*) where
  | idle
  | append (x : α)
  | modify (x : α)
  deriving DecidableEq

/-- Where the grab thread stands: at the top of its loop, in `reset_all_agents` at a node, behind
it, at the sample `p` under `tmp_root`, at an entry of `prep_map`, at a sample of a vector, behind
the counting of the sample `p`, in front of its `destroy`, in front of the root, of the lock of the
dump thread, of the clock, of the second look at it. -/
inductive GrabPc (ι κ α : Type*) where
  | top
  | walk (tmp : Option α) (nodes : List ι)
  | got (head : Option α)
  | group (p : Node α)
  | iterate (it : List (WithBot κ × List α))
  | each (list : List α) (it : List (WithBot κ × List α))
  | counted (p : α) (list : List α) (it : List (WithBot κ × List α))
  | dropping (p : α) (list : List α) (it : List (WithBot κ × List α))
  | give
  | giving (head2 : Node α)
  | finish
  | sleep

/-- Where the dump thread stands: at the top of its loop, waiting for samples, with new ones, at the
sample `p` under its root, in `dump_and_destroy`, in front of `++_ndump`. -/
inductive DumpPc (α : Type*) where
  | loop
  | wait
  | got (newhead : Node α)
  | dumping (p : Node α)
  | calling (s : α) (savedNext : Node α)
  | counting (savedNext : Node α)

inductive Call (α : Type*) where
  | dumpAndDestroy (x : α) (round : ℕ)
  | destroy (x : α)

def Call.sample {α : Type*} : Call α → α
  | .dumpAndDestroy x _ => x
  | .destroy x => x

/-- `CollectorPreprocessor::process`, which may sort or shuffle the samples. -/
structure Process (α : Type*) where
  process : List α → List α
  perm : ∀ l, (process l).Perm l

/-- The collector. What is kept besides: the samples that were submitted, and the calls that ended
one. -/
structure State (ι κ α : Type*) where
  links : Links (Node α)
  element : ι → Option α
  agents : List ι
  globalResult : Option α
  pc : ι → Pc α
  lastActiveCpuwideUs : ℤ
  prepMap : List (WithBot κ × List α)
  grabThread : GrabPc ι κ α
  dumpThread : DumpPc α
  ngrab : ℕ
  ndrop : ℕ
  ndump : ℕ
  round : ℕ
  submitted : List α
  calls : List (Call α)

/-- A new collector at the time `now`. -/
def start (ι κ α : Type*) (now : ℤ) : State ι κ α where
  links := ⟨id, id⟩
  element _ := none
  agents := []
  globalResult := none
  pc _ := .idle
  lastActiveCpuwideUs := now
  prepMap := []
  grabThread := .top
  dumpThread := .loop
  ngrab := 0
  ndrop := 0
  ndump := 0
  round := 0
  submitted := []
  calls := []

/-- One label of a run. A sample is submitted once. A thread that exits commits its agent. The grab
thread goes on with what `process` and the clock do. -/
inductive Act (ι α : Type*) where
  | submit (t : ι) (x : α) (cpuwideUs : ℤ)
  | go (t : ι)
  | exit (t : ι)
  | grab (process : Process α) (now : ℤ)
  | dump

/-- `COLLECTOR_GRAB_INTERVAL_US`. -/
def grabIntervalUs : ℤ := 100000

variable {ι κ α : Type*} [DecidableEq ι] [LinearOrder κ] [DecidableEq α] {n : Node α}

/-- `CombineCollected`. -/
def combineCollected (k : Links (Node α)) : Option α → Option α → Links (Node α) × Option α
  | s1, none => (k, s1)
  | none, some s2 => (k, some s2)
  | some s1, some s2 => (insertBeforeAsList k (.sample s1) (.sample s2), some s1)

/-- `prep_map[prep].push_back(x)`; the map is in the order of its keys. -/
def pushBack (prep : WithBot κ) (x : α) : List (WithBot κ × List α) → List (WithBot κ × List α)
  | [] => [(prep, [x])]
  | (key, list) :: rest =>
    if prep = key then (key, list ++ [x]) :: rest
    else if prep < key then (prep, [x]) :: (key, list) :: rest
    else (key, list) :: pushBack prep x rest

/-! ## The machine -/

section

variable (s : State ι κ α)

def State.locked : Bool :=
  s.grabThread matches .walk ..

def State.goto (t : ι) (p : Pc α) : State ι κ α :=
  { s with pc := update s.pc t p }

/-- `submit`, up to the reducer. -/
def submitStep (t : ι) (x : α) (cpuwideUs : ℤ) : State ι κ α :=
  let s := { s with submitted := x :: s.submitted }
  if cpuwideUs < s.lastActiveCpuwideUs + grabIntervalUs * 2 then
    if t ∈ s.agents then s.goto t (.modify x)
    else { s with element := update s.element t none }.goto t (.append x)
  else { s with calls := .destroy x :: s.calls }

/-- A step of `operator<<` of the reducer. -/
def goStep (t : ι) : State ι κ α :=
  match s.pc t with
  | .idle => s
  | .append x => if s.locked then s else { s with agents := s.agents ++ [t] }.goto t (.modify x)
  | .modify x =>
    let r := combineCollected s.links (s.element t) (some x)
    { s with links := r.1, element := update s.element t r.2 }.goto t .idle

/-- `commit_and_erase`. -/
def exitStep (t : ι) : State ι κ α :=
  if s.locked then s
  else
    let r := combineCollected s.links s.globalResult (s.element t)
    { s with links := r.1, globalResult := r.2, agents := s.agents.erase t }

/-- A node of `reset_all_agents`, or the end of the list. -/
def walkStep (tmp : Option α) : List ι → State ι κ α
  | [] => { s with grabThread := .got tmp }
  | node :: nodes =>
    let r := combineCollected s.links tmp (s.element node)
    { s with links := r.1, element := update s.element node none, grabThread := .walk r.2 nodes }

/-- The samples that were reset are put in front of `tmp_root`. -/
def gotStep : Option α → State ι κ α
  | none => { s with grabThread := .finish }
  | some head =>
    let links := insertBeforeAsList (construct s.links .tmpRoot) (.sample head) .tmpRoot
    { s with links := links, grabThread := .group (links.next .tmpRoot) }

end

def groupStep (preprocessor : α → WithBot κ) (s : State ι κ α) (p : Node α) : State ι κ α :=
  match p with
  | .sample x =>
    { s with
      links := removeFromList s.links p
      prepMap := pushBack (preprocessor x) x s.prepMap
      grabThread := .group (s.links.next p) }
  | .tmpRoot => { s with links := construct s.links .root, grabThread := .iterate s.prepMap }
  | _ => s

/-- An entry of `prep_map`, which is processed when there is a preprocessor. -/
def iterateStep (process : Process α) (s : State ι κ α) : List (WithBot κ × List α) → State ι κ α
  | [] => { s with grabThread := .give }
  | (_, []) :: it => { s with grabThread := .iterate it }
  | (prep, list) :: it =>
    { s with grabThread := .each (if prep = ⊥ then list else process.process list) it }

def eachStep (s : State ι κ α) (list : List α) (it : List (WithBot κ × List α)) : State ι κ α :=
  match list with
  | [] => { s with grabThread := .iterate it }
  | p :: list => { s with ngrab := s.ngrab + 1, grabThread := .counted p list it }

def countedStep (maxPendingSamples : ℤ) (s : State ι κ α) (p : α) (list : List α)
    (it : List (WithBot κ × List α)) : State ι κ α :=
  if (s.ngrab : ℤ) ≥ s.ndrop + s.ndump + maxPendingSamples then
    { s with ndrop := s.ndrop + 1, grabThread := .dropping p list it }
  else { s with links := insertBefore s.links (.sample p) .root, grabThread := .each list it }

/-- The root is taken away from the samples. -/
def giveStep (s : State ι κ α) : State ι κ α :=
  if s.links.next .root = .root then { s with grabThread := .finish }
  else { s with links := removeFromList s.links .root, grabThread := .giving (s.links.next .root) }

def grabStep (preprocessor : α → WithBot κ) (maxPendingSamples : ℤ) (s : State ι κ α)
    (process : Process α)
    (now : ℤ) : State ι κ α :=
  match s.grabThread with
  | .top =>
    { s with
      prepMap := s.prepMap.map fun it => (it.1, [])
      globalResult := none
      grabThread := .walk s.globalResult s.agents }
  | .walk tmp nodes => walkStep s tmp nodes
  | .got head => gotStep s head
  | .group p => groupStep preprocessor s p
  | .iterate it => iterateStep process s it
  | .each list it => eachStep s list it
  | .counted p list it => countedStep maxPendingSamples s p list it
  | .dropping p list it => { s with calls := .destroy p :: s.calls, grabThread := .each list it }
  | .give => giveStep s
  | .giving head2 => { s with links := insertBeforeAsList s.links head2 .dumpRoot, grabThread := .finish }
  | .finish => { s with lastActiveCpuwideUs := now, grabThread := .sleep }
  | .sleep => { s with lastActiveCpuwideUs := now, grabThread := .top }

/-- What the grab thread has given is taken from `_dump_root`, if there is any. -/
def waitStep (s : State ι κ α) : State ι κ α :=
  if s.links.next .dumpRoot = .dumpRoot then s
  else { s with links := removeFromList s.links .dumpRoot, dumpThread := .got (s.links.next .dumpRoot) }

def dumpStep (s : State ι κ α) : State ι κ α :=
  match s.dumpThread with
  | .loop => { s with round := s.round + 1, dumpThread := .wait }
  | .wait => waitStep s
  | .got newhead =>
    let links := insertBeforeAsList s.links newhead .dumperRoot
    { s with links := links, dumpThread := .dumping (links.next .dumperRoot) }
  | .dumping p =>
    match p with
    | .sample x => { s with links := removeFromList s.links p, dumpThread := .calling x (s.links.next p) }
    | .dumperRoot => { s with dumpThread := .loop }
    | _ => s
  | .calling x savedNext =>
    { s with calls := .dumpAndDestroy x s.round :: s.calls, dumpThread := .counting savedNext }
  | .counting savedNext => { s with ndump := s.ndump + 1, dumpThread := .dumping savedNext }

def step (preprocessor : α → WithBot κ) (maxPendingSamples : ℤ) (s : State ι κ α) : Act ι α → State ι κ α
  | .submit t x cpuwideUs => if s.pc t = .idle ∧ x ∉ s.submitted then submitStep s t x cpuwideUs else s
  | .go t => goStep s t
  | .exit t => if s.pc t = .idle ∧ t ∈ s.agents then exitStep s t else s
  | .grab process now => grabStep preprocessor maxPendingSamples s process now
  | .dump => dumpStep s

/-! ## What holds -/

/-- The places where a sample can be: in the hand of a thread that submits it, in the list of an
element, of the global result, of what `reset` has collected, under `tmp_root`, in a vector, in the
vector that is gone through, in the hand of the grab thread, under its root, in a list without a
root, under `_dump_root`, in a list without a root again, under the root of the dump thread, in its
hand; or it had its call. -/
inductive Place (ι : Type*) where
  | hand (t : ι)
  | element (t : ι)
  | global
  | walked
  | tmpRoot
  | vectors
  | batch
  | grabHand
  | root
  | given
  | dumpRoot
  | newhead
  | dumperRoot
  | dumpHand
  | called

structure Contents (ι α : Type*) where
  hand : ι → List α
  element : ι → List α
  global : List α
  walked : List α
  tmpRoot : List α
  vectors : List α
  batch : List α
  grabHand : List α
  root : List α
  given : List α
  dumpRoot : List α
  newhead : List α
  dumperRoot : List α
  dumpHand : List α
  called : List α

def Contents.samples (c : Contents ι α) : Place ι → List α
  | .hand t => c.hand t
  | .element t => c.element t
  | .global => c.global
  | .walked => c.walked
  | .tmpRoot => c.tmpRoot
  | .vectors => c.vectors
  | .batch => c.batch
  | .grabHand => c.grabHand
  | .root => c.root
  | .given => c.given
  | .dumpRoot => c.dumpRoot
  | .newhead => c.newhead
  | .dumperRoot => c.dumperRoot
  | .dumpHand => c.dumpHand
  | .called => c.called

/-- The samples in a place are linked, not only held by pointers. -/
def Place.linked : Place ι → Bool
  | .vectors | .batch | .dumpHand | .called => false
  | _ => true

/-- The root of a place. -/
def Place.anchor : Place ι → List (Node α)
  | .tmpRoot => [.tmpRoot]
  | .root => [.root]
  | .dumpRoot => [.dumpRoot]
  | .dumperRoot => [.dumperRoot]
  | _ => []

def Contents.ring (c : Contents ι α) (p : Place ι) : List (Node α) :=
  if p.linked then p.anchor ++ (c.samples p).map .sample else []

def first (node : Node α) (l : List α) : Node α :=
  (l.map .sample).headD node

def Pc.sample : Pc α → List α
  | .idle => []
  | .append x | .modify x => [x]

namespace GrabPc

/-- What `reset` has collected. -/
def walked : GrabPc ι κ α → Option α
  | .walk tmp _ | .got tmp => tmp
  | _ => none

/-- The node under `tmp_root` that the grab thread has come to. -/
def cursor : GrabPc ι κ α → Node α
  | .group p => p
  | _ => .tmpRoot

def vectors (prepMap : List (WithBot κ × List α)) : GrabPc ι κ α → List (WithBot κ × List α)
  | .walk .. | .got _ | .group _ => prepMap
  | .iterate it | .each _ it | .counted _ _ it | .dropping _ _ it => it
  | _ => []

def batch : GrabPc ι κ α → List α
  | .each list _ | .counted _ list _ | .dropping _ list _ => list
  | _ => []

def hand : GrabPc ι κ α → List α
  | .counted p _ _ | .dropping p _ _ => [p]
  | _ => []

/-- There may be samples under the root. -/
def rooted : GrabPc ι κ α → Bool
  | .iterate _ | .each .. | .counted .. | .dropping .. | .give => true
  | _ => false

def given : GrabPc ι κ α → Option (Node α)
  | .giving head2 => some head2
  | _ => none

/-- A sample is counted, and it is not decided yet whether it is dropped. -/
def undecided : GrabPc ι κ α → ℕ
  | .counted .. => 1
  | _ => 0

end GrabPc

namespace DumpPc

def newhead : DumpPc α → Option (Node α)
  | .got newhead => some newhead
  | _ => none

/-- The node under its root that the dump thread has come to. -/
def cursor : DumpPc α → Node α
  | .dumping p | .calling _ p | .counting p => p
  | _ => .dumperRoot

def hand : DumpPc α → List α
  | .calling x _ => [x]
  | _ => []

/-- A sample had its call and is not counted yet. -/
def uncounted : DumpPc α → ℕ
  | .counting _ => 1
  | _ => 0

end DumpPc

structure GrabHolds (pc : GrabPc ι κ α) (prepMap : List (WithBot κ × List α)) (c : Contents ι α) :
    Prop where
  walked : pc.walked = c.walked.head?
  tmpRoot : pc.cursor = first .tmpRoot c.tmpRoot
  vectors : c.vectors = (pc.vectors prepMap).flatMap Prod.snd
  batch : c.batch = pc.batch
  hand : c.grabHand = pc.hand
  root : pc.rooted = false → c.root = []
  given : pc.given = (c.given.map .sample).head?

structure DumpHolds (pc : DumpPc α) (c : Contents ι α) : Prop where
  newhead : pc.newhead = (c.newhead.map .sample).head?
  dumperRoot : pc.cursor = first .dumperRoot c.dumperRoot
  hand : c.dumpHand = pc.hand

structure Holds (s : State ι κ α) (c : Contents ι α) : Prop where
  rings : Rings s.links c.ring
  hand : ∀ t, c.hand t = (s.pc t).sample
  element : ∀ t ∈ s.agents, s.element t = (c.element t).head?
  stranger : ∀ t, t ∉ s.agents → c.element t = []
  global : s.globalResult = c.global.head?
  grab : GrabHolds s.grabThread s.prepMap c
  dump : DumpHolds s.dumpThread c
  called : c.called = s.calls.map Call.sample

/-- The samples that the grab thread has kept and that are not dumped yet. -/
def Contents.kept (c : Contents ι α) : ℕ :=
  c.root.length + c.given.length + c.dumpRoot.length + c.newhead.length + c.dumperRoot.length
    + c.dumpHand.length

/-- `get_pending_count`. -/
def State.pendingCount (s : State ι κ α) : ℤ :=
  s.ngrab - s.ndump - s.ndrop

structure KeepsSamples (maxPendingSamples : ℤ) (s : State ι κ α) : Prop where
  /-- Every submitted sample is in one place, and the lists of the places are circular. -/
  placed : ∃ c : Contents ι α, Holds s c ∧ Exclusive c.samples ∧
    (∀ x, x ∈ s.submitted ↔ ∃ p, x ∈ c.samples p) ∧
    s.pendingCount = c.kept + s.grabThread.undecided + s.dumpThread.uncounted
  /-- No sample has two calls. -/
  calls : (s.calls.map Call.sample).Nodup
  below : 0 < maxPendingSamples → s.pendingCount - s.grabThread.undecided < maxPendingSamples
  none : maxPendingSamples ≤ 0 → s.pendingCount = s.grabThread.undecided

/-! ## The places -/

section

omit [DecidableEq ι] [DecidableEq α]

theorem sample_notMem_anchor (p : Place ι) (x : α) : .sample x ∉ p.anchor := by
  cases p <;> simp [Place.anchor]

theorem anchor_nodup (p : Place ι) : (p.anchor : List (Node α)).Nodup := by
  cases p <;> simp [Place.anchor]

theorem anchor_inj {p q : Place ι} (hp : n ∈ p.anchor) (hq : n ∈ q.anchor) : p = q := by
  cases p <;> simp only [Place.anchor, not_mem_nil, mem_singleton] at hp <;>
    cases q <;> simp_all [Place.anchor]

end

namespace Contents

variable {c c' : Contents ι α} {p q : Place ι} {a : Node α}

section

omit [DecidableEq ι] [DecidableEq α]

theorem mem_ring {n : Node α} : n ∈ c.ring p ↔ p.linked = true ∧
    (n ∈ p.anchor ∨ ∃ x ∈ c.samples p, .sample x = n) := by
  unfold ring
  split
  next hlinked =>
    rw [mem_append, mem_map]
    exact (and_iff_right hlinked).symm
  next hlinked =>
    exact iff_of_false not_mem_nil fun h => hlinked h.1

theorem ring_congr (h : c'.samples p = c.samples p) : c'.ring p = c.ring p := by
  rw [ring, ring, h]

theorem ring_exclusive (h : Exclusive c.samples) : Exclusive c.ring where
  nodup p := by
    unfold ring
    split
    · refine nodup_append'.2 ⟨anchor_nodup p, (h.nodup p).map fun x y hxy => Node.sample.inj hxy, ?_⟩
      intro n hn hn'
      obtain ⟨x, -, rfl⟩ := mem_map.1 hn'
      exact sample_notMem_anchor p x hn
    · exact nodup_nil
  disjoint p q hpq n hp hq := by
    obtain ⟨-, hp⟩ := mem_ring.1 hp
    obtain ⟨-, hq⟩ := mem_ring.1 hq
    rcases hp with hp | ⟨x, hx, rfl⟩
    · rcases hq with hq | ⟨y, -, rfl⟩
      · exact hpq (anchor_inj hp hq)
      · exact sample_notMem_anchor p y hp
    · rcases hq with hq | ⟨y, hy, hyx⟩
      · exact sample_notMem_anchor q x hq
      · obtain rfl := Node.sample.inj hyx
        exact hpq (h.place_eq hx hy)

end

structure Moved (c c' : Contents ι α) (p q : Place ι) : Prop where
  ne : p ≠ q
  perm : (c'.samples p ++ c'.samples q).Perm (c.samples p ++ c.samples q)
  rest : ∀ r, r ≠ p → r ≠ q → c'.samples r = c.samples r

omit [DecidableEq ι] [DecidableEq α] in
theorem Moved.ring_rest (h : Moved c c' p q) (r : Place ι) (hp : r ≠ p) (hq : r ≠ q) :
    c'.ring r = c.ring r :=
  ring_congr (h.rest r hp hq)

section

omit [DecidableEq ι] [DecidableEq α]

theorem Moved.exclusive (h : Moved c c' p q) (hex : Exclusive c.samples) : Exclusive c'.samples :=
  hex.move h.ne h.perm.subperm h.rest

theorem ring_free (hlinked : p.linked = true) (hanchor : p.anchor = ([] : List (Node α))) :
    c.ring p = (c.samples p).map .sample := by
  rw [ring, if_pos hlinked, hanchor, nil_append]

theorem ring_root (hlinked : p.linked = true) (hanchor : p.anchor = [a]) :
    c.ring p = a :: (c.samples p).map .sample := by
  rw [ring, if_pos hlinked, hanchor, singleton_append]

end

variable {k : Links (Node α)} {xs : List α}

section

variable (h : Moved c c' p q) (hr : Rings k c.ring) (hex : Exclusive c.samples)
include h hr hex

section

variable (hp : p.linked = true ∧ p.anchor = ([] : List (Node α)))
include hp

section

omit [DecidableEq ι]

theorem Moved.transfer (hq : q.linked = true ∧ q.anchor = ([] : List (Node α)))
    (hnil : c.samples p = []) (hp' : c'.samples p = c.samples q) (hq' : c'.samples q = []) :
    Rings k c'.ring := by
  have hring : c'.ring p = c.ring q := by
    rw [ring_free hp.1 hp.2, ring_free hq.1 hq.2, hp']
  have hring' : c'.ring q = c.ring p := by
    rw [ring_free hp.1 hp.2, ring_free hq.1 hq.2, hq', hnil]
  apply hr.change (ring_exclusive hex) (i := p) (j := q) (fun _ _ => id) _ _ h.ring_rest
  · rintro n (hn | hn)
    · exact .inl (.inr (hring' ▸ hn))
    · exact .inl (.inl (hring ▸ hn))
  · exact hring ▸ hr.circular q
  · exact hring' ▸ hr.circular p

/-- **`CombineCollected`**: the samples of the second list come behind those of the first one. -/
theorem Moved.combine (hq : q.linked = true ∧ q.anchor = ([] : List (Node α)))
    (hp' : c'.samples p = c.samples p ++ c.samples q) (hq' : c'.samples q = []) {s1 s2 : Option α}
    (hs1 : s1 = (c.samples p).head?) (hs2 : s2 = (c.samples q).head?) :
    Rings (combineCollected k s1 s2).1 c'.ring ∧ (combineCollected k s1 s2).2 = (c'.samples p).head? := by
  cases hcq : c.samples q with
  | nil =>
    rw [hcq, append_nil] at hp'
    have hsame : c'.ring = c.ring := by
      ext1 r
      apply ring_congr
      by_cases hrp : r = p
      · rw [hrp, hp']
      by_cases hrq : r = q
      · rw [hrq, hq', hcq]
      exact h.rest r hrp hrq
    have hs2 : s2 = none := by rw [hs2, hcq, head?_nil]
    rw [hs2, hsame, hp']
    cases s1 <;> exact ⟨hr, hs1⟩
  | cons y m =>
    have hs2 : s2 = some y := by rw [hs2, hcq, head?_cons]
    cases hcp : c.samples p with
    | nil =>
      have hs1 : s1 = none := by rw [hs1, hcp, head?_nil]
      rw [hcp, nil_append] at hp'
      rw [hs1, hs2, hp', hcq]
      exact ⟨h.transfer hr hex hp hq hcp hp' hq', rfl⟩
    | cons x l =>
      have hs1 : s1 = some x := by rw [hs1, hcp, head?_cons]
      rw [hs1, hs2, hp', hcp]
      refine ⟨?_, rfl⟩
      have hcp' : c.ring p = .sample x :: l.map .sample := by rw [ring_free hp.1 hp.2, hcp, map_cons]
      have hcq' : c.ring q = .sample y :: m.map .sample := by rw [ring_free hq.1 hq.2, hcq, map_cons]
      apply insertBeforeAsList_rings hr (ring_exclusive hex) h.ne hcp' hcq' (.inr ⟨?_, ?_⟩) h.ring_rest
      · rw [ring_free hq.1 hq.2, hq', map_nil]
      · rw [ring_free hp.1 hp.2, hp', hcp, hcq, map_append, map_cons, map_cons]

/-- The samples of a list without a root come behind those of a list with one. -/
theorem Moved.splice (hq : q.linked = true ∧ q.anchor = [a]) {x : α}
    {l : List α} (hcp : c.samples p = x :: l) (hp' : c'.samples p = [])
    (hq' : c'.samples q = c.samples q ++ c.samples p) :
    Rings (insertBeforeAsList k (.sample x) a) c'.ring := by
  have hcp' : c.ring p = .sample x :: l.map .sample := by rw [ring_free hp.1 hp.2, hcp, map_cons]
  apply insertBeforeAsList_rings hr (ring_exclusive hex) h.ne hcp' (ring_root hq.1 hq.2)
    (.inl ⟨?_, ?_⟩) h.ring_rest
  · rw [ring_free hp.1 hp.2, hp', map_nil]
  · rw [ring_root hq.1 hq.2, hq', hcp, map_append, map_cons, cons_append]

end

end

section

omit [DecidableEq ι]

theorem Moved.pop
    (hp : p.linked = false) (hq : q.linked = true ∧ q.anchor = [a]) {x : α} {l : List α}
    (hcq : c.samples q = x :: l) (hq' : c'.samples q = l) :
    Rings (removeFromList k (.sample x)) c'.ring := by
  have hcq' : c.ring q = a :: .sample x :: l.map .sample := by rw [ring_root hq.1 hq.2, hcq, map_cons]
  apply removeFromList_rings hr (ring_exclusive hex) hcq'
  · rw [ring_root hq.1 hq.2, hq']
  · intro r hrq
    by_cases hrp : r = p
    · rw [hrp, ring, ring, hp]
      rfl
    · exact h.ring_rest r hrp hrq

theorem Moved.detach
    (hp : p.linked = true ∧ p.anchor = ([] : List (Node α))) (hq : q.linked = true ∧ q.anchor = [a])
    (hcp : c.samples p = []) (hp' : c'.samples p = c.samples q) (hq' : c'.samples q = []) :
    Rings (removeFromList k a) c'.ring := by
  apply removeFromList_rings_root hr (ring_exclusive hex) (ring_root hq.1 hq.2) (j := p)
  · rw [ring_free hp.1 hp.2, hcp, map_nil]
  · rw [ring_root hq.1 hq.2, hq', map_nil]
  · rw [ring_free hp.1 hp.2, hp']
  · exact fun r hrq hrp => h.ring_rest r hrp hrq

theorem Moved.hold (hp : p.linked = false)
    (hq : q.linked = true ∧ q.anchor = ([] : List (Node α))) {x : α} (hx : x ∈ c.samples p)
    (hcq : c.samples q = [])
    (hq' : c'.samples q = [x]) : Rings k c'.ring := by
  have hself : Linked k (.sample x) (.sample x) := by
    apply hr.single
    intro r hn
    obtain ⟨hlinked, hn | ⟨y, hy, hyx⟩⟩ := mem_ring.1 hn
    · exact sample_notMem_anchor r x hn
    · obtain rfl := Node.sample.inj hyx
      rw [hex.place_eq hy hx, hp] at hlinked
      exact Bool.false_ne_true hlinked
  have hring : c.ring q = [] := by rw [ring_free hq.1 hq.2, hcq, map_nil]
  have hring' : c'.ring q = [.sample x] := by rw [ring_free hq.1 hq.2, hq', map_singleton]
  apply hr.change (ring_exclusive hex) (i := q) (j := q) (fun _ _ => id)
  · exact hring' ▸ circular_singleton.2 hself
  · exact hring' ▸ circular_singleton.2 hself
  · intro r hrq _
    by_cases hrp : r = p
    · rw [hrp, ring, ring, hp]
      rfl
    · exact h.ring_rest r hrp hrq
  · rw [hring]
    rintro n (hn | hn) <;> exact absurd hn not_mem_nil

end

end

omit [DecidableEq ι] [DecidableEq α] in
theorem hand_linked (hr : Rings k c.ring) (hq : q.linked = true ∧ q.anchor = ([] : List (Node α))) {x : α}
    (hcq : c.samples q = [x]) : Linked k (.sample x) (.sample x) := by
  have hcirc := hr.circular q
  rw [ring_free hq.1 hq.2, hcq, map_singleton] at hcirc
  exact circular_singleton.1 hcirc

omit [DecidableEq ι] in
theorem Moved.release (h : Moved c c' p q) (hr : Rings k c.ring) (hex : Exclusive c.samples)
    (hp : p.linked = false)
    (hq : q.linked = true ∧ q.anchor = ([] : List (Node α))) {x : α} (hcq : c.samples q = [x])
    (hq' : c'.samples q = []) : Rings k c'.ring := by
  have hself := hand_linked hr hq hcq
  have hring : c.ring q = [.sample x] := by rw [ring_free hq.1 hq.2, hcq, map_singleton]
  have hring' : c'.ring q = [] := by rw [ring_free hq.1 hq.2, hq', map_nil]
  apply hr.change (ring_exclusive hex) (i := q) (j := q) (fun _ _ => id)
  · exact hring' ▸ Circular.nil
  · exact hring' ▸ Circular.nil
  · intro r hrq _
    by_cases hrp : r = p
    · rw [hrp, ring, ring, hp]
      rfl
    · exact h.ring_rest r hrp hrq
  · rw [hring]
    intro n hn
    right
    obtain rfl : n = .sample x := hn.elim mem_singleton.1 mem_singleton.1
    exact hself

omit [DecidableEq ι] [DecidableEq α] in
theorem Moved.loose (h : Moved c c' p q) (hr : Rings k c.ring) (hp : p.linked = false)
    (hq : q.linked = false) :
    Rings k c'.ring := by
  have hsame : c'.ring = c.ring := by
    ext1 r
    by_cases hrp : r = p
    · rw [hrp, ring, ring, hp]
      rfl
    by_cases hrq : r = q
    · rw [hrq, ring, ring, hq]
      rfl
    exact h.ring_rest r hrp hrq
  exact hsame ▸ hr

structure Put (c c' : Contents ι α) (p : Place ι) (x : α) : Prop where
  fresh : ∀ r, x ∉ c.samples r
  perm : (c'.samples p).Perm (x :: c.samples p)
  rest : ∀ r, r ≠ p → c'.samples r = c.samples r

section

omit [DecidableEq ι]

omit [DecidableEq α] in
theorem Put.exclusive {x : α} (h : Put c c' p x) (hex : Exclusive c.samples) : Exclusive c'.samples :=
  hex.insert h.fresh h.perm h.rest

omit [DecidableEq α] in
theorem Put.covers {x : α} (h : Put c c' p x) (hc : ∀ y, y ∈ xs ↔ ∃ r, y ∈ c.samples r) (y : α) :
    y ∈ x :: xs ↔ ∃ r, y ∈ c'.samples r := by
  rw [mem_cons]
  constructor
  · rintro (rfl | hy)
    · exact ⟨p, h.perm.mem_iff.2 mem_cons_self⟩
    · obtain ⟨r, hr⟩ := (hc y).1 hy
      by_cases hrp : r = p
      · exact ⟨p, h.perm.mem_iff.2 (mem_cons_of_mem _ (hrp ▸ hr))⟩
      · exact ⟨r, (h.rest r hrp).symm ▸ hr⟩
  · rintro ⟨r, hr⟩
    by_cases hrp : r = p
    · rw [hrp, h.perm.mem_iff, mem_cons] at hr
      exact hr.imp_right fun hr => (hc y).2 ⟨p, hr⟩
    · exact .inr ((hc y).2 ⟨r, h.rest r hrp ▸ hr⟩)

theorem Put.rings {x : α} (h : Put c c' p x) (hr : Rings k c.ring) (hex : Exclusive c.samples)
    (hp : p.linked = true → p.anchor = ([] : List (Node α)) ∧ c.samples p = [] ∧ c'.samples p = [x]) :
    Rings k c'.ring := by
  have hself : Linked k (.sample x) (.sample x) := by
    apply hr.single
    intro r hn
    obtain ⟨-, hn | ⟨y, hy, hyx⟩⟩ := mem_ring.1 hn
    · exact sample_notMem_anchor r x hn
    · obtain rfl := Node.sample.inj hyx
      exact h.fresh r hy
  have hrest : ∀ r, r ≠ p → c'.ring r = c.ring r := fun r hrp => ring_congr (h.rest r hrp)
  cases hlinked : p.linked with
  | false =>
    have hsame : c'.ring = c.ring := by
      ext1 r
      by_cases hrp : r = p
      · rw [hrp, ring, ring, hlinked]
        rfl
      · exact hrest r hrp
    exact hsame ▸ hr
  | true =>
    obtain ⟨hanchor, hnil, hone⟩ := hp hlinked
    have hring : c.ring p = [] := by rw [ring_free hlinked hanchor, hnil, map_nil]
    have hring' : c'.ring p = [.sample x] := by rw [ring_free hlinked hanchor, hone, map_singleton]
    apply hr.change (ring_exclusive hex) (i := p) (j := p) (fun _ _ => id)
    · exact hring' ▸ circular_singleton.2 hself
    · exact hring' ▸ circular_singleton.2 hself
    · exact fun r hrp _ => hrest r hrp
    · rw [hring]
      rintro n (hn | hn) <;> exact absurd hn not_mem_nil

omit [DecidableEq α] in
theorem Moved.covers (h : Moved c c' p q) (hc : ∀ x, x ∈ xs ↔ ∃ r, x ∈ c.samples r) (x : α) :
    x ∈ xs ↔ ∃ r, x ∈ c'.samples r :=
  (hc x).trans (Exclusive.mem_move_iff h.perm h.rest).symm

end

end Contents

/-! ## The invariant -/

/-- `reset` is under way or has just returned. -/
def GrabPc.resetting : GrabPc ι κ α → Bool
  | .walk .. | .got _ => true
  | _ => false

structure Inv (maxPendingSamples : ℤ) (s : State ι κ α) (c : Contents ι α) : Prop extends Holds s c where
  exclusive : Exclusive c.samples
  covers : ∀ x, x ∈ s.submitted ↔ ∃ p, x ∈ c.samples p
  nodup : s.agents.Nodup
  walking : ∀ tmp nodes, s.grabThread = .walk tmp nodes → nodes ⊆ s.agents
  appending : ∀ t x, s.pc t = .append x → t ∉ s.agents ∧ s.element t = none
  modifying : ∀ t x, s.pc t = .modify x → t ∈ s.agents
  cleared : s.grabThread.resetting = true → c.vectors = []
  count : s.ngrab = s.ndrop + s.ndump + (c.kept + s.grabThread.undecided + s.dumpThread.uncounted)
  few : (c.kept + s.dumpThread.uncounted : ℤ) < maxPendingSamples ∨ c.kept + s.dumpThread.uncounted = 0

def Contents.nil : Contents ι α where
  hand _ := []
  element _ := []
  global := []
  walked := []
  tmpRoot := []
  vectors := []
  batch := []
  grabHand := []
  root := []
  given := []
  dumpRoot := []
  newhead := []
  dumperRoot := []
  dumpHand := []
  called := []

variable {maxPendingSamples : ℤ} {s : State ι κ α} {c : Contents ι α} {t : ι} {x : α} {l : List α}

open Contents

omit [DecidableEq ι] [DecidableEq α] in
theorem Contents.nil_samples (p : Place ι) : (nil : Contents ι α).samples p = [] := by
  cases p <;> rfl

omit [LinearOrder κ] in
omit [DecidableEq ι] [DecidableEq α] in
theorem start_inv (now : ℤ) : Inv maxPendingSamples (start ι κ α now) .nil where
  rings := by
    have hself : ∀ n : Node α, Linked (⟨id, id⟩ : Links (Node α)) n n := fun n => ⟨rfl, rfl⟩
    constructor
    · intro p
      cases p <;> first | exact Circular.nil | exact circular_singleton.2 (hself _)
    · exact fun n _ => hself n
  hand _ := rfl
  element _ _ := rfl
  stranger _ _ := rfl
  global := rfl
  grab := ⟨rfl, rfl, rfl, rfl, rfl, fun _ => rfl, rfl⟩
  dump := ⟨rfl, rfl, rfl⟩
  called := rfl
  exclusive := by
    constructor
    · intro p
      rw [nil_samples]
      exact nodup_nil
    · intro p q _
      rw [nil_samples]
      exact disjoint_nil_left _
  covers x := by
    constructor
    · exact fun h => absurd h not_mem_nil
    · rintro ⟨p, hp⟩
      rw [nil_samples] at hp
      exact absurd hp not_mem_nil
  nodup := nodup_nil
  walking := nofun
  appending := nofun
  modifying := nofun
  cleared := nofun
  count := rfl
  few := .inr rfl

open State

omit [DecidableEq ι] [LinearOrder κ] [DecidableEq α] in
theorem Inv.keeps (h : Inv maxPendingSamples s c) : KeepsSamples maxPendingSamples s := by
  have hcount := h.count
  have hfew := h.few
  refine ⟨⟨c, h.toHolds, h.exclusive, h.covers, ?_⟩, ?_, fun hpos => ?_, fun hneg => ?_⟩
  · unfold pendingCount
    lia
  · rw [← h.called]
    exact h.exclusive.nodup .called
  · unfold pendingCount
    lia
  · unfold pendingCount
    lia

/-! ## The threads that submit -/

omit [LinearOrder κ] [DecidableEq α] in
theorem hands {p : Pc α} (h : ∀ u, c.hand u = (s.pc u).sample) (hl : l = p.sample) (u : ι) :
    update c.hand t l u = (update s.pc t p u).sample := by
  obtain rfl | hut := eq_or_ne u t
  · rw [update_self, update_self, hl]
  · rw [update_of_ne hut, update_of_ne hut]
    exact h u

omit [DecidableEq α] in
theorem turned {f : ι → Pc α} {p q : Pc α} {u : ι} (h : update f t p u = q) :
    (u = t ∧ p = q) ∨ (u ≠ t ∧ f u = q) := by
  obtain rfl | hut := eq_or_ne u t
  · rw [update_self] at h
    exact .inl ⟨rfl, h⟩
  · exact .inr ⟨hut, (update_of_ne hut ..).symm.trans h⟩

section

variable (h : Inv maxPendingSamples s c)
include h

section

omit [LinearOrder κ]

theorem Inv.submit (hpc : s.pc t = .idle) (hx : x ∉ s.submitted) {p : Pc α}
    (hp : p.sample = [x]) {e : ι → Option α} (he : ∀ u, u ≠ t ∨ t ∈ s.agents → e u = s.element u)
    (happend : ∀ y, p = .append y → t ∉ s.agents ∧ e t = none)
    (hmodify : ∀ y, p = .modify y → t ∈ s.agents) :
    ∃ c', Inv maxPendingSamples ({ s with submitted := x :: s.submitted, element := e }.goto t p) c' := by
  have hfresh : ∀ r, x ∉ c.samples r := fun r hr => hx ((h.covers x).2 ⟨r, hr⟩)
  have hnil : c.hand t = [] := (h.hand t).trans (congrArg Pc.sample hpc)
  let c' : Contents ι α := { c with hand := update c.hand t [x] }
  have hself : c'.hand t = [x] := update_self ..
  have hput : c.Put c' (.hand t) x := by
    refine ⟨hfresh, ?_, fun r hr => ?_⟩
    · show (c'.hand t).Perm (x :: c.hand t)
      rw [hself, hnil]
    · cases r <;> first | rfl | skip
      rename_i u
      apply update_of_ne
      rintro rfl
      exact hr rfl
  refine ⟨c', { h with
    grab := { h.grab with }
    dump := { h.dump with }
    rings := hput.rings h.rings h.exclusive (fun _ => ⟨rfl, hnil, hself⟩)
    hand := hands h.hand hp.symm
    element := fun u hu => (he u ?_).trans (h.element u hu)
    exclusive := hput.exclusive h.exclusive
    covers := hput.covers h.covers
    appending := fun u y hu => ?_
    modifying := fun u y hu => ?_ }⟩
  · by_cases hut : u = t
    · exact .inr (hut ▸ hu)
    · exact .inl hut
  · rcases turned hu with ⟨rfl, hp⟩ | ⟨hut, hu⟩
    · exact happend y hp
    · obtain ⟨hout, hnone⟩ := h.appending u y hu
      exact ⟨hout, (he u (.inl hut)).trans hnone⟩
  · rcases turned hu with ⟨rfl, hp⟩ | ⟨-, hu⟩
    · exact hmodify y hp
    · exact h.modifying u y hu

theorem submitStep_inv (hpc : s.pc t = .idle) (hx : x ∉ s.submitted)
    (cpuwideUs : ℤ) : ∃ c', Inv maxPendingSamples (submitStep s t x cpuwideUs) c' := by
  have hfresh : ∀ r, x ∉ c.samples r := fun r hr => hx ((h.covers x).2 ⟨r, hr⟩)
  simp only [submitStep]
  split
  · split
    next hmem =>
      exact h.submit (p := .modify x) hpc hx rfl (fun _ _ => rfl) nofun (fun _ _ => hmem)
    next hout =>
      apply h.submit (p := .append x) hpc hx rfl _ (fun _ _ => ⟨hout, update_self ..⟩) nofun
      rintro u (hut | hmem)
      · exact update_of_ne hut ..
      · exact absurd hmem hout
  · let c' : Contents ι α := { c with called := x :: c.called }
    have hput : c.Put c' .called x := by
      refine ⟨hfresh, List.Perm.refl _, fun r hr => ?_⟩
      cases r <;> first | rfl | exact absurd rfl hr
    exact ⟨c', { h with
      grab := { h.grab with }
      dump := { h.dump with }
      rings := hput.rings h.rings h.exclusive nofun
      called := congrArg (x :: ·) h.called
      exclusive := hput.exclusive h.exclusive
      covers := hput.covers h.covers }⟩

omit [DecidableEq α] in
theorem appendStep_inv (hpc : s.pc t = .append x) :
    Inv maxPendingSamples ({ s with agents := s.agents ++ [t] }.goto t (.modify x)) c := by
  obtain ⟨hout, hnone⟩ := h.appending t x hpc
  have hhand : c.hand t = (Pc.append x).sample := (h.hand t).trans (congrArg Pc.sample hpc)
  have hhands := hands (t := t) (p := .modify x) h.hand hhand
  rw [update_eq_self] at hhands
  refine { h with
    hand := hhands
    element := fun u hu => ?_
    stranger := fun u hu => h.stranger u (fun hmem => hu (mem_append_left _ hmem))
    nodup := ?_
    walking := fun tmp nodes hw => subset_append_of_subset_left _ (h.walking tmp nodes hw)
    appending := fun u y hu => ?_
    modifying := fun u y hu => ?_ }
  · rcases mem_append.1 hu with hu | hu
    · exact h.element u hu
    · rw [mem_singleton.1 hu, h.stranger t hout]
      exact hnone
  · refine nodup_append'.2 ⟨h.nodup, nodup_singleton t, ?_⟩
    intro u hu hut
    exact hout (mem_singleton.1 hut ▸ hu)
  · obtain ⟨-, hp⟩ | ⟨hut, hu⟩ := turned hu
    · exact nomatch hp
    · obtain ⟨hout', hnone'⟩ := h.appending u y hu
      refine ⟨fun hmem => ?_, hnone'⟩
      rcases mem_append.1 hmem with hmem | hmem
      · exact hout' hmem
      · exact hut (mem_singleton.1 hmem)
  · obtain ⟨rfl, -⟩ | ⟨-, hu⟩ := turned hu
    · exact mem_append_right _ mem_cons_self
    · exact mem_append_left _ (h.modifying u y hu)

theorem modifyStep_inv (hpc : s.pc t = .modify x) :
    ∃ c', Inv maxPendingSamples ({ s with
        links := (combineCollected s.links (s.element t) (some x)).1
        element := update s.element t (combineCollected s.links (s.element t) (some x)).2 }.goto t .idle)
      c' := by
  have hmem := h.modifying t x hpc
  have hhand : c.hand t = [x] := (h.hand t).trans (congrArg Pc.sample hpc)
  let c' : Contents ι α :=
    { c with
      element := update c.element t (c.element t ++ [x])
      hand := update c.hand t [] }
  have hself : c'.element t = c.element t ++ [x] := update_self ..
  have hself' : c'.hand t = [] := update_self ..
  have hmoved : c.Moved c' (.element t) (.hand t) := by
    refine ⟨nofun, ?_, fun r hp hq => ?_⟩
    · show (c'.element t ++ c'.hand t).Perm (c.element t ++ c.hand t)
      rw [hself, hself', hhand, append_nil]
    · cases r <;> first | rfl | skip
      · apply update_of_ne
        rintro rfl
        exact hq rfl
      · apply update_of_ne
        rintro rfl
        exact hp rfl
  obtain ⟨hrings, hhead⟩ := hmoved.combine h.rings h.exclusive ⟨rfl, rfl⟩ ⟨rfl, rfl⟩
    (hself.trans (congrArg _ hhand.symm)) hself' (h.element t hmem) (congrArg head? hhand).symm
  refine ⟨c', { h with
    grab := { h.grab with }
    dump := { h.dump with }
    rings := hrings
    hand := hands h.hand rfl
    element := fun u hu => ?_
    stranger := fun u hu => ?_
    exclusive := hmoved.exclusive h.exclusive
    covers := hmoved.covers h.covers
    appending := fun u y hu => ?_
    modifying := fun u y hu => ?_ }⟩
  · obtain rfl | hut := eq_or_ne u t
    · exact (update_self ..).trans hhead
    · exact (update_of_ne hut ..).trans ((h.element u hu).trans
        (congrArg head? (update_of_ne hut ..).symm))
  · have hut : u ≠ t := by
      rintro rfl
      exact hu hmem
    exact (update_of_ne hut ..).trans (h.stranger u hu)
  · obtain ⟨-, hp⟩ | ⟨hut, hu⟩ := turned hu
    · exact nomatch hp
    · exact ⟨(h.appending u y hu).1, (update_of_ne hut ..).trans (h.appending u y hu).2⟩
  · obtain ⟨-, hp⟩ | ⟨-, hu⟩ := turned hu
    · exact nomatch hp
    · exact h.modifying u y hu

theorem goStep_inv (t : ι) : ∃ c', Inv maxPendingSamples (goStep s t) c' := by
  unfold goStep
  cases hpc : s.pc t with
  | idle => exact ⟨c, h⟩
  | append x =>
    simp only
    split
    · exact ⟨c, h⟩
    · exact ⟨c, appendStep_inv h hpc⟩
  | modify x => exact modifyStep_inv h hpc

end

end

omit [DecidableEq α] in
/-- A list of an element comes behind that of the global result or of what `reset` has collected. -/
theorem Contents.moved_element {c' : Contents ι α} {p : Place ι} (hp : p ≠ .element t)
    (hp' : c'.samples p = c.samples p ++ c.element t) (helem : c'.element = update c.element t [])
    (hrest : ∀ r, r ≠ p → (∀ u, r ≠ .element u) → c'.samples r = c.samples r) :
    c.Moved c' p (.element t) := by
  have hself : c'.element t = [] := by rw [helem, update_self]
  refine ⟨hp, ?_, fun r hrp hrt => ?_⟩
  · show (c'.samples p ++ c'.element t).Perm (c.samples p ++ c.element t)
    rw [hp', hself, append_nil]
  · by_cases hr : ∃ u, r = .element u
    · obtain ⟨u, rfl⟩ := hr
      show c'.element u = c.element u
      rw [helem]
      apply update_of_ne
      rintro rfl
      exact hrt rfl
    · exact hrest r hrp fun u hu => hr ⟨u, hu⟩

omit [LinearOrder κ] in
theorem exitStep_inv (h : Inv maxPendingSamples s c) (hpc : s.pc t = .idle) (hmem : t ∈ s.agents) :
    ∃ c', Inv maxPendingSamples (exitStep s t) c' := by
  simp only [exitStep]
  split
  · exact ⟨c, h⟩
  rename_i hlocked
  let c' : Contents ι α :=
    { c with global := c.global ++ c.element t, element := update c.element t [] }
  have hmoved : c.Moved c' .global (.element t) := by
    refine moved_element (p := .global) nofun rfl rfl fun r hp he => ?_
    cases r <;> first | rfl | exact absurd rfl hp | exact absurd rfl (he _)
  obtain ⟨hrings, hhead⟩ := hmoved.combine h.rings h.exclusive ⟨rfl, rfl⟩ ⟨rfl, rfl⟩ rfl
    (update_self ..) h.global (h.element t hmem)
  have hne : ∀ u ∈ s.agents.erase t, u ≠ t := by
    rintro u hu rfl
    exact h.nodup.not_mem_erase hu
  refine ⟨c', { h with
    grab := { h.grab with }
    dump := { h.dump with }
    rings := hrings
    element := fun u hu => ?_
    stranger := fun u hu => ?_
    global := hhead
    exclusive := hmoved.exclusive h.exclusive
    covers := hmoved.covers h.covers
    nodup := h.nodup.erase t
    walking := fun tmp nodes hw => ?_
    appending := fun u y hu => ?_
    modifying := fun u y hu => ?_ }⟩
  · rw [h.element u (mem_of_mem_erase hu)]
    exact congrArg head? (update_of_ne (hne u hu) ..).symm
  · obtain rfl | hut := eq_or_ne u t
    · exact update_self ..
    · apply (update_of_ne hut ..).trans
      apply h.stranger u
      exact fun hm => hu ((mem_erase_of_ne hut).2 hm)
  · have hw : s.grabThread = .walk tmp nodes := hw
    exact absurd (by rw [locked, hw]) hlocked
  · obtain ⟨hout, hnone⟩ := h.appending u y hu
    exact ⟨fun hm => hout (mem_of_mem_erase hm), hnone⟩
  · have hut : u ≠ t := by
      rintro rfl
      exact nomatch hpc.symm.trans hu
    exact (mem_erase_of_ne hut).2 (h.modifying u y hu)

/-! ## The grab thread -/

variable {process : Process α} {now : ℤ} {preprocessor : α → WithBot κ} {a : Node α}
  {it : List (WithBot κ × List α)} {list : List α} {savedNext : Node α}

section

omit [DecidableEq α]

theorem map_head?_none (h : none = (l.map Node.sample).head?) : l = [] :=
  map_eq_nil_iff.1 (head?_eq_none_iff.1 h.symm)

theorem first_root (h : n = first n l) (hn : ∀ x, n ≠ .sample x) : l = [] := by
  cases l with
  | nil => rfl
  | cons x l => exact absurd h (hn x)

omit [LinearOrder κ] in
theorem cleared_vectors (prepMap : List (WithBot κ × List α)) :
    (prepMap.map fun it => (it.1, ([] : List α))).flatMap Prod.snd = [] := by
  induction prepMap with
  | nil => rfl
  | cons it prepMap ih => rw [map_cons, flatMap_cons, ih, append_nil]

end

section

variable (h : Inv maxPendingSamples s c)
include h

omit [DecidableEq ι] [LinearOrder κ] [DecidableEq α] in
theorem Inv.turn {p : GrabPc ι κ α} (hgrab : GrabHolds p s.prepMap c)
    (hreset : p.resetting = false) (hundecided : p.undecided = s.grabThread.undecided) :
    Inv maxPendingSamples { s with grabThread := p } c where
  toHolds := { h.toHolds with grab := hgrab }
  exclusive := h.exclusive
  covers := h.covers
  nodup := h.nodup
  walking tmp nodes hw := by
    have hpc : p = .walk tmp nodes := hw
    rw [hpc] at hreset
    exact nomatch hreset
  appending := h.appending
  modifying := h.modifying
  cleared hr := absurd (hreset.symm.trans hr) Bool.false_ne_true
  count := by
    show s.ngrab = s.ndrop + s.ndump + (c.kept + p.undecided + s.dumpThread.uncounted)
    rw [hundecided]
    exact h.count
  few := h.few

omit [LinearOrder κ] in
omit [DecidableEq ι] in
theorem topStep_inv (hpc : s.grabThread = .top) :
    ∃ c', Inv maxPendingSamples
      { s with
        prepMap := s.prepMap.map fun it => (it.1, [])
        globalResult := none
        grabThread := .walk s.globalResult s.agents } c' := by
  have hgrab : GrabHolds .top s.prepMap c := hpc ▸ h.grab
  have hwalked : c.walked = [] := head?_eq_none_iff.1 hgrab.walked.symm
  let c' : Contents ι α := { c with walked := c.global, global := [] }
  have hmoved : c.Moved c' .walked .global := by
    refine ⟨nofun, ?_, fun r hp hq => ?_⟩
    · show (c.global ++ []).Perm (c.walked ++ c.global)
      rw [hwalked, append_nil, nil_append]
    · cases r <;> first | rfl | contradiction
  refine ⟨c', { h with
    dump := { h.dump with }
    rings := hmoved.transfer h.rings h.exclusive ⟨rfl, rfl⟩ ⟨rfl, rfl⟩ hwalked rfl rfl
    global := rfl
    grab := { hgrab with
      walked := h.global
      vectors := hgrab.vectors.trans (cleared_vectors s.prepMap).symm
      root := fun _ => hgrab.root rfl }
    exclusive := hmoved.exclusive h.exclusive
    covers := hmoved.covers h.covers
    walking := fun tmp nodes hw => ?_
    cleared := fun _ => hgrab.vectors
    count := h.count.trans (by rw [hpc]; rfl) }⟩
  obtain ⟨-, rfl⟩ := GrabPc.walk.inj hw
  exact List.Subset.refl _

omit [LinearOrder κ] in
theorem walkStep_inv {tmp : Option α} {nodes : List ι}
    (hpc : s.grabThread = .walk tmp nodes) : ∃ c', Inv maxPendingSamples (walkStep s tmp nodes) c' := by
  have hgrab : GrabHolds (.walk tmp nodes) s.prepMap c := hpc ▸ h.grab
  have hcleared : c.vectors = [] := h.cleared (by rw [hpc]; rfl)
  cases nodes with
  | nil =>
    exact ⟨c, { h with
      grab := { hgrab with }
      walking := nofun
      cleared := fun _ => hcleared
      count := h.count.trans (by rw [hpc]; rfl) }⟩
  | cons node nodes =>
    have hsub := h.walking _ _ hpc
    have hmem : node ∈ s.agents := hsub mem_cons_self
    let c' : Contents ι α :=
      { c with walked := c.walked ++ c.element node, element := update c.element node [] }
    have hmoved : c.Moved c' .walked (.element node) := by
      refine moved_element (p := .walked) nofun rfl rfl fun r hp he => ?_
      cases r <;> first | rfl | exact absurd rfl hp | exact absurd rfl (he _)
    obtain ⟨hrings, hhead⟩ := hmoved.combine h.rings h.exclusive ⟨rfl, rfl⟩ ⟨rfl, rfl⟩ rfl
      (update_self ..) hgrab.walked (h.element node hmem)
    refine ⟨c', { h with
      grab := { hgrab with walked := hhead }
      dump := { h.dump with }
      rings := hrings
      element := fun u hu => ?_
      stranger := fun u hu => ?_
      exclusive := hmoved.exclusive h.exclusive
      covers := hmoved.covers h.covers
      walking := fun tmp' nodes' hw => ?_
      appending := fun u y hu => ?_
      cleared := fun _ => hcleared
      count := h.count.trans (by rw [hpc]; rfl) }⟩
    · obtain rfl | hun := eq_or_ne u node
      · have hnil : c'.element u = [] := update_self ..
        rw [hnil]
        exact update_self ..
      · exact (update_of_ne hun ..).trans ((h.element u hu).trans
          (congrArg head? (update_of_ne hun ..).symm))
    · have hun : u ≠ node := by
        rintro rfl
        exact hu hmem
      exact (update_of_ne hun ..).trans (h.stranger u hu)
    · obtain ⟨-, rfl⟩ := GrabPc.walk.inj hw
      exact fun u hu => hsub (mem_cons_of_mem _ hu)
    · obtain ⟨hout, hnone⟩ := h.appending u y hu
      have hun : u ≠ node := by
        rintro rfl
        exact hout hmem
      exact ⟨hout, (update_of_ne hun ..).trans hnone⟩

end

section

omit [DecidableEq ι] [DecidableEq α]

theorem next_first {k : Links (Node α)} {p : Place ι} (hr : Rings k c.ring)
    (hp : p.linked = true ∧ p.anchor = [a]) : k.next a = first a (c.samples p) := by
  have hcirc := hr.circular p
  rw [ring_root hp.1 hp.2] at hcirc
  exact hcirc.next_eq

theorem root_linked {k : Links (Node α)} {p : Place ι} (hr : Rings k c.ring)
    (hp : p.linked = true ∧ p.anchor = [a]) (hnil : c.samples p = []) : Linked k a a := by
  have hcirc := hr.circular p
  rw [ring_root hp.1 hp.2, hnil, map_nil] at hcirc
  exact circular_singleton.1 hcirc

theorem next_sample {k : Links (Node α)} {p : Place ι} (hr : Rings k c.ring)
    (hp : p.linked = true ∧ p.anchor = [a]) (hl : c.samples p = x :: l) :
    k.next (.sample x) = first a l := by
  have hcirc := hr.circular p
  have hring : c.ring p = [a] ++ .sample x :: l.map .sample := by
    rw [ring_root hp.1 hp.2, hl, map_cons, singleton_append]
  rw [hring] at hcirc
  rw [hcirc.rotate.next_eq]
  cases l <;> rfl

end

omit [LinearOrder κ] in
omit [DecidableEq ι] in
theorem gotStep_inv (h : Inv maxPendingSamples s c) {head : Option α} (hpc : s.grabThread = .got head) :
    ∃ c', Inv maxPendingSamples (gotStep s head) c' := by
  have hgrab : GrabHolds (.got head) s.prepMap c := hpc ▸ h.grab
  have hcleared : c.vectors = [] := h.cleared (by rw [hpc]; rfl)
  cases head with
  | none =>
    exact ⟨c, h.turn { hgrab with vectors := hcleared, root := fun _ => hgrab.root rfl } rfl
      (by rw [hpc]; rfl)⟩
  | some x =>
    have hnil : c.tmpRoot = [] := first_root hgrab.tmpRoot nofun
    obtain ⟨l, hl⟩ : ∃ l, c.walked = x :: l := head?_eq_some_iff.1 hgrab.walked.symm
    let c' : Contents ι α := { c with walked := [], tmpRoot := c.tmpRoot ++ c.walked }
    have hmoved : c.Moved c' .walked .tmpRoot := by
      refine ⟨nofun, ?_, fun r hp hq => ?_⟩
      · show ([] ++ (c.tmpRoot ++ c.walked)).Perm (c.walked ++ c.tmpRoot)
        rw [nil_append]
        exact perm_append_comm
      · cases r <;> first | rfl | contradiction
    have hconstruct : construct s.links .tmpRoot = s.links :=
      construct_eq (root_linked (p := .tmpRoot) h.rings ⟨rfl, rfl⟩ hnil)
    have hrings := hmoved.splice h.rings h.exclusive ⟨rfl, rfl⟩ ⟨rfl, rfl⟩ hl rfl rfl
    simp only [gotStep, hconstruct]
    exact ⟨c', { h with
      grab := { hgrab with
        walked := rfl
        tmpRoot := next_first (p := .tmpRoot) hrings ⟨rfl, rfl⟩
        root := fun _ => hgrab.root rfl }
      dump := { h.dump with }
      rings := hrings
      exclusive := hmoved.exclusive h.exclusive
      covers := hmoved.covers h.covers
      walking := nofun
      cleared := nofun
      count := h.count.trans (by rw [hpc]; rfl) }⟩

omit [DecidableEq α] in
theorem pushBack_perm (prep : WithBot κ) (x : α) (prepMap : List (WithBot κ × List α)) :
    ((pushBack prep x prepMap).flatMap Prod.snd).Perm (x :: prepMap.flatMap Prod.snd) := by
  induction prepMap with
  | nil => exact List.Perm.refl _
  | cons it prepMap ih =>
    obtain ⟨key, list⟩ := it
    unfold pushBack
    split
    · rw [flatMap_cons, flatMap_cons, append_assoc]
      exact perm_middle
    split
    · exact List.Perm.refl _
    · rw [flatMap_cons, flatMap_cons]
      exact (ih.append_left list).trans perm_middle

omit [DecidableEq ι] in
theorem groupStep_inv (preprocessor : α → WithBot κ) (h : Inv maxPendingSamples s c) {p : Node α}
    (hpc : s.grabThread = .group p) :
    ∃ c', Inv maxPendingSamples (groupStep preprocessor s p) c' := by
  have hgrab : GrabHolds (.group p) s.prepMap c := hpc ▸ h.grab
  have hroot : c.root = [] := hgrab.root rfl
  have htmp : p = first .tmpRoot c.tmpRoot := hgrab.tmpRoot
  cases hl : c.tmpRoot with
  | nil =>
    rw [hl] at htmp
    subst htmp
    have hconstruct : construct s.links .root = s.links :=
      construct_eq (root_linked (p := .root) h.rings ⟨rfl, rfl⟩ hroot)
    simp only [first, map_nil, headD_nil, groupStep, hconstruct]
    exact ⟨c, h.turn { hgrab with root := nofun } rfl (by rw [hpc]; rfl)⟩
  | cons x l =>
    rw [hl] at htmp
    subst htmp
    let c' : Contents ι α :=
      { c with tmpRoot := l, vectors := (pushBack (preprocessor x) x s.prepMap).flatMap Prod.snd }
    have hmoved : c.Moved c' .vectors .tmpRoot := by
      refine ⟨nofun, ?_, fun r hp hq => ?_⟩
      · show ((pushBack (preprocessor x) x s.prepMap).flatMap Prod.snd ++ l).Perm (c.vectors ++ c.tmpRoot)
        rw [hgrab.vectors, hl]
        exact ((pushBack_perm _ _ _).append_right _).trans perm_middle.symm
      · cases r <;> first | rfl | contradiction
    have hrings := hmoved.pop h.rings h.exclusive rfl ⟨rfl, rfl⟩ hl rfl
    have hnext : s.links.next (.sample x) = first .tmpRoot l :=
      next_sample (p := .tmpRoot) h.rings ⟨rfl, rfl⟩ hl
    exact ⟨c', { h with
      grab := { hgrab with tmpRoot := hnext, vectors := rfl }
      dump := { h.dump with }
      rings := hrings
      exclusive := hmoved.exclusive h.exclusive
      covers := hmoved.covers h.covers
      walking := nofun
      cleared := nofun
      count := h.count.trans (by rw [hpc]; rfl) }⟩

section

variable (h : Inv maxPendingSamples s c)
include h

omit [DecidableEq ι] [DecidableEq α] in
theorem iterateStep_inv
    (hpc : s.grabThread = .iterate it) (process : Process α) :
    ∃ c', Inv maxPendingSamples (iterateStep process s it) c' := by
  have hgrab : GrabHolds (.iterate it) s.prepMap c := hpc ▸ h.grab
  match it, hpc, hgrab with
  | [], hpc, hgrab =>
    exact ⟨c, h.turn { hgrab with root := nofun } rfl (by rw [hpc]; rfl)⟩
  | (_, []) :: it, hpc, hgrab =>
    exact ⟨c, h.turn { hgrab with root := nofun } rfl (by rw [hpc]; rfl)⟩
  | (prep, x :: list) :: it, hpc, hgrab =>
    simp only [iterateStep]
    set batch := if prep = ⊥ then x :: list else process.process (x :: list) with hbatch
    have hperm : batch.Perm (x :: list) := by
      rw [hbatch]
      split
      · exact List.Perm.refl _
      · exact process.perm _
    have hnil : c.batch = [] := hgrab.batch
    let c' : Contents ι α := { c with vectors := it.flatMap Prod.snd, batch := batch }
    have hmoved : c.Moved c' .vectors .batch := by
      refine ⟨nofun, ?_, fun r hp hq => ?_⟩
      · show (it.flatMap Prod.snd ++ batch).Perm (c.vectors ++ c.batch)
        rw [hgrab.vectors, hnil, append_nil]
        exact perm_append_comm.trans (hperm.append_right _)
      · cases r <;> first | rfl | contradiction
    exact ⟨c', { h with
      grab := { hgrab with vectors := rfl, batch := rfl, root := nofun }
      dump := { h.dump with }
      rings := hmoved.loose h.rings rfl rfl
      exclusive := hmoved.exclusive h.exclusive
      covers := hmoved.covers h.covers
      walking := nofun
      cleared := nofun
      count := h.count.trans (by rw [hpc]; rfl) }⟩

omit [LinearOrder κ] in
omit [DecidableEq ι] in
theorem eachStep_inv
    (hpc : s.grabThread = .each list it) : ∃ c', Inv maxPendingSamples (eachStep s list it) c' := by
  have hgrab : GrabHolds (.each list it) s.prepMap c := hpc ▸ h.grab
  cases list with
  | nil =>
    exact ⟨c, h.turn { hgrab with root := nofun } rfl (by rw [hpc]; rfl)⟩
  | cons x list =>
    have hbatch : c.batch = x :: list := hgrab.batch
    have hnil : c.grabHand = [] := hgrab.hand
    have hmem : x ∈ c.samples .batch := by
      show x ∈ c.batch
      rw [hbatch]
      exact mem_cons_self
    let c' : Contents ι α := { c with batch := list, grabHand := [x] }
    have hmoved : c.Moved c' .batch .grabHand := by
      refine ⟨nofun, ?_, fun r hp hq => ?_⟩
      · show (list ++ [x]).Perm (c.batch ++ c.grabHand)
        rw [hbatch, hnil, append_nil]
        exact perm_append_comm
      · cases r <;> first | rfl | contradiction
    refine ⟨c', { h with
      grab := { hgrab with batch := rfl, hand := rfl, root := nofun }
      dump := { h.dump with }
      rings := hmoved.hold h.rings h.exclusive rfl ⟨rfl, rfl⟩ hmem hnil rfl
      exclusive := hmoved.exclusive h.exclusive
      covers := hmoved.covers h.covers
      walking := nofun
      cleared := nofun
      count := ?_ }⟩
    have hcount := h.count
    rw [hpc] at hcount
    show s.ngrab + 1 = s.ndrop + s.ndump + (c.kept + 1 + s.dumpThread.uncounted)
    rw [hcount]
    simp only [GrabPc.undecided]
    lia

omit [LinearOrder κ] in
omit [DecidableEq ι] in
theorem countedStep_inv
    (hpc : s.grabThread = .counted x list it) :
    ∃ c', Inv maxPendingSamples (countedStep maxPendingSamples s x list it) c' := by
  have hgrab : GrabHolds (.counted x list it) s.prepMap c := hpc ▸ h.grab
  have hcount : s.ngrab = s.ndrop + s.ndump + (c.kept + 1 + s.dumpThread.uncounted) :=
    h.count.trans (by rw [hpc]; rfl)
  unfold countedStep
  split
  · refine ⟨c, { h with
      grab := { hgrab with root := nofun }
      walking := nofun
      cleared := nofun
      count := ?_ }⟩
    show s.ngrab = s.ndrop + 1 + s.ndump + (c.kept + 0 + s.dumpThread.uncounted)
    lia
  next hlt =>
    have hhand : c.grabHand = [x] := hgrab.hand
    let c' : Contents ι α := { c with grabHand := [], root := c.root ++ c.grabHand }
    have hmoved : c.Moved c' .grabHand .root := by
      refine ⟨nofun, ?_, fun r hp hq => ?_⟩
      · show ([] ++ (c.root ++ c.grabHand)).Perm (c.grabHand ++ c.root)
        rw [nil_append]
        exact perm_append_comm
      · cases r <;> first | rfl | contradiction
    have hself := hand_linked (q := .grabHand) h.rings ⟨rfl, rfl⟩ hhand
    rw [insertBefore_eq hself]
    have hkept : c'.kept = c.kept + 1 := by
      simp only [c', kept, hhand, length_append, length_singleton]
      lia
    refine ⟨c', { h with
      grab := { hgrab with hand := rfl, root := nofun }
      dump := { h.dump with }
      rings := hmoved.splice h.rings h.exclusive ⟨rfl, rfl⟩ ⟨rfl, rfl⟩ hhand rfl rfl
      exclusive := hmoved.exclusive h.exclusive
      covers := hmoved.covers h.covers
      walking := nofun
      cleared := nofun
      count := ?_
      few := ?_ }⟩
    · show s.ngrab = s.ndrop + s.ndump + (c'.kept + 0 + s.dumpThread.uncounted)
      lia
    · left
      show (c'.kept + s.dumpThread.uncounted : ℤ) < maxPendingSamples
      lia

omit [LinearOrder κ] in
omit [DecidableEq ι] in
theorem droppingStep_inv
    (hpc : s.grabThread = .dropping x list it) :
    ∃ c',
    Inv maxPendingSamples { s with calls := .destroy x :: s.calls, grabThread := .each list it }
    c' := by
  have hgrab : GrabHolds (.dropping x list it) s.prepMap c := hpc ▸ h.grab
  have hhand : c.grabHand = [x] := hgrab.hand
  let c' : Contents ι α := { c with called := x :: c.called, grabHand := [] }
  have hmoved : c.Moved c' .called .grabHand := by
    refine ⟨nofun, ?_, fun r hp hq => ?_⟩
    · show (x :: c.called ++ []).Perm (c.called ++ c.grabHand)
      rw [hhand, append_nil]
      exact (perm_append_singleton x c.called).symm
    · cases r <;> first | rfl | contradiction
  exact ⟨c', { h with
    grab := { hgrab with hand := rfl, root := nofun }
    dump := { h.dump with }
    called := congrArg (x :: ·) h.called
    rings := hmoved.release h.rings h.exclusive rfl ⟨rfl, rfl⟩ hhand rfl
    exclusive := hmoved.exclusive h.exclusive
    covers := hmoved.covers h.covers
    walking := nofun
    cleared := nofun
    count := h.count.trans (by rw [hpc]; rfl) }⟩

omit [LinearOrder κ] in
omit [DecidableEq ι] in
theorem giveStep_inv (hpc : s.grabThread = .give) :
    ∃ c', Inv maxPendingSamples (giveStep s) c' := by
  have hgrab : GrabHolds .give s.prepMap c := hpc ▸ h.grab
  have hnext : s.links.next .root = first .root c.root := next_first (p := .root) h.rings ⟨rfl, rfl⟩
  unfold giveStep
  rw [hnext]
  split
  next hroot =>
    have hnil : c.root = [] := first_root hroot.symm nofun
    exact ⟨c, h.turn { hgrab with root := fun _ => hnil } rfl (by rw [hpc]; rfl)⟩
  next hroot =>
    obtain ⟨x, l, hl⟩ : ∃ x l, c.root = x :: l := by
      cases hl : c.root with
      | nil => exact absurd (by rw [hl]; rfl) hroot
      | cons x l => exact ⟨x, l, rfl⟩
    have hnil : c.given = [] := map_head?_none hgrab.given
    let c' : Contents ι α := { c with given := c.root, root := [] }
    have hmoved : c.Moved c' .given .root := by
      refine ⟨nofun, ?_, fun r hp hq => ?_⟩
      · show (c.root ++ []).Perm (c.given ++ c.root)
        rw [hnil, append_nil, nil_append]
      · cases r <;> first | rfl | contradiction
    have hkept : c'.kept = c.kept := by
      simp only [c', kept, hnil, length_nil]
      lia
    refine ⟨c', { h with
      grab := { hgrab with given := ?_, root := fun _ => rfl }
      dump := { h.dump with }
      rings := hmoved.detach h.rings h.exclusive ⟨rfl, rfl⟩ ⟨rfl, rfl⟩ hnil rfl rfl
      exclusive := hmoved.exclusive h.exclusive
      covers := hmoved.covers h.covers
      walking := nofun
      cleared := nofun
      count := ?_
      few := hkept ▸ h.few }⟩
    · show some (first .root c.root) = (c.root.map Node.sample).head?
      rw [hl]
      rfl
    · rw [hkept]
      exact h.count.trans (by rw [hpc]; rfl)

omit [LinearOrder κ] in
omit [DecidableEq ι] in
theorem givingStep_inv {head2 : Node α} (hpc : s.grabThread = .giving head2) :
    ∃ c', Inv maxPendingSamples
      { s with links := insertBeforeAsList s.links head2 .dumpRoot, grabThread := .finish } c' := by
  have hgrab : GrabHolds (.giving head2) s.prepMap c := hpc ▸ h.grab
  obtain ⟨x, l, hl, rfl⟩ : ∃ x l, c.given = x :: l ∧ head2 = .sample x := by
    have hgiven := hgrab.given
    cases hl : c.given with
    | nil => rw [hl] at hgiven; exact nomatch hgiven
    | cons x l => rw [hl] at hgiven; exact ⟨x, l, rfl, Option.some.inj hgiven⟩
  let c' : Contents ι α := { c with given := [], dumpRoot := c.dumpRoot ++ c.given }
  have hmoved : c.Moved c' .given .dumpRoot := by
    refine ⟨nofun, ?_, fun r hp hq => ?_⟩
    · show ([] ++ (c.dumpRoot ++ c.given)).Perm (c.given ++ c.dumpRoot)
      rw [nil_append]
      exact perm_append_comm
    · cases r <;> first | rfl | contradiction
  have hkept : c'.kept = c.kept := by
    simp only [c', kept, length_append, length_nil]
    lia
  refine ⟨c', { h with
    grab := { hgrab with given := rfl, root := fun _ => hgrab.root rfl }
    dump := { h.dump with }
    rings := hmoved.splice h.rings h.exclusive ⟨rfl, rfl⟩ ⟨rfl, rfl⟩ hl rfl rfl
    exclusive := hmoved.exclusive h.exclusive
    covers := hmoved.covers h.covers
    walking := nofun
    cleared := nofun
    count := ?_
    few := hkept ▸ h.few }⟩
  rw [hkept]
  exact h.count.trans (by rw [hpc]; rfl)

end

theorem grabStep_inv (preprocessor : α → WithBot κ) (h : Inv maxPendingSamples s c)
    (process : Process α) (now : ℤ) :
    ∃ c', Inv maxPendingSamples (grabStep preprocessor maxPendingSamples s process now) c' := by
  unfold grabStep
  cases hpc : s.grabThread with
  | top => exact topStep_inv h hpc
  | walk tmp nodes => exact walkStep_inv h hpc
  | got head => exact gotStep_inv h hpc
  | group p => exact groupStep_inv preprocessor h hpc
  | iterate it => exact iterateStep_inv h hpc process
  | each list it => exact eachStep_inv h hpc
  | counted p list it => exact countedStep_inv h hpc
  | dropping p list it => exact droppingStep_inv h hpc
  | give => exact giveStep_inv h hpc
  | giving head2 => exact givingStep_inv h hpc
  | finish =>
    have hgrab : GrabHolds .finish s.prepMap c := hpc ▸ h.grab
    have hturn := h.turn (p := .sleep) { hgrab with root := fun _ => hgrab.root rfl } rfl
      (by rw [hpc]; rfl)
    exact ⟨c, { hturn with }⟩
  | sleep =>
    have hgrab : GrabHolds .sleep s.prepMap c := hpc ▸ h.grab
    have hturn := h.turn (p := .top) { hgrab with root := fun _ => hgrab.root rfl } rfl (by rw [hpc]; rfl)
    exact ⟨c, { hturn with }⟩

/-! ## The dump thread -/

section

variable (h : Inv maxPendingSamples s c)
include h

section

omit [LinearOrder κ]

section

omit [DecidableEq ι]

theorem waitStep_inv (hpc : s.dumpThread = .wait) :
    ∃ c', Inv maxPendingSamples (waitStep s) c' := by
  have hdump : DumpHolds .wait c := hpc ▸ h.dump
  have hnext : s.links.next .dumpRoot = first .dumpRoot c.dumpRoot :=
    next_first (p := .dumpRoot) h.rings ⟨rfl, rfl⟩
  unfold waitStep
  rw [hnext]
  split
  · exact ⟨c, h⟩
  next hroot =>
    obtain ⟨x, l, hl⟩ : ∃ x l, c.dumpRoot = x :: l := by
      cases hl : c.dumpRoot with
      | nil => exact absurd (by rw [hl]; rfl) hroot
      | cons x l => exact ⟨x, l, rfl⟩
    have hnil : c.newhead = [] := map_head?_none hdump.newhead
    let c' : Contents ι α := { c with newhead := c.dumpRoot, dumpRoot := [] }
    have hmoved : c.Moved c' .newhead .dumpRoot := by
      refine ⟨nofun, ?_, fun r hp hq => ?_⟩
      · show (c.dumpRoot ++ []).Perm (c.newhead ++ c.dumpRoot)
        rw [hnil, append_nil, nil_append]
      · cases r <;> first | rfl | contradiction
    have hkept : c'.kept = c.kept := by
      simp only [c', kept, hnil, length_nil]
      lia
    have hcount := h.count
    have hfew := h.few
    rw [hpc] at hcount hfew
    refine ⟨c', { h with
      grab := { h.grab with }
      dump := { hdump with newhead := ?_ }
      rings := hmoved.detach h.rings h.exclusive ⟨rfl, rfl⟩ ⟨rfl, rfl⟩ hnil rfl rfl
      exclusive := hmoved.exclusive h.exclusive
      covers := hmoved.covers h.covers
      count := hkept ▸ hcount
      few := hkept ▸ hfew }⟩
    show some (first .dumpRoot c.dumpRoot) = (c.dumpRoot.map Node.sample).head?
    rw [hl]
    rfl

theorem newheadStep_inv {newhead : Node α} (hpc : s.dumpThread = .got newhead) :
    ∃ c', Inv maxPendingSamples
      { s with
        links := insertBeforeAsList s.links newhead .dumperRoot
        dumpThread := .dumping ((insertBeforeAsList s.links newhead .dumperRoot).next .dumperRoot) } c' ∧
        c'.dumperRoot ≠ [] := by
  have hdump : DumpHolds (.got newhead) c := hpc ▸ h.dump
  obtain ⟨x, l, hl, rfl⟩ : ∃ x l, c.newhead = x :: l ∧ newhead = .sample x := by
    have hnew := hdump.newhead
    cases hl : c.newhead with
    | nil => rw [hl] at hnew; exact nomatch hnew
    | cons x l => rw [hl] at hnew; exact ⟨x, l, rfl, Option.some.inj hnew⟩
  let c' : Contents ι α := { c with newhead := [], dumperRoot := c.dumperRoot ++ c.newhead }
  have hmoved : c.Moved c' .newhead .dumperRoot := by
    refine ⟨nofun, ?_, fun r hp hq => ?_⟩
    · show ([] ++ (c.dumperRoot ++ c.newhead)).Perm (c.newhead ++ c.dumperRoot)
      rw [nil_append]
      exact perm_append_comm
    · cases r <;> first | rfl | contradiction
  have hkept : c'.kept = c.kept := by
    simp only [c', kept, length_append, length_nil]
    lia
  have hrings := hmoved.splice h.rings h.exclusive ⟨rfl, rfl⟩ ⟨rfl, rfl⟩ hl rfl rfl
  have hcount := h.count
  have hfew := h.few
  rw [hpc] at hcount hfew
  refine ⟨c', { h with
    grab := { h.grab with }
    dump := { hdump with newhead := rfl, dumperRoot := next_first (p := .dumperRoot) hrings ⟨rfl, rfl⟩ }
    rings := hrings
    exclusive := hmoved.exclusive h.exclusive
    covers := hmoved.covers h.covers
    count := hkept ▸ hcount
    few := hkept ▸ hfew }, fun hnil => ?_⟩
  rw [append_eq_nil_iff, hl] at hnil
  exact cons_ne_nil x l hnil.2

theorem dumpingStep_inv {p : Node α} (hpc : s.dumpThread = .dumping p) :
    ∃ c', Inv maxPendingSamples (dumpStep s) c' := by
  have hdump : DumpHolds (.dumping p) c := hpc ▸ h.dump
  have hroot : p = first .dumperRoot c.dumperRoot := hdump.dumperRoot
  have hcount := h.count
  have hfew := h.few
  rw [hpc] at hcount hfew
  cases hl : c.dumperRoot with
  | nil =>
    rw [hl] at hroot
    subst hroot
    simp only [first, map_nil, headD_nil] at hpc
    simp only [dumpStep, hpc]
    exact ⟨c, { h with
      dump := { hdump with }
      count := hcount
      few := hfew }⟩
  | cons x l =>
    rw [hl] at hroot
    subst hroot
    simp only [first, map_cons, headD_cons] at hpc
    simp only [dumpStep, hpc]
    have hnil : c.dumpHand = [] := hdump.hand
    let c' : Contents ι α := { c with dumperRoot := l, dumpHand := [x] }
    have hmoved : c.Moved c' .dumpHand .dumperRoot := by
      refine ⟨nofun, ?_, fun r hp hq => ?_⟩
      · show ([x] ++ l).Perm (c.dumpHand ++ c.dumperRoot)
        rw [hnil, hl]
        exact List.Perm.refl _
      · cases r <;> first | rfl | contradiction
    have hkept : c'.kept = c.kept := by
      simp only [c', kept, hnil, hl, length_cons, length_nil]
      lia
    have hnext : s.links.next (.sample x) = first .dumperRoot l :=
      next_sample (p := .dumperRoot) h.rings ⟨rfl, rfl⟩ hl
    exact ⟨c', { h with
      grab := { h.grab with }
      dump := { hdump with dumperRoot := hnext, hand := rfl }
      rings := hmoved.pop h.rings h.exclusive rfl ⟨rfl, rfl⟩ hl rfl
      exclusive := hmoved.exclusive h.exclusive
      covers := hmoved.covers h.covers
      count := hkept ▸ hcount
      few := hkept ▸ hfew }⟩

end

omit [DecidableEq ι] [DecidableEq α] in
theorem callingStep_inv
    (hpc : s.dumpThread = .calling x savedNext) :
    ∃ c', Inv maxPendingSamples
      { s with calls := .dumpAndDestroy x s.round :: s.calls, dumpThread := .counting savedNext } c' := by
  have hdump : DumpHolds (.calling x savedNext) c := hpc ▸ h.dump
  have hhand : c.dumpHand = [x] := hdump.hand
  have hcount := h.count
  have hfew := h.few
  rw [hpc] at hcount hfew
  let c' : Contents ι α := { c with called := x :: c.called, dumpHand := [] }
  have hmoved : c.Moved c' .called .dumpHand := by
    refine ⟨nofun, ?_, fun r hp hq => ?_⟩
    · show (x :: c.called ++ []).Perm (c.called ++ c.dumpHand)
      rw [hhand, append_nil]
      exact (perm_append_singleton x c.called).symm
    · cases r <;> first | rfl | contradiction
  have hkept : c'.kept + 1 = c.kept := by
    simp only [c', kept, hhand, length_singleton, length_nil]
  refine ⟨c', { h with
    grab := { h.grab with }
    dump := { hdump with hand := rfl }
    called := congrArg (x :: ·) h.called
    rings := hmoved.loose h.rings rfl rfl
    exclusive := hmoved.exclusive h.exclusive
    covers := hmoved.covers h.covers
    count := ?_
    few := ?_ }⟩
  · rw [hcount]
    simp only [DumpPc.uncounted]
    lia
  · simp only [DumpPc.uncounted] at hfew ⊢
    lia

end

omit [DecidableEq ι] [LinearOrder κ] [DecidableEq α] in
theorem countingStep_inv
    (hpc : s.dumpThread = .counting savedNext) :
    Inv maxPendingSamples { s with ndump := s.ndump + 1, dumpThread := .dumping savedNext } c := by
  have hdump : DumpHolds (.counting savedNext) c := hpc ▸ h.dump
  have hcount := h.count
  have hfew := h.few
  rw [hpc] at hcount hfew
  simp only [DumpPc.uncounted] at hcount hfew
  refine { h with
    dump := { hdump with }
    count := ?_
    few := ?_ }
  · rw [hcount]
    simp only [DumpPc.uncounted]
    lia
  · simp only [DumpPc.uncounted]
    lia

omit [LinearOrder κ] in
omit [DecidableEq ι] in
theorem dumpStep_inv : ∃ c', Inv maxPendingSamples (dumpStep s) c' := by
  cases hpc : s.dumpThread with
  | loop =>
    have hdump : DumpHolds .loop c := hpc ▸ h.dump
    have hcount := h.count
    have hfew := h.few
    rw [hpc] at hcount hfew
    simp only [dumpStep, hpc]
    exact ⟨c, { h with
      dump := { hdump with }
      count := hcount
      few := hfew }⟩
  | wait =>
    simp only [dumpStep, hpc]
    exact waitStep_inv h hpc
  | got newhead =>
    simp only [dumpStep, hpc]
    obtain ⟨c', h', -⟩ := newheadStep_inv h hpc
    exact ⟨c', h'⟩
  | dumping p => exact dumpingStep_inv h hpc
  | calling x savedNext =>
    simp only [dumpStep, hpc]
    exact callingStep_inv h hpc
  | counting savedNext =>
    simp only [dumpStep, hpc]
    exact ⟨c, countingStep_inv h hpc⟩

end

/-! ## Every sample has its call -/

def work (it : List (WithBot κ × List α)) : ℕ :=
  (it.map fun entry => 2 + 3 * entry.2.length).sum

/-- A bound for the steps that are left in a round of the grab thread, when `n` samples were
submitted. -/
def GrabPc.rest (n : ℕ) (prepMap : List (WithBot κ × List α)) : GrabPc ι κ α → ℕ
  | .top => 0
  | .sleep => 1
  | .finish => 2
  | .giving _ => 3
  | .give => 4
  | .iterate it => 5 + work it
  | .each list it => 6 + work it + 3 * list.length
  | .dropping _ list it => 7 + work it + 3 * list.length
  | .counted _ list it => 8 + work it + 3 * list.length
  | .group _ => 6 + work prepMap + 6 * (n - (prepMap.flatMap Prod.snd).length)
  | .got _ => 7 + work prepMap + 6 * n
  | .walk _ nodes => 8 + work prepMap + 6 * n + nodes.length

def State.grabRest (s : State ι κ α) : ℕ :=
  s.grabThread.rest s.submitted.length s.prepMap

/-- The steps to the next call, or to waiting. -/
def DumpPc.rest : DumpPc α → ℕ
  | .calling .. => 1
  | .dumping (.sample _) => 2
  | .got _ => 3
  | .wait => 4
  | .loop => 5
  | .dumping _ => 6
  | .counting _ => 7

def State.dumpRest (s : State ι κ α) : ℕ :=
  8 * (s.submitted.length - s.calls.length) + s.dumpThread.rest

/-- The nodes that `reset` has still to come to. -/
def GrabPc.nodes : GrabPc ι κ α → List ι
  | .walk _ nodes => nodes
  | _ => []

/-- What was in the elements and in the global result has been collected. -/
def Swept (s : State ι κ α) : Prop :=
  s.globalResult = none ∧ ∀ u ∈ s.agents, u ∉ s.grabThread.nodes → s.element u = none

omit [DecidableEq α] in
theorem work_pushBack (prep : WithBot κ) (x : α) (prepMap : List (WithBot κ × List α)) :
    work (pushBack prep x prepMap) ≤ work prepMap + 5 := by
  induction prepMap with
  | nil => exact le_rfl
  | cons it prepMap ih =>
    obtain ⟨key, list⟩ := it
    unfold pushBack
    split
    · simp only [work, map_cons, sum_cons, length_append, length_singleton]
      lia
    split
    · simp only [work, map_cons, sum_cons, length_singleton]
      lia
    · simp only [work, map_cons, sum_cons] at ih ⊢
      lia

omit [DecidableEq ι] [LinearOrder κ] [DecidableEq α] in
theorem Inv.length_le (h : Inv maxPendingSamples s c) (p : Place ι) : (c.samples p).length
      ≤ s.submitted.length := by
  apply List.Subperm.length_le
  apply subperm_of_subset (h.exclusive.nodup p)
  exact fun x hx => (h.covers x).2 ⟨p, hx⟩

omit [DecidableEq ι] in
theorem groupStep_rest (h : Inv maxPendingSamples s c) {p : Node α} (hpc : s.grabThread = .group p) :
    (groupStep preprocessor s p).grabRest < s.grabRest := by
  have hgrab : GrabHolds (.group p) s.prepMap c := hpc ▸ h.grab
  have hp : p = first .tmpRoot c.tmpRoot := hgrab.tmpRoot
  have hrest : s.grabRest = 6 + work s.prepMap + 6
      * (s.submitted.length - (s.prepMap.flatMap Prod.snd).length) := by
    rw [grabRest, hpc]
    rfl
  cases hl : c.tmpRoot with
  | nil =>
    rw [hl] at hp
    subst hp
    rw [hrest]
    show 5 + work s.prepMap < _
    lia
  | cons x l =>
    rw [hl] at hp
    subst hp
    obtain ⟨c', h'⟩ := groupStep_inv preprocessor h hpc
    have hle := h'.length_le .vectors
    have hvectors := h'.grab.vectors
    change c'.vectors = (pushBack (preprocessor x) x s.prepMap).flatMap Prod.snd at hvectors
    change c'.vectors.length ≤ s.submitted.length at hle
    have hlen := (pushBack_perm (preprocessor x) x s.prepMap).length_eq
    have hwork := work_pushBack (preprocessor x) x s.prepMap
    rw [length_cons] at hlen
    rw [hvectors, hlen] at hle
    rw [hrest]
    show 6 + work (pushBack (preprocessor x) x s.prepMap)
      + 6 * (s.submitted.length - ((pushBack (preprocessor x) x s.prepMap).flatMap Prod.snd).length) < _
    lia

omit [DecidableEq ι] [DecidableEq α] in
theorem iterateStep_rest (hpc : s.grabThread = .iterate it) :
    (iterateStep process s it).grabRest < s.grabRest := by
  have hrest : s.grabRest = 5 + work it := by
    rw [grabRest, hpc]
    rfl
  rw [hrest]
  match it with
  | [] => exact Nat.lt_add_right _ (Nat.lt_succ_self 4)
  | (_, []) :: it =>
    show 5 + work it < 5 + work ((_, []) :: it)
    simp only [work, map_cons, sum_cons]
    lia
  | (prep, x :: list) :: it =>
    simp only [iterateStep]
    have hlen : (if prep = ⊥ then x :: list else process.process (x :: list)).length
        = (x :: list).length := by
      split
      · rfl
      · exact (process.perm _).length_eq
    show 6 + work it + 3 * (if prep = ⊥ then x :: list else process.process (x :: list)).length
      < 5 + work ((prep, x :: list) :: it)
    rw [hlen]
    simp only [work, map_cons, sum_cons]
    lia

theorem grabStep_rest (h : Inv maxPendingSamples s c) (htop : s.grabThread ≠ .top)
    (process : Process α) (now : ℤ) :
    (grabStep preprocessor maxPendingSamples s process now).grabRest < s.grabRest := by
  unfold grabStep
  cases hpc : s.grabThread with
  | top => exact absurd hpc htop
  | group p => exact groupStep_rest h hpc
  | iterate it => exact iterateStep_rest hpc
  | walk tmp nodes =>
    cases nodes <;> simp only [walkStep, grabRest, hpc, GrabPc.rest, length_cons, length_nil] <;> lia
  | got head =>
    cases head <;> simp only [gotStep, grabRest, hpc, GrabPc.rest] <;> lia
  | each list it =>
    cases list <;> simp only [eachStep, grabRest, hpc, GrabPc.rest, length_cons, length_nil] <;> lia
  | counted p list it =>
    simp only [countedStep]
    split <;> simp only [grabRest, hpc, GrabPc.rest] <;> lia
  | dropping p list it =>
    simp only [grabRest, hpc, GrabPc.rest]
    lia
  | give =>
    simp only [giveStep]
    split <;> simp only [grabRest, hpc, GrabPc.rest] <;> lia
  | giving head2 =>
    simp only [grabRest, hpc, GrabPc.rest]
    lia
  | finish =>
    simp only [grabRest, hpc, GrabPc.rest]
    lia
  | sleep =>
    simp only [grabRest, hpc, GrabPc.rest]
    lia

theorem grabStep_frame (preprocessor : α → WithBot κ) (maxPendingSamples : ℤ) (s : State ι κ α)
    (process : Process α) (now : ℤ) :
    (grabStep preprocessor maxPendingSamples s process now).pc = s.pc ∧
      (grabStep preprocessor maxPendingSamples s process now).agents = s.agents ∧
      (grabStep preprocessor maxPendingSamples s process now).submitted = s.submitted := by
  unfold grabStep
  cases hpc : s.grabThread with
  | walk tmp nodes => cases nodes <;> exact ⟨rfl, rfl, rfl⟩
  | got head => cases head <;> exact ⟨rfl, rfl, rfl⟩
  | group p => cases p <;> exact ⟨rfl, rfl, rfl⟩
  | iterate it =>
    match it with
    | [] => exact ⟨rfl, rfl, rfl⟩
    | (_, []) :: _ => exact ⟨rfl, rfl, rfl⟩
    | (_, _ :: _) :: _ => exact ⟨rfl, rfl, rfl⟩
  | each list it => cases list <;> exact ⟨rfl, rfl, rfl⟩
  | counted p list it =>
    simp only [countedStep]
    split <;> exact ⟨rfl, rfl, rfl⟩
  | give =>
    simp only [giveStep]
    split <;> exact ⟨rfl, rfl, rfl⟩
  | _ => exact ⟨rfl, rfl, rfl⟩

theorem grabStep_swept (h : Swept s) (htop : s.grabThread ≠ .top) (process : Process α) (now : ℤ) :
    Swept (grabStep preprocessor maxPendingSamples s process now) := by
  obtain ⟨hglobal, helem⟩ := h
  unfold grabStep
  cases hpc : s.grabThread with
  | top => exact absurd hpc htop
  | walk tmp nodes =>
    rw [hpc] at helem
    cases nodes with
    | nil => exact ⟨hglobal, helem⟩
    | cons node nodes =>
      refine ⟨hglobal, fun u hu hout => ?_⟩
      show update s.element node none u = none
      obtain rfl | hun := eq_or_ne u node
      · exact update_self ..
      · rw [update_of_ne hun]
        apply helem u hu
        intro hmem
        exact (mem_cons.1 hmem).elim hun hout
  | got head =>
    rw [hpc] at helem
    cases head <;> exact ⟨hglobal, helem⟩
  | group p =>
    cases p <;> first | exact ⟨hglobal, helem⟩ | (rw [hpc] at helem; exact ⟨hglobal, helem⟩)
  | iterate it =>
    rw [hpc] at helem
    match it, helem with
    | [], helem => exact ⟨hglobal, helem⟩
    | (_, []) :: _, helem => exact ⟨hglobal, helem⟩
    | (_, _ :: _) :: _, helem => exact ⟨hglobal, helem⟩
  | each list it =>
    rw [hpc] at helem
    cases list <;> exact ⟨hglobal, helem⟩
  | counted p list it =>
    rw [hpc] at helem
    simp only [countedStep]
    split <;> exact ⟨hglobal, helem⟩
  | give =>
    rw [hpc] at helem
    simp only [giveStep]
    split <;> exact ⟨hglobal, helem⟩
  | _ =>
    rw [hpc] at helem
    exact ⟨hglobal, helem⟩

omit [LinearOrder κ] in
omit [DecidableEq ι] in
theorem dumpStep_rest (h : Inv maxPendingSamples s c)
    (hwait : ¬(s.dumpThread = .wait ∧ s.links.next .dumpRoot = .dumpRoot)) :
    (dumpStep s).dumpRest < s.dumpRest := by
  cases hpc : s.dumpThread with
  | loop =>
    simp only [dumpStep, hpc, dumpRest, DumpPc.rest]
    lia
  | wait =>
    have hne : s.links.next .dumpRoot ≠ .dumpRoot := fun hroot => hwait ⟨hpc, hroot⟩
    simp only [dumpStep, hpc, waitStep, if_neg hne, dumpRest, DumpPc.rest]
    lia
  | got newhead =>
    obtain ⟨c', h', hne⟩ := newheadStep_inv h hpc
    obtain ⟨x, l, hl⟩ := exists_cons_of_ne_nil hne
    have hnext : (insertBeforeAsList s.links newhead .dumperRoot).next .dumperRoot = .sample x := by
      have hcursor := h'.dump.dumperRoot
      rw [hl] at hcursor
      exact hcursor
    simp only [dumpStep, hpc, hnext, dumpRest, DumpPc.rest]
    lia
  | dumping p =>
    have hdump : DumpHolds (.dumping p) c := hpc ▸ h.dump
    have hp : p = first .dumperRoot c.dumperRoot := hdump.dumperRoot
    cases hl : c.dumperRoot with
    | nil =>
      rw [hl] at hp
      obtain rfl : p = .dumperRoot := hp
      simp only [dumpStep, hpc, dumpRest, DumpPc.rest]
      lia
    | cons x l =>
      rw [hl] at hp
      obtain rfl : p = .sample x := hp
      simp only [dumpStep, hpc, dumpRest, DumpPc.rest]
      lia
  | calling x savedNext =>
    obtain ⟨c', h'⟩ := callingStep_inv h hpc
    have hle := h'.length_le .called
    have hcalled := congrArg length h'.called
    change c'.called.length ≤ s.submitted.length at hle
    simp only [map_cons, length_cons, length_map] at hcalled
    simp only [dumpStep, hpc, dumpRest, DumpPc.rest, length_cons]
    lia
  | counting savedNext =>
    simp only [dumpStep, hpc, dumpRest, DumpPc.rest]
    cases savedNext <;> simp only <;> lia

omit [DecidableEq ι] [LinearOrder κ] in
theorem dumpStep_frame (s : State ι κ α) :
    (dumpStep s).pc = s.pc ∧ (dumpStep s).submitted = s.submitted ∧ (dumpStep s).grabThread
      = s.grabThread ∧
      (Swept s → Swept (dumpStep s)) := by
  unfold dumpStep
  split
  case h_2 =>
    unfold waitStep
    split <;> exact ⟨rfl, rfl, rfl, fun h => h⟩
  case h_4 => split <;> exact ⟨rfl, rfl, rfl, fun h => h⟩
  all_goals exact ⟨rfl, rfl, rfl, fun h => h⟩

omit [LinearOrder κ] in
omit [DecidableEq α] in
theorem Inv.all_called (h : Inv maxPendingSamples s c) (hidle : ∀ t, s.pc t = .idle) (hswept : Swept s)
    (htop : s.grabThread = .top) (hwait : s.dumpThread = .wait)
    (hroot : s.links.next .dumpRoot = .dumpRoot)
    (hx : x ∈ s.submitted) : x ∈ s.calls.map Call.sample := by
  have hgrab : GrabHolds .top s.prepMap c := htop ▸ h.grab
  have hdump : DumpHolds .wait c := hwait ▸ h.dump
  have helem : ∀ t, c.element t = [] := by
    intro t
    by_cases hmem : t ∈ s.agents
    · have hnone := hswept.2 t hmem (by rw [htop]; exact not_mem_nil)
      rw [h.element t hmem] at hnone
      exact head?_eq_none_iff.1 hnone
    · exact h.stranger t hmem
  have hnil : ∀ p, p ≠ .called → c.samples p = [] := by
    intro p hp
    cases p with
    | hand t => exact (h.hand t).trans (congrArg Pc.sample (hidle t))
    | element t => exact helem t
    | global => exact head?_eq_none_iff.1 (h.global.symm.trans hswept.1)
    | walked => exact head?_eq_none_iff.1 hgrab.walked.symm
    | tmpRoot => exact first_root hgrab.tmpRoot nofun
    | vectors => exact hgrab.vectors
    | batch => exact hgrab.batch
    | grabHand => exact hgrab.hand
    | root => exact hgrab.root rfl
    | given => exact map_head?_none hgrab.given
    | dumpRoot =>
      have hnext := next_first (p := .dumpRoot) h.rings ⟨rfl, rfl⟩
      exact first_root (hroot.symm.trans hnext) nofun
    | newhead => exact map_head?_none hdump.newhead
    | dumperRoot => exact first_root hdump.dumperRoot nofun
    | dumpHand => exact hdump.hand
    | called => exact absurd rfl hp
  obtain ⟨p, hp⟩ := (h.covers x).1 hx
  obtain rfl | hcalled := eq_or_ne p .called
  · rw [← h.called]
    exact hp
  · rw [hnil p hcalled] at hp
    exact absurd hp not_mem_nil

/-! ## Runs -/

theorem step_inv (a : Act ι α) (h : Inv maxPendingSamples s c) :
    ∃ c', Inv maxPendingSamples (step preprocessor maxPendingSamples s a) c' := by
  cases a with
  | submit t x cpuwideUs =>
    simp only [step]
    split
    next hmay =>
      exact submitStep_inv h hmay.1 hmay.2 cpuwideUs
    · exact ⟨c, h⟩
  | go t => exact goStep_inv h t
  | exit t =>
    simp only [step]
    split
    next hmay =>
      exact exitStep_inv h hmay.1 hmay.2
    · exact ⟨c, h⟩
  | grab process now => exact grabStep_inv preprocessor h process now
  | dump => exact dumpStep_inv h

/-- The threads that have a sample in their hand are finitely many. -/
def Busy (s : State ι κ α) : Prop :=
  ∃ ts : List ι, ∀ t, t ∉ ts → s.pc t = .idle

omit [LinearOrder κ] [DecidableEq α] in
theorem Busy.turn (h : Busy s) {s' : State ι κ α} {p : Pc α} (hpc : s'.pc = update s.pc t p) :
    Busy s' := by
  obtain ⟨ts, hts⟩ := h
  refine ⟨t :: ts, fun u hu => ?_⟩
  rw [mem_cons, not_or] at hu
  rw [hpc, update_of_ne hu.1]
  exact hts u hu.2

theorem step_busy (a : Act ι α) (h : Busy s) : Busy (step preprocessor maxPendingSamples s a) := by
  cases a with
  | submit t x cpuwideUs =>
    simp only [step, submitStep]
    split
    · split
      · split <;> exact h.turn rfl
      · exact h
    · exact h
  | go t =>
    simp only [step, goStep]
    split
    · exact h
    · split
      · exact h
      · exact h.turn rfl
    · exact h.turn rfl
  | exit t =>
    simp only [step, exitStep]
    split
    · split <;> exact h
    · exact h
  | grab process now =>
    obtain ⟨ts, hts⟩ := h
    refine ⟨ts, fun t ht => ?_⟩
    simp only [step, (grabStep_frame preprocessor maxPendingSamples s process now).1]
    exact hts t ht
  | dump =>
    obtain ⟨ts, hts⟩ := h
    refine ⟨ts, fun t ht => ?_⟩
    simp only [step, (dumpStep_frame s).1]
    exact hts t ht

/-- The threads go on: nobody submits another sample, and the grab thread finds this `process` and
this time. -/
def Act.Goes (process : Process α) (now : ℤ) : Act ι α → Prop
  | .go _ | .dump => True
  | .grab process' now' => process' = process ∧ now' = now
  | _ => False

theorem reaches_top (preprocessor : α → WithBot κ) (process : Process α) (now : ℤ)
    (h : ∃ c, Inv maxPendingSamples s c) :
    ∃ as : List (Act ι α), ∃ s', (∀ a ∈ as, a.Goes process now) ∧
      runFrom (step preprocessor maxPendingSamples) s as = s' ∧ (∃ c, Inv maxPendingSamples s' c) ∧
      s'.submitted = s.submitted ∧ s'.pc = s.pc ∧ (Swept s → Swept s') ∧ s'.grabThread = .top := by
  obtain ⟨n, ⟨hinv, hsub, hpc, hswept⟩, htop⟩ :=
    reaches_of_decreases (step preprocessor maxPendingSamples) (.grab process now) grabRest
      (I := fun s' => (∃ c, Inv maxPendingSamples s' c) ∧ s'.submitted = s.submitted ∧ s'.pc = s.pc ∧
        (Swept s → Swept s'))
      (J := fun s' => s'.grabThread = .top)
      (fun s' hs' htop => by
        obtain ⟨⟨c, hc⟩, hsub, hpc, hswept⟩ := hs'
        obtain ⟨hpc', -, hsub'⟩ := grabStep_frame preprocessor maxPendingSamples s' process now
        exact ⟨⟨grabStep_inv preprocessor hc process now, hsub'.trans hsub, hpc'.trans hpc,
          fun hs => grabStep_swept (hswept hs) htop process now⟩, grabStep_rest hc htop process now⟩)
      ⟨h, rfl, rfl, id⟩
  refine ⟨_, _, fun a ha => ?_, rfl, hinv, hsub, hpc, hswept, htop⟩
  rw [eq_of_mem_replicate ha]
  exact ⟨rfl, rfl⟩

omit [LinearOrder κ] in
theorem goStep_twice (hlocked : s.locked = false) (t : ι) :
    (goStep (goStep s t) t).pc = update s.pc t .idle ∧
      (goStep (goStep s t) t).submitted = s.submitted ∧ (goStep (goStep s t) t).grabThread
        = s.grabThread := by
  cases hpc : s.pc t with
  | idle =>
    have hsame : goStep s t = s := by simp only [goStep, hpc]
    rw [hsame, hsame, ← hpc, update_eq_self]
    exact ⟨rfl, rfl, rfl⟩
  | append x =>
    simp only [goStep, hpc, hlocked, goto, update_self, Bool.false_eq_true, if_false,
      update_idem, and_self]
  | modify x =>
    simp only [goStep, hpc, goto, update_self, and_self]

section

variable (preprocessor : α → WithBot κ) (process : Process α) (now : ℤ)

theorem reaches_idle (ts : List ι)
    (h : ∃ c, Inv maxPendingSamples s c)
    (htop : s.grabThread = .top) (hts : ∀ t, t ∉ ts → s.pc t = .idle) :
    ∃ as : List (Act ι α), ∃ s', (∀ a ∈ as, a.Goes process now) ∧
      runFrom (step preprocessor maxPendingSamples) s as = s' ∧ (∃ c, Inv maxPendingSamples s' c) ∧
      s'.submitted = s.submitted ∧ s'.grabThread = .top ∧ ∀ t, s'.pc t = .idle := by
  induction ts generalizing s with
  | nil => exact ⟨[], s, nofun, rfl, h, rfl, htop, fun t => hts t not_mem_nil⟩
  | cons t ts ih =>
    have hlocked : s.locked = false := by rw [locked, htop]
    obtain ⟨hpc, hsub, hgrab⟩ := goStep_twice hlocked t
    obtain ⟨c, hc⟩ := h
    obtain ⟨c', hc'⟩ := goStep_inv hc t
    obtain ⟨as, s', hgoes, hrun, hinv, hsub', htop', hidle⟩ :=
      ih (goStep_inv hc' t) (hgrab.trans htop) (by
      intro u hu
      rw [hpc]
      obtain rfl | hut := eq_or_ne u t
      · exact update_self ..
      · rw [update_of_ne hut]
        exact hts u fun hmem => (mem_cons.1 hmem).elim hut hu)
    refine ⟨.go t :: .go t :: as, s', ?_, hrun, hinv, hsub'.trans hsub, htop', hidle⟩
    exact forall_mem_cons.2 ⟨trivial, forall_mem_cons.2 ⟨trivial, hgoes⟩⟩

theorem reaches_wait
    (h : ∃ c, Inv maxPendingSamples s c) :
    ∃ as : List (Act ι α), ∃ s', (∀ a ∈ as, a.Goes process now) ∧
      runFrom (step preprocessor maxPendingSamples) s as = s' ∧ (∃ c, Inv maxPendingSamples s' c) ∧
      s'.submitted = s.submitted ∧ s'.pc = s.pc ∧ s'.grabThread = s.grabThread ∧ (Swept s → Swept s') ∧
      s'.dumpThread = .wait ∧ s'.links.next .dumpRoot = .dumpRoot := by
  obtain ⟨n, ⟨hinv, hsub, hpc, hgrab, hswept⟩, hwait, hroot⟩ :=
    reaches_of_decreases (step preprocessor maxPendingSamples) .dump dumpRest
      (I := fun s' => (∃ c, Inv maxPendingSamples s' c) ∧ s'.submitted = s.submitted ∧ s'.pc = s.pc ∧
        s'.grabThread = s.grabThread ∧ (Swept s → Swept s'))
      (J := fun s' => s'.dumpThread = .wait ∧ s'.links.next .dumpRoot = .dumpRoot)
      (fun s' hs' hwait => by
        obtain ⟨⟨c, hc⟩, hsub, hpc, hgrab, hswept⟩ := hs'
        obtain ⟨hpc', hsub', hgrab', hswept'⟩ := dumpStep_frame s'
        exact ⟨⟨dumpStep_inv hc, hsub'.trans hsub, hpc'.trans hpc, hgrab'.trans hgrab,
          fun hs => hswept' (hswept hs)⟩, dumpStep_rest hc hwait⟩)
      ⟨h, rfl, rfl, rfl, id⟩
  refine ⟨_, _, fun a ha => ?_, rfl, hinv, hsub, hpc, hgrab, hswept, hwait, hroot⟩
  rw [eq_of_mem_replicate ha]
  trivial

end

/-- The threads can go on so that each sample that was submitted has had its one call. -/
def EndsSamples (preprocessor : α → WithBot κ) (maxPendingSamples : ℤ) (s : State ι κ α) : Prop :=
  ∀ (process : Process α) (now : ℤ), ∃ as : List (Act ι α), ∃ s', (∀ a ∈ as, a.Goes process now) ∧
    runFrom (step preprocessor maxPendingSamples) s as = s' ∧ s'.submitted = s.submitted ∧
    ∀ x ∈ s.submitted, (s'.calls.map Call.sample).count x = 1

theorem Inv.ends (h : Inv maxPendingSamples s c) (hbusy : Busy s) (preprocessor : α → WithBot κ) :
    EndsSamples preprocessor maxPendingSamples s := by
  intro process now
  -- the round is finished, then what the threads have in their hands comes to the elements
  obtain ⟨as1, s1, hgoes1, hrun1, h1, hsub1, hpc1, -, htop1⟩ :=
    reaches_top preprocessor process now ⟨c, h⟩
  obtain ⟨ts, hts⟩ := hbusy
  obtain ⟨as2, s2, hgoes2, hrun2, h2, hsub2, htop2, hidle2⟩ :=
    reaches_idle preprocessor process now ts h1 htop1 (fun t ht => hpc1 ▸ hts t ht)
  -- one more round takes everything to the dump thread
  obtain ⟨c2, hc2⟩ := h2
  obtain ⟨hpc3, -, hsub3⟩ := grabStep_frame preprocessor maxPendingSamples s2 process now
  have hswept3 : Swept (grabStep preprocessor maxPendingSamples s2 process now) := by
    simp only [grabStep, htop2]
    exact ⟨rfl, fun u hu hout => absurd hu hout⟩
  obtain ⟨as4, s4, hgoes4, hrun4, h4, hsub4, hpc4, hswept4, htop4⟩ :=
    reaches_top preprocessor process now (grabStep_inv preprocessor hc2 process now)
  obtain ⟨as5, s5, hgoes5, hrun5, ⟨c5, hc5⟩, hsub5, hpc5, hgrab5, hswept5, hwait5, hroot5⟩ :=
    reaches_wait preprocessor process now h4
  have hsub : s5.submitted = s.submitted := by rw [hsub5, hsub4, hsub3, hsub2, hsub1]
  have hpc : s5.pc = s2.pc := by rw [hpc5, hpc4, hpc3]
  refine ⟨as1 ++ as2 ++ [.grab process now] ++ as4 ++ as5, s5, ?_, ?_, hsub, fun x hx => ?_⟩
  · simp only [forall_mem_append, forall_mem_singleton]
    exact ⟨⟨⟨⟨hgoes1, hgoes2⟩, rfl, rfl⟩, hgoes4⟩, hgoes5⟩
  · rw [runFrom_append, runFrom_append, runFrom_append, runFrom_append, hrun1, hrun2]
    simp only [runFrom_cons, runFrom_nil, step, hrun4, hrun5]
  · apply count_eq_one_of_mem
    · rw [← hc5.called]
      exact hc5.exclusive.nodup .called
    · exact hc5.all_called (fun t => (congrFun hpc t).trans (hidle2 t)) (hswept5 (hswept4 hswept3))
        (hgrab5.trans htop4) hwait5 hroot5 (hsub ▸ hx)

/-- **Samples are neither lost nor repeated** in any run. -/
theorem run_keepsSamples (preprocessor : α → WithBot κ) (maxPendingSamples now : ℤ)
    (as : List (Act ι α)) :
    KeepsSamples maxPendingSamples (runFrom (step preprocessor maxPendingSamples) (start ι κ α now) as) ∧
      EndsSamples preprocessor maxPendingSamples
        (runFrom (step preprocessor maxPendingSamples) (start ι κ α now) as) := by
  have hkeeps : Keeps (step preprocessor maxPendingSamples)
      (fun s : State ι κ α => (∃ c, Inv maxPendingSamples s c) ∧ Busy s) := by
    rintro s a ⟨⟨c, h⟩, hbusy⟩
    exact ⟨step_inv a h, step_busy a hbusy⟩
  obtain ⟨⟨c, h⟩, hbusy⟩ := hkeeps.run ⟨⟨.nil, start_inv now⟩, [], fun _ _ => rfl⟩ as
  exact ⟨h.keeps, h.ends hbusy preprocessor⟩

def Process.id : Process ℕ := ⟨fun l => l, fun _ => List.Perm.refl _⟩

/-- A thread submits a sample and the grab thread counts it. -/
def countRun : List (Act Unit ℕ) :=
  [.submit () 5 0, .go (), .go ()] ++ List.replicate 8 (.grab Process.id 0)

/-- At most one sample may be pending, so the sample is to be dropped; it is pending before. -/
theorem pending_undecided :
    ¬(runFrom (step (fun _ => (⊥ : WithBot ℕ)) 1) (start Unit ℕ ℕ 0) countRun).pendingCount < 1 := by
  decide

end Eabase.Var.Collector
