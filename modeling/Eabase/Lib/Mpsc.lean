import Mathlib.Data.List.Chain
import Mathlib.Data.List.Nodup

/-!
# Lists with many producers and one consumer

A producer marks its node unconnected, exchanges it into the head, and stores the
node that was there into its own link; between the two the list is broken at that
node. The consumer owns the nodes connected from its own node on to the end. When
it finds the head beyond that end it turns the newer nodes round, one at a time
from the head back, waiting at each for its producer, and connects them.

`Shape` is the list while that goes on: the connected nodes, the newer ones not
turned yet, those turned, and those exchanged since the turning began.
-/

namespace Eabase.Lib.Mpsc

open List

inductive Link (ν : Type*) where
  | unconnected
  | null
  | node (n : ν)
  deriving DecidableEq

variable {ν : Type*} {next next' : ν → Link ν} {prev : ν → ν} {l l' : List ν} {x y p : ν}
variable {e e' : Link ν}

/-- The link to the front of a list that ends with the link `e`. -/
def first : List ν → Link ν → Link ν
  | [], e => e
  | x :: _, _ => .node x

theorem first_ne_unconnected (he : e ≠ .unconnected) : first l e ≠ .unconnected := by
  cases l with
  | nil => exact he
  | cons => nofun

/-- Every node's link is the one to the node behind it, and the last one's is `e`. -/
def Linked (next : ν → Link ν) : List ν → Link ν → Prop
  | [], _ => True
  | x :: l, e => next x = first l e ∧ Linked next l e

@[simp] theorem linked_nil : Linked next [] e := trivial

@[simp] theorem linked_cons :
    Linked next (x :: l) e ↔ next x = first l e ∧ Linked next l e := Iff.rfl

theorem Linked.congr (h : Linked next l e) (heq : ∀ x ∈ l, next' x = next x) :
    Linked next' l e := by
  induction l with
  | nil => trivial
  | cons x l ih =>
    constructor
    · rw [heq x (mem_cons_self ..)]
      exact h.1
    · exact ih h.2 fun y hy => heq y (mem_cons_of_mem _ hy)

theorem linked_append : Linked next (l ++ l') e ↔ Linked next l (first l' e) ∧ Linked next l' e := by
  induction l with
  | nil => simp
  | cons x l ih =>
    rw [cons_append, linked_cons, linked_cons, ih, and_assoc]
    cases l <;> rfl

theorem Linked.connected (h : Linked next l e) (he : e ≠ .unconnected) (hx : x ∈ l) :
    next x ≠ .unconnected := by
  induction l with
  | nil => cases hx
  | cons y l ih =>
    rcases mem_cons.1 hx with rfl | hx
    · rw [h.1]
      exact first_ne_unconnected he
    · exact ih h.2 hx

/-- The link of a node exchanged into the list and not turned yet. -/
def Arriving (next : ν → Link ν) (prev : ν → ν) (x : ν) : Prop :=
  next x = .unconnected ∨ next x = .node (prev x)

theorem arriving_congr (h : ∀ x ∈ l, Arriving next prev x) (heq : ∀ x ∈ l, next' x = next x) :
    ∀ x ∈ l, Arriving next' prev x := by
  intro x hx
  unfold Arriving
  rw [heq x hx]
  exact h x hx

/-- A store beside a list. -/
theorem update_beside {β : Type*} [DecidableEq ν] {f : ν → β} {v : β} (hx : x ∉ l) :
    ∀ y ∈ l, Function.update f x v y = f y := by
  intro y hy
  have hne : y ≠ x := fun he => hx (he ▸ hy)
  exact Function.update_of_ne hne ..

/-- The list: `conn`, connected up to the link `e`; `older`, `turned` and `newer`. The node
exchanged out of the head for `x` is `prev x`. -/
structure Shape (next : ν → Link ν) (prev : ν → ν) (conn older turned newer : List ν)
    (e : Link ν) : Prop where
  nodup : (conn ++ older ++ turned ++ newer).Nodup
  order : (conn ++ older ++ turned ++ newer).IsChain fun y x => prev x = y
  conn : Linked next conn e
  older : ∀ x ∈ older, Arriving next prev x
  turned : Linked next turned .null
  newer : ∀ x ∈ newer, Arriving next prev x

namespace Shape

variable {conn older turned newer : List ν}

/-- The first node of a list. -/
theorem single (hx : next x = e) : Shape next prev [x] [] [] [] e where
  nodup := nodup_singleton x
  order := isChain_singleton x
  conn := ⟨hx, trivial⟩
  older := nofun
  turned := trivial
  newer := nofun

theorem congr (h : Shape next prev conn older turned newer e)
    (heq : ∀ x ∈ conn ++ older ++ turned ++ newer, next' x = next x) :
    Shape next' prev conn older turned newer e where
  nodup := h.nodup
  order := h.order
  conn := h.conn.congr fun x hx => heq x (by simp [hx])
  older := arriving_congr h.older fun x hx => heq x (by simp [hx])
  turned := h.turned.congr fun x hx => heq x (by simp [hx])
  newer := arriving_congr h.newer fun x hx => heq x (by simp [hx])

/-- A node whose link is not stored yet is one of those not turned. -/
theorem unconnected (h : Shape next prev conn older turned newer .null)
    (hx : x ∈ conn ++ older ++ turned ++ newer) (hnext : next x = .unconnected) :
    x ∈ older ∨ x ∈ newer := by
  simp only [mem_append] at hx
  rcases hx with ((hx | hx) | hx) | hx
  · exact absurd hnext (h.conn.connected (by nofun) hx)
  · exact .inl hx
  · exact absurd hnext (h.turned.connected (by nofun) hx)
  · exact .inr hx

/-- A node is dropped from the front of the connected ones. -/
theorem pop (h : Shape next prev (x :: conn) older turned newer e) :
    Shape next prev conn older turned newer e where
  nodup := h.nodup.tail
  order := h.order.tail
  conn := h.conn.2
  older := h.older
  turned := h.turned
  newer := h.newer

/-- The head is the end of the connected nodes: there are no others. -/
theorem closed (h : Shape next prev (l ++ [x]) older turned newer e)
    (hlast : (l ++ [x] ++ older ++ turned ++ newer).getLast? = some x) :
    older = [] ∧ turned = [] ∧ newer = [] := by
  have hnd := h.nodup
  simp only [append_assoc] at hnd hlast
  rw [← append_assoc] at hnd hlast
  rcases eq_nil_or_concat (older ++ (turned ++ newer)) with hnil | ⟨rest, z, hz⟩
  · simpa only [append_eq_nil_iff] using hnil
  · rw [hz, concat_eq_append, ← append_assoc, getLast?_concat, Option.some.injEq] at hlast
    rw [hz, concat_eq_append, nodup_append'] at hnd
    exact absurd (mem_append_right rest (mem_singleton.2 hlast.symm))
      fun hmem => hnd.2.2 (mem_append_right l (mem_singleton_self x)) hmem

/-- The consumer starts to turn what was exchanged. -/
theorem start (h : Shape next prev conn [] [] newer e) : Shape next prev conn newer [] [] e where
  nodup := by simpa using h.nodup
  order := by simpa using h.order
  conn := h.conn
  older := h.newer
  turned := trivial
  newer := nofun

/-- What is in front of the node that is turned next. -/
theorem prev_eq (h : Shape next prev conn (older ++ [p]) turned newer e) (hconn : conn ≠ []) :
    (conn ++ older).getLast? = some (prev p) := by
  have horder := h.order.left_of_append.left_of_append
  rw [← append_assoc, isChain_append] at horder
  have hne : conn ++ older ≠ [] := append_ne_nil_of_left_ne_nil hconn older
  have hlast := getLast?_eq_some_getLast hne
  rw [hlast, horder.2.2 _ hlast p rfl]

variable [DecidableEq ν]

section

variable (h : Shape next prev conn older turned newer e)
include h

/-- A link outside the list is stored. -/
theorem update
    (hx : x ∉ conn ++ older ++ turned ++ newer) {v : Link ν} :
    Shape (Function.update next x v) prev conn older turned newer e :=
  h.congr (update_beside hx)

/-- The **exchange** of an unconnected node into the head. -/
theorem exchange
    (hx : x ∉ conn ++ older ++ turned ++ newer) (hnext : next x = .unconnected)
    (hlast : (conn ++ older ++ turned ++ newer).getLast? = some y) :
    Shape next (Function.update prev x y) conn older turned (newer ++ [x]) e := by
  have hprev := update_beside (f := prev) (v := y) hx
  have harr : ∀ {l : List ν}, (∀ z ∈ l, z ∈ conn ++ older ++ turned ++ newer) →
      (∀ z ∈ l, Arriving next prev z) → ∀ z ∈ l, Arriving next (Function.update prev x y) z := by
    intro l hl ha z hz
    unfold Arriving
    rw [hprev z (hl z hz)]
    exact ha z hz
  constructor
  · rw [← append_assoc]
    refine nodup_append'.2 ⟨h.nodup, nodup_singleton x, ?_⟩
    rintro z hz hzx
    rw [mem_singleton] at hzx
    exact hx (hzx ▸ hz)
  · rw [← append_assoc, isChain_append]
    refine ⟨h.order.imp_of_mem_tail_imp ?_, isChain_singleton x, ?_⟩
    · intro z w _ hw hzw
      rw [hprev w (mem_of_mem_tail hw)]
      exact hzw
    · intro z hz w hw
      rw [hlast, Option.mem_def, Option.some.injEq] at hz
      rw [head?_cons, Option.mem_def, Option.some.injEq] at hw
      rw [← hz, ← hw, Function.update_self]
  · exact h.conn
  · exact harr (fun z hz => by simp [hz]) h.older
  · exact h.turned
  · intro z hz
    rcases mem_append.1 hz with hz | hz
    · exact harr (fun z hz => by simp [hz]) h.newer z hz
    · rw [mem_singleton] at hz
      exact .inl (hz ▸ hnext)

/-- A producer stores the **link** of its node. -/
theorem link (hx : x ∈ older ∨ x ∈ newer) :
    Shape (Function.update next x (.node (prev x))) prev conn older turned newer e := by
  have hnd := h.nodup
  simp only [append_assoc, nodup_append', disjoint_append_right] at hnd
  obtain ⟨-, ⟨-, ⟨-, -, htn⟩, hot, -⟩, hco, -, hcn⟩ := hnd
  have hconn : x ∉ conn := fun hm => hx.elim (hco hm) (hcn hm)
  have hturned : x ∉ turned := fun hm => hx.elim (fun ho => hot ho hm) (htn hm)
  have harr : ∀ {l : List ν}, (∀ z ∈ l, Arriving next prev z) →
      ∀ z ∈ l, Arriving (Function.update next x (.node (prev x))) prev z := by
    intro l ha z hz
    obtain rfl | hzx := eq_or_ne z x
    · exact .inr (Function.update_self ..)
    · unfold Arriving
      rw [Function.update_of_ne hzx]
      exact ha z hz
  constructor
  · exact h.nodup
  · exact h.order
  · exact h.conn.congr (update_beside hconn)
  · exact harr h.older
  · exact h.turned.congr (update_beside hturned)
  · exact harr h.newer

end

/-- The link of the last connected node is stored. -/
theorem connect (h : Shape next prev (l ++ [x]) older turned newer e) :
    Shape (Function.update next x e') prev (l ++ [x]) older turned newer e' := by
  have hnd := h.nodup
  simp only [append_assoc, nodup_append', disjoint_append_right, singleton_disjoint] at hnd
  obtain ⟨-, ⟨-, -, ho, ht, hn⟩, hl, -⟩ := hnd
  have hx : x ∉ l := fun hm => hl hm (mem_singleton_self x)
  obtain ⟨hlinked, -⟩ := linked_append.1 h.conn
  constructor
  · exact h.nodup
  · exact h.order
  · refine linked_append.2 ⟨hlinked.congr (update_beside hx), ?_, trivial⟩
    exact Function.update_self ..
  · exact arriving_congr h.older (update_beside ho)
  · exact h.turned.congr (update_beside ht)
  · exact arriving_congr h.newer (update_beside hn)

/-- A node is **turned**: its link was stored, and goes to the node behind it now. -/
theorem turn (h : Shape next prev conn (older ++ [p]) turned newer e) :
    Shape (Function.update next p (first turned .null)) prev conn older (p :: turned) newer e := by
  have heq : conn ++ (older ++ [p]) ++ turned ++ newer = conn ++ older ++ (p :: turned) ++ newer := by
    simp
  have hnd := h.nodup
  simp only [append_assoc, nodup_append', disjoint_append_right,
    singleton_disjoint, disjoint_singleton] at hnd
  obtain ⟨-, ⟨-, ⟨-, -, ht, hn⟩, ho, -⟩, -, hc, -⟩ := hnd
  constructor
  · exact heq ▸ h.nodup
  · exact heq ▸ h.order
  · exact h.conn.congr (update_beside hc)
  · exact arriving_congr (fun z hz => h.older z (mem_append_left _ hz)) (update_beside ho)
  · exact ⟨Function.update_self .., h.turned.congr (update_beside ht)⟩
  · exact arriving_congr h.newer (update_beside hn)

/-- The turned nodes are connected to the others. -/
theorem join (h : Shape next prev (l ++ [x]) [] turned newer e) :
    Shape (Function.update next x (first turned .null)) prev (l ++ [x] ++ turned) [] [] newer
      .null := by
  have hc : Shape (Function.update next x (first turned .null)) prev (l ++ [x]) [] turned newer
      (first turned .null) := h.connect
  constructor
  · simpa using hc.nodup
  · simpa using hc.order
  · exact linked_append.2 ⟨hc.conn, hc.turned⟩
  · nofun
  · trivial
  · exact hc.newer

end Shape

/-- The nodes in the list, in the order of the exchanges, are split in this way; the rest are
newer. -/
def Split (next : ν → Link ν) (prev : ν → ν) (queue conn older turned : List ν) (e : Link ν) : Prop :=
  ∃ newer, queue = conn ++ older ++ turned ++ newer ∧ Shape next prev conn older turned newer e

namespace Split

variable {queue conn older turned rest : List ν} {m n old : ν}

theorem mem (h : Split next prev queue conn older turned e) (hn : n ∈ conn) : n ∈ queue := by
  obtain ⟨newer, hq, -⟩ := h
  rw [hq]
  simp [hn]

/-- One node, exchanged into the empty list. -/
theorem single (hn : next n = e) : Split next prev [n] [n] [] [] e :=
  ⟨[], rfl, .single hn⟩

/-- What the link of the first node says. -/
theorem next_cases (h : Split next prev queue (n :: rest) [] [] .null) :
    next n = .null ∧ rest = [] ∨ ∃ m rest', rest = m :: rest' ∧ next n = .node m := by
  obtain ⟨newer, -, hs⟩ := h
  cases rest with
  | nil => exact .inl ⟨hs.conn.1, rfl⟩
  | cons m rest => exact .inr ⟨m, rest, rfl, hs.conn.1⟩

/-- The consumer goes on to the second node. -/
theorem pop (h : Split next prev queue (n :: rest) [] [] e) :
    Split next prev queue.tail rest [] [] e := by
  obtain ⟨newer, hq, hs⟩ := h
  refine ⟨newer, ?_, hs.pop⟩
  rw [hq]
  rfl

/-- Nothing was exchanged behind the only connected node. -/
theorem closed (h : Split next prev queue [n] [] [] e) (hlast : queue.getLast? = some n) :
    queue = [n] := by
  obtain ⟨newer, hq, hs⟩ := h
  obtain ⟨-, -, rfl⟩ := Shape.closed (l := []) hs (hq ▸ hlast)
  exact hq

/-- Something was: it is to be turned. -/
theorem opened (h : Split next prev queue [n] [] [] e) (hlast : queue.getLast? = some m) (hne : m ≠ n) :
    ∃ older, Split next prev queue [n] (older ++ [m]) [] e := by
  obtain ⟨newer, hq, hs⟩ := h
  rw [hq] at hlast
  rcases eq_nil_or_concat newer with rfl | ⟨older, q, rfl⟩
  · exact absurd (Option.some.inj hlast).symm hne
  · rw [concat_eq_append] at hq hlast hs
    simp only [append_nil, ← append_assoc, getLast?_concat, Option.some.injEq] at hlast
    subst hlast
    exact ⟨older, [], by simpa using hq, hs.start⟩

/-- The link of the node that is turned next: not stored yet, or to the node in front. -/
theorem turn_link (h : Split next prev queue conn (older ++ [p]) turned e) :
    next p = .unconnected ∨ next p = .node (prev p) := by
  obtain ⟨newer, -, hs⟩ := h
  exact hs.older p (by simp)

variable [DecidableEq ν]

section

variable (h : Split next prev queue conn older turned e)
include h

theorem beside (hn : n ∉ queue) {v : Link ν} :
    Split (Function.update next n v) prev queue conn older turned e := by
  obtain ⟨newer, hq, hs⟩ := h
  exact ⟨newer, hq, hs.update (hq ▸ hn)⟩

theorem exchange (hn : n ∉ queue)
    (hnext : next n = .unconnected) (hlast : queue.getLast? = some m) :
    Split next (Function.update prev n m) (queue ++ [n]) conn older turned e := by
  obtain ⟨newer, hq, hs⟩ := h
  refine ⟨newer ++ [n], ?_, hs.exchange (hq ▸ hn) hnext (hq ▸ hlast)⟩
  rw [hq, append_assoc _ newer]

/-- A producer links its node, which is not turned yet. -/
theorem link (hn : n ∈ queue)
    (hnext : next n = .unconnected) (hconn : e = .null ∨ n ∉ conn ∧ turned = []) :
    Split (Function.update next n (.node (prev n))) prev queue conn older turned e := by
  obtain ⟨newer, hq, hs⟩ := h
  refine ⟨newer, hq, hs.link ?_⟩
  rcases hconn with rfl | ⟨hnc, rfl⟩
  · exact hs.unconnected (hq ▸ hn) hnext
  · rw [hq] at hn
    simpa [hnc] using hn

end

/-- The link of the only connected node is stored. -/
theorem connect (h : Split next prev queue [n] older turned e) :
    Split (Function.update next n e') prev queue [n] older turned e' := by
  obtain ⟨newer, hq, hs⟩ := h
  exact ⟨newer, hq, .connect (l := []) hs⟩

/-- A node is turned: it was the last one to turn, or the one in front of it comes next. -/
theorem turn (h : Split next prev queue [old] (older ++ [p]) turned e) :
    prev p = old ∧ Split (Function.update next p (first turned .null)) prev queue [old] []
    (p :: turned) e ∨
      prev p ≠ old ∧ ∃ older', Split (Function.update next p (first turned .null)) prev queue [old]
        (older' ++ [prev p]) (p :: turned) e := by
  obtain ⟨newer, hq, hs⟩ := h
  have hlast := hs.prev_eq (by simp)
  have hq' : queue = [old] ++ older ++ (p :: turned) ++ newer := by simpa using hq
  have hturn := hs.turn
  rcases eq_nil_or_concat older with rfl | ⟨older, y, rfl⟩
  · exact .inl ⟨(Option.some.inj hlast).symm, newer, hq', hturn⟩
  · rw [concat_eq_append] at hq' hturn hlast
    rw [← append_assoc, getLast?_concat] at hlast
    have hy : y = prev p := Option.some.inj hlast
    have hne : prev p ≠ old := by
      rintro rfl
      have hnd := hturn.nodup
      simp [hy] at hnd
    exact .inr ⟨hne, older, newer, hy ▸ hq', hy ▸ hturn⟩

/-- The turned nodes are connected. -/
theorem join (h : Split next prev queue [old] [] turned e) :
    Split (Function.update next old (first turned .null)) prev queue (old :: turned) [] [] .null := by
  obtain ⟨newer, hq, hs⟩ := h
  exact ⟨newer, by simpa using hq, .join (l := []) hs⟩

end Split

end Eabase.Lib.Mpsc
