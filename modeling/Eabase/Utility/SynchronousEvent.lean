import Eabase.Lib.Machine
import Mathlib.Data.Finset.Card
import Mathlib.Data.List.ReduceOption

/-!
# Events that are notified synchronously

The observers of an event are in a vector. One that is removed leaves a hole,
and the holes are closed when a notify is over. An observer may do anything to
the event while it is called: subscribe, unsubscribe, clear and notify it again.
An outer notify that is at an index when the holes before it are closed goes on
behind the observers that have moved.
-/

namespace Eabase.Utility.SynchronousEvent

open Lib List

variable {Ob : Type*} [DecidableEq Ob]

/-! ## The event -/

/-- `SynchronousEvent`: a hole is `NULL`. -/
structure Event (Ob : Type*) where
  n : ℕ
  obs : List (Option Ob)

/-- Returns 0, or -1 for `NULL` and for an observer that is there. -/
def subscribe (e : Event Ob) (ob : Option Ob) : Event Ob × ℤ :=
  match ob with
  | none => (e, -1)
  | some a => if some a ∈ e.obs then (e, -1) else (⟨e.n + 1, e.obs ++ [some a]⟩, 0)

/-- Returns 0, or -1 for `NULL` and for an observer that is not there. -/
def unsubscribe (e : Event Ob) (ob : Option Ob) : Event Ob × ℤ :=
  match ob with
  | none => (e, -1)
  | some a => if some a ∈ e.obs then (⟨e.n - 1, e.obs.set (e.obs.idxOf (some a)) none⟩, 0) else (e, -1)

def clear (e : Event Ob) : Event Ob :=
  ⟨0, e.obs.map fun _ => none⟩

def size (e : Event Ob) : ℕ :=
  e.n

/-- The loop of `_shrink` up to `it2`: the vector and `it1`. -/
def moveDown (obs : List (Option Ob)) (it2 : ℕ) : List (Option Ob) × ℕ :=
  (List.range it2).foldl (fun v j =>
    match v.1.getD j none with
    | some a => (v.1.set v.2 (some a), v.2 + 1)
    | none => v) (obs, 0)

def resize (v : List (Option Ob)) (n : ℕ) : List (Option Ob) :=
  v.take n ++ List.replicate (n - v.length) none

def shrink (e : Event Ob) : Event Ob :=
  if e.n = e.obs.length then e else ⟨e.n, resize (moveDown e.obs e.obs.length).1 e.n⟩

/-- The loop of `notify` up to the next call: the observers from index `i` on. -/
def next : List (Option Ob) → ℕ → Option (ℕ × Ob)
  | [], _ => none
  | some a :: _, i => some (i, a)
  | none :: obs, i => next obs (i + 1)

/-! ## What an event is for -/

/-- What a notify sees until it is over: calls of the functions, whoever makes them, and its own
calls of `on_event`. -/
inductive Happening (Ob : Type*) where
  | subscribe (ob : Option Ob)
  | unsubscribe (ob : Option Ob)
  | clear
  | called (a : Ob)
  deriving DecidableEq

def Happening.after (S : Finset Ob) : Happening Ob → Finset Ob
  | .subscribe (some a) => insert a S
  | .unsubscribe (some a) => S.erase a
  | .clear => ∅
  | _ => S

def subscribedAfter (S : Finset Ob) (seen : List (Happening Ob)) : Finset Ob :=
  seen.foldl Happening.after S

def Stays (a : Ob) (seen : List (Happening Ob)) : Prop :=
  .unsubscribe (some a) ∉ seen ∧ .clear ∉ seen

def CallsSubscribed (S : Finset Ob) (seen : List (Happening Ob)) : Prop :=
  ∀ pre a post, seen = pre ++ .called a :: post → a ∈ subscribedAfter S pre

/-- All are called: those that are subscribed throughout once, and those that are newly subscribed,
and stay, once since. -/
structure CallsAll (S : Finset Ob) (seen : List (Happening Ob)) : Prop where
  throughout : ∀ a ∈ S, Stays a seen → seen.count (.called a) = 1
  newly : ∀ pre a post, seen = pre ++ .subscribe (some a) :: post → a ∉ subscribedAfter S pre →
    Stays a post →
    post.count (.called a) = 1

/-! ## Runs -/

/-- A notify at index `i`. It began with some observers and has seen what happened since. -/
structure Notify (Ob : Type*) where
  i : ℕ
  began : Finset Ob
  seen : List (Happening Ob)

/-- The running notifies, innermost first, the observers that should be subscribed, and the notifies
that are over. -/
structure State (Ob : Type*) where
  event : Event Ob
  notifies : List (Notify Ob)
  subscribed : Finset Ob
  ended : List (Notify Ob)

def start (Ob : Type*) : State Ob :=
  ⟨⟨0, []⟩, [], ∅, []⟩

def State.sees (s : State Ob) (x : Happening Ob) (e : Event Ob) : State Ob :=
  ⟨e, s.notifies.map fun f => { f with seen := f.seen ++ [x] }, x.after s.subscribed, s.ended⟩

/-- A notify goes on at index `i`. -/
def loop (s : State Ob) (f : Notify Ob) (outer : List (Notify Ob)) (i : ℕ) : State Ob :=
  match next (s.event.obs.drop i) i with
  | some (j, a) => { s with notifies := ⟨j, f.began, f.seen ++ [.called a]⟩ :: outer }
  | none => { s with event := shrink s.event, notifies := outer, ended := f :: s.ended }

/-- Calls of the functions, in `on_event` or not, and the return of `on_event`. -/
inductive Act (Ob : Type*) where
  | subscribe (ob : Option Ob)
  | unsubscribe (ob : Option Ob)
  | clear
  | notify
  | returns

def step (s : State Ob) (act : Act Ob) : State Ob :=
  match act with
  | .subscribe ob => s.sees (.subscribe ob) (subscribe s.event ob).1
  | .unsubscribe ob => s.sees (.unsubscribe ob) (unsubscribe s.event ob).1
  | .clear => s.sees .clear (clear s.event)
  | .notify => loop s ⟨0, s.subscribed, []⟩ s.notifies 0
  | .returns =>
    match s.notifies with
    | [] => s
    | f :: outer => loop s f outer (f.i + 1)

/-- The holes up to the index of an outer notify are not closed while there are observers behind it,
and none is subscribed at its index or before. -/
def Undisturbed (s : State Ob) (act : Act Ob) : Prop :=
  match act with
  | .subscribe (some a) => some a ∉ s.event.obs → ∀ f ∈ s.notifies, f.i < s.event.obs.length
  | .returns =>
    match s.notifies with
    | [] => True
    | f :: outer => (∀ x ∈ s.event.obs.drop (f.i + 1), x = none) → ∀ g ∈ outer,
        none ∉ s.event.obs.take (g.i + 1) ∨ ∀ x ∈ s.event.obs.drop (g.i + 1), x = none
  | _ => True

instance (s : State Ob) (act : Act Ob) : Decidable (Undisturbed s act) := by
  unfold Undisturbed
  split
  case h_1 => infer_instance
  case h_2 =>
    split
    case h_1 => infer_instance
    case h_2 => infer_instance
  case h_3 => infer_instance

variable {obs obs' : List (Option Ob)} {e : Event Ob} {S : Finset Ob}
    {seen pre post : List (Happening Ob)}
  {x : Happening Ob} {s : State Ob} {f : Notify Ob} {outer : List (Notify Ob)} {a : Ob} {i j k : ℕ}

/-! ## The event holds the subscribed observers -/

/-- The vector without its holes is the set. -/
structure Holds (e : Event Ob) (S : Finset Ob) : Prop where
  n : e.n = e.obs.reduceOption.length
  nodup : e.obs.reduceOption.Nodup
  mem : ∀ a, some a ∈ e.obs ↔ a ∈ S

theorem Holds.size_eq (h : Holds e S) : size e = S.card := by
  have hset : e.obs.reduceOption.toFinset = S := by
    ext a
    rw [mem_toFinset, reduceOption_mem_iff, h.mem]
  rw [← hset, toFinset_card_of_nodup h.nodup]
  exact h.n

theorem subscribe_cases (e : Event Ob) (ob : Option Ob) :
    (subscribe e ob).1 = e ∧ (∀ a ∈ ob, some a ∈ e.obs) ∨
      ∃ a, ob = some a ∧ some a ∉ e.obs ∧ (subscribe e ob).1 = ⟨e.n + 1, e.obs ++ [some a]⟩ := by
  cases ob with
  | none => exact .inl ⟨rfl, nofun⟩
  | some a =>
    by_cases ha : some a ∈ e.obs
    · exact .inl ⟨congrArg Prod.fst (if_pos ha), fun _ hb => Option.some.inj hb ▸ ha⟩
    · exact .inr ⟨a, rfl, ha, congrArg Prod.fst (if_neg ha)⟩

theorem Holds.subscribe (h : Holds e S) (ob : Option Ob) :
    Holds (subscribe e ob).1 (Happening.after S (.subscribe ob)) := by
  obtain ⟨heq, hmem⟩ | ⟨a, rfl, ha, heq⟩ := subscribe_cases e ob
  · have hS : Happening.after S (.subscribe ob) = S := by
      cases ob with
      | none => rfl
      | some a => exact Finset.insert_eq_of_mem ((h.mem a).1 (hmem a rfl))
    rw [heq, hS]
    exact h
  · have hreduce : (e.obs ++ [some a]).reduceOption = e.obs.reduceOption ++ [a] := by
      rw [reduceOption_append, reduceOption_singleton, Option.toList_some]
    rw [heq]
    constructor
    case n =>
      rw [hreduce, length_append, ← h.n]
      rfl
    case nodup =>
      rw [hreduce, nodup_append]
      refine ⟨h.nodup, nodup_singleton a, ?_⟩
      rintro b hb c hc rfl
      rw [mem_singleton.1 hc] at hb
      exact ha (reduceOption_mem_iff.1 hb)
    case mem =>
      intro b
      change some b ∈ e.obs ++ [some a] ↔ b ∈ insert a S
      rw [mem_append, mem_singleton, Finset.mem_insert, h.mem, Option.some_inj, or_comm]

theorem reduceOption_set_idxOf (obs : List (Option Ob)) (a : Ob) :
    (obs.set (obs.idxOf (some a)) none).reduceOption = obs.reduceOption.erase a := by
  induction obs with
  | nil => rfl
  | cons x obs ih =>
    by_cases hx : x = some a
    · rw [hx, idxOf_cons_self, set_cons_zero, reduceOption_cons_of_none, reduceOption_cons_of_some,
        erase_cons_head]
    · rw [idxOf_cons_ne _ hx, set_cons_succ]
      cases x with
      | none => rw [reduceOption_cons_of_none, reduceOption_cons_of_none, ih]
      | some b =>
        have hba : ¬(b == a) = true := fun hba => hx (congrArg some (beq_iff_eq.1 hba))
        rw [reduceOption_cons_of_some, reduceOption_cons_of_some, erase_cons_tail hba, ih]

theorem unsubscribe_of_mem (ha : some a ∈ e.obs) :
    unsubscribe e (some a) = (⟨e.n - 1, e.obs.set (e.obs.idxOf (some a)) none⟩, 0) :=
  if_pos ha

theorem unsubscribe_of_notMem (ha : some a ∉ e.obs) : unsubscribe e (some a) = (e, -1) :=
  if_neg ha

theorem obs_unsubscribe (e : Event Ob) (a : Ob) :
    (unsubscribe e (some a)).1.obs = e.obs.set (e.obs.idxOf (some a)) none := by
  by_cases ha : some a ∈ e.obs
  · rw [unsubscribe_of_mem ha]
  · rw [unsubscribe_of_notMem ha, idxOf_eq_length ha, set_eq_of_length_le le_rfl]

theorem Holds.unsubscribe (h : Holds e S) (ob : Option Ob) :
    Holds (unsubscribe e ob).1 (Happening.after S (.unsubscribe ob)) := by
  cases ob with
  | none => exact h
  | some a =>
    have hreduce : (SynchronousEvent.unsubscribe e (some a)).1.obs.reduceOption
        = e.obs.reduceOption.erase a := by
      rw [obs_unsubscribe, reduceOption_set_idxOf]
    constructor
    case n =>
      rw [hreduce]
      by_cases ha : some a ∈ e.obs
      · rw [length_erase_of_mem (reduceOption_mem_iff.2 ha), ← h.n, unsubscribe_of_mem ha]
      · rw [erase_of_not_mem fun hmem => ha (reduceOption_mem_iff.1 hmem), ← h.n,
          unsubscribe_of_notMem ha]
    case nodup =>
      rw [hreduce]
      exact h.nodup.erase a
    case mem =>
      intro b
      rw [← reduceOption_mem_iff, hreduce, h.nodup.mem_erase_iff, reduceOption_mem_iff, h.mem]
      exact Finset.mem_erase.symm

omit [DecidableEq Ob] in
theorem reduceOption_eq_nil (h : ∀ x ∈ obs, x = none) : obs.reduceOption = [] := by
  rw [reduceOption_eq_nil_iff]
  exact ⟨obs.length, eq_replicate_iff.2 ⟨rfl, h⟩⟩

omit [DecidableEq Ob] in
theorem holds_clear (e : Event Ob) : Holds (clear e) ∅ := by
  have hnone : ∀ x ∈ (clear e).obs, x = none := by
    intro x hx
    obtain ⟨_, -, rfl⟩ := mem_map.1 hx
    rfl
  constructor
  case n =>
    rw [reduceOption_eq_nil hnone]
    rfl
  case nodup =>
    rw [reduceOption_eq_nil hnone]
    exact nodup_nil
  case mem =>
    intro a
    constructor
    · exact fun ha => absurd (hnone _ ha) nofun
    · exact fun ha => absurd ha (Finset.notMem_empty a)

/-! ## `_shrink` closes the holes -/

section

omit [DecidableEq Ob]

/-- The observers before `it2` are at the front, and nothing from there on is written. -/
theorem moveDown_eq (h : k ≤ obs.length) :
    moveDown obs k = ((obs.take k).reduceOption.map some ++ obs.drop (obs.take k).reduceOption.length,
      (obs.take k).reduceOption.length) := by
  induction k with
  | zero => rfl
  | succ k ih =>
    have hlen : (obs.take k).reduceOption.length ≤ k :=
      (reduceOption_length_le _).trans (length_take_le k obs)
    have hget : ((obs.take k).reduceOption.map some ++
        obs.drop (obs.take k).reduceOption.length).getD k none = obs[k] := by
      rw [getD_eq_getElem?_getD, getElem?_append_right (by rwa [length_map]), length_map,
        getElem?_drop, Nat.add_sub_cancel' hlen, getElem?_eq_getElem h]
      rfl
    have hstep : moveDown obs (k + 1) = match (moveDown obs k).1.getD k none with
        | some a => ((moveDown obs k).1.set (moveDown obs k).2 (some a), (moveDown obs k).2 + 1)
        | none => moveDown obs k := by
      unfold moveDown
      rw [range_succ, foldl_concat]
    rw [hstep, ih (Nat.le_of_succ_le h), hget, take_succ_eq_append_getElem h, reduceOption_append]
    cases hobs : obs[k] with
    | none => rw [reduceOption_singleton, Option.toList_none, append_nil]
    | some a =>
      dsimp only
      rw [reduceOption_singleton, Option.toList_some, length_append, length_singleton, map_append,
        set_append_right _ _ (length_map _).le, length_map, Nat.sub_self, append_assoc,
        drop_eq_getElem_cons (hlen.trans_lt h), set_cons_zero]
      rfl

theorem map_some_reduceOption (h : none ∉ obs) : obs.reduceOption.map some = obs := by
  induction obs with
  | nil => rfl
  | cons x obs ih =>
    rw [mem_cons, not_or] at h
    cases x with
    | none => exact absurd rfl h.1
    | some a => rw [reduceOption_cons_of_some, map_cons, ih h.2]

theorem shrink_eq (h : e.n = e.obs.reduceOption.length) :
    shrink e = ⟨e.n, e.obs.reduceOption.map some⟩ := by
  unfold shrink
  split
  case isTrue hfull =>
    have hall : ∀ x ∈ e.obs, x.isSome = true := reduceOption_length_eq_iff.1 (h.symm.trans hfull)
    rw [map_some_reduceOption fun hnone => absurd (hall none hnone) nofun]
  case isFalse =>
    rw [moveDown_eq le_rfl, take_length, resize, h, take_left' (length_map _), length_append,
      length_map, Nat.sub_eq_zero_of_le (Nat.le_add_right ..), replicate_zero, append_nil]

theorem Holds.shrink (h : Holds e S) : Holds (shrink e) S := by
  have hreduce : (e.obs.reduceOption.map some).reduceOption = e.obs.reduceOption := by
    unfold reduceOption
    rw [filterMap_map]
    exact filterMap_some
  rw [shrink_eq h.n]
  constructor
  case n =>
    rw [hreduce]
    exact h.n
  case nodup =>
    rw [hreduce]
    exact h.nodup
  case mem =>
    intro a
    rw [← reduceOption_mem_iff, hreduce, reduceOption_mem_iff, h.mem]

end

/-! ## What was seen -/

/-- The calls of the observer since it was removed. -/
def Happening.tally (a : Ob) (n : ℕ) : Happening Ob → ℕ
  | .called b => if b = a then n + 1 else n
  | .unsubscribe (some b) => if b = a then 0 else n
  | .clear => 0
  | _ => n

def tally (a : Ob) (seen : List (Happening Ob)) : ℕ :=
  seen.foldl (Happening.tally a) 0

@[simp] theorem subscribedAfter_concat (S : Finset Ob) (seen : List (Happening Ob)) (x : Happening Ob) :
    subscribedAfter S (seen ++ [x]) = x.after (subscribedAfter S seen) :=
  foldl_concat ..

@[simp] theorem tally_concat (a : Ob) (seen : List (Happening Ob)) (x : Happening Ob) :
    tally a (seen ++ [x]) = x.tally a (tally a seen) :=
  foldl_concat ..

theorem CallsSubscribed.concat (h : CallsSubscribed S seen)
    (hx : ∀ a, x = .called a → a ∈ subscribedAfter S seen) :
    CallsSubscribed S (seen ++ [x]) := by
  intro pre a post heq
  rcases eq_nil_or_concat post with rfl | ⟨post', y, rfl⟩
  · obtain ⟨rfl, hxa⟩ := append_inj' heq rfl
    exact hx a (singleton_inj.1 hxa)
  · rw [concat_eq_append, ← cons_append, ← append_assoc] at heq
    exact h pre a post' (append_inj' heq rfl).1

theorem CallsSubscribed.initial (h : CallsSubscribed S (seen ++ post)) : CallsSubscribed S seen := by
  rintro pre a rest rfl
  exact h pre a (rest ++ post) (append_assoc ..)

theorem CallsSubscribed.tally_eq_zero (h : CallsSubscribed S seen) (ha : a ∉ subscribedAfter S seen) :
    tally a seen = 0 := by
  induction seen using reverseRecOn with
  | nil => rfl
  | append_singleton seen x ih =>
    have hseen := h.initial
    rw [subscribedAfter_concat] at ha
    rw [tally_concat]
    cases x with
    | subscribe ob =>
      apply ih hseen
      cases ob with
      | none => exact ha
      | some b => exact fun hmem => ha (Finset.mem_insert_of_mem hmem)
    | unsubscribe ob =>
      cases ob with
      | none => exact ih hseen ha
      | some b =>
        by_cases hba : b = a
        · exact if_pos hba
        · have hmem : a ∉ subscribedAfter S seen := fun hmem => ha (Finset.mem_erase.2 ⟨.symm hba, hmem⟩)
          exact (if_neg hba).trans (ih hseen hmem)
    | clear => rfl
    | called b =>
      have hba : b ≠ a := by
        rintro rfl
        exact ha (h seen b [] rfl)
      exact (if_neg hba).trans (ih hseen ha)

omit [DecidableEq Ob] in
theorem Stays.initial (h : Stays a (seen ++ [x])) : Stays a seen :=
  ⟨fun hmem => h.1 (mem_append_left _ hmem), fun hmem => h.2 (mem_append_left _ hmem)⟩

theorem Stays.mem_subscribedAfter (h : Stays a seen) (ha : a ∈ S) : a ∈ subscribedAfter S seen := by
  induction seen using reverseRecOn with
  | nil => exact ha
  | append_singleton seen x ih =>
    have hmem := ih h.initial
    rw [subscribedAfter_concat]
    cases x with
    | subscribe ob =>
      cases ob with
      | none => exact hmem
      | some b => exact Finset.mem_insert_of_mem hmem
    | unsubscribe ob =>
      cases ob with
      | none => exact hmem
      | some b =>
        have hab : a ≠ b := by
          rintro rfl
          exact h.1 mem_concat_self
        exact Finset.mem_erase.2 ⟨hab, hmem⟩
    | clear => exact absurd mem_concat_self h.2
    | called b => exact hmem

theorem Stays.tally_append (h : Stays a post) (pre : List (Happening Ob)) :
    tally a (pre ++ post) = tally a pre + post.count (.called a) := by
  induction post using reverseRecOn with
  | nil => rw [append_nil, count_nil, Nat.add_zero]
  | append_singleton post x ih =>
    rw [← append_assoc, tally_concat, ih h.initial, count_append, count_singleton, ← Nat.add_assoc]
    cases x with
    | subscribe ob => rfl
    | unsubscribe ob =>
      cases ob with
      | none => rfl
      | some b =>
        have hba : b ≠ a := by
          rintro rfl
          exact h.1 mem_concat_self
        exact if_neg hba
    | clear => exact absurd mem_concat_self h.2
    | called b =>
      by_cases hba : b = a
      · simp [Happening.tally, hba]
      · simp [Happening.tally, hba]

/-! ## A notify passes the observers -/

/-- The notify goes on at index `k`: it has called the observers before `k`, once since they were
subscribed or it began, and none from there on. -/
structure Passed (obs : List (Option Ob)) (S : Finset Ob) (k : ℕ) (f : Notify Ob) : Prop where
  replays : subscribedAfter f.began f.seen = S
  calls : CallsSubscribed f.began f.seen
  before : ∀ a, some a ∈ obs.take k → tally a f.seen = 1
  after : ∀ a, some a ∈ obs.drop k → tally a f.seen = 0

theorem Passed.tally_eq_zero (h : Passed obs S k f) (ha : a ∉ S) : tally a f.seen = 0 :=
  h.calls.tally_eq_zero (by rwa [h.replays])

/-- The vector changes, where the observers are on the same side of `k`. -/
theorem Passed.sees (h : Passed obs S k f) (hx : ∀ a, x ≠ .called a)
    (hbefore : ∀ a, some a ∈ obs'.take k → some a ∈ obs.take k ∧ x.tally a 1 = 1)
    (hafter : ∀ a, some a ∈ obs'.drop k → (some a ∈ obs.drop k ∨ a ∉ S) ∧ x.tally a 0 = 0) :
    Passed obs' (x.after S) k { f with seen := f.seen ++ [x] } := by
  constructor
  case replays => rw [subscribedAfter_concat, h.replays]
  case calls => exact h.calls.concat fun a heq => absurd heq (hx a)
  case before =>
    intro a ha
    obtain ⟨hmem, htally⟩ := hbefore a ha
    rw [tally_concat, h.before a hmem, htally]
  case after =>
    intro a ha
    obtain ⟨hmem, htally⟩ := hafter a ha
    have hzero : tally a f.seen = 0 := hmem.elim (h.after a) h.tally_eq_zero
    rw [tally_concat, hzero, htally]

theorem Passed.subscribe (h : Passed e.obs S k f) (hold : Holds e S) (ob : Option Ob)
    (hk : ∀ a ∈ ob, some a ∉ e.obs → k ≤ e.obs.length) :
    Passed (subscribe e ob).1.obs (Happening.after S (.subscribe ob)) k
      { f with seen := f.seen ++ [.subscribe ob] } := by
  apply h.sees (x := .subscribe ob) fun _ => nofun
  case hbefore =>
    intro a ha
    refine ⟨?_, rfl⟩
    obtain ⟨heq, -⟩ | ⟨b, rfl, hb, heq⟩ := subscribe_cases e ob
    · rwa [heq] at ha
    · rwa [heq, take_append_of_le_length (hk b rfl hb)] at ha
  case hafter =>
    intro a ha
    refine ⟨?_, rfl⟩
    obtain ⟨heq, -⟩ | ⟨b, rfl, hb, heq⟩ := subscribe_cases e ob
    · rw [heq] at ha
      exact .inl ha
    · rw [heq, drop_append_of_le_length (hk b rfl hb), mem_append, mem_singleton, Option.some_inj] at ha
      rcases ha with ha | rfl
      · exact .inl ha
      · exact .inr fun hmem => hb ((hold.mem a).2 hmem)

theorem Passed.unsubscribe (h : Passed e.obs S k f) (hold : Holds e S) (ob : Option Ob) :
    Passed (unsubscribe e ob).1.obs (Happening.after S (.unsubscribe ob)) k
      { f with seen := f.seen ++ [.unsubscribe ob] } := by
  cases ob with
  | none => exact h.sees (fun _ => nofun) (fun a ha => ⟨ha, rfl⟩) fun a ha => ⟨.inl ha, rfl⟩
  | some b =>
    have hold' := hold.unsubscribe (some b)
    have hne : ∀ a, some a ∈ (SynchronousEvent.unsubscribe e (some b)).1.obs → b ≠ a := by
      rintro a ha rfl
      exact Finset.notMem_erase b S ((hold'.mem b).1 ha)
    apply h.sees (x := .unsubscribe (some b)) fun _ => nofun
    case hbefore =>
      intro a ha
      refine ⟨?_, if_neg (hne a (mem_of_mem_take ha))⟩
      rw [obs_unsubscribe, take_set] at ha
      exact (mem_or_eq_of_mem_set ha).resolve_right nofun
    case hafter =>
      intro a ha
      refine ⟨.inl ?_, if_neg (hne a (mem_of_mem_drop ha))⟩
      rw [obs_unsubscribe, drop_set] at ha
      split at ha
      case isTrue => exact ha
      case isFalse => exact (mem_or_eq_of_mem_set ha).resolve_right nofun

theorem Passed.clear (h : Passed e.obs S k f) :
    Passed (clear e).obs ∅ k { f with seen := f.seen ++ [.clear] } := by
  have hnone : ∀ a, some a ∉ (SynchronousEvent.clear e).obs :=
    fun a ha => absurd (((holds_clear e).mem a).1 ha) (Finset.notMem_empty a)
  exact h.sees (x := .clear) (fun _ => nofun) (fun a ha => absurd (mem_of_mem_take ha) (hnone a))
    fun a ha => absurd (mem_of_mem_drop ha) (hnone a)

theorem Passed.shrink (h : Passed obs S k f) (hk : none ∉ obs.take k ∨ ∀ x ∈ obs.drop k, x = none) :
    Passed (obs.reduceOption.map some) S k f := by
  have hsplit : obs.reduceOption = (obs.take k).reduceOption ++ (obs.drop k).reduceOption := by
    rw [← reduceOption_append, take_append_drop]
  have hmem : ∀ a (l : List (Option Ob)), some a ∈ l.reduceOption.map some ↔ some a ∈ l := by
    intro a l
    rw [mem_map_of_injective (Option.some_injective Ob), reduceOption_mem_iff]
  by_cases hnone : ∀ x ∈ obs.drop k, x = none
  · -- All observers are before `k`, and stay there.
    rw [hsplit, reduceOption_eq_nil hnone, append_nil]
    have hlen : ((obs.take k).reduceOption.map some).length ≤ k := by
      rw [length_map]
      exact (reduceOption_length_le _).trans (length_take_le k obs)
    refine ⟨h.replays, h.calls, fun a ha => ?_, fun a ha => ?_⟩
    · rw [take_of_length_le hlen, hmem] at ha
      exact h.before a ha
    · rw [drop_eq_nil_of_le hlen] at ha
      exact absurd ha not_mem_nil
  · -- There is no hole before `k`: nothing moves across it.
    have hfull : (obs.take k).reduceOption.map some = obs.take k :=
      map_some_reduceOption (hk.resolve_right hnone)
    have hlen : (obs.take k).length = k := by
      rw [length_take]
      apply min_eq_left
      by_contra hlt
      rw [drop_eq_nil_of_le (le_of_lt (not_le.1 hlt))] at hnone
      exact hnone nofun
    rw [hsplit, map_append, hfull]
    refine ⟨h.replays, h.calls, fun a ha => ?_, fun a ha => ?_⟩
    · rw [take_left' hlen] at ha
      exact h.before a ha
    · rw [drop_left' hlen, hmem] at ha
      exact h.after a ha

omit [DecidableEq Ob] in
theorem next_eq_some (h : next obs i = some (j, a)) :
    ∃ m rest, obs = replicate m none ++ some a :: rest ∧ j = i + m := by
  induction obs generalizing i with
  | nil => exact absurd h nofun
  | cons x obs ih =>
    cases x with
    | none =>
      obtain ⟨m, rest, rfl, rfl⟩ := ih h
      exact ⟨m + 1, rest, rfl, by lia⟩
    | some b =>
      obtain ⟨rfl, rfl⟩ := Prod.mk.inj (Option.some.inj h)
      exact ⟨0, obs, rfl, rfl⟩

omit [DecidableEq Ob] in
theorem next_eq_none (h : next obs i = none) : ∀ x ∈ obs, x = none := by
  induction obs generalizing i with
  | nil => exact nofun
  | cons x obs ih =>
    cases x with
    | none => exact forall_mem_cons.2 ⟨rfl, ih h⟩
    | some b => exact absurd h nofun

theorem Passed.call (h : Passed e.obs S k f) (hold : Holds e S)
    (hnext : next (e.obs.drop k) k = some (j, a)) :
    Passed e.obs S (j + 1) ⟨j, f.began, f.seen ++ [.called a]⟩ := by
  obtain ⟨m, rest, hdrop, rfl⟩ := next_eq_some hnext
  have hobs : e.obs = e.obs.take k ++ replicate m none ++ [some a] ++ rest := by
    rw [append_assoc, singleton_append, append_assoc, ← hdrop, take_append_drop]
  have hlen : (e.obs.take k ++ replicate m none ++ [some a]).length = k + m + 1 := by
    rw [length_append, length_append, length_replicate, length_singleton, length_take, min_eq_left]
    by_contra hlt
    rw [drop_eq_nil_of_le (le_of_lt (not_le.1 hlt))] at hdrop
    exact append_ne_nil_of_right_ne_nil _ (cons_ne_nil _ _) hdrop.symm
  have hmid : some a ∈ e.obs.drop k := by
    rw [hdrop]
    exact mem_append_right _ mem_cons_self
  have hnodup := hold.nodup
  rw [hobs, reduceOption_append, reduceOption_append, reduceOption_append,
    reduceOption_replicate_none, append_nil, reduceOption_singleton, Option.toList_some,
    nodup_append, nodup_append] at hnodup
  obtain ⟨⟨-, -, hleft⟩, -, hright⟩ := hnodup
  constructor
  case replays =>
    rw [subscribedAfter_concat]
    exact h.replays
  case calls =>
    apply h.calls.concat
    rintro b hb
    cases hb
    rw [h.replays, ← hold.mem]
    exact mem_of_mem_drop hmid
  case before =>
    intro c hc
    rw [hobs, take_left' hlen, mem_append, mem_append, mem_singleton, Option.some_inj] at hc
    rw [tally_concat]
    rcases hc with (hc | hc) | rfl
    · have hca : a ≠ c := fun heq =>
        hleft c (reduceOption_mem_iff.2 hc) a (mem_singleton_self a) heq.symm
      exact (if_neg hca).trans (h.before c hc)
    · exact absurd (eq_of_mem_replicate hc) nofun
    · exact (if_pos rfl).trans (congrArg (· + 1) (h.after c hmid))
  case after =>
    intro c hc
    rw [hobs, drop_left' hlen] at hc
    rw [tally_concat]
    have hca : a ≠ c :=
      hright a (mem_append_right _ (mem_singleton_self a)) c (reduceOption_mem_iff.2 hc)
    refine (if_neg hca).trans (h.after c ?_)
    rw [hdrop]
    exact mem_append_right _ (mem_cons_of_mem _ hc)

theorem Passed.callsAll (h : Passed e.obs S k f) (hold : Holds e S)
    (hnone : ∀ x ∈ e.obs.drop k, x = none) :
    CallsAll f.began f.seen := by
  have hone : ∀ a ∈ subscribedAfter f.began f.seen, tally a f.seen = 1 := by
    intro a ha
    rw [h.replays, ← hold.mem, ← take_append_drop k e.obs, mem_append] at ha
    exact h.before a (ha.resolve_right fun hmem => absurd (hnone _ hmem) nofun)
  constructor
  case throughout =>
    intro a ha hstays
    have htally : tally a ([] ++ f.seen) = 0 + f.seen.count (.called a) := hstays.tally_append []
    rw [nil_append, hone a (hstays.mem_subscribedAfter ha), Nat.zero_add] at htally
    exact htally.symm
  case newly =>
    intro pre a post hseen ha hstays
    have hmem : a ∈ subscribedAfter f.began f.seen := by
      rw [hseen, subscribedAfter, foldl_append]
      exact hstays.mem_subscribedAfter (Finset.mem_insert_self ..)
    have hcalls : CallsSubscribed f.began (pre ++ .subscribe (some a) :: post) := hseen ▸ h.calls
    have htally := hstays.tally_append (pre ++ [.subscribe (some a)])
    rw [append_assoc, singleton_append, ← hseen, hone a hmem, tally_concat] at htally
    have hzero : Happening.tally a (tally a pre) (.subscribe (some a)) = 0 :=
      hcalls.initial.tally_eq_zero ha
    rw [hzero, Nat.zero_add] at htally
    exact htally.symm

/-! ## Runs -/

structure Inv (s : State Ob) : Prop where
  holds : Holds s.event s.subscribed
  running : ∀ f ∈ s.notifies, Passed s.event.obs s.subscribed (f.i + 1) f
  ended : ∀ f ∈ s.ended, CallsSubscribed f.began f.seen ∧ CallsAll f.began f.seen

theorem Inv.sees (h : Inv s) (hold : Holds e (x.after s.subscribed))
    (hpassed : ∀ f ∈ s.notifies, Passed e.obs (x.after s.subscribed) (f.i + 1) { f with seen :=
  f.seen ++ [x] }) :
    Inv (s.sees x e) := by
  refine ⟨hold, ?_, h.ended⟩
  intro f hf
  obtain ⟨g, hg, rfl⟩ := mem_map.1 hf
  exact hpassed g hg

theorem Inv.loop (h : Inv s) (hf : Passed s.event.obs s.subscribed k f)
    (houter : ∀ g ∈ outer, g ∈ s.notifies)
    (hholes : (∀ x ∈ s.event.obs.drop k, x = none) → ∀ g ∈ outer,
      none ∉ s.event.obs.take (g.i + 1) ∨ ∀ x ∈ s.event.obs.drop (g.i + 1), x = none) :
    Inv (loop s f outer k) := by
  unfold SynchronousEvent.loop
  split
  case h_1 j a hnext =>
    refine ⟨h.holds, ?_, h.ended⟩
    rintro g hg
    rcases mem_cons.1 hg with rfl | hg
    · exact hf.call h.holds hnext
    · exact h.running g (houter g hg)
  case h_2 hnext =>
    have hnone := next_eq_none hnext
    refine ⟨h.holds.shrink, ?_, ?_⟩
    · intro g hg
      rw [shrink_eq h.holds.n]
      exact (h.running g (houter g hg)).shrink (hholes hnone g hg)
    · intro g hg
      rcases mem_cons.1 hg with rfl | hg
      · exact ⟨hf.calls, hf.callsAll h.holds hnone⟩
      · exact h.ended g hg

theorem step_returns_nil (hs : s.notifies = []) : step s .returns = s := by
  simp only [step, hs]

theorem step_returns_cons (hs : s.notifies = f :: outer) :
    step s .returns = loop s f outer (f.i + 1) := by
  simp only [step, hs]

theorem Inv.step {act : Act Ob} (h : Inv s) (hact : Undisturbed s act) : Inv (step s act) := by
  cases act with
  | subscribe ob =>
    apply h.sees (h.holds.subscribe ob)
    intro f hf
    apply (h.running f hf).subscribe h.holds ob
    rintro a ha hnew
    cases ha
    exact hact hnew f hf
  | unsubscribe ob => exact h.sees (h.holds.unsubscribe ob) fun f hf =>
    (h.running f hf).unsubscribe h.holds ob
  | clear => exact h.sees (holds_clear s.event) fun f hf => (h.running f hf).clear
  | notify =>
    have hbegins : Passed s.event.obs s.subscribed 0 ⟨0, s.subscribed, []⟩ := by
      constructor
      case replays => rfl
      case calls => exact fun pre a post heq => absurd heq.symm (append_ne_nil_of_right_ne_nil _ (cons_ne_nil _ _))
      case before => exact fun a ha => absurd ha not_mem_nil
      case after => exact fun a ha => rfl
    exact h.loop hbegins (fun g hg => hg) fun hnone g _ => .inr fun x hx => hnone x (mem_of_mem_drop hx)
  | returns =>
    unfold Undisturbed at hact
    cases hs : s.notifies with
    | nil =>
      rw [step_returns_nil hs]
      exact h
    | cons f outer =>
      rw [step_returns_cons hs]
      rw [hs] at hact
      exact h.loop (h.running f (hs ▸ mem_cons_self)) (fun g hg => hs ▸ mem_cons_of_mem f hg) hact

theorem inv_start : Inv (start Ob) where
  holds := holds_clear ⟨0, []⟩
  running _ hf := absurd hf not_mem_nil
  ended _ hf := absurd hf not_mem_nil

structure Serves (s : State Ob) : Prop where
  size_eq : size s.event = s.subscribed.card
  calls : ∀ f ∈ s.notifies ++ s.ended, CallsSubscribed f.began f.seen
  all : ∀ f ∈ s.ended, CallsAll f.began f.seen

/-- **Undisturbed notifies serve the observers.** -/
theorem run_serves {as : List (Act Ob)} (h : Along step Undisturbed (start Ob) as) :
    Serves (runFrom step (start Ob) as) := by
  have hinv : Inv (runFrom step (start Ob) as) := h.run (fun _ _ hs hact => hs.step hact) inv_start
  refine ⟨hinv.holds.size_eq, fun f hf => ?_, fun f hf => (hinv.ended f hf).2⟩
  rcases mem_append.1 hf with hf | hf
  · exact (hinv.running f hf).calls
  · exact (hinv.ended f hf).1

/-- The second observer notifies again, and is called again: it subscribes the third one then, and
removes it after that. -/
theorem run_serves_nested :
    Serves
    (runFrom step (start ℕ) [.subscribe (some 1), .subscribe (some 2), .notify, .returns, .notify,
    .returns,
      .subscribe (some 3), .returns, .returns, .unsubscribe (some 3), .returns]) :=
  run_serves (by decide)

/-- The second observer removes the first one and notifies again, where all return. The third one
moves to the index of the outer notify and is not called. -/
theorem not_serves : ¬∀ as : List (Act ℕ), Serves (runFrom step (start ℕ) as) := by
  intro h
  have hserves := h [.subscribe (some 1), .subscribe (some 2), .subscribe (some 3), .notify, .returns,
    .unsubscribe (some 1), .notify, .returns, .returns, .returns]
  have hended := hserves.all ⟨1, {3, 2, 1}, [.called 1, .called 2, .unsubscribe (some 1)]⟩ mem_cons_self
  have hone := hended.throughout 3 (by decide) ⟨by decide, by decide⟩
  exact absurd hone (by decide)

end Eabase.Utility.SynchronousEvent
