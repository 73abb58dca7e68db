import Mathlib.Data.List.Infix
import Mathlib.Data.List.TakeWhile
import Eabase.Lib.Machine

/-!
# ThreadExit

`thread_atexit` puts a function and its argument behind the others in a helper,
which a key of the thread holds. When the thread exits, the helper is taken out
of the slot of the key and deleted, which calls the functions, the last one
first. What these register goes into a helper of its own, whose turn comes in
the next round of destructors, and what they cancel is looked for there.

`thread_atexit_cancel` takes the first equal pairs that stand together. So a
registration is served as long as equal pairs stand together when they are
cancelled, none is cancelled that the exit has taken already, and nothing is
registered in the last round.
-/

namespace Eabase.Utility.ThreadExit

open Lib List

variable {F A : Type*} [DecidableEq F] [DecidableEq A]

/-! ## The machine -/

/-- A pair in `_fns`, with the number of the call that put it there. -/
structure Reg (F A : Type*) where
  id : ℕ
  pair : F × A
  deriving DecidableEq

/-- A thread of its own, or the one that runs `main`. -/
inductive Kind where
  | pthread
  | main

/-- `PTHREAD_DESTRUCTOR_ITERATIONS` of the C library. -/
def PTHREAD_DESTRUCTOR_ITERATIONS : ℕ := 4

/-- How many helpers are deleted: by the destructor of the key, or by `helper_exit_global`. -/
def Kind.rounds : Kind → ℕ
  | .pthread => PTHREAD_DESTRUCTOR_ITERATIONS
  | .main => 1

inductive Errno where
  | EINVAL
  | ENOMEM
  deriving DecidableEq

/-- Where the thread is: in a function that `~ThreadExitHelper` called, `fns` are to be called after
it, and then there are `rounds` more helpers to delete. -/
inductive Phase (F A : Type*) where
  | alive
  | calling (fns : List (Reg F A)) (rounds : ℕ)
  | gone
  deriving DecidableEq

inductive Event (F A : Type*) where
  | registered (r : Reg F A)
  | cancelled (p : F × A)
  | called (r : Reg F A)
  deriving DecidableEq

/-- The helper in the slot of the key. What is kept besides: how many registrations there were, and
had been when the exit began, and what happened, the last first. -/
structure State (F A : Type*) where
  slot : Option (List (Reg F A))
  phase : Phase F A
  next : ℕ
  before : ℕ
  history : List (Event F A)

def start (F A : Type*) : State F A where
  slot := none
  phase := .alive
  next := 0
  before := 0
  history := []

/-- One label of a run. A function may be `NULL`; `new` and `emplace` say whether there is memory
for the helper and for the pair. With `go` the thread exits, or the function that it is in
returns. -/
inductive Act (F A : Type*) where
  | atexit (fn : Option F) (arg : A) (new emplace : Bool)
  | cancel (fn : Option F) (arg : A)
  | go

/-- `ThreadExitHelper::add`. -/
def add (fns : List (Reg F A)) (r : Reg F A) : List (Reg F A) :=
  fns ++ [r]

/-- `ThreadExitHelper::remove`. -/
def remove (fns : List (Reg F A)) (p : F × A) : List (Reg F A) :=
  fns.takeWhile (·.pair ≠ p) ++ (fns.dropWhile (·.pair ≠ p)).dropWhile (·.pair = p)

section

variable (s : State F A)

def getOrNewThreadExitHelper (new : Bool) : Option (List (Reg F A)) :=
  match s.slot with
  | some fns => some fns
  | none => if new then some [] else none

/-- `thread_atexit`, and its `errno`. That of a function without argument registers
`call_single_arg_fn` with the function. -/
def threadAtexit (fn : Option F) (arg : A) (new emplace : Bool) : Option Errno × State F A :=
  match fn with
  | none => (some .EINVAL, s)
  | some f =>
    match getOrNewThreadExitHelper s new with
    | none => (some .ENOMEM, s)
    | some fns =>
      if emplace then
        (none, { s with
          slot := some (add fns ⟨s.next, f, arg⟩)
          next := s.next + 1
          history := .registered ⟨s.next, f, arg⟩ :: s.history })
      else (some .ENOMEM, { s with slot := some fns })

def threadAtexitCancel (fn : Option F) (arg : A) : State F A :=
  match fn with
  | none => s
  | some f =>
    { s with
      slot := s.slot.map (remove · (f, arg))
      history := .cancelled (f, arg) :: s.history }

/-- A turn of the loop of `~ThreadExitHelper`, unless it is over. -/
def callBack (fns : List (Reg F A)) (rounds : ℕ) (atEnd : State F A) : State F A :=
  match fns.getLast? with
  | none => atEnd
  | some back => { s with phase := .calling fns.dropLast rounds, history := .called back :: s.history }

/-- The key's destructor, if there is a helper; one without functions leaves the slot empty, and
that is the last round. -/
def beginRound : ℕ → State F A
  | 0 => { s with phase := .gone }
  | rounds + 1 =>
    match s.slot with
    | none => { s with phase := .gone }
    | some fns => callBack { s with slot := none } fns rounds { s with slot := none, phase := .gone }

end

def goStep (kind : Kind) (s : State F A) : State F A :=
  match s.phase with
  | .alive => beginRound { s with before := s.next } kind.rounds
  | .calling fns rounds => callBack s fns rounds (beginRound s rounds)
  | .gone => s

def step (kind : Kind) (s : State F A) : Act F A → State F A
  | .atexit fn arg new emplace => if s.phase = .gone then s else (threadAtexit s fn arg new emplace).2
  | .cancel fn arg => if s.phase = .gone then s else threadAtexitCancel s fn arg
  | .go => goStep kind s

/-! ## What holds -/

/-- The registrations that no later cancel matches, the last first. -/
def live : List (Event F A) → List (Reg F A)
  | [] => []
  | .registered r :: h => r :: live h
  | .cancelled p :: h => (live h).filter (·.pair ≠ p)
  | .called _ :: h => live h

/-- Functions are called once, the last first, unless they were cancelled. -/
structure Served (s : State F A) : Prop where
  once : ∀ r, s.history.count (.called r) ≤ 1
  /-- Only what is registered and was not cancelled after it is called, -/
  called : ∀ r h, .called r :: h <:+ s.history → r ∈ live h
  /-- so a pair is not after it was cancelled, until it is registered again. -/
  cancelled : ∀ p newer older, s.history = newer ++ .cancelled p :: older →
    (∀ r, r.pair = p → .registered r ∉ newer) → ∀ r, r.pair = p → .called r ∉ newer
  /-- Of what was registered before the exit began, the last is called first. -/
  order : ∀ r r' h, .called r' :: h <:+ s.history → .called r ∈ h → r.id < s.before →
    r'.id < s.before → r'.id < r.id
  complete : s.phase = .gone → ∀ r ∈ live s.history, .called r ∈ s.history

/-- What the running destructor has still to call. -/
def State.fns (s : State F A) : List (Reg F A) :=
  match s.phase with
  | .calling fns _ => fns
  | _ => []

/-- A function runs, and no helper is deleted after the one that it is from. -/
def State.lastRound (s : State F A) : Bool :=
  match s.phase with
  | .calling _ 0 => true
  | _ => false

/-- Behind the first pairs `p` that stand together there is no other one. -/
def Together (fns : List (Reg F A)) (p : F × A) : Prop :=
  ∀ r ∈ (fns.dropWhile (·.pair ≠ p)).dropWhile (·.pair = p), r.pair ≠ p

instance (fns : List (Reg F A)) (p : F × A) : Decidable (Together fns p) :=
  inferInstanceAs (Decidable (∀ r ∈ _, _))

def Heeds (s : State F A) : Act F A → Prop
  | .atexit _ _ _ _ => s.lastRound = false
  | .cancel fn arg => ∀ f ∈ fn, Together (s.slot.getD []) (f, arg) ∧ ∀ r ∈ s.fns, r.pair ≠ (f, arg)
  | .go => True

instance (s : State F A) (act : Act F A) : Decidable (Heeds s act) := by
  cases act with
  | atexit fn arg new emplace => exact inferInstanceAs (Decidable (_ = _))
  | cancel fn arg => exact inferInstanceAs (Decidable (∀ f ∈ fn, _))
  | go => exact isTrue trivial

/-! ## What is to be called -/

/-- The registrations that are neither cancelled nor called, the last first. -/
def pending : List (Event F A) → List (Reg F A)
  | [] => []
  | .registered r :: h => r :: pending h
  | .cancelled p :: h => (pending h).filter (·.pair ≠ p)
  | .called r :: h => (pending h).filter (· ≠ r)

theorem live_of_pending {h : List (Event F A)} {r : Reg F A} (hr : r ∈ pending h) : r ∈ live h := by
  induction h with
  | nil => cases hr
  | cons e h ih =>
    cases e with
    | registered r' =>
      rcases mem_cons.1 hr with rfl | hr
      · exact mem_cons_self
      · exact mem_cons_of_mem _ (ih hr)
    | cancelled p =>
      obtain ⟨hr, hne⟩ := mem_filter.1 hr
      exact mem_filter.2 ⟨ih hr, hne⟩
    | called r' => exact ih (mem_filter.1 hr).1

theorem pending_or_called {h : List (Event F A)} {r : Reg F A} (hr : r ∈ live h) :
    r ∈ pending h ∨ .called r ∈ h := by
  induction h with
  | nil => cases hr
  | cons e h ih =>
    cases e with
    | registered r' =>
      rcases mem_cons.1 hr with rfl | hr
      · exact .inl mem_cons_self
      · exact (ih hr).imp (mem_cons_of_mem _) (mem_cons_of_mem _)
    | cancelled p =>
      obtain ⟨hr, hne⟩ := mem_filter.1 hr
      exact (ih hr).imp (fun hp => mem_filter.2 ⟨hp, hne⟩) (mem_cons_of_mem _)
    | called r' =>
      obtain rfl | hrr := eq_or_ne r r'
      · exact .inr mem_cons_self
      · exact (ih hr).imp (fun hp => mem_filter.2 ⟨hp, decide_eq_true hrr⟩) (mem_cons_of_mem _)

theorem registered_of_live {newer older : List (Event F A)} {r : Reg F A}
    (hr : r ∈ live (newer ++ .cancelled r.pair :: older)) : .registered r ∈ newer := by
  induction newer with
  | nil => exact absurd (of_decide_eq_true (mem_filter.1 hr).2) (not_not.2 rfl)
  | cons e newer ih =>
    cases e with
    | registered r' =>
      rcases mem_cons.1 hr with rfl | hr
      · exact mem_cons_self
      · exact mem_cons_of_mem _ (ih hr)
    | cancelled p => exact mem_cons_of_mem _ (ih (mem_filter.1 hr).1)
    | called r' => exact mem_cons_of_mem _ (ih hr)

theorem remove_eq_filter {fns : List (Reg F A)} {p : F × A} (h : Together fns p) :
    remove fns p = fns.filter (·.pair ≠ p) := by
  have hfront : (fns.takeWhile (·.pair ≠ p)).filter (·.pair ≠ p) = fns.takeWhile (·.pair ≠ p) :=
    filter_eq_self.2 fun r hr => mem_takeWhile_imp (p := fun r : Reg F A => decide (r.pair ≠ p)) hr
  have hequal : ((fns.dropWhile (·.pair ≠ p)).takeWhile (·.pair = p)).filter (·.pair ≠ p) = [] :=
    filter_eq_nil_iff.2 fun r hr hne =>
      absurd
        (of_decide_eq_true (mem_takeWhile_imp (p := fun r : Reg F A => decide (r.pair = p)) hr))
        (of_decide_eq_true hne)
  have hback : ((fns.dropWhile (·.pair ≠ p)).dropWhile (·.pair = p)).filter (·.pair ≠ p) =
      (fns.dropWhile (·.pair ≠ p)).dropWhile (·.pair = p) :=
    filter_eq_self.2 fun r hr => decide_eq_true (h r hr)
  have hsplit : fns = fns.takeWhile (·.pair ≠ p) ++
      ((fns.dropWhile (·.pair ≠ p)).takeWhile (·.pair = p) ++
      (fns.dropWhile (·.pair ≠ p)).dropWhile (·.pair = p)) := by
    rw [takeWhile_append_dropWhile, takeWhile_append_dropWhile]
  conv_rhs => rw [hsplit]
  rw [filter_append, filter_append, hfront, hequal, hback, nil_append, remove]

/-! ## The invariant -/

structure Inv (s : State F A) : Prop where
  pending : pending s.history = (s.slot.getD []).reverse ++ s.fns.reverse
  sorted : (ThreadExit.pending s.history).Pairwise fun r r' => r'.id < r.id
  fresh : ∀ r, .registered r ∈ s.history → r.id < s.next
  registered : ∀ r, r ∈ ThreadExit.pending s.history ∨ .called r ∈ s.history → .registered r ∈ s.history
  notPending : ∀ r, .called r ∈ s.history → r ∉ ThreadExit.pending s.history
  /-- Before the exit nothing is called. -/
  alive : s.phase = .alive → ∀ r, .called r ∉ s.history
  /-- What is registered in the exit comes after what was registered before. -/
  later : s.phase ≠ .alive → s.before ≤ s.next ∧ ∀ r ∈ s.slot.getD [], s.before ≤ r.id
  newest : ∀ r, .called r ∈ s.history → r.id < s.before →
    ∀ r' ∈ ThreadExit.pending s.history, r'.id < s.before → r'.id < r.id
  /-- No helper is left over. -/
  last : s.lastRound = true ∨ s.phase = .gone → s.slot.getD [] = []
  once : ∀ r, s.history.count (.called r) ≤ 1
  called : ∀ r h, .called r :: h <:+ s.history → r ∈ live h
  order : ∀ r r' h, .called r' :: h <:+ s.history → .called r ∈ h → r.id < s.before →
    r'.id < s.before → r'.id < r.id

variable {s s' : State F A} {kind : Kind} {fns : List (Reg F A)} {rounds : ℕ} {before : ℕ}

theorem Inv.served (h : Inv s) : Served s := by
  refine ⟨h.once, h.called, ?_, h.order, ?_⟩
  · intro p newer older hs hnone r hp hr
    obtain ⟨newest, mid, rfl⟩ := append_of_mem hr
    have hsuffix : .called r :: (mid ++ .cancelled p :: older) <:+ s.history := by
      rw [hs, append_assoc]
      exact suffix_append ..
    have hlive := h.called r _ hsuffix
    subst hp
    apply hnone r rfl
    exact mem_append_right _ (mem_cons_of_mem _ (registered_of_live hlive))
  · intro hgone r hr
    have hfns : s.fns = [] := by
      rw [State.fns, hgone]
    rcases pending_or_called hr with hp | hc
    · rw [h.pending, h.last (.inr hgone), hfns] at hp
      cases hp
    · exact hc

omit [DecidableEq F] [DecidableEq A] in
theorem start_inv [DecidableEq F] [DecidableEq A] : Inv (start F A) := by
  constructor
  case pending => rfl
  case sorted => exact List.Pairwise.nil
  case later => exact fun hne => absurd rfl hne
  case last => exact fun _ => rfl
  case once => exact fun _ => Nat.zero_le _
  case called => exact fun _ _ h => nomatch suffix_nil.1 h
  case order => exact fun _ _ _ h => nomatch suffix_nil.1 h
  all_goals exact nofun

theorem called_cons {e : Event F A} (he : ∀ r, e ≠ .called r) (history : List (Event F A)) (r : Reg F A) :
    (.called r ∈ e :: history ↔ .called r ∈ history) ∧
      (e :: history).count (.called r) = history.count (.called r) ∧
      ∀ h, .called r :: h <:+ e :: history ↔ .called r :: h <:+ history := by
  have hne := he r
  refine ⟨?_, ?_, fun h => ?_⟩
  · rw [mem_cons, or_iff_right hne.symm]
  · exact count_cons_of_ne hne
  · rw [suffix_cons_iff, cons.injEq, or_iff_right]
    exact fun heq => hne heq.1.symm

section

variable (h : Inv s)
include h

theorem Inv.register (hgone : s.phase ≠ .gone) (hlast : s.lastRound = false) (p : F × A)
    (hfns : fns = s.slot.getD []) :
    Inv { s with
      slot := some (add fns ⟨s.next, p⟩)
      next := s.next + 1
      history := .registered ⟨s.next, p⟩ :: s.history } := by
  have hgoes := called_cons (e := .registered ⟨s.next, p⟩) (fun _ => nofun) s.history
  have hold : ∀ r, r ∈ ThreadExit.pending s.history ∨ .called r ∈ s.history → r.id < s.next :=
    fun r hr => h.fresh r (h.registered r hr)
  constructor
  case pending =>
    show _ :: ThreadExit.pending s.history = (fns ++ [_]).reverse ++ s.fns.reverse
    rw [h.pending, hfns, reverse_concat, cons_append]
  case sorted => exact pairwise_cons.2 ⟨fun r hr => hold r (.inl hr), h.sorted⟩
  case fresh =>
    intro r hr
    rcases mem_cons.1 hr with heq | hr
    · cases heq
      exact Nat.lt_succ_self _
    · exact Nat.lt_succ_of_lt (h.fresh r hr)
  case registered =>
    intro r hr
    rw [(hgoes r).1] at hr
    rcases hr with hr | hr
    · rcases mem_cons.1 hr with rfl | hr
      · exact mem_cons_self
      · exact mem_cons_of_mem _ (h.registered r (.inl hr))
    · exact mem_cons_of_mem _ (h.registered r (.inr hr))
  case notPending =>
    intro r hr hp
    rw [(hgoes r).1] at hr
    rcases mem_cons.1 hp with rfl | hp
    · exact absurd (hold _ (.inr hr)) (lt_irrefl _)
    · exact h.notPending r hr hp
  case alive =>
    intro halive r hr
    exact h.alive halive r ((hgoes r).1.1 hr)
  case later =>
    intro hne
    obtain ⟨hle, hslot⟩ := h.later hne
    refine ⟨Nat.le_succ_of_le hle, fun r hr => ?_⟩
    rcases mem_append.1 hr with hr | hr
    · exact hslot r (hfns ▸ hr)
    · rw [mem_singleton.1 hr]
      exact hle
  case newest =>
    intro r hr hlt r' hr' hlt'
    rw [(hgoes r).1] at hr
    rcases mem_cons.1 hr' with rfl | hr'
    · have hne : s.phase ≠ .alive := fun halive => h.alive halive r hr
      exact absurd (h.later hne).1 (Nat.not_le_of_lt hlt')
    · exact h.newest r hr hlt r' hr' hlt'
  case last =>
    rintro (hl | hg)
    · exact absurd (hlast.symm.trans hl) Bool.false_ne_true
    · exact absurd hg hgone
  case once => exact fun r => (hgoes r).2.1 ▸ h.once r
  case called => exact fun r hist hr => h.called r hist (((hgoes r).2.2 hist).1 hr)
  case order => exact fun r r' hist hr' => h.order r r' hist (((hgoes r').2.2 hist).1 hr')

theorem Inv.helper (hfns : fns = s.slot.getD []) : Inv { s with slot := some fns } := by
  subst hfns
  exact ⟨h.pending, h.sorted, h.fresh, h.registered, h.notPending, h.alive, h.later, h.newest,
    h.last, h.once,
    h.called, h.order⟩

theorem threadAtexit_inv (hgone : s.phase ≠ .gone) (hlast : s.lastRound = false) (fn : Option F)
    (arg : A) (new emplace : Bool) : Inv (threadAtexit s fn arg new emplace).2 := by
  have hget : ∀ fns, getOrNewThreadExitHelper s new = some fns → fns = s.slot.getD [] := by
    intro fns hfns
    unfold getOrNewThreadExitHelper at hfns
    split at hfns
    case h_1 fns' hslot =>
      cases hfns
      rw [hslot, Option.getD_some]
    case h_2 hslot =>
      split at hfns
      · cases hfns
        rw [hslot, Option.getD_none]
      · cases hfns
  unfold threadAtexit
  split
  · exact h
  · split
    case h_1 => exact h
    case h_2 fns hfns =>
      split
      · exact h.register hgone hlast _ (hget fns hfns)
      · exact h.helper (hget fns hfns)

theorem Inv.cancel {p : F × A} (htogether : Together (s.slot.getD []) p)
    (hfns : ∀ r ∈ s.fns, r.pair ≠ p) :
    Inv { s with slot := s.slot.map (remove · p), history := .cancelled p :: s.history } := by
  have hgoes := called_cons (e := .cancelled p) (fun _ => nofun) s.history
  have hslot : (s.slot.map (remove · p)).getD [] = (s.slot.getD []).filter (·.pair ≠ p) := by
    cases hs : s.slot with
    | none => rfl
    | some fns =>
      rw [hs] at htogether
      exact remove_eq_filter htogether
  have hsub : ∀ r ∈ (ThreadExit.pending s.history).filter (·.pair ≠ p),
      r ∈ ThreadExit.pending s.history :=
    fun r hr => (mem_filter.1 hr).1
  constructor
  case pending =>
    show (ThreadExit.pending s.history).filter (·.pair ≠ p) = (Option.getD _ []).reverse ++ s.fns.reverse
    have hrunning : s.fns.reverse.filter (·.pair ≠ p) = s.fns.reverse :=
      filter_eq_self.2 fun r hr => decide_eq_true (hfns r (mem_reverse.1 hr))
    rw [h.pending, filter_append, hrunning, hslot, filter_reverse]
  case sorted => exact h.sorted.filter _
  case fresh =>
    intro r hr
    exact h.fresh r ((mem_cons.1 hr).resolve_left nofun)
  case registered =>
    intro r hr
    rw [(hgoes r).1] at hr
    exact mem_cons_of_mem _ (h.registered r (hr.imp_left (hsub r)))
  case notPending => exact fun r hr hp => h.notPending r ((hgoes r).1.1 hr) (hsub r hp)
  case alive => exact fun halive r hr => h.alive halive r ((hgoes r).1.1 hr)
  case later =>
    intro hne
    refine ⟨(h.later hne).1, fun r hr => (h.later hne).2 r ?_⟩
    simp only [hslot] at hr
    exact (mem_filter.1 hr).1
  case newest => exact fun r hr hlt r' hr' => h.newest r ((hgoes r).1.1 hr) hlt r' (hsub r' hr')
  case last =>
    intro hl
    rw [hslot, h.last hl]
    rfl
  case once => exact fun r => (hgoes r).2.1 ▸ h.once r
  case called => exact fun r hist hr => h.called r hist (((hgoes r).2.2 hist).1 hr)
  case order =>
    intro r r' hist hr' hr
    exact h.order r r' hist (((hgoes r').2.2 hist).1 hr') hr

/-- The last function that is to be called by the running destructor is called. -/
theorem Inv.call {back : Reg F A} {fns' : List (Reg F A)} (hfns : s.fns = fns' ++ [back])
    (hlast : rounds = 0 → s.slot.getD [] = []) (hphase : s.phase ≠ .alive) :
    Inv { s with phase := .calling fns' rounds, history := .called back :: s.history } := by
  have hpending : ThreadExit.pending s.history = (s.slot.getD []).reverse ++ back :: fns'.reverse := by
    rw [h.pending, hfns, reverse_concat]
  have hback : back ∈ ThreadExit.pending s.history := by
    rw [hpending]
    exact mem_append_right _ mem_cons_self
  have hnot : .called back ∉ s.history := fun hc => h.notPending back hc hback
  have hsorted := h.sorted
  rw [hpending, pairwise_append, pairwise_cons] at hsorted
  obtain ⟨hslot, ⟨hbehind, hrest⟩, hbetween⟩ := hsorted
  have hne : ∀ r ∈ (s.slot.getD []).reverse ++ fns'.reverse, r ≠ back := by
    rintro r hr rfl
    rcases mem_append.1 hr with hr | hr
    · exact absurd (hbetween r hr r mem_cons_self) (lt_irrefl _)
    · exact absurd (hbehind r hr) (lt_irrefl _)
  have hfilter : (ThreadExit.pending s.history).filter (· ≠ back) = (s.slot.getD []).reverse ++
      fns'.reverse := by
    rw [hpending, filter_append, filter_cons_of_neg (by simp), ← filter_append,
      filter_eq_self.2 fun r hr => decide_eq_true (hne r hr)]
  have hsub : ∀ r ∈ (ThreadExit.pending s.history).filter (· ≠ back), r ∈ ThreadExit.pending s.history :=
    fun r hr => (mem_filter.1 hr).1
  constructor
  case pending => exact hfilter
  case sorted => exact h.sorted.filter _
  case fresh =>
    intro r hr
    exact h.fresh r ((mem_cons.1 hr).resolve_left nofun)
  case registered =>
    intro r hr
    apply mem_cons_of_mem
    rcases hr with hr | hr
    · exact h.registered r (.inl (hsub r hr))
    · rcases mem_cons.1 hr with heq | hr
      · cases heq
        exact h.registered back (.inl hback)
      · exact h.registered r (.inr hr)
  case notPending =>
    intro r hr hp
    rcases mem_cons.1 hr with heq | hr
    · cases heq
      exact absurd (of_decide_eq_true (mem_filter.1 hp).2) (not_not.2 rfl)
    · exact h.notPending r hr (hsub r hp)
  case alive => exact nofun
  case later => exact fun _ => h.later hphase
  case newest =>
    intro r hr hlt r' hr' hlt'
    rcases mem_cons.1 hr with heq | hr
    · cases heq
      simp only [ThreadExit.pending, hfilter] at hr'
      rcases mem_append.1 hr' with hr' | hr'
      · exact absurd ((h.later hphase).2 r' (mem_reverse.1 hr')) (Nat.not_le_of_lt hlt')
      · exact hbehind r' hr'
    · exact h.newest r hr hlt r' (hsub r' hr') hlt'
  case last =>
    rintro (hl | hg)
    · cases rounds with
      | zero => exact hlast rfl
      | succ rounds => cases hl
    · cases hg
  case once =>
    intro r
    obtain rfl | hr := eq_or_ne r back
    · rw [count_cons_self, count_eq_zero_of_not_mem hnot]
    · rw [count_cons_of_ne fun heq => hr (Event.called.inj heq).symm]
      exact h.once r
  case called =>
    intro r hist hr
    rcases suffix_cons_iff.1 hr with heq | hr
    · cases heq
      exact live_of_pending hback
    · exact h.called r hist hr
  case order =>
    intro r r' hist hr' hr hlt hlt'
    rcases suffix_cons_iff.1 hr' with heq | hr'
    · cases heq
      exact h.newest r hr hlt back hback hlt'
    · exact h.order r r' hist hr' hr hlt hlt'

theorem Inv.vanish (hfns : s.fns = []) (hslot : s.slot.getD [] = []) (halive : s.phase ≠ .alive) :
    Inv { s with phase := .gone } := by
  constructor
  case pending =>
    rw [h.pending, hfns]
    rfl
  case sorted => exact h.sorted
  case fresh => exact h.fresh
  case registered => exact h.registered
  case notPending => exact h.notPending
  case alive => exact nofun
  case later => exact fun _ => h.later halive
  case newest => exact h.newest
  case last => exact fun _ => hslot
  case once => exact h.once
  case called => exact h.called
  case order => exact h.order

end

theorem callBack_inv {atEnd : State F A} (h : Inv s) (hfns : s.fns = fns) (halive : s.phase ≠ .alive)
    (hlast : rounds = 0 → s.slot.getD [] = []) (hover : fns = [] → Inv atEnd) :
    Inv (callBack s fns rounds atEnd) := by
  unfold callBack
  split
  case h_1 hnone => exact hover (getLast?_eq_none_iff.1 hnone)
  case h_2 back hback =>
    exact h.call (hfns.trans (dropLast_append_getLast? back hback).symm) hlast halive

/-- The helper is out of the slot, and its functions are to be called. -/
def State.take (s : State F A) (rounds : ℕ) : State F A :=
  { s with slot := none, phase := .calling (s.slot.getD []) rounds }

omit [DecidableEq F] [DecidableEq A] in
theorem beginRound_succ (s : State F A) (rounds : ℕ) : beginRound s (rounds + 1) =
      callBack (s.take (rounds + 1)) (s.slot.getD []) rounds
      { s.take (rounds + 1) with phase := .gone } := by
  rw [beginRound]
  cases hslot : s.slot with
  | none =>
    rw [callBack, Option.getD_none, getLast?_nil]
    simp only [State.take, ← hslot]
  | some fns =>
    cases fns.getLast? with
    | none => rfl
    | some back => rfl

theorem Inv.take (h : Inv s) (hfns : s.fns = []) (hbefore : before ≤ s.next)
    (hcalled : ∀ r, .called r ∈ s.history → before = s.before) (rounds : ℕ) :
    Inv ({ s with before }.take (rounds + 1)) := by
  constructor
  case pending =>
    show ThreadExit.pending s.history = [] ++ (s.slot.getD []).reverse
    rw [h.pending, hfns]
    exact append_nil _
  case sorted => exact h.sorted
  case fresh => exact h.fresh
  case registered => exact h.registered
  case notPending => exact h.notPending
  case alive => exact nofun
  case later => exact fun _ => ⟨hbefore, nofun⟩
  case newest =>
    intro r hr
    cases hcalled r hr
    exact h.newest r hr
  case last => exact fun _ => rfl
  case once => exact h.once
  case called => exact h.called
  case order =>
    intro r r' hist hr' hr
    cases hcalled r (hr'.subset (mem_cons_of_mem _ hr))
    exact h.order r r' hist hr' hr

theorem Inv.beginRound (h : Inv s) (hfns : s.fns = []) (hbefore : before ≤ s.next)
    (hcalled : ∀ r, .called r ∈ s.history → before = s.before) (rounds : ℕ) :
    Inv (beginRound { s with before } (rounds + 1)) := by
  have htake := h.take hfns hbefore hcalled rounds
  rw [beginRound_succ]
  apply callBack_inv htake rfl nofun (fun _ => rfl)
  intro hnil
  exact htake.vanish hnil rfl nofun

theorem goStep_inv (h : Inv s) : Inv (goStep kind s) := by
  unfold goStep
  split
  case h_1 halive =>
    have hfns : s.fns = [] := by rw [State.fns, halive]
    have hcalled : ∀ r, .called r ∈ s.history → s.next = s.before := fun r hr =>
      absurd hr (h.alive halive r)
    cases kind with
    | pthread => exact h.beginRound hfns le_rfl hcalled 3
    | main => exact h.beginRound hfns le_rfl hcalled 0
  case h_2 fns rounds hphase =>
    have halive : s.phase ≠ .alive := by
      rw [hphase]
      exact nofun
    have hlast : rounds = 0 → s.slot.getD [] = [] := by
      rintro rfl
      apply h.last
      simp only [State.lastRound, hphase, true_or]
    have hfns : s.fns = fns := by rw [State.fns, hphase]
    apply callBack_inv h hfns halive hlast
    intro hnil
    cases rounds with
    | zero => exact h.vanish (hfns.trans hnil) (hlast rfl) halive
    | succ rounds => exact h.beginRound (hfns.trans hnil) (h.later halive).1 (fun _ _ => rfl) rounds
  case h_3 => exact h

theorem step_inv (h : Inv s) {act : Act F A} (hh : Heeds s act) : Inv (step kind s act) := by
  cases act with
  | atexit fn arg new emplace =>
    rw [step]
    split
    · exact h
    case isFalse hgone => exact threadAtexit_inv h hgone hh fn arg new emplace
  | cancel fn arg =>
    rw [step]
    split
    · exact h
    · cases fn with
      | none => exact h
      | some f =>
        obtain ⟨htogether, hfns⟩ := hh f rfl
        exact h.cancel htogether hfns
  | go => exact goStep_inv h

/-- **Exit handlers run once, last first, unless cancelled**, in every run where equal pairs stand
together when they are cancelled, no function cancels what the exit is about to call, and nothing is
registered in the last round. -/
theorem run_exitServed {as : List (Act F A)} (h : Along (step kind) Heeds (start F A) as) :
    Served (runFrom (step kind) (start F A) as) :=
  (h.run (fun _ _ hs hh => step_inv hs hh) start_inv).served

/-- Two equal pairs are cancelled at once, and a function registers another one. -/
theorem run_exitServed_two :
    Served
    (runFrom (step .pthread) (start ℕ ℕ) [.atexit (some 1) 0 true true,
    .atexit (some 2) 0 true true,
      .atexit (some 2) 0 true true, .cancel (some 2) 0, .atexit (some 3) 0 true true, .go,
      .atexit (some 4) 0 true true, .go, .go, .go]) :=
  run_exitServed (by decide)

/-- The last of the pairs 1, 2 and 1 is called though the pair was cancelled, a function is called
that another one cancelled, and what is registered at the exit of `main` is not called. -/
theorem scattered_not_served :
    ¬Served
    (runFrom (step .pthread) (start ℕ ℕ) [.atexit (some 1) 0 true true,
    .atexit (some 2) 0 true true,
        .atexit (some 1) 0 true true, .cancel (some 1) 0, .go]) ∧
      ¬Served
      (runFrom (step .pthread) (start ℕ ℕ) [.atexit (some 1) 0 true true,
      .atexit (some 2) 0 true true,
        .go, .cancel (some 1) 0, .go]) ∧
      ¬Served
      (runFrom (step .main) (start ℕ ℕ) [.atexit (some 1) 0 true true, .go,
      .atexit (some 2) 0 true true,
        .go]) := by
  refine ⟨fun h => ?_, fun h => ?_, fun h => ?_⟩
  · exact absurd (h.called ⟨2, 1, 0⟩ _ suffix_rfl) (by decide)
  · exact absurd (h.called ⟨0, 1, 0⟩ _ suffix_rfl) (by decide)
  · exact absurd (h.complete rfl) (by decide)

end Eabase.Utility.ThreadExit
