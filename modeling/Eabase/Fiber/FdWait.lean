import Mathlib.Data.Fintype.Basic
import Eabase.Lib.Machine

/-!
# Waiting on a file descriptor

A fiber that waits on a descriptor waits on the butex in the descriptor's slot.
It reads the value of the butex, enters the descriptor in the epoll set and
waits. The epoll thread takes what is ready out of the set, then bumps and wakes
the butexes. `fd_close` puts a guard in the slot, bumps and wakes, takes the
descriptor out of the set, closes it and puts the butex back.

The epoll set is a map from open descriptors to a mask of events (the build that
does DEL and ADD), and an operation on a butex is one step. Which descriptors are
opened and ready, and what fails, are choices of a step.

A wait goes well as long as it does not find its descriptor entered with other
events, does not enter it behind the bump of a closer, is not behind a slot that
was empty when a closer came, and no closer goes around the slot.
-/

namespace Eabase.Fiber.FdWait

open Lib Function

variable {ι : Type*} [DecidableEq ι]

/-! ## The machine -/

def nblock : ℕ := 262144

def blockSize : ℕ := 256

def maxEvents : ℕ := 32

abbrev Events := BitVec 32

/-- What a slot of `fd_butexes` holds; `guard` is `CLOSING_GUARD`. -/
inductive Slot where
  | null
  | guard
  | butex (b : ℕ)
  deriving DecidableEq

/-- What a butex is there for: for nothing yet, for the `fd_wait` that made it, or for the slot of a
descriptor. -/
inductive Use (ι : Type*) where
  | free
  | made (p : ι)
  | slot (fd : ℕ)
  deriving DecidableEq

/-- Where `fd_wait` stands: in front of `get_or_new`, the load, the exchange of NULL for a butex,
the load behind `sched_yield`, the load of `expected_val`, ADD and `butex_wait`, or in the queue of
the butex. `expected` is the number of bumps that `expected_val` was read at. -/
inductive WaitPc where
  | getOrNew
  | load
  | cas (b : ℕ)
  | spin
  | readValue (x : Slot)
  | add (b expected : ℕ)
  | wait (b expected : ℕ)
  | queued (b : ℕ)
  deriving DecidableEq

/-- Where `fd_close` stands: in front of `get`, the `close` without a slot, the exchange,
`fetch_add`, `butex_wake_all`, DEL, `close`, or the exchange that puts back the butex, if there was
one. -/
inductive ClosePc where
  | get
  | closeDirect
  | exchange
  | bump (b : ℕ)
  | wake (b : ℕ)
  | del (old : Option ℕ)
  | close (old : Option ℕ)
  | restore (old : Option ℕ)
  deriving DecidableEq

inductive Pc where
  | idle
  | wait (fd : ℕ) (ev : Events) (w : WaitPc)
  | close (fd : ℕ) (c : ClosePc)
  deriving DecidableEq

/-- Where the epoll thread stands: in front of `epoll_wait`, of DEL of the first of `todo`, of the
slot of the first of `rest`, of `fetch_add` or `butex_wake_all`. -/
inductive EpollPc where
  | epollWait
  | del (todo all : List ℕ)
  | load (rest : List ℕ)
  | bump (b : ℕ) (rest : List ℕ)
  | wake (b : ℕ) (rest : List ℕ)
  deriving DecidableEq

/-- The blocks of `fd_butexes` that there are and the slots, the use of each butex and how often it
was bumped, the epoll set, the descriptors that are open. -/
structure State (ι : Type*) where
  block : ℕ → Bool
  slot : ℕ → Slot
  use : ℕ → Use ι
  bumps : ℕ → ℕ
  epoll : ℕ → Option Events
  opened : ℕ → Bool
  pc : ι → Pc
  epollPc : EpollPc

def start (ι : Type*) : State ι where
  block _ := false
  slot _ := .null
  use _ := .free
  bumps _ := 0
  epoll _ := none
  opened _ := false
  pc _ := .idle
  epollPc := .epollWait

/-- The value of a butex that was bumped `n` times. -/
def value (n : ℕ) : BitVec 32 :=
  BitVec.ofNat 32 n

section

variable (s : State ι)

def State.goto (p : ι) (c : Pc) : State ι :=
  { s with pc := update s.pc p c }

/-- `fd_butexes.get(fd)`, and a load of what it points to. -/
def State.get (fd : ℕ) : Option Slot :=
  if s.block (fd / blockSize) then some (s.slot fd) else none

def State.setSlot (fd : ℕ) (x : Slot) : State ι :=
  { s with slot := update s.slot fd x }

def State.setUse (b : ℕ) (u : Use ι) : State ι :=
  { s with use := update s.use b u }

/-- `fetch_add(1)`. -/
def State.bump (b : ℕ) : State ι :=
  { s with bumps := update s.bumps b (s.bumps b + 1) }

end

def Pc.Queued (b : ℕ) : Pc → Prop
  | .wait _ _ (.queued b') => b' = b
  | _ => False

instance (b : ℕ) : DecidablePred (Pc.Queued b)
  | .wait _ _ (.queued b') => inferInstanceAs (Decidable (b' = b))
  | .wait _ _ .getOrNew | .wait _ _ .load | .wait _ _ (.cas _) | .wait _ _ .spin
  | .wait _ _ (.readValue _) | .wait _ _ (.add _ _) | .wait _ _ (.wait _ _) | .idle | .close _ _ =>
    inferInstanceAs (Decidable False)

/-- `butex_wake_all`. -/
def State.wakeAll (s : State ι) (b : ℕ) : State ι :=
  { s with pc := fun p => if (s.pc p).Queued b then .idle else s.pc p }

def State.epollDel (s : State ι) (fd : ℕ) : State ι :=
  { s with epoll := update s.epoll fd none }

/-- `close` of the system. -/
def State.sysClose (s : State ι) (fd : ℕ) : State ι :=
  { s.epollDel fd with opened := update s.opened fd false }

/-- Where `fd_wait` goes with what it has loaded. -/
def WaitPc.loaded : Slot → WaitPc
  | .guard => .spin
  | x => .readValue x

/-- The next step of `fd_wait`; `ok` says that nothing fails, and `b` is what `butex_create`
gives. -/
def waitStep (s : State ι) (p : ι) (fd : ℕ) (ev : Events) (ok : Bool) (b : ℕ) : WaitPc → State ι
  | .getOrNew =>
    if fd / blockSize < nblock ∧ (s.block (fd / blockSize) ∨ ok) then
      { s with block := update s.block (fd / blockSize) true }.goto p (.wait fd ev .load)
    else s.goto p .idle
  | .load =>
    match s.slot fd with
    | .null =>
      if s.use b = .free then
        { s.setUse b (.made p) with bumps := update s.bumps b 0 }.goto p (.wait fd ev (.cas b))
      else s
    | x => s.goto p (.wait fd ev (.loaded x))
  | .cas b' =>
    match s.slot fd with
    | .null => ((s.setSlot fd (.butex b')).setUse b' (.slot fd)).goto p
        (.wait fd ev (.loaded (.butex b')))
    | x => (s.setUse b' .free).goto p (.wait fd ev (.loaded x))
  | .spin => s.goto p (if ok then .wait fd ev (.loaded (s.slot fd)) else .idle)
  | .readValue x =>
    match x with
    | .butex b' => s.goto p (.wait fd ev (.add b' (s.bumps b')))
    | _ => s
  | .add b' expected =>
    match s.epoll fd with
    | some _ => s.goto p (.wait fd ev (.wait b' expected))
    | none =>
      if s.opened fd ∧ ok then
        { s with epoll := update s.epoll fd (some ev) }.goto p (.wait fd ev (.wait b' expected))
      else s.goto p .idle
  | .wait b' expected =>
    if value (s.bumps b') = value expected ∧ ok then s.goto p (.wait fd ev (.queued b'))
    else s.goto p .idle
  | .queued _ => s

/-- The next step of `fd_close`. -/
def closeStep (s : State ι) (p : ι) (fd : ℕ) : ClosePc → State ι
  | .get => s.goto p (.close fd (if (s.get fd).isSome then .exchange else .closeDirect))
  | .closeDirect => (s.sysClose fd).goto p .idle
  | .exchange =>
    match s.slot fd with
    | .guard => s.goto p .idle
    | .null => (s.setSlot fd .guard).goto p (.close fd (.del none))
    | .butex b => (s.setSlot fd .guard).goto p (.close fd (.bump b))
  | .bump b => (s.bump b).goto p (.close fd (.wake b))
  | .wake b => (s.wakeAll b).goto p (.close fd (.del (some b)))
  | .del old => (s.epollDel fd).goto p (.close fd (.close old))
  | .close old => (s.sysClose fd).goto p (.close fd (.restore old))
  | .restore old => (s.setSlot fd (old.elim .null .butex)).goto p .idle

/-- The next step of the epoll thread behind `epoll_wait`. -/
def epollStep (s : State ι) : State ι :=
  match s.epollPc with
  | .epollWait => s
  | .del [] all => { s with epollPc := .load all }
  | .del (fd :: todo) all => { s.epollDel fd with epollPc := .del todo all }
  | .load [] => { s with epollPc := .epollWait }
  | .load (fd :: rest) =>
    match s.get fd with
    | some (.butex b) => { s with epollPc := .bump b rest }
    | _ => { s with epollPc := .load rest }
  | .bump b rest => { s.bump b with epollPc := .wake b rest }
  | .wake b rest => { s.wakeAll b with epollPc := .load rest }

/-- What happens: a fiber calls `fd_wait` or `fd_close`, goes on with it, or leaves the queue for a
timeout or an interruption; a descriptor is opened; `epoll_wait` returns, or its thread goes on. -/
inductive Act (ι : Type*) where
  | fdWait (p : ι) (fd : ℤ) (ev : Events)
  | fdClose (p : ι) (fd : ℤ)
  | go (p : ι) (ok : Bool) (b : ℕ)
  | leave (p : ι)
  | sysOpen (fd : ℕ)
  | epollWait (fds : List ℕ)
  | epoll

def step (s : State ι) : Act ι → State ι
  | .fdWait p fd ev => if s.pc p = .idle ∧ 0 ≤ fd then s.goto p (.wait fd.toNat ev .getOrNew) else s
  | .fdClose p fd => if s.pc p = .idle ∧ 0 ≤ fd then s.goto p (.close fd.toNat .get) else s
  | .go p ok b =>
    match s.pc p with
    | .idle => s
    | .wait fd ev w => waitStep s p fd ev ok b w
    | .close fd c => closeStep s p fd c
  | .leave p =>
    match s.pc p with
    | .wait _ _ (.queued _) => s.goto p .idle
    | _ => s
  | .sysOpen fd =>
    if s.opened fd then s else { s with opened := update s.opened fd true }
  | .epollWait fds =>
    if s.epollPc = .epollWait ∧ fds.length ≤ maxEvents ∧ ∀ fd ∈ fds, (s.epoll fd).isSome then
      { s with epollPc := .del fds fds }
    else s
  | .epoll => epollStep s

/-! ## What is claimed -/

/-- The slot or butex that `fd_wait` has taken for its descriptor. -/
def WaitPc.uses : WaitPc → Option Slot
  | .getOrNew | .load | .cas _ | .spin => none
  | .readValue x => some x
  | .add b _ | .wait b _ | .queued b => some (.butex b)

def State.Registered (s : State ι) (fd : ℕ) (ev : Events) : Prop :=
  ∃ mask ∈ s.epoll fd, ev &&& mask = ev

/-- The descriptors that `epoll_wait` has returned and whose slots are not loaded. -/
def EpollPc.pending : EpollPc → List ℕ
  | .epollWait => []
  | .del _ all => all
  | .load rest | .bump _ rest | .wake _ rest => rest

def EpollPc.bumping : EpollPc → Option ℕ
  | .bump b _ => some b
  | .epollWait | .del _ _ | .load _ | .wake _ _ => none

def EpollPc.waking : EpollPc → Option ℕ
  | .wake b _ => some b
  | .epollWait | .del _ _ | .load _ | .bump _ _ => none

/-- A closer of the descriptor or the epoll thread is going to bump and wake the butex. -/
def State.WillBump (s : State ι) (fd b : ℕ) : Prop :=
  (∃ q, s.pc q = .close fd (.bump b)) ∨ (fd ∈ s.epollPc.pending ∧ s.slot fd = .butex b) ∨
    s.epollPc.bumping = some b

/-- The same, or the bump is done and the wake is next. -/
def State.WillWake (s : State ι) (fd b : ℕ) : Prop :=
  s.WillBump fd b ∨ (∃ q, s.pc q = .close fd (.wake b)) ∨ s.epollPc.waking = some b

/-- **Waits are safe**: `fd_wait` only uses the butex made for the descriptor, and the descriptor of
a fiber in the queue is entered with its events unless the butex is about to be woken. -/
structure WaitsSafely (s : State ι) : Prop where
  uses : ∀ p fd ev w x, s.pc p = .wait fd ev w → w.uses = some x →
    ∃ b, x = .butex b ∧ s.use b = .slot fd
  served : ∀ p fd ev b, s.pc p = .wait fd ev (.queued b) → s.Registered fd ev ∨ s.WillWake fd b

/-! ## The condition -/

def Pc.Closing (fd : ℕ) : Pc → Prop
  | .close fd' (.wake _) | .close fd' (.del _) | .close fd' (.close _) | .close fd' (.restore _) =>
    fd' = fd
  | _ => False

instance (fd : ℕ) : DecidablePred (Pc.Closing fd)
  | .close fd' (.wake _) | .close fd' (.del _) | .close fd' (.close _) | .close fd' (.restore _) =>
    inferInstanceAs (Decidable (fd' = fd))
  | .close _ .get | .close _ .closeDirect | .close _ .exchange | .close _ (.bump _) | .idle
  | .wait _ _ _ => inferInstanceAs (Decidable False)

/-- A close around the slot of the descriptor does not harm the party. -/
def CloseHeeds (s : State ι) (fd : ℕ) : Pc → Prop
  | .wait fd' _ (.wait b expected) =>
    fd' = fd → value (s.bumps b) = value expected → s.WillBump fd b
  | .wait fd' _ (.queued b) => fd' = fd → s.WillWake fd b
  | _ => True

def PcHeeds (s : State ι) : Pc → Prop
  | .wait fd _ .spin => s.slot fd ≠ .null
  | .wait fd ev (.add b expected) =>
    value (s.bumps b) = value expected →
      s.WillBump fd b ∨ (∀ mask ∈ s.epoll fd, ev &&& mask = ev) ∧ ∀ q, ¬ (s.pc q).Closing fd
  | .wait _ _ (.wait b expected) => s.bumps b < expected + 2 ^ 32
  | .close fd .closeDirect => ∀ q, CloseHeeds s fd (s.pc q)
  | _ => True

/-- What a step must heed: a fiber that waits for the end of a closer finds a butex; where the value
of the butex is still the one that was read, the descriptor is not entered with other events nor
behind the bump of a closer, and that value is not a later one of the same 32 bits; and a descriptor
is not closed around its slot while fibers wait. -/
def Heeds (s : State ι) : Act ι → Prop
  | .go p _ _ => PcHeeds s (s.pc p)
  | _ => True

section Decidable

variable [Fintype ι]

instance (s : State ι) (fd b : ℕ) : Decidable (s.WillBump fd b) :=
  inferInstanceAs (Decidable ((∃ q, s.pc q = .close fd (.bump b)) ∨
    (fd ∈ s.epollPc.pending ∧ s.slot fd = .butex b) ∨ s.epollPc.bumping = some b))

instance (s : State ι) (fd b : ℕ) : Decidable (s.WillWake fd b) :=
  inferInstanceAs (Decidable (s.WillBump fd b ∨ (∃ q, s.pc q = .close fd (.wake b)) ∨
    s.epollPc.waking = some b))

instance (s : State ι) (fd : ℕ) (ev : Events) : Decidable (s.Registered fd ev) :=
  match hmask : s.epoll fd with
  | none => isFalse fun ⟨_, hm, _⟩ => nomatch hmask.symm.trans hm
  | some mask => decidable_of_iff (ev &&& mask = ev)
      ⟨fun h => ⟨mask, hmask, h⟩, fun ⟨_, hm, h⟩ => Option.some.inj (hmask.symm.trans hm) ▸ h⟩

instance (s : State ι) (fd : ℕ) : DecidablePred (CloseHeeds s fd)
  | .wait fd' _ (.wait b expected) =>
    inferInstanceAs (Decidable (fd' = fd → value (s.bumps b) = value expected → s.WillBump fd b))
  | .wait fd' _ (.queued b) => inferInstanceAs (Decidable (fd' = fd → s.WillWake fd b))
  | .wait _ _ .getOrNew | .wait _ _ .load | .wait _ _ (.cas _) | .wait _ _ .spin
  | .wait _ _ (.readValue _) | .wait _ _ (.add _ _) | .idle | .close _ _ =>
    inferInstanceAs (Decidable True)

instance (s : State ι) : DecidablePred (PcHeeds s)
  | .wait fd _ .spin => inferInstanceAs (Decidable (s.slot fd ≠ .null))
  | .wait fd ev (.add b expected) =>
    have : Decidable (∀ mask ∈ s.epoll fd, ev &&& mask = ev) :=
      match s.epoll fd with
      | none => isTrue nofun
      | some mask => decidable_of_iff (ev &&& mask = ev)
          ⟨fun h _ hm => Option.some.inj hm ▸ h, fun h => h mask rfl⟩
    inferInstanceAs (Decidable (value (s.bumps b) = value expected →
      s.WillBump fd b ∨ (∀ mask ∈ s.epoll fd, ev &&& mask = ev) ∧ ∀ q, ¬ (s.pc q).Closing fd))
  | .wait _ _ (.wait b expected) => inferInstanceAs (Decidable (s.bumps b < expected + 2 ^ 32))
  | .close fd .closeDirect => inferInstanceAs (Decidable (∀ q, CloseHeeds s fd (s.pc q)))
  | .wait _ _ .getOrNew | .wait _ _ .load | .wait _ _ (.cas _) | .wait _ _ (.readValue _)
  | .wait _ _ (.queued _) | .idle | .close _ .get | .close _ .exchange | .close _ (.bump _)
  | .close _ (.wake _) | .close _ (.del _) | .close _ (.close _) | .close _ (.restore _) =>
    inferInstanceAs (Decidable True)

instance (s : State ι) : DecidablePred (Heeds s)
  | .go p _ _ => inferInstanceAs (Decidable (PcHeeds s (s.pc p)))
  | .fdWait _ _ _ | .fdClose _ _ | .leave _ | .sysOpen _ | .epollWait _ | .epoll =>
    inferInstanceAs (Decidable True)

end Decidable

/-! ## The invariant -/

/-- What a closer that has put the guard into the slot is going to put back. -/
def ClosePc.old : ClosePc → Option (Option ℕ)
  | .bump b | .wake b => some (some b)
  | .del old | .close old | .restore old => some old
  | .get | .closeDirect | .exchange => none

/-- The slot of the descriptor has the guard, and `p` put it there. -/
def State.Guarded (s : State ι) (p : ι) (fd : ℕ) : Prop :=
  s.slot fd = .guard ∧ ∀ q c, s.pc q = .close fd c → c.old ≠ none → q = p

def State.Entered (s : State ι) (fd : ℕ) (ev : Events) (b : ℕ) : Prop :=
  s.slot fd = .butex b ∧ s.Registered fd ev

/-- What holds where a party stands. A fiber in front of `butex_wait` may go into the queue when the
butex was not bumped since it read the value: then it can rely on the epoll set, or on a bump to
come. -/
def PcInv (s : State ι) (p : ι) : Pc → Prop
  | .idle | .wait _ _ .getOrNew | .wait _ _ .spin => True
  | .wait fd _ .load => s.block (fd / blockSize) = true
  | .wait fd _ (.cas b) => s.block (fd / blockSize) = true ∧ s.use b = .made p
  | .wait fd _ (.readValue x) => ∃ b, x = .butex b ∧ s.use b = .slot fd
  | .wait fd _ (.add b expected) => s.use b = .slot fd ∧ expected ≤ s.bumps b
  | .wait fd ev (.wait b expected) => s.use b = .slot fd ∧ expected ≤ s.bumps b ∧
      (s.bumps b = expected → s.Entered fd ev b ∨ s.WillBump fd b)
  | .wait fd ev (.queued b) => s.use b = .slot fd ∧ (s.Entered fd ev b ∨ s.WillWake fd b)
  | .close fd c => ∀ old, c.old = some old →
      s.Guarded p fd ∧ ∀ b, old = some b → s.use b = .slot fd

/-- A butex that is in use for a descriptor is in its slot, or a closer is going to put it back. -/
structure Inv (s : State ι) : Prop where
  pc : ∀ p, PcInv s p (s.pc p)
  slot : ∀ fd b, s.slot fd = .butex b → s.use b = .slot fd
  home : ∀ fd b, s.use b = .slot fd →
    s.slot fd = .butex b ∨ ∃ q c, s.pc q = .close fd c ∧ c.old = some (some b)
  block : ∀ fd b, s.use b = .slot fd → s.block (fd / blockSize) = true
  todo : ∀ todo all, s.epollPc = .del todo all → todo ⊆ all

omit [DecidableEq ι] in
theorem Inv.waitsSafely {s : State ι} (h : Inv s) : WaitsSafely s where
  uses p fd ev w x hp hx := by
    have hpc := h.pc p
    rw [hp] at hpc
    cases w with
    | getOrNew => cases hx
    | load => cases hx
    | cas b => cases hx
    | spin => cases hx
    | readValue y =>
      cases hx
      exact hpc
    | add b expected =>
      cases hx
      exact ⟨b, rfl, hpc.1⟩
    | wait b expected =>
      cases hx
      exact ⟨b, rfl, hpc.1⟩
    | queued b =>
      cases hx
      exact ⟨b, rfl, hpc.1⟩
  served p fd ev b hp := by
    have hpc := h.pc p
    rw [hp] at hpc
    exact hpc.2.imp And.right id

omit [DecidableEq ι] in
theorem start_inv : Inv (start ι) where
  pc _ := trivial
  slot := nofun
  home := nofun
  block := nofun
  todo := nofun

/-! ## Steps keep the invariant -/

section Steps

variable {s s' : State ι} {p q : ι} {fd b expected : ℕ} {ev : Events} {c : Pc} {bumps : ℕ → ℕ}
  {c₀ c₁ : ClosePc} {old : Option ℕ} {opened : ℕ → Bool} {epoll : ℕ → Option Events} {rest : List ℕ}

@[simp] theorem goto_self (s : State ι) (p : ι) (c : Pc) : (s.goto p c).pc p = c :=
  update_self ..

theorem goto_ne (h : q ≠ p) : (s.goto p c).pc q = s.pc q :=
  update_of_ne h ..

section

omit [DecidableEq ι]

/-- A bump to come stays to come when the closers in front of it stay where they are. -/
theorem willBump_mono (h : s.WillBump fd b)
    (hq : ∀ q, s.pc q = .close fd (.bump b) → s'.pc q = .close fd (.bump b))
    (hpending : fd ∈ s.epollPc.pending → s.slot fd = .butex b → s'.WillBump fd b)
    (hbumping : s.epollPc.bumping = some b → s'.WillBump fd b) : s'.WillBump fd b := by
  obtain ⟨q, hbump⟩ | ⟨hfd, hslot⟩ | hb := h
  · exact .inl ⟨q, hq q hbump⟩
  · exact hpending hfd hslot
  · exact hbumping hb

theorem willWake_mono (h : s.WillWake fd b) (hbump : s.WillBump fd b → s'.WillWake fd b)
    (hq : ∀ q, s.pc q = .close fd (.wake b) → s'.WillWake fd b)
    (hwaking : s.epollPc.waking = some b → s'.WillWake fd b) : s'.WillWake fd b := by
  obtain h | ⟨q, hwake⟩ | hw := h
  · exact hbump h
  · exact hq q hwake
  · exact hwaking hw

/-- What holds where a party stands goes on to hold in a state that has the same butexes in use and
where what fibers rely on is kept. -/
theorem PcInv.mono (h : PcInv s p c) (hblock : ∀ n, s.block n = true → s'.block n = true)
    (huse : ∀ fd b, s.use b = .slot fd → s'.use b = .slot fd ∧ s.bumps b ≤ s'.bumps b)
    (hmade : ∀ b, s.use b = .made p → s'.use b = .made p)
    (hready : ∀ fd ev b, s.use b = .slot fd → s'.bumps b = s.bumps b →
      s.Entered fd ev b ∨ s.WillBump fd b → s'.Entered fd ev b ∨ s'.WillBump fd b)
    (hserved : ∀ fd ev b, c = .wait fd ev (.queued b) → s.use b = .slot fd →
      s.Entered fd ev b ∨ s.WillWake fd b → s'.Entered fd ev b ∨ s'.WillWake fd b)
    (hguard : ∀ fd, s.Guarded p fd → s'.Guarded p fd) : PcInv s' p c := by
  cases c with
  | idle => trivial
  | close fd c =>
    intro old hold
    obtain ⟨hg, hb⟩ := h old hold
    exact ⟨hguard fd hg, fun b hob => (huse fd b (hb b hob)).1⟩
  | wait fd ev w =>
    cases w with
    | getOrNew => trivial
    | load => exact hblock _ h
    | spin => trivial
    | cas b => exact h.imp (hblock _) (hmade b)
    | readValue x =>
      obtain ⟨b, hx, hb⟩ := h
      exact ⟨b, hx, (huse fd b hb).1⟩
    | add b expected =>
      obtain ⟨hb, hle⟩ := h
      exact ⟨(huse fd b hb).1, hle.trans (huse fd b hb).2⟩
    | wait b expected =>
      obtain ⟨hb, hle, hready'⟩ := h
      obtain ⟨hb', hle'⟩ := huse fd b hb
      refine ⟨hb', hle.trans hle', fun heq => ?_⟩
      have hsame : s.bumps b = expected := le_antisymm (heq ▸ hle') hle
      exact hready fd ev b hb (heq.trans hsame.symm) (hready' hsame)
    | queued b =>
      obtain ⟨hb, hserved'⟩ := h
      exact ⟨(huse fd b hb).1, hserved fd ev b rfl hb hserved'⟩

end

theorem pcInv_of_move (h : Inv s) (hpc : s'.pc = update s.pc p c) (hnew : PcInv s' p c)
    (hblock : ∀ n, s.block n = true → s'.block n = true)
    (huse : ∀ fd b, s.use b = .slot fd → s'.use b = .slot fd ∧ s.bumps b ≤ s'.bumps b)
    (hmade : ∀ q b, q ≠ p → s.use b = .made q → s'.use b = .made q)
    (hready : ∀ fd ev b, s.use b = .slot fd → s'.bumps b = s.bumps b →
      s.Entered fd ev b ∨ s.WillBump fd b → s'.Entered fd ev b ∨ s'.WillBump fd b)
    (hserved : ∀ q fd ev b, q ≠ p → s.pc q = .wait fd ev (.queued b) → s.use b = .slot fd →
      s.Entered fd ev b ∨ s.WillWake fd b → s'.Entered fd ev b ∨ s'.WillWake fd b)
    (hguard : ∀ q fd, q ≠ p → s.Guarded q fd → s'.Guarded q fd) (q : ι) : PcInv s' q (s'.pc q) := by
  rw [hpc]
  obtain rfl | hq := eq_or_ne q p
  · rwa [update_self]
  · rw [update_of_ne hq]
    exact (h.pc q).mono hblock huse (hmade q · hq) hready (fun fd ev b hp => hserved q fd ev b hq hp)
      (hguard q · hq)

section

variable (hpc : s'.pc = update s.pc p c)
include hpc

theorem guarded_of_move (hslot : s'.slot fd = s.slot fd)
    (hc : ∀ c₁, c = .close fd c₁ → c₁.old ≠ none → ∃ c₀, s.pc p = .close fd c₀ ∧ c₀.old ≠ none)
    (h : s.Guarded q fd) : s'.Guarded q fd := by
  refine ⟨hslot.trans h.1, fun r c₁ hr hold => ?_⟩
  rw [hpc] at hr
  obtain rfl | hrp := eq_or_ne r p
  · rw [update_self] at hr
    obtain ⟨c₀, hc0, hold0⟩ := hc c₁ hr hold
    exact h.2 r c₀ hc0 hold0
  · rw [update_of_ne hrp] at hr
    exact h.2 r c₁ hr hold

/-- A closer that stands at `c₀` and does not move goes on to stand there. -/
theorem closer_of_move
    (hp : s.pc p ≠ .close fd c₀) (hq : s.pc q = .close fd c₀) : s'.pc q = .close fd c₀ := by
  rw [hpc, update_of_ne]
  · exact hq
  · rintro rfl
    exact hp hq

section

variable (hslot : s'.slot fd = s.slot fd) (hepoll : s'.epollPc = s.epollPc)
    (hp : s.pc p ≠ .close fd (.bump b))
include hslot hepoll hp

theorem willBump_of_move (h : s.WillBump fd b) :
    s'.WillBump fd b := by
  apply willBump_mono h
  · exact fun q => closer_of_move hpc hp
  · exact fun hfd hb => .inr (.inl ⟨hepoll ▸ hfd, hslot.trans hb⟩)
  · exact fun hb => .inr (.inr (hepoll ▸ hb))

theorem willWake_of_move
    (hp' : s.pc p ≠ .close fd (.wake b)) (h : s.WillWake fd b) : s'.WillWake fd b := by
  apply willWake_mono h
  · exact fun hw => .inl (willBump_of_move hpc hslot hepoll hp hw)
  · exact fun q hq => .inr (.inl ⟨q, closer_of_move hpc hp' hq⟩)
  · exact fun hw => .inr (.inr (hepoll ▸ hw))

end

end

/-- The party does not close with a guard. -/
def Pc.Aside : Pc → Prop
  | .close _ c => c.old = none
  | _ => True

section

variable (h : Inv s)
include h

/-- A party that does not close with a guard moves on; slots, the epoll set and the epoll thread
stay as they are. -/
theorem Inv.aside {block : ℕ → Bool} {use : ℕ → Use ι}
    {c₀ : Pc} (hc0 : s.pc p = c₀) (hold : c₀.Aside) (hc : c.Aside)
    (hnew : PcInv { s with block, use, bumps, opened, pc := update s.pc p c } p c)
    (hblock : ∀ n, s.block n = true → block n = true)
      (huse : ∀ fd b, use b = .slot fd ↔ s.use b = .slot fd)
    (hbumps : ∀ fd b, s.use b = .slot fd → bumps b = s.bumps b)
    (hmade : ∀ q b, q ≠ p → s.use b = .made q → use b = .made q) :
    Inv { s with block, use, bumps, opened, pc := update s.pc p c } := by
  subst hc0
  have haside : ∀ fd c₁, s.pc p = .close fd c₁ → c₁.old = none := fun fd c₁ hp => by
    rw [hp] at hold
    exact hold
  have hnot : ∀ fd c₁, c₁.old ≠ none → s.pc p ≠ .close fd c₁ := fun fd c₁ ho hp =>
    ho (haside fd c₁ hp)
  constructor
  · apply pcInv_of_move h rfl hnew hblock
    · exact fun fd b hb => ⟨(huse fd b).2 hb, (hbumps fd b hb).ge⟩
    · exact hmade
    · exact fun fd ev b _ _ => .imp id (willBump_of_move rfl rfl rfl (hnot fd _ nofun))
    · exact fun q fd ev b _ _ _ =>
        Or.imp id (willWake_of_move rfl rfl rfl (hnot fd _ nofun) (hnot fd _ nofun))
    · refine fun q fd _ hg => guarded_of_move rfl rfl (fun c₁ hc1 ho => ?_) hg
      subst hc1
      exact absurd hc ho
  · exact fun fd b hb => (huse fd b).2 (h.slot fd b hb)
  · intro fd b hb
    obtain hs | ⟨q, c₁, hq, ho⟩ := h.home fd b ((huse fd b).1 hb)
    · exact .inl hs
    · refine .inr ⟨q, c₁, closer_of_move rfl (hnot fd c₁ ?_) hq, ho⟩
      rw [ho]
      nofun
  · exact fun fd b hb => hblock _ (h.block fd b ((huse fd b).1 hb))
  · exact h.todo

theorem Inv.goto {c₀ : Pc} (hc0 : s.pc p = c₀) (hold : c₀.Aside) (hc : c.Aside)
    (hnew : PcInv (s.goto p c) p c) : Inv (s.goto p c) :=
  h.aside hc0 hold hc hnew (fun _ => id) (fun _ _ => .rfl) (fun _ _ _ => rfl) (fun _ _ _ => id)

section

omit [DecidableEq ι]

theorem pcInv_loaded (hs : s.slot fd ≠ .null)
    (huse : ∀ b, s.use b = .slot fd → s'.use b = .slot fd) :
    PcInv s' p (.wait fd ev (.loaded (s.slot fd))) := by
  cases hslot : s.slot fd with
  | null => exact absurd hslot hs
  | guard => trivial
  | butex b => exact ⟨b, rfl, huse b (h.slot fd b hslot)⟩

theorem Inv.not_use_of_null (hs : s.slot fd = .null) : s.use b ≠ .slot fd := by
  intro hb
  obtain hslot | ⟨q, c, hq, ho⟩ := h.home fd b hb
  · exact Slot.noConfusion (hs.symm.trans hslot)
  · have hpc := h.pc q
    rw [hq] at hpc
    exact Slot.noConfusion (hs.symm.trans (hpc _ ho).1.1)

theorem Inv.guarded {c : ClosePc} (hq : s.pc q = .close fd c)
    (hold : c.old = some old) : s.Guarded q fd ∧ ∀ b, old = some b → s.use b = .slot fd := by
  have hpc := h.pc q
  rw [hq] at hpc
  exact hpc old hold

end

theorem publish_inv (hp : s.pc p = .wait fd ev (.cas b)) (hs : s.slot fd = .null) :
    Inv (((s.setSlot fd (.butex b)).setUse b (.slot fd)).goto p (.wait fd ev (.loaded (.butex b)))) := by
  obtain ⟨hblock, hmade⟩ : s.block (fd / blockSize) = true ∧ s.use b = .made p := by
    have hpc := h.pc p
    rwa [hp] at hpc
  have hother : ∀ {fd' b'}, s.use b' = .slot fd' → b' ≠ b := by
    rintro fd' _ hb' rfl
    exact nomatch hb'.symm.trans hmade
  have hne : ∀ {fd' b'}, s.use b' = .slot fd' → fd' ≠ fd := by
    rintro _ b' hb' rfl
    exact h.not_use_of_null hs hb'
  set s' := ((s.setSlot fd (.butex b)).setUse b (.slot fd)).goto p (.wait fd ev (.loaded (.butex b)))
  have hpc' : s'.pc = update s.pc p (.wait fd ev (.loaded (.butex b))) := rfl
  have huse : ∀ {fd' b'}, s.use b' = .slot fd' → s'.use b' = .slot fd' := fun {fd' b'} hb' =>
    (update_of_ne (hother hb') ..).trans hb'
  have hslot : ∀ {fd'}, fd' ≠ fd → s'.slot fd' = s.slot fd' := fun hfd => update_of_ne hfd ..
  have hstay : ∀ {q fd' c}, s.pc q = .close fd' c → s'.pc q = .close fd' c := fun {q fd' c} hq =>
    closer_of_move hpc' (by rw [hp]; nofun) hq
  constructor
  · apply pcInv_of_move h hpc' ⟨b, rfl, update_self ..⟩ (fun _ => id)
    · exact fun fd' b' hb' => ⟨huse hb', le_rfl⟩
    · intro q b' hq hb'
      refine (update_of_ne ?_ ..).trans hb'
      rintro rfl
      exact hq (Use.made.inj (hb'.symm.trans hmade))
    · exact fun fd' ev' b' hb' _ => .imp (fun he => ⟨(hslot (hne hb')).trans he.1, he.2⟩)
        (willBump_of_move hpc' (hslot (hne hb')) rfl (by rw [hp]; nofun))
    · exact fun q fd' ev' b' _ _ hb' => .imp (fun he => ⟨(hslot (hne hb')).trans he.1, he.2⟩)
        (willWake_of_move hpc' (hslot (hne hb')) rfl (by rw [hp]; nofun) (by rw [hp]; nofun))
    · intro q fd' _ hg
      have hfd : fd' ≠ fd := by
        rintro rfl
        exact Slot.noConfusion (hs.symm.trans hg.1)
      exact guarded_of_move hpc' (hslot hfd) nofun hg
  · intro fd' b' hb'
    obtain rfl | hfd := eq_or_ne fd' fd
    · have hself : s'.slot fd' = .butex b := update_self ..
      obtain rfl := Slot.butex.inj (hself.symm.trans hb')
      exact update_self ..
    · exact huse (h.slot fd' b' ((hslot hfd).symm.trans hb'))
  · intro fd' b' hb'
    obtain rfl | hbb := eq_or_ne b' b
    · have hself : s'.use b' = .slot fd := update_self ..
      obtain rfl := Use.slot.inj (hself.symm.trans hb')
      exact .inl (update_self ..)
    · have hsame : s'.use b' = s.use b' := update_of_ne hbb ..
      have hb : s.use b' = .slot fd' := hsame.symm.trans hb'
      obtain hslot' | ⟨q, c, hq, ho⟩ := h.home fd' b' hb
      · exact .inl ((hslot (hne hb)).trans hslot')
      · exact .inr ⟨q, c, hstay hq, ho⟩
  · intro fd' b' hb'
    obtain rfl | hbb := eq_or_ne b' b
    · have hself : s'.use b' = .slot fd := update_self ..
      obtain rfl := Use.slot.inj (hself.symm.trans hb')
      exact hblock
    · have hsame : s'.use b' = s.use b' := update_of_ne hbb ..
      exact h.block fd' b' (hsame.symm.trans hb')
  · exact h.todo

omit [DecidableEq ι] in
theorem Inv.entered (hb : s.use b = .slot fd) (hq : ∀ q, ¬ (s.pc q).Closing fd) :
    s.slot fd = .butex b ∨ s.WillBump fd b := by
  obtain hs | ⟨q, c, hc, ho⟩ := h.home fd b hb
  · exact .inl hs
  · have hno := hq q
    rw [hc] at hno
    cases c with
    | get => cases ho
    | closeDirect => cases ho
    | exchange => cases ho
    | bump b' =>
      obtain rfl : b' = b := Option.some.inj (Option.some.inj ho)
      exact .inr (.inl ⟨q, hc⟩)
    | wake b' => exact absurd rfl hno
    | del old => exact absurd rfl hno
    | close old => exact absurd rfl hno
    | restore old => exact absurd rfl hno

theorem add_inv_of_some (hp : s.pc p = .wait fd ev (.add b expected)) {mask : Events}
    (hmask : s.epoll fd = some mask) (hheeds : PcHeeds s (.wait fd ev (.add b expected))) :
    Inv (s.goto p (.wait fd ev (.wait b expected))) := by
  obtain ⟨hb, hle⟩ : s.use b = .slot fd ∧ expected ≤ s.bumps b := by
    have hpc := h.pc p
    rwa [hp] at hpc
  refine h.goto hp trivial trivial ⟨hb, hle, fun heq => ?_⟩
  have hmove : s.WillBump fd b → (s.goto p (.wait fd ev (.wait b expected))).WillBump fd b :=
    willBump_of_move rfl rfl rfl (by rw [hp]; nofun)
  have heq' : s.bumps b = expected := heq
  obtain hw | ⟨hev, hno⟩ := hheeds (congrArg value heq')
  · exact .inr (hmove hw)
  · exact (h.entered hb hno).imp (fun hs => ⟨hs, mask, hmask, hev mask hmask⟩) hmove

theorem add_inv_of_none (hp : s.pc p = .wait fd ev (.add b expected))
    (hnone : s.epoll fd = none) (hheeds : PcHeeds s (.wait fd ev (.add b expected))) :
    Inv ({ s with epoll := update s.epoll fd (some ev) }.goto p
      (.wait fd ev (.wait b expected))) := by
  obtain ⟨hb, hle⟩ : s.use b = .slot fd ∧ expected ≤ s.bumps b := by
    have hpc := h.pc p
    rwa [hp] at hpc
  set s' := { s with epoll := update s.epoll fd (some ev) }.goto p (.wait fd ev (.wait b expected))
  have hpc' : s'.pc = update s.pc p (.wait fd ev (.wait b expected)) := rfl
  have hnot : ∀ fd' c, s.pc p ≠ .close fd' c := fun fd' c => by
    rw [hp]
    nofun
  have hbump : ∀ fd' b', s.WillBump fd' b' → s'.WillBump fd' b' := fun fd' b' =>
    willBump_of_move hpc' rfl rfl (hnot _ _)
  have hentered : ∀ fd' ev' b', s.Entered fd' ev' b' → s'.Entered fd' ev' b' := by
    rintro fd' ev' b' ⟨hs, mask, hmask, hev⟩
    refine ⟨hs, mask, ?_, hev⟩
    have hfd : fd' ≠ fd := by
      rintro rfl
      rw [hnone] at hmask
      cases hmask
    exact (update_of_ne hfd ..).trans hmask
  constructor
  · apply pcInv_of_move h hpc' _ (fun _ => id)
    · exact fun fd' b' hb' => ⟨hb', le_rfl⟩
    · exact fun _ _ _ => id
    · exact fun fd' ev' b' _ _ => .imp (hentered fd' ev' b') (hbump fd' b')
    · exact fun q fd' ev' b' _ _ _ => .imp (hentered fd' ev' b')
        (willWake_of_move hpc' rfl rfl (hnot _ _) (hnot _ _))
    · exact fun q fd' _ => guarded_of_move hpc' rfl nofun
    · refine ⟨hb, hle, fun heq => ?_⟩
      have heq' : s.bumps b = expected := heq
      obtain hw | ⟨hev, hno⟩ := hheeds (congrArg value heq')
      · exact .inr (hbump fd b hw)
      · refine (h.entered hb hno).imp (fun hs => ⟨hs, ev, update_self .., ?_⟩) (hbump fd b)
        exact BitVec.and_self
  · exact h.slot
  · intro fd' b' hb'
    exact (h.home fd' b' hb').imp id fun ⟨q, c, hq, ho⟩ =>
      ⟨q, c, closer_of_move hpc' (hnot _ _) hq, ho⟩
  · exact h.block
  · exact h.todo

end

theorem value_injOn {m n : ℕ} (h : value m = value n) (hle : n ≤ m) (hlt : m < n + 2 ^ 32) : m = n := by
  have hmod : m % 2 ^ 32 = n % 2 ^ 32 := congrArg BitVec.toNat h
  lia

omit [DecidableEq ι] in
/-- A butex that is in use for no descriptor gets another use that is not one. -/
theorem update_use_iff {u : Use ι} {b' : ℕ} (hb : ∀ fd, s.use b ≠ .slot fd) (hu : ∀ fd, u ≠ .slot fd) :
    update s.use b u b' = .slot fd ↔ s.use b' = .slot fd := by
  obtain rfl | hbb := eq_or_ne b' b
  · rw [update_self]
    exact iff_of_false (hu fd) (hb fd)
  · rw [update_of_ne hbb]

section

variable (h : Inv s)
include h

theorem create_inv (hp : s.pc p = .wait fd ev .load) (hfree : s.use b = .free) :
    Inv ({ s.setUse b (.made p) with bumps := update s.bumps b 0 }.goto p
      (.wait fd ev (.cas b))) := by
  have hpc := h.pc p
  rw [hp] at hpc
  refine h.aside hp trivial trivial ⟨hpc, update_self ..⟩ (fun _ => id) ?_ ?_ ?_
  · exact fun fd' b' => update_use_iff (fun _ hb => nomatch hfree.symm.trans hb) nofun
  · intro fd' b' hb'
    refine update_of_ne ?_ ..
    rintro rfl
    exact nomatch hfree.symm.trans hb'
  · intro q b' _ hb'
    refine (update_of_ne ?_ ..).trans hb'
    rintro rfl
    exact nomatch hfree.symm.trans hb'

theorem destroy_inv (hp : s.pc p = .wait fd ev (.cas b)) (hs : s.slot fd ≠ .null) :
    Inv ((s.setUse b .free).goto p (.wait fd ev (.loaded (s.slot fd)))) := by
  obtain ⟨hblock, hmade⟩ : s.block (fd / blockSize) = true ∧ s.use b = .made p := by
    have hpc := h.pc p
    rwa [hp] at hpc
  have huse : ∀ fd' b', (s.setUse b .free).use b' = .slot fd' ↔ s.use b' = .slot fd' := fun fd' b' =>
    update_use_iff (fun _ hb => nomatch hmade.symm.trans hb) nofun
  refine h.aside hp trivial trivial (pcInv_loaded h hs fun b' => (huse fd b').2) (fun _ => id) huse
    (fun _ _ _ => rfl) fun q b' hq hb' => ?_
  refine (update_of_ne ?_ ..).trans hb'
  rintro rfl
  exact hq (Use.made.inj (hb'.symm.trans hmade))

theorem waitStep_inv {w : WaitPc} (hp : s.pc p = .wait fd ev w)
    (hheeds : PcHeeds s (.wait fd ev w)) (ok : Bool) (b0 : ℕ) : Inv (waitStep s p fd ev ok b0 w) := by
  have hpc := h.pc p
  rw [hp] at hpc
  cases w with
  | getOrNew =>
    simp only [waitStep]
    split
    · refine h.aside hp trivial trivial (update_self ..) (fun n hn => ?_)
        (fun _ _ => .rfl) (fun _ _ _ => rfl) (fun _ _ _ => id)
      by_cases hfd : n = fd / blockSize
      · subst hfd
        exact update_self ..
      · exact (update_of_ne hfd ..).trans hn
    · exact h.goto hp trivial trivial trivial
  | load =>
    simp only [waitStep]
    split
    case h_1 =>
      split
      case isTrue hfree => exact create_inv h hp hfree
      case isFalse => exact h
    case h_2 hnull => exact h.goto hp trivial trivial (pcInv_loaded h hnull fun _ => id)
  | cas b =>
    simp only [waitStep]
    split
    case h_1 hnull => exact publish_inv h hp hnull
    case h_2 hnull => exact destroy_inv h hp hnull
  | spin =>
    cases ok with
    | true => exact h.goto hp trivial trivial (pcInv_loaded h hheeds fun _ => id)
    | false => exact h.goto hp trivial trivial trivial
  | readValue x =>
    obtain ⟨b, rfl, hb⟩ := hpc
    exact h.goto hp trivial trivial ⟨hb, le_rfl⟩
  | add b expected =>
    simp only [waitStep]
    split
    case h_1 mask hmask => exact add_inv_of_some h hp hmask hheeds
    case h_2 hnone =>
      split
      · exact add_inv_of_none h hp hnone hheeds
      · exact h.goto hp trivial trivial trivial
  | wait b expected =>
    obtain ⟨hb, hle, hready⟩ := hpc
    simp only [waitStep]
    split
    case isTrue hv =>
      refine h.goto hp trivial trivial ⟨hb, ?_⟩
      refine (hready (value_injOn hv.1 hle hheeds)).imp id fun hw => .inl ?_
      exact willBump_of_move rfl rfl rfl (by rw [hp]; nofun) hw
    case isFalse => exact h.goto hp trivial trivial trivial
  | queued b => exact h

theorem Inv.carry
    (hp : s.pc p = .close fd c₀) (hold : c₁.old = c₀.old) (hsome : c₀.old ≠ none)
    (hs' : s' = { s with bumps, epoll, opened, pc := update s.pc p (.close fd c₁) })
    (hbumps : ∀ b, s.bumps b ≤ bumps b)
    (hready : ∀ fd' ev b, s'.bumps b = s.bumps b → s.Entered fd' ev b ∨ s.WillBump fd' b →
      s'.Entered fd' ev b ∨ s'.WillBump fd' b)
    (hserved : ∀ q fd' ev b, s.pc q = .wait fd' ev (.queued b) →
      s.Entered fd' ev b ∨ s.WillWake fd' b → s'.Entered fd' ev b ∨ s'.WillWake fd' b) : Inv s' := by
  have hpc' : s'.pc = update s.pc p (.close fd c₁) := by rw [hs']
  have hslot : s'.slot = s.slot := by rw [hs']
  have huse : s'.use = s.use := by rw [hs']
  have hguard : ∀ q fd', s.Guarded q fd' → s'.Guarded q fd' := fun q fd' =>
    guarded_of_move hpc' (congrFun hslot fd') (by
      rintro c hc -
      cases hc
      exact ⟨c₀, hp, hsome⟩)
  constructor
  · apply pcInv_of_move h hpc'
    · intro old hold'
      obtain ⟨hg, hb⟩ := h.guarded hp (hold ▸ hold')
      exact ⟨hguard p fd hg, fun b hob => huse ▸ hb b hob⟩
    · intro n hn
      rw [hs']
      exact hn
    · intro fd' b hb
      refine ⟨huse ▸ hb, ?_⟩
      rw [hs']
      exact hbumps b
    · exact fun q b _ hb => huse ▸ hb
    · exact fun fd' ev' b' _ => hready fd' ev' b'
    · exact fun q fd' ev' b' _ hq _ => hserved q fd' ev' b' hq
    · exact fun q fd' _ => hguard q fd'
  · intro fd' b hb
    rw [huse]
    exact h.slot fd' b (hslot ▸ hb)
  · intro fd' b hb
    rw [huse] at hb
    rw [hslot]
    refine (h.home fd' b hb).imp id ?_
    rintro ⟨q, c, hq, ho⟩
    obtain rfl | hqp := eq_or_ne q p
    · cases hp.symm.trans hq
      exact ⟨q, c₁, by rw [hpc', update_self], hold.trans ho⟩
    · exact ⟨q, c, by rw [hpc', update_of_ne hqp, hq], ho⟩
  · intro fd' b hb
    rw [hs']
    exact h.block fd' b (huse ▸ hb)
  · intro todo all htodo
    rw [hs'] at htodo
    exact h.todo todo all htodo

theorem bump_inv (hp : s.pc p = .close fd (.bump b)) :
    Inv ((s.bump b).goto p (.close fd (.wake b))) := by
  set s' := (s.bump b).goto p (.close fd (.wake b))
  have hpc' : s'.pc = update s.pc p (.close fd (.wake b)) := rfl
  have hself : s'.bumps b = s.bumps b + 1 := update_self ..
  have hbump : ∀ fd' b', b' ≠ b → s.WillBump fd' b' → s'.WillBump fd' b' := fun fd' b' hb' =>
    willBump_of_move hpc' rfl rfl (by
      rw [hp]
      rintro ⟨⟩
      exact hb' rfl)
  have hold : (ClosePc.wake b).old = (ClosePc.bump b).old := rfl
  refine h.carry hp hold nofun rfl (fun b' => ?_) (fun fd' ev b' hb' => ?_) (fun q fd' ev b' hq => ?_)
  · obtain rfl | hb' := eq_or_ne b' b
    · exact hself ▸ Nat.le_succ _
    · exact (update_of_ne hb' ..).ge
  · refine Or.imp id (hbump fd' b' ?_)
    rintro rfl
    lia
  · refine Or.imp id fun hw => ?_
    apply willWake_mono hw
    · intro hw
      obtain ⟨q, hq⟩ | hrest := hw
      · obtain rfl | hqp := eq_or_ne q p
        · cases hp.symm.trans hq
          exact .inr (.inl ⟨q, goto_self ..⟩)
        · exact .inl (.inl ⟨q, (goto_ne hqp).trans hq⟩)
      · exact .inl (.inr hrest)
    · exact fun q hq => .inr (.inl ⟨q, closer_of_move hpc' (by rw [hp]; nofun) hq⟩)
    · exact fun hw => .inr (.inr hw)

theorem epollDel_inv
    (hp : s.pc p = .close fd c₀) (hold : c₁.old = c₀.old) (hsome : c₀.old = some old)
    (hb : ∀ b, c₀ ≠ .bump b) (hw : ∀ b, c₀ ≠ .wake b) :
    Inv ({ s.epollDel fd with opened }.goto p (.close fd c₁)) := by
  have hguard := (h.guarded hp hsome).1
  have hentered : ∀ fd' ev b, s.Entered fd' ev b →
      ({ s.epollDel fd with opened }.goto p (.close fd c₁)).Entered fd' ev b := by
    rintro fd' ev b ⟨hs, mask, hmask, hev⟩
    refine ⟨hs, mask, ?_, hev⟩
    refine (update_of_ne ?_ ..).trans hmask
    rintro rfl
    exact nomatch hs.symm.trans hguard.1
  have hbump : ∀ fd' b, s.pc p ≠ .close fd' (.bump b) := by
    intro fd' b hq
    cases hp.symm.trans hq
    exact hb b rfl
  have hwake : ∀ fd' b, s.pc p ≠ .close fd' (.wake b) := by
    intro fd' b hq
    cases hp.symm.trans hq
    exact hw b rfl
  refine h.carry hp hold ?_ rfl (fun _ => le_rfl) (fun fd' ev b _ => ?_) (fun q fd' ev b _ => ?_)
  · rw [hsome]
    nofun
  · exact Or.imp (hentered fd' ev b) (willBump_of_move rfl rfl rfl (hbump fd' b))
  · exact Or.imp (hentered fd' ev b) (willWake_of_move rfl rfl rfl (hbump fd' b) (hwake fd' b))

end

section

omit [DecidableEq ι]

theorem not_queued_wakeAll : ¬ ((s.wakeAll b).pc q).Queued b := by
  unfold State.wakeAll
  dsimp only
  split
  · exact id
  · assumption

theorem closer_wakeAll {c : ClosePc} (hq : s.pc q = .close fd c) : (s.wakeAll b).pc q = .close fd c := by
  unfold State.wakeAll
  dsimp only
  rw [if_neg]
  · exact hq
  · rw [hq]
    exact id

theorem close_of_wakeAll {c : ClosePc} (hq : (s.wakeAll b).pc q = .close fd c) :
    s.pc q = .close fd c := by
  unfold State.wakeAll at hq
  dsimp only at hq
  split at hq
  · cases hq
  · exact hq

end

omit [DecidableEq ι] in
theorem wakeAll_inv (h : Inv s) (b : ℕ) : Inv (s.wakeAll b) := by
  have hbump : ∀ fd b', s.WillBump fd b' → (s.wakeAll b).WillBump fd b' := fun fd b' hw =>
    willBump_mono hw (fun q => closer_wakeAll) (fun h1 h2 => .inr (.inl ⟨h1, h2⟩))
      (fun hb => .inr (.inr hb))
  constructor
  · intro q
    have hmono : PcInv (s.wakeAll b) q (s.pc q) := by
      refine (h.pc q).mono (fun _ => id) ?_ ?_ ?_ ?_ ?_
      · exact fun fd b' hb => ⟨hb, le_rfl⟩
      · exact fun _ => id
      · exact fun fd ev b' _ _ => .imp id (hbump fd b')
      · exact fun fd ev b' _ _ => .imp id fun hw => willWake_mono hw (fun hw => .inl (hbump fd b' hw))
          (fun q hq => .inr (.inl ⟨q, closer_wakeAll hq⟩)) (fun hw => .inr (.inr hw))
      · exact fun fd hg => ⟨hg.1, fun q c hq => hg.2 q c (close_of_wakeAll hq)⟩
    by_cases hq : (s.pc q).Queued b
    · have hidle : (s.wakeAll b).pc q = .idle := if_pos hq
      rw [hidle]
      trivial
    · have hsame : (s.wakeAll b).pc q = s.pc q := if_neg hq
      rwa [hsame]
  · exact h.slot
  · intro fd b' hb'
    exact (h.home fd b' hb').imp id fun ⟨q, c, hq, ho⟩ => ⟨q, c, closer_wakeAll hq, ho⟩
  · exact h.block
  · exact h.todo

theorem wake_inv (h : Inv s) (hp : s.pc p = .close fd (.wake b)) :
    Inv ((s.wakeAll b).goto p (.close fd (.del (some b)))) := by
  have hp' : (s.wakeAll b).pc p = .close fd (.wake b) := closer_wakeAll hp
  have hold : (ClosePc.del (some b)).old = (ClosePc.wake b).old := rfl
  refine (wakeAll_inv h b).carry hp' hold nofun rfl (fun _ => le_rfl) (fun fd' ev b' _ => ?_)
    (fun q fd' ev b' hq => ?_)
  · exact Or.imp id (willBump_of_move rfl rfl rfl (by rw [hp']; nofun))
  · refine Or.imp id (willWake_of_move rfl rfl rfl (by rw [hp']; nofun) ?_)
    rw [hp']
    rintro ⟨⟩
    have hno := not_queued_wakeAll (s := s) (b := b) (q := q)
    rw [hq] at hno
    exact hno rfl

theorem exchange_inv (h : Inv s) (hp : s.pc p = .close fd .exchange)
    (hold : c₁.old = some old) (hslot : s.slot fd = old.elim .null .butex)
    (hbump : ∀ b, old = some b → c₁ = .bump b) : Inv ((s.setSlot fd .guard).goto p (.close fd c₁)) := by
  set s' := (s.setSlot fd .guard).goto p (.close fd c₁)
  have hpc' : s'.pc = update s.pc p (.close fd c₁) := rfl
  have hself : s'.slot fd = .guard := update_self ..
  have hne : ∀ {fd'}, fd' ≠ fd → s'.slot fd' = s.slot fd' := fun hfd => update_of_ne hfd ..
  have hbutex : ∀ {b}, s.slot fd = .butex b → old = some b := by
    intro b hb
    rw [hslot] at hb
    cases old with
    | none => cases hb
    | some b' => exact congrArg some (Slot.butex.inj hb)
  have hguard : s.slot fd ≠ .guard := by
    rw [hslot]
    cases old <;> nofun
  have hstay : ∀ {q fd' c}, c.old ≠ none → s.pc q = .close fd' c → s'.pc q = .close fd' c := by
    intro q fd' c hc
    apply closer_of_move hpc'
    rw [hp]
    rintro ⟨⟩
    exact hc rfl
  -- the closer is about to bump what was in the slot
  have hcome : ∀ {b}, s.slot fd = .butex b → s'.WillBump fd b := fun hb =>
    .inl ⟨p, by rw [hpc', update_self, hbump _ (hbutex hb)]⟩
  have hwill : ∀ fd' b, s.WillBump fd' b → s'.WillBump fd' b := by
    intro fd' b hw
    apply willBump_mono hw (fun q => hstay nofun)
    · intro hfd' hs
      obtain rfl | hfd := eq_or_ne fd' fd
      · exact hcome hs
      · exact .inr (.inl ⟨hfd', (hne hfd).trans hs⟩)
    · exact fun hb => .inr (.inr hb)
  have hentered : ∀ fd' ev b, s.Entered fd' ev b → s'.Entered fd' ev b ∨ s'.WillBump fd' b := by
    intro fd' ev b he
    obtain rfl | hfd := eq_or_ne fd' fd
    · exact .inr (hcome he.1)
    · exact .inl ⟨(hne hfd).trans he.1, he.2⟩
  constructor
  · apply pcInv_of_move h hpc' _ (fun _ => id)
    · exact fun fd' b hb => ⟨hb, le_rfl⟩
    · exact fun _ _ _ => id
    · exact fun fd' ev b _ _ hr => hr.elim (hentered fd' ev b) fun hw => .inr (hwill fd' b hw)
    · refine fun q fd' ev b _ _ _ hr => hr.elim (fun he => (hentered fd' ev b he).imp id .inl) ?_
      intro hw
      exact .inr (willWake_mono hw (fun hw => .inl (hwill fd' b hw))
        (fun q hq => .inr (.inl ⟨q, hstay nofun hq⟩)) (fun hw => .inr (.inr hw)))
    · intro q fd' hq hg
      have hfd : fd' ≠ fd := by
        rintro rfl
        exact hguard hg.1
      refine guarded_of_move hpc' (hne hfd) (fun c hc => ?_) hg
      cases hc
      exact absurd rfl hfd
    · intro old' hold'
      obtain rfl := Option.some.inj (hold.symm.trans hold')
      refine ⟨⟨hself, fun q c hq ho => ?_⟩, fun b hb => ?_⟩
      · by_contra hqp
        obtain ⟨o, ho'⟩ := Option.ne_none_iff_exists'.1 ho
        exact hguard (h.guarded ((goto_ne hqp).symm.trans hq) ho').1.1
      · exact h.slot fd b (by rw [hslot, hb]; rfl)
  · intro fd' b hb
    obtain rfl | hfd := eq_or_ne fd' fd
    · exact nomatch hself.symm.trans hb
    · exact h.slot fd' b ((hne hfd).symm.trans hb)
  · intro fd' b hb
    obtain hs | ⟨q, c, hq, ho⟩ := h.home fd' b hb
    · obtain rfl | hfd := eq_or_ne fd' fd
      · refine .inr ⟨p, c₁, by rw [hpc', update_self], hold.trans ?_⟩
        exact congrArg some (hbutex hs)
      · exact .inl ((hne hfd).trans hs)
    · refine .inr ⟨q, c, hstay ?_ hq, ho⟩
      rw [ho]
      nofun
  · exact h.block
  · exact h.todo

theorem restore_inv (h : Inv s) (hp : s.pc p = .close fd (.restore old)) :
    Inv ((s.setSlot fd (old.elim .null .butex)).goto p .idle) := by
  obtain ⟨⟨hguard, honly⟩, hold⟩ := h.guarded hp rfl
  set s' := (s.setSlot fd (old.elim .null .butex)).goto p .idle
  have hpc' : s'.pc = update s.pc p .idle := rfl
  have hself : s'.slot fd = old.elim .null .butex := update_self ..
  have hne : ∀ {fd'}, fd' ≠ fd → s'.slot fd' = s.slot fd' := fun hfd => update_of_ne hfd ..
  have hbutex : ∀ {fd' b}, s.slot fd' = .butex b → fd' ≠ fd := by
    rintro fd' b hs rfl
    exact nomatch hguard.symm.trans hs
  have hwill : ∀ fd' b, s.WillBump fd' b → s'.WillBump fd' b := by
    intro fd' b hw
    apply willBump_mono hw
    · exact fun q => closer_of_move hpc' (by rw [hp]; nofun)
    · exact fun hfd' hs => .inr (.inl ⟨hfd', (hne (hbutex hs)).trans hs⟩)
    · exact fun hb => .inr (.inr hb)
  have hentered : ∀ fd' ev b, s.Entered fd' ev b → s'.Entered fd' ev b := fun fd' ev b he =>
    ⟨(hne (hbutex he.1)).trans he.1, he.2⟩
  constructor
  · apply pcInv_of_move h hpc' trivial (fun _ => id)
    · exact fun fd' b hb => ⟨hb, le_rfl⟩
    · exact fun _ _ _ => id
    · exact fun fd' ev b _ _ => .imp (hentered fd' ev b) (hwill fd' b)
    · refine fun q fd' ev b _ _ _ => .imp (hentered fd' ev b) fun hw => ?_
      exact willWake_mono hw (fun hw => .inl (hwill fd' b hw))
        (fun q hq => .inr (.inl ⟨q, closer_of_move hpc' (by rw [hp]; nofun) hq⟩))
          (fun hw => .inr (.inr hw))
    · intro q fd' hq hg
      have hfd : fd' ≠ fd := by
        rintro rfl
        exact hq (hg.2 p _ hp nofun).symm
      exact guarded_of_move hpc' (hne hfd) nofun hg
  · intro fd' b hb
    obtain rfl | hfd := eq_or_ne fd' fd
    · rw [hself] at hb
      cases old with
      | none => cases hb
      | some b' =>
        obtain rfl := Slot.butex.inj hb
        exact hold b' rfl
    · exact h.slot fd' b ((hne hfd).symm.trans hb)
  · intro fd' b hb
    obtain hs | ⟨q, c, hq, ho⟩ := h.home fd' b hb
    · exact .inl ((hne (hbutex hs)).trans hs)
    · obtain rfl | hqp := eq_or_ne q p
      · cases hp.symm.trans hq
        obtain rfl : old = some b := Option.some.inj ho
        exact .inl hself
      · exact .inr ⟨q, c, (goto_ne hqp).trans hq, ho⟩
  · exact h.block
  · exact h.todo

theorem closeDirect_inv (h : Inv s) (hp : s.pc p = .close fd .closeDirect)
    (hheeds : ∀ q, CloseHeeds s fd (s.pc q)) : Inv ((s.sysClose fd).goto p .idle) := by
  set s' := (s.sysClose fd).goto p .idle
  have hpc' : s'.pc = update s.pc p .idle := rfl
  have hnot : ∀ fd' b, s.pc p ≠ .close fd' (.bump b) ∧ s.pc p ≠ .close fd' (.wake b) := fun fd' b => by
    rw [hp]
    exact ⟨nofun, nofun⟩
  have hbump : ∀ fd' b, s.WillBump fd' b → s'.WillBump fd' b := fun fd' b =>
    willBump_of_move hpc' rfl rfl (hnot fd' b).1
  have hwake : ∀ fd' b, s.WillWake fd' b → s'.WillWake fd' b := fun fd' b =>
    willWake_of_move hpc' rfl rfl (hnot fd' b).1 (hnot fd' b).2
  have hentered : ∀ fd' ev b, fd' ≠ fd → s.Entered fd' ev b → s'.Entered fd' ev b := by
    rintro fd' ev b hfd ⟨hs, mask, hmask, hev⟩
    exact ⟨hs, mask, (update_of_ne hfd ..).trans hmask, hev⟩
  constructor
  · intro q
    obtain rfl | hq := eq_or_ne q p
    · rw [hpc', update_self]
      trivial
    · have hpc := h.pc q
      have hok := hheeds q
      rw [hpc', update_of_ne hq]
      cases hc : s.pc q with
      | idle => trivial
      | close fd' c =>
        rw [hc] at hpc
        intro old ho
        obtain ⟨hg, hb⟩ := hpc old ho
        exact ⟨guarded_of_move hpc' rfl nofun hg, hb⟩
      | wait fd' ev w =>
        rw [hc] at hpc hok
        cases w with
        | getOrNew => trivial
        | load => exact hpc
        | cas b => exact hpc
        | spin => trivial
        | readValue x => exact hpc
        | add b expected => exact hpc
        | wait b expected =>
          obtain ⟨hb, hle, hready⟩ := hpc
          refine ⟨hb, hle, fun heq => ?_⟩
          have heq' : s.bumps b = expected := heq
          by_cases hfd : fd' = fd
          · exact .inr (hbump fd' b (hfd ▸ hok hfd (congrArg value heq')))
          · exact (hready heq').imp (hentered fd' ev b hfd) (hbump fd' b)
        | queued b =>
          refine ⟨hpc.1, ?_⟩
          by_cases hfd : fd' = fd
          · exact .inr (hwake fd' b (hfd ▸ hok hfd))
          · exact hpc.2.imp (hentered fd' ev b hfd) (hwake fd' b)
  · exact h.slot
  · intro fd' b hb
    refine (h.home fd' b hb).imp id fun ⟨q, c, hq, ho⟩ => ⟨q, c, closer_of_move hpc' ?_ hq, ho⟩
    rw [hp]
    rintro ⟨⟩
    cases ho
  · exact h.block
  · exact h.todo

theorem closeStep_inv (h : Inv s) {c : ClosePc} (hp : s.pc p = .close fd c)
    (hheeds : PcHeeds s (.close fd c)) : Inv (closeStep s p fd c) := by
  cases c with
  | get =>
    simp only [closeStep]
    split
    · exact h.goto hp rfl rfl nofun
    · exact h.goto hp rfl rfl nofun
  | closeDirect => exact closeDirect_inv h hp hheeds
  | exchange =>
    simp only [closeStep]
    split
    case h_1 => exact h.goto hp rfl trivial trivial
    case h_2 hs => exact exchange_inv h hp rfl hs nofun
    case h_3 b hs =>
      have hold : (ClosePc.bump b).old = some (some b) := rfl
      refine exchange_inv h hp hold hs ?_
      rintro _ ⟨⟩
      rfl
  | bump b => exact bump_inv h hp
  | wake b => exact wake_inv h hp
  | del old => exact epollDel_inv h hp rfl rfl nofun nofun
  | close old => exact epollDel_inv h hp rfl rfl nofun nofun
  | restore old => exact restore_inv h hp

section

omit [DecidableEq ι]

theorem Inv.epollPc (h : Inv s) {c : EpollPc}
    (hs' : s' = { s with bumps, epoll, epollPc :=
  c }) (htodo : ∀ todo all, c = .del todo all → todo ⊆ all)
    (hbumps : ∀ b, s.bumps b ≤ bumps b)
    (hready : ∀ fd ev b, s'.bumps b = s.bumps b → s.Entered fd ev b ∨ s.WillBump fd b →
      s'.Entered fd ev b ∨ s'.WillBump fd b)
    (hserved : ∀ q fd ev b, s.pc q = .wait fd ev (.queued b) →
      s.Entered fd ev b ∨ s.WillWake fd b → s'.Entered fd ev b ∨ s'.WillWake fd b) : Inv s' := by
  subst hs'
  constructor
  · intro q
    refine (h.pc q).mono (fun _ => id) ?_ ?_ ?_ ?_ ?_
    · exact fun fd b hb => ⟨hb, hbumps b⟩
    · exact fun _ => id
    · exact fun fd ev b _ => hready fd ev b
    · exact fun fd ev b hq _ => hserved q fd ev b hq
    · exact fun fd => id
  · exact h.slot
  · exact h.home
  · exact h.block
  · exact htodo

theorem willBump_of_epoll (hpc : s'.pc = s.pc)
    (hpending : fd ∈ s.epollPc.pending → s.slot fd = .butex b → s'.WillBump fd b)
    (hbumping : s.epollPc.bumping = some b → s'.WillBump fd b) (h : s.WillBump fd b) :
    s'.WillBump fd b :=
  willBump_mono h (fun _ hq => hpc ▸ hq) hpending hbumping

theorem willWake_of_epoll (hpc : s'.pc = s.pc) (hbump : s.WillBump fd b → s'.WillWake fd b)
    (hwaking : s.epollPc.waking = some b → s'.WillWake fd b) (h : s.WillWake fd b) : s'.WillWake fd b :=
  willWake_mono h hbump (fun q hq => .inr (.inl ⟨q, hpc ▸ hq⟩)) hwaking

end

section

omit [DecidableEq ι]

theorem epollWait_inv (h : Inv s) (hc : s.epollPc = .epollWait) (fds : List ℕ) :
    Inv { s with epollPc := .del fds fds } := by
  have hbump : ∀ fd b, s.WillBump fd b → State.WillBump { s with epollPc := .del fds fds } fd b :=
    fun fd b => willBump_of_epoll rfl (by rw [hc]; nofun) (by rw [hc]; nofun)
  refine h.epollPc rfl ?_ (fun _ => le_rfl) (fun fd ev b _ => .imp id (hbump fd b)) ?_
  · rintro _ _ ⟨⟩
    exact List.Subset.refl _
  · exact fun q fd ev b _ => .imp id
      (willWake_of_epoll rfl (fun hw => .inl (hbump fd b hw)) (by rw [hc]; nofun))

theorem epoll_del_inv (h : Inv s) {todo all : List ℕ} (hc : s.epollPc = .del (fd :: todo) all) :
    Inv { s.epollDel fd with epollPc := .del todo all } := by
  have hsub : fd :: todo ⊆ all := h.todo _ _ hc
  set s' : State ι := { s.epollDel fd with epollPc := .del todo all }
  have hbump : ∀ fd b, s.WillBump fd b → s'.WillBump fd b := fun fd b =>
    willBump_of_epoll rfl (fun hfd hs => .inr (.inl ⟨by rw [hc] at hfd; exact hfd, hs⟩))
      (by rw [hc]; nofun)
  have hentered : ∀ fd' ev b, s.Entered fd' ev b → s'.Entered fd' ev b ∨ s'.WillBump fd' b := by
    rintro fd' ev b ⟨hs, mask, hmask, hev⟩
    obtain rfl | hfd := eq_or_ne fd' fd
    · exact .inr (.inr (.inl ⟨hsub (List.mem_cons_self ..), hs⟩))
    · exact .inl ⟨hs, mask, (update_of_ne hfd ..).trans hmask, hev⟩
  refine h.epollPc rfl ?_ (fun _ => le_rfl) (fun fd ev b _ hr => ?_) (fun q fd ev b _ hr => ?_)
  · rintro _ _ ⟨⟩
    exact fun x hx => hsub (List.mem_cons_of_mem _ hx)
  · exact hr.elim (hentered fd ev b) fun hw => .inr (hbump fd b hw)
  · have hwake : s.WillWake fd b → s'.WillWake fd b :=
      willWake_of_epoll rfl (fun hw => .inl (hbump fd b hw)) (by rw [hc]; nofun)
    exact hr.elim (fun he => (hentered fd ev b he).imp id .inl) fun hw => .inr (hwake hw)

/-- The epoll thread goes on without touching anything, and what is pending stays to be bumped. -/
theorem epoll_skip_inv (h : Inv s) {c : EpollPc} (htodo : ∀ todo all, c = .del todo all → todo ⊆ all)
    (hpending : ∀ fd b, fd ∈ s.epollPc.pending → s.slot fd = .butex b →
      fd ∈ c.pending ∨ c.bumping = some b)
    (hbumping : s.epollPc.bumping = none) (hwaking : s.epollPc.waking = none) :
    Inv { s with epollPc := c } := by
  have hbump : ∀ fd b, s.WillBump fd b → State.WillBump { s with epollPc := c } fd b := fun fd b =>
    willBump_of_epoll rfl
      (fun hfd hs => (hpending fd b hfd hs).elim (fun hfd => .inr (.inl ⟨hfd, hs⟩)) fun hb =>
        .inr (.inr hb))
      (by rw [hbumping]; nofun)
  refine h.epollPc rfl htodo (fun _ => le_rfl) (fun fd ev b _ => .imp id (hbump fd b)) ?_
  exact fun q fd ev b _ => .imp id
    (willWake_of_epoll rfl (fun hw => .inl (hbump fd b hw)) (by rw [hwaking]; nofun))

theorem epoll_bump_inv (h : Inv s) (hc : s.epollPc = .bump b rest) :
    Inv { s.bump b with epollPc := .wake b rest } := by
  set s' : State ι := { s.bump b with epollPc := .wake b rest }
  have hself : s'.bumps b = s.bumps b + 1 := update_self ..
  have hpending : ∀ fd b', fd ∈ s.epollPc.pending → s.slot fd = .butex b' → s'.WillBump fd b' := by
    intro fd b' hfd hs
    rw [hc] at hfd
    exact .inr (.inl ⟨hfd, hs⟩)
  refine h.epollPc rfl nofun (fun b' => ?_) (fun fd ev b' hb' => ?_) (fun _ fd ev b' _ => ?_)
  · obtain rfl | hb' := eq_or_ne b' b
    · exact hself ▸ Nat.le_succ _
    · exact (update_of_ne hb' ..).ge
  · refine Or.imp id (willBump_of_epoll rfl (hpending fd b') fun hb => ?_)
    rw [hc] at hb
    cases hb
    lia
  · refine Or.imp id (willWake_of_epoll rfl ?_ (by rw [hc]; nofun))
    intro hw
    obtain hq | ⟨hfd, hs⟩ | hb := hw
    · exact .inl (.inl hq)
    · exact .inl (hpending fd b' hfd hs)
    · rw [hc] at hb
      exact .inr (.inr hb)

theorem epoll_wake_inv (h : Inv s) (hc : s.epollPc = .wake b rest) :
    Inv { s.wakeAll b with epollPc := .load rest } := by
  have hbump : ∀ fd b', (s.wakeAll b).WillBump fd b' →
      State.WillBump { s.wakeAll b with epollPc := .load rest } fd b' := fun fd b' =>
    willBump_of_epoll rfl (fun hfd hs => .inr (.inl ⟨by
        have hsame : (s.wakeAll b).epollPc = s.epollPc := rfl
        rw [hsame, hc] at hfd
        exact hfd, hs⟩))
      (fun hb => by
        have hsame : (s.wakeAll b).epollPc = s.epollPc := rfl
        rw [hsame, hc] at hb
        cases hb)
  refine (wakeAll_inv h b).epollPc rfl nofun (fun _ => le_rfl)
    (fun fd ev b' _ => .imp id (hbump fd b')) ?_
  refine fun q fd ev b' hq => .imp id (willWake_of_epoll rfl (fun hw => .inl (hbump fd b' hw)) ?_)
  intro hb
  have hsame : (s.wakeAll b).epollPc = s.epollPc := rfl
  rw [hsame, hc] at hb
  obtain rfl : b = b' := Option.some.inj hb
  have hno := not_queued_wakeAll (s := s) (b := b) (q := q)
  rw [hq] at hno
  exact absurd rfl hno

end

omit [DecidableEq ι] in
theorem epollStep_inv (h : Inv s) : Inv (epollStep s) := by
  cases hc : s.epollPc with
  | epollWait =>
    simp only [epollStep, hc]
    exact h
  | del todo all =>
    cases todo with
    | nil =>
      simp only [epollStep, hc]
      refine epoll_skip_inv h nofun ?_ (by rw [hc]; rfl) (by rw [hc]; rfl)
      intro fd b hfd _
      rw [hc] at hfd
      exact .inl hfd
    | cons fd todo =>
      simp only [epollStep, hc]
      exact epoll_del_inv h hc
  | load rest =>
    cases rest with
    | nil =>
      simp only [epollStep, hc]
      refine epoll_skip_inv h nofun ?_ (by rw [hc]; rfl) (by rw [hc]; rfl)
      intro fd b hfd _
      rw [hc] at hfd
      cases hfd
    | cons fd rest =>
      simp only [epollStep, hc]
      split
      case h_1 b hget =>
        refine epoll_skip_inv h nofun ?_ (by rw [hc]; rfl) (by rw [hc]; rfl)
        intro fd' b' hfd' hs
        rw [hc] at hfd'
        obtain rfl | hfd' := List.mem_cons.1 hfd'
        · right
          unfold State.get at hget
          split at hget
          · exact congrArg some (Slot.butex.inj ((Option.some.inj hget).symm.trans hs))
          · cases hget
        · exact .inl hfd'
      case h_2 hget =>
        refine epoll_skip_inv h nofun ?_ (by rw [hc]; rfl) (by rw [hc]; rfl)
        intro fd' b' hfd' hs
        rw [hc] at hfd'
        obtain rfl | hfd' := List.mem_cons.1 hfd'
        · refine absurd ?_ (hget b')
          have hblock := h.block fd' b' (h.slot fd' b' hs)
          rw [State.get, if_pos hblock, hs]
        · exact .inl hfd'
  | bump b rest =>
    simp only [epollStep, hc]
    exact epoll_bump_inv h hc
  | wake b rest =>
    simp only [epollStep, hc]
    exact epoll_wake_inv h hc

theorem step_inv (s : State ι) (a : Act ι) (h : Inv s) (hheeds : Heeds s a) : Inv (step s a) := by
  cases a with
  | fdWait p fd ev =>
    simp only [step]
    split
    case isTrue hc => exact h.goto hc.1 trivial trivial trivial
    case isFalse => exact h
  | fdClose p fd =>
    simp only [step]
    split
    case isTrue hc => exact h.goto hc.1 trivial rfl nofun
    case isFalse => exact h
  | go p ok b =>
    have hheeds' : PcHeeds s (s.pc p) := hheeds
    simp only [step]
    split
    case h_1 => exact h
    case h_2 fd ev w hp => exact waitStep_inv h hp (hp ▸ hheeds') ok b
    case h_3 fd c hp => exact closeStep_inv h hp (hp ▸ hheeds')
  | leave p =>
    simp only [step]
    split
    case h_1 hp => exact h.goto hp trivial trivial trivial
    case h_2 => exact h
  | sysOpen fd =>
    simp only [step]
    split
    · exact h
    · exact { h with }
  | epollWait fds =>
    simp only [step]
    split
    case isTrue hc => exact epollWait_inv h hc.1 fds
    case isFalse => exact h
  | epoll => exact epollStep_inv h

/-- **Waits are safe** in every run whose steps heed the condition. -/
theorem run_waitsSafely (as : List (Act ι)) (hc : Along step Heeds (start ι) as) :
    WaitsSafely (runFrom step (start ι) as) :=
  (hc.run step_inv start_inv).waitsSafely

end Steps

/-- Two fibers wait for descriptor 5 to become readable; the other waits for 6, which a third
closes. -/
theorem run_waitsSafely_close :
    WaitsSafely (runFrom step (start (Fin 3))
      ([.sysOpen 5, .sysOpen 6, .fdWait 0 5 1, .fdWait 1 6 1] ++
        List.replicate 6 (.go 0 true 0) ++ List.replicate 6 (.go 1 true 1) ++
        [.epollWait [5], .fdClose 2 6, .epoll, .go 2 true 0, .epoll, .go 2 true 0, .epoll,
          .go 2 true 0] ++
        List.replicate 4 .epoll ++ List.replicate 4 (.go 2 true 0))) :=
  run_waitsSafely _ (by decide)

/-- A fiber waits for descriptor 5 to become readable, and then another for it to become writable:
the epoll set has only the events of the first. -/
theorem other_events_not_waitsSafely :
    ¬ ∀ as : List (Act (Fin 2)), WaitsSafely (runFrom step (start (Fin 2)) as) := by
  intro hall
  have hserved := (hall ([.sysOpen 5, .fdWait 0 5 1] ++ List.replicate 6 (.go 0 true 0) ++
    [.fdWait 1 5 4] ++ List.replicate 5 (.go 1 true 1))).served 1 5 4 0 (by decide)
  revert hserved
  decide

end Eabase.Fiber.FdWait
