import Mathlib.Data.Fintype.Basic
import Eabase.Lib.Machine

/-!
# The levels of the VLOG sites

A site computes its level from `vmodule_list` and `FLAGS_v` without a lock, and
enters `vlog_site_list` when the lock shows both unchanged. A change of a flag
calls the validator, which walks the list as it was when the lock was taken, and
stores the flag afterwards; gflags makes the changes one at a time. Deleted lists
are delayed by a time: here a list may be deleted, and its memory used again,
whenever it is at the front of the deque.

A site that enters the list between the snapshot of a change of `--v` and the
store of the flag keeps the old level. What holds in runs without that is that
every level follows the flags.
-/

namespace Eabase.Utility.VLog

open Lib Function List

variable {ι : Type*} [DecidableEq ι]

/-! ## The module list -/

/-- The first loop of `wildcmp`, up to a star; `none` when it returns `false`. -/
def wildPrefix : List Char → List Char → Option (List Char × List Char)
  | wild, [] => some (wild, [])
  | '*' :: wild, str => some ('*' :: wild, str)
  | [], _ :: _ => none
  | w :: wild, c :: str => if w ≠ c ∧ w ≠ '?' then none else wildPrefix wild str

/-- The second loop, which starts at a star: `mp` and `cp` are where it tries again. It gives what
is left of the pattern, or that it returned `true`. -/
def wildLoop (wild str mp cp : List Char) (h : str.length ≤ cp.length + 1) : List Char × Bool :=
  match str, wild with
  | [], wild => (wild, false)
  | c :: str, '*' :: wild =>
    if wild = [] then ([], true) else wildLoop wild (c :: str) wild str (by simp)
  | c :: str, w :: wild =>
    if c = w ∨ w = '?' then wildLoop wild str mp cp (by simp only [List.length_cons] at h; omega)
    else
      match cp with
      | [] => (mp, false)
      | d :: cp => wildLoop mp (d :: cp) mp cp (by simp)
  | _ :: _, [] =>
    match cp with
    | [] => (mp, false)
    | d :: cp => wildLoop mp (d :: cp) mp cp (by simp)
termination_by (cp.length, wild.length)
decreasing_by
  · have hle : str.length ≤ cp.length := by simpa using h
    rcases Nat.lt_or_eq_of_le hle with hlt | heq
    · exact Prod.Lex.left _ _ hlt
    · rw [heq]
      exact Prod.Lex.right _ (by simp)
  · exact Prod.Lex.right _ (by simp)
  · exact Prod.Lex.left _ _ (by simp)
  · exact Prod.Lex.left _ _ (by simp)

/-- `wildcmp`. -/
def wildcmp (wild str : List Char) : Bool :=
  match wildPrefix wild str with
  | none => false
  | some (wild, str) =>
    let (wild, done) := wildLoop wild str wild str (Nat.le_succ _)
    done || wild.all (· == '*')

/-- `VModuleList`, as `init` leaves it. -/
structure VModuleList where
  exactNames : List (String × ℤ)
  wildNames : List (String × ℤ)

def findWild (module fullModule : String) : List (String × ℤ) → Option ℤ
  | [] => none
  | (name, level) :: rest =>
    if wildcmp name.toList module.toList then some level
    else if fullModule ≠ "" ∧ wildcmp name.toList fullModule.toList then some level
    else findWild module fullModule rest

/-- `find_verbose_level`; `none` when it returns `false` and leaves the level. -/
def VModuleList.findVerboseLevel (l : VModuleList) (module fullModule : String) : Option ℤ :=
  match l.exactNames.lookup module with
  | some level => some level
  | none =>
    match if fullModule ≠ "" then l.exactNames.lookup fullModule else none with
    | some level => some level
    | none => findWild module fullModule l.wildNames

/-! ## The machine -/

/-- `VLogSite`: its names, lowered, and its level. -/
structure VLogSite where
  module : String
  fullModule : String
  v : ℤ

/-- Where a party stands in `add_vlog_site`: it reads `vmodule_list` and `FLAGS_v`, assigns, and
calls `vlog_site_list_add`. -/
inductive Pc where
  | idle
  | loadList (p : ℕ)
  | loadV (p : ℕ) (ml : Option ℕ)
  | assign (p : ℕ) (ml : Option ℕ) (v : ℤ)
  | insert (p : ℕ) (ml : Option ℕ) (v : ℤ)
  deriving DecidableEq

/-- Where the change of a flag stands. For `--v`: in front of the snapshot, with the sites still to
reset, in front of the store. For `--vmodule`: in front of the exchange of the list, with the sites
still to reset, in front of the deletions. -/
inductive FlagPc where
  | idle
  | vSnapshot (v : ℤ)
  | vReset (v : ℤ) (ml : Option ℕ) (rest : List ℕ)
  | vStore (v : ℤ)
  | mExchange (ml : ℕ)
  | mReset (ml : ℕ) (old : Option ℕ) (rest : List ℕ)
  | mDelete (old : Option ℕ)
  deriving DecidableEq

/-- The flag and the lists in memory; the sites, with those in `vlog_site_list`, head first.
`broken` is the use of a list that was deleted. -/
structure State (ι : Type*) where
  flagV : ℤ
  vmoduleList : Option ℕ
  lists : ℕ → Option VModuleList
  deleting : List ℕ
  sites : ℕ → VLogSite
  nextSite : ℕ
  siteList : List ℕ
  flag : FlagPc
  pc : ι → Pc
  broken : Bool

def start (ι : Type*) (flagV : ℤ) : State ι where
  flagV := flagV
  vmoduleList := none
  lists _ := none
  deleting := []
  sites _ := ⟨"", "", 0⟩
  nextSite := 0
  siteList := []
  flag := .idle
  pc _ := .idle
  broken := false

/-- One label of a run. A new module list is `list`, in the memory `ml`; `expired` says how many of
the lists in the deque are old enough. -/
inductive Act (ι : Type*) where
  | add (i : ι) (module fullModule : String)
  | go (i : ι)
  | setV (v : ℤ)
  | setVmodule (ml : ℕ) (list : VModuleList)
  | flag (expired : ℕ)

section

variable (s : State ι)

def State.goto (i : ι) (c : Pc) : State ι :=
  { s with pc := update s.pc i c }

/-- `find_verbose_level` through a pointer; `none` for no list and when it returns `false`. -/
def State.find (ml : Option ℕ) (site : VLogSite) : Option ℤ :=
  (ml.bind s.lists).bind fun l => l.findVerboseLevel site.module site.fullModule

/-- The pointer is NULL or points to a list. -/
def State.alive (ml : Option ℕ) : Bool :=
  match ml with
  | none => true
  | some p => (s.lists p).isSome

/-- `site->v() = v`, and `find_verbose_level` if there is a list. -/
def State.setLevel (p : ℕ) (ml : Option ℕ) (v : ℤ) : State ι :=
  { s with
    sites := update s.sites p { s.sites p with v := (s.find ml (s.sites p)).getD v }
    broken := s.broken || !s.alive ml }

/-- `vlog_site_list_add`. -/
def vlogSiteListAdd (i : ι) (p : ℕ) (ml : Option ℕ) (v : ℤ) : State ι :=
  if s.vmoduleList ≠ ml then s.goto i (.assign p s.vmoduleList v)
  else if v ≠ s.flagV then s.goto i (.assign p ml s.flagV)
  else { s with siteList := p :: s.siteList }.goto i .idle

/-- The next step of party `i`. -/
def goStep (i : ι) : State ι :=
  match s.pc i with
  | .idle => s
  | .loadList p => s.goto i (.loadV p s.vmoduleList)
  | .loadV p ml => s.goto i (.assign p ml s.flagV)
  | .assign p ml v => (s.setLevel p ml v).goto i (.insert p ml v)
  | .insert p ml v => vlogSiteListAdd s i p ml v

end

def deleteLists (lists : ℕ → Option VModuleList) (l : List ℕ) : ℕ → Option VModuleList :=
  l.foldl (fun f p => update f p none) lists

def flagStep (s : State ι) (expired : ℕ) : State ι :=
  match s.flag with
  | .idle => s
  | .vSnapshot v => { s with flag := .vReset v s.vmoduleList s.siteList }
  | .vReset v ml rest =>
    match rest with
    | [] => { s with flag := .vStore v }
    | p :: rest => { s.setLevel p ml v with flag := .vReset v ml rest }
  | .vStore v => { s with flagV := v, flag := .idle }
  | .mExchange ml =>
    { s with vmoduleList := some ml, flag := .mReset ml s.vmoduleList s.siteList }
  | .mReset ml old rest =>
    match rest with
    | [] => { s with flag := .mDelete old }
    | p :: rest => { s.setLevel p (some ml) s.flagV with flag := .mReset ml old rest }
  | .mDelete old =>
    match old with
    | none => { s with flag := .idle }
    | some q =>
      let deleting := s.deleting ++ [q]
      { s with
        deleting := deleting.drop expired
        lists := deleteLists s.lists (deleting.take expired)
        flag := .idle }

def step (s : State ι) : Act ι → State ι
  | .add i module fullModule =>
    if s.pc i = .idle then
      { s with
        sites := update s.sites s.nextSite ⟨module, fullModule, 0⟩
        nextSite := s.nextSite + 1 }.goto i (.loadList s.nextSite)
    else s
  | .go i => goStep s i
  | .setV v => if s.flag = .idle then { s with flag := .vSnapshot v } else s
  | .setVmodule ml list =>
    if s.flag = .idle ∧ s.lists ml = none then
      { s with lists := update s.lists ml (some list), flag := .mExchange ml }
    else s
  | .flag expired => flagStep s expired

/-! ## The property -/

/-- The level that a site should have: that of its module under the current list, or `FLAGS_v`. -/
def State.level (s : State ι) (p : ℕ) : ℤ := (s.find s.vmoduleList (s.sites p)).getD s.flagV

/-- When no flag is being changed, the level of every registered site follows the flags. -/
structure Follows (s : State ι) : Prop where
  level : s.flag = .idle → ∀ p ∈ s.siteList, (s.sites p).v = s.level p
  sound : s.broken = false

def Pc.list : Pc → Option ℕ
  | .loadV _ ml | .assign _ ml _ | .insert _ ml _ => ml
  | _ => none

/-- The value of `--v` that sites were already reset to, but that is not stored. -/
def FlagPc.pending : FlagPc → Option ℤ
  | .vReset v _ _ | .vStore v => some v
  | _ => none

/-- The condition on a party that is at `c` and moves. -/
def GoHeeds (s : State ι) : Pc → Prop
  | .insert p ml v => ml = s.vmoduleList → v = s.flagV →
      ∀ w ∈ s.flag.pending, (s.find ml (s.sites p)).isSome ∨ w = s.flagV
  | _ => True

/-- The condition on the change of a flag that is at `c` and moves. -/
def FlagHeeds (s : State ι) (expired : ℕ) : FlagPc → Prop
  | .mDelete (some q) => ∀ r ∈ (s.deleting ++ [q]).take expired, ∀ i, (s.pc i).list ≠ some r
  | _ => True

/-- The condition on a step: a site that enters the list between the snapshot and the store of a
change of `--v` has its level from the module list, or the value does not change; and a list that is
deleted is not in use by an `add_vlog_site`. -/
def Heeds (s : State ι) : Act ι → Prop
  | .go i => GoHeeds s (s.pc i)
  | .flag expired => FlagHeeds s expired s.flag
  | _ => True

instance (s : State ι) : ∀ c, Decidable (GoHeeds s c)
  | .insert p ml v => inferInstanceAs (Decidable (ml = s.vmoduleList → v = s.flagV →
      ∀ w ∈ s.flag.pending, (s.find ml (s.sites p)).isSome ∨ w = s.flagV))
  | .idle | .loadList _ | .loadV _ _ | .assign _ _ _ => isTrue trivial

instance [Fintype ι] (s : State ι) (expired : ℕ) : ∀ c, Decidable (FlagHeeds s expired c)
  | .mDelete (some q) => inferInstanceAs (Decidable
      (∀ r ∈ (s.deleting ++ [q]).take expired, ∀ i, (s.pc i).list ≠ some r))
  | .idle | .vSnapshot _ | .vReset _ _ _ | .vStore _ | .mExchange _ | .mReset _ _ _ | .mDelete none =>
    isTrue trivial

instance [Fintype ι] (s : State ι) : ∀ a, Decidable (Heeds s a)
  | .go i => inferInstanceAs (Decidable (GoHeeds s (s.pc i)))
  | .flag expired => inferInstanceAs (Decidable (FlagHeeds s expired s.flag))
  | .add _ _ _ | .setV _ | .setVmodule _ _ => isTrue trivial

/-! ## The invariant -/

def Pc.site : Pc → Option ℕ
  | .loadList p | .loadV p _ | .assign p _ _ | .insert p _ _ => some p
  | .idle => none

/-- The level of site `p` under the list `ml` and the value `v` of the flag. -/
def State.levelUnder (s : State ι) (ml : Option ℕ) (v : ℤ) (p : ℕ) : ℤ :=
  (s.find ml (s.sites p)).getD v

/-- Every registered site that is not in `rest` has its level under `ml` and `v`. -/
def State.Reset (s : State ι) (ml : Option ℕ) (v : ℤ) (rest : List ℕ) : Prop :=
  ∀ p ∈ s.siteList, p ∈ rest ∨ (s.sites p).v = s.levelUnder ml v p

def State.Replaced (s : State ι) (old : Option ℕ) : Prop :=
  ∀ q ∈ old, s.alive (some q) ∧ s.vmoduleList ≠ some q ∧ q ∉ s.deleting

/-- Where the levels are when the change of a flag is at `c`. -/
def FlagOk (s : State ι) : FlagPc → Prop
  | .idle | .vSnapshot _ => s.Reset s.vmoduleList s.flagV []
  | .vReset v ml rest => ml = s.vmoduleList ∧ s.Reset ml v rest ∧ ∀ p ∈ rest, p ∈ s.siteList
  | .vStore v => s.Reset s.vmoduleList v []
  | .mExchange ml => s.Reset s.vmoduleList s.flagV [] ∧ s.Replaced (some ml)
  | .mReset ml old rest => s.vmoduleList = some ml ∧ s.Reset (some ml) s.flagV rest ∧ s.Replaced old ∧
      ∀ p ∈ rest, p ∈ s.siteList
  | .mDelete old => s.Reset s.vmoduleList s.flagV [] ∧ s.Replaced old

structure Inv (s : State ι) : Prop where
  current : s.alive s.vmoduleList
  used : ∀ i, s.alive (s.pc i).list
  deleting : s.deleting.Nodup ∧ ∀ q ∈ s.deleting, s.alive (some q) ∧ s.vmoduleList ≠ some q
  listed : ∀ p ∈ s.siteList, p < s.nextSite
  site : ∀ i p, (s.pc i).site = some p → p < s.nextSite ∧ p ∉ s.siteList
  own : ∀ i j p, (s.pc i).site = some p → (s.pc j).site = some p → i = j
  insert : ∀ i p ml v, s.pc i = .insert p ml v → (s.sites p).v = s.levelUnder ml v p
  flag : FlagOk s s.flag
  sound : s.broken = false

section Inv

variable {s : State ι} {i j : ι} {c : Pc} {cf : FlagPc} {f : ℕ → Option VModuleList}
  {ml : Option ℕ} {p : ℕ} {rest : List ℕ} {v : ℤ} {d : List ℕ} {q : ℕ}

@[simp] theorem goto_self : (s.goto i c).pc i = c := update_self ..

theorem goto_ne (h : j ≠ i) : (s.goto i c).pc j = s.pc j := update_of_ne h ..

theorem forall_goto {P : ι → Pc → Prop} (hi : P i c) (hrest : ∀ j ≠ i, P j (s.pc j)) (j : ι) :
    P j ((s.goto i c).pc j) := by
  obtain rfl | hj := eq_or_ne j i
  · rw [goto_self]
    exact hi
  · rw [goto_ne hj]
    exact hrest j hj

omit [DecidableEq ι] in
theorem Inv.follows (h : Inv s) : Follows s where
  level := fun hidle p hp => by
    have hflag := h.flag
    rw [hidle] at hflag
    exact (hflag p hp).resolve_left (not_mem_nil)
  sound := h.sound

omit [DecidableEq ι] in
theorem inv_start (flagV : ℤ) : Inv (start ι flagV) := by
  constructor <;> simp [start, State.alive, Pc.list, Pc.site, FlagOk, State.Reset]

theorem Inv.goto (h : Inv s) (hlist : s.alive c.list) (hsite : c.site = none ∨ c.site = (s.pc i).site)
    (hins : ∀ p ml v, c = .insert p ml v → (s.sites p).v = s.levelUnder ml v p) : Inv (s.goto i c) := by
  have hkeep : ∀ {p}, c.site = some p → (s.pc i).site = some p := by
    intro p hc
    rcases hsite with hnone | hsame
    · rw [hnone] at hc
      cases hc
    · exact hsame ▸ hc
  have hsites : ∀ j p, ((s.goto i c).pc j).site = some p → (s.pc j).site = some p :=
    forall_goto (P := fun j cj => ∀ p, cj.site = some p → (s.pc j).site = some p)
      (fun p hc => hkeep hc) fun j _ p hp => hp
  exact { h with
    used := forall_goto (P := fun _ cj => s.alive cj.list) hlist fun j _ => h.used j
    site := fun j p hp => h.site j p (hsites j p hp)
    own := fun j k p hj hk => h.own j k p (hsites j p hj) (hsites k p hk)
    insert := forall_goto
      (P := fun _ cj => ∀ p ml v, cj = .insert p ml v → (s.sites p).v = s.levelUnder ml v p) hins
      fun j _ => h.insert j }

/-! ### The level of a site is set -/

section

omit [DecidableEq ι]

theorem sites_setLevel (p : ℕ) (ml : Option ℕ) (v : ℤ) (q : ℕ) :
    ((s.setLevel p ml v).sites q).module = (s.sites q).module ∧
      ((s.setLevel p ml v).sites q).fullModule = (s.sites q).fullModule ∧
      ((s.setLevel p ml v).sites q).v = if q = p then s.levelUnder ml v p else (s.sites q).v := by
  obtain rfl | hq := eq_or_ne q p
  · simp [State.setLevel, State.levelUnder]
  · simp [State.setLevel, hq]

@[simp] theorem levelUnder_setLevel (p : ℕ) (ml : Option ℕ) (v : ℤ) (ml' : Option ℕ) (v' : ℤ) (q : ℕ) :
    (s.setLevel p ml v).levelUnder ml' v' q = s.levelUnder ml' v' q := by
  obtain ⟨hm, hf, _⟩ := sites_setLevel (s := s) p ml v q
  simp only [State.levelUnder, State.find, hm, hf]
  rfl

theorem Reset.setLevel {ml' : Option ℕ} {v' : ℤ} (h : s.Reset ml v rest)
    (hp : p ∉ s.siteList ∨ (ml' = ml ∧ v' = v)) : (s.setLevel p ml' v').Reset ml v rest := by
  intro q hq
  have hq' : q ∈ s.siteList := hq
  rw [levelUnder_setLevel, (sites_setLevel (s := s) p ml' v' q).2.2]
  obtain rfl | hqp := eq_or_ne q p
  · rcases hp with hp | ⟨rfl, rfl⟩
    · exact absurd hq' hp
    · exact .inr (if_pos rfl)
  · rw [if_neg hqp]
    exact h q hq'

/-- The flag's part of the invariant, when a site is set that is not registered. -/
theorem FlagOk.setLevel (h : FlagOk s cf)
    (hp : p ∉ s.siteList) : FlagOk (s.setLevel p ml v) cf := by
  cases cf with
  | idle | vSnapshot => exact Reset.setLevel h (.inl hp)
  | vReset v' ml' rest => exact ⟨h.1, Reset.setLevel h.2.1 (.inl hp), h.2.2⟩
  | vStore => exact Reset.setLevel h (.inl hp)
  | mExchange | mDelete => exact ⟨Reset.setLevel h.1 (.inl hp), h.2⟩
  | mReset => exact ⟨h.1, Reset.setLevel h.2.1 (.inl hp), h.2.2⟩

theorem Inv.setLevel (h : Inv s) (hml : s.alive ml)
    (hp : ∀ i q ml' v', s.pc i = .insert q ml' v' → q ≠ p)
    (hflag : FlagOk (s.setLevel p ml v) cf) : Inv { s.setLevel p ml v with flag := cf } :=
  { h with
    insert := fun i q ml' v' hi => by
      have hq := (sites_setLevel (s := s) p ml v q).2.2
      rw [if_neg (hp i q ml' v' hi)] at hq
      exact hq.trans ((h.insert i q ml' v' hi).trans (levelUnder_setLevel ..).symm)
    flag := by
      cases cf <;> exact hflag
    sound := by
      show (s.broken || !s.alive ml) = false
      rw [h.sound, hml]
      rfl }

end

/-! ### The steps of `add_vlog_site` -/

/-- A site enters the list: its level is right, also for a change of `--v` that is under way. -/
theorem insert_inv (h : Inv s) (hpc : s.pc i = .insert p ml v)
    (hml : s.vmoduleList = ml) (hv : v = s.flagV)
    (hh : ∀ w ∈ s.flag.pending, (s.find ml (s.sites p)).isSome ∨ w = s.flagV) :
    Inv ({ s with siteList := p :: s.siteList }.goto i .idle) := by
  subst hml hv
  have hgo := h.goto (i := i) (c := .idle) rfl (.inl rfl) nofun
  have hlevel := h.insert i p _ _ hpc
  obtain ⟨hlt, hnew⟩ := h.site i p (by rw [hpc]; rfl)
  -- the site has its level under the value that is stored, and under the one that will be
  have hreset : ∀ {v rest}, (v = s.flagV ∨ v ∈ s.flag.pending) → s.Reset s.vmoduleList v rest →
      ∀ q ∈ p :: s.siteList, q ∈ rest ∨ (s.sites q).v = s.levelUnder s.vmoduleList v q := by
    intro v rest hv hr q hq
    rcases mem_cons.1 hq with rfl | hq
    · refine .inr (hlevel.trans ?_)
      rcases hv with rfl | hv
      · rfl
      · rcases hh v hv with hsome | rfl
        · obtain ⟨w, hw⟩ := Option.isSome_iff_exists.1 hsome
          simp only [State.levelUnder, hw, Option.getD_some]
        · rfl
    · exact hr q hq
  have hsub : ∀ {rest : List ℕ}, (∀ q ∈ rest, q ∈ s.siteList) → ∀ q ∈ rest, q ∈ p :: s.siteList :=
    fun hrest q hq => mem_cons_of_mem _ (hrest q hq)
  exact { hgo with
    listed := fun q hq => by
      rcases mem_cons.1 hq with rfl | hq
      · exact hlt
      · exact h.listed q hq
    site := fun j q hj => by
      refine ⟨(hgo.site j q hj).1, fun hq => ?_⟩
      rcases mem_cons.1 hq with rfl | hq
      · obtain rfl | hji := eq_or_ne j i
        · rw [goto_self] at hj
          cases hj
        · rw [goto_ne hji] at hj
          exact hji (h.own j i q hj (by rw [hpc]; rfl))
      · exact (hgo.site j q hj).2 hq
    flag := by
      have hflag := h.flag
      cases hq : s.flag with
      | idle | vSnapshot =>
        rw [hq] at hflag
        exact hreset (.inl rfl) hflag
      | vReset v ml rest =>
        rw [hq] at hflag
        obtain ⟨rfl, hr, hrest⟩ := hflag
        exact ⟨rfl, hreset (.inr (by rw [hq]; rfl)) hr, hsub hrest⟩
      | vStore v =>
        rw [hq] at hflag
        exact hreset (.inr (by rw [hq]; rfl)) hflag
      | mExchange | mDelete =>
        rw [hq] at hflag
        exact ⟨hreset (.inl rfl) hflag.1, hflag.2⟩
      | mReset ml old rest =>
        rw [hq] at hflag
        obtain ⟨hml, hr, hold, hrest⟩ := hflag
        exact ⟨hml, hml ▸ hreset (.inl rfl) (hml ▸ hr), hold, hsub hrest⟩ }

theorem goStep_inv (h : Inv s) (i : ι) (hh : GoHeeds s (s.pc i)) : Inv (goStep s i) := by
  unfold goStep
  split
  case h_1 => exact h
  case h_2 p hpc => exact h.goto h.current (.inr (by rw [hpc]; rfl)) nofun
  case h_3 p ml hpc =>
    have hml := h.used i
    rw [hpc] at hml
    exact h.goto hml (.inr (by rw [hpc]; rfl)) nofun
  case h_4 p ml v hpc =>
    have hml := h.used i
    rw [hpc] at hml
    have hp := (h.site i p (by rw [hpc]; rfl)).2
    have hset : Inv (s.setLevel p ml v) := h.setLevel hml (fun j q ml' v' hj hq => by
      have hji := h.own j i p (by rw [hj, hq]; rfl) (by rw [hpc]; rfl)
      rw [hji, hpc] at hj
      cases hj) (h.flag.setLevel hp)
    refine hset.goto hml (.inr ?_) ?_
    · show _ = (s.pc i).site
      rw [hpc]
      rfl
    · rintro q ml' v' ⟨rfl, rfl, rfl⟩
      rw [(sites_setLevel (s := s) p ml v p).2.2, if_pos rfl, levelUnder_setLevel]
  case h_5 p ml v hpc =>
    rw [hpc] at hh
    have hml := h.used i
    rw [hpc] at hml
    unfold vlogSiteListAdd
    split
    case isTrue => exact h.goto h.current (.inr (by rw [hpc]; rfl)) nofun
    case isFalse hm =>
      split
      case isTrue => exact h.goto hml (.inr (by rw [hpc]; rfl)) nofun
      case isFalse hv =>
        have hm' := not_not.1 hm
        exact insert_inv h hpc hm' (not_not.1 hv) (hh hm'.symm (not_not.1 hv))

/-! ### The steps of the change of a flag -/

omit [DecidableEq ι] in
theorem resetStep_inv (h : Inv s) (hml : s.alive ml)
    (hp : p ∈ s.siteList) (hflag : FlagOk (s.setLevel p ml v) cf) :
    Inv { s.setLevel p ml v with flag := cf } := by
  refine h.setLevel hml (fun i q ml' v' hi hq => ?_) hflag
  exact (h.site i p (by rw [hi, hq]; rfl)).2 hp

omit [DecidableEq ι] in
theorem Reset.next (h : s.Reset ml v (p :: rest)) :
    (s.setLevel p ml v).Reset ml v rest := by
  intro q hq
  rw [levelUnder_setLevel, (sites_setLevel (s := s) p ml v q).2.2]
  obtain rfl | hqp := eq_or_ne q p
  · exact .inr (if_pos rfl)
  · rw [if_neg hqp]
    rcases h q hq with hmem | hlevel
    · exact .inl ((mem_cons.1 hmem).resolve_left hqp)
    · exact .inr hlevel

theorem mem_deleteLists {l : List ℕ} (hq : q ∉ l) :
    deleteLists f l q = f q := by
  induction l generalizing f with
  | nil => rfl
  | cons r l ih =>
    have hne : q ≠ r := fun he => hq (he ▸ mem_cons_self)
    have hrest : q ∉ l := fun hm => hq (mem_cons_of_mem _ hm)
    show deleteLists (update f r none) l q = f q
    rw [ih hrest, update_of_ne hne]

section

omit [DecidableEq ι]

/-- Lists that nobody has are deleted, or new ones made: the pointers that are in use keep
theirs. -/
theorem Inv.setLists (h : Inv s)
    (hcur : ∀ q ∈ s.vmoduleList, f q = s.lists q) (hused : ∀ i, ∀ q ∈ (s.pc i).list, f q = s.lists q)
    (hdel : d.Nodup ∧ ∀ q ∈ d, (f q).isSome ∧ s.vmoduleList ≠ some q)
    (hflag : FlagOk { s with lists := f, deleting := d } cf) :
    Inv { s with lists := f, deleting := d, flag := cf } := by
  have halive : ∀ {ml : Option ℕ}, (∀ q ∈ ml, f q = s.lists q) → s.alive ml →
      State.alive { s with lists := f, deleting := d, flag := cf } ml := by
    intro ml hf hml
    cases ml with
    | none => rfl
    | some q =>
      show (f q).isSome = true
      rw [hf q rfl]
      exact hml
  exact { h with
    current := halive hcur h.current
    used := fun i => halive (hused i) (h.used i)
    deleting := hdel
    insert := fun i p ml v hi => by
      rw [h.insert i p ml v hi]
      have hf := hused i
      rw [hi] at hf
      cases ml with
      | none => rfl
      | some q =>
        show (((s.lists q).bind _).getD v) = (((f q).bind _).getD v)
        rw [hf q rfl]
    flag := by cases cf <;> exact hflag }

theorem Reset.setLists
    (h : s.Reset ml v rest) (hf : ∀ q ∈ ml, f q = s.lists q) :
    State.Reset { s with lists := f, deleting := d } ml v rest := by
  intro p hp
  refine (h p hp).imp id fun hlevel => hlevel.trans ?_
  cases ml with
  | none => rfl
  | some q =>
    show (((s.lists q).bind _).getD v) = (((f q).bind _).getD v)
    rw [hf q rfl]

theorem setVmodule_inv (h : Inv s) {ml : ℕ} {list : VModuleList} (hidle : s.flag = .idle)
    (hfree : s.lists ml = none) :
    Inv { s with lists := update s.lists ml (some list), flag := .mExchange ml } := by
  have hold : ∀ {o : Option ℕ}, s.alive o → ∀ q ∈ o,
      update s.lists ml (some list) q = s.lists q := by
    rintro _ ho q ⟨rfl⟩
    have hne : q ≠ ml := fun he => by
      rw [he] at ho
      simp [State.alive, hfree] at ho
    exact update_of_ne hne ..
  have hflag := h.flag
  rw [hidle] at hflag
  refine h.setLists (d := s.deleting) (hold h.current) (fun i => hold (h.used i))
    ⟨h.deleting.1, fun q hq => ?_⟩ ⟨Reset.setLists hflag (hold h.current), ?_⟩
  · have hq' := h.deleting.2 q hq
    refine ⟨?_, hq'.2⟩
    rw [hold hq'.1 q rfl]
    exact hq'.1
  · rintro q ⟨rfl⟩
    refine ⟨by simp [State.alive], fun he => ?_, fun hm => ?_⟩
    · have := h.current
      rw [show s.vmoduleList = some ml from he] at this
      simp [State.alive, hfree] at this
    · have := (h.deleting.2 ml hm).1
      simp [State.alive, hfree] at this

theorem delete_inv (h : Inv s) {expired : ℕ} (hpc : s.flag = .mDelete (some q))
    (hh : ∀ r ∈ (s.deleting ++ [q]).take expired, ∀ i, (s.pc i).list ≠ some r) :
    Inv { s with
      deleting := (s.deleting ++ [q]).drop expired
      lists := deleteLists s.lists ((s.deleting ++ [q]).take expired)
      flag := .idle } := by
  have hflag := h.flag
  rw [hpc] at hflag
  obtain ⟨hreset, hold⟩ := hflag
  obtain ⟨hqa, hqc, hqd⟩ := hold q rfl
  have hnd : (s.deleting ++ [q]).Nodup := by
    rw [nodup_append']
    exact ⟨h.deleting.1, nodup_singleton q, by simpa using hqd⟩
  have hall : ∀ r ∈ s.deleting ++ [q], s.alive (some r) ∧ s.vmoduleList ≠ some r := by
    intro r hr
    rcases mem_append.1 hr with hr | hr
    · exact h.deleting.2 r hr
    · obtain rfl := mem_singleton.1 hr
      exact ⟨hqa, hqc⟩
  have hcur : ∀ r ∈ s.vmoduleList,
      deleteLists s.lists ((s.deleting ++ [q]).take expired) r = s.lists r := fun r hr =>
    mem_deleteLists fun hm => (hall r (mem_of_mem_take hm)).2 hr
  refine h.setLists hcur (fun i r hr => mem_deleteLists fun hm => hh r hm i hr)
    ⟨(drop_sublist ..).nodup hnd, fun r hr => ?_⟩ (Reset.setLists hreset hcur)
  have hr' := hall r (mem_of_mem_drop hr)
  refine ⟨?_, hr'.2⟩
  have hnot : r ∉ (s.deleting ++ [q]).take expired := fun hm =>
    (disjoint_take_drop hnd (Nat.le_refl expired)) hm hr
  rw [mem_deleteLists hnot]
  exact hr'.1

theorem flagStep_inv (h : Inv s) (expired : ℕ) (hh : FlagHeeds s expired s.flag) :
    Inv (flagStep s expired) := by
  have hflag := h.flag
  unfold flagStep
  split
  case h_1 => exact h
  case h_2 v hpc =>
    rw [hpc] at hflag
    exact { h with flag := ⟨rfl, fun p hp => .inl hp, fun p hp => hp⟩ }
  case h_3 v ml rest hpc =>
    rw [hpc] at hflag
    obtain ⟨rfl, hr, hrest⟩ := hflag
    split
    · exact { h with flag := hr }
    case h_2 p rest =>
      exact resetStep_inv h h.current (hrest p mem_cons_self)
        ⟨rfl, Reset.next hr, fun q hq => hrest q (mem_cons_of_mem _ hq)⟩
  case h_4 v hpc =>
    rw [hpc] at hflag
    exact { h with flag := hflag }
  case h_5 ml hpc =>
    rw [hpc] at hflag
    obtain ⟨hr, hold⟩ := hflag
    obtain ⟨hma, hmc, hmd⟩ := hold ml rfl
    exact { h with
      current := hma
      deleting := ⟨h.deleting.1, fun q hq => ⟨(h.deleting.2 q hq).1, fun he => by
        obtain rfl : ml = q := Option.some.inj he
        exact hmd hq⟩⟩
      flag := ⟨rfl, fun p hp => .inl hp, fun q hq => by
        refine ⟨?_, fun he => ?_, fun hm => (h.deleting.2 q hm).2 hq⟩
        · have := h.current
          rwa [show s.vmoduleList = some q from hq] at this
        · exact hmc (Option.some.inj he ▸ hq), fun p hp => hp⟩ }
  case h_6 ml old rest hpc =>
    rw [hpc] at hflag
    obtain ⟨hml, hr, hold, hrest⟩ := hflag
    split
    · exact { h with flag := ⟨hml ▸ hr, hold⟩ }
    case h_2 p rest =>
      exact resetStep_inv h (hml ▸ h.current) (hrest p mem_cons_self)
        ⟨hml, Reset.next hr, hold, fun q hq => hrest q (mem_cons_of_mem _ hq)⟩
  case h_7 old hpc =>
    rw [hpc] at hflag hh
    split
    · exact { h with flag := hflag.1 }
    case h_2 q => exact delete_inv h hpc hh

end

/-! ### The run -/

theorem add_inv (h : Inv s) {module fullModule : String} (hpc : s.pc i = .idle) : Inv ({ s with
      sites := update s.sites s.nextSite ⟨module, fullModule, 0⟩
      nextSite := s.nextSite + 1 }.goto i (.loadList s.nextSite)) := by
  have hsame : ∀ p, p < s.nextSite →
      update s.sites s.nextSite ⟨module, fullModule, 0⟩ p = s.sites p := fun p hp =>
    update_of_ne (ne_of_lt hp) ..
  have hreset : ∀ {ml v rest}, s.Reset ml v rest → State.Reset { s with
      sites := update s.sites s.nextSite ⟨module, fullModule, 0⟩
      nextSite := s.nextSite + 1 } ml v rest := fun hr p hp => (hr p hp).imp id fun hv => by
    simp only [State.levelUnder, hsame p (h.listed p hp)]
    exact hv
  have hnew : ∀ j p, ((s.goto i (.loadList s.nextSite)).pc j).site = some p →
      (j = i ∧ p = s.nextSite) ∨ (j ≠ i ∧ (s.pc j).site = some p) :=
    forall_goto (P := fun j cj => ∀ p, cj.site = some p →
      (j = i ∧ p = s.nextSite) ∨ (j ≠ i ∧ (s.pc j).site = some p))
      (fun p hp => .inl ⟨rfl, (Option.some.inj hp).symm⟩) fun j hj p hp => .inr ⟨hj, hp⟩
  exact { h with
    used := forall_goto (P := fun _ cj => s.alive cj.list) rfl fun j _ => h.used j
    listed := fun p hp => Nat.lt_succ_of_lt (h.listed p hp)
    site := fun j p hp => by
      rcases hnew j p hp with ⟨_, rfl⟩ | ⟨_, hp⟩
      · exact ⟨Nat.lt_succ_self _, fun hm => lt_irrefl _ (h.listed _ hm)⟩
      · exact ⟨Nat.lt_succ_of_lt (h.site j p hp).1, (h.site j p hp).2⟩
    own := fun j k p hj hk => by
      rcases hnew j p hj with ⟨rfl, rfl⟩ | ⟨_, hj'⟩ <;> rcases hnew k _ hk with ⟨rfl, hp⟩ | ⟨_, hk'⟩
      · rfl
      · exact absurd (h.site k _ hk').1 (lt_irrefl _)
      · exact absurd (hp ▸ (h.site j p hj').1) (lt_irrefl _)
      · exact h.own j k p hj' hk'
    insert := forall_goto (P := fun _ cj => ∀ p ml v, cj = .insert p ml v →
      (update s.sites s.nextSite ⟨module, fullModule, 0⟩ p).v =
        (s.find ml (update s.sites s.nextSite ⟨module, fullModule, 0⟩ p)).getD v) nofun
      fun j _ p ml v hj => by
        rw [hsame p (h.site j p (by rw [hj]; rfl)).1]
        exact h.insert j p ml v hj
    flag := by
      have hflag := h.flag
      cases hq : s.flag <;> rw [hq] at hflag
      case idle | vSnapshot => exact hreset hflag
      case vReset => exact ⟨hflag.1, hreset hflag.2.1, hflag.2.2⟩
      case vStore => exact hreset hflag
      case mExchange | mDelete => exact ⟨hreset hflag.1, hflag.2⟩
      case mReset => exact ⟨hflag.1, hreset hflag.2.1, hflag.2.2⟩ }

theorem step_inv (s : State ι) (a : Act ι) (h : Inv s) (ha : Heeds s a) : Inv (step s a) := by
  cases a with
  | add i module fullModule =>
    simp only [step]
    split
    case isTrue hpc => exact add_inv h hpc
    case isFalse => exact h
  | go i => exact goStep_inv h i ha
  | setV v =>
    simp only [step]
    split
    case isTrue hidle =>
      have hflag := h.flag
      rw [hidle] at hflag
      exact { h with flag := hflag }
    case isFalse => exact h
  | setVmodule ml list =>
    simp only [step]
    split
    case isTrue hm => exact setVmodule_inv h hm.1 hm.2
    case isFalse => exact h
  | flag expired => exact flagStep_inv h expired ha

end Inv

/-- **The levels follow the flags**, in runs where no site enters the list between the snapshot and
the store of a change of `--v` that changes its level, and no list is deleted while it is read. -/
theorem run_follows (flagV : ℤ) (as : List (Act ι)) (hc : Along step Heeds (start ι flagV) as) :
    Follows (runFrom step (start ι flagV) as) :=
  (hc.run step_inv (inv_start flagV)).follows

local instance neZero1 : NeZero 1 := ⟨by decide⟩

/-- Party 0 adds a site, up to the lock, while `--v` is changed to 1, up to the store. -/
def raceActs : List (Act (Fin 1)) :=
  [.add 0 "main" "", .go 0, .go 0, .go 0, .setV 1, .flag 0, .flag 0]

/-- The site enters the list in time: the new value is stored first, and the site assigns once more.
The module list that is set afterwards gives another level. -/
theorem run_follows_race :
    let as := raceActs ++ [.flag 0, .go 0, .go 0, .go 0, .setVmodule 7 ⟨[("main", 3)], []⟩] ++
      List.replicate 4 (.flag 0)
    let s := runFrom step (start (Fin 1) 0) as
    s.flag = .idle ∧ s.siteList = [0] ∧ (s.sites 0).v = 3 ∧ Follows s := by
  intro as s
  have hc : Along step Heeds (start (Fin 1) 0) as := by decide
  exact ⟨by decide, by decide, by decide, run_follows 0 as hc⟩

/-- The site enters the list after the snapshot and before the store, and keeps the level 0. -/
theorem late_site_not_follows :
    ¬ ∀ (flagV : ℤ) (as : List (Act (Fin 1))), Follows (runFrom step (start (Fin 1) flagV) as) := by
  intro h
  have hlevel := (h 0 (raceActs ++ [.go 0, .flag 0])).level (by decide) 0 (by decide)
  revert hlevel
  decide

end Eabase.Utility.VLog
