import Mathlib.Data.Fin.VecNotation
import Mathlib.Data.Fintype.Basic
import Mathlib.Tactic.Linarith
import Eabase.Lib.Machine

/-!
# The number of workers

`TaskControl` counts the workers that it creates, and a worker counts itself among
the groups of its tag when it has started. `fiber_setconcurrency` goes by the
first count. `fiber_setconcurrency_by_tag` goes by the second one for the tag, so
it creates a worker again for each that has not started yet.

A call under `g_task_control_mutex` is one step. Workers start in steps of their
own: between two of the call they would do the same as behind it. What a call
reads in front of the mutex is a choice of the step.
-/

namespace Eabase.Fiber.Concurrency

open Lib Function List

/-! ## The machine -/

def fiberMinConcurrency : ℤ := 4

def fiberMaxConcurrency : ℤ := 1024

inductive Errno where
  | ok
  | EINVAL
  | EPERM
  deriving DecidableEq

/-- The flags as a `TaskControl` finds them: each passed its validator. -/
structure Config where
  ntags : ℕ
  ntags_pos : 0 < ntags
  concurrency : ℤ
  minConcurrency : ℤ
  le_concurrency : fiberMinConcurrency ≤ concurrency
  concurrency_le : concurrency ≤ fiberMaxConcurrency
  min_le : minConcurrency ≤ concurrency

variable {cfg : Config}

abbrev Tag (cfg : Config) := Fin cfg.ntags

/-- `i % FLAGS_task_group_ntags`. -/
def Tag.ofNat (cfg : Config) (i : ℕ) : Tag cfg :=
  ⟨i % cfg.ntags, Nat.mod_lt i cfg.ntags_pos⟩

/-- `FLAGS_fiber_concurrency`, `_concurrency`, the tags of the pthreads that were created, in order,
how many of each tag have not started, and `_tagged_ngroup`. -/
structure State (cfg : Config) where
  flagConcurrency : ℤ
  neverSetConcurrency : Bool
  neverSetConcurrencyByTag : Bool
  concurrency : ℤ
  workers : List (Tag cfg)
  starting : Tag cfg → ℕ
  taggedNgroup : Tag cfg → ℕ

/-- What `add_workers` finds: whether `_workers` can grow, and which `pthread_create` succeeds. -/
structure Env where
  room : Bool
  created : ℕ → Bool

def State.createWorker (s : State cfg) (tag : Tag cfg) : State cfg :=
  { s with
    workers := s.workers ++ [tag]
    starting := update s.starting tag (s.starting tag + 1) }

/-- The loop of `add_workers` with `n` workers to go, from the `i`-th on. -/
def State.createWorkers (tag : Tag cfg) (created : ℕ → Bool) : ℕ → ℕ → State cfg → State cfg
  | 0, _, s => s
  | n + 1, i, s =>
    let s := { s with concurrency := s.concurrency + 1 }
    if created i then createWorkers tag created n (i + 1) (s.createWorker tag)
    else { s with concurrency := s.concurrency - 1 }

/-- `add_workers`. -/
def State.addWorkers (s : State cfg) (num : ℤ) (tag : Tag cfg) (e : Env) : State cfg × ℤ :=
  if num ≤ 0 ∨ e.room = false then (s, 0)
  else
    let s' := s.createWorkers tag e.created num.toNat 0
    (s', s'.concurrency - s.concurrency)

/-- The loop of `add_workers_for_each_tag` with `n` tags to go, from the `i`-th on. -/
def addForEachTag (e : ℕ → Env) : ℕ → ℕ → State cfg × ℤ → State cfg × ℤ
  | 0, _, r => r
  | n + 1, i, (s, added) =>
    let (s', new) := s.addWorkers 1 (.ofNat cfg i) (e i)
    addForEachTag e n (i + 1) (s', added + new)

section

variable (s : State cfg)

/-- `add_workers_for_each_tag`. -/
def State.addWorkersForEachTag (num : ℤ) (e : ℕ → Env) : State cfg × ℤ :=
  addForEachTag e num.toNat 0 (s, 0)

/-- `fiber_setconcurrency` behind its mutex. -/
def State.setLocked (num : ℤ) (e : ℕ → Env) : State cfg × Errno :=
  let s := if s.flagConcurrency ≠ s.concurrency then { s with flagConcurrency := s.concurrency } else s
  let s :=
    if s.flagConcurrency < num then
      let (s', added) := s.addWorkersForEachTag (num - s.flagConcurrency) e
      { s' with flagConcurrency := s'.flagConcurrency + added }
    else s
  (s, if num = s.flagConcurrency then .ok else .EPERM)

/-- `fiber_setconcurrency`; `seen` and `seen'` are the concurrency as it is read in front of the
mutex. -/
def State.setConcurrency (num seen seen' : ℤ) (e : ℕ → Env) : State cfg × Errno :=
  if num < fiberMinConcurrency ∨ fiberMaxConcurrency < num then (s, .EINVAL)
  else if 0 < cfg.minConcurrency then
    if num < cfg.minConcurrency then (s, .EINVAL)
    else ({ s with neverSetConcurrency := false, flagConcurrency := num }, .ok)
  else if num < seen then (s, .EPERM)
  else if num = seen' then (s, .ok)
  else s.setLocked num e

/-- `fiber_setconcurrency_by_tag`. -/
def State.setConcurrencyByTag (num : ℤ) (tag : Tag cfg) (e : Env) : State cfg × Errno :=
  if s.neverSetConcurrencyByTag then ({ s with neverSetConcurrencyByTag := false }, .ok)
  else
    let ngroup := s.concurrency
    let tagNgroup : ℤ := s.taggedNgroup tag
    let add := num - tagNgroup
    if s.flagConcurrency < ngroup + add then (s, .EPERM)
    else if 0 < add then
      let (s', added) := s.addWorkers add tag e
      (s', if add = added then .ok else .EPERM)
    else (s, if num = tagNgroup then .ok else .EPERM)

/-- What `signal_task` does behind its mutex when too few workers were signaled. -/
def State.signalTask (tag : Tag cfg) (e : Env) : State cfg :=
  if 0 < cfg.minConcurrency ∧ s.concurrency < s.flagConcurrency then (s.addWorkers 1 tag e).1 else s

/-- `_add_group`, by a worker that has been created. -/
def State.addGroup (tag : Tag cfg) : State cfg :=
  if 0 < s.starting tag then
    { s with
      starting := update s.starting tag (s.starting tag - 1)
      taggedNgroup :=
        if (s.taggedNgroup tag : ℤ) < fiberMaxConcurrency then
          update s.taggedNgroup tag (s.taggedNgroup tag + 1)
        else s.taggedNgroup }
  else s

end

inductive Act (cfg : Config) where
  | setConcurrency (num seen seen' : ℤ) (e : ℕ → Env)
  | setConcurrencyByTag (num : ℤ) (tag : Tag cfg) (e : Env)
  | signalTask (tag : Tag cfg) (e : Env)
  | addGroup (tag : Tag cfg)

def step (s : State cfg) : Act cfg → State cfg
  | .setConcurrency num seen seen' e => (s.setConcurrency num seen seen' e).1
  | .setConcurrencyByTag num tag e => (s.setConcurrencyByTag num tag e).1
  | .signalTask tag e => s.signalTask tag e
  | .addGroup tag => s.addGroup tag

/-- The number of workers that `init` creates. -/
def Config.initial (cfg : Config) : ℤ :=
  if 0 < cfg.minConcurrency then cfg.minConcurrency else cfg.concurrency

/-- Behind the creation of the workers in `init`, none of which has started. -/
def start (cfg : Config) : State cfg where
  flagConcurrency := cfg.concurrency
  neverSetConcurrency := true
  neverSetConcurrencyByTag := true
  concurrency := cfg.initial
  workers := (List.range cfg.initial.toNat).map (.ofNat cfg)
  starting tag := ((List.range cfg.initial.toNat).map (Tag.ofNat cfg)).count tag
  taggedNgroup _ := 0

/-! ## The invariant -/

/-- The **invariant**: each worker that was created has started or not, and there are not more of
them than a tag has place for. -/
structure Inv (s : State cfg) : Prop where
  workers : s.concurrency = s.workers.length
  started : ∀ tag, s.taggedNgroup tag + s.starting tag = s.workers.count tag
  concurrency_le : s.concurrency ≤ fiberMaxConcurrency
  flag_le : s.flagConcurrency ≤ fiberMaxConcurrency

open State

/-- Workers of the tags `new` are created. -/
def State.grow (s : State cfg) (new : List (Tag cfg)) : State cfg :=
  { s with
    concurrency := s.concurrency + new.length
    workers := s.workers ++ new
    starting := fun tag => s.starting tag + new.count tag }

section Steps

variable {s : State cfg} {tag : Tag cfg} {num : ℤ}

theorem grow_nil (s : State cfg) : s.grow [] = s := by
  simp only [grow, length_nil, Nat.cast_zero, add_zero, append_nil, count_nil]

theorem grow_grow (s : State cfg) (new new' : List (Tag cfg)) : (s.grow new).grow new'
      = s.grow (new ++ new') := by
  simp only [grow, length_append, count_append, append_assoc, Nat.cast_add, add_assoc]

theorem createWorker_eq_grow (s : State cfg) (tag : Tag cfg) :
    { s with concurrency := s.concurrency + 1 }.createWorker tag = s.grow [tag] := by
  simp only [createWorker, grow, length_singleton, Nat.cast_one, mk.injEq, true_and,
    and_true]
  ext tag'
  by_cases htag : tag' = tag
  · rw [htag, update_self, count_singleton_self]
  · rw [update_of_ne htag, count_eq_zero_of_not_mem, add_zero]
    exact fun hmem => htag (mem_singleton.1 hmem)

theorem createWorkers_eq (tag : Tag cfg) (created : ℕ → Bool) (n i : ℕ) (s : State cfg) :
    ∃ k ≤ n, s.createWorkers tag created n i = s.grow (replicate k tag) := by
  induction n generalizing i s with
  | zero => exact ⟨0, le_rfl, (grow_nil s).symm⟩
  | succ n ih =>
    rw [createWorkers]
    split
    case isTrue =>
      obtain ⟨k, hk, heq⟩ := ih (i + 1) ({ s with concurrency := s.concurrency + 1 }.createWorker tag)
      refine ⟨k + 1, Nat.succ_le_succ hk, ?_⟩
      rw [heq, createWorker_eq_grow, grow_grow]
      rfl
    case isFalse =>
      refine ⟨0, Nat.zero_le _, ?_⟩
      rw [replicate_zero, grow_nil]
      rw [add_sub_cancel_right]

/-- `add_workers` creates some workers of the tag and returns their number. -/
theorem addWorkers_eq (s : State cfg) (num : ℤ) (tag : Tag cfg) (e : Env) :
    ∃ k, k ≤ num.toNat ∧ s.addWorkers num tag e = (s.grow (replicate k tag), (k : ℤ)) := by
  unfold addWorkers
  split
  case isTrue => exact ⟨0, Nat.zero_le _, by rw [replicate_zero, grow_nil]; rfl⟩
  case isFalse =>
    obtain ⟨k, hk, heq⟩ := createWorkers_eq tag e.created num.toNat 0 s
    refine ⟨k, hk, ?_⟩
    simp only [heq, grow, length_replicate, add_sub_cancel_left]

theorem addForEachTag_eq (e : ℕ → Env) (n i : ℕ) (s : State cfg) (added : ℤ) :
    ∃ new : List (Tag cfg), new.length ≤ n ∧
      addForEachTag e n i (s, added) = (s.grow new, added + new.length) := by
  induction n generalizing i s added with
  | zero => exact ⟨[], le_rfl, by rw [grow_nil]; exact congrArg (Prod.mk s) (add_zero _).symm⟩
  | succ n ih =>
    obtain ⟨k, hk, heq⟩ := addWorkers_eq s 1 (.ofNat cfg i) (e i)
    obtain ⟨new, hnew, heq'⟩ := ih (i + 1) (s.grow (replicate k (.ofNat cfg i))) (added + k)
    refine ⟨replicate k (.ofNat cfg i) ++ new, ?_, ?_⟩
    · rw [length_append, length_replicate]
      have hk1 : k ≤ 1 := hk
      lia
    · rw [addForEachTag, heq]
      show addForEachTag e n (i + 1) _ = _
      rw [heq', grow_grow, length_append, length_replicate, Nat.cast_add, add_assoc]

/-! ### The steps -/

theorem Inv.grow (h : Inv s) {new : List (Tag cfg)}
    (hle : s.concurrency + new.length ≤ fiberMaxConcurrency) :
    Inv (s.grow new) where
  workers := by
    show s.concurrency + new.length = ((s.workers ++ new).length : ℕ)
    rw [length_append, Nat.cast_add, h.workers]
  started tag := by
    show s.taggedNgroup tag + (s.starting tag + new.count tag) = (s.workers ++ new).count tag
    rw [count_append, ← h.started tag, add_assoc]
  concurrency_le := hle
  flag_le := h.flag_le

theorem setLocked_inv (h : Inv s) (hnum : num ≤ fiberMaxConcurrency) (e : ℕ → Env) :
    Inv (s.setLocked num e).1 := by
  have hsync : ∃ s',
      (if s.flagConcurrency ≠ s.concurrency then { s with flagConcurrency := s.concurrency } else s)
      = s' ∧
      Inv s' ∧ s'.flagConcurrency = s'.concurrency := by
    split
    case isTrue => exact ⟨_, rfl, { h with flag_le := h.concurrency_le }, rfl⟩
    case isFalse hne => exact ⟨_, rfl, h, not_not.1 hne⟩
  obtain ⟨s', hs', h', hflag⟩ := hsync
  unfold setLocked
  simp only [hs']
  split
  case isTrue hlt =>
    obtain ⟨new, hnew, heq⟩ := addForEachTag_eq e (num - s'.flagConcurrency).toNat 0 s' 0
    have hle : s'.concurrency + new.length ≤ fiberMaxConcurrency := by
      have : (new.length : ℤ) ≤ num - s'.flagConcurrency := by lia
      linarith
    rw [addWorkersForEachTag, heq]
    exact { h'.grow hle with
      flag_le := by
        show s'.flagConcurrency + (0 + (new.length : ℤ)) ≤ fiberMaxConcurrency
        rw [zero_add, hflag]
        exact hle }
  case isFalse => exact h'

theorem setConcurrency_inv (h : Inv s) (num seen seen' : ℤ) (e : ℕ → Env) :
    Inv (s.setConcurrency num seen seen' e).1 := by
  unfold setConcurrency
  split
  · exact h
  case isFalse hrange =>
    have hnum : num ≤ fiberMaxConcurrency := not_lt.1 fun hlt => hrange (.inr hlt)
    split
    · split
      · exact h
      · exact { h with flag_le := hnum }
    · split
      · exact h
      · split
        · exact h
        · exact setLocked_inv h hnum e

/-- What `fiber_setconcurrency_by_tag` does when it returns zero. -/
theorem setConcurrencyByTag_ok {e : Env} (hset : s.neverSetConcurrencyByTag = false)
    (hret : (s.setConcurrencyByTag num tag e).2 = .ok) :
    ∃ k : ℕ, (s.setConcurrencyByTag num tag e).1 = s.grow (replicate k tag) ∧ s.taggedNgroup tag + k
      = num := by
  unfold setConcurrencyByTag at hret ⊢
  simp only [hset, Bool.false_eq_true, if_false] at hret ⊢
  split at hret
  case isTrue => cases hret
  case isFalse hroom =>
    rw [if_neg hroom]
    split at hret
    case isTrue hadd =>
      obtain ⟨k, hk, heq⟩ := addWorkers_eq s (num - s.taggedNgroup tag) tag e
      rw [heq] at hret
      rw [if_pos hadd, heq]
      refine ⟨k, rfl, ?_⟩
      split at hret
      case isTrue hall =>
        have hadded : num - s.taggedNgroup tag = (k : ℤ) := hall
        rw [← hadded]
        exact add_sub_cancel ..
      case isFalse => cases hret
    case isFalse hadd =>
      rw [if_neg hadd]
      split at hret
      case isTrue heq => exact ⟨0, (grow_nil s).symm, by rw [Nat.cast_zero, add_zero, heq]⟩
      case isFalse => cases hret

theorem setConcurrencyByTag_inv (h : Inv s) (num : ℤ) (tag : Tag cfg) (e : Env) :
    Inv (s.setConcurrencyByTag num tag e).1 := by
  unfold setConcurrencyByTag
  split
  · exact { h with }
  · simp only
    split
    · exact h
    case isFalse hroom =>
      split
      case isTrue =>
        obtain ⟨k, hk, heq⟩ := addWorkers_eq s (num - s.taggedNgroup tag) tag e
        rw [heq]
        apply h.grow
        rw [length_replicate]
        have hle := h.flag_le
        lia
      case isFalse => exact h

theorem signalTask_inv (h : Inv s) (tag : Tag cfg) (e : Env) : Inv (s.signalTask tag e) := by
  unfold signalTask
  split
  case isTrue hlt =>
    obtain ⟨k, hk, heq⟩ := addWorkers_eq s 1 tag e
    rw [heq]
    apply h.grow
    rw [length_replicate]
    have hle := h.flag_le
    have hk1 : k ≤ 1 := hk
    lia
  case isFalse => exact h

theorem addGroup_inv (h : Inv s) (tag : Tag cfg) : Inv (s.addGroup tag) := by
  unfold addGroup
  split
  case isTrue hpos =>
    have hstarted := h.started tag
    have hcount : s.workers.count tag ≤ s.workers.length := count_le_length
    have hle := h.concurrency_le
    have hworkers := h.workers
    have hroom : (s.taggedNgroup tag : ℤ) < fiberMaxConcurrency := by lia
    rw [if_pos hroom]
    refine { h with started := fun tag' => ?_ }
    show update s.taggedNgroup tag _ tag' + update s.starting tag _ tag' = _
    by_cases htag : tag' = tag
    · rw [htag, update_self, update_self]
      show s.taggedNgroup tag + 1 + (s.starting tag - 1) = s.workers.count tag
      lia
    · rw [update_of_ne htag, update_of_ne htag]
      exact h.started tag'
  case isFalse => exact h

theorem step_inv : Keeps (step : State cfg → Act cfg → State cfg) Inv := by
  intro s a h
  cases a with
  | setConcurrency num seen seen' e => exact setConcurrency_inv h num seen seen' e
  | setConcurrencyByTag num tag e => exact setConcurrencyByTag_inv h num tag e
  | signalTask tag e => exact signalTask_inv h tag e
  | addGroup tag => exact addGroup_inv h tag

theorem start_inv (cfg : Config) : Inv (start cfg) where
  workers := by
    have hpos : 0 ≤ cfg.initial := by
      have hle : (4 : ℤ) ≤ cfg.concurrency := cfg.le_concurrency
      unfold Config.initial
      split <;> lia
    rw [start, length_map, length_range, Int.toNat_of_nonneg hpos]
  started tag := zero_add _
  concurrency_le := by
    have hle := cfg.concurrency_le
    have hmin := cfg.min_le
    show cfg.initial ≤ _
    unfold Config.initial
    split <;> lia
  flag_le := cfg.concurrency_le

end Steps

/-- **Settings are met**: the concurrency is the number of workers created, and a tag whose setting
returned zero has the set number of groups, once all workers have started and nothing else created
one of the tag, exactly when all workers of the tag had started before the call. -/
theorem run_concurrency_met_iff (cfg : Config) :
    (∀ as, (runFrom step (start cfg) as).concurrency = (runFrom step (start cfg) as).workers.length) ∧
    ∀ as num tag e bs,
      let s := runFrom step (start cfg) as
      let s₁ := (s.setConcurrencyByTag num tag e).1
      let s' := runFrom step s₁ bs
      s.neverSetConcurrencyByTag = false → (s.setConcurrencyByTag num tag e).2 = .ok →
      s'.workers.count tag = s₁.workers.count tag → (∀ tag, s'.starting tag = 0) →
      ((s'.taggedNgroup tag : ℤ) = num ↔ s.starting tag = 0) := by
  refine ⟨fun as => (step_inv.run (start_inv cfg) as).workers, ?_⟩
  intro as num tag e bs s s₁ s' hset hret hother hstarted
  have h : Inv s := step_inv.run (start_inv cfg) as
  have h' : Inv s' := step_inv.run (setConcurrencyByTag_inv h num tag e) bs
  obtain ⟨k, hs₁, hnum⟩ := setConcurrencyByTag_ok hset hret
  have hcount : s₁.workers.count tag = s.workers.count tag + k := by
    show (s.setConcurrencyByTag num tag e).1.workers.count tag = _
    rw [hs₁, grow, count_append, count_replicate_self]
  have hbefore := h.started tag
  have hafter := h'.started tag
  rw [hstarted tag, hother, hcount] at hafter
  lia

/-- One tag, four workers at the beginning and at most nine. -/
def lazyConfig : Config := ⟨1, by decide, 9, 4, by decide, by decide, by decide⟩

def tag0 : Tag lazyConfig := .ofNat lazyConfig 0

/-- Every `pthread_create` succeeds. -/
def allCreated : Env := ⟨true, fun _ => true⟩

/-- A first setting by tag, which does nothing, when `n` workers have started. -/
def startedWorkers (n : ℕ) : List (Act lazyConfig) :=
  List.replicate n (.addGroup tag0) ++ [.setConcurrencyByTag 4 tag0 allCreated]

theorem run_concurrency_met_six :
    (((runFrom step
      (((runFrom step (start lazyConfig) (startedWorkers 4)).setConcurrencyByTag 6 tag0
      allCreated).1)
      [.addGroup tag0, .addGroup tag0]).taggedNgroup tag0 : ℤ) = 6 ↔
        (runFrom step (start lazyConfig) (startedWorkers 4)).starting tag0 = 0) :=
  (run_concurrency_met_iff lazyConfig).2 (startedWorkers 4) 6 tag0
    allCreated [.addGroup tag0, .addGroup tag0]
    (by decide) (by decide) (by decide) (by decide)

/-- One worker has started when the tag is set to six: three of the others are created again. -/
theorem unstarted_workers_doubled :
    let s := runFrom step (start lazyConfig) (startedWorkers 1)
    let s₁ := (s.setConcurrencyByTag 6 tag0 allCreated).1
    let s' := runFrom step s₁ (List.replicate 8 (.addGroup tag0))
    s.neverSetConcurrencyByTag = false ∧ (s.setConcurrencyByTag 6 tag0 allCreated).2 = .ok ∧
      s'.workers.count tag0 = s₁.workers.count tag0 ∧ (∀ tag, s'.starting tag = 0) ∧
        s'.taggedNgroup tag0 = 9 := by
  decide

end Eabase.Fiber.Concurrency
