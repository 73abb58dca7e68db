import Mathlib.Algebra.Order.Ring.Int

/-!
# Machines and their runs

A machine is a step function: a label says which party moves and what it
chooses, and a label that is not enabled leaves the state as it is. A run is
then a list of labels, any interleaving is such a list, and a property of
every reachable state is one that holds initially and that each step keeps.

A run may also be watched by a condition on its steps (`Along`): an invariant
that only those steps keep holds along every run that meets the condition.
-/

namespace Eabase.Lib

variable {σ α : Type*} {step : σ → α → σ} {I J : σ → Prop} {C : σ → α → Prop} {as : List α}
  {s : σ} {D : σ → α → Prop} {N : Type*} {bs : List α} {f : σ → α → N}

/-- The state that the labels `as` lead to. -/
def runFrom (step : σ → α → σ) (s : σ) (as : List α) : σ :=
  as.foldl step s

@[simp] theorem runFrom_nil (s : σ) : runFrom step s [] = s := rfl

@[simp] theorem runFrom_cons (s : σ) (a : α) (as : List α) :
    runFrom step s (a :: as) = runFrom step (step s a) as := rfl

theorem runFrom_append (s : σ) (as bs : List α) :
    runFrom step s (as ++ bs) = runFrom step (runFrom step s as) bs := by
  simp [runFrom]

/-- The step keeps `I`, whatever its label. -/
def Keeps (step : σ → α → σ) (I : σ → Prop) : Prop :=
  ∀ s a, I s → I (step s a)

/-- The **run rule**: what every step keeps, every run keeps. -/
theorem Keeps.run (h : Keeps step I) (hs : I s) (as : List α) : I (runFrom step s as) := by
  induction as generalizing s with
  | nil => exact hs
  | cons a as ih => exact ih (h s a hs)

/-- Every label of the run meets `C` in the state it is taken in. -/
def Along (step : σ → α → σ) (C : σ → α → Prop) : σ → List α → Prop
  | _, [] => True
  | s, a :: as => C s a ∧ Along step C (step s a) as

instance instDecidableAlong [∀ s a, Decidable (C s a)] :
    ∀ (s : σ) (as : List α), Decidable (Along step C s as)
  | _, [] => isTrue trivial
  | s, a :: as =>
    have := instDecidableAlong (step s a) as
    inferInstanceAs (Decidable (C s a ∧ Along step C (step s a) as))

/-- The run rule for runs whose steps meet a condition. -/
theorem Along.run (hc : Along step C s as)
    (h : ∀ s a, I s → C s a → I (step s a)) (hs : I s) : I (runFrom step s as) := by
  induction as generalizing s with
  | nil => exact hs
  | cons a as ih => exact ih hc.2 (h s a hs hc.1)

/-- The **measure rule**: a label that makes a measure smaller, until `J` holds, leads to `J`. -/
theorem reaches_of_decreases (step : σ → α → σ) (a : α) (μ : σ → ℕ)
    (h : ∀ s, I s → ¬J s → I (step s a) ∧ μ (step s a) < μ s) (hs : I s) :
    ∃ n, I (runFrom step s (List.replicate n a)) ∧ J (runFrom step s (List.replicate n a)) := by
  induction hn : μ s using Nat.strongRecOn generalizing s with
  | ind n ih =>
    by_cases hj : J s
    · exact ⟨0, hs, hj⟩
    · obtain ⟨hs', hlt⟩ := h s hs hj
      obtain ⟨m, hm⟩ := ih _ (hn ▸ hlt) hs' rfl
      exact ⟨m + 1, hm⟩

/-- A condition that follows from another one where an invariant holds follows from it along every
run. -/
theorem Along.mono (hc : Along step C s as)
    (hcd : ∀ s a, I s → C s a → D s a) (h : ∀ s a, I s → C s a → I (step s a)) (hs : I s) :
    Along step D s as := by
  induction as generalizing s with
  | nil => trivial
  | cons a as ih => exact ⟨hcd s a hs hc.1, ih hc.2 (h s a hs hc.1)⟩

/-- A condition that all labels meet is met along the run. -/
theorem along_of_forall {P : α → Prop} (h : ∀ a ∈ as, P a) (s : σ) :
    Along step (fun _ a => P a) s as := by
  induction as generalizing s with
  | nil => trivial
  | cons a as ih => exact ⟨h a List.mem_cons_self, ih (fun b hb => h b (List.mem_cons_of_mem _ hb)) _⟩

/-- What the steps of a run yield, together. -/
def yields {N : Type*} [AddMonoid N] (step : σ → α → σ) (f : σ → α → N) : σ → List α → N
  | _, [] => 0
  | s, a :: as => f s a + yields step f (step s a) as

theorem yields_append [AddMonoid N] (s : σ) (as bs : List α) :
    yields step f s (as ++ bs) = yields step f s as + yields step f (runFrom step s as) bs := by
  induction as generalizing s with
  | nil => exact (zero_add _).symm
  | cons a as ih => rw [List.cons_append, yields, yields, ih, add_assoc, runFrom_cons]

/-- A condition met along a run is met along the beginning of it. -/
theorem Along.initial (h : Along step C s as) (hbs : bs <+: as) : Along step C s bs := by
  induction bs generalizing s as with
  | nil => trivial
  | cons b bs ih =>
    obtain ⟨as, rfl⟩ := hbs
    exact ⟨h.1, ih h.2 (List.prefix_append ..)⟩

/-- And along the rest of it. -/
theorem Along.append_right (h : Along step C s (as ++ bs)) :
    Along step C (runFrom step s as) bs := by
  induction as generalizing s with
  | nil => exact h
  | cons a as ih => exact ih h.2

/-- The run rule for an invariant that speaks of what the run has yielded so far. -/
theorem Along.yields [AddMonoid N] {I : N → σ → Prop} {n : N}
    (hc : Along step C s as) (h : ∀ n s a, I n s → C s a → I (n + f s a) (step s a)) (hs : I n s) :
    I (n + Lib.yields step f s as) (runFrom step s as) := by
  induction as generalizing s n with
  | nil =>
    rw [Lib.yields, add_zero]
    exact hs
  | cons a as ih =>
    rw [Lib.yields, ← add_assoc]
    exact ih hc.2 (h n s a hs hc.1)

/-- Two conditions that agree where an invariant holds agree along every run, when the steps that
meet them keep it. -/
theorem along_congr (hcd : ∀ s a, I s → (C s a ↔ D s a))
    (h : ∀ s a, I s → D s a → I (step s a)) (hs : I s) (as : List α) :
    Along step C s as ↔ Along step D s as := by
  induction as generalizing s with
  | nil => exact Iff.rfl
  | cons a as ih =>
    constructor
    · rintro ⟨hc, hrest⟩
      have hd := (hcd s a hs).1 hc
      exact ⟨hd, (ih (h s a hs hd)).1 hrest⟩
    · rintro ⟨hd, hrest⟩
      exact ⟨(hcd s a hs).2 hd, (ih (h s a hs hd)).2 hrest⟩

/-- The **prefix rule**: where a condition on a step says that the step keeps an invariant, it is
met along a run just when the invariant holds in every state of the run. -/
theorem along_iff_forall_prefix (h : ∀ s a, I s → (C s a ↔ I (step s a))) (hs : I s) (as : List α) :
    Along step C s as ↔ ∀ bs, bs <+: as → I (runFrom step s bs) := by
  constructor
  · intro hc bs hbs
    exact (hc.initial hbs).run (fun s a hi ha => (h s a hi).1 ha) hs
  · intro hall
    induction as generalizing s with
    | nil => trivial
    | cons a as ih =>
      have hstep : I (step s a) := hall [a] (List.prefix_append [a] as)
      refine ⟨(h s a hs).2 hstep, ih hstep fun bs hbs => ?_⟩
      exact hall (a :: bs) ((List.prefix_cons_inj a).2 hbs)

end Eabase.Lib
