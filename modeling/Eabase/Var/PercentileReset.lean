import Eabase.Var.PercentileRecording

/-!
# What a reset returns

In every run of a `Percentile` in which no `CHECK` fails, whatever threads record
and reset and however their steps come between each other, `reset` and
`get_value` return intervals with as many samples as there is room for, and the
samples are latencies that were recorded.
-/

namespace Eabase.Var.Percentile

open Lib Function Multiset

variable {ι : Type*} [DecidableEq ι]

/-- No `CHECK` of a `merge` fails. -/
def Checks (s : State ι) : Act ι → Prop
  | .go t draw =>
    match s.pc t with
    | .merging latency =>
      let index := indexOf latency
      (Interval.mergeInto globalSize ⟨draw index 0, draw index, draw index⟩
        (s.globalResult.intervalAt index)
        ((s.elements t).intervalAt index)).isSome
    | .walk _ _ ret _ (node :: _) =>
      ∀ index,
        (Interval.mergeInto globalSize ⟨draw index 0, draw index, draw index⟩ (ret.intervalAt index)
        ((s.elements node).intervalAt index)).isSome
    | _ => True
  | _ => True

def Samples.Within (log : Multiset ℤ) (e : Samples) : Prop :=
  ∀ index, ∀ x ∈ e.bag index, x ∈ log.map clamped

def Pc.Sound (log : Multiset ℤ) : Pc ι → Prop
  | .element latency | .merging latency | .clearing latency => 0 ≤ latency
  | .walk _ _ ret _ _ => ret.Wf (Interval.Wf globalSize) ∧ ret.Within log
  | _ => True

/-- Every interval is as it should be, wherever it is. -/
structure Sound (log : Multiset ℤ) (s : State ι) : Prop where
  phase : ∀ t, (s.pc t).Sound log
  global : s.globalResult.Wf (Interval.Wf globalSize) ∧ s.globalResult.Within log
  element : ∀ t, (s.elements t).Wf Interval.Local ∧ (s.elements t).Within log
  result : ∀ r ∈ s.results, r.value.Wf (Interval.Wf globalSize) ∧ r.value.Within log

variable {log more : Multiset ℤ} {s s' : State ι} {t : ι} {draw : Fin 32 → ℕ → ℕ} {latency : ℤ}
  {p : Pc ι} {i : Interval}

/-! ## Samples -/

namespace Samples

variable {e rhs : Samples}

theorem Within.mono (h : e.Within log) (more : Multiset ℤ) : e.Within (log + more) := by
  intro index x hx
  rw [map_add]
  exact mem_add.2 (.inl (h index x hx))

theorem within_new : new.Within log := by
  intro index x hx
  exact absurd hx (notMem_zero x)

theorem Within.copy (h : e.Within log) : e.copy.Within log := by
  intro index x hx
  rw [bag_copy] at hx
  exact h index x hx

theorem Within.assign (h : rhs.Within log) (e : Samples) : (e.assign rhs).Within log := by
  intro index x hx
  rw [bag_assign] at hx
  exact h index x hx

theorem Within.setInterval (h : e.Within log) {index : Fin 32} {i : Interval} {n : ℕ}
    (hi : ∀ x ∈ i.samples, x ∈ log.map clamped) : (e.setInterval index i n).Within log := by
  intro j x hx
  rw [bag_setInterval] at hx
  split at hx
  · exact hi x (mem_coe.1 hx)
  · exact h j x hx

end Samples

theorem Interval.mem_merge {rhs : Interval} (h : i.Wf globalSize) (hr : rhs.Local) {draw : ℕ → ℕ}
    (hlt : i.numAdded + rhs.numAdded < two32) {x : ℕ} (hx : x ∈ (i.merge draw rhs).samples) :
    x ∈ i.samples ∨ x ∈ rhs.samples := by
  have hle := mergeInto_le (mergeInto_globalSize h hr draw hlt)
  have hmem := mem_of_le hle (mem_coe.2 hx)
  exact mem_add.1 hmem

theorem Samples.Within.merge {e rhs : Samples} (h : e.Within log) (hrhs : rhs.Within log)
    (he : e.Wf (Interval.Wf globalSize)) (hr : rhs.Wf Interval.Local)
    (hlt : ∀ index, e.count index + rhs.count index < two32) (draw : Fin 32 → ℕ → ℕ) :
    (e.merge draw rhs).Within log := by
  intro index x hx
  have hmerged := e.merge_intervalAt rhs draw index
  rw [bag, hmerged] at hx
  cases ho : nonempty (rhs.intervals index) with
  | none =>
    rw [ho] at hx
    exact h index x hx
  | some i =>
    have hne := kind_local.nonempty (hr.interval index)
    have hsamples := nonempty_samples (rhs.intervals index)
    rw [ho] at hx hne hsamples
    have hlt' : (e.intervalAt index).numAdded + i.numAdded < two32 :=
      (congrArg ((e.intervalAt index).numAdded + ·) hne.2).trans_lt (hlt index)
    rcases Interval.mem_merge (he.interval index) hne.1 hlt' (mem_coe.1 hx) with hx | hx
    · exact h index x hx
    · apply hrhs index x
      rw [bag, intervalAt, ← hsamples]
      exact hx

/-! ## The steps -/

omit [DecidableEq ι] in
theorem Pc.Sound.mono (h : p.Sound log) (more : Multiset ℤ) : p.Sound (log + more) := by
  cases p with
  | walk reset start ret tmp nodes => exact ⟨h.1, h.2.mono more⟩
  | _ => exact h

omit [DecidableEq ι] in
theorem Sound.mono (h : Sound log s) (more : Multiset ℤ) : Sound (log + more) s where
  phase t := (h.phase t).mono more
  global := ⟨h.global.1, h.global.2.mono more⟩
  element t := ⟨(h.element t).1, (h.element t).2.mono more⟩
  result r hr := ⟨(h.result r hr).1, (h.result r hr).2.mono more⟩

theorem sound_phases (h : ∀ t, (s.pc t).Sound log) (hp : p.Sound log) (t : ι) :
    ∀ u, ((s.goto t p).pc u).Sound log :=
  (forall_update_iff s.pc (fun _ q => q.Sound log)).2 ⟨hp, fun u _ => h u⟩

theorem Sound.goto (h : Sound log s) (hp : p.Sound log) : Sound log (s.goto t p) :=
  { h with phase := sound_phases h.phase hp t }

theorem Sound.setElement (h : Sound log s) {e : Samples} (he : e.Wf Interval.Local) (hin : e.Within log) :
    Sound log (s.setElement t e) :=
  { h with
    element := (forall_update_iff s.elements
      (fun _ e => e.Wf Interval.Local ∧ e.Within log)).2 ⟨⟨he, hin⟩, fun u _ => h.element u⟩ }

open Samples

theorem Sound.clear (h : Sound log s) : Sound log (s.setElement t ((s.elements t).assign .new)) :=
  h.setElement (assign_wf kind_local (wf_new Interval.local_empty) _).1
    (within_new.assign _)

theorem Sound.addStep (h : Sound log s) (t : ι) (latency : ℤ) : Sound log (addStep s t latency) := by
  unfold Percentile.addStep
  split
  · split
    · exact h
    next hneg =>
      exact h.goto (not_lt.1 hneg)
  · exact h.clear.goto trivial

theorem Sound.appendStep (h : Sound log s) (t : ι) (latency : ℤ) :
    Sound log (appendStep s t latency) := by
  unfold Percentile.appendStep
  split
  · have hp : (if latency < 0 then .idle else .element latency : Pc ι).Sound log := by
      split
      · trivial
      next hneg =>
        exact not_lt.1 hneg
    exact { h with phase := sound_phases h.phase hp t }
  · exact h

theorem Samples.Within.addLatency {e : Samples} (h : e.Within log) (hlat : 0 ≤ latency)
    (hi : i.Local) (hin : ∀ x ∈ i.samples, x ∈ log.map clamped) (hfull : i.full localSize = false)
    (n : ℕ) :
    (e.addLatency latency i n).Within (log + {latency}) := by
  apply (h.mono {latency}).setInterval
  intro x hx
  rw [hi.add64_samples hfull hlat] at hx
  rw [map_add]
  rcases List.mem_append.1 hx with hx | hx
  · exact mem_add.2 (.inl (hin x hx))
  · exact mem_add.2 (.inr (mem_coe.2 hx))

section

variable (h : Sound log s)
include h

theorem Sound.elementStep (hpc : s.pc t = .element latency) :
    Sound (log + if ((elementStep s t latency).pc t).idles then {latency} else 0)
    (elementStep s t latency) := by
  have hlat : 0 ≤ latency := (hpc ▸ h.phase t : (Pc.element latency).Sound log)
  obtain ⟨hwf, hin⟩ := h.element t
  simp only [Percentile.elementStep]
  split
  · have hself : (s.goto t (.merging latency)).pc t = .merging latency := update_self ..
    simp only [hself, Pc.idles, Bool.false_eq_true, if_false, add_zero]
    exact h.goto hlat
  next hfull =>
    have hroom := Bool.eq_false_of_not_eq_true hfull
    have hadd := (hwf.addLatency hlat hroom).1
    have hadd_in := hin.addLatency hlat (hwf.interval _) (hin _) hroom ((s.elements t).numAdded)
    set e := (s.elements t).addLatency latency ((s.elements t).intervalAt (indexOf latency))
      (s.elements t).numAdded
    have hself : ({ s.setElement t e with added := s.added + 1 }.goto t .idle).pc t = .idle :=
      update_self ..
    simp only [hself, Pc.idles, if_true]
    have hset : Sound (log + {latency}) (s.setElement t e) := (h.mono {latency}).setElement hadd hadd_in
    have hadded : Sound (log + {latency}) { s.setElement t e with added := s.added + 1 } := { hset with }
    exact hadded.goto trivial

theorem Sound.clearingStep (hpc : s.pc t = .clearing latency) :
    Sound (log + {latency}) (clearingStep s t latency) := by
  have hlat : 0 ≤ latency := (hpc ▸ h.phase t : (Pc.clearing latency).Sound log)
  obtain ⟨hwf, hin⟩ := h.element t
  have hadd := (hwf.clearLatency hlat).1
  have hadd_in := hin.addLatency hlat Interval.local_empty nofun rfl
    ((s.elements t).numAdded + two64 - ((s.elements t).intervalAt (indexOf latency)).numAdded)
  set e := (s.elements t).addLatency latency .empty
    ((s.elements t).numAdded + two64 - ((s.elements t).intervalAt (indexOf latency)).numAdded)
  have hset : Sound (log + {latency}) (s.setElement t e) := (h.mono {latency}).setElement hadd hadd_in
  have hadded : Sound (log + {latency}) { s.setElement t e with added := s.added + 1 } := { hset with }
  exact hadded.goto trivial

theorem Sound.mergingStep (hpc : s.pc t = .merging latency)
    (hchecks : Checks s (.go t draw)) : Sound log (mergingStep s t latency draw) := by
  have hlat : 0 ≤ latency := (hpc ▸ h.phase t : (Pc.merging latency).Sound log)
  simp only [Checks, hpc] at hchecks
  obtain ⟨hwf, hin⟩ := h.element t
  have hlocal := hwf.interval (indexOf latency)
  have hinterval := h.global.1.interval (indexOf latency)
  have hlt := Interval.lt_of_mergeInto_isSome hinterval hlocal hchecks
  simp only [Percentile.mergingStep]
  split
  · have hmerged := (h.global.1.mergeInterval hlocal (draw (indexOf latency)) hlt).1
    set g := s.globalResult.setInterval (indexOf latency)
      ((s.globalResult.intervalAt (indexOf latency)).merge (draw (indexOf latency))
        ((s.elements t).intervalAt (indexOf latency)))
      (s.globalResult.numAdded + ((s.elements t).intervalAt (indexOf latency)).numAdded)
    have hg : g.Within log := by
      apply h.global.2.setInterval
      intro x hx
      rcases Interval.mem_merge hinterval hlocal hlt hx with hx | hx
      · exact h.global.2 _ x (mem_coe.2 hx)
      · exact hin _ x (mem_coe.2 hx)
    have hset : Sound log { s with globalResult := g } := { h with global := ⟨hmerged, hg⟩ }
    exact hset.goto hlat
  · exact h

theorem Sound.lockStep (t : ι) (reset : Bool) (start : ℕ) :
    Sound log (lockStep s t reset start) := by
  have hcopy : (Pc.walk reset start s.globalResult.copy .new s.agents : Pc ι).Sound log :=
    ⟨(copy_wf kind_global h.global.1).1, h.global.2.copy⟩
  have hnew := (assign_wf kind_global (wf_new Interval.wf_empty) s.globalResult).1
  unfold Percentile.lockStep
  split
  · cases reset with
    | false => exact { h with phase := sound_phases h.phase hcopy t }
    | true =>
      exact { h with
        global := ⟨hnew, within_new.assign _⟩
        phase := sound_phases h.phase hcopy t }
  · exact h

theorem Sound.walkStep {reset : Bool} {start : ℕ} {ret tmp : Samples} {nodes : List ι}
    (hpc : s.pc t = .walk reset start ret tmp nodes) (hchecks : Checks s (.go t draw)) :
    Sound log (walkStep s t reset start ret tmp nodes draw) := by
  obtain ⟨hret, hretin⟩ : (Pc.walk reset start ret tmp nodes).Sound log := hpc ▸ h.phase t
  cases nodes with
  | nil =>
    have hcopy := (copy_wf kind_global hret).1
    exact { h with
      phase := sound_phases (p := .idle) h.phase trivial t
      result := List.forall_mem_cons.2 ⟨⟨hcopy, hretin.copy⟩, h.result⟩ }
  | cons node nodes =>
    simp only [Checks, hpc] at hchecks
    obtain ⟨hwf, hin⟩ := h.element node
    have hlt : ∀ index, ret.count index + (s.elements node).count index < two32 := fun index =>
      Interval.lt_of_mergeInto_isSome (hret.interval index) (hwf.interval index) (hchecks index)
    have hassign := (assign_wf kind_local hwf tmp).1
    have hlt' : ∀ index, ret.count index + (tmp.assign (s.elements node)).count index < two32 := by
      intro index
      rw [assign_count kind_local hwf]
      exact hlt index
    have hmerge := (merge_wf hret hassign hlt' draw).1
    have hmerge_in := hretin.merge (hin.assign tmp) hret hassign hlt' draw
    have hp :
        (.walk reset start (ret.merge draw (tmp.assign (s.elements node)))
        (tmp.assign (s.elements node))
        nodes : Pc ι).Sound log := ⟨hmerge, hmerge_in⟩
    simp only [Percentile.walkStep]
    split
    · have hcleared : Sound log (s.setElement node ((s.elements node).assign .new)) := h.clear
      exact { hcleared with phase := sound_phases h.phase hp t }
    · exact h.goto hp

theorem Sound.goStep {t : ι} (hchecks : Checks s (.go t draw)) :
    Sound (log + returned s (.go t draw)) (goStep s t draw) := by
  have hreturned : returned s (.go t draw)
      = if ((Percentile.goStep s t draw).pc t).idles then (s.pc t).latency.filter (0 ≤ ·) else 0 := rfl
  rw [hreturned]
  cases hpc : s.pc t with
  | idle =>
    have hgo : Percentile.goStep s t draw = s := by rw [Percentile.goStep, hpc]
    rw [hgo]
    exact h.mono _
  | append latency =>
    have hgo : Percentile.goStep s t draw
        = Percentile.appendStep s t latency := by rw [Percentile.goStep, hpc]
    rw [hgo]
    exact (h.appendStep t latency).mono _
  | element latency =>
    have hlat : 0 ≤ latency := (hpc ▸ h.phase t : (Pc.element latency).Sound log)
    have hgo : Percentile.goStep s t draw
        = Percentile.elementStep s t latency := by rw [Percentile.goStep, hpc]
    rw [hgo, Pc.latency, filter_singleton, if_pos hlat]
    exact h.elementStep hpc
  | merging latency =>
    have hgo : Percentile.goStep s t draw
        = Percentile.mergingStep s t latency draw := by rw [Percentile.goStep, hpc]
    rw [hgo]
    exact (h.mergingStep hpc hchecks).mono _
  | clearing latency =>
    have hlat : 0 ≤ latency := (hpc ▸ h.phase t : (Pc.clearing latency).Sound log)
    have hgo : Percentile.goStep s t draw
        = Percentile.clearingStep s t latency := by rw [Percentile.goStep, hpc]
    have hself : (Percentile.clearingStep s t latency).pc t = .idle := update_self ..
    rw [hgo, hself, Pc.idles, if_pos rfl, Pc.latency, filter_singleton, if_pos hlat]
    exact h.clearingStep hpc
  | lock reset start =>
    have hgo : Percentile.goStep s t draw
        = Percentile.lockStep s t reset start := by rw [Percentile.goStep, hpc]
    rw [hgo]
    exact (h.lockStep t reset start).mono _
  | walk reset start ret tmp nodes =>
    have hgo : Percentile.goStep s t draw = Percentile.walkStep s t reset start ret tmp nodes draw := by
      rw [Percentile.goStep, hpc]
    rw [hgo]
    exact (h.walkStep hpc hchecks).mono _

theorem Sound.step {a : Act ι} (hchecks : Checks s a) :
    Sound (log + returned s a) (step s a) := by
  cases a with
  | add t latency =>
    simp only [returned, add_zero, Percentile.step]
    split
    · exact h.addStep t latency
    · exact h
  | getValue t =>
    simp only [returned, add_zero, Percentile.step]
    split
    · exact h.goto trivial
    · exact h
  | reset t =>
    simp only [returned, add_zero, Percentile.step]
    split
    · exact h.goto trivial
    · exact h
  | go t draw => exact h.goStep hchecks

end

omit [DecidableEq ι] in
theorem start_sound : Sound 0 (start ι) where
  phase _ := trivial
  global := ⟨wf_new Interval.wf_empty, within_new⟩
  element _ := ⟨wf_new Interval.local_empty, within_new⟩
  result _ := nofun

/-- In a run in which no `CHECK` fails every interval is as it should be. -/
theorem run_sound (as : List (Act ι)) (hchecks : Along step Checks (start ι) as) :
    Sound (latencies as) (runFrom step (start ι) as) := by
  have hrun := hchecks.yields (I := Sound) (f := returned) (fun log s a h hc => h.step hc) start_sound
  rwa [zero_add] at hrun

end Eabase.Var.Percentile
