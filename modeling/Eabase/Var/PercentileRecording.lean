import Eabase.Var.PercentileNumber

/-!
# Recording and collecting

Threads record latencies, no interval gets more of them than it has room for,
and when all calls have returned a `reset` collects them: it returns all of
them, each in its interval, and `get_number` of a rank is the latency of that
rank.
-/

namespace Eabase.Var.Percentile

open Lib Function List
open Multiset (card_add card_map coe_add)

variable {ι : Type*} [DecidableEq ι]

/-! ## What is recorded -/

/-- The latency that a thread is in `operator<<` with. -/
def Pc.latency : Pc ι → Multiset ℤ
  | .append latency | .element latency | .merging latency | .clearing latency => {latency}
  | _ => 0

def Pc.idles : Pc ι → Bool
  | .idle => true
  | _ => false

/-- The latency whose `operator<<` returns with a step; negative ones are dropped. -/
def returned (s : State ι) : Act ι → Multiset ℤ
  | .go t draw =>
    if ((goStep s t draw).pc t).idles then (s.pc t).latency.filter (0 ≤ ·) else 0
  | _ => 0

def latencies (as : List (Act ι)) : Multiset ℤ :=
  yields step returned (start ι) as

def Act.Records : Act ι → Prop
  | .add .. | .go .. => True
  | _ => False

/-- The thread is in `get_value` or `reset`. -/
def Pc.walks : Pc ι → Bool
  | .lock .. | .walk .. => true
  | _ => false

/-- The samples of a thread, but for those that were merged and not cleared yet. -/
def State.netBag (s : State ι) (index : Fin 32) (t : ι) : Multiset ℕ :=
  match s.pc t with
  | .clearing latency => if indexOf latency = index then 0 else (s.elements t).bag index
  | _ => (s.elements t).bag index

/-- No interval has got more latencies than it has room for. -/
def Fits (log : Multiset ℤ) : Prop :=
  ∀ index, (bagOf log index).card ≤ globalSize

/-- While latencies are recorded and no interval is full, they are all there. -/
structure Recording (log : Multiset ℤ) (s : State ι) : Prop where
  inv : Inv s
  lock : s.combinerLock = none
  calm : ∀ t, (s.pc t).walks = false
  global : ∀ index, (s.globalResult.intervalAt index).Filled globalSize
  bags : ∀ index, s.globalResult.bag index + shares s.agents (s.netBag index) = bagOf log index

variable {s s' : State ι} {t : ι} {log : Multiset ℤ} {index : Fin 32} {i : Interval}
  {latency : ℤ} {draws : List (Fin 32 → ℕ → ℕ)}

/-! ## Samples -/

theorem stored_lt (latency : ℤ) : stored latency < 2 ^ 32 := by
  rw [stored_eq]
  exact (min_le_right _ _).trans_lt (by decide)

theorem Interval.Local.add64_samples (h : i.Local) (hfull : i.full localSize = false)
    (hlat : 0 ≤ latency) : (i.add64 localSize (stored latency)).samples = i.samples ++
    [clamped latency] := by
  have hne : i.samples.length ≠ localSize := by simpa [Interval.full] using hfull
  have hlen := h.length
  have hle := h.le
  have hlt := stored_lt latency
  have hmod : (stored latency).toNat % two32 = clamped latency := by
    rw [clamped_eq]
    exact Nat.mod_eq_of_lt (by rw [two32]; lia)
  rw [Interval.add64, if_pos (stored_nonneg hlat), Interval.add32, if_neg (by lia), hmod]

theorem Interval.Filled.wf (h : i.Filled globalSize) : i.Wf globalSize where
  length := h.length.trans (Nat.min_eq_left h.le).symm
  lt := lt_of_le_of_lt h.le (by decide)

theorem Interval.Local.merge_small {rhs : Interval} (hr : rhs.Local) (draw : ℕ → ℕ)
    (hle : i.numAdded + rhs.numAdded ≤ globalSize) :
    i.merge draw rhs = ⟨i.numAdded + rhs.numAdded, i.samples ++ rhs.samples⟩ := by
  have hlt : i.numAdded + rhs.numAdded < two32 := hle.trans_lt (by decide)
  unfold Interval.merge
  split
  next hzero =>
    have hnil : rhs.samples = [] := length_eq_zero_iff.1 (hr.length.trans hzero)
    rw [hzero, hnil, append_nil]
    rfl
  · simp only [Nat.mod_eq_of_lt hlt, if_pos hle]

theorem Interval.Filled.append {rhs : Interval} (h : i.Filled globalSize) (hr : rhs.Local)
    (hle : i.numAdded + rhs.numAdded ≤ globalSize) :
    Interval.Filled globalSize ⟨i.numAdded + rhs.numAdded, i.samples ++ rhs.samples⟩ where
  length := by rw [length_append, h.length, hr.length]
  le := hle
  lt := lt_of_le_of_lt hle (by decide)

theorem Samples.bag_setInterval (e : Samples) (index : Fin 32) (i : Interval) (n : ℕ) (j : Fin 32) :
    (e.setInterval index i n).bag j = if j = index then ↑i.samples else e.bag j := by
  rw [Samples.bag, Samples.setInterval_interval]
  split <;> rfl

theorem Samples.Wf.bag_card {e : Samples} (h : e.Wf Interval.Local) (index : Fin 32) :
    (e.bag index).card = e.count index :=
  (h.interval index).length

theorem Samples.Wf.bag_eq_zero {e : Samples} (h : e.Wf Interval.Local) (htotal : e.total = 0)
    (index : Fin 32) :
    e.bag index = 0 := by
  have hle := Samples.count_le_total e index
  rw [← Multiset.card_eq_zero, h.bag_card]
  lia

/-! ## The steps -/

omit [DecidableEq ι] in
theorem netBag_congr {u : ι} (helem : s'.elements u = s.elements u) (hpc : s'.pc u = s.pc u)
    (index : Fin 32) :
    s'.netBag index u = s.netBag index u := by
  simp only [State.netBag, helem, hpc]

omit [DecidableEq ι] in
theorem netBag_eq (hpc : ∀ latency, s.pc t ≠ .clearing latency) (index : Fin 32) :
    s.netBag index t = (s.elements t).bag index := by
  unfold State.netBag
  split
  · exact absurd ‹_› (hpc _)
  · rfl

section

variable (h : Recording log s)
include h

/-- Thread `t` moves, and its share changes with what is in the global result. -/
theorem Recording.move (hinv : Inv s') (hmem : t ∈ s.agents) (hagents : s'.agents = s.agents)
    (hlock : s'.combinerLock = none) (hpc : ∀ u, u ≠ t → s'.pc u = s.pc u)
    (hcalm : (s'.pc t).walks = false) (helem : ∀ u, u ≠ t → s'.elements u = s.elements u)
    (hglobal : ∀ index, (s'.globalResult.intervalAt index).Filled globalSize) (more : Multiset ℤ)
    (hbag : ∀ index, s'.globalResult.bag index + s'.netBag index t
      = s.globalResult.bag index + s.netBag index t + bagOf more index) : Recording (log + more) s' where
  inv := hinv
  lock := hlock
  calm u := by
    by_cases hut : u = t
    · rw [hut]
      exact hcalm
    · rw [hpc u hut]
      exact h.calm u
  global := hglobal
  bags index := by
    have hchange := shares_change (f := s.netBag index) (g := s'.netBag index) h.inv.nodup hmem
      (fun u _ hu => netBag_congr (helem u hu) (hpc u hu) index)
    rw [hagents, bagOf_add, ← h.bags index]
    apply add_right_cancel (b := s.netBag index t)
    calc s'.globalResult.bag index + shares s.agents (s'.netBag index) + s.netBag index t
        = s'.globalResult.bag index + s'.netBag index t + shares s.agents (s.netBag index) := by
          rw [add_assoc, hchange]
          ac_rfl
      _ = s.globalResult.bag index + shares s.agents (s.netBag index) + bagOf more index
        + s.netBag index t := by
          rw [hbag]
          ac_rfl

theorem Recording.goto {p : Pc ι} (hinv : Inv (s.goto t p))
    (hcalm : p.walks = false) (hpc : ∀ latency, s.pc t ≠ .clearing latency)
    (hp : ∀ latency, p ≠ .clearing latency) : Recording log (s.goto t p) where
  inv := hinv
  lock := h.lock
  calm u := by
    by_cases hut : u = t
    · rw [hut]
      have hpc' : (s.goto t p).pc t = p := update_self ..
      rw [hpc']
      exact hcalm
    · have hpc' : (s.goto t p).pc u = s.pc u := update_of_ne hut ..
      rw [hpc']
      exact h.calm u
  global := h.global
  bags index := by
    rw [← h.bags index]
    congr 1
    apply shares_congr
    intro u _
    by_cases hut : u = t
    · rw [hut, netBag_eq hpc, netBag_eq]
      · rfl
      · intro latency hl
        have hpc' : (s.goto t p).pc t = p := update_self ..
        exact hp latency (hpc'.symm.trans hl)
    · have hpc' : (s.goto t p).pc u = s.pc u := update_of_ne hut ..
      exact netBag_congr (by rfl) hpc' index

theorem Recording.addStep (hidle : s.pc t = .idle) (latency : ℤ) :
    Recording log (addStep s t latency) := by
  have hinv := addStep_inv h.inv hidle latency
  unfold Percentile.addStep at hinv ⊢
  split at hinv
  next hmem =>
    rw [if_pos hmem]
    split at hinv
    next hneg =>
      rw [if_pos hneg]
      exact h
    next hneg =>
      rw [if_neg hneg]
      exact h.goto hinv rfl (by rw [hidle]; nofun) nofun
  next hout =>
    rw [if_neg hout]
    -- the element of a thread that is no agent yet has no share
    set s' := (s.setElement t ((s.elements t).assign .new)).goto t (.append latency)
    have hother : ∀ u ∈ s.agents, s'.elements u = s.elements u ∧ s'.pc u = s.pc u := by
      intro u hu
      have hut : u ≠ t := by
        rintro rfl
        exact hout hu
      exact ⟨update_of_ne hut .., update_of_ne hut ..⟩
    refine ⟨hinv, h.lock, fun u => ?_, h.global, fun index => ?_⟩
    · by_cases hut : u = t
      · have hself : s'.pc t = .append latency := update_self ..
        rw [hut, hself]
        rfl
      · rw [show s'.pc u = s.pc u from update_of_ne hut ..]
        exact h.calm u
    · rw [← h.bags index]
      congr 1
      exact shares_congr fun u hu => netBag_congr (hother u hu).1 (hother u hu).2 index

theorem Recording.appendStep (hpc : s.pc t = .append latency) :
    Recording log (appendStep s t latency) := by
  have hinv := appendStep_inv h.inv hpc
  obtain ⟨-, hzero⟩ : (Pc.append latency).Ok s t := hpc ▸ h.inv.phase t
  unfold Percentile.appendStep at hinv ⊢
  rw [if_pos h.lock] at hinv ⊢
  set p : Pc ι := if latency < 0 then .idle else .element latency with hp
  set s' := { s with agents := s.agents ++ [t] }.goto t p
  have hself : s'.pc t = p := update_self ..
  have hnot : ∀ l, s.pc t ≠ .clearing l := by
    rw [hpc]
    nofun
  have hnot' : ∀ l, s'.pc t ≠ .clearing l := by
    intro l hl
    rw [hself, hp] at hl
    split at hl <;> exact nomatch hl
  have hnet : ∀ index, s'.netBag index = s.netBag index := by
    intro index
    ext1 u
    by_cases hut : u = t
    · rw [hut, netBag_eq hnot, netBag_eq hnot']
      rfl
    · have hpc' : s'.pc u = s.pc u := update_of_ne hut ..
      exact netBag_congr (by rfl) hpc' index
  refine ⟨hinv, h.lock, fun u => ?_, h.global, fun index => ?_⟩
  · by_cases hut : u = t
    · rw [hut, hself, hp]
      split <;> rfl
    · rw [show s'.pc u = s.pc u from update_of_ne hut ..]
      exact h.calm u
  · show s.globalResult.bag index + shares (s.agents ++ [t]) (s'.netBag index) = bagOf log index
    rw [hnet, shares_append, shares_cons, shares_nil, netBag_eq hnot, (h.inv.element t).bag_eq_zero hzero,
      add_zero, add_zero]
    exact h.bags index

end

theorem bagOf_singleton (latency : ℤ) (index : Fin 32) :
    bagOf {latency} index = if index = indexOf latency then {clamped latency} else 0 := by
  have hcons := bagOf_cons latency 0 index
  rwa [show bagOf 0 index = 0 from rfl, add_zero] at hcons

section

variable (h : Recording log s)
include h

theorem Recording.elementStep (hpc : s.pc t = .element latency) :
    Recording (log + if ((elementStep s t latency).pc t).idles then {latency} else 0)
      (elementStep s t latency) := by
  have hinv := elementStep_inv h.inv hpc
  obtain ⟨hmem, hlat⟩ : (Pc.element latency).Ok s t := hpc ▸ h.inv.phase t
  have hnot : ∀ l, s.pc t ≠ .clearing l := by
    rw [hpc]
    rintro _ ⟨⟩
  simp only [Percentile.elementStep] at hinv ⊢
  split at hinv
  next hfull =>
    have hself : (s.goto t (.merging latency)).pc t = .merging latency := update_self ..
    simp only [if_pos hfull, hself, Pc.idles, Bool.false_eq_true, if_false, add_zero]
    exact h.goto hinv rfl hnot (by rintro _ ⟨⟩)
  next hfull =>
    rw [if_neg hfull]
    set e := (s.elements t).addLatency latency ((s.elements t).intervalAt (indexOf latency))
      (s.elements t).numAdded
      with he
    set s' := { s.setElement t e with added := s.added + 1 }.goto t .idle
    have hself : s'.pc t = .idle := update_self ..
    have helem : s'.elements t = e := update_self ..
    rw [hself, Pc.idles, if_pos rfl]
    apply h.move hinv hmem rfl h.lock (fun u hu => update_of_ne hu ..)
      (congrArg Pc.walks hself) (fun u hu => update_of_ne hu ..) h.global
    intro index
    have hnet : s'.netBag index t = e.bag index := by
      rw [netBag_eq (by rw [hself]; rintro _ ⟨⟩), helem]
    have hsamples := ((h.inv.element t).interval (indexOf latency)).add64_samples
      (Bool.eq_false_of_not_eq_true hfull) hlat
    rw [hnet, netBag_eq hnot, add_assoc, bagOf_singleton, he, Samples.addLatency, Samples.bag_setInterval]
    congr 1
    split
    next hindex =>
      rw [hsamples, hindex, ← coe_add]
      rfl
    · rw [add_zero]

theorem Recording.clearingStep (hpc : s.pc t = .clearing latency) :
    Recording (log + {latency}) (clearingStep s t latency) := by
  have hinv := clearingStep_inv h.inv hpc
  obtain ⟨hmem, hlat⟩ : (Pc.clearing latency).Ok s t := hpc ▸ h.inv.phase t
  simp only [Percentile.clearingStep] at hinv ⊢
  set e := (s.elements t).addLatency latency .empty
    ((s.elements t).numAdded + two64 - ((s.elements t).intervalAt (indexOf latency)).numAdded) with he
  set s' := { s.setElement t e with added := s.added + 1 }.goto t .idle
  have hself : s'.pc t = .idle := update_self ..
  have helem : s'.elements t = e := update_self ..
  apply h.move hinv hmem rfl h.lock (fun u hu => update_of_ne hu ..)
    (congrArg Pc.walks hself) (fun u hu => update_of_ne hu ..) h.global
  intro index
  have hnet : s'.netBag index t = e.bag index := by
    rw [netBag_eq (by rw [hself]; nofun), helem]
  have hnet' : s.netBag index t = if indexOf latency = index then 0 else (s.elements t).bag index := by
    unfold State.netBag
    rw [hpc]
  have hsamples := Interval.local_empty.add64_samples rfl hlat
  rw [hnet, hnet', add_assoc, bagOf_singleton, he, Samples.addLatency, Samples.bag_setInterval]
  congr 1
  by_cases hindex : index = indexOf latency
  · rw [if_pos hindex, if_pos hindex.symm, if_pos hindex, hsamples, zero_add]
    rfl
  · rw [if_neg hindex, if_neg (fun h' => hindex h'.symm), if_neg hindex, add_zero]

/-- What is merged has room: the global result and the thread have no more than was recorded. -/
theorem Recording.room (hfits : Fits log) (hmem : t ∈ s.agents)
    (hpc : ∀ latency, s.pc t ≠ .clearing latency) (index : Fin 32) :
    s.globalResult.count index + (s.elements t).count index ≤ globalSize := by
  have hglobal : (s.globalResult.bag index).card = s.globalResult.count index := (h.global index).length
  have hcard := hfits index
  rw [← h.bags index, shares_erase _ hmem, netBag_eq hpc, card_add, card_add, hglobal,
    (h.inv.element t).bag_card] at hcard
  lia

theorem Recording.mergingStep (hfits : Fits log)
    (hpc : s.pc t = .merging latency) (draw : Fin 32 → ℕ → ℕ) :
    Recording log (mergingStep s t latency draw) := by
  obtain ⟨hmem, hlat⟩ : (Pc.merging latency).Ok s t := hpc ▸ h.inv.phase t
  have hnot : ∀ l, s.pc t ≠ .clearing l := by
    rw [hpc]
    nofun
  have hroom := h.room hfits hmem hnot (indexOf latency)
  have hinv := mergingStep_inv h.inv hpc draw (hroom.trans_lt (by decide))
  simp only [Percentile.mergingStep, if_pos h.lock] at hinv ⊢
  set index := indexOf latency
  set interval := (s.elements t).intervalAt index
  have hlocal := (h.inv.element t).interval index
  have hmerge := hlocal.merge_small (draw index) hroom
  rw [hmerge] at hinv ⊢
  set merged : Interval := ⟨(s.globalResult.intervalAt index).numAdded + interval.numAdded,
    (s.globalResult.intervalAt index).samples ++ interval.samples⟩ with hmerged
  set s' := { s with
    globalResult := s.globalResult.setInterval index merged
      (s.globalResult.numAdded + interval.numAdded) }.goto t
      (.clearing latency)
  have hself : s'.pc t = .clearing latency := update_self ..
  have hmove := h.move hinv hmem rfl h.lock (fun u hu => update_of_ne hu ..)
    (congrArg Pc.walks hself) (fun _ _ => rfl) (fun j => ?_) 0 (fun j => ?_)
  · rwa [add_zero] at hmove
  · show ((s.globalResult.setInterval index merged _).intervalAt j).Filled globalSize
    rw [Samples.setInterval_interval]
    split
    · exact (h.global index).append hlocal hroom
    · exact h.global j
  · have hnet' : s'.netBag j t = if index = j then 0 else (s.elements t).bag j := by
      unfold State.netBag
      rw [hself]
      rfl
    show (s.globalResult.setInterval index merged _).bag j + s'.netBag j t = _
    rw [hnet', netBag_eq hnot, Samples.bag_setInterval, show bagOf 0 j = 0 from rfl, add_zero]
    by_cases hj : j = index
    · rw [if_pos hj, if_pos hj.symm, hj, add_zero, hmerged, ← coe_add]
      rfl
    · rw [if_neg hj, if_neg (fun h' => hj h'.symm)]

end

/-! ## Recording -/

theorem Fits.of_le {log' : Multiset ℤ} (h : Fits (log + log')) : Fits log := by
  intro index
  have hcard := h index
  rw [bagOf_add, card_add] at hcard
  lia

theorem Recording.goStep (h : Recording log s) (t : ι) (draw : Fin 32 → ℕ → ℕ)
    (hfits : Fits (log + returned s (.go t draw))) :
    Recording (log + returned s (.go t draw)) (goStep s t draw) := by
  have hcalm := h.calm t
  have hreturned : returned s (.go t draw)
      = if ((Percentile.goStep s t draw).pc t).idles then (s.pc t).latency.filter (0 ≤ ·) else 0 := rfl
  rw [hreturned] at hfits ⊢
  have hlog : Fits log := hfits.of_le
  cases hpc : s.pc t with
  | idle =>
    have hgo : Percentile.goStep s t draw = s := by rw [Percentile.goStep, hpc]
    have hnone : (.idle : Pc ι).latency = 0 := rfl
    rw [hgo, hnone, Multiset.filter_zero, ite_self, add_zero]
    exact h
  | append latency =>
    have hgo : Percentile.goStep s t draw
        = Percentile.appendStep s t latency := by rw [Percentile.goStep, hpc]
    have hself : (Percentile.appendStep s t latency).pc t = if latency < 0 then .idle
        else .element latency := by
      rw [Percentile.appendStep, if_pos h.lock]
      exact update_self ..
    have hnone : (if ((Percentile.appendStep s t latency).pc t).idles
        then (.append latency : Pc ι).latency.filter (0 ≤ ·) else 0) = 0 := by
      rw [hself]
      by_cases hneg : latency < 0
      · rw [if_pos hneg, Pc.latency, Multiset.filter_singleton, if_neg (not_le.2 hneg)]
        exact ite_self _
      · simp only [if_neg hneg, Pc.idles, Bool.false_eq_true, if_false]
    rw [hgo, hnone, add_zero]
    exact h.appendStep hpc
  | element latency =>
    obtain ⟨-, hlat⟩ : (Pc.element latency).Ok s t := hpc ▸ h.inv.phase t
    have hgo : Percentile.goStep s t draw
        = Percentile.elementStep s t latency := by rw [Percentile.goStep, hpc]
    rw [hgo, Pc.latency, Multiset.filter_singleton, if_pos hlat]
    exact h.elementStep hpc
  | merging latency =>
    have hgo : Percentile.goStep s t draw
        = Percentile.mergingStep s t latency draw := by rw [Percentile.goStep, hpc]
    have hself : (Percentile.mergingStep s t latency draw).pc t = .clearing latency := by
      simp only [Percentile.mergingStep, if_pos h.lock]
      exact update_self ..
    simp only [hgo, hself, Pc.idles, Bool.false_eq_true, if_false, add_zero]
    exact h.mergingStep hlog hpc draw
  | clearing latency =>
    obtain ⟨-, hlat⟩ : (Pc.clearing latency).Ok s t := hpc ▸ h.inv.phase t
    have hgo : Percentile.goStep s t draw
        = Percentile.clearingStep s t latency := by rw [Percentile.goStep, hpc]
    have hself : (Percentile.clearingStep s t latency).pc t = .idle := update_self ..
    rw [hgo, hself, Pc.idles, if_pos rfl, Pc.latency, Multiset.filter_singleton, if_pos hlat]
    exact h.clearingStep hpc
  | lock reset start =>
    rw [hpc] at hcalm
    cases hcalm
  | walk reset start ret tmp nodes =>
    rw [hpc] at hcalm
    cases hcalm

theorem Recording.step (h : Recording log s) {a : Act ι} (ha : a.Records)
    (hfits : Fits (log + returned s a)) :
    Recording (log + returned s a) (step s a) := by
  cases a with
  | add t latency =>
    simp only [returned, add_zero, Percentile.step]
    split
    next hidle =>
      exact h.addStep hidle latency
    · exact h
  | go t draw => exact h.goStep t draw hfits
  | getValue t => exact ha.elim
  | reset t => exact ha.elim

omit [DecidableEq ι] in
theorem start_recording : Recording 0 (start ι) where
  inv := start_inv
  lock := rfl
  calm _ := rfl
  global _ := Interval.filled_empty globalSize
  bags _ := rfl

theorem run_recording (as : List (Act ι)) (has : ∀ a ∈ as, a.Records) (hfits : Fits (latencies as)) :
    Recording (latencies as) (runFrom step (start ι) as) := by
  have hrun : Fits (0 + latencies as) → Recording (0 + latencies as) (runFrom step (start ι) as) :=
    (along_of_forall has (start ι)).yields (I := fun log s => Fits log → Recording log s)
      (fun log s a h ha hfits => (h hfits.of_le).step ha hfits) (fun _ => start_recording)
  rw [zero_add] at hrun
  exact hrun hfits

/-! ## Collecting -/

namespace Samples

variable {e rhs : Samples}

theorem nonempty_samples (o : Option Interval) :
    ((nonempty o).getD .empty).samples = (o.getD .empty).samples := by
  cases o with
  | none => rfl
  | some i =>
    rw [nonempty, Option.filter_some]
    split
    · rfl
    next hs =>
      exact (show i.samples = [] by simpa using hs).symm

theorem bag_copy (e : Samples) (index : Fin 32) : e.copy.bag index = e.bag index :=
  congrArg _ (nonempty_samples (e.intervals index))

theorem bag_assign (e rhs : Samples) (index : Fin 32) : (e.assign rhs).bag index = rhs.bag index := by
  rw [bag, assign_interval]
  exact congrArg _ (nonempty_samples (rhs.intervals index))

theorem kind_filled : Kind (Interval.Filled globalSize) where
  empty := Interval.filled_empty globalSize
  nil i h hs := by rw [← h.length, hs]; rfl

theorem merge_intervalAt (e rhs : Samples) (draw : Fin 32 → ℕ → ℕ) (index : Fin 32) :
    (e.merge draw rhs).intervalAt index = match nonempty (rhs.intervals index) with
      | some i => (e.intervalAt index).merge (draw index) i
      | none => e.intervalAt index := by
  simp only [intervalAt, merge]
  cases nonempty (rhs.intervals index) <;> rfl

theorem merge_exact (hs : Wf (Interval.Filled globalSize) e) (hr : Wf Interval.Local rhs)
    (hroom : ∀ index, e.count index + rhs.count index ≤ globalSize) (draw : Fin 32 → ℕ → ℕ) :
    Wf (Interval.Filled globalSize) (e.merge draw rhs) ∧
      ∀ index, (e.merge draw rhs).bag index = e.bag index + rhs.bag index := by
  have hwf : Wf (Interval.Wf globalSize) e := ⟨fun index => (hs.interval index).wf, hs.numAdded⟩
  have hmerge := merge_wf hwf hr (fun index => (hroom index).trans_lt (by decide)) draw
  have hinterval : ∀ index, ((e.merge draw rhs).intervalAt index).Filled globalSize ∧
      (e.merge draw rhs).bag index = e.bag index + rhs.bag index := by
    intro index
    have hne := kind_local.nonempty (hr.interval index)
    have hsamples := nonempty_samples (rhs.intervals index)
    have hroom' := hroom index
    rw [bag, bag, bag, merge_intervalAt]
    rw [count, count, intervalAt, intervalAt] at hroom'
    rw [intervalAt, intervalAt, ← hsamples]
    cases ho : nonempty (rhs.intervals index) with
    | some i =>
      rw [ho] at hne
      have hle : (e.intervalAt index).numAdded + i.numAdded ≤ globalSize :=
        (congrArg ((e.intervalAt index).numAdded + ·) hne.2).trans_le hroom'
      have hlocal : i.Local := hne.1
      have hsmall := hlocal.merge_small (draw index) hle
      rw [intervalAt] at hsmall hle
      simp only [hsmall, Option.getD_some]
      exact ⟨(hs.interval index).append hlocal hle, (coe_add ..).symm⟩
    | none => exact ⟨hs.interval index, (add_zero _).symm⟩
  exact ⟨⟨fun index => (hinterval index).1, hmerge.1.numAdded⟩, fun index => (hinterval index).2⟩

theorem exact_of_bags (h : Wf (Interval.Filled globalSize) e)
    (hbags : ∀ index, e.bag index = bagOf log index) :
    e.Exact log where
  count index := (h.interval index).length.symm
  bag := hbags
  numAdded := by
    calc e.numAdded = ∑ index, e.count index := h.numAdded
      _ = ∑ index, (bagOf log index).card := by
        apply Finset.sum_congr rfl
        intro index _
        rw [← hbags index]
        exact (h.interval index).length.symm
      _ = log.card := by rw [← Multiset.card_sum, sum_bagOf, card_map]

end Samples

theorem runFrom_idle (h : s.pc t = .idle) (draws : List (Fin 32 → ℕ → ℕ)) :
    runFrom step s (draws.map (.go t)) = s := by
  induction draws with
  | nil => rfl
  | cons draw draws ih =>
    have hgo : step s (.go t draw) = s := by rw [Percentile.step, goStep, h]
    rw [map_cons, runFrom_cons, hgo]
    exact ih

open Samples

/-- What `reset` has collected at a node, with what is still in the elements, is all that was
recorded. -/
theorem walk_collects (hfits : Fits log) {nodes : List ι} {start : ℕ} {ret tmp : Samples}
    (hlong : nodes.length < draws.length)
    (hpc : s.pc t = .walk true start ret tmp nodes) (hnd : nodes.Nodup)
    (helem : ∀ u, (s.elements u).Wf Interval.Local) (hret : ret.Wf (Interval.Filled globalSize))
    (hbags : ∀ index, ret.bag index + shares nodes (fun u => (s.elements u).bag index)
      = bagOf log index) :
    ∃ r, (runFrom step s (draws.map (.go t))).results = r :: s.results ∧ r.reset = true ∧
    r.value.Exact log := by
  induction nodes generalizing s ret tmp draws with
  | nil =>
    obtain ⟨draw, draws, rfl⟩ := exists_cons_of_length_pos hlong
    set r : Result := ⟨true, start, s.added, s.resets, ret.copy⟩
    set s' : State ι := { s with combinerLock := none, transit := 0, results :=
      r :: s.results }.goto t .idle with hs'
    have hgo : step s (.go t draw) = s' := by
      rw [Percentile.step, goStep, hpc]
      rfl
    have hidle : s'.pc t = .idle := update_self ..
    rw [map_cons, runFrom_cons, hgo, runFrom_idle hidle]
    refine ⟨r, rfl, rfl, exact_of_bags (copy_wf kind_filled hret).1 fun index => ?_⟩
    rw [bag_copy, ← hbags index, shares_nil, add_zero]
  | cons node nodes ih =>
    obtain ⟨draw, draws, rfl⟩ := exists_cons_of_length_pos (Nat.zero_lt_of_lt hlong)
    obtain ⟨hnode, hnodes⟩ := nodup_cons.1 hnd
    set tmp' := tmp.assign (s.elements node)
    set ret' := ret.merge draw tmp'
    set s' : State ι := { s.setElement node ((s.elements node).assign .new) with transit :=
      ret'.total }.goto t
      (.walk true start ret' tmp' nodes) with hs'
    have hgo : step s (.go t draw) = s' := by
      rw [Percentile.step, goStep, hpc]
      rfl
    have hself : s'.pc t = .walk true start ret' tmp' nodes := update_self ..
    have hother : ∀ u, u ≠ node → s'.elements u = s.elements u := fun u hu => update_of_ne hu ..
    have hcleared : s'.elements node = (s.elements node).assign .new := update_self ..
    have htmp' := assign_wf kind_local (helem node) tmp
    have hroom : ∀ index, ret.count index + tmp'.count index ≤ globalSize := by
      intro index
      have hcard := hfits index
      have hret_card : (ret.bag index).card = ret.count index := (hret.interval index).length
      rw [← hbags index, shares_cons, card_add, card_add, hret_card,
        (helem node).bag_card] at hcard
      rw [assign_count kind_local (helem node)]
      lia
    obtain ⟨hmerged, hmerged_bag⟩ := merge_exact hret htmp'.1 hroom draw
    rw [map_cons, runFrom_cons, hgo]
    refine ih (by simpa using hlong) hself hnodes ?_ hmerged ?_
    · intro u
      by_cases hu : u = node
      · rw [hu, hcleared]
        exact (assign_wf kind_local (wf_new Interval.local_empty) _).1
      · rw [hother u hu]
        exact helem u
    · intro index
      have hrest : shares nodes (fun u => (s'.elements u).bag index)
          = shares nodes (fun u => (s.elements u).bag index) := by
        apply shares_congr
        intro u hu
        rw [hother u]
        rintro rfl
        exact hnode hu
      rw [hrest, hmerged_bag, bag_assign, add_assoc, ← hbags index, shares_cons]

theorem Recording.reset (h : Recording log s) (hfits : Fits log) (hidle : ∀ u, s.pc u = .idle) (t : ι)
    (hlong : s.agents.length + 2 ≤ draws.length) :
    ∃ r, (runFrom Percentile.step s (.reset t :: draws.map (.go t))).results = r :: s.results ∧
    r.reset = true ∧
      r.value.Exact log := by
  obtain ⟨draw, draws, rfl⟩ := exists_cons_of_length_pos (by lia : 0 < draws.length)
  set s1 := s.goto t (.lock true s.added)
  have hreset : Percentile.step s (.reset t) = s1 := by
    simp only [Percentile.step, hidle t, if_true]
    rfl
  have hpc1 : s1.pc t = .lock true s.added := update_self ..
  set s2 := { s1 with
    globalResult := s.globalResult.assign .new
    transit := s.globalResult.copy.total
    combinerLock := some t }.goto t (.walk true s.added s.globalResult.copy .new s.agents)
  have hlock : Percentile.step s1 (.go t draw) = s2 := by
    have hfree : s1.combinerLock = none := h.lock
    rw [Percentile.step, Percentile.goStep, hpc1]
    simp only [lockStep, if_pos hfree, if_true]
    rfl
  have hpc2 : s2.pc t = .walk true s.added s.globalResult.copy .new s.agents := update_self ..
  have hwf : s.globalResult.Wf (Interval.Filled globalSize) := ⟨h.global, h.inv.global.numAdded⟩
  rw [map_cons, runFrom_cons, runFrom_cons, hreset, hlock]
  refine walk_collects (s := s2) hfits (Nat.lt_of_succ_le (by simpa using hlong)) hpc2 h.inv.nodup
    h.inv.element
    (copy_wf kind_filled hwf).1 fun index => ?_
  rw [bag_copy, ← h.bags index]
  congr 1
  apply shares_congr
  intro u _
  exact (netBag_eq (by rw [hidle u]; rintro _ ⟨⟩) index).symm

/-- **Percentiles are exact** while no interval has got more latencies than it has room for: when
all calls have returned, a `reset` returns a `PercentileSamples` whose `get_number` of a rank is the
latency of that rank, whatever ranks were asked for before. -/
theorem run_getNumber_exact (as : List (Act ι)) (has : ∀ a ∈ as, a.Records) (hfits : Fits (latencies as))
    (hidle : ∀ u, (runFrom step (start ι) as).pc u = .idle) (t : ι) (draws : List (Fin 32 → ℕ → ℕ))
    (hlong : (runFrom step (start ι) as).agents.length + 2 ≤ draws.length) :
    ∃ r, (runFrom step (start ι) (as ++ .reset t :: draws.map (.go t))).results
        = r :: (runFrom step (start ι) as).results ∧ r.reset = true ∧
      ∀ (before : List ℕ) (n : ℕ), 1 ≤ n → n ≤ (latencies as).card →
        (getNumber (getNumbers r.value.fresh before) n).1
          = some (nthSmallest ((latencies as).map clamped) n) := by
  obtain ⟨r, hresults, hreset, hexact⟩ := (run_recording as has hfits).reset hfits hidle t hlong
  refine ⟨r, ?_, hreset, fun before n hpos hn => ?_⟩
  · rw [runFrom_append]
    exact hresults
  · exact getNumber_eq (getNumbers_reads r.value.fresh_reads before) hexact hpos hn

/-- Two threads record three latencies. -/
def recordingRun : List (Act Bool) :=
  [.add true 700, .add false 5, .go false default, .go true default, .go true default, .go false default,
    .add true 3, .go true default]

theorem recordingRun_idle (u : Bool) : (runFrom step (start Bool) recordingRun).pc u = .idle := by
  cases u <;> rfl

theorem run_getNumber_exact_three :
    ∃ r,
    (runFrom step (start Bool) (recordingRun ++
    .reset true :: List.replicate 4 (.go true default))).results
        = r :: (runFrom step (start Bool) recordingRun).results ∧ r.reset = true ∧
      ∀ (before : List ℕ) (n : ℕ), 1 ≤ n → n ≤ (latencies recordingRun).card →
        (getNumber (getNumbers r.value.fresh before) n).1
          = some (nthSmallest ((latencies recordingRun).map clamped) n) :=
  run_getNumber_exact recordingRun (by simp [recordingRun, Act.Records]) (by
      intro index
      have hle : (bagOf (latencies recordingRun) index).card ≤ (latencies recordingRun).card := by
        rw [bagOf, card_map]
        exact Multiset.card_le_card (Multiset.filter_le _ _)
      exact hle.trans (by decide))
    recordingRun_idle true (replicate 4 default) (by decide)

end Eabase.Var.Percentile
