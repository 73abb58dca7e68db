import Mathlib.Data.Fintype.BigOperators
import Mathlib.Tactic.Ring
import Eabase.Utility.AsyncLogger

/-!
# The count of the asynchronous logger

`Log` raises `_log_request_count` behind a test of
`FLAGS_max_async_log_queue_size`, each `DoLog` lowers it. The logs that the count
stands for are those that are past the test and whose `DoLog` has not returned:
some are with a party, the others are queued. Whatever the flag was, their number
and the count are apart by what the count was constructed with, less the calls
that found the flag non-positive; so the count is right as long as it began at
zero and no call found the flag so.
-/

namespace Eabase.Utility.AsyncLogger

open Lib Lib.Mpsc Function

variable {ι : Type*} [DecidableEq ι]

/-! ## Unwritten logs -/

/-- The logs with a party that `Log` accepted and whose `DoLog` has not returned. -/
def Pc.unwritten : Pc → ℕ
  | .log (.loadStop _) | .log (.logSync _) | .log .subSync | .log (.getObject _) => 1
  | .impl (.unconnect _ _) | .impl (.exchange _ _) => 1
  | .write (.subLog _ _) => 1
  | _ => 0

omit [DecidableEq ι] in
def Party.equivOption : Option ι ≃ Party ι where
  toFun
    | some t => .thread t
    | none => .logger
  invFun
    | .thread t => some t
    | .logger => none
  left_inv o := by cases o <;> rfl
  right_inv p := by cases p <;> rfl

instance [Fintype ι] : Fintype (Party ι) := .ofEquiv _ Party.equivOption

/-- The logs accepted and not written: those with a party, and those queued. -/
def State.unwritten [Fintype ι] (s : State ι) : ℕ :=
  ∑ p, (s.pc p).unwritten + (unlogged s.data s.queue).length

/-- The queue is bounded as configured: the count is that of the unwritten logs, and a call that
finds the flag positive goes on to queue its log only if at most that many are unwritten. -/
structure Bounded [Fintype ι] (s : State ι) : Prop where
  count : s.logRequestCount.toInt = s.unwritten
  full : ∀ p l e, s.pc p = .log (.isFull l) → 0 < e.maxAsyncLogQueueSize →
    (goStep s p e).pc p ≠ .log (.logSync l) → (s.unwritten : ℤ) ≤ e.maxAsyncLogQueueSize'

/-- The step is a call of `Log` that finds the flag non-positive. -/
def unlimited (s : State ι) : Act ι → Bool
  | .go p e =>
    match s.pc p with
    | .log (.isFull _) => e.maxAsyncLogQueueSize ≤ 0
    | _ => false
  | _ => false

/-- The calls of `Log` in a run that found the flag non-positive. -/
def unlimitedCalls (s : State ι) (as : List (Act ι)) : ℕ :=
  yields step (fun s a => (unlimited s a).toNat) s as

/-! ## What a step adds -/

section Count

variable {s s' : State ι} {p q : Party ι} {c : Pc}

/-- A call of `Log` in front of the test of the flag. -/
def Pc.entering : Pc → ℕ
  | .log (.isFull _) => 1
  | _ => 0

/-- A `DoLog` whose log is in the file, and that has not lowered the count. -/
def Pc.leaving : Pc → ℕ
  | .log .subSync | .write (.subLog _ _) => 1
  | _ => 0

theorem call_length (c : Pc) : c.call.toList.length + c.leaving = c.unwritten + c.entering := by
  rcases c with _ | c | c | c | c | ⟨w, c⟩ | c | c
  all_goals first | rfl | (cases c <;> rfl)

variable [Fintype ι] {count : BitVec 32} {n : ℕ}

theorem sum_goto (f : Pc → ℕ) (hpc : s'.pc = update s.pc p c) :
    ∑ q, f (s'.pc q) + f (s.pc p) = ∑ q, f (s.pc q) + f c := by
  have hupd : ∀ q, f (s'.pc q) = update (fun q => f (s.pc q)) p (f c) q := by
    intro q
    rw [hpc]
    exact Function.apply_update (fun _ => f) s.pc p c q
  simp only [hupd]
  rw [Finset.sum_update_of_mem (Finset.mem_univ p), Finset.sdiff_singleton_eq_erase,
    ← Finset.add_sum_erase _ (fun q => f (s.pc q)) (Finset.mem_univ p)]
  ring

def Place.ofOption : Option (Option (Party ι)) → Place ι
  | none => .file
  | some none => .queue
  | some (some p) => .party p

section

omit [DecidableEq ι]

omit [Fintype ι] in
theorem ofOption_injective : Function.Injective (Place.ofOption (ι := ι)) := by
  rintro (_ | _ | p) (_ | _ | q) h
  all_goals first | rfl | (injection h with h; rw [h]) | cases h

/-- The logs of the calls are those at the parties, the queued ones and those in the file. -/
theorem Logs.length_eq (h : Logs s) (hnd : s.logs.Nodup) :
    s.logs.length = s.file.length + ((unlogged s.data s.queue).length + ∑ q,
      (s.pc q).call.toList.length) := by
  have hmem : ∀ l, l ∈ s.logs ↔ ∃ o, l ∈ s.logsAt (.ofOption o) := by
    intro l
    constructor
    · intro hl
      obtain ⟨q | _ | _, hπ⟩ := h.total l hl
      · exact ⟨some (some q), hπ⟩
      · exact ⟨some none, hπ⟩
      · exact ⟨none, hπ⟩
    · rintro ⟨o, hl⟩
      exact h.given _ l hl
  rw [(h.places.comap ofOption_injective).length_eq hnd hmem, Fintype.sum_option, Fintype.sum_option]
  rfl

/-- **The balance**: what was passed to `Log` is in front of the test, unwritten, or in the file,
where a log that its `DoLog` has still to count is both of the last two. -/
theorem Logs.balance (h : Logs s) (hnd : s.logs.Nodup) :
    s.unwritten + s.file.length + ∑ q, (s.pc q).entering = s.logs.length + ∑ q, (s.pc q).leaving := by
  have hsum : ∑ q, (s.pc q).call.toList.length + ∑ q, (s.pc q).leaving =
      ∑ q, (s.pc q).unwritten + ∑ q, (s.pc q).entering := by
    rw [← Finset.sum_add_distrib, ← Finset.sum_add_distrib]
    exact Finset.sum_congr rfl fun q _ => call_length _
  rw [h.length_eq hnd, State.unwritten]
  lia

end

omit [Fintype ι] in
/-- A step of a party from `c₀`: a log comes into the file where its `DoLog` is in front of its end,
and the count moves by `n` and with each `DoLog` that ends. -/
structure Adds (s : State ι) (p : Party ι) (c₀ : Pc) (n : ℕ) (s' : State ι) : Prop where
  logs : s'.logs = s.logs
  pc : ∃ c, s'.pc = update s.pc p c ∧ c.entering = 0 ∧ s'.file.length = s.file.length + c.leaving
  count : s'.logRequestCount + (c₀.leaving : BitVec 32) = s.logRequestCount + (n : BitVec 32)

section Adds

variable {c₀ : Pc}

section

variable (hlogs : s'.logs = s.logs) (hfile : s'.file = s.file)
    (hcount : s'.logRequestCount = s.logRequestCount)
include hlogs hfile hcount

omit [Fintype ι] in
theorem Adds.quiet (hpc : s'.pc = update s.pc p c)
    (hc0 : c₀.leaving = 0) (hc : c.entering = 0) (hc' : c.leaving = 0) : Adds s p c₀ 0 s' := by
  refine ⟨hlogs, ⟨c, hpc, hc, ?_⟩, ?_⟩
  · rw [hfile, hc', add_zero]
  · rw [hcount, hc0]

omit [Fintype ι] in
theorem Adds.stay (hpc : s'.pc = s.pc) (hp : s.pc p = c₀)
    (hc : c₀.entering = 0) (hc' : c₀.leaving = 0) : Adds s p c₀ 0 s' := by
  refine .quiet (c := c₀) hlogs hfile hcount ?_ hc' hc hc'
  rw [hpc, ← hp, update_eq_self]

end

section

omit [Fintype ι]

theorem logStep_adds (e : Env) {d : LogPc} (hp : s.pc p = .log d) :
    Adds s p (.log d) ((Pc.log d).entering - (unlimited s (.go p e)).toNat) (logStep s p e d) := by
  cases d with
  | isFull l =>
    simp only [unlimited, hp, logStep]
    split
    case isTrue hpos =>
      have hnot : ¬ e.maxAsyncLogQueueSize ≤ 0 := not_le.2 hpos
      refine ⟨rfl, ⟨_, rfl, ?_, ?_⟩, ?_⟩
      · split <;> rfl
      · split <;> rfl
      · simp only [hnot, decide_false]
        exact add_zero _
    case isFalse hneg =>
      have hle : e.maxAsyncLogQueueSize ≤ 0 := not_lt.1 hneg
      simp only [hle, decide_true]
      exact .quiet rfl rfl rfl rfl rfl rfl rfl
  | loadStop l =>
    rw [Pc.entering, Nat.zero_sub]
    · refine .quiet rfl rfl rfl rfl rfl ?_ ?_
      all_goals split <;> rfl
    · rintro _ ⟨⟩
  | logSync l =>
    rw [Pc.entering, Nat.zero_sub]
    · exact ⟨rfl, ⟨_, rfl, rfl, List.length_append⟩, rfl⟩
    · rintro _ ⟨⟩
  | subSync =>
    rw [Pc.entering, Nat.zero_sub]
    · refine ⟨rfl, ⟨_, rfl, rfl, rfl⟩, ?_⟩
      show s.logRequestCount - 1 + ((1 : ℕ) : BitVec 32) = s.logRequestCount + ((0 : ℕ) : BitVec 32)
      rw [Nat.cast_one, sub_add_cancel, Nat.cast_zero, add_zero]
    · rintro _ ⟨⟩
  | getObject l =>
    rw [Pc.entering, Nat.zero_sub, logStep]
    · split
      · exact .quiet rfl rfl rfl rfl rfl rfl rfl
      · split
        · exact .stay rfl rfl rfl rfl hp rfl rfl
        · exact .quiet rfl rfl rfl rfl rfl rfl rfl
    · rintro _ ⟨⟩

theorem logImplStep_adds (e : Env) {d : ImplPc} (hp : s.pc p = .impl d) :
    Adds s p (.impl d) 0 (logImplStep s p e d) := by
  cases d with
  | exchange n l =>
    simp only [logImplStep]
    split <;> exact .quiet rfl rfl rfl rfl rfl rfl rfl
  | background n =>
    refine .quiet rfl rfl rfl rfl rfl ?_ ?_
    all_goals split <;> rfl
  | lock n =>
    simp only [logImplStep]
    split
    · exact .quiet rfl rfl rfl rfl rfl rfl rfl
    · exact .stay rfl rfl rfl rfl hp rfl rfl
  | checkStop n =>
    refine .quiet rfl rfl rfl rfl rfl ?_ ?_
    all_goals split <;> rfl
  | unconnect | link | setNull | setCurrent | signal => exact .quiet rfl rfl rfl rfl rfl rfl rfl

theorem doLogStep_adds {d : WritePc} : Adds s p (.write d) 0 (doLogStep s p d) := by
  cases d with
  | doLog n k => exact ⟨rfl, ⟨_, rfl, rfl, List.length_append⟩, rfl⟩
  | subLog n k =>
    refine ⟨rfl, ⟨k.pc n, rfl, ?_, ?_⟩, ?_⟩
    · cases k <;> rfl
    · cases k <;> rfl
    · show s.logRequestCount - 1 + ((1 : ℕ) : BitVec 32) = s.logRequestCount + ((0 : ℕ) : BitVec 32)
      rw [Nat.cast_one, sub_add_cancel, Nat.cast_zero, add_zero]

end

section

omit [Fintype ι]

theorem logTaskStep_adds {d : TaskPc} (hp : s.pc p = .task d) :
    Adds s p (.task d) 0 (logTaskStep s p d) := by
  cases d with
  | skip n =>
    simp only [logTaskStep]
    split
    · exact .quiet rfl rfl rfl rfl rfl rfl rfl
    · split <;> exact .quiet rfl rfl rfl rfl rfl rfl rfl
    · exact .stay rfl rfl rfl rfl hp rfl rfl
  | walk n =>
    simp only [logTaskStep]
    split
    · refine .quiet rfl rfl rfl rfl rfl ?_ ?_
      all_goals split <;> rfl
    · refine .quiet rfl rfl rfl rfl rfl ?_ ?_
      all_goals split <;> rfl
    · exact .stay rfl rfl rfl rfl hp rfl rfl
  | release n m => exact .quiet rfl rfl rfl rfl rfl rfl rfl
  | taskEnd => cases p <;> exact .quiet rfl rfl rfl rfl rfl rfl rfl

theorem isLogCompleteStep_adds {w : Caller} {d : CompletePc} (hp : s.pc p = .complete w d) :
    Adds s p (.complete w d) 0 (isLogCompleteStep s p w d) := by
  cases d with
  | close old =>
    simp only [isLogCompleteStep]
    split
    · exact .stay rfl rfl rfl rfl hp rfl rfl
    · split <;> exact .quiet rfl rfl rfl rfl rfl rfl rfl
  | turn old tail q =>
    simp only [isLogCompleteStep]
    split
    · exact .stay rfl rfl rfl rfl hp rfl rfl
    · exact .stay rfl rfl rfl rfl hp rfl rfl
    · refine .quiet rfl rfl rfl rfl rfl ?_ ?_
      all_goals split <;> rfl
  | join old tail => cases w <;> exact .quiet rfl rfl rfl rfl rfl rfl rfl
  | releaseLast old => cases w <;> exact .quiet rfl rfl rfl rfl rfl rfl rfl

theorem runStep_adds {d : RunPc} (hp : s.pc p = .run d) : Adds s p (.run d) 0 (runStep s p d) := by
  cases d with
  | lock =>
    simp only [runStep]
    split
    · exact .quiet rfl rfl rfl rfl rfl rfl rfl
    · exact .stay rfl rfl rfl rfl hp rfl rfl
  | test =>
    simp only [runStep]
    split <;> exact .quiet rfl rfl rfl rfl rfl rfl rfl
  | check =>
    simp only [runStep]
    split
    · split
      · exact .quiet rfl rfl rfl rfl rfl rfl rfl
      · exact .stay rfl rfl rfl rfl hp rfl rfl
    · exact .quiet rfl rfl rfl rfl rfl rfl rfl
  | exited => exact .stay rfl rfl rfl rfl hp rfl rfl

theorem stopStep_adds {d : StopPc} (hp : s.pc p = .stop d) : Adds s p (.stop d) 0 (stopStep s p d) := by
  cases d with
  | exchange =>
    refine .quiet rfl rfl rfl rfl rfl ?_ ?_
    all_goals split <;> rfl
  | lock =>
    simp only [stopStep]
    split
    · exact .quiet rfl rfl rfl rfl rfl rfl rfl
    · exact .stay rfl rfl rfl rfl hp rfl rfl
  | signal => exact .quiet rfl rfl rfl rfl rfl rfl rfl
  | hasBeenJoined =>
    refine .quiet rfl rfl rfl rfl rfl ?_ ?_
    all_goals split <;> rfl
  | join =>
    simp only [stopStep]
    split
    · exact .quiet rfl rfl rfl rfl rfl rfl rfl
    · exact .stay rfl rfl rfl rfl hp rfl rfl

end

omit [Fintype ι] in
theorem goStep_adds (s : State ι) (p : Party ι) (e : Env) :
    Adds s p (s.pc p) ((s.pc p).entering - (unlimited s (.go p e)).toNat) (goStep s p e) := by
  unfold goStep
  split
  case h_1 hp =>
    rw [hp, Pc.entering, Nat.zero_sub]
    · exact .stay rfl rfl rfl rfl hp rfl rfl
    · nofun
  case h_2 d hp =>
    rw [hp]
    exact logStep_adds e hp
  case h_3 d hp =>
    rw [hp, Pc.entering, Nat.zero_sub]
    · exact logImplStep_adds e hp
    · nofun
  case h_4 d hp =>
    rw [hp, Pc.entering, Nat.zero_sub]
    · exact doLogStep_adds
    · nofun
  case h_5 d hp =>
    rw [hp, Pc.entering, Nat.zero_sub]
    · exact logTaskStep_adds hp
    · nofun
  case h_6 w d hp =>
    rw [hp, Pc.entering, Nat.zero_sub]
    · exact isLogCompleteStep_adds hp
    · nofun
  case h_7 d hp =>
    rw [hp, Pc.entering, Nat.zero_sub]
    · exact runStep_adds hp
    · nofun
  case h_8 d hp =>
    rw [hp, Pc.entering, Nat.zero_sub]
    · exact stopStep_adds hp
    · nofun

end Adds

/-! ## The count in a run -/

/-- **The step of a party**: what was in front of the test is unwritten, what its `DoLog` counted is
not. -/
theorem unwritten_goStep (h : Inv s) (hnd : s.logs.Nodup) (p : Party ι) (e : Env) :
    (goStep s p e).unwritten + (s.pc p).leaving = s.unwritten + (s.pc p).entering := by
  obtain ⟨hlogs, ⟨c, hpc, hc, hfile⟩, -⟩ := goStep_adds s p e
  have hbefore := h.logs.balance hnd
  have hafter := (goStep_inv (p := p) h e).logs.balance (hlogs ▸ hnd)
  have hentering := sum_goto Pc.entering hpc
  have hleaving := sum_goto Pc.leaving hpc
  rw [hlogs, hfile] at hafter
  lia

/-- A party that goes on outside of `Log` leaves the unwritten logs. -/
theorem unwritten_goto (hpc : s'.pc = update s.pc p c) (hdata : s'.data = s.data)
    (hqueue : s'.queue = s.queue) (hc : c.unwritten = (s.pc p).unwritten) :
    s'.unwritten = s.unwritten := by
  have hsum := sum_goto Pc.unwritten hpc
  rw [State.unwritten, State.unwritten, hdata, hqueue]
  rw [hc] at hsum
  rw [Nat.add_right_cancel hsum]

/-- The count and the number of unwritten logs, after `n` calls found the flag non-positive. -/
structure Counted (count : BitVec 32) (n : ℕ) (s : State ι) : Prop where
  inv : Inv s
  nodup : s.logs.Nodup
  count : s.logRequestCount + (n : BitVec 32) = count + (s.unwritten : BitVec 32)

theorem Counted.goto (h : Counted count n s) (hinv : Inv s') (hnd : s'.logs.Nodup)
    (hpc : s'.pc = update s.pc p c) (hdata : s'.data = s.data) (hqueue : s'.queue = s.queue)
    (hc : c.unwritten = (s.pc p).unwritten) (hcount : s'.logRequestCount = s.logRequestCount) :
    Counted count n s' := by
  refine ⟨hinv, hnd, ?_⟩
  rw [hcount, unwritten_goto hpc hdata hqueue hc]
  exact h.count

omit [DecidableEq ι] [Fintype ι] in
theorem unlimited_le (s : State ι) (p : Party ι) (e : Env) : (unlimited s (.go p e)).toNat
      ≤ (s.pc p).entering := by
  simp only [unlimited]
  split
  case h_1 hp =>
    rw [hp]
    exact Bool.toNat_le _
  case h_2 => exact Nat.zero_le _

theorem step_counted (count : BitVec 32) (n : ℕ) (s : State ι) (a : Act ι) (h : Counted count n s) :
    Counted count (n + (unlimited s a).toNat) (step s a) := by
  have hinv := step_inv s a h.inv
  cases a with
  | log t text =>
    simp only [step] at hinv ⊢
    split at hinv
    case isTrue hc =>
      rw [if_pos hc]
      have hnd : (s.logs ++ [(⟨s.logs.length, text⟩ : Log)]).Nodup := by
        refine h.nodup.append (List.nodup_singleton _) ?_
        rw [List.disjoint_singleton]
        intro hl
        exact lt_irrefl _ (h.inv.logs.number _ hl)
      exact h.goto hinv hnd rfl rfl rfl (by rw [hc.1]; rfl) rfl
    case isFalse hc =>
      rw [if_neg hc]
      exact h
  | stopAndJoin t =>
    simp only [step] at hinv ⊢
    split at hinv
    case isTrue hc =>
      rw [if_pos hc]
      exact h.goto hinv h.nodup rfl rfl rfl (by rw [hc]; rfl) rfl
    case isFalse hc =>
      rw [if_neg hc]
      exact h
  | go p e =>
    obtain ⟨hlogs, -, hcount⟩ := goStep_adds s p e
    have hunwritten := congrArg (Nat.cast : ℕ → BitVec 32) (unwritten_goStep h.inv h.nodup p e)
    have hle := unlimited_le s p e
    constructor
    · exact hinv
    · exact hlogs ▸ h.nodup
    · apply add_right_cancel (b := ((s.pc p).leaving : BitVec 32))
      rw [Nat.cast_sub hle] at hcount
      push_cast at hunwritten ⊢
      calc (goStep s p e).logRequestCount + (↑n + ↑(unlimited s (.go p e)).toNat) + ↑(s.pc p).leaving
          = (goStep s p e).logRequestCount + ↑(s.pc p).leaving + ↑n
            + ↑(unlimited s (.go p e)).toNat := by ring
        _ = s.logRequestCount + ↑n + ↑(s.pc p).entering := by rw [hcount]; ring
        _ = count + (s.unwritten + ↑(s.pc p).entering) := by rw [h.count, add_assoc]
        _ = count + (goStep s p e).unwritten + ↑(s.pc p).leaving := by rw [← hunwritten, add_assoc]

omit [DecidableEq ι] in
theorem start_unwritten (count : BitVec 32) : (start ι count).unwritten = 0 := by
  have hparty : ∀ p, ((start ι count).pc p).unwritten = 0 := by
    rintro (t | _) <;> rfl
  rw [State.unwritten, Finset.sum_eq_zero fun p _ => hparty p]
  rfl

/-- **The run**: the count is that of the unwritten logs, with what it began with and less the calls
that found the flag non-positive. -/
theorem run_counted (count : BitVec 32) (as : List (Act ι)) :
    Counted count (unlimitedCalls (start ι count) as) (runFrom step (start ι count) as) := by
  have hstart : Counted count 0 (start ι count) := by
    constructor
    · exact start_inv count
    · exact List.nodup_nil
    · rw [start_unwritten]
      rfl
  have hall : Along step (fun _ _ => True) (start ι count) as := along_of_forall (fun _ _ => trivial) _
  have := hall.yields (I := Counted count) (fun n s a h _ => step_counted count n s a h) hstart
  rwa [zero_add] at this

/-- In a state with the count and the number of unwritten logs apart by what a run leaves, they
agree exactly when the run left nothing and the number is one of a signed word. -/
theorem Counted.bounded_iff (h : Counted count n s) :
    Bounded s ↔ (count = (n : BitVec 32) ∧ s.unwritten < 2 ^ 31) := by
  have heq : count = (n : BitVec 32) ↔ s.logRequestCount = (s.unwritten : BitVec 32) := by
    constructor
    · intro hcount
      have hc := h.count
      rw [hcount, add_comm (n : BitVec 32)] at hc
      exact add_right_cancel hc
    · intro hcount
      have hc := h.count
      rw [hcount, add_comm] at hc
      exact (add_right_cancel hc).symm
  rw [heq]
  constructor
  · intro hb
    have hlt : (s.unwritten : ℤ) < 2 ^ 31 := hb.count ▸ BitVec.toInt_lt
    constructor
    · rw [← BitVec.ofInt_toInt (x := s.logRequestCount), hb.count]
      exact BitVec.ofInt_natCast ..
    · exact_mod_cast hlt
  · rintro ⟨hcount, hlt⟩
    have hint : s.logRequestCount.toInt = s.unwritten := by
      rw [hcount]
      show (BitVec.ofNat 32 s.unwritten).toInt = s.unwritten
      rw [BitVec.toInt_ofNat']
      exact Int.bmod_eq_of_le (by lia) (by lia)
    refine ⟨hint, ?_⟩
    intro p l e hp hpos hgo
    by_contra hfull
    apply hgo
    rw [goStep, hp]
    show (logStep s p e (.isFull l)).pc p = _
    have hlt : e.maxAsyncLogQueueSize' < s.logRequestCount.toInt := hint ▸ not_le.1 hfull
    rw [logStep, if_pos hpos, if_pos hlt]
    exact update_self ..

end Count

/-! ## The bound -/

/-- A log of a call that found the flag non-positive lowers the count when it is written. -/
theorem unlimited_call_lowers :
    ¬ Bounded (runFrom step (start (Fin 1) 0)
      (.log 0 "a" :: List.replicate 10 (.go (.thread 0) ⟨0, 0, false, some 0⟩))) := by
  intro h
  have hcount := h.count
  revert hcount
  decide

theorem unlimitedCalls_concat (s : State ι) (as : List (Act ι)) (a : Act ι) :
    unlimitedCalls s (as ++ [a]) = unlimitedCalls s as + (unlimited (runFrom step s as) a).toNat := by
  rw [unlimitedCalls, unlimitedCalls, yields_append]
  rfl

theorem unlimitedCalls_eq_zero (s : State ι) (as : List (Act ι)) :
    unlimitedCalls s as = 0 ↔ Along step (fun s a => unlimited s a = false) s as := by
  induction as generalizing s with
  | nil => exact iff_of_true rfl trivial
  | cons a as ih =>
    rw [unlimitedCalls, yields, Nat.add_eq_zero_iff, Bool.toNat_eq_zero]
    exact and_congr_right fun _ => ih _

/-- The calls of every part of a run are zero as a word only when there are none. -/
theorem unlimitedCalls_of_initial {s : State ι} {as : List (Act ι)}
    (h : ∀ bs, bs <+: as → (0 : BitVec 32) = (unlimitedCalls s bs : BitVec 32)) :
    unlimitedCalls s as = 0 := by
  induction as using List.reverseRecOn with
  | nil => rfl
  | append_singleton as a ih =>
    have hinit := ih fun bs hbs => h bs (hbs.trans (List.prefix_append ..))
    have hlast := h _ List.prefix_rfl
    rw [unlimitedCalls_concat, hinit, zero_add] at hlast ⊢
    cases hu : unlimited (runFrom step s as) a with
    | false => rfl
    | true =>
      rw [hu] at hlast
      exact absurd hlast (by decide)

variable [Fintype ι]

/-- **The queue of the asynchronous logger is bounded as configured** exactly when the count
happened to be zero at the construction, every call of `Log` finds the flag positive, and there are
never `2 ^ 31` unwritten logs. -/
theorem run_bounded_iff (count : BitVec 32) (as : List (Act ι)) :
    (∀ bs, bs <+: as → Bounded (runFrom step (start ι count) bs)) ↔
      count = 0 ∧ Along step (fun s a => unlimited s a = false) (start ι count) as ∧
        ∀ bs, bs <+: as → (runFrom step (start ι count) bs).unwritten < 2 ^ 31 := by
  have hiff := fun bs => (run_counted (ι := ι) count bs).bounded_iff
  simp only [hiff]
  constructor
  · intro h
    have hzero : count = 0 := (h [] List.nil_prefix).1
    refine ⟨hzero, ?_, fun bs hbs => (h bs hbs).2⟩
    apply (unlimitedCalls_eq_zero _ _).1
    exact unlimitedCalls_of_initial fun bs hbs => hzero ▸ (h bs hbs).1
  · rintro ⟨hzero, halong, hlt⟩ bs hbs
    refine ⟨?_, hlt bs hbs⟩
    rw [(unlimitedCalls_eq_zero _ _).2 (halong.initial hbs), hzero]
    rfl

end Eabase.Utility.AsyncLogger
