import Mathlib.Data.List.AList
import Eabase.Lib.Machine
import Eabase.Lib.Places

/-!
# MultiDimension

A map from label values to the objects that count for them, kept twice in a
`DoublyBufferedData`. The lambdas of `get_stats_impl` and `delete_stats` are
applied to both copies in turn and keep in what they capture what the first
application did, so that the second one does the same.

A step is one access to what is shared. `Modify` runs its lambda on the
background, flips, waits for the readers of the other copy and runs it there;
its mutex serialises it. A `Read` pins the copy that it found in front. Objects
are numbered in the order of their creation.
-/

namespace Eabase.Var.MultiDimension

open Lib Function List

/-! ## The lambdas -/

/-- `key_type`. -/
abbrev Key := List String

/-- `MetricMap`; an `op_value_type` is the number of the object. -/
abbrev MetricMap := AList (fun _ : Key => ℕ)

def objects (m : MetricMap) : List ℕ :=
  m.entries.map Sigma.snd

/-- `insert_fn`, `erase_fn` and `clear_fn`, each with its labels and with what it captures. -/
inductive Op where
  | insert (labelsValue : Key) (cacheMetric : Option ℕ)
  | erase (labelsValue : Key) (tmpMetric : Option ℕ)
  | clear (tmpMap : MetricMap)

/-- What an application of a lambda leaves: the map, the lambda, what it returns, and the number of
the next object. -/
structure Applied where
  bg : MetricMap
  op : Op
  ret : ℕ
  created : ℕ

/-- `insert_fn`. -/
def insertFn (labelsValue : Key) (cacheMetric : Option ℕ) (bg : MetricMap) (created : ℕ) : Applied :=
  match bg.lookup labelsValue with
  | some bgMetric => ⟨bg, .insert labelsValue (some bgMetric), 0, created⟩
  | none =>
    match cacheMetric with
    | some metric => ⟨bg.insert labelsValue metric, .insert labelsValue cacheMetric, 1, created⟩
    | none => ⟨bg.insert labelsValue created, .insert labelsValue (some created), 1, created + 1⟩

/-- `erase_fn`. -/
def eraseFn (labelsValue : Key) (tmpMetric : Option ℕ) (bg : MetricMap) (created : ℕ) : Applied :=
  match bg.lookup labelsValue with
  | some it => ⟨bg.erase labelsValue, .erase labelsValue (some it), 1, created⟩
  | none => ⟨bg, .erase labelsValue tmpMetric, 0, created⟩

/-- `clear_fn`: `tmp_map` is emptied when it is not, and swapped with the map. -/
def clearFn (tmpMap map : MetricMap) (created : ℕ) : Applied :=
  let tmpMap := if tmpMap.entries ≠ [] then ∅ else tmpMap
  ⟨tmpMap, .clear map, 1, created⟩

def Op.apply : Op → MetricMap → ℕ → Applied
  | .insert labelsValue cacheMetric => insertFn labelsValue cacheMetric
  | .erase labelsValue tmpMetric => eraseFn labelsValue tmpMetric
  | .clear tmpMap => clearFn tmpMap

/-! ## The machine -/

/-- `STATS_OP`. -/
inductive StatsOp where
  | readOnly
  | readOrInsert
  deriving DecidableEq

/-- Where a thread stands: in front of `Read`, with a pinned copy; in `Modify` in front of the
mutex, of the lambda on the background, of the store of the index, of the lambda on the other copy;
behind `Modify`; in front of the deletion of objects. -/
inductive Pc where
  | idle
  | read (statsOp : StatsOp) (labelsValue : Key)
  | look (statsOp : StatsOp) (labelsValue : Key) (b : Bool)
  | lock (op : Op)
  | first (op : Op)
  | flip (op : Op) (ret : ℕ)
  | second (op : Op) (ret : ℕ)
  | after (op : Op) (ret : ℕ)
  | deleting (rest : List ℕ)

/-- What a call of `get_stats` or `has_stats` returned: the objects that had been returned for
labels when it began, the objects that had been deleted when it returned, the object it found, and
whether `Read` failed. -/
structure Ret where
  labelsValue : Key
  before : List (Key × ℕ)
  erased : List ℕ
  result : Option ℕ
  readFailed : Bool

/-- The number of labels, both copies, the index of the one in front, the mutex of `Modify` and the
readers of each copy; the number of objects created and those deleted. `active` are the threads in a
call, and `dying` says that the destructor was called. What is kept of the past: the objects whose
deletion took effect (when the index was stored), the objects returned for labels, those among them
that each thread's call came after, what the calls returned; `fatal` is a `CHECK_EQ` that failed,
`raced` a lambda that ran on a copy that somebody was reading. -/
structure State (ι : Type*) where
  labels : ℕ
  data : Bool → MetricMap
  index : Bool
  mutex : Option ι
  readers : Bool → Finset ι
  created : ℕ
  deleted : List ℕ
  active : Finset ι
  dying : Bool
  pc : ι → Pc
  erased : List ℕ
  known : List (Key × ℕ)
  before : ι → List (Key × ℕ)
  returned : List Ret
  fatal : Bool
  raced : Bool

def start (ι : Type*) (labels : ℕ) : State ι where
  labels := labels
  data _ := ∅
  index := false
  mutex := none
  readers _ := ∅
  created := 0
  deleted := []
  active := ∅
  dying := false
  pc _ := .idle
  erased := []
  known := []
  before _ := []
  returned := []
  fatal := false
  raced := false

/-- One label of a run; `ok` says whether a `Read` succeeds. -/
inductive Act (ι : Type*) where
  | getStats (i : ι) (labelsValue : Key)
  | hasStats (i : ι) (labelsValue : Key)
  | deleteStats (i : ι) (labelsValue : Key)
  | clearStats (i : ι)
  | destroy (i : ι)
  | go (i : ι) (ok : Bool)

def maxMultiDimensionStatsCount : ℕ := 20000

variable {ι : Type*} [DecidableEq ι] {before : List (Key × ℕ)} {erased : List ℕ} {key : Key}
  {labels p : ℕ} {m m' : MetricMap} {op : Op}

def State.front (s : State ι) : MetricMap := s.data s.index

/-- `_data[bg_index]`. -/
def State.back (s : State ι) : MetricMap := s.data (!s.index)

def State.setBack (s : State ι) (m : MetricMap) : State ι :=
  { s with data := update s.data (!s.index) m }

section

variable (s : State ι) (i : ι)

/-- Thread `i` goes to `c`. -/
def State.goto (c : Pc) : State ι :=
  { s with pc := update s.pc i c }

/-- The call of thread `i` begins. -/
def State.enter (c : Pc) : State ι :=
  { s with active := insert i s.active, before := update s.before i s.known }.goto i c

/-- The call of thread `i` ends. -/
def State.leave : State ι :=
  { s with active := s.active.erase i }.goto i .idle

/-- `get_stats_impl` returns. -/
def State.ret (labelsValue : Key) (result : Option ℕ) (readFailed : Bool) : State ι :=
  { s with
    known := result.toList.map (fun p => (labelsValue, p)) ++ s.known
    returned := ⟨labelsValue, s.before i, s.erased, result, readFailed⟩ :: s.returned }.leave i

/-- `get_stats_impl`, up to `Read`. -/
def getStatsStep (statsOp : StatsOp) (labelsValue : Key) : State ι :=
  let s' := s.enter i (.read statsOp labelsValue)
  if s.labels ≠ labelsValue.length then s'.ret i labelsValue none false else s'

/-- `delete_stats(labels_value)`, up to `Modify`. -/
def deleteStatsStep (labelsValue : Key) : State ι :=
  if s.labels ≠ labelsValue.length then s else s.enter i (.lock (.erase labelsValue none))

/-- `delete_stats()`, up to `Modify`. -/
def clearStatsStep : State ι :=
  s.enter i (.lock (.clear ∅))

/-- `Read`. -/
def readStep (statsOp : StatsOp) (labelsValue : Key) (ok : Bool) : State ι :=
  if ok then
    { s with readers := update s.readers s.index (insert i (s.readers s.index)) }.goto i
      (.look statsOp labelsValue s.index)
  else s.ret i labelsValue none true

/-- `seek` in the pinned copy, and the end of the `ScopedPtr`. -/
def lookStep (statsOp : StatsOp) (labelsValue : Key) (b : Bool) : State ι :=
  let s' := { s with readers := update s.readers b ((s.readers b).erase i) }
  match (s.data b).lookup labelsValue with
  | some it => s'.ret i labelsValue (some it) false
  | none =>
    if statsOp = .readOnly ∨ (s.data b).entries.length > maxMultiDimensionStatsCount then
      s'.ret i labelsValue none false
    else s'.goto i (.lock (.insert labelsValue none))

/-- `BAIDU_SCOPED_LOCK(_modify_mutex)`. -/
def lockStep (op : Op) : State ι :=
  if s.mutex = none then { s with mutex := some i }.goto i (.first op) else s

/-- The lambda on the background; `Modify` returns when it returned zero. -/
def firstStep (op : Op) : State ι :=
  let r := op.apply s.back s.created
  let s' := { s.setBack r.bg with
    created := r.created, raced := s.raced || decide (s.readers (!s.index) ≠ ∅) }
  if r.ret = 0 then { s' with mutex := none }.goto i (.after r.op 0) else s'.goto i (.flip r.op r.ret)

end

/-- The objects that a lambda took out of the map. -/
def Op.taken : Op → List ℕ
  | .insert _ _ => []
  | .erase _ tmpMetric => tmpMetric.toList
  | .clear tmpMap => objects tmpMap

section

variable (s : State ι) (i : ι)

/-- `_index.store`. -/
def flipStep (op : Op) (ret : ℕ) : State ι :=
  { s with index := !s.index, erased := op.taken ++ s.erased }.goto i (.second op ret)

def secondStep (op : Op) (ret : ℕ) : State ι :=
  if s.readers (!s.index) ≠ ∅ then s
  else
    let r := op.apply s.back s.created
    { s.setBack r.bg with
      created := r.created
      fatal := s.fatal || decide (r.ret ≠ ret)
      mutex := none }.goto i (.after r.op r.ret)

/-- What follows `Modify` in `get_stats_impl` and in the two `delete_stats`. -/
def afterStep (op : Op) (ret : ℕ) : State ι :=
  match op with
  | .insert labelsValue cacheMetric => s.ret i labelsValue cacheMetric false
  | .erase _ tmpMetric => s.goto i (.deleting tmpMetric.toList)
  | .clear tmpMap => { s with fatal := s.fatal || decide (ret ≠ 1) }.goto i (.deleting (objects tmpMap))

/-- `delete`, of one object after the other. -/
def deletingStep (rest : List ℕ) : State ι :=
  match rest with
  | [] => s.leave i
  | p :: rest => { s with deleted := p :: s.deleted }.goto i (.deleting rest)

/-- The next step of thread `i`. -/
def goStep (ok : Bool) : State ι :=
  match s.pc i with
  | .idle => s
  | .read statsOp labelsValue => readStep s i statsOp labelsValue ok
  | .look statsOp labelsValue b => lookStep s i statsOp labelsValue b
  | .lock op => lockStep s i op
  | .first op => firstStep s i op
  | .flip op ret => flipStep s i op ret
  | .second op ret => secondStep s i op ret
  | .after op ret => afterStep s i op ret
  | .deleting rest => deletingStep s i rest

end

/-- A thread that is not in a call may begin one, until the destructor was called; the destructor is
called when no thread is in a call. -/
def step (s : State ι) : Act ι → State ι
  | .getStats i key => if i ∈ s.active ∨ s.dying then s else getStatsStep s i .readOrInsert key
  | .hasStats i key => if i ∈ s.active ∨ s.dying then s else getStatsStep s i .readOnly key
  | .deleteStats i key => if i ∈ s.active ∨ s.dying then s else deleteStatsStep s i key
  | .clearStats i => if i ∈ s.active ∨ s.dying then s else clearStatsStep s i
  | .destroy i => if s.active ≠ ∅ ∨ s.dying then s else { clearStatsStep s i with dying := true }
  | .go i ok => goStep s i ok

/-! ## What holds -/

/-- The objects that a thread holds: those it has created and that are not in front yet, and those
it has taken out and not deleted yet. -/
def hands : Pc → List ℕ
  | .flip (.insert _ cacheMetric) _ => cacheMetric.toList
  | .second op _ => op.taken
  | .after op _ => op.taken
  | .deleting rest => rest
  | _ => []

@[simp] theorem objects_empty : objects ∅ = [] := rfl

theorem mem_objects : p ∈ objects m ↔ ∃ key, m.lookup key = some p := by
  rw [objects, mem_map]
  constructor
  · rintro ⟨⟨key, _⟩, hmem, rfl⟩
    exact ⟨key, AList.mem_lookup_iff.2 hmem⟩
  · rintro ⟨key, hlook⟩
    exact ⟨⟨key, p⟩, AList.mem_lookup_iff.1 hlook, rfl⟩

theorem objects_insert (p : ℕ) (h : m.lookup key = none) :
    objects (m.insert key p) = p :: objects m := by
  rw [objects, AList.entries_insert_of_notMem (AList.lookup_eq_none.1 h), map_cons]
  rfl

theorem objects_erase (h : m.lookup key = some p) :
    (objects m).Perm (p :: objects (m.erase key)) := by
  have hmem : key ∈ m := AList.lookup_isSome.1 (by rw [h]; rfl)
  obtain ⟨q, l1, l2, -, hl, herase⟩ := exists_of_kerase (AList.mem_keys.1 hmem)
  have hq : m.lookup key = some q := by
    apply AList.mem_lookup_iff.2
    rw [hl]
    exact mem_append_right _ mem_cons_self
  obtain rfl : p = q := Option.some.inj (h.symm.trans hq)
  have hobj : objects (m.erase key) = l1.map Sigma.snd ++ l2.map Sigma.snd := by
    rw [← map_append, ← herase]
    rfl
  rw [hobj, objects, hl, map_append, map_cons]
  exact perm_middle

def Op.Fresh : Op → Prop
  | .insert _ cacheMetric => cacheMetric = none
  | .erase _ tmpMetric => tmpMetric = none
  | .clear tmpMap => tmpMap = ∅

/-- The lambda has changed `m` into `m'` and has captured how. -/
def Op.Done (m m' : MetricMap) : Op → Prop
  | .insert key cacheMetric => ∃ p, cacheMetric = some p ∧ m.lookup key = none ∧ m' = m.insert key p
  | .erase key tmpMetric => ∃ p, tmpMetric = some p ∧ m.lookup key = some p ∧ m' = m.erase key
  | .clear tmpMap => tmpMap = m ∧ m' = ∅

/-- The **second application** does what the first one did, and leaves what was captured. -/
theorem Op.Done.apply (h : op.Done m m') (n : ℕ) :
    op.apply m n = ⟨m', op, 1, n⟩ := by
  cases op with
  | insert key cacheMetric =>
    obtain ⟨p, rfl, hnone, rfl⟩ := h
    simp only [Op.apply, insertFn, hnone]
  | erase key tmpMetric =>
    obtain ⟨p, rfl, hsome, rfl⟩ := h
    simp only [Op.apply, eraseFn, hsome]
  | clear tmpMap =>
    obtain ⟨rfl, rfl⟩ := h
    have hempty : (if tmpMap.entries ≠ [] then ∅ else tmpMap) = (∅ : MetricMap) := by
      split
      · rfl
      · apply AList.ext
        rename_i hnil
        exact not_not.1 hnil
    simp only [Op.apply, clearFn, hempty]

/-- A lambda that found nothing to do: what it captured is what is in the map. -/
def Op.Idle (m : MetricMap) : Op → Prop
  | .insert key cacheMetric => ∃ p, cacheMetric = some p ∧ m.lookup key = some p
  | .erase _ tmpMetric => tmpMetric = none
  | .clear _ => False

/-- The call of the lambda comes after that of an object only when the object was deleted. -/
def Op.Missed (labels : ℕ) (before : List (Key × ℕ)) (erased : List ℕ) : Op → Prop
  | .insert key _ => key.length = labels ∧ ∀ p, (key, p) ∈ before → p ∈ erased
  | _ => True

/-- The **first application**: it finds nothing to do, creates an object, or takes some out. -/
theorem Op.Fresh.apply (hf : op.Fresh) (m : MetricMap) (n : ℕ)
    (hm : op.Missed labels before erased) :
    ∃ op', op'.Missed labels before erased ∧ (∀ t, op = .clear t → ∃ t', op' = .clear t') ∧
      ((op.apply m n = ⟨m, op', 0, n⟩ ∧ op'.Idle m ∧ op'.taken = []) ∨
      (∃ key, op' = .insert key (some n) ∧ m.lookup key = none ∧
        op.apply m n = ⟨m.insert key n, op', 1, n + 1⟩) ∨
      (∃ m', op'.Done m m' ∧ hands (.flip op' 1) = [] ∧ op.apply m n = ⟨m', op', 1, n⟩)) := by
  cases op with
  | insert key cacheMetric =>
    obtain rfl : cacheMetric = none := hf
    cases hlook : m.lookup key with
    | some p =>
      refine ⟨.insert key (some p), hm, nofun, .inl ⟨?_, ⟨p, rfl, hlook⟩, rfl⟩⟩
      simp only [Op.apply, insertFn, hlook]
    | none =>
      refine ⟨.insert key (some n), hm, nofun, .inr (.inl ⟨key, rfl, hlook, ?_⟩)⟩
      simp only [Op.apply, insertFn, hlook]
  | erase key tmpMetric =>
    obtain rfl : tmpMetric = none := hf
    cases hlook : m.lookup key with
    | some p =>
      refine ⟨.erase key (some p), trivial, nofun,
        .inr (.inr ⟨m.erase key, ⟨p, rfl, hlook, rfl⟩, rfl, ?_⟩)⟩
      simp only [Op.apply, eraseFn, hlook]
    | none =>
      refine ⟨.erase key none, trivial, nofun, .inl ⟨?_, rfl, rfl⟩⟩
      simp only [Op.apply, eraseFn, hlook]
  | clear tmpMap =>
    obtain rfl : tmpMap = ∅ := hf
    refine ⟨.clear m, trivial, fun _ _ => ⟨m, rfl⟩, .inr (.inr ⟨∅, ⟨rfl, rfl⟩, rfl, ?_⟩)⟩
    rfl

theorem Op.Done.lookup (h : op.Done m m')
    (hlook : m.lookup key = some p) : p ∈ op.taken ∨ m'.lookup key = some p := by
  cases op with
  | insert key' _ =>
    obtain ⟨q, rfl, hnone, rfl⟩ := h
    have hne : key ≠ key' := by
      rintro rfl
      exact nomatch hlook.symm.trans hnone
    exact .inr ((AList.lookup_insert_ne hne).trans hlook)
  | erase key' _ =>
    obtain ⟨q, rfl, hsome, rfl⟩ := h
    obtain rfl | hk := eq_or_ne key key'
    · obtain rfl : p = q := Option.some.inj (hlook.symm.trans hsome)
      exact .inl mem_cons_self
    · exact .inr ((AList.lookup_erase_ne hk).trans hlook)
  | clear tmpMap =>
    obtain ⟨rfl, rfl⟩ := h
    exact .inl (mem_objects.2 ⟨key, hlook⟩)

theorem Op.Done.objects (h : op.Done m m') :
    (MultiDimension.objects m' ++ op.taken).Perm (MultiDimension.objects m ++ hands (.flip op 1)) := by
  cases op with
  | insert key _ =>
    obtain ⟨p, rfl, hnone, rfl⟩ := h
    rw [objects_insert p hnone]
    exact (@perm_append_comm _ [p] _).trans (by simp [hands, Op.taken])
  | erase key _ =>
    obtain ⟨p, rfl, hsome, rfl⟩ := h
    have hperm := objects_erase hsome
    exact (@perm_append_comm _ _ [p]).trans (by simpa [hands] using hperm.symm)
  | clear tmpMap =>
    obtain ⟨rfl, rfl⟩ := h
    simp [Op.taken, hands]

/-! ## The invariant -/

/-- The object is found in front, or was deleted. -/
def Live (front : MetricMap) (erased : List ℕ) (key : Key) (p : ℕ) : Prop :=
  p ∈ erased ∨ front.lookup key = some p

/-- The thread has the mutex of `Modify`. -/
def Pc.InModify : Pc → Prop
  | .first _ | .flip _ _ | .second _ _ => True
  | _ => False

/-- What a thread knows where it stands. -/
def Phase (labels : ℕ) (data : Bool → MetricMap) (index : Bool) (erased : List ℕ)
    (before : List (Key × ℕ)) : Pc → Prop
  | .read _ key => key.length = labels
  | .look _ key b =>
    key.length = labels ∧ (∀ p, (key, p) ∈ before → Live (data b) erased key p) ∧
      ∀ key p, (data b).lookup key = some p → Live (data index) erased key p
  | .lock op => op.Fresh ∧ op.Missed labels before erased
  | .first op => op.Fresh ∧ op.Missed labels before erased ∧ data (!index) = data index
  | .flip op ret => op.Done (data index) (data (!index)) ∧ ret = 1 ∧ op.Missed labels before erased
  | .second op ret =>
    op.Done (data (!index)) (data index) ∧ ret = 1 ∧ op.Missed labels before erased ∧ op.taken ⊆ erased
  | .after (.insert key cacheMetric) _ =>
    (∃ p, cacheMetric = some p ∧ Live (data index) erased key p) ∧
      (Op.insert key cacheMetric).Missed labels before erased
  | .after (.clear _) ret => ret = 1
  | _ => True

/-- What the destructor has reached. -/
def Closing (front : MetricMap) : Pc → Prop
  | .lock (.clear _) | .first (.clear _) | .flip (.clear _) _ => True
  | .second (.clear _) _ | .after (.clear _) _ | .deleting _ | .idle => front = ∅
  | _ => False

inductive Place (ι : Type*) where
  | front
  | hand (i : ι)
  | deleted

def places (s : State ι) : Place ι → List ℕ
  | .front => objects s.front
  | .hand i => hands (s.pc i)
  | .deleted => s.deleted

structure Placed (s : State ι) : Prop where
  excl : Exclusive (places s)
  cover : ∀ p, p < s.created ↔ ∃ q, p ∈ places s q

structure Inv (s : State ι) : Prop where
  actives : ∀ i, i ∈ s.active ↔ s.pc i ≠ .idle
  readers : ∀ i b, i ∈ s.readers b ↔ ∃ o k, s.pc i = .look o k b
  owner : ∀ i, (s.pc i).InModify ↔ s.mutex = some i
  phase : ∀ i, Phase s.labels s.data s.index s.erased (s.before i) (s.pc i)
  quiet : s.mutex = none → s.back = s.front
  pinned : s.readers (!s.index) ≠ ∅ → ∃ i op ret, s.pc i = .second op ret
  before : ∀ i, s.before i ⊆ s.known
  known : ∀ key p, (key, p) ∈ s.known → key.length = s.labels ∧ Live s.front s.erased key p
  stable : ∀ r ∈ s.returned, r.readFailed = false → ∀ p, (r.labelsValue, p) ∈ r.before → p ∉ r.erased →
    r.result = some p
  placed : Placed s
  closing : s.dying = true → ∃ i, (∀ j, j ≠ i → s.pc j = .idle) ∧ Closing s.front (s.pc i)
  checks : s.fatal = false ∧ s.raced = false

omit [DecidableEq ι] in
theorem start_inv (labels : ℕ) : Inv (start ι labels) where
  actives _ := by simp [start]
  readers _ _ := by simp [start]
  owner _ := by simp [start, Pc.InModify]
  phase _ := trivial
  quiet _ := rfl
  pinned h := absurd rfl h
  before _ := List.Subset.refl _
  known _ _ := nofun
  stable _ := nofun
  placed := by
    have hnil : places (start ι labels) = fun _ => [] := by
      ext1 q
      cases q <;> rfl
    constructor
    · rw [hnil]
      exact Exclusive.nil
    · rw [hnil]
      simp [start]
  closing := nofun
  checks := ⟨rfl, rfl⟩

variable {s s' : State ι} {i : ι} {c : Pc} {b : Bool} {created : ℕ} {data : Bool → MetricMap}
  {erased' : List ℕ} {index raced : Bool} {known : List (Key × ℕ)} {q r : Place ι}
  {returned : List Ret}

omit [DecidableEq ι] in
/-- The object of a copy is in front or in the hands of the thread that is in a `Modify`. -/
theorem Inv.held (h : Inv s) (hlook : (s.data b).lookup key = some p) :
    p ∈ objects s.front ∨ ∃ i, p ∈ hands (s.pc i) := by
  obtain rfl | hb := eq_or_ne b s.index
  · exact .inl (mem_objects.2 ⟨key, hlook⟩)
  obtain rfl : b = !s.index := by cases b <;> cases hi : s.index <;> simp_all
  cases hm : s.mutex with
  | none =>
    have hq : s.data (!s.index) = s.front := h.quiet hm
    exact .inl (mem_objects.2 ⟨key, hq ▸ hlook⟩)
  | some i =>
    have hin := (h.owner i).2 hm
    have hph := h.phase i
    cases hpc : s.pc i <;> rw [hpc] at hin hph
    case first op =>
      rw [hph.2.2] at hlook
      exact .inl (mem_objects.2 ⟨key, hlook⟩)
    case flip op ret =>
      cases hph.1.objects.subset (mem_append_left _ (mem_objects.2 ⟨key, hlook⟩)) |>
        mem_append.1 with
      | inl hp => exact .inl hp
      | inr hp =>
        refine .inr ⟨i, ?_⟩
        rw [hpc, hph.2.1]
        exact hp
    case second op ret =>
      cases hph.1.lookup hlook with
      | inl hp =>
        refine .inr ⟨i, ?_⟩
        rw [hpc]
        exact hp
      | inr hp => exact .inl (mem_objects.2 ⟨key, hp⟩)
    all_goals exact nomatch hin

open State

/-- The thread neither reads a copy nor has the mutex. -/
def Pc.Outside : Pc → Prop
  | .look _ _ _ | .first _ | .flip _ _ | .second _ _ => False
  | _ => True

theorem Pc.Outside.not_inModify (h : c.Outside) : ¬c.InModify := by
  intro hin
  cases c <;> first | exact False.elim h | exact hin

theorem places_other (hpc : s'.pc = update s.pc i c) (hr : r ≠ .hand i)
    (hfront : r = .front → s'.front = s.front) (hdel : r = .deleted → s'.deleted = s.deleted) :
    places s' r = places s r := by
  cases r with
  | front => exact congrArg objects (hfront rfl)
  | deleted => exact hdel rfl
  | hand j =>
    simp only [places, hpc]
    rw [update_of_ne]
    rintro rfl
    exact hr rfl

theorem places_goto (hfront : s'.front = s.front) (hdel : s'.deleted = s.deleted)
    (hpc : s'.pc = update s.pc i c) (hh : hands c = hands (s.pc i)) : places s' = places s := by
  ext1 q
  by_cases hq : q = .hand i
  · subst hq
    simp only [places, hpc, update_self, hh]
  · exact places_other hpc hq (fun _ => hfront) (fun _ => hdel)

section

omit [DecidableEq ι]

theorem Placed.same (h : Placed s) (hcreated : s'.created = s.created) (hp : places s' = places s) :
    Placed s' := by
  constructor
  · rw [hp]
    exact h.excl
  · rw [hp, hcreated]
    exact h.cover

theorem Placed.move (h : Placed s) (hqr : q ≠ r)
    (hperm : (places s' q ++ places s' r).Perm (places s q ++ places s r))
    (hrest : ∀ t, t ≠ q → t ≠ r → places s' t = places s t) (hcreated : s'.created = s.created) :
    Placed s' := by
  constructor
  · exact h.excl.move hqr hperm.subperm hrest
  · intro p
    rw [hcreated, h.cover]
    constructor
    · rintro ⟨t, ht⟩
      exact Exclusive.mem_of_move hperm.symm.subperm (fun t hq hr => (hrest t hq hr).symm) ht
    · rintro ⟨t, ht⟩
      exact Exclusive.mem_of_move hperm.subperm hrest ht

theorem Placed.insert (h : Placed s) (hq : places s' q = s.created :: places s q)
    (hrest : ∀ r, r ≠ q → places s' r = places s r) (hcreated : s'.created = s.created + 1) :
    Placed s' := by
  constructor
  · apply h.excl.insert _ (List.Perm.of_eq hq) hrest
    intro r hr
    exact lt_irrefl _ ((h.cover s.created).2 ⟨r, hr⟩)
  · intro p
    rw [hcreated, Nat.lt_succ_iff_lt_or_eq, h.cover]
    constructor
    · rintro (⟨r, hr⟩ | rfl)
      · refine ⟨r, ?_⟩
        obtain rfl | hrq := eq_or_ne r q
        · rw [hq]
          exact mem_cons_of_mem _ hr
        · rw [hrest r hrq]
          exact hr
      · exact ⟨q, hq ▸ mem_cons_self⟩
    · rintro ⟨r, hr⟩
      obtain rfl | hrq := eq_or_ne r q
      · rw [hq, mem_cons] at hr
        exact hr.symm.imp (fun hr => ⟨r, hr⟩) id
      · rw [hrest r hrq] at hr
        exact .inl ⟨r, hr⟩

end

section

variable (h : Inv s)
include h

/-- A **calm step**: a thread goes on outside of `Modify`. -/
theorem Inv.calm (ho : (s.pc i).Outside) (hc : c.Outside)
    {active : Finset ι} (hact : ∀ j, j ∈ active ↔ update s.pc i c j ≠ .idle)
    {before : ι → List (Key × ℕ)} (hother : ∀ j, j ≠ i → before j = s.before j)
    (hbefore : ∀ j, before j ⊆ known)
    (hknown : ∀ key p, (key, p) ∈ known → key.length = s.labels ∧ Live s.front s.erased key p)
    (hstable : ∀ r ∈ returned, r.readFailed = false → ∀ p, (r.labelsValue, p) ∈ r.before → p ∉ r.erased →
      r.result = some p) {dying : Bool}
    (hdying : dying = true → ∃ j, (∀ k, k ≠ j → update s.pc i c k = .idle) ∧
      Closing s.front (update s.pc i c j))
    (hph : Phase s.labels s.data s.index s.erased (before i) c) {deleted : List ℕ}
    (hplaced : Placed ({ s with active, before, known, returned, dying, deleted }.goto i c)) :
    Inv ({ s with active, before, known, returned, dying, deleted }.goto i c) where
  actives := hact
  readers j b := by
    refine (forall_update_iff s.pc (fun j c => j ∈ s.readers b ↔ ∃ o k, c = .look o k b)).2
      ⟨?_, fun j _ => h.readers j b⟩ j
    rw [h.readers]
    constructor
    · rintro ⟨o, k, hpc⟩
      rw [hpc] at ho
      exact ho.elim
    · rintro ⟨o, k, rfl⟩
      exact hc.elim
  owner := by
    refine (forall_update_iff s.pc (fun j c => c.InModify ↔ s.mutex = some j)).2
      ⟨?_, fun j _ => h.owner j⟩
    rw [← h.owner i]
    exact iff_of_false hc.not_inModify ho.not_inModify
  phase := by
    refine (forall_update_iff s.pc (fun j c => Phase s.labels s.data s.index s.erased (before j) c)).2
      ⟨hph, fun j hj => ?_⟩
    rw [hother j hj]
    exact h.phase j
  quiet := h.quiet
  pinned hr := by
    obtain ⟨j, op, ret, hpc⟩ := h.pinned hr
    have hj : j ≠ i := by
      rintro rfl
      rw [hpc] at ho
      exact ho
    exact ⟨j, op, ret, (update_of_ne hj ..).trans hpc⟩
  before := hbefore
  known := hknown
  stable := hstable
  placed := hplaced
  closing := hdying
  checks := h.checks

theorem Inv.active_of_ne (hi : s.pc i ≠ .idle) (hc : c ≠ .idle) (j : ι) :
    j ∈ s.active ↔ update s.pc i c j ≠ .idle := by
  obtain rfl | hj := eq_or_ne j i
  · rw [update_self]
    exact iff_of_true ((h.actives j).2 hi) hc
  · rw [update_of_ne hj, h.actives]

/-- While the destructor runs, a thread that is in a call is the one that runs it. -/
theorem Inv.closing_goto {front : MetricMap} (hi : s.pc i ≠ .idle)
    (hc : Closing s.front (s.pc i) → Closing front c) (hd : s.dying = true) :
    ∃ j, (∀ k, k ≠ j → update s.pc i c k = .idle) ∧ Closing front (update s.pc i c j) := by
  obtain ⟨j, hidle, hcl⟩ := h.closing hd
  obtain rfl : i = j := by
    by_contra hne
    exact hi (hidle i hne)
  refine ⟨i, fun k hk => ?_, ?_⟩
  · rw [update_of_ne hk]
    exact hidle k hk
  · rw [update_self]
    exact hc hcl

theorem Inv.goto (ho : (s.pc i).Outside) (hi : s.pc i ≠ .idle) (hc : c.Outside) (hne : c ≠ .idle)
    (hh : hands c = hands (s.pc i)) (hcl : Closing s.front (s.pc i) → Closing s.front c)
    (hph : Phase s.labels s.data s.index s.erased (s.before i) c) : Inv (s.goto i c) :=
  h.calm ho hc (h.active_of_ne hi hne) (fun _ _ => rfl) h.before h.known h.stable
    (h.closing_goto hi hcl) hph (h.placed.same rfl (places_goto rfl rfl rfl hh))

theorem Inv.enter (hi : s.pc i = .idle) (hc : c.Outside) (hne : c ≠ .idle) (hh : hands c = [])
    (hd : s.dying = false) (hph : Phase s.labels s.data s.index s.erased s.known c) :
    Inv (s.enter i c) := by
  refine h.calm (by rw [hi]; trivial) hc ?_ (fun j hj => update_of_ne hj ..) ?_
    h.known h.stable (fun hd' => nomatch hd.symm.trans hd') ?_
    (h.placed.same rfl (places_goto rfl rfl rfl (by rw [hi, hh]; rfl)))
  · intro j
    rw [Finset.mem_insert, h.actives]
    obtain rfl | hj := eq_or_ne j i
    · rw [update_self]
      exact iff_of_true (.inl rfl) hne
    · rw [update_of_ne hj]
      exact or_iff_right hj
  · refine (forall_update_iff s.before (fun _ l => l ⊆ s.known)).2 ⟨List.Subset.refl _, ?_⟩
    exact fun j _ => h.before j
  · rw [update_self]
    exact hph

theorem Inv.finish (ho : (s.pc i).Outside) (hi : s.pc i ≠ .idle) (hh : hands (s.pc i) = [])
    (hcl : Closing s.front (s.pc i) → s.front = ∅) (hsub : s.known ⊆ known)
    (hknown : ∀ key p, (key, p) ∈ known → key.length = s.labels ∧ Live s.front s.erased key p)
    (hstable : ∀ r ∈ returned, r.readFailed = false → ∀ p, (r.labelsValue, p) ∈ r.before → p ∉ r.erased →
      r.result = some p) : Inv ({ s with known, returned }.leave i) := by
  apply h.calm (c := .idle) ho trivial _ (fun _ _ => rfl) (fun j => List.Subset.trans (h.before j) hsub)
    hknown hstable (h.closing_goto hi hcl) trivial (h.placed.same rfl (places_goto rfl rfl rfl hh.symm))
  intro j
  rw [Finset.mem_erase, h.actives]
  obtain rfl | hj := eq_or_ne j i
  · rw [update_self]
    exact iff_of_false (fun hne => hne.1 rfl) (fun hne => hne rfl)
  · rw [update_of_ne hj]
    exact and_iff_right hj

theorem Inv.ret (ho : (s.pc i).Outside) (hi : s.pc i ≠ .idle) (hh : hands (s.pc i) = [])
    (hcl : ¬Closing s.front (s.pc i)) {key : Key} {result : Option ℕ} {failed : Bool}
    (hlive : ∀ p, result = some p → key.length = s.labels ∧ Live s.front s.erased key p)
    (hres : failed = false → ∀ p, (key, p) ∈ s.before i → p ∉ s.erased → result = some p) :
    Inv (s.ret i key result failed) := by
  apply h.finish ho hi hh (fun hc => absurd hc hcl) (subset_append_right ..)
  · intro key' p hp
    cases mem_append.1 hp with
    | inl hp =>
      obtain ⟨q, hq, heq⟩ := mem_map.1 hp
      cases heq
      exact hlive p (Option.mem_toList.1 hq)
    | inr hp => exact h.known key' p hp
  · exact forall_mem_cons.2 ⟨hres, h.stable⟩

end

/-! ### Readers -/

theorem update_not (f : Bool → MetricMap) (b : Bool) (m : MetricMap) : update f (!b) m b = f b := by
  apply update_of_ne
  cases b <;> nofun

theorem readStep_inv (h : Inv s) {o : StatsOp} {key : Key} (hpc : s.pc i = .read o key) (ok : Bool) :
    Inv (readStep s i o key ok) := by
  unfold readStep
  split
  · -- the pinned copy is the one in front
    constructor
    · exact h.active_of_ne (by rw [hpc]; nofun) nofun
    · intro j b
      simp only [goto]
      obtain rfl | hj := eq_or_ne j i
      · rw [update_self]
        obtain rfl | hb := eq_or_ne b s.index
        · rw [update_self]
          exact iff_of_true (Finset.mem_insert_self ..) ⟨o, key, rfl⟩
        · rw [update_of_ne hb, h.readers, hpc]
          constructor
          · rintro ⟨_, _, hl⟩
            cases hl
          · rintro ⟨_, _, hl⟩
            cases hl
            exact absurd rfl hb
      · rw [update_of_ne hj, ← h.readers]
        obtain rfl | hb := eq_or_ne b s.index
        · rw [update_self, Finset.mem_insert]
          exact or_iff_right hj
        · rw [update_of_ne hb]
    · refine (forall_update_iff s.pc (fun j c => c.InModify ↔ s.mutex = some j)).2
        ⟨?_, fun j _ => h.owner j⟩
      rw [← h.owner i, hpc]
      exact Iff.rfl
    · refine (forall_update_iff s.pc
        (fun j c => Phase s.labels s.data s.index s.erased (s.before j) c)).2 ⟨?_, fun j _ => h.phase j⟩
      have hlen : Phase s.labels s.data s.index s.erased (s.before i) (.read o key) := hpc ▸ h.phase i
      exact ⟨hlen, fun p hp => (h.known key p (h.before i hp)).2, fun k p hp => .inr hp⟩
    · exact h.quiet
    · intro hr
      obtain ⟨j, op, ret, hsec⟩ := h.pinned (by
        intro hnil
        apply hr
        refine (update_of_ne ?_ ..).trans hnil
        cases s.index <;> nofun)
      have hj : j ≠ i := by
        rintro rfl
        exact nomatch hpc.symm.trans hsec
      exact ⟨j, op, ret, (update_of_ne hj ..).trans hsec⟩
    · exact h.before
    · exact h.known
    · exact h.stable
    · exact h.placed.same rfl (places_goto rfl rfl rfl (by rw [hpc]; rfl))
    · exact h.closing_goto (by rw [hpc]; nofun) (by rw [hpc]; exact id)
    · exact h.checks
  · apply h.ret <;> simp [hpc, Pc.Outside, hands, Closing]

theorem unpin_inv (h : Inv s) {o : StatsOp} (hpc : s.pc i = .look o key b) :
    Inv ({ s with readers := update s.readers b ((s.readers b).erase i) }.goto i (.read o key)) := by
  obtain ⟨hlen, -⟩ : Phase s.labels s.data s.index s.erased (s.before i) (.look o key b) :=
    hpc ▸ h.phase i
  constructor
  · exact h.active_of_ne (by rw [hpc]; nofun) nofun
  · intro j b'
    simp only [goto]
    obtain rfl | hj := eq_or_ne j i
    · rw [update_self]
      apply iff_of_false _ nofun
      obtain rfl | hb := eq_or_ne b' b
      · rw [update_self]
        exact Finset.notMem_erase j (s.readers b')
      · rw [update_of_ne hb, h.readers, hpc]
        rintro ⟨_, _, hl⟩
        cases hl
        exact hb rfl
    · rw [update_of_ne hj, ← h.readers]
      obtain rfl | hb := eq_or_ne b' b
      · rw [update_self, Finset.mem_erase]
        exact and_iff_right hj
      · rw [update_of_ne hb]
  · refine (forall_update_iff s.pc (fun j c => c.InModify ↔ s.mutex = some j)).2
      ⟨?_, fun j _ => h.owner j⟩
    rw [← h.owner i, hpc]
    exact Iff.rfl
  · exact (forall_update_iff s.pc
      (fun j c => Phase s.labels s.data s.index s.erased (s.before j) c)).2 ⟨hlen, fun j _ => h.phase j⟩
  · exact h.quiet
  · intro hr
    obtain ⟨j, op, ret, hsec⟩ := h.pinned (by
      intro hnil
      apply hr
      by_cases hb : (!s.index) = b
      · subst hb
        simp only [goto, update_self, hnil]
        rfl
      · exact (update_of_ne hb ..).trans hnil)
    have hj : j ≠ i := by
      rintro rfl
      exact nomatch hpc.symm.trans hsec
    exact ⟨j, op, ret, (update_of_ne hj ..).trans hsec⟩
  · exact h.before
  · exact h.known
  · exact h.stable
  · exact h.placed.same rfl (places_goto rfl rfl rfl (by rw [hpc]; rfl))
  · exact h.closing_goto (by rw [hpc]; nofun) (by rw [hpc]; exact id)
  · exact h.checks

theorem lookStep_inv (h : Inv s) {o : StatsOp} {key : Key} {b : Bool} (hpc : s.pc i = .look o key b) :
    Inv (lookStep s i o key b) := by
  have hu := unpin_inv h hpc
  obtain ⟨hlen, hbefore, hlive⟩ : Phase s.labels s.data s.index s.erased (s.before i)
      (.look o key b) := hpc ▸ h.phase i
  set u := { s with readers := update s.readers b ((s.readers b).erase i) }.goto i
    (.read o key) with hudef
  have hupc : u.pc i = .read o key := update_self ..
  have hret : ∀ r, ({ s with readers := update s.readers b ((s.readers b).erase i) }.ret i key r false)
      = u.ret i key r false := by
    intro r
    simp only [hudef, ret, leave, goto, update_idem]
  have hret_inv : ∀ r, (∀ p, r = some p → key.length = s.labels ∧ Live s.front s.erased key p) →
      (∀ p, (key, p) ∈ s.before i → p ∉ s.erased → r = some p) → Inv (u.ret i key r false) := by
    intro r hr hb
    apply hu.ret _ _ _ _ hr (fun _ => hb) <;> rw [hupc]
    · trivial
    · nofun
    · rfl
    · exact not_false
  unfold lookStep
  cases hlook : (s.data b).lookup key with
  | some it =>
    simp only [hret]
    apply hret_inv
    · intro p hp
      cases hp
      exact ⟨hlen, hlive key it hlook⟩
    · intro p hp hpe
      exact (hlook.symm.trans ((hbefore p hp).resolve_left hpe))
  | none =>
    have hmiss : ∀ p, (key, p) ∈ s.before i → p ∈ s.erased := by
      intro p hp
      refine (hbefore p hp).resolve_right ?_
      rw [hlook]
      nofun
    simp only [hret]
    split
    · apply hret_inv
      · nofun
      · exact fun p hp hpe => absurd (hmiss p hp) hpe
    · have hgoto := hu.goto (i := i) (c := .lock (.insert key none)) (by rw [hupc]; trivial)
        (by rw [hupc]; nofun) trivial nofun (by rw [hupc]; rfl) (by rw [hupc]; exact False.elim)
        ⟨rfl, hlen, hmiss⟩
      simpa only [hudef, goto, update_idem] using hgoto

/-! ### `Modify` -/

/-- What the steps of `Modify` have in common: thread `i` goes on, and the readers stay. -/
theorem Inv.readers_goto (h : Inv s) (hl : ∀ o k b, s.pc i ≠ .look o k b) (hc : ∀ o k b, c ≠ .look o k b)
    (j : ι) (b : Bool) : j ∈ s.readers b ↔ ∃ o k, update s.pc i c j = .look o k b := by
  refine (forall_update_iff s.pc (fun j c => j ∈ s.readers b ↔ ∃ o k, c = .look o k b)).2
    ⟨?_, fun j _ => h.readers j b⟩ j
  rw [h.readers]
  constructor
  · rintro ⟨o, k, hpc⟩
    exact absurd hpc (hl o k b)
  · rintro ⟨o, k, hpc⟩
    exact absurd hpc (hc o k b)

omit [DecidableEq ι] in
theorem Inv.owner_unique (h : Inv s) (hi : (s.pc i).InModify) {j : ι} (hj : (s.pc j).InModify) : j = i :=
  Option.some.inj (((h.owner j).1 hj).symm.trans ((h.owner i).1 hi))

theorem lockStep_inv (h : Inv s) (hpc : s.pc i = .lock op) : Inv (lockStep s i op) := by
  unfold lockStep
  split
  case isFalse => exact h
  rename_i hm
  have hout : ∀ j, ¬(s.pc j).InModify := fun j hj => nomatch hm.symm.trans ((h.owner j).1 hj)
  obtain ⟨hfresh, hmiss⟩ : Phase s.labels s.data s.index s.erased (s.before i) (.lock op) :=
    hpc ▸ h.phase i
  constructor
  · exact h.active_of_ne (by rw [hpc]; nofun) nofun
  · exact h.readers_goto (by rw [hpc]; nofun) nofun
  · refine (forall_update_iff s.pc (fun j c => c.InModify ↔ some i = some j)).2
      ⟨iff_of_true trivial rfl, fun j hj => iff_of_false (hout j) ?_⟩
    exact fun he => hj (Option.some.inj he).symm
  · exact (forall_update_iff s.pc
      (fun j c => Phase s.labels s.data s.index s.erased (s.before j) c)).2
        ⟨⟨hfresh, hmiss, h.quiet hm⟩, fun j _ => h.phase j⟩
  · nofun
  · intro hr
    obtain ⟨j, op', ret, hsec⟩ := h.pinned hr
    exact absurd (by rw [hsec]; trivial) (hout j)
  · exact h.before
  · exact h.known
  · exact h.stable
  · exact h.placed.same rfl (places_goto rfl rfl rfl (by rw [hpc]; rfl))
  · apply h.closing_goto (by rw [hpc]; nofun)
    rw [hpc]
    cases op <;> exact id
  · exact h.checks

theorem Inv.background (h : Inv s) (hpc : s.pc i = .first op) : s.readers (!s.index) = ∅ := by
  by_contra hr
  obtain ⟨j, op', ret, hsec⟩ := h.pinned hr
  obtain rfl := h.owner_unique (i := i) (by rw [hpc]; trivial) (j := j) (by rw [hsec]; trivial)
  exact nomatch hpc.symm.trans hsec

/-- Outside of `Modify` a thread knows the same when the background changes that it does not
read. -/
theorem Phase.setBack
    (h : Phase labels data index erased before c) (hc : ¬c.InModify)
    (hl : ∀ o k b, c = .look o k b → b = index) :
    Phase labels (update data (!index) m) index erased before c := by
  have hfront : update data (!index) m index = data index := update_not ..
  cases c with
  | look o k b =>
    obtain rfl := hl o k b rfl
    simp only [Phase, hfront]
    exact h
  | after op ret =>
    cases op with
    | insert key cache =>
      unfold Phase
      rw [hfront]
      exact h
    | erase key tmp => trivial
    | clear tmp => exact h
  | lock op => exact h
  | first op => exact absurd trivial hc
  | flip op ret => exact absurd trivial hc
  | second op ret => exact absurd trivial hc
  | idle => trivial
  | read o k => exact h
  | deleting rest => trivial

omit [DecidableEq ι] in
theorem Inv.look_front (h : Inv s) (hr : s.readers (!s.index) = ∅) (j : ι) (o : StatsOp) (k : Key)
    (b : Bool)
    (hpc : s.pc j = .look o k b) : b = s.index := by
  by_contra hb
  obtain rfl : b = !s.index := by cases b <;> cases hi : s.index <;> simp_all
  have hj := (h.readers j _).2 ⟨o, k, hpc⟩
  rw [hr] at hj
  exact Finset.notMem_empty j hj

/-- What the end of a `Modify` has in common with the lambda on the background: both change the
background while nobody reads it. -/
theorem Inv.setBack (h : Inv s) (hr : s.readers (!s.index) = ∅) (hin : (s.pc i).InModify)
    (hl : ∀ o k b, c ≠ .look o k b) (hne : c ≠ .idle)
    (hph : Phase s.labels (update s.data (!s.index) m) s.index s.erased (s.before i) c)
    {mutex : Option ι} (howner : c.InModify ∧ mutex = some i ∨ ¬c.InModify ∧ mutex = none ∧ m = s.front)
    (hcl : Closing s.front (s.pc i) → Closing s.front c) {fatal : Bool} (hf : fatal = false)
    (hra : raced = false)
    (hplaced : Placed ({ s.setBack m with created, mutex, fatal, raced }.goto i c)) :
    Inv ({ s.setBack m with created, mutex, fatal, raced }.goto i c) := by
  have hi : s.pc i ≠ .idle := by
    intro hidle
    rw [hidle] at hin
    exact hin
  have hfront : (s.setBack m).front = s.front := update_not ..
  constructor
  · exact h.active_of_ne hi hne
  · apply h.readers_goto _ hl
    intro o k b hlook
    rw [hlook] at hin
    exact hin
  · refine (forall_update_iff s.pc (fun j c => c.InModify ↔ mutex = some j)).2 ⟨?_, fun j hj => ?_⟩
    · rcases howner with ⟨hc, hm⟩ | ⟨hc, hm, -⟩
      · exact iff_of_true hc hm
      · exact iff_of_false hc (by rw [hm]; nofun)
    · have hout : ¬(s.pc j).InModify := fun hj' => hj (h.owner_unique hin hj')
      apply iff_of_false hout
      rcases howner with ⟨-, hm⟩ | ⟨-, hm, -⟩ <;> rw [hm]
      · exact fun he => hj (Option.some.inj he).symm
      · nofun
  · refine (forall_update_iff s.pc
      (fun j c => Phase s.labels (s.setBack m).data s.index s.erased (s.before j) c)).2
        ⟨hph, fun j hj => ?_⟩
    exact (h.phase j).setBack (fun hj' => hj (h.owner_unique hin hj')) (h.look_front hr j)
  · intro hm
    rcases howner with ⟨-, hm'⟩ | ⟨-, -, rfl⟩
    · exact nomatch hm'.symm.trans hm
    · exact (update_self ..).trans hfront.symm
  · exact fun hr' => absurd hr hr'
  · exact h.before
  · intro key p hp
    exact hfront.symm ▸ h.known key p hp
  · exact h.stable
  · exact hplaced
  · exact h.closing_goto hi (fun hc => hfront.symm ▸ hcl hc)
  · exact ⟨hf, hra⟩

theorem Inv.first (h : Inv s) {op' : Op}
    (hpc : s.pc i = .first op) (hdone : op'.Done s.back m')
    (hmiss : op'.Missed s.labels (s.before i) s.erased)
    (hclear : ∀ t, op = .clear t → ∃ t', op' = .clear t') (hra : raced = false)
    (hplaced : Placed ({ s.setBack m' with created, raced }.goto i (.flip op' 1))) :
    Inv ({ s.setBack m' with created, raced }.goto i (.flip op' 1)) := by
  have hin : (s.pc i).InModify := by rw [hpc]; trivial
  obtain ⟨-, -, hback⟩ : Phase s.labels s.data s.index s.erased (s.before i) (.first op) :=
    hpc ▸ h.phase i
  refine h.setBack (c := .flip op' 1) (h.background hpc) hin nofun nofun ?_
    (.inl ⟨trivial, (h.owner i).1 hin⟩) ?_ h.checks.1
    hra hplaced
  · refine ⟨?_, rfl, hmiss⟩
    rw [update_not, update_self, ← hback]
    exact hdone
  · rw [hpc]
    cases op with
    | insert key cache => exact False.elim
    | erase key tmp => exact False.elim
    | clear tmp =>
      obtain ⟨t', rfl⟩ := hclear tmp rfl
      exact id

theorem firstStep_inv (h : Inv s) (hpc : s.pc i = .first op) : Inv (firstStep s i op) := by
  obtain ⟨hfresh, hmiss, hback⟩ : Phase s.labels s.data s.index s.erased (s.before i) (.first op) :=
    hpc ▸ h.phase i
  have hr := h.background hpc
  have hrace : (s.raced || decide (s.readers (!s.index) ≠ ∅)) = false := by
    rw [h.checks.2, hr]
    rfl
  have hfront : ∀ m, update s.data (!s.index) m s.index = s.front := fun m => update_not ..
  obtain ⟨op', hmiss', hclear, ⟨happly, hidle, htaken⟩ | ⟨key, rfl, hnone, happly⟩ |
    ⟨m', hdone, hhands, happly⟩⟩ := hfresh.apply s.back s.created hmiss
  · -- nothing to do
    unfold firstStep
    simp only [happly, if_true]
    refine h.setBack (c := .after op' 0) hr (by rw [hpc]; trivial) nofun nofun ?_
      (.inr ⟨id, rfl, hback⟩) ?_
      h.checks.1 hrace ?_
    · cases op' with
      | insert key cache =>
        obtain ⟨p, rfl, hlook⟩ := hidle
        refine ⟨⟨p, rfl, .inr ?_⟩, hmiss'⟩
        rw [hfront, front, ← hback]
        exact hlook
      | erase key tmp => trivial
      | clear tmp => exact False.elim hidle
    · rw [hpc]
      cases op with
      | insert key cache => exact False.elim
      | erase key tmp => exact False.elim
      | clear tmp =>
        obtain ⟨t', rfl⟩ := hclear tmp rfl
        exact False.elim hidle
    · refine h.placed.same rfl (places_goto (hfront _) rfl rfl ?_)
      rw [hpc]
      exact htaken
  · -- an object is created
    unfold firstStep
    simp only [happly, one_ne_zero, if_false]
    have hdone : (Op.insert key (some s.created)).Done s.back (s.back.insert key s.created) :=
      ⟨s.created, rfl, hnone, rfl⟩
    apply h.first hpc hdone hmiss' hclear hrace
    apply h.placed.insert (q := .hand i)
    · simp [places, goto, hands, hpc]
    · intro r hr
      exact places_other rfl hr (fun _ => hfront _) (fun _ => rfl)
    · rfl
  · unfold firstStep
    simp only [happly, one_ne_zero, if_false]
    apply h.first hpc hdone hmiss' hclear hrace
    refine h.placed.same rfl (places_goto (hfront _) rfl rfl ?_)
    rw [hpc]
    exact hhands

/-- What was found in a copy before the flip is found in front after it, or taken out. -/
theorem Live.flip (hdone : op.Done m m')
    (h : Live m erased key p) : Live m' (op.taken ++ erased) key p := by
  cases h with
  | inl he => exact .inl (mem_append_right _ he)
  | inr hl => exact (hdone.lookup hl).imp (fun ht => mem_append_left _ ht) id

theorem Live.mono (hsub : erased ⊆ erased')
    (h : Live m erased key p) : Live m erased' key p :=
  h.imp (fun he => hsub he) id

theorem Op.Missed.mono (hsub : erased ⊆ erased')
    (h : op.Missed labels before erased) : op.Missed labels before erased' := by
  cases op with
  | insert key cache => exact ⟨h.1, fun p hp => hsub (h.2 p hp)⟩
  | erase key tmp => trivial
  | clear tmp => trivial

theorem Phase.flip
    (hdone : op.Done (data index) (data (!index))) (h : Phase labels data index erased before c)
    (hc : ¬c.InModify) : Phase labels data (!index) (op.taken ++ erased) before c := by
  have hsub : erased ⊆ op.taken ++ erased := subset_append_right ..
  cases c with
  | look o k b =>
    obtain ⟨hlen, hbefore, hlive⟩ := h
    exact ⟨hlen, fun p hp => (hbefore p hp).mono hsub, fun k p hp => (hlive k p hp).flip hdone⟩
  | lock op' => exact ⟨h.1, h.2.mono hsub⟩
  | after op' ret =>
    cases op' with
    | insert key cache =>
      obtain ⟨⟨p, hp, hlive⟩, hmiss⟩ := h
      exact ⟨⟨p, hp, hlive.flip hdone⟩, hmiss.mono hsub⟩
    | erase key tmp => trivial
    | clear tmp => exact h
  | first op' => exact absurd trivial hc
  | flip op' ret => exact absurd trivial hc
  | second op' ret => exact absurd trivial hc
  | idle => trivial
  | read o k => exact h
  | deleting rest => trivial

theorem flipStep_inv (h : Inv s) {ret : ℕ} (hpc : s.pc i = .flip op ret) :
    Inv (flipStep s i op ret) := by
  have hin : (s.pc i).InModify := by rw [hpc]; trivial
  obtain ⟨hdone, rfl, hmiss⟩ : Phase s.labels s.data s.index s.erased (s.before i) (.flip op ret) :=
    hpc ▸ h.phase i
  unfold flipStep
  constructor
  · exact h.active_of_ne (by rw [hpc]; nofun) nofun
  · exact h.readers_goto (by rw [hpc]; nofun) nofun
  · refine (forall_update_iff s.pc (fun j c => c.InModify ↔ s.mutex = some j)).2
      ⟨?_, fun j _ => h.owner j⟩
    exact iff_of_true trivial ((h.owner i).1 hin)
  · refine (forall_update_iff s.pc (fun j c => Phase s.labels s.data (!s.index) (op.taken ++ s.erased)
      (s.before j) c)).2 ⟨?_, fun j hj => (h.phase j).flip hdone (fun hj' => hj (h.owner_unique hin hj'))⟩
    refine ⟨?_, rfl, hmiss.mono (subset_append_right ..), subset_append_left ..⟩
    rw [Bool.not_not]
    exact hdone
  · intro hm
    exact nomatch ((h.owner i).1 hin).symm.trans hm
  · exact fun _ => ⟨i, op, 1, update_self ..⟩
  · exact h.before
  · exact fun key p hp => ⟨(h.known key p hp).1, (h.known key p hp).2.flip hdone⟩
  · exact h.stable
  · apply h.placed.move (q := .front) (r := .hand i) nofun
    · simp only [places, goto, update_self, hpc]
      exact hdone.objects
    · intro r hf hr
      exact places_other rfl hr (fun hf' => absurd hf' hf) (fun _ => rfl)
    · rfl
  · apply h.closing_goto (by rw [hpc]; nofun)
    rw [hpc]
    cases op with
    | insert key cache => exact id
    | erase key tmp => exact id
    | clear tmp => exact fun _ => hdone.2
  · exact h.checks

theorem secondStep_inv (h : Inv s) {ret : ℕ} (hpc : s.pc i = .second op ret) :
    Inv (secondStep s i op ret) := by
  unfold secondStep
  split
  case isTrue => exact h
  rename_i hr
  have hr : s.readers (!s.index) = ∅ := not_not.1 hr
  obtain ⟨hdone, rfl, hmiss, htaken⟩ : Phase s.labels s.data s.index s.erased (s.before i)
      (.second op ret) :=
    hpc ▸ h.phase i
  have happly : op.apply s.back s.created = ⟨s.front, op, 1, s.created⟩ := hdone.apply s.created
  have hfront : update s.data (!s.index) s.front s.index = s.front := update_not ..
  simp only [happly]
  refine h.setBack (c := .after op 1) hr (by rw [hpc]; trivial) nofun nofun ?_ (.inr ⟨id, rfl, rfl⟩) ?_ ?_
    h.checks.2 ?_
  · cases op with
    | insert key cache =>
      obtain ⟨p, rfl, -, hm⟩ := hdone
      refine ⟨⟨p, rfl, .inr ?_⟩, hmiss⟩
      rw [hfront, front, hm]
      exact AList.lookup_insert _
    | erase key tmp => trivial
    | clear tmp => rfl
  · rw [hpc]
    cases op <;> exact id
  · rw [h.checks.1]
    rfl
  · refine h.placed.same rfl (places_goto hfront rfl rfl ?_)
    rw [hpc]
    rfl

/-! ### Behind `Modify` -/

theorem afterStep_inv (h : Inv s) {op : Op} {ret : ℕ} (hpc : s.pc i = .after op ret) :
    Inv (afterStep s i op ret) := by
  have hph : Phase s.labels s.data s.index s.erased (s.before i) (.after op ret) := hpc ▸ h.phase i
  have ho : (s.pc i).Outside := by rw [hpc]; trivial
  have hne : s.pc i ≠ .idle := by rw [hpc]; nofun
  cases op with
  | insert key cache =>
    obtain ⟨⟨p, rfl, hlive⟩, hmiss⟩ := hph
    apply h.ret ho hne
    · rw [hpc]
      rfl
    · rw [hpc]
      exact id
    · intro q hq
      cases hq
      exact ⟨hmiss.1, hlive⟩
    · exact fun _ q hq hqe => absurd (hmiss.2 q hq) hqe
  | erase key tmp =>
    exact h.goto ho hne trivial nofun (by rw [hpc]; rfl) (by rw [hpc]; exact False.elim) trivial
  | clear tmp =>
    have hret : ret = 1 := hph
    have hf : (s.fatal || decide (ret ≠ 1)) = s.fatal := by simp [hret]
    unfold afterStep
    simp only [hf]
    exact h.goto ho hne trivial nofun (by rw [hpc]; rfl) (by rw [hpc]; exact id) trivial

theorem deletingStep_inv (h : Inv s) {rest : List ℕ} (hpc : s.pc i = .deleting rest) :
    Inv (deletingStep s i rest) := by
  cases rest with
  | nil =>
    exact h.finish (by rw [hpc]; trivial) (by rw [hpc]; nofun) (by rw [hpc]; rfl) (by rw [hpc]; exact id)
      (List.Subset.refl _) h.known h.stable
  | cons p rest =>
    have hne : s.pc i ≠ .idle := by rw [hpc]; nofun
    apply h.calm (c := .deleting rest) (by rw [hpc]; trivial) trivial (h.active_of_ne hne nofun)
      (fun _ _ => rfl) h.before h.known h.stable (h.closing_goto hne (by rw [hpc]; exact id)) trivial
    apply h.placed.move (q := .hand i) (r := .deleted) nofun
    · simp only [places, goto, update_self, hpc, hands]
      exact perm_middle
    · intro r hr hd
      exact places_other rfl hr (fun _ => rfl) (fun hd' => absurd hd' hd)
    · rfl

/-! ### Calls -/

theorem goStep_inv (h : Inv s) (i : ι) (ok : Bool) : Inv (goStep s i ok) := by
  unfold goStep
  cases hpc : s.pc i with
  | idle => exact h
  | read o key => exact readStep_inv h hpc ok
  | look o key b => exact lookStep_inv h hpc
  | lock op => exact lockStep_inv h hpc
  | first op => exact firstStep_inv h hpc
  | flip op ret => exact flipStep_inv h hpc
  | second op ret => exact secondStep_inv h hpc
  | after op ret => exact afterStep_inv h hpc
  | deleting rest => exact deletingStep_inv h hpc

omit [DecidableEq ι] in
theorem Inv.idle (h : Inv s) (hi : i ∉ s.active) : s.pc i = .idle := by
  by_contra hne
  exact hi ((h.actives i).2 hne)

theorem getStatsStep_inv (h : Inv s) (hi : s.pc i = .idle) (hd : s.dying = false) (o : StatsOp)
    (key : Key) :
    Inv (getStatsStep s i o key) := by
  unfold getStatsStep
  split
  · -- nothing was returned for these labels
    rename_i hlen
    set c := Pc.after (.erase key none) 0
    have he : Inv (s.enter i c) := h.enter hi trivial nofun rfl hd trivial
    have hpc : (s.enter i c).pc i = c := update_self ..
    have hret : (s.enter i (.read o key)).ret i key none false = (s.enter i c).ret i key none false := by
      simp only [ret, enter, leave, goto, update_idem]
    rw [hret]
    apply he.ret <;> try rw [hpc]
    · trivial
    · nofun
    · rfl
    · exact not_false
    · nofun
    · intro _ p hp
      have hp : (key, p) ∈ update s.before i s.known i := hp
      rw [update_self] at hp
      exact absurd (h.known key p hp).1.symm hlen
  next hlen =>
    exact h.enter hi trivial nofun rfl hd (not_not.1 hlen).symm

theorem clearStatsStep_inv (h : Inv s) (hi : s.pc i = .idle) (hd : s.dying = false) :
    Inv (clearStatsStep s i) :=
  h.enter hi trivial nofun rfl hd ⟨rfl, trivial⟩

theorem destroy_inv (h : Inv s) (ha : s.active = ∅) (hd : s.dying = false) (i : ι) :
    Inv { clearStatsStep s i with dying := true } := by
  have hidle : ∀ j, s.pc j = .idle := fun j => h.idle (by rw [ha]; exact Finset.notMem_empty j)
  have hc := clearStatsStep_inv h (hidle i) hd
  refine { hc with placed := hc.placed.same rfl rfl, closing := fun _ => ⟨i, fun j hj => ?_, ?_⟩ }
  · exact (update_of_ne hj ..).trans (hidle j)
  · simp only [clearStatsStep, enter, goto, update_self, Closing]

theorem step_inv (s : State ι) (a : Act ι) (h : Inv s) : Inv (step s a) := by
  have henter : ∀ i, ¬(i ∈ s.active ∨ s.dying = true) → s.pc i = .idle ∧ s.dying = false := fun i hn =>
    ⟨h.idle (fun hi => hn (.inl hi)), Bool.eq_false_of_not_eq_true (fun hd => hn (.inr hd))⟩
  cases a with
  | getStats i key =>
    simp only [step]
    split
    · exact h
    · exact getStatsStep_inv h (henter i ‹_›).1 (henter i ‹_›).2 .readOrInsert key
  | hasStats i key =>
    simp only [step]
    split
    · exact h
    · exact getStatsStep_inv h (henter i ‹_›).1 (henter i ‹_›).2 .readOnly key
  | deleteStats i key =>
    simp only [step, deleteStatsStep]
    split
    · exact h
    split
    · exact h
    · exact h.enter (henter i ‹_›).1 trivial nofun rfl (henter i ‹_›).2 ⟨rfl, trivial⟩
  | clearStats i =>
    simp only [step]
    split
    · exact h
    · exact clearStatsStep_inv h (henter i ‹_›).1 (henter i ‹_›).2
  | destroy i =>
    simp only [step]
    split
    · exact h
    next hn =>
      obtain ⟨ha, hd⟩ := not_or.1 hn
      exact destroy_inv h (not_not.1 ha) (Bool.eq_false_of_not_eq_true hd) i
  | go i ok => exact goStep_inv h i ok

end Eabase.Var.MultiDimension
