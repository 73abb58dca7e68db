import Mathlib.Data.Fintype.Basic
import Eabase.Lib.Machine

/-!
# Keys of fiber-local data

A key is an index and a version. `s_key_info` has the current version of each
index; indices that are given back lie on a stack. Each fiber has a table of two
levels that is filled on demand and stores a value together with the version of
the key it was set through.

`fiber_key_delete` and `fiber_setspecific` take a key for a live one when its
version is the current one of its index. This also holds of keys that were never
created: version 0 of an index that was not used yet, and the version that a free
index will have next. Calls with such keys apart, keys do not alias.

The calls are atomic here. The keys that are live, and what each fiber last set
through each of them, are kept along with the state of the code.
-/

namespace Eabase.Fiber.Key

open Lib Function List

variable {ι α δ : Type*} [DecidableEq ι]

/-! ## Key tables -/

def key2ndLevelSize : ℕ := 32

def key1stLevelSize : ℕ := 31

def keysMax : ℕ := key2ndLevelSize * key1stLevelSize

def EAGAIN : ℤ := 11

def ENOMEM : ℤ := 12

def EINVAL : ℤ := 22

/-- `fiber_key_t`. -/
structure FiberKey where
  index : ℕ
  version : BitVec 32
  deriving DecidableEq

/-- The version of an index, and the destructor of its key with its arguments. -/
structure KeyInfo (δ : Type*) where
  version : BitVec 32
  dtor : Option δ

/-- A value with the version it was set with; `none` is NULL. -/
structure Data (α : Type*) where
  version : BitVec 32
  ptr : Option α

abbrev SubKeyTable (α : Type*) := ℕ → Data α

abbrev KeyTable (α : Type*) := ℕ → Option (SubKeyTable α)

/-- What `memset` leaves. -/
def Data.zero : Data α := ⟨0, none⟩

def SubKeyTable.getData (sub : SubKeyTable α) (index : ℕ) (version : BitVec 32) : Option α :=
  if (sub index).version = version then (sub index).ptr else none

def SubKeyTable.setData (sub : SubKeyTable α) (index : ℕ) (version : BitVec 32) (data : Option α) :
    SubKeyTable α :=
  update sub index ⟨version, data⟩

def KeyTable.getData (kt : KeyTable α) (key : FiberKey) : Option α :=
  let subidx := key.index / key2ndLevelSize
  if subidx < key1stLevelSize then
    match kt subidx with
    | some sub => sub.getData (key.index - subidx * key2ndLevelSize) key.version
    | none => none
  else none

/-- `set_data`; `ok` says whether there is memory for a second level. -/
def KeyTable.setData (kt : KeyTable α) (info : ℕ → KeyInfo δ) (key : FiberKey) (data : Option α)
    (ok : Bool) : ℤ × KeyTable α :=
  let subidx := key.index / key2ndLevelSize
  if subidx < key1stLevelSize ∧ key.version = (info key.index).version then
    match kt subidx with
    | some sub => (0, update kt subidx
        (some (sub.setData (key.index - subidx * key2ndLevelSize) key.version data)))
    | none =>
      if ok then
        (0, update kt subidx (some (SubKeyTable.setData (fun _ => .zero)
          (key.index - subidx * key2ndLevelSize) key.version data)))
      else (ENOMEM, kt)
  else (EINVAL, kt)

/-! ## The machine -/

/-- The keys (`s_key_info`, `s_free_keys` with its top in front, `nkey`), the tables of the fibers,
the pool of each fiber and the free tables of the pools. Beside them: the keys that are live, the
indices whose version went round, and what each fiber last set through a live key. -/
structure State (ι α δ : Type*) where
  info : ℕ → KeyInfo δ
  freeKeys : List ℕ
  nkey : ℕ
  keytable : ι → Option (KeyTable α)
  pool : ι → Option ℕ
  freeKeytables : ℕ → List (KeyTable α)
  live : List FiberKey
  wrapped : ℕ → Bool
  last : ι → FiberKey → Option α

def start (α δ : Type*) (pool : ι → Option ℕ) : State ι α δ where
  info _ := ⟨0, none⟩
  freeKeys := []
  nkey := 0
  keytable _ := none
  pool := pool
  freeKeytables _ := []
  live := []
  wrapped _ := false
  last _ _ := none

/-- What `fiber_key_create2` does with the index that it has taken: the key, and the state. -/
def State.initKey (s : State ι α δ) (index : ℕ) (dtor : Option δ) : FiberKey × State ι α δ :=
  let version := if (s.info index).version = 0 then 1 else (s.info index).version
  let key : FiberKey := ⟨index, version⟩
  (key, { s with
    info := update s.info index ⟨version, dtor⟩
    live := key :: s.live
    last := fun f k => if k = key then none else s.last f k })

/-- `fiber_key_create2`. -/
def State.keyCreate (s : State ι α δ) (dtor : Option δ) : ℤ × Option FiberKey × State ι α δ :=
  match s.freeKeys with
  | index :: rest =>
    let (key, s') := { s with freeKeys := rest }.initKey index dtor
    (0, some key, s')
  | [] =>
    if s.nkey < keysMax then
      let (key, s') := { s with nkey := s.nkey + 1 }.initKey s.nkey dtor
      (0, some key, s')
    else (EAGAIN, none, s)

/-- The version behind another one: 0 is left out. -/
def nextVersion (v : BitVec 32) : BitVec 32 :=
  if v + 1 = 0 then 1 else v + 1

section

variable (s : State ι α δ)

/-- `fiber_key_delete`. -/
def State.keyDelete (key : FiberKey) : ℤ × State ι α δ :=
  if key.index < keysMax ∧ key.version = (s.info key.index).version then
    (0, { s with
      info := update s.info key.index ⟨nextVersion key.version, none⟩
      freeKeys := key.index :: s.freeKeys
      live := s.live.erase key
      wrapped := update s.wrapped key.index
        (s.wrapped key.index || decide (key.version + 1 = 0)) })
  else (EINVAL, s)

/-- `fiber_setspecific`; `ok₁` and `ok₂` say whether there is memory for each level. -/
def State.setSpecific (f : ι) (key : FiberKey) (data : Option α) (ok₁ ok₂ : Bool) :
    ℤ × State ι α δ :=
  if s.keytable f = none ∧ ok₁ = false then (ENOMEM, s)
  else
    let (rc, kt) := ((s.keytable f).getD fun _ => none).setData s.info key data ok₂
    (rc, { s with
      keytable := update s.keytable f (some kt)
      last := fun f' k => if rc = 0 ∧ f' = f ∧ k = key then data else s.last f' k })

/-- `borrow_keytable`. -/
def State.borrowKeytable : Option ℕ → Option (KeyTable α × State ι α δ)
  | none => none
  | some pool =>
    match s.freeKeytables pool with
    | [] => none
    | kt :: rest => some (kt, { s with freeKeytables := update s.freeKeytables pool rest })

/-- `fiber_getspecific`. -/
def State.getSpecific (f : ι) (key : FiberKey) : Option α × State ι α δ :=
  match s.keytable f with
  | some kt => (kt.getData key, s)
  | none =>
    match s.borrowKeytable (s.pool f) with
    | some (kt, s') => (kt.getData key, { s' with keytable := update s'.keytable f (some kt) })
    | none => (none, s)

end

inductive Act (ι α δ : Type*) where
  | create (dtor : Option δ)
  | delete (key : FiberKey)
  | set (f : ι) (key : FiberKey) (data : Option α) (ok₁ ok₂ : Bool)
  | get (f : ι) (key : FiberKey)

def step (s : State ι α δ) : Act ι α δ → State ι α δ
  | .create dtor => (s.keyCreate dtor).2.2
  | .delete key => (s.keyDelete key).2
  | .set f key data ok₁ ok₂ => (s.setSpecific f key data ok₁ ok₂).2
  | .get f key => (s.getSpecific f key).2

/-! ## What is claimed -/

/-- What a call returns: `fiber_key_delete` succeeds on the live keys, and `fiber_getspecific` gives
for a live key what the fiber last set through it, unless the version of its index went round. -/
def Answers (s : State ι α δ) : Act ι α δ → Prop
  | .delete key => (s.keyDelete key).1 = 0 ↔ key ∈ s.live
  | .get f key => key ∈ s.live → s.wrapped key.index = false → (s.getSpecific f key).1 = s.last f key
  | .create _ | .set _ _ _ _ _ => True

/-- **Keys do not alias**: the call returns what it should, and behind it the live keys have
different indices. -/
def NoAlias (s : State ι α δ) (a : Act ι α δ) : Prop :=
  Answers s a ∧ ((step s a).live.map FiberKey.index).Nodup

/-- What a call must heed: a key that is deleted is live, or its version is not the current one of
its index; so is a key that a value is set through, if its version is not 0. -/
def Heeds (s : State ι α δ) : Act ι α δ → Prop
  | .delete key => key ∉ s.live → key.index < keysMax → key.version ≠ (s.info key.index).version
  | .set _ key _ _ _ => key ∉ s.live → key.index < keysMax → key.version ≠ 0 →
      key.version ≠ (s.info key.index).version
  | .create _ | .get _ _ => True

instance (s : State ι α δ) : DecidablePred (Heeds s)
  | .delete key => inferInstanceAs (Decidable (key ∉ s.live → key.index < keysMax →
      key.version ≠ (s.info key.index).version))
  | .set _ key _ _ _ => inferInstanceAs (Decidable (key ∉ s.live → key.index < keysMax →
      key.version ≠ 0 → key.version ≠ (s.info key.index).version))
  | .create _ | .get _ _ => inferInstanceAs (Decidable True)

/-! ## Tables by their data -/

/-- The data of an index in a table; where there is no second level, it is what a new one would
have. -/
def KeyTable.data (kt : KeyTable α) (index : ℕ) : Data α :=
  match kt (index / key2ndLevelSize) with
  | some sub => sub (index - index / key2ndLevelSize * key2ndLevelSize)
  | none => .zero

theorem getData_eq (kt : KeyTable α) {key : FiberKey} (hindex : key.index < keysMax) :
    kt.getData key = if (kt.data key.index).version = key.version then (kt.data key.index).ptr
    else none := by
  have hsub : key.index / key2ndLevelSize < key1stLevelSize := Nat.div_lt_of_lt_mul hindex
  unfold KeyTable.getData KeyTable.data
  simp only [if_pos hsub]
  cases kt (key.index / key2ndLevelSize) with
  | some sub => rfl
  | none => exact (ite_self _).symm

theorem offset_ne {i j : ℕ} (hij : i ≠ j) (hsub : i / key2ndLevelSize = j / key2ndLevelSize) :
    i - i / key2ndLevelSize * key2ndLevelSize ≠ j - j / key2ndLevelSize * key2ndLevelSize := by
  intro h
  have hi := Nat.div_mul_le_self i key2ndLevelSize
  have hj := Nat.div_mul_le_self j key2ndLevelSize
  rw [hsub] at h hi
  lia

theorem setData_data {kt kt' : KeyTable α} {info : ℕ → KeyInfo δ} {key : FiberKey} {data : Option α}
    {ok : Bool} (h : kt.setData info key data ok = (0, kt')) (i : ℕ) :
    kt'.data i = if i = key.index then ⟨key.version, data⟩ else kt.data i := by
  unfold KeyTable.setData at h
  dsimp only at h
  split at h
  case isFalse => cases h
  have hwrite : ∀ sub : SubKeyTable α, (∀ j, j / key2ndLevelSize = key.index / key2ndLevelSize →
        sub (j - j / key2ndLevelSize * key2ndLevelSize) = kt.data j) →
      kt' = update kt (key.index / key2ndLevelSize) (some (sub.setData
        (key.index - key.index / key2ndLevelSize * key2ndLevelSize) key.version data)) →
      kt'.data i = if i = key.index then ⟨key.version, data⟩ else kt.data i := by
    rintro sub hsub rfl
    by_cases hsame : i / key2ndLevelSize = key.index / key2ndLevelSize
    · rw [KeyTable.data, hsame, update_self]
      by_cases hi : i = key.index
      · rw [if_pos hi, hi]
        exact update_self ..
      · rw [if_neg hi, ← hsub i hsame, ← hsame]
        refine update_of_ne ?_ ..
        rw [hsame]
        exact hsame ▸ offset_ne hi hsame
    · have hi : i ≠ key.index := fun hi => hsame (by rw [hi])
      rw [if_neg hi, KeyTable.data, update_of_ne hsame]
      rfl
  split at h
  case h_1 sub hkt =>
    refine hwrite sub (fun j hj => ?_) (Prod.mk.inj h).2.symm
    rw [KeyTable.data, hj, hkt]
  case h_2 hkt =>
    split at h
    · refine hwrite _ (fun j hj => ?_) (Prod.mk.inj h).2.symm
      rw [KeyTable.data, hj, hkt]
    · cases h

theorem setData_of_ne_zero {kt kt' : KeyTable α} {info : ℕ → KeyInfo δ} {key : FiberKey} {data : Option α}
    {ok : Bool} {rc : ℤ} (h : kt.setData info key data ok = (rc, kt')) (hrc : rc ≠ 0) : kt' = kt := by
  unfold KeyTable.setData at h
  dsimp only at h
  split at h
  · split at h
    · exact absurd (Prod.mk.inj h).1.symm hrc
    · split at h
      · exact absurd (Prod.mk.inj h).1.symm hrc
      · exact (Prod.mk.inj h).2.symm
  · exact (Prod.mk.inj h).2.symm

theorem setData_version {kt kt' : KeyTable α} {info : ℕ → KeyInfo δ} {key : FiberKey} {data : Option α}
    {ok : Bool} (h : kt.setData info key data ok = (0, kt')) :
    key.index < keysMax ∧ key.version = (info key.index).version := by
  unfold KeyTable.setData at h
  dsimp only at h
  split at h
  case isTrue hc =>
    have hpos : 0 < key2ndLevelSize := by decide
    refine ⟨?_, hc.2⟩
    rw [keysMax, Nat.mul_comm]
    exact (Nat.div_lt_iff_lt_mul hpos).1 hc.1
  case isFalse => cases h

/-! ## The invariant -/

def State.data (s : State ι α δ) (f : ι) (index : ℕ) : Data α :=
  match s.keytable f with
  | some kt => kt.data index
  | none => .zero

/-- The used indices are those of the live keys and the free ones. As long as the version of an
index does not go round, what is stored was stored with its version or an earlier one, and with an
earlier one where the index is free. -/
structure Inv (s : State ι α δ) : Prop where
  nodup : (s.live.map FiberKey.index ++ s.freeKeys).Nodup
  below : ∀ i ∈ s.live.map FiberKey.index ++ s.freeKeys, i < s.nkey
  nkey : s.nkey ≤ keysMax
  version : ∀ k ∈ s.live, k.version = (s.info k.index).version
  used : ∀ i ∈ s.live.map FiberKey.index ++ s.freeKeys, (s.info i).version ≠ 0
  unused : ∀ i, s.nkey ≤ i → (s.info i).version = 0
  stored : ∀ f i, s.wrapped i = false → (s.data f i).version ≤ (s.info i).version
  free : ∀ f, ∀ i ∈ s.freeKeys, s.wrapped i = false → (s.data f i).version < (s.info i).version
  last : ∀ f, ∀ k ∈ s.live, s.wrapped k.index = false →
    s.last f k = if (s.data f k.index).version = k.version then (s.data f k.index).ptr else none
  pools : ∀ n, s.freeKeytables n = []

open State

open FiberKey

omit [DecidableEq ι] in
theorem start_inv (pool : ι → Option ℕ) : Inv (start α δ pool) where
  nodup := nodup_nil
  below := nofun
  nkey := Nat.zero_le _
  version := nofun
  used := nofun
  unused _ _ := rfl
  stored _ _ _ := BitVec.le_refl _
  free := nofun
  last := nofun
  pools _ := rfl

section Steps

variable {s : State ι α δ} {f : ι} {key : FiberKey}

section

omit [DecidableEq ι]

theorem mem_live_index (hk : key ∈ s.live) : key.index ∈ s.live.map index ++ s.freeKeys :=
  mem_append_left _ (mem_map_of_mem hk)

theorem Inv.eq_of_index (h : Inv s) {k : FiberKey} (hkey : key ∈ s.live) (hk : k ∈ s.live)
    (hindex : k.index = key.index) : k = key := by
  cases k
  cases key
  obtain rfl : _ = _ := hindex
  exact congrArg _ ((h.version _ hk).trans (h.version _ hkey).symm)

theorem Inv.index_lt (h : Inv s) (hkey : key ∈ s.live) : key.index < keysMax :=
  (h.below _ (mem_live_index hkey)).trans_le h.nkey

end

theorem getSpecific_state (h : Inv s) : (s.getSpecific f key).2 = s := by
  unfold getSpecific borrowKeytable
  cases s.keytable f with
  | some kt => rfl
  | none =>
    cases s.pool f with
    | none => rfl
    | some n => simp only [h.pools n]

theorem getSpecific_eq (h : Inv s) (hkey : key ∈ s.live) (hwrap : s.wrapped key.index = false) :
    (s.getSpecific f key).1 = s.last f key := by
  rw [h.last f key hkey hwrap]
  unfold getSpecific borrowKeytable data
  cases s.keytable f with
  | some kt => exact getData_eq kt (h.index_lt hkey)
  | none =>
    have hnone : (none : Option α) =
        if (.zero : Data α).version = key.version then (.zero : Data α).ptr else none :=
      (ite_self _).symm
    cases s.pool f with
    | none => exact hnone
    | some n =>
      simp only [h.pools n]
      exact hnone

section

omit [DecidableEq ι]

/-- `fiber_key_delete` succeeds on the live keys, if it is called with heed. -/
theorem keyDelete_iff (h : Inv s) (hheeds : Heeds (ι := ι) s (.delete key)) :
    (s.keyDelete key).1 = 0 ↔ key ∈ s.live := by
  unfold keyDelete
  split
  case isTrue hc =>
    refine iff_of_true rfl ?_
    by_contra hno
    exact hheeds hno hc.1 hc.2
  case isFalse hc =>
    have hrc : EINVAL ≠ 0 := by decide
    refine iff_of_false hrc fun hkey => hc ?_
    exact ⟨h.index_lt hkey, h.version key hkey⟩

theorem initKey_inv (h : Inv s) {i n : ℕ} {rest : List ℕ} (dtor : Option δ)
    (hnodup : (s.live.map index ++ rest).Nodup)
    (hi : i ∉ s.live.map index ++ rest) (hin : i < n) (hn : n ≤ keysMax) (hle : s.nkey ≤ n)
    (hrest : ∀ j ∈ rest, j ∈ s.freeKeys)
    (hstored : ∀ f, s.wrapped i = false →
      (s.data f i).version < if (s.info i).version = 0 then 1 else (s.info i).version) :
    Inv ({ s with freeKeys := rest, nkey := n }.initKey i dtor).2 := by
  set v : BitVec 32 := if (s.info i).version = 0 then 1 else (s.info i).version with hv
  have hv0 : v ≠ 0 := by
    rw [hv]
    split
    · decide
    · assumption
  have hinfo : ∀ {j}, j ≠ i → update s.info i ⟨v, dtor⟩ j = s.info j := fun hj =>
    update_of_ne hj ..
  have hself : update s.info i ⟨v, dtor⟩ i = ⟨v, dtor⟩ := update_self ..
  have hsub : ∀ j ∈ s.live.map index ++ rest, j ∈ s.live.map index ++ s.freeKeys := by
    intro j hj
    obtain hj | hj := mem_append.1 hj
    · exact mem_append_left _ hj
    · exact mem_append_right _ (hrest j hj)
  have hne : ∀ j ∈ s.live.map index ++ rest, j ≠ i := by
    rintro j hj rfl
    exact hi hj
  constructor
  · exact nodup_cons.2 ⟨hi, hnodup⟩
  · intro j hj
    obtain rfl | hj := mem_cons.1 hj
    · exact hin
    · exact (h.below j (hsub j hj)).trans_le hle
  · exact hn
  · intro k hk
    show k.version = (update s.info i ⟨v, dtor⟩ k.index).version
    obtain rfl | hk := mem_cons.1 hk
    · rw [hself]
    · rw [hinfo (hne _ (mem_append_left _ (mem_map_of_mem hk)))]
      exact h.version k hk
  · intro j hj
    show (update s.info i ⟨v, dtor⟩ j).version ≠ 0
    obtain rfl | hj := mem_cons.1 hj
    · rw [hself]
      exact hv0
    · rw [hinfo (hne j hj)]
      exact h.used j (hsub j hj)
  · intro j hj
    have hj' : n ≤ j := hj
    show (update s.info i ⟨v, dtor⟩ j).version = 0
    rw [hinfo (by lia)]
    exact h.unused j (hle.trans hj')
  · intro f j hwrap
    show (s.data f j).version ≤ (update s.info i ⟨v, dtor⟩ j).version
    obtain rfl | hj := eq_or_ne j i
    · rw [hself]
      exact BitVec.le_of_lt (hstored f hwrap)
    · rw [hinfo hj]
      exact h.stored f j hwrap
  · intro f j hj hwrap
    show (s.data f j).version < (update s.info i ⟨v, dtor⟩ j).version
    rw [hinfo (hne j (mem_append_right _ hj))]
    exact h.free f j (hrest j hj) hwrap
  · intro f k hk hwrap
    show (if k = ⟨i, v⟩ then none else s.last f k) =
      if (s.data f k.index).version = k.version then (s.data f k.index).ptr else none
    obtain rfl | hk := mem_cons.1 hk
    · have hlt := hstored f hwrap
      rw [if_pos rfl, if_neg]
      rintro heq
      exact absurd (heq ▸ hlt) (BitVec.lt_irrefl _)
    · rw [if_neg]
      · exact h.last f k hk hwrap
      · rintro rfl
        exact hne _ (mem_append_left _ (mem_map_of_mem hk)) rfl
  · exact h.pools

theorem keyCreate_inv (h : Inv s) (dtor : Option δ) : Inv (s.keyCreate dtor).2.2 := by
  unfold keyCreate
  split
  case h_1 i rest hfree =>
    have hnodup := h.nodup
    rw [hfree] at hnodup
    have hi : i ∈ s.freeKeys := hfree ▸ mem_cons_self ..
    refine initKey_inv h dtor (hnodup.sublist ?_) ?_ (h.below i (mem_append_right _ hi)) h.nkey le_rfl
      (fun j hj => hfree ▸ mem_cons_of_mem i hj) (fun f hwrap => ?_)
    · exact (sublist_cons_self i rest).append_left _
    · exact (nodup_middle.1 hnodup).notMem
    · rw [if_neg (h.used i (mem_append_right _ hi))]
      exact h.free f i hi hwrap
  case h_2 =>
    split
    case isFalse => exact h
    case isTrue hlt =>
      refine initKey_inv h dtor h.nodup (fun hi => ?_) (Nat.lt_succ_self _) hlt (Nat.le_succ _)
        (fun _ => id) (fun f hwrap => ?_)
      · exact absurd (h.below _ hi) (lt_irrefl _)
      · have hstored := h.stored f s.nkey hwrap
        rw [h.unused _ le_rfl] at hstored
        rw [h.unused _ le_rfl, if_pos rfl]
        bv_omega

end

theorem nextVersion_ne_zero (v : BitVec 32) : nextVersion v ≠ 0 := by
  unfold nextVersion
  split
  · decide
  · assumption

theorem lt_nextVersion {v : BitVec 32} (hv : v + 1 ≠ 0) : v < nextVersion v := by
  rw [nextVersion, if_neg hv]
  bv_omega

omit [DecidableEq ι] in
theorem keyDelete_inv (h : Inv s) (hheeds : Heeds (ι := ι) s (.delete key)) :
    Inv (s.keyDelete key).2 := by
  have hiff := keyDelete_iff h hheeds
  unfold keyDelete at hiff ⊢
  split
  case isFalse => exact h
  case isTrue hc =>
  rw [if_pos hc] at hiff
  have hkey : key ∈ s.live := hiff.1 rfl
  have hsub : s.live.erase key ⊆ s.live := erase_subset ..
  -- the free indices are those of before and the one of the key
  have hperm : ((s.live.erase key).map index ++ key.index :: s.freeKeys).Perm
      (s.live.map index ++ s.freeKeys) := by
    refine perm_middle.trans ?_
    exact ((perm_cons_erase hkey).map index).symm.append_right s.freeKeys
  have hmem : ∀ i, i ∈ (s.live.erase key).map index ++ key.index :: s.freeKeys ↔
      i ∈ s.live.map index ++ s.freeKeys := fun i => hperm.mem_iff
  have hnodup := hperm.nodup_iff.2 h.nodup
  have hne : ∀ i ∈ (s.live.erase key).map index ++ s.freeKeys, i ≠ key.index := by
    rintro i hi rfl
    exact (nodup_middle.1 hnodup).notMem hi
  have hinfo : ∀ {i}, i ≠ key.index →
      update s.info key.index ⟨nextVersion key.version, none⟩ i = s.info i := fun hi =>
    update_of_ne hi ..
  have hself : update s.info key.index ⟨nextVersion key.version, none⟩ key.index =
      ⟨nextVersion key.version, none⟩ := update_self ..
  have hwrapped : ∀ {i}, update s.wrapped key.index
      (s.wrapped key.index || decide (key.version + 1 = 0)) i = false → s.wrapped i = false := by
    intro i hi
    obtain rfl | hik := eq_or_ne i key.index
    · rw [update_self, Bool.or_eq_false_iff] at hi
      exact hi.1
    · rwa [update_of_ne hik] at hi
  have hlt : ∀ f, update s.wrapped key.index
      (s.wrapped key.index || decide (key.version + 1 = 0)) key.index = false →
      (s.data f key.index).version < nextVersion key.version := by
    intro f hi
    have hstored := h.stored f key.index (hwrapped hi)
    rw [update_self, Bool.or_eq_false_iff, decide_eq_false_iff_not] at hi
    rw [← hc.2] at hstored
    exact Nat.lt_of_le_of_lt hstored (lt_nextVersion hi.2)
  constructor
  · exact hnodup
  · exact fun i hi => h.below i ((hmem i).1 hi)
  · exact h.nkey
  · intro k hk
    show k.version = (update s.info key.index ⟨nextVersion key.version, none⟩ k.index).version
    rw [hinfo (hne _ (mem_append_left _ (mem_map_of_mem hk)))]
    exact h.version k (hsub hk)
  · intro i hi
    show (update s.info key.index ⟨nextVersion key.version, none⟩ i).version ≠ 0
    obtain rfl | hik := eq_or_ne i key.index
    · rw [hself]
      exact nextVersion_ne_zero _
    · rw [hinfo hik]
      exact h.used i ((hmem i).1 hi)
  · intro i hi
    show (update s.info key.index ⟨nextVersion key.version, none⟩ i).version = 0
    rw [hinfo]
    · exact h.unused i hi
    · rintro rfl
      exact absurd (h.below _ (mem_live_index hkey)) (not_lt.2 hi)
  · intro f i hi
    show (s.data f i).version ≤ (update s.info key.index ⟨nextVersion key.version, none⟩ i).version
    obtain rfl | hik := eq_or_ne i key.index
    · rw [hself]
      exact BitVec.le_of_lt (hlt f hi)
    · rw [hinfo hik]
      exact h.stored f i (hwrapped hi)
  · intro f i hmem hi
    show (s.data f i).version < (update s.info key.index ⟨nextVersion key.version, none⟩ i).version
    obtain rfl | hfree := mem_cons.1 hmem
    · rw [hself]
      exact hlt f hi
    · rw [hinfo (hne i (mem_append_right _ hfree))]
      exact h.free f i hfree (hwrapped hi)
  · exact fun f k hk hi => h.last f k (hsub hk) (hwrapped hi)
  · exact h.pools

omit [DecidableEq ι] in
@[simp] theorem getD_data (f : ι) (i : ℕ) :
    ((s.keytable f).getD fun _ => none).data i = s.data f i := by
  unfold data
  cases s.keytable f <;> rfl

/-- `fiber_setspecific` returns without a table, fails in it, or writes one value. -/
theorem setSpecific_cases (s : State ι α δ) (f : ι) (key : FiberKey) (data : Option α) (ok1 ok2 : Bool) :
    (s.setSpecific f key data ok1 ok2).2 = s ∨
    ∃ kt, (∀ i, kt.data i = s.data f i) ∧ (s.setSpecific f key data ok1 ok2).2 =
      { s with keytable := update s.keytable f (some kt) } ∨
    key.index < keysMax ∧ key.version = (s.info key.index).version ∧
    (∀ i, kt.data i = if i = key.index then ⟨key.version, data⟩ else s.data f i) ∧
    (s.setSpecific f key data ok1 ok2).2 =
      { s with
        keytable := update s.keytable f (some kt)
        last := fun f' k => if f' = f ∧ k = key then data else s.last f' k } := by
  unfold setSpecific
  split
  case isTrue => exact .inl rfl
  case isFalse =>
    right
    cases hset : ((s.keytable f).getD fun _ => none).setData s.info key data ok2 with
    | mk rc kt =>
    refine ⟨kt, ?_⟩
    obtain rfl | hrc := eq_or_ne rc 0
    · obtain ⟨hindex, hversion⟩ := setData_version hset
      refine .inr ⟨hindex, hversion, fun i => ?_, ?_⟩
      · rw [setData_data hset i, getD_data]
      · simp
    · left
      have hkt := setData_of_ne_zero hset hrc
      constructor
      · intro i
        rw [hkt, getD_data]
      · simp [hrc]

theorem data_update {kt : KeyTable α} {last : ι → FiberKey → Option α} (f f' : ι) (i : ℕ) :
    data { s with keytable := update s.keytable f (some kt), last } f' i =
      if f' = f then kt.data i else s.data f' i := by
  unfold data
  obtain rfl | hf := eq_or_ne f' f
  · simp
  · simp [hf]

theorem setSpecific_inv (h : Inv s) {data : Option α} {ok1 ok2 : Bool}
    (hheeds : Heeds s (.set f key data ok1 ok2)) : Inv (s.setSpecific f key data ok1 ok2).2 := by
  obtain heq | ⟨kt, ⟨hkt, heq⟩ | ⟨hindex, hversion, hkt, heq⟩⟩ := setSpecific_cases s f key data ok1 ok2
  · rwa [heq]
  · rw [heq]
    have hdata : ∀ f' i,
        State.data { s with keytable := update s.keytable f (some kt) } f' i = s.data f' i := by
      intro f' i
      rw [data_update f f' i]
      split
      case isTrue hf => rw [hf, hkt]
      case isFalse => rfl
    exact { h with
      stored := fun f' i => (hdata f' i).symm ▸ h.stored f' i
      free := fun f' i hi => (hdata f' i).symm ▸ h.free f' i hi
      last := fun f' k hk => (hdata f' k.index).symm ▸ h.last f' k hk }
  · rw [heq]
    set last : ι → FiberKey → Option α := fun f' k => if f' = f ∧ k = key then data else s.last f' k
    have hdata : ∀ f' i, State.data { s with keytable := update s.keytable f (some kt), last } f' i =
        if f' = f ∧ i = key.index then ⟨key.version, data⟩ else s.data f' i := by
      intro f' i
      rw [data_update f f' i]
      by_cases hf : f' = f
      · rw [if_pos hf, hkt, hf]
        simp
      · rw [if_neg hf, if_neg fun hc => hf hc.1]
    -- a key that is not live has version 0 here, and no index in use has that
    have hlive : key.version ≠ 0 → key ∈ s.live := by
      intro hv
      by_contra hno
      exact hheeds hno hindex hv hversion
    refine { h with
      stored := fun f' i hi => ?_, free := fun f' i hmem hi => ?_, last := fun f' k hk hi => ?_ }
    · rw [hdata]
      split
      case isTrue hc =>
        rw [hc.2, ← hversion]
        exact BitVec.le_refl _
      case isFalse => exact h.stored f' i hi
    · rw [hdata, if_neg]
      · exact h.free f' i hmem hi
      · rintro ⟨-, rfl⟩
        by_cases hv : key.version = 0
        · exact h.used _ (mem_append_right _ hmem) (hversion ▸ hv)
        · exact disjoint_of_nodup_append h.nodup (mem_map_of_mem (hlive hv)) hmem
    · show (if f' = f ∧ k = key then data else s.last f' k) = _
      by_cases hc : f' = f ∧ k.index = key.index
      · have hv : key.version ≠ 0 := by
          rw [hversion, ← hc.2]
          exact h.used _ (mem_live_index hk)
        obtain rfl := h.eq_of_index (hlive hv) hk hc.2
        rw [if_pos ⟨hc.1, rfl⟩, hdata, if_pos hc, if_pos rfl]
      · rw [hdata, if_neg hc, if_neg]
        · exact h.last f' k hk hi
        · rintro ⟨hf, rfl⟩
          exact hc ⟨hf, rfl⟩

theorem step_inv (s : State ι α δ) (a : Act ι α δ) (h : Inv s) (hheeds : Heeds s a) : Inv (step s a) := by
  cases a with
  | create dtor => exact keyCreate_inv h dtor
  | delete key => exact keyDelete_inv h hheeds
  | set f key data ok1 ok2 => exact setSpecific_inv h hheeds
  | get f key =>
    show Inv (s.getSpecific f key).2
    rwa [getSpecific_state h]

omit [DecidableEq ι] in
theorem Inv.live_nodup (h : Inv s) : (s.live.map index).Nodup :=
  h.nodup.of_append_left

theorem noAlias_of_heeds (s : State ι α δ) (a : Act ι α δ) (h : Inv s) (hheeds : Heeds s a) :
    NoAlias s a := by
  refine ⟨?_, (step_inv s a h hheeds).live_nodup⟩
  cases a with
  | create dtor => trivial
  | delete key => exact keyDelete_iff h hheeds
  | set f key data ok1 ok2 => trivial
  | get f key => exact fun hkey hwrap => getSpecific_eq h hkey hwrap

/-- **Keys do not alias** in a run whose calls heed the condition. -/
theorem run_noAlias (pool : ι → Option ℕ) (as : List (Act ι α δ))
    (hc : Along step Heeds (start α δ pool) as) : Along step NoAlias (start α δ pool) as :=
  hc.mono noAlias_of_heeds step_inv (start_inv pool)

end Steps

/-- A value is set, the key is deleted and its index used again. -/
theorem run_noAlias_reuse :
    Along step NoAlias (start ℕ ℕ fun _ : Fin 1 => none)
      [.create none, .set 0 ⟨0, 1⟩ (some 7) true true, .get 0 ⟨0, 1⟩, .delete ⟨0, 1⟩, .create none,
        .get 0 ⟨0, 2⟩, .delete ⟨0, 1⟩] :=
  run_noAlias _ _ (by decide)

/-- The invalid key is deleted before any key was created: the next two keys are the same. -/
theorem delete_invalid_not_noAlias :
    ¬ ∀ as : List (Act (Fin 1) ℕ ℕ), Along step NoAlias (start ℕ ℕ fun _ => none) as := by
  intro hall
  have hnodup := (hall [.delete ⟨0, 0⟩, .create none, .create none]).2.2.1.2
  revert hnodup
  decide

end Eabase.Fiber.Key
