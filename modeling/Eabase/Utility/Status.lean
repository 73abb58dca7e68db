import Mathlib.Data.List.GetD
import Eabase.Lib.Machine

/-!
# Status

`Status`: a code and a message in memory of `malloc`, or no memory, which means
OK. `set_errorv` formats into the memory that is there before it knows whether
the text fits, and gets more memory only then; `set_error` gets the memory first.

`malloc` and `vsnprintf` may fail in each call. A text that is passed does not
lie in the memory of a `Status`, and its size is far from the end of a `size_t`.
-/

namespace Eabase.Utility.Status

open Lib Function List

/-! ## `Status::State` -/

/-- The values of an `unsigned`. -/
def two32 : ℕ := 2 ^ 32

/-- The values of a `size_t`. -/
def two64 : ℕ := 2 ^ 64

/-- `Status::State`; `message` has the bytes of the memory from there on. -/
structure State where
  code : ℤ
  size : ℕ
  stateSize : ℕ
  message : ℕ → UInt8

/-- `offsetof(Status::State, message)`. -/
def offsetofMessage : ℕ := 12

/-- `status_size`. -/
def statusSize (messageSize : ℕ) : ℕ :=
  ((offsetofMessage + messageSize) / 4 + 1) * 4

/-- `memcpy` to the beginning of the memory. -/
def write (message : ℕ → UInt8) (bytes : List UInt8) : ℕ → UInt8 :=
  fun k => bytes.getD k (message k)

/-- `malloc`: it fails, or there is memory with some bytes. -/
abbrev Malloc : Type := Option (ℕ → UInt8)

/-- `vsnprintf` fails, when it has written some bytes, or not. -/
inductive Vsnprintf where
  | writes
  | fails (written : List UInt8)

/-- A format and its arguments: `strlen` of the format, and the text, whose length is an `int`. -/
structure Format where
  strlen : ℕ
  text : List UInt8
  length_lt : text.length < 2 ^ 31

/-- `vsnprintf` into a buffer of `cap` bytes: what is returned, nothing for a negative number, and
the buffer. -/
def vsnprintf (message : ℕ → UInt8) (cap : ℕ) (text : List UInt8) : Vsnprintf → Option ℕ × (ℕ → UInt8)
  | .writes => (some text.length, if cap = 0 then message else write message (text.take (cap - 1) ++ [0]))
  | .fails written => (none, write message (written.take cap))

/-- `state_size - offsetof(State, message)`. -/
def State.cap (state : State) : ℕ :=
  (state.stateSize + two64 - offsetofMessage) % two64

/-- `error_data()`. -/
def State.text (state : State) : List UInt8 :=
  (List.range state.size).map state.message

/-- `ok()`. -/
def ok (st : Option State) : Bool := st.isNone

/-- `error_code()`. -/
def errorCode : Option State → ℤ
  | none => 0
  | some state => state.code

/-- New memory of this size; the rest of it is not set yet. -/
def newState (stSize : ℕ) (m : Malloc) : Option State :=
  m.map fun bytes => ⟨0, 0, stSize % two32, bytes⟩

/-- `set_error` with a `StringPiece`: the status afterwards, and what is returned. -/
def setError (st : Option State) (c : ℤ) (errorMsg : List UInt8) (m : Malloc) : Option State × ℤ :=
  if c = 0 then (none, 0)
  else
    let stSize := statusSize errorMsg.length
    let state := match st with
      | some state => if state.stateSize < stSize then newState stSize m else some state
      | none => newState stSize m
    match state with
    | none => (st, -1)
    | some state =>
      (some ⟨c, errorMsg.length % two32, state.stateSize, write state.message (errorMsg ++ [0])⟩, 0)

/-- The second attempt of `set_errorv`, in memory for `bytesUsed` bytes; `left` is the status when
it fails. -/
def secondAttempt (left : Option State) (c : ℤ) (bytesUsed : ℕ) (text : List UInt8) (m : Malloc)
    (v : Vsnprintf) :
    Option State × ℤ :=
  match m with
  | none => (left, -1)
  | some bytes =>
    let printed := vsnprintf bytes (bytesUsed + 1) text v
    if printed.1 ≠ some bytesUsed then (left, -1)
    else (some ⟨c, bytesUsed, statusSize bytesUsed % two32, printed.2⟩, 0)

/-- `set_errorv` from the first `vsnprintf` on, into the memory of `state`, which is that of the
status if there is such memory. -/
def firstAttempt (st : Option State) (state : State) (c : ℤ) (fmt : Format) (m' : Malloc)
    (v v' : Vsnprintf) :
    Option State × ℤ :=
  let printed := vsnprintf state.message state.cap fmt.text v
  -- new memory is freed when it does not become that of the status
  let left := st.map fun old => { old with message := printed.2 }
  match printed.1 with
  | none => (left, -1)
  | some bytesUsed =>
    if bytesUsed < state.cap then (some ⟨c, bytesUsed, state.stateSize, printed.2⟩, 0)
    else secondAttempt left c bytesUsed fmt.text m' v'

/-- `set_errorv`, and `set_error` with a format; `m` and `v` are for the first attempt, `m'` and
`v'` for the second one. -/
def setErrorv (st : Option State) (c : ℤ) (fmt : Format) (m m' : Malloc) (v v' : Vsnprintf) :
    Option State × ℤ :=
  if c = 0 then (none, 0)
  else
    match st with
    | some state => firstAttempt st state c fmt m' v v'
    | none =>
      match newState (statusSize (max (fmt.strlen * 2) 32)) m with
      | none => (none, -1)
      | some state => firstAttempt st state c fmt m' v v'

/-- `copy_state`. -/
def copyState (s : State) (m : Malloc) : Option State :=
  m.map fun bytes => ⟨s.code, s.size, statusSize s.size % two32, write bytes (s.text ++ [0])⟩

/-! ## Any number of objects -/

/-- The objects. What is kept besides: the code and the message of the last successful update of
each, if it was not one to OK. -/
structure Objects (ι : Type*) where
  status : ι → Option State
  last : ι → Option (ℤ × List UInt8)

/-- One call; `copy` makes the object `i` anew. -/
inductive Act (ι : Type*) where
  | setError (i : ι) (c : ℤ) (errorMsg : List UInt8) (m : Malloc)
  | setErrorv (i : ι) (c : ℤ) (fmt : Format) (m m' : Malloc) (v v' : Vsnprintf)
  | reset (i : ι)
  | copy (i s : ι) (m : Malloc)
  | assign (i s : ι) (m : Malloc)
  | swap (i other : ι)

variable {ι : Type*} [DecidableEq ι]

/-- The call on the objects, and what it returns: -1 as well when a copy or an assignment does not
get its memory. -/
def exec (s : ι → Option State) : Act ι → (ι → Option State) × ℤ
  | .setError i c errorMsg m =>
    let r := setError (s i) c errorMsg m
    (update s i r.1, r.2)
  | .setErrorv i c fmt m m' v v' =>
    let r := setErrorv (s i) c fmt m m' v v'
    (update s i r.1, r.2)
  | .reset i => (update s i none, 0)
  | .copy i j m =>
    match s j with
    | none => (update s i none, 0)
    | some state => (update s i (copyState state m), if m.isSome then 0 else -1)
  | .assign i j m =>
    -- only an object itself has the same memory
    if i = j ∨ (s i).isNone ∧ (s j).isNone then (s, 0)
    else
      match s j with
      | none => (update s i none, 0)
      | some state =>
        let r := setError (s i) state.code state.text m
        (update s i r.1, r.2)
  | .swap i j => (s ∘ Equiv.swap i j, 0)

/-- A status with this code. -/
def coded (c : ℤ) (text : List UInt8) : Option (ℤ × List UInt8) :=
  if c = 0 then none else some (c, text)

/-- The updates after a successful call. -/
def Act.succeed (last : ι → Option (ℤ × List UInt8)) : Act ι → ι → Option (ℤ × List UInt8)
  | .setError i c errorMsg _ => update last i (coded c errorMsg)
  | .setErrorv i c fmt _ _ _ _ => update last i (coded c fmt.text)
  | .reset i => update last i none
  | .copy i j _ => update last i (last j)
  | .assign i j _ => update last i (last j)
  | .swap i j => last ∘ Equiv.swap i j

/-- The updates after another call: a new object has had none. -/
def Act.fail (last : ι → Option (ℤ × List UInt8)) : Act ι → ι → Option (ℤ × List UInt8)
  | .copy i _ _ => update last i none
  | _ => last

def step (s : Objects ι) (act : Act ι) : Objects ι where
  status := (exec s.status act).1
  last := if (exec s.status act).2 = 0 then act.succeed s.last else act.fail s.last

/-- The objects as they are constructed. -/
def start (ι : Type*) : Objects ι where
  status _ := none
  last _ := none

/-! ## What holds -/

structure Holds (state : State) (c : ℤ) (text : List UInt8) : Prop where
  code : state.code = c
  size : state.size = text.length
  text : state.text = text
  nul : state.message state.size = 0
  room : offsetofMessage + state.size < state.stateSize

/-- The status is that of the last successful update, and `ok()` is right. -/
structure Exact (st : Option State) (last : Option (ℤ × List UInt8)) : Prop where
  none_iff : st = none ↔ last = none
  holds : ∀ state ∈ st, ∀ u ∈ last, Holds state u.1 u.2
  ok_iff : ok st = true ↔ errorCode st = 0

/-- Code and message, as callers see them. -/
def shown (st : Option State) : Option (ℤ × List UInt8) :=
  st.map fun state => (state.code, state.text)

/-- The object that the call makes anew. -/
def Act.makes : Act ι → Option ι
  | .copy i _ _ => some i
  | _ => none

/-- **Failing updates change nothing** in the run. -/
structure ChangesNothing (acts : List (Act ι)) : Prop where
  exact : ∀ initial, initial <+: acts → ∀ i,
    Exact ((runFrom step (start ι) initial).status i) ((runFrom step (start ι) initial).last i)
  refused : ∀ initial act, initial ++ [act] <+: acts →
    (exec (runFrom step (start ι) initial).status act).2 = -1 →
    ∀ i, act.makes ≠ some i →
      shown ((exec (runFrom step (start ι) initial).status act).1 i)
        = shown ((runFrom step (start ι) initial).status i)

/-- What is written leaves the message and its end as they are. -/
def State.Keeps (state : State) (bytes : List UInt8) : Prop :=
  ∀ k ≤ state.size, write state.message bytes k = state.message k

/-- What `set_errorv` must heed. An object without memory: the room that is guessed is not counted
as less than what is in front of a message. One with memory: the text fits, or is written to new
memory, or what was written to the old one is what was there. -/
def ErrorvHeeds (st : Option State) (fmt : Format) (m m' : Malloc) (v v' : Vsnprintf) : Prop :=
  match st, v with
  | none, .writes => m.isSome → offsetofMessage ≤ statusSize (max (fmt.strlen * 2) 32) % two32
  | none, .fails _ => True
  | some state, .writes =>
    fmt.text.length < state.cap ∨ (m'.isSome ∧ v' = .writes) ∨
      state.Keeps (fmt.text.take (state.cap - 1) ++ [0])
  | some state, .fails written => state.Keeps (written.take state.cap)

/-- What a call must heed: the memory of a text that is passed has a size of 32 bits, if there is
such memory, and what `set_errorv` must heed. -/
def Heeds (s : Objects ι) : Act ι → Prop
  | .setError _ c errorMsg m => c ≠ 0 → m.isSome → statusSize errorMsg.length < two32
  | .setErrorv i c fmt m m' v v' => c ≠ 0 → ErrorvHeeds (s.status i) fmt m m' v v'
  | _ => True

/-! ## Sizes -/

variable {state : State} {st : Option State} {last : Option (ℤ × List UInt8)} {text : List UInt8}
  {c : ℤ} {message : ℕ → UInt8} {n : ℕ} {act : Act ι} {i : ι} {k stSize : ℕ}
  {l : ι → Option (ℤ × List UInt8)} {s : ι → Option State}

theorem lt_statusSize (n : ℕ) : offsetofMessage + n < statusSize n := by
  unfold statusSize
  lia

theorem dvd_statusSize (n : ℕ) : 4 ∣ statusSize n :=
  Nat.dvd_mul_left 4 _

theorem statusSize_le (hn : offsetofMessage + n < k) (hk : 4 ∣ k) : statusSize n ≤ k := by
  unfold statusSize
  lia

/-- `state_size` is a multiple of `sizeof(int)` and has 32 bits. -/
def Sized (st : Option State) : Prop :=
  ∀ state ∈ st, 4 ∣ state.stateSize ∧ state.stateSize < two32

theorem sized_none : Sized none := nofun

theorem sized_mod (h : 4 ∣ stSize) :
    Sized (some ⟨c, n, stSize % two32, message⟩) := by
  rintro _ ⟨⟩
  exact ⟨(Nat.dvd_mod_iff (by decide)).2 h, Nat.mod_lt _ (by decide)⟩

theorem Sized.keep (h : Sized (some state)) :
    Sized (some ⟨c, n, state.stateSize, message⟩) := by
  rintro _ ⟨⟩
  exact h state rfl

theorem sized_newState {m : Malloc} (hdvd : 4 ∣ stSize) (hnew : newState stSize m = some state) :
    Sized (some state) ∧ state.stateSize = stSize % two32 := by
  obtain ⟨bytes, -, rfl⟩ := Option.map_eq_some_iff.1 hnew
  exact ⟨sized_mod hdvd, rfl⟩

/-! ## Texts -/

theorem write_of_lt (hk : k < text.length) : write message text k = text[k] := by
  rw [write, getD_eq_getElem _ _ hk]

theorem holds_write {stateSize : ℕ} (c : ℤ) (message : ℕ → UInt8)
    (hroom : offsetofMessage + text.length < stateSize) :
    Holds ⟨c, text.length, stateSize, write message (text ++ [0])⟩ c text where
  code := rfl
  size := rfl
  text := by
    apply ext_getElem
    · rw [State.text, length_map, length_range]
    · intro k _ hk
      have hlt : k < (text ++ [0]).length := by
        rw [length_append]
        lia
      simp only [State.text, getElem_map, getElem_range]
      rw [write_of_lt hlt, getElem_append_left hk]
  nul := by
    have hlt : text.length < (text ++ [(0 : UInt8)]).length := by
      rw [length_append]
      exact Nat.lt_add_one _
    show write message (text ++ [0]) text.length = 0
    rw [write_of_lt hlt, getElem_concat_length rfl]
  room := hroom

/-- A status is the one that was written to, as callers see it, just when that was kept. -/
theorem holds_iff_keeps {bytes : List UInt8} (h : Holds state c text) :
    Holds { state with message := write state.message bytes } c text ↔ state.Keeps bytes := by
  constructor
  · intro hw k hk
    rcases Nat.lt_or_eq_of_le hk with hlt | rfl
    · have heq : { state with message := write state.message bytes : State }.text = state.text :=
        hw.text.trans h.text.symm
      have hmap := map_inj_left.1 heq k (mem_range.2 hlt)
      exact hmap
    · exact hw.nul.trans h.nul.symm
  · intro hkeeps
    refine ⟨h.code, h.size, ?_, ?_, h.room⟩
    · rw [← h.text]
      exact map_congr_left fun k hk => hkeeps k (mem_range.1 hk).le
    · exact (hkeeps _ le_rfl).trans h.nul

/-! ## One status -/

theorem exact_none : Exact none none :=
  ⟨⟨fun _ => rfl, fun _ => rfl⟩, nofun, ⟨fun _ => rfl, fun _ => rfl⟩⟩

theorem exact_some_iff (hc : c ≠ 0) : Exact (some state) (some (c, text)) ↔ Holds state c text := by
  constructor
  · intro h
    exact h.holds state rfl (c, text) rfl
  · intro h
    refine ⟨⟨nofun, nofun⟩, ?_, ?_⟩
    · rintro _ ⟨⟩ _ ⟨⟩
      exact h
    · refine ⟨nofun, fun hzero => absurd (h.code.symm.trans hzero) hc⟩

theorem Exact.some (h : Exact (some state) last) :
    last = Option.some (state.code, state.text) ∧ state.code ≠ 0 ∧ Holds state state.code state.text := by
  cases last with
  | none => exact absurd (h.none_iff.2 rfl) nofun
  | some u =>
    have hu := h.holds state rfl u rfl
    have hcode : state.code ≠ 0 := fun hzero => absurd (h.ok_iff.2 hzero) nofun
    rw [hu.code, hu.text]
    exact ⟨rfl, hu.code ▸ hcode, hu⟩

theorem coded_ne (hc : c ≠ 0) : coded c text = Option.some (c, text) :=
  if_neg hc

theorem holds_mod_iff (c : ℤ) (message : ℕ → UInt8) (text : List UInt8) :
    Holds ⟨c, text.length % two32, statusSize text.length % two32, write message (text ++ [0])⟩ c text ↔
      statusSize text.length < two32 := by
  have hlt := lt_statusSize text.length
  constructor
  · intro h
    have hsize : text.length % two32 = text.length := h.size
    have hroom : offsetofMessage + text.length % two32 < statusSize text.length % two32 := h.room
    by_contra hge
    have hsmall : statusSize text.length ≤ offsetofMessage + text.length + 4 := by
      unfold statusSize
      lia
    unfold offsetofMessage two32 at *
    lia
  · intro hfits
    rw [Nat.mod_eq_of_lt hfits, Nat.mod_eq_of_lt (by lia)]
    exact holds_write c message hlt

/-! ## `set_error` and `set_errorv` -/

theorem setError_exact_iff (h : Exact st last) (hs : Sized st) (c : ℤ) (text : List UInt8) (m : Malloc) :
    Exact (setError st c text m).1 (if (setError st c text m).2 = 0 then coded c text else last) ↔
      (c ≠ 0 → m.isSome → statusSize text.length < two32) := by
  obtain rfl | hc := eq_or_ne c 0
  · exact ⟨fun _ hne => absurd rfl hne, fun _ => exact_none⟩
  have hnew : ∀ bytes,
      Exact
      (some ⟨c, text.length % two32, statusSize text.length % two32, write bytes (text ++ [0])⟩)
      (coded c text) ↔ statusSize text.length < two32 := by
    intro bytes
    rw [coded_ne hc, exact_some_iff hc]
    exact holds_mod_iff c bytes text
  have hiff : (c ≠ 0 → m.isSome → statusSize text.length < two32) ↔
      (m.isSome → statusSize text.length < two32) :=
    ⟨fun hall => hall hc, fun hall _ => hall⟩
  rw [hiff, setError, if_neg hc]
  cases st with
  | none =>
    cases m with
    | none => exact ⟨fun _ => nofun, fun _ => h⟩
    | some bytes => exact (hnew bytes).trans ⟨fun hfits _ => hfits, fun hfits => hfits rfl⟩
  | some state =>
    by_cases hroom : state.stateSize < statusSize text.length
    · simp only [if_pos hroom]
      cases m with
      | none => exact ⟨fun _ => nofun, fun _ => h⟩
      | some bytes => exact (hnew bytes).trans ⟨fun hfits _ => hfits, fun hfits => hfits rfl⟩
    · -- the memory that is there is used again
      simp only [if_neg hroom]
      have hlt := lt_statusSize text.length
      have hsize := (hs state rfl).2
      have hmod : text.length % two32 = text.length := Nat.mod_eq_of_lt (by lia)
      rw [if_true, coded_ne hc, exact_some_iff hc, hmod]
      exact ⟨fun _ _ => by lia, fun _ => holds_write c _ (by lia)⟩

theorem secondAttempt_exact_iff (hc : c ≠ 0) (hlen : text.length < 2 ^ 31) (left : Option State)
    (m : Malloc)
    (v : Vsnprintf) :
    Exact (secondAttempt left c text.length text m v).1
        (if (secondAttempt left c text.length text m v).2 = 0 then coded c text else last) ↔
      (m.isSome ∧ v = .writes) ∨ Exact left last := by
  cases m with
  | none => exact ⟨.inr, fun hor => hor.resolve_left fun hand => nomatch hand.1⟩
  | some bytes =>
    cases v with
    | fails written =>
      show Exact left last ↔ _
      exact ⟨.inr, fun hor => hor.resolve_left fun hand => nomatch hand.2⟩
    | writes =>
      have hlt := lt_statusSize text.length
      have hfits : statusSize text.length < two32 := by
        unfold statusSize offsetofMessage two32
        lia
      simp only [secondAttempt, vsnprintf, ne_eq, not_true_eq_false, if_false,
        if_neg (Nat.succ_ne_zero _),
        Nat.add_sub_cancel, take_length, if_true]
      rw [coded_ne hc, exact_some_iff hc, Nat.mod_eq_of_lt hfits]
      exact ⟨fun _ => .inl ⟨rfl, trivial⟩, fun _ => holds_write c bytes hlt⟩

theorem State.cap_eq (hroom : offsetofMessage ≤ state.stateSize) (hlt : state.stateSize < two32) :
    state.cap = state.stateSize - offsetofMessage := by
  have hsplit : state.stateSize + two64 - offsetofMessage = state.stateSize - offsetofMessage
      + two64 := by lia
  rw [State.cap, hsplit, Nat.add_mod_right, Nat.mod_eq_of_lt]
  unfold two32 two64 at *
  lia

/-- When there is no room for that, the difference is counted as a large number. -/
theorem State.lt_cap (hroom : state.stateSize < offsetofMessage) (hn : n < 2 ^ 31) : n < state.cap := by
  unfold State.cap offsetofMessage two64 at *
  rw [Nat.mod_eq_of_lt (by lia)]
  lia

theorem vsnprintf_writes {cap : ℕ} (hlt : text.length < cap) :
    vsnprintf message cap text .writes = (some text.length, write message (text ++ [0])) := by
  rw [vsnprintf, if_neg (by lia), take_of_length_le (by lia)]

theorem firstAttempt_writes_iff (hc : c ≠ 0) (st : Option State) (state : State) (fmt : Format)
    (m' : Malloc)
    (v' : Vsnprintf) :
    Exact (firstAttempt st state c fmt m' .writes v').1
        (if (firstAttempt st state c fmt m' .writes v').2 = 0 then coded c fmt.text else last) ↔
      if fmt.text.length < state.cap then offsetofMessage + fmt.text.length < state.stateSize
      else (m'.isSome ∧ v' = .writes) ∨ Exact (st.map fun old =>
          { old with message := (vsnprintf state.message state.cap fmt.text .writes).2 }) last := by
  by_cases hlt : fmt.text.length < state.cap
  · simp only [firstAttempt, vsnprintf_writes hlt, if_pos hlt, if_true]
    rw [coded_ne hc, exact_some_iff hc]
    exact ⟨fun h => h.room, holds_write c state.message⟩
  · rw [if_neg hlt, firstAttempt]
    simp only [vsnprintf, if_neg hlt]
    exact secondAttempt_exact_iff hc fmt.length_lt _ m' v'

theorem setErrorv_none_iff (h : Exact none last) (hc : c ≠ 0) (fmt : Format) (m m' : Malloc)
    (v v' : Vsnprintf) :
    Exact (setErrorv none c fmt m m' v v').1
    (if (setErrorv none c fmt m m' v v').2 = 0 then coded c fmt.text else last) ↔
      ErrorvHeeds none fmt m m' v v' := by
  rw [setErrorv, if_neg hc]
  cases hnew : newState (statusSize (max (fmt.strlen * 2) 32)) m with
  | none =>
    have hm : m = none := Option.map_eq_none_iff.1 hnew
    refine ⟨fun _ => ?_, fun _ => h⟩
    subst hm
    cases v with
    | writes => exact nofun
    | fails written => trivial
  | some state =>
    obtain ⟨hsized, hsize⟩ := sized_newState (dvd_statusSize _) hnew
    have hm : m.isSome := by
      obtain ⟨bytes, rfl, -⟩ := Option.map_eq_some_iff.1 hnew
      rfl
    cases v with
    | fails written => exact ⟨fun _ => trivial, fun _ => h⟩
    | writes =>
      have hheeds : ErrorvHeeds none fmt m m' .writes v' ↔ offsetofMessage ≤ state.stateSize := by
        rw [hsize]
        exact ⟨fun hall => hall hm, fun hle _ => hle⟩
      refine (firstAttempt_writes_iff hc none state fmt m' v').trans (Iff.trans ?_ hheeds.symm)
      by_cases hroom : offsetofMessage ≤ state.stateSize
      · have hcap := State.cap_eq hroom (hsized state rfl).2
        split
        · exact ⟨fun _ => hroom, fun _ => by lia⟩
        · exact ⟨fun _ => hroom, fun _ => .inr h⟩
      · have hlt := State.lt_cap (not_le.1 hroom) fmt.length_lt
        rw [if_pos hlt]
        exact ⟨fun hle => by lia, fun hle => absurd hle hroom⟩

theorem setErrorv_some_iff (h : Exact (some state) last) (hs : Sized (some state)) (hc : c ≠ 0)
    (fmt : Format)
    (m m' : Malloc) (v v' : Vsnprintf) :
    Exact (setErrorv (some state) c fmt m m' v v').1
        (if (setErrorv (some state) c fmt m m' v v').2 = 0 then coded c fmt.text else last) ↔
      ErrorvHeeds (some state) fmt m m' v v' := by
  obtain ⟨hlast, hcode, hholds⟩ := h.some
  have hcap := State.cap_eq (le_of_lt (lt_of_le_of_lt (Nat.le_add_right _ _) hholds.room))
    (hs state rfl).2
  have hkeeps : ∀ bytes, Exact (some { state with message := write state.message bytes }) last ↔
      state.Keeps bytes := by
    intro bytes
    rw [hlast, exact_some_iff hcode]
    exact holds_iff_keeps hholds
  rw [setErrorv, if_neg hc]
  cases v with
  | fails written =>
    have hfails : firstAttempt (some state) state c fmt m' (.fails written) v' =
        (some { state with message := write state.message (written.take state.cap) }, -1) := by
      simp only [firstAttempt, vsnprintf, Option.map_some]
    rw [hfails]
    exact hkeeps (written.take state.cap)
  | writes =>
    have hpos : state.cap ≠ 0 := by
      have hroom := hholds.room
      lia
    refine (firstAttempt_writes_iff hc _ state fmt m' v').trans ?_
    rw [vsnprintf, if_neg hpos, Option.map_some, hkeeps, ErrorvHeeds]
    split
    case isTrue hlt => exact ⟨fun _ => .inl hlt, fun _ => by lia⟩
    case isFalse hge => exact ⟨.inr, fun hor => hor.resolve_left hge⟩

/-- `set_errorv` leaves an exact status just when it heeds its condition. -/
theorem setErrorv_exact_iff (h : Exact st last) (hs : Sized st) (c : ℤ) (fmt : Format) (m m' : Malloc)
    (v v' : Vsnprintf) :
    Exact (setErrorv st c fmt m m' v v').1
    (if (setErrorv st c fmt m m' v v').2 = 0 then coded c fmt.text else last) ↔
      (c ≠ 0 → ErrorvHeeds st fmt m m' v v') := by
  obtain rfl | hc := eq_or_ne c 0
  · exact ⟨fun _ hne => absurd rfl hne, fun _ => exact_none⟩
  · have hiff : Exact (setErrorv st c fmt m m' v v').1
        (if (setErrorv st c fmt m m' v v').2 = 0 then coded c fmt.text else last) ↔
          ErrorvHeeds st fmt m m' v v' := by
      cases st with
      | none => exact setErrorv_none_iff h hc fmt m m' v v'
      | some state => exact setErrorv_some_iff h hs hc fmt m m' v v'
    exact hiff.trans ⟨fun hall _ => hall, fun hall => hall hc⟩

/-! ## Copies -/

theorem statusSize_text_lt (h : Exact (some state) last) (hs : Sized (some state)) :
    statusSize state.text.length < two32 := by
  obtain ⟨-, -, hholds⟩ := h.some
  obtain ⟨hdvd, hlt⟩ := hs state rfl
  have hroom := hholds.room
  rw [hholds.size] at hroom
  exact (statusSize_le hroom hdvd).trans_lt hlt

theorem exact_copyState (h : Exact (some state) last) (hs : Sized (some state)) (bytes : ℕ → UInt8) :
    Exact (copyState state (some bytes)) last := by
  have hfits := statusSize_text_lt h hs
  obtain ⟨hlast, hcode, hholds⟩ := h.some
  rw [hlast, copyState, Option.map_some, exact_some_iff hcode, hholds.size, Nat.mod_eq_of_lt hfits]
  exact holds_write state.code bytes (lt_statusSize _)

/-- An assignment is a `set_error` that keeps what has to be kept. -/
theorem exact_assign {dest : Option State} {destLast : Option (ℤ × List UInt8)}
    (hdest : Exact dest destLast)
    (hsized : Sized dest) (h : Exact (some state) last) (hs : Sized (some state)) (m : Malloc) :
    Exact (setError dest state.code state.text m).1
      (if (setError dest state.code state.text m).2 = 0 then last else destLast) := by
  obtain ⟨hlast, hcode, -⟩ := h.some
  have hset := (setError_exact_iff hdest hsized state.code state.text m).2 fun _ _ =>
    statusSize_text_lt h hs
  rw [coded_ne hcode, ← hlast] at hset
  exact hset

theorem Sized.setError (hs : Sized st) (c : ℤ) (text : List UInt8) (m : Malloc) :
    Sized (setError st c text m).1 := by
  have hnew : ∀ state, newState (statusSize text.length) m = some state → Sized (some state) :=
    fun state h => (sized_newState (dvd_statusSize _) h).1
  rw [Status.setError]
  split
  · exact sized_none
  cases st with
  | none =>
    cases hn : newState (statusSize text.length) m with
    | none => simpa only [hn] using sized_none
    | some state => simpa only [hn] using (hnew state hn).keep
  | some old =>
    by_cases hroom : old.stateSize < statusSize text.length
    · simp only [if_pos hroom]
      cases hn : newState (statusSize text.length) m with
      | none => exact hs
      | some state => exact (hnew state hn).keep
    · simp only [if_neg hroom]
      exact hs.keep

theorem Sized.firstAttempt (hs : Sized st) (hstate : Sized (some state)) (c : ℤ) (fmt : Format)
    (m' : Malloc)
    (v v' : Vsnprintf) : Sized (firstAttempt st state c fmt m' v v').1 := by
  have hleft : ∀ message, Sized (st.map fun old => { old with message := message }) := by
    intro message
    cases st with
    | none => exact sized_none
    | some old => exact hs.keep
  rw [Status.firstAttempt]
  split
  · exact hleft _
  split
  · exact hstate.keep
  unfold secondAttempt
  split
  · exact hleft _
  simp only
  split
  · exact hleft _
  · exact sized_mod (dvd_statusSize _)

theorem Sized.setErrorv (hs : Sized st) (c : ℤ) (fmt : Format) (m m' : Malloc) (v v' : Vsnprintf) :
    Sized (setErrorv st c fmt m m' v v').1 := by
  unfold Status.setErrorv
  split
  · exact sized_none
  split
  · exact hs.firstAttempt hs c fmt m' v v'
  split
  · exact sized_none
  next state hnew =>
    exact sized_none.firstAttempt (sized_newState (dvd_statusSize _) hnew).1 c fmt m' v v'

/-! ## One call -/

theorem sized_exec (h : ∀ i, Sized (s i)) (act : Act ι) (j : ι) : Sized ((exec s act).1 j) := by
  have hupdate : ∀ i st, Sized st → Sized (update s i st j) := by
    intro i st hst
    rw [update_apply]
    split
    · exact hst
    · exact h j
  cases act with
  | setError i c errorMsg m => exact hupdate i _ ((h i).setError c errorMsg m)
  | setErrorv i c fmt m m' v v' => exact hupdate i _ ((h i).setErrorv c fmt m m' v v')
  | reset i => exact hupdate i _ sized_none
  | copy i k m =>
    rw [exec]
    split
    · exact hupdate i _ sized_none
    · apply hupdate i
      cases m with
      | none => exact sized_none
      | some bytes => exact sized_mod (dvd_statusSize _)
  | assign i k m =>
    rw [exec]
    split
    · exact h j
    split
    · exact hupdate i _ sized_none
    · exact hupdate i _ ((h i).setError _ _ m)
  | swap i k => exact h _

/-- Every object is that of its last successful update. -/
def AllExact (s : Objects ι) : Prop :=
  ∀ i, Exact (s.status i) (s.last i)

theorem exact_update_iff (h : ∀ i, Exact (s i) (l i)) (i : ι)
    (st : Option State) (last : Option (ℤ × List UInt8)) :
    (∀ j, Exact (update s i st j) (update l i last j)) ↔ Exact st last := by
  constructor
  · intro hall
    have hi := hall i
    rwa [update_self, update_self] at hi
  · intro hi j
    obtain rfl | hj := eq_or_ne j i
    · rw [update_self, update_self]
      exact hi
    · rw [update_of_ne hj, update_of_ne hj]
      exact h j

theorem allExact_step_iff {s : Objects ι} (h : AllExact s) {r : Option State × ℤ}
    {u : Option (ℤ × List UInt8)} (hexec : exec s.status act = (update s.status i r.1, r.2))
    (hsucceed : act.succeed s.last = update s.last i u) (hfail : act.fail s.last = s.last) :
    AllExact (step s act) ↔ Exact r.1 (if r.2 = 0 then u else s.last i) := by
  rw [← exact_update_iff h i, AllExact, step, hexec, hsucceed, hfail]
  split
  · exact Iff.rfl
  · rw [update_eq_self]

theorem heeds_iff {s : Objects ι} (h : AllExact s) (hs : ∀ i, Sized (s.status i)) (act : Act ι) :
    Heeds s act ↔ AllExact (step s act) := by
  cases act with
  | setError i c errorMsg m =>
    rw [allExact_step_iff h (r := setError (s.status i) c errorMsg m) rfl rfl rfl]
    exact (setError_exact_iff (h i) (hs i) c errorMsg m).symm
  | setErrorv i c fmt m m' v v' =>
    rw [allExact_step_iff h (r := setErrorv (s.status i) c fmt m m' v v') rfl rfl rfl]
    exact (setErrorv_exact_iff (h i) (hs i) c fmt m m' v v').symm
  | reset i => exact ⟨fun _ => (exact_update_iff h i none none).2 exact_none, fun _ => trivial⟩
  | copy i j m =>
    refine ⟨fun _ => ?_, fun _ => trivial⟩
    have hj := h j
    cases hstatus : s.status j with
    | none =>
      rw [hstatus] at hj
      simp only [AllExact, step, exec, hstatus, Act.succeed, if_true]
      exact (exact_update_iff h i _ _).2 hj
    | some state =>
      rw [hstatus] at hj
      cases m with
      | none =>
        simp only [AllExact, step, exec, hstatus, copyState, Act.fail]
        exact (exact_update_iff h i none none).2 exact_none
      | some bytes =>
        simp only [AllExact, step, exec, hstatus, Act.succeed, Option.isSome_some, if_true]
        exact (exact_update_iff h i _ _).2 (exact_copyState hj (hstatus ▸ hs j) bytes)
  | assign i j m =>
    refine ⟨fun _ => ?_, fun _ => trivial⟩
    by_cases hsame : i = j ∨ (s.status i).isNone ∧ (s.status j).isNone
    · have hlast : s.last j = s.last i := by
        rcases hsame with rfl | ⟨hi, hj⟩
        · rfl
        · rw [(h i).none_iff.1 (Option.isNone_iff_eq_none.1 hi),
            (h j).none_iff.1 (Option.isNone_iff_eq_none.1 hj)]
      simp only [AllExact, step, exec, if_pos hsame, Act.succeed, if_true, hlast, update_eq_self]
      exact h
    · have hj := h j
      cases hstatus : s.status j with
      | none =>
        rw [hstatus] at hj hsame
        simp only [AllExact, step, exec, hstatus, if_neg hsame, Act.succeed, if_true]
        exact (exact_update_iff h i _ _).2 hj
      | some state =>
        have hexec : exec s.status (.assign i j m)
            = (update s.status i (setError (s.status i) state.code state.text m).1,
            (setError (s.status i) state.code state.text m).2) := by
          rw [exec, if_neg hsame]
          simp only [hstatus]
        rw [hstatus] at hj
        rw [allExact_step_iff h hexec rfl rfl]
        exact exact_assign (h i) (hs i) hj (hstatus ▸ hs j) m
  | swap i j => exact ⟨fun _ k => h (Equiv.swap i j k), fun _ => trivial⟩

/-! ## Runs -/

theorem shown_eq (h : Exact st last) : shown st = last := by
  cases st with
  | none => exact (h.none_iff.1 rfl).symm
  | some state => exact h.some.1.symm

theorem sized_run (acts : List (Act ι)) (i : ι) : Sized ((runFrom step (start ι) acts).status i) := by
  have hkeeps : Keeps step fun s : Objects ι => ∀ i, Sized (s.status i) := fun _ act h => sized_exec h act
  exact hkeeps.run (fun _ => sized_none) acts i

/-- Only an object that is made anew has other updates after a call that fails. -/
theorem fail_of_ne (hi : act.makes ≠ some i) : act.fail l i = l i := by
  cases act with
  | copy j k m =>
    have hij : i ≠ j := fun heq => hi (congrArg some heq.symm)
    exact update_of_ne hij ..
  | _ => rfl

/-- **A failing update changes nothing** in any run, over any number of objects and whatever fails,
just when every call of the run heeds its condition. -/
theorem run_changesNothing_iff (acts : List (Act ι)) : ChangesNothing acts ↔
    Along step Heeds (start ι) acts := by
  have hstep : ∀ (s : Objects ι) act, (AllExact s ∧ ∀ i, Sized (s.status i)) →
      (Heeds s act ↔ AllExact (step s act) ∧ ∀ i, Sized ((step s act).status i)) := by
    intro s act h
    rw [heeds_iff h.1 h.2 act]
    exact (and_iff_left (sized_exec h.2 act)).symm
  have hrun : Along step Heeds (start ι) acts ↔
      ∀ bs, bs <+: acts → AllExact (runFrom step (start ι) bs) ∧ ∀ i,
        Sized ((runFrom step (start ι) bs).status i) :=
    along_iff_forall_prefix hstep ⟨fun _ => exact_none, fun _ => sized_none⟩ acts
  rw [hrun]
  constructor
  · intro h bs hbs
    exact ⟨h.exact bs hbs, sized_run bs⟩
  · intro h
    refine ⟨fun initial hinitial => (h initial hinitial).1, ?_⟩
    intro initial act hprefix hrefused i hi
    have hbefore := (h initial ((prefix_append ..).trans hprefix)).1 i
    have hafter := (h _ hprefix).1 i
    rw [runFrom_append, runFrom_cons, runFrom_nil] at hafter
    have hlast : (step (runFrom step (start ι) initial) act).last i
        = (runFrom step (start ι) initial).last i := by
      have hfail : (step (runFrom step (start ι) initial) act).last
          = act.fail (runFrom step (start ι) initial).last := by
        rw [step, hrefused, if_neg (by decide)]
      rw [hfail, fail_of_ne hi]
    rw [hlast] at hafter
    exact (shown_eq hafter).trans (shown_eq hbefore).symm

/-- `ab` becomes `wx`, as there is no memory for the text `wxyz` of another update, which fails. -/
theorem overwritten_message : ¬∀ acts : List (Act Unit), ChangesNothing acts := by
  intro h
  have hrefused := (h [.setError () 1 [97, 98] (some fun _ => 0),
    .setErrorv () 2 ⟨2, [119, 120, 121, 122], by decide⟩ none none .writes .writes]).refused
    [.setError () 1 [97, 98] (some fun _ => 0)] _ (prefix_refl _) (by decide) () nofun
  exact absurd hrefused (by decide)

end Eabase.Utility.Status
