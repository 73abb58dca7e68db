import Eabase.Lib.Split

/-!
# StringSplitter

Two pointers walk over the bytes, which stop at a NUL or at an end that is given.
`StringSplitter` and `StringMultiSplitter` differ in what a separator is, so the
walk is one definition. The fields that it visits are the split of the input.
-/

namespace Eabase.Utility.StringSplitter

open Lib List

/-! ## The code -/

/-- A pointer: the bytes from there on, with a NUL behind them. -/
abbrev Ptr := List UInt8

/-- `*p`. -/
def deref (p : Ptr) : UInt8 := p.headD 0

inductive EmptyFieldAction where
  | SKIP_EMPTY_FIELD
  | ALLOW_EMPTY_FIELD
  deriving DecidableEq

/-- A `StringSplitter` or a `StringMultiSplitter`; `none` is `NULL`. -/
structure Splitter where
  head : Option Ptr
  tail : Option Ptr
  strTail : Option Ptr
  isSep : UInt8 → Bool
  emptyFieldAction : EmptyFieldAction

namespace Splitter

def notEnd (s : Splitter) (p : Ptr) : Bool :=
  match s.strTail with
  | none => deref p != 0
  | some strTail => p != strTail

/-- `for (; q(*p) && not_end(p); ++p) {}`. -/
def walk (s : Splitter) (q : UInt8 → Bool) : Ptr → Ptr
  | [] => []
  | c :: p => if q c && s.notEnd (c :: p) then s.walk q p else c :: p

/-- The separators that are skipped before a field. -/
def skip (s : Splitter) (p : Ptr) : Ptr :=
  if s.emptyFieldAction = .SKIP_EMPTY_FIELD then s.walk s.isSep p else p

def init (s : Splitter) : Splitter :=
  match s.head with
  | none => { s with tail := none }
  | some p =>
    { s with
      head := some (s.skip p)
      tail := some (s.walk (fun c => !s.isSep c) (s.skip p)) }

/-- `operator++`. -/
def next (s : Splitter) : Splitter :=
  match s.tail with
  | none => s
  | some p =>
    let p := if s.notEnd p then s.skip p.tail else p
    { s with head := some p, tail := some (s.walk (fun c => !s.isSep c) p) }

/-- `operator const void*`, as a condition. -/
def valid (s : Splitter) : Bool :=
  match s.head with
  | none => false
  | some p => s.notEnd p

def length (s : Splitter) : ℕ :=
  match s.head, s.tail with
  | some head, some tail => head.length - tail.length
  | _, _ => 0

/-- The bytes of `field_sp`. -/
def fieldSp (s : Splitter) : List UInt8 :=
  (s.head.getD []).take s.length

/-- What `for (; s; ++s)` sees in the field in the first `n` rounds. -/
def visited : ℕ → Splitter → List (List UInt8)
  | 0, _ => []
  | n + 1, s => if s.valid then s.fieldSp :: visited n s.next else []

end Splitter

/-- A `StringPiece`. -/
structure Piece where
  data : Option Ptr
  length : ℕ

def Piece.end (p : Piece) : Option Ptr :=
  p.data.map (·.drop p.length)

/-! ### StringSplitter -/

def ofRange (strBegin strEnd : Option Ptr) (separator : UInt8) (action : EmptyFieldAction) : Splitter :=
  Splitter.init ⟨strBegin, none, strEnd, fun c => c == separator, action⟩

def ofStr (str : Option Ptr) (separator : UInt8) (action : EmptyFieldAction) : Splitter :=
  ofRange str none separator action

def ofPiece (input : Piece) (separator : UInt8) (action : EmptyFieldAction) : Splitter :=
  ofRange input.data input.end separator action

/-! ### StringMultiSplitter -/

/-- `is_sep`. -/
def isSep : Ptr → UInt8 → Bool
  | [], _ => false
  | p :: seps, c => if p = 0 then false else if c = p then true else isSep seps c

def multiOfRange (strBegin strEnd : Option Ptr) (separators : Ptr) (action : EmptyFieldAction) :
    Splitter :=
  Splitter.init ⟨strBegin, none, strEnd, isSep separators, action⟩

def multiOfStr (str : Option Ptr) (separators : Ptr) (action : EmptyFieldAction) : Splitter :=
  Splitter.init ⟨str, none, none, isSep separators, action⟩

/-! ### KeyValuePairsSplitter -/

structure KeyValuePairsSplitter where
  sp : Splitter
  delimPos : ℕ
  keyValueDelim : UInt8

def npos : ℕ := 2 ^ 64 - 1

/-- `StringPiece::substr`; no length is `npos`, which is no less than any. -/
def substr (self : List UInt8) (pos : ℕ) (n : Option ℕ) : List UInt8 :=
  let pos := min pos self.length
  let n := min (n.getD (self.length - pos)) (self.length - pos)
  (self.drop pos).take n

namespace KeyValuePairsSplitter

section

variable (kv : KeyValuePairsSplitter)

def keyAndValue : List UInt8 :=
  kv.sp.fieldSp

def updateDelimiterPosition : KeyValuePairsSplitter :=
  match kv.keyAndValue.findIdx? (· == kv.keyValueDelim) with
  | some i => { kv with delimPos := i }
  | none => { kv with delimPos := kv.keyAndValue.length }

def key : List UInt8 :=
  substr kv.keyAndValue 0 (some kv.delimPos)

def value : List UInt8 :=
  substr kv.keyAndValue (kv.delimPos + 1) none

end

/-- `operator++`. -/
def next (kv : KeyValuePairsSplitter) : KeyValuePairsSplitter :=
  { kv with sp := kv.sp.next }.updateDelimiterPosition

def ofRange (strBegin strEnd : Option Ptr) (pairDelimiter keyValueDelimiter : UInt8) :
    KeyValuePairsSplitter :=
  updateDelimiterPosition
    ⟨StringSplitter.ofRange strBegin strEnd pairDelimiter .SKIP_EMPTY_FIELD, npos, keyValueDelimiter⟩

def ofStr (strBegin : Option Ptr) (pairDelimiter keyValueDelimiter : UInt8) : KeyValuePairsSplitter :=
  ofRange strBegin none pairDelimiter keyValueDelimiter

def ofPiece (sp : Piece) (pairDelimiter keyValueDelimiter : UInt8) : KeyValuePairsSplitter :=
  ofRange sp.data sp.end pairDelimiter keyValueDelimiter

/-- The keys and values that `for (; kv; ++kv)` sees in the first `n` rounds. -/
def visited : ℕ → KeyValuePairsSplitter → List (List UInt8 × List UInt8)
  | 0, _ => []
  | n + 1, kv => if kv.sp.valid then (kv.key, kv.value) :: visited n kv.next else []

end KeyValuePairsSplitter

/-! ## The walk -/

namespace Splitter

variable {s : Splitter} {u v rest : Ptr} {c : UInt8}

/-- From `u` in front of `rest`, the end is where `rest` begins. -/
def Ends (s : Splitter) (u rest : Ptr) : Prop :=
  match s.strTail with
  | none => 0 ∉ u ∧ deref rest = 0
  | some strTail => strTail = rest

theorem Ends.suffix (h : s.Ends u rest) (hv : v <:+ u) : s.Ends v rest := by
  unfold Ends at *
  split
  case h_1 hnone =>
    rw [hnone] at h
    exact ⟨fun hmem => h.1 (hv.mem hmem), h.2⟩
  case h_2 strTail hsome =>
    rw [hsome] at h
    exact h

theorem Ends.notEnd_rest (h : s.Ends u rest) : s.notEnd rest = false := by
  unfold Ends at h
  unfold notEnd
  split at h
  case h_1 => rw [h.2]; rfl
  case h_2 => rw [h, bne_self_eq_false]

theorem Ends.notEnd_cons (h : s.Ends (c :: u) rest) : s.notEnd (c :: u ++ rest) = true := by
  unfold Ends at h
  unfold notEnd
  split at h
  case h_1 =>
    have hc : c ≠ 0 := fun hzero => h.1 (hzero ▸ mem_cons_self)
    exact bne_iff_ne.2 hc
  case h_2 =>
    have hlonger : c :: u ++ rest ≠ rest := by
      intro heq
      have hlen := congrArg List.length heq
      rw [length_append, length_cons] at hlen
      lia
    rw [h]
    exact bne_iff_ne.2 hlonger

theorem Ends.notEnd (h : s.Ends u rest) : s.notEnd (u ++ rest) = true ↔ u ≠ [] := by
  cases u with
  | nil =>
    rw [nil_append, h.notEnd_rest]
    exact ⟨nofun, fun hne => absurd rfl hne⟩
  | cons c u => exact ⟨fun _ => cons_ne_nil c u, fun _ => h.notEnd_cons⟩

theorem walk_append (q : UInt8 → Bool) (h : s.Ends u rest) : s.walk q (u ++ rest) = u.dropWhile q ++
    rest := by
  induction u with
  | nil =>
    rw [nil_append]
    cases rest with
    | nil => rfl
    | cons c rest =>
      rw [walk, h.notEnd_rest, Bool.and_false]
      rfl
  | cons c u ih =>
    rw [cons_append, walk, ← cons_append, h.notEnd_cons, Bool.and_true, dropWhile_cons]
    split
    case isTrue => exact ih (h.suffix (suffix_cons c u))
    case isFalse => rfl

/-- What is left of the input when the separators before a field are skipped. -/
def start (s : Splitter) (u : Ptr) : Ptr :=
  if s.emptyFieldAction = .SKIP_EMPTY_FIELD then u.dropWhile s.isSep else u

theorem skip_append (h : s.Ends u rest) : s.skip (u ++ rest) = s.start u ++ rest := by
  unfold skip start
  split
  case isTrue => exact walk_append s.isSep h
  case isFalse => rfl

theorem start_suffix : s.start u <:+ u := by
  unfold start
  split
  case isTrue => exact dropWhile_suffix _
  case isFalse => exact suffix_rfl

/-- The splitter stands at the field that `u` begins with, and `rest` is behind the input. -/
structure At (s : Splitter) (u rest : Ptr) : Prop where
  ends : s.Ends u rest
  skipped : s.start u = u
  head : s.head = some (u ++ rest)
  tail : s.tail = some (u.dropWhile (fun c => !s.isSep c) ++ rest)

theorem start_start : s.start (s.start u) = s.start u := by
  unfold start
  split
  case isTrue => exact dropWhile_idempotent s.isSep u
  case isFalse => rfl

theorem at_init (hhead : s.head = some (u ++ rest)) (h : s.Ends u rest) : s.init.At (s.start u) rest := by
  have hends : s.Ends (s.start u) rest := h.suffix start_suffix
  unfold init
  rw [hhead]
  dsimp only
  rw [skip_append h, walk_append _ hends]
  exact ⟨hends, start_start, rfl, rfl⟩

theorem At.next (h : s.At u rest) :
    s.next.At (s.start (u.dropWhile fun c => !s.isSep c).tail) rest := by
  have hends : s.Ends (u.dropWhile fun c => !s.isSep c) rest := h.ends.suffix (dropWhile_suffix _)
  have hgone : s.Ends (s.start (u.dropWhile fun c => !s.isSep c).tail) rest :=
    hends.suffix (start_suffix.trans (tail_suffix _))
  unfold Splitter.next
  rw [h.tail]
  dsimp only
  have hstep : (if s.notEnd (u.dropWhile (fun c => !s.isSep c) ++ rest) = true
      then s.skip (u.dropWhile (fun c => !s.isSep c) ++ rest).tail
      else u.dropWhile (fun c => !s.isSep c) ++ rest)
        = s.start (u.dropWhile fun c => !s.isSep c).tail ++ rest := by
    cases hdrop : u.dropWhile fun c => !s.isSep c with
    | nil =>
      -- The field was the last one: both pointers stay at the end.
      rw [hdrop] at hends
      rw [nil_append, if_neg (by rw [hends.notEnd_rest]; exact nofun)]
      unfold start
      split <;> rfl
    | cons c v =>
      rw [hdrop] at hends
      rw [if_pos hends.notEnd_cons]
      exact skip_append (hends.suffix (suffix_cons c v))
  rw [hstep, walk_append _ hgone]
  exact ⟨hgone, start_start, rfl, rfl⟩

theorem next_isSep (s : Splitter) : s.next.isSep = s.isSep := by
  unfold next
  split <;> rfl

theorem next_action (s : Splitter) : s.next.emptyFieldAction = s.emptyFieldAction := by
  unfold next
  split <;> rfl

theorem At.valid (h : s.At u rest) : s.valid = true ↔ u ≠ [] := by
  unfold Splitter.valid
  rw [h.head]
  exact h.ends.notEnd

theorem At.length (h : s.At u rest) : s.length = (u.takeWhile fun c => !s.isSep c).length := by
  have hu := congrArg List.length (List.takeWhile_append_dropWhile (p := fun c => !s.isSep c) (l := u))
  rw [List.length_append] at hu
  unfold Splitter.length
  rw [h.head, h.tail]
  dsimp only
  rw [List.length_append, List.length_append]
  lia

theorem At.fieldSp (h : s.At u rest) : s.fieldSp = u.takeWhile fun c => !s.isSep c := by
  have hsplit : u ++ rest =
      (u.takeWhile fun c => !s.isSep c) ++ ((u.dropWhile fun c => !s.isSep c) ++ rest) := by
    rw [← append_assoc, takeWhile_append_dropWhile]
  unfold Splitter.fieldSp
  rw [h.length, h.head, Option.getD_some, hsplit]
  exact take_left

/-! ## The fields are the split -/

def split (action : EmptyFieldAction) (p : UInt8 → Bool) (u : List UInt8) : List (List UInt8) :=
  match action with
  | .SKIP_EMPTY_FIELD => runs p u
  | .ALLOW_EMPTY_FIELD => pieces p u

theorem split_start : split s.emptyFieldAction s.isSep (s.start u)
      = split s.emptyFieldAction s.isSep u := by
  unfold split start
  cases s.emptyFieldAction with
  | SKIP_EMPTY_FIELD => exact runs_dropWhile s.isSep u
  | ALLOW_EMPTY_FIELD => rfl

theorem split_nil : split s.emptyFieldAction s.isSep [] = [] := by
  cases s.emptyFieldAction with
  | SKIP_EMPTY_FIELD => exact runs_nil
  | ALLOW_EMPTY_FIELD => exact pieces_nil

theorem split_eq (hstart : s.start u = u) (hne : u ≠ []) : split s.emptyFieldAction s.isSep u =
      (u.takeWhile fun c => !s.isSep c) ::
        split s.emptyFieldAction s.isSep (u.dropWhile fun c => !s.isSep c).tail := by
  unfold start at hstart
  cases haction : s.emptyFieldAction with
  | SKIP_EMPTY_FIELD =>
    rw [haction, if_pos rfl] at hstart
    apply runs_eq _ hne
    intro c hc
    have hhead := head?_dropWhile_not s.isSep u
    rw [hstart, hc] at hhead
    simpa using hhead
  | ALLOW_EMPTY_FIELD => exact pieces_eq hne

theorem At.visited (h : s.At u rest) (n : ℕ) :
    s.visited n = (split s.emptyFieldAction s.isSep u).take n := by
  induction n generalizing s u with
  | zero => rw [take_zero]; rfl
  | succ n ih =>
    unfold Splitter.visited
    split
    case isTrue hvalid =>
      have hnext := ih h.next
      rw [next_isSep, next_action, split_start] at hnext
      rw [split_eq h.skipped (h.valid.1 hvalid), take_succ_cons, h.fieldSp, hnext]
    case isFalse hvalid =>
      -- Nothing is left.
      have hu : u = [] := not_not.1 fun hne => hvalid (h.valid.2 hne)
      rw [hu, split_nil, take_nil]

/-- The loop over the splitter sees these fields, one after another, and then ends. -/
def Visits (s : Splitter) (fields : List (List UInt8)) : Prop :=
  ∀ n, s.visited n = fields.take n

theorem init_visits (hhead : s.head = some (u ++ rest)) (h : s.Ends u rest) :
    s.init.Visits (split s.emptyFieldAction s.isSep u) := by
  have hinit := (at_init hhead h).visited
  have hsame : s.init.emptyFieldAction = s.emptyFieldAction ∧ s.init.isSep = s.isSep := by
    unfold init
    rw [hhead]
    exact ⟨rfl, rfl⟩
  rw [hsame.1, hsame.2, split_start] at hinit
  exact hinit

theorem init_visits_null (hhead : s.head = none) : s.init.Visits [] := by
  have hvalid : s.init.valid = false := by
    unfold init valid
    rw [hhead]
  intro n
  cases n with
  | zero => rfl
  | succ n =>
    rw [Splitter.visited, hvalid, take_nil]
    rfl

end Splitter

/-! ## The constructors -/

section Constructors

variable {u rest m seps : Ptr} {sep : UInt8} {action : EmptyFieldAction}

def cStr (p : Ptr) : List UInt8 :=
  p.takeWhile (· != 0)

theorem zero_notMem_cStr (p : Ptr) : 0 ∉ cStr p := fun hmem => by
  have hzero := mem_takeWhile_imp hmem
  exact absurd hzero (by decide)

theorem exists_eq_cStr (p : Ptr) : ∃ rest, p = cStr p ++ rest ∧ deref rest = 0 := by
  refine ⟨p.dropWhile (· != 0), (takeWhile_append_dropWhile).symm, ?_⟩
  have hhead := head?_dropWhile_not (· != 0) p
  unfold deref
  rw [headD_eq_head?_getD]
  rcases hdrop : (p.dropWhile (· != 0)).head? with - | c
  · rfl
  · rw [hdrop] at hhead
    simpa using hhead

theorem cStr_append (hu : 0 ∉ u) : cStr (u ++ 0 :: rest) = u := by
  have hall : ∀ c ∈ u, (c != 0) = true := fun c hc => bne_iff_ne.2 fun hzero => hu (hzero ▸ hc)
  unfold cStr
  rw [takeWhile_append_of_pos hall, takeWhile_cons_of_neg (by decide), append_nil]

theorem isSep_eq (seps : Ptr) : isSep seps = fun c => decide (c ∈ cStr seps) := by
  funext c
  induction seps with
  | nil => rfl
  | cons p seps ih =>
    unfold isSep cStr
    rw [takeWhile_cons]
    by_cases hp : p = 0
    · rw [if_pos hp, if_neg (by rw [hp]; decide)]
      rfl
    · rw [if_neg hp, if_pos (bne_iff_ne.2 hp)]
      by_cases hc : c = p
      · rw [if_pos hc, hc]
        simp
      · rw [if_neg hc, ih, cStr]
        simp [hc]

theorem isSep_single (hsep : sep ≠ 0) : isSep [sep] = fun c => c == sep := by
  funext c
  unfold isSep
  rw [if_neg hsep]
  by_cases hc : c = sep
  · rw [if_pos hc, hc, beq_self_eq_true]
  · rw [if_neg hc]
    exact (beq_false_of_ne hc).symm

theorem str_visits (m : Ptr) (isSep : UInt8 → Bool) (action : EmptyFieldAction) :
    (Splitter.init ⟨some m, none, none, isSep, action⟩).Visits
    (Splitter.split action isSep (cStr m)) := by
  obtain ⟨rest, hm, hrest⟩ := exists_eq_cStr m
  exact Splitter.init_visits (s := ⟨some m, none, none, isSep, action⟩) (congrArg some hm)
    ⟨zero_notMem_cStr m, hrest⟩

theorem range_visits (u rest : Ptr) (isSep : UInt8 → Bool) (action : EmptyFieldAction) :
    (Splitter.init ⟨some (u ++ rest), none, some rest, isSep, action⟩).Visits
    (Splitter.split action isSep u) :=
  Splitter.init_visits (s := ⟨some (u ++ rest), none, some rest, isSep, action⟩) rfl rfl

theorem null_visits (isSep : UInt8 → Bool) (action : EmptyFieldAction) :
    (Splitter.init ⟨none, none, none, isSep, action⟩).Visits [] :=
  Splitter.init_visits_null (s := ⟨none, none, none, isSep, action⟩) rfl

theorem piece_end (u rest : Ptr) : Piece.end ⟨some (u ++ rest), u.length⟩ = some rest :=
  congrArg some drop_left

end Constructors

/-! ## Keys and values -/

def keyValue (d : UInt8) (pair : List UInt8) : List UInt8 × List UInt8 :=
  (pair.takeWhile (· != d), (pair.dropWhile (· != d)).tail)

namespace KeyValuePairsSplitter

variable {kv : KeyValuePairsSplitter}

def Updated (kv : KeyValuePairsSplitter) : Prop :=
  kv.delimPos = kv.keyAndValue.findIdx (· == kv.keyValueDelim)

theorem updateDelimiterPosition_eq (kv : KeyValuePairsSplitter) : kv.updateDelimiterPosition =
      { kv with delimPos := kv.keyAndValue.findIdx (· == kv.keyValueDelim) } := by
  unfold updateDelimiterPosition
  rw [findIdx_eq_getD_findIdx?]
  split
  case h_1 i hfound => rw [hfound]; rfl
  case h_2 hnone => rw [hnone]; rfl

theorem updated (kv : KeyValuePairsSplitter) : kv.updateDelimiterPosition.Updated := by
  rw [updateDelimiterPosition_eq]
  rfl

theorem key_value (h : kv.Updated) : (kv.key, kv.value) = keyValue kv.keyValueDelim kv.keyAndValue := by
  have hle : kv.keyAndValue.findIdx (· == kv.keyValueDelim) ≤ kv.keyAndValue.length := findIdx_le_length
  have hkey : kv.key = kv.keyAndValue.take (kv.keyAndValue.findIdx (· == kv.keyValueDelim)) := by
    unfold key substr
    rw [← h] at hle ⊢
    simp only [Nat.zero_min, Option.getD_some, Nat.sub_zero, drop_zero, min_eq_left hle]
  have hvalue : kv.value
      = (kv.keyAndValue.drop (kv.keyAndValue.findIdx (· == kv.keyValueDelim))).tail := by
    unfold value substr
    rw [← h, tail_drop]
    simp only [Option.getD_none, min_self]
    rw [← length_drop, take_length]
    rcases le_total (kv.delimPos + 1) kv.keyAndValue.length with hlt | hlt
    · rw [min_eq_left hlt]
    · rw [min_eq_right hlt, drop_length, drop_eq_nil_of_le hlt]
  have hnot : (fun c => !(c != kv.keyValueDelim)) = fun c => c == kv.keyValueDelim := by
    funext c
    exact Bool.not_not _
  unfold keyValue
  rw [hkey, hvalue, takeWhile_eq_take_findIdx_not, dropWhile_eq_drop_findIdx_not, hnot]

theorem visited_eq (h : kv.Updated) (n : ℕ) :
    kv.visited n = (kv.sp.visited n).map (keyValue kv.keyValueDelim) := by
  induction n generalizing kv with
  | zero => rfl
  | succ n ih =>
    have hnext := ih (updated { kv with sp := kv.sp.next })
    rw [updateDelimiterPosition_eq] at hnext
    unfold visited Splitter.visited
    split
    case isTrue =>
      rw [key_value h, map_cons, ← hnext]
      unfold next
      rw [updateDelimiterPosition_eq]
      rfl
    case isFalse => rfl

/-- The loop over the pairs sees these keys and values, one after another, and then ends. -/
def Visits (kv : KeyValuePairsSplitter) (pairs : List (List UInt8 × List UInt8)) : Prop :=
  ∀ n, kv.visited n = pairs.take n

theorem ofRange_visits {strBegin strEnd : Option Ptr} {pairDelimiter : UInt8} {fields : List (List UInt8)}
    (h : (StringSplitter.ofRange strBegin strEnd pairDelimiter .SKIP_EMPTY_FIELD).Visits fields)
    (d : UInt8) :
    (ofRange strBegin strEnd pairDelimiter d).Visits (fields.map (keyValue d)) := by
  intro n
  unfold ofRange
  rw [visited_eq (updated _), updateDelimiterPosition_eq, ← map_take, ← h n]

end KeyValuePairsSplitter

/-! ## The splitters enumerate the split -/

open Splitter in
/-- **The splitters enumerate the split**: `m` is a C string, `u` is any range in front of
`rest`. -/
theorem splitters_enumerate (m u rest seps : Ptr) (sep d : UInt8) (action : EmptyFieldAction) :
    -- One separator.
    ((ofStr (some m) sep action).Visits (split action (· == sep) (cStr m)) ∧
      (ofRange (some (u ++ rest)) (some rest) sep action).Visits (split action (· == sep) u) ∧
      (ofPiece ⟨some (u ++ rest), u.length⟩ sep action).Visits (split action (· == sep) u) ∧
      (ofPiece ⟨none, 0⟩ sep action).Visits []) ∧
    -- A set of separators, and a set of one.
    ((multiOfStr (some m) seps action).Visits (split action (· ∈ cStr seps) (cStr m)) ∧
      (multiOfRange (some (u ++ rest)) (some rest) seps action).Visits (split action (· ∈ cStr seps) u)) ∧
    (sep ≠ 0 → multiOfStr (some m) [sep] action = ofStr (some m) sep action ∧
      multiOfRange (some (u ++ rest)) (some rest) [sep] action
        = ofRange (some (u ++ rest)) (some rest) sep action) ∧
    -- The constructors agree where no NUL is in the input.
    (0 ∉ u → ∀ n,
      (ofStr (some (u ++ 0 :: rest)) sep action).visited n =
        (ofRange (some (u ++ rest)) (some rest) sep action).visited n ∧
      (ofRange (some (u ++ rest)) (some rest) sep action).visited n =
        (ofPiece ⟨some (u ++ rest), u.length⟩ sep action).visited n ∧
      (multiOfStr (some (u ++ 0 :: rest)) seps action).visited n =
        (multiOfRange (some (u ++ rest)) (some rest) seps action).visited n) ∧
    -- Pairs of keys and values.
    ((KeyValuePairsSplitter.ofStr (some m) sep d).Visits ((runs (· == sep) (cStr m)).map (keyValue d)) ∧
      (KeyValuePairsSplitter.ofRange (some (u ++ rest)) (some rest) sep d).Visits
        ((runs (· == sep) u).map (keyValue d)) ∧
      (KeyValuePairsSplitter.ofPiece ⟨some (u ++ rest), u.length⟩ sep d).Visits
        ((runs (· == sep) u).map (keyValue d))) := by
  have hpiece : ∀ action, ofPiece ⟨some (u ++ rest), u.length⟩ sep action =
      ofRange (some (u ++ rest)) (some rest) sep action := by
    intro action
    unfold ofPiece
    rw [piece_end]
  have hrange : ∀ action, (ofRange (some (u ++ rest)) (some rest) sep action).Visits
      (split action (· == sep) u) :=
    range_visits u rest (· == sep)
  have hmulti : (multiOfRange (some (u ++ rest)) (some rest) seps action).Visits
      (split action (· ∈ cStr seps) u) := by
    rw [← isSep_eq seps]
    exact range_visits u rest (isSep seps) action
  refine ⟨⟨str_visits m _ action, hrange action, ?_, null_visits _ action⟩, ⟨?_, hmulti⟩, ?_, ?_,
    ?_, ?_, ?_⟩
  · rw [hpiece]
    exact hrange action
  · rw [← isSep_eq seps]
    exact str_visits m (isSep seps) action
  · intro hsep
    unfold multiOfStr multiOfRange ofStr ofRange
    rw [isSep_single hsep]
    exact ⟨rfl, rfl⟩
  · intro hu n
    have hstr := str_visits (u ++ 0 :: rest) (· == sep) action n
    have hmultiStr := str_visits (u ++ 0 :: rest) (isSep seps) action n
    rw [cStr_append hu] at hstr hmultiStr
    refine ⟨hstr.trans (hrange action n).symm, by rw [hpiece], ?_⟩
    rw [isSep_eq seps] at hmultiStr
    rw [hmulti n, ← hmultiStr, ← isSep_eq seps]
    rfl
  · exact KeyValuePairsSplitter.ofRange_visits (str_visits m (· == sep) .SKIP_EMPTY_FIELD) d
  · exact KeyValuePairsSplitter.ofRange_visits (hrange .SKIP_EMPTY_FIELD) d
  · unfold KeyValuePairsSplitter.ofPiece
    rw [piece_end]
    exact KeyValuePairsSplitter.ofRange_visits (hrange .SKIP_EMPTY_FIELD) d

end Eabase.Utility.StringSplitter
