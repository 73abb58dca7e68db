import Mathlib.Data.List.Find
import Eabase.Lib.Fibers
import Eabase.Lib.Machine
import Eabase.Utility.EndPointText

/-!
# EndPointValue

An `EndPoint` is an IPv4 address, or a handle of an `ExtendedEndPoint` when its
port is `EXTENDED_ENDPOINT_PORT`: the ip is the slot then. One thread makes,
copies, assigns and parses them, and every one of them is to denote the address
it was given last.

It does not when an `EndPoint` is assigned to itself, for `operator=` resets it
before it reads it, and when `str2endpoint` writes the fields of an IPv4 address
into one that is a handle, or writes them and fails then.
-/

namespace Eabase.Utility.EndPointValue

open Lib Function List
open Option (map_some some some_ne_none)

variable {ε : Type*} [DecidableEq ε] {inetPton6 : Text → Option (List UInt8)}

/-! ## The data -/

structure EndPoint where
  ip : ℕ
  port : ℤ
  deriving DecidableEq

/-- `EndPoint()`. -/
def IP_ANY : EndPoint := ⟨0, 0⟩

/-- What an `EndPoint` denotes. -/
inductive Value where
  | ipv4 (ip : ℕ) (port : ℤ)
  | extended (a : Address)
  deriving DecidableEq

def EndPoint.handle (v : EndPoint) : Option ℕ :=
  if v.port = EXTENDED_ENDPOINT_PORT then some v.ip else none

/-- The slots of the pool (`known` says that the pool has the slot, `inUse` that it was not
returned), the set, and the endpoints that are constructed. What is kept besides: the address that
was successfully assigned to an endpoint last. -/
structure State (ε : Type*) where
  refCount : ℕ → ℤ
  addr : ℕ → Address
  known : ℕ → Bool
  inUse : ℕ → Bool
  set : List ℕ
  points : ε → Option EndPoint
  assigned : ε → Value

def start (ε : Type*) : State ε where
  refCount _ := 0
  addr _ := []
  known _ := false
  inUse _ := false
  set := []
  points _ := none
  assigned _ := .ipv4 0 0

namespace State

section

variable (s : State ε)

def embeds (e : ε) : Option ℕ :=
  (s.points e).bind EndPoint.handle

def addressResource (id : ℕ) : Option ℕ :=
  if s.known id then some id else none

def denotes (v : EndPoint) : Option Value :=
  match v.handle with
  | some id => (s.addressResource id).map fun q => .extended (s.addr q)
  | none => some (.ipv4 v.ip v.port)

def value (e : ε) : Option Value :=
  (s.points e).bind s.denotes

def write (e : ε) (v : Option EndPoint) : State ε :=
  { s with points := update s.points e v }

def assign (e : ε) (v : Value) : State ε :=
  { s with assigned := update s.assigned e v }

def count (q : ℕ) (n : ℤ) : State ε :=
  { s with refCount := update s.refCount q (s.refCount q + n) }

/-- `_set.find(p)`. -/
def lookup (p : ℕ) : Option ℕ :=
  s.set.find? fun q => s.addr q = s.addr p

/-- `_set.insert(p)`. -/
def put (p : ℕ) : State ε :=
  { s with set := if s.set.any fun q => s.addr q = s.addr p then s.set else p :: s.set }

end

end State

/-! ## The objects -/

/-- `GlobalEndPointSet::erase`. -/
def erase (s : State ε) (q : ℕ) : State ε :=
  { s with set := if s.lookup q = some q then s.set.erase q else s.set }

section

variable (s : State ε)

def returnResource (q : ℕ) : State ε :=
  { s with inUse := update s.inUse q false }

def decRef (q : ℕ) : State ε :=
  if s.refCount q = 1 then returnResource (erase (s.count q (-1)) q) q else s.count q (-1)

def incRef (q : ℕ) : State ε :=
  s.count q 1

/-- `new_extended_endpoint` with the slot `p`, and the address. -/
def newExtendedEndpoint (p : ℕ) (a : Address) : State ε :=
  { s with
    refCount := update s.refCount p 1
    addr := update s.addr p a
    known := update s.known p true
    inUse := update s.inUse p true }

/-- `GlobalEndPointSet::insert`. -/
def insert (p : ℕ) : State ε × ℕ :=
  match s.lookup p with
  | none => (s.put p, p)
  | some q => if s.refCount q = 0 then ({ s with set := s.set.erase q }.put p, p) else (s.count q 1, q)

def dedup (p : ℕ) : State ε × ℕ :=
  let (s', r) := insert s p
  if r = p then (s', r) else (returnResource { s' with refCount := update s'.refCount p 0 } p, r)

end

/-! ## The endpoints -/

section

variable (s : State ε)

/-- What `reset` does to the object. -/
def release (v : EndPoint) : State ε :=
  match v.handle with
  | none => s
  | some id =>
    match s.addressResource id with
    | none => s
    | some q => decRef s q

def reset (e : ε) : State ε :=
  match s.points e with
  | none => s
  | some v => (release s v).write e (some IP_ANY)

def setEndpoint (e : ε) (v : EndPoint) : State ε :=
  match v.handle with
  | none => s.write e (some v)
  | some id =>
    match s.addressResource id with
    | none => s.write e (some IP_ANY)
    | some q => (incRef s q).write e (some v)

/-- `operator=`. -/
def assign (e rhs : ε) : State ε :=
  let s' := reset s e
  match s'.points rhs with
  | none => s'
  | some v => setEndpoint s' e v

/-- `embed_to`. -/
def embedTo (e : ε) (r : ℕ) : State ε :=
  (reset s e).write e (some ⟨r % 2 ^ 32, EXTENDED_ENDPOINT_PORT⟩)

/-- `ExtendedEndPoint::create`, in the slot `p`. -/
def create (e : ε) (a : Address) (p : ℕ) : State ε :=
  let (s', r) := dedup (newExtendedEndpoint s p a) p
  embedTo s' e r

def overwrite (e : ε) (ip : ℕ) (port : Option ℤ) : State ε :=
  match s.points e with
  | none => s
  | some v => s.write e (some ⟨ip, port.getD v.port⟩)

/-- `str2endpoint`, for a text with the address `a`, or else with these fields. The pool may have no
slot. -/
def parse (e : ε) (a : Option Address) (w : Written) (p : Option ℕ) : State ε :=
  match a, p with
  | some a, some p => (create s e a p).assign e (.extended a)
  | _, _ =>
    match w with
    | .nothing => s
    | .failed ip port => overwrite s e ip port
    | .done ip port => (overwrite s e ip (some port)).assign e (.ipv4 ip port)

end

/-- The address of a `sockaddr_storage` that is no `sockaddr_in`. -/
def sockaddrExtended (ss : List UInt8) (size : ℕ) : Option Address :=
  if ss.getD 1 0 = 0 ∧ (ss.getD 0 0 = AF_INET6 ∨ ss.getD 0 0 = AF_UNIX) then some (ss.take size) else none

/-- `EndPoint(const sockaddr_in&)`. -/
def sockaddrIn (ss : List UInt8) : EndPoint where
  ip := sAddr (((ss.drop 4).take 4).map UInt8.toNat)
  port := (ss.getD 2 0).toNat * 256 + (ss.getD 3 0).toNat

def isIn (ss : List UInt8) : Bool :=
  ss.getD 0 0 = AF_INET && ss.getD 1 0 = 0

def sockaddr2endpoint (s : State ε) (e : ε) (ss : List UInt8) (size : ℕ) (p : Option ℕ) : State ε :=
  if isIn ss then (setEndpoint (reset s e) e (sockaddrIn ss)).assign e
    (.ipv4 (sockaddrIn ss).ip (sockaddrIn ss).port)
  else parse s e (sockaddrExtended ss size) .nothing p

/-- `EndPoint(ip, port)`. -/
def fromIpPort (ip : ℕ) (port : ℤ) : EndPoint :=
  if port = EXTENDED_ENDPOINT_PORT then IP_ANY else ⟨ip, port⟩

/-! ## The machine -/

inductive Act (ε : Type*) where
  | construct (e : ε)
  | constructFrom (e : ε) (ip : ℕ) (port : ℤ)
  | constructIn (e : ε) (ss : List UInt8)
  | copy (e rhs : ε)
  | assign (e rhs : ε)
  | str2endpoint (e : ε) (t : Text) (p : Option ℕ)
  | str2endpointAt (e : ε) (t : Text) (port : ℤ) (p : Option ℕ)
  | sockaddr2endpoint (e : ε) (ss : List UInt8) (size : ℕ) (p : Option ℕ)
  | reset (e : ε)
  | destroy (e : ε)

def Act.target : Act ε → ε
  | .construct e => e
  | .constructFrom e _ _ => e
  | .constructIn e _ => e
  | .copy e _ => e
  | .assign e _ => e
  | .str2endpoint e _ _ => e
  | .str2endpointAt e _ _ _ => e
  | .sockaddr2endpoint e _ _ _ => e
  | .reset e => e
  | .destroy e => e

def Act.slot : Act ε → Option ℕ
  | .str2endpoint _ _ p => p
  | .str2endpointAt _ _ _ p => p
  | .sockaddr2endpoint _ _ _ p => p
  | _ => none

def Act.constructs : Act ε → Bool
  | .construct _ => true
  | .constructFrom _ _ _ => true
  | .constructIn _ _ => true
  | .copy _ _ => true
  | _ => false

def perform (inetPton6 : Text → Option (List UInt8)) (s : State ε) : Act ε → State ε
  | .construct e => (s.write e (some IP_ANY)).assign e (.ipv4 0 0)
  | .constructFrom e ip port =>
    (s.write e (some (fromIpPort ip port))).assign e
      (.ipv4 (fromIpPort ip port).ip (fromIpPort ip port).port)
  | .constructIn e ss =>
    (s.write e (some (sockaddrIn ss))).assign e (.ipv4 (sockaddrIn ss).ip (sockaddrIn ss).port)
  | .copy e rhs =>
    match s.points rhs with
    | none => s
    | some v => (setEndpoint s e v).assign e (s.assigned rhs)
  | .assign e rhs => (assign s e rhs).assign e (s.assigned rhs)
  | .str2endpoint e t p => parse s e (createText inetPton6 t) (str2endpoint4 t) p
  | .str2endpointAt e t port p => parse s e (createAt inetPton6 t port) (str2endpointAt4 t port) p
  | .sockaddr2endpoint e ss size p => sockaddr2endpoint s e ss size p
  | .reset e => (reset s e).assign e (.ipv4 0 0)
  | .destroy e => (reset s e).write e none

/-- An endpoint is constructed once and used until it is destroyed, also on the right of
`operator=`; the pool gives a slot that is not in use. -/
def Enabled (s : State ε) (act : Act ε) : Prop :=
  (s.points act.target = none ↔ act.constructs = true) ∧ (∀ p ∈ act.slot, s.inUse p = false) ∧
    match act with
    | .assign _ rhs => s.points rhs ≠ none
    | _ => True

instance (s : State ε) (act : Act ε) : Decidable (Enabled s act) := by
  unfold Enabled
  have : Decidable (match act with
    | .assign _ rhs => s.points rhs ≠ none
    | _ => True) := by
    cases act <;> infer_instance
  infer_instance

def step (inetPton6 : Text → Option (List UInt8)) (s : State ε) (act : Act ε) : State ε :=
  if Enabled s act then perform inetPton6 s act else s

/-! ## What holds -/

/-- `EndPoint` is a value type. -/
structure IsValue (s : State ε) : Prop where
  denotes : ∀ e, s.points e ≠ none → s.value e = some (s.assigned e)
  /-- The counts are right, -/
  counted : ∀ q, 0 ≤ s.refCount q ∧ {e | s.embeds e = some q}.encard = (s.refCount q).toNat
  /-- and a slot that nobody embeds is back in the pool. -/
  released : ∀ q, (∀ e, s.embeds e ≠ some q) → s.inUse q = false

def Fails (inetPton6 : Text → Option (List UInt8)) (s : State ε) (act : Act ε) : Prop :=
  Enabled s act ∧
    match act with
    | .str2endpoint _ t p => (createText inetPton6 t = none ∨ p = none) ∧ ∀ ip port,
        str2endpoint4 t ≠ .done ip port
    | .str2endpointAt _ t port p =>
      (createAt inetPton6 t port = none ∨ p = none) ∧ ∀ ip port', str2endpointAt4 t port ≠ .done ip port'
    | .sockaddr2endpoint _ ss size p => isIn ss = false ∧ (sockaddrExtended ss size = none ∨ p = none)
    | _ => False

/-- The endpoint can be given the extended address, whose handle has 32 bits, or the fields, which
release no handle and stay as they are if the call fails. -/
def MayParse (s : State ε) (e : ε) (a : Option Address) (w : Written) (p : Option ℕ) : Prop :=
  match a, p with
  | some a, some p => (∃ q ∈ s.set, s.addr q = a) ∨ p < 2 ^ 32
  | _, _ =>
    match w with
    | .nothing => True
    | .failed ip port => ∀ v ∈ s.points e, ip = v.ip ∧ port.getD v.port = v.port
    | .done _ _ => s.embeds e = none

instance (s : State ε) (e : ε) (a : Option Address) (w : Written) (p : Option ℕ) :
    Decidable (MayParse s e a w p) := by
  unfold MayParse
  split
  · infer_instance
  · split <;> infer_instance

/-- No endpoint is assigned to itself, except one that is 0.0.0.0:0 anyway. -/
def Heeds (inetPton6 : Text → Option (List UInt8)) (s : State ε) : Act ε → Prop
  | .assign e rhs => e = rhs → s.points e = some IP_ANY
  | .str2endpoint e t p => MayParse s e (createText inetPton6 t) (str2endpoint4 t) p
  | .str2endpointAt e t port p => MayParse s e (createAt inetPton6 t port) (str2endpointAt4 t port) p
  | .sockaddr2endpoint e ss size p => isIn ss = true ∨ MayParse s e (sockaddrExtended ss size) .nothing p
  | _ => True

instance (s : State ε) (act : Act ε) : Decidable (Heeds inetPton6 s act) := by
  cases act <;> unfold Heeds <;> infer_instance

/-! ## The invariant -/

/-- Who has an object: the endpoints that embed it, and the call that is under way. -/
def State.holding (s : State ε) (held : Option ℕ) : Option ε → Option ℕ :=
  fun x => x.elim held s.embeds

abbrev State.users (s : State ε) (held : Option ℕ) (q : ℕ) : Set (Option ε) :=
  fiber (s.holding held) (some q)

structure Inv (s : State ε) (held : Option ℕ) : Prop where
  used : ∀ q, s.inUse q = true →
    q ∈ s.set ∧ s.known q = true ∧ q < 2 ^ 32 ∧ 1 ≤ s.refCount q ∧ (s.users held q).encard
      = (s.refCount q).toNat
  free : ∀ q, s.inUse q = false → q ∉ s.set ∧ s.refCount q = 0 ∧ s.users held q = ∅
  nodup : s.set.Nodup
  unique : ∀ q ∈ s.set, ∀ q' ∈ s.set, s.addr q = s.addr q' → q = q'

variable {s s' : State ε} {held : Option ℕ} {e : ε} {p q r : ℕ} {a : Address}
  {v : Option EndPoint} {w : EndPoint} {slot : Option ℕ} {act : Act ε} {d : Written}
  {o : Option Address} {rhs : ε}

omit [DecidableEq ε] in
theorem Inv.inUse_of_holding (h : Inv s held) {x : Option ε} (hx : s.holding held x = some q) :
    s.inUse q = true := by
  cases hq : s.inUse q with
  | true => rfl
  | false =>
    have hmem : x ∈ s.users held q := hx
    rw [(h.free q hq).2.2] at hmem
    exact absurd hmem (Set.notMem_empty x)

omit [DecidableEq ε] in
theorem Inv.inUse_of_mem (h : Inv s held) (hq : q ∈ s.set) : s.inUse q = true := by
  cases hu : s.inUse q with
  | true => rfl
  | false => exact absurd hq (h.free q hu).1

theorem holding_write (s : State ε) (held : Option ℕ) (e : ε) (v : Option EndPoint) :
    (s.write e v).holding held = update (s.holding held) (some e) (v.bind EndPoint.handle) := by
  ext1 x
  cases x with
  | none =>
    rw [update_of_ne (some_ne_none e).symm]
    rfl
  | some e' =>
    obtain rfl | he := eq_or_ne e' e
    · rw [update_self]
      change (update s.points e' v e').bind EndPoint.handle = _
      rw [update_self]
    · rw [update_of_ne (fun h => he (some.inj h))]
      change (update s.points e v e').bind EndPoint.handle = (s.points e').bind EndPoint.handle
      rw [update_of_ne he]

theorem holding_held (s : State ε) (held held' : Option ℕ) :
    s.holding held' = update (s.holding held) none held' := by
  ext1 x
  cases x with
  | none => rw [update_self]; rfl
  | some e =>
    rw [update_of_ne (some_ne_none e)]
    rfl

open State

theorem Inv.write (h : Inv s held) (he : s.embeds e = none) (hv : v.bind EndPoint.handle = none) :
    Inv (s.write e v) held := by
  have hsame : (s.write e v).holding held = s.holding held := by
    rw [holding_write, hv, ← he]
    exact update_eq_self (some e) (s.holding held)
  have husers : ∀ q, (s.write e v).users held q = s.users held q := by
    intro q
    unfold users
    rw [hsame]
  constructor
  case used =>
    intro q hq
    rw [husers]
    exact h.used q hq
  case free =>
    intro q hq
    rw [husers]
    exact h.free q hq
  case nodup => exact h.nodup
  case unique => exact h.unique

theorem Inv.embed (h : Inv s (some r)) (he : s.embeds e = none) :
    Inv (s.write e (some ⟨r, EXTENDED_ENDPOINT_PORT⟩)) none := by
  have hheld : s.holding (some r) none = some r := rfl
  have hnone : update (s.holding (some r)) none none (some e) = none := by
    rw [update_of_ne (some_ne_none e)]
    exact he
  have hholding : (s.write e (some ⟨r, EXTENDED_ENDPOINT_PORT⟩)).holding none =
      update (update (s.holding (some r)) none none) (some e) (some r) := by
    rw [holding_write, holding_held s (some r) none]
    rfl
  have hcard : ∀ q, ((s.write e (some ⟨r, EXTENDED_ENDPOINT_PORT⟩)).users none q).encard
      = (s.users (some r) q).encard := by
    intro q
    unfold users
    rw [hholding]
    obtain rfl | hq := eq_or_ne q r
    · rw [encard_fiber_insert (by rw [hnone]; exact nofun), encard_fiber_erase hheld (w := none) nofun]
    · rw [fiber_update, fiber_update]
      · rw [hheld]
        exact ⟨fun heq => absurd (some.inj heq).symm hq, nofun⟩
      · rw [hnone]
        exact ⟨nofun, fun heq => absurd (some.inj heq).symm hq⟩
  constructor
  case used =>
    intro q hq
    rw [hcard]
    exact h.used q hq
  case free =>
    intro q hq
    obtain ⟨hmem, href, husers⟩ := h.free q hq
    refine ⟨hmem, href, ?_⟩
    rw [← Set.encard_eq_zero, hcard, husers, Set.encard_empty]
  case nodup => exact h.nodup
  case unique => exact h.unique

theorem Inv.incRef (h : Inv s none) (hq : s.inUse q = true) : Inv (incRef s q) (some q) := by
  obtain ⟨hmem, hknown, hlt, href, hcard⟩ := h.used q hq
  have hholding : (EndPointValue.incRef s q).holding (some q)
      = update (s.holding none) none (some q) := holding_held s none (some q)
  constructor
  case used =>
    intro r hr
    obtain rfl | hrq := eq_or_ne r q
    · have hcount : (EndPointValue.incRef s r).refCount r = s.refCount r + 1 := update_self ..
      refine ⟨hmem, hknown, hlt, ?_, ?_⟩
      · rw [hcount]
        exact Int.le_add_one href
      · unfold users
        rw [hholding, encard_fiber_insert (show s.holding none none ≠ some r from nofun), hcard, hcount,
          Int.toNat_add (Int.le_trans Int.one_nonneg href) Int.one_nonneg]
        rfl
    · obtain ⟨hmem', hknown', hlt', href', hcard'⟩ := h.used r hr
      have hcount : (EndPointValue.incRef s q).refCount r = s.refCount r := update_of_ne hrq ..
      refine ⟨hmem', hknown', hlt', ?_, ?_⟩
      · rw [hcount]
        exact href'
      · unfold users
        rw [hholding, hcount, fiber_update]
        · exact hcard'
        · exact ⟨nofun, fun heq => absurd (some.inj heq).symm hrq⟩
  case free =>
    intro r hr
    have hrq : r ≠ q := by
      rintro rfl
      rw [show (EndPointValue.incRef s r).inUse r = s.inUse r from rfl, hq] at hr
      cases hr
    obtain ⟨hmem', href', husers'⟩ := h.free r hr
    refine ⟨hmem', (update_of_ne hrq ..).trans href', ?_⟩
    unfold users
    rw [hholding, fiber_update]
    · exact husers'
    · exact ⟨nofun, fun heq => absurd (some.inj heq).symm hrq⟩
  case nodup => exact h.nodup
  case unique => exact h.unique

section

omit [DecidableEq ε]

theorem Inv.lookup_self (h : Inv s held) (hq : q ∈ s.set) : s.lookup q = some q := by
  cases hl : s.lookup q with
  | none => exact absurd rfl (of_decide_eq_false (Bool.eq_false_iff.2 (find?_eq_none.1 hl q hq)))
  | some r =>
    have heq : decide (s.addr r = s.addr q) = true :=
      find?_some (p := fun r => decide (s.addr r = s.addr q)) hl
    rw [h.unique r (mem_of_find?_eq_some hl) q hq (of_decide_eq_true heq)]

theorem addressResource_eq (h : s.known q = true) : s.addressResource q = some q :=
  if_pos h

theorem embeds_eq (h : s.points e = some w) : s.embeds e = w.handle := by
  unfold embeds
  rw [h]
  rfl

end

theorem Inv.decRef (h : Inv s held) (hq : s.embeds e = some q) :
    Inv ((decRef s q).write e (some IP_ANY)) held := by
  have hsome : s.holding held (some e) = some q := hq
  have huse : s.inUse q = true := h.inUse_of_holding hsome
  obtain ⟨hmem, hknown, hlt, href, hcard⟩ := h.used q huse
  have hleft := encard_fiber_erase hsome (w := none) nofun
  have hother : ∀ r, r ≠ q → fiber (update (s.holding held) (some e) none) (some r) = s.users held r := by
    intro r hr
    apply fiber_update
    rw [hsome]
    exact ⟨fun heq => absurd (some.inj heq).symm hr, nofun⟩
  unfold EndPointValue.decRef
  split
  case isTrue hlast =>
    set s' := (returnResource (erase (s.count q (-1)) q) q).write e (some IP_ANY)
    have hholding : s'.holding held = update (s.holding held) (some e) none := by
      rw [← show (some IP_ANY).bind EndPoint.handle = none from rfl]
      exact holding_write (returnResource (erase (s.count q (-1)) q) q) held e (some IP_ANY)
    have hset : s'.set = s.set.erase q := by
      exact if_pos (h.lookup_self hmem)
    have husers : s'.users held q = ∅ := by
      have hone : (s.users held q).encard = 1 := by rw [hcard, hlast]; rfl
      unfold users
      rw [hholding, ← Set.encard_eq_zero]
      exact ENat.add_left_injective_of_ne_top (ENat.natCast_ne_top 1)
        (hleft.trans (hone.trans (zero_add _).symm))
    constructor
    case used =>
      intro r hr
      have hrq : r ≠ q := by
        rintro rfl
        change update s.inUse r false r = true at hr
        rw [update_self] at hr
        cases hr
      change update s.inUse q false r = true at hr
      rw [update_of_ne hrq] at hr
      obtain ⟨hmem', hknown', hlt', href', hcard'⟩ := h.used r hr
      have hcount : s'.refCount r = s.refCount r := update_of_ne hrq ..
      unfold users
      rw [hset, hcount, hholding, hother r hrq]
      exact ⟨(mem_erase_of_ne hrq).2 hmem', hknown', hlt', href', hcard'⟩
    case free =>
      intro r hr
      rw [hset]
      obtain rfl | hrq := eq_or_ne r q
      · refine ⟨h.nodup.not_mem_erase, ?_, husers⟩
        change update s.refCount r (s.refCount r + -1) r = 0
        rw [update_self, hlast]
        rfl
      · change update s.inUse q false r = false at hr
        rw [update_of_ne hrq] at hr
        obtain ⟨hmem', href', husers'⟩ := h.free r hr
        refine ⟨fun hin => hmem' (mem_of_mem_erase hin), (update_of_ne hrq ..).trans href', ?_⟩
        unfold users
        rw [hholding, hother r hrq]
        exact husers'
    case nodup =>
      rw [hset]
      exact h.nodup.erase q
    case unique =>
      rw [hset]
      intro r hr r' hr' heq
      exact h.unique r (mem_of_mem_erase hr) r' (mem_of_mem_erase hr') heq
  case isFalse hmore =>
    set s' := (s.count q (-1)).write e (some IP_ANY)
    have hholding : s'.holding held = update (s.holding held) (some e) none := by
      rw [← show (some IP_ANY).bind EndPoint.handle = none from rfl]
      exact holding_write (s.count q (-1)) held e (some IP_ANY)
    constructor
    case used =>
      intro r hr
      obtain rfl | hrq := eq_or_ne r q
      · have hcount : s'.refCount r = s.refCount r + -1 := update_self ..
        refine ⟨hmem, hknown, hlt, ?_, ?_⟩
        · rw [hcount]
          lia
        · unfold users
          rw [hholding, hcount]
          exact card_pred href (hleft.trans hcard)
      · obtain ⟨hmem', hknown', hlt', href', hcard'⟩ := h.used r hr
        have hcount : s'.refCount r = s.refCount r := update_of_ne hrq ..
        unfold users
        rw [hcount, hholding, hother r hrq]
        exact ⟨hmem', hknown', hlt', href', hcard'⟩
    case free =>
      intro r hr
      have hrq : r ≠ q := by
        rintro rfl
        change s.inUse r = false at hr
        rw [huse] at hr
        cases hr
      obtain ⟨hmem', href', husers'⟩ := h.free r hr
      refine ⟨hmem', (update_of_ne hrq ..).trans href', ?_⟩
      unfold users
      rw [hholding, hother r hrq]
      exact husers'
    case nodup => exact h.nodup
    case unique => exact h.unique

theorem Inv.reset (h : Inv s held) (e : ε) : Inv (reset s e) held := by
  unfold EndPointValue.reset
  split
  case h_1 => exact h
  case h_2 v hv =>
    unfold release
    split
    case h_1 hnone => exact h.write (by rw [embeds_eq hv, hnone]) rfl
    case h_2 q hq =>
      have he : s.embeds e = some q := by rw [embeds_eq hv, hq]
      rw [addressResource_eq (h.used q (h.inUse_of_holding (x := some e) he)).2.1]
      exact h.decRef he

theorem embeds_reset (s : State ε) (e : ε) : (reset s e).embeds e = none := by
  unfold reset
  split
  case h_1 hnone =>
    unfold embeds
    rw [hnone]
    rfl
  case h_2 =>
    apply embeds_eq (w := IP_ANY)
    exact update_self ..

omit [DecidableEq ε] in
theorem Inv.free_slot (h : Inv s held) (hp : s.inUse p = false) (hp' : s'.inUse p = false)
    (href : s'.refCount p = 0)
    (hpoints : s'.points = s.points) (hset : s'.set = s.set)
    (hrest : ∀ r, r ≠ p →
      s'.inUse r = s.inUse r ∧ s'.refCount r = s.refCount r ∧ s'.addr r = s.addr r ∧
      s'.known r = s.known r) :
    Inv s' held := by
  have husers : ∀ r, s'.users held r = s.users held r := by
    intro r
    unfold users holding embeds
    rw [hpoints]
  obtain ⟨hmem, _, hempty⟩ := h.free p hp
  have hne : ∀ q ∈ s.set, q ≠ p := fun q hq hqp => hmem (hqp ▸ hq)
  constructor
  case used =>
    intro r hr
    have hrp : r ≠ p := by
      rintro rfl
      rw [hp'] at hr
      cases hr
    obtain ⟨huse, hcount, _, hknown⟩ := hrest r hrp
    rw [huse] at hr
    rw [hset, hknown, hcount, husers]
    exact h.used r hr
  case free =>
    intro r hr
    rw [hset, husers]
    obtain rfl | hrp := eq_or_ne r p
    · exact ⟨hmem, href, hempty⟩
    · obtain ⟨huse, hcount, _, _⟩ := hrest r hrp
      rw [huse] at hr
      rw [hcount]
      exact h.free r hr
  case nodup =>
    rw [hset]
    exact h.nodup
  case unique =>
    rw [hset]
    intro q hq q' hq'
    rw [(hrest q (hne q hq)).2.2.1, (hrest q' (hne q' hq')).2.2.1]
    exact h.unique q hq q' hq'

theorem Inv.put (h : Inv s none) (hp : s.inUse p = false) (hnone : ∀ q ∈ s.set, s.addr q ≠ a)
    (hlt : p < 2 ^ 32) :
    Inv ((newExtendedEndpoint s p a).put p) (some p) := by
  obtain ⟨hmem, _, hempty⟩ := h.free p hp
  have hne : ∀ q ∈ s.set, q ≠ p := fun q hq hqp => hmem (hqp ▸ hq)
  have haddr : ∀ q ∈ s.set, update s.addr p a q = s.addr q := fun q hq => update_of_ne (hne q hq) ..
  set s' := (newExtendedEndpoint s p a).put p
  have hset : s'.set = p :: s.set := by
    change (if s.set.any fun q => update s.addr p a q = update s.addr p a p then s.set
        else p :: s.set) = p :: s.set
    apply if_neg
    rw [any_eq_true]
    rintro ⟨q, hq, heq⟩
    have heq' := of_decide_eq_true heq
    rw [haddr q hq, update_self] at heq'
    exact hnone q hq heq'
  have hholding : s'.holding (some p) = update (s.holding none) none (some p) :=
    holding_held s none (some p)
  constructor
  case used =>
    intro r hr
    rw [hset]
    unfold users
    rw [hholding]
    obtain rfl | hrp := eq_or_ne r p
    · have hcount : s'.refCount r = 1 := update_self ..
      refine ⟨mem_cons_self, update_self .., hlt, le_of_eq hcount.symm, ?_⟩
      have hempty' : fiber (s.holding none) (some r) = ∅ := hempty
      rw [encard_fiber_insert (show s.holding none none ≠ some r from nofun), hcount, hempty',
        Set.encard_empty]
      rfl
    · have huse : s'.inUse r = s.inUse r := update_of_ne hrp ..
      rw [huse] at hr
      obtain ⟨hmem', hknown', hlt', href', hcard'⟩ := h.used r hr
      have hcount : s'.refCount r = s.refCount r := update_of_ne hrp ..
      rw [hcount, fiber_update]
      · exact ⟨mem_cons_of_mem p hmem', (update_of_ne hrp ..).trans hknown', hlt', href', hcard'⟩
      · exact ⟨nofun, fun heq => absurd (some.inj heq).symm hrp⟩
  case free =>
    intro r hr
    have hrp : r ≠ p := by
      rintro rfl
      rw [show s'.inUse r = true from update_self ..] at hr
      cases hr
    have huse : s'.inUse r = s.inUse r := update_of_ne hrp ..
    rw [huse] at hr
    obtain ⟨hmem', href', husers'⟩ := h.free r hr
    refine ⟨?_, (update_of_ne hrp ..).trans href', ?_⟩
    · rw [hset, mem_cons]
      exact fun hor => hor.elim hrp hmem'
    · unfold users
      rw [hholding, fiber_update]
      · exact husers'
      · exact ⟨nofun, fun heq => absurd (some.inj heq).symm hrp⟩
  case nodup =>
    rw [hset]
    exact nodup_cons.2 ⟨hmem, h.nodup⟩
  case unique =>
    rw [hset]
    intro q hq q' hq' heq
    change update s.addr p a q = update s.addr p a q' at heq
    rcases mem_cons.1 hq with rfl | hqs
    · rcases mem_cons.1 hq' with rfl | hqs'
      · rfl
      · rw [update_self, haddr q' hqs'] at heq
        exact absurd heq.symm (hnone q' hqs')
    · rcases mem_cons.1 hq' with rfl | hqs'
      · rw [update_self, haddr q hqs] at heq
        exact absurd heq (hnone q hqs)
      · rw [haddr q hqs, haddr q' hqs'] at heq
        exact h.unique q hqs q' hqs' heq

omit [DecidableEq ε] in
theorem lookup_new (s : State ε) (p : ℕ) (a : Address) (hp : p ∉ s.set) :
    (newExtendedEndpoint s p a).lookup p = s.set.find? fun q => s.addr q = a := by
  change (s.set.find? fun q => update s.addr p a q = update s.addr p a p) = _
  rw [update_self]
  apply find?_congr
  intro q hq
  have hqp : q ≠ p := by
    rintro rfl
    exact hp hq
  rw [update_of_ne hqp]

theorem Inv.dedup (h : Inv s none) (hp : s.inUse p = false)
    (hlt : (∃ q ∈ s.set, s.addr q = a) ∨ p < 2 ^ 32) :
    Inv (dedup (newExtendedEndpoint s p a) p).1 (some (dedup (newExtendedEndpoint s p a) p).2) := by
  obtain ⟨hmem, _, _⟩ := h.free p hp
  unfold EndPointValue.dedup insert
  rw [lookup_new s p a hmem]
  cases hl : s.set.find? fun q => s.addr q = a with
  | none =>
    have hnone : ∀ q ∈ s.set, s.addr q ≠ a := by
      intro q hq heq
      exact find?_eq_none.1 hl q hq (decide_eq_true heq)
    simp only [if_true]
    apply h.put hp hnone
    apply hlt.resolve_left
    rintro ⟨q, hq, heq⟩
    exact hnone q hq heq
  | some q =>
    have hq : q ∈ s.set := mem_of_find?_eq_some hl
    have hqp : q ≠ p := fun hqp => hmem (hqp ▸ hq)
    have huse : s.inUse q = true := h.inUse_of_mem hq
    have hcount : (newExtendedEndpoint s p a).refCount q = s.refCount q := update_of_ne hqp ..
    have hzero : (newExtendedEndpoint s p a).refCount q ≠ 0 := by
      rw [hcount]
      have href := (h.used q huse).2.2.2.1
      lia
    simp only [if_neg hzero, if_neg hqp]
    apply (h.incRef huse).free_slot hp
    case hp' => exact update_self ..
    case href => exact update_self ..
    case hpoints => rfl
    case hset => rfl
    case hrest =>
      intro r hr
      refine ⟨?_, ?_, update_of_ne hr .., update_of_ne hr ..⟩
      · change update (update s.inUse p true) p false r = s.inUse r
        rw [update_of_ne hr, update_of_ne hr]
      · change update (update (update s.refCount p 1) q (update s.refCount p 1 q + 1)) p 0 r =
          update s.refCount q (s.refCount q + 1) r
        rw [update_of_ne hr, update_of_ne hqp]
        obtain rfl | hrq := eq_or_ne r q
        · rw [update_self, update_self]
        · rw [update_of_ne hrq, update_of_ne hrq, update_of_ne hr]

omit [DecidableEq ε] in
theorem dedup_addr (s : State ε) (p : ℕ) (a : Address) :
    (dedup (newExtendedEndpoint s p a) p).1.addr (dedup (newExtendedEndpoint s p a) p).2 = a := by
  have hself : update s.addr p a p = a := update_self ..
  unfold dedup insert
  cases hl : (newExtendedEndpoint s p a).lookup p with
  | none =>
    simp only [if_true]
    exact hself
  | some q =>
    have heq := find?_some (p := fun q => decide (update s.addr p a q = update s.addr p a p)) hl
    by_cases hzero : (newExtendedEndpoint s p a).refCount q = 0
    · simp only [if_pos hzero, if_true]
      exact hself
    · simp only [if_neg hzero]
      split
      · exact (of_decide_eq_true heq).trans hself
      · exact (of_decide_eq_true heq).trans hself

theorem Inv.embedTo (h : Inv s (some r)) (e : ε) : Inv (embedTo s e r) none := by
  have hlt : r < 2 ^ 32 := (h.used r (h.inUse_of_holding (x := none) rfl)).2.2.1
  unfold EndPointValue.embedTo
  rw [Nat.mod_eq_of_lt hlt]
  exact (h.reset e).embed (embeds_reset s e)

theorem Inv.create (h : Inv s none) (hp : s.inUse p = false)
    (hlt : (∃ q ∈ s.set, s.addr q = a) ∨ p < 2 ^ 32) (e : ε) :
    Inv (create s e a p) none :=
  (h.dedup hp hlt).embedTo e

theorem eq_of_handle (h : w.handle = some q) : w = ⟨q, EXTENDED_ENDPOINT_PORT⟩ := by
  unfold EndPoint.handle at h
  split at h
  case isTrue hport =>
    cases h
    rw [← hport]
  case isFalse => cases h

theorem Inv.setEndpoint (h : Inv s none) (he : s.embeds e = none)
    (hw : ∀ q, w.handle = some q → s.inUse q = true) :
    Inv (setEndpoint s e w) none := by
  unfold EndPointValue.setEndpoint
  split
  case h_1 hnone => exact h.write he hnone
  case h_2 q hq =>
    have huse := hw q hq
    rw [addressResource_eq (h.used q huse).2.1, eq_of_handle hq]
    exact (h.incRef huse).embed he

/-! ## What the endpoints denote -/

theorem assigned_assign (s : State ε) (e : ε) (v : Value) : (s.assign e v).assigned e = v :=
  update_self ..

theorem value_assign (s : State ε) (e e' : ε) (v : Value) : (s.assign e v).value e' = s.value e' := rfl

def Denotes (s : State ε) : Prop :=
  ∀ e, s.points e ≠ none → s.value e = some (s.assigned e)

omit [DecidableEq ε] in
theorem decRef_same (s : State ε) (q : ℕ) :
    (decRef s q).addr = s.addr ∧ (decRef s q).known = s.known ∧ (decRef s q).points = s.points ∧
      (decRef s q).assigned = s.assigned := by
  unfold decRef
  split
  · exact ⟨rfl, rfl, rfl, rfl⟩
  · exact ⟨rfl, rfl, rfl, rfl⟩

omit [DecidableEq ε] in
theorem release_same (s : State ε) (w : EndPoint) :
    (release s w).addr = s.addr ∧ (release s w).known = s.known ∧ (release s w).points = s.points ∧
      (release s w).assigned = s.assigned := by
  unfold release
  split
  case h_1 => exact ⟨rfl, rfl, rfl, rfl⟩
  case h_2 =>
    split
    case h_1 => exact ⟨rfl, rfl, rfl, rfl⟩
    case h_2 => exact decRef_same ..

section

variable (s : State ε) (e : ε)

theorem reset_same :
    (reset s e).addr = s.addr ∧ (reset s e).known = s.known ∧ (reset s e).assigned = s.assigned ∧
      ∀ e', e' ≠ e → (reset s e).points e' = s.points e' := by
  unfold reset
  split
  case h_1 => exact ⟨rfl, rfl, rfl, fun _ _ => rfl⟩
  case h_2 w _ =>
    obtain ⟨haddr, hknown, hpoints, hassigned⟩ := release_same s w
    refine ⟨haddr, hknown, hassigned, fun e' he => ?_⟩
    exact (update_of_ne he ..).trans (congrFun hpoints e')

theorem points_reset (h : s.points e ≠ none) : (reset s e).points e = some IP_ANY := by
  unfold reset
  split
  case h_1 hnone => exact absurd hnone h
  case h_2 => exact update_self ..

theorem setEndpoint_same (w : EndPoint) :
    (setEndpoint s e w).addr = s.addr ∧ (setEndpoint s e w).known = s.known ∧
      (setEndpoint s e w).assigned = s.assigned ∧ ∀ e', e' ≠ e → (setEndpoint s e w).points e'
        = s.points e' := by
  unfold setEndpoint
  split
  case h_1 => exact ⟨rfl, rfl, rfl, fun _ he => update_of_ne he ..⟩
  case h_2 =>
    split
    case h_1 => exact ⟨rfl, rfl, rfl, fun _ he => update_of_ne he ..⟩
    case h_2 => exact ⟨rfl, rfl, rfl, fun _ he => update_of_ne he ..⟩

/-- `set_endpoint` gives the fields, when a handle is one of the pool. -/
theorem points_setEndpoint (w : EndPoint) (hw : ∀ q, w.handle = some q → s.known q = true) :
    (setEndpoint s e w).points e = some w := by
  unfold setEndpoint
  split
  case h_1 => exact update_self ..
  case h_2 q hq =>
    rw [addressResource_eq (hw q hq)]
    exact update_self ..

end

omit [DecidableEq ε] in
theorem dedup_same (s : State ε) (p : ℕ) (a : Address) :
    (dedup (newExtendedEndpoint s p a) p).1.addr = update s.addr p a ∧
      (dedup (newExtendedEndpoint s p a) p).1.known = update s.known p true ∧
      (dedup (newExtendedEndpoint s p a) p).1.assigned = s.assigned ∧
      (dedup (newExtendedEndpoint s p a) p).1.points = s.points := by
  unfold dedup insert
  cases (newExtendedEndpoint s p a).lookup p with
  | none =>
    simp only [if_true]
    exact ⟨rfl, rfl, rfl, rfl⟩
  | some q =>
    by_cases hzero : (newExtendedEndpoint s p a).refCount q = 0
    · simp only [if_pos hzero, if_true]
      exact ⟨rfl, rfl, rfl, rfl⟩
    · simp only [if_neg hzero]
      split
      · exact ⟨rfl, rfl, rfl, rfl⟩
      · exact ⟨rfl, rfl, rfl, rfl⟩

theorem create_same (s : State ε) (e : ε) (a : Address) (p : ℕ) :
    (create s e a p).addr = update s.addr p a ∧ (create s e a p).known = update s.known p true ∧
      (create s e a p).assigned = s.assigned ∧ ∀ e', e' ≠ e → (create s e a p).points e'
        = s.points e' := by
  obtain ⟨haddr, hknown, hassigned, hpoints⟩ := dedup_same s p a
  obtain ⟨haddr', hknown', hassigned', hpoints'⟩ := reset_same (dedup (newExtendedEndpoint s p a) p).1 e
  refine ⟨haddr'.trans haddr, hknown'.trans hknown, hassigned'.trans hassigned, fun e' he => ?_⟩
  exact (update_of_ne he ..).trans ((hpoints' e' he).trans (congrFun hpoints e'))

theorem value_create (h : Inv s none) (hp : s.inUse p = false)
    (hlt : (∃ q ∈ s.set, s.addr q = a) ∨ p < 2 ^ 32) (e : ε) :
    (create s e a p).value e = some (.extended a) := by
  have hinv := h.dedup hp hlt
  have haddr := dedup_addr s p a
  obtain ⟨hreset, hresetKnown, _, _⟩ := reset_same (dedup (newExtendedEndpoint s p a) p).1 e
  set r := (dedup (newExtendedEndpoint s p a) p).2
  obtain ⟨_, hknown, hr, _, _⟩ := hinv.used r (hinv.inUse_of_holding (x := none) rfl)
  have hpoint : (create s e a p).points e = some ⟨r % 2 ^ 32, EXTENDED_ENDPOINT_PORT⟩ := update_self ..
  have hcreate : (create s e a p).addressResource r = some r := by
    apply addressResource_eq
    exact (congrFun hresetKnown r).trans hknown
  have haddr' : (create s e a p).addr r = a := (congrFun hreset r).trans haddr
  unfold value
  rw [hpoint, Nat.mod_eq_of_lt hr]
  change ((create s e a p).addressResource r).map _ = _
  rw [hcreate, map_some, haddr']

omit [DecidableEq ε] in
theorem denotes_of_same {w : EndPoint}
    (h : ∀ q, w.handle = some q → s'.addr q = s.addr q ∧ s'.known q = s.known q) :
    s'.denotes w = s.denotes w := by
  unfold denotes
  split
  case h_1 q hq =>
    obtain ⟨haddr, hknown⟩ := h q hq
    unfold addressResource
    rw [hknown]
    split
    · rw [map_some, map_some, haddr]
    · rfl
  case h_2 => rfl

omit [DecidableEq ε] in
theorem Denotes.frame (hd : Denotes s) (h : Inv s none) (e : ε)
    (hpoints : ∀ e', e' ≠ e → s'.points e' = s.points e')
    (hassigned : ∀ e', e' ≠ e → s'.assigned e' = s.assigned e')
    (hslots : ∀ q, s.inUse q = true → s'.addr q = s.addr q ∧ s'.known q = s.known q)
    (he : s'.points e ≠ none → s'.value e = some (s'.assigned e)) : Denotes s' := by
  intro e' hpoint
  obtain rfl | hee := eq_or_ne e' e
  · exact he hpoint
  · rw [hpoints e' hee] at hpoint
    rw [hassigned e' hee, ← hd e' hpoint]
    unfold value
    rw [hpoints e' hee]
    cases hv : s.points e' with
    | none => exact absurd hv hpoint
    | some w =>
      apply denotes_of_same
      intro q hq
      apply hslots
      apply h.inUse_of_holding (x := some e')
      exact (embeds_eq hv).trans hq

/-! ## Steps -/

omit [DecidableEq ε] in
theorem value_of_ipv4 {w : EndPoint} (h : s.points e = some w) (hw : w.handle = none) :
    s.value e = some (.ipv4 w.ip w.port) := by
  unfold value
  rw [h]
  change s.denotes w = _
  unfold denotes
  rw [hw]

theorem handle_eq_none {w : EndPoint} (h : w.port < EXTENDED_ENDPOINT_PORT) : w.handle = none :=
  if_neg (ne_of_lt h)

theorem handle_fromIpPort (ip : ℕ) (port : ℤ) : (fromIpPort ip port).handle = none := by
  unfold fromIpPort
  split
  case isTrue => rfl
  case isFalse hne => exact if_neg hne

theorem handle_sockaddrIn (ss : List UInt8) : (sockaddrIn ss).handle = none := by
  apply handle_eq_none
  have hhi := (ss.getD 2 0).toNat_lt
  have hlo := (ss.getD 3 0).toNat_lt
  simp only [sockaddrIn, EXTENDED_ENDPOINT_PORT]
  lia

structure Good (s : State ε) : Prop where
  inv : Inv s none
  denotes : Denotes s

omit [DecidableEq ε] in
theorem Inv.assigned (h : Inv s held) (f : ε → Value) : Inv { s with assigned := f } held := by
  constructor
  case used => exact h.used
  case free => exact h.free
  case nodup => exact h.nodup
  case unique => exact h.unique

theorem Good.write (h : Good s) (he : s.embeds e = none) (hw : w.handle = none) :
    Good ((s.write e (some w)).assign e (.ipv4 w.ip w.port)) := by
  constructor
  case inv => exact (h.inv.write (v := some w) he hw).assigned _
  case denotes =>
    apply h.denotes.frame h.inv e
    case hpoints => exact fun _ he' => update_of_ne he' ..
    case hassigned => exact fun _ he' => update_of_ne he' ..
    case hslots => exact fun _ _ => ⟨rfl, rfl⟩
    case he =>
      intro _
      rw [value_of_ipv4 (w := w) (update_self ..) hw, assigned_assign]

theorem Good.reset (h : Good s) (e : ε) : Good ((reset s e).assign e (.ipv4 0 0)) := by
  obtain ⟨haddr, hknown, hassigned, hpoints⟩ := reset_same s e
  constructor
  case inv => exact (h.inv.reset e).assigned _
  case denotes =>
    apply h.denotes.frame h.inv e
    case hpoints => exact hpoints
    case hassigned => exact fun e' he' => (update_of_ne he' ..).trans (congrFun hassigned e')
    case hslots => exact fun q _ => ⟨congrFun haddr q, congrFun hknown q⟩
    case he =>
      intro hne
      have hpoint : s.points e ≠ none := by
        intro hnone
        apply hne
        unfold EndPointValue.reset
        rw [hnone]
        exact hnone
      rw [value_assign, assigned_assign, value_of_ipv4 (points_reset s e hpoint) rfl]
      rfl

theorem Good.destroy (h : Good s) (e : ε) : Good ((EndPointValue.reset s e).write e none) := by
  obtain ⟨haddr, hknown, hassigned, hpoints⟩ := reset_same s e
  constructor
  case inv => exact (h.inv.reset e).write (embeds_reset s e) rfl
  case denotes =>
    apply h.denotes.frame h.inv e
    case hpoints => exact fun e' he' => (update_of_ne he' ..).trans (hpoints e' he')
    case hassigned => exact fun e' _ => congrFun hassigned e'
    case hslots => exact fun q _ => ⟨congrFun haddr q, congrFun hknown q⟩
    case he => exact fun hne => absurd (update_self ..) hne

theorem Good.setEndpoint (h : Good s) (he : s.embeds e = none) (hrhs : s.points rhs = some w) :
    Good ((setEndpoint s e w).assign e (s.assigned rhs)) := by
  have huse : ∀ q, w.handle = some q → s.inUse q = true := by
    intro q hq
    apply h.inv.inUse_of_holding (x := some rhs)
    exact (embeds_eq hrhs).trans hq
  obtain ⟨haddr, hknown, hassigned, hpoints⟩ := setEndpoint_same s e w
  constructor
  case inv => exact (h.inv.setEndpoint he huse).assigned _
  case denotes =>
    apply h.denotes.frame h.inv e
    case hpoints => exact hpoints
    case hassigned => exact fun e' he' => (update_of_ne he' ..).trans (congrFun hassigned e')
    case hslots => exact fun q _ => ⟨congrFun haddr q, congrFun hknown q⟩
    case he =>
      intro _
      have hpoint : (EndPointValue.setEndpoint s e w).points e = some w := by
        apply points_setEndpoint
        exact fun q hq => (h.inv.used q (huse q hq)).2.1
      have hsame : (EndPointValue.setEndpoint s e w).denotes w = s.denotes w := by
        apply denotes_of_same
        exact fun q _ => ⟨congrFun haddr q, congrFun hknown q⟩
      have hvalue : (EndPointValue.setEndpoint s e w).value e = s.value rhs := by
        unfold value
        rw [hpoint, hrhs]
        exact hsame
      have hd := h.denotes rhs (by rw [hrhs]; exact nofun)
      rw [value_assign, assigned_assign]
      exact hvalue.trans hd

theorem Good.create (h : Good s) (hp : s.inUse p = false)
    (hlt : (∃ q ∈ s.set, s.addr q = a) ∨ p < 2 ^ 32) (e : ε) :
    Good ((create s e a p).assign e (.extended a)) := by
  obtain ⟨haddr, hknown, hassigned, hpoints⟩ := create_same s e a p
  constructor
  case inv => exact (h.inv.create hp hlt e).assigned _
  case denotes =>
    apply h.denotes.frame h.inv e
    case hpoints => exact hpoints
    case hassigned => exact fun e' he' => (update_of_ne he' ..).trans (congrFun hassigned e')
    case hslots =>
      intro q hq
      have hqp : q ≠ p := by
        rintro rfl
        rw [hp] at hq
        cases hq
      exact ⟨(congrFun haddr q).trans (update_of_ne hqp ..),
        (congrFun hknown q).trans (update_of_ne hqp ..)⟩
    case he =>
      intro _
      rw [value_assign, assigned_assign]
      exact value_create h.inv hp hlt e

theorem setEndpoint_assign (s : State ε) (e : ε) (w : EndPoint) (v v' : Value) :
    (setEndpoint (s.assign e v) e w).assign e v' = (setEndpoint s e w).assign e v' := by
  unfold setEndpoint
  split
  case h_1 => simp only [State.write, State.assign, update_idem]
  case h_2 q _ =>
    rw [show (s.assign e v).addressResource q = s.addressResource q from rfl]
    split
    case h_1 => simp only [State.write, State.assign, update_idem]
    case h_2 => simp only [incRef, State.count, State.write, State.assign, update_idem]

theorem Good.assign (h : Good s) (he : s.points e ≠ none) (hrhs : s.points rhs ≠ none)
    (hself : e = rhs → s.points e = some IP_ANY) : Good ((assign s e rhs).assign e (s.assigned rhs)) := by
  obtain ⟨_, _, hassigned, hpoints⟩ := reset_same s e
  have hreset := h.reset e
  set s' := (EndPointValue.reset s e).assign e (.ipv4 0 0)
  have hsame : s'.assigned rhs = s.assigned rhs := by
    obtain rfl | hee := eq_or_ne rhs e
    · have hd := h.denotes rhs he
      rw [value_of_ipv4 (hself rfl) rfl] at hd
      exact (update_self ..).trans (some.inj hd)
    · exact (update_of_ne hee ..).trans (congrFun hassigned rhs)
  simp only [EndPointValue.assign]
  split
  case h_1 hw =>
    exfalso
    obtain rfl | hee := eq_or_ne rhs e
    · rw [points_reset s rhs he] at hw
      cases hw
    · rw [hpoints rhs hee] at hw
      exact hrhs hw
  case h_2 w hw =>
    have hgood := hreset.setEndpoint (embeds_reset s e) hw
    rw [hsame, setEndpoint_assign] at hgood
    exact hgood

theorem Good.parse (h : Good s) (he : s.points e ≠ none)
    (hslot : ∀ p ∈ slot, s.inUse p = false) (hmay : MayParse s e o d slot)
    (hport : ∀ ip port, d = .done ip port → port ≤ 65535) : Good (parse s e o d slot) := by
  unfold EndPointValue.parse
  unfold MayParse at hmay
  split
  case h_1 a p => exact h.create (hslot p rfl) hmay e
  case h_2 hnone =>
    split at hmay
    case h_1 a p => exact (hnone a p rfl rfl).elim
    case h_2 =>
      cases d with
      | nothing => exact h
      | failed ip port =>
        simp only at hmay ⊢
        unfold overwrite
        split
        case h_1 => exact h
        case h_2 v hv =>
          obtain ⟨hip, hport⟩ := hmay v hv
          have hsame : s.write e (some ⟨ip, port.getD v.port⟩) = s := by
            rw [hip, hport, State.write, ← hv, update_eq_self]
          rw [hsame]
          exact h
      | done ip port =>
        simp only at hmay ⊢
        unfold overwrite
        split
        case h_1 hnone => exact absurd hnone he
        case h_2 v hv =>
          have hle := hport ip port rfl
          exact h.write (w := ⟨ip, port⟩) hmay (handle_eq_none (lt_of_le_of_lt hle (by decide)))

theorem Good.sockaddr2endpoint {ss : List UInt8} {size : ℕ} (h : Good s) (he : s.points e ≠ none)
    (hslot : ∀ p ∈ slot, s.inUse p = false)
    (hmay : isIn ss = true ∨ MayParse s e (sockaddrExtended ss size) .nothing slot) :
    Good (sockaddr2endpoint s e ss size slot) := by
  unfold EndPointValue.sockaddr2endpoint
  split
  case isTrue =>
    have hgood := (h.reset e).write (w := sockaddrIn ss) (embeds_reset s e) (handle_sockaddrIn ss)
    have hset : EndPointValue.setEndpoint (EndPointValue.reset s e) e (sockaddrIn ss) =
        (EndPointValue.reset s e).write e (some (sockaddrIn ss)) := by
      unfold EndPointValue.setEndpoint
      rw [handle_sockaddrIn]
    rw [hset]
    simp only [State.write, State.assign, update_idem] at hgood ⊢
    exact hgood
  case isFalse hin => exact h.parse he hslot (hmay.resolve_left hin) nofun

theorem Good.step (h : Good s) (hh : Heeds inetPton6 s act) : Good (step inetPton6 s act) := by
  unfold EndPointValue.step
  split
  case isFalse => exact h
  case isTrue hok =>
    obtain ⟨hpoint, hslot, hrhs⟩ := hok
    have hnew : act.constructs = true → s.embeds act.target = none := by
      intro hc
      unfold embeds
      rw [hpoint.2 hc]
      rfl
    have hold : act.constructs = false → s.points act.target ≠ none := by
      intro hc hnone
      rw [hpoint.1 hnone] at hc
      cases hc
    cases act with
    | construct e => exact h.write (w := IP_ANY) (hnew rfl) rfl
    | constructFrom e ip port => exact h.write (hnew rfl) (handle_fromIpPort ip port)
    | constructIn e ss => exact h.write (hnew rfl) (handle_sockaddrIn ss)
    | copy e rhs =>
      simp only [perform]
      split
      case h_1 => exact h
      case h_2 w hw => exact h.setEndpoint (hnew rfl) hw
    | assign e rhs => exact h.assign (hold rfl) hrhs hh
    | str2endpoint e t p =>
      apply h.parse (hold rfl) hslot hh
      exact fun ip port hd => (str2endpoint4_done hd).2.2
    | str2endpointAt e t port p =>
      apply h.parse (hold rfl) hslot hh
      exact fun ip port' hd => (str2endpointAt4_done hd).2.2
    | sockaddr2endpoint e ss size p => exact h.sockaddr2endpoint (hold rfl) hslot hh
    | reset e => exact h.reset e
    | destroy e => exact h.destroy e

theorem parse_failed (hmay : MayParse s e o d slot)
    (hnone : o = none ∨ slot = none) (hdone : ∀ ip port, d ≠ .done ip port) : parse s e o d slot = s := by
  unfold parse
  unfold MayParse at hmay
  split
  case h_1 a p =>
    rcases hnone with hnone | hnone
    · cases hnone
    · cases hnone
  case h_2 hne =>
    split at hmay
    case h_1 a p => exact (hne a p rfl rfl).elim
    case h_2 =>
      cases d with
      | nothing => rfl
      | failed ip port =>
        simp only at hmay ⊢
        unfold overwrite
        split
        case h_1 => rfl
        case h_2 v hv =>
          obtain ⟨hip, hport⟩ := hmay v hv
          rw [hip, hport, write, ← hv, update_eq_self]
      | done ip port => exact absurd rfl (hdone ip port)

theorem step_failed (hh : Heeds inetPton6 s act) (hf : Fails inetPton6 s act) :
    step inetPton6 s act = s := by
  obtain ⟨hok, hf⟩ := hf
  rw [step, if_pos hok]
  cases act with
  | str2endpoint e t p => exact parse_failed hh hf.1 hf.2
  | str2endpointAt e t port p => exact parse_failed hh hf.1 hf.2
  | sockaddr2endpoint e ss size p =>
    simp only [perform, sockaddr2endpoint]
    have hin : ¬isIn ss = true := by
      rw [hf.1]
      exact nofun
    rw [if_neg hin]
    exact parse_failed (hh.resolve_left hin) hf.2 nofun
  | construct e => exact hf.elim
  | constructFrom e ip port => exact hf.elim
  | constructIn e ss => exact hf.elim
  | copy e rhs => exact hf.elim
  | assign e rhs => exact hf.elim
  | reset e => exact hf.elim
  | destroy e => exact hf.elim

/-! ## Runs -/

section

omit [DecidableEq ε]

theorem good_start : Good (start ε) := by
  constructor
  case inv =>
    constructor
    case used => exact fun _ => nofun
    case free =>
      intro q _
      refine ⟨not_mem_nil, rfl, ?_⟩
      ext x
      cases x with
      | none => exact ⟨nofun, nofun⟩
      | some e => exact ⟨nofun, nofun⟩
    case nodup => exact nodup_nil
    case unique => exact fun _ hq => absurd hq not_mem_nil
  case denotes => exact fun _ hne => absurd rfl hne

theorem users_none (s : State ε) (q : ℕ) : s.users none q = some '' {e | s.embeds e = some q} := by
  ext x
  cases x with
  | none =>
    constructor
    · exact nofun
    · rintro ⟨_, _, hne⟩
      cases hne
  | some e =>
    rw [(Option.some_injective ε).mem_set_image]
    rfl

theorem Good.isValue (h : Good s) : IsValue s := by
  have hcard : ∀ q, (s.users none q).encard = {e | s.embeds e = some q}.encard := by
    intro q
    rw [users_none, (Option.some_injective ε).encard_image]
  constructor
  case denotes => exact h.denotes
  case counted =>
    intro q
    rw [← hcard]
    cases hq : s.inUse q with
    | true =>
      obtain ⟨_, _, _, href, husers⟩ := h.inv.used q hq
      exact ⟨Int.le_trans Int.one_nonneg href, husers⟩
    | false =>
      obtain ⟨_, href, husers⟩ := h.inv.free q hq
      rw [href, husers, Set.encard_empty]
      exact ⟨le_rfl, rfl⟩
  case released =>
    intro q hnone
    cases hq : s.inUse q with
    | false => rfl
    | true =>
      obtain ⟨_, _, _, href, husers⟩ := h.inv.used q hq
      have hempty : {e | s.embeds e = some q} = ∅ := Set.eq_empty_of_forall_notMem hnone
      rw [hcard, hempty, Set.encard_empty] at husers
      have hzero : (s.refCount q).toNat = 0 := by exact_mod_cast husers.symm
      lia

end

/-- **`EndPoint` is a value type** in every run without an assignment to itself, and where
`str2endpoint` writes the fields of an IPv4 address into no handle and does not fail then; a call
that fails leaves what the endpoints denote. -/
theorem run_isValue {as : List (Act ε)} (h : Along (step inetPton6) (Heeds inetPton6) (start ε) as) :
    IsValue (runFrom (step inetPton6) (start ε) as) ∧
      ∀ act, Heeds inetPton6 (runFrom (step inetPton6) (start ε) as) act →
        Fails inetPton6 (runFrom (step inetPton6) (start ε) as) act →
        ∀ e, (step inetPton6 (runFrom (step inetPton6) (start ε) as) act).value e =
          (runFrom (step inetPton6) (start ε) as).value e := by
  have hgood : Good (runFrom (step inetPton6) (start ε) as) :=
    h.run (fun _ _ hs hh => hs.step hh) good_start
  refine ⟨hgood.isValue, fun act hh hf e => ?_⟩
  rw [step_failed hh hf]

/-- `unix:a`, of which three endpoints are made and one is given up. -/
theorem run_isValue_unix :
    IsValue
    (runFrom (step fun _ => none) (start ℕ) [.construct 0,
    .str2endpoint 0 [117, 110, 105, 120, 58, 97] (some 5),
      .copy 1 0, .construct 2, .str2endpoint 2 [117, 110, 105, 120, 58, 97] (some 7), .assign 0 2,
      .reset 1]) :=
  (run_isValue (by decide)).1

/-- 1.2.3.4:80 is assigned to itself, it is parsed into an endpoint that is `unix:a`, and 4.3.2.1:x
is parsed. -/
theorem not_isValue :
    ¬IsValue
    (runFrom (step fun _ => none) (start Unit) [.constructFrom () 0x04030201 80, .assign () ()]) ∧
      ¬IsValue (runFrom (step fun _ => none) (start Unit) [.construct (),
        .str2endpoint () [117, 110, 105, 120, 58, 97] (some 0),
        .str2endpoint () [49, 46, 50, 46, 51, 46, 52, 58, 56, 48] (some 1)]) ∧
      ¬IsValue (runFrom (step fun _ => none) (start Unit) [.constructFrom () 0x04030201 80,
        .str2endpoint () [52, 46, 51, 46, 50, 46, 49, 58, 120] (some 0)]) := by
  refine ⟨fun h => ?_, fun h => ?_, fun h => ?_⟩
  · exact absurd (h.denotes () (by decide)) (by decide)
  · exact absurd (h.released 0 (by decide)) (by decide)
  · exact absurd (h.denotes () (by decide)) (by decide)

end Eabase.Utility.EndPointValue
