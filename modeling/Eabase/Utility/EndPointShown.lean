import Eabase.Utility.EndPointPrint

/-!
# What an endpoint is shown as

`sockaddr2endpoint` copies as many bytes as the size says into a slot that keeps
what earlier addresses left behind them, and the printers read the fields of a
whole address, and a path to its NUL. So what is shown is the address's own where
these bytes were copied. The port is shown right, but in the name of an IPv6 host
its bytes are turned round.
-/

namespace Eabase.Utility.EndPointShown

open Lib List
open Utility.EndPointValue
open Utility.EndPointPrint

/-! ## The code -/

/-- What is given to `sockaddr2endpoint`. -/
structure SocketAddress where
  ss : List UInt8
  size : ℕ
  length_ss : ss.length = SOCKADDR_STORAGE_SIZE
  two_le : 2 ≤ size
  size_le : size ≤ SOCKADDR_STORAGE_SIZE

/-- `ExtendedEndPoint::create` with an address: what becomes of the bytes of the slot. -/
def fill (a : SocketAddress) (old : List UInt8) : List UInt8 :=
  let m := a.ss.take a.size ++ old.drop a.size
  if isFamily AF_UNIX a.ss ∧ a.size = 2 then m.set 2 0 else m

/-- The slot goes back to the pool: its family is `AF_UNSPEC`. -/
def release (m : List UInt8) : List UInt8 :=
  (m.set 0 0).set 1 0

/-- The bytes that a slot may have when the pool gives it: those it was made with, and then what the
addresses left that it has held. -/
inductive Left : List UInt8 → Prop
  | made {m : List UInt8} (h : SOCKADDR_STORAGE_SIZE ≤ m.length) : Left m
  | used {m : List UInt8} (a : SocketAddress) : Left m → Left (release (fill a m))

def SameAddress (a b : SocketAddress) : Prop :=
  a.size = b.size ∧ a.ss.take a.size = b.ss.take b.size

/-- The bytes of the slot that `sockaddr2endpoint` lands in: a slot of its own, or one that has the
address already. -/
inductive Lands (a : SocketAddress) : List UInt8 → Prop
  | own {old : List UInt8} : Left old → Lands a (fill a old)
  | shared {b : SocketAddress} {old : List UInt8} : SameAddress a b → Left old → Lands a (fill b old)

/-- The fields of the endpoint, where `id` is the slot. -/
def point (a : SocketAddress) (id : ℕ) : EndPoint :=
  if isFamily AF_INET a.ss then sockaddrIn a.ss else ⟨id, EXTENDED_ENDPOINT_PORT⟩

/-- The slots, of which the one that is landed in has the bytes `m`. -/
def slots (a : SocketAddress) (m : List UInt8) : ℕ → Option Object :=
  fun _ => some ⟨m, a.size⟩

variable (inetNtop6 : List UInt8 → Text) (getnameinfo : List UInt8 → Option Text)

section

variable (a : SocketAddress) (id : ℕ) (m : List UInt8)

def str : Option Text :=
  endpoint2str inetNtop6 (slots a m) (point a id)

def host : Option Text :=
  endpoint2hostname getnameinfo (slots a m) (point a id)

/-- The port in the `sockaddr_storage` that `endpoint2sockaddr` makes. -/
def carriedPort : Option ℕ :=
  (endpoint2sockaddr (slots a m) (point a id)).map fun r => portOf r.1

end

/-! ## What it should do -/

def ShowsPort (t : Text) (port : ℕ) : Prop :=
  ∃ before, t = before ++ ':'.toUInt8 :: decimal port

/-- What is shown is a function of the address, with its port. -/
structure ByAddress (a : SocketAddress) : Prop where
  str : ∀ b m m' id id', SameAddress a b → Lands a m → Lands b m' → str inetNtop6 a id m
    = str inetNtop6 b id' m'
  host : ∀ b m m' id id', SameAddress a b → Lands a m → Lands b m' →
    host getnameinfo a id m = host getnameinfo b id' m'
  port : isFamily AF_INET a.ss = true ∨ isFamily AF_INET6 a.ss = true → ∀ m id, Lands a m →
    ∃ port, carriedPort a id m = some port ∧
      (∀ t ∈ EndPointShown.str inetNtop6 a id m, ShowsPort t port) ∧
      ∀ t ∈ EndPointShown.host getnameinfo a id m, ShowsPort t port

/-- What is read was copied, and the port is the same when it is turned round. -/
def Covered (a : SocketAddress) : Prop :=
  (isFamily AF_INET a.ss = true → 8 ≤ a.size) ∧
  (isFamily AF_INET6 a.ss = true → 28 ≤ a.size ∧ a.ss.getD 2 0 = a.ss.getD 3 0) ∧
  (isFamily AF_UNIX a.ss = true → a.size = 2 ∨ 0 ∈ (a.ss.take a.size).drop 2)

/-! ## The bytes that are copied -/

variable {inetNtop6 getnameinfo} {a b : SocketAddress} {m m' old u : List UInt8} {family : UInt8}
    {n i id id' : ℕ}

section

variable (h : m.take n = u.take n)
include h

theorem getD_congr (hi : i < n) : m.getD i 0 = u.getD i 0 := by
  have hget := congrArg (fun l => l[i]?) h
  rw [getElem?_take_of_lt hi, getElem?_take_of_lt hi] at hget
  rw [getD_eq_getElem?_getD, getD_eq_getElem?_getD, hget]

theorem take_congr (hi : i ≤ n) : m.take i = u.take i := by
  have htake := congrArg (take i) h
  rwa [take_take, take_take, min_eq_left hi] at htake

theorem isFamily_congr (hn : 2 ≤ n) : isFamily family m = isFamily family u := by
  unfold isFamily
  rw [getD_congr h (lt_of_lt_of_le Nat.zero_lt_two hn), getD_congr h (lt_of_lt_of_le Nat.one_lt_two hn)]

theorem portOf_congr (hn : 4 ≤ n) : portOf m = portOf u := by
  unfold portOf
  rw [getD_congr h (show 2 < n by lia), getD_congr h (show 3 < n by lia)]

theorem rawPort_congr (hn : 4 ≤ n) : rawPort m = rawPort u := by
  unfold rawPort
  rw [getD_congr h (show 2 < n by lia), getD_congr h (show 3 < n by lia)]

end

theorem SameAddress.take (h : SameAddress a b) : a.ss.take a.size = b.ss.take a.size := by
  rw [h.2, h.1]

theorem SameAddress.isFamily (h : SameAddress a b) : isFamily family a.ss = isFamily family b.ss :=
  isFamily_congr h.take a.two_le

theorem take_fill (a : SocketAddress) (old : List UInt8) : (fill a old).take a.size
      = a.ss.take a.size := by
  have hlen : (a.ss.take a.size).length = a.size := by
    rw [length_take, a.length_ss, min_eq_left a.size_le]
  have htake : (a.ss.take a.size ++ old.drop a.size).take a.size = a.ss.take a.size := by
    conv_lhs => arg 1; rw [← hlen]
    exact take_left
  unfold fill
  split
  case isTrue h => rw [h.2, take_set_of_le le_rfl, ← h.2, htake]
  case isFalse => exact htake

theorem Lands.take (h : Lands a m) : m.take a.size = a.ss.take a.size := by
  cases h with
  | own _ => exact take_fill a _
  | @shared b old hsame _ =>
    rw [hsame.2, hsame.1]
    exact take_fill b old

theorem Lands.unnamed (h : Lands a m) (hunix : isFamily AF_UNIX a.ss = true) (hsize : a.size = 2) :
    m.getD 2 0 = 0 := by
  have hset : ∀ l : List UInt8, (l.set 2 0).getD 2 0 = 0 := by
    intro l
    rw [getD_eq_getElem?_getD, getElem?_set_self']
    cases l[2]? with
    | none => rfl
    | some c => rfl
  cases h with
  | own _ =>
    unfold fill
    rw [if_pos ⟨hunix, hsize⟩]
    exact hset _
  | @shared b _ hsame _ =>
    have hfamily : isFamily AF_UNIX b.ss = true := hsame.isFamily.symm.trans hunix
    unfold fill
    rw [if_pos ⟨hfamily, hsame.1 ▸ hsize⟩]
    exact hset _

theorem SameAddress.slots (h : SameAddress a b) (hm : Lands a m) (hm' : Lands b m') :
    m.take a.size = m'.take a.size := by
  rw [hm.take, h.take, h.1, hm'.take]

theorem isFamily_unique {f g : UInt8} (hf : isFamily f m = true) (hg : isFamily g m = true) : f = g := by
  unfold isFamily at hf hg
  rw [Bool.and_eq_true, decide_eq_true_iff] at hf hg
  exact hf.1.symm.trans hg.1

/-! ## An IPv4 address -/

theorem portOf_lt (m : List UInt8) : portOf m < 65536 := by
  unfold portOf
  have h2 := (m.getD 2 0).toNat_lt
  have h3 := (m.getD 3 0).toNat_lt
  lia

theorem sockaddrIn_port (m : List UInt8) : (sockaddrIn m).port = portOf m := by
  unfold sockaddrIn portOf
  push_cast
  rfl

theorem sockaddrIn_congr (h : m.take n = u.take n) (hn : 8 ≤ n) : sockaddrIn m = sockaddrIn u := by
  have hip : (m.drop 4).take 4 = (u.drop 4).take 4 := by
    have h8 := congrArg (drop 4) (take_congr h hn)
    rwa [drop_take, drop_take] at h8
  unfold sockaddrIn
  rw [hip, getD_congr h (show 2 < n by lia), getD_congr h (show 3 < n by lia)]

section

variable (h : isFamily AF_INET a.ss = true)
include h

theorem point_in : point a id = sockaddrIn a.ss := by
  unfold point
  rw [if_pos h]

theorem str_in :
    str inetNtop6 a id m = some (inetNtop4 (sockaddrIn a.ss).ip ++
      ':'.toUInt8 :: decimal (portOf a.ss)) := by
  unfold str endpoint2str
  rw [point_in h, handle_sockaddrIn, sockaddrIn_port, showInt_natCast]

theorem host_in :
    host getnameinfo a id m = (ip2hostname getnameinfo (sockaddrIn a.ss).ip).map
      fun host => host ++ ':'.toUInt8 :: decimal (portOf a.ss) := by
  unfold host endpoint2hostname
  rw [point_in h, handle_sockaddrIn, sockaddrIn_port, showInt_natCast]

end

theorem portOf_sockaddrIn4 {ip port : ℕ} (hport : port < 65536) (rest : List UInt8) :
    portOf (sockaddrIn4 ip port ++ rest) = port := by
  have hmod : ((port : ℤ) % 65536).toNat = port := by lia
  have hbytes : portOf (sockaddrIn4 ip port ++ rest) =
      ((((port : ℤ) % 65536).toNat / 256).toUInt8).toNat * 256
        + (((port : ℤ) % 65536).toNat.toUInt8).toNat := rfl
  have hbyte : ∀ n : ℕ, n.toUInt8.toNat = n % 256 := fun _ => UInt8.toNat_ofNat'
  rw [hbytes, hmod, hbyte, hbyte]
  lia

theorem carriedPort_in (h : isFamily AF_INET a.ss = true) : carriedPort a id m = some (portOf a.ss) := by
  unfold carriedPort endpoint2sockaddr
  rw [point_in h, handle_sockaddrIn, sockaddrIn_port]
  exact congrArg some (portOf_sockaddrIn4 (portOf_lt a.ss) _)

theorem byAddress_in (h : isFamily AF_INET a.ss = true) (hsize : 8 ≤ a.size) :
    ByAddress inetNtop6 getnameinfo a := by
  constructor
  case str =>
    intro b m m' id id' hsame _ _
    rw [str_in h, str_in (hsame.isFamily.symm.trans h), sockaddrIn_congr hsame.take hsize,
      portOf_congr hsame.take (by lia)]
  case host =>
    intro b m m' id id' hsame _ _
    rw [host_in h, host_in (hsame.isFamily.symm.trans h), sockaddrIn_congr hsame.take hsize,
      portOf_congr hsame.take (by lia)]
  case port =>
    intro _ m id _
    refine ⟨portOf a.ss, carriedPort_in h, fun t ht => ?_, fun t ht => ?_⟩
    · rw [str_in h, Option.mem_some_iff] at ht
      exact ⟨_, ht.symm⟩
    · rw [host_in h, Option.mem_map] at ht
      obtain ⟨name, -, ht⟩ := ht
      exact ⟨name, ht.symm⟩

/-! ## An extended address -/

theorem handle_point (h : isFamily AF_INET a.ss = false) : (point a id).handle = some id := by
  unfold point
  rw [h]
  rfl

theorem isFamily_in_of {f : UInt8} (h : isFamily f a.ss = true) (hf : f ≠ AF_INET) :
    isFamily AF_INET a.ss = false := by
  rw [Bool.eq_false_iff]
  exact fun hin => hf (isFamily_unique h hin)

theorem str_extended (h : isFamily AF_INET a.ss = false) : str inetNtop6 a id m
      = toStr inetNtop6 ⟨m, a.size⟩ := by
  unfold str endpoint2str
  rw [handle_point h]
  rfl

theorem host_extended (h : isFamily AF_INET a.ss = false) :
    host getnameinfo a id m = toHostname getnameinfo ⟨m, a.size⟩ := by
  unfold host endpoint2hostname
  rw [handle_point h]
  rfl

theorem Lands.isFamily (h : Lands a m) : isFamily family m = isFamily family a.ss :=
  isFamily_congr h.take a.two_le

section In6

variable (h : isFamily AF_INET6 a.ss = true)

include h

theorem isFamily_unix_in6 (hm : Lands a m) : isFamily AF_UNIX m = false ∧ isFamily AF_INET6 m = true := by
  rw [hm.isFamily, hm.isFamily]
  refine ⟨?_, h⟩
  rw [Bool.eq_false_iff]
  exact fun hunix => absurd (isFamily_unique h hunix) (by decide)

theorem str_in6 (hm : Lands a m) :
    str inetNtop6 a id m
      = some (snprintf END_POINT_STR_SIZE ('['.toUInt8 :: inetNtop6 ((m.drop 8).take 16) ++
      [']'.toUInt8, ':'.toUInt8] ++ decimal (portOf m))) := by
  rw [str_extended (isFamily_in_of h (by decide))]
  unfold toStr
  rw [(isFamily_unix_in6 h hm).1, (isFamily_unix_in6 h hm).2, showInt_natCast]
  rfl

theorem host_in6 (hm : Lands a m) :
    host getnameinfo a id m = (getnameinfo (m.take 28)).map fun host => host ++
    ':'.toUInt8 :: decimal (rawPort m) := by
  rw [host_extended (isFamily_in_of h (by decide))]
  unfold toHostname
  rw [(isFamily_unix_in6 h hm).1, (isFamily_unix_in6 h hm).2, showInt_natCast]
  rfl

theorem carriedPort_in6 (hm : Lands a m) (hsize : 4 ≤ a.size) : carriedPort a id m = some (portOf m) := by
  have hlen : 4 ≤ (m.take a.size).length := by
    rw [hm.take, length_take, a.length_ss]
    exact le_min hsize (hsize.trans a.size_le)
  have htake : (m.take a.size ++ replicate (SOCKADDR_STORAGE_SIZE - a.size) 0).take 4 = m.take 4 := by
    rw [take_append_of_le_length hlen, take_take, min_eq_left hsize]
  unfold carriedPort endpoint2sockaddr
  rw [handle_point (isFamily_in_of h (by decide))]
  exact congrArg some (portOf_congr htake le_rfl)

theorem str_in6_port (hntop : ∀ addr, (inetNtop6 addr).length ≤ 45) (hm : Lands a m) :
    ∀ t ∈ str inetNtop6 a id m, ShowsPort t (portOf m) := by
  intro t ht
  rw [str_in6 h hm, Option.mem_some_iff] at ht
  have hport : (decimal (portOf m)).length ≤ 5 :=
    (length_decimal_le (by decide)).2 ((portOf_lt m).trans (by decide))
  refine ⟨'['.toUInt8 :: inetNtop6 ((m.drop 8).take 16) ++ [']'.toUInt8], ?_⟩
  have haddr := hntop ((m.drop 8).take 16)
  rw [← ht, snprintf, take_of_length_le]
  · rw [append_assoc, append_assoc]
    rfl
  · simp only [length_append, length_cons, length_nil, END_POINT_STR_SIZE, UDS_PATH_SIZE]
    lia

theorem byAddress_in6 (hntop : ∀ addr, (inetNtop6 addr).length ≤ 45) (hsize : 28 ≤ a.size)
    (hport : a.ss.getD 2 0 = a.ss.getD 3 0) : ByAddress inetNtop6 getnameinfo a := by
  have hraw : ∀ {m}, Lands a m → rawPort m = portOf m := by
    intro m hm
    have h2 : m.getD 2 0 = a.ss.getD 2 0 := getD_congr hm.take (by lia)
    have h3 : m.getD 3 0 = a.ss.getD 3 0 := getD_congr hm.take (by lia)
    unfold rawPort portOf
    rw [h2, h3, hport]
    lia
  constructor
  case str =>
    intro b m m' id id' hsame hm hm'
    have htake := hsame.slots hm hm'
    have haddr : (m.drop 8).take 16 = (m'.drop 8).take 16 := by
      have h24 := congrArg (drop 8) (take_congr htake (show 24 ≤ a.size by lia))
      rwa [drop_take, drop_take] at h24
    rw [str_in6 h hm, str_in6 (hsame.isFamily.symm.trans h) hm', haddr, portOf_congr htake (by lia)]
  case host =>
    intro b m m' id id' hsame hm hm'
    have htake := hsame.slots hm hm'
    rw [host_in6 h hm, host_in6 (hsame.isFamily.symm.trans h) hm', take_congr htake hsize,
      rawPort_congr htake (by lia)]
  case port =>
    intro _ m id hm
    refine ⟨portOf m, carriedPort_in6 h hm (by lia), str_in6_port h hntop hm, fun t ht => ?_⟩
    rw [host_in6 h hm, Option.mem_map] at ht
    obtain ⟨name, -, ht⟩ := ht
    exact ⟨name, by rw [← hraw hm]; exact ht.symm⟩

end In6

/-! ## A unix socket -/

section Unix

variable (h : isFamily AF_UNIX a.ss = true)

include h

theorem str_unix (hm : Lands a m) :
    str inetNtop6 a id m = some (snprintf END_POINT_STR_SIZE (unixPrefix ++ cstr (m.drop 2))) := by
  rw [str_extended (isFamily_in_of h (by decide))]
  exact if_pos (hm.isFamily.trans h)

theorem host_unix (hm : Lands a m) : host getnameinfo a id m = some (unixPrefix ++ cstr (m.drop 2)) := by
  rw [host_extended (isFamily_in_of h (by decide))]
  exact if_pos (hm.isFamily.trans h)

omit h in
theorem cstr_append_of_mem (hzero : 0 ∈ u) (m : List UInt8) : cstr (u ++ m) = cstr u := by
  induction u with
  | nil => exact absurd hzero not_mem_nil
  | cons c u ih =>
    unfold cstr at ih ⊢
    rw [cons_append, takeWhile_cons, takeWhile_cons]
    split
    case isTrue hc =>
      rw [ih ((mem_cons.1 hzero).resolve_left fun heq => absurd heq.symm (of_decide_eq_true hc))]
    case isFalse => rfl

theorem cstr_unix (hm : Lands a m) (hpath : a.size = 2 ∨ 0 ∈ (a.ss.take a.size).drop 2) :
    cstr (m.drop 2) = if a.size = 2 then [] else cstr ((a.ss.take a.size).drop 2) := by
  split
  case isTrue hsize =>
    have hfirst := hm.unnamed h hsize
    rcases hdrop : m.drop 2 with - | ⟨c, u⟩
    · rfl
    · have hc : m.getD 2 0 = c := by
        rw [getD_eq_getElem?_getD, ← head?_drop, hdrop]
        rfl
      rw [hfirst] at hc
      rw [← hc]
      rfl
  case isFalse hsize =>
    have hzero := hpath.resolve_left hsize
    have hsplit : m.drop 2 = (a.ss.take a.size).drop 2 ++ m.drop a.size := by
      have hlen : (a.ss.take a.size).length = a.size := by
        rw [length_take, a.length_ss, min_eq_left a.size_le]
      rw [← drop_append_of_le_length (by rw [hlen]; exact a.two_le), ← hm.take, take_append_drop]
    rw [hsplit, cstr_append_of_mem hzero]

theorem byAddress_unix (hpath : a.size = 2 ∨ 0 ∈ (a.ss.take a.size).drop 2) :
    ByAddress inetNtop6 getnameinfo a := by
  have hsame_cstr : ∀ {b m m'}, SameAddress a b → Lands a m → Lands b m' →
      cstr (m.drop 2) = cstr (m'.drop 2) := by
    intro b m m' hsame hm hm'
    have hpath' : b.size = 2 ∨ 0 ∈ (b.ss.take b.size).drop 2 := by
      rw [← hsame.1, ← hsame.take]
      exact hpath
    rw [cstr_unix h hm hpath, cstr_unix (hsame.isFamily.symm.trans h) hm' hpath', hsame.2, hsame.1]
  constructor
  case str =>
    intro b m m' id id' hsame hm hm'
    rw [str_unix h hm, str_unix (hsame.isFamily.symm.trans h) hm', hsame_cstr hsame hm hm']
  case host =>
    intro b m m' id id' hsame hm hm'
    rw [host_unix h hm, host_unix (hsame.isFamily.symm.trans h) hm', hsame_cstr hsame hm hm']
  case port =>
    rintro (hin | hin6)
    · exact absurd (isFamily_unique h hin) (by decide)
    · exact absurd (isFamily_unique h hin6) (by decide)

end Unix

/-! ## When exactly it is a function of the address -/

theorem four_bytes (h : 8 ≤ m.length) :
    (m.drop 4).take 4 = [m.getD 4 0, m.getD 5 0, m.getD 6 0, m.getD 7 0] :=
  match m, h with
  | _ :: _ :: _ :: _ :: _ :: _ :: _ :: _ :: _, _ => rfl

theorem sockaddrIn_ip (h : 8 ≤ m.length) :
    (sockaddrIn m).ip = (m.getD 4 0).toNat + 256 * ((m.getD 5 0).toNat + 256 * ((m.getD 6 0).toNat +
      256 * (m.getD 7 0).toNat)) := by
  unfold sockaddrIn
  rw [four_bytes h]
  rfl

theorem sockaddrIn_ip_lt (h : 8 ≤ m.length) : (sockaddrIn m).ip < 2 ^ 32 := by
  have h4 := (m.getD 4 0).toNat_lt
  have h5 := (m.getD 5 0).toNat_lt
  have h6 := (m.getD 6 0).toNat_lt
  have h7 := (m.getD 7 0).toNat_lt
  rw [sockaddrIn_ip h]
  lia

theorem inetNtop4_inj {ip ip' : ℕ} {t t' : Text} (hip : ip < 2 ^ 32) (hip' : ip' < 2 ^ 32)
    (h : inetNtop4 ip ++ ':'.toUInt8 :: t = inetNtop4 ip' ++ ':'.toUInt8 :: t') : ip = ip' := by
  have hparts : ∀ {ip t}, ip < 2 ^ 32 →
      EndPointGrammar.Parts (inetNtop4 ip ++ ':'.toUInt8 :: t) (inetNtop4 ip) t :=
    fun hip => ⟨rfl, fun hmem => (EndPointGrammar.inetPton4_chars (inetPton4_inetNtop4 hip) _ hmem).2 rfl⟩
  have hsame := ((hparts hip).unique (h ▸ hparts hip')).1
  have hread := inetPton4_inetNtop4 hip
  rw [hsame, inetPton4_inetNtop4 hip'] at hread
  exact (Option.some.inj hread).symm

theorem showsPort_unique {before : Text} {p q : ℕ}
    (h : ShowsPort (before ++ ':'.toUInt8 :: decimal p) q) : p = q := by
  obtain ⟨before', hq⟩ := h
  have hparts : ∀ (x : Text) (p : ℕ),
      EndPointGrammar.Parts (x ++ ':'.toUInt8 :: decimal p).reverse (decimal p).reverse x.reverse := by
    intro x p
    constructor
    · rw [reverse_append, reverse_cons, append_assoc]
      rfl
    · rw [mem_reverse]
      intro hmem
      exact absurd (isDecimal_of_mem_decimal hmem) (by decide)
  have hsame := ((hparts before p).unique (hq ▸ hparts before' q)).1
  exact decimal_injective (reverse_injective hsame)

theorem drop_fill (hset : ¬(isFamily AF_UNIX a.ss = true ∧ a.size = 2)) (old : List UInt8) :
    (fill a old).drop a.size = old.drop a.size := by
  have hlen : (a.ss.take a.size).length = a.size := by
    rw [length_take, a.length_ss, min_eq_left a.size_le]
  unfold fill
  rw [if_neg hset]
  conv_lhs => arg 1; rw [← hlen]
  exact drop_left

theorem made_replicate (c : UInt8) : Left (replicate 256 c) :=
  .made (by rw [length_replicate]; decide)

theorem size_of_byAddress_in (h : ByAddress inetNtop6 getnameinfo a)
    (hin : isFamily AF_INET a.ss = true) :
    8 ≤ a.size := by
  by_contra hsmall
  -- The last byte of the address is another one.
  have hlen : (a.ss.set 7 (a.ss.getD 7 0 + 1)).length = SOCKADDR_STORAGE_SIZE := by
    rw [length_set]
    exact a.length_ss
  have hsame : SameAddress a ⟨a.ss.set 7 (a.ss.getD 7 0 + 1), a.size, hlen, a.two_le, a.size_le⟩ :=
    ⟨rfl, (take_set_of_le (by lia)).symm⟩
  have htext := h.str _ _ _ 0 0 hsame (.own (made_replicate 0)) (.own (made_replicate 0))
  rw [str_in hin, str_in (hsame.isFamily.symm.trans hin)] at htext
  have h8 : 8 ≤ a.ss.length := by rw [a.length_ss]; decide
  have h8' : 8 ≤ (a.ss.set 7 (a.ss.getD 7 0 + 1)).length := by rw [hlen]; decide
  have hip := inetNtop4_inj (sockaddrIn_ip_lt h8) (sockaddrIn_ip_lt h8') (Option.some.inj htext)
  have hget : ∀ i, i < 7 → (a.ss.set 7 (a.ss.getD 7 0 + 1)).getD i 0 = a.ss.getD i 0 := fun i hi =>
    getD_congr (take_set_of_le le_rfl) hi
  have hlast : (a.ss.set 7 (a.ss.getD 7 0 + 1)).getD 7 0 = a.ss.getD 7 0 + 1 := by
    rw [getD_eq_getElem?_getD, getElem?_set_self (by lia)]
    rfl
  rw [sockaddrIn_ip h8, sockaddrIn_ip h8', hget 4 (by decide), hget 5 (by decide),
    hget 6 (by decide), hlast] at hip
  have heq : (a.ss.getD 7 0).toNat = (a.ss.getD 7 0 + 1).toNat := by lia
  rw [UInt8.toNat_add] at heq
  have hlt := (a.ss.getD 7 0).toNat_lt
  have hone : (1 : UInt8).toNat = 1 := rfl
  lia

section

variable (h : ∀ getnameinfo, ByAddress inetNtop6 getnameinfo a)
    (hin6 : isFamily AF_INET6 a.ss = true)
include h hin6

theorem size_of_byAddress_in6 : 28 ≤ a.size := by
  by_contra hsmall
  have hset : ¬(isFamily AF_UNIX a.ss = true ∧ a.size = 2) :=
    fun hand => absurd (isFamily_unique hand.1 hin6) (by decide)
  have hbyte : ∀ c : UInt8, ((fill a (replicate 256 c)).take 28).getD 27 0 = c := by
    intro c
    have hdrop := congrArg (fun l => l[27 - a.size]?) (drop_fill hset (replicate 256 c))
    rw [getElem?_drop, getElem?_drop, show a.size + (27 - a.size) = 27 by lia] at hdrop
    rw [getD_eq_getElem?_getD, getElem?_take_of_lt (by decide), hdrop,
      getElem?_replicate_of_lt (by decide)]
    rfl
  -- Only an address that ends with a zero has a name.
  have htext := (h fun u => if u.getD 27 0 = 0 then some [97] else none).host a _ _ 0 0 ⟨rfl, rfl⟩
    (.own (made_replicate 0)) (.own (made_replicate 1))
  rw [host_in6 hin6 (.own (made_replicate 0)), host_in6 hin6 (.own (made_replicate 1)), hbyte,
    hbyte, if_pos rfl,
    if_neg (by decide)] at htext
  exact absurd htext nofun

theorem port_of_byAddress_in6 : a.ss.getD 2 0 = a.ss.getD 3 0 := by
  have hsize := size_of_byAddress_in6 h hin6
  have hm : Lands a (fill a (replicate 256 0)) := .own (made_replicate 0)
  obtain ⟨port, hcarried, -, hshows⟩ := (h fun _ => some [97]).port (.inr hin6) _ 0 hm
  rw [carriedPort_in6 hin6 hm (by lia)] at hcarried
  have htext := hshows _ (by rw [host_in6 hin6 hm]; rfl)
  have hsame := showsPort_unique htext
  rw [← Option.some.inj hcarried, portOf_congr hm.take (by lia), rawPort_congr hm.take (by lia)] at hsame
  unfold portOf rawPort at hsame
  have h2 := (a.ss.getD 2 0).toNat_lt
  have h3 := (a.ss.getD 3 0).toNat_lt
  apply UInt8.toNat_inj.1
  lia

end

theorem path_of_byAddress_unix (h : ByAddress inetNtop6 getnameinfo a)
    (hunix : isFamily AF_UNIX a.ss = true) :
    a.size = 2 ∨ 0 ∈ (a.ss.take a.size).drop 2 := by
  by_contra hopen
  rw [not_or] at hopen
  obtain ⟨hsize, hzero⟩ := hopen
  have hset : ¬(isFamily AF_UNIX a.ss = true ∧ a.size = 2) := fun hand => hsize hand.2
  have hpath : ∀ c : UInt8, cstr ((fill a (replicate 256 c)).drop 2) =
      (a.ss.take a.size).drop 2 ++ cstr (replicate (256 - a.size) c) := by
    intro c
    have hlen : (a.ss.take a.size).length = a.size := by
      rw [length_take, a.length_ss, min_eq_left a.size_le]
    have hsplit : (fill a (replicate 256 c)).drop 2 =
        (a.ss.take a.size).drop 2 ++ replicate (256 - a.size) c := by
      rw [← drop_replicate, ← drop_fill hset, ← drop_append_of_le_length (by rw [hlen]; exact a.two_le),
        ← take_fill a (replicate 256 c), take_append_drop]
    rw [hsplit]
    exact takeWhile_append_of_pos fun d hd => decide_eq_true fun heq => hzero (heq ▸ hd)
  have htext := h.host a _ _ 0 0 ⟨rfl, rfl⟩ (.own (made_replicate 0)) (.own (made_replicate 1))
  rw [host_unix hunix (.own (made_replicate 0)), host_unix hunix (.own (made_replicate 1)), hpath,
    hpath] at htext
  have hends := append_cancel_left (append_cancel_left (Option.some.inj htext))
  obtain ⟨k, hk⟩ : ∃ k, 256 - a.size = k + 1 := by
    have hle := a.size_le
    unfold SOCKADDR_STORAGE_SIZE at hle
    exact ⟨255 - a.size, by lia⟩
  rw [hk, replicate_succ, replicate_succ] at hends
  exact absurd hends nofun

/-- **What an endpoint is shown as depends on its address only**, whatever function `getnameinfo`
is, exactly where what is read was copied and an IPv6 port is the same when its bytes are turned
round. -/
theorem byAddress_iff (hfamily : isFamily AF_INET a.ss = true ∨ isFamily AF_INET6 a.ss = true ∨
      isFamily AF_UNIX a.ss = true)
    (hntop : ∀ addr, (inetNtop6 addr).length ≤ 45) :
    (∀ getnameinfo, ByAddress inetNtop6 getnameinfo a) ↔ Covered a := by
  constructor
  · intro h
    exact ⟨size_of_byAddress_in (h fun _ => none),
      fun hin6 => ⟨size_of_byAddress_in6 h hin6, port_of_byAddress_in6 h hin6⟩,
      path_of_byAddress_unix (h fun _ => none)⟩
  · rintro ⟨hin, hin6, hunix⟩ getnameinfo
    rcases hfamily with h | h | h
    · exact byAddress_in h (hin h)
    · exact byAddress_in6 h hntop (hin6 h).1 (hin6 h).2
    · exact byAddress_unix h (hunix h)

/-- `[::1]:257`. -/
theorem byAddress_iff_loopback :
    (∀ getnameinfo, ByAddress (fun _ => [58, 58, 49]) getnameinfo
      ⟨[10, 0, 1, 1] ++ List.replicate 19 0 ++ [1] ++ List.replicate 104 0, 28, rfl,
        by decide, by decide⟩) ↔
    Covered ⟨[10, 0, 1, 1] ++ List.replicate 19 0 ++ [1] ++ List.replicate 104 0, 28, rfl,
      by decide, by decide⟩ :=
  byAddress_iff (.inr (.inl (by decide))) fun _ => by decide

/-- The name of `[::]:80` ends with 20480. And the path `ab`, without a NUL, in a slot that held the
path `xyz`. -/
theorem not_byAddress :
    (¬∀ getnameinfo, ByAddress (fun _ => [58, 58]) getnameinfo
      ⟨[10, 0, 0, 80] ++ List.replicate 124 0, 28, rfl, by decide, by decide⟩) ∧
    ∃ (a xyz : SocketAddress) (m : List UInt8), Lands a (fill a m) ∧
    Lands a (fill a (release (fill xyz m))) ∧
      isFamily AF_UNIX a.ss = true ∧ a.ss.take a.size = [1, 0, 97, 98] ∧
      str (fun _ => []) a 0 (fill a m) = some (unixPrefix ++ [97, 98]) ∧
      str (fun _ => []) a 0 (fill a (release (fill xyz m))) = some (unixPrefix ++ [97, 98, 122]) := by
  have hmade : Left (replicate 128 0) := .made le_rfl
  refine ⟨fun h => absurd (port_of_byAddress_in6 h (by decide)) (by decide),
    ⟨[1, 0, 97, 98] ++ replicate 124 0, 4, rfl, by decide, by decide⟩,
    ⟨[1, 0, 120, 121, 122] ++ replicate 123 0, 6, rfl, by decide, by decide⟩, replicate 128 0, .own hmade,
    .own (.used _ hmade), ?_⟩
  decide

end Eabase.Utility.EndPointShown
