import Mathlib.Tactic.Linarith
import Mathlib.Data.List.Basic

/-!
# EndPointText

What `ExtendedEndPoint::create` and `str2endpoint` read from a text. A text is
the bytes of a C string, without the last one. `inet_pton` for IPv6 is a
parameter: it gives the bytes of the address.
-/

namespace Eabase.Utility.EndPointValue

abbrev Text := List UInt8

/-- The bytes of a `sockaddr` that count, as many as `_socklen` says. -/
abbrev Address := List UInt8

def EXTENDED_ENDPOINT_PORT : ℤ := 123456789

def INET6_ADDRSTRLEN : ℕ := 46

/-- `sizeof(sockaddr_un::sun_path)`. -/
def UDS_PATH_SIZE : ℕ := 108

def AF_UNIX : UInt8 := 1

def AF_INET : UInt8 := 2

def AF_INET6 : UInt8 := 10

/-! ## The C library -/

def isspace (c : UInt8) : Bool := c == 32 || 9 ≤ c && c ≤ 13

def isdigit (c : UInt8) : Bool := 48 ≤ c && c ≤ 57

/-- The number that the digits are, after `n`. -/
def digits (n : ℕ) : Text → ℕ
  | [] => n
  | c :: t => digits (10 * n + (c.toNat - 48)) t

/-- `strtol` with base 10: the number, and where it ends, which is the start when there is none. -/
def strtol (t : Text) : ℤ × Text :=
  let u := t.dropWhile isspace
  let signed := match u with
    | c :: v => if c = '-'.toUInt8 then (true, v) else if c = '+'.toUInt8 then (false, v) else (false, u)
    | [] => (false, u)
  let n : ℤ := digits 0 (signed.2.takeWhile isdigit)
  if signed.2.takeWhile isdigit = [] then (0, t)
  else (max (-2 ^ 63) (min (2 ^ 63 - 1) (if signed.1 then -n else n)), signed.2.dropWhile isdigit)

/-- A `long` assigned to an `int`. -/
def toInt (v : ℤ) : ℤ := v.bmod (2 ^ 32)

/-- The loop of `inet_pton` for IPv4, with the numbers that are read and the one that is being
read. -/
def inetPtonLoop : Text → List ℕ → Option ℕ → Option (List ℕ)
  | [], read, some n => if read.length = 3 then some (read ++ [n]) else none
  | [], _, none => none
  | c :: t, read, cur =>
    if isdigit c then
      match cur with
      | none => inetPtonLoop t read (some (c.toNat - 48))
      | some n =>
        if n = 0 ∨ 255 < 10 * n + (c.toNat - 48) then none
        else inetPtonLoop t read (some (10 * n + (c.toNat - 48)))
    else if c = '.'.toUInt8 then
      match cur with
      | none => none
      | some n => if read.length = 3 then none else inetPtonLoop t (read ++ [n]) none
    else none

/-- `s_addr`, whose bytes are in network order. -/
def sAddr : List ℕ → ℕ
  | [] => 0
  | n :: ns => n + 256 * sAddr ns

/-- `inet_pton(AF_INET)`. -/
def inetPton4 (t : Text) : Option ℕ :=
  (inetPtonLoop t [] none).map sAddr

/-! ## What is read -/

/-- `StringPiece::trim_spaces`. -/
def trimSpaces (t : Text) : Text :=
  ((t.dropWhile isspace).reverse.dropWhile isspace).reverse

/-- `unix:`. -/
def unixPrefix : Text := [117, 110, 105, 120, 58]

/-- The `sockaddr_in6` with this port and address. -/
def sockaddrIn6 (port : ℕ) (addr : List UInt8) : Address :=
  [AF_INET6, 0, (port / 256).toUInt8, port.toUInt8, 0, 0, 0, 0] ++ addr ++ [0, 0, 0, 0]

/-- The `sockaddr_un` with this path. -/
def sockaddrUn (path : Text) : Address :=
  [AF_UNIX, 0] ++ path ++ [0]

/-- The address for `ExtendedEndPoint::create` with a text and a port. -/
def createAt (inetPton6 : Text → Option (List UInt8)) (t : Text) (port : ℤ) : Option Address :=
  let sp := trimSpaces t
  if sp.head? = some '['.toUInt8 ∧ 0 ≤ port ∧ port ≤ 65535 then
    if sp.getLast? ≠ some ']'.toUInt8 ∨ sp.length = 2 ∨ INET6_ADDRSTRLEN ≤ sp.length - 2 then none
    else (inetPton6 ((sp.drop 1).take (sp.length - 2))).map (sockaddrIn6 port.toNat)
  else if unixPrefix.isPrefixOf sp then
    let path := sp.drop 5
    if path = [] ∨ UDS_PATH_SIZE ≤ path.length then none else some (sockaddrUn path)
  else none

/-- The address for `ExtendedEndPoint::create` with a text. -/
def createText (inetPton6 : Text → Option (List UInt8)) (t : Text) : Option Address :=
  let sp := trimSpaces t
  if sp.head? = some '['.toUInt8 then
    match sp.findIdx? (· = ']'.toUInt8) with
    | none => none
    | some i =>
      if i = 1 ∨ sp.length ≤ i + 1 then none
      else
        match sp.drop (i + 1) with
        | [] => none
        | colon :: port =>
          if port = [] ∨ colon ≠ ':'.toUInt8 ∨ 5 < port.length then none
          else if (strtol port).2 = [] then createAt inetPton6 (sp.take (i + 1)) (toInt (strtol port).1)
          else none
  else if unixPrefix.isPrefixOf sp then createAt inetPton6 sp EXTENDED_ENDPOINT_PORT
  else none

def str2ip (t : Text) : Option ℕ :=
  inetPton4 (t.dropWhile isspace)

/-- What a `str2endpoint` that finds no extended endpoint does to the fields: nothing, or it fails
with the ip written and maybe the port, or it succeeds. -/
inductive Written where
  | nothing
  | failed (ip : ℕ) (port : Option ℤ)
  | done (ip : ℕ) (port : ℤ)
  deriving DecidableEq

/-- `str2endpoint` with a text, after `create` has failed. -/
def str2endpoint4 (t : Text) : Written :=
  let host := t.takeWhile (· ≠ ':'.toUInt8)
  match t.dropWhile (· ≠ ':'.toUInt8) with
  | [] => .nothing
  | _ :: rest =>
    if 64 ≤ host.length then .nothing
    else
      match str2ip host with
      | none => .nothing
      | some ip =>
        let port := toInt (strtol rest).1
        let tail := (strtol rest).2
        -- The character after the number is not looked at.
        if tail = rest ∨ (tail.drop 1).dropWhile isspace ≠ [] then .failed ip (some port)
        else if port < 0 ∨ 65535 < port then .failed ip (some port)
        else .done ip port

/-- `str2endpoint` with a text and a port, after `create` has failed. -/
def str2endpointAt4 (t : Text) (port : ℤ) : Written :=
  match str2ip t with
  | none => .nothing
  | some ip => if port < 0 ∨ 65535 < port then .failed ip none else .done ip port

/-! ## What is accepted is well formed -/

theorem digit_le {c : UInt8} (h : isdigit c = true) : c.toNat - 48 ≤ 9 := by
  have hc : c.toNat ≤ 57 := by
    simp only [isdigit, Bool.and_eq_true, decide_eq_true_eq] at h
    exact h.2
  lia

variable {t : Text} {ns : List ℕ}

theorem inetPtonLoop_byte {read : List ℕ} {cur : Option ℕ} (h : inetPtonLoop t read cur = some ns)
    (hread : ∀ n ∈ read, n ≤ 255) (hcur : ∀ n, cur = some n → n ≤ 255) :
    ns.length = 4 ∧ ∀ n ∈ ns, n ≤ 255 := by
  induction t generalizing read cur with
  | nil =>
    cases cur with
    | none => cases h
    | some n =>
      simp only [inetPtonLoop] at h
      split at h
      case isTrue hlen =>
        cases h
        constructor
        · rw [List.length_append, hlen]
          rfl
        · intro m hm
          rcases List.mem_append.1 hm with hm | hm
          · exact hread m hm
          · rw [List.mem_singleton.1 hm]
            exact hcur n rfl
      case isFalse => cases h
  | cons c t ih =>
    simp only [inetPtonLoop] at h
    split at h
    case isTrue hdigit =>
      have hd := digit_le hdigit
      cases cur with
      | none =>
        apply ih h hread
        intro n hn
        cases hn
        exact le_trans hd (by decide)
      | some n =>
        simp only at h
        split at h
        case isTrue => cases h
        case isFalse hbig =>
          apply ih h hread
          intro m hm
          cases hm
          exact not_lt.1 fun hlt => hbig (.inr hlt)
    case isFalse =>
      split at h
      case isTrue =>
        cases cur with
        | none => cases h
        | some n =>
          simp only at h
          split at h
          case isTrue => cases h
          case isFalse =>
            apply ih h
            · intro m hm
              rcases List.mem_append.1 hm with hm | hm
              · exact hread m hm
              · rw [List.mem_singleton.1 hm]
                exact hcur n rfl
            · exact nofun
      case isFalse => cases h

theorem sAddr_lt (h : ∀ n ∈ ns, n ≤ 255) : sAddr ns < 256 ^ ns.length := by
  induction ns with
  | nil => exact one_pos
  | cons n ns ih =>
    have hn : n ≤ 255 := h n List.mem_cons_self
    have hns := ih fun m hm => h m (List.mem_cons_of_mem n hm)
    rw [sAddr, List.length_cons, pow_succ]
    lia

variable {ip : ℕ} {port : ℤ}

theorem inetPton4_lt (h : inetPton4 t = some ip) : ip < 2 ^ 32 := by
  obtain ⟨ns, hns, rfl⟩ := Option.map_eq_some_iff.1 h
  obtain ⟨hlen, hbyte⟩ := inetPtonLoop_byte hns nofun nofun
  have hlt := sAddr_lt hbyte
  rwa [hlen] at hlt

theorem str2endpoint4_done (h : str2endpoint4 t = .done ip port) :
    ip < 2 ^ 32 ∧ 0 ≤ port ∧ port ≤ 65535 := by
  simp only [str2endpoint4] at h
  split at h
  case h_1 => cases h
  case h_2 =>
    split at h
    case isTrue => cases h
    case isFalse =>
      split at h
      case h_1 => cases h
      case h_2 ip' hip =>
        split at h
        case isTrue => cases h
        case isFalse =>
          split at h
          case isTrue => cases h
          case isFalse hrange =>
            cases h
            rw [not_or, not_lt, not_lt] at hrange
            exact ⟨inetPton4_lt hip, hrange⟩

theorem str2endpointAt4_done {port' : ℤ} (h : str2endpointAt4 t port = .done ip port') :
    ip < 2 ^ 32 ∧ 0 ≤ port' ∧ port' ≤ 65535 := by
  unfold str2endpointAt4 at h
  split at h
  case h_1 => cases h
  case h_2 ip' hip =>
    split at h
    case isTrue => cases h
    case isFalse hrange =>
      cases h
      rw [not_or, not_lt, not_lt] at hrange
      exact ⟨inetPton4_lt hip, hrange⟩

end Eabase.Utility.EndPointValue
