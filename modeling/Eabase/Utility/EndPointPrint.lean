import Eabase.Utility.EndPointGrammar
import Eabase.Utility.EndPointValue

/-!
# Printing an endpoint

`endpoint2str`, `endpoint2hostname` and `endpoint2sockaddr`. An `ExtendedEndPoint` is
the bytes from its `_u` on, with the bytes that earlier addresses left there, and
the length of the address that it has now. `inet_ntop` for IPv6 and `getnameinfo`
are parameters.
-/

namespace Eabase.Utility.EndPointPrint

open Lib
open Utility.EndPointValue
open Utility.EndPointGrammar
open Utility.Strtol

/-! ## The code -/

/-- `%d`. -/
def showInt (v : ℤ) : Text :=
  if v < 0 then '-'.toUInt8 :: decimal v.natAbs else decimal v.natAbs

/-- `inet_ntop(AF_INET)`. -/
def inetNtop4 (ip : ℕ) : Text :=
  decimal (ip % 256) ++ '.'.toUInt8 :: (decimal (ip / 256 % 256) ++ '.'.toUInt8 ::
    (decimal (ip / 65536 % 256) ++ '.'.toUInt8 :: decimal (ip / 16777216 % 256)))

def cstr (m : List UInt8) : Text :=
  m.takeWhile (· ≠ 0)

/-- `sizeof(EndPointStr::_buf)`. -/
def END_POINT_STR_SIZE : ℕ := 6 + UDS_PATH_SIZE

/-- `sizeof(sockaddr_storage)`. -/
def SOCKADDR_STORAGE_SIZE : ℕ := 128

/-- `snprintf` into a buffer of this size. -/
def snprintf (size : ℕ) (t : Text) : Text :=
  t.take (size - 1)

/-- `sa_family`. -/
def isFamily (family : UInt8) (m : List UInt8) : Bool :=
  m.getD 0 0 = family && m.getD 1 0 = 0

/-- `ntohs(sin6_port)`, which is where `sin_port` is. -/
def portOf (m : List UInt8) : ℕ :=
  (m.getD 2 0).toNat * 256 + (m.getD 3 0).toNat

/-- `sin6_port`. -/
def rawPort (m : List UInt8) : ℕ :=
  (m.getD 2 0).toNat + 256 * (m.getD 3 0).toNat

/-- An `ExtendedEndPoint`: the bytes from `_u` on, and `_socklen`. -/
structure Object where
  bytes : List UInt8
  socklen : ℕ

/-- `to(EndPointStr*)`. -/
def toStr (inetNtop6 : List UInt8 → Text) (o : Object) : Option Text :=
  if isFamily AF_UNIX o.bytes then
    some (snprintf END_POINT_STR_SIZE (unixPrefix ++ cstr (o.bytes.drop 2)))
  else if isFamily AF_INET6 o.bytes then
    some (snprintf END_POINT_STR_SIZE
      ('['.toUInt8 :: inetNtop6 ((o.bytes.drop 8).take 16) ++ [']'.toUInt8, ':'.toUInt8] ++
        showInt (portOf o.bytes)))
  else none

/-- `to_hostname`, where the buffer is large enough. The port is not turned round. -/
def toHostname (getnameinfo : List UInt8 → Option Text) (o : Object) : Option Text :=
  if isFamily AF_UNIX o.bytes then some (unixPrefix ++ cstr (o.bytes.drop 2))
  else if isFamily AF_INET6 o.bytes then
    (getnameinfo (o.bytes.take 28)).map fun host => host ++ ':'.toUInt8 :: showInt (rawPort o.bytes)
  else none

/-- `to(sockaddr_storage*)`, into zeros. -/
def toSockaddr (o : Object) : List UInt8 × ℕ :=
  (o.bytes.take o.socklen ++ List.replicate (SOCKADDR_STORAGE_SIZE - o.socklen) 0, o.socklen)

/-- The bytes of `s_addr`. -/
def ipBytes (ip : ℕ) : List UInt8 :=
  [(ip % 256).toUInt8, (ip / 256 % 256).toUInt8, (ip / 65536 % 256).toUInt8,
    (ip / 16777216 % 256).toUInt8]

/-- A `sockaddr_in`; the port is put into 16 bits. -/
def sockaddrIn4 (ip : ℕ) (port : ℤ) : List UInt8 :=
  [AF_INET, 0, ((port % 65536).toNat / 256).toUInt8, (port % 65536).toNat.toUInt8] ++ ipBytes ip ++
    List.replicate 8 0

/-- `.baidu.com`. -/
def baiduSuffix : Text := [46, 98, 97, 105, 100, 117, 46, 99, 111, 109]

/-- `ip2hostname`. -/
def ip2hostname (getnameinfo : List UInt8 → Option Text) (ip : ℕ) : Option Text :=
  (getnameinfo (sockaddrIn4 ip 0)).map fun host =>
    if baiduSuffix.isSuffixOf host then host.take (host.length - 10) else host

/-- What an endpoint is printed as: `address` gives the objects. -/
def endpoint2str (inetNtop6 : List UInt8 → Text) (address : ℕ → Option Object) (point : EndPoint) :
    Option Text :=
  match point.handle with
  | some id =>
    match address id with
    | some o => toStr inetNtop6 o
    | none => some []
  | none => some (inetNtop4 point.ip ++ ':'.toUInt8 :: showInt point.port)

/-- `endpoint2hostname`, where the buffer is large enough. -/
def endpoint2hostname (getnameinfo : List UInt8 → Option Text) (address : ℕ → Option Object)
    (point : EndPoint) :
    Option Text :=
  match point.handle with
  | some id => (address id).bind (toHostname getnameinfo)
  | none => (ip2hostname getnameinfo point.ip).map fun host => host ++ ':'.toUInt8 :: showInt point.port

/-- The `sockaddr_storage` and its size. -/
def endpoint2sockaddr (address : ℕ → Option Object) (point : EndPoint) : Option (List UInt8 × ℕ) :=
  match point.handle with
  | some id => (address id).map toSockaddr
  | none => some (sockaddrIn4 point.ip point.port ++ List.replicate (SOCKADDR_STORAGE_SIZE - 16) 0, 16)

/-! ## Numbers -/

variable {n ip : ℕ} {t : Text} {read : List ℕ} {v : ℤ}

theorem showInt_natCast (n : ℕ) : showInt n = decimal n := by
  unfold showInt
  rw [if_neg (not_lt.2 (Int.natCast_nonneg n)), Int.natAbs_natCast]

theorem isdigit_digit (hn : n < 10) : isdigit (digit n) = true := by
  rw [isdigit_iff, toNat_digit_of_lt hn]
  lia

theorem inetPtonLoop_decimal (hn : n ≤ 255) :
    inetPtonLoop (decimal n ++ t) read none = inetPtonLoop t read (some n) := by
  induction n using Nat.strong_induction_on generalizing t with
  | _ n ih =>
    rcases lt_or_ge n 10 with hlt | hge
    · rw [decimal_of_lt hlt, List.singleton_append, inetPtonLoop, if_pos (isdigit_digit hlt),
        toNat_digit_of_lt hlt,
        Nat.add_sub_cancel_left]
    · have hlast : n % 10 < 10 := Nat.mod_lt n (by decide)
      rw [decimal_of_le hge, List.append_assoc, ih (n / 10) (by lia) (by lia),
        List.singleton_append, inetPtonLoop,
        if_pos (isdigit_digit hlast), toNat_digit_of_lt hlast, Nat.add_sub_cancel_left]
      exact (if_neg (by lia)).trans (by rw [Nat.div_add_mod])

theorem inetPtonLoop_dot (hread : read.length < 3) :
    inetPtonLoop ('.'.toUInt8 :: t) read (some n) = inetPtonLoop t (read ++ [n]) none := by
  rw [inetPtonLoop, if_neg (by decide), if_pos rfl]
  exact if_neg (ne_of_lt hread)

/-- **An IPv4 address is read as it was written.** -/
theorem inetPton4_inetNtop4 (hip : ip < 2 ^ 32) : inetPton4 (inetNtop4 ip) = some ip := by
  have hbyte : ∀ n, n % 256 ≤ 255 := fun n => Nat.le_of_lt_succ (Nat.mod_lt n (by decide))
  unfold inetPton4 inetNtop4
  rw [inetPtonLoop_decimal (hbyte _), inetPtonLoop_dot (by simp), inetPtonLoop_decimal (hbyte _),
    inetPtonLoop_dot (by simp), inetPtonLoop_decimal (hbyte _), inetPtonLoop_dot (by simp),
    ← List.append_nil (decimal _), inetPtonLoop_decimal (hbyte _), inetPtonLoop, if_pos (by rfl)]
  apply congrArg some
  simp only [List.nil_append, List.cons_append, sAddr]
  omega

end Eabase.Utility.EndPointPrint
