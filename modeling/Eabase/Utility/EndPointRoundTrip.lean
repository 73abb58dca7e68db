import Eabase.Utility.EndPointHeld
import Eabase.Utility.EndPointPrint

/-!
# Texts and socket addresses of endpoints

An endpoint that was made of a text is printed to a text that is read as the same
endpoint, and so is its `sockaddr`. The address is printed and read without a
loss, and the set finds the object that has it, as long as that is not returned to
the pool. So the fields are the same. `Held` leaves out the runs in which the
object is returned while the endpoint is still there: endpoints that are assigned to
themselves, overwritten as handles or read from a text that is none return it early.
-/

namespace Eabase.Utility.EndPointRoundTrip

open Lib Function List

open Utility.EndPointValue
open Utility.EndPointHeld
open Utility.EndPointPrint
open Utility.EndPointGrammar
open Utility.Strtol

/-- `inet_ntop` and `inet_pton` for IPv6: 16 bytes are written with less than `INET6_ADDRSTRLEN`
characters, of which none is a bracket, and are read again. -/
structure Ntop6 (inetNtop6 : List UInt8 → Text) (inetPton6 : Text → Option (List UInt8)) : Prop where
  length_pton : ∀ t addr, inetPton6 t = some addr → addr.length = 16
  left_inv : ∀ addr, addr.length = 16 → inetPton6 (inetNtop6 addr) = some addr
  length_ntop : ∀ addr, addr.length = 16 → (inetNtop6 addr).length < INET6_ADDRSTRLEN
  ne_nil : ∀ addr, addr.length = 16 → inetNtop6 addr ≠ []
  notMem : ∀ addr, addr.length = 16 → ']'.toUInt8 ∉ inetNtop6 addr

variable {inetNtop6 : List UInt8 → Text} {inetPton6 : Text → Option (List UInt8)}
    {t path stale : Text} {a : Address}
  {addr : List UInt8} {port ip : ℕ}

/-- An address that is written with two letters for each byte. -/
def letters (addr : List UInt8) : Text :=
  addr.flatMap fun b => [.ofNat (97 + b.toNat / 16), .ofNat (97 + b.toNat % 16)]

def ofLetters : Text → Option (List UInt8)
  | [] => some []
  | [_] => none
  | hi :: lo :: t => (ofLetters t).map (.ofNat ((hi.toNat - 97) * 16 + (lo.toNat - 97)) :: ·)

theorem toNat_letter {n : ℕ} (h : n < 16) : (UInt8.ofNat (97 + n)).toNat = 97 + n :=
  UInt8.toNat_ofNat_of_lt' (by change 97 + n < 256; lia)

theorem toNat_div_lt (b : UInt8) : b.toNat / 16 < 16 := by
  have := b.toNat_lt
  lia

open Option

theorem ofLetters_letters (addr : List UInt8) : ofLetters (letters addr) = some addr := by
  induction addr with
  | nil => rfl
  | cons b addr ih =>
    change (ofLetters (letters addr)).map _ = _
    have hbyte : (97 + b.toNat / 16 - 97) * 16 + (97 + b.toNat % 16 - 97) = b.toNat := by lia
    rw [ih, map_some, toNat_letter (toNat_div_lt b), toNat_letter (Nat.mod_lt _ (by decide)), hbyte,
      UInt8.ofNat_toNat]

theorem length_letters (addr : List UInt8) : (letters addr).length = 2 * addr.length := by
  induction addr with
  | nil => rfl
  | cons b addr ih =>
    change (letters addr).length + 2 = _
    rw [ih, length_cons]
    lia

def ptonLetters (t : Text) : Option (List UInt8) :=
  (ofLetters t).filter fun addr => decide (addr.length = 16)

theorem ntop6_letters : Ntop6 letters ptonLetters := by
  constructor
  case length_pton => exact fun t addr h => of_decide_eq_true (filter_eq_some_iff.1 h).2
  case left_inv =>
    intro addr h
    rw [ptonLetters, ofLetters_letters]
    exact if_pos (decide_eq_true h)
  case length_ntop =>
    intro addr h
    rw [length_letters, h]
    decide
  case ne_nil =>
    intro addr h hnil
    have hlength := length_letters addr
    rw [hnil, h] at hlength
    exact absurd hlength nofun
  case notMem =>
    intro addr _ h
    obtain ⟨b, -, hb⟩ := mem_flatMap.1 h
    have hne : ∀ n < 16, ']'.toUInt8 ≠ UInt8.ofNat (97 + n) := by decide
    rcases mem_pair.1 hb with hhi | hlo
    · exact hne _ (toNat_div_lt b) hhi
    · exact hne _ (Nat.mod_lt _ (by decide)) hlo

/-! ## Trimming -/

structure Trimmed (t : Text) : Prop where
  head : ∀ c ∈ t.head?, isspace c = false
  last : ∀ c ∈ t.getLast?, isspace c = false

theorem dropWhile_of_head (h : ∀ c ∈ t.head?, isspace c = false) : t.dropWhile isspace = t := by
  rcases t with - | ⟨c, t⟩
  · rfl
  · exact dropWhile_cons_of_neg (by rw [h c rfl]; exact nofun)

theorem Trimmed.eq (h : Trimmed t) : trimSpaces t = t := by
  unfold trimSpaces
  rw [dropWhile_of_head h.head, dropWhile_of_head, reverse_reverse]
  intro c hc
  rw [head?_reverse] at hc
  exact h.last c hc

theorem head_dropWhile (t : Text) : ∀ c ∈ (t.dropWhile isspace).head?, isspace c = false := by
  intro c hc
  have hhead := head?_dropWhile_not isspace t
  rw [hc] at hhead
  simpa using hhead

theorem trimmed_trimSpaces (t : Text) : Trimmed (trimSpaces t) := by
  constructor
  case head =>
    intro c hc
    apply head_dropWhile t
    -- What is left is a beginning of it.
    have hprefix : trimSpaces t <+: t.dropWhile isspace := by
      rw [← reverse_suffix]
      unfold trimSpaces
      rw [reverse_reverse]
      exact dropWhile_suffix _
    obtain ⟨u, hu⟩ := hprefix
    rw [← hu, head?_append, hc]
    rfl
  case last =>
    intro c hc
    unfold trimSpaces at hc
    rw [getLast?_reverse] at hc
    exact head_dropWhile _ c hc

/-! ## A unix socket -/

structure Path (path : Text) : Prop where
  ne_nil : path ≠ []
  length : path.length < UDS_PATH_SIZE
  last : ∀ c ∈ path.getLast?, isspace c = false

theorem Path.trimmed (h : Path path) : Trimmed (unixPrefix ++ path) := by
  constructor
  case head =>
    intro c hc
    rw [← some.inj hc]
    rfl
  case last =>
    intro c hc
    rw [getLast?_append_of_ne_nil _ h.ne_nil] at hc
    exact h.last c hc

theorem isPrefixOf_unix (path : Text) : unixPrefix.isPrefixOf (unixPrefix ++ path) = true :=
  isPrefixOf_iff_prefix.2 (prefix_append ..)

theorem head_unix (path : Text) : (unixPrefix ++ path).head? ≠ some '['.toUInt8 := fun hhead =>
  have hchar : some 117 = some '['.toUInt8 := hhead
  absurd hchar (by decide)

theorem createAt_unix (h : Path path) (port : ℤ) : createAt inetPton6 (unixPrefix ++ path) port
      = some (sockaddrUn path) := by
  unfold createAt
  rw [h.trimmed.eq]
  rw [if_neg (fun hand => head_unix path hand.1), if_pos (isPrefixOf_unix path)]
  have hdrop : (unixPrefix ++ path).drop 5 = path := rfl
  rw [hdrop, if_neg (not_or.2 ⟨h.ne_nil, not_le.2 h.length⟩)]

theorem createText_unix (h : Path path) : createText inetPton6 (unixPrefix ++ path)
      = some (sockaddrUn path) := by
  unfold createText
  rw [h.trimmed.eq]
  rw [if_neg (head_unix path), if_pos (isPrefixOf_unix path)]
  exact createAt_unix h EXTENDED_ENDPOINT_PORT

/-! ## An IPv6 address -/

def in6Text (inetNtop6 : List UInt8 → Text) (port : ℕ) (addr : List UInt8) : Text :=
  '['.toUInt8 :: inetNtop6 addr ++ [']'.toUInt8, ':'.toUInt8] ++ decimal port

theorem toInt_of_le {v : ℤ} (hlow : 0 ≤ v) (hhigh : v ≤ 65535) : toInt v = v := by
  unfold toInt
  rw [Int.bmod_def]
  split <;> lia

theorem decimal_not_space (port : ℕ) : ∀ c ∈ decimal port, isspace c = false :=
  fun _ hc => (isdigit_ne (isDecimal_of_mem_decimal hc)).1

theorem strtol_decimal (hport : port ≤ 65535) : strtol (decimal port) = ((port : ℤ), []) := by
  rw [strtol_eq, denotes_iff.1 (denotes_decimal port)]
  exact congrArg (·, []) (saturate_of_le (by lia) (by lia))

theorem createAt_in6 (h : Ntop6 inetNtop6 inetPton6) (haddr : addr.length = 16) (hport : port ≤ 65535) :
    createAt inetPton6 ('['.toUInt8 :: inetNtop6 addr ++ [']'.toUInt8]) port
      = some (sockaddrIn6 port addr) := by
  have htrimmed : Trimmed ('['.toUInt8 :: inetNtop6 addr ++ [']'.toUInt8]) := by
    constructor
    case head =>
      intro c hc
      rw [← some.inj hc]
      rfl
    case last =>
      intro c hc
      rw [getLast?_concat] at hc
      rw [← some.inj hc]
      rfl
  have hlen : ('['.toUInt8 :: inetNtop6 addr ++ [']'.toUInt8]).length = (inetNtop6 addr).length + 2 := by
    rw [length_append, length_cons]
    rfl
  have hpos : 0 < (inetNtop6 addr).length := length_pos_of_ne_nil (h.ne_nil addr haddr)
  have hlt := h.length_ntop addr haddr
  have hinner : (('['.toUInt8 :: inetNtop6 addr ++ [']'.toUInt8]).drop 1).take
      (inetNtop6 addr).length = inetNtop6 addr :=
    take_left
  unfold createAt
  rw [htrimmed.eq]
  rw [if_pos ⟨rfl, by lia, by lia⟩, hlen, Nat.add_sub_cancel, if_neg, hinner, h.left_inv addr haddr]
  · rfl
  · rw [getLast?_concat]
    rintro (hlast | hlast | hlast)
    · exact hlast rfl
    · lia
    · lia

theorem createText_in6 (h : Ntop6 inetNtop6 inetPton6) (haddr : addr.length = 16) (hport : port ≤ 65535) :
    createText inetPton6 (in6Text inetNtop6 port addr) = some (sockaddrIn6 port addr) := by
  have htrimmed : Trimmed (in6Text inetNtop6 port addr) := by
    constructor
    case head =>
      intro c hc
      rw [← some.inj hc]
      rfl
    case last =>
      intro c hc
      unfold in6Text at hc
      rw [getLast?_append_of_ne_nil _ (decimal_ne_nil port)] at hc
      exact decimal_not_space port c (mem_of_getLast? hc)
  have hsplit : in6Text inetNtop6 port addr =
      ('['.toUInt8 :: inetNtop6 addr) ++ ']'.toUInt8 :: ':'.toUInt8 :: decimal port := by
    unfold in6Text
    rw [append_assoc]
    rfl
  have hfind : (in6Text inetNtop6 port addr).findIdx? (· = ']'.toUInt8)
      = some ((inetNtop6 addr).length + 1) := by
    rw [hsplit, findIdx?_append]
    have hnone : ('['.toUInt8 :: inetNtop6 addr).findIdx? (· = ']'.toUInt8) = none := by
      rw [findIdx?_eq_none_iff]
      intro c hc
      apply decide_eq_false
      rintro rfl
      rcases mem_cons.1 hc with hc | hc
      · exact absurd hc (by decide)
      · exact h.notMem addr haddr hc
    rw [hnone, findIdx?_cons, if_pos (by decide), map_some, zero_add]
    rfl
  have hdrop : (in6Text inetNtop6 port addr).drop ((inetNtop6 addr).length + 1 + 1)
      = ':'.toUInt8 :: decimal port := by
    rw [hsplit, append_cons]
    exact drop_left' (by rw [length_append, length_cons]; rfl)
  have htake : (in6Text inetNtop6 port addr).take ((inetNtop6 addr).length + 1 + 1) =
      '['.toUInt8 :: inetNtop6 addr ++ [']'.toUInt8] := by
    rw [hsplit, append_cons]
    exact take_left' (by rw [length_append, length_cons]; rfl)
  have hdigits : (decimal port).length ≤ 5 := (length_decimal_le (by decide)).2 (by lia)
  have hpos : 0 < (inetNtop6 addr).length := length_pos_of_ne_nil (h.ne_nil addr haddr)
  have hlen : ¬(in6Text inetNtop6 port addr).length ≤ (inetNtop6 addr).length + 1 + 1 := by
    rw [hsplit]
    simp only [length_append, length_cons]
    lia
  unfold createText
  rw [htrimmed.eq]
  rw [if_pos (by rw [hsplit]; rfl), hfind]
  dsimp only
  rw [if_neg (not_or.2 ⟨by lia, hlen⟩), hdrop]
  dsimp only
  rw [if_neg (not_or.2 ⟨decimal_ne_nil port, not_or.2 ⟨not_not.2 rfl, not_lt.2 hdigits⟩⟩),
    strtol_decimal hport,
    if_pos rfl, htake, toInt_of_le (by lia) (by lia)]
  exact createAt_in6 h haddr hport

/-! ## What a text is read as -/

/-- A path that can be read back, or the bytes of an IPv6 address and a port. -/
inductive Readable : Address → Prop
  | unix {path : Text} : Path path → 0 ∉ path → Readable (sockaddrUn path)
  | in6 {port : ℕ} {addr : List UInt8} : addr.length = 16 → port ≤ 65535 →
      Readable (sockaddrIn6 port addr)

theorem mem_trimSpaces {c : UInt8} (h : c ∈ trimSpaces t) : c ∈ t := by
  unfold trimSpaces at h
  rw [mem_reverse] at h
  have hmem := mem_reverse.1 ((dropWhile_suffix _).mem h)
  exact (dropWhile_suffix _).mem hmem

section

variable (h6 : Ntop6 inetNtop6 inetPton6)
include h6

theorem createAt_readable (hzero : 0 ∉ t) {port : ℤ}
    (h : createAt inetPton6 t port = some a) : Readable a := by
  unfold createAt at h
  dsimp only at h
  split at h
  case isTrue hport =>
    split at h
    case isTrue => exact absurd h nofun
    case isFalse =>
      obtain ⟨addr, haddr, rfl⟩ := map_eq_some_iff.1 h
      exact .in6 (h6.length_pton _ addr haddr) (by lia)
  case isFalse =>
    split at h
    case isTrue =>
      split at h
      case isTrue => exact absurd h nofun
      case isFalse hpath =>
        rw [not_or, not_le] at hpath
        rw [← some.inj h]
        refine .unix ⟨hpath.1, hpath.2, ?_⟩ fun hmem => hzero (mem_trimSpaces (mem_of_mem_drop hmem))
        intro c hc
        apply (trimmed_trimSpaces t).last
        rw [← take_append_drop 5 (trimSpaces t), getLast?_append_of_ne_nil _ hpath.1]
        exact hc
    case isFalse => exact absurd h nofun

theorem createText_readable (hzero : 0 ∉ t) (h : createText inetPton6 t = some a) :
    Readable a := by
  have htrim : 0 ∉ trimSpaces t := fun hmem => hzero (mem_trimSpaces hmem)
  unfold createText at h
  dsimp only at h
  split at h
  case isTrue =>
    split at h
    case h_1 => exact absurd h nofun
    case h_2 i _ =>
      split at h
      case isTrue => exact absurd h nofun
      case isFalse =>
        split at h
        case h_1 => exact absurd h nofun
        case h_2 =>
          split at h
          case isTrue => exact absurd h nofun
          case isFalse =>
            split at h
            case isTrue => exact createAt_readable h6 (fun hmem => htrim (mem_of_mem_take hmem)) h
            case isFalse => exact absurd h nofun
  case isFalse =>
    split at h
    case isTrue => exact createAt_readable h6 htrim h
    case isFalse => exact absurd h nofun

/-- **An address that was read is printed to a text that is read as it.** -/
theorem Readable.toStr (h : Readable a) (stale : List UInt8) :
    ∃ text, toStr inetNtop6 ⟨a ++ stale, a.length⟩ = some text ∧ createText inetPton6 text = some a := by
  cases h with
  | @unix path hpath hzero =>
    refine ⟨unixPrefix ++ path, ?_, createText_unix hpath⟩
    have hcstr : cstr ((sockaddrUn path ++ stale).drop 2) = path := by
      have hdrop : (sockaddrUn path ++ stale).drop 2 = path ++ 0 :: stale := by
        unfold sockaddrUn
        rw [append_assoc, append_assoc]
        rfl
      have hall : ∀ c ∈ path, decide (c ≠ 0) = true := fun c hc => decide_eq_true fun heq =>
        hzero (heq ▸ hc)
      unfold cstr
      rw [hdrop, takeWhile_append_of_pos hall, takeWhile_cons_of_neg (by decide), append_nil]
    have hlen : (unixPrefix ++ path).length ≤ END_POINT_STR_SIZE - 1 := by
      have hlt := hpath.length
      rw [length_append]
      unfold END_POINT_STR_SIZE UDS_PATH_SIZE unixPrefix at *
      simp only [length_cons, length_nil]
      lia
    unfold EndPointPrint.toStr
    rw [if_pos (by rfl), hcstr, snprintf, take_of_length_le hlen]
  | @in6 port addr haddr hport =>
    refine ⟨in6Text inetNtop6 port addr, ?_, createText_in6 h6 haddr hport⟩
    have hbytes : ((sockaddrIn6 port addr ++ stale).drop 8).take 16 = addr := by
      have hdrop : (sockaddrIn6 port addr ++ stale).drop 8 = addr ++ ([0, 0, 0, 0] ++ stale) := by
        unfold sockaddrIn6
        rw [append_assoc, append_assoc]
        rfl
      rw [hdrop]
      exact take_left' haddr
    have hread : portOf (sockaddrIn6 port addr ++ stale) = port := by
      have hbyte : ∀ n : ℕ, n.toUInt8.toNat = n % 256 := fun _ => UInt8.toNat_ofNat'
      have hsum : portOf (sockaddrIn6 port addr ++ stale) = (port / 256).toUInt8.toNat * 256
          + port.toUInt8.toNat := rfl
      rw [hsum, hbyte, hbyte]
      lia
    have hlen : (in6Text inetNtop6 port addr).length ≤ END_POINT_STR_SIZE - 1 := by
      have hlt := h6.length_ntop addr haddr
      have hdigits : (decimal port).length ≤ 5 := (length_decimal_le (by decide)).2 (by lia)
      unfold in6Text END_POINT_STR_SIZE UDS_PATH_SIZE INET6_ADDRSTRLEN at *
      simp only [length_append, length_cons, length_nil]
      lia
    unfold EndPointPrint.toStr
    rw [if_neg (by exact nofun), if_pos (by rfl), hbytes, hread, showInt_natCast]
    exact congrArg some (take_of_length_le hlen)

end

/-- The `sockaddr_storage` of an address that was read has that address. -/
theorem Readable.toSockaddr (h : Readable a) (stale : List UInt8) :
    isIn (toSockaddr ⟨a ++ stale, a.length⟩).1 = false ∧
      sockaddrExtended (toSockaddr ⟨a ++ stale, a.length⟩).1 (toSockaddr ⟨a ++ stale, a.length⟩).2
        = some a := by
  have hbytes : (EndPointPrint.toSockaddr ⟨a ++ stale, a.length⟩).1 =
      a ++ replicate (SOCKADDR_STORAGE_SIZE - a.length) 0 := by
    unfold EndPointPrint.toSockaddr
    rw [take_left]
  have hsize : (EndPointPrint.toSockaddr ⟨a ++ stale, a.length⟩).2 = a.length := rfl
  rw [hbytes, hsize]
  unfold sockaddrExtended
  rw [take_left]
  cases h with
  | unix => exact ⟨rfl, if_pos ⟨rfl, .inr rfl⟩⟩
  | in6 => exact ⟨rfl, if_pos ⟨rfl, .inl rfl⟩⟩

/-! ## An IPv4 address -/

def in4Text (ip port : ℕ) : Text :=
  inetNtop4 ip ++ ':'.toUInt8 :: decimal port

theorem grammar_in4Text (hip : ip < 2 ^ 32) (hport : port ≤ 65535) :
    Grammar (in4Text ip port) ip port := by
  have hlen : (inetNtop4 ip).length ≤ 63 := by
    have hbyte : ∀ n, (decimal (n % 256)).length ≤ 3 := fun n =>
      (length_decimal_le (by decide)).2 ((Nat.mod_lt n (by decide)).trans (by decide))
    have h0 := hbyte ip
    have h1 := hbyte (ip / 256)
    have h2 := hbyte (ip / 65536)
    have h3 := hbyte (ip / 16777216)
    unfold inetNtop4
    simp only [length_append, length_cons]
    lia
  refine ⟨[], inetNtop4 ip, decimal port, [], ?_, nofun, inetPton4_inetNtop4 hip, hlen,
    denotes_decimal port, by lia,
    by lia, nofun⟩
  rw [append_nil]
  rfl

theorem plain_in4Text (ip port : ℕ) : Plain (in4Text ip port) := by
  -- It begins with a digit.
  have hhead : ∃ c u, in4Text ip port = c :: u ∧ isdigit c = true := by
    obtain ⟨c, u, hcu⟩ := exists_cons_of_ne_nil (decimal_ne_nil (ip % 256))
    have hc : isdigit c = true := isDecimal_of_mem_decimal (hcu ▸ mem_cons_self)
    unfold in4Text inetNtop4
    rw [hcu, cons_append, cons_append]
    exact ⟨c, _, rfl, hc⟩
  obtain ⟨c, u, hcu, hc⟩ := hhead
  have htrimmed : Trimmed (in4Text ip port) := by
    constructor
    case head =>
      intro d hd
      rw [hcu] at hd
      rw [← some.inj hd]
      exact (isdigit_ne hc).1
    case last =>
      intro d hd
      have hsplit : in4Text ip port = inetNtop4 ip ++ [':'.toUInt8] ++ decimal port := by
        rw [append_assoc]
        rfl
      rw [hsplit, getLast?_append_of_ne_nil _ (decimal_ne_nil port)] at hd
      exact decimal_not_space port d (mem_of_getLast? hd)
  unfold Plain
  rw [htrimmed.eq, hcu]
  constructor
  · intro hbracket
    rw [some.inj hbracket] at hc
    exact absurd hc (by decide)
  · rw [Bool.eq_false_iff]
    intro hprefix
    obtain ⟨v, hv⟩ := isPrefixOf_iff_prefix.1 hprefix
    rw [← (cons.inj hv).1] at hc
    exact absurd hc (by decide)

/-- **An IPv4 endpoint is printed to a text that is read as it.** -/
theorem read_in4Text (hip : ip < 2 ^ 32) (hport : port ≤ 65535) :
    createText inetPton6 (in4Text ip port) = none ∧ str2endpoint4 (in4Text ip port) = .done ip port :=
  ⟨createText_plain (plain_in4Text ip port), str2endpoint4_of_grammar (grammar_in4Text hip hport)⟩

theorem sockaddrIn_sockaddrIn4 (hip : ip < 2 ^ 32) (hport : port ≤ 65535) (rest : List UInt8) :
    isIn (sockaddrIn4 ip port ++ rest) = true ∧ sockaddrIn (sockaddrIn4 ip port ++ rest)
      = ⟨ip, port⟩ := by
  have hbyte : ∀ n : ℕ, n.toUInt8.toNat = n % 256 := fun _ => UInt8.toNat_ofNat'
  have hmod : ((port : ℤ) % 65536).toNat = port := by lia
  refine ⟨rfl, ?_⟩
  have hfields : sockaddrIn (sockaddrIn4 ip port ++ rest) = ⟨sAddr ((ipBytes ip).map UInt8.toNat),
        ((((port : ℤ) % 65536).toNat / 256).toUInt8.toNat : ℤ) * 256
          + (((port : ℤ) % 65536).toNat.toUInt8.toNat : ℤ)⟩ := rfl
  rw [hfields, hmod, hbyte, hbyte]
  unfold ipBytes
  simp only [map_cons, map_nil, sAddr, hbyte, EndPoint.mk.injEq]
  omega

/-! ## The endpoints -/

section Endpoints

variable {ε : Type*} [DecidableEq ε] {s : State ε} {e : ε} {v : EndPoint} {p q : ℕ} {slot : Option ℕ}

/-- The objects of the pool, with the bytes that are left behind their addresses. -/
def address (s : State ε) (stale : ℕ → List UInt8) (id : ℕ) : Option Object :=
  (s.addressResource id).map fun q => ⟨s.addr q ++ stale q, (s.addr q).length⟩

def Succeeds (inetPton6 : Text → Option (List UInt8)) (s : State ε) (act : Act ε) : Prop :=
  Enabled s act ∧ ¬Fails inetPton6 s act

/-- Fields that `str2endpoint` makes: of an object with an address that was read, or an IPv4
address. -/
inductive Refers (s : State ε) : EndPoint → Prop
  | extended {q : ℕ} : q ∈ s.set → Readable (s.addr q) → Refers s ⟨q, EXTENDED_ENDPOINT_PORT⟩
  | ipv4 {ip port : ℕ} : ip < 2 ^ 32 → port ≤ 65535 → Refers s ⟨ip, port⟩

theorem handle_extended (q : ℕ) : EndPoint.handle ⟨q, EXTENDED_ENDPOINT_PORT⟩ = some q :=
  if_pos rfl

theorem handle_ipv4 (hport : port ≤ 65535) : EndPoint.handle ⟨ip, port⟩ = none := by
  apply handle_eq_none
  unfold EXTENDED_ENDPOINT_PORT
  dsimp only
  lia

theorem parse_written {o : Option Address} {ip : ℕ} {port : ℤ} (hnone : o = none ∨ slot = none)
    (he : s.points e ≠ none) :
    (parse s e o (.done ip port) slot).points e = some ⟨ip, port⟩ := by
  obtain ⟨w, hw⟩ := ne_none_iff_exists'.1 he
  have hparse : parse s e o (.done ip port) slot
      = (overwrite s e ip (some port)).assign e (.ipv4 ip port) := by
    unfold parse
    split
    case h_1 => exact absurd hnone (not_or.2 ⟨some_ne_none _, some_ne_none _⟩)
    case h_2 => rfl
  rw [hparse]
  unfold overwrite
  rw [hw]
  exact update_self ..

/-- The endpoint is held, unless what it was before returns the object that it gets. -/
theorem parse_refers (h6 : Ntop6 inetNtop6 inetPton6) (hs : Kept s)
    (hsmall : ∀ p ∈ slot, p < 2 ^ 32) (hzero : 0 ∉ t)
    (hparse : Succeeds inetPton6 s (.str2endpoint e t slot)) :
    ∃ v, (step inetPton6 s (.str2endpoint e t slot)).points e = some v ∧
      (Live s e → Held inetPton6 e v s (.str2endpoint e t slot)) ∧
      (Held inetPton6 e v s (.str2endpoint e t slot) →
        Refers (step inetPton6 s (.str2endpoint e t slot)) v) := by
  obtain ⟨hok, hfails⟩ := hparse
  have hpoint : s.points e ≠ none := fun hnone => absurd (hok.1.1 hnone) nofun
  have hstep : step inetPton6 s (.str2endpoint e t slot) =
      parse s e (createText inetPton6 t) (str2endpoint4 t) slot := if_pos hok
  unfold Held
  rw [hstep]
  by_cases hnone : createText inetPton6 t = none ∨ slot = none
  · have hdone : ∃ ip port, str2endpoint4 t = .done ip port := by
      by_contra hno
      rw [not_exists] at hno
      exact hfails ⟨hok, hnone, fun ip port hd => hno ip ⟨port, hd⟩⟩
    obtain ⟨ip, port, hd⟩ := hdone
    obtain ⟨hip, hlow, hhigh⟩ := str2endpoint4_done hd
    obtain ⟨n, rfl⟩ := Int.eq_ofNat_of_zero_le hlow
    have hport : n ≤ 65535 := by lia
    rw [hd]
    have hpoints : (parse s e (createText inetPton6 t) (.done ip n) slot).points e = some ⟨ip, n⟩ :=
      parse_written hnone hpoint
    refine ⟨⟨ip, n⟩, hpoints, fun _ => ⟨hpoints, fun q hq => ?_⟩, fun _ => .ipv4 hip hport⟩
    rw [handle_ipv4 hport] at hq
    exact absurd hq nofun
  · rw [not_or] at hnone
    obtain ⟨a, hread⟩ := ne_none_iff_exists'.1 hnone.1
    obtain ⟨p, rfl⟩ := ne_none_iff_exists'.1 hnone.2
    obtain ⟨r, hcreated⟩ := hs.create (hok.2.1 p rfl) (hsmall p rfl) e a
    rw [hread]
    refine ⟨_, hcreated.points, fun hlive => ⟨hcreated.points, fun q hq => ?_⟩, fun hheld => ?_⟩
    · rw [handle_extended] at hq
      rw [← some.inj hq]
      exact hcreated.live hlive
    · obtain ⟨hmem, haddr⟩ := hcreated.held (hheld.2 r (handle_extended r))
      have hreadable : Readable ((create s e a p).addr r) := by
        rw [haddr]
        exact createText_readable h6 hzero hread
      exact .extended hmem hreadable

omit [DecidableEq ε] in
theorem address_of_mem (hs : Kept s) (hq : q ∈ s.set) (stale : ℕ → List UInt8) :
    address s stale q = some ⟨s.addr q ++ stale q, (s.addr q).length⟩ := by
  unfold address
  rw [addressResource_eq (hs.live q hq).1]
  rfl

theorem create_points (hs : Kept s) (hq : q ∈ s.set) (hp : s.inUse p = false) (hlt : p < 2 ^ 32) (e : ε) :
    (create s e (s.addr q) p).points e = some ⟨q, EXTENDED_ENDPOINT_PORT⟩ := by
  obtain ⟨r, hcreated⟩ := hs.create hp hlt e (s.addr q)
  rw [hcreated.points, hcreated.found q hq rfl]

omit [DecidableEq ε] in
theorem enabled_str2endpoint (he : s.points e ≠ none) (hp : s.inUse p = false) (t : Text) :
    Enabled s (.str2endpoint e t (some p)) :=
  ⟨⟨fun hnone => absurd hnone he, nofun⟩, fun _ hq => some.inj hq ▸ hp, trivial⟩

omit [DecidableEq ε] in
theorem enabled_sockaddr2endpoint (he : s.points e ≠ none) (hp : s.inUse p = false)
    (ss : List UInt8) (size : ℕ) :
    Enabled s (.sockaddr2endpoint e ss size (some p)) :=
  ⟨⟨fun hnone => absurd hnone he, nofun⟩, fun _ hq => some.inj hq ▸ hp, trivial⟩

theorem Refers.str2endpoint (h6 : Ntop6 inetNtop6 inetPton6) (hs : Kept s) (hv : Refers s v)
    (he : s.points e ≠ none)
    (hp : s.inUse p = false) (hlt : p < 2 ^ 32) (stale : ℕ → List UInt8) :
    ∃ text, endpoint2str inetNtop6 (address s stale) v = some text ∧
      Succeeds inetPton6 s (.str2endpoint e text (some p)) ∧
      (step inetPton6 s (.str2endpoint e text (some p))).points e = some v := by
  cases hv with
  | @extended q hq hreadable =>
    obtain ⟨text, htext, hread⟩ := hreadable.toStr h6 (stale q)
    have hok := enabled_str2endpoint he hp text
    refine ⟨text, ?_, ⟨hok, ?_⟩, ?_⟩
    · unfold endpoint2str
      rw [handle_extended]
      dsimp only
      rw [address_of_mem hs hq]
      exact htext
    · rintro ⟨-, hnone | hnone, -⟩
      · rw [hread] at hnone
        exact absurd hnone nofun
      · exact absurd hnone nofun
    · unfold step
      rw [if_pos hok, perform, hread]
      exact create_points hs hq hp hlt e
  | @ipv4 ip port hip hport =>
    obtain ⟨hnone, hdone⟩ := read_in4Text hip hport
    have hok := enabled_str2endpoint he hp (in4Text ip port)
    refine ⟨in4Text ip port, ?_, ⟨hok, ?_⟩, ?_⟩
    · unfold endpoint2str
      rw [handle_ipv4 hport, showInt_natCast]
      rfl
    · rintro ⟨-, -, hfails⟩
      exact hfails ip port hdone
    · unfold step
      rw [if_pos hok, perform, hnone, hdone]
      exact parse_written (.inl rfl) he

theorem Refers.sockaddr2endpoint (hs : Kept s) (hv : Refers s v) (he : s.points e ≠ none)
    (hp : s.inUse p = false) (hlt : p < 2 ^ 32) (stale : ℕ → List UInt8) :
    ∃ ss size, endpoint2sockaddr (address s stale) v = some (ss, size) ∧
      Succeeds inetPton6 s (.sockaddr2endpoint e ss size (some p)) ∧
      (step inetPton6 s (.sockaddr2endpoint e ss size (some p))).points e = some v := by
  cases hv with
  | @extended q hq hreadable =>
    obtain ⟨hin, hsockaddr⟩ := hreadable.toSockaddr (stale q)
    set r := toSockaddr ⟨s.addr q ++ stale q, (s.addr q).length⟩
    have hok := enabled_sockaddr2endpoint he hp r.1 r.2
    refine ⟨r.1, r.2, ?_, ⟨hok, ?_⟩, ?_⟩
    · unfold endpoint2sockaddr
      rw [handle_extended]
      dsimp only
      rw [address_of_mem hs hq]
      rfl
    · rintro ⟨-, -, hnone | hnone⟩
      · rw [hsockaddr] at hnone
        cases hnone
      · cases hnone
    · unfold step
      rw [if_pos hok, perform, EndPointValue.sockaddr2endpoint, hin, hsockaddr]
      exact create_points hs hq hp hlt e
  | @ipv4 ip port hip hport =>
    set ss := sockaddrIn4 ip port ++ replicate (SOCKADDR_STORAGE_SIZE - 16) 0
    obtain ⟨hin, hfields⟩ := sockaddrIn_sockaddrIn4 hip hport (replicate (SOCKADDR_STORAGE_SIZE - 16) 0)
    have hok := enabled_sockaddr2endpoint he hp ss 16
    refine ⟨ss, 16, ?_, ⟨hok, ?_⟩, ?_⟩
    · unfold endpoint2sockaddr
      rw [handle_ipv4 hport]
    · rintro ⟨-, hnot, -⟩
      rw [hin] at hnot
      cases hnot
    · unfold step
      rw [if_pos hok, perform, EndPointValue.sockaddr2endpoint, hin, hfields, if_pos rfl]
      exact points_setEndpoint _ e _ fun q hq => by
        rw [handle_ipv4 hport] at hq
        cases hq

/-- The text and the `sockaddr` of the fields are read into `e` as the same fields. -/
structure RoundTrips (inetNtop6 : List UInt8 → Text) (inetPton6 : Text → Option (List UInt8))
    (s : State ε)
    (v : EndPoint) (e : ε) (p : ℕ) : Prop where
  str2endpoint : ∀ stale, ∃ text, endpoint2str inetNtop6 (address s stale) v = some text ∧
    Succeeds inetPton6 s (.str2endpoint e text (some p)) ∧
    (step inetPton6 s (.str2endpoint e text (some p))).points e = some v
  sockaddr2endpoint : ∀ stale, ∃ ss size, endpoint2sockaddr (address s stale) v = some (ss, size) ∧
    Succeeds inetPton6 s (.sockaddr2endpoint e ss size (some p)) ∧
    (step inetPton6 s (.sockaddr2endpoint e ss size (some p))).points e = some v

/-- **Texts and `sockaddr`s of endpoints round-trip.** In any run `e` parses a text and gets the
fields `v`; it is held then, if it was no handle of a returned object before. As long as it is held,
`v` is read from its text and its `sockaddr` into any endpoint `e'`, for which the pool has a
slot. -/
theorem run_roundTrip {as bs : List (Act ε)} {s₀ s₁ s₂ : State ε} (h6 : Ntop6 inetNtop6 inetPton6)
    (hsmall : Along (step inetPton6) SmallSlot (start ε) (as ++ .str2endpoint e t slot :: bs))
    (hs₀ : s₀ = runFrom (step inetPton6) (start ε) as)
    (hs₁ : s₁ = step inetPton6 s₀ (.str2endpoint e t slot))
    (hs₂ : s₂ = runFrom (step inetPton6) s₁ bs) (hzero : 0 ∉ t)
    (hparse : Succeeds inetPton6 s₀ (.str2endpoint e t slot)) (hv : s₁.points e = some v) :
    (Live s₀ e → Held inetPton6 e v s₀ (.str2endpoint e t slot)) ∧
      (Along (step inetPton6) (Held inetPton6 e v) s₀ (.str2endpoint e t slot :: bs) →
        ∀ e' p, s₂.points e' ≠ none → s₂.inUse p = false → p < 2 ^ 32 →
          RoundTrips inetNtop6 inetPton6 s₂ v e' p) := by
  have hbefore : Kept s₀ := by
    rw [hs₀]
    exact run_kept (hsmall.initial (prefix_append ..))
  have hrest : SmallSlot s₀ (.str2endpoint e t slot) ∧ Along (step inetPton6) SmallSlot s₁ bs := by
    rw [hs₁, hs₀]
    exact hsmall.append_right
  have hslot : ∀ p ∈ slot, p < 2 ^ 32 := hrest.1
  obtain ⟨w, hw, hlive, hrefers⟩ := parse_refers h6 hbefore hslot hzero hparse
  rw [← hs₁] at hw hrefers
  obtain rfl : w = v := some.inj (hw.symm.trans hv)
  refine ⟨hlive, fun hheld e' p he' hp hlt => ?_⟩
  have hrefers₁ : Refers s₁ w := hrefers hheld.1
  have hset : ∀ q, w.handle = some q → q ∈ s₁.set := by
    intro q hq
    cases hrefers₁ with
    | @extended r hr _ =>
      rw [handle_extended] at hq
      rwa [← some.inj hq]
    | ipv4 _ hport =>
      rw [handle_ipv4 hport] at hq
      exact absurd hq nofun
  have hkept : Kept s₁ := by
    rw [hs₁]
    exact (hbefore.step hrest.1).kept
  obtain ⟨hkept₂, -, hstays⟩ := run_held hkept hv hrest.2 (hs₁ ▸ hheld.2) hset
  rw [← hs₂] at hkept₂ hstays
  have hrefers₂ : Refers s₂ w := by
    cases hrefers₁ with
    | @extended r hr hreadable =>
      obtain ⟨hmem, haddr⟩ := hstays r (handle_extended r)
      exact .extended hmem (haddr ▸ hreadable)
    | ipv4 hip hport => exact .ipv4 hip hport
  exact ⟨hrefers₂.str2endpoint h6 hkept₂ he' hp hlt, hrefers₂.sockaddr2endpoint hkept₂ he' hp hlt⟩

/-- `unix:a`, read into the endpoint 0 and held. -/
theorem run_roundTrip_unix :
    (step ptonLetters (runFrom (step ptonLetters) (start ℕ) [.construct 0, .construct 1])
        (.str2endpoint 0 [117, 110, 105, 120, 58, 97] (some 5))).points 0
          = some ⟨5, EXTENDED_ENDPOINT_PORT⟩ ∧
      RoundTrips letters ptonLetters
      (step ptonLetters (runFrom (step ptonLetters) (start ℕ) [.construct 0, .construct 1])
        (.str2endpoint 0 [117, 110, 105, 120, 58, 97] (some 5))) ⟨5, EXTENDED_ENDPOINT_PORT⟩ 1 6 := by
  have hparse : Succeeds ptonLetters (runFrom (step ptonLetters) (start ℕ) [.construct 0, .construct 1])
      (.str2endpoint 0 [117, 110, 105, 120, 58, 97] (some 5)) :=
    ⟨by decide, fun hfails => absurd hfails.2.1 (by decide)⟩
  have hsmall : Along (step ptonLetters) SmallSlot (start ℕ)
      ([.construct 0, .construct 1] ++ .str2endpoint 0 [117, 110, 105, 120, 58, 97] (some 5) :: []) := by
    refine ⟨nofun, nofun, ?_, trivial⟩
    intro p hp
    rw [← some.inj hp]
    decide
  have hround := run_roundTrip (v := ⟨5, EXTENDED_ENDPOINT_PORT⟩) ntop6_letters hsmall rfl rfl rfl
    (by decide) hparse (by decide)
  have hlive : Live (runFrom (step ptonLetters) (start ℕ) [.construct 0, .construct 1]) 0 := by
    intro q (hq : none = some q)
    exact absurd hq nofun
  exact ⟨by decide, hround.2 ⟨hround.1 hlive, trivial⟩ 1 6 (by decide) (by decide) (by decide)⟩

end Endpoints

end Eabase.Utility.EndPointRoundTrip
