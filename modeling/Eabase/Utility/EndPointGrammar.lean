import Eabase.Utility.Strtol

/-!
# The grammar of `str2endpoint`

`str2endpoint` and `hostname2endpoint` read a host, a colon, a number and spaces.
The number is a `long` that is put into an `int` before its range is looked at, so
some numbers out of the range are taken for ports; and `str2endpoint` does not
look at the character behind the number. Nothing else is accepted wrongly, and
nothing is rejected wrongly.
-/

namespace Eabase.Utility.EndPointGrammar

open Utility.EndPointValue List
open Option (some)
open Utility.Strtol

/-! ## The code -/

/-- `str2endpoint`: what it writes into the fields, if it makes no extended endpoint. -/
def str2endpoint (inetPton6 : Text → Option (List UInt8)) (t : Text) : Option Written :=
  match createText inetPton6 t with
  | some _ => none
  | none => some (str2endpoint4 t)

def MAX_DOMAIN_LENGTH : ℕ := 253

/-- `hostname2ip`, where `resolve` is `gethostbyname_r`. -/
def hostname2ip (resolve : Text → Option ℕ) (t : Text) : Option ℕ :=
  resolve (t.dropWhile isspace)

def hostname2endpoint (resolve : Text → Option ℕ) (t : Text) : Written :=
  let host := t.takeWhile (· ≠ ':'.toUInt8)
  match t.dropWhile (· ≠ ':'.toUInt8) with
  | [] => .nothing
  | _ :: rest =>
    if MAX_DOMAIN_LENGTH ≤ host.length then .nothing
    else
      match hostname2ip resolve host with
      | none => .nothing
      | some ip =>
        let port := toInt (strtol rest).1
        let tail := (strtol rest).2
        if tail = rest ∨ tail.dropWhile isspace ≠ [] then .failed ip (some port)
        else if port < 0 ∨ 65535 < port then .failed ip (some port)
        else .done ip port

/-! ## What is to be accepted -/

/-- Neither the form of an IPv6 address nor the one of a unix socket. -/
def Plain (t : Text) : Prop :=
  (trimSpaces t).head? ≠ some '['.toUInt8 ∧ unixPrefix.isPrefixOf (trimSpaces t) = false

def Spaces (t : Text) : Prop := ∀ c ∈ t, isspace c = true

/-- Optional spaces and a dotted quad, a colon, a number from 0 to 65535, and nothing but spaces. -/
def Grammar (t : Text) (ip : ℕ) (port : ℤ) : Prop :=
  ∃ spaces quad number tail, t = spaces ++ quad ++ ':'.toUInt8 :: (number ++ tail) ∧
    Spaces spaces ∧ inetPton4 quad = some ip ∧ (spaces ++ quad).length ≤ 63 ∧
    Denotes number port ∧ 0 ≤ port ∧ port ≤ 65535 ∧ Spaces tail

/-- A number that is taken for a port. -/
def IntPort (v : ℤ) : Prop := v ≤ -2 ^ 63 ∨ v < 2 ^ 63 ∧ v % 2 ^ 32 ≤ 65535

structure Parts (t host rest : Text) : Prop where
  eq : t = host ++ ':'.toUInt8 :: rest
  notMem : ':'.toUInt8 ∉ host

/-- One character that is no space comes behind the number, and then spaces. -/
def Stray (t : Text) : Prop :=
  ∃ host number c tail ip v, Parts t host (number ++ c :: tail) ∧ host.length < 64 ∧
    str2ip host = some ip ∧
    Denotes number v ∧ IntPort v ∧ isdigit c = false ∧ isspace c = false ∧ Spaces tail

/-- A number is taken for a port that is none. -/
def Wrapped (host2ip : Text → Option ℕ) (limit : ℕ) (t : Text) : Prop :=
  ∃ host number tail ip v, Parts t host (number ++ tail) ∧ host.length < limit ∧ host2ip host = some ip ∧
    Denotes number v ∧ IntPort v ∧ ¬(0 ≤ v ∧ v ≤ 65535) ∧ Spaces tail

/-- A host with a port that is no dotted quad, or a longer one than `str2endpoint` takes. -/
def Named (resolve : Text → Option ℕ) (t : Text) : Prop :=
  ∃ host number tail ip v, Parts t host (number ++ tail) ∧ host.length < MAX_DOMAIN_LENGTH ∧
    hostname2ip resolve host = some ip ∧ (str2ip host = none ∨ 64 ≤ host.length) ∧
    Denotes number v ∧ IntPort v ∧ Spaces tail

/-! ## The number -/

variable {t host rest number tail : Text} {ip limit : ℕ} {v port : ℤ} {c : UInt8}
  {resolve : Text → Option ℕ}

theorem toInt_saturate_iff : 0 ≤ toInt (saturate v) ∧ toInt (saturate v) ≤ 65535 ↔ IntPort v := by
  unfold toInt saturate IntPort
  rw [Int.bmod_def]
  split <;> lia

theorem toInt_saturate_of_le (hlow : 0 ≤ v) (hhigh : v ≤ 65535) : toInt (saturate v) = v := by
  rw [saturate_of_le (by lia) (by lia)]
  unfold toInt
  rw [Int.bmod_def]
  split <;> lia

theorem intPort_of_le (hlow : 0 ≤ v) (hhigh : v ≤ 65535) : IntPort v := by
  unfold IntPort
  lia

theorem isspace_not_isdigit (hc : isspace c = true) : isdigit c = false := by
  rw [Bool.eq_false_iff]
  intro hdigit
  rw [(isdigit_ne hdigit).1] at hc
  exact absurd hc nofun

theorem Spaces.noDigit (h : Spaces t) : NoDigit t := by
  intro c hc
  exact isspace_not_isdigit (h c (mem_of_mem_head? hc))

theorem dropWhile_isspace : t.dropWhile isspace = [] ↔ Spaces t :=
  dropWhile_eq_nil_iff

theorem strtol_cases (rest : Text) : (scan rest = none ∧ (strtol rest).2 = rest) ∨
      ∃ v tail, scan rest = some (v, tail) ∧ strtol rest = (saturate v, tail) ∧ tail ≠ rest := by
  rcases hscan : scan rest with - | ⟨v, tail⟩
  · left
    rw [strtol_eq, hscan]
    exact ⟨rfl, rfl⟩
  · right
    refine ⟨v, tail, rfl, by rw [strtol_eq, hscan], ?_⟩
    rintro rfl
    obtain ⟨f, hf, hdenotes, -⟩ := exists_denotes hscan
    rw [self_eq_append_left.1 hf] at hdenotes
    exact absurd (denotes_iff.1 hdenotes) nofun

/-- What becomes of the number: `skip` is what is not looked at behind it. -/
theorem port_done_iff (skip : Text → Text) {ip' : ℕ} :
    (if (strtol rest).2 = rest ∨ (skip (strtol rest).2).dropWhile isspace ≠ [] then
        Written.failed ip (some (toInt (strtol rest).1))
      else if toInt (strtol rest).1 < 0 ∨ 65535 < toInt (strtol rest).1 then
        Written.failed ip (some (toInt (strtol rest).1))
      else Written.done ip (toInt (strtol rest).1)) = .done ip' port ↔
    ip = ip' ∧ ∃ v tail, scan rest = some (v, tail) ∧ Spaces (skip tail) ∧ IntPort v ∧
    port = toInt (saturate v) := by
  rcases strtol_cases rest with ⟨hscan, hend⟩ | ⟨v, tail, hscan, hread, hend⟩
  · rw [if_pos (.inl hend)]
    constructor
    · exact nofun
    · rintro ⟨-, v, tail, hsome, -⟩
      rw [hscan] at hsome
      exact absurd hsome nofun
  · rw [hread]
    constructor
    · intro hdone
      split at hdone
      case isTrue => exact absurd hdone nofun
      case isFalse htail =>
        rw [not_or, not_not, dropWhile_isspace] at htail
        split at hdone
        case isTrue => exact absurd hdone nofun
        case isFalse hrange =>
          rw [not_or, not_lt, not_lt] at hrange
          obtain ⟨hip, hport⟩ := Written.done.inj hdone
          exact ⟨hip, v, tail, hscan, htail.2, toInt_saturate_iff.1 hrange, hport.symm⟩
    · rintro ⟨rfl, w, tail', hsome, hspaces, hint, rfl⟩
      obtain ⟨rfl, rfl⟩ := Prod.mk.inj (some.inj (hscan.symm.trans hsome))
      obtain ⟨hlow, hhigh⟩ := toInt_saturate_iff.2 hint
      rw [if_neg (not_or.2 ⟨hend, not_not.2 (dropWhile_isspace.2 hspaces)⟩),
        if_neg (not_or.2 ⟨not_lt.2 hlow, not_lt.2 hhigh⟩)]

/-! ## The host -/

theorem parts_iff : Parts t host rest ↔
      t.takeWhile (· ≠ ':'.toUInt8) = host ∧ t.dropWhile (· ≠ ':'.toUInt8) = ':'.toUInt8 :: rest := by
  constructor
  · rintro ⟨rfl, hnot⟩
    have hall : ∀ c ∈ host, decide (c ≠ ':'.toUInt8) = true :=
      fun c hc => decide_eq_true fun heq => hnot (heq ▸ hc)
    rw [takeWhile_append_of_pos hall, dropWhile_append_of_pos hall]
    exact ⟨append_nil host, rfl⟩
  · rintro ⟨rfl, hdrop⟩
    constructor
    · rw [← hdrop, takeWhile_append_dropWhile]
    · intro hmem
      exact absurd (mem_takeWhile_imp hmem) (by decide)

theorem Parts.unique {host' rest' : Text} (h : Parts t host rest) (h' : Parts t host' rest') :
    host = host' ∧ rest = rest' := by
  obtain ⟨htake, hdrop⟩ := parts_iff.1 h
  obtain ⟨htake', hdrop'⟩ := parts_iff.1 h'
  exact ⟨htake.symm.trans htake', (cons.inj (hdrop.symm.trans hdrop')).2⟩

theorem parts_cases (t : Text) :
    (t.dropWhile (· ≠ ':'.toUInt8) = [] ∧ ∀ host rest, ¬Parts t host rest) ∨
      ∃ rest, t.dropWhile (· ≠ ':'.toUInt8) = ':'.toUInt8 :: rest ∧
        Parts t (t.takeWhile (· ≠ ':'.toUInt8)) rest := by
  rcases hdrop : t.dropWhile (· ≠ ':'.toUInt8) with - | ⟨c, rest⟩
  · refine .inl ⟨rfl, fun host rest h => ?_⟩
    rw [(parts_iff.1 h).2] at hdrop
    exact absurd hdrop (cons_ne_nil _ _)
  · have hc : c = ':'.toUInt8 := by
      have hhead := head?_dropWhile_not (fun c => decide (c ≠ ':'.toUInt8)) t
      rw [hdrop] at hhead
      simpa using hhead
    rw [hc] at hdrop ⊢
    exact .inr ⟨rest, rfl, parts_iff.2 ⟨rfl, hdrop⟩⟩

theorem str2endpoint4_done_iff : str2endpoint4 t = .done ip port ↔
      ∃ host rest v tail, Parts t host rest ∧ host.length < 64 ∧ str2ip host = some ip ∧
        scan rest = some (v, tail) ∧ Spaces (tail.drop 1) ∧ IntPort v ∧ port = toInt (saturate v) := by
  unfold str2endpoint4
  rcases parts_cases t with ⟨hdrop, hnone⟩ | ⟨rest, hdrop, hparts⟩
  · rw [hdrop]
    constructor
    · exact nofun
    · rintro ⟨host, rest, -, -, hparts, -⟩
      exact absurd hparts (hnone host rest)
  · rw [hdrop]
    dsimp only
    constructor
    · intro hdone
      split at hdone
      case isTrue => exact absurd hdone nofun
      case isFalse hlen =>
        split at hdone
        case h_1 => exact absurd hdone nofun
        case h_2 ip' hip =>
          obtain ⟨rfl, v, tail, hread⟩ := (port_done_iff (drop 1)).1 hdone
          exact ⟨_, rest, v, tail, hparts, not_le.1 hlen, hip, hread⟩
    · rintro ⟨host, rest', v, tail, hparts', hlen, hip, hread⟩
      obtain ⟨hhost, hrest⟩ := hparts.unique hparts'
      rw [hhost, if_neg (not_le.2 hlen), hip, hrest]
      exact (port_done_iff (drop 1)).2 ⟨rfl, v, tail, hread⟩

theorem hostname2endpoint_done_iff :
    hostname2endpoint resolve t = .done ip port ↔
      ∃ host rest v tail, Parts t host rest ∧ host.length < MAX_DOMAIN_LENGTH ∧
      hostname2ip resolve host = some ip ∧
        scan rest = some (v, tail) ∧ Spaces tail ∧ IntPort v ∧ port = toInt (saturate v) := by
  unfold hostname2endpoint
  rcases parts_cases t with ⟨hdrop, hnone⟩ | ⟨rest, hdrop, hparts⟩
  · rw [hdrop]
    constructor
    · exact nofun
    · rintro ⟨host, rest, -, -, hparts, -⟩
      exact absurd hparts (hnone host rest)
  · rw [hdrop]
    dsimp only
    constructor
    · intro hdone
      split at hdone
      case isTrue => exact absurd hdone nofun
      case isFalse hlen =>
        split at hdone
        case h_1 => exact absurd hdone nofun
        case h_2 ip' hip =>
          obtain ⟨rfl, v, tail, hread⟩ := (port_done_iff id).1 hdone
          exact ⟨_, rest, v, tail, hparts, not_le.1 hlen, hip, hread⟩
    · rintro ⟨host, rest', v, tail, hparts', hlen, hip, hread⟩
      obtain ⟨hhost, hrest⟩ := hparts.unique hparts'
      rw [hhost, if_neg (not_le.2 hlen), hip, hrest]
      exact (port_done_iff id).2 ⟨rfl, v, tail, hread⟩

theorem inetPtonLoop_chars {read ns : List ℕ} {cur : Option ℕ} (h : inetPtonLoop t read cur = some ns) :
    ∀ c ∈ t, isdigit c = true ∨ c = '.'.toUInt8 := by
  induction t generalizing read cur with
  | nil => exact fun c hc => absurd hc not_mem_nil
  | cons c t ih =>
    have hnext : ∃ read cur, inetPtonLoop t read cur = some ns ∧
        (isdigit c = true ∨ c = '.'.toUInt8) := by
      unfold inetPtonLoop at h
      split at h
      case isTrue hdigit =>
        split at h
        case h_1 => exact ⟨_, _, h, .inl hdigit⟩
        case h_2 n =>
          split at h
          case isTrue => exact absurd h nofun
          case isFalse => exact ⟨_, _, h, .inl hdigit⟩
      case isFalse =>
        split at h
        case isTrue hdot =>
          split at h
          case h_1 => exact absurd h nofun
          case h_2 n =>
            split at h
            case isTrue => exact absurd h nofun
            case isFalse => exact ⟨_, _, h, .inr hdot⟩
        case isFalse => exact absurd h nofun
    obtain ⟨read', cur', hrest, hc⟩ := hnext
    intro d hd
    rcases mem_cons.1 hd with rfl | hd
    · exact hc
    · exact ih hrest d hd

theorem inetPton4_chars (h : inetPton4 t = some ip) : ∀ c ∈ t, isspace c = false ∧ c ≠ ':'.toUInt8 := by
  obtain ⟨ns, hns, -⟩ := Option.map_eq_some_iff.1 h
  intro c hc
  rcases inetPtonLoop_chars hns c hc with hdigit | rfl
  · refine ⟨(isdigit_ne hdigit).1, ?_⟩
    rintro rfl
    exact absurd hdigit (by decide)
  · decide

theorem isspace_ne_colon (hc : isspace c = true) : c ≠ ':'.toUInt8 := by
  rintro rfl
  exact absurd hc (by decide)

theorem str2ip_iff {host : Text} : str2ip host = some ip ∧ ':'.toUInt8 ∉ host ↔
      ∃ spaces quad, host = spaces ++ quad ∧ Spaces spaces ∧ inetPton4 quad = some ip := by
  constructor
  · rintro ⟨hip, -⟩
    refine ⟨host.takeWhile isspace, host.dropWhile isspace, takeWhile_append_dropWhile.symm, ?_, hip⟩
    exact fun c hc => mem_takeWhile_imp hc
  · rintro ⟨spaces, quad, rfl, hspaces, hquad⟩
    have hchars := inetPton4_chars hquad
    constructor
    · unfold str2ip
      rw [dropWhile_append_of_pos hspaces]
      have hdrop : quad.dropWhile isspace = quad := by
        rcases quad with - | ⟨c, quad⟩
        · rfl
        · exact dropWhile_cons_of_neg (by rw [(hchars c mem_cons_self).1]; exact nofun)
      rw [hdrop, hquad]
    · intro hmem
      rcases mem_append.1 hmem with hmem | hmem
      · exact isspace_ne_colon (hspaces _ hmem) rfl
      · exact (hchars _ hmem).2 rfl

theorem grammar_iff : Grammar t ip port ↔
      ∃ host rest tail, Parts t host rest ∧ host.length < 64 ∧ str2ip host = some ip ∧
        scan rest = some (port, tail) ∧ Spaces tail ∧ 0 ≤ port ∧ port ≤ 65535 := by
  constructor
  · rintro ⟨spaces, quad, number, tail, ht, hspaces, hquad, hlen, hnumber, hlow, hhigh, htail⟩
    obtain ⟨hip, hnot⟩ := str2ip_iff.2 ⟨spaces, quad, rfl, hspaces, hquad⟩
    exact ⟨spaces ++ quad, number ++ tail, tail, ⟨ht, hnot⟩, Nat.lt_succ_of_le hlen, hip,
      hnumber.scan_append htail.noDigit, htail, hlow, hhigh⟩
  · rintro ⟨host, rest, tail, hparts, hlen, hip, hscan, htail, hlow, hhigh⟩
    obtain ⟨spaces, quad, rfl, hspaces, hquad⟩ := str2ip_iff.1 ⟨hip, hparts.notMem⟩
    obtain ⟨number, rfl, hnumber, -⟩ := exists_denotes hscan
    exact ⟨spaces, quad, number, tail, hparts.eq, hspaces, hquad, Nat.le_of_lt_succ hlen, hnumber,
      hlow, hhigh, htail⟩

theorem Grammar.parts (h : Grammar t ip port) (hparts : Parts t host rest) (hscan : scan rest = some (v, tail)) :
    host.length < 64 ∧ str2ip host = some ip ∧ Spaces tail ∧ 0 ≤ v ∧ v ≤ 65535 := by
  obtain ⟨host', rest', tail', hparts', hlen, hip, hscan', htail, hlow, hhigh⟩ := grammar_iff.1 h
  obtain ⟨rfl, rfl⟩ := hparts.unique hparts'
  obtain ⟨rfl, rfl⟩ := Prod.mk.inj (some.inj (hscan.symm.trans hscan'))
  exact ⟨hlen, hip, htail, hlow, hhigh⟩

/-! ## When exactly the grammar is accepted -/

theorem createText_plain {inetPton6 : Text → Option (List UInt8)} (h : Plain t) :
    createText inetPton6 t = none := by
  unfold createText
  rw [if_neg h.1, h.2]
  rfl

theorem str2endpoint4_of_grammar (h : Grammar t ip port) : str2endpoint4 t = .done ip port := by
  obtain ⟨host, rest, tail, hparts, hlen, hip, hscan, htail, hlow, hhigh⟩ := grammar_iff.1 h
  refine str2endpoint4_done_iff.2 ⟨host, rest, port, tail, hparts, hlen, hip, hscan, ?_,
    intPort_of_le hlow hhigh,
    (toInt_saturate_of_le hlow hhigh).symm⟩
  exact fun c hc => htail c (mem_of_mem_drop hc)

theorem str2endpoint4_iff :
    (∀ ip port, str2endpoint4 t = .done ip port ↔ Grammar t ip port) ↔ ¬Stray t ∧
    ¬Wrapped str2ip 64 t := by
  constructor
  · intro h
    constructor
    · rintro ⟨host, number, c, tail, ip, v, hparts, hlen, hip, hnumber, hint, hdigit, hspace, htail⟩
      have hscan : scan (number ++ c :: tail) = some (v, c :: tail) :=
        hnumber.scan_append fun d hd => some.inj hd ▸ hdigit
      have hgrammar := (h ip _).1
        (str2endpoint4_done_iff.2 ⟨host, _, v, c :: tail, hparts, hlen, hip, hscan, htail, hint, rfl⟩)
      obtain ⟨-, -, htail', -⟩ := hgrammar.parts hparts hscan
      rw [htail' c mem_cons_self] at hspace
      exact absurd hspace nofun
    · rintro ⟨host, number, tail, ip, v, hparts, hlen, hip, hnumber, hint, hrange, htail⟩
      have hscan : scan (number ++ tail) = some (v, tail) := hnumber.scan_append htail.noDigit
      have hgrammar := (h ip _).1 (str2endpoint4_done_iff.2 ⟨host, _, v, tail, hparts, hlen, hip, hscan,
        fun c hc => htail c (mem_of_mem_drop hc), hint, rfl⟩)
      obtain ⟨-, -, -, hin⟩ := hgrammar.parts hparts hscan
      exact hrange hin
  · rintro ⟨hstray, hwrapped⟩ ip port
    refine ⟨fun hdone => ?_, str2endpoint4_of_grammar⟩
    obtain ⟨host, rest, v, tail, hparts, hlen, hip, hscan, htail, hint, rfl⟩ :=
      str2endpoint4_done_iff.1 hdone
    obtain ⟨number, rfl, hnumber, hdigit⟩ := exists_denotes hscan
    have hspaces : Spaces tail := by
      rcases tail with - | ⟨c, tail⟩
      · exact nofun
      · cases hc : isspace c with
        | false => exact absurd ⟨host, number, c, tail, ip, v, hparts, hlen, hip, hnumber, hint,
            hdigit c rfl, hc, htail⟩ hstray
        | true =>
          intro d hd
          rcases mem_cons.1 hd with rfl | hd
          · exact hc
          · exact htail d hd
    have hrange : 0 ≤ v ∧ v ≤ 65535 := by
      by_contra hout
      exact hwrapped ⟨host, number, tail, ip, v, hparts, hlen, hip, hnumber, hint, hout, hspaces⟩
    rw [toInt_saturate_of_le hrange.1 hrange.2]
    exact grammar_iff.2 ⟨host, _, tail, hparts, hlen, hip, hscan, hspaces, hrange⟩

theorem hostname2endpoint_iff
    (hresolve : ∀ s ip, inetPton4 s = some ip → resolve s = some ip) :
    (∀ ip port, hostname2endpoint resolve t = .done ip port ↔ Grammar t ip port) ↔
      ¬Wrapped (hostname2ip resolve) MAX_DOMAIN_LENGTH t ∧ ¬Named resolve t := by
  have hquad : ∀ {host ip}, str2ip host = some ip → hostname2ip resolve host = some ip := fun hip =>
    hresolve _ _ hip
  constructor
  · intro h
    constructor
    · rintro ⟨host, number, tail, ip, v, hparts, hlen, hip, hnumber, hint, hrange, htail⟩
      have hscan : scan (number ++ tail) = some (v, tail) := hnumber.scan_append htail.noDigit
      have hgrammar := (h ip _).1
        (hostname2endpoint_done_iff.2 ⟨host, _, v, tail, hparts, hlen, hip, hscan, htail, hint, rfl⟩)
      obtain ⟨-, -, -, hin⟩ := hgrammar.parts hparts hscan
      exact hrange hin
    · rintro ⟨host, number, tail, ip, v, hparts, hlen, hip, hother, hnumber, hint, htail⟩
      have hscan : scan (number ++ tail) = some (v, tail) := hnumber.scan_append htail.noDigit
      have hgrammar := (h ip _).1
        (hostname2endpoint_done_iff.2 ⟨host, _, v, tail, hparts, hlen, hip, hscan, htail, hint, rfl⟩)
      obtain ⟨hlen', hip', -⟩ := hgrammar.parts hparts hscan
      rcases hother with hnone | hlong
      · rw [hnone] at hip'
        exact absurd hip' nofun
      · exact absurd hlen' (not_lt.2 hlong)
  · rintro ⟨hwrapped, hnamed⟩ ip port
    constructor
    · intro hdone
      obtain ⟨host, rest, v, tail, hparts, hlen, hip, hscan, htail, hint, rfl⟩ :=
        hostname2endpoint_done_iff.1 hdone
      obtain ⟨number, rfl, hnumber, -⟩ := exists_denotes hscan
      have hrange : 0 ≤ v ∧ v ≤ 65535 := by
        by_contra hout
        exact hwrapped ⟨host, number, tail, ip, v, hparts, hlen, hip, hnumber, hint, hout, htail⟩
      have hshort : str2ip host = some ip ∧ host.length < 64 := by
        by_contra hother
        apply hnamed
        refine ⟨host, number, tail, ip, v, hparts, hlen, hip, ?_, hnumber, hint, htail⟩
        rcases hstr : str2ip host with - | ip'
        · exact .inl rfl
        · have hsame : ip' = ip := some.inj ((hquad hstr).symm.trans hip)
          rw [hstr, hsame] at hother
          exact .inr (not_lt.1 fun hlt => hother ⟨rfl, hlt⟩)
      rw [toInt_saturate_of_le hrange.1 hrange.2]
      exact grammar_iff.2 ⟨host, _, tail, hparts, hshort.2, hshort.1, hscan, htail, hrange⟩
    · intro hgrammar
      obtain ⟨host, rest, tail, hparts, hlen, hip, hscan, htail, hlow, hhigh⟩ := grammar_iff.1 hgrammar
      exact hostname2endpoint_done_iff.2 ⟨host, rest, port, tail, hparts, hlen.trans (by decide),
        hquad hip, hscan,
        htail, intPort_of_le hlow hhigh, (toInt_saturate_of_le hlow hhigh).symm⟩

/-- **`str2endpoint` accepts its grammar and nothing else** exactly where no character is behind the
number that is no space, and the number is not taken for a port that it is none; `hostname2endpoint`
does exactly where the number is not, and the host is a dotted quad that is not longer. -/
theorem accepts_grammar_iff {inetPton6 : Text → Option (List UInt8)} {resolve : Text → Option ℕ}
    (hplain : Plain t)
    (hresolve : ∀ s ip, inetPton4 s = some ip → resolve s = some ip) :
    ((∀ ip port, str2endpoint inetPton6 t = some (.done ip port) ↔ Grammar t ip port) ↔
      ¬Stray t ∧ ¬Wrapped str2ip 64 t) ∧
    ((∀ ip port, hostname2endpoint resolve t = .done ip port ↔ Grammar t ip port) ↔
      ¬Wrapped (hostname2ip resolve) MAX_DOMAIN_LENGTH t ∧ ¬Named resolve t) := by
  have hstr : str2endpoint inetPton6 t = some (str2endpoint4 t) := by
    unfold str2endpoint
    rw [createText_plain hplain]
  refine ⟨?_, hostname2endpoint_iff hresolve⟩
  rw [hstr]
  simp only [some.injEq]
  exact str2endpoint4_iff

instance (t : Text) : Decidable (Plain t) := by
  unfold Plain
  infer_instance

/-- `1.2.3.4: 80`. -/
theorem accepts_grammar_iff_eighty :
    ((∀ ip port, str2endpoint (fun _ => none) [49, 46, 50, 46, 51, 46, 52, 58, 32, 56, 48]
      = some (.done ip port) ↔
        Grammar [49, 46, 50, 46, 51, 46, 52, 58, 32, 56, 48] ip port) ↔
      ¬Stray [49, 46, 50, 46, 51, 46, 52, 58, 32, 56, 48] ∧
        ¬Wrapped str2ip 64 [49, 46, 50, 46, 51, 46, 52, 58, 32, 56, 48]) ∧
    ((∀ ip port, hostname2endpoint inetPton4 [49, 46, 50, 46, 51, 46, 52, 58, 32, 56, 48]
      = .done ip port ↔
        Grammar [49, 46, 50, 46, 51, 46, 52, 58, 32, 56, 48] ip port) ↔
      ¬Wrapped (hostname2ip inetPton4) MAX_DOMAIN_LENGTH [49, 46, 50, 46, 51, 46, 52, 58, 32, 56, 48] ∧
        ¬Named inetPton4 [49, 46, 50, 46, 51, 46, 52, 58, 32, 56, 48]) :=
  accepts_grammar_iff (by decide) fun _ _ h => h

/-- `str2endpoint` takes 80 from `1.2.3.4:80x`, and both take it from `1.2.3.4:4294967376`. -/
theorem not_accepts_grammar :
    (Plain [49, 46, 50, 46, 51, 46, 52, 58, 56, 48, 120] ∧
      str2endpoint (fun _ => none) [49, 46, 50, 46, 51, 46, 52, 58, 56, 48, 120]
        = some (.done 0x04030201 80) ∧
      ¬Grammar [49, 46, 50, 46, 51, 46, 52, 58, 56, 48, 120] 0x04030201 80) ∧
    (Plain [49, 46, 50, 46, 51, 46, 52, 58, 52, 50, 57, 52, 57, 54, 55, 51, 55, 54] ∧
      str2endpoint (fun _ => none) [49, 46, 50, 46, 51, 46, 52, 58, 52, 50, 57, 52, 57, 54, 55, 51,
        55, 54] =
        some (.done 0x04030201 80) ∧
      hostname2endpoint inetPton4 [49, 46, 50, 46, 51, 46, 52, 58, 52, 50, 57, 52, 57, 54, 55, 51,
        55, 54] =
        .done 0x04030201 80 ∧
      ¬Grammar [49, 46, 50, 46, 51, 46, 52, 58, 52, 50, 57, 52, 57, 54, 55, 51, 55, 54] 0x04030201
      80) := by
  refine ⟨⟨by decide, by decide, fun h => ?_⟩, by decide, by decide, by decide, fun h => ?_⟩
  · obtain ⟨host, rest, tail, hparts, -, -, hscan, htail, -⟩ := grammar_iff.1 h
    have hfirst : Parts [49, 46, 50, 46, 51, 46, 52, 58, 56, 48, 120] [49, 46, 50, 46, 51, 46,
        52] [56, 48, 120] :=
      ⟨rfl, by decide⟩
    obtain ⟨-, rfl⟩ := hfirst.unique hparts
    have hread : scan [56, 48, 120] = some (80, [120]) := by decide
    obtain ⟨-, rfl⟩ := Prod.mk.inj (some.inj (hread.symm.trans hscan))
    exact absurd (htail 120 mem_cons_self) (by decide)
  · obtain ⟨host, rest, tail, hparts, -, -, hscan, -⟩ := grammar_iff.1 h
    have hfirst : Parts [49, 46, 50, 46, 51, 46, 52, 58, 52, 50, 57, 52, 57, 54, 55, 51, 55, 54]
        [49, 46, 50, 46, 51, 46, 52] [52, 50, 57, 52, 57, 54, 55, 51, 55, 54] := ⟨rfl, by decide⟩
    obtain ⟨-, rfl⟩ := hfirst.unique hparts
    have hread : scan [52, 50, 57, 52, 57, 54, 55, 51, 55, 54] = some (4294967376, []) := by decide
    exact absurd (Prod.mk.inj (some.inj (hread.symm.trans hscan))).1 (by decide)

end Eabase.Utility.EndPointGrammar
