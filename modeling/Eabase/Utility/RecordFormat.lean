import Eabase.Utility.RecordResync

/-!
# The format of a record

What `WriteWithoutFlush` appends for a record (`encode`), and what the list of metas of a
record comes to, whoever wrote it (`MetaList`): the metas and the payload that it stands for, a
meta that is refused, or a meta whose head goes over the end of the data. Every byte string is
one of these (`exists_fate`), and `CutRecord` does what it says (`metaLoop_fate`).
-/

namespace Eabase.Utility.RecordIO

open List

open IOBuf (Byte)

variable {S T : List Byte} {maxRecordSize : ℕ} {w : List Byte}

/-! ## Words -/

/-- `HostToNet32`, as four bytes of memory. -/
def hostToNet32 (n : ℕ) : List Byte := [24, 16, 8, 0].map fun i => UInt8.ofNat (n >>> i)

@[simp] theorem length_hostToNet32 (n : ℕ) : (hostToNet32 n).length = 4 := rfl

theorem netToHost32_hostToNet32 {n : ℕ} (h : n < 2 ^ 32) : netToHost32 (hostToNet32 n) = n := by
  have hmore : ∀ i m, n / 2 ^ (i + 8) % m * 256 + n / 2 ^ i % 256 = n / 2 ^ i % (256 * m) := by
    intro i m
    rw [Nat.mod_mul, Nat.pow_add, ← Nat.div_div_eq_div_mul, mul_comm, add_comm]
  simp only [hostToNet32, netToHost32, map_cons, map_nil, foldl_cons, foldl_nil, UInt8.toNat_ofNat',
    Nat.shiftRight_eq_div_pow, zero_mul, zero_add]
  rw [hmore 16, hmore 8, hmore 0, pow_zero, Nat.div_one]
  exact Nat.mod_eq_of_lt h

theorem netToHost32_lt (h : w.length = 4) : netToHost32 w < 2 ^ 32 := by
  obtain ⟨a, b, c, d, rfl⟩ := length_eq_four.1 h
  have ha := a.toNat_lt
  have hb := b.toNat_lt
  have hc := c.toNat_lt
  have hd := d.toNat_lt
  simp only [netToHost32, foldl_cons, foldl_nil]
  lia

theorem hostToNet32_netToHost32 (h : w.length = 4) : hostToNet32 (netToHost32 w) = w := by
  obtain ⟨a, b, c, d, rfl⟩ := length_eq_four.1 h
  have ha := a.toNat_lt
  have hb := b.toNat_lt
  have hc := c.toNat_lt
  have hd := d.toNat_lt
  simp only [netToHost32, hostToNet32, foldl_cons, foldl_nil, map_cons, map_nil,
    Nat.shiftRight_eq_div_pow, cons.injEq, and_true]
  refine ⟨?_, ?_, ?_, ?_⟩ <;> apply UInt8.toNat_inj.1 <;> rw [UInt8.toNat_ofNat'] <;> omega

/-- A size of 31 bits with the bit above it, as `tmp |= 0x80000000` sets it. -/
def flagged (size : ℕ) (flag : Bool) : ℕ := size + if flag then 2 ^ 31 else 0

theorem flagged_lt {size : ℕ} (h : size < 2 ^ 31) (flag : Bool) : flagged size flag < 2 ^ 32 := by
  cases flag <;> simp only [flagged, Bool.false_eq_true, if_true, if_false] <;> lia

theorem flagged_mod {size : ℕ} (h : size < 2 ^ 31) (flag : Bool) : flagged size flag % 2 ^ 31 = size := by
  cases flag <;> simp only [flagged, Bool.false_eq_true, if_true, if_false] <;> lia

theorem le_flagged {size : ℕ} (h : size < 2 ^ 31) (flag : Bool) :
    decide (2 ^ 31 ≤ flagged size flag) = flag := by
  cases flag
  · simpa [flagged] using h
  · simp [flagged]

theorem flagged_of_word {v : ℕ} (h : v < 2 ^ 32) : flagged (v % 2 ^ 31) (2 ^ 31 ≤ v) = v := by
  unfold flagged
  by_cases hle : 2 ^ 31 ≤ v
  · rw [if_pos (decide_eq_true hle)]
    lia
  · rw [if_neg (by simpa using hle)]
    lia

/-! ## What is written -/

/-- `metabuf`: what stands before the bytes of a meta. -/
def metabuf (name : List Byte) (size : ℕ) (more : Bool) : List Byte :=
  UInt8.ofNat name.length :: (name ++ hostToNet32 (flagged size more))

/-- `headbuf`. -/
def headbuf (dataSize : ℕ) (hasMeta : Bool) : List Byte :=
  magic ++ hostToNet32 (flagged dataSize hasMeta) ++ [sizeChecksum (flagged dataSize hasMeta)]

def encodeMetas : List (List Byte × List Byte) → List Byte
  | [] => []
  | m :: ms => metabuf m.1 m.2.length (ms ≠ []) ++ m.2 ++ encodeMetas ms

def Record.encodeData (q : Record) : List Byte := encodeMetas q.metas ++ q.payload

/-- What `WriteWithoutFlush` appends. -/
def Record.encode (q : Record) : List Byte := headbuf q.encodeData.length (q.metas ≠ []) ++ q.encodeData

@[simp] theorem length_metabuf (name : List Byte) (size : ℕ) (more : Bool) :
    (metabuf name size more).length = 5 + name.length := by
  simp [metabuf]
  lia

@[simp] theorem length_headbuf (dataSize : ℕ) (hasMeta : Bool) : (headbuf dataSize hasMeta).length
      = 9 := by
  simp [headbuf]

theorem length_encodeMetas (ms : List (List Byte × List Byte)) :
    (encodeMetas ms).length = (ms.map fun m => 5 + m.1.length + m.2.length).sum := by
  induction ms with
  | nil => rfl
  | cons m ms ih => simp [encodeMetas, ih, add_assoc]

theorem Record.length_encode (q : Record) : q.encode.length = q.byteSize := by
  simp only [encode, encodeData, byteSize, length_append, length_headbuf, length_encodeMetas]
  lia

theorem cutMetaHead_metabuf {name : List Byte} {size : ℕ} (hname : name.length < 256) (more : Bool)
    (tmp T : List Byte) :
    cutMetaHead .ofBytes tmp (metabuf name size more ++ T)
      = ⟨true, name.length, name, hostToNet32 (flagged size more) ++ tmp.drop 4, T⟩ := by
  have hsize : (UInt8.ofNat name.length).toNat = name.length := by
    rw [UInt8.toNat_ofNat', Nat.mod_eq_of_lt hname]
  have hword : (hostToNet32 (flagged size more) ++ T).take 4 = hostToNet32 (flagged size more) :=
    take_left' (length_hostToNet32 _)
  have hrest : (hostToNet32 (flagged size more) ++ T).drop 4 = T := drop_left' (length_hostToNet32 _)
  simp only [metabuf, cons_append, append_assoc, cutMetaHead, CutterOps.ofBytes, head?_cons,
    Option.getD_some, tail_cons, hsize, Option.isSome_some, take_left, drop_left, hword, hrest,
    length_hostToNet32]

/-! ## The list of metas -/

/-- What a list of metas comes to: the metas and the payload, what is behind the head that is
refused, or what the data ends with where a head goes over its end. -/
inductive Fate where
  | accepted (metas : List (List Byte × List Byte)) (payload : List Byte)
  | refused (rest : List Byte)
  | overrun (rest : List Byte)

/-- The fate of a list with one more meta before it. -/
def Fate.behind (m : List Byte × List Byte) : Fate → Fate
  | accepted metas payload => accepted (m :: metas) payload
  | refused rest => refused rest
  | overrun rest => overrun rest

/-- A name that a record with these names takes. -/
structure NameOk (names : List (List Byte)) (name : List Byte) : Prop where
  ne_nil : name ≠ []
  fresh : name ∉ names
  lt : name.length < 256

/-- The data that begin with the list of metas, those with the names having been read. -/
inductive MetaList : List (List Byte) → List Byte → Fate → Prop
  | overrun (names : List (List Byte)) (B : List Byte) (h : B.length < 5 + (B.headD 0).toNat) :
      MetaList names B (.overrun B)
  | refused (names : List (List Byte)) (name : List Byte) (size : ℕ) (more : Bool) (rest : List Byte)
      (hname : name.length < 256) (hsize : size < 2 ^ 31)
        (hbad : name = [] ∨ name ∈ names ∨ rest.length < size) :
      MetaList names (metabuf name size more ++ rest) (.refused rest)
  | last (names : List (List Byte)) (name data payload : List Byte) (hok : NameOk names name)
      (hsize : data.length < 2 ^ 31) :
      MetaList names (metabuf name data.length false ++ (data ++ payload))
        (.accepted [(name, data)] payload)
  | more (names : List (List Byte)) (name data rest : List Byte) (f : Fate) (hok : NameOk names name)
      (hsize : data.length < 2 ^ 31) (h : MetaList (names ++ [name]) rest f) :
      MetaList names (metabuf name data.length true ++ (data ++ rest)) (f.behind (name, data))

theorem exists_metabuf (h : 5 + (S.headD 0).toNat ≤ S.length) :
    ∃ name size more rest, name.length < 256 ∧ size < 2 ^ 31 ∧ S = metabuf name size more ++ rest := by
  cases S with
  | nil => exact absurd h (by simp)
  | cons c S =>
    rw [headD_cons, length_cons] at h
    have hc := c.toNat_lt
    have hlen : (S.take c.toNat).length = c.toNat := length_take_of_le (by lia)
    have hword : ((S.drop c.toNat).take 4).length = 4 := by
      rw [length_take, length_drop]
      lia
    have hlt := netToHost32_lt hword
    refine ⟨S.take c.toNat, netToHost32 ((S.drop c.toNat).take 4) % 2 ^ 31,
      decide (2 ^ 31 ≤ netToHost32 ((S.drop c.toNat).take 4)), (S.drop c.toNat).drop 4, by lia,
      Nat.mod_lt _ (by decide), ?_⟩
    rw [metabuf, flagged_of_word hlt, hostToNet32_netToHost32 hword, hlen, UInt8.ofNat_toNat, cons_append,
      append_assoc, take_append_drop, take_append_drop]

theorem exists_fate (B : List Byte) : ∀ names, ∃ f, MetaList names B f := by
  induction hn : B.length using Nat.strong_induction_on generalizing B with
  | _ n ih =>
    intro names
    by_cases hover : B.length < 5 + (B.headD 0).toNat
    · exact ⟨_, .overrun names B hover⟩
    obtain ⟨name, size, more, rest, hname, hsize, rfl⟩ := exists_metabuf (Nat.le_of_not_lt hover)
    by_cases hbad : name = [] ∨ name ∈ names ∨ rest.length < size
    · exact ⟨_, .refused names name size more rest hname hsize hbad⟩
    obtain ⟨hne, hfresh, hle⟩ := by simpa only [not_or, not_lt] using hbad
    -- the bytes of the meta, and what is behind them
    have hdata : (rest.take size).length = size := length_take_of_le hle
    rw [← take_append_drop size rest]
    cases more with
    | false =>
      have hlast := MetaList.last names name (rest.take size) (rest.drop size) ⟨hne, hfresh, hname⟩
        (by lia)
      rw [hdata] at hlast
      exact ⟨_, hlast⟩
    | true =>
      have hlt : (rest.drop size).length < n := by
        rw [← hn, length_append, length_metabuf, length_drop]
        lia
      obtain ⟨f, hf⟩ := ih _ hlt _ rfl (names ++ [name])
      have hmore := MetaList.more names name (rest.take size) (rest.drop size) f
        ⟨hne, hfresh, hname⟩ (by lia) hf
      rw [hdata] at hmore
      exact ⟨_, hmore⟩

/-! ## What `CutRecord` makes of it -/

theorem mutableMeta_ok {q : Record} {name : List Byte} (h : NameOk (q.metas.map (·.1)) name) :
    q.mutableMeta name true = some (q.metas.length, { q with metas := q.metas ++ [(name, [])] }) := by
  have hfind : q.metas.findIdx? (fun m => decide (m.1 = name)) = none := by
    rw [findIdx?_eq_none_iff]
    intro m hm
    apply decide_eq_false
    rintro rfl
    exact h.fresh (mem_map_of_mem hm)
  have hlen : ¬MAX_NAME_SIZE < name.length := Nat.not_lt.2 (le_of_lt h.lt)
  rw [Record.mutableMeta, hfind]
  simp only [if_neg hlen, if_neg h.ne_nil]

theorem mutableMeta_bad {q : Record} {name : List Byte} (h : name = [] ∨ name ∈ q.metas.map (·.1)) :
    q.mutableMeta name true = none := by
  rw [Record.mutableMeta]
  cases hfind : q.metas.findIdx? (fun m => decide (m.1 = name)) with
  | some i => rfl
  | none =>
    rw [findIdx?_eq_none_iff] at hfind
    rcases h with rfl | hmem
    · simp
    · obtain ⟨m, hm, heq⟩ := mem_map.1 hmem
      exact absurd heq (of_decide_eq_false (hfind m hm))

theorem appendMeta_last (q : Record) (name bs : List Byte) :
    Record.appendMeta q.metas.length bs { q with metas := q.metas ++ [(name, [])] }
      = { q with metas := q.metas ++ [(name, bs)] } := by
  simp [Record.appendMeta, modify_eq_take_drop]

/-- What the loop over the metas comes to, with `T` behind the data `B`. -/
def Comes (q : Record) (B T : List Byte) (n : ℕ) (checked : Bool) : Fate → CutResult (List Byte) → Prop
  | .accepted metas payload, x =>
      x = ⟨1, ⟨q.metas ++ metas, q.payload ++ payload⟩, ⟨T, n + B.length⟩, checked⟩
  | .refused rest, x =>
      ∃ q', rest.length ≤ B.length ∧ x = ⟨-1, q', ⟨rest ++ T, n + (B.length - rest.length)⟩, checked⟩
  | .overrun rest, x =>
      ∃ q' size, rest.length ≤ B.length ∧ rest.length < size ∧
        x = ⟨-1, q', ⟨(rest ++ T).drop size, n + (B.length - rest.length + size)⟩, checked &&
          !(rest ++ T).isEmpty⟩

section

variable {names : List (List Byte)} {B : List Byte} {f : Fate} {dataSize fuel consumed n size : ℕ}
    {tmp name : List Byte}
  {q : Record} {checked more : Bool}

theorem metaLoop_metabuf (hname : name.length < 256) (hsize : size < 2 ^ 31) (htmp : tmp.length = 4) :
    metaLoop .ofBytes dataSize (fuel + 1) tmp true consumed q ⟨metabuf name size more ++ T, n⟩ checked =
      if dataSize < consumed + 5 + name.length + size then ⟨-1, q, ⟨T, n + (5 + name.length)⟩, checked⟩
      else
        match q.mutableMeta name true with
        | none => ⟨-1, q, ⟨T, n + (5 + name.length)⟩, checked⟩
        | some (i, q') =>
          metaLoop .ofBytes dataSize fuel (hostToNet32 (flagged size more)).reverse more
            (consumed + (5 + name.length + size)) (q'.appendMeta i (T.take size))
            ⟨T.drop size, n + (5 + name.length) + size⟩ checked := by
  have htail : tmp.drop 4 = [] := drop_of_length_le (le_of_eq htmp)
  cases hmeta : q.mutableMeta name true <;>
    simp only [metaLoop, cutMetaHead_metabuf hname, htail, append_nil, CutterOps.ofBytes_cutn, hmeta,
      netToHost32_hostToNet32 (flagged_lt hsize more), flagged_mod hsize, le_flagged hsize, Bool.and_true]

theorem metaLoop_overrun (hover : S.length < 5 + (S.headD 0).toNat) :
    Comes q S T n checked (.overrun S)
      (metaLoop .ofBytes (consumed + S.length) (fuel + 1) tmp true consumed q ⟨S ++ T, n⟩ checked) := by
  have hsize : S.length < 5 + ((S ++ T).head?.getD 0).toNat := by
    cases S with
    | nil => simp
    | cons c S => simpa using hover
  have hcut : ((S ++ T).head?).isSome = !(S ++ T).isEmpty := by
    cases S ++ T <;> rfl
  have hhead : (cutMetaHead .ofBytes tmp (S ++ T)).nameSize = ((S ++ T).head?.getD 0).toNat := rfl
  have hrest : (cutMetaHead .ofBytes tmp (S ++ T)).cutter
      = (S ++ T).drop (5 + ((S ++ T).head?.getD 0).toNat) := by
    change ((S ++ T).tail.drop ((S ++ T).head?.getD 0).toNat).drop 4 = _
    rw [drop_drop, ← drop_one, drop_drop]
    congr 1
    lia
  refine ⟨q, 5 + ((S ++ T).head?.getD 0).toNat, le_rfl, hsize, ?_⟩
  rw [metaLoop]
  rw [if_pos (by rw [hhead]; lia), hrest, hhead, Nat.sub_self, zero_add, ← hcut]
  rfl

theorem Comes.behind {data rest : List Byte} {f : Fate} {x : CutResult (List Byte)}
    (h : Comes { q with metas :=
  q.metas ++ [(name, data)] } rest T (n + (5 + name.length) + data.length) checked f x) :
    Comes q (metabuf name data.length true ++ (data ++ rest)) T n checked (f.behind (name, data)) x := by
  have hlen : (metabuf name data.length true ++ (data ++ rest)).length = 5 + name.length
      + (data.length + rest.length) := by
    simp only [length_append, length_metabuf]
  cases f with
  | accepted ms payload =>
    rw [Comes] at h
    rw [Fate.behind, Comes, h, hlen]
    simp [add_assoc]
  | refused left =>
    obtain ⟨q', hle, rfl⟩ := h
    refine ⟨q', by lia, ?_⟩
    congr 2
    lia
  | overrun left =>
    obtain ⟨q', size, hle, hlt, rfl⟩ := h
    refine ⟨q', size, by lia, hlt, ?_⟩
    congr 2
    lia

theorem metaLoop_fate (h : MetaList names B f) : ∀ {fuel consumed n : ℕ} {tmp : List Byte}
    {q : Record} {checked : Bool}
    (T : List Byte), B.length < fuel → tmp.length = 4 → q.metas.map (·.1) = names →
    Comes q B T n checked f (metaLoop .ofBytes (consumed + B.length) fuel tmp true consumed q
      ⟨B ++ T, n⟩ checked) := by
  induction h with
  | overrun names B hover =>
    intro fuel consumed n tmp q checked T hfuel htmp hnames
    obtain ⟨fuel, rfl⟩ := Nat.exists_eq_succ_of_ne_zero (ne_of_gt (Nat.zero_lt_of_lt hfuel))
    exact metaLoop_overrun hover
  | refused names name size more rest hname hsize hbad =>
    intro fuel consumed n tmp q checked T hfuel htmp hnames
    obtain ⟨fuel, rfl⟩ := Nat.exists_eq_succ_of_ne_zero (ne_of_gt (Nat.zero_lt_of_lt hfuel))
    have hlen : (metabuf name size more ++ rest).length = 5 + name.length + rest.length := by
      rw [length_append, length_metabuf]
    refine ⟨q, by lia, ?_⟩
    rw [append_assoc, metaLoop_metabuf hname hsize htmp, hlen, show 5 + name.length + rest.length
      - rest.length = 5 + name.length by lia]
    split
    · rfl
    next hle =>
      have hno : name = [] ∨ name ∈ q.metas.map (·.1) := by
        rw [hnames]
        rcases hbad with hnil | hmem | hlt
        · exact .inl hnil
        · exact .inr hmem
        · lia
      rw [mutableMeta_bad hno]
  | last names name data payload hok hsize =>
    intro fuel consumed n tmp q checked T hfuel htmp hnames
    have hlen : (metabuf name data.length false ++ (data ++ payload)).length
        = 5 + name.length + (data.length + payload.length) := by
      simp only [length_append, length_metabuf]
    obtain ⟨fuel, rfl⟩ : ∃ k, fuel = k + 2 := ⟨fuel - 2, by lia⟩
    rw [append_assoc, metaLoop_metabuf hok.lt hsize htmp, hlen, if_neg (by lia),
      mutableMeta_ok (hnames ▸ hok)]
    simp only [append_assoc, take_left, drop_left, appendMeta_last]
    rw [metaLoop, cutPayload, CutterOps.ofBytes_cutn]
    have hleft : consumed + (5 + name.length + (data.length + payload.length))
        - (consumed + (5 + name.length + data.length)) = payload.length := by lia
    simp only [hleft, take_left, drop_left, Comes, hlen]
    congr 2
    lia
  | more names name data rest f hok hsize h ih =>
    intro fuel consumed n tmp q checked T hfuel htmp hnames
    have hlen : (metabuf name data.length true ++ (data ++ rest)).length = 5 + name.length
        + (data.length + rest.length) := by
      simp only [length_append, length_metabuf]
    obtain ⟨fuel, rfl⟩ := Nat.exists_eq_succ_of_ne_zero (ne_of_gt (Nat.zero_lt_of_lt hfuel))
    rw [append_assoc, metaLoop_metabuf hok.lt hsize htmp, hlen, if_neg (by lia),
      mutableMeta_ok (hnames ▸ hok)]
    simp only [append_assoc, take_left, drop_left, appendMeta_last]
    rw [show consumed + (5 + name.length + (data.length + rest.length))
      = consumed + (5 + name.length + data.length) + rest.length by lia]
    refine (ih T (by lia) (by simp) ?_).behind
    rw [map_append, hnames]
    rfl

end

/-! ## Records that come back -/

/-- The names fit in the byte that is written for their size, and the data is not too long for the
reader. -/
structure Record.WellFormed (maxRecordSize : ℕ) (q : Record) : Prop where
  names : ∀ m ∈ q.metas, m.1 ≠ [] ∧ m.1.length < 256
  nodup : (q.metas.map (·.1)).Nodup
  size_lt : q.encodeData.length < 2 ^ 31
  size_le : q.encodeData.length ≤ maxRecordSize

theorem encodeMetas_ne_nil (ms : List (List Byte × List Byte)) : decide (ms ≠ []) = false ↔
    ms = [] := by simp

theorem metaList_encodeMetas (payload : List Byte) : ∀ (ms : List (List Byte × List Byte))
    (names : List (List Byte)),
    ms ≠ [] → (∀ m ∈ ms, m.1 ≠ [] ∧ m.1.length < 256) → (names ++ ms.map (·.1)).Nodup →
    (encodeMetas ms).length < 2 ^ 31 →
    MetaList names (encodeMetas ms ++ payload) (.accepted ms payload) := by
  intro ms
  induction ms with
  | nil => exact fun _ h => absurd rfl h
  | cons m ms ih =>
    intro names _ hms hnd hsize
    obtain ⟨name, data⟩ := m
    have hname := hms _ mem_cons_self
    have hok : NameOk names name := by
      refine ⟨hname.1, ?_, hname.2⟩
      intro hmem
      exact (disjoint_of_nodup_append hnd) hmem (mem_map_of_mem mem_cons_self)
    simp only [encodeMetas, length_append] at hsize
    rw [encodeMetas, append_assoc, append_assoc]
    cases ms with
    | nil => exact .last names name data payload hok (by lia)
    | cons m' ms =>
      refine .more names name data _ (.accepted (m' :: ms) payload) hok (by lia) ?_
      apply ih _ (cons_ne_nil _ _) (fun m hm => hms m (mem_cons_of_mem _ hm)) ?_ (by lia)
      rwa [append_assoc]

theorem cutRecord_headbuf {B : List Byte} {n : ℕ} (q : Record) (hasMeta : Bool) (hlt : B.length < 2 ^ 31)
    (hle : B.length ≤ maxRecordSize) :
    cutRecord .ofBytes maxRecordSize q ⟨headbuf B.length hasMeta ++ (B ++ T), n⟩ =
      metaLoop .ofBytes B.length (B.length + 1) (hostToNet32 (flagged B.length hasMeta)).reverse
      hasMeta 0 .clear
        ⟨B ++ T, n + 9⟩ true := by
  have hhead : (headbuf B.length hasMeta ++ (B ++ T)).take 9 = headbuf B.length hasMeta :=
    take_left' (length_headbuf _ _)
  have hrest : (headbuf B.length hasMeta ++ (B ++ T)).drop 9 = B ++ T := drop_left' (length_headbuf _ _)
  have hmagic : (headbuf B.length hasMeta).take 4 = magic := rfl
  have hword : ((headbuf B.length hasMeta).drop 4).take 4 = hostToNet32 (flagged B.length hasMeta) := rfl
  have hsum : (headbuf B.length hasMeta).getD 8 0 = sizeChecksum (flagged B.length hasMeta) := rfl
  have hlen : ¬(headbuf B.length hasMeta ++ (B ++ T)).length < B.length + 9 := by
    simp only [length_append, length_headbuf]
    lia
  simp only [cutRecord, CutterOps.ofBytes_copyTo, CutterOps.ofBytes_remainingBytes,
    CutterOps.ofBytes_popFront, hhead,
    hrest, hmagic, hword, hsum, length_headbuf, netToHost32_hostToNet32 (flagged_lt hlt hasMeta),
      flagged_mod hlt,
    le_flagged hlt, ne_eq, not_true_eq_false, if_false, Nat.not_lt.2 hle, hlen]

theorem cutRecord_fate {B : List Byte} {f : Fate} {n : ℕ} (h : MetaList [] B f) (q : Record)
    (hlt : B.length < 2 ^ 31) (hle : B.length ≤ maxRecordSize) :
    Comes .clear B T (n + 9) true f
    (cutRecord .ofBytes maxRecordSize q ⟨headbuf B.length true ++ (B ++ T), n⟩) := by
  rw [cutRecord_headbuf q true hlt hle]
  have hcomes : Comes .clear B T (n + 9) true f (metaLoop .ofBytes (0 + B.length) (B.length + 1)
      (hostToNet32 (flagged B.length true)).reverse true 0 .clear ⟨B ++ T, n + 9⟩ true) :=
    metaLoop_fate h T (Nat.lt_succ_self _) (by simp) rfl
  rwa [zero_add] at hcomes

theorem Record.WellFormed.cutRecord_encode {q : Record} {n : ℕ} (h : q.WellFormed maxRecordSize)
    (old : Record)
    (T : List Byte) : cutRecord .ofBytes maxRecordSize old ⟨q.encode ++ T, n⟩
      = ⟨1, q, ⟨T, n + q.encode.length⟩, true⟩ := by
  have hlen : q.encode.length = 9 + q.encodeData.length := by
    rw [encode, length_append, length_headbuf]
  rw [hlen, encode, append_assoc]
  by_cases hnil : q.metas = []
  · have hdata : q.encodeData = q.payload := by
      rw [encodeData, hnil]
      rfl
    rw [(encodeMetas_ne_nil _).2 hnil, cutRecord_headbuf old _ h.size_lt h.size_le, metaLoop, cutPayload,
      CutterOps.ofBytes_cutn, hdata]
    simp only [Nat.sub_zero, take_left, drop_left, add_assoc, clear, nil_append]
    obtain ⟨metas, payload⟩ := q
    rw [show metas = [] from hnil]
  · have hms : (encodeMetas q.metas).length < 2 ^ 31 := by
      have hsize := h.size_lt
      rw [encodeData, length_append] at hsize
      lia
    have hlist := metaList_encodeMetas q.payload q.metas [] hnil h.names (by simpa using h.nodup) hms
    rw [decide_eq_true hnil]
    exact (cutRecord_fate hlist old h.size_lt h.size_le).trans (by simp [clear, encodeData, add_assoc])

end Eabase.Utility.RecordIO
