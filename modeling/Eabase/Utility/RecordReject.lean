import Eabase.Utility.RecordFormat

/-!
# Rejected records

A record that `CutRecord` rejects has been cut up to the head of the meta that it refuses.
Where that head ends before the data of the record, the next record is found. Where it
ends with the data, the reader stands at the magic of the next record and skips it; where it
goes over the end, it has cut some of the next record already (`rejected_keeps_next`).

A head that goes over the end of the data is also the one way to cut more bytes than the
record has, or to count others than were cut (`cutRecord_inside`).
-/

namespace Eabase.Utility.RecordIO

open List

open IOBuf (Byte)
open Lib (infix_iff_exists_drop)

/-! ## Runs of the reader -/

section Run

variable {σ : Type} {C : CutterOps σ} {bytes : σ → List Byte} {append append' : List Byte → σ → σ}
    {maxRecordSize : ℕ}

/-- What that many calls of `ReadNext` into one record give. -/
def readRecords (C : CutterOps σ) (append : List Byte → σ → σ) (maxRecordSize : ℕ) :
    ℕ → Record → Reader σ → List Read → List (Option Record)
  | 0, _, _, _ => []
  | k + 1, rec, r, reads =>
      let x := readNext C append maxRecordSize rec r reads
      (if x.ok then some x.out else none) :: readRecords C append maxRecordSize k x.out x.reader x.reads

def NextResult.map {σ τ : Type} (f : σ → τ) (x : NextResult σ) : NextResult τ :=
  ⟨x.ok, x.out, x.reader.map f, x.reads, x.lastError⟩

theorem readLoop_nil (fuel : ℕ) (rec : Record) (r : Reader σ) :
    readLoop C append maxRecordSize (fuel + 1) rec r [] =
      let cut := cutRecord C maxRecordSize rec r
      let next := cutUntilNextRecordCandidate C cut.reader
      if 0 < cut.rc then ⟨true, cut.out, cut.reader, [], 0⟩
      else if cut.rc < 0 then
        if next.1 then readLoop C append maxRecordSize fuel cut.out next.2 []
        else ⟨false, cut.out, next.2, [], END_OF_READER⟩
      else ⟨false, cut.out, cut.reader, [], END_OF_READER⟩ := rfl

theorem readLoop_reads : ∀ (fuel : ℕ) (rec : Record) (r : Reader σ),
    (readLoop C append maxRecordSize fuel rec r []).reads = [] := by
  intro fuel
  induction fuel with
  | zero => exact fun _ _ => rfl
  | succ fuel ih =>
    intro rec r
    rw [readLoop_nil]
    simp only []
    split
    · rfl
    split
    · split
      · exact ih _ _
      · rfl
    · rfl

theorem readLoop_map (L : C.Lawful bytes) (append0 : List Byte → List Byte → List Byte) : ∀
    (fuel : ℕ) (rec : Record)
    (r : Reader σ), (readLoop C append maxRecordSize fuel rec r []).map bytes
      = readLoop .ofBytes append0 maxRecordSize fuel rec (r.map bytes) [] := by
  intro fuel
  induction fuel with
  | zero => exact fun _ _ => rfl
  | succ fuel ih =>
    intro rec r
    have hcut := cutRecord_map L maxRecordSize rec r
    have hnext := cutUntilNextRecordCandidate_map L (cutRecord C maxRecordSize rec r).reader
    rw [readLoop_nil, readLoop_nil, ← hcut]
    simp only [CutResult.map, ← hnext, Prod.map, id]
    by_cases hpos : 0 < (cutRecord C maxRecordSize rec r).rc
    · simp only [hpos, if_true, NextResult.map]
    by_cases hneg : (cutRecord C maxRecordSize rec r).rc < 0
    · by_cases hok : (cutUntilNextRecordCandidate C (cutRecord C maxRecordSize rec r).reader).1 = true
      · simp only [hpos, hneg, hok, if_true, if_false, ih]
      · simp only [hpos, hneg, hok, if_true, if_false, NextResult.map]
        rfl
    · simp only [hpos, hneg, if_false, NextResult.map]

theorem readLoop_of_ok : ∀ {fuel fuel' : ℕ} {rec : Record} {r : Reader σ} (reads : List Read),
    fuel ≤ fuel' →
    (readLoop C append maxRecordSize fuel rec r []).ok = true →
    readLoop C append' maxRecordSize fuel' rec r reads
      = { readLoop C append maxRecordSize fuel rec r [] with reads := reads } := by
  intro fuel
  induction fuel with
  | zero => exact fun _ _ hok => absurd hok Bool.false_ne_true
  | succ fuel ih =>
    intro fuel' rec r reads hle hok
    obtain ⟨fuel', rfl⟩ := Nat.exists_eq_succ_of_ne_zero (show fuel' ≠ 0 by lia)
    rw [readLoop_nil] at hok ⊢
    rw [readLoop]
    by_cases hpos : 0 < (cutRecord C maxRecordSize rec r).rc
    · simp only [if_pos hpos]
    simp only [if_neg hpos] at hok ⊢
    by_cases hneg : (cutRecord C maxRecordSize rec r).rc < 0
    · simp only [if_pos hneg, resyncLoop] at hok ⊢
      by_cases hnext : (cutUntilNextRecordCandidate C (cutRecord C maxRecordSize rec r).reader).1 = true
      · simp only [if_pos hnext] at hok ⊢
        exact ih _ (by lia) hok
      · simp only [if_neg hnext] at hok
        exact absurd hok Bool.false_ne_true
    · simp only [if_neg hneg] at hok
      exact absurd hok Bool.false_ne_true

theorem readNext_map (L : C.Lawful bytes) (append0 : List Byte → List Byte → List Byte)
    (rec : Record) (r : Reader σ) :
    (readNext C append maxRecordSize rec r []).map bytes
      = readNext .ofBytes append0 maxRecordSize rec (r.map bytes) [] := by
  rw [readNext, readNext, readLoop_map L append0, L.remainingBytes]
  rfl

theorem readNext_of_ok {rec : Record} {r : Reader σ} (reads : List Read)
    (hok : (readNext C append maxRecordSize rec r []).ok = true) :
    readNext C append' maxRecordSize rec r reads
      = { readNext C append maxRecordSize rec r [] with reads := reads } := by
  refine readLoop_of_ok reads ?_ hok
  simp only [map_nil, sum_nil, length_nil]
  lia

/-- The reader gives the records that it gives of the bytes alone, whatever is delivered later. -/
theorem readRecords_of_bytes (L : C.Lawful bytes) (append0 : List Byte → List Byte → List Byte) :
    ∀ {qs : List Record} {rec : Record} {r : Reader σ} (reads : List Read),
    readRecords .ofBytes append0 maxRecordSize qs.length rec (r.map bytes) [] = qs.map some →
    readRecords C append maxRecordSize qs.length rec r reads = qs.map some := by
  intro qs
  induction qs with
  | nil => exact fun _ _ => rfl
  | cons q qs ih =>
    intro rec r reads h
    obtain ⟨hfirst, hrest⟩ := cons.inj h
    have hmap : (readNext C append maxRecordSize rec r []).map bytes = _ := readNext_map L append0 rec r
    rw [← hmap] at hfirst hrest
    have hok : (readNext C append maxRecordSize rec r []).ok = true := by
      by_contra hno
      rw [if_neg (by exact hno)] at hfirst
      exact absurd hfirst nofun
    rw [if_pos (by exact hok)] at hfirst
    have hreads : ((readNext C append maxRecordSize rec r []).map bytes).reads = [] := by
      rw [NextResult.map, readNext, readLoop_reads]
    rw [hreads] at hrest
    rw [length_cons, readRecords, readNext_of_ok reads hok]
    simp only [hok, if_true, map_cons]
    exact congrArg₂ cons hfirst (ih reads hrest)

theorem readRecords_map (L : C.Lawful bytes) (append0 : List Byte → List Byte → List Byte) :
    ∀ (k : ℕ) (rec : Record) (r : Reader σ),
    readRecords C append maxRecordSize k rec r [] = readRecords .ofBytes append0 maxRecordSize k rec
    (r.map bytes) [] := by
  intro k
  induction k with
  | zero => exact fun _ _ => rfl
  | succ k ih =>
    intro rec r
    have hreads : (readNext C append maxRecordSize rec r []).reads = [] := by
      rw [readNext, readLoop_reads]
    have hmap : (readNext C append maxRecordSize rec r []).map bytes = _ := readNext_map L append0 rec r
    rw [readRecords, readRecords, ← hmap]
    simp only [hreads, NextResult.map, ih]

end Run

open Record

/-! ## What is cut for a record -/

section Bytes

variable {S T B : List Byte} {maxRecordSize n : ℕ} {append : List Byte → List Byte → List Byte}
  {names : List (List Byte)} {f : Fate} {checked : Bool} {o q : Record} {qs : List Record}
  {r r' : Reader (List Byte)} {fuel : ℕ} {p : Record} {rest : List Byte}
  {x : Bool × Reader (List Byte)}

theorem cutRecord_ofBytes (q : Record) (S : List Byte) (n : ℕ) :
    cutRecord .ofBytes maxRecordSize q ⟨S, n⟩ = if (S.take 9).length ≠ 9 then ⟨0, q, ⟨S, n⟩, true⟩
      else if (S.take 9).take 4 ≠ magic then ⟨-1, q, ⟨S, n⟩, true⟩
      else if sizeChecksum (netToHost32 (((S.take 9).drop 4).take 4)) ≠ (S.take 9).getD 8 0
      then ⟨-1, q, ⟨S, n⟩, true⟩
      else if maxRecordSize < netToHost32 (((S.take 9).drop 4).take 4) % 2 ^ 31 then ⟨-1, q, ⟨S, n⟩, true⟩
      else if S.length < netToHost32 (((S.take 9).drop 4).take 4) % 2 ^ 31 + 9 then ⟨0, q, ⟨S, n⟩, true⟩
      else
        metaLoop .ofBytes (netToHost32 (((S.take 9).drop 4).take 4) % 2 ^ 31)
          (netToHost32 (((S.take 9).drop 4).take 4) % 2 ^ 31 + 1) (((S.take 9).drop 4).take 4).reverse
          (2 ^ 31 ≤ netToHost32 (((S.take 9).drop 4).take 4)) 0 .clear ⟨S.drop 9, n + 9⟩ true := rfl

theorem exists_of_length_nine : ∀ {l : List Byte}, l.length = 9 → ∃ a b c d e f g i j,
    l = [a, b, c, d, e, f, g, i, j]
  | [a, b, c, d, e, f, g, i, j], _ => ⟨a, b, c, d, e, f, g, i, j, rfl⟩

/-- `CutRecord` cuts nothing, or the head is intact and the data are all there. -/
theorem cutRecord_cases (maxRecordSize : ℕ) (q : Record) (S : List Byte) (n : ℕ) :
    (∃ rc ≤ 0, cutRecord .ofBytes maxRecordSize q ⟨S, n⟩ = ⟨rc, q, ⟨S, n⟩, true⟩) ∨
      ∃ hasMeta B T, B.length < 2 ^ 31 ∧ B.length ≤ maxRecordSize ∧ S = headbuf B.length hasMeta ++
      (B ++ T) := by
  generalize hx : cutRecord .ofBytes maxRecordSize q ⟨S, n⟩ = x
  rw [cutRecord_ofBytes] at hx
  split at hx
  · exact Or.inl ⟨0, le_rfl, hx.symm⟩
  rename_i hlen
  split at hx
  · exact Or.inl ⟨-1, by decide, hx.symm⟩
  rename_i hmagic
  split at hx
  · exact Or.inl ⟨-1, by decide, hx.symm⟩
  rename_i hsum
  split at hx
  · exact Or.inl ⟨-1, by decide, hx.symm⟩
  rename_i hmax
  split at hx
  · exact Or.inl ⟨0, le_rfl, hx.symm⟩
  rename_i hrem
  right
  -- the nine bytes are the head that is written for this size
  have hword : (((S.take 9).drop 4).take 4).length = 4 := by
    simp only [length_take, length_drop]
    lia
  have hlt := netToHost32_lt hword
  have hback := hostToNet32_netToHost32 hword
  generalize netToHost32 (((S.take 9).drop 4).take 4) = v at hsum hmax hrem hlt hback
  have hle : v % 2 ^ 31 ≤ (S.drop 9).length := by
    rw [length_drop]
    lia
  have hhead : S.take 9 = headbuf (v % 2 ^ 31) (2 ^ 31 ≤ v) := by
    rw [headbuf, flagged_of_word hlt, hback, Classical.not_not.1 hsum, ← Classical.not_not.1 hmagic]
    obtain ⟨a, b, c, d, e, f, g, i, j, hS⟩ := exists_of_length_nine (Classical.not_not.1 hlen)
    rw [hS]
    rfl
  refine ⟨2 ^ 31 ≤ v, (S.drop 9).take (v % 2 ^ 31), (S.drop 9).drop (v % 2 ^ 31), ?_⟩
  rw [length_take_of_le hle, ← hhead, take_append_drop, take_append_drop]
  exact ⟨Nat.mod_lt _ (by decide), Nat.le_of_not_lt hmax, rfl⟩

theorem MetaList.eq_encode (h : MetaList names B f) : ∀ {ms : List (List Byte × List Byte)}
    {payload : List Byte},
    f = .accepted ms payload → ms ≠ [] ∧ B = encodeMetas ms ++ payload := by
  induction h with
  | overrun => exact fun heq => Fate.noConfusion heq
  | refused => exact fun heq => Fate.noConfusion heq
  | last names name data payload hok hsize =>
    intro ms payload' heq
    obtain ⟨rfl, rfl⟩ := Fate.accepted.inj heq
    refine ⟨cons_ne_nil _ _, ?_⟩
    simp [encodeMetas]
  | more names name data rest f hok hsize h ih =>
    intro ms payload' heq
    cases f with
    | refused => cases heq
    | overrun => cases heq
    | accepted ms' payload =>
      obtain ⟨rfl, rfl⟩ := Fate.accepted.inj heq
      obtain ⟨hne, rfl⟩ := ih rfl
      refine ⟨cons_ne_nil _ _, ?_⟩
      simp [encodeMetas, hne]

theorem MetaList.suffix (h : MetaList names B f) : ∀ {rest : List Byte}, f = .refused rest →
    rest <:+ B := by
  induction h with
  | overrun => exact fun heq => absurd heq nofun
  | refused names name size more rest =>
    intro rest' heq
    rw [← Fate.refused.inj heq]
    exact suffix_append _ _
  | last => exact fun heq => absurd heq nofun
  | more names name data rest f hok hsize h ih =>
    intro rest' heq
    cases f with
    | accepted => exact absurd heq nofun
    | overrun => exact absurd heq nofun
    | refused left =>
      rw [← Fate.refused.inj heq]
      exact ((ih rfl).trans (suffix_append data rest)).trans (suffix_append _ _)

theorem cutRecord_length (maxRecordSize : ℕ) (q : Record) (r : Reader (List Byte)) :
    (0 < (cutRecord .ofBytes maxRecordSize q r).rc →
      (cutRecord .ofBytes maxRecordSize q r).out.byteSize
        + (cutRecord .ofBytes maxRecordSize q r).reader.cutter.length
        = r.cutter.length) ∧
      (cutRecord .ofBytes maxRecordSize q r).reader.cutter.length ≤ r.cutter.length := by
  obtain ⟨S, n⟩ := r
  rcases cutRecord_cases maxRecordSize q S n with ⟨rc, hle, hcut⟩ | ⟨hasMeta, B, T, hlt, hle, rfl⟩
  · rw [hcut]
    exact ⟨fun hpos => absurd hpos (Int.not_lt.2 hle), le_rfl⟩
  have hlen : (headbuf B.length hasMeta ++ (B ++ T)).length = 9 + (B.length + T.length) := by
    simp only [length_append, length_headbuf]
  simp only [hlen]
  cases hasMeta with
  | false =>
    rw [cutRecord_headbuf q false hlt hle, metaLoop, cutPayload, CutterOps.ofBytes_cutn,
      Nat.sub_zero, take_left,
      drop_left]
    simp only [byteSize, clear, nil_append, map_nil, sum_nil]
    lia
  | true =>
    obtain ⟨f, hf⟩ := exists_fate B []
    have hcomes := cutRecord_fate (T := T) (n := n) hf q hlt hle
    cases f with
    | accepted ms payload =>
      obtain ⟨-, rfl⟩ := hf.eq_encode rfl
      rw [Comes] at hcomes
      rw [hcomes]
      simp only [byteSize, clear, nil_append, length_append, length_encodeMetas]
      lia
    | refused rest =>
      obtain ⟨q', hrest, hx⟩ := hcomes
      rw [hx]
      refine ⟨fun hpos => absurd hpos (Int.not_lt.2 (by simp)), ?_⟩
      simp only [length_append]
      lia
    | overrun rest =>
      obtain ⟨q', size, hrest, -, hx⟩ := hcomes
      rw [hx]
      refine ⟨fun hpos => absurd hpos (Int.not_lt.2 (by simp)), ?_⟩
      simp only [length_drop, length_append]
      lia

theorem Resynced.length_le (h : Resynced S n x) : x.2.cutter.length ≤ S.length := by
  cases h <;> simp only [length_drop] <;> lia

theorem readLoop_length : ∀ (fuel : ℕ) (q : Record) (r : Reader (List Byte)),
    (readLoop .ofBytes append maxRecordSize fuel q r []).ok = true →
    (readLoop .ofBytes append maxRecordSize fuel q r []).out.byteSize
      + (readLoop .ofBytes append maxRecordSize fuel q r []).reader.cutter.length ≤ r.cutter.length := by
  intro fuel
  induction fuel with
  | zero => exact fun _ _ hok => absurd hok Bool.false_ne_true
  | succ fuel ih =>
    intro q r hok
    have hcut := cutRecord_length maxRecordSize q r
    rw [readLoop_nil] at hok ⊢
    by_cases hpos : 0 < (cutRecord .ofBytes maxRecordSize q r).rc
    · simp only [if_pos hpos]
      exact le_of_eq (hcut.1 hpos)
    simp only [if_neg hpos] at hok ⊢
    by_cases hneg : (cutRecord .ofBytes maxRecordSize q r).rc < 0
    · simp only [if_pos hneg] at hok ⊢
      have hres :=
        (cutUntilNextRecordCandidate_resynced (cutRecord .ofBytes maxRecordSize q r).reader.cutter
        (cutRecord .ofBytes maxRecordSize q r).reader.ncut).length_le
      by_cases hnext :
          (cutUntilNextRecordCandidate .ofBytes (cutRecord .ofBytes maxRecordSize q r).reader).1
          = true
      · simp only [if_pos hnext] at hok ⊢
        exact ((ih _ _ hok).trans hres).trans hcut.2
      · simp only [if_neg hnext] at hok
        exact absurd hok Bool.false_ne_true
    · simp only [if_neg hneg] at hok
      exact absurd hok Bool.false_ne_true

theorem readRecords_cons_length {m : ℕ}
    (hfirst : (readNext .ofBytes append maxRecordSize q r []).ok = true →
      (readNext .ofBytes append maxRecordSize q r []).out.byteSize
        + (readNext .ofBytes append maxRecordSize q r []).reader.cutter.length ≤ m)
    (htail : ∀ (q : Record) (r : Reader (List Byte)),
      readRecords .ofBytes append maxRecordSize qs.length q r [] = qs.map some →
      (qs.map byteSize).sum ≤ r.cutter.length)
    (h : readRecords .ofBytes append maxRecordSize (p :: qs).length q r [] = (p :: qs).map some) :
    ((p :: qs).map byteSize).sum ≤ m := by
  obtain ⟨hout, hrest⟩ := cons.inj h
  have hok : (readNext .ofBytes append maxRecordSize q r []).ok = true := by
    by_contra hno
    rw [if_neg (by exact hno)] at hout
    exact absurd hout nofun
  have hreads : (readNext .ofBytes append maxRecordSize q r []).reads = [] := by
    rw [readNext, readLoop_reads]
  rw [if_pos (by exact hok)] at hout
  rw [hreads] at hrest
  rw [← Option.some.inj hout, map_cons, sum_cons]
  exact (Nat.add_le_add_left (htail _ _ hrest) _).trans (hfirst hok)

theorem readRecords_length : ∀ (qs : List Record) (q : Record) (r : Reader (List Byte)),
    readRecords .ofBytes append maxRecordSize qs.length q r [] = qs.map some →
    (qs.map byteSize).sum ≤ r.cutter.length := by
  intro qs
  induction qs with
  | nil => exact fun _ _ _ => Nat.zero_le _
  | cons p qs ih => exact fun q r => readRecords_cons_length (readLoop_length _ _ _) ih

/-- Behind a record that is rejected, the records are paid for with what the resynchronisation
leaves. -/
theorem readRecords_length_of_refused
    (hcut : cutRecord .ofBytes maxRecordSize q r = ⟨-1, o, r', checked⟩)
    (h : readRecords .ofBytes append maxRecordSize (p :: qs).length q r [] = (p :: qs).map some) :
    ((p :: qs).map byteSize).sum ≤ (cutUntilNextRecordCandidate .ofBytes r').2.cutter.length := by
  refine readRecords_cons_length ?_ (readRecords_length qs) h
  intro hok
  rw [readNext, readLoop_nil, hcut] at hok ⊢
  simp only [Int.reduceNeg, Int.reduceLT, if_true, if_false] at hok ⊢
  by_cases hnext : (cutUntilNextRecordCandidate .ofBytes r').1 = true
  · simp only [hnext, if_true] at hok ⊢
    exact readLoop_length _ _ _ hok
  · simp only [hnext, Bool.false_eq_true, if_false] at hok

theorem Resynced.eq_of_next {p : ℕ} (h : Resynced S n x) (hp : NextMagic S p) :
    x = (true, ⟨S.drop p, n + p⟩) := by
  cases h with
  | missing k hk hno => exact absurd hp.at_place (hno p hp.pos)
  | found p' h =>
    rcases Nat.lt_trichotomy p p' with hlt | heq | hgt
    · exact absurd hp.at_place (h.first p hp.pos hlt)
    · rw [heq]
    · exact absurd h.at_place (hp.first p' h.pos hgt)

theorem nextMagic_append (hne : rest ≠ []) (hno : ¬magic <:+: rest) (hT : magic <+: T) :
    NextMagic (rest ++ T) rest.length := by
  refine ⟨length_pos_of_ne_nil hne, by rwa [drop_left], ?_⟩
  intro q _ hlt hat
  by_cases hin : q + 4 ≤ rest.length
  · exact hno (infix_iff_exists_drop.2 ⟨q, prefix_drop_append hin hat⟩)
  · -- it would overlap the one behind them
    refine magic_no_overlap hat (q := rest.length - q) (by lia) (by lia) ?_
    rwa [drop_drop, show q + (rest.length - q) = rest.length by lia, drop_left]

theorem Record.magic_prefix (q : Record) : magic <+: q.encode := by
  rw [encode, headbuf, append_assoc, append_assoc]
  exact prefix_append _ _

theorem readLoop_of_cut
    (h : cutRecord .ofBytes maxRecordSize q r = ⟨1, o, r', checked⟩) :
    readLoop .ofBytes append maxRecordSize (fuel + 1) q r [] = ⟨true, o, r', [], 0⟩ := by
  rw [readLoop_nil, h]
  rfl

theorem readLoop_of_refused {r'' : Reader (List Byte)}
    (h : cutRecord .ofBytes maxRecordSize q r = ⟨-1, o, r', checked⟩)
    (hnext : cutUntilNextRecordCandidate .ofBytes r' = (true, r'')) :
    readLoop .ofBytes append maxRecordSize (fuel + 1) q r []
      = readLoop .ofBytes append maxRecordSize fuel o r'' [] := by
  rw [readLoop_nil, h]
  simp only [hnext]
  rfl

theorem readRecords_encode (T : List Byte) : ∀ {qs : List Record} {old : Record} {n : ℕ},
    (∀ q ∈ qs, q.WellFormed maxRecordSize) →
    readRecords .ofBytes append maxRecordSize qs.length old ⟨qs.flatMap encode ++ T, n⟩ []
      = qs.map some := by
  intro qs
  induction qs with
  | nil => exact fun _ => rfl
  | cons q qs ih =>
    intro old n hwf
    have hcut := (hwf q mem_cons_self).cutRecord_encode (n := n) old (qs.flatMap encode ++ T)
    rw [flatMap_cons, append_assoc, length_cons, readRecords, readNext, readLoop_of_cut hcut]
    simp only [if_true, map_cons, ih fun p hp => hwf p (mem_cons_of_mem _ hp)]

/-- The head that is refused ends before the data of the record: the next one is found. -/
theorem readRecords_of_refused {old : Record} (hlist : MetaList [] B (.refused rest))
    (hne : rest ≠ []) (hlt : B.length < 2 ^ 31) (hle : B.length ≤ maxRecordSize) (hno : ¬magic <:+: B)
    (hwf : ∀ q ∈ qs, q.WellFormed maxRecordSize) :
    readRecords .ofBytes append maxRecordSize qs.length old
    ⟨headbuf B.length true ++ (B ++ qs.flatMap encode), n⟩ []
      = qs.map some := by
  cases qs with
  | nil => rfl
  | cons q qs =>
    obtain ⟨o, -, hcut⟩ := cutRecord_fate (T := (q :: qs).flatMap encode) (n := n) hlist old hlt hle
    have hmagic : magic <+: (q :: qs).flatMap encode := by
      rw [flatMap_cons]
      exact q.magic_prefix.trans (prefix_append _ _)
    have hnext := nextMagic_append hne (fun hin => hno (hin.trans (hlist.suffix rfl).isInfix)) hmagic
    have hres :=
      (cutUntilNextRecordCandidate_resynced _ (n + 9 + (B.length - rest.length))).eq_of_next hnext
    rw [drop_left] at hres
    have hfirst := (hwf q mem_cons_self).cutRecord_encode
      (n := n + 9 + (B.length - rest.length) + rest.length) o (qs.flatMap encode)
    have hfuel : (headbuf B.length true ++ (B ++ (q :: qs).flatMap encode)).length
        = (8 + B.length + ((q :: qs).flatMap encode).length) + 1 := by
      simp only [length_append, length_headbuf]
      lia
    rw [length_cons, readRecords, readNext, CutterOps.ofBytes_remainingBytes,
      readLoop_of_refused hcut hres]
    simp only [hfuel, map_nil, sum_nil, length_nil, add_zero]
    rw [flatMap_cons, readLoop_of_cut hfirst]
    rw [← append_nil (qs.flatMap encode)]
    simp only [if_true, map_cons, readRecords_encode [] fun p hp => hwf p (mem_cons_of_mem _ hp)]

/-- The head that is refused ends with the data or behind them: less is left than the records
need. -/
theorem Comes.resync_lt {x : CutResult (List Byte)} (hqs : qs ≠ [])
    (h : Comes .clear B (qs.flatMap encode) n true f x) (hrc : x.rc = -1)
    (hend : ∀ rest, f = .refused rest → rest = []) :
    (cutUntilNextRecordCandidate .ofBytes x.reader).2.cutter.length < (qs.map byteSize).sum := by
  have hsum : (qs.flatMap encode).length = (qs.map byteSize).sum := by
    rw [length_flatMap]
    simp only [length_encode]
  have hmagic : magic <+: qs.flatMap encode := by
    cases qs with
    | nil => exact absurd rfl hqs
    | cons q qs =>
      rw [flatMap_cons]
      exact q.magic_prefix.trans (prefix_append _ _)
  have hfour : 4 ≤ (qs.flatMap encode).length := hmagic.length_le
  rw [← hsum]
  have hres := cutUntilNextRecordCandidate_resynced x.reader.cutter x.reader.ncut
  cases f with
  | accepted ms payload =>
    rw [Comes] at h
    rw [h] at hrc
    exact absurd hrc (by simp)
  | overrun rest =>
    obtain ⟨q', size, -, hlt, rfl⟩ := h
    have hle := hres.length_le
    rw [length_drop, length_append] at hle
    exact lt_of_le_of_lt hle (by lia)
  | refused rest =>
    obtain ⟨q', -, rfl⟩ := h
    rw [hend rest rfl, nil_append] at hres ⊢
    -- the magic of the next record is skipped
    generalize cutUntilNextRecordCandidate .ofBytes _ = y at hres ⊢
    cases hres with
    | found p hp =>
      have hpos := hp.pos
      simp only [length_drop]
      lia
    | missing k hk hno hcut hleft =>
      simp only [length_drop] at hleft ⊢
      lia

end Bytes

/-! ## Staying inside the record -/

theorem headbuf_size {a b : ℕ} {f g : Bool} {X Y : List Byte} (ha : a < 2 ^ 31) (hb : b < 2 ^ 31)
    (h : headbuf a f ++ X = headbuf b g ++ Y) : a = b := by
  obtain ⟨hhead, -⟩ := append_inj h (by rw [length_headbuf, length_headbuf])
  have hword : hostToNet32 (flagged a f) = hostToNet32 (flagged b g) :=
    congrArg (fun w => (w.drop 4).take 4) hhead
  rw [← flagged_mod ha f, ← netToHost32_hostToNet32 (flagged_lt ha f), hword,
    netToHost32_hostToNet32 (flagged_lt hb g),
    flagged_mod hb g]

/-- The `CHECK` holds, what is cut is counted, and it is no more than the head and the data of the
record, if there is one. -/
def StaysInside (maxRecordSize : ℕ) (S S' : List Byte) (n n' : ℕ) (checked : Bool) : Prop :=
  checked = true ∧ ∃ k ≤ S.length, S' = S.drop k ∧ n' = n + k ∧
    ∀ hasMeta B T, B.length < 2 ^ 31 → B.length ≤ maxRecordSize → S = headbuf B.length hasMeta ++
      (B ++ T) → k ≤ 9 + B.length

theorem stays_of_record {S S' B T : List Byte} {maxRecordSize n n' k : ℕ} {hasMeta : Bool}
    (hlt : B.length < 2 ^ 31)
    (hS : S = headbuf B.length hasMeta ++ (B ++ T)) (hk : k ≤ 9 + B.length) (hS' : S' = S.drop k)
    (hn : n' = n + k) :
    StaysInside maxRecordSize S S' n n' true := by
  refine ⟨rfl, k, ?_, hS', hn, ?_⟩
  · rw [hS, length_append, length_append, length_headbuf]
    lia
  · intro hasMeta' B' T' hlt' _ heq
    rw [← headbuf_size hlt hlt' (hS.symm.trans heq)]
    exact hk

open Cutting

/-- `CutRecord` stays inside the record if and only if no head of a meta goes over the end of the
data. -/
theorem cutRecord_staysInside (maxRecordSize : ℕ) (q : Record) (r : Reader Cutting) :
    let x := cutRecord Cutting.ops maxRecordSize q r
    StaysInside maxRecordSize r.cutter.bytes x.reader.cutter.bytes r.ncut x.reader.ncut x.checked ↔
      ¬∃ B T rest, B.length < 2 ^ 31 ∧ B.length ≤ maxRecordSize ∧
        r.cutter.bytes = headbuf B.length true ++ (B ++ T) ∧
        MetaList [] B (.overrun rest) := by
  intro x
  have hmap : x.map bytes = cutRecord .ofBytes maxRecordSize q ⟨r.cutter.bytes, r.ncut⟩ :=
    cutRecord_map ops_lawful maxRecordSize q r
  change StaysInside _ _ (x.map bytes).reader.cutter _ (x.map bytes).reader.ncut (x.map bytes).checked ↔ _
  rw [hmap]
  generalize r.cutter.bytes = S, r.ncut = n
  constructor
  · rintro ⟨-, k, hk, hrest, hn, hle⟩ ⟨B, T, rest, hlt, hmax, rfl, hover⟩
    obtain ⟨q', size, hlen, hsize, hx⟩ := cutRecord_fate (T := T) (n := n) hover q hlt hmax
    have hinside := hle true B T hlt hmax rfl
    rw [hx] at hn
    simp only at hn
    lia
  · intro hno
    rcases cutRecord_cases maxRecordSize q S n with ⟨rc, -, hcut⟩ | ⟨hasMeta, B, T, hlt, hmax, rfl⟩
    · rw [hcut]
      exact ⟨rfl, 0, Nat.zero_le _, rfl, rfl, fun _ _ _ _ _ _ => Nat.zero_le _⟩
    have hdrop : ∀ k, (headbuf B.length hasMeta ++ (B ++ T)).drop (9 + k) = (B ++ T).drop k := by
      intro k
      rw [← drop_drop, drop_left' (length_headbuf _ _)]
    cases hasMeta with
    | false =>
      rw [cutRecord_headbuf q false hlt hmax, metaLoop, cutPayload, CutterOps.ofBytes_cutn,
        Nat.sub_zero, take_left,
        drop_left]
      refine stays_of_record hlt rfl le_rfl ?_ (add_assoc _ _ _)
      rw [hdrop, drop_left]
    | true =>
      obtain ⟨f, hf⟩ := exists_fate B []
      have hcomes := cutRecord_fate (T := T) (n := n) hf q hlt hmax
      cases f with
      | accepted ms payload =>
        rw [Comes] at hcomes
        rw [hcomes]
        refine stays_of_record hlt rfl le_rfl ?_ (add_assoc _ _ _)
        rw [hdrop, drop_left]
      | refused rest =>
        obtain ⟨q', hlen, hx⟩ := hcomes
        obtain ⟨P, rfl⟩ := hf.suffix rfl
        have hk : (P ++ rest).length - rest.length = P.length := by
          rw [length_append, Nat.add_sub_cancel]
        rw [hx]
        simp only [hk]
        refine stays_of_record hlt rfl ?_ ?_ (add_assoc _ _ _)
        · rw [length_append]
          lia
        · rw [hdrop, append_assoc, drop_left]
      | overrun rest => exact absurd ⟨B, T, rest, hlt, hmax, rfl, hf⟩ hno

/-- A record without data that is said to have a meta: there is no byte for the size of the name. -/
theorem empty_record_fails_check :
    ∃ r : Reader Cutting, r.cutter.bytes = headbuf 0 true ∧
    (cutRecord Cutting.ops (2 ^ 26) .clear r).checked = false := by
  obtain ⟨s, hs⟩ := exists_bytes (headbuf 0 true)
  have hmap : (⟨s, 0⟩ : Reader Cutting).map bytes = ⟨headbuf 0 true, 0⟩ := by
    rw [Reader.map, hs]
  refine ⟨⟨s, 0⟩, hs, ?_⟩
  change ((cutRecord ops (2 ^ 26) .clear ⟨s, 0⟩).map bytes).checked = false
  rw [cutRecord_map ops_lawful, hmap]
  decide

/-! ## The records behind a rejected one -/

/-- The records behind a rejected one are all read if and only if there are none, or the head that
is refused ends before the data of the rejected record. -/
theorem rejected_keeps_next {maxRecordSize : ℕ} {B : List Byte} {qs : List Record}
    (r : Reader Cutting) (old : Record)
    (hbytes : r.cutter.bytes = headbuf B.length true ++ (B ++ qs.flatMap Record.encode))
    (hlt : B.length < 2 ^ 31)
    (hle : B.length ≤ maxRecordSize) (hno : ¬magic <:+: B) (hwf : ∀ q ∈ qs, q.WellFormed maxRecordSize)
    (hrej : (cutRecord Cutting.ops maxRecordSize old r).rc = -1) :
    (∀ append reads, readRecords Cutting.ops append maxRecordSize qs.length old r reads = qs.map some) ↔
      qs = [] ∨ ∃ rest ≠ [], MetaList [] B (.refused rest) := by
  have hmap : r.map bytes = ⟨headbuf B.length true ++ (B ++ qs.flatMap encode), r.ncut⟩ := by
    rw [← hbytes]
    rfl
  constructor
  · intro hall
    by_contra hneg
    obtain ⟨hqs, hrest⟩ := not_or.1 hneg
    have hread := hall (fun _ s => s) []
    rw [readRecords_map ops_lawful (fun _ s => s), hmap] at hread
    have hcut : ((cutRecord ops maxRecordSize old r).map bytes).rc = -1 := hrej
    rw [cutRecord_map ops_lawful, hmap] at hcut
    obtain ⟨f, hf⟩ := exists_fate B []
    have hcomes := cutRecord_fate (T := qs.flatMap encode) (n := r.ncut) hf old hlt hle
    have hend : ∀ rest, f = .refused rest → rest = [] := by
      rintro rest rfl
      by_contra hne
      exact hrest ⟨rest, hne, hf⟩
    have hless := hcomes.resync_lt hqs hcut hend
    generalize hx : cutRecord .ofBytes maxRecordSize old _ = x at hcut hless
    obtain ⟨rc, o, r', checked⟩ := x
    cases hcut
    obtain ⟨q, qs, rfl⟩ := exists_cons_of_ne_nil hqs
    exact absurd (readRecords_length_of_refused hx hread) (Nat.not_le.2 hless)
  · rintro (rfl | ⟨rest, hne, hlist⟩) append reads
    · rfl
    · apply readRecords_of_bytes ops_lawful (fun _ s => s)
      rw [hmap]
      exact readRecords_of_refused hlist hne hlt hle hno hwf

theorem wellFormed_payload : (⟨[], [1]⟩ : Record).WellFormed (2 ^ 26) :=
  ⟨by simp, by simp, by decide, by decide⟩

/-- A meta without a name, and a byte of payload behind it. -/
theorem rejected_keeps_next_empty_name :
    ∃ r : Reader Cutting, r.cutter.bytes = headbuf 6 true ++
    (metabuf [] 0 false ++ [1] ++ (⟨[], [1]⟩ : Record).encode) ∧
      ∀ append reads, readRecords Cutting.ops append (2 ^ 26) 1 .clear r reads = [some ⟨[], [1]⟩] := by
  obtain ⟨s, hs⟩ := exists_bytes
    (headbuf 6 true ++ (metabuf [] 0 false ++ [1] ++ (⟨[], [1]⟩ : Record).encode))
  have hmap : (⟨s, 0⟩ : Reader Cutting).map bytes
      = ⟨headbuf 6 true ++ (metabuf [] 0 false ++ [1] ++ (⟨[], [1]⟩ : Record).encode), 0⟩ := by
    rw [Reader.map, hs]
  have hrej : ((cutRecord ops (2 ^ 26) .clear ⟨s, 0⟩).map bytes).rc = -1 := by
    rw [cutRecord_map ops_lawful, hmap]
    decide
  have hbytes : s.bytes = headbuf (metabuf [] 0 false ++ [1]).length true
      ++ ((metabuf [] 0 false ++ [1]) ++ [(⟨[], [1]⟩ : Record)].flatMap encode) := by
    rw [flatMap_singleton]
    exact hs
  have hwf : ∀ q ∈ [(⟨[], [1]⟩ : Record)], q.WellFormed (2 ^ 26) := by
    intro q hq
    rw [mem_singleton.1 hq]
    exact wellFormed_payload
  refine ⟨⟨s, 0⟩, hs, ?_⟩
  apply (rejected_keeps_next ⟨s, 0⟩ .clear hbytes (by decide) (by decide) (by decide) hwf hrej).2
  exact .inr ⟨[1], cons_ne_nil _ _, .refused [] [] 0 false [1] (by decide) (by decide) (.inl rfl)⟩

/-- The last meta has the name of the one before it, and the next record is not read. -/
theorem duplicate_swallows_next :
    ∃ r : Reader Cutting,
      r.cutter.bytes = headbuf 12 true ++
      (metabuf [97] 0 true ++ metabuf [97] 0 false ++ (⟨[], [1]⟩ : Record).encode) ∧
      ¬magic <:+: metabuf [97] 0 true ++ metabuf [97] 0 false ∧ (⟨[], [1]⟩ : Record).WellFormed (2 ^ 26) ∧
      (cutRecord Cutting.ops (2 ^ 26) .clear r).rc = -1 ∧
      readRecords Cutting.ops (fun _ s => s) (2 ^ 26) 1 .clear r [] = [none] := by
  obtain ⟨s, hs⟩ := exists_bytes
    (headbuf 12 true ++ (metabuf [97] 0 true ++ metabuf [97] 0 false ++ (⟨[], [1]⟩ : Record).encode))
  have hmap : (⟨s, 0⟩ : Reader Cutting).map bytes
      = ⟨headbuf 12 true ++ (metabuf [97] 0 true ++ metabuf [97] 0 false ++
        (⟨[], [1]⟩ : Record).encode), 0⟩ := by
    rw [Reader.map, hs]
  have hrej : ((cutRecord ops (2 ^ 26) .clear ⟨s, 0⟩).map bytes).rc = -1 := by
    rw [cutRecord_map ops_lawful, hmap]
    decide
  refine ⟨⟨s, 0⟩, hs, by decide, wellFormed_payload, hrej, ?_⟩
  rw [readRecords_map ops_lawful (fun _ s => s), hmap]
  decide

end Eabase.Utility.RecordIO
