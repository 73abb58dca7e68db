import Eabase.Utility.FlatMapTable

/-!
# The functions of a FlatMap

What each function does to the elements of the map, for every answer of
`malloc`. `operator[]` and `resize` call each other, so what is said of
`resize` and of an insertion is said for whatever `operator[]` does as it
should, and then the number of calls is the induction.
-/

namespace Eabase.Utility.FlatMap

open Lib Utility.BitArray List

variable {K V ι : Type*} {T : Traits K V} {m m' : Map K V} {bs : List (Bucket K V)}
  {b : Bucket K V} {k : K} {v : V} {nb : ℕ}

/-! ## Writing a value -/

open Option

theorem modify_of_getElem? {i : ℕ} (hb : bs[i]? = some b) (f : Bucket K V → Bucket K V) :
    bs.modify i f = bs.set i (f b) := by
  obtain ⟨hi, -⟩ := List.getElem?_eq_some_iff.1 hb
  apply List.ext_getElem?
  intro j
  rw [List.getElem?_modify, List.getElem?_set]
  obtain rfl | hij := eq_or_ne i j
  · simp only [hb, if_true, hi, Option.map_eq_map, Option.map_some]
  · simp only [hij, if_false, Option.map_eq_map, Option.map_id']

open Assoc

theorem Bucket.nodes_store (b : Bucket K V) (k : K) (v : V) :
    (b.store T k v).nodes = Assoc.store T.toKeyEq b.nodes k v := by
  cases b with
  | invalid => rfl
  | node element next =>
    rw [Bucket.store, Bucket.nodes, Assoc.store]
    split <;> rfl

theorem Bucket.isValid_store (b : Bucket K V) (k : K) (v : V) : (b.store T k v).isValid = b.isValid := by
  cases b with
  | invalid => rfl
  | node element next =>
    rw [Bucket.store]
    split <;> rfl

open Map

theorem found_eq (h : Wf T m) (hbs : m.buckets = some bs) (hb : bs[index T m k]? = some b) :
    m.found T k = lookup T.toKeyEq b.nodes k := by
  rw [found, items_of_buckets hbs]
  exact (h.table bs hbs).sorted.lookup_contents hb

theorem Wf.bucket (h : Wf T m) (hbs : m.buckets.isSome = true) (k : K) :
    ∃ bs b, m.buckets = some bs ∧ bs[index T m k]? = some b ∧
    m.found T k = lookup T.toKeyEq b.nodes k := by
  obtain ⟨bs, hbs⟩ := isSome_iff_exists.1 hbs
  obtain ⟨b, hb⟩ := (h.table bs hbs).bucket k
  exact ⟨bs, b, hbs, hb, found_eq h hbs hb⟩

theorem Wf.thumbnail (h : Wf T m) (hbs : m.buckets.isSome = true) (hT : T.sparse = true) :
    m.thumbnail.isSome = true := by
  obtain ⟨bs, hbs⟩ := isSome_iff_exists.1 hbs
  obtain ⟨words, hwords, -⟩ := (h.table bs hbs).thumbnail hT
  rw [hwords]
  rfl

theorem store_spec (h : Wf T m) (hfound : (m.found T k).isSome = true) (v : V) :
    Alters T m (m.store T k v) k (some v) := by
  have hbs : m.buckets.isSome = true := by
    cases hbs : m.buckets with
    | none =>
      rw [found, items, hbs] at hfound
      cases hfound
    | some bs => rfl
  obtain ⟨bs, b, hbs, hb, hk⟩ := h.bucket hbs k
  have htable := h.table bs hbs
  have hstore : (m.store T k v).buckets = some (bs.set (index T m k) (b.store T k v)) := by
    rw [Map.store, hbs, ← modify_of_getElem? hb]
    rfl
  apply h.write hbs hb hstore rfl
  · rw [b.nodes_store]
    have hkeys := congrArg length (Assoc.store_keys (e := T.toKeyEq) b.nodes k v)
    rw [length_map, length_map] at hkeys
    rw [hkeys]
    rfl
  · rw [b.nodes_store]
    exact (htable.sorted.distinct b (mem_of_getElem? hb)).store k v
  · intro k'
    rw [b.nodes_store, Assoc.lookup_store]
    split
    case isTrue hkk' =>
      rw [hk, Assoc.lookup_congr hkk'] at hfound
      obtain ⟨w, hw⟩ := isSome_iff_exists.1 hfound
      rw [hw]
      rfl
    case isFalse => rfl
  · intro hT
    obtain ⟨words, hwords, hmarks⟩ := htable.thumbnail hT
    exact ⟨words, hwords, hmarks.set_same hb (b.isValid_store k v)⟩

/-! ## erase, clear -/

theorem Wf.write_erase (h : Wf T m) (b' : Bucket K V) (hbs : m.buckets = some bs)
    (hb : bs[index T m k]? = some b)
    (hk : Assoc.lookup T.toKeyEq b.nodes k = some v) (hnodes : b'.nodes = Assoc.erase T.toKeyEq b.nodes k)
    (hbs' : m'.buckets = some (bs.set (index T m k) b')) (hnb : m'.nbucket = m.nbucket)
    (hsize : m'.size = m.size - 1)
    (hmarks : T.sparse = true →
      ∃ words, m'.thumbnail = some words ∧ Marks words (bs.set (index T m k) b') m.nbucket) :
    Alters T m m' k none := by
  have hdistinct := (h.table bs hbs).sorted.distinct b (mem_of_getElem? hb)
  have hlen := length_erase_of_lookup hk
  have hpos : b.nodes.length ≤ m.size := by
    rw [h.size, items_of_buckets hbs, contents_split hb, length_append, length_append]
    lia
  apply h.write hbs hb hbs' hnb
  · rw [hnodes]
    lia
  · rw [hnodes]
    exact hdistinct.erase k
  · intro k'
    rw [hnodes]
    exact hdistinct.lookup_erase k k'
  · exact hmarks

theorem erase_spec (h : Wf T m) (k : K) :
    ∃ r, erase T m k = some r ∧ Alters T m r.1 k none ∧ r.2.1 = (if (m.found T k).isSome then 1 else 0) ∧
      r.2.2 = m.found T k := by
  have hsame : m.found T k = none → Alters T m m k none := fun hnone => hnone ▸ Alters.same h k
  unfold erase
  cases hbs : m.buckets with
  | none =>
    have hnone : m.found T k = none := by
      rw [found, items, hbs]
      rfl
    rw [hnone]
    exact ⟨_, rfl, hsame hnone, rfl, rfl⟩
  | some bs =>
    have htable := h.table bs hbs
    obtain ⟨b, hb⟩ := htable.bucket k
    have hk := found_eq h hbs hb
    have hmarks : ∀ b' : Bucket K V, b'.isValid = b.isValid → T.sparse = true →
        ∃ words, m.thumbnail = some words ∧ Marks words (bs.set (index T m k) b') m.nbucket := by
      intro b' hb' hT
      obtain ⟨words, hwords, hmarks⟩ := htable.thumbnail hT
      exact ⟨words, hwords, hmarks.set_same hb hb'⟩
    simp only [eraseIn, hb]
    cases b with
    | invalid =>
      have hnone : m.found T k = none := hk
      rw [hnone]
      exact ⟨_, rfl, hsame hnone, rfl, rfl⟩
    | node element next =>
      have hnodes := erase_cons (e := T.toKeyEq) element next k
      rw [Bucket.nodes, lookup_cons] at hk
      simp only
      split
      case isTrue heq =>
        rw [if_pos heq] at hk hnodes
        have hlookup : lookup T.toKeyEq (Bucket.node element next).nodes k = some element.2 := by
          rw [Bucket.nodes, lookup_cons, if_pos heq]
        rw [hk]
        cases next with
        | nil =>
          have hwords : T.sparse = true → m.thumbnail.isSome = true := h.thumbnail (by rw [hbs]; rfl)
          obtain ⟨m', hm'⟩ := mark_isSome
            (m := { m with size := m.size - 1 }.put (index T m k) .invalid) hwords
            fun words => bitArrayUnset words (index T m k)
          obtain ⟨hsize, hnb, hbs', hthumb⟩ := mark_spec hm'
          rw [hm']
          refine ⟨_, rfl, ?_, rfl, rfl⟩
          refine h.write_erase .invalid hbs hb hlookup hnodes.symm ?_ hnb hsize ?_
          · rw [hbs', put, hbs]
            rfl
          · intro hT
            obtain ⟨words, hwords, hmarks⟩ := htable.thumbnail hT
            obtain ⟨words', hwords', hm''⟩ := hthumb hT
            have heq : words' = words := some.inj (hwords'.symm.trans hwords)
            subst heq
            exact ⟨_, hm'', hmarks.set_invalid (htable.home_lt k)⟩
        | cons p next =>
          refine ⟨_, rfl, ?_, rfl, rfl⟩
          refine h.write_erase (.node p next) hbs hb hlookup hnodes.symm ?_ rfl rfl (hmarks _ rfl)
          rw [put, hbs]
          rfl
      case isFalse hne =>
        rw [if_neg hne] at hk hnodes
        rw [hk]
        cases hnext : lookup T.toKeyEq next k with
        | none =>
          rw [hnext] at hk
          exact ⟨_, rfl, hsame hk, rfl, rfl⟩
        | some v =>
          have hlookup : lookup T.toKeyEq (Bucket.node element next).nodes k = some v := by
            rw [Bucket.nodes, lookup_cons, if_neg hne, hnext]
          refine ⟨_, rfl, ?_, rfl, rfl⟩
          refine h.write_erase (.node element (Assoc.erase T.toKeyEq next k)) hbs hb hlookup
            hnodes.symm ?_ rfl rfl
            (hmarks _ rfl)
          rw [put, hbs]
          rfl

theorem contents_eq_nil (h : ∀ b ∈ bs, b.isValid = false) : contents bs = [] := by
  rw [contents, flatMap_eq_nil_iff]
  intro b hb
  exact nodes_of_invalid (h b hb)

theorem Sorted.of_invalid (hlen : bs.length = nb) (h : ∀ b ∈ bs, b.isValid = false) : Sorted T nb bs where
  length := hlen
  home i b hb p hp := by
    rw [nodes_of_invalid (h b (mem_of_getElem? hb))] at hp
    cases hp
  distinct b hb := by
    rw [nodes_of_invalid (h b hb)]
    exact List.Pairwise.nil

theorem Marks.of_invalid {words : List Word} (hlen : bs.length = nb) (h : ∀ b ∈ bs, b.isValid = false)
    (hholds : Holds words nb) : Marks (bitArrayClear words nb) bs nb where
  holds := hholds.clear
  bit i b hb := by
    obtain ⟨hi, -⟩ := List.getElem?_eq_some_iff.1 hb
    rw [bit_clear hholds (by lia), h b (List.mem_of_getElem? hb)]

/-- What `clear` leaves. -/
structure Cleared (T : Traits K V) (m m' : Map K V) : Prop where
  wf : Wf T m'
  items : m'.items = []
  nbucket : m'.nbucket = m.nbucket
  buckets : m'.buckets.isSome = m.buckets.isSome

theorem clear_spec (h : Wf T m) : Cleared T m (clear m) := by
  unfold clear
  split
  case isTrue hzero =>
    rw [h.size] at hzero
    exact ⟨h, eq_nil_of_length_eq_zero hzero, rfl, rfl⟩
  case isFalse =>
    have hinvalid : ∀ bs : List (Bucket K V), ∀ b ∈ bs.map fun _ => (.invalid : Bucket K V),
        b.isValid = false := by
      intro bs b hb
      obtain ⟨-, -, rfl⟩ := mem_map.1 hb
      rfl
    have hitems : items { m with
        size := 0
        buckets := m.buckets.map fun bs => bs.map fun _ => (.invalid : Bucket K V)
        thumbnail := m.thumbnail.map fun thumbnail => bitArrayClear thumbnail m.nbucket } = [] := by
      cases m.buckets with
      | none => rfl
      | some bs => exact contents_eq_nil (hinvalid bs)
    refine ⟨⟨?_, ?_⟩, hitems, rfl, isSome_map⟩
    · rw [hitems]
      rfl
    · intro bs' hbs'
      obtain ⟨bs, hbs, rfl⟩ := map_eq_some_iff.1 hbs'
      have htable := h.table bs hbs
      have hlen : (bs.map fun _ => (.invalid : Bucket K V)).length = m.nbucket := by
        rw [length_map, htable.sorted.length]
      refine ⟨htable.pow, htable.room, .of_invalid hlen (hinvalid bs), ?_⟩
      intro hT
      obtain ⟨words, hwords, hmarks⟩ := htable.thumbnail hT
      refine ⟨_, by rw [hwords]; rfl, .of_invalid hlen (hinvalid bs) hmarks.holds⟩

/-! ## init -/

variable {mem : Memory} {loadFactor n : ℕ}

theorem bytes_eq (h : NoWrap T nb) : bytes T nb = T.bucketSize * (nb + 1) :=
  Nat.mod_eq_of_lt h

theorem holds_takeD (words : List Word) (nb : ℕ) : Holds (words.takeD ((nb + 63) / 64) 0) nb :=
  takeD_length _ _ _

theorem Table.empty {j : ℕ} (h3 : 3 ≤ j) (hj : m.nbucket = 2 ^ j)
    (hroom : T.bucketSize * (m.nbucket + 1) < 2 ^ 63)
    (hthumb : T.sparse = true → ∃ words, m.thumbnail = some (bitArrayClear words m.nbucket) ∧
      Holds words m.nbucket) :
    Table T m (replicate m.nbucket Bucket.invalid) := by
  have hinvalid : ∀ b ∈ replicate m.nbucket (.invalid : Bucket K V), b.isValid = false := by
    intro b hb
    rw [(mem_replicate.1 hb).2]
    rfl
  have hlen : (replicate m.nbucket (.invalid : Bucket K V)).length = m.nbucket := length_replicate
  refine ⟨⟨j, h3, hj⟩, hroom, .of_invalid hlen hinvalid, ?_⟩
  intro hT
  obtain ⟨words, hwords, hholds⟩ := hthumb hT
  exact ⟨_, hwords, .of_invalid hlen hinvalid hholds⟩

theorem items_replicate (hbs : m.buckets = some (replicate n Bucket.invalid)) : m.items = [] := by
  rw [items_of_buckets hbs]
  apply contents_eq_nil
  intro b hb
  rw [(mem_replicate.1 hb).2]
  rfl

/-- What an `init` that succeeds leaves. -/
structure Fresh (T : Traits K V) (m' : Map K V) (nb loadFactor : ℕ) : Prop where
  wf : Wf T m'
  buckets : m'.buckets.isSome = true
  items : m'.items = []
  nbucket : m'.nbucket = nb
  loadFactor : m'.loadFactor = loadFactor

theorem granted_lt (h : granted T mem nb = true) : bytes T nb < 2 ^ 63 := by
  rw [granted, Bool.and_eq_true, decide_eq_true_iff] at h
  exact h.2

theorem init_ok (hn : n < two64)
    (hround : m.buckets = none → n ≠ 0 → 10 ≤ loadFactor → loadFactor ≤ 100 →
      granted T mem (flatmapRound n) = true → flatmapRound n ≠ 0) {r : Memory × Map K V × Bool}
    (h : init T mem m n loadFactor = some r) (hok : r.2.2 = true) :
    Fresh T r.2.1 (flatmapRound n) loadFactor ∧ m.buckets = none := by
  unfold init at h
  split at h
  case isTrue =>
    cases h
    cases hok
  case isFalse hnone =>
  have hm : m.buckets = none := not_isSome_iff_eq_none.1 hnone
  split at h
  case isTrue =>
    cases h
    cases hok
  case isFalse hpos =>
  split at h
  case isTrue =>
    cases h
    cases hok
  case isFalse hload =>
  simp only at h
  split at h
  case isFalse =>
    cases h
    cases hok
  case isTrue hgranted =>
  split at h
  case isFalse => cases h
  case isTrue hwrap =>
  have hne := hround hm hpos (by lia) (by lia) hgranted
  obtain ⟨j, h3, -, hj, -⟩ := (flatmapRound_spec hn).resolve_left hne
  have hroom := granted_lt hgranted
  rw [bytes_eq hwrap] at hroom
  split at h
  case isTrue hT =>
    split at h
    case h_1 =>
      cases h
      cases hok
    case h_2 words hwords =>
      cases h
      refine ⟨⟨⟨?_, ?_⟩, rfl, items_replicate rfl, rfl, rfl⟩, hm⟩
      · rw [items_replicate rfl]
        rfl
      · intro bs hbs
        cases hbs
        refine Table.empty h3 hj hroom fun _ => ⟨words, rfl, ?_⟩
        unfold bitArrayMalloc at hwords
        split at hwords
        · cases hwords
        · obtain ⟨junk, -, rfl⟩ := map_eq_some_iff.1 hwords
          exact holds_takeD _ _
  case isFalse hT =>
    cases h
    refine ⟨⟨⟨?_, ?_⟩, rfl, items_replicate rfl, rfl, rfl⟩, hm⟩
    · rw [items_replicate rfl]
      rfl
    · intro bs hbs
      cases hbs
      exact Table.empty h3 hj hroom fun h => absurd h hT

/-- An `init` that fails leaves the map as it is, or without buckets; unless what it failed to get
is the thumbnail. -/
theorem init_failed {r : Memory × Map K V × Bool} (h : init T mem m n loadFactor = some r)
    (hok : r.2.2 = false)
    (hround : m.buckets = none → n ≠ 0 → 10 ≤ loadFactor → loadFactor ≤ 100 →
      granted T mem (flatmapRound n) = true → flatmapRound n ≠ 0)
    (hthumb : T.sparse = true → mem.ask.2.ask.1.isSome = true) :
    r.2.1 = m ∨ m.buckets = none ∧ r.2.1.buckets = none ∧ r.2.1.size = 0 := by
  unfold init at h
  split at h
  case isTrue =>
    cases h
    exact .inl rfl
  case isFalse hnone =>
  split at h
  case isTrue =>
    cases h
    exact .inl rfl
  case isFalse hn =>
  split at h
  case isTrue =>
    cases h
    exact .inl rfl
  case isFalse hload =>
  have hm : m.buckets = none := not_isSome_iff_eq_none.1 hnone
  simp only at h
  split at h
  case isFalse =>
    cases h
    exact .inr ⟨hm, hm, rfl⟩
  case isTrue hgranted =>
  split at h
  case isFalse => cases h
  case isTrue =>
  split at h
  case isTrue hT =>
    split at h
    case h_1 hwords =>
      unfold bitArrayMalloc at hwords
      split at hwords
      case isTrue hzero => exact absurd hzero (hround hm hn (by lia) (by lia) hgranted)
      case isFalse =>
        rw [map_eq_none_iff] at hwords
        have hsome := hthumb hT
        rw [hwords] at hsome
        cases hsome
    case h_2 =>
      cases h
      cases hok
  case isFalse =>
    cases h
    cases hok

/-- An `operator[]` that adds what is not there, and never has fewer buckets afterwards. -/
def OperatorOk (T : Traits K V) (op : Memory → Map K V → K → Option (Memory × Map K V)) : Prop :=
  ∀ mem m k r, Wf T m → m.buckets.isSome = true → op mem m k = some r →
    Alters T m r.2 k (some ((m.found T k).getD T.default)) ∧ m.nbucket ≤ r.2.nbucket

variable {op : Memory → Map K V → K → Option (Memory × Map K V)} {r : Memory × Map K V}
  {rhs : Map K V}

theorem insertBy_spec (hop : OperatorOk T op) (h : Wf T m) (hbs : m.buckets.isSome = true)
    (hr : insertBy T op mem m k v = some r) : Alters T m r.2 k (some v) ∧ m.nbucket ≤ r.2.nbucket := by
  obtain ⟨r', hr', rfl⟩ := map_eq_some_iff.1 hr
  obtain ⟨halters, hle⟩ := hop mem m k r' h hbs hr'
  have hfound := halters.found k
  rw [if_pos (T.refl k)] at hfound
  have hstore := store_spec halters.wf (by rw [hfound]; rfl) v
  refine ⟨⟨hstore.wf, hstore.buckets.trans halters.buckets, ?_⟩, hle⟩
  intro k'
  rw [hstore.found, halters.found]
  split <;> rfl

theorem insertAll_spec (hop : OperatorOk T op) {l : List (K × V)} (hl : Assoc.Distinct T.toKeyEq l)
    (h : Wf T m)
    (hbs : m.buckets.isSome = true) (hr : insertAll T op mem m l = some r) :
    Wf T r.2 ∧ r.2.buckets.isSome = true ∧ m.nbucket ≤ r.2.nbucket ∧
      ∀ k, r.2.found T k = (lookup T.toKeyEq l k).or (m.found T k) := by
  induction l generalizing mem m with
  | nil =>
    cases hr
    exact ⟨h, hbs, le_rfl, fun k => rfl⟩
  | cons p l ih =>
    obtain ⟨hp, hl⟩ := pairwise_cons.1 hl
    obtain ⟨r', hr', hrest⟩ := bind_eq_some_iff.1 hr
    obtain ⟨halters, hle⟩ := insertBy_spec hop h hbs hr'
    obtain ⟨hwf, hbs', hle', hfound⟩ := ih hl halters.wf (halters.buckets.trans hbs) hrest
    refine ⟨hwf, hbs', hle.trans hle', ?_⟩
    intro k
    rw [hfound, halters.found, lookup_cons]
    split
    case isTrue hk =>
      have hnone : lookup T.toKeyEq l k = none := by
        rw [lookup_eq_none]
        intro q hq
        have hpq := hp q hq
        rw [KeyEq.eql_comm, KeyEq.eql_congr hk] at hpq
        exact hpq
      rw [hnone]
      rfl
    case isFalse => rfl

theorem distinct_items (h : Wf T m) : Assoc.Distinct T.toKeyEq m.items := by
  cases hbs : m.buckets with
  | none =>
    rw [items, hbs]
    exact List.Pairwise.nil
  | some bs =>
    rw [items_of_buckets hbs]
    exact (h.table bs hbs).sorted.distinct_contents

/-- What a `resize` that succeeds leaves. -/
structure Resized (T : Traits K V) (m m' : Map K V) (nb : ℕ) : Prop where
  wf : Wf T m'
  buckets : m'.buckets.isSome = true
  nbucket : nb ≤ m'.nbucket
  found : ∀ k, m'.found T k = m.found T k

theorem flatmapRound_idem (hn : n < two64) : flatmapRound (flatmapRound n) = flatmapRound n ∨
    flatmapRound n = 0 := by
  rcases flatmapRound_spec hn with hzero | ⟨j, h3, hj, heq, -⟩
  · exact .inr hzero
  · left
    rw [heq]
    exact flatmapRound_pow h3 hj

theorem resizeBy_spec (hop : OperatorOk T op) (h : Wf T m) (hn : n < two64) {r : Memory × Map K V × Bool}
    (hr : resizeBy T op mem m n = some r) :
    if r.2.2 then Resized T m r.2.1 (flatmapRound n) else r.2.1 = m := by
  simp only [resizeBy] at hr
  split at hr
  case isTrue =>
    cases hr
    rfl
  case isFalse =>
    obtain ⟨new, hnew, hrest⟩ := bind_eq_some_iff.1 hr
    split at hrest
    case isFalse =>
      cases hrest
      rfl
    case isTrue hok =>
      obtain ⟨l, hl, hrest⟩ := bind_eq_some_iff.1 hrest
      obtain ⟨r', hr', rfl⟩ := map_eq_some_iff.1 hrest
      have hround : flatmapRound n ≠ 0 := by
        intro hzero
        rw [hzero] at hnew
        cases hnew
        cases hok
      have hidem := (flatmapRound_idem hn).resolve_right hround
      have hlt : flatmapRound n < two64 := by
        obtain ⟨j, -, hj, heq, -⟩ := (flatmapRound_spec hn).resolve_left hround
        rw [heq]
        exact Nat.pow_lt_pow_right (by decide) hj
      obtain ⟨hfresh, -⟩ := init_ok hlt (by rw [hidem]; exact fun _ _ _ _ _ => hround) hnew hok
      rw [items_of_elements h hl] at hr'
      obtain ⟨hwf, hbs, hle, hfound⟩ := insertAll_spec hop (distinct_items h) hfresh.wf hfresh.buckets hr'
      rw [hfresh.nbucket, hidem] at hle
      refine ⟨hwf, hbs, hle, ?_⟩
      intro k
      have hempty : new.2.1.found T k = none := by
        rw [found, hfresh.items]
        rfl
      rw [hfound, hempty, or_none]
      rfl

theorem Table.round_succ (h : Table T m bs) : flatmapRound (m.nbucket + 1) = 2 * m.nbucket := by
  obtain ⟨j, h3, hj, hnb⟩ := h.pow_lt
  have hpos : 0 < 2 ^ j := Nat.two_pow_pos j
  rw [hnb, flatmapRound_of_lt (Nat.lt_succ_self _) _ h3 hj, Nat.pow_succ']
  rw [Nat.pow_succ']
  lia

/-- The key is added in front of an empty bucket, or behind the nodes of its bucket. -/
theorem Wf.write_new (h : Wf T m) (b' : Bucket K V) (hbs : m.buckets = some bs)
    (hb : bs[index T m k]? = some b)
    (hk : lookup T.toKeyEq b.nodes k = none) (hnodes : b'.nodes = b.nodes ++ [(k, v)])
    (hbs' : m'.buckets = some (bs.set (index T m k) b')) (hnb : m'.nbucket = m.nbucket)
    (hsize : m'.size = m.size + 1)
    (hmarks : T.sparse = true →
      ∃ words, m'.thumbnail = some words ∧ Marks words (bs.set (index T m k) b') m.nbucket) :
    Alters T m m' k (some v) := by
  have hdistinct := (h.table bs hbs).sorted.distinct b (mem_of_getElem? hb)
  apply h.write hbs hb hbs' hnb
  · rw [hnodes, length_append, length_singleton]
    lia
  · rw [hnodes]
    exact hdistinct.append_of_lookup hk v
  · intro k'
    rw [hnodes, lookup_append, lookup_cons, lookup_nil]
    split
    case isTrue hkk' =>
      rw [← lookup_congr hkk', hk]
      rfl
    case isFalse => exact or_none
  · exact hmarks

theorem append_spec (h : Wf T m) (hbs : m.buckets = some bs) {element : K × V} {next : List (K × V)}
    (hb : bs[index T m k]? = some (.node element next))
    (hk : lookup T.toKeyEq (element :: next) k = none) (v : V) :
    Alters T m ({ m with size := m.size + 1 }.put (index T m k) (.node element (next ++ [(k, v)])))
    k (some v) := by
  refine h.write_new (.node element (next ++ [(k, v)])) hbs hb hk rfl ?_ rfl rfl ?_
  · rw [put, hbs]
    rfl
  · intro hT
    obtain ⟨words, hwords, hmarks⟩ := (h.table bs hbs).thumbnail hT
    exact ⟨words, hwords, hmarks.set_same hb rfl⟩

theorem operatorBy_spec (fuel : ℕ) : OperatorOk T (operatorBy T fuel) := by
  induction fuel with
  | zero =>
    intro mem m k r _ _ hr
    cases hr
  | succ fuel ih =>
    intro mem m k r h hsome hr
    obtain ⟨bs, b, hbs, hb, hk⟩ := h.bucket hsome k
    have htable := h.table bs hbs
    have hbind : (m.buckets.bind fun bs => bs[index T m k]?) = some b := by
      rw [hbs]
      exact hb
    simp only [operatorBy, hbind] at hr
    cases b with
    | invalid =>
      rw [show m.found T k = none from hk]
      obtain ⟨m', hm', rfl⟩ := map_eq_some_iff.1 hr
      obtain ⟨hsize, hnb, hbs', hthumb⟩ := mark_spec hm'
      refine ⟨h.write_new (.node (k, T.default) []) hbs hb rfl rfl ?_ hnb hsize ?_, hnb.ge⟩
      · rw [hbs', put, hbs]
        rfl
      · intro hT
        obtain ⟨words, hwords, hmarks⟩ := htable.thumbnail hT
        obtain ⟨words', hwords', hm''⟩ := hthumb hT
        have heq : words' = words := some.inj (hwords'.symm.trans hwords)
        subst heq
        exact ⟨_, hm'', hmarks.set_valid (htable.home_lt k) rfl⟩
    | node element next =>
      simp only at hr
      split at hr
      case isTrue hany =>
        cases hr
        rw [← lookup_isSome] at hany
        obtain ⟨v, hv⟩ := isSome_iff_exists.1 hany
        have hfound : m.found T k = some v := hk.trans hv
        rw [hfound]
        refine ⟨?_, le_rfl⟩
        show Alters T m m k (some v)
        rw [← hfound]
        exact Alters.same h k
      case isFalse hany =>
        rw [← lookup_isSome, Bool.not_eq_true, isSome_eq_false_iff, isNone_iff_eq_none] at hany
        have happend := append_spec h hbs hb hany T.default
        rw [show m.found T k = none from hk.trans hany]
        split at hr
        case isTrue =>
          obtain ⟨r', hr', hrest⟩ := bind_eq_some_iff.1 hr
          have hlt := htable.lt
          have hresize := resizeBy_spec ih h (by rw [two64]; lia) hr'
          split at hrest
          case isTrue hok =>
            rw [if_pos hok] at hresize
            obtain ⟨halters, hle⟩ := ih _ _ _ _ hresize.wf hresize.buckets hrest
            rw [hresize.found, show m.found T k = none from hk.trans hany] at halters
            have hdouble := hresize.nbucket
            rw [htable.round_succ] at hdouble
            refine ⟨⟨halters.wf, ?_, ?_⟩, by lia⟩
            · rw [halters.buckets, hresize.buckets, hsome]
            · intro k'
              rw [halters.found, hresize.found]
          case isFalse =>
            cases hrest
            exact ⟨happend, le_rfl⟩
        case isFalse =>
          cases hr
          exact ⟨happend, le_rfl⟩

theorem operator_spec : OperatorOk T (operator T) :=
  fun mem m k r => operatorBy_spec 64 mem m k r

/-! ## operator= -/

theorem setValid_spec (words : List Word) (n : ℕ) (hn : n ≤ bs.length) (hholds : Holds words bs.length) :
    Holds
    ((range n).foldl (fun words i => if (bs[i]?).any Bucket.isValid then bitArraySet words i
    else words) words)
        bs.length ∧
      ∀ j, bit ((range n).foldl
        (fun words i => if (bs[i]?).any Bucket.isValid then bitArraySet words i else words) words) j =
          (decide (j < n) && validAt bs j || bit words j) := by
  induction n with
  | zero =>
    refine ⟨hholds, ?_⟩
    intro j
    rw [decide_eq_false (Nat.not_lt_zero j)]
    rfl
  | succ n ih =>
    obtain ⟨hholds', hbit⟩ := ih (by lia)
    rw [range_succ, foldl_append, foldl_cons, foldl_nil]
    split
    case isTrue hvalid =>
      refine ⟨(length_set _ _).trans hholds', ?_⟩
      intro j
      rw [bit_set (hholds'.lt (by lia)), hbit]
      obtain rfl | hj := eq_or_ne j n
      · rw [decide_eq_true rfl, decide_eq_true (Nat.lt_succ_self j), validAt, hvalid]
        rfl
      · rw [decide_eq_false hj, Bool.false_or, decide_eq_decide.2 (show j < n ↔ j < n + 1 by lia)]
    case isFalse hvalid =>
      refine ⟨hholds', ?_⟩
      intro j
      rw [hbit]
      obtain rfl | hj := eq_or_ne j n
      · rw [validAt, Bool.eq_false_iff.2 hvalid, Bool.and_false, Bool.and_false]
      · rw [decide_eq_decide.2 (show j < n ↔ j < n + 1 by lia)]

/-- The thumbnail has room for the buckets, and no bit of one. -/
def Blank (T : Traits K V) (m : Map K V) : Prop :=
  T.sparse = true →
    ∃ words, m.thumbnail = some words ∧ Holds words m.nbucket ∧ ∀ i < m.nbucket, bit words i = false

theorem isValid_of_contents (h : contents bs = []) : ∀ b ∈ bs, b.isValid = false := by
  intro b hb
  have hnodes := flatMap_eq_nil_iff.1 h b hb
  cases b with
  | invalid => rfl
  | node element next => cases hnodes

theorem Cleared.blank (h : Cleared T m m') (hbs : m'.buckets.isSome = true) : Blank T m' := by
  intro hT
  obtain ⟨bs, hbs⟩ := isSome_iff_exists.1 hbs
  have htable := h.wf.table bs hbs
  have hitems := h.items
  rw [items_of_buckets hbs] at hitems
  obtain ⟨words, hwords, hmarks⟩ := htable.thumbnail hT
  refine ⟨words, hwords, hmarks.holds, ?_⟩
  intro i hi
  have hi' : i < bs.length := by
    rw [htable.sorted.length]
    exact hi
  rw [hmarks.bit i _ (getElem?_eq_getElem hi')]
  exact isValid_of_contents hitems _ (getElem_mem hi')

/-- What an `operator=` that succeeds leaves. -/
structure Copied (T : Traits K V) (m' rhs : Map K V) : Prop where
  wf : Wf T m'
  found : ∀ k, m'.found T k = rhs.found T k

theorem copy_spec (hrhs : Wf T rhs) (hblank : Blank T m)
    (hslow : m.nbucket ≠ rhs.nbucket → Wf T m ∧ m.items = [] ∧ m.buckets.isSome = true)
    (hr : copy T mem m rhs = some r) : Copied T r.2 rhs := by
  unfold copy at hr
  split at hr
  case isTrue hnb =>
    obtain ⟨bs, hbs, hrest⟩ := bind_eq_some_iff.1 hr
    obtain ⟨m', hm', rfl⟩ := map_eq_some_iff.1 hrest
    obtain ⟨hsize, hnb', hbs', hthumb⟩ := mark_spec hm'
    have htable := hrhs.table bs hbs
    have hitems : m'.items = rhs.items := by
      rw [items_of_buckets hbs', items_of_buckets hbs]
    refine ⟨⟨?_, ?_⟩, ?_⟩
    · rw [hitems, ← hrhs.size]
      exact hsize
    · intro bs'' hbs''
      rw [hbs'] at hbs''
      cases hbs''
      have hnb'' : m'.nbucket = rhs.nbucket := hnb'.trans hnb
      refine ⟨hnb'' ▸ htable.pow, hnb'' ▸ htable.room, hnb'' ▸ htable.sorted, ?_⟩
      intro hT
      obtain ⟨words, hwords, hholds, hzero⟩ := hblank hT
      obtain ⟨words', hwords', hm''⟩ := hthumb hT
      have heq : words' = words := some.inj (hwords'.symm.trans hwords)
      subst heq
      have hlen := htable.sorted.length
      have hroom : Holds words' bs.length := by
        rw [hlen, ← hnb]
        exact hholds
      obtain ⟨hset, hbit⟩ := setValid_spec words' bs.length le_rfl hroom
      refine ⟨_, hm'', ?_, ?_⟩
      · rw [hnb'', ← hlen]
        exact hset
      · intro i b hb
        obtain ⟨hi, -⟩ := List.getElem?_eq_some_iff.1 hb
        refine (hbit i).trans ?_
        rw [decide_eq_true hi, hzero i (by lia), Bool.or_false, Bool.true_and, validAt, hb]
        rfl
    · intro k
      rw [found, hitems, found]
  case isFalse hnb =>
    obtain ⟨hwf, hitems, hbs⟩ := hslow hnb
    obtain ⟨l, hl, hrest⟩ := bind_eq_some_iff.1 hr
    rw [items_of_elements hrhs hl] at hrest
    obtain ⟨hwf', -, -, hfound⟩ := insertAll_spec operator_spec (distinct_items hrhs) hwf hbs hrest
    refine ⟨hwf', ?_⟩
    intro k
    have hempty : m.found T k = none := by
      rw [found, hitems]
      rfl
    rw [hfound, hempty, or_none]
    rfl

theorem Cleared.takeLoadFactor (h : Cleared T m m') (rhs : Map K V) :
    Cleared T m (takeLoadFactor m' rhs) := by
  unfold FlatMap.takeLoadFactor
  split
  case isTrue => exact h
  case isFalse hnone =>
    rw [Bool.not_eq_true, isSome_eq_false_iff, isNone_iff_eq_none] at hnone
    refine ⟨⟨h.wf.size, ?_⟩, h.items, h.nbucket, h.buckets⟩
    intro bs hbs
    rw [show m'.buckets = some bs from hbs] at hnone
    cases hnone

theorem Wf.buckets_of_size (h : Wf T m) (hsize : m.size ≠ 0) : ∃ bs, m.buckets = some bs := by
  cases hbs : m.buckets with
  | none =>
    rw [h.size, items, hbs] at hsize
    exact absurd rfl hsize
  | some bs => exact ⟨bs, rfl⟩

theorem assign_spec (h : Wf T m) (hrhs : Wf T rhs) {r : Memory × Map K V × Bool}
    (hr : assign T mem m rhs = some r) :
    if r.2.2 then Copied T r.2.1 rhs else r.2.1.buckets = none ∧ r.2.1.size = 0 ∧ mem.ask.1 = none := by
  have hclear := clear_spec h
  simp only [assign] at hr
  split at hr
  case isTrue hzero =>
    cases hr
    have hitems : rhs.items = [] := eq_nil_of_length_eq_zero (hrhs.size ▸ hzero)
    refine ⟨hclear.wf, ?_⟩
    intro k
    rw [found, hclear.items, found, hitems]
  case isFalse hsize =>
  obtain ⟨bs, hrbs⟩ := hrhs.buckets_of_size hsize
  replace hclear := hclear.takeLoadFactor rhs
  generalize takeLoadFactor (clear m) rhs = m1 at hclear hr
  split at hr
  case isTrue =>
    split at hr
    case isFalse hrefused =>
      cases hr
      refine ⟨rfl, ?_, ?_⟩
      · rw [hclear.wf.size, hclear.items]
        rfl
      · have hroom := (hrhs.table bs hrbs).room
        have hwrap : NoWrap T rhs.nbucket := by
          rw [NoWrap, two64]
          lia
        rw [granted, bytes_eq hwrap, decide_eq_true hroom, Bool.and_true,
          not_isSome_iff_eq_none] at hrefused
        exact hrefused
    case isTrue hgranted =>
    split at hr
    case isFalse => cases hr
    case isTrue =>
    split at hr
    case isTrue hT =>
      split at hr
      case h_1 => cases hr
      case h_2 words hwords =>
        obtain ⟨r', hr', rfl⟩ := map_eq_some_iff.1 hr
        refine copy_spec hrhs ?_ ?_ hr'
        · intro _
          unfold bitArrayMalloc at hwords
          split at hwords
          · cases hwords
          · obtain ⟨junk, -, rfl⟩ := map_eq_some_iff.1 hwords
            have hholds : Holds (junk.takeD ((rhs.nbucket + 63) / 64) 0) rhs.nbucket := holds_takeD _ _
            exact ⟨_, rfl, hholds.clear, fun i hi => bit_clear hholds hi⟩
        · exact fun hne => absurd rfl hne
    case isFalse hT =>
      obtain ⟨r', hr', rfl⟩ := map_eq_some_iff.1 hr
      refine copy_spec hrhs ?_ ?_ hr'
      · exact fun h => absurd h hT
      · exact fun hne => absurd rfl hne
  case isFalse hroom =>
    obtain ⟨r', hr', rfl⟩ := map_eq_some_iff.1 hr
    have hsome : m1.buckets.isSome = true := by
      by_contra hnone
      rw [Bool.not_eq_true, isSome_eq_false_iff] at hnone
      exact hroom (.inl hnone)
    exact copy_spec hrhs (hclear.blank hsome) (fun _ => ⟨hclear.wf, hclear.items, hsome⟩) hr'

end Eabase.Utility.FlatMap
