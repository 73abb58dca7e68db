import Eabase.Utility.FlatMapRefine

/-!
# The iterator of a sparse FlatMap

A sparse `FlatMap` finds its valid buckets by its thumbnail, whose bits are
always right. The search for the next one goes wrong when all buckets are in one
word, the last valid bucket has one behind it, and the word has no bit above
those of the buckets, of which nobody knows what they are: then the first bucket
is found again, and the loop from `begin()` to `end()` never ends.
-/

namespace Eabase.Utility.FlatMap

open Lib Utility.BitArray Function

variable {K V ι : Type*} {T : Traits K V} {m : Map K V} {bs : List (Bucket K V)} {words : List Word}

def Traits.thin (T : Traits K V) : Traits K V :=
  { T with sparse := true }

/-- The loop from `begin()` to `end()` ends, and has seen each element once, in the order of the
buckets. -/
def Visits (T : Traits K V) (m : Map K V) (bs : List (Bucket K V)) : Prop :=
  ∃ fuel, (iterator T m bs 0).bind (walk T m bs fuel) = some (contents bs)

def Agrees (m : Map K V) (bs : List (Bucket K V)) (words : List Word) : Prop :=
  ∀ i < m.nbucket, bit words i = validAt bs i

theorem visits_iff (hT : T.sparse = true) (h : Wf T m) (hbs : m.buckets = some bs)
    (hwords : m.thumbnail = some words)
    (hmarks : Marks words bs m.nbucket) : Visits T m bs ↔ ¬Loops m bs words := by
  have htable := h.table bs hbs
  have hsize := h.size
  rw [Map.items_of_buckets hbs] at hsize
  constructor
  · rintro ⟨fuel, hwalk⟩ hloops
    obtain ⟨entry, hentry, hvalid⟩ :=
      next_of_loops hT htable hsize hwords hmarks hloops (Nat.zero_le _) (.inl rfl)
    have hnone : walk T m bs fuel ⟨entry, 0⟩ = none :=
      walk_of_loops hT htable hsize hwords hmarks hloops _ hvalid
    rw [iterator, hentry, Option.map_some, Option.bind_some, hnone] at hwalk
    cases hwalk
  · intro hloops
    have hnext := nextOk_of_not_loops hT htable hsize hwords hmarks hloops
    have hall := elements_of_nextOk h fun bs' hbs' => by
      rw [hbs] at hbs'
      cases hbs'
      exact hnext
    refine ⟨m.size + 1, ?_⟩
    rw [elements, hbs, Map.items_of_buckets hbs] at hall
    exact hall

variable [DecidableEq ι]

/-- `P` holds in every state that is reached by calls that meet `C` and return. -/
def Always (T : Traits K V) (C : (ι → Map K V) → Act ι K V → Prop) (P : (ι → Map K V) → Prop) :
    (ι → Map K V) → List (Act ι K V) → Prop
  | s, [] => P s
  | s, act :: as => P s ∧ (C s act → ∀ s' out, step T s act = some (s', out) → Always T C P s' as)

/-- An `init` that gets memory for the buckets gets it for the thumbnail. -/
def Thumbed : Act ι K V → Prop
  | .init _ _ _ mem => mem.ask.2.ask.1.isSome = true
  | _ => True

def Sound (T : Traits K V) (s : ι → Map K V) (act : Act ι K V) : Prop :=
  Initialized s act ∧ Fits T s act ∧ Thumbed act

variable {s s' : ι → Map K V} {out : Out K V}

theorem wf_update (h : ∀ i, Wf T (s i)) (i : ι) (hm : Wf T m) (j : ι) : Wf T (update s i m j) := by
  obtain rfl | hj := eq_or_ne j i
  · rw [update_self]
    exact hm
  · rw [update_of_ne hj]
    exact h j

theorem step_wf (h : ∀ i, Wf T (s i)) (act : Act ι K V) (hsound : Sound T s act)
    (hstep : step T s act = some (s', out)) :
    ∀ i, Wf T (s' i) := by
  obtain ⟨hinit, hfits, hthumb⟩ := hsound
  cases act with
  | init i nbucket loadFactor mem =>
    obtain ⟨r, hr, heq⟩ := Option.map_eq_some_iff.1 hstep
    cases heq
    apply wf_update h
    cases hok : r.2.2 with
    | true =>
      exact (init_ok nbucket.toNat_lt (fun h1 h2 h3 h4 h5 => (hfits h1 h2 h3 h4 h5).1) hr hok).1.wf
    | false =>
      rcases init_failed hr hok (fun h1 h2 h3 h4 h5 => (hfits h1 h2 h3 h4 h5).1) fun _ => hthumb with
        heq | ⟨-, hnone, hsize⟩
      · rw [heq]
        exact h i
      · exact Wf.empty hnone hsize
  | insert i k v mem =>
    obtain ⟨r, hr, heq⟩ := Option.map_eq_some_iff.1 hstep
    cases heq
    exact wf_update h i (insertBy_spec operator_spec (h i) hinit hr).1.wf
  | operator i k mem =>
    obtain ⟨r, hr, hrest⟩ := Option.bind_eq_some_iff.1 hstep
    obtain ⟨v, -, heq⟩ := Option.map_eq_some_iff.1 hrest
    cases heq
    exact wf_update h i (operator_spec mem (s i) k r (h i) hinit hr).1.wf
  | erase i k old =>
    obtain ⟨r, hr, heq⟩ := Option.map_eq_some_iff.1 hstep
    obtain ⟨r', hr', halters, -⟩ := erase_spec (h i) k
    rw [hr] at hr'
    cases hr'
    cases heq
    exact wf_update h i halters.wf
  | clear i =>
    cases hstep
    exact wf_update h i (clear_spec (h i)).wf
  | resize i nbucket mem =>
    obtain ⟨r, hr, heq⟩ := Option.map_eq_some_iff.1 hstep
    have hspec := resizeBy_spec operator_spec (h i) nbucket.toNat_lt hr
    cases heq
    apply wf_update h
    split at hspec
    · exact hspec.wf
    · rw [hspec]
      exact h i
  | assign i j mem =>
    simp only [step] at hstep
    split at hstep
    case isTrue =>
      cases hstep
      exact h
    case isFalse =>
      obtain ⟨r, hr, heq⟩ := Option.map_eq_some_iff.1 hstep
      have hspec := assign_spec (h i) (h j) hr
      cases heq
      apply wf_update h
      split at hspec
      · exact hspec.wf
      · exact Wf.empty hspec.1 hspec.2.1
  | swap i j =>
    cases hstep
    exact wf_update (wf_update h i (h j)) j (h i)
  | seek i k =>
    obtain ⟨r, -, heq⟩ := Option.map_eq_some_iff.1 hstep
    cases heq
    exact h
  | size i =>
    cases hstep
    exact h
  | iterate i =>
    obtain ⟨r, -, heq⟩ := Option.map_eq_some_iff.1 hstep
    cases heq
    exact h

theorem always_of_wf {P : (ι → Map K V) → Prop} (hP : ∀ s : ι → Map K V, (∀ i, Wf T (s i)) → P s)
    (h : ∀ i, Wf T (s i)) (as : List (Act ι K V)) : Always T (Sound T) P s as := by
  induction as generalizing s with
  | nil => exact hP s h
  | cons act as ih =>
    refine ⟨hP s h, ?_⟩
    intro hsound s' out hstep
    exact ih (step_wf h act hsound hstep)

/-- In every map with buckets the thumbnail is right, and the iterator is where it should not run in
a circle. -/
def SparseOk (T : Traits K V) (s : ι → Map K V) : Prop :=
  ∀ i bs, (s i).buckets = some bs →
    ∃ words, (s i).thumbnail = some words ∧ Agrees (s i) bs words ∧
      (Visits T (s i) bs ↔ ¬Loops (s i) bs words)

/-- In every state that sparse maps can reach their thumbnails are right, and their iterators end,
with each element seen once and in order, exactly when they do not run in a circle. -/
theorem run_thumbnail (T : Traits K V) (as : List (Act ι K V)) :
    Always T.thin (Sound T.thin) (SparseOk T.thin) (fun _ => Map.new) as := by
  apply always_of_wf
  · intro s h i bs hbs
    have htable := (h i).table bs hbs
    obtain ⟨words, hwords, hmarks⟩ := htable.thumbnail rfl
    refine ⟨words, hwords, ?_, visits_iff rfl (h i) hbs hwords hmarks⟩
    intro j hj
    apply bit_eq_validAt hmarks
    rw [htable.sorted.length]
    exact hj
  · exact fun _ => .empty rfl rfl

theorem run_thumbnail_chained :
    Meets numbers.thin (Sound numbers.thin) (fun _ => Map.new) chained ∧
    Always numbers.thin (Sound numbers.thin) (SparseOk numbers.thin) (fun _ => Map.new) chained :=
  ⟨⟨⟨trivial, fun _ _ _ _ _ => by decide, rfl⟩, _, _, rfl, ⟨rfl, trivial, trivial⟩, _, _, rfl,
      ⟨rfl, trivial, trivial⟩, _, _, rfl, ⟨rfl, trivial, trivial⟩, _, _, rfl,
        ⟨trivial, trivial, trivial⟩, _, _, rfl,
      ⟨trivial, fun _ _ _ _ _ => by decide, trivial⟩, _, _, rfl, ⟨trivial, trivial, trivial⟩, _, _,
        rfl, trivial⟩,
    run_thumbnail numbers chained⟩

/-- In every map with buckets the thumbnail is right, and the iterator too. -/
def SparseRight (T : Traits K V) (s : ι → Map K V) : Prop :=
  ∀ i bs, (s i).buckets = some bs →
    ∃ words, (s i).thumbnail = some words ∧ Agrees (s i) bs words ∧ Visits T (s i) bs

def alone : Map ℕ ℕ :=
  ⟨1, 8, some (.node (0, 7) [] :: List.replicate 7 .invalid), some [1], 80⟩

theorem walk_alone (fuel : ℕ) :
    walk numbers.thin alone (.node (0, 7) [] :: List.replicate 7 .invalid) fuel ⟨0, 0⟩ = none := by
  induction fuel with
  | zero => rfl
  | succ fuel ih =>
    have hfirst : findAndSetValidNode numbers.thin alone
        (.node (0, 7) [] :: List.replicate 7 .invalid) 1 = some 0 := by
      decide
    have hnext : next numbers.thin alone (.node (0, 7) [] :: List.replicate 7 .invalid) ⟨0, 0⟩ [(0, 7)]
        = some ⟨0, 0⟩ := by
      rw [next, if_neg (by decide), iterator, hfirst]
      rfl
    rw [walk, if_neg (by decide)]
    show ((next numbers.thin alone _ ⟨0, 0⟩ [(0, 7)]).bind _).map _ = none
    rw [hnext, Option.bind_some, ih]
    rfl

theorem thumbnail_circle : ¬∀ as : List (Act Unit ℕ ℕ),
    Always numbers.thin (Sound numbers.thin) (SparseRight numbers.thin) (fun _ => Map.new) as := by
  intro h
  have hinit : FlatMap.init numbers.thin [] Map.new (8 : UInt64).toNat 80
      = some ([], ⟨0, 8, some (List.replicate 8 .invalid), some [0], 80⟩, true) := by decide
  have hinsert : FlatMap.insert numbers.thin [] ⟨0, 8, some (List.replicate 8 .invalid), some [0], 80⟩ 0 7
      = some ([], alone) := by decide
  obtain ⟨-, hafter⟩ := h [.init () 8 80 [], .insert () 0 7 []]
  have hsound : Sound numbers.thin (fun _ : Unit => (.new : Map ℕ ℕ)) (.init () 8 80 []) :=
    ⟨trivial, fun _ _ _ _ _ => by decide, rfl⟩
  obtain ⟨-, hafter⟩ := hafter hsound _ _ (by rw [step, hinit]; rfl)
  have hlast := hafter ⟨rfl, trivial, trivial⟩ _ _ (by rw [step, update_self, hinsert]; rfl)
  obtain ⟨words, -, -, fuel, hwalk⟩ := hlast () _ rfl
  have hnone : (iterator numbers.thin alone (.node (0, 7) [] :: List.replicate 7 .invalid) 0).bind
      (walk numbers.thin alone (.node (0, 7) [] :: List.replicate 7 .invalid) fuel) = none :=
        walk_alone fuel
  rw [update_self] at hwalk
  cases hnone.symm.trans hwalk

end Eabase.Utility.FlatMap
