import Mathlib.Algebra.BigOperators.Group.Finset.Basic

/-!
# Things and their places

Things lie in places, each place a list of what lies in it. They are placed
*exclusively* when no thing lies twice in one place or in two of them. Moving
things between two places, dropping some and putting a new one anywhere keep
that; these are all the ways in which things move.
-/

namespace Eabase.Lib

open List

variable {π α : Type*} {c d : π → List α} {p q : π} {x : α}

theorem nodup_of_subperm {l l' : List α} (h : l'.Nodup) (hsub : l.Subperm l') : l.Nodup := by
  obtain ⟨m, hperm, hm⟩ := hsub
  exact hperm.nodup_iff.1 (hm.nodup h)

structure Exclusive (c : π → List α) : Prop where
  nodup : ∀ p, (c p).Nodup
  disjoint : ∀ p q, p ≠ q → List.Disjoint (c p) (c q)

namespace Exclusive

theorem nil : Exclusive (fun _ : π => ([] : List α)) where
  nodup _ := nodup_nil
  disjoint _ _ _ := disjoint_nil_left _

/-- A thing has one place. -/
theorem place_eq (h : Exclusive c) (hp : x ∈ c p) (hq : x ∈ c q) : p = q := by
  by_contra hne
  exact h.disjoint p q hne hp hq

theorem append_nodup (h : Exclusive c) (hpq : p ≠ q) : (c p ++ c q).Nodup :=
  nodup_append'.2 ⟨h.nodup p, h.nodup q, h.disjoint p q hpq⟩

/-- **Moving** between two places: what lies in them afterwards lay in them before. -/
theorem move (h : Exclusive c) (hpq : p ≠ q) (hsub : (d p ++ d q).Subperm (c p ++ c q))
    (hrest : ∀ r, r ≠ p → r ≠ q → d r = c r) : Exclusive d := by
  have hnd : (d p ++ d q).Nodup := nodup_of_subperm (h.append_nodup hpq) hsub
  obtain ⟨hp, hq, hdis⟩ := nodup_append'.1 hnd
  have hmem : ∀ {x}, x ∈ d p ∨ x ∈ d q → x ∈ c p ∨ x ∈ c q := fun {x} hx =>
    mem_append.1 (hsub.subset (mem_append.2 hx))
  have hout : ∀ r, r ≠ p → r ≠ q → ∀ x, x ∈ d p ∨ x ∈ d q → x ∉ d r := by
    intro r hrp hrq x hx hr
    rw [hrest r hrp hrq] at hr
    cases hmem hx with
    | inl hx => exact hrp (h.place_eq hr hx)
    | inr hx => exact hrq (h.place_eq hr hx)
  constructor
  · intro r
    by_cases hrp : r = p
    · exact hrp ▸ hp
    by_cases hrq : r = q
    · exact hrq ▸ hq
    rw [hrest r hrp hrq]
    exact h.nodup r
  · intro r r' hrr x hr hr'
    obtain rfl | hrp := eq_or_ne r p
    · obtain rfl | hrq := eq_or_ne r' q
      · exact hdis hr hr'
      · exact hout r' (.symm hrr) hrq x (.inl hr) hr'
    obtain rfl | hrq := eq_or_ne r q
    · obtain rfl | hrp' := eq_or_ne r' p
      · exact hdis hr' hr
      · exact hout r' hrp' (.symm hrr) x (.inr hr) hr'
    · have hx := hout r hrp hrq x
      by_cases hrp' : r' = p
      · exact hx (.inl (hrp' ▸ hr')) hr
      by_cases hrq' : r' = q
      · exact hx (.inr (hrq' ▸ hr')) hr
      rw [hrest r hrp hrq] at hr
      rw [hrest r' hrp' hrq'] at hr'
      exact h.disjoint r r' hrr hr hr'

/-- What lies somewhere after things were moved lay somewhere before. -/
theorem mem_of_move (hsub : (d p ++ d q).Subperm (c p ++ c q))
    (hrest : ∀ r, r ≠ p → r ≠ q → d r = c r) {r : π} (hx : x ∈ d r) : ∃ r', x ∈ c r' := by
  have hpq : x ∈ d p ++ d q → ∃ r', x ∈ c r' := fun h => by
    cases mem_append.1 (hsub.subset h) with
    | inl h => exact ⟨p, h⟩
    | inr h => exact ⟨q, h⟩
  by_cases hrp : r = p
  · exact hpq (mem_append_left _ (hrp ▸ hx))
  by_cases hrq : r = q
  · exact hpq (mem_append_right _ (hrq ▸ hx))
  exact ⟨r, hrest r hrp hrq ▸ hx⟩

/-- What lies somewhere does so after things were moved, when none was dropped. -/
theorem mem_move_iff (hperm : (d p ++ d q).Perm (c p ++ c q)) (hrest : ∀ r, r ≠ p → r ≠ q → d r = c r) :
    (∃ r, x ∈ d r) ↔ ∃ r, x ∈ c r := by
  constructor
  · rintro ⟨r, hx⟩
    exact mem_of_move hperm.subperm hrest hx
  · rintro ⟨r, hx⟩
    exact mem_of_move hperm.symm.subperm (fun r hp hq => (hrest r hp hq).symm) hx

/-- Things are dropped from one place, or lie in it in another order. -/
theorem shrink (h : Exclusive c) (hsub : (d p).Subperm (c p)) (hrest : ∀ r, r ≠ p → d r = c r) :
    Exclusive d := by
  have hmem : ∀ {r x}, x ∈ d r → x ∈ c r := by
    intro r x hx
    obtain rfl | hr := eq_or_ne r p
    · exact hsub.subset hx
    · exact hrest r hr ▸ hx
  constructor
  · intro r
    obtain rfl | hr := eq_or_ne r p
    · exact nodup_of_subperm (h.nodup r) hsub
    · exact hrest r hr ▸ h.nodup r
  · intro r r' hrr x hx hx'
    exact h.disjoint r r' hrr (hmem hx) (hmem hx')

/-- A thing that lay nowhere is put in a place. -/
theorem insert (h : Exclusive c) (hx : ∀ r, x ∉ c r) (hperm : (d p).Perm (x :: c p))
    (hrest : ∀ r, r ≠ p → d r = c r) : Exclusive d := by
  have hmem : ∀ {r y}, y ∈ d r → y ∈ c r ∨ (r = p ∧ y = x) := by
    intro r y hy
    obtain rfl | hr := eq_or_ne r p
    · cases mem_cons.1 (hperm.subset hy) with
      | inl hyx => exact .inr ⟨rfl, hyx⟩
      | inr hyc => exact .inl hyc
    · exact .inl (hrest r hr ▸ hy)
  constructor
  · intro r
    obtain rfl | hr := eq_or_ne r p
    · exact hperm.nodup_iff.2 (nodup_cons.2 ⟨hx r, h.nodup r⟩)
    · exact hrest r hr ▸ h.nodup r
  · intro r r' hrr y hy hy'
    rcases hmem hy with hy | ⟨rfl, rfl⟩
    · rcases hmem hy' with hy' | ⟨rfl, rfl⟩
      · exact h.disjoint r r' hrr hy hy'
      · exact hx r hy
    · rcases hmem hy' with hy' | ⟨rfl, _⟩
      · exact hx r' hy'
      · exact hrr rfl

/-- Places under other names. -/
theorem comap {ρ : Type*} {e : ρ → π} (h : Exclusive c) (he : Function.Injective e) :
    Exclusive fun r => c (e r) where
  nodup r := h.nodup (e r)
  disjoint _ _ hne := h.disjoint _ _ fun heq => hne (he heq)

/-- When a list has every placed thing once, its length is that of all places together. -/
theorem length_eq [Fintype π] (h : Exclusive c) {l : List α} (hnd : l.Nodup)
    (hmem : ∀ x, x ∈ l ↔ ∃ p, x ∈ c p) :
    l.length = ∑ p, (c p).length := by
  classical
  have hunion : l.toFinset = Finset.univ.biUnion fun p => (c p).toFinset := by
    ext x
    simp only [mem_toFinset, Finset.mem_biUnion, Finset.mem_univ, true_and]
    exact hmem x
  have hdisjoint : ∀ p q, p ≠ q → Disjoint (c p).toFinset (c q).toFinset := by
    intro p q hne
    rw [disjoint_toFinset_iff_disjoint]
    exact h.disjoint p q hne
  rw [← toFinset_card_of_nodup hnd, hunion, Finset.card_biUnion fun p _ q _ => hdisjoint p q]
  exact Finset.sum_congr rfl fun p _ => toFinset_card_of_nodup (h.nodup p)

end Exclusive

/-! ## Places by a relation -/

variable {A B : π → α → Prop}

/-- No thing lies in two places, when a relation says where things lie. -/
def Apart (A : π → α → Prop) : Prop :=
  ∀ p q x, A p x → A q x → p = q

namespace Apart

/-- Things come from other places, no two places from one. -/
theorem move (h : Apart A) (g : π → π) (hback : ∀ p x, B p x → A (g p) x)
    (hinj : ∀ p q x, B p x → B q x → g p = g q → p = q) : Apart B := by
  intro p q x hp hq
  apply hinj p q x hp hq
  exact h (g p) (g q) x (hback p x hp) (hback q x hq)

/-- Things are dropped. -/
theorem mono (h : Apart A) (hsub : ∀ p x, B p x → A p x) : Apart B :=
  h.move id hsub fun _ _ _ _ _ heq => heq

/-- What lies in one place is moved to another. -/
theorem transfer (h : Apart A) (hrest : ∀ r x, r ≠ q → B r x → A r x) (hq : ∀ x, B q x → A p x)
    (hp : ∀ x, ¬B p x) : Apart B := by
  intro r r' x hr hr'
  have hne : ∀ {r}, r ≠ q → B r x → ¬B q x := by
    intro r hrq hr hqx
    have hrp := h r p x (hrest r x hrq hr) (hq x hqx)
    subst hrp
    exact hp x hr
  obtain rfl | hrq := eq_or_ne r q
  · by_contra hrr
    exact hne (.symm hrr) hr' hr
  · obtain rfl | hrq' := eq_or_ne r' q
    · exact (hne hrq hr hr').elim
    · exact h r r' x (hrest r x hrq hr) (hrest r' x hrq' hr')

/-- A thing that lay nowhere is put in a place. -/
theorem insert (h : Apart A) (hx : ∀ r, ¬A r x) (hback : ∀ r y, B r y → A r y ∨ r = p ∧ y = x) :
    Apart B := by
  intro r r' y hr hr'
  rcases hback r y hr with hry | ⟨rfl, rfl⟩
  · rcases hback r' y hr' with hry' | ⟨rfl, rfl⟩
    · exact h r r' y hry hry'
    · exact (hx r hry).elim
  · rcases hback r' y hr' with hry' | ⟨rfl, _⟩
    · exact (hx r' hry').elim
    · rfl

end Apart

end Eabase.Lib
