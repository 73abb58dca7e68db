import Mathlib.Data.List.Nodup

/-!
# Linked segments over a successor function

A heap of nodes linked by one pointer field is a function `next : α → α`.
`Seg next p l q` says that following `next` from `p` visits exactly the
nodes of `l`, in order, and then stands at `q`. A null-terminated list is
a segment that ends at the null pointer and does not run over it
(`Chain`); such a list is finite by construction, and it follows that it
has no repeated node (`Chain.nodup`): a repetition would be a cycle, and a
cycle never reaches the null pointer.

The frame rule is `Seg.congr`: only the links of the visited nodes matter.
-/

namespace Eabase.Lib

open Function List

variable {α : Type*} {next next' : α → α} {p q m a null : α} {l l₁ l₂ : List α}

/-- The path from `p` through the nodes of `l` to `q` (exclusive). -/
def Seg (next : α → α) : α → List α → α → Prop
  | p, [], q => p = q
  | p, a :: l, q => p = a ∧ Seg next (next a) l q

@[simp] theorem seg_nil : Seg next p [] q ↔ p = q := Iff.rfl

@[simp] theorem seg_cons :
    Seg next p (a :: l) q ↔ p = a ∧ Seg next (next a) l q := Iff.rfl

theorem seg_append : Seg next p (l₁ ++ l₂) q ↔ ∃ m, Seg next p l₁ m ∧ Seg next m l₂ q := by
  induction l₁ generalizing p with
  | nil => simp
  | cons a l ih => simp [ih, and_assoc]

/-- Only the links of the visited nodes matter. -/
theorem Seg.congr (h : ∀ a ∈ l, next' a = next a) (hs : Seg next p l q) : Seg next' p l q := by
  induction l generalizing p with
  | nil => exact hs
  | cons a l ih =>
    obtain ⟨rfl, hs⟩ := hs
    refine ⟨rfl, ?_⟩
    rw [h p mem_cons_self]
    exact ih (fun b hb => h b (mem_cons_of_mem _ hb)) hs

def Chain (next : α → α) (null p : α) (l : List α) : Prop :=
  Seg next p l null ∧ null ∉ l

@[simp] theorem chain_nil : Chain next null p [] ↔ p = null := by simp [Chain]

theorem chain_cons :
    Chain next null p (a :: l) ↔ p = a ∧ a ≠ null ∧ Chain next null (next a) l := by
  constructor
  · rintro ⟨⟨rfl, hs⟩, hn⟩
    rw [mem_cons, not_or] at hn
    exact ⟨rfl, .symm hn.1, hs, hn.2⟩
  · rintro ⟨rfl, ha, hs, hn⟩
    refine ⟨⟨rfl, hs⟩, ?_⟩
    rw [mem_cons, not_or]
    exact ⟨Ne.symm ha, hn⟩

theorem Chain.congr (h : ∀ a ∈ l, next' a = next a) (hc : Chain next null p l) :
    Chain next' null p l := ⟨hc.1.congr h, hc.2⟩

theorem Chain.ne_null (hc : Chain next null p l) (h : a ∈ l) : a ≠ null := by
  rintro rfl
  exact hc.2 h

/-- A chain is empty exactly when it starts at the null pointer. -/
theorem Chain.eq_nil_iff (hc : Chain next null p l) : l = [] ↔ p = null := by
  cases l with
  | nil => simpa using hc
  | cons a l =>
    obtain ⟨rfl, ha, _⟩ := chain_cons.1 hc
    simp [ha]

/-- The start and the links determine the list. -/
theorem Chain.unique (h1 : Chain next null p l₁) (h2 : Chain next null p l₂) : l₁ = l₂ := by
  induction l₁ generalizing p l₂ with
  | nil =>
    have hp := chain_nil.1 h1
    exact (h2.eq_nil_iff.2 hp).symm
  | cons a l ih =>
    obtain ⟨rfl, ha, h1⟩ := chain_cons.1 h1
    cases l₂ with
    | nil => exact absurd (chain_nil.1 h2) ha
    | cons b l' =>
      obtain ⟨rfl, _, h2⟩ := chain_cons.1 h2
      rw [ih h1 h2]

theorem Chain.suffix (h : Chain next null p (l₁ ++ a :: l₂)) : Chain next null a (a :: l₂) := by
  obtain ⟨⟨m, -, hs⟩, hn⟩ := And.imp_left seg_append.1 h
  obtain ⟨rfl, -⟩ := id hs
  exact ⟨hs, fun hm => hn (mem_append_right _ hm)⟩

/-- A link leads to a node of the chain or to the null pointer. -/
theorem Chain.next_mem (h : Chain next null p l) (ha : a ∈ l) (hn : next a ≠ null) : next a ∈ l := by
  obtain ⟨l₁, l₂, rfl⟩ := append_of_mem ha
  obtain ⟨-, -, htail⟩ := chain_cons.1 h.suffix
  cases l₂ with
  | nil => exact absurd (chain_nil.1 htail) hn
  | cons b l₂ =>
    obtain ⟨hb, -, -⟩ := chain_cons.1 htail
    rw [hb]
    simp

/-- **No repetition.** Two occurrences of a node would start two different
lists from the same node. -/
theorem Chain.nodup (h : Chain next null p l) : l.Nodup := by
  induction l generalizing p with
  | nil => exact nodup_nil
  | cons a l ih =>
    have htail := (chain_cons.1 h).2.2
    refine nodup_cons.2 ⟨fun hmem => ?_, ih htail⟩
    obtain ⟨s, t, rfl⟩ := append_of_mem hmem
    have hp : p = a := (chain_cons.1 h).1
    have htwice : Chain next null a (a :: (s ++ a :: t)) := hp ▸ h
    have honce : Chain next null a (a :: t) := htail.suffix
    have hlen := congrArg length (htwice.unique honce)
    simp at hlen
    lia

/-- A node that is its own successor starts no chain. -/
theorem Chain.eq_null_of_self (h : Chain next null p l) (hp : next p = p) : p = null := by
  cases l with
  | nil => exact chain_nil.1 h
  | cons a l =>
    obtain ⟨rfl, -, htail⟩ := chain_cons.1 h
    rw [hp] at htail
    have hlen := congrArg length (h.unique htail)
    simp at hlen

/-- The nodes that following the links from `p` visits, `fuel` at most. -/
def walk [DecidableEq α] (next : α → α) (null : α) : ℕ → α → List α
  | 0, _ => []
  | fuel + 1, p => if p = null then [] else p :: walk next null fuel (next p)

/-- With fuel enough a walk visits the chain. -/
theorem Chain.walk [DecidableEq α] {fuel : ℕ} (h : Chain next null p l) (hl : l.length ≤ fuel) :
    walk next null fuel p = l := by
  induction fuel generalizing p l with
  | zero =>
    have hnil := eq_nil_of_length_eq_zero (Nat.le_zero.1 hl)
    rw [hnil]
    rfl
  | succ fuel ih =>
    cases l with
    | nil => exact if_pos (chain_nil.1 h)
    | cons a l =>
      obtain ⟨rfl, hne, htail⟩ := chain_cons.1 h
      rw [Lib.walk, if_neg hne, ih htail (Nat.le_of_succ_le_succ hl)]

/-- A new node is linked in behind `m`. -/
theorem Chain.insertAfter [DecidableEq α] (h : Chain next null p (l₁ ++ m :: l₂)) (hn : q ≠ null)
    (hq : q ∉ l₁ ++ m :: l₂) :
    Chain (update (update next q (next m)) m q) null p (l₁ ++ m :: q :: l₂) := by
  have hnd := h.nodup
  induction l₁ generalizing p with
  | nil =>
    rw [nil_append] at h hq hnd
    obtain ⟨hpm, hne, htail⟩ := chain_cons.1 h
    rw [mem_cons, not_or] at hq
    have hm : m ∉ l₂ := (nodup_cons.1 hnd).1
    refine chain_cons.2 ⟨hpm, hne, ?_⟩
    rw [update_self]
    refine chain_cons.2 ⟨rfl, hn, ?_⟩
    rw [update_of_ne hq.1, update_self]
    refine htail.congr ?_
    intro a ha
    rw [update_of_ne, update_of_ne]
    · rintro rfl
      exact hq.2 ha
    · rintro rfl
      exact hm ha
  | cons a l ih =>
    rw [cons_append] at h hq hnd
    obtain ⟨rfl, hne, htail⟩ := chain_cons.1 h
    rw [mem_cons, not_or] at hq
    have ha : p ∉ l ++ m :: l₂ := (nodup_cons.1 hnd).1
    refine chain_cons.2 ⟨rfl, hne, ?_⟩
    rw [update_of_ne, update_of_ne]
    · exact ih htail hq.2 (nodup_cons.1 hnd).2
    · exact Ne.symm hq.1
    · rintro rfl
      exact ha (mem_append_right _ mem_cons_self)

end Eabase.Lib
